import PhpantomLsp.PhpType.NamedLattice

/-!
# The names of scalar types

The scalar keywords, in lowercase, and the order the tables of subtyping give
them.  The tables list the names above each name by hand; that the lists are
closed under composition is checked once, over all the keywords, and every
casing of a keyword reduces to it.
-/

namespace PhpantomLsp

open Text

/-- The scalar keywords. -/
def scalarKeywords : List String :=
  ["int", "integer"] ++ intRefinements ++ ["float", "double", "real", "string"] ++
    stringRefinements ++ ["view-string"] ++
    ["bool", "boolean", "true", "false", "null", "numeric", "scalar", "array-key", "number"]

/-- The order of two keywords in `is_named_subtype`. -/
def keywordSubtype (sub sup : String) : Bool :=
  normalizeAlias sub = normalizeAlias sup ||
    namedSubtypeTable sub (normalizeAlias sub) (normalizeAlias sup)

/-- The order of two keywords in `is_subtype_of`, which reads `array-key` as
`int|string`. -/
def keywordBelow (sub sup : String) : Bool :=
  sub = sup ||
    (if sub = "array-key" then keywordSubtype "int" sup && keywordSubtype "string" sup
    else keywordSubtype sub sup)

/-! ## What the tables contain -/

/-- The keywords an integer range is below, whatever its bounds. -/
def wideIntKeywords : List String :=
  ["int", "integer", "float", "double", "real", "numeric", "number", "scalar", "array-key"]

/-- An integer range between two bounds is below a keyword. -/
def boundsBelow (lo hi : Int) (sup : String) : Bool :=
  sup ∈ wideIntKeywords ||
    match refinedIntToRange sup with
    | some (min, max) => parseRangeBound min ≤ lo && hi ≤ parseRangeBound max
    | none => sup = "non-zero-int" && (1 ≤ lo || hi ≤ -1)

/-- The bounds of a refined integer keyword. -/
def refinedBounds (name : String) : Option (Int × Int) :=
  (refinedIntToRange name).map fun (min, max) => (parseRangeBound min, parseRangeBound max)

/-- What a string content is asked about. -/
structure ContentFacts where
  empty : Bool
  zero : Bool
  numeric : Bool
  upper : Bool
  lower : Bool
  deriving DecidableEq

/-- A string of these properties is below a keyword. -/
def ContentFacts.below (facts : ContentFacts) (sup : String) : Bool :=
  sup ∈ ["string", "literal-string", "scalar", "array-key"] ||
    sup == "view-string" ||
    (!facts.empty && sup ∈ ["non-empty-string", "non-empty-literal-string"]) ||
    (!facts.empty && !facts.zero && sup ∈ ["truthy-string", "non-falsy-string"]) ||
    (sup ∈ ["numeric-string", "numeric"] && facts.numeric) ||
    (sup ∈ ["lowercase-string", "non-empty-lowercase-string"] && !facts.upper &&
      (sup ≠ "non-empty-lowercase-string" || !facts.empty)) ||
    (sup ∈ ["uppercase-string", "non-empty-uppercase-string"] && !facts.lower &&
      (sup ≠ "non-empty-uppercase-string" || !facts.empty)) ||
    sup == "callable-string"

/-- The string contents there are: an empty one is neither `0` nor a number. -/
def contentFacts : List ContentFacts := do
  let upper ← [true, false]
  let lower ← [true, false]
  let (empty, zero, numeric) ← [(true, false, false), (false, true, true), (false, true, false),
    (false, false, true), (false, false, false)]
  [⟨empty, zero, numeric, upper, lower⟩]

/-- The string that a function is named by is no empty string, and a literal
is taken for such a name without asking what it is. -/
def functionNameGap (facts : ContentFacts) (mid sup : String) : Bool :=
  mid == "callable-string" &&
    ((facts.empty && sup == "non-empty-string") ||
      ((facts.empty || facts.zero) && sup ∈ ["truthy-string", "non-falsy-string"]))

/-- Of the names above `string`, `view-string` is listed below none. -/
def viewStringGap (sub mid sup : String) : Bool :=
  sub == "view-string" && mid == "string" && sup ∈ ["scalar", "array-key"]

def floatLiteralKeywords : List String :=
  ["float", "double", "real", "numeric", "number", "scalar"]

/-- The names the tables of names know. -/
def reservedNames : List String :=
  scalarKeywords ++ ["resource", "no-return", "noreturn", "never-return", "never-returns",
    "non-empty-mixed", "never", "mixed", "void", "array", "list", "non-empty-list",
    "non-empty-array", "associative-array", "iterable", "object", "callable", "callable-object",
    "callable-array", "closure", "closed-resource", "open-resource"]

/-- A name that no table of names knows. -/
def isClassReference (name : String) : Bool :=
  !(asciiLower (stripFqnPrefix name) ∈ reservedNames)

/-! ## The tables are closed -/

/-- What the tables are checked for, over all the keywords at once. -/
structure ScalarTables where
  keywords : List String
  /-- A keyword is in lowercase and no longer than the case folding reads. -/
  lower : ∀ name ∈ keywords, asciiLower name = name ∧ keywordLower name = name ∧
    byteLen name ≤ 48 ∧ name ≠ ""
  unprefixed : ∀ name ∈ reservedNames, name.toList.head? ≠ some '\\'
  aliases : ∀ name ∈ keywords, normalizeAlias name ∈ keywords ∧
    normalizeAlias name ∉ ["never", "mixed", "void", "object"]
  names : (keywords.all fun mid => keywords.all fun sup => !keywordBelow mid sup ||
    keywords.all fun sub => !keywordBelow sub mid || keywordBelow sub sup ||
      viewStringGap sub mid sup) = true
  /-- What is above a keyword an integer, a float or a string is below, it is
  below too. -/
  literals : (keywords.all fun mid => keywords.all fun sup => !keywordBelow mid sup ||
    ((!decide (mid ∈ wideIntKeywords) || decide (sup ∈ wideIntKeywords)) &&
    (!decide (mid ∈ floatLiteralKeywords) || decide (sup ∈ floatLiteralKeywords)) &&
    contentFacts.all fun facts => !facts.below mid || facts.below sup ||
      functionNameGap facts mid sup)) = true
  /-- What is above a refined integer keyword is above its range. -/
  bounds : (keywords.all fun mid => keywords.all fun sup => !keywordBelow mid sup ||
    (((refinedBounds mid).all fun (lo, hi) => boundsBelow lo hi sup) &&
    (mid != "non-zero-int" || decide (sup ∈ wideIntKeywords) || sup == "non-zero-int") &&
    ((refinedBounds sup).all fun (lo, hi) =>
      (refinedBounds mid).any fun (lo', hi') => lo ≤ lo' && hi' ≤ hi))) = true
  ranges : (keywords.all fun sub => keywords.all fun sup =>
    (refinedBounds sub).all fun (lo, hi) =>
      !boundsBelow lo hi sup || keywordBelow sub sup) = true
  arrayKey : ∀ sup ∈ keywords,
    keywordBelow "array-key" sup = (keywordBelow "int" sup && keywordBelow "string" sup)

def scalarTables : ScalarTables where
  keywords := scalarKeywords
  lower := by decide +kernel
  unprefixed := by decide +kernel
  aliases := by decide +kernel
  names := by decide +kernel
  literals := by decide +kernel
  bounds := by decide +kernel
  ranges := by decide +kernel
  arrayKey := by decide +kernel

/-! ## One keyword in any casing -/

/-- A name that is read as a scalar keyword is that keyword, in a casing that
makes it no class. -/
theorem asciiLower_of_keyword {name : String} (h : keywordLower name ∈ scalarKeywords) :
    asciiLower name = keywordLower name ∧ isPseudoClass name = false := by
  have hlower := scalarTables.lower _ h
  unfold keywordLower at *
  dsimp only at *
  by_cases hcase : cappedLower name ≠ name ∧ isLowercaseOnlyPseudoType (cappedLower name) = true
  · rw [if_pos hcase] at hlower
    have hcapped : cappedLower name = name := by
      unfold cappedLower
      rw [if_neg (by have := hlower.2.2.1; omega), hlower.1]
    exact absurd hcapped hcase.1
  · rw [if_neg hcase] at hlower ⊢
    have hcapped : cappedLower name = asciiLower name := by
      unfold cappedLower at hlower ⊢
      split
      · rename_i hlong
        rw [if_pos hlong] at hlower
        exact absurd rfl hlower.2.2.2
      · rfl
    rw [hcapped] at hcase
    refine ⟨hcapped.symm, ?_⟩
    unfold isPseudoClass
    by_contra hpseudo
    rw [Bool.not_eq_false, Bool.and_eq_true, decide_eq_true_eq] at hpseudo
    exact hcase ⟨fun h => hpseudo.2 h.symm, hpseudo.1⟩

theorem stripFqnPrefix_of_head {name : String} (h : name.toList.head? ≠ some '\\') :
    stripFqnPrefix name = name := by
  unfold stripFqnPrefix stripPrefixChar
  cases hname : name.toList with
  | nil => rfl
  | cons c rest =>
      have hc : c ≠ '\\' := by
        intro heq
        exact h (by rw [hname, heq]; rfl)
      simp [hc]

theorem stripFqnPrefix_of_keyword {name : String} (h : keywordLower name ∈ scalarKeywords) :
    stripFqnPrefix name = name := by
  have hhead := scalarTables.unprefixed _ (List.mem_append_left _ h)
  apply stripFqnPrefix_of_head
  rw [← (asciiLower_of_keyword h).1, toList_asciiLower] at hhead
  intro hprefix
  cases hname : name.toList with
  | nil => simp [hname] at hprefix
  | cons c rest =>
      obtain rfl : c = '\\' := by simpa [hname] using hprefix
      rw [hname] at hhead
      exact hhead rfl

theorem namedSubtypeTable_congr {sub sub' subN supN : String} (h : supN ≠ "object") :
    namedSubtypeTable sub subN supN = namedSubtypeTable sub' subN supN := by
  unfold namedSubtypeTable
  simp only [h, if_false]

/-- Two keywords are compared by the tables. -/
theorem isNamedSubtype_keywords {sub sup : String} (hsub : keywordLower sub ∈ scalarKeywords)
    (hsup : keywordLower sup ∈ scalarKeywords) :
    isNamedSubtype sub sup = keywordSubtype (keywordLower sub) (keywordLower sup) := by
  obtain ⟨hlower, hpseudo⟩ := asciiLower_of_keyword hsub
  obtain ⟨hlower', hpseudo'⟩ := asciiLower_of_keyword hsup
  have hsubN := (scalarTables.aliases _ hsub).2
  have hsupN := (scalarTables.aliases _ hsup).2
  simp only [List.mem_cons, List.not_mem_nil, or_false, not_or] at hsubN hsupN
  unfold isNamedSubtype keywordSubtype
  simp only [stripFqnPrefix_of_keyword hsub, stripFqnPrefix_of_keyword hsup, hlower, hlower',
    hpseudo, hpseudo']
  by_cases heq : keywordLower sub = keywordLower sup
  · simp [heq]
  · rw [@namedSubtypeTable_congr sub (keywordLower sub) _ _ hsupN.2.2.2]
    simp only [heq, if_false, Bool.or_self, Bool.false_eq_true, hsubN.1, hsubN.2.2.1, hsupN.2.1,
      hsupN.2.2.1, or_self]
    by_cases halias : normalizeAlias (keywordLower sub) = normalizeAlias (keywordLower sup)
    · simp [halias]
    · simp [halias]

/-! ## Class references -/

section

variable {sub sup subN supN : String}

theorem normalizeAlias_of_not_reserved (h : subN ∉ reservedNames) : normalizeAlias subN = subN := by
  simp only [reservedNames, scalarKeywords, List.mem_append, List.mem_cons, List.not_mem_nil,
    or_false, not_or] at h
  simp [normalizeAlias, h]

/-- No table lists a name it does not know. -/
theorem namedSubtypeTable_of_sub (h : subN ∉ reservedNames) (hsup : supN ≠ "object") :
    namedSubtypeTable sub subN supN = false := by
  simp only [reservedNames, scalarKeywords, intRefinements, stringRefinements, List.mem_append,
    List.mem_cons, List.not_mem_nil, or_false, not_or] at h
  have hrange : refinedIntToRange subN = none := by simp [refinedIntToRange, h]
  unfold namedSubtypeTable
  simp only [hsup, if_false, hrange]
  simp [h, intRefinements, stringRefinements]

theorem namedSubtypeTable_of_sup (h : supN ∉ reservedNames) :
    namedSubtypeTable sub subN supN = false := by
  simp only [reservedNames, scalarKeywords, intRefinements, stringRefinements, List.mem_append,
    List.mem_cons, List.not_mem_nil, or_false, not_or] at h
  unfold namedSubtypeTable
  simp [h]

theorem not_reserved_of_class (h : isClassReference sub = true) :
    asciiLower (stripFqnPrefix sub) ∉ reservedNames := by
  simpa [isClassReference] using h

theorem isPseudoClass_of_not_reserved (h : asciiLower sub ∉ reservedNames) :
    isPseudoClass sub = false := by
  simp only [reservedNames, scalarKeywords, List.mem_append, List.mem_cons, List.not_mem_nil,
    or_false, not_or] at h
  simp [isPseudoClass, isLowercaseOnlyPseudoType, h]

theorem mem_reservedNames_of_keyword (h : keywordLower sub ∈ scalarKeywords) :
    asciiLower (stripFqnPrefix sub) ∈ reservedNames := by
  rw [stripFqnPrefix_of_keyword h, (asciiLower_of_keyword h).1]
  exact List.mem_append_left _ h

/-- A reference to a class is no reserved word even where its prefix is not
dropped. -/
theorem asciiLower_not_reserved_of_class (h : isClassReference sub = true) :
    asciiLower sub ∉ reservedNames := by
  intro hmem
  have hhead := scalarTables.unprefixed _ hmem
  have hstrip : stripFqnPrefix sub = sub := by
    apply stripFqnPrefix_of_head
    intro hprefix
    rw [toList_asciiLower] at hhead
    cases hname : sub.toList with
    | nil => simp [hname] at hprefix
    | cons c rest =>
        obtain rfl : c = '\\' := by simpa [hname] using hprefix
        rw [hname] at hhead
        exact hhead rfl
  exact not_reserved_of_class h (hstrip.symm ▸ hmem)

theorem keywordLower_of_class (h : isClassReference sub = true) :
    keywordLower sub ∉ scalarKeywords :=
  fun hmem => not_reserved_of_class h (mem_reservedNames_of_keyword hmem)

theorem isNamedSubtype_class_keyword (hsub : isClassReference sub = true)
    (hsup : keywordLower sup ∈ scalarKeywords) : isNamedSubtype sub sup = false := by
  have hreserved := not_reserved_of_class hsub
  have hknown := mem_reservedNames_of_keyword hsup
  have hsupN := (scalarTables.aliases _ hsup).2
  simp only [List.mem_cons, List.not_mem_nil, or_false, not_or] at hsupN
  have hmem : normalizeAlias (keywordLower sup) ∈ reservedNames :=
    List.mem_append_left _ (scalarTables.aliases _ hsup).1
  have hlower : asciiLower (stripFqnPrefix sup) = keywordLower sup := by
    rw [stripFqnPrefix_of_keyword hsup, (asciiLower_of_keyword hsup).1]
  have hne : ∀ name ∈ reservedNames, asciiLower (stripFqnPrefix sub) ≠ name :=
    fun name hname heq => hreserved (heq ▸ hname)
  have hpseudo : isPseudoClass (stripFqnPrefix sup) = false := by
    rw [stripFqnPrefix_of_keyword hsup]
    exact (asciiLower_of_keyword hsup).2
  unfold isNamedSubtype
  simp only [isPseudoClass_of_not_reserved hreserved, hpseudo, hlower,
    normalizeAlias_of_not_reserved hreserved, hne _ (hlower ▸ hknown), hne _ hmem,
    hne "never" (by simp [reservedNames]), hne "void" (by simp [reservedNames]), hsupN.2.1, hsupN.2.2.1,
    namedSubtypeTable_of_sub hreserved hsupN.2.2.2, if_false, Bool.or_self, or_self,
    Bool.false_eq_true]

theorem isNamedSubtype_keyword_class (hsub : keywordLower sub ∈ scalarKeywords)
    (hsup : isClassReference sup = true) : isNamedSubtype sub sup = false := by
  have hreserved := not_reserved_of_class hsup
  have hknown := mem_reservedNames_of_keyword hsub
  have hsubN := (scalarTables.aliases _ hsub).2
  simp only [List.mem_cons, List.not_mem_nil, or_false, not_or] at hsubN
  have hmem : normalizeAlias (keywordLower sub) ∈ reservedNames :=
    List.mem_append_left _ (scalarTables.aliases _ hsub).1
  have hlower : asciiLower (stripFqnPrefix sub) = keywordLower sub := by
    rw [stripFqnPrefix_of_keyword hsub, (asciiLower_of_keyword hsub).1]
  have hne : ∀ name ∈ reservedNames, name ≠ asciiLower (stripFqnPrefix sup) :=
    fun name hname heq => hreserved (heq ▸ hname)
  have hpseudo : isPseudoClass (stripFqnPrefix sub) = false := by
    rw [stripFqnPrefix_of_keyword hsub]
    exact (asciiLower_of_keyword hsub).2
  unfold isNamedSubtype
  simp only [isPseudoClass_of_not_reserved hreserved, hpseudo, hlower,
    normalizeAlias_of_not_reserved hreserved, hne _ (hlower ▸ hknown), hne _ hmem, hsubN.1,
    hsubN.2.2.1, (hne "mixed" (by simp [reservedNames])).symm, (hne "void" (by simp [reservedNames])).symm,
    namedSubtypeTable_of_sup hreserved, if_false, Bool.or_self, or_self, Bool.false_eq_true]

/-- Two references to classes are compared by what they spell. -/
theorem isNamedSubtype_classes (hsub : isClassReference sub = true)
    (hsup : isClassReference sup = true) :
    isNamedSubtype sub sup =
      decide (asciiLower (stripFqnPrefix sub) = asciiLower (stripFqnPrefix sup)) := by
  have hreserved := not_reserved_of_class hsub
  have hreserved' := not_reserved_of_class hsup
  have hne : ∀ name ∈ reservedNames, asciiLower (stripFqnPrefix sub) ≠ name :=
    fun name hname heq => hreserved (heq ▸ hname)
  have hne' : ∀ name ∈ reservedNames, asciiLower (stripFqnPrefix sup) ≠ name :=
    fun name hname heq => hreserved' (heq ▸ hname)
  unfold isNamedSubtype
  simp only [isPseudoClass_of_not_reserved hreserved, isPseudoClass_of_not_reserved hreserved',
    normalizeAlias_of_not_reserved hreserved, normalizeAlias_of_not_reserved hreserved',
    hne "never" (by simp [reservedNames]), hne "void" (by simp [reservedNames]),
    hne' "mixed" (by simp [reservedNames]), hne' "void" (by simp [reservedNames]),
    namedSubtypeTable_of_sup hreserved', if_false, Bool.or_self, or_self, Bool.false_eq_true]
  by_cases heq : asciiLower (stripFqnPrefix sub) = asciiLower (stripFqnPrefix sup)
  · simp [heq]
  · simp [heq]

end

end PhpantomLsp
