import PhpantomLsp.PhpType.ScalarSubtype

/-!
# Transitivity between scalar types

Composing the table of scalar types two rows at a time stays in the table but
in a handful of places (`TransitivityGap`).  The cases are those of the type
in the middle.
-/

namespace PhpantomLsp

open Text Lib PhpType

/-! ## Names -/

section

variable {sub mid sup : String}

theorem keywordBelow_trans (hsub : sub ∈ scalarKeywords) (hmid : mid ∈ scalarKeywords)
    (hsup : sup ∈ scalarKeywords) (hsm : keywordBelow sub mid = true)
    (hms : keywordBelow mid sup = true) (hgap : viewStringGap sub mid sup = false) :
    keywordBelow sub sup = true := by
  have h := scalarTables.names
  simp only [List.all_eq_true, Bool.or_eq_true, Bool.not_eq_true'] at h
  have := h mid hmid sup hsup
  rw [hms] at this
  have := (this.resolve_left (by simp)) sub hsub
  rw [hsm, hgap] at this
  simpa using this

theorem namesBelow_trans (hsm : namesBelow sub mid = true) (hms : namesBelow mid sup = true)
    (hgap : viewStringGap (keywordLower sub) (keywordLower mid) (keywordLower sup) = false) :
    namesBelow sub sup = true := by
  unfold namesBelow at *
  by_cases hsub : keywordLower sub ∈ scalarKeywords
  · rw [if_pos hsub, Bool.and_eq_true, decide_eq_true_eq] at hsm
    rw [if_pos hsm.1, Bool.and_eq_true, decide_eq_true_eq] at hms
    rw [if_pos hsub, Bool.and_eq_true, decide_eq_true_eq]
    exact ⟨hms.1, keywordBelow_trans hsub hsm.1 hms.1 hsm.2 hms.2 hgap⟩
  · rw [if_neg hsub] at *
    simp only [Bool.and_eq_true, Bool.not_eq_true', decide_eq_false_iff_not,
      decide_eq_true_eq] at hsm ⊢
    rw [if_neg hsm.1] at hms
    simp only [Bool.and_eq_true, Bool.not_eq_true', decide_eq_false_iff_not,
      decide_eq_true_eq] at hms
    exact ⟨hms.1, hsm.2.trans hms.2⟩

/-! ## Bounds -/

variable {lo hi lo' hi' : Int}

/-- What is above a range is above a narrower one. -/
theorem boundsBelow_mono (h : boundsBelow lo hi sup = true) (hlo : lo ≤ lo') (hhi : hi' ≤ hi) :
    boundsBelow lo' hi' sup = true := by
  unfold boundsBelow at *
  rw [Bool.or_eq_true] at *
  rcases h with h | h
  · exact .inl h
  · right
    split at h
    · simp only [Bool.and_eq_true, decide_eq_true_eq] at h ⊢
      omega
    · simp only [Bool.and_eq_true, Bool.or_eq_true, decide_eq_true_eq] at h ⊢
      exact ⟨h.1, by omega⟩

theorem boundsBelow_cases (h : boundsBelow lo hi mid = true) :
    mid ∈ wideIntKeywords ∨ mid = "non-zero-int" ∨
      ∃ l u, refinedBounds mid = some (l, u) ∧ l ≤ lo ∧ hi ≤ u := by
  unfold boundsBelow at h
  rw [Bool.or_eq_true, decide_eq_true_eq] at h
  rcases h with h | h
  · exact .inl h
  · right
    split at h
    · rename_i min max heq
      simp only [Bool.and_eq_true, decide_eq_true_eq] at h
      exact .inr ⟨_, _, by rw [refinedBounds, heq]; rfl, h.1, h.2⟩
    · simp only [Bool.and_eq_true, decide_eq_true_eq] at h
      exact .inl h.1

/-- What the tables say of the keywords above a refinement of `int`. -/
theorem refinedBounds_trans (hmid : mid ∈ scalarKeywords) (hsup : sup ∈ scalarKeywords)
    (hms : keywordBelow mid sup = true) :
    (∀ l u, refinedBounds mid = some (l, u) → boundsBelow l u sup = true) ∧
      (mid = "non-zero-int" → sup ∈ wideIntKeywords ∨ sup = "non-zero-int") ∧
      ∀ l u, refinedBounds sup = some (l, u) →
        ∃ l' u', refinedBounds mid = some (l', u') ∧ l ≤ l' ∧ u' ≤ u := by
  have h := scalarTables.bounds
  simp only [List.all_eq_true, Bool.or_eq_true, Bool.not_eq_true', Bool.and_eq_true] at h
  have := h mid hmid sup hsup
  rw [hms] at this
  obtain ⟨⟨hbounds, hzero⟩, hnarrow⟩ := this.resolve_left (by simp)
  refine ⟨fun l u hlu => ?_, fun hmid' => ?_, fun l u hlu => ?_⟩
  · rw [hlu] at hbounds
    simpa using hbounds
  · simpa [hmid'] using hzero
  · rw [hlu] at hnarrow
    simpa [Option.any_eq_true, and_assoc] using hnarrow

theorem mem_wideIntKeywords_trans (hmid : mid ∈ scalarKeywords) (hsup : sup ∈ scalarKeywords)
    (hms : keywordBelow mid sup = true) (hwide : mid ∈ wideIntKeywords) :
    sup ∈ wideIntKeywords := by
  have h := scalarTables.literals
  simp only [List.all_eq_true, Bool.or_eq_true, Bool.not_eq_true', Bool.and_eq_true] at h
  have := h mid hmid sup hsup
  rw [hms] at this
  simpa [hwide] using (this.resolve_left (by simp)).1.1

theorem boundsBelow_trans (hmid : mid ∈ scalarKeywords) (hsup : sup ∈ scalarKeywords)
    (h : boundsBelow lo hi mid = true) (hms : keywordBelow mid sup = true) :
    boundsBelow lo hi sup = true := by
  obtain ⟨hbounds, hzero, -⟩ := refinedBounds_trans hmid hsup hms
  have hwiden (hwide : sup ∈ wideIntKeywords) : boundsBelow lo hi sup = true := by
    simp [boundsBelow, hwide]
  rcases boundsBelow_cases h with hwide | hmid' | ⟨l, u, hlu, hlo, hhi⟩
  · exact hwiden (mem_wideIntKeywords_trans hmid hsup hms hwide)
  · rcases hzero hmid' with hwide | rfl
    · exact hwiden hwide
    · exact hmid' ▸ h
  · exact boundsBelow_mono (hbounds l u hlu) hlo hhi

end

/-! ## Literals -/

theorem parsePhpIntLiteral_bounds {raw : String} {z : Int} (h : parsePhpIntLiteral raw = some z) :
    i64Min ≤ z ∧ z ≤ i64Max := by
  unfold parsePhpIntLiteral at h
  dsimp only at h
  split at h
  · split at h
    · obtain ⟨magnitude, -, hcheck⟩ := Option.bind_eq_some_iff.mp h
      exact (checkI64_eq_some hcheck).2
    · exact absurd h (by simp)
  · exact absurd h (by simp)

/-- The bounds of a range are numbers, or the end of the integers they stand
at. -/
def BoundsReadable (min max : Atom) : Prop :=
  (asciiLower (trim min) = "min" ∨ (parseI64 (asciiLower (trim min))).isSome = true) ∧
    (asciiLower (trim max) = "max" ∨ (parseI64 (asciiLower (trim max))).isSome = true)

instance (min max : Atom) : Decidable (BoundsReadable min max) := inferInstanceAs (Decidable (_ ∧ _))

section

variable {min max : Atom} {z : Int}

theorem parseRangeBound_of_parseI64 {s : String} {m : Int} (h : parseI64 (asciiLower (trim s)) = some m) :
    parseRangeBound s = m := by
  have hmin : parseI64 "min" = none := by decide
  have hmax : parseI64 "max" = none := by decide
  unfold parseRangeBound
  dsimp only
  split
  · rename_i heq
    rw [heq, hmin] at h
    exact absurd h (by simp)
  · split
    · rename_i heq
      rw [heq, hmax] at h
      exact absurd h (by simp)
    · rw [h]
      rfl

theorem lowBound_iff (hz : i64Min ≤ z) :
    (asciiLower (trim min) == "min" || (parseI64 (asciiLower (trim min))).any (· ≤ z)) = true ↔
      (asciiLower (trim min) = "min" ∨ (parseI64 (asciiLower (trim min))).isSome = true) ∧
        parseRangeBound min ≤ z := by
  by_cases heq : asciiLower (trim min) = "min"
  · have hbound : parseRangeBound min = i64Min := by
      unfold parseRangeBound
      dsimp only
      rw [if_pos heq]
    rw [hbound, heq]
    simp [hz]
  · rw [beq_eq_false_iff_ne.mpr heq]
    cases hparse : parseI64 (asciiLower (trim min)) with
    | none => simp [heq]
    | some m => simp [parseRangeBound_of_parseI64 hparse]

theorem highBound_iff (hz : z ≤ i64Max) :
    (asciiLower (trim max) == "max" || (parseI64 (asciiLower (trim max))).any (z ≤ ·)) = true ↔
      (asciiLower (trim max) = "max" ∨ (parseI64 (asciiLower (trim max))).isSome = true) ∧
        z ≤ parseRangeBound max := by
  by_cases heq : asciiLower (trim max) = "max"
  · have hbound : parseRangeBound max = i64Max := by
      unfold parseRangeBound
      dsimp only
      rw [heq, if_neg (by decide), if_pos rfl]
    rw [hbound, heq]
    simp [hz]
  · rw [beq_eq_false_iff_ne.mpr heq]
    cases hparse : parseI64 (asciiLower (trim max)) with
    | none => simp [heq]
    | some m => simp [parseRangeBound_of_parseI64 hparse]

/-- Where the bounds of a range can be read, a literal is within it as a range
of one is. -/
theorem intLiteralIsWithinRange_iff (hz : i64Min ≤ z ∧ z ≤ i64Max) :
    intLiteralIsWithinRange z min max = true ↔
      BoundsReadable min max ∧ parseRangeBound min ≤ z ∧ z ≤ parseRangeBound max := by
  unfold intLiteralIsWithinRange BoundsReadable
  rw [Bool.and_eq_true, lowBound_iff hz.1, highBound_iff hz.2]
  constructor
  · rintro ⟨⟨hmin, hlow⟩, hmax, hhigh⟩
    exact ⟨⟨hmin, hmax⟩, hlow, hhigh⟩
  · rintro ⟨⟨hmin, hmax⟩, hlow, hhigh⟩
    exact ⟨⟨hmin, hlow⟩, hmax, hhigh⟩

theorem boundsReadable_of_refinedIntToRange {name : String}
    (h : refinedIntToRange name = some (min, max)) : BoundsReadable min max := by
  have hall : ∀ bounds ∈ [("1", "max"), ("min", "-1"), ("0", "max"), ("min", "0")],
      BoundsReadable bounds.1 bounds.2 := by decide
  apply hall (min, max)
  unfold refinedIntToRange at h
  split_ifs at h <;> simp_all

/-- An integer literal is below a keyword as the range of its value is. -/
theorem literalIsSubtypeOfNamed_int {raw sup : String} (hreal : sup ≠ "real") :
    literalIsSubtypeOfNamed (.int raw) sup = true ↔
      sup ∈ wideIntKeywords ∨
        ∃ z, parsePhpIntLiteral raw = some z ∧ boundsBelow z z sup = true := by
  unfold literalIsSubtypeOfNamed boundsBelow
  dsimp only
  have hwide : sup ∈ ["int", "integer", "float", "double", "numeric", "number", "scalar",
      "array-key"] ↔ sup ∈ wideIntKeywords := by
    simp only [wideIntKeywords, List.mem_cons, List.not_mem_nil, or_false, hreal, false_or]
  by_cases hmem : sup ∈ wideIntKeywords
  · rw [if_pos (hwide.mpr hmem)]
    simp [hmem]
  · rw [if_neg (fun h => hmem (hwide.mp h))]
    simp only [hmem, false_or, decide_false, Bool.false_or]
    cases hparse : parsePhpIntLiteral raw with
    | none => cases refinedIntToRange sup <;> simp
    | some z =>
        have hz := parsePhpIntLiteral_bounds hparse
        cases hrange : refinedIntToRange sup with
        | some bounds =>
            have hread := boundsReadable_of_refinedIntToRange hrange
            simp [intLiteralIsWithinRange_iff hz, hread]
        | none =>
            have hzero : z ≠ 0 ↔ 1 ≤ z ∨ z ≤ -1 := by omega
            simp [hzero]

end

/-- What the tables ask of the content of a string. -/
def factsOf (content : String) : ContentFacts where
  empty := content = ""
  zero := content = "0"
  numeric := isPhpNumericString content
  upper := content.toList.any fun c => 'A' ≤ c && c ≤ 'Z'
  lower := content.toList.any fun c => 'a' ≤ c && c ≤ 'z'

theorem factsOf_mem (content : String) : factsOf content ∈ contentFacts := by
  by_cases hempty : content = ""
  · rw [hempty]
    decide
  · by_cases hzero : content = "0"
    · rw [hzero]
      decide
    · unfold factsOf contentFacts
      simp only [hempty, hzero, decide_false]
      cases isPhpNumericString content <;>
        cases content.toList.any fun c => 'A' ≤ c && c ≤ 'Z' <;>
        cases content.toList.any fun c => 'a' ≤ c && c ≤ 'z' <;>
        decide

theorem stringContentIsSubtypeOfNamed_eq (content sup : String) :
    stringContentIsSubtypeOfNamed content sup = (factsOf content).below sup := by
  unfold stringContentIsSubtypeOfNamed ContentFacts.below factsOf
  simp

/-- What a literal is taken for without a look at its value, and what the
table of integer literals leaves out. -/
def literalGap (value : LiteralValue) (mid sup : String) : Bool :=
  match value with
  | .int _ => sup == "real"
  | .float _ => false
  | .string _ =>
      value.stringContent.any fun content => functionNameGap (factsOf content) mid sup

section

variable {value : LiteralValue} {mid sup : String}

theorem mem_scalarKeywords_of_literal (h : literalIsSubtypeOfNamed value sup = true) :
    sup ∈ scalarKeywords := by
  by_contra hnot
  have hnames := hnot
  simp only [scalarKeywords, intRefinements, stringRefinements, List.mem_append, List.mem_cons,
    List.not_mem_nil, or_false, not_or] at hnames
  revert h
  unfold literalIsSubtypeOfNamed refinedIntToRange stringContentIsSubtypeOfNamed
  cases value with
  | int raw => simp [hnames]
  | float raw => simp [hnames]
  | string raw =>
      cases (LiteralValue.string raw).stringContent with
      | none => simp
      | some content => simp [hnames]

theorem literalIsSubtypeOfNamed_trans (hsup : sup ∈ scalarKeywords)
    (hlm : literalIsSubtypeOfNamed value mid = true) (hms : keywordBelow mid sup = true)
    (hgap : literalGap value mid sup = false) : literalIsSubtypeOfNamed value sup = true := by
  have hmid := mem_scalarKeywords_of_literal hlm
  have h := scalarTables.literals
  simp only [List.all_eq_true, Bool.or_eq_true, Bool.not_eq_true', Bool.and_eq_true] at h
  have htable := h mid hmid sup hsup
  rw [hms] at htable
  obtain ⟨⟨-, hfloat⟩, hstring⟩ := htable.resolve_left (by simp)
  cases value with
  | int raw =>
      have hreal : sup ≠ "real" := by simpa [literalGap] using hgap
      rw [literalIsSubtypeOfNamed_int hreal]
      by_cases hmidReal : mid = "real"
      · left
        apply mem_wideIntKeywords_trans hmid hsup hms
        rw [hmidReal]
        decide
      · rcases (literalIsSubtypeOfNamed_int hmidReal).mp hlm with hwide | ⟨z, hz, hbounds⟩
        · exact .inl (mem_wideIntKeywords_trans hmid hsup hms hwide)
        · exact .inr ⟨z, hz, boundsBelow_trans hmid hsup hbounds hms⟩
  | float raw =>
      unfold literalIsSubtypeOfNamed at *
      have hmem : mid ∈ floatLiteralKeywords := decide_eq_true_eq.mp hlm
      have hmemSup : sup ∈ floatLiteralKeywords := by simpa [hmem] using hfloat
      exact decide_eq_true hmemSup
  | string raw =>
      unfold literalIsSubtypeOfNamed literalGap at *
      dsimp only at *
      cases hcontent : (LiteralValue.string raw).stringContent with
      | none =>
          rw [hcontent] at hlm
          exact absurd hlm (by simp)
      | some content =>
          rw [hcontent] at hlm hgap
          dsimp only at hlm hgap ⊢
          rw [stringContentIsSubtypeOfNamed_eq] at *
          have := hstring _ (factsOf_mem content)
          rw [hlm] at this
          simpa [show functionNameGap (factsOf content) mid sup = false from hgap] using this

/-- Equal literals are below the same names. -/
theorem literalIsSubtypeOfNamed_congr {other : LiteralValue} (h : literalsEqual value other = true)
    (sup : String) : literalIsSubtypeOfNamed value sup = literalIsSubtypeOfNamed other sup := by
  cases value <;> cases other <;> try (simp [literalsEqual] at h; done)
  case int.int a b =>
      rw [literalsEqual_int] at h
      rcases h with rfl | ⟨z, ha, hb⟩
      · rfl
      · simp only [literalIsSubtypeOfNamed, ha, hb]
  case float.float a b => rfl
  case string.string a b =>
      rw [literalsEqual_string] at h
      simp only [literalIsSubtypeOfNamed, h]

end

theorem parseInt_congr {value other : LiteralValue} (h : literalsEqual value other = true) :
    value.parseInt = other.parseInt := by
  cases value <;> cases other <;> try (simp [literalsEqual] at h; done)
  case int.int a b =>
      rw [literalsEqual_int] at h
      rcases h with rfl | ⟨z, ha, hb⟩
      · rfl
      · simp only [LiteralValue.parseInt, ha, hb]
  all_goals rfl

/-- A literal is below no name of classes. -/
theorem not_literal_classString (value : LiteralValue) :
    literalIsSubtypeOfNamed value "class-string" = false := by
  cases value with
  | int raw => simp [literalIsSubtypeOfNamed, refinedIntToRange]
  | float raw => simp [literalIsSubtypeOfNamed]
  | string raw =>
      unfold literalIsSubtypeOfNamed
      dsimp only
      split
      · simp [stringContentIsSubtypeOfNamed]
      · rfl

theorem literalGap_classString (value : LiteralValue) (mid : String) :
    literalGap value mid "class-string" = false := by
  cases value <;> simp [literalGap, functionNameGap]

/-! ## Types -/

/-- Where composing two rows of the table leaves it. -/
inductive TransitivityGap : PhpType → PhpType → PhpType → Prop where
  /-- Every string literal is taken for a `callable-string`, whatever it says,
  and `real` is a name of `float` that no integer literal is below. -/
  | literal {value : LiteralValue} {mid sup : Atom}
      (h : literalGap value (keywordLower mid) (keywordLower sup) = true) :
      TransitivityGap (.literal value) (.named mid) (.named sup)
  | real {raw : String} {min max sup : Atom} (h : keywordLower sup = "real") :
      TransitivityGap (.literal (.int raw)) (.intRange min max) (.named sup)
  /-- A literal is within no range whose bounds cannot be read. -/
  | unreadBound {raw : String} {mid : PhpType} {min max : Atom} (h : ¬BoundsReadable min max) :
      TransitivityGap (.literal (.int raw)) mid (.intRange min max)
  | viewString {sub mid sup : Atom}
      (h : viewStringGap (keywordLower sub) (keywordLower mid) (keywordLower sup) = true) :
      TransitivityGap (.named sub) (.named mid) (.named sup)
  /-- The name `class-string` is below the type, and the type of the names of
  interfaces below the name. -/
  | interfaceString {inner : Option PhpType} {mid : Atom} :
      TransitivityGap (.interfaceString inner) (.named mid) (.classString none)
  | classString {sub mid sup : PhpType} (h : TransitivityGap sub mid sup) :
      TransitivityGap (.classString (some sub)) (.classString (some mid)) (.classString (some sup))

section

variable {sub mid sup : Atom} {lo hi l u : Int}

theorem keyword_of_mem_reserved (h : ScalarType (.named mid)) (hmem : asciiLower mid ∈ reservedNames) :
    keywordLower mid ∈ scalarKeywords ∧ asciiLower mid = keywordLower mid := by
  rcases lower_cases h with hkeyword | ⟨-, hlower⟩
  · exact hkeyword
  · exact absurd hmem hlower

theorem mem_reserved_of_refinedBounds {name : String} {bounds : Int × Int}
    (h : refinedBounds name = some bounds) : name ∈ reservedNames := by
  have hnames : ∀ name ∈ ["positive-int", "negative-int", "non-negative-int", "non-positive-int"],
      name ∈ reservedNames := by decide
  apply hnames
  by_contra hnot
  simp only [List.mem_cons, List.not_mem_nil, or_false, not_or] at hnot
  simp [refinedBounds, refinedIntToRange, hnot] at h

theorem mem_reserved_of_boundsBelow {name : String} (h : boundsBelow lo hi name = true) :
    name ∈ reservedNames := by
  have hwide : ∀ name ∈ wideIntKeywords, name ∈ reservedNames := by decide
  rcases boundsBelow_cases h with hmem | rfl | ⟨l, u, hlu, -, -⟩
  · exact hwide name hmem
  · decide
  · exact mem_reserved_of_refinedBounds hlu

/-- A range below a refinement of `int` is within its bounds. -/
theorem within_of_boundsBelow {name : String} (h : boundsBelow lo hi name = true)
    (hlu : refinedBounds name = some (l, u)) : l ≤ lo ∧ hi ≤ u := by
  have hwide : ∀ name ∈ "non-zero-int" :: wideIntKeywords, refinedBounds name = none := by
    decide
  rcases boundsBelow_cases h with hmem | rfl | ⟨l', u', hlu', hlo, hhi⟩
  · rw [hwide name (List.mem_cons_of_mem _ hmem)] at hlu
    exact absurd hlu (by simp)
  · rw [hwide _ List.mem_cons_self] at hlu
    exact absurd hlu (by simp)
  · obtain ⟨rfl, rfl⟩ : l' = l ∧ u' = u := by simpa [hlu'] using hlu
    exact ⟨hlo, hhi⟩

theorem keywords_of_namesBelow (h : namesBelow sub sup = true)
    (hkeyword : keywordLower sub ∈ scalarKeywords ∨ keywordLower sup ∈ scalarKeywords) :
    keywordLower sub ∈ scalarKeywords ∧ keywordLower sup ∈ scalarKeywords ∧
      keywordBelow (keywordLower sub) (keywordLower sup) = true := by
  unfold namesBelow at h
  by_cases hsub : keywordLower sub ∈ scalarKeywords
  · rw [if_pos hsub, Bool.and_eq_true, decide_eq_true_eq] at h
    exact ⟨hsub, h.1, h.2⟩
  · rw [if_neg hsub, Bool.and_eq_true] at h
    have hnot : keywordLower sup ∉ scalarKeywords := by simpa using h.1
    exact absurd hkeyword (not_or.mpr ⟨hsub, hnot⟩)

/-- A name below a refinement of `int` is a refinement with narrower bounds. -/
theorem refinedBounds_of_namesBelow (hmid : ScalarType (.named mid))
    (h : namesBelow sub mid = true) (hlu : refinedBounds (asciiLower mid) = some (l, u)) :
    ∃ l' u', refinedBounds (asciiLower sub) = some (l', u') ∧ l ≤ l' ∧ u' ≤ u := by
  obtain ⟨hkeyword, hlower⟩ := keyword_of_mem_reserved hmid (mem_reserved_of_refinedBounds hlu)
  obtain ⟨hsub, hmidMem, hbelow⟩ := keywords_of_namesBelow h (.inr hkeyword)
  rw [(asciiLower_of_keyword hsub).1]
  exact (refinedBounds_trans hsub hmidMem hbelow).2.2 l u (hlower ▸ hlu)

/-- A refinement of `int` is below the names its range is below. -/
theorem namesBelow_of_boundsBelow (hsub : keywordLower sub ∈ scalarKeywords)
    (hsup : keywordLower sup ∈ scalarKeywords)
    (hlu : refinedBounds (keywordLower sub) = some (l, u))
    (h : boundsBelow l u (keywordLower sup) = true) : namesBelow sub sup = true := by
  have hall := scalarTables.ranges
  simp only [List.all_eq_true] at hall
  have hbelow := hall _ hsub _ hsup
  rw [hlu, Option.all_some, h] at hbelow
  unfold namesBelow
  rw [if_pos hsub]
  simpa [hsup] using hbelow

theorem parseInt_of_refinedBounds {value : LiteralValue} {name : String}
    (h : literalIsSubtypeOfNamed value name = true) (hlu : refinedBounds name = some (l, u)) :
    ∃ raw z, value = .int raw ∧ parsePhpIntLiteral raw = some z ∧ l ≤ z ∧ z ≤ u := by
  have hnames : name ∈ ["positive-int", "negative-int", "non-negative-int", "non-positive-int"] := by
    by_contra hnot
    simp only [List.mem_cons, List.not_mem_nil, or_false, not_or] at hnot
    simp [refinedBounds, refinedIntToRange, hnot] at hlu
  have htable : ∀ name ∈ ["positive-int", "negative-int", "non-negative-int", "non-positive-int"],
      name ≠ "real" ∧ name ∉ wideIntKeywords ∧ name ∉ floatLiteralKeywords ∧
        ∀ facts ∈ contentFacts, facts.below name = false := by decide
  obtain ⟨hreal, hwide, hfloat, hstring⟩ := htable name hnames
  cases value with
  | int raw =>
      obtain ⟨z, hz, hbounds⟩ := ((literalIsSubtypeOfNamed_int hreal).mp h).resolve_left hwide
      exact ⟨raw, z, rfl, hz, within_of_boundsBelow hbounds hlu⟩
  | float raw =>
      unfold literalIsSubtypeOfNamed at h
      exact absurd (decide_eq_true_eq.mp h) hfloat
  | string raw =>
      unfold literalIsSubtypeOfNamed at h
      dsimp only at h
      cases hcontent : (LiteralValue.string raw).stringContent with
      | none =>
          rw [hcontent] at h
          exact absurd h (by simp)
      | some content =>
          rw [hcontent] at h
          dsimp only at h
          rw [stringContentIsSubtypeOfNamed_eq, hstring _ (factsOf_mem content)] at h
          exact absurd h (by simp)

end

section

variable [DedupHasher] {a b c : PhpType}

theorem scalarBelow_classString_named (inner : Option PhpType) (sup : Atom) :
    scalarBelow (.classString inner) (.named sup) = namesBelow "class-string" sup := by
  cases inner <;> rw [scalarBelow]

/-- A name below a name: what is above the second is above the first. -/
theorem namesBelow_trans_scalarBelow {sub mid : Atom} (hmid : ScalarType (.named mid))
    (hc : ScalarType c) (hgap : ∀ sup, c = .named sup →
      viewStringGap (keywordLower sub) (keywordLower mid) (keywordLower sup) = false)
    (hab : namesBelow sub mid = true) (hbc : scalarBelow (.named mid) c = true) :
    scalarBelow (.named sub) c = true := by
  have hclass : viewStringGap (keywordLower sub) (keywordLower mid) (keywordLower "class-string") =
      false := by
    rw [show keywordLower "class-string" = "class-string" by decide]
    simp [viewStringGap]
  cases c with
  | named sup => exact namesBelow_trans hab hbc (hgap sup rfl)
  | intRange min max =>
      obtain ⟨⟨l, u⟩, hlu, hwithin⟩ := (Option.any_eq_true _ _).mp hbc
      obtain ⟨l', u', hlu', hlow, hhigh⟩ := refinedBounds_of_namesBelow hmid hab hlu
      simp only [Bool.and_eq_true, decide_eq_true_eq] at hwithin
      simp only [scalarBelow, hlu', Option.any_some, Bool.and_eq_true, decide_eq_true_eq]
      omega
  | classString inner =>
      cases inner with
      | none => exact namesBelow_trans hab hbc hclass
      | some => simp [scalarBelow] at hbc
  | _ => simp [scalarBelow] at hbc

/-- A literal below a name. -/
theorem literal_trans_scalarBelow {value : LiteralValue} {mid : Atom}
    (hgap : ¬TransitivityGap (.literal value) (.named mid) c)
    (hab : literalIsSubtypeOfNamed value (keywordLower mid) = true)
    (hbc : scalarBelow (.named mid) c = true) : scalarBelow (.literal value) c = true := by
  have hkeyword := mem_scalarKeywords_of_literal hab
  cases c with
  | named sup =>
      obtain ⟨-, hsup, hbelow⟩ := keywords_of_namesBelow hbc (.inl hkeyword)
      apply literalIsSubtypeOfNamed_trans hsup hab hbelow
      by_contra hliteral
      exact hgap (.literal (by simpa using hliteral))
  | intRange min max =>
      obtain ⟨⟨l, u⟩, hlu, hwithin⟩ := (Option.any_eq_true _ _).mp hbc
      rw [(asciiLower_of_keyword hkeyword).1] at hlu
      obtain ⟨raw, z, rfl, hz, hlow, hhigh⟩ := parseInt_of_refinedBounds hab hlu
      have hread : BoundsReadable min max := by
        by_contra hnot
        exact hgap (.unreadBound hnot)
      simp only [Bool.and_eq_true, decide_eq_true_eq] at hwithin
      simp only [scalarBelow, LiteralValue.parseInt, hz, Option.any_some]
      rw [intLiteralIsWithinRange_iff (parsePhpIntLiteral_bounds hz)]
      exact ⟨hread, by omega, by omega⟩
  | classString inner =>
      cases inner with
      | none =>
          have hname : keywordLower "class-string" = "class-string" := by decide
          obtain ⟨-, hsup, hbelow⟩ := keywords_of_namesBelow hbc (.inl hkeyword)
          rw [hname] at hsup hbelow
          have := literalIsSubtypeOfNamed_trans hsup hab hbelow (literalGap_classString value _)
          rw [not_literal_classString] at this
          exact absurd this (by simp)
      | some => simp [scalarBelow] at hbc
  | _ => simp [scalarBelow] at hbc

/-- A range below a name. -/
theorem intRange_trans_scalarBelow {min max mid : Atom} (hmid : ScalarType (.named mid))
    (hc : ScalarType c)
    (hab : boundsBelow (parseRangeBound min) (parseRangeBound max) (asciiLower mid) = true)
    (hbc : scalarBelow (.named mid) c = true) : scalarBelow (.intRange min max) c = true := by
  obtain ⟨hkeyword, hlower⟩ := keyword_of_mem_reserved hmid (mem_reserved_of_boundsBelow hab)
  rw [hlower] at hab
  cases c with
  | named sup =>
      obtain ⟨-, hsup, hbelow⟩ := keywords_of_namesBelow hbc (.inl hkeyword)
      simp only [scalarBelow]
      rw [(asciiLower_of_keyword hsup).1]
      exact boundsBelow_trans hkeyword hsup hab hbelow
  | intRange supMin supMax =>
      obtain ⟨⟨l, u⟩, hlu, hwithin⟩ := (Option.any_eq_true _ _).mp hbc
      rw [hlower] at hlu
      obtain ⟨hlow, hhigh⟩ := within_of_boundsBelow hab hlu
      simp only [Bool.and_eq_true, decide_eq_true_eq] at hwithin
      simp only [scalarBelow, intRangeIsSubrange, Bool.and_eq_true, decide_eq_true_eq]
      omega
  | classString inner =>
      cases inner with
      | none =>
          have hname : keywordLower "class-string" = "class-string" := by decide
          obtain ⟨-, hsup, hbelow⟩ := keywords_of_namesBelow hbc (.inl hkeyword)
          have hbounds := boundsBelow_trans hkeyword hsup hab hbelow
          rw [hname] at hbounds
          simp [boundsBelow, wideIntKeywords, refinedIntToRange] at hbounds
      | some => simp [scalarBelow] at hbc
  | _ => simp [scalarBelow] at hbc

/-- A name in the middle. -/
theorem scalarBelow_trans_named {mid : Atom} (ha : ScalarType a) (hmid : ScalarType (.named mid))
    (hc : ScalarType c) (hgap : ¬TransitivityGap a (.named mid) c)
    (hab : scalarBelow a (.named mid) = true) (hbc : scalarBelow (.named mid) c = true) :
    scalarBelow a c = true := by
  have hview (sub : Atom) (hsub : keywordLower sub ≠ "view-string") (sup : Atom) (_ : c = .named sup) :
      viewStringGap (keywordLower sub) (keywordLower mid) (keywordLower sup) = false := by
    simp [viewStringGap, hsub]
  cases a with
  | named sub =>
      apply namesBelow_trans_scalarBelow hmid hc ?_ hab hbc
      rintro sup rfl
      by_contra hview
      exact hgap (.viewString (by simpa using hview))
  | literal value => exact literal_trans_scalarBelow hgap hab hbc
  | intRange min max => exact intRange_trans_scalarBelow hmid hc hab hbc
  | classString inner =>
      rw [scalarBelow_classString_named] at hab
      have hbelow := namesBelow_trans_scalarBelow hmid hc (hview "class-string" (by decide))
        hab hbc
      cases c with
      | named sup => rwa [scalarBelow_classString_named]
      | intRange min max =>
          rw [scalarBelow, show refinedBounds (asciiLower "class-string") = none by decide]
            at hbelow
          exact absurd hbelow (by simp)
      | classString supInner =>
          cases supInner with
          | none => cases inner <;> rw [scalarBelow]
          | some => simp [scalarBelow] at hbelow
      | _ => simp [scalarBelow] at hbelow
  | interfaceString inner =>
      have hbelow := namesBelow_trans_scalarBelow hmid hc
        (hview "interface-string" (by decide)) hab hbc
      cases c with
      | named sup => exact hbelow
      | intRange min max =>
          rw [scalarBelow, show refinedBounds (asciiLower "interface-string") = none by
            decide] at hbelow
          exact absurd hbelow (by simp)
      | classString supInner =>
          cases supInner with
          | none => exact absurd .interfaceString hgap
          | some => simp [scalarBelow] at hbelow
      | _ => simp [scalarBelow] at hbelow
  | _ => cases ha

/-- A literal in the middle is an equal one. -/
theorem scalarBelow_trans_literal {mid : LiteralValue} (ha : ScalarType a)
    (hab : scalarBelow a (.literal mid) = true) (hbc : scalarBelow (.literal mid) c = true) :
    scalarBelow a c = true := by
  cases a with
  | literal value =>
      have heq : literalsEqual value mid = true := by simpa [scalarBelow] using hab
      cases c with
      | named sup =>
          simp only [scalarBelow] at hbc ⊢
          rwa [literalIsSubtypeOfNamed_congr heq]
      | literal other =>
          simp only [scalarBelow] at hbc ⊢
          exact literalsEqual_trans heq hbc
      | intRange min max =>
          simp only [scalarBelow] at hbc ⊢
          rwa [parseInt_congr heq]
      | _ => simp [scalarBelow] at hbc
  | named => simp [scalarBelow] at hab
  | intRange => simp [scalarBelow] at hab
  | classString => simp [scalarBelow] at hab
  | interfaceString => simp [scalarBelow] at hab
  | _ => cases ha

/-- A literal below a range. -/
theorem literal_trans_intRange {value : LiteralValue} {min max : Atom} (hc : ScalarType c)
    (hgap : ¬TransitivityGap (.literal value) (.intRange min max) c)
    (hab : scalarBelow (.literal value) (.intRange min max) = true)
    (hbc : scalarBelow (.intRange min max) c = true) : scalarBelow (.literal value) c = true := by
  cases value with
  | int raw =>
      simp only [scalarBelow, LiteralValue.parseInt] at hab
      obtain ⟨z, hz, hwithin⟩ := (Option.any_eq_true _ _).mp hab
      have hrange := parsePhpIntLiteral_bounds hz
      rw [intLiteralIsWithinRange_iff hrange] at hwithin
      cases c with
      | named sup =>
          simp only [scalarBelow] at hbc ⊢
          obtain ⟨hsup, hlower⟩ := keyword_of_mem_reserved hc (mem_reserved_of_boundsBelow hbc)
          have hbounds := boundsBelow_mono hbc hwithin.2.1 hwithin.2.2
          rw [hlower] at hbounds
          have hreal : keywordLower sup ≠ "real" := fun heq => hgap (.real heq)
          rw [literalIsSubtypeOfNamed_int hreal]
          exact .inr ⟨z, hz, hbounds⟩
      | intRange supMin supMax =>
          have hread : BoundsReadable supMin supMax := by
            by_contra hnot
            exact hgap (.unreadBound hnot)
          simp only [scalarBelow, intRangeIsSubrange, Bool.and_eq_true, decide_eq_true_eq] at hbc
          simp only [scalarBelow, LiteralValue.parseInt, hz, Option.any_some]
          rw [intLiteralIsWithinRange_iff hrange]
          exact ⟨hread, by omega, by omega⟩
      | _ => simp [scalarBelow] at hbc
  | float raw => simp [scalarBelow, LiteralValue.parseInt] at hab
  | string raw => simp [scalarBelow, LiteralValue.parseInt] at hab

/-- A range in the middle. -/
theorem scalarBelow_trans_intRange {min max : Atom} (ha : ScalarType a) (hc : ScalarType c)
    (hgap : ¬TransitivityGap a (.intRange min max) c)
    (hab : scalarBelow a (.intRange min max) = true)
    (hbc : scalarBelow (.intRange min max) c = true) : scalarBelow a c = true := by
  cases a with
  | named sub =>
      obtain ⟨⟨l, u⟩, hlu, hwithin⟩ := (Option.any_eq_true _ _).mp hab
      obtain ⟨hsub, hlower⟩ := keyword_of_mem_reserved ha (mem_reserved_of_refinedBounds hlu)
      simp only [Bool.and_eq_true, decide_eq_true_eq] at hwithin
      cases c with
      | named sup =>
          simp only [scalarBelow] at hbc ⊢
          obtain ⟨hsup, hlower'⟩ := keyword_of_mem_reserved hc (mem_reserved_of_boundsBelow hbc)
          have hbounds := boundsBelow_mono hbc hwithin.1 hwithin.2
          rw [hlower'] at hbounds
          rw [hlower] at hlu
          exact namesBelow_of_boundsBelow hsub hsup hlu hbounds
      | intRange supMin supMax =>
          simp only [scalarBelow, intRangeIsSubrange, Bool.and_eq_true, decide_eq_true_eq] at hbc
          simp only [scalarBelow, hlu, Option.any_some, Bool.and_eq_true, decide_eq_true_eq]
          omega
      | _ => simp [scalarBelow] at hbc
  | literal value => exact literal_trans_intRange hc hgap hab hbc
  | intRange subMin subMax =>
      simp only [scalarBelow, intRangeIsSubrange, Bool.and_eq_true, decide_eq_true_eq] at hab
      cases c with
      | named sup => exact boundsBelow_mono hbc hab.1 hab.2
      | intRange supMin supMax =>
          simp only [scalarBelow, intRangeIsSubrange, Bool.and_eq_true,
            decide_eq_true_eq] at hbc ⊢
          omega
      | _ => simp [scalarBelow] at hbc
  | classString inner => cases inner <;> simp [scalarBelow] at hab
  | interfaceString => simp [scalarBelow] at hab
  | _ => cases ha

/-- The names of some classes in the middle. -/
theorem scalarBelow_trans_classString {mid : Option PhpType} (ha : ScalarType a)
    (hinner : ∀ x y z, a = .classString (some x) → mid = some y → c = .classString (some z) →
      isSubtypeOf x y = true → isSubtypeOf y z = true → isSubtypeOf x z = true)
    (hab : scalarBelow a (.classString mid) = true)
    (hbc : scalarBelow (.classString mid) c = true) : scalarBelow a c = true := by
  have hclass : keywordLower "class-string" = "class-string" := by decide
  cases c with
  | named sup =>
      rw [scalarBelow_classString_named] at hbc
      cases a with
      | named sub =>
          cases mid with
          | none =>
              apply namesBelow_trans hab hbc
              simp [viewStringGap, hclass]
          | some => simp [scalarBelow] at hab
      | classString inner => rwa [scalarBelow_classString_named]
      | literal => simp [scalarBelow] at hab
      | intRange => simp [scalarBelow] at hab
      | interfaceString => simp [scalarBelow] at hab
      | _ => cases ha
  | classString supInner =>
      cases supInner with
      | none =>
          cases a with
          | named sub =>
              cases mid with
              | none => exact hab
              | some => simp [scalarBelow] at hab
          | classString inner => cases inner <;> rw [scalarBelow]
          | literal => simp [scalarBelow] at hab
          | intRange => simp [scalarBelow] at hab
          | interfaceString => simp [scalarBelow] at hab
          | _ => cases ha
      | some z =>
          cases mid with
          | none => simp [scalarBelow] at hbc
          | some y =>
              cases a with
              | classString inner =>
                  cases inner with
                  | none => simp [scalarBelow] at hab
                  | some x =>
                      simp only [scalarBelow] at hab hbc ⊢
                      exact hinner x y z rfl rfl rfl hab hbc
              | named => simp [scalarBelow] at hab
              | literal => simp [scalarBelow] at hab
              | intRange => simp [scalarBelow] at hab
              | interfaceString => simp [scalarBelow] at hab
              | _ => cases ha
  | _ => cases mid <;> simp [scalarBelow] at hbc

/-- One step of the transitivity: what two class names have between them is
left to the types they name. -/
theorem isSubtypeOf_trans_of_inner (ha : ScalarType a) (hb : ScalarType b) (hc : ScalarType c)
    (hgap : ¬TransitivityGap a b c) (hab : isSubtypeOf a b = true) (hbc : isSubtypeOf b c = true)
    (hinner : ∀ x y z, a = .classString (some x) → b = .classString (some y) →
      c = .classString (some z) → isSubtypeOf x y = true → isSubtypeOf y z = true →
      isSubtypeOf x z = true) : isSubtypeOf a c = true := by
  rw [isSubtypeOf_scalar ha hb] at hab
  rw [isSubtypeOf_scalar hb hc] at hbc
  rw [isSubtypeOf_scalar ha hc]
  have hmid := hb
  cases hb with
  | keyword => exact scalarBelow_trans_named ha hmid hc hgap hab hbc
  | classReference => exact scalarBelow_trans_named ha hmid hc hgap hab hbc
  | literal => exact scalarBelow_trans_literal ha hab hbc
  | intRange => exact scalarBelow_trans_intRange ha hc hgap hab hbc
  | classString =>
      apply scalarBelow_trans_classString ha ?_ hab hbc
      rintro x y z hx rfl hz
      exact hinner x y z hx rfl hz
  | interfaceString inner =>
      cases ha with
      | interfaceString sub =>
          obtain rfl : sub = inner := by simpa [scalarBelow] using hab
          exact hbc
      | @classString sub => cases sub <;> simp [scalarBelow] at hab
      | _ => simp [scalarBelow] at hab

/-- The subtype relation is transitive on scalar types, but for the gaps. -/
theorem isSubtypeOf_trans_scalar (ha : ScalarType a) (hb : ScalarType b) (hc : ScalarType c)
    (hgap : ¬TransitivityGap a b c) (hab : isSubtypeOf a b = true) (hbc : isSubtypeOf b c = true) :
    isSubtypeOf a c = true := by
  -- The induction is on what `a` names, as two class names are compared by that.
  induction ha generalizing b c with
  | @classString inner h ih =>
      apply isSubtypeOf_trans_of_inner (.classString h) hb hc hgap hab hbc
      rintro x y z hx rfl rfl hxy hyz
      obtain rfl := PhpType.classString.inj hx
      cases hb with
      | classString hy =>
          cases hc with
          | classString hz =>
              apply ih x rfl (hy y rfl) (hz z rfl) ?_ hxy hyz
              exact fun hinner => hgap (.classString hinner)
  | keyword h =>
      exact isSubtypeOf_trans_of_inner (.keyword h) hb hc hgap hab hbc (fun _ _ _ hx => nomatch hx)
  | classReference h =>
      exact isSubtypeOf_trans_of_inner (.classReference h) hb hc hgap hab hbc
        (fun _ _ _ hx => nomatch hx)
  | literal value =>
      exact isSubtypeOf_trans_of_inner (.literal value) hb hc hgap hab hbc
        (fun _ _ _ hx => nomatch hx)
  | intRange min max =>
      exact isSubtypeOf_trans_of_inner (.intRange min max) hb hc hgap hab hbc
        (fun _ _ _ hx => nomatch hx)
  | interfaceString inner =>
      exact isSubtypeOf_trans_of_inner (.interfaceString inner) hb hc hgap hab hbc
        (fun _ _ _ hx => nomatch hx)

end

theorem isSubtypeOf_trans_scalar_positiveInt :
    @isSubtypeOf constantHasher (.literal (.int "5")) (.named "numeric") = true := by
  have hname : ∀ name ∈ ["positive-int", "numeric"], keywordLower name ∈ scalarKeywords := by
    decide
  apply @isSubtypeOf_trans_scalar constantHasher _ (.named "positive-int") _ (.literal _)
    (.keyword (hname _ (by simp))) (.keyword (hname _ (by simp)))
  · rintro (h | _)
    revert h
    decide
  · decide +kernel
  · decide +kernel

/-- The empty string is taken for the name of a function, and a function has
no empty name. -/
theorem emptyString_below_callableString_only :
    @isSubtypeOf constantHasher (.literal (.string "''")) (.named "callable-string") = true ∧
      @isSubtypeOf constantHasher (.named "callable-string") (.named "non-empty-string") = true ∧
      @isSubtypeOf constantHasher (.literal (.string "''")) (.named "non-empty-string") = false := by
  decide +kernel

end PhpantomLsp
