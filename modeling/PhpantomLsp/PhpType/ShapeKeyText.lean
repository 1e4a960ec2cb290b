import PhpantomLsp.Lib.Replace
import PhpantomLsp.PhpType.Literal
import PhpantomLsp.PhpType.ShapeKeys

/-!
# The text of a shape key

A shape key is written bare or quoted, and read back from the text of a type.  A quoted
key decodes to the key it was written for.  A bare one reads back as itself unless it
begins with a minus and is no integer, or a hyphenated pseudo-type is spelled in it,
which the reader replaces by a placeholder before it parses (`quotingRoundTrips_iff`).
-/

namespace PhpantomLsp

open Text Lib.Replace

/-- `as_raw`. -/
def LiteralValue.asRaw : LiteralValue → String
  | .int raw => raw
  | .float raw => raw
  | .string raw => raw

namespace ShapeKeyText

/-! ## Writing -/

/-- `is_simple`: an identifier, which may hold `-`. -/
def isSimple (key : String) : Bool :=
  !key.toList.isEmpty &&
    key.toList.all (fun c => isAsciiAlphanumeric c || c = '_' || c = '-') &&
    !key.toList.head?.any isAsciiDigit

/-- What a character is written as between double quotes. -/
def escapeDouble (c : Char) : List Char :=
  match c with
  | '\\' => ['\\', '\\']
  | '"' => ['\\', '"']
  | '$' => ['\\', '$']
  | '\n' => ['\\', 'n']
  | '\r' => ['\\', 'r']
  | '\t' => ['\\', 't']
  | _ => [c]

/-- The keys `format_shape_key` leaves bare. -/
def isBare (key : String) : Bool :=
  isSimple key || isCanonicalIntKey key || (classConstantKey key).isSome

/-- `format_shape_key`. -/
def formatShapeKey (key : String) : String :=
  if isBare key then key
  else if key.toList.any (fun c => c = '\n' || c = '\r' || c = '\t') then
    String.ofList ('"' :: key.toList.flatMap escapeDouble ++ ['"'])
  else quotePhpString key

/-! ## Reading -/

/-- `HYPHENATED_KEYWORDS`. -/
def hyphenatedKeywords : List (String × String) :=
  [("model-property", "__model_property__"), ("builder-of", "__builder_of__"),
    ("collection-of", "__collection_of__"), ("factory-of", "__factory_of__"),
    ("relation-of", "__relation_of__")]

def placeholders : List (List Char × List Char) :=
  hyphenatedKeywords.map fun pair => (pair.1.toList, pair.2.toList)

def restorals : List (List Char × List Char) :=
  hyphenatedKeywords.map fun pair => (pair.2.toList, pair.1.toList)

/-- `replace_hyphenated_keywords`. -/
def replaceHyphenatedKeywords (text : String) : String :=
  String.ofList (replaceAll placeholders text.toList)

/-- `is_keyword_type`. -/
def isKeywordType (name : String) : Bool :=
  isScalarName name ||
    cappedLower name ∈ ["non-zero-int", "int-mask", "int-mask-of", "literal-string",
      "callable-string", "uppercase-string", "non-empty-uppercase-string",
      "non-empty-literal-string", "view-string", "trait-string", "enum-string",
      "associative-array", "mixed", "empty-scalar", "non-empty-scalar", "non-empty-mixed",
      "empty", "callable-object", "callable-array", "closed-resource", "open-resource",
      "no-return", "noreturn", "never-return", "never-returns", "key-of", "value-of", "class",
      "__benevolent", "builder-of", "collection-of", "factory-of", "relation-of"]

/-- The class of a class-constant key, as `restore_hyphenated_keywords` leaves it. -/
def restoreName (name : String) : String :=
  if isKeywordType name then name else String.ofList (replaceAll restorals name.toList)

/-- What `restore_hyphenated_keywords` makes of the key of an array shape. -/
def restoreShapeKey (key : String) : String :=
  match classConstantKey key with
  | some (className, constant) => restoreName className ++ "::" ++ constant
  | none => key

/-- `shape_key_text`, of the key the parser prints as `printed`. -/
def shapeKeyText (source printed : String) : String :=
  (decodePhpStringLiteral source).getD printed

/-- A minus at the front of a key is the sign of an integer. -/
def SignsInteger (key : String) : Prop :=
  key.toList.head? = some '-' → isCanonicalIntKey key = true

/-- What `mago_phpdoc_syntax` prints keys as: an identifier, an integer or a class
constant as it is spelled.  After a minus it reads an integer, and prints its value. -/
structure PrintsKeys (parser : String → Option String) : Prop where
  spelled : ∀ written, isBare written = true → SignsInteger written →
    parser written = some written
  signed : ∀ written printed, written.toList.head? = some '-' → parser written = some printed →
    isCanonicalIntKey printed = true

variable (parser : String → Option String)

/-- The key `PhpType::parse` reads where `written` stands.  No keyword that is replaced
holds the characters around a key, so the text of the key is replaced on its own
(`replaceHyphenatedKeywords_append`).  `parser` is what `mago_phpdoc_syntax` prints a key
as; only the keys of an array shape are restored. -/
def readShapeKey (arrayShape : Bool) (written : String) : Option String :=
  let effective := replaceHyphenatedKeywords written
  (parser effective).map fun printed =>
    let key := shapeKeyText effective printed
    if arrayShape then restoreShapeKey key else key

/-! ## Quoted keys -/

theorem undone_escapeDouble : Undone true escapeDouble := by
  intro c
  unfold escapeDouble
  split
  · exact .inr ⟨'\\', rfl, fun _ => rfl⟩
  · exact .inr ⟨'"', rfl, fun _ => rfl⟩
  · exact .inr ⟨'$', rfl, fun _ => rfl⟩
  · exact .inr ⟨'n', rfl, fun _ => rfl⟩
  · exact .inr ⟨'r', rfl, fun _ => rfl⟩
  · exact .inr ⟨'t', rfl, fun _ => rfl⟩
  · next hslash _ _ _ _ _ => exact .inl ⟨rfl, hslash⟩

/-- A quoted key decodes to the key. -/
theorem decode_formatShapeKey {key : String} (h : isBare key = false) :
    decodePhpStringLiteral (formatShapeKey key) = some key := by
  rw [formatShapeKey, if_neg (by rw [h]; exact Bool.false_ne_true)]
  split
  · have hcontent : literalContent
        (String.ofList ('"' :: key.toList.flatMap escapeDouble ++ ['"'])) =
        some (true, key.toList.flatMap escapeDouble) := by
      have hsingle : stripQuotes '\'' ('"' :: key.toList.flatMap escapeDouble ++ ['"']) = none := rfl
      rw [literalContent, String.toList_ofList, hsingle, stripQuotes_quoted]
      rfl
    rw [decodePhpStringLiteral_of_content undone_escapeDouble hcontent, String.ofList_toList]
  · exact decodePhpStringLiteral_quotePhpString key

example : formatShapeKey "tab\tand $" = "\"tab\\tand \\$\"" := by decide +kernel

theorem formatShapeKey_of_isBare {key : String} (h : isBare key = true) :
    formatShapeKey key = key := by
  rw [formatShapeKey, if_pos h]

/-! ## The characters of a bare key -/

/-- What stands in the parts of a qualified name and between them. -/
theorem mem_splitBackslash {chars : List Char} {c : Char} (h : c ∈ chars) :
    c = '\\' ∨ ∃ part ∈ splitBackslash chars, c ∈ part := by
  induction chars with
  | nil => cases h
  | cons d rest ih =>
      unfold splitBackslash
      cases hsplit : splitBackslash rest with
      | nil =>
          rcases List.mem_cons.mp h with rfl | h
          · exact .inr ⟨[c], List.mem_cons_self, List.mem_cons_self⟩
          · rcases ih h with hslash | ⟨part, hpart, -⟩
            · exact .inl hslash
            · rw [hsplit] at hpart
              cases hpart
      | cons first parts =>
          simp only
          by_cases hd : d = '\\'
          · rw [if_pos hd]
            rcases List.mem_cons.mp h with rfl | h
            · exact .inl hd
            · refine (ih h).imp_right fun ⟨part, hpart, hc⟩ => ?_
              rw [hsplit] at hpart
              exact ⟨part, List.mem_cons_of_mem _ hpart, hc⟩
          · rw [if_neg hd]
            rcases List.mem_cons.mp h with rfl | h
            · exact .inr ⟨c :: first, List.mem_cons_self, List.mem_cons_self⟩
            · refine (ih h).imp_right fun ⟨part, hpart, hc⟩ => ?_
              rw [hsplit] at hpart
              rcases List.mem_cons.mp hpart with rfl | hpart
              · exact ⟨d :: part, List.mem_cons_self, List.mem_cons_of_mem _ hc⟩
              · exact ⟨part, List.mem_cons_of_mem _ hpart, hc⟩

/-- A character of a class name. -/
def isNameChar (c : Char) : Bool := isAsciiAlphanumeric c || c = '_' || isNonAscii c || c = '\\'

theorem isNameChar_of_identifier {part : List Char} {c : Char} (h : isIdentifier part = true)
    (hc : c ∈ part) : isNameChar c = true := by
  cases part with
  | nil => cases hc
  | cons d part =>
      rw [isIdentifier, Bool.and_eq_true, List.all_eq_true] at h
      have hall := h.2 c hc
      rw [isNameChar, hall, Bool.true_or]

theorem isNameChar_of_spelling {text : List Char} {c : Char}
    (h : isClassNameSpelling text = true) (hc : c ∈ text) : isNameChar c = true := by
  have hparts : ∀ name : List Char, (splitBackslash name).all isIdentifier = true → c ∈ name →
      isNameChar c = true := by
    intro name hall hin
    rcases mem_splitBackslash hin with rfl | ⟨part, hpart, hin⟩
    · rfl
    · exact isNameChar_of_identifier (List.all_eq_true.mp hall part hpart) hin
  unfold isClassNameSpelling at h
  simp only [Bool.and_eq_true] at h
  split at h
  · rcases List.mem_cons.mp hc with rfl | hc
    · rfl
    · exact hparts _ h.2 hc
  · exact hparts _ h.2 hc

theorem rsplitOnceColons_eq {chars before after : List Char}
    (h : rsplitOnceColons chars = some (before, after)) : chars = before ++ ':' :: ':' :: after := by
  induction chars generalizing before after with
  | nil => cases h
  | cons c rest ih =>
      unfold rsplitOnceColons at h
      cases hrest : rsplitOnceColons rest with
      | some parts =>
          rw [hrest, Option.some.injEq, Prod.mk.injEq] at h
          rw [← h.1, ← h.2, List.cons_append, ← ih hrest]
      | none =>
          rw [hrest] at h
          simp only at h
          split at h
          · rw [Option.some.injEq, Prod.mk.injEq] at h
            rw [← h.1, ← h.2]
            rfl
          · cases h

/-- A class-constant key is its class and its constant around the colons. -/
theorem classConstantKey_eq {key className constant : String}
    (h : classConstantKey key = some (className, constant)) :
    key = className ++ "::" ++ constant ∧ isClassNameSpelling className.toList = true ∧
      isClassNameSpelling constant.toList = true := by
  unfold classConstantKey at h
  split at h
  · next before after hsplit =>
      split at h
      · next hspelling =>
          rw [Option.some.injEq, Prod.mk.injEq] at h
          simp only [Bool.and_eq_true] at hspelling
          rw [← h.1, ← h.2, String.toList_ofList, String.toList_ofList]
          refine ⟨?_, hspelling.1.1, hspelling.1.2⟩
          rw [← String.ofList_toList (s := key), rsplitOnceColons_eq hsplit]
          apply String.toList_injective
          simp
      · cases h
  · cases h

theorem isDigit_of_isCanonicalIntKey {key : String} {c : Char} (h : isCanonicalIntKey key = true)
    (hc : c ∈ key.toList) : isAsciiDigit c = true ∨ c = '-' := by
  simp only [isCanonicalIntKey, Bool.and_eq_true, List.all_eq_true] at h
  have hall := h.1.1.2
  unfold stripPrefixChar at hall
  split at hall
  · next d rest hkey =>
      split at hall
      · next hd =>
          rw [hkey, hd] at hc
          rcases List.mem_cons.mp hc with rfl | hc
          · exact .inr rfl
          · rw [Option.getD_some, String.toList_ofList] at hall
            exact .inl (hall c hc)
      · exact .inl (hall c hc)
  · exact .inl (hall c hc)

theorem isSimple_chars {key : String} (h : isSimple key = true) :
    ∀ c ∈ key.toList, (isAsciiAlphanumeric c || c = '_' || c = '-') = true := by
  simp only [isSimple, Bool.and_eq_true] at h
  exact List.all_eq_true.mp h.1.2

/-- A character that none of the bare spellings has. -/
theorem not_mem_of_isBare {key : String} (h : isBare key = true) {c : Char}
    (hname : isNameChar c = false) (hdash : c ≠ '-') (hcolon : c ≠ ':') : c ∉ key.toList := by
  intro hc
  simp only [isNameChar, Bool.or_eq_false_iff, decide_eq_false_iff_not] at hname
  rw [isBare, Bool.or_eq_true, Bool.or_eq_true] at h
  rcases h with (hsimple | hint) | hconst
  · have hall := isSimple_chars hsimple c hc
    simp only [hname.1.1.1, hname.1.1.2, hdash, decide_false, Bool.or_false,
      Bool.false_eq_true] at hall
  · rcases isDigit_of_isCanonicalIntKey hint hc with hdigit | hminus
    · have hnot := hname.1.1.1
      rw [isAsciiAlphanumeric, hdigit, Bool.true_or] at hnot
      cases hnot
    · exact hdash hminus
  · obtain ⟨⟨className, constant⟩, hkey⟩ := Option.isSome_iff_exists.mp hconst
    obtain ⟨heq, hclass, hconstant⟩ := classConstantKey_eq hkey
    have hfalse : isNameChar c = false := by
      simp only [isNameChar, hname, decide_false, Bool.or_false]
    rw [heq, String.toList_append, String.toList_append, List.mem_append, List.mem_append] at hc
    rcases hc with (hc | hc) | hc
    · rw [isNameChar_of_spelling hclass hc] at hfalse
      cases hfalse
    · have hcolons : c ∈ [':', ':'] := hc
      simp only [List.mem_cons, List.not_mem_nil, or_false, or_self] at hcolons
      exact hcolon hcolons
    · rw [isNameChar_of_spelling hconstant hc] at hfalse
      cases hfalse

/-- Nothing decodes in a bare key. -/
theorem decode_of_isBare {key : String} (h : isBare key = true) :
    decodePhpStringLiteral key = none := by
  have hstrip : ∀ quote : Char, quote ∉ key.toList → stripQuotes quote key.toList = none := by
    intro quote hquote
    cases hkey : key.toList with
    | nil => rfl
    | cons c rest =>
        rw [hkey, List.mem_cons, not_or] at hquote
        rw [stripQuotes, if_neg (fun heq => hquote.1 heq.symm)]
  have hsingle := hstrip '\'' (not_mem_of_isBare h rfl (by decide) (by decide))
  have hdouble := hstrip '"' (not_mem_of_isBare h rfl (by decide) (by decide))
  rw [decodePhpStringLiteral, literalContent, hsingle, hdouble]
  rfl

theorem classConstantKey_of_isSimple {key : String} (h : isSimple key = true) :
    classConstantKey key = none := by
  cases hconst : classConstantKey key with
  | none => rfl
  | some parts =>
      have heq := (@classConstantKey_eq key parts.1 parts.2 hconst).1
      have hcolon : ':' ∈ key.toList := by
        rw [heq, String.toList_append, String.toList_append]
        exact List.mem_append_left _ (List.mem_append_right _ List.mem_cons_self)
      exact absurd (isSimple_chars h ':' hcolon) (by decide)

theorem restoreShapeKey_of_isSimple {key : String} (h : isSimple key = true) :
    restoreShapeKey key = key := by
  unfold restoreShapeKey
  rw [classConstantKey_of_isSimple h]

/-! ## Pseudo-types in a key -/

theorem placeholders_shed : Sheds placeholders '-' := by unfold Sheds; decide +kernel

theorem restorals_shed : Sheds restorals '_' := by unfold Sheds; decide +kernel

/-- A hyphenated keyword is of letters and dashes, an `o` and a dash among them, and its
placeholder is a name that begins with an underscore. -/
theorem placeholders_spelled {pair : List Char × List Char} (h : pair ∈ placeholders) :
    ((pair.1 ≠ [] ∧ ∀ c ∈ pair.1, isAsciiAlphabetic c ∨ c = '-') ∧ 'o' ∈ pair.1 ∧ '-' ∈ pair.1) ∧
      (∀ c ∈ pair.2, (isAsciiAlphanumeric c || c = '_' || c = '-') = true) ∧
        pair.2.head? = some '_' := by
  have hall : placeholders.all (fun pair =>
      (!pair.1.isEmpty && pair.1.all (fun c => isAsciiAlphabetic c || c == '-')) &&
        (pair.1.contains 'o' && pair.1.contains '-') &&
          (pair.2.all (fun c => isAsciiAlphanumeric c || c = '_' || c = '-') &&
            pair.2.head? == some '_')) = true := by decide +kernel
  have hspelled := List.all_eq_true.mp hall pair h
  simp only [Bool.and_eq_true, Bool.not_eq_true', List.isEmpty_eq_false_iff, List.all_eq_true,
    List.contains_iff_mem, beq_iff_eq] at hspelled
  obtain ⟨⟨⟨hne, hletters⟩, hboth⟩, hput⟩ := hspelled
  exact ⟨⟨⟨hne, fun c hc => by simpa using hletters c hc⟩, hboth⟩, hput⟩

/-- Around a key stand characters that no keyword holds. -/
theorem replaceHyphenatedKeywords_append (before after : String) {sep : Char}
    (hsep : ¬ isAsciiAlphabetic sep ∧ sep ≠ '-') :
    (replaceHyphenatedKeywords (before ++ String.singleton sep ++ after)).toList =
      (replaceHyphenatedKeywords before).toList ++
        sep :: (replaceHyphenatedKeywords after).toList := by
  have hpairs : ∀ pair ∈ placeholders, pair.1 ≠ [] ∧ sep ∉ pair.1 := by
    intro pair hpair
    have hspelled := (placeholders_spelled hpair).1.1
    refine ⟨hspelled.1, fun hin => ?_⟩
    rcases hspelled.2 sep hin with hletter | hdash
    · exact hsep.1 hletter
    · exact hsep.2 hdash
  simp only [replaceHyphenatedKeywords, String.toList_ofList, String.toList_append,
    String.toList_singleton, List.append_assoc, List.singleton_append]
  exact replaceAll_append_cons hpairs _ _

/-- Only an identifier can hold a hyphenated keyword and be left bare. -/
theorem isSimple_of_occurs {key : String} (h : isBare key = true)
    (hoccurs : Occurs placeholders key.toList) : isSimple key = true := by
  obtain ⟨pair, hpair, hin⟩ := hoccurs
  have hboth := (placeholders_spelled hpair).1.2
  have hletter : 'o' ∈ key.toList := hin.subset hboth.1
  have hdash : '-' ∈ key.toList := hin.subset hboth.2
  rw [isBare, Bool.or_eq_true, Bool.or_eq_true] at h
  rcases h with (hsimple | hint) | hconst
  · exact hsimple
  · rcases isDigit_of_isCanonicalIntKey hint hletter with hdigit | hminus
    · exact absurd hdigit (by decide)
    · exact absurd hminus (by decide)
  · obtain ⟨⟨className, constant⟩, hkey⟩ := Option.isSome_iff_exists.mp hconst
    obtain ⟨heq, hclass, hconstant⟩ := classConstantKey_eq hkey
    rw [heq, String.toList_append, String.toList_append, List.mem_append, List.mem_append] at hdash
    rcases hdash with (hdash | hdash) | hdash
    · exact absurd (isNameChar_of_spelling hclass hdash) (by decide)
    · exact absurd hdash (by decide)
    · exact absurd (isNameChar_of_spelling hconstant hdash) (by decide)

theorem isSimple_replaceHyphenatedKeywords {key : String} (h : isSimple key = true) :
    isSimple (replaceHyphenatedKeywords key) = true := by
  have hput : ∀ pair ∈ placeholders, ∀ c ∈ pair.2,
      (isAsciiAlphanumeric c || c = '_' || c = '-') = true := fun pair hpair =>
    (placeholders_spelled hpair).2.1
  have hall := replaceAll_all hput (isSimple_chars h)
  simp only [isSimple, Bool.and_eq_true] at h
  have hfirst : ∃ c rest, key.toList = c :: rest ∧ isAsciiDigit c = false := by
    cases hkey : key.toList with
    | nil =>
        rw [hkey] at h
        cases h.1.1
    | cons c rest =>
        have hdigit := h.2
        rw [hkey] at hdigit
        exact ⟨c, rest, rfl, by simpa using hdigit⟩
  have hputs : ∀ pair ∈ placeholders, ∃ c rest, pair.2 = c :: rest ∧ isAsciiDigit c = false := by
    intro pair hpair
    obtain ⟨rest, hrest⟩ := List.head?_eq_some_iff.mp (placeholders_spelled hpair).2.2
    exact ⟨'_', rest, hrest, rfl⟩
  obtain ⟨c, rest, heq, hdigit⟩ := replaceAll_head hputs hfirst
  simp only [isSimple, Bool.and_eq_true, replaceHyphenatedKeywords, String.toList_ofList]
  refine ⟨⟨?_, List.all_eq_true.mpr hall⟩, ?_⟩
  · rw [heq]
    rfl
  · rw [heq]
    simpa using hdigit

/-! ## Reading a key back -/

/-- The key begins with a minus only as an integer, no hyphenated keyword is spelled in
it, and no placeholder in the class of a class-constant key of an array shape. -/
def ReadsAsSpelled (arrayShape : Bool) (key : String) : Prop :=
  SignsInteger key ∧ ¬ Occurs placeholders key.toList ∧
    (arrayShape = true → ∀ className constant, classConstantKey key = some (className, constant) →
      isKeywordType className = true ∨ ¬ Occurs restorals className.toList)

theorem restoreName_eq_self_iff (name : String) :
    restoreName name = name ↔ isKeywordType name = true ∨ ¬ Occurs restorals name.toList := by
  rw [restoreName]
  split
  · next hkeyword => exact iff_of_true rfl (.inl hkeyword)
  · next hkeyword =>
      rw [← replaceAll_eq_self_iff restorals_shed, or_iff_right hkeyword]
      constructor
      · intro h
        rw [← String.toList_ofList (l := replaceAll restorals name.toList), h]
      · intro h
        rw [h, String.ofList_toList]

theorem restoreShapeKey_eq_self_iff (key : String) :
    restoreShapeKey key = key ↔ ∀ className constant,
      classConstantKey key = some (className, constant) →
        isKeywordType className = true ∨ ¬ Occurs restorals className.toList := by
  rw [restoreShapeKey]
  cases hconst : classConstantKey key with
  | none => simp
  | some parts =>
      have heq := (@classConstantKey_eq key parts.1 parts.2 hconst).1
      have hiff : restoreName parts.1 ++ "::" ++ parts.2 = key ↔ restoreName parts.1 = parts.1 := by
        constructor
        · intro h
          rw [heq] at h
          have hlist := congrArg String.toList h
          simp only [String.toList_append, List.append_cancel_right_eq] at hlist
          exact String.toList_injective hlist
        · intro h
          rw [h, ← heq]
      rw [hiff, restoreName_eq_self_iff]
      constructor
      · intro h className constant hsome
        rw [Option.some.injEq] at hsome
        rwa [hsome] at h
      · exact fun h => h parts.1 parts.2 rfl

theorem restoreShapeKey_of_isCanonicalIntKey {key : String} (h : isCanonicalIntKey key = true) :
    restoreShapeKey key = key := by
  rw [restoreShapeKey_eq_self_iff]
  intro className constant hconst
  have hcolon : ':' ∈ key.toList := by
    rw [(classConstantKey_eq hconst).1, String.toList_append, String.toList_append]
    exact List.mem_append_left _ (List.mem_append_right _ List.mem_cons_self)
  rcases isDigit_of_isCanonicalIntKey h hcolon with hdigit | hminus
  · exact absurd hdigit (by decide)
  · exact absurd hminus (by decide)

/-- A bare key that begins with a minus is an identifier or an integer. -/
theorem isSimple_of_minus {key : String} (h : isBare key = true)
    (hminus : key.toList.head? = some '-') (hint : isCanonicalIntKey key = false) :
    isSimple key = true := by
  rw [isBare, hint, Bool.or_false, Bool.or_eq_true] at h
  rcases h with hsimple | hconst
  · exact hsimple
  · obtain ⟨⟨className, constant⟩, hkey⟩ := Option.isSome_iff_exists.mp hconst
    obtain ⟨heq, hclass, hconstant⟩ := classConstantKey_eq hkey
    have hdash : '-' ∈ key.toList := List.mem_of_head? hminus
    rw [heq, String.toList_append, String.toList_append, List.mem_append, List.mem_append] at hdash
    rcases hdash with (hdash | hdash) | hdash
    · exact absurd (isNameChar_of_spelling hclass hdash) (by decide)
    · exact absurd hdash (by decide)
    · exact absurd (isNameChar_of_spelling hconstant hdash) (by decide)

/-- A replacement puts no minus at the front. -/
theorem signsInteger_replaceHyphenatedKeywords {key : String} (hne : key.toList ≠ [])
    (h : key.toList.head? ≠ some '-') : SignsInteger (replaceHyphenatedKeywords key) := by
  have hputs : ∀ pair ∈ placeholders, ∃ c rest, pair.2 = c :: rest ∧ c ≠ '-' := by
    intro pair hpair
    obtain ⟨rest, hrest⟩ := List.head?_eq_some_iff.mp (placeholders_spelled hpair).2.2
    exact ⟨'_', rest, hrest, by decide⟩
  have hfirst : ∃ c rest, key.toList = c :: rest ∧ c ≠ '-' := by
    obtain ⟨c, rest, hkey⟩ := List.exists_cons_of_ne_nil hne
    refine ⟨c, rest, hkey, fun heq => h ?_⟩
    rw [hkey, heq, List.head?_cons]
  obtain ⟨c, rest, heq, hc⟩ := replaceAll_head hputs hfirst
  intro hminus
  rw [replaceHyphenatedKeywords, String.toList_ofList, heq, List.head?_cons,
    Option.some.injEq] at hminus
  exact absurd hminus hc

/-- What is read where an identifier is left after the replacements. -/
theorem readShapeKey_of_isSimple {parser : String → Option String} {arrayShape : Bool}
    {key : String} (h : isSimple (replaceHyphenatedKeywords key) = true)
    (hrestore : ∀ printed, parser (replaceHyphenatedKeywords key) = some printed →
      restoreShapeKey printed = printed) :
    readShapeKey parser arrayShape key = parser (replaceHyphenatedKeywords key) := by
  have hbare : isBare (replaceHyphenatedKeywords key) = true := by
    rw [isBare, h, Bool.true_or, Bool.true_or]
  cases hparse : parser (replaceHyphenatedKeywords key) with
  | none => simp only [readShapeKey, hparse, Option.map_none]
  | some printed =>
      simp only [readShapeKey, hparse, Option.map_some, shapeKeyText, decode_of_isBare hbare,
        Option.getD_none, hrestore printed hparse, ite_self]

/-- Where a minus is no sign, the key read is another one. -/
theorem readShapeKey_ne_of_minus {parser : String → Option String} (hparser : PrintsKeys parser)
    {arrayShape : Bool} {key : String} (h : isBare key = true) (hsign : ¬ SignsInteger key) :
    readShapeKey parser arrayShape key ≠ some key := by
  simp only [SignsInteger, Classical.not_imp, Bool.not_eq_true] at hsign
  obtain ⟨hminus, hint⟩ := hsign
  have hsimple := isSimple_replaceHyphenatedKeywords (isSimple_of_minus h hminus hint)
  by_cases hfirst : (replaceHyphenatedKeywords key).toList.head? = some '-'
  · rw [readShapeKey_of_isSimple hsimple fun printed hprinted =>
      restoreShapeKey_of_isCanonicalIntKey (hparser.signed _ printed hfirst hprinted)]
    intro hread
    rw [hparser.signed _ key hfirst hread] at hint
    cases hint
  · have hspelled := hparser.spelled (replaceHyphenatedKeywords key)
      (by rw [isBare, hsimple, Bool.true_or, Bool.true_or]) fun heq => absurd heq hfirst
    rw [readShapeKey_of_isSimple hsimple, hspelled, ne_eq, Option.some.injEq]
    · intro heq
      rw [heq] at hfirst
      exact hfirst hminus
    · intro printed hprinted
      rw [← Option.some.inj (hspelled.symm.trans hprinted)]
      exact restoreShapeKey_of_isSimple hsimple

/-- A bare key reads back as itself exactly when its minus is a sign and nothing
replaced is spelled in it. -/
theorem readShapeKey_eq_iff {parser : String → Option String} (hparser : PrintsKeys parser)
    {arrayShape : Bool} {key : String} (h : isBare key = true) :
    readShapeKey parser arrayShape key = some key ↔ ReadsAsSpelled arrayShape key := by
  by_cases hsign : SignsInteger key
  · by_cases hoccurs : Occurs placeholders key.toList
    · refine iff_of_false ?_ fun hreads => hreads.2.1 hoccurs
      have hsimpleKey := isSimple_of_occurs h hoccurs
      have hsimple := isSimple_replaceHyphenatedKeywords hsimpleKey
      have hne : replaceHyphenatedKeywords key ≠ key := by
        intro heq
        refine (replaceAll_eq_self_iff placeholders_shed key.toList).mp ?_ hoccurs
        rw [← String.toList_ofList (l := replaceAll placeholders key.toList)]
        exact congrArg String.toList heq
      have hfirst : key.toList.head? ≠ some '-' := by
        intro hminus
        obtain ⟨pair, hpair, hin⟩ := hoccurs
        have hletter : 'o' ∈ key.toList := hin.subset (placeholders_spelled hpair).1.2.1
        rcases isDigit_of_isCanonicalIntKey (hsign hminus) hletter with hdigit | hdash
        · exact absurd hdigit (by decide)
        · exact absurd hdash (by decide)
      have hkey : key.toList ≠ [] := by
        intro hnil
        simp [isSimple, hnil] at hsimpleKey
      have hspelled := hparser.spelled (replaceHyphenatedKeywords key)
        (by rw [isBare, hsimple, Bool.true_or, Bool.true_or])
        (signsInteger_replaceHyphenatedKeywords hkey hfirst)
      rw [readShapeKey_of_isSimple hsimple, hspelled, Option.some.injEq]
      · exact hne
      · intro printed hprinted
        rw [← Option.some.inj (hspelled.symm.trans hprinted)]
        exact restoreShapeKey_of_isSimple hsimple
    · have heq : replaceHyphenatedKeywords key = key := by
        rw [replaceHyphenatedKeywords, replaceAll_of_not_occurs hoccurs, String.ofList_toList]
      rw [readShapeKey, heq, hparser.spelled key h hsign, Option.map_some, shapeKeyText,
        decode_of_isBare h, Option.getD_none, Option.some.injEq, ReadsAsSpelled,
        and_iff_right hsign, and_iff_right hoccurs]
      cases arrayShape with
      | false => simp
      | true =>
          rw [← restoreShapeKey_eq_self_iff]
          simp
  · exact iff_of_false (readShapeKey_ne_of_minus hparser h hsign) fun hreads => hsign hreads.1

/-- What is written for a string or a key reads back as it. -/
structure QuotingRoundTrips (parser : String → Option String) (arrayShape : Bool)
    (value key : String) : Prop where
  value : decodePhpStringLiteral (LiteralValue.stringValue value).asRaw = some value
  quoted : isBare key = false → decodePhpStringLiteral (formatShapeKey key) = some key
  bare : isBare key = true → readShapeKey parser arrayShape (formatShapeKey key) = some key

/-- Quoted texts always read back; a bare key does unless it begins with a minus and is
no integer, or a pseudo-type spelled in it, or the placeholder of one in the class it
names, is replaced. -/
theorem quotingRoundTrips_iff {parser : String → Option String} (hparser : PrintsKeys parser)
    (arrayShape : Bool) (value key : String) :
    QuotingRoundTrips parser arrayShape value key ↔
      (isBare key = true → ReadsAsSpelled arrayShape key) := by
  constructor
  · intro h hbare
    rw [← readShapeKey_eq_iff hparser hbare]
    have hread := h.bare hbare
    rwa [formatShapeKey_of_isBare hbare] at hread
  · intro h
    refine ⟨decodePhpStringLiteral_quotePhpString value, decode_formatShapeKey, fun hbare => ?_⟩
    rw [formatShapeKey_of_isBare hbare, readShapeKey_eq_iff hparser hbare]
    exact h hbare

/-- Keys printed as they are spelled, and nothing for a minus before anything but an
integer. -/
def printSpelled (written : String) : Option String :=
  if written.toList.head? = some '-' ∧ isCanonicalIntKey written = false then none
  else some written

theorem printSpelled_printsKeys : PrintsKeys printSpelled := by
  constructor
  · intro written _ hsign
    refine if_neg fun hminus => ?_
    rw [hsign hminus.1] at hminus
    exact absurd hminus.2 (by decide)
  · intro written printed hminus hprinted
    unfold printSpelled at hprinted
    split at hprinted
    · cases hprinted
    · next hnot =>
        rw [← Option.some.inj hprinted]
        simpa [hminus] using hnot

theorem quotingRoundTrips_iff_psr :
    QuotingRoundTrips printSpelled true "it's \\" "psr-4" ↔
      (isBare "psr-4" = true → ReadsAsSpelled true "psr-4") :=
  quotingRoundTrips_iff printSpelled_printsKeys true "it's \\" "psr-4"

/-- `model-property` is written bare and reads back as its placeholder. -/
theorem not_quotingRoundTrips_model_property :
    isBare "model-property" = true ∧ formatShapeKey "model-property" = "model-property" ∧
      readShapeKey printSpelled true "model-property" = some "__model_property__" := by
  decide +kernel

end ShapeKeyText

end PhpantomLsp
