import PhpantomLsp.PhpType.PhpComparison

/-!
# Loose equality of literals

`loosely_equals` compares numbers as doubles.  The strings it takes for numbers
are PHP's but for those with a vertical tab (`isNumericString_iff`), and the
double is the one PHP's number converts to (`numeric_string`).
-/

namespace PhpantomLsp

open Text

/-- `Some(f(x?, y?))` -/
def compareBoth {α : Type} (f : α → α → Bool) (x y : Option α) : Option Bool :=
  x.bind fun a => y.map (f a)

namespace LiteralValue

/-- The number a literal is compared by. -/
def numeric : LiteralValue → Option F64
  | .int raw => (parsePhpIntLiteral raw).map F64.ofInt
  | .float raw => parsePhpFloatLiteral raw
  | .string raw =>
      (LiteralValue.string raw).stringContent.bind fun content =>
        if isPhpNumericString content then parseF64 (trim content) else none

def isInt : LiteralValue → Bool
  | .int _ => true
  | _ => false

def isString : LiteralValue → Bool
  | .string _ => true
  | _ => false

/-- `loosely_equals`, arm by arm. -/
def looselyEquals (self other : LiteralValue) : Option Bool :=
  if self.isInt && other.isInt then compareBoth (· == ·) self.parseInt other.parseInt
  else if self.isString && other.isString &&
      (!self.isNumericString || !other.isNumericString) then
    compareBoth (· == ·) self.stringContent other.stringContent
  else if self.isString && !self.isNumericString then some false
  else if other.isString && !other.isNumericString then some false
  else compareBoth F64.eq self.numeric other.numeric

end LiteralValue

/-! ## Symmetry -/

theorem compareBoth_comm {α : Type} {f : α → α → Bool} (hf : ∀ a b, f a b = f b a)
    (x y : Option α) : compareBoth f x y = compareBoth f y x := by
  cases x with
  | none => cases y <;> rfl
  | some a =>
      cases y with
      | none => rfl
      | some b => exact congrArg some (hf a b)

theorem Text.F64.eq_comm (x y : F64) : x.eq y = y.eq x := by
  rw [Bool.eq_iff_iff]
  exact ⟨F64.eq_symm, F64.eq_symm⟩

namespace LiteralValue

theorem looselyEquals_comm (a b : LiteralValue) : a.looselyEquals b = b.looselyEquals a := by
  have hints := compareBoth_comm (f := ((· == ·) : Int → Int → Bool)) (fun _ _ => BEq.comm)
    a.parseInt b.parseInt
  have htexts := compareBoth_comm (f := ((· == ·) : String → String → Bool)) (fun _ _ => BEq.comm)
    a.stringContent b.stringContent
  have hdoubles := compareBoth_comm F64.eq_comm a.numeric b.numeric
  unfold looselyEquals
  rw [hints, htexts, hdoubles]
  generalize a.isInt = ai, a.isString = as, a.isNumericString = an
  generalize b.isInt = bi, b.isString = bs, b.isNumericString = bn
  cases ai <;> cases as <;> cases an <;> cases bi <;> cases bs <;> cases bn <;> rfl

end LiteralValue

/-! ## Numeric strings -/

theorem isNumericTail_iff (chars : List Char) :
    isNumericTail chars = true ↔ ∃ exponent, parseExponent chars = some (exponent, []) := by
  constructor
  · intro h
    cases chars with
    | nil => exact ⟨0, rfl⟩
    | cons c rest =>
        rw [isNumericTail] at h
        split at h
        case isFalse => cases h
        rename_i he
        simp only [Bool.and_eq_true, Bool.not_eq_true', List.all_eq_true] at h
        obtain ⟨hne, hdigits⟩ := h
        obtain ⟨n, hn⟩ := digitsValue_of_digits hdigits 0
        have hspan : spanDigits (splitSign rest).2 = ((splitSign rest).2, []) := by
          rw [spanDigits, List.span_eq_takeWhile_dropWhile, List.takeWhile_eq_self_iff.mpr hdigits,
            List.dropWhile_eq_nil_iff.mpr hdigits]
        refine ⟨if (splitSign rest).1 then -(n : Int) else n, ?_⟩
        simp [parseExponent, he, hspan, hne, hn]
  · rintro ⟨exponent, h⟩
    obtain rfl | ⟨c, rest, rfl, he, hne, hdigits⟩ := parseExponent_eq_some h
    · rfl
    · simp only [isNumericTail, he, if_true, Bool.and_eq_true, Bool.not_eq_true',
        List.all_eq_true]
      exact ⟨by simpa using hne, hdigits⟩

theorem isPhpNumericString_eq (content : String) : isPhpNumericString content =
    (!((spanDigits (splitSign (stripBoth isAsciiWhitespace content.toList)).2).1.isEmpty &&
        (spanFraction (spanDigits (splitSign
          (stripBoth isAsciiWhitespace content.toList)).2).2).1.isEmpty) &&
      isNumericTail (spanFraction (spanDigits (splitSign
        (stripBoth isAsciiWhitespace content.toList)).2).2).2) := by
  simp only [isPhpNumericString, stripBoth, List.rdropWhile]
  generalize (spanDigits (splitSign _).2).2 = rest
  split
  · rfl
  · rename_i hpoint
    rw [spanFraction_of_ne hpoint]

theorem isPhpNumericString_iff (content : String) : isPhpNumericString content = true ↔
    ∃ n, readSpelling (stripBoth isAsciiWhitespace content.toList) = some n := by
  rw [isPhpNumericString_eq, Bool.and_eq_true, isNumericTail_iff, Bool.not_eq_true']
  constructor
  · rintro ⟨hne, exponent, htail⟩
    exact ⟨_, by rw [readSpelling]; simp only [hne, htail]; rfl⟩
  · rintro ⟨n, hread⟩
    obtain ⟨-, hwhole, hfraction, hne, htail, -⟩ := readSpelling_eq_some hread
    rw [hwhole, hfraction] at hne
    exact ⟨hne, _, htail⟩

/-- A numeric string to the analysis is its number with ASCII whitespace around
it. -/
theorem isPhpNumericString_spec {content : String} (h : isPhpNumericString content = true) :
    ∃ before core after n, content.toList = before ++ core ++ after ∧
      readSpelling core = some n ∧ (∀ c ∈ before ++ after, isAsciiWhitespace c = true) ∧
      (∀ c ∈ core, isNumericChar c = true) ∧ parseF64 (trim content) = some n.toDouble := by
  obtain ⟨n, hread⟩ := (isPhpNumericString_iff content).mp h
  obtain ⟨before, after, hchars, hbefore, hafter⟩ :=
    stripBoth_split isAsciiWhitespace content.toList
  generalize stripBoth isAsciiWhitespace content.toList = core at hread hchars
  have hcore := isNumericChar_of_spelling hread
  have hwhitespace : ∀ c, isAsciiWhitespace c = true → isWhitespace c = true := by
    intro c hc
    rw [isAsciiWhitespace_iff] at hc
    simp only [isWhitespace, Bool.or_eq_true, Bool.and_eq_true, decide_eq_true_eq]
    omega
  have htrim : trim content = String.ofList core := by
    have hstrip : trim content = String.ofList (stripBoth isWhitespace content.toList) := rfl
    rw [hstrip, hchars, stripBoth_eq (fun c hc => hwhitespace c (hbefore c hc))
      (fun c hc => isWhitespace_of_numeric (hcore c hc))
      (fun c hc => hwhitespace c (hafter c hc))]
  exact ⟨before, core, after, n, hchars, hread, List.forall_mem_append.mpr ⟨hbefore, hafter⟩,
    hcore, by rw [htrim]; exact parseF64_of_spelling hread⟩

/-- The analysis misses the numeric strings with a vertical tab, and no
others. -/
theorem isPhpNumericString_iff_phpNumber (content : String) : isPhpNumericString content = true ↔
    (phpNumber content.toList).isSome = true ∧ ∀ c ∈ content.toList, c.toNat ≠ 0x0B := by
  constructor
  · intro h
    obtain ⟨before, core, after, n, hchars, hread, hspace, hcore, -⟩ := isPhpNumericString_spec h
    have hphp : ∀ c ∈ before ++ after, isPhpSpace c = true :=
      fun c hc => isPhpSpace_iff.mpr (.inl (hspace c hc))
    refine ⟨by rw [hchars, phpNumber_of_spelling hread hphp]; rfl, ?_⟩
    intro c hc
    rw [hchars, List.append_assoc, List.mem_append, List.mem_append] at hc
    have hsides : c ∈ before ++ after ∨ c ∈ core := by
      rw [List.mem_append]
      tauto
    rcases hsides with hc | hc
    · have := isAsciiWhitespace_iff.mp (hspace c hc)
      omega
    · have := isNumericChar_toNat (hcore c hc)
      omega
  · rintro ⟨hnumber, htab⟩
    obtain ⟨m, hm⟩ := Option.isSome_iff_exists.mp hnumber
    obtain ⟨before, core, after, n, hchars, hread, -, hspace, hcore⟩ := phpNumber_eq_some hm
    have hascii : ∀ c ∈ before ++ after, isAsciiWhitespace c = true := by
      intro c hc
      have hmem : c ∈ content.toList := by
        rw [hchars, List.append_assoc, List.mem_append, List.mem_append]
        rw [List.mem_append] at hc
        tauto
      exact (isPhpSpace_iff.mp (hspace c hc)).resolve_right (htab c hmem)
    obtain ⟨hbefore, hafter⟩ := List.forall_mem_append.mp hascii
    have hnot : ∀ c ∈ core, isAsciiWhitespace c = false := by
      intro c hc
      have := isNumericChar_toNat (hcore c hc)
      rw [Bool.eq_false_iff, ne_eq, isAsciiWhitespace_iff]
      omega
    rw [isPhpNumericString_iff, hchars, stripBoth_eq hbefore hnot hafter]
    exact ⟨n, hread⟩

/-- The number of a spelling is the double it spells, up to the sign of zero. -/
theorem sameValue_number {core : List Char} {n : Spelling} (hread : readSpelling core = some n) :
    F64.SameValue n.toDouble n.number.toDouble := by
  obtain ⟨-, -, hfraction, -, hexponent, hinteger⟩ := readSpelling_eq_some hread
  unfold Spelling.number
  split
  · rename_i hint
    rw [hinteger, List.isEmpty_iff] at hint
    rw [hint] at hfraction hexponent
    have hzero : n.exponent = 0 := (Prod.mk.inj (Option.some.inj hexponent)).1.symm
    have hnone : n.fraction = [] := hfraction
    have hvalue : n.toDouble = F64.ofDecimal n.negative n.wholeValue 0 := by
      simp [Spelling.toDouble, Spelling.wholeValue, hnone, hzero]
    split
    · rename_i hrange
      rw [hvalue]
      refine F64.sameValue_ofDecimal ?_
      simp only [Spelling.signedWhole, i64Min, i64Max] at hrange
      split at hrange <;> omega
    · exact .inl rfl
  · exact .inl rfl

theorem toDouble_not_isNan (n : Spelling) :
    n.toDouble.isNan = false ∧ n.number.toDouble.isNan = false := by
  refine ⟨F64.ofDecimal_not_isNan _ _ _, ?_⟩
  unfold Spelling.number
  split
  · split
    · exact F64.ofInt_not_isNan _
    · exact F64.ofDecimal_not_isNan _ _ _
  · exact F64.ofDecimal_not_isNan _ _ _

/-! ## String literals -/

theorem stripQuotes_eq_some {quote : Char} {chars content : List Char}
    (h : stripQuotes quote chars = some content) : chars = quote :: content ++ [quote] := by
  cases chars with
  | nil => cases h
  | cons c rest =>
      rw [stripQuotes] at h
      split at h
      case isFalse => cases h
      rename_i hc
      split at h
      · rename_i d front hrest
        split at h
        case isFalse => cases h
        rename_i hd
        obtain rfl := Option.some.inj h
        have hback : rest = front.reverse ++ [d] := by
          rw [← List.reverse_reverse rest, hrest, List.reverse_cons]
        rw [hc, hback, hd, List.cons_append]
      · cases h

theorem literalContent_eq_some {raw : String} {doubleQuoted : Bool} {content : List Char}
    (h : literalContent raw = some (doubleQuoted, content)) :
    raw.toList = (if doubleQuoted then '"' else '\'') :: content ++
      [if doubleQuoted then '"' else '\''] := by
  rw [literalContent] at h
  split at h
  · rename_i hsingle
    obtain ⟨rfl, rfl⟩ := Prod.mk.inj (Option.some.inj h)
    exact stripQuotes_eq_some hsingle
  · obtain ⟨_, hdouble, hpair⟩ := Option.map_eq_some_iff.mp h
    obtain ⟨rfl, rfl⟩ := Prod.mk.inj hpair
    exact stripQuotes_eq_some hdouble

/-- The decoder reads every single-quoted literal. -/
theorem decodeContent_single (fuel : Nat) (content : List Char) :
    ∃ chars : List Char, decodeContent false fuel content = some (chars.flatMap charBytes) := by
  induction fuel generalizing content with
  | zero => exact ⟨[], rfl⟩
  | succ fuel ih =>
      cases content with
      | nil => exact ⟨[], rfl⟩
      | cons c rest =>
          by_cases hslash : c = '\\'
          · subst hslash
            cases rest with
            | nil => exact ⟨['\\'], rfl⟩
            | cons next rest =>
                obtain ⟨chars, hchars⟩ := ih rest
                have hescape : ∃ front : List Char,
                    singleQuotedEscape next rest = some (front.flatMap charBytes, rest) := by
                  unfold singleQuotedEscape
                  split
                  · exact ⟨['\\'], rfl⟩
                  · exact ⟨['\''], rfl⟩
                  · exact ⟨['\\', next], by simp [literalEscape]⟩
                obtain ⟨front, hfront⟩ := hescape
                exact ⟨front ++ chars, by simp [decodeContent, hfront, hchars]⟩
          · obtain ⟨chars, hchars⟩ := ih rest
            exact ⟨c :: chars, by simp [decodeContent, hslash, hchars]⟩

section Strings

variable {raw : String} {bytes : List UInt8}

theorem stringContent_of_some {s : String} (hs : decodePhpStringLiteral raw = some s) :
    (LiteralValue.string raw).stringContent = some s := by
  simp [LiteralValue.stringContent, hs]

/-- A literal that is not read is double-quoted and has a backslash. -/
theorem raw_of_none (hbytes : phpStringBytes raw = some bytes)
    (hs : decodePhpStringLiteral raw = none) :
    ∃ content, raw.toList = '"' :: content ++ ['"'] ∧ '\\' ∈ content := by
  obtain ⟨⟨doubleQuoted, content⟩, hcontent, -⟩ := Option.bind_eq_some_iff.mp hbytes
  have hslash : '\\' ∈ content := by
    by_contra hslash
    simp [decodePhpStringLiteral, hcontent, hslash] at hs
  have hraw := literalContent_eq_some hcontent
  cases doubleQuoted with
  | true => exact ⟨content, hraw, hslash⟩
  | false =>
      obtain ⟨chars, hchars⟩ := decodeContent_single content.length content
      simp [decodePhpStringLiteral, hcontent, hslash, hchars, stringFromUtf8_charBytes] at hs

/-- It stands for its spelling. -/
theorem stringContent_of_none {content : List Char} (hraw : raw.toList = '"' :: content ++ ['"'])
    (hs : decodePhpStringLiteral raw = none) :
    (LiteralValue.string raw).stringContent =
      some (if isWholeStringLiteral raw then String.ofList content else raw) := by
  simp only [LiteralValue.stringContent, hs, Option.getD_none, unquotePhpString]
  split
  · rw [Option.getD_some, hraw, List.cons_append, List.tail_cons, List.dropLast_concat]
  · rw [Option.getD_none]

/-- Two literals that are not read stand for the same text only where they are
spelled alike. -/
theorem raw_eq_of_stringContent {raw' : String} {bytes' : List UInt8}
    (hbytes : phpStringBytes raw = some bytes) (hs : decodePhpStringLiteral raw = none)
    (hbytes' : phpStringBytes raw' = some bytes') (hs' : decodePhpStringLiteral raw' = none)
    (heq : (LiteralValue.string raw).stringContent = (LiteralValue.string raw').stringContent) :
    raw = raw' := by
  obtain ⟨content, hraw, -⟩ := raw_of_none hbytes hs
  obtain ⟨content', hraw', -⟩ := raw_of_none hbytes' hs'
  rw [stringContent_of_none hraw hs, stringContent_of_none hraw' hs', Option.some.injEq] at heq
  -- a whole literal does not begin with a quote of its own
  have hwhole : ∀ {s t : String} {c d : List Char}, s.toList = '"' :: c ++ ['"'] →
      t.toList = '"' :: d ++ ['"'] → isWholeStringLiteral s = true → String.ofList c ≠ t := by
    intro s t c d hs ht hwhole hct
    have hc : c = '"' :: d ++ ['"'] := by rw [← ht, ← hct, String.toList_ofList]
    subst hc
    have hskip : skipStringForward '"' ('"' :: (d ++ ['"', '"'])) = 1 := by
      cases d <;> simp [skipStringForward]
    simp [isWholeStringLiteral, hs, hskip] at hwhole
  split at heq
  · rename_i h
    split at heq
    · have hcontent : content = content' := by
        simpa using congrArg String.toList heq
      exact String.toList_inj.mp (by rw [hraw, hraw', hcontent])
    · exact absurd heq (hwhole hraw hraw' h)
  · split at heq
    · rename_i h
      exact absurd heq.symm (hwhole hraw' hraw h)
    · exact heq

theorem stringContent_unread (hbytes : phpStringBytes raw = some bytes)
    (hs : decodePhpStringLiteral raw = none) :
    ∃ s, (LiteralValue.string raw).stringContent = some s ∧ '\\' ∈ s.toList := by
  obtain ⟨content, hraw, hslash⟩ := raw_of_none hbytes hs
  refine ⟨_, stringContent_of_none hraw hs, ?_⟩
  split
  · rwa [String.toList_ofList]
  · rw [hraw]
    simp [hslash]

/-- The string literals the analysis takes for numbers. -/
theorem isNumericString_iff (hbytes : phpStringBytes raw = some bytes) :
    (LiteralValue.string raw).isNumericString = true ↔
      (phpNumber (byteChars bytes)).isSome = true ∧ 0x0B ∉ bytes := by
  cases hs : decodePhpStringLiteral raw with
  | some s =>
      have hutf8 := phpStringBytes_of_some hbytes hs
      rw [LiteralValue.isNumericString, stringContent_of_some hs, Option.any_some,
        isPhpNumericString_iff_phpNumber, hutf8, phpNumber_byteChars]
      refine and_congr_right fun hnumber => ?_
      obtain ⟨m, hm⟩ := Option.isSome_iff_exists.mp hnumber
      have hchars := byteChars_flatMap (phpNumber_ascii hm)
      constructor
      · intro h hmem
        obtain ⟨c, hc, hval⟩ : ∃ c ∈ s.toList, c.toNat = (0x0B : UInt8).toNat := by
          rw [← hchars]
          exact ⟨Char.ofNat (0x0B : UInt8).toNat, List.mem_map_of_mem hmem, toNat_ofNat_byte _⟩
        exact h c hc hval
      · intro h c hc hval
        rw [← hchars, byteChars_mem] at hc
        obtain ⟨b, hb, hbval⟩ := hc
        have hbyte : b = 0x0B := UInt8.toNat_inj.mp (hbval.symm.trans hval)
        exact h (hbyte ▸ hb)
  | none =>
      obtain ⟨s, hcontent, hslash⟩ := stringContent_unread hbytes hs
      have hphp := phpNumber_of_notUtf8 (phpStringBytes_of_none hbytes hs)
      rw [LiteralValue.isNumericString, hcontent, Option.any_some, hphp]
      refine ⟨fun h => ?_, fun h => absurd h.1 (by simp)⟩
      obtain ⟨m, hm⟩ := Option.isSome_iff_exists.mp ((isPhpNumericString_iff_phpNumber s).mp h).1
      obtain ⟨before, core, after, -, hchars, -, -, hspace, hcore⟩ := phpNumber_eq_some hm
      rw [hchars, List.append_assoc, List.mem_append, List.mem_append] at hslash
      have hnotSpace : isPhpSpace '\\' = false := by decide
      have hnotNumeric : isNumericChar '\\' = false := by decide
      simp only [List.mem_append] at hspace
      rcases hslash with h | h | h
      · simp [hspace _ (.inl h)] at hnotSpace
      · simp [hcore _ h] at hnotNumeric
      · simp [hspace _ (.inr h)] at hnotSpace

/-- The double such a literal is compared by. -/
theorem numeric_string (hbytes : phpStringBytes raw = some bytes)
    (hnumeric : (LiteralValue.string raw).isNumericString = true) :
    ∃ x m, (LiteralValue.string raw).numeric = some x ∧ phpNumber (byteChars bytes) = some m ∧
      F64.SameValue x m.toDouble ∧ x.isNan = false ∧ m.toDouble.isNan = false := by
  cases hs : decodePhpStringLiteral raw with
  | some s =>
      have hcontent := stringContent_of_some hs
      have hphp : isPhpNumericString s = true := by
        simpa [LiteralValue.isNumericString, hcontent] using hnumeric
      obtain ⟨before, core, after, n, hchars, hread, hspace, -, hparse⟩ :=
        isPhpNumericString_spec hphp
      refine ⟨n.toDouble, n.number, by simp [LiteralValue.numeric, hcontent, hphp, hparse], ?_,
        sameValue_number hread, toDouble_not_isNan n⟩
      rw [phpStringBytes_of_some hbytes hs, phpNumber_byteChars, hchars]
      exact phpNumber_of_spelling hread fun c hc => isPhpSpace_iff.mpr (.inl (hspace c hc))
  | none =>
      have hphp := phpNumber_of_notUtf8 (phpStringBytes_of_none hbytes hs)
      have hsome := ((isNumericString_iff hbytes).mp hnumeric).1
      simp [hphp] at hsome

end Strings

end PhpantomLsp
