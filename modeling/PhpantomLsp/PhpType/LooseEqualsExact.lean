import PhpantomLsp.PhpType.LooseEquals

/-!
# Where loose equality of literals is PHP's

There are three ways for `loosely_equals` to differ from PHP's `==`, and no
other (`looselyEquals_php_iff`): the doubles of two numbers are the same where
PHP compares integers or strings, a number has a vertical tab beside it, and a
string that is not UTF-8 is compared by its spelling.
-/

namespace PhpantomLsp

open Text

/-! ## The differences -/

/-- Numbers PHP does not compare as doubles, given whether both are strings and
whether these are the same. -/
def PhpNumber.ToldApart (strings same : Prop) : PhpNumber → PhpNumber → Prop
  | long x, long y => x ≠ y
  | long _, double _ overflowed => strings ∧ overflowed = true
  | double _ overflowed, long _ => strings ∧ overflowed = true
  | double x o, double _ p => strings ∧ ¬ same ∧ (o = true ∧ p = true ∨ x.isInfinite = true)

namespace PhpValue

def IsString : PhpValue → Prop
  | int _ => False
  | string _ => True

/-- A vertical tab is whitespace to PHP only. -/
def HasVerticalTab : PhpValue → Prop
  | int _ => False
  | string bytes => 0x0B ∈ bytes

/-- Two numbers, one of them a string, that PHP tells apart and doubles do
not. -/
def RoundTogether (u v : PhpValue) : Prop :=
  (u.IsString ∨ v.IsString) ∧ ¬ u.HasVerticalTab ∧ ¬ v.HasVerticalTab ∧
    ∃ n m, u.number = some n ∧ v.number = some m ∧ n.toDouble.eq m.toDouble = true ∧
      n.ToldApart (u.IsString ∧ v.IsString) (u = v) m

/-- Two spellings of a number, one with a vertical tab. -/
def PaddedApart (u v : PhpValue) : Prop :=
  (u.HasVerticalTab ∨ v.HasVerticalTab) ∧ u ≠ v ∧
    ∃ n m, u.number = some n ∧ v.number = some m ∧
      (u.IsString ∧ v.IsString ∧ n.equalStrings false m = true ∨
        ¬ (u.IsString ∧ v.IsString) ∧ n.equal m = true)

end PhpValue

/-- A literal that is not read is spelled as the text of the other, or both are
not read and spell one string in two ways. -/
def Unread (a b : LiteralValue) : Prop :=
  ∃ raw raw', a = .string raw ∧ b = .string raw' ∧
    (decodePhpStringLiteral raw = none ∧ decodePhpStringLiteral raw' = none ∧
        phpStringBytes raw = phpStringBytes raw' ∧ raw ≠ raw' ∨
      decodePhpStringLiteral raw = none ∧ decodePhpStringLiteral raw' ≠ none ∧
        a.stringContent = b.stringContent ∨
      decodePhpStringLiteral raw ≠ none ∧ decodePhpStringLiteral raw' = none ∧
        a.stringContent = b.stringContent)

/-! ## Numbers -/

namespace PhpNumber

theorem eq_equal_iff (n m : PhpNumber) {strings same : Prop} (hstrings : ¬ strings) :
    n.toDouble.eq m.toDouble = n.equal m ↔
      ¬ (n.toDouble.eq m.toDouble = true ∧ n.ToldApart strings same m) := by
  cases n with
  | long x =>
      cases m with
      | long y =>
          simp only [toDouble, equal, ToldApart]
          by_cases hxy : x = y
          · subst hxy
            simp [F64.eq_self (F64.ofInt_not_isNan x)]
          · have hbeq : (x == y) = false := by simpa using hxy
            simp [hbeq, hxy]
      | double y o => simp [equal, ToldApart, hstrings]
  | double x o => cases m <;> simp [equal, ToldApart, hstrings]

theorem eq_equalStrings_iff (n m : PhpNumber) {same : Bool} {strings eq : Prop}
    (hstrings : strings) (heq : eq ↔ same = true) :
    n.toDouble.eq m.toDouble = n.equalStrings same m ↔
      ¬ (n.toDouble.eq m.toDouble = true ∧ n.ToldApart strings eq m) := by
  cases n with
  | long x =>
      cases m with
      | long y =>
          simp only [toDouble, equalStrings, ToldApart]
          by_cases hxy : x = y
          · subst hxy
            simp [F64.eq_self (F64.ofInt_not_isNan x)]
          · have hbeq : (x == y) = false := by simpa using hxy
            simp [hbeq, hxy]
      | double y o => cases o <;> simp [toDouble, equalStrings, ToldApart, hstrings]
  | double x o =>
      cases m with
      | long y => cases o <;> simp [toDouble, equalStrings, ToldApart, hstrings]
      | double y p =>
          simp only [toDouble, equalStrings, ToldApart, hstrings, heq, true_and]
          cases x.eq y <;> cases o <;> cases p <;> cases x.isInfinite <;> cases same <;> simp

/-- A number is equal to itself. -/
theorem equalStrings_self {n : PhpNumber} (h : n.toDouble.isNan = false) :
    n.equalStrings true n = true := by
  cases n with
  | long x => simp [equalStrings]
  | double x o => simp [equalStrings, F64.eq_self (x := x) h]

end PhpNumber

theorem phpNumber_not_isNan {chars : List Char} {m : PhpNumber} (h : phpNumber chars = some m) :
    m.toDouble.isNan = false := by
  obtain ⟨-, -, -, n, -, -, rfl, -, -⟩ := phpNumber_eq_some h
  exact (toDouble_not_isNan n).2

/-! ## The answers -/

theorem looselyEquals_int {raw raw' : String} {x y : Int} (hx : parsePhpIntLiteral raw = some x)
    (hy : parsePhpIntLiteral raw' = some y) :
    (LiteralValue.int raw).looselyEquals (.int raw') = some (x == y) := by
  simp [LiteralValue.looselyEquals, LiteralValue.isInt, LiteralValue.parseInt, compareBoth, hx, hy]

theorem looselyEquals_int_string {raw raw' : String} {x : Int} {bytes : List UInt8}
    (hx : parsePhpIntLiteral raw = some x) (hbytes : phpStringBytes raw' = some bytes) :
    (LiteralValue.int raw).looselyEquals (.string raw') =
      some (if (LiteralValue.string raw').isNumericString then
        (phpNumber (byteChars bytes)).any fun m => (F64.ofInt x).eq m.toDouble else false) := by
  by_cases hnumeric : (LiteralValue.string raw').isNumericString = true
  · obtain ⟨y, m, hy, hm, hsame, hyn, hmn⟩ := numeric_string hbytes hnumeric
    have hx' : (LiteralValue.int raw).numeric = some (F64.ofInt x) := by
      simp [LiteralValue.numeric, hx]
    have heq := F64.eq_congr (.inl rfl) hsame (F64.ofInt_not_isNan x) (F64.ofInt_not_isNan x) hyn hmn
    simp [LiteralValue.looselyEquals, LiteralValue.isInt, LiteralValue.isString, hnumeric,
      compareBoth, hx', hy, hm, heq]
  · simp [LiteralValue.looselyEquals, LiteralValue.isInt, LiteralValue.isString, hnumeric]

theorem looselyEquals_strings {raw raw' : String} {bytes bytes' : List UInt8}
    (hbytes : phpStringBytes raw = some bytes) (hbytes' : phpStringBytes raw' = some bytes')
    (hnumeric : (LiteralValue.string raw).isNumericString = true)
    (hnumeric' : (LiteralValue.string raw').isNumericString = true) {n m : PhpNumber}
    (hn : phpNumber (byteChars bytes) = some n) (hm : phpNumber (byteChars bytes') = some m) :
    (LiteralValue.string raw).looselyEquals (.string raw') =
      some (n.toDouble.eq m.toDouble) := by
  obtain ⟨x, n', hx, hn', hsame, hxn, hnn⟩ := numeric_string hbytes hnumeric
  obtain ⟨y, m', hy, hm', hsame', hyn, hmn⟩ := numeric_string hbytes' hnumeric'
  obtain rfl : n' = n := Option.some.inj (hn'.symm.trans hn)
  obtain rfl : m' = m := Option.some.inj (hm'.symm.trans hm)
  have heq := F64.eq_congr hsame hsame' hxn hnn hyn hmn
  simp [LiteralValue.looselyEquals, LiteralValue.isInt, LiteralValue.isString, hnumeric, hnumeric',
    compareBoth, hx, hy, heq]

theorem looselyEquals_texts {raw raw' s t : String}
    (hs : (LiteralValue.string raw).stringContent = some s)
    (ht : (LiteralValue.string raw').stringContent = some t)
    (hnumeric : ¬ ((LiteralValue.string raw).isNumericString = true ∧
      (LiteralValue.string raw').isNumericString = true)) :
    (LiteralValue.string raw).looselyEquals (.string raw') = some (s == t) := by
  have hguard : (!(LiteralValue.string raw).isNumericString ||
      !(LiteralValue.string raw').isNumericString) = true := by
    rw [Bool.or_eq_true, Bool.not_eq_true', Bool.not_eq_true']
    by_contra h
    simp only [not_or, Bool.not_eq_false] at h
    exact hnumeric h
  rw [LiteralValue.looselyEquals]
  simp only [LiteralValue.isInt, LiteralValue.isString, hguard, Bool.false_and, Bool.true_and,
    Bool.false_eq_true, if_false, if_true, compareBoth, hs, ht, Option.bind_some, Option.map_some]

/-! ## Against PHP -/

namespace PhpValue

variable {u v : PhpValue} {n m : PhpNumber}

theorem roundTogether_iff (hsome : u.IsString ∨ v.IsString) (hu : ¬ u.HasVerticalTab)
    (hv : ¬ v.HasVerticalTab) (hn : u.number = some n) (hm : v.number = some m) :
    u.RoundTogether v ↔ n.toDouble.eq m.toDouble = true ∧
      n.ToldApart (u.IsString ∧ v.IsString) (u = v) m := by
  constructor
  · rintro ⟨-, -, -, n', m', hn', hm', h⟩
    obtain rfl : n' = n := Option.some.inj (hn'.symm.trans hn)
    obtain rfl : m' = m := Option.some.inj (hm'.symm.trans hm)
    exact h
  · exact fun h => ⟨hsome, hu, hv, n, m, hn, hm, h⟩

theorem paddedApart_iff (hvt : u.HasVerticalTab ∨ v.HasVerticalTab) (hne : u ≠ v)
    (hn : u.number = some n) (hm : v.number = some m) :
    u.PaddedApart v ↔ u.IsString ∧ v.IsString ∧ n.equalStrings false m = true ∨
      ¬ (u.IsString ∧ v.IsString) ∧ n.equal m = true := by
  constructor
  · rintro ⟨-, -, n', m', hn', hm', h⟩
    obtain rfl : n' = n := Option.some.inj (hn'.symm.trans hn)
    obtain rfl : m' = m := Option.some.inj (hm'.symm.trans hm)
    exact h
  · exact fun h => ⟨hvt, hne, n, m, hn, hm, h⟩

theorem not_differ_of_none (h : u.number = none ∨ v.number = none) :
    ¬ (u.RoundTogether v ∨ u.PaddedApart v) := by
  rintro (⟨-, -, -, n, m, hn, hm, -⟩ | ⟨-, -, n, m, hn, hm, -⟩) <;>
    rcases h with h | h <;> simp_all

end PhpValue

/-- Where one of two values is an integer, the answers differ as the numbers
do. -/
theorem mixed_iff {u v : PhpValue} {r : Bool} (hsome : u.IsString ∨ v.IsString)
    (hboth : ¬ (u.IsString ∧ v.IsString))
    (hphp : ∀ n m, u.number = some n → v.number = some m → u.looselyEqual v = n.equal m)
    (hnone : u.number = none ∨ v.number = none → u.looselyEqual v = false ∧ r = false)
    (htab : u.HasVerticalTab ∨ v.HasVerticalTab → r = false)
    (hr : ¬ u.HasVerticalTab → ¬ v.HasVerticalTab → ∀ n m, u.number = some n →
      v.number = some m → r = n.toDouble.eq m.toDouble) :
    u.looselyEqual v = r ↔ ¬ (u.RoundTogether v ∨ u.PaddedApart v) := by
  have hne : u ≠ v := by
    rintro rfl
    exact hboth ⟨hsome.elim id id, hsome.elim id id⟩
  by_cases hnumbers : u.number = none ∨ v.number = none
  · obtain ⟨hu, hr⟩ := hnone hnumbers
    simp [hu, hr, PhpValue.not_differ_of_none hnumbers]
  · obtain ⟨hn, hm⟩ := not_or.mp hnumbers
    obtain ⟨n, hn⟩ := Option.ne_none_iff_exists'.mp hn
    obtain ⟨m, hm⟩ := Option.ne_none_iff_exists'.mp hm
    rw [hphp n m hn hm]
    by_cases hvt : u.HasVerticalTab ∨ v.HasVerticalTab
    · have hround : ¬ u.RoundTogether v := fun h => hvt.elim h.2.1 h.2.2.1
      rw [htab hvt, or_iff_right hround, PhpValue.paddedApart_iff hvt hne hn hm, ← and_assoc]
      simp [hboth]
    · have hpadded : ¬ u.PaddedApart v := fun h => hvt h.1
      obtain ⟨hu, hv⟩ := not_or.mp hvt
      rw [hr hu hv n m hn hm, or_iff_left hpadded,
        PhpValue.roundTogether_iff hsome hu hv hn hm, eq_comm]
      exact PhpNumber.eq_equal_iff n m hboth

theorem not_unread_of_int {a b : LiteralValue} (h : a.isInt = true ∨ b.isInt = true) :
    ¬ Unread a b := by
  rintro ⟨raw, raw', rfl, rfl, -⟩
  simp [LiteralValue.isInt] at h

section Strings

variable {raw raw' : String} {bytes bytes' : List UInt8}

theorem unread_iff : Unread (.string raw) (.string raw') ↔
    (decodePhpStringLiteral raw = none ∧ decodePhpStringLiteral raw' = none ∧
        phpStringBytes raw = phpStringBytes raw' ∧ raw ≠ raw' ∨
      decodePhpStringLiteral raw = none ∧ decodePhpStringLiteral raw' ≠ none ∧
        (LiteralValue.string raw).stringContent = (LiteralValue.string raw').stringContent ∨
      decodePhpStringLiteral raw ≠ none ∧ decodePhpStringLiteral raw' = none ∧
        (LiteralValue.string raw).stringContent = (LiteralValue.string raw').stringContent) := by
  constructor
  · rintro ⟨_, _, hraw, hraw', h⟩
    cases hraw
    cases hraw'
    exact h
  · exact fun h => ⟨raw, raw', rfl, rfl, h⟩

theorem flatMap_charBytes_inj {s t : String}
    (h : s.toList.flatMap charBytes = t.toList.flatMap charBytes) : s = t := by
  have hs := stringFromUtf8_charBytes s.toList
  rw [h, stringFromUtf8_charBytes, String.ofList_toList, String.ofList_toList] at hs
  exact (Option.some.inj hs).symm

/-- Two strings are compared as their bytes are, unless one is not read. -/
theorem texts_iff (hbytes : phpStringBytes raw = some bytes)
    (hbytes' : phpStringBytes raw' = some bytes') {s t : String}
    (hs : (LiteralValue.string raw).stringContent = some s)
    (ht : (LiteralValue.string raw').stringContent = some t) :
    (bytes = bytes' ↔ s = t) ↔ ¬ Unread (.string raw) (.string raw') := by
  rw [unread_iff, hs, ht]
  cases hread : decodePhpStringLiteral raw with
  | some s' =>
      obtain rfl : s' = s := Option.some.inj ((stringContent_of_some hread).symm.trans hs)
      have hutf8 := phpStringBytes_of_some hbytes hread
      cases hread' : decodePhpStringLiteral raw' with
      | some t' =>
          obtain rfl : t' = t := Option.some.inj ((stringContent_of_some hread').symm.trans ht)
          have hutf8' := phpStringBytes_of_some hbytes' hread'
          have heq : bytes = bytes' ↔ s' = t' := by
            rw [hutf8, hutf8']
            exact ⟨flatMap_charBytes_inj, fun h => by rw [h]⟩
          simp [heq]
      | none =>
          have hne : bytes ≠ bytes' := by
            intro h
            exact phpStringBytes_of_none hbytes' hread' s'.toList (h.symm.trans hutf8)
          simp [hne]
  | none =>
      have hnot := phpStringBytes_of_none hbytes hread
      cases hread' : decodePhpStringLiteral raw' with
      | some t' =>
          have hutf8' := phpStringBytes_of_some hbytes' hread'
          have hne : bytes ≠ bytes' := fun h => hnot t'.toList (h.trans hutf8')
          simp [hne]
      | none =>
          have hraw : s = t ↔ raw = raw' := by
            constructor
            · intro h
              refine raw_eq_of_stringContent hbytes hread hbytes' hread' ?_
              rw [hs, ht, h]
            · rintro rfl
              exact Option.some.inj (hs.symm.trans ht)
          have hforth : raw = raw' → bytes = bytes' := by
            rintro rfl
            exact Option.some.inj (hbytes.symm.trans hbytes')
          rw [hraw, hbytes, hbytes']
          simp only [Option.some.injEq, true_and, ne_eq, not_true_eq_false, false_and, or_false]
          tauto

theorem stringContent_isSome (raw : String) :
    ∃ s, (LiteralValue.string raw).stringContent = some s :=
  ⟨_, rfl⟩

theorem looselyEquals_isSome (hbytes : phpStringBytes raw = some bytes)
    (hbytes' : phpStringBytes raw' = some bytes') :
    ∃ r, (LiteralValue.string raw).looselyEquals (.string raw') = some r := by
  by_cases hnumeric : (LiteralValue.string raw).isNumericString = true ∧
      (LiteralValue.string raw').isNumericString = true
  · obtain ⟨-, n, -, hn, -⟩ := numeric_string hbytes hnumeric.1
    obtain ⟨-, m, -, hm, -⟩ := numeric_string hbytes' hnumeric.2
    exact ⟨_, looselyEquals_strings hbytes hbytes' hnumeric.1 hnumeric.2 hn hm⟩
  · obtain ⟨s, hs⟩ := stringContent_isSome raw
    obtain ⟨t, ht⟩ := stringContent_isSome raw'
    exact ⟨_, looselyEquals_texts hs ht hnumeric⟩

/-- Two strings. -/
theorem strings_iff (hbytes : phpStringBytes raw = some bytes)
    (hbytes' : phpStringBytes raw' = some bytes') {r : Bool}
    (hr : (LiteralValue.string raw).looselyEquals (.string raw') = some r) :
    (PhpValue.string bytes).looselyEqual (.string bytes') = r ↔
      ¬ ((PhpValue.string bytes).RoundTogether (.string bytes') ∨
        (PhpValue.string bytes).PaddedApart (.string bytes') ∨
        Unread (.string raw) (.string raw')) := by
  have hsome : (PhpValue.string bytes).IsString ∨ (PhpValue.string bytes').IsString := .inl trivial
  have hboth : (PhpValue.string bytes).IsString ∧ (PhpValue.string bytes').IsString :=
    ⟨trivial, trivial⟩
  obtain ⟨s, hs⟩ := stringContent_isSome raw
  obtain ⟨t, ht⟩ := stringContent_isSome raw'
  have htexts := texts_iff hbytes hbytes' hs ht
  have hread : ∀ {raw : String} {bytes : List UInt8} {n : PhpNumber},
      phpStringBytes raw = some bytes → phpNumber (byteChars bytes) = some n →
      decodePhpStringLiteral raw ≠ none := by
    intro raw bytes n hbytes hn hnone
    simp [phpNumber_of_notUtf8 (phpStringBytes_of_none hbytes hnone)] at hn
  by_cases hnumbers : (PhpValue.string bytes).number = none ∨ (PhpValue.string bytes').number = none
  · -- one of the two is no number
    have hnone : ¬ ((LiteralValue.string raw).isNumericString = true ∧
        (LiteralValue.string raw').isNumericString = true) := by
      rw [isNumericString_iff hbytes, isNumericString_iff hbytes']
      rintro ⟨⟨hn, -⟩, hm, -⟩
      rcases hnumbers with h | h <;> simp [PhpValue.number] at h <;> simp [h] at hn hm
    have hphp : (PhpValue.string bytes).looselyEqual (.string bytes') = (bytes == bytes') := by
      simp only [PhpValue.looselyEqual]
      simp only [PhpValue.number] at hnumbers
      rcases hnumbers with h | h
      · simp [h]
      · cases phpNumber (byteChars bytes) <;> simp [h]
    rw [looselyEquals_texts hs ht hnone, Option.some.injEq] at hr
    rw [hphp, ← hr, Bool.eq_iff_iff, beq_iff_eq, beq_iff_eq, htexts, ← or_assoc,
      or_iff_right (PhpValue.not_differ_of_none hnumbers)]
  · obtain ⟨hn, hm⟩ := not_or.mp hnumbers
    obtain ⟨n, hn⟩ := Option.ne_none_iff_exists'.mp hn
    obtain ⟨m, hm⟩ := Option.ne_none_iff_exists'.mp hm
    have hn' : phpNumber (byteChars bytes) = some n := hn
    have hm' : phpNumber (byteChars bytes') = some m := hm
    have hunread : ¬ Unread (.string raw) (.string raw') := by
      rw [unread_iff]
      simp [hread hbytes hn', hread hbytes' hm']
    have hphp : (PhpValue.string bytes).looselyEqual (.string bytes') =
        n.equalStrings (bytes == bytes') m := by
      simp [PhpValue.looselyEqual, hn', hm']
    rw [hphp, or_iff_left hunread]
    by_cases hvt : (PhpValue.string bytes).HasVerticalTab ∨ (PhpValue.string bytes').HasVerticalTab
    · -- the texts are compared, though both are numbers
      have hround : ¬ (PhpValue.string bytes).RoundTogether (.string bytes') :=
        fun h => hvt.elim h.2.1 h.2.2.1
      have hnone : ¬ ((LiteralValue.string raw).isNumericString = true ∧
          (LiteralValue.string raw').isNumericString = true) := by
        rw [isNumericString_iff hbytes, isNumericString_iff hbytes']
        rintro ⟨⟨-, hu⟩, -, hv⟩
        exact hvt.elim hu hv
      rw [looselyEquals_texts hs ht hnone, Option.some.injEq] at hr
      have heq : bytes = bytes' ↔ s = t := htexts.mpr hunread
      rw [or_iff_right hround]
      by_cases hsame : bytes = bytes'
      · have hst : r = true := by rw [← hr, beq_iff_eq, ← heq, hsame]
        have hpadded : ¬ (PhpValue.string bytes).PaddedApart (.string bytes') :=
          fun h => h.2.1 (congrArg PhpValue.string hsame)
        subst hsame
        obtain rfl : n = m := Option.some.inj (hn'.symm.trans hm')
        simp [hst, hpadded, PhpNumber.equalStrings_self (phpNumber_not_isNan hn')]
      · have hst : r = false := by
          rw [← hr, beq_eq_false_iff_ne]
          exact fun h => hsame (heq.mpr h)
        have hne : PhpValue.string bytes ≠ .string bytes' := fun h => hsame (PhpValue.string.inj h)
        have hbeq : (bytes == bytes') = false := beq_eq_false_iff_ne.mpr hsame
        rw [PhpValue.paddedApart_iff hvt hne hn hm, hst, hbeq]
        simp [PhpValue.IsString]
    · have hpadded : ¬ (PhpValue.string bytes).PaddedApart (.string bytes') := fun h => hvt h.1
      obtain ⟨hu, hv⟩ := not_or.mp hvt
      have hnumeric := (isNumericString_iff hbytes).mpr ⟨by simp [hn'], hu⟩
      have hnumeric' := (isNumericString_iff hbytes').mpr ⟨by simp [hm'], hv⟩
      rw [looselyEquals_strings hbytes hbytes' hnumeric hnumeric' hn' hm', Option.some.injEq] at hr
      have hsame : PhpValue.string bytes = .string bytes' ↔ (bytes == bytes') = true := by simp
      rw [or_iff_left hpadded, PhpValue.roundTogether_iff hsome hu hv hn hm, ← hr, eq_comm]
      exact PhpNumber.eq_equalStrings_iff n m hboth hsame

end Strings

/-- An integer and a string, in either order. -/
theorem int_string_iff {x : Int} {bytes : List UInt8} {raw : String} {u v : PhpValue}
    (hbytes : phpStringBytes raw = some bytes)
    (huv : u = .int x ∧ v = .string bytes ∨ u = .string bytes ∧ v = .int x) :
    u.looselyEqual v = (if (LiteralValue.string raw).isNumericString then
        (phpNumber (byteChars bytes)).any fun m => (F64.ofInt x).eq m.toDouble else false) ↔
      ¬ (u.RoundTogether v ∨ u.PaddedApart v) := by
  have hnumeric := isNumericString_iff hbytes
  rcases huv with ⟨rfl, rfl⟩ | ⟨rfl, rfl⟩
  · refine mixed_iff (.inr trivial) (fun h => h.1) ?_ ?_ ?_ ?_
    · intro n m hn hm
      simp [PhpValue.looselyEqual, hn, hm]
    · rintro (h | h)
      · cases h
      · have hm : phpNumber (byteChars bytes) = none := h
        simp [PhpValue.looselyEqual, PhpValue.number, hm]
    · rintro (h | h)
      · exact h.elim
      · rw [if_neg]
        exact fun hnum => (hnumeric.mp hnum).2 h
    · intro _ htab n m hn hm
      have hm' : phpNumber (byteChars bytes) = some m := hm
      obtain rfl : PhpNumber.long x = n := Option.some.inj hn
      rw [if_pos (hnumeric.mpr ⟨by simp [hm'], htab⟩), hm', Option.any_some, PhpNumber.toDouble]
  · refine mixed_iff (.inl trivial) (fun h => h.2) ?_ ?_ ?_ ?_
    · intro n m hn hm
      simp [PhpValue.looselyEqual, hn, hm]
    · rintro (h | h)
      · have hm : phpNumber (byteChars bytes) = none := h
        simp [PhpValue.looselyEqual, PhpValue.number, hm]
      · cases h
    · rintro (h | h)
      · rw [if_neg]
        exact fun hnum => (hnumeric.mp hnum).2 h
      · exact h.elim
    · intro htab _ n m hn hm
      have hn' : phpNumber (byteChars bytes) = some n := hn
      obtain rfl : PhpNumber.long x = m := Option.some.inj hm
      rw [if_pos (hnumeric.mpr ⟨by simp [hn'], htab⟩), hn', Option.any_some, F64.eq_comm,
        PhpNumber.toDouble]

/-! ## The exact condition -/

/-- An answer for `a` and `b`, which have these values, is that of PHP's `==`, and
the answer for `b` and `a`. -/
def ComparesAsPhp (a b : LiteralValue) (u v : PhpValue) : Prop :=
  ∀ r, a.looselyEquals b = some r → u.looselyEqual v = r ∧ b.looselyEquals a = some r

theorem phpValue_int {raw : String} {w : PhpValue} (h : phpValue (.int raw) = some w) :
    ∃ z, w = .int z ∧ parsePhpIntLiteral raw = some z := by
  obtain ⟨z, hz, rfl⟩ := Option.map_eq_some_iff.mp h
  obtain ⟨z', hspelled, hfits⟩ := Option.bind_eq_some_iff.mp hz
  obtain rfl := (checkI64_eq_some hfits).1
  exact ⟨z, rfl, parsePhpIntLiteral_of_phpInteger hspelled hfits⟩

theorem phpValue_string {raw : String} {w : PhpValue} (h : phpValue (.string raw) = some w) :
    ∃ bytes, w = .string bytes ∧ phpStringBytes raw = some bytes := by
  obtain ⟨bytes, hbytes, rfl⟩ := Option.map_eq_some_iff.mp h
  exact ⟨bytes, rfl, hbytes⟩

/-- One answer decides: the other order gives the same. -/
theorem comparesAsPhp_iff {a b : LiteralValue} {u v : PhpValue} {r : Bool}
    (hr : a.looselyEquals b = some r) : ComparesAsPhp a b u v ↔ u.looselyEqual v = r := by
  constructor
  · exact fun h => (h r hr).1
  · intro hphp r' hr'
    obtain rfl : r = r' := Option.some.inj (hr.symm.trans hr')
    exact ⟨hphp, by rw [LiteralValue.looselyEquals_comm, hr]⟩

/-- The answer is PHP's, and the same the other way round, except where doubles
cannot tell the two apart, a vertical tab stands beside a number, or a literal
is not read. -/
theorem looselyEquals_php_iff {a b : LiteralValue} {u v : PhpValue} (ha : phpValue a = some u)
    (hb : phpValue b = some v) :
    ComparesAsPhp a b u v ↔ ¬ (u.RoundTogether v ∨ u.PaddedApart v ∨ Unread a b) := by
  cases a with
  | float raw => cases ha
  | int raw =>
      obtain ⟨x, rfl, hx⟩ := phpValue_int ha
      have hunread : ¬ Unread (.int raw) b := not_unread_of_int (.inl rfl)
      rw [← or_assoc, or_iff_left hunread]
      cases b with
      | float raw' => cases hb
      | int raw' =>
          obtain ⟨y, rfl, hy⟩ := phpValue_int hb
          have hround : ¬ (PhpValue.int x).RoundTogether (.int y) := fun h => h.1.elim id id
          have hpadded : ¬ (PhpValue.int x).PaddedApart (.int y) := fun h => h.1.elim id id
          rw [comparesAsPhp_iff (looselyEquals_int hx hy)]
          simp [hround, hpadded, PhpValue.looselyEqual, PhpValue.number, PhpNumber.equal]
      | string raw' =>
          obtain ⟨bytes, rfl, hbytes⟩ := phpValue_string hb
          rw [comparesAsPhp_iff (looselyEquals_int_string hx hbytes)]
          exact int_string_iff hbytes (.inl ⟨rfl, rfl⟩)
  | string raw =>
      obtain ⟨bytes, rfl, hbytes⟩ := phpValue_string ha
      cases b with
      | float raw' => cases hb
      | int raw' =>
          obtain ⟨y, rfl, hy⟩ := phpValue_int hb
          have hunread : ¬ Unread (.string raw) (.int raw') := not_unread_of_int (.inr rfl)
          have hanswer := looselyEquals_int_string hy hbytes
          rw [LiteralValue.looselyEquals_comm] at hanswer
          rw [← or_assoc, or_iff_left hunread, comparesAsPhp_iff hanswer]
          exact int_string_iff hbytes (.inr ⟨rfl, rfl⟩)
      | string raw' =>
          obtain ⟨bytes', rfl, hbytes'⟩ := phpValue_string hb
          obtain ⟨r, hr⟩ := looselyEquals_isSome hbytes hbytes'
          rw [comparesAsPhp_iff hr]
          exact strings_iff hbytes hbytes' hr

/-- `'1e3' == '1000'` -/
theorem looselyEquals_php_thousand :
    ComparesAsPhp (.string "'1e3'") (.string "'1000'") (.string [0x31, 0x65, 0x33])
      (.string [0x31, 0x30, 0x30, 0x30]) := by
  refine (looselyEquals_php_iff (by decide +kernel) (by decide +kernel)).mpr ?_
  have hexponent : ∃ x, phpNumber (byteChars [0x31, 0x65, 0x33]) = some (.double x false) :=
    ⟨_, rfl⟩
  have hinteger : phpNumber (byteChars [0x31, 0x30, 0x30, 0x30]) = some (.long 1000) := rfl
  obtain ⟨x, hx⟩ := hexponent
  rintro (⟨-, -, -, n, m, hn, hm, -, htold⟩ | ⟨htab, -⟩ | hunread)
  · obtain rfl : PhpNumber.double x false = n := Option.some.inj (hx.symm.trans hn)
    obtain rfl : PhpNumber.long 1000 = m := Option.some.inj (hinteger.symm.trans hm)
    cases htold.2
  · revert htab
    simp [PhpValue.HasVerticalTab]
  · rw [unread_iff] at hunread
    revert hunread
    decide +kernel

/-- `'9007199254740993'` is taken for `'9007199254740992'`, as both are the same
double. -/
theorem looselyEquals_rounds :
    phpValue (.string "'9007199254740993'") =
        some (.string [57, 48, 48, 55, 49, 57, 57, 50, 53, 52, 55, 52, 48, 57, 57, 51]) ∧
      phpValue (.string "'9007199254740992'") =
        some (.string [57, 48, 48, 55, 49, 57, 57, 50, 53, 52, 55, 52, 48, 57, 57, 50]) ∧
      (LiteralValue.string "'9007199254740993'").looselyEquals (.string "'9007199254740992'") =
        some true ∧
      (PhpValue.string [57, 48, 48, 55, 49, 57, 57, 50, 53, 52, 55, 52, 48, 57, 57, 51]).looselyEqual
        (.string [57, 48, 48, 55, 49, 57, 57, 50, 53, 52, 55, 52, 48, 57, 57, 50]) = false := by
  refine ⟨?_, ?_, ?_, ?_⟩ <;> decide +kernel

end PhpantomLsp
