import PhpantomLsp.Lib.IntervalMerge
import PhpantomLsp.PhpType.PhpComparison
import PhpantomLsp.PhpType.ScalarTransitivity

/-!
# Integer ranges in a union

`absorb_int_ranges` merges the integer ranges of a union with the literals,
ranges and `int` they overlap or touch.  What it merges is what
`parse_range_bound` reads, which takes a bound outside `i64` for `0`, while the
test of a literal against such a range admits nothing
(`int_literal_is_within_range`).  `keepsInts_iff` says for which unions the
pass keeps the integers; `absorbIntRanges_apart` and `absorbIntRanges_others`
hold of all.
-/

namespace PhpantomLsp

open Text Lib PhpType

namespace IntRanges

/-! ## The integers of a member -/

/-- The integers a named type admits, if it is one of integers. -/
def namedAdmits (name : Atom) (z : Int) : Bool :=
  match refinedIntToRange (asciiLower name) with
  | some (min, max) => intLiteralIsWithinRange z min max
  | none => asciiLower name == "non-zero-int" && z != 0

/-- Whether a literal, a range or an integer refinement admits an integer, by
the tests a literal is compared with them by. -/
def admitsInt (ty : PhpType) (z : Int) : Bool :=
  match ty.kind with
  | .literal value => value.parseInt == some z
  | .intRange min max => intLiteralIsWithinRange z min max
  | .named name => ty.isInt || namedAdmits name z
  | _ => false

/-- The integers of a union. -/
def unionAdmits (types : List PhpType) (z : Int) : Bool := types.any (admitsInt · z)

/-- The bounds of a range are numbers of `i64`, or the end of the integers
they stand at. -/
def Readable (ty : PhpType) : Prop :=
  match ty.kind with
  | .intRange min max => BoundsReadable min max
  | _ => True

instance (ty : PhpType) : Decidable (Readable ty) := by
  unfold Readable
  split <;> infer_instance

/-! ## Bounds as they are printed -/

theorem intToString_chars (z : Int) :
    ∀ c ∈ (intToString z).toList, isAsciiDigit c = true ∨ c = '-' := by
  intro c hc
  cases z with
  | ofNat n =>
      simp only [intToString, natToString, String.toList_ofList] at hc
      exact .inl (decimalDigits_isAsciiDigit n c hc)
  | negSucc n =>
      simp only [intToString, String.toList_ofList, List.mem_cons] at hc
      rcases hc with rfl | hc
      · exact .inr rfl
      · exact .inl (decimalDigits_isAsciiDigit _ c hc)

theorem trim_intToString (z : Int) : trim (intToString z) = intToString z := by
  apply trim_of_forall
  intro c hc
  rcases intToString_chars z c hc with hdigit | rfl
  · have hbounds := isAsciiDigit_iff.mp hdigit
    unfold isWhitespace
    simp only [Bool.or_eq_false_iff, Bool.and_eq_false_iff, decide_eq_false_iff_not]
    omega
  · decide

theorem toLower_of_isAsciiDigit {c : Char} (h : isAsciiDigit c = true) : c.toLower = c := by
  have hbounds := isAsciiDigit_iff.mp h
  have hlt : ¬ 65 ≤ c.val.toNat := by
    show ¬ 65 ≤ c.toNat
    omega
  delta Char.toLower
  rw [dif_neg]
  rintro ⟨hle, -⟩
  exact hlt hle

theorem asciiLower_intToString (z : Int) : asciiLower (intToString z) = intToString z := by
  have hlower : ∀ c ∈ (intToString z).toList, c.toLower = c := by
    intro c hc
    rcases intToString_chars z c hc with hdigit | rfl
    · exact toLower_of_isAsciiDigit hdigit
    · decide
  apply String.toList_inj.mp
  rw [toList_asciiLower, List.map_congr_left hlower, List.map_id']

theorem intToString_ne_keyword (z : Int) :
    intToString z ≠ "min" ∧ intToString z ≠ "max" := by
  constructor
  · intro h
    have hm := intToString_chars z 'm' (by rw [h]; decide)
    exact absurd hm (by decide)
  · intro h
    have hm := intToString_chars z 'm' (by rw [h]; decide)
    exact absurd hm (by decide)

/-- The printed digits of a magnitude are read in base ten. -/
theorem splitRadix_decimalDigits (n : Nat) :
    splitRadix (decimalDigits n) = (10, decimalDigits n) := by
  obtain ⟨c, rest, hdigits, -, hzero⟩ := decimalDigits_head n
  by_cases hc : c = '0'
  · rw [hzero hc]
    decide +kernel
  · rw [hdigits, splitRadix_decimal hc]

theorem parsePhpIntLiteral_intToString {z : Int} (hz : i64Min ≤ z ∧ z ≤ i64Max) :
    parsePhpIntLiteral (intToString z) = some z := by
  have hdigits (n : Nat) : (decimalDigits n).filter (· ≠ '_') = decimalDigits n := by
    apply List.filter_eq_self.mpr
    intro c hc
    have hdigit := decimalDigits_isAsciiDigit n c hc
    have hne : c ≠ '_' := by
      rintro rfl
      exact absurd hdigit (by decide)
    simpa using hne
  have hread (n : Nat) (negative : Bool) (hn : n ≤ u64Max)
      (hsplit : splitSign (intToString z).toList = (negative, decimalDigits n)) :
      parsePhpIntLiteral (intToString z) =
        checkI64 (if negative then -(n : Int) else n) := by
    obtain ⟨c, rest, hhead, hdigit, -⟩ := decimalDigits_head n
    have hvalue := digitsValue_decimalDigits n
    have halpha : isAsciiAlphanumeric c = true := by simp [isAsciiAlphanumeric, hdigit]
    have hplus := (not_sign_of_isAsciiDigit hdigit).2
    simp only [parsePhpIntLiteral, trim_intToString, hsplit, hdigits, splitRadix_decimalDigits]
    rw [hhead] at hvalue ⊢
    simp only [halpha, if_true, parseU64Radix_of_digits hplus hvalue hn, Option.bind_some]
  cases z with
  | ofNat n =>
      obtain ⟨c, rest, hhead, hdigit, -⟩ := decimalDigits_head n
      have hsplit : splitSign (intToString (.ofNat n)).toList = (false, decimalDigits n) := by
        simp only [intToString, natToString, String.toList_ofList, hhead]
        exact splitSign_of_isAsciiDigit hdigit
      have hle : (n : Int) ≤ i64Max := hz.2
      rw [hread n false (by simp only [i64Max, u64Max] at hle ⊢; omega) hsplit]
      exact checkI64_of_bounds hz.1 hz.2
  | negSucc n =>
      have hsplit : splitSign (intToString (.negSucc n)).toList = (true, decimalDigits (n + 1)) := by
        simp [intToString, splitSign]
      rw [hread (n + 1) true (by simp only [i64Min, u64Max] at hz ⊢; omega) hsplit]
      exact checkI64_of_bounds hz.1 hz.2

theorem parseRangeBound_intToString {z : Int} (hz : i64Min ≤ z ∧ z ≤ i64Max) :
    parseRangeBound (intToString z) = z := by
  apply parseRangeBound_of_parseI64
  rw [trim_intToString, asciiLower_intToString, parseI64_intToString hz.1 hz.2]

/-! ## What is read of a member -/

/-- A keyword in any casing has no space around it. -/
theorem trim_of_asciiLower {s keyword : String} (h : asciiLower s = keyword)
    (hkeyword : ∀ c ∈ keyword.toList, isWhitespace c = false) : trim s = s := by
  apply trim_of_forall
  intro c hc
  have hlower : isWhitespace c.toLower = false := by
    apply hkeyword
    rw [← h, toList_asciiLower]
    exact List.mem_map_of_mem hc
  by_contra hspace
  rw [Bool.not_eq_false] at hspace
  have hsame : c.toLower = c := by
    delta Char.toLower
    rw [dif_neg]
    rintro ⟨hlow, hhigh⟩
    have hlow' : 65 ≤ c.toNat := hlow
    have hhigh' : c.toNat ≤ 90 := hhigh
    simp only [isWhitespace, Bool.or_eq_true, Bool.and_eq_true, decide_eq_true_eq] at hspace
    omega
  rw [hsame, hspace] at hlower
  exact absurd hlower (by simp)

theorem parseRangeBound_min {s : String} (h : eqIgnoreAsciiCase s "min" = true) :
    parseRangeBound s = i64Min := by
  have hlower : asciiLower s = "min" := by
    rw [eqIgnoreAsciiCase_iff.mp h]
    decide
  unfold parseRangeBound
  rw [trim_of_asciiLower hlower (by simpa using by decide), hlower]
  rfl

theorem parseRangeBound_max {s : String} (h : eqIgnoreAsciiCase s "max" = true) :
    parseRangeBound s = i64Max := by
  have hlower : asciiLower s = "max" := by
    rw [eqIgnoreAsciiCase_iff.mp h]
    decide
  unfold parseRangeBound
  rw [trim_of_asciiLower hlower (by simpa using by decide), hlower]
  rfl

theorem contains_rangeInterval {min max : Atom} {z : Int} (hz : i64Min ≤ z ∧ z ≤ i64Max) :
    (rangeInterval min max).Contains z ↔ parseRangeBound min ≤ z ∧ z ≤ parseRangeBound max := by
  have hlow : eqIgnoreAsciiCase min "min" = true → parseRangeBound min ≤ z := by
    intro h
    rw [parseRangeBound_min h]
    exact hz.1
  have hhigh : eqIgnoreAsciiCase max "max" = true → z ≤ parseRangeBound max := by
    intro h
    rw [parseRangeBound_max h]
    exact hz.2
  unfold rangeInterval Interval.Contains
  by_cases hmin : eqIgnoreAsciiCase min "min" = true
  · by_cases hmax : eqIgnoreAsciiCase max "max" = true
    · simp [hmin, hmax, hlow hmin, hhigh hmax]
    · simp [hmin, hmax, hlow hmin]
  · by_cases hmax : eqIgnoreAsciiCase max "max" = true
    · simp [hmin, hmax, hhigh hmax]
    · simp [hmin, hmax]

/-- Where a range can be read, what is read is what it admits. -/
theorem admitsInt_iff {ty : PhpType} {i : Interval} (hi : intInterval ty = some i) {z : Int}
    (hz : i64Min ≤ z ∧ z ≤ i64Max) : admitsInt ty z = true ↔ Readable ty ∧ i.Contains z := by
  unfold intInterval at hi
  unfold admitsInt Readable
  split at hi
  · rename_i min max hkind
    obtain rfl := Option.some.inj hi
    rw [hkind]
    simp only
    rw [intLiteralIsWithinRange_iff hz, contains_rangeInterval hz]
  · rename_i value hkind
    obtain ⟨w, hw, rfl⟩ := Option.map_eq_some_iff.mp hi
    rw [hkind]
    simp only [hw, Interval.Contains, beq_iff_eq, Option.some.injEq, Option.mem_def, forall_eq',
      true_and]
    omega
  · rename_i name hkind
    rw [hkind]
    split at hi
    · rename_i hint
      obtain rfl := Option.some.inj hi
      simp [hint, Interval.Contains]
    · exact absurd hi (by simp)
  · exact absurd hi (by simp)

/-- The type of an interval is read as the interval. -/
theorem intInterval_intervalType {i : Interval} (hmin : ∀ lo ∈ i.min, i64Min ≤ lo ∧ lo ≤ i64Max)
    (hmax : ∀ hi ∈ i.max, i64Min ≤ hi ∧ hi ≤ i64Max) :
    intInterval (intervalType i) = some i ∧ Readable (intervalType i) := by
  have hrange (min max : Atom) : intInterval (.intRange min max) = some (rangeInterval min max) ∧
      (Readable (.intRange min max) ↔ BoundsReadable min max) := ⟨rfl, Iff.rfl⟩
  have hliteral (raw : String) : intInterval (literalInt raw) =
      (parsePhpIntLiteral raw).map fun z => ⟨some z, some z⟩ := rfl
  have hint : intInterval PhpType.int = some ⟨none, none⟩ := by
    have hisInt : PhpType.int.isInt = true := by
      unfold isInt
      rw [namedThroughNullable_eq]
      decide
    show (if PhpType.int.isInt then _ else _) = _
    rw [hisInt]
    rfl
  have hread {z : Int} (hz : i64Min ≤ z ∧ z ≤ i64Max) :
      eqIgnoreAsciiCase (intToString z) "min" = false ∧
        eqIgnoreAsciiCase (intToString z) "max" = false ∧
          (parseI64 (asciiLower (trim (intToString z)))).isSome = true := by
    have hne := intToString_ne_keyword z
    have hlower := asciiLower_intToString z
    refine ⟨?_, ?_, ?_⟩
    · rw [Bool.eq_false_iff, Ne, eqIgnoreAsciiCase_iff, hlower]
      exact hne.1
    · rw [Bool.eq_false_iff, Ne, eqIgnoreAsciiCase_iff, hlower]
      exact hne.2
    · rw [trim_intToString, hlower, parseI64_intToString hz.1 hz.2]
      rfl
  have hkeywords : eqIgnoreAsciiCase "min" "min" = true ∧ eqIgnoreAsciiCase "max" "max" = true ∧
      asciiLower (trim "min") = "min" ∧ asciiLower (trim "max") = "max" := by decide
  obtain ⟨min, max⟩ := i
  cases min with
  | none =>
      cases max with
      | none => exact ⟨hint, trivial⟩
      | some hi =>
          have hhi := hmax hi rfl
          rw [intervalType, (hrange _ _).1, (hrange _ _).2]
          refine ⟨?_, .inl hkeywords.2.2.1, .inr (hread hhi).2.2⟩
          simp [rangeInterval, hkeywords.1, (hread hhi).2.1, parseRangeBound_intToString hhi]
  | some lo =>
      have hlo := hmin lo rfl
      cases max with
      | none =>
          rw [intervalType, (hrange _ _).1, (hrange _ _).2]
          refine ⟨?_, .inr (hread hlo).2.2, .inl hkeywords.2.2.2⟩
          simp [rangeInterval, hkeywords.2.1, (hread hlo).1, parseRangeBound_intToString hlo]
      | some hi =>
          have hhi := hmax hi rfl
          by_cases heq : lo = hi
          · rw [intervalType, if_pos heq, ← heq]
            refine ⟨?_, trivial⟩
            rw [hliteral, parsePhpIntLiteral_intToString hlo]
            rfl
          · rw [intervalType, if_neg heq, (hrange _ _).1, (hrange _ _).2]
            refine ⟨?_, .inr (hread hlo).2.2, .inr (hread hhi).2.2⟩
            simp [rangeInterval, (hread hlo).1, (hread hhi).2.1, parseRangeBound_intToString hlo,
              parseRangeBound_intToString hhi]

/-- What is read of a member are bounds of `i64`. -/
theorem parseRangeBound_bounds (s : String) :
    i64Min ≤ parseRangeBound s ∧ parseRangeBound s ≤ i64Max := by
  unfold parseRangeBound
  dsimp only
  split
  · decide
  · split
    · decide
    · cases hparse : parseI64 (asciiLower (trim s)) with
      | none => decide
      | some m => exact parseI64_bounds hparse

theorem intInterval_bounds {ty : PhpType} {i : Interval} (h : intInterval ty = some i) :
    (∀ lo ∈ i.min, i64Min ≤ lo ∧ lo ≤ i64Max) ∧ ∀ hi ∈ i.max, i64Min ≤ hi ∧ hi ≤ i64Max := by
  unfold intInterval at h
  split at h
  · obtain rfl := Option.some.inj h
    have hread (s : String) (c : Bool) :
        ∀ v ∈ (if c = true then none else some (parseRangeBound s)), i64Min ≤ v ∧ v ≤ i64Max := by
      intro v hv
      split at hv
      · exact absurd hv (by simp)
      · obtain rfl := Option.some.inj hv
        exact parseRangeBound_bounds s
    exact ⟨hread _ _, hread _ _⟩
  · rename_i value hkind
    obtain ⟨w, hw, rfl⟩ := Option.map_eq_some_iff.mp h
    have hbounds : i64Min ≤ w ∧ w ≤ i64Max := by
      cases value with
      | int raw =>
          rw [LiteralValue.parseInt] at hw
          exact parsePhpIntLiteral_bounds hw
      | float raw => simp [LiteralValue.parseInt] at hw
      | string raw => simp [LiteralValue.parseInt] at hw
    exact ⟨by simpa using hbounds, by simpa using hbounds⟩
  · split at h
    · obtain rfl := Option.some.inj h
      exact ⟨by simp, by simp⟩
    · exact absurd h (by simp)
  · exact absurd h (by simp)

/-! ## The pass -/

/-- Whether the pass merges anything: the union has a range, and sorted by
their lower ends an integer member reaches the next one. -/
def Merges (types : List PhpType) : Prop :=
  2 ≤ types.length ∧ types.any isIntRange = true ∧ ¬ NoneTouch (types.filterMap intInterval)

instance (types : List PhpType) : Decidable (Merges types) := inferInstanceAs (Decidable (_ ∧ _))

/-- The members the pass leaves alone. -/
def others (types : List PhpType) : List PhpType := types.filter fun ty => (intInterval ty).isNone

theorem absorbIntRanges_of_not_merges {types : List PhpType} (h : ¬ Merges types) :
    absorbIntRanges types = types := by
  unfold absorbIntRanges
  split
  · rfl
  · rename_i hfew
    simp only [Bool.or_eq_true, decide_eq_true_eq, Bool.not_eq_true', not_or, Bool.not_eq_false,
      Nat.not_lt] at hfew
    have hnone : NoneTouch (types.filterMap intInterval) := by
      by_contra hnot
      exact h ⟨hfew.1, hfew.2, hnot⟩
    exact if_pos (length_mergeIntervals_iff.mpr hnone)

theorem absorbIntRanges_of_merges {types : List PhpType} (h : Merges types) :
    ∃ before after, others types = before ++ after ∧ absorbIntRanges types =
      before ++ (mergeIntervals (types.filterMap intInterval)).map intervalType ++ after := by
  obtain ⟨hlength, hrange, htouch⟩ := h
  refine ⟨(others types).take (types.findIdx fun ty => (intInterval ty).isSome),
    (others types).drop (types.findIdx fun ty => (intInterval ty).isSome),
    (List.take_append_drop _ _).symm, ?_⟩
  unfold absorbIntRanges
  rw [if_neg (by simp [hrange]; omega)]
  exact if_neg fun hsame => htouch (length_mergeIntervals_iff.mp hsame)

/-- A merged interval has a type that is read as it. -/
theorem read_merged {types : List PhpType} {i : Interval}
    (hi : i ∈ mergeIntervals (types.filterMap intInterval)) :
    intInterval (intervalType i) = some i ∧ Readable (intervalType i) := by
  obtain ⟨hmin, hmax⟩ := bounds_mergeIntervals hi
  apply intInterval_intervalType
  · intro lo hlo
    obtain ⟨j, hj, hlo⟩ := hmin lo hlo
    obtain ⟨ty, -, hty⟩ := List.mem_filterMap.mp hj
    exact (intInterval_bounds hty).1 lo hlo
  · intro hi hhi
    obtain ⟨j, hj, hhi⟩ := hmax hi hhi
    obtain ⟨ty, -, hty⟩ := List.mem_filterMap.mp hj
    exact (intInterval_bounds hty).2 hi hhi

theorem absorbIntRanges_others (types : List PhpType) :
    others (absorbIntRanges types) = others types := by
  by_cases h : Merges types
  · obtain ⟨before, after, hothers, habsorb⟩ := absorbIntRanges_of_merges h
    have hmerged : others ((mergeIntervals (types.filterMap intInterval)).map intervalType) = [] := by
      apply List.filter_eq_nil_iff.mpr
      intro ty hty
      obtain ⟨i, hi, rfl⟩ := List.mem_map.mp hty
      rw [(read_merged hi).1]
      simp
    have hkept : others (others types) = others types :=
      List.filter_eq_self.mpr fun ty hty => (List.mem_filter.mp hty).2
    rw [hothers] at hkept
    rw [habsorb, hothers]
    unfold others at hmerged hkept ⊢
    rw [List.filter_append, List.filter_append, hmerged, List.append_nil, ← List.filter_append,
      hkept]
  · rw [absorbIntRanges_of_not_merges h]

/-- Two members that are read as integers, one of them a range, hold none in
common and none next to one another. -/
def MembersApart (a b : PhpType) : Prop :=
  (isIntRange a || isIntRange b) = true → ∀ i ∈ intInterval a, ∀ j ∈ intInterval b, ∀ z w : Int,
    i64Min ≤ z ∧ z ≤ i64Max → i64Min ≤ w ∧ w ≤ i64Max →
      admitsInt a z = true → admitsInt b w = true → z + 1 < w ∨ w + 1 < z

theorem membersApart_of_apart {a b : PhpType}
    (h : ∀ i ∈ intInterval a, ∀ j ∈ intInterval b, i.Apart j ∨ j.Apart i) : MembersApart a b := by
  intro _ i hi j hj z w hz hw hadmits hadmits'
  have hin := ((admitsInt_iff hi hz).mp hadmits).2
  have hin' := ((admitsInt_iff hj hw).mp hadmits').2
  rcases h i hi j hj with hapart | hapart
  · exact .inl (Interval.lt_of_apart hapart hin hin')
  · exact .inr (Interval.lt_of_apart hapart hin' hin)

/-- What is read of the union after the pass. -/
theorem filterMap_absorbIntRanges {types : List PhpType} (h : Merges types) :
    (absorbIntRanges types).filterMap intInterval =
      mergeIntervals (types.filterMap intInterval) := by
  obtain ⟨before, after, hothers, habsorb⟩ := absorbIntRanges_of_merges h
  have hnone : ∀ ty ∈ before ++ after, intInterval ty = none := by
    intro ty hty
    rw [← hothers] at hty
    exact Option.isNone_iff_eq_none.mp (List.mem_filter.mp hty).2
  have hmerged : ((mergeIntervals (types.filterMap intInterval)).map intervalType).filterMap
      intInterval = mergeIntervals (types.filterMap intInterval) := by
    rw [List.filterMap_map]
    refine (List.filterMap_congr fun i hi => (read_merged hi).1).trans List.filterMap_some
  have hbefore : before.filterMap intInterval = [] :=
    List.filterMap_eq_nil_iff.mpr fun ty hty => hnone ty (by simp [hty])
  have hafter : after.filterMap intInterval = [] :=
    List.filterMap_eq_nil_iff.mpr fun ty hty => hnone ty (by simp [hty])
  rw [habsorb, List.filterMap_append, List.filterMap_append, hmerged, hbefore, hafter,
    List.nil_append, List.append_nil]

theorem absorbIntRanges_apart (types : List PhpType) :
    (absorbIntRanges types).Pairwise MembersApart := by
  by_cases h : Merges types
  · have hread := @apart_mergeIntervals (types.filterMap intInterval)
    rw [← filterMap_absorbIntRanges h, List.pairwise_filterMap] at hread
    exact hread.imp fun happart => membersApart_of_apart fun i hi j hj => .inl (happart i hi j hj)
  · rw [absorbIntRanges_of_not_merges h]
    by_cases hrange : types.any isIntRange = true
    · by_cases hlength : 2 ≤ types.length
      · have hnone : NoneTouch (types.filterMap intInterval) := by
          by_contra hnot
          exact h ⟨hlength, hrange, hnot⟩
        have hread := apart_of_noneTouch hnone
        rw [List.pairwise_filterMap] at hread
        exact hread.imp membersApart_of_apart
      · match types, hlength with
        | [], _ => exact List.Pairwise.nil
        | [_], _ => exact List.pairwise_singleton _ _
        | _ :: _ :: _, hlength => exact absurd (by simp) hlength
    · have hall : ∀ ty ∈ types, isIntRange ty = false := by simpa using hrange
      apply List.pairwise_of_forall_mem_list
      intro a ha b hb hone
      simp [hall a ha, hall b hb] at hone

/-- The integers of a union: those of the members the pass leaves alone, and
those of the members it reads. -/
theorem unionAdmits_iff {types : List PhpType} {z : Int} (hz : i64Min ≤ z ∧ z ≤ i64Max) :
    unionAdmits types z = true ↔ unionAdmits (others types) z = true ∨
      ∃ ty ∈ types, Readable ty ∧ ∃ i ∈ intInterval ty, i.Contains z := by
  unfold unionAdmits others
  simp only [List.any_eq_true, List.mem_filter, Option.isNone_iff_eq_none]
  constructor
  · rintro ⟨ty, hty, hadmits⟩
    cases hread : intInterval ty with
    | none => exact .inl ⟨ty, ⟨hty, hread⟩, hadmits⟩
    | some i =>
        obtain ⟨hreadable, hcontains⟩ := (admitsInt_iff hread hz).mp hadmits
        exact .inr ⟨ty, hty, hreadable, i, hread, hcontains⟩
  · rintro (⟨ty, ⟨hty, -⟩, hadmits⟩ | ⟨ty, hty, hreadable, i, hread, hcontains⟩)
    · exact ⟨ty, hty, hadmits⟩
    · exact ⟨ty, hty, (admitsInt_iff hread hz).mpr ⟨hreadable, hcontains⟩⟩

theorem unionAdmits_absorbIntRanges {types : List PhpType} (h : Merges types) {z : Int}
    (hz : i64Min ≤ z ∧ z ≤ i64Max) :
    unionAdmits (absorbIntRanges types) z = true ↔ unionAdmits (others types) z = true ∨
      ∃ ty ∈ types, ∃ i ∈ intInterval ty, i.Contains z := by
  have hread : (∃ ty ∈ absorbIntRanges types, Readable ty ∧ ∃ i ∈ intInterval ty, i.Contains z) ↔
      ∃ i ∈ mergeIntervals (types.filterMap intInterval), i.Contains z := by
    obtain ⟨before, after, hothers, habsorb⟩ := absorbIntRanges_of_merges h
    constructor
    · rintro ⟨ty, hty, -, i, hi, hcontains⟩
      refine ⟨i, ?_, hcontains⟩
      rw [← filterMap_absorbIntRanges h]
      exact List.mem_filterMap.mpr ⟨ty, hty, hi⟩
    · rintro ⟨i, hi, hcontains⟩
      obtain ⟨hmerged, hreadable⟩ := read_merged hi
      refine ⟨intervalType i, ?_, hreadable, i, hmerged, hcontains⟩
      rw [habsorb]
      simp only [List.mem_append, List.mem_map]
      exact .inl (.inr ⟨i, hi, rfl⟩)
  rw [unionAdmits_iff hz, absorbIntRanges_others, hread, mem_mergeIntervals]
  simp only [List.mem_filterMap, Option.mem_def]
  refine or_congr_right ⟨?_, ?_⟩
  · rintro ⟨i, ⟨ty, hty, hi⟩, hcontains⟩
    exact ⟨ty, hty, i, hi, hcontains⟩
  · rintro ⟨ty, hty, i, hi, hcontains⟩
    exact ⟨i, ⟨ty, hty, hi⟩, hcontains⟩

/-- `i128::MIN` and `i128::MAX`, between which `max + 1` is computed. -/
def checkI128 (z : Int) : Option Int :=
  if -170141183460469231731687303715884105728 ≤ z ∧ z ≤ 170141183460469231731687303715884105727 then
    some z
  else none

theorem merge_noOverflow (types : List PhpType) :
    mergeIntervalsBy (fun hi => checkI128 (hi + 1)) (types.filterMap intInterval) =
      some (mergeIntervals (types.filterMap intInterval)) := by
  apply mergeIntervalsBy_eq
  intro i hi hi' hhi
  obtain ⟨ty, -, hty⟩ := List.mem_filterMap.mp hi
  have hbounds := (intInterval_bounds hty).2 hi' hhi
  simp only [i64Min, i64Max] at hbounds
  exact if_pos (by omega)

/-- The pass keeps the integers of a union, leaves its ranges apart and the
other members alone, and no bound overflows. -/
structure KeepsInts (types : List PhpType) : Prop where
  sameInts : ∀ z : Int, i64Min ≤ z ∧ z ≤ i64Max →
    (unionAdmits (absorbIntRanges types) z = true ↔ unionAdmits types z = true)
  apart : (absorbIntRanges types).Pairwise MembersApart
  others : others (absorbIntRanges types) = others types
  noOverflow : mergeIntervalsBy (fun hi => checkI128 (hi + 1)) (types.filterMap intInterval) =
    some (mergeIntervals (types.filterMap intInterval))

/-- The integers are kept exactly when nothing is merged, or every integer
read between the bounds of a range that cannot be read is one some member
admits. -/
theorem keepsInts_iff (types : List PhpType) :
    KeepsInts types ↔ ¬ Merges types ∨ ∀ ty ∈ types, ¬ Readable ty → ∀ i ∈ intInterval ty,
      ∀ z : Int, i64Min ≤ z ∧ z ≤ i64Max → i.Contains z → unionAdmits types z = true := by
  constructor
  · intro h
    by_cases hmerges : Merges types
    · right
      intro ty hty _ i hi z hz hcontains
      rw [← h.sameInts z hz, unionAdmits_absorbIntRanges hmerges hz]
      exact .inr ⟨ty, hty, i, hi, hcontains⟩
    · exact .inl hmerges
  · intro h
    refine ⟨fun z hz => ?_, absorbIntRanges_apart types, absorbIntRanges_others types,
      merge_noOverflow types⟩
    by_cases hmerges : Merges types
    · have hmisread := h.resolve_left (not_not_intro hmerges)
      rw [unionAdmits_absorbIntRanges hmerges hz]
      constructor
      · rintro (hother | ⟨ty, hty, i, hi, hcontains⟩)
        · exact (unionAdmits_iff hz).mpr (.inl hother)
        · by_cases hreadable : Readable ty
          · exact (unionAdmits_iff hz).mpr (.inr ⟨ty, hty, hreadable, i, hi, hcontains⟩)
          · exact hmisread ty hty hreadable i hi z hz hcontains
      · intro hadmits
        rcases (unionAdmits_iff hz).mp hadmits with hother | ⟨ty, hty, -, i, hi, hcontains⟩
        · exact .inl hother
        · exact .inr ⟨ty, hty, i, hi, hcontains⟩
    · rw [absorbIntRanges_of_not_merges hmerges]

theorem not_keepsInts_bound :
    ¬ KeepsInts [.intRange "0" "18446744073709551615", literalInt "1"] := by
  intro h
  have hzero := h.sameInts 0 (by decide)
  exact absurd hzero (by decide +kernel)

end IntRanges

end PhpantomLsp
