import PhpantomLsp.Lib.Settling
import PhpantomLsp.PhpType.IntRanges
import PhpantomLsp.TypeOps.IntInterval

/-!
# Widening the integers of a loop

`widen_grown_ints` compares the integers a local holds at one entry of a loop
body with those it held at the entry before, and opens each bound that moved
outwards.  It keeps every integer and every other alternative
(`keeps_nextEntry`).  A bound that was opened twice was closed in between by
the types a walk of the body came back with (`closed_between_openings`), and a
loop whose walks close none has integers that settle (`ints_settle`).
-/

namespace PhpantomLsp

open Text Lib PhpType IntRanges

/-! ## Names of integers -/

theorem utf8Size_toLower (c : Char) : c.toLower.utf8Size = c.utf8Size := by
  delta Char.toLower
  split
  · rename_i hupper
    have hle : c.val.toNat ≤ 90 := hupper.2
    have hsum : (c.val + ('a'.val - 'A'.val)).toNat = c.val.toNat + 32 := by
      rw [UInt32.toNat_add]
      exact Nat.mod_eq_of_lt (by have : ('a'.val - 'A'.val).toNat = 32 := by decide
                                 omega)
    have hlow : c.val.toNat + 32 ≤ 127 := by omega
    have hfirst : ∀ d : Char, d.val.toNat ≤ 127 → d.utf8Size = 1 := by
      intro d hd
      rw [Char.utf8Size, if_pos (UInt32.le_iff_toNat_le.mpr hd)]
    rw [hfirst c (by omega), hfirst _ (by rw [hsum]; exact hlow)]
  · rfl

theorem byteLen_asciiLower (s : String) : byteLen (asciiLower s) = byteLen s := by
  unfold byteLen
  rw [toList_asciiLower, List.map_map]
  exact congrArg List.sum (List.map_congr_left fun c _ => utf8Size_toLower c)

/-- A short name that is no lowercase-only pseudo-type is read in any casing. -/
theorem keywordLower_of_asciiLower {name keyword : String} (h : asciiLower name = keyword)
    (hshort : byteLen keyword ≤ 48) (hplain : isLowercaseOnlyPseudoType keyword = false) :
    keywordLower name = keyword := by
  have hcapped : cappedLower name = keyword := by
    rw [cappedLower, if_neg (by rw [← byteLen_asciiLower, h]; omega), h]
  unfold keywordLower
  simp [hcapped, hplain]

theorem isIntSubtype_named {ty : PhpType} {name : Atom} (hkind : ty.kind = .named name) :
    ty.isIntSubtype = decide (keywordLower name ∈ ["int", "integer"] ++ intRefinements) := by
  rw [isIntSubtype_eq, isIntSubtypeBody, hkind]

theorem isInt_named {ty : PhpType} {name : Atom} (hkind : ty.kind = .named name) :
    ty.isInt = decide (keywordLower name ∈ ["int", "integer"]) := by
  rw [isInt, namedThroughNullable_eq, namedThroughNullableBody, hkind]

/-! ## The interval of a type -/

namespace IntInterval

/-- `parse_bound`: `min` or `max`, or anything that cannot be read, is
unbounded. -/
def parseBound (bound unbounded : String) : Option I64 :=
  if eqIgnoreAsciiCase bound unbounded then none
  else (parseI64 (trim bound)).bind I64.checked

/-- `of_int`: the interval of a single integer type. -/
def ofInt (ty : PhpType) : Option IntInterval :=
  match ty.kind with
  | .literal value => (value.parseInt.bind I64.checked).map exact
  | .intRange min max => some ⟨parseBound min "min", parseBound max "max"⟩
  | .named name =>
      match refinedIntToRange (asciiLower name) with
      | some (min, max) => some ⟨parseBound min "min", parseBound max "max"⟩
      | none => if ty.isIntSubtype then some unbounded else none
  | _ => none

/-- `into_type`: the type holding exactly the integers of an interval. -/
def intoType (self : IntInterval) : PhpType :=
  match self with
  | ⟨none, none⟩ => PhpType.int
  | ⟨some min, some max⟩ =>
      if min = max then literalInt (intToString min.val)
      else .intRange (intToString min.val) (intToString max.val)
  | ⟨min, max⟩ =>
      .intRange ((min.map fun v => intToString v.val).getD "min")
        ((max.map fun v => intToString v.val).getD "max")

/-! ## What it is read from -/

theorem isAsciiDigit_of_digitValue {d : Char} {v : Nat} (hv : digitValue d = some v)
    (hlt : v < 10) : isAsciiDigit d = true := by
  unfold digitValue at hv
  split at hv
  · rename_i h
    simpa [isAsciiDigit] using h
  · split at hv
    · have := Option.some.inj hv
      omega
    · split at hv
      · have := Option.some.inj hv
        omega
      · exact absurd hv (by simp)

theorem isAsciiDigit_of_digitsValue {digits : List Char} {acc n : Nat}
    (h : digitsValue 10 acc digits = some n) : ∀ c ∈ digits, isAsciiDigit c = true := by
  induction digits generalizing acc with
  | nil => simp
  | cons d rest ih =>
      rw [digitsValue] at h
      split at h
      · rename_i v hv
        split at h
        · rename_i hlt
          intro c hc
          rcases List.mem_cons.mp hc with rfl | hc
          · exact isAsciiDigit_of_digitValue hv hlt
          · exact ih h c hc
        · exact absurd h (by simp)
      · exact absurd h (by simp)

/-- A number has no letter in it. -/
theorem asciiLower_of_parseI64 {s : String} {z : Int} (h : parseI64 s = some z) :
    asciiLower s = s := by
  have hchars : ∀ c ∈ s.toList, c.toLower = c := by
    simp only [parseI64] at h
    split at h
    · exact absurd h (by simp)
    · split at h
      · rename_i n hvalue
        have hdigits := isAsciiDigit_of_digitsValue hvalue
        intro c hc
        have hbody : c = '-' ∨ c = '+' ∨ c ∈ (splitSign s.toList).2 := by
          unfold splitSign
          split
          · rename_i rest heq
            rw [heq, List.mem_cons] at hc
            tauto
          · rename_i rest heq
            rw [heq, List.mem_cons] at hc
            tauto
          · exact .inr (.inr hc)
        rcases hbody with rfl | rfl | hmem
        · decide
        · decide
        · exact toLower_of_isAsciiDigit (hdigits c hmem)
      · exact absurd h (by simp)
  apply String.toList_inj.mp
  rw [toList_asciiLower, List.map_congr_left hchars, List.map_id']

/-- A bound that was read is the one a literal is compared with. -/
theorem parseBound_eq_some {bound unbounded : String} {b : I64}
    (h : parseBound bound unbounded = some b) :
    parseI64 (asciiLower (trim bound)) = some b.val := by
  unfold parseBound at h
  split at h
  · exact absurd h (by simp)
  · obtain ⟨v, hv, hchecked⟩ := Option.bind_eq_some_iff.mp h
    rw [asciiLower_of_parseI64 hv, hv, I64.checked_eq_some.mp hchecked]

theorem contains_of_within {z : Int} {min max : String}
    (h : intLiteralIsWithinRange z min max = true) :
    (⟨parseBound min "min", parseBound max "max"⟩ : IntInterval).Contains z := by
  simp only [intLiteralIsWithinRange, Bool.and_eq_true, Bool.or_eq_true, beq_iff_eq] at h
  obtain ⟨hmin, hmax⟩ := h
  constructor
  · intro lo hlo
    have hread := parseBound_eq_some hlo
    rcases hmin with hkeyword | hle
    · rw [hkeyword, show parseI64 "min" = none by decide] at hread
      exact absurd hread (by simp)
    · rw [hread] at hle
      simpa using hle
  · intro hi hhi
    have hread := parseBound_eq_some hhi
    rcases hmax with hkeyword | hle
    · rw [hkeyword, show parseI64 "max" = none by decide] at hread
      exact absurd hread (by simp)
    · rw [hread] at hle
      simpa using hle

theorem intKeyword {lower : String} (h : lower ∈ ["int", "integer"]) :
    lower ∈ scalarKeywords ∧ refinedIntToRange lower = none := by
  rcases List.mem_pair.mp h with rfl | rfl <;> decide

/-- An integer type admits the integers of its interval at most. -/
theorem contains_of_admitsInt {ty : PhpType} {I : IntInterval} {z : Int} (hI : ofInt ty = some I)
    (hz : admitsInt ty z = true) : I.Contains z := by
  unfold ofInt at hI
  unfold admitsInt at hz
  split at hI
  · rename_i value hkind
    rw [hkind] at hz
    obtain ⟨w, hw, rfl⟩ := Option.map_eq_some_iff.mp hI
    obtain ⟨v, hv, hchecked⟩ := Option.bind_eq_some_iff.mp hw
    have hval := I64.checked_eq_some.mp hchecked
    simp only [hv, beq_iff_eq, Option.some.injEq] at hz
    constructor
    · intro lo hlo
      obtain rfl := Option.some.inj hlo
      omega
    · intro hi hhi
      obtain rfl := Option.some.inj hhi
      omega
  · rename_i min max hkind
    rw [hkind] at hz
    obtain rfl := Option.some.inj hI
    exact contains_of_within hz
  · rename_i name hkind
    simp only [hkind, Bool.or_eq_true] at hz
    split at hI
    · rename_i min max hrange
      obtain rfl := Option.some.inj hI
      rcases hz with hint | hnamed
      · rw [isInt_named hkind, decide_eq_true_eq] at hint
        have hlower := (asciiLower_of_keyword (intKeyword hint).1).1
        rw [hlower, (intKeyword hint).2] at hrange
        exact absurd hrange (by simp)
      · rw [namedAdmits, hrange] at hnamed
        exact contains_of_within hnamed
    · split at hI
      · obtain rfl := Option.some.inj hI
        exact ⟨by simp [unbounded], by simp [unbounded]⟩
      · exact absurd hI (by simp)
  · exact absurd hI (by simp)

/-- A type that admits an integer is an integer type. -/
theorem isSome_ofInt {ty : PhpType} {z : Int} (hz : i64Min ≤ z ∧ z ≤ i64Max)
    (h : admitsInt ty z = true) : (ofInt ty).isSome = true := by
  unfold admitsInt at h
  split at h
  · rename_i value hkind
    have hchecked : I64.checked z = some ⟨z, hz⟩ := I64.checked_eq_some.mpr rfl
    simp only [ofInt, hkind, beq_iff_eq.mp h, Option.bind_some, hchecked]
    rfl
  · rename_i min max hkind
    rw [ofInt, hkind]
    rfl
  · rename_i name hkind
    simp only [ofInt, hkind]
    split
    · rfl
    · rename_i hrange
      have hsubtype : keywordLower name ∈ ["int", "integer"] ++ intRefinements := by
        rcases Bool.or_eq_true_iff.mp h with hint | hnamed
        · rw [isInt_named hkind, decide_eq_true_eq] at hint
          exact List.mem_append_left _ hint
        · rw [namedAdmits, hrange, Bool.and_eq_true, beq_iff_eq] at hnamed
          rw [keywordLower_of_asciiLower hnamed.1 (by decide) (by decide)]
          decide
      rw [isIntSubtype_named hkind, if_pos (decide_eq_true hsubtype)]
      rfl
  · exact absurd h (by simp)

theorem parseBound_intToString (v : I64) :
    parseBound (intToString v.val) "min" = some v ∧
      parseBound (intToString v.val) "max" = some v := by
  have hne := intToString_ne_keyword v.val
  have hlower := asciiLower_intToString v.val
  have hread : (parseI64 (trim (intToString v.val))).bind I64.checked = some v := by
    rw [trim_intToString, parseI64_intToString v.2.1 v.2.2, Option.bind_some]
    exact I64.checked_eq_some.mpr rfl
  constructor
  · rw [parseBound, if_neg (by rw [eqIgnoreAsciiCase_iff, hlower]; exact hne.1), hread]
  · rw [parseBound, if_neg (by rw [eqIgnoreAsciiCase_iff, hlower]; exact hne.2), hread]

/-- The type of an interval is read as the interval. -/
theorem ofInt_intoType (I : IntInterval) : ofInt I.intoType = some I := by
  have hrange (min max : Atom) :
      ofInt (.intRange min max) = some ⟨parseBound min "min", parseBound max "max"⟩ := rfl
  have hlow : parseBound "min" "min" = none := by decide
  have hhigh : parseBound "max" "max" = none := by decide
  obtain ⟨min, max⟩ := I
  cases min with
  | none =>
      cases max with
      | none =>
          have hsubtype : PhpType.int.isIntSubtype = true := by
            rw [isIntSubtype_named rfl]
            decide
          show (if PhpType.int.isIntSubtype then some unbounded else none) = _
          rw [hsubtype]
          rfl
      | some hi => exact (hrange _ _).trans (by simp [parseBound_intToString, hlow])
  | some lo =>
      cases max with
      | none => exact (hrange _ _).trans (by simp [parseBound_intToString, hhigh])
      | some hi =>
          by_cases heq : lo = hi
          · have hread : parsePhpIntLiteral (intToString lo.val) = some lo.val :=
              parsePhpIntLiteral_intToString lo.2
            have hchecked : I64.checked lo.val = some lo := I64.checked_eq_some.mpr rfl
            rw [intoType, if_pos heq, ← heq]
            show ((parsePhpIntLiteral (intToString lo.val)).bind I64.checked).map exact = _
            rw [hread, Option.bind_some, hchecked]
            rfl
          · rw [intoType, if_neg heq, hrange]
            simp [parseBound_intToString]

/-- The type of an interval admits its integers. -/
theorem admitsInt_intoType {I : IntInterval} {z : Int} (hz : i64Min ≤ z ∧ z ≤ i64Max)
    (h : I.Contains z) : admitsInt I.intoType z = true := by
  let i : Interval := ⟨I.min.map Subtype.val, I.max.map Subtype.val⟩
  have htype : I.intoType = intervalType i := by
    obtain ⟨min, max⟩ := I
    cases min with
    | none => cases max <;> rfl
    | some lo =>
        cases max with
        | none => rfl
        | some hi => simp only [intoType, intervalType, i, Option.map_some, Subtype.ext_iff]
  have hbounds (bound : Option I64) : ∀ v ∈ bound.map Subtype.val, i64Min ≤ v ∧ v ≤ i64Max := by
    intro v hv
    obtain ⟨w, -, rfl⟩ := Option.map_eq_some_iff.mp hv
    exact w.2
  obtain ⟨hread, hreadable⟩ := @intInterval_intervalType i (hbounds I.min) (hbounds I.max)
  rw [htype, admitsInt_iff hread hz]
  refine ⟨hreadable, ?_, ?_⟩
  · intro lo hlo
    obtain ⟨w, hw, rfl⟩ := Option.map_eq_some_iff.mp hlo
    exact h.1 w hw
  · intro hi hhi
    obtain ⟨w, hw, rfl⟩ := Option.map_eq_some_iff.mp hhi
    exact h.2 w hw

theorem unionMembers_intoType (I : IntInterval) : I.intoType.unionMembers = [I.intoType] := by
  obtain ⟨min, max⟩ := I
  cases min with
  | none => cases max <;> rfl
  | some lo =>
      cases max with
      | none => rfl
      | some hi =>
          rw [intoType]
          split <;> rfl

end IntInterval

namespace Widening

/-! ## The pass -/

/-- `FactoryCount`: how many models a factory builds. -/
inductive FactoryCount where
  | one
  | many
  | unknown
  deriving DecidableEq

/-- One alternative of what a local holds: its type, the class it was
resolved to, and how many models it builds. -/
structure ResolvedType (κ : Type) where
  typeString : PhpType
  classInfo : Option κ
  factoryCount : FactoryCount
  deriving DecidableEq

variable {κ : Type}

/-- `from_type_string`. -/
def ResolvedType.fromTypeString (typeString : PhpType) : ResolvedType κ :=
  ⟨typeString, none, .unknown⟩

/-- The hull of what is covered so far and of one more member. -/
def hullStep (hull : Option IntInterval) (member : PhpType) : Option IntInterval :=
  match IntInterval.ofInt member with
  | some interval => some ((hull.map (·.hull interval)).getD interval)
  | none => hull

/-- `int_alternatives_hull`: the interval covering the integer alternatives,
or `none` without one. -/
def intAlternativesHull (types : List (ResolvedType κ)) : Option IntInterval :=
  types.foldl (fun hull rt => rt.typeString.unionMembers.foldl hullStep hull) none

/-- The alternatives of an entry that are no integers. -/
def otherMembers (rt : ResolvedType κ) : List PhpType :=
  rt.typeString.unionMembers.filter fun m => (IntInterval.ofInt m).isNone

section

variable [DedupHasher]

/-- What an entry leaves beside the integers. -/
def keptOf (rt : ResolvedType κ) : List (ResolvedType κ) :=
  if !rt.typeString.unionMembers.any fun m => (IntInterval.ofInt m).isSome then [rt]
  else if (otherMembers rt).isEmpty then []
  else [.fromTypeString (mkUnion (otherMembers rt))]

/-- `widen_grown_ints`: open each bound of the integers that moved, or `none`
when nothing grew. -/
def widenGrownInts (previous current : List (ResolvedType κ)) : Option (List (ResolvedType κ)) := do
  let before ← intAlternativesHull previous
  let after ← intAlternativesHull current
  let (below, above) := before.isExceededBy after
  let widened : IntInterval :=
    ⟨if below then none else after.min, if above then none else after.max⟩
  if widened = after then none
  else some (.fromTypeString widened.intoType :: current.flatMap keptOf)

/-- What a local holds at the next entry of the body. -/
def nextEntry (previous current : List (ResolvedType κ)) : List (ResolvedType κ) :=
  (widenGrownInts previous current).getD current

/-- What a local holds at each entry of the body, when the walk from entry `n`
comes back with `currents n`. -/
def entries (first : List (ResolvedType κ)) (currents : Nat → List (ResolvedType κ)) :
    Nat → List (ResolvedType κ)
  | 0 => first
  | n + 1 => nextEntry (entries first currents n) (currents n)

end

/-! ## The hull -/

/-- The intervals of the integer alternatives. -/
def intervals (types : List (ResolvedType κ)) : List IntInterval :=
  types.flatMap fun rt => rt.typeString.unionMembers.filterMap IntInterval.ofInt

theorem foldl_hullStep (members : List PhpType) (hull : Option IntInterval) :
    members.foldl hullStep hull = (members.filterMap IntInterval.ofInt).foldl
      (fun hull interval => some ((hull.map (·.hull interval)).getD interval)) hull := by
  induction members generalizing hull with
  | nil => rfl
  | cons member rest ih =>
      rw [List.foldl_cons, ih, hullStep]
      cases h : IntInterval.ofInt member with
      | none => rw [List.filterMap_cons_none h]
      | some interval => rw [List.filterMap_cons_some h, List.foldl_cons]

theorem foldl_some_hull (rest : List IntInterval) (first : IntInterval) :
    rest.foldl (fun hull interval => some ((hull.map (·.hull interval)).getD interval))
      (some first) = some (rest.foldl IntInterval.hull first) := by
  induction rest generalizing first with
  | nil => rfl
  | cons next rest ih => exact ih _

theorem intAlternativesHull_eq (types : List (ResolvedType κ)) :
    intAlternativesHull types =
      if intervals types = [] then none else some (IntInterval.hullOf (intervals types)) := by
  have hfold : intAlternativesHull types = (intervals types).foldl
      (fun hull interval => some ((hull.map (·.hull interval)).getD interval)) none := by
    simp only [intAlternativesHull, intervals, foldl_hullStep, List.foldl_flatMap]
  rw [hfold]
  cases intervals types with
  | nil => rfl
  | cons first rest => exact foldl_some_hull rest first

/-- The two ends of an interval. -/
inductive Side where
  | low
  | high
  deriving DecidableEq

def bound (side : Side) (I : IntInterval) : Option I64 :=
  match side with
  | .low => I.min
  | .high => I.max

/-- How far a bound is from the end of `i64` it opens towards when it moves
inwards. -/
def gap (side : Side) (v : I64) : Nat :=
  match side with
  | .low => (i64Max - v.val).toNat
  | .high => (v.val - i64Min).toNat

theorem gap_injective {side : Side} {v w : I64} (h : gap side v = gap side w) : v = w := by
  have hv := v.2
  have hw := w.2
  apply Subtype.ext
  cases side <;> simp only [gap] at h <;> omega

/-- The largest gap. -/
def width : Nat := (i64Max - i64Min).toNat

theorem gap_le_width (side : Side) (v : I64) : gap side v ≤ width := by
  have hv := v.2
  cases side <;> simp only [gap, width] <;> omega

/-- Whether the other bound is past this one, on the outside. -/
def exceeds (side : Side) (mine theirs : Option I64) : Bool :=
  match mine, theirs with
  | none, _ => false
  | some _, none => true
  | some mine, some theirs => decide (gap side mine < gap side theirs)

theorem isExceededBy_eq (before after : IntInterval) :
    before.isExceededBy after =
      (exceeds .low before.min after.min, exceeds .high before.max after.max) := by
  have hlow (v w : I64) : w < v ↔ gap .low v < gap .low w := by
    have hv := v.2
    have hw := w.2
    show w.val < v.val ↔ _
    simp only [gap]
    omega
  have hhigh (v w : I64) : v < w ↔ gap .high v < gap .high w := by
    have hv := v.2
    have hw := w.2
    show v.val < w.val ↔ _
    simp only [gap]
    omega
  obtain ⟨min, max⟩ := before
  obtain ⟨min', max'⟩ := after
  cases min <;> cases min' <;> cases max <;> cases max' <;>
    simp only [IntInterval.isExceededBy, exceeds, ← hhigh, ← hlow]

theorem bound_hull {side : Side} {I J : IntInterval}
    (h : bound side I = none ∨ bound side J = none) :
    bound side (I.hull J) = none := by
  cases side with
  | low =>
      show (I.min.bind fun a => J.min.bind fun b => some (Min.min a b)) = none
      rcases h with h | h
      · rw [show I.min = none from h, Option.bind_none]
      · rw [show J.min = none from h]
        simp
  | high =>
      show (I.max.bind fun a => J.max.bind fun b => some (Max.max a b)) = none
      rcases h with h | h
      · rw [show I.max = none from h, Option.bind_none]
      · rw [show J.max = none from h]
        simp

theorem bound_foldl_hull {side : Side} (rest : List IntInterval) {first : IntInterval}
    (h : bound side first = none) : bound side (rest.foldl IntInterval.hull first) = none := by
  induction rest generalizing first with
  | nil => exact h
  | cons next rest ih => exact ih (bound_hull (.inl h))

/-! ## What a pass returns -/

/-- The interval a pass opens the integers to. -/
def widenedHull (before after : IntInterval) : IntInterval :=
  ⟨if exceeds .low before.min after.min then none else after.min,
    if exceeds .high before.max after.max then none else after.max⟩

theorem bound_widenedHull (side : Side) (before after : IntInterval) :
    bound side (widenedHull before after) =
      if exceeds side (bound side before) (bound side after) then none else bound side after := by
  cases side <;> rfl

/-- The integers of what a pass returns begin with the hull it opened. -/
theorem intervals_opened (I : IntInterval) (kept : List (ResolvedType κ)) :
    intervals (.fromTypeString I.intoType :: kept) = I :: intervals kept := by
  have hfirst : (ResolvedType.fromTypeString (κ := κ) I.intoType).typeString = I.intoType := rfl
  rw [intervals, List.flatMap_cons, hfirst, IntInterval.unionMembers_intoType,
    List.filterMap_cons_some (IntInterval.ofInt_intoType I)]
  rfl

/-! ## Bounds that open and close -/

/-- The types hold integers without a bound on that side. -/
def OpenAt (side : Side) (types : List (ResolvedType κ)) : Prop :=
  ∃ I ∈ intAlternativesHull types, bound side I = none

/-- The bound is there at one entry and opened at the next. -/
def Opens (side : Side) (entry next : List (ResolvedType κ)) : Prop :=
  (∃ I ∈ intAlternativesHull entry, (bound side I).isSome) ∧ OpenAt side next

/-- A walk from an entry that is open on that side comes back with a bound
there, or without integers. -/
def Closes (side : Side) (entry current : List (ResolvedType κ)) : Prop :=
  OpenAt side entry ∧ ¬ OpenAt side current

theorem not_openAt_of_opens {side : Side} {entry next : List (ResolvedType κ)}
    (h : Opens side entry next) : ¬ OpenAt side entry := by
  rintro ⟨I, hI, hopen⟩
  obtain ⟨⟨J, hJ, hbound⟩, -⟩ := h
  obtain rfl := Option.some.inj (hI.symm.trans hJ)
  rw [hopen] at hbound
  exact absurd hbound (by simp)

/-- A walk that closes no bound and leaves integers where there were some. -/
def KeepsOpen (entry current : List (ResolvedType κ)) : Prop :=
  (∀ side, ¬ Closes side entry current) ∧
    ((intAlternativesHull entry).isSome → (intAlternativesHull current).isSome)

/-- A bound ranks above an open one, and lower the further inwards it is. -/
def boundRank (side : Side) : Option I64 → Nat
  | none => 0
  | some v => width + 1 + gap side v

/-- What falls along the passes: a bound that opens outweighs all the other
can lose. -/
def rank : Option IntInterval → Nat
  | none => 2 * (2 * width + 1) + 1
  | some I => boundRank .low I.min + boundRank .high I.max

theorem boundRank_le (side : Side) (b : Option I64) : boundRank side b ≤ 2 * width + 1 := by
  cases b with
  | none => exact Nat.zero_le _
  | some v =>
      have := gap_le_width side v
      simp only [boundRank]
      omega

/-- A bound that is not past the other one ranks no higher, and the same only
if it is the same. -/
theorem boundRank_of_not_exceeds {side : Side} {a b : Option I64} (hopen : a = none → b = none)
    (hexceeds : exceeds side a b = true → b = none) :
    boundRank side b ≤ boundRank side a ∧ (boundRank side b = boundRank side a → b = a) := by
  cases a with
  | none =>
      rw [hopen rfl]
      exact ⟨le_refl _, fun _ => rfl⟩
  | some v =>
      cases b with
      | none =>
          refine ⟨Nat.zero_le _, fun h => ?_⟩
          simp only [boundRank] at h
          omega
      | some w =>
          have hle : gap side w ≤ gap side v := by
            by_contra hlt
            rw [not_le] at hlt
            exact absurd (hexceeds (decide_eq_true hlt)) (by simp)
          refine ⟨Nat.add_le_add_left hle _, fun h => ?_⟩
          simp only [boundRank] at h
          rw [@gap_injective side w v (by omega)]

/-- A bound that stays open if it was ranks at most one gap higher. -/
theorem boundRank_le_add {side : Side} {a b : Option I64} (hopen : a = none → b = none) :
    boundRank side b ≤ boundRank side a + width := by
  cases a with
  | none =>
      rw [hopen rfl]
      exact Nat.zero_le _
  | some v =>
      have := boundRank_le side b
      simp only [boundRank] at this ⊢
      omega

/-- A pass opens nothing but what moved. -/
theorem exists_exceeds {before after : IntInterval} (h : widenedHull before after ≠ after) :
    ∃ side, exceeds side (bound side before) (bound side after) = true := by
  by_contra hnone
  push Not at hnone
  apply h
  have hlow : exceeds .low before.min after.min ≠ true := hnone .low
  have hhigh : exceeds .high before.max after.max ≠ true := hnone .high
  rw [widenedHull, if_neg hlow, if_neg hhigh]

theorem boundRank_opened {side : Side} {a b c : Option I64} (hexceeds : exceeds side a b = true)
    (hc : c = none) : boundRank side c + width < boundRank side a := by
  cases a with
  | none => exact absurd hexceeds (by simp [exceeds])
  | some v =>
      rw [hc]
      simp only [boundRank]
      omega

theorem bound_of_not_closes {side : Side} {entry current : List (ResolvedType κ)}
    {before after : IntInterval} (h : ¬ Closes side entry current)
    (hbefore : intAlternativesHull entry = some before)
    (hafter : intAlternativesHull current = some after) (hopen : bound side before = none) :
    bound side after = none := by
  by_contra hbound
  refine h ⟨⟨before, hbefore, hopen⟩, ?_⟩
  rintro ⟨I, hI, hI'⟩
  obtain rfl := Option.some.inj (hafter.symm.trans hI)
  exact hbound hI'

/-! ## What a pass keeps -/

/-- An integer a list of alternatives admits. -/
def Admits (types : List (ResolvedType κ)) (z : Int) : Prop :=
  ∃ rt ∈ types, ∃ m ∈ rt.typeString.unionMembers, admitsInt m z = true

theorem contains_widenedHull {before after : IntInterval} {z : Int} (h : after.Contains z) :
    (widenedHull before after).Contains z := by
  constructor
  · intro lo hlo
    unfold widenedHull at hlo
    split at hlo
    · exact absurd hlo (by simp)
    · exact h.1 lo hlo
  · intro hi hhi
    unfold widenedHull at hhi
    dsimp only at hhi
    split at hhi
    · exact absurd hhi (by simp)
    · exact h.2 hi hhi

theorem contains_of_admits {types : List (ResolvedType κ)} {z : Int}
    (hz : i64Min ≤ z ∧ z ≤ i64Max) (h : Admits types z) :
    ∀ I ∈ intAlternativesHull types, I.Contains z := by
  obtain ⟨rt, hrt, m, hm, hadmits⟩ := h
  obtain ⟨I, hI⟩ := Option.isSome_iff_exists.mp (IntInterval.isSome_ofInt hz hadmits)
  have hmem : I ∈ intervals types :=
    List.mem_flatMap.mpr ⟨rt, hrt, List.mem_filterMap.mpr ⟨m, hm, hI⟩⟩
  intro H hH
  rw [intAlternativesHull_eq, if_neg (List.ne_nil_of_mem hmem)] at hH
  obtain rfl := Option.some.inj hH
  exact IntInterval.contains_hullOf hmem (IntInterval.contains_of_admitsInt hI hadmits)

section

variable [DedupHasher]

/-- Either nothing grew, and the types are left as they are, or the hull is
put in the integers' place. -/
theorem nextEntry_cases (previous current : List (ResolvedType κ)) :
    (nextEntry previous current = current ∧
      ∀ before ∈ intAlternativesHull previous, ∀ after ∈ intAlternativesHull current,
        widenedHull before after = after) ∨
    ∃ before ∈ intAlternativesHull previous, ∃ after ∈ intAlternativesHull current,
      widenedHull before after ≠ after ∧
        nextEntry previous current =
          .fromTypeString (widenedHull before after).intoType :: current.flatMap keptOf := by
  cases hbefore : intAlternativesHull previous with
  | none => exact .inl ⟨by simp [nextEntry, widenGrownInts, hbefore], by simp⟩
  | some before =>
      cases hafter : intAlternativesHull current with
      | none => exact .inl ⟨by simp [nextEntry, widenGrownInts, hbefore, hafter], by simp⟩
      | some after =>
          have hpass : widenGrownInts previous current =
              if widenedHull before after = after then none
              else some (.fromTypeString (widenedHull before after).intoType ::
                current.flatMap keptOf) := by
            simp only [widenGrownInts, hbefore, hafter, isExceededBy_eq, Option.bind_eq_bind,
              Option.bind_some]
            rfl
          by_cases hsame : widenedHull before after = after
          · refine .inl ⟨by rw [nextEntry, hpass, if_pos hsame]; rfl, ?_⟩
            intro b hb a ha
            obtain rfl := Option.some.inj hb
            obtain rfl := Option.some.inj ha
            exact hsame
          · refine .inr ⟨before, rfl, after, rfl, hsame, ?_⟩
            rw [nextEntry, hpass, if_neg hsame]
            rfl

/-- An entry without integers stands among the types as it is; of one with
integers the union of its other alternatives does. -/
def Kept (rt : ResolvedType κ) (types : List (ResolvedType κ)) : Prop :=
  if rt.typeString.unionMembers.any fun m => (IntInterval.ofInt m).isSome then
    rt ∈ types ∨ otherMembers rt = [] ∨ .fromTypeString (mkUnion (otherMembers rt)) ∈ types
  else rt ∈ types

/-- A pass keeps every integer. -/
theorem admits_nextEntry {previous current : List (ResolvedType κ)} {z : Int}
    (hz : i64Min ≤ z ∧ z ≤ i64Max) (h : Admits current z) :
    Admits (nextEntry previous current) z := by
  rcases nextEntry_cases previous current with
    ⟨hsame, -⟩ | ⟨before, -, after, hafter, -, hnext⟩
  · rw [hsame]
    exact h
  · have hcontains := @contains_widenedHull before after z (contains_of_admits hz h after hafter)
    rw [hnext]
    refine ⟨_, List.mem_cons_self, (widenedHull before after).intoType, ?_, ?_⟩
    · show _ ∈ (widenedHull before after).intoType.unionMembers
      rw [IntInterval.unionMembers_intoType]
      exact List.mem_singleton_self _
    · exact IntInterval.admitsInt_intoType hz hcontains

/-- A pass keeps every other alternative. -/
theorem kept_nextEntry {previous current : List (ResolvedType κ)} {rt : ResolvedType κ}
    (h : rt ∈ current) : Kept rt (nextEntry previous current) := by
  unfold Kept
  rcases nextEntry_cases previous current with ⟨hsame, -⟩ | ⟨before, -, after, -, -, hnext⟩
  · rw [hsame]
    split
    · exact .inl h
    · exact h
  · have hmem {t : ResolvedType κ} (ht : t ∈ keptOf rt) : t ∈ nextEntry previous current := by
      rw [hnext]
      exact List.mem_cons_of_mem _ (List.mem_flatMap.mpr ⟨rt, h, ht⟩)
    unfold keptOf at hmem
    split
    · rename_i hints
      rw [hints] at hmem
      by_cases hempty : otherMembers rt = []
      · exact .inr (.inl hempty)
      · refine .inr (.inr (hmem ?_))
        simp [hempty]
    · rename_i hints
      rw [Bool.not_eq_true] at hints
      rw [hints] at hmem
      exact hmem (by simp)

/-- What a walk leaves open stays open. -/
theorem openAt_nextEntry {side : Side} {previous current : List (ResolvedType κ)}
    (h : OpenAt side current) : OpenAt side (nextEntry previous current) := by
  rcases nextEntry_cases previous current with
    ⟨hsame, -⟩ | ⟨before, -, after, hafter, -, hnext⟩
  · rw [hsame]
    exact h
  · obtain ⟨I, hI, hopen⟩ := h
    obtain rfl := Option.some.inj (hI.symm.trans hafter)
    rw [hnext]
    unfold OpenAt
    rw [intAlternativesHull_eq, intervals_opened, if_neg (List.cons_ne_nil _ _)]
    refine ⟨_, rfl, bound_foldl_hull _ ?_⟩
    rw [bound_widenedHull, hopen]
    split <;> rfl

/-- Between two passes that open the same bound a walk has closed it. -/
theorem closed_between {side : Side} {first : List (ResolvedType κ)}
    {currents : Nat → List (ResolvedType κ)} {m n : Nat} (hmn : m < n)
    (hm : Opens side (entries first currents m) (entries first currents (m + 1)))
    (hn : Opens side (entries first currents n) (entries first currents (n + 1))) :
    ∃ k, m < k ∧ k < n ∧ Closes side (entries first currents k) (currents k) := by
  let p (k : Nat) : Prop := OpenAt side (entries first currents k)
  obtain ⟨k, hmk, hkn, hopen, hlost⟩ := @lost_between p _ _ hmn hm.2 (not_openAt_of_opens hn)
  refine ⟨k, hmk, hkn, hopen, fun hcurrent => hlost ?_⟩
  exact openAt_nextEntry hcurrent

/-! ## The integers settle -/

/-- A pass whose walk closes no bound leaves the integers alone, or ranks
lower. -/
theorem rank_nextEntry {previous current : List (ResolvedType κ)}
    (hkeeps : KeepsOpen previous current)
    (hne : intAlternativesHull (nextEntry previous current) ≠ intAlternativesHull previous) :
    rank (intAlternativesHull (nextEntry previous current)) <
      rank (intAlternativesHull previous) := by
  obtain ⟨hcloses, hints⟩ := hkeeps
  rcases nextEntry_cases previous current with
    ⟨hnext, hsame⟩ | ⟨before, hbefore, after, hafter, hopened, hnext⟩
  · rw [hnext] at hne ⊢
    cases hbefore : intAlternativesHull previous with
    | none =>
        cases hafter : intAlternativesHull current with
        | none => exact absurd (hafter.trans hbefore.symm) hne
        | some after =>
            have hlow := boundRank_le .low after.min
            have hhigh := boundRank_le .high after.max
            simp only [rank]
            omega
    | some before =>
        obtain ⟨after, hafter⟩ := Option.isSome_iff_exists.mp (hints (by rw [hbefore]; rfl))
        have hwidened := hsame before hbefore after hafter
        have hside (side : Side) :
            boundRank side (bound side after) ≤ boundRank side (bound side before) ∧
            (boundRank side (bound side after) = boundRank side (bound side before) →
              bound side after = bound side before) := by
          apply boundRank_of_not_exceeds (bound_of_not_closes (hcloses side) hbefore hafter)
          intro hexceeds
          rw [← hwidened, bound_widenedHull, if_pos hexceeds]
        obtain ⟨hlow, hlow_eq⟩ := hside .low
        obtain ⟨hhigh, hhigh_eq⟩ := hside .high
        rw [hafter]
        simp only [rank]
        by_contra hnot
        have hmin : boundRank .low after.min = boundRank .low before.min := by
          simp only [bound] at hlow hhigh
          omega
        have hmax : boundRank .high after.max = boundRank .high before.max := by
          simp only [bound] at hlow hhigh
          omega
        have heq : after = before := by
          obtain ⟨min, max⟩ := after
          rw [show min = before.min from hlow_eq hmin, show max = before.max from hhigh_eq hmax]
        exact hne (by rw [hafter, hbefore, heq])
  · -- An opened bound makes room for what the other one may rank higher.
    have hkept (side : Side) :
        bound side before = none → bound side (widenedHull before after) = none := by
      intro hopen
      rw [bound_widenedHull, bound_of_not_closes (hcloses side) hbefore hafter hopen]
      split <;> rfl
    obtain ⟨side, hexceeds⟩ := exists_exceeds hopened
    rw [hnext, intAlternativesHull_eq, intervals_opened, if_neg (List.cons_ne_nil _ _), hbefore]
    simp only [rank, IntInterval.hullOf]
    generalize hK : List.foldl IntInterval.hull _ _ = K
    have hopen (side : Side) (h : bound side (widenedHull before after) = none) :
        bound side K = none := by
      rw [← hK]
      exact bound_foldl_hull _ h
    have hthis : bound side K = none := hopen side (by rw [bound_widenedHull, if_pos hexceeds])
    have hfalls := boundRank_opened hexceeds hthis
    have hlow := @boundRank_le_add .low _ _ fun h => hopen .low (hkept .low h)
    have hhigh := @boundRank_le_add .high _ _ fun h => hopen .high (hkept .high h)
    cases side <;> simp only [bound] at * <;> omega

/-- In a loop whose walks from some entry on close no bound, the integers
settle. -/
theorem ints_settle {first : List (ResolvedType κ)} {currents : Nat → List (ResolvedType κ)}
    {start : Nat} (hkeeps : ∀ n, start ≤ n → KeepsOpen (entries first currents n) (currents n)) :
    ∃ k, start ≤ k ∧ ∀ n, k ≤ n →
      intAlternativesHull (entries first currents n) =
        intAlternativesHull (entries first currents k) := by
  apply settles_of_rank (fun n => intAlternativesHull (entries first currents n)) rank start
  intro n hn hne
  exact rank_nextEntry (hkeeps n hn) hne

/-- What the widening of a local's integers guarantees. -/
structure Widens (κ : Type) : Prop where
  admits : ∀ (previous current : List (ResolvedType κ)) (z : Int), i64Min ≤ z ∧ z ≤ i64Max →
    Admits current z → Admits (nextEntry previous current) z
  kept : ∀ (previous current : List (ResolvedType κ)), ∀ rt ∈ current,
    Kept rt (nextEntry previous current)
  opensOnce : ∀ (first : List (ResolvedType κ)) (currents : Nat → List (ResolvedType κ))
    (side : Side) (m n : Nat), m < n →
    Opens side (entries first currents m) (entries first currents (m + 1)) →
    Opens side (entries first currents n) (entries first currents (n + 1)) →
    ∃ k, m < k ∧ k < n ∧ Closes side (entries first currents k) (currents k)
  settles : ∀ (first : List (ResolvedType κ)) (currents : Nat → List (ResolvedType κ))
    (start : Nat), (∀ n, start ≤ n → KeepsOpen (entries first currents n) (currents n)) →
    ∃ k, start ≤ k ∧ ∀ n, k ≤ n →
      intAlternativesHull (entries first currents n) =
        intAlternativesHull (entries first currents k)

/-- A pass keeps every integer and every other alternative, a bound that is
opened twice was closed in between, and without that the integers settle. -/
theorem widens (κ : Type) : Widens κ where
  admits _ _ _ hz h := admits_nextEntry hz h
  kept _ _ _ h := kept_nextEntry h
  opensOnce _ _ _ _ _ hmn hm hn := closed_between hmn hm hn
  settles _ _ _ hkeeps := ints_settle hkeeps

end

/-- A loop that comes back with `0|1` and with `0` in turn opens the upper
bound again and again. -/
theorem opens_twice_alternating :
    let zero : ResolvedType Unit := .fromTypeString (literalInt "0")
    let both : ResolvedType Unit := .fromTypeString (.union [literalInt "0", literalInt "1"])
    let entries := @entries Unit constantHasher [zero] fun n => if n % 2 = 0 then [both] else [zero]
    Opens .high (entries 0) (entries 1) ∧ Opens .high (entries 2) (entries 3) := by
  let zero : I64 := ⟨0, by decide⟩
  refine ⟨⟨⟨⟨some zero, some zero⟩, ?_, rfl⟩, ⟨some zero, none⟩, ?_, rfl⟩,
    ⟨⟨⟨some zero, some zero⟩, ?_, rfl⟩, ⟨some zero, none⟩, ?_, rfl⟩⟩
  all_goals decide +kernel

end Widening

end PhpantomLsp
