import PhpantomLsp.Lib.ExtendedInts
import PhpantomLsp.Text.Numbers
import Mathlib.Algebra.Order.Ring.Abs

/-!
# Integer intervals

The interval of integers a type can hold, and the arithmetic on its bounds.
A bound is an `i64` or missing; where a bound would leave `i64` it is dropped,
which widens the interval.  Every operation is sound for every combination of
ends (`intervals_sound`): the sum, difference or product of two integers lies
in the computed interval when it is an integer at all.
-/

namespace PhpantomLsp

open Text Lib

/-- An `i64`. -/
abbrev I64 := { z : Int // i64Min ≤ z ∧ z ≤ i64Max }

instance linearOrderI64 : LinearOrder I64 := @Subtype.instLinearOrder Int Int.instLinearOrder _

instance : Min I64 := linearOrderI64.toMin

instance : Max I64 := linearOrderI64.toMax

instance : DecidableLT I64 := linearOrderI64.toDecidableLT

/-- The value of a checked operation, or of `i64::try_from`. -/
def I64.checked (z : Int) : Option I64 := if h : i64Min ≤ z ∧ z ≤ i64Max then some ⟨z, h⟩ else none

theorem I64.checked_eq_some {z : Int} {w : I64} : I64.checked z = some w ↔ w.val = z := by
  unfold I64.checked
  constructor
  · intro h
    split at h
    · rw [← Option.some.inj h]
    · exact absurd h (by simp)
  · intro h
    have hz : i64Min ≤ z ∧ z ≤ i64Max := by
      rw [← h]
      exact w.2
    rw [dif_pos hz]
    exact congrArg some (Subtype.ext h.symm)

theorem I64.checked_eq_none {z : Int} : I64.checked z = none ↔ ¬ (i64Min ≤ z ∧ z ≤ i64Max) := by
  unfold I64.checked
  split <;> simp_all

/-- An inclusive interval of integers; a missing bound is unbounded. -/
structure IntInterval where
  min : Option I64
  max : Option I64
  deriving DecidableEq

namespace IntInterval

def unbounded : IntInterval := ⟨none, none⟩

def exact (value : I64) : IntInterval := ⟨some value, some value⟩

/-- The smallest interval covering both. -/
def hull (self other : IntInterval) : IntInterval where
  min := do
    let a ← self.min
    let b ← other.min
    return Min.min a b
  max := do
    let a ← self.max
    let b ← other.max
    return Max.max a b

/-- The tighter of two bounds, where a missing one is no bound. -/
def pick (tighter : I64 → I64 → I64) : Option I64 → Option I64 → Option I64
  | some a, some b => some (tighter a b)
  | bound, none => bound
  | none, bound => bound

/-- The integers both hold, or `none` when they share none. -/
def intersect (self other : IntInterval) : Option IntInterval :=
  let min := pick Max.max self.min other.min
  let max := pick Min.min self.max other.max
  match min, max with
  | some lo, some hi => if hi < lo then none else some ⟨some lo, some hi⟩
  | min, max => some ⟨min, max⟩

/-- `ordered_against`: the integers that are less (or greater) than a bound,
or equal to it; `none` for a bound past what an integer can reach. -/
def orderedAgainst (bound : I64) (less orEqual : Bool) : Option IntInterval :=
  match less, orEqual with
  | true, true => some ⟨none, some bound⟩
  | true, false => do
      let max ← I64.checked (bound.val - 1)
      return ⟨none, some max⟩
  | false, true => some ⟨some bound, none⟩
  | false, false => do
      let min ← I64.checked (bound.val + 1)
      return ⟨some min, none⟩

/-- `without_edge`: the interval with a value at one of its edges ruled out.
The outer `none` is a value that is no edge, the inner one that nothing is
left. -/
def withoutEdge (self : IntInterval) (value : I64) : Option (Option IntInterval) :=
  if self.min = some value ∧ self.max = some value then some none
  else if self.min = some value then do
    let min ← I64.checked (value.val + 1)
    return some ⟨some min, self.max⟩
  else if self.max = some value then do
    let max ← I64.checked (value.val - 1)
    return some ⟨self.min, some max⟩
  else none

/-- `hull_of`: the smallest interval covering all of a list. -/
def hullOf : List IntInterval → IntInterval
  | [] => unbounded
  | first :: rest => rest.foldl hull first

/-- `is_exceeded_by`: whether the other interval reaches below this one, and
whether it reaches above. -/
def isExceededBy (self other : IntInterval) : Bool × Bool :=
  let below := match self.min, other.min with
    | none, _ => false
    | some _, none => true
    | some mine, some theirs => decide (theirs < mine)
  let above := match self.max, other.max with
    | none, _ => false
    | some _, none => true
    | some mine, some theirs => decide (mine < theirs)
  (below, above)

def add (self other : IntInterval) : IntInterval where
  min := do
    let a ← self.min
    let b ← other.min
    I64.checked (a.val + b.val)
  max := do
    let a ← self.max
    let b ← other.max
    I64.checked (a.val + b.val)

def sub (self other : IntInterval) : IntInterval where
  min := do
    let a ← self.min
    let b ← other.max
    I64.checked (a.val - b.val)
  max := do
    let a ← self.max
    let b ← other.min
    I64.checked (a.val - b.val)

/-- `Bound::low` and `Bound::high`. -/
def low (bound : Option I64) : Bound := (bound.map fun v => Bound.finite v.val).getD .negInf
def high (bound : Option I64) : Bound := (bound.map fun v => Bound.finite v.val).getD .posInf

/-- `Bound::finite`: the end as an `i64`, or `none` past what one can hold. -/
def finite : Bound → Option I64
  | .finite v => I64.checked v
  | _ => none

/-- The four products of the ends. -/
def corners (self other : IntInterval) : List Bound :=
  Bound.corners (low self.min) (high self.max) (low other.min) (high other.max)

/-- The product: the extremes of the four corners. -/
def mul (self other : IntInterval) : IntInterval where
  min := finite ((corners self other).min?.getD .negInf)
  max := finite ((corners self other).max?.getD .posInf)

/-! ## The integers of an interval -/

def Contains (self : IntInterval) (z : Int) : Prop :=
  (∀ lo ∈ self.min, lo.val ≤ z) ∧ ∀ hi ∈ self.max, z ≤ hi.val

instance (self : IntInterval) (z : Int) : Decidable (self.Contains z) :=
  inferInstanceAs (Decidable (_ ∧ _))

@[simp] theorem contains_atMost {hi : I64} {z : Int} : Contains ⟨none, some hi⟩ z ↔ z ≤ hi.val := by
  constructor
  · intro h
    exact h.2 hi rfl
  · intro h
    exact ⟨by simp, fun other hother => (Option.some.inj hother) ▸ h⟩

@[simp] theorem contains_atLeast {lo : I64} {z : Int} : Contains ⟨some lo, none⟩ z ↔ lo.val ≤ z := by
  constructor
  · intro h
    exact h.1 lo rfl
  · intro h
    exact ⟨fun other hother => (Option.some.inj hother) ▸ h, by simp⟩

variable {A B : IntInterval} {x y : Int}

theorem contains_hull (h : A.Contains x ∨ B.Contains x) : (A.hull B).Contains x := by
  constructor
  · intro lo hlo
    obtain ⟨a, ha, hlo⟩ := Option.bind_eq_some_iff.mp hlo
    obtain ⟨b, hb, hlo⟩ := Option.bind_eq_some_iff.mp hlo
    have hmin : lo = Min.min a b := (Option.some.inj hlo).symm
    have ha' : lo.val ≤ a.val := hmin ▸ min_le_left a b
    have hb' : lo.val ≤ b.val := hmin ▸ min_le_right a b
    rcases h with h | h
    · exact ha'.trans (h.1 a ha)
    · exact hb'.trans (h.1 b hb)
  · intro hi hhi
    obtain ⟨a, ha, hhi⟩ := Option.bind_eq_some_iff.mp hhi
    obtain ⟨b, hb, hhi⟩ := Option.bind_eq_some_iff.mp hhi
    have hmax : hi = Max.max a b := (Option.some.inj hhi).symm
    have ha' : a.val ≤ hi.val := hmax ▸ le_max_left a b
    have hb' : b.val ≤ hi.val := hmax ▸ le_max_right a b
    rcases h with h | h
    · exact (h.2 a ha).trans ha'
    · exact (h.2 b hb).trans hb'

theorem contains_foldl_hull (intervals : List IntInterval) {first : IntInterval}
    (h : first.Contains x ∨ ∃ I ∈ intervals, I.Contains x) :
    (intervals.foldl hull first).Contains x := by
  induction intervals generalizing first with
  | nil => simpa using h
  | cons next rest ih =>
      rw [List.foldl_cons]
      apply ih
      rcases h with h | ⟨I, hI, h⟩
      · exact .inl (contains_hull (.inl h))
      · rcases List.mem_cons.mp hI with rfl | hI
        · exact .inl (contains_hull (.inr h))
        · exact .inr ⟨I, hI, h⟩

theorem contains_hullOf {intervals : List IntInterval} {I : IntInterval} (hI : I ∈ intervals)
    (h : I.Contains x) : (hullOf intervals).Contains x := by
  cases intervals with
  | nil => exact absurd hI (by simp)
  | cons first rest =>
      apply contains_foldl_hull
      rcases List.mem_cons.mp hI with rfl | hI
      · exact .inl h
      · exact .inr ⟨I, hI, h⟩

/-- A tighter bound is one where both are. -/
theorem pick_max {a b : Option I64} :
    (∀ lo ∈ pick Max.max a b, lo.val ≤ x) ↔ (∀ lo ∈ a, lo.val ≤ x) ∧ ∀ lo ∈ b, lo.val ≤ x := by
  cases a with
  | none => cases b <;> simp [pick]
  | some a =>
      cases b with
      | none => simp [pick]
      | some b =>
          have hmax : (Max.max a b).val = Max.max a.val b.val := by
            rcases le_total a b with h | h
            · rw [max_eq_right h, max_eq_right (show a.val ≤ b.val from h)]
            · rw [max_eq_left h, max_eq_left (show b.val ≤ a.val from h)]
          simp only [pick, Option.mem_some_iff, forall_eq', hmax]
          exact max_le_iff

theorem pick_min {a b : Option I64} :
    (∀ hi ∈ pick Min.min a b, x ≤ hi.val) ↔ (∀ hi ∈ a, x ≤ hi.val) ∧ ∀ hi ∈ b, x ≤ hi.val := by
  cases a with
  | none => cases b <;> simp [pick]
  | some a =>
      cases b with
      | none => simp [pick]
      | some b =>
          have hmin : (Min.min a b).val = Min.min a.val b.val := by
            rcases le_total a b with h | h
            · rw [min_eq_left h, min_eq_left (show a.val ≤ b.val from h)]
            · rw [min_eq_right h, min_eq_right (show b.val ≤ a.val from h)]
          simp only [pick, Option.mem_some_iff, forall_eq', hmin]
          exact le_min_iff

theorem contains_intersect :
    A.Contains x ∧ B.Contains x ↔ ∃ I ∈ A.intersect B, I.Contains x := by
  have hboth : A.Contains x ∧ B.Contains x ↔
      (⟨pick Max.max A.min B.min, pick Min.min A.max B.max⟩ : IntInterval).Contains x := by
    simp only [Contains, pick_max, pick_min]
    tauto
  rw [hboth]
  unfold intersect
  generalize pick Max.max A.min B.min = min, pick Min.min A.max B.max = max
  dsimp only
  split
  · rename_i lo hi
    by_cases hempty : hi < lo
    · rw [if_pos hempty]
      have hlt : hi.val < lo.val := hempty
      have hnot : ¬ (⟨some lo, some hi⟩ : IntInterval).Contains x := by
        intro h
        have hlo := h.1 lo rfl
        have hhi := h.2 hi rfl
        omega
      simp [hnot]
    · rw [if_neg hempty]
      simp
  · simp

/-- The bounds of a checked operation. -/
theorem contains_of_checked {f g : I64 → I64 → Int} {a b c d : Option I64} {z : I64}
    (hlo : ∀ u ∈ a, ∀ v ∈ b, f u v ≤ z.val) (hhi : ∀ u ∈ c, ∀ v ∈ d, z.val ≤ g u v) :
    (⟨a.bind fun u => b.bind fun v => I64.checked (f u v),
      c.bind fun u => d.bind fun v => I64.checked (g u v)⟩ : IntInterval).Contains z := by
  constructor
  · intro lo h
    obtain ⟨u, hu, h⟩ := Option.bind_eq_some_iff.mp h
    obtain ⟨v, hv, h⟩ := Option.bind_eq_some_iff.mp h
    rw [I64.checked_eq_some.mp h]
    exact hlo u hu v hv
  · intro hi h
    obtain ⟨u, hu, h⟩ := Option.bind_eq_some_iff.mp h
    obtain ⟨v, hv, h⟩ := Option.bind_eq_some_iff.mp h
    rw [I64.checked_eq_some.mp h]
    exact hhi u hu v hv

theorem contains_add {z : I64} (hx : A.Contains x) (hy : B.Contains y) (hz : z.val = x + y) :
    (A.add B).Contains z := by
  apply contains_of_checked
  · intro u hu v hv
    have hux := hx.1 u hu
    have hvy := hy.1 v hv
    omega
  · intro u hu v hv
    have hux := hx.2 u hu
    have hvy := hy.2 v hv
    omega

theorem contains_sub {z : I64} (hx : A.Contains x) (hy : B.Contains y) (hz : z.val = x - y) :
    (A.sub B).Contains z := by
  apply contains_of_checked
  · intro u hu v hv
    have hux := hx.1 u hu
    have hvy := hy.2 v hv
    omega
  · intro u hu v hv
    have hux := hx.2 u hu
    have hvy := hy.1 v hv
    omega

theorem low_le (h : A.Contains x) : low A.min ≤ .finite x := by
  cases hmin : A.min with
  | none => exact Bound.negInf_le _
  | some lo => exact Bound.finite_le_finite.mpr (h.1 lo hmin)

theorem le_high (h : A.Contains x) : .finite x ≤ high A.max := by
  cases hmax : A.max with
  | none => exact Bound.le_posInf _
  | some hi => exact Bound.finite_le_finite.mpr (h.2 hi hmax)

/-- What is not below one of the corners is not below their minimum. -/
theorem min?_le {ends : List Bound} {c : Bound} (hc : c ∈ ends) (d : Bound) :
    ends.min?.getD d ≤ c := by
  cases hmin : ends.min? with
  | none =>
      rw [List.min?_eq_none_iff.mp hmin] at hc
      exact absurd hc (by simp)
  | some m => exact (List.le_min?_iff hmin).mp (le_refl m) c hc

theorem le_max? {ends : List Bound} {c : Bound} (hc : c ∈ ends) (d : Bound) :
    c ≤ ends.max?.getD d := by
  cases hmax : ends.max? with
  | none =>
      rw [List.max?_eq_none_iff.mp hmax] at hc
      exact absurd hc (by simp)
  | some m => exact (List.max?_le_iff hmax).mp (le_refl m) c hc

theorem eq_of_mem_finite {b : Bound} {w : I64} (h : w ∈ finite b) : b = .finite w.val := by
  cases b with
  | negInf => exact absurd h (by simp [finite])
  | posInf => exact absurd h (by simp [finite])
  | finite v => rw [I64.checked_eq_some.mp h]

theorem contains_mul {z : I64} (hx : A.Contains x) (hy : B.Contains y) (hz : z.val = x * y) :
    (A.mul B).Contains z := by
  have hproduct : Bound.mul (.finite x) (.finite y) = .finite z.val := congrArg Bound.finite hz.symm
  constructor
  · intro lo hlo
    obtain ⟨c, hc, hle⟩ := Bound.corner_le (low_le hx) (le_high hx) (low_le hy) (le_high hy)
    have hmin := (min?_le hc .negInf).trans hle
    rw [show (Bound.corners _ _ _ _).min?.getD _ = .finite lo.val from eq_of_mem_finite hlo,
      hproduct] at hmin
    exact Bound.finite_le_finite.mp hmin
  · intro hi hhi
    obtain ⟨c, hc, hle⟩ := Bound.le_corner (low_le hx) (le_high hx) (low_le hy) (le_high hy)
    have hmax := hle.trans (le_max? hc .posInf)
    rw [show (Bound.corners _ _ _ _).max?.getD _ = .finite hi.val from eq_of_mem_finite hhi,
      hproduct] at hmax
    exact Bound.finite_le_finite.mp hmax

/-! ## Comparison -/

theorem contains_orderedAgainst {bound x : I64} {less orEqual : Bool} :
    (∃ I ∈ orderedAgainst bound less orEqual, I.Contains x) ↔
      if less then (if orEqual then x.val ≤ bound.val else x.val < bound.val)
      else if orEqual then bound.val ≤ x.val else bound.val < x.val := by
  have hbound := bound.2
  have hx := x.2
  cases less with
  | true =>
      cases orEqual with
      | true => simp only [orderedAgainst, Option.mem_def, Option.some.injEq, exists_eq_left',
          contains_atMost, if_true]
      | false =>
          cases hmax : I64.checked (bound.val - 1) with
          | none =>
              have hpast := I64.checked_eq_none.mp hmax
              simp only [orderedAgainst, hmax, Option.bind_eq_bind, Option.bind_none,
                Option.mem_def, reduceCtorEq, false_and, exists_false, if_true, if_false,
                Bool.false_eq_true, false_iff]
              omega
          | some max =>
              have hval := I64.checked_eq_some.mp hmax
              simp only [orderedAgainst, hmax, Option.bind_eq_bind, Option.bind_some,
                Option.pure_def, Option.mem_def, Option.some.injEq, exists_eq_left',
                contains_atMost, if_true, if_false, Bool.false_eq_true]
              omega
  | false =>
      cases orEqual with
      | true => simp only [orderedAgainst, Option.mem_def, Option.some.injEq, exists_eq_left',
          contains_atLeast, if_true, if_false, Bool.false_eq_true]
      | false =>
          cases hmin : I64.checked (bound.val + 1) with
          | none =>
              have hpast := I64.checked_eq_none.mp hmin
              simp only [orderedAgainst, hmin, Option.bind_eq_bind, Option.bind_none,
                Option.mem_def, reduceCtorEq, false_and, exists_false, if_false,
                Bool.false_eq_true, false_iff]
              omega
          | some min =>
              have hval := I64.checked_eq_some.mp hmin
              simp only [orderedAgainst, hmin, Option.bind_eq_bind, Option.bind_some,
                Option.pure_def, Option.mem_def, Option.some.injEq, exists_eq_left',
                contains_atLeast, if_false, Bool.false_eq_true]
              omega

theorem contains_withoutEdge {value x : I64} {kept : Option IntInterval}
    (h : A.withoutEdge value = some kept) :
    (∃ I ∈ kept, I.Contains x) ↔ A.Contains x ∧ x ≠ value := by
  have hne : x ≠ value ↔ x.val ≠ value.val := not_congr Subtype.ext_iff
  unfold withoutEdge at h
  split_ifs at h with hboth hmin hmax
  · obtain rfl : kept = none := (Option.some.inj h).symm
    simp only [Contains, hboth.1, hboth.2, Option.mem_def, reduceCtorEq, false_and, exists_false,
      Option.some.injEq, forall_eq', hne, false_iff]
    omega
  · obtain ⟨min, hchecked, h⟩ := Option.bind_eq_some_iff.mp h
    obtain rfl : kept = some ⟨some min, A.max⟩ := (Option.some.inj h).symm
    have hval := I64.checked_eq_some.mp hchecked
    simp only [Contains, hmin, Option.mem_def, Option.some.injEq, exists_eq_left', forall_eq', hne,
      hval]
    constructor
    · rintro ⟨hlo, hhi⟩
      exact ⟨⟨by omega, hhi⟩, by omega⟩
    · rintro ⟨⟨hlo, hhi⟩, hvalue⟩
      exact ⟨by omega, hhi⟩
  · obtain ⟨max, hchecked, h⟩ := Option.bind_eq_some_iff.mp h
    obtain rfl : kept = some ⟨A.min, some max⟩ := (Option.some.inj h).symm
    have hval := I64.checked_eq_some.mp hchecked
    simp only [Contains, hmax, Option.mem_def, Option.some.injEq, exists_eq_left', forall_eq', hne,
      hval]
    constructor
    · rintro ⟨hlo, hhi⟩
      exact ⟨⟨hlo, by omega⟩, by omega⟩
    · rintro ⟨⟨hlo, hhi⟩, hvalue⟩
      exact ⟨hlo, by omega⟩

/-- On a side where it is not exceeded, an interval keeps its bound against
every integer of the other. -/
theorem isExceededBy_sound :
    ((A.isExceededBy B).1 = false → B.Contains x → ∀ lo ∈ A.min, lo.val ≤ x) ∧
      ((A.isExceededBy B).2 = false → B.Contains x → ∀ hi ∈ A.max, x ≤ hi.val) := by
  constructor
  · intro h hx lo hlo
    rw [Option.mem_def] at hlo
    cases hmin : B.min with
    | none => simp [isExceededBy, hlo, hmin] at h
    | some theirs =>
        have hle : lo.val ≤ theirs.val := by
          simpa [isExceededBy, hlo, hmin] using h
        exact hle.trans (hx.1 theirs hmin)
  · intro h hx hi hhi
    rw [Option.mem_def] at hhi
    cases hmax : B.max with
    | none => simp [isExceededBy, hhi, hmax] at h
    | some theirs =>
        have hle : theirs.val ≤ hi.val := by
          simpa [isExceededBy, hhi, hmax] using h
        exact (hx.2 theirs hmax).trans hle

/-! ## Overflow -/

/-- `i128::MIN` and `i128::MAX`. -/
def i128Min : Int := -170141183460469231731687303715884105728
def i128Max : Int := 170141183460469231731687303715884105727

/-- An end with a value has that of an `i64`. -/
theorem low_fits {bound : Option I64} {v : Int} (h : low bound = .finite v) :
    i64Min ≤ v ∧ v ≤ i64Max := by
  cases bound with
  | none => exact absurd h (by simp [low])
  | some w =>
      obtain rfl : w.val = v := by simpa [low] using h
      exact w.2

theorem high_fits {bound : Option I64} {v : Int} (h : high bound = .finite v) :
    i64Min ≤ v ∧ v ≤ i64Max := by
  cases bound with
  | none => exact absurd h (by simp [high])
  | some w =>
      obtain rfl : w.val = v := by simpa [high] using h
      exact w.2

theorem mul_fits {a b : Bound} {v : Int} (h : Bound.mul a b = .finite v)
    (ha : ∀ u, a = .finite u → i64Min ≤ u ∧ u ≤ i64Max)
    (hb : ∀ u, b = .finite u → i64Min ≤ u ∧ u ≤ i64Max) : i128Min ≤ v ∧ v ≤ i128Max := by
  by_cases hfinite : ∃ u w, a = .finite u ∧ b = .finite w
  · obtain ⟨u, w, rfl, rfl⟩ := hfinite
    obtain rfl : u * w = v := by simpa [Bound.mul] using h
    have hu : |u| ≤ 2 ^ 63 := by
      have := ha u rfl
      simp only [i64Min, i64Max] at this
      rw [abs_le]
      omega
    have hw : |w| ≤ 2 ^ 63 := by
      have := hb w rfl
      simp only [i64Min, i64Max] at this
      rw [abs_le]
      omega
    have hproduct : |u * w| ≤ 2 ^ 63 * 2 ^ 63 := by
      rw [abs_mul]
      exact mul_le_mul hu hw (abs_nonneg w) (by decide)
    have hbounds := abs_le.mp hproduct
    simp only [i128Min, i128Max]
    omega
  · -- an infinite end is multiplied by signs alone
    have hsign : ∃ s, Bound.ofSign s = .finite v := by
      cases a <;> cases b <;> first | exact ⟨_, h⟩ | exact absurd ⟨_, _, rfl, rfl⟩ hfinite
    obtain ⟨s, hs⟩ := hsign
    unfold Bound.ofSign at hs
    split_ifs at hs
    obtain rfl : 0 = v := by simpa using hs
    decide

/-- The product of two ends is an `i128`. -/
theorem corners_fit {v : Int} (h : .finite v ∈ corners A B) : i128Min ≤ v ∧ v ≤ i128Max := by
  simp only [corners, Bound.corners, List.mem_cons, List.not_mem_nil, or_false] at h
  rcases h with h | h | h | h
  · exact mul_fits h.symm (fun _ => low_fits) (fun _ => low_fits)
  · exact mul_fits h.symm (fun _ => low_fits) (fun _ => high_fits)
  · exact mul_fits h.symm (fun _ => high_fits) (fun _ => low_fits)
  · exact mul_fits h.symm (fun _ => high_fits) (fun _ => high_fits)

/-! ## Soundness -/

/-- What the operations on two intervals answer about their integers.  The
bounds of every result are of type `I64`; the only bounds that are ever wider
are the corners of a product. -/
structure Sound (A B : IntInterval) : Prop where
  add : ∀ x y z : I64, A.Contains x → B.Contains y → z.val = x + y → (A.add B).Contains z
  sub : ∀ x y z : I64, A.Contains x → B.Contains y → z.val = x - y → (A.sub B).Contains z
  mul : ∀ x y z : I64, A.Contains x → B.Contains y → z.val = x * y → (A.mul B).Contains z
  corners : ∀ v, .finite v ∈ corners A B → i128Min ≤ v ∧ v ≤ i128Max
  intersect : ∀ x : I64, (∃ I ∈ A.intersect B, I.Contains x) ↔ A.Contains x ∧ B.Contains x
  hull : ∀ x : I64, A.Contains x ∨ B.Contains x → (A.hull B).Contains x
  hullOf : ∀ intervals, A ∈ intervals → ∀ x : I64, A.Contains x → (hullOf intervals).Contains x
  orderedAgainst : ∀ (bound : I64) (less orEqual : Bool) (x : I64),
    (∃ I ∈ orderedAgainst bound less orEqual, I.Contains x) ↔
      if less then (if orEqual then x.val ≤ bound.val else x.val < bound.val)
      else if orEqual then bound.val ≤ x.val else bound.val < x.val
  withoutEdge : ∀ (value : I64) kept, A.withoutEdge value = some kept → ∀ x : I64,
    (∃ I ∈ kept, I.Contains x) ↔ A.Contains x ∧ x ≠ value
  notExceededBelow : (A.isExceededBy B).1 = false →
    ∀ y : I64, B.Contains y → ∀ lo ∈ A.min, lo.val ≤ y
  notExceededAbove : (A.isExceededBy B).2 = false →
    ∀ y : I64, B.Contains y → ∀ hi ∈ A.max, y ≤ hi.val

/-- The arithmetic of intervals is sound for all pairs of them. -/
theorem intervals_sound (A B : IntInterval) : A.Sound B where
  add _ _ _ hx hy hz := contains_add hx hy hz
  sub _ _ _ hx hy hz := contains_sub hx hy hz
  mul _ _ _ hx hy hz := contains_mul hx hy hz
  corners _ h := corners_fit h
  intersect _ := contains_intersect.symm
  hull _ h := contains_hull h
  hullOf _ hmem _ h := contains_hullOf hmem h
  orderedAgainst _ _ _ _ := contains_orderedAgainst
  withoutEdge _ _ h _ := contains_withoutEdge h
  notExceededBelow h _ hy := isExceededBy_sound.1 h hy
  notExceededAbove h _ hy := isExceededBy_sound.2 h hy

end IntInterval

end PhpantomLsp
