import PhpantomLsp.Lib.Intervals
import Mathlib.Order.MinMax

/-!
# What a merge of intervals keeps

The merge of a list of intervals holds exactly the integers the list holds
(`mem_mergeIntervals`), and between two of the merged intervals lies an integer
neither of them holds (`apart_mergeIntervals`).  An empty interval is merged
like any other; the two facts hold of it as well.
-/

namespace PhpantomLsp.Lib

namespace Interval

/-- Some integer lies between `a` and the later `b`. -/
def Apart (a b : Interval) : Prop := ∃ hi ∈ a.max, ∃ lo ∈ b.min, hi + 1 < lo

variable {a b c : Interval} {z : Int}

theorem startsBefore_refl (a : Interval) : startsBefore a a :=
  startsBefore_iff.mpr fun lo hlo => ⟨lo, hlo, le_refl lo⟩

theorem startsBefore_trans (hab : startsBefore a b) (hbc : startsBefore b c) :
    startsBefore a c := by
  rw [startsBefore_iff] at *
  intro lo hlo
  obtain ⟨lo', hlo', hle⟩ := hab lo hlo
  obtain ⟨lo'', hlo'', hle'⟩ := hbc lo' hlo'
  exact ⟨lo'', hlo'', hle.trans hle'⟩

theorem startsBefore_total (a b : Interval) : startsBefore a b ∨ startsBefore b a := by
  unfold startsBefore
  cases a.min with
  | none => exact .inl trivial
  | some x =>
      cases b.min with
      | none => exact .inr trivial
      | some y => exact Int.le_total x y

instance : Std.Total startsBefore := ⟨startsBefore_total⟩

instance : IsTrans Interval startsBefore := ⟨fun _ _ _ => startsBefore_trans⟩

theorem touches_eq_false : a.touches b = false ↔ Apart a b := by
  unfold touches Apart
  cases a.max <;> cases b.min <;> simp

theorem apart_of_startsBefore (h : Apart a b) (hbc : startsBefore b c) : Apart a c := by
  obtain ⟨hi, hhi, lo, hlo, hlt⟩ := h
  obtain ⟨lo', hlo', hle⟩ := startsBefore_iff.mp hbc lo hlo
  exact ⟨hi, hhi, lo', hlo', hlt.trans_le hle⟩

theorem extend_min : (a.extend b).min = a.min := rfl

/-- The larger of two upper bounds is one of them. -/
theorem mem_max_extend {hi : Int} (h : hi ∈ (a.extend b).max) : hi ∈ a.max ∨ hi ∈ b.max := by
  unfold extend at h
  dsimp only at h
  split at h
  · rename_i x y hx hy
    rw [← Option.some.inj h]
    rcases max_choice x y with hchoice | hchoice
    · exact .inl (hx.trans (congrArg some hchoice.symm))
    · exact .inr (hy.trans (congrArg some hchoice.symm))
  · exact absurd h (by simp)

theorem startsBefore_extend (h : startsBefore a c) : startsBefore (a.extend b) c := by
  rw [startsBefore_iff, extend_min]
  exact startsBefore_iff.mp h

/-- Growing an interval over one that touches it adds the integers of that
one. -/
theorem contains_extend (hstart : startsBefore a b) (htouch : a.touches b = true) :
    (a.extend b).Contains z ↔ a.Contains z ∨ b.Contains z := by
  -- what is past `a` begins no earlier than `b`
  have hpast : ∀ hi ∈ a.max, hi < z → ∀ lo ∈ b.min, lo ≤ z := by
    intro hi hhi hlt lo hlo
    by_contra hnot
    have hapart : Apart a b := ⟨hi, hhi, lo, hlo, by omega⟩
    rw [← touches_eq_false, htouch] at hapart
    exact absurd hapart (by simp)
  have hfrom : (∀ lo ∈ b.min, lo ≤ z) → ∀ lo ∈ a.min, lo ≤ z := by
    intro h lo hlo
    obtain ⟨lo', hlo', hle⟩ := startsBefore_iff.mp hstart lo hlo
    exact hle.trans (h lo' hlo')
  constructor
  · rintro ⟨hlo, hhi⟩
    rw [extend_min] at hlo
    by_cases hin : ∀ hi ∈ a.max, z ≤ hi
    · exact .inl ⟨hlo, hin⟩
    · push Not at hin
      obtain ⟨hi, hmax, hlt⟩ := hin
      refine .inr ⟨hpast hi hmax hlt, fun hi' hhi' => ?_⟩
      rw [Option.mem_def] at hmax hhi'
      have hle := hhi (Max.max hi hi') (by simp [extend, hmax, hhi'])
      omega
  · intro h
    constructor
    · rw [extend_min]
      rcases h with h | h
      · exact h.1
      · exact hfrom h.1
    · intro hi hhi
      unfold extend at hhi
      dsimp only at hhi
      split at hhi
      · rename_i x y hx hy
        rw [← Option.some.inj hhi]
        rcases h with h | h
        · exact (h.2 x hx).trans (le_max_left x y)
        · exact (h.2 y hy).trans (le_max_right x y)
      · exact absurd hhi (by simp)

/-- What lies between two intervals keeps their integers apart. -/
theorem lt_of_apart {w : Int} (h : Apart a b) (ha : a.Contains z) (hb : b.Contains w) :
    z + 1 < w := by
  obtain ⟨hi, hhi, lo, hlo, hlt⟩ := h
  have hle := ha.2 hi hhi
  have hge := hb.1 lo hlo
  omega

end Interval

open Interval

/-! ## The merge of a sorted list -/

section

variable {last : Interval} {rest : List Interval} {z : Int}

theorem pairwise_extend {next : Interval} (h : (last :: next :: rest).Pairwise startsBefore) :
    (last.extend next :: rest).Pairwise startsBefore := by
  obtain ⟨hlast, hrest⟩ := List.pairwise_cons.mp h
  refine List.pairwise_cons.mpr ⟨fun j hj => ?_, (List.pairwise_cons.mp hrest).2⟩
  exact startsBefore_extend (hlast j (by simp [hj]))

theorem startsBefore_mem_mergeFrom (hsorted : (last :: rest).Pairwise startsBefore) :
    ∀ i ∈ mergeFrom last rest, startsBefore last i := by
  induction rest generalizing last with
  | nil => simp [mergeFrom, startsBefore_refl]
  | cons next rest ih =>
      intro i hi
      obtain ⟨hlast, hrest⟩ := List.pairwise_cons.mp hsorted
      rw [mergeFrom] at hi
      split at hi
      · exact startsBefore_iff.mpr (startsBefore_iff.mp (ih (pairwise_extend hsorted) i hi))
      · rcases List.mem_cons.mp hi with rfl | hi
        · exact startsBefore_refl i
        · exact startsBefore_trans (hlast next (by simp)) (ih hrest i hi)

theorem mem_mergeFrom (hsorted : (last :: rest).Pairwise startsBefore) :
    (∃ i ∈ mergeFrom last rest, i.Contains z) ↔ ∃ i ∈ last :: rest, i.Contains z := by
  induction rest generalizing last with
  | nil => simp [mergeFrom]
  | cons next rest ih =>
      obtain ⟨hlast, hrest⟩ := List.pairwise_cons.mp hsorted
      rw [mergeFrom]
      split
      · rename_i htouch
        rw [ih (pairwise_extend hsorted)]
        simp only [List.mem_cons, exists_eq_or_imp, contains_extend (hlast next (by simp)) htouch,
          or_assoc]
      · simp only [List.mem_cons, exists_eq_or_imp, ih hrest]

theorem apart_mergeFrom (hsorted : (last :: rest).Pairwise startsBefore) :
    (mergeFrom last rest).Pairwise Apart := by
  induction rest generalizing last with
  | nil => simp [mergeFrom]
  | cons next rest ih =>
      have hrest := (List.pairwise_cons.mp hsorted).2
      rw [mergeFrom]
      split
      · exact ih (pairwise_extend hsorted)
      · rename_i htouch
        refine List.pairwise_cons.mpr ⟨fun i hi => ?_, ih hrest⟩
        exact apart_of_startsBefore (touches_eq_false.mp (Bool.not_eq_true _ ▸ htouch))
          (startsBefore_mem_mergeFrom hrest i hi)

theorem length_mergeFrom_iff :
    (mergeFrom last rest).length = rest.length + 1 ↔
      (last :: rest).IsChain fun a b => a.touches b = false := by
  induction rest generalizing last with
  | nil => simp [mergeFrom]
  | cons next rest ih =>
      rw [mergeFrom, List.isChain_cons_cons]
      split
      · rename_i htouch
        have hle := length_mergeFrom_le (last.extend next) rest
        simp only [List.length_cons, htouch, Bool.true_eq_false, false_and, iff_false]
        omega
      · rename_i htouch
        simp only [Bool.not_eq_true] at htouch
        rw [List.length_cons, List.length_cons, htouch, Nat.add_right_cancel_iff, ih]
        simp

/-- Where no interval reaches the next one the merge is the list. -/
theorem mergeFrom_of_chain (h : (last :: rest).IsChain fun a b => a.touches b = false) :
    mergeFrom last rest = last :: rest := by
  induction rest generalizing last with
  | nil => rfl
  | cons next rest ih =>
      obtain ⟨hnext, hrest⟩ := List.isChain_cons_cons.mp h
      rw [mergeFrom, if_neg (by simp [hnext]), ih hrest]

/-- The bounds of the merge are bounds of the list. -/
theorem bounds_mergeFrom {i : Interval} (hi : i ∈ mergeFrom last rest) :
    (∀ lo ∈ i.min, ∃ j ∈ last :: rest, lo ∈ j.min) ∧
      ∀ hi ∈ i.max, ∃ j ∈ last :: rest, hi ∈ j.max := by
  induction rest generalizing last with
  | nil =>
      rw [mergeFrom, List.mem_singleton] at hi
      rw [hi]
      simp
  | cons next rest ih =>
      rw [mergeFrom] at hi
      split at hi
      · obtain ⟨hmin, hmax⟩ := ih hi
        constructor
        · intro lo hlo
          obtain ⟨j, hj, hlo⟩ := hmin lo hlo
          rcases List.mem_cons.mp hj with rfl | hj
          · exact ⟨last, by simp, hlo⟩
          · exact ⟨j, by simp [hj], hlo⟩
        · intro top htop
          obtain ⟨j, hj, htop⟩ := hmax top htop
          rcases List.mem_cons.mp hj with rfl | hj
          · rcases mem_max_extend htop with htop | htop
            · exact ⟨last, by simp, htop⟩
            · exact ⟨next, by simp, htop⟩
          · exact ⟨j, by simp [hj], htop⟩
      · rcases List.mem_cons.mp hi with rfl | hi
        · exact ⟨fun lo hlo => ⟨i, by simp, hlo⟩, fun hi hhi => ⟨i, by simp, hhi⟩⟩
        · obtain ⟨hmin, hmax⟩ := ih hi
          refine ⟨fun lo hlo => ?_, fun hi hhi => ?_⟩
          · obtain ⟨j, hj, hlo⟩ := hmin lo hlo
            exact ⟨j, List.mem_cons_of_mem _ hj, hlo⟩
          · obtain ⟨j, hj, hhi⟩ := hmax hi hhi
            exact ⟨j, List.mem_cons_of_mem _ hj, hhi⟩

end

/-! ## The merge of a list -/

section

variable {intervals : List Interval} {z : Int}

/-- Sorted by their starts, no interval reaches the next one. -/
def NoneTouch (intervals : List Interval) : Prop :=
  (intervals.insertionSort startsBefore).IsChain fun a b => a.touches b = false

instance (intervals : List Interval) : Decidable (NoneTouch intervals) :=
  inferInstanceAs (Decidable (List.IsChain _ _))

theorem mem_sorted {i : Interval} :
    i ∈ intervals.insertionSort startsBefore ↔ i ∈ intervals :=
  (List.perm_insertionSort _ _).mem_iff

theorem mem_mergeIntervals :
    (∃ i ∈ mergeIntervals intervals, i.Contains z) ↔ ∃ i ∈ intervals, i.Contains z := by
  have hsorted := List.pairwise_insertionSort startsBefore intervals
  have hmem : (∃ i ∈ intervals, i.Contains z) ↔
      ∃ i ∈ intervals.insertionSort startsBefore, i.Contains z := by simp only [mem_sorted]
  rw [hmem, mergeIntervals]
  generalize intervals.insertionSort startsBefore = sorted at hsorted
  cases sorted with
  | nil => simp
  | cons first rest => exact mem_mergeFrom hsorted

theorem apart_mergeIntervals : (mergeIntervals intervals).Pairwise Apart := by
  have hsorted := List.pairwise_insertionSort startsBefore intervals
  rw [mergeIntervals]
  generalize intervals.insertionSort startsBefore = sorted at hsorted
  cases sorted with
  | nil => simp
  | cons first rest => exact apart_mergeFrom hsorted

theorem length_mergeIntervals_iff :
    (mergeIntervals intervals).length = intervals.length ↔ NoneTouch intervals := by
  have hlength := List.length_insertionSort startsBefore intervals
  rw [mergeIntervals, NoneTouch]
  generalize intervals.insertionSort startsBefore = sorted at hlength
  cases sorted with
  | nil =>
      rw [← hlength]
      simp
  | cons first rest =>
      rw [← hlength]
      exact length_mergeFrom_iff

theorem bounds_mergeIntervals {i : Interval} (hi : i ∈ mergeIntervals intervals) :
    (∀ lo ∈ i.min, ∃ j ∈ intervals, lo ∈ j.min) ∧ ∀ hi ∈ i.max, ∃ j ∈ intervals, hi ∈ j.max := by
  have hmem := @mem_sorted intervals
  rw [mergeIntervals] at hi
  generalize intervals.insertionSort startsBefore = sorted at hi hmem
  cases sorted with
  | nil => exact absurd hi (by simp)
  | cons first rest =>
      obtain ⟨hmin, hmax⟩ := bounds_mergeFrom hi
      refine ⟨fun lo hlo => ?_, fun hi hhi => ?_⟩
      · obtain ⟨j, hj, hlo⟩ := hmin lo hlo
        exact ⟨j, hmem.mp hj, hlo⟩
      · obtain ⟨j, hj, hhi⟩ := hmax hi hhi
        exact ⟨j, hmem.mp hj, hhi⟩

/-- Where nothing is merged, an integer lies between any two intervals of the
list, in one order or the other. -/
theorem apart_of_noneTouch (h : NoneTouch intervals) :
    intervals.Pairwise fun a b => Apart a b ∨ Apart b a := by
  have hmerged : (mergeIntervals intervals).Perm intervals := by
    have hperm := List.perm_insertionSort startsBefore intervals
    unfold NoneTouch at h
    rw [mergeIntervals]
    generalize intervals.insertionSort startsBefore = sorted at h hperm
    cases sorted with
    | nil => exact hperm
    | cons first rest =>
        rw [← mergeFrom_of_chain h] at hperm
        exact hperm
  have hapart : (mergeIntervals intervals).Pairwise fun a b => Apart a b ∨ Apart b a :=
    apart_mergeIntervals.imp Or.inl
  exact (hmerged.pairwise_iff fun h => h.symm).mp hapart

/-! ## The successor of a bound

The merge over integers of a bounded width: the one sum it computes is the
successor of an upper bound, and `succ` may refuse it. -/

def touchesBy (succ : Int → Option Int) (a b : Interval) : Option Bool :=
  match a.max, b.min with
  | some hi, some lo => (succ hi).map fun next => decide (lo ≤ next)
  | _, _ => some true

def mergeFromBy (succ : Int → Option Int) (last : Interval) : List Interval → Option (List Interval)
  | [] => some [last]
  | next :: rest => do
      if ← touchesBy succ last next then mergeFromBy succ (last.extend next) rest
      else return last :: (← mergeFromBy succ next rest)

def mergeIntervalsBy (succ : Int → Option Int) (intervals : List Interval) :
    Option (List Interval) :=
  match intervals.insertionSort Interval.startsBefore with
  | [] => some []
  | first :: rest => mergeFromBy succ first rest

variable {succ : Int → Option Int} {last : Interval} {rest : List Interval}

theorem mergeFromBy_eq (h : ∀ i ∈ last :: rest, ∀ hi ∈ i.max, succ hi = some (hi + 1)) :
    mergeFromBy succ last rest = some (mergeFrom last rest) := by
  induction rest generalizing last with
  | nil => rfl
  | cons next rest ih =>
      have htouches : touchesBy succ last next = some (last.touches next) := by
        unfold touchesBy touches
        cases hmax : last.max with
        | none => rfl
        | some hi =>
            cases next.min with
            | none => rfl
            | some lo => simp [h last (by simp) hi hmax]
      have hrest : ∀ i ∈ next :: rest, ∀ hi ∈ i.max, succ hi = some (hi + 1) :=
        fun i hi => h i (List.mem_cons_of_mem _ hi)
      have hgrown : ∀ i ∈ last.extend next :: rest, ∀ hi ∈ i.max, succ hi = some (hi + 1) := by
        intro i hi top htop
        rcases List.mem_cons.mp hi with rfl | hi
        · rcases mem_max_extend htop with htop | htop
          · exact h last (by simp) top htop
          · exact h next (by simp) top htop
        · exact h i (by simp [hi]) top htop
      rw [mergeFromBy, mergeFrom, htouches, ih hgrown, ih hrest]
      cases last.touches next <;> rfl

/-- Where each upper bound has a successor the merge does not fail. -/
theorem mergeIntervalsBy_eq (h : ∀ i ∈ intervals, ∀ hi ∈ i.max, succ hi = some (hi + 1)) :
    mergeIntervalsBy succ intervals = some (mergeIntervals intervals) := by
  have hmem := @mem_sorted intervals
  rw [mergeIntervalsBy, mergeIntervals]
  generalize intervals.insertionSort startsBefore = sorted at hmem
  cases sorted with
  | nil => rfl
  | cons first rest => exact mergeFromBy_eq fun i hi => h i (hmem.mp hi)

end

end PhpantomLsp.Lib
