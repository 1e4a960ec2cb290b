import Mathlib.Data.List.Basic

/-!
# The partition point of a list

Where everything that satisfies a condition stands before everything that does not, a
binary search finds how many do (`partitionPoint_eq`).
-/

namespace PhpantomLsp.Lib

variable {α : Type*}

/-- The search between `base` and `base + size`: the half that still holds the partition
point is kept. -/
def narrow (pred : α → Bool) (xs : List α) (size base : Nat) : Nat :=
  if 1 < size then
    if xs[base + size / 2]?.any pred then
      narrow pred xs (size - size / 2) (base + size / 2)
    else narrow pred xs (size - size / 2) base
  else base
  termination_by size

/-- `slice::partition_point`. -/
def partitionPoint (pred : α → Bool) (xs : List α) : Nat :=
  if xs.length = 0 then 0
  else if xs[narrow pred xs xs.length 0]?.any pred then narrow pred xs xs.length 0 + 1
  else narrow pred xs xs.length 0

/-- The condition holds of the first `k` items and of no other. -/
structure Partitioned (pred : α → Bool) (xs : List α) (k : Nat) : Prop where
  le : k ≤ xs.length
  iff : ∀ i, xs[i]?.any pred = true ↔ i < k

variable {pred : α → Bool} {xs : List α} {k : Nat}

/-- What stays true of the part searched: the point is in it. -/
structure Encloses (k base size : Nat) : Prop where
  low : base = 0 ∨ base < k
  high : k ≤ base + size

theorem Partitioned.narrow (h : Partitioned pred xs k) {size base : Nat} (hsize : 0 < size)
    (hin : Encloses k base size) : Encloses k (narrow pred xs size base) 1 := by
  induction size using Nat.strongRecOn generalizing base with
  | ind size ih =>
      unfold Lib.narrow
      by_cases hgt : 1 < size
      · have hlt : size - size / 2 < size := by omega
        have hpos : 0 < size - size / 2 := by omega
        have hhigh := hin.high
        rw [if_pos hgt]
        by_cases hmid : xs[base + size / 2]?.any pred = true
        · rw [if_pos hmid]
          have hk := (h.iff _).mp hmid
          exact ih _ hlt hpos ⟨.inr hk, by omega⟩
        · rw [if_neg hmid]
          have hk := mt (h.iff _).mpr hmid
          exact ih _ hlt hpos ⟨hin.low, by omega⟩
      · rw [if_neg hgt]
        have hone : size = 1 := by omega
        rwa [hone] at hin

theorem partitionPoint_eq (h : Partitioned pred xs k) : partitionPoint pred xs = k := by
  have hle := h.le
  rw [partitionPoint]
  by_cases hempty : xs.length = 0
  · rw [if_pos hempty]
    omega
  · rw [if_neg hempty]
    have hin : Encloses k (narrow pred xs xs.length 0) 1 :=
      h.narrow (by omega) ⟨.inl rfl, by omega⟩
    have hhigh := hin.high
    by_cases hlast : xs[narrow pred xs xs.length 0]?.any pred = true
    · rw [if_pos hlast]
      have hlt := (h.iff _).mp hlast
      omega
    · rw [if_neg hlast]
      have hge := mt (h.iff _).mpr hlast
      have hlow := hin.low
      omega

/-- A list in ascending order is partitioned by every bound. -/
theorem partitioned_of_pairwise {key : α → Nat} {bound : Nat}
    (hsorted : xs.Pairwise fun x y => key x < key y) :
    Partitioned (fun x => decide (key x ≤ bound)) xs
      (xs.countP fun x => decide (key x ≤ bound)) := by
  refine ⟨List.countP_le_length, ?_⟩
  induction xs with
  | nil => simp
  | cons x rest ih =>
      have hrest := ih hsorted.of_cons
      have hfirst := (List.pairwise_cons.mp hsorted).1
      intro i
      by_cases hx : key x ≤ bound
      · rw [List.countP_cons_of_pos (by simpa using hx)]
        cases i with
        | zero => simpa using hx
        | succ i => rw [List.getElem?_cons_succ, hrest i, Nat.succ_lt_succ_iff]
      · rw [List.countP_cons_of_neg (by simpa using hx)]
        -- everything behind is greater still
        have hnone : rest.countP (fun y => decide (key y ≤ bound)) = 0 := by
          rw [List.countP_eq_zero]
          intro y hy
          have hlt := hfirst y hy
          simp only [decide_eq_true_eq]
          omega
        cases i with
        | zero =>
            rw [hnone]
            simpa using hx
        | succ i =>
            rw [List.getElem?_cons_succ, hrest i, hnone]
            simp

end PhpantomLsp.Lib
