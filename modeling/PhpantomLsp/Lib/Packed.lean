import Mathlib

/-!
# Packed sparse arrays

A sparse array of `w` places keeps a bitmap of the places in use and the
contents of those places alone, in the order of their places.  The contents of
place `i` then stand at the number of places in use below `i`, which is what
`indexOf` counts with a mask.

`get` is the array read as a partial function; every update is described by
what it does to `get`.  `slots_perm` splits the contents at one place, and the
rest depends on the other places only (`others_congr`), so a sum or a list
over the contents changes by the one place that was written.
-/

namespace PhpantomLsp.Lib

universe u

namespace Packed

variable {w : Nat}

/-- The mask of place `i`. -/
def bit (i : Fin w) : BitVec w := 1#w <<< i.val

/-- Where the contents of the place with mask `b` stand. -/
def indexOf (bitmap b : BitVec w) : Nat := (bitmap &&& (b - 1#w)).cpop.toNat

/-- The places in use below `n`. -/
def rank (bitmap : BitVec w) (n : Nat) : Nat := bitmap.cpopNatRec n 0

theorem rank_zero (bitmap : BitVec w) : rank bitmap 0 = 0 := rfl

theorem rank_succ (bitmap : BitVec w) (n : Nat) :
    rank bitmap (n + 1) = rank bitmap n + (bitmap.getLsbD n).toNat := by
  unfold rank
  rw [BitVec.cpopNatRec_succ, BitVec.cpopNatRec_add]

theorem rank_mono (bitmap : BitVec w) {m n : Nat} (h : m ≤ n) : rank bitmap m ≤ rank bitmap n := by
  induction n, h using Nat.le_induction with
  | base => exact le_rfl
  | succ n _ ih => exact ih.trans (by rw [rank_succ]; exact Nat.le_add_right _ _)

/-- A place in use is counted from the next place on. -/
theorem rank_lt (bitmap : BitVec w) {m n : Nat} (hbit : bitmap.getLsbD m = true) (h : m < n) :
    rank bitmap m < rank bitmap n := by
  have hnext : rank bitmap (m + 1) ≤ rank bitmap n := rank_mono bitmap h
  rw [rank_succ, hbit] at hnext
  exact hnext

theorem getLsbD_bit (i : Fin w) (j : Nat) : (bit i).getLsbD j = decide (i.val = j) := by
  rw [bit, ← BitVec.twoPow_eq, BitVec.getLsbD_twoPow]
  simp [i.isLt]

theorem and_bit (bitmap : BitVec w) (i : Fin w) :
    bitmap &&& bit i = 0#w ↔ bitmap.getLsbD i = false := by
  have hne : BitVec.twoPow w i ≠ 0#w := by
    intro h
    have hself := BitVec.getLsbD_twoPow (w := w) i.val i.val
    rw [h] at hself
    simp [i.isLt] at hself
  rw [bit, ← BitVec.twoPow_eq, BitVec.and_twoPow]
  cases bitmap.getLsbD i with
  | false => simp
  | true => simp [hne]

/-- The mask below a place holds the lower places. -/
theorem getLsbD_bit_sub_one (i : Fin w) (j : Nat) :
    (bit i - 1#w).getLsbD j = decide (j < i.val) := by
  have hw : 1 < 2 ^ w := Nat.one_lt_two_pow (by have := i.isLt; omega)
  have hone : (1#w).toNat = 1 := by rw [BitVec.toNat_ofNat, Nat.mod_eq_of_lt hw]
  have hbit : (bit i).toNat = 2 ^ i.val := by
    rw [bit, ← BitVec.twoPow_eq, BitVec.toNat_twoPow_of_lt i.isLt]
  have hsub : (bit i - 1#w).toNat = 2 ^ i.val - 1 := by
    rw [BitVec.toNat_sub_of_le, hbit, hone]
    rw [BitVec.le_def, hone, hbit]
    exact Nat.one_le_two_pow
  rw [BitVec.getLsbD, hsub, Nat.testBit_two_pow_sub_one]

/-- The contents of a place stand behind those of the lower places. -/
theorem indexOf_bit (bitmap : BitVec w) (i : Fin w) :
    indexOf bitmap (bit i) = rank bitmap i := by
  have hbelow : ∀ n, rank (bitmap &&& (bit i - 1#w)) n = rank bitmap (min n i.val) := by
    intro n
    induction n with
    | zero => rw [Nat.zero_min, rank_zero, rank_zero]
    | succ n ih =>
        rw [rank_succ, ih, BitVec.getLsbD_and, getLsbD_bit_sub_one]
        by_cases hn : n < i.val
        · rw [decide_eq_true hn, Bool.and_true, Nat.min_eq_left hn.le, Nat.min_eq_left hn,
            rank_succ]
        · rw [decide_eq_false hn, Bool.and_false, Nat.min_eq_right (by omega),
            Nat.min_eq_right (by omega)]
          rfl
  rw [indexOf, BitVec.toNat_cpop]
  exact (hbelow w).trans (by rw [Nat.min_eq_right i.isLt.le])

/-- Using one more place moves the places above it up by one. -/
theorem rank_or_bit {bitmap : BitVec w} {i : Fin w} (hfree : bitmap.getLsbD i = false) (n : Nat) :
    rank (bitmap ||| bit i) n = rank bitmap n + if i.val < n then 1 else 0 := by
  induction n with
  | zero => rfl
  | succ n ih =>
      rw [rank_succ, rank_succ, ih, BitVec.getLsbD_or, getLsbD_bit]
      by_cases hin : i.val = n
      · rw [← hin, hfree, decide_eq_true rfl, if_neg (lt_irrefl _), if_pos (Nat.lt_succ_self _)]
        rfl
      · rw [decide_eq_false hin, Bool.or_false]
        by_cases hlt : i.val < n
        · rw [if_pos hlt, if_pos (by omega)]
          omega
        · rw [if_neg hlt, if_neg (by omega)]
          omega

theorem getLsbD_and_not_bit (bitmap : BitVec w) (i : Fin w) (j : Nat) :
    (bitmap &&& ~~~bit i).getLsbD j = (bitmap.getLsbD j && !decide (i.val = j)) := by
  rw [BitVec.getLsbD_and, BitVec.getLsbD_not, getLsbD_bit]
  by_cases hj : j < w
  · rw [decide_eq_true hj, Bool.true_and]
  · rw [BitVec.getLsbD_of_ge bitmap j (by omega), Bool.false_and, Bool.false_and]

/-- Freeing a place moves the places above it down by one. -/
theorem rank_and_not_bit {bitmap : BitVec w} {i : Fin w} (hused : bitmap.getLsbD i = true)
    (n : Nat) :
    rank (bitmap &&& ~~~bit i) n + (if i.val < n then 1 else 0) = rank bitmap n := by
  induction n with
  | zero => rfl
  | succ n ih =>
      rw [rank_succ, rank_succ, ← ih, getLsbD_and_not_bit]
      by_cases hin : i.val = n
      · rw [← hin, hused, decide_eq_true rfl, if_neg (lt_irrefl _),
          if_pos (Nat.lt_succ_self _)]
        rfl
      · rw [decide_eq_false hin, Bool.not_false, Bool.and_true]
        by_cases hlt : i.val < n
        · rw [if_pos hlt, if_pos (by omega)]
          omega
        · rw [if_neg hlt, if_neg (by omega)]
          omega

end Packed

/-- A sparse array of `w` places. -/
structure Packed (w : Nat) (α : Type u) where
  bitmap : BitVec w
  slots : List α
  size_eq : slots.length = Packed.rank bitmap w

namespace Packed

variable {w : Nat} {α : Type u}

/-- The contents of a place. -/
def get (p : Packed w α) (i : Fin w) : Option α :=
  if p.bitmap &&& bit i = 0#w then none else p.slots[indexOf p.bitmap (bit i)]?

/-- The array that uses one place. -/
def single (i : Fin w) (a : α) : Packed w α where
  bitmap := bit i
  slots := [a]
  size_eq := by
    have hrank := @rank_or_bit w 0#w i BitVec.getLsbD_zero w
    rw [BitVec.zero_or, if_pos i.isLt] at hrank
    rw [hrank, rank, BitVec.cpopNatRec_zero]
    rfl

/-- The array that uses two places. -/
def two (i j : Fin w) (a b : α) (h : i ≠ j) : Packed w α where
  bitmap := bit i ||| bit j
  slots := if i < j then [a, b] else [b, a]
  size_eq := by
    have hlone := @rank_or_bit w 0#w i BitVec.getLsbD_zero w
    have hfree : (bit i).getLsbD j = false := by
      rw [getLsbD_bit]
      exact decide_eq_false fun hij => h (Fin.ext hij)
    rw [BitVec.zero_or, if_pos i.isLt] at hlone
    rw [rank_or_bit hfree, if_pos j.isLt, hlone, rank, BitVec.cpopNatRec_zero, apply_ite List.length]
    exact ite_self _

theorem used_iff (bitmap : BitVec w) (i : Fin w) :
    bitmap &&& bit i ≠ 0#w ↔ bitmap.getLsbD i = true := by
  rw [Ne, and_bit, Bool.not_eq_false]

/-- Contents for a place: a free place is taken, those of a place in use are
replaced. -/
def put (p : Packed w α) (i : Fin w) (a : α) : Packed w α :=
  if hfree : p.bitmap &&& bit i = 0#w then
    { bitmap := p.bitmap ||| bit i
      slots := p.slots.insertIdx (indexOf p.bitmap (bit i)) a
      size_eq := by
        have hle : indexOf p.bitmap (bit i) ≤ p.slots.length := by
          rw [indexOf_bit, p.size_eq]
          exact rank_mono p.bitmap i.isLt.le
        rw [List.length_insertIdx_of_le_length hle, p.size_eq,
          rank_or_bit ((and_bit p.bitmap i).mp hfree), if_pos i.isLt] }
  else
    { bitmap := p.bitmap
      slots := p.slots.set (indexOf p.bitmap (bit i)) a
      size_eq := by rw [List.length_set, p.size_eq] }

/-- The place made free. -/
def remove (p : Packed w α) (i : Fin w) : Packed w α :=
  if hfree : p.bitmap &&& bit i = 0#w then p
  else
    { bitmap := p.bitmap &&& ~~~bit i
      slots := p.slots.eraseIdx (indexOf p.bitmap (bit i))
      size_eq := by
        have hbit := (used_iff p.bitmap i).mp hfree
        have hrank := rank_and_not_bit hbit w
        have hlt : indexOf p.bitmap (bit i) < p.slots.length := by
          rw [indexOf_bit, p.size_eq]
          exact rank_lt p.bitmap hbit i.isLt
        rw [if_pos i.isLt] at hrank
        rw [List.length_eraseIdx_of_lt hlt, p.size_eq]
        omega }

/-- Other contents everywhere. -/
def map (f : α → α) (p : Packed w α) : Packed w α where
  bitmap := p.bitmap
  slots := p.slots.map f
  size_eq := by rw [List.length_map, p.size_eq]

theorem map_eq_self {f : α → α} {p : Packed w α} (h : ∀ a ∈ p.slots, f a = a) : p.map f = p := by
  have hslots : p.slots.map f = p.slots := (List.map_congr_left h).trans (List.map_id' p.slots)
  unfold map
  congr

/-- The places in use, lowest first. -/
def places (bitmap : BitVec w) : List (Fin w) :=
  (List.finRange w).filter fun i => bitmap &&& bit i ≠ 0#w

/-! ## Reading after an update -/

theorem get_eq (p : Packed w α) (i : Fin w) :
    p.get i = if p.bitmap.getLsbD i = true then p.slots[rank p.bitmap i]? else none := by
  unfold get
  rw [indexOf_bit]
  by_cases hbit : p.bitmap.getLsbD i = true
  · rw [if_pos hbit, if_neg]
    rw [and_bit, hbit]
    exact Bool.noConfusion
  · rw [if_neg hbit, if_pos ((and_bit p.bitmap i).mpr (Bool.not_eq_true _ ▸ hbit))]

theorem get_eq_none_iff (p : Packed w α) (i : Fin w) :
    p.get i = none ↔ p.bitmap &&& bit i = 0#w := by
  rw [and_bit, get_eq]
  cases hbit : p.bitmap.getLsbD i with
  | false => simp
  | true =>
      have hlt : rank p.bitmap i < p.slots.length := by
        rw [p.size_eq]
        exact rank_lt p.bitmap hbit i.isLt
      simp [List.getElem?_eq_getElem hlt]

theorem get_single (i j : Fin w) (a : α) :
    (single i a).get j = if j = i then some a else none := by
  rw [get_eq]
  show (if (bit i).getLsbD j = true then [a][rank (bit i) j]? else none) = _
  have hrank := @rank_or_bit w 0#w i BitVec.getLsbD_zero i
  rw [BitVec.zero_or, if_neg (lt_irrefl _), rank, rank, BitVec.cpopNatRec_zero] at hrank
  rw [getLsbD_bit]
  by_cases hji : j = i
  · rw [if_pos hji, if_pos (decide_eq_true (congrArg Fin.val hji.symm)), hji, rank, hrank]
    rfl
  · rw [if_neg hji, if_neg]
    intro h
    exact hji (Fin.ext (of_decide_eq_true h).symm)

theorem get_two (i j k : Fin w) (a b : α) (h : i ≠ j) :
    (two i j a b h).get k = if k = i then some a else if k = j then some b else none := by
  have hlone : ∀ (l : Fin w) n, rank (bit l) n = if l.val < n then 1 else 0 := by
    intro l n
    have hrank := @rank_or_bit w 0#w l BitVec.getLsbD_zero n
    rw [BitVec.zero_or, rank, rank, BitVec.cpopNatRec_zero, Nat.zero_add] at hrank
    exact hrank
  have hfree : (bit i).getLsbD j = false := by
    rw [getLsbD_bit]
    exact decide_eq_false fun hij => h (Fin.ext hij)
  rw [get_eq]
  show (if (bit i ||| bit j).getLsbD k = true
    then (if i < j then [a, b] else [b, a])[rank (bit i ||| bit j) k]? else none) = _
  rw [rank_or_bit hfree, hlone, BitVec.getLsbD_or, getLsbD_bit, getLsbD_bit]
  by_cases hki : k = i
  · rw [if_pos hki, hki, decide_eq_true rfl, Bool.true_or, if_pos rfl, if_neg (lt_irrefl _)]
    by_cases hlt : i < j
    · rw [if_pos hlt, if_neg (Nat.lt_asymm hlt)]
      rfl
    · rw [if_neg hlt, if_pos (Nat.lt_of_le_of_ne (Nat.le_of_not_lt hlt)
        fun hji => h (Fin.ext hji).symm)]
      rfl
  · rw [if_neg hki, decide_eq_false fun hik => hki (Fin.ext hik).symm, Bool.false_or]
    by_cases hkj : k = j
    · rw [if_pos hkj, hkj, decide_eq_true rfl, if_pos rfl, if_neg (lt_irrefl _)]
      by_cases hlt : i < j
      · rw [if_pos hlt, if_pos (Fin.lt_def.mp hlt)]
        rfl
      · rw [if_neg hlt, if_neg fun h => hlt (Fin.lt_def.mpr h)]
        rfl
    · rw [if_neg hkj, decide_eq_false fun hjk => hkj (Fin.ext hjk).symm,
        if_neg Bool.false_ne_true]

theorem rank_ne {bitmap : BitVec w} {i j : Fin w} (hi : bitmap.getLsbD i = true)
    (hj : bitmap.getLsbD j = true) (hne : j ≠ i) : rank bitmap j ≠ rank bitmap i := by
  rcases Nat.lt_or_gt_of_ne (Fin.val_ne_of_ne hne) with hlt | hlt
  · exact (rank_lt bitmap hj hlt).ne
  · exact (rank_lt bitmap hi hlt).ne'

theorem get_put_used (p : Packed w α) (i j : Fin w) (a : α) (hused : p.bitmap &&& bit i ≠ 0#w) :
    (p.put i a).get j = if j = i then some a else p.get j := by
  have hi := (used_iff p.bitmap i).mp hused
  have hlt : rank p.bitmap i < p.slots.length := by
    rw [p.size_eq]
    exact rank_lt p.bitmap hi i.isLt
  rw [put, dif_neg hused, get_eq, get_eq]
  show (if p.bitmap.getLsbD j = true
    then (p.slots.set (indexOf p.bitmap (bit i)) a)[rank p.bitmap j]? else none) = _
  rw [indexOf_bit]
  by_cases hji : j = i
  · rw [if_pos hji, hji, if_pos hi, List.getElem?_set_self hlt]
  · rw [if_neg hji]
    by_cases hj : p.bitmap.getLsbD j = true
    · rw [if_pos hj, if_pos hj, List.getElem?_set_ne (rank_ne hi hj hji).symm]
    · rw [if_neg hj, if_neg hj]

theorem get_put_free (p : Packed w α) (i j : Fin w) (a : α) (hfree : p.bitmap &&& bit i = 0#w) :
    (p.put i a).get j = if j = i then some a else p.get j := by
  have hi := (and_bit p.bitmap i).mp hfree
  have hle : rank p.bitmap i ≤ p.slots.length := by
    rw [p.size_eq]
    exact rank_mono p.bitmap i.isLt.le
  rw [put, dif_pos hfree, get_eq, get_eq]
  show (if (p.bitmap ||| bit i).getLsbD j = true
    then (p.slots.insertIdx (indexOf p.bitmap (bit i)) a)[rank (p.bitmap ||| bit i) j]?
    else none) = _
  rw [indexOf_bit, rank_or_bit hi, BitVec.getLsbD_or, getLsbD_bit]
  by_cases hji : j = i
  · rw [if_pos hji, hji, decide_eq_true rfl, Bool.or_true, if_pos rfl, if_neg (lt_irrefl _),
      Nat.add_zero, List.getElem?_insertIdx_self, if_pos hle]
  · rw [if_neg hji, decide_eq_false fun h => hji (Fin.ext h.symm), Bool.or_false]
    by_cases hj : p.bitmap.getLsbD j = true
    · rw [if_pos hj, if_pos hj]
      rcases Nat.lt_or_gt_of_ne (Fin.val_ne_of_ne hji) with hlt | hlt
      · rw [if_neg (by omega), Nat.add_zero, List.getElem?_insertIdx_of_lt (rank_lt _ hj hlt)]
      · have hrank : rank p.bitmap i ≤ rank p.bitmap j := rank_mono _ hlt.le
        rw [if_pos hlt, List.getElem?_insertIdx_of_gt (by omega), Nat.add_sub_cancel]
    · rw [if_neg hj, if_neg hj]

/-- A write is read at its own place and nowhere else. -/
theorem get_put (p : Packed w α) (i j : Fin w) (a : α) :
    (p.put i a).get j = if j = i then some a else p.get j := by
  by_cases hfree : p.bitmap &&& bit i = 0#w
  · exact get_put_free p i j a hfree
  · exact get_put_used p i j a hfree

/-- A place made free reads as empty, the others as before. -/
theorem get_remove (p : Packed w α) (i j : Fin w) :
    (p.remove i).get j = if j = i then none else p.get j := by
  by_cases hfree : p.bitmap &&& bit i = 0#w
  · rw [remove, dif_pos hfree]
    by_cases hji : j = i
    · rw [if_pos hji, hji]
      exact (get_eq_none_iff p i).mpr hfree
    · rw [if_neg hji]
  have hi := (used_iff p.bitmap i).mp hfree
  have hrank := rank_and_not_bit hi j
  rw [remove, dif_neg hfree, get_eq, get_eq]
  show (if (p.bitmap &&& ~~~bit i).getLsbD j = true
    then (p.slots.eraseIdx (indexOf p.bitmap (bit i)))[rank (p.bitmap &&& ~~~bit i) j]?
    else none) = _
  rw [indexOf_bit, getLsbD_and_not_bit]
  by_cases hji : j = i
  · rw [if_pos hji, hji, decide_eq_true rfl, Bool.not_true, Bool.and_false,
      if_neg Bool.false_ne_true]
  · rw [if_neg hji, decide_eq_false fun h => hji (Fin.ext h.symm), Bool.not_false, Bool.and_true]
    by_cases hj : p.bitmap.getLsbD j = true
    · rw [if_pos hj, if_pos hj]
      rcases Nat.lt_or_gt_of_ne (Fin.val_ne_of_ne hji) with hlt | hlt
      · rw [if_neg (by omega), Nat.add_zero] at hrank
        rw [hrank, List.getElem?_eraseIdx_of_lt (rank_lt _ hj hlt)]
      · have hlow : rank p.bitmap i < rank p.bitmap j := rank_lt _ hi hlt
        rw [if_pos hlt] at hrank
        rw [List.getElem?_eraseIdx_of_ge (by omega), hrank]
    · rw [if_neg hj, if_neg hj]

/-- The places either of two arrays uses. -/
theorem mem_places_or {p q : Packed w α} {i : Fin w} :
    i ∈ places (p.bitmap ||| q.bitmap) ↔ p.get i ≠ none ∨ q.get i ≠ none := by
  rw [places, List.mem_filter, decide_eq_true_iff, used_iff, BitVec.getLsbD_or, Bool.or_eq_true,
    ← used_iff, ← used_iff, Ne, Ne, Ne, Ne, get_eq_none_iff, get_eq_none_iff]
  exact and_iff_right (List.mem_finRange i)

theorem nodup_places (bitmap : BitVec w) : (places bitmap).Nodup :=
  (List.nodup_finRange w).filter _

/-! ## The contents in order -/

/-- The contents are those of the places, in order. -/
theorem slots_eq (p : Packed w α) : p.slots = (List.finRange w).filterMap p.get := by
  have htake : ∀ n, n ≤ w → p.slots.take (rank p.bitmap n) = (List.range n).filterMap fun i =>
      if p.bitmap.getLsbD i = true then p.slots[rank p.bitmap i]? else none := by
    intro n hn
    induction n with
    | zero => rfl
    | succ n ih =>
        rw [rank_succ, List.range_succ, List.filterMap_append, ← ih (by omega)]
        cases hbit : p.bitmap.getLsbD n with
        | false => simp [hbit]
        | true =>
            have hlt : rank p.bitmap n < p.slots.length := by
              rw [p.size_eq]
              exact rank_lt p.bitmap hbit hn
            rw [Bool.toNat_true, List.take_add_one, List.filterMap_cons, if_pos hbit,
              List.getElem?_eq_getElem hlt]
            rfl
  have hall := htake w le_rfl
  rw [← p.size_eq, List.take_length, ← List.map_coe_finRange_eq_range, List.filterMap_map] at hall
  rw [hall]
  apply List.filterMap_congr
  intro i _
  rw [get_eq]
  rfl

theorem mem_slots {p : Packed w α} {a : α} : a ∈ p.slots ↔ ∃ i, p.get i = some a := by
  rw [slots_eq, List.mem_filterMap]
  simp

/-- What stands in the places other than `i`. -/
def others (p : Packed w α) (i : Fin w) : List α :=
  ((List.finRange w).erase i).filterMap p.get

theorem others_congr {p q : Packed w α} {i : Fin w} (h : ∀ j, j ≠ i → p.get j = q.get j) :
    p.others i = q.others i := by
  apply List.filterMap_congr
  intro j hj
  exact h j ((List.Nodup.mem_erase_iff (List.nodup_finRange w)).mp hj).1

/-- The contents are those of one place and those of the others. -/
theorem slots_perm (p : Packed w α) (i : Fin w) :
    p.slots.Perm ((p.get i).toList ++ p.others i) := by
  rw [slots_eq p, others]
  have hsplit := (List.perm_cons_erase (List.mem_finRange i)).filterMap p.get
  refine hsplit.trans ?_
  rw [List.filterMap_cons]
  cases p.get i with
  | none => exact List.Perm.refl _
  | some a => exact List.Perm.refl _

end Packed
end PhpantomLsp.Lib
