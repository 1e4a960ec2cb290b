import Mathlib
import PhpantomLsp.Lib.Splices

/-!
# Patching a list with parts of another

A change puts a range of a new list in place of a range of an old one.  Changes
in order, none reaching into the next, patch the old list: `patchFrom` walks it
and takes the new range at each change.  A change of equal ranges can be left
out, and what a patch holds is what the old list holds plus what the changes
gain (`countP_patchFrom`).
-/

namespace PhpantomLsp.Lib

/-- The indices from `start` up to `stop`. -/
structure IndexRange where
  start : Nat
  stop : Nat
deriving DecidableEq

namespace IndexRange

def length (s : IndexRange) : Nat := s.stop - s.start

/-- `Range::is_empty` -/
def isEmpty (s : IndexRange) : Bool := s.stop ≤ s.start

def indices (s : IndexRange) : List Nat := List.range' s.start s.length

variable {α : Type*}

/-- The elements at the indices. -/
def slice (xs : List α) (s : IndexRange) : List α := (xs.take s.stop).drop s.start

theorem slice_append (xs : List α) {i j k : Nat} (hij : i ≤ j) (hjk : j ≤ k) :
    slice xs ⟨i, j⟩ ++ slice xs ⟨j, k⟩ = slice xs ⟨i, k⟩ := by
  show (xs.take j).drop i ++ (xs.take k).drop j = (xs.take k).drop i
  have htake : xs.take j = (xs.take k).take j := by
    rw [List.take_take, Nat.min_eq_left hjk]
  rw [htake]
  by_cases hlen : j ≤ (xs.take k).length
  · conv => rhs; rw [← List.take_append_drop j (xs.take k)]
    rw [List.drop_append_of_le_length (by rw [List.length_take]; omega)]
  · have hall : (xs.take k).take j = xs.take k := List.take_of_length_le (by omega)
    have hnone : (xs.take k).drop j = [] := List.drop_of_length_le (by omega)
    rw [hall, hnone, List.append_nil]

theorem slice_append_drop (xs : List α) {i j : Nat} (hij : i ≤ j) :
    slice xs ⟨i, j⟩ ++ xs.drop j = xs.drop i := by
  have h := slice_append xs hij (Nat.le_max_left j xs.length)
  have hlast : slice xs ⟨j, max j xs.length⟩ = xs.drop j := by
    show (xs.take (max j xs.length)).drop j = xs.drop j
    rw [List.take_of_length_le (Nat.le_max_right _ _)]
  have hall : slice xs ⟨i, max j xs.length⟩ = xs.drop i := by
    show (xs.take (max j xs.length)).drop i = xs.drop i
    rw [List.take_of_length_le (Nat.le_max_right _ _)]
  rw [← hlast, h, hall]

@[simp] theorem slice_self (xs : List α) (i : Nat) : slice xs ⟨i, i⟩ = [] := by
  apply List.drop_of_length_le
  rw [List.length_take]
  exact Nat.min_le_left _ _

theorem slice_singleton (xs : List α) (i : Nat) : slice xs ⟨i, i + 1⟩ = xs[i]?.toList := by
  show (xs.take (i + 1)).drop i = xs[i]?.toList
  by_cases hi : i < xs.length
  · rw [List.drop_take, Nat.add_sub_cancel_left, List.drop_eq_getElem_cons hi,
      List.getElem?_eq_getElem hi]
    rfl
  · rw [List.drop_of_length_le (by rw [List.length_take]; omega),
      List.getElem?_eq_none (by omega)]
    rfl

theorem mem_of_mem_slice {xs : List α} {s : IndexRange} {x : α} (h : x ∈ slice xs s) : x ∈ xs :=
  List.mem_of_mem_take (List.mem_of_mem_drop h)

end IndexRange

open IndexRange

/-- `new` of the new list in place of `old` of the old list. -/
structure Change where
  old : IndexRange
  new : IndexRange
deriving DecidableEq

variable {α : Type*} (xs ys : List α)

/-- The old list from index `i` on, changed. -/
def patchFrom : Nat → List Change → List α
  | i, [] => xs.drop i
  | i, c :: rest => slice xs ⟨i, c.old.start⟩ ++ slice ys c.new ++ patchFrom c.old.stop rest

/-- The changes come in order, from index `i` on, none reaching into the next. -/
structure InOrder (i : Nat) (cs : List Change) : Prop where
  starts : ∀ c ∈ cs, i ≤ c.old.start ∧ c.old.start ≤ c.old.stop
  apart : cs.Pairwise fun c d => c.old.stop ≤ d.old.start

/-- What a change gains of the elements with a property. -/
def Change.gain (p : α → Bool) (c : Change) : Int :=
  (slice ys c.new).countP p - (slice xs c.old).countP p

section InOrder

variable {xs ys} {i : Nat} {c : Change} {cs : List Change}

theorem InOrder.head (h : InOrder i (c :: cs)) : i ≤ c.old.start ∧ c.old.start ≤ c.old.stop :=
  h.starts c (by simp)

theorem InOrder.tail (h : InOrder i (c :: cs)) : InOrder c.old.stop cs where
  starts d hd := ⟨(List.pairwise_cons.mp h.apart).1 d hd, (h.starts d (by simp [hd])).2⟩
  apart := (List.pairwise_cons.mp h.apart).2

theorem InOrder.mono {j : Nat} (h : InOrder i cs) (hj : j ≤ i) : InOrder j cs where
  starts d hd := ⟨Nat.le_trans hj (h.starts d hd).1, (h.starts d hd).2⟩
  apart := h.apart

theorem InOrder.sublist {ds : List Change} (h : InOrder i cs) (hds : ds.Sublist cs) :
    InOrder i ds where
  starts d hd := h.starts d (hds.subset hd)
  apart := h.apart.sublist hds

/-- What stands before the first change is kept. -/
theorem patchFrom_of_le {k : Nat} (hik : i ≤ k) (h : InOrder k cs) :
    patchFrom xs ys i cs = slice xs ⟨i, k⟩ ++ patchFrom xs ys k cs := by
  cases cs with
  | nil => exact (slice_append_drop xs hik).symm
  | cons c rest =>
      show slice xs ⟨i, c.old.start⟩ ++ _ ++ _ = slice xs ⟨i, k⟩ ++ (slice xs ⟨k, _⟩ ++ _ ++ _)
      rw [← slice_append xs hik h.head.1]
      simp only [List.append_assoc]

/-- Changes that change nothing may be left out. -/
theorem patchFrom_filter {q : Change → Bool}
    (hq : ∀ c ∈ cs, q c = false → slice xs c.old = slice ys c.new) (h : InOrder i cs) :
    patchFrom xs ys i (cs.filter q) = patchFrom xs ys i cs := by
  induction cs generalizing i with
  | nil => rfl
  | cons c rest ih =>
      have ih := ih (fun d hd => hq d (by simp [hd])) h.tail
      by_cases hc : q c = true
      · rw [List.filter_cons_of_pos hc]
        show _ ++ _ ++ patchFrom xs ys c.old.stop (rest.filter q) = _
        rw [ih]
        rfl
      · have hsame := hq c (by simp) (by simpa using hc)
        have hle : i ≤ c.old.stop := Nat.le_trans h.head.1 h.head.2
        rw [List.filter_cons_of_neg hc, patchFrom_of_le hle (h.tail.sublist List.filter_sublist), ih,
          ← slice_append xs h.head.1 h.head.2]
        show _ = slice xs ⟨i, c.old.start⟩ ++ slice ys c.new ++ patchFrom xs ys c.old.stop rest
        rw [← hsame]

/-- The patched list holds what the old one does and what the changes gain. -/
theorem countP_patchFrom (p : α → Bool) (h : InOrder i cs) :
    ((patchFrom xs ys i cs).countP p : Int) =
      (xs.drop i).countP p + (cs.map (Change.gain xs ys p)).sum := by
  induction cs generalizing i with
  | nil => simp [patchFrom]
  | cons c rest ih =>
      have hdrop : xs.drop i = slice xs ⟨i, c.old.start⟩ ++ (slice xs c.old ++ xs.drop c.old.stop) := by
        rw [slice_append_drop xs h.head.2, slice_append_drop xs h.head.1]
      show ((slice xs ⟨i, c.old.start⟩ ++ slice ys c.new ++
        patchFrom xs ys c.old.stop rest).countP p : Int) = _
      rw [hdrop, List.map_cons, List.sum_cons, Change.gain]
      simp only [List.countP_append, Nat.cast_add, ih h.tail]
      omega

end InOrder

/-! ## Lists that differ in the changes -/

section Aligned

/-- From `i` of the one list and `j` of the other on, the two lists are the same
between the changes, and no two changes meet. -/
def Aligned : Nat → Nat → List Change → Prop
  | i, j, [] => xs.drop i = ys.drop j
  | i, j, c :: rest =>
      (i ≤ c.old.start ∧ c.old.start ≤ c.old.stop) ∧ (j ≤ c.new.start ∧ c.new.start ≤ c.new.stop) ∧
        slice xs ⟨i, c.old.start⟩ = slice ys ⟨j, c.new.start⟩ ∧
        (∀ d ∈ rest, c.old.stop < d.old.start ∧ c.new.stop < d.new.start) ∧
        Aligned c.old.stop c.new.stop rest

variable {xs ys} {i j : Nat} {cs : List Change}

theorem Aligned.starts (h : Aligned xs ys i j cs) :
    ∀ c ∈ cs, (i ≤ c.old.start ∧ c.old.start ≤ c.old.stop) ∧
      (j ≤ c.new.start ∧ c.new.start ≤ c.new.stop) := by
  induction cs generalizing i j with
  | nil => simp
  | cons c rest ih =>
      have ⟨hold, hnew, _, _, hrest⟩ := h
      intro d hd
      rcases List.mem_cons.mp hd with rfl | hd
      · exact ⟨hold, hnew⟩
      · have := ih hrest d hd
        omega

theorem Aligned.apart (h : Aligned xs ys i j cs) :
    cs.Pairwise fun c d => c.old.stop < d.old.start ∧ c.new.stop < d.new.start := by
  induction cs generalizing i j with
  | nil => exact List.Pairwise.nil
  | cons c rest ih => exact List.pairwise_cons.mpr ⟨h.2.2.2.1, ih h.2.2.2.2⟩

theorem Aligned.inOrder (h : Aligned xs ys i j cs) : InOrder i cs where
  starts c hc := (h.starts c hc).1
  apart := h.apart.imp fun hcd => Nat.le_of_lt hcd.1

/-- All the changes make the one list the other. -/
theorem Aligned.patchFrom_eq (h : Aligned xs ys i j cs) : patchFrom xs ys i cs = ys.drop j := by
  induction cs generalizing i j with
  | nil => exact h
  | cons c rest ih =>
      have ⟨_, hnew, hgap, _, hrest⟩ := h
      show slice xs ⟨i, c.old.start⟩ ++ slice ys c.new ++ patchFrom xs ys c.old.stop rest = ys.drop j
      rw [ih hrest, hgap, List.append_assoc, slice_append_drop ys hnew.2, slice_append_drop ys hnew.1]

/-- The new list holds what the old one does and what the changes gain. -/
theorem Aligned.countP_eq (h : Aligned xs ys i j cs) (p : α → Bool) :
    ((ys.drop j).countP p : Int) = (xs.drop i).countP p + (cs.map (Change.gain xs ys p)).sum := by
  rw [← h.patchFrom_eq]
  exact countP_patchFrom p h.inOrder

end Aligned

/-! ## Changes that may meet -/

section Matched

/-- From `i` of the one list and `j` of the other on, the two lists are the same
between the changes; two changes may meet. -/
def Matched : Nat → Nat → List Change → Prop
  | i, j, [] => xs.drop i = ys.drop j
  | i, j, c :: rest =>
      (i ≤ c.old.start ∧ c.old.start ≤ c.old.stop) ∧ (j ≤ c.new.start ∧ c.new.start ≤ c.new.stop) ∧
        slice xs ⟨i, c.old.start⟩ = slice ys ⟨j, c.new.start⟩ ∧ Matched c.old.stop c.new.stop rest

variable {xs ys} {i j : Nat} {cs : List Change}

theorem Matched.starts (h : Matched xs ys i j cs) :
    ∀ c ∈ cs, (i ≤ c.old.start ∧ c.old.start ≤ c.old.stop) ∧
      (j ≤ c.new.start ∧ c.new.start ≤ c.new.stop) := by
  induction cs generalizing i j with
  | nil => simp
  | cons c rest ih =>
      have ⟨hold, hnew, _, hrest⟩ := h
      intro d hd
      rcases List.mem_cons.mp hd with rfl | hd
      · exact ⟨hold, hnew⟩
      · have := ih hrest d hd
        omega

theorem Matched.inOrder (h : Matched xs ys i j cs) : InOrder i cs where
  starts c hc := (h.starts c hc).1
  apart := by
    induction cs generalizing i j with
    | nil => exact List.Pairwise.nil
    | cons c rest ih =>
        exact List.pairwise_cons.mpr ⟨fun d hd => (h.2.2.2.starts d hd).1.1, ih h.2.2.2⟩

/-- All the changes make the one list the other. -/
theorem Matched.patchFrom_eq (h : Matched xs ys i j cs) : patchFrom xs ys i cs = ys.drop j := by
  induction cs generalizing i j with
  | nil => exact h
  | cons c rest ih =>
      have ⟨_, hnew, hgap, hrest⟩ := h
      show slice xs ⟨i, c.old.start⟩ ++ slice ys c.new ++ patchFrom xs ys c.old.stop rest = ys.drop j
      rw [ih hrest, hgap, List.append_assoc, slice_append_drop ys hnew.2, slice_append_drop ys hnew.1]

end Matched

/-! ## Changes cut into pieces -/

section Tiles

/-- The pieces follow one another, on both sides, from one place to another. -/
def Tiles : Nat × Nat → Nat × Nat → List Change → Prop
  | start, stop, [] => start = stop
  | start, stop, c :: rest =>
      (c.old.start, c.new.start) = start ∧ c.old.start ≤ c.old.stop ∧ c.new.start ≤ c.new.stop ∧
        Tiles (c.old.stop, c.new.stop) stop rest

variable {xs ys} {i : Nat} {cs rest : List Change} {start stop : Nat × Nat}

theorem Tiles.le (h : Tiles start stop cs) : start.1 ≤ stop.1 ∧ start.2 ≤ stop.2 := by
  induction cs generalizing start with
  | nil => exact ⟨Nat.le_of_eq (congrArg Prod.fst h), Nat.le_of_eq (congrArg Prod.snd h)⟩
  | cons c rest ih =>
      have ⟨hstart, hold, hnew, hrest⟩ := h
      have ih := ih hrest
      rw [← hstart]
      simp only at ih ⊢
      omega

/-- Pieces do what the whole change does. -/
theorem patchFrom_tiles (h : Tiles start stop cs) (hi : i ≤ start.1) (hrest : InOrder stop.1 rest) :
    patchFrom xs ys i (cs ++ rest) =
      slice xs ⟨i, start.1⟩ ++ slice ys ⟨start.2, stop.2⟩ ++ patchFrom xs ys stop.1 rest := by
  induction cs generalizing i start with
  | nil =>
      rw [show start = stop from h, slice_self, List.append_nil]
      rw [show start = stop from h] at hi
      exact patchFrom_of_le hi hrest
  | cons c cs ih =>
      have ⟨hstart, hold, hnew, hcs⟩ := h
      have ih := ih hcs (Nat.le_refl _)
      rw [← hstart] at hi ⊢
      show slice xs ⟨i, c.old.start⟩ ++ slice ys c.new ++ patchFrom xs ys c.old.stop (cs ++ rest) = _
      rw [ih, slice_self, List.nil_append, ← slice_append ys hnew hcs.le.2]
      simp only [List.append_assoc]

end Tiles

/-! ## What stands between changes -/

section Kept

variable {xs ys} {i k : Nat} {cs : List Change}

/-- Changes that leave one place alone are before it or behind it. -/
theorem exists_split_at (h : InOrder i cs)
    (hk : ∀ c ∈ cs, c.old.stop ≤ k ∨ k < c.old.start) :
    ∃ front back, cs = front ++ back ∧ (∀ c ∈ front, c.old.stop ≤ k) ∧
      ∀ c ∈ back, k < c.old.start := by
  induction cs generalizing i with
  | nil => exact ⟨[], [], rfl, by simp, by simp⟩
  | cons c rest ih =>
      rcases hk c (by simp) with hstop | hstart
      · have ⟨front, back, heq, hfront, hback⟩ := ih h.tail fun d hd => hk d (by simp [hd])
        refine ⟨c :: front, back, by rw [heq]; rfl, ?_, hback⟩
        intro d hd
        rcases List.mem_cons.mp hd with rfl | hd
        · exact hstop
        · exact hfront d hd
      · refine ⟨[], c :: rest, rfl, by simp, ?_⟩
        intro d hd
        rcases List.mem_cons.mp hd with rfl | hd
        · exact hstart
        · have := h.head.2
          have := (h.tail.starts d hd).1
          omega

/-- The element between two groups of changes is kept between what they give. -/
theorem patchFrom_kept {front back : List Change} (h : InOrder i (front ++ back)) (hi : i ≤ k)
    (hk : k < xs.length) (hfront : ∀ c ∈ front, c.old.stop ≤ k)
    (hback : ∀ c ∈ back, k < c.old.start) :
    patchFrom xs ys i (front ++ back) =
      patchFrom (xs.take k) ys i front ++ xs[k] :: patchFrom xs ys (k + 1) back := by
  induction front generalizing i with
  | nil =>
      have hin : InOrder (k + 1) back := ⟨fun c hc => ⟨hback c hc, (h.starts c hc).2⟩, h.apart⟩
      rw [List.nil_append, patchFrom_of_le (Nat.le_succ_of_le hi) hin]
      have hone : slice xs ⟨i, k + 1⟩ = (xs.take k).drop i ++ [xs[k]] := by
        rw [← slice_append xs hi (Nat.le_succ k), slice_singleton, List.getElem?_eq_getElem hk]
        rfl
      rw [hone, List.append_assoc]
      rfl
  | cons c front ih =>
      have hstop := hfront c (by simp)
      have ih := ih h.tail hstop fun d hd => hfront d (by simp [hd])
      show slice xs ⟨i, c.old.start⟩ ++ slice ys c.new ++ patchFrom xs ys c.old.stop (front ++ back) =
        slice (xs.take k) ⟨i, c.old.start⟩ ++ slice ys c.new ++
          patchFrom (xs.take k) ys c.old.stop front ++ _
      have hstart : c.old.start ≤ k := Nat.le_trans h.head.2 hstop
      rw [ih]
      simp only [slice, List.take_take, Nat.min_eq_left hstart, List.append_assoc]

end Kept

/-! ## Changes as splices -/

section Flatten

variable {xs ys : List (List α)} {i : Nat} {cs : List Change}

/-- The change as a splice of what the lists make up. -/
def Change.splice (xs ys : List (List α)) (c : Change) : Splice α :=
  ⟨(xs.take c.old.start).flatten.length, (xs.take c.old.stop).flatten.length,
    (slice ys c.new).flatten⟩

theorem take_append_slice (xs : List α) {i j : Nat} (hij : i ≤ j) :
    xs.take i ++ slice xs ⟨i, j⟩ = xs.take j := by
  have hslice : slice xs ⟨0, i⟩ ++ slice xs ⟨i, j⟩ = slice xs ⟨0, j⟩ :=
    slice_append xs (Nat.zero_le _) hij
  exact hslice

theorem length_flatten_take_le (xs : List (List α)) {i j : Nat} (hij : i ≤ j) :
    (xs.take i).flatten.length ≤ (xs.take j).flatten.length := by
  rw [← take_append_slice xs hij, List.flatten_append, List.length_append]
  omega

/-- Changes from the last to the first. -/
theorem foldr_splice (hin : InOrder i cs) :
    cs.foldr (fun c text => Splice.splice text (c.splice xs ys)) xs.flatten =
      (xs.take i).flatten ++ (patchFrom xs ys i cs).flatten := by
  induction cs generalizing i with
  | nil =>
      show xs.flatten = (xs.take i).flatten ++ (xs.drop i).flatten
      rw [← List.flatten_append, List.take_append_drop]
  | cons c rest ih =>
      have hle := hin.head
      rw [List.foldr_cons, ih hin.tail]
      show List.take (xs.take c.old.start).flatten.length _ ++ (slice ys c.new).flatten ++
        List.drop (xs.take c.old.stop).flatten.length _ = _
      rw [List.drop_left, ← take_append_slice xs hle.2, List.flatten_append, List.append_assoc,
        List.append_assoc, List.take_left, ← take_append_slice xs hle.1]
      simp [patchFrom]

/-- Changes of a list of lists, all at once. -/
theorem simultaneous_splice (hin : InOrder 0 cs) (hstops : ∀ c ∈ cs, c.old.stop ≤ xs.length) :
    Splice.simultaneous (cs.map (Change.splice xs ys)) xs.flatten =
      (patchFrom xs ys 0 cs).flatten := by
  have hranges : ∀ s ∈ (cs.map (Change.splice xs ys)).reverse,
      Splice.InRange xs.flatten.length s := by
    intro s hs
    have ⟨c, hc, hsc⟩ := List.mem_map.mp (List.mem_reverse.mp hs)
    rw [← hsc]
    have hall := length_flatten_take_le xs (hstops c hc)
    rw [List.take_length] at hall
    exact ⟨length_flatten_take_le xs (hin.starts c hc).2, hall⟩
  have hback : (cs.map (Change.splice xs ys)).reverse.Pairwise fun s t => t.stop ≤ s.start := by
    rw [List.pairwise_reverse, List.pairwise_map]
    exact hin.apart.imp fun hcd => length_flatten_take_le xs hcd
  have hfold := Splice.foldl_splice hranges hback
  rw [List.reverse_reverse, List.foldl_reverse, List.foldr_map] at hfold
  rw [← hfold, foldr_splice hin]
  rfl

end Flatten

end PhpantomLsp.Lib
