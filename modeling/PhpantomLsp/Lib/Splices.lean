import Mathlib

/-!
# Splices, one by one and at once

A splice puts a text in place of the elements from `start` to `stop`.
`simultaneous` applies a list of splices at once, to the places of the list
they were written for: a place first yields the texts inserted there, in
order, then the text that replaces a range starting there, and then its
element, unless a replaced range covers it.

Splices that are applied one by one, each to the result of the ones before,
mean the same when none reaches past the start of a splice applied before it
(`foldl_splice`).  The texts inserted at one place then come out in the
opposite order.
-/

namespace PhpantomLsp.Lib

/-- Put `text` in place of the elements from `start` to `stop`. -/
structure Splice (α : Type*) where
  start : Nat
  stop : Nat
  text : List α

namespace Splice

variable {α : Type*}

def splice (xs : List α) (s : Splice α) : List α :=
  xs.take s.start ++ s.text ++ xs.drop s.stop

/-- The splice inserts at `k`. -/
def InsertsAt (k : Nat) (s : Splice α) : Prop := s.start = k ∧ s.stop = k

/-- The splice replaces a range that starts at `k`. -/
def ReplacesAt (k : Nat) (s : Splice α) : Prop := s.start = k ∧ k < s.stop

/-- The splice replaces the element at `k`. -/
def Covers (k : Nat) (s : Splice α) : Prop := s.start ≤ k ∧ k < s.stop

instance (k : Nat) (s : Splice α) : Decidable (InsertsAt k s) := inferInstanceAs (Decidable (_ ∧ _))
instance (k : Nat) (s : Splice α) : Decidable (ReplacesAt k s) := inferInstanceAs (Decidable (_ ∧ _))
instance (k : Nat) (s : Splice α) : Decidable (Covers k s) := inferInstanceAs (Decidable (_ ∧ _))

/-- The texts inserted at `k`, in order. -/
def insertedAt (ss : List (Splice α)) (k : Nat) : List α :=
  (ss.filter (InsertsAt k ·)).flatMap text

/-- The texts that replace a range starting at `k`. -/
def replacementAt (ss : List (Splice α)) (k : Nat) : List α :=
  (ss.filter (ReplacesAt k ·)).flatMap text

/-- The element at `k`, unless a splice replaces it. -/
def keptAt (ss : List (Splice α)) (xs : List α) (k : Nat) : List α :=
  if ∃ s ∈ ss, Covers k s then [] else xs[k]?.toList

/-- What place `k` yields. -/
def emit (ss : List (Splice α)) (xs : List α) (k : Nat) : List α :=
  insertedAt ss k ++ replacementAt ss k ++ keptAt ss xs k

/-- Apply all the splices to the one list they were written for. -/
def simultaneous (ss : List (Splice α)) (xs : List α) : List α :=
  (List.range (xs.length + 1)).flatMap (emit ss xs)

/-! ## One splice more -/

/-- The splice is a range of a list of length `n`. -/
def InRange (n : Nat) (s : Splice α) : Prop := s.start ≤ s.stop ∧ s.stop ≤ n

theorem insertedAt_append (ss ts : List (Splice α)) (k : Nat) :
    insertedAt (ss ++ ts) k = insertedAt ss k ++ insertedAt ts k := by
  simp [insertedAt]

theorem replacementAt_append (ss ts : List (Splice α)) (k : Nat) :
    replacementAt (ss ++ ts) k = replacementAt ss k ++ replacementAt ts k := by
  simp [replacementAt]

theorem insertedAt_singleton {s : Splice α} {k : Nat} (h : InsertsAt k s) :
    insertedAt [s] k = s.text := by
  simp [insertedAt, h]

/-- No splice of `ss` inserts at `k`. -/
theorem insertedAt_eq_nil {ss : List (Splice α)} {k : Nat} (h : ∀ s ∈ ss, ¬ InsertsAt k s) :
    insertedAt ss k = [] := by
  have hnone : ss.filter (InsertsAt k ·) = [] := by
    apply List.filter_eq_nil_iff.mpr
    intro s hs
    simpa using h s hs
  simp [insertedAt, hnone]

theorem replacementAt_eq_nil {ss : List (Splice α)} {k : Nat} (h : ∀ s ∈ ss, ¬ ReplacesAt k s) :
    replacementAt ss k = [] := by
  have hnone : ss.filter (ReplacesAt k ·) = [] := by
    apply List.filter_eq_nil_iff.mpr
    intro s hs
    simpa using h s hs
  simp [replacementAt, hnone]

theorem keptAt_of_not_covered {ss : List (Splice α)} {k : Nat} (h : ∀ s ∈ ss, ¬ Covers k s)
    (xs : List α) : keptAt ss xs k = xs[k]?.toList := by
  apply if_neg
  rintro ⟨s, hs, hc⟩
  exact h s hs hc

/-- The elements of a list, place by place. -/
theorem flatMap_getElem?_range' (xs : List α) (k : Nat) :
    (List.range' k (xs.length + 1 - k)).flatMap (fun i => xs[i]?.toList) = xs.drop k := by
  by_cases hk : k < xs.length
  · have hlen : xs.length + 1 - k = xs.length + 1 - (k + 1) + 1 := by omega
    rw [hlen, List.range'_succ, List.flatMap_cons, flatMap_getElem?_range' xs (k + 1),
      List.getElem?_eq_getElem hk, ← List.getElem_cons_drop hk]
    rfl
  · rw [List.drop_eq_nil_of_le (by omega)]
    apply List.flatMap_eq_nil_iff.mpr
    intro i hi
    have hi := (List.mem_range'_1.mp hi).1
    simp [List.getElem?_eq_none (show xs.length ≤ i by omega)]
termination_by xs.length - k

/-- Past every splice, the places yield their elements. -/
theorem emit_past {ss : List (Splice α)} (xs : List α) {k : Nat}
    (h : ∀ s ∈ ss, s.start < k ∧ s.stop ≤ k) :
    (List.range' k (xs.length + 1 - k)).flatMap (emit ss xs) = xs.drop k := by
  rw [← flatMap_getElem?_range' xs k]
  apply List.flatMap_congr
  intro i hi
  have hi := (List.mem_range'_1.mp hi).1
  have hins : insertedAt ss i = [] := by
    apply insertedAt_eq_nil
    intro s hs hat
    have := h s hs
    have := hat.1
    omega
  have hrep : replacementAt ss i = [] := by
    apply replacementAt_eq_nil
    intro s hs hat
    have := h s hs
    have := hat.1
    omega
  have hkept : keptAt ss xs i = xs[i]?.toList := by
    apply keptAt_of_not_covered
    intro s hs hat
    have := h s hs
    have := hat.2
    omega
  simp [emit, hins, hrep, hkept]

/-- `simultaneous`, cut at a place. -/
theorem simultaneous_cut (ss : List (Splice α)) {xs : List α} {m : Nat} (hm : m ≤ xs.length) :
    simultaneous ss xs = (List.range m).flatMap (emit ss xs) ++ emit ss xs m ++
      (List.range' (m + 1) (xs.length + 1 - (m + 1))).flatMap (emit ss xs) := by
  have hhead : List.range m ++ [m] = List.range (m + 1) := List.range_succ.symm
  have htail : List.range (m + 1) ++ List.range' (m + 1) (xs.length + 1 - (m + 1)) =
      List.range (xs.length + 1) := by
    simpa only [List.range_eq_range', Nat.zero_add,
      Nat.add_sub_of_le (show m + 1 ≤ xs.length + 1 by omega)] using
      (List.range'_append_1 (s := 0) (m := m + 1) (n := xs.length + 1 - (m + 1)))
  rw [simultaneous, ← htail, ← hhead]
  simp

/-- The splices all end by `m`: what follows `m` is left alone. -/
theorem simultaneous_upTo {ss : List (Splice α)} {xs : List α} {m : Nat} (hm : m ≤ xs.length)
    (h : ∀ s ∈ ss, s.start ≤ s.stop ∧ s.stop ≤ m) :
    simultaneous ss xs =
      (List.range m).flatMap (emit ss xs) ++ insertedAt ss m ++ xs.drop m := by
  have hrep : replacementAt ss m = [] := by
    apply replacementAt_eq_nil
    intro s hs hat
    have := h s hs
    have := hat.2
    omega
  have hkept : keptAt ss xs m = xs[m]?.toList := by
    apply keptAt_of_not_covered
    intro s hs hat
    have := h s hs
    have := hat.2
    omega
  have hpast : (List.range' (m + 1) (xs.length + 1 - (m + 1))).flatMap (emit ss xs) =
      xs.drop (m + 1) := by
    apply emit_past
    intro s hs
    have := h s hs
    omega
  have hdrop : xs.drop m = xs[m]?.toList ++ xs.drop (m + 1) := by
    rw [List.drop_eq_getElem?_toList_append]
  rw [simultaneous_cut ss hm, hpast, emit, hrep, hkept, hdrop]
  simp

/-- Splices that end by `m` do not see what a list holds from `m` on. -/
theorem emit_upTo {ss : List (Splice α)} {xs ys : List α} {m k : Nat}
    (hxy : xs.take m = ys.take m) (hk : k < m) : emit ss xs k = emit ss ys k := by
  have hget : xs[k]? = ys[k]? := by
    rw [← List.getElem?_take_of_lt hk, hxy, List.getElem?_take_of_lt hk]
  simp only [emit, keptAt, hget]

/-- A splice past `k` changes nothing there. -/
theorem emit_concat_past (ss : List (Splice α)) (xs : List α) {s : Splice α} {k : Nat}
    (hk : k < s.start) : emit (ss ++ [s]) xs k = emit ss xs k := by
  have hins : insertedAt [s] k = [] := by
    apply insertedAt_eq_nil
    intro t ht hat
    rw [List.mem_singleton.mp ht] at hat
    have := hat.1
    omega
  have hrep : replacementAt [s] k = [] := by
    apply replacementAt_eq_nil
    intro t ht hat
    rw [List.mem_singleton.mp ht] at hat
    have := hat.1
    omega
  have hcov : ¬ Covers k s := by
    intro hat
    have := hat.1
    omega
  have hkept : keptAt (ss ++ [s]) xs k = keptAt ss xs k := by
    simp [keptAt, or_and_right, exists_or, hcov]
  rw [emit, insertedAt_append, replacementAt_append, hins, hrep, hkept]
  simp [emit]

/-- Splices in another order, the same at each place. -/
theorem simultaneous_congr {ss ts : List (Splice α)}
    (hinserts : ∀ k, ss.filter (InsertsAt k ·) = ts.filter (InsertsAt k ·))
    (hreplaces : ∀ k, ss.filter (ReplacesAt k ·) = ts.filter (ReplacesAt k ·))
    (hmem : ∀ s, s ∈ ss ↔ s ∈ ts) (xs : List α) : simultaneous ss xs = simultaneous ts xs := by
  apply List.flatMap_congr
  intro k _
  simp only [emit, insertedAt, replacementAt, keptAt, hinserts, hreplaces, hmem]

section Last

/-! A last splice that no other reaches past the start of. -/

variable {ss : List (Splice α)} {xs : List α} {s : Splice α}

/-- The places from the start of the last splice on. -/
def fromLast (ss : List (Splice α)) (xs : List α) (s : Splice α) : List α :=
  emit (ss ++ [s]) xs s.start ++
    (List.range' (s.start + 1) (xs.length + 1 - (s.start + 1))).flatMap (emit (ss ++ [s]) xs)

theorem mem_concat_cases (h : ∀ t ∈ ss, t.start ≤ t.stop ∧ t.stop ≤ s.start)
    {t : Splice α} (ht : t ∈ ss ++ [s]) :
    t = s ∨ (t.start ≤ t.stop ∧ t.stop ≤ s.start) := by
  rcases List.mem_append.mp ht with ht | ht
  · exact Or.inr (h t ht)
  · exact Or.inl (List.mem_singleton.mp ht)

theorem no_replacement_at_last (h : ∀ t ∈ ss, t.start ≤ t.stop ∧ t.stop ≤ s.start) :
    replacementAt ss s.start = [] := by
  apply replacementAt_eq_nil
  intro t ht hat
  have := h t ht
  have := hat.2
  omega

/-- An insertion: its place keeps its element. -/
theorem fromLast_insertion (hins : s.stop = s.start)
    (h : ∀ t ∈ ss, t.start ≤ t.stop ∧ t.stop ≤ s.start) :
    fromLast ss xs s = insertedAt ss s.start ++ s.text ++ xs.drop s.stop := by
  have hself : insertedAt [s] s.start = s.text := insertedAt_singleton ⟨rfl, hins⟩
  have hnone : replacementAt [s] s.start = [] := by
    simp [replacementAt, ReplacesAt, hins]
  have hkept : keptAt (ss ++ [s]) xs s.start = xs[s.start]?.toList := by
    apply keptAt_of_not_covered
    intro t ht hat
    have := hat.2
    rcases mem_concat_cases h ht with rfl | ht <;> omega
  have hpast : (List.range' (s.start + 1) (xs.length + 1 - (s.start + 1))).flatMap
      (emit (ss ++ [s]) xs) = xs.drop (s.start + 1) := by
    apply emit_past
    intro t ht
    rcases mem_concat_cases h ht with rfl | ht <;> omega
  have hdrop : xs.drop s.start = xs[s.start]?.toList ++ xs.drop (s.start + 1) :=
    List.drop_eq_getElem?_toList_append
  rw [fromLast, hpast, emit, insertedAt_append, replacementAt_append, hself, hnone,
    no_replacement_at_last h, hkept, hins, hdrop]
  simp

/-- A replacement: the places it covers yield its text only. -/
theorem fromLast_replacement (hlt : s.start < s.stop) (hs : InRange xs.length s)
    (h : ∀ t ∈ ss, t.start ≤ t.stop ∧ t.stop ≤ s.start) :
    fromLast ss xs s = insertedAt ss s.start ++ s.text ++ xs.drop s.stop := by
  have hself : replacementAt [s] s.start = s.text := by
    simp [replacementAt, ReplacesAt, hlt]
  have hnone : insertedAt [s] s.start = [] := by
    simp [insertedAt, InsertsAt, Nat.ne_of_gt hlt]
  have hcovered (k : Nat) (hk : s.start ≤ k ∧ k < s.stop) : keptAt (ss ++ [s]) xs k = [] := by
    apply if_pos
    exact ⟨s, by simp, hk⟩
  have hcut : List.range' (s.start + 1) (xs.length + 1 - (s.start + 1)) =
      List.range' (s.start + 1) (s.stop - (s.start + 1)) ++
        List.range' s.stop (xs.length + 1 - s.stop) := by
    have hstop : s.start + 1 + (s.stop - (s.start + 1)) = s.stop := by omega
    have hlen : s.stop - (s.start + 1) + (xs.length + 1 - s.stop) =
        xs.length + 1 - (s.start + 1) := by
      have := hs.2
      omega
    rw [← hlen, ← List.range'_append_1, hstop]
  have hinner : (List.range' (s.start + 1) (s.stop - (s.start + 1))).flatMap
      (emit (ss ++ [s]) xs) = [] := by
    apply List.flatMap_eq_nil_iff.mpr
    intro k hk
    have hk := List.mem_range'_1.mp hk
    have hi : insertedAt (ss ++ [s]) k = [] := by
      apply insertedAt_eq_nil
      intro t ht hat
      have := hat.1
      rcases mem_concat_cases h ht with rfl | ht <;> omega
    have hr : replacementAt (ss ++ [s]) k = [] := by
      apply replacementAt_eq_nil
      intro t ht hat
      have := hat.1
      rcases mem_concat_cases h ht with rfl | ht <;> omega
    rw [emit, hi, hr, hcovered k (by omega)]
    rfl
  have hpast : (List.range' s.stop (xs.length + 1 - s.stop)).flatMap (emit (ss ++ [s]) xs) =
      xs.drop s.stop := by
    apply emit_past
    intro t ht
    rcases mem_concat_cases h ht with rfl | ht <;> omega
  rw [fromLast, hcut, List.flatMap_append, hinner, hpast, emit, insertedAt_append,
    replacementAt_append, hself, hnone, no_replacement_at_last h,
    hcovered s.start ⟨Nat.le_refl _, hlt⟩]
  simp

theorem fromLast_eq (hs : InRange xs.length s)
    (h : ∀ t ∈ ss, t.start ≤ t.stop ∧ t.stop ≤ s.start) :
    fromLast ss xs s = insertedAt ss s.start ++ s.text ++ xs.drop s.stop := by
  by_cases hins : s.stop = s.start
  · exact fromLast_insertion hins h
  · apply fromLast_replacement _ hs h
    have := hs.1
    omega

end Last

/-- One splice more, past all the others: apply it first. -/
theorem simultaneous_concat {ss : List (Splice α)} {xs : List α} {s : Splice α}
    (hs : InRange xs.length s) (h : ∀ t ∈ ss, t.start ≤ t.stop ∧ t.stop ≤ s.start) :
    simultaneous (ss ++ [s]) xs = simultaneous ss (splice xs s) := by
  have hstart : s.start ≤ xs.length := by
    have := hs.1
    have := hs.2
    omega
  have htake : (splice xs s).take s.start = xs.take s.start := by
    rw [splice, List.append_assoc, List.take_append_of_le_length (by simp [hstart])]
    simp
  have hdrop : (splice xs s).drop s.start = s.text ++ xs.drop s.stop := by
    rw [splice, List.append_assoc, List.drop_append_of_le_length (by simp [hstart])]
    simp
  have hlen : s.start ≤ (splice xs s).length := by
    simp [splice]
    omega
  have hbefore : (List.range s.start).flatMap (emit (ss ++ [s]) xs) =
      (List.range s.start).flatMap (emit ss (splice xs s)) := by
    apply List.flatMap_congr
    intro k hk
    have hk := List.mem_range.mp hk
    rw [emit_concat_past ss xs hk]
    exact emit_upTo htake.symm hk
  have hlast := fromLast_eq hs h
  rw [fromLast] at hlast
  rw [simultaneous_cut _ hstart, List.append_assoc, hlast, hbefore,
    simultaneous_upTo hlen h, hdrop]
  simp

/-- Splices one by one, each ending by the start of every one before it. -/
theorem foldl_splice {ss : List (Splice α)} {xs : List α}
    (hranges : ∀ s ∈ ss, InRange xs.length s)
    (hback : ss.Pairwise fun s t => t.stop ≤ s.start) :
    ss.foldl splice xs = simultaneous ss.reverse xs := by
  induction ss generalizing xs with
  | nil =>
      have hpast := @emit_past α [] xs 0 (by simp)
      rw [Nat.sub_zero, ← List.range_eq_range'] at hpast
      exact hpast.symm
  | cons s rest ih =>
      have hback := List.pairwise_cons.mp hback
      have hs : InRange xs.length s := hranges s (by simp)
      have hrest : ∀ t ∈ rest, t.start ≤ t.stop ∧ t.stop ≤ s.start := by
        intro t ht
        exact ⟨(hranges t (by simp [ht])).1, hback.1 t ht⟩
      have hlen : s.start ≤ (splice xs s).length := by
        have := hs.1
        have := hs.2
        simp [splice]
        omega
      have hinner : ∀ t ∈ rest, InRange (splice xs s).length t := by
        intro t ht
        have := hrest t ht
        exact ⟨this.1, by omega⟩
      show rest.foldl splice (splice xs s) = simultaneous (s :: rest).reverse xs
      rw [ih hinner hback.2, List.reverse_cons,
        simultaneous_concat hs (fun t ht => hrest t (List.mem_reverse.mp ht))]

/-! ## What the insertions at one place contribute -/

/-- The splices that do not insert at `k`. -/
def elsewhere (ss : List (Splice α)) (k : Nat) : List (Splice α) :=
  ss.filter (¬ InsertsAt k ·)

theorem filter_elsewhere {ss : List (Splice α)} {k : Nat} {p : Splice α → Bool}
    (h : ∀ s, p s → ¬ InsertsAt k s) : (elsewhere ss k).filter p = ss.filter p := by
  rw [elsewhere, List.filter_filter]
  apply List.filter_congr
  intro s _
  by_cases hs : p s
  · simp [hs, h s hs]
  · simp [hs]

theorem keptAt_elsewhere (ss : List (Splice α)) (xs : List α) (i k : Nat) :
    keptAt (elsewhere ss k) xs i = keptAt ss xs i := by
  have hcov : (∃ s ∈ elsewhere ss k, Covers i s) ↔ ∃ s ∈ ss, Covers i s := by
    constructor
    · rintro ⟨s, hs, hc⟩
      exact ⟨s, (List.mem_filter.mp hs).1, hc⟩
    · rintro ⟨s, hs, hc⟩
      refine ⟨s, List.mem_filter.mpr ⟨hs, ?_⟩, hc⟩
      have hnot : ¬ InsertsAt k s := by
        rintro ⟨hstart, hstop⟩
        have := hc.1
        have := hc.2
        omega
      simpa using hnot
  simp only [keptAt, hcov]

theorem replacementAt_elsewhere (ss : List (Splice α)) (i k : Nat) :
    replacementAt (elsewhere ss k) i = replacementAt ss i := by
  have hfilter := @filter_elsewhere _ ss k (fun s => decide (ReplacesAt i s)) (by
    intro s hs hins
    have hs : s.start = i ∧ i < s.stop := of_decide_eq_true hs
    have := hins.1
    have := hins.2
    omega)
  rw [replacementAt, replacementAt, hfilter]

theorem emit_elsewhere (ss : List (Splice α)) (xs : List α) {i k : Nat} (hik : i ≠ k) :
    emit (elsewhere ss k) xs i = emit ss xs i := by
  have hfilter := @filter_elsewhere _ ss k (fun s => decide (InsertsAt i s)) (by
    intro s hs hins
    have hs : s.start = i ∧ s.stop = i := of_decide_eq_true hs
    have := hins.1
    omega)
  rw [emit, emit, insertedAt, insertedAt, hfilter, replacementAt_elsewhere, keptAt_elsewhere]

/-- What is in front of the texts inserted at `k`. -/
def beforeInsertions (ss : List (Splice α)) (xs : List α) (k : Nat) : List α :=
  (List.range k).flatMap (emit (elsewhere ss k) xs)

/-- What is behind them. -/
def afterInsertions (ss : List (Splice α)) (xs : List α) (k : Nat) : List α :=
  replacementAt (elsewhere ss k) k ++ keptAt (elsewhere ss k) xs k ++
    (List.range' (k + 1) (xs.length + 1 - (k + 1))).flatMap (emit (elsewhere ss k) xs)

/-- The texts inserted at `k`, between parts they have no say in. -/
theorem simultaneous_insertions (ss : List (Splice α)) {xs : List α} {k : Nat}
    (hk : k ≤ xs.length) :
    simultaneous ss xs =
      beforeInsertions ss xs k ++ insertedAt ss k ++ afterInsertions ss xs k := by
  have hbefore : (List.range k).flatMap (emit ss xs) = beforeInsertions ss xs k := by
    apply List.flatMap_congr
    intro i hi
    have hi := List.mem_range.mp hi
    exact (emit_elsewhere ss xs (by omega)).symm
  have hafter : (List.range' (k + 1) (xs.length + 1 - (k + 1))).flatMap (emit ss xs) =
      (List.range' (k + 1) (xs.length + 1 - (k + 1))).flatMap (emit (elsewhere ss k) xs) := by
    apply List.flatMap_congr
    intro i hi
    have hi := (List.mem_range'_1.mp hi).1
    exact (emit_elsewhere ss xs (by omega)).symm
  rw [simultaneous_cut ss hk, hbefore, hafter, emit, afterInsertions, replacementAt_elsewhere,
    keptAt_elsewhere]
  simp only [List.append_assoc]

/-- Splices that differ in what they insert at `k` only. -/
theorem simultaneous_of_elsewhere {ss ts : List (Splice α)} {xs : List α} {k : Nat}
    (hk : k ≤ xs.length) (h : elsewhere ts k = elsewhere ss k) :
    simultaneous ts xs =
      beforeInsertions ss xs k ++ insertedAt ts k ++ afterInsertions ss xs k := by
  rw [simultaneous_insertions ts hk, beforeInsertions, afterInsertions, h]
  rfl

/-! ## Splices inside a prefix -/

/-- Splices that end inside a prefix leave the rest alone. -/
theorem foldl_splice_append {ss : List (Splice α)} {xs : List α} (rest : List α)
    (hranges : ∀ s ∈ ss, InRange xs.length s) (hback : ss.Pairwise fun s t => t.stop ≤ s.start) :
    ss.foldl splice (xs ++ rest) = ss.foldl splice xs ++ rest := by
  induction ss generalizing xs with
  | nil => rfl
  | cons s ss ih =>
      have hback := List.pairwise_cons.mp hback
      have hs : InRange xs.length s := hranges s (by simp)
      have hstart : s.start ≤ xs.length := Nat.le_trans hs.1 hs.2
      have hfirst : splice (xs ++ rest) s = splice xs s ++ rest := by
        rw [splice, splice, List.take_append_of_le_length hstart,
          List.drop_append_of_le_length hs.2]
        simp
      have hinner : ∀ t ∈ ss, InRange (splice xs s).length t := by
        intro t ht
        have hle := hback.1 t ht
        refine ⟨(hranges t (by simp [ht])).1, ?_⟩
        simp [splice]
        omega
      show ss.foldl splice (splice (xs ++ rest) s) = ss.foldl splice (splice xs s) ++ rest
      rw [hfirst, ih hinner hback.2]

end Splice

end PhpantomLsp.Lib
