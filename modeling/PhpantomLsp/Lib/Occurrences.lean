import Mathlib.Data.List.Infix
import Mathlib.Order.Bounds.Basic

/-!
# Where a pattern occurs in a list

A forward search restarts behind each match, a backward search looks for the last
match that ends before the one it found last.  Both see every occurrence of a pattern
that does not overlap itself (`mem_matches_iff`, `Unbordered.le_of_prefix`).
-/

namespace PhpantomLsp.Lib.Occurrences

variable {α : Type*}

/-- The last position from which on the list satisfies `p`. -/
def rposition (p : List α → Bool) : List α → Option Nat
  | [] => none
  | b :: rest =>
      match rposition p rest with
      | some n => some (n + 1)
      | none => if p (b :: rest) then some 0 else none

/-- `r` is the greatest number that satisfies `s`, if any does. -/
def IsLast (s : Nat → Prop) : Option Nat → Prop
  | none => ∀ n, ¬ s n
  | some n => IsGreatest {m | s m} n

theorem IsLast.unique {s : Nat → Prop} {r r' : Option Nat} (h : IsLast s r) (h' : IsLast s r') :
    r = r' := by
  cases r with
  | none =>
      cases r' with
      | none => rfl
      | some n => exact absurd h'.1 (h n)
  | some n =>
      cases r' with
      | none => exact absurd h.1 (h' n)
      | some m => rw [IsGreatest.unique h h']

theorem IsLast.congr {s s' : Nat → Prop} {r : Option Nat} (h : IsLast s r)
    (hiff : ∀ n, s n ↔ s' n) : IsLast s' r := by
  rwa [show s' = s from funext fun n => propext (hiff n).symm]

theorem rposition_isLast (p : List α → Bool) (xs : List α) :
    IsLast (fun n => n < xs.length ∧ p (xs.drop n) = true) (rposition p xs) := by
  induction xs with
  | nil => exact fun n h => absurd h.1 (Nat.not_lt_zero n)
  | cons b rest ih =>
      rw [rposition]
      cases hrest : rposition p rest with
      | some m =>
          rw [hrest] at ih
          have hm := ih.1
          refine ⟨⟨Nat.succ_lt_succ hm.1, hm.2⟩, fun n hn => ?_⟩
          cases n with
          | zero => exact Nat.zero_le _
          | succ n => exact Nat.succ_le_succ (ih.2 ⟨Nat.lt_of_succ_lt_succ hn.1, hn.2⟩)
      | none =>
          rw [hrest] at ih
          -- nothing further on, so the first position is the only candidate
          have honly : ∀ n, n < (b :: rest).length ∧ p ((b :: rest).drop n) = true → n = 0 := by
            intro n hn
            cases n with
            | zero => rfl
            | succ n => exact absurd ⟨Nat.lt_of_succ_lt_succ hn.1, hn.2⟩ (ih n)
          by_cases hp : p (b :: rest) = true
          · simp only [hp, if_true]
            exact ⟨⟨Nat.succ_pos _, hp⟩, fun n hn => (honly n hn).le⟩
          · simp only [hp, if_false, Bool.false_eq_true]
            intro n hn
            have hzero := honly n hn
            subst hzero
            exact hp hn.2

theorem rposition_lt {p : List α → Bool} {xs : List α} {n : Nat} (h : rposition p xs = some n) :
    n < xs.length := by
  have hlast := rposition_isLast p xs
  rw [h] at hlast
  exact hlast.1.1

variable [DecidableEq α] {needle : List α}

/-- `memmem::rfind`, for a pattern that is not empty. -/
def rfind (needle text : List α) : Option Nat := rposition needle.isPrefixOf text

/-- `memmem::find_iter` on the text from `pos` on: the matches from left to right, each
search starting behind the match before. -/
def matches' (needle : List α) : (pos skip : Nat) → List α → List Nat
  | _, _, [] => []
  | pos, skip + 1, _ :: rest => matches' needle (pos + 1) skip rest
  | pos, 0, b :: rest =>
      if needle.isPrefixOf (b :: rest) then
        pos :: matches' needle (pos + 1) (needle.length - 1) rest
      else matches' needle (pos + 1) 0 rest

/-- `memmem::find_iter`. -/
def findIter (needle text : List α) : List Nat := matches' needle 0 0 text

/-- No end of the pattern is a beginning of it, so no two occurrences overlap. -/
structure Unbordered (needle : List α) : Prop where
  ne_nil : needle ≠ []
  apart : ∀ i < needle.length, 0 < i → ¬ needle.drop i <+: needle

omit [DecidableEq α] in
theorem Unbordered.length_pos (h : Unbordered needle) : 0 < needle.length :=
  List.length_pos_of_ne_nil h.ne_nil

omit [DecidableEq α] in
/-- The second of two occurrences starts behind the first. -/
theorem Unbordered.le_of_prefix (h : Unbordered needle) {text : List α} {k : Nat} (hk : 0 < k)
    (hfirst : needle <+: text) (hsecond : needle <+: text.drop k) : needle.length ≤ k := by
  by_contra hlt
  have hrest : needle.drop k <+: text.drop k := hfirst.drop k
  have hlength : (needle.drop k).length ≤ needle.length := by
    rw [List.length_drop]
    omega
  exact h.apart k (by omega) hk (List.prefix_of_prefix_length_le hrest hsecond hlength)

omit [DecidableEq α] in
theorem prefix_length_le {text : List α} {k : Nat} (hne : needle ≠ [])
    (h : needle <+: text.drop k) : k + needle.length ≤ text.length := by
  have hle := h.length_le
  have hpos := List.length_pos_of_ne_nil hne
  rw [List.length_drop] at hle
  omega

/-- A backward search sees the last occurrence that ends where the text is cut. -/
theorem rfind_isLast (hne : needle ≠ []) (text : List α) (stop : Nat) :
    IsLast (fun n => n + needle.length ≤ stop ∧ needle <+: text.drop n)
      (rfind needle (text.take stop)) := by
  refine (rposition_isLast _ _).congr fun n => ?_
  rw [List.isPrefixOf_iff_prefix, List.drop_take, List.prefix_take_iff, List.length_take]
  have hpos := List.length_pos_of_ne_nil hne
  constructor
  · intro h
    exact ⟨by omega, h.2.1⟩
  · intro h
    have hle := prefix_length_le hne h.2
    exact ⟨by omega, h.2, by omega⟩

/-- A forward search sees every occurrence of a pattern that does not overlap itself. -/
theorem mem_matches_iff (h : Unbordered needle) {pos skip n : Nat} {text : List α} :
    n ∈ matches' needle pos skip text ↔
      ∃ k, n = pos + k ∧ skip ≤ k ∧ needle <+: text.drop k := by
  induction text generalizing pos skip with
  | nil =>
      simp only [matches', List.not_mem_nil, List.drop_nil, List.prefix_nil, false_iff]
      exact fun hk => hk.elim fun _ hk => h.ne_nil hk.2.2
  | cons b rest ih =>
      cases skip with
      | succ skip =>
          rw [matches', ih]
          constructor
          · rintro ⟨k, rfl, hskip, hk⟩
            exact ⟨k + 1, by omega, by omega, hk⟩
          · rintro ⟨k, rfl, hskip, hk⟩
            cases k with
            | zero => omega
            | succ k => exact ⟨k, by omega, by omega, hk⟩
      | zero =>
          by_cases hfirst : needle <+: b :: rest
          · rw [matches', if_pos (List.isPrefixOf_iff_prefix.mpr hfirst), List.mem_cons, ih]
            constructor
            · rintro (rfl | ⟨k, rfl, -, hk⟩)
              · exact ⟨0, rfl, le_refl _, hfirst⟩
              · exact ⟨k + 1, by omega, by omega, hk⟩
            · rintro ⟨k, rfl, -, hk⟩
              cases k with
              | zero => exact .inl rfl
              | succ k =>
                  have hle := h.le_of_prefix (Nat.succ_pos k) hfirst hk
                  exact .inr ⟨k, by omega, by omega, hk⟩
          · rw [matches', if_neg (mt List.isPrefixOf_iff_prefix.mp hfirst), ih]
            constructor
            · rintro ⟨k, rfl, -, hk⟩
              exact ⟨k + 1, by omega, by omega, hk⟩
            · rintro ⟨k, rfl, -, hk⟩
              cases k with
              | zero => exact absurd hk hfirst
              | succ k => exact ⟨k, by omega, by omega, hk⟩

theorem mem_findIter_iff (h : Unbordered needle) {n : Nat} {text : List α} :
    n ∈ findIter needle text ↔ needle <+: text.drop n := by
  rw [findIter, mem_matches_iff h]
  constructor
  · rintro ⟨k, rfl, -, hk⟩
    rwa [Nat.zero_add]
  · exact fun hn => ⟨n, (Nat.zero_add n).symm, Nat.zero_le n, hn⟩

theorem matches_pairwise (pos skip : Nat) (text : List α) :
    (∀ n ∈ matches' needle pos skip text, pos ≤ n) ∧
      (matches' needle pos skip text).Pairwise (· < ·) := by
  induction text generalizing pos skip with
  | nil => exact ⟨fun n hn => absurd hn List.not_mem_nil, .nil⟩
  | cons b rest ih =>
      cases skip with
      | succ skip =>
          have hrest := ih (pos + 1) skip
          exact ⟨fun n hn => Nat.le_of_succ_le (hrest.1 n hn), hrest.2⟩
      | zero =>
          rw [matches']
          split
          · have hrest := ih (pos + 1) (needle.length - 1)
            refine ⟨fun n hn => ?_, .cons (fun n hn => hrest.1 n hn) hrest.2⟩
            cases hn with
            | head => exact le_refl _
            | tail _ hn => exact Nat.le_of_succ_le (hrest.1 n hn)
          · have hrest := ih (pos + 1) 0
            exact ⟨fun n hn => Nat.le_of_succ_le (hrest.1 n hn), hrest.2⟩

theorem findIter_pairwise (text : List α) : (findIter needle text).Pairwise (· < ·) :=
  (matches_pairwise 0 0 text).2

end PhpantomLsp.Lib.Occurrences
