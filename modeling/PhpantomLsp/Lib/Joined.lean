import Mathlib.Data.List.DropRight
import Mathlib.Data.List.Infix

/-!
# Lists joined by a separator, and cut at their ends

The join of `pl ++ p :: pr` around `p`, what is left of a concatenation when a
run is dropped from one of its ends, and pairs of neighbours in a concatenation.
-/

namespace PhpantomLsp.Lib

variable {α : Type*}

theorem intercalate_cons_flatMap (sep p : List α) (pr : List (List α)) :
    sep.intercalate (p :: pr) = p ++ pr.flatMap (sep ++ ·) := by
  induction pr generalizing p with
  | nil => simp
  | cons q pr ih => rw [List.intercalate_cons_cons, ih, List.flatMap_cons]; simp

/-- The join around one of its parts. -/
theorem intercalate_append_cons (sep : List α) (pl : List (List α)) (p : List α)
    (pr : List (List α)) :
    sep.intercalate (pl ++ p :: pr) = pl.flatMap (· ++ sep) ++ p ++ pr.flatMap (sep ++ ·) := by
  induction pl with
  | nil => rw [List.nil_append, intercalate_cons_flatMap]; simp
  | cons q pl ih =>
      have hne : pl ++ p :: pr ≠ [] := by simp
      rw [List.cons_append, List.intercalate_cons_of_ne_nil hne, ih, List.flatMap_cons]
      simp only [List.append_assoc]

variable {p : α → Bool}

theorem rdropWhile_append {l b : List α} (h : ∀ c ∈ l.getLast?, p c = false) :
    (l ++ b).rdropWhile p = l ++ b.rdropWhile p := by
  induction b using List.reverseRecOn with
  | nil =>
      rw [List.append_nil, List.rdropWhile_nil, List.append_nil, List.rdropWhile_eq_self_iff]
      intro hne
      rw [h _ (List.getLast?_eq_some_getLast hne)]
      exact Bool.false_ne_true
  | append_singleton b x ih =>
      rw [← List.append_assoc, List.rdropWhile_concat, List.rdropWhile_concat]
      split
      · exact ih
      · rw [List.append_assoc]

theorem rdropWhile_append_of_all {l b : List α} (h : ∀ c ∈ b, p c = true) :
    (l ++ b).rdropWhile p = l.rdropWhile p := by
  induction b using List.reverseRecOn with
  | nil => rw [List.append_nil]
  | append_singleton b x ih =>
      rw [← List.append_assoc, List.rdropWhile_concat_pos _ _ _ (h x (by simp))]
      exact ih fun c hc => h c (by simp [hc])

theorem rdropWhile_split (p : α → Bool) (s : List α) :
    ∃ d, s = s.rdropWhile p ++ d ∧ ∀ c ∈ d, p c = true :=
  ⟨s.rtakeWhile p, List.rdropWhile_append_rtakeWhile.symm, fun _ hc => List.mem_rtakeWhile_imp hc⟩

/-- What a second walk takes that takes all the first one took. -/
theorem rdropWhile_rdropWhile {q : α → Bool} (hpq : ∀ c, p c = true → q c = true) (s : List α) :
    (s.rdropWhile p).rdropWhile q = s.rdropWhile q := by
  obtain ⟨d, hs, hd⟩ := rdropWhile_split p s
  conv_rhs => rw [hs]
  rw [rdropWhile_append_of_all fun c hc => hpq c (hd c hc)]

theorem dropWhile_append_of_head {a r : List α} (h : ∀ c ∈ r.head?, p c = false) :
    (a ++ r).dropWhile p = a.dropWhile p ++ r := by
  rw [List.dropWhile_append]
  split_ifs with hempty
  · have hr : r.dropWhile p = r := by
      cases r with
      | nil => rfl
      | cons c r => exact List.dropWhile_cons_of_neg (by simp [h c rfl])
    rw [hr, List.isEmpty_iff.mp hempty, List.nil_append]
  · rfl

theorem dropWhile_append_of_all {a r : List α} (h : ∀ c ∈ a, p c = true) :
    (a ++ r).dropWhile p = r.dropWhile p := by
  rw [List.dropWhile_append, if_pos (List.isEmpty_iff.mpr (List.dropWhile_eq_nil_iff.mpr h))]

theorem takeWhile_append_of_head {a r : List α} (h : ∀ c ∈ r.head?, p c = false) :
    (a ++ r).takeWhile p = a.takeWhile p := by
  rw [List.takeWhile_append]
  split_ifs with hlen
  · have hr : r.takeWhile p = [] := by
      cases r with
      | nil => rfl
      | cons c r => exact List.takeWhile_cons_of_neg (by simp [h c rfl])
    rw [hr, List.append_nil, (List.takeWhile_prefix p).eq_of_length hlen]
  · rfl

theorem take_eq_of_isPrefix {s t : List α} (h : s <+: t) : t.take s.length = s := by
  obtain ⟨r, rfl⟩ := h
  exact List.take_left

theorem getElem?_append_length (s r : List α) : (s ++ r)[s.length]? = r.head? := by
  rw [List.getElem?_append_right (Nat.le_refl _), Nat.sub_self, List.head?_eq_getElem?]

/-- Two neighbours of a concatenation stand in one of its parts, or the second
begins the second part. -/
theorem not_pair_infix_append {x y : α} {s t : List α} (hs : ¬ [x, y] <:+: s)
    (ht : ¬ [x, y] <:+: t) (hhead : ∀ c ∈ t.head?, c ≠ y) : ¬ [x, y] <:+: s ++ t := by
  induction s with
  | nil => exact ht
  | cons a s ih =>
      rw [List.infix_cons_iff, not_or] at hs
      rw [List.cons_append, List.infix_cons_iff, not_or]
      refine ⟨?_, ih hs.2⟩
      rintro ⟨rest, hrest⟩
      cases s with
      | nil =>
          cases t with
          | nil => simp at hrest
          | cons c t =>
              simp only [List.cons_append, List.nil_append, List.cons.injEq] at hrest
              exact hhead c rfl hrest.2.1.symm
      | cons b s =>
          simp only [List.cons_append, List.nil_append, List.cons.injEq] at hrest
          exact hs.1 ⟨s, by simp [hrest.1, hrest.2.1]⟩

end PhpantomLsp.Lib
