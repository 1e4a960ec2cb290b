import Mathlib

/-!
# Stable sorts

What `List.mergeSort` keeps of the order of its list: a relation that holds of
every earlier and later element holds of the sorted list too, when it can be
read along the sort order (`pairwise_mergeSort_of_pairwise`), and elements
that sort alike stay as they were (`filter_mergeSort`).
-/

namespace PhpantomLsp.Lib

variable {α : Type*} {le : α → α → Bool}

/-- A relation of the list, read along the sort order. -/
theorem pairwise_mergeSort_of_pairwise {Q R : α → α → Prop}
    (trans : ∀ a b c, le a b → le b c → le a c) (total : ∀ a b, le a b || le b a)
    (hkept : ∀ a b, Q a b → le a b → R a b) (hswapped : ∀ a b, Q a b → ¬ le a b → R b a)
    {l : List α} (h : l.Pairwise Q) : (l.mergeSort le).Pairwise R := by
  induction l with
  | nil => simp
  | cons a l ih =>
      have h := List.pairwise_cons.mp h
      obtain ⟨l₁, l₂, hcons, hrest, hbefore⟩ := List.mergeSort_cons trans total a l
      have hsorted := List.pairwise_mergeSort trans total (a :: l)
      have hmem (b : α) (hb : b ∈ l₁ ++ l₂) : b ∈ l := by
        rw [← hrest] at hb
        exact List.mem_mergeSort.mp hb
      have ih := ih h.2
      rw [hrest] at ih
      rw [hcons] at hsorted ⊢
      have ih := List.pairwise_append.mp ih
      have hsorted := (List.pairwise_cons.mp (List.pairwise_append.mp hsorted).2.1).1
      apply List.pairwise_append.mpr
      refine ⟨ih.1, List.pairwise_cons.mpr ⟨?_, ih.2.1⟩, ?_⟩
      · intro b hb
        exact hkept a b (h.1 b (hmem b (by simp [hb]))) (hsorted b hb)
      · intro b hb c hc
        rcases List.mem_cons.mp hc with rfl | hc
        · have hnot := hbefore b hb
          exact hswapped c b (h.1 b (hmem b (by simp [hb]))) (by simpa using hnot)
        · exact ih.2.2 b hb c hc

/-- Elements that sort alike keep their order. -/
theorem filter_mergeSort {p : α → Bool}
    (trans : ∀ a b c, le a b → le b c → le a c) (total : ∀ a b, le a b || le b a)
    (halike : ∀ a b, p a → p b → le a b) (l : List α) :
    (l.mergeSort le).filter p = l.filter p := by
  induction l with
  | nil => simp
  | cons a l ih =>
      obtain ⟨l₁, l₂, hcons, hrest, hbefore⟩ := List.mergeSort_cons trans total a l
      rw [hrest, List.filter_append] at ih
      rw [hcons, List.filter_append]
      by_cases ha : p a
      · have hnone : l₁.filter p = [] := by
          apply List.filter_eq_nil_iff.mpr
          intro b hb hpb
          have hnot := hbefore b hb
          simp [halike a b ha hpb] at hnot
        rw [hnone, List.nil_append] at ih
        rw [hnone, List.nil_append, List.filter_cons_of_pos ha, List.filter_cons_of_pos ha, ih]
      · rw [List.filter_cons_of_neg ha, List.filter_cons_of_neg ha, ih]

/-- Elements that each sort before the earlier ones come out backwards. -/
theorem filter_mergeSort_reverse {p : α → Bool}
    (trans : ∀ a b c, le a b → le b c → le a c) (total : ∀ a b, le a b || le b a)
    {l : List α} (h : l.Pairwise fun a b => p a → p b → ¬ le a b) :
    (l.mergeSort le).filter p = (l.filter p).reverse := by
  induction l with
  | nil => simp
  | cons a l ih =>
      have h := List.pairwise_cons.mp h
      obtain ⟨l₁, l₂, hcons, hrest, -⟩ := List.mergeSort_cons trans total a l
      have hsorted := List.pairwise_mergeSort trans total (a :: l)
      rw [hcons] at hsorted
      have hafter := (List.pairwise_cons.mp (List.pairwise_append.mp hsorted).2.1).1
      have ih := ih h.2
      rw [hrest, List.filter_append] at ih
      rw [hcons, List.filter_append]
      by_cases ha : p a
      · have hnone : l₂.filter p = [] := by
          apply List.filter_eq_nil_iff.mpr
          intro b hb hpb
          have hbl : b ∈ l := by
            apply List.mem_mergeSort.mp
            rw [hrest]
            simp [hb]
          exact h.1 b hbl ha hpb (hafter b hb)
        rw [hnone, List.append_nil] at ih
        rw [List.filter_cons_of_pos ha, List.filter_cons_of_pos ha, hnone, ih]
        simp
      · rw [List.filter_cons_of_neg ha, List.filter_cons_of_neg ha, ih]

/-- A list in order, cut where a property of its first elements ends. -/
theorem filter_append_of_sorted {p : α → Bool} {l : List α} (h : l.Pairwise (le · ·))
    (hdown : ∀ a b, le a b → p b → p a) : l.filter p ++ l.filter (!p ·) = l := by
  induction l with
  | nil => rfl
  | cons a l ih =>
      have h := List.pairwise_cons.mp h
      by_cases ha : p a
      · rw [List.filter_cons_of_pos ha, List.filter_cons_of_neg (by simp [ha]), List.cons_append,
          ih h.2]
      · have hnone : l.filter p = [] := by
          apply List.filter_eq_nil_iff.mpr
          intro b hb hpb
          exact ha (hdown a b (h.1 b hb) hpb)
        have ih := ih h.2
        rw [hnone, List.nil_append] at ih
        rw [List.filter_cons_of_neg ha, List.filter_cons_of_pos (by simp [ha]), hnone,
          List.nil_append, ih]

/-- A relation that fails, fails of an earlier and a later element. -/
theorem exists_split_of_not_pairwise {R : α → α → Prop} {l : List α} (h : ¬ l.Pairwise R) :
    ∃ l₁ a l₂ b l₃, l = l₁ ++ a :: (l₂ ++ b :: l₃) ∧ ¬ R a b := by
  induction l with
  | nil => simp at h
  | cons a l ih =>
      by_cases ha : ∀ b ∈ l, R a b
      · have hl : ¬ l.Pairwise R := by
          intro hl
          exact h (List.pairwise_cons.mpr ⟨ha, hl⟩)
        obtain ⟨l₁, b, l₂, c, l₃, hsplit, hR⟩ := ih hl
        exact ⟨a :: l₁, b, l₂, c, l₃, by rw [hsplit]; rfl, hR⟩
      · push Not at ha
        obtain ⟨b, hb, hR⟩ := ha
        obtain ⟨l₂, l₃, hsplit⟩ := List.append_of_mem hb
        exact ⟨[], a, l₂, b, l₃, by rw [hsplit]; rfl, hR⟩

end PhpantomLsp.Lib
