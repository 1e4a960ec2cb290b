import Mathlib.Data.List.Forall2

/-!
# Comparing two lists place by place

`zipAll r` holds of two lists of one length whose members are related place
by place.  It inherits what a relation has: reflexivity, symmetry and
transitivity, each needed only between members of the lists compared.
-/

namespace PhpantomLsp.Lib

universe u v

variable {α : Type u} {β : Type v}

/-- The two lists have one length, and `r` holds at every place. -/
def zipAll (r : α → β → Bool) : List α → List β → Bool
  | [], [] => true
  | a :: as, b :: bs => r a b && zipAll r as bs
  | _, _ => false

section

variable {r : α → β → Bool} {a : α} {as : List α} {b : β} {bs : List β}

@[simp] theorem zipAll_nil : zipAll r [] [] = true := rfl

@[simp] theorem zipAll_nil_cons : zipAll r [] (b :: bs) = false := rfl

@[simp] theorem zipAll_cons_nil : zipAll r (a :: as) [] = false := rfl

@[simp] theorem zipAll_cons : zipAll r (a :: as) (b :: bs) = (r a b && zipAll r as bs) := rfl

end

theorem zipAll_iff {r : α → β → Bool} {as : List α} {bs : List β} :
    zipAll r as bs = true ↔ List.Forall₂ (fun a b => r a b = true) as bs := by
  induction as generalizing bs with
  | nil => cases bs <;> simp
  | cons a as ih => cases bs <;> simp [ih]

theorem zipAll_length {r : α → β → Bool} {as : List α} {bs : List β}
    (h : zipAll r as bs = true) : as.length = bs.length :=
  (zipAll_iff.mp h).length_eq

theorem zipAll_congr {r s : α → β → Bool} {as : List α} {bs : List β}
    (h : ∀ a ∈ as, ∀ b ∈ bs, r a b = s a b) : zipAll r as bs = zipAll s as bs := by
  induction as generalizing bs with
  | nil => cases bs <;> rfl
  | cons a as ih =>
      cases bs with
      | nil => rfl
      | cons b bs =>
          simp only [zipAll_cons]
          rw [h a (by simp) b (by simp), ih]
          intro c hc d hd
          exact h c (List.mem_cons_of_mem _ hc) d (List.mem_cons_of_mem _ hd)

theorem zipAll_symm {r : α → β → Bool} {s : β → α → Bool} {as : List α} {bs : List β}
    (h : ∀ a ∈ as, ∀ b ∈ bs, r a b = true → s b a = true) (hab : zipAll r as bs = true) :
    zipAll s bs as = true := by
  induction as generalizing bs with
  | nil => cases bs <;> simp_all
  | cons a as ih =>
      cases bs with
      | nil => simp at hab
      | cons b bs =>
          simp only [zipAll_cons, Bool.and_eq_true] at hab ⊢
          refine ⟨h a (by simp) b (by simp) hab.1, ih ?_ hab.2⟩
          intro c hc d hd
          exact h c (List.mem_cons_of_mem _ hc) d (List.mem_cons_of_mem _ hd)

theorem zipAll_trans {r s t : α → α → Bool} {as bs cs : List α}
    (h : ∀ a ∈ as, ∀ b ∈ bs, ∀ c ∈ cs, r a b = true → s b c = true → t a c = true)
    (hab : zipAll r as bs = true) (hbc : zipAll s bs cs = true) : zipAll t as cs = true := by
  induction as generalizing bs cs with
  | nil =>
      cases bs with
      | nil => cases cs <;> simp_all
      | cons b bs => simp at hab
  | cons a as ih =>
      cases bs with
      | nil => simp at hab
      | cons b bs =>
          cases cs with
          | nil => simp at hbc
          | cons c cs =>
              simp only [zipAll_cons, Bool.and_eq_true] at hab hbc ⊢
              refine ⟨h a (by simp) b (by simp) c (by simp) hab.1 hbc.1, ih ?_ hab.2 hbc.2⟩
              intro x hx y hy z hz
              exact h x (List.mem_cons_of_mem _ hx) y (List.mem_cons_of_mem _ hy) z
                (List.mem_cons_of_mem _ hz)

/-- Lists of one length that agree item by item are equal. -/
theorem zip_all_eq_iff {α : Type*} {same : α × α → Bool}
    (hsame : ∀ x y, same (x, y) = true ↔ x = y) {xs ys : List α} :
    (xs.length == ys.length && (xs.zip ys).all same) = true ↔ xs = ys := by
  induction xs generalizing ys with
  | nil => cases ys <;> simp
  | cons x xs ih =>
      cases ys with
      | nil => simp
      | cons y ys =>
          have htail := @ih ys
          simp only [Bool.and_eq_true, beq_iff_eq, List.length_cons, List.zip_cons_cons,
            List.all_cons, List.cons.injEq, hsame, Nat.add_right_cancel_iff] at htail ⊢
          rw [← htail]
          constructor
          · intro ⟨hlength, hxy, hrest⟩
            exact ⟨hxy, hlength, hrest⟩
          · intro ⟨hxy, hlength, hrest⟩
            exact ⟨hlength, hxy, hrest⟩

end PhpantomLsp.Lib
