import Mathlib.Order.Basic
import Mathlib.Order.Nat

/-!
# Sequences that settle

A sequence of states that a natural number falls along at every change stops
changing (`settles_of_rank`), and a property that comes to hold a second time
has been lost in between (`lost_between`).
-/

namespace PhpantomLsp.Lib

variable {α : Type*}

/-- A sequence whose rank falls whenever it changes stops changing. -/
theorem settles_of_rank (f : Nat → α) (rank : α → Nat) (start : Nat)
    (hfalls : ∀ n, start ≤ n → f (n + 1) ≠ f n → rank (f (n + 1)) < rank (f n)) :
    ∃ k, start ≤ k ∧ ∀ n, k ≤ n → f n = f k := by
  suffices hbounded : ∀ r k, start ≤ k → rank (f k) ≤ r →
      ∃ k', k ≤ k' ∧ ∀ n, k' ≤ n → f n = f k' by
    obtain ⟨k, hk, hconst⟩ := hbounded _ start (le_refl _) (le_refl _)
    exact ⟨k, hk, hconst⟩
  intro r
  induction r with
  | zero =>
      intro k hk hrank
      refine ⟨k, le_refl _, fun n hn => ?_⟩
      induction n, hn using Nat.le_induction with
      | base => rfl
      | succ n hn ih =>
          by_contra hne
          rw [← ih] at hne hrank
          have hlt := hfalls n (hk.trans hn) hne
          omega
  | succ r ih =>
      intro k hk hrank
      by_cases hconst : ∀ n, k ≤ n → f n = f k
      · exact ⟨k, le_refl _, hconst⟩
      · -- The first state that differs comes right after the first one.
        have hstep : ∃ n, k ≤ n ∧ f n = f k ∧ f (n + 1) ≠ f n := by
          by_contra hnone
          push Not at hnone
          apply hconst
          intro n hn
          induction n, hn using Nat.le_induction with
          | base => rfl
          | succ n hn ihn => exact (hnone n hn ihn).trans ihn
        obtain ⟨n, hn, hsame, hne⟩ := hstep
        have hlt := hfalls n (hk.trans hn) hne
        rw [hsame] at hlt
        obtain ⟨k', hk', hsettled⟩ := ih (n + 1) (by omega) (by omega)
        exact ⟨k', by omega, hsettled⟩

/-- What holds at one index and not at a later one is lost at a step between
the two. -/
theorem lost_between {p : Nat → Prop} {m n : Nat} (hmn : m ≤ n) (hm : p m) (hn : ¬ p n) :
    ∃ k, m ≤ k ∧ k < n ∧ p k ∧ ¬ p (k + 1) := by
  by_contra hnone
  push Not at hnone
  have hkept : ∀ k, m ≤ k → k ≤ n → p k := by
    intro k hk
    induction k, hk using Nat.le_induction with
    | base => exact fun _ => hm
    | succ k hk ih => exact fun hle => hnone k hk (by omega) (ih (by omega))
  exact hn (hkept n hmn (le_refl _))

end PhpantomLsp.Lib
