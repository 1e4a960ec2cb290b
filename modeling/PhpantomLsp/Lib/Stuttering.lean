import Mathlib.Logic.Relation

/-!
# Runs of different pace

A step that may end is iterated until it does.  Two such steps need not keep pace: where
every step of the one is matched by some number of steps of the other, and the ends are
matched, what can be read off the ends is the same.
-/

namespace PhpantomLsp.Lib

universe u v w

variable {σ : Type u} {τ : Type v} {ο : Type w}

/-- Some number of steps leads from the one state to the other. -/
def Steps (step : σ → Option σ) : σ → σ → Prop :=
  Relation.ReflTransGen fun s s' => step s = some s'

theorem Steps.refl {step : σ → Option σ} (s : σ) : Steps step s s := Relation.ReflTransGen.refl

theorem Steps.one {step : σ → Option σ} {s s' : σ} (h : step s = some s') : Steps step s s' :=
  Relation.ReflTransGen.single h

theorem Steps.trans {step : σ → Option σ} {s s' s'' : σ} (h : Steps step s s')
    (h' : Steps step s' s'') : Steps step s s'' :=
  Relation.ReflTransGen.trans h h'

theorem Steps.invariant {step : σ → Option σ} {I : σ → Prop}
    (hstep : ∀ s s', I s → step s = some s' → I s') {s e : σ} (h : Steps step s e) (hs : I s) :
    I e := by
  induction h with
  | refl => exact hs
  | tail _ hlast ih => exact hstep _ _ ih hlast

/-- The state in which the steps end. -/
def lastOf (step : σ → Option σ) : Nat → σ → σ
  | 0, s => s
  | n + 1, s =>
      match step s with
      | some s' => lastOf step n s'
      | none => s

theorem steps_lastOf (step : σ → Option σ) (n : Nat) (s : σ) : Steps step s (lastOf step n s) := by
  induction n generalizing s with
  | zero => exact Steps.refl s
  | succ n ih =>
      rw [lastOf]
      split
      · rename_i s' hstep
        exact (Steps.one hstep).trans (ih s')
      · exact Steps.refl s

/-- A step that a measure bounds has ended once the measure is spent. -/
theorem step_lastOf {step : σ → Option σ} {I : σ → Prop} {measure : σ → Nat}
    (hless : ∀ s s', I s → step s = some s' → I s' ∧ measure s' < measure s)
    (hdone : ∀ s, measure s = 0 → step s = none) {n : Nat} {s : σ} (hs : I s)
    (h : measure s ≤ n) : step (lastOf step n s) = none := by
  induction n generalizing s with
  | zero => exact hdone s (by omega)
  | succ n ih =>
      rw [lastOf]
      split
      · rename_i s' hstep
        have ⟨hs', hlt⟩ := hless s s' hs hstep
        exact ih hs' (by omega)
      · assumption

/-- There is one state in which the steps end. -/
theorem Steps.end_unique {step : σ → Option σ} {s e e' : σ} (h : Steps step s e)
    (hend : step e = none) (h' : Steps step s e') (hend' : step e' = none) : e = e' := by
  induction h using Relation.ReflTransGen.head_induction_on generalizing e' with
  | refl =>
      cases Relation.ReflTransGen.cases_head h' with
      | inl heq => exact heq
      | inr hmore =>
          have ⟨s', hstep, _⟩ := hmore
          rw [hend] at hstep
          exact absurd hstep (by simp)
  | head hstep _ ih =>
      cases Relation.ReflTransGen.cases_head h' with
      | inl heq =>
          rw [heq, hend'] at hstep
          exact absurd hstep (by simp)
      | inr hmore =>
          have ⟨s', hstep', hrest⟩ := hmore
          rw [hstep] at hstep'
          rw [← Option.some.inj hstep'] at hrest
          exact ih hrest hend'

theorem lastOf_of_end {step : σ → Option σ} {s : σ} (h : step s = none) (n : Nat) :
    lastOf step n s = s := by
  cases n with
  | zero => rfl
  | succ n => rw [lastOf, h]

theorem lastOf_add (step : σ → Option σ) (m n : Nat) (s : σ) :
    lastOf step (m + n) s = lastOf step n (lastOf step m s) := by
  induction m generalizing s with
  | zero => rw [Nat.zero_add, lastOf]
  | succ m ih =>
      rw [Nat.succ_add, lastOf, lastOf]
      cases hstep : step s with
      | none => exact (lastOf_of_end hstep n).symm
      | some s' => exact ih s'

theorem Steps.exists_lastOf {step : σ → Option σ} {s e : σ} (h : Steps step s e) :
    ∃ n, lastOf step n s = e := by
  induction h with
  | refl => exact ⟨0, rfl⟩
  | tail _ hlast ih =>
      have ⟨n, hn⟩ := ih
      refine ⟨n + 1, ?_⟩
      rw [lastOf_add, hn, lastOf, hlast]
      rfl

/-- What holds of the first states of a run that ends among them holds of all. -/
theorem Steps.forall_of_end {step : σ → Option σ} {s : σ} {P : σ → Prop} {n : Nat}
    (hend : step (lastOf step n s) = none) (h : ∀ m ≤ n, P (lastOf step m s)) {e : σ}
    (hsteps : Steps step s e) : P e := by
  have ⟨m, hm⟩ := hsteps.exists_lastOf
  rw [← hm]
  by_cases hle : m ≤ n
  · exact h m hle
  · have hsame : lastOf step m s = lastOf step n s := by
      rw [show m = n + (m - n) by omega, lastOf_add, lastOf_of_end hend]
    rw [hsame]
    exact h n (Nat.le_refl n)

/-- Steps are matched along a run whose states all meet a condition. -/
theorem Steps.simulation {step : σ → Option σ} {step' : τ → Option τ} {R : σ → τ → Prop}
    {guard : σ → Prop}
    (hstep : ∀ s s' t, guard s → R s t → step s = some s' → ∃ t', Steps step' t t' ∧ R s' t')
    {s e : σ} {t : τ} (h : Steps step s e) (hguard : ∀ s', Steps step s s' → guard s') (hR : R s t) :
    ∃ t', Steps step' t t' ∧ R e t' := by
  induction h with
  | refl => exact ⟨t, Steps.refl t, hR⟩
  | tail hrest hlast ih =>
      have ⟨t', ht', hR'⟩ := ih
      have ⟨t'', ht'', hR''⟩ := hstep _ _ _ (hguard _ hrest) hR' hlast
      exact ⟨t'', ht'.trans ht'', hR''⟩

end PhpantomLsp.Lib
