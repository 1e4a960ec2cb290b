import Mathlib.Data.List.Basic

/-!
# Runs of a step that may be refused

A protocol is a step function that refuses the moves its state does not allow.
A run is a list of moves none of which is refused.  What every move keeps holds
after every run, and a measure that every move lowers bounds the length of the
runs.
-/

namespace PhpantomLsp.Lib

universe u v

variable {σ : Type u} {ο : Type v}

/-- The state after the moves, `none` if one of them is refused. -/
def attempt (step : σ → ο → Option σ) : σ → List ο → Option σ
  | s, [] => some s
  | s, move :: moves => (step s move).bind fun s' => attempt step s' moves

variable {step : σ → ο → Option σ}

@[simp] theorem attempt_nil (s : σ) : attempt step s [] = some s := rfl

theorem attempt_cons {s s'' : σ} {move : ο} {moves : List ο} :
    attempt step s (move :: moves) = some s'' ↔
      ∃ s', step s move = some s' ∧ attempt step s' moves = some s'' := Option.bind_eq_some_iff

theorem attempt_invariant {I : σ → Prop} (hstep : ∀ s move s', I s → step s move = some s' → I s')
    {s s' : σ} (h : I s) {moves : List ο} (hrun : attempt step s moves = some s') : I s' := by
  induction moves generalizing s with
  | nil => exact Option.some.inj hrun ▸ h
  | cons move moves ih =>
      cases attempt_cons.mp hrun with
      | intro t ht => exact ih (hstep s move t h ht.1) ht.2

/-- A measure that every move lowers bounds the length of a run. -/
theorem attempt_length_le {I : σ → Prop} {measure : σ → Nat}
    (hkeeps : ∀ s move s', I s → step s move = some s' → I s')
    (hstep : ∀ s move s', I s → step s move = some s' → measure s' < measure s) {s s' : σ}
    (h : I s) {moves : List ο} (hrun : attempt step s moves = some s') :
    moves.length + measure s' ≤ measure s := by
  induction moves generalizing s with
  | nil =>
      rw [Option.some.inj hrun]
      simp
  | cons move moves ih =>
      cases attempt_cons.mp hrun with
      | intro t ht =>
          have hless := hstep s move t h ht.1
          have hrest := ih (hkeeps s move t h ht.1) ht.2
          rw [List.length_cons]
          omega

end PhpantomLsp.Lib
