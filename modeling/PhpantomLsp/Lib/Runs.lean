import Mathlib.Data.List.Basic
import Mathlib.Logic.Function.Iterate

/-!
# Runs of a step function

A component whose operations are a list `ops` runs them from the first to the
last.  An invariant that every operation keeps holds after every run, and a
relation between two components that every operation keeps holds after running
the same operations on both.

A guarded run meets a condition on the state before every operation; an
invariant that the operations keep under the condition holds after it.

A step that a measure bounds is iterated often enough once the measure is spent.
-/

namespace PhpantomLsp.Lib

universe u v w

variable {σ : Type u} {τ : Type v} {ο : Type w}

/-- The state after the operations `ops`. -/
def run (step : σ → ο → σ) (s : σ) (ops : List ο) : σ := ops.foldl step s

@[simp] theorem run_nil (step : σ → ο → σ) (s : σ) : run step s [] = s := rfl

@[simp] theorem run_cons (step : σ → ο → σ) (s : σ) (op : ο) (ops : List ο) :
    run step s (op :: ops) = run step (step s op) ops := rfl

theorem run_append (step : σ → ο → σ) (s : σ) (before after : List ο) :
    run step s (before ++ after) = run step (run step s before) after :=
  List.foldl_append

theorem run_invariant {step : σ → ο → σ} {I : σ → Prop}
    (hstep : ∀ s op, I s → I (step s op)) {s : σ} (h : I s) (ops : List ο) :
    I (run step s ops) := by
  induction ops generalizing s with
  | nil => exact h
  | cons op ops ih => exact ih (hstep s op h)

theorem run_simulation {step : σ → ο → σ} {step' : τ → ο → τ} {R : σ → τ → Prop}
    (hstep : ∀ s t op, R s t → R (step s op) (step' t op)) {s : σ} {t : τ} (h : R s t)
    (ops : List ο) : R (run step s ops) (run step' t ops) := by
  induction ops generalizing s t with
  | nil => exact h
  | cons op ops ih => exact ih (hstep s t op h)

/-! ## Guarded runs -/

/-- Every operation meets `guard` in the state it starts from. -/
def GuardedRun (guard : σ → ο → Prop) (step : σ → ο → σ) : σ → List ο → Prop
  | _, [] => True
  | s, op :: rest => guard s op ∧ GuardedRun guard step (step s op) rest

theorem guardedRun_append {guard : σ → ο → Prop} {step : σ → ο → σ} {s : σ}
    {before later : List ο} :
    GuardedRun guard step s (before ++ later) ↔
      GuardedRun guard step s before ∧ GuardedRun guard step (run step s before) later := by
  induction before generalizing s with
  | nil => simp [GuardedRun]
  | cons op rest ih =>
      simp only [List.cons_append, GuardedRun, run_cons]
      rw [ih, and_assoc]

theorem guardedRun_invariant {guard : σ → ο → Prop} {step : σ → ο → σ} {I : σ → Prop}
    (hstep : ∀ s op, I s → guard s op → I (step s op)) {s : σ} (h : I s) {ops : List ο}
    (hguard : GuardedRun guard step s ops) : I (run step s ops) := by
  induction ops generalizing s with
  | nil => exact h
  | cons op rest ih => exact ih (hstep s op h hguard.1) hguard.2

/-! ## Iterated steps -/

/-- A step that a measure bounds has come to rest after that many turns. -/
theorem iterate_done {step : σ → σ} {I done : σ → Prop} {measure : σ → Nat}
    (hdone : ∀ s, done s → step s = s)
    (hstep : ∀ s, I s → ¬done s → I (step s) ∧ measure (step s) < measure s) {s : σ} (h : I s)
    {n : Nat} (hn : measure s ≤ n) : done (step^[n] s) := by
  induction n generalizing s with
  | zero =>
      by_contra hnot
      have hless := (hstep s h hnot).2
      omega
  | succ n ih =>
      rw [Function.iterate_succ_apply]
      by_cases hs : done s
      · rw [hdone s hs, Function.iterate_fixed (hdone s hs)]
        exact hs
      · have hless := hstep s h hs
        exact ih hless.1 (by omega)

end PhpantomLsp.Lib
