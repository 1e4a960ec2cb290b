import Mathlib.Order.Basic

/-!
# Recursion cut off by a measure

A recursive procedure is given here as an *open* body: a function that takes
the procedure itself as an argument and never calls anything else.  Tying the
knot needs a reason to terminate, and `guardedFix` takes it as a measure: a
call whose argument is not smaller answers the value `cut` instead.

`Decreases` says that the body never makes such a call, which is stated by
extensionality rather than by inspecting the body: two procedures that agree
on every smaller argument cannot be told apart.  Under it `guardedFix_eq` is
the recursion equation one would have written down in the first place, and
the guard is gone from every later proof.

The measure is a `Nat`, so that closed instances of a fixed procedure reduce.
-/

namespace PhpantomLsp.Lib

universe u v

variable {α : Type u} {β : Type v}

/-- The procedure whose body is `body`, with every call on an argument that is
not smaller by `μ` replaced by `cut`. -/
def guardedFix (μ : α → Nat) (cut : β) (body : (α → β) → α → β) (a : α) : β :=
  body (fun b => if μ b < μ a then guardedFix μ cut body b else cut) a
termination_by μ a

/-- The body only depends on the procedure through its values on smaller
arguments. -/
def Decreases (μ : α → Nat) (body : (α → β) → α → β) : Prop :=
  ∀ f g a, (∀ b, μ b < μ a → f b = g b) → body f a = body g a

/-- A body that only recurses on smaller arguments satisfies its own
recursion equation. -/
theorem guardedFix_eq {μ : α → Nat} {cut : β} {body : (α → β) → α → β}
    (hbody : Decreases μ body) (a : α) :
    guardedFix μ cut body a = body (guardedFix μ cut body) a := by
  rw [guardedFix]
  refine hbody _ _ a ?_
  intro b hb
  simp [hb]

/-- Strong induction along the measure, in the shape a proof about
`guardedFix` uses it. -/
theorem measure_induction {motive : α → Prop} (μ : α → Nat)
    (step : ∀ a, (∀ b, μ b < μ a → motive b) → motive a) (a : α) : motive a :=
  (measure μ).wf.induction a step

/-- What the cut satisfies, and the body hands on from the procedure it is given,
the procedure satisfies. -/
theorem guardedFix_invariant {μ : α → Nat} {cut : β} {body : (α → β) → α → β}
    {P : α → β → Prop} (hcut : ∀ a, P a cut)
    (hbody : ∀ f a, (∀ b, P b (f b)) → P a (body f a)) (a : α) :
    P a (guardedFix μ cut body a) := by
  induction a using measure_induction μ with
  | step a ih =>
      rw [guardedFix]
      refine hbody _ a fun b => ?_
      split
      · rename_i hlt
        exact ih b hlt
      · exact hcut b

/-! ## Two arguments

A comparison descends in both of its arguments at once, so the measure of a
call is the sum of theirs; it may also swap them.
-/

section Pairs

variable {μ : α → Nat} {cut : β} {body : (α → α → β) → α → α → β}

/-- `guardedFix` for a procedure of two arguments. -/
def guardedFixPair (μ : α → Nat) (cut : β) (body : (α → α → β) → α → α → β) (a b : α) : β :=
  guardedFix (fun p : α × α => μ p.1 + μ p.2) cut
    (fun f p => body (fun c d => f (c, d)) p.1 p.2) (a, b)

/-- `Decreases` for a body of two arguments. -/
def DecreasesPair (μ : α → Nat) (body : (α → α → β) → α → α → β) : Prop :=
  ∀ f g a b, (∀ c d, μ c + μ d < μ a + μ b → f c d = g c d) → body f a b = body g a b

theorem guardedFixPair_eq (hbody : DecreasesPair μ body) (a b : α) :
    guardedFixPair μ cut body a b = body (guardedFixPair μ cut body) a b := by
  unfold guardedFixPair
  rw [guardedFix_eq]
  intro f g p hp
  exact hbody _ _ _ _ (fun c d hcd => hp (c, d) hcd)

theorem measure_induction_pair {motive : α → α → Prop} (μ : α → Nat)
    (step : ∀ a b, (∀ c d, μ c + μ d < μ a + μ b → motive c d) → motive a b) (a b : α) :
    motive a b :=
  measure_induction (motive := fun p : α × α => motive p.1 p.2) (fun p : α × α => μ p.1 + μ p.2)
    (fun p ih => step p.1 p.2 (fun c d hcd => ih (c, d) hcd)) (a, b)

end Pairs

/-! ## Members of a list

What a body that asks every member of a list needs for `Decreases`.
-/

theorem any_congr_of_mem {p q : α → Bool} {items : List α} (h : ∀ x ∈ items, p x = q x) :
    items.any p = items.any q := by
  induction items with
  | nil => rfl
  | cons x xs ih =>
      rw [List.any_cons, List.any_cons, h x (by simp),
        ih (fun y hy => h y (List.mem_cons_of_mem _ hy))]

theorem all_congr_of_mem {p q : α → Bool} {items : List α} (h : ∀ x ∈ items, p x = q x) :
    items.all p = items.all q := by
  induction items with
  | nil => rfl
  | cons x xs ih =>
      rw [List.all_cons, List.all_cons, h x (by simp),
        ih (fun y hy => h y (List.mem_cons_of_mem _ hy))]

theorem findSome?_congr_of_mem {f g : α → Option β} {items : List α} (h : ∀ x ∈ items, f x = g x) :
    items.findSome? f = items.findSome? g := by
  induction items with
  | nil => rfl
  | cons x xs ih =>
      rw [List.findSome?_cons, List.findSome?_cons, h x (by simp),
        ih (fun y hy => h y (List.mem_cons_of_mem _ hy))]

end PhpantomLsp.Lib
