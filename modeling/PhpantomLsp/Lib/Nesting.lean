import Mathlib.Data.List.Induction
import Mathlib.Data.List.Nodup

/-!
# Brackets read in both directions

A sequence of marks that open, close or do neither.  Read forward, what is open is a
stack; read backward from its end, the first mark that nothing after it closes is the
top of that stack (`firstOpen_reverse`).  So a mark closes another, read forward from
the one, exactly when it is closed by it, read backward from the other
(`firstClose_iff_firstOpen`).
-/

namespace PhpantomLsp.Lib.Nesting

universe u

variable {ι : Type u}

inductive Mark where
  | up
  | down
  | flat
  deriving DecidableEq

/-- What is open after a mark; one that closes nothing is passed over. -/
def openAfter (stack : List ι) (mark : ι × Mark) : List ι :=
  match mark.2 with
  | .up => mark.1 :: stack
  | .down => stack.tail
  | .flat => stack

/-- What is open after a sequence, the innermost first. -/
def openStack (stack : List ι) (marks : List (ι × Mark)) : List ι := marks.foldl openAfter stack

/-- The first mark, read forward, that closes what is not opened before it. -/
def firstClose : (depth : Nat) → List (ι × Mark) → Option ι
  | _, [] => none
  | depth, (_, .up) :: rest => firstClose (depth + 1) rest
  | depth, (_, .flat) :: rest => firstClose depth rest
  | 0, (i, .down) :: _ => some i
  | depth + 1, (_, .down) :: rest => firstClose depth rest

/-- The first mark, read backward, that opens what has not been closed. -/
def firstOpen : (depth : Nat) → List (ι × Mark) → Option ι
  | _, [] => none
  | depth, (_, .down) :: before => firstOpen (depth + 1) before
  | depth, (_, .flat) :: before => firstOpen depth before
  | 0, (i, .up) :: _ => some i
  | depth + 1, (_, .up) :: before => firstOpen depth before

theorem mem_of_firstClose {depth : Nat} {marks : List (ι × Mark)} {i : ι}
    (h : firstClose depth marks = some i) : (i, .down) ∈ marks := by
  fun_induction firstClose depth marks with
  | case1 => cases h
  | case2 depth _ rest ih => exact List.mem_cons_of_mem _ (ih h)
  | case3 depth _ rest ih => exact List.mem_cons_of_mem _ (ih h)
  | case4 j rest =>
      cases h
      exact List.mem_cons_self ..
  | case5 depth _ rest ih => exact List.mem_cons_of_mem _ (ih h)

theorem mem_of_firstOpen {depth : Nat} {marks : List (ι × Mark)} {i : ι}
    (h : firstOpen depth marks = some i) : (i, .up) ∈ marks := by
  fun_induction firstOpen depth marks with
  | case1 => cases h
  | case2 depth _ before ih => exact List.mem_cons_of_mem _ (ih h)
  | case3 depth _ before ih => exact List.mem_cons_of_mem _ (ih h)
  | case4 j before =>
      cases h
      exact List.mem_cons_self ..
  | case5 depth _ before ih => exact List.mem_cons_of_mem _ (ih h)

theorem openStack_snoc (stack : List ι) (marks : List (ι × Mark)) (last : ι × Mark) :
    openStack stack (marks ++ [last]) = openAfter (openStack stack marks) last := by
  rw [openStack, List.foldl_append]
  rfl

theorem firstOpen_reverse (marks : List (ι × Mark)) (depth : Nat) :
    firstOpen depth marks.reverse = (openStack [] marks)[depth]? := by
  induction marks using List.reverseRecOn generalizing depth with
  | nil => rfl
  | append_singleton marks last ih =>
      rw [openStack_snoc, List.reverse_append, List.reverse_singleton, List.singleton_append]
      obtain ⟨i, mark⟩ := last
      cases mark with
      | flat => exact ih depth
      | down =>
          rw [firstOpen, ih, openAfter, List.getElem?_tail]
      | up =>
          cases depth with
          | zero => rfl
          | succ depth => exact ih depth

theorem mem_openStack {stack : List ι} {marks : List (ι × Mark)} {i : ι}
    (h : i ∈ openStack stack marks) : i ∈ stack ∨ i ∈ marks.map (·.1) := by
  induction marks generalizing stack with
  | nil => exact .inl h
  | cons first rest ih =>
      have hrest := @ih (openAfter stack first) h
      rw [List.map_cons, List.mem_cons]
      rcases hrest with hrest | hrest
      · obtain ⟨j, mark⟩ := first
        cases mark with
        | up => exact (List.mem_cons.mp hrest).elim (fun h => .inr (.inl h)) .inl
        | down => exact .inl (List.mem_of_mem_tail hrest)
        | flat => exact .inl hrest
      · exact .inr (.inr hrest)

/-- By induction on what stands between: a mark closes what was open when it began
exactly when that is the innermost left open there. -/
theorem firstClose_iff_stack {opened closing : ι} {between after : List (ι × Mark)}
    {above below : List ι} (habove : opened ∉ above) (hbelow : opened ∉ below)
    (hopened : opened ∉ between.map (·.1)) (hclosing : closing ∉ between.map (·.1))
    (hafter : closing ∉ after.map (·.1)) :
    firstClose above.length (between ++ (closing, .down) :: after) = some closing ↔
      (openStack (above ++ opened :: below) between).head? = some opened := by
  induction between generalizing above below with
  | nil =>
      cases above with
      | nil => simp [firstClose, openStack]
      | cons a above =>
          refine iff_of_false (fun h => ?_) fun h => ?_
          · have hlater : (closing, Mark.down) ∈ after :=
              mem_of_firstClose (show firstClose above.length after = some closing from h)
            exact hafter (List.mem_map_of_mem hlater)
          · exact habove (List.mem_cons.mpr (.inl (Option.some.inj h).symm))
  | cons first rest ih =>
      obtain ⟨i, mark⟩ := first
      rw [List.map_cons, List.mem_cons, not_or] at hopened hclosing
      cases mark with
      | flat => exact ih habove hbelow hopened.2 hclosing.2
      | up =>
          refine @ih (i :: above) below ?_ hbelow hopened.2 hclosing.2
          rw [List.mem_cons, not_or]
          exact ⟨hopened.1, habove⟩
      | down =>
          cases above with
          | cons a above =>
              exact ih (fun h => habove (List.mem_cons_of_mem _ h)) hbelow hopened.2 hclosing.2
          | nil =>
              refine iff_of_false (fun h => hclosing.1 (Option.some.inj h).symm) fun h => ?_
              have hmem : opened ∈ openStack below rest := List.mem_of_head? h
              exact (mem_openStack hmem).elim hbelow hopened.2

theorem firstClose_iff_firstOpen {opened closing : ι} {before between after : List (ι × Mark)}
    (hnodup : ((before ++ (opened, .up) :: between ++ (closing, .down) :: after).map
      (·.1)).Nodup) :
    firstClose 0 (between ++ (closing, .down) :: after) = some closing ↔
      firstOpen 0 (before ++ (opened, .up) :: between).reverse = some opened := by
  simp only [List.map_append, List.map_cons, List.nodup_append, List.nodup_cons, List.mem_append,
    List.mem_cons] at hnodup
  rw [firstOpen_reverse, ← List.head?_eq_getElem?, openStack, List.foldl_append, List.foldl_cons]
  refine @firstClose_iff_stack ι opened closing between after [] _ (by simp) ?_ ?_ ?_ ?_
  · intro h
    exact (mem_openStack h).elim (by simp) (by grind)
  · grind
  · grind
  · grind

/-! ## Marks met while nothing is open -/

variable [DecidableEq ι]

/-- A reading forward that counts what is open meets a mark while it counts nothing. -/
def meetsAtTop (target : ι) : (depth : Nat) → List (ι × Mark) → Bool
  | _, [] => false
  | depth, (_, .up) :: rest => meetsAtTop target (depth + 1) rest
  | depth, (_, .down) :: rest => meetsAtTop target (depth - 1) rest
  | depth, (i, .flat) :: rest =>
      if depth = 0 ∧ i = target then true else meetsAtTop target depth rest

theorem meetsAtTop_of_not_mem {target : ι} {depth : Nat} {marks : List (ι × Mark)}
    (h : target ∉ marks.map (·.1)) : meetsAtTop target depth marks = false := by
  fun_induction meetsAtTop target depth marks with
  | case1 => rfl
  | case2 depth _ rest ih => exact ih fun hmem => h (List.mem_cons_of_mem _ hmem)
  | case3 depth _ rest ih => exact ih fun hmem => h (List.mem_cons_of_mem _ hmem)
  | case4 depth i rest heq => exact absurd (List.mem_cons.mpr (.inl heq.2.symm)) h
  | case5 depth i rest hne ih => exact ih fun hmem => h (List.mem_cons_of_mem _ hmem)

/-- The count is the height of the stack. -/
theorem meetsAtTop_iff {target : ι} {stack : List ι} {before after : List (ι × Mark)}
    (hbefore : target ∉ before.map (·.1)) (hafter : target ∉ after.map (·.1)) :
    meetsAtTop target stack.length (before ++ (target, .flat) :: after) = true ↔
      openStack stack before = [] := by
  induction before generalizing stack with
  | nil =>
      rw [List.nil_append, meetsAtTop, meetsAtTop_of_not_mem hafter]
      simp [openStack]
  | cons first rest ih =>
      obtain ⟨i, mark⟩ := first
      rw [List.map_cons, List.mem_cons, not_or] at hbefore
      cases mark with
      | up => exact @ih (i :: stack) hbefore.2
      | down =>
          rw [List.cons_append, meetsAtTop, ← List.length_tail]
          exact ih hbefore.2
      | flat =>
          rw [List.cons_append, meetsAtTop, if_neg fun h => hbefore.1 h.2.symm]
          exact ih hbefore.2

end PhpantomLsp.Lib.Nesting
