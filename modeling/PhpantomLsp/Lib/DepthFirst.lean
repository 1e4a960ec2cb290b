import Mathlib.Algebra.GroupWithZero.Nat
import Mathlib.Data.List.Basic
import Mathlib.Data.List.Nodup
import Mathlib.Logic.Relation

/-!
# Depth-first search with an explicit stack

A graph lists the dependencies of its nodes; a dependency that is no node is
skipped.  The search keeps a frame for each node being visited and emits a node
once its dependencies have been gone through.  A dependency already emitted, or
still on the stack, is not pushed again.

What the search guarantees, whatever cycles there are: it ends, it emits each
node once, and it emits a dependency before the node that depends on it unless
the dependency leads back to that node (`Ordered`).
-/

namespace PhpantomLsp.Lib.DepthFirst

universe u

variable {α : Type u}

/-- Nodes and their dependencies. -/
structure Graph (α : Type u) where
  keys : List α
  deps : α → Option (List α)
  known : ∀ a, (deps a).isSome = true → a ∈ keys

/-- One node being visited, with the next of its dependencies to go through. -/
structure Frame (α : Type u) where
  node : α
  depIndex : Nat
  deps : List α

structure State (α : Type u) where
  /-- The frames, the last pushed first. -/
  stack : List (Frame α)
  visiting : List α
  visited : List α
  sorted : List α

section Loop

variable [DecidableEq α] (g : Graph α)

/-- One turn of the loop. -/
def step (s : State α) : Option (State α) :=
  match s.stack with
  | [] => none
  | frame :: below =>
      match frame.deps[frame.depIndex]? with
      | some dep =>
          let advanced := { frame with depIndex := frame.depIndex + 1 }
          match g.deps dep with
          | none => some { s with stack := advanced :: below }
          | some childDeps =>
              if dep ∈ s.visited then some { s with stack := advanced :: below }
              else if dep ∈ s.visiting then some { s with stack := advanced :: below }
              else
                some { s with
                  visiting := dep :: s.visiting
                  stack := ⟨dep, 0, childDeps⟩ :: advanced :: below }
      | none =>
          some {
            stack := below
            visiting := s.visiting.filter (· ≠ frame.node)
            visited := frame.node :: s.visited
            sorted := s.sorted ++ [frame.node] }

/-! ## Termination -/

/-- What is left of a frame. -/
def Frame.left (f : Frame α) : Nat := f.deps.length - f.depIndex + 1

/-- What a node not visited yet will take. -/
def weight (a : α) : Nat := ((g.deps a).getD []).length + 2

def pending (visiting visited : List α) : List α :=
  g.keys.filter fun a => a ∉ visiting ∧ a ∉ visited

/-- The turns still to come, at most. -/
def potential (s : State α) : Nat :=
  ((pending g s.visiting s.visited).map (weight g)).sum + (s.stack.map Frame.left).sum

omit [DecidableEq α] in
theorem sum_filter_le {f : α → Nat} {p q : α → Bool} (keys : List α)
    (h : ∀ a, q a = true → p a = true) :
    ((keys.filter q).map f).sum ≤ ((keys.filter p).map f).sum := by
  induction keys with
  | nil => simp
  | cons a rest ih =>
      by_cases hq : q a = true
      · rw [List.filter_cons_of_pos hq, List.filter_cons_of_pos (h a hq)]
        simp only [List.map_cons, List.sum_cons]
        omega
      · rw [List.filter_cons_of_neg hq]
        by_cases hp : p a = true
        · rw [List.filter_cons_of_pos hp]
          simp only [List.map_cons, List.sum_cons]
          omega
        · rw [List.filter_cons_of_neg hp]
          exact ih

omit [DecidableEq α] in
theorem sum_filter_add_le {f : α → Nat} {p q : α → Bool} {keys : List α} {b : α}
    (h : ∀ a, q a = true → p a = true) (hb : b ∈ keys) (hp : p b = true) (hq : q b = false) :
    ((keys.filter q).map f).sum + f b ≤ ((keys.filter p).map f).sum := by
  induction keys with
  | nil => exact absurd hb List.not_mem_nil
  | cons a rest ih =>
      by_cases hab : b = a
      · subst hab
        rw [List.filter_cons_of_neg (by simp [hq]), List.filter_cons_of_pos hp]
        have hrest := sum_filter_le (f := f) rest h
        simp only [List.map_cons, List.sum_cons]
        omega
      · have hrest := ih ((List.mem_cons.mp hb).resolve_left hab)
        by_cases hqa : q a = true
        · rw [List.filter_cons_of_pos hqa, List.filter_cons_of_pos (h a hqa)]
          simp only [List.map_cons, List.sum_cons]
          omega
        · rw [List.filter_cons_of_neg hqa]
          by_cases hpa : p a = true
          · rw [List.filter_cons_of_pos hpa]
            simp only [List.map_cons, List.sum_cons]
            omega
          · rw [List.filter_cons_of_neg hpa]
            exact hrest

variable {g}

/-- What one turn can do: skip a dependency, push one, or emit a node. -/
theorem step_cases {s s' : State α} (h : step g s = some s') :
    (∃ frame below dep, s.stack = frame :: below ∧ frame.deps[frame.depIndex]? = some dep ∧
      (g.deps dep = none ∨ dep ∈ s.visited ∨ dep ∈ s.visiting) ∧
      s' = { s with stack := { frame with depIndex := frame.depIndex + 1 } :: below }) ∨
    (∃ frame below dep childDeps, s.stack = frame :: below ∧
      frame.deps[frame.depIndex]? = some dep ∧ g.deps dep = some childDeps ∧
      dep ∉ s.visited ∧ dep ∉ s.visiting ∧
      s' = { s with
        visiting := dep :: s.visiting
        stack := ⟨dep, 0, childDeps⟩ :: { frame with depIndex := frame.depIndex + 1 } :: below }) ∨
    (∃ frame below, s.stack = frame :: below ∧ frame.deps[frame.depIndex]? = none ∧
      s' = {
        stack := below
        visiting := s.visiting.filter (· ≠ frame.node)
        visited := frame.node :: s.visited
        sorted := s.sorted ++ [frame.node] }) := by
  unfold step at h
  cases hstack : s.stack with
  | nil => simp [hstack] at h
  | cons frame below =>
      rw [hstack] at h
      dsimp only at h
      cases hdep : frame.deps[frame.depIndex]? with
      | none =>
          rw [hdep, Option.some.injEq] at h
          exact Or.inr (Or.inr ⟨frame, below, rfl, hdep, h.symm⟩)
      | some dep =>
          rw [hdep] at h
          dsimp only at h
          cases hchild : g.deps dep with
          | none =>
              rw [hchild, Option.some.injEq] at h
              exact Or.inl ⟨frame, below, dep, rfl, hdep, Or.inl hchild, h.symm⟩
          | some childDeps =>
              rw [hchild] at h
              dsimp only at h
              by_cases hvisited : dep ∈ s.visited
              · rw [if_pos hvisited, Option.some.injEq] at h
                exact Or.inl ⟨frame, below, dep, rfl, hdep, Or.inr (Or.inl hvisited), h.symm⟩
              · rw [if_neg hvisited] at h
                by_cases hvisiting : dep ∈ s.visiting
                · rw [if_pos hvisiting, Option.some.injEq] at h
                  exact Or.inl ⟨frame, below, dep, rfl, hdep, Or.inr (Or.inr hvisiting), h.symm⟩
                · rw [if_neg hvisiting, Option.some.injEq] at h
                  exact Or.inr (Or.inl ⟨frame, below, dep, childDeps, rfl, hdep, hchild,
                    hvisited, hvisiting, h.symm⟩)

theorem potential_lt {s s' : State α} (h : step g s = some s') : potential g s' < potential g s := by
  have hleft {frame : Frame α} {dep : α} (hdep : frame.deps[frame.depIndex]? = some dep) :
      Frame.left { frame with depIndex := frame.depIndex + 1 } + 1 = frame.left := by
    have hlt := (List.getElem?_eq_some_iff.mp hdep).1
    simp only [Frame.left]
    omega
  rcases step_cases h with ⟨frame, below, dep, hstack, hdep, _, rfl⟩ |
    ⟨frame, below, dep, childDeps, hstack, hdep, hchild, hvisited, hvisiting, rfl⟩ |
    ⟨frame, below, hstack, _, rfl⟩
  · have hless := hleft hdep
    simp only [potential, hstack, List.map_cons, List.sum_cons]
    omega
  · have hless := hleft hdep
    have hpending : ((pending g (dep :: s.visiting) s.visited).map (weight g)).sum +
        weight g dep ≤ ((pending g s.visiting s.visited).map (weight g)).sum := by
      apply sum_filter_add_le
      · intro a ha
        simp only [List.mem_cons, not_or, decide_eq_true_eq] at ha ⊢
        exact ⟨ha.1.2, ha.2⟩
      · exact g.known dep (by simp [hchild])
      · simp [hvisited, hvisiting]
      · simp
    have hweight : weight g dep = childDeps.length + 2 := by simp [weight, hchild]
    have hnew : Frame.left (⟨dep, 0, childDeps⟩ : Frame α) = childDeps.length + 1 := rfl
    simp only [potential, hstack, List.map_cons, List.sum_cons]
    omega
  · have hpending : ((pending g (s.visiting.filter (· ≠ frame.node))
        (frame.node :: s.visited)).map (weight g)).sum ≤
        ((pending g s.visiting s.visited).map (weight g)).sum := by
      apply sum_filter_le
      intro a ha
      simp only [List.mem_filter, List.mem_cons, not_or, not_and, decide_eq_true_eq] at ha ⊢
      exact ⟨fun hmem => ha.1 hmem ha.2.1, ha.2.2⟩
    have hpos : 0 < frame.left := by simp [Frame.left]
    simp only [potential, hstack, List.map_cons, List.sum_cons]
    omega

variable (g)

/-- The loop, run until the stack is empty. -/
def drain (s : State α) : State α :=
  match _h : step g s with
  | none => s
  | some s' => drain s'
termination_by potential g s
decreasing_by exact potential_lt _h

/-- A search about to begin at a node. -/
def State.enter (s : State α) (start : α) : State α :=
  { s with
    visiting := start :: s.visiting
    stack := [⟨start, 0, (g.deps start).getD []⟩] }

/-- The search from one node, unless it has been visited. -/
def visit (s : State α) (start : α) : State α :=
  if start ∈ s.visited then s else drain g (s.enter g start)

/-- The nodes in the order they are emitted, searching from each of `starts` in
turn. -/
def search (starts : List α) : List α := (starts.foldl (visit g) ⟨[], [], [], []⟩).sorted

variable {g}

theorem drain_of_none {s : State α} (h : step g s = none) : drain g s = s := by
  rw [drain]
  split
  · rfl
  · rename_i s' hsome
    rw [h] at hsome
    exact absurd hsome (by simp)

theorem drain_of_some {s s' : State α} (h : step g s = some s') : drain g s = drain g s' := by
  rw [drain]
  split
  · rename_i hnone
    rw [h] at hnone
    exact absurd hnone (by simp)
  · rename_i t ht
    rw [Option.some.inj (ht.symm.trans h)]

/-- One turn after another, for runs on a given graph. -/
theorem drain_eq (s : State α) : drain g s = (step g s).elim s (drain g) := by
  cases h : step g s with
  | none => exact drain_of_none h
  | some s' => exact drain_of_some h

/-- What every turn keeps holds when the loop ends, with nothing left on the
stack. -/
theorem drain_invariant {I : State α → Prop} (hstep : ∀ s s', I s → step g s = some s' → I s')
    (s : State α) (h : I s) : I (drain g s) ∧ (drain g s).stack = [] := by
  induction s using drain.induct g with
  | case1 s hnone =>
      rw [drain_of_none hnone]
      constructor
      · exact h
      · cases hstack : s.stack with
        | nil => rfl
        | cons frame below =>
            cases hdep : frame.deps[frame.depIndex]? with
            | none => simp [step, hstack, hdep] at hnone
            | some dep =>
                simp only [step, hstack, hdep] at hnone
                split at hnone
                · exact absurd hnone (by simp)
                · split at hnone
                  · exact absurd hnone (by simp)
                  · split at hnone <;> exact absurd hnone (by simp)
  | case2 s s' hsome ih =>
      rw [drain_of_some hsome]
      exact ih (hstep s s' h hsome)

end Loop

/-! ## The order -/

variable {g : Graph α}

/-- One node depends on another. -/
def Edge (g : Graph α) (a b : α) : Prop :=
  (∃ deps, g.deps a = some deps ∧ b ∈ deps) ∧ (g.deps b).isSome = true

/-- One node depends on another, through any number of others. -/
def Leads (g : Graph α) : α → α → Prop := Relation.ReflTransGen (Edge g)

/-- Each node comes after its dependencies, those aside that lead back to it. -/
def Ordered (g : Graph α) (sorted : List α) : Prop :=
  ∀ before a after, sorted = before ++ a :: after → ∀ b, Edge g a b → b ∈ before ∨ Leads g b a

/-- The frames below `child`: each depends on the one above it, and the
dependencies it has gone through have been visited, lead back to it, or are the
one above. -/
def StackOk (g : Graph α) (visited : List α) : Option α → List (Frame α) → Prop
  | _, [] => True
  | child, f :: below =>
      g.deps f.node = some f.deps ∧
        (∀ c, child = some c → Edge g f.node c) ∧
        (∀ dep ∈ f.deps.take f.depIndex, (g.deps dep).isSome = true →
          dep ∈ visited ∨ Leads g dep f.node ∨ child = some dep) ∧
        StackOk g visited (some f.node) below

structure Inv (g : Graph α) (s : State α) : Prop where
  stack : StackOk g s.visited none s.stack
  stackNodup : (s.stack.map Frame.node).Nodup
  visiting : ∀ a, a ∈ s.visiting ↔ a ∈ s.stack.map Frame.node
  apart : ∀ a ∈ s.visiting, a ∉ s.visited
  emitted : ∀ a, a ∈ s.visited ↔ a ∈ s.sorted
  sortedNodup : s.sorted.Nodup
  known : ∀ a ∈ s.sorted, (g.deps a).isSome = true
  ordered : Ordered g s.sorted

/-- A node below the top of the stack leads to it. -/
theorem leads_top {visited : List α} {child : Option α} {f : Frame α} {below : List (Frame α)}
    (h : StackOk g visited child (f :: below)) {b : α} (hb : b ∈ (f :: below).map Frame.node) :
    Leads g b f.node := by
  induction below generalizing f child with
  | nil =>
      rw [List.map_singleton, List.mem_singleton] at hb
      rw [hb]
      exact Relation.ReflTransGen.refl
  | cons f' below ih =>
      rw [List.map_cons, List.mem_cons] at hb
      rcases hb with rfl | hb
      · exact Relation.ReflTransGen.refl
      · have hbelow := h.2.2.2
        exact (ih hbelow hb).tail (hbelow.2.1 f.node rfl)

theorem stackOk_mono {visited visited' : List α} (hsub : ∀ a ∈ visited, a ∈ visited')
    {child : Option α} {stack : List (Frame α)} (h : StackOk g visited child stack) :
    StackOk g visited' child stack := by
  induction stack generalizing child with
  | nil => trivial
  | cons f below ih =>
      exact ⟨h.1, h.2.1, fun dep hdep hsome => (h.2.2.1 dep hdep hsome).imp_left (hsub dep),
        ih h.2.2.2⟩

/-- A visited child need not be remembered. -/
theorem stackOk_forget {visited : List α} {child : α} (hchild : child ∈ visited)
    {stack : List (Frame α)} (h : StackOk g visited (some child) stack) :
    StackOk g visited none stack := by
  cases stack with
  | nil => trivial
  | cons f below =>
      refine ⟨h.1, ?_, ?_, h.2.2.2⟩
      · intro c hc
        exact absurd hc (by simp)
      · intro dep hdep hsome
        rcases h.2.2.1 dep hdep hsome with hvisited | hleads | heq
        · exact Or.inl hvisited
        · exact Or.inr (Or.inl hleads)
        · rw [← Option.some.inj heq]
          exact Or.inl hchild

/-- Going through one more dependency of the top frame. -/
theorem stackOk_advance {visited : List α} {f : Frame α} {below : List (Frame α)} {dep : α}
    {child : Option α} (hdep : f.deps[f.depIndex]? = some dep)
    (hchild : ∀ c, child = some c → Edge g f.node c)
    (hgone : (g.deps dep).isSome = true →
      dep ∈ visited ∨ Leads g dep f.node ∨ child = some dep)
    (h : StackOk g visited none (f :: below)) :
    StackOk g visited child ({ f with depIndex := f.depIndex + 1 } :: below) := by
  refine ⟨h.1, hchild, ?_, h.2.2.2⟩
  intro b hb hsome
  have htake : f.deps.take (f.depIndex + 1) = f.deps.take f.depIndex ++ [dep] := by
    rw [List.take_add_one, hdep]
    rfl
  rw [htake, List.mem_append, List.mem_singleton] at hb
  rcases hb with hb | rfl
  · rcases h.2.2.1 b hb hsome with hvisited | hleads | hnone
    · exact Or.inl hvisited
    · exact Or.inr (Or.inl hleads)
    · exact absurd hnone (by simp)
  · exact hgone hsome

theorem ordered_snoc {sorted : List α} {a : α} (h : Ordered g sorted)
    (ha : ∀ b, Edge g a b → b ∈ sorted ∨ Leads g b a) : Ordered g (sorted ++ [a]) := by
  intro before c after hsplit b hb
  rcases List.eq_nil_or_concat after with rfl | ⟨init, z, rfl⟩
  · obtain ⟨hbefore, hlast⟩ := List.append_inj' hsplit rfl
    rw [List.cons.injEq] at hlast
    rw [← hbefore, ← hlast.1]
    rw [← hlast.1] at hb
    exact ha b hb
  · have hassoc : sorted ++ [a] = (before ++ c :: init) ++ [z] := by simpa using hsplit
    obtain ⟨hsorted, _⟩ := List.append_inj' hassoc rfl
    exact h before c init hsorted b hb

theorem inv_skip {s : State α} {f : Frame α} {below : List (Frame α)} {dep : α}
    (h : Inv g s) (hstack : s.stack = f :: below) (hdep : f.deps[f.depIndex]? = some dep)
    (hskip : g.deps dep = none ∨ dep ∈ s.visited ∨ dep ∈ s.visiting) :
    Inv g { s with stack := { f with depIndex := f.depIndex + 1 } :: below } := by
  have hok : StackOk g s.visited none (f :: below) := hstack ▸ h.stack
  have hnodes : (({ f with depIndex := f.depIndex + 1 } : Frame α) :: below).map Frame.node =
      s.stack.map Frame.node := by
    rw [hstack]
    rfl
  constructor
  · apply stackOk_advance hdep _ _ hok
    · intro c hc
      exact absurd hc (by simp)
    · intro hsome
      rcases hskip with hnone | hvisited | hvisiting
      · rw [hnone] at hsome
        exact absurd hsome (by simp)
      · exact Or.inl hvisited
      · have hmem := (h.visiting dep).mp hvisiting
        rw [hstack] at hmem
        exact Or.inr (Or.inl (leads_top hok hmem))
  · rw [hnodes]
    exact h.stackNodup
  · rw [hnodes]
    exact h.visiting
  · exact h.apart
  · exact h.emitted
  · exact h.sortedNodup
  · exact h.known
  · exact h.ordered

theorem inv_push {s : State α} {f : Frame α} {below : List (Frame α)} {dep : α}
    {childDeps : List α} (h : Inv g s) (hstack : s.stack = f :: below)
    (hdep : f.deps[f.depIndex]? = some dep) (hchild : g.deps dep = some childDeps)
    (hvisited : dep ∉ s.visited) (hvisiting : dep ∉ s.visiting) :
    Inv g { s with
      visiting := dep :: s.visiting
      stack := ⟨dep, 0, childDeps⟩ :: { f with depIndex := f.depIndex + 1 } :: below } := by
  have hok : StackOk g s.visited none (f :: below) := hstack ▸ h.stack
  have hnodes : (({ f with depIndex := f.depIndex + 1 } : Frame α) :: below).map Frame.node =
      s.stack.map Frame.node := by
    rw [hstack]
    rfl
  have hedge : Edge g f.node dep :=
    ⟨⟨f.deps, hok.1, List.mem_of_getElem? hdep⟩, by simp [hchild]⟩
  constructor
  · refine ⟨hchild, ?_, ?_, ?_⟩
    · intro c hc
      exact absurd hc (by simp)
    · intro b hb
      exact absurd hb (by simp)
    · apply stackOk_advance hdep _ _ hok
      · intro c hc
        rw [← Option.some.inj hc]
        exact hedge
      · intro _
        exact Or.inr (Or.inr rfl)
  · show (dep :: List.map Frame.node _).Nodup
    rw [hnodes, List.nodup_cons, ← h.visiting]
    exact ⟨hvisiting, h.stackNodup⟩
  · intro a
    show a ∈ dep :: s.visiting ↔ a ∈ dep :: List.map Frame.node _
    rw [hnodes, List.mem_cons, List.mem_cons, h.visiting]
  · intro a ha
    rcases List.mem_cons.mp ha with rfl | ha
    · exact hvisited
    · exact h.apart a ha
  · exact h.emitted
  · exact h.sortedNodup
  · exact h.known
  · exact h.ordered

section

variable [DecidableEq α]

theorem inv_pop {s : State α} {f : Frame α} {below : List (Frame α)}
    (h : Inv g s) (hstack : s.stack = f :: below) (hdone : f.deps[f.depIndex]? = none) :
    Inv g {
      stack := below
      visiting := s.visiting.filter (· ≠ f.node)
      visited := f.node :: s.visited
      sorted := s.sorted ++ [f.node] } := by
  have hok : StackOk g s.visited none (f :: below) := hstack ▸ h.stack
  have hnodup : (f.node :: below.map Frame.node).Nodup := by
    have hall := h.stackNodup
    rw [hstack] at hall
    exact hall
  have hvisiting (a : α) : a ∈ s.visiting ↔ a = f.node ∨ a ∈ below.map Frame.node := by
    rw [h.visiting, hstack, List.map_cons, List.mem_cons]
  have hnew : f.node ∉ s.visited := h.apart f.node ((hvisiting f.node).mpr (Or.inl rfl))
  constructor
  · have hbelow := stackOk_mono (fun a ha => List.mem_cons_of_mem f.node ha) hok.2.2.2
    exact stackOk_forget (List.mem_cons_self) hbelow
  · exact (List.nodup_cons.mp hnodup).2
  · intro a
    show a ∈ s.visiting.filter _ ↔ _
    rw [List.mem_filter, hvisiting, decide_eq_true_eq]
    constructor
    · intro ⟨hmem, hne⟩
      exact hmem.resolve_left hne
    · intro hmem
      exact ⟨Or.inr hmem, fun heq => (List.nodup_cons.mp hnodup).1 (heq ▸ hmem)⟩
  · intro a ha
    have hmem := List.mem_filter.mp ha
    have hne : a ≠ f.node := of_decide_eq_true hmem.2
    intro hvisited
    rcases List.mem_cons.mp hvisited with heq | hvisited
    · exact hne heq
    · exact h.apart a hmem.1 hvisited
  · intro a
    rw [List.mem_cons, List.mem_append, List.mem_singleton, h.emitted, or_comm]
  · rw [h.emitted] at hnew
    exact List.nodup_append.mpr ⟨h.sortedNodup, List.nodup_singleton _, by
      intro a ha b hb heq
      rw [List.mem_singleton.mp hb] at heq
      exact hnew (heq ▸ ha)⟩
  · intro a ha
    rcases List.mem_append.mp ha with ha | ha
    · exact h.known a ha
    · rw [List.mem_singleton.mp ha, hok.1]
      rfl
  · apply ordered_snoc h.ordered
    -- every dependency has been gone through
    intro b hb
    obtain ⟨⟨deps, hdeps, hmem⟩, hsome⟩ := hb
    have heq : deps = f.deps := Option.some.inj (hdeps.symm.trans hok.1)
    have hall : f.deps.take f.depIndex = f.deps :=
      List.take_of_length_le (List.getElem?_eq_none_iff.mp hdone)
    rw [heq, ← hall] at hmem
    rcases hok.2.2.1 b hmem hsome with hvisited | hleads | hnone
    · exact Or.inl ((h.emitted b).mp hvisited)
    · exact Or.inr hleads
    · exact absurd hnone (by simp)

theorem inv_step {s s' : State α} (h : Inv g s) (hstep : step g s = some s') : Inv g s' := by
  rcases step_cases hstep with ⟨f, below, dep, hstack, hdep, hskip, rfl⟩ |
    ⟨f, below, dep, childDeps, hstack, hdep, hchild, hvisited, hvisiting, rfl⟩ |
    ⟨f, below, hstack, hdone, rfl⟩
  · exact inv_skip h hstack hdep hskip
  · exact inv_push h hstack hdep hchild hvisited hvisiting
  · exact inv_pop h hstack hdone

/-- A node once met stays met. -/
theorem met_step {s s' : State α} {a : α} (h : a ∈ s.visiting ∨ a ∈ s.visited)
    (hstep : step g s = some s') : a ∈ s'.visiting ∨ a ∈ s'.visited := by
  rcases step_cases hstep with ⟨f, below, dep, _, _, _, rfl⟩ |
    ⟨f, below, dep, childDeps, _, _, _, _, _, rfl⟩ | ⟨f, below, _, _, rfl⟩
  · exact h
  · exact h.imp_left (List.mem_cons_of_mem dep)
  · by_cases ha : a = f.node
    · exact Or.inr (List.mem_cons.mpr (Or.inl ha))
    · rcases h with h | h
      · exact Or.inl (List.mem_filter.mpr ⟨h, by simpa using ha⟩)
      · exact Or.inr (List.mem_cons_of_mem f.node h)

/-- A search from one node keeps the invariant, clears the stack, and visits the
node beside what was visited before. -/
theorem visit_spec {s : State α} {start : α} (h : Inv g s) (hempty : s.stack = [])
    (hstart : (g.deps start).isSome = true) :
    Inv g (visit g s start) ∧ (visit g s start).stack = [] ∧
      start ∈ (visit g s start).visited ∧
      ∀ a ∈ s.visited, a ∈ (visit g s start).visited := by
  unfold visit
  by_cases hvisited : start ∈ s.visited
  · rw [if_pos hvisited]
    exact ⟨h, hempty, hvisited, fun a ha => ha⟩
  · rw [if_neg hvisited]
    have hnone (a : α) : a ∉ s.visiting := by
      rw [h.visiting, hempty]
      exact List.not_mem_nil
    obtain ⟨deps, hdeps⟩ := Option.isSome_iff_exists.mp hstart
    have hinit : Inv g (s.enter g start) := by
      constructor
      · refine ⟨by simp [hdeps], ?_, ?_, trivial⟩
        · intro c hc
          exact absurd hc (by simp)
        · intro b hb
          exact absurd hb (by simp)
      · simp [State.enter]
      · intro a
        simp [State.enter, hnone a]
      · intro a ha
        rcases List.mem_cons.mp ha with rfl | ha
        · exact hvisited
        · exact absurd ha (hnone a)
      · exact h.emitted
      · exact h.sortedNodup
      · exact h.known
      · exact h.ordered
    have hinv := drain_invariant (fun _ _ => inv_step) _ hinit
    have hmet (a : α) (ha : a ∈ start :: s.visiting ∨ a ∈ s.visited) :
        a ∈ (drain g (s.enter g start)).visited := by
      have hmet := drain_invariant (g := g) (I := fun s => a ∈ s.visiting ∨ a ∈ s.visited)
        (fun _ _ => met_step) (s.enter g start) ha
      rcases hmet.1 with hvisiting | hdone
      · rw [hinv.1.visiting, hmet.2] at hvisiting
        exact absurd hvisiting List.not_mem_nil
      · exact hdone
    exact ⟨hinv.1, hinv.2, hmet start (Or.inl (by simp)), fun a ha => hmet a (Or.inr ha)⟩

theorem search_spec {starts : List α} (hstarts : ∀ a ∈ starts, (g.deps a).isSome = true) :
    (search g starts).Nodup ∧ Ordered g (search g starts) ∧
      (∀ a ∈ search g starts, (g.deps a).isSome = true) ∧ ∀ a ∈ starts, a ∈ search g starts := by
  have hfold (s : State α) (h : Inv g s) (hempty : s.stack = []) :
      let t := starts.foldl (visit g) s
      Inv g t ∧ (∀ a ∈ s.visited, a ∈ t.visited) ∧ ∀ a ∈ starts, a ∈ t.visited := by
    induction starts generalizing s with
    | nil => exact ⟨h, fun a ha => ha, fun a ha => absurd ha List.not_mem_nil⟩
    | cons start rest ih =>
        obtain ⟨hinv, hclear, hmem, hmono⟩ := visit_spec h hempty (hstarts start (by simp))
        obtain ⟨hall, hkeep, hrest⟩ :=
          ih (fun a ha => hstarts a (List.mem_cons_of_mem start ha)) _ hinv hclear
        refine ⟨hall, fun a ha => hkeep a (hmono a ha), ?_⟩
        intro a ha
        rcases List.mem_cons.mp ha with rfl | ha
        · exact hkeep a hmem
        · exact hrest a ha
  have hinit : Inv g (⟨[], [], [], []⟩ : State α) := by
    constructor
    · trivial
    · simp
    · simp
    · simp
    · simp
    · simp
    · simp
    · intro before a after hsplit
      simp at hsplit
  obtain ⟨hinv, _, hall⟩ := hfold _ hinit rfl
  exact ⟨hinv.sortedNodup, hinv.ordered, hinv.known, fun a ha => (hinv.emitted a).mp (hall a ha)⟩

end

/-! ## The dependencies that count

Of the dependencies of a node the search uses those that are nodes, each where
it is first named.  Graphs that agree on these are searched alike.
-/

section Counted

variable [DecidableEq α]

/-- The nodes a list of dependencies names, those met already aside, each where
it is first named. -/
def firstNamed (known : α → Bool) : List α → List α → List α
  | _, [] => []
  | met, dep :: rest =>
      if known dep = true ∧ dep ∉ met then dep :: firstNamed known (dep :: met) rest
      else firstNamed known met rest

theorem mem_firstNamed {known : α → Bool} {met deps : List α} {a : α} :
    a ∈ firstNamed known met deps ↔ known a = true ∧ a ∉ met ∧ a ∈ deps := by
  induction deps generalizing met with
  | nil => simp [firstNamed]
  | cons dep rest ih =>
      rw [firstNamed]
      split
      · rename_i hnew
        rw [List.mem_cons, ih]
        by_cases ha : a = dep
        · subst ha
          simp [hnew]
        · simp [ha]
      · rename_i hold
        rw [ih]
        by_cases ha : a = dep
        · subst ha
          constructor
          · intro h
            exact absurd ⟨h.1, h.2.1⟩ hold
          · intro h
            exact absurd ⟨h.1, h.2.1⟩ hold
        · simp [ha]

/-- Once more nodes have been met, what is named is what was named and is not
among them. -/
theorem firstNamed_of_subset {known : α → Bool} {met met' : List α} (h : met ⊆ met')
    (deps : List α) :
    firstNamed known met' deps = (firstNamed known met deps).filter fun a => a ∉ met' := by
  induction deps generalizing met met' with
  | nil => rfl
  | cons dep rest ih =>
      by_cases hknown : known dep = true
      · by_cases hmet : dep ∈ met
        · rw [firstNamed, firstNamed, if_neg fun hnew => hnew.2 (h hmet),
            if_neg fun hnew => hnew.2 hmet]
          exact ih h
        · by_cases hmet' : dep ∈ met'
          · rw [firstNamed, firstNamed, if_neg fun hnew => hnew.2 hmet', if_pos ⟨hknown, hmet⟩,
              List.filter_cons_of_neg (by simp [hmet'])]
            exact ih (List.cons_subset.mpr ⟨hmet', h⟩)
          · rw [firstNamed, firstNamed, if_pos ⟨hknown, hmet'⟩, if_pos ⟨hknown, hmet⟩,
              List.filter_cons_of_pos (by simp [hmet']), ih (List.cons_subset_cons dep h)]
            congr 1
            apply List.filter_congr
            intro a ha
            have hne : a ≠ dep := by
              intro heq
              exact (mem_firstNamed.mp ha).2.1 (by simp [heq])
            simp [hne]
      · rw [firstNamed, firstNamed, if_neg fun hnew => hknown hnew.1,
          if_neg fun hnew => hknown hnew.1]
        exact ih h

/-- What is still ahead of a frame. -/
def Frame.ahead (known : α → Bool) (met : List α) (f : Frame α) : List α :=
  firstNamed known met (f.deps.drop f.depIndex)

theorem Frame.ahead_of_subset {known : α → Bool} {met met' : List α} (h : met ⊆ met')
    {f f' : Frame α} (heq : f.ahead known met = f'.ahead known met) :
    f.ahead known met' = f'.ahead known met' := by
  unfold Frame.ahead at heq ⊢
  rw [firstNamed_of_subset h, heq, ← firstNamed_of_subset h]

/-- The nodes met so far. -/
def State.met (s : State α) : List α := s.visiting ++ s.visited

variable {known : α → Bool}

theorem ahead_cons {f : Frame α} {met : List α} {dep : α}
    (hdep : f.deps[f.depIndex]? = some dep) :
    f.ahead known met =
      if known dep = true ∧ dep ∉ met then
        dep :: Frame.ahead known (dep :: met) { f with depIndex := f.depIndex + 1 }
      else Frame.ahead known met { f with depIndex := f.depIndex + 1 } := by
  obtain ⟨hlt, hget⟩ := List.getElem?_eq_some_iff.mp hdep
  unfold Frame.ahead
  rw [List.drop_eq_getElem_cons hlt, hget, firstNamed]

/-- A dependency that is no node or has been met is passed over. -/
theorem step_skip (hknown : ∀ a, (g.deps a).isSome = known a) {s : State α} {f : Frame α}
    {below : List (Frame α)} {dep : α} (hstack : s.stack = f :: below)
    (hdep : f.deps[f.depIndex]? = some dep) (hskip : ¬(known dep = true ∧ dep ∉ s.met)) :
    step g s = some { s with stack := { f with depIndex := f.depIndex + 1 } :: below } := by
  cases hchild : g.deps dep with
  | none => simp [step, hstack, hdep, hchild]
  | some childDeps =>
      have hmet : dep ∈ s.visiting ∨ dep ∈ s.visited := by
        rw [← hknown, hchild, State.met, List.mem_append] at hskip
        simpa [or_iff_not_imp_left] using hskip
      by_cases hvisited : dep ∈ s.visited
      · simp [step, hstack, hdep, hchild, hvisited]
      · simp [step, hstack, hdep, hchild, hvisited, hmet.resolve_right hvisited]

/-- With nothing ahead of the top frame, its node is the next to be emitted. -/
theorem drain_pop (hknown : ∀ a, (g.deps a).isSome = known a) {s : State α} {f : Frame α}
    {below : List (Frame α)} (hstack : s.stack = f :: below) (h : f.ahead known s.met = []) :
    let popped : State α := {
      stack := below
      visiting := s.visiting.filter (· ≠ f.node)
      visited := f.node :: s.visited
      sorted := s.sorted ++ [f.node] }
    drain g s = drain g popped ∧ potential g popped < potential g s := by
  induction hleft : f.deps.length - f.depIndex generalizing s f with
  | zero =>
      have hstep : step g s = some {
          stack := below
          visiting := s.visiting.filter (· ≠ f.node)
          visited := f.node :: s.visited
          sorted := s.sorted ++ [f.node] } := by
        simp [step, hstack, List.getElem?_eq_none (show f.deps.length ≤ f.depIndex by omega)]
      exact ⟨drain_of_some hstep, potential_lt hstep⟩
  | succ left ih =>
      have hlt : f.depIndex < f.deps.length := by omega
      have hdep := List.getElem?_eq_getElem hlt
      rw [ahead_cons hdep] at h
      split at h
      · exact absurd h (List.cons_ne_nil _ _)
      · rename_i hskip
        have hstep := step_skip hknown hstack hdep hskip
        have hone : f.deps.length - (f.depIndex + 1) = left := by omega
        obtain ⟨hdrain, hless⟩ := ih
          (s := { s with stack := { f with depIndex := f.depIndex + 1 } :: below }) rfl h hone
        exact ⟨(drain_of_some hstep).trans hdrain, Nat.lt_trans hless (potential_lt hstep)⟩

/-- The first node ahead of the top frame is the next to be pushed. -/
theorem drain_push (hknown : ∀ a, (g.deps a).isSome = known a) {s : State α} {f : Frame α}
    {below : List (Frame α)} (hstack : s.stack = f :: below) {dep : α} {rest : List α}
    (h : f.ahead known s.met = dep :: rest) :
    ∃ f' : Frame α, f'.node = f.node ∧ f'.ahead known (dep :: s.met) = rest ∧
      let pushed : State α := { s with
        visiting := dep :: s.visiting
        stack := ⟨dep, 0, (g.deps dep).getD []⟩ :: f' :: below }
      drain g s = drain g pushed ∧ potential g pushed < potential g s := by
  induction hleft : f.deps.length - f.depIndex generalizing s f with
  | zero =>
      have hnil : f.deps.drop f.depIndex = [] := List.drop_eq_nil_of_le (by omega)
      rw [Frame.ahead, hnil] at h
      exact absurd h (by simp [firstNamed])
  | succ left ih =>
      have hlt : f.depIndex < f.deps.length := by omega
      have hdep := List.getElem?_eq_getElem hlt
      rw [ahead_cons hdep] at h
      split at h
      · rename_i hnew
        obtain ⟨rfl, hrest⟩ := List.cons.inj h
        obtain ⟨childDeps, hchild⟩ := Option.isSome_iff_exists.mp ((hknown _).trans hnew.1)
        have hmet := hnew.2
        rw [State.met, List.mem_append, not_or] at hmet
        have hstep : step g s = some { s with
            visiting := f.deps[f.depIndex] :: s.visiting
            stack := ⟨f.deps[f.depIndex], 0, (g.deps f.deps[f.depIndex]).getD []⟩ ::
              { f with depIndex := f.depIndex + 1 } :: below } := by
          simp [step, hstack, hdep, hchild, hmet.1, hmet.2]
        exact ⟨{ f with depIndex := f.depIndex + 1 }, rfl, hrest, drain_of_some hstep,
          potential_lt hstep⟩
      · rename_i hskip
        have hstep := step_skip hknown hstack hdep hskip
        have hone : f.deps.length - (f.depIndex + 1) = left := by omega
        obtain ⟨f', hnode, hahead, hdrain, hless⟩ := ih
          (s := { s with stack := { f with depIndex := f.depIndex + 1 } :: below }) rfl h hone
        exact ⟨f', hnode, hahead, (drain_of_some hstep).trans hdrain,
          Nat.lt_trans hless (potential_lt hstep)⟩

/-- Two searches at the same point: the same nodes met and emitted, and the same
nodes ahead of each frame. -/
structure Alike (known : α → Bool) (s s' : State α) : Prop where
  visiting : s'.visiting = s.visiting
  visited : s'.visited = s.visited
  sorted : s'.sorted = s.sorted
  stack : List.Forall₂ (fun f f' => f'.node = f.node ∧ f.ahead known s.met = f'.ahead known s.met)
    s.stack s'.stack

theorem stack_of_subset {met met' : List α} (h : met ⊆ met') {stack stack' : List (Frame α)}
    (hall : List.Forall₂
      (fun f f' => f'.node = f.node ∧ f.ahead known met = f'.ahead known met) stack stack') :
    List.Forall₂
      (fun f f' => f'.node = f.node ∧ f.ahead known met' = f'.ahead known met') stack stack' :=
  hall.imp fun _ _ hf => ⟨hf.1, Frame.ahead_of_subset h hf.2⟩

section Agree

variable {g' : Graph α} (hknown : ∀ a, (g.deps a).isSome = known a)
  (hknown' : ∀ a, (g'.deps a).isSome = known a)
  (hsame : ∀ a, firstNamed known [a] ((g.deps a).getD []) =
    firstNamed known [a] ((g'.deps a).getD []))

include hsame in
/-- Frames just pushed for one node have the same ahead of them. -/
theorem ahead_new {a : α} {met : List α} (ha : a ∈ met) :
    Frame.ahead known met ⟨a, 0, (g.deps a).getD []⟩ =
      Frame.ahead known met ⟨a, 0, (g'.deps a).getD []⟩ := by
  have hsub : [a] ⊆ met := List.cons_subset.mpr ⟨ha, List.nil_subset met⟩
  show firstNamed known met _ = firstNamed known met _
  rw [List.drop_zero, List.drop_zero, firstNamed_of_subset hsub, hsame,
    ← firstNamed_of_subset hsub]

include hknown hknown' hsame in
theorem drain_alike {s s' : State α} (h : Alike known s s') :
    Alike known (drain g s) (drain g' s') := by
  induction hpotential : potential g s using Nat.strongRecOn generalizing s s' with
  | ind left ih =>
  cases hstack : s.stack with
  | nil =>
      have hstack' : s'.stack = [] := by
        have hall := h.stack
        rw [hstack] at hall
        exact List.forall₂_nil_left_iff.mp hall
      rw [drain_of_none (by simp [step, hstack]), drain_of_none (by simp [step, hstack'])]
      exact h
  | cons f below =>
      have hall := h.stack
      rw [hstack] at hall
      obtain ⟨f', below', ⟨hnode, hahead⟩, hbelow, hstack'⟩ := List.forall₂_cons_left_iff.mp hall
      have hmet : s'.met = s.met := by rw [State.met, State.met, h.visiting, h.visited]
      cases hnext : f.ahead known s.met with
      | nil =>
          obtain ⟨hdrain, hless⟩ := drain_pop hknown hstack hnext
          obtain ⟨hdrain', _⟩ :=
            drain_pop hknown' hstack' (show f'.ahead known s'.met = [] by rw [hmet, ← hahead, hnext])
          rw [hdrain, hdrain']
          refine ih _ (hpotential ▸ hless) ⟨?_, ?_, ?_, ?_⟩ rfl
          · simp only [h.visiting, hnode]
          · simp only [h.visited, hnode]
          · simp only [h.sorted, hnode]
          · apply stack_of_subset _ hbelow
            intro a ha
            simp only [State.met, List.mem_append, List.mem_filter, List.mem_cons,
              decide_eq_true_eq] at ha ⊢
            by_cases heq : a = f.node
            · exact Or.inr (Or.inl heq)
            · exact ha.imp (fun hvisiting => ⟨hvisiting, heq⟩) Or.inr
      | cons dep rest =>
          obtain ⟨next, hsameNode, hrest, hdrain, hless⟩ := drain_push hknown hstack hnext
          obtain ⟨next', hsameNode', hrest', hdrain', _⟩ := drain_push hknown' hstack'
            (show f'.ahead known s'.met = dep :: rest by rw [hmet, ← hahead, hnext])
          rw [hdrain, hdrain']
          rw [hmet] at hrest'
          refine ih _ (hpotential ▸ hless) ⟨?_, h.visited, h.sorted, ?_⟩ rfl
          · simp only [h.visiting]
          · refine List.Forall₂.cons ⟨rfl, ahead_new hsame List.mem_cons_self⟩
              (List.Forall₂.cons ⟨?_, hrest.trans hrest'.symm⟩ ?_)
            · rw [hsameNode, hsameNode', hnode]
            · exact stack_of_subset (List.subset_cons_self dep s.met) hbelow

include hknown hknown' hsame in
/-- Graphs whose nodes name the same nodes, in the same order, are searched
alike. -/
theorem search_congr (starts : List α) : search g starts = search g' starts := by
  have hfold (s s' : State α) (h : Alike known s s') :
      Alike known (starts.foldl (visit g) s) (starts.foldl (visit g') s') := by
    induction starts generalizing s s' with
    | nil => exact h
    | cons start rest ih =>
        apply ih
        unfold visit
        rw [h.visited]
        split
        · exact h
        · apply drain_alike hknown hknown' hsame
          refine ⟨by simp only [State.enter, h.visiting], h.visited, h.sorted, ?_⟩
          exact List.Forall₂.cons ⟨rfl, ahead_new hsame List.mem_cons_self⟩ List.Forall₂.nil
  exact (hfold ⟨[], [], [], []⟩ ⟨[], [], [], []⟩ ⟨rfl, rfl, rfl, List.Forall₂.nil⟩).sorted.symm

end Agree

end Counted

end PhpantomLsp.Lib.DepthFirst
