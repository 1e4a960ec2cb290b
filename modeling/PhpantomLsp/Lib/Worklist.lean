import PhpantomLsp.Lib.DepthFirst

/-!
# Searching for a node with a worklist

A node is taken off the stack and, the first time, replaced by its
dependencies.  The search for a target finds it exactly where a path leads from
the stack to it (`finds_iff`), and the search that begins with a node's own
dependencies finds the node exactly where it lies on a cycle
(`onCycle_iff`).
-/

namespace PhpantomLsp.Lib.Worklist

open DepthFirst (Graph sum_filter_le sum_filter_add_le)

universe u

variable {α : Type u}

/-- The dependencies of a node; a node that is no key has none. -/
def successors (g : Graph α) (a : α) : List α := (g.deps a).getD []

/-- One node lists another. -/
def Lists (g : Graph α) (a b : α) : Prop := b ∈ successors g a

theorem mem_keys_of_lists {g : Graph α} {a b : α} (h : Lists g a b) : a ∈ g.keys := by
  refine g.known a ?_
  cases hdeps : g.deps a with
  | none => simp [Lists, successors, hdeps] at h
  | some deps => rfl

section Loop

variable [DecidableEq α] (g : Graph α)

/-- What may still be taken off the stack, at most. -/
def potential (seen stack : List α) : Nat :=
  ((g.keys.filter (· ∉ seen)).map fun a => (successors g a).length).sum + stack.length

theorem potential_push {next : α} {seen stack : List α} (h : next ∉ seen) :
    potential g (next :: seen) (successors g next ++ stack) < potential g seen (next :: stack) := by
  have hsub : ∀ a, decide (a ∉ next :: seen) = true → decide (a ∉ seen) = true := by
    simp only [decide_eq_true_eq, List.mem_cons, not_or]
    exact fun a ha => ha.2
  simp only [potential, List.length_append, List.length_cons]
  by_cases hkey : next ∈ g.keys
  · have hsum := sum_filter_add_le (f := fun a => (successors g a).length) hsub hkey
      (by simpa using h) (by simp)
    omega
  · have hsum := sum_filter_le (f := fun a => (successors g a).length) g.keys hsub
    have hnone : successors g next = [] :=
      List.eq_nil_iff_forall_not_mem.mpr fun b hb => hkey (mem_keys_of_lists hb)
    rw [hnone, List.length_nil]
    omega

/-- The loop, with the nodes already replaced and the stack. -/
def finds (target : α) (seen : List α) : List α → Bool
  | [] => false
  | next :: stack =>
      if next = target then true
      else if _hseen : next ∈ seen then finds target seen stack
      else finds target (next :: seen) (successors g next ++ stack)
termination_by stack => potential g seen stack
decreasing_by
  · simp [potential]
  · exact potential_push g _hseen

/-- The search for a node from its own dependencies. -/
def onCycle (a : α) : Bool := finds g a [] (successors g a)

variable {g}

/-! ## What is found -/

omit [DecidableEq α] in
/-- A path out of the nodes seen leaves them by way of the stack. -/
theorem exits {r : α → α → Prop} {seen stack : List α} {target a : α}
    (hclosed : ∀ b ∈ seen, ∀ c, r b c → c ∈ seen ∨ c ∈ stack) (htarget : target ∉ seen)
    (ha : a ∈ seen) (hpath : Relation.ReflTransGen r a target) :
    ∃ b ∈ stack, Relation.ReflTransGen r b target := by
  induction hpath using Relation.ReflTransGen.head_induction_on with
  | refl => exact absurd ha htarget
  | @head b c hedge hrest ih =>
      rcases hclosed b ha c hedge with hc | hc
      · exact ih hc
      · exact ⟨c, hc, hrest⟩

/-- By induction on the loop: what has been seen leads nowhere but to the
stack. -/
theorem finds_iff {target : α} {seen stack : List α}
    (hclosed : ∀ b ∈ seen, ∀ c, Lists g b c → c ∈ seen ∨ c ∈ stack) (htarget : target ∉ seen) :
    finds g target seen stack = true ↔
      ∃ a ∈ stack, Relation.ReflTransGen (Lists g) a target := by
  induction seen, stack using finds.induct g target with
  | case1 seen => simp [finds]
  | case2 seen stack =>
      rw [finds, if_pos rfl]
      exact ⟨fun _ => ⟨target, List.mem_cons_self .., .refl⟩, fun _ => rfl⟩
  | case3 seen next stack hne hseen ih =>
      have hclosed' : ∀ b ∈ seen, ∀ c, Lists g b c → c ∈ seen ∨ c ∈ stack := by
        intro b hb c hc
        rcases hclosed b hb c hc with h | h
        · exact .inl h
        · rcases List.mem_cons.mp h with rfl | h
          · exact .inl hseen
          · exact .inr h
      rw [finds, if_neg hne, dif_pos hseen, ih hclosed' htarget]
      constructor
      · rintro ⟨a, ha, hpath⟩
        exact ⟨a, List.mem_cons_of_mem _ ha, hpath⟩
      · rintro ⟨a, ha, hpath⟩
        rcases List.mem_cons.mp ha with rfl | ha
        · exact exits hclosed' htarget hseen hpath
        · exact ⟨a, ha, hpath⟩
  | case4 seen next stack hne hseen ih =>
      have hclosed' : ∀ b ∈ next :: seen, ∀ c, Lists g b c →
          c ∈ next :: seen ∨ c ∈ successors g next ++ stack := by
        intro b hb c hc
        rcases List.mem_cons.mp hb with rfl | hb
        · exact .inr (List.mem_append_left _ hc)
        · rcases hclosed b hb c hc with h | h
          · exact .inl (List.mem_cons_of_mem _ h)
          · rcases List.mem_cons.mp h with rfl | h
            · exact .inl (List.mem_cons_self ..)
            · exact .inr (List.mem_append_right _ h)
      have htarget' : target ∉ next :: seen := by
        rw [List.mem_cons, not_or]
        exact ⟨fun h => hne h.symm, htarget⟩
      rw [finds, if_neg hne, dif_neg hseen, ih hclosed' htarget']
      constructor
      · rintro ⟨a, ha, hpath⟩
        rcases List.mem_append.mp ha with ha | ha
        · exact ⟨next, List.mem_cons_self .., .head ha hpath⟩
        · exact ⟨a, List.mem_cons_of_mem _ ha, hpath⟩
      · rintro ⟨a, ha, hpath⟩
        rcases List.mem_cons.mp ha with rfl | ha
        · rcases Relation.ReflTransGen.cases_head hpath with h | ⟨b, hb, hrest⟩
          · exact absurd h hne
          · exact ⟨b, List.mem_append_left _ hb, hrest⟩
        · exact ⟨a, List.mem_append_right _ ha, hpath⟩

theorem onCycle_iff {a : α} : onCycle g a = true ↔ Relation.TransGen (Lists g) a a := by
  rw [onCycle, finds_iff (by simp) (by simp), Relation.TransGen.head'_iff]
  rfl

end Loop

end PhpantomLsp.Lib.Worklist
