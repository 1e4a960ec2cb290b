import PhpantomLsp.Lib.Worklist

/-!
# A worklist that marks what it takes on

A node is marked when it is put on the stack, so that none is on it twice; taking one
off puts on it those it lists that are not marked yet.  The search finds a target
exactly where a path leads from the stack to it (`findsMarked_iff`).
-/

namespace PhpantomLsp.Lib.Worklist

universe u

variable {α : Type u}

/-- Nodes that list others, finitely many of them. -/
structure Listing (α : Type u) where
  lists : α → List α
  listed : List α
  known : ∀ a, ∀ b ∈ lists a, b ∈ listed

/-- One node leads to another by what the nodes between them list. -/
def Listing.Leads (g : Listing α) : α → α → Prop := Relation.ReflTransGen fun a b => b ∈ g.lists a

section Loop

variable [DecidableEq α]

/-- Mark the nodes not marked yet and put them on the stack. -/
def mark (nodes seen stack : List α) : List α × List α :=
  nodes.foldl
    (fun (seen, stack) node =>
      if node ∈ seen then (seen, stack) else (node :: seen, node :: stack))
    (seen, stack)

variable (g : Listing α)

/-- What may still be marked, and what is on the stack. -/
def unmarked (state : List α × List α) : Nat :=
  (g.listed.filter (· ∉ state.1)).length + state.2.length

variable {g}

theorem unmarked_mark {nodes : List α} (hnodes : ∀ a ∈ nodes, a ∈ g.listed)
    (seen stack : List α) : unmarked g (mark nodes seen stack) ≤ unmarked g (seen, stack) := by
  induction nodes generalizing seen stack with
  | nil => exact Nat.le_refl _
  | cons a rest ih =>
      have hrest := ih fun b hb => hnodes b (List.mem_cons_of_mem _ hb)
      simp only [mark, List.foldl_cons] at hrest ⊢
      split
      · exact hrest seen stack
      · rename_i hnew
        refine Nat.le_trans (hrest (a :: seen) (a :: stack)) ?_
        have hlt : (g.listed.filter (· ∉ a :: seen)).length <
            (g.listed.filter (· ∉ seen)).length := by
          have hsplit : g.listed.filter (· ∉ a :: seen) =
              (g.listed.filter (· ∉ seen)).filter (· ≠ a) := by
            rw [List.filter_filter]
            congr 1
            funext b
            simp [not_or]
          rw [hsplit, List.length_filter_lt_length_iff_exists]
          exact ⟨a, List.mem_filter.mpr ⟨hnodes a (List.mem_cons_self ..), by simpa using hnew⟩,
            by simp⟩
        simp only [unmarked, List.length_cons]
        omega

variable (g)

/-- The loop that marks nodes when it puts them on the stack. -/
def findsMarked (target : α) (seen : List α) : List α → Bool
  | [] => false
  | next :: stack =>
      if next = target then true
      else
        findsMarked target (mark (g.lists next) seen stack).1
          (mark (g.lists next) seen stack).2
termination_by stack => unmarked g (seen, stack)
decreasing_by
  have h := unmarked_mark (g.known next) seen stack
  refine Nat.lt_of_le_of_lt h ?_
  simp [unmarked]

variable {g}

theorem mem_mark {nodes seen stack : List α} {a : α} :
    (a ∈ (mark nodes seen stack).1 ↔ a ∈ nodes ∨ a ∈ seen) ∧
      (a ∈ (mark nodes seen stack).2 ↔ (a ∈ nodes ∧ a ∉ seen) ∨ a ∈ stack) := by
  induction nodes generalizing seen stack with
  | nil => simp [mark]
  | cons b rest ih =>
      simp only [mark, List.foldl_cons] at ih ⊢
      split
      · rename_i hseen
        rw [ih.1, ih.2]
        grind
      · rename_i hseen
        rw [ih.1, ih.2]
        grind

/-- What is marked is on the stack or has been taken off it, and then what it lists is
marked and it was not the target. -/
structure Marked (g : Listing α) (target : α) (seen stack : List α) : Prop where
  pending : ∀ a ∈ stack, a ∈ seen
  done : ∀ a ∈ seen, a ∉ stack → a ≠ target ∧ ∀ b ∈ g.lists a, b ∈ seen

/-- A path from a marked node to the target leads by way of the stack. -/
theorem Marked.exits {target a : α} {seen stack : List α} (h : Marked g target seen stack)
    (ha : a ∈ seen) (hpath : g.Leads a target) :
    ∃ b ∈ stack, g.Leads b target := by
  by_cases hstack : a ∈ stack
  · exact ⟨a, hstack, hpath⟩
  · have hmem : ∀ b, b ∈ seen.filter (· ∉ stack) ↔ b ∈ seen ∧ b ∉ stack := by simp
    refine Worklist.exits ?_ ?_ ((hmem a).mpr ⟨ha, hstack⟩) hpath
    · intro b hb c hc
      obtain ⟨hbseen, hbstack⟩ := (hmem b).mp hb
      have hcseen := (h.done b hbseen hbstack).2 c hc
      exact (em (c ∈ stack)).elim .inr fun hcstack => .inl ((hmem c).mpr ⟨hcseen, hcstack⟩)
    · intro htarget
      obtain ⟨hseen, hstack⟩ := (hmem target).mp htarget
      exact (h.done target hseen hstack).1 rfl

theorem Marked.step {target next : α} {seen stack : List α}
    (h : Marked g target seen (next :: stack)) (hne : next ≠ target) :
    Marked g target (mark (g.lists next) seen stack).1
      (mark (g.lists next) seen stack).2 := by
  constructor
  · intro a ha
    rw [mem_mark.2] at ha
    rw [mem_mark.1]
    exact ha.imp And.left fun hstack => h.pending a (List.mem_cons_of_mem _ hstack)
  · intro a ha hnot
    rw [mem_mark.1] at ha
    rw [mem_mark.2, not_or] at hnot
    have hseen : a ∈ seen := by
      by_contra hnew
      exact hnot.1 ⟨ha.resolve_right hnew, hnew⟩
    by_cases heq : a = next
    · subst heq
      exact ⟨hne, fun b hb => mem_mark.1.mpr (.inl hb)⟩
    · obtain ⟨hnt, hlists⟩ := h.done a hseen (by simp [heq, hnot.2])
      exact ⟨hnt, fun b hb => mem_mark.1.mpr (.inr (hlists b hb))⟩

theorem findsMarked_iff {target : α} {seen stack : List α} (h : Marked g target seen stack) :
    findsMarked g target seen stack = true ↔
      ∃ a ∈ stack, g.Leads a target := by
  induction seen, stack using findsMarked.induct g target with
  | case1 seen => simp [findsMarked]
  | case2 seen stack =>
      rw [findsMarked, if_pos rfl]
      exact ⟨fun _ => ⟨target, List.mem_cons_self .., .refl⟩, fun _ => rfl⟩
  | case3 seen next stack hne ih =>
      have hstep := h.step hne
      rw [findsMarked, if_neg hne, ih hstep]
      constructor
      · rintro ⟨a, ha, hpath⟩
        rcases mem_mark.2.mp ha with ⟨hlist, -⟩ | ha
        · exact ⟨next, List.mem_cons_self .., .head hlist hpath⟩
        · exact ⟨a, List.mem_cons_of_mem _ ha, hpath⟩
      · rintro ⟨a, ha, hpath⟩
        exact hstep.exits (mem_mark.1.mpr (.inr (h.pending a ha))) hpath

end Loop

end PhpantomLsp.Lib.Worklist
