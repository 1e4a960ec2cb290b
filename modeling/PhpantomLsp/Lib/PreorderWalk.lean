import Mathlib.Data.List.Nodup
import Mathlib.Logic.Relation

/-!
# Depth-first preorder

A walk visits a node before its children and passes a node whose key it has met.  It
goes `fuel` levels down, which is as good as no bound where no path that repeats no key
is longer: the walk then comes to every node that can be reached (`mem_keys_preorder`),
and to each key once (`nodup_preorder`).
-/

namespace PhpantomLsp.Lib.PreorderWalk

universe u v

variable {ν : Type u} {κ : Type v}

/-- Nodes with their children, told apart by keys. -/
structure Walk (ν : Type u) (κ : Type v) where
  children : ν → List ν
  key : ν → κ

/-- What a loop whose body marks nodes collects. -/
def gather (list : ν → List κ → List ν × List κ) : List ν → List κ → List ν × List κ
  | [], visited => ([], visited)
  | node :: rest, visited =>
      ((list node visited).1 ++ (gather list rest (list node visited).2).1,
        (gather list rest (list node visited).2).2)

section Walk

variable [DecidableEq κ] (w : Walk ν κ)

/-- The nodes a walk visits, in order, `fuel` levels down, and the keys met by its end. -/
def preorder : (fuel : Nat) → (node : ν) → (visited : List κ) → List ν × List κ
  | 0, _, visited => ([], visited)
  | fuel + 1, node, visited =>
      if w.key node ∈ visited then ([], visited)
      else
        let below := gather (preorder fuel) (w.children node) (w.key node :: visited)
        (node :: below.1, below.2)

/-- One node is a child of the other. -/
def Child (a b : ν) : Prop := b ∈ w.children a

variable {w}

theorem gather_preorder_zero (nodes : List ν) (visited : List κ) :
    gather (preorder w 0) nodes visited = ([], visited) := by
  induction nodes with
  | nil => rfl
  | cons node rest ih =>
      change ([] ++ (gather (preorder w 0) rest visited).1,
        (gather (preorder w 0) rest visited).2) = _
      rw [ih, List.append_nil]

/-! ## Each key once -/

/-- What a step has met by its end: what it had met before, and what it lists. -/
def Marks (w : Walk ν κ) (visited : List κ) (result : List ν × List κ) : Prop :=
  result.2 = (result.1.map w.key).reverse ++ visited

omit [DecidableEq κ] in
theorem marks_gather {list : ν → List κ → List ν × List κ}
    (hlist : ∀ node visited, Marks w visited (list node visited)) (nodes : List ν)
    (visited : List κ) : Marks w visited (gather list nodes visited) := by
  induction nodes generalizing visited with
  | nil => rfl
  | cons node rest ih =>
      have hrest := ih (list node visited).2
      unfold Marks at hrest ⊢
      simp only [gather]
      rw [hrest, hlist node visited, List.map_append, List.reverse_append, List.append_assoc]

theorem marks_preorder (fuel : Nat) (node : ν) (visited : List κ) :
    Marks w visited (preorder w fuel node visited) := by
  induction fuel generalizing node visited with
  | zero => rfl
  | succ fuel ih =>
      unfold preorder
      split
      · rfl
      · have hbelow := marks_gather ih (w.children node) (w.key node :: visited)
        unfold Marks at hbelow ⊢
        dsimp only
        rw [hbelow, List.map_cons, List.reverse_cons, List.append_assoc, List.singleton_append]

theorem preorder_length (fuel : Nat) (node : ν) (visited : List κ) :
    (preorder w fuel node visited).2.length =
      visited.length + (preorder w fuel node visited).1.length := by
  have h := congrArg List.length (marks_preorder (w := w) fuel node visited)
  simp only [List.length_append, List.length_reverse, List.length_map] at h
  omega

omit [DecidableEq κ] in
theorem nodup_gather {list : ν → List κ → List ν × List κ}
    (hlist : ∀ node visited, visited.Nodup → (list node visited).2.Nodup) (nodes : List ν)
    {visited : List κ} (h : visited.Nodup) : (gather list nodes visited).2.Nodup := by
  induction nodes generalizing visited with
  | nil => exact h
  | cons node rest ih => exact ih (hlist node visited h)

theorem nodup_marks (fuel : Nat) (node : ν) {visited : List κ} (h : visited.Nodup) :
    (preorder w fuel node visited).2.Nodup := by
  induction fuel generalizing node visited with
  | zero => exact h
  | succ fuel ih =>
      unfold preorder
      split
      · exact h
      · rename_i hnew
        exact nodup_gather (fun node _ => ih node) _ (List.nodup_cons.mpr ⟨hnew, h⟩)

theorem nodup_preorder (fuel : Nat) (root : ν) :
    ((preorder w fuel root []).1.map w.key).Nodup := by
  have h : (preorder w fuel root []).2.Nodup := nodup_marks fuel root List.nodup_nil
  rw [marks_preorder, List.append_nil, List.nodup_reverse] at h
  exact h

/-! ## Every node that can be reached -/

omit [DecidableEq κ] in
theorem mem_gather {list : ν → List κ → List ν × List κ} {nodes : List ν} {visited : List κ}
    {n : ν} (h : n ∈ (gather list nodes visited).1) :
    ∃ node ∈ nodes, ∃ visited', n ∈ (list node visited').1 := by
  induction nodes generalizing visited with
  | nil => cases h
  | cons node rest ih =>
      rcases List.mem_append.mp h with h | h
      · exact ⟨node, List.mem_cons_self .., visited, h⟩
      · obtain ⟨node', hnode', found⟩ := ih h
        exact ⟨node', List.mem_cons_of_mem _ hnode', found⟩

theorem reaches_of_mem {fuel : Nat} {node n : ν} {visited : List κ}
    (h : n ∈ (preorder w fuel node visited).1) : Relation.ReflTransGen (Child w) node n := by
  induction fuel generalizing node visited with
  | zero => cases h
  | succ fuel ih =>
      unfold preorder at h
      split at h
      · cases h
      · rcases List.mem_cons.mp h with rfl | h
        · exact .refl
        · obtain ⟨child, hchild, visited', hmem⟩ := mem_gather h
          exact .head hchild (ih hmem)

/-- No path from a node that repeats no key and avoids `above` has more than `fuel`
nodes. -/
def Short (w : Walk ν κ) (fuel : Nat) (above : List κ) (node : ν) : Prop :=
  ∀ path, (node :: path).IsChain (Child w) → (((node :: path).map w.key) ++ above).Nodup →
    path.length < fuel

omit [DecidableEq κ] in
theorem Short.child {fuel : Nat} {above : List κ} {node child : ν}
    (h : Short w (fuel + 1) above node) (hchild : Child w node child) :
    Short w fuel (w.key node :: above) child := by
  intro path hchain hnodup
  have hlonger := h (child :: path) (List.isChain_cons_cons.mpr ⟨hchild, hchain⟩)
    ((List.perm_middle.nodup_iff).mp (by simpa using hnodup))
  simpa using hlonger

/-- By its end a step has met what it started from, what had been met before, and every
child of what it lists. -/
structure Closes (w : Walk ν κ) (starts visited : List κ) (result : List ν × List κ) :
    Prop where
  starts : ∀ k ∈ starts, k ∈ result.2
  visited : ∀ k ∈ visited, k ∈ result.2
  children : ∀ n ∈ result.1, ∀ c, Child w n c → w.key c ∈ result.2

omit [DecidableEq κ] in
theorem closes_gather {list : ν → List κ → List ν × List κ} {above visited : List κ}
    {nodes : List ν}
    (hlist : ∀ node ∈ nodes, ∀ visited, (∀ k ∈ above, k ∈ visited) →
      Closes w [w.key node] visited (list node visited))
    (habove : ∀ k ∈ above, k ∈ visited) :
    Closes w (nodes.map w.key) visited (gather list nodes visited) := by
  induction nodes generalizing visited with
  | nil => exact ⟨fun k hk => (List.not_mem_nil hk).elim, fun k hk => hk,
      fun n hn => (List.not_mem_nil hn).elim⟩
  | cons node rest ih =>
      have hnode := hlist node (List.mem_cons_self ..) visited habove
      have hrest := ih (fun n hn => hlist n (List.mem_cons_of_mem _ hn))
        fun k hk => hnode.visited k (habove k hk)
      refine ⟨?_, fun k hk => hrest.visited k (hnode.visited k hk), ?_⟩
      · intro k hk
        rcases List.mem_cons.mp hk with rfl | hk
        · exact hrest.visited _ (hnode.starts _ (List.mem_singleton_self _))
        · exact hrest.starts k hk
      · intro n hn c hc
        rcases List.mem_append.mp hn with hn | hn
        · exact hrest.visited _ (hnode.children n hn c hc)
        · exact hrest.children n hn c hc

theorem closes_preorder {fuel : Nat} {node : ν} {above visited : List κ}
    (habove : ∀ k ∈ above, k ∈ visited)
    (hnodup : above.Nodup) (hshort : w.key node ∉ above → Short w fuel above node) :
    Closes w [w.key node] visited (preorder w fuel node visited) := by
  induction fuel generalizing node above visited with
  | zero =>
      -- A node that is not on the path to it would be a path of one node too many.
      have hmem : w.key node ∈ above := by
        by_contra hnew
        have hone := hshort hnew [] (.singleton _)
          (List.nodup_cons.mpr ⟨hnew, hnodup⟩)
        omega
      exact ⟨by simpa [preorder] using habove _ hmem, fun k hk => hk, fun n hn => (List.not_mem_nil hn).elim⟩
  | succ fuel ih =>
      unfold preorder
      split
      · rename_i hmem
        exact ⟨by simpa using hmem, fun k hk => hk, fun n hn => (List.not_mem_nil hn).elim⟩
      · rename_i hnew
        have hnew' : w.key node ∉ above := fun h => hnew (habove _ h)
        have hbelow : Closes w ((w.children node).map w.key) (w.key node :: visited)
            (gather (preorder w fuel) (w.children node) (w.key node :: visited)) := by
          refine @closes_gather _ _ w _ (w.key node :: above) _ _ ?_ ?_
          · intro child hchild visited' habove'
            exact ih habove' (List.nodup_cons.mpr ⟨hnew', hnodup⟩)
              fun _ => (hshort hnew').child hchild
          · intro k hk
            rcases List.mem_cons.mp hk with rfl | hk
            · exact List.mem_cons_self ..
            · exact List.mem_cons_of_mem _ (habove k hk)
        dsimp only
        refine ⟨?_, fun k hk => hbelow.visited k (List.mem_cons_of_mem _ hk), ?_⟩
        · simpa using hbelow.visited _ (List.mem_cons_self ..)
        · intro n hn c hc
          rcases List.mem_cons.mp hn with rfl | hn
          · exact hbelow.starts _ (List.mem_map_of_mem hc)
          · exact hbelow.children n hn c hc

/-- The walk lists the key of every node that can be reached, where what is below a node
is a matter of its key and no path without a repeated key is longer than `fuel`. -/
theorem mem_keys_preorder {fuel : Nat} {root n : ν}
    (hkey : ∀ a b, Relation.ReflTransGen (Child w) root a →
      Relation.ReflTransGen (Child w) root b → w.key a = w.key b → w.children a = w.children b)
    (hshort : Short w fuel [] root) (h : Relation.ReflTransGen (Child w) root n) :
    w.key n ∈ (preorder w fuel root []).1.map w.key := by
  have hcloses : Closes w [w.key root] [] (preorder w fuel root []) :=
    closes_preorder (by simp) List.nodup_nil fun _ => hshort
  have hmem : ∀ k, k ∈ (preorder w fuel root []).2 → k ∈ (preorder w fuel root []).1.map w.key := by
    intro k hk
    rw [marks_preorder, List.append_nil, List.mem_reverse] at hk
    exact hk
  induction h with
  | refl => exact hmem _ (hcloses.starts _ (List.mem_singleton_self _))
  | @tail b c hb hc ih =>
      obtain ⟨b', hb', heq⟩ := List.mem_map.mp ih
      have hc' : Child w b' c := by
        unfold Child
        rw [hkey b' b (reaches_of_mem hb') hb heq]
        exact hc
      exact hmem _ (hcloses.children b' hb' c hc')

end Walk

end PhpantomLsp.Lib.PreorderWalk
