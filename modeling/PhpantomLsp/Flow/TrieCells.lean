import PhpantomLsp.Flow.TrieWrites

/-!
# What a write does to the memory

The cells of a map are the leaves and nodes it reaches.  `Written` says what a
write through one map may do to them: a cell of the map afterwards is new, or
had one strong reference and was written in place, or is a cell from before as
it was; and no address is reached more often than before, a new cell apart.
Every operation on the nodes is such a write, and from this alone a run keeps
one contents to an address.
-/

namespace PhpantomLsp.Flow.Trie

open Lib PhpType

/-- A leaf or a node, with its address. -/
inductive Cell (ν : Type) where
  | leaf (leaf : Leaf ν)
  | node (n : Nat) (node : Arc (Node ν n))

section Cells

variable {ν : Type}

/-- Leaves have rank `0`, nodes with `n` levels left rank `n + 1`. -/
def Cell.rank : Cell ν → Nat
  | .leaf _ => 0
  | .node n _ => n + 1

def Cell.addr : Cell ν → Nat
  | .leaf it => it.addr
  | .node _ it => it.addr

/-- Where a cell is: its rank and address. -/
def Cell.spot (cell : Cell ν) : Nat × Nat := (cell.rank, cell.addr)

/-- The cells of a slot, those of a node given. -/
def Slot.cells {n : Nat} (inner : Node ν n → List (Cell ν)) : Slot ν (Node ν n) → List (Cell ν)
  | .leaf lone => [.leaf lone]
  | .node child => .node n child :: inner child.val

/-- The cells below a node. -/
def cells : (n : Nat) → Node ν n → List (Cell ν)
  | 0, (node : List (Leaf ν)) => node.map .leaf
  | n + 1, (node : Packed 32 (Slot ν (Node ν n))) => node.slots.flatMap (Slot.cells (cells n))

/-- The cells of a node and below. -/
def arcCells (n : Nat) (node : Arc (Node ν n)) : List (Cell ν) := .node n node :: cells n node.val

/-- The cells of a slot that may be free. -/
def slotCells (n : Nat) : Option (Slot ν (Node ν n)) → List (Cell ν)
  | none => []
  | some slot => slot.cells (cells n)

/-- How often an address is reached. -/
def reached (spot : Nat × Nat) (cells : List (Cell ν)) : Nat :=
  cells.countP fun cell => cell.spot = spot

theorem reached_append (spot : Nat × Nat) (a b : List (Cell ν)) :
    reached spot (a ++ b) = reached spot a + reached spot b := List.countP_append

theorem reached_cons (spot : Nat × Nat) (cell : Cell ν) (rest : List (Cell ν)) :
    reached spot (cell :: rest) = reached spot rest + if cell.spot = spot then 1 else 0 := by
  unfold reached
  rw [List.countP_cons]
  simp only [decide_eq_true_eq]

theorem reached_perm (spot : Nat × Nat) {a b : List (Cell ν)} (h : a.Perm b) :
    reached spot a = reached spot b := h.countP_eq _

/-! ## Writes -/

/-- What a write may do to the cells reached. -/
structure Written (heap : Heap) (rank : Nat) (before after : List (Cell ν)) : Prop where
  source : ∀ cell ∈ after, cell.addr = heap.fresh ∨ heap.sole cell.rank cell.addr = true ∨
    cell ∈ before
  reached_le : ∀ spot, reached spot after ≤
    reached spot before + if spot.2 = heap.fresh ∧ spot.1 ≤ rank then 1 else 0

namespace Written

variable {heap : Heap} {r : Nat} {before after : List (Cell ν)}

theorem refl (heap : Heap) (r : Nat) (all : List (Cell ν)) : Written heap r all all where
  source _ hcell := .inr (.inr hcell)
  reached_le _ := Nat.le_add_right _ _

theorem mono (h : Written heap r before after) {r' : Nat} (hr : r ≤ r') :
    Written heap r' before after where
  source := h.source
  reached_le spot := by
    apply (h.reached_le spot).trans
    apply Nat.add_le_add_left
    by_cases hfresh : spot.2 = heap.fresh ∧ spot.1 ≤ r
    · rw [if_pos hfresh, if_pos ⟨hfresh.1, hfresh.2.trans hr⟩]
    · rw [if_neg hfresh]
      exact Nat.zero_le _

/-- What a write drops is not reached any more. -/
theorem drop (h : Written heap r before after) {less : List (Cell ν)} (hless : less.Sublist after) :
    Written heap r before less where
  source cell hcell := h.source cell (hless.subset hcell)
  reached_le spot := (hless.countP_le).trans (h.reached_le spot)

theorem perm (h : Written heap r before after) {before' after' : List (Cell ν)}
    (hb : before.Perm before') (ha : after.Perm after') : Written heap r before' after' where
  source cell hcell := by
    rcases h.source cell (ha.mem_iff.mpr hcell) with hfresh | hsole | hold
    · exact .inl hfresh
    · exact .inr (.inl hsole)
    · exact .inr (.inr (hb.mem_iff.mp hold))
  reached_le spot := by
    rw [← reached_perm spot ha, ← reached_perm spot hb]
    exact h.reached_le spot

/-- What the write does not come near stays. -/
theorem frame (h : Written heap r before after) (rest : List (Cell ν)) :
    Written heap r (before ++ rest) (after ++ rest) where
  source cell hcell := by
    rcases List.mem_append.mp hcell with hcell | hcell
    · rcases h.source cell hcell with hfresh | hsole | hold
      · exact .inl hfresh
      · exact .inr (.inl hsole)
      · exact .inr (.inr (List.mem_append_left _ hold))
    · exact .inr (.inr (List.mem_append_right _ hcell))
  reached_le spot := by
    have := h.reached_le spot
    rw [reached_append, reached_append]
    omega

/-- A new leaf. -/
theorem alloc (value : Atom × ν) : Written heap 0 [] [.leaf (heap.alloc value)] where
  source cell hcell := by
    rw [List.mem_singleton.mp hcell]
    exact .inl rfl
  reached_le spot := by
    rw [reached_cons]
    by_cases hspot : (Cell.leaf (heap.alloc value) : Cell ν).spot = spot
    · rw [if_pos hspot, if_pos ⟨congrArg Prod.snd hspot.symm,
        (congrArg Prod.fst hspot.symm).le⟩]
    · rw [if_neg hspot]
      exact Nat.zero_le _

/-- One leaf in the place of another: in place when it is the only reference,
new otherwise. -/
theorem leaf {old new : Leaf ν}
    (h : new.addr = heap.fresh ∨ heap.sole 0 old.addr = true ∧ new.addr = old.addr) :
    Written heap 0 [.leaf old] [.leaf new] where
  source cell hcell := by
    rw [List.mem_singleton.mp hcell]
    rcases h with hfresh | ⟨hsole, haddr⟩
    · exact .inl hfresh
    · right
      left
      show heap.sole 0 new.addr = true
      rw [haddr]
      exact hsole
  reached_le spot := by
    rw [reached_cons, reached_cons]
    by_cases hspot : (Cell.leaf new).spot = spot
    · rw [if_pos hspot]
      rcases h with hfresh | ⟨_, haddr⟩
      · have hnew : spot.2 = heap.fresh ∧ spot.1 ≤ 0 :=
          ⟨(congrArg Prod.snd hspot.symm).trans hfresh, (congrArg Prod.fst hspot.symm).le⟩
        rw [if_pos hnew]
        show 0 + 1 ≤ 0 + _ + 1
        omega
      · have hold : (Cell.leaf old).spot = spot := by
          rw [← hspot]
          exact congrArg (Prod.mk 0) haddr.symm
        rw [if_pos hold]
        exact Nat.le_add_right _ _
    · rw [if_neg hspot]
      exact Nat.zero_le _

theorem replaceLeaf (old : Leaf ν) (key : Atom) (value : ν) :
    Written heap 0 [.leaf old] [.leaf (replaceLeaf heap old key value)] := by
  apply leaf
  unfold Trie.replaceLeaf
  by_cases hsole : heap.sole 0 old.addr = true
  · rw [if_pos hsole]
    exact .inr ⟨hsole, rfl⟩
  · rw [if_neg hsole]
    exact .inl rfl

theorem writeLeaf (old : Leaf ν) (write : ν → ν) :
    Written heap 0 [.leaf old] [.leaf (writeLeaf heap write old)] := by
  apply leaf
  unfold Trie.writeLeaf Heap.makeMut
  by_cases hsole : heap.sole 0 old.addr = true
  · rw [if_pos hsole]
    exact .inr ⟨hsole, rfl⟩
  · rw [if_neg hsole]
    exact .inl rfl

/-- A write to one cell of a list. -/
theorem splice {old new : Cell ν} (h : Written heap r [old] [new]) (front back : List (Cell ν)) :
    Written heap r (front ++ old :: back) (front ++ new :: back) := by
  apply (h.frame (front ++ back)).perm
  · show (old :: (front ++ back)).Perm (front ++ old :: back)
    exact List.perm_middle.symm
  · show (new :: (front ++ back)).Perm (front ++ new :: back)
    exact List.perm_middle.symm

/-- A new leaf beside another. -/
theorem addLeaf (old : Leaf ν) (value : Atom × ν) :
    Written heap r [.leaf old] [.leaf old, .leaf (heap.alloc value)] := by
  apply (((alloc value).frame [.leaf old]).mono (Nat.zero_le r)).perm
  · exact List.Perm.refl _
  · exact List.Perm.swap ..

/-- A write below a node goes through the node. -/
theorem makeMut {n : Nat} {node : Arc (Node ν n)} {val : Node ν n}
    (h : Written heap n (cells n node.val) (cells n val)) :
    Written heap (n + 1) (arcCells n node) (arcCells n (heap.makeMut (n + 1) node val)) where
  source cell hcell := by
    unfold arcCells at hcell
    rw [Heap.makeMut_val] at hcell
    rcases List.mem_cons.mp hcell with hcell | hcell
    · rw [hcell]
      unfold Heap.makeMut
      by_cases hsole : heap.sole (n + 1) node.addr = true
      · rw [if_pos hsole]
        exact .inr (.inl hsole)
      · rw [if_neg hsole]
        exact .inl rfl
    · rcases h.source cell hcell with hfresh | hsole | hold
      · exact .inl hfresh
      · exact .inr (.inl hsole)
      · exact .inr (.inr (List.mem_cons_of_mem _ hold))
  reached_le spot := by
    have hbelow := h.reached_le spot
    unfold arcCells
    rw [reached_cons, reached_cons, Heap.makeMut_val]
    by_cases hspot : (Cell.node n (heap.makeMut (n + 1) node val)).spot = spot
    · have hrank : spot.1 = n + 1 := congrArg Prod.fst hspot.symm
      have hkeep : ¬(spot.2 = heap.fresh ∧ spot.1 ≤ n) := by omega
      rw [if_pos hspot]
      rw [if_neg hkeep] at hbelow
      by_cases hsole : heap.sole (n + 1) node.addr = true
      · have hold : (Cell.node n node).spot = spot := by
          rw [← hspot, Heap.makeMut, if_pos hsole]
          rfl
        rw [if_pos hold]
        omega
      · have hfresh : spot.2 = heap.fresh ∧ spot.1 ≤ n + 1 := by
          refine ⟨?_, hrank.le⟩
          rw [← hspot, Heap.makeMut, if_neg hsole]
          rfl
        rw [if_pos hfresh]
        omega
    · rw [if_neg hspot]
      by_cases hfresh : spot.2 = heap.fresh ∧ spot.1 ≤ n
      · have hup : spot.2 = heap.fresh ∧ spot.1 ≤ n + 1 :=
          ⟨hfresh.1, hfresh.2.trans (Nat.le_succ n)⟩
        rw [if_pos hup]
        rw [if_pos hfresh] at hbelow
        omega
      · rw [if_neg hfresh] at hbelow
        omega

/-- A new node. -/
theorem allocNode {n : Nat} {val : Node ν n} (h : Written heap n before (cells n val)) :
    Written heap (n + 1) before (arcCells n (heap.alloc val)) where
  source cell hcell := by
    rcases List.mem_cons.mp hcell with hcell | hcell
    · rw [hcell]
      exact .inl rfl
    · exact h.source cell hcell
  reached_le spot := by
    have hbelow := h.reached_le spot
    unfold arcCells
    rw [reached_cons]
    show reached spot (cells n val) + _ ≤ _
    by_cases hspot : (Cell.node n (heap.alloc val)).spot = spot
    · have hrank : spot.1 = n + 1 := congrArg Prod.fst hspot.symm
      have haddr : spot.2 = heap.fresh := congrArg Prod.snd hspot.symm
      have hkeep : ¬(spot.2 = heap.fresh ∧ spot.1 ≤ n) := by omega
      rw [if_neg hkeep] at hbelow
      rw [if_pos hspot, if_pos ⟨haddr, hrank.le⟩]
      omega
    · rw [if_neg hspot]
      by_cases hfresh : spot.2 = heap.fresh ∧ spot.1 ≤ n
      · have hup : spot.2 = heap.fresh ∧ spot.1 ≤ n + 1 :=
          ⟨hfresh.1, hfresh.2.trans (Nat.le_succ n)⟩
        rw [if_pos hup]
        rw [if_pos hfresh] at hbelow
        omega
      · rw [if_neg hfresh] at hbelow
        omega

/-- A write to one slot. -/
theorem put {n : Nat} {node : Packed 32 (Slot ν (Node ν n))} {place : Fin 32}
    {slot : Slot ν (Node ν n)}
    (h : Written heap r (slotCells n (node.get place)) (slot.cells (cells n))) :
    Written heap r (cells (n + 1) node) (cells (n + 1) (node.put place slot)) := by
  have hothers : (node.put place slot).others place = node.others place := by
    apply Packed.others_congr
    intro j hj
    rw [Packed.get_put, if_neg hj]
  have hbefore := (node.slots_perm place).flatMap_right (Slot.cells (cells n))
  have hafter := ((node.put place slot).slots_perm place).flatMap_right (Slot.cells (cells n))
  rw [List.flatMap_append] at hbefore hafter
  rw [Packed.get_put, if_pos rfl, hothers] at hafter
  have hslot : (node.get place).toList.flatMap (Slot.cells (cells n)) =
      slotCells n (node.get place) := by
    match node.get place with
    | none => rfl
    | some _ => exact List.flatMap_singleton ..
  rw [hslot] at hbefore
  have hnew : (some slot).toList.flatMap (Slot.cells (cells n)) = slot.cells (cells n) :=
    List.flatMap_singleton ..
  rw [hnew] at hafter
  exact (h.frame _).perm hbefore.symm hafter.symm

/-- A slot made free. -/
theorem remove {n : Nat} (node : Packed 32 (Slot ν (Node ν n))) (place : Fin 32) :
    Written heap r (cells (n + 1) node) (cells (n + 1) (node.remove place)) := by
  have hothers : (node.remove place).others place = node.others place := by
    apply Packed.others_congr
    intro j hj
    rw [Packed.get_remove, if_neg hj]
  have hbefore := (node.slots_perm place).flatMap_right (Slot.cells (cells n))
  have hafter := ((node.remove place).slots_perm place).flatMap_right (Slot.cells (cells n))
  rw [Packed.get_remove, if_pos rfl, hothers] at hafter
  rw [List.flatMap_append] at hbefore
  exact ((refl heap r _).drop (List.sublist_append_right _ _)).perm hbefore.symm hafter.symm

end Written

/-! ## The operations -/

variable (hash : Atom → BitVec 64) (heap : Heap) (key : Atom) (value : ν) (write : ν → ν)

/-- A node made for a leaf and a new one. -/
theorem written_pair (old : Leaf ν) (n : Nat) :
    Written heap n [.leaf old] (cells n (pair hash heap old (heap.alloc (key, value)) n)) := by
  induction n with
  | zero => exact Written.addLeaf old (key, value)
  | succ n ih =>
      by_cases hsame : bitAt (hash old.key) (n + 1) =
          bitAt (hash (heap.alloc (key, value)).key) (n + 1)
      · rw [pair_same hash heap hsame]
        show Written heap (n + 1) [.leaf old]
          ([Slot.node (heap.alloc (pair hash heap old (heap.alloc (key, value)) n))].flatMap
            (Slot.cells (cells n)))
        rw [List.flatMap_singleton]
        exact ih.allocNode
      · rw [pair_split hash heap hsame]
        by_cases hlt : bitAt (hash old.key) (n + 1) <
            bitAt (hash (heap.alloc (key, value)).key) (n + 1)
        · have hslots : cells (n + 1) (Packed.two _ _ (.leaf old)
              (.leaf (heap.alloc (key, value))) hsame) =
              [.leaf old, .leaf (heap.alloc (key, value))] := by
            show List.flatMap _ (if _ then _ else _) = _
            rw [if_pos hlt]
            rfl
          rw [hslots]
          exact Written.addLeaf old (key, value)
        · have hslots : cells (n + 1) (Packed.two _ _ (.leaf old)
              (.leaf (heap.alloc (key, value))) hsame) =
              [.leaf (heap.alloc (key, value)), .leaf old] := by
            show List.flatMap _ (if _ then _ else _) = _
            rw [if_neg hlt]
            rfl
          rw [hslots]
          exact (Written.addLeaf old (key, value)).perm (List.Perm.refl _) (List.Perm.swap ..)

theorem written_insertList (leaves : List (Leaf ν)) :
    Written heap 0 (leaves.map .leaf) ((insertList heap key value leaves).1.map .leaf) := by
  rcases insertList_cases heap key value leaves with
    ⟨front, old, back, hleaves, _, _, hafter⟩ | ⟨_, hafter⟩
  · rw [hafter, hleaves, List.map_append, List.map_append, List.map_cons, List.map_cons]
    exact (Written.replaceLeaf old key value).splice (front.map .leaf) (back.map .leaf)
  · rw [hafter, List.map_append]
    exact ((Written.alloc (key, value)).frame (leaves.map .leaf)).perm (List.Perm.refl _)
      List.perm_append_comm

theorem written_insert (n : Nat) (node : Arc (Node ν n)) :
    Written heap (n + 1) (arcCells n node) (arcCells n (insert hash heap key value n node).1) := by
  induction n with
  | zero =>
      rw [insert_zero]
      apply Written.makeMut
      exact written_insertList heap key value (leaves 0 node.val)
  | succ n ih =>
      change Arc (Packed 32 (Slot ν (Node ν n))) at node
      show Written heap (n + 2) _ (arcCells (n + 1) (insert hash heap key value (n + 1) node).1)
      rw [insert_succ]
      apply Written.makeMut
      apply Written.put
      match node.val.get (bitAt (hash key) (n + 1)) with
      | none => exact (Written.alloc (key, value)).mono (Nat.zero_le _)
      | some (.node child) => exact ih child
      | some (.leaf old) =>
          unfold insertSlot
          by_cases hkey : old.key = key
          · simp only [hkey, if_true]
            exact (Written.replaceLeaf old key value).mono (Nat.zero_le _)
          · simp only [hkey, if_false]
            exact (written_pair hash heap key value old n).allocNode

theorem cells_eq_slotsOf (n : Nat) (node : Node ν n) :
    cells n node = (slotsOf n node).flatMap (Slot.cells (cells (n - 1))) := by
  cases n with
  | zero =>
      show (leaves 0 node).map Cell.leaf = (List.map Slot.leaf (leaves 0 node)).flatMap _
      rw [List.flatMap_map]
      exact List.map_eq_flatMap
  | succ n => rfl

theorem written_foldChild {n : Nat} {node : Packed 32 (Slot ν (Node ν n))} {place : Fin 32}
    {old child : Arc (Node ν n)} (hget : node.get place = some (.node old))
    (h : Written heap (n + 1) (arcCells n old) (arcCells n child)) :
    Written heap (n + 1) (cells (n + 1) node) (cells (n + 1) (foldChild node place child)) := by
  rcases foldChild_cases node place child with ⟨_, hfold⟩ | ⟨only, hslots, hfold⟩ | hfold
  · rw [hfold]
    exact Written.remove node place
  · rw [hfold]
    apply Written.put
    rw [hget]
    apply h.drop
    unfold arcCells
    rw [cells_eq_slotsOf, hslots]
    exact List.sublist_cons_self ..
  · rw [hfold]
    apply Written.put
    rw [hget]
    exact h

theorem written_remove (n : Nat) (node : Arc (Node ν n)) :
    Written heap (n + 1) (arcCells n node) (arcCells n (remove hash heap key n node)) := by
  induction n with
  | zero =>
      apply Written.makeMut
      exact (Written.refl heap 0 _).drop (List.filter_sublist.map Cell.leaf)
  | succ n ih =>
      change Arc (Packed 32 (Slot ν (Node ν n))) at node
      show Written heap (n + 2) _ (arcCells (n + 1) (remove hash heap key (n + 1) node))
      rw [remove_succ]
      apply Written.makeMut
      show Written heap (n + 1) (cells (n + 1) (node.val : Packed 32 (Slot ν (Node ν n)))) _
      unfold removeFrom
      match hget : node.val.get (bitAt (hash key) (n + 1)) with
      | none => exact Written.refl heap _ _
      | some (.leaf old) =>
          by_cases hkey : old.key = key
          · simp only [hkey, if_true]
            exact Written.remove node.val _
          · simp only [hkey, if_false]
            exact Written.refl heap _ _
      | some (.node child) => exact written_foldChild heap hget (ih child)

theorem written_writeIn (leaves : List (Leaf ν)) :
    Written heap 0 (leaves.map .leaf) ((writeIn heap key write leaves).map .leaf) := by
  rcases writeIn_cases heap key write leaves with
    ⟨front, old, back, hleaves, _, _, hafter⟩ | ⟨_, hafter⟩
  · rw [hafter, hleaves, List.map_append, List.map_append, List.map_cons, List.map_cons]
    exact (Written.writeLeaf old write).splice (front.map .leaf) (back.map .leaf)
  · rw [hafter]
    exact Written.refl heap _ _

theorem written_getMut (n : Nat) (node : Arc (Node ν n)) :
    Written heap (n + 1) (arcCells n node) (arcCells n (getMut hash heap key write n node)) := by
  induction n with
  | zero =>
      apply Written.makeMut
      exact written_writeIn heap key write (leaves 0 node.val)
  | succ n ih =>
      change Arc (Packed 32 (Slot ν (Node ν n))) at node
      show Written heap (n + 2) _ (arcCells (n + 1) (getMut hash heap key write (n + 1) node))
      rw [getMut_succ]
      apply Written.makeMut
      show Written heap (n + 1) (cells (n + 1) (node.val : Packed 32 (Slot ν (Node ν n)))) _
      unfold writeFrom
      match hget : node.val.get (bitAt (hash key) (n + 1)) with
      | none => exact Written.refl heap _ _
      | some (.leaf old) =>
          apply Written.put
          rw [hget]
          exact (Written.writeLeaf old write).mono (Nat.zero_le _)
      | some (.node child) =>
          apply Written.put
          rw [hget]
          exact ih child

end Cells
end PhpantomLsp.Flow.Trie
