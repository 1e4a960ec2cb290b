import PhpantomLsp.Flow.Trie

/-!
# Looking a key up

A leaf stands in the slots its hash selects (`Placed`), all the way down to the
collision lists, whose keys differ.  In a placed node `get` finds a leaf
exactly when it is one of the node's leaves (`get_eq_some_iff`), so a node is a
finite map listed by its leaves.  Each write keeps the leaves placed and
changes what `get` finds for its own key only.
-/

namespace PhpantomLsp.Flow.Trie

open Lib PhpType

section Placed

variable {ν : Type} (hash : Atom → BitVec 64)

/-- What `get` finds below a slot. -/
def readSlot (key : Atom) (n : Nat) : Option (Slot ν (Node ν n)) → Option (Leaf ν)
  | none => none
  | some (.leaf leaf) => if leaf.key = key then some leaf else none
  | some (.node child) => get hash key n child.val

theorem get_zero (key : Atom) (node : Node ν 0) :
    get hash key 0 node = (leaves 0 node).find? fun leaf => leaf.key = key := rfl

theorem get_succ (key : Atom) (n : Nat) (node : Packed 32 (Slot ν (Node ν n))) :
    get hash key (n + 1) node = readSlot hash key n (node.get (bitAt (hash key) (n + 1))) := by
  show (match node.get (bitAt (hash key) (n + 1)) with
    | none => none
    | some (.leaf leaf) => if leaf.key = key then some leaf else none
    | some (.node child) => get hash key n child.val) = _
  match node.get (bitAt (hash key) (n + 1)) with
  | none => rfl
  | some (.leaf _) => rfl
  | some (.node _) => rfl

/-- The leaves of a slot belong at its place, and a node in it is in order. -/
def InPlace (n : Nat) (inner : Node ν n → Prop) (place : Fin 32) (slot : Slot ν (Node ν n)) :
    Prop :=
  (∀ leaf ∈ slot.leaves (leaves n), bitAt (hash leaf.key) (n + 1) = place) ∧
    ∀ child, slot = .node child → inner child.val

/-- Every leaf stands where its hash selects, and the keys of a collision list
differ. -/
def Placed : (n : Nat) → Node ν n → Prop
  | 0, (node : List (Leaf ν)) => (node.map Arc.key).Nodup
  | n + 1, (node : Packed 32 (Slot ν (Node ν n))) =>
      ∀ place slot, node.get place = some slot → InPlace hash n (Placed n) place slot

theorem mem_leaves_succ {n : Nat} {node : Packed 32 (Slot ν (Node ν n))} {leaf : Leaf ν} :
    leaf ∈ leaves (n + 1) node ↔
      ∃ place slot, node.get place = some slot ∧ leaf ∈ slot.leaves (leaves n) := by
  show leaf ∈ node.slots.flatMap (Slot.leaves (leaves n)) ↔ _
  rw [List.mem_flatMap]
  constructor
  · intro ⟨slot, hslot, hleaf⟩
    have ⟨place, hget⟩ := Packed.mem_slots.mp hslot
    exact ⟨place, slot, hget, hleaf⟩
  · intro ⟨place, slot, hget, hleaf⟩
    exact ⟨slot, Packed.mem_slots.mpr ⟨place, hget⟩, hleaf⟩

theorem find_key_eq_some_iff {leaves : List (Leaf ν)} (hnodup : (leaves.map Arc.key).Nodup)
    (key : Atom) (leaf : Leaf ν) :
    (leaves.find? fun leaf => leaf.key = key) = some leaf ↔ leaf ∈ leaves ∧ leaf.key = key := by
  induction leaves with
  | nil => simp
  | cons first rest ih =>
      rw [List.map_cons, List.nodup_cons] at hnodup
      rw [List.find?_cons, List.mem_cons]
      by_cases hfirst : first.key = key
      · rw [decide_eq_true hfirst]
        show some first = some leaf ↔ _
        rw [Option.some_inj]
        constructor
        · intro h
          exact ⟨.inl h.symm, h ▸ hfirst⟩
        · intro ⟨hmem, hkey⟩
          rcases hmem with rfl | hmem
          · rfl
          · apply absurd _ hnodup.1
            rw [hfirst, ← hkey]
            exact List.mem_map_of_mem hmem
      · rw [decide_eq_false hfirst]
        show (rest.find? _) = some leaf ↔ _
        rw [ih hnodup.2]
        constructor
        · intro ⟨hmem, hkey⟩
          exact ⟨.inr hmem, hkey⟩
        · intro ⟨hmem, hkey⟩
          rcases hmem with rfl | hmem
          · exact absurd hkey hfirst
          · exact ⟨hmem, hkey⟩

/-- A slot in place is searched at its place alone. -/
theorem readSlot_eq_some_iff {n : Nat} {place : Fin 32} {slot : Slot ν (Node ν n)}
    {inner : Node ν n → Prop}
    (hinner : ∀ node, inner node → ∀ key leaf,
      get hash key n node = some leaf ↔ leaf ∈ leaves n node ∧ leaf.key = key)
    (hslot : InPlace hash n inner place slot) (key : Atom) (leaf : Leaf ν) :
    readSlot hash key n (some slot) = some leaf ↔
      leaf ∈ slot.leaves (leaves n) ∧ leaf.key = key := by
  match slot with
  | .node child => exact hinner child.val (hslot.2 child rfl) key leaf
  | .leaf lone =>
      show (if lone.key = key then some lone else none) = some leaf ↔ leaf ∈ [lone] ∧ _
      rw [List.mem_singleton]
      by_cases hkey : lone.key = key
      · rw [if_pos hkey, Option.some_inj]
        exact ⟨fun h => ⟨h.symm, h ▸ hkey⟩, fun h => h.1.symm⟩
      · rw [if_neg hkey]
        constructor
        · intro h
          exact nomatch h
        · intro ⟨hleaf, hleafKey⟩
          exact absurd (hleaf ▸ hleafKey) hkey

/-- In a placed node a lookup finds exactly the leaf of the key. -/
theorem get_eq_some_iff {n : Nat} {node : Node ν n} (hplaced : Placed hash n node) (key : Atom)
    (leaf : Leaf ν) :
    get hash key n node = some leaf ↔ leaf ∈ leaves n node ∧ leaf.key = key := by
  induction n generalizing key leaf with
  | zero => exact find_key_eq_some_iff hplaced key leaf
  | succ n ih =>
      change Packed 32 (Slot ν (Node ν n)) at node
      have hread := fun place slot (hget : Packed.get node place = some slot) =>
        readSlot_eq_some_iff hash (fun node hnode key leaf => ih hnode key leaf)
          (hplaced place slot hget) key leaf
      rw [get_succ, mem_leaves_succ]
      constructor
      · intro h
        match hget : Packed.get node (bitAt (hash key) (n + 1)) with
        | none =>
            rw [hget] at h
            exact nomatch h
        | some slot =>
            rw [hget, hread _ slot hget] at h
            exact ⟨⟨_, slot, hget, h.1⟩, h.2⟩
      · intro ⟨⟨place, slot, hget, hleaf⟩, hkey⟩
        have hplace := (hplaced place slot hget).1 leaf hleaf
        rw [hkey] at hplace
        rw [hplace, hget, hread place slot hget]
        exact ⟨hleaf, hkey⟩

/-- The leaves of a placed node have different keys. -/
theorem nodup_keys {n : Nat} {node : Node ν n} (hplaced : Placed hash n node) :
    ((leaves n node).map Arc.key).Nodup := by
  induction n with
  | zero => exact hplaced
  | succ n ih =>
      change Packed 32 (Slot ν (Node ν n)) at node
      show ((Packed.slots node).flatMap (Slot.leaves (leaves n))).map Arc.key |>.Nodup
      rw [List.map_flatMap, List.nodup_flatMap]
      constructor
      · intro slot hslot
        have ⟨place, hget⟩ := Packed.mem_slots.mp hslot
        match slot with
        | .leaf lone => exact List.nodup_singleton _
        | .node child => exact ih ((hplaced place _ hget).2 child rfl)
      · rw [Packed.slots_eq, List.pairwise_filterMap]
        apply (List.nodup_finRange 32).imp
        intro i j hij s hs t ht key hi hj
        have ⟨l, hl, hkey⟩ := List.mem_map.mp hi
        have ⟨m, hm, hkey'⟩ := List.mem_map.mp hj
        apply hij
        rw [← (hplaced i s hs).1 l hl, ← (hplaced j t ht).1 m hm, hkey, hkey']

/-- Writing one slot. -/
theorem Placed.put {n : Nat} {node : Packed 32 (Slot ν (Node ν n))} {place : Fin 32}
    {slot : Slot ν (Node ν n)} (hplaced : Placed hash (n + 1) node)
    (hslot : InPlace hash n (Placed hash n) place slot) :
    Placed hash (n + 1) (node.put place slot) := by
  intro i s hget
  rw [Packed.get_put] at hget
  by_cases hi : i = place
  · rw [if_pos hi, Option.some_inj] at hget
    rw [hi, ← hget]
    exact hslot
  · rw [if_neg hi] at hget
    exact hplaced i s hget

/-- Freeing one slot. -/
theorem Placed.remove {n : Nat} {node : Packed 32 (Slot ν (Node ν n))} (place : Fin 32)
    (hplaced : Placed hash (n + 1) node) : Placed hash (n + 1) (node.remove place) := by
  intro i s hget
  rw [Packed.get_remove] at hget
  by_cases hi : i = place
  · rw [if_pos hi] at hget
    exact nomatch hget
  · rw [if_neg hi] at hget
    exact hplaced i s hget

theorem get_put (key : Atom) {n : Nat} (node : Packed 32 (Slot ν (Node ν n))) (place : Fin 32)
    (slot : Slot ν (Node ν n)) :
    get hash key (n + 1) (node.put place slot) =
      if bitAt (hash key) (n + 1) = place then readSlot hash key n (some slot)
      else get hash key (n + 1) node := by
  rw [get_succ, get_succ, Packed.get_put]
  by_cases h : bitAt (hash key) (n + 1) = place
  · rw [if_pos h, if_pos h]
  · rw [if_neg h, if_neg h]

theorem get_remove_place (key : Atom) {n : Nat} (node : Packed 32 (Slot ν (Node ν n)))
    (place : Fin 32) :
    get hash key (n + 1) (node.remove place) =
      if bitAt (hash key) (n + 1) = place then none else get hash key (n + 1) node := by
  rw [get_succ, get_succ, Packed.get_remove]
  by_cases h : bitAt (hash key) (n + 1) = place
  · rw [if_pos h, if_pos h]
    rfl
  · rw [if_neg h, if_neg h]

theorem mem_leaves_put {n : Nat} {node : Packed 32 (Slot ν (Node ν n))} {place : Fin 32}
    {slot : Slot ν (Node ν n)} {leaf : Leaf ν} (h : leaf ∈ leaves (n + 1) (node.put place slot)) :
    leaf ∈ slot.leaves (leaves n) ∨ leaf ∈ leaves (n + 1) node := by
  have ⟨i, s, hget, hleaf⟩ := mem_leaves_succ.mp h
  rw [Packed.get_put] at hget
  by_cases hi : i = place
  · rw [if_pos hi, Option.some_inj] at hget
    exact .inl (hget ▸ hleaf)
  · rw [if_neg hi] at hget
    exact .inr (mem_leaves_succ.mpr ⟨i, s, hget, hleaf⟩)

theorem mem_leaves_remove {n : Nat} {node : Packed 32 (Slot ν (Node ν n))} {place : Fin 32}
    {leaf : Leaf ν} (h : leaf ∈ leaves (n + 1) (node.remove place)) :
    leaf ∈ leaves (n + 1) node := by
  have ⟨i, s, hget, hleaf⟩ := mem_leaves_succ.mp h
  rw [Packed.get_remove] at hget
  by_cases hi : i = place
  · rw [if_pos hi] at hget
    exact nomatch hget
  · rw [if_neg hi] at hget
    exact mem_leaves_succ.mpr ⟨i, s, hget, hleaf⟩

end Placed
end PhpantomLsp.Flow.Trie
