import PhpantomLsp.Lib.Packed
import PhpantomLsp.Lib.Table
import PhpantomLsp.PhpType.Basic

/-!
# The trie of a scope

`AtomTrie` keeps its entries in a hash trie of packed nodes.  A level takes
five bits of the key's hash, so a node with `n` levels left starts at
`shiftOf n`, and the node with none left is a plain list of leaves.

Leaves and nodes are behind an `Arc`, modelled as an address with the contents
found there.  `Arc::make_mut` writes in place when the reference is the only
strong one and copies otherwise; `Heap` says which it is, and which address the
next allocation gets.  A write allocates at most one cell of each rank, so one
number serves all its allocations.
-/

namespace PhpantomLsp.Flow.Trie

open Lib PhpType

/-- `HASH_BITS` by levels of `BITS` bits each. -/
def levels : Nat := 13

/-- The `shift` at which a node with `n` levels left starts. -/
def shiftOf (n : Nat) : Nat := 5 * (levels - n)

/-- `Arc`: an address and what is found there. -/
structure Arc (α : Type) where
  addr : Nat
  val : α

abbrev Leaf (ν : Type) := Arc (Atom × ν)

def Arc.key {ν : Type} (leaf : Leaf ν) : Atom := leaf.val.1

def Arc.value {ν : Type} (leaf : Leaf ν) : ν := leaf.val.2

/-- `Slot`, over the nodes of the level below. -/
inductive Slot (ν ρ : Type) where
  | leaf (leaf : Leaf ν)
  | node (node : Arc ρ)

/-- `Node`, with `n` levels left. -/
def Node (ν : Type) : Nat → Type
  | 0 => List (Leaf ν)
  | n + 1 => Packed 32 (Slot ν (Node ν n))

/-- `AtomTrie` -/
structure AtomTrie (ν : Type) where
  root : Option (Arc (Node ν levels))
  len : Nat

/-- `bit_at`, as the place of the bit. -/
def bitAt (hash : BitVec 64) (n : Nat) : Fin 32 :=
  ⟨((hash >>> shiftOf n) &&& 31#64).toNat, by
    have hle : (hash >>> shiftOf n) &&& 31#64 ≤ 31#64 := by
      rw [BitVec.le_def, BitVec.toNat_and]
      exact Nat.and_le_right
    exact Nat.lt_succ_of_le (BitVec.le_def.mp hle)⟩

/-! ## The memory a write meets -/

/-- `sole` answers whether a cell has one strong reference, by rank and
address: leaves have rank `0`, nodes with `n` levels left rank `n + 1`. -/
structure Heap where
  fresh : Nat
  sole : Nat → Nat → Bool

/-- `Arc::make_mut`, with what is then written through it. -/
def Heap.makeMut {α : Type} (heap : Heap) (rank : Nat) (arc : Arc α) (val : α) : Arc α :=
  if heap.sole rank arc.addr then ⟨arc.addr, val⟩ else ⟨heap.fresh, val⟩

/-- `Arc::new` -/
def Heap.alloc {α : Type} (heap : Heap) (val : α) : Arc α := ⟨heap.fresh, val⟩

/-- `replace_leaf` -/
def replaceLeaf {ν : Type} (heap : Heap) (leaf : Leaf ν) (key : Atom) (value : ν) : Leaf ν :=
  if heap.sole 0 leaf.addr then ⟨leaf.addr, (leaf.key, value)⟩ else heap.alloc (key, value)

section Node

variable {ν : Type} (hash : Atom → BitVec 64)

/-- `Node::pair` -/
def pair (heap : Heap) (a b : Leaf ν) : (n : Nat) → Node ν n
  | 0 => [a, b]
  | n + 1 =>
      if h : bitAt (hash a.key) (n + 1) = bitAt (hash b.key) (n + 1) then
        Packed.single (bitAt (hash a.key) (n + 1)) (.node (heap.alloc (pair heap a b n)))
      else
        Packed.two (bitAt (hash a.key) (n + 1)) (bitAt (hash b.key) (n + 1)) (.leaf a) (.leaf b) h

/-- `Node::get` -/
def get (key : Atom) : (n : Nat) → Node ν n → Option (Leaf ν)
  | 0, (leaves : List (Leaf ν)) => leaves.find? fun leaf => leaf.key = key
  | n + 1, (node : Packed 32 (Slot ν (Node ν n))) =>
      match node.get (bitAt (hash key) (n + 1)) with
      | none => none
      | some (.leaf leaf) => if leaf.key = key then some leaf else none
      | some (.node child) => get key n child.val

/-- The leaf of `key` in a collision list overwritten, if there is one. -/
def replaceIn (heap : Heap) (key : Atom) (value : ν) : List (Leaf ν) → Option (List (Leaf ν))
  | [] => none
  | leaf :: rest =>
      if leaf.key = key then some (replaceLeaf heap leaf key value :: rest)
      else (replaceIn heap key value rest).map (leaf :: ·)

/-- `Node::insert`: the node, and whether the key is new. -/
def insert (heap : Heap) (key : Atom) (value : ν) :
    (n : Nat) → Arc (Node ν n) → Arc (Node ν n) × Bool
  | 0, (node : Arc (List (Leaf ν))) =>
      match replaceIn heap key value node.val with
      | some leaves => (heap.makeMut 1 node leaves, false)
      | none => (heap.makeMut 1 node (node.val ++ [heap.alloc (key, value)]), true)
  | n + 1, (node : Arc (Packed 32 (Slot ν (Node ν n)))) =>
      let place := bitAt (hash key) (n + 1)
      match node.val.get place with
      | none =>
          (heap.makeMut (n + 2) node (node.val.put place (.leaf (heap.alloc (key, value)))), true)
      | some (.node child) =>
          let inserted := insert heap key value n child
          (heap.makeMut (n + 2) node (node.val.put place (.node inserted.1)), inserted.2)
      | some (.leaf leaf) =>
          if leaf.key = key then
            (heap.makeMut (n + 2) node
              (node.val.put place (.leaf (replaceLeaf heap leaf key value))), false)
          else
            let child := pair hash heap leaf (heap.alloc (key, value)) n
            (heap.makeMut (n + 2) node (node.val.put place (.node (heap.alloc child))), true)

/-- The slots of a node. -/
def slotsOf : (n : Nat) → Node ν n → List (Slot ν (Node ν (n - 1)))
  | 0, (leaves : List (Leaf ν)) => leaves.map .leaf
  | _ + 1, node => Packed.slots node

/-- What `Node::remove` does with the slot whose child lost a leaf. -/
def foldChild {n : Nat} (node : Packed 32 (Slot ν (Node ν n))) (place : Fin 32)
    (child : Arc (Node ν n)) : Packed 32 (Slot ν (Node ν n)) :=
  match slotsOf n child.val with
  | [] => node.remove place
  | [.leaf only] => node.put place (.leaf only)
  | _ => node.put place (.node child)

/-- `Node::remove` -/
def remove (heap : Heap) (key : Atom) : (n : Nat) → Arc (Node ν n) → Arc (Node ν n)
  | 0, (node : Arc (List (Leaf ν))) =>
      heap.makeMut 1 node (node.val.filter fun leaf => leaf.key ≠ key)
  | n + 1, (node : Arc (Packed 32 (Slot ν (Node ν n)))) =>
      let place := bitAt (hash key) (n + 1)
      match node.val.get place with
      | none => heap.makeMut (n + 2) node node.val
      | some (.leaf leaf) =>
          if leaf.key = key then heap.makeMut (n + 2) node (node.val.remove place)
          else heap.makeMut (n + 2) node node.val
      | some (.node child) =>
          heap.makeMut (n + 2) node (foldChild node.val place (remove heap key n child))

/-- The write the caller of `get_mut` makes to a leaf. -/
def writeLeaf (heap : Heap) (write : ν → ν) (leaf : Leaf ν) : Leaf ν :=
  heap.makeMut 0 leaf (leaf.key, write leaf.value)

/-- The leaf of `key` in a collision list written through. -/
def writeIn (heap : Heap) (key : Atom) (write : ν → ν) : List (Leaf ν) → List (Leaf ν)
  | [] => []
  | leaf :: rest =>
      if leaf.key = key then writeLeaf heap write leaf :: rest
      else leaf :: writeIn heap key write rest

/-- The loop of `AtomTrie::get_mut`, with the write the caller makes.  The key
has been looked up before, so the slot is there. -/
def getMut (heap : Heap) (key : Atom) (write : ν → ν) : (n : Nat) → Arc (Node ν n) → Arc (Node ν n)
  | 0, (node : Arc (List (Leaf ν))) => heap.makeMut 1 node (writeIn heap key write node.val)
  | n + 1, (node : Arc (Packed 32 (Slot ν (Node ν n)))) =>
      let place := bitAt (hash key) (n + 1)
      match node.val.get place with
      | none => heap.makeMut (n + 2) node node.val
      | some (.leaf leaf) =>
          heap.makeMut (n + 2) node (node.val.put place (.leaf (writeLeaf heap write leaf)))
      | some (.node child) =>
          heap.makeMut (n + 2) node (node.val.put place (.node (getMut heap key write n child)))

/-! ## Reading every entry -/

/-- The leaves of a slot, those of a node given. -/
def Slot.leaves {ρ : Type} (inner : ρ → List (Leaf ν)) : Slot ν ρ → List (Leaf ν)
  | .leaf lone => [lone]
  | .node child => inner child.val

/-- The leaves `each_in` goes over. -/
def leaves : (n : Nat) → Node ν n → List (Leaf ν)
  | 0, node => node
  | n + 1, (node : Packed 32 (Slot ν (Node ν n))) => node.slots.flatMap (Slot.leaves (leaves n))

/-- `Iter`: the slots still to come, for each level being visited. -/
abbrev Iter (ν : Type) := List ((n : Nat) × List (Slot ν (Node ν n)))

/-- The slots at and below a slot, those below a node given. -/
def Slot.weight {ρ : Type} (inner : ρ → Nat) : Slot ν ρ → Nat
  | .leaf _ => 1
  | .node child => inner child.val + 2

/-- The slots below a node, with one more for each node. -/
def weight : (n : Nat) → Node ν n → Nat
  | 0, (node : List (Leaf ν)) => node.length
  | n + 1, (node : Packed 32 (Slot ν (Node ν n))) => (node.slots.map (Slot.weight (weight n))).sum

/-- How much there is left to visit. -/
def Iter.weight (iter : Iter ν) : Nat :=
  (iter.map fun level => (level.2.map (Slot.weight (Trie.weight level.1))).sum + 1).sum

theorem weight_eq_slotsOf (n : Nat) (node : Node ν n) :
    ((slotsOf n node).map (Slot.weight (weight (n - 1)))).sum = weight n node := by
  cases n with
  | zero =>
      show ((List.map Slot.leaf (leaves 0 node)).map _).sum = (leaves 0 node).length
      rw [List.map_map]
      simp [Function.comp_def, Slot.weight]
  | succ n => rfl

/-- The loop of `Iter::next`. -/
def Iter.next : Iter ν → Option (Leaf ν × Iter ν)
  | [] => none
  | ⟨_, []⟩ :: rest => next rest
  | ⟨n, .leaf leaf :: slots⟩ :: rest => some (leaf, ⟨n, slots⟩ :: rest)
  | ⟨n, .node node :: slots⟩ :: rest =>
      next (⟨n - 1, slotsOf n node.val⟩ :: ⟨n, slots⟩ :: rest)
termination_by iter => Iter.weight iter
decreasing_by
  · simp [Iter.weight]
  · simp only [Iter.weight, List.map_cons, List.sum_cons, weight_eq_slotsOf, Slot.weight]
    omega

/-- A step leaves less to visit. -/
theorem Iter.weight_next {iter : Iter ν} {leaf : Leaf ν} {rest : Iter ν}
    (h : iter.next = some (leaf, rest)) : rest.weight < iter.weight := by
  fun_induction Iter.next iter with
  | case1 => exact nomatch h
  | case2 n outer ih =>
      have := ih h
      simp only [Iter.weight, List.map_cons, List.sum_cons] at this ⊢
      omega
  | case3 n lone slots outer =>
      rw [Option.some_inj, Prod.mk.injEq] at h
      rw [← h.2]
      simp only [Iter.weight, List.map_cons, List.sum_cons, Slot.weight]
      omega
  | case4 n node slots outer ih =>
      have := ih h
      simp only [Iter.weight, List.map_cons, List.sum_cons, weight_eq_slotsOf, Slot.weight] at this ⊢
      omega

/-- The leaves an iterator gives until it gives no more. -/
def Iter.collect (iter : Iter ν) : List (Leaf ν) :=
  match _h : iter.next with
  | none => []
  | some (leaf, rest) => leaf :: collect rest
termination_by iter.weight
decreasing_by exact Iter.weight_next _h

/-- The leaves at and below the slots still to come. -/
def Iter.pending (iter : Iter ν) : List (Leaf ν) :=
  iter.flatMap fun level => level.2.flatMap (Slot.leaves (leaves level.1))

theorem leaves_eq_slotsOf (n : Nat) (node : Node ν n) :
    leaves n node = (slotsOf n node).flatMap (Slot.leaves (leaves (n - 1))) := by
  cases n with
  | zero =>
      show node = (List.map Slot.leaf (leaves 0 node)).flatMap _
      rw [List.flatMap_map]
      exact (List.flatMap_singleton' (leaves 0 node)).symm
  | succ n => rfl

/-- A step gives the first leaf pending. -/
theorem Iter.next_eq (iter : Iter ν) :
    (iter.next = none ∧ iter.pending = []) ∨
      ∃ leaf rest, iter.next = some (leaf, rest) ∧ iter.pending = leaf :: rest.pending := by
  fun_induction Iter.next iter with
  | case1 => exact .inl ⟨rfl, rfl⟩
  | case2 n outer ih => exact ih
  | case3 n lone slots outer => exact .inr ⟨lone, _, rfl, rfl⟩
  | case4 n node slots outer ih =>
      have hpending : Iter.pending (⟨n, .node node :: slots⟩ :: outer) =
          Iter.pending (⟨n - 1, slotsOf n node.val⟩ :: ⟨n, slots⟩ :: outer) := by
        simp only [Iter.pending, List.flatMap_cons, List.append_assoc, Slot.leaves,
          ← leaves_eq_slotsOf]
      rw [hpending]
      exact ih

/-- An iterator gives the leaves pending. -/
theorem Iter.collect_eq_pending (iter : Iter ν) : iter.collect = iter.pending := by
  fun_induction Iter.collect iter with
  | case1 iter hnext =>
      rcases iter.next_eq with ⟨_, hpending⟩ | ⟨leaf, rest, hsome, _⟩
      · exact hpending.symm
      · exact nomatch hnext.symm.trans hsome
  | case2 iter leaf rest hnext ih =>
      rcases iter.next_eq with ⟨hnone, _⟩ | ⟨_, _, hsome, hpending⟩
      · exact nomatch hnone.symm.trans hnext
      · have heq := Option.some_inj.mp (hnext.symm.trans hsome)
        rw [Prod.mk.injEq] at heq
        rw [hpending, ih, heq.1, heq.2]

/-- What `diff` tells about a key: its value on either side. -/
abbrev Visit (ν : Type) := Atom × Option ν × Option ν

/-- The visits to the leaves only the first map has. -/
def onlyMine (leaves : List (Leaf ν)) : List (Visit ν) :=
  leaves.map fun leaf => (leaf.key, some leaf.value, none)

/-- The visits to the leaves only the second map has. -/
def onlyTheirs (leaves : List (Leaf ν)) : List (Visit ν) :=
  leaves.map fun leaf => (leaf.key, none, some leaf.value)

/-- `diff_leaf_lists` -/
def diffLeafLists (a b : List (Leaf ν)) : List (Visit ν) :=
  (a.filterMap fun x =>
    match b.find? fun y => y.key = x.key with
    | some y => if x.addr = y.addr then none else some (x.key, some x.value, some y.value)
    | none => some (x.key, some x.value, none)) ++
  onlyTheirs (b.filter fun y => !a.any fun x => x.key = y.key)

/-- `diff_leaf_against` -/
def diffLeafAgainst (leaf : Leaf ν) (n : Nat) (subtree : Node ν n) (leafIsMine : Bool) :
    List (Visit ν) :=
  let pair (key : Atom) (lone other : Option ν) : Visit ν :=
    if leafIsMine then (key, lone, other) else (key, other, lone)
  (match get hash leaf.key n subtree with
    | some same =>
        if same.addr = leaf.addr then [] else [pair leaf.key (some leaf.value) (some same.value)]
    | none => [pair leaf.key (some leaf.value) none]) ++
  ((leaves n subtree).filter fun other => other.key ≠ leaf.key).map fun other =>
    pair other.key none (some other.value)

/-- What `diff_nodes` does at one bit, the nodes of the level below compared by
`inner`. -/
def diffSlots (n : Nat) (inner : Node ν n → Node ν n → List (Visit ν)) :
    Option (Slot ν (Node ν n)) → Option (Slot ν (Node ν n)) → List (Visit ν)
  | some x, none => onlyMine (x.leaves (leaves n))
  | none, some y => onlyTheirs (y.leaves (leaves n))
  | some (.node x), some (.node y) => if x.addr = y.addr then [] else inner x.val y.val
  | some (.leaf x), some (.leaf y) =>
      if x.addr = y.addr then []
      else if x.key = y.key then [(x.key, some x.value, some y.value)]
      else [(x.key, some x.value, none), (y.key, none, some y.value)]
  | some (.leaf x), some (.node y) => diffLeafAgainst hash x n y.val true
  | some (.node x), some (.leaf y) => diffLeafAgainst hash y n x.val false
  | none, none => []

/-- `diff_nodes`: the visits, in order.  A visitor that breaks ends the walk
there. -/
def diffNodes : (n : Nat) → Node ν n → Node ν n → List (Visit ν)
  | 0, a, b => diffLeafLists a b
  | n + 1, (a : Packed 32 (Slot ν (Node ν n))), (b : Packed 32 (Slot ν (Node ν n))) =>
      (Packed.places (a.bitmap ||| b.bitmap)).flatMap fun place =>
        diffSlots hash n (diffNodes n) (a.get place) (b.get place)

/-! ## The map -/

/-- `AtomTrie::default` -/
def AtomTrie.empty : AtomTrie ν := ⟨none, 0⟩

/-- `AtomTrie::get`, as the leaf. -/
def AtomTrie.leaf (trie : AtomTrie ν) (key : Atom) : Option (Leaf ν) :=
  trie.root.bind fun root => Trie.get hash key levels root.val

/-- `AtomTrie::get` -/
def AtomTrie.get (trie : AtomTrie ν) (key : Atom) : Option ν :=
  (trie.leaf hash key).map Arc.value

/-- `AtomTrie::contains_key` -/
def AtomTrie.containsKey (trie : AtomTrie ν) (key : Atom) : Bool := (trie.get hash key).isSome

/-- `AtomTrie::is_empty` -/
def AtomTrie.isEmpty (trie : AtomTrie ν) : Bool := trie.len == 0

/-- `AtomTrie::insert` -/
def AtomTrie.insert (heap : Heap) (trie : AtomTrie ν) (key : Atom) (value : ν) : AtomTrie ν :=
  match trie.root with
  | some root =>
      let inserted := Trie.insert hash heap key value levels root
      ⟨some inserted.1, if inserted.2 then trie.len + 1 else trie.len⟩
  | none =>
      let root : Packed 32 (Slot ν (Node ν 12)) :=
        Packed.single (bitAt (hash key) levels) (.leaf (heap.alloc (key, value)))
      ⟨some (heap.alloc root), trie.len + 1⟩

/-- `AtomTrie::remove` -/
def AtomTrie.remove (heap : Heap) (trie : AtomTrie ν) (key : Atom) : AtomTrie ν :=
  if trie.containsKey hash key then
    let len := trie.len - 1
    ⟨if len = 0 then none else trie.root.map (Trie.remove hash heap key levels), len⟩
  else trie

/-- `AtomTrie::get_mut`, and the write through it. -/
def AtomTrie.getMut (heap : Heap) (trie : AtomTrie ν) (key : Atom) (write : ν → ν) :
    AtomTrie ν :=
  if trie.containsKey hash key then
    ⟨trie.root.map (Trie.getMut hash heap key write levels), trie.len⟩
  else trie

/-- Every leaf of the trie. -/
def AtomTrie.leaves (trie : AtomTrie ν) : List (Leaf ν) :=
  match trie.root with
  | some root => Trie.leaves levels root.val
  | none => []

/-- `AtomTrie::iter` -/
def AtomTrie.start (trie : AtomTrie ν) : Iter ν :=
  match trie.root with
  | some root => [⟨levels - 1, slotsOf levels root.val⟩]
  | none => []

/-- The entries `AtomTrie::iter` gives. -/
def AtomTrie.iter (trie : AtomTrie ν) : List (Atom × ν) := trie.start.collect.map Arc.val

theorem AtomTrie.iter_eq (trie : AtomTrie ν) : trie.iter = trie.leaves.map Arc.val := by
  unfold AtomTrie.iter AtomTrie.start AtomTrie.leaves
  rw [Iter.collect_eq_pending]
  match trie.root with
  | none => rfl
  | some root =>
      apply congrArg (List.map Arc.val)
      exact (List.flatMap_singleton ..).trans (leaves_eq_slotsOf levels root.val).symm

/-- `AtomTrie::diff` -/
def AtomTrie.diff (a b : AtomTrie ν) : List (Visit ν) :=
  match a.root, b.root with
  | none, none => []
  | some a, none => onlyMine (Trie.leaves levels a.val)
  | none, some b => onlyTheirs (Trie.leaves levels b.val)
  | some a, some b => if a.addr = b.addr then [] else diffNodes hash levels a.val b.val

/-- `AtomTrie::eq` -/
def AtomTrie.eq [BEq ν] (a b : AtomTrie ν) : Bool :=
  a.len == b.len && (a.diff hash b).all fun (_, mine, theirs) =>
    match mine, theirs with
    | some mine, some theirs => mine == theirs
    | _, _ => false

end Node
end PhpantomLsp.Flow.Trie
