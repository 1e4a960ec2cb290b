import PhpantomLsp.Flow.TrieLookup

/-!
# Writing one key

`insert`, `remove` and `get_mut` go down to the slot of their key and rebuild
the nodes on the way.  Each changes what `get` finds for its own key only, and
leaves every leaf in place: a leaf that is pushed down by a second key of its
slot goes where `pair` finds room, and a node left with one leaf gives it to
its parent, whose slot selects the leaf as well.
-/

namespace PhpantomLsp.Flow.Trie

open Lib PhpType

section Writes

variable {ν : Type} (hash : Atom → BitVec 64)

/-! ## Insertion -/

@[simp] theorem Heap.makeMut_val {α : Type} (heap : Heap) (rank : Nat) (arc : Arc α) (val : α) :
    (heap.makeMut rank arc val).val = val := by
  unfold Heap.makeMut
  by_cases h : heap.sole rank arc.addr = true
  · rw [if_pos h]
  · rw [if_neg h]

theorem replaceLeaf_val (heap : Heap) {leaf : Leaf ν} {key : Atom} (value : ν)
    (h : leaf.key = key) : (replaceLeaf heap leaf key value).val = (key, value) := by
  unfold replaceLeaf
  by_cases hsole : heap.sole 0 leaf.addr = true
  · rw [if_pos hsole, h]
  · rw [if_neg hsole]
    rfl

variable (heap : Heap) (key : Atom) (value : ν)

theorem pair_same {a b : Leaf ν} {n : Nat}
    (h : bitAt (hash a.key) (n + 1) = bitAt (hash b.key) (n + 1)) :
    pair hash heap a b (n + 1) =
      Packed.single (bitAt (hash a.key) (n + 1)) (.node (heap.alloc (pair hash heap a b n))) :=
  dif_pos h

theorem pair_split {a b : Leaf ν} {n : Nat}
    (h : bitAt (hash a.key) (n + 1) ≠ bitAt (hash b.key) (n + 1)) :
    pair hash heap a b (n + 1) =
      Packed.two (bitAt (hash a.key) (n + 1)) (bitAt (hash b.key) (n + 1)) (.leaf a) (.leaf b) h :=
  dif_neg h

/-- What a pair of leaves is searched for. -/
theorem get_pair (a b : Leaf ν) (n : Nat) (k : Atom) :
    get hash k n (pair hash heap a b n) =
      if a.key = k then some a else if b.key = k then some b else none := by
  induction n with
  | zero =>
      show [a, b].find? _ = _
      rw [List.find?_cons, List.find?_cons]
      by_cases ha : a.key = k
      · rw [if_pos ha, decide_eq_true ha]
      · rw [if_neg ha, decide_eq_false ha]
        by_cases hb : b.key = k
        · rw [if_pos hb, decide_eq_true hb]
        · rw [if_neg hb, decide_eq_false hb]
          rfl
  | succ n ih =>
      by_cases hsame : bitAt (hash a.key) (n + 1) = bitAt (hash b.key) (n + 1)
      · rw [pair_same hash heap hsame, get_succ, Packed.get_single]
        by_cases hplace : bitAt (hash k) (n + 1) = bitAt (hash a.key) (n + 1)
        · rw [if_pos hplace]
          exact ih
        · rw [if_neg hplace, if_neg fun h => hplace (by rw [h]),
            if_neg fun h => hplace (by rw [hsame, h])]
          rfl
      · rw [pair_split hash heap hsame, get_succ, Packed.get_two]
        by_cases ha : bitAt (hash k) (n + 1) = bitAt (hash a.key) (n + 1)
        · have hb : b.key ≠ k := fun h => hsame (by rw [h, ha])
          rw [if_pos ha, if_neg hb]
          rfl
        · have hne : a.key ≠ k := fun h => ha (by rw [h])
          rw [if_neg ha, if_neg hne]
          by_cases hb : bitAt (hash k) (n + 1) = bitAt (hash b.key) (n + 1)
          · rw [if_pos hb]
            rfl
          · have hne : b.key ≠ k := fun h => hb (by rw [h])
            rw [if_neg hb, if_neg hne]
            rfl

theorem mem_leaves_pair {a b leaf : Leaf ν} {n : Nat}
    (h : leaf ∈ leaves n (pair hash heap a b n)) : leaf = a ∨ leaf = b := by
  induction n with
  | zero =>
      change leaf ∈ [a, b] at h
      simpa using h
  | succ n ih =>
      by_cases hsame : bitAt (hash a.key) (n + 1) = bitAt (hash b.key) (n + 1)
      · rw [pair_same hash heap hsame] at h
        have ⟨i, s, hget, hleaf⟩ := mem_leaves_succ.mp h
        rw [Packed.get_single] at hget
        by_cases hi : i = bitAt (hash a.key) (n + 1)
        · rw [if_pos hi, Option.some_inj] at hget
          rw [← hget] at hleaf
          exact ih hleaf
        · rw [if_neg hi] at hget
          exact nomatch hget
      · rw [pair_split hash heap hsame] at h
        have ⟨i, s, hget, hleaf⟩ := mem_leaves_succ.mp h
        rw [Packed.get_two] at hget
        by_cases hi : i = bitAt (hash a.key) (n + 1)
        · rw [if_pos hi, Option.some_inj] at hget
          rw [← hget] at hleaf
          exact .inl (List.mem_singleton.mp hleaf)
        · rw [if_neg hi] at hget
          by_cases hj : i = bitAt (hash b.key) (n + 1)
          · rw [if_pos hj, Option.some_inj] at hget
            rw [← hget] at hleaf
            exact .inr (List.mem_singleton.mp hleaf)
          · rw [if_neg hj] at hget
            exact nomatch hget

theorem placed_pair {a b : Leaf ν} (hne : a.key ≠ b.key) (n : Nat) :
    Placed hash n (pair hash heap a b n) := by
  induction n with
  | zero =>
      show ([a, b].map Arc.key).Nodup
      simpa using hne
  | succ n ih =>
      intro i s hget
      by_cases hsame : bitAt (hash a.key) (n + 1) = bitAt (hash b.key) (n + 1)
      · rw [pair_same hash heap hsame, Packed.get_single] at hget
        by_cases hi : i = bitAt (hash a.key) (n + 1)
        · rw [if_pos hi, Option.some_inj] at hget
          rw [← hget, hi]
          constructor
          · intro leaf hleaf
            rcases mem_leaves_pair hash heap hleaf with rfl | rfl
            · rfl
            · exact hsame.symm
          · intro child hchild
            injection hchild with hchild
            rw [← hchild]
            exact ih
        · rw [if_neg hi] at hget
          exact nomatch hget
      · rw [pair_split hash heap hsame, Packed.get_two] at hget
        have lone : ∀ leaf : Leaf ν,
            InPlace hash n (Placed hash n) (bitAt (hash leaf.key) (n + 1)) (.leaf leaf) := by
          intro leaf
          constructor
          · intro l hl
            rw [List.mem_singleton.mp hl]
          · intro child hchild
            exact nomatch hchild
        by_cases hi : i = bitAt (hash a.key) (n + 1)
        · rw [if_pos hi, Option.some_inj] at hget
          rw [← hget, hi]
          exact lone a
        · rw [if_neg hi] at hget
          by_cases hj : i = bitAt (hash b.key) (n + 1)
          · rw [if_pos hj, Option.some_inj] at hget
            rw [← hget, hj]
            exact lone b
          · rw [if_neg hj] at hget
            exact nomatch hget

/-- What `Node::insert` does to a collision list. -/
def insertList (leaves : List (Leaf ν)) : List (Leaf ν) × Bool :=
  match replaceIn heap key value leaves with
  | some after => (after, false)
  | none => (leaves ++ [heap.alloc (key, value)], true)

/-- The first leaf of the key is overwritten, or there is none and a new leaf
goes to the end. -/
theorem insertList_cases (leaves : List (Leaf ν)) :
    (∃ front leaf back, leaves = front ++ leaf :: back ∧ leaf.key = key ∧
      (∀ l ∈ front, l.key ≠ key) ∧
      insertList heap key value leaves =
        (front ++ replaceLeaf heap leaf key value :: back, false)) ∨
    (∀ l ∈ leaves, l.key ≠ key) ∧
      insertList heap key value leaves = (leaves ++ [heap.alloc (key, value)], true) := by
  have hcases : (∃ front leaf back, leaves = front ++ leaf :: back ∧ leaf.key = key ∧
      (∀ l ∈ front, l.key ≠ key) ∧
      replaceIn heap key value leaves = some (front ++ replaceLeaf heap leaf key value :: back)) ∨
      (∀ l ∈ leaves, l.key ≠ key) ∧ replaceIn heap key value leaves = none := by
    induction leaves with
    | nil => exact .inr ⟨by simp, rfl⟩
    | cons first rest ih =>
        rw [replaceIn]
        by_cases hfirst : first.key = key
        · rw [if_pos hfirst]
          exact .inl ⟨[], first, rest, rfl, hfirst, by simp, rfl⟩
        · rw [if_neg hfirst]
          rcases ih with ⟨front, leaf, back, hrest, hkey, hfront, hreplace⟩ | ⟨hnone, hreplace⟩
          · refine .inl ⟨first :: front, leaf, back, by rw [hrest]; rfl, hkey, ?_, ?_⟩
            · intro l hl
              rcases List.mem_cons.mp hl with rfl | hl
              · exact hfirst
              · exact hfront l hl
            · rw [hreplace]
              rfl
          · refine .inr ⟨?_, by rw [hreplace]; rfl⟩
            intro l hl
            rcases List.mem_cons.mp hl with rfl | hl
            · exact hfirst
            · exact hnone l hl
  unfold insertList
  rcases hcases with ⟨front, leaf, back, hleaves, hkey, hfront, hreplace⟩ | ⟨hnone, hreplace⟩
  · rw [hreplace]
    exact .inl ⟨front, leaf, back, hleaves, hkey, hfront, rfl⟩
  · rw [hreplace]
    exact .inr ⟨hnone, rfl⟩

theorem insert_zero (node : Arc (Node ν 0)) :
    insert hash heap key value 0 node =
      (heap.makeMut 1 node (insertList heap key value (leaves 0 node.val)).1,
        (insertList heap key value (leaves 0 node.val)).2) := by
  show (match replaceIn heap key value (leaves 0 node.val) with
    | some after => _
    | none => _) = _
  unfold insertList
  match replaceIn heap key value (leaves 0 node.val) with
  | some after => rfl
  | none => rfl

/-- The collision list an insertion leaves. -/
theorem leaves_insert_zero (node : Arc (Node ν 0)) :
    leaves 0 (insert hash heap key value 0 node).1.val =
      (insertList heap key value (leaves 0 node.val)).1 := by
  rw [insert_zero]
  exact Heap.makeMut_val heap 1 node _

/-- What `Node::insert` leaves in the slot of its key. -/
def insertSlot (n : Nat) : Option (Slot ν (Node ν n)) → Slot ν (Node ν n) × Bool
  | none => (.leaf (heap.alloc (key, value)), true)
  | some (.node child) =>
      let inserted := insert hash heap key value n child
      (.node inserted.1, inserted.2)
  | some (.leaf leaf) =>
      if leaf.key = key then (.leaf (replaceLeaf heap leaf key value), false)
      else (.node (heap.alloc (pair hash heap leaf (heap.alloc (key, value)) n)), true)

theorem insert_succ (n : Nat) (node : Arc (Packed 32 (Slot ν (Node ν n)))) :
    insert hash heap key value (n + 1) node =
      (heap.makeMut (n + 2) node (node.val.put (bitAt (hash key) (n + 1))
        (insertSlot hash heap key value n (node.val.get (bitAt (hash key) (n + 1)))).1),
        (insertSlot hash heap key value n (node.val.get (bitAt (hash key) (n + 1)))).2) := by
  show (match node.val.get (bitAt (hash key) (n + 1)) with
    | none => _
    | some (.node child) => _
    | some (.leaf leaf) => _) = _
  match node.val.get (bitAt (hash key) (n + 1)) with
  | none => rfl
  | some (.node child) => rfl
  | some (.leaf leaf) =>
      show (if leaf.key = key then _ else _) = _
      simp only [insertSlot]
      by_cases hkey : leaf.key = key
      · rw [if_pos hkey, if_pos hkey]
        rfl
      · rw [if_neg hkey, if_neg hkey]
        rfl

theorem find_insertList_of_ne {k : Atom} (hne : k ≠ key) (leaves : List (Leaf ν)) :
    ((insertList heap key value leaves).1.find? fun leaf => leaf.key = k) =
      leaves.find? fun leaf => leaf.key = k := by
  rcases insertList_cases heap key value leaves with
    ⟨front, leaf, back, hleaves, hkey, _, hafter⟩ | ⟨_, hafter⟩
  · have hnew : (replaceLeaf heap leaf key value).key = key :=
      congrArg Prod.fst (replaceLeaf_val heap value hkey)
    rw [hafter, hleaves, List.find?_append, List.find?_append, List.find?_cons, List.find?_cons,
      decide_eq_false (hkey.trans_ne hne.symm), decide_eq_false (hnew.trans_ne hne.symm)]
  · rw [hafter, List.find?_append, List.find?_cons,
      decide_eq_false (show (heap.alloc (key, value)).key ≠ k from hne.symm)]
    exact Option.or_none

theorem find_insertList (leaves : List (Leaf ν)) :
    ∃ leaf, ((insertList heap key value leaves).1.find? fun leaf => leaf.key = key) = some leaf ∧
      leaf.value = value := by
  have hskip : ∀ front : List (Leaf ν), (∀ l ∈ front, l.key ≠ key) →
      (front.find? fun leaf => leaf.key = key) = none := by
    intro front hfront
    rw [List.find?_eq_none]
    intro l hl
    simpa using hfront l hl
  rcases insertList_cases heap key value leaves with
    ⟨front, leaf, back, _, hkey, hfront, hafter⟩ | ⟨hnone, hafter⟩
  · have hval := replaceLeaf_val heap value hkey
    have hnew : (replaceLeaf heap leaf key value).key = key := congrArg Prod.fst hval
    refine ⟨replaceLeaf heap leaf key value, ?_, congrArg Prod.snd hval⟩
    rw [hafter, List.find?_append, hskip front hfront, List.find?_cons, decide_eq_true hnew]
    rfl
  · refine ⟨heap.alloc (key, value), ?_, rfl⟩
    rw [hafter, List.find?_append, hskip leaves hnone, List.find?_cons,
      decide_eq_true (show (heap.alloc (key, value)).key = key from rfl)]
    rfl

theorem insertList_new (leaves : List (Leaf ν)) :
    (insertList heap key value leaves).2 =
      (leaves.find? fun leaf => leaf.key = key).isNone := by
  symm
  rcases insertList_cases heap key value leaves with
    ⟨front, leaf, back, hleaves, hkey, _, hafter⟩ | ⟨hnone, hafter⟩
  · rw [hafter, Option.isNone_eq_false_iff, List.find?_isSome]
    refine ⟨leaf, ?_, decide_eq_true hkey⟩
    rw [hleaves]
    exact List.mem_append_right _ (List.mem_cons_self ..)
  · rw [hafter, Option.isNone_iff_eq_none, List.find?_eq_none]
    intro l hl
    simpa using hnone l hl

theorem mem_insertList {leaves : List (Leaf ν)} {leaf : Leaf ν}
    (h : leaf ∈ (insertList heap key value leaves).1) : leaf.key = key ∨ leaf ∈ leaves := by
  rcases insertList_cases heap key value leaves with
    ⟨front, old, back, hleaves, hkey, _, hafter⟩ | ⟨_, hafter⟩
  · rw [hafter, List.mem_append, List.mem_cons] at h
    rw [hleaves, List.mem_append, List.mem_cons]
    rcases h with hfront | hnew | hback
    · exact .inr (.inl hfront)
    · exact .inl (by rw [hnew]; exact congrArg Prod.fst (replaceLeaf_val heap value hkey))
    · exact .inr (.inr (.inr hback))
  · rw [hafter, List.mem_append, List.mem_singleton] at h
    rcases h with hold | hnew
    · exact .inr hold
    · exact .inl (by rw [hnew]; rfl)

theorem nodup_insertList {leaves : List (Leaf ν)} (h : (leaves.map Arc.key).Nodup) :
    ((insertList heap key value leaves).1.map Arc.key).Nodup := by
  rcases insertList_cases heap key value leaves with
    ⟨front, old, back, hleaves, hkey, _, hafter⟩ | ⟨hnone, hafter⟩
  · have hnew : (replaceLeaf heap old key value).key = old.key :=
      (congrArg Prod.fst (replaceLeaf_val heap value hkey)).trans hkey.symm
    rw [hleaves, List.map_append, List.map_cons] at h
    rw [hafter, List.map_append, List.map_cons, hnew]
    exact h
  · rw [hafter, List.map_append, List.nodup_append]
    refine ⟨h, List.nodup_singleton _, ?_⟩
    intro a ha b hb
    have ⟨l, hl, hla⟩ := List.mem_map.mp ha
    rw [List.map_singleton, List.mem_singleton] at hb
    rw [← hla, hb]
    exact hnone l hl

/-- The lookup of another key passes an insertion by. -/
theorem get_insert_of_ne {k : Atom} (hne : k ≠ key) (n : Nat) (node : Arc (Node ν n)) :
    get hash k n (insert hash heap key value n node).1.val = get hash k n node.val := by
  induction n with
  | zero =>
      rw [get_zero, get_zero, leaves_insert_zero]
      exact find_insertList_of_ne heap key value hne _
  | succ n ih =>
      change Arc (Packed 32 (Slot ν (Node ν n))) at node
      show get hash k (n + 1) (insert hash heap key value (n + 1) node).1.val =
        get hash k (n + 1) (node.val : Packed 32 (Slot ν (Node ν n)))
      rw [insert_succ, Heap.makeMut_val, get_put]
      by_cases hplace : bitAt (hash k) (n + 1) = bitAt (hash key) (n + 1)
      · rw [if_pos hplace, get_succ, hplace]
        match node.val.get (bitAt (hash key) (n + 1)) with
        | none => exact if_neg hne.symm
        | some (.node child) => exact ih child
        | some (.leaf leaf) =>
            unfold insertSlot
            by_cases hkey : leaf.key = key
            · have hnew : (replaceLeaf heap leaf key value).key = key :=
                congrArg Prod.fst (replaceLeaf_val heap value hkey)
              simp only [hkey, if_true]
              show (if (replaceLeaf heap leaf key value).key = k then _ else none) =
                if leaf.key = k then some leaf else none
              rw [if_neg (hnew.trans_ne hne.symm), if_neg (hkey.trans_ne hne.symm)]
            · simp only [hkey, if_false]
              show get hash k n (pair hash heap leaf (heap.alloc (key, value)) n) =
                if leaf.key = k then some leaf else none
              rw [get_pair, if_neg (show (heap.alloc (key, value)).key ≠ k from hne.symm)]
      · rw [if_neg hplace]

/-- The lookup of the key finds the inserted value. -/
theorem get_insert_self (n : Nat) (node : Arc (Node ν n)) :
    ∃ leaf, get hash key n (insert hash heap key value n node).1.val = some leaf ∧
      leaf.value = value := by
  induction n with
  | zero =>
      rw [get_zero, leaves_insert_zero]
      exact find_insertList heap key value _
  | succ n ih =>
      change Arc (Packed 32 (Slot ν (Node ν n))) at node
      show ∃ leaf, get hash key (n + 1) (insert hash heap key value (n + 1) node).1.val =
        some leaf ∧ _
      rw [insert_succ, Heap.makeMut_val, get_put, if_pos rfl]
      match node.val.get (bitAt (hash key) (n + 1)) with
      | none => exact ⟨_, if_pos rfl, rfl⟩
      | some (.node child) => exact ih child
      | some (.leaf leaf) =>
          unfold insertSlot
          by_cases hkey : leaf.key = key
          · have hval := replaceLeaf_val heap value hkey
            have hnew : (replaceLeaf heap leaf key value).key = key := congrArg Prod.fst hval
            simp only [hkey, if_true]
            exact ⟨_, if_pos hnew, congrArg Prod.snd hval⟩
          · simp only [hkey, if_false]
            refine ⟨heap.alloc (key, value), ?_, rfl⟩
            show get hash key n (pair hash heap leaf (heap.alloc (key, value)) n) = _
            rw [get_pair, if_neg hkey]
            exact if_pos rfl

/-- An insertion answers whether the key was missing. -/
theorem insert_new (n : Nat) (node : Arc (Node ν n)) :
    (insert hash heap key value n node).2 = (get hash key n node.val).isNone := by
  induction n with
  | zero =>
      rw [insert_zero, get_zero]
      exact insertList_new heap key value _
  | succ n ih =>
      change Arc (Packed 32 (Slot ν (Node ν n))) at node
      show (insert hash heap key value (n + 1) node).2 =
        (get hash key (n + 1) (node.val : Packed 32 (Slot ν (Node ν n)))).isNone
      rw [insert_succ, get_succ]
      match node.val.get (bitAt (hash key) (n + 1)) with
      | none => rfl
      | some (.node child) => exact ih child
      | some (.leaf leaf) =>
          unfold insertSlot readSlot
          by_cases hkey : leaf.key = key
          · simp [hkey]
          · simp [hkey]

/-- An insertion brings in a leaf of its key and no other. -/
theorem mem_leaves_insert {n : Nat} {node : Arc (Node ν n)} {leaf : Leaf ν}
    (h : leaf ∈ leaves n (insert hash heap key value n node).1.val) :
    leaf.key = key ∨ leaf ∈ leaves n node.val := by
  induction n with
  | zero =>
      rw [leaves_insert_zero] at h
      exact mem_insertList heap key value h
  | succ n ih =>
      change Arc (Packed 32 (Slot ν (Node ν n))) at node
      change leaf ∈ leaves (n + 1) (insert hash heap key value (n + 1) node).1.val at h
      show leaf.key = key ∨ leaf ∈ leaves (n + 1) (node.val : Packed 32 (Slot ν (Node ν n)))
      rw [insert_succ, Heap.makeMut_val] at h
      rcases mem_leaves_put h with hslot | hold
      · match hget : node.val.get (bitAt (hash key) (n + 1)) with
        | none =>
            rw [hget] at hslot
            exact .inl (by rw [List.mem_singleton.mp hslot]; rfl)
        | some (.node child) =>
            rw [hget] at hslot
            rcases ih hslot with hkey | hold
            · exact .inl hkey
            · exact .inr (mem_leaves_succ.mpr ⟨_, _, hget, hold⟩)
        | some (.leaf old) =>
            rw [hget] at hslot
            unfold insertSlot at hslot
            by_cases hkey : old.key = key
            · simp only [hkey, if_true] at hslot
              rw [List.mem_singleton.mp hslot]
              exact .inl (congrArg Prod.fst (replaceLeaf_val heap value hkey))
            · simp only [hkey, if_false] at hslot
              rcases mem_leaves_pair hash heap hslot with rfl | rfl
              · exact .inr (mem_leaves_succ.mpr ⟨_, _, hget, List.mem_singleton_self _⟩)
              · exact .inl rfl
      · exact .inr hold

/-- An insertion puts its leaf in place. -/
theorem placed_insert {n : Nat} {node : Arc (Node ν n)} (hplaced : Placed hash n node.val) :
    Placed hash n (insert hash heap key value n node).1.val := by
  induction n with
  | zero =>
      show ((leaves 0 (insert hash heap key value 0 node).1.val).map Arc.key).Nodup
      rw [leaves_insert_zero]
      exact nodup_insertList heap key value hplaced
  | succ n ih =>
      change Arc (Packed 32 (Slot ν (Node ν n))) at node
      change Placed hash (n + 1) (node.val : Packed 32 (Slot ν (Node ν n))) at hplaced
      show Placed hash (n + 1) (insert hash heap key value (n + 1) node).1.val
      rw [insert_succ, Heap.makeMut_val]
      apply hplaced.put hash
      have lone : ∀ leaf : Leaf ν, leaf.key = key →
          InPlace hash n (Placed hash n) (bitAt (hash key) (n + 1)) (.leaf leaf) := by
        intro leaf hkey
        constructor
        · intro l hl
          rw [List.mem_singleton.mp hl, hkey]
        · intro child hchild
          exact nomatch hchild
      match hget : node.val.get (bitAt (hash key) (n + 1)) with
      | none => exact lone _ rfl
      | some (.node child) =>
          have hchild := hplaced _ _ hget
          constructor
          · intro leaf hleaf
            rcases mem_leaves_insert hash heap key value hleaf with hkey | hold
            · rw [hkey]
            · exact hchild.1 leaf hold
          · intro inserted hinserted
            injection hinserted with hinserted
            rw [← hinserted]
            exact ih (hchild.2 child rfl)
      | some (.leaf old) =>
          unfold insertSlot
          by_cases hkey : old.key = key
          · simp only [hkey, if_true]
            exact lone _ (congrArg Prod.fst (replaceLeaf_val heap value hkey))
          · simp only [hkey, if_false]
            constructor
            · intro leaf hleaf
              rcases mem_leaves_pair hash heap hleaf with rfl | rfl
              · exact (hplaced _ _ hget).1 _ (List.mem_singleton_self _)
              · rfl
            · intro child hchild
              injection hchild with hchild
              rw [← hchild]
              exact placed_pair hash heap hkey n

/-! ## Removal -/

/-- The slot of a child that lost a leaf: freed, given the last leaf, or kept. -/
theorem foldChild_cases {n : Nat} (node : Packed 32 (Slot ν (Node ν n))) (place : Fin 32)
    (child : Arc (Node ν n)) :
    (slotsOf n child.val = [] ∧ foldChild node place child = node.remove place) ∨
    (∃ only, slotsOf n child.val = [.leaf only] ∧
      foldChild node place child = node.put place (.leaf only)) ∨
    foldChild node place child = node.put place (.node child) := by
  unfold foldChild
  match hslots : slotsOf n child.val with
  | [] => exact .inl ⟨rfl, rfl⟩
  | [.leaf only] => exact .inr (.inl ⟨only, rfl, rfl⟩)
  | [.node _] => exact .inr (.inr rfl)
  | .leaf _ :: _ :: _ => exact .inr (.inr rfl)
  | .node _ :: _ :: _ => exact .inr (.inr rfl)

/-- Folding a child does not show in what is found. -/
theorem get_foldChild {n : Nat} {child : Arc (Node ν n)} (hplaced : Placed hash n child.val)
    (node : Packed 32 (Slot ν (Node ν n))) (place : Fin 32) (k : Atom) :
    get hash k (n + 1) (foldChild node place child) =
      if bitAt (hash k) (n + 1) = place then get hash k n child.val
      else get hash k (n + 1) node := by
  rcases foldChild_cases node place child with ⟨hslots, hfold⟩ | ⟨only, hslots, hfold⟩ | hfold
  · have hnone : get hash k n child.val = none := by
      rw [Option.eq_none_iff_forall_ne_some]
      intro leaf hleaf
      have hmem := ((get_eq_some_iff hash hplaced k leaf).mp hleaf).1
      rw [leaves_eq_slotsOf, hslots] at hmem
      exact nomatch hmem
    rw [hfold, get_remove_place, hnone]
  · have honly : readSlot hash k n (some (.leaf only)) = get hash k n child.val := by
      apply Option.ext
      intro leaf
      rw [get_eq_some_iff hash hplaced, leaves_eq_slotsOf, hslots]
      show (if only.key = k then some only else none) = some leaf ↔ leaf ∈ [only] ∧ leaf.key = k
      rw [List.mem_singleton]
      by_cases hkey : only.key = k
      · rw [if_pos hkey, Option.some_inj]
        exact ⟨fun h => ⟨h.symm, h ▸ hkey⟩, fun h => h.1.symm⟩
      · rw [if_neg hkey]
        constructor
        · intro h
          exact nomatch h
        · intro ⟨hleaf, hleafKey⟩
          exact absurd (hleaf ▸ hleafKey) hkey
    rw [hfold, get_put, honly]
  · rw [hfold, get_put]
    rfl

theorem mem_leaves_foldChild {n : Nat} {node : Packed 32 (Slot ν (Node ν n))} {place : Fin 32}
    {child : Arc (Node ν n)} {leaf : Leaf ν}
    (h : leaf ∈ leaves (n + 1) (foldChild node place child)) :
    leaf ∈ leaves n child.val ∨ leaf ∈ leaves (n + 1) node := by
  rcases foldChild_cases node place child with ⟨_, hfold⟩ | ⟨only, hslots, hfold⟩ | hfold
  · rw [hfold] at h
    exact .inr (mem_leaves_remove h)
  · rw [hfold] at h
    rcases mem_leaves_put h with honly | hold
    · left
      rw [leaves_eq_slotsOf, hslots]
      exact honly
    · exact .inr hold
  · rw [hfold] at h
    exact mem_leaves_put h

theorem placed_foldChild {n : Nat} {node : Packed 32 (Slot ν (Node ν n))} {place : Fin 32}
    {child : Arc (Node ν n)} (hplaced : Placed hash (n + 1) node)
    (hchild : InPlace hash n (Placed hash n) place (.node child)) :
    Placed hash (n + 1) (foldChild node place child) := by
  rcases foldChild_cases node place child with ⟨_, hfold⟩ | ⟨only, hslots, hfold⟩ | hfold
  · rw [hfold]
    exact hplaced.remove hash place
  · rw [hfold]
    apply hplaced.put hash
    constructor
    · intro leaf hleaf
      apply hchild.1 leaf
      show leaf ∈ leaves n child.val
      rw [leaves_eq_slotsOf, hslots]
      exact hleaf
    · intro inner hinner
      exact nomatch hinner
  · rw [hfold]
    exact hplaced.put hash hchild

/-- What `Node::remove` leaves of a node above the collision lists. -/
def removeFrom (n : Nat) (node : Packed 32 (Slot ν (Node ν n))) : Packed 32 (Slot ν (Node ν n)) :=
  match node.get (bitAt (hash key) (n + 1)) with
  | none => node
  | some (.leaf leaf) => if leaf.key = key then node.remove (bitAt (hash key) (n + 1)) else node
  | some (.node child) =>
      foldChild node (bitAt (hash key) (n + 1)) (remove hash heap key n child)

theorem remove_succ (n : Nat) (node : Arc (Packed 32 (Slot ν (Node ν n)))) :
    remove hash heap key (n + 1) node =
      heap.makeMut (n + 2) node (removeFrom hash heap key n node.val) := by
  unfold removeFrom
  show (match node.val.get (bitAt (hash key) (n + 1)) with
    | none => _
    | some (.leaf leaf) => _
    | some (.node child) => _) = _
  match node.val.get (bitAt (hash key) (n + 1)) with
  | none => rfl
  | some (.node child) => rfl
  | some (.leaf leaf) =>
      show (if leaf.key = key then _ else _) = heap.makeMut _ _ (if leaf.key = key then _ else _)
      by_cases hkey : leaf.key = key
      · rw [if_pos hkey]
        exact congrArg (heap.makeMut (n + 2) node) (if_pos hkey).symm
      · rw [if_neg hkey]
        exact congrArg (heap.makeMut (n + 2) node) (if_neg hkey).symm

theorem leaves_remove_zero (node : Arc (Node ν 0)) :
    leaves 0 (remove hash heap key 0 node).val =
      (leaves 0 node.val).filter fun leaf => leaf.key ≠ key :=
  Heap.makeMut_val heap 1 node _

/-- A removal brings in no leaf. -/
theorem mem_leaves_remove_key {n : Nat} {node : Arc (Node ν n)} {leaf : Leaf ν}
    (h : leaf ∈ leaves n (remove hash heap key n node).val) : leaf ∈ leaves n node.val := by
  induction n with
  | zero =>
      rw [leaves_remove_zero] at h
      exact (List.mem_filter.mp h).1
  | succ n ih =>
      change Arc (Packed 32 (Slot ν (Node ν n))) at node
      change leaf ∈ leaves (n + 1) (remove hash heap key (n + 1) node).val at h
      show leaf ∈ leaves (n + 1) (node.val : Packed 32 (Slot ν (Node ν n)))
      rw [remove_succ, Heap.makeMut_val] at h
      unfold removeFrom at h
      match hget : node.val.get (bitAt (hash key) (n + 1)) with
      | none =>
          rw [hget] at h
          exact h
      | some (.leaf old) =>
          rw [hget] at h
          by_cases hkey : old.key = key
          · simp only [hkey, if_true] at h
            exact mem_leaves_remove h
          · simp only [hkey, if_false] at h
            exact h
      | some (.node child) =>
          rw [hget] at h
          rcases mem_leaves_foldChild h with hchild | hold
          · exact mem_leaves_succ.mpr ⟨_, _, hget, ih hchild⟩
          · exact hold

theorem placed_remove {n : Nat} {node : Arc (Node ν n)} (hplaced : Placed hash n node.val) :
    Placed hash n (remove hash heap key n node).val := by
  induction n with
  | zero =>
      show ((leaves 0 (remove hash heap key 0 node).val).map Arc.key).Nodup
      rw [leaves_remove_zero]
      exact hplaced.sublist (List.filter_sublist.map Arc.key)
  | succ n ih =>
      change Arc (Packed 32 (Slot ν (Node ν n))) at node
      change Placed hash (n + 1) (node.val : Packed 32 (Slot ν (Node ν n))) at hplaced
      show Placed hash (n + 1) (remove hash heap key (n + 1) node).val
      rw [remove_succ, Heap.makeMut_val]
      unfold removeFrom
      match hget : node.val.get (bitAt (hash key) (n + 1)) with
      | none => exact hplaced
      | some (.leaf old) =>
          by_cases hkey : old.key = key
          · simp only [hkey, if_true]
            exact hplaced.remove hash _
          · simp only [hkey, if_false]
            exact hplaced
      | some (.node child) =>
          have hchild := hplaced _ _ hget
          apply placed_foldChild hash hplaced
          constructor
          · intro leaf hleaf
            exact hchild.1 leaf (mem_leaves_remove_key hash heap key hleaf)
          · intro removed hremoved
            injection hremoved with hremoved
            rw [← hremoved]
            exact ih (hchild.2 child rfl)

/-- A removal is seen by the lookup of its key alone. -/
theorem get_remove {n : Nat} {node : Arc (Node ν n)} (hplaced : Placed hash n node.val)
    (k : Atom) :
    get hash k n (remove hash heap key n node).val =
      if k = key then none else get hash k n node.val := by
  induction n with
  | zero =>
      rw [get_zero, get_zero, leaves_remove_zero, List.find?_filter]
      by_cases hk : k = key
      · rw [if_pos hk, List.find?_eq_none]
        intro leaf _
        simp [hk]
      · rw [if_neg hk]
        apply List.find?_congr
        intro leaf _
        by_cases hleaf : leaf.key = k
        · simp [hleaf, hk]
        · simp [hleaf]
  | succ n ih =>
      change Arc (Packed 32 (Slot ν (Node ν n))) at node
      change Placed hash (n + 1) (node.val : Packed 32 (Slot ν (Node ν n))) at hplaced
      show get hash k (n + 1) (remove hash heap key (n + 1) node).val =
        if k = key then none else get hash k (n + 1) (node.val : Packed 32 (Slot ν (Node ν n)))
      have hread := get_succ hash key n node.val
      rw [remove_succ, Heap.makeMut_val]
      unfold removeFrom
      match hget : node.val.get (bitAt (hash key) (n + 1)) with
      | none =>
          rw [hget] at hread
          by_cases hk : k = key
          · rw [if_pos hk, hk]
            exact hread
          · rw [if_neg hk]
      | some (.leaf old) =>
          rw [hget] at hread
          by_cases hkey : old.key = key
          · simp only [hkey, if_true]
            rw [get_remove_place]
            by_cases hk : k = key
            · rw [if_pos hk, if_pos (by rw [hk])]
            · rw [if_neg hk, get_succ]
              by_cases hplace : bitAt (hash k) (n + 1) = bitAt (hash key) (n + 1)
              · rw [if_pos hplace, hplace, hget]
                exact (if_neg (hkey.trans_ne (Ne.symm hk))).symm
              · rw [if_neg hplace]
          · simp only [hkey, if_false]
            by_cases hk : k = key
            · rw [if_pos hk, hk]
              exact hread.trans (if_neg hkey)
            · rw [if_neg hk]
      | some (.node child) =>
          have hchild := (hplaced _ _ hget).2 child rfl
          show get hash k (n + 1) (foldChild node.val _ _) = _
          rw [get_foldChild hash (placed_remove hash heap key hchild), ih hchild]
          by_cases hplace : bitAt (hash k) (n + 1) = bitAt (hash key) (n + 1)
          · rw [if_pos hplace, get_succ, hplace, hget]
            rfl
          · rw [if_neg hplace, if_neg fun h => hplace (by rw [h])]

/-! ## Writing through a reference -/

variable (write : ν → ν)

theorem writeLeaf_val (leaf : Leaf ν) :
    (writeLeaf heap write leaf).val = (leaf.key, write leaf.value) :=
  Heap.makeMut_val heap 0 leaf _

theorem writeLeaf_key (leaf : Leaf ν) : (writeLeaf heap write leaf).key = leaf.key := by
  show (writeLeaf heap write leaf).val.1 = leaf.key
  rw [writeLeaf_val]

/-- A collision list is written at the first leaf of the key. -/
theorem writeIn_cases (leaves : List (Leaf ν)) :
    (∃ front leaf back, leaves = front ++ leaf :: back ∧ leaf.key = key ∧
      (∀ l ∈ front, l.key ≠ key) ∧
      writeIn heap key write leaves = front ++ writeLeaf heap write leaf :: back) ∨
    (∀ l ∈ leaves, l.key ≠ key) ∧ writeIn heap key write leaves = leaves := by
  induction leaves with
  | nil => exact .inr ⟨by simp, rfl⟩
  | cons first rest ih =>
      rw [writeIn]
      by_cases hfirst : first.key = key
      · rw [if_pos hfirst]
        exact .inl ⟨[], first, rest, rfl, hfirst, by simp, rfl⟩
      · rw [if_neg hfirst]
        have hfront : ∀ front : List (Leaf ν), (∀ l ∈ front, l.key ≠ key) →
            ∀ l ∈ first :: front, l.key ≠ key := by
          intro front hfront l hl
          rcases List.mem_cons.mp hl with rfl | hl
          · exact hfirst
          · exact hfront l hl
        rcases ih with ⟨front, leaf, back, hrest, hkey, hne, hwrite⟩ | ⟨hne, hwrite⟩
        · exact .inl ⟨first :: front, leaf, back, by rw [hrest]; rfl, hkey, hfront front hne,
            by rw [hwrite]; rfl⟩
        · exact .inr ⟨hfront rest hne, by rw [hwrite]⟩

theorem leaves_getMut_zero (node : Arc (Node ν 0)) :
    leaves 0 (getMut hash heap key write 0 node).val = writeIn heap key write (leaves 0 node.val) :=
  Heap.makeMut_val heap 1 node _

/-- What the loop of `get_mut` leaves of a node above the collision lists. -/
def writeFrom (n : Nat) (node : Packed 32 (Slot ν (Node ν n))) : Packed 32 (Slot ν (Node ν n)) :=
  match node.get (bitAt (hash key) (n + 1)) with
  | none => node
  | some (.leaf leaf) => node.put (bitAt (hash key) (n + 1)) (.leaf (writeLeaf heap write leaf))
  | some (.node child) =>
      node.put (bitAt (hash key) (n + 1)) (.node (getMut hash heap key write n child))

theorem getMut_succ (n : Nat) (node : Arc (Packed 32 (Slot ν (Node ν n)))) :
    getMut hash heap key write (n + 1) node =
      heap.makeMut (n + 2) node (writeFrom hash heap key write n node.val) := by
  unfold writeFrom
  show (match node.val.get (bitAt (hash key) (n + 1)) with
    | none => _
    | some (.leaf leaf) => _
    | some (.node child) => _) = _
  match node.val.get (bitAt (hash key) (n + 1)) with
  | none => rfl
  | some (.node child) => rfl
  | some (.leaf leaf) => rfl

/-- A write keeps the keys. -/
theorem mem_leaves_getMut {n : Nat} {node : Arc (Node ν n)} {leaf : Leaf ν}
    (h : leaf ∈ leaves n (getMut hash heap key write n node).val) :
    ∃ old ∈ leaves n node.val, old.key = leaf.key := by
  induction n with
  | zero =>
      rw [leaves_getMut_zero] at h
      rcases writeIn_cases heap key write (leaves 0 node.val) with
        ⟨front, old, back, hleaves, _, _, hwrite⟩ | ⟨_, hwrite⟩
      · rw [hwrite, List.mem_append, List.mem_cons] at h
        rw [hleaves]
        rcases h with hfront | hnew | hback
        · exact ⟨leaf, List.mem_append_left _ hfront, rfl⟩
        · refine ⟨old, List.mem_append_right _ (List.mem_cons_self ..), ?_⟩
          rw [hnew, writeLeaf_key]
        · exact ⟨leaf, List.mem_append_right _ (List.mem_cons_of_mem _ hback), rfl⟩
      · rw [hwrite] at h
        exact ⟨leaf, h, rfl⟩
  | succ n ih =>
      change Arc (Packed 32 (Slot ν (Node ν n))) at node
      change leaf ∈ leaves (n + 1) (getMut hash heap key write (n + 1) node).val at h
      show ∃ old ∈ leaves (n + 1) (node.val : Packed 32 (Slot ν (Node ν n))), old.key = leaf.key
      rw [getMut_succ, Heap.makeMut_val] at h
      unfold writeFrom at h
      match hget : node.val.get (bitAt (hash key) (n + 1)) with
      | none =>
          rw [hget] at h
          exact ⟨leaf, h, rfl⟩
      | some (.leaf old) =>
          rw [hget] at h
          rcases mem_leaves_put h with hnew | hold
          · refine ⟨old, mem_leaves_succ.mpr ⟨_, _, hget, List.mem_singleton_self _⟩, ?_⟩
            rw [List.mem_singleton.mp hnew, writeLeaf_key]
          · exact ⟨leaf, hold, rfl⟩
      | some (.node child) =>
          rw [hget] at h
          rcases mem_leaves_put h with hnew | hold
          · have ⟨old, hmem, hkey⟩ := ih hnew
            exact ⟨old, mem_leaves_succ.mpr ⟨_, _, hget, hmem⟩, hkey⟩
          · exact ⟨leaf, hold, rfl⟩

theorem placed_getMut {n : Nat} {node : Arc (Node ν n)} (hplaced : Placed hash n node.val) :
    Placed hash n (getMut hash heap key write n node).val := by
  induction n with
  | zero =>
      show ((leaves 0 (getMut hash heap key write 0 node).val).map Arc.key).Nodup
      change ((leaves 0 node.val).map Arc.key).Nodup at hplaced
      rw [leaves_getMut_zero]
      rcases writeIn_cases heap key write (leaves 0 node.val) with
        ⟨front, old, back, hleaves, _, _, hwrite⟩ | ⟨_, hwrite⟩
      · rw [hleaves, List.map_append, List.map_cons] at hplaced
        rw [hwrite, List.map_append, List.map_cons, writeLeaf_key]
        exact hplaced
      · rw [hwrite]
        exact hplaced
  | succ n ih =>
      change Arc (Packed 32 (Slot ν (Node ν n))) at node
      change Placed hash (n + 1) (node.val : Packed 32 (Slot ν (Node ν n))) at hplaced
      show Placed hash (n + 1) (getMut hash heap key write (n + 1) node).val
      rw [getMut_succ, Heap.makeMut_val]
      unfold writeFrom
      match hget : node.val.get (bitAt (hash key) (n + 1)) with
      | none => exact hplaced
      | some (.leaf old) =>
          apply hplaced.put hash
          constructor
          · intro leaf hleaf
            rw [List.mem_singleton.mp hleaf, writeLeaf_key]
            exact (hplaced _ _ hget).1 old (List.mem_singleton_self _)
          · intro child hchild
            exact nomatch hchild
      | some (.node child) =>
          have hchild := hplaced _ _ hget
          apply hplaced.put hash
          constructor
          · intro leaf hleaf
            have ⟨old, hmem, hkey⟩ := mem_leaves_getMut hash heap key write hleaf
            rw [← hkey]
            exact hchild.1 old hmem
          · intro written hwritten
            injection hwritten with hwritten
            rw [← hwritten]
            exact ih (hchild.2 child rfl)

/-- The write is seen by the lookup of its key alone. -/
theorem get_getMut {n : Nat} {node : Arc (Node ν n)}
    (hkey : (get hash key n node.val).isSome = true) (k : Atom) :
    (get hash k n (getMut hash heap key write n node).val).map Arc.value =
      if k = key then (get hash k n node.val).map fun leaf => write leaf.value
      else (get hash k n node.val).map Arc.value := by
  induction n with
  | zero =>
      rw [get_zero, get_zero, leaves_getMut_zero]
      rw [get_zero, List.find?_isSome] at hkey
      rcases writeIn_cases heap key write (leaves 0 node.val) with
        ⟨front, old, back, hleaves, hold, hfront, hwrite⟩ | ⟨hne, _⟩
      · have hnew := (writeLeaf_key heap write old).trans hold
        rw [hwrite, hleaves, List.find?_append, List.find?_append, List.find?_cons,
          List.find?_cons]
        by_cases hk : k = key
        · have hskip : (front.find? fun leaf => leaf.key = k) = none := by
            rw [List.find?_eq_none]
            intro l hl
            simpa [hk] using hfront l hl
          rw [if_pos hk, hskip, decide_eq_true (hnew.trans hk.symm),
            decide_eq_true (hold.trans hk.symm)]
          exact congrArg some (congrArg Prod.snd (writeLeaf_val heap write old))
        · rw [if_neg hk, decide_eq_false (hnew.trans_ne (Ne.symm hk)),
            decide_eq_false (hold.trans_ne (Ne.symm hk))]
      · have ⟨leaf, hleaf, hleafKey⟩ := hkey
        exact absurd (of_decide_eq_true hleafKey) (hne leaf hleaf)
  | succ n ih =>
      change Arc (Packed 32 (Slot ν (Node ν n))) at node
      change (get hash key (n + 1) (node.val : Packed 32 (Slot ν (Node ν n)))).isSome = true at hkey
      show (get hash k (n + 1) (getMut hash heap key write (n + 1) node).val).map Arc.value =
        if k = key then
          (get hash k (n + 1) (node.val : Packed 32 (Slot ν (Node ν n)))).map fun leaf =>
            write leaf.value
        else (get hash k (n + 1) (node.val : Packed 32 (Slot ν (Node ν n)))).map Arc.value
      have hother : bitAt (hash k) (n + 1) ≠ bitAt (hash key) (n + 1) → k ≠ key :=
        fun hplace hk => hplace (by rw [hk])
      rw [getMut_succ, Heap.makeMut_val]
      rw [get_succ] at hkey
      unfold writeFrom
      match hget : node.val.get (bitAt (hash key) (n + 1)) with
      | none =>
          rw [hget] at hkey
          exact nomatch hkey
      | some (.leaf old) =>
          rw [hget] at hkey
          have hold : old.key = key := by
            by_contra hne
            change (if old.key = key then some old else none).isSome = true at hkey
            rw [if_neg hne] at hkey
            exact nomatch hkey
          have hnew := (writeLeaf_key heap write old).trans hold
          show (get hash k (n + 1) (node.val.put _ _)).map Arc.value = _
          rw [get_put, get_succ hash k n node.val]
          by_cases hplace : bitAt (hash k) (n + 1) = bitAt (hash key) (n + 1)
          · rw [if_pos hplace, hplace, hget]
            show (if (writeLeaf heap write old).key = k then some (writeLeaf heap write old)
              else none).map Arc.value =
              if k = key then (if old.key = k then some old else none).map fun leaf =>
                write leaf.value
              else (if old.key = k then some old else none).map Arc.value
            by_cases hk : k = key
            · rw [if_pos hk, if_pos (hnew.trans hk.symm), if_pos (hold.trans hk.symm)]
              exact congrArg some (congrArg Prod.snd (writeLeaf_val heap write old))
            · rw [if_neg hk, if_neg (hnew.trans_ne (Ne.symm hk)),
                if_neg (hold.trans_ne (Ne.symm hk))]
          · rw [if_neg hplace, if_neg (hother hplace)]
      | some (.node child) =>
          rw [hget] at hkey
          show (get hash k (n + 1) (node.val.put _ _)).map Arc.value = _
          rw [get_put, get_succ hash k n node.val]
          by_cases hplace : bitAt (hash k) (n + 1) = bitAt (hash key) (n + 1)
          · rw [if_pos hplace, hplace, hget]
            exact ih hkey
          · rw [if_neg hplace, if_neg (hother hplace)]

end Writes
end PhpantomLsp.Flow.Trie
