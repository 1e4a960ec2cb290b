import PhpantomLsp.Flow.TrieDiff

/-!
# A trie and its plain map

`Represents` ties a trie to the finite map with the same entries: its leaves
are in place, `len` counts them and every lookup agrees.  The operations of
`AtomTrie` keep it, and what `iter` lists, `eq` decides and `diff` visits can be
read off the plain maps.
-/

namespace PhpantomLsp.Flow.Trie

open Lib PhpType

section Map

variable {ν : Type} (hash : Atom → BitVec 64)

/-- A trie with the entries of a plain map. -/
structure Represents (trie : AtomTrie ν) (plain : Table Atom ν) : Prop where
  placed : ∀ root, trie.root = some root → Placed hash levels root.val
  len : trie.len = plain.size
  get : ∀ key, trie.get hash key = plain[key]?

theorem represents_empty : Represents hash (AtomTrie.empty : AtomTrie ν) ∅ where
  placed _ hroot := nomatch hroot
  len := Std.ExtTreeMap.size_empty.symm
  get key := (Table.get_empty key).symm

variable {hash}

theorem Represents.containsKey {trie : AtomTrie ν} {plain : Table Atom ν}
    (h : Represents hash trie plain) (key : Atom) :
    trie.containsKey hash key = true ↔ key ∈ plain := by
  unfold AtomTrie.containsKey
  rw [h.get, Std.ExtTreeMap.mem_iff_isSome_getElem?]

/-- The leaves a trie lists are the ones it finds. -/
theorem Represents.lists {trie : AtomTrie ν} {plain : Table Atom ν}
    (h : Represents hash trie plain) : Lists (trie.leaf hash) trie.leaves := by
  intro key leaf
  unfold AtomTrie.leaf AtomTrie.leaves
  match hroot : trie.root with
  | none =>
      constructor
      · intro h
        exact nomatch h
      · intro h
        exact nomatch h.1
  | some root => exact get_eq_some_iff hash (h.placed root hroot) key leaf

theorem Represents.nodup_keys {trie : AtomTrie ν} {plain : Table Atom ν}
    (h : Represents hash trie plain) : (trie.leaves.map Arc.key).Nodup := by
  unfold AtomTrie.leaves
  match hroot : trie.root with
  | none => exact List.nodup_nil
  | some root => exact Trie.nodup_keys hash (h.placed root hroot)

/-- `iter` lists the entries of the plain map, each once. -/
theorem Represents.iter_perm {trie : AtomTrie ν} {plain : Table Atom ν}
    (h : Represents hash trie plain) : trie.iter.Perm plain.toList := by
  have hkeys : (trie.iter.map Prod.fst).Nodup := by
    have hnodup := h.nodup_keys
    rw [AtomTrie.iter_eq, List.map_map]
    exact hnodup
  have hplain : plain.toList.Nodup := by
    apply Std.ExtTreeMap.distinct_keys_toList.imp
    intro a b hne hab
    exact hne (by rw [hab]; exact Std.ReflCmp.compare_self)
  apply (List.perm_ext_iff_of_nodup hkeys.of_map hplain).mpr
  intro entry
  match entry with
  | (key, value) =>
      rw [Std.ExtTreeMap.mem_toList_iff_getElem?_eq_some, ← h.get]
      unfold AtomTrie.get
      rw [AtomTrie.iter_eq, List.mem_map, Option.map_eq_some_iff]
      constructor
      · intro ⟨leaf, hleaf, hval⟩
        exact ⟨leaf, (h.lists key leaf).mpr ⟨hleaf, congrArg Prod.fst hval⟩,
          congrArg Prod.snd hval⟩
      · intro ⟨leaf, hfind, hvalue⟩
        have ⟨hleaf, hkey⟩ := (h.lists key leaf).mp hfind
        exact ⟨leaf, hleaf, Prod.ext hkey hvalue⟩

/-! ## The operations -/

variable (heap : Heap) {trie : AtomTrie ν} {plain : Table Atom ν}

theorem Represents.insert (h : Represents hash trie plain) (key : Atom) (value : ν) :
    Represents hash (trie.insert hash heap key value) (plain.insert key value) := by
  unfold AtomTrie.insert
  match hroot : trie.root with
  | none =>
      have hempty : ∀ k : Atom, plain[k]? = none := by
        intro k
        rw [← h.get]
        unfold AtomTrie.get AtomTrie.leaf
        rw [hroot]
        rfl
      have hget : ∀ k, Trie.get hash k levels (Packed.single (bitAt (hash key) levels)
          (.leaf (heap.alloc (key, value))) : Packed 32 (Slot ν (Node ν 12))) =
          if key = k then some (heap.alloc (key, value)) else none := by
        intro k
        show Trie.get hash k (12 + 1) _ = _
        rw [get_succ, Packed.get_single]
        by_cases hplace : bitAt (hash k) (12 + 1) = bitAt (hash key) levels
        · rw [if_pos hplace]
          rfl
        · rw [if_neg hplace, if_neg fun hk => hplace (by rw [hk]; rfl)]
          rfl
      constructor
      · intro root hnew
        rw [← Option.some_inj.mp hnew]
        intro place slot hslot
        change (Packed.single _ _).get place = some slot at hslot
        rw [Packed.get_single] at hslot
        by_cases hplace : place = bitAt (hash key) levels
        · rw [if_pos hplace, Option.some_inj] at hslot
          rw [← hslot, hplace]
          constructor
          · intro leaf hleaf
            rw [List.mem_singleton.mp hleaf]
            rfl
          · intro child hchild
            exact nomatch hchild
        · rw [if_neg hplace] at hslot
          exact nomatch hslot
      · have hnew : key ∉ plain := by
          rw [Std.ExtTreeMap.mem_iff_isSome_getElem?, hempty]
          exact Bool.noConfusion
        show trie.len + 1 = _
        rw [Std.ExtTreeMap.size_insert, if_neg (Std.ExtTreeMap.mem_iff_contains.not.mp hnew), h.len]
      · intro k
        rw [Table.get_insert, hempty]
        show (Trie.get hash k levels (Packed.single (bitAt (hash key) levels)
          (.leaf (heap.alloc (key, value))) : Packed 32 (Slot ν (Node ν 12)))).map Arc.value = _
        rw [hget]
        exact apply_ite (Option.map Arc.value) (key = k) _ _
  | some root =>
      have hplaced := h.placed root hroot
      have hold : ∀ k, trie.get hash k = (Trie.get hash k levels root.val).map Arc.value := by
        intro k
        unfold AtomTrie.get AtomTrie.leaf
        rw [hroot]
        rfl
      constructor
      · intro new hnew
        rw [← Option.some_inj.mp hnew]
        exact placed_insert hash heap key value hplaced
      · show (if (Trie.insert hash heap key value levels root).2 = true then _ else _) = _
        rw [Std.ExtTreeMap.size_insert, insert_new, h.len]
        have hmem : plain.contains key = true ↔ ¬(Trie.get hash key levels root.val).isNone = true := by
          rw [← Std.ExtTreeMap.mem_iff_contains, Std.ExtTreeMap.mem_iff_isSome_getElem?, ← h.get,
            hold, Option.isSome_map, ← Option.not_isNone, Bool.not_eq_true', Bool.not_eq_true]
        by_cases hnone : (Trie.get hash key levels root.val).isNone = true
        · rw [if_pos hnone, if_neg fun h => hmem.mp h hnone]
        · rw [if_neg hnone, if_pos (hmem.mpr hnone)]
      · intro k
        show (Trie.get hash k levels (Trie.insert hash heap key value levels root).1.val).map
          Arc.value = _
        rw [Table.get_insert]
        by_cases hk : key = k
        · have ⟨leaf, hleaf, hvalue⟩ := get_insert_self hash heap key value levels root
          rw [if_pos hk, ← hk, hleaf, ← hvalue]
          rfl
        · rw [if_neg hk, get_insert_of_ne hash heap key value (Ne.symm hk), ← hold, h.get]

theorem Represents.remove (h : Represents hash trie plain) (key : Atom) :
    Represents hash (trie.remove hash heap key) (plain.erase key) := by
  unfold AtomTrie.remove
  by_cases hkey : trie.containsKey hash key = true
  · rw [if_pos hkey]
    have hmem := (h.containsKey key).mp hkey
    have hlen : (plain.erase key).size = trie.len - 1 := by
      rw [Std.ExtTreeMap.size_erase, if_pos (Std.ExtTreeMap.mem_iff_contains.mp hmem), h.len]
    constructor
    · intro root hnew
      change (if trie.len - 1 = 0 then none else _) = some root at hnew
      by_cases hlast : trie.len - 1 = 0
      · rw [if_pos hlast] at hnew
        exact nomatch hnew
      · rw [if_neg hlast, Option.map_eq_some_iff] at hnew
        have ⟨old, hroot, hremoved⟩ := hnew
        rw [← hremoved]
        exact placed_remove hash heap key (h.placed old hroot)
    · exact hlen.symm
    · intro k
      by_cases hlast : trie.len - 1 = 0
      · have hgone : plain.erase key = ∅ := by
          rw [← Std.ExtTreeMap.isEmpty_iff, Std.ExtTreeMap.isEmpty_eq_size_beq_zero, hlen, hlast]
          rfl
        rw [hgone, Table.get_empty]
        show (Option.bind (if trie.len - 1 = 0 then none else _) _).map Arc.value = none
        rw [if_pos hlast]
        rfl
      · rw [Table.get_erase, ← h.get]
        unfold AtomTrie.get AtomTrie.leaf
        show (Option.bind (if trie.len - 1 = 0 then none else _) _).map Arc.value = _
        rw [if_neg hlast]
        match hroot : trie.root with
        | none => exact (ite_self _).symm
        | some root =>
            show (Trie.get hash k levels (Trie.remove hash heap key levels root).val).map Arc.value =
              if key = k then none else (Trie.get hash k levels root.val).map Arc.value
            rw [get_remove hash heap key (h.placed root hroot)]
            by_cases hk : key = k
            · rw [if_pos hk, if_pos hk.symm]
              rfl
            · rw [if_neg hk, if_neg (Ne.symm hk)]
  · have hmem : key ∉ plain := fun hmem => hkey ((h.containsKey key).mpr hmem)
    have hsame : plain.erase key = plain := by
      apply Std.ExtTreeMap.ext_getElem?
      intro k
      rw [Table.get_erase]
      by_cases hk : key = k
      · rw [if_pos hk, ← hk, Std.ExtTreeMap.getElem?_eq_none hmem]
      · rw [if_neg hk]
    rw [if_neg hkey, hsame]
    exact h

/-- The entry of a key written through, when there is one. -/
def modifyEntry (plain : Table Atom ν) (key : Atom) (write : ν → ν) : Table Atom ν :=
  match plain[key]? with
  | some value => plain.insert key (write value)
  | none => plain

theorem get_modifyEntry (plain : Table Atom ν) (key k : Atom) (write : ν → ν) :
    (modifyEntry plain key write)[k]? = if key = k then plain[k]?.map write else plain[k]? := by
  unfold modifyEntry
  match hget : plain[key]? with
  | some value =>
      show (plain.insert key (write value))[k]? = _
      rw [Table.get_insert]
      by_cases hk : key = k
      · rw [if_pos hk, if_pos hk, ← hk, hget]
        rfl
      · rw [if_neg hk, if_neg hk]
  | none =>
      show plain[k]? = _
      by_cases hk : key = k
      · rw [if_pos hk, ← hk, hget]
        rfl
      · rw [if_neg hk]

theorem Represents.getMut (h : Represents hash trie plain) (key : Atom) (write : ν → ν) :
    Represents hash (trie.getMut hash heap key write) (modifyEntry plain key write) := by
  unfold AtomTrie.getMut
  by_cases hkey : trie.containsKey hash key = true
  · rw [if_pos hkey]
    have hmem := (h.containsKey key).mp hkey
    constructor
    · intro root hnew
      have ⟨old, hroot, hwritten⟩ := Option.map_eq_some_iff.mp hnew
      rw [← hwritten]
      exact placed_getMut hash heap key write (h.placed old hroot)
    · show trie.len = _
      rw [h.len]
      unfold modifyEntry
      match plain[key]? with
      | some value =>
          show _ = (plain.insert key (write value)).size
          rw [Std.ExtTreeMap.size_insert, if_pos (Std.ExtTreeMap.mem_iff_contains.mp hmem)]
      | none => rfl
    · intro k
      unfold AtomTrie.containsKey at hkey
      rw [get_modifyEntry, ← h.get]
      unfold AtomTrie.get AtomTrie.leaf at hkey ⊢
      match hroot : trie.root with
      | none =>
          rw [hroot] at hkey
          exact nomatch hkey
      | some root =>
          rw [hroot] at hkey
          have hfound : (Trie.get hash key levels root.val).isSome = true := by
            rw [← Option.isSome_map]
            exact hkey
          show (Trie.get hash k levels (Trie.getMut hash heap key write levels root).val).map Arc.value =
            if key = k then ((Trie.get hash k levels root.val).map Arc.value).map write
            else (Trie.get hash k levels root.val).map Arc.value
          rw [get_getMut hash heap key write hfound]
          by_cases hk : key = k
          · rw [if_pos hk, if_pos hk.symm, Option.map_map]
            rfl
          · rw [if_neg hk, if_neg (Ne.symm hk)]
  · have hsame : modifyEntry plain key write = plain := by
      have hmem : key ∉ plain := fun hmem => hkey ((h.containsKey key).mpr hmem)
      unfold modifyEntry
      rw [Std.ExtTreeMap.getElem?_eq_none hmem]
    rw [if_neg hkey, hsame]
    exact h

/-! ## Two maps -/

/-- The cells a map reaches. -/
def AtomTrie.cells (trie : AtomTrie ν) : List (Cell ν) :=
  match trie.root with
  | some root => arcCells levels root
  | none => []

theorem leaf_mem_cells {n : Nat} {node : Node ν n} {leaf : Leaf ν} (h : leaf ∈ leaves n node) :
    Cell.leaf leaf ∈ Trie.cells n node := by
  induction n with
  | zero => exact List.mem_map_of_mem h
  | succ n ih =>
      have ⟨slot, hslot, hleaf⟩ := List.mem_flatMap.mp h
      apply List.mem_flatMap.mpr
      refine ⟨slot, hslot, ?_⟩
      match slot with
      | .leaf lone =>
          rw [List.mem_singleton.mp hleaf]
          exact List.mem_singleton_self _
      | .node child => exact List.mem_cons_of_mem _ (ih hleaf)

variable {a b : AtomTrie ν} {pa pb : Table Atom ν}

theorem Represents.leaf_mem_cells (h : Represents hash trie plain) {key : Atom} {leaf : Leaf ν}
    (hfind : trie.leaf hash key = some leaf) : Cell.leaf leaf ∈ trie.cells := by
  have hleaf := ((h.lists key leaf).mp hfind).1
  unfold AtomTrie.leaves at hleaf
  unfold AtomTrie.cells
  match hroot : trie.root with
  | none =>
      rw [hroot] at hleaf
      exact nomatch hleaf
  | some root =>
      rw [hroot] at hleaf
      exact List.mem_cons_of_mem _ (Trie.leaf_mem_cells hleaf)

/-- `diff` visits what there is to visit of the two maps. -/
theorem mem_diff (ha : Represents hash a pa) (hb : Represents hash b pb)
    (hsame : SameCells a.cells b.cells) (visit : Visit ν) :
    visit ∈ a.diff hash b ↔ Visited (a.leaf hash) (b.leaf hash) visit := by
  have hla := ha.lists
  have hlb := hb.lists
  have hpa := ha.placed
  have hpb := hb.placed
  unfold AtomTrie.diff
  unfold AtomTrie.leaf AtomTrie.leaves at hla hlb
  unfold AtomTrie.leaf
  unfold AtomTrie.cells at hsame
  match hra : a.root, hrb : b.root with
  | none, none =>
      constructor
      · intro h
        exact nomatch h
      · intro h
        exact nomatch h
  | some x, none =>
      rw [hra] at hla
      exact mem_onlyMine hla visit
  | none, some y =>
      rw [hrb] at hlb
      exact mem_onlyTheirs hlb visit
  | some x, some y =>
      rw [hra, hrb] at hsame
      show (visit ∈ if x.addr = y.addr then [] else diffNodes hash levels x.val y.val) ↔ _
      by_cases haddr : x.addr = y.addr
      · have hxy := hsame.eq_of_addr (List.mem_cons_self ..) (List.mem_cons_self ..) haddr
        rw [if_pos haddr, hxy]
        constructor
        · intro h
          exact nomatch h
        · intro h
          exact absurd h (not_visited_self _ visit)
      · rw [if_neg haddr]
        exact mem_diffNodes hash (hpa x hra) (hpb y hrb)
          (hsame.sublist (List.subset_cons_self ..) (List.subset_cons_self ..)) visit

/-- `diff` visits no key twice. -/
theorem nodup_diff (ha : Represents hash a pa) (hb : Represents hash b pb)
    (hsame : SameCells a.cells b.cells) : ((a.diff hash b).map Prod.fst).Nodup := by
  have hna := ha.nodup_keys
  have hnb := hb.nodup_keys
  have hpa := ha.placed
  have hpb := hb.placed
  unfold AtomTrie.diff
  unfold AtomTrie.leaves at hna hnb
  unfold AtomTrie.cells at hsame
  match hra : a.root, hrb : b.root with
  | none, none => exact List.nodup_nil
  | some x, none =>
      rw [hra] at hna
      show ((onlyMine _).map Prod.fst).Nodup
      rw [keys_onlyMine]
      exact hna
  | none, some y =>
      rw [hrb] at hnb
      show ((onlyTheirs _).map Prod.fst).Nodup
      rw [keys_onlyTheirs]
      exact hnb
  | some x, some y =>
      rw [hra, hrb] at hsame
      show ((if x.addr = y.addr then [] else diffNodes hash levels x.val y.val).map
        Prod.fst).Nodup
      by_cases haddr : x.addr = y.addr
      · rw [if_pos haddr]
        exact List.nodup_nil
      · rw [if_neg haddr]
        exact nodup_diffNodes hash (hpa x hra) (hpb y hrb)
          (hsame.sublist (List.subset_cons_self ..) (List.subset_cons_self ..))

/-- Leaves that are one cell have one value. -/
theorem get_eq_of_not_visited (ha : Represents hash a pa) (hb : Represents hash b pb)
    (hsame : SameCells a.cells b.cells) {key : Atom}
    (haddr : (a.leaf hash key).map Arc.addr = (b.leaf hash key).map Arc.addr) :
    a.get hash key = b.get hash key := by
  unfold AtomTrie.get
  match hx : a.leaf hash key, hy : b.leaf hash key with
  | none, none => rfl
  | some x, none =>
      rw [hx, hy] at haddr
      exact nomatch haddr
  | none, some y =>
      rw [hx, hy] at haddr
      exact nomatch haddr
  | some x, some y =>
      rw [hx, hy] at haddr
      have hcell : Cell.leaf x = Cell.leaf y :=
        hsame _ (ha.leaf_mem_cells hx) _ (hb.leaf_mem_cells hy)
          (congrArg (Prod.mk 0) (Option.some_inj.mp haddr))
      injection hcell with hxy
      rw [hxy]

/-- `diff` leaves out no key whose values differ. -/
theorem visit_of_get_ne (ha : Represents hash a pa) (hb : Represents hash b pb)
    (hsame : SameCells a.cells b.cells) {key : Atom} (hne : pa[key]? ≠ pb[key]?) :
    (key, pa[key]?, pb[key]?) ∈ a.diff hash b := by
  rw [mem_diff ha hb hsame]
  unfold Visited
  rw [visitOf_eq_some_iff]
  constructor
  · intro haddr
    apply hne
    rw [← ha.get, ← hb.get]
    exact get_eq_of_not_visited ha hb hsame haddr
  · rw [← ha.get, ← hb.get]
    rfl

/-- `PartialEq` of finite maps: as many entries, and the entries of one in the
other. -/
def plainEq [BEq ν] (a b : Table Atom ν) : Bool :=
  a.size == b.size && a.toList.all fun (key, value) =>
    match b[key]? with
    | some other => value == other
    | none => false

theorem plainEq_iff [BEq ν] {a b : Table Atom ν} :
    plainEq a b = true ↔ a.size = b.size ∧
      ∀ (key : Atom) (value : ν), a[key]? = some value →
        ∃ other, b[key]? = some other ∧ (value == other) = true := by
  unfold plainEq
  rw [Bool.and_eq_true, beq_iff_eq, List.all_eq_true]
  apply and_congr_right
  intro _
  constructor
  · intro h key value hget
    have hentry := h (key, value) (Std.ExtTreeMap.mem_toList_iff_getElem?_eq_some.mpr hget)
    match hother : b[key]? with
    | some other =>
        simp only [hother] at hentry
        exact ⟨other, rfl, hentry⟩
    | none =>
        simp only [hother] at hentry
        exact nomatch hentry
  · intro h entry hentry
    match entry with
    | (key, value) =>
        have ⟨other, hother, heq⟩ :=
          h key value (Std.ExtTreeMap.mem_toList_iff_getElem?_eq_some.mp hentry)
        simp only [hother]
        exact heq

/-- With as many entries and every key of one in the other, the keys are the
same. -/
theorem mem_of_size_eq {a b : Table Atom ν} (hsize : a.size = b.size)
    (hsub : ∀ key : Atom, key ∈ a → key ∈ b) {key : Atom} (hkey : key ∈ b) : key ∈ a := by
  have hnodup : ∀ t : Table Atom ν, t.keys.Nodup := by
    intro t
    apply Std.ExtTreeMap.distinct_keys.imp
    intro x y hne hxy
    exact hne (by rw [hxy]; exact Std.ReflCmp.compare_self)
  have hperm : a.keys.Perm b.keys := by
    apply ((hnodup a).subperm _).perm_of_length_le
    · rw [Std.ExtTreeMap.length_keys, Std.ExtTreeMap.length_keys, hsize]
    · intro k hk
      exact Std.ExtTreeMap.mem_keys.mpr (hsub k (Std.ExtTreeMap.mem_keys.mp hk))
  exact Std.ExtTreeMap.mem_keys.mp (hperm.mem_iff.mpr (Std.ExtTreeMap.mem_keys.mpr hkey))

/-- Equality of tries is equality of their plain maps. -/
theorem eq_eq_plainEq [BEq ν] [ReflBEq ν] (ha : Represents hash a pa) (hb : Represents hash b pb)
    (hsame : SameCells a.cells b.cells) : a.eq hash b = plainEq pa pb := by
  apply Bool.eq_iff_iff.mpr
  rw [plainEq_iff]
  unfold AtomTrie.eq
  rw [Bool.and_eq_true, beq_iff_eq, ha.len, hb.len, List.all_eq_true]
  apply and_congr_right
  intro hsize
  constructor
  · intro hall key value hget
    by_cases haddr : (a.leaf hash key).map Arc.addr = (b.leaf hash key).map Arc.addr
    · refine ⟨value, ?_, BEq.rfl⟩
      rw [← hb.get, ← get_eq_of_not_visited ha hb hsame haddr, ha.get, hget]
    · have hvisit : (key, pa[key]?, pb[key]?) ∈ a.diff hash b := by
        rw [mem_diff ha hb hsame]
        unfold Visited
        rw [visitOf_eq_some_iff, ← ha.get, ← hb.get]
        exact ⟨haddr, rfl⟩
      have hentry := hall _ hvisit
      match hother : pb[key]? with
      | some other =>
          simp only [hget, hother] at hentry
          exact ⟨other, rfl, hentry⟩
      | none =>
          simp only [hget, hother] at hentry
          exact nomatch hentry
  · intro hentries visit hvisit
    have ⟨_, hvals⟩ := visitOf_eq_some_iff.mp ((mem_diff ha hb hsame visit).mp hvisit)
    have hmine : visit.2.1 = pa[visit.1]? := by
      rw [← ha.get]
      exact congrArg (fun v : Visit ν => v.2.1) hvals
    have htheirs : visit.2.2 = pb[visit.1]? := by
      rw [← hb.get]
      exact congrArg (fun v : Visit ν => v.2.2) hvals
    match visit with
    | (key, mine, theirs) =>
        simp only at hmine htheirs
        match hget : pa[key]? with
        | some value =>
            have ⟨other, hother, heq⟩ := hentries key value hget
            rw [hget] at hmine
            rw [hother] at htheirs
            rw [hmine, htheirs]
            exact heq
        | none =>
            have hmem : key ∈ pa := by
              apply mem_of_size_eq hsize
              · intro k hk
                rw [Std.ExtTreeMap.mem_iff_isSome_getElem?, Option.isSome_iff_exists] at hk
                have ⟨value, hvalue⟩ := hk
                have ⟨other, hother, _⟩ := hentries k value hvalue
                rw [Std.ExtTreeMap.mem_iff_isSome_getElem?, hother]
                rfl
              · -- the visit is to a key that the second map has
                have hfound : b.leaf hash key ≠ none := by
                  apply ((mem_diff ha hb hsame _).mp hvisit).found.resolve_left
                  intro hsome
                  have hleaf := ha.get key
                  unfold AtomTrie.get at hleaf
                  rw [hget, Option.map_eq_none_iff] at hleaf
                  exact hsome hleaf
                have hleaf := hb.get key
                unfold AtomTrie.get at hleaf
                rw [Std.ExtTreeMap.mem_iff_isSome_getElem?, ← hleaf, Option.isSome_map,
                  Option.isSome_iff_ne_none]
                exact hfound
            rw [Std.ExtTreeMap.mem_iff_isSome_getElem?, hget] at hmem
            exact nomatch hmem

end Map
end PhpantomLsp.Flow.Trie
