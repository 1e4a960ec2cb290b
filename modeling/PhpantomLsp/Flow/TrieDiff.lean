import PhpantomLsp.Flow.TrieCells

/-!
# The difference of two maps

`diff` walks two tries side by side, skips a node both reach by one address and
pairs a lone leaf of one with the subtree in the same slot of the other.  Where
one address has one contents (`SameCells`) it visits exactly the keys whose
leaves are not the same cell, with the value on either side
(`mem_diffNodes`), and none of them twice (`nodup_diffNodes`).
-/

namespace PhpantomLsp.Flow.Trie

open Lib PhpType

section Diff

variable {ν : Type} (hash : Atom → BitVec 64)

/-- A cell reached from both sides is the same on both. -/
def SameCells (a b : List (Cell ν)) : Prop := ∀ c ∈ a, ∀ d ∈ b, c.spot = d.spot → c = d

/-- The leaves a lookup finds. -/
def Lists (find : Atom → Option (Leaf ν)) (leaves : List (Leaf ν)) : Prop :=
  ∀ key leaf, find key = some leaf ↔ leaf ∈ leaves ∧ leaf.key = key

/-- The visit to a key with these leaves: none when they are one cell, or both
missing. -/
def visitOf (key : Atom) (mine theirs : Option (Leaf ν)) : Option (Visit ν) :=
  if mine.map Arc.addr = theirs.map Arc.addr then none
  else some (key, mine.map Arc.value, theirs.map Arc.value)

/-- What there is to visit of two lookups. -/
def Visited (mine theirs : Atom → Option (Leaf ν)) (visit : Visit ν) : Prop :=
  visitOf visit.1 (mine visit.1) (theirs visit.1) = some visit

theorem visitOf_eq_some_iff {key : Atom} {mine theirs : Option (Leaf ν)} {visit : Visit ν} :
    visitOf key mine theirs = some visit ↔
      mine.map Arc.addr ≠ theirs.map Arc.addr ∧
        visit = (key, mine.map Arc.value, theirs.map Arc.value) := by
  unfold visitOf
  by_cases haddr : mine.map Arc.addr = theirs.map Arc.addr
  · rw [if_pos haddr]
    constructor
    · intro h
      exact nomatch h
    · intro h
      exact absurd haddr h.1
  · rw [if_neg haddr, Option.some_inj]
    exact ⟨fun h => ⟨haddr, h.symm⟩, fun h => h.2.symm⟩

theorem fst_of_visitOf {key : Atom} {mine theirs : Option (Leaf ν)} {visit : Visit ν}
    (h : visitOf key mine theirs = some visit) : visit.1 = key := by
  rw [(visitOf_eq_some_iff.mp h).2]

theorem visitOf_none (key : Atom) : visitOf key (none : Option (Leaf ν)) none = none := rfl

/-- The visits to the leaves of the first map. -/
theorem mem_visits_mine {mine theirs : Atom → Option (Leaf ν)} {leaves : List (Leaf ν)}
    (hlists : Lists mine leaves) (visit : Visit ν) :
    (∃ leaf ∈ leaves, visitOf leaf.key (some leaf) (theirs leaf.key) = some visit) ↔
      Visited mine theirs visit ∧ mine visit.1 ≠ none := by
  constructor
  · intro ⟨leaf, hleaf, hvisit⟩
    have hkey := fst_of_visitOf hvisit
    have hfind := (hlists leaf.key leaf).mpr ⟨hleaf, rfl⟩
    unfold Visited
    rw [hkey, hfind]
    exact ⟨hvisit, Option.some_ne_none leaf⟩
  · intro ⟨hvisit, hsome⟩
    have ⟨leaf, hfind⟩ := Option.ne_none_iff_exists'.mp hsome
    have ⟨hleaf, hkey⟩ := (hlists visit.1 leaf).mp hfind
    refine ⟨leaf, hleaf, ?_⟩
    rw [hkey, ← hfind]
    exact hvisit

/-- The visits to the leaves of the second map. -/
theorem mem_visits_theirs {mine theirs : Atom → Option (Leaf ν)} {leaves : List (Leaf ν)}
    (hlists : Lists theirs leaves) (visit : Visit ν) :
    (∃ leaf ∈ leaves, visitOf leaf.key (mine leaf.key) (some leaf) = some visit) ↔
      Visited mine theirs visit ∧ theirs visit.1 ≠ none := by
  constructor
  · intro ⟨leaf, hleaf, hvisit⟩
    have hkey := fst_of_visitOf hvisit
    have hfind := (hlists leaf.key leaf).mpr ⟨hleaf, rfl⟩
    unfold Visited
    rw [hkey, hfind]
    exact ⟨hvisit, Option.some_ne_none leaf⟩
  · intro ⟨hvisit, hsome⟩
    have ⟨leaf, hfind⟩ := Option.ne_none_iff_exists'.mp hsome
    have ⟨hleaf, hkey⟩ := (hlists visit.1 leaf).mp hfind
    refine ⟨leaf, hleaf, ?_⟩
    rw [hkey, ← hfind]
    exact hvisit

/-- A visited key has a leaf. -/
theorem Visited.found {mine theirs : Atom → Option (Leaf ν)} {visit : Visit ν}
    (h : Visited mine theirs visit) : mine visit.1 ≠ none ∨ theirs visit.1 ≠ none := by
  by_contra hnone
  rw [not_or, not_not, not_not] at hnone
  unfold Visited at h
  rw [hnone.1, hnone.2] at h
  exact nomatch h

theorem mem_onlyMine {find : Atom → Option (Leaf ν)} {leaves : List (Leaf ν)}
    (hlists : Lists find leaves) (visit : Visit ν) :
    visit ∈ onlyMine leaves ↔ Visited find (fun _ => none) visit := by
  have hfound : Visited find (fun _ => none) visit → find visit.1 ≠ none := by
    intro h
    exact h.found.resolve_right fun h => h rfl
  rw [← and_iff_left_of_imp hfound, ← mem_visits_mine hlists]
  unfold onlyMine
  rw [List.mem_map]
  constructor
  · intro ⟨leaf, hleaf, hvisit⟩
    exact ⟨leaf, hleaf, congrArg some hvisit⟩
  · intro ⟨leaf, hleaf, hvisit⟩
    exact ⟨leaf, hleaf, Option.some_inj.mp hvisit⟩

theorem mem_onlyTheirs {find : Atom → Option (Leaf ν)} {leaves : List (Leaf ν)}
    (hlists : Lists find leaves) (visit : Visit ν) :
    visit ∈ onlyTheirs leaves ↔ Visited (fun _ => none) find visit := by
  have hfound : Visited (fun _ => none) find visit → find visit.1 ≠ none := by
    intro h
    exact h.found.resolve_left fun h => h rfl
  rw [← and_iff_left_of_imp hfound, ← mem_visits_theirs hlists]
  unfold onlyTheirs
  rw [List.mem_map]
  constructor
  · intro ⟨leaf, hleaf, hvisit⟩
    exact ⟨leaf, hleaf, congrArg some hvisit⟩
  · intro ⟨leaf, hleaf, hvisit⟩
    exact ⟨leaf, hleaf, Option.some_inj.mp hvisit⟩

theorem keys_onlyMine (leaves : List (Leaf ν)) :
    (onlyMine leaves).map Prod.fst = leaves.map Arc.key := by
  unfold onlyMine
  rw [List.map_map]
  rfl

theorem keys_onlyTheirs (leaves : List (Leaf ν)) :
    (onlyTheirs leaves).map Prod.fst = leaves.map Arc.key := by
  unfold onlyTheirs
  rw [List.map_map]
  rfl

/-! ## Collision lists -/

theorem diffLeafLists_eq (a b : List (Leaf ν)) :
    diffLeafLists a b =
      (a.filterMap fun x => visitOf x.key (some x) (b.find? fun y => y.key = x.key)) ++
        onlyTheirs (b.filter fun y => !a.any fun x => x.key = y.key) := by
  unfold diffLeafLists
  congr 1
  apply List.filterMap_congr
  intro x _
  generalize (b.find? fun y => y.key = x.key) = other
  match other with
  | some y =>
      show (if x.addr = y.addr then none else _) = if some x.addr = some y.addr then none else _
      by_cases haddr : x.addr = y.addr
      · rw [if_pos haddr, if_pos (congrArg some haddr)]
      · rw [if_neg haddr, if_neg fun h => haddr (Option.some_inj.mp h)]
        rfl
  | none => rfl

theorem find_key_eq_none_iff {leaves : List (Leaf ν)} {key : Atom} :
    (leaves.find? fun leaf => leaf.key = key) = none ↔
      (leaves.any fun leaf => leaf.key = key) = false := by
  simp

/-- Collision lists are paired by key. -/
theorem mem_diffLeafLists {a b : List (Leaf ν)} (ha : (a.map Arc.key).Nodup)
    (hb : (b.map Arc.key).Nodup) (visit : Visit ν) :
    visit ∈ diffLeafLists a b ↔
      Visited (fun key => a.find? fun leaf => leaf.key = key)
        (fun key => b.find? fun leaf => leaf.key = key) visit := by
  have hmine : Lists (fun key => a.find? fun leaf => leaf.key = key) a := find_key_eq_some_iff ha
  have htheirs : Lists (fun key => b.find? fun leaf => leaf.key = key) b :=
    find_key_eq_some_iff hb
  have hvisits := @mem_visits_theirs _ (fun key => a.find? fun leaf => leaf.key = key) _ _
    htheirs visit
  rw [diffLeafLists_eq, List.mem_append, List.mem_filterMap]
  have hfirst := @mem_visits_mine _ _ (fun key => b.find? fun leaf => leaf.key = key) _
    hmine visit
  have hsecond : visit ∈ onlyTheirs (b.filter fun y => !a.any fun x => x.key = y.key) ↔
      Visited (fun key => a.find? fun leaf => leaf.key = key)
        (fun key => b.find? fun leaf => leaf.key = key) visit ∧
        (a.find? fun leaf => leaf.key = visit.1) = none := by
    have hlone : ∀ leaf : Leaf ν, (a.find? fun x => x.key = leaf.key) = none →
        (visitOf leaf.key (a.find? fun x => x.key = leaf.key) (some leaf) = some visit ↔
          (leaf.key, none, some leaf.value) = visit) := by
      intro leaf hnone
      rw [hnone]
      exact Option.some_inj
    unfold onlyTheirs
    rw [List.mem_map]
    constructor
    · intro ⟨leaf, hleaf, hvisit⟩
      have ⟨hmem, hany⟩ := List.mem_filter.mp hleaf
      have hnone := find_key_eq_none_iff.mpr (Bool.not_eq_true' _ ▸ hany)
      have hvisited := hvisits.mp
        ⟨leaf, hmem, (hlone leaf hnone).mpr hvisit⟩
      refine ⟨hvisited.1, ?_⟩
      rw [← hvisit]
      exact hnone
    · intro ⟨hvisited, hnone⟩
      have hsome := hvisited.found.resolve_left fun h => h hnone
      have ⟨leaf, hmem, hvisit⟩ := hvisits.mpr ⟨hvisited, hsome⟩
      have hkey := fst_of_visitOf hvisit
      rw [hkey] at hnone
      refine ⟨leaf, List.mem_filter.mpr ⟨hmem, ?_⟩, (hlone leaf hnone).mp hvisit⟩
      rw [find_key_eq_none_iff.mp hnone]
      rfl
  rw [hfirst, hsecond, ← and_or_left]
  apply and_iff_left_of_imp
  intro _
  exact (em _).symm

/-- Visits taken leaf by leaf keep the order of the keys. -/
theorem keys_filterMap_sublist {leaves : List (Leaf ν)} {visits : Leaf ν → Option (Visit ν)}
    (hkey : ∀ leaf visit, visits leaf = some visit → visit.1 = leaf.key) :
    ((leaves.filterMap visits).map Prod.fst).Sublist (leaves.map Arc.key) := by
  induction leaves with
  | nil => exact List.Sublist.refl _
  | cons leaf rest ih =>
      rw [List.filterMap_cons, List.map_cons]
      match hvisit : visits leaf with
      | none => exact ih.cons _
      | some visit =>
          show (visit.1 :: _).Sublist _
          rw [hkey leaf visit hvisit]
          exact ih.cons_cons _

theorem nodup_diffLeafLists {a b : List (Leaf ν)} (ha : (a.map Arc.key).Nodup)
    (hb : (b.map Arc.key).Nodup) : ((diffLeafLists a b).map Prod.fst).Nodup := by
  rw [diffLeafLists_eq, List.map_append, List.nodup_append, keys_onlyTheirs]
  have hkeys : ((a.filterMap fun x =>
      visitOf x.key (some x) (b.find? fun y => y.key = x.key)).map Prod.fst).Sublist
        (a.map Arc.key) :=
    keys_filterMap_sublist fun _ _ => fst_of_visitOf
  refine ⟨ha.sublist hkeys, hb.sublist (List.filter_sublist.map Arc.key), ?_⟩
  intro k hk l hl hkl
  have ⟨x, hx, hxk⟩ := List.mem_map.mp (hkeys.subset hk)
  have ⟨y, hy, hyl⟩ := List.mem_map.mp hl
  have hany := (List.mem_filter.mp hy).2
  rw [Bool.not_eq_true', List.any_eq_false] at hany
  apply hany x hx
  rw [decide_eq_true_iff, hxk, hkl, hyl]

/-! ## A leaf against a subtree -/

/-- What a lone leaf is searched for. -/
def findLeaf (leaf : Leaf ν) (key : Atom) : Option (Leaf ν) :=
  if leaf.key = key then some leaf else none

theorem diffLeafAgainst_mine (leaf : Leaf ν) (n : Nat) (subtree : Node ν n) :
    diffLeafAgainst hash leaf n subtree true =
      (visitOf leaf.key (some leaf) (get hash leaf.key n subtree)).toList ++
        onlyTheirs ((leaves n subtree).filter fun other => other.key ≠ leaf.key) := by
  unfold diffLeafAgainst
  refine congrArg (· ++ _) ?_
  cases get hash leaf.key n subtree with
  | some same =>
      show (if same.addr = leaf.addr then [] else _) =
        (if some leaf.addr = some same.addr then none else some _).toList
      by_cases haddr : same.addr = leaf.addr
      · rw [if_pos haddr, if_pos (congrArg some haddr.symm)]
        rfl
      · rw [if_neg haddr, if_neg fun h => haddr (Option.some_inj.mp h).symm]
        rfl
  | none => rfl

theorem diffLeafAgainst_theirs (leaf : Leaf ν) (n : Nat) (subtree : Node ν n) :
    diffLeafAgainst hash leaf n subtree false =
      (visitOf leaf.key (get hash leaf.key n subtree) (some leaf)).toList ++
        onlyMine ((leaves n subtree).filter fun other => other.key ≠ leaf.key) := by
  unfold diffLeafAgainst
  refine congrArg (· ++ _) ?_
  cases get hash leaf.key n subtree with
  | some same =>
      show (if same.addr = leaf.addr then [] else _) =
        (if some same.addr = some leaf.addr then none else some _).toList
      by_cases haddr : same.addr = leaf.addr
      · rw [if_pos haddr, if_pos (congrArg some haddr)]
        rfl
      · rw [if_neg haddr, if_neg fun h => haddr (Option.some_inj.mp h)]
        rfl
  | none => rfl

/-- The leaves of the other keys are found by the other keys. -/
theorem Lists.except {find : Atom → Option (Leaf ν)} {leaves : List (Leaf ν)}
    (hlists : Lists find leaves) (key : Atom) :
    Lists (fun k => if k = key then none else find k)
      (leaves.filter fun other => other.key ≠ key) := by
  intro k leaf
  rw [List.mem_filter, decide_eq_true_iff]
  show (if k = key then none else find k) = some leaf ↔ _
  by_cases hk : k = key
  · rw [if_pos hk]
    constructor
    · intro h
      exact nomatch h
    · intro ⟨⟨_, hne⟩, hkey⟩
      exact absurd (hkey.trans hk) hne
  · rw [if_neg hk, hlists]
    constructor
    · intro ⟨hleaf, hkey⟩
      exact ⟨⟨hleaf, fun h => hk (hkey.symm.trans h)⟩, hkey⟩
    · intro ⟨⟨hleaf, _⟩, hkey⟩
      exact ⟨hleaf, hkey⟩

theorem mem_diffLeafAgainst_mine {n : Nat} {subtree : Node ν n} (hplaced : Placed hash n subtree)
    (leaf : Leaf ν) (visit : Visit ν) :
    visit ∈ diffLeafAgainst hash leaf n subtree true ↔
      Visited (findLeaf leaf) (fun key => get hash key n subtree) visit := by
  have hlists : Lists (fun key => get hash key n subtree) (leaves n subtree) :=
    get_eq_some_iff hash hplaced
  rw [diffLeafAgainst_mine, List.mem_append, Option.mem_toList,
    mem_onlyTheirs (hlists.except leaf.key)]
  simp only [Visited, findLeaf]
  by_cases hkey : visit.1 = leaf.key
  · rw [if_pos hkey, if_pos hkey.symm, visitOf_none, hkey]
    apply or_iff_left
    intro h
    exact nomatch h
  · rw [if_neg hkey, if_neg (Ne.symm hkey)]
    exact or_iff_right fun h => hkey (fst_of_visitOf h)

theorem mem_diffLeafAgainst_theirs {n : Nat} {subtree : Node ν n}
    (hplaced : Placed hash n subtree) (leaf : Leaf ν) (visit : Visit ν) :
    visit ∈ diffLeafAgainst hash leaf n subtree false ↔
      Visited (fun key => get hash key n subtree) (findLeaf leaf) visit := by
  have hlists : Lists (fun key => get hash key n subtree) (leaves n subtree) :=
    get_eq_some_iff hash hplaced
  rw [diffLeafAgainst_theirs, List.mem_append, Option.mem_toList,
    mem_onlyMine (hlists.except leaf.key)]
  simp only [Visited, findLeaf]
  by_cases hkey : visit.1 = leaf.key
  · rw [if_pos hkey, if_pos hkey.symm, visitOf_none, hkey]
    apply or_iff_left
    intro h
    exact nomatch h
  · rw [if_neg hkey, if_neg (Ne.symm hkey)]
    exact or_iff_right fun h => hkey (fst_of_visitOf h)

/-- A subtree against a leaf has the key of the leaf once. -/
theorem nodup_keys_against {leaf : Leaf ν} {first : Option (Visit ν)} {rest : List (Visit ν)}
    {others : List (Leaf ν)} (hfirst : ∀ visit, first = some visit → visit.1 = leaf.key)
    (hrest : rest.map Prod.fst = (others.filter fun other => other.key ≠ leaf.key).map Arc.key)
    (hnodup : (others.map Arc.key).Nodup) : ((first.toList ++ rest).map Prod.fst).Nodup := by
  rw [List.map_append, List.nodup_append, hrest]
  refine ⟨?_, hnodup.sublist (List.filter_sublist.map Arc.key), ?_⟩
  · match first with
    | none => exact List.nodup_nil
    | some visit => exact List.nodup_singleton _
  · intro k hk l hl hkl
    have ⟨visit, hvisit, hvisitKey⟩ := List.mem_map.mp hk
    have ⟨other, hother, hotherKey⟩ := List.mem_map.mp hl
    apply of_decide_eq_true (List.mem_filter.mp hother).2
    rw [hotherKey, ← hkl, ← hvisitKey]
    exact hfirst visit (Option.mem_toList.mp hvisit)

/-! ## Two nodes -/

/-- A slot is read as the leaves below it. -/
theorem lists_readSlot {n : Nat} {slot : Slot ν (Node ν n)}
    (hslot : ∀ child, slot = .node child → Placed hash n child.val) :
    Lists (fun key => readSlot hash key n (some slot)) (slot.leaves (leaves n)) := by
  intro key leaf
  match slot with
  | .node child => exact get_eq_some_iff hash (hslot child rfl) key leaf
  | .leaf lone =>
      show (if lone.key = key then some lone else none) = some leaf ↔ leaf ∈ [lone] ∧ _
      rw [List.mem_singleton]
      by_cases hkey : lone.key = key
      · rw [if_pos hkey, Option.some_inj]
        exact ⟨fun h => ⟨h.symm, h ▸ hkey⟩, fun h => h.1.symm⟩
      · rw [if_neg hkey]
        constructor
        · intro h
          exact nomatch h
        · intro ⟨hleaf, hleafKey⟩
          exact absurd (hleaf ▸ hleafKey) hkey

theorem not_visited_self (find : Atom → Option (Leaf ν)) (visit : Visit ν) :
    ¬Visited find find visit := by
  intro h
  exact (visitOf_eq_some_iff.mp h).1 rfl

theorem mem_diff_leaves {x y : Leaf ν} (haddr : x.addr ≠ y.addr) (visit : Visit ν) :
    (visit ∈ if x.key = y.key then [(x.key, some x.value, some y.value)]
      else [(x.key, some x.value, none), (y.key, none, some y.value)]) ↔
      Visited (findLeaf x) (findLeaf y) visit := by
  unfold Visited
  rw [visitOf_eq_some_iff]
  unfold findLeaf
  by_cases hkeys : x.key = y.key
  · rw [if_pos hkeys, List.mem_singleton, ← hkeys]
    by_cases hx : x.key = visit.1
    · rw [if_pos hx, if_pos hx, ← hx]
      exact ⟨fun h => ⟨fun h => haddr (Option.some_inj.mp h), h⟩, fun h => h.2⟩
    · rw [if_neg hx, if_neg hx]
      constructor
      · intro h
        exact absurd (by rw [h]) hx
      · intro h
        exact absurd rfl h.1
  · rw [if_neg hkeys, List.mem_cons, List.mem_singleton]
    by_cases hx : x.key = visit.1
    · have hy : y.key ≠ visit.1 := fun h => hkeys (hx.trans h.symm)
      rw [if_pos hx, if_neg hy, ← hx]
      constructor
      · intro h
        exact ⟨(nomatch ·), h.resolve_right fun h => hy (by rw [h])⟩
      · intro h
        exact .inl h.2
    · rw [if_neg hx]
      by_cases hy : y.key = visit.1
      · rw [if_pos hy, ← hy]
        constructor
        · intro h
          exact ⟨(nomatch ·), h.resolve_left fun h => hx (by rw [h])⟩
        · intro h
          exact .inr h.2
      · rw [if_neg hy]
        constructor
        · intro h
          rcases h with h | h
          · exact absurd (by rw [h]) hx
          · exact absurd (by rw [h]) hy
        · intro h
          exact absurd rfl h.1

theorem SameCells.eq_of_addr {a b : List (Cell ν)} (hsame : SameCells a b) {n : Nat}
    {x y : Arc (Node ν n)} (hx : Cell.node n x ∈ a) (hy : Cell.node n y ∈ b)
    (haddr : x.addr = y.addr) : x = y := by
  have hcell := hsame _ hx _ hy (congrArg (Prod.mk (n + 1)) haddr)
  injection hcell with _ hxy

theorem SameCells.sublist {a b a' b' : List (Cell ν)} (hsame : SameCells a b)
    (ha : a' ⊆ a) (hb : b' ⊆ b) : SameCells a' b' :=
  fun c hc d hd => hsame c (ha hc) d (hb hd)

theorem SameCells.single {a b : List (Cell ν)} (hsame : SameCells a b) {cell : Cell ν}
    (hcell : cell ∈ b) : SameCells a [cell] := by
  intro c hc d hd
  rw [List.mem_singleton.mp hd]
  exact hsame c hc cell hcell

/-- Two slots are compared by the leaves below them. -/
theorem mem_diffSlots {n : Nat} {s t : Option (Slot ν (Node ν n))}
    (ih : ∀ x y : Node ν n, Placed hash n x → Placed hash n y → SameCells (cells n x) (cells n y) →
      ∀ visit, visit ∈ diffNodes hash n x y ↔
        Visited (fun key => get hash key n x) (fun key => get hash key n y) visit)
    (hs : ∀ child, s = some (.node child) → Placed hash n child.val)
    (ht : ∀ child, t = some (.node child) → Placed hash n child.val)
    (hsame : SameCells (slotCells n s) (slotCells n t)) (visit : Visit ν) :
    visit ∈ diffSlots hash n (diffNodes hash n) s t ↔
      Visited (fun key => readSlot hash key n s) (fun key => readSlot hash key n t) visit := by
  match s, t with
  | none, none =>
      constructor
      · intro h
        exact nomatch h
      · intro h
        exact nomatch h
  | some x, none =>
      exact mem_onlyMine (lists_readSlot hash fun child hchild => hs child (congrArg some hchild))
        visit
  | none, some y =>
      exact mem_onlyTheirs (lists_readSlot hash fun child hchild => ht child (congrArg some hchild))
        visit
  | some (.node x), some (.node y) =>
      show (visit ∈ if x.addr = y.addr then [] else diffNodes hash n x.val y.val) ↔ _
      by_cases haddr : x.addr = y.addr
      · have hxy := hsame.eq_of_addr (List.mem_cons_self ..) (List.mem_cons_self ..) haddr
        rw [if_pos haddr, hxy]
        constructor
        · intro h
          exact nomatch h
        · intro h
          exact absurd h (not_visited_self _ visit)
      · rw [if_neg haddr]
        exact ih x.val y.val (hs x rfl) (ht y rfl)
          (hsame.sublist (List.subset_cons_self ..) (List.subset_cons_self ..)) visit
  | some (.leaf x), some (.leaf y) =>
      show (visit ∈ if x.addr = y.addr then [] else if x.key = y.key then _ else _) ↔ _
      by_cases haddr : x.addr = y.addr
      · have hcell : Cell.leaf x = Cell.leaf y :=
          hsame _ (List.mem_singleton_self _) _ (List.mem_singleton_self _)
            (congrArg (Prod.mk 0) haddr)
        injection hcell with hxy
        rw [if_pos haddr, hxy]
        constructor
        · intro h
          exact nomatch h
        · intro h
          exact absurd h (not_visited_self _ visit)
      · rw [if_neg haddr]
        exact mem_diff_leaves haddr visit
  | some (.leaf x), some (.node y) => exact mem_diffLeafAgainst_mine hash (ht y rfl) x visit
  | some (.node x), some (.leaf y) => exact mem_diffLeafAgainst_theirs hash (hs x rfl) y visit

/-- The cells of a slot are cells of the node. -/
theorem slotCells_subset {n : Nat} (node : Packed 32 (Slot ν (Node ν n))) (place : Fin 32) :
    slotCells n (node.get place) ⊆ cells (n + 1) node := by
  intro cell hcell
  match hget : node.get place with
  | none =>
      rw [hget] at hcell
      exact nomatch hcell
  | some slot =>
      rw [hget] at hcell
      exact List.mem_flatMap.mpr ⟨slot, Packed.mem_slots.mpr ⟨place, hget⟩, hcell⟩

/-- A leaf found below a slot in place selects the slot. -/
theorem bitAt_of_readSlot {n : Nat} {node : Packed 32 (Slot ν (Node ν n))}
    (hplaced : Placed hash (n + 1) node) {place : Fin 32} {key : Atom}
    (h : readSlot hash key n (node.get place) ≠ none) : bitAt (hash key) (n + 1) = place := by
  match hget : node.get place with
  | none =>
      rw [hget] at h
      exact absurd rfl h
  | some slot =>
      rw [hget] at h
      have hslot := hplaced place slot hget
      have ⟨leaf, hleaf⟩ := Option.ne_none_iff_exists'.mp h
      have ⟨hmem, hkey⟩ := (lists_readSlot hash hslot.2 key leaf).mp hleaf
      rw [← hkey]
      exact hslot.1 leaf hmem

/-- The visits of two nodes are those of their lookups. -/
theorem mem_diffNodes {n : Nat} {a b : Node ν n} (ha : Placed hash n a) (hb : Placed hash n b)
    (hsame : SameCells (cells n a) (cells n b)) (visit : Visit ν) :
    visit ∈ diffNodes hash n a b ↔
      Visited (fun key => get hash key n a) (fun key => get hash key n b) visit := by
  induction n generalizing visit with
  | zero => exact mem_diffLeafLists ha hb visit
  | succ n ih =>
      change Packed 32 (Slot ν (Node ν n)) at a b
      have hslots := fun place => mem_diffSlots hash
        (s := a.get place) (t := b.get place) (fun x y hx hy hxy => ih hx hy hxy)
        (fun child hchild => (ha place _ hchild).2 child rfl)
        (fun child hchild => (hb place _ hchild).2 child rfl)
        (hsame.sublist (slotCells_subset a place) (slotCells_subset b place)) visit
      show visit ∈ (Packed.places (a.bitmap ||| b.bitmap)).flatMap _ ↔ Visited
        (fun key => get hash key (n + 1) (a : Packed 32 (Slot ν (Node ν n))))
        (fun key => get hash key (n + 1) (b : Packed 32 (Slot ν (Node ν n)))) visit
      have hread : Visited (fun key => get hash key (n + 1) (a : Packed 32 (Slot ν (Node ν n))))
          (fun key => get hash key (n + 1) (b : Packed 32 (Slot ν (Node ν n)))) visit ↔
          Visited (fun key => readSlot hash key n (a.get (bitAt (hash visit.1) (n + 1))))
            (fun key => readSlot hash key n (b.get (bitAt (hash visit.1) (n + 1)))) visit := by
        simp only [Visited, get_succ]
      rw [hread, List.mem_flatMap]
      constructor
      · intro ⟨place, _, hvisit⟩
        have hvisited := (hslots place).mp hvisit
        have hplace : bitAt (hash visit.1) (n + 1) = place := by
          rcases hvisited.found with hmine | htheirs
          · exact bitAt_of_readSlot hash ha hmine
          · exact bitAt_of_readSlot hash hb htheirs
        rw [hplace]
        exact hvisited
      · intro hvisited
        refine ⟨bitAt (hash visit.1) (n + 1), ?_, (hslots _).mpr hvisited⟩
        rw [Packed.mem_places_or]
        rcases hvisited.found with hmine | htheirs
        · exact .inl fun h => hmine (by rw [h]; rfl)
        · exact .inr fun h => htheirs (by rw [h]; rfl)

/-- A visit made at a slot is to a key that selects it. -/
theorem bitAt_of_visit {n : Nat} {a b : Packed 32 (Slot ν (Node ν n))}
    (ha : Placed hash (n + 1) a) (hb : Placed hash (n + 1) b)
    (hsame : SameCells (cells (n + 1) a) (cells (n + 1) b)) {place : Fin 32} {visit : Visit ν}
    (h : visit ∈ diffSlots hash n (diffNodes hash n) (a.get place) (b.get place)) :
    bitAt (hash visit.1) (n + 1) = place := by
  have hvisited := (mem_diffSlots hash (fun x y hx hy hxy => mem_diffNodes hash hx hy hxy)
    (fun child hchild => (ha place _ hchild).2 child rfl)
    (fun child hchild => (hb place _ hchild).2 child rfl)
    (hsame.sublist (slotCells_subset a place) (slotCells_subset b place)) visit).mp h
  rcases hvisited.found with hmine | htheirs
  · exact bitAt_of_readSlot hash ha hmine
  · exact bitAt_of_readSlot hash hb htheirs

theorem nodup_diffSlots {n : Nat} {s t : Option (Slot ν (Node ν n))}
    (ih : ∀ x y : Node ν n, Placed hash n x → Placed hash n y → SameCells (cells n x) (cells n y) →
      ((diffNodes hash n x y).map Prod.fst).Nodup)
    (hs : ∀ child, s = some (.node child) → Placed hash n child.val)
    (ht : ∀ child, t = some (.node child) → Placed hash n child.val)
    (hsame : SameCells (slotCells n s) (slotCells n t)) :
    ((diffSlots hash n (diffNodes hash n) s t).map Prod.fst).Nodup := by
  have hleaves : ∀ slot : Slot ν (Node ν n),
      (∀ child, slot = .node child → Placed hash n child.val) →
      ((slot.leaves (leaves n)).map Arc.key).Nodup := by
    intro slot hslot
    match slot with
    | .leaf lone => exact List.nodup_singleton _
    | .node child => exact nodup_keys hash (hslot child rfl)
  match s, t with
  | none, none => exact List.nodup_nil
  | some x, none =>
      show ((onlyMine _).map Prod.fst).Nodup
      rw [keys_onlyMine]
      exact hleaves x fun child hchild => hs child (congrArg some hchild)
  | none, some y =>
      show ((onlyTheirs _).map Prod.fst).Nodup
      rw [keys_onlyTheirs]
      exact hleaves y fun child hchild => ht child (congrArg some hchild)
  | some (.node x), some (.node y) =>
      show ((if x.addr = y.addr then [] else diffNodes hash n x.val y.val).map Prod.fst).Nodup
      by_cases haddr : x.addr = y.addr
      · rw [if_pos haddr]
        exact List.nodup_nil
      · rw [if_neg haddr]
        exact ih x.val y.val (hs x rfl) (ht y rfl)
          (hsame.sublist (List.subset_cons_self ..) (List.subset_cons_self ..))
  | some (.leaf x), some (.leaf y) =>
      show ((if x.addr = y.addr then [] else if x.key = y.key then _ else _).map Prod.fst).Nodup
      by_cases haddr : x.addr = y.addr
      · rw [if_pos haddr]
        exact List.nodup_nil
      · rw [if_neg haddr]
        by_cases hkey : x.key = y.key
        · rw [if_pos hkey]
          exact List.nodup_singleton _
        · rw [if_neg hkey]
          simpa using hkey
  | some (.leaf x), some (.node y) =>
      show ((diffLeafAgainst hash x n y.val true).map Prod.fst).Nodup
      rw [diffLeafAgainst_mine]
      exact nodup_keys_against (fun _ => fst_of_visitOf) (keys_onlyTheirs _)
        (nodup_keys hash (ht y rfl))
  | some (.node x), some (.leaf y) =>
      show ((diffLeafAgainst hash y n x.val false).map Prod.fst).Nodup
      rw [diffLeafAgainst_theirs]
      exact nodup_keys_against (fun _ => fst_of_visitOf) (keys_onlyMine _)
        (nodup_keys hash (hs x rfl))

/-- No key is visited twice. -/
theorem nodup_diffNodes {n : Nat} {a b : Node ν n} (ha : Placed hash n a) (hb : Placed hash n b)
    (hsame : SameCells (cells n a) (cells n b)) : ((diffNodes hash n a b).map Prod.fst).Nodup := by
  induction n with
  | zero => exact nodup_diffLeafLists ha hb
  | succ n ih =>
      change Packed 32 (Slot ν (Node ν n)) at a b
      show (((Packed.places (a.bitmap ||| b.bitmap)).flatMap fun place =>
        diffSlots hash n (diffNodes hash n) (a.get place) (b.get place)).map Prod.fst).Nodup
      rw [List.map_flatMap, List.nodup_flatMap]
      constructor
      · intro place _
        exact nodup_diffSlots hash (fun x y hx hy hxy => ih hx hy hxy)
          (fun child hchild => (ha place _ hchild).2 child rfl)
          (fun child hchild => (hb place _ hchild).2 child rfl)
          (hsame.sublist (slotCells_subset a place) (slotCells_subset b place))
      · apply (Packed.nodup_places _).imp
        intro i j hij key hi hj
        have ⟨visit, hvisit, hkey⟩ := List.mem_map.mp hi
        have ⟨other, hother, hkey'⟩ := List.mem_map.mp hj
        apply hij
        rw [← bitAt_of_visit hash ha hb hsame hvisit, ← bitAt_of_visit hash ha hb hsame hother,
          hkey, hkey']

end Diff
end PhpantomLsp.Flow.Trie
