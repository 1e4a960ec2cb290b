import PhpantomLsp.Flow.TrieMap
import PhpantomLsp.Flow.ProofMap

/-!
# Tries that share cells

The live tries of a program share cells through `clone`.  A cell is written in
place when its address is reached once from all of them together, which is its
strong count where the nodes above it have been made unshared.  A write in
place is a write for every trie that reaches the address: after a write the
other tries are read again through the cells of the written one (`reread`).

Every run of `insert`, `remove`, `get_mut`, `retain`, `retain_items` and
`clone` on any of the tries keeps one contents to an address (`Sound`), so
reading again changes nothing, and each trie stays the plain map on which the
same operations were run.
-/

namespace PhpantomLsp.Flow.Trie

open Lib PhpType

/-- The live tries, and the next address. -/
structure World (ν : Type) where
  maps : List (AtomTrie ν)
  fresh : Nat

section Reread

variable {ν : Type}

/-- Every cell reached. -/
def World.cells (world : World ν) : List (Cell ν) := world.maps.flatMap AtomTrie.cells

/-- The memory a write meets. -/
def World.heap (world : World ν) : Heap where
  fresh := world.fresh
  sole rank addr := reached (rank, addr) world.cells == 1

/-- The leaf at an address. -/
def leafAt (memory : List (Cell ν)) (addr : Nat) : Option (Leaf ν) :=
  memory.findSome? fun
    | .leaf it => if it.addr = addr then some it else none
    | .node _ _ => none

/-- The node at an address. -/
def nodeAt (memory : List (Cell ν)) (n addr : Nat) : Option (Arc (Node ν n)) :=
  memory.findSome? fun
    | .leaf _ => none
    | .node m it => if h : m = n then (if it.addr = addr then some (h ▸ it) else none) else none

/-- A leaf, with the contents its address has in `memory`. -/
def rereadLeaf (memory : List (Cell ν)) (leaf : Leaf ν) : Leaf ν :=
  (leafAt memory leaf.addr).getD leaf

/-- A node, with the contents its addresses have in `memory`. -/
def reread (memory : List (Cell ν)) : (n : Nat) → Node ν n → Node ν n
  | 0, (node : List (Leaf ν)) => node.map (rereadLeaf memory)
  | n + 1, (node : Packed 32 (Slot ν (Node ν n))) =>
      node.map fun
        | .leaf lone => .leaf (rereadLeaf memory lone)
        | .node child =>
            .node ((nodeAt memory n child.addr).getD ⟨child.addr, reread memory n child.val⟩)

/-- A trie, with the contents its addresses have in `memory`. -/
def AtomTrie.reread (memory : List (Cell ν)) (trie : AtomTrie ν) : AtomTrie ν where
  root := trie.root.map fun root =>
    (nodeAt memory levels root.addr).getD ⟨root.addr, Trie.reread memory levels root.val⟩
  len := trie.len

theorem rereadLeaf_eq {memory : List (Cell ν)} {leaf : Leaf ν}
    (hsame : SameCells memory [.leaf leaf]) : rereadLeaf memory leaf = leaf := by
  unfold rereadLeaf
  match hfound : leafAt memory leaf.addr with
  | none => rfl
  | some found =>
      have ⟨cell, hcell, hleaf⟩ := List.exists_of_findSome?_eq_some hfound
      match cell with
      | .node _ _ => exact nomatch hleaf
      | .leaf it =>
          by_cases haddr : it.addr = leaf.addr
          · simp only [haddr, if_true, Option.some_inj] at hleaf
            have hsame := hsame _ hcell _ (List.mem_singleton_self _) (congrArg (Prod.mk 0) haddr)
            injection hsame with hsame
            exact hleaf.symm.trans hsame
          · simp only [haddr, if_false] at hleaf
            exact nomatch hleaf

theorem nodeAt_eq {memory : List (Cell ν)} {n : Nat} {node found : Arc (Node ν n)}
    (hsame : SameCells memory [.node n node]) (hfound : nodeAt memory n node.addr = some found) :
    found = node := by
  have ⟨cell, hcell, hnode⟩ := List.exists_of_findSome?_eq_some hfound
  match cell with
  | .leaf _ => exact nomatch hnode
  | .node m it =>
      by_cases hm : m = n
      · subst hm
        by_cases haddr : it.addr = node.addr
        · simp only [haddr, if_true, dif_pos, Option.some_inj] at hnode
          have hsame := hsame _ hcell _ (List.mem_singleton_self _)
            (congrArg (Prod.mk (m + 1)) haddr)
          injection hsame with _ hsame
          exact hnode.symm.trans hsame
        · simp only [haddr, if_false, dif_pos] at hnode
          exact nomatch hnode
      · simp only [hm, dif_neg, not_false_eq_true] at hnode
        exact nomatch hnode

/-- Where an address has the same contents, reading again changes nothing. -/
theorem reread_eq {memory : List (Cell ν)} {n : Nat} {node : Node ν n}
    (hsame : SameCells memory (cells n node)) : Trie.reread memory n node = node := by
  induction n with
  | zero =>
      show (leaves 0 node).map (rereadLeaf memory) = leaves 0 node
      refine (List.map_congr_left ?_).trans (List.map_id' _)
      intro leaf hleaf
      apply rereadLeaf_eq
      exact hsame.single (leaf_mem_cells hleaf)
  | succ n ih =>
      change Packed 32 (Slot ν (Node ν n)) at node
      apply Packed.map_eq_self (p := node)
      intro slot hslot
      have hbelow : SameCells memory (slot.cells (cells n)) := by
        apply hsame.sublist (List.Subset.refl _)
        intro cell hcell
        exact List.mem_flatMap.mpr ⟨slot, hslot, hcell⟩
      match slot with
      | .leaf lone => exact congrArg Slot.leaf (rereadLeaf_eq hbelow)
      | .node child =>
          apply congrArg Slot.node
          match hfound : nodeAt memory n child.addr with
          | none =>
              show Arc.mk child.addr (Trie.reread memory n child.val) = child
              rw [ih (hbelow.sublist (List.Subset.refl _) (List.subset_cons_self ..))]
          | some found =>
              exact nodeAt_eq (hbelow.single (List.mem_cons_self ..)) hfound

theorem AtomTrie.reread_eq {memory : List (Cell ν)} {trie : AtomTrie ν}
    (hsame : SameCells memory trie.cells) : trie.reread memory = trie := by
  match trie with
  | ⟨none, len⟩ => rfl
  | ⟨some root, len⟩ =>
      change SameCells memory (arcCells levels root) at hsame
      unfold AtomTrie.reread
      match hfound : nodeAt memory levels root.addr with
      | none =>
          have hbelow : Trie.reread memory levels root.val = root.val :=
            Trie.reread_eq (hsame.sublist (List.Subset.refl _) (List.subset_cons_self ..))
          simp only [Option.map_some, hfound, Option.getD_none, hbelow]
      | some found =>
          have hroot := nodeAt_eq (hsame.single (List.mem_cons_self ..)) hfound
          simp only [Option.map_some, hfound, Option.getD_some, hroot]

end Reread

/-! ## Steps -/

section Steps

variable {ν : Type} (hash : Atom → BitVec 64)

/-- A write through one trie, which the others see at the addresses they share
with it. -/
def World.write (world : World ν) (i : Nat) (write : Heap → AtomTrie ν → AtomTrie ν) : World ν :=
  match world.maps[i]? with
  | none => world
  | some trie =>
      let written := write world.heap trie
      ⟨(world.maps.map (AtomTrie.reread written.cells)).set i written, world.fresh + 1⟩

/-- The operations on the live tries, each with the trie it is on. -/
inductive Op (ν : Type) where
  | create
  | clone (i : Nat)
  | drop (i : Nat)
  | insert (i : Nat) (key : Atom) (value : ν)
  | remove (i : Nat) (key : Atom)
  | getMut (i : Nat) (key : Atom) (write : ν → ν)
  | retain (i : Nat) (keep : Atom → ν → Bool)
  | thin (i : Nat) (touched : ν → Bool) (thinned : ν → ν) (gone : ν → Bool)

/-- `AtomTrie::retain_items`: the lists with an item to lose are thinned out,
and those left empty removed. -/
def Op.retainItems {τ : Type} (i : Nat) (keep : τ → Bool) : Op (List τ) :=
  .thin i (fun items => !items.all keep) (fun items => items.filter keep) List.isEmpty

def World.insert (world : World ν) (i : Nat) (key : Atom) (value : ν) : World ν :=
  world.write i fun heap trie => trie.insert hash heap key value

def World.remove (world : World ν) (i : Nat) (key : Atom) : World ν :=
  world.write i fun heap trie => trie.remove hash heap key

def World.getMut (world : World ν) (i : Nat) (key : Atom) (write : ν → ν) : World ν :=
  world.write i fun heap trie => trie.getMut hash heap key write

/-- One round of the loop of `retain_items`. -/
def World.thinOne (world : World ν) (i : Nat) (thinned : ν → ν) (gone : ν → Bool) (key : Atom) :
    World ν :=
  let world := world.getMut hash i key thinned
  match world.maps[i]?.bind fun trie => trie.get hash key with
  | none => world
  | some items => if gone items then world.remove hash i key else world

/-- One operation. -/
def World.step (world : World ν) : Op ν → World ν
  | .create => ⟨world.maps ++ [AtomTrie.empty], world.fresh⟩
  | .clone i => ⟨world.maps ++ world.maps[i]?.toList, world.fresh⟩
  | .drop i => ⟨world.maps.eraseIdx i, world.fresh⟩
  | .insert i key value => world.insert hash i key value
  | .remove i key => world.remove hash i key
  | .getMut i key write => world.getMut hash i key write
  | .retain i keep =>
      match world.maps[i]? with
      | none => world
      | some trie =>
          ((trie.iter.filter fun (key, value) => !keep key value).map Prod.fst).foldl
            (fun world key => world.remove hash i key) world
  | .thin i touched thinned gone =>
      match world.maps[i]? with
      | none => world
      | some trie =>
          ((trie.iter.filter fun (_, value) => touched value).map Prod.fst).foldl
            (fun world key => world.thinOne hash i thinned gone key) world

/-- The tries after a run. -/
def World.run (ops : List (Op ν)) : World ν := ops.foldl (World.step hash) ⟨[], 0⟩

/-! ## The plain maps in parallel -/

/-- What an entry leaves when its value is thinned out. -/
def thinEntry (touched : ν → Bool) (thinned : ν → ν) (gone : ν → Bool) (value : ν) : Option ν :=
  if touched value then (if gone (thinned value) then none else some (thinned value))
  else some value

/-- One operation on the plain maps. -/
def plainStep (maps : List (Table Atom ν)) : Op ν → List (Table Atom ν)
  | .create => maps ++ [∅]
  | .clone i => maps ++ maps[i]?.toList
  | .drop i => maps.eraseIdx i
  | .insert i key value => maps.modify i fun map => map.insert key value
  | .remove i key => maps.modify i fun map => map.erase key
  | .getMut i key write => maps.modify i fun map => modifyEntry map key write
  | .retain i keep => maps.modify i fun map => map.filter keep
  | .thin i touched thinned gone =>
      maps.modify i fun map => map.filterMap fun _ value => thinEntry touched thinned gone value

/-- `retain_items` on a plain map looks at every list. -/
theorem plainStep_retainItems {τ : Type} (maps : List (Table Atom (List τ))) (i : Nat)
    (keep : τ → Bool) :
    plainStep maps (Op.retainItems i keep) = maps.modify i (scanItems keep) := by
  have hentry : ∀ items : List τ, thinEntry (fun items => !items.all keep)
      (fun items => items.filter keep) List.isEmpty items = keptItems keep items := by
    intro items
    show (if (!items.all keep) = true then thinned keep items else some items) = _
    unfold keptItems
    by_cases hall : items.all keep = true
    · rw [if_pos hall, hall, if_neg (by simp)]
    · rw [if_neg hall, Bool.eq_false_of_not_eq_true hall, if_pos (by simp)]
  show maps.modify i (fun map => map.filterMap fun _ items => thinEntry _ _ _ items) = _
  simp only [hentry]
  rfl

/-- The plain maps after a run. -/
def plainRun (ops : List (Op ν)) : List (Table Atom ν) := ops.foldl plainStep []

end Steps

/-! ## What every step keeps -/

section Sound

variable {ν : Type} {hash : Atom → BitVec 64}

/-- The tries have the entries of the plain maps, an address has one contents,
and the next address is new. -/
structure Sound (hash : Atom → BitVec 64) (world : World ν) (plain : List (Table Atom ν)) :
    Prop where
  maps : List.Forall₂ (Represents hash) world.maps plain
  same : SameCells world.cells world.cells
  old : ∀ cell ∈ world.cells, cell.addr < world.fresh

theorem one_of_reached_le {cells : List (Cell ν)} {c d : Cell ν} (hc : c ∈ cells) (hd : d ∈ cells)
    (hspot : c.spot = d.spot) (h : reached d.spot cells ≤ 1) : c = d := by
  unfold reached at h
  rw [List.countP_eq_length_filter] at h
  have hc' : c ∈ cells.filter fun cell => cell.spot = d.spot :=
    List.mem_filter.mpr ⟨hc, decide_eq_true hspot⟩
  have hd' : d ∈ cells.filter fun cell => cell.spot = d.spot :=
    List.mem_filter.mpr ⟨hd, decide_eq_true rfl⟩
  match hfilter : cells.filter fun cell => cell.spot = d.spot with
  | [] =>
      rw [hfilter] at hd'
      exact nomatch hd'
  | [only] =>
      rw [hfilter] at hc' hd'
      rw [List.mem_singleton.mp hc', List.mem_singleton.mp hd']
  | _ :: _ :: _ =>
      rw [hfilter] at h
      simp at h

theorem reached_pos {cells : List (Cell ν)} {cell : Cell ν} (h : cell ∈ cells) :
    0 < reached cell.spot cells := by
  unfold reached
  rw [List.countP_pos_iff]
  exact ⟨cell, h, decide_eq_true rfl⟩

theorem reached_one {maps : List (AtomTrie ν)} {i : Nat} {trie : AtomTrie ν}
    (h : maps[i]? = some trie) (spot : Nat × Nat) :
    reached spot trie.cells ≤ reached spot (maps.flatMap AtomTrie.cells) := by
  induction maps generalizing i with
  | nil => exact nomatch h
  | cons first rest ih =>
      rw [List.flatMap_cons, reached_append]
      match i with
      | 0 =>
          rw [← Option.some_inj.mp h]
          exact Nat.le_add_right _ _
      | i + 1 => exact (ih h).trans (Nat.le_add_left _ _)

/-- Two tries reach an address apart from each other. -/
theorem reached_two {maps : List (AtomTrie ν)} {i j : Nat} (hij : i ≠ j) {a b : AtomTrie ν}
    (ha : maps[i]? = some a) (hb : maps[j]? = some b) (spot : Nat × Nat) :
    reached spot a.cells + reached spot b.cells ≤ reached spot (maps.flatMap AtomTrie.cells) := by
  induction maps generalizing i j with
  | nil => exact nomatch ha
  | cons first rest ih =>
      rw [List.flatMap_cons, reached_append]
      match i, j with
      | 0, 0 => exact absurd rfl hij
      | 0, j + 1 =>
          have hb : rest[j]? = some b := hb
          have hrest := reached_one hb spot
          rw [← Option.some_inj.mp ha]
          exact Nat.add_le_add_left hrest _
      | i + 1, 0 =>
          have ha : rest[i]? = some a := ha
          have hrest := reached_one ha spot
          rw [← Option.some_inj.mp hb, Nat.add_comm]
          exact Nat.add_le_add_left hrest _
      | i + 1, j + 1 =>
          exact (ih (fun h => hij (congrArg Nat.succ h)) ha hb).trans (Nat.le_add_left _ _)

theorem exists_of_reached_pos {cells : List (Cell ν)} {spot : Nat × Nat}
    (h : 0 < reached spot cells) : ∃ cell ∈ cells, cell.spot = spot := by
  unfold reached at h
  have ⟨cell, hcell, hspot⟩ := List.countP_pos_iff.mp h
  exact ⟨cell, hcell, of_decide_eq_true hspot⟩

/-- What a write through one trie does to the cells of all of them. -/
theorem Sound.written {world : World ν} {plain : List (Table Atom ν)}
    (h : Sound hash world plain) {i : Nat} {trie written : AtomTrie ν} {r : Nat}
    (htrie : world.maps[i]? = some trie)
    (hwritten : Written world.heap r trie.cells written.cells) :
    (∀ j other, j ≠ i → world.maps[j]? = some other → SameCells written.cells other.cells) ∧
    SameCells written.cells written.cells ∧ ∀ cell ∈ written.cells, cell.addr < world.fresh + 1 := by
  have hcells : ∀ {k : Nat} {other : AtomTrie ν} {cell : Cell ν}, world.maps[k]? = some other →
      cell ∈ other.cells → cell ∈ world.cells := by
    intro k other cell hk hcell
    exact List.mem_flatMap.mpr ⟨other, List.mem_of_getElem? hk, hcell⟩
  -- an address that is not new was reached before, and as often
  have hle : ∀ spot : Nat × Nat, spot.2 ≠ world.fresh →
      reached spot written.cells ≤ reached spot trie.cells := by
    intro spot hspot
    have := hwritten.reached_le spot
    rw [if_neg fun h => hspot h.1] at this
    exact this
  have hbefore : ∀ cell ∈ written.cells, cell.addr ≠ world.fresh →
      ∃ was ∈ trie.cells, was.spot = cell.spot := by
    intro cell hcell hnew
    exact exists_of_reached_pos ((reached_pos hcell).trans_le (hle cell.spot hnew))
  have hone : ∀ cell ∈ written.cells, cell.addr = world.fresh ∨
      world.heap.sole cell.rank cell.addr = true → reached cell.spot written.cells ≤ 1 := by
    intro cell hcell hsole
    by_cases hnew : cell.addr = world.fresh
    · have hnone : reached cell.spot trie.cells = 0 := by
        by_contra hsome
        have ⟨was, hwas, hspot⟩ := exists_of_reached_pos (Nat.pos_of_ne_zero hsome)
        have hlt := h.old was (hcells htrie hwas)
        have haddr : was.addr = cell.addr := congrArg Prod.snd hspot
        omega
      have hadd := hwritten.reached_le cell.spot
      rw [hnone] at hadd
      apply hadd.trans
      by_cases hfresh : cell.spot.2 = world.heap.fresh ∧ cell.spot.1 ≤ r
      · rw [if_pos hfresh]
      · rw [if_neg hfresh]
        exact Nat.zero_le _
    · have hworld : reached cell.spot world.cells = 1 :=
        beq_iff_eq.mp (hsole.resolve_left hnew)
      rw [← hworld]
      exact (hle cell.spot hnew).trans (reached_one htrie cell.spot)
  refine ⟨?_, ?_, ?_⟩
  · intro j other hj hother c hc d hd hspot
    have hold := h.old d (hcells hother hd)
    have haddr : c.addr = d.addr := congrArg Prod.snd hspot
    have hnew : c.addr ≠ world.fresh := by omega
    rcases hwritten.source c hc with hfresh | hsole | hwas
    · exact absurd hfresh hnew
    · have hworld : reached c.spot world.cells = 1 := beq_iff_eq.mp hsole
      have ⟨was, hwas, hspotWas⟩ := hbefore c hc hnew
      have htwo := reached_two (Ne.symm hj) htrie hother c.spot
      have hleft := reached_pos hwas
      have hright := reached_pos hd
      rw [hspotWas] at hleft
      rw [← hspot] at hright
      change _ ≤ reached c.spot world.cells at htwo
      omega
    · exact h.same c (hcells htrie hwas) d (hcells hother hd) hspot
  · intro c hc d hd hspot
    have haddr : c.addr = d.addr := congrArg Prod.snd hspot
    have hrank : c.rank = d.rank := congrArg Prod.fst hspot
    rcases hwritten.source d hd with hfresh | hsole | hwasd
    · exact one_of_reached_le hc hd hspot (hone d hd (.inl hfresh))
    · exact one_of_reached_le hc hd hspot (hone d hd (.inr hsole))
    · rcases hwritten.source c hc with hfresh | hsole | hwasc
      · exact one_of_reached_le hc hd hspot (hone d hd (.inl (haddr ▸ hfresh)))
      · exact one_of_reached_le hc hd hspot (hone d hd (.inr (haddr ▸ hrank ▸ hsole)))
      · exact h.same c (hcells htrie hwasc) d (hcells htrie hwasd) hspot
  · intro cell hcell
    by_cases hnew : cell.addr = world.fresh
    · omega
    · have ⟨was, hwas, hspot⟩ := hbefore cell hcell hnew
      have hlt := h.old was (hcells htrie hwas)
      have haddr : was.addr = cell.addr := congrArg Prod.snd hspot
      omega

theorem forall₂_set_modify {α β : Type} {R : α → β → Prop} {as : List α} {bs : List β}
    (h : List.Forall₂ R as bs) {i : Nat} {a a' : α} {g : β → β} (ha : as[i]? = some a)
    (hg : ∀ b, R a b → R a' (g b)) : List.Forall₂ R (as.set i a') (bs.modify i g) := by
  induction h generalizing i with
  | nil => exact nomatch ha
  | cons hab hrest ih =>
      match i with
      | 0 =>
          rw [← Option.some_inj.mp ha] at hg
          exact .cons (hg _ hab) hrest
      | i + 1 => exact .cons hab (ih ha)

theorem forall₂_getElem {α β : Type} {R : α → β → Prop} {as : List α} {bs : List β}
    (h : List.Forall₂ R as bs) (i : Nat) :
    (as[i]? = none ∧ bs[i]? = none) ∨ ∃ a b, as[i]? = some a ∧ bs[i]? = some b ∧ R a b := by
  induction h generalizing i with
  | nil => exact .inl ⟨rfl, rfl⟩
  | cons hab hrest ih =>
      match i with
      | 0 => exact .inr ⟨_, _, rfl, rfl, hab⟩
      | i + 1 => exact ih i

/-- The other tries are as they were. -/
theorem Sound.write_maps {world : World ν} {plain : List (Table Atom ν)}
    (h : Sound hash world plain) {i : Nat} {trie : AtomTrie ν} (htrie : world.maps[i]? = some trie)
    {write : Heap → AtomTrie ν → AtomTrie ν} {r : Nat}
    (hwritten : Written world.heap r trie.cells (write world.heap trie).cells) :
    world.write i write =
      ⟨world.maps.set i (write world.heap trie), world.fresh + 1⟩ := by
  have hothers := (h.written htrie hwritten).1
  unfold World.write
  rw [htrie]
  show World.mk _ _ = _
  congr 1
  apply List.ext_getElem?
  intro j
  rw [List.getElem?_set, List.getElem?_set, List.length_map]
  by_cases hj : i = j
  · rw [if_pos hj, if_pos hj]
  · rw [if_neg hj, if_neg hj, List.getElem?_map]
    match hother : world.maps[j]? with
    | none => rfl
    | some other =>
        exact congrArg some (AtomTrie.reread_eq (hothers j other (Ne.symm hj) hother))

/-- One write, on a trie and on its plain map. -/
theorem Sound.write {world : World ν} {plain : List (Table Atom ν)}
    (h : Sound hash world plain) (i : Nat) {write : Heap → AtomTrie ν → AtomTrie ν}
    {change : Table Atom ν → Table Atom ν}
    (hwritten : ∀ heap trie, ∃ r, Written heap r trie.cells (write heap trie).cells)
    (hchange : ∀ heap trie map, Represents hash trie map →
      Represents hash (write heap trie) (change map)) :
    Sound hash (world.write i write) (plain.modify i change) := by
  rcases forall₂_getElem h.maps i with ⟨hnone, hplain⟩ | ⟨trie, map, htrie, _, _⟩
  · have hkeep : world.write i write = world := by
      unfold World.write
      rw [hnone]
    have hsame : plain.modify i change = plain :=
      List.modify_eq_self (List.getElem?_eq_none_iff.mp hplain)
    rw [hkeep, hsame]
    exact h
  have ⟨r, hcells⟩ := hwritten world.heap trie
  have ⟨hothers, hself, hold⟩ := h.written htrie hcells
  rw [h.write_maps htrie hcells]
  have hmem : ∀ cell, cell ∈ (world.maps.set i (write world.heap trie)).flatMap AtomTrie.cells →
      cell ∈ (write world.heap trie).cells ∨
        ∃ j other, j ≠ i ∧ world.maps[j]? = some other ∧ cell ∈ other.cells := by
    intro cell hcell
    have ⟨other, hother, hcell⟩ := List.mem_flatMap.mp hcell
    have ⟨j, hj⟩ := List.mem_iff_getElem?.mp hother
    rw [List.getElem?_set] at hj
    by_cases hij : i = j
    · rw [if_pos hij] at hj
      by_cases hlen : i < world.maps.length
      · rw [if_pos hlen, Option.some_inj] at hj
        exact .inl (hj ▸ hcell)
      · rw [if_neg hlen] at hj
        exact nomatch hj
    · rw [if_neg hij] at hj
      exact .inr ⟨j, other, Ne.symm hij, hj, hcell⟩
  have hworld : ∀ {k : Nat} {other : AtomTrie ν} {cell : Cell ν}, world.maps[k]? = some other →
      cell ∈ other.cells → cell ∈ world.cells := by
    intro k other cell hk hcell
    exact List.mem_flatMap.mpr ⟨other, List.mem_of_getElem? hk, hcell⟩
  constructor
  · exact forall₂_set_modify h.maps htrie fun map hmap => hchange world.heap trie map hmap
  · intro c hc d hd hspot
    rcases hmem c hc with hc | ⟨j, other, hj, hother, hc⟩
    · rcases hmem d hd with hd | ⟨k, another, hk, hanother, hd⟩
      · exact hself c hc d hd hspot
      · exact hothers k another hk hanother c hc d hd hspot
    · rcases hmem d hd with hd | ⟨k, another, hk, hanother, hd⟩
      · exact (hothers j other hj hother d hd c hc hspot.symm).symm
      · exact h.same c (hworld hother hc) d (hworld hanother hd) hspot
  · intro cell hcell
    rcases hmem cell hcell with hcell | ⟨j, other, _, hother, hcell⟩
    · exact hold cell hcell
    · exact (h.old cell (hworld hother hcell)).trans (Nat.lt_succ_self _)

/-! ## The operations on the live tries -/

variable {world : World ν} {plain : List (Table Atom ν)}

theorem Sound.insert (h : Sound hash world plain) (i : Nat) (key : Atom) (value : ν) :
    Sound hash (world.insert hash i key value) (plain.modify i fun map => map.insert key value) := by
  apply h.write i _ fun heap trie map hmap => hmap.insert heap key value
  intro heap trie
  refine ⟨levels + 1, ?_⟩
  unfold AtomTrie.insert AtomTrie.cells
  match trie.root with
  | some root => exact written_insert hash heap key value levels root
  | none =>
      apply Written.allocNode
      exact (Written.alloc (key, value)).mono (Nat.zero_le _)

theorem Sound.remove (h : Sound hash world plain) (i : Nat) (key : Atom) :
    Sound hash (world.remove hash i key) (plain.modify i fun map => map.erase key) := by
  apply h.write i _ fun heap trie map hmap => hmap.remove heap key
  intro heap trie
  refine ⟨levels + 1, ?_⟩
  unfold AtomTrie.remove
  by_cases hkey : trie.containsKey hash key = true
  · rw [if_pos hkey]
    show Written heap _ _ (AtomTrie.cells ⟨if trie.len - 1 = 0 then none else _, _⟩)
    by_cases hlast : trie.len - 1 = 0
    · rw [if_pos hlast]
      exact (Written.refl heap _ _).drop (List.nil_sublist _)
    · rw [if_neg hlast]
      unfold AtomTrie.cells
      match trie.root with
      | some root => exact written_remove hash heap key levels root
      | none => exact Written.refl heap _ _
  · rw [if_neg hkey]
    exact Written.refl heap _ _

theorem Sound.getMut (h : Sound hash world plain) (i : Nat) (key : Atom) (write : ν → ν) :
    Sound hash (world.getMut hash i key write)
      (plain.modify i fun map => modifyEntry map key write) := by
  apply h.write i _ fun heap trie map hmap => hmap.getMut heap key write
  intro heap trie
  refine ⟨levels + 1, ?_⟩
  unfold AtomTrie.getMut
  by_cases hkey : trie.containsKey hash key = true
  · rw [if_pos hkey]
    unfold AtomTrie.cells
    match trie.root with
    | some root => exact written_getMut hash heap key write levels root
    | none => exact Written.refl heap _ _
  · rw [if_neg hkey]
    exact Written.refl heap _ _

/-- Maps that agree where they are changed are changed alike. -/
theorem modify_congr {maps : List (Table Atom ν)} {i : Nat} {f g : Table Atom ν → Table Atom ν}
    (h : ∀ map, maps[i]? = some map → f map = g map) : maps.modify i f = maps.modify i g := by
  apply List.ext_getElem?
  intro j
  rw [List.getElem?_modify, List.getElem?_modify]
  match hmap : maps[j]? with
  | none => rfl
  | some map =>
      by_cases hj : i = j
      · simp only [hj, if_true, Option.map_eq_map, Option.map_some]
        rw [h map (hj ▸ hmap)]
      · simp only [hj, if_false]

/-- A loop of changes to one map. -/
theorem foldl_modify (i : Nat) (change : Table Atom ν → Atom → Table Atom ν) (keys : List Atom)
    (maps : List (Table Atom ν)) :
    keys.foldl (fun maps key => maps.modify i fun map => change map key) maps =
      maps.modify i fun map => keys.foldl change map := by
  induction keys generalizing maps with
  | nil => exact (List.modify_id i maps).symm
  | cons key rest ih =>
      rw [List.foldl_cons, ih, List.modify_modify_eq]
      rfl

theorem get_foldl_erase (keys : List Atom) (map : Table Atom ν) (a : Atom) :
    (keys.foldl (fun map key => map.erase key) map)[a]? =
      if a ∈ keys then none else map[a]? := by
  induction keys generalizing map with
  | nil => simp
  | cons key rest ih =>
      rw [List.foldl_cons, ih, Table.get_erase]
      by_cases hrest : a ∈ rest
      · rw [if_pos hrest, if_pos (List.mem_cons_of_mem _ hrest)]
      · rw [if_neg hrest]
        by_cases hkey : key = a
        · rw [if_pos hkey, if_pos (hkey ▸ List.mem_cons_self ..)]
        · have hnot : a ∉ key :: rest := by simp [hrest, Ne.symm hkey]
          rw [if_neg hkey, if_neg hnot]

/-- The keys a loop goes over. -/
theorem Represents.mem_chosen {trie : AtomTrie ν} {map : Table Atom ν}
    (h : Represents hash trie map) (chosen : Atom × ν → Bool) (a : Atom) :
    a ∈ (trie.iter.filter chosen).map Prod.fst ↔
      ∃ value, map[a]? = some value ∧ chosen (a, value) = true := by
  rw [List.mem_map]
  constructor
  · intro ⟨(key, value), hentry, hkey⟩
    have ⟨hmem, hchosen⟩ := List.mem_filter.mp hentry
    have hget := Std.ExtTreeMap.mem_toList_iff_getElem?_eq_some.mp (h.iter_perm.mem_iff.mp hmem)
    change key = a at hkey
    rw [← hkey]
    exact ⟨value, hget, hchosen⟩
  · intro ⟨value, hget, hchosen⟩
    refine ⟨(a, value), List.mem_filter.mpr ⟨?_, hchosen⟩, rfl⟩
    exact h.iter_perm.mem_iff.mpr (Std.ExtTreeMap.mem_toList_iff_getElem?_eq_some.mpr hget)

theorem Represents.nodup_chosen {trie : AtomTrie ν} {map : Table Atom ν}
    (h : Represents hash trie map) (chosen : Atom × ν → Bool) :
    ((trie.iter.filter chosen).map Prod.fst).Nodup := by
  have hkeys : (trie.iter.map Prod.fst).Nodup := by
    have hnodup := h.nodup_keys
    rw [AtomTrie.iter_eq, List.map_map]
    exact hnodup
  exact hkeys.sublist (List.filter_sublist.map Prod.fst)

/-- A loop of steps on one trie. -/
theorem Sound.foldl (one : World ν → Atom → World ν) {i : Nat}
    {change : Table Atom ν → Atom → Table Atom ν}
    (hone : ∀ (world : World ν) (plain : List (Table Atom ν)) (key : Atom),
      Sound hash world plain →
      Sound hash (one world key) (plain.modify i fun map => change map key))
    (keys : List Atom) (h : Sound hash world plain) :
    Sound hash (keys.foldl one world) (plain.modify i fun map => keys.foldl change map) := by
  rw [← foldl_modify]
  induction keys generalizing world plain with
  | nil => exact h
  | cons key rest ih => exact ih (hone world plain key h)

theorem Sound.retain (h : Sound hash world plain) (i : Nat) (keep : Atom → ν → Bool) :
    Sound hash (world.step hash (.retain i keep)) (plainStep plain (.retain i keep)) := by
  show Sound hash (match world.maps[i]? with
    | none => world
    | some trie => _) (plain.modify i fun map => map.filter keep)
  rcases forall₂_getElem h.maps i with ⟨hnone, hplain⟩ | ⟨trie, map, htrie, hmap, hrep⟩
  · rw [hnone, List.modify_eq_self (List.getElem?_eq_none_iff.mp hplain)]
    exact h
  · rw [htrie]
    have hloop := h.foldl (fun world key => world.remove hash i key)
      (fun world plain key h => h.remove i key)
      ((trie.iter.filter fun (key, value) => !keep key value).map Prod.fst)
    have hfilter : (plain.modify i fun map => map.filter keep) = plain.modify i fun map =>
        ((trie.iter.filter fun (key, value) => !keep key value).map Prod.fst).foldl
          (fun map key => map.erase key) map := by
      apply modify_congr
      intro other hother
      have hsame := Option.some_inj.mp (hother.symm.trans hmap)
      apply Std.ExtTreeMap.ext_getElem?
      intro a
      rw [get_foldl_erase, hsame, Std.ExtTreeMap.getElem?_filter']
      have hchosen := hrep.mem_chosen (fun (key, value) => !keep key value) a
      match hget : map[a]? with
      | none => exact (ite_self _).symm
      | some value =>
          rw [Option.filter_some]
          by_cases hkeep : keep a value = true
          · rw [if_pos hkeep, if_neg]
            intro hmem
            have ⟨other, hother, hdoomed⟩ := hchosen.mp hmem
            change (!keep a other) = true at hdoomed
            rw [hget, Option.some_inj] at hother
            rw [← hother, hkeep] at hdoomed
            exact nomatch hdoomed
          · rw [if_neg hkeep, if_pos]
            refine hchosen.mpr ⟨value, hget, ?_⟩
            show (!keep a value) = true
            rw [Bool.not_eq_true] at hkeep
            rw [hkeep]
            rfl
    rw [hfilter]
    exact hloop

/-- What one round of thinning out leaves of a value. -/
def thinValue (thinned : ν → ν) (gone : ν → Bool) (value : ν) : Option ν :=
  if gone (thinned value) then none else some (thinned value)

/-- One round of thinning out, on a plain map. -/
def thinKey (thinned : ν → ν) (gone : ν → Bool) (map : Table Atom ν) (key : Atom) :
    Table Atom ν :=
  match map[key]? with
  | none => map
  | some value =>
      if gone (thinned value) then (modifyEntry map key thinned).erase key
      else modifyEntry map key thinned

theorem thinKey_gone {thinned : ν → ν} {gone : ν → Bool} {map : Table Atom ν} {key : Atom}
    {value : ν} (hget : map[key]? = some value) (hgone : gone (thinned value) = true) :
    thinKey thinned gone map key = (modifyEntry map key thinned).erase key := by
  unfold thinKey
  rw [hget]
  exact if_pos hgone

theorem thinKey_kept {thinned : ν → ν} {gone : ν → Bool} {map : Table Atom ν} {key : Atom}
    (hkept : ∀ value, map[key]? = some value → gone (thinned value) = false) :
    thinKey thinned gone map key = modifyEntry map key thinned := by
  unfold thinKey
  match hget : map[key]? with
  | none =>
      unfold modifyEntry
      rw [hget]
  | some value =>
      apply if_neg
      rw [hkept value hget]
      exact Bool.false_ne_true

theorem get_thinKey (thinned : ν → ν) (gone : ν → Bool) (map : Table Atom ν) (key a : Atom) :
    (thinKey thinned gone map key)[a]? =
      if key = a then map[a]?.bind (thinValue thinned gone) else map[a]? := by
  unfold thinKey
  match hget : map[key]? with
  | none =>
      by_cases ha : key = a
      · rw [if_pos ha, ← ha, hget]
        rfl
      · rw [if_neg ha]
  | some value =>
      show (if gone (thinned value) = true then _ else _ : Table Atom ν)[a]? = _
      by_cases hgone : gone (thinned value) = true
      · rw [if_pos hgone, Table.get_erase, get_modifyEntry]
        by_cases ha : key = a
        · rw [if_pos ha, if_pos ha, ← ha, hget, Option.bind_some, thinValue, if_pos hgone]
        · rw [if_neg ha, if_neg ha, if_neg ha]
      · rw [if_neg hgone, get_modifyEntry]
        by_cases ha : key = a
        · rw [if_pos ha, if_pos ha, ← ha, hget, Option.bind_some, thinValue, if_neg hgone]
          rfl
        · rw [if_neg ha, if_neg ha]

theorem get_foldl_thinKey (thinned : ν → ν) (gone : ν → Bool) {keys : List Atom}
    (hnodup : keys.Nodup) (map : Table Atom ν) (a : Atom) :
    (keys.foldl (thinKey thinned gone) map)[a]? =
      if a ∈ keys then map[a]?.bind (thinValue thinned gone) else map[a]? := by
  induction keys generalizing map with
  | nil => simp
  | cons key rest ih =>
      have ⟨hfirst, hrest⟩ := List.nodup_cons.mp hnodup
      rw [List.foldl_cons, ih hrest, get_thinKey]
      by_cases hkey : key = a
      · rw [if_neg (hkey ▸ hfirst), if_pos hkey, if_pos (hkey ▸ List.mem_cons_self ..)]
      · rw [if_neg hkey]
        by_cases ha : a ∈ rest
        · rw [if_pos ha, if_pos (List.mem_cons_of_mem _ ha)]
        · have hnot : a ∉ key :: rest := by simp [ha, Ne.symm hkey]
          rw [if_neg ha, if_neg hnot]

theorem Sound.thinOne (h : Sound hash world plain) (i : Nat) (thinned : ν → ν) (gone : ν → Bool)
    (key : Atom) :
    Sound hash (world.thinOne hash i thinned gone key)
      (plain.modify i fun map => thinKey thinned gone map key) := by
  have hwrite := h.getMut i key thinned
  unfold World.thinOne
  simp only
  rcases forall₂_getElem hwrite.maps i with ⟨hnone, hplain⟩ | ⟨trie, after, htrie, hafter, hrep⟩
  · rw [hnone]
    rw [List.getElem?_modify, Option.map_eq_map, Option.map_eq_none_iff] at hplain
    rw [List.modify_eq_self (List.getElem?_eq_none_iff.mp hplain)] at hwrite ⊢
    exact hwrite
  · rw [List.getElem?_modify, Option.map_eq_map, Option.map_eq_some_iff] at hafter
    have ⟨map, hmap, hmodify⟩ := hafter
    rw [if_pos rfl] at hmodify
    have hget : trie.get hash key = map[key]?.map thinned := by
      rw [hrep.get, ← hmodify, get_modifyEntry, if_pos rfl]
    have hkeep : (∀ value, map[key]? = some value → gone (thinned value) = false) →
        plain.modify i (fun map => thinKey thinned gone map key) =
          plain.modify i fun map => modifyEntry map key thinned := by
      intro hstay
      apply modify_congr
      intro other hother
      rw [Option.some_inj.mp (hother.symm.trans hmap)]
      exact thinKey_kept hstay
    rw [htrie, Option.bind_some, hget]
    match hvalue : map[key]? with
    | none =>
        rw [hkeep fun value h => nomatch hvalue.symm.trans h]
        exact hwrite
    | some value =>
        show Sound hash (if gone (thinned value) = true then _ else _) _
        by_cases hgone : gone (thinned value) = true
        · have herase := hwrite.remove i key
          rw [List.modify_modify_eq] at herase
          have hthin : plain.modify i (fun map => thinKey thinned gone map key) =
              plain.modify i ((fun map => map.erase key) ∘ fun map =>
                modifyEntry map key thinned) := by
            apply modify_congr
            intro other hother
            rw [Option.some_inj.mp (hother.symm.trans hmap)]
            exact thinKey_gone hvalue hgone
          rw [if_pos hgone, hthin]
          exact herase
        · have hstay : ∀ other, map[key]? = some other → gone (thinned other) = false := by
            intro other hother
            rw [← Option.some_inj.mp (hvalue.symm.trans hother)]
            exact Bool.not_eq_true _ ▸ hgone
          rw [if_neg hgone, hkeep hstay]
          exact hwrite

theorem Sound.thin (h : Sound hash world plain) (i : Nat) (touched : ν → Bool)
    (thinned : ν → ν) (gone : ν → Bool) :
    Sound hash (world.step hash (.thin i touched thinned gone))
      (plainStep plain (.thin i touched thinned gone)) := by
  show Sound hash (match world.maps[i]? with
    | none => world
    | some trie => _) (plain.modify i fun map =>
      map.filterMap fun _ value => thinEntry touched thinned gone value)
  rcases forall₂_getElem h.maps i with ⟨hnone, hplain⟩ | ⟨trie, map, htrie, hmap, hrep⟩
  · rw [hnone, List.modify_eq_self (List.getElem?_eq_none_iff.mp hplain)]
    exact h
  · rw [htrie]
    have hloop := h.foldl (fun world key => world.thinOne hash i thinned gone key)
      (fun world plain key h => h.thinOne i thinned gone key)
      ((trie.iter.filter fun (_, value) => touched value).map Prod.fst)
    have hthin : (plain.modify i fun map =>
          map.filterMap fun _ value => thinEntry touched thinned gone value) =
        plain.modify i fun map =>
          ((trie.iter.filter fun (_, value) => touched value).map Prod.fst).foldl
            (thinKey thinned gone) map := by
      apply modify_congr
      intro other hother
      have hsame := Option.some_inj.mp (hother.symm.trans hmap)
      apply Std.ExtTreeMap.ext_getElem?
      intro a
      rw [get_foldl_thinKey thinned gone (hrep.nodup_chosen _), hsame,
        Std.ExtTreeMap.getElem?_filterMap']
      have hchosen := hrep.mem_chosen (fun (_, value) => touched value) a
      match hget : map[a]? with
      | none => exact (ite_self _).symm
      | some value =>
          rw [Option.bind_some, Option.bind_some, thinEntry]
          by_cases htouched : touched value = true
          · rw [if_pos htouched, if_pos (hchosen.mpr ⟨value, hget, htouched⟩)]
            rfl
          · rw [if_neg htouched, if_neg]
            intro hmem
            have ⟨other, hother, htouchedOther⟩ := hchosen.mp hmem
            change touched other = true at htouchedOther
            rw [hget, Option.some_inj] at hother
            exact htouched (hother ▸ htouchedOther)
    rw [hthin]
    exact hloop

/-- Tries that reach no further cell. -/
theorem Sound.of_subset (h : Sound hash world plain) {maps : List (AtomTrie ν)}
    {plain' : List (Table Atom ν)} (hmaps : List.Forall₂ (Represents hash) maps plain')
    (hsub : ∀ trie ∈ maps, trie.cells ⊆ world.cells) :
    Sound hash ⟨maps, world.fresh⟩ plain' := by
  have hcells : World.cells ⟨maps, world.fresh⟩ ⊆ world.cells := by
    intro cell hcell
    have ⟨trie, htrie, hcell⟩ := List.mem_flatMap.mp hcell
    exact hsub trie htrie hcell
  exact ⟨hmaps, h.same.sublist hcells hcells, fun cell hcell => h.old cell (hcells hcell)⟩

theorem Sound.cells_subset {trie : AtomTrie ν} (htrie : trie ∈ world.maps) :
    trie.cells ⊆ world.cells := by
  intro cell hcell
  exact List.mem_flatMap.mpr ⟨trie, htrie, hcell⟩

theorem forall₂_eraseIdx {α β : Type} {R : α → β → Prop} {as : List α} {bs : List β}
    (h : List.Forall₂ R as bs) (i : Nat) : List.Forall₂ R (as.eraseIdx i) (bs.eraseIdx i) := by
  induction h generalizing i with
  | nil => exact .nil
  | cons hab hrest ih =>
      match i with
      | 0 => exact hrest
      | i + 1 => exact .cons hab (ih i)

/-- One operation keeps the tries sound. -/
theorem Sound.step (h : Sound hash world plain) (op : Op ν) :
    Sound hash (world.step hash op) (plainStep plain op) := by
  match op with
  | .create =>
      apply h.of_subset
      · exact List.rel_append h.maps (.cons (represents_empty hash) .nil)
      · intro trie htrie
        rcases List.mem_append.mp htrie with hold | hnew
        · exact Sound.cells_subset hold
        · rw [List.mem_singleton.mp hnew]
          exact List.nil_subset _
  | .clone i =>
      apply h.of_subset
      · apply List.rel_append h.maps
        rcases forall₂_getElem h.maps i with ⟨hnone, hplain⟩ | ⟨trie, map, htrie, hmap, hrep⟩
        · rw [hnone, hplain]
          exact .nil
        · rw [htrie, hmap]
          exact .cons hrep .nil
      · intro trie htrie
        rcases List.mem_append.mp htrie with hold | hnew
        · exact Sound.cells_subset hold
        · exact Sound.cells_subset (List.mem_of_getElem? (Option.mem_toList.mp hnew))
  | .drop i =>
      apply h.of_subset (forall₂_eraseIdx h.maps i)
      intro trie htrie
      exact Sound.cells_subset ((List.eraseIdx_sublist ..).subset htrie)
  | .insert i key value => exact h.insert i key value
  | .remove i key => exact h.remove i key
  | .getMut i key write => exact h.getMut i key write
  | .retain i keep => exact h.retain i keep
  | .thin i touched thinned gone => exact h.thin i touched thinned gone

/-- Every run keeps the tries sound. -/
theorem sound_run (hash : Atom → BitVec 64) (ops : List (Op ν)) :
    Sound hash (World.run hash ops) (plainRun ops) := by
  have hfrom : ∀ (ops : List (Op ν)) (world : World ν) (plain : List (Table Atom ν)),
      Sound hash world plain →
      Sound hash (ops.foldl (World.step hash) world) (ops.foldl plainStep plain) := by
    intro ops
    induction ops with
    | nil => exact fun _ _ h => h
    | cons op rest ih => exact fun world plain h => ih _ _ (h.step op)
  apply hfrom
  exact ⟨.nil, fun _ hc => (nomatch hc), fun _ hc => (nomatch hc)⟩

/-- Two tries on one entry: the same leaf, or none in either. -/
def shareEntry (hash : Atom → BitVec 64) (a b : AtomTrie ν) (key : Atom) : Prop :=
  (a.leaf hash key).map Arc.addr = (b.leaf hash key).map Arc.addr

/-- A trie after any run is the plain map on which the same operations were
run, whatever was done to the tries it shares cells with. -/
structure AgreesWith (hash : Atom → BitVec 64) (trie : AtomTrie ν) (plain : Table Atom ν) :
    Prop where
  get : ∀ key, trie.get hash key = plain[key]?
  len : trie.len = plain.size
  iter : trie.iter.Perm plain.toList

/-- `diff` visits each key whose entry the tries do not share once, with the
value on each side, and so every key whose values differ. -/
structure DiffersExactly (hash : Atom → BitVec 64) (a b : AtomTrie ν) (pa pb : Table Atom ν) :
    Prop where
  nodup : ((a.diff hash b).map Prod.fst).Nodup
  visits : ∀ key mine theirs, (key, mine, theirs) ∈ a.diff hash b ↔
    ¬shareEntry hash a b key ∧ mine = pa[key]? ∧ theirs = pb[key]?
  complete : ∀ key : Atom, pa[key]? ≠ pb[key]? → (key, pa[key]?, pb[key]?) ∈ a.diff hash b

/-- Every run of operations on any of the tries agrees with the same run on
plain maps. -/
theorem run_agrees [BEq ν] [ReflBEq ν] (hash : Atom → BitVec 64) (ops : List (Op ν)) :
    List.Forall₂ (AgreesWith hash) (World.run hash ops).maps (plainRun ops) ∧
    ∀ (i j : Nat) (a b : AtomTrie ν) (pa pb : Table Atom ν),
      (World.run hash ops).maps[i]? = some a → (World.run hash ops).maps[j]? = some b →
      (plainRun ops)[i]? = some pa → (plainRun ops)[j]? = some pb →
      a.eq hash b = plainEq pa pb ∧ DiffersExactly hash a b pa pb := by
  have hsound := sound_run hash ops
  constructor
  · apply hsound.maps.imp
    intro trie plain h
    exact ⟨h.get, h.len, h.iter_perm⟩
  · intro i j a b pa pb ha hb hpa hpb
    have hrep : ∀ {k : Nat} {trie : AtomTrie ν} {map : Table Atom ν},
        (World.run hash ops).maps[k]? = some trie → (plainRun ops)[k]? = some map →
        Represents hash trie map := by
      intro k trie map htrie hmap
      rcases forall₂_getElem hsound.maps k with ⟨hnone, _⟩ | ⟨t, m, ht, hm, h⟩
      · exact nomatch hnone.symm.trans htrie
      · rw [Option.some_inj.mp (htrie.symm.trans ht), Option.some_inj.mp (hmap.symm.trans hm)]
        exact h
    have hra := hrep ha hpa
    have hrb := hrep hb hpb
    have hsame : SameCells a.cells b.cells :=
      hsound.same.sublist (Sound.cells_subset (List.mem_of_getElem? ha))
        (Sound.cells_subset (List.mem_of_getElem? hb))
    refine ⟨eq_eq_plainEq hra hrb hsame, nodup_diff hra hrb hsame, ?_, ?_⟩
    · intro key mine theirs
      rw [mem_diff hra hrb hsame]
      unfold Visited
      rw [visitOf_eq_some_iff, Prod.mk.injEq, Prod.mk.injEq, ← hra.get, ← hrb.get]
      exact and_congr_right fun _ => and_iff_right rfl
    · intro key hne
      exact visit_of_get_ne hra hrb hsame hne

theorem run_agrees_colliding :
    List.Forall₂ (AgreesWith fun _ => 7#64)
      (World.run (fun _ => 7#64) [.create, .insert 0 "$a" 1, .clone 0, .insert 0 "$b" 2,
        .getMut 1 "$a" (· + 1), .remove 0 "$a", .retain 1 fun _ value => value != 2]).maps
      (plainRun [.create, .insert 0 "$a" 1, .clone 0, .insert 0 "$b" 2,
        .getMut 1 "$a" (· + 1), .remove 0 "$a", .retain 1 fun _ value => value != 2]) :=
  (run_agrees (fun _ => 7#64) [.create, .insert 0 "$a" 1, .clone 0, .insert 0 "$b" 2,
    .getMut 1 "$a" (· + 1), .remove 0 "$a", .retain 1 fun _ value => value != 2]).1

end Sound
end PhpantomLsp.Flow.Trie
