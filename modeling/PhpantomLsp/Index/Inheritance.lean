import PhpantomLsp.Lib.Runs
import PhpantomLsp.Lib.Table

/-!
# The inheritance index

`gti_index` maps a parent to the classes that name it and `gti_parents_index`
maps a class to the parents it was registered under.  Both stand for one set
of edges: `recordEdges` and `dropChildren` say what the two operations do to
that set, and `Represents` ties the two tables to it.
-/

namespace PhpantomLsp.Index

open PhpantomLsp.Lib

/-- What the index reads of a parsed class.  `cachedFqn` is the field `fqn`. -/
structure ClassInfo where
  name : String
  fileNamespace : Option String
  cachedFqn : Option String
  parentClass : Option String
  interfaces : List String
  usedTraits : List String
deriving DecidableEq, Repr

namespace ClassInfo

def computeFqn (cls : ClassInfo) : String :=
  match cls.fileNamespace with
  | some ns => if ns ≠ "" ∧ cls.name ≠ "" then ns ++ "\\" ++ cls.name else cls.name
  | none => cls.name

def fqn (cls : ClassInfo) : String := cls.cachedFqn.getD cls.computeFqn

/-- `ANONYMOUS_CLASS_PREFIX` starts the name. -/
def isAnonymous (cls : ClassInfo) : Bool := "__anonymous@".toList.isPrefixOf cls.name.toList

/-- The chain `parent_class`, `interfaces`, `used_traits`. -/
def parents (cls : ClassInfo) : List String :=
  cls.parentClass.toList ++ cls.interfaces ++ cls.usedTraits

/-- The class has edges to record. -/
def isIndexed (cls : ClassInfo) : Bool :=
  !cls.isAnonymous &&
    !(cls.parentClass.isNone && cls.interfaces.isEmpty && cls.usedTraits.isEmpty)

theorem parents_ne_nil {cls : ClassInfo} (h : cls.isIndexed = true) : cls.parents ≠ [] := by
  intro hnil
  unfold isIndexed at h
  unfold parents at hnil
  simp only [List.append_eq_nil_iff, Option.toList_eq_nil_iff] at hnil
  obtain ⟨⟨hparent, hinterfaces⟩, htraits⟩ := hnil
  simp [hparent, hinterfaces, htraits] at h

end ClassInfo

structure InheritanceIndex where
  gti : Table String (List String)
  parents : Table String (List String)

namespace InheritanceIndex

def empty : InheritanceIndex := ⟨∅, ∅⟩

def childrenOf (s : InheritanceIndex) (parent : String) : List String := filed s.gti parent

def parentsOf (s : InheritanceIndex) (child : String) : List String := filed s.parents child

/-- The loop over one class's parents holds the child's own list and the
table of child lists. -/
structure Registration where
  registered : List String
  gti : Table String (List String)

/-- One parent of `child`: the edge is deduplicated against the child's own
parents, never against the parent's children. -/
def registerParent (child : String) (r : Registration) (parent : String) : Registration :=
  if parent ∈ r.registered then r
  else { registered := r.registered ++ [parent], gti := push r.gti parent child }

def indexClass (s : InheritanceIndex) (cls : ClassInfo) : InheritanceIndex :=
  if cls.isIndexed then
    let child := cls.fqn
    let r := cls.parents.foldl (registerParent child) ⟨filed s.parents child, s.gti⟩
    { gti := r.gti, parents := s.parents.insert child r.registered }
  else s

def indexInheritance (s : InheritanceIndex) (classes : List ClassInfo) : InheritanceIndex :=
  classes.foldl indexClass s

/-- One parent that a withdrawn class was registered under. -/
def withdrawEdge (fqn : String) (gti : Table String (List String)) (parent : String) :
    Table String (List String) :=
  retainIn gti parent (fun child => child != fqn)

def withdrawClass (s : InheritanceIndex) (fqn : String) : InheritanceIndex :=
  match s.parents[fqn]? with
  | none => s
  | some parents =>
      { gti := parents.foldl (withdrawEdge fqn) s.gti, parents := s.parents.erase fqn }

def withdrawInheritance (s : InheritanceIndex) (fqns : List String) : InheritanceIndex :=
  fqns.foldl withdrawClass s

end InheritanceIndex

inductive InheritanceOp where
  | index (classes : List ClassInfo)
  | withdraw (fqns : List String)

namespace InheritanceIndex

def apply (s : InheritanceIndex) : InheritanceOp → InheritanceIndex
  | .index classes => s.indexInheritance classes
  | .withdraw fqns => s.withdrawInheritance fqns

/-- The index after a sequence of operations on an empty one. -/
def after (ops : List InheritanceOp) : InheritanceIndex := run apply empty ops

end InheritanceIndex

/-! ## The edges the index stands for -/

/-- An inheritance edge: the child, then the parent. -/
abbrev Edge := String × String

/-- The edges a class declares. -/
def classEdges (cls : ClassInfo) : Set Edge :=
  {e | cls.isIndexed = true ∧ e.1 = cls.fqn ∧ e.2 ∈ cls.parents}

def recordEdges (edges : Set Edge) (classes : List ClassInfo) : Set Edge :=
  {e | e ∈ edges ∨ ∃ cls ∈ classes, e ∈ classEdges cls}

def dropChildren (edges : Set Edge) (fqns : List String) : Set Edge :=
  {e | e ∈ edges ∧ e.1 ∉ fqns}

def applyEdges (edges : Set Edge) : InheritanceOp → Set Edge
  | .index classes => recordEdges edges classes
  | .withdraw fqns => dropChildren edges fqns

/-- Both tables hold exactly the edges of `edges`, in tidy buckets. -/
structure Represents (s : InheritanceIndex) (edges : Set Edge) : Prop where
  tidyChildren : Tidy s.gti
  tidyParents : Tidy s.parents
  mem_children : ∀ parent child, child ∈ s.childrenOf parent ↔ (child, parent) ∈ edges
  mem_parents : ∀ parent child, parent ∈ s.parentsOf child ↔ (child, parent) ∈ edges

namespace InheritanceIndex

/-! ## Registering the parents of one class -/

/-- What the loop over the parents of `child` keeps: the child's edges are the
registered ones, and every other child has the edges of `edges`. -/
structure Registering (child : String) (edges : Set Edge) (r : Registration) : Prop where
  nodup : r.registered.Nodup
  tidy : Tidy r.gti
  own : ∀ parent, child ∈ filed r.gti parent ↔ parent ∈ r.registered
  others : ∀ parent other, other ≠ child →
    (other ∈ filed r.gti parent ↔ (other, parent) ∈ edges)

theorem registering_start {s : InheritanceIndex} {edges : Set Edge} (h : Represents s edges)
    (child : String) : Registering child edges ⟨filed s.parents child, s.gti⟩ where
  nodup := nodup_filed h.tidyParents child
  tidy := h.tidyChildren
  own parent := (h.mem_children parent child).trans (h.mem_parents parent child).symm
  others parent other _ := h.mem_children parent other

theorem registering_step {child : String} {edges : Set Edge} {r : Registration}
    (h : Registering child edges r) (parent : String) :
    Registering child edges (registerParent child r parent) := by
  unfold registerParent
  by_cases hmem : parent ∈ r.registered
  · rw [if_pos hmem]
    exact h
  · rw [if_neg hmem]
    -- the child's own list decides whether the edge is new for the parent too
    have hfresh : child ∉ filed r.gti parent := fun hc => hmem ((h.own parent).mp hc)
    refine ⟨?_, tidy_push h.tidy hfresh, ?_, ?_⟩
    · show (r.registered ++ [parent]).Nodup
      exact List.nodup_append.mpr ⟨h.nodup, List.nodup_singleton parent, by
        intro x hx y hy heq
        rw [List.mem_singleton] at hy
        exact hmem (hy ▸ heq ▸ hx)⟩
    · intro p
      show child ∈ filed (push r.gti parent child) p ↔ p ∈ r.registered ++ [parent]
      rw [filed_push]
      by_cases hp : parent = p
      · simp [hp]
      · simp [hp, h.own p, Ne.symm hp]
    · intro p other hother
      show other ∈ filed (push r.gti parent child) p ↔ (other, p) ∈ edges
      rw [← h.others p other hother, filed_push]
      by_cases hp : parent = p
      · simp [hp, hother]
      · simp [hp]

theorem registering_foldl {child : String} {edges : Set Edge} {r : Registration}
    (h : Registering child edges r) (parents : List String) :
    Registering child edges (parents.foldl (registerParent child) r) := by
  induction parents generalizing r with
  | nil => exact h
  | cons parent rest ih => exact ih (registering_step h parent)

theorem mem_registered_foldl (child : String) (r : Registration) (parents : List String)
    (p : String) :
    p ∈ (parents.foldl (registerParent child) r).registered ↔
      p ∈ r.registered ∨ p ∈ parents := by
  induction parents generalizing r with
  | nil => simp
  | cons parent rest ih =>
      rw [List.foldl_cons, ih, List.mem_cons]
      unfold registerParent
      by_cases hmem : parent ∈ r.registered
      · rw [if_pos hmem]
        constructor
        · rintro (h | h)
          · exact Or.inl h
          · exact Or.inr (Or.inr h)
        · rintro (h | rfl | h)
          · exact Or.inl h
          · exact Or.inl hmem
          · exact Or.inr h
      · rw [if_neg hmem]
        simp [or_assoc]

theorem represents_indexClass {s : InheritanceIndex} {edges : Set Edge} (h : Represents s edges)
    (cls : ClassInfo) :
    Represents (s.indexClass cls) {e | e ∈ edges ∨ e ∈ classEdges cls} := by
  unfold indexClass
  by_cases hindexed : cls.isIndexed = true
  · simp only [hindexed, if_true]
    have hloop := registering_foldl (registering_start h cls.fqn) cls.parents
    have hmem := mem_registered_foldl cls.fqn ⟨filed s.parents cls.fqn, s.gti⟩ cls.parents
    generalize cls.parents.foldl (registerParent cls.fqn) ⟨filed s.parents cls.fqn, s.gti⟩ = r
      at hloop hmem
    -- the class's own edges are the registered ones, on either side
    have hown : ∀ p, p ∈ r.registered ↔
        ((cls.fqn, p) ∈ edges ∨ (cls.fqn, p) ∈ classEdges cls) := by
      intro p
      rw [hmem p]
      show p ∈ s.parentsOf cls.fqn ∨ p ∈ cls.parents ↔ _
      rw [h.mem_parents p cls.fqn]
      simp [classEdges, hindexed]
    have hother : ∀ p c, c ≠ cls.fqn →
        ((c, p) ∈ edges ↔ ((c, p) ∈ edges ∨ (c, p) ∈ classEdges cls)) := by
      intro p c hc
      simp [classEdges, hc]
    have hne : r.registered ≠ [] := by
      intro hnil
      obtain ⟨p, hp⟩ := List.exists_mem_of_ne_nil _ (ClassInfo.parents_ne_nil hindexed)
      have hreg := (hmem p).mpr (Or.inr hp)
      rw [hnil] at hreg
      exact absurd hreg List.not_mem_nil
    refine ⟨hloop.tidy, tidy_insert h.tidyParents hne hloop.nodup, ?_, ?_⟩
    · intro p c
      show c ∈ filed r.gti p ↔ _
      by_cases hc : c = cls.fqn
      · rw [hc, hloop.own p]
        exact hown p
      · rw [hloop.others p c hc]
        exact hother p c hc
    · intro p c
      show p ∈ filed (s.parents.insert cls.fqn r.registered) c ↔ _
      rw [filed_insert]
      by_cases hc : cls.fqn = c
      · rw [if_pos hc, ← hc]
        exact hown p
      · rw [if_neg hc]
        show p ∈ s.parentsOf c ↔ _
        rw [h.mem_parents p c]
        exact hother p c (Ne.symm hc)
  · simp only [hindexed]
    have hnone : {e | e ∈ edges ∨ e ∈ classEdges cls} = edges := by
      ext e
      simp [classEdges, hindexed]
    rw [hnone]
    exact h

theorem represents_indexInheritance {s : InheritanceIndex} {edges : Set Edge}
    (h : Represents s edges) (classes : List ClassInfo) :
    Represents (s.indexInheritance classes) (recordEdges edges classes) := by
  unfold indexInheritance
  induction classes generalizing s edges with
  | nil =>
      have hnone : recordEdges edges [] = edges := by
        ext e
        simp [recordEdges]
      rw [hnone]
      exact h
  | cons cls rest ih =>
      have hrest := ih (represents_indexClass h cls)
      have hsplit : recordEdges {e | e ∈ edges ∨ e ∈ classEdges cls} rest =
          recordEdges edges (cls :: rest) := by
        ext e
        simp [recordEdges, or_assoc]
      rw [hsplit] at hrest
      exact hrest

/-! ## Withdrawing a class -/

theorem tidy_withdrawEdges {gti : Table String (List String)} (h : Tidy gti) (fqn : String)
    (parents : List String) : Tidy (parents.foldl (withdrawEdge fqn) gti) := by
  induction parents generalizing gti with
  | nil => exact h
  | cons parent rest ih => exact ih (tidy_retainIn h parent _)

theorem mem_withdrawEdges (gti : Table String (List String)) (fqn : String)
    (parents : List String) (p c : String) :
    c ∈ filed (parents.foldl (withdrawEdge fqn) gti) p ↔
      c ∈ filed gti p ∧ ¬ (c = fqn ∧ p ∈ parents) := by
  induction parents generalizing gti with
  | nil => simp
  | cons parent rest ih =>
      rw [List.foldl_cons, ih]
      unfold withdrawEdge
      rw [filed_retainIn]
      by_cases hp : parent = p
      · simp only [hp, if_true, List.mem_filter, bne_iff_ne, List.mem_cons, true_or, and_true]
        constructor
        · rintro ⟨⟨hc, hne⟩, _⟩
          exact ⟨hc, hne⟩
        · rintro ⟨hc, hne⟩
          exact ⟨⟨hc, hne⟩, fun h => hne h.1⟩
      · have hp' : p ≠ parent := Ne.symm hp
        simp [hp, hp']

theorem represents_withdrawClass {s : InheritanceIndex} {edges : Set Edge}
    (h : Represents s edges) (fqn : String) :
    Represents (s.withdrawClass fqn) {e | e ∈ edges ∧ e.1 ≠ fqn} := by
  unfold withdrawClass
  cases hparents : s.parents[fqn]? with
  | none =>
      -- a class with no recorded parents has no edge to drop
      have hnone : ∀ p, (fqn, p) ∉ edges := by
        intro p hp
        have hmem := (h.mem_parents p fqn).mpr hp
        simp [parentsOf, filed, hparents] at hmem
      have hsame : {e | e ∈ edges ∧ e.1 ≠ fqn} = edges := by
        ext ⟨c, p⟩
        constructor
        · exact fun he => he.1
        · intro he
          refine ⟨he, ?_⟩
          rintro rfl
          exact hnone p he
      rw [hsame]
      exact h
  | some parents =>
      have hlist : ∀ p, p ∈ parents ↔ (fqn, p) ∈ edges := by
        intro p
        rw [← h.mem_parents p fqn, parentsOf, filed_of_get hparents]
      refine ⟨tidy_withdrawEdges h.tidyChildren fqn parents, tidy_erase h.tidyParents fqn, ?_, ?_⟩
      · intro p c
        show c ∈ filed (parents.foldl (withdrawEdge fqn) s.gti) p ↔ _
        rw [mem_withdrawEdges]
        show c ∈ s.childrenOf p ∧ _ ↔ _
        rw [h.mem_children p c, hlist p]
        constructor
        · rintro ⟨he, hnot⟩
          refine ⟨he, ?_⟩
          rintro rfl
          exact hnot ⟨rfl, he⟩
        · rintro ⟨he, hne⟩
          exact ⟨he, fun hboth => hne hboth.1⟩
      · intro p c
        show p ∈ filed (s.parents.erase fqn) c ↔ _
        rw [filed_erase]
        by_cases hc : fqn = c
        · simp [hc]
        · rw [if_neg hc]
          show p ∈ s.parentsOf c ↔ _
          rw [h.mem_parents p c]
          simp [Ne.symm hc]

theorem represents_withdrawInheritance {s : InheritanceIndex} {edges : Set Edge}
    (h : Represents s edges) (fqns : List String) :
    Represents (s.withdrawInheritance fqns) (dropChildren edges fqns) := by
  unfold withdrawInheritance
  induction fqns generalizing s edges with
  | nil =>
      have hnone : dropChildren edges [] = edges := by
        ext e
        simp [dropChildren]
      rw [hnone]
      exact h
  | cons fqn rest ih =>
      have hrest := ih (represents_withdrawClass h fqn)
      have hsplit : dropChildren {e | e ∈ edges ∧ e.1 ≠ fqn} rest =
          dropChildren edges (fqn :: rest) := by
        ext e
        simp [dropChildren, and_assoc]
      rw [hsplit] at hrest
      exact hrest

/-! ## Runs -/

theorem represents_empty : Represents empty ∅ where
  tidyChildren := tidy_empty
  tidyParents := tidy_empty
  mem_children parent child := by simp [empty, childrenOf]
  mem_parents parent child := by simp [empty, parentsOf]

theorem represents_apply (s : InheritanceIndex) (edges : Set Edge) (op : InheritanceOp)
    (h : Represents s edges) : Represents (s.apply op) (applyEdges edges op) := by
  cases op with
  | index classes => exact represents_indexInheritance h classes
  | withdraw fqns => exact represents_withdrawInheritance h fqns

theorem represents_after (ops : List InheritanceOp) :
    Represents (after ops) (run applyEdges ∅ ops) :=
  run_simulation represents_apply represents_empty ops

/-- Whatever was indexed and withdrawn before, the two tables are transposes
of each other, hold no edge twice and have no empty entry. -/
theorem gti_transposes_parents (ops : List InheritanceOp) :
    (∀ parent child, child ∈ (after ops).childrenOf parent ↔
      parent ∈ (after ops).parentsOf child) ∧
    Tidy (after ops).gti ∧ Tidy (after ops).parents := by
  have h := represents_after ops
  refine ⟨?_, h.tidyChildren, h.tidyParents⟩
  intro parent child
  exact (h.mem_children parent child).trans (h.mem_parents parent child).symm

/-- A class that is withdrawn and indexed again has the edges of its new
declaration and no other. -/
theorem parentsOf_reindexed (ops : List InheritanceOp) (cls : ClassInfo)
    (hindexed : cls.isIndexed = true) (parent : String) :
    parent ∈ (after (ops ++ [.withdraw [cls.fqn], .index [cls]])).parentsOf cls.fqn ↔
      parent ∈ cls.parents := by
  rw [(represents_after _).mem_parents, run_append]
  simp [applyEdges, recordEdges, dropChildren, classEdges, hindexed]

end InheritanceIndex

end PhpantomLsp.Index
