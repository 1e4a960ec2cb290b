import PhpantomLsp.Flow.DisjointHashes
import PhpantomLsp.Flow.Proofs
import PhpantomLsp.Lib.FirstIndex

/-!
# Lists of proofs that are looked up

A join asks a holder's list of proofs, again and again, whether it has one about
a key with the same types or with the same trigger.  Once the list is long, the
first proof of each fingerprint is noted, the first time the list is asked, and
from then on as the list grows.  What a fingerprint is hashed from is the key and
the part, so the index is one of first occurrences (`ProofIndex.Right`), and it
answers as a scan of the list.
-/

namespace PhpantomLsp.Flow

open Lib PhpType

/-! ## Fingerprints -/

/-- The part of a proof an index finds it by, besides its key. -/
inductive ProofPart where
  | types
  | trigger
  deriving DecidableEq

/-- One write to the hasher of a fingerprint. -/
inductive FingerprintWrite where
  | key (key : Atom)
  | discriminant (n : Nat)
  /-- The address of an interned type. -/
  | node (ty : PhpType)
  | classInfo (allocation : Option Nat)

/-- What a hasher makes of the writes it saw. -/
class FingerprintHasher where
  finish : List FingerprintWrite → UInt64

def typeWrites (types : List ResolvedType) : List FingerprintWrite :=
  types.flatMap fun rt => [.node rt.typeString, .classInfo rt.classInfo]

def ProofPart.writes (part : ProofPart) (proof : ImpliedNarrowing) : List FingerprintWrite :=
  .key proof.key ::
    match part with
    | .types => typeWrites proof.types
    | .trigger =>
        match proof.trigger with
        | .nonNull => [.discriminant 0]
        | .within asked => .discriminant 1 :: typeWrites asked
        | .outside asked => .discriminant 2 :: typeWrites asked

/-- Whether the indexed part of two proofs is the same. -/
def ProofPart.same : ProofPart → ImpliedNarrowing → ImpliedNarrowing → Bool
  | .types, p, proof => sameTypes p.types proof.types
  | .trigger, p, proof => sameTrigger p.trigger proof.trigger

section

variable [FingerprintHasher]

def ProofPart.fingerprint (part : ProofPart) (proof : ImpliedNarrowing) : UInt64 :=
  FingerprintHasher.finish (part.writes proof)

/-! ## The index -/

/-- Which proofs of a list have which part: nothing before the list is asked. -/
structure ProofIndex where
  part : ProofPart
  first : Option (Table UInt64 Nat)

def ProofIndex.new (part : ProofPart) : ProofIndex := ⟨part, none⟩

/-- `FROM_LEN` -/
def fromLen : Nat := 16

/-- `note_last`, of the proof just put at the end of `items`. -/
def ProofIndex.noteLast (index : ProofIndex) (items : List ImpliedNarrowing) : ProofIndex :=
  match index.first, items.getLast? with
  | some first, some proof =>
      { index with
        first := some (noteFirst first (index.part.fingerprint proof) (items.length - 1)) }
  | _, _ => index

/-- `any`: the answer, and the index as it is left. -/
def ProofIndex.any (index : ProofIndex) (items : List ImpliedNarrowing) (probe : ImpliedNarrowing)
    (same : ImpliedNarrowing → Bool) : Bool × ProofIndex :=
  let accepts (item : ImpliedNarrowing) : Bool := item.key == probe.key && same item
  if items.length < fromLen then (items.any accepts, index)
  else
    let first := index.first.getD (firstOf index.part.fingerprint items)
    (lookUp first items (index.part.fingerprint probe) accepts, { index with first := some first })

/-! ## The list a join builds -/

structure ProofList where
  items : List ImpliedNarrowing
  index : ProofIndex

def ProofList.of (items : List ImpliedNarrowing) : ProofList := ⟨items, ProofIndex.new .trigger⟩

def ProofList.asksTheSameAs (list : ProofList) (proof : ImpliedNarrowing) : Bool × ProofList :=
  let answer := list.index.any list.items proof fun p => sameTrigger p.trigger proof.trigger
  (answer.1, { list with index := answer.2 })

def ProofList.push (list : ProofList) (proof : ImpliedNarrowing) : ProofList :=
  let items := list.items ++ [proof]
  ⟨items, list.index.noteLast items⟩

def ProofList.pushUnique (list : ProofList) (proof : ImpliedNarrowing) : ProofList :=
  let asked := list.asksTheSameAs proof
  if asked.1 then asked.2 else asked.2.push proof

/-- What a join does to a list. -/
inductive ProofListOp where
  | push (proof : ImpliedNarrowing)
  | pushUnique (proof : ImpliedNarrowing)
  | asksTheSameAs (proof : ImpliedNarrowing)

def ProofList.step (list : ProofList) : ProofListOp → ProofList
  | .push proof => list.push proof
  | .pushUnique proof => list.pushUnique proof
  | .asksTheSameAs proof => (list.asksTheSameAs proof).2

/-! ## The index is right -/

/-- Nothing is noted, or the first place of every fingerprint. -/
def ProofIndex.Right (index : ProofIndex) (items : List ImpliedNarrowing) : Prop :=
  ∀ first, index.first = some first → Indexes index.part.fingerprint items first

theorem ProofIndex.right_new (part : ProofPart) (items : List ImpliedNarrowing) :
    (ProofIndex.new part).Right items :=
  fun _ h => absurd h (by simp [ProofIndex.new])

theorem ProofIndex.Right.noteLast {index : ProofIndex} {items : List ImpliedNarrowing}
    (h : index.Right items) (proof : ImpliedNarrowing) :
    (index.noteLast (items ++ [proof])).Right (items ++ [proof]) := by
  unfold ProofIndex.noteLast
  cases hfirst : index.first with
  | none =>
      intro first hsome
      rw [hfirst] at hsome
      exact absurd hsome (by simp)
  | some known =>
      rw [List.getLast?_concat]
      intro first hsome
      rw [← Option.some.inj hsome, List.length_append, List.length_singleton, Nat.add_sub_cancel]
      exact (h known hfirst).concat proof

theorem ProofIndex.Right.any {index : ProofIndex} {items : List ImpliedNarrowing}
    (h : index.Right items) (probe : ImpliedNarrowing) (same : ImpliedNarrowing → Bool) :
    (index.any items probe same).2.Right items := by
  unfold ProofIndex.any
  split
  · exact h
  · intro first hsome
    rw [← Option.some.inj hsome]
    cases hfirst : index.first with
    | none => exact indexes_firstOf _ _
    | some known => exact h known hfirst

/-- Proofs about one key with the same part have the same fingerprint. -/
theorem fingerprint_of_same {part : ProofPart} {p proof : ImpliedNarrowing} (hkey : p.key = proof.key)
    (hsame : part.same p proof = true) : part.fingerprint p = part.fingerprint proof := by
  unfold ProofPart.fingerprint ProofPart.writes
  cases part with
  | types => rw [hkey, sameTypes_iff.mp hsame]
  | trigger => rw [hkey, sameTrigger_iff.mp hsame]

/-- An index that is right answers as a scan. -/
theorem ProofIndex.any_eq {index : ProofIndex} {items : List ImpliedNarrowing}
    (h : index.Right items) {probe : ImpliedNarrowing} {same : ImpliedNarrowing → Bool}
    (hsame : ∀ p, same p = true → index.part.same p probe = true) :
    (index.any items probe same).1 = items.any fun item => item.key == probe.key && same item := by
  unfold ProofIndex.any
  split
  · rfl
  · have hfirst : Indexes index.part.fingerprint items
        (index.first.getD (firstOf index.part.fingerprint items)) := by
      cases hnoted : index.first with
      | none => exact indexes_firstOf _ _
      | some known => exact h known hnoted
    apply any_of_indexes hfirst
    intro item haccepts
    rw [Bool.and_eq_true, beq_iff_eq] at haccepts
    exact fingerprint_of_same haccepts.1 (hsame item haccepts.2)

@[simp] theorem ProofIndex.part_any (index : ProofIndex) (items : List ImpliedNarrowing)
    (probe : ImpliedNarrowing) (same : ImpliedNarrowing → Bool) :
    (index.any items probe same).2.part = index.part := by
  unfold ProofIndex.any
  split <;> rfl

@[simp] theorem ProofIndex.part_noteLast (index : ProofIndex) (items : List ImpliedNarrowing) :
    (index.noteLast items).part = index.part := by
  unfold ProofIndex.noteLast
  split <;> rfl

/-! ## Every list a join builds -/

/-- An index by triggers that is right. -/
structure ProofList.Right (list : ProofList) : Prop where
  part : list.index.part = .trigger
  right : list.index.Right list.items

theorem ProofList.right_of (items : List ImpliedNarrowing) : (ProofList.of items).Right :=
  ⟨rfl, ProofIndex.right_new _ _⟩

theorem ProofList.Right.asksTheSameAs {list : ProofList} (h : list.Right)
    (proof : ImpliedNarrowing) : (list.asksTheSameAs proof).2.Right where
  part := by
    rw [ProofList.asksTheSameAs, ProofIndex.part_any]
    exact h.part
  right := h.right.any proof _

theorem ProofList.Right.push {list : ProofList} (h : list.Right) (proof : ImpliedNarrowing) :
    (list.push proof).Right where
  part := by
    rw [ProofList.push, ProofIndex.part_noteLast]
    exact h.part
  right := h.right.noteLast proof

theorem ProofList.Right.step {list : ProofList} (h : list.Right) (op : ProofListOp) :
    (list.step op).Right := by
  cases op with
  | push proof => exact h.push proof
  | asksTheSameAs proof => exact h.asksTheSameAs proof
  | pushUnique proof =>
      show (list.pushUnique proof).Right
      unfold ProofList.pushUnique
      simp only
      split
      · exact h.asksTheSameAs proof
      · exact (h.asksTheSameAs proof).push proof

/-- Whatever is put in and asked, the index stays right. -/
theorem ProofList.Right.run {list : ProofList} (h : list.Right) (ops : List ProofListOp) :
    (ops.foldl ProofList.step list).Right := by
  induction ops generalizing list with
  | nil => exact h
  | cons op ops ih => exact ih (h.step op)

/-- A list built by a join answers as a scan for the same trigger. -/
theorem ProofList.asksTheSameAs_eq {list : ProofList} (h : list.Right) (proof : ImpliedNarrowing) :
    (list.asksTheSameAs proof).1 = Flow.asksTheSameAs list.items proof := by
  apply ProofIndex.any_eq h.right
  intro p hsame
  rw [h.part]
  exact hsame

/-- An index that was asked before, about a list that did not change. -/
def ProofIndex.asked (index : ProofIndex) (items : List ImpliedNarrowing)
    (probes : List ImpliedNarrowing) : ProofIndex :=
  probes.foldl (fun index probe => (index.any items probe fun p => index.part.same p probe).2) index

theorem ProofIndex.right_asked {index : ProofIndex} {items : List ImpliedNarrowing}
    (h : index.Right items) (probes : List ImpliedNarrowing) :
    (index.asked items probes).Right items ∧ (index.asked items probes).part = index.part := by
  unfold ProofIndex.asked
  induction probes generalizing index with
  | nil => exact ⟨h, rfl⟩
  | cons probe probes ih =>
      have hnext := ih (h.any probe fun p => index.part.same p probe)
      rw [ProofIndex.part_any] at hnext
      exact hnext

/-- **The shortcuts of a join are exact**: a list with its literals hashed answers as
`types_are_disjoint`, the hashed comparison of two lists of literals as the pairwise
one, and an index by either part of the proofs of a list, however the list was built
and whatever the index was asked before, as a scan of the list. -/
theorem shortcuts_exact [DedupHasher] :
    (∀ a b : List ResolvedType, disjointFrom a b = typesAreDisjoint a b) ∧
    (∀ x y : PhpType,
      hashedDisjoint (literalsOf (alternatives x)) (literalsOf (alternatives y)) =
        pairsDisjoint (literalsOf (alternatives x)) (literalsOf (alternatives y)) ∧
      disjointAlternatives x y = PhpType.disjoint x y) ∧
    ∀ (items : List ImpliedNarrowing) (ops : List ProofListOp) (probe : ImpliedNarrowing),
      let list := ops.foldl ProofList.step (ProofList.of items)
      (list.asksTheSameAs probe).1 =
          (list.items.any fun p => p.key == probe.key && sameTrigger p.trigger probe.trigger) ∧
      ∀ (part : ProofPart) (probes : List ImpliedNarrowing),
        (((ProofIndex.new part).asked list.items probes).any list.items probe
            fun p => part.same p probe).1 =
          list.items.any fun p => p.key == probe.key && part.same p probe := by
  refine ⟨disjointFrom_eq, ?_, ?_⟩
  · intro x y
    refine ⟨hashedDisjoint_eq ?_ ?_, disjointAlternatives_eq x y⟩
    · exact fun p hp => (mem_literalsOf.mp hp).2
    · exact fun q hq => (mem_literalsOf.mp hq).2
  · intro items ops probe list
    constructor
    · exact ProofList.asksTheSameAs_eq ((ProofList.right_of items).run ops) probe
    · intro part probes
      have hasked := ProofIndex.right_asked (ProofIndex.right_new part list.items) probes
      apply ProofIndex.any_eq hasked.1
      intro p hsame
      rw [hasked.2]
      exact hsame

end

end PhpantomLsp.Flow
