import PhpantomLsp.Flow.ProofMap

/-!
# Invalidation by the indexes

Writing a variable drops the proofs and the compound keys that read it, and a
call drops what it may have changed behind its receiver.  A flow state finds
both by its indexes: the mentions of its proof maps, and the compound keys of
its locals.  `Entries` is a flow state without the indexes, and its operations
look at every entry.  The two agree on every state whose maps were built by
their operations (`invalidation_eq_scan`).
-/

namespace PhpantomLsp.Flow.Invalidation

open Text Lib PhpType ProofMap

/-! ## Locals -/

/-- The types of the keys, and the keys that are not a bare variable name. -/
structure Locals where
  map : Table Atom (List ResolvedType)
  compound : Table Atom Unit

namespace Locals

variable (l : Locals)

def empty : Locals := ⟨∅, ∅⟩

def insert (key : Atom) (types : List ResolvedType) : Locals where
  map := l.map.insert key types
  compound :=
    if isCompound key && !l.compound.contains key then l.compound.insert key () else l.compound

/-- A write through `get_mut`. -/
def edit (key : Atom) (f : List ResolvedType → List ResolvedType) : Locals :=
  match l.map[key]? with
  | some types => { l with map := l.map.insert key (f types) }
  | none => l

/-- A write through `get_or_insert_default`. -/
def editOrInsert (key : Atom) (f : List ResolvedType → List ResolvedType) : Locals :=
  let l := if l.map.contains key then l else l.insert key []
  l.edit key f

def remove (key : Atom) : Locals :=
  if l.map.contains key then ⟨l.map.erase key, l.compound.erase key⟩ else l

def retainCompound (keep : Atom → Bool) : Locals :=
  if l.compound.isEmpty then l
  else
    let doomed := l.compound.keys.filter fun key => !keep key
    doomed.foldl (fun l key => l.remove key) l

inductive Step : Locals → Prop
  | insert (key : Atom) (types : List ResolvedType) : Step (l.insert key types)
  | edit (key : Atom) (f : List ResolvedType → List ResolvedType) : Step (l.edit key f)
  | editOrInsert (key : Atom) (f : List ResolvedType → List ResolvedType) :
      Step (l.editOrInsert key f)
  | remove (key : Atom) : Step (l.remove key)
  | retainCompound (keep : Atom → Bool) : Step (l.retainCompound keep)

/-- The locals come about from the empty ones. -/
def Built : Prop := Relation.ReflTransGen Step empty l

/-- The index holds the keys that are not a bare variable name, and no others. -/
def Exact : Prop :=
  ∀ key, key ∈ l.compound ↔ key ∈ l.map ∧ isCompound key = true

variable {l}

theorem mem_insert_compound (l : Locals) (key other : Atom) (types : List ResolvedType) :
    other ∈ (l.insert key types).compound ↔
      other ∈ l.compound ∨ (key = other ∧ isCompound key = true) := by
  show other ∈ (if _ then l.compound.insert key () else l.compound) ↔ _
  split
  · rename_i hnew
    rw [Bool.and_eq_true] at hnew
    rw [Std.ExtTreeMap.mem_insert, compare_eq_iff_eq]
    constructor
    · intro h
      rcases h with h | h
      · exact Or.inr ⟨h, hnew.1⟩
      · exact Or.inl h
    · intro h
      rcases h with h | h
      · exact Or.inr h
      · exact Or.inl h.1
  · rename_i hold
    constructor
    · exact Or.inl
    · intro h
      rcases h with h | ⟨hkey, hcompound⟩
      · exact h
      · rw [hcompound, Bool.true_and, Bool.not_eq_true', Bool.not_eq_false] at hold
        rw [← hkey]
        exact Std.ExtTreeMap.mem_iff_contains.mpr hold

theorem Exact.insert (h : l.Exact) (key : Atom) (types : List ResolvedType) :
    (l.insert key types).Exact := by
  intro other
  rw [mem_insert_compound, h other]
  show _ ↔ other ∈ l.map.insert key types ∧ _
  rw [Std.ExtTreeMap.mem_insert, compare_eq_iff_eq]
  by_cases hkey : key = other
  · rw [← hkey]
    simp
  · simp [hkey]

theorem Exact.edit (h : l.Exact) (key : Atom) (f : List ResolvedType → List ResolvedType) :
    (l.edit key f).Exact := by
  unfold Locals.edit
  cases hget : l.map[key]? with
  | none => exact h
  | some types =>
      have hmem : key ∈ l.map := Std.ExtTreeMap.mem_iff_isSome_getElem?.mpr (by simp [hget])
      intro other
      show other ∈ l.compound ↔ other ∈ l.map.insert key (f types) ∧ _
      rw [h other, Std.ExtTreeMap.mem_insert, compare_eq_iff_eq]
      by_cases hkey : key = other
      · rw [← hkey]
        simp [hmem]
      · simp [hkey]

theorem Exact.remove (h : l.Exact) (key : Atom) : (l.remove key).Exact := by
  unfold Locals.remove
  split
  · intro other
    show other ∈ l.compound.erase key ↔ other ∈ l.map.erase key ∧ _
    rw [Std.ExtTreeMap.mem_erase, Std.ExtTreeMap.mem_erase, h other, and_assoc]
  · exact h

theorem Exact.foldl_remove (h : l.Exact) (keys : List Atom) :
    (keys.foldl (fun l key => l.remove key) l).Exact := by
  induction keys generalizing l with
  | nil => exact h
  | cons key rest ih => exact ih (h.remove key)

theorem Exact.step (h : l.Exact) {l' : Locals} (hstep : l.Step l') : l'.Exact := by
  cases hstep with
  | insert key types => exact h.insert key types
  | edit key f => exact h.edit key f
  | editOrInsert key f =>
      unfold Locals.editOrInsert
      split
      · exact h.edit key f
      · exact (h.insert key []).edit key f
  | remove key => exact h.remove key
  | retainCompound keep =>
      unfold Locals.retainCompound
      split
      · exact h
      · exact h.foldl_remove _

theorem Built.exact (h : l.Built) : l.Exact := by
  induction h with
  | refl =>
      intro key
      simp [empty]
  | tail _ hstep ih => exact ih.step hstep

theorem remove_map (l : Locals) (key : Atom) : (l.remove key).map = l.map.erase key := by
  unfold remove
  split
  · rfl
  · rename_i hnot
    apply Eq.symm
    apply Std.ExtTreeMap.ext_getElem?
    intro a
    rw [Table.get_erase]
    split
    · rename_i ha
      rw [← ha]
      exact (Std.ExtTreeMap.getElem?_eq_none (by simpa using hnot)).symm
    · rfl

theorem foldl_remove_map (keys : List Atom) (l : Locals) :
    (keys.foldl (fun l key => l.remove key) l).map =
      keys.foldl (fun map key => map.erase key) l.map := by
  induction keys generalizing l with
  | nil => rfl
  | cons key rest ih => rw [List.foldl_cons, ih, remove_map, List.foldl_cons]

/-- Looking at the compound keys is looking at every key, for what only a
compound key can fail. -/
theorem retainCompound_eq_scan (h : l.Exact) {keep : Atom → Bool}
    (hkeep : ∀ key, keep key = false → isCompound key = true) :
    (l.retainCompound keep).map = l.map.filter fun key _ => keep key := by
  have hdoomed (a : Atom) : (a ∈ l.compound ∧ keep a = false) ↔
      ∃ types, l.map[a]? = some types ∧ keep a = false := by
    rw [h a, exists_and_right, Std.ExtTreeMap.mem_iff_isSome_getElem?, Option.isSome_iff_exists]
    constructor
    · intro ⟨hmem, hreject⟩
      exact ⟨hmem.1, hreject⟩
    · intro ⟨hmem, hreject⟩
      exact ⟨⟨hmem, hkeep a hreject⟩, hreject⟩
  unfold retainCompound
  by_cases hempty : l.compound.isEmpty = true
  · rw [if_pos hempty]
    apply @foldl_erase_eq_filter _ _ []
    intro a
    rw [← hdoomed a, Std.ExtTreeMap.isEmpty_iff.mp hempty]
    simp
  · rw [if_neg hempty, foldl_remove_map]
    apply foldl_erase_eq_filter
    intro a
    rw [← hdoomed a, List.mem_filter, Std.ExtTreeMap.mem_keys, Bool.not_eq_true']

end Locals

/-! ## The state -/

/-- An `instanceof`-style check that a boolean variable stands for. -/
structure VarAssertion where
  subject : Atom
  classType : PhpType
  alternatives : List PhpType
  negated : Bool
  exact : Bool
  allowString : Bool

/-- The `preg_match` outcome a variable holds the result of. -/
structure PregOutcome where
  matchesVar : Atom
  matched : PhpType
  matchesAll : Bool

structure KeyFacts where
  existingKeys : List (Atom × Atom)
  keySetAliases : List (Atom × Atom)

/-- Which of the keys read through an object a call on it invalidates. -/
inductive MemberInvalidation where
  | calls
  | members (kept : List Atom)

instance : ProofItem VarAssertion := ⟨fun check => some check.subject⟩
instance : ProofItem Atom := ⟨some⟩
instance : ProofItem ImpliedNarrowing := ⟨fun proof => some proof.key⟩
instance : ProofItem PhpType := ⟨fun _ => none⟩
instance : ProofSubjects PregOutcome := ⟨fun outcome => [outcome.matchesVar]⟩

/-- A flow state, with what an invalidation reads of it. -/
structure ScopeState (ε η : Type) where
  locals : Locals
  assertions : ProofMap (List VarAssertion)
  nonNullImplications : ProofMap (List Atom)
  impliedNarrowings : ProofMap (List ImpliedNarrowing)
  pregOutcomes : ProofMap PregOutcome
  ruledOut : ProofMap (List PhpType)
  closureCaptures : Table Atom ε
  closureLiterals : Table Atom η
  keyFacts : Option KeyFacts

/-- `retain_key_facts` -/
def retainKeyFacts (facts : Option KeyFacts) (keepKey : Atom → Atom → Bool)
    (keepSide : Atom → Bool) : Option KeyFacts :=
  match facts with
  | none => none
  | some facts =>
      let existingKeys := facts.existingKeys.filter fun (s, k) => keepKey s k
      let keySetAliases := facts.keySetAliases.filter fun (a, b) => keepSide a && keepSide b
      if existingKeys.isEmpty && keySetAliases.isEmpty then none
      else some ⟨existingKeys, keySetAliases⟩

/-- What a write to the variable makes stale. -/
def stale (varName subject : Atom) : Bool :=
  subject == varName || keyReadsVariable subject varName

/-- What a call on the receiver, itself under the key `made`, may have changed. -/
def readsReceiver (receiver : Atom) (made : Option Atom) (members : MemberInvalidation)
    (key : Atom) : Bool :=
  key != receiver && some key != made && !made.any (fun made => keyReadsVariable key made) &&
    keyReadsVariable key receiver &&
    match members with
    | .calls => isCallKey key
    | .members kept => !kept.contains key

section State

variable {ε η : Type}

namespace ScopeState

variable (s : ScopeState ε η)

/-- `drop_proofs` -/
def dropProofs (key varName : Atom) (stale : Atom → Bool) : ScopeState ε η :=
  { s with
    assertions :=
      if s.assertions.map.isEmpty then s.assertions
      else (s.assertions.remove key).retainItemsMentioning varName fun c => !stale c.subject
    nonNullImplications :=
      if s.nonNullImplications.map.isEmpty then s.nonNullImplications
      else (s.nonNullImplications.remove key).retainMentioning varName fun holder implied =>
        !stale holder && !implied.any stale
    impliedNarrowings :=
      if s.impliedNarrowings.map.isEmpty then s.impliedNarrowings
      else (s.impliedNarrowings.remove key).retainMentioning varName fun holder narrowed =>
        !stale holder && !narrowed.any fun proof => stale proof.key
    pregOutcomes :=
      if s.pregOutcomes.map.isEmpty then s.pregOutcomes
      else (s.pregOutcomes.remove key).retainMentioning varName fun holder outcome =>
        !stale holder && !stale outcome.matchesVar }

def invalidateProofs (varName : Atom) : ScopeState ε η :=
  let s := { s with
    closureCaptures := s.closureCaptures.erase varName
    closureLiterals := s.closureLiterals.erase varName }
  let s := s.dropProofs varName varName (stale varName)
  { s with
    ruledOut :=
      if s.ruledOut.map.isEmpty then s.ruledOut
      else s.ruledOut.retainMentioning varName fun subject _ => !stale varName subject
    keyFacts := retainKeyFacts s.keyFacts
      (fun subject keyVar => !stale varName subject && keyVar != varName)
      fun side => !stale varName side }

def invalidateDependentKeys (varName : Atom) : ScopeState ε η :=
  { s with locals := s.locals.retainCompound fun key => !keyReadsVariable key varName }

def invalidateReceiverState (receiver : Atom) (made : Option Atom) (members : MemberInvalidation) :
    ScopeState ε η :=
  let reads := readsReceiver receiver made members
  { s with
    locals := s.locals.retainCompound fun key => !reads key
    nonNullImplications := s.nonNullImplications.retainMentioning receiver fun _ implied =>
      !implied.any reads
    impliedNarrowings := s.impliedNarrowings.retainMentioning receiver fun _ narrowed =>
      !narrowed.any fun proof => reads proof.key
    assertions := s.assertions.retainItemsMentioning receiver fun c => !reads c.subject }

/-- The maps of the state come about from the empty ones. -/
structure Built : Prop where
  locals : s.locals.Built
  assertions : s.assertions.ListBuilt
  nonNullImplications : s.nonNullImplications.ListBuilt
  impliedNarrowings : s.impliedNarrowings.ListBuilt
  pregOutcomes : s.pregOutcomes.Built
  ruledOut : s.ruledOut.ListBuilt

/-- The indexes of the state miss nothing. -/
structure Indexed : Prop where
  locals : s.locals.Exact
  assertions : s.assertions.Indexed
  nonNullImplications : s.nonNullImplications.Indexed
  impliedNarrowings : s.impliedNarrowings.Indexed
  pregOutcomes : s.pregOutcomes.Indexed
  ruledOut : s.ruledOut.Indexed

theorem Built.indexed {s : ScopeState ε η} (h : s.Built) : s.Indexed where
  locals := h.locals.exact
  assertions := h.assertions.indexed
  nonNullImplications := h.nonNullImplications.indexed
  impliedNarrowings := h.impliedNarrowings.indexed
  pregOutcomes := h.pregOutcomes.indexed
  ruledOut := h.ruledOut.indexed

end ScopeState

/-! ## The same, looking at every entry -/

/-- A flow state without its indexes. -/
@[ext]
structure Entries (ε η : Type) where
  locals : Table Atom (List ResolvedType)
  assertions : Table Atom (List VarAssertion)
  nonNullImplications : Table Atom (List Atom)
  impliedNarrowings : Table Atom (List ImpliedNarrowing)
  pregOutcomes : Table Atom PregOutcome
  ruledOut : Table Atom (List PhpType)
  closureCaptures : Table Atom ε
  closureLiterals : Table Atom η
  keyFacts : Option KeyFacts

def ScopeState.entries (s : ScopeState ε η) : Entries ε η where
  locals := s.locals.map
  assertions := s.assertions.map
  nonNullImplications := s.nonNullImplications.map
  impliedNarrowings := s.impliedNarrowings.map
  pregOutcomes := s.pregOutcomes.map
  ruledOut := s.ruledOut.map
  closureCaptures := s.closureCaptures
  closureLiterals := s.closureLiterals
  keyFacts := s.keyFacts

namespace Entries

variable (e : Entries ε η)

def scanProofs (varName : Atom) : Entries ε η :=
  let gone := stale varName
  { e with
    assertions := scanItems (fun c => !gone c.subject) (e.assertions.erase varName)
    nonNullImplications := (e.nonNullImplications.erase varName).filter fun holder implied =>
      !gone holder && !implied.any gone
    impliedNarrowings := (e.impliedNarrowings.erase varName).filter fun holder narrowed =>
      !gone holder && !narrowed.any fun proof => gone proof.key
    pregOutcomes := (e.pregOutcomes.erase varName).filter fun holder outcome =>
      !gone holder && !gone outcome.matchesVar
    ruledOut := e.ruledOut.filter fun subject _ => !gone subject
    closureCaptures := e.closureCaptures.erase varName
    closureLiterals := e.closureLiterals.erase varName
    keyFacts := retainKeyFacts e.keyFacts (fun subject keyVar => !gone subject && keyVar != varName)
      fun side => !gone side }

def scanDependentKeys (varName : Atom) : Entries ε η :=
  { e with locals := e.locals.filter fun key _ => !keyReadsVariable key varName }

def scanReceiverState (receiver : Atom) (made : Option Atom) (members : MemberInvalidation) :
    Entries ε η :=
  let reads := readsReceiver receiver made members
  { e with
    locals := e.locals.filter fun key _ => !reads key
    nonNullImplications := e.nonNullImplications.filter fun _ implied => !implied.any reads
    impliedNarrowings := e.impliedNarrowings.filter fun _ narrowed =>
      !narrowed.any fun proof => reads proof.key
    assertions := scanItems (fun c => !reads c.subject) e.assertions }

end Entries

/-! ## What is rejected spells the variable -/

theorem spells_of_stale {varName subject token : Atom} (htoken : firstVariable varName = some token)
    (h : stale varName subject = true) : token ∈ eachVariable subject := by
  apply firstVariable_mem htoken
  simpa [stale] using h

theorem reads_of_readsReceiver {receiver key : Atom} {made : Option Atom}
    {members : MemberInvalidation} (h : readsReceiver receiver made members key = true) :
    keyReadsVariable key receiver = true := by
  simp only [readsReceiver, Bool.and_eq_true] at h
  exact h.1.2

section Keeps

variable {varName : Atom} {gone : Atom → Bool}
  (hgone : ∀ token, firstVariable varName = some token → ∀ key, gone key = true →
    token ∈ eachVariable key)

include hgone

/-- Entries rejected for their holder or one of their subjects. -/
theorem keepsUnspelled {ν : Type} [ProofSubjects ν] {keep : Atom → ν → Bool}
    (hkeep : ∀ holder value, keep holder value = false →
      gone holder = true ∨ ∃ subject ∈ ProofSubjects.subjects value, gone subject = true) :
    KeepsUnspelled varName keep := by
  intro token htoken holder value hreject
  rcases hkeep holder value hreject with h | ⟨subject, hsubject, h⟩
  · exact List.mem_append_left _ (hgone token htoken holder h)
  · exact List.mem_append_right _
      (List.mem_flatMap.mpr ⟨subject, hsubject, hgone token htoken subject h⟩)

/-- Lists rejected for their holder or the subject of an item. -/
theorem keepsUnspelled_list {τ : Type} [ProofItem τ] {subject : τ → Atom}
    (hsubject : ∀ item, ProofItem.subject item = some (subject item))
    {keep : Atom → List τ → Bool}
    (hkeep : ∀ holder items, keep holder items = false →
      gone holder = true ∨ items.any (fun item => gone (subject item)) = true) :
    KeepsUnspelled varName keep := by
  apply keepsUnspelled hgone
  intro holder items hreject
  rcases hkeep holder items hreject with h | h
  · exact Or.inl h
  · have ⟨item, hitem, hstale⟩ := List.any_eq_true.mp h
    exact Or.inr ⟨subject item, List.mem_filterMap.mpr ⟨item, hitem, hsubject item⟩, hstale⟩

/-- Items rejected for their subject. -/
theorem keepsUnspelledItems {τ : Type} [ProofItem τ] {subject : τ → Atom}
    (hsubject : ∀ item, ProofItem.subject item = some (subject item)) :
    KeepsUnspelledItems varName fun item => !gone (subject item) := by
  intro token htoken item hreject
  rw [Bool.not_eq_false'] at hreject
  exact ⟨subject item, hsubject item, hgone token htoken _ hreject⟩

end Keeps

/-! ## Going by the indexes -/

theorem dropProofs_entry {ν : Type} [ProofSubjects ν] {m : ProofMap ν} (h : m.Indexed)
    {key varName : Atom} {keep : Atom → ν → Bool} (hkeep : KeepsUnspelled varName keep) :
    (if m.map.isEmpty then m else (m.remove key).retainMentioning varName keep).map =
      (m.map.erase key).filter keep := by
  split
  · rename_i hempty
    rw [Std.ExtTreeMap.isEmpty_iff.mp hempty]
    apply Std.ExtTreeMap.ext_getElem?
    intro a
    rw [get_filter, Table.get_erase, Table.get_empty, ite_self]
    rfl
  · exact retainMentioning_eq_scan (h.remove key) hkeep

theorem dropProofs_items {τ : Type} [ProofItem τ] {m : ProofMap (List τ)} (h : m.Indexed)
    {key varName : Atom} {keep : τ → Bool} (hkeep : KeepsUnspelledItems varName keep) :
    (if m.map.isEmpty then m else (m.remove key).retainItemsMentioning varName keep).map =
      scanItems keep (m.map.erase key) := by
  split
  · rename_i hempty
    rw [Std.ExtTreeMap.isEmpty_iff.mp hempty]
    apply Std.ExtTreeMap.ext_getElem?
    intro a
    rw [get_scanItems, Table.get_erase, Table.get_empty, ite_self]
    rfl
  · exact retainItemsMentioning_eq_scan (h.remove key) hkeep

theorem guarded_retain {ν : Type} [ProofSubjects ν] {m : ProofMap ν} (h : m.Indexed)
    {varName : Atom} {keep : Atom → ν → Bool} (hkeep : KeepsUnspelled varName keep) :
    (if m.map.isEmpty then m else m.retainMentioning varName keep).map = m.map.filter keep := by
  split
  · rename_i hempty
    rw [Std.ExtTreeMap.isEmpty_iff.mp hempty]
    apply Std.ExtTreeMap.ext_getElem?
    intro a
    rw [get_filter, Table.get_empty]
    rfl
  · exact retainMentioning_eq_scan h hkeep

section Scans

variable {s : ScopeState ε η} (h : s.Indexed)

include h

theorem invalidateProofs_eq_scan (varName : Atom) :
    (s.invalidateProofs varName).entries = s.entries.scanProofs varName := by
  have hgone (token : Atom) (htoken : firstVariable varName = some token) (key : Atom)
      (hkey : stale varName key = true) : token ∈ eachVariable key :=
    spells_of_stale htoken hkey
  have hsplit {a b : Bool} (h : (!a && !b) = false) : a = true ∨ b = true := by
    revert a b
    decide
  apply Entries.ext
  · rfl
  · exact dropProofs_items h.assertions (keepsUnspelledItems hgone fun _ => rfl)
  · exact dropProofs_entry h.nonNullImplications
      (keepsUnspelled_list hgone (fun _ => rfl) fun _ _ => hsplit)
  · exact dropProofs_entry h.impliedNarrowings
      (keepsUnspelled_list hgone (fun _ => rfl) fun _ _ => hsplit)
  · apply dropProofs_entry h.pregOutcomes
    apply keepsUnspelled hgone
    intro holder outcome hreject
    rcases hsplit hreject with hstale | hstale
    · exact Or.inl hstale
    · exact Or.inr ⟨outcome.matchesVar, List.mem_singleton_self _, hstale⟩
  · apply guarded_retain h.ruledOut
    apply keepsUnspelled hgone
    intro holder types hreject
    exact Or.inl (by simpa using hreject)
  · rfl
  · rfl
  · rfl

theorem invalidateDependentKeys_eq_scan (varName : Atom) :
    (s.invalidateDependentKeys varName).entries = s.entries.scanDependentKeys varName := by
  apply Entries.ext
  · apply Locals.retainCompound_eq_scan h.locals
    intro key hreject
    rw [Bool.not_eq_false'] at hreject
    exact isCompound_of_keyReadsVariable hreject
  all_goals rfl

theorem invalidateReceiverState_eq_scan (receiver : Atom) (made : Option Atom)
    (members : MemberInvalidation) :
    (s.invalidateReceiverState receiver made members).entries =
      s.entries.scanReceiverState receiver made members := by
  have hgone (token : Atom) (htoken : firstVariable receiver = some token) (key : Atom)
      (hkey : readsReceiver receiver made members key = true) : token ∈ eachVariable key :=
    firstVariable_mem htoken (Or.inr (reads_of_readsReceiver hkey))
  apply Entries.ext
  · apply Locals.retainCompound_eq_scan h.locals
    intro key hreject
    rw [Bool.not_eq_false'] at hreject
    exact isCompound_of_keyReadsVariable (reads_of_readsReceiver hreject)
  · exact retainItemsMentioning_eq_scan h.assertions (keepsUnspelledItems hgone fun _ => rfl)
  · apply retainMentioning_eq_scan h.nonNullImplications
    apply keepsUnspelled_list hgone fun _ => rfl
    intro holder items hreject
    exact Or.inr (by simpa using hreject)
  · apply retainMentioning_eq_scan h.impliedNarrowings
    apply keepsUnspelled_list hgone fun _ => rfl
    intro holder items hreject
    exact Or.inr (by simpa using hreject)
  all_goals rfl

end Scans

/-! ## Runs -/

theorem dropped_listBuilt {τ : Type} [ProofItem τ] {m : ProofMap (List τ)} (h : m.ListBuilt)
    {m' : ProofMap (List τ)} {key : Atom} (hstep : ListStep (m.remove key) m') :
    ListBuilt (if m.map.isEmpty then m else m') := by
  split
  · exact h
  · exact (h.tail (.step (.remove key))).tail hstep

/-- The state after an invalidation is again built by the operations. -/
theorem ScopeState.Built.invalidateProofs {s : ScopeState ε η} (h : s.Built) (varName : Atom) :
    (s.invalidateProofs varName).Built where
  locals := h.locals
  assertions := dropped_listBuilt h.assertions (.retainItemsMentioning _ _)
  nonNullImplications :=
    dropped_listBuilt h.nonNullImplications (.step (.retainMentioning _ _))
  impliedNarrowings := dropped_listBuilt h.impliedNarrowings (.step (.retainMentioning _ _))
  pregOutcomes := by
    show ProofMap.Built (if _ then _ else _)
    split
    · exact h.pregOutcomes
    · exact (h.pregOutcomes.tail (.remove _)).tail (.retainMentioning _ _)
  ruledOut := by
    show ListBuilt (if _ then _ else _)
    split
    · exact h.ruledOut
    · exact h.ruledOut.tail (.step (.retainMentioning _ _))

theorem ScopeState.Built.invalidateDependentKeys {s : ScopeState ε η} (h : s.Built)
    (varName : Atom) : (s.invalidateDependentKeys varName).Built :=
  { h with locals := h.locals.tail (.retainCompound _) }

theorem ScopeState.Built.invalidateReceiverState {s : ScopeState ε η} (h : s.Built)
    (receiver : Atom) (made : Option Atom) (members : MemberInvalidation) :
    (s.invalidateReceiverState receiver made members).Built :=
  { h with
    locals := h.locals.tail (.retainCompound _)
    nonNullImplications := h.nonNullImplications.tail (.step (.retainMentioning _ _))
    impliedNarrowings := h.impliedNarrowings.tail (.step (.retainMentioning _ _))
    assertions := h.assertions.tail (.retainItemsMentioning _ _) }

/-- In a state whose maps were built by their operations, the indexes miss
nothing and going by them removes what a look at every entry would. -/
theorem invalidation_eq_scan (s : ScopeState ε η) (h : s.Built) :
    s.Indexed ∧
      (∀ varName, (s.invalidateProofs varName).entries = s.entries.scanProofs varName) ∧
      (∀ varName,
        (s.invalidateDependentKeys varName).entries = s.entries.scanDependentKeys varName) ∧
      ∀ receiver made members,
        (s.invalidateReceiverState receiver made members).entries =
          s.entries.scanReceiverState receiver made members :=
  ⟨h.indexed, invalidateProofs_eq_scan h.indexed, invalidateDependentKeys_eq_scan h.indexed,
    invalidateReceiverState_eq_scan h.indexed⟩

/-- `$ok` stands for a check of `$raw`, and `$raw->id` has a type. -/
theorem invalidation_eq_scan_checked :
    let s : ScopeState Unit Unit :=
      { locals := Locals.empty.insert "$raw->id" []
        assertions := empty.pushUnique "$ok" ⟨"$raw", PhpType.null, [], false, false, false⟩
          fun _ _ => false
        nonNullImplications := empty
        impliedNarrowings := empty
        pregOutcomes := empty
        ruledOut := empty
        closureCaptures := ∅
        closureLiterals := ∅
        keyFacts := none }
    (s.invalidateProofs "$raw").entries = s.entries.scanProofs "$raw" := by
  intro s
  have hbuilt : s.Built :=
    { locals := .single (.insert _ _)
      assertions := .single (.pushUnique _ _ fun _ _ => false)
      nonNullImplications := .refl
      impliedNarrowings := .refl
      pregOutcomes := .refl
      ruledOut := .refl }
  exact (invalidation_eq_scan s hbuilt).2.1 "$raw"

end State

end PhpantomLsp.Flow.Invalidation
