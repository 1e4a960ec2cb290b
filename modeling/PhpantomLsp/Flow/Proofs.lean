import PhpantomLsp.Flow.Disjoint
import PhpantomLsp.Lib.Table
import PhpantomLsp.Lib.ZipAll

/-!
# What a flow state proves, and what a join keeps of it

Beside the types of its keys a flow state holds exclusions, non-null
implications and implied narrowings.  Where two paths meet, a proof survives
when it is true of both, and the join learns new ones from the keys the paths
disagree about: a value only one of the paths can have left shows which of the
two was taken.

Two maps that were cloned from one another are compared by what they share, so
a comparison visits the keys whose entries were stored separately.  These are
all the keys that differ, and `Visits` holds nothing else about them.
-/

namespace PhpantomLsp.Flow

open Text Lib PhpType

/-! ## The state -/

/-- What has to be shown about a proof's holder before the proof applies. -/
inductive ProofTrigger where
  | nonNull
  | within (types : List ResolvedType)
  | outside (types : List ResolvedType)
  deriving DecidableEq

/-- What a branch proved about one key. -/
structure ImpliedNarrowing where
  trigger : ProofTrigger
  key : Atom
  types : List ResolvedType
  deriving DecidableEq

/-- The proofs a state carries beside its types. -/
structure Proofs where
  nonNullImplications : Table Atom (List Atom)
  impliedNarrowings : Table Atom (List ImpliedNarrowing)
  /-- The types a key has been shown not to be. -/
  ruledOut : Table Atom (List PhpType)

/-- What is known at one point of a program.  The fields the proofs do not
read are only ever compared as a whole. -/
structure ScopeState (ρ : Type) extends Proofs where
  locals : Table Atom (List ResolvedType)
  unresolved : Table Atom Unit
  rest : ρ
  unreachable : Bool

/-- The keys a comparison of two maps visits. -/
structure Visits {ν : Type} (a b : Table Atom ν) where
  keys : List Atom
  covers : ∀ key, key ∉ keys → a[key]? = b[key]?

/-- What the comparisons of two states visit. -/
structure Sharing {ρ : Type} (a b : ScopeState ρ) where
  locals : Visits a.locals b.locals
  unresolved : Visits a.unresolved b.unresolved
  nonNullImplications : Visits a.nonNullImplications b.nonNullImplications
  impliedNarrowings : Visits a.impliedNarrowings b.impliedNarrowings
  ruledOut : Visits a.ruledOut b.ruledOut

/-! ## Comparing types and triggers -/

/-- `same_types`. -/
def sameTypes (a b : List ResolvedType) : Bool :=
  a.length == b.length &&
    (a.zip b).all fun p =>
      p.1.typeString == p.2.typeString && p.1.classInfo == p.2.classInfo

/-- `same_trigger`. -/
def sameTrigger : ProofTrigger → ProofTrigger → Bool
  | .nonNull, .nonNull => true
  | .within x, .within y => sameTypes x y
  | .outside x, .outside y => sameTypes x y
  | _, _ => false

section

variable {ρ : Type}

/-- `same_implied_narrowings`. -/
def sameImpliedNarrowings {a b : ScopeState ρ}
    (visits : Visits a.impliedNarrowings b.impliedNarrowings) : Bool :=
  a.impliedNarrowings.size == b.impliedNarrowings.size &&
    visits.keys.all fun key =>
      match a.impliedNarrowings[key]?, b.impliedNarrowings[key]? with
      | some mine, some theirs =>
          mine.length == theirs.length &&
            (mine.zip theirs).all fun p =>
              p.1.key == p.2.key && sameTypes p.1.types p.2.types &&
                sameTrigger p.1.trigger p.2.trigger
      | _, _ => false

/-- `describes_same_state_as`. -/
def describesSameStateAs [DecidableEq ρ] (a b : ScopeState ρ) (sharing : Sharing a b) : Bool :=
  a.locals.size == b.locals.size &&
    decide (a.unresolved = b.unresolved) &&
    decide (a.nonNullImplications = b.nonNullImplications) &&
    decide (a.rest = b.rest) &&
    sameImpliedNarrowings sharing.impliedNarrowings &&
    sharing.locals.keys.all fun key =>
      match a.locals[key]?, b.locals[key]? with
      | some mine, some theirs => sameTypes mine theirs
      | _, _ => false

/-- `differing_keys`: the keys written on one path and not the other, or
flagged unresolved on only one side. -/
def differingKeys {a b : ScopeState ρ} (sharing : Sharing a b) : List Atom :=
  sharing.locals.keys ++
    ((sharing.unresolved.keys.filter fun key =>
      a.unresolved[key]?.isSome != b.unresolved[key]?.isSome).filter fun key =>
        !sharing.locals.keys.contains key)

/-! ## What a path shows of a key -/

/-- What a key holds, an absent key holding no types. -/
def held (s : ScopeState ρ) (key : Atom) : List ResolvedType := (s.locals[key]?).getD []

/-- `is_definitely_null`. -/
def isDefinitelyNull (s : ScopeState ρ) (key : Atom) : Bool :=
  s.locals[key]?.any fun types => !types.isEmpty && types.all fun rt => rt.typeString.isNull

/-- `is_definitely_non_null`. -/
def isDefinitelyNonNull (s : ScopeState ρ) (key : Atom) : Bool :=
  s.locals[key]?.any fun types =>
    !types.isEmpty && !types.any fun rt => rt.typeString.acceptsNull

/-- Whether two types spell the name of one class. -/
def sameClassName (held gone : PhpType) : Bool :=
  let trimmed (name : Atom) : String := String.ofList (name.toList.dropWhile (· == '\\'))
  match held.unwrapNullable.className, gone.unwrapNullable.className with
  | some h, some g => eqIgnoreAsciiCase (trimmed h) (trimmed g)
  | _, _ => false

section

variable [DedupHasher]

/-- `path_rules_out`. -/
def pathRulesOut (side : ScopeState ρ) (key : Atom) (types : List ResolvedType) : Bool :=
  if types.isEmpty then false
  else
    match side.ruledOut[key]? with
    | none => false
    | some excluded =>
        types.all fun rt =>
          excluded.any fun gone =>
            isSubtypeOf rt.typeString gone || sameClassName rt.typeString gone

/-- `types_within`. -/
def typesWithin (narrow wide : List ResolvedType) : Bool :=
  !narrow.isEmpty && !wide.isEmpty &&
    narrow.all fun n => wide.any fun w => isSubtypeOf n.typeString w.typeString

end

/-! ## Exclusions -/

/-- `join_ruled_out`. -/
def joinRuledOut {a b : ScopeState ρ} (visits : Visits a.ruledOut b.ruledOut) :
    Table Atom (List PhpType) :=
  if a.ruledOut.isEmpty || b.ruledOut.isEmpty then ∅
  else
    visits.keys.foldl (fun joined key =>
      let both :=
        match a.ruledOut[key]?, b.ruledOut[key]? with
        | some mine, some theirs => mine.filter fun ty => ty ∈ theirs
        | _, _ => []
      if both.isEmpty then joined.erase key else joined.insert key both) a.ruledOut

/-! ## Non-null implications -/

/-- `implication_holds`: the path recorded the proof, leaves the holder null,
or leaves the implied key holding a value. -/
def implicationHolds (s : ScopeState ρ) (holder implied : Atom) : Bool :=
  (filed s.nonNullImplications holder).contains implied ||
    isDefinitelyNull s holder || isDefinitelyNonNull s implied

/-- The proofs either path recorded for a holder that are true of both. -/
def keptImplications (a b : ScopeState ρ) (holder : Atom) : List Atom :=
  (filed a.nonNullImplications holder ++ filed b.nonNullImplications holder).filter fun implied =>
    implicationHolds a holder implied && implicationHolds b holder implied

/-- The keys one path leaves null and the other leaves holding a value, in the
group of the path that left the value. -/
def flippedToNonNull (null nonNull : ScopeState ρ) (differing : List Atom) : List Atom :=
  differing.filter fun key => isDefinitelyNull null key && isDefinitelyNonNull nonNull key

/-- Each member of a group stands for each other one. -/
def impliedByEachOther (group : List Atom) : List (Atom × Atom) :=
  group.flatMap fun holder => (group.filter (· ≠ holder)).map fun implied => (holder, implied)

/-- `join_non_null_implications`.  A key null in `a` is never in the group of
`a`, so the two groups can be read off one after the other. -/
def joinNonNullImplications (a b : ScopeState ρ) (differing revisit : List Atom) :
    Table Atom (List Atom) :=
  let nonNullInB := flippedToNonNull a b differing
  let nonNullInA := flippedToNonNull b a (differing.filter fun key => !isDefinitelyNull a key)
  let kept := revisit.flatMap fun holder =>
    (keptImplications a b holder).map fun implied => (holder, implied)
  (kept ++ impliedByEachOther nonNullInA ++ impliedByEachOther nonNullInB).foldl
    (fun joined p => pushUnique joined p.1 p.2)
    (revisit.foldl (fun joined holder => joined.erase holder) a.nonNullImplications)

end

/-! ## Offsets a trigger already says the value of -/

/-- `is_call_key`. -/
def isCallKey (key : Atom) : Bool := key.toList.getLast? == some ')'

/-- `is_member_path_key`. -/
def isMemberPathKey (key : Atom) : Bool :=
  decide (['-', '>'] <:+: key.toList) || key.toList.contains '[' ||
    decide ([':', ':', '$'] <:+: key.toList)

/-- `is_synthetic_key`: a key for an expression rather than a variable. -/
def isSyntheticKey (key : Atom) : Bool := isMemberPathKey key || isCallKey key

/-- The entries of the one shape a `within` trigger names. -/
def pinnedEntries : ProofTrigger → Option (List ShapeEntry)
  | .within [shape] =>
      match shape.typeString.kind with
      | .arrayShape entries => some entries
      | _ => none
  | _ => none

/-- The offset a key reads of its holder: `k` in `$holder["k"]`. -/
def offsetOf (holder key : Atom) : Option String := do
  let rest ← key.toList.dropPrefix? holder.toList
  let opened ← rest.dropPrefix? ['[', '"']
  let offset ← opened.dropSuffix? ['"', ']']
  if ['"', ']'] <:+: offset then none else some (String.ofList offset)

/-- `PinnedOffsets::pins`: the trigger already says that the key, an offset of
the holder, holds these types.  Of two entries under one key the last counts. -/
def pins (trigger : ProofTrigger) (holder key : Atom) (types : List ResolvedType) : Bool :=
  match pinnedEntries trigger, types with
  | some entries, [only] =>
      (offsetOf holder key).any fun offset =>
        ((entries.reverse.find? fun entry =>
          !entry.optional && entry.key == some offset).map (·.valueType)).any
            fun value => value == only.typeString
  | _, _ => false

/-! ## Implied narrowings -/

/-- `asks_the_same_as`: the list already asks what the proof does of its
holder about the same key. -/
def asksTheSameAs (items : List ImpliedNarrowing) (proof : ImpliedNarrowing) : Bool :=
  items.any fun p => p.key == proof.key && sameTrigger p.trigger proof.trigger

/-- `push_unique` of a proof list. -/
def pushUniqueProof (items : List ImpliedNarrowing) (proof : ImpliedNarrowing) :
    List ImpliedNarrowing :=
  if asksTheSameAs items proof then items else items ++ [proof]

section

variable {ρ : Type} [DedupHasher]

/-- The path could never meet the trigger, as far as its types show. -/
def vacuousOn (side : ScopeState ρ) (holder : Atom) : ProofTrigger → Bool
  | .nonNull => isDefinitelyNull side holder
  | .within trigger => disjointFrom (held side holder) trigger
  | .outside trigger => side.locals[holder]?.any fun types => typesWithin types trigger

/-- Whether a proof the other path recorded is true of `side`, whose own
proofs for the holder are `recorded`. -/
def survives (side : ScopeState ρ) (recorded : List ImpliedNarrowing) (holder : Atom)
    (proof : ImpliedNarrowing) : Bool :=
  (recorded.any fun p => p.key == proof.key && sameTypes p.types proof.types) ||
    (side.locals[proof.key]?.any fun types => sameTypes types proof.types) ||
    vacuousOn side holder proof.trigger

/-- The proofs either path recorded for a holder that survive the join. -/
def keptNarrowings (a b : ScopeState ρ) (holder : Atom) : List ImpliedNarrowing :=
  let mine := filed a.impliedNarrowings holder
  let theirs := filed b.impliedNarrowings holder
  theirs.foldl (fun kept proof =>
    if !asksTheSameAs kept proof && survives a mine holder proof then kept ++ [proof] else kept)
    (mine.filter fun proof => survives b theirs holder proof)

/-- The triggers that identify `a` as the path that ran, and the ones that
identify `b`, of a key. -/
def triggersOf (a b : ScopeState ρ) (key : Atom) : List ProofTrigger × List ProofTrigger :=
  if isDefinitelyNull a key && isDefinitelyNonNull b key then
    ([.within (held a key)], [.nonNull])
  else if isDefinitelyNull b key && isDefinitelyNonNull a key then
    ([.nonNull], [.within (held b key)])
  else
    match a.locals[key]?, b.locals[key]? with
    | some mine, some theirs =>
        if typesAreDisjoint mine theirs then ([.within mine], [.within theirs])
        else
          ((if pathRulesOut b key mine then [.within mine] else []) ++
              (if typesWithin theirs mine && !typesWithin mine theirs then [.outside theirs]
                else []),
            (if pathRulesOut a key theirs then [.within theirs] else []) ++
              (if typesWithin mine theirs && !typesWithin theirs mine then [.outside mine]
                else []))
    | _, _ => ([], [])

/-- What the path that was taken left under a key and the skipped one did
not: a plain variable the skipped path never bound was assigned, not
narrowed. -/
def leftByTaken (taken skipped : ScopeState ρ) (holder key : Atom) : Option (List ResolvedType) :=
  match taken.locals[key]? with
  | none => none
  | some types =>
      if key == holder || types.isEmpty then none
      else
        let differs :=
          match skipped.locals[key]? with
          | some other => !sameTypes types other
          | none => isSyntheticKey key
        if differs then some types else none

/-- The proofs read off one path once a holder shows it was taken. -/
def learnedFrom (taken skipped : ScopeState ρ) (differing : List Atom) (holder : Atom)
    (triggers : List ProofTrigger) : List (Atom × ImpliedNarrowing) :=
  differing.flatMap fun key =>
    match leftByTaken taken skipped holder key with
    | none => []
    | some types =>
        (triggers.filter fun trigger => !pins trigger holder key types).map fun trigger =>
          (holder, ⟨trigger, key, types⟩)

/-- The proofs a join learns, each with its holder.  The order the excluded
keys come in does not matter: proofs of different holders are filed apart. -/
def learnedNarrowings (a b : ScopeState ρ) (differing : List Atom) :
    List (Atom × ImpliedNarrowing) :=
  let excluded := (a.ruledOut.keys ++ b.ruledOut.keys).filter fun key => !differing.contains key
  (differing ++ excluded).flatMap fun holder =>
    learnedFrom a b differing holder (triggersOf a b holder).1 ++
      learnedFrom b a differing holder (triggersOf a b holder).2

/-- Add a proof to its holder's list. -/
def recordNarrowing (base lists : Table Atom (List ImpliedNarrowing))
    (p : Atom × ImpliedNarrowing) : Table Atom (List ImpliedNarrowing) :=
  lists.insert p.1 (pushUniqueProof (worked base lists p.1) p.2)

/-- `join_implied_narrowings`. -/
def joinImpliedNarrowings (a b : ScopeState ρ) (differing revisit : List Atom) :
    Table Atom (List ImpliedNarrowing) :=
  let joined := a.impliedNarrowings
  let rebuilt := revisit.foldl
    (fun lists holder => lists.insert holder (keptNarrowings a b holder)) ∅
  writeBack joined ((learnedNarrowings a b differing).foldl (recordNarrowing joined) rebuilt)

/-! ## The join -/

/-- The proofs `merge_branch` leaves.  Its types are not read here: the proofs
are worked out from what the two paths held before. -/
def mergeProofs [DecidableEq ρ] (a b : ScopeState ρ) (sharing : Sharing a b) : Proofs :=
  if b.unreachable then a.toProofs
  else if a.unreachable then b.toProofs
  else if describesSameStateAs a b sharing then
    { a.toProofs with ruledOut := joinRuledOut sharing.ruledOut }
  else
    { nonNullImplications :=
        joinNonNullImplications a b (differingKeys sharing) sharing.nonNullImplications.keys
      impliedNarrowings :=
        joinImpliedNarrowings a b (differingKeys sharing) sharing.impliedNarrowings.keys
      ruledOut := joinRuledOut sharing.ruledOut }

end

/-! ## Equality of types and triggers -/

theorem sameTypes_iff {a b : List ResolvedType} : sameTypes a b = true ↔ a = b := by
  apply zip_all_eq_iff
  intro x y
  cases x
  cases y
  simp

theorem sameTrigger_iff {a b : ProofTrigger} : sameTrigger a b = true ↔ a = b := by
  cases a with
  | nonNull => cases b <;> simp [sameTrigger]
  | within x => cases b <;> simp [sameTrigger, sameTypes_iff]
  | outside x => cases b <;> simp [sameTrigger, sameTypes_iff]

theorem asksTheSameAs_iff {items : List ImpliedNarrowing} {proof : ImpliedNarrowing} :
    asksTheSameAs items proof = true ↔
      ∃ p ∈ items, p.key = proof.key ∧ p.trigger = proof.trigger := by
  simp [asksTheSameAs, sameTrigger_iff]

theorem asksTheSameAs_append (xs ys : List ImpliedNarrowing) (proof : ImpliedNarrowing) :
    asksTheSameAs (xs ++ ys) proof = (asksTheSameAs xs proof || asksTheSameAs ys proof) := by
  simp [asksTheSameAs]

/-! ## What a join files -/

section

variable {ρ : Type} {a b : ScopeState ρ} {differing revisit : List Atom}

theorem mem_impliedByEachOther {group : List Atom} {holder implied : Atom} :
    (holder, implied) ∈ impliedByEachOther group ↔
      holder ∈ group ∧ implied ∈ group ∧ implied ≠ holder := by
  unfold impliedByEachOther
  rw [List.mem_flatMap]
  constructor
  · intro ⟨h, hh, hmem⟩
    rw [List.mem_map] at hmem
    obtain ⟨i, hi, heq⟩ := hmem
    rw [Prod.mk.injEq] at heq
    rw [List.mem_filter, decide_eq_true_eq, heq.1, heq.2] at hi
    exact ⟨heq.1 ▸ hh, hi.1, hi.2⟩
  · intro ⟨hholder, himplied, hne⟩
    apply Exists.intro holder
    exact ⟨hholder, List.mem_map.mpr ⟨implied,
      List.mem_filter.mpr ⟨himplied, by simpa using hne⟩, rfl⟩⟩

theorem mem_flippedToNonNull {null nonNull : ScopeState ρ} {key : Atom}
    (h : key ∈ flippedToNonNull null nonNull differing) :
    isDefinitelyNull null key = true ∧ isDefinitelyNonNull nonNull key = true := by
  unfold flippedToNonNull at h
  rw [List.mem_filter, Bool.and_eq_true] at h
  exact h.2

/-- Where an implication of the join comes from. -/
theorem mem_joinNonNullImplications {holder implied : Atom}
    (h : implied ∈ filed (joinNonNullImplications a b differing revisit) holder) :
    (holder ∉ revisit ∧ implied ∈ filed a.nonNullImplications holder) ∨
      (holder ∈ revisit ∧ implied ∈ keptImplications a b holder) ∨
      ∃ group, (group = flippedToNonNull a b differing ∨
          group = flippedToNonNull b a (differing.filter fun key => !isDefinitelyNull a key)) ∧
        holder ∈ group ∧ implied ∈ group := by
  unfold joinNonNullImplications at h
  rw [mem_filed_foldl_pushUnique, filed_foldl_erase, List.mem_append, List.mem_append] at h
  rcases h with h | (h | h) | h
  · by_cases hrevisit : holder ∈ revisit
    · simp [hrevisit] at h
    · rw [if_neg hrevisit] at h
      exact Or.inl ⟨hrevisit, h⟩
  · rw [List.mem_flatMap] at h
    obtain ⟨k, hk, hmem⟩ := h
    rw [List.mem_map] at hmem
    obtain ⟨i, hi, heq⟩ := hmem
    rw [Prod.mk.injEq] at heq
    exact Or.inr (Or.inl ⟨heq.1 ▸ hk, heq.1 ▸ heq.2 ▸ hi⟩)
  · have hgroup := mem_impliedByEachOther.mp h
    exact Or.inr (Or.inr ⟨_, Or.inr rfl, hgroup.1, hgroup.2.1⟩)
  · have hgroup := mem_impliedByEachOther.mp h
    exact Or.inr (Or.inr ⟨_, Or.inl rfl, hgroup.1, hgroup.2.1⟩)

theorem mem_pushUniqueProof {items : List ImpliedNarrowing} {p proof : ImpliedNarrowing}
    (h : p ∈ pushUniqueProof items proof) : p ∈ items ∨ p = proof := by
  unfold pushUniqueProof at h
  split at h
  · exact Or.inl h
  · rw [List.mem_append, List.mem_singleton] at h
    exact h

theorem subset_pushUniqueProof {items : List ImpliedNarrowing} {p proof : ImpliedNarrowing}
    (h : p ∈ items) : p ∈ pushUniqueProof items proof := by
  unfold pushUniqueProof
  split
  · exact h
  · exact List.mem_append_left _ h

theorem worked_recordNarrowing (base lists : Table Atom (List ImpliedNarrowing))
    (r : Atom × ImpliedNarrowing) (holder : Atom) :
    worked base (recordNarrowing base lists r) holder =
      if r.1 = holder then pushUniqueProof (worked base lists holder) r.2
      else worked base lists holder := by
  unfold recordNarrowing
  rw [worked_insert]
  by_cases h : r.1 = holder
  · simp [h]
  · simp [h]

theorem mem_worked_record {base : Table Atom (List ImpliedNarrowing)} {holder : Atom}
    {p : ImpliedNarrowing} (records : List (Atom × ImpliedNarrowing))
    (lists : Table Atom (List ImpliedNarrowing))
    (h : p ∈ worked base (records.foldl (recordNarrowing base) lists) holder) :
    p ∈ worked base lists holder ∨ (holder, p) ∈ records := by
  induction records generalizing lists with
  | nil => exact Or.inl h
  | cons r rest ih =>
      rw [List.foldl_cons] at h
      rcases ih _ h with hstep | hrest
      · rw [worked_recordNarrowing] at hstep
        by_cases hr : r.1 = holder
        · rw [if_pos hr] at hstep
          rcases mem_pushUniqueProof hstep with hold | hnew
          · exact Or.inl hold
          · exact Or.inr (List.mem_cons.mpr (Or.inl (Prod.ext hr.symm hnew)))
        · rw [if_neg hr] at hstep
          exact Or.inl hstep
      · exact Or.inr (List.mem_cons_of_mem r hrest)

theorem worked_subset_record {base : Table Atom (List ImpliedNarrowing)} {holder : Atom}
    {p : ImpliedNarrowing} (records : List (Atom × ImpliedNarrowing))
    (lists : Table Atom (List ImpliedNarrowing)) (h : p ∈ worked base lists holder) :
    p ∈ worked base (records.foldl (recordNarrowing base) lists) holder := by
  induction records generalizing lists with
  | nil => exact h
  | cons r rest ih =>
      rw [List.foldl_cons]
      apply ih
      rw [worked_recordNarrowing]
      by_cases hr : r.1 = holder
      · rw [if_pos hr]
        exact subset_pushUniqueProof h
      · rw [if_neg hr]
        exact h

variable [DedupHasher]

theorem worked_rebuilt (base : Table Atom (List ImpliedNarrowing)) (holder : Atom) :
    worked base (revisit.foldl
      (fun lists holder => lists.insert holder (keptNarrowings a b holder)) ∅) holder =
      if holder ∈ revisit then keptNarrowings a b holder else filed base holder := by
  have hfold (lists : Table Atom (List ImpliedNarrowing)) :
      worked base (revisit.foldl
        (fun lists holder => lists.insert holder (keptNarrowings a b holder)) lists) holder =
        if holder ∈ revisit then keptNarrowings a b holder else worked base lists holder := by
    induction revisit generalizing lists with
    | nil => simp
    | cons k rest ih =>
        rw [List.foldl_cons, ih, worked_insert]
        by_cases hrest : holder ∈ rest
        · simp [hrest]
        · by_cases hk : k = holder
          · simp [hk]
          · simp [hrest, hk, Ne.symm hk]
  rw [hfold, worked_empty]

/-- Where a narrowing of the join comes from. -/
theorem mem_joinImpliedNarrowings {holder : Atom} {p : ImpliedNarrowing}
    (h : p ∈ filed (joinImpliedNarrowings a b differing revisit) holder) :
    (holder ∉ revisit ∧ p ∈ filed a.impliedNarrowings holder) ∨
      (holder ∈ revisit ∧ p ∈ keptNarrowings a b holder) ∨
      (holder, p) ∈ learnedNarrowings a b differing := by
  unfold joinImpliedNarrowings at h
  rw [filed_writeBack] at h
  rcases mem_worked_record _ _ h with hrebuilt | hlearned
  · rw [worked_rebuilt] at hrebuilt
    by_cases hrevisit : holder ∈ revisit
    · rw [if_pos hrevisit] at hrebuilt
      exact Or.inr (Or.inl ⟨hrevisit, hrebuilt⟩)
    · rw [if_neg hrevisit] at hrebuilt
      exact Or.inl ⟨hrevisit, hrebuilt⟩
  · exact Or.inr (Or.inr hlearned)

theorem kept_mem_joinImpliedNarrowings {holder : Atom} {p : ImpliedNarrowing}
    (hrevisit : holder ∈ revisit) (h : p ∈ keptNarrowings a b holder) :
    p ∈ filed (joinImpliedNarrowings a b differing revisit) holder := by
  unfold joinImpliedNarrowings
  rw [filed_writeBack]
  apply worked_subset_record
  rw [worked_rebuilt, if_pos hrevisit]
  exact h

end

/-! ## Which recorded proofs are kept -/

/-- A proof that asks what an asked one does is asked. -/
theorem asksTheSameAs_of_asked {items : List ImpliedNarrowing} {q p : ImpliedNarrowing}
    (hq : asksTheSameAs items q = true) (hp : asksTheSameAs [q] p = true) :
    asksTheSameAs items p = true := by
  rw [asksTheSameAs_iff] at hq hp ⊢
  obtain ⟨r, hr, hkey, htrigger⟩ := hq
  obtain ⟨q', hq', hkey', htrigger'⟩ := hp
  rw [List.mem_singleton.mp hq'] at hkey' htrigger'
  exact ⟨r, hr, hkey.trans hkey', htrigger.trans htrigger'⟩

/-- A proof of the second path is pushed when it survives and no proof kept
before it, nor one of its own path that survives, asks the same. -/
theorem mem_foldl_pushFresh (keep : ImpliedNarrowing → Bool) (theirs : List ImpliedNarrowing)
    (kept : List ImpliedNarrowing) (p : ImpliedNarrowing) :
    p ∈ theirs.foldl (fun kept proof =>
        if !asksTheSameAs kept proof && keep proof then kept ++ [proof] else kept) kept ↔
      p ∈ kept ∨ ∃ before after, theirs = before ++ p :: after ∧ keep p = true ∧
        asksTheSameAs (kept ++ before.filter keep) p = false := by
  induction theirs generalizing kept with
  | nil => simp
  | cons proof rest ih =>
      -- the proof itself, or one further on with this one before it
      have hsplit : (∃ before after, proof :: rest = before ++ p :: after ∧ keep p = true ∧
          asksTheSameAs (kept ++ before.filter keep) p = false) ↔
          (proof = p ∧ keep p = true ∧ asksTheSameAs kept p = false) ∨
            ∃ before after, rest = before ++ p :: after ∧ keep p = true ∧
              asksTheSameAs (kept ++ (proof :: before).filter keep) p = false := by
        constructor
        · intro ⟨before, after, heq, hkeep, hfresh⟩
          cases before with
          | nil =>
              rw [List.nil_append, List.cons.injEq] at heq
              simp only [List.filter_nil, List.append_nil] at hfresh
              exact Or.inl ⟨heq.1, hkeep, hfresh⟩
          | cons first before =>
              rw [List.cons_append, List.cons.injEq] at heq
              rw [← heq.1] at hfresh
              exact Or.inr ⟨before, after, heq.2, hkeep, hfresh⟩
        · intro h
          rcases h with ⟨heq, hkeep, hfresh⟩ | ⟨before, after, heq, hkeep, hfresh⟩
          · exact ⟨[], rest, by rw [heq]; rfl, hkeep, by simpa using hfresh⟩
          · exact ⟨proof :: before, after, by rw [heq]; rfl, hkeep, hfresh⟩
      rw [List.foldl_cons, ih, hsplit]
      by_cases hkeep : keep proof = true
      · by_cases hasked : asksTheSameAs kept proof = true
        · have hsame (before : List ImpliedNarrowing) :
              asksTheSameAs (kept ++ (proof :: before).filter keep) p =
                asksTheSameAs (kept ++ before.filter keep) p := by
            rw [List.filter_cons_of_pos hkeep, asksTheSameAs_append, asksTheSameAs_append,
              ← List.singleton_append, asksTheSameAs_append]
            by_cases hp : asksTheSameAs [proof] p = true
            · rw [asksTheSameAs_of_asked hasked hp]
              rfl
            · rw [Bool.not_eq_true] at hp
              rw [hp, Bool.false_or]
          have hnot : ¬(proof = p ∧ keep p = true ∧ asksTheSameAs kept p = false) := by
            intro ⟨heq, _, hfresh⟩
            rw [← heq, hasked] at hfresh
            exact absurd hfresh (by simp)
          simp only [hasked, hsame, hnot, Bool.not_true, Bool.false_and, Bool.false_eq_true,
            if_false, false_or]
        · rw [Bool.not_eq_true] at hasked
          have hself : (proof = p ∧ keep p = true ∧ asksTheSameAs kept p = false) ↔ p = proof := by
            constructor
            · exact fun h => h.1.symm
            · intro h
              rw [h]
              exact ⟨rfl, hkeep, hasked⟩
          simp only [hasked, hkeep, hself, Bool.not_false, Bool.and_self, if_true,
            List.filter_cons_of_pos, List.mem_append, List.mem_singleton, List.append_assoc,
            List.singleton_append, or_assoc]
      · have hnot : ¬(proof = p ∧ keep p = true ∧ asksTheSameAs kept p = false) := by
          intro ⟨heq, hkept, _⟩
          exact hkeep (heq ▸ hkept)
        simp only [hkeep, hnot, Bool.and_false, Bool.false_eq_true, if_false, false_or,
          List.filter_cons_of_neg, not_false_eq_true]

/-- What the join keeps of a holder's proofs: the first path's that survive
the second, and the second's that survive the first and ask something new. -/
theorem mem_keptNarrowings {ρ : Type} [DedupHasher] {a b : ScopeState ρ} {holder : Atom} {p : ImpliedNarrowing} :
    p ∈ keptNarrowings a b holder ↔
      (p ∈ filed a.impliedNarrowings holder ∧
        survives b (filed b.impliedNarrowings holder) holder p = true) ∨
      ∃ before after, filed b.impliedNarrowings holder = before ++ p :: after ∧
        survives a (filed a.impliedNarrowings holder) holder p = true ∧
        asksTheSameAs
          ((filed a.impliedNarrowings holder).filter
              (survives b (filed b.impliedNarrowings holder) holder) ++
            before.filter (survives a (filed a.impliedNarrowings holder) holder)) p = false := by
  show p ∈ List.foldl _ _ _ ↔ _
  rw [mem_foldl_pushFresh, List.mem_filter]

end PhpantomLsp.Flow
