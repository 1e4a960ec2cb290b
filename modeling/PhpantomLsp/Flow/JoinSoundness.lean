import PhpantomLsp.Flow.Proofs

/-!
# What a join proves

A reading says which values a type describes.  Under it a state is satisfied
by an assignment of values to its keys, and a join is sound when its proofs are
true of every assignment that satisfies one of the two paths.

Each reason a proof is kept or learned for comes with the verdict it rests on:
that a type is `null` or rules `null` out, that one type is within another, that
two lists are apart, that a value was excluded.  Where these verdicts are right
the reasons are good ones, all but one.  A proof the other path recorded about
the same key with the same types is taken for the same proof, although the two
may ask different things of their holder.
-/

namespace PhpantomLsp.Flow

open Text Lib PhpType

universe u

/-! ## Readings -/

/-- The values a type describes, and the value `null` is. -/
structure Reading (V : Type u) where
  describes : PhpType → V → Prop
  null : V

namespace Reading

variable {V : Type u} (r : Reading V)

/-- A value is one of the alternatives; no alternatives stand for a value that
could be anything. -/
def holds (types : List ResolvedType) (v : V) : Prop :=
  types = [] ∨ ∃ rt ∈ types, r.describes rt.typeString v

/-- What a trigger asks of its holder's value. -/
def meets : ProofTrigger → V → Prop
  | .nonNull, v => v ≠ r.null
  | .within types, v => r.holds types v
  | .outside types, v => ∀ rt ∈ types, ¬r.describes rt.typeString v

/-- A non-null implication is true of an assignment. -/
def implies (σ : Atom → V) (holder implied : Atom) : Prop :=
  σ holder ≠ r.null → σ implied ≠ r.null

/-- An implied narrowing is true of an assignment. -/
def narrows (σ : Atom → V) (holder : Atom) (p : ImpliedNarrowing) : Prop :=
  r.meets p.trigger (σ holder) → r.holds p.types (σ p.key)

theorem holds_of_ne_nil {r : Reading V} {types : List ResolvedType} {v : V}
    (h : r.holds types v) (hne : types ≠ []) : ∃ rt ∈ types, r.describes rt.typeString v := by
  rcases h with h | h
  · exact absurd h hne
  · exact h

end Reading

section

variable {V : Type u} {ρ : Type}

/-- The proofs are true of an assignment. -/
structure Proofs.TrueOf (p : Proofs) (r : Reading V) (σ : Atom → V) : Prop where
  implications : ∀ holder, ∀ implied ∈ filed p.nonNullImplications holder,
    r.implies σ holder implied
  narrowings : ∀ holder, ∀ proof ∈ filed p.impliedNarrowings holder, r.narrows σ holder proof

/-- An assignment is one a path can leave: the path is reachable, each key
holds what its types say and none of what has been ruled out, and the recorded
proofs are true. -/
structure Satisfies (r : Reading V) (s : ScopeState ρ) (σ : Atom → V) : Prop where
  reachable : s.unreachable = false
  locals : ∀ key types, s.locals[key]? = some types → r.holds types (σ key)
  exclusions : ∀ key, ∀ gone ∈ filed s.ruledOut key, ¬r.describes gone (σ key)
  proofs : s.toProofs.TrueOf r σ

variable [DecidableEq ρ] [DedupHasher]

/-- The proofs a join keeps or learns are true of every assignment of either
path. -/
def JoinSound (r : Reading V) (a b : ScopeState ρ) (sharing : Sharing a b) : Prop :=
  ∀ Sa Sb : Set (Atom → V), (∀ σ ∈ Sa, Satisfies r a σ) → (∀ σ ∈ Sb, Satisfies r b σ) →
    ∀ σ ∈ Sa ∪ Sb, (mergeProofs a b sharing).TrueOf r σ

theorem joinSound_iff_forall {r : Reading V} {a b : ScopeState ρ} {sharing : Sharing a b} :
    JoinSound r a b sharing ↔
      ∀ σ, (Satisfies r a σ ∨ Satisfies r b σ) → (mergeProofs a b sharing).TrueOf r σ := by
  constructor
  · intro h σ hσ
    exact h {σ | Satisfies r a σ} {σ | Satisfies r b σ} (fun _ h => h) (fun _ h => h) σ hσ
  · intro h Sa Sb hSa hSb σ hσ
    rcases hσ with hσ | hσ
    · exact h σ (Or.inl (hSa σ hσ))
    · exact h σ (Or.inr (hSb σ hσ))

end

/-! ## The verdicts a join rests on -/

/-- What a join goes over: the keys the paths differ in, and the holders whose
proofs it looks at again. -/
structure Revisit where
  differing : List Atom
  implications : List Atom
  narrowings : List Atom

section

variable {V : Type u} {ρ : Type}

def Sharing.revisit {a b : ScopeState ρ} (sharing : Sharing a b) : Revisit :=
  ⟨differingKeys sharing, sharing.nonNullImplications.keys, sharing.impliedNarrowings.keys⟩

section Asked

variable (a b : ScopeState ρ) (visits : Revisit)

/-- A key the triggers of new proofs are sought at: the paths differ in it, or
ruled something out for it. -/
def Compared (key : Atom) : Prop :=
  key ∈ visits.differing ∨ key ∈ a.ruledOut.keys ∨ key ∈ b.ruledOut.keys

/-- What the two paths hold under a compared key. -/
def Weighed (key : Atom) (mine theirs : List ResolvedType) : Prop :=
  Compared a b visits key ∧ a.locals[key]? = some mine ∧ b.locals[key]? = some theirs

/-- A proof one path recorded for a holder, put to the other path. -/
def PutTo (side : ScopeState ρ) (holder : Atom) (p : ImpliedNarrowing) : Prop :=
  holder ∈ visits.narrowings ∧
    (side = b ∧ p ∈ filed a.impliedNarrowings holder ∨
      side = a ∧ p ∈ filed b.impliedNarrowings holder)

/-- A path is asked whether a key is null. -/
def AsksNull (side : ScopeState ρ) (key : Atom) : Prop :=
  Compared a b visits key ∨ key ∈ visits.implications ∨
    ∃ p, PutTo a b visits side key p ∧ p.trigger = .nonNull

/-- A path is asked whether a key holds a value. -/
def AsksNonNull (key : Atom) : Prop :=
  Compared a b visits key ∨ ∃ holder ∈ visits.implications,
    key ∈ filed a.nonNullImplications holder ∨ key ∈ filed b.nonNullImplications holder

/-- A list is asked to be within another. -/
def AsksWithin (narrow wide : List ResolvedType) : Prop :=
  (∃ key, Weighed a b visits key narrow wide ∨ Weighed a b visits key wide narrow) ∨
    ∃ side holder p, PutTo a b visits side holder p ∧ p.trigger = .outside wide ∧
      side.locals[holder]? = some narrow

end Asked

variable [DedupHasher]

/-- What the types a join asks about are judged to be is what they are. -/
structure VerdictsRight (r : Reading V) (a b : ScopeState ρ) (visits : Revisit) : Prop where
  null : ∀ side key types, side = a ∨ side = b → AsksNull a b visits side key →
    side.locals[key]? = some types → ∀ rt ∈ types, rt.typeString.isNull = true →
      ∀ v, r.describes rt.typeString v → v = r.null
  nonNull : ∀ side key types, side = a ∨ side = b → AsksNonNull a b visits key →
    side.locals[key]? = some types → ∀ rt ∈ types, rt.typeString.acceptsNull = false →
      ¬r.describes rt.typeString r.null
  within : ∀ narrow wide, AsksWithin a b visits narrow wide →
    ∀ n ∈ narrow, ∀ w ∈ wide, isSubtypeOf n.typeString w.typeString = true →
      ∀ v, r.describes n.typeString v → r.describes w.typeString v
  excluded : ∀ key mine theirs, Weighed a b visits key mine theirs → ∀ rt gone,
    rt ∈ mine ∧ gone ∈ filed b.ruledOut key ∨ rt ∈ theirs ∧ gone ∈ filed a.ruledOut key →
      (isSubtypeOf rt.typeString gone || sameClassName rt.typeString gone) = true →
        ∀ v, r.describes rt.typeString v → r.describes gone v
  apart : ∀ key mine theirs, Weighed a b visits key mine theirs →
    typesAreDisjoint mine theirs = true → ∀ v, r.holds mine v → ¬r.holds theirs v
  vacuous : ∀ side holder p types, PutTo a b visits side holder p → p.trigger = .within types →
    disjointFrom (held side holder) types = true →
      ∀ v, r.holds (held side holder) v → ¬r.holds types v

/-! ## What a path shows is true of its assignments -/

variable {r : Reading V} {a b side : ScopeState ρ} {visits : Revisit} {σ : Atom → V}
  {key holder : Atom}

omit [DedupHasher] in
theorem exists_of_any {types : Option (List ResolvedType)} {test : List ResolvedType → Bool}
    (h : types.any test = true) : ∃ list, types = some list ∧ test list = true := by
  cases types with
  | none => simp at h
  | some list => exact ⟨list, rfl, h⟩

/-- A key that is definitely null holds lists of `null`. -/
theorem null_of_isDefinitelyNull (hv : VerdictsRight r a b visits) (hside : side = a ∨ side = b)
    (hasks : AsksNull a b visits side key) (h : isDefinitelyNull side key = true) {v : V}
    (hholds : r.holds (held side key) v) : v = r.null := by
  obtain ⟨types, hget, htest⟩ := exists_of_any h
  rw [Bool.and_eq_true, Bool.not_eq_true', List.isEmpty_eq_false_iff] at htest
  have hheld : held side key = types := by simp [held, hget]
  rw [hheld] at hholds
  obtain ⟨rt, hrt, hdescribes⟩ := Reading.holds_of_ne_nil hholds htest.1
  have hnull := List.all_eq_true.mp htest.2 rt hrt
  exact hv.null side key types hside hasks hget rt hrt hnull v hdescribes

omit [DedupHasher] in
theorem holds_held (hs : Satisfies r side σ) (key : Atom) : r.holds (held side key) (σ key) := by
  unfold held
  cases hget : side.locals[key]? with
  | none => exact Or.inl rfl
  | some types => exact hs.locals key types hget

theorem ne_null_of_isDefinitelyNonNull (hv : VerdictsRight r a b visits)
    (hside : side = a ∨ side = b) (hasks : AsksNonNull a b visits key)
    (hs : Satisfies r side σ) (h : isDefinitelyNonNull side key = true) : σ key ≠ r.null := by
  intro hnull
  obtain ⟨types, hget, htest⟩ := exists_of_any h
  rw [Bool.and_eq_true, Bool.not_eq_true', Bool.not_eq_true', List.isEmpty_eq_false_iff] at htest
  obtain ⟨rt, hrt, hdescribes⟩ := Reading.holds_of_ne_nil (hs.locals key types hget) htest.1
  have haccepts : rt.typeString.acceptsNull = false := by
    have hnone := List.any_eq_false.mp htest.2 rt hrt
    simpa using hnone
  rw [hnull] at hdescribes
  exact hv.nonNull side key types hside hasks hget rt hrt haccepts hdescribes

/-- A value of the narrower list is one of the wider list's. -/
theorem describes_of_typesWithin (hv : VerdictsRight r a b visits)
    {narrow wide : List ResolvedType} (hasks : AsksWithin a b visits narrow wide)
    (h : typesWithin narrow wide = true) {v : V} (hholds : r.holds narrow v) :
    ∃ rt ∈ wide, r.describes rt.typeString v := by
  unfold typesWithin at h
  rw [Bool.and_eq_true, Bool.and_eq_true, Bool.not_eq_true', List.isEmpty_eq_false_iff] at h
  obtain ⟨n, hn, hdescribes⟩ := Reading.holds_of_ne_nil hholds h.1.1
  obtain ⟨w, hw, hsub⟩ := List.any_eq_true.mp (List.all_eq_true.mp h.2 n hn)
  exact ⟨w, hw, hv.within narrow wide hasks n hn w hw hsub v hdescribes⟩

omit [DedupHasher] in
theorem PutTo.side_eq {p : ImpliedNarrowing} (h : PutTo a b visits side holder p) :
    side = a ∨ side = b := by
  rcases h.2 with h | h
  · exact Or.inr h.1
  · exact Or.inl h.1

/-- A trigger a path could never meet is not met by its assignments. -/
theorem not_meets_of_vacuousOn (hv : VerdictsRight r a b visits) (hs : Satisfies r side σ)
    {p : ImpliedNarrowing} (hp : PutTo a b visits side holder p)
    (h : vacuousOn side holder p.trigger = true) : ¬r.meets p.trigger (σ holder) := by
  intro hmeets
  cases htrigger : p.trigger with
  | nonNull =>
      rw [htrigger] at h hmeets
      have hasks : AsksNull a b visits side holder := Or.inr (Or.inr ⟨p, hp, htrigger⟩)
      exact hmeets (null_of_isDefinitelyNull hv hp.side_eq hasks h (holds_held hs holder))
  | within trigger =>
      rw [htrigger] at h hmeets
      exact hv.vacuous side holder p trigger hp htrigger h _ (holds_held hs holder) hmeets
  | outside trigger =>
      rw [htrigger] at h hmeets
      obtain ⟨types, hget, hwithin⟩ := exists_of_any h
      have hasks : AsksWithin a b visits types trigger :=
        Or.inr ⟨side, holder, p, hp, htrigger, hget⟩
      obtain ⟨rt, hrt, hdescribes⟩ := describes_of_typesWithin hv hasks hwithin
        (hs.locals holder types hget)
      exact hmeets rt hrt hdescribes

/-- A value the path ruled out is not the one it holds. -/
theorem not_holds_of_pathRulesOut (hs : Satisfies r side σ) {types : List ResolvedType}
    (hright : ∀ rt ∈ types, ∀ gone ∈ filed side.ruledOut key,
      (isSubtypeOf rt.typeString gone || sameClassName rt.typeString gone) = true →
        ∀ v, r.describes rt.typeString v → r.describes gone v)
    (h : pathRulesOut side key types = true) : ¬r.holds types (σ key) := by
  intro hholds
  unfold pathRulesOut at h
  by_cases hempty : types.isEmpty = true
  · simp [hempty] at h
  · rw [if_neg hempty] at h
    cases hget : side.ruledOut[key]? with
    | none => simp [hget] at h
    | some excluded =>
        rw [hget] at h
        have hne : types ≠ [] := by simpa using hempty
        obtain ⟨rt, hrt, hdescribes⟩ := Reading.holds_of_ne_nil hholds hne
        obtain ⟨gone, hgone, hverdict⟩ := List.any_eq_true.mp (List.all_eq_true.mp h rt hrt)
        have hfiled : gone ∈ filed side.ruledOut key := by
          rw [filed_of_get hget]
          exact hgone
        have hdescribesGone := hright rt hrt gone hfiled hverdict _ hdescribes
        exact hs.exclusions key gone hfiled hdescribesGone

/-! ## The implications -/

theorem implies_of_implicationHolds (hv : VerdictsRight r a b visits) (hside : side = a ∨ side = b)
    (hs : Satisfies r side σ) {implied : Atom} (hholder : holder ∈ visits.implications)
    (hrecorded : implied ∈ filed a.nonNullImplications holder ∨
      implied ∈ filed b.nonNullImplications holder)
    (h : implicationHolds side holder implied = true) : r.implies σ holder implied := by
  unfold implicationHolds at h
  rw [Bool.or_eq_true, Bool.or_eq_true] at h
  rcases h with (h | h) | h
  · exact hs.proofs.implications holder implied (List.contains_iff_mem.mp h)
  · intro hne
    have hasks : AsksNull a b visits side holder := Or.inr (Or.inl hholder)
    exact absurd (null_of_isDefinitelyNull hv hside hasks h (holds_held hs holder)) hne
  · intro _
    have hasks : AsksNonNull a b visits implied := Or.inr ⟨holder, hholder, hrecorded⟩
    exact ne_null_of_isDefinitelyNonNull hv hside hasks hs h

/-- The keys of one group are null together and hold values together. -/
theorem implies_of_group {null nonNull : ScopeState ρ} {group : List Atom}
    (hv : VerdictsRight r a b visits) (hnull : null = a ∨ null = b)
    (hnonNull : nonNull = a ∨ nonNull = b) (hgroup : ∀ key ∈ group, key ∈ visits.differing)
    {implied : Atom} (hσ : Satisfies r null σ ∨ Satisfies r nonNull σ)
    (hholder : holder ∈ flippedToNonNull null nonNull group)
    (himplied : implied ∈ flippedToNonNull null nonNull group) : r.implies σ holder implied := by
  intro hne
  have hmem (key : Atom) (h : key ∈ flippedToNonNull null nonNull group) :
      Compared a b visits key := Or.inl (hgroup key (List.mem_filter.mp h).1)
  rcases hσ with hs | hs
  · have hflipped := (mem_flippedToNonNull hholder).1
    have heq := null_of_isDefinitelyNull hv hnull (Or.inl (hmem holder hholder)) hflipped
      (holds_held hs holder)
    exact absurd heq hne
  · exact ne_null_of_isDefinitelyNonNull hv hnonNull (Or.inl (hmem implied himplied)) hs
      (mem_flippedToNonNull himplied).2

omit [DedupHasher] in
theorem filed_eq_of_not_visited {ν : Type} {t u : Table Atom (List ν)} (visits : Visits t u)
    (h : key ∉ visits.keys) : filed t key = filed u key := by
  unfold filed
  rw [visits.covers key h]

theorem implies_of_join {sharing : Sharing a b} (hv : VerdictsRight r a b sharing.revisit)
    (hσ : Satisfies r a σ ∨ Satisfies r b σ) {implied : Atom}
    (h : implied ∈ filed (joinNonNullImplications a b (differingKeys sharing)
      sharing.nonNullImplications.keys) holder) :
    r.implies σ holder implied := by
  rcases mem_joinNonNullImplications h with ⟨hnot, hmem⟩ | ⟨hvisited, hkept⟩ |
    ⟨group, heq, hholder, himplied⟩
  · rcases hσ with hs | hs
    · exact hs.proofs.implications holder implied hmem
    · rw [filed_eq_of_not_visited sharing.nonNullImplications hnot] at hmem
      exact hs.proofs.implications holder implied hmem
  · unfold keptImplications at hkept
    rw [List.mem_filter, Bool.and_eq_true, List.mem_append] at hkept
    rcases hσ with hs | hs
    · exact implies_of_implicationHolds hv (Or.inl rfl) hs hvisited hkept.1 hkept.2.1
    · exact implies_of_implicationHolds hv (Or.inr rfl) hs hvisited hkept.1 hkept.2.2
  · rcases heq with heq | heq
    · subst heq
      exact implies_of_group hv (Or.inl rfl) (Or.inr rfl) (fun _ h => h) hσ hholder himplied
    · subst heq
      exact implies_of_group hv (Or.inr rfl) (Or.inl rfl) (fun _ h => (List.mem_filter.mp h).1)
        hσ.symm hholder himplied

/-! ## The narrowings learned -/

/-- A value of one list is not outside of it. -/
theorem not_meets_outside (hs : Satisfies r side σ) {theirs mine : List ResolvedType}
    (hget : side.locals[key]? = some theirs) (h : typesWithin theirs mine = true) :
    ¬r.meets (.outside theirs) (σ key) := by
  intro hmeets
  unfold typesWithin at h
  rw [Bool.and_eq_true, Bool.and_eq_true, Bool.not_eq_true', List.isEmpty_eq_false_iff] at h
  obtain ⟨rt, hrt, hdescribes⟩ := Reading.holds_of_ne_nil (hs.locals key theirs hget) h.1.1
  exact hmeets rt hrt hdescribes

section Triggers

variable (hv : VerdictsRight r a b visits) (hcompared : Compared a b visits key)

include hv hcompared

theorem not_meets_heldNull {null nonNull : ScopeState ρ} (hnull : null = a ∨ null = b)
    (hnonNull : nonNull = a ∨ nonNull = b) (hs : Satisfies r nonNull σ)
    (hdefinitely : isDefinitelyNull null key = true)
    (hnot : isDefinitelyNonNull nonNull key = true) :
    ¬r.meets (.within (held null key)) (σ key) := by
  intro hmeets
  have hne := ne_null_of_isDefinitelyNonNull hv hnonNull (Or.inl hcompared) hs hnot
  exact hne (null_of_isDefinitelyNull hv hnull (Or.inl hcompared) hdefinitely hmeets)

theorem not_meets_nonNull (hside : side = a ∨ side = b) (hs : Satisfies r side σ)
    (hnull : isDefinitelyNull side key = true) : ¬r.meets .nonNull (σ key) := by
  intro hmeets
  have heq := null_of_isDefinitelyNull hv hside (Or.inl hcompared) hnull (holds_held hs key)
  exact hmeets heq

/-- A trigger that identifies one path is not met by the other's assignments. -/
theorem not_meets_triggers_left (hs : Satisfies r b σ) {trigger : ProofTrigger}
    (h : trigger ∈ (triggersOf a b key).1) : ¬r.meets trigger (σ key) := by
  unfold triggersOf at h
  split at h
  · rename_i hcond
    rw [Bool.and_eq_true] at hcond
    rw [List.mem_singleton.mp h]
    exact not_meets_heldNull hv hcompared (Or.inl rfl) (Or.inr rfl) hs hcond.1 hcond.2
  · split at h
    · rename_i hcond
      rw [Bool.and_eq_true] at hcond
      rw [List.mem_singleton.mp h]
      exact not_meets_nonNull hv hcompared (Or.inr rfl) hs hcond.1
    · split at h
      · rename_i mine theirs hmine htheirs
        have hweighed : Weighed a b visits key mine theirs := ⟨hcompared, hmine, htheirs⟩
        split at h
        · rename_i hdisjoint
          rw [List.mem_singleton.mp h]
          intro hmeets
          exact hv.apart key mine theirs hweighed hdisjoint _ hmeets (hs.locals key theirs htheirs)
        · rw [List.mem_append] at h
          rcases h with h | h
          · split at h
            · rename_i hruled
              rw [List.mem_singleton.mp h]
              refine not_holds_of_pathRulesOut hs ?_ hruled
              intro rt hrt gone hgone
              exact hv.excluded key mine theirs hweighed rt gone (Or.inl ⟨hrt, hgone⟩)
            · exact absurd h List.not_mem_nil
          · split at h
            · rename_i hwithin
              rw [Bool.and_eq_true] at hwithin
              rw [List.mem_singleton.mp h]
              exact not_meets_outside hs htheirs hwithin.1
            · exact absurd h List.not_mem_nil
      · exact absurd h List.not_mem_nil

theorem not_meets_triggers_right (hs : Satisfies r a σ) {trigger : ProofTrigger}
    (h : trigger ∈ (triggersOf a b key).2) : ¬r.meets trigger (σ key) := by
  unfold triggersOf at h
  split at h
  · rename_i hcond
    rw [Bool.and_eq_true] at hcond
    rw [List.mem_singleton.mp h]
    exact not_meets_nonNull hv hcompared (Or.inl rfl) hs hcond.1
  · split at h
    · rename_i hcond
      rw [Bool.and_eq_true] at hcond
      rw [List.mem_singleton.mp h]
      exact not_meets_heldNull hv hcompared (Or.inr rfl) (Or.inl rfl) hs hcond.1 hcond.2
    · split at h
      · rename_i mine theirs hmine htheirs
        have hweighed : Weighed a b visits key mine theirs := ⟨hcompared, hmine, htheirs⟩
        split at h
        · rename_i hdisjoint
          rw [List.mem_singleton.mp h]
          exact hv.apart key mine theirs hweighed hdisjoint _ (hs.locals key mine hmine)
        · rw [List.mem_append] at h
          rcases h with h | h
          · split at h
            · rename_i hruled
              rw [List.mem_singleton.mp h]
              refine not_holds_of_pathRulesOut hs ?_ hruled
              intro rt hrt gone hgone
              exact hv.excluded key mine theirs hweighed rt gone (Or.inr ⟨hrt, hgone⟩)
            · exact absurd h List.not_mem_nil
          · split at h
            · rename_i hwithin
              rw [Bool.and_eq_true] at hwithin
              rw [List.mem_singleton.mp h]
              exact not_meets_outside hs hmine hwithin.1
            · exact absurd h List.not_mem_nil
      · exact absurd h List.not_mem_nil

end Triggers

omit [DedupHasher] in
/-- What the taken path left is what it holds. -/
theorem locals_of_leftByTaken {types : List ResolvedType}
    (h : leftByTaken a b holder key = some types) : a.locals[key]? = some types := by
  unfold leftByTaken at h
  cases hget : a.locals[key]? with
  | none => simp [hget] at h
  | some left =>
      rw [hget] at h
      dsimp only at h
      split at h
      · exact absurd h (by simp)
      · -- the two ways a key can differ end in one question
        have hsome (differs : Bool) (hif : (if differs = true then some left else none) =
            some types) : some left = some types := by
          cases differs with
          | true => exact hif
          | false => exact absurd hif (by simp)
        exact hsome _ h

omit [DedupHasher] in
theorem mem_learnedFrom {differing : List Atom} {triggers : List ProofTrigger} {h' : Atom}
    {p : ImpliedNarrowing} (h : (holder, p) ∈ learnedFrom a b differing h' triggers) :
    holder = h' ∧ p.trigger ∈ triggers ∧ a.locals[p.key]? = some p.types := by
  unfold learnedFrom at h
  rw [List.mem_flatMap] at h
  obtain ⟨k, _, hmem⟩ := h
  cases hleft : leftByTaken a b h' k with
  | none => simp [hleft] at hmem
  | some types =>
      rw [hleft] at hmem
      simp only [List.mem_map, List.mem_filter, Prod.mk.injEq] at hmem
      obtain ⟨trigger, ⟨htrigger, _⟩, hholder, hp⟩ := hmem
      subst hp
      exact ⟨hholder.symm, htrigger, locals_of_leftByTaken hleft⟩

/-- A proof read off the taken path is true of both paths. -/
theorem narrows_of_learned (hv : VerdictsRight r a b visits)
    (hσ : Satisfies r a σ ∨ Satisfies r b σ) {p : ImpliedNarrowing}
    (h : (holder, p) ∈ learnedNarrowings a b visits.differing) : r.narrows σ holder p := by
  unfold learnedNarrowings at h
  rw [List.mem_flatMap] at h
  obtain ⟨k, hk, hmem⟩ := h
  have hcompared : Compared a b visits k := by
    rw [List.mem_append, List.mem_filter, List.mem_append] at hk
    exact hk.imp id (fun hk => hk.1)
  rw [List.mem_append] at hmem
  intro hmeets
  rcases hmem with hmem | hmem
  · obtain ⟨rfl, htrigger, hget⟩ := mem_learnedFrom hmem
    rcases hσ with hs | hs
    · exact hs.locals p.key p.types hget
    · exact absurd hmeets (not_meets_triggers_left hv hcompared hs htrigger)
  · obtain ⟨rfl, htrigger, hget⟩ := mem_learnedFrom hmem
    rcases hσ with hs | hs
    · exact absurd hmeets (not_meets_triggers_right hv hcompared hs htrigger)
    · exact hs.locals p.key p.types hget

/-! ## The narrowings kept -/

/-- A proof stands by itself on a path: the path recorded the very proof, holds
just these types for its key, or could never meet its trigger. -/
def standsOn (side : ScopeState ρ) (holder : Atom) (proof : ImpliedNarrowing) : Bool :=
  (filed side.impliedNarrowings holder).contains proof ||
    (side.locals[proof.key]?.any fun types => sameTypes types proof.types) ||
    vacuousOn side holder proof.trigger

/-- A path that has nothing else to say for a proof recorded one about the key with
the same types under another trigger. -/
def Mistaken (side : ScopeState ρ) (holder : Atom) (proof : ImpliedNarrowing) : Prop :=
  standsOn side holder proof = false ∧ ∃ other ∈ filed side.impliedNarrowings holder,
    other.key = proof.key ∧ other.types = proof.types ∧ other.trigger ≠ proof.trigger

/-- Of some proofs one stands on the path and asks what the given proof asks. -/
def AskedByStanding (side : ScopeState ρ) (holder : Atom) (items : List ImpliedNarrowing)
    (proof : ImpliedNarrowing) : Prop :=
  ∃ p ∈ items, standsOn side holder p = true ∧ p.key = proof.key ∧ p.trigger = proof.trigger

/-- No proof is taken for another one: none of either path is mistaken on the
other, but for those of the second path that ask what one before them asks which
stands by itself. -/
def NoneMistaken (a b : ScopeState ρ) (visits : Revisit) : Prop :=
  ∀ holder ∈ visits.narrowings,
    (∀ p ∈ filed a.impliedNarrowings holder, ¬Mistaken b holder p) ∧
      ∀ before p after, filed b.impliedNarrowings holder = before ++ p :: after →
        Mistaken a holder p →
          AskedByStanding b holder (filed a.impliedNarrowings holder) p ∨
            AskedByStanding a holder before p

/-- An assignment of the path meets the trigger and holds another value. -/
def LeavesOpen (r : Reading V) (side : ScopeState ρ) (holder : Atom) (proof : ImpliedNarrowing) :
    Prop :=
  ∃ σ, Satisfies r side σ ∧ r.meets proof.trigger (σ holder) ∧ ¬r.holds proof.types (σ proof.key)

theorem survives_of_standsOn {p : ImpliedNarrowing} (h : standsOn side holder p = true) :
    survives side (filed side.impliedNarrowings holder) holder p = true := by
  unfold standsOn at h
  unfold survives
  rw [Bool.or_eq_true, Bool.or_eq_true] at h ⊢
  refine h.imp (fun h => h.imp ?_ id) id
  intro hrecorded
  rw [List.any_eq_true]
  exact ⟨p, List.contains_iff_mem.mp hrecorded, by simp [sameTypes_iff]⟩

/-- A proof survives that stands by itself, or is mistaken. -/
theorem survives_iff {p : ImpliedNarrowing} :
    survives side (filed side.impliedNarrowings holder) holder p = true ↔
      standsOn side holder p = true ∨ Mistaken side holder p := by
  constructor
  · intro h
    by_cases hstands : standsOn side holder p = true
    · exact Or.inl hstands
    · rw [Bool.not_eq_true] at hstands
      refine Or.inr ⟨hstands, ?_⟩
      unfold standsOn at hstands
      rw [Bool.or_eq_false_iff, Bool.or_eq_false_iff] at hstands
      unfold survives at h
      rw [hstands.1.2, hstands.2, Bool.or_false, Bool.or_false, List.any_eq_true] at h
      obtain ⟨other, hother, hsame⟩ := h
      rw [Bool.and_eq_true, beq_iff_eq, sameTypes_iff] at hsame
      refine ⟨other, hother, hsame.1, hsame.2, ?_⟩
      intro htrigger
      have heq : other = p := by
        cases other
        cases p
        simp_all
      rw [heq] at hother
      have hcontains := List.contains_iff_mem.mpr hother
      rw [hstands.1.1] at hcontains
      cases hcontains
  · intro h
    rcases h with hstands | ⟨_, other, hother, hkey, htypes, _⟩
    · exact survives_of_standsOn hstands
    · unfold survives
      rw [Bool.or_eq_true, Bool.or_eq_true, List.any_eq_true]
      exact Or.inl (Or.inl ⟨other, hother, by simp [hkey, htypes, sameTypes_iff]⟩)

theorem asksTheSameAs_of_askedByStanding {items : List ImpliedNarrowing} {p : ImpliedNarrowing}
    (h : AskedByStanding side holder items p) :
    asksTheSameAs (items.filter (survives side (filed side.impliedNarrowings holder) holder)) p =
      true := by
  obtain ⟨q, hq, hstands, hkey, htrigger⟩ := h
  rw [asksTheSameAs_iff]
  exact ⟨q, List.mem_filter.mpr ⟨hq, survives_of_standsOn hstands⟩, hkey, htrigger⟩

theorem narrows_of_standsOn (hv : VerdictsRight r a b visits) (hs : Satisfies r side σ)
    {p : ImpliedNarrowing} (hp : PutTo a b visits side holder p)
    (h : standsOn side holder p = true) : r.narrows σ holder p := by
  unfold standsOn at h
  rw [Bool.or_eq_true, Bool.or_eq_true] at h
  rcases h with (h | h) | h
  · exact hs.proofs.narrowings holder p (List.contains_iff_mem.mp h)
  · intro _
    obtain ⟨types, hget, hsame⟩ := exists_of_any h
    rw [← sameTypes_iff.mp hsame]
    exact hs.locals p.key types hget
  · intro hmeets
    exact absurd hmeets (not_meets_of_vacuousOn hv hs hp h)

/-- Where no proof is mistaken those that are kept stand by themselves. -/
theorem narrows_of_kept (hv : VerdictsRight r a b visits) (hvisited : holder ∈ visits.narrowings)
    (hnone : NoneMistaken a b visits) (hσ : Satisfies r a σ ∨ Satisfies r b σ)
    {p : ImpliedNarrowing} (h : p ∈ keptNarrowings a b holder) : r.narrows σ holder p := by
  obtain ⟨hmine, htheirs⟩ := hnone holder hvisited
  rcases mem_keptNarrowings.mp h with ⟨hp, hsurvives⟩ | ⟨before, after, heq, hsurvives, hnew⟩
  · rcases hσ with hs | hs
    · exact hs.proofs.narrowings holder p hp
    · have hstands := (survives_iff.mp hsurvives).resolve_right (hmine p hp)
      exact narrows_of_standsOn hv hs ⟨hvisited, Or.inl ⟨rfl, hp⟩⟩ hstands
  · have hp : p ∈ filed b.impliedNarrowings holder := by simp [heq]
    rcases hσ with hs | hs
    · rcases survives_iff.mp hsurvives with hstands | hmistaken
      · exact narrows_of_standsOn hv hs ⟨hvisited, Or.inr ⟨rfl, hp⟩⟩ hstands
      · -- a mistaken one is dropped for what it asks
        rw [asksTheSameAs_append, Bool.or_eq_false_iff] at hnew
        rcases htheirs before p after heq hmistaken with hasked | hasked
        · exact absurd (asksTheSameAs_of_askedByStanding hasked) (by simp [hnew.1])
        · exact absurd (asksTheSameAs_of_askedByStanding hasked) (by simp [hnew.2])
    · exact hs.proofs.narrowings holder p hp

theorem narrows_of_join {sharing : Sharing a b} (hv : VerdictsRight r a b sharing.revisit)
    (hnone : NoneMistaken a b sharing.revisit) (hσ : Satisfies r a σ ∨ Satisfies r b σ)
    {p : ImpliedNarrowing}
    (h : p ∈ filed (joinImpliedNarrowings a b (differingKeys sharing)
      sharing.impliedNarrowings.keys) holder) :
    r.narrows σ holder p := by
  rcases mem_joinImpliedNarrowings h with ⟨hnot, hmem⟩ | ⟨hvisited, hkept⟩ | hlearned
  · rcases hσ with hs | hs
    · exact hs.proofs.narrowings holder p hmem
    · rw [filed_eq_of_not_visited sharing.impliedNarrowings hnot] at hmem
      exact hs.proofs.narrowings holder p hmem
  · exact narrows_of_kept hv hvisited hnone hσ hkept
  · exact narrows_of_learned hv hσ hlearned

/-! ## Paths that agree -/

omit [DedupHasher] in
/-- Paths that describe the same state recorded the same proofs. -/
theorem filed_eq_of_sameImpliedNarrowings
    {visits : Visits a.impliedNarrowings b.impliedNarrowings}
    (h : sameImpliedNarrowings visits = true) (holder : Atom) :
    filed a.impliedNarrowings holder = filed b.impliedNarrowings holder := by
  by_cases hvisited : holder ∈ visits.keys
  · unfold sameImpliedNarrowings at h
    rw [Bool.and_eq_true, List.all_eq_true] at h
    have hsame := h.2 holder hvisited
    cases hmine : a.impliedNarrowings[holder]? with
    | none => simp [hmine] at hsame
    | some mine =>
        cases htheirs : b.impliedNarrowings[holder]? with
        | none => simp [hmine, htheirs] at hsame
        | some theirs =>
            rw [hmine, htheirs] at hsame
            rw [filed_of_get hmine, filed_of_get htheirs]
            apply (zip_all_eq_iff _).mp hsame
            intro x y
            cases x
            cases y
            simp [sameTypes_iff, sameTrigger_iff]
            grind
  · exact filed_eq_of_not_visited visits hvisited

/-! ## The join -/

variable [DecidableEq ρ]

omit [DedupHasher] in
theorem describesSameStateAs_proofs {sharing : Sharing a b}
    (h : describesSameStateAs a b sharing = true) :
    a.nonNullImplications = b.nonNullImplications ∧
      sameImpliedNarrowings sharing.impliedNarrowings = true := by
  unfold describesSameStateAs at h
  simp only [Bool.and_eq_true, decide_eq_true_eq] at h
  exact ⟨h.1.1.1.2, h.1.2⟩

/-- Both paths can be taken, and they leave different states. -/
structure Joins (a b : ScopeState ρ) (sharing : Sharing a b) : Prop where
  left : a.unreachable = false
  right : b.unreachable = false
  differ : describesSameStateAs a b sharing = false

theorem mergeProofs_of_joins {sharing : Sharing a b} (h : Joins a b sharing) :
    mergeProofs a b sharing =
      { nonNullImplications :=
          joinNonNullImplications a b (differingKeys sharing) sharing.nonNullImplications.keys
        impliedNarrowings :=
          joinImpliedNarrowings a b (differingKeys sharing) sharing.impliedNarrowings.keys
        ruledOut := joinRuledOut sharing.ruledOut } := by
  simp [mergeProofs, h.left, h.right, h.differ]

/-- Where no proof is mistaken, all the join keeps and learns is true. -/
theorem joinSound_of_noneMistaken {sharing : Sharing a b}
    (hv : Joins a b sharing → VerdictsRight r a b sharing.revisit)
    (hnone : Joins a b sharing → NoneMistaken a b sharing.revisit) : JoinSound r a b sharing := by
  rw [joinSound_iff_forall]
  intro σ hσ
  by_cases hb : b.unreachable = true
  · rcases hσ with hs | hs
    · simp only [mergeProofs, hb, if_true]
      exact hs.proofs
    · exact absurd hs.reachable (by simp [hb])
  · rw [Bool.not_eq_true] at hb
    by_cases ha : a.unreachable = true
    · rcases hσ with hs | hs
      · exact absurd hs.reachable (by simp [ha])
      · simp only [mergeProofs, ha, hb, if_true, Bool.false_eq_true, if_false]
        exact hs.proofs
    · rw [Bool.not_eq_true] at ha
      by_cases hsame : describesSameStateAs a b sharing = true
      · simp only [mergeProofs, ha, hb, hsame, if_true, Bool.false_eq_true, if_false]
        have hproofs := describesSameStateAs_proofs hsame
        rcases hσ with hs | hs
        · exact ⟨hs.proofs.implications, hs.proofs.narrowings⟩
        · constructor
          · rw [hproofs.1]
            exact hs.proofs.implications
          · intro holder proof hproof
            rw [filed_eq_of_sameImpliedNarrowings hproofs.2] at hproof
            exact hs.proofs.narrowings holder proof hproof
      · rw [Bool.not_eq_true] at hsame
        have hjoins : Joins a b sharing := ⟨ha, hb, hsame⟩
        rw [mergeProofs_of_joins hjoins]
        constructor
        · intro holder implied himplied
          exact implies_of_join (hv hjoins) hσ himplied
        · intro holder proof hproof
          exact narrows_of_join (hv hjoins) (hnone hjoins) hσ hproof

/-- A proof one path recorded and the other let stand is one of the join's. -/
theorem narrows_of_joinSound {sharing : Sharing a b} (hjoin : JoinSound r a b sharing)
    (hjoins : Joins a b sharing) (hvisited : holder ∈ sharing.impliedNarrowings.keys)
    {p : ImpliedNarrowing} (hkept : p ∈ keptNarrowings a b holder)
    (hσ : Satisfies r a σ ∨ Satisfies r b σ) : r.narrows σ holder p := by
  have htrue := joinSound_iff_forall.mp hjoin σ hσ
  rw [mergeProofs_of_joins hjoins] at htrue
  exact htrue.narrowings holder p (kept_mem_joinImpliedNarrowings hvisited hkept)

/-- A mistaken proof that is kept and left open makes the join unsound.  The
induction is over the proofs recorded before it: one that asks the same is kept
in its place, and stands by itself or is mistaken too. -/
theorem noneMistaken_of_joinSound {sharing : Sharing a b}
    (hmineOpen : ∀ holder, ∀ p ∈ filed a.impliedNarrowings holder, Mistaken b holder p →
      LeavesOpen r b holder p)
    (htheirsOpen : ∀ holder, ∀ p ∈ filed b.impliedNarrowings holder, Mistaken a holder p →
      LeavesOpen r a holder p)
    (hjoin : JoinSound r a b sharing) (hjoins : Joins a b sharing) :
    NoneMistaken a b sharing.revisit := by
  intro holder hvisited
  have hmine : ∀ p ∈ filed a.impliedNarrowings holder, ¬Mistaken b holder p := by
    intro p hp hmistaken
    have hkept : p ∈ keptNarrowings a b holder :=
      mem_keptNarrowings.mpr (Or.inl ⟨hp, survives_iff.mpr (Or.inr hmistaken)⟩)
    obtain ⟨σ, hs, hmeets, hnot⟩ := hmineOpen holder p hp hmistaken
    exact hnot (narrows_of_joinSound hjoin hjoins hvisited hkept (Or.inr hs) hmeets)
  refine ⟨hmine, ?_⟩
  intro before
  induction hlength : before.length using Nat.strong_induction_on generalizing before with
  | _ length ih =>
      intro p after hsplit hmistaken
      have hp : p ∈ filed b.impliedNarrowings holder := by simp [hsplit]
      by_cases hasked : asksTheSameAs
          ((filed a.impliedNarrowings holder).filter
              (survives b (filed b.impliedNarrowings holder) holder) ++
            before.filter (survives a (filed a.impliedNarrowings holder) holder)) p = true
      · obtain ⟨q, hq, hkey, htrigger⟩ := asksTheSameAs_iff.mp hasked
        rw [List.mem_append, List.mem_filter, List.mem_filter] at hq
        rcases hq with ⟨hq, hsurvives⟩ | ⟨hq, hsurvives⟩
        · have hstands := (survives_iff.mp hsurvives).resolve_right (hmine q hq)
          exact Or.inl ⟨q, hq, hstands, hkey, htrigger⟩
        · rcases survives_iff.mp hsurvives with hstands | hmistakenBefore
          · exact Or.inr ⟨q, hq, hstands, hkey, htrigger⟩
          · obtain ⟨earlier, later, rfl⟩ := List.append_of_mem hq
            have hshorter : earlier.length < length := by
              rw [← hlength, List.length_append]
              simp
            rw [List.append_assoc, List.cons_append] at hsplit
            have hq := ih earlier.length hshorter earlier rfl q _ hsplit hmistakenBefore
            rw [AskedByStanding, AskedByStanding, hkey, htrigger] at hq
            refine hq.imp id ?_
            intro hearlier
            obtain ⟨q', hq', hrest⟩ := hearlier
            exact ⟨q', List.mem_append_left _ hq', hrest⟩
      · rw [Bool.not_eq_true] at hasked
        have hkept : p ∈ keptNarrowings a b holder :=
          mem_keptNarrowings.mpr
            (Or.inr ⟨before, after, hsplit, survives_iff.mpr (Or.inr hmistaken), hasked⟩)
        obtain ⟨σ, hs, hmeets, hnot⟩ := htheirsOpen holder p hp hmistaken
        exact absurd (narrows_of_joinSound hjoin hjoins hvisited hkept (Or.inl hs) hmeets) hnot

end

/-- The scalars: `null`, integers and strings. -/
abbrev Scalar := Option (Int ⊕ String)

/-- What the scalar keywords describe. -/
def scalarReading : Reading Scalar where
  describes t v :=
    match v with
    | none => t = PhpType.null
    | some (.inl _) => t = PhpType.int
    | some (.inr _) => t = PhpType.string
  null := none

def plain (t : PhpType) : ResolvedType := ⟨t, none⟩

/-- A path that found a string in `$k` for an integer in `$h`. -/
def found : ScopeState Unit where
  locals := ∅
  nonNullImplications := ∅
  impliedNarrowings := (∅ : Table Atom (List ImpliedNarrowing)).insert "$h"
    [⟨.within [plain PhpType.int], "$k", [plain PhpType.string]⟩]
  ruledOut := ∅
  unresolved := ∅
  rest := ()
  unreachable := false

/-- A path that holds a string in `$h` and looked nothing up. -/
def skipped : ScopeState Unit where
  locals := (∅ : Table Atom (List ResolvedType)).insert "$h" [plain PhpType.string]
  nonNullImplications := ∅
  impliedNarrowings := ∅
  ruledOut := ∅
  unresolved := ∅
  rest := ()
  unreachable := false

def skippedSharing : Sharing found skipped where
  locals := ⟨["$h"], by
    intro key hkey
    rw [List.mem_singleton] at hkey
    simp [found, skipped, Ne.symm hkey]⟩
  unresolved := ⟨[], fun _ _ => rfl⟩
  nonNullImplications := ⟨[], fun _ _ => rfl⟩
  impliedNarrowings := ⟨["$h"], by
    intro key hkey
    rw [List.mem_singleton] at hkey
    simp [found, skipped, Ne.symm hkey]⟩
  ruledOut := ⟨[], fun _ _ => rfl⟩

/-- A scalar is described by one keyword. -/
theorem eq_of_describes_scalar {t u : PhpType} {v : Scalar}
    (ht : scalarReading.describes t v) (hu : scalarReading.describes u v) : t = u := by
  match v with
  | none => exact ht.trans hu.symm
  | some (.inl _) => exact ht.trans hu.symm
  | some (.inr _) => exact ht.trans hu.symm

theorem recorded_found {holder : Atom} {p : ImpliedNarrowing}
    (hp : p ∈ filed found.impliedNarrowings holder) :
    holder = "$h" ∧ p = ⟨.within [plain PhpType.int], "$k", [plain PhpType.string]⟩ := by
  simp only [found, filed_insert, filed_empty] at hp
  by_cases hh : "$h" = holder
  · rw [if_pos hh, List.mem_singleton] at hp
    exact ⟨hh.symm, hp⟩
  · rw [if_neg hh] at hp
    exact absurd hp List.not_mem_nil

theorem locals_skipped {key : Atom} {types : List ResolvedType}
    (h : skipped.locals[key]? = some types) : types = [plain PhpType.string] := by
  simp only [skipped, Table.get_insert] at h
  by_cases hh : "$h" = key
  · rw [if_pos hh, Option.some.injEq] at h
    exact h.symm
  · simp [hh] at h

/-- What one path puts to the other is the lookup. -/
theorem putTo_found {side : ScopeState Unit} {holder : Atom} {p : ImpliedNarrowing}
    (h : PutTo found skipped skippedSharing.revisit side holder p) :
    side = skipped ∧ holder = "$h" ∧
      p = ⟨.within [plain PhpType.int], "$k", [plain PhpType.string]⟩ := by
  rcases h.2 with h | h
  · exact ⟨h.1, recorded_found h.2⟩
  · simp [skipped] at h

theorem not_weighed_found {key : Atom} {mine theirs : List ResolvedType} :
    ¬Weighed found skipped skippedSharing.revisit key mine theirs := by
  intro h
  have hmine := h.2.1
  simp [found] at hmine

theorem held_skipped : held skipped "$h" = [plain PhpType.string] := by
  simp [held, skipped]

theorem verdictsRight_found :
    let _ := constantHasher
    VerdictsRight scalarReading found skipped skippedSharing.revisit := by
  let _ := constantHasher
  show VerdictsRight _ _ _ _
  -- only the other path holds anything, and that is a string
  have hstring {side : ScopeState Unit} {key : Atom} {types : List ResolvedType}
      {rt : ResolvedType} (hside : side = found ∨ side = skipped)
      (hget : side.locals[key]? = some types) (hrt : rt ∈ types) :
      rt.typeString = PhpType.string := by
    rcases hside with rfl | rfl
    · simp [found] at hget
    · rw [locals_skipped hget, List.mem_singleton] at hrt
      rw [hrt]
      rfl
  constructor
  · intro side key types hside _ hget rt hrt hnull
    rw [hstring hside hget hrt] at hnull
    exact absurd hnull (by decide)
  · intro side key types hside _ hget rt hrt _
    rw [hstring hside hget hrt]
    show PhpType.string ≠ PhpType.null
    decide
  · intro narrow wide hasks
    rcases hasks with ⟨key, hweighed | hweighed⟩ | ⟨side, holder, p, hput, htrigger, _⟩
    · exact absurd hweighed not_weighed_found
    · exact absurd hweighed not_weighed_found
    · rw [(putTo_found hput).2.2] at htrigger
      cases htrigger
  · intro key mine theirs hweighed
    exact absurd hweighed not_weighed_found
  · intro key mine theirs hweighed
    exact absurd hweighed not_weighed_found
  · intro side holder p types hput htrigger _ v hheld hholds
    obtain ⟨rfl, rfl, rfl⟩ := putTo_found hput
    rw [ProofTrigger.within.injEq] at htrigger
    rw [← htrigger] at hholds
    rw [held_skipped] at hheld
    obtain ⟨rt, hrt, hdescribes⟩ := Reading.holds_of_ne_nil hheld (by simp)
    obtain ⟨rt', hrt', hdescribes'⟩ := Reading.holds_of_ne_nil hholds (by simp)
    rw [List.mem_singleton.mp hrt] at hdescribes
    rw [List.mem_singleton.mp hrt'] at hdescribes'
    exact absurd (eq_of_describes_scalar hdescribes hdescribes') (by decide)

theorem noneMistaken_found :
    let _ := constantHasher
    NoneMistaken found skipped skippedSharing.revisit := by
  let _ := constantHasher
  show NoneMistaken _ _ _
  intro holder _
  constructor
  · intro p hp hmistaken
    obtain ⟨rfl, rfl⟩ := recorded_found hp
    have hstands : standsOn skipped "$h"
        ⟨.within [plain PhpType.int], "$k", [plain PhpType.string]⟩ = true := by
      unfold standsOn
      rw [Bool.or_eq_true]
      right
      show disjointFrom (held skipped "$h") [plain PhpType.int] = true
      rw [held_skipped]
      decide +kernel
    exact absurd hstands (by simp [hmistaken.1])
  · intro before p after hsplit
    simp [skipped] at hsplit

/-- A path that set `$h` to one type with a string in `$k`, or to another with
`null` there, as the join of the two leaves it. -/
def lookup (found missing : PhpType) : ScopeState Unit where
  locals := (∅ : Table Atom (List ResolvedType)).insert "$h" [plain found, plain missing] |>.insert
    "$k" [plain PhpType.string, plain PhpType.null]
  nonNullImplications := ∅
  impliedNarrowings := (∅ : Table Atom (List ImpliedNarrowing)).insert "$h"
    [⟨.within [plain found], "$k", [plain PhpType.string]⟩,
      ⟨.within [plain missing], "$k", [plain PhpType.null]⟩] |>.insert "$k"
    [⟨.nonNull, "$h", [plain found]⟩, ⟨.within [plain PhpType.null], "$h", [plain missing]⟩]
  ruledOut := ∅
  unresolved := ∅
  rest := ()
  unreachable := false

def lookupSharing (found missing : PhpType) : Sharing (lookup found missing) (lookup missing found) where
  locals := ⟨["$h", "$k"], by
    intro key hkey
    simp only [List.mem_cons, not_or, List.not_mem_nil] at hkey
    simp [lookup, Ne.symm hkey.1, Ne.symm hkey.2.1]⟩
  unresolved := ⟨[], fun _ _ => rfl⟩
  nonNullImplications := ⟨[], fun _ _ => rfl⟩
  impliedNarrowings := ⟨["$h", "$k"], by
    intro key hkey
    simp only [List.mem_cons, not_or, List.not_mem_nil] at hkey
    simp [lookup, Ne.symm hkey.1, Ne.symm hkey.2.1]⟩
  ruledOut := ⟨[], fun _ _ => rfl⟩

/-- An integer in `$h` and `null` everywhere else. -/
def foundNothing (key : Atom) : Scalar := if key = "$h" then some (.inl 1) else none

theorem satisfies_foundNothing :
    Satisfies scalarReading (lookup PhpType.string PhpType.int) foundNothing := by
  constructor
  · rfl
  · intro key types hget
    simp only [lookup, Table.get_insert] at hget
    by_cases hk : "$k" = key
    · subst hk
      rw [if_pos rfl, Option.some.injEq] at hget
      subst hget
      exact Or.inr ⟨plain PhpType.null, by simp, rfl⟩
    · rw [if_neg hk] at hget
      by_cases hh : "$h" = key
      · subst hh
        rw [if_pos rfl, Option.some.injEq] at hget
        subst hget
        exact Or.inr ⟨plain PhpType.int, by simp, rfl⟩
      · simp [hh] at hget
  · intro key gone hgone
    simp [lookup] at hgone
  · constructor
    · intro holder implied himplied
      simp [lookup] at himplied
    · intro holder proof hproof
      simp only [lookup, filed_insert] at hproof
      by_cases hk : "$k" = holder
      · subst hk
        simp only [if_true, List.mem_cons, List.not_mem_nil, or_false] at hproof
        rcases hproof with rfl | rfl
        · intro hmeets
          exact absurd rfl hmeets
        · intro _
          exact Or.inr ⟨plain PhpType.int, by simp, rfl⟩
      · rw [if_neg hk] at hproof
        by_cases hh : "$h" = holder
        · subst hh
          simp only [if_true, List.mem_cons, List.not_mem_nil, or_false] at hproof
          rcases hproof with rfl | rfl
          · intro hmeets
            obtain ⟨rt, hrt, hdescribes⟩ := Reading.holds_of_ne_nil hmeets (by simp)
            rw [List.mem_singleton.mp hrt] at hdescribes
            have hne : PhpType.string ≠ PhpType.int := by decide
            exact absurd hdescribes hne
          · intro _
            exact Or.inr ⟨plain PhpType.null, by simp, rfl⟩
        · simp [hh] at hproof

theorem filed_lookup (found missing : PhpType) :
    filed (lookup found missing).impliedNarrowings "$h" =
      [⟨.within [plain found], "$k", [plain PhpType.string]⟩,
        ⟨.within [plain missing], "$k", [plain PhpType.null]⟩] := by
  simp [lookup, filed_insert]

end PhpantomLsp.Flow
