import PhpantomLsp.Members.Offers
import PhpantomLsp.Members.Ancestry

/-!
# Where a merged method is declared

The merge and the search for the declaring class walk the same hierarchy.  The
merge takes what a trait uses before the trait's own methods and what a parent
uses before the parent's own, leaves out what an adaptation excludes and what is
private, and adds aliases; the search looks at the trait or the parent first and
at none of the rest.

They agree on a method as long as the walks stay in step up to the first place
that offers it.
-/

namespace PhpantomLsp.Members

open PhpantomLsp.Text (asciiLower eqIgnoreAsciiCase)

/-- `member_exists` of a method. -/
def declaresMethod (n : Atom) (c : ClassInfo) : Bool :=
  c.methods.any fun m => eqIgnoreAsciiCase m.name n

/-- `resolve_declaring_member_owner`: the class itself is tested before its
ancestors, by every caller. -/
def declaringOwner (load : ClassLoader) (c : ClassInfo) (n : Atom) : Option ClassInfo :=
  if declaresMethod n c then some c
  else (findDeclaringAncestor load (declaresMethod n) c).map Prod.snd

/-- The entries merged under a method's name come from the class found to declare
it. -/
def OwnerAgrees (load : ClassLoader) (c : ClassInfo) (n : Atom) : Prop :=
  ∀ d ∈ (resolveClassWithInheritance load c).methods.entries,
    eqIgnoreAsciiCase d.member.name n → declaringOwner load c n = some d.declaredIn

/-! ## Walking in step -/

section InStep

variable (load : ClassLoader) (n : Atom)

def offersMethod (offers : List Offer) : Bool := offers.any (brings .method (asciiLower n))

def noneDeclares (classes : List ClassInfo) : Bool := classes.all fun c => !declaresMethod n c

/-- Both walks of some traits come to the same declaration, or `rest` holds and
neither comes to any. -/
def traitsInStep : (fuel : Nat) → (traitNames : List Atom) → TraitContext → (rest : Bool) → Bool
  | 0, _, _, rest => rest
  | fuel + 1, traitNames, ctx, rest =>
      traitNames.foldr
        (fun name rest =>
          match load name with
          | none => rest
          | some t =>
              if offersMethod n (offersOfTraits load fuel t.usedTraits t.traitContext) then
                !declaresMethod n t && traitsInStep fuel t.usedTraits t.traitContext false
              else if offersMethod n (offersOfTraitParents load fuel t) then false
              else if offersMethod n (ctx.offers name t) then declaresMethod n t
              else noneDeclares n (t :: traitsWithin load fuel t.usedTraits) && rest)
        rest

def parentsInStep : (fuel : Nat) → (current : ClassInfo) → Bool
  | 0, _ => false
  | fuel + 1, current =>
      match current.parentClass.bind (loadAncestor load current.fqn) with
      | none => false
      | some parent =>
          if offersMethod n (parent.traitOffers load) then
            !declaresMethod n parent &&
              traitsInStep load n (maxTraitDepth + 1) parent.usedTraits parent.traitContext false
          else if offersMethod n parent.inherited then true
          else
            noneDeclares n (parent :: traitsWithin load (maxTraitDepth + 1) parent.usedTraits) &&
              parentsInStep fuel parent

/-- One of some classes declares the method, and none before it does. -/
def firstToDeclare : (classes : List ClassInfo) → (c : ClassInfo) → Bool
  | [], _ => false
  | first :: rest, c =>
      if first = c then declaresMethod n c else !declaresMethod n first && firstToDeclare rest c

mutual

/-- The merge of some traits first comes to the method at an interface: at a
trait, or at what a trait extends, that is the first of `interfaces` to declare it. -/
def traitsComeTo (interfaces : List ClassInfo) :
    (fuel : Nat) → (traitNames : List Atom) → TraitContext → (rest : Bool) → Bool
  | 0, _, _, rest => rest
  | fuel + 1, traitNames, ctx, rest =>
      traitNames.foldr
        (fun name rest =>
          match load name with
          | none => rest
          | some t =>
              if offersMethod n (offersOfTraits load fuel t.usedTraits t.traitContext) then
                traitsComeTo interfaces fuel t.usedTraits t.traitContext false
              else if offersMethod n (offersOfTraitParents load fuel t) then
                traitParentsComeTo interfaces fuel t
              else if offersMethod n (ctx.offers name t) then firstToDeclare n interfaces t
              else rest)
        rest

def traitParentsComeTo (interfaces : List ClassInfo) : (fuel : Nat) → (current : ClassInfo) → Bool
  | 0, _ => false
  | fuel + 1, current =>
      match current.parentClass.bind (loadAncestor load current.fqn) with
      | none => false
      | some parent =>
          if offersMethod n (offersOfTraits load fuel parent.usedTraits parent.traitContext) then
            traitsComeTo interfaces fuel parent.usedTraits parent.traitContext false
          else if offersMethod n parent.inherited then firstToDeclare n interfaces parent
          else traitParentsComeTo interfaces fuel parent

end

def parentsComeTo (interfaces : List ClassInfo) : (fuel : Nat) → (current : ClassInfo) → Bool
  | 0, _ => false
  | fuel + 1, current =>
      match current.parentClass.bind (loadAncestor load current.fqn) with
      | none => false
      | some parent =>
          if offersMethod n (parent.traitOffers load) then
            traitsComeTo load n interfaces (maxTraitDepth + 1) parent.usedTraits
              parent.traitContext false
          else if offersMethod n parent.inherited then firstToDeclare n interfaces parent
          else parentsComeTo interfaces fuel parent

/-- The walks of a class stay in step; or no class or trait the search looks at
declares the method, and the merge first comes to it at the first interface that
does. -/
def inStep (c : ClassInfo) : Bool :=
  declaresMethod n c || !offersMethod n (c.offers load) ||
    traitsInStep load n (maxTraitDepth + 1) c.usedTraits c.traitContext
      (parentsInStep load n maxInheritanceDepth c) ||
    (noneDeclares n (classesWithin load c) &&
      traitsComeTo load n (interfacesWithin load c) (maxTraitDepth + 1) c.usedTraits c.traitContext
        (parentsComeTo load n (interfacesWithin load c) maxInheritanceDepth c))

end InStep

/-! ## The search stays within what the merge reaches -/

section Subset

variable (load : ClassLoader)

theorem traitsWithin_subset (fuel : Nat) (names : List Atom) :
    ∀ t ∈ traitsWithin load fuel names, t ∈ traitsReached load fuel names := by
  induction fuel generalizing names with
  | zero => intro t ht; cases ht
  | succ fuel ih =>
      intro u hu
      rw [traitsWithin, List.mem_flatMap] at hu
      obtain ⟨name, hname, hu⟩ := hu
      rw [traitsReached, List.mem_flatMap]
      refine ⟨name, hname, ?_⟩
      cases hload : load name with
      | none => simp [hload] at hu
      | some t =>
          simp only [hload, List.mem_cons] at hu
          simp only [List.mem_append, List.mem_singleton]
          rcases hu with rfl | hu
          · exact Or.inr (Or.inr rfl)
          · exact Or.inl (ih _ u hu)

theorem parentsWithin_subset (fuel : Nat) (current : ClassInfo) :
    ∀ c ∈ parentsWithin load fuel current, c ∈ parentsReached load fuel current := by
  induction fuel generalizing current with
  | zero => intro c hc; cases hc
  | succ fuel ih =>
      intro c hc
      rw [parentsWithin] at hc
      rw [parentsReached]
      cases hname : current.parentClass with
      | none => simp [hname] at hc
      | some name =>
          cases hload : load name with
          | none => simp [hname, hload] at hc
          | some parent =>
              simp only [hname, hload, List.mem_cons, List.mem_append] at hc
              simp only [hload, List.mem_append, List.mem_cons]
              rcases hc with hc | hc | hc
              · exact Or.inr (Or.inl hc)
              · exact Or.inl (traitsWithin_subset load _ _ c hc)
              · exact Or.inr (Or.inr (ih parent c hc))

end Subset

/-! ## In step, the search finds what the merge takes -/

/-- The first offer comes from the first class found, or there is neither and
the walks go on to `rest`. -/
def Aligned (taken : Option Offer) (found : Option ClassInfo) (rest : Prop) : Prop :=
  match taken with
  | some o => found = some o.2.declaredIn
  | none => found = none ∧ rest

section Walks

variable (load : ClassLoader) (n : Atom)

theorem exists_of_offersMethod {offers : List Offer} (h : offersMethod n offers = true) :
    ∃ o ∈ offers, offers.find? (brings .method (asciiLower n)) = some o := by
  obtain ⟨o, ho⟩ := Option.isSome_iff_exists.mp ((List.find?_isSome).mpr (List.any_eq_true.mp h))
  exact ⟨o, List.mem_of_find?_eq_some ho, ho⟩

theorem find_of_not_offersMethod {offers : List Offer} (h : ¬offersMethod n offers = true) :
    offers.find? (brings .method (asciiLower n)) = none := by
  rw [List.find?_eq_none]
  intro o ho hbrings
  exact h (List.any_eq_true.mpr ⟨o, ho, hbrings⟩)

theorem find_eq_none_iff_noneDeclares (classes : List ClassInfo) :
    classes.find? (declaresMethod n) = none ↔ noneDeclares n classes = true := by
  simp [noneDeclares]

/-- A class whose members are passed on under a name declares it. -/
theorem declaresMethod_of_inherited {c : ClassInfo} (h : offersMethod n c.inherited = true) :
    declaresMethod n c = true := by
  obtain ⟨o, ho, hbrings⟩ := List.any_eq_true.mp h
  simp only [brings, Bool.and_eq_true, decide_eq_true_eq] at hbrings
  simp only [ClassInfo.inherited, ClassInfo.visible, List.mem_append, List.mem_map,
    List.mem_filter] at ho
  rcases ho with ⟨m, ⟨hm, -⟩, rfl⟩ | ⟨m, -, rfl⟩ | ⟨m, -, rfl⟩
  · refine List.any_eq_true.mpr ⟨m, hm, ?_⟩
    exact beq_iff_eq.mpr hbrings.2
  · cases hbrings.1
  · cases hbrings.1

/-- What one trait adds to a walk of the traits named before it. -/
theorem traits_cons {name : Atom} {t : ClassInfo} (hload : load name = some t) (fuel : Nat)
    (names : List Atom) (ctx : TraitContext) (rest : Bool) :
    (traitsInStep load n (fuel + 1) (name :: names) ctx rest =
      if offersMethod n (offersOfTraits load fuel t.usedTraits t.traitContext) then
        !declaresMethod n t && traitsInStep load n fuel t.usedTraits t.traitContext false
      else if offersMethod n (offersOfTraitParents load fuel t) then false
      else if offersMethod n (ctx.offers name t) then declaresMethod n t
      else noneDeclares n (t :: traitsWithin load fuel t.usedTraits) &&
        traitsInStep load n (fuel + 1) names ctx rest) ∧
    offersOfTraits load (fuel + 1) (name :: names) ctx =
      (offersOfTraits load fuel t.usedTraits t.traitContext ++
        (offersOfTraitParents load fuel t ++ ctx.offers name t)) ++
        offersOfTraits load (fuel + 1) names ctx ∧
    traitsWithin load (fuel + 1) (name :: names) =
      (t :: traitsWithin load fuel t.usedTraits) ++ traitsWithin load (fuel + 1) names ∧
    traitsReached load (fuel + 1) (name :: names) =
      (traitsReached load fuel t.usedTraits ++ (traitParentsReached load fuel t ++ [t])) ++
        traitsReached load (fuel + 1) names := by
  refine ⟨?_, ?_, ?_, ?_⟩
  · simp only [traitsInStep, List.foldr_cons, hload]
  · simp only [offersOfTraits, List.flatMap_cons, hload]
  · simp only [traitsWithin, List.flatMap_cons, hload]
  · simp only [traitsReached, List.flatMap_cons, hload]

/-- A name that loads nothing adds nothing. -/
theorem traits_skip {name : Atom} (hload : load name = none) (fuel : Nat)
    (names : List Atom) (ctx : TraitContext) (rest : Bool) :
    traitsInStep load n (fuel + 1) (name :: names) ctx rest =
      traitsInStep load n (fuel + 1) names ctx rest ∧
    offersOfTraits load (fuel + 1) (name :: names) ctx =
      offersOfTraits load (fuel + 1) names ctx ∧
    traitsWithin load (fuel + 1) (name :: names) = traitsWithin load (fuel + 1) names ∧
    traitsReached load (fuel + 1) (name :: names) = traitsReached load (fuel + 1) names := by
  refine ⟨?_, ?_, ?_, ?_⟩
  · simp only [traitsInStep, List.foldr_cons, hload]
  · simp [offersOfTraits, hload]
  · simp [traitsWithin, hload]
  · simp [traitsReached, hload]

theorem aligned_of_traitsInStep (fuel : Nat) (names : List Atom) (ctx : TraitContext)
    (rest : Bool) (h : traitsInStep load n fuel names ctx rest = true) :
    Aligned ((offersOfTraits load fuel names ctx).find? (brings .method (asciiLower n)))
      ((traitsWithin load fuel names).find? (declaresMethod n)) (rest = true) := by
  induction fuel generalizing names ctx rest with
  | zero => exact ⟨rfl, h⟩
  | succ fuel ih =>
      induction names with
      | nil => exact ⟨rfl, h⟩
      | cons name names ihnames =>
          cases hload : load name with
          | none =>
              obtain ⟨hstep, hoffers, hwithin, -⟩ := traits_skip load n hload fuel names ctx rest
              rw [hoffers, hwithin]
              exact ihnames (hstep ▸ h)
          | some t =>
              obtain ⟨hstep, hoffers, hwithin, -⟩ := traits_cons load n hload fuel names ctx rest
              rw [hstep] at h
              rw [hoffers, hwithin]
              by_cases hnested :
                  offersMethod n (offersOfTraits load fuel t.usedTraits t.traitContext) = true
              · -- The traits it uses are taken first; it must not declare the method.
                rw [if_pos hnested, Bool.and_eq_true, Bool.not_eq_true'] at h
                obtain ⟨o, -, hfirst⟩ := exists_of_offersMethod n hnested
                have halign := ih t.usedTraits t.traitContext false h.2
                rw [hfirst] at halign
                simp [hfirst, h.1, Aligned, show _ = some o.2.declaredIn from halign]
              · rw [if_neg hnested] at h
                by_cases hchain : offersMethod n (offersOfTraitParents load fuel t) = true
                · rw [if_pos hchain] at h
                  cases h
                · rw [if_neg hchain] at h
                  by_cases hown : offersMethod n (ctx.offers name t) = true
                  · rw [if_pos hown] at h
                    obtain ⟨o, ho, hfirst⟩ := exists_of_offersMethod n hown
                    simp [find_of_not_offersMethod n hnested, find_of_not_offersMethod n hchain,
                      hfirst, h, Aligned, declaredIn_of_mem_offers ho]
                  · rw [if_neg hown, Bool.and_eq_true] at h
                    have hnone := (find_eq_none_iff_noneDeclares n _).mpr h.1
                    rw [List.find?_append, List.find?_append, List.find?_append,
                      find_of_not_offersMethod n hnested, find_of_not_offersMethod n hchain,
                      find_of_not_offersMethod n hown, List.find?_append, hnone]
                    exact ihnames h.2

/-- What one parent adds to a walk of the parents above it. -/
theorem parents_cons {current parent : ClassInfo}
    (hparent : current.parentClass.bind (loadAncestor load current.fqn) = some parent)
    (fuel : Nat) :
    (parentsInStep load n (fuel + 1) current =
      if offersMethod n (parent.traitOffers load) then
        !declaresMethod n parent &&
          traitsInStep load n (maxTraitDepth + 1) parent.usedTraits parent.traitContext false
      else if offersMethod n parent.inherited then true
      else noneDeclares n (parent :: traitsWithin load (maxTraitDepth + 1) parent.usedTraits) &&
        parentsInStep load n fuel parent) ∧
    offersOfParents load (fuel + 1) current =
      parent.traitOffers load ++ (parent.inherited ++ offersOfParents load fuel parent) ∧
    parentsWithin load (fuel + 1) current =
      (parent :: traitsWithin load (maxTraitDepth + 1) parent.usedTraits) ++
        parentsWithin load fuel parent ∧
    parentsReached load (fuel + 1) current =
      traitsReached load (maxTraitDepth + 1) parent.usedTraits ++
        (parent :: parentsReached load fuel parent) := by
  obtain ⟨name, hname, hload⟩ := parent_of_loadAncestor load hparent
  refine ⟨?_, ?_, ?_, ?_⟩
  · rw [parentsInStep, hparent]
  · rw [offersOfParents, hparent]
  · simp only [parentsWithin, hname, hload, List.cons_append]
  · simp only [parentsReached, hname, hload]

theorem taken_of_parentsInStep (fuel : Nat) (current : ClassInfo)
    (h : parentsInStep load n fuel current = true) :
    ∃ o, (offersOfParents load fuel current).find? (brings .method (asciiLower n)) = some o ∧
      (parentsWithin load fuel current).find? (declaresMethod n) = some o.2.declaredIn := by
  induction fuel generalizing current with
  | zero => cases h
  | succ fuel ih =>
      cases hparent : current.parentClass.bind (loadAncestor load current.fqn) with
      | none => simp [parentsInStep, hparent] at h
      | some parent =>
          obtain ⟨hstep, hoffers, hwithin, -⟩ := parents_cons load n hparent fuel
          rw [hstep] at h
          rw [hoffers, hwithin]
          by_cases htraits : offersMethod n (parent.traitOffers load) = true
          · rw [if_pos htraits, Bool.and_eq_true, Bool.not_eq_true'] at h
            obtain ⟨o, -, hfirst⟩ := exists_of_offersMethod n htraits
            have halign := aligned_of_traitsInStep load n _ _ _ _ h.2
            rw [show (offersOfTraits load _ _ _).find? _ = _ from hfirst] at halign
            refine ⟨o, ?_, ?_⟩
            · simp [hfirst]
            · simp [h.1, show _ = some o.2.declaredIn from halign]
          · rw [if_neg htraits] at h
            by_cases hown : offersMethod n parent.inherited = true
            · obtain ⟨o, ho, hfirst⟩ := exists_of_offersMethod n hown
              refine ⟨o, ?_, ?_⟩
              · simp [find_of_not_offersMethod n htraits, hfirst]
              · simp [declaresMethod_of_inherited n hown, declaredIn_of_mem_inherited ho]
            · rw [if_neg hown, Bool.and_eq_true] at h
              obtain ⟨o, hfirst, hfound⟩ := ih parent h.2
              have hnone := (find_eq_none_iff_noneDeclares n _).mpr h.1
              refine ⟨o, ?_, ?_⟩
              · rw [List.find?_append, List.find?_append, find_of_not_offersMethod n htraits,
                  find_of_not_offersMethod n hown, hfirst]
                rfl
              · rw [List.find?_append, hnone, hfound]
                rfl

end Walks

/-! ## Out of step, it finds another one

Where no class is reached twice, the places the merge takes a method from and the
places the search comes to earlier are different classes. -/

section Apart

theorem find_append_of_not_mem {α : Type} {p : α → Bool} {a b : List α} {x : α}
    (h : (a ++ b).find? p = some x) (hx : x ∉ a) : a.find? p = none ∧ b.find? p = some x := by
  rw [List.find?_append] at h
  cases ha : a.find? p with
  | none => exact ⟨rfl, by simpa [ha] using h⟩
  | some y =>
      have hyx : y = x := by simpa [ha] using h
      exact absurd (hyx ▸ List.mem_of_find?_eq_some ha) hx

theorem find_of_append_of_not_mem {α : Type} {p : α → Bool} {a b : List α} {x : α}
    (h : (a ++ b).find? p = some x) (hx : x ∉ b) : a.find? p = some x := by
  rw [List.find?_append] at h
  cases ha : a.find? p with
  | none =>
      rw [ha, Option.none_or] at h
      exact absurd (List.mem_of_find?_eq_some h) hx
  | some y => simpa [ha] using h

/-- The parts of what one trait reaches have no class in common. -/
theorem apart {α : Type} {nested chain rest : List α} {t : α}
    (h : ((nested ++ (chain ++ [t])) ++ rest).Nodup) :
    nested.Nodup ∧ rest.Nodup ∧ (∀ x ∈ nested, x ≠ t ∧ x ∉ rest) ∧
      (∀ x ∈ chain, x ≠ t ∧ x ∉ nested ∧ x ∉ rest) ∧ t ∉ nested ∧ t ∉ rest := by
  simp only [List.nodup_append, List.mem_append, List.mem_singleton] at h
  grind

variable (load : ClassLoader) (n : Atom)

theorem traitsInStep_of_aligned (fuel : Nat) (names : List Atom) (ctx : TraitContext)
    (rest : Bool) (hnodup : (traitsReached load fuel names).Nodup)
    (h : Aligned ((offersOfTraits load fuel names ctx).find? (brings .method (asciiLower n)))
      ((traitsWithin load fuel names).find? (declaresMethod n)) (rest = true)) :
    traitsInStep load n fuel names ctx rest = true := by
  induction fuel generalizing names ctx rest with
  | zero => exact h.2
  | succ fuel ih =>
      induction names with
      | nil => exact h.2
      | cons name names ihnames =>
          cases hload : load name with
          | none =>
              obtain ⟨hstep, hoffers, hwithin, hreached⟩ :=
                traits_skip load n hload fuel names ctx rest
              rw [hstep]
              exact ihnames (hreached ▸ hnodup) (by rw [← hoffers, ← hwithin]; exact h)
          | some t =>
              obtain ⟨hstep, hoffers, hwithin, hreached⟩ :=
                traits_cons load n hload fuel names ctx rest
              rw [hreached] at hnodup
              obtain ⟨hnestedNodup, hrestNodup, hnestedApart, hchainApart, htNested, htRest⟩ :=
                apart hnodup
              have hsubset := traitsWithin_subset load fuel t.usedTraits
              have hsubsetRest := traitsWithin_subset load (fuel + 1) names
              rw [hoffers, hwithin] at h
              rw [hstep]
              by_cases hnested :
                  offersMethod n (offersOfTraits load fuel t.usedTraits t.traitContext) = true
              · rw [if_pos hnested, Bool.and_eq_true, Bool.not_eq_true']
                obtain ⟨o, ho, hfirst⟩ := exists_of_offersMethod n hnested
                have hmem := (declaredIn_mem_step load fuel).1 _ _ o ho
                simp only [List.find?_append, hfirst, Option.some_or] at h
                rw [← List.find?_append] at h
                have hfound : (t :: traitsWithin load fuel t.usedTraits).find? (declaresMethod n) =
                    some o.2.declaredIn :=
                  find_of_append_of_not_mem h fun hrest =>
                    (hnestedApart _ hmem).2 (hsubsetRest _ hrest)
                obtain ⟨hdeclares, hfound⟩ :=
                  find_append_of_not_mem (a := [t]) hfound (by simp [(hnestedApart _ hmem).1])
                refine ⟨by simpa using hdeclares, ih _ _ _ hnestedNodup ?_⟩
                rw [hfirst]
                exact hfound
              · rw [if_neg hnested]
                by_cases hchain : offersMethod n (offersOfTraitParents load fuel t) = true
                · -- What the trait extends is not looked at.
                  obtain ⟨o, ho, hfirst⟩ := exists_of_offersMethod n hchain
                  have hmem := (declaredIn_mem_step load fuel).2 _ o ho
                  obtain ⟨hnet, hnotNested, hnotRest⟩ := hchainApart _ hmem
                  simp only [List.find?_append, find_of_not_offersMethod n hnested, hfirst,
                    Option.none_or, Option.some_or] at h
                  rw [← List.find?_append] at h
                  have hfound := List.mem_of_find?_eq_some h
                  simp only [List.mem_append, List.mem_cons] at hfound
                  rcases hfound with (hfound | hfound) | hfound
                  · exact absurd hfound hnet
                  · exact absurd (hsubset _ hfound) hnotNested
                  · exact absurd (hsubsetRest _ hfound) hnotRest
                · rw [if_neg hchain]
                  by_cases hown : offersMethod n (ctx.offers name t) = true
                  · rw [if_pos hown]
                    obtain ⟨o, ho, hfirst⟩ := exists_of_offersMethod n hown
                    simp only [List.find?_append, find_of_not_offersMethod n hnested,
                      find_of_not_offersMethod n hchain, hfirst, Option.none_or,
                      Option.some_or] at h
                    rw [← List.find?_append] at h
                    have hfound := List.find?_some (show _ = some o.2.declaredIn from h)
                    rwa [declaredIn_of_mem_offers ho] at hfound
                  · rw [if_neg hown, Bool.and_eq_true]
                    simp only [List.find?_append, find_of_not_offersMethod n hnested,
                      find_of_not_offersMethod n hchain, find_of_not_offersMethod n hown,
                      Option.none_or] at h
                    rw [← List.find?_append] at h
                    have hnone : (t :: traitsWithin load fuel t.usedTraits).find?
                          (declaresMethod n) = none ∧
                        Aligned ((offersOfTraits load (fuel + 1) names ctx).find?
                            (brings .method (asciiLower n)))
                          ((traitsWithin load (fuel + 1) names).find? (declaresMethod n))
                          (rest = true) := by
                      cases hfirst : (offersOfTraits load (fuel + 1) names ctx).find?
                          (brings .method (asciiLower n)) with
                      | none =>
                          rw [hfirst] at h
                          obtain ⟨h, hrest⟩ := h
                          rw [List.find?_append, Option.or_eq_none_iff] at h
                          exact ⟨h.1, h.2, hrest⟩
                      | some o =>
                          rw [hfirst] at h
                          have hmem := (declaredIn_mem_step load (fuel + 1)).1 names ctx o
                            (List.mem_of_find?_eq_some hfirst)
                          refine find_append_of_not_mem h fun hin => ?_
                          rcases List.mem_cons.mp hin with hin | hin
                          · exact htRest (hin ▸ hmem)
                          · exact (hnestedApart _ (hsubset _ hin)).2 hmem
                    exact ⟨(find_eq_none_iff_noneDeclares n _).mp hnone.1,
                      ihnames hrestNodup hnone.2⟩

theorem parentsInStep_of_taken (fuel : Nat) (current : ClassInfo)
    (hnodup : (parentsReached load fuel current).Nodup) (o : Offer)
    (htaken : (offersOfParents load fuel current).find? (brings .method (asciiLower n)) = some o)
    (hfound : (parentsWithin load fuel current).find? (declaresMethod n) =
      some o.2.declaredIn) :
    parentsInStep load n fuel current = true := by
  induction fuel generalizing current with
  | zero => cases htaken
  | succ fuel ih =>
      cases hparent : current.parentClass.bind (loadAncestor load current.fqn) with
      | none => simp [offersOfParents, hparent] at htaken
      | some parent =>
          obtain ⟨hstep, hoffers, hwithin, hreached⟩ := parents_cons load n hparent fuel
          rw [hreached] at hnodup
          obtain ⟨hnodupTraits, hnodupParents, happart⟩ := List.nodup_append.mp hnodup
          have hsubset := traitsWithin_subset load (maxTraitDepth + 1) parent.usedTraits
          have hsubsetParents := parentsWithin_subset load fuel parent
          rw [hoffers] at htaken
          rw [hwithin] at hfound
          rw [hstep]
          by_cases htraits : offersMethod n (parent.traitOffers load) = true
          · rw [if_pos htraits, Bool.and_eq_true, Bool.not_eq_true']
            obtain ⟨o', ho', hfirst⟩ := exists_of_offersMethod n htraits
            rw [List.find?_append, hfirst, Option.some_or] at htaken
            obtain rfl : o' = o := Option.some.inj htaken
            have hmem := (declaredIn_mem_step load _).1 _ _ o' ho'
            have hnot : ∀ x ∈ parent :: parentsReached load fuel parent, o'.2.declaredIn ≠ x :=
              happart _ hmem
            have hfound := find_of_append_of_not_mem hfound fun hin =>
              hnot _ (List.mem_cons_of_mem _ (hsubsetParents _ hin)) rfl
            obtain ⟨hdeclares, hfound⟩ :=
              find_append_of_not_mem (a := [parent]) hfound (by simpa using hnot _ List.mem_cons_self)
            refine ⟨by simpa using hdeclares,
              traitsInStep_of_aligned load n _ _ _ _ hnodupTraits ?_⟩
            rw [show (offersOfTraits load _ _ _).find? _ = _ from hfirst]
            exact hfound
          · rw [if_neg htraits]
            by_cases hown : offersMethod n parent.inherited = true
            · rw [if_pos hown]
            · rw [if_neg hown, Bool.and_eq_true]
              rw [List.find?_append, List.find?_append, find_of_not_offersMethod n htraits,
                find_of_not_offersMethod n hown, Option.none_or, Option.none_or] at htaken
              have hmem := declaredIn_mem_parents load fuel parent o
                (List.mem_of_find?_eq_some htaken)
              obtain ⟨hnone, hfound⟩ := find_append_of_not_mem hfound fun hin => by
                rcases List.mem_cons.mp hin with hin | hin
                · exact (List.nodup_cons.mp hnodupParents).1 (hin ▸ hmem)
                · exact happart _ (hsubset _ hin) _ (List.mem_cons_of_mem _ hmem) rfl
              exact ⟨(find_eq_none_iff_noneDeclares n _).mp hnone,
                ih parent (List.nodup_cons.mp hnodupParents).2 htaken hfound⟩

end Apart

/-! ## At an interface -/

section Interfaces

variable (load : ClassLoader) (n : Atom) (interfaces : List ClassInfo)

theorem firstToDeclare_iff (c : ClassInfo) :
    firstToDeclare n interfaces c = true ↔ interfaces.find? (declaresMethod n) = some c := by
  induction interfaces with
  | nil => simp [firstToDeclare]
  | cons first rest ih =>
      rw [firstToDeclare]
      by_cases hdeclares : declaresMethod n first = true
      · rw [List.find?_cons_of_pos hdeclares, Option.some.injEq]
        by_cases hsame : first = c
        · rw [if_pos hsame, ← hsame]
          exact iff_of_true hdeclares rfl
        · simp [hdeclares, hsame]
      · rw [List.find?_cons_of_neg hdeclares]
        by_cases hsame : first = c
        · rw [if_pos hsame, ← hsame]
          refine iff_of_false hdeclares ?_
          intro hfound
          exact hdeclares (List.find?_some hfound)
        · simp [if_neg hsame, hdeclares, ih]

/-- The first offer is declared by the first interface, or there is none and
`rest` holds. -/
def ComesTo (taken : Option Offer) (rest : Bool) : Prop :=
  match taken with
  | some o => firstToDeclare n interfaces o.2.declaredIn = true
  | none => rest = true

theorem comesTo_append {offers : List Offer} (later : List Offer) (rest : Bool)
    (h : offersMethod n offers = true) (here : Bool)
    (hhere : here = true ↔ ComesTo n interfaces (offers.find? (brings .method (asciiLower n))) false) :
    here = true ↔
      ComesTo n interfaces ((offers ++ later).find? (brings .method (asciiLower n))) rest := by
  obtain ⟨o, -, hfirst⟩ := exists_of_offersMethod n h
  rw [hhere, List.find?_append, hfirst, Option.some_or]
  exact Iff.rfl

theorem comesTo_skip {offers : List Offer} (later : List Offer) (rest : Bool)
    (h : ¬offersMethod n offers = true) :
    ComesTo n interfaces ((offers ++ later).find? (brings .method (asciiLower n))) rest ↔
      ComesTo n interfaces (later.find? (brings .method (asciiLower n))) rest := by
  rw [List.find?_append, find_of_not_offersMethod n h, Option.none_or]

/-- Offers that one class declares. -/
theorem comesTo_of_declaredIn {offers : List Offer} {c : ClassInfo}
    (h : offersMethod n offers = true) (hall : ∀ o ∈ offers, o.2.declaredIn = c) :
    firstToDeclare n interfaces c = true ↔
      ComesTo n interfaces (offers.find? (brings .method (asciiLower n))) false := by
  obtain ⟨o, ho, hfirst⟩ := exists_of_offersMethod n h
  rw [hfirst, ← hall o ho]
  exact Iff.rfl

theorem comesTo_step (fuel : Nat) :
    (∀ names ctx rest, traitsComeTo load n interfaces fuel names ctx rest = true ↔
      ComesTo n interfaces
        ((offersOfTraits load fuel names ctx).find? (brings .method (asciiLower n))) rest) ∧
    (∀ current, traitParentsComeTo load n interfaces fuel current = true ↔
      ComesTo n interfaces
        ((offersOfTraitParents load fuel current).find? (brings .method (asciiLower n))) false) := by
  induction fuel with
  | zero =>
      constructor
      · intro names ctx rest
        rw [traitsComeTo, offersOfTraits]
        exact Iff.rfl
      · intro current
        rw [traitParentsComeTo, offersOfTraitParents]
        exact Iff.rfl
  | succ fuel ih =>
      constructor
      · intro names ctx rest
        rw [traitsComeTo, offersOfTraits]
        induction names with
        | nil => exact Iff.rfl
        | cons name names ihnames =>
            rw [List.foldr_cons, List.flatMap_cons]
            cases load name with
            | none => exact ihnames
            | some t =>
                rw [List.append_assoc, List.append_assoc]
                by_cases hnested :
                    offersMethod n (offersOfTraits load fuel t.usedTraits t.traitContext) = true
                · simp only [if_pos hnested]
                  exact comesTo_append n interfaces _ _ hnested _ (ih.1 _ _ _)
                · simp only [if_neg hnested]
                  rw [comesTo_skip n interfaces _ _ hnested]
                  by_cases hchain : offersMethod n (offersOfTraitParents load fuel t) = true
                  · simp only [if_pos hchain]
                    exact comesTo_append n interfaces _ _ hchain _ (ih.2 _)
                  · simp only [if_neg hchain]
                    rw [comesTo_skip n interfaces _ _ hchain]
                    by_cases hown : offersMethod n (ctx.offers name t) = true
                    · simp only [if_pos hown]
                      exact comesTo_append n interfaces _ _ hown _
                        (comesTo_of_declaredIn n interfaces hown fun o ho =>
                          declaredIn_of_mem_offers ho)
                    · simp only [if_neg hown]
                      rw [comesTo_skip n interfaces _ _ hown]
                      exact ihnames
      · intro current
        rw [traitParentsComeTo, offersOfTraitParents]
        cases current.parentClass.bind (loadAncestor load current.fqn) with
        | none => exact Iff.rfl
        | some parent =>
            by_cases htraits : offersMethod n
                (offersOfTraits load fuel parent.usedTraits parent.traitContext) = true
            · simp only [if_pos htraits]
              exact comesTo_append n interfaces _ _ htraits _ (ih.1 _ _ _)
            · simp only [if_neg htraits]
              rw [comesTo_skip n interfaces _ _ htraits]
              by_cases hown : offersMethod n parent.inherited = true
              · simp only [if_pos hown]
                exact comesTo_append n interfaces _ _ hown _
                  (comesTo_of_declaredIn n interfaces hown fun o ho =>
                    declaredIn_of_mem_inherited ho)
              · simp only [if_neg hown]
                rw [comesTo_skip n interfaces _ _ hown]
                exact ih.2 _

theorem parentsComeTo_iff (fuel : Nat) (current : ClassInfo) :
    parentsComeTo load n interfaces fuel current = true ↔
      ComesTo n interfaces
        ((offersOfParents load fuel current).find? (brings .method (asciiLower n))) false := by
  induction fuel generalizing current with
  | zero => exact Iff.rfl
  | succ fuel ih =>
      rw [parentsComeTo, offersOfParents]
      cases current.parentClass.bind (loadAncestor load current.fqn) with
      | none => exact Iff.rfl
      | some parent =>
          by_cases htraits : offersMethod n (parent.traitOffers load) = true
          · simp only [if_pos htraits]
            exact comesTo_append n interfaces _ _ htraits _ ((comesTo_step load n interfaces _).1 _ _ _)
          · simp only [if_neg htraits]
            rw [comesTo_skip n interfaces _ _ htraits]
            by_cases hown : offersMethod n parent.inherited = true
            · simp only [if_pos hown]
              exact comesTo_append n interfaces _ _ hown _
                (comesTo_of_declaredIn n interfaces hown fun o ho => declaredIn_of_mem_inherited ho)
            · simp only [if_neg hown]
              rw [comesTo_skip n interfaces _ _ hown]
              exact ih parent

/-- The whole merge first comes to the method at the first interface that declares
it. -/
theorem comesTo_offers (c : ClassInfo) {o : Offer}
    (htaken : (c.offers load).find? (brings .method (asciiLower n)) = some o) :
    traitsComeTo load n interfaces (maxTraitDepth + 1) c.usedTraits c.traitContext
        (parentsComeTo load n interfaces maxInheritanceDepth c) = true ↔
      interfaces.find? (declaresMethod n) = some o.2.declaredIn := by
  rw [(comesTo_step load n interfaces _).1, ← firstToDeclare_iff]
  rw [ClassInfo.offers, List.find?_append] at htaken
  cases htraits : (c.traitOffers load).find? (brings .method (asciiLower n)) with
  | some o' =>
      rw [htraits, Option.some_or] at htaken
      obtain rfl : o' = o := Option.some.inj htaken
      rw [show (offersOfTraits load _ _ _).find? _ = _ from htraits]
      exact Iff.rfl
  | none =>
      rw [htraits, Option.none_or] at htaken
      rw [show (offersOfTraits load _ _ _).find? _ = _ from htraits]
      show parentsComeTo load n interfaces maxInheritanceDepth c = true ↔ _
      rw [parentsComeTo_iff, htaken]
      exact Iff.rfl

end Interfaces

/-! ## Agreement -/

section Agreement

variable (load : ClassLoader) (n : Atom)

theorem declaresMethod_eq_owns (c : ClassInfo) :
    declaresMethod n c = c.owns .method (asciiLower n) := rfl

/-- The owner agrees with the merge if the class declares the method itself, or
the search finds the class of the first offer. -/
theorem ownerAgrees_iff (c : ClassInfo) :
    OwnerAgrees load c n ↔ declaresMethod n c = true ∨
      ∀ o, (c.offers load).find? (brings .method (asciiLower n)) = some o →
        (findDeclaringAncestor load (declaresMethod n) c).map Prod.snd = some o.2.declaredIn := by
  have hentries : ∀ d, (d ∈ (resolveClassWithInheritance load c).methods.entries ∧
      eqIgnoreAsciiCase d.member.name n = true) ↔
      d ∈ (resolveClassWithInheritance load c).under .method (asciiLower n) := by
    intro d
    rw [Merging.under, List.mem_filter, decide_eq_true_iff]
    exact and_congr_right fun _ => beq_iff_eq
  have hunder := under_resolveClassWithInheritance load c .method (asciiLower n)
  rw [← declaresMethod_eq_owns] at hunder
  by_cases hdeclares : declaresMethod n c = true
  · refine iff_of_true (fun d hd hname => ?_) (Or.inl hdeclares)
    have hmem := (hentries d).mp ⟨hd, hname⟩
    rw [hunder, if_pos hdeclares, List.mem_map] at hmem
    obtain ⟨m, -, rfl⟩ := hmem
    rw [declaringOwner, if_pos hdeclares]
    rfl
  · rw [if_neg hdeclares] at hunder
    constructor
    · intro hagrees
      refine Or.inr fun o ho => ?_
      have hmem := (hentries o.2).mpr (by rw [hunder, ho]; simp)
      have hfound := hagrees o.2 hmem.1 hmem.2
      rwa [declaringOwner, if_neg hdeclares] at hfound
    · rintro (hown | hfirst) d hd hname
      · exact absurd hown hdeclares
      · have hmem := (hentries d).mp ⟨hd, hname⟩
        rw [hunder, Option.mem_toList, Option.map_eq_some_iff] at hmem
        obtain ⟨o, ho, rfl⟩ := hmem
        rw [declaringOwner, if_neg hdeclares]
        exact hfirst o ho

/-- A merged method is declared where the search finds it if the walks stay in
step, and, in a hierarchy that reaches no class twice, only then. -/
theorem ownerAgrees_iff_inStep (c : ClassInfo) :
    (inStep load n c = true → OwnerAgrees load c n) ∧
      ((reached load c).Nodup → (OwnerAgrees load c n ↔ inStep load n c = true)) := by
  have hsearch := findDeclaringAncestor_eq load (declaresMethod n) c
  have henough : inStep load n c = true → OwnerAgrees load c n := by
    intro h
    rw [ownerAgrees_iff]
    by_cases hdeclares : declaresMethod n c = true
    · exact Or.inl hdeclares
    · refine Or.inr fun o ho => ?_
      have hoffers : offersMethod n (c.offers load) = true :=
        List.any_eq_true.mpr ⟨o, List.mem_of_find?_eq_some ho, List.find?_some ho⟩
      rw [hsearch]
      simp only [inStep, hdeclares, hoffers, Bool.not_true, Bool.false_or, Bool.or_eq_true,
        Bool.and_eq_true] at h
      rcases h with h | ⟨hnone, hinterface⟩
      · have halign := aligned_of_traitsInStep load n _ _ _ _ h
        rw [ClassInfo.offers, List.find?_append] at ho
        rw [classesWithin, List.find?_append]
        cases htaken : (c.traitOffers load).find? (brings .method (asciiLower n)) with
        | some o' =>
            rw [htaken, Option.some_or] at ho
            obtain rfl : o' = o := Option.some.inj ho
            rw [show (offersOfTraits load _ _ _).find? _ = _ from htaken] at halign
            rw [show (traitsWithin load _ _).find? _ = some o'.2.declaredIn from halign]
            rfl
        | none =>
            rw [htaken, Option.none_or] at ho
            rw [show (offersOfTraits load _ _ _).find? _ = _ from htaken] at halign
            obtain ⟨o', htaken', hfound⟩ := taken_of_parentsInStep load n _ _ halign.2
            obtain rfl : o' = o := Option.some.inj (htaken'.symm.trans ho)
            rw [halign.1, hfound]
            rfl
      · rw [(find_eq_none_iff_noneDeclares n _).mpr hnone, Option.none_or]
        exact (comesTo_offers load n _ c ho).mp hinterface
  refine ⟨henough, fun hnodup => ⟨fun hagrees => ?_, henough⟩⟩
  rw [ownerAgrees_iff] at hagrees
  simp only [inStep, Bool.or_eq_true, Bool.and_eq_true, Bool.not_eq_true']
  rcases hagrees with hdeclares | hagrees
  · exact Or.inl (Or.inl (Or.inl hdeclares))
  · cases htaken : (c.offers load).find? (brings .method (asciiLower n)) with
    | none =>
        refine Or.inl (Or.inl (Or.inr ?_))
        rw [offersMethod, List.any_eq_false]
        exact List.find?_eq_none.mp htaken
    | some o =>
        have hfound := hagrees o htaken
        rw [hsearch] at hfound
        obtain ⟨hnodupTraits, hnodupParents, happart⟩ := List.nodup_append.mp hnodup
        cases hclasses : (classesWithin load c).find? (declaresMethod n) with
        | none =>
            rw [hclasses, Option.none_or] at hfound
            exact Or.inr ⟨(find_eq_none_iff_noneDeclares n _).mp hclasses,
              (comesTo_offers load n _ c htaken).mpr hfound⟩
        | some x =>
            rw [hclasses, Option.some_or] at hfound
            obtain rfl : x = o.2.declaredIn := Option.some.inj hfound
            refine Or.inl (Or.inr (traitsInStep_of_aligned load n _ _ _ _ hnodupTraits ?_))
            rw [ClassInfo.offers, List.find?_append] at htaken
            rw [classesWithin] at hclasses
            cases htraits : (c.traitOffers load).find? (brings .method (asciiLower n)) with
            | some o' =>
                rw [htraits, Option.some_or] at htaken
                obtain rfl : o' = o := Option.some.inj htaken
                have hmem := (declaredIn_mem_step load _).1 _ _ o' (List.mem_of_find?_eq_some htraits)
                rw [show (offersOfTraits load _ _ _).find? _ = _ from htraits]
                exact find_of_append_of_not_mem hclasses fun hin =>
                  happart _ hmem _ (parentsWithin_subset load _ _ _ hin) rfl
            | none =>
                rw [htraits, Option.none_or] at htaken
                have hmem := declaredIn_mem_parents load _ _ o (List.mem_of_find?_eq_some htaken)
                obtain ⟨hnone, hparents⟩ := find_append_of_not_mem hclasses fun hin =>
                  happart _ (traitsWithin_subset load _ _ _ hin) _ hmem rfl
                rw [show (offersOfTraits load _ _ _).find? _ = _ from htraits]
                exact ⟨hnone, parentsInStep_of_taken load n _ _ hnodupParents o htaken hparents⟩

def someTrait (name : Atom) (usedTraits : List Atom) : ClassInfo where
  fqn := name
  methods := [⟨"run", .isPublic, false⟩]
  properties := []
  constants := []
  parentClass := none
  interfaces := []
  usedTraits := usedTraits
  traitPrecedences := []
  traitAliases := []

/-- `Outer` and the trait it uses both declare `run`. -/
def nestedTraits : ClassLoader := fun name =>
  if name = "Outer" then some (someTrait "Outer" ["Inner"])
  else if name = "Inner" then some (someTrait "Inner" [])
  else none

/-- A class that declares nothing and uses `Outer`. -/
def usesOuter : ClassInfo := { someTrait "Job" ["Outer"] with methods := [] }

/-- The merge takes `run` from `Inner`, the search finds `Outer`. -/
theorem not_ownerAgrees_nested : ¬OwnerAgrees nestedTraits usesOuter "run" := by
  intro h
  have howner := h ⟨⟨"run", .isPublic, false⟩, ⟨"run", .isPublic, false⟩, someTrait "Inner" []⟩
    (by decide) (by decide)
  exact absurd howner (by decide)

end Agreement

end PhpantomLsp.Members
