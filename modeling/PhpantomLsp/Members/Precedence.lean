import PhpantomLsp.Lib.GuardedRecursion
import PhpantomLsp.Members.Offers

/-!
# The order of the rule

For each name comes the class's own member, or else the first one its traits
bring, or else the nearest parent's by the same rule.  A trait brings its own
member before those of the traits it uses, under the adaptations it is used
with; a parent's private member is not inherited.  This is the rule of PHP where
the adaptations spell the names of traits as they are used and no abstract method
makes room for another.

The merge follows this order only where a trait and what it uses, and a parent
and its traits, do not both offer a name, and where the adaptations of a class
concern the methods its traits declare themselves.
-/

namespace PhpantomLsp.Members

open PhpantomLsp.Text (asciiLower eqIgnoreAsciiCase)

/-! ## The first member in that order -/

/-- A class's own member. -/
def ClassInfo.own (c : ClassInfo) (kind : MemberKind) (n : Atom) : Option Declared :=
  ((c.members kind).find? fun m => memberKey kind m.name = memberKey kind n).map c.declared

/-- A method under the visibility the adaptations give it. -/
def TraitContext.adapted (ctx : TraitContext) (traitName : Atom) (d : Declared) : Declared :=
  { d with
    member.visibility :=
      (ctx.visibilityChange traitName d.member.name).getD d.member.visibility }

/-- The adaptation adds a method of this name from this trait. -/
def TraitAlias.adds (a : TraitAlias) (traitName n : Atom) : Bool :=
  (a.aliasName.any fun aliasName => memberKey .method aliasName = memberKey .method n) &&
    a.traitName.all (· == traitName)

/-- A method under the name and the visibility an adaptation gives it. -/
def TraitAlias.renamed (a : TraitAlias) (d : Declared) : Declared :=
  { d with
    member.name := a.aliasName.getD d.member.name
    member.visibility := a.visibility.getD d.member.visibility }

/-- What a trait with these members brings to a class that uses it. -/
def TraitContext.brought (ctx : TraitContext) (traitName : Atom) (kind : MemberKind) (n : Atom)
    (member : MemberKind → Atom → Option Declared) : Option Declared :=
  match kind with
  | .method =>
      (if ctx.excluded traitName n then none
        else (member .method n).map (ctx.adapted traitName)).or
      (ctx.aliases.findSome? fun a =>
        if a.adds traitName n then (member .method a.methodName).map a.renamed else none)
  | kind => member kind n

/-- A level of a chain of parents: its own member, or its traits', unless it is
private; then the levels above. -/
def ClassInfo.passedOn (c : ClassInfo) (kind : MemberKind) (n : Atom)
    (fromTraits above : Option Declared) : Option Declared :=
  (((c.own kind n).or fromTraits).filter fun d => d.member.visibility ≠ .isPrivate).or above

mutual

def plainOfTraits (load : ClassLoader) :
    (fuel : Nat) → (traitNames : List Atom) → TraitContext → MemberKind → Atom → Option Declared
  | 0, _, _, _, _ => none
  | fuel + 1, traitNames, ctx, kind, n =>
      traitNames.findSome? fun traitName =>
        match load traitName with
        | none => none
        | some t =>
            ctx.brought traitName kind n fun kind n =>
              (t.own kind n).or
                ((plainOfTraits load fuel t.usedTraits t.traitContext kind n).or
                  (plainOfTraitParents load fuel t kind n))

def plainOfTraitParents (load : ClassLoader) :
    (fuel : Nat) → (current : ClassInfo) → MemberKind → Atom → Option Declared
  | 0, _, _, _ => none
  | fuel + 1, current, kind, n =>
      match current.parentClass.bind (loadAncestor load current.fqn) with
      | none => none
      | some parent =>
          parent.passedOn kind n
            (plainOfTraits load fuel parent.usedTraits parent.traitContext kind n)
            (plainOfTraitParents load fuel parent kind n)

end

def plainOfParents (load : ClassLoader) :
    (fuel : Nat) → (current : ClassInfo) → MemberKind → Atom → Option Declared
  | 0, _, _, _ => none
  | fuel + 1, current, kind, n =>
      match current.parentClass.bind (loadAncestor load current.fqn) with
      | none => none
      | some parent =>
          parent.passedOn kind n
            (plainOfTraits load (maxTraitDepth + 1) parent.usedTraits parent.traitContext kind n)
            (plainOfParents load fuel parent kind n)

/-- The first member of a name in the order of the rule. -/
def plainMember (load : ClassLoader) (c : ClassInfo) (kind : MemberKind) (n : Atom) :
    Option Declared :=
  (c.own kind n).or
    ((plainOfTraits load (maxTraitDepth + 1) c.usedTraits c.traitContext kind n).or
      (plainOfParents load maxInheritanceDepth c kind n))

/-- Exactly one member of the name is merged, the first one, or none if there is none. -/
def MergesPlain (load : ClassLoader) (c : ClassInfo) (kind : MemberKind) (n : Atom) : Prop :=
  (resolveClassWithInheritance load c).under kind (memberKey kind n) =
    (plainMember load c kind n).toList

/-! ## Where the merge follows it -/

section Follows

def offersMember (kind : MemberKind) (n : Atom) (offers : List Offer) : Bool :=
  offers.any (brings kind (memberKey kind n))

def TraitContext.excludes (ctx : TraitContext) (traitName : Atom) (kind : MemberKind) (n : Atom) :
    Bool :=
  kind = .method && ctx.excluded traitName n

@[simp] theorem TraitContext.excludes_method (ctx : TraitContext) (traitName n : Atom) :
    ctx.excludes traitName .method n = ctx.excluded traitName n := by
  simp [TraitContext.excludes]

/-- The adaptations leave a member as it is. -/
def TraitContext.leaves (ctx : TraitContext) (traitName : Atom) (kind : MemberKind) (n : Atom)
    (d : Declared) : Bool :=
  kind ≠ .method || (!ctx.excluded traitName n && ctx.adapted traitName d = d)

/-- One trait, of which `inner` is what it uses and extends: a name comes from
`inner`, and the trait neither declares nor adapts it, or `inner` does not offer
it, nor any method an alias of that name stands for unless the trait declares
that. -/
def traitFollows (t : ClassInfo) (traitName : Atom) (ctx : TraitContext)
    (kind : MemberKind) (n : Atom) (inner : List Offer)
    (innerFollows : MemberKind → Atom → Bool) : Bool :=
  match inner.find? (brings kind (memberKey kind n)) with
  | some o => !t.owns kind (memberKey kind n) && ctx.leaves traitName kind n o.2 &&
      innerFollows kind n
  | none =>
      (t.owns kind (memberKey kind n) && !ctx.excludes traitName kind n) ||
        ((ctx.excludes traitName kind n || innerFollows kind n) &&
          (kind ≠ .method || ctx.aliases.all fun a =>
            !a.adds traitName n || t.owns .method (memberKey .method a.methodName) ||
              (!offersMember .method a.methodName inner && innerFollows .method a.methodName)))

/-- One parent: a name comes from its traits, is not private there, and the
parent does not declare it, or the traits do not offer it. -/
def parentFollows (parent : ClassInfo) (kind : MemberKind) (n : Atom) (traits : List Offer)
    (traitsFollow aboveFollows : Bool) : Bool :=
  match traits.find? (brings kind (memberKey kind n)) with
  | some o => !parent.owns kind (memberKey kind n) && traitsFollow &&
      o.2.member.visibility ≠ .isPrivate
  | none =>
      if offersMember kind n parent.inherited then
        (parent.own kind n).all fun d => d.member.visibility ≠ .isPrivate
      else (parent.owns kind (memberKey kind n) || traitsFollow) && aboveFollows

mutual

def traitsFollow (load : ClassLoader) :
    (fuel : Nat) → (traitNames : List Atom) → TraitContext → MemberKind → Atom → Bool
  | 0, _, _, _, _ => true
  | fuel + 1, traitNames, ctx, kind, n =>
      traitNames.foldr
        (fun traitName rest =>
          match load traitName with
          | none => rest
          | some t =>
              let nested := offersOfTraits load fuel t.usedTraits t.traitContext
              let inner := nested ++ offersOfTraitParents load fuel t
              traitFollows t traitName ctx kind n inner
                  (fun kind n =>
                    traitsFollow load fuel t.usedTraits t.traitContext kind n &&
                      (offersMember kind n nested || traitParentsFollow load fuel t kind n)) &&
                (offersMember kind n (inner ++ ctx.offers traitName t) || rest))
        true

def traitParentsFollow (load : ClassLoader) :
    (fuel : Nat) → (current : ClassInfo) → MemberKind → Atom → Bool
  | 0, _, _, _ => true
  | fuel + 1, current, kind, n =>
      match current.parentClass.bind (loadAncestor load current.fqn) with
      | none => true
      | some parent =>
          parentFollows parent kind n (offersOfTraits load fuel parent.usedTraits parent.traitContext)
            (traitsFollow load fuel parent.usedTraits parent.traitContext kind n)
            (traitParentsFollow load fuel parent kind n)

end

def parentsFollow (load : ClassLoader) :
    (fuel : Nat) → (current : ClassInfo) → MemberKind → Atom → Bool
  | 0, _, _, _ => true
  | fuel + 1, current, kind, n =>
      match current.parentClass.bind (loadAncestor load current.fqn) with
      | none => true
      | some parent =>
          parentFollows parent kind n (parent.traitOffers load)
            (traitsFollow load (maxTraitDepth + 1) parent.usedTraits parent.traitContext kind n)
            (parentsFollow load fuel parent kind n)

/-- A class declares the name once; or its traits follow the rule and, unless
they offer the name, its parents do. -/
def mergeFollows (load : ClassLoader) (c : ClassInfo) (kind : MemberKind) (n : Atom) : Bool :=
  if c.owns kind (memberKey kind n) then
    ((c.members kind).filter fun m => memberKey kind m.name = memberKey kind n).length = 1
  else
    traitsFollow load (maxTraitDepth + 1) c.usedTraits c.traitContext kind n &&
      (offersMember kind n (c.traitOffers load) || parentsFollow load maxInheritanceDepth c kind n)

end Follows

/-! ## What one trait and one parent offer -/

theorem map_append_find {α β : Type} (p : α → Bool) (f : α → β) (a b : List α) :
    ((a ++ b).find? p).map f = ((a.find? p).map f).or ((b.find? p).map f) := by
  rw [List.find?_append]
  cases a.find? p <;> rfl

theorem find_filterMap_eq {α β : Type} (f : α → Option β) (p : β → Bool) (l : List α) :
    (l.filterMap f).find? p = l.findSome? fun a => (f a).filter p := by
  induction l with
  | nil => rfl
  | cons a l ih =>
      rw [List.findSome?_cons, List.filterMap_cons]
      cases f a with
      | none => exact ih
      | some b =>
          by_cases hb : p b = true
          · simp [hb, Option.filter]
          · simp [hb, ih, Option.filter]

/-- Offers of one kind, looked through for a name. -/
theorem find_offers {α : Type} (kind offered : MemberKind) (key : Atom) (give : α → Declared)
    (l : List α) :
    ((l.map fun a => ((offered, give a) : Offer)).find? (brings kind key)).map Prod.snd =
      if offered = kind then
        (l.find? fun a => memberKey kind (give a).member.name = key).map give
      else none := by
  rw [List.find?_map, Option.map_map]
  by_cases hkind : offered = kind
  · rw [if_pos hkind]
    show Option.map give (l.find? _) = _
    congr 2
    funext a
    simp [brings, hkind]
  · rw [if_neg hkind, List.find?_eq_none.mpr]
    · rfl
    · intro a _
      simp [brings, hkind]

theorem isSome_own (c : ClassInfo) (kind : MemberKind) (n : Atom) :
    (c.own kind n).isSome = c.owns kind (memberKey kind n) := by
  rw [ClassInfo.own, Option.isSome_map, List.isSome_find?, ClassInfo.owns]

theorem own_eq_none (c : ClassInfo) {kind : MemberKind} {n : Atom}
    (h : ¬c.owns kind (memberKey kind n) = true) : c.own kind n = none := by
  rw [← isSome_own, Bool.not_eq_true] at h
  exact Option.isSome_eq_false_iff.mp h |> Option.isNone_iff_eq_none.mp

theorem exists_own (c : ClassInfo) {kind : MemberKind} {n : Atom}
    (h : c.owns kind (memberKey kind n) = true) : ∃ d, c.own kind n = some d :=
  Option.isSome_iff_exists.mp ((isSome_own c kind n).trans h)

theorem excluded_congr (ctx : TraitContext) (traitName : Atom) {m n : Atom}
    (h : memberKey .method m = memberKey .method n) :
    ctx.excluded traitName m = ctx.excluded traitName n := by
  simp only [TraitContext.excluded, eqIgnoreAsciiCase, show asciiLower m = asciiLower n from h]

/-- An alias brings what its trait declares under the name it stands for. -/
theorem aliased_filter (a : TraitAlias) (traitName : Atom) (t : ClassInfo) (n : Atom) :
    ((a.aliased traitName t).filter fun d =>
        memberKey .method d.member.name = memberKey .method n) =
      if a.adds traitName n then (t.own .method a.methodName).map a.renamed else none := by
  have hsame : (fun m : Member => eqIgnoreAsciiCase m.name a.methodName) =
      fun m => decide (memberKey .method m.name = memberKey .method a.methodName) := by
    funext m
    rw [Bool.eq_iff_iff, decide_eq_true_iff]
    exact beq_iff_eq
  unfold TraitAlias.aliased TraitAlias.adds ClassInfo.own TraitAlias.renamed
  rw [hsame, show t.members .method = t.methods from rfl]
  cases a.aliasName with
  | none => simp
  | some aliasName =>
      by_cases htrait : a.traitName.all (· == traitName) = true
      · by_cases hname : memberKey .method aliasName = memberKey .method n
        · simp only [htrait, hname, if_true, Option.any_some, decide_true, Bool.and_self,
            Option.map_map]
          cases t.methods.find? _ with
          | none => rfl
          | some m => simp [hname, ClassInfo.declared, Option.filter]
        · simp only [htrait, hname, if_true, Option.any_some, decide_false, Bool.false_and]
          cases t.methods.find? _ with
          | none => rfl
          | some m => simp [hname, Option.filter]
      · simp [htrait]

/-- A trait's own offers are what it would bring with no others. -/
theorem find_traitOffers (ctx : TraitContext) (traitName : Atom) (t : ClassInfo)
    (kind : MemberKind) (n : Atom) :
    ((ctx.offers traitName t).find? (brings kind (memberKey kind n))).map Prod.snd =
      ctx.brought traitName kind n t.own := by
  rw [TraitContext.offers, map_append_find, map_append_find, map_append_find, find_offers,
    find_offers, find_offers, find_offers]
  cases kind with
  | method =>
      simp only [reduceCtorEq, if_true, if_false, Option.none_or, Option.map_id', TraitContext.brought]
      rw [find_filterMap_eq]
      congr 1
      · rw [List.find?_filter]
        by_cases hexcluded : ctx.excluded traitName n = true
        · rw [if_pos hexcluded, List.find?_eq_none.mpr]
          · rfl
          · intro m _ hm
            simp only [Bool.not_eq_true', decide_eq_true_eq] at hm
            have hsame := excluded_congr ctx traitName (m := m.name) hm.2
            rw [hm.1, hexcluded] at hsame
            cases hsame
        · rw [if_neg hexcluded, ClassInfo.own, Option.map_map]
          show Option.map (ctx.imported traitName t) _ = Option.map (ctx.imported traitName t) _
          congr 2
          funext m
          by_cases hname : memberKey .method m.name = memberKey .method n
          · simp [excluded_congr ctx traitName hname, hexcluded, TraitContext.imported, hname]
          · simp [TraitContext.imported, hname]
      · simp only [aliased_filter]
  | property =>
      simp only [reduceCtorEq, if_true, if_false, Option.none_or, Option.or_none]
      rfl
  | constant =>
      simp only [reduceCtorEq, if_true, if_false, Option.none_or, Option.or_none]
      rfl

/-- A parent passes on the first of its own members that is not private. -/
theorem find_inherited (c : ClassInfo) (kind : MemberKind) (n : Atom) :
    (c.inherited.find? (brings kind (memberKey kind n))).map Prod.snd =
      (((c.members kind).filter fun m => m.visibility ≠ .isPrivate).find? fun m =>
        memberKey kind m.name = memberKey kind n).map c.declared := by
  rw [ClassInfo.inherited, map_append_find, map_append_find, ClassInfo.visible, ClassInfo.visible,
    ClassInfo.visible, find_offers, find_offers, find_offers]
  cases kind with
  | method => simp only [reduceCtorEq, if_true, if_false, Option.or_none]; rfl
  | property =>
      simp only [reduceCtorEq, if_true, if_false, Option.none_or, Option.or_none]
      rfl
  | constant => simp only [reduceCtorEq, if_true, if_false, Option.none_or]; rfl

/-- A member of its own that is not private is what a parent passes on. -/
theorem inherited_of_own (c : ClassInfo) {kind : MemberKind} {n : Atom} {d : Declared}
    (hown : c.own kind n = some d) (hvisible : d.member.visibility ≠ .isPrivate) :
    (c.inherited.find? (brings kind (memberKey kind n))).map Prod.snd = some d := by
  obtain ⟨m, hfirst, rfl⟩ := Option.map_eq_some_iff.mp hown
  have hname := List.find?_some hfirst
  obtain ⟨before, after, hsplit, hbefore⟩ := (List.find?_eq_some_iff_append.mp hfirst).2
  rw [find_inherited, List.find?_filter, hsplit, List.find?_append, List.find?_eq_none.mpr,
    Option.none_or, List.find?_cons_of_pos]
  · rfl
  · simpa [show m.visibility ≠ .isPrivate from hvisible] using hname
  · intro m' hm' hboth
    have := hbefore m' hm'
    simp only [decide_eq_true_eq] at hboth
    simp [hboth.2] at this

/-- Nothing of the name is passed on where the parent has none of its own. -/
theorem inherited_of_own_none (c : ClassInfo) {kind : MemberKind} {n : Atom}
    (hown : c.own kind n = none) :
    (c.inherited.find? (brings kind (memberKey kind n))).map Prod.snd = none := by
  rw [find_inherited, Option.map_eq_none_iff, List.find?_eq_none]
  intro m hm
  exact List.find?_eq_none.mp (Option.map_eq_none_iff.mp hown) m (List.mem_of_mem_filter hm)

theorem find_of_not_offersMember {kind : MemberKind} {n : Atom} {offers : List Offer}
    (h : ¬offersMember kind n offers = true) :
    offers.find? (brings kind (memberKey kind n)) = none := by
  rw [List.find?_eq_none]
  intro o ho hbrings
  exact h (List.any_eq_true.mpr ⟨o, ho, hbrings⟩)

theorem exists_of_offersMember {kind : MemberKind} {n : Atom} {offers : List Offer}
    (h : offersMember kind n offers = true) :
    ∃ d, (offers.find? (brings kind (memberKey kind n))).map Prod.snd = some d := by
  cases hfirst : offers.find? (brings kind (memberKey kind n)) with
  | some o => exact ⟨o.2, rfl⟩
  | none =>
      obtain ⟨o, ho, hbrings⟩ := List.any_eq_true.mp h
      exact absurd hbrings (List.find?_eq_none.mp hfirst o ho)

/-- Aliases that stand for methods the trait declares, or that nothing it uses
offers, bring the same. -/
theorem findSome_aliases (ctx : TraitContext) (traitName : Atom) (t : ClassInfo) (n : Atom)
    (inner : MemberKind → Atom → Option Declared)
    (h : ∀ a ∈ ctx.aliases, a.adds traitName n = true →
      t.owns .method (memberKey .method a.methodName) = true ∨
        inner .method a.methodName = none) :
    (ctx.aliases.findSome? fun a =>
        if a.adds traitName n then (t.own .method a.methodName).map a.renamed else none) =
      ctx.aliases.findSome? fun a =>
        if a.adds traitName n then
          ((t.own .method a.methodName).or (inner .method a.methodName)).map a.renamed
        else none := by
  apply Lib.findSome?_congr_of_mem
  intro a ha
  by_cases hadds : a.adds traitName n = true
  · rw [if_pos hadds, if_pos hadds]
    rcases h a ha hadds with howns | hnone
    · obtain ⟨d, hd⟩ := exists_own t howns
      rw [hd, Option.some_or]
    · rw [hnone, Option.or_none]
  · rw [if_neg hadds, if_neg hadds]

/-- A trait that follows the rule offers what it brings. -/
theorem brought_of_traitFollows {t : ClassInfo} {traitName : Atom} {ctx : TraitContext}
    {kind : MemberKind} {n : Atom} {inner : List Offer} {innerFollows : MemberKind → Atom → Bool}
    (member : MemberKind → Atom → Option Declared)
    (hinner : ∀ kind n, innerFollows kind n = true →
      (inner.find? (brings kind (memberKey kind n))).map Prod.snd = member kind n)
    (h : traitFollows t traitName ctx kind n inner innerFollows = true) :
    ((inner ++ ctx.offers traitName t).find? (brings kind (memberKey kind n))).map Prod.snd =
      ctx.brought traitName kind n fun kind n => (t.own kind n).or (member kind n) := by
  rw [map_append_find, find_traitOffers]
  unfold traitFollows at h
  cases hfirst : inner.find? (brings kind (memberKey kind n)) with
  | some o =>
      rw [hfirst] at h
      simp only [Bool.and_eq_true, Bool.not_eq_true'] at h
      obtain ⟨⟨howns, hleaves⟩, hfollows⟩ := h
      have hown : t.own kind n = none := own_eq_none t (by rw [howns]; decide)
      have hmember : member kind n = some o.2 := by
        rw [← hinner kind n hfollows, hfirst]
        rfl
      rw [Option.map_some, Option.some_or]
      cases kind with
      | method =>
          simp only [TraitContext.leaves, ne_eq, not_true_eq_false, decide_false, Bool.false_or,
            Bool.and_eq_true, Bool.not_eq_true', decide_eq_true_eq] at hleaves
          simp only [TraitContext.brought, hleaves.1, hown, hmember, Option.none_or,
            Option.map_some, hleaves.2, Option.some_or, Bool.false_eq_true, if_false]
      | property => simp only [TraitContext.brought, hown, hmember, Option.none_or]
      | constant => simp only [TraitContext.brought, hown, hmember, Option.none_or]
  | none =>
      rw [hfirst] at h
      rw [Option.map_none, Option.none_or]
      have hnone : ∀ kind n, innerFollows kind n = true →
          inner.find? (brings kind (memberKey kind n)) = none → member kind n = none := by
        intro kind n hfollows hno
        rw [← hinner kind n hfollows, hno]
        rfl
      by_cases howns : t.owns kind (memberKey kind n) = true ∧
          ctx.excludes traitName kind n = false
      · obtain ⟨d, hd⟩ := exists_own t howns.1
        cases kind with
        | method =>
            have hexcluded : ctx.excluded traitName n = false := by simpa using howns.2
            simp only [TraitContext.brought, hexcluded, hd, Option.some_or, Option.map_some,
              Bool.false_eq_true, if_false]
        | property => simp only [TraitContext.brought, hd, Option.some_or]
        | constant => simp only [TraitContext.brought, hd, Option.some_or]
      · simp only [Bool.or_eq_true, Bool.and_eq_true, Bool.not_eq_true', howns, false_or] at h
        obtain ⟨hfollows, haliases⟩ := h
        have hplain : ctx.excludes traitName kind n = false → member kind n = none := by
          intro hexcludes
          rw [hexcludes] at hfollows
          exact hnone kind n (by simpa using hfollows) hfirst
        cases kind with
        | method =>
            simp only [TraitContext.brought]
            rw [findSome_aliases ctx traitName t n member]
            · congr 1
              by_cases hexcluded : ctx.excluded traitName n = true
              · rw [if_pos hexcluded, if_pos hexcluded]
              · rw [if_neg hexcluded, if_neg hexcluded, hplain (by simpa using hexcluded),
                  Option.or_none]
            · intro a ha hadds
              simp only [ne_eq, not_true_eq_false, decide_false, Bool.false_eq_true, false_or,
                List.all_eq_true] at haliases
              have halias := haliases a ha
              simp only [hadds, Bool.not_true, Bool.false_or, Bool.or_eq_true, Bool.and_eq_true,
                Bool.not_eq_true'] at halias
              rcases halias with howned | ⟨hno, hinnerFollows⟩
              · exact Or.inl howned
              · refine Or.inr (hnone .method a.methodName hinnerFollows ?_)
                exact find_of_not_offersMember (by rw [hno]; decide)
        | property => simp only [TraitContext.brought, hplain rfl, Option.or_none]
        | constant => simp only [TraitContext.brought, hplain rfl, Option.or_none]

/-- A parent that follows the rule offers what it passes on. -/
theorem passedOn_of_parentFollows {parent : ClassInfo} {kind : MemberKind} {n : Atom}
    {traits above : List Offer} {traitsOk aboveOk : Bool} {fromTraits fromAbove : Option Declared}
    (htraits : traitsOk = true →
      (traits.find? (brings kind (memberKey kind n))).map Prod.snd = fromTraits)
    (habove : aboveOk = true →
      (above.find? (brings kind (memberKey kind n))).map Prod.snd = fromAbove)
    (h : parentFollows parent kind n traits traitsOk aboveOk = true) :
    ((traits ++ (parent.inherited ++ above)).find? (brings kind (memberKey kind n))).map Prod.snd =
      parent.passedOn kind n fromTraits fromAbove := by
  rw [map_append_find, map_append_find, find_inherited]
  unfold parentFollows at h
  cases hfirst : traits.find? (brings kind (memberKey kind n)) with
  | some o =>
      rw [hfirst] at h htraits
      simp only [Bool.and_eq_true, Bool.not_eq_true', decide_eq_true_eq] at h
      obtain ⟨⟨howns, hok⟩, hvisible⟩ := h
      have hown : parent.own kind n = none := own_eq_none parent (by rw [howns]; decide)
      have hfrom : fromTraits = some o.2 := (htraits hok).symm
      simp [ClassInfo.passedOn, hown, hfrom, hvisible, Option.filter]
  | none =>
      rw [hfirst] at h htraits
      rw [Option.map_none, Option.none_or]
      by_cases hown : offersMember kind n parent.inherited = true
      · -- Its own member is the first of the name, and is not private.
        simp only [hown, if_true] at h
        cases hmember : parent.own kind n with
        | none =>
            have hno := Option.map_eq_none_iff.mp (inherited_of_own_none parent hmember)
            obtain ⟨o, ho, hbrings⟩ := List.any_eq_true.mp hown
            exact absurd hbrings (List.find?_eq_none.mp hno o ho)
        | some d =>
            have hvisible : d.member.visibility ≠ .isPrivate := by simpa [hmember] using h
            rw [← find_inherited, inherited_of_own parent hmember hvisible, Option.some_or]
            simp [ClassInfo.passedOn, hmember, Option.filter, hvisible]
      · simp only [hown, Bool.false_eq_true, if_false, Bool.and_eq_true, Bool.or_eq_true] at h
        obtain ⟨hlevel, hok⟩ := h
        have hnone := find_of_not_offersMember hown
        rw [← find_inherited, hnone, Option.map_none, Option.none_or, habove hok,
          ClassInfo.passedOn]
        have hfiltered : ((parent.own kind n).or fromTraits).filter
            (fun d => d.member.visibility ≠ .isPrivate) = none := by
          cases hmember : parent.own kind n with
          | none =>
              have howns : ¬parent.owns kind (memberKey kind n) = true := by
                rw [← isSome_own, hmember]
                decide
              have hfrom : fromTraits = none := (htraits (hlevel.resolve_left howns)).symm
              rw [hfrom]
              rfl
          | some d =>
              have hprivate : d.member.visibility = .isPrivate := by
                by_contra hvisible
                have hsome := inherited_of_own parent hmember hvisible
                rw [hnone] at hsome
                cases hsome
              simp [Option.filter, hprivate]
        rw [hfiltered, Option.none_or]

/-- What one trait adds to the traits named after it. -/
theorem traits_cons_follow {load : ClassLoader} {name : Atom} {t : ClassInfo}
    (hload : load name = some t) (fuel : Nat) (names : List Atom) (ctx : TraitContext)
    (kind : MemberKind) (n : Atom) :
    (traitsFollow load (fuel + 1) (name :: names) ctx kind n =
      (traitFollows t name ctx kind n
          (offersOfTraits load fuel t.usedTraits t.traitContext ++
            offersOfTraitParents load fuel t)
          (fun kind n =>
            traitsFollow load fuel t.usedTraits t.traitContext kind n &&
              (offersMember kind n (offersOfTraits load fuel t.usedTraits t.traitContext) ||
                traitParentsFollow load fuel t kind n)) &&
        (offersMember kind n
            ((offersOfTraits load fuel t.usedTraits t.traitContext ++
              offersOfTraitParents load fuel t) ++ ctx.offers name t) ||
          traitsFollow load (fuel + 1) names ctx kind n))) ∧
    plainOfTraits load (fuel + 1) (name :: names) ctx kind n =
      (ctx.brought name kind n fun kind n =>
        (t.own kind n).or
          ((plainOfTraits load fuel t.usedTraits t.traitContext kind n).or
            (plainOfTraitParents load fuel t kind n))).or
        (plainOfTraits load (fuel + 1) names ctx kind n) ∧
    offersOfTraits load (fuel + 1) (name :: names) ctx =
      ((offersOfTraits load fuel t.usedTraits t.traitContext ++
        offersOfTraitParents load fuel t) ++ ctx.offers name t) ++
        offersOfTraits load (fuel + 1) names ctx := by
  refine ⟨?_, ?_, ?_⟩
  · simp only [traitsFollow, List.foldr_cons, hload]
  · simp only [plainOfTraits, List.findSome?_cons, hload]
    cases ctx.brought name kind n _ <;> rfl
  · simp only [offersOfTraits, List.flatMap_cons, hload, List.append_assoc]

theorem traits_skip_follow {load : ClassLoader} {name : Atom} (hload : load name = none)
    (fuel : Nat) (names : List Atom) (ctx : TraitContext) (kind : MemberKind) (n : Atom) :
    traitsFollow load (fuel + 1) (name :: names) ctx kind n =
      traitsFollow load (fuel + 1) names ctx kind n ∧
    plainOfTraits load (fuel + 1) (name :: names) ctx kind n =
      plainOfTraits load (fuel + 1) names ctx kind n ∧
    offersOfTraits load (fuel + 1) (name :: names) ctx =
      offersOfTraits load (fuel + 1) names ctx := by
  refine ⟨?_, ?_, ?_⟩
  · simp only [traitsFollow, List.foldr_cons, hload]
  · simp only [plainOfTraits, List.findSome?_cons, hload]
  · simp only [offersOfTraits, List.flatMap_cons, hload, List.nil_append]

theorem plainOfTraits_step (load : ClassLoader) (fuel : Nat) :
    (∀ traitNames ctx kind n, traitsFollow load fuel traitNames ctx kind n = true →
      ((offersOfTraits load fuel traitNames ctx).find? (brings kind (memberKey kind n))).map
          Prod.snd =
        plainOfTraits load fuel traitNames ctx kind n) ∧
    (∀ current kind n, traitParentsFollow load fuel current kind n = true →
      ((offersOfTraitParents load fuel current).find? (brings kind (memberKey kind n))).map
          Prod.snd =
        plainOfTraitParents load fuel current kind n) := by
  induction fuel with
  | zero =>
      refine ⟨fun _ _ _ _ _ => ?_, fun _ _ _ _ => ?_⟩
      · rw [offersOfTraits, plainOfTraits]
        rfl
      · rw [offersOfTraitParents, plainOfTraitParents]
        rfl
  | succ fuel ih =>
      refine ⟨fun traitNames ctx kind n h => ?_, fun current kind n h => ?_⟩
      · induction traitNames with
        | nil => rfl
        | cons traitName rest ihrest =>
            cases hload : load traitName with
            | none =>
                obtain ⟨hfollow, hselected, hoffers⟩ :=
                  traits_skip_follow hload fuel rest ctx kind n
                rw [hselected, hoffers]
                exact ihrest (hfollow ▸ h)
            | some t =>
                obtain ⟨hfollow, hselected, hoffers⟩ :=
                  traits_cons_follow hload fuel rest ctx kind n
                rw [hfollow, Bool.and_eq_true, Bool.or_eq_true] at h
                obtain ⟨hfollows, hrest⟩ := h
                have hbrought := brought_of_traitFollows
                  (fun kind n =>
                    (plainOfTraits load fuel t.usedTraits t.traitContext kind n).or
                      (plainOfTraitParents load fuel t kind n))
                  (fun kind n hinner => by
                    rw [Bool.and_eq_true, Bool.or_eq_true] at hinner
                    have hnested := ih.1 _ _ kind n hinner.1
                    rw [map_append_find, hnested]
                    rcases hinner.2 with hoffers | hchain
                    · obtain ⟨d, hd⟩ := exists_of_offersMember hoffers
                      rw [← hnested, hd, Option.some_or, Option.some_or]
                    · rw [ih.2 _ kind n hchain])
                  hfollows
                rw [hselected, hoffers, map_append_find, hbrought]
                rcases hrest with hoffered | hrest
                · obtain ⟨d, hd⟩ := exists_of_offersMember hoffered
                  rw [← hbrought, hd, Option.some_or, Option.some_or]
                · rw [ihrest hrest]
      · rw [traitParentsFollow] at h
        rw [offersOfTraitParents, plainOfTraitParents]
        cases hparent : current.parentClass.bind (loadAncestor load current.fqn) with
        | none => rfl
        | some parent =>
            rw [hparent] at h
            exact passedOn_of_parentFollows (ih.1 _ _ kind n) (ih.2 _ kind n) h

theorem plainOfParents_eq (load : ClassLoader) (fuel : Nat) (current : ClassInfo)
    (kind : MemberKind) (n : Atom) (h : parentsFollow load fuel current kind n = true) :
    ((offersOfParents load fuel current).find? (brings kind (memberKey kind n))).map Prod.snd =
      plainOfParents load fuel current kind n := by
  induction fuel generalizing current with
  | zero => rfl
  | succ fuel ih =>
      rw [parentsFollow] at h
      rw [offersOfParents, plainOfParents]
      cases hparent : current.parentClass.bind (loadAncestor load current.fqn) with
      | none => rfl
      | some parent =>
          rw [hparent] at h
          exact passedOn_of_parentFollows ((plainOfTraits_step load _).1 _ _ kind n)
            (ih parent) h

/-! ## Where it does not follow

Where no class is reached twice and, for methods, no class renames or changes the
visibility of one, what the merge takes elsewhere than the rule says is another
member. -/

/-- No adaptation with `as` in these classes, if the members are methods. -/
def Unaliased (kind : MemberKind) (classes : List ClassInfo) : Prop :=
  kind = .method → ∀ c ∈ classes, c.traitAliases = []

theorem Unaliased.mono {kind : MemberKind} {l l' : List ClassInfo} (h : Unaliased kind l')
    (hsubset : ∀ c ∈ l, c ∈ l') : Unaliased kind l :=
  fun hkind c hc => h hkind c (hsubset c hc)

theorem find_append_eq_none {p : Offer → Bool} {l₁ l₂ : List Offer}
    (h : ((l₁ ++ l₂).find? p).map Prod.snd = none) :
    (l₁.find? p).map Prod.snd = none ∧ (l₂.find? p).map Prod.snd = none := by
  rw [map_append_find] at h
  exact Option.or_eq_none_iff.mp h

theorem brought_of_unaliased {ctx : TraitContext} {kind : MemberKind}
    (hctx : kind = .method → ctx.aliases = []) (traitName n : Atom)
    (member : MemberKind → Atom → Option Declared) :
    ctx.brought traitName kind n member =
      if ctx.excludes traitName kind n then none else member kind n := by
  cases kind with
  | method =>
      have hsame : ctx.adapted traitName = id := by
        funext d
        simp [TraitContext.adapted, TraitContext.visibilityChange, hctx rfl]
      simp only [TraitContext.brought, hctx rfl, TraitContext.excludes_method, hsame,
        List.findSome?_nil, Option.or_none, Option.map_id, id_eq]
  | property => rfl
  | constant => rfl

/-- What a trait brings is declared where one of its members is. -/
theorem declaredIn_brought {ctx : TraitContext} {traitName n : Atom} {kind : MemberKind}
    {member : MemberKind → Atom → Option Declared} {d : Declared}
    (h : ctx.brought traitName kind n member = some d) :
    ∃ kind n d', member kind n = some d' ∧ d.declaredIn = d'.declaredIn := by
  cases kind with
  | property => exact ⟨_, _, d, h, rfl⟩
  | constant => exact ⟨_, _, d, h, rfl⟩
  | method =>
      rw [TraitContext.brought, Option.or_eq_some_iff] at h
      rcases h with h | ⟨-, h⟩
      · by_cases hexcluded : ctx.excluded traitName n = true
        · simp [hexcluded] at h
        · rw [if_neg hexcluded] at h
          obtain ⟨d', hd', rfl⟩ := Option.map_eq_some_iff.mp h
          exact ⟨_, _, d', hd', rfl⟩
      · obtain ⟨a, -, ha⟩ := List.exists_of_findSome?_eq_some h
        by_cases hadds : a.adds traitName n = true
        · rw [if_pos hadds] at ha
          obtain ⟨d', hd', rfl⟩ := Option.map_eq_some_iff.mp ha
          exact ⟨_, _, d', hd', rfl⟩
        · simp [hadds] at ha

theorem declaredIn_own {c : ClassInfo} {kind : MemberKind} {n : Atom} {d : Declared}
    (h : c.own kind n = some d) : d.declaredIn = c := by
  obtain ⟨m, -, rfl⟩ := Option.map_eq_some_iff.mp h
  rfl

theorem eq_of_passedOn {c : ClassInfo} {kind : MemberKind} {n : Atom}
    {fromTraits above : Option Declared} {d : Declared}
    (h : c.passedOn kind n fromTraits above = some d) :
    c.own kind n = some d ∨ fromTraits = some d ∨ above = some d := by
  rw [ClassInfo.passedOn, Option.or_eq_some_iff] at h
  rcases h with h | ⟨-, h⟩
  · obtain ⟨h, -⟩ := Option.filter_eq_some_iff.mp h
    rw [Option.or_eq_some_iff] at h
    rcases h with h | ⟨-, h⟩
    · exact Or.inl h
    · exact Or.inr (Or.inl h)
  · exact Or.inr (Or.inr h)

/-- What one trait brings is declared by it, by a trait it uses or by what it
extends. -/
theorem declaredIn_broughtBy {t : ClassInfo} {ctx : TraitContext} {name n : Atom}
    {kind : MemberKind} {nested chain : MemberKind → Atom → Option Declared}
    {within above : List ClassInfo}
    (hnested : ∀ kind n d, nested kind n = some d → d.declaredIn ∈ within)
    (hchain : ∀ kind n d, chain kind n = some d → d.declaredIn ∈ above) {d : Declared}
    (h : (ctx.brought name kind n fun kind n =>
      (t.own kind n).or ((nested kind n).or (chain kind n))) = some d) :
    d.declaredIn ∈ within ++ (above ++ [t]) := by
  obtain ⟨kind', n', d', hd', hsame⟩ := declaredIn_brought h
  simp only [List.mem_append, List.mem_singleton, hsame]
  rw [Option.or_eq_some_iff, Option.or_eq_some_iff] at hd'
  rcases hd' with hown | ⟨-, hd' | ⟨-, hd'⟩⟩
  · exact Or.inr (Or.inr (declaredIn_own hown))
  · exact Or.inl (hnested _ _ _ hd')
  · exact Or.inr (Or.inl (hchain _ _ _ hd'))

/-- What is selected is declared by a class that is reached. -/
theorem declaredIn_plain_step (load : ClassLoader) (fuel : Nat) :
    (∀ names ctx kind n d, plainOfTraits load fuel names ctx kind n = some d →
      d.declaredIn ∈ traitsReached load fuel names) ∧
    (∀ current kind n d, plainOfTraitParents load fuel current kind n = some d →
      d.declaredIn ∈ traitParentsReached load fuel current) := by
  induction fuel with
  | zero =>
      refine ⟨fun _ _ _ _ _ h => ?_, fun _ _ _ _ h => ?_⟩
      · simp [plainOfTraits] at h
      · simp [plainOfTraitParents] at h
  | succ fuel ih =>
      refine ⟨fun names ctx kind n d h => ?_, fun current kind n d h => ?_⟩
      · rw [plainOfTraits] at h
        obtain ⟨name, hname, h⟩ := List.exists_of_findSome?_eq_some h
        rw [traitsReached, List.mem_flatMap]
        refine ⟨name, hname, ?_⟩
        cases hload : load name with
        | none => simp [hload] at h
        | some t =>
            simp only [hload] at h
            exact declaredIn_broughtBy (ih.1 _ _) (ih.2 _) h
      · rw [plainOfTraitParents] at h
        rw [traitParentsReached]
        cases hparent : current.parentClass.bind (loadAncestor load current.fqn) with
        | none => simp [hparent] at h
        | some parent =>
            simp only [hparent] at h
            simp only [List.mem_append, List.mem_cons]
            rcases eq_of_passedOn h with hown | htraits | habove
            · exact Or.inr (Or.inl (declaredIn_own hown))
            · exact Or.inl (ih.1 _ _ _ _ _ htraits)
            · exact Or.inr (Or.inr (ih.2 _ _ _ _ habove))

/-- What is offered under a name is declared by a class that is reached. -/
theorem declaredIn_of_find {offers : List Offer} {kind : MemberKind} {key : Atom} {d : Declared}
    (h : (offers.find? (brings kind key)).map Prod.snd = some d) :
    ∃ o ∈ offers, d = o.2 := by
  obtain ⟨o, ho, rfl⟩ := Option.map_eq_some_iff.mp h
  exact ⟨o, List.mem_of_find?_eq_some ho, rfl⟩

theorem inherited_eq_none {c : ClassInfo} {kind : MemberKind} {n : Atom}
    (h : (c.inherited.find? (brings kind (memberKey kind n))).map Prod.snd = none) :
    (c.own kind n).filter (fun d => d.member.visibility ≠ .isPrivate) = none := by
  cases hown : c.own kind n with
  | none => rfl
  | some d =>
      have hprivate : d.member.visibility = .isPrivate := by
        by_contra hvisible
        rw [inherited_of_own c hown hvisible] at h
        cases h
      simp [Option.filter, hprivate]

/-- Where nothing of a name is offered, nothing is selected. -/
theorem plain_eq_none_step (load : ClassLoader) (fuel : Nat) :
    (∀ names ctx kind n, Unaliased kind (traitsReached load fuel names) →
      (kind = .method → ctx.aliases = []) →
      ((offersOfTraits load fuel names ctx).find? (brings kind (memberKey kind n))).map Prod.snd =
        none →
      plainOfTraits load fuel names ctx kind n = none) ∧
    (∀ current kind n, Unaliased kind (traitParentsReached load fuel current) →
      ((offersOfTraitParents load fuel current).find? (brings kind (memberKey kind n))).map
          Prod.snd = none →
      plainOfTraitParents load fuel current kind n = none) := by
  induction fuel with
  | zero =>
      refine ⟨fun _ _ _ _ _ _ _ => ?_, fun _ _ _ _ _ => ?_⟩
      · rw [plainOfTraits]
      · rw [plainOfTraitParents]
  | succ fuel ih =>
      refine ⟨fun names ctx kind n hplain hctx h => ?_, fun current kind n hplain h => ?_⟩
      · rw [Option.map_eq_none_iff, List.find?_eq_none] at h
        rw [plainOfTraits, List.findSome?_eq_none_iff]
        intro name hname
        cases hload : load name with
        | none => rfl
        | some t =>
            have hoffers : ((offersOfTraits load fuel t.usedTraits t.traitContext ++
                (offersOfTraitParents load fuel t ++ ctx.offers name t)).find?
                  (brings kind (memberKey kind n))).map Prod.snd = none := by
              rw [Option.map_eq_none_iff, List.find?_eq_none]
              intro o ho
              refine h o ?_
              rw [offersOfTraits, List.mem_flatMap]
              exact ⟨name, hname, by rw [hload]; exact ho⟩
            have hreached : ∀ c ∈ traitsReached load fuel t.usedTraits ++
                (traitParentsReached load fuel t ++ [t]),
                c ∈ traitsReached load (fuel + 1) names := by
              intro c hc
              rw [traitsReached, List.mem_flatMap]
              exact ⟨name, hname, by rw [hload]; exact hc⟩
            have hplain := hplain.mono hreached
            obtain ⟨hnested, hinner⟩ := find_append_eq_none hoffers
            obtain ⟨hchain, hown⟩ := find_append_eq_none hinner
            have hnestedNone := ih.1 _ t.traitContext kind n
              (hplain.mono fun c hc => List.mem_append_left _ hc)
              (fun hkind => hplain hkind t (by simp)) hnested
            have hchainNone := ih.2 t kind n
              (hplain.mono fun c hc => List.mem_append_right _ (List.mem_append_left _ hc)) hchain
            rw [find_traitOffers, brought_of_unaliased hctx] at hown
            show ctx.brought name kind n _ = none
            rw [brought_of_unaliased hctx]
            by_cases hexcludes : ctx.excludes name kind n = true
            · rw [if_pos hexcludes]
            · rw [if_neg hexcludes] at hown ⊢
              rw [hown, hnestedNone, hchainNone]
              rfl
      · rw [offersOfTraitParents] at h
        rw [plainOfTraitParents]
        rw [traitParentsReached] at hplain
        cases hparent : current.parentClass.bind (loadAncestor load current.fqn) with
        | none => rfl
        | some parent =>
            simp only [hparent] at h hplain
            obtain ⟨htraits, hrest⟩ := find_append_eq_none h
            obtain ⟨hown, habove⟩ := find_append_eq_none hrest
            have htraitsNone := ih.1 _ parent.traitContext kind n
              (hplain.mono fun c hc => List.mem_append_left _ hc)
              (fun hkind => hplain hkind parent (by simp)) htraits
            have haboveNone := ih.2 parent kind n
              (hplain.mono fun c hc => List.mem_append_right _ (List.mem_cons_of_mem _ hc)) habove
            show parent.passedOn kind n _ _ = none
            rw [ClassInfo.passedOn, htraitsNone, haboveNone, Option.or_none, Option.or_none]
            exact inherited_eq_none hown

/-- Two choices with the same outcome are the same choice, where what comes first
and what comes after are never the same. -/
theorem or_eq_or {α : Type} (first : α → Prop) {a b a' b' : Option α}
    (ha : ∀ d, a = some d → first d) (ha' : ∀ d, a' = some d → first d)
    (hb : ∀ d, b = some d → ¬first d) (hb' : ∀ d, b' = some d → ¬first d)
    (h : a.or b = a'.or b') : a = a' ∧ (a = none → b = b') := by
  cases a with
  | none =>
      cases a' with
      | none => exact ⟨rfl, fun _ => h⟩
      | some d => exact absurd (ha' d rfl) (hb d h)
  | some d =>
      cases a' with
      | none => exact absurd (ha d rfl) (hb' d h.symm)
      | some d' => exact ⟨h, fun hnone => absurd hnone (by simp)⟩

/-- A trait that offers what it brings follows the rule. -/
theorem traitFollows_of_brought {t : ClassInfo} {traitName : Atom} {ctx : TraitContext}
    {kind : MemberKind} {n : Atom} {inner : List Offer} {innerFollows : MemberKind → Atom → Bool}
    (member : MemberKind → Atom → Option Declared) (hctx : kind = .method → ctx.aliases = [])
    (happart : ∀ o ∈ inner, o.2.declaredIn ≠ t)
    (hinner : (inner.find? (brings kind (memberKey kind n))).map Prod.snd = member kind n →
      innerFollows kind n = true)
    (h : ((inner ++ ctx.offers traitName t).find? (brings kind (memberKey kind n))).map Prod.snd =
      ctx.brought traitName kind n fun kind n => (t.own kind n).or (member kind n)) :
    traitFollows t traitName ctx kind n inner innerFollows = true := by
  rw [map_append_find, find_traitOffers, brought_of_unaliased hctx,
    brought_of_unaliased hctx] at h
  unfold traitFollows
  cases hfirst : inner.find? (brings kind (memberKey kind n)) with
  | some o =>
      rw [hfirst, Option.map_some, Option.some_or] at h
      rw [hfirst, Option.map_some] at hinner
      have hexcludes : ctx.excludes traitName kind n = false := by
        by_contra hexcludes
        rw [if_pos (by simpa using hexcludes)] at h
        cases h
      rw [if_neg (by rw [hexcludes]; decide)] at h
      cases hown : t.own kind n with
      | some d =>
          rw [hown, Option.some_or, Option.some.injEq] at h
          exact absurd (h ▸ declaredIn_own hown) (happart o (List.mem_of_find?_eq_some hfirst))
      | none =>
          rw [hown, Option.none_or] at h
          have howns : t.owns kind (memberKey kind n) = false := by
            rw [← isSome_own, hown]
            rfl
          have hleaves : ctx.leaves traitName kind n o.2 = true := by
            cases kind with
            | method =>
                have hexcluded : ctx.excluded traitName n = false := by simpa using hexcludes
                simp [TraitContext.leaves, hexcluded, TraitContext.adapted,
                  TraitContext.visibilityChange, hctx rfl]
            | property => rfl
            | constant => rfl
          simp only [howns, hleaves, hinner h, Bool.not_false, Bool.and_self]
  | none =>
      rw [hfirst, Option.map_none, Option.none_or] at h
      rw [hfirst, Option.map_none] at hinner
      have haliases : (decide (kind ≠ .method) || ctx.aliases.all fun a =>
          !a.adds traitName n || t.owns .method (memberKey .method a.methodName) ||
            (!offersMember .method a.methodName inner && innerFollows .method a.methodName)) =
          true := by
        by_cases hkind : kind = .method
        · simp [hctx hkind]
        · simp [hkind]
      show (_ || ((_ || _) && _)) = true
      rw [haliases, Bool.and_true]
      by_cases hexcludes : ctx.excludes traitName kind n = true
      · simp [hexcludes]
      · rw [if_neg hexcludes, if_neg hexcludes] at h
        rw [Bool.not_eq_true] at hexcludes
        cases hown : t.own kind n with
        | some d => simp [← isSome_own, hown, hexcludes]
        | none =>
            rw [hown, Option.none_or] at h
            simp [hinner h]

/-- A parent that offers what it passes on follows the rule. -/
theorem parentFollows_of_passedOn {parent : ClassInfo} {kind : MemberKind} {n : Atom}
    {traits above : List Offer} {traitsOk aboveOk : Bool} {fromTraits fromAbove : Option Declared}
    {within beyond : List ClassInfo} (hnodup : (within ++ (parent :: beyond)).Nodup)
    (htraitsIn : ∀ o ∈ traits, o.2.declaredIn ∈ within)
    (hfromIn : ∀ d, fromTraits = some d → d.declaredIn ∈ within)
    (haboveIn : ∀ o ∈ above, o.2.declaredIn ∈ beyond)
    (hfromAboveIn : ∀ d, fromAbove = some d → d.declaredIn ∈ beyond)
    (hnone : (traits.find? (brings kind (memberKey kind n))).map Prod.snd = none →
      fromTraits = none)
    (htraits : (traits.find? (brings kind (memberKey kind n))).map Prod.snd = fromTraits →
      traitsOk = true)
    (habove : (above.find? (brings kind (memberKey kind n))).map Prod.snd = fromAbove →
      aboveOk = true)
    (h : ((traits ++ (parent.inherited ++ above)).find? (brings kind (memberKey kind n))).map
        Prod.snd =
      parent.passedOn kind n fromTraits fromAbove) :
    parentFollows parent kind n traits traitsOk aboveOk = true := by
  obtain ⟨-, hbeyond, happart⟩ := List.nodup_append.mp hnodup
  have hself : ∀ d : Declared, d.declaredIn = parent → d.declaredIn ∉ beyond := by
    intro d hd
    rw [hd]
    exact (List.nodup_cons.mp hbeyond).1
  have hwithin : ∀ d : Declared, d.declaredIn ∈ within → d.declaredIn ∉ beyond := by
    intro d hd hin
    exact happart _ hd _ (List.mem_cons_of_mem _ hin) rfl
  rw [map_append_find, map_append_find, ← Option.or_assoc, ClassInfo.passedOn] at h
  have hlevels := or_eq_or (fun d => d.declaredIn ∉ beyond) ?_ ?_ ?_ ?_ h
  · obtain ⟨hlevel, hrest⟩ := hlevels
    unfold parentFollows
    cases hfirst : traits.find? (brings kind (memberKey kind n)) with
    | some o =>
        rw [hfirst, Option.map_some, Option.some_or] at hlevel
        rw [hfirst, Option.map_some] at htraits
        obtain ⟨hchosen, hvisible⟩ := Option.filter_eq_some_iff.mp hlevel.symm
        cases hown : parent.own kind n with
        | some d =>
            rw [hown, Option.some_or, Option.some.injEq] at hchosen
            have hmem := htraitsIn o (List.mem_of_find?_eq_some hfirst)
            rw [← hchosen, declaredIn_own hown] at hmem
            exact absurd rfl (happart _ hmem _ List.mem_cons_self)
        | none =>
            rw [hown, Option.none_or] at hchosen
            have howns : parent.owns kind (memberKey kind n) = false := by
              rw [← isSome_own, hown]
              rfl
            simp only [howns, htraits hchosen.symm, hvisible, Bool.not_false, Bool.and_self]
    | none =>
        rw [hfirst, Option.map_none] at hnone htraits
        have hfrom := hnone rfl
        rw [hfirst, Option.map_none, Option.none_or, hfrom, Option.or_none] at hlevel
        rw [hfirst, Option.map_none, Option.none_or] at hrest
        by_cases hinherits : offersMember kind n parent.inherited = true
        · obtain ⟨d, hd⟩ := exists_of_offersMember hinherits
          rw [hd] at hlevel
          obtain ⟨hown, hvisible⟩ := Option.filter_eq_some_iff.mp hlevel.symm
          simpa only [hinherits, if_true, hown, Option.all_some] using hvisible
        · have hnothing := find_of_not_offersMember hinherits
          rw [hnothing] at hrest
          simp only [hinherits, Bool.false_eq_true, if_false, htraits hfrom.symm,
            habove (hrest rfl), Bool.or_true, Bool.and_self]
  · intro d hd
    rcases Option.or_eq_some_iff.mp hd with hd | ⟨-, hd⟩
    · obtain ⟨o, ho, rfl⟩ := declaredIn_of_find hd
      exact hwithin _ (htraitsIn o ho)
    · obtain ⟨o, ho, rfl⟩ := declaredIn_of_find hd
      exact hself _ (declaredIn_of_mem_inherited ho)
  · intro d hd
    obtain ⟨hd, -⟩ := Option.filter_eq_some_iff.mp hd
    rcases Option.or_eq_some_iff.mp hd with hd | ⟨-, hd⟩
    · exact hself _ (declaredIn_own hd)
    · exact hwithin _ (hfromIn d hd)
  · intro d hd hout
    obtain ⟨o, ho, rfl⟩ := declaredIn_of_find hd
    exact hout (haboveIn o ho)
  · intro d hd hout
    exact hout (hfromAboveIn d hd)

theorem traitsFollow_of_eq_step (load : ClassLoader) (fuel : Nat) :
    (∀ names ctx kind n, (traitsReached load fuel names).Nodup →
      Unaliased kind (traitsReached load fuel names) → (kind = .method → ctx.aliases = []) →
      ((offersOfTraits load fuel names ctx).find? (brings kind (memberKey kind n))).map Prod.snd =
        plainOfTraits load fuel names ctx kind n →
      traitsFollow load fuel names ctx kind n = true) ∧
    (∀ current kind n, (traitParentsReached load fuel current).Nodup →
      Unaliased kind (traitParentsReached load fuel current) →
      ((offersOfTraitParents load fuel current).find? (brings kind (memberKey kind n))).map
          Prod.snd = plainOfTraitParents load fuel current kind n →
      traitParentsFollow load fuel current kind n = true) := by
  induction fuel with
  | zero =>
      refine ⟨fun _ _ _ _ _ _ _ _ => ?_, fun _ _ _ _ _ _ => ?_⟩
      · rw [traitsFollow]
      · rw [traitParentsFollow]
  | succ fuel ih =>
      refine ⟨fun names ctx kind n hnodup hplain hctx h => ?_,
        fun current kind n hnodup hplain h => ?_⟩
      · induction names with
        | nil => rfl
        | cons name rest ihrest =>
            cases hload : load name with
            | none =>
                obtain ⟨hfollow, hselected, hoffers⟩ :=
                  traits_skip_follow hload fuel rest ctx kind n
                have hreached : traitsReached load (fuel + 1) (name :: rest) =
                    traitsReached load (fuel + 1) rest := by
                  simp only [traitsReached, List.flatMap_cons, hload, List.nil_append]
                rw [hreached] at hnodup hplain
                rw [hselected, hoffers] at h
                rw [hfollow]
                exact ihrest hnodup hplain h
            | some t =>
                obtain ⟨hfollow, hselected, hoffers⟩ :=
                  traits_cons_follow hload fuel rest ctx kind n
                have hreached : traitsReached load (fuel + 1) (name :: rest) =
                    (traitsReached load fuel t.usedTraits ++
                      (traitParentsReached load fuel t ++ [t])) ++
                      traitsReached load (fuel + 1) rest := by
                  simp only [traitsReached, List.flatMap_cons, hload]
                rw [hreached] at hnodup hplain
                rw [hselected, hoffers, map_append_find] at h
                rw [hfollow, Bool.and_eq_true, Bool.or_eq_true]
                obtain ⟨hnodupTrait, hnodupRest, happart⟩ := List.nodup_append.mp hnodup
                obtain ⟨hnodupNested, hnodupAbove, happartNested⟩ :=
                  List.nodup_append.mp hnodupTrait
                have hplainTrait := hplain.mono fun c hc => List.mem_append_left _ hc
                obtain ⟨hnode, hrest⟩ := or_eq_or
                  (fun d => d.declaredIn ∈ traitsReached load fuel t.usedTraits ++
                    (traitParentsReached load fuel t ++ [t]))
                  (fun d hd => by
                    obtain ⟨o, ho, rfl⟩ := declaredIn_of_find hd
                    rw [List.append_assoc] at ho
                    exact declaredIn_offeredBy load fuel ho)
                  (fun d hd => declaredIn_broughtBy ((declaredIn_plain_step load fuel).1 _ _)
                    ((declaredIn_plain_step load fuel).2 _) hd)
                  (fun d hd hin => by
                    obtain ⟨o, ho, rfl⟩ := declaredIn_of_find hd
                    exact happart _ hin _ ((declaredIn_mem_step load _).1 _ _ o ho) rfl)
                  (fun d hd hin =>
                    happart _ hin _ ((declaredIn_plain_step load _).1 _ _ _ _ _ hd) rfl)
                  h
                constructor
                · refine traitFollows_of_brought _ hctx ?_ ?_ hnode
                  · intro o ho
                    rcases List.mem_append.mp ho with ho | ho
                    · exact happartNested _ ((declaredIn_mem_step load fuel).1 _ _ o ho) t
                        (by simp)
                    · exact (List.nodup_append.mp hnodupAbove).2.2 _
                        ((declaredIn_mem_step load fuel).2 _ o ho) t (by simp)
                  · intro hinner
                    rw [map_append_find] at hinner
                    obtain ⟨hnested, hchain⟩ := or_eq_or
                      (fun d => d.declaredIn ∈ traitsReached load fuel t.usedTraits)
                      (fun d hd => by
                        obtain ⟨o, ho, rfl⟩ := declaredIn_of_find hd
                        exact (declaredIn_mem_step load fuel).1 _ _ o ho)
                      (fun d hd => (declaredIn_plain_step load fuel).1 _ _ _ _ _ hd)
                      (fun d hd hin => by
                        obtain ⟨o, ho, rfl⟩ := declaredIn_of_find hd
                        have hmem := (declaredIn_mem_step load fuel).2 _ o ho
                        exact happartNested _ hin _ (List.mem_append_left _ hmem) rfl)
                      (fun d hd hin => by
                        have hmem := (declaredIn_plain_step load fuel).2 _ _ _ _ hd
                        exact happartNested _ hin _ (List.mem_append_left _ hmem) rfl)
                      hinner
                    have hfollows := ih.1 _ t.traitContext kind n hnodupNested
                      (hplainTrait.mono fun c hc => List.mem_append_left _ hc)
                      (fun hkind => hplainTrait hkind t (by simp)) hnested
                    rw [hfollows, Bool.true_and, Bool.or_eq_true]
                    by_cases hoffered : offersMember kind n
                        (offersOfTraits load fuel t.usedTraits t.traitContext) = true
                    · exact Or.inl hoffered
                    · rw [find_of_not_offersMember hoffered] at hchain
                      exact Or.inr (ih.2 t kind n (List.nodup_append.mp hnodupAbove).1
                        (hplainTrait.mono fun c hc =>
                          List.mem_append_right _ (List.mem_append_left _ hc)) (hchain rfl))
                · by_cases hoffered : offersMember kind n
                      ((offersOfTraits load fuel t.usedTraits t.traitContext ++
                        offersOfTraitParents load fuel t) ++ ctx.offers name t) = true
                  · exact Or.inl hoffered
                  · rw [find_of_not_offersMember hoffered] at hrest
                    exact Or.inr (ihrest hnodupRest
                      (hplain.mono fun c hc => List.mem_append_right _ hc) (hrest rfl))
      · rw [traitParentsFollow]
        rw [traitParentsReached] at hnodup hplain
        rw [offersOfTraitParents, plainOfTraitParents] at h
        cases hparent : current.parentClass.bind (loadAncestor load current.fqn) with
        | none => rfl
        | some parent =>
            rw [hparent] at hnodup hplain h
            have hwithin := hplain.mono fun c hc => List.mem_append_left _ hc
            have hbeyond := hplain.mono fun c hc =>
              List.mem_append_right _ (List.mem_cons_of_mem _ hc)
            have hctx : kind = .method → parent.traitAliases = [] := fun hkind =>
              hplain hkind parent (by simp)
            obtain ⟨hnodupTraits, hnodupAbove, -⟩ := List.nodup_append.mp hnodup
            exact parentFollows_of_passedOn hnodup
              ((declaredIn_mem_step load fuel).1 _ _)
              ((declaredIn_plain_step load fuel).1 _ _ _ _)
              ((declaredIn_mem_step load fuel).2 _)
              ((declaredIn_plain_step load fuel).2 _ _ _)
              ((plain_eq_none_step load fuel).1 _ _ kind n hwithin hctx)
              (ih.1 _ _ kind n hnodupTraits hwithin hctx)
              (ih.2 _ kind n (List.nodup_cons.mp hnodupAbove).2 hbeyond) h

theorem declaredIn_plainOfParents (load : ClassLoader) (fuel : Nat) (current : ClassInfo)
    (kind : MemberKind) (n : Atom) (d : Declared)
    (h : plainOfParents load fuel current kind n = some d) :
    d.declaredIn ∈ parentsReached load fuel current := by
  induction fuel generalizing current with
  | zero => cases h
  | succ fuel ih =>
      rw [plainOfParents] at h
      cases hparent : current.parentClass.bind (loadAncestor load current.fqn) with
      | none => simp [hparent] at h
      | some parent =>
          obtain ⟨name, hname, hload⟩ := parent_of_loadAncestor load hparent
          simp only [hparent] at h
          simp only [parentsReached, hname, hload, List.mem_append, List.mem_cons]
          rcases eq_of_passedOn h with hown | htraits | habove
          · exact Or.inr (Or.inl (declaredIn_own hown))
          · exact Or.inl ((declaredIn_plain_step load _).1 _ _ _ _ _ htraits)
          · exact Or.inr (Or.inr (ih parent habove))

theorem parentsFollow_of_eq (load : ClassLoader) (fuel : Nat) (current : ClassInfo)
    (kind : MemberKind) (n : Atom) (hnodup : (parentsReached load fuel current).Nodup)
    (hplain : Unaliased kind (parentsReached load fuel current))
    (h : ((offersOfParents load fuel current).find? (brings kind (memberKey kind n))).map
        Prod.snd = plainOfParents load fuel current kind n) :
    parentsFollow load fuel current kind n = true := by
  induction fuel generalizing current with
  | zero => rfl
  | succ fuel ih =>
      rw [parentsFollow]
      rw [offersOfParents, plainOfParents] at h
      cases hparent : current.parentClass.bind (loadAncestor load current.fqn) with
      | none => rfl
      | some parent =>
          obtain ⟨name, hname, hload⟩ := parent_of_loadAncestor load hparent
          rw [hparent] at h
          simp only [parentsReached, hname, hload] at hnodup hplain
          have hwithin := hplain.mono fun c hc => List.mem_append_left _ hc
          have hbeyond := hplain.mono fun c hc =>
            List.mem_append_right _ (List.mem_cons_of_mem _ hc)
          have hctx : kind = .method → parent.traitAliases = [] := fun hkind =>
            hplain hkind parent (by simp)
          obtain ⟨hnodupTraits, hnodupAbove, -⟩ := List.nodup_append.mp hnodup
          exact parentFollows_of_passedOn hnodup
            ((declaredIn_mem_step load _).1 _ _)
            ((declaredIn_plain_step load _).1 _ _ _ _)
            (declaredIn_mem_parents load fuel parent)
            (declaredIn_plainOfParents load fuel parent kind n)
            ((plain_eq_none_step load _).1 _ _ kind n hwithin hctx)
            ((traitsFollow_of_eq_step load _).1 _ _ kind n hnodupTraits hwithin hctx)
            (ih parent (List.nodup_cons.mp hnodupAbove).2 hbeyond) h

/-! ## The whole merge -/

theorem mergesPlain_iff (load : ClassLoader) (c : ClassInfo) (kind : MemberKind) (n : Atom) :
    MergesPlain load c kind n ↔
      if c.owns kind (memberKey kind n) then
        ((c.members kind).filter fun m => memberKey kind m.name = memberKey kind n).length = 1
      else
        ((c.offers load).find? (brings kind (memberKey kind n))).map Prod.snd =
          (plainOfTraits load (maxTraitDepth + 1) c.usedTraits c.traitContext kind n).or
            (plainOfParents load maxInheritanceDepth c kind n) := by
  rw [MergesPlain, under_resolveClassWithInheritance, plainMember]
  by_cases howns : c.owns kind (memberKey kind n) = true
  · obtain ⟨d, hd⟩ := exists_own c howns
    obtain ⟨m, hfirst, rfl⟩ := Option.map_eq_some_iff.mp hd
    rw [if_pos howns, if_pos howns, hd, Option.some_or, Option.toList_some]
    constructor
    · intro h
      rw [← List.length_map (f := c.declared), h]
      rfl
    · intro h
      obtain ⟨m', hm'⟩ := List.length_eq_one_iff.mp h
      rw [← List.head?_filter, hm', List.head?_cons, Option.some.injEq] at hfirst
      rw [hm', hfirst]
      rfl
  · rw [if_neg howns, if_neg howns, own_eq_none c howns, Option.none_or]
    constructor
    · intro h
      have := congrArg List.head? h
      rwa [Option.head?_toList, Option.head?_toList] at this
    · intro h
      rw [h]

/-- The merge takes the first member where the hierarchy follows the rule and, in
a hierarchy that reaches no class twice and adapts no method with `as`, only
there. -/
theorem mergesPlain_iff_mergeFollows (load : ClassLoader) (c : ClassInfo) (kind : MemberKind)
    (n : Atom) :
    (mergeFollows load c kind n = true → MergesPlain load c kind n) ∧
      ((reached load c).Nodup → Unaliased kind (c :: reached load c) →
        (MergesPlain load c kind n ↔ mergeFollows load c kind n = true)) := by
  rw [mergesPlain_iff, mergeFollows]
  by_cases howns : c.owns kind (memberKey kind n) = true
  · rw [if_pos howns, if_pos howns, decide_eq_true_iff]
    exact ⟨id, fun _ _ => Iff.rfl⟩
  · rw [if_neg howns, if_neg howns, Bool.and_eq_true, Bool.or_eq_true, ClassInfo.offers,
      map_append_find]
    have henough : traitsFollow load (maxTraitDepth + 1) c.usedTraits c.traitContext kind n =
          true ∧
        (offersMember kind n (c.traitOffers load) = true ∨
          parentsFollow load maxInheritanceDepth c kind n = true) →
        (((c.traitOffers load).find? (brings kind (memberKey kind n))).map Prod.snd).or
            (((offersOfParents load maxInheritanceDepth c).find?
              (brings kind (memberKey kind n))).map Prod.snd) =
          (plainOfTraits load (maxTraitDepth + 1) c.usedTraits c.traitContext kind n).or
            (plainOfParents load maxInheritanceDepth c kind n) := by
      rintro ⟨htraits, hparents⟩
      have htaken := (plainOfTraits_step load _).1 _ _ kind n htraits
      rw [ClassInfo.traitOffers] at hparents ⊢
      rcases hparents with hoffers | hparents
      · obtain ⟨d, hd⟩ := exists_of_offersMember hoffers
        rw [← htaken, hd, Option.some_or, Option.some_or]
      · rw [htaken, plainOfParents_eq load _ c kind n hparents]
    refine ⟨henough, fun hnodup hplain => ⟨fun h => ?_, henough⟩⟩
    obtain ⟨hnodupTraits, hnodupParents, happart⟩ := List.nodup_append.mp hnodup
    obtain ⟨htraits, hparents⟩ := or_eq_or
      (fun d => d.declaredIn ∈ traitsReached load (maxTraitDepth + 1) c.usedTraits)
      (fun d hd => by
        obtain ⟨o, ho, rfl⟩ := declaredIn_of_find hd
        exact (declaredIn_mem_step load _).1 _ _ o ho)
      (fun d hd => (declaredIn_plain_step load _).1 _ _ _ _ _ hd)
      (fun d hd hin => by
        obtain ⟨o, ho, rfl⟩ := declaredIn_of_find hd
        exact happart _ hin _ (declaredIn_mem_parents load _ c o ho) rfl)
      (fun d hd hin =>
        happart _ hin _ (declaredIn_plainOfParents load _ c kind n d hd) rfl)
      h
    refine ⟨(traitsFollow_of_eq_step load _).1 _ _ kind n hnodupTraits
      (hplain.mono fun t ht => List.mem_cons_of_mem _ (List.mem_append_left _ ht))
      (fun hkind => hplain hkind c List.mem_cons_self) htraits, ?_⟩
    by_cases hoffered : offersMember kind n (c.traitOffers load) = true
    · exact Or.inl hoffered
    · rw [find_of_not_offersMember hoffered] at hparents
      exact Or.inr (parentsFollow_of_eq load _ c kind n hnodupParents
        (hplain.mono fun t ht => List.mem_cons_of_mem _ (List.mem_append_right _ ht))
        (hparents rfl))

end PhpantomLsp.Members
