import PhpantomLsp.Members.Merge

/-!
# What the merge takes a member from

The three merges share one table a member kind, and each only ever adds to it.
So the merge of a class is one pass over what the whole hierarchy offers, in
the order it is walked: what the traits of a trait offer before the trait's own
members, and what the traits of a parent offer before the parent's own.  A name
the class does not declare itself goes to the first offer of it.
-/

namespace PhpantomLsp.Members

open PhpantomLsp.Text (asciiLower eqIgnoreAsciiCase)

/-- A member brought to a merge. -/
abbrev Offer := MemberKind × Declared

/-- An offer of the name, as its kind tells names apart. -/
def brings (kind : MemberKind) (key : Atom) (o : Offer) : Bool :=
  o.1 = kind && memberKey kind o.2.member.name = key

def Merging.addAll (s : Merging) (offers : List Offer) : Merging :=
  offers.foldl (fun s o => s.add o.1 o.2) s

/-- What a class passes on to its subclasses. -/
def ClassInfo.visible (c : ClassInfo) (kind : MemberKind) : List Offer :=
  ((c.members kind).filter fun m => m.visibility ≠ .isPrivate).map fun m => (kind, c.declared m)

def ClassInfo.inherited (c : ClassInfo) : List Offer :=
  c.visible .method ++ (c.visible .property ++ c.visible .constant)

/-- What a trait brings of its own. -/
def TraitContext.offers (ctx : TraitContext) (traitName : Atom) (t : ClassInfo) : List Offer :=
  ((t.methods.filter fun m => !ctx.excluded traitName m.name).map fun m =>
      (.method, ctx.imported traitName t m)) ++
    (t.properties.map (fun m => (.property, t.declared m)) ++
      (t.constants.map (fun m => (.constant, t.declared m)) ++
        (ctx.aliases.filterMap fun a => a.aliased traitName t).map fun d => (.method, d)))

mutual

def offersOfTraits (load : ClassLoader) :
    (fuel : Nat) → (traitNames : List Atom) → TraitContext → List Offer
  | 0, _, _ => []
  | fuel + 1, traitNames, ctx =>
      traitNames.flatMap fun traitName =>
        match load traitName with
        | none => []
        | some t =>
            offersOfTraits load fuel t.usedTraits t.traitContext ++
              (offersOfTraitParents load fuel t ++ ctx.offers traitName t)

def offersOfTraitParents (load : ClassLoader) : (fuel : Nat) → (current : ClassInfo) → List Offer
  | 0, _ => []
  | fuel + 1, current =>
      match current.parentClass.bind (loadAncestor load current.fqn) with
      | none => []
      | some parent =>
          offersOfTraits load fuel parent.usedTraits parent.traitContext ++
            (parent.inherited ++ offersOfTraitParents load fuel parent)

end

/-- What the traits of a class offer. -/
def ClassInfo.traitOffers (load : ClassLoader) (c : ClassInfo) : List Offer :=
  offersOfTraits load (maxTraitDepth + 1) c.usedTraits c.traitContext

def offersOfParents (load : ClassLoader) : (fuel : Nat) → (current : ClassInfo) → List Offer
  | 0, _ => []
  | fuel + 1, current =>
      match current.parentClass.bind (loadAncestor load current.fqn) with
      | none => []
      | some parent =>
          parent.traitOffers load ++ (parent.inherited ++ offersOfParents load fuel parent)

/-- All a class is offered, in the order of the merge. -/
def ClassInfo.offers (load : ClassLoader) (c : ClassInfo) : List Offer :=
  c.traitOffers load ++ offersOfParents load maxInheritanceDepth c

/-! ## The merge adds what is offered -/

@[simp] theorem Merging.addAll_nil (s : Merging) : s.addAll [] = s := rfl

@[simp] theorem Merging.addAll_cons (s : Merging) (o : Offer) (offers : List Offer) :
    s.addAll (o :: offers) = (s.add o.1 o.2).addAll offers := rfl

theorem Merging.addAll_append (s : Merging) (l₁ l₂ : List Offer) :
    s.addAll (l₁ ++ l₂) = (s.addAll l₁).addAll l₂ := List.foldl_append

/-- A loop that adds what some elements give adds what they all give. -/
theorem foldl_addAll {α : Type} (give : α → List Offer) (l : List α) (s : Merging) :
    l.foldl (fun s a => s.addAll (give a)) s = s.addAll (l.flatMap give) := by
  induction l generalizing s with
  | nil => rfl
  | cons a l ih => rw [List.foldl_cons, ih, List.flatMap_cons, Merging.addAll_append]

theorem foldl_add {α : Type} (kind : MemberKind) (give : α → Declared) (l : List α)
    (s : Merging) :
    l.foldl (fun s a => s.add kind (give a)) s = s.addAll (l.map fun a => (kind, give a)) := by
  rw [Merging.addAll, List.foldl_map]

theorem addVisible_eq (s : Merging) (c : ClassInfo) (kind : MemberKind) :
    s.addVisible c kind = s.addAll (c.visible kind) := by
  rw [ClassInfo.visible, Merging.addAll, List.foldl_map, List.foldl_filter, Merging.addVisible]
  congr 1
  funext s m
  by_cases hprivate : m.visibility = .isPrivate
  · simp [hprivate]
  · simp [hprivate]

theorem mergeVisibleMembers_eq (s : Merging) (c : ClassInfo) :
    s.mergeVisibleMembers c = s.addAll c.inherited := by
  rw [Merging.mergeVisibleMembers, addVisible_eq, addVisible_eq, addVisible_eq,
    ClassInfo.inherited, Merging.addAll_append, Merging.addAll_append]

theorem foldl_aliased (traitName : Atom) (t : ClassInfo) (aliases : List TraitAlias) (s : Merging) :
    aliases.foldl
      (fun s a =>
        match a.aliased traitName t with
        | none => s
        | some d => s.add .method d) s =
      s.addAll ((aliases.filterMap fun a => a.aliased traitName t).map fun d => (.method, d)) := by
  rw [← foldl_add, List.foldl_filterMap]
  congr 1
  funext s a
  cases a.aliased traitName t <;> rfl

theorem mergeTraitMembers_eq (traitName : Atom) (t : ClassInfo) (ctx : TraitContext)
    (s : Merging) :
    mergeTraitMembers traitName t ctx s = s.addAll (ctx.offers traitName t) := by
  have hmethods : ∀ s : Merging, t.methods.foldl
      (fun s m =>
        if ctx.excluded traitName m.name then s else s.add .method (ctx.imported traitName t m)) s =
      s.addAll ((t.methods.filter fun m => !ctx.excluded traitName m.name).map fun m =>
        (.method, ctx.imported traitName t m)) := by
    intro s
    rw [← foldl_add, List.foldl_filter]
    congr 1
    funext s m
    cases ctx.excluded traitName m.name <;> rfl
  rw [mergeTraitMembers]
  simp only [hmethods, foldl_add]
  rw [TraitContext.offers, Merging.addAll_append, Merging.addAll_append, Merging.addAll_append]
  exact foldl_aliased traitName t ctx.aliases _

theorem mergeTraits_step (load : ClassLoader) (fuel : Nat) :
    (∀ traitNames ctx s, mergeTraitsInto load fuel traitNames ctx s =
      s.addAll (offersOfTraits load fuel traitNames ctx)) ∧
    (∀ current s, mergeTraitParents load fuel current s =
      s.addAll (offersOfTraitParents load fuel current)) := by
  induction fuel with
  | zero =>
      refine ⟨fun _ _ _ => ?_, fun _ _ => ?_⟩
      · rw [mergeTraitsInto, offersOfTraits, Merging.addAll_nil]
      · rw [mergeTraitParents, offersOfTraitParents, Merging.addAll_nil]
  | succ fuel ih =>
      refine ⟨fun traitNames ctx s => ?_, fun current s => ?_⟩
      · rw [mergeTraitsInto, offersOfTraits, ← foldl_addAll]
        congr 1
        funext s traitName
        cases load traitName with
        | none => rfl
        | some t =>
            show mergeTraitMembers traitName t ctx (mergeTraitParents load fuel t
              (mergeTraitsInto load fuel t.usedTraits t.traitContext s)) = _
            rw [ih.1, ih.2, mergeTraitMembers_eq, Merging.addAll_append, Merging.addAll_append]
      · rw [mergeTraitParents, offersOfTraitParents]
        cases current.parentClass.bind (loadAncestor load current.fqn) with
        | none => rfl
        | some parent =>
            show mergeTraitParents load fuel parent
              ((mergeTraitsInto load fuel parent.usedTraits parent.traitContext
                s).mergeVisibleMembers parent) = _
            rw [ih.1, mergeVisibleMembers_eq, ih.2, Merging.addAll_append, Merging.addAll_append]

theorem mergeTraits_eq (load : ClassLoader) (c : ClassInfo) (s : Merging) :
    mergeTraits load c s = s.addAll (c.traitOffers load) :=
  (mergeTraits_step load _).1 _ _ _

theorem mergeParentChain_eq (load : ClassLoader) (fuel : Nat) (current : ClassInfo) (s : Merging) :
    mergeParentChain load fuel current s = s.addAll (offersOfParents load fuel current) := by
  induction fuel generalizing current s with
  | zero => rfl
  | succ fuel ih =>
      rw [mergeParentChain, offersOfParents]
      cases current.parentClass.bind (loadAncestor load current.fqn) with
      | none => rfl
      | some parent =>
          show mergeParentChain load fuel parent (mergeParentMembers load parent s) = _
          rw [ih, mergeParentMembers, mergeTraits_eq, mergeVisibleMembers_eq,
            Merging.addAll_append, Merging.addAll_append]

/-- The merge of a class is one pass over what it is offered. -/
theorem resolveClassWithInheritance_eq (load : ClassLoader) (c : ClassInfo) :
    resolveClassWithInheritance load c = (Merging.ofClass c).addAll (c.offers load) := by
  rw [resolveClassWithInheritance, mergeTraits_eq, mergeParentChain_eq, ClassInfo.offers,
    Merging.addAll_append]

/-! ## The first offer of a name is taken -/

/-- The entries of a name. -/
def Merging.under (s : Merging) (kind : MemberKind) (key : Atom) : List Declared :=
  (s.table kind).entries.filter fun d => memberKey kind d.member.name = key

theorem Merging.table_add (s : Merging) (kind : MemberKind) (o : Offer) :
    (s.add o.1 o.2).table kind =
      if o.1 = kind then (s.table kind).insert (memberKey kind o.2.member.name) o.2
      else s.table kind := by
  obtain ⟨k, d⟩ := o
  cases k <;> cases kind <;> rfl

/-- One offer adds an entry of its own name, and only if there is none. -/
theorem Merging.under_add (s : Merging) (kind : MemberKind) (key : Atom) (o : Offer) :
    (s.add o.1 o.2).under kind key =
        (if brings kind key o ∧ key ∉ (s.table kind).seen then s.under kind key ++ [o.2]
          else s.under kind key) ∧
      (key ∈ ((s.add o.1 o.2).table kind).seen ↔
        key ∈ (s.table kind).seen ∨ brings kind key o) := by
  rw [Merging.under, Merging.under, Merging.table_add]
  by_cases hkind : o.1 = kind
  · by_cases hseen : memberKey kind o.2.member.name ∈ (s.table kind).seen
    · by_cases hname : memberKey kind o.2.member.name = key
      · subst hname
        simp [Table.insert, brings, hkind, hseen]
      · simp [Table.insert, brings, hkind, hseen, hname]
    · by_cases hname : memberKey kind o.2.member.name = key
      · subst hname
        simp [Table.insert, brings, hkind, hseen]
      · simp [Table.insert, brings, hkind, hseen, hname, Ne.symm hname]
  · simp [brings, hkind]

theorem Merging.under_addAll (s : Merging) (kind : MemberKind) (key : Atom)
    (offers : List Offer) :
    (s.addAll offers).under kind key =
      if key ∈ (s.table kind).seen then s.under kind key
      else s.under kind key ++ ((offers.find? (brings kind key)).map Prod.snd).toList := by
  induction offers generalizing s with
  | nil => simp
  | cons o offers ih =>
      obtain ⟨hunder, hseen⟩ := s.under_add kind key o
      rw [Merging.addAll_cons, ih, hunder]
      by_cases hbrings : brings kind key o = true
      · by_cases hmem : key ∈ (s.table kind).seen
        · simp [hseen, hmem]
        · simp [hseen, hmem, hbrings]
      · by_cases hmem : key ∈ (s.table kind).seen
        · simp [hseen, hmem]
        · simp [hseen, hmem, hbrings]

/-- The class declares the name itself. -/
def ClassInfo.owns (c : ClassInfo) (kind : MemberKind) (key : Atom) : Bool :=
  (c.members kind).any fun m => memberKey kind m.name = key

theorem Merging.under_ofClass (c : ClassInfo) (kind : MemberKind) (key : Atom) :
    (Merging.ofClass c).under kind key =
        ((c.members kind).filter fun m => memberKey kind m.name = key).map c.declared ∧
      (key ∈ ((Merging.ofClass c).table kind).seen ↔ c.owns kind key) := by
  have htable : (Merging.ofClass c).table kind =
      ⟨(c.members kind).map c.declared, (c.members kind).map fun m => memberKey kind m.name⟩ := by
    cases kind <;> rfl
  constructor
  · rw [Merging.under, htable, List.filter_map]
    rfl
  · rw [htable, ClassInfo.owns, List.any_eq_true]
    simp

/-- The entries of a name: the class's own, or else the first one offered. -/
theorem under_resolveClassWithInheritance (load : ClassLoader) (c : ClassInfo) (kind : MemberKind)
    (key : Atom) :
    (resolveClassWithInheritance load c).under kind key =
      if c.owns kind key then
        ((c.members kind).filter fun m => memberKey kind m.name = key).map c.declared
      else (((c.offers load).find? (brings kind key)).map Prod.snd).toList := by
  obtain ⟨hunder, hseen⟩ := Merging.under_ofClass c kind key
  rw [resolveClassWithInheritance_eq, Merging.under_addAll, hunder]
  by_cases howns : c.owns kind key = true
  · rw [if_pos (hseen.mpr howns), if_pos howns]
  · have hnone : (c.members kind).filter (fun m => memberKey kind m.name = key) = [] := by
      rw [List.filter_eq_nil_iff]
      intro m hm hname
      exact howns (List.any_eq_true.mpr ⟨m, hm, hname⟩)
    rw [if_neg (fun h => howns (hseen.mp h)), if_neg howns, hnone]
    rfl

/-! ## What the merge reaches -/

section Reach

variable (load : ClassLoader)

mutual

def traitsReached : (fuel : Nat) → (traitNames : List Atom) → List ClassInfo
  | 0, _ => []
  | fuel + 1, traitNames =>
      traitNames.flatMap fun name =>
        match load name with
        | none => []
        | some t =>
            traitsReached fuel t.usedTraits ++ (traitParentsReached fuel t ++ [t])

def traitParentsReached : (fuel : Nat) → (current : ClassInfo) → List ClassInfo
  | 0, _ => []
  | fuel + 1, current =>
      match current.parentClass.bind (loadAncestor load current.fqn) with
      | none => []
      | some parent =>
          traitsReached fuel parent.usedTraits ++ (parent :: traitParentsReached fuel parent)

end

def parentsReached : (fuel : Nat) → (current : ClassInfo) → List ClassInfo
  | 0, _ => []
  | fuel + 1, current =>
      match current.parentClass with
      | none => []
      | some name =>
          match load name with
          | none => []
          | some parent =>
              traitsReached load (maxTraitDepth + 1) parent.usedTraits ++
                (parent :: parentsReached fuel parent)

/-- The traits, and what they extend, and the parents a class is merged from. -/
def reached (c : ClassInfo) : List ClassInfo :=
  traitsReached load (maxTraitDepth + 1) c.usedTraits ++ parentsReached load maxInheritanceDepth c

theorem declaredIn_of_mem_inherited {c : ClassInfo} {o : Offer} (ho : o ∈ c.inherited) :
    o.2.declaredIn = c := by
  simp only [ClassInfo.inherited, ClassInfo.visible, List.mem_append, List.mem_map] at ho
  rcases ho with ⟨m, -, rfl⟩ | ⟨m, -, rfl⟩ | ⟨m, -, rfl⟩ <;> rfl

theorem declaredIn_of_aliased {a : TraitAlias} {name : Atom} {t : ClassInfo} {d : Declared}
    (hd : a.aliased name t = some d) : d.declaredIn = t := by
  unfold TraitAlias.aliased at hd
  split at hd
  · cases hd
  · split at hd
    · obtain ⟨m, -, rfl⟩ := Option.map_eq_some_iff.mp hd
      rfl
    · cases hd

theorem declaredIn_of_mem_offers {ctx : TraitContext} {name : Atom} {t : ClassInfo} {o : Offer}
    (ho : o ∈ ctx.offers name t) : o.2.declaredIn = t := by
  simp only [TraitContext.offers, List.mem_append, List.mem_map, List.mem_filterMap] at ho
  rcases ho with ⟨m, -, rfl⟩ | ⟨m, -, rfl⟩ | ⟨m, -, rfl⟩ | ⟨d, ⟨a, -, hd⟩, rfl⟩
  · rfl
  · rfl
  · rfl
  · exact declaredIn_of_aliased hd

/-- What is offered is declared by a class that is reached. -/
theorem declaredIn_mem_step (fuel : Nat) :
    (∀ names ctx, ∀ o ∈ offersOfTraits load fuel names ctx,
      o.2.declaredIn ∈ traitsReached load fuel names) ∧
    (∀ current, ∀ o ∈ offersOfTraitParents load fuel current,
      o.2.declaredIn ∈ traitParentsReached load fuel current) := by
  induction fuel with
  | zero =>
      refine ⟨fun names ctx o ho => ?_, fun current o ho => ?_⟩
      · simp [offersOfTraits] at ho
      · simp [offersOfTraitParents] at ho
  | succ fuel ih =>
      refine ⟨fun names ctx o ho => ?_, fun current o ho => ?_⟩
      · rw [offersOfTraits, List.mem_flatMap] at ho
        obtain ⟨name, hname, ho⟩ := ho
        rw [traitsReached, List.mem_flatMap]
        refine ⟨name, hname, ?_⟩
        cases hload : load name with
        | none => simp [hload] at ho
        | some t =>
            simp only [hload, List.mem_append] at ho
            simp only [List.mem_append, List.mem_singleton]
            rcases ho with ho | ho | ho
            · exact Or.inl (ih.1 _ _ o ho)
            · exact Or.inr (Or.inl (ih.2 _ o ho))
            · exact Or.inr (Or.inr (declaredIn_of_mem_offers ho))
      · rw [offersOfTraitParents] at ho
        rw [traitParentsReached]
        cases hparent : current.parentClass.bind (loadAncestor load current.fqn) with
        | none => simp [hparent] at ho
        | some parent =>
            simp only [hparent, List.mem_append] at ho
            simp only [List.mem_append, List.mem_cons]
            rcases ho with ho | ho | ho
            · exact Or.inl (ih.1 _ _ o ho)
            · exact Or.inr (Or.inl (declaredIn_of_mem_inherited ho))
            · exact Or.inr (Or.inr (ih.2 _ o ho))

/-- An ancestor is loaded by the name it has. -/
theorem parent_of_loadAncestor {current parent : ClassInfo}
    (h : current.parentClass.bind (loadAncestor load current.fqn) = some parent) :
    ∃ name, current.parentClass = some name ∧ load name = some parent := by
  obtain ⟨name, hname, hload⟩ := Option.bind_eq_some_iff.mp h
  exact ⟨name, hname, (Option.filter_eq_some_iff.mp hload).1⟩

theorem declaredIn_offeredBy (fuel : Nat) {ctx : TraitContext} {name : Atom} {t : ClassInfo}
    {o : Offer}
    (ho : o ∈ offersOfTraits load fuel t.usedTraits t.traitContext ++
      (offersOfTraitParents load fuel t ++ ctx.offers name t)) :
    o.2.declaredIn ∈ traitsReached load fuel t.usedTraits ++
      (traitParentsReached load fuel t ++ [t]) := by
  simp only [List.mem_append] at ho
  simp only [List.mem_append, List.mem_singleton]
  rcases ho with ho | ho | ho
  · exact Or.inl ((declaredIn_mem_step load fuel).1 _ _ o ho)
  · exact Or.inr (Or.inl ((declaredIn_mem_step load fuel).2 _ o ho))
  · exact Or.inr (Or.inr (declaredIn_of_mem_offers ho))

theorem declaredIn_mem_parents (fuel : Nat) (current : ClassInfo) :
    ∀ o ∈ offersOfParents load fuel current, o.2.declaredIn ∈ parentsReached load fuel current := by
  induction fuel generalizing current with
  | zero => intro o ho; cases ho
  | succ fuel ih =>
      intro o ho
      rw [offersOfParents] at ho
      cases hparent : current.parentClass.bind (loadAncestor load current.fqn) with
      | none => simp [hparent] at ho
      | some parent =>
          obtain ⟨name, hname, hload⟩ := parent_of_loadAncestor load hparent
          simp only [hparent, List.mem_append] at ho
          rw [parentsReached]
          simp only [hname, hload, List.mem_append, List.mem_cons]
          rcases ho with ho | ho | ho
          · exact Or.inl ((declaredIn_mem_step load _).1 _ _ o ho)
          · exact Or.inr (Or.inl (declaredIn_of_mem_inherited ho))
          · exact Or.inr (Or.inr (ih parent o ho))

end Reach

end PhpantomLsp.Members
