import PhpantomLsp.Members.Precedence

/-!
# The member PHP selects

For each name PHP selects the class's own member, or else the one its traits
bring, or else the nearest parent's by the same rule.  The names of traits are
case-insensitive, in `insteadof` and `as` too.  An abstract method of a trait is a
requirement: a method with a body of another trait meets it, and so does whatever
is inherited, and that is the one selected.

The merge knows neither.  Where the adaptations spell traits as they are used and
no requirement is met elsewhere (`RulesPlainly`) PHP's rule is the order of
`plainMember`, and what is known of the merge there is known of PHP's rule.
-/

namespace PhpantomLsp.Members

open PhpantomLsp.Text (asciiLower eqIgnoreAsciiCase)

/-! ## PHP's rule -/

namespace TraitContext

/-- Another trait's method is used instead of this one's. -/
def excludesTrait (ctx : TraitContext) (traitName method : Atom) : Bool :=
  ctx.precedences.any fun p =>
    eqIgnoreAsciiCase p.methodName method && p.insteadof.any (eqIgnoreAsciiCase · traitName)

/-- The visibility the last adaptation without a new name gives a method. -/
def visibilityGiven (ctx : TraitContext) (traitName method : Atom) : Option Visibility :=
  ((ctx.aliases.filter fun a =>
    eqIgnoreAsciiCase a.methodName method && a.aliasName.isNone &&
      a.traitName.all (eqIgnoreAsciiCase · traitName)).filterMap TraitAlias.visibility).getLast?

/-- A method under the visibility the adaptations give it. -/
def withVisibility (ctx : TraitContext) (traitName : Atom) (d : Declared) : Declared :=
  { d with
    member.visibility :=
      (ctx.visibilityGiven traitName d.member.name).getD d.member.visibility }

end TraitContext

/-- The adaptation adds a method of this name from this trait. -/
def TraitAlias.addsFrom (a : TraitAlias) (traitName n : Atom) : Bool :=
  (a.aliasName.any fun aliasName => memberKey .method aliasName = memberKey .method n) &&
    a.traitName.all (eqIgnoreAsciiCase · traitName)

/-- The members of a name a trait with these members brings to a class that uses
it: its own of that name, and for methods those an adaptation renames to it. -/
def TraitContext.brings (ctx : TraitContext) (traitName : Atom) (kind : MemberKind) (n : Atom)
    (member : MemberKind → Atom → Option Declared) : List Declared :=
  match kind with
  | .method =>
      (if ctx.excludesTrait traitName n then none
        else (member .method n).map (ctx.withVisibility traitName)).toList ++
      ctx.aliases.filterMap fun a =>
        if a.addsFrom traitName n then (member .method a.methodName).map a.renamed else none
  | kind => (member kind n).toList

/-- An abstract method: a trait requires it. -/
def required (kind : MemberKind) (d : Declared) : Bool :=
  kind = .method && d.declaration.isAbstract

/-- The first of some members that meets what the others require. -/
def firstMet (kind : MemberKind) (l : List Declared) : Option Declared :=
  (l.find? fun d => !required kind d).or l.head?

/-- What traits bring comes before what is inherited, which meets what they require. -/
def overInherited (kind : MemberKind) (fromTraits inherited : Option Declared) : Option Declared :=
  (fromTraits.filter fun d => !required kind d).or (inherited.or fromTraits)

/-- Members that are not private. -/
def inheritable (d : Declared) : Bool := d.member.visibility ≠ .isPrivate

/-- A level of a chain of parents: its own member, unless it is private, or else
what its traits bring or the levels above pass on. -/
def ClassInfo.handsDown (c : ClassInfo) (kind : MemberKind) (n : Atom)
    (fromTraits above : Option Declared) : Option Declared :=
  match c.own kind n with
  | some d => if inheritable d then some d else above
  | none => overInherited kind (fromTraits.filter inheritable) above

mutual

def selectedOfTraits (load : ClassLoader) :
    (fuel : Nat) → (traitNames : List Atom) → TraitContext → MemberKind → Atom → Option Declared
  | 0, _, _, _, _ => none
  | fuel + 1, traitNames, ctx, kind, n =>
      firstMet kind <| traitNames.flatMap fun traitName =>
        match load traitName with
        | none => []
        | some t =>
            ctx.brings traitName kind n fun kind n =>
              (t.own kind n).or <| overInherited kind
                (selectedOfTraits load fuel t.usedTraits t.traitContext kind n)
                (selectedOfTraitParents load fuel t kind n)

def selectedOfTraitParents (load : ClassLoader) :
    (fuel : Nat) → (current : ClassInfo) → MemberKind → Atom → Option Declared
  | 0, _, _, _ => none
  | fuel + 1, current, kind, n =>
      match current.parentClass.bind (loadAncestor load current.fqn) with
      | none => none
      | some parent =>
          parent.handsDown kind n
            (selectedOfTraits load fuel parent.usedTraits parent.traitContext kind n)
            (selectedOfTraitParents load fuel parent kind n)

end

def selectedOfParents (load : ClassLoader) :
    (fuel : Nat) → (current : ClassInfo) → MemberKind → Atom → Option Declared
  | 0, _, _, _ => none
  | fuel + 1, current, kind, n =>
      match current.parentClass.bind (loadAncestor load current.fqn) with
      | none => none
      | some parent =>
          parent.handsDown kind n
            (selectedOfTraits load (maxTraitDepth + 1) parent.usedTraits parent.traitContext kind n)
            (selectedOfParents load fuel parent kind n)

/-- The member of a name PHP selects. -/
def selectedMember (load : ClassLoader) (c : ClassInfo) (kind : MemberKind) (n : Atom) :
    Option Declared :=
  (c.own kind n).or <| overInherited kind
    (selectedOfTraits load (maxTraitDepth + 1) c.usedTraits c.traitContext kind n)
    (selectedOfParents load maxInheritanceDepth c kind n)

/-- Exactly one member of the name is merged, the selected one, or none if none is. -/
def MergesSelected (load : ClassLoader) (c : ClassInfo) (kind : MemberKind) (n : Atom) : Prop :=
  (resolveClassWithInheritance load c).under kind (memberKey kind n) =
    (selectedMember load c kind n).toList

instance (load : ClassLoader) (c : ClassInfo) (kind : MemberKind) (n : Atom) :
    Decidable (MergesSelected load c kind n) := inferInstanceAs (Decidable (_ = _))

/-! ## Where the rule is plain -/

/-- The adaptation adds a method of this name, or changes one. -/
def TraitAlias.concerns (a : TraitAlias) (n : Atom) : Bool :=
  match a.aliasName with
  | some aliasName => memberKey .method aliasName = memberKey .method n
  | none => eqIgnoreAsciiCase a.methodName n

/-- The adaptations that bear on a method name a trait as it is spelled where it is
used, if at all. -/
structure TraitContext.Spelled (ctx : TraitContext) (traitName n : Atom) : Prop where
  precedences : ∀ p ∈ ctx.precedences, eqIgnoreAsciiCase p.methodName n = true →
    ∀ other ∈ p.insteadof, eqIgnoreAsciiCase other traitName = true → other = traitName
  aliases : ∀ a ∈ ctx.aliases, a.concerns n = true →
    ∀ other ∈ a.traitName, eqIgnoreAsciiCase other traitName = true → other = traitName

/-- If the first of some members is a requirement, none of the others meets it. -/
def Settled (kind : MemberKind) (l : List Declared) : Prop :=
  ∀ d rest, l = d :: rest → required kind d = true → ∀ e ∈ rest, required kind e = true

/-- What the traits bring is plain, what is inherited is where they bring nothing,
and nothing inherited meets what they require. -/
structure PlainlyOver (kind : MemberKind) (fromTraits inherited : Option Declared)
    (traits above : Prop) : Prop where
  traits : traits
  above : fromTraits = none → above
  unmet : ∀ d, fromTraits = some d → required kind d = true → inherited = none

/-- One trait is spelled as it is used, and `inner` holds of the names looked up in it. -/
def UsesPlainly (ctx : TraitContext) (traitName : Atom) (kind : MemberKind) (n : Atom)
    (inner : MemberKind → Atom → Prop) : Prop :=
  match kind with
  | .method =>
      ctx.Spelled traitName n ∧ (ctx.excluded traitName n = false → inner .method n) ∧
        ∀ a ∈ ctx.aliases, a.adds traitName n = true → inner .method a.methodName
  | kind => inner kind n

/-- The members of a name the traits bring, in order. -/
def broughtByTraits (load : ClassLoader) (fuel : Nat) (traitNames : List Atom) (ctx : TraitContext)
    (kind : MemberKind) (n : Atom) : List Declared :=
  traitNames.flatMap fun traitName =>
    match load traitName with
    | none => []
    | some t =>
        ctx.brings traitName kind n fun kind n =>
          (t.own kind n).or <| overInherited kind
            (selectedOfTraits load fuel t.usedTraits t.traitContext kind n)
            (selectedOfTraitParents load fuel t kind n)

/-- A level of a chain of parents declares the name, or its traits and what is
above it are plain. -/
def HandsDownPlainly (parent : ClassInfo) (kind : MemberKind) (n : Atom)
    (fromTraits inherited : Option Declared) (traits above : Prop) : Prop :=
  match parent.own kind n with
  | some d => inheritable d = false → above
  | none => PlainlyOver kind (fromTraits.filter inheritable) inherited traits above

mutual

/-- Up to the first trait that brings the name. -/
def TraitsPlain (load : ClassLoader) :
    (fuel : Nat) → (traitNames : List Atom) → TraitContext → MemberKind → Atom → Prop
  | 0, _, _, _, _ => True
  | fuel + 1, traitNames, ctx, kind, n =>
      Settled kind (broughtByTraits load fuel traitNames ctx kind n) ∧
        ∀ before traitName after, traitNames = before ++ traitName :: after →
          broughtByTraits load fuel before ctx kind n = [] → ∀ t, load traitName = some t →
            UsesPlainly ctx traitName kind n fun kind n =>
              t.owns kind (memberKey kind n) = true ∨
                PlainlyOver kind (selectedOfTraits load fuel t.usedTraits t.traitContext kind n)
                  (selectedOfTraitParents load fuel t kind n)
                  (TraitsPlain load fuel t.usedTraits t.traitContext kind n)
                  (TraitParentsPlain load fuel t kind n)

def TraitParentsPlain (load : ClassLoader) :
    (fuel : Nat) → (current : ClassInfo) → MemberKind → Atom → Prop
  | 0, _, _, _ => True
  | fuel + 1, current, kind, n =>
      match current.parentClass.bind (loadAncestor load current.fqn) with
      | none => True
      | some parent =>
          HandsDownPlainly parent kind n
            (selectedOfTraits load fuel parent.usedTraits parent.traitContext kind n)
            (selectedOfTraitParents load fuel parent kind n)
            (TraitsPlain load fuel parent.usedTraits parent.traitContext kind n)
            (TraitParentsPlain load fuel parent kind n)

end

def ParentsPlain (load : ClassLoader) :
    (fuel : Nat) → (current : ClassInfo) → MemberKind → Atom → Prop
  | 0, _, _, _ => True
  | fuel + 1, current, kind, n =>
      match current.parentClass.bind (loadAncestor load current.fqn) with
      | none => True
      | some parent =>
          HandsDownPlainly parent kind n
            (selectedOfTraits load (maxTraitDepth + 1) parent.usedTraits parent.traitContext kind n)
            (selectedOfParents load fuel parent kind n)
            (TraitsPlain load (maxTraitDepth + 1) parent.usedTraits parent.traitContext kind n)
            (ParentsPlain load fuel parent kind n)

/-- The class declares the name; or up to where it is found the adaptations spell
traits as they are used, and no requirement of a trait is met by a later trait or
by what is inherited. -/
def RulesPlainly (load : ClassLoader) (c : ClassInfo) (kind : MemberKind) (n : Atom) : Prop :=
  c.owns kind (memberKey kind n) = true ∨
    PlainlyOver kind (selectedOfTraits load (maxTraitDepth + 1) c.usedTraits c.traitContext kind n)
      (selectedOfParents load maxInheritanceDepth c kind n)
      (TraitsPlain load (maxTraitDepth + 1) c.usedTraits c.traitContext kind n)
      (ParentsPlain load maxInheritanceDepth c kind n)

/-! ## There it is the order of the rule -/

theorem firstMet_of_settled {kind : MemberKind} {l : List Declared} (h : Settled kind l) :
    firstMet kind l = l.head? := by
  unfold firstMet
  cases l with
  | nil => rfl
  | cons d rest =>
      by_cases hd : required kind d = true
      · have hnone : (d :: rest).find? (fun d => !required kind d) = none := by
          rw [List.find?_eq_none]
          intro e he
          rcases List.mem_cons.mp he with rfl | he
          · simp [hd]
          · simp [h d rest rfl hd e he]
        rw [hnone, Option.none_or]
      · rw [List.find?_cons_of_pos (by simp [hd]), Option.some_or, List.head?_cons]

theorem overInherited_of_plainly {kind : MemberKind} {a b a' b' : Option Declared}
    {traits above : Prop} (h : PlainlyOver kind a b traits above) (ha : a = a')
    (hb : above → b = b') : overInherited kind a b = a'.or b' := by
  subst ha
  unfold overInherited
  cases a with
  | none => simp [hb (h.above rfl)]
  | some d =>
      by_cases hd : required kind d = true
      · simp [Option.filter, hd, h.unmet d rfl hd]
      · simp [Option.filter, hd]

/-- Two walks of a list find the same if they agree up to where the first does. -/
theorem findSome?_congr_of_before {α β : Type} {f g : α → Option β} (l : List α)
    (h : ∀ before a after, l = before ++ a :: after → before.findSome? f = none → f a = g a) :
    l.findSome? f = l.findSome? g := by
  induction l with
  | nil => rfl
  | cons a l ih =>
      have hhere := h [] a l rfl rfl
      rw [List.findSome?_cons, List.findSome?_cons, ← hhere]
      cases hfound : f a with
      | some b => rfl
      | none =>
          refine ih fun before b after hl hnone => ?_
          refine h (a :: before) b after (by rw [hl]; rfl) ?_
          rw [List.findSome?_cons, hfound]
          exact hnone

theorem all_spelled {traitName : Atom} {name : Option Atom}
    (h : ∀ other ∈ name, eqIgnoreAsciiCase other traitName = true → other = traitName) :
    name.all (eqIgnoreAsciiCase · traitName) = name.all (· == traitName) := by
  cases name with
  | none => rfl
  | some other =>
      rw [Option.all_some, Option.all_some, Bool.eq_iff_iff, beq_iff_eq]
      constructor
      · exact h other rfl
      · intro heq
        rw [heq]
        exact beq_self_eq_true _

namespace TraitContext.Spelled

variable {ctx : TraitContext} {traitName n : Atom}

theorem excludesTrait (h : ctx.Spelled traitName n) :
    ctx.excludesTrait traitName n = ctx.excluded traitName n := by
  unfold TraitContext.excludesTrait TraitContext.excluded
  rw [Bool.eq_iff_iff, List.any_eq_true, List.any_eq_true]
  refine exists_congr fun p => and_congr_right fun hp => ?_
  rw [Bool.and_eq_true, Bool.and_eq_true, List.any_eq_true, List.contains_iff_mem]
  refine and_congr_right fun hname => ⟨?_, ?_⟩
  · intro hany
    obtain ⟨other, hother, hsame⟩ := hany
    rw [← h.precedences p hp hname other hother hsame]
    exact hother
  · intro hmem
    exact ⟨traitName, hmem, beq_self_eq_true _⟩

theorem withVisibility (h : ctx.Spelled traitName n) {d : Declared}
    (hname : memberKey .method d.member.name = memberKey .method n) :
    ctx.withVisibility traitName d = ctx.adapted traitName d := by
  have hfilter : (ctx.aliases.filter fun a =>
      eqIgnoreAsciiCase a.methodName d.member.name && a.aliasName.isNone &&
        a.traitName.all (eqIgnoreAsciiCase · traitName)) =
      ctx.aliases.filter fun a =>
        eqIgnoreAsciiCase a.methodName d.member.name && a.aliasName.isNone &&
          a.traitName.all (· == traitName) := by
    apply List.filter_congr
    intro a ha
    by_cases hchanges : (eqIgnoreAsciiCase a.methodName d.member.name && a.aliasName.isNone) = true
    · have hconcerns : a.concerns n = true := by
        rw [Bool.and_eq_true, Option.isNone_iff_eq_none] at hchanges
        have hmethod : asciiLower a.methodName = asciiLower d.member.name := beq_iff_eq.mp hchanges.1
        rw [TraitAlias.concerns, hchanges.2]
        exact beq_iff_eq.mpr (hmethod.trans hname)
      rw [all_spelled (h.aliases a ha hconcerns)]
    · rw [Bool.not_eq_true] at hchanges
      rw [hchanges, Bool.false_and, Bool.false_and]
  unfold TraitContext.withVisibility TraitContext.visibilityGiven TraitContext.adapted
    TraitContext.visibilityChange
  rw [hfilter]

theorem addsFrom (h : ctx.Spelled traitName n) {a : TraitAlias} (ha : a ∈ ctx.aliases) :
    a.addsFrom traitName n = a.adds traitName n := by
  unfold TraitAlias.addsFrom TraitAlias.adds
  cases hname : a.aliasName with
  | none => rfl
  | some aliasName =>
      by_cases hadds : memberKey .method aliasName = memberKey .method n
      · have hconcerns : a.concerns n = true := by
          rw [TraitAlias.concerns, hname]
          exact decide_eq_true hadds
        rw [all_spelled (h.aliases a ha hconcerns)]
      · simp [hadds]

end TraitContext.Spelled

/-! ### What is looked up is found under its name -/

theorem name_own {c : ClassInfo} {kind : MemberKind} {n : Atom} {d : Declared}
    (h : c.own kind n = some d) : memberKey kind d.member.name = memberKey kind n := by
  obtain ⟨m, hm, rfl⟩ := Option.map_eq_some_iff.mp h
  have hname := List.find?_some hm
  exact of_decide_eq_true hname

theorem name_brought {ctx : TraitContext} {traitName : Atom} {kind : MemberKind} {n : Atom}
    {member : MemberKind → Atom → Option Declared}
    (hmember : ∀ kind n d, member kind n = some d →
      memberKey kind d.member.name = memberKey kind n) {d : Declared}
    (h : ctx.brought traitName kind n member = some d) :
    memberKey kind d.member.name = memberKey kind n := by
  cases kind with
  | property => exact hmember _ _ d h
  | constant => exact hmember _ _ d h
  | method =>
      rw [TraitContext.brought, Option.or_eq_some_iff] at h
      rcases h with h | ⟨-, h⟩
      · by_cases hexcluded : ctx.excluded traitName n = true
        · simp [hexcluded] at h
        · rw [if_neg hexcluded] at h
          obtain ⟨d', hd', rfl⟩ := Option.map_eq_some_iff.mp h
          exact hmember _ _ d' hd'
      · obtain ⟨a, -, ha⟩ := List.exists_of_findSome?_eq_some h
        by_cases hadds : a.adds traitName n = true
        · rw [if_pos hadds] at ha
          obtain ⟨d', -, rfl⟩ := Option.map_eq_some_iff.mp ha
          rw [TraitAlias.adds, Bool.and_eq_true] at hadds
          obtain ⟨aliasName, halias, hname⟩ := (Option.any_eq_true _ _).mp hadds.1
          rw [TraitAlias.renamed, halias]
          exact of_decide_eq_true hname
        · simp [hadds] at ha

theorem name_plain_step (load : ClassLoader) (fuel : Nat) :
    (∀ traitNames ctx kind n d, plainOfTraits load fuel traitNames ctx kind n = some d →
      memberKey kind d.member.name = memberKey kind n) ∧
    (∀ current kind n d, plainOfTraitParents load fuel current kind n = some d →
      memberKey kind d.member.name = memberKey kind n) := by
  induction fuel with
  | zero =>
      constructor
      · intro traitNames ctx kind n d h
        rw [plainOfTraits] at h
        cases h
      · intro current kind n d h
        rw [plainOfTraitParents] at h
        cases h
  | succ fuel ih =>
      constructor
      · intro traitNames ctx kind n d h
        rw [plainOfTraits] at h
        obtain ⟨traitName, -, hname⟩ := List.exists_of_findSome?_eq_some h
        cases hload : load traitName with
        | none => simp [hload] at hname
        | some t =>
            simp only [hload] at hname
            refine name_brought ?_ hname
            intro kind n d hd
            rcases Option.or_eq_some_iff.mp hd with hown | ⟨-, hd⟩
            · exact name_own hown
            · rcases Option.or_eq_some_iff.mp hd with hnested | ⟨-, hchain⟩
              · exact ih.1 _ _ kind n d hnested
              · exact ih.2 _ kind n d hchain
      · intro current kind n d h
        rw [plainOfTraitParents] at h
        cases hparent : current.parentClass.bind (loadAncestor load current.fqn) with
        | none => simp [hparent] at h
        | some parent =>
            simp only [hparent] at h
            rcases eq_of_passedOn h with hown | htraits | habove
            · exact name_own hown
            · exact ih.1 _ _ kind n d htraits
            · exact ih.2 _ kind n d habove

/-! ### One trait, one parent, all of them -/

/-- The first member a plainly used trait brings. -/
theorem head?_brings {ctx : TraitContext} {traitName : Atom} {kind : MemberKind} {n : Atom}
    {inner : MemberKind → Atom → Prop} {member plain : MemberKind → Atom → Option Declared}
    (h : UsesPlainly ctx traitName kind n inner)
    (hsame : ∀ kind n, inner kind n → member kind n = plain kind n)
    (hplain : ∀ kind n d, plain kind n = some d →
      memberKey kind d.member.name = memberKey kind n) :
    (ctx.brings traitName kind n member).head? = ctx.brought traitName kind n plain := by
  cases kind with
  | method =>
      obtain ⟨hspelled, hinner, haliases⟩ := h
      unfold TraitContext.brings TraitContext.brought
      simp only [List.head?_append, Option.head?_toList, hspelled.excludesTrait,
        List.head?_filterMap]
      congr 1
      · by_cases hexcluded : ctx.excluded traitName n = true
        · rw [if_pos hexcluded, if_pos hexcluded]
        · rw [if_neg hexcluded, if_neg hexcluded, hsame _ _ (hinner (by simpa using hexcluded))]
          apply Option.map_congr
          intro d hd
          exact hspelled.withVisibility (hplain _ _ d hd)
      · apply Lib.findSome?_congr_of_mem
        intro a ha
        rw [hspelled.addsFrom ha]
        by_cases hadds : a.adds traitName n = true
        · rw [if_pos hadds, if_pos hadds, hsame _ _ (haliases a ha hadds)]
        · rw [if_neg hadds, if_neg hadds]
  | property =>
      unfold TraitContext.brings TraitContext.brought
      rw [Option.head?_toList]
      exact hsame _ _ h
  | constant =>
      unfold TraitContext.brings TraitContext.brought
      rw [Option.head?_toList]
      exact hsame _ _ h

/-- What a parent hands down is what it passes on. -/
theorem handsDown_eq {parent : ClassInfo} {kind : MemberKind} {n : Atom}
    {a b a' b' : Option Declared} {traits above : Prop}
    (h : HandsDownPlainly parent kind n a b traits above) (ha : traits → a = a')
    (hb : above → b = b') : parent.handsDown kind n a b = parent.passedOn kind n a' b' := by
  unfold HandsDownPlainly at h
  unfold ClassInfo.handsDown ClassInfo.passedOn
  cases hown : parent.own kind n with
  | none =>
      rw [hown] at h
      rw [Option.none_or]
      have hfilter : a.filter inheritable = a'.filter fun d => d.member.visibility ≠ .isPrivate := by
        rw [ha h.traits]
        rfl
      exact overInherited_of_plainly h hfilter hb
  | some d =>
      rw [hown] at h
      rw [Option.some_or]
      show (if inheritable d then some d else b) = ((some d).filter inheritable).or b'
      by_cases hvisible : inheritable d = true
      · simp [hvisible, Option.filter]
      · rw [Bool.not_eq_true] at hvisible
        simp [hvisible, Option.filter, hb (h hvisible)]

theorem plain_step (load : ClassLoader) (fuel : Nat) :
    (∀ traitNames ctx kind n, TraitsPlain load fuel traitNames ctx kind n →
      selectedOfTraits load fuel traitNames ctx kind n =
        plainOfTraits load fuel traitNames ctx kind n) ∧
    (∀ current kind n, TraitParentsPlain load fuel current kind n →
      selectedOfTraitParents load fuel current kind n =
        plainOfTraitParents load fuel current kind n) := by
  induction fuel with
  | zero =>
      constructor
      · intro traitNames ctx kind n _
        rw [selectedOfTraits, plainOfTraits]
      · intro current kind n _
        rw [selectedOfTraitParents, plainOfTraitParents]
  | succ fuel ih =>
      constructor
      · intro traitNames ctx kind n h
        rw [TraitsPlain] at h
        obtain ⟨hsettled, huses⟩ := h
        rw [selectedOfTraits, plainOfTraits]
        refine (firstMet_of_settled hsettled).trans ?_
        rw [broughtByTraits, List.head?_flatMap]
        apply findSome?_congr_of_before
        intro before traitName after hnames hbefore
        cases hload : load traitName with
        | none => rfl
        | some t =>
            have hnone : broughtByTraits load fuel before ctx kind n = [] := by
              rw [← List.head?_eq_none_iff, broughtByTraits, List.head?_flatMap]
              exact hbefore
            refine head?_brings (huses before traitName after hnames hnone t hload) ?_ ?_
            · intro kind n hinner
              rcases hinner with howns | hover
              · obtain ⟨d, hd⟩ := exists_own t howns
                rw [hd, Option.some_or, Option.some_or]
              · rw [overInherited_of_plainly hover (ih.1 _ _ kind n hover.traits) (ih.2 _ kind n)]
            · intro kind n d hd
              rcases Option.or_eq_some_iff.mp hd with hown | ⟨-, hd⟩
              · exact name_own hown
              · rcases Option.or_eq_some_iff.mp hd with hnested | ⟨-, hchain⟩
                · exact (name_plain_step load fuel).1 _ _ kind n d hnested
                · exact (name_plain_step load fuel).2 _ kind n d hchain
      · intro current kind n h
        rw [TraitParentsPlain] at h
        rw [selectedOfTraitParents, plainOfTraitParents]
        cases hparent : current.parentClass.bind (loadAncestor load current.fqn) with
        | none => rfl
        | some parent =>
            rw [hparent] at h
            exact handsDown_eq h (ih.1 _ _ kind n) (ih.2 _ kind n)

theorem selectedOfParents_plain (load : ClassLoader) (fuel : Nat) (current : ClassInfo)
    (kind : MemberKind) (n : Atom) (h : ParentsPlain load fuel current kind n) :
    selectedOfParents load fuel current kind n = plainOfParents load fuel current kind n := by
  induction fuel generalizing current with
  | zero => rfl
  | succ fuel ih =>
      rw [ParentsPlain] at h
      rw [selectedOfParents, plainOfParents]
      cases hparent : current.parentClass.bind (loadAncestor load current.fqn) with
      | none => rfl
      | some parent =>
          rw [hparent] at h
          exact handsDown_eq h ((plain_step load _).1 _ _ kind n) (ih parent)

theorem selectedMember_plain {load : ClassLoader} {c : ClassInfo} {kind : MemberKind} {n : Atom}
    (h : RulesPlainly load c kind n) :
    selectedMember load c kind n = plainMember load c kind n := by
  unfold selectedMember plainMember
  rcases h with howns | hover
  · obtain ⟨d, hd⟩ := exists_own c howns
    rw [hd, Option.some_or, Option.some_or]
  · rw [overInherited_of_plainly hover ((plain_step load _).1 _ _ kind n hover.traits)
      (selectedOfParents_plain load _ c kind n)]

/-! ## The whole merge -/

/-- Where PHP's rule is plain the merge selects what PHP does if the hierarchy
follows the order and, in a hierarchy that reaches no class twice and adapts no
method with `as`, only then. -/
theorem mergesSelected_iff_mergeFollows (load : ClassLoader) (c : ClassInfo) (kind : MemberKind)
    (n : Atom) (hplain : RulesPlainly load c kind n) :
    (mergeFollows load c kind n = true → MergesSelected load c kind n) ∧
      ((reached load c).Nodup → Unaliased kind (c :: reached load c) →
        (MergesSelected load c kind n ↔ mergeFollows load c kind n = true)) := by
  have hsame : MergesSelected load c kind n ↔ MergesPlain load c kind n := by
    rw [MergesSelected, MergesPlain, selectedMember_plain hplain]
  rw [hsame]
  exact mergesPlain_iff_mergeFollows load c kind n

section Examples

/-- The method every class below declares, if any. -/
def handle : Member := ⟨"handle", .isPublic, false⟩

def classNamed (name : Atom) (methods : List Member) (usedTraits : List Atom) : ClassInfo where
  fqn := name
  methods := methods
  properties := []
  constants := []
  parentClass := none
  interfaces := []
  usedTraits := usedTraits
  traitPrecedences := []
  traitAliases := []

/-- `Retries` uses `Queues`, and both declare `handle`. -/
def jobTraits : ClassLoader := fun name =>
  if name = "Queues" then some (classNamed "Queues" [handle] [])
  else if name = "Retries" then some (classNamed "Retries" [handle] ["Queues"])
  else if name = "Logs" then some (classNamed "Logs" [handle] [])
  else none

/-- `use Queues, Logs { Queues::handle insteadof Logs; }` -/
def queuedJob : ClassInfo :=
  { classNamed "Job" [] ["Queues", "Logs"] with
    traitPrecedences := [⟨"Queues", "handle", ["Logs"]⟩] }

theorem queuedJob_plainly : RulesPlainly jobTraits queuedJob .method "handle" := by
  refine Or.inr ⟨⟨?_, ?_⟩, ?_, ?_⟩
  · intro d rest hbrought hrequired
    have hone : broughtByTraits jobTraits maxTraitDepth queuedJob.usedTraits queuedJob.traitContext
        .method "handle" = [(classNamed "Queues" [handle] []).declared handle] := by decide
    obtain ⟨rfl, -⟩ := List.cons.inj (hone.symm.trans hbrought)
    cases hrequired
  · intro before traitName after hnames hbefore t hload
    cases before with
    | nil =>
        obtain ⟨rfl, -⟩ := List.cons.inj hnames
        obtain rfl := Option.some.inj hload
        refine ⟨⟨by decide, by decide⟩, fun _ => Or.inl (by decide), ?_⟩
        intro a ha
        cases ha
    | cons first rest =>
        obtain ⟨rfl, -⟩ := List.cons.inj hnames
        cases hbefore
  · intro hnone
    cases hnone
  · intro d hd hrequired
    obtain rfl := Option.some.inj hd
    cases hrequired

theorem mergesSelected_iff_mergeFollows_queuedJob :
    MergesSelected jobTraits queuedJob .method "handle" ∧
      (MergesSelected jobTraits queuedJob .method "handle" ↔
        mergeFollows jobTraits queuedJob .method "handle" = true) := by
  obtain ⟨henough, hexact⟩ :=
    mergesSelected_iff_mergeFollows jobTraits queuedJob .method "handle" queuedJob_plainly
  refine ⟨henough (by decide), hexact (by decide) ?_⟩
  intro _ t ht
  revert t
  decide

/-- `use Retries` -/
def retriedJob : ClassInfo := classNamed "Job" [] ["Retries"]

/-- PHP selects `handle` of `Retries`, the merge takes that of the trait it uses. -/
theorem not_mergesSelected_nested :
    selectedMember jobTraits retriedJob .method "handle" =
        some ((classNamed "Retries" [handle] ["Queues"]).declared handle) ∧
      (resolveClassWithInheritance jobTraits retriedJob).under .method "handle" =
        [(classNamed "Queues" [handle] []).declared handle] ∧
      ¬MergesSelected jobTraits retriedJob .method "handle" := by
  decide

end Examples

end PhpantomLsp.Members
