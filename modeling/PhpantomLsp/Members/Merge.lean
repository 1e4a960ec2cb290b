import PhpantomLsp.PhpType.Basic
import PhpantomLsp.Text.Ascii

/-!
# Merging inherited members

The members of a class are its own, then those its traits bring, then those of
each parent up the `extends` chain.  The first member of a name wins: every
later one of that name, whatever brings it, is passed over.

Names are resolved by a loader.  A member carries its name and visibility, and
whether it is abstract, which the merge does not ask; its types, and what
docblocks of ancestors add to them, do not bear on which member is merged and are
left out.  With a merged member stays the declaration it was
copied from and the class that declares it.
-/

namespace PhpantomLsp.Members

open PhpantomLsp.Text (asciiLower eqIgnoreAsciiCase)

def maxInheritanceDepth : Nat := 20

def maxTraitDepth : Nat := 20

inductive Visibility where
  | isPublic
  | isProtected
  | isPrivate
  deriving DecidableEq

/-- A method, a property or a constant; a method without a body is abstract. -/
structure Member where
  name : Atom
  visibility : Visibility
  isAbstract : Bool
  deriving DecidableEq

inductive MemberKind where
  | method
  | property
  | constant
  deriving DecidableEq

/-- `T::m insteadof U, V` -/
structure TraitPrecedence where
  traitName : Atom
  methodName : Atom
  insteadof : List Atom
  deriving DecidableEq

/-- `T::m as protected n` -/
structure TraitAlias where
  traitName : Option Atom
  methodName : Atom
  aliasName : Option Atom
  visibility : Option Visibility
  deriving DecidableEq

structure ClassInfo where
  fqn : Atom
  methods : List Member
  properties : List Member
  constants : List Member
  parentClass : Option Atom
  interfaces : List Atom
  usedTraits : List Atom
  traitPrecedences : List TraitPrecedence
  traitAliases : List TraitAlias
  deriving DecidableEq

def ClassInfo.members (c : ClassInfo) : MemberKind → List Member
  | .method => c.methods
  | .property => c.properties
  | .constant => c.constants

/-- What members of a kind are told apart by: method names are
case-insensitive. -/
def memberKey (kind : MemberKind) (name : Atom) : Atom :=
  match kind with
  | .method => asciiLower name
  | _ => name

/-- The class a name is resolved to. -/
abbrev ClassLoader := Atom → Option ClassInfo

/-- `load_ancestor`: a class that is its own ancestor has none. -/
def loadAncestor (load : ClassLoader) (classFqn ancestorName : Atom) : Option ClassInfo :=
  (load ancestorName).filter fun c => !eqIgnoreAsciiCase c.fqn classFqn

/-! ## Merged members -/

/-- A merged member, and the declaration it was copied from. -/
structure Declared where
  member : Member
  declaration : Member
  declaredIn : ClassInfo
  deriving DecidableEq

/-- A member as a class declares it. -/
def ClassInfo.declared (c : ClassInfo) (member : Member) : Declared := ⟨member, member, c⟩

/-- The merged members of one kind, and the names taken. -/
structure Table where
  entries : List Declared
  seen : List Atom

def Table.insert (t : Table) (key : Atom) (d : Declared) : Table :=
  if key ∈ t.seen then t else ⟨t.entries ++ [d], key :: t.seen⟩

structure Merging where
  methods : Table
  properties : Table
  constants : Table

namespace Merging

def table (s : Merging) : MemberKind → Table
  | .method => s.methods
  | .property => s.properties
  | .constant => s.constants

def add (s : Merging) (kind : MemberKind) (d : Declared) : Merging :=
  match kind with
  | .method => { s with methods := s.methods.insert (memberKey .method d.member.name) d }
  | .property => { s with properties := s.properties.insert (memberKey .property d.member.name) d }
  | .constant => { s with constants := s.constants.insert (memberKey .constant d.member.name) d }

/-- A class alone, with the names `MergeDedup::from_class` takes. -/
def ofClass (c : ClassInfo) : Merging :=
  let own := fun kind =>
    (⟨(c.members kind).map c.declared, (c.members kind).map fun m => memberKey kind m.name⟩ : Table)
  ⟨own .method, own .property, own .constant⟩

/-- `merge_visible_members` of one kind. -/
def addVisible (s : Merging) (source : ClassInfo) (kind : MemberKind) : Merging :=
  (source.members kind).foldl
    (fun s m => if m.visibility = .isPrivate then s else s.add kind (source.declared m)) s

def mergeVisibleMembers (s : Merging) (source : ClassInfo) : Merging :=
  ((s.addVisible source .method).addVisible source .property).addVisible source .constant

end Merging

/-! ## Traits -/

/-- The adaptations the traits of a class are used with. -/
structure TraitContext where
  precedences : List TraitPrecedence
  aliases : List TraitAlias

def ClassInfo.traitContext (c : ClassInfo) : TraitContext := ⟨c.traitPrecedences, c.traitAliases⟩

namespace TraitContext

/-- Another trait's method is used instead of this one's. -/
def excluded (ctx : TraitContext) (traitName method : Atom) : Bool :=
  ctx.precedences.any fun p =>
    eqIgnoreAsciiCase p.methodName method && p.insteadof.contains traitName

/-- The visibility the last adaptation without a new name gives a method. -/
def visibilityChange (ctx : TraitContext) (traitName method : Atom) : Option Visibility :=
  ((ctx.aliases.filter fun a =>
    eqIgnoreAsciiCase a.methodName method && a.aliasName.isNone &&
      a.traitName.all (· == traitName)).filterMap TraitAlias.visibility).getLast?

/-- A method as it is imported from the trait that declares it. -/
def imported (ctx : TraitContext) (traitName : Atom) (t : ClassInfo) (m : Member) : Declared :=
  ⟨{ m with visibility := (ctx.visibilityChange traitName m.name).getD m.visibility }, m, t⟩

end TraitContext

/-- The method an adaptation adds under a new name. -/
def TraitAlias.aliased (a : TraitAlias) (traitName : Atom) (t : ClassInfo) : Option Declared :=
  match a.aliasName with
  | none => none
  | some aliasName =>
      if a.traitName.all (· == traitName) then
        (t.methods.find? fun m => eqIgnoreAsciiCase m.name a.methodName).map fun m =>
          ⟨{ m with name := aliasName, visibility := a.visibility.getD m.visibility }, m, t⟩
      else none

/-- A trait's own members, under the adaptations it is used with. -/
def mergeTraitMembers (traitName : Atom) (t : ClassInfo) (ctx : TraitContext) (s : Merging) :
    Merging :=
  let s := t.methods.foldl
    (fun s m =>
      if ctx.excluded traitName m.name then s else s.add .method (ctx.imported traitName t m)) s
  let s := t.properties.foldl (fun s m => s.add .property (t.declared m)) s
  let s := t.constants.foldl (fun s m => s.add .constant (t.declared m)) s
  ctx.aliases.foldl
    (fun s a =>
      match a.aliased traitName t with
      | none => s
      | some d => s.add .method d) s

mutual

/-- `merge_traits_into`, at `maxTraitDepth + 1 - fuel` levels down. -/
def mergeTraitsInto (load : ClassLoader) :
    (fuel : Nat) → (traitNames : List Atom) → TraitContext → Merging → Merging
  | 0, _, _, s => s
  | fuel + 1, traitNames, ctx, s =>
      traitNames.foldl
        (fun s traitName =>
          match load traitName with
          | none => s
          | some t =>
              let s := mergeTraitsInto load fuel t.usedTraits t.traitContext s
              mergeTraitMembers traitName t ctx (mergeTraitParents load fuel t s)) s

/-- What a trait extends: an interface that stands for a trait may. -/
def mergeTraitParents (load : ClassLoader) : (fuel : Nat) → (current : ClassInfo) → Merging → Merging
  | 0, _, s => s
  | fuel + 1, current, s =>
      match current.parentClass.bind (loadAncestor load current.fqn) with
      | none => s
      | some parent =>
          let s := mergeTraitsInto load fuel parent.usedTraits parent.traitContext s
          mergeTraitParents load fuel parent (s.mergeVisibleMembers parent)

end

/-- All traits a class uses. -/
def mergeTraits (load : ClassLoader) (c : ClassInfo) (s : Merging) : Merging :=
  mergeTraitsInto load (maxTraitDepth + 1) c.usedTraits c.traitContext s

/-! ## Parents -/

def mergeParentMembers (load : ClassLoader) (parent : ClassInfo) (s : Merging) : Merging :=
  (mergeTraits load parent s).mergeVisibleMembers parent

def mergeParentChain (load : ClassLoader) : (fuel : Nat) → (current : ClassInfo) → Merging → Merging
  | 0, _, s => s
  | fuel + 1, current, s =>
      match current.parentClass.bind (loadAncestor load current.fqn) with
      | none => s
      | some parent => mergeParentChain load fuel parent (mergeParentMembers load parent s)

def resolveClassWithInheritance (load : ClassLoader) (c : ClassInfo) : Merging :=
  mergeParentChain load maxInheritanceDepth c (mergeTraits load c (.ofClass c))

end PhpantomLsp.Members
