import PhpantomLsp.PhpType.Substitute

/-!
# Binding template parameters

The substitution a list of type arguments gives for the `@template` parameters of a
class: from a written type (`build_generic_subs`), from an `@extends`, `@implements`
or `@use` entry (`bind_template_args`), and from defaults and bounds for what is left
(`fill_template_bounds`).
-/

namespace PhpantomLsp.Inheritance

open Text PhpType

/-- What the type arguments of a class and of its ancestors are read from. -/
structure ClassInfo where
  fqn : Atom
  parentClass : Option Atom
  interfaces : List Atom
  templateParams : List Atom
  templateParamBounds : List (Atom × PhpType)
  templateParamDefaults : List (Atom × PhpType)
  extendsGenerics : List (Atom × List PhpType)
  implementsGenerics : List (Atom × List PhpType)
  deriving DecidableEq

/-- The declared default, else the bound, else `mixed`. -/
def defaultTypeArg (cls : ClassInfo) (param : Atom) : PhpType :=
  ((cls.templateParamDefaults.lookup param).or (cls.templateParamBounds.lookup param)).getD
    PhpType.mixed

/-! ## Which parameter an argument is for -/

def isKeyLikeBound (bound : PhpType) : Bool :=
  match bound.kind with
  | .named _ => bound.isArrayKey || bound.isInt || bound.isStringType
  | .union members => !members.isEmpty && members.all fun m => m.isInt || m.isStringType
  | _ => false

/-- How many leading parameters a short list of arguments skips. -/
def rightAlignOffset (params : List Atom) (bounds : List (Atom × PhpType)) (numArgs : Nat) : Nat :=
  if params.length ≤ numArgs then 0
  else
    let skip := params.length - numArgs
    if (params.take skip).all fun param => (bounds.lookup param).any isKeyLikeBound then skip else 0

/-- `generic_arg_offset`: the core iterables name their value first. -/
def genericArgOffset (cls : ClassInfo) (numArgs : Nat) : Nat :=
  if numArgs = 1 ∧ 1 < cls.templateParams.length ∧
      cls.fqn ∈ ["Traversable", "Iterator", "IteratorAggregate", "Generator"] then 1
  else rightAlignOffset cls.templateParams cls.templateParamBounds numArgs

/-- The position of the argument the parameter at `index` receives. -/
def argIndex (offset index : Nat) : Option Nat :=
  if offset ≤ index then some (index - offset) else none

def argAt (offset index : Nat) (args : List PhpType) : Option PhpType :=
  (argIndex offset index).bind (args[·]?)

/-- The parameters that receive an argument, bound to it. -/
def explicitSubs (params : List Atom) (offset : Nat) (args : List PhpType) : Substitution :=
  params.zipIdx.foldl
    (fun subs (param, index) =>
      match argAt offset index args with
      | some arg => subs.insert param arg
      | none => subs)
    []

/-- The parameters that receive none and pass a test of their position and name. -/
def omittedParams (params : List Atom) (offset : Nat) (args : List PhpType)
    (falls : Nat → Atom → Bool) : List Atom :=
  params.zipIdx.filterMap fun (param, index) =>
    if (argAt offset index args).isNone && falls index param then some param else none

section

variable [DedupHasher]

/-- Bind each omitted parameter to its default, read through `subs` as it stood before
any of them was bound. -/
def insertFallbacks (cls : ClassInfo) (omitted : List Atom) (subs : Substitution) : Substitution :=
  omitted.foldl
    (fun bound param => bound.insert param ((defaultTypeArg cls param).substitute subs)) subs

/-! ## The three sources of a substitution -/

def buildGenericSubs (cls : ClassInfo) (typeArgs : List PhpType) : Substitution :=
  if cls.templateParams.isEmpty || typeArgs.isEmpty then []
  else
    let offset := genericArgOffset cls typeArgs.length
    insertFallbacks cls (omittedParams cls.templateParams offset typeArgs fun _ _ => true)
      (explicitSubs cls.templateParams offset typeArgs)

/-- Whether a parameter that receives no argument of an entry falls back at once: a
skipped leading one, or one with a declared default. -/
def fallsBack (cls : ClassInfo) (offset index : Nat) (param : Atom) : Bool :=
  index < offset || (cls.templateParamDefaults.lookup param).isSome

/-- The entry of a clause that names a class. -/
def genericsEntry (fqn : Atom) (generics : List (Atom × List PhpType)) : Option (List PhpType) :=
  (generics.find? fun (name, _) => eqIgnoreAsciiCase (stripFqnPrefix name) fqn).map (·.2)

def bindTemplateArgs (parent : ClassInfo) (generics : List (Atom × List PhpType))
    (activeSubs : Substitution) : Option Substitution :=
  if parent.templateParams.isEmpty then none
  else
    (genericsEntry parent.fqn generics).map fun typeArgs =>
      let resolved := typeArgs.map (substitute activeSubs)
      let offset := genericArgOffset parent typeArgs.length
      insertFallbacks parent
        (omittedParams parent.templateParams offset resolved (fallsBack parent offset))
        (explicitSubs parent.templateParams offset resolved)

def buildSubstitutionMap (current parent : ClassInfo) (activeSubs : Substitution) : Substitution :=
  (bindTemplateArgs parent (current.extendsGenerics ++ current.implementsGenerics) activeSubs).getD
    activeSubs

/-- The step of `fill_template_bounds` for one parameter. -/
def fillTemplateBound (source : ClassInfo) (subs : Substitution) (param : Atom) : Substitution :=
  if subs.containsKey param then subs
  else subs.insert param ((defaultTypeArg source param).substitute subs)

def fillTemplateBounds (source : ClassInfo) (subs : Substitution) : Substitution :=
  source.templateParams.foldl (fillTemplateBound source) subs

end

end PhpantomLsp.Inheritance
