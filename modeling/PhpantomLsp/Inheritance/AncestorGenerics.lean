import Mathlib.Data.List.DropRight
import Mathlib.Logic.Relation
import PhpantomLsp.Inheritance.Generics
import PhpantomLsp.Lib.BoundedSearch

/-!
# The arguments of a generic ancestor

`extract_generic_args_from_ancestor` searches the parents and interfaces of a class for
a clause that names the ancestor, and threads the type arguments of each level into the
next.  The bound on the search counts every class visited, not the levels above the
class, so it asks the first sixteen classes of a depth-first walk and no more.
-/

namespace PhpantomLsp.Inheritance

open Text PhpType
open Lib

/-- The class a fully-qualified name without a leading `\` is resolved to. -/
abbrev ClassLoader := Atom → Option ClassInfo

/-! ## Names -/

def trimStartBackslashes (name : String) : String :=
  String.ofList (name.toList.dropWhile (· == '\\'))

def shortName (name : String) : String := String.ofList (name.toList.rtakeWhile (· != '\\'))

/-- `generic_wrapper_matches`: a qualified target has to match exactly, a short one
matches in any namespace. -/
def genericWrapperMatches (name target : String) : Bool :=
  if '\\' ∈ target.toList then
    eqIgnoreAsciiCase (trimStartBackslashes name) (trimStartBackslashes target)
  else eqIgnoreAsciiCase (shortName name) target

/-! ## The search -/

/-- The arguments of the clause of a class that names `target`. -/
def findExtendsGenericArgs (cls : ClassInfo) (target : String) : Option (List PhpType) :=
  ((cls.extendsGenerics ++ cls.implementsGenerics).find? fun (name, _) =>
    genericWrapperMatches name target).map (·.2)

/-- `MAX_ANCESTOR_GENERIC_DEPTH` -/
def maxAncestorGenericDepth : Nat := 15

section

variable [DedupHasher]

/-- The arguments of a clause, read through what the parameters of its class stand for. -/
def substituteArgs (subs : Substitution) (args : List PhpType) : List PhpType :=
  if subs.isEmpty then args else args.map (substitute subs)

variable (load : ClassLoader) (target : String)

/-- `ancestor_generic_args`, `fuel` levels down; it never goes deeper than the number of
classes it may visit. -/
def ancestorGenericArgs : (fuel : Nat) → (cls : ClassInfo) → (subs : Substitution) →
    (visited : List Atom) → Option (List PhpType) × List Atom
  | 0, _, _, visited => (none, visited)
  | fuel + 1, cls, subs, visited =>
      if maxAncestorGenericDepth < visited.length then (none, visited)
      else if cls.fqn ∈ visited then (none, visited)
      else
        match findExtendsGenericArgs cls target with
        | some args => (some (substituteArgs subs args), cls.fqn :: visited)
        | none =>
            BoundedSearch.firstAnswer
              (fun ancestorName visited =>
                match load (stripFqnPrefix ancestorName) with
                | none => (none, visited)
                | some ancestor =>
                    ancestorGenericArgs fuel ancestor (buildSubstitutionMap cls ancestor subs)
                      visited)
              (cls.parentClass.toList ++ cls.interfaces) (cls.fqn :: visited)

/-- `extract_generic_args_from_ancestor` -/
def extractGenericArgsFromAncestor (argType : PhpType) : Option (List PhpType) :=
  match argType.kind with
  | .named className =>
      (load (stripFqnPrefix className)).bind fun cls =>
        (ancestorGenericArgs load target (maxAncestorGenericDepth + 2) cls [] []).1
  | .generic className args =>
      if genericWrapperMatches className target then some args
      else
        (load (stripFqnPrefix className)).bind fun cls =>
          (ancestorGenericArgs load target (maxAncestorGenericDepth + 2) cls
            (buildGenericSubs cls args) []).1
  | _ => none

/-! ## Levels -/

/-- A class of the hierarchy, with what its template parameters stand for as seen from
the class the search started at. -/
structure Level where
  cls : ClassInfo
  subs : Substitution
  deriving DecidableEq

/-- The parent and the interfaces of a level, with its arguments threaded into them. -/
def nextLevels (level : Level) : List Level :=
  (level.cls.parentClass.toList ++ level.cls.interfaces).filterMap fun name =>
    (load (stripFqnPrefix name)).map fun ancestor =>
      ⟨ancestor, buildSubstitutionMap level.cls ancestor level.subs⟩

/-- The arguments a level hands the ancestor. -/
def argsForTarget (level : Level) : Option (List PhpType) :=
  (findExtendsGenericArgs level.cls target).map (substituteArgs level.subs)

/-- One level is reached from another along a chain of parents and interfaces. -/
def LeadsTo : Level → Level → Prop :=
  Relation.ReflTransGen fun below above => above ∈ nextLevels load below

def levelSearch : BoundedSearch.Problem Level Atom (List PhpType) where
  children := nextLevels load
  key level := level.cls.fqn
  answer := argsForTarget target

/-- The levels above a level in the order of a depth-first walk without a bound, each
class once, the parent of a class before its interfaces. -/
def depthFirst (fuel : Nat) (root : Level) : List Level :=
  (PreorderWalk.preorder (levelSearch load target).toWalk fuel root []).1

/-- What the search for a type starts at: the class it names, with the type's own
arguments. -/
def startLevel (argType : PhpType) : Option Level :=
  match argType.kind with
  | .named className => (load (stripFqnPrefix className)).map fun cls => ⟨cls, []⟩
  | .generic className args =>
      if genericWrapperMatches className target then none
      else (load (stripFqnPrefix className)).map fun cls => ⟨cls, buildGenericSubs cls args⟩
  | _ => none

variable {load target}

theorem ancestorGenericArgs_eq_search (fuel : Nat) (level : Level) (visited : List Atom) :
    ancestorGenericArgs load target fuel level.cls level.subs visited =
      BoundedSearch.search (levelSearch load target) (maxAncestorGenericDepth + 1) fuel level
        visited := by
  induction fuel generalizing level visited with
  | zero => rfl
  | succ fuel ih =>
      unfold ancestorGenericArgs BoundedSearch.search
      by_cases hlimit : maxAncestorGenericDepth < visited.length
      · rw [if_pos hlimit]
        exact (if_pos (Or.inl hlimit)).symm
      · by_cases hmem : level.cls.fqn ∈ visited
        · rw [if_neg hlimit, if_pos hmem]
          exact (if_pos (Or.inr hmem)).symm
        · rw [if_neg hlimit, if_neg hmem]
          refine Eq.trans ?_ (if_neg (not_or.mpr ⟨hlimit, hmem⟩)).symm
          simp only [levelSearch, argsForTarget]
          cases findExtendsGenericArgs level.cls target with
          | some args => rfl
          | none =>
              simp only [Option.map_none, nextLevels]
              rw [← BoundedSearch.firstAnswer_filterMap]
              congr 1
              funext name visited
              cases load (stripFqnPrefix name) with
              | none => rfl
              | some ancestor => exact ih ⟨ancestor, _⟩ visited

/-- The search of a type is the search of the level it starts at. -/
theorem extract_eq_search {argType : PhpType} {root : Level}
    (h : startLevel load target argType = some root) :
    extractGenericArgsFromAncestor load target argType =
      (BoundedSearch.search (levelSearch load target) (maxAncestorGenericDepth + 1)
        (maxAncestorGenericDepth + 2) root []).1 := by
  unfold startLevel at h
  unfold extractGenericArgsFromAncestor
  split at h
  · rename_i className heq
    obtain ⟨cls, hcls, rfl⟩ := Option.map_eq_some_iff.mp h
    rw [hcls, Option.bind_some]
    exact congrArg Prod.fst (ancestorGenericArgs_eq_search _ ⟨cls, []⟩ [])
  · rename_i className args heq
    split_ifs at h with hdirect
    obtain ⟨cls, hcls, rfl⟩ := Option.map_eq_some_iff.mp h
    rw [if_neg hdirect, hcls, Option.bind_some]
    exact congrArg Prod.fst (ancestorGenericArgs_eq_search _ ⟨cls, _⟩ [])
  · cases h

/-! ## When the arguments are found -/

/-- The walk comes to a level with a clause for the target among the first sixteen, and
the first such level hands it these arguments. -/
def FoundInTime (load : ClassLoader) (target : String) (fuel : Nat) (root : Level)
    (args : List PhpType) : Prop :=
  ∃ before found after, depthFirst load target fuel root = before ++ found :: after ∧
    before.length ≤ maxAncestorGenericDepth ∧
    (∀ level ∈ before, findExtendsGenericArgs level.cls target = none) ∧
    argsForTarget target found = some args

/-- What is found is composed along a chain of clauses. -/
theorem FoundInTime.chain {fuel : Nat} {root : Level} {args : List PhpType}
    (h : FoundInTime load target fuel root args) :
    ∃ last, LeadsTo load root last ∧ argsForTarget target last = some args := by
  obtain ⟨before, found, after, hwalk, -, -, hargs⟩ := h
  have hmem : found ∈ depthFirst load target fuel root := by
    rw [hwalk]
    simp
  exact ⟨found, PreorderWalk.reaches_of_mem hmem, hargs⟩

/-- Arguments are the answer exactly when the walk finds them in time, and then a
chain of clauses composes them. -/
theorem extract_eq_some_iff {argType : PhpType} {root : Level} {args : List PhpType}
    (hstart : startLevel load target argType = some root) {fuel : Nat}
    (hfuel : maxAncestorGenericDepth < fuel) :
    (extractGenericArgsFromAncestor load target argType = some args ↔
      FoundInTime load target fuel root args) ∧
    (FoundInTime load target fuel root args →
      ∃ last, LeadsTo load root last ∧ argsForTarget target last = some args) := by
  refine ⟨?_, FoundInTime.chain⟩
  rw [extract_eq_search hstart, BoundedSearch.search_eq_some_iff (show _ ≤ fuel from hfuel)]
  unfold FoundInTime depthFirst
  simp only [Nat.lt_succ_iff, levelSearch, argsForTarget, Option.map_eq_none_iff]

end

/-! ## A wide class -/

/-- A class with a generic interface after `markers` that have no clause:
`class C implements … J<Foo>` and `interface J<T> extends Target<T>`. -/
def hierarchyBehind (markers : List Atom) : ClassLoader := fun name =>
  if name = "C" then
    some ⟨"C", none, markers ++ ["J"], [], [], [], [], [("J", [.named "Foo"])]⟩
  else if name = "J" then
    some ⟨"J", none, ["Target"], ["T"], [], [], [("Target", [.named "T"])], []⟩
  else if name ∈ markers then some ⟨name, none, [], [], [], [], [], []⟩
  else none

theorem extract_eq_some_iff_oneMarker :
    @extractGenericArgsFromAncestor constantHasher (hierarchyBehind ["I"]) "Target"
      (.named "C") = some [.named "Foo"] := by
  let root : Level := ⟨⟨"C", none, ["I", "J"], [], [], [], [], [("J", [.named "Foo"])]⟩, []⟩
  let marker : Level := ⟨⟨"I", none, [], [], [], [], [], []⟩, []⟩
  let last : Level :=
    ⟨⟨"J", none, ["Target"], ["T"], [], [], [("Target", [.named "T"])], []⟩,
      [("T", .named "Foo")]⟩
  have hargs : @argsForTarget constantHasher "Target" last = some [.named "Foo"] := by
    decide +kernel
  refine (@extract_eq_some_iff constantHasher (hierarchyBehind ["I"]) "Target" (.named "C") root
    [.named "Foo"] (by decide +kernel) 16 (by decide)).1.mpr
      ⟨[root, marker], last, [], by decide +kernel, by decide, ?_, hargs⟩
  decide +kernel

/-- Fifteen interfaces without a clause. -/
def fifteenMarkers : List Atom :=
  ["1", "2", "3", "4", "5", "6", "7", "8", "9", "10", "11", "12", "13", "14", "15"]

/-- Behind fifteen others the interface is the seventeenth class the walk comes to, one
level up. -/
theorem extract_eq_none_fifteenMarkers :
    (∃ rank : Atom → Nat, ∀ name cls, hierarchyBehind fifteenMarkers name = some cls →
      ∀ ancestor ∈ cls.parentClass.toList ++ cls.interfaces, rank ancestor < rank name) ∧
    (∃ root last,
      @startLevel constantHasher (hierarchyBehind fifteenMarkers) "Target" (.named "C") =
        some root ∧
      last ∈ @nextLevels constantHasher (hierarchyBehind fifteenMarkers) root ∧
      @argsForTarget constantHasher "Target" last = some [.named "Foo"]) ∧
    @extractGenericArgsFromAncestor constantHasher (hierarchyBehind fifteenMarkers) "Target"
      (.named "C") = none := by
  refine ⟨⟨fun name =>
      if name = "C" then 2 else if name = "J" ∨ name ∈ fifteenMarkers then 1 else 0, ?_⟩,
    ⟨⟨⟨"C", none, fifteenMarkers ++ ["J"], [], [], [], [], [("J", [.named "Foo"])]⟩, []⟩,
      ⟨⟨"J", none, ["Target"], ["T"], [], [], [("Target", [.named "T"])], []⟩,
        [("T", .named "Foo")]⟩, by decide +kernel, by decide +kernel, by decide +kernel⟩,
    by decide +kernel⟩
  intro name cls hcls ancestor hancestor
  unfold hierarchyBehind at hcls
  split_ifs at hcls with hC hJ hmarker
  · cases hcls
    have hdecided : ∀ up ∈ fifteenMarkers ++ ["J"],
        (if up = "C" then 2 else if up = "J" ∨ up ∈ fifteenMarkers then 1 else 0) < 2 := by
      decide +kernel
    dsimp only
    rw [if_pos hC]
    exact hdecided ancestor hancestor
  · cases hcls
    obtain rfl := List.mem_singleton.mp hancestor
    dsimp only
    rw [if_neg hC, if_pos (Or.inl hJ)]
    decide +kernel
  · cases hcls
    exact absurd hancestor List.not_mem_nil

end PhpantomLsp.Inheritance
