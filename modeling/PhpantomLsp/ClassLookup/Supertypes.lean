import Mathlib.Data.List.Chain
import PhpantomLsp.Lib.PreorderWalk
import PhpantomLsp.Members.Ancestry

/-!
# The supertypes of a class

`supertypes` walks up the parents and interfaces of a class, each class once however
its name is written, and down to a depth no hierarchy is meant to reach.  Where no path
up the hierarchy that repeats no class is that long, it lists exactly the classes an
instance of the class also is (`mem_supertypes`).
-/

namespace PhpantomLsp.ClassLookup

open Text (asciiLower eqIgnoreAsciiCase stripFqnPrefix)
open Members (maxInheritanceDepth)
open Lib.PreorderWalk (Walk Child Short gather preorder gather_preorder_zero nodup_preorder
  mem_keys_preorder reaches_of_mem)

inductive ClassLikeKind where
  | isClass
  | isInterface
  | isTrait
  | isEnum
  deriving DecidableEq

structure ClassInfo extends Members.ClassInfo where
  kind : ClassLikeKind
  deriving DecidableEq

/-- The names a class is declared to extend and implement. -/
def ClassInfo.clauses (cls : ClassInfo) : List Atom := cls.interfaces ++ cls.parentClass.toList

/-- The classes of a project, by fully-qualified names without a leading `\`. -/
structure ClassGraph where
  load : Atom → Option ClassInfo
  /-- Every name written in a clause. -/
  written : List Atom
  clauses_written : ∀ name cls, load name = some cls → ∀ up ∈ cls.clauses, up ∈ written
  anyCase : ∀ name name', asciiLower name = asciiLower name' → load name = load name'
  ownName : ∀ name cls, load name = some cls → asciiLower cls.fqn = asciiLower name
  noLeadingBackslash : ∀ name cls, load name = some cls → stripFqnPrefix cls.fqn = cls.fqn

/-- `class_loader(Fqn::new(name))` -/
def ClassGraph.loadFqn (g : ClassGraph) (name : Atom) : Option ClassInfo :=
  g.load (stripFqnPrefix name)

/-- What classes are told apart by. -/
def classKey (cls : ClassInfo) : Atom := asciiLower cls.fqn

/-! ## The walk -/

/-- The names of a class's clauses in the order they are followed: the first `extends` of
an interface is one of its contracts, the parent of a class comes after its interfaces. -/
def contracts (cls : ClassInfo) : List Atom :=
  if cls.kind = .isInterface then cls.parentClass.toList ++ cls.interfaces
  else cls.interfaces ++ cls.parentClass.toList

section

variable (g : ClassGraph)

/-- `collect_supertypes`, at `maxInheritanceDepth + 1 - fuel` levels up, with the classes
visited and those listed. -/
def collectSupertypes : (fuel : Nat) → (cls : ClassInfo) →
    List Atom × List (Atom × ClassInfo) → List Atom × List (Atom × ClassInfo)
  | 0, _, state => state
  | fuel + 1, cls, state =>
      (contracts cls).foldl
        (fun (visited, out) name =>
          match g.loadFqn name with
          | none => (visited, out)
          | some loaded =>
              if classKey loaded ∈ visited then (visited, out)
              else
                collectSupertypes fuel loaded (classKey loaded :: visited, out ++ [(name, loaded)]))
        state

def supertypes (cls : ClassInfo) : List (Atom × ClassInfo) :=
  (collectSupertypes g (maxInheritanceDepth + 1) cls ([classKey cls], [])).2

/-- One class is named in a clause of the other. -/
def Above (cls up : ClassInfo) : Prop := ∃ name ∈ cls.clauses, g.loadFqn name = some up

/-- No path up from a class that repeats no class is as long as the depth limit. -/
def ShortPaths (cls : ClassInfo) : Prop :=
  ∀ path : List ClassInfo, (cls :: path).IsChain (Above g) →
    ((cls :: path).map classKey).Nodup → path.length < maxInheritanceDepth

def supertypeWalk : Walk (Atom × ClassInfo) Atom where
  children entry := (contracts entry.2).filterMap fun name =>
    (g.loadFqn name).map fun loaded => (name, loaded)
  key entry := classKey entry.2

variable {g}

theorem mem_contracts {cls : ClassInfo} {name : Atom} :
    name ∈ contracts cls ↔ name ∈ cls.clauses := by
  unfold contracts ClassInfo.clauses
  split
  · rw [List.mem_append, List.mem_append, Or.comm]
  · rfl

theorem child_iff {entry up : Atom × ClassInfo} :
    Child (supertypeWalk g) entry up ↔ up.1 ∈ entry.2.clauses ∧ g.loadFqn up.1 = some up.2 := by
  unfold Child supertypeWalk
  rw [List.mem_filterMap]
  constructor
  · rintro ⟨name, hname, hup⟩
    obtain ⟨loaded, hloaded, rfl⟩ := Option.map_eq_some_iff.mp hup
    exact ⟨mem_contracts.mp hname, hloaded⟩
  · rintro ⟨hname, hup⟩
    exact ⟨up.1, mem_contracts.mpr hname, by rw [hup]; rfl⟩

/-- The loop over the clauses of a class collects what the walk lists of its children. -/
theorem collectSupertypes_eq (fuel : Nat) (cls : ClassInfo) (name : Atom)
    (state : List Atom × List (Atom × ClassInfo)) :
    collectSupertypes g fuel cls state =
      ((gather (preorder (supertypeWalk g) fuel) ((supertypeWalk g).children (name, cls)) state.1).2,
        state.2 ++
          (gather (preorder (supertypeWalk g) fuel) ((supertypeWalk g).children (name, cls))
            state.1).1) := by
  induction fuel generalizing cls name state with
  | zero =>
      rw [gather_preorder_zero, List.append_nil]
      rfl
  | succ fuel ih =>
      unfold collectSupertypes
      simp only [supertypeWalk]
      induction contracts cls generalizing state with
      | nil => simp [gather]
      | cons first rest ihrest =>
          rw [List.foldl_cons, ihrest]
          cases hload : g.loadFqn first with
          | none => rw [List.filterMap_cons_none (by rw [hload]; rfl)]
          | some loaded =>
              rw [List.filterMap_cons_some (by rw [hload]; rfl)]
              simp only [gather, preorder]
              by_cases hmem : classKey loaded ∈ state.1
              · rw [if_pos hmem, if_pos hmem]
                simp
              · rw [if_neg hmem, if_neg hmem, ih loaded first]
                simp [supertypeWalk]

/-- The supertypes are what the walk from the class lists after the class itself. -/
theorem supertypes_eq (cls : ClassInfo) :
    (preorder (supertypeWalk g) (maxInheritanceDepth + 2) (cls.fqn, cls) []).1 =
      (cls.fqn, cls) :: supertypes g cls := by
  unfold supertypes preorder
  rw [collectSupertypes_eq _ _ cls.fqn, if_neg List.not_mem_nil, List.nil_append]
  rfl

/-! ## What it lists -/

/-- A class and those above it, however far. -/
def Reaches (g : ClassGraph) : ClassInfo → ClassInfo → Prop := Relation.ReflTransGen (Above g)

/-- A class the graph loads by its own name. -/
def Declared (g : ClassGraph) (cls : ClassInfo) : Prop := g.load cls.fqn = some cls

theorem declared_of_load {name : Atom} {cls : ClassInfo} (h : g.load name = some cls) :
    Declared g cls := by
  unfold Declared
  rw [g.anyCase _ _ (g.ownName name cls h), h]

theorem Declared.eq {cls cls' : ClassInfo} (h : Declared g cls) (h' : Declared g cls')
    (hkey : classKey cls = classKey cls') : cls = cls' := by
  have hload : g.load cls.fqn = g.load cls'.fqn := g.anyCase _ _ hkey
  exact Option.some.inj (h.symm.trans (hload.trans h'))

theorem Declared.above {cls up : ClassInfo} (h : Above g cls up) : Declared g up := by
  obtain ⟨name, -, hload⟩ := h
  exact declared_of_load hload

theorem Declared.reaches {cls up : ClassInfo} (h : Declared g cls) (hreach : Reaches g cls up) :
    Declared g up := by
  induction hreach with
  | refl => exact h
  | tail _ hup _ => exact .above hup

theorem reaches_of_walk {entry up : Atom × ClassInfo}
    (h : Relation.ReflTransGen (Child (supertypeWalk g)) entry up) :
    Reaches g entry.2 up.2 := by
  induction h with
  | refl => exact .refl
  | tail _ hup ih =>
      obtain ⟨hname, hload⟩ := child_iff.mp hup
      exact .tail ih ⟨_, hname, hload⟩

theorem walk_of_reaches {cls up : ClassInfo} (name : Atom) (h : Reaches g cls up) :
    ∃ name', Relation.ReflTransGen (Child (supertypeWalk g)) (name, cls) (name', up) := by
  induction h with
  | refl => exact ⟨name, .refl⟩
  | tail _ hup ih =>
      obtain ⟨name', hwalk⟩ := ih
      obtain ⟨upName, hname, hload⟩ := hup
      exact ⟨upName, .tail hwalk (child_iff.mpr ⟨hname, hload⟩)⟩

theorem short_of_shortPaths {cls : ClassInfo} (name : Atom) (h : ShortPaths g cls) :
    Short (supertypeWalk g) (maxInheritanceDepth + 2) [] (name, cls) := by
  intro path hchain hnodup
  have hlt := h (path.map (·.2)) ?_ ?_
  · rw [List.length_map] at hlt
    omega
  · refine List.isChain_cons_map_of_isChain_cons (·.2) (fun entry up hup => ?_) hchain
    obtain ⟨hname, hload⟩ := child_iff.mp hup
    exact ⟨_, hname, hload⟩
  · simpa [supertypeWalk, Function.comp_def] using hnodup

variable {cls : ClassInfo}

theorem nodup_supertypes :
    ((cls :: (supertypes g cls).map (·.2)).map classKey).Nodup := by
  have h := nodup_preorder (w := supertypeWalk g) (maxInheritanceDepth + 2) (cls.fqn, cls)
  rw [supertypes_eq] at h
  simpa [supertypeWalk, Function.comp_def] using h

theorem reaches_of_supertype {entry : Atom × ClassInfo} (h : entry ∈ supertypes g cls) :
    Reaches g cls entry.2 := by
  have hmem : entry ∈ (preorder (supertypeWalk g) (maxInheritanceDepth + 2)
      (cls.fqn, cls) []).1 := by
    rw [supertypes_eq]
    exact List.mem_cons_of_mem _ h
  exact reaches_of_walk (reaches_of_mem hmem)

/-- The walk lists a class exactly where it is another class above the first. -/
theorem mem_supertypes (hcls : Declared g cls) (hshort : ShortPaths g cls) {up : ClassInfo} :
    up ∈ (supertypes g cls).map (·.2) ↔ up ≠ cls ∧ Reaches g cls up := by
  constructor
  · intro hup
    refine ⟨?_, ?_⟩
    · rintro rfl
      have hnew := (List.nodup_cons.mp (@nodup_supertypes g up)).1
      exact hnew (List.mem_map_of_mem hup)
    · obtain ⟨entry, hentry, rfl⟩ := List.mem_map.mp hup
      exact reaches_of_supertype hentry
  · rintro ⟨hne, hreach⟩
    obtain ⟨name, hwalk⟩ := walk_of_reaches cls.fqn hreach
    have hchildren : ∀ a b,
        Relation.ReflTransGen (Child (supertypeWalk g)) (cls.fqn, cls) a →
        Relation.ReflTransGen (Child (supertypeWalk g)) (cls.fqn, cls) b →
        (supertypeWalk g).key a = (supertypeWalk g).key b →
        (supertypeWalk g).children a = (supertypeWalk g).children b := by
      intro a b ha hb heq
      have hsame : a.2 = b.2 :=
        (hcls.reaches (reaches_of_walk ha)).eq (hcls.reaches (reaches_of_walk hb)) heq
      simp only [supertypeWalk, hsame]
    have hkey : (supertypeWalk g).key (name, up) ∈
        (preorder (supertypeWalk g) (maxInheritanceDepth + 2) (cls.fqn, cls) []).1.map
          (supertypeWalk g).key :=
      mem_keys_preorder hchildren (short_of_shortPaths _ hshort) hwalk
    rw [supertypes_eq, List.map_cons, List.mem_cons] at hkey
    have hup := hcls.reaches hreach
    rcases hkey with hkey | hkey
    · exact absurd (hup.eq hcls hkey) hne
    · obtain ⟨entry, hentry, heq⟩ := List.mem_map.mp hkey
      have hlisted : Declared g entry.2 := hcls.reaches (reaches_of_supertype hentry)
      exact List.mem_map.mpr ⟨entry, hentry, hlisted.eq hup heq⟩

end

end PhpantomLsp.ClassLookup
