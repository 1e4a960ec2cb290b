import PhpantomLsp.Lib.DepthFirst
import PhpantomLsp.Lib.Table
import PhpantomLsp.PhpType.Basic

/-!
# The order classes are populated in

Class-like declarations are sorted so that a class comes after the classes it
depends on: its parent, its traits and interfaces, the classes its generic
clauses name, and its mixins.  The sort is a depth-first search, started from
each name in turn in the order of the names, so that the order the classes are
handed over in does not show, a class declared twice with other dependencies
aside: of such declarations the one listed last is kept.
-/

namespace PhpantomLsp.Toposort

open Lib

/-- What the sort reads of a class. -/
structure ClassInfo where
  parentClass : Option Atom
  usedTraits : List Atom
  interfaces : List Atom
  extendsGenerics : List (Atom × List PhpType)
  implementsGenerics : List (Atom × List PhpType)
  useGenerics : List (Atom × List PhpType)
  mixins : List Atom

/-- `class_dependencies`. -/
def classDependencies (c : ClassInfo) : List Atom :=
  c.parentClass.toList ++ c.usedTraits ++ c.interfaces ++ c.extendsGenerics.map Prod.fst ++
    c.implementsGenerics.map Prod.fst ++ c.useGenerics.map Prod.fst ++ c.mixins

/-- `dep_map`: a name listed twice keeps the dependencies listed last. -/
def depMap (classes : List (Atom × ClassInfo)) : Table Atom (List Atom) :=
  classes.foldl (fun deps p => deps.insert p.1 (classDependencies p.2)) ∅

/-- The graph the search goes through. -/
def dependencyGraph (classes : List (Atom × ClassInfo)) : DepthFirst.Graph Atom where
  keys := (depMap classes).keys
  deps := fun fqn => (depMap classes)[fqn]?
  known := by
    intro fqn h
    rw [Std.ExtTreeMap.mem_keys, Std.ExtTreeMap.mem_iff_isSome_getElem?]
    exact h

/-- `toposort_classes`. -/
def toposortClasses (classes : List (Atom × ClassInfo)) : List Atom :=
  let allFqns := (classes.map Prod.fst).mergeSort fun a b => decide (a ≤ b)
  DepthFirst.search (dependencyGraph classes) allFqns

/-! ## The dependency map -/

/-- The map holds the dependencies of the class listed last under a name. -/
theorem depMap_get (classes : List (Atom × ClassInfo)) (fqn : Atom) :
    (depMap classes)[fqn]? =
      (classes.reverse.find? fun p => p.1 = fqn).map fun p => classDependencies p.2 := by
  have hfold (t : Table Atom (List Atom)) :
      (classes.foldl (fun deps p => deps.insert p.1 (classDependencies p.2)) t)[fqn]? =
        ((classes.reverse.find? fun p => p.1 = fqn).map fun p => classDependencies p.2).or
          t[fqn]? := by
    induction classes generalizing t with
    | nil => rfl
    | cons p rest ih =>
        rw [List.foldl_cons, ih, Table.get_insert, List.reverse_cons, List.find?_append]
        cases hfind : rest.reverse.find? (fun p => p.1 = fqn) with
        | some q => simp
        | none =>
            by_cases hp : p.1 = fqn
            · simp [hp]
            · simp [hp]
  unfold depMap
  rw [hfold, Table.get_empty, Option.or_none]

theorem depMap_isSome {classes : List (Atom × ClassInfo)} {fqn : Atom} :
    ((depMap classes)[fqn]?).isSome = true ↔ fqn ∈ classes.map Prod.fst := by
  rw [depMap_get, Option.isSome_map, List.find?_isSome, List.mem_map]
  simp

/-- The classes of a list that one of its declarations depends on, each where it
is first named, the class itself left out. -/
def listedDependencies (classes : List (Atom × ClassInfo)) (p : Atom × ClassInfo) : List Atom :=
  DepthFirst.firstNamed (fun fqn => decide (fqn ∈ classes.map Prod.fst)) [p.1]
    (classDependencies p.2)

/-- Declarations of one class name the same classes of the list, in the same
order. -/
def DeclaredAlike (classes : List (Atom × ClassInfo)) : Prop :=
  ∀ p ∈ classes, ∀ q ∈ classes, p.1 = q.1 →
    listedDependencies classes p = listedDependencies classes q

/-- The map holds the dependencies of one of the declarations of a class. -/
theorem depMap_eq_some {classes : List (Atom × ClassInfo)} {fqn : Atom} {deps : List Atom}
    (h : (depMap classes)[fqn]? = some deps) :
    ∃ p ∈ classes, p.1 = fqn ∧ classDependencies p.2 = deps := by
  rw [depMap_get, Option.map_eq_some_iff] at h
  obtain ⟨p, hfind, hdeps⟩ := h
  have hname : p.1 = fqn := by
    have hfound := List.find?_some hfind
    exact of_decide_eq_true hfound
  exact ⟨p, List.mem_reverse.mp (List.mem_of_find?_eq_some hfind), hname, hdeps⟩

/-- Where declarations agree, what the map holds names what each of them names. -/
theorem firstNamed_depMap {classes : List (Atom × ClassInfo)} (halike : DeclaredAlike classes)
    {p : Atom × ClassInfo} (h : p ∈ classes) :
    DepthFirst.firstNamed (fun fqn => decide (fqn ∈ classes.map Prod.fst)) [p.1]
      (((depMap classes)[p.1]?).getD []) = listedDependencies classes p := by
  obtain ⟨deps, hdeps⟩ := Option.isSome_iff_exists.mp
    (depMap_isSome.mpr (List.mem_map.mpr ⟨p, h, rfl⟩))
  obtain ⟨q, hq, hname, heq⟩ := depMap_eq_some hdeps
  rw [hdeps, Option.getD_some, halike p h q hq hname.symm, listedDependencies, hname, heq]

/-! ## The order -/

/-- A declaration of one class of the list depends on another. -/
def DependsOn (classes : List (Atom × ClassInfo)) (a b : Atom) : Prop :=
  ∃ c, (a, c) ∈ classes ∧ b ∈ classDependencies c ∧ b ∈ classes.map Prod.fst

/-- Two classes depend on one another, through any number of others. -/
def InCommonCycle (classes : List (Atom × ClassInfo)) (a b : Atom) : Prop :=
  Relation.ReflTransGen (DependsOn classes) a b ∧ Relation.ReflTransGen (DependsOn classes) b a

theorem dependsOn_of_edge {classes : List (Atom × ClassInfo)} {a b : Atom}
    (h : DepthFirst.Edge (dependencyGraph classes) a b) : DependsOn classes a b := by
  obtain ⟨⟨deps, hdeps, hb⟩, hsome⟩ := h
  obtain ⟨p, hp, hname, heq⟩ := depMap_eq_some hdeps
  refine ⟨p.2, ?_, heq ▸ hb, depMap_isSome.mp hsome⟩
  rw [← hname]
  exact hp

theorem leads_dependsOn {classes : List (Atom × ClassInfo)} {a b : Atom}
    (h : DepthFirst.Leads (dependencyGraph classes) a b) :
    Relation.ReflTransGen (DependsOn classes) a b :=
  Relation.ReflTransGen.mono (fun _ _ => dependsOn_of_edge) _ _ h

/-- Where declarations agree, what one of them names is what the search goes
through. -/
theorem edge_of_dependsOn {classes : List (Atom × ClassInfo)} (halike : DeclaredAlike classes)
    {a b : Atom} (h : DependsOn classes a b) (hne : b ≠ a) :
    DepthFirst.Edge (dependencyGraph classes) a b := by
  obtain ⟨c, hc, hb, hlisted⟩ := h
  have hmem : b ∈ listedDependencies classes (a, c) :=
    DepthFirst.mem_firstNamed.mpr ⟨decide_eq_true hlisted, by simpa using hne, hb⟩
  rw [← firstNamed_depMap halike hc] at hmem
  obtain ⟨deps, hdeps⟩ := Option.isSome_iff_exists.mp
    (depMap_isSome.mpr (List.mem_map.mpr ⟨(a, c), hc, rfl⟩))
  rw [hdeps] at hmem
  exact ⟨⟨deps, hdeps, (DepthFirst.mem_firstNamed.mp hmem).2.2⟩, depMap_isSome.mpr hlisted⟩

/-- Sorting the names forgets the order they were listed in. -/
theorem mergeSort_perm_eq {names names' : List Atom} (h : names.Perm names') :
    names.mergeSort (fun a b => decide (a ≤ b)) = names'.mergeSort (fun a b => decide (a ≤ b)) := by
  have hsorted (names : List Atom) :
      (names.mergeSort fun a b => decide (a ≤ b)).Pairwise (fun a b => a ≤ b) := by
    have htrans (a b c : Atom) (hab : decide (a ≤ b) = true) (hbc : decide (b ≤ c) = true) :
        decide (a ≤ c) = true := by
      simp only [decide_eq_true_eq] at *
      exact le_trans hab hbc
    have htotal (a b : Atom) : (decide (a ≤ b) || decide (b ≤ a)) = true := by
      simp only [Bool.or_eq_true, decide_eq_true_eq]
      exact le_total a b
    have hpairwise := List.pairwise_mergeSort htrans htotal names
    exact hpairwise.imp fun hab => of_decide_eq_true hab
  apply List.Perm.eq_of_pairwise _ (hsorted names) (hsorted names')
  · exact (List.mergeSort_perm names _).trans (h.trans (List.mergeSort_perm names' _).symm)
  · intro a b _ _ hab hba
    exact le_antisymm hab hba

/-- Where declarations agree, the order they are listed in does not show. -/
theorem toposortClasses_perm {classes listing : List (Atom × ClassInfo)}
    (halike : DeclaredAlike classes) (h : listing.Perm classes) :
    toposortClasses listing = toposortClasses classes := by
  have hnames (fqn : Atom) : fqn ∈ listing.map Prod.fst ↔ fqn ∈ classes.map Prod.fst :=
    (h.map Prod.fst).mem_iff
  have hlisted (p : Atom × ClassInfo) :
      listedDependencies listing p = listedDependencies classes p := by
    unfold listedDependencies
    simp only [hnames]
  have halike' : DeclaredAlike listing := by
    intro p hp q hq hname
    rw [hlisted, hlisted]
    exact halike p (h.mem_iff.mp hp) q (h.mem_iff.mp hq) hname
  have hknown (listing : List (Atom × ClassInfo)) (fqn : Atom) :
      ((dependencyGraph listing).deps fqn).isSome =
        decide (fqn ∈ listing.map Prod.fst) := by
    rw [Bool.eq_iff_iff, decide_eq_true_iff]
    exact depMap_isSome
  unfold toposortClasses
  rw [mergeSort_perm_eq (h.map Prod.fst)]
  have hsame (fqn : Atom) : ((dependencyGraph listing).deps fqn).isSome =
      decide (fqn ∈ classes.map Prod.fst) := by
    rw [hknown, decide_eq_decide]
    exact hnames fqn
  refine DepthFirst.search_congr hsame (hknown classes) ?_ _
  · intro fqn
    show DepthFirst.firstNamed _ [fqn] (((depMap listing)[fqn]?).getD []) =
      DepthFirst.firstNamed _ [fqn] (((depMap classes)[fqn]?).getD [])
    by_cases hfqn : fqn ∈ classes.map Prod.fst
    · obtain ⟨p, hp, rfl⟩ := List.mem_map.mp hfqn
      have hleft := firstNamed_depMap halike' (h.mem_iff.mpr hp)
      simp only [hnames] at hleft
      rw [hleft, hlisted, firstNamed_depMap halike hp]
    · have hother := (hnames fqn).not.mpr hfqn
      rw [← depMap_isSome, Bool.not_eq_true, Option.isSome_eq_false_iff,
        Option.isNone_iff_eq_none] at hfqn hother
      rw [hfqn, hother]

/-- What comes before is found before. -/
theorem idxOf_lt_of_split {sorted before after : List Atom} {a b : Atom} (hnodup : sorted.Nodup)
    (h : sorted = before ++ a :: after) (hb : b ∈ before) : sorted.idxOf b < sorted.idxOf a := by
  have ha : a ∉ before := by
    intro hmem
    rw [h, List.nodup_append] at hnodup
    exact hnodup.2.2 a hmem a (by simp) rfl
  rw [h, List.idxOf_append_of_mem hb, List.idxOf_append_of_notMem ha, List.idxOf_cons_self]
  exact List.idxOf_lt_length_of_mem hb

/-- The sort lists each name once.  Where declarations of one class agree, it puts
a class after its dependencies unless the two are in a common cycle, and does not
show the order of its input. -/
theorem toposortClasses_spec (classes : List (Atom × ClassInfo)) :
    (toposortClasses classes).Nodup ∧
      (∀ fqn, fqn ∈ toposortClasses classes ↔ fqn ∈ classes.map Prod.fst) ∧
      (DeclaredAlike classes →
        (∀ fqn dep, DependsOn classes fqn dep → ¬InCommonCycle classes fqn dep →
          (toposortClasses classes).idxOf dep < (toposortClasses classes).idxOf fqn) ∧
        ∀ listing, listing.Perm classes → toposortClasses listing = toposortClasses classes) := by
  have hnames (a : Atom) : a ∈ (classes.map Prod.fst).mergeSort (fun a b => decide (a ≤ b)) ↔
      a ∈ classes.map Prod.fst := List.mem_mergeSort
  obtain ⟨hnodup, hordered, hknown, hall⟩ := DepthFirst.search_spec
    (g := dependencyGraph classes)
    (fun a ha => depMap_isSome.mpr ((hnames a).mp ha))
  have hmem (fqn : Atom) : fqn ∈ toposortClasses classes ↔ fqn ∈ classes.map Prod.fst :=
    ⟨fun h => depMap_isSome.mp (hknown fqn h), fun h => hall fqn ((hnames fqn).mpr h)⟩
  refine ⟨hnodup, hmem, fun halike => ⟨?_, fun listing h => toposortClasses_perm halike h⟩⟩
  intro fqn dep hdep hcycle
  have hne : dep ≠ fqn := by
    intro heq
    rw [heq] at hcycle
    exact hcycle ⟨Relation.ReflTransGen.refl, Relation.ReflTransGen.refl⟩
  have hfqn : fqn ∈ toposortClasses classes := by
    obtain ⟨c, hc, _⟩ := hdep
    exact (hmem fqn).mpr (List.mem_map.mpr ⟨(fqn, c), hc, rfl⟩)
  obtain ⟨before, after, hsplit⟩ := List.append_of_mem hfqn
  rcases hordered before fqn after hsplit dep (edge_of_dependsOn halike hdep hne)
    with hbefore | hback
  · exact idxOf_lt_of_split hnodup hsplit hbefore
  · exact absurd ⟨Relation.ReflTransGen.single hdep, leads_dependsOn hback⟩ hcycle

/-- A class that extends another, and one that stands alone. -/
def extending (parent : Atom) : ClassInfo := ⟨some parent, [], [], [], [], [], []⟩

def standalone : ClassInfo := ⟨none, [], [], [], [], [], []⟩

/-- Two declarations of one class, one of which names its parent a second time:
they agree. -/
theorem toposortClasses_spec_repeated :
    let classes := [("A", extending "B"), ("A", { extending "B" with mixins := ["A", "B", "X"] }),
      ("B", standalone)]
    (toposortClasses classes).idxOf "B" < (toposortClasses classes).idxOf "A" := by
  refine ((toposortClasses_spec _).2.2 ?_).1 "A" "B" ?_ ?_
  · unfold DeclaredAlike
    decide +kernel
  · exact ⟨extending "B", by simp, by simp [extending, classDependencies], by simp⟩
  · intro hcycle
    have hstuck (x : Atom) (h : Relation.ReflTransGen (DependsOn [("A", extending "B"),
        ("A", { extending "B" with mixins := ["A", "B", "X"] }), ("B", standalone)]) "B" x) :
        x = "B" := by
      induction h with
      | refl => rfl
      | tail _ hdep ih =>
          obtain ⟨c, hc, hmem, _⟩ := hdep
          subst ih
          simp only [List.mem_cons, Prod.mk.injEq, List.not_mem_nil] at hc
          rcases hc with hc | hc | hc | hc
          · exact absurd hc.1 (by decide)
          · exact absurd hc.1 (by decide)
          · rw [hc.2] at hmem
            exact absurd hmem (by simp [standalone, classDependencies])
          · exact hc.elim
    exact absurd (hstuck "A" hcycle.2) (by decide)

/-- With two declarations that disagree, the one listed last decides: listed first,
`A extends B` is forgotten and `A` comes before its parent. -/
theorem toposortClasses_last_listed :
    let a := [("A", extending "B"), ("A", standalone), ("B", standalone)]
    let b := [("A", standalone), ("A", extending "B"), ("B", standalone)]
    a.Perm b ∧ toposortClasses a = ["A", "B"] ∧ toposortClasses b = ["B", "A"] := by
  have hsorted : List.mergeSort ["A", "A", "B"] (fun a b => decide (a ≤ b)) = ["A", "A", "B"] :=
    List.mergeSort_of_pairwise (by decide +kernel)
  refine ⟨List.Perm.swap _ _ _, ?_, ?_⟩
  · show DepthFirst.search (dependencyGraph _) (List.mergeSort ["A", "A", "B"] _) = _
    rw [hsorted]
    simp [DepthFirst.search, DepthFirst.visit, DepthFirst.State.enter, DepthFirst.drain_eq,
      DepthFirst.step, dependencyGraph, depMap_get, extending, standalone, classDependencies]
  · show DepthFirst.search (dependencyGraph _) (List.mergeSort ["A", "A", "B"] _) = _
    rw [hsorted]
    simp [DepthFirst.search, DepthFirst.visit, DepthFirst.State.enter, DepthFirst.drain_eq,
      DepthFirst.step, dependencyGraph, depMap_get, extending, standalone, classDependencies]

end PhpantomLsp.Toposort
