import PhpantomLsp.ClassLookup.Supertypes
import PhpantomLsp.Lib.MarkedWorklist

/-!
# The nominal subtype test

`is_subtype_of` looks for a name among the names written in the clauses above a class:
a worklist over the interfaces of the class, then one over those of each parent.  It
compares names exactly, so whether it agrees with `supertypes`, which does not, depends
on how the clauses and the name are spelled (`isSubtypeOf_agrees_iff`).
-/

namespace PhpantomLsp.ClassLookup

open Text (asciiLower eqIgnoreAsciiCase stripFqnPrefix)
open Members (maxInheritanceDepth)
open Lib.Worklist (Listing findsMarked findsMarked_iff Marked)

section

variable (g : ClassGraph)

/-! ## The test -/

/-- The names written in the clauses of the class a name is resolved to. -/
def clauseListing : Listing Atom where
  lists name := ((g.loadFqn name).map ClassInfo.clauses).getD []
  listed := g.written
  known name up hup := by
    cases hload : g.loadFqn name with
    | none => simp [hload] at hup
    | some cls => exact g.clauses_written _ cls hload up (by simpa [hload] using hup)

/-- The worklist over the interfaces of a class. -/
def searchInterfaces (ancestor : Atom) (cls : ClassInfo) : Bool :=
  findsMarked (clauseListing g) ancestor cls.interfaces cls.interfaces.reverse

/-- The walk up the parents, `fuel` of them, with the parents visited. -/
def searchParents (ancestor : Atom) : (fuel : Nat) → (currentParent : Option Atom) →
    (visitedParents : List Atom) → Bool
  | 0, _, _ => false
  | _ + 1, none, _ => false
  | fuel + 1, some name, visitedParents =>
      if name = ancestor then true
      else
        match g.loadFqn name with
        | none => false
        | some parent =>
            if searchInterfaces g ancestor parent then true
            else if parent.fqn ∈ visitedParents then false
            else searchParents ancestor fuel parent.parentClass (parent.fqn :: visitedParents)

/-- The name the test compares with. -/
def ancestorFqn (ancestorName : Atom) : Atom :=
  if '\\' ∈ ancestorName.toList then ancestorName
  else ((g.loadFqn ancestorName).map (·.fqn)).getD ancestorName

/-- A class other than an interface is `Stringable` where a trait it or a parent uses
declares `__toString()`. -/
def stringableRule (cls : ClassInfo) (ancestor : Atom) : Bool :=
  let load := fun name => (g.loadFqn name).map (·.toClassInfo)
  let declares := fun c : Members.ClassInfo =>
    c.methods.any fun m => eqIgnoreAsciiCase m.name "__toString"
  eqIgnoreAsciiCase ancestor "Stringable" && cls.kind != .isInterface &&
    ((Members.findDeclaringTrait load declares cls.usedTraits).isSome ||
      (Members.ancestors load maxInheritanceDepth cls.toClassInfo).any fun (_, parent) =>
        (Members.findDeclaringTrait load declares parent.usedTraits).isSome)

def isSubtypeOf (cls : ClassInfo) (ancestorName : Atom) : Bool :=
  let ancestor := ancestorFqn g ancestorName
  cls.fqn == ancestor || searchInterfaces g ancestor cls ||
    searchParents g ancestor 20 cls.parentClass [cls.fqn] || stringableRule g cls ancestor

/-! ## What it finds -/

/-- A name is written in a clause of a class or of one above it. -/
def WrittenAbove (cls : ClassInfo) (ancestor : Atom) : Prop :=
  ∃ name ∈ cls.clauses, (clauseListing g).Leads name ancestor

variable {g} {ancestor : Atom}

theorem searchInterfaces_iff {cls : ClassInfo} :
    searchInterfaces g ancestor cls = true ↔
      ∃ name ∈ cls.interfaces, (clauseListing g).Leads name ancestor := by
  have hmarked : Marked (clauseListing g) ancestor cls.interfaces cls.interfaces.reverse :=
    ⟨fun a ha => List.mem_reverse.mp ha, fun a ha hnot => absurd (List.mem_reverse.mpr ha) hnot⟩
  unfold searchInterfaces
  rw [findsMarked_iff hmarked]
  simp only [List.mem_reverse]

theorem mem_clauses {cls : ClassInfo} {name : Atom} :
    name ∈ cls.clauses ↔ name ∈ cls.interfaces ∨ cls.parentClass = some name := by
  unfold ClassInfo.clauses
  rw [List.mem_append, Option.mem_toList]

theorem leads_of_load {name up : Atom} {cls : ClassInfo} (hload : g.loadFqn name = some cls)
    (hup : up ∈ cls.clauses) (h : (clauseListing g).Leads up ancestor) :
    (clauseListing g).Leads name ancestor :=
  .head (show up ∈ (clauseListing g).lists name by simpa [clauseListing, hload] using hup) h

/-- A name that leads on to another is resolved to a class, and goes by its clauses. -/
theorem Leads.cases {name : Atom} (h : (clauseListing g).Leads name ancestor) :
    name = ancestor ∨ ∃ cls, g.loadFqn name = some cls ∧ WrittenAbove g cls ancestor := by
  rcases Relation.ReflTransGen.cases_head h with h | ⟨up, hup, hrest⟩
  · exact .inl h
  · right
    cases hload : g.loadFqn name with
    | none => simp [clauseListing, hload] at hup
    | some cls => exact ⟨cls, rfl, up, by simpa [clauseListing, hload] using hup, hrest⟩

theorem written_of_searchParents {fuel : Nat} {current : Option Atom} {visited : List Atom}
    (h : searchParents g ancestor fuel current visited = true) :
    ∃ name, current = some name ∧ (clauseListing g).Leads name ancestor := by
  induction fuel generalizing current visited with
  | zero => cases h
  | succ fuel ih =>
      cases current with
      | none => cases h
      | some name =>
          refine ⟨name, rfl, ?_⟩
          unfold searchParents at h
          split_ifs at h with heq
          · exact heq ▸ .refl
          · split at h
            · cases h
            · rename_i parent hload
              split_ifs at h with hinterfaces hvisited
              · obtain ⟨up, hup, hleads⟩ := searchInterfaces_iff.mp hinterfaces
                exact leads_of_load hload (mem_clauses.mpr (.inl hup)) hleads
              · obtain ⟨up, hup, hleads⟩ := ih h
                exact leads_of_load hload (mem_clauses.mpr (.inr hup)) hleads

/-- By induction on the path: classes whose interfaces do not lead to a name, and whose
parents are among them, do not lead to it but by way of the parents excepted. -/
theorem written_exits {classes : List ClassInfo} {excepted : Atom → Prop}
    (hinterfaces : ∀ cls ∈ classes, searchInterfaces g ancestor cls = false)
    (hparents : ∀ cls ∈ classes, ∀ name, cls.parentClass = some name →
      excepted name ∨ (name ≠ ancestor ∧ ∀ up, g.loadFqn name = some up → up ∈ classes))
    {cls : ClassInfo} (hcls : cls ∈ classes) (h : WrittenAbove g cls ancestor) :
    ∃ name, excepted name ∧ (clauseListing g).Leads name ancestor := by
  obtain ⟨name, hname, hleads⟩ := h
  have hnot : ∀ cls ∈ classes, ∀ name ∈ cls.interfaces,
      ¬(clauseListing g).Leads name ancestor := by
    intro cls hcls name hname hleads
    have hfound := searchInterfaces_iff.mpr ⟨name, hname, hleads⟩
    rw [hinterfaces cls hcls] at hfound
    cases hfound
  induction hleads using Relation.ReflTransGen.head_induction_on generalizing cls with
  | refl =>
      rcases mem_clauses.mp hname with hname | hname
      · exact absurd .refl (hnot cls hcls _ hname)
      · rcases hparents cls hcls _ hname with hexcepted | ⟨hne, -⟩
        · exact ⟨_, hexcepted, .refl⟩
        · exact absurd rfl hne
  | @head name up hup hrest ih =>
      rcases mem_clauses.mp hname with hname | hname
      · exact absurd (.head hup hrest) (hnot cls hcls _ hname)
      · rcases hparents cls hcls _ hname with hexcepted | ⟨-, hloads⟩
        · exact ⟨_, hexcepted, .head hup hrest⟩
        · cases hload : g.loadFqn name with
          | none => simp [clauseListing, hload] at hup
          | some parent =>
              exact ih (hloads parent hload) (by simpa [clauseListing, hload] using hup)

/-- The parents visited, the last first: a path up from the class with nothing found. -/
structure ParentsVisited (g : ClassGraph) (ancestor : Atom) (cls last : ClassInfo)
    (before : List ClassInfo) : Prop where
  path : (last :: before).IsChain (flip (Above g))
  start : (last :: before).getLast? = some cls
  nodup : ((last :: before).map classKey).Nodup
  interfaces : ∀ c ∈ last :: before, searchInterfaces g ancestor c = false
  parents : ∀ c ∈ before, ∀ name, c.parentClass = some name →
    name ≠ ancestor ∧ ∀ up, g.loadFqn name = some up → up ∈ last :: before

theorem ParentsVisited.reaches {cls last c : ClassInfo} {before : List ClassInfo}
    (h : ParentsVisited g ancestor cls last before) (hc : c ∈ last :: before) :
    Reaches g cls c := by
  have hpath := h.path
  have hstart := h.start
  clear h
  induction before generalizing last c with
  | nil =>
      obtain rfl := List.mem_singleton.mp hc
      obtain rfl : c = cls := by simpa using hstart
      exact .refl
  | cons next rest ih =>
      obtain ⟨hup, hbelow⟩ := List.isChain_cons_cons.mp hpath
      have hstart' : (next :: rest).getLast? = some cls := by
        rwa [List.getLast?_cons_cons] at hstart
      rcases List.mem_cons.mp hc with rfl | hc
      · exact .tail (ih (List.mem_cons_self ..) hbelow hstart') hup
      · exact ih hc hbelow hstart'

theorem ParentsVisited.length_lt {cls last : ClassInfo} {before : List ClassInfo}
    (h : ParentsVisited g ancestor cls last before) (hshort : ShortPaths g cls) :
    before.length < maxInheritanceDepth := by
  obtain ⟨rest, hrest⟩ : ∃ rest, (last :: before).reverse = cls :: rest := by
    have hhead : (last :: before).reverse.head? = some cls := by
      rw [List.head?_reverse, h.start]
    exact List.head?_eq_some_iff.mp hhead
  have hlength := congrArg List.length hrest
  simp only [List.length_reverse, List.length_cons] at hlength
  have hchain : (cls :: rest).IsChain (Above g) := by
    rw [← hrest, List.isChain_reverse]
    exact h.path
  have hnodup : ((cls :: rest).map classKey).Nodup := by
    rw [← hrest, List.map_reverse, List.nodup_reverse]
    exact h.nodup
  have hlt := hshort rest hchain hnodup
  omega

/-- By induction on what is left of the depth: the parents are followed as far as the
name is to be found. -/
theorem searchParents_of_written {cls last from' : ClassInfo} {before : List ClassInfo}
    {fuel : Nat} (hcls : Declared g cls) (hshort : ShortPaths g cls)
    (hvisited : ParentsVisited g ancestor cls last before)
    (hfuel : maxInheritanceDepth ≤ fuel + before.length)
    (hfrom : from' ∈ last :: before) (h : WrittenAbove g from' ancestor) :
    searchParents g ancestor fuel last.parentClass ((last :: before).map (·.fqn)) = true := by
  induction fuel generalizing last before from' with
  | zero =>
      have hlt := hvisited.length_lt hshort
      omega
  | succ fuel ih =>
      obtain ⟨name, hname, hleads⟩ := @written_exits g ancestor (last :: before)
        (fun name => last.parentClass = some name) hvisited.interfaces
        (by
          intro c hc name hname
          rcases List.mem_cons.mp hc with rfl | hc
          · exact .inl hname
          · exact .inr (hvisited.parents c hc name hname))
        from' hfrom h
      rw [hname]
      unfold searchParents
      by_cases heq : name = ancestor
      · rw [if_pos heq]
      · rw [if_neg heq]
        rcases Leads.cases hleads with heq' | ⟨parent, hload, hwritten⟩
        · exact absurd heq' heq
        · rw [hload]
          dsimp only
          have hparents : ∀ c ∈ last :: before, ∀ classes : List ClassInfo,
              parent ∈ classes → (∀ c ∈ last :: before, c ∈ classes) →
              ∀ name, c.parentClass = some name →
                name ≠ ancestor ∧ ∀ up, g.loadFqn name = some up → up ∈ classes := by
            intro c hc classes hparent hsub name' hname'
            rcases List.mem_cons.mp hc with rfl | hc
            · obtain rfl : name = name' := Option.some.inj (hname.symm.trans hname')
              refine ⟨heq, fun up hup => ?_⟩
              obtain rfl : parent = up := Option.some.inj (hload.symm.trans hup)
              exact hparent
            · obtain ⟨hne, hloads⟩ := hvisited.parents c hc name' hname'
              exact ⟨hne, fun up hup => hsub up (hloads up hup)⟩
          by_cases hinterfaces : searchInterfaces g ancestor parent = true
          · rw [if_pos hinterfaces]
          · rw [if_neg hinterfaces]
            have hdeclared : Declared g parent := declared_of_load hload
            by_cases hmem : parent ∈ last :: before
            · -- A parent visited before adds nothing, and nothing was found so far.
              obtain ⟨_, hfalse, -⟩ := @written_exits g ancestor (last :: before)
                (fun _ => False) hvisited.interfaces
                (fun c hc name hname =>
                  .inr (hparents c hc (last :: before) hmem (fun _ => id) name hname))
                from' hfrom h
              exact hfalse.elim
            · have hkey : ∀ c ∈ last :: before, classKey c ≠ classKey parent := by
                intro c hc hkey
                exact hmem (((hcls.reaches (hvisited.reaches hc)).eq hdeclared hkey) ▸ hc)
              have hfqn : parent.fqn ∉ (last :: before).map (·.fqn) := by
                intro hin
                obtain ⟨c, hc, heq⟩ := List.mem_map.mp hin
                exact hkey c hc (congrArg asciiLower heq)
              rw [if_neg hfqn]
              have hnext : ParentsVisited g ancestor cls parent (last :: before) := by
                refine ⟨?_, ?_, ?_, ?_, ?_⟩
                · exact List.isChain_cons_cons.mpr
                    ⟨⟨name, mem_clauses.mpr (.inr hname), hload⟩, hvisited.path⟩
                · rw [List.getLast?_cons_cons]
                  exact hvisited.start
                · refine List.nodup_cons.mpr ⟨fun hin => ?_, hvisited.nodup⟩
                  obtain ⟨c, hc, heq⟩ := List.mem_map.mp hin
                  exact hkey c hc heq
                · intro c hc
                  rcases List.mem_cons.mp hc with rfl | hc
                  · exact eq_false_of_ne_true hinterfaces
                  · exact hvisited.interfaces c hc
                · exact fun c hc => hparents c hc _ (List.mem_cons_self ..)
                    fun _ => List.mem_cons_of_mem _
              refine ih hnext ?_ (List.mem_cons_self ..) hwritten
              simp only [List.length_cons]
              omega

/-- Without the rule for `Stringable`, the test finds the name of the class and the names
written above it. -/
theorem isSubtypeOf_iff {cls : ClassInfo} (hcls : Declared g cls) (hshort : ShortPaths g cls)
    (ancestorName : Atom) :
    isSubtypeOf g cls ancestorName = true ↔
      (cls.fqn = ancestorFqn g ancestorName ∨ WrittenAbove g cls (ancestorFqn g ancestorName)) ∨
        stringableRule g cls (ancestorFqn g ancestorName) = true := by
  simp only [isSubtypeOf, Bool.or_eq_true, beq_iff_eq]
  refine or_congr ?_ Iff.rfl
  rw [or_assoc]
  refine or_congr Iff.rfl ⟨?_, fun hwritten => ?_⟩
  · rintro (h | h)
    · obtain ⟨name, hname, hleads⟩ := searchInterfaces_iff.mp h
      exact ⟨name, mem_clauses.mpr (.inl hname), hleads⟩
    · obtain ⟨name, hname, hleads⟩ := written_of_searchParents h
      exact ⟨name, mem_clauses.mpr (.inr hname), hleads⟩
  · by_cases hinterfaces : searchInterfaces g (ancestorFqn g ancestorName) cls = true
    · exact .inl hinterfaces
    · have hvisited : ParentsVisited g (ancestorFqn g ancestorName) cls cls [] :=
        ⟨.singleton _, rfl, List.nodup_singleton _, by simpa using hinterfaces, by simp⟩
      exact .inr (searchParents_of_written hcls hshort hvisited (Nat.le_refl _)
        (List.mem_singleton_self _) hwritten)

/-! ## Agreement with the supertypes -/

/-- A name, with or without a leading `\`, is that of a class. -/
def Names (name : Atom) (cls : ClassInfo) : Prop := asciiLower (stripFqnPrefix name) = classKey cls

theorem Names.load {name : Atom} {cls : ClassInfo} (hcls : Declared g cls) (h : Names name cls) :
    g.loadFqn name = some cls := by
  unfold ClassGraph.loadFqn
  rw [g.anyCase _ cls.fqn h]
  exact hcls

theorem names_of_load {name : Atom} {cls : ClassInfo} (h : g.loadFqn name = some cls) :
    Names name cls :=
  (g.ownName _ cls h).symm

/-- The name compared with is that of the same class. -/
theorem names_ancestorFqn {name : Atom} {cls : ClassInfo} :
    Names (ancestorFqn g name) cls ↔ Names name cls := by
  unfold ancestorFqn
  split
  · rfl
  · cases hload : g.loadFqn name with
    | none => rfl
    | some loaded =>
        have hfqn := g.noLeadingBackslash _ loaded hload
        have hown := g.ownName _ loaded hload
        simp only [Option.map_some, Option.getD_some, Names]
        rw [hfqn, hown]

theorem reaches_of_writtenAbove {cls up : ClassInfo} {name : Atom} (h : WrittenAbove g cls name)
    (hload : g.loadFqn name = some up) : Reaches g cls up := by
  obtain ⟨clause, hclause, hleads⟩ := h
  induction hleads using Relation.ReflTransGen.head_induction_on generalizing cls with
  | refl => exact .single ⟨_, hclause, hload⟩
  | @head clause next hnext _ ih =>
      cases hclauseLoad : g.loadFqn clause with
      | none => simp [clauseListing, hclauseLoad] at hnext
      | some middle =>
          have hlisted : next ∈ middle.clauses := by
            simpa [clauseListing, hclauseLoad] using hnext
          exact .head ⟨_, hclause, hclauseLoad⟩ (ih hlisted)

/-- Where a name is that of a class or of one above it, it is spelled as the class is
declared or as a clause above it is, and a clause spelled so names a class that loads. -/
structure SpelledAsDeclared (g : ClassGraph) (cls : ClassInfo) (ancestorName : Atom) : Prop where
  spelled : ∀ up, Reaches g cls up → Names ancestorName up →
    cls.fqn = ancestorFqn g ancestorName ∨ WrittenAbove g cls (ancestorFqn g ancestorName)
  loads : WrittenAbove g cls (ancestorFqn g ancestorName) →
    (g.loadFqn (ancestorFqn g ancestorName)).isSome = true

/-- A name is that of a class or of one of its supertypes. -/
def NamesSupertype (g : ClassGraph) (cls : ClassInfo) (name : Atom) : Prop :=
  Names name cls ∨ ∃ entry ∈ supertypes g cls, Names name entry.2

theorem namesSupertype_iff {cls : ClassInfo} (hcls : Declared g cls) (hshort : ShortPaths g cls)
    {name : Atom} : NamesSupertype g cls name ↔ ∃ up, Reaches g cls up ∧ Names name up := by
  constructor
  · rintro (h | ⟨entry, hentry, h⟩)
    · exact ⟨cls, .refl, h⟩
    · exact ⟨entry.2, reaches_of_supertype hentry, h⟩
  · rintro ⟨up, hreach, h⟩
    by_cases heq : up = cls
    · exact .inl (heq ▸ h)
    · obtain ⟨entry, hentry, rfl⟩ :=
        List.mem_map.mp ((mem_supertypes hcls hshort).mpr ⟨heq, hreach⟩)
      exact .inr ⟨entry, hentry, h⟩

/-- The supertypes are the other classes above a class, each once, and the test agrees
with them exactly on the names spelled as they are declared. -/
theorem isSubtypeOf_agrees_iff {cls : ClassInfo} (hcls : Declared g cls)
    (hshort : ShortPaths g cls) :
    ((supertypes g cls).map fun entry => classKey entry.2).Nodup ∧
      (∀ up, up ∈ (supertypes g cls).map (·.2) ↔ up ≠ cls ∧ Reaches g cls up) ∧
      ∀ ancestorName,
        (isSubtypeOf g cls ancestorName = true ↔
          NamesSupertype g cls ancestorName ∨
            stringableRule g cls (ancestorFqn g ancestorName) = true) ↔
        (stringableRule g cls (ancestorFqn g ancestorName) = true ∨
          SpelledAsDeclared g cls ancestorName) := by
  refine ⟨?_, fun up => mem_supertypes hcls hshort, fun ancestorName => ?_⟩
  · have h := (List.nodup_cons.mp (@nodup_supertypes g cls)).2
    rwa [List.map_map] at h
  · rw [isSubtypeOf_iff hcls hshort, namesSupertype_iff hcls hshort]
    by_cases hrule : stringableRule g cls (ancestorFqn g ancestorName) = true
    · simp only [hrule, or_true, true_or]
    · simp only [hrule, Bool.false_eq_true, or_false, false_or]
      constructor
      · intro hagrees
        refine ⟨fun up hreach hnames => hagrees.mpr ⟨up, hreach, hnames⟩, fun hwritten => ?_⟩
        obtain ⟨up, hreach, hnames⟩ := hagrees.mp (.inr hwritten)
        rw [(names_ancestorFqn.mpr hnames).load (hcls.reaches hreach)]
        rfl
      · intro hspelled
        refine ⟨?_, fun ⟨up, hreach, hnames⟩ => hspelled.spelled up hreach hnames⟩
        rintro (hfqn | hwritten)
        · have hnames : Names (ancestorFqn g ancestorName) cls := by
            unfold Names
            rw [← hfqn, g.noLeadingBackslash _ cls hcls]
            rfl
          exact ⟨cls, .refl, names_ancestorFqn.mp hnames⟩
        · obtain ⟨up, hload⟩ := Option.isSome_iff_exists.mp (hspelled.loads hwritten)
          exact ⟨up, reaches_of_writtenAbove hwritten hload,
            names_ancestorFqn.mp (names_of_load hload)⟩

end

/-! ## A class and its interface -/

/-- `namespace App; interface Greeter` -/
def greeter : ClassInfo :=
  ⟨⟨"App\\Greeter", [], [], [], none, [], [], [], []⟩, .isInterface⟩

/-- `class Impl` of the same namespace, implementing the interface by this name. -/
def impl (clause : Atom) : ClassInfo :=
  ⟨⟨"App\\Impl", [], [], [], none, [clause], [], [], []⟩, .isClass⟩

def greeterGraph (clause : Atom) : ClassGraph where
  load name :=
    if asciiLower name = "app\\impl" then some (impl clause)
    else if asciiLower name = "app\\greeter" then some greeter
    else none
  written := [clause]
  clauses_written name cls hload up hup := by
    split_ifs at hload
    · cases hload
      exact hup
    · cases hload
      exact absurd hup List.not_mem_nil
  anyCase name name' heq := by rw [heq]
  ownName name cls hload := by
    split_ifs at hload with himpl hgreeter
    · cases hload
      rw [himpl]
      exact (by decide +kernel : asciiLower "App\\Impl" = "app\\impl")
    · cases hload
      rw [hgreeter]
      decide +kernel
  noLeadingBackslash name cls hload := by
    split_ifs at hload
    · cases hload
      exact (by decide +kernel : stripFqnPrefix "App\\Impl" = "App\\Impl")
    · cases hload
      decide +kernel

/-- The interface extends nothing, so a path has one step at most. -/
theorem shortPaths_impl (clause : Atom) : ShortPaths (greeterGraph clause) (impl clause) := by
  intro path hchain hnodup
  match path with
  | [] => decide
  | [_] => simp [maxInheritanceDepth]
  | first :: second :: rest =>
      obtain ⟨hfirst, hrest⟩ := List.isChain_cons_cons.mp hchain
      obtain ⟨hsecond, -⟩ := List.isChain_cons_cons.mp hrest
      obtain ⟨name, -, hload⟩ := hfirst
      obtain ⟨name', hname', -⟩ := hsecond
      have hcases : first = impl clause ∨ first = greeter := by
        simp only [ClassGraph.loadFqn, greeterGraph] at hload
        split_ifs at hload <;> cases hload <;> simp
      rcases hcases with rfl | rfl
      · simp at hnodup
      · exact absurd hname' List.not_mem_nil

theorem isSubtypeOf_agrees_iff_impl :
    isSubtypeOf (greeterGraph "App\\Greeter") (impl "App\\Greeter") "App\\Greeter" = true := by
  have hcls : Declared (greeterGraph "App\\Greeter") (impl "App\\Greeter") := by
    unfold Declared
    decide +kernel
  obtain ⟨-, -, hagrees⟩ := isSubtypeOf_agrees_iff hcls (shortPaths_impl _)
  refine ((hagrees "App\\Greeter").mpr (.inr ⟨fun _ _ _ => .inr ⟨"App\\Greeter", ?_, ?_⟩, ?_⟩)).mpr
    (.inl (.inr ⟨("App\\Greeter", greeter), ?_, ?_⟩))
  · decide +kernel
  · have hfqn : ancestorFqn (greeterGraph "App\\Greeter") "App\\Greeter" = "App\\Greeter" := by
      decide +kernel
    rw [hfqn]
    exact .refl
  · intro _
    decide +kernel
  · decide +kernel
  · unfold Names
    decide +kernel

/-- `implements greeter` is resolved to `App\greeter`: the interface is a supertype of
the class, and its own name is not found. -/
theorem isSubtypeOf_fails_clauseCase :
    (∃ entry ∈ supertypes (greeterGraph "App\\greeter") (impl "App\\greeter"),
      Names "App\\Greeter" entry.2) ∧
    isSubtypeOf (greeterGraph "App\\greeter") (impl "App\\greeter") "App\\Greeter" = false := by
  refine ⟨⟨("App\\greeter", greeter), by decide +kernel, ?_⟩, by decide +kernel⟩
  unfold Names
  decide +kernel

end PhpantomLsp.ClassLookup
