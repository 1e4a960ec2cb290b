import PhpantomLsp.Members.Merge

/-!
# The search for a declaring ancestor

The search asks a test of one class after another and stops at the first it
holds of.  What it would look at if it never stopped is a list computed from the
hierarchy alone, and the search is the first element of that list for which the
test holds.
-/

namespace PhpantomLsp.Members

section Search

variable (load : ClassLoader) (declares : ClassInfo → Bool)

/-- The parents of a class, nearest first, at most `fuel` of them. -/
def ancestors : (fuel : Nat) → (current : ClassInfo) → List (Atom × ClassInfo)
  | 0, _ => []
  | fuel + 1, current =>
      match current.parentClass with
      | none => []
      | some name =>
          match load name with
          | none => []
          | some ancestor => (name, ancestor) :: ancestors fuel ancestor

/-- `find_declaring_trait_at`, at `maxTraitDepth + 1 - fuel` levels down. -/
def findDeclaringTraitAt : (fuel : Nat) → (traitNames : List Atom) → Option (Atom × ClassInfo)
  | 0, _ => none
  | fuel + 1, traitNames =>
      traitNames.findSome? fun name =>
        match load name with
        | none => none
        | some used =>
            if declares used then some (name, used)
            else findDeclaringTraitAt fuel used.usedTraits

def findDeclaringTrait (traitNames : List Atom) : Option (Atom × ClassInfo) :=
  findDeclaringTraitAt load declares (maxTraitDepth + 1) traitNames

/-- `Iterator::find_map` with a closure that updates `state`. -/
def findMap {α β σ : Type} (f : α → σ → Option β × σ) : List α → σ → Option β × σ
  | [], state => (none, state)
  | a :: rest, state =>
      match f a state with
      | (some found, state) => (some found, state)
      | (none, state) => findMap f rest state

/-- `find_declaring_interface`, at `maxInheritanceDepth + 1 - fuel` levels up. -/
def findDeclaringInterface :
    (fuel : Nat) → (ifaceName : Atom) → (visited : List Atom) →
      Option (Atom × ClassInfo) × List Atom
  | 0, _, visited => (none, visited)
  | fuel + 1, ifaceName, visited =>
      if ifaceName ∈ visited then (none, visited)
      else
        match load ifaceName with
        | none => (none, ifaceName :: visited)
        | some iface =>
            if declares iface then (some (ifaceName, iface), ifaceName :: visited)
            else
              findMap (findDeclaringInterface fuel) (iface.interfaces ++ iface.parentClass.toList)
                (ifaceName :: visited)

/-- The interfaces of a class, then those of its parents not among them yet. -/
def hierarchyInterfaces (c : ClassInfo) : List Atom :=
  (ancestors load maxInheritanceDepth c).foldl
    (fun interfaces parent =>
      parent.2.interfaces.foldl
        (fun interfaces iface => if iface ∈ interfaces then interfaces else interfaces ++ [iface])
        interfaces)
    c.interfaces

def findDeclaringAncestor (c : ClassInfo) : Option (Atom × ClassInfo) :=
  match findDeclaringTrait load declares c.usedTraits with
  | some found => some found
  | none =>
      let inParents := (ancestors load maxInheritanceDepth c).findSome? fun (name, parent) =>
        if declares parent then some (name, parent)
        else findDeclaringTrait load declares parent.usedTraits
      match inParents with
      | some found => some found
      | none =>
          (findMap (findDeclaringInterface load declares (maxInheritanceDepth + 1))
            (hierarchyInterfaces load c) []).1

end Search

/-! ## What the search looks at -/

section Order

variable (load : ClassLoader)

/-- The traits named and those they use, each trait before those it uses. -/
def traitsWithin : (fuel : Nat) → (traitNames : List Atom) → List ClassInfo
  | 0, _ => []
  | fuel + 1, traitNames =>
      traitNames.flatMap fun name =>
        match load name with
        | none => []
        | some used => used :: traitsWithin fuel used.usedTraits

/-- The parents of a class, each followed by its traits. -/
def parentsWithin : (fuel : Nat) → (current : ClassInfo) → List ClassInfo
  | 0, _ => []
  | fuel + 1, current =>
      match current.parentClass with
      | none => []
      | some name =>
          match load name with
          | none => []
          | some parent =>
              parent :: (traitsWithin load (maxTraitDepth + 1) parent.usedTraits ++
                parentsWithin fuel parent)

/-- The traits and parents the search for a class looks at. -/
def classesWithin (c : ClassInfo) : List ClassInfo :=
  traitsWithin load (maxTraitDepth + 1) c.usedTraits ++ parentsWithin load maxInheritanceDepth c

/-- A loop that collects what each element gives, under one `visited`. -/
def collect {α β σ : Type} (f : α → σ → List β × σ) : List α → σ → List β × σ
  | [], state => ([], state)
  | a :: rest, state =>
      ((f a state).1 ++ (collect f rest (f a state).2).1, (collect f rest (f a state).2).2)

/-- An interface and those it extends, leaving out the ones visited before. -/
def interfacesFrom :
    (fuel : Nat) → (ifaceName : Atom) → (visited : List Atom) → List ClassInfo × List Atom
  | 0, _, visited => ([], visited)
  | fuel + 1, ifaceName, visited =>
      if ifaceName ∈ visited then ([], visited)
      else
        match load ifaceName with
        | none => ([], ifaceName :: visited)
        | some iface =>
            let above := collect (interfacesFrom fuel)
              (iface.interfaces ++ iface.parentClass.toList) (ifaceName :: visited)
            (iface :: above.1, above.2)

/-- The interfaces of a class and of its parents, each followed up what it
extends. -/
def interfacesWithin (c : ClassInfo) : List ClassInfo :=
  (collect (interfacesFrom load (maxInheritanceDepth + 1)) (hierarchyInterfaces load c) []).1

end Order

/-! ## The search is the first of them -/

section Agreement

variable (load : ClassLoader) (declares : ClassInfo → Bool)

theorem findDeclaringTraitAt_eq (fuel : Nat) (traitNames : List Atom) :
    (findDeclaringTraitAt load declares fuel traitNames).map Prod.snd =
      (traitsWithin load fuel traitNames).find? declares := by
  induction fuel generalizing traitNames with
  | zero => rfl
  | succ fuel ih =>
      rw [findDeclaringTraitAt, traitsWithin]
      induction traitNames with
      | nil => rfl
      | cons name rest ihrest =>
          rw [List.findSome?_cons, List.flatMap_cons, List.find?_append, ← ihrest]
          cases load name with
          | none => rfl
          | some used =>
              by_cases hdeclares : declares used = true
              · simp [hdeclares]
              · have := ih used.usedTraits
                simp only [hdeclares, List.find?_cons, ← this]
                cases findDeclaringTraitAt load declares fuel used.usedTraits <;> rfl

theorem findSome_ancestors_eq (fuel : Nat) (current : ClassInfo) :
    ((ancestors load fuel current).findSome? fun (name, parent) =>
        if declares parent then some (name, parent)
        else findDeclaringTrait load declares parent.usedTraits).map Prod.snd =
      (parentsWithin load fuel current).find? declares := by
  induction fuel generalizing current with
  | zero => rfl
  | succ fuel ih =>
      rw [ancestors, parentsWithin]
      cases current.parentClass with
      | none => rfl
      | some name =>
          cases hload : load name with
          | none => simp [hload]
          | some parent =>
              have htraits := findDeclaringTraitAt_eq load declares (maxTraitDepth + 1)
                parent.usedTraits
              have hparents := ih parent
              by_cases hdeclares : declares parent = true
              · simp [hload, hdeclares]
              · simp only [hload, List.findSome?_cons, List.find?_cons, hdeclares,
                  List.find?_append, ← htraits, ← hparents]
                rw [findDeclaringTrait]
                cases findDeclaringTraitAt load declares (maxTraitDepth + 1) parent.usedTraits <;>
                  rfl

/-- A search that agrees with a collection on each element agrees on a list,
and has visited what the collection has as long as it found nothing. -/
theorem findMap_eq {α σ : Type} (find : α → σ → Option (Atom × ClassInfo) × σ)
    (gather : α → σ → List ClassInfo × σ)
    (hstep : ∀ a state, (find a state).1.map Prod.snd = (gather a state).1.find? declares ∧
      ((find a state).1 = none → (find a state).2 = (gather a state).2))
    (l : List α) (state : σ) :
    (findMap find l state).1.map Prod.snd = (collect gather l state).1.find? declares ∧
      ((findMap find l state).1 = none →
        (findMap find l state).2 = (collect gather l state).2) := by
  induction l generalizing state with
  | nil => exact ⟨rfl, fun _ => rfl⟩
  | cons a rest ih =>
      obtain ⟨hfound, hstate⟩ := hstep a state
      rw [findMap, collect, List.find?_append, ← hfound]
      rcases hfind : find a state with ⟨found, state'⟩
      rw [hfind] at hstate
      cases found with
      | some found => exact ⟨rfl, fun h => absurd h (by simp)⟩
      | none =>
          have hsame : state' = (gather a state).2 := hstate rfl
          rw [hsame]
          exact ih _

theorem findDeclaringInterface_eq (fuel : Nat) (ifaceName : Atom) (visited : List Atom) :
    (findDeclaringInterface load declares fuel ifaceName visited).1.map Prod.snd =
        (interfacesFrom load fuel ifaceName visited).1.find? declares ∧
      ((findDeclaringInterface load declares fuel ifaceName visited).1 = none →
        (findDeclaringInterface load declares fuel ifaceName visited).2 =
          (interfacesFrom load fuel ifaceName visited).2) := by
  induction fuel generalizing ifaceName visited with
  | zero => exact ⟨rfl, fun _ => rfl⟩
  | succ fuel ih =>
      rw [findDeclaringInterface, interfacesFrom]
      by_cases hvisited : ifaceName ∈ visited
      · rw [if_pos hvisited, if_pos hvisited]
        exact ⟨rfl, fun _ => rfl⟩
      · rw [if_neg hvisited, if_neg hvisited]
        cases load ifaceName with
        | none => exact ⟨rfl, fun _ => rfl⟩
        | some iface =>
            by_cases hdeclares : declares iface = true
            · simp [hdeclares]
            · obtain ⟨hfound, hstate⟩ := findMap_eq declares _ _ ih
                (iface.interfaces ++ iface.parentClass.toList) (ifaceName :: visited)
              simp only [hdeclares, List.find?_cons]
              exact ⟨hfound, hstate⟩

/-- The search is the first class, trait or interface of the walk that
declares. -/
theorem findDeclaringAncestor_eq (c : ClassInfo) :
    (findDeclaringAncestor load declares c).map Prod.snd =
      ((classesWithin load c).find? declares).or ((interfacesWithin load c).find? declares) := by
  have htraits := findDeclaringTraitAt_eq load declares (maxTraitDepth + 1) c.usedTraits
  have hparents := findSome_ancestors_eq load declares maxInheritanceDepth c
  have hinterfaces := (findMap_eq declares _ _
    (findDeclaringInterface_eq load declares (maxInheritanceDepth + 1))
    (hierarchyInterfaces load c) []).1
  rw [classesWithin, interfacesWithin, List.find?_append, ← htraits, ← hparents, ← hinterfaces,
    findDeclaringAncestor, findDeclaringTrait]
  cases findDeclaringTraitAt load declares (maxTraitDepth + 1) c.usedTraits with
  | some found => rfl
  | none =>
      cases (ancestors load maxInheritanceDepth c).findSome? fun (name, parent) =>
          if declares parent then some (name, parent)
          else findDeclaringTrait load declares parent.usedTraits with
      | some found => rfl
      | none => rfl

end Agreement

end PhpantomLsp.Members
