import PhpantomLsp.Index.ClassDeclarations

/-!
# The class declarations of one name

What each operation on `ClassDeclarations` does to one folded name.  An
operation on a name leaves every other name alone, and the operations that
walk the maps treat each name they meet once.
-/

namespace PhpantomLsp.Index

open PhpantomLsp.Lib

variable {Class : Type}

/-- What the four maps hold for one name. -/
@[ext] structure NameState (Class : Type) where
  owner : Option String
  parsed : Option Class
  decls : Option (Table String Class)
  alternates : List String

namespace NameState

def empty : NameState Class := ⟨none, none, none, []⟩

def publish (st : NameState Class) : NameState Class :=
  match st.decls with
  | none => st
  | some decls =>
      { st with
        owner := decls.toList.head?.map Prod.fst
        parsed := decls.toList.head?.map Prod.snd
        decls := if decls.size ≤ 1 then none else some decls }

def displacedBy (st : NameState Class) (uri : String) : Option (String × Class) :=
  match st.parsed, st.owner with
  | some cls, some owner => if owner ≠ uri then some (owner, cls) else none
  | _, _ => none

/-- The alternates once `uri` takes the name from the owner. -/
def displaceOwner (st : NameState Class) (uri : String) : List String :=
  match st.owner with
  | some previous => if previous ≠ uri then pushUri st.alternates previous else st.alternates
  | none => st.alternates

def declare (uri : String) (cls : Class) (st : NameState Class) : NameState Class :=
  match st.decls with
  | some decls => publish { st with decls := some (decls.insert uri cls) }
  | none =>
      match st.displacedBy uri with
      | some (owner, displaced) =>
          publish
            { st with decls := some ((Std.ExtTreeMap.insert ∅ owner displaced).insert uri cls) }
      | none =>
          { st with owner := some uri, parsed := some cls, alternates := st.displaceOwner uri }

def withdraw (uri : String) (st : NameState Class) : NameState Class :=
  match st.decls with
  | some decls => publish { st with decls := some (decls.erase uri) }
  | none => if st.owner = some uri then { st with owner := none, parsed := none } else st

def noteDiscovered (uri : String) (st : NameState Class) : NameState Class :=
  if st.parsed.isSome then
    if st.owner ≠ some uri then { st with alternates := pushUri st.alternates uri } else st
  else { st with owner := some uri, alternates := st.displaceOwner uri }

def mergeKeep (uri : String) (st : NameState Class) : NameState Class :=
  match st.owner with
  | none => { st with owner := some uri }
  | some existing =>
      if existing ≠ uri then { st with alternates := pushUri st.alternates uri } else st

def mergeReplace (uri : String) (st : NameState Class) : NameState Class :=
  { st with owner := some uri, alternates := st.displaceOwner uri }

/-- The name falls to the last alternate, if there is one. -/
def promote (st : NameState Class) : NameState Class :=
  match st.alternates.getLast? with
  | some uri => { st with owner := some uri, alternates := st.alternates.dropLast }
  | none => st

/-- A name falls to the last alternate when nothing owns it. -/
def promoteOrphan (st : NameState Class) : NameState Class :=
  if st.owner.isNone then st.promote else st

/-- The parsed declarations outside `gone`, once one of them is in `gone`. -/
def withdrawRecord (gone : String → Bool) (st : NameState Class) : NameState Class :=
  match st.decls with
  | some decls => publish { st with decls := some (decls.filter fun uri _ => !gone uri) }
  | none => publish st

/-- A parsed declaration of the name is in `gone`. -/
def affected (gone : String → Bool) (st : NameState Class) : Bool :=
  match st.decls with
  | some decls => decls.keys.any gone
  | none => false

/-- The name after the first loop of `withdraw_uris`. -/
def afterRecord (gone : String → Bool) (st : NameState Class) : NameState Class :=
  if st.affected gone then st.withdrawRecord gone else st

/-- The name has lost its owner to `gone`. -/
def dropped (gone : String → Bool) (st : NameState Class) : Bool :=
  (st.affected gone && (st.afterRecord gone).owner.isNone) ||
    (st.afterRecord gone).owner.any gone

def withdrawUris (gone : String → Bool) (st : NameState Class) : NameState Class :=
  let next := st.afterRecord gone
  let kept := next.alternates.filter fun uri => !gone uri
  if st.dropped gone then promote { next with owner := none, parsed := none, alternates := kept }
  else { next with alternates := kept }

/-- The name after the purge of `replace_tree`. -/
def purge (inTree : String → Bool) (st : NameState Class) : NameState Class :=
  { st with
    owner := st.owner.filter fun uri => !inTree uri
    alternates := st.alternates.filter fun uri => !inTree uri }

def rescan (inTree : String → Bool) (uris : List String) (st : NameState Class) :
    NameState Class :=
  let merged := uris.foldl (fun st uri => mergeReplace uri st) (st.purge inTree)
  let promoted := if st.owner.any inTree then merged.promoteOrphan else merged
  { promoted with parsed := none, decls := none }

end NameState

/-- The entries of a scan for one name, in the scan's order. -/
def urisOf (classmap : List (String × String)) (name : String) : List String :=
  (classmap.filter fun entry => fold entry.1 = fold name).map Prod.snd

namespace NameState

/-- What an operation does to one name. -/
def apply (name : String) (st : NameState Class) : ClassOp Class → NameState Class
  | .declare fqn uri cls => if fold fqn = fold name then st.declare uri cls else st
  | .withdraw fqn uri => if fold fqn = fold name then st.withdraw uri else st
  | .withdrawUris uris => st.withdrawUris uris.contains
  | .noteDiscovered fqn uri => if fold fqn = fold name then st.noteDiscovered uri else st
  | .mergeScan classmap => (urisOf classmap name).foldl (fun st uri => st.mergeKeep uri) st
  | .rescan inTree classmap => st.rescan inTree (urisOf classmap name)

end NameState

namespace ClassDeclarations

/-- What the maps hold for `name`; an absent list of alternates is an empty
one. -/
def view (s : ClassDeclarations Class) (name : String) : NameState Class where
  owner := s.uris.get name
  parsed := s.classes.get name
  decls := s.dupes.get name
  alternates := (s.alternates.get name).getD []

/-! ## Operations on one name -/

theorem alternates_push (alternates : CiMap (List String)) (fqn uri name : String) :
    ((pushAlternate alternates fqn uri).get name).getD [] =
      if fold fqn = fold name then pushUri ((alternates.get name).getD []) uri
      else (alternates.get name).getD [] := by
  unfold pushAlternate
  by_cases h : fold fqn = fold name
  · rw [alternates.get_congr h]
    cases hget : alternates.get name with
    | none => simp [CiMap.get_insert, h, pushUri]
    | some uris => simp [CiMap.get_set, h, hget]
  · cases alternates.get fqn with
    | none => simp [CiMap.get_insert, h]
    | some uris => simp [CiMap.get_set, h]

theorem view_publishWinner (s : ClassDeclarations Class) (fqn name : String) :
    view (publishWinner s fqn) name =
      if fold fqn = fold name then (view s name).publish else view s name := by
  unfold publishWinner
  by_cases h : fold fqn = fold name
  · rw [if_pos h, s.dupes.get_congr h]
    cases hdecls : s.dupes.get name with
    | none =>
        unfold NameState.publish
        simp [view, hdecls]
    | some decls =>
        unfold NameState.publish
        cases hhead : decls.toList.head? with
        | none =>
            by_cases hsize : decls.size ≤ 1
            · simp [view, hdecls, hhead, hsize, CiMap.get_remove, h]
            · simp [view, hdecls, hhead, hsize, CiMap.get_remove, h]
        | some winner =>
            by_cases hsize : decls.size ≤ 1
            · simp [view, hdecls, hhead, hsize, CiMap.get_remove, CiMap.get_insert, h]
            · simp [view, hdecls, hhead, hsize, CiMap.get_insert, h]
  · rw [if_neg h]
    cases s.dupes.get fqn with
    | none => rfl
    | some decls =>
        cases hhead : decls.toList.head? with
        | none =>
            by_cases hsize : decls.size ≤ 1
            · simp [view, hsize, CiMap.get_remove, h, hhead]
            · simp [view, hsize, CiMap.get_remove, h, hhead]
        | some winner =>
            by_cases hsize : decls.size ≤ 1
            · simp [view, hsize, CiMap.get_remove, CiMap.get_insert, h, hhead]
            · simp [view, hsize, CiMap.get_insert, h, hhead]

theorem recordOf_eq (s : ClassDeclarations Class) (fqn : String) :
    s.recordOf fqn = s.dupes.get fqn := by
  unfold recordOf
  by_cases h : s.dupes.isEmpty = true
  · rw [if_pos h, CiMap.get_of_isEmpty h]
  · rw [if_neg h]

theorem view_of_fold {s : ClassDeclarations Class} {fqn name : String}
    (h : fold fqn = fold name) : view s fqn = view s name := by
  unfold view
  rw [s.uris.get_congr h, s.classes.get_congr h, s.dupes.get_congr h,
    s.alternates.get_congr h]

theorem displacedBy_eq (s : ClassDeclarations Class) (fqn uri : String) :
    s.displacedBy fqn uri = (view s fqn).displacedBy uri := rfl

theorem alternates_displaceOwner (s : ClassDeclarations Class) (fqn uri name : String) :
    ((match s.uris.get fqn with
      | some previous =>
          if previous ≠ uri then pushAlternate s.alternates fqn previous else s.alternates
      | none => s.alternates).get name).getD [] =
      if fold fqn = fold name then (view s name).displaceOwner uri
      else (view s name).alternates := by
  unfold NameState.displaceOwner
  by_cases h : fold fqn = fold name
  · rw [if_pos h, s.uris.get_congr h]
    cases howner : s.uris.get name with
    | none => simp [view, howner]
    | some previous =>
        by_cases hne : previous = uri
        · simp [view, howner, hne]
        · simp [view, howner, hne, alternates_push, h]
  · rw [if_neg h]
    cases s.uris.get fqn with
    | none => rfl
    | some previous =>
        by_cases hne : previous = uri
        · simp [view, hne]
        · simp [view, hne, alternates_push, h]

theorem view_declare (s : ClassDeclarations Class) (fqn uri name : String) (cls : Class) :
    view (s.declare fqn uri cls).2 name =
      if fold fqn = fold name then (view s name).declare uri cls else view s name := by
  unfold declare NameState.declare
  rw [recordOf_eq, displacedBy_eq]
  by_cases h : fold fqn = fold name
  · rw [if_pos h, view_of_fold h]
    cases hdecls : s.dupes.get fqn with
    | some decls =>
        have hview : (view s name).decls = some decls := (s.dupes.get_congr h).symm.trans hdecls
        simp only [view_publishWinner, if_pos h, hview]
        congr 1
        simp [view, CiMap.get_set, h, ← s.dupes.get_congr h, hdecls]
    | none =>
        have hview : (view s name).decls = none := (s.dupes.get_congr h).symm.trans hdecls
        simp only [hview]
        cases hdisplaced : (view s name).displacedBy uri with
        | some pair =>
            simp only [view_publishWinner, if_pos h]
            congr 1
            simp [view, CiMap.get_insert, h]
        | none =>
            ext1
            · simp [view, CiMap.get_insert, h]
            · simp [view, CiMap.get_insert, h]
            · exact hview
            · exact (alternates_displaceOwner s fqn uri name).trans (if_pos h)
  · rw [if_neg h]
    cases s.dupes.get fqn with
    | some decls =>
        simp only [view_publishWinner, if_neg h]
        simp [view, CiMap.get_set, h]
    | none =>
        cases (view s fqn).displacedBy uri with
        | some pair =>
            simp only [view_publishWinner, if_neg h]
            simp [view, CiMap.get_insert, h]
        | none =>
            ext1
            · simp [view, CiMap.get_insert, h]
            · simp [view, CiMap.get_insert, h]
            · rfl
            · exact (alternates_displaceOwner s fqn uri name).trans (if_neg h)

theorem view_withdraw (s : ClassDeclarations Class) (fqn uri name : String) :
    view (s.withdraw fqn uri) name =
      if fold fqn = fold name then (view s name).withdraw uri else view s name := by
  unfold withdraw NameState.withdraw
  rw [recordOf_eq]
  by_cases h : fold fqn = fold name
  · rw [if_pos h]
    cases hdecls : s.dupes.get fqn with
    | some decls =>
        have hview : (view s name).decls = some decls := (s.dupes.get_congr h).symm.trans hdecls
        simp only [view_publishWinner, if_pos h, hview]
        congr 1
        simp [view, CiMap.get_set, h, ← s.dupes.get_congr h, hdecls]
    | none =>
        have hview : (view s name).decls = none := (s.dupes.get_congr h).symm.trans hdecls
        simp only [hview, s.uris.get_congr h]
        by_cases howner : s.uris.get name = some uri
        · simp [view, howner, CiMap.get_remove, h, show s.dupes.get name = none from hview]
        · simp [view, howner]
  · rw [if_neg h]
    cases s.dupes.get fqn with
    | some decls =>
        simp only [view_publishWinner, if_neg h]
        simp [view, CiMap.get_set, h]
    | none =>
        by_cases howner : s.uris.get fqn = some uri
        · simp [view, howner, CiMap.get_remove, h]
        · simp [howner]

theorem view_noteDiscovered (s : ClassDeclarations Class) (fqn uri name : String) :
    view (s.noteDiscovered fqn uri) name =
      if fold fqn = fold name then (view s name).noteDiscovered uri else view s name := by
  unfold noteDiscovered NameState.noteDiscovered
  by_cases h : fold fqn = fold name
  · rw [if_pos h, s.classes.get_congr h, s.uris.get_congr h]
    by_cases hparsed : (s.classes.get name).isSome = true
    · by_cases howner : s.uris.get name = some uri
      · simp [view, hparsed, howner]
      · simp [view, hparsed, howner, alternates_push, h]
    · cases howner : s.uris.get name with
      | none =>
          simp [view, hparsed, howner, CiMap.get_insert, h, NameState.displaceOwner]
      | some previous =>
          by_cases hne : previous = uri
          · simp [view, hparsed, howner, hne, CiMap.get_insert, h, NameState.displaceOwner]
          · simp [view, hparsed, howner, hne, CiMap.get_insert, h, NameState.displaceOwner,
              alternates_push]
  · rw [if_neg h]
    by_cases hparsed : (s.classes.get fqn).isSome = true
    · by_cases howner : s.uris.get fqn = some uri
      · simp [view, hparsed, howner]
      · simp [view, hparsed, howner, alternates_push, h]
    · cases howner : s.uris.get fqn with
      | none => simp [view, hparsed, CiMap.get_insert, h]
      | some previous =>
          by_cases hne : previous = uri
          · simp [view, hparsed, hne, CiMap.get_insert, h]
          · simp [view, hparsed, hne, CiMap.get_insert, h, alternates_push]

theorem view_mergeKeep (s : ClassDeclarations Class) (entry : String × String) (name : String) :
    view (s.mergeKeep entry) name =
      if fold entry.1 = fold name then (view s name).mergeKeep entry.2 else view s name := by
  unfold mergeKeep NameState.mergeKeep
  by_cases h : fold entry.1 = fold name
  · rw [if_pos h, s.uris.get_congr h]
    cases howner : s.uris.get name with
    | none => simp [view, howner, CiMap.get_insert, h]
    | some existing =>
        by_cases hne : existing = entry.2
        · simp [view, howner, hne]
        · simp [view, howner, hne, alternates_push, h]
  · rw [if_neg h]
    cases s.uris.get entry.1 with
    | none => simp [view, CiMap.get_insert, h]
    | some existing =>
        by_cases hne : existing = entry.2
        · simp [hne]
        · simp [view, hne, alternates_push, h]

theorem view_mergeReplace (s : ClassDeclarations Class) (entry : String × String)
    (name : String) :
    view (s.mergeReplace entry) name =
      if fold entry.1 = fold name then (view s name).mergeReplace entry.2 else view s name := by
  unfold mergeReplace NameState.mergeReplace NameState.displaceOwner
  by_cases h : fold entry.1 = fold name
  · rw [if_pos h, s.uris.get_congr h]
    cases howner : s.uris.get name with
    | none => simp [view, howner, CiMap.get_insert, h]
    | some previous =>
        by_cases hne : previous = entry.2
        · simp [view, howner, hne, CiMap.get_insert, h]
        · simp [view, howner, hne, CiMap.get_insert, alternates_push, h]
  · rw [if_neg h]
    cases s.uris.get entry.1 with
    | none => simp [view, CiMap.get_insert, h]
    | some previous =>
        by_cases hne : previous = entry.2
        · simp [view, hne, CiMap.get_insert, h]
        · simp [view, hne, CiMap.get_insert, alternates_push, h]

/-! ## Loops over names -/

/-- A loop over names that fold apart treats each of them once. -/
theorem view_foldl_names {σ τ : Type} (look : σ → String → τ) {step : σ → String → σ}
    {f : τ → τ}
    (hstep : ∀ s fqn name,
      look (step s fqn) name = if fold fqn = fold name then f (look s name) else look s name)
    {names : List String} (hdistinct : (names.map fold).Nodup) (s : σ) (name : String) :
    look (names.foldl step s) name =
      if fold name ∈ names.map fold then f (look s name) else look s name := by
  induction names generalizing s with
  | nil => simp
  | cons fqn rest ih =>
      rw [List.map_cons, List.nodup_cons] at hdistinct
      rw [List.foldl_cons, ih hdistinct.2, hstep]
      by_cases h : fold fqn = fold name
      · have hrest : fold name ∉ rest.map fold := h ▸ hdistinct.1
        simp only [if_neg hrest, List.map_cons, List.mem_cons, h, true_or, if_true]
      · have hne : fold name ≠ fold fqn := fun heq => h heq.symm
        simp only [if_neg h, List.map_cons, List.mem_cons, hne, false_or]

/-- A loop over the entries of a scan treats a name once for each of them. -/
theorem view_foldl_entries {g : String → NameState Class → NameState Class}
    {step : ClassDeclarations Class → String × String → ClassDeclarations Class}
    (hstep : ∀ s entry name,
      view (step s entry) name =
        if fold entry.1 = fold name then g entry.2 (view s name) else view s name)
    (classmap : List (String × String)) (s : ClassDeclarations Class) (name : String) :
    view (classmap.foldl step s) name =
      (urisOf classmap name).foldl (fun st uri => g uri st) (view s name) := by
  induction classmap generalizing s with
  | nil => rfl
  | cons entry rest ih =>
      rw [List.foldl_cons, ih, hstep]
      unfold urisOf
      by_cases h : fold entry.1 = fold name
      · simp [h]
      · simp [h]

theorem fst_popAlternate (alternates : CiMap (List String)) (fqn : String) :
    (popAlternate alternates fqn).1 = ((alternates.get fqn).getD []).getLast? := by
  unfold popAlternate
  cases alternates.get fqn with
  | none => rfl
  | some uris =>
      by_cases h : uris.dropLast.isEmpty = true
      · simp [h]
      · simp [h]

theorem alternates_pop (alternates : CiMap (List String)) (fqn name : String) :
    ((popAlternate alternates fqn).2.get name).getD [] =
      if fold fqn = fold name then ((alternates.get name).getD []).dropLast
      else (alternates.get name).getD [] := by
  unfold popAlternate
  by_cases h : fold fqn = fold name
  · rw [if_pos h, alternates.get_congr h]
    cases hget : alternates.get name with
    | none => simp [hget]
    | some uris =>
        by_cases hempty : uris.dropLast.isEmpty = true
        · simp [CiMap.get_remove, h, List.isEmpty_iff.mp hempty]
        · simp [hempty, CiMap.get_set, h, hget]
  · rw [if_neg h]
    cases alternates.get fqn with
    | none => rfl
    | some uris =>
        by_cases hempty : uris.dropLast.isEmpty = true
        · simp [hempty, CiMap.get_remove, h]
        · simp [hempty, CiMap.get_set, h]

/-- Taking an alternate of `fqn` as its owner. -/
theorem view_takeAlternate (s : ClassDeclarations Class) (fqn name : String) :
    view (s.takeAlternate fqn) name =
      if fold fqn = fold name then (view s name).promote else view s name := by
  unfold takeAlternate
  have hfst := fst_popAlternate s.alternates fqn
  have hsnd := alternates_pop s.alternates fqn name
  generalize popAlternate s.alternates fqn = popped at hfst hsnd
  obtain ⟨taken, left⟩ := popped
  simp only at hfst hsnd
  unfold NameState.promote
  by_cases h : fold fqn = fold name
  · rw [if_pos h] at hsnd
    rw [if_pos h]
    rw [s.alternates.get_congr h] at hfst
    cases taken with
    | none =>
        have hlast : (view s name).alternates.getLast? = none := hfst.symm
        have hnil : (s.alternates.get name).getD [] = [] := List.getLast?_eq_none_iff.mp hlast
        rw [hnil] at hsnd
        simp only [hlast]
        ext1
        · rfl
        · rfl
        · rfl
        · show (left.get name).getD [] = (s.alternates.get name).getD []
          rw [hnil, hsnd]
          rfl
    | some uri =>
        have hlast : (view s name).alternates.getLast? = some uri := hfst.symm
        simp only [hlast]
        ext1
        · simp [view, CiMap.get_insert, h]
        · rfl
        · rfl
        · exact hsnd
  · rw [if_neg h] at hsnd
    rw [if_neg h]
    cases taken with
    | none =>
        ext1
        · rfl
        · rfl
        · rfl
        · exact hsnd
    | some uri =>
        ext1
        · simp [view, CiMap.get_insert, h]
        · rfl
        · rfl
        · exact hsnd

theorem view_promoteDropped (w : Withdrawn Class) (fqn name : String) :
    view (promoteDropped w fqn).decls name =
      if fold fqn = fold name then (view w.decls name).promote else view w.decls name := by
  rw [← view_takeAlternate]
  unfold promoteDropped
  cases (popAlternate w.decls.alternates fqn).1 with
  | none => rfl
  | some uri => rfl

theorem view_promotePurged (s : ClassDeclarations Class) (fqn name : String) :
    view (promotePurged s fqn) name =
      if fold fqn = fold name then (view s name).promoteOrphan else view s name := by
  unfold promotePurged NameState.promoteOrphan
  by_cases howner : (s.uris.get fqn).isSome = true
  · rw [if_pos howner]
    by_cases h : fold fqn = fold name
    · have hsome : (view s name).owner.isNone = false := by
        rw [s.uris.get_congr h] at howner
        simpa [view, Option.isNone_iff_eq_none, Option.isSome_iff_ne_none] using howner
      rw [if_pos h, hsome]
      rfl
    · rw [if_neg h]
  · rw [if_neg howner, view_takeAlternate]
    by_cases h : fold fqn = fold name
    · have hnone : (view s name).owner.isNone = true := by
        rw [s.uris.get_congr h] at howner
        simpa [view, Option.isNone_iff_eq_none, Option.isSome_iff_ne_none] using howner
      rw [if_pos h, if_pos h, hnone]
      rfl
    · rw [if_neg h, if_neg h]

theorem view_withdrawDuplicates (gone : String → Bool) (w : Withdrawn Class)
    (fqn name : String) :
    view (withdrawDuplicates gone w fqn).decls name =
      if fold fqn = fold name then (view w.decls name).withdrawRecord gone
      else view w.decls name := by
  have hstate : (withdrawDuplicates gone w fqn).decls =
      publishWinner
        { w.decls with
          dupes := match w.decls.dupes.get fqn with
            | some decls => w.decls.dupes.set fqn (decls.filter fun uri _ => !gone uri)
            | none => w.decls.dupes } fqn := by
    unfold withdrawDuplicates
    dsimp only
    split
    · split
      · rfl
      · rfl
    · rfl
  rw [hstate, view_publishWinner]
  unfold NameState.withdrawRecord
  by_cases h : fold fqn = fold name
  · rw [if_pos h, if_pos h, w.decls.dupes.get_congr h]
    cases hdecls : w.decls.dupes.get name with
    | none => simp [view, hdecls]
    | some decls => simp [view, hdecls, CiMap.get_set, h]
  · rw [if_neg h, if_neg h]
    cases w.decls.dupes.get fqn with
    | none => rfl
    | some decls => simp [view, CiMap.get_set, h]

/-! ## Withdrawing files -/

theorem mem_affected (s : ClassDeclarations Class) (gone : String → Bool) (name : String) :
    fold name ∈ (s.affected gone).map fold ↔ (view s name).affected gone = true := by
  unfold affected NameState.affected
  constructor
  · intro h
    obtain ⟨fqn, hfqn, hfold⟩ := List.mem_map.mp h
    obtain ⟨⟨spelling, decls⟩, hentry, rfl⟩ := List.mem_map.mp hfqn
    obtain ⟨hmem, hany⟩ := List.mem_filter.mp hentry
    have hget := (s.dupes.exists_entry_iff name decls).mpr ⟨spelling, hfold, hmem⟩
    simpa [view, hget] using hany
  · intro h
    cases hget : s.dupes.get name with
    | none => simp [view, hget] at h
    | some decls =>
        simp only [view, hget] at h
        obtain ⟨spelling, hfold, hmem⟩ := (s.dupes.exists_entry_iff name decls).mp hget
        apply List.mem_map.mpr
        refine ⟨spelling, List.mem_map.mpr ⟨(spelling, decls), ?_, rfl⟩, hfold⟩
        exact List.mem_filter.mpr ⟨hmem, h⟩

theorem mem_ownedBy (s : ClassDeclarations Class) (gone : String → Bool) (name : String) :
    fold name ∈ (s.ownedBy gone).map fold ↔ (view s name).owner.any gone = true := by
  unfold ownedBy
  constructor
  · intro h
    obtain ⟨fqn, hfqn, hfold⟩ := List.mem_map.mp h
    obtain ⟨⟨spelling, owner⟩, hentry, rfl⟩ := List.mem_map.mp hfqn
    obtain ⟨hmem, hgone⟩ := List.mem_filter.mp hentry
    have hget := (s.uris.exists_entry_iff name owner).mpr ⟨spelling, hfold, hmem⟩
    simpa [view, hget] using hgone
  · intro h
    cases hget : s.uris.get name with
    | none => simp [view, hget] at h
    | some owner =>
        simp only [view, hget, Option.any_some] at h
        obtain ⟨spelling, hfold, hmem⟩ := (s.uris.exists_entry_iff name owner).mp hget
        apply List.mem_map.mpr
        refine ⟨spelling, List.mem_map.mpr ⟨(spelling, owner), ?_, rfl⟩, hfold⟩
        exact List.mem_filter.mpr ⟨hmem, h⟩

theorem nodup_filter_entries {ν : Type} (m : CiMap ν) (keep : String × ν → Bool) :
    (((m.entries.filter keep).map Prod.fst).map fold).Nodup := by
  rw [List.map_map]
  exact (m.nodup_entries).sublist (List.filter_sublist.map _)

theorem nodup_affected (s : ClassDeclarations Class) (gone : String → Bool) :
    ((s.affected gone).map fold).Nodup :=
  nodup_filter_entries s.dupes _

theorem nodup_ownedBy (s : ClassDeclarations Class) (gone : String → Bool) :
    ((s.ownedBy gone).map fold).Nodup :=
  nodup_filter_entries s.uris _

theorem dropped_sublist (gone : String → Bool) (names : List String) (w : Withdrawn Class) :
    (names.foldl (withdrawDuplicates gone) w).dropped.Sublist (w.dropped ++ names) := by
  induction names generalizing w with
  | nil => simp
  | cons fqn rest ih =>
      apply (ih (withdrawDuplicates gone w fqn)).trans
      unfold withdrawDuplicates
      dsimp only
      split
      · split
        · exact (List.sublist_cons_self fqn rest).append_left w.dropped
        · exact (List.sublist_cons_self fqn rest).append_left w.dropped
      · rw [List.append_assoc]
        exact List.Sublist.refl _

theorem mem_withdrawDuplicates_dropped (gone : String → Bool) (w : Withdrawn Class)
    (fqn name : String) :
    fold name ∈ (withdrawDuplicates gone w fqn).dropped.map fold ↔
      fold name ∈ w.dropped.map fold ∨
        (fold fqn = fold name ∧ ((view w.decls name).withdrawRecord gone).owner = none) := by
  have hview := view_withdrawDuplicates gone w fqn name
  by_cases h : fold fqn = fold name
  · rw [if_pos h] at hview
    rw [← hview]
    have howner : (view (withdrawDuplicates gone w fqn).decls name).owner =
        (withdrawDuplicates gone w fqn).decls.uris.get fqn :=
      ((withdrawDuplicates gone w fqn).decls.uris.get_congr h).symm
    rw [howner]
    unfold withdrawDuplicates
    dsimp only
    split
    · rename_i hget
      split
      · simp [hget]
      · simp [hget]
    · rename_i hget
      simp [hget, h]
  · unfold withdrawDuplicates
    dsimp only
    split
    · split
      · simp [h]
      · simp [h]
    · simp [h, Ne.symm h]

theorem mem_dropped (gone : String → Bool) {names : List String}
    (hdistinct : (names.map fold).Nodup) (w : Withdrawn Class) (name : String) :
    fold name ∈ (names.foldl (withdrawDuplicates gone) w).dropped.map fold ↔
      fold name ∈ w.dropped.map fold ∨
        (fold name ∈ names.map fold ∧
          ((view w.decls name).withdrawRecord gone).owner = none) := by
  induction names generalizing w with
  | nil => simp
  | cons fqn rest ih =>
      rw [List.map_cons, List.nodup_cons] at hdistinct
      rw [List.foldl_cons, ih hdistinct.2, mem_withdrawDuplicates_dropped,
        view_withdrawDuplicates]
      by_cases h : fold fqn = fold name
      · have hrest : fold name ∉ rest.map fold := h ▸ hdistinct.1
        simp [h, hrest]
      · simp [h, Ne.symm h]

theorem get_foldl_remove {ν : Type} (names : List String) (m : CiMap ν) (name : String) :
    (names.foldl CiMap.remove m).get name =
      if fold name ∈ names.map fold then none else m.get name := by
  induction names generalizing m with
  | nil => simp
  | cons fqn rest ih =>
      rw [List.foldl_cons, ih, CiMap.get_remove]
      by_cases hrest : fold name ∈ rest.map fold
      · simp [hrest]
      · by_cases h : fold fqn = fold name
        · simp [hrest, h]
        · simp [hrest, h, Ne.symm h]

theorem getD_retainUris (alternates : CiMap (List String)) (gone : String → Bool)
    (name : String) :
    ((alternates.retainMap (retainUris gone)).get name).getD [] =
      ((alternates.get name).getD []).filter fun uri => !gone uri := by
  rw [CiMap.get_retainMap]
  cases alternates.get name with
  | none => rfl
  | some uris =>
      simp only [Option.bind_some, retainUris, Option.getD_some]
      by_cases hempty : (uris.filter fun uri => !gone uri).isEmpty = true
      · rw [if_pos hempty, List.isEmpty_iff.mp hempty]
        rfl
      · rw [if_neg hempty]
        rfl

/-- The first loop of `withdraw_uris` at one name. -/
theorem view_affected_loop (s : ClassDeclarations Class) (gone : String → Bool) (name : String) :
    view ((s.affected gone).foldl (withdrawDuplicates gone) ⟨s, [], []⟩).decls name =
      (view s name).afterRecord gone := by
  have hloop := view_foldl_names (fun (w : Withdrawn Class) name => view w.decls name)
    (view_withdrawDuplicates gone) (nodup_affected s gone) ⟨s, [], []⟩ name
  refine hloop.trans ?_
  unfold NameState.afterRecord
  by_cases h : (view s name).affected gone = true
  · rw [if_pos h, if_pos ((mem_affected s gone name).mpr h)]
  · rw [if_neg h, if_neg (fun hmem => h ((mem_affected s gone name).mp hmem))]

/-- The names `withdraw_uris` drops before it looks at the alternates. -/
def droppedNames (s : ClassDeclarations Class) (gone : String → Bool) : List String :=
  let w := (s.affected gone).foldl (withdrawDuplicates gone) ⟨s, [], []⟩
  w.dropped ++ w.decls.ownedBy gone

theorem mem_droppedNames (s : ClassDeclarations Class) (gone : String → Bool) (name : String) :
    fold name ∈ (s.droppedNames gone).map fold ↔ (view s name).dropped gone = true := by
  unfold droppedNames NameState.dropped
  rw [List.map_append, List.mem_append, mem_dropped gone (nodup_affected s gone),
    mem_ownedBy, view_affected_loop, mem_affected, Bool.or_eq_true, Bool.and_eq_true]
  simp only [List.map_nil, List.not_mem_nil, false_or, Option.isNone_iff_eq_none]
  apply or_congr_left
  apply and_congr_right
  intro haffected
  rw [NameState.afterRecord, if_pos haffected]

theorem nodup_droppedNames (s : ClassDeclarations Class) (gone : String → Bool) :
    ((s.droppedNames gone).map fold).Nodup := by
  unfold droppedNames
  rw [List.map_append, List.nodup_append]
  have hsub := dropped_sublist gone (s.affected gone) (⟨s, [], []⟩ : Withdrawn Class)
  refine ⟨?_, nodup_ownedBy _ gone, ?_⟩
  · exact (nodup_affected s gone).sublist (hsub.map fold)
  · -- a name the loop dropped has no owner left, so none in `gone`
    intro a ha b hb hab
    subst hab
    obtain ⟨name, hname, rfl⟩ := List.mem_map.mp ha
    have hnone := (mem_dropped gone (nodup_affected s gone) _ name).mp ha
    have howner := (mem_ownedBy _ gone name).mp hb
    rw [view_affected_loop] at howner
    rcases hnone with hnil | ⟨haff, hnone⟩
    · exact absurd hnil (by simp)
    · have haffected := (mem_affected s gone name).mp haff
      rw [NameState.afterRecord, if_pos haffected, hnone] at howner
      exact absurd howner (by simp)

/-- The purge after the first loop. -/
theorem view_purgeFiles (s : ClassDeclarations Class) (gone : String → Bool) (name : String) :
    view (((s.affected gone).foldl (withdrawDuplicates gone) ⟨s, [], []⟩).decls.purgeFiles gone
        (s.droppedNames gone)) name =
      if (view s name).dropped gone then
        { (view s name).afterRecord gone with owner := none, parsed := none }
      else (view s name).afterRecord gone := by
  have hloop := view_affected_loop s gone name
  have hdropped := mem_droppedNames s gone name
  generalize ((s.affected gone).foldl (withdrawDuplicates gone) ⟨s, [], []⟩).decls = next at hloop
  rw [← hloop]
  by_cases h : (view s name).dropped gone = true
  · rw [if_pos h]
    ext1
    · show (next.uris.retainMap _).get name = none
      rw [CiMap.get_retainMap]
      cases howner : next.uris.get name with
      | none => rfl
      | some owner =>
          have hgone : gone owner = true := by
            unfold NameState.dropped at h
            rw [← hloop] at h
            simpa [view, howner] using h
          simp [hgone]
    · show ((s.droppedNames gone).foldl CiMap.remove next.classes).get name = none
      rw [get_foldl_remove, if_pos (hdropped.mpr h)]
    · rfl
    · rfl
  · rw [if_neg h]
    ext1
    · show (next.uris.retainMap _).get name = next.uris.get name
      rw [CiMap.get_retainMap]
      cases howner : next.uris.get name with
      | none => rfl
      | some owner =>
          have hgone : gone owner = false := by
            unfold NameState.dropped at h
            rw [← hloop] at h
            simpa [view, howner] using h
          simp [hgone]
    · show ((s.droppedNames gone).foldl CiMap.remove next.classes).get name = _
      rw [get_foldl_remove, if_neg (fun hmem => h (hdropped.mp hmem))]
      rfl
    · rfl
    · rfl

/-- The last loop. -/
theorem view_fallBack (s : ClassDeclarations Class) (gone : String → Bool)
    {dropped : List String} (hdistinct : (dropped.map fold).Nodup) (promoted : List String)
    (name : String) :
    view (s.fallBack gone dropped promoted).decls name =
      if fold name ∈ dropped.map fold then
        NameState.promote { view s name with
          alternates := (view s name).alternates.filter fun uri => !gone uri }
      else { view s name with
          alternates := (view s name).alternates.filter fun uri => !gone uri } := by
  unfold fallBack
  by_cases hempty : s.alternates.isEmpty = true
  · -- without a single alternate nothing is filtered and nothing is promoted
    rw [if_pos hempty]
    have hnil : (view s name).alternates = [] := by
      show (s.alternates.get name).getD [] = []
      rw [CiMap.get_of_isEmpty hempty]
      rfl
    have hsame : { view s name with
        alternates := (view s name).alternates.filter fun uri => !gone uri } = view s name := by
      ext1
      · rfl
      · rfl
      · rfl
      · simp [hnil]
    rw [hsame]
    by_cases h : fold name ∈ dropped.map fold
    · rw [if_pos h, NameState.promote, hnil]
      rfl
    · rw [if_neg h]
  · rw [if_neg hempty]
    have hloop := view_foldl_names (fun (w : Withdrawn Class) name => view w.decls name)
      view_promoteDropped hdistinct
    refine (hloop _ name).trans ?_
    have hkept : view { s with
        alternates := s.alternates.retainMap (retainUris gone) } name =
        { view s name with
          alternates := (view s name).alternates.filter fun uri => !gone uri } := by
      ext1
      · rfl
      · rfl
      · rfl
      · exact getD_retainUris s.alternates gone name
    simp only [hkept]

theorem view_withdrawUris (s : ClassDeclarations Class) (gone : String → Bool) (name : String) :
    view (s.withdrawUris gone).decls name = (view s name).withdrawUris gone := by
  refine (view_fallBack _ gone (nodup_droppedNames s gone) _ name).trans ?_
  have hpurged : view (((s.affected gone).foldl (withdrawDuplicates gone)
      ⟨s, [], []⟩).decls.purgeFiles gone (s.droppedNames gone)) name = _ :=
    view_purgeFiles s gone name
  unfold droppedNames at hpurged
  simp only [hpurged]
  unfold NameState.withdrawUris
  by_cases h : (view s name).dropped gone = true
  · simp only [if_pos ((mem_droppedNames s gone name).mpr h), if_pos h]
  · simp only [if_neg (fun hmem => h ((mem_droppedNames s gone name).mp hmem)), if_neg h]

/-! ## Rescans -/

theorem owner_foldl_mergeReplace (uris : List String) (st : NameState Class)
    (howner : st.owner.isSome = true) :
    (uris.foldl (fun st uri => st.mergeReplace uri) st).owner.isSome = true := by
  induction uris generalizing st with
  | nil => exact howner
  | cons uri rest ih => exact ih (st.mergeReplace uri) rfl

/-- A name that a merge leaves without an owner is not in the scan. -/
theorem mergeReplace_owner_none {uris : List String} {st : NameState Class}
    (h : (uris.foldl (fun st uri => st.mergeReplace uri) st).owner.isNone = true) : uris = [] := by
  cases uris with
  | nil => rfl
  | cons uri rest =>
      have hsome := owner_foldl_mergeReplace rest (st.mergeReplace uri) rfl
      rw [List.foldl_cons] at h
      simp [Option.isNone_iff_eq_none.mp h] at hsome

theorem view_kept (s : ClassDeclarations Class) (inTree : String → Bool) (name : String) :
    view { s with
        uris := s.uris.retainMap fun owner => if inTree owner then none else some owner
        alternates := s.alternates.retainMap (retainUris inTree) } name =
      (view s name).purge inTree := by
  ext1
  · show (s.uris.retainMap _).get name = (s.uris.get name).filter fun uri => !inTree uri
    rw [CiMap.get_retainMap]
    cases s.uris.get name with
    | none => rfl
    | some owner =>
        by_cases h : inTree owner = true
        · simp [h, Option.filter]
        · simp [h, Option.filter]
  · rfl
  · rfl
  · exact getD_retainUris s.alternates inTree name

theorem view_replaceTree (s : ClassDeclarations Class) (inTree : String → Bool)
    (classmap : List (String × String)) (name : String) :
    view (s.replaceTree inTree classmap) name =
      let merged := (urisOf classmap name).foldl (fun st uri => st.mergeReplace uri)
        ((view s name).purge inTree)
      if (view s name).owner.any inTree then merged.promoteOrphan else merged := by
  unfold replaceTree
  have hmerged := view_foldl_entries view_mergeReplace classmap
    { s with
      uris := s.uris.retainMap fun owner => if inTree owner then none else some owner
      alternates := s.alternates.retainMap (retainUris inTree) } name
  rw [view_kept] at hmerged
  by_cases hempty : s.alternates.isEmpty = true
  · -- the purge left no alternate that could take a name over
    simp only [hempty, if_true, List.foldl_nil]
    rw [hmerged]
    by_cases howned : (view s name).owner.any inTree = true
    · rw [if_pos howned]
      unfold NameState.promoteOrphan
      by_cases horphan : ((urisOf classmap name).foldl (fun st uri => st.mergeReplace uri)
          ((view s name).purge inTree)).owner.isNone = true
      · rw [if_pos horphan, mergeReplace_owner_none horphan, List.foldl_nil, NameState.promote]
        have hnil : ((view s name).purge inTree).alternates = [] := by
          show ((s.alternates.get name).getD []).filter _ = []
          rw [CiMap.get_of_isEmpty hempty]
          rfl
        rw [hnil]
        rfl
      · rw [if_neg horphan]
    · rw [if_neg howned]
  · simp only [hempty]
    have hloop := view_foldl_names view view_promotePurged (nodup_ownedBy s inTree)
      (classmap.foldl mergeReplace
        { s with
          uris := s.uris.retainMap fun owner => if inTree owner then none else some owner
          alternates := s.alternates.retainMap (retainUris inTree) }) name
    refine hloop.trans ?_
    rw [hmerged]
    by_cases howned : (view s name).owner.any inTree = true
    · rw [if_pos ((mem_ownedBy s inTree name).mpr howned), if_pos howned]
    · rw [if_neg (fun hmem => howned ((mem_ownedBy s inTree name).mp hmem)), if_neg howned]

theorem view_rescan (s : ClassDeclarations Class) (inTree : String → Bool)
    (classmap : List (String × String)) (name : String) :
    view (s.rescan inTree classmap) name =
      (view s name).rescan inTree (urisOf classmap name) := by
  have htree := view_replaceTree s inTree classmap name
  unfold NameState.rescan
  simp only at htree ⊢
  rw [← htree]
  ext1
  · rfl
  · exact CiMap.get_empty name
  · exact CiMap.get_empty name
  · rfl

theorem view_apply (s : ClassDeclarations Class) (op : ClassOp Class) (name : String) :
    view (s.apply op) name = (view s name).apply name op := by
  cases op with
  | declare fqn uri cls => exact view_declare s fqn uri name cls
  | withdraw fqn uri => exact view_withdraw s fqn uri name
  | withdrawUris uris => exact view_withdrawUris s uris.contains name
  | noteDiscovered fqn uri => exact view_noteDiscovered s fqn uri name
  | mergeScan classmap => exact view_foldl_entries view_mergeKeep classmap s name
  | rescan inTree classmap => exact view_rescan s inTree classmap name

/-- After any run the maps hold for a name what the run makes of that name. -/
theorem view_after (ops : List (ClassOp Class)) (name : String) :
    view (after ops) name = run (NameState.apply name) NameState.empty ops := by
  have h : ∀ s : ClassDeclarations Class,
      view (run apply s ops) name = run (NameState.apply name) (view s name) ops := by
    induction ops with
    | nil => exact fun s => rfl
    | cons op rest ih =>
        intro s
        rw [run_cons, run_cons, ih, view_apply]
  rw [after, h]
  congr 1

end ClassDeclarations

end PhpantomLsp.Index
