import PhpantomLsp.Index.CiMap
import PhpantomLsp.Lib.Runs

/-!
# The class declaration indexes

`ClassDeclarations` holds the four maps that record where a class is declared:
`uris` (the owner of a name), `classes` (its parsed class), `dupes` (every
parsed declaration of a name that two files declare) and `alternates` (the
other files discovery found).

Every operation treats every name on its own.  `NameState` is what the four
maps hold for one name, and the lemmas `view_…` say what each operation does
to it; the results about owners and alternates are proved there.
-/

namespace PhpantomLsp.Index

open PhpantomLsp.Lib

variable {Class : Type}

structure ClassDeclarations (Class : Type) where
  uris : CiMap String
  classes : CiMap Class
  dupes : CiMap (Table String Class)
  alternates : CiMap (List String)

/-- What `declare` reports. -/
structure Declared where
  won : Bool
  reowned : Bool
deriving DecidableEq, Repr

/-- What `withdraw_uris` reports, with the maps it leaves. -/
structure Withdrawn (Class : Type) where
  decls : ClassDeclarations Class
  dropped : List String
  promoted : List String

/-- Put `uri` at the end unless it is listed. -/
def pushUri (uris : List String) (uri : String) : List String :=
  if uri ∈ uris then uris else uris ++ [uri]

/-- Keep the URIs outside `gone`, and nothing when none is left. -/
def retainUris (gone : String → Bool) (uris : List String) : Option (List String) :=
  if (uris.filter fun uri => !gone uri).isEmpty then none
  else some (uris.filter fun uri => !gone uri)

def pushAlternate (alternates : CiMap (List String)) (fqn uri : String) : CiMap (List String) :=
  match alternates.get fqn with
  | some uris => alternates.set fqn (pushUri uris uri)
  | none => alternates.insert fqn [uri]

/-- `pop_alternate`: the file taken, and the map without it. -/
def popAlternate (alternates : CiMap (List String)) (fqn : String) :
    Option String × CiMap (List String) :=
  match alternates.get fqn with
  | none => (none, alternates)
  | some uris =>
      if uris.dropLast.isEmpty then (uris.getLast?, alternates.remove fqn)
      else (uris.getLast?, alternates.set fqn uris.dropLast)

namespace ClassDeclarations

def empty : ClassDeclarations Class := ⟨CiMap.empty, CiMap.empty, CiMap.empty, CiMap.empty⟩

/-- Mirror the lowest-sorting declaration into the lookups, and forget a record
that holds at most one. -/
def publishWinner (s : ClassDeclarations Class) (fqn : String) : ClassDeclarations Class :=
  match s.dupes.get fqn with
  | none => s
  | some decls =>
      let published :=
        match decls.toList.head? with
        | some (uri, cls) =>
            { s with uris := s.uris.insert fqn uri, classes := s.classes.insert fqn cls }
        | none => { s with uris := s.uris.remove fqn, classes := s.classes.remove fqn }
      if decls.size ≤ 1 then { published with dupes := published.dupes.remove fqn }
      else published

/-- The record of `fqn`, skipping the lookup while no name is declared twice. -/
def recordOf (s : ClassDeclarations Class) (fqn : String) : Option (Table String Class) :=
  if s.dupes.isEmpty then none else s.dupes.get fqn

/-- The parsed declaration of another file that `uri` displaces, with its
file. -/
def displacedBy (s : ClassDeclarations Class) (fqn uri : String) : Option (String × Class) :=
  match s.classes.get fqn, s.uris.get fqn with
  | some cls, some owner => if owner ≠ uri then some (owner, cls) else none
  | _, _ => none

def declare (s : ClassDeclarations Class) (fqn uri : String) (cls : Class) :
    Declared × ClassDeclarations Class :=
  match s.recordOf fqn with
  | some decls =>
      let next := publishWinner { s with dupes := s.dupes.set fqn (decls.insert uri cls) } fqn
      let owner := next.uris.get fqn
      let previous := s.uris.get fqn
      (⟨owner == some uri, previous.isSome && previous != owner⟩, next)
  | none =>
      match s.displacedBy fqn uri with
      | some (owner, displaced) =>
          let decls := (Std.ExtTreeMap.insert ∅ owner displaced).insert uri cls
          let next := publishWinner { s with dupes := s.dupes.insert fqn decls } fqn
          (⟨next.uris.get fqn == some uri, true⟩, next)
      | none =>
          let alternates :=
            match s.uris.get fqn with
            | some previous =>
                if previous ≠ uri then pushAlternate s.alternates fqn previous else s.alternates
            | none => s.alternates
          (⟨true, false⟩,
            { s with
              uris := s.uris.insert fqn uri
              classes := s.classes.insert fqn cls
              alternates := alternates })

def withdraw (s : ClassDeclarations Class) (fqn uri : String) : ClassDeclarations Class :=
  match s.recordOf fqn with
  | some decls => publishWinner { s with dupes := s.dupes.set fqn (decls.erase uri) } fqn
  | none =>
      if s.uris.get fqn = some uri then
        { s with uris := s.uris.remove fqn, classes := s.classes.remove fqn }
      else s

def noteDiscovered (s : ClassDeclarations Class) (fqn uri : String) : ClassDeclarations Class :=
  if (s.classes.get fqn).isSome then
    if s.uris.get fqn ≠ some uri then
      { s with alternates := pushAlternate s.alternates fqn uri }
    else s
  else
    match s.uris.get fqn with
    | some previous =>
        if previous ≠ uri then
          { s with
            uris := s.uris.insert fqn uri
            alternates := pushAlternate s.alternates fqn previous }
        else { s with uris := s.uris.insert fqn uri }
    | none => { s with uris := s.uris.insert fqn uri }

/-- The names `withdraw_uris` finds with a parsed declaration in `gone`. -/
def affected (s : ClassDeclarations Class) (gone : String → Bool) : List String :=
  (s.dupes.entries.filter fun entry => entry.2.keys.any gone).map Prod.fst

/-- The first loop of `withdraw_uris`. -/
def withdrawDuplicates (gone : String → Bool) (w : Withdrawn Class) (fqn : String) :
    Withdrawn Class :=
  let previous := w.decls.uris.get fqn
  let dupes :=
    match w.decls.dupes.get fqn with
    | some decls => w.decls.dupes.set fqn (decls.filter fun uri _ => !gone uri)
    | none => w.decls.dupes
  let next := publishWinner { w.decls with dupes := dupes } fqn
  match next.uris.get fqn with
  | some owner =>
      if previous ≠ some owner then ⟨next, w.dropped, w.promoted ++ [fqn]⟩
      else ⟨next, w.dropped, w.promoted⟩
  | none => ⟨next, w.dropped ++ [fqn], w.promoted⟩

/-- The names whose owner is in `gone`. -/
def ownedBy (s : ClassDeclarations Class) (gone : String → Bool) : List String :=
  (s.uris.entries.filter fun entry => gone entry.2).map Prod.fst

/-- Hand a name without an owner to a file discovery found. -/
def takeAlternate (s : ClassDeclarations Class) (fqn : String) : ClassDeclarations Class :=
  match popAlternate s.alternates fqn with
  | (some uri, alternates) => { s with uris := s.uris.insert fqn uri, alternates := alternates }
  | (none, alternates) => { s with alternates := alternates }

/-- The last loop of `withdraw_uris`, over the dropped names. -/
def promoteDropped (w : Withdrawn Class) (fqn : String) : Withdrawn Class :=
  match (popAlternate w.decls.alternates fqn).1 with
  | some _ => ⟨w.decls.takeAlternate fqn, w.dropped, w.promoted ++ [fqn]⟩
  | none => ⟨w.decls.takeAlternate fqn, w.dropped ++ [fqn], w.promoted⟩

/-- Drop what still belongs to a file in `gone`, and the classes of `dropped`. -/
def purgeFiles (s : ClassDeclarations Class) (gone : String → Bool) (dropped : List String) :
    ClassDeclarations Class :=
  { s with
    uris := s.uris.retainMap fun owner => if gone owner then none else some owner
    classes := dropped.foldl CiMap.remove s.classes }

/-- The end of `withdraw_uris`: the alternates lose the files in `gone`, and a
name whose last parsed declaration went falls to one that is left. -/
def fallBack (s : ClassDeclarations Class) (gone : String → Bool)
    (dropped promoted : List String) : Withdrawn Class :=
  if s.alternates.isEmpty then ⟨s, dropped, promoted⟩
  else
    dropped.foldl promoteDropped
      ⟨{ s with alternates := s.alternates.retainMap (retainUris gone) }, [], promoted⟩

def withdrawUris (s : ClassDeclarations Class) (gone : String → Bool) : Withdrawn Class :=
  let w := (s.affected gone).foldl (withdrawDuplicates gone) ⟨s, [], []⟩
  let dropped := w.dropped ++ w.decls.ownedBy gone
  fallBack (w.decls.purgeFiles gone dropped) gone dropped w.promoted

/-! ## Discovery scans -/

/-- One class of `merge_into` that keeps what is indexed. -/
def mergeKeep (s : ClassDeclarations Class) (entry : String × String) : ClassDeclarations Class :=
  match s.uris.get entry.1 with
  | none => { s with uris := s.uris.insert entry.1 entry.2 }
  | some existing =>
      if existing ≠ entry.2 then
        { s with alternates := pushAlternate s.alternates entry.1 entry.2 }
      else s

/-- One class of `merge_into` that replaces what is indexed. -/
def mergeReplace (s : ClassDeclarations Class) (entry : String × String) :
    ClassDeclarations Class :=
  let next := { s with uris := s.uris.insert entry.1 entry.2 }
  match s.uris.get entry.1 with
  | some previous =>
      if previous ≠ entry.2 then
        { next with alternates := pushAlternate s.alternates entry.1 previous }
      else next
  | none => next

/-- The classes of `merge_scan`, in the order the scan's map is walked. -/
def mergeScan (s : ClassDeclarations Class) (classmap : List (String × String)) :
    ClassDeclarations Class :=
  classmap.foldl mergeKeep s

/-- A purged name that the rescan does not declare falls to another file. -/
def promotePurged (s : ClassDeclarations Class) (fqn : String) : ClassDeclarations Class :=
  if (s.uris.get fqn).isSome then s else s.takeAlternate fqn

/-- The classes of `replace_tree`. -/
def replaceTree (s : ClassDeclarations Class) (inTree : String → Bool)
    (classmap : List (String × String)) : ClassDeclarations Class :=
  let purged := if s.alternates.isEmpty then [] else s.ownedBy inTree
  let kept : ClassDeclarations Class :=
    { s with
      uris := s.uris.retainMap fun owner => if inTree owner then none else some owner
      alternates := s.alternates.retainMap (retainUris inTree) }
  purged.foldl promotePurged (classmap.foldl mergeReplace kept)

/-- `replace_tree`, and the clearing of the parsed declarations with which its
caller ends a rescan. -/
def rescan (s : ClassDeclarations Class) (inTree : String → Bool)
    (classmap : List (String × String)) : ClassDeclarations Class :=
  { s.replaceTree inTree classmap with classes := CiMap.empty, dupes := CiMap.empty }

/-- `alternate_class_uris`. -/
def alternateClassUris (s : ClassDeclarations Class) (fqn : String) : List String :=
  let duplicates := match s.dupes.get fqn with
    | some decls => decls.keys
    | none => []
  ((s.alternates.get fqn).getD []).foldl pushUri duplicates

end ClassDeclarations

inductive ClassOp (Class : Type) where
  | declare (fqn uri : String) (cls : Class)
  | withdraw (fqn uri : String)
  | withdrawUris (uris : List String)
  | noteDiscovered (fqn uri : String)
  | mergeScan (classmap : List (String × String))
  | rescan (inTree : String → Bool) (classmap : List (String × String))

namespace ClassDeclarations

def apply (s : ClassDeclarations Class) : ClassOp Class → ClassDeclarations Class
  | .declare fqn uri cls => (s.declare fqn uri cls).2
  | .withdraw fqn uri => s.withdraw fqn uri
  | .withdrawUris uris => (s.withdrawUris uris.contains).decls
  | .noteDiscovered fqn uri => s.noteDiscovered fqn uri
  | .mergeScan classmap => s.mergeScan classmap
  | .rescan inTree classmap => s.rescan inTree classmap

/-- The indexes after a sequence of operations on empty ones. -/
def after (ops : List (ClassOp Class)) : ClassDeclarations Class := run apply empty ops

end ClassDeclarations

end PhpantomLsp.Index
