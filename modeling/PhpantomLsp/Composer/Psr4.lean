import Mathlib.Algebra.GroupWithZero.Nat
import Mathlib.Data.List.DropRight
import Mathlib.Data.List.Infix

/-!
# PSR-4 placement

Where the project's PSR-4 mappings place a class, and which class the file at a
path should declare.  A path is its text, as a Unix path is: `/` separates, and a
`\` is a character like another until the source turns it into `/`.
-/

namespace PhpantomLsp.Composer

abbrev Text := List Char

/-- `str::strip_prefix` -/
def stripPrefix (start text : Text) : Option Text :=
  if start <+: text then some (text.drop start.length) else none

/-- `str::strip_suffix` -/
def stripSuffix (tail text : Text) : Option Text :=
  if tail <:+ text then some (text.take (text.length - tail.length)) else none

/-- `str::len`, in bytes -/
def byteLen (text : Text) : Nat := (text.map Char.utf8Size).sum

/-- `replace('\\', "/")` -/
def slashes (text : Text) : Text := text.map fun c => if c = '\\' then '/' else c

/-- `replace('/', "\\")` -/
def backslashes (text : Text) : Text := text.map fun c => if c = '/' then '\\' else c

/-- The text after the last `sep`, all of it where there is none. -/
def afterLast (sep : Char) (text : Text) : Text := text.rtakeWhile (· != sep)

/-- The text before the last `sep`, empty where there is none. -/
def beforeLast (sep : Char) (text : Text) : Text := (text.rdropWhile (· != sep)).dropLast

/-! ## Paths -/

/-- `Path::join` -/
def join (base arg : Text) : Text :=
  if arg.head? = some '/' then arg
  else if base = [] ∨ base.getLast? = some '/' then base ++ arg
  else base ++ '/' :: arg

/-- `Path::file_name`: the last component, where it is not `..`. -/
def fileName (path : Text) : Option Text :=
  (((path.splitOn '/').filter fun c => c ≠ [] ∧ c ≠ ['.']).getLast?).filter (· ≠ ['.', '.'])

/-- `Path::extension`: what follows the last dot of the name, where something
stands before it. -/
def extension (path : Text) : Option Text :=
  (fileName path).bind fun name =>
    if '.' ∈ name ∧ beforeLast '.' name ≠ [] then some (afterLast '.' name) else none

def dotPhp : Text := ['.', 'p', 'h', 'p']

/-! ## Mappings -/

/-- One namespace prefix and one of its directories. -/
structure Psr4Mapping where
  namespacePrefix : Text
  basePath : Text
  /-- `normalise_prefix` ends it with a separator, unless it is the root's. -/
  prefixEnds : namespacePrefix = [] ∨ namespacePrefix.getLast? = some '\\'
  /-- No directory is spelled with a trailing `\`: `normalise_path` rewrites it. -/
  baseEnds : basePath.getLast? ≠ some '\\'

def normalisePrefix (namespacePrefix : Text) : Text :=
  if namespacePrefix.getLast? = some '\\' then namespacePrefix
  else if namespacePrefix = [] then []
  else namespacePrefix ++ ['\\']

def normalisePath (path : Text) : Text :=
  let p := slashes path
  if p.getLast? = some '/' ∨ p = [] then p else p ++ ['/']

theorem normalisePrefix_ends (namespacePrefix : Text) :
    normalisePrefix namespacePrefix = [] ∨
      (normalisePrefix namespacePrefix).getLast? = some '\\' := by
  unfold normalisePrefix
  split_ifs with hends hempty
  · exact Or.inr hends
  · exact Or.inl rfl
  · exact Or.inr (by simp)

theorem normalisePath_ends (path : Text) : (normalisePath path).getLast? ≠ some '\\' := by
  simp only [normalisePath]
  split_ifs with h
  · obtain h | h := h
    · rw [h]; decide
    · rw [h]; simp
  · simp

/-- `collect_psr4_entries`: the mappings of one prefix. -/
def collectPsr4Entries (namespacePrefix : Text) (paths : List Text) : List Psr4Mapping :=
  paths.map fun path =>
    ⟨normalisePrefix namespacePrefix, normalisePath path, normalisePrefix_ends _,
      normalisePath_ends _⟩

/-! ## From a class to its file -/

/-- The file one mapping places a class at, where its prefix covers the class. -/
def candidatePath (root : Text) (className : Text) (m : Psr4Mapping) : Option Text :=
  let relative :=
    if m.namespacePrefix = [] then some className else stripPrefix m.namespacePrefix className
  relative.map fun relative => join (join root m.basePath) (slashes relative ++ dotPhp)

def psr4CandidatePaths (mappings : List Psr4Mapping) (root className : Text) : List Text :=
  mappings.filterMap (candidatePath root ((stripPrefix ['\\'] className).getD className))

def psr4PathForClass (mappings : List Psr4Mapping) (root className : Text) : Option Text :=
  (psr4CandidatePaths mappings root className).head?

/-! ## From a file to its class -/

/-- The directory of a mapping in `/` form, as `psr4_mapping_for_path` compares it. -/
def absBaseSlash (root : Text) (m : Psr4Mapping) : Text :=
  let absBase := slashes (join root m.basePath)
  if absBase.getLast? = some '/' then absBase else absBase ++ ['/']

/-- One turn of the loop: a mapping that holds the file replaces the best one so
far when its base path is longer. -/
def better (root fileUnix : Text) (best : Option (Psr4Mapping × Text)) (m : Psr4Mapping) :
    Option (Psr4Mapping × Text) :=
  match stripPrefix (absBaseSlash root m) fileUnix with
  | none => best
  | some remainder =>
    if best.all fun b => byteLen b.1.basePath < byteLen m.basePath then some (m, remainder)
    else best

def psr4MappingForPath (mappings : List Psr4Mapping) (root file : Text) :
    Option (Psr4Mapping × Text) :=
  mappings.foldl (better root (slashes file)) none

/-- The namespace a path below a mapping stands for. -/
def namespaceBelow (m : Psr4Mapping) (withoutExt : Text) : Option Text :=
  let nsFromPath := backslashes withoutExt
  let namespacePrefix := m.namespacePrefix.rdropWhile (· == '\\')
  if '\\' ∈ nsFromPath then
    if namespacePrefix = [] then some (beforeLast '\\' nsFromPath)
    else some (namespacePrefix ++ '\\' :: beforeLast '\\' nsFromPath)
  else if namespacePrefix = [] then none
  else some namespacePrefix

/-- The namespace and the short name of the class a file should declare. -/
def resolveNamespaceFromPath (mappings : List Psr4Mapping) (root file : Text) :
    Option (Option Text × Text) :=
  if extension file ≠ some ['p', 'h', 'p'] then none
  else do
    let (m, remainder) ← psr4MappingForPath mappings root file
    let withoutExt ← stripSuffix dotPhp remainder
    return (namespaceBelow m withoutExt, afterLast '/' withoutExt)

end PhpantomLsp.Composer
