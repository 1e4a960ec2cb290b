import PhpantomLsp.Imports.UseStatement
import PhpantomLsp.PhpType.Literal

/-!
# Finding one member of a `use` statement, and deleting it

`find_use_member` splits the list of a statement at its commas and reads each
item between the comments around it; `list_item_delete_range` is what is deleted
to remove the member found.  Offsets count characters: every cut is beside an
ASCII character.
-/

namespace PhpantomLsp.Imports

open PhpantomLsp (isAsciiWhitespace)
open PhpantomLsp.Text (isWhitespace)

/-! ## Text operations -/

def trimStart (text : Text) : Text := text.dropWhile isWhitespace

def trimEnd (text : Text) : Text := text.rdropWhile isWhitespace

def trim (text : Text) : Text := trimEnd (trimStart text)

/-- `str::find` -/
def find (pattern : Text) : Text → Option Nat
  | [] => if pattern = [] then some 0 else none
  | c :: text => if pattern <+: c :: text then some 0 else (find pattern text).map (· + 1)

/-- `str::rfind` of one character -/
def rfindChar (c : Char) (text : Text) : Option Nat :=
  (text.reverse.findIdx? (· == c)).map fun i => text.length - 1 - i

def stripPrefix (start text : Text) : Option Text :=
  if start <+: text then some (text.drop start.length) else none

/-- `str::split_once` -/
def splitOnce (pattern text : Text) : Option (Text × Text) :=
  (find pattern text).map fun i => (text.take i, text.drop (i + pattern.length))

def shortName (name : Text) : Text := (name.splitOn '\\').getLastD name

/-! ## Reading the list -/

/-- How long the comment at the start of the text is: `none` where none starts,
`some none` where it has no end. -/
def commentLength (rest : Text) : Option (Option Nat) :=
  if ['/', '/'] <+: rest ∨ ['#'] <+: rest then some ((find ['\n'] rest).map (· + 1))
  else if ['/', '*'] <+: rest then some ((find ['*', '/'] rest).map (· + 2))
  else none

theorem commentLength_pos {rest : Text} {n : Nat} (h : commentLength rest = some (some n)) :
    0 < n ∧ rest ≠ [] := by
  unfold commentLength at h
  split_ifs at h with hline hblock
  · refine ⟨?_, by rintro rfl; simp at hline⟩
    obtain ⟨i, -, rfl⟩ := Option.map_eq_some_iff.mp (Option.some.inj h)
    omega
  · refine ⟨?_, by rintro rfl; simp at hblock⟩
    obtain ⟨i, -, rfl⟩ := Option.map_eq_some_iff.mp (Option.some.inj h)
    omega

/-- The loop at the start of `member_content_span`: how much whitespace and
comments the text starts with, `none` where a comment swallows the rest. -/
def leading (rest : Text) : Option Nat :=
  let blanks := (rest.takeWhile isWhitespace).length
  match _h : commentLength (rest.drop blanks) with
  | none => some blanks
  | some none => none
  | some (some n) => (leading ((rest.drop blanks).drop n)).map (blanks + n + ·)
termination_by rest.length
decreasing_by
  have hpos := commentLength_pos _h
  have hlen := List.length_pos_of_ne_nil hpos.2
  simp only [List.length_drop] at hlen ⊢
  omega

def memberContentSpan (item : Text) : Nat × Nat :=
  match leading item with
  | none => (item.length, item.length)
  | some start =>
      let tail := item.drop start
      let contentLen := ([['/', '/'], ['#'], ['/', '*']].filterMap (find · tail)).min?.getD tail.length
      (start, start + (trimEnd (tail.take contentLen)).length)

def useStatementBody (stmt : Text) : Option Text :=
  (stripPrefix "use ".toList stmt).map fun stripped =>
    let body := trimStart stripped
    trimStart (((stripPrefix "function ".toList body).or (stripPrefix "const ".toList body)).getD body)

/-- A member as the list spells it, and where it stands in the statement. -/
structure UseItem where
  start : Nat
  stop : Nat
  text : Text
deriving DecidableEq

/-- What one item between commas holds besides whitespace and comments. -/
def itemContent (item : Text) : Text :=
  (item.take (memberContentSpan item).2).drop (memberContentSpan item).1

/-- The loop of `find_use_member` over the items, without the comparison; `offset`
is where the next item starts. -/
def useItemsFrom (offset : Nat) : List Text → List UseItem
  | [] => []
  | item :: rest =>
      if (itemContent item).isEmpty then useItemsFrom (offset + item.length + 1) rest
      else
        ⟨offset + (memberContentSpan item).1, offset + (memberContentSpan item).2,
          itemContent item⟩ :: useItemsFrom (offset + item.length + 1) rest

/-- The prefix and the range of the list, and from it the members. -/
def useItems (decl : Text) : Option (Text × List UseItem) :=
  (useStatementBody decl).bind fun body =>
    let bodyStart := decl.length - body.length
    match decl.findIdx? (· == '\x7b') with
    | some braceOpen =>
        (rfindChar '\x7d' decl).bind fun braceClose =>
          if braceClose < braceOpen then none
          else if braceOpen < bodyStart then none
          else
            let pre := ((trim ((decl.take braceOpen).drop bodyStart)).rdropWhile (· == '\\')).dropWhile
              (· == '\\')
            some (pre, useItemsFrom (braceOpen + 1)
              (((decl.take braceClose).drop (braceOpen + 1)).splitOn ','))
    | none => some ([], useItemsFrom bodyStart ((decl.drop bodyStart).splitOn ','))

def joinedNameMatches (pre name fqn : Text) : Bool :=
  let name := name.dropWhile (· == '\\')
  if pre.isEmpty then fqn == name
  else fqn.length == pre.length + 1 + name.length && pre.isPrefixOf fqn &&
    fqn[pre.length]? == some '\\' && name.isSuffixOf fqn

/-- The comparison in the loop of `find_use_member`. -/
def imports (pre fqn aliased : Text) (entry : Text) : Bool :=
  let entry := trimStart
    (((stripPrefix "function ".toList entry).or (stripPrefix "const ".toList entry)).getD entry)
  let (name, memberAlias) :=
    match splitOnce " as ".toList entry with
    | some (n, a) => (trim n, some (trim a))
    | none => (entry, none)
  joinedNameMatches pre name fqn && memberAlias.getD (shortName name) == aliased

structure UseMemberMatch where
  start : Nat
  stop : Nat
  memberCount : Nat
  pre : Text
deriving DecidableEq

def findUseMember (decl fqn aliased : Text) : Option UseMemberMatch :=
  (useItems decl).bind fun (pre, items) =>
    (items.find? fun item => imports pre (fqn.dropWhile (· == '\\')) aliased item.text).map fun item =>
      ⟨item.start, item.stop, items.length, pre⟩

/-! ## Deleting a member -/

/-- Walk back from `start` over characters that `p` holds of. -/
def walkBack (p : Char → Bool) (content : Text) (start : Nat) : Nat :=
  ((content.take start).rdropWhile p).length

/-- Walk on from `after` over characters that `p` holds of. -/
def walkOn (p : Char → Bool) (content : Text) (after : Nat) : Nat :=
  after + ((content.drop after).takeWhile p).length

def isBlank (c : Char) : Bool := c == ' ' || c == '\t'

def listItemDeleteRange (content : Text) (itemStart itemEnd : Nat) : Nat × Nat :=
  let start := walkBack isBlank content itemStart
  let after := walkOn isAsciiWhitespace content itemEnd
  if content[after]? = some ',' then
    let after := walkOn isBlank content (after + 1)
    (start, if content[after]? = some '\n' then after + 1 else after)
  else
    let before := walkBack isAsciiWhitespace content start
    (if 0 < before ∧ content[before - 1]? = some ',' then before - 1 else before, itemEnd)

def deleteRange (content : Text) (range : Nat × Nat) : Text :=
  content.take range.1 ++ content.drop range.2

end PhpantomLsp.Imports
