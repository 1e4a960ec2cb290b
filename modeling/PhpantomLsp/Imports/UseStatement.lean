import Mathlib.Data.List.DropRight
import Mathlib.Data.List.Infix
import PhpantomLsp.Text.Ascii

/-!
# `use` statements as PHP reads them

The syntax of an import of several names, group or list, down to the characters:
between the words stand gaps of blanks, line ends and comments.  A value of
`UseStatement` is one way to write a statement, `UseStatement.text` is what it
writes, and a text is a syntactically valid statement when some value writes it.
-/

namespace PhpantomLsp.Imports

abbrev Text := List Char

/-! ## Gaps -/

/-- A line end: `\n`, `\r\n` or a `\r` that stands alone. -/
inductive Newline where
  | lf
  | crlf
  | cr
deriving DecidableEq

def Newline.text : Newline → Text
  | .lf => ['\n']
  | .crlf => ['\r', '\n']
  | .cr => ['\r']

def isLineEnd (c : Char) : Bool := c == '\n' || c == '\r'

/-- What follows the `//` or `#` of a line comment.  `?>` would leave PHP, and
`#[` opens an attribute. -/
structure LineText where
  hash : Bool
  chars : Text
  oneLine : ∀ c ∈ chars, isLineEnd c = false
  inPhp : ¬ ['?', '>'] <:+: chars
  notAttribute : hash = true → chars.head? ≠ some '['

def LineText.marker (comment : LineText) : Text := if comment.hash then ['#'] else ['/', '/']

/-- What stands between `/*` and `*/`. -/
structure BlockText where
  chars : Text
  inside : ¬ ['*', '/'] <:+: chars

/-- A blank, a line end or a comment. -/
inductive Trivia where
  | space
  | tab
  | newline (nl : Newline)
  | line (comment : LineText) (nl : Newline)
  | block (comment : BlockText)

namespace Trivia

def text : Trivia → Text
  | .space => [' ']
  | .tab => ['\t']
  | .newline nl => nl.text
  | .line comment nl => comment.marker ++ comment.chars ++ nl.text
  | .block comment => ['/', '*'] ++ comment.chars ++ ['*', '/']

/-- A space or a tab. -/
def isBlank : Trivia → Bool
  | .space | .tab => true
  | _ => false

def isComment : Trivia → Bool
  | .line _ _ | .block _ => true
  | _ => false

end Trivia

abbrev Gap := List Trivia

namespace Gap

def text (g : Gap) : Text := g.flatMap Trivia.text

@[simp] theorem text_nil : text [] = [] := rfl

@[simp] theorem text_cons (t : Trivia) (g : Gap) : text (t :: g) = t.text ++ text g :=
  List.flatMap_cons

@[simp] theorem text_append (g g' : Gap) : text (g ++ g') = text g ++ text g' :=
  List.flatMap_append

/-- No comment in it. -/
def isBare (g : Gap) : Bool := g.all fun t => !t.isComment

end Gap

/-! ## Names and members -/

/-- The whitespace PHP skips. -/
def isPhpSpace (c : Char) : Bool := c == ' ' || c == '\t' || c == '\n' || c == '\r'

def isLabelChar (c : Char) : Bool := c.isAlphanum || c == '_' || decide (0x80 ≤ c.toNat)

/-- An identifier. -/
structure Label where
  chars : Text
  nonempty : chars ≠ []
  noDigit : chars.head?.all fun c => !c.isDigit
  wellFormed : ∀ c ∈ chars, isLabelChar c = true

/-- A word of the language, in any case. -/
structure Keyword (word : String) where
  chars : Text
  spelled : chars.map Char.toLower = word.toList

/-- The words no name of a single segment may be. -/
def reservedWords : List String :=
  ["abstract", "and", "array", "as", "break", "callable", "case", "catch", "class", "clone",
   "const", "continue", "declare", "default", "die", "do", "echo", "else", "elseif", "empty",
   "enddeclare", "endfor", "endforeach", "endif", "endswitch", "endwhile", "eval", "exit",
   "extends", "final", "finally", "fn", "for", "foreach", "function", "global", "goto", "if",
   "implements", "include", "include_once", "instanceof", "insteadof", "interface", "isset",
   "list", "match", "namespace", "new", "or", "print", "private", "protected", "public",
   "readonly", "require", "require_once", "return", "static", "switch", "throw", "trait", "try",
   "unset", "use", "var", "while", "xor", "yield", "__class__", "__dir__", "__file__",
   "__function__", "__halt_compiler", "__line__", "__method__", "__namespace__", "__property__",
   "__trait__"]

def isReserved (chars : Text) : Bool :=
  reservedWords.any fun word => word.toList == chars.map Char.toLower

/-- `Foo`, `Foo\Bar` or `\Foo\Bar`. -/
structure Name where
  rooted : Bool
  first : Label
  rest : List Label
  notReserved : rooted = false → rest = [] → isReserved first.chars = false
  notRelative : rooted = false → first.chars.map Char.toLower ≠ "namespace".toList

namespace Name

def text (n : Name) : Text :=
  (if n.rooted then ['\\'] else []) ++ n.first.chars ++ n.rest.flatMap fun l => '\\' :: l.chars

end Name

/-- Whitespace inside a member. -/
structure Spaces where
  chars : Text
  nonempty : chars ≠ []
  spaces : ∀ c ∈ chars, isPhpSpace c = true

/-- The `function` or `const` before a name. -/
inductive KindWord where
  | function (word : Keyword "function")
  | const (word : Keyword "const")

def KindWord.text : KindWord → Text
  | .function word => word.chars
  | .const word => word.chars

/-- `as` and the name it gives, with the blank before it. -/
structure AsClause where
  before : Spaces
  word : Keyword "as"
  after : Spaces
  label : Label
  notReserved : isReserved label.chars = false

def AsClause.text (a : AsClause) : Text :=
  a.before.chars ++ a.word.chars ++ a.after.chars ++ a.label.chars

/-- One import of the list. -/
structure Member where
  kind : Option (KindWord × Spaces)
  name : Name
  asClause : Option AsClause

namespace Member

def kindText (m : Member) : Text :=
  match m.kind with
  | none => []
  | some (kind, spaces) => kind.text ++ spaces.chars

def aliasText (m : Member) : Text :=
  match m.asClause with
  | none => []
  | some clause => clause.text

def text (m : Member) : Text := m.kindText ++ m.name.text ++ m.aliasText

end Member

/-- A member and the gaps around it. -/
structure Slot where
  before : Gap
  member : Member
  after : Gap

def Slot.text (s : Slot) : Text := s.before.text ++ s.member.text ++ s.after.text

/-! ## Statements -/

/-- What a statement holds besides its members. -/
inductive Form where
  /-- `use A, B;` or `use function a, b;` -/
  | plain (kind : Option (Gap × KindWord))
  /-- `use Foo\{A, B};`, the gaps in the order they stand in -/
  | group (afterUse : Gap) (kind : Option (KindWord × Gap)) (pre : Name)
      (beforeSlash beforeBrace : Gap) (trailing : Option Gap) (beforeEnd : Gap)

namespace Form

def isPlain : Form → Bool
  | .plain _ => true
  | .group .. => false

/-- The text from behind `use` to the first member's gap. -/
def opening : Form → Text
  | .plain none => []
  | .plain (some (gap, kind)) => gap.text ++ kind.text
  | .group afterUse kind pre beforeSlash beforeBrace _ _ =>
      afterUse.text ++ (match kind with | none => [] | some (kind, gap) => kind.text ++ gap.text) ++
        pre.text ++ beforeSlash.text ++ ['\\'] ++ beforeBrace.text ++ ['\x7b']

/-- The gap behind a trailing comma. -/
def trailing : Form → Option Gap
  | .plain _ => none
  | .group _ _ _ _ _ trailing _ => trailing

/-- The text behind the list. -/
def closing : Form → Text
  | .plain _ => [';']
  | .group _ _ _ _ _ _ beforeEnd => ['\x7d'] ++ beforeEnd.text ++ [';']

/-- The words of the opening: the kind, and the prefix of a group. -/
def words : Form → Option KindWord × Option Name
  | .plain kind => (kind.map Prod.snd, none)
  | .group _ kind pre _ _ _ _ => (kind.map Prod.fst, some pre)

/-- Which gaps must not be empty, and which members fit. -/
def Fits (form : Form) (slots : List Slot) : Prop :=
  match form with
  | .plain kind =>
      (∀ k ∈ kind, k.1 ≠ []) ∧ (∀ s ∈ slots.head?, s.before ≠ []) ∧
        ∀ s ∈ slots, s.member.kind = none
  | .group afterUse kind _ _ _ _ _ =>
      afterUse ≠ [] ∧ (∀ k ∈ kind, k.2 ≠ []) ∧
        ∀ s ∈ slots, s.member.name.rooted = false ∧ (kind.isSome → s.member.kind = none)

end Form

/-- One way to write a `use` statement with a list of members. -/
structure UseStatement where
  useWord : Keyword "use"
  form : Form
  slots : List Slot
  nonempty : slots ≠ []
  fits : form.Fits slots

namespace UseStatement

/-- What stands between the commas. -/
def pieces (u : UseStatement) : List Text :=
  u.slots.map Slot.text ++ u.form.trailing.toList.map Gap.text

def opening (u : UseStatement) : Text := u.useWord.chars ++ u.form.opening

def text (u : UseStatement) : Text :=
  u.opening ++ [','].intercalate u.pieces ++ u.form.closing

def members (u : UseStatement) : List Member := u.slots.map Slot.member

/-- The words the statement opens with. -/
def words (u : UseStatement) : Text × Option KindWord × Option Name :=
  (u.useWord.chars, u.form.words)

end UseStatement

end PhpantomLsp.Imports
