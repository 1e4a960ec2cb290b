import Mathlib.Data.List.Basic
import PhpantomLsp.Lib.Stuttering

/-!
# The byte scanners

Two scans walk the bytes of a PHP file without a parser.  The lean one
(`findClasses`) collects the names of classes, the full one (`findSymbols`) those of
functions and constants as well, for which it follows braces.  Both are one state
machine: a turn of its loop (`Scan.step`) reads the bytes at the cursor in the mode the
scan is in, and moves the cursor.
-/

namespace PhpantomLsp.Classmap

abbrev Bytes := List UInt8

def byte (c : Char) : UInt8 := UInt8.ofNat c.toNat

def bytes (s : String) : Bytes := s.toList.map byte

/-! ## Bytes -/

/-- `u8::is_ascii_whitespace` -/
def isBlank (b : UInt8) : Bool := [byte ' ', 9, 10, 12, 13].contains b

/-- `u8::is_ascii_alphanumeric` or an underscore. -/
def isNameByte (b : UInt8) : Bool :=
  (byte '0' ≤ b && b ≤ byte '9') || (byte 'A' ≤ b && b ≤ byte 'Z') ||
    (byte 'a' ≤ b && b ≤ byte 'z') || b == byte '_'

def newline : UInt8 := 10

def backslash : UInt8 := 92

def openBrace : UInt8 := 123

def closeBrace : UInt8 := 125

def isQuote (b : UInt8) : Bool := b == byte '\'' || b == byte '"'

/-- Where `needle` is found first (`memmem::find`). -/
def find (needle : Bytes) : Bytes → Option Nat
  | [] => if needle = [] then some 0 else none
  | b :: rest =>
      if needle.isPrefixOf (b :: rest) then some 0 else (find needle rest).map (· + 1)

/-! ## State -/

/-- What the scan is inside of. -/
inductive Mode where
  | code
  | lineComment
  | blockComment
  | quoted (quote : UInt8)
  | heredoc (id : Bytes)
  deriving DecidableEq

/-- What the full scan keeps of braces. -/
structure Book where
  braceDepth : Nat := 0
  inBracedNamespace : Bool := false
  namespaceBraceDepth : Nat := 0
  inBody : Bool := false
  bodyBraceDepth : Nat := 0
  bodyPending : Bool := false

structure ScanResult where
  classes : List Bytes := []
  functions : List Bytes := []
  constants : List Bytes := []

/-- The cursor stands between what is read, last byte first, and the rest. -/
structure Scan where
  before : Bytes
  rest : Bytes
  mode : Mode := .code
  namespaceName : Bytes := []
  book : Book := {}
  result : ScanResult := {}

namespace Book

/-- An opening brace opens the body that is pending. -/
def openBlock (book : Book) : Book :=
  if book.bodyPending then
    { book with
      bodyPending := false
      inBody := true
      bodyBraceDepth := book.braceDepth
      braceDepth := book.braceDepth + 1 }
  else { book with braceDepth := book.braceDepth + 1 }

/-- The block of the namespace ends at the closing brace. -/
def leavesNamespace (book : Book) : Bool :=
  book.inBracedNamespace && book.braceDepth - 1 == book.namespaceBraceDepth

def closeBlock (book : Book) : Book :=
  { book with
    braceDepth := book.braceDepth - 1
    inBody := book.inBody && book.braceDepth - 1 != book.bodyBraceDepth
    inBracedNamespace := book.inBracedNamespace && !book.leavesNamespace }

def openNamespace (book : Book) : Book :=
  { book with
    inBracedNamespace := true
    namespaceBraceDepth := book.braceDepth
    braceDepth := book.braceDepth + 1 }

/-- A class-like keyword, or `function`, outside every body. -/
def expectBody (book : Book) : Book :=
  if book.inBody then book else { book with bodyPending := true }

def isTopLevel (book : Book) : Bool :=
  if book.inBracedNamespace then book.braceDepth == book.namespaceBraceDepth + 1
  else book.braceDepth == 0

end Book

/-! ## Names -/

/-- `is_boundary_char` -/
def isBoundaryChar (b : UInt8) : Bool := !isNameByte b && b != byte ':' && b != byte '$'

/-- `is_keyword_boundary` -/
def isKeywordBoundary : (before : Bytes) → Bool
  | [] => true
  | b :: more =>
      isBoundaryChar b &&
        !(b == byte '>' && (more.head? == some (byte '-') || more.head? == some (byte '?')))

/-- A word at the cursor, and what its next byte has to be, if there is one. -/
def wordAt (word : Bytes) (next : UInt8 → Bool) (rest : Bytes) : Bool :=
  word.isPrefixOf rest && (rest.drop word.length).head?.all next

def namespaceAt (rest : Bytes) : Bool :=
  wordAt (bytes "namespace") (fun b => isBlank b || b == byte ';' || b == openBrace) rest

/-- The length of the class-like keyword at the cursor (`class_keyword_at`). -/
def classKeywordAt (rest : Bytes) : Option Nat :=
  ([bytes "class", bytes "interface", bytes "trait", bytes "enum"].find? fun word =>
    wordAt word isBlank rest).map List.length

/-- `class(` or `class{`, of an anonymous class. -/
def anonymousClassAt (rest : Bytes) : Bool :=
  (bytes "class").isPrefixOf rest &&
    ((rest.drop 5).head? == some (byte '(') || (rest.drop 5).head? == some openBrace)

def functionAt (rest : Bytes) : Bool :=
  wordAt (bytes "function") (fun b => isBlank b || b == byte '(') rest

def defineAt (rest : Bytes) : Bool := (bytes "define(").isPrefixOf rest

def constAt (rest : Bytes) : Bool := wordAt (bytes "const") isBlank rest

/-- `is_preceded_by_use` -/
def isPrecededByUse (before : Bytes) : Bool :=
  4 ≤ before.length &&
    match before.dropWhile isBlank with
    | b₃ :: b₂ :: b₁ :: more => [b₁, b₂, b₃] == bytes "use" && more.head?.all isBoundaryChar
    | _ => false

/-- `read_name`: how far the cursor moves, and the name. -/
def readName (rest : Bytes) : Nat × Option Bytes :=
  let blank := (rest.takeWhile isBlank).length
  let name := (rest.drop blank).takeWhile isNameByte
  (blank + name.length,
    if name = [] ∨ name = bytes "extends" ∨ name = bytes "implements" then none else some name)

/-- How far the quoted name of a `define()` call is read, and whether it is closed there. -/
def scanDefineName (quote : UInt8) : Bytes → Nat × Bool
  | [] => (0, false)
  | b :: rest =>
      if b = quote then (0, true)
      else if b = backslash ∧ (rest.head? = some quote ∨ rest.head? = some backslash) then (0, false)
      else
        let (len, closed) := scanDefineName quote rest
        (len + 1, closed)

/-- `std::str::from_utf8`, up to its error. -/
def fromUtf8 (name : Bytes) : Option Bytes :=
  if (ByteArray.mk name.toArray).validateUTF8 then some name else none

/-- `read_define_name`: how far the cursor moves, and the name. -/
def readDefineName : Bytes → Nat × Option Bytes
  | [] => (0, none)
  | quote :: rest =>
      if isQuote quote then
        let (len, closed) := scanDefineName quote rest
        if closed then (len + 2, fromUtf8 (rest.take len)) else (len + 1, none)
      else (0, none)

/-- How far `skip_use_statement` moves the cursor. -/
def useStatementLen (rest : Bytes) : Nat :=
  let names := rest.takeWhile fun b => b != byte ';' && b != newline
  if (rest.drop names.length).head? = some (byte ';') then names.length + 1 else names.length

/-- The name behind `namespace`, and how far the cursor moves. -/
def readNamespace (rest : Bytes) : Nat × Bytes :=
  let blank := (rest.takeWhile isBlank).length
  let name := (rest.drop blank).takeWhile fun b => isNameByte b || b == backslash || isBlank b
  let text := name.filter fun b => !isBlank b
  (blank + name.length,
    if text ≠ [] ∧ text.getLast? ≠ some backslash then text ++ [backslash] else text)

/-! ## Comments and quoted text -/

/-- The id of a heredoc and where its text starts, behind `<<<`. -/
def readHeredoc (rest : Bytes) : Nat × Bytes :=
  let blank := (rest.takeWhile (· == byte ' ')).length
  let blank := if (rest.drop blank).head?.any isQuote then blank + 1 else blank
  let id := (rest.drop blank).takeWhile isNameByte
  if id = [] then (blank, [])
  else
    let line := (rest.drop (blank + id.length)).takeWhile (· != newline)
    if (rest.drop (blank + id.length + line.length)).isEmpty then
      (blank + id.length + line.length, id)
    else (blank + id.length + line.length + 1, id)

/-- A comment, quoted text or a heredoc starts at the cursor: how far the cursor moves, and
what the scan is inside of then. -/
def textAt : Bytes → Option (Nat × Mode)
  | [] => none
  | b :: rest =>
      if b = byte '/' ∧ rest.head? = some (byte '/') then some (2, .lineComment)
      else if b = byte '/' ∧ rest.head? = some (byte '*') then some (2, .blockComment)
      else if b = byte '#' then
        -- `#[` is an attribute
        if rest.head? = some (byte '[') then some (1, .code) else some (1, .lineComment)
      else if isQuote b then some (1, .quoted b)
      else if (bytes "<<<").isPrefixOf (b :: rest) then
        let (len, id) := readHeredoc (rest.drop 2)
        some (3 + len, if id = [] then .code else .heredoc id)
      else none

/-- Inside a comment, quoted text or a heredoc; none where the scan ends there. -/
def skipText (mode : Mode) (rest : Bytes) : Option (Nat × Mode) :=
  match mode with
  | .code => none
  | .lineComment => (rest.findIdx? (· == newline)).map fun pos => (pos + 1, .code)
  | .blockComment => (find (bytes "*/") rest).map fun pos => (pos + 2, .code)
  | .quoted quote =>
      (rest.findIdx? fun b => b == quote || b == backslash).map fun pos =>
        if rest[pos]? = some backslash then (pos + 2, .quoted quote) else (pos + 1, .code)
  | .heredoc id =>
      let indent := (rest.takeWhile fun b => b == byte ' ' || b == 9).length
      let line := rest.drop indent
      if id.isPrefixOf line && (line.drop id.length).head?.all fun b =>
          [byte ';', newline, 13, byte ',', byte ')'].contains b then
        some (indent + id.length, .code)
      else (rest.findIdx? (· == newline)).map fun pos => (pos + 1, .heredoc id)

/-! ## One turn of the loop -/

namespace Scan

/-- The cursor moves. -/
def advance (n : Nat) (s : Scan) : Scan :=
  { s with before := (s.rest.take n).reverse ++ s.before, rest := s.rest.drop n }

/-- The cursor moves, to where the scan is inside of `mode`. -/
def enter (s : Scan) (target : Nat × Mode) : Scan :=
  { s.advance target.1 with mode := target.2 }

def addClass (name : Option Bytes) (s : Scan) : Scan :=
  match name with
  | some name =>
      { s with result.classes := s.result.classes ++ [s.namespaceName ++ name] }
  | none => s

def addFunction (name : Option Bytes) (s : Scan) : Scan :=
  match name with
  | some name =>
      { s with result.functions := s.result.functions ++ [s.namespaceName ++ name] }
  | none => s

def addConstant (name : Option Bytes) (s : Scan) : Scan :=
  match name with
  | some name => { s with result.constants := s.result.constants ++ [name] }
  | none => s

/-- A `namespace` declaration. -/
def readsNamespace (symbols : Bool) (s : Scan) : Scan :=
  let (len, name) := readNamespace (s.rest.drop 9)
  let s := { s.advance (9 + len) with namespaceName := name }
  if symbols && s.rest.head? == some openBrace then
    { s.advance 1 with book := s.book.openNamespace }
  else s

/-- A class-like declaration whose keyword has the length `len`. -/
def readsClass (symbols : Bool) (len : Nat) (s : Scan) : Scan :=
  let (nameLen, name) := readName (s.rest.drop len)
  let s := (s.advance (len + nameLen)).addClass name
  if symbols then { s with book := s.book.expectBody } else s

def readsFunction (s : Scan) : Scan :=
  let after := s.rest.drop 8
  if isPrecededByUse s.before then s.advance (8 + useStatementLen after)
  else if s.book.inBody then s.advance 8
  else
    let s := { s with book := s.book.expectBody }
    let blank := (after.takeWhile isBlank).length
    if (after.drop blank).head? = some (byte '(') then s.advance (8 + blank)
    else
      let (len, name) := readName after
      (s.advance (8 + len)).addFunction name

def readsDefine (s : Scan) : Scan :=
  let after := s.rest.drop 7
  let blank := (after.takeWhile isBlank).length
  let (len, name) := readDefineName (after.drop blank)
  (s.advance (7 + blank + len)).addConstant name

def readsConst (s : Scan) : Scan :=
  let after := s.rest.drop 5
  if isPrecededByUse s.before then s.advance (5 + useStatementLen after)
  else if s.book.isTopLevel then
    let (len, name) := readName after
    (s.advance (5 + len)).addConstant (name.map (s.namespaceName ++ ·))
  else s.advance 5

/-- A keyword at the cursor that only the full scan reads. -/
def readSymbol (s : Scan) : Option Scan :=
  if anonymousClassAt s.rest ∧ s.book.inBody = false then
    some { s.advance 5 with book := s.book.expectBody }
  else if functionAt s.rest then some s.readsFunction
  else if defineAt s.rest then some s.readsDefine
  else if constAt s.rest then some s.readsConst
  else none

/-- A keyword at the cursor. -/
def readKeyword (symbols : Bool) (s : Scan) : Option Scan :=
  if namespaceAt s.rest then some (s.readsNamespace symbols)
  else
    match classKeywordAt s.rest with
    | some len => some (s.readsClass symbols len)
    | none => if symbols then s.readSymbol else none

/-- A brace at the cursor, which only the full scan reads. -/
def readBrace (s : Scan) : Option Scan :=
  match s.rest with
  | [] => none
  | b :: _ =>
      if b = openBrace then some { s.advance 1 with book := s.book.openBlock }
      else if b = closeBrace then
        some { s.advance 1 with
          book := s.book.closeBlock
          namespaceName := if s.book.leavesNamespace then [] else s.namespaceName }
      else none

/-- The scan reads code at the cursor. -/
def readCode (symbols : Bool) (s : Scan) : Scan :=
  let brace := if symbols then s.readBrace else none
  let keyword := if isKeywordBoundary s.before then s.readKeyword symbols else none
  (brace.or (((textAt s.rest).map s.enter).or keyword)).getD (s.advance 1)

/-- One turn of the loop of `scan`; none where the loop ends. -/
def step (symbols : Bool) (s : Scan) : Option Scan :=
  if s.rest = [] then none
  else if s.mode = .code then some (s.readCode symbols)
  else (skipText s.mode s.rest).map s.enter

end Scan

/-! ## The scans -/

/-- `scan`: every turn moves the cursor. -/
def scan (symbols : Bool) (content : Bytes) : ScanResult :=
  (Lib.lastOf (Scan.step symbols) content.length { before := [], rest := content }).result

/-- The class-like keywords, wherever they stand (`has_class_keyword`). -/
def hasClassKeyword (content : Bytes) : Bool :=
  [bytes "class", bytes "interface", bytes "trait", bytes "enum"].any fun word =>
    (find word content).isSome

def hasAnyKeyword (content : Bytes) : Bool :=
  hasClassKeyword content ||
    [bytes "function", bytes "define", bytes "const"].any fun word => (find word content).isSome

def findSymbols (content : Bytes) : ScanResult :=
  if hasAnyKeyword content then scan true content else {}

def findClasses (content : Bytes) : List Bytes :=
  if hasClassKeyword content then (scan false content).classes else []

example : findClasses (bytes "<?php namespace A; class B \x7b\x7d /* class C */") = [bytes "A\\B"] := by
  decide +kernel

end PhpantomLsp.Classmap
