import PhpantomLsp.Blade.ComponentTags
import PhpantomLsp.Text.Ascii
import PhpantomLsp.Text.LineIndex

/-!
# The Blade preprocessor

A template is lowered line by line to virtual PHP.  A line is scanned one
character or one construct a step; text waits in a buffer and is flushed when
the mode changes or the line ends: as blanks where it is markup, as it stands
where it is PHP.  Every flush and every synthesized text is anchored, template
column against PHP column, in UTF-16 code units.

The prologue declares a list of variables; where that list comes from is left
open, since nothing here depends on it.  Columns are natural numbers.
-/

namespace PhpantomLsp.Blade

open PhpantomLsp.Text (lenUtf16 utf16Len isWhitespace)

inductive CapturedDirective where
  | use
  | inject
deriving DecidableEq

inductive Mode where
  | html
  | escapedEcho (raw : Bool)
  | php (rawEcho : Bool)
  | rawPhp (needsSemicolon : Bool)
  | directiveArgs (suffix : String)
  | skipArgs (suffix : String)
  | verbatim
  | comment
  | boundAttr (term : Option Char)
  | captureArgs (kind : CapturedDirective)
deriving DecidableEq

/-- Whether strings and comments of PHP are tracked. -/
def Mode.isCode : Mode → Bool
  | .html | .escapedEcho _ | .comment | .verbatim => false
  | _ => true

/-- What a construct consumes, the PHP in its place, and the mode after it. -/
structure Lowering where
  matchLen : Nat
  replacement : List Char
  nextMode : Mode

def Lowering.keep (mode : Mode) : Lowering := ⟨0, [], mode⟩

structure HtmlPos where
  inTag : Bool
  componentTag : Bool
  attrString : Option Char

structure BoundAttr where
  suffix : String
  multiline : Bool

/-- What the scan remembers beyond the text of the line. -/
structure Scan where
  mode : Mode
  parenDepth : Int
  inString : Option Char
  isEscaped : Bool
  inBlockComment : Bool
  inLineComment : Bool
  inPhpDirectiveBlock : Bool
  echoClosesAtEol : Bool
  html : HtmlPos
  captureBuffer : List Char
  boundAttr : BoundAttr
  openCall : Option OpenComponentCall
  hoistedUses : List (List Char)

/-! ## The line being lowered -/

structure LineOut where
  processed : List Char
  buffer : List Char
  adjustments : List (Nat × Nat)
  charIdx : Nat
  col : Nat

namespace LineOut

def start : LineOut := ⟨[], [], [(0, 0)], 0, 0⟩

/-- A character of the line goes into the buffer. -/
def push (out : LineOut) (ch : Char) : LineOut :=
  { out with
    buffer := out.buffer ++ [ch]
    charIdx := out.charIdx + 1
    col := out.col + lenUtf16 ch }

/-- A character of the line is passed over. -/
def skip (out : LineOut) (ch : Char) : LineOut :=
  { out with charIdx := out.charIdx + 1, col := out.col + lenUtf16 ch }

/-- The characters of an ASCII construct are passed over. -/
def advance (out : LineOut) (n : Nat) : LineOut :=
  { out with charIdx := out.charIdx + n, col := out.col + n }

/-- Anchor the current column to the end of the PHP. -/
def anchor (out : LineOut) : LineOut :=
  { out with adjustments := out.adjustments ++ [(out.col, utf16Len out.processed)] }

/-- Append PHP without a source. -/
def emit (out : LineOut) (text : List Char) : LineOut :=
  { out with processed := out.processed ++ text }

def clear (out : LineOut) : LineOut := { out with buffer := [] }

/-- Append PHP without a source, anchored at both ends to the current column. -/
def emitSuffix (out : LineOut) (text : List Char) : LineOut := (out.anchor.emit text).anchor

end LineOut

/-- Comment text with the `/` of every `*/` blanked. -/
def commentText : (afterStar : Bool) → List Char → List Char
  | _, [] => []
  | afterStar, ch :: rest =>
      if afterStar && ch == '/' then ' ' :: commentText false rest
      else ch :: commentText (ch == '*') rest

/-- The PHP buffered text becomes. -/
def flushed (mode : Mode) (buffer : List Char) : List Char :=
  match mode with
  | .html | .escapedEcho _ => buffer.flatMap fun ch => List.replicate (lenUtf16 ch) ' '
  | .comment => commentText false buffer
  | _ => buffer

def LineOut.flush (out : LineOut) (mode : Mode) : LineOut :=
  if out.buffer = [] then out
  else
    let bladeStart := out.col - utf16Len out.buffer
    let started := { out with
      adjustments := out.adjustments ++ [(bladeStart, utf16Len out.processed)] }
    (started.emit (flushed mode out.buffer)).anchor.clear

/-- Put a lowering in place of what it matched. -/
def LineOut.lower (out : LineOut) (matchLen : Nat) (replacement : List Char) : LineOut :=
  if replacement = [] then (out.anchor.advance matchLen).anchor
  else ((out.emitSuffix replacement).advance matchLen).anchor

structure State where
  scan : Scan
  out : LineOut

/-- What a step reads besides the state. -/
structure LineEnv where
  line : List Char
  lineIdx : Nat
  following : List (List Char)
  /-- The last lines with a `}}` and with a `!!}`. -/
  lastEscaped : Option Nat
  lastRaw : Option Nat
  components : Option ComponentResolver
  directives : BladeDirectives

/-- `closes_args`: the depth after a character, and whether it balances the list. -/
def closesArgs (ch : Char) (depth : Int) : Bool × Int :=
  if ch = '(' then (false, depth + 1)
  else if ch = ')' then (decide (depth - 1 ≤ 0), depth - 1)
  else (false, depth)

/-! ## Echoes -/

section Openers

variable (env : LineEnv) (scan : Scan) (rem : List Char)

/-- No line after this one holds the terminator. -/
def noneAfter (last : Option Nat) : Bool :=
  match last with
  | none => true
  | some last => decide (last ≤ env.lineIdx)

def rawFollows : Bool :=
  containsSeq (rem.drop 4) ['!', '!', '}'] || !noneAfter env env.lastRaw

def echoOpen : Option (Lowering × Scan) :=
  if ['{', '{'] <+: rem ∧ ¬(['{', '!', '!'] <+: rem.drop 1 ∧ rawFollows env rem = true) then
    if ['{', '{', '-', '-'] <+: rem then some (⟨4, " /* ".toList, .comment⟩, scan)
    else
      some (⟨2, " echo e(".toList, .php false⟩,
        { scan with
          echoClosesAtEol := !containsSeq (rem.drop 2) ['}', '}'] && noneAfter env env.lastEscaped })
  else if ['{', '!', '!'] <+: rem then
    some (⟨3, " echo ".toList, .php true⟩,
      { scan with
        echoClosesAtEol := !containsSeq (rem.drop 3) ['!', '!', '}'] && noneAfter env env.lastRaw })
  else none

def echoOpenEscaped : Option (Lowering × Scan) :=
  if ¬['@', '{', '{'] <+: rem ∧ ¬['@', '{', '!', '!'] <+: rem then none
  else if ['@', '{', '{', '!', '!'] <+: rem ∧ rawFollows env (rem.drop 1) = true then none
  else if rem[2]? = some '!' then
    some (⟨4, [], .escapedEcho true⟩,
      { scan with
        echoClosesAtEol := !containsSeq (rem.drop 4) ['!', '!', '}'] && noneAfter env env.lastRaw })
  else
    some (⟨3, [], .escapedEcho false⟩,
      { scan with
        echoClosesAtEol := !containsSeq (rem.drop 3) ['}', '}'] && noneAfter env env.lastEscaped })

/-- A directive ends an echo that is still open. -/
def directiveBoundary : Bool :=
  decide (rem.head? = some '@') &&
    ((env.directives.builtin rem.tail).isSome || (env.directives.custom rem.tail).isSome)

def closeEscaped (raw : Bool) : Lowering :=
  if raw = true ∧ ['!', '!', '}'] <+: rem then ⟨3, [], .html⟩
  else if raw = false ∧ ['}', '}'] <+: rem then ⟨2, [], .html⟩
  else if directiveBoundary env rem then ⟨0, [], .html⟩
  else .keep (.escapedEcho raw)

/-- Only a contiguous `--}}` ends a comment. -/
def closeComment (charIdx : Nat) : Lowering :=
  if ['}', '}'] <+: rem ∧ 2 ≤ charIdx ∧ ['-', '-'] <+: env.line.drop (charIdx - 2) then
    ⟨2, " */ ".toList, .html⟩
  else .keep .comment

def closePhp (rawEcho : Bool) : Lowering × Scan :=
  if rawEcho = true ∧ ['!', '!', '}'] <+: rem then (⟨3, "; ".toList, .html⟩, scan)
  else if rawEcho = false ∧ ['}', '}'] <+: rem then (⟨2, "); ".toList, .html⟩, scan)
  else if "@endphp".toList <+: rem then
    (⟨7, [], .html⟩, { scan with inPhpDirectiveBlock := false })
  else if scan.inPhpDirectiveBlock = false ∧ directiveBoundary env rem = true then
    (⟨0, if rawEcho then "; ".toList else "); ".toList, .html⟩, scan)
  else (.keep (.php rawEcho), scan)

/-! ## Raw PHP -/

def phpIslandOpen : Option (Lowering × Scan) :=
  if "<?php".toList <+: rem then some (⟨5, [], .rawPhp false⟩, scan)
  else if "<?=".toList <+: rem then some (⟨3, " echo ".toList, .rawPhp true⟩, scan)
  else if "<?xml".toList <+: rem then some (.keep .html, scan)
  else if "<?".toList <+: rem then some (⟨2, [], .rawPhp false⟩, scan)
  else none

def phpIslandClose (needsSemicolon : Bool) : Lowering :=
  if ['?', '>'] <+: rem then ⟨2, if needsSemicolon then "; ".toList else [], .html⟩
  else .keep (.rawPhp needsSemicolon)

/-! ## Tags -/

def tagOpen : Option (Lowering × Scan) :=
  if scan.html.attrString.isNone then
    match componentTagAt rem with
    | none => none
    | some tag =>
        let target := if scan.openCall.isNone then tag.resolve env.components else none
        let (text, call) := tag.emit target (rem.drop tag.len) env.following
        some (⟨tag.len, text, .html⟩,
          { scan with
            openCall := if call.isSome then call else scan.openCall
            html := { scan.html with inTag := true, componentTag := true } })
  else none

def tagClose : Option (Lowering × Scan) :=
  match scan.openCall with
  | none => none
  | some call =>
      if scan.html.attrString.isNone ∧ (['>'] <+: rem ∨ ['/', '>'] <+: rem) then
        some (⟨if rem.head? = some '/' then 2 else 1, call.close, .html⟩,
          { scan with
            openCall := none
            html := { scan.html with inTag := false, componentTag := false } })
      else none

/-- The length of a `:name="` opening, up to its quote. -/
def boundAttrOpenLen : Option Nat :=
  let named := fun ch => isAsciiAlphanumeric ch || ['_', '-', '.'].contains ch
  let nameEnd := 1 + (rem.tail.takeWhile named).length
  if nameEnd = 1 then none
  else if rem[nameEnd]? = some '=' then
    if rem[nameEnd + 1]? = some '"' ∨ rem[nameEnd + 1]? = some '\'' then some (nameEnd + 2)
    else none
  else none

/-- `scan_to_bound_attr_end` -/
def scanToBoundAttrEnd (quote : Char) :
    List Char → (inString : Option Char) → (isEscaped : Bool) → Bool × Option Char × Bool
  | [], inString, isEscaped => (false, inString, isEscaped)
  | ch :: rest, none, isEscaped =>
      if ch = quote then (true, none, isEscaped)
      else scanToBoundAttrEnd quote rest (if ch = '\'' ∨ ch = '"' then some ch else none) isEscaped
  | ch :: rest, some delim, isEscaped =>
      if isEscaped then scanToBoundAttrEnd quote rest (some delim) false
      else if ch = '\\' then scanToBoundAttrEnd quote rest (some delim) true
      else scanToBoundAttrEnd quote rest (if ch = delim then none else some delim) false

def boundAttrEndsIn (quote : Char) :
    List (List Char) → (inString : Option Char) → (isEscaped : Bool) → Bool
  | [], _, _ => false
  | line :: following, inString, isEscaped =>
      let (found, inString, isEscaped) := scanToBoundAttrEnd quote line inString isEscaped
      found || boundAttrEndsIn quote following inString isEscaped

def boundAttrSpansLines (quote : Char) (rest : List Char) (following : List (List Char)) : Bool :=
  let (found, inString, isEscaped) := scanToBoundAttrEnd quote rest none false
  !found && boundAttrEndsIn quote following inString isEscaped

/-- The PHP in front of a bound attribute's expression, and what closes it. -/
def boundAttrPrefix (name : List Char) : List Char × String × Option OpenComponentCall :=
  match scan.openCall with
  | none => (" ".toList ++ Markers.boundAttr.toList ++ "(".toList, ");", none)
  | some call =>
      match call.take (camelCaseAttrName false name) with
      | some (bound, call) => (" ".toList ++ bound ++ " = ".toList, ";", some call)
      | none => (" ".toList ++ Markers.boundAttr.toList ++ "(".toList, ");", some call)

def boundAttrOpen (charIdx : Nat) : Option (Lowering × Scan) :=
  if rem.head? = some ':' ∧ scan.html.inTag ∧ scan.html.componentTag ∧ scan.html.attrString = none ∧
      (charIdx = 0 ∨ (env.line[charIdx - 1]?).any isAsciiWhitespace) ∧ rem[1]? ≠ some ':' then
    if rem[1]? = some '$' ∧ (rem[2]?).any (fun ch => isAsciiAlphabetic ch || ch == '_') then
      let (text, suffix, call) := boundAttrPrefix scan ((rem.drop 2).takeWhile isWordChar)
      some (⟨1, text, .boundAttr none⟩,
        { scan with boundAttr := ⟨suffix, false⟩, openCall := call })
    else
      match boundAttrOpenLen rem with
      | none => some (.keep .html, scan)
      | some openLen =>
          let (text, suffix, call) := boundAttrPrefix scan ((rem.take (openLen - 2)).drop 1)
          let quote := rem[openLen - 1]?.getD '"'
          some (⟨openLen, text, .boundAttr (some quote)⟩,
            { scan with
              boundAttr := ⟨suffix, boundAttrSpansLines quote (rem.drop openLen) env.following⟩
              openCall := call })
  else none

/-- `tag::track` -/
def trackHtml (ch : Char) (next : Option Char) (html : HtmlPos) : HtmlPos :=
  match html.attrString with
  | some quote => if ch = quote then { html with attrString := none } else html
  | none =>
      if ch = '<' then
        if next.all (fun c => isAsciiAlphabetic c || c == '/') then
          { html with inTag := true, componentTag := false }
        else html
      else if ch = '>' then { html with inTag := false, componentTag := false }
      else if html.inTag = true ∧ (ch = '"' ∨ ch = '\'') then { html with attrString := some ch }
      else html

/-! ## Directives -/

/-- An argument list starts behind the name. -/
def hasArgs (afterName : List Char) : Bool :=
  decide ((afterName.dropWhile isWhitespace).head? = some '(')

/-- A directive whose argument list is read in `mode`. -/
def withArgs (matchLen : Nat) (text : List Char) (mode : Mode) : Lowering × Scan :=
  (⟨matchLen, text, mode⟩, { scan with parenDepth := 0 })

def spaced (text : List Char) : List Char := " ".toList ++ text ++ " ".toList

/-- What a loop directive declares behind its head. -/
def loopSuffix : String :=
  ": /** @var object\x7bindex: int, iteration: int, remaining: int, count: int, first: bool, " ++
  "last: bool, even: bool, odd: bool, depth: int, parent: ?object\x7bindex: int, iteration: int, " ++
  "remaining: int, count: int, first: bool, last: bool, even: bool, odd: bool, depth: int, " ++
  "parent: ?object\x7d\x7d $loop */ $loop = (object)[];"

def builtinOpen (directive : String) : Lowering × Scan :=
  let matchLen := 1 + directive.toList.length
  let translated := translateDirective directive
  let args := hasArgs (rem.drop matchLen)
  let html := fun text : List Char => ((⟨matchLen, text, .html⟩ : Lowering), scan)
  if directive = "php" then
    if args then withArgs scan matchLen (spaced translated) (.directiveArgs ";")
    else (⟨matchLen, [], .php false⟩, { scan with inPhpDirectiveBlock := true })
  else if directive = "endphp" then html []
  else if directive = "verbatim" then (⟨matchLen, " ".toList, .verbatim⟩, scan)
  else if directive = "empty" then
    if args then withArgs scan matchLen (spaced translated) (.directiveArgs "):")
    else html " endforeach; if (false): ".toList
  else if directive ∈ ["session", "context"] then
    withArgs scan matchLen " if (true) ".toList (.skipArgs ": $value = '';")
  else if directive = "error" then
    withArgs scan matchLen " if (true) ".toList (.skipArgs ": $message = '';")
  else if directive ∈ ["auth", "guest", "production", "env", "once"] then
    if args then withArgs scan matchLen " if (true) ".toList (.skipArgs ":")
    else html " if (true): ".toList
  else if directive ∈ ["foreach", "forelse"] then
    withArgs scan matchLen (spaced translated) (.directiveArgs loopSuffix)
  else if directive ∈ ["break", "continue"] then
    if args then
      withArgs scan matchLen " if ".toList
        (.directiveArgs (if directive = "break" then " break;" else " continue;"))
    else html (" ".toList ++ directive.toList ++ "; ".toList)
  else if directive ∈ ["if", "elseif", "for", "while", "switch", "case"] then
    withArgs scan matchLen (spaced translated) (.directiveArgs ":")
  else if directive ∈ ["unless", "isset", "can", "cannot", "canany", "elsecan", "elsecannot",
      "elsecanany", "hasStack", "hasSection", "sectionMissing"] then
    withArgs scan matchLen (spaced translated) (.directiveArgs "):")
  else if directive ∈ ["extends", "extendsFirst", "section", "yield", "include", "includeIf",
      "includeWhen", "includeUnless", "includeFirst", "push", "prepend", "component",
      "componentFirst", "slot", "props", "aware", "fragment", "includeIsolated", "each", "pushIf",
      "pushOnce", "prependOnce", "method", "class", "style", "checked", "selected", "disabled",
      "readonly", "required", "stack", "json", "dump", "unset", "choice", "js", "dd"] then
    withArgs scan matchLen (spaced translated) (.directiveArgs ";")
  else if directive ∈ ["lang", "vite", "fonts"] then
    if args then withArgs scan matchLen (spaced translated) (.directiveArgs ";")
    else html []
  else if directive ∈ ["endif", "endforeach", "endfor", "endwhile", "endunless", "endisset",
      "endempty", "endswitch", "endforelse", "endsection", "endpush", "endprepend",
      "endcomponent", "endcomponentFirst", "endslot", "stop", "show", "append", "overwrite",
      "else", "default", "endauth", "endguest", "endproduction", "endenv", "endsession",
      "endcontext", "enderror", "endonce", "endfragment", "endPushIf", "endPushOnce",
      "endPrependOnce", "csrf", "parent", "endcan", "endcannot", "endcanany", "endlang",
      "viteReactRefresh"] then html (spaced translated)
  else if directive ∈ ["use", "inject"] then
    if args then
      withArgs scan matchLen [] (.captureArgs (if directive = "use" then .use else .inject))
    else html []
  else (⟨matchLen, " ".toList ++ translated ++ "; ".toList, .php false⟩, scan)

def customOpen (name : List Char) (form : CustomForm) : Lowering × Scan :=
  let matchLen := 1 + name.length
  let args := hasArgs (rem.drop matchLen)
  let html := fun text : List Char => ((⟨matchLen, text, .html⟩ : Lowering), scan)
  let condition := fun keyword : List Char =>
    if args then
      withArgs scan matchLen
        (" ".toList ++ keyword ++ " (".toList ++ Markers.custom.toList ++ " ".toList)
        (.directiveArgs "):")
    else html (" ".toList ++ keyword ++ " (".toList ++ Markers.custom.toList ++ "()): ".toList)
  match form with
  | .ender => html " endif; ".toList
  | .opener => condition "if".toList
  | .elseForm => condition "elseif".toList
  | .statement =>
      if args then
        withArgs scan matchLen (" ".toList ++ Markers.custom.toList ++ " ".toList)
          (.directiveArgs ";")
      else html (" ".toList ++ Markers.custom.toList ++ "(); ".toList)

def directiveOpen : Option (Lowering × Scan) :=
  if rem.head? = some '@' then
    match env.directives.builtin rem.tail with
    | some directive => some (builtinOpen scan rem directive)
    | none =>
        match env.directives.custom rem.tail with
        | some (name, form) => some (customOpen scan rem name form)
        | none => some (.keep .html, scan)
  else none

/-- The first construct that opens at the cursor; a directive only where no
word ends. -/
def htmlLowering (charIdx : Nat) : Option (Lowering × Scan) :=
  (echoOpen env scan rem).or <| (phpIslandOpen scan rem).or <| (tagOpen env scan rem).or <|
    (tagClose scan rem).or <| (echoOpenEscaped env scan rem).or <|
    (if charIdx = 0 ∨ ¬(env.line[charIdx - 1]?).any isWordChar then directiveOpen env scan rem
      else none).or <|
    boundAttrOpen env scan rem charIdx

end Openers

/-! ## Captured argument lists -/

/-- `trim_matches` of blanks and quotes. -/
def trimQuotesAndSpace (text : List Char) : List Char :=
  let quoted := fun ch => [' ', '\'', '"'].contains ch
  ((text.dropWhile quoted).reverse.dropWhile quoted).reverse

def trimText (text : List Char) : List Char :=
  ((text.dropWhile isWhitespace).reverse.dropWhile isWhitespace).reverse

def isPhpIdentifier : List Char → Bool
  | [] => false
  | first :: rest => (isAsciiAlphabetic first || first == '_') && rest.all isWordChar

/-- The parts before and after the first comma. -/
def splitComma (text : List Char) : List Char × Option (List Char) :=
  match text.dropWhile (· ≠ ',') with
  | [] => (text, none)
  | _ :: rest => (text.takeWhile (· ≠ ','), some rest)

def withoutParens (raw : List Char) : List Char := raw.filter fun ch => ch ≠ '(' && ch ≠ ')'

def stripPrefix (start text : List Char) : Option (List Char) :=
  if start <+: text then some (text.drop start.length) else none

def buildUseStatement (raw : List Char) : Option (List Char) :=
  let expression := trimQuotesAndSpace (withoutParens raw)
  let (pathWithModifier, aliasText) :=
    if expression.contains '{' then (expression, [])
    else
      let (path, aliased) := splitComma expression
      (trimQuotesAndSpace path,
        match aliased with
        | some name => " as ".toList ++ trimQuotesAndSpace name
        | none => [])
  let (modifier, path) :=
    match stripPrefix "function ".toList pathWithModifier with
    | some rest => ("function ".toList, rest)
    | none =>
        match stripPrefix "const ".toList pathWithModifier with
        | some rest => ("const ".toList, rest)
        | none => ([], pathWithModifier)
  let path := (trimText path).dropWhile (· == '\\')
  if path.isEmpty then none else some ("use ".toList ++ modifier ++ path ++ aliasText ++ ";".toList)

/-- The service of an `@inject`, when its argument list names a variable and
one. -/
def injectedService (raw : List Char) : Option (List Char × List Char) :=
  let (before, after) := splitComma (withoutParens raw)
  let name := trimQuotesAndSpace before
  let service := trimText (after.getD [])
  if isPhpIdentifier name && !service.isEmpty then some (name, service) else none

def buildInjectStatement (raw : List Char) : List Char :=
  match injectedService raw with
  | none => []
  | some (name, service) => " $".toList ++ name ++ " = app(".toList ++ service ++ "); ".toList

/-! ## Steps -/

namespace State

def pushChar (s : State) (ch : Char) : State := { s with out := s.out.push ch }

def inMode (s : State) (mode : Mode) : State := { s with scan := { s.scan with mode } }

/-- Strings and comments of PHP. -/
def trackCode (s : State) (ch : Char) (next : Option Char) : Option State :=
  let pushed := s.pushChar ch
  if s.scan.inLineComment then some pushed
  else if s.scan.inBlockComment then
    if ch = '*' ∧ next = some '/' then
      let closed := pushed.pushChar '/'
      some { closed with scan := { closed.scan with inBlockComment := false } }
    else some pushed
  else
    match s.scan.inString with
    | some quote =>
        if s.scan.isEscaped then some { pushed with scan := { s.scan with isEscaped := false } }
        else if ch = '\\' then some { pushed with scan := { s.scan with isEscaped := true } }
        else if ch = quote then some { pushed with scan := { s.scan with inString := none } }
        else some pushed
    | none =>
        if ch = '\'' ∨ ch = '"' then some { pushed with scan := { s.scan with inString := some ch } }
        else if ch = '/' ∧ next = some '*' then
          some { pushed with scan := { s.scan with inBlockComment := true } }
        else if (ch = '/' ∧ next = some '/') ∨ (ch = '#' ∧ next ≠ some '[') then
          some { pushed with scan := { s.scan with inLineComment := true } }
        else none

/-- The character ends a bound attribute's expression. -/
def endsBoundAttr (s : State) (term : Option Char) (ch : Char) : Bool :=
  s.scan.inString.isNone &&
    match term with
    | some delim => ch == delim
    | none => !(isWordChar ch || ch == '$')

def closeBoundAttr (s : State) (term : Option Char) (ch : Char) : State :=
  let out := (s.out.flush (.boundAttr term)).emitSuffix s.scan.boundAttr.suffix.toList
  -- the closing quote is consumed, a shorthand's end is scanned again
  let out := if term.isSome then (out.skip ch).anchor else out
  { scan := { s.scan with mode := .html }, out }

/-- Put a lowering into effect, or keep the character. -/
def applyLowering (s : State) (ch : Char) (next : Option Char) (lowering : Lowering) : State :=
  if 0 < lowering.matchLen ∨ s.scan.mode ≠ lowering.nextMode then
    { scan := { s.scan with mode := lowering.nextMode }
      out := (s.out.flush s.scan.mode).lower lowering.matchLen lowering.replacement }
  else
    let html := if s.scan.mode = .html then trackHtml ch next s.scan.html else s.scan.html
    { scan := { s.scan with html }, out := s.out.push ch }

def setDepth (s : State) (depth : Int) : State :=
  { s with scan := { s.scan with parenDepth := depth } }

/-- The argument list of a directive, as it stands. -/
def consumeArgs (s : State) (suffix : String) (ch : Char) (next : Option Char) : State :=
  let (closes, depth) := closesArgs ch s.scan.parenDepth
  let s := s.setDepth depth
  if closes then
    { scan := { s.scan with mode := .html }
      out := ((s.out.push ')').flush (.directiveArgs suffix)).emitSuffix suffix.toList }
  else s.applyLowering ch next (.keep (.directiveArgs suffix))

/-- The argument list of a directive, passed over. -/
def skipArgs (s : State) (suffix : String) (ch : Char) : State :=
  let (closes, depth) := closesArgs ch s.scan.parenDepth
  let s := s.setDepth depth
  if closes then
    { scan := { s.scan with mode := .html }
      out := (s.out.advance 1).clear.emitSuffix suffix.toList }
  else { s with out := s.out.skip ch }

/-- The text of an argument list that is captured so far. -/
def captured (s : State) : List Char := s.scan.captureBuffer ++ s.out.buffer

/-- What a captured argument list becomes where it closes. -/
def capturedText (s : State) : CapturedDirective → List Char
  | .use => []
  | .inject => buildInjectStatement s.captured

/-- The argument list of `@use` and `@inject`. -/
def captureArgs (s : State) (kind : CapturedDirective) (ch : Char) (next : Option Char) : State :=
  let (closes, depth) := closesArgs ch s.scan.parenDepth
  let s := s.setDepth depth
  if closes then
    let hoisted := match kind with
      | .use => (buildUseStatement s.captured).toList
      | .inject => []
    { scan := { s.scan with
        mode := .html
        inString := none
        captureBuffer := []
        hoistedUses := s.scan.hoistedUses ++ hoisted }
      out := (s.out.advance 1).clear.emitSuffix (s.capturedText kind) }
  else s.applyLowering ch next (.keep (.captureArgs kind))

/-- Nothing in a verbatim block is lowered. -/
def scanVerbatim (s : State) (rem : List Char) (ch : Char) : State :=
  if "@endverbatim".toList <+: rem then
    { scan := { s.scan with mode := .html }, out := s.out.advance 12 }
  else { s with out := s.out.skip ch }

/-- One step by the mode, outside strings and comments. -/
def stepMode (env : LineEnv) (s : State) (ch : Char) (after : List Char) : State :=
  let rem := ch :: after
  let next := after.head?
  match s.scan.mode with
  | .html =>
      match htmlLowering env s.scan rem s.out.charIdx with
      | some (lowering, scan) => { s with scan }.applyLowering ch next lowering
      | none => s.applyLowering ch next (.keep .html)
  | .escapedEcho raw => s.applyLowering ch next (closeEscaped env rem raw)
  | .comment => s.applyLowering ch next (closeComment env rem s.out.charIdx)
  | .php rawEcho =>
      let (lowering, scan) := closePhp env s.scan rem rawEcho
      { s with scan }.applyLowering ch next lowering
  | .rawPhp needsSemicolon => s.applyLowering ch next (phpIslandClose rem needsSemicolon)
  | .directiveArgs suffix => s.consumeArgs suffix ch next
  | .skipArgs suffix => s.skipArgs suffix ch
  | .captureArgs kind => s.captureArgs kind ch next
  | .verbatim => s.scanVerbatim rem ch
  | .boundAttr term => s.applyLowering ch next (.keep (.boundAttr term))

/-- A string or a comment goes on or starts, or the mode decides. -/
def stepCode (env : LineEnv) (s : State) (ch : Char) (after : List Char) : State :=
  if s.scan.mode.isCode then
    match s.trackCode ch after.head? with
    | some s' => s'
    | none => s.stepMode env ch after
  else s.stepMode env ch after

/-- One turn of the scan of a line; nothing is left to do at its end. -/
def step (env : LineEnv) (s : State) : State :=
  match env.line.drop s.out.charIdx with
  | [] => s
  | ch :: after =>
      match s.scan.mode with
      | .boundAttr term =>
          if s.endsBoundAttr term ch then s.closeBoundAttr term ch else s.stepCode env ch after
      | _ => s.stepCode env ch after

end State

/-! ## Lines -/

/-- How a line starts. -/
def startLine (scan : Scan) : State where
  scan := { scan with
    mode := if scan.mode = .html ∧ scan.inPhpDirectiveBlock then .php false else scan.mode
    echoClosesAtEol := false
    inLineComment := false }
  out := .start

/-- Enough turns for any line: a turn moves on or changes the mode for one that does. -/
def turns (line : List Char) : Nat := 2 * line.length + 1

def scanLine (env : LineEnv) (s : State) : State := (State.step env)^[turns env.line] s

namespace State

/-- An echo nothing ahead closes is closed with its line. -/
def endEcho (s : State) : State :=
  match s.scan.mode with
  | .php rawEcho =>
      if s.scan.echoClosesAtEol then
        { scan := { s.scan with mode := .html, inString := none }
          out := ((s.out.flush s.scan.mode).emit
            (if rawEcho then "; ".toList else "); ".toList)).anchor }
      else s
  | .escapedEcho _ => if s.scan.echoClosesAtEol then s.inMode .html else s
  | _ => s

/-- A bound attribute whose quote no line closes is closed with its line. -/
def endBoundAttr (s : State) : State :=
  match s.scan.mode with
  | .boundAttr term =>
      let flushed := s.out.flush (.boundAttr term)
      if s.scan.boundAttr.multiline then { s with out := flushed }
      else
        { scan := { s.scan with mode := .html, inString := none }
          out := (flushed.emit s.scan.boundAttr.suffix.toList).anchor }
  | _ => s

/-- Text still buffered is flushed, or kept with a captured argument list. -/
def endBuffer (s : State) : State :=
  match s.scan.mode with
  | .captureArgs _ =>
      { scan := { s.scan with captureBuffer := s.scan.captureBuffer ++ s.out.buffer ++ ['\n'] }
        out := s.out.clear }
  | mode => { s with out := s.out.flush mode }

def endLine (s : State) : State := s.endEcho.endBoundAttr.endBuffer

end State

/-- Drop an anchor that repeats the one before it. -/
def dedupAnchors : List (Nat × Nat) → List (Nat × Nat)
  | [] => []
  | [a] => [a]
  | a :: b :: rest => if a = b then dedupAnchors (b :: rest) else a :: dedupAnchors (b :: rest)

/-- What is emitted for a line: its PHP and its anchors. -/
structure LoweredLine where
  php : List Char
  anchors : List (Nat × Nat)

def LineOut.lowered (out : LineOut) : LoweredLine := ⟨out.processed, dedupAnchors out.adjustments⟩

/-- What the whole scan reads. -/
structure Project where
  components : Option ComponentResolver
  directives : BladeDirectives

/-- `str::lines` -/
def lines (content : List Char) : List (List Char) :=
  match content with
  | [] => []
  | ch :: rest =>
      if ch = '\n' then [] :: lines rest
      else
        match lines rest with
        | [] => [[ch]]
        | line :: following =>
            -- a carriage return in front of a line break belongs to it
            if ch = '\r' ∧ rest.head? = some '\n' then line :: following
            else (ch :: line) :: following

/-- The last line that holds the text. -/
def lastLineWith (all : List (List Char)) (needle : List Char) : Option Nat :=
  (all.zipIdx.filter fun line => containsSeq line.1 needle).getLast?.map Prod.snd

def lineEnv (project : Project) (all : List (List Char)) (lineIdx : Nat) (line : List Char)
    (following : List (List Char)) : LineEnv where
  line := line
  lineIdx := lineIdx
  following := following
  lastEscaped := lastLineWith all ['}', '}']
  lastRaw := lastLineWith all ['!', '!', '}']
  components := project.components
  directives := project.directives

/-- Scan the lines from `lineIdx` on. -/
def scanLines (project : Project) (all : List (List Char)) :
    (lineIdx : Nat) → List (List Char) → Scan → List LoweredLine × Scan
  | _, [], scan => ([], scan)
  | lineIdx, line :: following, scan =>
      let ended := (scanLine (lineEnv project all lineIdx line following) (startLine scan)).endLine
      let (lowered, scan) := scanLines project all (lineIdx + 1) following ended.scan
      (ended.out.lowered :: lowered, scan)

def startScan : Scan where
  mode := .html
  parenDepth := 0
  inString := none
  isEscaped := false
  inBlockComment := false
  inLineComment := false
  inPhpDirectiveBlock := false
  echoClosesAtEol := false
  html := ⟨false, false, none⟩
  captureBuffer := []
  boundAttr := ⟨");", false⟩
  openCall := none
  hoistedUses := []

def scanTemplate (project : Project) (content : List Char) : List LoweredLine × Scan :=
  scanLines project (lines content) 0 (lines content) startScan

/-! ## The virtual file -/

def scopeClassName (fqn : List Char) : List Char :=
  "__blade_scope_".toList ++ (trimMatches '\\' fqn).map fun ch => if ch = '\\' then '_' else ch

/-- The prologue up to where imports are spliced in. -/
def prologueHead : List Char := "<?php\n".toList

/-- The rest of the prologue: the variables declared, each with the PHP that
declares it, and the head of the function that holds the template. -/
def prologueTail (declared : List (List Char × List Char)) (thisClass : Option (List Char)) :
    List Char :=
  "/** @var \\Illuminate\\Support\\ViewErrorBag $errors */\n".toList ++
  "$errors = new \\Illuminate\\Support\\ViewErrorBag();\n".toList ++
  "/** @var \\Illuminate\\View\\Factory $__env */\n".toList ++
  "$__env = new \\Illuminate\\View\\Factory();\n".toList ++
  declared.flatMap Prod.snd ++
  (match thisClass with
    | some fqn => "abstract class ".toList ++ scopeClassName fqn ++ " extends \\".toList ++
        trimMatches '\\' fqn ++ " \x7b public ".toList
    | none => []) ++
  "function __blade_template() \x7b global $errors, $__env".toList ++
  declared.flatMap (fun d => ", $".toList ++ d.1) ++ ";\n".toList

def newlines (text : List Char) : Nat := text.count '\n'

structure Preprocessed where
  virtualPhp : List Char
  prologueLines : Nat
  adjustments : List (List (Nat × Nat))

/-- What follows the last line of the template. -/
def epilogue (scan : Scan) (thisClass : Option (List Char)) : List Char :=
  (if scan.mode = .comment then " */\n".toList else []) ++
  (match scan.mode with
    | .boundAttr _ => scan.boundAttr.suffix.toList ++ ['\n']
    | _ => []) ++
  (match scan.openCall with
    | some call => call.close ++ ['\n']
    | none => []) ++
  if thisClass.isSome then "\x7d \x7d\n".toList else "\x7d\n".toList

/-- The lines of the template, as they are emitted. -/
def body (lowered : List LoweredLine) : List Char := lowered.flatMap fun line => line.php ++ ['\n']

/-- `preprocess_with_vars`, for the declarations the prologue makes. -/
def preprocess (project : Project) (declared : List (List Char × List Char))
    (thisClass : Option (List Char)) (content : List Char) : Preprocessed :=
  let (lowered, scan) := scanTemplate project content
  let prologue := prologueHead ++ prologueTail declared thisClass
  let usesInsertAt := prologueHead.length
  let virtualPhp := prologue ++ body lowered ++ epilogue scan thisClass
  let adjustments := lowered.map LoweredLine.anchors
  if scan.hoistedUses = [] then ⟨virtualPhp, newlines prologue, adjustments⟩
  else
    let block := scan.hoistedUses.flatMap (· ++ ['\n'])
    ⟨virtualPhp.take usesInsertAt ++ block ++ virtualPhp.drop usesInsertAt,
      newlines prologue + newlines block, adjustments⟩

end PhpantomLsp.Blade
