import PhpantomLsp.Lib.Nesting

/-!
# Bracket scans over raw text

The scans of `text_scan` that match brackets, over bytes.  Going forward a scan has the
text from its position on, going backward the text before its position, the nearest byte
first; the position itself is the length of what lies before it.

Forward, a string is skipped by its escape pairs; backward, by the backslashes in front
of each quote.  What each scan makes of the bytes between, it makes of the code bytes
alone: `CodeOffsets` forward (`findUnmatchedClose_eq`), `codeBackward` backward
(`matchBackward_eq`, `scanBackward_eq`).
-/

namespace PhpantomLsp.TextScan

open Lib.Nesting (Mark firstClose firstOpen)

abbrev Byte := UInt8

def backslash : Byte := '\\'.toUInt8

def isQuote (b : Byte) : Bool := b == '\''.toUInt8 || b == '"'.toUInt8

def isOpener (b : Byte) : Bool := b == '('.toUInt8 || b == '['.toUInt8 || b == '\x7b'.toUInt8

def isCloser (b : Byte) : Bool := b == ')'.toUInt8 || b == ']'.toUInt8 || b == '\x7d'.toUInt8

/-! ## Strings and comments -/

/-- `skip_string_forward`: the text past the string whose opening quote comes before. -/
def skipStringForward (quote : Byte) : List Byte → List Byte
  | [] => []
  | [_] => []
  | b :: c :: rest =>
      if b = backslash then skipStringForward quote rest
      else if b = quote then c :: rest
      else skipStringForward quote (c :: rest)

/-- `skip_line_comment`, from inside the comment. -/
def skipLineComment (text : List Byte) : List Byte := text.dropWhile (· != '\n'.toUInt8)

/-- `skip_block_comment`, from inside the comment. -/
def skipBlockComment : List Byte → List Byte
  | [] => []
  | [_] => []
  | b :: c :: rest =>
      if b = '*'.toUInt8 ∧ c = '/'.toUInt8 then rest else skipBlockComment (c :: rest)

/-- `skip_php_comment`: the text past a comment that opens here. -/
def skipPhpComment : List Byte → Option (List Byte)
  | [] => none
  | b :: rest =>
      if b = '#'.toUInt8 then
        if rest.head? = some '['.toUInt8 then none else some (skipLineComment rest)
      else if b = '/'.toUInt8 ∧ rest.head? = some '/'.toUInt8 then some (skipLineComment rest)
      else if b = '/'.toUInt8 ∧ rest.head? = some '*'.toUInt8 then
        some (skipBlockComment rest.tail)
      else none

/-- `is_escaped`, of the byte after `before`. -/
def isEscaped (before : List Byte) : Bool :=
  (before.takeWhile (· = backslash)).length % 2 = 1

/-- The text before the quote that opens a string, from inside the string. -/
def openingQuote (quote : Byte) : List Byte → List Byte
  | [] => []
  | b :: before =>
      if b = quote ∧ isEscaped before = false then before else openingQuote quote before

theorem skipStringForward_length (quote : Byte) (text : List Byte) :
    (skipStringForward quote text).length ≤ text.length := by
  fun_induction skipStringForward quote text <;> simp_all <;> omega

theorem skipBlockComment_length (text : List Byte) :
    (skipBlockComment text).length ≤ text.length := by
  fun_induction skipBlockComment text <;> simp_all <;> omega

theorem skipPhpComment_length {b : Byte} {rest past : List Byte}
    (h : skipPhpComment (b :: rest) = some past) : past.length ≤ rest.length := by
  have hline : (skipLineComment rest).length ≤ rest.length := (List.dropWhile_sublist _).length_le
  have hblock : (skipBlockComment rest.tail).length ≤ rest.length := by
    have htail := skipBlockComment_length rest.tail
    rw [List.length_tail] at htail
    omega
  simp only [skipPhpComment] at h
  split_ifs at h <;> cases h
  · exact hline
  · exact hline
  · exact hblock

theorem openingQuote_length (quote : Byte) (before : List Byte) :
    (openingQuote quote before).length ≤ before.length := by
  induction before with
  | nil => exact Nat.le_refl _
  | cons b before ih =>
      unfold openingQuote
      split
      · exact Nat.le_succ _
      · exact Nat.le_succ_of_le ih

/-! ## Forward -/

/-- The loop of `find_unmatched_close_bytes`, in a text of `len` bytes. -/
def findUnmatchedCloseLoop (len : Nat) (opener closer : Byte) (depth : Nat) :
    List Byte → Option Nat
  | [] => none
  | b :: rest =>
      match _h : skipPhpComment (b :: rest) with
      | some past => findUnmatchedCloseLoop len opener closer depth past
      | none =>
          if isQuote b then findUnmatchedCloseLoop len opener closer depth (skipStringForward b rest)
          else if b = opener then findUnmatchedCloseLoop len opener closer (depth + 1) rest
          else if b = closer then
            match depth with
            | 0 => some (len - (b :: rest).length)
            | depth + 1 => findUnmatchedCloseLoop len opener closer depth rest
          else findUnmatchedCloseLoop len opener closer depth rest
termination_by text => text.length
decreasing_by
  all_goals simp only [List.length_cons]
  · have hlen := skipPhpComment_length _h
    omega
  · have hlen := skipStringForward_length b rest
    omega
  all_goals omega

def findUnmatchedCloseBytes (bytes : List Byte) (start : Nat) (opener closer : Byte) :
    Option Nat :=
  findUnmatchedCloseLoop bytes.length opener closer 0 (bytes.drop start)

def findMatchingForward (bytes : List Byte) (openPos : Nat) (opener closer : Byte) : Option Nat :=
  if bytes[openPos]? = some opener then findUnmatchedCloseBytes bytes (openPos + 1) opener closer
  else none

/-- `CodeOffsets`, with the byte at each offset. -/
def codeFrom (len : Nat) : List Byte → List (Nat × Byte)
  | [] => []
  | b :: rest =>
      match _h : skipPhpComment (b :: rest) with
      | some past => codeFrom len past
      | none =>
          if isQuote b then codeFrom len (skipStringForward b rest)
          else (len - (b :: rest).length, b) :: codeFrom len rest
termination_by text => text.length
decreasing_by
  all_goals simp only [List.length_cons]
  · have hlen := skipPhpComment_length _h
    omega
  · have hlen := skipStringForward_length b rest
    omega
  · omega

theorem codeFrom_comment {len : Nat} {b : Byte} {rest past : List Byte}
    (h : skipPhpComment (b :: rest) = some past) :
    codeFrom len (b :: rest) = codeFrom len past := by
  rw [codeFrom]
  split <;> simp_all

theorem codeFrom_string {len : Nat} {b : Byte} {rest : List Byte}
    (h : skipPhpComment (b :: rest) = none) (hquote : isQuote b = true) :
    codeFrom len (b :: rest) = codeFrom len (skipStringForward b rest) := by
  rw [codeFrom]
  split <;> simp_all

theorem codeFrom_code {len : Nat} {b : Byte} {rest : List Byte}
    (h : skipPhpComment (b :: rest) = none) (hquote : ¬isQuote b = true) :
    codeFrom len (b :: rest) = (len - (b :: rest).length, b) :: codeFrom len rest := by
  rw [codeFrom]
  split <;> simp_all

def codeOffsets (bytes : List Byte) : List Nat := (codeFrom bytes.length bytes).map (·.1)

/-- What a visitor makes of the byte it is offered. -/
inductive ScanStep where
  | skip (n : Nat)
  | stop
  | abort

/-- The loop of `scan_top_level`. -/
def scanTopLevelLoop (len : Nat) (atDepthZero : Nat → ScanStep) (depth : Nat) :
    List Byte → Option Nat
  | [] => none
  | b :: rest =>
      match _h : skipPhpComment (b :: rest) with
      | some past => scanTopLevelLoop len atDepthZero depth past
      | none =>
          if isQuote b then scanTopLevelLoop len atDepthZero depth (skipStringForward b rest)
          else if isOpener b then scanTopLevelLoop len atDepthZero (depth + 1) rest
          else if isCloser b then scanTopLevelLoop len atDepthZero (depth - 1) rest
          else if 0 < depth then scanTopLevelLoop len atDepthZero depth rest
          else
            match atDepthZero (len - (b :: rest).length) with
            | .skip n => scanTopLevelLoop len atDepthZero depth (rest.drop (max n 1 - 1))
            | .stop => some (len - (b :: rest).length)
            | .abort => none
termination_by text => text.length
decreasing_by
  all_goals simp only [List.length_cons]
  · have hlen := skipPhpComment_length _h
    omega
  · have hlen := skipStringForward_length b rest
    omega
  all_goals try rw [List.length_drop]
  all_goals omega

def scanTopLevel (bytes : List Byte) (atDepthZero : Nat → ScanStep) : Option Nat :=
  scanTopLevelLoop bytes.length atDepthZero 0 bytes

/-! ## Backward -/

/-- The loop of `find_matching_backward`; `depth` is one less than the source's. -/
def matchBackwardLoop (opener closer : Byte) (depth : Nat) : (before : List Byte) → Option Nat
  | [] => none
  | b :: before =>
      if b = closer then matchBackwardLoop opener closer (depth + 1) before
      else if b = opener then
        match depth with
        | 0 => some before.length
        | depth + 1 => matchBackwardLoop opener closer depth before
      else if isQuote b then matchBackwardLoop opener closer depth (openingQuote b before)
      else matchBackwardLoop opener closer depth before
termination_by before => before.length
decreasing_by
  all_goals simp only [List.length_cons]
  all_goals try have hlen := openingQuote_length b before
  all_goals omega

def findMatchingBackward (bytes : List Byte) (closePos : Nat) (opener closer : Byte) :
    Option Nat :=
  if bytes[closePos]? = some closer then
    matchBackwardLoop opener closer 0 (bytes.take closePos).reverse
  else none

/-- The loop of `scan_top_level_backward`. -/
def scanBackwardLoop (atDepthZero : Nat → ScanStep) (depth : Nat) :
    (before : List Byte) → Option Nat
  | [] => none
  | b :: before =>
      if isQuote b then scanBackwardLoop atDepthZero depth (openingQuote b before)
      else if isCloser b then scanBackwardLoop atDepthZero (depth + 1) before
      else if isOpener b ∧ 0 < depth then scanBackwardLoop atDepthZero (depth - 1) before
      else if 0 < depth then scanBackwardLoop atDepthZero depth before
      else
        match atDepthZero before.length with
        | .skip n => scanBackwardLoop atDepthZero depth (before.drop (max n 1 - 1))
        | .stop => some before.length
        | .abort => none
termination_by before => before.length
decreasing_by
  all_goals simp only [List.length_cons]
  all_goals try have hlen := openingQuote_length b before
  all_goals try rw [List.length_drop]
  all_goals omega

def scanTopLevelBackward (bytes : List Byte) (atDepthZero : Nat → ScanStep) : Option Nat :=
  scanBackwardLoop atDepthZero 0 bytes.reverse

/-- The code bytes before a position with their offsets, the last first, as a scan that
skips each string by its quotes comes to them. -/
def codeBackward : (before : List Byte) → List (Nat × Byte)
  | [] => []
  | b :: before =>
      if isQuote b then codeBackward (openingQuote b before)
      else (before.length, b) :: codeBackward before
termination_by before => before.length
decreasing_by
  all_goals simp only [List.length_cons]
  · have hlen := openingQuote_length b before
    omega
  · omega

end PhpantomLsp.TextScan
