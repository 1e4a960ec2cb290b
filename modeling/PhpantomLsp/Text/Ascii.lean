import Mathlib.Algebra.GroupWithZero.Nat
import Mathlib.Data.List.Infix

/-!
# Text as Rust's `str` reads it

The small string operations the type module is written with, over the
characters of a `String`.  Every one of them only looks at ASCII characters,
so reading characters instead of UTF-8 bytes makes no difference to the
answer.
-/

namespace PhpantomLsp.Text

/-- `str::to_ascii_lowercase`. -/
def asciiLower (s : String) : String := String.ofList (s.toList.map Char.toLower)

/-- `str::eq_ignore_ascii_case`. -/
def eqIgnoreAsciiCase (a b : String) : Bool := asciiLower a == asciiLower b

/-- `str::len`: the number of UTF-8 bytes. -/
def byteLen (s : String) : Nat := (s.toList.map Char.utf8Size).sum

/-- Whether the characters `needle` stand somewhere in `hay`. -/
def occursIn (needle : List Char) : List Char → Bool
  | [] => needle.isEmpty
  | c :: hay => needle.isPrefixOf (c :: hay) || occursIn needle hay

/-- `str::contains` with a text needle. -/
def containsText (needle s : String) : Bool := occursIn needle.toList s.toList

/-- `str::strip_prefix` with one character. -/
def stripPrefixChar (c : Char) (s : String) : Option String :=
  match s.toList with
  | d :: rest => if d = c then some (String.ofList rest) else none
  | [] => none

/-- `s.strip_prefix('\\').unwrap_or(s)`. -/
def stripFqnPrefix (s : String) : String := (stripPrefixChar '\\' s).getD s

/-- `char::is_whitespace`, the characters `str::trim` removes. -/
def isWhitespace (c : Char) : Bool :=
  let n := c.toNat
  (9 ≤ n && n ≤ 13) || n = 32 || n = 0x85 || n = 0xA0 || n = 0x1680
    || (0x2000 ≤ n && n ≤ 0x200A) || n = 0x2028 || n = 0x2029 || n = 0x202F
    || n = 0x205F || n = 0x3000

/-- `str::trim`. -/
def trim (s : String) : String :=
  String.ofList ((s.toList.dropWhile isWhitespace).reverse.dropWhile isWhitespace).reverse

/-- `str::rsplit_once("::")`, on the characters: what stands before and after
the last `::`. -/
def rsplitOnceColons : List Char → Option (List Char × List Char)
  | [] => none
  | c :: rest =>
      match rsplitOnceColons rest with
      | some (before, after) => some (c :: before, after)
      | none =>
          match c, rest with
          | ':', ':' :: after => some ([], after)
          | _, _ => none

/-- `str::split('\\')`, on the characters. -/
def splitBackslash : List Char → List (List Char)
  | [] => [[]]
  | c :: rest =>
      match splitBackslash rest with
      | [] => [[c]]
      | part :: parts => if c = '\\' then [] :: part :: parts else (c :: part) :: parts

/-- `char::is_ascii_digit`. -/
def isAsciiDigit (c : Char) : Bool := '0' ≤ c && c ≤ '9'

/-- `char::is_ascii_alphabetic`. -/
def isAsciiAlphabetic (c : Char) : Bool :=
  ('a' ≤ c && c ≤ 'z') || ('A' ≤ c && c ≤ 'Z')

/-- `char::is_ascii_alphanumeric`. -/
def isAsciiAlphanumeric (c : Char) : Bool := isAsciiDigit c || isAsciiAlphabetic c

/-- `!char::is_ascii`. -/
def isNonAscii (c : Char) : Bool := 128 ≤ c.toNat

/-! ## Lemmas -/

@[simp] theorem toList_asciiLower (s : String) :
    (asciiLower s).toList = s.toList.map Char.toLower := by
  simp [asciiLower]

@[simp] theorem eqIgnoreAsciiCase_iff {a b : String} :
    eqIgnoreAsciiCase a b = true ↔ asciiLower a = asciiLower b := by
  simp [eqIgnoreAsciiCase]

end PhpantomLsp.Text
