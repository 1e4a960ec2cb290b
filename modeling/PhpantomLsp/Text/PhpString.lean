import PhpantomLsp.Text.Ascii

/-!
# PHP string literals

From the spelling of a quoted literal to the value PHP gives it.  A decoded
literal is a run of bytes, since a hexadecimal or octal escape names a byte
rather than a character, and it is only a text when those bytes are valid
UTF-8.

A key written out as a single-quoted literal reads back as itself, which is
`decodePhpStringLiteral_quotePhpString`.
-/

namespace PhpantomLsp.Text

/-- `char::to_digit(16)`. -/
def hexDigit (c : Char) : Option Nat :=
  if '0' ≤ c ∧ c ≤ '9' then some (c.toNat - 48)
  else if 'a' ≤ c ∧ c ≤ 'f' then some (c.toNat - 87)
  else if 'A' ≤ c ∧ c ≤ 'F' then some (c.toNat - 55)
  else none

/-- The digit of an octal escape. -/
def octalDigit (c : Char) : Option Nat :=
  if '0' ≤ c ∧ c ≤ '7' then some (c.toNat - 48) else none

/-- Read at most `limit` digits in base `radix`, continuing from `value`:
the number read, how many digits it took, and what follows them. -/
def takeDigits (digit : Char → Option Nat) (radix : Nat) :
    Nat → Nat → List Char → Nat × Nat × List Char
  | _, value, [] => (value, 0, [])
  | 0, value, rest => (value, 0, rest)
  | limit + 1, value, c :: rest =>
      match digit c with
      | some d =>
          let (read, len, after) := takeDigits digit radix limit (value * radix + d) rest
          (read, len + 1, after)
      | none => (value, 0, c :: rest)

/-- `char::from_u32`. -/
def charFromU32 (n : Nat) : Option Char :=
  if n < 0xD800 ∨ (0xDFFF < n ∧ n < 0x110000) then some (Char.ofNat n) else none

/-- The bytes of one character. -/
def charBytes (c : Char) : List UInt8 := String.utf8EncodeChar c

/-- A backslash copied through with the character after it. -/
def literalEscape (next : Char) (rest : List Char) : Option (List UInt8 × List Char) :=
  some (charBytes '\\' ++ charBytes next, rest)

/-- What a backslash followed by `next` stands for in a single-quoted
literal, and what is left to decode. -/
def singleQuotedEscape (next : Char) (rest : List Char) : Option (List UInt8 × List Char) :=
  match next with
  | '\\' => some (charBytes '\\', rest)
  | '\'' => some (charBytes '\'', rest)
  | _ => literalEscape next rest

/-- The same in a double-quoted literal, where a Unicode escape may be one
PHP rejects. -/
def doubleQuotedEscape (next : Char) (rest : List Char) : Option (List UInt8 × List Char) :=
  match next with
  | '\\' => some (charBytes '\\', rest)
  | '"' => some (charBytes '"', rest)
  | '$' => some (charBytes '$', rest)
  | 'n' => some ([10], rest)
  | 't' => some ([9], rest)
  | 'r' => some ([13], rest)
  | 'v' => some ([0x0B], rest)
  | 'e' => some ([0x1B], rest)
  | 'f' => some ([0x0C], rest)
  | 'x' =>
      let (value, len, after) := takeDigits hexDigit 16 2 0 rest
      if len = 0 then literalEscape next rest else some ([UInt8.ofNat value], after)
  | 'u' =>
      match rest with
      | '{' :: digits =>
          let (value, len, after) := takeDigits hexDigit 16 digits.length 0 digits
          match after with
          | '}' :: after =>
              if len = 0 then none
              else (charFromU32 value).map fun c => (charBytes c, after)
          | _ => none
      | _ => literalEscape next rest
  | _ =>
      match octalDigit next with
      | some d =>
          let (value, _, after) := takeDigits octalDigit 8 2 d rest
          some ([UInt8.ofNat value], after)
      | none => literalEscape next rest

/-- The loop over the content of a literal.  Every round consumes at least
one character, so the length of the content is enough fuel. -/
def decodeContent (doubleQuoted : Bool) : Nat → List Char → Option (List UInt8)
  | 0, _ => some []
  | _, [] => some []
  | fuel + 1, c :: rest =>
      if c = '\\' then
        match rest with
        | [] => some (charBytes '\\')
        | next :: rest =>
            let escape := if doubleQuoted then doubleQuotedEscape else singleQuotedEscape
            (escape next rest).bind fun (bytes, after) =>
              (decodeContent doubleQuoted fuel after).map (bytes ++ ·)
      else (decodeContent doubleQuoted fuel rest).map (charBytes c ++ ·)

/-- `String::from_utf8`. -/
def stringFromUtf8 (bytes : List UInt8) : Option String :=
  bytes.toByteArray.utf8Decode?.map (fun chars => String.ofList chars.toList)

/-- What stands between `quote` at both ends of a text. -/
def stripQuotes (quote : Char) : List Char → Option (List Char)
  | [] => none
  | c :: rest =>
      if c = quote then
        match rest.reverse with
        | d :: content => if d = quote then some content.reverse else none
        | [] => none
      else none

/-- Whether the literal is double-quoted, and its content. -/
def literalContent (raw : String) : Option (Bool × List Char) :=
  match stripQuotes '\'' raw.toList with
  | some content => some (false, content)
  | none => (stripQuotes '"' raw.toList).map fun content => (true, content)

/-- `decode_php_string_literal`. -/
def decodePhpStringLiteral (raw : String) : Option String :=
  (literalContent raw).bind fun (doubleQuoted, content) =>
    if '\\' ∈ content then
      (decodeContent doubleQuoted content.length content).bind stringFromUtf8
    else some (String.ofList content)

/-- How far `skip_string_forward` reads past an opening `quote`. -/
def skipStringForward (quote : Char) : List Char → Nat
  | [] => 0
  | [c] => if c = '\\' then 2 else 1
  | c :: d :: rest =>
      if c = '\\' then 2 + skipStringForward quote rest
      else if c = quote then 1
      else 1 + skipStringForward quote (d :: rest)

/-- `is_escaped`, for the last character of a text. -/
def isLastEscaped (chars : List Char) : Bool :=
  ((chars.reverse.drop 1).takeWhile (· = '\\')).length % 2 = 1

/-- `is_whole_string_literal`. -/
def isWholeStringLiteral (raw : String) : Bool :=
  match raw.toList with
  | quote :: rest =>
      (quote = '\'' || quote = '"') && !rest.isEmpty
        && skipStringForward quote rest == rest.length
        && rest.getLast? == some quote
        && !isLastEscaped (quote :: rest)
  | [] => false

/-- `unquote_php_string`. -/
def unquotePhpString (raw : String) : Option String :=
  if isWholeStringLiteral raw then some (String.ofList (raw.toList.tail.dropLast)) else none

/-- The escaping of `value.replace('\\', "\\\\").replace('\'', "\\'")`. -/
def escapeChar (c : Char) : List Char :=
  if c = '\\' then ['\\', '\\'] else if c = '\'' then ['\\', '\''] else [c]

/-- A text as a single-quoted literal. -/
def quotePhpString (value : String) : String :=
  String.ofList ('\'' :: value.toList.flatMap escapeChar ++ ['\''])

/-! ## Reading a quoted text back -/

theorem stripQuotes_quoted (quote : Char) (content : List Char) :
    stripQuotes quote (quote :: content ++ [quote]) = some content := by
  simp [stripQuotes]

/-- What the decoder undoes: a character stands for itself, or a backslash and a second
character are read as it. -/
def Undone (doubleQuoted : Bool) (escape : Char → List Char) : Prop :=
  ∀ c, (escape c = [c] ∧ c ≠ '\\') ∨
    ∃ next, escape c = ['\\', next] ∧ ∀ rest,
      (if doubleQuoted then doubleQuotedEscape else singleQuotedEscape) next rest =
        some (charBytes c, rest)

/-- The escaped form of a text decodes to the bytes of the text. -/
theorem decodeContent_flatMap {doubleQuoted : Bool} {escape : Char → List Char}
    (h : Undone doubleQuoted escape) (chars : List Char) (fuel : Nat)
    (hfuel : (chars.flatMap escape).length ≤ fuel) :
    decodeContent doubleQuoted fuel (chars.flatMap escape) =
      some (chars.flatMap charBytes) := by
  induction chars generalizing fuel with
  | nil => cases fuel <;> rfl
  | cons c rest ih =>
      rw [List.flatMap_cons, List.length_append] at hfuel
      rw [List.flatMap_cons, List.flatMap_cons]
      rcases h c with ⟨hself, hslash⟩ | ⟨next, hescape, hnext⟩
      · rw [hself, List.length_singleton] at hfuel
        obtain ⟨fuel, rfl⟩ : ∃ n, fuel = n + 1 := ⟨fuel - 1, by omega⟩
        have hrest := ih fuel (by omega)
        simp only [hself, List.singleton_append, decodeContent, if_neg hslash, hrest]
        rfl
      · rw [hescape, List.length_cons] at hfuel
        obtain ⟨fuel, rfl⟩ : ∃ n, fuel = n + 1 := ⟨fuel - 1, by omega⟩
        have hrest := ih fuel (by omega)
        simp only [hescape, List.cons_append, List.nil_append, decodeContent, if_true, hnext,
          Option.bind_some, hrest]
        rfl

/-- Nothing is escaped where no backslash is written. -/
theorem flatMap_of_not_mem {doubleQuoted : Bool} {escape : Char → List Char}
    (h : Undone doubleQuoted escape) {chars : List Char} (hslash : '\\' ∉ chars.flatMap escape) :
    chars.flatMap escape = chars := by
  induction chars with
  | nil => rfl
  | cons c rest ih =>
      rw [List.flatMap_cons, List.mem_append, not_or] at hslash
      rcases h c with ⟨hself, -⟩ | ⟨next, hescape, -⟩
      · rw [List.flatMap_cons, hself, ih hslash.2]
        rfl
      · rw [hescape] at hslash
        exact absurd List.mem_cons_self hslash.1

theorem stringFromUtf8_charBytes (chars : List Char) :
    stringFromUtf8 (chars.flatMap charBytes) = some (String.ofList chars) := by
  have hencode : (chars.flatMap charBytes).toByteArray = chars.utf8Encode := rfl
  simp [stringFromUtf8, hencode]

/-- A text whose escaped form stands between the quotes reads back as itself. -/
theorem decodePhpStringLiteral_of_content {doubleQuoted : Bool} {escape : Char → List Char}
    (h : Undone doubleQuoted escape) {raw : String} {chars : List Char}
    (hcontent : literalContent raw = some (doubleQuoted, chars.flatMap escape)) :
    decodePhpStringLiteral raw = some (String.ofList chars) := by
  simp only [decodePhpStringLiteral, hcontent, Option.bind_some]
  split
  · rw [decodeContent_flatMap h chars _ (le_refl _), Option.bind_some,
      stringFromUtf8_charBytes]
  · next hslash => rw [flatMap_of_not_mem h hslash]

theorem undone_escapeChar : Undone false escapeChar := by
  intro c
  by_cases hslash : c = '\\'
  · subst hslash
    exact .inr ⟨'\\', rfl, fun _ => rfl⟩
  · by_cases hquote : c = '\''
    · subst hquote
      exact .inr ⟨'\'', rfl, fun _ => rfl⟩
    · exact .inl ⟨by rw [escapeChar, if_neg hslash, if_neg hquote], hslash⟩

/-- A text written out as a single-quoted literal reads back as itself. -/
theorem decodePhpStringLiteral_quotePhpString (value : String) :
    decodePhpStringLiteral (quotePhpString value) = some value := by
  have hcontent : literalContent (quotePhpString value) =
      some (false, value.toList.flatMap escapeChar) := by
    simp only [literalContent, quotePhpString, String.toList_ofList]
    rw [stripQuotes_quoted]
  rw [decodePhpStringLiteral_of_content undone_escapeChar hcontent, String.ofList_toList]

end PhpantomLsp.Text
