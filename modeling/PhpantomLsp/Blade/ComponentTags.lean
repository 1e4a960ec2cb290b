import PhpantomLsp.Blade.Directives

/-!
# Component tags

A `<x-…>` or `<livewire:…>` tag becomes a call of the class behind it when the
resolver knows one.  The plain attributes are read ahead to the `>` of the tag,
over line breaks, and are kept with the open call; a bound attribute is an
argument when it names a parameter nothing has filled yet.  The whole call is
written where the tag closes.
-/

namespace PhpantomLsp.Blade

inductive TagKind where
  | blade
  | livewire
deriving DecidableEq

def TagKind.tagPrefix : TagKind → List Char
  | .blade => "x-".toList
  | .livewire => "livewire:".toList

structure ComponentParameter where
  name : List Char
  /-- What the call passes when no attribute fills the parameter. -/
  fallback : Option (List Char)

inductive ComponentBinding where
  | construct (parameters : List ComponentParameter)
  | mount (parameters : List ComponentParameter)
  | declare

structure ComponentTarget where
  fqn : List Char
  binding : ComponentBinding

structure ComponentResolver where
  xComponent : List Char → Option ComponentTarget
  livewireComponent : List Char → Option ComponentTarget

/-- `is_ascii_whitespace` -/
def isAsciiWhitespace (ch : Char) : Bool := [' ', '\t', '\n', '\r', '\x0c'].contains ch

def isTagNameChar (ch : Char) : Bool := isAsciiAlphanumeric ch || ['-', '.', ':', '_'].contains ch

def isAttrNameChar (ch : Char) : Bool :=
  isAsciiAlphanumeric ch || ['-', '.', ':', '_', '@'].contains ch

/-! ## Attributes -/

structure TagAttribute where
  name : List Char
  bound : Bool
  value : Option (List Char)

/-- The value after a `=`, and what follows it. -/
def attrValue : List Char → List Char × List Char
  | [] => ([], [])
  | quote :: text =>
      if quote = '"' ∨ quote = '\'' then
        (text.takeWhile (· ≠ quote), (text.dropWhile (· ≠ quote)).tail)
      else
        let ends := fun ch => isAsciiWhitespace ch || ch == '>'
        ((quote :: text).takeWhile (!ends ·), (quote :: text).dropWhile (!ends ·))

/-- An attribute whose name is read, and what follows it. -/
def attrFrom (name : List Char) (bound : Bool) : List Char → TagAttribute × List Char
  | '=' :: valued => (⟨name, bound, some (attrValue valued).1⟩, (attrValue valued).2)
  | rest => (⟨name, bound, none⟩, rest)

/-- The attribute at the front of a text that starts with no `:$name`, if one
starts there, and what follows it. -/
def lexNamed (bound : Bool) (text named : List Char) : Option TagAttribute × List Char :=
  let name := named.takeWhile isAttrNameChar
  -- not an attribute: one character is stepped over
  if name.isEmpty then (none, text.tail)
  else
    let (attr, rest) := attrFrom name bound (named.dropWhile isAttrNameChar)
    (some attr, rest)

/-- One attribute at the front of a text, if one starts there, and what
follows it. -/
def lexAttribute : List Char → Option TagAttribute × List Char
  | ':' :: '$' :: ch :: rest =>
      if isAsciiAlphabetic ch || ch == '_' then
        (some ⟨(ch :: rest).takeWhile isWordChar, true, none⟩, rest.dropWhile isWordChar)
      else (none, '$' :: ch :: rest)
  | ':' :: text => lexNamed (text.head? ≠ some ':') (':' :: text) text
  | text => lexNamed false text text

theorem length_attrValue_le (text : List Char) : (attrValue text).2.length ≤ text.length := by
  rw [attrValue.eq_def]
  split
  · exact Nat.le_refl _
  · rename_i quote text
    split
    · have hdrop := (List.dropWhile_sublist (l := text) (· ≠ quote)).length_le
      simp only [List.length_tail, List.length_cons]
      omega
    · exact (List.dropWhile_sublist _).length_le

theorem length_attrFrom_le (name : List Char) (bound : Bool) (rest : List Char) :
    (attrFrom name bound rest).2.length ≤ rest.length := by
  rw [attrFrom.eq_def]
  split
  · exact Nat.le_succ_of_le (length_attrValue_le _)
  · exact Nat.le_refl _

theorem length_lexNamed_lt {bound : Bool} {text named : List Char} (h : text ≠ [])
    (hnamed : named.length ≤ text.length) : (lexNamed bound text named).2.length < text.length := by
  rw [lexNamed]
  by_cases hname : (named.takeWhile isAttrNameChar).isEmpty = true
  · rw [if_pos hname]
    show text.tail.length < text.length
    rw [List.length_tail]
    have hpos := List.length_pos_iff.mpr h
    omega
  · rw [if_neg hname]
    show (attrFrom _ bound (named.dropWhile isAttrNameChar)).2.length < text.length
    have _hrest := length_attrFrom_le (named.takeWhile isAttrNameChar) bound
      (named.dropWhile isAttrNameChar)
    have hsplit : (named.takeWhile isAttrNameChar).length +
        (named.dropWhile isAttrNameChar).length = named.length := by
      rw [← List.length_append, List.takeWhile_append_dropWhile]
    have htaken : 0 < (named.takeWhile isAttrNameChar).length := by
      rw [List.length_pos_iff]
      intro hempty
      exact hname (by rw [hempty]; rfl)
    omega

/-- An attribute takes at least one character. -/
theorem length_lexAttribute_lt {text : List Char} (h : text ≠ []) :
    (lexAttribute text).2.length < text.length := by
  rw [lexAttribute.eq_def]
  split
  · rename_i ch rest
    split
    · have hdrop := (List.dropWhile_sublist (l := rest) isWordChar).length_le
      simp only [List.length_cons]
      omega
    · simp
  · exact length_lexNamed_lt (List.cons_ne_nil _ _) (Nat.le_succ _)
  · exact length_lexNamed_lt h (Nat.le_refl _)

/-- The attributes of a tag whose name ends where the text starts, or `none`
when its `>` is nowhere to be found. -/
def lexTagAttributes (text : List Char) : Option (List TagAttribute) :=
  match _hrest : text.dropWhile isAsciiWhitespace with
  | [] => none
  | '>' :: _ => some []
  | '/' :: '>' :: _ => some []
  | '/' :: rest => lexTagAttributes rest
  | ch :: rest =>
      (lexTagAttributes (lexAttribute (ch :: rest)).2).map
        ((lexAttribute (ch :: rest)).1.toList ++ ·)
termination_by text.length
decreasing_by
  all_goals
    have hdrop := (List.dropWhile_sublist (l := text) isAsciiWhitespace).length_le
    rw [_hrest] at hdrop
  · simp only [List.length_cons] at hdrop
    omega
  · exact Nat.lt_of_lt_of_le (length_lexAttribute_lt (List.cons_ne_nil ch rest)) hdrop

/-- The characters are those of attribute names, so upper case is ASCII's. -/
def camelCaseAttrName : (upperNext : Bool) → List Char → List Char
  | _, [] => []
  | upperNext, ch :: rest =>
      if ch = '-' ∨ ch = '_' then camelCaseAttrName true rest
      else (if upperNext then ch.toUpper else ch) :: camelCaseAttrName false rest

/-- A single-quoted PHP string literal. -/
def phpStringLiteral (text : List Char) : List Char :=
  '\'' :: (text.flatMap fun ch => if ch = '\'' ∨ ch = '\\' then ['\\', ch] else [ch]) ++ ['\'']

/-- How many lines after its own a tag may run over. -/
def maxTagLookaheadLines : Nat := 64

/-- `contains_seq` -/
def containsSeq (haystack needle : List Char) : Bool := decide (needle <:+: haystack)

/-- The plain attributes of a tag, with the PHP of their values. -/
def tagAttributeArguments (rest : List Char) (following : List (List Char)) :
    Option (List (List Char × List Char)) :=
  let text := rest ++ (following.take maxTagLookaheadLines).flatMap ('\n' :: ·)
  (lexTagAttributes text).map fun attributes =>
    (attributes.filter (!·.bound)).map fun attr =>
      let value := match attr.value with
        | none => "true".toList
        | some value =>
            if containsSeq value ['{', '{'] || containsSeq value ['{', '!', '!'] then
              "(string) ''".toList
            else phpStringLiteral value
      (camelCaseAttrName false attr.name, value)

/-! ## Tags and calls -/

structure ComponentTag where
  /-- The characters up to the attribute list. -/
  len : Nat
  kind : TagKind
  name : List Char
  closing : Bool

/-- The call a resolved tag makes, while the tag is open. -/
structure OpenComponentCall where
  fqn : List Char
  mount : Bool
  pending : List ComponentParameter
  literals : List (List Char × List Char)
  arguments : List (List Char)

def componentVar : List Char := "$component".toList

/-- Strip a character off both ends. -/
def trimMatches (ch : Char) (text : List Char) : List Char :=
  ((text.dropWhile (· == ch)).reverse.dropWhile (· == ch)).reverse

/-- The tag of one kind at `rem`, if its prefix is there. -/
def ComponentTag.ofKind (rem : List Char) (closing : Bool) (kind : TagKind) :
    Option (Option ComponentTag) :=
  let afterAngle := if closing then 2 else 1
  if kind.tagPrefix <+: rem.drop afterAngle then
    let nameStart := afterAngle + kind.tagPrefix.length
    let name := (rem.drop nameStart).takeWhile isTagNameChar
    if name.isEmpty then some none else some (some ⟨nameStart + name.length, kind, name, closing⟩)
  else none

/-- The component tag `rem` opens. -/
def componentTagAt (rem : List Char) : Option ComponentTag :=
  if rem.head? = some '<' then
    let closing := decide (rem.tail.head? = some '/')
    match ComponentTag.ofKind rem closing .blade with
    | some tag => tag
    | none => ((ComponentTag.ofKind rem closing .livewire).getD none)
  else none

namespace ComponentTag

def isReserved (tag : ComponentTag) : Bool :=
  tag.kind == .blade &&
    ["slot".toList, "dynamic-component".toList].contains (tag.name.takeWhile (· ≠ ':'))

def resolve (tag : ComponentTag) (components : Option ComponentResolver) :
    Option ComponentTarget :=
  if tag.closing || tag.isReserved then none
  else
    match components with
    | none => none
    | some resolver =>
        match tag.kind with
        | .livewire => resolver.livewireComponent tag.name
        | .blade => resolver.xComponent tag.name

/-- A tag that makes no call declares the variable of its class. -/
def declaration (fqn : List Char) : List Char :=
  " /** @var \\".toList ++ fqn ++ " ".toList ++ componentVar ++ " */ ".toList ++ componentVar ++
    " = null; ".toList

/-- The comment a tag without a class becomes. -/
def comment (tag : ComponentTag) : List Char :=
  " /* ".toList ++ (if tag.closing then "/".toList else []) ++ tag.kind.tagPrefix ++ tag.name ++
    " */ ".toList

/-- The PHP a tag becomes where it opens, and the call its attributes fill. -/
def emit (tag : ComponentTag) (target : Option ComponentTarget) (rest : List Char)
    (following : List (List Char)) : List Char × Option OpenComponentCall :=
  match target with
  | none => (tag.comment, none)
  | some target =>
      let fqn := trimMatches '\\' target.fqn
      let call := fun (parameters : List ComponentParameter) (mount : Bool) =>
        match tagAttributeArguments rest following with
        | none => (declaration fqn, none)
        | some literals => (" ".toList, some ⟨fqn, mount, parameters, literals, []⟩)
      match target.binding with
      | .construct parameters => call parameters false
      | .mount parameters => call parameters true
      | .declare => (declaration fqn, none)

end ComponentTag

namespace OpenComponentCall

/-- Claim the parameter a bound attribute names, and give the variable its
expression is bound to. -/
def take (call : OpenComponentCall) (attr : List Char) :
    Option (List Char × OpenComponentCall) :=
  if call.pending.any (·.name = attr) then
    let bound := "$__blade_arg_".toList ++ attr
    some (bound,
      { call with
        pending := call.pending.eraseP (·.name = attr)
        arguments := call.arguments ++ [attr ++ ": ".toList ++ bound] })
  else none

/-- A plain attribute fills the parameter it names. -/
def fillLiteral (call : OpenComponentCall) (literal : List Char × List Char) :
    OpenComponentCall :=
  if call.pending.any (·.name = literal.1) then
    { call with
      pending := call.pending.filter (·.name ≠ literal.1)
      arguments := call.arguments ++ [literal.1 ++ ": ".toList ++ literal.2] }
  else call

/-- The whole call. -/
def close (call : OpenComponentCall) : List Char :=
  let filled := call.literals.foldl fillLiteral { call with literals := [] }
  let fallbacks := filled.pending.filterMap fun param =>
    param.fallback.map fun fallback => param.name ++ ": ".toList ++ fallback
  let arguments := List.intercalate ", ".toList (filled.arguments ++ fallbacks)
  if call.mount then
    " ".toList ++ componentVar ++ " = new \\".toList ++ call.fqn ++ "(); ".toList ++
      componentVar ++ "->mount(".toList ++ arguments ++ "); ".toList
  else
    " ".toList ++ componentVar ++ " = new \\".toList ++ call.fqn ++ "(".toList ++ arguments ++
      "); ".toList

end OpenComponentCall

end PhpantomLsp.Blade
