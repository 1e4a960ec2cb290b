import PhpantomLsp.PhpType.Basic

/-!
# Array keys

Array keys as PHP stores them, and the keys the entries of a shape occupy.  A
string that spells an integer canonically is stored as that integer; a
positional entry takes the next free integer, one past the largest so far.
-/

namespace PhpantomLsp

open Text PhpType

/-- `is_canonical_int_key`. -/
def isCanonicalIntKey (key : String) : Bool :=
  let digits := (stripPrefixChar '-' key).getD key
  digits ≠ "" && digits.toList.all isAsciiDigit &&
    ((digits == "0" && key == "0") || !(digits.toList.head? == some '0')) &&
    (parseI64 key).isSome

/-- `canonical_int_key`. -/
def canonicalIntKey (key : String) : Option Int :=
  if isCanonicalIntKey key then parseI64 key else none

/-- `is_decimal_int_array_key`. -/
def isDecimalIntArrayKey (content : String) : Bool :=
  !(content.toList.head? == some '+') &&
    (parseI64 content).any (fun parsed => intToString parsed == content)

/-- Whether a part of a qualified name is an identifier. -/
def isIdentifier (part : List Char) : Bool :=
  match part with
  | c :: _ =>
      (isAsciiAlphabetic c || c = '_' || isNonAscii c) &&
        part.all (fun c => isAsciiAlphanumeric c || c = '_' || isNonAscii c)
  | [] => false

/-- `is_class_name_spelling`. -/
def isClassNameSpelling (text : List Char) : Bool :=
  let text := match text with
    | '\\' :: rest => rest
    | _ => text
  !text.isEmpty && (splitBackslash text).all isIdentifier

/-- `class_name_key`: the class a key spelled `Foo::class` is the name of. -/
def classNameKey (key : String) : Option String :=
  match rsplitOnceColons key.toList with
  | some (className, constant) =>
      if eqIgnoreAsciiCase (String.ofList constant) "class" && isClassNameSpelling className then
        some (String.ofList className)
      else none
  | none => none

/-- `class_constant_key`: the class and the constant of a key spelled
`Foo::CONSTANT`. -/
def classConstantKey (key : String) : Option (String × String) :=
  match rsplitOnceColons key.toList with
  | some (className, constant) =>
      if isClassNameSpelling className && isClassNameSpelling constant && !('\\' ∈ constant) then
        some (String.ofList className, String.ofList constant)
      else none
  | none => none

/-- `is_opaque_shape_key`: a class constant other than `Foo::class`. -/
def isOpaqueShapeKey (key : String) : Bool :=
  (classNameKey key).isNone && (classConstantKey key).isSome

/-- A key that stands for nothing but its own spelling. -/
def isPlainKey (key : String) : Bool :=
  !containsText "::" key && (canonicalIntKey key).isNone

/-- The loop of `runtime_shape_keys`: `next` is the next free index, and
`shifted` whether an entry that may be absent leaves it in doubt. -/
def runtimeShapeKeysFrom (next : Int) (shifted : Bool) : List ShapeEntry → Option (List String)
  | [] => some []
  | entry :: rest =>
      match entry.key with
      | none =>
          if shifted then none
          else
            (checkI64 (next + 1)).bind fun after =>
              (runtimeShapeKeysFrom after (shifted || entry.optional) rest).map
                (intToString next :: ·)
      | some key =>
          match canonicalIntKey key with
          | some index =>
              (checkI64 (index + 1)).bind fun after =>
                (runtimeShapeKeysFrom (max next after) (shifted || entry.optional) rest).map
                  (key :: ·)
          | none => (runtimeShapeKeysFrom next shifted rest).map (key :: ·)

/-- `runtime_shape_keys`: the array key each entry occupies, in order. -/
def runtimeShapeKeys (entries : List ShapeEntry) : Option (List String) :=
  runtimeShapeKeysFrom 0 false entries

/-- `shape_key_type`: the type of the array key a shape key stands for. -/
def shapeKeyType (key : String) : PhpType :=
  if isCanonicalIntKey key then literalInt key
  else
    match classNameKey key with
    | some className => .classString (some (.named className))
    | none =>
        if (classConstantKey key).isSome then .named "array-key" else literalStringValue key

/-- `shape_key_literal`: the exact key a shape key stands for, where it is
known. -/
def shapeKeyLiteral (key : String) : Option PhpType :=
  if isCanonicalIntKey key then some (literalInt key)
  else
    match classNameKey key with
    | some className => some (.classNameLiteral className)
    | none => if (classConstantKey key).isSome then none else some (literalStringValue key)

/-- The loop of `shape_keys_are_sequential`. -/
def shapeKeysAreSequentialFrom (position : Int) (seenOptional : Bool) : List ShapeEntry → Bool
  | [] => true
  | entry :: rest =>
      if seenOptional && !entry.optional then false
      else
        (match entry.key with
          | none => true
          | some key => canonicalIntKey key == some position) &&
        shapeKeysAreSequentialFrom (position + 1) (seenOptional || entry.optional) rest

/-- `shape_keys_are_sequential`: whether the entries occupy the keys
`0, 1, 2, …` a list promises. -/
def shapeKeysAreSequential (entries : List ShapeEntry) : Bool :=
  shapeKeysAreSequentialFrom 0 false entries

/-- `keys_rule_out_nesting`: whether the keys of two small shapes alone show
that not every array `narrower` describes is one `wider` describes. -/
def keysRuleOutNesting (narrower wider : List ShapeEntry) : Bool :=
  let plain (entries : List ShapeEntry) : Bool :=
    entries.length ≤ 8 && entries.all (fun entry => entry.key.any isPlainKey)
  let lists (entries : List ShapeEntry) (key : Option String) : Bool :=
    entries.any (fun entry => entry.key == key)
  plain narrower && plain wider &&
    (narrower.any (fun entry => !lists wider entry.key) ||
      wider.any (fun entry => !entry.optional && !lists narrower entry.key))

/-! ## The spelling of a key -/

theorem mem_colon_of_rsplitOnceColons {chars : List Char} {parts : List Char × List Char}
    (h : rsplitOnceColons chars = some parts) : ':' ∈ chars := by
  induction chars generalizing parts with
  | nil => exact absurd h (by simp [rsplitOnceColons])
  | cons c rest ih =>
      unfold rsplitOnceColons at h
      split at h
      · rename_i hrest
        exact List.mem_cons_of_mem _ (ih hrest)
      · split at h
        · simp
        · exact absurd h (by simp)

/-- The name of a class is no integer. -/
theorem isCanonicalIntKey_of_classNameKey {key name : String} (h : classNameKey key = some name) :
    isCanonicalIntKey key = false := by
  have hcolon : ':' ∈ key.toList := by
    unfold classNameKey at h
    split at h
    · rename_i hsplit
      exact mem_colon_of_rsplitOnceColons hsplit
    · exact absurd h (by simp)
  have hdigits : ':' ∈ ((stripPrefixChar '-' key).getD key).toList := by
    unfold stripPrefixChar
    split
    · rename_i d rest hkey
      split
      · rename_i hd
        rw [hkey, hd] at hcolon
        simpa using hcolon
      · exact hcolon
    · exact hcolon
  by_contra hint
  simp only [Bool.not_eq_false, isCanonicalIntKey, Bool.and_eq_true] at hint
  exact absurd (List.all_eq_true.mp hint.1.1.2 ':' hdigits) (by decide)

/-! ## The keys of a shape -/

/-- One step of the scan: a positional entry takes the next free integer, a
named one the key it names, and the next free integer never decreases. -/
theorem runtimeShapeKeysFrom_cons {next : Int} {shifted : Bool} {entry : ShapeEntry}
    {rest : List ShapeEntry} {keys : List String}
    (h : runtimeShapeKeysFrom next shifted (entry :: rest) = some keys) :
    ∃ key tail after shifted', keys = key :: tail ∧
      runtimeShapeKeysFrom after shifted' rest = some tail ∧ next ≤ after ∧
      (entry.key = none → key = intToString next ∧ after = next + 1 ∧ after ≤ i64Max) ∧
      ∀ named ∈ entry.key, key = named := by
  simp only [runtimeShapeKeysFrom] at h
  split at h
  · rename_i hkey
    split at h
    · exact absurd h (by simp)
    · obtain ⟨after, hafter, h⟩ := Option.bind_eq_some_iff.mp h
      obtain ⟨tail, htail, rfl⟩ := Option.map_eq_some_iff.mp h
      obtain ⟨rfl, -, hmax⟩ := checkI64_eq_some hafter
      exact ⟨_, tail, _, _, rfl, htail, by omega, fun _ => ⟨rfl, rfl, hmax⟩, by simp [hkey]⟩
  · rename_i key hkey
    have hnamed : ∀ named ∈ entry.key, key = named := by simp [hkey]
    split at h
    · obtain ⟨after, -, h⟩ := Option.bind_eq_some_iff.mp h
      obtain ⟨tail, htail, rfl⟩ := Option.map_eq_some_iff.mp h
      exact ⟨key, tail, _, _, rfl, htail, le_max_left _ _, by simp [hkey], hnamed⟩
    · obtain ⟨tail, htail, rfl⟩ := Option.map_eq_some_iff.mp h
      exact ⟨key, tail, _, _, rfl, htail, le_refl _, by simp [hkey], hnamed⟩

theorem runtimeShapeKeysFrom_length {next : Int} {shifted : Bool} {entries : List ShapeEntry}
    {keys : List String} (h : runtimeShapeKeysFrom next shifted entries = some keys) :
    keys.length = entries.length := by
  induction entries generalizing next shifted keys with
  | nil =>
      obtain rfl : keys = [] := by simpa [runtimeShapeKeysFrom] using h.symm
      rfl
  | cons entry rest ih =>
      obtain ⟨key, tail, after, shifted', rfl, htail, -⟩ := runtimeShapeKeysFrom_cons h
      simp [ih htail]

/-- A named entry occupies the key it names. -/
theorem runtimeShapeKeysFrom_named {next : Int} {shifted : Bool} {entries : List ShapeEntry}
    {keys : List String} (h : runtimeShapeKeysFrom next shifted entries = some keys)
    {i : Nat} {entry : ShapeEntry} (hentry : entries[i]? = some entry) {key : String}
    (hkey : entry.key = some key) : keys[i]? = some key := by
  induction entries generalizing next shifted keys i with
  | nil => simp at hentry
  | cons first rest ih =>
      obtain ⟨here, tail, after, shifted', rfl, htail, -, -, hnamed⟩ := runtimeShapeKeysFrom_cons h
      cases i with
      | zero =>
          obtain rfl : first = entry := by simpa using hentry
          simpa using hnamed key hkey
      | succ i => simpa using ih htail (by simpa using hentry)

/-- The number of positional entries. -/
def positionalCount (entries : List ShapeEntry) : Nat :=
  entries.countP fun entry => entry.key.isNone

/-- A positional entry occupies an integer no smaller than the number of
positional entries before it. -/
theorem runtimeShapeKeysFrom_positional {next : Int} {shifted : Bool} {entries : List ShapeEntry}
    {keys : List String} (h : runtimeShapeKeysFrom next shifted entries = some keys)
    {i : Nat} {entry : ShapeEntry} (hentry : entries[i]? = some entry) (hkey : entry.key = none) :
    ∃ index : Int, keys[i]? = some (intToString index) ∧
      next + positionalCount (entries.take i) ≤ index ∧ index < i64Max := by
  induction entries generalizing next shifted keys i with
  | nil => simp at hentry
  | cons first rest ih =>
      obtain ⟨here, tail, after, shifted', rfl, htail, hafter, hfree, -⟩ :=
        runtimeShapeKeysFrom_cons h
      cases i with
      | zero =>
          obtain rfl : first = entry := by simpa using hentry
          obtain ⟨hhere, hnext, hmax⟩ := hfree hkey
          exact ⟨next, by simp [hhere], by simp [positionalCount], by omega⟩
      | succ i =>
          obtain ⟨index, hindex, hle, hlt⟩ := ih htail (by simpa using hentry)
          refine ⟨index, by simpa using hindex, ?_, hlt⟩
          by_cases hfirst : first.key = none
          · have := (hfree hfirst).2.1
            simp only [positionalCount, List.take_succ_cons, List.countP_cons, hfirst] at hle ⊢
            simp only [Option.isNone_none, if_true]
            omega
          · have hsome : first.key.isNone = false := by
              simpa [Option.isSome_iff_ne_none] using hfirst
            simp only [positionalCount, List.take_succ_cons, List.countP_cons, hsome] at hle ⊢
            simp only [Bool.false_eq_true, if_false]
            omega

/-- Between two positional entries the integers grow at least by one for each
positional entry passed. -/
theorem runtimeShapeKeysFrom_positional_lt {next : Int} {shifted : Bool}
    {entries : List ShapeEntry} {keys : List String}
    (h : runtimeShapeKeysFrom next shifted entries = some keys) {i j : Nat} (hij : i < j)
    {entry later : ShapeEntry} (hentry : entries[i]? = some entry) (hkey : entry.key = none)
    (hlater : entries[j]? = some later) (hlaterKey : later.key = none) {index other : Int}
    (hindex : keys[i]? = some (intToString index)) (hother : keys[j]? = some (intToString other)) :
    index + positionalCount (entries.take j) ≤ other + positionalCount (entries.take i) := by
  induction entries generalizing next shifted keys i j with
  | nil => simp at hentry
  | cons first rest ih =>
      obtain ⟨here, tail, after, shifted', rfl, htail, hafter, hfree, -⟩ :=
        runtimeShapeKeysFrom_cons h
      obtain ⟨j, rfl⟩ : ∃ k, j = k + 1 := ⟨j - 1, by omega⟩
      have hlater' : rest[j]? = some later := by simpa using hlater
      cases i with
      | zero =>
          obtain rfl : first = entry := by simpa using hentry
          obtain ⟨hhere, hnext, -⟩ := hfree hkey
          obtain ⟨last, hlast, hle, -⟩ := runtimeShapeKeysFrom_positional htail hlater' hlaterKey
          have hlast' : last = other := intToString_injective (Option.some.inj
            (hlast.symm.trans (by simpa using hother)))
          have hindex' : next = index := intToString_injective (by simpa [hhere] using hindex)
          simp only [positionalCount, List.take_succ_cons, List.countP_cons, hkey,
            List.take_zero, List.countP_nil] at hle ⊢
          simp only [Option.isNone_none, if_true]
          omega
      | succ i =>
          have hlt : i < j := by omega
          have := ih htail hlt (by simpa using hentry) hlater' (by simpa using hindex)
            (by simpa using hother)
          simp only [positionalCount, List.take_succ_cons, List.countP_cons] at this ⊢
          omega

/-- Where no positional entry follows a named one, positional entries occupy
their own positions. -/
theorem runtimeShapeKeysFrom_of_positionalFirst {next : Int} {shifted : Bool}
    {entries : List ShapeEntry} {keys : List String}
    (h : runtimeShapeKeysFrom next shifted entries = some keys)
    (hfirst : entries.Pairwise fun a b => a.key.isSome → b.key.isSome) {i : Nat}
    {entry : ShapeEntry} (hentry : entries[i]? = some entry) (hkey : entry.key = none) :
    keys[i]? = some (intToString (next + i)) ∧ next + i < i64Max := by
  induction entries generalizing next shifted keys i with
  | nil => simp at hentry
  | cons first rest ih =>
      obtain ⟨here, tail, after, shifted', rfl, htail, -, hfree, -⟩ := runtimeShapeKeysFrom_cons h
      obtain ⟨hbefore, hrest⟩ := List.pairwise_cons.mp hfirst
      cases i with
      | zero =>
          obtain rfl : first = entry := by simpa using hentry
          obtain ⟨hhere, hnext, hmax⟩ := hfree hkey
          simp only [List.getElem?_cons_zero, hhere, Nat.cast_zero, add_zero, true_and]
          omega
      | succ i =>
          have hentry' : rest[i]? = some entry := by simpa using hentry
          have hpositional : first.key = none := by
            by_contra hsome
            have := hbefore entry (List.mem_of_getElem? hentry')
              (by simpa [Option.isSome_iff_ne_none] using hsome)
            simp [hkey] at this
          obtain ⟨hhere, hnext, -⟩ := hfree hpositional
          obtain ⟨hindex, hlt⟩ := ih htail hrest hentry'
          have hshift : after + (i : Int) = next + ((i + 1 : Nat) : Int) := by omega
          rw [hshift] at hindex hlt
          exact ⟨by simpa using hindex, hlt⟩

/-- Where every entry is named by a key that is not an integer, the keys are
the names. -/
theorem runtimeShapeKeysFrom_eq_of_plain {next : Int} {shifted : Bool} {entries : List ShapeEntry}
    (hplain : ∀ entry ∈ entries, entry.key.any isPlainKey = true) :
    ∃ keys, runtimeShapeKeysFrom next shifted entries = some keys ∧
      entries.map (·.key) = keys.map some := by
  induction entries with
  | nil => exact ⟨[], rfl, rfl⟩
  | cons entry rest ih =>
      obtain ⟨keys, hkeys, hmap⟩ := ih (fun e he => hplain e (List.mem_cons_of_mem _ he))
      have hentry := hplain entry (by simp)
      cases hkey : entry.key with
      | none => simp [hkey] at hentry
      | some key =>
          have hint : canonicalIntKey key = none := by
            simp only [hkey, Option.any_some, isPlainKey, Bool.and_eq_true] at hentry
            simpa using hentry.2
          exact ⟨key :: keys, by simp [runtimeShapeKeysFrom, hkey, hint, hkeys],
            by simp [hkey, hmap]⟩

theorem weight_shapeKeyType_le (key : String) : weight (shapeKeyType key) ≤ 5 := by
  unfold shapeKeyType
  split
  · simp [literalInt, weight]
  · split
    · simp only [weight, weightOption, nameWeight]
      split <;> omega
    · split
      · simp only [weight, nameWeight]
        split <;> omega
      · simp [literalStringValue, weight]

end PhpantomLsp
