import PhpantomLsp.PhpType.TypeOperators

/-!
# The readers of a shape

`runtime_shape_keys` says which array key each entry of a shape occupies.
Three other readers answer from the entries themselves, and number the unkeyed
ones in their own way: by their place in the list, or by how many unkeyed ones
stand before.  The three numberings are one only where every unkeyed entry
precedes every keyed one.
-/

namespace PhpantomLsp

open Text Lib PhpType

/-- The readers of a shape find each entry under the key it occupies. -/
structure ReadersAgree [DedupHasher] (entries : List ShapeEntry) (keys : List String) : Prop where
  entry : ∀ shape : PhpType, shape.kind = .arrayShape entries →
    ∀ (i : Nat) (entry : ShapeEntry) (key : String), entries[i]? = some entry →
      keys[i]? = some key → shapeEntry shape key = some entry
  value : ∀ shape : PhpType, shape.kind = .arrayShape entries →
    ∀ (i : Nat) (entry : ShapeEntry) (key : String), entries[i]? = some entry →
      keys[i]? = some key → ∀ literal ∈ shapeKeyLiteral key,
        evaluateIndexAccess shape literal = entry.valueType
  keyOf : ∀ shape : PhpType, shape.kind = .arrayShape entries →
    evaluateKeyOf shape =
      unionOrNever (keys.map fun key => (shapeKeyLiteral key).getD (.named "array-key"))

/-- What the entries of a shape have to be like for its readers to agree. -/
structure KeysReadable (entries : List ShapeEntry) : Prop where
  /-- Every unkeyed entry precedes every keyed one. -/
  positionalFirst : entries.Pairwise fun a b => a.key.isSome → b.key.isSome
  /-- No key spells the index of an unkeyed entry. -/
  unshadowed : ∀ (i : Nat) (entry : ShapeEntry), entries[i]? = some entry → entry.key = none →
    ∀ other ∈ entries, other.key ≠ some (natToString i)
  /-- No two different entries have the same key. -/
  unambiguous : ∀ entry ∈ entries, ∀ other ∈ entries, entry.key.isSome → entry.key = other.key →
    entry = other
  /-- No key is the name of a class. -/
  noClassNames : ∀ entry ∈ entries, ∀ key ∈ entry.key, classNameKey key = none

/-! ## Keys that are integers -/

theorem isCanonicalIntKey_natToString {n : Nat} (hn : (n : Int) ≤ i64Max) :
    isCanonicalIntKey (natToString n) = true := by
  obtain ⟨c, rest, hdigits, hdigit, hzero⟩ := decimalDigits_head n
  have hsign := not_sign_of_isAsciiDigit hdigit
  have hall := decimalDigits_isAsciiDigit n
  have hparse := parseI64_natToString hn
  have hstrip : stripPrefixChar '-' (natToString n) = none := by
    simp [stripPrefixChar, natToString, hdigits, hsign.1]
  have hnonempty : natToString n ≠ "" := by
    intro h
    have := congrArg String.toList h
    simp [natToString, hdigits] at this
  have hleading : ((natToString n == "0" && natToString n == "0") ||
      !((natToString n).toList.head? == some '0')) = true := by
    by_cases hc : c = '0'
    · have : natToString n = "0" := by
        rw [hzero hc]
        decide +kernel
      simp [this]
    · simp [natToString, hdigits, hc]
  simp only [isCanonicalIntKey, hstrip, Option.getD_none, hleading, hparse, Option.isSome_some,
    Bool.and_true, Bool.and_eq_true, decide_eq_true_eq]
  exact ⟨hnonempty, by simpa [natToString] using hall⟩

theorem shapeKeyLiteral_natToString {n : Nat} (hn : (n : Int) ≤ i64Max) :
    shapeKeyLiteral (natToString n) = some (literalInt (natToString n)) := by
  simp [shapeKeyLiteral, isCanonicalIntKey_natToString hn]

/-- The literal a key is written as, unless it is the name of a class. -/
theorem shapeKeyLiteral_cases {key : String} {literal : PhpType}
    (h : shapeKeyLiteral key = some literal) (hclass : classNameKey key = none) :
    literal = literalInt key ∨ literal = literalStringValue key := by
  unfold shapeKeyLiteral at h
  rw [hclass] at h
  split at h
  · exact .inl (Option.some.inj h).symm
  · dsimp only at h
    split at h
    · exact absurd h (by simp)
    · exact .inr (Option.some.inj h).symm

/-! ## Where the readers agree -/

theorem asUnsealedShape_of_kind_arrayShape {t : PhpType} {entries : List ShapeEntry}
    (h : t.kind = .arrayShape entries) : t.asUnsealedShape = none := by
  cases t <;> simp_all [kind, asUnsealedShape]

theorem shapeEntry_of_kind_arrayShape {shape : PhpType} {entries : List ShapeEntry}
    (hshape : shape.kind = .arrayShape entries) (key : String) :
    shapeEntry shape key = entryUnderKey entries key := by
  rw [shapeEntry_eq, shapeEntryBody, asUnsealedShape_of_kind_arrayShape hshape, hshape]

theorem getElem?_filter_of_take {α : Type} {p : α → Bool} {items : List α} {i : Nat} {x : α}
    (hi : items[i]? = some x) (htake : ∀ y ∈ items.take (i + 1), p y = true) :
    (items.filter p)[i]? = some x := by
  induction items generalizing i with
  | nil => simp at hi
  | cons y ys ih =>
      have hy : p y = true := htake y (by simp)
      rw [List.filter_cons_of_pos hy]
      cases i with
      | zero => simpa using hi
      | succ i =>
          simp only [List.getElem?_cons_succ] at hi ⊢
          exact ih hi fun z hz => htake z (by simp [hz])

section

variable {entries : List ShapeEntry} {keys : List String}

/-- The key of an unkeyed entry that only unkeyed ones stand before. -/
theorem key_of_positional (hkeys : runtimeShapeKeys entries = some keys)
    (hfirst : entries.Pairwise fun a b => a.key.isSome → b.key.isSome) {i : Nat}
    {entry : ShapeEntry} (hentry : entries[i]? = some entry) (hkey : entry.key = none) :
    keys[i]? = some (natToString i) ∧ (i : Int) < i64Max := by
  have h := runtimeShapeKeysFrom_of_positionalFirst hkeys hfirst hentry hkey
  rw [Int.zero_add] at h
  exact h

theorem key_of_keyed (hkeys : runtimeShapeKeys entries = some keys) {i : Nat}
    {entry : ShapeEntry} (hentry : entries[i]? = some entry) {key : String}
    (hkey : entry.key = some key) : keys[i]? = some key :=
  runtimeShapeKeysFrom_named hkeys hentry hkey

theorem KeysReadable.take_positional (h : KeysReadable entries) {i : Nat} {entry : ShapeEntry}
    (hentry : entries[i]? = some entry) (hkey : entry.key = none) :
    ∀ other ∈ entries.take (i + 1), other.key.isNone = true := by
  intro other hother
  obtain ⟨j, hj, rfl⟩ := List.getElem_of_mem hother
  rw [List.length_take] at hj
  obtain ⟨hi, rfl⟩ := List.getElem?_eq_some_iff.mp hentry
  rw [List.getElem_take]
  by_cases hji : j = i
  · subst hji
    simp [hkey]
  · have hpair := List.pairwise_iff_getElem.mp h.positionalFirst j i (by omega) hi (by omega)
    rw [hkey] at hpair
    simpa [Option.isSome_iff_ne_none] using hpair

theorem KeysReadable.entryUnderKey (h : KeysReadable entries)
    (hkeys : runtimeShapeKeys entries = some keys) {i : Nat} {entry : ShapeEntry} {key : String}
    (hentry : entries[i]? = some entry) (hkey : keys[i]? = some key) :
    entryUnderKey entries key = some entry := by
  unfold PhpantomLsp.entryUnderKey
  cases hnamed : entry.key with
  | none =>
      obtain ⟨hindex, hlt⟩ := key_of_positional hkeys h.positionalFirst hentry hnamed
      obtain rfl : key = natToString i := Option.some.inj (hkey.symm.trans hindex)
      have hfind : (entries.find? fun other => other.key == some (natToString i)) = none := by
        rw [List.find?_eq_none]
        intro other hother
        simpa using h.unshadowed i entry hentry hnamed other hother
      have hparse : parseUsize (natToString i) = some i := by
        apply parseUsize_natToString
        have : (i : Int) < (u64Max : Int) := lt_of_lt_of_le hlt (by decide)
        omega
      rw [hfind, hparse]
      exact getElem?_filter_of_take hentry (h.take_positional hentry hnamed)
  | some named =>
      obtain rfl : key = named :=
        Option.some.inj (hkey.symm.trans (key_of_keyed hkeys hentry hnamed))
      have hexists : (entries.find? fun other => other.key == some key).isSome = true := by
        rw [List.find?_isSome]
        exact ⟨entry, List.mem_of_getElem? hentry, by simp [hnamed]⟩
      obtain ⟨other, hother⟩ := Option.isSome_iff_exists.mp hexists
      have hotherKey : other.key = some key := by simpa using List.find?_some hother
      have heq : entry = other :=
        h.unambiguous entry (List.mem_of_getElem? hentry) other (List.mem_of_find?_eq_some hother)
          (by simp [hnamed]) (hnamed.trans hotherKey.symm)
      rw [hother, heq]
      rfl

/-- Each offset names the entry that occupies it, and no other. -/
theorem KeysReadable.eq_of_entryAtOffset (h : KeysReadable entries)
    (hkeys : runtimeShapeKeys entries = some keys) {i : Nat} {entry : ShapeEntry} {key : String}
    (hentry : entries[i]? = some entry) (hkey : keys[i]? = some key) {j : Nat}
    {other : ShapeEntry} (hother : entries[j]? = some other)
    (hat : entryAtOffset key other j = true) : other = entry := by
  have hmem := List.mem_of_getElem? hentry
  have hmem' := List.mem_of_getElem? hother
  unfold entryAtOffset at hat
  cases hnamed : entry.key with
  | none =>
      obtain ⟨hindex, -⟩ := key_of_positional hkeys h.positionalFirst hentry hnamed
      obtain rfl : key = natToString i := Option.some.inj (hkey.symm.trans hindex)
      cases hotherKey : other.key with
      | none =>
          rw [hotherKey] at hat
          obtain rfl : j = i := natToString_injective (by simpa using hat)
          exact Option.some.inj (hother.symm.trans hentry)
      | some otherKey =>
          rw [hotherKey] at hat
          obtain rfl : otherKey = natToString i := by simpa using hat
          exact absurd hotherKey (h.unshadowed i entry hentry hnamed other hmem')
  | some named =>
      obtain rfl : key = named :=
        Option.some.inj (hkey.symm.trans (key_of_keyed hkeys hentry hnamed))
      cases hotherKey : other.key with
      | none =>
          rw [hotherKey] at hat
          obtain rfl : natToString j = key := by simpa using hat
          exact absurd hnamed (h.unshadowed j other hother hotherKey entry hmem)
      | some otherKey =>
          rw [hotherKey] at hat
          obtain rfl : otherKey = key := by simpa using hat
          exact h.unambiguous other hmem' entry hmem (by simp [hotherKey])
            (hotherKey.trans hnamed.symm)

theorem entryAtOffset_key (hkeys : runtimeShapeKeys entries = some keys)
    (h : KeysReadable entries) {i : Nat} {entry : ShapeEntry} {key : String}
    (hentry : entries[i]? = some entry) (hkey : keys[i]? = some key) :
    entryAtOffset key entry i = true := by
  unfold entryAtOffset
  cases hnamed : entry.key with
  | none =>
      obtain ⟨hindex, -⟩ := key_of_positional hkeys h.positionalFirst hentry hnamed
      simpa using Option.some.inj (hindex.symm.trans hkey)
  | some named =>
      simpa using Option.some.inj ((key_of_keyed hkeys hentry hnamed).symm.trans hkey)

theorem KeysReadable.find_entryAtOffset (h : KeysReadable entries)
    (hkeys : runtimeShapeKeys entries = some keys) {i : Nat} {entry : ShapeEntry} {key : String}
    (hentry : entries[i]? = some entry) (hkey : keys[i]? = some key) :
    (entries.zipIdx.find? fun (other, position) =>
      entryAtOffset key other position).isSome = true := by
  rw [List.find?_isSome]
  exact ⟨(entry, i), List.mk_mem_zipIdx_iff_getElem?.mpr hentry,
    entryAtOffset_key hkeys h hentry hkey⟩

theorem KeysReadable.intOffsetValue (h : KeysReadable entries)
    (hkeys : runtimeShapeKeys entries = some keys) {i : Nat} {entry : ShapeEntry} {key : String}
    (hentry : entries[i]? = some entry) (hkey : keys[i]? = some key) :
    intOffsetValue entries (literalInt key) = some entry.valueType := by
  obtain ⟨⟨other, j⟩, hfind⟩ :=
    Option.isSome_iff_exists.mp (h.find_entryAtOffset hkeys hentry hkey)
  have hother := List.mk_mem_zipIdx_iff_getElem?.mp (List.mem_of_find?_eq_some hfind)
  have hat : entryAtOffset key other j = true := by
    have := List.find?_some hfind
    exact this
  have heq := h.eq_of_entryAtOffset hkeys hentry hkey hother hat
  simp only [PhpantomLsp.intOffsetValue, literalInt, kind, hfind, Option.map_some, heq]

theorem KeysReadable.stringKeyValue (h : KeysReadable entries)
    (hkeys : runtimeShapeKeys entries = some keys) {i : Nat} {entry : ShapeEntry} {key : String}
    (hentry : entries[i]? = some entry) (hkey : keys[i]? = some key)
    (hstring : shapeKeyLiteral key = some (literalStringValue key)) :
    stringKeyValue entries (literalStringValue key) = some entry.valueType := by
  have hfind := h.entryUnderKey hkeys hentry hkey
  have hkeyed : entry.key = some key := by
    cases hnamed : entry.key with
    | none =>
        obtain ⟨hindex, hlt⟩ := key_of_positional hkeys h.positionalFirst hentry hnamed
        obtain rfl : key = natToString i := Option.some.inj (hkey.symm.trans hindex)
        rw [shapeKeyLiteral_natToString (le_of_lt hlt)] at hstring
        exact absurd hstring (by simp [literalInt, literalStringValue, LiteralValue.stringValue])
    | some named =>
        rw [Option.some.inj ((key_of_keyed hkeys hentry hnamed).symm.trans hkey)]
  have hexists : (entries.find? fun other => other.key == some key).isSome = true := by
    rw [List.find?_isSome]
    exact ⟨entry, List.mem_of_getElem? hentry, by simp [hkeyed]⟩
  obtain ⟨other, hother⟩ := Option.isSome_iff_exists.mp hexists
  rw [PhpantomLsp.entryUnderKey, hother, Option.some_or] at hfind
  rw [Option.some.inj hfind] at hother
  have hindex : literalOrNamedShapeKey (literalStringValue key) = some key :=
    stringContent_stringValue key
  rw [PhpantomLsp.stringKeyValue, hindex, Option.bind_some, hother]
  rfl

/-- The literal of a key is the text of the key, as an integer or a string. -/
theorem KeysReadable.shapeKeyLiteral_cases (h : KeysReadable entries)
    (hkeys : runtimeShapeKeys entries = some keys) {i : Nat} {entry : ShapeEntry} {key : String}
    (hentry : entries[i]? = some entry) (hkey : keys[i]? = some key) {literal : PhpType}
    (hliteral : shapeKeyLiteral key = some literal) :
    literal = literalInt key ∨ literal = literalStringValue key := by
  cases hnamed : entry.key with
  | none =>
      obtain ⟨hindex, hlt⟩ := key_of_positional hkeys h.positionalFirst hentry hnamed
      obtain rfl : key = natToString i := Option.some.inj (hkey.symm.trans hindex)
      rw [shapeKeyLiteral_natToString (le_of_lt hlt)] at hliteral
      exact .inl (Option.some.inj hliteral).symm
  | some named =>
      obtain rfl : key = named :=
        Option.some.inj (hkey.symm.trans (key_of_keyed hkeys hentry hnamed))
      exact PhpantomLsp.shapeKeyLiteral_cases hliteral
        (h.noClassNames entry (List.mem_of_getElem? hentry) key hnamed)

theorem KeysReadable.entryKeyLiteral (h : KeysReadable entries)
    (hkeys : runtimeShapeKeys entries = some keys) {i : Nat} {entry : ShapeEntry} {key : String}
    (hentry : entries[i]? = some entry) (hkey : keys[i]? = some key) :
    entryKeyLiteral entry i = (shapeKeyLiteral key).getD (.named "array-key") := by
  unfold PhpantomLsp.entryKeyLiteral
  cases hnamed : entry.key with
  | none =>
      obtain ⟨hindex, hlt⟩ := key_of_positional hkeys h.positionalFirst hentry hnamed
      obtain rfl : key = natToString i := Option.some.inj (hkey.symm.trans hindex)
      rw [shapeKeyLiteral_natToString (le_of_lt hlt)]
      rfl
  | some named =>
      rw [Option.some.inj (hkey.symm.trans (key_of_keyed hkeys hentry hnamed))]

theorem KeysReadable.map_entryKeyLiteral (h : KeysReadable entries)
    (hkeys : runtimeShapeKeys entries = some keys) :
    (entries.zipIdx.map fun (entry, position) => PhpantomLsp.entryKeyLiteral entry position) =
      keys.map fun key => (shapeKeyLiteral key).getD (.named "array-key") := by
  have hlength := runtimeShapeKeysFrom_length hkeys
  apply List.ext_getElem
  · simp [hlength]
  · intro i hi hi'
    have hentry : i < entries.length := by simpa using hi
    have hkey : i < keys.length := by simpa using hi'
    simpa using h.entryKeyLiteral hkeys (List.getElem?_eq_getElem hentry)
      (List.getElem?_eq_getElem hkey)

/-! ## Counting the unkeyed entries -/

theorem positionalCount_take_succ {i : Nat} {entry : ShapeEntry}
    (hentry : entries[i]? = some entry) :
    positionalCount (entries.take (i + 1)) =
      positionalCount (entries.take i) + if entry.key.isNone then 1 else 0 := by
  rw [positionalCount, List.take_add_one, hentry, List.countP_append]
  simp [positionalCount]

theorem positionalCount_take_mono {i j : Nat} (hij : i ≤ j) :
    positionalCount (entries.take i) ≤ positionalCount (entries.take j) :=
  List.Sublist.countP_le (List.take_sublist_take_left hij)

/-- The last unkeyed entry stands behind all the others. -/
theorem exists_last_positional {i : Nat} {entry : ShapeEntry} (hentry : entries[i]? = some entry)
    (hkey : entry.key = none) :
    ∃ j last, i ≤ j ∧ entries[j]? = some last ∧ last.key = none ∧
      positionalCount (entries.take j) + 1 = positionalCount entries := by
  by_cases hlater : ∃ j other, i < j ∧ entries[j]? = some other ∧ other.key = none
  · obtain ⟨j, other, hij, hother, hotherKey⟩ := hlater
    obtain ⟨k, last, hjk, hlast⟩ := exists_last_positional hother hotherKey
    exact ⟨k, last, by omega, hlast⟩
  · refine ⟨i, entry, le_refl i, hentry, hkey, ?_⟩
    have hdrop : positionalCount (entries.drop (i + 1)) = 0 := by
      rw [positionalCount, List.countP_eq_zero]
      intro other hother hnone
      obtain ⟨k, hk, rfl⟩ := List.getElem_of_mem hother
      exact hlater ⟨i + 1 + k, _, by omega, by
        rw [← List.getElem?_drop, List.getElem?_eq_getElem hk], by simpa using hnone⟩
    have hsplit := congrArg positionalCount (List.take_append_drop (i + 1) entries)
    rw [positionalCount, List.countP_append] at hsplit
    have htake := positionalCount_take_succ hentry
    simp only [hkey, Option.isNone_none, if_true] at htake
    simp only [positionalCount] at *
    omega
termination_by entries.length - i
decreasing_by
  have := (List.getElem?_eq_some_iff.mp hother).1
  omega

/-- An access that is left as it is is heavier than any value of the shape. -/
theorem indexAccess_ne_value {entry : ShapeEntry} (hentry : entry ∈ entries) (index : PhpType) :
    PhpType.indexAccess (.arrayShape entries) index ≠ entry.valueType := by
  intro heq
  have hweight := congrArg weight heq
  have := weight_lt_of_mem_entries hentry
  simp only [weight] at hweight
  omega

/-! ## Both ways -/

variable [DedupHasher]

/-- Readable keys are read alike. -/
theorem KeysReadable.readersAgree (h : KeysReadable entries)
    (hkeys : runtimeShapeKeys entries = some keys) : ReadersAgree entries keys := by
  constructor
  · intro shape hshape i entry key hentry hkey
    rw [shapeEntry_of_kind_arrayShape hshape]
    exact h.entryUnderKey hkeys hentry hkey
  · intro shape hshape i entry key hentry hkey literal hliteral
    rw [evaluateIndexAccess, hshape]
    dsimp only
    rcases h.shapeKeyLiteral_cases hkeys hentry hkey hliteral with rfl | rfl
    · have hstring : PhpantomLsp.stringKeyValue entries (literalInt key) = none := rfl
      rw [hstring, h.intOffsetValue hkeys hentry hkey]
      rfl
    · rw [h.stringKeyValue hkeys hentry hkey hliteral]
      rfl
  · intro shape hshape
    rw [evaluateKeyOf_eq, evaluateKeyOfBody, hshape]
    dsimp only
    rw [h.map_entryKeyLiteral hkeys]

theorem entryUnderKey_of_agree (hagree : ReadersAgree entries keys) {i : Nat}
    {entry : ShapeEntry} {key : String} (hentry : entries[i]? = some entry)
    (hkey : keys[i]? = some key) : entryUnderKey entries key = some entry := by
  have hlookup : shapeEntry (.arrayShape entries) key = entryUnderKey entries key :=
    shapeEntry_of_kind_arrayShape rfl key
  rw [← hlookup]
  exact hagree.entry _ rfl i entry key hentry hkey

/-- One key is read as one entry. -/
theorem unambiguous_of_agree (hagree : ReadersAgree entries keys) {i j : Nat} {entry other : ShapeEntry} {key : String}
    (hentry : entries[i]? = some entry) (hother : entries[j]? = some other)
    (hkey : keys[i]? = some key) (hotherKey : keys[j]? = some key) : entry = other :=
  Option.some.inj ((entryUnderKey_of_agree hagree hentry hkey).symm.trans
    (entryUnderKey_of_agree hagree hother hotherKey))

/-- Found by their count, unkeyed entries occupy the keys that count them. -/
theorem key_of_agree (hkeys : runtimeShapeKeys entries = some keys)
    (hagree : ReadersAgree entries keys) {i : Nat} {entry : ShapeEntry}
    (hentry : entries[i]? = some entry) (hkey : entry.key = none) :
    keys[i]? = some (natToString (positionalCount (entries.take i))) ∧
      (positionalCount (entries.take i) : Int) ≤ i64Max := by
  obtain ⟨j, last, hij, hlast, hlastKey, hcount⟩ := exists_last_positional hentry hkey
  obtain ⟨s, hs, hle, hlt⟩ := runtimeShapeKeysFrom_positional hkeys hlast hlastKey
  have hupper : s = positionalCount (entries.take j) := by
    obtain ⟨n, rfl⟩ : ∃ n : Nat, s = n := ⟨s.toNat, by omega⟩
    have hfound := entryUnderKey_of_agree hagree hlast hs
    have hspelled : (entries.find? fun other => other.key == some (intToString n)) = none := by
      by_contra hsome
      obtain ⟨other, hother⟩ := Option.ne_none_iff_exists'.mp hsome
      rw [entryUnderKey, hother, Option.some_or] at hfound
      have hotherKey := List.find?_some hother
      rw [Option.some.inj hfound, hlastKey] at hotherKey
      exact absurd hotherKey (by simp)
    have hparse : parseUsize (intToString n) = some n := by
      apply parseUsize_natToString
      have : (n : Int) < (u64Max : Int) := lt_trans hlt (by decide)
      omega
    rw [entryUnderKey, hspelled, hparse, Option.none_or, Option.bind_some] at hfound
    have hlength := (List.getElem?_eq_some_iff.mp hfound).1
    rw [← List.countP_eq_length_filter] at hlength
    have : n < positionalCount entries := hlength
    omega
  obtain ⟨r, hr, hlower, hmax⟩ := runtimeShapeKeysFrom_positional hkeys hentry hkey
  have hindex : r = positionalCount (entries.take i) := by
    by_cases heq : i = j
    · subst heq
      have : r = s := intToString_injective (Option.some.inj (hr.symm.trans hs))
      omega
    · have hspread := runtimeShapeKeysFrom_positional_lt hkeys (Nat.lt_of_le_of_ne hij heq) hentry
        hkey hlast hlastKey hr hs
      omega
  subst hindex
  exact ⟨hr, le_of_lt hmax⟩

/-- Found by their place, unkeyed entries stand where their count says. -/
theorem positionalCount_of_agree (hkeys : runtimeShapeKeys entries = some keys)
    (hagree : ReadersAgree entries keys) {i : Nat} {entry : ShapeEntry}
    (hentry : entries[i]? = some entry) (hkey : entry.key = none) :
    positionalCount (entries.take i) = i := by
  induction i using Nat.strong_induction_on generalizing entry with
  | _ i ih =>
      obtain ⟨hindex, hmax⟩ := key_of_agree hkeys hagree hentry hkey
      have hvalue := hagree.value (.arrayShape entries) rfl i entry _ hentry hindex _
        (shapeKeyLiteral_natToString hmax)
      have hmem := List.mem_of_getElem? hentry
      cases hfind : entries.zipIdx.find? fun (other, position) =>
          entryAtOffset (natToString (positionalCount (entries.take i))) other position with
      | none =>
          have hnone : intOffsetValue entries
              (literalInt (natToString (positionalCount (entries.take i)))) = none := by
            simp only [intOffsetValue, literalInt, kind, hfind, Option.map_none]
          have hleft : evaluateIndexAccess (.arrayShape entries)
              (literalInt (natToString (positionalCount (entries.take i)))) =
              .indexAccess (.arrayShape entries)
                (literalInt (natToString (positionalCount (entries.take i)))) := by
            simp only [evaluateIndexAccess, kind, hnone]
            rfl
          exact absurd (hleft.symm.trans hvalue) (indexAccess_ne_value hmem _)
      | some p =>
          obtain ⟨other, j⟩ := p
          have hother := List.mk_mem_zipIdx_iff_getElem?.mp (List.mem_of_find?_eq_some hfind)
          have hat : entryAtOffset (natToString (positionalCount (entries.take i))) other j =
              true := by
            have := List.find?_some hfind
            exact this
          unfold entryAtOffset at hat
          cases hotherKey : other.key with
          | some named =>
              rw [hotherKey] at hat
              obtain rfl : named = natToString (positionalCount (entries.take i)) := by
                simpa using hat
              have heq := unambiguous_of_agree hagree hentry hother hindex
                (key_of_keyed hkeys hother hotherKey)
              rw [← heq, hkey] at hotherKey
              exact absurd hotherKey (by simp)
          | none =>
              rw [hotherKey] at hat
              obtain rfl : j = positionalCount (entries.take i) :=
                natToString_injective (by simpa using hat)
              have hle : positionalCount (entries.take i) ≤ i :=
                le_trans List.countP_le_length (List.length_take_le _ _)
              by_contra hne
              have hlt : positionalCount (entries.take i) < i := lt_of_le_of_ne hle hne
              have hbefore := ih _ hlt hother hotherKey
              have hsucc := positionalCount_take_succ hother
              have hmono : positionalCount (entries.take (positionalCount (entries.take i)).succ) ≤
                  positionalCount (entries.take i) :=
                positionalCount_take_mono (Nat.succ_le_of_lt hlt)
              simp only [hotherKey, Option.isNone_none, if_true, Nat.succ_eq_add_one] at hsucc hmono
              omega

/-- Readers that agree read readable keys. -/
theorem keysReadable_of_agree (hkeys : runtimeShapeKeys entries = some keys)
    (hagree : ReadersAgree entries keys) : KeysReadable entries := by
  have hposition : ∀ {i : Nat} {entry : ShapeEntry}, entries[i]? = some entry →
      entry.key = none → keys[i]? = some (natToString i) := by
    intro i entry hentry hkey
    have h := (key_of_agree hkeys hagree hentry hkey).1
    rw [positionalCount_of_agree hkeys hagree hentry hkey] at h
    exact h
  constructor
  · rw [List.pairwise_iff_getElem]
    intro a b ha hb hab hkeyed
    by_contra hunkeyed
    have hnone : entries[b].key = none := by
      simpa [Option.isSome_iff_ne_none] using hunkeyed
    have hcount := positionalCount_of_agree hkeys hagree (List.getElem?_eq_getElem hb) hnone
    have hall : (entries.take b).countP (fun entry => entry.key.isNone) =
        (entries.take b).length := by
      rw [List.length_take, min_eq_left (le_of_lt hb)]
      exact hcount
    have hmem : entries[a] ∈ entries.take b := by
      rw [List.mem_take_iff_getElem]
      exact ⟨a, by omega, rfl⟩
    have := List.countP_eq_length.mp hall _ hmem
    rw [Option.isNone_iff_eq_none] at this
    rw [this] at hkeyed
    exact absurd hkeyed (by simp)
  · intro i entry hentry hkey other hother hspelled
    obtain ⟨j, hj, rfl⟩ := List.getElem_of_mem hother
    have heq := unambiguous_of_agree hagree hentry (List.getElem?_eq_getElem hj)
      (hposition hentry hkey) (key_of_keyed hkeys (List.getElem?_eq_getElem hj) hspelled)
    rw [← heq, hkey] at hspelled
    exact absurd hspelled (by simp)
  · intro entry hentry other hother hsome hkey
    obtain ⟨i, hi, rfl⟩ := List.getElem_of_mem hentry
    obtain ⟨j, hj, rfl⟩ := List.getElem_of_mem hother
    obtain ⟨key, hnamed⟩ := Option.isSome_iff_exists.mp hsome
    exact unambiguous_of_agree hagree (List.getElem?_eq_getElem hi) (List.getElem?_eq_getElem hj)
      (key_of_keyed hkeys (List.getElem?_eq_getElem hi) hnamed)
      (key_of_keyed hkeys (List.getElem?_eq_getElem hj) (hkey ▸ hnamed))
  · intro entry hentry key hkey
    obtain ⟨i, hi, rfl⟩ := List.getElem_of_mem hentry
    by_contra hclass
    obtain ⟨name, hname⟩ := Option.ne_none_iff_exists'.mp hclass
    have hliteral : shapeKeyLiteral key = some (.classNameLiteral name) := by
      simp [shapeKeyLiteral, isCanonicalIntKey_of_classNameKey hname, hname]
    have hvalue := hagree.value (.arrayShape entries) rfl i _ key (List.getElem?_eq_getElem hi)
      (key_of_keyed hkeys (List.getElem?_eq_getElem hi) hkey) _ hliteral
    exact absurd hvalue (indexAccess_ne_value hentry _)

/-- The readers of a shape agree with the keys its entries occupy exactly
where those keys are readable. -/
theorem readersAgree_iff_keysReadable (entries : List ShapeEntry) (keys : List String)
    (hkeys : runtimeShapeKeys entries = some keys) :
    ReadersAgree entries keys ↔ KeysReadable entries :=
  ⟨keysReadable_of_agree hkeys, fun h => h.readersAgree hkeys⟩

end

/-- `array{int, x: string}`. -/
def positionalThenKeyed : List ShapeEntry :=
  [⟨none, PhpType.int, false⟩, ⟨some "x", PhpType.string, false⟩]

theorem readersAgree_iff_positionalThenKeyed :
    runtimeShapeKeys positionalThenKeyed = some ["0", "x"] ∧
      (@ReadersAgree constantHasher positionalThenKeyed ["0", "x"] ↔
        KeysReadable positionalThenKeyed) := by
  have hkeys : runtimeShapeKeys positionalThenKeyed = some ["0", "x"] := by decide +kernel
  exact ⟨hkeys, @readersAgree_iff_keysReadable constantHasher _ _ hkeys⟩

/-- `array{5: int, string}`. -/
def integerThenPositional : List ShapeEntry :=
  [⟨some "5", PhpType.int, false⟩, ⟨none, PhpType.string, false⟩]

/-- The unkeyed entry occupies the key `6`; no reader finds it there, and
`key-of` takes it for `1`. -/
theorem readers_disagree_integerThenPositional :
    runtimeShapeKeys integerThenPositional = some ["5", "6"] ∧
      shapeEntry (.arrayShape integerThenPositional) "6" = none ∧
      @evaluateIndexAccess constantHasher (.arrayShape integerThenPositional) (literalInt "6") =
        .indexAccess (.arrayShape integerThenPositional) (literalInt "6") ∧
      @evaluateKeyOf constantHasher (.arrayShape integerThenPositional) =
        .union [literalInt "5", literalInt "1"] ∧
      ¬ @ReadersAgree constantHasher integerThenPositional ["5", "6"] := by
  have hentry : shapeEntry (.arrayShape integerThenPositional) "6" = none := by decide +kernel
  refine ⟨by decide +kernel, hentry, by decide +kernel, by decide +kernel, ?_⟩
  intro hagree
  have hfound := @ReadersAgree.entry constantHasher _ _ hagree
    (.arrayShape integerThenPositional) rfl 1 ⟨none, PhpType.string, false⟩ "6" rfl rfl
  rw [hentry] at hfound
  exact absurd hfound (by simp)

end PhpantomLsp
