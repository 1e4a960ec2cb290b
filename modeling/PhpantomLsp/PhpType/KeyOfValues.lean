import PhpantomLsp.PhpType.DedupExact
import PhpantomLsp.PhpType.TypeOperators
import PhpantomLsp.PhpType.UnionAlternatives

/-!
# The values under all the keys

`T[key-of<T>]` reads the keys of a shape and looks each of them up again.
One key is looked up as what it is; in a union of keys only the ones that read
as a string are, so that the values under integers and class names are left
out.
-/

namespace PhpantomLsp

open Text Lib PhpType

/-! ## The keys of a shape, as `key-of` spells them -/

/-- The key of each entry. -/
def keyLiterals (entries : List ShapeEntry) : List PhpType :=
  entries.zipIdx.map fun (entry, position) => entryKeyLiteral entry position

/-- What a key can be spelled as. -/
def IsKeyLiteral (t : PhpType) : Prop :=
  (∃ value, t = .literal value) ∨ (∃ name, t = .classNameLiteral name) ∨ t = .named "array-key"

theorem isKeyLiteral_entryKeyLiteral (entry : ShapeEntry) (position : Nat) :
    IsKeyLiteral (entryKeyLiteral entry position) := by
  unfold entryKeyLiteral
  split
  · exact .inl ⟨_, rfl⟩
  · unfold shapeKeyLiteral
    split
    · exact .inl ⟨_, rfl⟩
    · split
      · exact .inr (.inl ⟨_, rfl⟩)
      · split
        · exact .inr (.inr rfl)
        · exact .inl ⟨_, rfl⟩

theorem isKeyLiteral_of_mem {entries : List ShapeEntry} {t : PhpType}
    (ht : t ∈ keyLiterals entries) : IsKeyLiteral t := by
  obtain ⟨⟨entry, position⟩, -, rfl⟩ := List.mem_map.mp ht
  exact isKeyLiteral_entryKeyLiteral entry position

theorem enumNumberSpellings_of_isKeyLiteral {t : PhpType} (ht : IsKeyLiteral t) :
    enumNumberSpellings t = [] := by
  have hnamed : ∀ name : Atom, enumNumberSpellings (.named name) = [] := by
    intro name
    rw [enumNumberSpellings_eq]
    rfl
  rcases ht with ⟨value, rfl⟩ | ⟨name, rfl⟩ | rfl
  · rw [enumNumberSpellings_eq]
    rfl
  · rw [enumNumberSpellings_eq]
    simp [enumNumberSpellingsBody, hashedChildren, kind, asEnumCase, hnamed]
  · exact hnamed _

theorem stringContent_of_literalsEqual {v w : LiteralValue} (h : literalsEqual v w = true) :
    v.stringContent = w.stringContent := by
  cases v <;> cases w <;> try (simp [literalsEqual] at h; done)
  case int.int => rfl
  case float.float => rfl
  case string.string => exact literalsEqual_string.mp h

/-- Equivalent keys are looked up alike. -/
theorem literalOrNamedShapeKey_of_equivalent {a b : PhpType} (ha : IsKeyLiteral a)
    (hb : IsKeyLiteral b) (hab : equivalentForDedup a b = true) :
    literalOrNamedShapeKey a = literalOrNamedShapeKey b := by
  rcases equivalentForDedup_iff.mp hab with rfl | ⟨e, e', c, rfl, -, -⟩ | ⟨-, h⟩
  · rfl
  · rcases ha with ⟨_, h⟩ | ⟨_, h⟩ | h <;> exact absurd h (by simp)
  · rcases ha with ⟨v, rfl⟩ | ⟨n, rfl⟩ | rfl <;> rcases hb with ⟨w, rfl⟩ | ⟨m, rfl⟩ | rfl
    · exact stringContent_of_literalsEqual h
    · exact absurd h (by simp [nodesEquivalent, kind])
    · exact absurd h (by simp [nodesEquivalent, kind])
    · exact absurd h (by simp [nodesEquivalent, kind])
    · rfl
    · exact absurd h (by simp [nodesEquivalent, kind])
    · exact absurd h (by simp [nodesEquivalent, kind])
    · exact absurd h (by simp [nodesEquivalent, kind])
    · rfl

/-- A union a value is taken for is a union too. -/
theorem kind_union_of_equivalent {a b : PhpType} (hab : equivalentForDedup a b = true)
    {members : List PhpType} (ha : a.kind = .union members) : ∃ wider, b.kind = .union wider := by
  rcases equivalentForDedup_iff.mp hab with rfl | ⟨e, e', c, rfl, -, -⟩ | ⟨-, hnodes⟩
  · exact ⟨members, ha⟩
  · exact absurd ha (by simp [kind])
  · rw [ha] at hnodes
    cases hb : b.kind with
    | union wider => exact ⟨wider, rfl⟩
    | _ =>
        rw [hb] at hnodes
        exact absurd hnodes (by simp [nodesEquivalent])

/-- The keys, each of them once. -/
def distinctKeys (entries : List ShapeEntry) : List PhpType :=
  firstOccurrences equivalentForDedup (keyLiterals entries)

theorem isKeyLiteral_of_mem_distinctKeys {entries : List ShapeEntry} {t : PhpType}
    (ht : t ∈ distinctKeys entries) : IsKeyLiteral t :=
  isKeyLiteral_of_mem ((firstOccurrences_sublist _ _).subset ht)

/-! ## The values a union of keys reads -/

/-- The string an entry's key is read as in a union of keys.  An unkeyed
entry, an integer and the name of a class are read as none, and any other class
constant as the keyword it is typed as. -/
def readableKey (entry : ShapeEntry) : Option String :=
  entry.key.bind fun key =>
    if isCanonicalIntKey key || (classNameKey key).isSome then none
    else if (classConstantKey key).isSome then some "array-key" else some key

/-- The values that stand under string keys. -/
def stringKeyedValues (entries : List ShapeEntry) : List PhpType :=
  firstOccurrences (fun a b => decide (a = b)) <|
    entries.flatMap fun entry =>
      ((readableKey entry).map fun key =>
        (entries.filter fun other => other.key == some key).map (·.valueType)).getD []

theorem literalOrNamedShapeKey_entryKeyLiteral (entry : ShapeEntry) (position : Nat) :
    literalOrNamedShapeKey (entryKeyLiteral entry position) = readableKey entry := by
  unfold entryKeyLiteral readableKey
  cases entry.key with
  | none => rfl
  | some key =>
      dsimp only [Option.bind_some]
      unfold shapeKeyLiteral
      by_cases hint : isCanonicalIntKey key = true
      · simp only [hint, if_true, Bool.true_or]
        rfl
      · rw [Bool.not_eq_true] at hint
        simp only [hint, Bool.false_eq_true, if_false, Bool.false_or]
        cases hclass : classNameKey key with
        | some name => rfl
        | none =>
            simp only [Option.isSome_none, Bool.false_eq_true, if_false]
            split
            · rfl
            · exact stringContent_stringValue key

theorem flatMap_zipIdx {β : Type} (entries : List ShapeEntry) (f : ShapeEntry → List β) :
    entries.zipIdx.flatMap (fun p => f p.1) = entries.flatMap f := by
  conv_rhs => rw [← List.zipIdx_map_fst 0 entries, List.flatMap_map]

theorem unionKeyValues_distinctKeys (entries : List ShapeEntry) :
    unionKeyValues entries (distinctKeys entries) = stringKeyedValues entries := by
  unfold unionKeyValues stringKeyedValues distinctKeys
  rw [firstOccurrences_flatMap]
  · rw [← flatMap_zipIdx entries]
    unfold keyLiterals
    rw [List.flatMap_map]
    simp only [literalOrNamedShapeKey_entryKeyLiteral]
  · intro a ha b hb hab y hy
    rw [literalOrNamedShapeKey_of_equivalent (isKeyLiteral_of_mem ha) (isKeyLiteral_of_mem hb) hab]
    exact hy

/-- An entry under a key that is read as a string: no integer, no name of a
class and no other class constant. -/
def isStringKeyed (entry : ShapeEntry) : Bool :=
  entry.key.any fun key =>
    !isCanonicalIntKey key && (classNameKey key).isNone && (classConstantKey key).isNone

theorem isStringKeyed_iff {entry : ShapeEntry} :
    isStringKeyed entry = true ↔ ∃ key, entry.key = some key ∧ isCanonicalIntKey key = false ∧
      classNameKey key = none ∧ classConstantKey key = none := by
  unfold isStringKeyed
  cases entry.key with
  | none => simp
  | some key => simp [and_assoc]

theorem readableKey_of_isStringKeyed {entry : ShapeEntry} (h : isStringKeyed entry = true) :
    readableKey entry = entry.key := by
  obtain ⟨key, hkey, hint, hclass, hconstant⟩ := isStringKeyed_iff.mp h
  simp [readableKey, hkey, hint, hclass, hconstant]

/-- A key that is read is one some entry stands under as a string. -/
theorem isStringKeyed_of_readableKey {entry other : ShapeEntry} {key : String}
    (h : readableKey entry = some key) (hkey : other.key = some key) :
    isStringKeyed other = true := by
  obtain ⟨own, -, hread⟩ := Option.bind_eq_some_iff.mp h
  rw [isStringKeyed_iff]
  refine ⟨key, hkey, ?_⟩
  split_ifs at hread with hskipped hconstant
  · obtain rfl := Option.some.inj hread
    decide +kernel
  · obtain rfl := Option.some.inj hread
    rw [Bool.or_eq_true, not_or, Bool.not_eq_true] at hskipped
    exact ⟨hskipped.1, by simpa using hskipped.2, by simpa using hconstant⟩

theorem mem_stringKeyedValues {entries : List ShapeEntry} {v : PhpType} :
    v ∈ stringKeyedValues entries ↔
      ∃ entry ∈ entries, isStringKeyed entry = true ∧ entry.valueType = v := by
  unfold stringKeyedValues
  constructor
  · intro hv
    obtain ⟨entry, -, hread⟩ :=
      List.mem_flatMap.mp ((firstOccurrences_sublist _ _).subset hv)
    cases hkey : readableKey entry with
    | none => simp [hkey] at hread
    | some key =>
        rw [hkey, Option.map_some, Option.getD_some] at hread
        obtain ⟨other, hother, rfl⟩ := List.mem_map.mp hread
        obtain ⟨hmem, hspelled⟩ := List.mem_filter.mp hother
        exact ⟨other, hmem, isStringKeyed_of_readableKey hkey (by simpa using hspelled), rfl⟩
  · intro h
    obtain ⟨entry, hentry, hstring, rfl⟩ := h
    obtain ⟨key, hkey, -⟩ := isStringKeyed_iff.mp hstring
    have hread := readableKey_of_isStringKeyed hstring
    have hvalue : entry.valueType ∈ entries.flatMap fun entry =>
        ((readableKey entry).map fun key =>
          (entries.filter fun other => other.key == some key).map (·.valueType)).getD [] := by
      refine List.mem_flatMap.mpr ⟨entry, hentry, ?_⟩
      rw [hread, hkey, Option.map_some, Option.getD_some]
      exact List.mem_map_of_mem (List.mem_filter.mpr ⟨hentry, by simp [hkey]⟩)
    obtain ⟨seen, hseen, hsame⟩ :=
      @firstOccurrences_covers _ (fun a b => decide (a = b)) (by simp) _ _ hvalue
    rwa [of_decide_eq_true hsame] at hseen

/-- The values `T[key-of<T>]` reads: that of the first entry where all entries
stand under one key, and those under string keys otherwise. -/
def valuesRead (entries : List ShapeEntry) : List PhpType :=
  match distinctKeys entries, entries with
  | [_], first :: _ => [first.valueType]
  | _, _ => stringKeyedValues entries

theorem exists_of_mem_valuesRead {entries : List ShapeEntry} {v : PhpType}
    (h : v ∈ valuesRead entries) : ∃ entry ∈ entries, entry.valueType = v := by
  unfold valuesRead at h
  split at h
  · obtain rfl := List.mem_singleton.mp h
    exact ⟨_, by simp, rfl⟩
  · obtain ⟨entry, hentry, -, rfl⟩ := mem_stringKeyedValues.mp h
    exact ⟨entry, hentry, rfl⟩

/-! ### String keys of their own -/

theorem filter_key_eq_singleton {entries : List ShapeEntry} (hkeys : (entries.map (·.key)).Nodup)
    {entry : ShapeEntry} (hentry : entry ∈ entries) :
    (entries.filter fun other => other.key == entry.key) = [entry] := by
  induction entries with
  | nil => simp at hentry
  | cons first rest ih =>
      rw [List.map_cons, List.nodup_cons] at hkeys
      rcases List.mem_cons.mp hentry with rfl | hrest
      · have hnone : (rest.filter fun other => other.key == entry.key) = [] := by
          rw [List.filter_eq_nil_iff]
          intro other hother hsame
          exact hkeys.1 (eq_of_beq hsame ▸ List.mem_map_of_mem hother)
        simp [hnone]
      · have hne : ¬ (first.key == entry.key) = true := by
          intro hsame
          exact hkeys.1 (eq_of_beq hsame ▸ List.mem_map_of_mem hrest)
        rw [List.filter_cons, if_neg hne]
        exact ih hkeys.2 hrest

/-- Under string keys of their own, the entries are read one by one. -/
theorem stringKeyedValues_eq {entries : List ShapeEntry}
    (hstring : ∀ entry ∈ entries, isStringKeyed entry = true)
    (hkeys : (entries.map (·.key)).Nodup) :
    stringKeyedValues entries =
      firstOccurrences (fun a b => decide (a = b)) (entries.map (·.valueType)) := by
  unfold stringKeyedValues
  congr 1
  rw [List.map_eq_flatMap]
  refine List.flatMap_congr fun entry hentry => ?_
  obtain ⟨key, hkey, -⟩ := isStringKeyed_iff.mp (hstring entry hentry)
  have hfilter := filter_key_eq_singleton hkeys hentry
  rw [hkey] at hfilter
  rw [readableKey_of_isStringKeyed (hstring entry hentry), hkey, Option.map_some,
    Option.getD_some, hfilter]
  rfl

theorem distinctKeys_eq {entries : List ShapeEntry}
    (hstring : ∀ entry ∈ entries, isStringKeyed entry = true)
    (hkeys : (entries.map (·.key)).Nodup) : distinctKeys entries = keyLiterals entries := by
  have hread : ∀ p ∈ entries.zipIdx,
      literalOrNamedShapeKey (entryKeyLiteral p.1 p.2) = p.1.key := by
    intro p hp
    rw [literalOrNamedShapeKey_entryKeyLiteral]
    exact readableKey_of_isStringKeyed (hstring _ (List.fst_mem_of_mem_zipIdx hp))
  have hpair : entries.zipIdx.Pairwise fun p q => p.1.key ≠ q.1.key := by
    rw [← List.zipIdx_map_fst 0 entries, List.map_map] at hkeys
    exact List.pairwise_map.mp hkeys
  refine firstOccurrences_eq_self (List.pairwise_map.mpr (hpair.imp_of_mem ?_))
  intro p q hp hq hne
  by_contra hsame
  rw [Bool.not_eq_false] at hsame
  have hequal := literalOrNamedShapeKey_of_equivalent (isKeyLiteral_entryKeyLiteral _ _)
    (isKeyLiteral_entryKeyLiteral _ _) hsame
  rw [hread p hp, hread q hq] at hequal
  exact hne hequal

theorem absorbExactValues_of_isKeyLiteral {types : List PhpType}
    (h : ∀ t ∈ types, IsKeyLiteral t) : absorbExactValues types = types := by
  unfold absorbExactValues
  rw [List.filter_eq_self]
  intro t ht
  rcases h t ht with ⟨value, rfl⟩ | ⟨name, rfl⟩ | rfl
  · rfl
  · have hunmatched : (PhpType.classNameLiteral name).kind ∉
        (types.filter fun ty => !ty.isExactValueMarker).map kind := by
      intro hmem
      obtain ⟨u, hu, hkind⟩ := List.mem_map.mp hmem
      obtain ⟨hu, hplain⟩ := List.mem_filter.mp hu
      rcases h u hu with ⟨value, rfl⟩ | ⟨other, rfl⟩ | rfl
      · exact absurd hkind (by simp [kind])
      · exact absurd hplain (by simp [isExactValueMarker])
      · exact absurd hkind (by simp [kind])
    rw [Bool.or_eq_true, Bool.not_eq_true', Bool.not_eq_true', decide_eq_false_iff_not]
    exact .inr hunmatched
  · rfl

section

variable [DedupHasher]

/-! ## The type of the keys -/

theorem dedupTypes_keyLiterals (entries : List ShapeEntry) :
    dedupTypes (keyLiterals entries) = distinctKeys entries := by
  refine dedupTypes_eq_of_hash fun a ha b hb hab => ?_
  unfold dedupHash
  rw [(hashForDedup_eq_iff hab).mpr]
  rw [enumNumberSpellings_of_isKeyLiteral (isKeyLiteral_of_mem ha),
    enumNumberSpellings_of_isKeyLiteral (isKeyLiteral_of_mem hb)]

theorem mkUnion_distinctKeys {entries : List ShapeEntry}
    (h : 2 ≤ (distinctKeys entries).length) :
    mkUnion (distinctKeys entries) = .union (distinctKeys entries) := by
  have hnone : ∀ p : PhpType → Bool, (∀ value, p (.literal value) = false) →
      (∀ name, p (.classNameLiteral name) = false) → p (.named "array-key") = false →
      (distinctKeys entries).any p = false := by
    intro p hliteral hclass hkey
    rw [List.any_eq_false]
    intro t ht
    rcases isKeyLiteral_of_mem_distinctKeys ht with ⟨value, rfl⟩ | ⟨name, rfl⟩ | rfl
    · simp [hliteral]
    · simp [hclass]
    · simp [hkey]
  refine mkUnion_eq_union h (hnone _ (fun _ => rfl) (fun _ => rfl) (by decide))
    (hnone _ (fun _ => rfl) (fun _ => rfl) rfl) (hnone _ (fun _ => rfl) (fun _ => rfl) rfl)
    (absorbExactValues_of_isKeyLiteral fun t ht => isKeyLiteral_of_mem_distinctKeys ht) ?_
  rw [← dedupTypes_keyLiterals]
  exact dedupUnionMembers_dedupTypes _

theorem evaluateKeyOf_of_kind_arrayShape {shape : PhpType} {entries : List ShapeEntry}
    (hshape : shape.kind = .arrayShape entries) :
    evaluateKeyOf shape =
      if (distinctKeys entries).isEmpty then PhpType.never else mkUnion (distinctKeys entries) := by
  rw [evaluateKeyOf_eq, evaluateKeyOfBody, hshape]
  dsimp only
  rw [← dedupTypes_keyLiterals]
  rfl

/-! ## The values at the keys -/

/-- The first entry is found under its own key, if that can be looked up. -/
theorem evaluateIndexAccess_first {shape : PhpType} {first : ShapeEntry} {rest : List ShapeEntry}
    (hshape : shape.kind = .arrayShape (first :: rest))
    (honly : ∀ t ∈ keyLiterals (first :: rest),
      equivalentForDedup (entryKeyLiteral first 0) t = true)
    (heval : evaluateIndexAccess shape (entryKeyLiteral first 0) ≠
      .indexAccess shape (entryKeyLiteral first 0)) :
    evaluateIndexAccess shape (entryKeyLiteral first 0) = first.valueType := by
  have hint : ∀ digits, entryAtOffset digits first 0 = true →
      evaluateIndexAccess shape (literalInt digits) = first.valueType := by
    intro digits hat
    have hstring : stringKeyValue (first :: rest) (literalInt digits) = none := rfl
    have hoffset : intOffsetValue (first :: rest) (literalInt digits) = some first.valueType := by
      simp only [intOffsetValue, literalInt, kind, List.zipIdx_cons, List.find?_cons, hat,
        Option.map_some]
    simp only [evaluateIndexAccess, hshape, hstring, hoffset]
    rfl
  unfold entryKeyLiteral at *
  cases hkey : first.key with
  | none => exact hint _ (by simp [entryAtOffset, hkey])
  | some key =>
      simp only [hkey] at honly heval ⊢
      unfold shapeKeyLiteral at *
      by_cases hcanonical : isCanonicalIntKey key = true
      · rw [if_pos hcanonical]
        exact hint _ (by simp [entryAtOffset, hkey])
      rw [if_neg hcanonical] at honly heval ⊢
      cases hclass : classNameKey key with
      | some name =>
          simp only [hclass] at heval
          refine absurd ?_ heval
          simp only [evaluateIndexAccess, hshape]
          rfl
      | none =>
          simp only [hclass] at honly heval ⊢
          by_cases hconstant : (classConstantKey key).isSome = true
          · rw [if_pos hconstant] at honly heval ⊢
            refine absurd ?_ heval
            have hfind : ((first :: rest).find? fun entry => entry.key == some "array-key") =
                none := by
              rw [List.find?_eq_none]
              intro entry hentry hspelled
              obtain ⟨i, hi, rfl⟩ := List.getElem_of_mem hentry
              have hliteral : entryKeyLiteral (first :: rest)[i] i =
                  literalStringValue "array-key" := by
                have hplain : shapeKeyLiteral "array-key" =
                    some (literalStringValue "array-key") := by decide
                simp only [entryKeyLiteral, eq_of_beq hspelled, hplain, Option.getD_some]
              have hmem : literalStringValue "array-key" ∈ keyLiterals (first :: rest) := by
                refine List.mem_map.mpr ⟨((first :: rest)[i], i), ?_, hliteral⟩
                exact List.mk_mem_zipIdx_iff_getElem?.mpr (List.getElem?_eq_getElem hi)
              have hequiv := honly _ hmem
              exact absurd hequiv (by decide +kernel)
            have hnamed : stringKeyValue (first :: rest) (.named "array-key") = none := by
              show ((first :: rest).find? fun entry => entry.key == some "array-key").map
                (·.valueType) = none
              rw [hfind]
              rfl
            simp only [evaluateIndexAccess, hshape, Option.getD_none, hnamed]
            rfl
          · rw [if_neg hconstant]
            have hindex : literalOrNamedShapeKey (literalStringValue key) = some key :=
              stringContent_stringValue key
            have hstring : stringKeyValue (first :: rest) (literalStringValue key) =
                some first.valueType := by
              simp only [stringKeyValue, hindex, Option.bind_some, List.find?_cons, hkey,
                beq_self_eq_true, Option.map_some]
            simp only [Option.getD_some, evaluateIndexAccess, hshape, hstring]
            rfl

theorem unionKeyValue_distinctKeys (entries : List ShapeEntry) :
    unionKeyValue entries (.union (distinctKeys entries)) =
      match stringKeyedValues entries with
      | [] => none
      | values => some (mkUnion values) := by
  unfold unionKeyValue
  simp only [kind]
  exact congrArg (fun values => match values with
    | [] => none
    | values => some (mkUnion values)) (unionKeyValues_distinctKeys entries)

/-- `T[key-of<T>]` is the union of the values read, if it evaluates. -/
theorem evaluateIndexAccess_keyOf {shape : PhpType} {entries : List ShapeEntry}
    (hshape : shape.kind = .arrayShape entries)
    (heval : evaluateIndexAccess shape (evaluateKeyOf shape) ≠
      .indexAccess shape (evaluateKeyOf shape)) :
    valuesRead entries ≠ [] ∧
      evaluateIndexAccess shape (evaluateKeyOf shape) = mkUnion (valuesRead entries) := by
  rw [evaluateKeyOf_of_kind_arrayShape hshape] at heval ⊢
  cases hkeys : distinctKeys entries with
  | nil =>
      cases entries with
      | cons first rest => exact absurd hkeys (by simp [distinctKeys, keyLiterals, firstOccurrences,
          retainUnseen])
      | nil =>
          refine absurd ?_ heval
          rw [hkeys]
          simp only [evaluateIndexAccess, hshape]
          rfl
  | cons key others =>
      rw [hkeys] at heval
      simp only [List.isEmpty_cons, Bool.false_eq_true, if_false] at heval ⊢
      cases others with
      | nil =>
          cases entries with
          | nil => exact absurd hkeys (by simp [distinctKeys, keyLiterals, firstOccurrences,
              retainUnseen])
          | cons first rest =>
              obtain rfl : entryKeyLiteral first 0 = key := (List.cons.inj hkeys).1
              have hone : mkUnion [entryKeyLiteral first 0] = entryKeyLiteral first 0 := rfl
              have honly : ∀ t ∈ keyLiterals (first :: rest),
                  equivalentForDedup (entryKeyLiteral first 0) t = true := by
                intro t ht
                obtain ⟨seen, hseen, hequiv⟩ := firstOccurrences_covers equivalentForDedup_self _ ht
                have hmem : seen ∈ distinctKeys (first :: rest) := hseen
                rw [hkeys, List.mem_singleton] at hmem
                rwa [hmem] at hequiv
              rw [hone] at heval ⊢
              have hfirst : valuesRead (first :: rest) = [first.valueType] := by
                unfold valuesRead
                rw [hkeys]
              rw [evaluateIndexAccess_first hshape honly heval, hfirst]
              exact ⟨by simp, rfl⟩
      | cons key' others =>
          have hlength : 2 ≤ (distinctKeys entries).length := by simp [hkeys]
          rw [← hkeys, mkUnion_distinctKeys hlength] at heval ⊢
          have hunion := unionKeyValue_distinctKeys entries
          have hother : stringKeyValue entries (.union (distinctKeys entries)) = none ∧
              intOffsetValue entries (.union (distinctKeys entries)) = none := ⟨rfl, rfl⟩
          simp only [evaluateIndexAccess, hshape, hother.1, hother.2, hunion] at heval ⊢
          have hkeyed : valuesRead entries = stringKeyedValues entries := by
            unfold valuesRead
            rw [hkeys]
          rw [hkeyed]
          cases hstring : stringKeyedValues entries with
          | nil =>
              rw [hstring] at heval
              exact absurd rfl heval
          | cons value values => exact ⟨by simp, rfl⟩

/-! ## The law -/

/-- Every alternative of `value-of<T>` stands below `T[key-of<T>]`. -/
def KeyOfCoversValueOf (shape : PhpType) : Prop :=
  ∀ alternative ∈ (evaluateValueOf shape).unionMembers,
    isSubtypeOf alternative (evaluateIndexAccess shape (evaluateKeyOf shape)) = true

/-- The values of a shape, as a union lists them. -/
def distinctValues (entries : List ShapeEntry) : List PhpType :=
  dedupTypes (entries.map (·.valueType))

/-- The values that are read, as a union lists them. -/
def distinctRead (entries : List ShapeEntry) : List PhpType := dedupTypes (valuesRead entries)

/-- No lookup skips an entry: the shape has one entry only, or each stands under
a string of its own, and no value is dropped for another spelling of it. -/
def ReadInFull (entries : List ShapeEntry) : Prop :=
  (∃ entry, entries = [entry]) ∨
    (∀ entry ∈ entries, isStringKeyed entry = true) ∧ (entries.map (·.key)).Nodup ∧
      ∀ a ∈ entries, ∀ b ∈ entries, equivalentForDedup a.valueType b.valueType = true →
        a.valueType = b.valueType

/-- A union of these types drops repeated ones and joins what is left. -/
def KeptApart (types : List PhpType) : Prop := mkUnion types = unionOfLeft (dedupTypes types)

/-- A value stands below the one value that is read, or all it comes apart into
stands below one of those that are. -/
def Covered (entries : List ShapeEntry) (value : PhpType) : Prop :=
  match distinctRead entries with
  | [read] => isSubtypeOf value read = true
  | read => ∀ a, IsAlternative a value → Unsplit a → ∃ other ∈ read, isSubtypeOf a other = true

theorem evaluateValueOf_of_kind {shape : PhpType} {entries : List ShapeEntry}
    (hshape : shape.kind = .arrayShape entries) (hsome : distinctValues entries ≠ []) :
    evaluateValueOf shape = mkUnion (distinctValues entries) := by
  have hnonempty : (dedupTypes (entries.map (·.valueType))).isEmpty = false := by
    rw [List.isEmpty_eq_false_iff]
    exact hsome
  unfold evaluateValueOf
  simp only [hshape, unionOrNever, hnonempty]
  rfl

/-- Every value is one of those that are told apart. -/
theorem exists_distinctValues {entries : List ShapeEntry} {entry : ShapeEntry}
    (h : entry ∈ entries) :
    ∃ v ∈ distinctValues entries, equivalentForDedup v entry.valueType = true := by
  obtain ⟨v, hv, -, hsame⟩ := bucketRetain_covers dedupHash equivalentForDedup
    equivalentForDedup_self [] (entries.map (·.valueType)) (List.mem_map_of_mem h)
  exact ⟨v, by simpa [distinctValues, dedupTypes] using hv, hsame⟩

theorem exists_of_mem_distinctValues {entries : List ShapeEntry} {v : PhpType}
    (h : v ∈ distinctValues entries) : ∃ entry ∈ entries, entry.valueType = v :=
  List.mem_map.mp ((dedupTypes_sublist _).subset h)

/-- Where no entry is skipped, all the values are read. -/
theorem valuesRead_eq {entries : List ShapeEntry} (h : ReadInFull entries) :
    valuesRead entries = distinctValues entries := by
  rcases h with ⟨entry, rfl⟩ | ⟨hstring, hkeys, hspelled⟩
  · rfl
  have hvalues : distinctValues entries =
      firstOccurrences (fun a b => decide (a = b)) (entries.map (·.valueType)) := by
    have hsame : ∀ a ∈ entries.map (·.valueType), ∀ b ∈ entries.map (·.valueType),
        equivalentForDedup a b = true → a = b := by
      intro a ha b hb hab
      obtain ⟨entry, hentry, rfl⟩ := List.mem_map.mp ha
      obtain ⟨other, hother, rfl⟩ := List.mem_map.mp hb
      exact hspelled entry hentry other hother hab
    unfold distinctValues
    rw [dedupTypes_eq_of_hash fun a ha b hb hab => congrArg dedupHash (hsame a ha b hb hab)]
    refine firstOccurrences_congr fun a ha b hb => ?_
    rw [Bool.eq_iff_iff, decide_eq_true_eq]
    constructor
    · exact hsame a ha b hb
    · intro hab
      rw [hab]
      exact equivalentForDedup_self b
  unfold valuesRead
  split
  · rename_i key first rest hone
    rw [distinctKeys_eq hstring hkeys] at hone
    have hlength := congrArg List.length hone
    simp only [keyLiterals, List.length_map, List.length_zipIdx, List.length_cons,
      List.length_nil] at hlength
    obtain rfl : rest = [] := List.eq_nil_of_length_eq_zero (by omega)
    rfl
  · rw [stringKeyedValues_eq hstring hkeys, hvalues]

theorem exists_of_mem_distinctRead {entries : List ShapeEntry} {v : PhpType}
    (h : v ∈ distinctRead entries) : ∃ entry ∈ entries, entry.valueType = v :=
  exists_of_mem_valuesRead ((dedupTypes_sublist _).subset h)

theorem distinctRead_ne_nil {entries : List ShapeEntry} (h : valuesRead entries ≠ []) :
    distinctRead entries ≠ [] := by
  obtain ⟨value, hvalue⟩ := List.exists_mem_of_ne_nil _ h
  obtain ⟨v, hv, -, -⟩ := bucketRetain_covers dedupHash equivalentForDedup
    equivalentForDedup_self [] (valuesRead entries) hvalue
  exact List.ne_nil_of_mem (by simpa [distinctRead, dedupTypes] using hv)

/-- What is read is one value, or a union of several. -/
theorem mkUnion_valuesRead {entries : List ShapeEntry} (hsome : valuesRead entries ≠ [])
    (hread : KeptApart (valuesRead entries)) :
    (∃ value, distinctRead entries = [value] ∧ mkUnion (valuesRead entries) = value) ∨
      2 ≤ (distinctRead entries).length ∧
        mkUnion (valuesRead entries) = .union (distinctRead entries) := by
  have hunion : mkUnion (valuesRead entries) = unionOfLeft (distinctRead entries) := hread
  rw [hunion]
  cases hvalues : distinctRead entries with
  | nil => exact absurd hvalues (distinctRead_ne_nil hsome)
  | cons first rest =>
      cases rest with
      | nil => exact .inl ⟨first, rfl, rfl⟩
      | cons second rest => exact .inr ⟨by simp, rfl⟩

/-- A covered value is one that stands below the union of what is read. -/
theorem covered_iff {entries : List ShapeEntry} {v : PhpType}
    (hnames : ∀ entry ∈ entries, NoKeyEnum entry.valueType) (hsome : valuesRead entries ≠ [])
    (hread : KeptApart (valuesRead entries)) :
    Covered entries v ↔ isSubtypeOf v (mkUnion (valuesRead entries)) = true := by
  rcases mkUnion_valuesRead hsome hread with ⟨value, hone, hunion⟩ | ⟨hlength, hunion⟩
  · unfold Covered
    rw [hone, hunion]
  · have hkeys : NoKeyEnum (.union (distinctRead entries)) := by
      refine noKeyEnum_union fun value hvalue => ?_
      obtain ⟨entry, hentry, rfl⟩ := exists_of_mem_distinctRead hvalue
      exact hnames entry hentry
    rw [hunion, isSubtypeOf_union_iff (distinctRead_ne_nil hsome) hkeys]
    unfold Covered
    split
    · rename_i value hone
      rw [hone] at hlength
      exact absurd hlength (by simp)
    · exact Iff.rfl

/-- The alternatives of the values stand below `T[key-of<T>]` where the values
do. -/
theorem keyOfCoversValueOf_iff_values {shape : PhpType} {entries : List ShapeEntry}
    (hshape : shape.kind = .arrayShape entries)
    (heval : evaluateIndexAccess shape (evaluateKeyOf shape) ≠
      .indexAccess shape (evaluateKeyOf shape))
    (hnames : ∀ entry ∈ entries, NoKeyEnum entry.valueType)
    (hvalues : KeptApart (distinctValues entries)) (hread : KeptApart (valuesRead entries)) :
    KeyOfCoversValueOf shape ↔ ∀ value ∈ distinctValues entries,
      isSubtypeOf value (mkUnion (valuesRead entries)) = true := by
  obtain ⟨hsome, hindex⟩ := evaluateIndexAccess_keyOf hshape heval
  obtain ⟨read, hmem⟩ := List.exists_mem_of_ne_nil _ (distinctRead_ne_nil hsome)
  obtain ⟨entry, hentry, hvalue⟩ := exists_of_mem_distinctRead hmem
  obtain ⟨v, hv, hsame⟩ := exists_distinctValues hentry
  rw [hvalue] at hsame
  have hunion : mkUnion (distinctValues entries) = unionOfLeft (distinctValues entries) :=
    hvalues.trans (congrArg unionOfLeft (dedupTypes_dedupTypes _))
  unfold KeyOfCoversValueOf
  rw [hindex, evaluateValueOf_of_kind hshape (List.ne_nil_of_mem hv), hunion]
  cases hdistinct : distinctValues entries with
  | nil =>
      rw [hdistinct] at hv
      exact absurd hv (by simp)
  | cons first rest =>
      rw [hdistinct] at hv
      cases rest with
      | cons second rest => exact Iff.rfl
      | nil =>
          obtain rfl := List.mem_singleton.mp hv
          unfold unionOfLeft unionMembers
          dsimp only
          cases hkind : v.kind with
          | union own =>
              have hwide : ∃ wider, (mkUnion (valuesRead entries)).kind = .union wider := by
                rcases mkUnion_valuesRead hsome hread with ⟨value, hone, hjoined⟩ | ⟨-, hjoined⟩
                · rw [hone, List.mem_singleton] at hmem
                  rw [hjoined, ← hmem]
                  exact kind_union_of_equivalent hsame hkind
                · exact ⟨_, congrArg kind hjoined⟩
              obtain ⟨wider, hwide⟩ := hwide
              have hkeys : NoKeyEnum (mkUnion (valuesRead entries)) := by
                refine noKeyEnum_mkUnion fun value hvalue => ?_
                obtain ⟨entry, hentry, rfl⟩ := exists_of_mem_valuesRead hvalue
                exact hnames entry hentry
              have hlisted := isSubtypeOf_iff_unionMembers hkind hwide hkeys
              simpa using hlisted.symm
          | _ => exact Iff.rfl

end

/-- `array{x: int, y: string}`. -/
def stringKeyed : PhpType :=
  .arrayShape [⟨some "x", PhpType.int, false⟩, ⟨some "y", PhpType.string, false⟩]

/-- `array{int, x: int, y: string}`. -/
def positionalCovered : PhpType :=
  .arrayShape [⟨none, PhpType.int, false⟩, ⟨some "x", PhpType.int, false⟩,
    ⟨some "y", PhpType.string, false⟩]

/-- `array{int, x: string}`. -/
def positionalAndString : PhpType :=
  .arrayShape [⟨none, PhpType.int, false⟩, ⟨some "x", PhpType.string, false⟩]

end PhpantomLsp
