import PhpantomLsp.PhpType.DedupExact
import PhpantomLsp.PhpType.RuntimeJoin

/-!
# The shortcuts of the join

A comparison the join skips is one that would have answered no.  Two shapes
with plain keys are told apart by their keys because such keys are the array
keys their entries occupy; a shape only nests where its first key is listed;
and two literals that are a part of each other have been merged before.
-/

namespace PhpantomLsp

open Text Lib PhpType

/-- No shapes are told apart by their keys. -/
def noRuleOut : List ShapeEntry → List ShapeEntry → Bool := fun _ _ => false

/-- `absorb_subsumed_shapes` with every pair compared by the plain test. -/
def absorbSubsumedShapesPlain (types : List PhpType) : List PhpType :=
  if types.length < 2 || !types.any isShape then types
  else
    retainUndominated (fun _ _ => List.range types.length)
      (shapeSubsumed (shapeExactlyContainedInBy noRuleOut)) types

/-- Every pair is compared, and by the plain test. -/
def noShortcuts : JoinShortcuts :=
  ⟨noRuleOut, fun types _ _ => List.range types.length, absorbSubsumedShapesPlain⟩

/-! ## Keys -/

section

variable {fits : PhpType → PhpType → Bool} {entries wider : List ShapeEntry}
  {keys widerKeys : List String}

/-- A shape does not nest where one of its keys is not listed. -/
theorem shapeEntriesContainedIn_eq_false_of_key {key : String}
    (hlength : entries.length = keys.length) (hkey : key ∈ keys) (hunlisted : key ∉ widerKeys) :
    shapeEntriesContainedIn fits entries keys wider widerKeys = false := by
  obtain ⟨i, hi, rfl⟩ := List.getElem_of_mem hkey
  have hmem : (entries[i], keys[i]) ∈ entries.zip keys :=
    List.mem_iff_getElem.mpr ⟨i, by simpa [hlength] using hi, by simp⟩
  have hposition : keyPosition widerKeys keys[i] = none := by
    unfold keyPosition
    rw [List.findIdx?_eq_none_iff]
    intro widerKey hwider
    by_contra h
    have heq : widerKey = keys[i] := by simpa using h
    exact hunlisted (heq ▸ hwider)
  unfold shapeEntriesContainedIn
  rw [Bool.and_eq_false_iff]
  left
  rw [List.all_eq_false]
  exact ⟨_, hmem, by simp [hposition]⟩

/-- A shape does not nest where a key it does not list is required. -/
theorem shapeEntriesContainedIn_eq_false_of_required {entry : ShapeEntry} {key : String}
    (hmem : (entry, key) ∈ wider.zip widerKeys) (hrequired : entry.optional = false)
    (hunlisted : key ∉ keys) :
    shapeEntriesContainedIn fits entries keys wider widerKeys = false := by
  unfold shapeEntriesContainedIn
  rw [Bool.and_eq_false_iff]
  right
  rw [List.all_eq_false]
  exact ⟨_, hmem, by simp [hrequired, hunlisted]⟩

/-- The keys of a shape whose keys are plain are the ones it spells. -/
theorem runtimeShapeKeys_of_plain
    (hplain : entries.all (fun entry => entry.key.any isPlainKey) = true) :
    ∃ keys, runtimeShapeKeys entries = some keys ∧ entries.map (·.key) = keys.map some :=
  runtimeShapeKeysFrom_eq_of_plain (by simpa using hplain)

theorem map_key_of_plain
    (hplain : entries.all (fun entry => entry.key.any isPlainKey) = true)
    (hkeys : runtimeShapeKeys entries = some keys) : entries.map (·.key) = keys.map some := by
  obtain ⟨spelled, hspelled, hmap⟩ := runtimeShapeKeys_of_plain hplain
  rw [hmap, Option.some.inj (hspelled.symm.trans hkeys)]

theorem mem_keys_of_mem_entries (hmap : entries.map (·.key) = keys.map some) {entry : ShapeEntry}
    (hentry : entry ∈ entries) : ∃ key ∈ keys, entry.key = some key := by
  have hmem : entry.key ∈ keys.map some := hmap ▸ List.mem_map_of_mem hentry
  obtain ⟨key, hkey, heq⟩ := List.mem_map.mp hmem
  exact ⟨key, hkey, heq.symm⟩

theorem mem_keys_iff (hmap : entries.map (·.key) = keys.map some) {key : String} :
    key ∈ keys ↔ entries.any (fun entry => entry.key == some key) = true := by
  constructor
  · intro hkey
    have hmem : some key ∈ entries.map (·.key) := hmap ▸ List.mem_map_of_mem hkey
    obtain ⟨entry, hentry, heq⟩ := List.mem_map.mp hmem
    exact List.any_eq_true.mpr ⟨entry, hentry, by simp [heq]⟩
  · intro h
    obtain ⟨entry, hentry, heq⟩ := List.any_eq_true.mp h
    obtain ⟨key', hkey', hsome⟩ := mem_keys_of_mem_entries hmap hentry
    rw [hsome] at heq
    obtain rfl : key' = key := by simpa using heq
    exact hkey'

/-- Shapes that are told apart by their keys do not nest. -/
theorem shapeEntriesContainedIn_eq_false_of_ruledOut
    (hrule : keysRuleOutNesting entries wider = true)
    (hkeys : runtimeShapeKeys entries = some keys)
    (hwider : runtimeShapeKeys wider = some widerKeys) :
    shapeEntriesContainedIn fits entries keys wider widerKeys = false := by
  simp only [keysRuleOutNesting, Bool.and_eq_true, Bool.or_eq_true] at hrule
  obtain ⟨⟨⟨-, hplain⟩, -, hplain'⟩, hrule⟩ := hrule
  have hmap := map_key_of_plain hplain hkeys
  have hmap' := map_key_of_plain hplain' hwider
  have hlength : entries.length = keys.length := by
    simpa using congrArg List.length hmap
  rcases hrule with hrule | hrule
  · obtain ⟨entry, hentry, hlists⟩ := List.any_eq_true.mp hrule
    obtain ⟨key, hkey, hsome⟩ := mem_keys_of_mem_entries hmap hentry
    refine shapeEntriesContainedIn_eq_false_of_key hlength hkey ?_
    rw [mem_keys_iff hmap', ← hsome]
    simpa using hlists
  · obtain ⟨entry, hentry, hrequired⟩ := List.any_eq_true.mp hrule
    obtain ⟨i, hi, rfl⟩ := List.getElem_of_mem hentry
    have hlength' : wider.length = widerKeys.length := by
      simpa using congrArg List.length hmap'
    have hi' : i < widerKeys.length := hlength' ▸ hi
    have hkey : wider[i].key = some widerKeys[i] := by
      have := congrArg (·[i]?) hmap'
      simpa [hi, hi'] using this
    have hmem : (wider[i], widerKeys[i]) ∈ wider.zip widerKeys :=
      List.mem_iff_getElem.mpr ⟨i, by simpa [hlength'] using hi', by simp⟩
    simp only [Bool.and_eq_true, Bool.not_eq_true', hkey] at hrequired
    refine shapeEntriesContainedIn_eq_false_of_required hmem hrequired.1 ?_
    rw [mem_keys_iff hmap]
    simpa using hrequired.2

end

/-! ## The key test inside the comparisons -/

theorem shapeExactlyContainedInBy_noRuleOut :
    shapeExactlyContainedInBy keysRuleOutNesting = shapeExactlyContainedInBy noRuleOut := by
  funext entries isList supertype
  unfold shapeExactlyContainedInBy
  split
  · rename_i wider _
    by_cases hrule : keysRuleOutNesting entries wider = true
    · simp only [hrule, noRuleOut, Bool.or_true, if_true, Bool.or_false]
      split
      · rfl
      · split
        · rename_i hkeys hwider
          exact (shapeEntriesContainedIn_eq_false_of_ruledOut hrule hkeys hwider).symm
        · rfl
    · rw [Bool.not_eq_true] at hrule
      simp only [hrule, noRuleOut]
      rfl
  · rfl

theorem shapeValuesContainedInBy_noRuleOut (rvs : PhpType → PhpType → Bool) :
    shapeValuesContainedInBy rvs keysRuleOutNesting = shapeValuesContainedInBy rvs noRuleOut := by
  funext entries isList supertype
  unfold shapeValuesContainedInBy
  split
  · rfl
  · rename_i keys wider hkeys _
    by_cases hrule : keysRuleOutNesting entries wider = true
    · simp only [hrule, noRuleOut, Bool.true_or, if_true, Bool.false_or]
      split
      · rfl
      · split
        · rename_i hwider
          exact (shapeEntriesContainedIn_eq_false_of_ruledOut hrule hkeys hwider).symm
        · rfl
    · rw [Bool.not_eq_true] at hrule
      simp only [hrule, noRuleOut]
      rfl
  · rfl

/-- The key test never changes a comparison, at any depth. -/
theorem isRuntimeValueSubtypeBy_noRuleOut [DedupHasher] :
    isRuntimeValueSubtypeBy keysRuleOutNesting = isRuntimeValueSubtypeBy noRuleOut := by
  have hbody : (fun rvs => runtimeValueSubtypeBody rvs keysRuleOutNesting) =
      fun rvs => runtimeValueSubtypeBody rvs noRuleOut := by
    funext rvs subtype supertype
    unfold runtimeValueSubtypeBody
    rw [shapeValuesContainedInBy_noRuleOut]
  unfold isRuntimeValueSubtypeBy
  rw [hbody]

/-! ## The index of shapes -/

theorem kind_of_plainShapeEntries {ty : PhpType} {entries : List ShapeEntry}
    (h : plainShapeEntries ty = some entries) :
    ty.kind = .arrayShape entries ∧
      entries.all (fun entry => entry.key.any isPlainKey) = true := by
  unfold plainShapeEntries at h
  split at h
  · rename_i heq
    split at h
    · rename_i hplain
      obtain rfl := Option.some.inj h
      exact ⟨heq, (Bool.and_eq_true_iff.mp hplain).2⟩
    · exact absurd h (by simp)
  · exact absurd h (by simp)

theorem plainShapeKeys_eq_some {ty : PhpType} {keys : List String}
    (h : plainShapeKeys ty = some keys) :
    ∃ entries, plainShapeEntries ty = some entries ∧ runtimeShapeKeys entries = some keys ∧
      entries.map (·.key) = keys.map some := by
  obtain ⟨entries, hentries, rfl⟩ := Option.map_eq_some_iff.mp h
  obtain ⟨keys, hkeys, hmap⟩ := runtimeShapeKeys_of_plain (kind_of_plainShapeEntries hentries).2
  have hnames : entries.filterMap (·.key) = keys := by
    have : (entries.map (·.key)).filterMap id = keys := by rw [hmap]; simp
    simpa [List.filterMap_map] using this
  exact ⟨entries, hentries, by rw [hnames, hkeys], by rw [hnames, hmap]⟩

/-- A containment that only holds of shapes that list each other's keys. -/
def KeepsKeys (contained : PhpType → PhpType → Bool) : Prop :=
  ∀ {ty other : PhpType} {keys otherKeys : List String}, plainShapeKeys ty = some keys →
    plainShapeKeys other = some otherKeys → contained ty other = true →
    ∀ key ∈ keys, key ∈ otherKeys

/-- The index names every member a shape is contained in. -/
theorem mem_candidates {contained : PhpType → PhpType → Bool} (hkeys : KeepsKeys contained)
    {types : List PhpType} {ty other : PhpType} {candidate : Nat}
    (hother : types[candidate]? = some other) (hcontained : contained ty other = true) :
    candidate ∈ ((ShapeKeyIndex.new types).candidates ty).getD (List.range types.length) := by
  have hlt : candidate < types.length := (List.getElem?_eq_some_iff.mp hother).1
  have hnumbered : (other, candidate) ∈ types.zipIdx :=
    List.mk_mem_zipIdx_iff_getElem?.mpr hother
  unfold ShapeKeyIndex.candidates
  split
  · rename_i hbuilt
    split
    · rename_i first rest hty
      unfold ShapeKeyIndex.new at hbuilt ⊢
      split at hbuilt
      · exact absurd hbuilt (by simp)
      · rename_i hlong
        simp only [hlong, if_false, Option.getD_some, List.mem_append, List.mem_map,
          List.mem_filter, List.mem_flatMap]
        cases hplain : plainShapeEntries other with
        | none => exact .inl ⟨(other, candidate), ⟨hnumbered, by simp [hplain]⟩, rfl⟩
        | some entries =>
            have hotherKeys : plainShapeKeys other = some (entries.filterMap (·.key)) := by
              simp [plainShapeKeys, hplain]
            have hlisted := hkeys hty hotherKeys hcontained first (by simp)
            exact .inr ⟨(first, candidate),
              ⟨⟨(other, candidate), hnumbered, by simpa [hotherKeys] using hlisted⟩, by simp⟩, rfl⟩
    · simpa using hlt
  · simpa using hlt

/-- A shape that nests in another one has its keys among the other's. -/
theorem key_mem_of_shapeEntriesContainedIn {fits : PhpType → PhpType → Bool}
    {ty other : PhpType} {keys otherKeys : List String} {entries wider : List ShapeEntry}
    (hty : plainShapeKeys ty = some keys) (hother : plainShapeKeys other = some otherKeys)
    (hentries : ty.kind = .arrayShape entries) (hwider : other.kind = .arrayShape wider)
    (hcontained : ∀ keys otherKeys, runtimeShapeKeys entries = some keys →
      runtimeShapeKeys wider = some otherKeys →
      shapeEntriesContainedIn fits entries keys wider otherKeys = true) :
    ∀ key ∈ keys, key ∈ otherKeys := by
  intro key hkey
  obtain ⟨entries', hplain, hruntime, hmap⟩ := plainShapeKeys_eq_some hty
  obtain ⟨wider', hplain', hruntime', -⟩ := plainShapeKeys_eq_some hother
  obtain rfl : entries' = entries := by
    have := (kind_of_plainShapeEntries hplain).1.symm.trans hentries
    simpa using this
  obtain rfl : wider' = wider := by
    have := (kind_of_plainShapeEntries hplain').1.symm.trans hwider
    simpa using this
  have hlength : entries'.length = keys.length := by
    simpa using congrArg List.length hmap
  by_contra hunlisted
  have := hcontained keys otherKeys hruntime hruntime'
  rw [shapeEntriesContainedIn_eq_false_of_key hlength hkey hunlisted] at this
  exact absurd this (by simp)

theorem keepsKeys_shapeMemberContainedIn :
    KeepsKeys (shapeMemberContainedIn (shapeExactlyContainedInBy noRuleOut)) := by
  intro ty other keys otherKeys hty hother hcontained
  obtain ⟨entries, hplain, -, -⟩ := plainShapeKeys_eq_some hty
  obtain ⟨wider, hplain', -, -⟩ := plainShapeKeys_eq_some hother
  have hentries := (kind_of_plainShapeEntries hplain).1
  have hwider := (kind_of_plainShapeEntries hplain').1
  apply @key_mem_of_shapeEntriesContainedIn
    (fun value wider => wider.isMixed || equivalentForDedup value wider) _ _ _ _ _ _ hty hother
    hentries hwider
  intro keys otherKeys hkeys hotherKeys
  simp only [shapeMemberContainedIn, hentries, shapeExactlyContainedInBy, hwider, noRuleOut,
    hkeys, hotherKeys] at hcontained
  split at hcontained
  · exact absurd hcontained (by simp)
  · exact hcontained

theorem markers_of_kind_arrayShape {t : PhpType} {entries : List ShapeEntry}
    (h : t.kind = .arrayShape entries) :
    t.asUnsealedShape = none ∧ t.isExactValueMarker = false := by
  cases t <;> simp_all [kind, asUnsealedShape, isExactValueMarker]

theorem keepsKeys_isRuntimeValueSubtypeBy [DedupHasher] :
    KeepsKeys (isRuntimeValueSubtypeBy noRuleOut) := by
  intro ty other keys otherKeys hty hother hcontained
  obtain ⟨entries, hplain, hruntime, -⟩ := plainShapeKeys_eq_some hty
  obtain ⟨wider, hplain', hruntime', -⟩ := plainShapeKeys_eq_some hother
  have hentries := (kind_of_plainShapeEntries hplain).1
  have hwider := (kind_of_plainShapeEntries hplain').1
  obtain ⟨hunsealed, hmarker⟩ := markers_of_kind_arrayShape hwider
  have haccepts : other.acceptsEmptyArray = false := by
    simp [acceptsEmptyArray, hwider]
  apply @key_mem_of_shapeEntriesContainedIn (valueFits (isRuntimeValueSubtypeBy noRuleOut)) _ _ _ _
    _ _ hty hother hentries hwider
  intro keys otherKeys hkeys hotherKeys
  rw [isRuntimeValueSubtypeBy_eq] at hcontained
  simp only [runtimeValueSubtypeBody, hunsealed, hmarker, haccepts, hentries, hwider,
    shapeValuesContainedInBy, hkeys, hotherKeys, noRuleOut, Option.isSome_none, Bool.or_false,
    Bool.and_false, Bool.false_eq_true, if_false, Bool.false_or] at hcontained
  split at hcontained
  · exact absurd hcontained (by simp)
  · exact hcontained

/-- `absorb_subsumed_shapes` drops what the plain comparison of every pair
drops. -/
theorem absorbSubsumedShapes_eq_plain (types : List PhpType) :
    absorbSubsumedShapes types = absorbSubsumedShapesPlain types := by
  have hcontained : shapeExactlyContainedIn = shapeExactlyContainedInBy noRuleOut := by
    rw [← shapeExactlyContainedInBy_noRuleOut]
    rfl
  unfold absorbSubsumedShapes absorbSubsumedShapesPlain
  rw [hcontained]
  split
  · rfl
  · refine retainUndominated_congr (fun _ _ _ _ _ _ => rfl) ?_
    intro i x j y hi hj hdominated
    simp only [shapeSubsumed, Bool.and_eq_true] at hdominated
    refine iff_of_true (mem_candidates keepsKeys_shapeMemberContainedIn hj hdominated.1.2) ?_
    exact List.mem_range.mpr (List.getElem?_eq_some_iff.mp hj).1

/-! ## Literals -/

theorem markers_of_asLiteral {t : PhpType} {value : LiteralValue} (h : t.asLiteral = some value) :
    t.kind = .literal value ∧ t.asUnsealedShape = none ∧ t.asClassNameLiteral = none ∧
      t.asDqlBuilder = none ∧ t.asEnumCase = none ∧ t.isExactValueMarker = false := by
  have hkind : t.kind = .literal value := by
    unfold asLiteral at h
    split at h
    · rename_i heq
      rw [heq, Option.some.inj h]
    · exact absurd h (by simp)
  refine ⟨hkind, ?_⟩
  cases t <;>
    simp_all [kind, asUnsealedShape, asClassNameLiteral, asDqlBuilder, asEnumCase,
      isExactValueMarker]

theorem namedThroughNullable_of_kind_literal {p : Atom → Bool} {t : PhpType}
    {value : LiteralValue} (h : t.kind = .literal value) : namedThroughNullable p t = false := by
  rw [namedThroughNullable_eq, namedThroughNullableBody, h]

theorem isNamedWhere_of_kind_literal {p : Atom → Bool} {t : PhpType} {value : LiteralValue}
    (h : t.kind = .literal value) : isNamedWhere p t = false := by
  rw [isNamedWhere, h]

/-- Equal literals are merged, under one hash. -/
theorem merged_of_literalsEqual [DedupHasher] {a b : PhpType} {v w : LiteralValue}
    (ha : a.asLiteral = some v) (hb : b.asLiteral = some w) (heq : literalsEqual v w = true) :
    equivalentForDedup a b = true ∧ dedupHash a = dedupHash b := by
  obtain ⟨hkind, hunsealed, hclass, hdql, henum, -⟩ := markers_of_asLiteral ha
  obtain ⟨hkind', hunsealed', hclass', hdql', henum', -⟩ := markers_of_asLiteral hb
  constructor
  · rw [equivalentForDedup_iff]
    refine .inr (.inr ⟨⟨⟨hunsealed, hunsealed'⟩, ?_, ⟨hdql, hdql'⟩, ⟨henum, henum'⟩⟩, ?_⟩)
    · rw [hclass, hclass']
    · rw [hkind, hkind']
      exact heq
  · unfold dedupHash
    rw [hashForDedup_eq, hashForDedup_eq b]
    simp only [hashBody, hkind, hkind', henum, henum', hashNode, hashLiteral_of_literalsEqual heq]
    rfl

section

variable [DedupHasher]

omit [DedupHasher] in
theorem any_asTemplateParam_literal (a : PhpType) {b : PhpType} {w : LiteralValue}
    (hb : b.kind = .literal w) :
    (a.asTemplateParam.any fun (name, _) => decide (b = .named name)) = false := by
  rw [Option.any_eq_false]
  intro p _
  obtain ⟨name, bound⟩ := p
  have : b ≠ .named name := by
    intro hnamed
    rw [hnamed] at hb
    exact absurd hb (by simp [kind])
  simpa using this

/-- Of two literals the one is a subtype of the other only if they are
equal. -/
theorem isSubtypeOf_literal {a b : PhpType} {v w : LiteralValue} (ha : a.asLiteral = some v)
    (hb : b.asLiteral = some w) (hab : isSubtypeOf a b = true) : literalsEqual v w = true := by
  obtain ⟨hkind, -, -, -, -, -⟩ := markers_of_asLiteral ha
  obtain ⟨hkind', -, -, -, henum, -⟩ := markers_of_asLiteral hb
  by_cases heq : a = b
  · subst heq
    obtain rfl : v = w := Option.some.inj (ha.symm.trans hb)
    simp
  · have htemplate := any_asTemplateParam_literal a hkind'
    have hnever : a.isNever = false := isNamedWhere_of_kind_literal hkind
    have hmixed : b.isMixed = false := isNamedWhere_of_kind_literal hkind'
    have hkey : a.isArrayKey = false := namedThroughNullable_of_kind_literal hkind
    rw [isSubtypeOf_eq] at hab
    simpa [subtypeBody, subtypeByNormalising, subtypeOfComposite, subtypeOfScalar,
      literalIsSubtypeOf, heq, htemplate, hnever, hmixed, hkey, hkind, hkind', henum] using hab

/-- Of two literals the one is a part of the other only if they are equal. -/
theorem isRuntimeValueSubtypeBy_literal {ruleOut : List ShapeEntry → List ShapeEntry → Bool}
    {a b : PhpType} {v w : LiteralValue} (ha : a.asLiteral = some v) (hb : b.asLiteral = some w)
    (hab : isRuntimeValueSubtypeBy ruleOut a b = true) : literalsEqual v w = true := by
  obtain ⟨hkind, -, -, -, -, -⟩ := markers_of_asLiteral ha
  obtain ⟨hkind', hunsealed, -, -, -, hmarker⟩ := markers_of_asLiteral hb
  have hempty : a.isEmptyArrayShape = false := by simp [isEmptyArrayShape, hkind]
  have hparts : genericArrayParts a = none := by simp [genericArrayParts, hkind]
  rw [isRuntimeValueSubtypeBy_eq] at hab
  simp only [runtimeValueSubtypeBody, hunsealed, hmarker, hempty, hkind, hkind', hparts,
    scalarDomainContainedIn, isRuntimeScalarValueDomain] at hab
  refine isSubtypeOf_literal ha hb ?_
  simp only [Option.isSome_none, Bool.or_false, Bool.false_eq_true, if_false, Bool.false_and,
    Bool.not_true] at hab
  split at hab
  · exact absurd hab (by simp)
  · exact hab

end

/-- No two literals of a list are equal. -/
def LiteralsDistinct (types : List PhpType) : Prop :=
  (types.filterMap asLiteral).Pairwise fun v w => literalsEqual v w = false

theorem LiteralsDistinct.sublist {types types' : List PhpType} (h : LiteralsDistinct types)
    (hsub : (types'.filterMap asLiteral).Sublist (types.filterMap asLiteral)) :
    LiteralsDistinct types' :=
  List.Pairwise.sublist hsub h

theorem LiteralsDistinct.not_literalsEqual {types : List PhpType} (h : LiteralsDistinct types)
    {i j : Nat} {a b : PhpType} {v w : LiteralValue} (hi : types[i]? = some a)
    (hj : types[j]? = some b) (hij : i ≠ j) (ha : a.asLiteral = some v)
    (hb : b.asLiteral = some w) : literalsEqual v w = false := by
  have hordered : ∀ {i j : Nat} {a b : PhpType} {v w : LiteralValue}, i < j →
      types[i]? = some a → types[j]? = some b → a.asLiteral = some v → b.asLiteral = some w →
      literalsEqual v w = false := by
    intro i j a b v w hlt hi hj ha hb
    unfold LiteralsDistinct at h
    rw [List.pairwise_filterMap, List.pairwise_iff_getElem] at h
    obtain ⟨hilt, rfl⟩ := List.getElem?_eq_some_iff.mp hi
    obtain ⟨hjlt, rfl⟩ := List.getElem?_eq_some_iff.mp hj
    exact h i j hilt hjlt hlt v ha w hb
  by_cases hlt : i < j
  · exact hordered hlt hi hj ha hb
  · by_contra heq
    have hswap := hordered (by omega) hj hi hb ha
    rw [literalsEqual_symm (by simpa using heq)] at hswap
    exact absurd hswap (by simp)

theorem filterMap_push_sublist {types kept : List PhpType} {extra : PhpType}
    (hextra : extra.asLiteral = none) (hkept : kept.Sublist types) :
    ((kept ++ [extra]).filterMap asLiteral).Sublist (types.filterMap asLiteral) := by
  simpa [hextra] using hkept.filterMap asLiteral

theorem literals_simplifyBoolUnion (types : List PhpType) :
    ((simplifyBoolUnion types).filterMap asLiteral).Sublist (types.filterMap asLiteral) := by
  unfold simplifyBoolUnion
  dsimp only
  split
  · exact filterMap_push_sublist rfl List.filter_sublist
  · exact List.Sublist.refl _

theorem literals_simplifyEmptyStringUnion (types : List PhpType) :
    ((simplifyEmptyStringUnion types).filterMap asLiteral).Sublist
      (types.filterMap asLiteral) := by
  unfold simplifyEmptyStringUnion
  dsimp only
  split
  · exact filterMap_push_sublist rfl List.filter_sublist
  · exact List.Sublist.refl _

section

variable [DedupHasher]

theorem asLiteral_generalArray (join : List PhpType → PhpType)
    (shapes : List (PhpType × List ShapeEntry)) : (generalArray join shapes).asLiteral = none := by
  unfold generalArray
  dsimp only
  split <;> rfl

theorem literals_generalizeOversizedShapes (join : List PhpType → PhpType)
    (types : List PhpType) :
    ((generalizeOversizedShapes join types).filterMap asLiteral).Sublist
      (types.filterMap asLiteral) := by
  unfold generalizeOversizedShapes
  dsimp only
  split
  · exact List.Sublist.refl _
  · simp only [List.filterMap_append, List.filterMap_cons, asLiteral_generalArray]
    rw [← List.filterMap_append]
    refine List.Sublist.filterMap asLiteral ?_
    refine List.Sublist.trans (List.Sublist.append_left List.filter_sublist _) ?_
    conv_rhs => rw [← List.take_append_drop
      (types.findIdx fun ty => (sealedEntries ty).isSome) types]
    refine List.Sublist.append_left ?_ _
    exact List.drop_sublist_drop_left types (Nat.le_succ _)

/-- The join compares no two literals it could tell apart by nothing else. -/
theorem literalsDistinct_settleAlternatives (join : List PhpType → PhpType)
    (flattened : List PhpType) : LiteralsDistinct (settleAlternatives join flattened) := by
  have hdedup : LiteralsDistinct (dedupTypes (flattened.filter fun member => !member.isNever)) := by
    unfold LiteralsDistinct dedupTypes
    rw [List.pairwise_filterMap]
    refine (bucketRetain_pairwise dedupHash equivalentForDedup [] _).1.imp ?_
    intro a b hab v hv w hw
    by_contra heq
    rw [Bool.not_eq_false] at heq
    obtain ⟨hequiv, hhash⟩ := merged_of_literalsEqual hv hw heq
    rw [hab hhash] at hequiv
    exact absurd hequiv (by simp)
  unfold settleAlternatives
  exact hdedup.sublist ((literals_generalizeOversizedShapes join _).trans
    ((literals_simplifyEmptyStringUnion _).trans (literals_simplifyBoolUnion _)))

/-! ## The join -/

theorem retainUndominated_join_eq {types : List PhpType} (h : LiteralsDistinct types) :
    retainUndominated (joinShortcuts.candidates types) (joinSubsumed joinShortcuts) types =
      retainUndominated (noShortcuts.candidates types) (joinSubsumed noShortcuts) types := by
  have hsubsumed : joinSubsumed joinShortcuts = joinSubsumed noShortcuts := by
    unfold joinSubsumed joinShortcuts noShortcuts
    rw [isRuntimeValueSubtypeBy_noRuleOut]
  rw [hsubsumed]
  refine retainUndominated_congr (fun _ _ _ _ _ _ => rfl) ?_
  intro i x j y hi hj hdominated
  simp only [joinSubsumed, noShortcuts, Bool.and_eq_true, decide_eq_true_eq] at hdominated
  have hlt : j < types.length := (List.getElem?_eq_some_iff.mp hj).1
  refine iff_of_true ?_ (List.mem_range.mpr hlt)
  show j ∈ joinCandidates types i x
  unfold joinCandidates
  dsimp only
  split
  · rename_i hliteral
    refine List.mem_filter.mpr ⟨List.mem_range.mpr hlt, ?_⟩
    rw [hj, Option.any_some, Option.isNone_iff_eq_none]
    obtain ⟨v, hv⟩ := Option.isSome_iff_exists.mp hliteral
    by_contra hother
    obtain ⟨w, hw⟩ := Option.ne_none_iff_exists'.mp hother
    have heq := isRuntimeValueSubtypeBy_literal hv hw hdominated.1.2
    rw [h.not_literalsEqual hi hj hdominated.1.1 hv hw] at heq
    exact absurd heq (by simp)
  · exact mem_candidates keepsKeys_isRuntimeValueSubtypeBy hj hdominated.1.2

/-- The join with its shortcuts is the join that compares every pair. -/
theorem joinRuntimeValueTypes_eq_noShortcuts (members : List PhpType) :
    joinRuntimeValueTypes members = joinRuntimeValueTypesBy noShortcuts members := by
  unfold joinRuntimeValueTypes
  induction members using measure_induction weightList with
  | step members ih =>
      have hbody : joinRuntimeValueTypesBody joinShortcuts (joinRuntimeValueTypesBy joinShortcuts)
          members =
          joinRuntimeValueTypesBody joinShortcuts (joinRuntimeValueTypesBy noShortcuts) members :=
        joinRuntimeValueTypesBody_decreases joinShortcuts _ _ members ih
      have habsorb : joinShortcuts.absorbShapes = noShortcuts.absorbShapes :=
        funext absorbSubsumedShapes_eq_plain
      rw [joinRuntimeValueTypesBy_eq, joinRuntimeValueTypesBy_eq, hbody]
      unfold joinRuntimeValueTypesBody
      dsimp only
      split
      · rfl
      · rw [retainUndominated_join_eq (literalsDistinct_settleAlternatives _ _), habsorb]

/-- Neither pass answers differently for the comparisons it skips. -/
theorem join_shortcuts_exact (types : List PhpType) :
    joinRuntimeValueTypes types = joinRuntimeValueTypesBy noShortcuts types ∧
      absorbSubsumedShapes types = absorbSubsumedShapesPlain types :=
  ⟨joinRuntimeValueTypes_eq_noShortcuts types, absorbSubsumedShapes_eq_plain types⟩

end

end PhpantomLsp
