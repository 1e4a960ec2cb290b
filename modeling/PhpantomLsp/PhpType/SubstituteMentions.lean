import PhpantomLsp.PhpType.Mentions

/-!
# Substitution leaves no bound name behind

What joins, readers of arrays and type operators make of types mentions nothing they
do not, and so what a substitution makes of a type mentions only what its values
mention and the names it does not bind.
-/

namespace PhpantomLsp.PhpType

open Text Lib

section

variable {p : Atom → Bool}

/-! ## Joins -/

theorem allAvoid_flatten (hp : Unreserved p) {t : PhpType} (h : Avoids p p t) :
    AllAvoid p (flatten t) := by
  refine guardedFix_invariant (P := fun t us => Avoids p p t → AllAvoid p us)
    (fun _ _ => by simp [AllAvoid]) ?_ t h
  intro recur t hrec h
  have hkind := h.kind
  unfold flattenBody
  split
  · rename_i members heq
    rw [heq, avoids_union] at hkind
    exact AllAvoid.flatMap fun m hm => hrec m (hkind m hm)
  · rename_i inner heq
    rw [heq] at hkind
    refine (hrec inner hkind).append ?_
    simpa [AllAvoid] using avoids_null hp
  · simpa [AllAvoid] using h

theorem allAvoid_simplifyBoolUnion (hp : Unreserved p) {ts : List PhpType} (h : AllAvoid p ts) :
    AllAvoid p (simplifyBoolUnion ts) := by
  unfold simplifyBoolUnion
  dsimp only
  split
  · refine (h.sublist List.filter_sublist).append ?_
    simpa [AllAvoid] using avoids_bool hp
  · exact h

theorem allAvoid_simplifyEmptyStringUnion (hp : Unreserved p) {ts : List PhpType}
    (h : AllAvoid p ts) : AllAvoid p (simplifyEmptyStringUnion ts) := by
  unfold simplifyEmptyStringUnion
  dsimp only
  split
  · refine (h.sublist List.filter_sublist).append ?_
    simpa [AllAvoid] using avoids_string hp
  · exact h

theorem allAvoid_unionMembers {t : PhpType} (h : Avoids p p t) : AllAvoid p t.unionMembers := by
  have hkind := h.kind
  unfold unionMembers
  split
  · rename_i members heq
    rw [heq] at hkind
    exact avoids_union.mp hkind
  · simpa [AllAvoid] using h

/-- The class of a key of an entry that avoids the names. -/
theorem avoids_className {key className : String} (h : mentionsKey p (some key) = false)
    (hclass : classNameKey key = some className) : p className = false := by
  simpa [mentionsKey, hclass] using h

theorem avoidsEntry_sealedShapes {ts : List PhpType} (h : AllAvoid p ts) {e : ShapeEntry}
    (he : e ∈ (sealedShapes ts).flatMap (·.2)) : AvoidsEntry p p e := by
  obtain ⟨⟨ty, entries⟩, hpair, he⟩ := List.mem_flatMap.mp he
  obtain ⟨ty', hty, heq⟩ := List.mem_filterMap.mp hpair
  obtain ⟨entries', hentries, heq⟩ := Option.map_eq_some_iff.mp heq
  obtain ⟨rfl, rfl⟩ := Prod.mk.inj heq
  have hkind := (h ty' hty).kind
  rw [kind_of_sealedEntries hentries, avoids_arrayShape] at hkind
  exact hkind e he

variable [DedupHasher]

theorem avoids_widenScalarNode (hp : Unreserved p) {widen : PhpType → PhpType} {t : PhpType}
    (hwiden : ∀ u, Avoids p p u → Avoids p p (widen u)) (h : Avoids p p t) :
    Avoids p p (widenScalarNode widen t) := by
  have hkind := h.kind
  unfold widenScalarNode
  split
  · exact avoids_int hp
  · exact avoids_float hp
  · exact avoids_string hp
  · rename_i members heq
    rw [heq, avoids_union] at hkind
    have hwidened : AllAvoid p (widenedMembers widen members) := by
      refine AllAvoid.sublist (AllAvoid.flatMap fun m hm => ?_) (firstOccurrences_sublist _ _)
      exact allAvoid_unionMembers (hwiden m (hkind m hm))
    split
    · rename_i heq
      rw [heq] at hwidened
      exact hwidened _ (by simp)
    · exact avoids_mkUnion hp hwidened
  · rename_i inner heq
    rw [heq] at hkind
    exact avoids_nullable.mpr (hwiden inner hkind)
  · exact h

theorem avoids_widenScalarLiterals (hp : Unreserved p) {t : PhpType} (h : Avoids p p t) :
    Avoids p p (widenScalarLiterals t) := by
  refine guardedFix_invariant (P := fun t u => Avoids p p t → Avoids p p u)
    (fun _ _ => avoids_never hp) ?_ t h
  intro widen t hwiden h
  rw [widenScalarLiteralsBody.eq_def]
  split
  · exact avoids_mkBenevolent (hwiden _ h)
  · have hparts := avoids_templateParam.mp h
    exact avoids_mkTemplateParam hparts.1 (hwiden _ hparts.2)
  · exact avoids_widenScalarNode hp hwiden h

omit [DedupHasher] in
theorem avoids_shapeKeyType (hp : Unreserved p) {key : String}
    (h : mentionsKey p (some key) = false) : Avoids p p (shapeKeyType key) := by
  unfold shapeKeyType
  split
  · exact rfl
  · split
    · rename_i className hclass
      simpa using avoids_className h hclass
    · split
      · exact avoids_arrayKey hp
      · exact rfl

theorem avoids_generalKey (hp : Unreserved p) {e : ShapeEntry} (h : AvoidsEntry p p e) :
    Avoids p p (generalKey e) := by
  have hkey := h.1
  unfold generalKey
  split
  · rename_i key heq
    rw [heq] at hkey
    exact avoids_widenScalarLiterals hp (avoids_shapeKeyType hp hkey)
  · exact avoids_int hp

theorem avoids_generalArray (hp : Unreserved p) {join : List PhpType → PhpType}
    (hjoin : ∀ ts, AllAvoid p ts → Avoids p p (join ts))
    {shapes : List (PhpType × List ShapeEntry)}
    (h : ∀ e ∈ shapes.flatMap (·.2), AvoidsEntry p p e) :
    Avoids p p (generalArray join shapes) := by
  have hvalue : Avoids p p (join ((shapes.flatMap (·.2)).map fun entry =>
      widenScalarLiterals entry.valueType)) :=
    hjoin _ (AllAvoid.map fun e he => avoids_widenScalarLiterals hp (h e he).2)
  have hkey : Avoids p p (join ((shapes.flatMap (·.2)).map generalKey)) :=
    hjoin _ (AllAvoid.map fun e he => avoids_generalKey hp (h e he))
  unfold generalArray
  dsimp only
  split
  · refine avoids_generic.mpr ⟨?_, by simpa using hvalue⟩
    split <;> exact hp.builtin (by decide +kernel)
  · refine avoids_generic.mpr ⟨?_, by simpa using ⟨hkey, hvalue⟩⟩
    split <;> exact hp.builtin (by decide +kernel)

theorem allAvoid_generalizeOversizedShapes (hp : Unreserved p) {join : List PhpType → PhpType}
    (hjoin : ∀ ts, AllAvoid p ts → Avoids p p (join ts)) {ts : List PhpType}
    (h : AllAvoid p ts) : AllAvoid p (generalizeOversizedShapes join ts) := by
  unfold generalizeOversizedShapes
  dsimp only
  split
  · exact h
  · refine (h.sublist (List.take_sublist _ _)).append ?_
    intro t ht
    obtain rfl | ht := List.mem_cons.mp ht
    · exact avoids_generalArray hp hjoin fun e he => avoidsEntry_sealedShapes h he
    · exact h t ((List.filter_sublist.trans (List.drop_sublist _ _)).subset ht)

theorem avoids_joinRuntimeValueTypes (hp : Unreserved p) {ts : List PhpType} (h : AllAvoid p ts) :
    Avoids p p (joinRuntimeValueTypes ts) := by
  refine guardedFix_invariant (P := fun ts u => AllAvoid p ts → Avoids p p u)
    (fun _ _ => avoids_never hp) ?_ ts h
  intro join ts hjoin h
  have hflat : AllAvoid p (ts.flatMap flatten) :=
    AllAvoid.flatMap fun t ht => allAvoid_flatten hp (h t ht)
  have hsettled : AllAvoid p (settleAlternatives join (ts.flatMap flatten)) :=
    allAvoid_generalizeOversizedShapes hp hjoin <|
      allAvoid_simplifyEmptyStringUnion hp <| allAvoid_simplifyBoolUnion hp <|
        (hflat.sublist List.filter_sublist).sublist (dedupTypes_sublist _)
  unfold joinRuntimeValueTypesBody
  dsimp only
  split
  · exact avoids_mixed hp
  · split
    · exact avoids_never hp
    · exact avoids_mkUnionBy hp absorbSubsumedShapes_sublist
        (hsettled.sublist (retainUndominated_sublist _ _ _))

/-! ## Readers of arrays -/

omit [DedupHasher] in
theorem avoids_oneOrJoined {join : List PhpType → PhpType} {ts : List PhpType}
    (hjoin : AllAvoid p ts → Avoids p p (join ts)) (h : AllAvoid p ts) :
    ∀ t ∈ oneOrJoined join ts, Avoids p p t := by
  intro t ht
  unfold oneOrJoined at ht
  split at ht
  · cases ht
  · obtain rfl := Option.some.inj ht
    exact h _ (by simp)
  · obtain rfl := Option.some.inj ht
    exact hjoin h

omit [DedupHasher] in
theorem mem_distinctValues {entries : List ShapeEntry} {t : PhpType}
    (h : t ∈ distinctValues entries) : ∃ e ∈ entries, e.valueType = t := by
  have hfold : ∀ (entries : List ShapeEntry) (seen : List PhpType),
      t ∈ entries.foldl (fun values entry =>
        if entry.valueType ∈ values then values else values ++ [entry.valueType]) seen →
      t ∈ seen ∨ ∃ e ∈ entries, e.valueType = t := by
    intro entries
    induction entries with
    | nil => exact fun seen h => Or.inl h
    | cons e es ih =>
        intro seen h
        obtain h | ⟨e', he', heq⟩ := ih _ h
        · dsimp only at h
          split at h
          · exact Or.inl h
          · obtain h | h := List.mem_append.mp h
            · exact Or.inl h
            · exact Or.inr ⟨e, by simp, (List.mem_singleton.mp h).symm⟩
        · exact Or.inr ⟨e', List.mem_cons_of_mem _ he', heq⟩
  obtain h | h := hfold entries [] h
  · cases h
  · exact h

theorem avoids_distinctValues (hp : Unreserved p) {entries : List ShapeEntry}
    (h : ∀ e ∈ entries, AvoidsEntry p p e) :
    ∀ t ∈ oneOrJoined mkUnion (distinctValues entries), Avoids p p t := by
  refine avoids_oneOrJoined (avoids_mkUnion hp) fun t ht => ?_
  obtain ⟨e, he, rfl⟩ := mem_distinctValues ht
  exact (h e he).2

omit [DedupHasher] in
theorem avoids_extractValueType {t : PhpType} (h : Avoids p p t) :
    ∀ u ∈ t.extractValueType, Avoids p p u := by
  refine guardedFix_invariant
    (P := fun t v => Avoids p p t → ∀ u ∈ v, Avoids p p u) (fun _ _ => by simp) ?_ t h
  intro extract t hextract h u hu
  have hkind := h.kind
  unfold extractValueTypeBody at hu
  split at hu
  · rename_i inner heq
    rw [heq] at hkind
    obtain rfl := Option.some.inj hu
    exact hkind
  · rename_i name args heq
    rw [heq, avoids_generic] at hkind
    split at hu
    · exact hkind.2 u (List.mem_of_getElem? hu)
    · exact hkind.2 u (List.mem_of_getLast? hu)
  · rename_i inner heq
    rw [heq] at hkind
    exact hextract inner hkind u hu
  · rename_i members heq
    rw [heq, avoids_union] at hkind
    obtain ⟨m, hm, hmu⟩ := List.exists_of_findSome?_eq_some hu
    exact hextract m (hkind m hm) u hmu
  · cases hu

theorem avoids_iterableElementType (hp : Unreserved p) {t : PhpType} (h : Avoids p p t) :
    ∀ u ∈ t.iterableElementType, Avoids p p u := by
  refine guardedFix_invariant
    (P := fun t v => Avoids p p t → ∀ u ∈ v, Avoids p p u) (fun _ _ => by simp) ?_ t h
  intro elementOf t helement h
  have hkind := h.kind
  unfold iterableElementTypeBody
  split
  · rename_i entries heq
    rw [heq, avoids_arrayShape] at hkind
    exact avoids_distinctValues hp hkind
  · rename_i entries heq
    rw [heq, avoids_objectShape] at hkind
    exact avoids_distinctValues hp hkind
  · rename_i inner heq
    rw [heq] at hkind
    exact helement inner hkind
  · rename_i members heq
    rw [heq, avoids_union] at hkind
    exact avoids_oneOrJoined (avoids_joinRuntimeValueTypes hp)
      (AllAvoid.filterMap fun m hm => helement m (hkind m hm))
  · exact avoids_extractValueType h

theorem avoids_iterableEntryKey (hp : Unreserved p) {e : ShapeEntry} (h : AvoidsEntry p p e) :
    Avoids p p (iterableEntryKey e) := by
  have hkey := h.1
  unfold iterableEntryKey
  split
  · exact avoids_int hp
  · rename_i key heq
    rw [heq] at hkey
    split
    · rename_i className hclass
      exact avoids_mkClassString hp (by simpa using avoids_className hkey hclass)
    · split_ifs
      · exact avoids_mkUnion hp (by simpa [AllAvoid] using ⟨avoids_int hp, avoids_string hp⟩)
      · exact avoids_int hp
      · exact avoids_string hp

theorem avoids_iterableKeyType (hp : Unreserved p) {t : PhpType} (h : Avoids p p t) :
    ∀ u ∈ t.iterableKeyType, Avoids p p u := by
  refine guardedFix_invariant
    (P := fun t v => Avoids p p t → ∀ u ∈ v, Avoids p p u) (fun _ _ => by simp) ?_ t h
  intro keyOf t hkeyOf h
  have hkind := h.kind
  have hint : ∀ u ∈ some PhpType.int, Avoids p p u := by simpa using avoids_int hp
  unfold iterableKeyTypeBody
  split
  · exact hint
  · rename_i entries heq
    rw [heq, avoids_arrayShape] at hkind
    exact avoids_oneOrJoined (avoids_joinRuntimeValueTypes hp)
      (AllAvoid.map fun e he => avoids_iterableEntryKey hp (hkind e he))
  · split
    · simp
    · simpa using avoids_string hp
  · rename_i name args heq
    rw [heq, avoids_generic] at hkind
    split
    · simpa using hkind.2 _ (by simp)
    · split_ifs
      · simp
      · exact hint
      · simp
    · simp
  · rename_i inner heq
    rw [heq] at hkind
    exact hkeyOf inner hkind
  · rename_i members heq
    rw [heq, avoids_union] at hkind
    exact avoids_oneOrJoined (avoids_joinRuntimeValueTypes hp)
      (AllAvoid.filterMap fun m hm => hkeyOf m (hkind m hm))
  · simp

theorem avoids_joinKnown (hp : Unreserved p) {known : Option PhpType} {rest : PhpType}
    (hknown : ∀ u ∈ known, Avoids p p u) (hrest : Avoids p p rest) :
    Avoids p p (joinKnown known rest) := by
  unfold joinKnown
  split
  · exact avoids_joinRuntimeValueTypes hp (by simpa [AllAvoid] using ⟨hknown _ rfl, hrest⟩)
  · exact hrest

omit [DedupHasher] in
theorem avoids_widenedArrayName (hp : Unreserved p) (isList nonEmpty : Bool) :
    p (widenedArrayName isList nonEmpty) = false := by
  unfold widenedArrayName
  split_ifs <;> exact hp.builtin (by decide +kernel)

theorem avoids_mkUnsealedShape (hp : Unreserved p) {shape key value : PhpType}
    (hshape : Avoids p p shape) (hkey : Avoids p p key) (hvalue : Avoids p p value) :
    Avoids p p (mkUnsealedShape shape key value) := by
  have hvalues := avoids_joinKnown hp (avoids_iterableElementType hp hshape) hvalue
  have hkeys := avoids_joinKnown hp (avoids_iterableKeyType hp hshape) hkey
  have hargs : ∀ u ∈ widenedArrayArgs shape key value, Avoids p p u := by
    unfold widenedArrayArgs
    dsimp only
    split_ifs
    · simpa using hvalues
    · simpa using ⟨hkeys, hvalues⟩
  unfold mkUnsealedShape
  dsimp only
  split
  · exact avoids_generic.mpr ⟨avoids_widenedArrayName hp _ _, hargs⟩
  · refine avoids_unsealedShape.mpr
      ⟨⟨⟨⟨hshape, ?_⟩, hvalue⟩, avoids_widenedArrayName hp _ _⟩, hargs⟩
    split
    · exact avoids_int hp
    · exact hkey

/-! ## Type operators -/

omit [DedupHasher] in
theorem avoids_entryKeyLiteral (hp : Unreserved p) {e : ShapeEntry} (h : AvoidsEntry p p e)
    (position : Nat) : Avoids p p (entryKeyLiteral e position) := by
  have hkey := h.1
  unfold entryKeyLiteral
  split
  · exact rfl
  · rename_i key heq
    rw [heq] at hkey
    unfold shapeKeyLiteral
    split
    · exact rfl
    · split
      · rename_i className hclass
        exact avoids_className hkey hclass
      · split
        · exact avoids_arrayKey hp
        · exact rfl

theorem avoids_unionOrNever (hp : Unreserved p) {ts : List PhpType} (h : AllAvoid p ts) :
    Avoids p p (unionOrNever ts) := by
  unfold unionOrNever
  split
  · exact avoids_never hp
  · exact avoids_mkUnion hp (h.sublist (dedupTypes_sublist ts))

theorem avoids_evaluateKeyOf (hp : Unreserved p) {t : PhpType} (h : Avoids p p t) :
    Avoids p p (evaluateKeyOf t) := by
  refine guardedFix_invariant (P := fun t u => Avoids p p t → Avoids p p u)
    (fun _ _ => avoids_never hp) ?_ t h
  intro evaluate t hevaluate h
  have hkind := h.kind
  unfold evaluateKeyOfBody
  split
  · rename_i entries heq
    rw [heq, avoids_arrayShape] at hkind
    refine avoids_unionOrNever hp (AllAvoid.map fun pair hpair => ?_)
    exact avoids_entryKeyLiteral hp (hkind _ (List.fst_mem_of_mem_zipIdx hpair)) _
  · rename_i members heq
    rw [heq, avoids_union] at hkind
    dsimp only
    split
    · exact h
    · exact avoids_mkUnion hp ((AllAvoid.map fun m hm => hevaluate m (hkind m hm)).sublist
        (dedupTypes_sublist _))
  · rename_i name args heq
    rw [heq, avoids_generic] at hkind
    dsimp only
    split
    · split
      · exact hkind.2 _ (by simp)
      · exact avoids_arrayKey hp
      · exact h
    · split
      · exact avoids_int hp
      · exact h
  · exact avoids_arrayKey hp
  · exact h

omit [DedupHasher] in
theorem avoids_genericArrayValue {name : Atom} {args : List PhpType}
    (h : ∀ t ∈ args, Avoids p p t) : ∀ t ∈ genericArrayValue name args, Avoids p p t := by
  intro t ht
  unfold genericArrayValue at ht
  dsimp only at ht
  split at ht
  · split_ifs at ht
    · exact Option.some.inj ht ▸ h _ (by simp)
    · cases ht
  · split_ifs at ht
    · exact Option.some.inj ht ▸ h _ (by simp)
    · cases ht
  · cases ht

omit [DedupHasher] in
theorem avoids_getD {known : Option PhpType} {rest : PhpType} (hknown : ∀ t ∈ known, Avoids p p t)
    (hrest : Avoids p p rest) : Avoids p p (known.getD rest) := by
  cases known with
  | none => exact hrest
  | some t => exact hknown t rfl

theorem avoids_evaluateValueOf (hp : Unreserved p) {t : PhpType} (h : Avoids p p t) :
    Avoids p p (evaluateValueOf t) := by
  have hkind := h.kind
  unfold evaluateValueOf
  split
  · rename_i entries heq
    rw [heq, avoids_arrayShape] at hkind
    exact avoids_unionOrNever hp (AllAvoid.map fun e he => (hkind e he).2)
  · rename_i name args heq
    rw [heq, avoids_generic] at hkind
    exact avoids_getD (avoids_genericArrayValue hkind.2) h
  · rename_i inner heq
    rw [heq] at hkind
    exact hkind
  · exact h

theorem avoids_unionKeyValue (hp : Unreserved p) {entries : List ShapeEntry} {index : PhpType}
    (h : ∀ e ∈ entries, AvoidsEntry p p e) :
    ∀ t ∈ unionKeyValue entries index, Avoids p p t := by
  intro t ht
  unfold unionKeyValue at ht
  split at ht
  · rename_i members heq
    have hvalues : AllAvoid p (unionKeyValues entries members) := by
      refine AllAvoid.sublist (AllAvoid.flatMap fun m _ => ?_) (firstOccurrences_sublist _ _)
      cases literalOrNamedShapeKey m with
      | none => simp [AllAvoid]
      | some key =>
          exact AllAvoid.map fun e he => (h e (List.mem_of_mem_filter he)).2
    split at ht
    · cases ht
    · rename_i heq'
      exact Option.some.inj ht ▸ avoids_mkUnion hp hvalues
  · cases ht

theorem avoids_evaluateIndexAccess (hp : Unreserved p) {t index : PhpType} (h : Avoids p p t)
    (hindex : Avoids p p index) : Avoids p p (evaluateIndexAccess t index) := by
  have hkind := h.kind
  have hleft : Avoids p p (.indexAccess t index) := avoids_indexAccess.mpr ⟨h, hindex⟩
  unfold evaluateIndexAccess
  split
  · rename_i entries heq
    rw [heq, avoids_arrayShape] at hkind
    refine avoids_getD (fun u hu => ?_) hleft
    simp only [Option.mem_def, Option.or_eq_some_iff] at hu
    obtain hu | ⟨-, hu | ⟨-, hu⟩⟩ := hu
    · obtain ⟨key, -, hu⟩ := Option.bind_eq_some_iff.mp hu
      obtain ⟨e, he, rfl⟩ := Option.map_eq_some_iff.mp hu
      exact (hkind e (List.mem_of_find?_eq_some he)).2
    · unfold intOffsetValue at hu
      split at hu
      · obtain ⟨pair, hpair, rfl⟩ := Option.map_eq_some_iff.mp hu
        exact (hkind _ (List.fst_mem_of_mem_zipIdx (List.mem_of_find?_eq_some hpair))).2
      · cases hu
    · exact avoids_unionKeyValue hp hkind u hu
  · rename_i name args heq
    rw [heq, avoids_generic] at hkind
    exact avoids_getD (avoids_genericArrayValue hkind.2) hleft
  · exact hleft

/-! ## Substitution -/

omit [DedupHasher] in
theorem avoids_renullable {t : PhpType} (h : Avoids p p t) : Avoids p p (renullable t) := by
  unfold renullable
  split
  · exact h
  · split <;> exact h
  · exact h

omit [DedupHasher] in
theorem allAvoid_retainByValueContainment [DedupHasher] {keepWider : Bool} {ts : List PhpType}
    (h : AllAvoid p ts) : AllAvoid p (retainByValueContainment keepWider ts) :=
  h.sublist (retainUndominated_sublist _ _ _)

theorem avoids_reunion (hp : Unreserved p) {original ts : List PhpType} (h : AllAvoid p ts) :
    Avoids p p (reunion original ts) := by
  have hflat : AllAvoid p (flatUnion ts) := by
    refine AllAvoid.flatMap fun t ht => ?_
    have hkind := (h t ht).kind
    split
    · rename_i inner heq
      rw [heq, avoids_union] at hkind
      exact hkind
    · simpa [AllAvoid] using h t ht
  unfold reunion
  dsimp only
  split
  · exact avoids_mkUnion hp hflat
  · exact avoids_mkUnion hp (allAvoid_retainByValueContainment hflat)

theorem avoids_reintersection {original ts : List PhpType} (h : AllAvoid p ts) :
    Avoids p p (reintersection original ts) := by
  have hflat : AllAvoid p (flatIntersection ts) := by
    refine AllAvoid.flatMap fun t ht => ?_
    have hkind := (h t ht).kind
    split
    · rename_i inner heq
      rw [heq, avoids_intersection] at hkind
      exact hkind
    · simpa [AllAvoid] using h t ht
  have hkept : AllAvoid p (if ts = original then flatIntersection ts
      else absorbIntersectionSupertypes (flatIntersection ts)) := by
    split
    · exact hflat
    · exact allAvoid_retainByValueContainment hflat
  unfold reintersection
  dsimp only
  split
  · rename_i member heq
    rw [heq] at hkept
    exact hkept member (by simp)
  · exact avoids_intersection.mpr hkept

omit [DedupHasher] in
theorem avoids_regeneric {replacement : Option PhpType} {name : Atom} {args : List PhpType}
    (hreplacement : ∀ t ∈ replacement, Avoids p p t)
    (hname : replacement = none → p name = false) (hargs : AllAvoid p args) :
    Avoids p p (regeneric replacement name args) := by
  unfold regeneric
  split
  · exact avoids_generic.mpr ⟨hname rfl, hargs⟩
  · rename_i t
    have hkind := (hreplacement t rfl).kind
    split
    · rename_i n heq
      rw [heq] at hkind
      exact avoids_generic.mpr ⟨hkind, hargs⟩
    · rename_i base baseArgs heq
      rw [heq] at hkind
      exact avoids_generic.mpr ⟨(avoids_generic.mp hkind).1, hargs⟩
    · exact hreplacement t rfl

omit [DedupHasher] in
theorem avoids_reclassName {t : PhpType} (h : Avoids p p t) : Avoids p p (reclassName t) := by
  have hkind := h.kind
  unfold reclassName
  split
  · rename_i cls heq
    rw [heq, avoids_classString] at hkind
    have hcls := (hkind cls rfl).kind
    split
    · rename_i name heq
      rw [heq] at hcls
      exact hcls
    · exact h
  · exact h

omit [DedupHasher] in
theorem avoids_remarked {mark : Atom → PhpType} {t : PhpType}
    (hmark : ∀ name, p name = false → Avoids p p (mark name)) (h : Avoids p p t) :
    Avoids p p (remarked mark t) := by
  unfold remarked
  split
  · exact hmark _ h
  · exact h

/-- The names of `p` that a substitution leaves as they are. -/
def unbound (p : Atom → Bool) (subs : Substitution) (name : Atom) : Bool :=
  p name && !subs.containsKey name

omit [DedupHasher] in
/-- A name the substitution replaces, or leaves and which is not one of `p`. -/
theorem avoids_get {subs : Substitution} {name : Atom} {rest : PhpType}
    (hsubs : ∀ name t, subs.get name = some t → Avoids p p t)
    (hname : unbound p subs name = false) (hrest : p name = false → Avoids p p rest) :
    Avoids p p ((subs.get name).getD rest) := by
  unfold unbound Substitution.containsKey at hname
  cases hget : subs.get name with
  | some t => exact hsubs name t hget
  | none =>
      rw [hget] at hname
      exact hrest (by simpa using hname)

section

variable (hp : Unreserved p) {subs : Substitution}
  (hsubs : ∀ name t, subs.get name = some t → Avoids p p t)

include hp hsubs

set_option linter.unusedSectionVars false in
mutual

theorem avoids_substituteNode (t : PhpType) (h : Avoids (unbound p subs) p t) :
    Avoids p p (substituteNode subs t) := by
  cases t with
  | named name => exact avoids_get hsubs h id
  | raw text => exact avoids_get hsubs h id
  | templateParam name bound =>
      obtain ⟨hname, hbound⟩ := avoids_templateParam.mp h
      exact avoids_get hsubs hname fun hp' =>
        avoids_mkTemplateParam hp' (avoids_substituteNode bound hbound)
  | nullable inner => exact avoids_renullable (avoids_substituteNode inner h)
  | union members =>
      exact avoids_reunion hp (allAvoid_substituteList members (avoids_union.mp h))
  | intersection members =>
      exact avoids_reintersection (allAvoid_substituteList members (avoids_intersection.mp h))
  | generic name args =>
      obtain ⟨hname, hargs⟩ := avoids_generic.mp h
      refine avoids_regeneric (fun t ht => hsubs name t ht) (fun hnone => ?_)
        (allAvoid_substituteList args hargs)
      simpa [unbound, Substitution.containsKey, hnone] using hname
  | keyOf inner => exact avoids_evaluateKeyOf hp (avoids_substituteNode inner h)
  | valueOf inner => exact avoids_evaluateValueOf hp (avoids_substituteNode inner h)
  | indexAccess target index =>
      obtain ⟨htarget, hindex⟩ := avoids_indexAccess.mp h
      exact avoids_evaluateIndexAccess hp (avoids_substituteNode target htarget)
        (avoids_substituteNode index hindex)
  | benevolent inner => exact avoids_mkBenevolent (avoids_substituteNode inner h)
  | classNameLiteral className =>
      exact avoids_reclassName (avoids_mkClassString hp (by simpa using avoids_get hsubs h id))
  | enumCase enumName caseName =>
      exact avoids_remarked (fun _ hname => hname) (avoids_get hsubs h id)
  | dqlBuilder className state =>
      exact avoids_remarked (fun _ hname => hname) (avoids_get hsubs h id)
  | listShape entries =>
      exact avoids_listShape.mpr (avoids_substituteEntries entries (avoids_listShape.mp h))
  | unsealedShape shape key value name args =>
      obtain ⟨⟨⟨⟨hshape, hkey⟩, hvalue⟩, -⟩, -⟩ := avoids_unsealedShape.mp h
      exact avoids_mkUnsealedShape hp (avoids_substituteNode shape hshape)
        (avoids_substituteNode key hkey) (avoids_substituteNode value hvalue)
  | array elem => exact avoids_substituteNode elem h
  | arrayShape entries =>
      exact avoids_arrayShape.mpr (avoids_substituteEntries entries (avoids_arrayShape.mp h))
  | objectShape entries =>
      exact avoids_objectShape.mpr (avoids_substituteEntries entries (avoids_objectShape.mp h))
  | callable kind params returnType =>
      obtain ⟨hparams, hreturn⟩ := avoids_callable.mp h
      exact avoids_callable.mpr
        ⟨avoids_substituteParams params hparams, avoids_substituteOption returnType hreturn⟩
  | conditional param negated c t e undecided =>
      obtain ⟨⟨hc, ht⟩, he⟩ := avoids_conditional.mp h
      exact avoids_conditional.mpr ⟨⟨avoids_substituteNode c hc, avoids_substituteNode t ht⟩,
        avoids_substituteNode e he⟩
  | classString inner =>
      exact avoids_mkClassString hp (avoids_substituteOption inner (avoids_classString.mp h))
  | interfaceString inner =>
      exact avoids_mkInterfaceString hp
        (avoids_substituteOption inner (avoids_interfaceString.mp h))
  | staticType bound => exact rfl
  | thisType bound => exact rfl
  | intRange min max => exact rfl
  | literal value => exact rfl
termination_by structural t

theorem allAvoid_substituteList (ts : List PhpType) (h : ∀ t ∈ ts, Avoids (unbound p subs) p t) :
    AllAvoid p (substituteList subs ts) := by
  cases ts with
  | nil => simp [substituteList, AllAvoid]
  | cons t ts =>
      intro u hu
      obtain rfl | hu := List.mem_cons.mp hu
      · exact avoids_substituteNode t (h t (by simp))
      · exact allAvoid_substituteList ts (fun v hv => h v (List.mem_cons_of_mem _ hv)) u hu
termination_by structural ts

theorem avoids_substituteOption (t : Option PhpType)
    (h : ∀ u ∈ t, Avoids (unbound p subs) p u) : ∀ u ∈ substituteOption subs t, Avoids p p u := by
  cases t with
  | none => simp [substituteOption]
  | some t => simpa [substituteOption] using avoids_substituteNode t (h t rfl)
termination_by structural t

theorem avoids_substituteEntries (entries : List ShapeEntry)
    (h : ∀ e ∈ entries, AvoidsEntry (unbound p subs) p e) :
    ∀ e ∈ substituteEntries subs entries, AvoidsEntry p p e := by
  cases entries with
  | nil => simp [substituteEntries]
  | cons e es =>
      cases e with
      | mk key valueType optional =>
          intro u hu
          obtain rfl | hu := List.mem_cons.mp hu
          · exact ⟨(h ⟨key, valueType, optional⟩ (by simp)).1,
              avoids_substituteNode valueType (h ⟨key, valueType, optional⟩ (by simp)).2⟩
          · exact avoids_substituteEntries es (fun v hv => h v (List.mem_cons_of_mem _ hv)) u hu
termination_by structural entries

theorem avoids_substituteParams (params : List CallableParam)
    (h : ∀ q ∈ params, Avoids (unbound p subs) p q.typeHint) :
    ∀ q ∈ substituteParams subs params, Avoids p p q.typeHint := by
  cases params with
  | nil => simp [substituteParams]
  | cons q qs =>
      cases q with
      | mk typeHint optional variadic =>
          intro u hu
          obtain rfl | hu := List.mem_cons.mp hu
          · exact avoids_substituteNode typeHint (h ⟨typeHint, optional, variadic⟩ (by simp))
          · exact avoids_substituteParams qs (fun v hv => h v (List.mem_cons_of_mem _ hv)) u hu
termination_by structural params

end

/-- A substitution whose values avoid the names leaves none of those it binds. -/
theorem avoids_substitute {t : PhpType} (h : Avoids (unbound p subs) p t) :
    Avoids p p (substitute subs t) := by
  unfold substitute
  split
  · rename_i hempty
    rw [List.isEmpty_iff] at hempty
    have hall : unbound p subs = p := by
      funext name
      simp [hempty, unbound, Substitution.containsKey, Substitution.get]
    rwa [hall] at h
  · exact avoids_substituteNode hp hsubs t h

end

end

/-! ## Names a substitution leaves standing -/

mutual

/-- Whether a type names one of `p` where substitution rebuilds the node it stands in
and nothing is dropped: outside unions, intersections, class-strings and type
operators, and not as an argument of a generic whose base is replaced. -/
def keeps (p bound : Atom → Bool) : PhpType → Bool
  | .named name => p name
  | .templateParam name _ => p name
  | .nullable inner => keeps p bound inner
  | .generic name args => p name || (!bound name && keepsList p bound args)
  | .array elem => keeps p bound elem
  | .arrayShape entries => keepsEntries p bound entries
  | .objectShape entries => keepsEntries p bound entries
  | .listShape entries => keepsEntries p bound entries
  | .callable _ params returnType => keepsParams p bound params || keepsOption p bound returnType
  | .conditional _ _ condition thenType elseType _ =>
      keeps p bound condition || keeps p bound thenType || keeps p bound elseType
  | .benevolent inner => keeps p bound inner
  | _ => false
termination_by structural t => t

def keepsList (p bound : Atom → Bool) : List PhpType → Bool
  | [] => false
  | t :: ts => keeps p bound t || keepsList p bound ts
termination_by structural ts => ts

def keepsOption (p bound : Atom → Bool) : Option PhpType → Bool
  | none => false
  | some t => keeps p bound t
termination_by structural t => t

def keepsEntries (p bound : Atom → Bool) : List (ShapeEntryOf PhpType) → Bool
  | [] => false
  | ⟨_, valueType, _⟩ :: rest => keeps p bound valueType || keepsEntries p bound rest
termination_by structural entries => entries

def keepsParams (p bound : Atom → Bool) : List (CallableParamOf PhpType) → Bool
  | [] => false
  | ⟨typeHint, _, _⟩ :: rest => keeps p bound typeHint || keepsParams p bound rest
termination_by structural params => params

end

section

variable {p : Atom → Bool}

theorem mentions_renullable {k : Atom → Bool} {t : PhpType} (h : mentions p k t = true) :
    mentions p k (renullable t) = true := by
  unfold renullable
  split
  · exact h
  · split <;> exact h
  · exact h

theorem mentions_mkBenevolent {k : Atom → Bool} {t : PhpType} (h : mentions p k t = true) :
    mentions p k (mkBenevolent t) = true := by
  unfold mkBenevolent
  split
  · exact h
  · split <;> exact h

theorem mentions_mkTemplateParam {k : Atom → Bool} {name : Atom} {bound : PhpType}
    (h : p name = true) : mentions p k (mkTemplateParam name bound) = true := by
  unfold mkTemplateParam
  split <;> simp [mentions, h]

section

variable [DedupHasher] {q : Atom → Bool} {subs : Substitution} (hq : ∀ name, q name = true →
  p name = true ∧ subs.containsKey name = false)

include hq

omit [DedupHasher] in
theorem get_eq_none_of_keeps {name : Atom} (h : q name = true) : subs.get name = none := by
  simpa [Substitution.containsKey] using (hq name h).2

set_option linter.unusedSectionVars false in
mutual

theorem mentions_substituteNode (t : PhpType) (h : keeps q subs.containsKey t = true) :
    mentions p p (substituteNode subs t) = true := by
  cases t <;> simp only [keeps, Bool.or_eq_true, Bool.and_eq_true, Bool.not_eq_true',
    Bool.false_eq_true] at h
  case named name => simp [substituteNode, get_eq_none_of_keeps hq h, mentions, (hq name h).1]
  case templateParam name bound =>
      simp only [substituteNode, get_eq_none_of_keeps hq h, Option.getD_none]
      exact mentions_mkTemplateParam (hq name h).1
  case nullable inner => exact mentions_renullable (mentions_substituteNode inner h)
  case generic name args =>
      obtain hname | ⟨hbound, hargs⟩ := h
      · simp [substituteNode, get_eq_none_of_keeps hq hname, regeneric, mentions, (hq name hname).1]
      · have hnone : subs.get name = none := by simpa [Substitution.containsKey] using hbound
        simp [substituteNode, hnone, regeneric, mentions, mentions_substituteList args hargs]
  case array elem => exact mentions_substituteNode elem h
  case arrayShape entries => exact mentions_substituteEntries entries h
  case objectShape entries => exact mentions_substituteEntries entries h
  case listShape entries => exact mentions_substituteEntries entries h
  case callable kind params returnType =>
      simp only [substituteNode, mentions, Bool.or_eq_true]
      exact h.imp (mentions_substituteParams params) (mentions_substituteOption returnType)
  case conditional param negated c t e undecided =>
      simp only [substituteNode, mentions, Bool.or_eq_true]
      exact h.imp (Or.imp (mentions_substituteNode c) (mentions_substituteNode t))
        (mentions_substituteNode e)
  case benevolent inner => exact mentions_mkBenevolent (mentions_substituteNode inner h)
termination_by structural t

theorem mentions_substituteList (ts : List PhpType)
    (h : keepsList q subs.containsKey ts = true) :
    mentionsList p p (substituteList subs ts) = true := by
  cases ts with
  | nil => exact h
  | cons t ts =>
      simp only [keepsList, Bool.or_eq_true] at h
      simp only [substituteList, mentionsList, Bool.or_eq_true]
      exact h.imp (mentions_substituteNode t) (mentions_substituteList ts)
termination_by structural ts

theorem mentions_substituteOption (t : Option PhpType)
    (h : keepsOption q subs.containsKey t = true) :
    mentionsOption p p (substituteOption subs t) = true := by
  cases t with
  | none => exact h
  | some t => exact mentions_substituteNode t h
termination_by structural t

theorem mentions_substituteEntries (entries : List ShapeEntry)
    (h : keepsEntries q subs.containsKey entries = true) :
    mentionsEntries p p (substituteEntries subs entries) = true := by
  cases entries with
  | nil => exact h
  | cons e es =>
      cases e with
      | mk key valueType optional =>
          simp only [keepsEntries, Bool.or_eq_true] at h
          simp only [substituteEntries, mentionsEntries, Bool.or_eq_true]
          exact h.imp (fun h => Or.inr (mentions_substituteNode valueType h))
            (mentions_substituteEntries es)
termination_by structural entries

theorem mentions_substituteParams (params : List CallableParam)
    (h : keepsParams q subs.containsKey params = true) :
    mentionsParams p p (substituteParams subs params) = true := by
  cases params with
  | nil => exact h
  | cons q' qs =>
      cases q' with
      | mk typeHint optional variadic =>
          simp only [keepsParams, Bool.or_eq_true] at h
          simp only [substituteParams, mentionsParams, Bool.or_eq_true]
          exact h.imp (mentions_substituteNode typeHint) (mentions_substituteParams qs)
termination_by structural params

end

/-- A name that is kept and not bound is mentioned in the end. -/
theorem mentions_substitute {t : PhpType} (h : keeps q subs.containsKey t = true)
    (hsubs : subs ≠ []) : mentions p p (substitute subs t) = true := by
  unfold substitute
  rw [if_neg (by simpa using hsubs)]
  exact mentions_substituteNode hq t h

end

end

end PhpantomLsp.PhpType
