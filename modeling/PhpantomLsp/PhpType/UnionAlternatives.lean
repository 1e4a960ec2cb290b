import PhpantomLsp.PhpType.ScalarSubtype

/-!
# What a type is taken apart into

The subtype check takes a type apart before it compares anything: a union into
its members, `?T` into `T|null`, and `array-key` into `int|string`.  What a type
is taken apart into stands below it, and a type stands below a union exactly
where all it comes apart into stands below one of the members.
-/

namespace PhpantomLsp

open Text Lib PhpType

/-! ## Names -/

theorem isArrayKey_of_kind_named {t : PhpType} {name : Atom} (h : t.kind = .named name) :
    t.isArrayKey = eqIgnoreAsciiCase name "array-key" := by
  unfold isArrayKey
  rw [namedThroughNullable_eq, namedThroughNullableBody, h]

theorem isArrayKey_of_kind_union {t : PhpType} {members : List PhpType}
    (h : t.kind = .union members) : t.isArrayKey = false := by
  unfold isArrayKey
  rw [namedThroughNullable_eq, namedThroughNullableBody, h]

/-- A key that is no `?T` is a name. -/
theorem kind_of_isArrayKey {t : PhpType} (h : t.isArrayKey = true)
    (hnullable : ∀ inner, t.kind ≠ .nullable inner) :
    ∃ name, t.kind = .named name ∧ eqIgnoreAsciiCase name "array-key" = true := by
  unfold isArrayKey at h
  rw [namedThroughNullable_eq, namedThroughNullableBody] at h
  split at h
  · rename_i name hkind
    exact ⟨name, hkind, h⟩
  · rename_i inner hkind
    exact absurd hkind (hnullable inner)
  · exact absurd h (by simp)

/-- A type the check does not take apart. -/
structure Unsplit (t : PhpType) : Prop where
  union : ∀ members, t.kind ≠ .union members
  nullable : ∀ inner, t.kind ≠ .nullable inner
  key : t.isArrayKey = false

theorem unsplit_of_kind {t : PhpType} (hunion : ∀ members, t.kind ≠ .union members)
    (hnullable : ∀ inner, t.kind ≠ .nullable inner) (hnamed : ∀ name, t.kind ≠ .named name) :
    Unsplit t := by
  refine ⟨hunion, hnullable, ?_⟩
  by_contra hkey
  obtain ⟨name, hkind, -⟩ := kind_of_isArrayKey (by simpa using hkey) hnullable
  exact hnamed name hkind

theorem isNever_unsplit {t : PhpType} (h : t.isNever = true) : Unsplit t := by
  unfold isNever isNamedWhere at h
  split at h
  · rename_i name hkind
    have hkey : eqIgnoreAsciiCase name "array-key" = false := by
      by_contra hkey
      rw [Bool.not_eq_false, eqIgnoreAsciiCase_iff] at hkey
      dsimp only at h
      rw [hkey] at h
      exact absurd h (by decide)
    exact ⟨by simp [hkind], by simp [hkind], by rw [isArrayKey_of_kind_named hkind, hkey]⟩
  · exact absurd h (by simp)

theorem unsplit_int_string : ∀ t ∈ [PhpType.int, PhpType.string], Unsplit t := by
  intro t ht
  have hkey : t.isArrayKey = false := by
    revert t
    decide +kernel
  rcases List.mem_cons.mp ht with rfl | ht
  · exact ⟨by simp [kind, int], by simp [kind, int], hkey⟩
  · obtain rfl := List.mem_singleton.mp ht
    exact ⟨by simp [kind, string], by simp [kind, string], hkey⟩

theorem isNamedSubtype_arrayKey {name : Atom} (hname : eqIgnoreAsciiCase name "array-key" = true) :
    isNamedSubtype "int" name = true ∧ isNamedSubtype "string" name = true := by
  have hlower : asciiLower name = "array-key" := by
    rw [eqIgnoreAsciiCase_iff] at hname
    rw [hname]
    decide
  have hhead : name.toList.head? ≠ some '\\' := by
    intro hhead
    have hchars := congrArg (fun s => s.toList.head?) hlower
    rw [toList_asciiLower, List.head?_map, hhead] at hchars
    exact absurd hchars (by decide)
  have hclass : isPseudoClass name = false := by
    unfold isPseudoClass
    rw [hlower]
    rfl
  have hkeywords : ∀ sub ∈ ["int", "string"], stripFqnPrefix sub = sub ∧ asciiLower sub = sub ∧
      isPseudoClass sub = false ∧ normalizeAlias sub = sub ∧
      namedSubtypeTable sub sub "array-key" = true ∧ sub ≠ "array-key" ∧ sub ≠ "void" := by
    decide
  have hkey : normalizeAlias "array-key" = "array-key" := by decide
  have hbelow : ∀ sub ∈ ["int", "string"], isNamedSubtype sub name = true := by
    intro sub hsub
    obtain ⟨hunslashed, hcase, hplain, halias, htable, hne, hvoid⟩ := hkeywords sub hsub
    unfold isNamedSubtype
    simp only [hunslashed, stripFqnPrefix_of_head hhead, hcase, hlower, hne, hplain, hclass, halias,
      hkey, htable, hvoid]
    simp
  exact ⟨hbelow "int" (by simp), hbelow "string" (by simp)⟩

theorem asEnumCase_of_kind_union {t : PhpType} {members : List PhpType}
    (h : t.kind = .union members) :
    t.asEnumCase = none := by
  cases t with
  | enumCase enumName caseName => exact absurd h (by simp [kind])
  | _ => rfl

section

variable [DedupHasher]

/-! ## The alternatives -/

/-- What a type is taken apart into, itself included. -/
inductive IsAlternative (x : PhpType) : PhpType → Prop where
  | whole : IsAlternative x x
  | member {t m : PhpType} {members : List PhpType} (hkind : t.kind = .union members)
      (hm : m ∈ members) (h : IsAlternative x m) : IsAlternative x t
  | orNull {t inner : PhpType} (hkind : t.kind = .nullable inner)
      (h : IsAlternative x (mkUnion [inner, PhpType.null])) : IsAlternative x t
  | key {t : PhpType} {name : Atom} (hkind : t.kind = .named name)
      (hname : eqIgnoreAsciiCase name "array-key" = true) (h : IsAlternative x intOrString) :
      IsAlternative x t

theorem IsAlternative.trans {x y t : PhpType} (hxy : IsAlternative x y)
    (hyt : IsAlternative y t) : IsAlternative x t := by
  induction hyt with
  | whole => exact hxy
  | member hkind hm _ ih => exact .member hkind hm ih
  | orNull hkind _ ih => exact .orNull hkind ih
  | key hkind hname _ ih => exact .key hkind hname ih

theorem IsAlternative.of_mem_unionMembers {x t : PhpType} (h : x ∈ t.unionMembers) :
    IsAlternative x t := by
  unfold unionMembers at h
  split at h
  · rename_i members hkind
    exact .member hkind h .whole
  · obtain rfl := List.mem_singleton.mp h
    exact .whole

/-- No enum case in a type is of an enum that is named `array-key`. -/
def NoKeyEnum (t : PhpType) : Prop :=
  ∀ a, IsAlternative a t → a.isArrayKey = true → a.asEnumCase = none

theorem NoKeyEnum.of_isAlternative {x t : PhpType} (h : NoKeyEnum t) (hx : IsAlternative x t) :
    NoKeyEnum x :=
  fun a ha => h a (ha.trans hx)

variable {x t : PhpType}

theorem IsAlternative.eq_of_unsplit (h : IsAlternative x t) (ht : Unsplit t) : x = t := by
  cases h with
  | whole => rfl
  | member hkind => exact absurd hkind (ht.union _)
  | orNull hkind => exact absurd hkind (ht.nullable _)
  | key hkind hname =>
      rw [← isArrayKey_of_kind_named hkind, ht.key] at hname
      exact absurd hname (by simp)

theorem IsAlternative.of_nullable (h : IsAlternative x t) (hne : x ≠ t) {inner : PhpType}
    (hkind : t.kind = .nullable inner) : IsAlternative x (mkUnion [inner, PhpType.null]) := by
  cases h with
  | whole => exact absurd rfl hne
  | member hkind' => exact absurd (hkind.symm.trans hkind') (by simp)
  | orNull hkind' h =>
      obtain rfl := PhpType.nullable.inj (hkind.symm.trans hkind')
      exact h
  | key hkind' => exact absurd (hkind.symm.trans hkind') (by simp)

theorem IsAlternative.of_union (h : IsAlternative x t) (hne : x ≠ t) {members : List PhpType}
    (hkind : t.kind = .union members) : ∃ m ∈ members, IsAlternative x m := by
  cases h with
  | whole => exact absurd rfl hne
  | @member _ m _ hkind' hm h =>
      obtain rfl := PhpType.union.inj (hkind.symm.trans hkind')
      exact ⟨m, hm, h⟩
  | orNull hkind' => exact absurd (hkind.symm.trans hkind') (by simp)
  | key hkind' => exact absurd (hkind.symm.trans hkind') (by simp)

theorem IsAlternative.of_named (h : IsAlternative x t) (hne : x ≠ t) {name : Atom}
    (hkind : t.kind = .named name) : IsAlternative x intOrString := by
  cases h with
  | whole => exact absurd rfl hne
  | member hkind' => exact absurd (hkind.symm.trans hkind') (by simp)
  | orNull hkind' => exact absurd (hkind.symm.trans hkind') (by simp)
  | key _ _ h => exact h

theorem noKeyEnum_of_unsplit (ht : Unsplit t) (hcase : t.asEnumCase = none) : NoKeyEnum t := by
  intro a ha _
  rwa [ha.eq_of_unsplit ht]

theorem noKeyEnum_union {members : List PhpType} (h : ∀ m ∈ members, NoKeyEnum m) :
    NoKeyEnum (.union members) := by
  intro a ha hkey
  by_cases hne : a = .union members
  · rw [hne]
    rfl
  · obtain ⟨m, hm, ha⟩ := ha.of_union hne rfl
    exact h m hm a ha hkey

theorem noKeyEnum_named (name : Atom) : NoKeyEnum (.named name) := by
  have hplain : ∀ t ∈ [PhpType.int, PhpType.string], NoKeyEnum t := by
    intro t ht
    refine noKeyEnum_of_unsplit (unsplit_int_string t ht) ?_
    revert t
    decide
  intro a ha hkey
  by_cases hne : a = .named name
  · rw [hne]
    rfl
  · have hinner := ha.of_named hne rfl
    rw [intOrString_eq] at hinner
    exact noKeyEnum_union hplain a hinner hkey

theorem noKeyEnum_intervalType (i : Interval) : NoKeyEnum (intervalType i) := by
  have hliteral : ∀ value, NoKeyEnum (.literal value) := fun value =>
    noKeyEnum_of_unsplit (unsplit_of_kind (by simp [kind]) (by simp [kind]) (by simp [kind])) rfl
  have hrange : ∀ min max, NoKeyEnum (.intRange min max) := fun min max =>
    noKeyEnum_of_unsplit (unsplit_of_kind (by simp [kind]) (by simp [kind]) (by simp [kind])) rfl
  unfold intervalType
  split
  · exact noKeyEnum_named "int"
  · split
    · exact hliteral _
    · exact hrange _ _
  · exact hrange _ _
  · exact hrange _ _

/-- A union names no such enum if its members name none. -/
theorem noKeyEnum_mkUnion {members : List PhpType} (h : ∀ m ∈ members, NoKeyEnum m) :
    NoKeyEnum (mkUnion members) := by
  refine mkUnionBy_of_members noKeyEnum_intervalType ?_ (fun _ => noKeyEnum_union)
    absorbSubsumedShapes_sublist h
  intro t base _ _ hbase
  unfold unrefinedBase at hbase
  split at hbase
  · obtain ⟨name, -, rfl⟩ := Option.map_eq_some_iff.mp hbase
    exact noKeyEnum_named name
  · obtain ⟨name, -, rfl⟩ := Option.map_eq_some_iff.mp hbase
    exact noKeyEnum_of_unsplit (unsplit_of_kind (by simp [kind]) (by simp [kind]) (by simp [kind])) rfl
  · exact absurd hbase (by simp)

/-! ## One round of the check -/

theorem weight_of_key {name : Atom} (hkind : t.kind = .named name)
    (hname : eqIgnoreAsciiCase name "array-key" = true) : intOrString.weight < t.weight := by
  have hle := t.weight_kind_le
  have hunion := weight_intOrString_le
  rw [hkind] at hle
  simp only [weight, nameWeight, hname, if_true] at hle
  omega

/-- A pair the check settles before it takes either type apart. -/
structure Unsettled (x t : PhpType) : Prop where
  ne : x ≠ t
  param : x.asTemplateParam.any (fun (name, _) => decide (t = .named name)) = false
  bounds : (x.isNever || t.isMixed) = false

/-- What is settled at once holds. -/
theorem isSubtypeOf_of_settled (h : ¬ Unsettled x t) : isSubtypeOf x t = true := by
  rw [isSubtypeOf_eq]
  unfold subtypeBody subtypeByNormalising
  split_ifs with hne hparam hbounds
  · rfl
  · rfl
  · rfl
  all_goals exact absurd ⟨hne, by simpa using hparam, by simpa using hbounds⟩ h

/-- A `?T` is asked as `T|null`. -/
theorem isSubtypeOf_kind_nullable (h : Unsettled x t) {inner : PhpType}
    (hkind : x.kind = .nullable inner) :
    isSubtypeOf x t = isSubtypeOf (mkUnion [inner, PhpType.null]) t := by
  rw [isSubtypeOf_eq]
  simp [subtypeBody, subtypeByNormalising, h.ne, h.param, h.bounds, hkind]

theorem isSubtypeOf_nullable (h : Unsettled x t) {inner : PhpType}
    (hx : ∀ inner, x.kind ≠ .nullable inner) (hkind : t.kind = .nullable inner) :
    isSubtypeOf x t = isSubtypeOf x (mkUnion [inner, PhpType.null]) := by
  rw [isSubtypeOf_eq]
  simp [subtypeBody, subtypeByNormalising, h.ne, h.param, h.bounds, hkind]

/-- `array-key` is asked as `int|string`. -/
theorem isSubtypeOf_key (h : Unsettled x t) {name : Atom} (hkind : x.kind = .named name)
    (hname : eqIgnoreAsciiCase name "array-key" = true)
    (ht : ∀ inner, t.kind ≠ .nullable inner) : isSubtypeOf x t = isSubtypeOf intOrString t := by
  have hkey : x.isArrayKey = true := by rw [isArrayKey_of_kind_named hkind, hname]
  rw [isSubtypeOf_eq]
  simp [subtypeBody, subtypeByNormalising, h.ne, h.param, h.bounds, hkind, hkey]

/-- A union stands below what each of its members stands below; a member the
other union lists is not asked for. -/
theorem isSubtypeOf_kind_union (h : Unsettled x t) {members : List PhpType}
    (hkind : x.kind = .union members) (ht : ∀ inner, t.kind ≠ .nullable inner) :
    isSubtypeOf x t = members.all fun m =>
      (decide (8 ≤ t.unionMembers.length) && decide (m ∈ t.unionMembers)) || isSubtypeOf m t := by
  have hkey := isArrayKey_of_kind_union hkind
  have hnormal : subtypeByNormalising isSubtypeOf x t = none := by
    unfold subtypeByNormalising
    simp only [h.ne, h.param, h.bounds, hkind, hkey, if_false, Bool.false_eq_true]
    cases t.asEnumCase <;> rfl
  rw [isSubtypeOf_eq, subtypeBody, hnormal, Option.none_or]
  unfold subtypeOfComposite unionMembers
  rw [hkind]
  cases t.kind with
  | union wider =>
      by_cases hlong : 8 ≤ wider.length
      · simp [hlong]
      · simp [hlong]
  | _ => simp

/-- A type that is not taken apart stands below a union if it stands below a
member. -/
theorem isSubtypeOf_union (h : Unsettled x t) (hx : Unsplit x) {members : List PhpType}
    (hkind : t.kind = .union members) :
    isSubtypeOf x t = members.any fun m => isSubtypeOf x m := by
  have hnormal : subtypeByNormalising isSubtypeOf x t = none := by
    unfold subtypeByNormalising
    simp only [h.ne, h.param, h.bounds, hkind, hx.key, asEnumCase_of_kind_union hkind, if_false,
      Bool.false_eq_true]
    split
    · rename_i inner hnullable
      exact absurd hnullable (hx.nullable inner)
    · rfl
  rw [isSubtypeOf_eq, subtypeBody, hnormal, Option.none_or]
  unfold subtypeOfComposite
  rw [hkind]
  cases hx' : x.kind with
  | union members => exact absurd hx' (hx.union members)
  | _ => simp

theorem isAlternative_intOrString (h : IsAlternative x intOrString) (hx : Unsplit x) :
    x = PhpType.int ∨ x = PhpType.string := by
  have hne : x ≠ intOrString := by
    intro heq
    rw [intOrString_eq] at heq
    exact hx.union _ (congrArg kind heq)
  obtain ⟨m, hm, hmember⟩ := h.of_union hne (congrArg kind intOrString_eq)
  obtain rfl := hmember.eq_of_unsplit (unsplit_int_string m hm)
  simpa using hm

/-- `int` and `string` stand below `array-key`. -/
theorem isSubtypeOf_arrayKey_of_kind {name sub : Atom} (hkind : t.kind = .named name)
    (hname : eqIgnoreAsciiCase name "array-key" = true) (hcase : t.asEnumCase = none)
    (hsub : sub = "int" ∨ sub = "string") : isSubtypeOf (.named sub) t = true := by
  by_cases hun : Unsettled (.named sub) t
  · have hbelow : isNamedSubtype sub name = true := by
      rcases hsub with rfl | rfl
      · exact (isNamedSubtype_arrayKey hname).1
      · exact (isNamedSubtype_arrayKey hname).2
    have hplain : isArrayKey (.named sub) = false := by
      rw [isArrayKey_named]
      rcases hsub with rfl | rfl <;> decide
    have hnormal : subtypeByNormalising isSubtypeOf (.named sub) t = none := by
      unfold subtypeByNormalising
      simp only [hun.ne, hun.param, hun.bounds, kind, hkind, hplain, hcase, if_false,
        Bool.false_eq_true]
    rw [isSubtypeOf_eq, subtypeBody, hnormal]
    simp [subtypeOfComposite, subtypeOfScalar, kind, hkind, hbelow]
  · exact isSubtypeOf_of_settled hun

/-! ## The alternatives stand below their type -/

/-- What a type is taken apart into stands below it. -/
theorem isSubtypeOf_of_isAlternative (h : IsAlternative x t) (hkeys : NoKeyEnum t) :
    isSubtypeOf x t = true := by
  induction x, t using measure_induction_pair weight with
  | step x t ih =>
      by_cases hun : Unsettled x t
      · by_cases hxnull : ∃ inner, x.kind = .nullable inner
        · obtain ⟨inner, hkind⟩ := hxnull
          have hweight := weight_orNull_le inner
          have hle := x.weight_kind_le
          rw [hkind] at hle
          simp only [weight] at hle
          rw [isSubtypeOf_kind_nullable hun hkind]
          exact ih _ _ (by omega) ((IsAlternative.orNull hkind .whole).trans h) hkeys
        have hx : ∀ inner, x.kind ≠ .nullable inner := fun inner hkind => hxnull ⟨inner, hkind⟩
        by_cases htnull : ∃ inner, t.kind = .nullable inner
        · obtain ⟨inner, hkind⟩ := htnull
          have hweight := weight_orNull_le inner
          have hle := t.weight_kind_le
          rw [hkind] at hle
          simp only [weight] at hle
          have hinner := h.of_nullable hun.ne hkind
          rw [isSubtypeOf_nullable hun hx hkind]
          exact ih _ _ (by omega) hinner (hkeys.of_isAlternative (.orNull hkind .whole))
        have ht : ∀ inner, t.kind ≠ .nullable inner := fun inner hkind => htnull ⟨inner, hkind⟩
        by_cases hxunion : ∃ members, x.kind = .union members
        · obtain ⟨members, hkind⟩ := hxunion
          rw [isSubtypeOf_kind_union hun hkind ht, List.all_eq_true]
          intro m hm
          have hless := weight_lt_of_kind_union hkind hm
          rw [ih m t (by omega) ((IsAlternative.member hkind hm .whole).trans h) hkeys,
            Bool.or_true]
        by_cases hkey : x.isArrayKey = true
        · obtain ⟨name, hkind, hname⟩ := kind_of_isArrayKey hkey hx
          have hless := weight_of_key hkind hname
          rw [isSubtypeOf_key hun hkind hname ht]
          exact ih _ _ (by omega) ((IsAlternative.key hkind hname .whole).trans h) hkeys
        have hsplit : Unsplit x :=
          ⟨fun members hkind => hxunion ⟨members, hkind⟩, hx, by simpa using hkey⟩
        cases h with
        | whole => exact absurd rfl hun.ne
        | @member _ m _ hkind hm h =>
            have hless := weight_lt_of_kind_union hkind hm
            rw [isSubtypeOf_union hun hsplit hkind, List.any_eq_true]
            exact ⟨m, hm, ih x m (by omega) h (hkeys.of_isAlternative (.member hkind hm .whole))⟩
        | orNull hkind => exact absurd hkind (ht _)
        | key hkind hname h =>
            have hcase : t.asEnumCase = none :=
              hkeys t .whole (by rw [isArrayKey_of_kind_named hkind, hname])
            rcases isAlternative_intOrString h hsplit with rfl | rfl
            · exact isSubtypeOf_arrayKey_of_kind hkind hname hcase (.inl rfl)
            · exact isSubtypeOf_arrayKey_of_kind hkind hname hcase (.inr rfl)
      · exact isSubtypeOf_of_settled hun

/-- A type stands below a union exactly where all it comes apart into stands
below a member. -/
theorem isSubtypeOf_union_iff {members : List PhpType} (hsome : members ≠ [])
    (hkeys : NoKeyEnum (.union members)) :
    isSubtypeOf x (.union members) = true ↔
      ∀ a, IsAlternative a x → Unsplit a → ∃ m ∈ members, isSubtypeOf a m = true := by
  have hmember : ∀ m ∈ members, NoKeyEnum m := fun m hm =>
    hkeys.of_isAlternative (.member rfl hm .whole)
  induction x using measure_induction weight with
  | step x ih =>
      by_cases hun : Unsettled x (.union members)
      · by_cases hxnull : ∃ inner, x.kind = .nullable inner
        · obtain ⟨inner, hkind⟩ := hxnull
          have hweight := weight_orNull_le inner
          have hle := x.weight_kind_le
          rw [hkind] at hle
          simp only [weight] at hle
          rw [isSubtypeOf_kind_nullable hun hkind]
          refine (ih (mkUnion [inner, PhpType.null]) (by omega)).trans (forall_congr' fun a => ?_)
          constructor
          · intro h ha hplain
            exact h (ha.of_nullable (by rintro rfl; exact hplain.nullable _ hkind) hkind) hplain
          · intro h ha hplain
            exact h (.orNull hkind ha) hplain
        have hx : ∀ inner, x.kind ≠ .nullable inner := fun inner hkind => hxnull ⟨inner, hkind⟩
        have ht : ∀ inner, (PhpType.union members).kind ≠ .nullable inner := by simp [kind]
        by_cases hxunion : ∃ own, x.kind = .union own
        · obtain ⟨own, hkind⟩ := hxunion
          rw [isSubtypeOf_kind_union hun hkind ht, List.all_eq_true]
          constructor
          · intro h a ha hplain
            obtain ⟨m, hm, hmem⟩ := ha.of_union (by rintro rfl; exact hplain.union _ hkind) hkind
            have hless := weight_lt_of_kind_union hkind hm
            have hask := h m hm
            simp only [Bool.or_eq_true, Bool.and_eq_true, decide_eq_true_eq] at hask
            rcases hask with hlisted | hask
            · exact ⟨m, hlisted.2, isSubtypeOf_of_isAlternative hmem (hmember m hlisted.2)⟩
            · exact (ih m hless).mp hask a hmem hplain
          · intro h m hm
            have hless := weight_lt_of_kind_union hkind hm
            have hask : isSubtypeOf m (.union members) = true :=
              (ih m hless).mpr fun a ha hplain => h a (.member hkind hm ha) hplain
            rw [hask, Bool.or_true]
        by_cases hkey : x.isArrayKey = true
        · obtain ⟨name, hkind, hname⟩ := kind_of_isArrayKey hkey hx
          rw [isSubtypeOf_key hun hkind hname ht]
          refine (ih intOrString (weight_of_key hkind hname)).trans (forall_congr' fun a => ?_)
          constructor
          · intro h ha hplain
            refine h (ha.of_named ?_ hkind) hplain
            rintro rfl
            exact absurd (hkey.symm.trans hplain.key) (by simp)
          · intro h ha hplain
            exact h (.key hkind hname ha) hplain
        have hsplit : Unsplit x :=
          ⟨fun own hkind => hxunion ⟨own, hkind⟩, hx, by simpa using hkey⟩
        rw [isSubtypeOf_union hun hsplit rfl, List.any_eq_true]
        constructor
        · intro h a ha _
          rw [ha.eq_of_unsplit hsplit]
          exact h
        · intro h
          exact h x .whole hsplit
      · refine iff_of_true (isSubtypeOf_of_settled hun) ?_
        intro a ha hplain
        by_cases hnever : x.isNever = true
        · obtain ⟨m, hm⟩ := List.exists_mem_of_ne_nil members hsome
          rw [ha.eq_of_unsplit (isNever_unsplit hnever)]
          refine ⟨m, hm, isSubtypeOf_of_settled fun hun => ?_⟩
          have hbounds := hun.bounds
          rw [hnever] at hbounds
          exact absurd hbounds (by simp)
        have heq : x = .union members := by
          by_contra hne
          refine hun ⟨hne, ?_, ?_⟩
          · cases x.asTemplateParam <;> simp
          · rw [Bool.not_eq_true] at hnever
            rw [hnever]
            rfl
        obtain ⟨m, hm, hmem⟩ :=
          ha.of_union (by rintro rfl; exact hplain.union _ (congrArg kind heq)) (congrArg kind heq)
        exact ⟨m, hm, isSubtypeOf_of_isAlternative hmem (hmember m hm)⟩

/-- Below a union, a union stands exactly where its members stand. -/
theorem isSubtypeOf_iff_unionMembers {own wider : List PhpType} (hx : x.kind = .union own)
    (ht : t.kind = .union wider) (hkeys : NoKeyEnum t) :
    isSubtypeOf x t = true ↔ ∀ m ∈ own, isSubtypeOf m t = true := by
  have hlisted : ∀ m ∈ t.unionMembers, isSubtypeOf m t = true := fun m hm =>
    isSubtypeOf_of_isAlternative (.of_mem_unionMembers hm) hkeys
  by_cases hun : Unsettled x t
  · rw [isSubtypeOf_kind_union hun hx (by simp [ht]), List.all_eq_true]
    refine forall₂_congr fun m hm => ?_
    rw [Bool.or_eq_true, Bool.and_eq_true, decide_eq_true_eq, decide_eq_true_eq]
    constructor
    · intro h
      rcases h with h | h
      · exact hlisted m h.2
      · exact h
    · exact .inr
  · refine iff_of_true (isSubtypeOf_of_settled hun) fun m hm => ?_
    have heq : x = t := by
      by_contra hne
      refine hun ⟨hne, ?_, ?_⟩
      · cases x.asTemplateParam with
        | none => rfl
        | some param =>
            have hnamed : t ≠ .named param.1 := by
              intro heq
              rw [heq] at ht
              exact absurd ht (by simp [kind])
            simpa using hnamed
      · simp [isNever, isMixed, isNamedWhere, hx, ht]
    subst heq
    refine hlisted m ?_
    unfold unionMembers
    rw [hx]
    exact hm

end

end PhpantomLsp
