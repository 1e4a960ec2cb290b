import PhpantomLsp.PhpType.Dedup

/-!
# What the hash table merges

The equivalence of `dedup_types` is an equivalence relation, and the naive
loop over it is what the hash table is meant to compute.  The two part in one
place: the name of an enum is compared without its casing, and is hashed with
a flag that singles out the spelling `number`.

`enumNumberSpellings` reads those flags off a type.  Two equivalent types make
the same writes exactly when they carry the same flags, and the hash table
computes the naive filter, whatever the hash function, exactly when equivalent
members of the list do.
-/

namespace PhpantomLsp

open Text Lib

/-! ## An equivalence relation -/

/-- The markers of two types do not set them apart. -/
structure Mergeable (a b : PhpType) : Prop where
  unsealed : a.asUnsealedShape = none ∧ b.asUnsealedShape = none
  className : a.asClassNameLiteral.isSome = b.asClassNameLiteral.isSome
  dqlBuilder : a.asDqlBuilder = none ∧ b.asDqlBuilder = none
  enumCase : a.asEnumCase = none ∧ b.asEnumCase = none

/-- The same case of one enum, up to the casing of the enum's name. -/
def EnumTwins (a b : PhpType) : Prop :=
  ∃ e e' c, a = .enumCase e c ∧ b = .enumCase e' c ∧ identifiersEquivalent e e' = true

theorem asEnumCase_eq_some {t : PhpType} {e c : Atom} (h : t.asEnumCase = some (e, c)) :
    t = .enumCase e c := by
  cases t <;> simp_all [PhpType.asEnumCase]

theorem enumCasesEquivalent_iff {a b : PhpType} :
    enumCasesEquivalent a.asEnumCase b.asEnumCase = true ↔ EnumTwins a b := by
  constructor
  · intro h
    unfold enumCasesEquivalent at h
    split at h
    · rename_i e c e' c' ha hb
      simp only [Bool.and_eq_true, beq_iff_eq] at h
      obtain ⟨rfl, h⟩ := h
      exact ⟨e, e', c, asEnumCase_eq_some ha, asEnumCase_eq_some hb, h⟩
    · exact absurd h (by simp)
  · rintro ⟨e, e', c, rfl, rfl, h⟩
    simp [PhpType.asEnumCase, enumCasesEquivalent, h]

theorem equivalentForDedup_iff {a b : PhpType} :
    equivalentForDedup a b = true ↔
      a = b ∨ EnumTwins a b ∨
        (Mergeable a b ∧ nodesEquivalent equivalentForDedup a.kind b.kind = true) := by
  have htwins : EnumTwins a b →
      a.asUnsealedShape = none ∧ b.asUnsealedShape = none ∧ a.asClassNameLiteral = none ∧
        b.asClassNameLiteral = none ∧ a.asDqlBuilder = none ∧ b.asDqlBuilder = none ∧
        a.asEnumCase.isSome = true := by
    rintro ⟨e, e', c, rfl, rfl, -⟩
    simp [PhpType.asUnsealedShape, PhpType.asClassNameLiteral, PhpType.asDqlBuilder,
      PhpType.asEnumCase]
  rw [equivalentForDedup_eq, equivalentBody]
  by_cases hab : a = b
  · simp [hab]
  rw [if_neg hab]
  by_cases hunsealed : (a.asUnsealedShape.isSome || b.asUnsealedShape.isSome) = true
  · rw [if_pos hunsealed]
    refine iff_of_false (by simp) ?_
    rintro (h | h | ⟨h, -⟩)
    · exact hab h
    · simp [htwins h] at hunsealed
    · simp [h.unsealed] at hunsealed
  rw [if_neg hunsealed]
  by_cases hclass : (a.asClassNameLiteral.isSome != b.asClassNameLiteral.isSome) = true
  · rw [if_pos hclass]
    refine iff_of_false (by simp) ?_
    rintro (h | h | ⟨h, -⟩)
    · exact hab h
    · simp [htwins h] at hclass
    · simp [h.className] at hclass
  rw [if_neg hclass]
  by_cases hdql : (a.asDqlBuilder.isSome || b.asDqlBuilder.isSome) = true
  · rw [if_pos hdql]
    refine iff_of_false (by simp) ?_
    rintro (h | h | ⟨h, -⟩)
    · exact hab h
    · simp [htwins h] at hdql
    · simp [h.dqlBuilder] at hdql
  rw [if_neg hdql]
  by_cases henum : (a.asEnumCase.isSome || b.asEnumCase.isSome) = true
  · rw [if_pos henum, enumCasesEquivalent_iff]
    constructor
    · exact fun h => .inr (.inl h)
    · rintro (h | h | ⟨h, -⟩)
      · exact absurd h hab
      · exact h
      · simp [h.enumCase] at henum
  · rw [if_neg henum]
    constructor
    · intro h
      simp only [Bool.or_eq_true, not_or, Bool.not_eq_true, Option.isSome_eq_false_iff,
        Option.isNone_iff_eq_none] at hunsealed hdql henum
      exact .inr (.inr ⟨⟨hunsealed, by simpa using hclass, hdql, henum⟩, h⟩)
    · rintro (h | h | ⟨-, h⟩)
      · exact absurd h hab
      · simp [htwins h] at henum
      · exact h

@[simp] theorem equivalentForDedup_self (a : PhpType) : equivalentForDedup a a = true :=
  equivalentForDedup_iff.mpr (.inl rfl)

theorem identifiersEquivalent_symm {a b : Atom} (h : identifiersEquivalent a b = true) :
    identifiersEquivalent b a = true := by
  simp only [identifiersEquivalent, eqIgnoreAsciiCase_iff] at *
  exact h.symm

theorem identifiersEquivalent_trans {a b c : Atom} (hab : identifiersEquivalent a b = true)
    (hbc : identifiersEquivalent b c = true) : identifiersEquivalent a c = true := by
  simp only [identifiersEquivalent, eqIgnoreAsciiCase_iff] at *
  exact hab.trans hbc

/-- Two names are equivalent when they differ in casing alone, and both or
neither are the pseudo-type `number`. -/
theorem namedIdentifiersEquivalent_iff {a b : Atom} :
    namedIdentifiersEquivalent a b = true ↔
      asciiLower a = asciiLower b ∧ (a = "number" ↔ b = "number") := by
  have hnumber : asciiLower "number" = "number" := by decide
  simp only [namedIdentifiersEquivalent]
  split
  · rename_i h
    simp only [Bool.and_eq_true, eqIgnoreAsciiCase_iff] at h
    rw [beq_iff_eq, Bool.eq_iff_iff]
    simp [h.1, h.2]
  · rename_i h
    simp only [Bool.and_eq_true, eqIgnoreAsciiCase_iff, not_and] at h
    rw [eqIgnoreAsciiCase_iff]
    constructor
    · intro hab
      refine ⟨hab, ?_, ?_⟩
      · rintro rfl
        exact absurd hab.symm (h rfl)
      · rintro rfl
        exact absurd rfl (h hab)
    · exact fun h => h.1

section Relation

variable {eq : PhpType → PhpType → Bool}

theorem entriesEquivalent_iff {a b : ShapeEntry} :
    entriesEquivalent eq a b = true ↔
      a.key = b.key ∧ a.optional = b.optional ∧ eq a.valueType b.valueType = true := by
  simp [entriesEquivalent, and_assoc]

theorem paramsEquivalent_iff {a b : CallableParam} :
    paramsEquivalent eq a b = true ↔
      a.optional = b.optional ∧ a.variadic = b.variadic ∧ eq a.typeHint b.typeHint = true := by
  simp [paramsEquivalent, and_assoc]

theorem optionsEquivalent_symm {a b : Option PhpType}
    (h : ∀ x ∈ a, ∀ y ∈ b, eq x y = true → eq y x = true)
    (hab : optionsEquivalent eq a b = true) : optionsEquivalent eq b a = true := by
  cases a <;> cases b <;> first | rfl | exact absurd hab Bool.false_ne_true | skip
  exact h _ rfl _ rfl hab

theorem optionsEquivalent_trans {a b c : Option PhpType}
    (h : ∀ x ∈ a, ∀ y ∈ b, ∀ z ∈ c, eq x y = true → eq y z = true → eq x z = true)
    (hab : optionsEquivalent eq a b = true) (hbc : optionsEquivalent eq b c = true) :
    optionsEquivalent eq a c = true := by
  cases a <;> cases b <;> first | exact absurd hab Bool.false_ne_true | skip
  · exact hbc
  · cases c
    · exact absurd hbc Bool.false_ne_true
    · exact h _ rfl _ rfl _ rfl hab hbc

theorem zipAll_entriesEquivalent_symm {as bs : List ShapeEntry}
    (h : ∀ x y, x.weight < PhpType.weightEntries as + 1 → eq x y = true → eq y x = true)
    (hab : zipAll (entriesEquivalent eq) as bs = true) :
    zipAll (entriesEquivalent eq) bs as = true := by
  refine zipAll_symm (fun a ha b _ hab => ?_) hab
  have := PhpType.weight_lt_of_mem_entries ha
  obtain ⟨hkey, hopt, hvalue⟩ := entriesEquivalent_iff.mp hab
  exact entriesEquivalent_iff.mpr ⟨hkey.symm, hopt.symm, h _ _ (by omega) hvalue⟩

theorem zipAll_paramsEquivalent_symm {as bs : List CallableParam}
    (h : ∀ x y, x.weight < PhpType.weightParams as + 1 → eq x y = true → eq y x = true)
    (hab : zipAll (paramsEquivalent eq) as bs = true) :
    zipAll (paramsEquivalent eq) bs as = true := by
  refine zipAll_symm (fun a ha b _ hab => ?_) hab
  have := PhpType.weight_lt_of_mem_params ha
  obtain ⟨hopt, hvar, hhint⟩ := paramsEquivalent_iff.mp hab
  exact paramsEquivalent_iff.mpr ⟨hopt.symm, hvar.symm, h _ _ (by omega) hhint⟩

/-- The comparison of two nodes is symmetric where that of their children
is. -/
theorem nodesEquivalent_symm {a b : PhpType}
    (h : ∀ x y, x.weight < a.weight → eq x y = true → eq y x = true)
    (hab : nodesEquivalent eq a b = true) : nodesEquivalent eq b a = true := by
  have hlist : ∀ as bs : List PhpType, PhpType.weightList as < a.weight →
      zipAll eq as bs = true → zipAll eq bs as = true := by
    intro as bs hlt
    refine zipAll_symm (fun x hx y _ => h x y ?_)
    have := PhpType.weight_le_of_mem hx
    omega
  have hentries : ∀ as bs : List ShapeEntry, PhpType.weightEntries as < a.weight →
      zipAll (entriesEquivalent eq) as bs = true → zipAll (entriesEquivalent eq) bs as = true :=
    fun as bs hlt => zipAll_entriesEquivalent_symm (fun x y hx => h x y (by omega))
  have hoption : ∀ x y : Option PhpType, PhpType.weightOption x < a.weight →
      optionsEquivalent eq x y = true → optionsEquivalent eq y x = true := by
    intro x y hlt
    refine optionsEquivalent_symm (fun u hu v _ => h u v ?_)
    obtain rfl : x = some u := hu
    exact hlt
  cases a <;> cases b <;> first | exact absurd hab Bool.false_ne_true | skip
  case named => 
      simp only [nodesEquivalent, namedIdentifiersEquivalent_iff] at *
      exact ⟨hab.1.symm, hab.2.symm⟩
  case staticType => exact identifiersEquivalent_symm hab
  case thisType => exact identifiersEquivalent_symm hab
  case literal => exact literalsEqual_symm hab
  case generic =>
      simp only [nodesEquivalent, Bool.and_eq_true] at *
      exact ⟨identifiersEquivalent_symm hab.1,
        hlist _ _ (by simp only [PhpType.weight]; omega) hab.2⟩
  case callable =>
      simp only [nodesEquivalent, Bool.and_eq_true] at *
      obtain ⟨⟨hkind, hparams⟩, hret⟩ := hab
      exact ⟨⟨identifiersEquivalent_symm hkind, zipAll_paramsEquivalent_symm
        (fun x y hx => h x y (by simp only [PhpType.weight]; omega)) hparams⟩,
        hoption _ _ (by simp only [PhpType.weight]; omega) hret⟩
  case conditional =>
      simp only [nodesEquivalent, Bool.and_eq_true, beq_iff_eq] at *
      obtain ⟨⟨⟨⟨hp, hn⟩, hc⟩, ht⟩, he⟩ := hab
      exact ⟨⟨⟨⟨hp.symm, hn.symm⟩, h _ _ (by simp only [PhpType.weight]; omega) hc⟩,
        h _ _ (by simp only [PhpType.weight]; omega) ht⟩,
        h _ _ (by simp only [PhpType.weight]; omega) he⟩
  case indexAccess =>
      simp only [nodesEquivalent, Bool.and_eq_true] at *
      exact ⟨h _ _ (by simp only [PhpType.weight]; omega) hab.1,
        h _ _ (by simp only [PhpType.weight]; omega) hab.2⟩
  all_goals
    first
      | exact h _ _ (by simp only [PhpType.weight]; omega) hab
      | exact hlist _ _ (by simp only [PhpType.weight]; omega) hab
      | exact hentries _ _ (by simp only [PhpType.weight]; omega) hab
      | exact hoption _ _ (by simp only [PhpType.weight]; omega) hab

/-- The comparison of two nodes is transitive where that of their children
is. -/
theorem nodesEquivalent_trans {a b c : PhpType}
    (h : ∀ x y z, x.weight < a.weight → eq x y = true → eq y z = true → eq x z = true)
    (hab : nodesEquivalent eq a b = true) (hbc : nodesEquivalent eq b c = true) :
    nodesEquivalent eq a c = true := by
  have hlist : ∀ as bs cs : List PhpType, PhpType.weightList as < a.weight →
      zipAll eq as bs = true → zipAll eq bs cs = true → zipAll eq as cs = true := by
    intro as bs cs hlt
    refine zipAll_trans (fun x hx y _ z _ => h x y z ?_)
    have := PhpType.weight_le_of_mem hx
    omega
  have hentries : ∀ as bs cs : List ShapeEntry, PhpType.weightEntries as < a.weight →
      zipAll (entriesEquivalent eq) as bs = true → zipAll (entriesEquivalent eq) bs cs = true →
      zipAll (entriesEquivalent eq) as cs = true := by
    intro as bs cs hlt
    refine zipAll_trans (fun x hx y _ z _ hxy hyz => ?_)
    have := PhpType.weight_lt_of_mem_entries hx
    obtain ⟨hkey, hopt, hvalue⟩ := entriesEquivalent_iff.mp hxy
    obtain ⟨hkey', hopt', hvalue'⟩ := entriesEquivalent_iff.mp hyz
    exact entriesEquivalent_iff.mpr
      ⟨hkey.trans hkey', hopt.trans hopt', h _ _ _ (by omega) hvalue hvalue'⟩
  have hparams : ∀ as bs cs : List CallableParam, PhpType.weightParams as < a.weight →
      zipAll (paramsEquivalent eq) as bs = true → zipAll (paramsEquivalent eq) bs cs = true →
      zipAll (paramsEquivalent eq) as cs = true := by
    intro as bs cs hlt
    refine zipAll_trans (fun x hx y _ z _ hxy hyz => ?_)
    have := PhpType.weight_lt_of_mem_params hx
    obtain ⟨hopt, hvar, hhint⟩ := paramsEquivalent_iff.mp hxy
    obtain ⟨hopt', hvar', hhint'⟩ := paramsEquivalent_iff.mp hyz
    exact paramsEquivalent_iff.mpr
      ⟨hopt.trans hopt', hvar.trans hvar', h _ _ _ (by omega) hhint hhint'⟩
  have hoption : ∀ x y z : Option PhpType, PhpType.weightOption x < a.weight →
      optionsEquivalent eq x y = true → optionsEquivalent eq y z = true →
      optionsEquivalent eq x z = true := by
    intro x y z hlt
    refine optionsEquivalent_trans (fun u hu v _ w _ => h u v w ?_)
    obtain rfl : x = some u := hu
    exact hlt
  cases a <;> cases b <;> first | exact absurd hab Bool.false_ne_true | skip
  all_goals cases c <;> first | exact absurd hbc Bool.false_ne_true | skip
  case named =>
      simp only [nodesEquivalent, namedIdentifiersEquivalent_iff] at *
      exact ⟨hab.1.trans hbc.1, hab.2.trans hbc.2⟩
  case staticType => exact identifiersEquivalent_trans hab hbc
  case thisType => exact identifiersEquivalent_trans hab hbc
  case literal => exact literalsEqual_trans hab hbc
  case generic =>
      simp only [nodesEquivalent, Bool.and_eq_true] at *
      exact ⟨identifiersEquivalent_trans hab.1 hbc.1,
        hlist _ _ _ (by simp only [PhpType.weight]; omega) hab.2 hbc.2⟩
  case callable =>
      simp only [nodesEquivalent, Bool.and_eq_true] at *
      obtain ⟨⟨hkind, hps⟩, hret⟩ := hab
      obtain ⟨⟨hkind', hps'⟩, hret'⟩ := hbc
      exact ⟨⟨identifiersEquivalent_trans hkind hkind',
        hparams _ _ _ (by simp only [PhpType.weight]; omega) hps hps'⟩,
        hoption _ _ _ (by simp only [PhpType.weight]; omega) hret hret'⟩
  case conditional =>
      simp only [nodesEquivalent, Bool.and_eq_true, beq_iff_eq] at *
      obtain ⟨⟨⟨⟨hp, hn⟩, hc⟩, ht⟩, he⟩ := hab
      obtain ⟨⟨⟨⟨hp', hn'⟩, hc'⟩, ht'⟩, he'⟩ := hbc
      exact ⟨⟨⟨⟨hp.trans hp', hn.trans hn'⟩,
        h _ _ _ (by simp only [PhpType.weight]; omega) hc hc'⟩,
        h _ _ _ (by simp only [PhpType.weight]; omega) ht ht'⟩,
        h _ _ _ (by simp only [PhpType.weight]; omega) he he'⟩
  case indexAccess =>
      simp only [nodesEquivalent, Bool.and_eq_true] at *
      exact ⟨h _ _ _ (by simp only [PhpType.weight]; omega) hab.1 hbc.1,
        h _ _ _ (by simp only [PhpType.weight]; omega) hab.2 hbc.2⟩
  all_goals
    first
      | exact h _ _ _ (by simp only [PhpType.weight]; omega) hab hbc
      | exact hlist _ _ _ (by simp only [PhpType.weight]; omega) hab hbc
      | exact hentries _ _ _ (by simp only [PhpType.weight]; omega) hab hbc
      | exact hoption _ _ _ (by simp only [PhpType.weight]; omega) hab hbc

end Relation

theorem EnumTwins.symm {a b : PhpType} : EnumTwins a b → EnumTwins b a := by
  rintro ⟨e, e', c, rfl, rfl, h⟩
  exact ⟨e', e, c, rfl, rfl, identifiersEquivalent_symm h⟩

theorem EnumTwins.trans {a b c : PhpType} (hab : EnumTwins a b) (hbc : EnumTwins b c) :
    EnumTwins a c := by
  obtain ⟨e, e', n, rfl, rfl, h⟩ := hab
  obtain ⟨f, f', n', hb, rfl, h'⟩ := hbc
  obtain ⟨rfl, rfl⟩ := PhpType.enumCase.inj hb
  exact ⟨e, f', n, rfl, rfl, identifiersEquivalent_trans h h'⟩

theorem Mergeable.symm {a b : PhpType} (h : Mergeable a b) : Mergeable b a :=
  ⟨h.unsealed.symm, h.className.symm, h.dqlBuilder.symm, h.enumCase.symm⟩

theorem Mergeable.trans {a b c : PhpType} (hab : Mergeable a b) (hbc : Mergeable b c) :
    Mergeable a c :=
  ⟨⟨hab.unsealed.1, hbc.unsealed.2⟩, hab.className.trans hbc.className,
    ⟨hab.dqlBuilder.1, hbc.dqlBuilder.2⟩, ⟨hab.enumCase.1, hbc.enumCase.2⟩⟩

theorem EnumTwins.not_mergeable {a b : PhpType} (h : EnumTwins a b) :
    ∀ c, ¬ Mergeable a c ∧ ¬ Mergeable c b := by
  obtain ⟨e, e', n, rfl, rfl, -⟩ := h
  intro c
  exact ⟨fun h => by simpa [PhpType.asEnumCase] using h.enumCase.1,
    fun h => by simpa [PhpType.asEnumCase] using h.enumCase.2⟩

theorem equivalentForDedup_symm {a b : PhpType} (hab : equivalentForDedup a b = true) :
    equivalentForDedup b a = true := by
  induction a using measure_induction PhpType.weight generalizing b with
  | step a ih =>
      rcases equivalentForDedup_iff.mp hab with rfl | h | ⟨hmerge, h⟩
      · exact hab
      · exact equivalentForDedup_iff.mpr (.inr (.inl h.symm))
      · refine equivalentForDedup_iff.mpr (.inr (.inr ⟨hmerge.symm, ?_⟩))
        have hkind := a.weight_kind_le
        exact nodesEquivalent_symm (fun x y hx hxy => ih x (by omega) hxy) h

theorem equivalentForDedup_trans {a b c : PhpType} (hab : equivalentForDedup a b = true)
    (hbc : equivalentForDedup b c = true) : equivalentForDedup a c = true := by
  induction a using measure_induction PhpType.weight generalizing b c with
  | step a ih =>
      rcases equivalentForDedup_iff.mp hab with rfl | hab | ⟨hmerge, hab⟩
      · exact hbc
      · rcases equivalentForDedup_iff.mp hbc with rfl | hbc | ⟨hmerge, hbc⟩
        · exact equivalentForDedup_iff.mpr (.inr (.inl hab))
        · exact equivalentForDedup_iff.mpr (.inr (.inl (hab.trans hbc)))
        · exact absurd hmerge ((hab.symm.not_mergeable c).1)
      · rcases equivalentForDedup_iff.mp hbc with rfl | hbc | ⟨hmerge', hbc⟩
        · exact equivalentForDedup_iff.mpr (.inr (.inr ⟨hmerge, hab⟩))
        · exact absurd hmerge ((hbc.symm.not_mergeable a).2)
        · refine equivalentForDedup_iff.mpr (.inr (.inr ⟨hmerge.trans hmerge', ?_⟩))
          have hkind := a.weight_kind_le
          exact nodesEquivalent_trans (fun x y z hx hxy hyz => ih x (by omega) hxy hyz) hab hbc

/-! ## The spellings a hash tells apart -/

/-- The types the hash of a type descends into, in order. -/
def hashedChildren (ty : PhpType) : List PhpType :=
  match ty.kind with
  | .nullable inner => [inner]
  | .array inner => [inner]
  | .keyOf inner => [inner]
  | .valueOf inner => [inner]
  | .union members => members
  | .intersection members => members
  | .generic _ args => args
  | .arrayShape entries => entries.map (·.valueType)
  | .objectShape entries => entries.map (·.valueType)
  | .callable _ params returnType => params.map (·.typeHint) ++ returnType.toList
  | .conditional _ _ condition thenType elseType _ => [condition, thenType, elseType]
  | .classString inner => inner.toList
  | .interfaceString inner => inner.toList
  | .indexAccess key value => [key, value]
  | _ => []

/-- One round of `enumNumberSpellings`. -/
def enumNumberSpellingsBody (spellings : PhpType → List Bool) (ty : PhpType) : List Bool :=
  match ty.asEnumCase with
  | some (enumName, _) => [enumName == "number"]
  | none => (hashedChildren ty).flatMap spellings

/-- Of each enum case in a type, from left to right, whether its enum is
spelled exactly `number`. -/
def enumNumberSpellings (ty : PhpType) : List Bool :=
  guardedFix PhpType.weight [] enumNumberSpellingsBody ty

theorem weight_lt_of_mem_hashedChildren {ty child : PhpType} (h : child ∈ hashedChildren ty) :
    child.weight < ty.weight := by
  have hkind := ty.weight_kind_le
  unfold hashedChildren at h
  split at h
  case h_15 => simp at h
  all_goals
    rename_i heq
    rw [heq] at hkind
    simp only [PhpType.weight] at hkind
  case h_5 => have := PhpType.weight_le_of_mem h; omega
  case h_6 => have := PhpType.weight_le_of_mem h; omega
  case h_7 => have := PhpType.weight_le_of_mem h; omega
  case h_8 =>
      obtain ⟨e, he, rfl⟩ := List.mem_map.mp h
      have := PhpType.weight_lt_of_mem_entries he
      omega
  case h_9 =>
      obtain ⟨e, he, rfl⟩ := List.mem_map.mp h
      have := PhpType.weight_lt_of_mem_entries he
      omega
  case h_10 =>
      rcases List.mem_append.mp h with h | h
      · obtain ⟨p, hp, rfl⟩ := List.mem_map.mp h
        have := PhpType.weight_lt_of_mem_params hp
        omega
      · obtain rfl := Option.mem_toList.mp h
        simp only [PhpType.weightOption] at hkind
        omega
  case h_12 =>
      obtain rfl := Option.mem_toList.mp h
      simp only [PhpType.weightOption] at hkind
      omega
  case h_13 =>
      obtain rfl := Option.mem_toList.mp h
      simp only [PhpType.weightOption] at hkind
      omega
  all_goals
    simp only [List.mem_cons, List.not_mem_nil, or_false] at h
    rcases h with rfl | rfl | rfl <;> omega

theorem enumNumberSpellings_eq (ty : PhpType) :
    enumNumberSpellings ty = enumNumberSpellingsBody enumNumberSpellings ty := by
  refine guardedFix_eq ?_ ty
  intro f g a h
  simp only [enumNumberSpellingsBody]
  rw [List.flatMap_congr (fun x hx => h x (weight_lt_of_mem_hashedChildren hx))]

/-- Two runs of writes of one length, which are equal exactly when the two
lists of spellings are. -/
structure HashesAgree (x y : List HashWrite) (s t : List Bool) : Prop where
  length : x.length = y.length
  spellings : s.length = t.length
  iff : x = y ↔ s = t

theorem HashesAgree.nil : HashesAgree [] [] [] [] := ⟨rfl, rfl, by simp⟩

theorem HashesAgree.of_eq {x y : List HashWrite} (h : x = y) : HashesAgree x y [] [] :=
  ⟨congrArg _ h, rfl, by simp [h]⟩

theorem HashesAgree.append {x y x' y' : List HashWrite} {s t s' t' : List Bool}
    (h : HashesAgree x y s t) (h' : HashesAgree x' y' s' t') :
    HashesAgree (x ++ x') (y ++ y') (s ++ s') (t ++ t') := by
  refine ⟨by simp [h.length, h'.length], by simp [h.spellings, h'.spellings], ?_, ?_⟩
  · intro heq
    obtain ⟨hx, hx'⟩ := List.append_inj heq h.length
    rw [h.iff.mp hx, h'.iff.mp hx']
  · intro heq
    obtain ⟨hs, hs'⟩ := List.append_inj heq h.spellings
    rw [h.iff.mpr hs, h'.iff.mpr hs']

/-- The same writes in front change nothing. -/
theorem HashesAgree.after {x y : List HashWrite} {s t : List Bool} {w w' : List HashWrite}
    (h : HashesAgree x y s t) (hw : w = w') : HashesAgree (w ++ x) (w' ++ y) s t := by
  simpa using (HashesAgree.of_eq hw).append h

theorem HashesAgree.cons {x y : List HashWrite} {s t : List Bool} {w w' : HashWrite}
    (h : HashesAgree x y s t) (hw : w = w') : HashesAgree (w :: x) (w' :: y) s t :=
  h.after (congrArg (fun v => [v]) hw)

theorem HashesAgree.flatMap {α : Type} {r : α → α → Bool} {f : α → List HashWrite}
    {g : α → List Bool} {as bs : List α} (hab : zipAll r as bs = true)
    (h : ∀ a ∈ as, ∀ b ∈ bs, r a b = true → HashesAgree (f a) (f b) (g a) (g b)) :
    HashesAgree (as.flatMap f) (bs.flatMap f) (as.flatMap g) (bs.flatMap g) := by
  induction as generalizing bs with
  | nil => cases bs <;> simp_all [zipAll, HashesAgree.nil]
  | cons a as ih =>
      cases bs with
      | nil => simp [zipAll] at hab
      | cons b bs =>
          simp only [zipAll, Bool.and_eq_true] at hab
          simp only [List.flatMap_cons]
          refine (h a (by simp) b (by simp) hab.1).append (ih hab.2 ?_)
          intro x hx y hy
          exact h x (List.mem_cons_of_mem _ hx) y (List.mem_cons_of_mem _ hy)

theorem hashIdentifier_of_equivalent {a b : Atom} (h : identifiersEquivalent a b = true) :
    hashIdentifier a = hashIdentifier b := by
  simp only [identifiersEquivalent, eqIgnoreAsciiCase_iff] at h
  have hlist := congrArg String.toList h
  simp only [toList_asciiLower] at hlist
  have hmap : ∀ s : String, hashIdentifier s = (s.toList.map Char.toLower).map HashWrite.byte := by
    intro s
    simp [hashIdentifier]
  rw [hmap, hmap, hlist]

theorem hashNamedIdentifier_of_equivalent {a b : Atom}
    (h : namedIdentifiersEquivalent a b = true) :
    hashNamedIdentifier a = hashNamedIdentifier b := by
  obtain ⟨hlower, hnumber⟩ := namedIdentifiersEquivalent_iff.mp h
  have hident := hashIdentifier_of_equivalent (a := a) (b := b)
    (by simpa [identifiersEquivalent] using hlower)
  have hflag : (a == "number") = (b == "number") := by
    rw [Bool.eq_iff_iff]
    simpa using hnumber
  simp only [hashNamedIdentifier, hident, hflag]

theorem hashLiteral_of_literalsEqual {a b : LiteralValue} (h : literalsEqual a b = true) :
    hashLiteral a = hashLiteral b := by
  cases a <;> cases b <;> try (simp [literalsEqual] at h; done)
  case int.int a b =>
      rcases literalsEqual_int.mp h with rfl | ⟨z, ha, hb⟩
      · rfl
      · simp [hashLiteral, LiteralValue.parseInt, ha, hb]
  case float.float a b =>
      rcases literalsEqual_float.mp h with rfl | ⟨x, y, hx, hy, hxy⟩
      · rfl
      · simp [hashLiteral, LiteralValue.parseFloat, hx, hy, F64.not_isNan_of_eq hxy,
          F64.hashBits_of_eq hxy]
  case string.string a b =>
      have := literalsEqual_string.mp h
      simp only [hashLiteral, this]
      simp [LiteralValue.stringContent]

theorem ctorIdx_of_nodesEquivalent {eq : PhpType → PhpType → Bool} {a b : PhpType}
    (h : nodesEquivalent eq a b = true) : a.ctorIdx = b.ctorIdx := by
  cases a <;> cases b <;> first | rfl | exact absurd h Bool.false_ne_true

/-- Two equivalent nodes agree where their equivalent children do. -/
theorem hashNode_agree {a b : PhpType} {ty ty' : PhpType} (ha : ty.kind = a) (hb : ty'.kind = b)
    (h : ∀ x y, x.weight < a.weight → equivalentForDedup x y = true →
      HashesAgree (hashForDedup x) (hashForDedup y) (enumNumberSpellings x)
        (enumNumberSpellings y))
    (hab : nodesEquivalent equivalentForDedup a b = true) :
    HashesAgree (hashNode hashForDedup ty a) (hashNode hashForDedup ty' b)
      ((hashedChildren ty).flatMap enumNumberSpellings)
      ((hashedChildren ty').flatMap enumNumberSpellings) := by
  have hlist : ∀ as bs : List PhpType, PhpType.weightList as < a.weight →
      zipAll equivalentForDedup as bs = true →
      HashesAgree (as.flatMap hashForDedup) (bs.flatMap hashForDedup)
        (as.flatMap enumNumberSpellings) (bs.flatMap enumNumberSpellings) := by
    intro as bs hlt hzip
    refine HashesAgree.flatMap hzip (fun x hx y _ hxy => h x y ?_ hxy)
    have := PhpType.weight_le_of_mem hx
    omega
  have hentries : ∀ as bs : List ShapeEntry, PhpType.weightEntries as < a.weight →
      zipAll (entriesEquivalent equivalentForDedup) as bs = true →
      HashesAgree (as.flatMap (hashEntry hashForDedup)) (bs.flatMap (hashEntry hashForDedup))
        ((as.map (·.valueType)).flatMap enumNumberSpellings)
        ((bs.map (·.valueType)).flatMap enumNumberSpellings) := by
    intro as bs hlt hzip
    rw [List.flatMap_map, List.flatMap_map]
    refine HashesAgree.flatMap hzip (fun x hx y _ hxy => ?_)
    have := PhpType.weight_lt_of_mem_entries hx
    obtain ⟨hkey, hopt, hvalue⟩ := entriesEquivalent_iff.mp hxy
    exact (h _ _ (by omega) hvalue).after (by rw [hkey, hopt])
  have hparams : ∀ as bs : List CallableParam, PhpType.weightParams as < a.weight →
      zipAll (paramsEquivalent equivalentForDedup) as bs = true →
      HashesAgree (as.flatMap (hashParam hashForDedup)) (bs.flatMap (hashParam hashForDedup))
        ((as.map (·.typeHint)).flatMap enumNumberSpellings)
        ((bs.map (·.typeHint)).flatMap enumNumberSpellings) := by
    intro as bs hlt hzip
    rw [List.flatMap_map, List.flatMap_map]
    refine HashesAgree.flatMap hzip (fun x hx y _ hxy => ?_)
    have := PhpType.weight_lt_of_mem_params hx
    obtain ⟨hopt, hvar, hhint⟩ := paramsEquivalent_iff.mp hxy
    exact (h _ _ (by omega) hhint).after (by rw [hvar, hopt])
  have hoption : ∀ x y : Option PhpType, PhpType.weightOption x < a.weight →
      optionsEquivalent equivalentForDedup x y = true →
      HashesAgree (hashOption hashForDedup x) (hashOption hashForDedup y)
        (x.toList.flatMap enumNumberSpellings) (y.toList.flatMap enumNumberSpellings) := by
    intro x y hlt hxy
    cases x <;> cases y <;> first | exact absurd hxy Bool.false_ne_true | skip
    · exact HashesAgree.of_eq rfl
    · have := (h _ _ hlt hxy).cons (w := .flag true) rfl
      simpa [hashOption] using this
  have hchild : ∀ x y : PhpType, x.weight < a.weight → equivalentForDedup x y = true →
      HashesAgree (hashForDedup x) (hashForDedup y) ([x].flatMap enumNumberSpellings)
        ([y].flatMap enumNumberSpellings) := by
    intro x y hlt hxy
    simpa using h x y hlt hxy
  cases a <;> cases b <;> first | exact absurd hab Bool.false_ne_true | skip
  all_goals simp only [hashNode, hashedChildren, ha, hb]
  case named => exact .of_eq (hashNamedIdentifier_of_equivalent hab)
  case staticType => exact .of_eq (hashIdentifier_of_equivalent hab)
  case thisType => exact .of_eq (hashIdentifier_of_equivalent hab)
  case literal => exact .of_eq (hashLiteral_of_literalsEqual hab)
  case union =>
      exact (hlist _ _ (by simp only [PhpType.weight]; omega) hab).cons
        (by rw [zipAll_length hab])
  case intersection =>
      exact (hlist _ _ (by simp only [PhpType.weight]; omega) hab).cons
        (by rw [zipAll_length hab])
  case generic =>
      simp only [nodesEquivalent, Bool.and_eq_true] at hab
      exact ((hlist _ _ (by simp only [PhpType.weight]; omega) hab.2).cons
        (congrArg HashWrite.length (zipAll_length hab.2))).after
        (hashIdentifier_of_equivalent hab.1)
  case arrayShape =>
      exact (hentries _ _ (by simp only [PhpType.weight]; omega) hab).cons
        (by rw [zipAll_length hab])
  case objectShape =>
      exact (hentries _ _ (by simp only [PhpType.weight]; omega) hab).cons
        (by rw [zipAll_length hab])
  case callable =>
      simp only [nodesEquivalent, Bool.and_eq_true] at hab
      obtain ⟨⟨hkind, hps⟩, hret⟩ := hab
      rw [List.flatMap_append, List.flatMap_append]
      refine HashesAgree.append ?_ (hoption _ _ (by simp only [PhpType.weight]; omega) hret)
      exact ((hparams _ _ (by simp only [PhpType.weight]; omega) hps).cons
        (congrArg HashWrite.length (zipAll_length hps))).after
        (hashIdentifier_of_equivalent hkind)
  case conditional =>
      simp only [nodesEquivalent, Bool.and_eq_true, beq_iff_eq] at hab
      obtain ⟨⟨⟨⟨rfl, rfl⟩, hc⟩, ht⟩, he⟩ := hab
      simp only [List.flatMap_cons, List.flatMap_nil, List.append_nil]
      rw [← List.append_assoc, ← List.append_assoc (enumNumberSpellings _)]
      refine HashesAgree.append (HashesAgree.append (HashesAgree.after ?_ rfl) ?_) ?_
      · exact h _ _ (by simp only [PhpType.weight]; omega) hc
      · exact h _ _ (by simp only [PhpType.weight]; omega) ht
      · exact h _ _ (by simp only [PhpType.weight]; omega) he
  case indexAccess =>
      simp only [nodesEquivalent, Bool.and_eq_true] at hab
      simp only [List.flatMap_cons, List.flatMap_nil, List.append_nil]
      exact (h _ _ (by simp only [PhpType.weight]; omega) hab.1).append
        (h _ _ (by simp only [PhpType.weight]; omega) hab.2)
  all_goals
    first
      | exact hchild _ _ (by simp only [PhpType.weight]; omega) hab
      | exact hoption _ _ (by simp only [PhpType.weight]; omega) hab

/-- Two equivalent types make the same writes exactly when their enum cases
are spelled alike. -/
theorem hashForDedup_agree {a b : PhpType} (hab : equivalentForDedup a b = true) :
    HashesAgree (hashForDedup a) (hashForDedup b) (enumNumberSpellings a)
      (enumNumberSpellings b) := by
  induction a using measure_induction PhpType.weight generalizing b with
  | step a ih =>
      rcases equivalentForDedup_iff.mp hab with rfl | ⟨e, e', c, rfl, rfl, h⟩ | ⟨hmerge, h⟩
      · exact ⟨rfl, rfl, by simp⟩
      · rw [hashForDedup_eq, hashForDedup_eq, enumNumberSpellings_eq, enumNumberSpellings_eq]
        simp only [hashBody, enumNumberSpellingsBody, PhpType.asEnumCase, PhpType.kind, hashNode,
          hashNamedIdentifier, hashIdentifier_of_equivalent h]
        have hctor : (PhpType.named e).ctorIdx = (PhpType.named e').ctorIdx := rfl
        exact ⟨by simp, by simp, by simp [hctor]⟩
      · have hkind := a.weight_kind_le
        have hnode := hashNode_agree (show a.kind = a.kind from rfl) (show b.kind = b.kind from rfl)
          (fun x y hx hxy => ih x (by omega) hxy) h
        rw [hashForDedup_eq, hashForDedup_eq, enumNumberSpellings_eq, enumNumberSpellings_eq]
        simp only [hashBody, enumNumberSpellingsBody, hmerge.enumCase.1, hmerge.enumCase.2,
          ctorIdx_of_nodesEquivalent h, Option.map_none, Option.toList_none, List.nil_append]
        exact hnode.cons rfl

theorem hashForDedup_eq_iff {a b : PhpType} (hab : equivalentForDedup a b = true) :
    hashForDedup a = hashForDedup b ↔ enumNumberSpellings a = enumNumberSpellings b :=
  (hashForDedup_agree hab).iff

/-- The hasher that answers whether it saw exactly these writes. -/
@[reducible] noncomputable def recognise (writes : List HashWrite) : DedupHasher where
  finish seen := open Classical in if seen = writes then 1 else 0

theorem hashForDedup_eq_of_dedupHash {a b : PhpType}
    (h : ∀ [DedupHasher], dedupHash a = dedupHash b) :
    hashForDedup a = hashForDedup b := by
  by_contra hne
  have ha : (recognise (hashForDedup b)).finish (hashForDedup a) = 0 := if_neg hne
  have hb : (recognise (hashForDedup b)).finish (hashForDedup b) = 1 := if_pos rfl
  have hrecognise := ha.symm.trans ((@h (recognise (hashForDedup b))).trans hb)
  exact absurd hrecognise (by decide)

/-- Where equivalent members share their hash, the hash table computes the
naive filter. -/
theorem dedupTypes_eq_of_hash [DedupHasher] {types : List PhpType}
    (h : ∀ a ∈ types, ∀ b ∈ types, equivalentForDedup a b = true → dedupHash a = dedupHash b) :
    dedupTypes types = firstOccurrences equivalentForDedup types :=
  bucketRetain_eq_retainUnseen _ _ (by simpa using h)

theorem dedupHash_eq_iff {a b : PhpType} (hab : equivalentForDedup a b = true) :
    (∀ [DedupHasher], dedupHash a = dedupHash b) ↔
      enumNumberSpellings a = enumNumberSpellings b := by
  rw [← hashForDedup_eq_iff hab]
  refine ⟨fun h => hashForDedup_eq_of_dedupHash h, fun h _ => ?_⟩
  simp only [dedupHash, h]

/-- A hash table that computes the naive filter, whatever the hash function,
shows that equivalent members spell their enums alike. -/
theorem enumNumberSpellings_eq_of_dedupTypes {types : List PhpType}
    (h : ∀ [DedupHasher], dedupTypes types = firstOccurrences equivalentForDedup types)
    {a b : PhpType} (ha : a ∈ types) (hb : b ∈ types) (hab : equivalentForDedup a b = true) :
    enumNumberSpellings a = enumNumberSpellings b := by
  refine (dedupHash_eq_iff hab).mp ?_
  intro
  refine hash_eq_of_bucketRetain_pairwise dedupHash equivalentForDedup equivalentForDedup_self
    (fun _ _ => equivalentForDedup_symm) (fun _ _ _ => equivalentForDedup_trans) ?_ ha hb hab
  have hpair := firstOccurrences_pairwise equivalentForDedup types
  rwa [← h] at hpair

/-- Whatever the hash function, the hash path of `dedup_types` is the naive
filter and equivalent members of the list share their hash, exactly when
equivalent members spell their enums alike. -/
theorem dedupTypes_exact_iff_enumNumberSpellings (types : List PhpType) :
    (∀ [DedupHasher],
      dedupTypes types = firstOccurrences equivalentForDedup types ∧
        ∀ a ∈ types, ∀ b ∈ types, equivalentForDedup a b = true → dedupHash a = dedupHash b) ↔
      ∀ a ∈ types, ∀ b ∈ types, equivalentForDedup a b = true →
        enumNumberSpellings a = enumNumberSpellings b := by
  constructor
  · intro h a ha b hb hab
    exact enumNumberSpellings_eq_of_dedupTypes (fun {_} => h.1) ha hb hab
  · intro h hasher
    have hhash : ∀ a ∈ types, ∀ b ∈ types, equivalentForDedup a b = true →
        dedupHash a = dedupHash b :=
      fun a ha b hb hab => (dedupHash_eq_iff hab).mpr (h a ha b hb hab)
    exact ⟨dedupTypes_eq_of_hash hhash, hhash⟩

/-- One enum case under two spellings of its enum. -/
def numberCases : List PhpType :=
  [.enumCase "number" "One", .enumCase "Number" "One"]

/-- A hasher that tells whether the flag of the pseudo-type was written. -/
@[reducible] def flagHasher : DedupHasher where
  finish writes :=
    if writes.any (fun write => match write with | .flag true => true | _ => false) then 1 else 0

/-- The equivalence identifies the two spellings; the hashes differ, and the
hash table keeps both. -/
theorem dedupTypes_keeps_equivalent_enumCases :
    equivalentForDedup (.enumCase "number" "One") (.enumCase "Number" "One") = true ∧
      @dedupHash flagHasher (.enumCase "number" "One") ≠
        @dedupHash flagHasher (.enumCase "Number" "One") ∧
      @dedupTypes flagHasher numberCases ≠ firstOccurrences equivalentForDedup numberCases := by
  decide +kernel

end PhpantomLsp
