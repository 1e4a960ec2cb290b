import PhpantomLsp.Flow.Disjoint
import PhpantomLsp.PhpType.RuntimeJoinExact

/-!
# The hashed comparison of two type lists

Whether two types are disjoint comes down to their alternatives, each of one
side with each of the other (`disjoint_eq_pairs`).  Two literals that are not
disjoint are equal and so have one hash (`dedupHash_eq_of_not_disjoint`), which
is why a literal has to be compared with the literals of its own hash only.
-/

namespace PhpantomLsp

open Text Lib PhpType

/-! ## Literals -/

theorem isArrayValue_of_kind_literal {x : PhpType} {v : LiteralValue} (h : x.kind = .literal v) :
    x.isArrayValue = false := by
  have harray : x.isArrayLike = false := by
    rw [isArrayLike_eq, isArrayLikeBody, h]
  rw [isArrayValue, h]
  exact harray

theorem isObjectLike_of_kind_literal {x : PhpType} {v : LiteralValue} (h : x.kind = .literal v) :
    x.isObjectLike = false := by
  rw [isObjectLike_eq, isObjectLikeBody, h]

/-! ## Alternatives -/

theorem weight_le_of_mem_flatten {x p : PhpType} (h : p ∈ flatten x) : p.weight ≤ x.weight :=
  Nat.le_trans (weight_le_of_mem h) (weightList_flatten_le x)

theorem flatten_of_union {x : PhpType} {members : List PhpType} (h : x.kind = .union members) :
    flatten x = members.flatMap flatten := by
  rw [flatten_eq, flattenBody, h]

theorem flatten_of_nullable {x inner : PhpType} (h : x.kind = .nullable inner) :
    flatten x = flatten inner ++ [PhpType.null] := by
  rw [flatten_eq, flattenBody, h]

theorem flatten_of_atom {x : PhpType} (hunion : ∀ members, x.kind ≠ .union members)
    (hnull : ∀ inner, x.kind ≠ .nullable inner) : flatten x = [x] := by
  rw [flatten_eq, flattenBody]
  split
  · rename_i members hkind
    exact absurd hkind (hunion members)
  · rename_i inner hkind
    exact absurd hkind (hnull inner)
  · rfl

/-- A type that has members is wider than any of its alternatives. -/
theorem weight_lt_of_mem_flatten {x p : PhpType} (h : p ∈ flatten x) (hne : p ≠ x) :
    p.weight < x.weight := by
  rw [flatten_eq, flattenBody] at h
  split at h
  · rename_i members hkind
    obtain ⟨m, hm, hp⟩ := List.mem_flatMap.mp h
    exact Nat.lt_of_le_of_lt (weight_le_of_mem_flatten hp) (weight_lt_of_kind_union hkind hm)
  · rename_i inner hkind
    rw [List.mem_append, List.mem_singleton] at h
    rcases h with hp | hp
    · exact Nat.lt_of_le_of_lt (weight_le_of_mem_flatten hp) (weight_lt_of_kind_nullable hkind)
    · rw [hp]
      exact weight_null_lt_of_kind_nullable hkind
  · exact absurd (List.mem_singleton.mp h) hne

/-- Neither a union nor a `?T`. -/
def IsAtom (x : PhpType) : Prop :=
  (∀ members, x.kind ≠ .union members) ∧ ∀ inner, x.kind ≠ .nullable inner

/-- An alternative has no members. -/
theorem isAtom_of_mem_flatten {x : PhpType} (h : x ∈ flatten x) : IsAtom x := by
  constructor
  · intro members hkind
    rw [flatten_of_union hkind] at h
    have ⟨m, hm, hx⟩ := List.mem_flatMap.mp h
    have hmember := weight_lt_of_kind_union hkind hm
    have hle := weight_le_of_mem_flatten hx
    omega
  · intro inner hkind
    rw [flatten_of_nullable hkind, List.mem_append, List.mem_singleton] at h
    rcases h with hx | hx
    · have hinner := weight_lt_of_kind_nullable hkind
      have hle := weight_le_of_mem_flatten hx
      omega
    · have hnull := weight_null_lt_of_kind_nullable hkind
      rw [← hx] at hnull
      exact absurd hnull (Nat.lt_irrefl _)

theorem flatten_null : flatten PhpType.null = [PhpType.null] :=
  flatten_of_atom (by simp [PhpType.null, kind]) (by simp [PhpType.null, kind])

theorem mem_literalsOf {types : List PhpType} {ty : PhpType} :
    ty ∈ literalsOf types ↔ ty ∈ types ∧ ty.asLiteral.isSome = true := by
  simp [literalsOf]

theorem mem_restOf {types : List PhpType} {ty : PhpType} :
    ty ∈ restOf types ↔ ty ∈ types ∧ ty.asLiteral.isSome = false := by
  simp [restOf]

section

variable [DedupHasher]

/-! ## Hashes of literals -/

/-- Two literals are disjoint unless one is below the other. -/
theorem disjoint_literals {p q : PhpType} {v w : LiteralValue} (hp : p.asLiteral = some v)
    (hq : q.asLiteral = some w) :
    PhpType.disjoint p q = (!isSubtypeOf p q && !isSubtypeOf q p) := by
  have hkind := (markers_of_asLiteral hp).1
  have hkind' := (markers_of_asLiteral hq).1
  rw [PhpType.disjoint_eq, disjointBody]
  simp [hkind, hkind', isArrayValue_of_kind_literal hkind, isObjectLike_of_kind_literal hkind]

/-- Literals that are not disjoint hash the same. -/
theorem dedupHash_eq_of_not_disjoint {p q : PhpType} (hp : p.asLiteral.isSome = true)
    (hq : q.asLiteral.isSome = true) (h : PhpType.disjoint p q = false) :
    dedupHash p = dedupHash q := by
  have ⟨v, hv⟩ := Option.isSome_iff_exists.mp hp
  have ⟨w, hw⟩ := Option.isSome_iff_exists.mp hq
  rw [disjoint_literals hv hw, Bool.and_eq_false_iff, Bool.not_eq_false', Bool.not_eq_false'] at h
  rcases h with hsub | hsub
  · exact (merged_of_literalsEqual hv hw (isSubtypeOf_literal hv hw hsub)).2
  · exact (merged_of_literalsEqual hw hv (isSubtypeOf_literal hw hv hsub)).2.symm

/-! ## Pairs of alternatives -/

/-- Every alternative of one type with every alternative of the other. -/
def pairsDisjoint (xs ys : List PhpType) : Bool :=
  xs.all fun p => ys.all fun q => PhpType.disjoint p q

theorem pairsDisjoint_iff {xs ys : List PhpType} :
    pairsDisjoint xs ys = true ↔ ∀ p ∈ xs, ∀ q ∈ ys, PhpType.disjoint p q = true := by
  simp [pairsDisjoint]

/-- Two arrays are compared alike in either order. -/
theorem arraysDisjoint_symm {x y : PhpType}
    (h : ∀ xValues yValues, x.iterableElementType = some xValues →
      y.iterableElementType = some yValues →
      PhpType.disjoint xValues yValues = PhpType.disjoint yValues xValues) :
    arraysDisjoint PhpType.disjoint x y = arraysDisjoint PhpType.disjoint y x := by
  unfold arraysDisjoint
  rw [Bool.and_comm (!y.isProvablyNonEmpty), Bool.or_comm y.isEmptyArrayShape,
    Bool.and_comm (isShape y), Bool.and_comm (!isSubtypeOf y x)]
  cases hx : x.iterableElementType with
  | none => cases y.iterableElementType <;> rfl
  | some xValues =>
      cases hy : y.iterableElementType with
      | none => rfl
      | some yValues =>
          simp only
          rw [h xValues yValues hx hy]

/-- Two types without members are compared as they are. -/
theorem disjoint_atoms {x y : PhpType} (hx : IsAtom x) (hy : IsAtom y) :
    PhpType.disjoint x y =
      if x.isArrayValue && y.isArrayValue then arraysDisjoint PhpType.disjoint x y
      else !isSubtypeOf x y && !isSubtypeOf y x && !(x.isObjectLike && y.isObjectLike) := by
  rw [PhpType.disjoint_eq, disjointBody]
  split
  case h_1 members hkind => exact absurd hkind (hx.1 members)
  case h_2 inner hkind => exact absurd hkind (hx.2 inner)
  case h_3 members hkind _ _ => exact absurd hkind (hy.1 members)
  case h_4 inner hkind _ _ => exact absurd hkind (hy.2 inner)
  case h_5 => rfl

/-- What the comparison of two types comes down to, of types below two given ones. -/
structure Flattened (x y : PhpType) : Prop where
  pairs : PhpType.disjoint x y = pairsDisjoint (flatten x) (flatten y)
  symm : PhpType.disjoint x y = PhpType.disjoint y x

theorem pairsDisjoint_flatMap (members : List PhpType) (f : PhpType → List PhpType)
    (ys : List PhpType) :
    pairsDisjoint (members.flatMap f) ys = members.all fun m => pairsDisjoint (f m) ys := by
  simp [pairsDisjoint, List.all_flatMap]

theorem pairsDisjoint_append (xs xs' ys : List PhpType) :
    pairsDisjoint (xs ++ xs') ys = (pairsDisjoint xs ys && pairsDisjoint xs' ys) := by
  simp [pairsDisjoint]

/-- The alternatives of the second type against a first one without members. -/
theorem pairsDisjoint_swap {x : PhpType} {ys : List PhpType}
    (h : ∀ q ∈ ys, PhpType.disjoint q x = PhpType.disjoint x q) :
    pairsDisjoint ys [x] = pairsDisjoint [x] ys := by
  rw [Bool.eq_iff_iff, pairsDisjoint_iff, pairsDisjoint_iff]
  constructor
  · intro hall p hp q hq
    rw [List.mem_singleton.mp hp, ← h q hq]
    exact hall q hq x (List.mem_singleton_self x)
  · intro hall q hq p hp
    rw [List.mem_singleton.mp hp, h q hq]
    exact hall x (List.mem_singleton_self x) q hq

theorem disjoint_eq_pairs_of_below {x y : PhpType}
    (ih : ∀ c d : PhpType, c.weight + d.weight < x.weight + y.weight → Flattened c d) :
    PhpType.disjoint x y = pairsDisjoint (flatten x) (flatten y) := by
  have hx := x.weight_pos
  have hy := y.weight_pos
  rw [PhpType.disjoint_eq]
  unfold disjointBody
  split
  case h_1 members hkind =>
      rw [flatten_of_union hkind, pairsDisjoint_flatMap]
      apply all_congr_of_mem
      intro m hm
      have hmember := weight_lt_of_kind_union hkind hm
      exact (ih m y (by omega)).pairs
  case h_2 inner hkind =>
      have hinner := weight_lt_of_kind_nullable hkind
      have hnull := weight_null_lt_of_kind_nullable hkind
      rw [flatten_of_nullable hkind, pairsDisjoint_append, (ih inner y (by omega)).pairs,
        (ih PhpType.null y (by omega)).pairs, flatten_null]
  case h_3 members hkind hunion hnull =>
      have hatom := flatten_of_atom (fun _ => hunion _) (fun _ => hnull _)
      rw [hatom, ← pairsDisjoint_swap, flatten_of_union hkind, pairsDisjoint_flatMap]
      · apply all_congr_of_mem
        intro m hm
        have hmember := weight_lt_of_kind_union hkind hm
        rw [(ih m x (by omega)).pairs, hatom]
      · intro q hq
        rw [flatten_of_union hkind] at hq
        have ⟨m, hm, hqm⟩ := List.mem_flatMap.mp hq
        have hmember := weight_lt_of_kind_union hkind hm
        have hle := weight_le_of_mem_flatten hqm
        exact (ih q x (by omega)).symm
  case h_4 inner hkind hunion hnull =>
      have hatom := flatten_of_atom (fun _ => hunion _) (fun _ => hnull _)
      have hinner := weight_lt_of_kind_nullable hkind
      have hnullWeight := weight_null_lt_of_kind_nullable hkind
      rw [hatom, ← pairsDisjoint_swap, flatten_of_nullable hkind, pairsDisjoint_append,
        (ih inner x (by omega)).pairs, (ih PhpType.null x (by omega)).pairs, hatom, flatten_null]
      intro q hq
      rw [flatten_of_nullable hkind, List.mem_append, List.mem_singleton] at hq
      rcases hq with hqm | hqn
      · have hle := weight_le_of_mem_flatten hqm
        exact (ih q x (by omega)).symm
      · rw [hqn]
        exact (ih PhpType.null x (by omega)).symm
  case h_5 hunionX hnullX hunionY hnullY =>
      have hatomX : IsAtom x := ⟨fun _ => hunionX _, fun _ => hnullX _⟩
      have hatomY : IsAtom y := ⟨fun _ => hunionY _, fun _ => hnullY _⟩
      rw [flatten_of_atom hatomX.1 hatomX.2, flatten_of_atom hatomY.1 hatomY.2]
      simp only [pairsDisjoint, List.all_cons, List.all_nil, Bool.and_true]
      rw [disjoint_atoms hatomX hatomY]

theorem disjoint_symm_of_below {x y : PhpType}
    (ih : ∀ c d : PhpType, c.weight + d.weight < x.weight + y.weight → Flattened c d)
    (hxy : PhpType.disjoint x y = pairsDisjoint (flatten x) (flatten y))
    (hyx : PhpType.disjoint y x = pairsDisjoint (flatten y) (flatten x)) :
    PhpType.disjoint x y = PhpType.disjoint y x := by
  by_cases hatoms : IsAtom x ∧ IsAtom y
  · have ⟨hx, hy⟩ := hatoms
    rw [disjoint_atoms hx hy, disjoint_atoms hy hx, Bool.and_comm y.isArrayValue,
      Bool.and_comm (!isSubtypeOf y x), Bool.and_comm y.isObjectLike]
    have harrays : arraysDisjoint PhpType.disjoint x y = arraysDisjoint PhpType.disjoint y x := by
      apply arraysDisjoint_symm
      intro xValues yValues hxValues hyValues
      have hxBelow := weight_iterableElementType_lt hx.1 hx.2 hxValues
      have hyBelow := weight_iterableElementType_lt hy.1 hy.2 hyValues
      exact (ih xValues yValues (by omega)).symm
    rw [harrays]
  · -- one of the two has members, which are below it
    have hbelow {p q : PhpType} (hp : p ∈ flatten x) (hq : q ∈ flatten y) :
        p.weight + q.weight < x.weight + y.weight := by
      have hpx := weight_le_of_mem_flatten hp
      have hqy := weight_le_of_mem_flatten hq
      by_contra hnot
      have hpeq : p = x := by
        by_contra hne
        have hlt := weight_lt_of_mem_flatten hp hne
        omega
      have hqeq : q = y := by
        by_contra hne
        have hlt := weight_lt_of_mem_flatten hq hne
        omega
      rw [hpeq] at hp
      rw [hqeq] at hq
      exact hatoms ⟨isAtom_of_mem_flatten hp, isAtom_of_mem_flatten hq⟩
    rw [hxy, hyx, Bool.eq_iff_iff, pairsDisjoint_iff, pairsDisjoint_iff]
    constructor
    · intro hall q hq p hp
      rw [← (ih p q (hbelow hp hq)).symm]
      exact hall p hp q hq
    · intro hall p hp q hq
      rw [(ih p q (hbelow hp hq)).symm]
      exact hall q hq p hp

theorem flattened (x y : PhpType) : Flattened x y := by
  induction x, y using measure_induction_pair weight with
  | step x y ih =>
      have hxy := disjoint_eq_pairs_of_below ih
      have hyx := disjoint_eq_pairs_of_below (x := y) (y := x) fun c d h => ih c d (by omega)
      exact ⟨hxy, disjoint_symm_of_below ih hxy hyx⟩

/-- Two types are disjoint when every two of their alternatives are. -/
theorem disjoint_eq_pairs (x y : PhpType) :
    PhpType.disjoint x y = pairsDisjoint (alternatives x) (alternatives y) :=
  (flattened x y).pairs

theorem disjoint_symm (x y : PhpType) : PhpType.disjoint x y = PhpType.disjoint y x :=
  (flattened x y).symm

/-! ## The hashed comparison of two unions -/

/-- The branch of `disjoint_alternatives` that hashes the literals of the side that
has fewer. -/
def hashedDisjoint (xLiterals yLiterals : List PhpType) : Bool :=
  let fewer := if xLiterals.length ≤ yLiterals.length then xLiterals else yLiterals
  let more := if xLiterals.length ≤ yLiterals.length then yLiterals else xLiterals
  !more.any fun q =>
    (fewer.map dedupHash).contains (dedupHash q) && fewer.any fun p => !PhpType.disjoint p q

theorem literalsDisjoint_eq (xLiterals yLiterals : List PhpType) :
    literalsDisjoint xLiterals yLiterals =
      if xLiterals.length * yLiterals.length < literalSetFromPairs then
        pairsDisjoint xLiterals yLiterals
      else hashedDisjoint xLiterals yLiterals := rfl

/-- A literal whose hash no literal of the other side has is disjoint from them all. -/
theorem hashed_any_eq {fewer more : List PhpType}
    (hfewer : ∀ p ∈ fewer, p.asLiteral.isSome = true)
    (hmore : ∀ q ∈ more, q.asLiteral.isSome = true) :
    (!more.any fun q => (fewer.map dedupHash).contains (dedupHash q) &&
      fewer.any fun p => !PhpType.disjoint p q) = pairsDisjoint fewer more := by
  rw [Bool.eq_iff_iff, pairsDisjoint_iff, Bool.not_eq_true', List.any_eq_false]
  constructor
  · intro hnone p hp q hq
    by_contra hmeet
    rw [Bool.not_eq_true] at hmeet
    have hhash := dedupHash_eq_of_not_disjoint (hfewer p hp) (hmore q hq) hmeet
    apply hnone q hq
    rw [Bool.and_eq_true, List.contains_iff_mem, ← hhash, List.any_eq_true]
    exact ⟨List.mem_map_of_mem hp, p, hp, by rw [hmeet]; rfl⟩
  · intro hall q hq h
    rw [Bool.and_eq_true, List.any_eq_true] at h
    have ⟨p, hp, hmeet⟩ := h.2
    rw [hall p hp q hq] at hmeet
    exact Bool.false_ne_true hmeet

theorem pairsDisjoint_comm (xs ys : List PhpType) : pairsDisjoint xs ys = pairsDisjoint ys xs := by
  rw [Bool.eq_iff_iff, pairsDisjoint_iff, pairsDisjoint_iff]
  constructor
  · intro hall q hq p hp
    rw [disjoint_symm]
    exact hall p hp q hq
  · intro hall p hp q hq
    rw [disjoint_symm]
    exact hall q hq p hp

/-- The hashed branch answers as the pairwise one. -/
theorem hashedDisjoint_eq {xs ys : List PhpType} (hxs : ∀ p ∈ xs, p.asLiteral.isSome = true)
    (hys : ∀ q ∈ ys, q.asLiteral.isSome = true) : hashedDisjoint xs ys = pairsDisjoint xs ys := by
  unfold hashedDisjoint
  by_cases hlen : xs.length ≤ ys.length
  · simp only [hlen, if_true]
    exact hashed_any_eq hxs hys
  · simp only [hlen, if_false]
    rw [hashed_any_eq hys hxs, pairsDisjoint_comm]

theorem literalsDisjoint_eq_pairs {xs ys : List PhpType}
    (hxs : ∀ p ∈ xs, p.asLiteral.isSome = true) (hys : ∀ q ∈ ys, q.asLiteral.isSome = true) :
    literalsDisjoint xs ys = pairsDisjoint xs ys := by
  rw [literalsDisjoint_eq]
  split
  · rfl
  · exact hashedDisjoint_eq hxs hys

/-- Every alternative is a literal or among the rest. -/
theorem pairsDisjoint_split (xs ys : List PhpType) :
    pairsDisjoint xs ys =
      ((pairsDisjoint (restOf xs) (restOf ys ++ literalsOf ys) &&
        pairsDisjoint (literalsOf xs) (restOf ys)) &&
          pairsDisjoint (literalsOf xs) (literalsOf ys)) := by
  have hmem {types : List PhpType} {ty : PhpType} (h : ty ∈ types) :
      ty ∈ restOf types ∨ ty ∈ literalsOf types := by
    by_cases hliteral : ty.asLiteral.isSome = true
    · exact Or.inr (mem_literalsOf.mpr ⟨h, hliteral⟩)
    · exact Or.inl (mem_restOf.mpr ⟨h, by simpa using hliteral⟩)
  rw [Bool.eq_iff_iff, Bool.and_eq_true, Bool.and_eq_true]
  simp only [pairsDisjoint_iff, List.mem_append]
  constructor
  · intro hall
    refine ⟨⟨?_, ?_⟩, ?_⟩
    · intro p hp q hq
      have hq' : q ∈ ys := hq.elim (fun h => (mem_restOf.mp h).1) fun h => (mem_literalsOf.mp h).1
      exact hall p (mem_restOf.mp hp).1 q hq'
    · exact fun p hp q hq => hall p (mem_literalsOf.mp hp).1 q (mem_restOf.mp hq).1
    · exact fun p hp q hq => hall p (mem_literalsOf.mp hp).1 q (mem_literalsOf.mp hq).1
  · rintro ⟨⟨hrest, hcross⟩, hliterals⟩ p hp q hq
    rcases hmem hp with hp | hp
    · exact hrest p hp q (hmem hq)
    · rcases hmem hq with hq | hq
      · exact hcross p hp q hq
      · exact hliterals p hp q hq

/-- **The hashed comparison of two types is the plain one.** -/
theorem disjointAlternatives_eq (x y : PhpType) :
    disjointAlternatives x y = PhpType.disjoint x y := by
  unfold disjointAlternatives
  split
  · rfl
  · have hliterals := literalsDisjoint_eq_pairs
      (fun p hp => (mem_literalsOf.mp hp).2 : ∀ p ∈ literalsOf (alternatives x), _)
      (fun q hq => (mem_literalsOf.mp hq).2 : ∀ q ∈ literalsOf (alternatives y), _)
    rw [disjoint_eq_pairs, pairsDisjoint_split]
    simp only [hliterals]
    simp only [pairsDisjoint]
    split
    · rename_i hrest
      rw [Bool.not_eq_true'] at hrest
      rw [hrest, Bool.false_and]
    · rename_i hrest
      rw [Bool.not_eq_true', Bool.not_eq_false] at hrest
      rw [hrest, Bool.true_and]

/-! ## One list asked about many -/

theorem typesAreDisjoint_iff {a b : List ResolvedType} :
    typesAreDisjoint a b = true ↔ a ≠ [] ∧ b ≠ [] ∧
      ∀ x ∈ a, ∀ y ∈ b, PhpType.disjoint x.typeString y.typeString = true := by
  unfold typesAreDisjoint
  split
  · rename_i hempty
    simp only [List.isEmpty_iff, Bool.or_eq_true] at hempty
    refine iff_of_false Bool.false_ne_true ?_
    intro ⟨ha, hb, _⟩
    exact hempty.elim ha hb
  · rename_i hempty
    simp only [List.isEmpty_iff, Bool.or_eq_true, not_or] at hempty
    simp [disjointAlternatives_eq, hempty.1, hempty.2]

/-- What a list is asked about one alternative: the literals of another hash do not
have to be looked at. -/
theorem disjointFromMine_eq (mine : List PhpType) (q : PhpType) :
    ((restOf mine).all (fun p => PhpType.disjoint p q) &&
        if q.asLiteral.isSome then
          (bucket dedupHash (literalsOf mine) (dedupHash q)).all fun p => PhpType.disjoint p q
        else (literalsOf mine).all fun p => PhpType.disjoint p q) =
      mine.all fun p => PhpType.disjoint p q := by
  have hbucket (hq : q.asLiteral.isSome = true) :
      ((bucket dedupHash (literalsOf mine) (dedupHash q)).all fun p => PhpType.disjoint p q) =
        (literalsOf mine).all fun p => PhpType.disjoint p q := by
    rw [Bool.eq_iff_iff, List.all_eq_true, List.all_eq_true]
    constructor
    · intro hall p hp
      by_contra hmeet
      rw [Bool.not_eq_true] at hmeet
      have hhash := dedupHash_eq_of_not_disjoint (mem_literalsOf.mp hp).2 hq hmeet
      have hin : p ∈ bucket dedupHash (literalsOf mine) (dedupHash q) := by
        simp [bucket, hp, hhash]
      rw [hall p hin] at hmeet
      exact Bool.false_ne_true hmeet.symm
    · intro hall p hp
      exact hall p (List.mem_filter.mp hp).1
  have hsplit : mine.all (fun p => PhpType.disjoint p q) =
      ((restOf mine).all (fun p => PhpType.disjoint p q) &&
        (literalsOf mine).all fun p => PhpType.disjoint p q) := by
    rw [Bool.eq_iff_iff, Bool.and_eq_true]
    simp only [List.all_eq_true]
    constructor
    · intro hall
      exact ⟨fun p hp => hall p (mem_restOf.mp hp).1, fun p hp => hall p (mem_literalsOf.mp hp).1⟩
    · rintro ⟨hrest, hliterals⟩ p hp
      by_cases hliteral : p.asLiteral.isSome = true
      · exact hliterals p (mem_literalsOf.mpr ⟨hp, hliteral⟩)
      · exact hrest p (mem_restOf.mpr ⟨hp, by simpa using hliteral⟩)
  rw [hsplit]
  split
  · rename_i hq
    rw [hbucket hq]
  · rfl

/-- **A list with its literals hashed answers as the list itself.** -/
theorem disjointFrom_eq (a b : List ResolvedType) : disjointFrom a b = typesAreDisjoint a b := by
  unfold disjointFrom
  rw [Bool.eq_iff_iff, typesAreDisjoint_iff]
  split
  · rename_i hempty
    simp only [List.isEmpty_iff, Bool.or_eq_true] at hempty
    refine iff_of_false Bool.false_ne_true ?_
    rintro ⟨ha, hb, _⟩
    exact hempty.elim ha hb
  · rename_i hempty
    simp only [List.isEmpty_iff, Bool.or_eq_true, not_or] at hempty
    simp only [disjointFromMine_eq, allAlternatives, List.all_eq_true, List.mem_flatMap]
    constructor
    · intro hall
      refine ⟨hempty.1, hempty.2, ?_⟩
      intro x hx y hy
      rw [disjoint_eq_pairs, pairsDisjoint_iff]
      exact fun p hp q hq => hall y hy q hq p ⟨x, hx, hp⟩
    · rintro ⟨_, _, hall⟩ y hy q hq p ⟨x, hx, hp⟩
      have hxy := hall x hx y hy
      rw [disjoint_eq_pairs, pairsDisjoint_iff] at hxy
      exact hxy p hp q hq

end

end PhpantomLsp
