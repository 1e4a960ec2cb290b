import PhpantomLsp.Lib.Intervals
import PhpantomLsp.PhpType.Dedup
import PhpantomLsp.PhpType.Predicates
import PhpantomLsp.PhpType.ShapeKeys

/-!
# Unions

The passes that drop or merge the alternatives of a union, and the
constructor that runs them.  Each pass takes the alternatives and returns
them; none of them makes the list heavier, which is what lets a comparison
rewrite a type into a union and still descend.
-/

namespace PhpantomLsp

open Text Lib PhpType

/-! ## Non-empty refinements -/

/-- `absorb_empty_shape_into_non_empty_array`: `array{}` beside a
`non-empty-` array is the array itself. -/
def absorbEmptyShapeIntoNonEmptyArray (types : List PhpType) : List PhpType × Bool :=
  if types.any isEmptyArrayShape && types.any isNonEmptyArrayRefinement then
    let widened := types.map fun ty =>
      if ty.isNonEmptyArrayRefinement then ty.unrefinedBase.getD ty else ty
    (widened.filter fun ty => !ty.isEmptyArrayShape, true)
  else (types, false)

/-- Drop each `non-empty-` refinement whose base stands beside it. -/
def dropRefinementsOfMembers (types : List PhpType) : List PhpType :=
  types.filter fun ty =>
    match ty.unrefinedBase with
    | some base => !types.any fun other => equivalentForDedup other base
    | none => true

/-- `absorb_non_empty_refinements`, and whether it changed anything. -/
def absorbNonEmptyRefinements (types : List PhpType) : List PhpType × Bool :=
  if types.length < 2 || !types.any isNonEmptyRefinement then (types, false)
  else
    let (types, changed) := absorbEmptyShapeIntoNonEmptyArray types
    if types.length < 2 then (types, true)
    else
      let kept := dropRefinementsOfMembers types
      (kept, changed || kept.length != types.length)

/-! ## Integer ranges -/

/-- The bounds of a range; only `min` and `max` are unbounded. -/
def rangeInterval (min max : Atom) : Interval :=
  ⟨if eqIgnoreAsciiCase min "min" then none else some (parseRangeBound min),
    if eqIgnoreAsciiCase max "max" then none else some (parseRangeBound max)⟩

/-- The integers a member of a union stands for, if it is an integer type
that can be merged. -/
def intInterval (ty : PhpType) : Option Interval :=
  match ty.kind with
  | .intRange min max => some (rangeInterval min max)
  | .literal value => value.parseInt.map fun z => ⟨some z, some z⟩
  | .named _ => if ty.isInt then some ⟨none, none⟩ else none
  | _ => none

/-- The type of a merged interval. -/
def intervalType (i : Interval) : PhpType :=
  match i with
  | ⟨none, none⟩ => PhpType.int
  | ⟨some min, some max⟩ =>
      if min = max then literalInt (intToString min)
      else .intRange (intToString min) (intToString max)
  | ⟨some min, none⟩ => .intRange (intToString min) "max"
  | ⟨none, some max⟩ => .intRange "min" (intToString max)

def isIntRange (ty : PhpType) : Bool :=
  match ty.kind with
  | .intRange _ _ => true
  | _ => false

/-- `absorb_int_ranges`: merge the integer ranges of a union with what they
overlap or touch, in the place of the first integer member. -/
def absorbIntRanges (types : List PhpType) : List PhpType :=
  if types.length < 2 || !types.any isIntRange then types
  else
    let intervals := types.filterMap intInterval
    let merged := mergeIntervals intervals
    if merged.length = intervals.length then types
    else
      let first := types.findIdx fun ty => (intInterval ty).isSome
      let others := types.filter fun ty => (intInterval ty).isNone
      others.take first ++ merged.map intervalType ++ others.drop first

/-! ## Shapes -/

/-- `plain_shape_entries`: the entries of a sealed shape that lists at least
one, all under plain keys. -/
def plainShapeEntries (ty : PhpType) : Option (List ShapeEntry) :=
  match ty.kind with
  | .arrayShape entries =>
      if !entries.isEmpty && entries.all (fun entry => entry.key.any isPlainKey) then some entries
      else none
  | _ => none

/-- The keys a plain shape lists. -/
def plainShapeKeys (ty : PhpType) : Option (List String) :=
  (plainShapeEntries ty).map fun entries => entries.filterMap (·.key)

/-- `ShapeKeyIndex`: the members that are plain shapes, by the keys they
list, and the other members. -/
structure ShapeKeyIndex where
  byKey : List (String × Nat)
  others : List Nat
  built : Bool

/-- `ShapeKeyIndex::new`.  Only a long list is indexed. -/
def ShapeKeyIndex.new (members : List PhpType) : ShapeKeyIndex :=
  if members.length < 16 then ⟨[], [], false⟩
  else
    let numbered := members.zipIdx
    ⟨numbered.flatMap fun (member, at_) =>
        ((plainShapeKeys member).getD []).map fun key => (key, at_),
      (numbered.filter fun (member, _) => (plainShapeEntries member).isNone).map (·.2),
      true⟩

/-- `ShapeKeyIndex::candidates`: the positions of the members `member` could
nest in, or `none` when every member has to be asked. -/
def ShapeKeyIndex.candidates (index : ShapeKeyIndex) (member : PhpType) : Option (List Nat) :=
  if index.built then
    match plainShapeKeys member with
    | some (first :: _) =>
        some (index.others ++ (index.byKey.filter fun (key, _) => key == first).map (·.2))
    | _ => none
  else none

/-- The position of the entry under a key. -/
def keyPosition (keys : List String) (key : String) : Option Nat := keys.findIdx? (· == key)

/-- The comparison of two shapes by their keys: each entry of `entries` has to
be one `wider` allows, where `valueFits` compares the values, and each entry
`wider` requires has to be there. -/
def shapeEntriesContainedIn (valueFits : PhpType → PhpType → Bool)
    (entries : List ShapeEntry) (keys : List String) (wider : List ShapeEntry)
    (widerKeys : List String) : Bool :=
  ((entries.zip keys).all fun (entry, key) =>
    ((keyPosition widerKeys key).bind (wider[·]?)).any fun other =>
      (!entry.optional || other.optional) && valueFits entry.valueType other.valueType) &&
  (wider.zip widerKeys).all fun (entry, key) => entry.optional || key ∈ keys

/-- `shape_exactly_contained_in`, where `keysRuleOut` may settle the answer
by the keys alone. -/
def shapeExactlyContainedInBy (keysRuleOut : List ShapeEntry → List ShapeEntry → Bool)
    (entries : List ShapeEntry) (isList : Bool) (supertype : PhpType) : Bool :=
  match supertype.kind with
  | .arrayShape wider =>
      if (supertype.isListShape && !isList) || keysRuleOut entries wider then false
      else
        match runtimeShapeKeys entries, runtimeShapeKeys wider with
        | some keys, some widerKeys =>
            shapeEntriesContainedIn
              (fun value wider => wider.isMixed || equivalentForDedup value wider)
              entries keys wider widerKeys
        | _, _ => false
  | _ => false

/-- `shape_exactly_contained_in`. -/
def shapeExactlyContainedIn (entries : List ShapeEntry) (isList : Bool) (supertype : PhpType) :
    Bool :=
  shapeExactlyContainedInBy keysRuleOutNesting entries isList supertype

/-- The comparison of two members by `shape_exactly_contained_in`. -/
def shapeMemberContainedIn (contained : List ShapeEntry → Bool → PhpType → Bool)
    (ty other : PhpType) : Bool :=
  match ty.kind with
  | .arrayShape entries => contained entries ty.isListShape other
  | _ => false

/-- Whether the member at `index` is a shape another member covers; of two
that cover each other the first one stays. -/
def shapeSubsumed (contained : List ShapeEntry → Bool → PhpType → Bool)
    (index : Nat) (ty : PhpType) (otherIndex : Nat) (other : PhpType) : Bool :=
  otherIndex ≠ index && shapeMemberContainedIn contained ty other &&
    (!shapeMemberContainedIn contained other ty || otherIndex < index)

def isShape (ty : PhpType) : Bool :=
  match ty.kind with
  | .arrayShape _ => true
  | _ => false

/-- `absorb_subsumed_shapes`: drop a shape another shape covers value for
value. -/
def absorbSubsumedShapes (types : List PhpType) : List PhpType :=
  if types.length < 2 || !types.any isShape then types
  else
    let shapes := ShapeKeyIndex.new types
    retainUndominated
      (fun _ ty => (shapes.candidates ty).getD (List.range types.length))
      (shapeSubsumed shapeExactlyContainedIn) types

/-! ## Exact values -/

/-- `absorb_exact_values`: drop each exact value that stands beside the wider
type it reads as. -/
def absorbExactValues (types : List PhpType) : List PhpType :=
  let wider := (types.filter fun ty => !ty.isExactValueMarker).map kind
  types.filter fun ty => !ty.isExactValueMarker || !(ty.kind ∈ wider)

/-! ## The constructor -/

/-- A union of the members, unless only one is left. -/
def unionOfLeft (members : List PhpType) : PhpType :=
  match members with
  | [member] => member
  | _ => .union members

section

variable [DedupHasher]

/-- The dedup of `PhpType::union`: a short list is only hashed when it names a
member twice. -/
def dedupUnionMembers (members : List PhpType) : List PhpType :=
  if 16 < members.length || hasDuplicateMembers members then dedupTypes members else members

/-- The passes of `PhpType::union` after the first one. -/
def absorbUnionMembersBy (absorbShapes : List PhpType → List PhpType) (members : List PhpType) :
    List PhpType :=
  absorbExactValues (absorbShapes (absorbIntRanges members))

/-- `PhpType::union`, with a pass that drops shapes. -/
def mkUnionBy (absorbShapes : List PhpType → List PhpType) (members : List PhpType) : PhpType :=
  match members with
  | [member] => member
  | _ =>
      match absorbNonEmptyRefinements members with
      | ([member], true) => member
      | (members, _) =>
          match absorbUnionMembersBy absorbShapes members with
          | [member] => member
          | members => unionOfLeft (dedupUnionMembers members)

/-- `PhpType::union`. -/
def mkUnion (members : List PhpType) : PhpType := mkUnionBy absorbSubsumedShapes members

end

/-! ## No pass makes the alternatives heavier -/

theorem weightList_filter_add (p : PhpType → Bool) (types : List PhpType) :
    weightList (types.filter p) + weightList (types.filter fun ty => !p ty) = weightList types := by
  induction types with
  | nil => rfl
  | cons ty rest ih =>
      by_cases h : p ty = true
      · simp only [List.filter_cons, h, if_true, weightList, Bool.not_true, Bool.false_eq_true,
          if_false]
        omega
      · simp only [List.filter_cons, h, weightList, Bool.not_false, Bool.false_eq_true, if_false,
          if_true]
        omega

theorem weightList_filter_le (p : PhpType → Bool) (types : List PhpType) :
    weightList (types.filter p) ≤ weightList types :=
  weightList_sublist List.filter_sublist

theorem length_le_weightList (types : List PhpType) : types.length ≤ weightList types := by
  induction types with
  | nil => simp [weightList]
  | cons ty rest ih =>
      have := weight_pos ty
      simp only [List.length_cons, weightList]
      omega

theorem weightList_map_le {f : PhpType → PhpType} {types : List PhpType}
    (h : ∀ ty ∈ types, (f ty).weight ≤ ty.weight) :
    weightList (types.map f) ≤ weightList types := by
  induction types with
  | nil => simp [weightList]
  | cons ty rest ih =>
      have hty := h ty (by simp)
      have hrest := ih (fun u hu => h u (List.mem_cons_of_mem _ hu))
      simp only [List.map_cons, weightList]
      omega

theorem length_of_eqIgnoreAsciiCase {a b : String} (h : eqIgnoreAsciiCase a b = true) :
    a.toList.length = b.toList.length := by
  have := congrArg (fun s => s.toList.length) (eqIgnoreAsciiCase_iff.mp h)
  simpa using this

/-- The name of an array keeps its weight when it loses its prefix: no such
name is long enough to leave `array-key`. -/
theorem nameWeight_nonEmptyBaseName {name base : Atom} (hname : isArrayLikeName name = true)
    (hbase : nonEmptyBaseName name = some base) : nameWeight base ≤ nameWeight name := by
  have hpos := nameWeight_pos name
  have hlength : name.toList.length ≤ 15 := by
    have hlower : name.toList.length = (asciiLower name).toList.length := by simp
    simp only [isArrayLikeName, decide_eq_true_eq, List.mem_cons, List.not_mem_nil,
      or_false] at hname
    rw [hlower]
    rcases hname with h | h | h | h | h <;> rw [h] <;> decide
  have hnot : ¬ eqIgnoreAsciiCase base "array-key" = true := by
    intro h
    have hlen := length_of_eqIgnoreAsciiCase h
    unfold nonEmptyBaseName at hbase
    dsimp only at hbase
    split at hbase
    · obtain rfl := Option.some.inj hbase
      have hkey : "array-key".toList.length = 9 := by decide
      rw [hkey] at hlen
      simp only [String.toList_ofList, List.length_drop] at hlen
      omega
    · exact absurd hbase (by simp)
  have hone : nameWeight base = 1 := if_neg hnot
  omega

theorem weight_unrefinedBase_le {ty base : PhpType} (hty : ty.isNonEmptyArrayRefinement = true)
    (hbase : ty.unrefinedBase = some base) : base.weight ≤ ty.weight := by
  have hkind := ty.weight_kind_le
  simp only [isNonEmptyArrayRefinement, Bool.and_eq_true] at hty
  have hlike := hty.2
  rw [isArrayLike_eq, isArrayLikeBody] at hlike
  unfold unrefinedBase at hbase
  split at hbase
  · rename_i name heq
    rw [heq] at hkind hlike
    obtain ⟨b, hb, rfl⟩ := Option.map_eq_some_iff.mp hbase
    have := nameWeight_nonEmptyBaseName hlike hb
    simp only [weight] at *
    omega
  · rename_i name args heq
    rw [heq] at hkind
    obtain ⟨b, hb, rfl⟩ := Option.map_eq_some_iff.mp hbase
    simpa only [weight] using hkind
  · exact absurd hbase (by simp)

theorem weightList_absorbEmptyShape_le (types : List PhpType) :
    weightList (absorbEmptyShapeIntoNonEmptyArray types).1 ≤ weightList types := by
  unfold absorbEmptyShapeIntoNonEmptyArray
  split
  · refine le_trans (weightList_filter_le _ _) (weightList_map_le (fun ty _ => ?_))
    split
    · rename_i hty
      cases hbase : ty.unrefinedBase with
      | none => exact le_refl _
      | some base => exact weight_unrefinedBase_le hty hbase
    · exact le_refl _
  · exact le_refl _

theorem weightList_absorbNonEmptyRefinements_le (types : List PhpType) :
    weightList (absorbNonEmptyRefinements types).1 ≤ weightList types := by
  unfold absorbNonEmptyRefinements
  split
  · exact le_refl _
  · have hshape := weightList_absorbEmptyShape_le types
    dsimp only
    split
    · exact hshape
    · exact le_trans (weightList_filter_le _ _) hshape

theorem weight_intervalType (i : Interval) : (intervalType i).weight = 1 := by
  have hint : nameWeight "int" = 1 := by decide
  unfold intervalType
  split
  · exact hint
  · split <;> rfl
  · rfl
  · rfl

theorem weightList_map_intervalType (intervals : List Interval) :
    weightList (intervals.map intervalType) = intervals.length := by
  induction intervals with
  | nil => rfl
  | cons i rest ih =>
      simp only [List.map_cons, weightList, weight_intervalType, ih, List.length_cons]
      omega

theorem length_filterMap_intInterval (types : List PhpType) :
    (types.filterMap intInterval).length =
      (types.filter fun ty => !(intInterval ty).isNone).length := by
  induction types with
  | nil => rfl
  | cons ty rest ih => cases h : intInterval ty <;> simp [h, ih]

theorem weightList_absorbIntRanges_le (types : List PhpType) :
    weightList (absorbIntRanges types) ≤ weightList types := by
  unfold absorbIntRanges
  split
  · exact le_refl _
  · dsimp only
    split
    · exact le_refl _
    · have hsplit := weightList_filter_add (fun ty => (intInterval ty).isNone) types
      have hcount := length_filterMap_intInterval types
      have hmerged := length_mergeIntervals_le (types.filterMap intInterval)
      have hlength := length_le_weightList (types.filter fun ty => !(intInterval ty).isNone)
      have htake := weightList_append
        ((types.filter fun ty => (intInterval ty).isNone).take
          (types.findIdx fun ty => (intInterval ty).isSome))
        ((types.filter fun ty => (intInterval ty).isNone).drop
          (types.findIdx fun ty => (intInterval ty).isSome))
      rw [List.take_append_drop] at htake
      simp only [weightList_append, weightList_map_intervalType]
      omega

theorem absorbSubsumedShapes_sublist (types : List PhpType) :
    (absorbSubsumedShapes types).Sublist types := by
  unfold absorbSubsumedShapes
  split
  · exact List.Sublist.refl _
  · exact retainUndominated_sublist _ _ _

theorem absorbExactValues_sublist (types : List PhpType) :
    (absorbExactValues types).Sublist types :=
  List.filter_sublist

theorem weightList_absorbUnionMembersBy_le (members : List PhpType) :
    weightList (absorbUnionMembersBy absorbSubsumedShapes members) ≤ weightList members :=
  le_trans (weightList_sublist (absorbExactValues_sublist _))
    (le_trans (weightList_sublist (absorbSubsumedShapes_sublist _))
      (weightList_absorbIntRanges_le members))

theorem weight_unionOfLeft_le (members : List PhpType) :
    (unionOfLeft members).weight ≤ 1 + weightList members := by
  unfold unionOfLeft
  split
  · simp only [weightList]
    omega
  · simp only [weight]
    omega

theorem unionOfLeft_of_length {members : List PhpType} (h : 2 ≤ members.length) :
    unionOfLeft members = .union members := by
  unfold unionOfLeft
  split
  · simp at h
  · rfl

section

variable [DedupHasher]

theorem dedupTypes_sublist (types : List PhpType) : (dedupTypes types).Sublist types :=
  bucketRetain_sublist _ _ _ _

theorem dedupUnionMembers_sublist (members : List PhpType) :
    (dedupUnionMembers members).Sublist members := by
  unfold dedupUnionMembers
  split
  · exact dedupTypes_sublist members
  · exact List.Sublist.refl _

/-- A union weighs no more than its members and the node that joins them. -/
theorem weight_mkUnion_le (members : List PhpType) :
    (mkUnion members).weight ≤ 1 + weightList members := by
  have hrefined := weightList_absorbNonEmptyRefinements_le members
  unfold mkUnion mkUnionBy
  split
  · simp only [weightList]
    omega
  · split
    · rename_i heq
      rw [heq] at hrefined
      simp only [weightList] at hrefined
      omega
    · rename_i refined changed _ heq
      rw [heq] at hrefined
      have habsorbed := weightList_absorbUnionMembersBy_le refined
      dsimp only at hrefined ⊢
      split
      · rename_i habs
        rw [habs] at habsorbed
        simp only [weightList] at habsorbed
        omega
      · have hleft := weight_unionOfLeft_le
          (dedupUnionMembers (absorbUnionMembersBy absorbSubsumedShapes refined))
        have hdedup := weightList_sublist
          (dedupUnionMembers_sublist (absorbUnionMembersBy absorbSubsumedShapes refined))
        omega

/-! ## What holds of the members holds of their union -/

/-- The passes only drop members, unrefine them, or merge integer types into
other ones. -/
theorem mkUnionBy_of_members {P : PhpType → Prop} (hinterval : ∀ i, P (intervalType i))
    (hbase : ∀ t base, P t → t.isNonEmptyArrayRefinement = true → t.unrefinedBase = some base →
      P base)
    (hunion : ∀ members, (∀ m ∈ members, P m) → P (.union members))
    {absorb : List PhpType → List PhpType} (habsorb : ∀ ts, (absorb ts).Sublist ts)
    {ts : List PhpType} (h : ∀ t ∈ ts, P t) : P (mkUnionBy absorb ts) := by
  have hempty : ∀ t ∈ (absorbEmptyShapeIntoNonEmptyArray ts).1, P t := by
    unfold absorbEmptyShapeIntoNonEmptyArray
    split
    · intro t ht
      obtain ⟨ty, hty, rfl⟩ := List.mem_map.mp (List.mem_filter.mp ht).1
      split
      · rename_i hrefined
        cases hunrefined : ty.unrefinedBase with
        | none => exact h ty hty
        | some base => exact hbase ty base (h ty hty) hrefined hunrefined
      · exact h ty hty
    · exact h
  have hrefined : ∀ t ∈ (absorbNonEmptyRefinements ts).1, P t := by
    unfold absorbNonEmptyRefinements
    split
    · exact h
    · dsimp only
      split
      · exact hempty
      · intro t ht
        exact hempty t (List.filter_sublist.subset ht)
  have hranges : ∀ {ts : List PhpType}, (∀ t ∈ ts, P t) → ∀ t ∈ absorbIntRanges ts, P t := by
    intro ts h
    unfold absorbIntRanges
    split
    · exact h
    · dsimp only
      split
      · exact h
      · have hothers : ∀ t ∈ ts.filter fun ty => (intInterval ty).isNone, P t :=
          fun t ht => h t (List.filter_sublist.subset ht)
        intro t ht
        rcases List.mem_append.mp ht with ht | ht
        · rcases List.mem_append.mp ht with ht | ht
          · exact hothers t (List.take_subset _ _ ht)
          · obtain ⟨i, -, rfl⟩ := List.mem_map.mp ht
            exact hinterval i
        · exact hothers t (List.drop_subset _ _ ht)
  have hleft : ∀ {ts : List PhpType}, (∀ t ∈ ts, P t) → P (unionOfLeft ts) := by
    intro ts h
    unfold unionOfLeft
    split
    · exact h _ (by simp)
    · exact hunion ts h
  unfold mkUnionBy
  split
  · exact h _ (by simp)
  · split
    · rename_i heq
      rw [heq] at hrefined
      exact hrefined _ (by simp)
    · rename_i members changed _ heq
      rw [heq] at hrefined
      have habsorbed : ∀ t ∈ absorbUnionMembersBy absorb members, P t := fun t ht =>
        hranges hrefined t ((habsorb _).subset ((absorbExactValues_sublist _).subset ht))
      split
      · rename_i heq
        rw [heq] at habsorbed
        exact habsorbed _ (by simp)
      · exact hleft fun t ht => habsorbed t ((dedupUnionMembers_sublist _).subset ht)

/-! ## Members no pass touches -/

/-- A union of members that no pass touches is the union of the members. -/
theorem mkUnion_eq_union {members : List PhpType} (hlength : 2 ≤ members.length)
    (hrefined : members.any isNonEmptyRefinement = false)
    (hranges : members.any isIntRange = false) (hshapes : members.any isShape = false)
    (hexact : absorbExactValues members = members)
    (hdedup : dedupUnionMembers members = members) : mkUnion members = .union members := by
  have hfirst : absorbNonEmptyRefinements members = (members, false) := by
    simp [absorbNonEmptyRefinements, hrefined]
  have hpasses : absorbUnionMembersBy absorbSubsumedShapes members = members := by
    simp [absorbUnionMembersBy, absorbIntRanges, hranges, absorbSubsumedShapes, hshapes, hexact]
  unfold mkUnion mkUnionBy
  split
  · simp at hlength
  · rw [hfirst]
    split
    · rename_i heq
      exact absurd (congrArg Prod.snd heq) (by simp)
    · rename_i heq
      obtain ⟨rfl, rfl⟩ := Prod.mk.inj heq
      rw [hpasses]
      split
      · simp at hlength
      · rw [hdedup, unionOfLeft_of_length hlength]

theorem dedupTypes_dedupTypes (types : List PhpType) :
    dedupTypes (dedupTypes types) = dedupTypes types :=
  bucketRetain_eq_self _ _ (by simp) (bucketRetain_pairwise _ _ [] types).1

theorem dedupUnionMembers_dedupTypes (types : List PhpType) :
    dedupUnionMembers (dedupTypes types) = dedupTypes types := by
  unfold dedupUnionMembers
  split
  · exact dedupTypes_dedupTypes types
  · rfl

end

end PhpantomLsp
