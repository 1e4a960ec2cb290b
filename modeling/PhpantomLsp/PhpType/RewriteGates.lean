import Mathlib.Logic.Relation
import PhpantomLsp.PhpType.ShapeKeys
import PhpantomLsp.PhpType.Substitute

/-!
# Gates before a rewrite

A rewrite of the whole tree clones it, so a gate asks first whether there is anything to
rewrite.  The rewrites go through the children `mapChildren` maps; the gates go through
the children of the node `kind` shows, which are others below a marker: an unsealed
shape shows what it widens to, a template parameter its bound.  A gate misses what
occurs only behind such a veil, and nothing else (`gatesComplete_iff`).
-/

namespace PhpantomLsp.PhpType

open Text Lib

/-! ## Class constants named as types -/

/-- `class_member_reference`: a class and a member, which may hold `*`. -/
def classMemberReference (text : String) : Option (String × String) :=
  match rsplitOnceColons text.toList with
  | some (className, member) =>
      if isClassNameSpelling className &&
          (!member.isEmpty &&
            member.all (fun c => isAsciiAlphanumeric c || c = '_' || c = '*' || isNonAscii c) &&
            !member.head?.any isAsciiDigit) then
        some (String.ofList className, String.ofList member)
      else none
  | none => none

/-- `is_class_member_reference`. -/
def isClassMemberReference (t : PhpType) : Bool :=
  match t.kind with
  | .raw text => (classMemberReference text).isSome
  | .named name => (classMemberReference name).isSome
  | _ => false

/-! ## Children -/

/-- The children of a node that is no marker. -/
def nodeChildren : PhpType → List PhpType
  | .nullable inner => [inner]
  | .union members => members
  | .intersection members => members
  | .generic _ args => args
  | .array elem => [elem]
  | .arrayShape entries => entries.map fun e => e.valueType
  | .objectShape entries => entries.map fun e => e.valueType
  | .callable _ params returnType => params.map (fun p => p.typeHint) ++ returnType.toList
  | .conditional _ _ condition thenType elseType _ => [condition, thenType, elseType]
  | .classString inner => inner.toList
  | .interfaceString inner => inner.toList
  | .keyOf inner => [inner]
  | .valueOf inner => [inner]
  | .indexAccess target index => [target, index]
  | _ => []

/-- The children `map_children` maps. -/
def children : PhpType → List PhpType
  | .benevolent inner => [inner]
  | .listShape entries => [.arrayShape entries]
  | .templateParam _ bound => [bound]
  | .unsealedShape shape key value _ _ => [shape, key, value]
  | .classNameLiteral className => [.classString (some (.named className))]
  | .enumCase enumName _ => [.named enumName]
  | .dqlBuilder className _ => [.named className]
  | t => nodeChildren t

/-- A node `kind` sees through. -/
def isMarker : PhpType → Bool
  | .benevolent _ => true
  | .listShape _ => true
  | .templateParam _ _ => true
  | .unsealedShape _ _ _ _ _ => true
  | .classNameLiteral _ => true
  | .enumCase _ _ => true
  | .dqlBuilder _ _ => true
  | _ => false

theorem kind_of_not_isMarker {t : PhpType} (h : isMarker t = false) : t.kind = t := by
  cases t <;> first | rfl | cases h

theorem children_of_not_isMarker {t : PhpType} (h : isMarker t = false) :
    children t = nodeChildren t := by
  cases t <;> first | rfl | cases h

theorem nodeChildren_of_isMarker {t : PhpType} (h : isMarker t = true) : nodeChildren t = [] := by
  cases t <;> first | rfl | cases h

theorem weight_lt_of_mem_nodeChildren {t u : PhpType} (h : u ∈ nodeChildren t) :
    weight u < weight t := by
  unfold nodeChildren at h
  split at h
  · rw [List.mem_singleton.mp h, weight]
    omega
  · have := weight_le_of_mem h
    rw [weight]
    omega
  · have := weight_le_of_mem h
    rw [weight]
    omega
  · have := weight_le_of_mem h
    rw [weight]
    omega
  · rw [List.mem_singleton.mp h, weight]
    omega
  · obtain ⟨e, he, rfl⟩ := List.mem_map.mp h
    have := weight_lt_of_mem_entries he
    rw [weight]
    omega
  · obtain ⟨e, he, rfl⟩ := List.mem_map.mp h
    have := weight_lt_of_mem_entries he
    rw [weight]
    omega
  · rw [weight]
    rcases List.mem_append.mp h with h | h
    · obtain ⟨p, hp, rfl⟩ := List.mem_map.mp h
      have := weight_lt_of_mem_params hp
      omega
    · rw [Option.mem_toList] at h
      rw [h, weightOption]
      omega
  · simp only [List.mem_cons, List.not_mem_nil, or_false] at h
    rw [weight]
    rcases h with rfl | rfl | rfl <;> omega
  · rw [Option.mem_toList] at h
    rw [h, weight, weightOption]
    omega
  · rw [Option.mem_toList] at h
    rw [h, weight, weightOption]
    omega
  · rw [List.mem_singleton.mp h, weight]
    omega
  · rw [List.mem_singleton.mp h, weight]
    omega
  · simp only [List.mem_cons, List.not_mem_nil, or_false] at h
    rw [weight]
    rcases h with rfl | rfl <;> omega
  · cases h

theorem weight_lt_of_mem_children {t u : PhpType} (h : u ∈ children t) : weight u < weight t := by
  by_cases hmarker : isMarker t = true
  · cases t with
    | unsealedShape shape key value widenedName widenedArgs =>
        simp only [children, List.mem_cons, List.not_mem_nil, or_false] at h
        rw [weight]
        rcases h with rfl | rfl | rfl <;> omega
    | benevolent | listShape | templateParam | classNameLiteral | enumCase | dqlBuilder =>
        rw [List.mem_singleton.mp h]
        simp only [weight, weightOption]
        omega
    | _ => cases hmarker
  · rw [Bool.not_eq_true] at hmarker
    rw [children_of_not_isMarker hmarker] at h
    exact weight_lt_of_mem_nodeChildren h

/-! ## Gates -/

/-- The shape the gates share: `hit` at the type itself, or below a child of the node
`kind` shows.  A source arm that answers at once is a `hit`, whatever its children. -/
def containsBody (hit recur : PhpType → Bool) (t : PhpType) : Bool :=
  hit t || (nodeChildren t.kind).any recur

def contains (hit : PhpType → Bool) (t : PhpType) : Bool :=
  guardedFix weight false (containsBody hit) t

theorem contains_iff {hit : PhpType → Bool} (t : PhpType) :
    contains hit t = true ↔
      hit t = true ∨ ∃ u ∈ nodeChildren t.kind, contains hit u = true := by
  have hbody : Decreases weight (containsBody hit) := by
    intro f g a h
    rw [containsBody, containsBody, any_congr_of_mem fun u hu =>
      h u (lt_of_lt_of_le (weight_lt_of_mem_nodeChildren hu) (weight_kind_le a))]
  rw [contains, guardedFix_eq hbody, containsBody, Bool.or_eq_true, List.any_eq_true]
  rfl

def isConditional : PhpType → Bool
  | .conditional _ _ _ _ _ _ => true
  | _ => false

/-- `contains_conditional`. -/
def containsConditional (t : PhpType) : Bool := contains (fun t => isConditional t.kind) t

/-- A type operator, or a class constant named as a type where those count. -/
def isUnevaluated (references : Bool) : PhpType → Bool
  | .keyOf _ => true
  | .valueOf _ => true
  | .indexAccess _ _ => true
  | .raw text => references && (classMemberReference text).isSome
  | .named name => references && (classMemberReference name).isSome
  | _ => false

/-- `contains_unevaluated`. -/
def containsUnevaluated (references : Bool) (t : PhpType) : Bool :=
  contains (fun t => isUnevaluated references t.kind) t

/-- `contains_unevaluated_operator`. -/
def containsUnevaluatedOperator (t : PhpType) : Bool := containsUnevaluated true t

/-- `contains_benevolent`. -/
def containsBenevolent (t : PhpType) : Bool := contains isBenevolent t

/-! ## Rewrites -/

section Rewrites

variable [DedupHasher]

def mapEntries (map : PhpType → PhpType) (entries : List ShapeEntry) : List ShapeEntry :=
  entries.map fun e => ⟨e.key, map e.valueType, e.optional⟩

/-- `as_list_shape`: what is no array shape any more is no list either. -/
def asListShape (inner : PhpType) : PhpType :=
  match inner with
  | .arrayShape entries => .listShape entries
  | _ => inner

/-- `map_children`. -/
def mapChildren (map : PhpType → PhpType) (t : PhpType) : PhpType :=
  match t with
  | .benevolent inner => mkBenevolent (map inner)
  | .classNameLiteral className => reclassName (map (.classString (some (.named className))))
  | .enumCase enumName caseName => remarked (.enumCase · caseName) (map (.named enumName))
  | .dqlBuilder className state => remarked (.dqlBuilder · state) (map (.named className))
  | .listShape entries => asListShape (map (.arrayShape entries))
  | .templateParam name bound => mkTemplateParam name (map bound)
  | .unsealedShape shape key value _ _ => mkUnsealedShape (map shape) (map key) (map value)
  | .nullable inner => .nullable (map inner)
  | .union members => mkUnion (members.map map)
  | .intersection members => .intersection (members.map map)
  | .generic name args => .generic name (args.map map)
  | .array elem => .array (map elem)
  | .arrayShape entries => .arrayShape (mapEntries map entries)
  | .objectShape entries => .objectShape (mapEntries map entries)
  | .callable kind params returnType =>
      .callable kind (params.map fun p => ⟨map p.typeHint, p.optional, p.variadic⟩)
        (returnType.map map)
  | .conditional param negated condition thenType elseType undecided =>
      .conditional param negated (map condition) (map thenType) (map elseType) undecided
  | .classString inner => mkClassString (inner.map map)
  | .interfaceString inner => mkInterfaceString (inner.map map)
  | .keyOf inner => .keyOf (map inner)
  | .valueOf inner => .valueOf (map inner)
  | .indexAccess target index => .indexAccess (map target) (map index)
  | t => t

/-- `map_children` maps the children and nothing else. -/
theorem mapChildren_congr {f g : PhpType → PhpType} {t : PhpType}
    (h : ∀ u ∈ children t, f u = g u) : mapChildren f t = mapChildren g t := by
  have hentries : ∀ entries : List ShapeEntry,
      (∀ u ∈ entries.map (fun e => e.valueType), f u = g u) →
        mapEntries f entries = mapEntries g entries := by
    intro entries hall
    refine List.map_congr_left fun e he => ?_
    rw [hall e.valueType (List.mem_map_of_mem he)]
  have hoption : ∀ inner : Option PhpType, (∀ u ∈ inner.toList, f u = g u) →
      inner.map f = inner.map g := by
    intro inner hall
    cases inner with
    | none => rfl
    | some u => rw [Option.map_some, Option.map_some, hall u (by simp)]
  unfold mapChildren
  cases t with
  | union members => exact congrArg mkUnion (List.map_congr_left h)
  | intersection members => exact congrArg PhpType.intersection (List.map_congr_left h)
  | generic name args => exact congrArg (PhpType.generic name) (List.map_congr_left h)
  | arrayShape entries => exact congrArg PhpType.arrayShape (hentries entries h)
  | objectShape entries => exact congrArg PhpType.objectShape (hentries entries h)
  | classString inner => exact congrArg mkClassString (hoption inner h)
  | interfaceString inner => exact congrArg mkInterfaceString (hoption inner h)
  | callable kind params returnType =>
      have hparams : params.map (fun p => (⟨f p.typeHint, p.optional, p.variadic⟩ : CallableParam)) =
          params.map fun p => ⟨g p.typeHint, p.optional, p.variadic⟩ := by
        refine List.map_congr_left fun p hp => ?_
        rw [h p.typeHint (List.mem_append_left _ (List.mem_map_of_mem hp))]
      simp only [hparams, hoption returnType fun u hu => h u (List.mem_append_right _ hu)]
  | conditional param negated condition thenType elseType undecided =>
      simp only [h condition (by simp [children, nodeChildren]),
        h thenType (by simp [children, nodeChildren]), h elseType (by simp [children, nodeChildren])]
  | indexAccess target index =>
      simp only [h target (by simp [children, nodeChildren]),
        h index (by simp [children, nodeChildren])]
  | unsealedShape shape key value widenedName widenedArgs =>
      simp only [h shape (by simp [children]), h key (by simp [children]),
        h value (by simp [children])]
  | nullable inner | array inner | keyOf inner | valueOf inner | benevolent inner =>
      simp only [h inner List.mem_cons_self]
  | listShape entries => simp only [h (.arrayShape entries) List.mem_cons_self]
  | templateParam name bound => simp only [h bound List.mem_cons_self]
  | classNameLiteral className =>
      simp only [h (.classString (some (.named className))) List.mem_cons_self]
  | enumCase enumName caseName => simp only [h (.named enumName) List.mem_cons_self]
  | dqlBuilder className state => simp only [h (.named className) List.mem_cons_self]
  | named | staticType | thisType | intRange | literal | raw => rfl

/-- Members pushed one by one unless they are there. -/
def pushDistinct (members : List PhpType) : List PhpType :=
  members.foldl (fun pushed member => if member ∈ pushed then pushed else pushed ++ [member]) []

/-- One round of `conditionals_as_branch_unions`. -/
def conditionalsAsBranchUnionsBody (recur : PhpType → PhpType) (t : PhpType) : PhpType :=
  if !containsConditional t then t
  else
    match t with
    | .conditional _ _ _ thenType elseType _ =>
        mkUnion (pushDistinct ((recur thenType).unionMembers ++ (recur elseType).unionMembers))
    | _ => mapChildren recur t

/-- `conditionals_as_branch_unions`. -/
def conditionalsAsBranchUnions (t : PhpType) : PhpType :=
  guardedFix weight PhpType.mixed conditionalsAsBranchUnionsBody t

/-- One round of `unevaluated_operators_as_bounds`. -/
def unevaluatedOperatorsAsBoundsBody (recur : PhpType → PhpType) (t : PhpType) : PhpType :=
  if !containsUnevaluatedOperator t then t
  else
    match t with
    | .keyOf _ => .named "array-key"
    | .valueOf _ => PhpType.mixed
    | .indexAccess _ _ => PhpType.mixed
    | .raw _ => if isClassMemberReference t then PhpType.mixed else mapChildren recur t
    | .named _ => if isClassMemberReference t then PhpType.mixed else mapChildren recur t
    | _ => mapChildren recur t

/-- `unevaluated_operators_as_bounds`. -/
def unevaluatedOperatorsAsBounds (t : PhpType) : PhpType :=
  guardedFix weight PhpType.mixed unevaluatedOperatorsAsBoundsBody t

/-- One round of `spell_benevolence`. -/
def spellBenevolenceBody (recur : PhpType → PhpType) (t : PhpType) : PhpType :=
  match t with
  | .benevolent inner => .generic "__benevolent" [recur inner]
  | _ => if containsBenevolent t then mapChildren recur t else t

/-- `spell_benevolence`. -/
def spellBenevolence (t : PhpType) : PhpType :=
  guardedFix weight PhpType.mixed spellBenevolenceBody t

theorem conditionalsAsBranchUnions_eq (t : PhpType) :
    conditionalsAsBranchUnions t =
      conditionalsAsBranchUnionsBody conditionalsAsBranchUnions t := by
  refine guardedFix_eq ?_ t
  intro f g a h
  have hmap := mapChildren_congr (f := f) (g := g) fun u hu => h u (weight_lt_of_mem_children hu)
  unfold conditionalsAsBranchUnionsBody
  cases a with
  | conditional param negated condition thenType elseType undecided =>
      simp only [h thenType (by rw [weight]; omega), h elseType (by rw [weight]; omega)]
  | _ => rw [hmap]

theorem unevaluatedOperatorsAsBounds_eq (t : PhpType) :
    unevaluatedOperatorsAsBounds t =
      unevaluatedOperatorsAsBoundsBody unevaluatedOperatorsAsBounds t := by
  refine guardedFix_eq ?_ t
  intro f g a h
  have hmap := mapChildren_congr (f := f) (g := g) fun u hu => h u (weight_lt_of_mem_children hu)
  unfold unevaluatedOperatorsAsBoundsBody
  rw [hmap]

theorem spellBenevolence_eq (t : PhpType) :
    spellBenevolence t = spellBenevolenceBody spellBenevolence t := by
  refine guardedFix_eq ?_ t
  intro f g a h
  unfold spellBenevolenceBody
  split
  · next inner => rw [h inner (by rw [weight]; omega)]
  · rw [mapChildren_congr fun u hu => h u (weight_lt_of_mem_children hu)]

end Rewrites

/-! ## What a rewrite reaches -/

/-- A type a `map_children` rewrite comes to. -/
def Reaches : PhpType → PhpType → Prop := Relation.ReflTransGen fun t u => u ∈ children t

/-- What `acts` picks out stands somewhere a rewrite comes to. -/
def Occurs (acts : PhpType → Bool) (t : PhpType) : Prop := ∃ u, Reaches t u ∧ acts u = true

/-- The children that are not behind a veil: an unsealed shape has those of what it
widens to in their place, a leniency marker on another marker has none, and the one on
the bound of a template parameter is passed over. -/
def openChildren : PhpType → List PhpType
  | .benevolent inner => if isMarker inner then [] else [inner]
  | .templateParam _ (.benevolent inner) => if isMarker inner then [] else [inner]
  | .unsealedShape _ _ _ _ widenedArgs => widenedArgs
  | t => children t

/-- What `acts` picks out stands somewhere in the open. -/
def OccursOpenly (acts : PhpType → Bool) (t : PhpType) : Prop :=
  ∃ u, Relation.ReflTransGen (fun t u => u ∈ openChildren t) t u ∧ acts u = true

theorem occursOpenly_iff {acts : PhpType → Bool} {t : PhpType} :
    OccursOpenly acts t ↔ acts t = true ∨ ∃ u ∈ openChildren t, OccursOpenly acts u := by
  constructor
  · rintro ⟨u, hpath, hu⟩
    rcases Relation.ReflTransGen.cases_head hpath with rfl | ⟨v, hv, hrest⟩
    · exact .inl hu
    · exact .inr ⟨v, hv, u, hrest, hu⟩
  · rintro (ht | ⟨v, hv, u, hrest, hu⟩)
    · exact ⟨t, .refl, ht⟩
    · exact ⟨u, .head hv hrest, hu⟩

theorem openChildren_of_not_isMarker {t : PhpType} (h : isMarker t = false) :
    openChildren t = nodeChildren t := by
  cases t <;> first | rfl | cases h

/-- What a gate asks at a node is whether the rewrite would act there, or on the node
shown in its place. -/
structure Asks (hit acts : PhpType → Bool) : Prop where
  plain : ∀ t, isMarker t = false → hit t = acts t
  acted : ∀ t, acts t = true → hit t = true
  shown : ∀ t, isMarker t = true → isMarker t.kind = false → acts t = false → hit t = acts t.kind
  veiled : ∀ t, isMarker t = true → isMarker t.kind = true → hit t = acts t
  bound : ∀ name inner, inner.isBenevolent = false → hit (.templateParam name inner) = hit inner
  silent : ∀ t, isMarker t = true → t.isBenevolent = false → acts t = false
  generic : ∀ name args, acts (.generic name args) = false

theorem asks_kind {acts : PhpType → Bool} (hmarker : ∀ t, isMarker t = true → acts t = false)
    (hgeneric : ∀ name args, acts (.generic name args) = false) :
    Asks (fun t => acts t.kind) acts where
  plain t h := by rw [kind_of_not_isMarker h]
  acted t h := by
    have hplain : isMarker t = false := by
      by_contra hm
      rw [Bool.not_eq_false] at hm
      rw [hmarker t hm] at h
      cases h
    rw [kind_of_not_isMarker hplain, h]
  shown t _ _ _ := rfl
  veiled t h hkind := by rw [hmarker t h, hmarker t.kind hkind]
  bound name inner _ := rfl
  silent t h _ := hmarker t h
  generic := hgeneric

theorem asks_isBenevolent : Asks isBenevolent isBenevolent where
  plain _ _ := rfl
  acted _ h := h
  shown t _ hkind hacts := by
    rw [hacts]
    symm
    cases hshown : t.kind <;> first | rfl | (rw [hshown] at hkind; cases hkind)
  veiled _ _ _ := rfl
  bound _ inner h := by rw [h]; rfl
  silent _ _ h := h
  generic _ _ := rfl

/-- A marker that shows one plain node hides nothing of it. -/
theorem contains_iff_of_shows {hit acts : PhpType → Bool} (hasks : Asks hit acts)
    {t node : PhpType} (hmarker : isMarker t = true) (hacts : acts t = false)
    (hkind : t.kind = node) (hnode : isMarker node = false) (hopen : openChildren t = [node])
    (ih : ∀ u, weight u < weight t → (contains hit u = true ↔ OccursOpenly acts u)) :
    contains hit t = true ↔ OccursOpenly acts t := by
  have hle : weight node ≤ weight t := hkind ▸ weight_kind_le t
  have hsome : OccursOpenly acts t ↔ OccursOpenly acts node := by
    rw [occursOpenly_iff, hacts, hopen]
    simp
  rw [hsome, occursOpenly_iff, openChildren_of_not_isMarker hnode, contains_iff, hkind,
    hasks.shown t hmarker (hkind ▸ hnode) hacts, hkind]
  refine or_congr_right (exists_congr fun u => and_congr_right fun hu => ?_)
  exact ih u (lt_of_lt_of_le (weight_lt_of_mem_nodeChildren hu) hle)

/-- A marker that shows another shows nothing. -/
theorem contains_iff_of_veiled {hit acts : PhpType → Bool} (hasks : Asks hit acts) {t : PhpType}
    (hmarker : isMarker t = true) (hkind : isMarker t.kind = true) (hopen : openChildren t = []) :
    contains hit t = true ↔ OccursOpenly acts t := by
  rw [contains_iff, occursOpenly_iff, hopen, nodeChildren_of_isMarker hkind,
    hasks.veiled t hmarker hkind]
  simp

/-- A gate answers for what stands in the open. -/
theorem contains_iff_occursOpenly {hit acts : PhpType → Bool} (hasks : Asks hit acts)
    (t : PhpType) : contains hit t = true ↔ OccursOpenly acts t := by
  induction t using measure_induction weight with
  | step t ih =>
      by_cases hacts : acts t = true
      · refine iff_of_true ?_ (occursOpenly_iff.mpr (.inl hacts))
        rw [contains_iff]
        exact .inl (hasks.acted t hacts)
      · rw [Bool.not_eq_true] at hacts
        by_cases hmarker : isMarker t = true
        · cases t with
          | listShape entries =>
              exact contains_iff_of_shows hasks hmarker hacts rfl rfl rfl ih
          | classNameLiteral className =>
              exact contains_iff_of_shows hasks hmarker hacts rfl rfl rfl ih
          | enumCase enumName caseName =>
              exact contains_iff_of_shows hasks hmarker hacts rfl rfl rfl ih
          | dqlBuilder className state =>
              exact contains_iff_of_shows hasks hmarker hacts rfl rfl rfl ih
          | benevolent inner =>
              cases hinner : isMarker inner with
              | true =>
                  refine contains_iff_of_veiled hasks hmarker hinner ?_
                  rw [openChildren, if_pos hinner]
              | false =>
                  refine contains_iff_of_shows hasks hmarker hacts rfl hinner ?_ ih
                  rw [openChildren, hinner]
                  rfl
          | unsealedShape shape key value widenedName widenedArgs =>
              have hnot : acts (.generic widenedName widenedArgs) = false := hasks.generic _ _
              rw [contains_iff, occursOpenly_iff, hacts, hasks.shown _ hmarker rfl hacts]
              refine or_congr (by rw [kind, hnot]) (exists_congr fun u => and_congr_right ?_)
              intro hu
              have hle := weight_le_of_mem (show u ∈ widenedArgs from hu)
              exact ih u (by rw [weight]; omega)
          | templateParam name bound =>
              by_cases hbound : bound.isBenevolent = true
              · cases bound with
                | benevolent inner =>
                    cases hinner : isMarker inner with
                    | true =>
                        refine contains_iff_of_veiled hasks hmarker hinner ?_
                        rw [openChildren, if_pos hinner]
                    | false =>
                        refine contains_iff_of_shows hasks hmarker hacts rfl hinner ?_ ih
                        rw [openChildren, hinner]
                        rfl
                | _ => cases hbound
              · rw [Bool.not_eq_true] at hbound
                -- the bound is shown as it shows itself
                have hsame : contains hit (.templateParam name bound) = true ↔
                    contains hit bound = true := by
                  rw [contains_iff, contains_iff bound, hasks.bound name bound hbound]
                  rfl
                have hopen : openChildren (.templateParam name bound) = [bound] := by
                  cases bound <;> first | rfl | cases hbound
                rw [hsame, occursOpenly_iff, hacts, hopen, ih bound (by rw [weight]; omega)]
                simp
          | _ => cases hmarker
        · rw [Bool.not_eq_true] at hmarker
          rw [contains_iff, occursOpenly_iff, hasks.plain t hmarker, kind_of_not_isMarker hmarker,
            openChildren_of_not_isMarker hmarker]
          exact or_congr_right (exists_congr fun u => and_congr_right fun hu =>
            ih u (weight_lt_of_mem_nodeChildren hu))

theorem asks_isConditional : Asks (fun t => isConditional t.kind) isConditional :=
  asks_kind (fun t h => by cases t <;> first | rfl | cases h) fun _ _ => rfl

theorem asks_isUnevaluated (references : Bool) :
    Asks (fun t => isUnevaluated references t.kind) (isUnevaluated references) :=
  asks_kind (fun t h => by cases t <;> first | rfl | cases h) fun _ _ => rfl

/-! ## Completeness -/

/-- A node behind which the gates do not see what stands below it. -/
def veils : PhpType → Bool
  | .benevolent inner => isMarker inner
  | .templateParam _ bound => bound.isBenevolent
  | .unsealedShape _ _ _ _ _ => true
  | _ => false

theorem openChildren_of_not_veils {t : PhpType} (h : veils t = false) :
    openChildren t = children t := by
  cases t with
  | benevolent inner =>
      have hinner : isMarker inner = false := h
      rw [openChildren, hinner]
      rfl
  | templateParam name bound => cases bound <;> first | rfl | cases h
  | unsealedShape => cases h
  | _ => rfl

/-- Where nothing veils, everything stands in the open. -/
theorem occursOpenly_of_occurs {acts : PhpType → Bool} {t : PhpType}
    (hveils : ∀ u, Reaches t u → veils u = false) (h : Occurs acts t) : OccursOpenly acts t := by
  obtain ⟨u, hpath, hu⟩ := h
  refine ⟨u, ?_, hu⟩
  induction hpath using Relation.ReflTransGen.head_induction_on with
  | refl => exact .refl
  | head hstep hrest ih =>
      refine .head ?_ (ih fun v hv => hveils v (.head hstep hv))
      rw [openChildren_of_not_veils (hveils _ .refl)]
      exact hstep

section Completeness

variable [DedupHasher]

/-- A gate that answers no leaves nothing a rewrite comes to that it would act on, and
the rewrite leaves the type alone. -/
def GateComplete (gate acts : PhpType → Bool) (rewrite : PhpType → PhpType) (t : PhpType) : Prop :=
  gate t = false → ¬ Occurs acts t ∧ rewrite t = t

structure GatesComplete (t : PhpType) : Prop where
  conditional : GateComplete containsConditional isConditional conditionalsAsBranchUnions t
  operator : GateComplete containsUnevaluatedOperator (isUnevaluated true)
    unevaluatedOperatorsAsBounds t
  benevolent : GateComplete containsBenevolent isBenevolent spellBenevolence t

/-- Everything of the kind that occurs in the type stands behind a veil. -/
def OnlyVeiled (acts : PhpType → Bool) (t : PhpType) : Prop :=
  Occurs acts t ∧ ¬ OccursOpenly acts t

theorem conditionalsAsBranchUnions_of_gate {t : PhpType} (h : containsConditional t = false) :
    conditionalsAsBranchUnions t = t := by
  rw [conditionalsAsBranchUnions_eq, conditionalsAsBranchUnionsBody.eq_def, h]
  rfl

theorem unevaluatedOperatorsAsBounds_of_gate {t : PhpType}
    (h : containsUnevaluatedOperator t = false) : unevaluatedOperatorsAsBounds t = t := by
  rw [unevaluatedOperatorsAsBounds_eq, unevaluatedOperatorsAsBoundsBody.eq_def, h]
  rfl

theorem spellBenevolence_of_gate {t : PhpType} (h : containsBenevolent t = false) :
    spellBenevolence t = t := by
  have hplain : isBenevolent t = false := by
    by_contra hmarked
    rw [Bool.not_eq_false] at hmarked
    rw [containsBenevolent, Bool.eq_false_iff] at h
    exact h ((contains_iff t).mpr (.inl hmarked))
  rw [spellBenevolence_eq, spellBenevolenceBody.eq_def]
  split
  · cases hplain
  · rw [h]
    rfl

omit [DedupHasher] in
theorem gateComplete_iff {hit acts : PhpType → Bool} (hasks : Asks hit acts)
    {rewrite : PhpType → PhpType} {t : PhpType}
    (hrewrite : contains hit t = false → rewrite t = t) :
    GateComplete (contains hit) acts rewrite t ↔ ¬ OnlyVeiled acts t := by
  have hgate := contains_iff_occursOpenly hasks t
  constructor
  · rintro h ⟨hoccurs, hopen⟩
    rw [← hgate, Bool.not_eq_true] at hopen
    exact (h hopen).1 hoccurs
  · intro h hfalse
    refine ⟨fun hoccurs => h ⟨hoccurs, ?_⟩, hrewrite hfalse⟩
    rw [← hgate, hfalse]
    exact Bool.false_ne_true

/-- The gates are complete for a type exactly when no conditional, operator or leniency
marker of it stands behind veils alone. -/
theorem gatesComplete_iff (t : PhpType) :
    GatesComplete t ↔ ¬ OnlyVeiled isConditional t ∧ ¬ OnlyVeiled (isUnevaluated true) t ∧
      ¬ OnlyVeiled isBenevolent t := by
  rw [← gateComplete_iff asks_isConditional conditionalsAsBranchUnions_of_gate,
    ← gateComplete_iff (asks_isUnevaluated true) unevaluatedOperatorsAsBounds_of_gate,
    ← gateComplete_iff asks_isBenevolent spellBenevolence_of_gate]
  exact ⟨fun h => ⟨h.conditional, h.operator, h.benevolent⟩, fun h => ⟨h.1, h.2.1, h.2.2⟩⟩

end Completeness

/-- `array{a: ($x is int ? A : B), ...<string, mixed>}`. -/
def conditionalEntry [DedupHasher] : PhpType :=
  mkUnsealedShape (.arrayShape [⟨"a", .conditional "$x" false PhpType.int (.named "A")
    (.named "B") .bothBranches, false⟩]) PhpType.string PhpType.mixed

theorem not_gatesComplete_conditionalEntry :
    ¬ @GatesComplete constantHasher (@conditionalEntry constantHasher) := by
  intro h
  have hgate : containsConditional (@conditionalEntry constantHasher) = false := by
    decide +kernel
  refine (@GatesComplete.conditional constantHasher _ h hgate).1 ⟨.conditional "$x" false PhpType.int (.named "A") (.named "B")
    .bothBranches, ?_, rfl⟩
  refine .head (b := .arrayShape [⟨"a", .conditional "$x" false PhpType.int (.named "A")
    (.named "B") .bothBranches, false⟩]) ?_ (.single ?_)
  · decide +kernel
  · decide +kernel

end PhpantomLsp.PhpType
