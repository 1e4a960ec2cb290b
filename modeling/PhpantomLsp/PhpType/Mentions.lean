import PhpantomLsp.PhpType.Substitute

/-!
# The names a type mentions

A type mentions a name where the name is a node of it, the base of a generic, a
template parameter, or the class of a marker, and where a shape has the key
`Foo::class`.  The subject of a conditional is not a mention, and neither is the
class `static` is bounded by.  What the constructors and the type operators make of
types mentions nothing they do not, except built-in types.
-/

namespace PhpantomLsp.PhpType

open Text Lib

/-! ## Mentions -/

/-- Whether a shape key is the name of a class `inKey` holds of. -/
def mentionsKey (inKey : Atom → Bool) (key : Option String) : Bool :=
  (key.bind classNameKey).any inKey

mutual

/-- Whether a type mentions a name `inType` holds of, or has a key that is the name of
a class `inKey` holds of. -/
def mentions (inType inKey : Atom → Bool) : PhpType → Bool
  | .named name => inType name
  | .staticType _ => false
  | .thisType _ => false
  | .nullable inner => mentions inType inKey inner
  | .union members => mentionsList inType inKey members
  | .intersection members => mentionsList inType inKey members
  | .generic name args => inType name || mentionsList inType inKey args
  | .array elem => mentions inType inKey elem
  | .arrayShape entries => mentionsEntries inType inKey entries
  | .objectShape entries => mentionsEntries inType inKey entries
  | .callable _ params returnType =>
      mentionsParams inType inKey params || mentionsOption inType inKey returnType
  | .conditional _ _ condition thenType elseType _ =>
      mentions inType inKey condition || mentions inType inKey thenType ||
        mentions inType inKey elseType
  | .classString inner => mentionsOption inType inKey inner
  | .interfaceString inner => mentionsOption inType inKey inner
  | .keyOf inner => mentions inType inKey inner
  | .valueOf inner => mentions inType inKey inner
  | .intRange _ _ => false
  | .indexAccess target index => mentions inType inKey target || mentions inType inKey index
  | .literal _ => false
  | .raw text => inType text
  | .benevolent inner => mentions inType inKey inner
  | .listShape entries => mentionsEntries inType inKey entries
  | .templateParam name bound => inType name || mentions inType inKey bound
  | .unsealedShape shape key value widenedName widenedArgs =>
      mentions inType inKey shape || mentions inType inKey key || mentions inType inKey value ||
        inType widenedName || mentionsList inType inKey widenedArgs
  | .classNameLiteral className => inType className
  | .enumCase enumName _ => inType enumName
  | .dqlBuilder className _ => inType className
termination_by structural t => t

def mentionsList (inType inKey : Atom → Bool) : List PhpType → Bool
  | [] => false
  | t :: ts => mentions inType inKey t || mentionsList inType inKey ts
termination_by structural ts => ts

def mentionsOption (inType inKey : Atom → Bool) : Option PhpType → Bool
  | none => false
  | some t => mentions inType inKey t
termination_by structural t => t

def mentionsEntries (inType inKey : Atom → Bool) : List (ShapeEntryOf PhpType) → Bool
  | [] => false
  | ⟨key, valueType, _⟩ :: rest =>
      mentionsKey inKey key || mentions inType inKey valueType || mentionsEntries inType inKey rest
termination_by structural entries => entries

def mentionsParams (inType inKey : Atom → Bool) : List (CallableParamOf PhpType) → Bool
  | [] => false
  | ⟨typeHint, _, _⟩ :: rest => mentions inType inKey typeHint || mentionsParams inType inKey rest
termination_by structural params => params

end

/-- A type that mentions none of the names. -/
def Avoids (inType inKey : Atom → Bool) (t : PhpType) : Prop := mentions inType inKey t = false

instance (inType inKey : Atom → Bool) (t : PhpType) : Decidable (Avoids inType inKey t) :=
  inferInstanceAs (Decidable (_ = _))

/-- An entry whose key and value avoid the names. -/
def AvoidsEntry (inType inKey : Atom → Bool) (entry : ShapeEntry) : Prop :=
  mentionsKey inKey entry.key = false ∧ Avoids inType inKey entry.valueType

section Avoids

variable {p k : Atom → Bool}

theorem mentionsList_eq_false {ts : List PhpType} :
    mentionsList p k ts = false ↔ ∀ t ∈ ts, Avoids p k t := by
  induction ts with
  | nil => simp [mentionsList]
  | cons t ts ih => simp [mentionsList, Avoids, ih]

theorem mentionsOption_eq_false {t : Option PhpType} :
    mentionsOption p k t = false ↔ ∀ u ∈ t, Avoids p k u := by
  cases t <;> simp [mentionsOption, Avoids]

theorem mentionsEntries_eq_false {entries : List ShapeEntry} :
    mentionsEntries p k entries = false ↔ ∀ e ∈ entries, AvoidsEntry p k e := by
  induction entries with
  | nil => simp [mentionsEntries]
  | cons e es ih => simp [mentionsEntries, AvoidsEntry, Avoids, ih]

theorem mentionsParams_eq_false {params : List CallableParam} :
    mentionsParams p k params = false ↔ ∀ q ∈ params, Avoids p k q.typeHint := by
  induction params with
  | nil => simp [mentionsParams]
  | cons q qs ih => simp [mentionsParams, Avoids, ih]

@[simp] theorem avoids_named {name : Atom} : Avoids p k (.named name) ↔ p name = false := Iff.rfl

@[simp] theorem avoids_nullable {t : PhpType} : Avoids p k (.nullable t) ↔ Avoids p k t := Iff.rfl

@[simp] theorem avoids_union {ts : List PhpType} :
    Avoids p k (.union ts) ↔ ∀ t ∈ ts, Avoids p k t := mentionsList_eq_false

@[simp] theorem avoids_intersection {ts : List PhpType} :
    Avoids p k (.intersection ts) ↔ ∀ t ∈ ts, Avoids p k t := mentionsList_eq_false

@[simp] theorem avoids_generic {name : Atom} {args : List PhpType} :
    Avoids p k (.generic name args) ↔ p name = false ∧ ∀ t ∈ args, Avoids p k t := by
  rw [← mentionsList_eq_false]
  exact Bool.or_eq_false_iff

@[simp] theorem avoids_array {t : PhpType} : Avoids p k (.array t) ↔ Avoids p k t := Iff.rfl

@[simp] theorem avoids_arrayShape {entries : List ShapeEntry} :
    Avoids p k (.arrayShape entries) ↔ ∀ e ∈ entries, AvoidsEntry p k e := mentionsEntries_eq_false

@[simp] theorem avoids_objectShape {entries : List ShapeEntry} :
    Avoids p k (.objectShape entries) ↔ ∀ e ∈ entries, AvoidsEntry p k e := mentionsEntries_eq_false

@[simp] theorem avoids_listShape {entries : List ShapeEntry} :
    Avoids p k (.listShape entries) ↔ ∀ e ∈ entries, AvoidsEntry p k e := mentionsEntries_eq_false

@[simp] theorem avoids_callable {kind : Atom} {params : List CallableParam}
    {returnType : Option PhpType} :
    Avoids p k (.callable kind params returnType) ↔
      (∀ q ∈ params, Avoids p k q.typeHint) ∧ ∀ t ∈ returnType, Avoids p k t := by
  rw [← mentionsParams_eq_false, ← mentionsOption_eq_false]
  exact Bool.or_eq_false_iff

@[simp] theorem avoids_conditional {param : Atom} {negated : Bool} {c t e : PhpType}
    {undecided : UndecidedReading} :
    Avoids p k (.conditional param negated c t e undecided) ↔
      (Avoids p k c ∧ Avoids p k t) ∧ Avoids p k e := by
  simp only [Avoids, mentions, Bool.or_eq_false_iff]

@[simp] theorem avoids_classString {t : Option PhpType} :
    Avoids p k (.classString t) ↔ ∀ u ∈ t, Avoids p k u := mentionsOption_eq_false

@[simp] theorem avoids_interfaceString {t : Option PhpType} :
    Avoids p k (.interfaceString t) ↔ ∀ u ∈ t, Avoids p k u := mentionsOption_eq_false

@[simp] theorem avoids_keyOf {t : PhpType} : Avoids p k (.keyOf t) ↔ Avoids p k t := Iff.rfl

@[simp] theorem avoids_valueOf {t : PhpType} : Avoids p k (.valueOf t) ↔ Avoids p k t := Iff.rfl

@[simp] theorem avoids_indexAccess {t u : PhpType} :
    Avoids p k (.indexAccess t u) ↔ Avoids p k t ∧ Avoids p k u := Bool.or_eq_false_iff

@[simp] theorem avoids_raw {text : String} : Avoids p k (.raw text) ↔ p text = false := Iff.rfl

@[simp] theorem avoids_benevolent {t : PhpType} : Avoids p k (.benevolent t) ↔ Avoids p k t :=
  Iff.rfl

@[simp] theorem avoids_templateParam {name : Atom} {t : PhpType} :
    Avoids p k (.templateParam name t) ↔ p name = false ∧ Avoids p k t := Bool.or_eq_false_iff

@[simp] theorem avoids_unsealedShape {s key v : PhpType} {name : Atom} {args : List PhpType} :
    Avoids p k (.unsealedShape s key v name args) ↔
      (((Avoids p k s ∧ Avoids p k key) ∧ Avoids p k v) ∧ p name = false) ∧
        ∀ t ∈ args, Avoids p k t := by
  rw [← mentionsList_eq_false]
  simp only [Avoids, mentions, Bool.or_eq_false_iff]

@[simp] theorem avoids_classNameLiteral {name : Atom} :
    Avoids p k (.classNameLiteral name) ↔ p name = false := Iff.rfl

@[simp] theorem avoids_enumCase {name caseName : Atom} :
    Avoids p k (.enumCase name caseName) ↔ p name = false := Iff.rfl

@[simp] theorem avoids_dqlBuilder {name : Atom} {state : QueryBuilderState} :
    Avoids p k (.dqlBuilder name state) ↔ p name = false := Iff.rfl

@[simp] theorem avoids_literal {value : LiteralValue} : Avoids p k (.literal value) := rfl

@[simp] theorem avoids_intRange {min max : Atom} : Avoids p k (.intRange min max) := rfl

@[simp] theorem avoids_staticType {bound : Atom} : Avoids p k (.staticType bound) := rfl

@[simp] theorem avoids_thisType {bound : Atom} : Avoids p k (.thisType bound) := rfl

/-- Seeing through a marker mentions nothing new. -/
theorem Avoids.kind {t : PhpType} (h : Avoids p k t) : Avoids p k t.kind := by
  induction t using kind.induct with
  | case1 inner => exact h
  | case2 entries => exact h
  | case3 name bound ih => exact ih (avoids_templateParam.mp h).2
  | case4 s key v name args =>
      have := avoids_unsealedShape.mp h
      exact avoids_generic.mpr ⟨this.1.2, this.2⟩
  | case5 name => exact h
  | case6 name caseName => exact h
  | case7 name state => exact h
  | case8 t h1 h2 h3 h4 h5 h6 h7 => rw [PhpType.kind] <;> assumption

end Avoids

section Mono

variable {p q k : Atom → Bool} (hq : ∀ name, q name = true → p name = true)

include hq

set_option linter.unusedSectionVars false in
mutual

theorem mentions_mono (t : PhpType) (h : mentions q k t = true) : mentions p k t = true := by
  cases t <;> simp only [mentions, Bool.or_eq_true] at h ⊢
  case named name => exact hq name h
  case staticType => exact h
  case thisType => exact h
  case nullable inner => exact mentions_mono inner h
  case union members => exact mentionsList_mono members h
  case intersection members => exact mentionsList_mono members h
  case generic name args => exact h.imp (hq name) (mentionsList_mono args)
  case array elem => exact mentions_mono elem h
  case arrayShape entries => exact mentionsEntries_mono entries h
  case objectShape entries => exact mentionsEntries_mono entries h
  case callable kind params returnType =>
      exact h.imp (mentionsParams_mono params) (mentionsOption_mono returnType)
  case conditional param negated c t e undecided =>
      exact h.imp (Or.imp (mentions_mono c) (mentions_mono t)) (mentions_mono e)
  case classString inner => exact mentionsOption_mono inner h
  case interfaceString inner => exact mentionsOption_mono inner h
  case keyOf inner => exact mentions_mono inner h
  case valueOf inner => exact mentions_mono inner h
  case intRange => exact h
  case indexAccess target index => exact h.imp (mentions_mono target) (mentions_mono index)
  case literal => exact h
  case raw text => exact hq text h
  case benevolent inner => exact mentions_mono inner h
  case listShape entries => exact mentionsEntries_mono entries h
  case templateParam name bound => exact h.imp (hq name) (mentions_mono bound)
  case unsealedShape shape key value name args =>
      exact h.imp (Or.imp (Or.imp (Or.imp (mentions_mono shape) (mentions_mono key))
        (mentions_mono value)) (hq name)) (mentionsList_mono args)
  case classNameLiteral className => exact hq className h
  case enumCase enumName caseName => exact hq enumName h
  case dqlBuilder className state => exact hq className h
termination_by structural t

theorem mentionsList_mono (ts : List PhpType) (h : mentionsList q k ts = true) :
    mentionsList p k ts = true := by
  cases ts with
  | nil => exact h
  | cons t ts =>
      simp only [mentionsList, Bool.or_eq_true] at h ⊢
      exact h.imp (mentions_mono t) (mentionsList_mono ts)
termination_by structural ts

theorem mentionsOption_mono (t : Option PhpType) (h : mentionsOption q k t = true) :
    mentionsOption p k t = true := by
  cases t with
  | none => exact h
  | some t => exact mentions_mono t h
termination_by structural t

theorem mentionsEntries_mono (entries : List ShapeEntry) (h : mentionsEntries q k entries = true) :
    mentionsEntries p k entries = true := by
  cases entries with
  | nil => exact h
  | cons e es =>
      cases e with
      | mk key valueType optional =>
          simp only [mentionsEntries, Bool.or_eq_true] at h ⊢
          exact h.imp (Or.imp id (mentions_mono valueType)) (mentionsEntries_mono es)
termination_by structural entries

theorem mentionsParams_mono (params : List CallableParam) (h : mentionsParams q k params = true) :
    mentionsParams p k params = true := by
  cases params with
  | nil => exact h
  | cons r rs =>
      cases r with
      | mk typeHint optional variadic =>
          simp only [mentionsParams, Bool.or_eq_true] at h ⊢
          exact h.imp (mentions_mono typeHint) (mentionsParams_mono rs)
termination_by structural params

end

/-- Fewer names are avoided all the more. -/
theorem Avoids.mono {t : PhpType} (h : Avoids p k t) : Avoids q k t := by
  rw [Avoids, ← Bool.not_eq_true]
  intro hmentions
  rw [Avoids, mentions_mono hq t hmentions] at h
  exact Bool.false_ne_true h.symm

end Mono

/-- The built-in types a constructor or an operator can put into a type. -/
def builtinNames : List Atom :=
  ["int", "string", "bool", "float", "null", "never", "mixed", "array-key", "array", "list",
    "non-empty-array", "non-empty-list"]

/-- None of the names is one of these, in any casing. -/
def Unreserved (p : Atom → Bool) : Prop := ∀ name, p name = true → asciiLower name ∉ builtinNames

theorem Unreserved.builtin {p : Atom → Bool} (hp : Unreserved p) {name : Atom}
    (h : asciiLower name ∈ builtinNames) : p name = false := by
  by_contra hname
  exact hp name (by simpa using hname) h

/-! ## What is built from types that avoid the names -/

section Constructors

variable {p : Atom → Bool}

/-- Every type of a list avoids the names. -/
def AllAvoid (p : Atom → Bool) (ts : List PhpType) : Prop := ∀ t ∈ ts, Avoids p p t

theorem AllAvoid.sublist {ts us : List PhpType} (h : AllAvoid p us) (hs : ts.Sublist us) :
    AllAvoid p ts := fun t ht => h t (hs.subset ht)

theorem AllAvoid.append {ts us : List PhpType} (ht : AllAvoid p ts) (hu : AllAvoid p us) :
    AllAvoid p (ts ++ us) := by
  intro t htu
  obtain h | h := List.mem_append.mp htu
  · exact ht t h
  · exact hu t h

theorem AllAvoid.map {α : Type} {f : α → PhpType} {items : List α}
    (h : ∀ a ∈ items, Avoids p p (f a)) : AllAvoid p (items.map f) := by
  intro t ht
  obtain ⟨a, ha, rfl⟩ := List.mem_map.mp ht
  exact h a ha

theorem AllAvoid.flatMap {α : Type} {f : α → List PhpType} {items : List α}
    (h : ∀ a ∈ items, AllAvoid p (f a)) : AllAvoid p (items.flatMap f) := by
  intro t ht
  obtain ⟨a, ha, hta⟩ := List.mem_flatMap.mp ht
  exact h a ha t hta

theorem AllAvoid.filterMap {α : Type} {f : α → Option PhpType} {items : List α}
    (h : ∀ a ∈ items, ∀ t ∈ f a, Avoids p p t) : AllAvoid p (items.filterMap f) := by
  intro t ht
  obtain ⟨a, ha, hta⟩ := List.mem_filterMap.mp ht
  exact h a ha t hta

/-- The base of an array that is not empty is `array` or `list`, in some casing. -/
theorem asciiLower_nonEmptyBaseName {name base : Atom} (hname : isArrayLikeName name = true)
    (hbase : nonEmptyBaseName name = some base) : asciiLower base ∈ builtinNames := by
  unfold nonEmptyBaseName at hbase
  dsimp only at hbase
  split_ifs at hbase with hlong
  obtain rfl := Option.some.inj hbase
  have hdrop : asciiLower (String.ofList (name.toList.drop 10)) =
      String.ofList ((asciiLower name).toList.drop 10) := by
    simp [asciiLower, List.map_drop]
  have hlen : 10 < (asciiLower name).toList.length := by simpa using hlong.2
  rw [hdrop]
  simp only [isArrayLikeName, decide_eq_true_eq, List.mem_cons, List.not_mem_nil,
    or_false] at hname
  rcases hname with h | h | h | h | h <;> rw [h] at hlen ⊢ <;> first
    | exact absurd hlen (by decide +kernel)
    | decide +kernel

theorem avoids_unrefinedBase (hp : Unreserved p) {t base : PhpType} (ht : Avoids p p t)
    (hrefined : t.isNonEmptyArrayRefinement = true) (h : t.unrefinedBase = some base) :
    Avoids p p base := by
  simp only [isNonEmptyArrayRefinement, Bool.and_eq_true] at hrefined
  have hlike := hrefined.2
  rw [isArrayLike_eq, isArrayLikeBody] at hlike
  have hkind := ht.kind
  unfold unrefinedBase at h
  split at h
  · rename_i name heq
    rw [heq] at hlike
    obtain ⟨b, hb, rfl⟩ := Option.map_eq_some_iff.mp h
    exact hp.builtin (asciiLower_nonEmptyBaseName hlike hb)
  · rename_i name args heq
    rw [heq] at hlike hkind
    obtain ⟨b, hb, rfl⟩ := Option.map_eq_some_iff.mp h
    exact avoids_generic.mpr ⟨hp.builtin (asciiLower_nonEmptyBaseName hlike hb),
      (avoids_generic.mp hkind).2⟩
  · cases h

theorem Unreserved.builtin_self {p : Atom → Bool} (hp : Unreserved p) {name : Atom}
    (h : name ∈ builtinNames) : p name = false := by
  have hlower : builtinNames.all (fun name => asciiLower name == name) = true := by decide +kernel
  have hname := beq_iff_eq.mp (List.all_eq_true.mp hlower name h)
  exact hp.builtin (by rwa [hname])

theorem avoids_int (hp : Unreserved p) : Avoids p p PhpType.int :=
  hp.builtin_self (by simp [builtinNames])

theorem avoids_string (hp : Unreserved p) : Avoids p p PhpType.string :=
  hp.builtin_self (by simp [builtinNames])

theorem avoids_bool (hp : Unreserved p) : Avoids p p PhpType.bool :=
  hp.builtin_self (by simp [builtinNames])

theorem avoids_float (hp : Unreserved p) : Avoids p p PhpType.float :=
  hp.builtin_self (by simp [builtinNames])

theorem avoids_null (hp : Unreserved p) : Avoids p p PhpType.null :=
  hp.builtin_self (by simp [builtinNames])

theorem avoids_never (hp : Unreserved p) : Avoids p p PhpType.never :=
  hp.builtin_self (by simp [builtinNames])

theorem avoids_mixed (hp : Unreserved p) : Avoids p p PhpType.mixed :=
  hp.builtin_self (by simp [builtinNames])

theorem avoids_arrayKey (hp : Unreserved p) : Avoids p p (.named "array-key") :=
  hp.builtin_self (by simp [builtinNames])

theorem avoids_intervalType (hp : Unreserved p) (i : Interval) : Avoids p p (intervalType i) := by
  unfold intervalType
  split
  · exact avoids_int hp
  · split <;> exact rfl
  · exact rfl
  · exact rfl

theorem avoids_mkBenevolent {t : PhpType} (h : Avoids p p t) : Avoids p p (mkBenevolent t) := by
  unfold mkBenevolent
  split
  · exact h
  · split <;> exact h

theorem avoids_mkTemplateParam {name : Atom} {bound : PhpType} (hname : p name = false)
    (h : Avoids p p bound) : Avoids p p (mkTemplateParam name bound) := by
  unfold mkTemplateParam
  split
  · rename_i inner heq
    cases bound <;> simp only [asTemplateParam, Option.some.injEq, Prod.mk.injEq,
      reduceCtorEq] at heq
    obtain ⟨rfl, rfl⟩ := heq
    exact avoids_templateParam.mpr ⟨hname, (avoids_templateParam.mp h).2⟩
  · exact avoids_templateParam.mpr ⟨hname, h⟩

section

variable [DedupHasher]

theorem avoids_mkUnionBy (hp : Unreserved p) {absorb : List PhpType → List PhpType}
    (habsorb : ∀ ts, (absorb ts).Sublist ts) {ts : List PhpType} (h : AllAvoid p ts) :
    Avoids p p (mkUnionBy absorb ts) :=
  mkUnionBy_of_members (avoids_intervalType hp)
    (fun _ _ ht hrefined hbase => avoids_unrefinedBase hp ht hrefined hbase)
    (fun _ hmembers => avoids_union.mpr hmembers) habsorb h

theorem avoids_mkUnion (hp : Unreserved p) {ts : List PhpType} (h : AllAvoid p ts) :
    Avoids p p (mkUnion ts) := avoids_mkUnionBy hp absorbSubsumedShapes_sublist h

theorem avoids_enumCasesAsEnums (hp : Unreserved p) {t : PhpType} (h : Avoids p p t) :
    Avoids p p (enumCasesAsEnums t) := by
  refine guardedFix_invariant (P := fun t u => Avoids p p t → Avoids p p u) (fun _ _ => h) ?_ t h
  intro recur t hrec h
  have hkind := h.kind
  unfold enumCasesAsEnumsBody
  split
  · rename_i enumName caseName heq
    cases t <;> simp only [asEnumCase, Option.some.injEq, Prod.mk.injEq, reduceCtorEq] at heq
    obtain ⟨rfl, rfl⟩ := heq
    exact h
  · split
    · rename_i members heq
      rw [heq, avoids_union] at hkind
      split
      · exact avoids_mkUnion hp (AllAvoid.map fun m hm => hrec m (hkind m hm))
      · exact h
    · rename_i inner heq
      rw [heq] at hkind
      split
      · exact hrec inner hkind
      · exact h
    · exact h

theorem avoids_mkClassString (hp : Unreserved p) {t : Option PhpType} (h : ∀ u ∈ t, Avoids p p u) :
    Avoids p p (mkClassString t) := by
  rw [mkClassString, avoids_classString]
  intro u hu
  obtain ⟨v, hv, rfl⟩ := Option.map_eq_some_iff.mp hu
  exact avoids_enumCasesAsEnums hp (h v hv)

theorem avoids_mkInterfaceString (hp : Unreserved p) {t : Option PhpType}
    (h : ∀ u ∈ t, Avoids p p u) : Avoids p p (mkInterfaceString t) := by
  rw [mkInterfaceString, avoids_interfaceString]
  intro u hu
  obtain ⟨v, hv, rfl⟩ := Option.map_eq_some_iff.mp hu
  exact avoids_enumCasesAsEnums hp (h v hv)

end

end Constructors

end PhpantomLsp.PhpType
