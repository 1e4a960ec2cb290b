import PhpantomLsp.PhpType.Keywords
import PhpantomLsp.PhpType.Literal

/-!
# PHP types

The tree of a PHP type expression.  A node and the handle that points at it
are one thing here: types are interned, so two handles are equal exactly when
the nodes they point at are, and comparing addresses is comparing trees.

A marker sits above a type without being a shape of its own, and `kind` sees
through it.  The markers carry what their constructors can put there and
nothing else: the name of a class, the enum a case belongs to, the entries of
a list shape.
-/

namespace PhpantomLsp

open Text

/-- An interned name. -/
abbrev Atom := String

/-- What a conditional answers when its condition cannot be decided. -/
inductive UndecidedReading where
  | bothBranches
  | elseBranch
  | benevolentBothBranches
  deriving DecidableEq

/-- A single field of a shape, with a key unless it is positional. -/
structure ShapeEntryOf (τ : Type) where
  key : Option String
  valueType : τ
  optional : Bool
  deriving DecidableEq

/-- A single parameter of a callable type. -/
structure CallableParamOf (τ : Type) where
  typeHint : τ
  optional : Bool
  variadic : Bool
  deriving DecidableEq

/-- The statement a query builder builds. -/
inductive StatementKind where
  | select
  | update
  | delete
  deriving DecidableEq

/-- One root of a query and what it joins. -/
structure FromPart where
  entity : String
  aliasName : String
  indexBy : Option String
  joins : List String
  joinAliases : List (String × String)
  deriving DecidableEq

/-- The parts of the query a builder has built so far. -/
structure QueryBuilderState where
  kind : StatementKind
  select : List String
  fromParts : List FromPart
  deriving DecidableEq

/-- A PHP type expression. -/
inductive PhpType where
  /-- A keyword, a class reference or a template parameter. -/
  | named (name : Atom)
  /-- `static`, known to be at least `bound`. -/
  | staticType (bound : Atom)
  /-- `$this`, known to be at least `bound`. -/
  | thisType (bound : Atom)
  | nullable (inner : PhpType)
  | union (members : List PhpType)
  | intersection (members : List PhpType)
  | generic (name : Atom) (args : List PhpType)
  /-- `T[]`. -/
  | array (elem : PhpType)
  | arrayShape (entries : List (ShapeEntryOf PhpType))
  | objectShape (entries : List (ShapeEntryOf PhpType))
  | callable (kind : Atom) (params : List (CallableParamOf PhpType)) (returnType : Option PhpType)
  /-- `$x is T ? U : V`. -/
  | conditional (param : Atom) (negated : Bool) (condition thenType elseType : PhpType)
      (undecided : UndecidedReading)
  | classString (inner : Option PhpType)
  | interfaceString (inner : Option PhpType)
  | keyOf (inner : PhpType)
  | valueOf (inner : PhpType)
  /-- `int<min, max>`, the bounds as they are written. -/
  | intRange (min max : Atom)
  /-- `T[K]`. -/
  | indexAccess (target index : PhpType)
  | literal (value : LiteralValue)
  /-- Text that is not understood. -/
  | raw (text : String)
  /-- A union whose failure branch is not worth enforcing. -/
  | benevolent (inner : PhpType)
  /-- `list{…}`: the shape of these entries, with keys that count up. -/
  | listShape (entries : List (ShapeEntryOf PhpType))
  /-- A template parameter seen from inside its declaration. -/
  | templateParam (name : Atom) (bound : PhpType)
  /-- `array{…, ...<K, V>}`, and the generic array it widens to. -/
  | unsealedShape (shape key value : PhpType) (widenedName : Atom) (widenedArgs : List PhpType)
  /-- `Foo::class`. -/
  | classNameLiteral (className : Atom)
  /-- `Suit::Hearts`. -/
  | enumCase (enumName caseName : Atom)
  /-- A query builder that has built a known query. -/
  | dqlBuilder (className : Atom) (state : QueryBuilderState)

abbrev ShapeEntry := ShapeEntryOf PhpType

abbrev CallableParam := CallableParamOf PhpType

namespace PhpType

/-! ## Equality -/

mutual

/-- Equality of the trees, which is identity of the interned nodes. -/
def beq : PhpType → PhpType → Bool
  | .named a, .named b => a == b
  | .staticType a, .staticType b => a == b
  | .thisType a, .thisType b => a == b
  | .nullable a, .nullable b => beq a b
  | .union as, .union bs => beqList as bs
  | .intersection as, .intersection bs => beqList as bs
  | .generic m as, .generic n bs => m == n && beqList as bs
  | .array a, .array b => beq a b
  | .arrayShape as, .arrayShape bs => beqEntries as bs
  | .objectShape as, .objectShape bs => beqEntries as bs
  | .callable k ps r, .callable k' ps' r' => k == k' && beqParams ps ps' && beqOption r r'
  | .conditional p n c t e u, .conditional p' n' c' t' e' u' =>
      p == p' && n == n' && beq c c' && beq t t' && beq e e' && decide (u = u')
  | .classString a, .classString b => beqOption a b
  | .interfaceString a, .interfaceString b => beqOption a b
  | .keyOf a, .keyOf b => beq a b
  | .valueOf a, .valueOf b => beq a b
  | .intRange a b, .intRange a' b' => a == a' && b == b'
  | .indexAccess a b, .indexAccess a' b' => beq a a' && beq b b'
  | .literal a, .literal b => decide (a = b)
  | .raw a, .raw b => a == b
  | .benevolent a, .benevolent b => beq a b
  | .listShape as, .listShape bs => beqEntries as bs
  | .templateParam n a, .templateParam n' b => n == n' && beq a b
  | .unsealedShape s k v m as, .unsealedShape s' k' v' n bs =>
      beq s s' && beq k k' && beq v v' && m == n && beqList as bs
  | .classNameLiteral a, .classNameLiteral b => a == b
  | .enumCase a b, .enumCase a' b' => a == a' && b == b'
  | .dqlBuilder a s, .dqlBuilder b s' => a == b && decide (s = s')
  | _, _ => false
termination_by structural a => a

def beqList : List PhpType → List PhpType → Bool
  | [], [] => true
  | a :: as, b :: bs => beq a b && beqList as bs
  | _, _ => false
termination_by structural as => as

def beqOption : Option PhpType → Option PhpType → Bool
  | none, none => true
  | some a, some b => beq a b
  | _, _ => false
termination_by structural a => a

def beqEntries : List (ShapeEntryOf PhpType) → List (ShapeEntryOf PhpType) → Bool
  | [], [] => true
  | ⟨k, v, o⟩ :: as, ⟨k', v', o'⟩ :: bs =>
      decide (k = k') && beq v v' && o == o' && beqEntries as bs
  | _, _ => false
termination_by structural as => as

def beqParams : List (CallableParamOf PhpType) → List (CallableParamOf PhpType) → Bool
  | [], [] => true
  | ⟨t, o, v⟩ :: as, ⟨t', o', v'⟩ :: bs => beq t t' && o == o' && v == v' && beqParams as bs
  | _, _ => false
termination_by structural as => as

end

mutual

theorem eq_of_beq (a b : PhpType) (h : beq a b = true) : a = b := by
  cases a <;> cases b <;> first | exact absurd h Bool.false_ne_true | skip
  all_goals
    simp only [beq, Bool.and_eq_true, beq_iff_eq, decide_eq_true_eq] at h
    first
      | exact congrArg _ h
      | exact congrArg _ (eq_of_beq _ _ h)
      | exact congrArg _ (eq_of_beqList _ _ h)
      | exact congrArg _ (eq_of_beqOption _ _ h)
      | exact congrArg _ (eq_of_beqEntries _ _ h)
      | skip
  case generic => rw [h.1, eq_of_beqList _ _ h.2]
  case callable => rw [h.1.1, eq_of_beqParams _ _ h.1.2, eq_of_beqOption _ _ h.2]
  case conditional =>
      obtain ⟨⟨⟨⟨⟨hp, hn⟩, hc⟩, ht⟩, he⟩, hu⟩ := h
      rw [hp, hn, eq_of_beq _ _ hc, eq_of_beq _ _ ht, eq_of_beq _ _ he, hu]
  case intRange => rw [h.1, h.2]
  case indexAccess => rw [eq_of_beq _ _ h.1, eq_of_beq _ _ h.2]
  case templateParam => rw [h.1, eq_of_beq _ _ h.2]
  case unsealedShape =>
      obtain ⟨⟨⟨⟨hs, hk⟩, hv⟩, hname⟩, hargs⟩ := h
      rw [eq_of_beq _ _ hs, eq_of_beq _ _ hk, eq_of_beq _ _ hv, hname, eq_of_beqList _ _ hargs]
  case enumCase => rw [h.1, h.2]
  case dqlBuilder => rw [h.1, h.2]
termination_by structural a

theorem eq_of_beqList (as bs : List PhpType) (h : beqList as bs = true) : as = bs := by
  cases as <;> cases bs <;> first | rfl | exact absurd h Bool.false_ne_true | skip
  simp only [beqList, Bool.and_eq_true] at h
  rw [eq_of_beq _ _ h.1, eq_of_beqList _ _ h.2]
termination_by structural as

theorem eq_of_beqOption (a b : Option PhpType) (h : beqOption a b = true) : a = b := by
  cases a <;> cases b <;> first | rfl | exact absurd h Bool.false_ne_true | skip
  exact congrArg _ (eq_of_beq _ _ h)
termination_by structural a

theorem eq_of_beqEntries (as bs : List (ShapeEntryOf PhpType)) (h : beqEntries as bs = true) :
    as = bs := by
  cases as <;> cases bs <;> first | rfl | exact absurd h Bool.false_ne_true | skip
  rename_i a as b bs
  cases a
  cases b
  simp only [beqEntries, Bool.and_eq_true, beq_iff_eq, decide_eq_true_eq] at h
  obtain ⟨⟨⟨hk, hv⟩, ho⟩, hrest⟩ := h
  rw [hk, eq_of_beq _ _ hv, ho, eq_of_beqEntries _ _ hrest]
termination_by structural as

theorem eq_of_beqParams (as bs : List (CallableParamOf PhpType)) (h : beqParams as bs = true) :
    as = bs := by
  cases as <;> cases bs <;> first | rfl | exact absurd h Bool.false_ne_true | skip
  rename_i a as b bs
  cases a
  cases b
  simp only [beqParams, Bool.and_eq_true, beq_iff_eq] at h
  obtain ⟨⟨⟨ht, ho⟩, hv⟩, hrest⟩ := h
  rw [eq_of_beq _ _ ht, ho, hv, eq_of_beqParams _ _ hrest]
termination_by structural as

end

mutual

theorem beq_self (a : PhpType) : beq a a = true := by
  cases a <;> simp [beq, beq_self, beqList_self, beqOption_self, beqEntries_self, beqParams_self]
termination_by structural a

theorem beqList_self (as : List PhpType) : beqList as as = true := by
  cases as <;> simp [beqList, beq_self, beqList_self]
termination_by structural as

theorem beqOption_self (a : Option PhpType) : beqOption a a = true := by
  cases a <;> simp [beqOption, beq_self]
termination_by structural a

theorem beqEntries_self (as : List (ShapeEntryOf PhpType)) : beqEntries as as = true := by
  match as with
  | [] => rfl
  | ⟨_, _, _⟩ :: rest => simp [beqEntries, beq_self, beqEntries_self rest]
termination_by structural as

theorem beqParams_self (as : List (CallableParamOf PhpType)) : beqParams as as = true := by
  match as with
  | [] => rfl
  | ⟨_, _, _⟩ :: rest => simp [beqParams, beq_self, beqParams_self rest]
termination_by structural as

end

instance : DecidableEq PhpType := fun a b =>
  if h : beq a b = true then isTrue (eq_of_beq a b h)
  else isFalse (fun hab => h (hab ▸ beq_self a))

/-! ## Markers -/

/-- The node a handle points at, with its marker seen through: one hop, and
as many as it takes through a template parameter. -/
def kind : PhpType → PhpType
  | .benevolent inner => inner
  | .listShape entries => .arrayShape entries
  | .templateParam _ bound => bound.kind
  | .unsealedShape _ _ _ widenedName widenedArgs => .generic widenedName widenedArgs
  | .classNameLiteral className => .classString (some (.named className))
  | .enumCase enumName _ => .named enumName
  | .dqlBuilder className _ => .named className
  | t => t

/-- The class this type is exactly the name of. -/
def asClassNameLiteral : PhpType → Option Atom
  | .classNameLiteral className => some className
  | _ => none

/-- The enum and the case this type is. -/
def asEnumCase : PhpType → Option (Atom × Atom)
  | .enumCase enumName caseName => some (enumName, caseName)
  | _ => none

def asDqlBuilder : PhpType → Option (Atom × QueryBuilderState)
  | .dqlBuilder className state => some (className, state)
  | _ => none

def asTemplateParam : PhpType → Option (Atom × PhpType)
  | .templateParam name bound => some (name, bound)
  | _ => none

/-- The shape, the tail and the widening of an unsealed shape. -/
structure UnsealedShape where
  shape : PhpType
  key : PhpType
  value : PhpType
  widenedName : Atom
  widenedArgs : List PhpType

def asUnsealedShape : PhpType → Option UnsealedShape
  | .unsealedShape shape key value widenedName widenedArgs =>
      some ⟨shape, key, value, widenedName, widenedArgs⟩
  | _ => none

theorem asUnsealedShape_eq_some {t : PhpType} {u : UnsealedShape}
    (h : t.asUnsealedShape = some u) :
    t = .unsealedShape u.shape u.key u.value u.widenedName u.widenedArgs := by
  cases t <;> simp only [asUnsealedShape, Option.some.injEq, reduceCtorEq] at h
  subst h
  rfl

def isBenevolent : PhpType → Bool
  | .benevolent _ => true
  | _ => false

def isListShape : PhpType → Bool
  | .listShape _ => true
  | _ => false

/-- Whether this type is one exact value of the wider type `kind` reads it
as. -/
def isExactValueMarker : PhpType → Bool
  | .classNameLiteral _ => true
  | .enumCase _ _ => true
  | .dqlBuilder _ _ => true
  | _ => false

/-- The literal payload. -/
def asLiteral (t : PhpType) : Option LiteralValue :=
  match t.kind with
  | .literal value => some value
  | _ => none

/-- The name of a `Named` node. -/
def asNamed (t : PhpType) : Option Atom :=
  match t.kind with
  | .named name => some name
  | _ => none

def unionMembers (t : PhpType) : List PhpType :=
  match t.kind with
  | .union members => members
  | _ => [t]

/-! ## Keyword types -/

def int : PhpType := .named "int"
def string : PhpType := .named "string"
def bool : PhpType := .named "bool"
def null : PhpType := .named "null"
def mixed : PhpType := .named "mixed"
def never : PhpType := .named "never"

def literalInt (raw : String) : PhpType := .literal (.int raw)
def literalStringValue (value : String) : PhpType := .literal (.stringValue value)

/-! ## Size -/

/-- The weight of a name: `array-key` is rewritten to `int|string`, and
weighs more than that. -/
def nameWeight (name : Atom) : Nat := if eqIgnoreAsciiCase name "array-key" then 4 else 1

mutual

/-- The size of a type, by which every recursion over types descends: what
a comparison rewrites a type into weighs less than the type did. -/
def weight : PhpType → Nat
  | .named name => nameWeight name
  | .nullable inner => 3 + weight inner
  | .union members => 1 + weightList members
  | .intersection members => 1 + weightList members
  | .generic _ args => 4 + weightList args
  | .array elem => 1 + weight elem
  | .arrayShape entries => 1 + weightEntries entries
  | .objectShape entries => 1 + weightEntries entries
  | .callable _ params returnType => 1 + weightParams params + weightOption returnType
  | .conditional _ _ condition thenType elseType _ =>
      1 + weight condition + weight thenType + weight elseType
  | .classString inner => 1 + weightOption inner
  | .interfaceString inner => 1 + weightOption inner
  | .keyOf inner => 1 + weight inner
  | .valueOf inner => 1 + weight inner
  | .indexAccess target index => 1 + weight target + weight index
  | .benevolent inner => 1 + weight inner
  | .listShape entries => 2 + weightEntries entries
  | .templateParam _ bound => 1 + weight bound
  | .unsealedShape shape key value _ widenedArgs =>
      5 + weight shape + weight key + weight value + weightList widenedArgs
  | .classNameLiteral className => 2 + nameWeight className
  | .enumCase enumName _ => 1 + nameWeight enumName
  | .dqlBuilder className _ => 1 + nameWeight className
  | .staticType _ => 1
  | .thisType _ => 1
  | .intRange _ _ => 1
  | .literal _ => 1
  | .raw _ => 1
termination_by structural t => t

def weightList : List PhpType → Nat
  | [] => 0
  | t :: ts => weight t + weightList ts
termination_by structural ts => ts

def weightOption : Option PhpType → Nat
  | none => 0
  | some t => weight t
termination_by structural t => t

def weightEntries : List (ShapeEntryOf PhpType) → Nat
  | [] => 0
  | ⟨_, valueType, _⟩ :: rest => 6 + weight valueType + weightEntries rest
termination_by structural entries => entries

def weightParams : List (CallableParamOf PhpType) → Nat
  | [] => 0
  | ⟨typeHint, _, _⟩ :: rest => 1 + weight typeHint + weightParams rest
termination_by structural params => params

end

theorem nameWeight_pos (name : Atom) : 0 < nameWeight name := by
  unfold nameWeight
  split <;> omega

theorem weight_pos (t : PhpType) : 0 < weight t := by
  cases t <;> simp only [weight] <;> first | omega | exact nameWeight_pos _

@[simp] theorem weightList_append (as bs : List PhpType) :
    weightList (as ++ bs) = weightList as + weightList bs := by
  induction as with
  | nil => simp [weightList]
  | cons a as ih => simp [weightList, ih]; omega

theorem weight_le_of_mem {t : PhpType} {ts : List PhpType} (h : t ∈ ts) :
    weight t ≤ weightList ts := by
  induction ts with
  | nil => simp at h
  | cons u us ih =>
      rcases List.mem_cons.mp h with rfl | h
      · simp [weightList]
      · have := ih h
        simp only [weightList]
        omega

theorem weight_lt_of_mem_entries {e : ShapeEntry} {es : List ShapeEntry} (h : e ∈ es) :
    weight e.valueType + 6 ≤ weightEntries es := by
  induction es with
  | nil => simp at h
  | cons f fs ih =>
      cases f
      rcases List.mem_cons.mp h with rfl | h
      · simp only [weightEntries]
        omega
      · have := ih h
        simp only [weightEntries]
        omega

theorem weight_lt_of_mem_params {p : CallableParam} {ps : List CallableParam} (h : p ∈ ps) :
    weight p.typeHint + 1 ≤ weightParams ps := by
  induction ps with
  | nil => simp at h
  | cons q qs ih =>
      cases q
      rcases List.mem_cons.mp h with rfl | h
      · simp only [weightParams]
        omega
      · have := ih h
        simp only [weightParams]
        omega

theorem weight_int : int.weight = 1 := by decide

theorem weight_string : string.weight = 1 := by decide

theorem weight_null : null.weight = 1 := by decide

theorem weight_mixed : mixed.weight = 1 := by decide

/-- Seeing through a marker never grows a type. -/
theorem weight_kind_le (t : PhpType) : weight t.kind ≤ weight t := by
  induction t using kind.induct with
  | case3 name bound ih => simp only [kind, weight]; omega
  | case1 => simp only [kind, weight]; omega
  | case2 => simp only [kind, weight]; omega
  | case4 => simp only [kind, weight]; omega
  | case5 => simp only [kind, weight, weightOption]; omega
  | case6 => simp only [kind, weight]; omega
  | case7 => simp only [kind, weight]; omega
  | case8 t h1 h2 h3 h4 h5 h6 h7 => rw [kind] <;> first | exact le_refl _ | assumption

theorem weightList_sublist {as bs : List PhpType} (h : as.Sublist bs) :
    weightList as ≤ weightList bs := by
  induction h with
  | slnil => exact le_refl _
  | cons a _ ih => simp only [weightList]; omega
  | cons_cons a _ ih => simp only [weightList]; omega

end PhpType
end PhpantomLsp
