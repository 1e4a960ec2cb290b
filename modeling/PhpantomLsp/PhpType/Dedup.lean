import PhpantomLsp.Lib.GuardedRecursion
import PhpantomLsp.Lib.Retain
import PhpantomLsp.Lib.ZipAll
import PhpantomLsp.PhpType.Basic

/-!
# Merging repeated alternatives

The equivalence two members of a union are merged by, and the hash that finds
candidates for it.  Names are compared without their casing and literals by
their worth; everything else is compared as it is written.

The hash table is a run of writes to a hasher and whatever number the hasher
makes of them, since neither the hash function nor the address of an interned
node is anything the code may rely on.
-/

namespace PhpantomLsp

open Text Lib

/-! ## The equivalence -/

/-- `named_identifiers_equivalent`: `number` is only a pseudo-type in
lowercase. -/
def namedIdentifiersEquivalent (left right : Atom) : Bool :=
  if eqIgnoreAsciiCase left "number" && eqIgnoreAsciiCase right "number" then
    (left == "number") == (right == "number")
  else eqIgnoreAsciiCase left right

/-- `identifiers_equivalent`. -/
def identifiersEquivalent (left right : Atom) : Bool := eqIgnoreAsciiCase left right

/-- Two optional types, both absent or both present and related. -/
def optionsEquivalent (eq : PhpType → PhpType → Bool) : Option PhpType → Option PhpType → Bool
  | some a, some b => eq a b
  | none, none => true
  | _, _ => false

/-- Two fields under the same key. -/
def entriesEquivalent (eq : PhpType → PhpType → Bool) (a b : ShapeEntry) : Bool :=
  a.key == b.key && a.optional == b.optional && eq a.valueType b.valueType

def paramsEquivalent (eq : PhpType → PhpType → Bool) (a b : CallableParam) : Bool :=
  a.optional == b.optional && a.variadic == b.variadic && eq a.typeHint b.typeHint

/-- The comparison of two nodes, where `eq` compares their children. -/
def nodesEquivalent (eq : PhpType → PhpType → Bool) : PhpType → PhpType → Bool
  | .named a, .named b => namedIdentifiersEquivalent a b
  | .staticType a, .staticType b => identifiersEquivalent a b
  | .thisType a, .thisType b => identifiersEquivalent a b
  | .nullable a, .nullable b => eq a b
  | .array a, .array b => eq a b
  | .keyOf a, .keyOf b => eq a b
  | .valueOf a, .valueOf b => eq a b
  | .union as, .union bs => zipAll eq as bs
  | .intersection as, .intersection bs => zipAll eq as bs
  | .generic m as, .generic n bs => identifiersEquivalent m n && zipAll eq as bs
  | .arrayShape as, .arrayShape bs => zipAll (entriesEquivalent eq) as bs
  | .objectShape as, .objectShape bs => zipAll (entriesEquivalent eq) as bs
  | .callable k ps r, .callable k' ps' r' =>
      identifiersEquivalent k k' && zipAll (paramsEquivalent eq) ps ps' &&
        optionsEquivalent eq r r'
  | .conditional p n c t e _, .conditional p' n' c' t' e' _ =>
      p == p' && n == n' && eq c c' && eq t t' && eq e e'
  | .classString a, .classString b => optionsEquivalent eq a b
  | .interfaceString a, .interfaceString b => optionsEquivalent eq a b
  | .indexAccess a b, .indexAccess a' b' => eq a a' && eq b b'
  | .literal a, .literal b => literalsEqual a b
  | _, _ => false

/-- Two enum cases of one name, of one enum. -/
def enumCasesEquivalent : Option (Atom × Atom) → Option (Atom × Atom) → Bool
  | some (leftEnum, leftCase), some (rightEnum, rightCase) =>
      leftCase == rightCase && identifiersEquivalent leftEnum rightEnum
  | _, _ => false

/-- One round of `equivalent_for_dedup`. -/
def equivalentBody (eq : PhpType → PhpType → Bool) (left right : PhpType) : Bool :=
  if left = right then true
  else if left.asUnsealedShape.isSome || right.asUnsealedShape.isSome then false
  else if left.asClassNameLiteral.isSome != right.asClassNameLiteral.isSome then false
  else if left.asDqlBuilder.isSome || right.asDqlBuilder.isSome then false
  else if left.asEnumCase.isSome || right.asEnumCase.isSome then
    enumCasesEquivalent left.asEnumCase right.asEnumCase
  else nodesEquivalent eq left.kind right.kind

/-- `equivalent_for_dedup`. -/
def equivalentForDedup (left right : PhpType) : Bool :=
  guardedFixPair PhpType.weight false equivalentBody left right

/-- `has_duplicate_members`. -/
def hasDuplicateMembers (types : List PhpType) : Bool :=
  (List.range types.length).any fun index =>
    (types.take index).any fun seen =>
      (types[index]?).any fun ty => equivalentForDedup seen ty

/-! ## The hash -/

/-- One write to a hasher. -/
inductive HashWrite where
  | discriminant (n : Nat)
  | byte (c : Char)
  | length (n : Nat)
  | flag (b : Bool)
  | text (s : String)
  | key (k : Option String)
  | tag (n : Nat)
  | int (z : Int)
  | bits (n : Nat)
  /-- The address of an interned node. -/
  | node (t : PhpType)

/-- What a hasher makes of the writes it saw. -/
class DedupHasher where
  finish : List HashWrite → UInt64

/-- A hasher that tells nothing apart. -/
@[reducible] def constantHasher : DedupHasher := ⟨fun _ => 0⟩

/-- `hash_identifier`. -/
def hashIdentifier (value : Atom) : List HashWrite :=
  value.toList.map fun c => .byte c.toLower

/-- `hash_named_identifier`. -/
def hashNamedIdentifier (value : Atom) : List HashWrite :=
  .flag (value == "number") :: hashIdentifier value

/-- The writes of a literal. -/
def hashLiteral (value : LiteralValue) : List HashWrite :=
  match value with
  | .int raw =>
      match value.parseInt with
      | some parsed => [.tag 0, .tag 0, .int parsed]
      | none => [.tag 0, .tag 1, .text raw]
  | .float raw =>
      match value.parseFloat with
      | some parsed =>
          if parsed.isNan then [.tag 1, .tag 0, .text raw]
          else [.tag 1, .tag 1, .bits parsed.hashBits]
      | none => [.tag 1, .tag 2, .text raw]
  | .string raw =>
      match value.stringContent with
      | some content => [.tag 2, .tag 0, .text content]
      | none => [.tag 2, .tag 1, .text raw]

/-- The writes of an optional child. -/
def hashOption (hash : PhpType → List HashWrite) (inner : Option PhpType) : List HashWrite :=
  .flag inner.isSome :: (inner.map hash).getD []

def hashEntry (hash : PhpType → List HashWrite) (entry : ShapeEntry) : List HashWrite :=
  [.key entry.key, .flag entry.optional] ++ hash entry.valueType

def hashParam (hash : PhpType → List HashWrite) (param : CallableParam) : List HashWrite :=
  [.flag param.optional, .flag param.variadic] ++ hash param.typeHint

/-- The writes of the node `node` that the handle `ty` points at, where `hash`
writes its children. -/
def hashNode (hash : PhpType → List HashWrite) (ty : PhpType) : PhpType → List HashWrite
  | .named name => hashNamedIdentifier name
  | .staticType name => hashIdentifier name
  | .thisType name => hashIdentifier name
  | .nullable inner => hash inner
  | .array inner => hash inner
  | .keyOf inner => hash inner
  | .valueOf inner => hash inner
  | .union members => .length members.length :: members.flatMap hash
  | .intersection members => .length members.length :: members.flatMap hash
  | .generic name args => hashIdentifier name ++ (.length args.length :: args.flatMap hash)
  | .arrayShape entries => .length entries.length :: entries.flatMap (hashEntry hash)
  | .objectShape entries => .length entries.length :: entries.flatMap (hashEntry hash)
  | .callable kind params returnType =>
      hashIdentifier kind ++ (.length params.length :: params.flatMap (hashParam hash)) ++
        hashOption hash returnType
  | .conditional param negated condition thenType elseType _ =>
      [.text param, .flag negated] ++ hash condition ++ hash thenType ++ hash elseType
  | .classString inner => hashOption hash inner
  | .interfaceString inner => hashOption hash inner
  | .indexAccess key value => hash key ++ hash value
  | .literal value => hashLiteral value
  | _ => [.node ty]

/-- One round of `hash_for_dedup`. -/
def hashBody (hash : PhpType → List HashWrite) (ty : PhpType) : List HashWrite :=
  .discriminant ty.kind.ctorIdx ::
    ((ty.asEnumCase.map fun (_, caseName) => HashWrite.text caseName).toList ++
      hashNode hash ty ty.kind)

/-- `hash_for_dedup`: the writes a type makes. -/
def hashForDedup (ty : PhpType) : List HashWrite :=
  guardedFix PhpType.weight [] hashBody ty

/-- `dedup_hash`. -/
def dedupHash [DedupHasher] (ty : PhpType) : UInt64 := DedupHasher.finish (hashForDedup ty)

/-- `dedup_types`: keep the first of each set of equivalent types, looking
for an earlier one under the type's own hash. -/
def dedupTypes [DedupHasher] (types : List PhpType) : List PhpType :=
  bucketRetain dedupHash equivalentForDedup [] types

/-! ## The recursion equations -/

theorem nodesEquivalent_congr {f g : PhpType → PhpType → Bool} {a b : PhpType}
    (h : ∀ c d, c.weight + d.weight < a.weight + b.weight → f c d = g c d) :
    nodesEquivalent f a b = nodesEquivalent g a b := by
  have hentries : ∀ as bs : List ShapeEntry,
      PhpType.weightEntries as + PhpType.weightEntries bs < a.weight + b.weight →
      zipAll (entriesEquivalent f) as bs = zipAll (entriesEquivalent g) as bs := by
    intro as bs hlt
    refine zipAll_congr (fun x hx y hy => ?_)
    have := PhpType.weight_lt_of_mem_entries hx
    have := PhpType.weight_lt_of_mem_entries hy
    simp only [entriesEquivalent]
    rw [h _ _ (by omega)]
  have hparams : ∀ as bs : List CallableParam,
      PhpType.weightParams as + PhpType.weightParams bs < a.weight + b.weight →
      zipAll (paramsEquivalent f) as bs = zipAll (paramsEquivalent g) as bs := by
    intro as bs hlt
    refine zipAll_congr (fun x hx y hy => ?_)
    have := PhpType.weight_lt_of_mem_params hx
    have := PhpType.weight_lt_of_mem_params hy
    simp only [paramsEquivalent]
    rw [h _ _ (by omega)]
  have hlists : ∀ as bs : List PhpType,
      PhpType.weightList as + PhpType.weightList bs < a.weight + b.weight →
      zipAll f as bs = zipAll g as bs := by
    intro as bs hlt
    refine zipAll_congr (fun x hx y hy => ?_)
    have := PhpType.weight_le_of_mem hx
    have := PhpType.weight_le_of_mem hy
    exact h _ _ (by omega)
  have hoptions : ∀ x y : Option PhpType,
      PhpType.weightOption x + PhpType.weightOption y < a.weight + b.weight →
      optionsEquivalent f x y = optionsEquivalent g x y := by
    intro x y hlt
    cases x <;> cases y <;> first | rfl | exact h _ _ hlt
  cases a <;> cases b <;> first | rfl | skip
  all_goals
    simp only [nodesEquivalent]
    first
      | exact h _ _ (by simp only [PhpType.weight]; omega)
      | exact hlists _ _ (by simp only [PhpType.weight]; omega)
      | exact hentries _ _ (by simp only [PhpType.weight]; omega)
      | exact hoptions _ _ (by simp only [PhpType.weight]; omega)
      | skip
  case generic => rw [hlists _ _ (by simp only [PhpType.weight]; omega)]
  case callable =>
      rw [hparams _ _ (by simp only [PhpType.weight]; omega),
        hoptions _ _ (by simp only [PhpType.weight]; omega)]
  case conditional =>
      rw [h _ _ (by simp only [PhpType.weight]; omega), h _ _ (by simp only [PhpType.weight]; omega),
        h _ _ (by simp only [PhpType.weight]; omega)]
  case indexAccess =>
      rw [h _ _ (by simp only [PhpType.weight]; omega), h _ _ (by simp only [PhpType.weight]; omega)]

theorem equivalentBody_decreases : DecreasesPair PhpType.weight equivalentBody := by
  intro f g a b h
  have ha := a.weight_kind_le
  have hb := b.weight_kind_le
  simp only [equivalentBody]
  rw [nodesEquivalent_congr (fun c d hcd => h c d (by omega))]

theorem equivalentForDedup_eq (left right : PhpType) :
    equivalentForDedup left right = equivalentBody equivalentForDedup left right :=
  guardedFixPair_eq equivalentBody_decreases left right

theorem hashNode_congr {f g : PhpType → List HashWrite} {ty a : PhpType}
    (h : ∀ c, c.weight < a.weight → f c = g c) : hashNode f ty a = hashNode g ty a := by
  have hlist : ∀ as : List PhpType, PhpType.weightList as < a.weight →
      as.flatMap f = as.flatMap g := by
    intro as hlt
    refine List.flatMap_congr (fun x hx => h x ?_)
    have := PhpType.weight_le_of_mem hx
    omega
  have hentries : ∀ as : List ShapeEntry, PhpType.weightEntries as < a.weight →
      as.flatMap (hashEntry f) = as.flatMap (hashEntry g) := by
    intro as hlt
    refine List.flatMap_congr (fun x hx => ?_)
    have := PhpType.weight_lt_of_mem_entries hx
    simp only [hashEntry]
    rw [h _ (by omega)]
  have hparams : ∀ as : List CallableParam, PhpType.weightParams as < a.weight →
      as.flatMap (hashParam f) = as.flatMap (hashParam g) := by
    intro as hlt
    refine List.flatMap_congr (fun x hx => ?_)
    have := PhpType.weight_lt_of_mem_params hx
    simp only [hashParam]
    rw [h _ (by omega)]
  have hoption : ∀ x : Option PhpType, PhpType.weightOption x < a.weight →
      hashOption f x = hashOption g x := by
    intro x hlt
    cases x with
    | none => rfl
    | some t => simp only [hashOption, Option.map_some, h t hlt]
  cases a <;> first | rfl | skip
  all_goals
    simp only [hashNode]
    first
      | exact h _ (by simp only [PhpType.weight]; omega)
      | exact hoption _ (by simp only [PhpType.weight]; omega)
      | rw [hlist _ (by simp only [PhpType.weight]; omega)]
      | rw [hentries _ (by simp only [PhpType.weight]; omega)]
      | skip
  case callable =>
      rw [hparams _ (by simp only [PhpType.weight]; omega),
        hoption _ (by simp only [PhpType.weight]; omega)]
  case conditional =>
      rw [h _ (by simp only [PhpType.weight]; omega), h _ (by simp only [PhpType.weight]; omega),
        h _ (by simp only [PhpType.weight]; omega)]
  case indexAccess =>
      rw [h _ (by simp only [PhpType.weight]; omega), h _ (by simp only [PhpType.weight]; omega)]

theorem hashBody_decreases : Decreases PhpType.weight hashBody := by
  intro f g a h
  have ha := a.weight_kind_le
  simp only [hashBody]
  rw [hashNode_congr (fun c hc => h c (by omega))]

theorem hashForDedup_eq (ty : PhpType) : hashForDedup ty = hashBody hashForDedup ty :=
  guardedFix_eq hashBody_decreases ty

end PhpantomLsp
