import PhpantomLsp.PhpType.Absorb

/-!
# Type operators

`key-of<T>`, `value-of<T>` and `T[K]` on the types whose keys and values are
known, and the entry of a shape a key addresses.
-/

namespace PhpantomLsp

open Text Lib PhpType

/-! ## The entry of a shape under a key -/

/-- The entry of a shape under `key`: the one that spells it, or else the
unkeyed one that many unkeyed ones stand before. -/
def entryUnderKey (entries : List ShapeEntry) (key : String) : Option ShapeEntry :=
  (entries.find? fun entry => entry.key == some key).or <|
    (parseUsize key).bind fun index => (entries.filter fun entry => entry.key.isNone)[index]?

/-- One round of `shape_entry`. -/
def shapeEntryBody (lookup : PhpType → Option ShapeEntry) (key : String) (t : PhpType) :
    Option ShapeEntry :=
  match t.asUnsealedShape with
  | some unsealed => lookup unsealed.shape
  | none =>
      match t.kind with
      | .arrayShape entries => entryUnderKey entries key
      | .nullable inner => lookup inner
      | .union members => members.findSome? lookup
      | .intersection members => members.findSome? lookup
      | _ => none

/-- `shape_entry`: the entry `key` addresses. -/
def shapeEntry (t : PhpType) (key : String) : Option ShapeEntry :=
  guardedFix weight none (fun lookup => shapeEntryBody lookup key) t

/-! ## `key-of` -/

/-- The key an entry at `position` stands for. -/
def entryKeyLiteral (entry : ShapeEntry) (position : Nat) : PhpType :=
  match entry.key with
  | none => literalInt (natToString position)
  | some key => (shapeKeyLiteral key).getD (.named "array-key")

def isKeyOf (t : PhpType) : Bool :=
  match t.kind with
  | .keyOf _ => true
  | _ => false

section

variable [DedupHasher]

/-- The union of some keys or values, `never` if there are none. -/
def unionOrNever (types : List PhpType) : PhpType :=
  if (dedupTypes types).isEmpty then PhpType.never else mkUnion (dedupTypes types)

/-- One round of `evaluate_key_of`. -/
def evaluateKeyOfBody (evaluate : PhpType → PhpType) (resolved : PhpType) : PhpType :=
  match resolved.kind with
  | .arrayShape entries =>
      unionOrNever (entries.zipIdx.map fun (entry, position) => entryKeyLiteral entry position)
  | .union members =>
      let keys := members.map evaluate
      if keys.any isKeyOf then .keyOf resolved else mkUnion (dedupTypes keys)
  | .generic name args =>
      let name := asciiLower name
      if name ∈ ["array", "non-empty-array"] then
        match args with
        | [key, _] => key
        | [_] => .named "array-key"
        | _ => .keyOf resolved
      else if name ∈ ["list", "non-empty-list"] then PhpType.int
      else .keyOf resolved
  | .array _ => .named "array-key"
  | _ => .keyOf resolved

/-- `evaluate_key_of`. -/
def evaluateKeyOf (resolved : PhpType) : PhpType :=
  guardedFix weight PhpType.never evaluateKeyOfBody resolved

/-! ## `value-of` -/

/-- The value of an array spelled with its key and value types. -/
def genericArrayValue (name : Atom) (args : List PhpType) : Option PhpType :=
  let name := asciiLower name
  match args with
  | [_, value] => if name ∈ ["array", "non-empty-array"] then some value else none
  | [value] =>
      if name ∈ ["array", "non-empty-array", "list", "non-empty-list"] then some value else none
  | _ => none

/-- `evaluate_value_of`. -/
def evaluateValueOf (resolved : PhpType) : PhpType :=
  match resolved.kind with
  | .arrayShape entries => unionOrNever (entries.map (·.valueType))
  | .generic name args => (genericArrayValue name args).getD (.valueOf resolved)
  | .array inner => inner
  | _ => .valueOf resolved

/-! ## Indexed access -/

/-- `literal_or_named_shape_key`. -/
def literalOrNamedShapeKey (ty : PhpType) : Option String :=
  match ty.kind with
  | .literal value => value.stringContent
  | .named key => some key
  | _ => none

/-- The value under a string key. -/
def stringKeyValue (entries : List ShapeEntry) (index : PhpType) : Option PhpType :=
  (literalOrNamedShapeKey index).bind fun key =>
    (entries.find? fun entry => entry.key == some key).map (·.valueType)

/-- Whether an entry at `position` is the one an integer offset names. -/
def entryAtOffset (digits : String) (entry : ShapeEntry) (position : Nat) : Bool :=
  match entry.key with
  | some key => key == digits
  | none => natToString position == digits

/-- The value at an integer offset. -/
def intOffsetValue (entries : List ShapeEntry) (index : PhpType) : Option PhpType :=
  match index.kind with
  | .literal (.int digits) =>
      (entries.zipIdx.find? fun (entry, position) => entryAtOffset digits entry position).map
        (·.1.valueType)
  | _ => none

/-- The values under the string keys of a union of keys. -/
def unionKeyValues (entries : List ShapeEntry) (members : List PhpType) : List PhpType :=
  firstOccurrences (fun a b => decide (a = b)) <|
    members.flatMap fun member =>
      ((literalOrNamedShapeKey member).map fun key =>
        (entries.filter fun entry => entry.key == some key).map (·.valueType)).getD []

/-- The values a union of keys addresses, if it addresses any. -/
def unionKeyValue (entries : List ShapeEntry) (index : PhpType) : Option PhpType :=
  match index.kind with
  | .union members =>
      match unionKeyValues entries members with
      | [] => none
      | values => some (mkUnion values)
  | _ => none

/-- `evaluate_index_access`. -/
def evaluateIndexAccess (base index : PhpType) : PhpType :=
  match base.kind with
  | .arrayShape entries =>
      ((stringKeyValue entries index).or
        ((intOffsetValue entries index).or (unionKeyValue entries index))).getD
        (.indexAccess base index)
  | .generic name args => (genericArrayValue name args).getD (.indexAccess base index)
  | _ => .indexAccess base index

end

/-! ## The recursion equations -/

theorem weight_lt_of_kind_intersection {t m : PhpType} {members : List PhpType}
    (h : t.kind = .intersection members) (hm : m ∈ members) : m.weight < t.weight := by
  have := t.weight_kind_le
  have := weight_le_of_mem hm
  rw [h] at *
  simp only [weight] at *
  omega

theorem shapeEntry_eq (t : PhpType) (key : String) :
    shapeEntry t key = shapeEntryBody (shapeEntry · key) key t := by
  refine guardedFix_eq ?_ t
  intro f g a h
  dsimp only
  unfold shapeEntryBody
  split
  · rename_i unsealed hunsealed
    obtain rfl := asUnsealedShape_eq_some hunsealed
    exact h _ (by simp only [weight]; omega)
  · split
    case h_2 inner heq => exact h inner (weight_lt_of_kind_nullable heq)
    case h_3 members heq =>
        exact findSome?_congr_of_mem fun m hm => h m (weight_lt_of_kind_union heq hm)
    case h_4 members heq =>
        exact findSome?_congr_of_mem fun m hm => h m (weight_lt_of_kind_intersection heq hm)
    all_goals rfl

theorem evaluateKeyOf_eq [DedupHasher] (resolved : PhpType) :
    evaluateKeyOf resolved = evaluateKeyOfBody evaluateKeyOf resolved := by
  refine guardedFix_eq ?_ resolved
  intro f g a h
  unfold evaluateKeyOfBody
  split
  case h_2 members heq =>
      rw [List.map_congr_left fun m hm => h m (weight_lt_of_kind_union heq hm)]
  all_goals rfl

end PhpantomLsp
