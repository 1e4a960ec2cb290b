import PhpantomLsp.PhpType.Absorb

/-!
# Constructors that normalise

The forms whose constructor does more than build the node: a marker that only
tags what it means something on, a template parameter that never wraps
another, and a class-string that names the enum of an enum case.
-/

namespace PhpantomLsp.PhpType

open Lib

/-- `PhpType::benevolent`: only a union or a `?T` is tagged, and only once. -/
def mkBenevolent (inner : PhpType) : PhpType :=
  if inner.isBenevolent then inner
  else
    match inner.kind with
    | .union _ => .benevolent inner
    | .nullable _ => .benevolent inner
    | _ => inner

/-- `PhpType::template_param`: a bound that is itself a template parameter
contributes its own bound. -/
def mkTemplateParam (name : Atom) (bound : PhpType) : PhpType :=
  match bound.asTemplateParam with
  | some (_, inner) => .templateParam name inner
  | none => .templateParam name bound

section

variable [DedupHasher]

/-- One round of `enumCasesAsEnums`. -/
def enumCasesAsEnumsBody (recur : PhpType → PhpType) (t : PhpType) : PhpType :=
  match t.asEnumCase with
  | some (enumName, _) => .named enumName
  | none =>
      match t.kind with
      | .union members =>
          if members.any fun m => m.asEnumCase.isSome then mkUnion (members.map recur) else t
      | .nullable inner => if inner.asEnumCase.isSome then .nullable (recur inner) else t
      | _ => t

/-- `enum_cases_as_enums`: every enum case among the alternatives read as the
whole enum. -/
def enumCasesAsEnums (t : PhpType) : PhpType := guardedFix weight t enumCasesAsEnumsBody t

/-- `PhpType::class_string`. -/
def mkClassString (inner : Option PhpType) : PhpType := .classString (inner.map enumCasesAsEnums)

/-- `PhpType::interface_string`. -/
def mkInterfaceString (inner : Option PhpType) : PhpType :=
  .interfaceString (inner.map enumCasesAsEnums)

theorem enumCasesAsEnums_eq (t : PhpType) :
    enumCasesAsEnums t = enumCasesAsEnumsBody enumCasesAsEnums t := by
  have hbody : Decreases weight enumCasesAsEnumsBody := by
    intro f g a h
    unfold enumCasesAsEnumsBody
    split
    · rfl
    · split
      · rename_i members hkind
        rw [List.map_congr_left fun m hm => h m (weight_lt_of_kind_union hkind hm)]
      · rename_i inner hkind
        rw [h inner (weight_lt_of_kind_nullable hkind)]
      · rfl
  have hcut : ∀ s u : PhpType, guardedFix weight s enumCasesAsEnumsBody u =
      guardedFix weight t enumCasesAsEnumsBody u := by
    intro s u
    induction u using measure_induction weight with
    | step u ih =>
        rw [guardedFix_eq hbody, guardedFix_eq hbody]
        exact hbody _ _ _ ih
  unfold enumCasesAsEnums
  rw [guardedFix_eq hbody]
  exact hbody _ _ _ (fun u _ => hcut t u ▸ (hcut u u).symm)

end

end PhpantomLsp.PhpType
