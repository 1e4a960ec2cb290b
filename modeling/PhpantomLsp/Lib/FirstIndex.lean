import PhpantomLsp.Lib.Table

/-!
# An index of first occurrences

A list of items that are looked up by a key can keep, beside the list, where
each key stands first.  An item put at the end of the list is noted unless its
key is there already, so the index stays right as the list grows
(`Indexes.concat`).  Where everything a lookup accepts has the key it is looked
up by, the index answers as a scan of the list (`any_of_indexes`).
-/

namespace PhpantomLsp.Lib

universe u v

variable {α : Type u} {κ : Type v} [Ord κ] [Std.TransOrd κ]

/-- The place is noted unless the key has one: `entry(k).or_insert(at)`. -/
def noteFirst (first : Table κ Nat) (k : κ) (at' : Nat) : Table κ Nat :=
  match first[k]? with
  | some _ => first
  | none => first.insert k at'

/-- Where each key of the items stands first, noted from `at'` on. -/
def noteAll (keyOf : α → κ) (first : Table κ Nat) (at' : Nat) : List α → Table κ Nat
  | [] => first
  | item :: items => noteAll keyOf (noteFirst first (keyOf item) at') (at' + 1) items

/-- The index of a list. -/
def firstOf (keyOf : α → κ) (items : List α) : Table κ Nat := noteAll keyOf ∅ 0 items

/-- The table says where each key stands first. -/
def Indexes [DecidableEq κ] (keyOf : α → κ) (items : List α) (first : Table κ Nat) : Prop :=
  ∀ k, first[k]? = items.findIdx? fun item => keyOf item = k

/-- What a lookup by a key does: the first item of the key, and a scan where that is
not accepted. -/
def lookUp (first : Table κ Nat) (items : List α) (k : κ) (accepts : α → Bool) : Bool :=
  match first[k]? with
  | none => false
  | some at' => items[at']?.any accepts || items.any accepts

variable [DecidableEq κ] {keyOf : α → κ} {items : List α} {first : Table κ Nat}

theorem indexes_nil (keyOf : α → κ) : Indexes keyOf [] (∅ : Table κ Nat) :=
  fun k => Table.get_empty k

/-- The index answers as a scan, for what is accepted under its own key only. -/
theorem any_of_indexes (h : Indexes keyOf items first) {k : κ} {accepts : α → Bool}
    (hkey : ∀ item, accepts item = true → keyOf item = k) :
    lookUp first items k accepts = items.any accepts := by
  unfold lookUp
  rw [h k]
  cases hfind : items.findIdx? (fun item => decide (keyOf item = k)) with
  | none =>
      rw [List.findIdx?_eq_none_iff] at hfind
      symm
      rw [List.any_eq_false]
      intro item hitem haccepts
      have hnot := hfind item hitem
      rw [decide_eq_false_iff_not] at hnot
      exact hnot (hkey item haccepts)
  | some at' =>
      show (items[at']?.any accepts || items.any accepts) = items.any accepts
      cases hitem : items[at']? with
      | none => rfl
      | some item =>
          by_cases haccepts : accepts item = true
          · have hmem := List.mem_of_getElem? hitem
            have hany : items.any accepts = true := List.any_eq_true.mpr ⟨item, hmem, haccepts⟩
            rw [hany, Bool.or_true]
          · rw [Bool.not_eq_true] at haccepts
            rw [Option.any_some, haccepts, Bool.false_or]

variable [Std.LawfulEqOrd κ]

theorem get_noteFirst (first : Table κ Nat) (k a : κ) (at' : Nat) :
    (noteFirst first k at')[a]? = (first[a]?).or (if k = a then some at' else none) := by
  unfold noteFirst
  split
  · rename_i known hknown
    by_cases hka : k = a
    · rw [← hka, hknown]
      rfl
    · rw [if_neg hka, Option.or_none]
  · rename_i hnone
    rw [Table.get_insert]
    by_cases hka : k = a
    · rw [if_pos hka, if_pos hka, ← hka, hnone]
      rfl
    · rw [if_neg hka, if_neg hka, Option.or_none]

/-- An item put at the end is noted under the place it has there. -/
theorem Indexes.concat (h : Indexes keyOf items first) (item : α) :
    Indexes keyOf (items ++ [item]) (noteFirst first (keyOf item) items.length) := by
  intro k
  rw [get_noteFirst, h k, List.findIdx?_append]
  congr 1
  by_cases hk : keyOf item = k
  · simp [hk]
  · simp [hk]

theorem Indexes.noteAll {more : List α} (h : Indexes keyOf items first) :
    Indexes keyOf (items ++ more) (noteAll keyOf first items.length more) := by
  induction more generalizing items first with
  | nil =>
      rw [List.append_nil]
      exact h
  | cons item more ih =>
      have hnext := ih (h.concat item)
      rw [List.append_assoc, List.length_append, List.length_singleton] at hnext
      exact hnext

/-- The index of a list says where each of its keys stands first. -/
theorem indexes_firstOf (keyOf : α → κ) (items : List α) :
    Indexes keyOf items (firstOf keyOf items) :=
  (indexes_nil keyOf).noteAll

end PhpantomLsp.Lib
