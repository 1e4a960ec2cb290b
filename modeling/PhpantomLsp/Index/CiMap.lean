import PhpantomLsp.Lib.Table
import PhpantomLsp.Text.Ascii

/-!
# Maps keyed by case-folded names

`CiMap` folds the ASCII letters of a name to lower case and keeps the spelling
it was last inserted under beside the value.  Lookups see the folded name
alone; iteration hands the spellings back.
-/

namespace PhpantomLsp.Index

open PhpantomLsp.Lib
open PhpantomLsp.Text

/-- `ci_map::fold`. -/
def fold (key : String) : String := asciiLower key

/-- The inner table, from the folded name to the spelling and the value; a
spelling folds to the name it is filed under. -/
structure CiMap (ν : Type) where
  inner : Table String (String × ν)
  spelled : ∀ (key : String) (entry : String × ν), inner[key]? = some entry → fold entry.1 = key

namespace CiMap

variable {ν : Type}

def empty : CiMap ν where
  inner := ∅
  spelled key entry h := by simp at h

def get (m : CiMap ν) (key : String) : Option ν := (m.inner[fold key]?).map Prod.snd

def insert (m : CiMap ν) (key : String) (value : ν) : CiMap ν where
  inner := m.inner.insert (fold key) (key, value)
  spelled k entry h := by
    rw [Table.get_insert] at h
    by_cases hk : fold key = k
    · rw [if_pos hk] at h
      rw [← Option.some.inj h]
      exact hk
    · rw [if_neg hk] at h
      exact m.spelled k entry h

def remove (m : CiMap ν) (key : String) : CiMap ν where
  inner := m.inner.erase (fold key)
  spelled k entry h := by
    rw [Table.get_erase] at h
    by_cases hk : fold key = k
    · rw [if_pos hk] at h
      exact absurd h (by simp)
    · rw [if_neg hk] at h
      exact m.spelled k entry h

/-- Write `value` through `get_mut`, which keeps the spelling. -/
def set (m : CiMap ν) (key : String) (value : ν) : CiMap ν where
  inner :=
    match m.inner[fold key]? with
    | some entry => m.inner.insert (fold key) (entry.1, value)
    | none => m.inner
  spelled k entry h := by
    cases hold : m.inner[fold key]? with
    | none =>
        simp only [hold] at h
        exact m.spelled k entry h
    | some old =>
        simp only [hold] at h
        rw [Table.get_insert] at h
        by_cases hk : fold key = k
        · rw [if_pos hk] at h
          rw [← Option.some.inj h, ← hk]
          exact m.spelled (fold key) old hold
        · rw [if_neg hk] at h
          exact m.spelled k entry h

/-- `retain` with a closure that also rewrites the value it keeps. -/
def retainMap (m : CiMap ν) (f : ν → Option ν) : CiMap ν where
  inner := m.inner.filterMap fun _ entry => (f entry.2).map fun value => (entry.1, value)
  spelled k entry h := by
    rw [Std.ExtTreeMap.getElem?_filterMap'] at h
    obtain ⟨old, hold, hmap⟩ := Option.bind_eq_some_iff.mp h
    obtain ⟨value, _, hentry⟩ := Option.map_eq_some_iff.mp hmap
    rw [← hentry]
    exact m.spelled k old hold

/-- Spellings and values, as iteration hands them out. -/
def entries (m : CiMap ν) : List (String × ν) := m.inner.toList.map Prod.snd

def isEmpty (m : CiMap ν) : Bool := m.inner.isEmpty

@[simp] theorem get_empty (key : String) : (empty : CiMap ν).get key = none := by
  simp [get, empty]

theorem get_congr (m : CiMap ν) {key key' : String} (h : fold key = fold key') :
    m.get key = m.get key' := by
  unfold get
  rw [h]

theorem get_insert (m : CiMap ν) (key a : String) (value : ν) :
    (m.insert key value).get a = if fold key = fold a then some value else m.get a := by
  unfold get insert
  rw [Table.get_insert]
  split
  · rfl
  · rfl

theorem get_remove (m : CiMap ν) (key a : String) :
    (m.remove key).get a = if fold key = fold a then none else m.get a := by
  unfold get remove
  rw [Table.get_erase]
  split
  · rfl
  · rfl

theorem get_set (m : CiMap ν) (key a : String) (value : ν) :
    (m.set key value).get a =
      if fold key = fold a ∧ (m.get a).isSome then some value else m.get a := by
  unfold get set
  dsimp only
  cases hold : m.inner[fold key]? with
  | none =>
      by_cases hk : fold key = fold a
      · simp [hk, hk ▸ hold]
      · simp [hk]
  | some old =>
      simp only [Table.get_insert]
      by_cases hk : fold key = fold a
      · simp [hk, hk ▸ hold]
      · simp [hk]

theorem get_retainMap (m : CiMap ν) (f : ν → Option ν) (a : String) :
    (m.retainMap f).get a = (m.get a).bind f := by
  unfold get retainMap
  rw [Std.ExtTreeMap.getElem?_filterMap']
  cases m.inner[fold a]? with
  | none => rfl
  | some entry =>
      cases hf : f entry.2 with
      | none => simp [hf]
      | some value => simp [hf]

theorem mem_entries {m : CiMap ν} {name : String} {value : ν} :
    (name, value) ∈ m.entries ↔ m.inner[fold name]? = some (name, value) := by
  unfold entries
  rw [List.mem_map]
  constructor
  · rintro ⟨⟨key, entry⟩, hmem, heq⟩
    simp only at heq
    subst heq
    rw [Std.ExtTreeMap.mem_toList_iff_getElem?_eq_some] at hmem
    rw [show fold name = key from m.spelled key _ hmem]
    exact hmem
  · intro h
    exact ⟨(fold name, (name, value)), Std.ExtTreeMap.mem_toList_iff_getElem?_eq_some.mpr h, rfl⟩

/-- Iteration meets every folded name once. -/
theorem nodup_entries (m : CiMap ν) : (m.entries.map fun entry => fold entry.1).Nodup := by
  have hkeys : (m.entries.map fun entry => fold entry.1) = m.inner.toList.map Prod.fst := by
    unfold entries
    rw [List.map_map]
    apply List.map_congr_left
    intro item hitem
    exact m.spelled item.1 item.2
      (Std.ExtTreeMap.mem_toList_iff_getElem?_eq_some.mp hitem)
  rw [hkeys]
  have hdistinct := Std.ExtTreeMap.distinct_keys_toList (t := m.inner)
  rw [List.Nodup, List.pairwise_map]
  apply hdistinct.imp
  intro a b hne heq
  exact hne (by rw [heq]; exact Std.ReflCmp.compare_self)

/-- A name has a value exactly when iteration meets one that folds to it. -/
theorem exists_entry_iff (m : CiMap ν) (a : String) (value : ν) :
    m.get a = some value ↔ ∃ name, fold name = fold a ∧ (name, value) ∈ m.entries := by
  constructor
  · intro h
    obtain ⟨entry, hentry, hvalue⟩ := Option.map_eq_some_iff.mp h
    have hname := m.spelled (fold a) entry hentry
    refine ⟨entry.1, hname, ?_⟩
    rw [mem_entries, hname, hentry, ← hvalue]
  · rintro ⟨name, hname, hmem⟩
    rw [mem_entries] at hmem
    rw [get, ← hname, hmem]
    rfl

theorem get_of_isEmpty {m : CiMap ν} (h : m.isEmpty = true) (a : String) : m.get a = none := by
  unfold get
  rw [Std.ExtTreeMap.isEmpty_iff.mp h, Table.get_empty]
  rfl

end CiMap

end PhpantomLsp.Index
