import Mathlib

/-!
# Finite tables

A table is a finite map compared by its lookups.  The lemmas give what each
update does to a lookup, by equality of keys.

A bucket table maps a key to a list, an absent key standing for the empty
list.  `push` and `retainIn` are the two updates such an index makes: add one
value to a bucket, and thin one bucket out, dropping the bucket when nothing
is left.  `Tidy` says that no bucket is empty and none holds a value twice.
-/

namespace PhpantomLsp.Lib

universe u v

/-- A finite map whose keys are ordered. -/
abbrev Table (κ : Type u) (ν : Type v) [Ord κ] := Std.ExtTreeMap κ ν compare

namespace Table

variable {κ : Type u} {ν : Type v} [Ord κ] [Std.TransOrd κ]

theorem get_empty (a : κ) : (∅ : Table κ ν)[a]? = none :=
  Std.ExtTreeMap.getElem?_empty

variable [Std.LawfulEqOrd κ]

theorem get_insert [DecidableEq κ] (t : Table κ ν) (k a : κ) (v : ν) :
    (t.insert k v)[a]? = if k = a then some v else t[a]? := by
  rw [Std.ExtTreeMap.getElem?_insert]
  by_cases h : k = a
  · simp [h]
  · simp [h]

theorem get_insert_self (t : Table κ ν) (k : κ) (v : ν) : (t.insert k v)[k]? = some v := by
  simp

theorem get_insert_of_ne (t : Table κ ν) {k a : κ} (v : ν) (h : k ≠ a) :
    (t.insert k v)[a]? = t[a]? := by
  simp [Std.ExtTreeMap.getElem?_insert, h]

theorem get_erase [DecidableEq κ] (t : Table κ ν) (k a : κ) :
    (t.erase k)[a]? = if k = a then none else t[a]? := by
  rw [Std.ExtTreeMap.getElem?_erase]
  by_cases h : k = a
  · simp [h]
  · simp [h]

end Table

/-! ## Buckets -/

section Buckets

variable {κ : Type u} {ν : Type v} [Ord κ] [Std.TransOrd κ]

/-- The values filed under a key. -/
def filed (t : Table κ (List ν)) (k : κ) : List ν := (t[k]?).getD []

/-- File one more value under a key. -/
def push (t : Table κ (List ν)) (k : κ) (v : ν) : Table κ (List ν) :=
  match t[k]? with
  | some values => t.insert k (values ++ [v])
  | none => t.insert k [v]

/-- Keep the values of one bucket that pass, and the bucket only when it keeps
any. -/
def retainIn (t : Table κ (List ν)) (k : κ) (keep : ν → Bool) : Table κ (List ν) :=
  match t[k]? with
  | none => t
  | some values =>
      if (values.filter keep).isEmpty then t.erase k else t.insert k (values.filter keep)

/-- No bucket is empty and no bucket holds a value twice. -/
structure Tidy (t : Table κ (List ν)) : Prop where
  nonempty : ∀ (k : κ) (values : List ν), t[k]? = some values → values ≠ []
  nodup : ∀ (k : κ) (values : List ν), t[k]? = some values → values.Nodup

@[simp] theorem filed_empty (k : κ) : filed (∅ : Table κ (List ν)) k = [] := by
  simp [filed]

theorem filed_of_get {t : Table κ (List ν)} {k : κ} {values : List ν}
    (h : t[k]? = some values) : filed t k = values := by
  simp [filed, h]

theorem nodup_filed {t : Table κ (List ν)} (ht : Tidy t) (k : κ) : (filed t k).Nodup := by
  unfold filed
  cases hk : t[k]? with
  | none => exact List.nodup_nil
  | some values => exact ht.nodup k values hk

theorem tidy_empty : Tidy (∅ : Table κ (List ν)) := by
  constructor
  · intro k values h
    simp at h
  · intro k values h
    simp at h

variable [Std.LawfulEqOrd κ]

theorem filed_insert [DecidableEq κ] (t : Table κ (List ν)) (k a : κ) (values : List ν) :
    filed (t.insert k values) a = if k = a then values else filed t a := by
  unfold filed
  rw [Table.get_insert]
  split
  · rfl
  · rfl

theorem filed_erase [DecidableEq κ] (t : Table κ (List ν)) (k a : κ) :
    filed (t.erase k) a = if k = a then [] else filed t a := by
  unfold filed
  rw [Table.get_erase]
  split
  · rfl
  · rfl

theorem filed_push [DecidableEq κ] (t : Table κ (List ν)) (k a : κ) (v : ν) :
    filed (push t k v) a = if k = a then filed t a ++ [v] else filed t a := by
  unfold push
  cases hk : t[k]? with
  | none =>
      simp only [filed_insert]
      by_cases h : k = a
      · subst h
        simp [filed, hk]
      · simp [h]
  | some values =>
      simp only [filed_insert]
      by_cases h : k = a
      · subst h
        simp [filed, hk]
      · simp [h]

theorem filed_retainIn [DecidableEq κ] (t : Table κ (List ν)) (k a : κ) (keep : ν → Bool) :
    filed (retainIn t k keep) a =
      if k = a then (filed t a).filter keep else filed t a := by
  unfold retainIn
  cases hk : t[k]? with
  | none =>
      by_cases h : k = a
      · subst h
        simp [filed, hk]
      · simp [h]
  | some values =>
      by_cases hempty : (values.filter keep).isEmpty = true
      · simp only [hempty, if_true, filed_erase]
        by_cases h : k = a
        · subst h
          simp only [if_true, filed, hk, Option.getD_some]
          exact (List.isEmpty_iff.mp hempty).symm
        · simp [h]
      · simp only [if_neg hempty, filed_insert]
        by_cases h : k = a
        · subst h
          simp [filed, hk]
        · simp [h]

theorem tidy_insert {t : Table κ (List ν)} (ht : Tidy t) {k : κ} {values : List ν}
    (hne : values ≠ []) (hnodup : values.Nodup) : Tidy (t.insert k values) := by
  classical
  constructor
  · intro a found h
    rw [Table.get_insert] at h
    split at h
    · rwa [← Option.some.inj h]
    · exact ht.nonempty a found h
  · intro a found h
    rw [Table.get_insert] at h
    split at h
    · rwa [← Option.some.inj h]
    · exact ht.nodup a found h

theorem tidy_erase {t : Table κ (List ν)} (ht : Tidy t) (k : κ) : Tidy (t.erase k) := by
  classical
  constructor
  · intro a found h
    rw [Table.get_erase] at h
    split at h
    · exact absurd h (by simp)
    · exact ht.nonempty a found h
  · intro a found h
    rw [Table.get_erase] at h
    split at h
    · exact absurd h (by simp)
    · exact ht.nodup a found h

theorem tidy_push {t : Table κ (List ν)} (ht : Tidy t) {k : κ} {v : ν}
    (hfresh : v ∉ filed t k) : Tidy (push t k v) := by
  unfold push
  cases hk : t[k]? with
  | none => exact tidy_insert ht (by simp) (List.nodup_singleton v)
  | some values =>
      rw [filed_of_get hk] at hfresh
      apply tidy_insert ht
      · simp
      · exact List.nodup_append.mpr ⟨ht.nodup k values hk, List.nodup_singleton v, by
          intro x hx y hy heq
          rw [List.mem_singleton] at hy
          exact hfresh (hy ▸ heq ▸ hx)⟩

theorem tidy_retainIn {t : Table κ (List ν)} (ht : Tidy t) (k : κ) (keep : ν → Bool) :
    Tidy (retainIn t k keep) := by
  unfold retainIn
  cases hk : t[k]? with
  | none => exact ht
  | some values =>
      by_cases hempty : (values.filter keep).isEmpty = true
      · simp only [hempty, if_true]
        exact tidy_erase ht k
      · simp only [if_neg hempty]
        apply tidy_insert ht
        · intro hnil
          exact hempty (by simp [hnil])
        · exact (ht.nodup k values hk).filter keep

theorem filed_foldl_erase [DecidableEq κ] (keys : List κ) (t : Table κ (List ν)) (a : κ) :
    filed (keys.foldl (fun t k => t.erase k) t) a = if a ∈ keys then [] else filed t a := by
  induction keys generalizing t with
  | nil => simp
  | cons k rest ih =>
      rw [List.foldl_cons, ih, filed_erase]
      by_cases hk : k = a
      · simp [hk]
      · by_cases hrest : a ∈ rest
        · simp [hrest]
        · simp [hrest, hk, Ne.symm hk]

/-! ### Pushing what is not there yet -/

variable [DecidableEq ν]

/-- File one more value under a key unless it is filed there already. -/
def pushUnique (t : Table κ (List ν)) (k : κ) (v : ν) : Table κ (List ν) :=
  if v ∈ filed t k then t else push t k v

theorem mem_filed_pushUnique [DecidableEq κ] (t : Table κ (List ν)) (k a : κ) (v w : ν) :
    w ∈ filed (pushUnique t k v) a ↔ w ∈ filed t a ∨ (k = a ∧ w = v) := by
  unfold pushUnique
  by_cases hmem : v ∈ filed t k
  · rw [if_pos hmem]
    constructor
    · exact Or.inl
    · intro h
      rcases h with h | ⟨rfl, rfl⟩
      · exact h
      · exact hmem
  · rw [if_neg hmem, filed_push]
    by_cases hk : k = a
    · simp [hk]
    · simp [hk]

theorem mem_filed_foldl_pushUnique [DecidableEq κ] (pairs : List (κ × ν))
    (t : Table κ (List ν)) (a : κ) (w : ν) :
    w ∈ filed (pairs.foldl (fun t p => pushUnique t p.1 p.2) t) a ↔
      w ∈ filed t a ∨ (a, w) ∈ pairs := by
  induction pairs generalizing t with
  | nil => simp
  | cons p rest ih =>
      rw [List.foldl_cons, ih, mem_filed_pushUnique, List.mem_cons, Prod.ext_iff, or_assoc]
      simp only [eq_comm]

end Buckets

/-! ## Lists worked out beside a table

A table of lists can be updated through a second one that holds the lists
rebuilt so far; a list not rebuilt yet starts out as the first table has it.
`writeBack` puts the rebuilt lists in place and drops the empty ones.
-/

section Worked

variable {κ : Type u} {ν : Type v} [Ord κ] [Std.TransOrd κ]

/-- The list under a key as it stands. -/
def worked (base lists : Table κ (List ν)) (k : κ) : List ν := (lists[k]?).getD (filed base k)

def writeBack (base lists : Table κ (List ν)) : Table κ (List ν) :=
  lists.foldl (fun t k values => if values.isEmpty then t.erase k else t.insert k values) base

variable [Std.LawfulEqOrd κ]

theorem worked_insert [DecidableEq κ] (base lists : Table κ (List ν)) (k a : κ)
    (values : List ν) :
    worked base (lists.insert k values) a = if k = a then values else worked base lists a := by
  unfold worked
  rw [Table.get_insert]
  split
  · rfl
  · rfl

theorem filed_putBack [DecidableEq κ] (t : Table κ (List ν)) (k a : κ) (values : List ν) :
    filed (if values.isEmpty then t.erase k else t.insert k values) a =
      if k = a then values else filed t a := by
  by_cases hempty : values.isEmpty = true
  · rw [if_pos hempty, filed_erase, List.isEmpty_iff.mp hempty]
  · rw [if_neg hempty, filed_insert]

omit [Std.LawfulEqOrd κ] in
theorem worked_empty (base : Table κ (List ν)) (a : κ) : worked base ∅ a = filed base a := by
  simp [worked]

theorem find_toList {μ : Type v} [DecidableEq κ] (t : Table κ μ) (a : κ) :
    (t.toList.find? (fun p => p.1 = a)).map Prod.snd = t[a]? := by
  cases hfind : t.toList.find? (fun p => p.1 = a) with
  | some p =>
      have hp : p.1 = a := by
        have hfound := List.find?_some hfind
        exact of_decide_eq_true hfound
      have hmem : (p.1, p.2) ∈ t.toList := List.mem_of_find?_eq_some hfind
      rw [Std.ExtTreeMap.mem_toList_iff_getElem?_eq_some, hp] at hmem
      rw [hmem]
      rfl
  | none =>
      cases hget : t[a]? with
      | none => rfl
      | some v =>
          have hmem := Std.ExtTreeMap.mem_toList_iff_getElem?_eq_some.mpr hget
          have hfound := List.find?_eq_none.mp hfind (a, v) hmem
          simp at hfound

theorem filed_writeBack [DecidableEq κ] (base lists : Table κ (List ν)) (a : κ) :
    filed (writeBack base lists) a = worked base lists a := by
  -- one list is written back after another, and each key has one
  have hstep (entries : List (κ × List ν)) (hkeys : entries.Pairwise (fun p q => p.1 ≠ q.1))
      (t : Table κ (List ν)) :
      filed (entries.foldl (fun t p =>
        if p.2.isEmpty then t.erase p.1 else t.insert p.1 p.2) t) a =
        ((entries.find? (fun p => p.1 = a)).map Prod.snd).getD (filed t a) := by
    induction entries generalizing t with
    | nil => rfl
    | cons p rest ih =>
        rw [List.foldl_cons, ih hkeys.of_cons, filed_putBack]
        by_cases hp : p.1 = a
        · have hrest : rest.find? (fun q => q.1 = a) = none := by
            apply List.find?_eq_none.mpr
            intro q hq hqa
            exact List.rel_of_pairwise_cons hkeys hq (hp.trans (of_decide_eq_true hqa).symm)
          rw [hrest, List.find?_cons_of_pos (by simp [hp])]
          simp [hp]
        · rw [List.find?_cons_of_neg (by simp [hp]), if_neg hp]
  have hkeys : lists.toList.Pairwise (fun p q => p.1 ≠ q.1) := by
    apply Std.ExtTreeMap.distinct_keys_toList.imp
    intro p q hpq heq
    exact hpq (heq ▸ Std.ReflCmp.compare_self)
  unfold writeBack worked
  rw [Std.ExtTreeMap.foldl_eq_foldl_toList, hstep lists.toList hkeys, find_toList]

end Worked

end PhpantomLsp.Lib
