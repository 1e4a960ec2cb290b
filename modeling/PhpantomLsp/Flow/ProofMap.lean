import PhpantomLsp.Flow.KeyReads

/-!
# Proof maps and their index

A proof map files proofs under a holder and keeps, for each `$name` token, the
holders that spell it or have a subject that does.  The index only ever grows,
so it lists holders that are gone, but it misses none (`Built.indexed`).  A
removal that goes by the index therefore removes what a look at every entry
would, as long as it rejects nothing that does not spell the token
(`retainMentioning_eq_scan`, `retainItemsMentioning_eq_scan`).
-/

namespace PhpantomLsp.Flow

open Text Lib PhpType

/-- The keys a proof is about, besides its holder. -/
class ProofSubjects (ν : Type) where
  subjects : ν → List Atom

/-- The key one item of a list of proofs is about. -/
class ProofItem (τ : Type) where
  subject : τ → Option Atom

instance {τ : Type} [ProofItem τ] : ProofSubjects (List τ) where
  subjects items := items.filterMap ProofItem.subject

/-- A proof map; the entries are a finite map and the clones of a map the map
itself. -/
structure ProofMap (ν : Type) where
  map : Table Atom ν
  mentions : Table Atom (List Atom)

/-! ## Looking at every entry -/

section Scan

variable {ν τ : Type}

/-- `AtomTrie::retain_items`: the items `keep` rejects are dropped from every
list, and the lists this leaves empty. -/
def retainItems (keep : τ → Bool) (map : Table Atom (List τ)) : Table Atom (List τ) :=
  let touched := (map.toList.filter fun entry => !entry.2.all keep).map Prod.fst
  touched.foldl (fun map key => retainIn map key keep) map

/-- A list without the items `keep` rejects, unless that is nothing. -/
def thinned (keep : τ → Bool) (items : List τ) : Option (List τ) :=
  if (items.filter keep).isEmpty then none else some (items.filter keep)

/-- What a look at one entry leaves of a list. -/
def keptItems (keep : τ → Bool) (items : List τ) : Option (List τ) :=
  if items.all keep then some items else thinned keep items

/-- Every list, looked at on its own. -/
def scanItems (keep : τ → Bool) (map : Table Atom (List τ)) : Table Atom (List τ) :=
  map.filterMap fun _ items => keptItems keep items

theorem get_scanItems (keep : τ → Bool) (map : Table Atom (List τ)) (key : Atom) :
    (scanItems keep map)[key]? = map[key]?.bind (keptItems keep) :=
  Std.ExtTreeMap.getElem?_filterMap'

theorem get_filter (keep : Atom → ν → Bool) (map : Table Atom ν) (key : Atom) :
    (map.filter keep)[key]? = map[key]?.filter (keep key) :=
  Std.ExtTreeMap.getElem?_filter'

/-- A list of kept items keeps them all. -/
theorem thinned_bind (keep : τ → Bool) (items : Option (List τ)) :
    (items.bind (thinned keep)).bind (thinned keep) = items.bind (thinned keep) := by
  cases items with
  | none => rfl
  | some items =>
      rw [Option.bind_some]
      unfold thinned
      by_cases hempty : (items.filter keep).isEmpty = true
      · rw [if_pos hempty]
        rfl
      · rw [if_neg hempty, Option.bind_some, List.filter_filter]
        simp only [Bool.and_self]
        rw [if_neg hempty]

theorem get_retainIn (keep : τ → Bool) (map : Table Atom (List τ)) (key a : Atom) :
    (retainIn map key keep)[a]? = if key = a then map[a]?.bind (thinned keep) else map[a]? := by
  unfold retainIn
  cases hget : map[key]? with
  | none =>
      by_cases ha : key = a
      · rw [if_pos ha, ← ha, hget]
        rfl
      · rw [if_neg ha]
  | some items =>
      show (if (items.filter keep).isEmpty then map.erase key
        else map.insert key (items.filter keep))[a]? = _
      by_cases hempty : (items.filter keep).isEmpty = true
      · rw [if_pos hempty, Table.get_erase]
        by_cases ha : key = a
        · rw [if_pos ha, if_pos ha, ← ha, hget, Option.bind_some, thinned, if_pos hempty]
        · rw [if_neg ha, if_neg ha]
      · rw [if_neg hempty, Table.get_insert]
        by_cases ha : key = a
        · rw [if_pos ha, if_pos ha, ← ha, hget, Option.bind_some, thinned, if_neg hempty]
        · rw [if_neg ha, if_neg ha]

/-- Thinning out the lists of some keys once is enough. -/
theorem get_foldl_retainIn (keep : τ → Bool) (keys : List Atom) (map : Table Atom (List τ))
    (a : Atom) :
    (keys.foldl (fun map key => retainIn map key keep) map)[a]? =
      if a ∈ keys then map[a]?.bind (thinned keep) else map[a]? := by
  induction keys generalizing map with
  | nil => simp
  | cons key rest ih =>
      rw [List.foldl_cons, ih, get_retainIn]
      by_cases hkey : key = a
      · rw [if_pos hkey, if_pos (show a ∈ key :: rest by simp [hkey]), thinned_bind, ite_self]
      · rw [if_neg hkey]
        by_cases hrest : a ∈ rest
        · rw [if_pos hrest, if_pos (List.mem_cons_of_mem _ hrest)]
        · rw [if_neg hrest, if_neg (by simp [hrest, Ne.symm hkey])]

/-- Thinning out every list that loses something is looking at every list. -/
theorem foldl_retainIn_eq_scan {keep : τ → Bool} {keys : List Atom} {map : Table Atom (List τ)}
    (hkeys : ∀ a, a ∈ keys ↔ ∃ items, map[a]? = some items ∧ items.all keep = false) :
    keys.foldl (fun map key => retainIn map key keep) map = scanItems keep map := by
  apply Std.ExtTreeMap.ext_getElem?
  intro a
  rw [get_foldl_retainIn, get_scanItems]
  by_cases ha : a ∈ keys
  · have ⟨items, hget, hall⟩ := (hkeys a).mp ha
    rw [if_pos ha, hget, Option.bind_some, Option.bind_some, keptItems, hall]
    rfl
  · rw [if_neg ha]
    cases hget : map[a]? with
    | none => rfl
    | some items =>
        have hall : items.all keep = true := by
          by_contra hall
          exact ha ((hkeys a).mpr ⟨items, hget, by rw [Bool.not_eq_true] at hall; exact hall⟩)
        rw [Option.bind_some, keptItems, hall]
        rfl

theorem retainItems_eq_scan (keep : τ → Bool) (map : Table Atom (List τ)) :
    retainItems keep map = scanItems keep map := by
  apply foldl_retainIn_eq_scan
  intro a
  simp only [List.mem_map, List.mem_filter, Prod.exists, exists_and_right, exists_eq_right,
    Std.ExtTreeMap.mem_toList_iff_getElem?_eq_some, Bool.not_eq_true']

theorem get_foldl_erase (keys : List Atom) (map : Table Atom ν) (a : Atom) :
    (keys.foldl (fun map key => map.erase key) map)[a]? = if a ∈ keys then none else map[a]? := by
  induction keys generalizing map with
  | nil => simp
  | cons key rest ih =>
      rw [List.foldl_cons, ih, Table.get_erase]
      by_cases hrest : a ∈ rest
      · rw [if_pos hrest, if_pos (List.mem_cons_of_mem _ hrest)]
      · by_cases hkey : key = a
        · rw [if_neg hrest, if_pos hkey, if_pos (by simp [hkey])]
        · rw [if_neg hrest, if_neg hkey, if_neg (by simp [hrest, Ne.symm hkey])]

/-- Taking out every entry that is rejected is looking at every entry. -/
theorem foldl_erase_eq_filter {keep : Atom → ν → Bool} {keys : List Atom} {map : Table Atom ν}
    (hkeys : ∀ a, a ∈ keys ↔ ∃ value, map[a]? = some value ∧ keep a value = false) :
    keys.foldl (fun map key => map.erase key) map = map.filter keep := by
  apply Std.ExtTreeMap.ext_getElem?
  intro a
  rw [get_foldl_erase, get_filter]
  by_cases ha : a ∈ keys
  · have ⟨value, hget, hkeep⟩ := (hkeys a).mp ha
    rw [if_pos ha, hget, Option.filter_some, hkeep]
    rfl
  · rw [if_neg ha]
    cases hget : map[a]? with
    | none => rfl
    | some value =>
        have hkeep : keep a value = true := by
          by_contra hkeep
          exact ha ((hkeys a).mpr ⟨value, hget, by rw [Bool.not_eq_true] at hkeep; exact hkeep⟩)
        rw [Option.filter_some, if_pos hkeep]

end Scan

/-! ## The operations -/

namespace ProofMap

section Operations

variable {ν : Type} [ProofSubjects ν]

/-- The tokens an entry spells. -/
def tokensOf (holder : Atom) (value : ν) : List Atom :=
  eachVariable holder ++ (ProofSubjects.subjects value).flatMap eachVariable

/-- `note_mention` -/
def noteMention (mentions : Table Atom (List Atom)) (variable' holder : Atom) :
    Table Atom (List Atom) :=
  pushUnique mentions variable' holder

def index (mentions : Table Atom (List Atom)) (holder : Atom) (value : ν) :
    Table Atom (List Atom) :=
  (tokensOf holder value).foldl (fun mentions token => noteMention mentions token holder) mentions

def empty : ProofMap ν := ⟨∅, ∅⟩

variable (m : ProofMap ν)

def insert (holder : Atom) (value : ν) : ProofMap ν :=
  ⟨m.map.insert holder value, index m.mentions holder value⟩

def remove (holder : Atom) : ProofMap ν := { m with map := m.map.erase holder }

/-- The entry is edited, created as `default` first when there is none. -/
def update [Inhabited ν] (holder : Atom) (edit : ν → ν) : ProofMap ν :=
  let value := edit ((m.map[holder]?).getD default)
  ⟨m.map.insert holder value, index m.mentions holder value⟩

def retainMentioning (varName : Atom) (keep : Atom → ν → Bool) : ProofMap ν :=
  if m.map.isEmpty then m
  else
    match firstVariable varName with
    | none => { m with map := m.map.filter keep }
    | some token =>
        match m.mentions[token]? with
        | none => m
        | some holders =>
            let doomed := holders.filter fun holder => m.map[holder]?.any fun v => !keep holder v
            { m with map := doomed.foldl (fun map holder => map.erase holder) m.map }

end Operations

section ListOperations

variable {τ : Type} [ProofItem τ] (m : ProofMap (List τ))

/-- `item` at the end of the holder's list, unless an item `same` matches is
there. -/
def pushUnique (holder : Atom) (item : τ) (same : τ → τ → Bool) : ProofMap (List τ) :=
  if m.map[holder]?.any fun items => items.any fun existing => same existing item then m
  else
    ⟨m.map.insert holder ((m.map[holder]?).getD [] ++ [item]), index m.mentions holder [item]⟩

def retainItems (keep : τ → Bool) : ProofMap (List τ) :=
  { m with map := Flow.retainItems keep m.map }

def retainItemsMentioning (varName : Atom) (keep : τ → Bool) : ProofMap (List τ) :=
  if m.map.isEmpty then m
  else
    match firstVariable varName with
    | none => { m with map := Flow.retainItems keep m.map }
    | some token =>
        match m.mentions[token]? with
        | none => m
        | some holders =>
            let touched := holders.filter fun holder =>
              m.map[holder]?.any fun items => !items.all keep
            { m with map := touched.foldl (fun map holder => retainIn map holder keep) m.map }

end ListOperations

/-! ## The index -/

section Indexed

variable {ν : Type} [ProofSubjects ν]

/-- The index misses no holder that spells a token. -/
def Indexed (m : ProofMap ν) : Prop :=
  ∀ holder value, m.map[holder]? = some value →
    ∀ token ∈ tokensOf holder value, holder ∈ filed m.mentions token

theorem mem_filed_index (mentions : Table Atom (List Atom)) (holder : Atom) (value : ν)
    (token other : Atom) :
    other ∈ filed (index mentions holder value) token ↔
      other ∈ filed mentions token ∨ (token ∈ tokensOf holder value ∧ other = holder) := by
  unfold index noteMention
  generalize tokensOf holder value = tokens
  induction tokens generalizing mentions with
  | nil => simp
  | cons t rest ih =>
      rw [List.foldl_cons, ih, mem_filed_pushUnique, List.mem_cons]
      constructor
      · intro h
        rcases h with (h | ⟨ht, hother⟩) | ⟨ht, hother⟩
        · exact Or.inl h
        · exact Or.inr ⟨Or.inl ht.symm, hother⟩
        · exact Or.inr ⟨Or.inr ht, hother⟩
      · intro h
        rcases h with h | ⟨ht | ht, hother⟩
        · exact Or.inl (Or.inl h)
        · exact Or.inl (Or.inr ⟨ht.symm, hother⟩)
        · exact Or.inr ⟨ht, hother⟩

theorem indexed_empty : Indexed (empty : ProofMap ν) := by
  intro holder value h
  simp [empty] at h

variable {m : ProofMap ν}

/-- An entry whose tokens are listed may be put in. -/
theorem Indexed.insert_of_listed (h : m.Indexed) {holder : Atom} {value : ν}
    {mentions : Table Atom (List Atom)}
    (hkept : ∀ token other, other ∈ filed m.mentions token → other ∈ filed mentions token)
    (hlisted : ∀ token ∈ tokensOf holder value, holder ∈ filed mentions token) :
    Indexed (⟨m.map.insert holder value, mentions⟩ : ProofMap ν) := by
  intro other v hget token htoken
  simp only [Table.get_insert] at hget
  by_cases hother : holder = other
  · rw [if_pos hother, Option.some.injEq] at hget
    rw [← hother, ← hget] at htoken
    rw [← hother]
    exact hlisted token htoken
  · rw [if_neg hother] at hget
    exact hkept token other (h other v hget token htoken)

theorem Indexed.insert (h : m.Indexed) (holder : Atom) (value : ν) : (m.insert holder value).Indexed :=
  h.insert_of_listed
    (fun token other hmem => (mem_filed_index _ _ _ token other).mpr (Or.inl hmem))
    (fun token htoken => (mem_filed_index _ _ _ token holder).mpr (Or.inr ⟨htoken, rfl⟩))

theorem Indexed.update [Inhabited ν] (h : m.Indexed) (holder : Atom) (edit : ν → ν) :
    (m.update holder edit).Indexed :=
  h.insert holder _

/-- Entries may go, and the ones that stay may lose subjects. -/
theorem Indexed.of_entries (h : m.Indexed) {map : Table Atom ν}
    (hmap : ∀ (holder : Atom) (value : ν), map[holder]? = some value →
      ∃ old, m.map[holder]? = some old ∧
        ∀ token ∈ tokensOf holder value, token ∈ tokensOf holder old) :
    Indexed ({ m with map := map } : ProofMap ν) := by
  intro holder value hget token htoken
  have ⟨old, hold, hsub⟩ := hmap holder value hget
  exact h holder old hold token (hsub token htoken)

theorem Indexed.of_some_entries (h : m.Indexed) {map : Table Atom ν}
    (hmap : ∀ (holder : Atom) (value : ν), map[holder]? = some value →
      m.map[holder]? = some value) :
    Indexed ({ m with map := map } : ProofMap ν) :=
  h.of_entries fun holder value hget => ⟨value, hmap holder value hget, fun _ htoken => htoken⟩

theorem Indexed.remove (h : m.Indexed) (holder : Atom) : (m.remove holder).Indexed := by
  apply h.of_some_entries
  intro other value hget
  rw [Table.get_erase] at hget
  by_cases hother : holder = other
  · rw [if_pos hother] at hget
    exact absurd hget (by simp)
  · rw [if_neg hother] at hget
    exact hget

theorem Indexed.retainMentioning (h : m.Indexed) (varName : Atom) (keep : Atom → ν → Bool) :
    (m.retainMentioning varName keep).Indexed := by
  unfold ProofMap.retainMentioning
  split
  · exact h
  split
  · apply h.of_some_entries
    intro holder value hget
    rw [get_filter] at hget
    exact Option.eq_some_of_filter_eq_some hget
  split
  · exact h
  · apply h.of_some_entries
    intro holder value hget
    rw [get_foldl_erase] at hget
    split at hget
    · exact absurd hget (by simp)
    · exact hget

end Indexed

section ListIndexed

variable {τ : Type} [ProofItem τ] {m : ProofMap (List τ)}

theorem tokensOf_append (holder : Atom) (xs ys : List τ) (token : Atom) :
    token ∈ tokensOf holder (xs ++ ys) ↔ token ∈ tokensOf holder xs ∨ token ∈ tokensOf holder ys := by
  simp only [tokensOf, ProofSubjects.subjects, List.filterMap_append, List.flatMap_append,
    List.mem_append]
  tauto

/-- Fewer items spell fewer tokens. -/
theorem tokensOf_filter (holder : Atom) (keep : τ → Bool) (items : List τ) {token : Atom}
    (h : token ∈ tokensOf holder (items.filter keep)) : token ∈ tokensOf holder items := by
  simp only [tokensOf, ProofSubjects.subjects, List.mem_append, List.mem_flatMap,
    List.mem_filterMap, List.mem_filter] at *
  rcases h with h | ⟨subject, ⟨item, ⟨hitem, _⟩, hsubject⟩, htoken⟩
  · exact Or.inl h
  · exact Or.inr ⟨subject, ⟨item, hitem, hsubject⟩, htoken⟩

theorem Indexed.pushUnique (h : m.Indexed) (holder : Atom) (item : τ) (same : τ → τ → Bool) :
    (m.pushUnique holder item same).Indexed := by
  unfold ProofMap.pushUnique
  split
  · exact h
  · apply h.insert_of_listed
    · intro token other hmem
      exact (mem_filed_index _ _ _ token other).mpr (Or.inl hmem)
    · intro token htoken
      rw [mem_filed_index]
      rcases (tokensOf_append _ _ _ _).mp htoken with htoken | htoken
      · cases hget : m.map[holder]? with
        | none =>
            -- a holder with no items is noted with the new one
            rw [hget] at htoken
            refine Or.inr ⟨?_, rfl⟩
            simp only [tokensOf, List.mem_append] at htoken ⊢
            rcases htoken with htoken | htoken
            · exact Or.inl htoken
            · exact absurd htoken (by simp [ProofSubjects.subjects])
        | some items =>
            rw [hget] at htoken
            exact Or.inl (h holder items hget token htoken)
      · exact Or.inr ⟨htoken, rfl⟩

theorem Indexed.foldl_retainIn (h : m.Indexed) (keep : τ → Bool) (keys : List Atom) :
    Indexed ({ m with map := keys.foldl (fun map key => retainIn map key keep) m.map } :
      ProofMap (List τ)) := by
  apply h.of_entries
  intro holder items hget
  rw [get_foldl_retainIn] at hget
  by_cases hmem : holder ∈ keys
  · rw [if_pos hmem] at hget
    have ⟨old, hold, hthin⟩ := Option.bind_eq_some_iff.mp hget
    refine ⟨old, hold, ?_⟩
    intro token htoken
    unfold thinned at hthin
    split at hthin
    · exact absurd hthin (by simp)
    · rw [Option.some.injEq] at hthin
      rw [← hthin] at htoken
      exact tokensOf_filter holder keep old htoken
  · rw [if_neg hmem] at hget
    exact ⟨items, hget, fun _ htoken => htoken⟩

theorem Indexed.retainItems (h : m.Indexed) (keep : τ → Bool) : (m.retainItems keep).Indexed :=
  h.foldl_retainIn keep _

theorem Indexed.retainItemsMentioning (h : m.Indexed) (varName : Atom) (keep : τ → Bool) :
    (m.retainItemsMentioning varName keep).Indexed := by
  unfold ProofMap.retainItemsMentioning
  split
  · exact h
  split
  · exact h.foldl_retainIn keep _
  split
  · exact h
  · exact h.foldl_retainIn keep _

end ListIndexed

/-! ## Maps that are built by the operations -/

section Built

variable {ν τ : Type}

/-- One operation on a map of proofs. -/
inductive Step [ProofSubjects ν] (m : ProofMap ν) : ProofMap ν → Prop
  | insert (holder : Atom) (value : ν) : Step m (m.insert holder value)
  | remove (holder : Atom) : Step m (m.remove holder)
  | update [Inhabited ν] (holder : Atom) (edit : ν → ν) : Step m (m.update holder edit)
  | retainMentioning (varName : Atom) (keep : Atom → ν → Bool) :
      Step m (m.retainMentioning varName keep)

/-- One operation on a map of lists of proofs. -/
inductive ListStep [ProofItem τ] (m : ProofMap (List τ)) : ProofMap (List τ) → Prop
  | step {m' : ProofMap (List τ)} : Step m m' → ListStep m m'
  | pushUnique (holder : Atom) (item : τ) (same : τ → τ → Bool) :
      ListStep m (m.pushUnique holder item same)
  | retainItems (keep : τ → Bool) : ListStep m (m.retainItems keep)
  | retainItemsMentioning (varName : Atom) (keep : τ → Bool) :
      ListStep m (m.retainItemsMentioning varName keep)

/-- The map comes about from the empty one. -/
def Built [ProofSubjects ν] (m : ProofMap ν) : Prop :=
  Relation.ReflTransGen Step empty m

def ListBuilt [ProofItem τ] (m : ProofMap (List τ)) : Prop :=
  Relation.ReflTransGen ListStep empty m

theorem Indexed.step [ProofSubjects ν] {m m' : ProofMap ν} (h : m.Indexed)
    (hstep : Step m m') : m'.Indexed := by
  cases hstep with
  | insert holder value => exact h.insert holder value
  | remove holder => exact h.remove holder
  | update holder edit => exact h.update holder edit
  | retainMentioning varName keep => exact h.retainMentioning varName keep

theorem Indexed.listStep [ProofItem τ] {m m' : ProofMap (List τ)} (h : m.Indexed)
    (hstep : ListStep m m') : m'.Indexed := by
  cases hstep with
  | step hstep => exact h.step hstep
  | pushUnique holder item same => exact h.pushUnique holder item same
  | retainItems keep => exact h.retainItems keep
  | retainItemsMentioning varName keep => exact h.retainItemsMentioning varName keep

/-- The index of a map that was built misses no holder. -/
theorem Built.indexed [ProofSubjects ν] {m : ProofMap ν} (h : Built m) :
    m.Indexed := by
  induction h with
  | refl => exact indexed_empty
  | tail _ hstep ih => exact ih.step hstep

theorem ListBuilt.indexed [ProofItem τ] {m : ProofMap (List τ)} (h : ListBuilt m) :
    m.Indexed := by
  induction h with
  | refl => exact indexed_empty
  | tail _ hstep ih => exact ih.listStep hstep

end Built

/-! ## Going by the index -/

section Mentioning

variable {ν : Type} [ProofSubjects ν] {m : ProofMap ν} {varName : Atom} {keep : Atom → ν → Bool}

/-- `keep` rejects only entries that spell the variable's first token. -/
def KeepsUnspelled (varName : Atom) (keep : Atom → ν → Bool) : Prop :=
  ∀ token, firstVariable varName = some token → ∀ holder value,
    keep holder value = false → token ∈ tokensOf holder value

/-- Going by the index removes what a look at every entry does. -/
theorem retainMentioning_eq_scan (h : m.Indexed) (hkeep : KeepsUnspelled varName keep) :
    (m.retainMentioning varName keep).map = m.map.filter keep := by
  unfold retainMentioning
  by_cases hempty : m.map.isEmpty = true
  · rw [if_pos hempty, Std.ExtTreeMap.isEmpty_iff.mp hempty]
    apply Std.ExtTreeMap.ext_getElem?
    intro a
    rw [get_filter, Table.get_empty]
    rfl
  rw [if_neg hempty]
  cases htoken : firstVariable varName with
  | none => rfl
  | some token =>
      have hlisted (holder : Atom) (value : ν) (hget : m.map[holder]? = some value)
          (hreject : keep holder value = false) : holder ∈ filed m.mentions token :=
        h holder value hget token (hkeep token htoken holder value hreject)
      cases hholders : m.mentions[token]? with
      | none =>
          simp only [hholders]
          apply @foldl_erase_eq_filter _ _ []
          intro a
          simp only [List.not_mem_nil, false_iff]
          rintro ⟨value, hget, hreject⟩
          have := hlisted a value hget hreject
          simp [filed, hholders] at this
      | some holders =>
          simp only [hholders]
          apply foldl_erase_eq_filter
          intro a
          rw [List.mem_filter, Option.any_eq_true]
          constructor
          · rintro ⟨_, value, hget, hreject⟩
            exact ⟨value, hget, by simpa using hreject⟩
          · rintro ⟨value, hget, hreject⟩
            have hmem := hlisted a value hget hreject
            rw [filed_of_get hholders] at hmem
            exact ⟨hmem, value, hget, by simp [hreject]⟩

end Mentioning

section ItemsMentioning

variable {τ : Type} [ProofItem τ] {m : ProofMap (List τ)} {varName : Atom} {keep : τ → Bool}

/-- `keep` rejects only items whose subject spells the variable's first token. -/
def KeepsUnspelledItems (varName : Atom) (keep : τ → Bool) : Prop :=
  ∀ token, firstVariable varName = some token → ∀ item, keep item = false →
    ∃ subject, ProofItem.subject item = some subject ∧ token ∈ eachVariable subject

theorem retainItemsMentioning_eq_scan (h : m.Indexed) (hkeep : KeepsUnspelledItems varName keep) :
    (m.retainItemsMentioning varName keep).map = scanItems keep m.map := by
  unfold retainItemsMentioning
  by_cases hempty : m.map.isEmpty = true
  · rw [if_pos hempty, Std.ExtTreeMap.isEmpty_iff.mp hempty]
    apply Std.ExtTreeMap.ext_getElem?
    intro a
    rw [get_scanItems, Table.get_empty]
    rfl
  rw [if_neg hempty]
  cases htoken : firstVariable varName with
  | none => exact retainItems_eq_scan keep m.map
  | some token =>
      have hlisted (holder : Atom) (items : List τ) (hget : m.map[holder]? = some items)
          (hreject : items.all keep = false) : holder ∈ filed m.mentions token := by
        obtain ⟨item, hitem, hnot⟩ := List.all_eq_false.mp hreject
        obtain ⟨subject, hsubject, hmem⟩ := hkeep token htoken item (by simpa using hnot)
        apply h holder items hget token
        apply List.mem_append_right
        exact List.mem_flatMap.mpr ⟨subject, List.mem_filterMap.mpr ⟨item, hitem, hsubject⟩, hmem⟩
      cases hholders : m.mentions[token]? with
      | none =>
          simp only [hholders]
          apply @foldl_retainIn_eq_scan _ _ []
          intro a
          simp only [List.not_mem_nil, false_iff]
          rintro ⟨items, hget, hreject⟩
          have := hlisted a items hget hreject
          simp [filed, hholders] at this
      | some holders =>
          simp only [hholders]
          apply foldl_retainIn_eq_scan
          intro a
          rw [List.mem_filter, Option.any_eq_true]
          constructor
          · rintro ⟨_, items, hget, hreject⟩
            exact ⟨items, hget, by simpa using hreject⟩
          · rintro ⟨items, hget, hreject⟩
            have hmem := hlisted a items hget hreject
            rw [filed_of_get hholders] at hmem
            exact ⟨hmem, items, hget, by simp [hreject]⟩

end ItemsMentioning

end ProofMap

end PhpantomLsp.Flow
