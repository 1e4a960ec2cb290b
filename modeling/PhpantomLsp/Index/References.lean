import PhpantomLsp.Lib.Retain
import PhpantomLsp.Lib.Runs
import PhpantomLsp.Lib.Table

/-!
# The reference candidate index

`by_key` maps a symbol key to the files that mention it, each with the number
of references it makes, and `uri_keys` maps a file to the keys it contributed.
A batch evicts every file it holds and then counts their new entries.

`Indexes` says what the two tables must be for given latest entries of every
file.  Each operation moves it along with those entries, and it leaves no
choice, so the incremental index is the one built from scratch.
-/

namespace PhpantomLsp.Index

open PhpantomLsp.Lib

variable {Key : Type} [Ord Key] [Std.TransOrd Key] [Std.LawfulEqOrd Key] [DecidableEq Key]

/-- A `(key, counts_as_reference)` pair of a file. -/
abbrev Entry (Key : Type) := Key × Bool

/-- The two tables of `ReferenceIndexInner`; counts are machine words. -/
structure ReferenceIndex (Key : Type) [Ord Key] where
  byKey : Table Key (Table String UInt32)
  uriKeys : Table String (List Key)

/-- What an update reads of the rest of the server: whether the index is in
use, which files belong in it, and the entries of a symbol map. -/
structure ReferenceView (Key SymbolMap : Type) where
  skipReferenceIndex : Bool
  isReferenceIndexableUri : String → Bool
  referenceEntries : String → SymbolMap → List (Entry Key)

namespace ReferenceIndex

def empty : ReferenceIndex Key := ⟨∅, ∅⟩

/-- Remove `uri` from the files under one key, and the key with its last
file. -/
def evictFromKey (uri : String) (byKey : Table Key (Table String UInt32)) (key : Key) :
    Table Key (Table String UInt32) :=
  match byKey[key]? with
  | none => byKey
  | some files =>
      if (files.erase uri).isEmpty then byKey.erase key else byKey.insert key (files.erase uri)

/-- `evict_reference_index_uri_locked`. -/
def evict (s : ReferenceIndex Key) (uri : String) : ReferenceIndex Key :=
  match s.uriKeys[uri]? with
  | none => s
  | some keys =>
      { byKey := keys.foldl (evictFromKey uri) s.byKey, uriKeys := s.uriKeys.erase uri }

/-- Count one entry of `uri`; an entry that is no reference still enters the
file under its key. -/
def countEntry (uri : String) (byKey : Table Key (Table String UInt32)) (entry : Entry Key) :
    Table Key (Table String UInt32) :=
  let files := (byKey[entry.1]?).getD ∅
  let count := (files[uri]?).getD 0
  byKey.insert entry.1 (files.insert uri (if entry.2 then count + 1 else count))

/-- The entries of one file; `List.dedup` stands for the hash set of keys. -/
def insertFile (s : ReferenceIndex Key) (file : String × List (Entry Key)) :
    ReferenceIndex Key :=
  if file.2.isEmpty then s
  else
    { byKey := file.2.foldl (countEntry file.1) s.byKey
      uriKeys := s.uriKeys.insert file.1 (file.2.map Prod.fst).dedup }

/-- The mask over a batch, from its end, with the files seen so far: a file
keeps its last place. -/
def lastPlaces {β : Type} : List (String × β) → List Bool × List String
  | [] => ([], [])
  | file :: rest =>
      let later := lastPlaces rest
      ((!later.2.contains file.1) :: later.1, file.1 :: later.2)

def rebuiltEntries {SymbolMap : Type} (view : ReferenceView Key SymbolMap)
    (item : String × SymbolMap) : String × List (Entry Key) :=
  (item.1, if view.isReferenceIndexableUri item.1 then view.referenceEntries item.1 item.2
    else [])

/-- Evict every file of a batch, then insert every file. -/
def replaceFiles (s : ReferenceIndex Key) (files : List (String × List (Entry Key))) :
    ReferenceIndex Key :=
  files.foldl insertFile (files.foldl (fun s file => evict s file.1) s)

/-- `reindex_references_for_symbol_maps_batch`. -/
def reindex {SymbolMap : Type} (s : ReferenceIndex Key) (view : ReferenceView Key SymbolMap)
    (items : List (String × SymbolMap)) : ReferenceIndex Key :=
  if items.isEmpty || view.skipReferenceIndex then s
  else
    let rebuilt := items.map (rebuiltEntries view)
    s.replaceFiles (retainByMask rebuilt (lastPlaces rebuilt).1)

end ReferenceIndex

inductive ReferenceOp (Key SymbolMap : Type) where
  | reindex (view : ReferenceView Key SymbolMap) (items : List (String × SymbolMap))
  | evict (uri : String)

namespace ReferenceIndex

variable {SymbolMap : Type}

def apply (s : ReferenceIndex Key) : ReferenceOp Key SymbolMap → ReferenceIndex Key
  | .reindex view items => s.reindex view items
  | .evict uri => s.evict uri

/-- The index after a sequence of operations on an empty one. -/
def after (ops : List (ReferenceOp Key SymbolMap)) : ReferenceIndex Key := run apply empty ops

/-- How often `uri` counts under `key`, when it is filed there at all. -/
def countIn (byKey : Table Key (Table String UInt32)) (key : Key) (uri : String) :
    Option UInt32 :=
  (byKey[key]?).bind (fun files => files[uri]?)

def countAt (s : ReferenceIndex Key) (key : Key) (uri : String) : Option UInt32 :=
  countIn s.byKey key uri

end ReferenceIndex

/-! ## What the index stands for -/

/-- The latest entries of every file. -/
abbrev Latest (Key : Type) := String → List (Entry Key)

/-- The entries a batch has last for a file. -/
def lastIn {β : Type} : List (String × β) → String → Option β
  | [], _ => none
  | file :: rest, uri =>
      match lastIn rest uri with
      | some found => some found
      | none => if file.1 = uri then some file.2 else none

/-- The latest entries after putting a batch on top. -/
def Latest.put (latest : Latest Key) (files : List (String × List (Entry Key))) : Latest Key :=
  fun uri => (lastIn files uri).getD (latest uri)

def Latest.apply {SymbolMap : Type} (latest : Latest Key) :
    ReferenceOp Key SymbolMap → Latest Key
  | .reindex view items =>
      if view.skipReferenceIndex then latest
      else latest.put (items.map (ReferenceIndex.rebuiltEntries view))
  | .evict uri => latest.put [(uri, [])]

/-- The latest entries of every file after a sequence of operations. -/
def latestEntries {SymbolMap : Type} (ops : List (ReferenceOp Key SymbolMap)) : Latest Key :=
  run Latest.apply (fun _ => []) ops

/-- What `entries` count under `key`: nothing when no entry has the key, and
otherwise the number of its references. -/
def tally (entries : List (Entry Key)) (key : Key) : Option UInt32 :=
  if key ∈ entries.map Prod.fst then
    some (UInt32.ofNat (entries.countP fun entry => entry.1 = key ∧ entry.2 = true))
  else none

/-- The keys a file is recorded under, when it has any entry. -/
def recordedKeys (entries : List (Entry Key)) : Option (List Key) :=
  if entries = [] then none else some (entries.map Prod.fst).dedup

structure Indexes (s : ReferenceIndex Key) (latest : Latest Key) : Prop where
  counts : ∀ key uri, s.countAt key uri = tally (latest uri) key
  nonempty : ∀ (key : Key) (files : Table String UInt32), s.byKey[key]? = some files → files ≠ ∅
  keys : ∀ uri, s.uriKeys[uri]? = recordedKeys (latest uri)

/-- The latest entries leave no choice of tables. -/
theorem indexes_unique {s s' : ReferenceIndex Key} {latest : Latest Key}
    (h : Indexes s latest) (h' : Indexes s' latest) : s = s' := by
  have hcount : ∀ key uri, s.countAt key uri = s'.countAt key uri := by
    intro key uri
    rw [h.counts, h'.counts]
  -- a key on one side has a file, and so a count on the other side
  have hsome : ∀ {t t' : ReferenceIndex Key}, Indexes t latest →
      (∀ key uri, t.countAt key uri = t'.countAt key uri) →
      ∀ {key : Key} {files : Table String UInt32}, t.byKey[key]? = some files →
        t'.byKey[key]? ≠ none := by
    intro t t' ht hsame key files hfiles hnone
    apply ht.nonempty key files hfiles
    ext uri count
    have hboth := hsame key uri
    simp only [ReferenceIndex.countAt, ReferenceIndex.countIn, hfiles, hnone, Option.bind_some, Option.bind_none] at hboth
    simp [hboth]
  have hbyKey : s.byKey = s'.byKey := by
    apply Std.ExtTreeMap.ext_getElem?
    intro key
    cases hs : s.byKey[key]? with
    | none =>
        cases hs' : s'.byKey[key]? with
        | none => rfl
        | some files' =>
            exact absurd hs (hsome h' (fun k u => (hcount k u).symm) hs')
    | some files =>
        cases hs' : s'.byKey[key]? with
        | none => exact absurd hs' (hsome h hcount hs)
        | some files' =>
            congr 1
            apply Std.ExtTreeMap.ext_getElem?
            intro uri
            have hboth := hcount key uri
            simpa only [ReferenceIndex.countAt, ReferenceIndex.countIn, hs, hs', Option.bind_some] using hboth
  have huriKeys : s.uriKeys = s'.uriKeys := by
    apply Std.ExtTreeMap.ext_getElem?
    intro uri
    rw [h.keys, h'.keys]
  cases s
  cases s'
  simp only at hbyKey huriKeys
  rw [hbyKey, huriKeys]

/-! ## Counting the entries of one file -/

omit [Ord Key] [Std.TransOrd Key] [Std.LawfulEqOrd Key] in
theorem tally_concat (entries : List (Entry Key)) (entry : Entry Key) (key : Key) :
    tally (entries ++ [entry]) key =
      if entry.1 = key then
        some ((tally entries key).getD 0 + (if entry.2 then 1 else 0))
      else tally entries key := by
  unfold tally
  by_cases hkey : entry.1 = key
  · have hmem : key ∈ (entries ++ [entry]).map Prod.fst := by simp [hkey]
    rw [if_pos hmem, if_pos hkey, List.countP_append]
    congr 1
    by_cases hold : key ∈ entries.map Prod.fst
    · rw [if_pos hold]
      cases hcounts : entry.2 with
      | true => simp [hkey, hcounts]
      | false => simp [hcounts]
    · rw [if_neg hold]
      have hzero : entries.countP (fun e => e.1 = key ∧ e.2 = true) = 0 := by
        rw [List.countP_eq_zero]
        intro e he hboth
        simp only [Bool.decide_and, Bool.and_eq_true, decide_eq_true_eq] at hboth
        exact hold (List.mem_map.mpr ⟨e, he, hboth.1⟩)
      rw [hzero]
      cases hcounts : entry.2 with
      | true => simp [hkey, hcounts]
      | false => simp [hcounts]
  · have hmem : key ∈ (entries ++ [entry]).map Prod.fst ↔ key ∈ entries.map Prod.fst := by
      simp [Ne.symm hkey]
    simp only [hmem, if_neg hkey, List.countP_append]
    simp [hkey]

namespace ReferenceIndex

/-- No key is kept without a file. -/
def NoEmptyKey (byKey : Table Key (Table String UInt32)) : Prop :=
  ∀ (key : Key) (files : Table String UInt32), byKey[key]? = some files → files ≠ ∅

theorem countIn_countEntry (uri : String) (byKey : Table Key (Table String UInt32))
    (entry : Entry Key) (key : Key) (u : String) :
    countIn (countEntry uri byKey entry) key u =
      if entry.1 = key ∧ uri = u then
        some ((countIn byKey key u).getD 0 + (if entry.2 then 1 else 0))
      else countIn byKey key u := by
  unfold countIn countEntry
  simp only [Table.get_insert]
  by_cases hkey : entry.1 = key
  · subst hkey
    simp only [if_true, Option.bind_some, Table.get_insert, true_and]
    cases hfiles : byKey[entry.1]? with
    | none =>
        by_cases hu : uri = u
        · cases entry.2 with
          | true => simp [hu]
          | false => simp [hu]
        · simp [hu]
    | some files =>
        by_cases hu : uri = u
        · subst hu
          cases entry.2 with
          | true => simp
          | false => simp
        · simp [hu]
  · simp [hkey]

theorem noEmptyKey_countEntry {byKey : Table Key (Table String UInt32)} (h : NoEmptyKey byKey)
    (uri : String) (entry : Entry Key) : NoEmptyKey (countEntry uri byKey entry) := by
  intro key files hfiles
  unfold countEntry at hfiles
  rw [Table.get_insert] at hfiles
  by_cases hkey : entry.1 = key
  · rw [if_pos hkey] at hfiles
    rw [← Option.some.inj hfiles]
    simp
  · rw [if_neg hkey] at hfiles
    exact h key files hfiles

theorem noEmptyKey_countEntries {byKey : Table Key (Table String UInt32)} (h : NoEmptyKey byKey)
    (uri : String) (entries : List (Entry Key)) :
    NoEmptyKey (entries.foldl (countEntry uri) byKey) := by
  induction entries generalizing byKey with
  | nil => exact h
  | cons entry rest ih => exact ih (noEmptyKey_countEntry h uri entry)

/-- Counting a file that was nowhere filed gives its tally. -/
theorem countIn_countEntries (uri : String) (byKey : Table Key (Table String UInt32))
    (hfresh : ∀ key, countIn byKey key uri = none) (entries : List (Entry Key)) (key : Key)
    (u : String) :
    countIn (entries.foldl (countEntry uri) byKey) key u =
      if uri = u then tally entries key else countIn byKey key u := by
  induction entries using List.reverseRecOn with
  | nil =>
      by_cases hu : uri = u
      · subst hu
        simp [tally, hfresh key]
      · simp [hu]
  | append_singleton entries entry ih =>
      rw [List.foldl_concat, countIn_countEntry, ih, tally_concat]
      by_cases hu : uri = u
      · simp [hu]
      · simp [hu]

/-! ## Evicting one file -/

theorem countIn_evictFromKey (uri : String) (byKey : Table Key (Table String UInt32))
    (key k : Key) (u : String) :
    countIn (evictFromKey uri byKey key) k u =
      if key = k ∧ uri = u then none else countIn byKey k u := by
  unfold countIn evictFromKey
  cases hfiles : byKey[key]? with
  | none =>
      by_cases hkey : key = k
      · subst hkey
        simp [hfiles]
      · simp [hkey]
  | some files =>
      by_cases hempty : (files.erase uri).isEmpty = true
      · simp only [hempty, if_true, Table.get_erase]
        by_cases hkey : key = k
        · subst hkey
          -- nothing is left under the key, so it held no other file
          have hgone : (files.erase uri)[u]? = none := by
            rw [Std.ExtTreeMap.isEmpty_iff.mp hempty]
            exact Table.get_empty u
          rw [Table.get_erase] at hgone
          by_cases hu : uri = u
          · simp [hu]
          · rw [if_neg hu] at hgone
            simp [hu, hfiles, hgone]
        · simp [hkey]
      · simp only [if_neg hempty, Table.get_insert]
        by_cases hkey : key = k
        · subst hkey
          simp [hfiles, Table.get_erase]
        · simp [hkey]

theorem noEmptyKey_evictFromKey {byKey : Table Key (Table String UInt32)}
    (h : NoEmptyKey byKey) (uri : String) (key : Key) :
    NoEmptyKey (evictFromKey uri byKey key) := by
  unfold evictFromKey
  cases hfiles : byKey[key]? with
  | none => exact h
  | some files =>
      intro k found hfound
      by_cases hempty : (files.erase uri).isEmpty = true
      · simp only [hempty, if_true, Table.get_erase] at hfound
        by_cases hkey : key = k
        · simp [hkey] at hfound
        · rw [if_neg hkey] at hfound
          exact h k found hfound
      · simp only [if_neg hempty, Table.get_insert] at hfound
        by_cases hkey : key = k
        · rw [if_pos hkey] at hfound
          intro hnil
          apply hempty
          rw [Option.some.inj hfound, hnil]
          exact Std.ExtTreeMap.isEmpty_iff.mpr rfl
        · rw [if_neg hkey] at hfound
          exact h k found hfound

theorem noEmptyKey_evictFromKeys {byKey : Table Key (Table String UInt32)}
    (h : NoEmptyKey byKey) (uri : String) (keys : List Key) :
    NoEmptyKey (keys.foldl (evictFromKey uri) byKey) := by
  induction keys generalizing byKey with
  | nil => exact h
  | cons key rest ih => exact ih (noEmptyKey_evictFromKey h uri key)

theorem countIn_evictFromKeys (uri : String) (byKey : Table Key (Table String UInt32))
    (keys : List Key) (k : Key) (u : String) :
    countIn (keys.foldl (evictFromKey uri) byKey) k u =
      if k ∈ keys ∧ uri = u then none else countIn byKey k u := by
  induction keys generalizing byKey with
  | nil => simp
  | cons key rest ih =>
      rw [List.foldl_cons, ih, countIn_evictFromKey]
      by_cases hu : uri = u
      · by_cases hkey : key = k
        · simp [hu, hkey]
        · simp [hu, hkey, Ne.symm hkey]
      · simp [hu]

theorem indexes_evict {s : ReferenceIndex Key} {latest : Latest Key} (h : Indexes s latest)
    (uri : String) : Indexes (s.evict uri) (latest.put [(uri, [])]) := by
  have hput : ∀ u, latest.put [(uri, [])] u = if uri = u then [] else latest u := by
    intro u
    by_cases hu : uri = u
    · simp [Latest.put, lastIn, hu]
    · simp [Latest.put, lastIn, hu]
  unfold evict
  cases hkeys : s.uriKeys[uri]? with
  | none =>
      -- a file without recorded keys has no entries to lose
      have hnil : latest uri = [] := by
        rw [h.keys] at hkeys
        by_contra hne
        simp [recordedKeys, hne] at hkeys
      have hsame : latest.put [(uri, [])] = latest := by
        funext u
        rw [hput u]
        by_cases hu : uri = u
        · rw [if_pos hu, ← hu, hnil]
        · rw [if_neg hu]
      rw [hsame]
      exact h
  | some keys =>
      have hmem : ∀ key, key ∈ keys ↔ key ∈ (latest uri).map Prod.fst := by
        intro key
        rw [h.keys] at hkeys
        unfold recordedKeys at hkeys
        split at hkeys
        · exact absurd hkeys (by simp)
        · rw [← Option.some.inj hkeys, List.mem_dedup]
      refine ⟨?_, noEmptyKey_evictFromKeys h.nonempty uri keys, ?_⟩
      · intro key u
        show countIn (keys.foldl (evictFromKey uri) s.byKey) key u = _
        rw [countIn_evictFromKeys, hput u]
        by_cases hu : uri = u
        · subst hu
          by_cases hkey : key ∈ keys
          · simp [hkey, tally]
          · have hnone : countIn s.byKey key uri = _ := h.counts key uri
            rw [tally, if_neg (fun hk => hkey ((hmem key).mpr hk))] at hnone
            simpa [hkey, tally] using hnone
        · simp only [hu, and_false, if_false]
          exact h.counts key u
      · intro u
        show (s.uriKeys.erase uri)[u]? = _
        rw [Table.get_erase, hput u]
        by_cases hu : uri = u
        · simp [hu, recordedKeys]
        · rw [if_neg hu, if_neg hu]
          exact h.keys u

/-- Evicting a list of files leaves the entries of the others. -/
theorem indexes_evictAll {s : ReferenceIndex Key} {latest : Latest Key} (h : Indexes s latest)
    (files : List (String × List (Entry Key))) :
    Indexes (files.foldl (fun s file => evict s file.1) s)
      (fun uri => if uri ∈ files.map Prod.fst then [] else latest uri) := by
  induction files generalizing s latest with
  | nil => simpa using h
  | cons file rest ih =>
      have hrest := ih (indexes_evict h file.1)
      have hsame : (fun uri => if uri ∈ rest.map Prod.fst then []
            else latest.put [(file.1, [])] uri) =
          (fun uri => if uri ∈ (file :: rest).map Prod.fst then [] else latest uri) := by
        funext uri
        by_cases hrest : uri ∈ rest.map Prod.fst
        · simp [hrest]
        · by_cases hfile : file.1 = uri
          · simp [hrest, hfile, Latest.put, lastIn]
          · simp [hrest, hfile, Ne.symm hfile, Latest.put, lastIn]
      rw [hsame] at hrest
      exact hrest

/-! ## Inserting the files of a batch -/

omit [Ord Key] [Std.TransOrd Key] [Std.LawfulEqOrd Key] [DecidableEq Key] in
theorem put_cons (latest : Latest Key) (file : String × List (Entry Key))
    (rest : List (String × List (Entry Key))) :
    latest.put (file :: rest) = (latest.put [file]).put rest := by
  funext uri
  unfold Latest.put
  simp only [lastIn]
  cases lastIn rest uri with
  | none => simp
  | some found => simp

theorem indexes_insertFile {s : ReferenceIndex Key} {latest : Latest Key} (h : Indexes s latest)
    (file : String × List (Entry Key)) (hfresh : latest file.1 = []) :
    Indexes (s.insertFile file) (latest.put [file]) := by
  have hput : ∀ u, latest.put [file] u = if file.1 = u then file.2 else latest u := by
    intro u
    by_cases hu : file.1 = u
    · simp [Latest.put, lastIn, hu]
    · simp [Latest.put, lastIn, hu]
  unfold insertFile
  by_cases hempty : file.2 = []
  · rw [if_pos (List.isEmpty_iff.mpr hempty)]
    have hsame : latest.put [file] = latest := by
      funext u
      rw [hput u]
      by_cases hu : file.1 = u
      · rw [if_pos hu, hempty, ← hu, hfresh]
      · rw [if_neg hu]
    rw [hsame]
    exact h
  · rw [if_neg (fun hnil => hempty (List.isEmpty_iff.mp hnil))]
    have hnowhere : ∀ key, countIn s.byKey key file.1 = none := by
      intro key
      have hcount : countIn s.byKey key file.1 = _ := h.counts key file.1
      rw [hfresh] at hcount
      simpa [tally] using hcount
    refine ⟨?_, noEmptyKey_countEntries h.nonempty file.1 file.2, ?_⟩
    · intro key u
      show countIn (file.2.foldl (countEntry file.1) s.byKey) key u = _
      rw [countIn_countEntries file.1 s.byKey hnowhere, hput u]
      by_cases hu : file.1 = u
      · rw [if_pos hu, if_pos hu]
      · rw [if_neg hu, if_neg hu]
        exact h.counts key u
    · intro u
      show (s.uriKeys.insert file.1 (file.2.map Prod.fst).dedup)[u]? = _
      rw [Table.get_insert, hput u]
      by_cases hu : file.1 = u
      · rw [if_pos hu, if_pos hu, recordedKeys, if_neg hempty]
      · rw [if_neg hu, if_neg hu]
        exact h.keys u

theorem indexes_insertFiles {s : ReferenceIndex Key} {latest : Latest Key}
    (h : Indexes s latest) {files : List (String × List (Entry Key))}
    (hdistinct : (files.map Prod.fst).Nodup) (hfresh : ∀ file ∈ files, latest file.1 = []) :
    Indexes (files.foldl insertFile s) (latest.put files) := by
  induction files generalizing s latest with
  | nil => exact h
  | cons file rest ih =>
      rw [List.map_cons, List.nodup_cons] at hdistinct
      rw [put_cons]
      apply ih (indexes_insertFile h file (hfresh file List.mem_cons_self)) hdistinct.2
      intro other hother
      have hne : file.1 ≠ other.1 := by
        intro heq
        exact hdistinct.1 (heq ▸ List.mem_map_of_mem hother)
      have hold := hfresh other (List.mem_cons_of_mem file hother)
      simp [Latest.put, lastIn, hne, hold]

omit [Ord Key] [Std.TransOrd Key] [Std.LawfulEqOrd Key] [DecidableEq Key] in
theorem lastIn_eq_none {β : Type} (items : List (String × β)) (uri : String) :
    lastIn items uri = none ↔ uri ∉ items.map Prod.fst := by
  induction items with
  | nil => simp [lastIn]
  | cons item rest ih =>
      unfold lastIn
      cases hrest : lastIn rest uri with
      | none =>
          rw [hrest] at ih
          have hnot := ih.mp rfl
          by_cases huri : item.1 = uri
          · simp [huri]
          · simp only [if_neg huri, List.map_cons, List.mem_cons, true_iff, not_or]
            exact ⟨Ne.symm huri, hnot⟩
      | some found =>
          rw [hrest] at ih
          have hmem : uri ∈ rest.map Prod.fst := by
            by_contra hnot
            exact absurd (ih.mpr hnot) (by simp)
          simp [hmem]

theorem indexes_replaceFiles {s : ReferenceIndex Key} {latest : Latest Key}
    (h : Indexes s latest) {files : List (String × List (Entry Key))}
    (hdistinct : (files.map Prod.fst).Nodup) :
    Indexes (s.replaceFiles files) (latest.put files) := by
  have hinsert := indexes_insertFiles (indexes_evictAll h files) hdistinct (by
    intro file hfile
    rw [if_pos (List.mem_map_of_mem hfile)])
  have hsame : Latest.put (fun uri => if uri ∈ files.map Prod.fst then [] else latest uri) files =
      latest.put files := by
    funext uri
    unfold Latest.put
    cases hlast : lastIn files uri with
    | none => simp [(lastIn_eq_none files uri).mp hlast]
    | some found => rfl
  rw [hsame] at hinsert
  exact hinsert

/-! ## The last place of every file -/

theorem lastPlaces_seen {β : Type} (items : List (String × β)) :
    (lastPlaces items).2 = items.map Prod.fst := by
  induction items with
  | nil => rfl
  | cons item rest ih => simp [lastPlaces, ih]

theorem lastPlaces_keep {β : Type} (item : String × β) (rest : List (String × β)) :
    retainByMask (item :: rest) (lastPlaces (item :: rest)).1 =
      if item.1 ∈ rest.map Prod.fst then retainByMask rest (lastPlaces rest).1
      else item :: retainByMask rest (lastPlaces rest).1 := by
  simp only [lastPlaces, retainByMask, lastPlaces_seen]
  by_cases hseen : item.1 ∈ rest.map Prod.fst
  · simp [hseen]
  · simp [hseen]

theorem lastIn_lastPlaces {β : Type} (items : List (String × β)) (uri : String) :
    lastIn (retainByMask items (lastPlaces items).1) uri = lastIn items uri := by
  induction items with
  | nil => rfl
  | cons item rest ih =>
      rw [lastPlaces_keep]
      by_cases hseen : item.1 ∈ rest.map Prod.fst
      · rw [if_pos hseen, ih]
        cases hrest : lastIn rest uri with
        | none =>
            have hne : item.1 ≠ uri := by
              rintro rfl
              exact (lastIn_eq_none rest item.1).mp hrest hseen
            simp [lastIn, hrest, hne]
        | some found => simp [lastIn, hrest]
      · rw [if_neg hseen]
        simp only [lastIn, ih]

theorem lastPlaces_nodup {β : Type} (items : List (String × β)) :
    ((retainByMask items (lastPlaces items).1).map Prod.fst).Nodup := by
  induction items with
  | nil => exact List.nodup_nil
  | cons item rest ih =>
      rw [lastPlaces_keep]
      by_cases hseen : item.1 ∈ rest.map Prod.fst
      · rw [if_pos hseen]
        exact ih
      · rw [if_neg hseen, List.map_cons, List.nodup_cons]
        refine ⟨?_, ih⟩
        rw [← lastIn_eq_none, lastIn_lastPlaces, lastIn_eq_none]
        exact hseen

/-! ## Runs -/

omit [Std.LawfulEqOrd Key] in
theorem indexes_empty : Indexes (empty : ReferenceIndex Key) (fun _ => []) where
  counts key uri := by simp [countAt, countIn, empty, tally]
  nonempty key files hfiles := by simp [empty] at hfiles
  keys uri := by simp [empty, recordedKeys]

theorem indexes_apply (s : ReferenceIndex Key) (latest : Latest Key)
    (op : ReferenceOp Key SymbolMap) (h : Indexes s latest) :
    Indexes (s.apply op) (latest.apply op) := by
  cases op with
  | evict uri => exact indexes_evict h uri
  | reindex view items =>
      show Indexes (s.reindex view items) (latest.apply (.reindex view items))
      unfold reindex Latest.apply
      by_cases hskip : view.skipReferenceIndex = true
      · simpa [hskip] using h
      · cases items with
        | nil =>
            have hsame : latest.put ([].map (rebuiltEntries view)) = latest := rfl
            simpa [hskip] using hsame ▸ h
        | cons item rest =>
            have hput : latest.put (retainByMask ((item :: rest).map (rebuiltEntries view))
                (lastPlaces ((item :: rest).map (rebuiltEntries view))).1) =
                latest.put ((item :: rest).map (rebuiltEntries view)) := by
              funext uri
              simp only [Latest.put, lastIn_lastPlaces]
            have hreplace := indexes_replaceFiles h
              (lastPlaces_nodup ((item :: rest).map (rebuiltEntries view)))
            rw [hput] at hreplace
            simpa [hskip] using hreplace

theorem indexes_after (ops : List (ReferenceOp Key SymbolMap)) :
    Indexes (after ops) (latestEntries ops) :=
  run_simulation indexes_apply indexes_empty ops

/-! ## Building from scratch -/

end ReferenceIndex

/-- The files an operation is about. -/
def ReferenceOp.uris {SymbolMap : Type} : ReferenceOp Key SymbolMap → List String
  | .reindex _ items => items.map Prod.fst
  | .evict uri => [uri]

namespace ReferenceIndex

/-- The index of the files `uris`, inserted one by one into an empty index. -/
def rebuild (latest : Latest Key) (uris : List String) : ReferenceIndex Key :=
  (uris.dedup.map fun uri => (uri, latest uri)).foldl insertFile empty

theorem lastIn_tabulate {β : Type} (f : String → β) (uris : List String) (uri : String) :
    lastIn (uris.map fun u => (u, f u)) uri = if uri ∈ uris then some (f uri) else none := by
  induction uris with
  | nil => simp [lastIn]
  | cons u rest ih =>
      rw [List.map_cons]
      unfold lastIn
      rw [ih]
      by_cases hrest : uri ∈ rest
      · simp [hrest]
      · by_cases hu : u = uri
        · simp [hrest, hu]
        · simp [hrest, hu, Ne.symm hu]

theorem indexes_rebuild (latest : Latest Key) {uris : List String}
    (hall : ∀ uri, latest uri ≠ [] → uri ∈ uris) : Indexes (rebuild latest uris) latest := by
  have hdistinct : ((uris.dedup.map fun uri => (uri, latest uri)).map Prod.fst).Nodup := by
    simpa [List.map_map, Function.comp_def] using List.nodup_dedup uris
  have hinsert := indexes_insertFiles indexes_empty hdistinct (fun _ _ => rfl)
  have hsame : Latest.put (fun _ => []) (uris.dedup.map fun uri => (uri, latest uri)) =
      latest := by
    funext uri
    unfold Latest.put
    rw [lastIn_tabulate]
    by_cases huri : uri ∈ uris
    · simp [huri]
    · have hnil : latest uri = [] := by
        by_contra hne
        exact huri (hall uri hne)
      simp [huri, hnil]
  rw [hsame] at hinsert
  exact hinsert

omit [Ord Key] [Std.TransOrd Key] [Std.LawfulEqOrd Key] [DecidableEq Key] in
/-- An operation leaves the entries of every other file alone. -/
theorem latest_apply_of_notMem (latest : Latest Key) (op : ReferenceOp Key SymbolMap)
    {uri : String} (huri : uri ∉ op.uris) : latest.apply op uri = latest uri := by
  cases op with
  | evict other =>
      have hne : other ≠ uri := fun heq => huri (by simp [ReferenceOp.uris, heq])
      simp [Latest.apply, Latest.put, lastIn, hne]
  | reindex view items =>
      unfold Latest.apply
      by_cases hskip : view.skipReferenceIndex = true
      · simp [hskip]
      · have hnone : lastIn (items.map (rebuiltEntries view)) uri = none := by
          rw [lastIn_eq_none]
          simpa [ReferenceOp.uris, List.map_map, Function.comp_def, rebuiltEntries] using huri
        simp [hskip, Latest.put, hnone]

omit [Ord Key] [Std.TransOrd Key] [Std.LawfulEqOrd Key] [DecidableEq Key] in
/-- What an operation makes of a file's entries depends on that file alone. -/
theorem latest_apply_congr {latest latest' : Latest Key} (op : ReferenceOp Key SymbolMap)
    {uri : String} (h : latest uri = latest' uri) :
    latest.apply op uri = latest'.apply op uri := by
  cases op with
  | evict other => simp [Latest.apply, Latest.put, h]
  | reindex view items =>
      unfold Latest.apply
      by_cases hskip : view.skipReferenceIndex = true
      · simpa [hskip] using h
      · simp [hskip, Latest.put, h]

omit [Ord Key] [Std.TransOrd Key] [Std.LawfulEqOrd Key] [DecidableEq Key] in
theorem latest_apply_comm (latest : Latest Key) {a b : ReferenceOp Key SymbolMap}
    (hdisjoint : ∀ uri ∈ a.uris, uri ∉ b.uris) :
    (latest.apply a).apply b = (latest.apply b).apply a := by
  funext uri
  by_cases ha : uri ∈ a.uris
  · have hb := hdisjoint uri ha
    rw [latest_apply_of_notMem _ b hb]
    exact latest_apply_congr a (latest_apply_of_notMem latest b hb).symm
  · rw [latest_apply_of_notMem _ a ha]
    exact latest_apply_congr b (latest_apply_of_notMem latest a ha)

omit [Ord Key] [Std.TransOrd Key] [Std.LawfulEqOrd Key] [DecidableEq Key] in
/-- Only files that an operation was about have entries. -/
theorem mem_uris_of_latest (ops : List (ReferenceOp Key SymbolMap)) (uri : String)
    (h : latestEntries ops uri ≠ []) : uri ∈ ops.flatMap ReferenceOp.uris := by
  induction ops using List.reverseRecOn with
  | nil => exact absurd rfl h
  | append_singleton ops op ih =>
      rw [List.flatMap_append, List.mem_append]
      have hlatest : latestEntries (ops ++ [op]) = (latestEntries ops).apply op := by
        unfold latestEntries
        rw [run_append]
        rfl
      rw [hlatest] at h
      by_cases hop : uri ∈ op.uris
      · exact Or.inr (by simpa using hop)
      · rw [latest_apply_of_notMem _ op hop] at h
        exact Or.inl (ih h)

omit [Ord Key] [Std.TransOrd Key] [Std.LawfulEqOrd Key] [DecidableEq Key] in
theorem latestEntries_swap (before later : List (ReferenceOp Key SymbolMap))
    {a b : ReferenceOp Key SymbolMap} (hdisjoint : ∀ uri ∈ a.uris, uri ∉ b.uris) :
    latestEntries (before ++ a :: b :: later) = latestEntries (before ++ b :: a :: later) := by
  unfold latestEntries
  rw [run_append, run_append]
  simp only [run_cons]
  rw [latest_apply_comm _ hdisjoint]

/-- After any run of batches and evictions the index is the one built from
scratch from the latest entries of every file: no key is left without a file,
a file is recorded once under exactly the keys of its latest entries, every
count is the number of its references, and neighbouring updates of different
files may be swapped. -/
theorem after_eq_rebuild (ops : List (ReferenceOp Key SymbolMap)) :
    after ops = rebuild (latestEntries ops) (ops.flatMap ReferenceOp.uris) ∧
    (∀ (key : Key) (files : Table String UInt32),
      (after ops).byKey[key]? = some files → files ≠ ∅) ∧
    (∀ uri keys, (after ops).uriKeys[uri]? = some keys →
      keys ≠ [] ∧ keys.Nodup ∧
        ∀ key, key ∈ keys ↔ key ∈ (latestEntries ops uri).map Prod.fst) ∧
    (∀ key uri, (after ops).countAt key uri = tally (latestEntries ops uri) key) ∧
    (∀ before later a b, ops = before ++ a :: b :: later → (∀ uri ∈ a.uris, uri ∉ b.uris) →
      after (before ++ b :: a :: later) = after ops) := by
  have h := indexes_after ops
  refine ⟨?_, h.nonempty, ?_, h.counts, ?_⟩
  · exact indexes_unique h (indexes_rebuild _ (mem_uris_of_latest ops))
  · intro uri keys hkeys
    rw [h.keys] at hkeys
    unfold recordedKeys at hkeys
    by_cases hnil : latestEntries ops uri = []
    · rw [if_pos hnil] at hkeys
      exact absurd hkeys (by simp)
    · rw [if_neg hnil] at hkeys
      rw [← Option.some.inj hkeys]
      exact ⟨by simpa using hnil, List.nodup_dedup _, fun key => List.mem_dedup⟩
  · intro before later a b hops hdisjoint
    have h' := indexes_after (before ++ b :: a :: later)
    rw [← latestEntries_swap before later hdisjoint, ← hops] at h'
    exact indexes_unique h' h

/-- One batch that lists a file twice, at string keys. -/
theorem after_eq_rebuild_repeated :
    (after [ReferenceOp.reindex ⟨false, fun _ => true, fun _ entries => entries⟩
        [("a.php", [("f", true)]), ("a.php", [("g", true), ("g", true)])]]).countAt "g" "a.php" =
      some 2 := by
  refine ((after_eq_rebuild _).2.2.2.1 "g" "a.php").trans ?_
  rfl

end ReferenceIndex

end PhpantomLsp.Index
