import PhpantomLsp.Lib.Runs
import PhpantomLsp.Lib.Table

/-!
# The type interner

A handle is the address of an allocation, and an allocation lives as long as a
handle of it exists.  Handles are held by the program, by the nodes whose
child types they are and by the threads that are building a node, so that a
strong count is a number of handles.  The table holds weak entries, which keep
nothing alive: an entry is dead once the last handle of its address is gone.

Threads intern concurrently.  A scan of a bucket looks at one entry a step, and
between any two steps of `intern` any other steps may come, but for those the
lock of the shard keeps out.  A drop takes no lock, so an entry may also die
behind the back of the thread that fills a slot or sweeps.  The hash is any
function of the node: any two forms may collide.

Every live form has its entry in the bucket of its hash and one address only
(`Inv`): a form is inserted under the lock its absence was established under,
and only dead entries are replaced or swept.
-/

namespace PhpantomLsp.Intern

open PhpantomLsp.Lib
open Function (update)

/-- A node: what it says itself, and the handles of its child types.  Nodes are
compared by the addresses of these handles. -/
structure TypeKind (σ : Type) where
  label : σ
  children : List Nat
deriving DecidableEq

/-- The weak entries of one hash. -/
inductive Bucket where
  | one (weak : Nat)
  | many (weaks : List Nat)

namespace Bucket

def asSlice : Bucket → List Nat
  | one weak => [weak]
  | many weaks => weaks

/-- Put `weak` in the first dead slot, or behind the last. -/
def reuse (alive : Nat → Bool) (weak : Nat) : List Nat → List Nat
  | [] => [weak]
  | slot :: rest => if alive slot then slot :: reuse alive weak rest else weak :: rest

def insert (alive : Nat → Bool) (weak : Nat) : Bucket → Bucket
  | one slot => if alive slot then many [slot, weak] else one weak
  | many weaks => many (reuse alive weak weaks)

/-- Drop dead entries; `none` when none is left. -/
def retainLive (alive : Nat → Bool) : Bucket → Option Bucket
  | one weak => if alive weak then some (one weak) else none
  | many weaks =>
      match weaks.filter alive with
      | [] => none
      | [weak] => some (one weak)
      | live => some (many live)

end Bucket

/-- A shard behind its lock, with the threads that hold it for reading and the
one that holds it for writing. -/
structure Shard where
  buckets : Table UInt64 Bucket
  sinceSweep : Nat
  readers : List Nat
  writer : Option Nat

def shardCount : UInt64 := 64

def sweepInterval : Nat := 1024

/-- The shard of a hash: its middle bits. -/
def shardOf (hash : UInt64) : UInt64 := (hash >>> 32) &&& (shardCount - 1)

/-- Who holds a handle. -/
inductive Owner where
  | program
  | node (address : Nat)
  | thread (id : Nat)
deriving DecidableEq

/-- Where a thread is in `intern`, with the entries its scan has still to look
at. -/
inductive Phase (σ : Type) where
  | idle
  | called (kind : TypeKind σ)
  | reading (kind : TypeKind σ) (rest : List Nat)
  | missed (kind : TypeKind σ)
  | writing (kind : TypeKind σ) (rest : List Nat)
  | inserted (kind : TypeKind σ)

structure Interner (σ : Type) where
  heap : Nat → Option (TypeKind σ)
  handles : List (Owner × Nat)
  shards : UInt64 → Shard
  threads : Nat → Phase σ

variable {σ : Type}

/-- Give all handles of one owner to another. -/
def reown (giver taker : Owner) (handles : List (Owner × Nat)) : List (Owner × Nat) :=
  handles.map fun h => if h.1 = giver then (taker, h.2) else h

namespace Interner

def strongCount (s : Interner σ) (address : Nat) : Nat := (s.handles.map Prod.snd).count address

def alive (s : Interner σ) (address : Nat) : Bool := 0 < s.strongCount address

/-- What a thread that reads the strong counts one after the other takes for
alive: the entries of `late` lost their last handle after their turn. -/
def seen (s : Interner σ) (late : List Nat) (address : Nat) : Bool :=
  s.alive address || late.contains address

/-- The entries of a hash. -/
def bucketAt (s : Interner σ) (hash : UInt64) : List Nat :=
  match (s.shards (shardOf hash)).buckets[hash]? with
  | some bucket => bucket.asSlice
  | none => []

/-- The entry can be upgraded, and to the form. -/
def hits [DecidableEq σ] (s : Interner σ) (weak : Nat) (kind : TypeKind σ) : Bool :=
  s.alive weak && s.heap weak = some kind

/-- Thread `t` leaves the read lock of the shard of `hash`. -/
def unread (s : Interner σ) (hash : UInt64) (t : Nat) : Interner σ :=
  let shard := s.shards (shardOf hash)
  { s with
    shards := update s.shards (shardOf hash) { shard with readers := shard.readers.erase t } }

/-- The write lock of the shard of `hash` is released. -/
def unlock (s : Interner σ) (hash : UInt64) : Interner σ :=
  let shard := s.shards (shardOf hash)
  { s with shards := update s.shards (shardOf hash) { shard with writer := none } }

/-- Return a handle of `address`; the handles of the form that was looked up
are the program's to drop. -/
def answer (s : Interner σ) (t address : Nat) : Interner σ :=
  { s with
    handles := (.program, address) :: reown (.thread t) .program s.handles
    threads := update s.threads t .idle }

/-- The bucket of the form once its entry is filed. -/
def filedBucket (s : Interner σ) (hash : TypeKind σ → UInt64) (address : Nat) (late : List Nat)
    (kind : TypeKind σ) : Bucket :=
  match (s.shards (shardOf (hash kind))).buckets[hash kind]? with
  | some bucket => bucket.insert (s.seen late) address
  | none => .one address

/-- Allocate the form at `address` and file its entry. -/
def insert (s : Interner σ) (hash : TypeKind σ → UInt64) (t address : Nat) (late : List Nat)
    (kind : TypeKind σ) : Interner σ :=
  let shard := s.shards (shardOf (hash kind))
  { heap := update s.heap address (some kind)
    handles := (.thread t, address) :: reown (.thread t) (.node address) s.handles
    shards := update s.shards (shardOf (hash kind))
      { shard with
        buckets := shard.buckets.insert (hash kind) (s.filedBucket hash address late kind)
        sinceSweep := shard.sinceSweep + 1 }
    threads := update s.threads t (.inserted kind) }

def sweep (s : Interner σ) (late : List Nat) (shard : Shard) : Shard :=
  { shard with
    buckets := shard.buckets.filterMap fun _ bucket => bucket.retainLive (s.seen late)
    sinceSweep := 0 }

/-- Sweep when it is time to, and release the lock. -/
def finish (s : Interner σ) (hash : TypeKind σ → UInt64) (t : Nat) (late : List Nat)
    (kind : TypeKind σ) : Interner σ :=
  let shard := s.shards (shardOf (hash kind))
  let shard := if max sweepInterval shard.buckets.size ≤ shard.sinceSweep
    then s.sweep late shard else shard
  { s with
    handles := reown (.thread t) .program s.handles
    shards := update s.shards (shardOf (hash kind)) { shard with writer := none }
    threads := update s.threads t .idle }

/-- Drop one handle of the program.  With the last one of its address the node
goes, and what it held is the program's to drop. -/
def dropHandle (s : Interner σ) (address : Nat) : Interner σ :=
  let handles := s.handles.erase (.program, address)
  if address ∈ handles.map Prod.snd then { s with handles }
  else
    { s with
      heap := update s.heap address none
      handles := reown (.node address) .program handles }

end Interner

inductive Op (σ : Type) where
  /-- A thread calls `intern` with a node over handles of the program. -/
  | call (t : Nat) (label : σ) (children : List Nat)
  /-- It takes the read lock. -/
  | read (t : Nat)
  /-- It looks at the next entry, or at the end of the bucket. -/
  | look (t : Nat)
  /-- It takes the write lock. -/
  | lock (t : Nat)
  /-- It allocates, at `address`, and files the entry. -/
  | insert (t address : Nat) (late : List Nat)
  /-- It sweeps, if at all, and returns. -/
  | finish (t : Nat) (late : List Nat)
  | clone (address : Nat)
  | drop (address : Nat)

open Interner

/-- One step; a step that cannot be taken changes nothing. -/
def step [DecidableEq σ] (hash : TypeKind σ → UInt64) (s : Interner σ) : Op σ → Interner σ
  | .call t label children =>
      match s.threads t with
      | .idle =>
          if ∀ c ∈ children, (Owner.program, c) ∈ s.handles then
            { s with
              handles := children.map (Owner.thread t, ·) ++ s.handles
              threads := update s.threads t (.called ⟨label, children⟩) }
          else s
      | _ => s
  | .read t =>
      match s.threads t with
      | .called kind =>
          let shard := s.shards (shardOf (hash kind))
          if shard.writer = none then
            { s with
              shards := update s.shards (shardOf (hash kind))
                { shard with readers := t :: shard.readers }
              threads := update s.threads t (.reading kind (s.bucketAt (hash kind))) }
          else s
      | _ => s
  | .look t =>
      match s.threads t with
      | .reading kind [] =>
          { s.unread (hash kind) t with threads := update s.threads t (.missed kind) }
      | .reading kind (weak :: rest) =>
          if s.hits weak kind then (s.unread (hash kind) t).answer t weak
          else { s with threads := update s.threads t (.reading kind rest) }
      | .writing kind (weak :: rest) =>
          if s.hits weak kind then (s.unlock (hash kind)).answer t weak
          else { s with threads := update s.threads t (.writing kind rest) }
      | _ => s
  | .lock t =>
      match s.threads t with
      | .missed kind =>
          let shard := s.shards (shardOf (hash kind))
          if shard.writer = none ∧ shard.readers = [] then
            { s with
              shards := update s.shards (shardOf (hash kind)) { shard with writer := some t }
              threads := update s.threads t (.writing kind (s.bucketAt (hash kind))) }
          else s
      | _ => s
  | .insert t address late =>
      match s.threads t with
      | .writing kind [] => if s.alive address then s else s.insert hash t address late kind
      | _ => s
  | .finish t late =>
      match s.threads t with
      | .inserted kind => s.finish hash t late kind
      | _ => s
  | .clone address =>
      if (Owner.program, address) ∈ s.handles then
        { s with handles := (Owner.program, address) :: s.handles }
      else s
  | .drop address =>
      if (Owner.program, address) ∈ s.handles then s.dropHandle address else s

/-- Nothing interned yet. -/
def empty : Interner σ := ⟨fun _ => none, [], fun _ => ⟨∅, 0, [], none⟩, fun _ => .idle⟩

/-! ## Handles -/

theorem mem_reown {giver taker o : Owner} {address : Nat} {handles : List (Owner × Nat)} :
    (o, address) ∈ reown giver taker handles ↔
      ((o, address) ∈ handles ∧ o ≠ giver) ∨ (o = taker ∧ (giver, address) ∈ handles) := by
  simp only [reown, List.mem_map, Prod.exists]
  constructor
  · rintro ⟨o', a', hmem, heq⟩
    by_cases hgiver : o' = giver
    · simp only [hgiver, if_true, Prod.mk.injEq] at heq
      right
      rw [← heq.1, ← heq.2, ← hgiver]
      exact ⟨rfl, hmem⟩
    · simp only [hgiver, if_false, Prod.mk.injEq] at heq
      left
      rw [← heq.1, ← heq.2]
      exact ⟨hmem, hgiver⟩
  · rintro (⟨hmem, hne⟩ | ⟨rfl, hmem⟩)
    · exact ⟨o, address, hmem, by simp [hne]⟩
    · exact ⟨giver, address, hmem, by simp⟩

@[simp] theorem map_snd_reown (giver taker : Owner) (handles : List (Owner × Nat)) :
    (reown giver taker handles).map Prod.snd = handles.map Prod.snd := by
  rw [reown, List.map_map]
  apply List.map_congr_left
  intro h _
  by_cases hgiver : h.1 = giver
  · simp [hgiver]
  · simp [hgiver]

/-- A handle that is neither given nor taken stays where it is. -/
theorem mem_reown_of_mem {giver taker o : Owner} {address : Nat} {handles : List (Owner × Nat)}
    (h : (o, address) ∈ handles) (hne : o ≠ giver) :
    (o, address) ∈ reown giver taker handles :=
  mem_reown.mpr (Or.inl ⟨h, hne⟩)

theorem alive_iff {s : Interner σ} {address : Nat} :
    s.alive address = true ↔ address ∈ s.handles.map Prod.snd := by
  rw [alive, strongCount, decide_eq_true_eq, List.count_pos_iff]

theorem alive_of_mem {s : Interner σ} {o : Owner} {address : Nat}
    (h : (o, address) ∈ s.handles) : s.alive address = true :=
  alive_iff.mpr (List.mem_map_of_mem (f := Prod.snd) h)

/-! ## Buckets -/

namespace Bucket

theorem mem_reuse {alive : Nat → Bool} {weak : Nat} {weaks : List Nat} {w : Nat} :
    (w = weak ∨ (w ∈ weaks ∧ alive w = true)) → w ∈ reuse alive weak weaks := by
  induction weaks with
  | nil =>
      rintro (rfl | ⟨h, -⟩)
      · simp [reuse]
      · simp at h
  | cons slot rest ih =>
      intro h
      by_cases hslot : alive slot = true
      · rw [reuse, if_pos hslot]
        rcases h with rfl | ⟨h, hw⟩
        · exact List.mem_cons_of_mem _ (ih (Or.inl rfl))
        · rcases List.mem_cons.mp h with rfl | h
          · exact List.mem_cons_self
          · exact List.mem_cons_of_mem _ (ih (Or.inr ⟨h, hw⟩))
      · rw [reuse, if_neg hslot]
        rcases h with rfl | ⟨h, hw⟩
        · exact List.mem_cons_self
        · rcases List.mem_cons.mp h with rfl | h
          · exact absurd hw hslot
          · exact List.mem_cons_of_mem _ h

/-- An insertion files the entry and keeps the live ones. -/
theorem mem_insert {alive : Nat → Bool} {weak : Nat} {bucket : Bucket} {w : Nat}
    (h : w = weak ∨ (w ∈ bucket.asSlice ∧ alive w = true)) :
    w ∈ (bucket.insert alive weak).asSlice := by
  cases bucket with
  | one slot =>
      by_cases hslot : alive slot = true
      · simp only [insert, hslot, if_true, asSlice, List.mem_cons]
        rcases h with rfl | ⟨h, -⟩
        · simp
        · exact Or.inl (List.mem_singleton.mp h)
      · simp only [insert, hslot, asSlice]
        rcases h with rfl | ⟨h, hw⟩
        · simp
        · rw [List.mem_singleton.mp h] at hw
          exact absurd hw hslot
  | many weaks => exact mem_reuse h

/-- A sweep keeps the live entries. -/
theorem mem_retainLive {alive : Nat → Bool} {bucket : Bucket} {w : Nat}
    (h : w ∈ bucket.asSlice) (hw : alive w = true) :
    ∃ kept, bucket.retainLive alive = some kept ∧ w ∈ kept.asSlice := by
  cases bucket with
  | one weak =>
      rw [List.mem_singleton.mp h] at hw ⊢
      exact ⟨one weak, by simp [retainLive, hw], List.mem_singleton_self _⟩
  | many weaks =>
      have hmem : w ∈ weaks.filter alive := List.mem_filter.mpr ⟨h, hw⟩
      simp only [retainLive]
      generalize weaks.filter alive = live at hmem
      match live with
      | [] => simp at hmem
      | [weak] => exact ⟨one weak, rfl, hmem⟩
      | weak :: weak' :: rest => exact ⟨many (weak :: weak' :: rest), rfl, hmem⟩

end Bucket

/-! ## Contents -/

/-- A type as a tree, whatever the allocations it is built from. -/
inductive Tree (σ : Type) where
  | node (label : σ) (children : List (Tree σ))

mutual

/-- The type at an address. -/
def Denotes (heap : Nat → Option (TypeKind σ)) : Tree σ → Nat → Prop
  | .node label children, a =>
      ∃ kind, heap a = some kind ∧ kind.label = label ∧ DenoteAll heap children kind.children

def DenoteAll (heap : Nat → Option (TypeKind σ)) : List (Tree σ) → List Nat → Prop
  | [], [] => True
  | tree :: trees, a :: as => Denotes heap tree a ∧ DenoteAll heap trees as
  | _, _ => False

end

mutual

/-- A type stays while every node but those of `gone` does, and none of these
is in it. -/
theorem Denotes.mono {heap heap' : Nat → Option (TypeKind σ)} {keep : Nat → Prop}
    (hkeep : ∀ a kind, keep a → heap a = some kind →
      heap' a = some kind ∧ ∀ c ∈ kind.children, keep c) :
    ∀ {tree : Tree σ} {a : Nat}, keep a → Denotes heap tree a → Denotes heap' tree a
  | .node label children, a, ha, ⟨kind, hkind, hlabel, hall⟩ => by
      have h := hkeep a kind ha hkind
      exact ⟨kind, h.1, hlabel, DenoteAll.mono hkeep h.2 hall⟩

theorem DenoteAll.mono {heap heap' : Nat → Option (TypeKind σ)} {keep : Nat → Prop}
    (hkeep : ∀ a kind, keep a → heap a = some kind →
      heap' a = some kind ∧ ∀ c ∈ kind.children, keep c) :
    ∀ {trees : List (Tree σ)} {as : List Nat}, (∀ c ∈ as, keep c) →
      DenoteAll heap trees as → DenoteAll heap' trees as
  | [], [], _, _ => trivial
  | _ :: _, a :: _, has, ⟨hhead, htail⟩ =>
      ⟨hhead.mono hkeep (has a List.mem_cons_self),
        htail.mono hkeep fun c hc => has c (List.mem_cons_of_mem _ hc)⟩

end

/-! ## The invariant -/

/-- The form a thread holds handles for. -/
def Phase.form : Phase σ → Option (TypeKind σ)
  | called kind | reading kind _ | missed kind | writing kind _ => some kind
  | idle | inserted _ => none

/-- The form whose shard a thread holds locked for writing. -/
def Phase.locks : Phase σ → Option (TypeKind σ)
  | writing kind _ | inserted kind => some kind
  | idle | called _ | reading _ _ | missed _ => none

structure Inv (hash : TypeKind σ → UInt64) (s : Interner σ) : Prop where
  /-- A node is there exactly as long as it has a handle. -/
  allocated : ∀ a, s.alive a = true ↔ ∃ kind, s.heap a = some kind
  /-- A node holds its child types. -/
  owned : ∀ a kind, s.heap a = some kind → ∀ c ∈ kind.children, (Owner.node a, c) ∈ s.handles
  /-- So does a thread, for the form it is interning. -/
  pending : ∀ t kind, (s.threads t).form = some kind →
    ∀ c ∈ kind.children, (Owner.thread t, c) ∈ s.handles
  /-- Every node is a whole type. -/
  grounded : ∀ a kind, s.heap a = some kind → ∃ tree, Denotes s.heap tree a
  /-- Every node has its entry. -/
  filed : ∀ a kind, s.heap a = some kind → a ∈ s.bucketAt (hash kind)
  /-- Every form has one node. -/
  unique : ∀ a b kind, s.heap a = some kind → s.heap b = some kind → a = b
  /-- What a scan under the write lock has passed is not the form. -/
  absent : ∀ t kind rest, s.threads t = .writing kind rest → ∀ a, s.heap a = some kind → a ∈ rest
  locked : ∀ t kind, (s.threads t).locks = some kind →
    (s.shards (shardOf (hash kind))).writer = some t

theorem inv_empty (hash : TypeKind σ → UInt64) : Inv hash (empty : Interner σ) where
  allocated a := by simp [alive, strongCount, empty]
  owned a kind h := by simp [empty] at h
  pending t kind h := by simp [empty, Phase.form] at h
  grounded a kind h := by simp [empty] at h
  filed a kind h := by simp [empty] at h
  unique a b kind h := by simp [empty] at h
  absent t kind rest h := by simp [empty] at h
  locked t kind h := by simp [empty, Phase.locks] at h

section Steps

variable {hash : TypeKind σ → UInt64} {s s' : Interner σ}

/-! ## Steps that leave the nodes alone -/

theorem alive_congr (h : ∀ a, a ∈ s'.handles.map Prod.snd ↔ a ∈ s.handles.map Prod.snd) (a : Nat) :
    s'.alive a = s.alive a := by
  rw [Bool.eq_iff_iff, alive_iff, alive_iff]
  exact h a

/-- What is left to check when a step keeps the nodes and the strong counts
above zero. -/
theorem Inv.of_heap_eq (h : Inv hash s) (hheap : s'.heap = s.heap)
    (halive : ∀ a, s'.alive a = s.alive a)
    (hnode : ∀ a c, (Owner.node a, c) ∈ s.handles → (Owner.node a, c) ∈ s'.handles)
    (hfiled : ∀ a key, s.alive a = true → a ∈ s.bucketAt key → a ∈ s'.bucketAt key)
    (hpending : ∀ t kind, (s'.threads t).form = some kind →
      ∀ c ∈ kind.children, (Owner.thread t, c) ∈ s'.handles)
    (habsent : ∀ t kind rest, s'.threads t = .writing kind rest →
      ∀ a, s.heap a = some kind → a ∈ rest)
    (hlocked : ∀ t kind, (s'.threads t).locks = some kind →
      (s'.shards (shardOf (hash kind))).writer = some t) : Inv hash s' where
  allocated a := by
    rw [halive, hheap]
    exact h.allocated a
  owned a kind ha c hc := by
    rw [hheap] at ha
    exact hnode a c (h.owned a kind ha c hc)
  pending := hpending
  grounded a kind ha := by
    rw [hheap] at ha ⊢
    exact h.grounded a kind ha
  filed a kind ha := by
    rw [hheap] at ha
    exact hfiled a _ ((h.allocated a).mpr ⟨kind, ha⟩) (h.filed a kind ha)
  unique a b kind ha hb := by
    rw [hheap] at ha hb
    exact h.unique a b kind ha hb
  absent t kind rest ht a ha := by
    rw [hheap] at ha
    exact habsent t kind rest ht a ha
  locked := hlocked

/-- What is left to check when moreover one thread only moves on. -/
theorem Inv.of_thread (h : Inv hash s) {t : Nat} {phase : Phase σ} (hheap : s'.heap = s.heap)
    (hthreads : s'.threads = update s.threads t phase)
    (halive : ∀ a, s'.alive a = s.alive a)
    (hkept : ∀ o c, (o, c) ∈ s.handles → o ≠ .thread t → (o, c) ∈ s'.handles)
    (hfiled : ∀ a key, s.alive a = true → a ∈ s.bucketAt key → a ∈ s'.bucketAt key)
    (hwriter : ∀ t' i, t' ≠ t → (s.shards i).writer = some t' → (s'.shards i).writer = some t')
    (hpending : ∀ kind, phase.form = some kind →
      ∀ c ∈ kind.children, (Owner.thread t, c) ∈ s'.handles)
    (habsent : ∀ kind rest, phase = .writing kind rest → ∀ a, s.heap a = some kind → a ∈ rest)
    (hlocked : ∀ kind, phase.locks = some kind →
      (s'.shards (shardOf (hash kind))).writer = some t) : Inv hash s' := by
  have hself : s'.threads t = phase := by rw [hthreads, Function.update_self]
  have hother (t' : Nat) (ht : t' ≠ t) : s'.threads t' = s.threads t' := by
    rw [hthreads, Function.update_of_ne ht]
  apply Inv.of_heap_eq h hheap halive
  · intro a c hc
    exact hkept _ c hc (by simp)
  · exact hfiled
  · intro t' kind hform c hc
    by_cases ht : t' = t
    · subst ht
      rw [hself] at hform
      exact hpending kind hform c hc
    · rw [hother t' ht] at hform
      exact hkept _ c (h.pending t' kind hform c hc) (by simp [ht])
  · intro t' kind rest ht'
    by_cases ht : t' = t
    · subst ht
      rw [hself] at ht'
      exact habsent kind rest ht'
    · rw [hother t' ht] at ht'
      exact h.absent t' kind rest ht'
  · intro t' kind ht'
    by_cases ht : t' = t
    · subst ht
      rw [hself] at ht'
      exact hlocked kind ht'
    · rw [hother t' ht] at ht'
      exact hwriter t' _ ht (h.locked t' kind ht')

theorem inv_call (h : Inv hash s) {t : Nat} {label : σ} {children : List Nat}
    (hheld : ∀ c ∈ children, (Owner.program, c) ∈ s.handles) :
    Inv hash { s with
      handles := children.map (Owner.thread t, ·) ++ s.handles
      threads := update s.threads t (.called ⟨label, children⟩) } := by
  apply Inv.of_thread h
  · rfl
  · rfl
  · apply alive_congr
    intro a
    show a ∈ (children.map (Owner.thread t, ·) ++ s.handles).map Prod.snd ↔ _
    rw [List.map_append, List.mem_append, List.map_map]
    constructor
    · rintro (ha | ha)
      · obtain ⟨c, hc, rfl⟩ := List.mem_map.mp ha
        show c ∈ s.handles.map Prod.snd
        exact List.mem_map_of_mem (f := Prod.snd) (hheld c hc)
      · exact ha
    · exact Or.inr
  · intro o c hc _
    exact List.mem_append_right _ hc
  · exact fun a key _ ha => ha
  · exact fun t' i _ hi => hi
  · intro kind hform c hc
    rw [← Option.some.inj hform] at hc
    exact List.mem_append_left _ (List.mem_map_of_mem hc)
  · exact fun kind rest hphase => by simp at hphase
  · exact fun kind hphase => by simp [Phase.locks] at hphase

theorem inv_clone (h : Inv hash s) {address : Nat} (hheld : (Owner.program, address) ∈ s.handles) :
    Inv hash { s with handles := (Owner.program, address) :: s.handles } := by
  apply Inv.of_heap_eq h
  · rfl
  · apply alive_congr
    intro a
    show a ∈ address :: s.handles.map Prod.snd ↔ _
    rw [List.mem_cons]
    constructor
    · rintro (rfl | ha)
      · exact List.mem_map_of_mem (f := Prod.snd) hheld
      · exact ha
    · exact Or.inr
  · intro a c hc
    exact List.mem_cons_of_mem _ hc
  · exact fun a key _ ha => ha
  · intro t kind hform c hc
    exact List.mem_cons_of_mem _ (h.pending t kind hform c hc)
  · exact h.absent
  · exact h.locked

/-! ## Locks and lookups -/

/-- A shard may change its lock only. -/
theorem bucketAt_of_buckets (h : ∀ i, (s'.shards i).buckets = (s.shards i).buckets)
    (key : UInt64) : s'.bucketAt key = s.bucketAt key := by
  rw [bucketAt, bucketAt, h]

theorem buckets_update {i : UInt64} {shard : Shard} (h : shard.buckets = (s.shards i).buckets)
    (j : UInt64) : (update s.shards i shard j).buckets = (s.shards j).buckets := by
  by_cases hj : j = i
  · rw [hj, Function.update_self, h]
  · rw [Function.update_of_ne hj]

theorem writer_update {i : UInt64} {shard : Shard} {t : Nat}
    (h : (s.shards i).writer = some t → shard.writer = some t) (j : UInt64) :
    (s.shards j).writer = some t → (update s.shards i shard j).writer = some t := by
  by_cases hj : j = i
  · rw [hj, Function.update_self]
    exact h
  · rw [Function.update_of_ne hj]
    exact id

/-- A thread takes or leaves a lock and keeps its handles. -/
theorem inv_lock (h : Inv hash s) {t : Nat} {phase : Phase σ} {i : UInt64} {shard : Shard}
    (hbuckets : shard.buckets = (s.shards i).buckets)
    (hform : phase.form = (s.threads t).form)
    (hwriter : ∀ t', t' ≠ t → (s.shards i).writer = some t' → shard.writer = some t')
    (habsent : ∀ kind rest, phase = .writing kind rest → ∀ a, s.heap a = some kind → a ∈ rest)
    (hlocked : ∀ kind, phase.locks = some kind →
      (update s.shards i shard (shardOf (hash kind))).writer = some t) :
    Inv hash { s with
      shards := update s.shards i shard
      threads := update s.threads t phase } := by
  apply Inv.of_thread h
  · rfl
  · rfl
  · exact fun _ => rfl
  · exact fun o c hc _ => hc
  · intro a key _ ha
    rw [bucketAt_of_buckets (s := s)]
    · exact ha
    · exact buckets_update hbuckets
  · intro t' j ht'
    exact writer_update (hwriter t' ht') j
  · intro kind hkind
    exact h.pending t kind (hform.symm.trans hkind)
  · exact habsent
  · exact hlocked

theorem inv_answer (h : Inv hash s) {t address : Nat} {i : UInt64} {shard : Shard}
    (halive : s.alive address = true) (hbuckets : shard.buckets = (s.shards i).buckets)
    (hwriter : ∀ t', t' ≠ t → (s.shards i).writer = some t' → shard.writer = some t') :
    Inv hash ({ s with shards := update s.shards i shard }.answer t address) := by
  apply Inv.of_thread h
  · rfl
  · rfl
  · apply alive_congr
    intro a
    show a ∈ address :: (reown (.thread t) .program s.handles).map Prod.snd ↔ _
    rw [map_snd_reown, List.mem_cons]
    constructor
    · rintro (rfl | ha)
      · exact alive_iff.mp halive
      · exact ha
    · exact Or.inr
  · intro o c hc ho
    exact List.mem_cons_of_mem _ (mem_reown_of_mem hc ho)
  · intro a key _ ha
    rw [bucketAt_of_buckets (s := s)]
    · exact ha
    · exact buckets_update hbuckets
  · intro t' j ht'
    exact writer_update (hwriter t' ht') j
  · exact fun kind hphase => by simp [Phase.form] at hphase
  · exact fun kind rest hphase => by simp at hphase
  · exact fun kind hphase => by simp [Phase.locks] at hphase

/-- No other thread holds the lock. -/
theorem Inv.writer_ne (h : Inv hash s) {t t' : Nat} {kind : TypeKind σ} (ht : t' ≠ t)
    (hlocks : (s.threads t).locks = some kind) :
    (s.shards (shardOf (hash kind))).writer ≠ some t' := by
  rw [h.locked t kind hlocks]
  intro heq
  exact ht (Option.some.inj heq).symm

theorem hits_iff [DecidableEq σ] {weak : Nat} {kind : TypeKind σ} :
    s.hits weak kind = true ↔ s.alive weak = true ∧ s.heap weak = some kind := by
  simp [hits]

theorem inv_read (h : Inv hash s) {t : Nat} {kind : TypeKind σ} (ht : s.threads t = .called kind)
    (rest : List Nat) :
    Inv hash { s with
      shards := update s.shards (shardOf (hash kind))
        { s.shards (shardOf (hash kind)) with
          readers := t :: (s.shards (shardOf (hash kind))).readers }
      threads := update s.threads t (.reading kind rest) } := by
  apply inv_lock h
  · rfl
  · rw [ht]
    rfl
  · exact fun _ _ hw => hw
  · exact fun kind rest hphase => by simp at hphase
  · exact fun kind hphase => by simp [Phase.locks] at hphase

/-- A scan passes an entry. -/
theorem inv_scan (h : Inv hash s) {t : Nat} {phase : Phase σ}
    (hform : phase.form = (s.threads t).form) (hlocks : phase.locks = (s.threads t).locks)
    (habsent : ∀ kind rest, phase = .writing kind rest → ∀ a, s.heap a = some kind → a ∈ rest) :
    Inv hash { s with threads := update s.threads t phase } := by
  apply Inv.of_thread h
  · rfl
  · rfl
  · exact fun _ => rfl
  · exact fun o c hc _ => hc
  · exact fun a key _ ha => ha
  · exact fun t' i _ hi => hi
  · intro kind hkind
    exact h.pending t kind (hform.symm.trans hkind)
  · exact habsent
  · intro kind hkind
    exact h.locked t kind (hlocks.symm.trans hkind)

theorem inv_look [DecidableEq σ] (h : Inv hash s) (t : Nat) : Inv hash (step hash s (.look t)) := by
  rw [step]
  split
  · rename_i kind ht
    apply inv_lock h
    · rfl
    · rw [ht]
      rfl
    · exact fun _ _ hw => hw
    · exact fun _ _ hphase => by simp at hphase
    · exact fun _ hphase => by simp [Phase.locks] at hphase
  · rename_i kind weak rest ht
    by_cases hhits : s.hits weak kind = true
    · rw [if_pos hhits]
      apply inv_answer h
      · exact (hits_iff.mp hhits).1
      · rfl
      · exact fun _ _ hw => hw
    · rw [if_neg hhits]
      apply inv_scan h
      · rw [ht]
        rfl
      · rw [ht]
        rfl
      · exact fun _ _ hphase => by simp at hphase
  · rename_i kind weak rest ht
    by_cases hhits : s.hits weak kind = true
    · rw [if_pos hhits]
      apply inv_answer h
      · exact (hits_iff.mp hhits).1
      · rfl
      · intro t' ht' hw
        exact absurd hw (h.writer_ne ht' (by rw [ht]; rfl))
    · rw [if_neg hhits]
      apply inv_scan h
      · rw [ht]
        rfl
      · rw [ht]
        rfl
      · intro kind' rest' hphase a ha
        obtain ⟨rfl, rfl⟩ := Phase.writing.inj hphase
        rcases List.mem_cons.mp (h.absent t kind _ ht a ha) with rfl | hrest
        · exact absurd (hits_iff.mpr ⟨(h.allocated a).mpr ⟨kind, ha⟩, ha⟩) hhits
        · exact hrest
  · exact h

theorem inv_writing (h : Inv hash s) {t : Nat} {kind : TypeKind σ}
    (ht : s.threads t = .missed kind) (hfree : (s.shards (shardOf (hash kind))).writer = none) :
    Inv hash { s with
      shards := update s.shards (shardOf (hash kind))
        { s.shards (shardOf (hash kind)) with writer := some t }
      threads := update s.threads t (.writing kind (s.bucketAt (hash kind))) } := by
  apply inv_lock h
  · rfl
  · rw [ht]
    rfl
  · intro t' _ hw
    rw [hfree] at hw
    exact absurd hw (by simp)
  · intro kind' rest hphase a ha
    obtain ⟨rfl, rfl⟩ := Phase.writing.inj hphase
    exact h.filed a kind ha
  · intro kind' hlocks
    rw [← Option.some.inj hlocks, Function.update_self]

/-! ## The insertion -/

theorem alive_insert {t address : Nat} {late : List Nat} {kind : TypeKind σ} (a : Nat) :
    (s.insert hash t address late kind).alive a = true ↔ a = address ∨ s.alive a = true := by
  rw [alive_iff, alive_iff]
  show a ∈ address :: (reown (.thread t) (.node address) s.handles).map Prod.snd ↔ _
  rw [map_snd_reown, List.mem_cons]

theorem seen_of_alive {late : List Nat} {a : Nat} (h : s.alive a = true) :
    s.seen late a = true := by
  rw [seen, h, Bool.true_or]

theorem mem_filedBucket {address : Nat} {late : List Nat} {kind : TypeKind σ} :
    address ∈ (s.filedBucket hash address late kind).asSlice := by
  rw [filedBucket]
  split
  · exact Bucket.mem_insert (Or.inl rfl)
  · exact List.mem_singleton_self _

theorem shards_insert_self {t address : Nat} {late : List Nat} {kind : TypeKind σ} :
    (s.insert hash t address late kind).shards (shardOf (hash kind)) =
      { s.shards (shardOf (hash kind)) with
        buckets := (s.shards (shardOf (hash kind))).buckets.insert (hash kind)
          (s.filedBucket hash address late kind)
        sinceSweep := (s.shards (shardOf (hash kind))).sinceSweep + 1 } :=
  Function.update_self ..

/-- The bucket of the form has the new entry. -/
theorem bucketAt_insert_self {t address : Nat} {late : List Nat} {kind : TypeKind σ} :
    address ∈ (s.insert hash t address late kind).bucketAt (hash kind) := by
  rw [bucketAt, shards_insert_self]
  show address ∈ match ((s.shards (shardOf (hash kind))).buckets.insert (hash kind)
    (s.filedBucket hash address late kind))[hash kind]? with
    | some bucket => bucket.asSlice
    | none => []
  rw [Table.get_insert_self]
  exact mem_filedBucket

/-- Every bucket keeps its live entries. -/
theorem bucketAt_insert {t address : Nat} {late : List Nat} {kind : TypeKind σ} {a : Nat}
    {key : UInt64} (ha : s.alive a = true) (hmem : a ∈ s.bucketAt key) :
    a ∈ (s.insert hash t address late kind).bucketAt key := by
  rw [bucketAt] at hmem ⊢
  by_cases hshard : shardOf key = shardOf (hash kind)
  · rw [hshard] at hmem ⊢
    rw [shards_insert_self]
    by_cases hkey : hash kind = key
    · subst hkey
      simp only [Table.get_insert_self, filedBucket]
      split at hmem
      · exact Bucket.mem_insert (Or.inr ⟨hmem, seen_of_alive ha⟩)
      · exact absurd hmem List.not_mem_nil
    · simp only [Table.get_insert_of_ne _ _ hkey]
      exact hmem
  · have hother : (s.insert hash t address late kind).shards (shardOf key) =
        s.shards (shardOf key) := Function.update_of_ne hshard ..
    rw [hother]
    exact hmem

theorem inv_insert (h : Inv hash s) {t address : Nat} {late : List Nat} {kind : TypeKind σ}
    (ht : s.threads t = .writing kind []) (hfresh : ¬ s.alive address = true) :
    Inv hash (s.insert hash t address late kind) := by
  have hfree : s.heap address = none := by
    rw [Option.eq_none_iff_forall_ne_some]
    intro kind' hkind
    exact hfresh ((h.allocated address).mpr ⟨kind', hkind⟩)
  have hself : (s.insert hash t address late kind).heap address = some kind :=
    Function.update_self ..
  have hother (a : Nat) (ha : a ≠ address) :
      (s.insert hash t address late kind).heap a = s.heap a := Function.update_of_ne ha ..
  have hnone (a : Nat) : s.heap a ≠ some kind := by
    intro ha
    exact absurd (h.absent t kind [] ht a ha) List.not_mem_nil
  have hchildren (c : Nat) (hc : c ∈ kind.children) : s.alive c = true :=
    alive_of_mem (h.pending t kind (by rw [ht]; rfl) c hc)
  have hkept (o : Owner) (c : Nat) (hc : (o, c) ∈ s.handles) (ho : o ≠ .thread t) :
      (o, c) ∈ (s.insert hash t address late kind).handles :=
    List.mem_cons_of_mem _ (mem_reown_of_mem hc ho)
  have hthread (t' : Nat) (htt : t' ≠ t) :
      (s.insert hash t address late kind).threads t' = s.threads t' := Function.update_of_ne htt ..
  have htrees {tree : Tree σ} {a : Nat} (ha : s.alive a = true) (htree : Denotes s.heap tree a) :
      Denotes (s.insert hash t address late kind).heap tree a := by
    apply @Denotes.mono _ _ _ (fun a => s.alive a = true) _ _ _ ha htree
    intro b kind' hb hkind'
    constructor
    · rw [hother b (fun heq => hfresh (heq ▸ hb)), hkind']
    · intro c hc
      exact alive_of_mem (h.owned b kind' hkind' c hc)
  constructor
  case allocated =>
    intro a
    rw [alive_insert]
    by_cases ha : a = address
    · rw [ha, hself]
      simp
    · rw [hother a ha, ← h.allocated a]
      simp [ha]
  case owned =>
    intro a kind' hkind' c hc
    by_cases ha : a = address
    · rw [ha, hself] at hkind'
      rw [← Option.some.inj hkind'] at hc
      apply List.mem_cons_of_mem
      rw [mem_reown, ha]
      exact Or.inr ⟨rfl, h.pending t kind (by rw [ht]; rfl) c hc⟩
    · rw [hother a ha] at hkind'
      exact hkept _ c (h.owned a kind' hkind' c hc) (by simp)
  case pending =>
    intro t' kind' hform c hc
    by_cases htt : t' = t
    · rw [htt] at hform
      simp [Interner.insert, Phase.form] at hform
    · rw [hthread t' htt] at hform
      exact hkept _ c (h.pending t' kind' hform c hc) (by simp [htt])
  case grounded =>
    intro a kind' hkind'
    by_cases ha : a = address
    · have hall : ∀ as : List Nat, (∀ c ∈ as, s.alive c = true) →
          ∃ trees, DenoteAll (s.insert hash t address late kind).heap trees as := by
        intro as has
        induction as with
        | nil => exact ⟨[], trivial⟩
        | cons c as ih =>
            obtain ⟨trees, htrees'⟩ := ih fun d hd => has d (List.mem_cons_of_mem _ hd)
            have hc := has c List.mem_cons_self
            obtain ⟨ckind, hckind⟩ := (h.allocated c).mp hc
            obtain ⟨tree, htree⟩ := h.grounded c ckind hckind
            exact ⟨tree :: trees, htrees hc htree, htrees'⟩
      obtain ⟨trees, hdenote⟩ := hall kind.children hchildren
      rw [ha]
      exact ⟨.node kind.label trees, kind, hself, rfl, hdenote⟩
    · rw [hother a ha] at hkind'
      obtain ⟨tree, htree⟩ := h.grounded a kind' hkind'
      exact ⟨tree, htrees ((h.allocated a).mpr ⟨kind', hkind'⟩) htree⟩
  case filed =>
    intro a kind' hkind'
    by_cases ha : a = address
    · rw [ha, hself] at hkind'
      rw [ha, ← Option.some.inj hkind']
      exact bucketAt_insert_self
    · rw [hother a ha] at hkind'
      exact bucketAt_insert ((h.allocated a).mpr ⟨kind', hkind'⟩) (h.filed a kind' hkind')
  case unique =>
    intro a b kind' hakind hbkind
    by_cases ha : a = address
    · by_cases hb : b = address
      · rw [ha, hb]
      · rw [ha, hself] at hakind
        rw [hother b hb, ← Option.some.inj hakind] at hbkind
        exact absurd hbkind (hnone b)
    · by_cases hb : b = address
      · rw [hb, hself] at hbkind
        rw [hother a ha, ← Option.some.inj hbkind] at hakind
        exact absurd hakind (hnone a)
      · rw [hother a ha] at hakind
        rw [hother b hb] at hbkind
        exact h.unique a b kind' hakind hbkind
  case absent =>
    intro t' kind' rest ht' a hkind'
    by_cases htt : t' = t
    · rw [htt] at ht'
      simp [Interner.insert] at ht'
    · rw [hthread t' htt] at ht'
      by_cases ha : a = address
      · -- two threads would hold the lock of the same shard
        rw [ha, hself] at hkind'
        obtain rfl := Option.some.inj hkind'
        have hlocked := h.locked t' kind (by rw [ht']; rfl)
        exact absurd hlocked (h.writer_ne htt (by rw [ht]; rfl))
      · rw [hother a ha] at hkind'
        exact h.absent t' kind' rest ht' a hkind'
  case locked =>
    intro t' kind' ht'
    by_cases htt : t' = t
    · rw [htt] at ht' ⊢
      simp only [Interner.insert, Function.update_self, Phase.locks] at ht'
      rw [← Option.some.inj ht', shards_insert_self]
      exact h.locked t kind (by rw [ht]; rfl)
    · rw [hthread t' htt] at ht'
      apply writer_update (s := s) _ _ (h.locked t' kind' ht')
      exact fun hw => hw

/-! ## The sweep and the drop -/

/-- A sweep keeps live entries. -/
theorem mem_sweep {late : List Nat} {shard : Shard} {bucket : Bucket} {a : Nat} {key : UInt64}
    (hbucket : shard.buckets[key]? = some bucket) (ha : s.alive a = true)
    (hmem : a ∈ bucket.asSlice) :
    ∃ kept, (s.sweep late shard).buckets[key]? = some kept ∧ a ∈ kept.asSlice := by
  obtain ⟨kept, hkept, hin⟩ := Bucket.mem_retainLive hmem (@seen_of_alive _ _ late _ ha)
  refine ⟨kept, ?_, hin⟩
  rw [sweep, Std.ExtTreeMap.getElem?_filterMap, hbucket]
  exact hkept

theorem bucketAt_finish {t : Nat} {late : List Nat} {kind : TypeKind σ} {a : Nat} {key : UInt64}
    (ha : s.alive a = true) (hmem : a ∈ s.bucketAt key) :
    a ∈ (s.finish hash t late kind).bucketAt key := by
  rw [bucketAt] at hmem ⊢
  rw [finish]
  by_cases hshard : shardOf key = shardOf (hash kind)
  · rw [hshard] at hmem ⊢
    simp only [Function.update_self]
    split at hmem
    · rename_i bucket hbucket
      by_cases hdue : max sweepInterval (s.shards (shardOf (hash kind))).buckets.size ≤
          (s.shards (shardOf (hash kind))).sinceSweep
      · obtain ⟨kept, hkept, hin⟩ := @mem_sweep _ _ late _ _ _ _ hbucket ha hmem
        rw [if_pos hdue, hkept]
        exact hin
      · rw [if_neg hdue, hbucket]
        exact hmem
    · exact absurd hmem List.not_mem_nil
  · simp only [Function.update_of_ne hshard]
    exact hmem

theorem inv_finish (h : Inv hash s) {t : Nat} {late : List Nat} {kind : TypeKind σ}
    (ht : s.threads t = .inserted kind) : Inv hash (s.finish hash t late kind) := by
  apply Inv.of_thread h
  · rfl
  · rfl
  · apply alive_congr
    intro a
    show a ∈ (reown (.thread t) .program s.handles).map Prod.snd ↔ _
    rw [map_snd_reown]
  · intro o c hc ho
    exact mem_reown_of_mem hc ho
  · intro a key ha hmem
    exact bucketAt_finish ha hmem
  · intro t' i ht' hi
    by_cases hshard : i = shardOf (hash kind)
    · rw [hshard] at hi
      exact absurd hi (h.writer_ne ht' (by rw [ht]; rfl))
    · rw [finish]
      simp only [Function.update_of_ne hshard]
      exact hi
  · exact fun kind hphase => by simp [Phase.form] at hphase
  · exact fun kind rest hphase => by simp at hphase
  · exact fun kind hphase => by simp [Phase.locks] at hphase

/-- One handle the fewer. -/
theorem mem_erase_snd {handles : List (Owner × Nat)} {h : Owner × Nat} {a : Nat} (hne : a ≠ h.2) :
    a ∈ (handles.erase h).map Prod.snd ↔ a ∈ handles.map Prod.snd := by
  constructor
  · intro ha
    exact (List.erase_sublist.map Prod.snd).subset ha
  · intro ha
    obtain ⟨h', hmem, rfl⟩ := List.mem_map.mp ha
    apply List.mem_map_of_mem
    exact (List.mem_erase_of_ne (fun heq => hne (by rw [heq]))).mpr hmem

theorem inv_dropHandle (h : Inv hash s) {address : Nat}
    (hheld : (Owner.program, address) ∈ s.handles) : Inv hash (s.dropHandle address) := by
  have herase (o : Owner) (c : Nat) (hc : (o, c) ∈ s.handles) (ho : o ≠ .program) :
      (o, c) ∈ s.handles.erase (.program, address) :=
    (List.mem_erase_of_ne (fun heq => ho (Prod.mk.inj heq).1)).mpr hc
  rw [dropHandle]
  by_cases hlast : address ∈ (s.handles.erase (.program, address)).map Prod.snd
  · simp only [if_pos hlast]
    apply Inv.of_heap_eq h
    · rfl
    · apply alive_congr
      intro a
      by_cases ha : a = address
      · rw [ha]
        exact iff_of_true hlast (List.mem_map_of_mem (f := Prod.snd) hheld)
      · exact mem_erase_snd ha
    · intro a c hc
      exact herase _ c hc (by simp)
    · exact fun a key _ ha => ha
    · intro t kind hform c hc
      exact herase _ c (h.pending t kind hform c hc) (by simp)
    · exact h.absent
    · exact h.locked
  · simp only [if_neg hlast]
    generalize hs' : ({ s with
      heap := update s.heap address none
      handles := reown (.node address) .program (s.handles.erase (.program, address)) } :
        Interner σ) = s'
    have hself : s'.heap address = none := by
      rw [← hs']
      exact Function.update_self ..
    have hother (a : Nat) (ha : a ≠ address) : s'.heap a = s.heap a := by
      rw [← hs']
      exact Function.update_of_ne ha ..
    have hback {a : Nat} {kind : TypeKind σ} (ha : s'.heap a = some kind) :
        a ≠ address ∧ s.heap a = some kind := by
      have hne : a ≠ address := by
        intro heq
        rw [heq, hself] at ha
        exact absurd ha (by simp)
      rw [hother a hne] at ha
      exact ⟨hne, ha⟩
    have halive (a : Nat) : s'.alive a = true ↔ a ≠ address ∧ s.alive a = true := by
      rw [alive_iff, alive_iff, ← hs']
      show a ∈ (reown _ _ _).map Prod.snd ↔ _
      rw [map_snd_reown]
      by_cases ha : a = address
      · rw [ha]
        simp [hlast]
      · rw [mem_erase_snd ha]
        simp [ha]
    have hkept (o : Owner) (c : Nat) (hc : (o, c) ∈ s.handles) (hprog : o ≠ .program)
        (hnode : o ≠ .node address) : (o, c) ∈ s'.handles := by
      rw [← hs']
      exact mem_reown_of_mem (herase o c hc hprog) hnode
    have howned : ∀ a kind, s'.heap a = some kind → ∀ c ∈ kind.children,
        (Owner.node a, c) ∈ s'.handles := by
      intro a kind ha c hc
      exact hkept _ c (h.owned a kind (hback ha).2 c hc) (by simp) (by simp [(hback ha).1])
    constructor
    case allocated =>
      intro a
      rw [halive]
      by_cases ha : a = address
      · rw [ha, hself]
        simp
      · rw [hother a ha, ← h.allocated a]
        simp [ha]
    case owned => exact howned
    case pending =>
      intro t kind hform c hc
      rw [← hs'] at hform
      exact hkept _ c (h.pending t kind hform c hc) (by simp) (by simp)
    case grounded =>
      intro a kind ha
      obtain ⟨tree, htree⟩ := h.grounded a kind (hback ha).2
      refine ⟨tree, @Denotes.mono _ _ _ (fun a => s'.alive a = true) ?_ _ _ ?_ htree⟩
      · intro b kind' hb hkind'
        have hb' := hother b ((halive b).mp hb).1
        rw [hb']
        refine ⟨hkind', fun c hc => alive_of_mem (howned b kind' (hb'.trans hkind') c hc)⟩
      · exact (halive a).mpr ⟨(hback ha).1, (h.allocated a).mpr ⟨kind, (hback ha).2⟩⟩
    case filed =>
      intro a kind ha
      have hmem := h.filed a kind (hback ha).2
      rw [← hs']
      exact hmem
    case unique =>
      intro a b kind ha hb
      exact h.unique a b kind (hback ha).2 (hback hb).2
    case absent =>
      intro t kind rest ht a ha
      rw [← hs'] at ht
      exact h.absent t kind rest ht a (hback ha).2
    case locked =>
      intro t kind ht
      rw [← hs'] at ht ⊢
      exact h.locked t kind ht

end Steps

/-! ## Runs -/

section Runs

variable [DecidableEq σ] {hash : TypeKind σ → UInt64}

theorem inv_step (s : Interner σ) (op : Op σ) (h : Inv hash s) : Inv hash (step hash s op) := by
  cases op with
  | call t label children =>
      rw [step]
      split
      · split
        · exact inv_call h ‹_›
        · exact h
      · exact h
  | read t =>
      rw [step]
      split
      · rename_i kind ht
        simp only
        split
        · exact inv_read h ht _
        · exact h
      · exact h
  | look t => exact inv_look h t
  | lock t =>
      rw [step]
      split
      · rename_i kind ht
        simp only
        split
        · rename_i hfree
          exact inv_writing h ht hfree.1
        · exact h
      · exact h
  | insert t address late =>
      rw [step]
      split
      · rename_i kind ht
        split
        · exact h
        · rename_i hfresh
          exact inv_insert h ht hfresh
      · exact h
  | finish t late =>
      rw [step]
      split
      · exact inv_finish h ‹_›
      · exact h
  | clone address =>
      rw [step]
      split
      · exact inv_clone h ‹_›
      · exact h
  | drop address =>
      rw [step]
      split
      · exact inv_dropHandle h ‹_›
      · exact h

/-- The invariant holds after any interleaving. -/
theorem inv_run (ops : List (Op σ)) : Inv hash (run (step hash) empty ops) :=
  run_invariant inv_step (inv_empty hash) ops

end Runs

mutual

/-- With one node a form, a type has one address. -/
theorem Inv.address_unique {hash : TypeKind σ → UInt64} {s : Interner σ} (h : Inv hash s) :
    ∀ {tree : Tree σ} {a b : Nat}, Denotes s.heap tree a → Denotes s.heap tree b → a = b
  | .node label children, a, b, ⟨⟨alabel, achildren⟩, ha, halabel, haall⟩,
      ⟨⟨blabel, bchildren⟩, hb, hblabel, hball⟩ => by
      have hlabel : alabel = blabel := halabel.trans hblabel.symm
      have hchildren : achildren = bchildren := h.addresses_unique haall hball
      rw [hlabel, hchildren] at ha
      exact h.unique a b _ ha hb

theorem Inv.addresses_unique {hash : TypeKind σ → UInt64} {s : Interner σ} (h : Inv hash s) :
    ∀ {trees : List (Tree σ)} {as bs : List Nat}, DenoteAll s.heap trees as →
      DenoteAll s.heap trees bs → as = bs
  | [], [], [], _, _ => rfl
  | _ :: _, _ :: _, _ :: _, ⟨ha, has⟩, ⟨hb, hbs⟩ => by
      rw [h.address_unique ha hb, h.addresses_unique has hbs]

end

mutual

/-- An address holds one type. -/
theorem Denotes.unique {heap : Nat → Option (TypeKind σ)} :
    ∀ {tree tree' : Tree σ} {a : Nat}, Denotes heap tree a → Denotes heap tree' a → tree = tree'
  | .node label children, .node label' children', a, ⟨kind, hkind, hlabel, hall⟩,
      ⟨kind', hkind', hlabel', hall'⟩ => by
      rw [hkind] at hkind'
      obtain rfl := Option.some.inj hkind'
      rw [← hlabel, ← hlabel', hall.unique hall']

theorem DenoteAll.unique {heap : Nat → Option (TypeKind σ)} :
    ∀ {trees trees' : List (Tree σ)} {as : List Nat}, DenoteAll heap trees as →
      DenoteAll heap trees' as → trees = trees'
  | [], [], [], _, _ => rfl
  | [], _ :: _, [], _, h' => h'.elim
  | _ :: _, [], [], h, _ => h.elim
  | _ :: _, _ :: _, _ :: _, ⟨hhead, htail⟩, ⟨hhead', htail'⟩ => by
      rw [hhead.unique hhead', htail.unique htail']

end

/-- Over every interleaving, a live handle is of one type, two live handles of
one type are one address, and every live handle has its entry in the bucket of
its hash. -/
theorem intern_canonical [DecidableEq σ] (hash : TypeKind σ → UInt64) (ops : List (Op σ)) :
    let s := run (step hash) empty ops
    (∀ a, s.alive a = true → ∃! tree, Denotes s.heap tree a) ∧
      (∀ a b tree, Denotes s.heap tree a → Denotes s.heap tree b → a = b) ∧
      ∀ a, s.alive a = true → ∃ kind, s.heap a = some kind ∧ a ∈ s.bucketAt (hash kind) := by
  intro s
  have hinv : Inv hash s := inv_run ops
  refine ⟨?_, ?_, ?_⟩
  · intro a ha
    obtain ⟨kind, hkind⟩ := (hinv.allocated a).mp ha
    obtain ⟨tree, htree⟩ := hinv.grounded a kind hkind
    exact ⟨tree, htree, fun tree' htree' => htree'.unique htree⟩
  · intro a b tree ha hb
    exact hinv.address_unique ha hb
  · intro a ha
    obtain ⟨kind, hkind⟩ := (hinv.allocated a).mp ha
    exact ⟨kind, hkind, hinv.filed a kind hkind⟩

end PhpantomLsp.Intern
