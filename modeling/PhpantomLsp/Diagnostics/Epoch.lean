import PhpantomLsp.Lib.Runs
import PhpantomLsp.Lib.Table

/-!
# Publication epochs

Every publication moves the `generation` counter when it begins and when its
guard is dropped, and moves the `own` counter of every tracked file it lists
beside it.  Two snapshots of a file whose counters moved by the same amount
are taken to have seen the file's own publications only.

That reading is sound while a publication that lists a tracked file lists it
once and lists nothing else (`Counted`).  The invariant of a run since a
snapshot is `Since`: the file's counter stays behind the bumps there were, and
strictly behind them once something else was published.
-/

namespace PhpantomLsp.Diagnostics

open PhpantomLsp.Lib

/-- `EpochState`, and the guards of the publications that are open, each with
the tracked files it published. -/
structure Epoch where
  generation : UInt64
  active : UInt32
  own : Table String UInt64
  guards : List (List String)

structure EpochSnapshot where
  generation : UInt64
  own : UInt64
deriving DecidableEq

/-- Both differences wrap. -/
def EpochSnapshot.onlyOwnChangesSince (later earlier : EpochSnapshot) : Bool :=
  later.generation - earlier.generation == later.own - earlier.own

namespace Epoch

def initial : Epoch := ⟨0, 0, ∅, []⟩

/-- Count one bump of `uri`, if it is tracked. -/
def bumpOwn (own : Table String UInt64) (uri : String) : Table String UInt64 :=
  match own[uri]? with
  | some count => own.insert uri (count + 1)
  | none => own

/-- One file of a publication that begins: the counters, and the tracked files
so far. -/
def publishOne (st : Table String UInt64 × List String) (uri : String) :
    Table String UInt64 × List String :=
  match st.1[uri]? with
  | some count => (st.1.insert uri (count + 1), st.2 ++ [uri])
  | none => st

def beginPublication (s : Epoch) (uris : List String) : Epoch :=
  let published := uris.foldl publishOne (s.own, [])
  { generation := s.generation + 1
    active := s.active + 1
    own := published.1
    guards := s.guards ++ [published.2] }

/-- Drop the guard of one open publication. -/
def dropGuard (s : Epoch) (i : Nat) : Epoch :=
  match s.guards[i]? with
  | none => s
  | some tracked =>
      { generation := s.generation + 1
        active := s.active - 1
        own := tracked.foldl bumpOwn s.own
        guards := s.guards.eraseIdx i }

def noteChange (s : Epoch) : Epoch := { s with generation := s.generation + 1 }

def snapshot (s : Epoch) (uri : String) : Option EpochSnapshot × Epoch :=
  if s.active > 0 then (none, s)
  else
    match s.own[uri]? with
    | some own => (some ⟨s.generation, own⟩, s)
    | none => (some ⟨s.generation, 0⟩, { s with own := s.own.insert uri 0 })

def unchangedSince (s : Epoch) (earlier : EpochSnapshot) : Bool :=
  s.active == 0 && s.generation == earlier.generation

def forget (s : Epoch) (uri : String) : Epoch := { s with own := s.own.erase uri }

end Epoch

inductive EpochOp where
  | beginPublication (uris : List String)
  | dropGuard (i : Nat)
  | noteChange
  | forget (uri : String)
  | snapshot (uri : String)

namespace Epoch

def apply (s : Epoch) : EpochOp → Epoch
  | .beginPublication uris => s.beginPublication uris
  | .dropGuard i => s.dropGuard i
  | .noteChange => s.noteChange
  | .forget uri => s.forget uri
  | .snapshot uri => (s.snapshot uri).2

/-- The counters after an interleaving. -/
def after (ops : List EpochOp) : Epoch := run apply initial ops

/-- A publication that lists a tracked file lists nothing else, and fewer than
`2 ^ 32` publications are open at once. -/
def Counted (s : Epoch) : EpochOp → Prop
  | .beginPublication uris =>
      (∀ uri ∈ uris, (s.own[uri]?).isSome = true → uris = [uri]) ∧ s.guards.length + 1 < 2 ^ 32
  | _ => True

end Epoch

/-- The operation publishes or changes something besides `uri`. -/
def EpochOp.TouchesOther (uri : String) : EpochOp → Prop
  | .beginPublication uris => ∃ other ∈ uris, other ≠ uri
  | .noteChange => True
  | _ => False

/-- The operation begins a publication or notes a change. -/
def EpochOp.Publishes : EpochOp → Prop
  | .beginPublication _ => True
  | .noteChange => True
  | _ => False

namespace Epoch

/-! ## What one operation does to the counters of one file -/

theorem get_bumpOwn (own : Table String UInt64) (uri other : String) :
    (bumpOwn own uri)[other]? =
      if uri = other then (own[other]?).map (· + 1) else own[other]? := by
  unfold bumpOwn
  by_cases h : uri = other
  · subst h
    cases hget : own[uri]? with
    | none => simp [hget]
    | some count => simp
  · cases own[uri]? with
    | none => simp [h]
    | some count => simp [h, Table.get_insert]

/-- A file that is listed at most once is bumped at most once. -/
theorem get_foldl_bumpOwn (uris : List String) (own : Table String UInt64) (uri : String)
    (honce : uris.count uri ≤ 1) :
    (uris.foldl bumpOwn own)[uri]? =
      if uri ∈ uris then (own[uri]?).map (· + 1) else own[uri]? := by
  induction uris generalizing own with
  | nil => simp
  | cons first rest ih =>
      rw [List.foldl_cons]
      by_cases h : first = uri
      · subst h
        have hrest : first ∉ rest := by
          rw [List.count_cons_self] at honce
          exact List.count_eq_zero.mp (by omega)
        rw [ih _ (by rw [List.count_eq_zero.mpr hrest]; omega), if_neg hrest, get_bumpOwn]
        simp
      · have hcount : rest.count uri ≤ 1 := by
          rwa [List.count_cons_of_ne h] at honce
        rw [ih _ hcount, get_bumpOwn, if_neg h]
        simp [Ne.symm h]

theorem isSome_bumpOwn (own : Table String UInt64) (uri other : String) :
    ((bumpOwn own uri)[other]?).isSome = (own[other]?).isSome := by
  rw [get_bumpOwn]
  split
  · simp
  · rfl

/-- Bumping never starts to track a file. -/
theorem isSome_foldl_bumpOwn (uris : List String) (own : Table String UInt64) (other : String) :
    ((uris.foldl bumpOwn own)[other]?).isSome = (own[other]?).isSome := by
  induction uris generalizing own with
  | nil => rfl
  | cons uri rest ih => rw [List.foldl_cons, ih, isSome_bumpOwn]

/-- Beginning a publication bumps the tracked files of its list, and those are
what its guard remembers. -/
theorem publishOne_eq (uris : List String) (own : Table String UInt64) (tracked : List String) :
    uris.foldl publishOne (own, tracked) =
      (uris.foldl bumpOwn own, tracked ++ uris.filter fun uri => (own[uri]?).isSome) := by
  induction uris generalizing own tracked with
  | nil => simp
  | cons first rest ih =>
      have hsame := isSome_bumpOwn own first
      rw [List.foldl_cons, List.foldl_cons]
      cases hget : own[first]? with
      | none =>
          have hstep : publishOne (own, tracked) first = (own, tracked) := by
            simp [publishOne, hget]
          have hbump : bumpOwn own first = own := by simp [bumpOwn, hget]
          rw [hstep, hbump, ih, List.filter_cons_of_neg (by rw [hget]; simp)]
      | some count =>
          have hstep : publishOne (own, tracked) first =
              (bumpOwn own first, tracked ++ [first]) := by
            simp [publishOne, bumpOwn, hget]
          rw [hstep, ih, List.filter_cons_of_pos (by rw [hget]; rfl)]
          simp only [hsame, List.append_assoc, List.singleton_append]

theorem beginPublication_eq (s : Epoch) (uris : List String) :
    s.beginPublication uris =
      { generation := s.generation + 1
        active := s.active + 1
        own := uris.foldl bumpOwn s.own
        guards := s.guards ++ [uris.filter fun uri => (s.own[uri]?).isSome] } := by
  unfold beginPublication
  rw [publishOne_eq]
  simp

/-! ## Counting the bumps of a run -/

/-- How often an operation moves the generation. -/
def bumps (s : Epoch) : EpochOp → Nat
  | .beginPublication _ => 1
  | .dropGuard i => if (s.guards[i]?).isSome then 1 else 0
  | .noteChange => 1
  | .forget _ => 0
  | .snapshot _ => 0

def bumpsOf : Epoch → List EpochOp → Nat
  | _, [] => 0
  | s, op :: rest => s.bumps op + bumpsOf (s.apply op) rest

theorem snapshot_generation (s : Epoch) (uri : String) :
    (s.snapshot uri).2.generation = s.generation ∧ (s.snapshot uri).2.active = s.active ∧
      (s.snapshot uri).2.guards = s.guards := by
  unfold snapshot
  split
  · exact ⟨rfl, rfl, rfl⟩
  · split
    · exact ⟨rfl, rfl, rfl⟩
    · exact ⟨rfl, rfl, rfl⟩

theorem generation_apply (s : Epoch) (op : EpochOp) :
    (s.apply op).generation = s.generation + UInt64.ofNat (s.bumps op) := by
  cases op with
  | beginPublication uris => rfl
  | dropGuard i =>
      show (s.dropGuard i).generation =
        s.generation + UInt64.ofNat (if (s.guards[i]?).isSome then 1 else 0)
      unfold dropGuard
      cases s.guards[i]? with
      | none => simp
      | some tracked => rfl
  | noteChange => rfl
  | forget uri =>
      show s.generation = s.generation + UInt64.ofNat 0
      simp
  | snapshot uri =>
      show (s.snapshot uri).2.generation = s.generation + UInt64.ofNat 0
      rw [(s.snapshot_generation uri).1]
      simp

theorem generation_run (s : Epoch) (ops : List EpochOp) :
    (run apply s ops).generation = s.generation + UInt64.ofNat (bumpsOf s ops) := by
  induction ops generalizing s with
  | nil => simp [bumpsOf]
  | cons op rest ih =>
      rw [run_cons, ih, generation_apply]
      show _ = s.generation + UInt64.ofNat (s.bumps op + bumpsOf (s.apply op) rest)
      rw [UInt64.ofNat_add, UInt64.add_assoc]

theorem bumpsOf_le_length (s : Epoch) (ops : List EpochOp) : bumpsOf s ops ≤ ops.length := by
  induction ops generalizing s with
  | nil => exact Nat.le_refl 0
  | cons op rest ih =>
      have hrest := ih (s.apply op)
      have hone : s.bumps op ≤ 1 := by
        cases op with
        | dropGuard i =>
            show (if (s.guards[i]?).isSome then 1 else 0) ≤ 1
            split
            · exact Nat.le_refl 1
            · exact Nat.zero_le 1
        | beginPublication uris => exact Nat.le_refl 1
        | noteChange => exact Nat.le_refl 1
        | forget uri => exact Nat.zero_le 1
        | snapshot uri => exact Nat.zero_le 1
      simp only [bumpsOf, List.length_cons]
      omega

theorem bumps_of_publishes {op : EpochOp} (h : op.Publishes) (s : Epoch) : s.bumps op = 1 := by
  cases op with
  | beginPublication uris => rfl
  | noteChange => rfl
  | dropGuard i => exact h.elim
  | forget uri => exact h.elim
  | snapshot uri => exact h.elim

theorem bumpsOf_pos {ops : List EpochOp} {op : EpochOp} (hmem : op ∈ ops) (h : op.Publishes)
    (s : Epoch) : 0 < bumpsOf s ops := by
  induction ops generalizing s with
  | nil => exact absurd hmem List.not_mem_nil
  | cons first rest ih =>
      rcases List.mem_cons.mp hmem with rfl | hrest
      · have hone := bumps_of_publishes h s
        simp only [bumpsOf]
        omega
      · have hpos := ih hrest (s.apply first)
        simp only [bumpsOf]
        omega

/-! ## Open publications -/

/-- `active` counts the open publications, and each remembers a file once. -/
structure Open (s : Epoch) : Prop where
  few : s.guards.length < 2 ^ 32
  active : s.active = UInt32.ofNat s.guards.length
  once : ∀ tracked ∈ s.guards, ∀ uri, tracked.count uri ≤ 1

theorem count_tracked {s : Epoch} {uris : List String}
    (h : ∀ uri ∈ uris, (s.own[uri]?).isSome = true → uris = [uri]) (uri : String) :
    (uris.filter fun uri => (s.own[uri]?).isSome).count uri ≤ 1 := by
  by_cases hmem : uri ∈ uris.filter fun uri => (s.own[uri]?).isSome
  · obtain ⟨huri, htracked⟩ := List.mem_filter.mp hmem
    have hsingle := h uri huri htracked
    calc
      (uris.filter fun uri => (s.own[uri]?).isSome).count uri ≤ uris.count uri :=
        List.Sublist.count_le uri List.filter_sublist
      _ = 1 := by rw [hsingle]; simp
  · rw [List.count_eq_zero.mpr hmem]
    omega

theorem open_initial : Open initial where
  few := by decide
  active := rfl
  once tracked h := absurd h List.not_mem_nil

theorem open_apply (s : Epoch) (op : EpochOp) (h : Open s) (hcounted : s.Counted op) :
    Open (s.apply op) := by
  cases op with
  | beginPublication uris =>
      show Open (s.beginPublication uris)
      rw [beginPublication_eq]
      refine ⟨?_, ?_, ?_⟩
      · simpa using hcounted.2
      · show s.active + 1 = UInt32.ofNat (s.guards ++ [_]).length
        rw [h.active, List.length_append, UInt32.ofNat_add]
        rfl
      · intro tracked hmem uri
        rcases List.mem_append.mp hmem with hold | hnew
        · exact h.once tracked hold uri
        · rw [List.mem_singleton.mp hnew]
          exact count_tracked hcounted.1 uri
  | dropGuard i =>
      show Open (s.dropGuard i)
      unfold dropGuard
      cases hget : s.guards[i]? with
      | none => exact h
      | some tracked =>
          have hi : i < s.guards.length := (List.getElem?_eq_some_iff.mp hget).1
          have hlength : (s.guards.eraseIdx i).length = s.guards.length - 1 :=
            List.length_eraseIdx_of_lt hi
          refine ⟨?_, ?_, ?_⟩
          · show (s.guards.eraseIdx i).length < 2 ^ 32
            have hfew := h.few
            omega
          · show s.active - 1 = UInt32.ofNat (s.guards.eraseIdx i).length
            have hsplit : s.guards.length = s.guards.length - 1 + 1 := by omega
            rw [h.active, hlength]
            conv_lhs => rw [hsplit, UInt32.ofNat_add]
            exact UInt32.add_sub_cancel _ _
          · intro other hmem uri
            exact h.once other (List.mem_of_mem_eraseIdx hmem) uri
  | noteChange => exact ⟨h.few, h.active, h.once⟩
  | forget uri => exact ⟨h.few, h.active, h.once⟩
  | snapshot uri =>
      have hsame := s.snapshot_generation uri
      show Open (s.snapshot uri).2
      exact ⟨hsame.2.2 ▸ h.few, by rw [hsame.2.1, hsame.2.2]; exact h.active,
        hsame.2.2 ▸ h.once⟩

theorem guards_of_inactive {s : Epoch} (h : Open s) (hactive : s.active = 0) :
    s.guards = [] := by
  have hzero : UInt32.ofNat s.guards.length = 0 := h.active ▸ hactive
  have hmod := congrArg UInt32.toNat hzero
  rw [UInt32.toNat_ofNat_of_lt' (by exact h.few)] at hmod
  exact List.length_eq_zero_iff.mp hmod

/-- A snapshot is only taken while nothing is being published. -/
theorem snapshot_eq_some {s : Epoch} {uri : String} {snap : EpochSnapshot}
    (hsnap : (s.snapshot uri).1 = some snap) :
    s.active = 0 ∧ snap.generation = s.generation ∧
      ((s.own[uri]?).getD 0 = snap.own) ∧
      (s.snapshot uri).2.own[uri]? = some snap.own := by
  unfold snapshot at hsnap ⊢
  by_cases hpos : s.active > 0
  · rw [if_pos hpos] at hsnap
    exact absurd hsnap (by simp)
  · rw [if_neg hpos] at hsnap ⊢
    have hactive : s.active = 0 := by
      by_contra hne
      exact hpos (UInt32.pos_iff_ne_zero.mpr hne)
    cases hown : s.own[uri]? with
    | some own =>
        simp only [hown, Option.some.injEq] at hsnap
        rw [← hsnap]
        exact ⟨hactive, rfl, rfl, hown⟩
    | none =>
        simp only [hown, Option.some.injEq] at hsnap
        rw [← hsnap]
        exact ⟨hactive, rfl, rfl, Table.get_insert_self _ _ _⟩

/-! ## The counter of one file since a snapshot -/

/-- The counter of `uri` is at most `base + d`, and less once something else
was published; `d` counts the bumps since the snapshot. -/
structure Since (uri : String) (base d : Nat) (other : Prop) (s : Epoch) : Prop where
  behind : ∀ own, s.own[uri]? = some own →
    ∃ o : Nat, own = UInt64.ofNat o ∧ o ≤ base + d ∧ (other → o < base + d)
  moved : other → 0 < base + d

/-- A counter that was bumped beside the generation stays behind it. -/
theorem since_bump {uri : String} {base d : Nat} {other : Prop} {s : Epoch}
    (h : Since uri base d other s) {own : UInt64}
    (hget : (s.own[uri]?).map (· + 1) = some own) :
    ∃ o : Nat, own = UInt64.ofNat o ∧ o ≤ base + (d + 1) ∧ (other → o < base + (d + 1)) := by
  obtain ⟨old, hold, rfl⟩ := Option.map_eq_some_iff.mp hget
  obtain ⟨o, rfl, hle, hlt⟩ := h.behind old hold
  refine ⟨o + 1, (UInt64.ofNat_add o 1).symm, by omega, ?_⟩
  intro hother
  have hstrict := hlt hother
  omega

/-- A counter that was not bumped falls behind the generation. -/
theorem since_still {uri : String} {base d : Nat} {other : Prop} {s : Epoch}
    (h : Since uri base d other s) {own : UInt64} (hget : s.own[uri]? = some own) :
    ∃ o : Nat, own = UInt64.ofNat o ∧ o < base + (d + 1) := by
  obtain ⟨o, ho, hle, _⟩ := h.behind own hget
  exact ⟨o, ho, by omega⟩

theorem since_beginPublication {uri : String} {base d : Nat} {other : Prop} {s : Epoch}
    (h : Since uri base d other s) {uris : List String}
    (hcounted : s.Counted (.beginPublication uris)) :
    Since uri base (d + 1) (other ∨ ∃ o ∈ uris, o ≠ uri) (s.beginPublication uris) := by
  rw [beginPublication_eq]
  refine ⟨?_, fun _ => by omega⟩
  intro own hown
  by_cases htracked : uri ∈ uris ∧ (s.own[uri]?).isSome = true
  · -- the file's own publication lists nothing else
    have hsingle := hcounted.1 uri htracked.1 htracked.2
    have hbumped : (uris.foldl bumpOwn s.own)[uri]? = some own := hown
    rw [hsingle, get_foldl_bumpOwn _ _ _ (by simp), if_pos (List.mem_singleton_self uri)]
      at hbumped
    obtain ⟨o, ho, hle, hlt⟩ := since_bump h hbumped
    refine ⟨o, ho, hle, ?_⟩
    rintro (hother | ⟨listed, hlisted, hne⟩)
    · exact hlt hother
    · rw [hsingle] at hlisted
      exact absurd (List.mem_singleton.mp hlisted) hne
  · have hbumped : (uris.foldl bumpOwn s.own)[uri]? = some own := hown
    have hsome : (s.own[uri]?).isSome = true := by
      rw [← isSome_foldl_bumpOwn uris, hbumped]
      rfl
    have hnotin : uri ∉ uris := fun hmem => htracked ⟨hmem, hsome⟩
    rw [get_foldl_bumpOwn _ _ _ (by rw [List.count_eq_zero.mpr hnotin]; omega), if_neg hnotin]
      at hbumped
    obtain ⟨o, ho, hlt⟩ := since_still h hbumped
    exact ⟨o, ho, by omega, fun _ => hlt⟩

theorem since_dropGuard {uri : String} {base d : Nat} {other : Prop} {s : Epoch}
    (h : Since uri base d other s) (hopen : Open s) (i : Nat) :
    Since uri base (d + s.bumps (.dropGuard i)) other (s.dropGuard i) := by
  unfold dropGuard
  cases hget : s.guards[i]? with
  | none =>
      have hbumps : s.bumps (.dropGuard i) = 0 := by
        show (if (s.guards[i]?).isSome then 1 else 0) = 0
        rw [hget]
        rfl
      rw [hbumps]
      exact h
  | some tracked =>
      have hbumps : s.bumps (.dropGuard i) = 1 := by
        show (if (s.guards[i]?).isSome then 1 else 0) = 1
        rw [hget]
        rfl
      rw [hbumps]
      refine ⟨?_, fun _ => by omega⟩
      intro own hown
      have hbumped : (tracked.foldl bumpOwn s.own)[uri]? = some own := hown
      rw [get_foldl_bumpOwn _ _ _ (hopen.once tracked (List.mem_of_getElem? hget) uri)] at hbumped
      by_cases hmem : uri ∈ tracked
      · rw [if_pos hmem] at hbumped
        exact since_bump h hbumped
      · rw [if_neg hmem] at hbumped
        obtain ⟨o, ho, hlt⟩ := since_still h hbumped
        exact ⟨o, ho, Nat.le_of_lt hlt, fun _ => hlt⟩

theorem since_forget {uri : String} {base d : Nat} {other : Prop} {s : Epoch}
    (h : Since uri base d other s) (gone : String) : Since uri base d other (s.forget gone) := by
  refine ⟨?_, h.moved⟩
  intro own hown
  have hkept : (s.own.erase gone)[uri]? = some own := hown
  rw [Table.get_erase] at hkept
  by_cases hgone : gone = uri
  · rw [if_pos hgone] at hkept
    exact absurd hkept (by simp)
  · rw [if_neg hgone] at hkept
    exact h.behind own hkept

/-- Tracking a file anew starts its counter at zero. -/
theorem since_snapshot {uri : String} {base d : Nat} {other : Prop} {s : Epoch}
    (h : Since uri base d other s) (read : String) :
    Since uri base d other (s.snapshot read).2 := by
  unfold snapshot
  by_cases hactive : s.active > 0
  · rw [if_pos hactive]
    exact h
  · rw [if_neg hactive]
    cases hread : s.own[read]? with
    | some own => exact h
    | none =>
        refine ⟨?_, h.moved⟩
        intro own hown
        have hnew : (s.own.insert read 0)[uri]? = some own := hown
        rw [Table.get_insert] at hnew
        by_cases hsame : read = uri
        · rw [if_pos hsame] at hnew
          exact ⟨0, (Option.some.inj hnew).symm, Nat.zero_le _, h.moved⟩
        · rw [if_neg hsame] at hnew
          exact h.behind own hnew

theorem since_apply {uri : String} {base d : Nat} {other : Prop} {s : Epoch}
    (h : Since uri base d other s) (hopen : Open s) {op : EpochOp} (hcounted : s.Counted op) :
    Since uri base (d + s.bumps op) (other ∨ op.TouchesOther uri) (s.apply op) := by
  have hnone : ∀ {t : Epoch} {n : Nat}, Since uri base n other t →
      Since uri base n (other ∨ False) t := by
    intro t n ht
    rw [or_false]
    exact ht
  cases op with
  | beginPublication uris => exact since_beginPublication h hcounted
  | dropGuard i => exact hnone (since_dropGuard h hopen i)
  | noteChange =>
      refine ⟨?_, fun _ => by simp [bumps]⟩
      intro own hown
      obtain ⟨o, ho, hlt⟩ := since_still h hown
      exact ⟨o, ho, Nat.le_of_lt hlt, fun _ => hlt⟩
  | forget gone => exact hnone (since_forget h gone)
  | snapshot read => exact hnone (since_snapshot h read)

theorem since_run {uri : String} {base d : Nat} {other : Prop} {s : Epoch}
    (h : Since uri base d other s) (hopen : Open s) {ops : List EpochOp}
    (hcounted : GuardedRun Counted apply s ops) :
    Since uri base (d + bumpsOf s ops) (other ∨ ∃ op ∈ ops, op.TouchesOther uri)
      (run apply s ops) := by
  induction ops generalizing s d other with
  | nil => simpa [bumpsOf] using h
  | cons op rest ih =>
      have hrest := ih (since_apply h hopen hcounted.1) (open_apply s op hopen hcounted.1)
        hcounted.2
      rw [run_cons]
      simp only [bumpsOf, List.exists_mem_cons_iff]
      rwa [← Nat.add_assoc, ← or_assoc]

theorem since_initial (uri : String) : Since uri 0 0 False initial where
  behind own h := by simp [initial] at h
  moved h := h.elim

/-! ## What two snapshots tell -/

/-- What a snapshot reads of a file's counter. -/
theorem since_read {uri : String} {base d : Nat} {other : Prop} {s : Epoch}
    (h : Since uri base d other s) {own : UInt64} (hown : (s.own[uri]?).getD 0 = own) :
    ∃ o : Nat, own = UInt64.ofNat o ∧ o ≤ base + d ∧ (other → o < base + d) := by
  cases hget : s.own[uri]? with
  | some count =>
      rw [hget] at hown
      exact h.behind own (hown ▸ hget)
  | none =>
      rw [hget] at hown
      exact ⟨0, hown.symm, Nat.zero_le _, h.moved⟩

theorem ofNat_inj_of_lt {a b : Nat} (ha : a < 2 ^ 64) (hb : b < 2 ^ 64)
    (h : UInt64.ofNat a = UInt64.ofNat b) : a = b := by
  have hmod := congrArg UInt64.toNat h
  rwa [UInt64.toNat_ofNat_of_lt' ha, UInt64.toNat_ofNat_of_lt' hb] at hmod

/-- In an interleaving whose publications are counted and that is shorter than
`2 ^ 64` steps, take a snapshot of `uri` after `before`.  Nothing is being
published then.  When a later snapshot answers `only_own_changes_since`,
nothing but `uri` was published or changed in between, and when the later
state answers `unchanged_since`, nothing at all was. -/
theorem snapshots_sound (before later : List EpochOp) (uri : String)
    (hcounted : GuardedRun Counted apply initial (before ++ .snapshot uri :: later))
    (hfew : before.length + later.length < 2 ^ 64)
    {earlier : EpochSnapshot} (hearlier : ((after before).snapshot uri).1 = some earlier) :
    (after before).guards = [] ∧
    (∀ now, ((after (before ++ .snapshot uri :: later)).snapshot uri).1 = some now →
      now.onlyOwnChangesSince earlier = true → ∀ op ∈ later, ¬ op.TouchesOther uri) ∧
    ((after (before ++ .snapshot uri :: later)).unchangedSince earlier = true →
      ∀ op ∈ later, ¬ op.Publishes) := by
  obtain ⟨hbefore, _, hlater⟩ := guardedRun_append.mp hcounted
  have hopen : Open (after before) := guardedRun_invariant open_apply open_initial hbefore
  obtain ⟨hactive, hgeneration, hown, htracked⟩ := snapshot_eq_some hearlier
  have hrun : after (before ++ .snapshot uri :: later) =
      run apply ((after before).snapshot uri).2 later := by
    unfold after
    rw [run_append, run_cons]
    rfl
  have hlength := bumpsOf_le_length initial before
  have hlength' := bumpsOf_le_length ((after before).snapshot uri).2 later
  -- the file's counter when the first snapshot is taken
  obtain ⟨base, hbase, hbound, _⟩ :=
    since_read (since_run (since_initial uri) open_initial hbefore) hown
  have hstart : Since uri base 0 False ((after before).snapshot uri).2 := by
    refine ⟨?_, fun h => h.elim⟩
    intro own hget
    rw [htracked] at hget
    exact ⟨base, (Option.some.inj hget).symm.trans hbase, Nat.le_refl _, fun h => h.elim⟩
  have hopen' : Open ((after before).snapshot uri).2 :=
    open_apply (after before) (.snapshot uri) hopen trivial
  have hsince := since_run hstart hopen' hlater
  have hmoved := generation_run ((after before).snapshot uri).2 later
  rw [((after before).snapshot_generation uri).1, ← hgeneration, ← hrun] at hmoved
  rw [← hrun] at hsince
  generalize hd : bumpsOf ((after before).snapshot uri).2 later = d at hsince hmoved hlength'
  refine ⟨guards_of_inactive hopen hactive, ?_, ?_⟩
  · intro now hnow honly op hop hother
    obtain ⟨_, hgeneration', hown', _⟩ := snapshot_eq_some hnow
    obtain ⟨o, ho, hle, hlt⟩ := since_read hsince hown'
    have hstrict := hlt (Or.inr ⟨op, hop, hother⟩)
    -- the file's counter moved by all the bumps there were
    have hequal : UInt64.ofNat (d + base) = UInt64.ofNat o := by
      unfold EpochSnapshot.onlyOwnChangesSince at honly
      rw [beq_iff_eq, hgeneration', hmoved, UInt64.add_comm, UInt64.add_sub_cancel] at honly
      rw [UInt64.ofNat_add, honly, hbase, ho, UInt64.sub_add_cancel]
    have hsum := ofNat_inj_of_lt (by omega) (by omega) hequal
    omega
  · intro hunchanged op hop hpublishes
    unfold unchangedSince at hunchanged
    rw [Bool.and_eq_true, beq_iff_eq, beq_iff_eq, hmoved] at hunchanged
    have hzero : UInt64.ofNat d = UInt64.ofNat 0 := by
      have hcancel := congrArg (· - earlier.generation) hunchanged.2
      simp only [UInt64.add_comm earlier.generation, UInt64.add_sub_cancel,
        UInt64.sub_self] at hcancel
      exact hcancel
    have hd0 := ofNat_inj_of_lt (by omega) (by omega) hzero
    have hpos := bumpsOf_pos hop hpublishes ((after before).snapshot uri).2
    omega

/-- A file is published between two of its snapshots. -/
theorem snapshots_sound_own :
    ((after [.snapshot "a.php", .beginPublication ["a.php"], .dropGuard 0]).snapshot "a.php").1 =
        some ⟨2, 2⟩ ∧
      ∀ op ∈ [EpochOp.beginPublication ["a.php"], .dropGuard 0], ¬ op.TouchesOther "a.php" := by
  have hcounted : GuardedRun Counted apply initial
      ([] ++ .snapshot "a.php" :: [.beginPublication ["a.php"], .dropGuard 0]) := by
    refine ⟨trivial, ⟨?_, ?_⟩, trivial, trivial⟩
    · intro uri huri _
      rw [List.mem_singleton.mp huri]
    · rw [show (initial.apply (.snapshot "a.php")).guards = [] from
        (initial.snapshot_generation "a.php").2.2]
      decide
  have hnow : ((after ([] ++ .snapshot "a.php" :: [.beginPublication ["a.php"],
      .dropGuard 0])).snapshot "a.php").1 = some ⟨2, 2⟩ := by decide +kernel
  have hstart : ((after []).snapshot "a.php").1 = some ⟨0, 0⟩ := by
    simp [after, snapshot, initial]
  exact ⟨hnow, (snapshots_sound [] _ "a.php" hcounted (by decide) hstart).2.1 ⟨2, 2⟩ hnow rfl⟩

/-- A batch that publishes another file beside the snapshot's own counts as
the file's own publication. -/
theorem batch_counts_as_own :
    ((after [.snapshot "a.php", .beginPublication ["a.php", "b.php"],
        .dropGuard 0]).snapshot "a.php").1 = some ⟨2, 2⟩ ∧
    (initial.snapshot "a.php").1 = some ⟨0, 0⟩ ∧
    (⟨2, 2⟩ : EpochSnapshot).onlyOwnChangesSince ⟨0, 0⟩ = true ∧
    (EpochOp.beginPublication ["a.php", "b.php"]).TouchesOther "a.php" := by
  refine ⟨by decide +kernel, by decide +kernel, rfl, "b.php", by simp, by decide⟩

end Epoch

end PhpantomLsp.Diagnostics
