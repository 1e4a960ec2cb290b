import PhpantomLsp.Index.ClassOwners

/-!
# Files that also declare a name

`alternate_class_uris` is to list every file known to declare a name except
its owner, a name is to stay indexed while such a file is known, and which of
them takes over is not to depend on the order of discovery.  The code keeps
this only as long as no operation meets one of four situations, which `Orderly`
rules out: a second parsed declaration, a file that becomes the owner while it
is listed as an alternate, a withdrawal of the owner that leaves alternates
behind, and a promotion with several alternates to choose from.
-/

namespace PhpantomLsp.Index

open PhpantomLsp.Lib

variable {Class : Type}

namespace NameState

/-- `alternate_class_uris` for the name. -/
def alternateClassUris (st : NameState Class) : List String :=
  st.alternates.foldl pushUri (match st.decls with
    | some decls => decls.keys
    | none => [])

/-- The file owns the name or is recorded beside its owner. -/
def Recorded (st : NameState Class) (uri : String) : Prop :=
  st.owner = some uri ∨ uri ∈ st.alternates

/-! ## The condition on a step -/

/-- No entry of a rescan takes the name while it is listed as an alternate. -/
def MergesFresh : List String → NameState Class → Prop
  | [], _ => True
  | uri :: rest, st => uri ∉ st.alternates ∧ MergesFresh rest (st.mergeReplace uri)

/-- At most one alternate is outside `gone`. -/
def OneLeft (st : NameState Class) (gone : String → Bool) : Prop :=
  (st.alternates.filter fun uri => !gone uri).length ≤ 1

/-- The condition an operation has to meet in the state before it. -/
def Orderly (name : String) (st : NameState Class) : ClassOp Class → Prop
  | .declare fqn uri _ => fold fqn = fold name →
      (st.parsed = none ∨ st.owner = some uri) ∧ uri ∉ st.alternates
  | .withdraw fqn uri => fold fqn = fold name → st.owner = some uri → st.alternates = []
  | .withdrawUris uris => st.owner.any uris.contains = true → st.OneLeft uris.contains
  | .noteDiscovered fqn uri => fold fqn = fold name →
      st.parsed.isSome = true ∨ uri ∉ st.alternates
  | .mergeScan _ => True
  | .rescan inTree classmap =>
      MergesFresh (urisOf classmap name) (st.purge inTree) ∧
      (st.owner.any inTree = true → urisOf classmap name = [] → st.OneLeft inTree)

/-! ## What orderly operations keep -/

/-- No record of duplicates, no repeated alternate, the owner is none of the
alternates, and only an owned name has alternates or a class. -/
structure Kept (st : NameState Class) : Prop where
  single : st.decls = none
  nodup : st.alternates.Nodup
  ownerApart : ∀ owner, st.owner = some owner → owner ∉ st.alternates
  owned : st.owner = none → st.alternates = [] ∧ st.parsed = none

theorem mem_pushUri {uris : List String} {uri other : String} :
    other ∈ pushUri uris uri ↔ other ∈ uris ∨ other = uri := by
  unfold pushUri
  by_cases h : uri ∈ uris
  · rw [if_pos h]
    constructor
    · exact Or.inl
    · rintro (hmem | rfl)
      · exact hmem
      · exact h
  · rw [if_neg h, List.mem_append, List.mem_singleton]

theorem nodup_pushUri {uris : List String} (h : uris.Nodup) (uri : String) :
    (pushUri uris uri).Nodup := by
  unfold pushUri
  by_cases hmem : uri ∈ uris
  · rw [if_pos hmem]
    exact h
  · rw [if_neg hmem, ← List.concat_eq_append]
    exact h.concat hmem

theorem mem_foldl_pushUri {uris start : List String} {uri : String} :
    uri ∈ uris.foldl pushUri start ↔ uri ∈ start ∨ uri ∈ uris := by
  induction uris generalizing start with
  | nil => simp
  | cons first rest ih =>
      rw [List.foldl_cons, ih, mem_pushUri, List.mem_cons, or_assoc]

theorem mem_displaceOwner {st : NameState Class} {uri other : String} :
    other ∈ st.displaceOwner uri ↔
      other ∈ st.alternates ∨ (st.owner = some other ∧ other ≠ uri) := by
  unfold displaceOwner
  cases howner : st.owner with
  | none => simp
  | some previous =>
      by_cases h : previous = uri
      · simp only [ne_eq, h, not_true_eq_false, if_false, Option.some.injEq]
        constructor
        · exact Or.inl
        · rintro (hmem | ⟨rfl, hne⟩)
          · exact hmem
          · exact absurd rfl hne
      · simp only [ne_eq, h, not_false_eq_true, if_true, mem_pushUri, Option.some.injEq]
        constructor
        · rintro (hmem | rfl)
          · exact Or.inl hmem
          · exact Or.inr ⟨rfl, h⟩
        · rintro (hmem | ⟨rfl, _⟩)
          · exact Or.inl hmem
          · exact Or.inr rfl

theorem nodup_displaceOwner {st : NameState Class} (h : st.alternates.Nodup) (uri : String) :
    (st.displaceOwner uri).Nodup := by
  unfold displaceOwner
  cases st.owner with
  | none => exact h
  | some previous =>
      dsimp only
      split
      · exact nodup_pushUri h previous
      · exact h

/-- A file that is no alternate takes the name over. -/
theorem kept_takeOver {st : NameState Class} (h : st.Kept) {uri : String}
    (hfresh : uri ∉ st.alternates) (parsed : Option Class) :
    Kept ⟨some uri, parsed, st.decls, st.displaceOwner uri⟩ where
  single := h.single
  nodup := nodup_displaceOwner h.nodup uri
  ownerApart owner howner := by
    rw [← Option.some.inj howner]
    intro hmem
    rcases mem_displaceOwner.mp hmem with hold | ⟨_, hne⟩
    · exact hfresh hold
    · exact hne rfl
  owned hnone := absurd hnone (by simp)

theorem kept_pushAlternate {st : NameState Class} (h : st.Kept) {uri owner : String}
    (howner : st.owner = some owner) (hne : owner ≠ uri) :
    Kept { st with alternates := pushUri st.alternates uri } where
  single := h.single
  nodup := nodup_pushUri h.nodup uri
  ownerApart found hfound := by
    rw [howner] at hfound
    rw [← Option.some.inj hfound, mem_pushUri]
    rintro (hmem | heq)
    · exact h.ownerApart owner howner hmem
    · exact hne heq
  owned hnone := by
    rw [howner] at hnone
    exact absurd hnone (by simp)

theorem kept_filter {st : NameState Class} (h : st.Kept) (gone : String → Bool) :
    Kept { st with alternates := st.alternates.filter fun uri => !gone uri } where
  single := h.single
  nodup := h.nodup.filter _
  ownerApart owner howner hmem := h.ownerApart owner howner (List.mem_of_mem_filter hmem)
  owned hnone := by
    have hboth := h.owned hnone
    simp [hboth.1, hboth.2]

/-- A promotion with at most one alternate leaves none. -/
theorem alternates_promote {st : NameState Class} (hone : st.alternates.length ≤ 1) :
    st.promote.alternates = [] := by
  unfold promote
  cases hlast : st.alternates.getLast? with
  | none => exact List.getLast?_eq_none_iff.mp hlast
  | some uri =>
      apply List.length_eq_zero_iff.mp
      show st.alternates.dropLast.length = 0
      rw [List.length_dropLast]
      omega

theorem unparsed_promote {st : NameState Class} (hparsed : st.parsed = none)
    (hdecls : st.decls = none) : st.promote.parsed = none ∧ st.promote.decls = none := by
  unfold promote
  cases st.alternates.getLast? with
  | none => exact ⟨hparsed, hdecls⟩
  | some uri => exact ⟨hparsed, hdecls⟩

/-- A name is kept when no alternate is left. -/
theorem kept_of_nil {st : NameState Class} (hparsed : st.parsed = none) (hdecls : st.decls = none)
    (hnil : st.alternates = []) : st.Kept where
  single := hdecls
  nodup := hnil ▸ List.nodup_nil
  ownerApart _ _ := hnil ▸ List.not_mem_nil
  owned _ := ⟨hnil, hparsed⟩

theorem displacedBy_of_orderly {st : NameState Class} {uri : String}
    (hparsed : st.parsed = none ∨ st.owner = some uri) : st.displacedBy uri = none := by
  unfold displacedBy
  rcases hparsed with hnone | howner
  · rw [hnone]
  · rw [howner]
    cases st.parsed with
    | none => rfl
    | some old => simp

theorem kept_declare {st : NameState Class} (h : st.Kept) {uri : String}
    (hparsed : st.parsed = none ∨ st.owner = some uri) (hfresh : uri ∉ st.alternates)
    (cls : Class) : (st.declare uri cls).Kept := by
  have hdisplaced : st.displacedBy uri = none := displacedBy_of_orderly hparsed
  unfold declare
  rw [h.single, hdisplaced]
  have hkept := kept_takeOver h hfresh (some cls)
  rw [h.single] at hkept
  exact hkept

theorem kept_withdraw {st : NameState Class} (h : st.Kept) {uri : String}
    (hlast : st.owner = some uri → st.alternates = []) : (st.withdraw uri).Kept := by
  unfold withdraw
  rw [h.single]
  by_cases howner : st.owner = some uri
  · simp only [howner, if_true]
    have hnil := hlast howner
    exact kept_of_nil rfl rfl hnil
  · simp only [howner, if_false]
    exact h

theorem kept_noteDiscovered {st : NameState Class} (h : st.Kept) {uri : String}
    (hfresh : st.parsed.isSome = true ∨ uri ∉ st.alternates) : (st.noteDiscovered uri).Kept := by
  unfold noteDiscovered
  by_cases hparsed : st.parsed.isSome = true
  · rw [if_pos hparsed]
    cases howner : st.owner with
    | none =>
        rw [(h.owned howner).2] at hparsed
        exact absurd hparsed (by simp)
    | some owner =>
        by_cases hsame : owner = uri
        · rw [if_neg (by simp [hsame])]
          exact h
        · rw [if_pos (by simp [hsame])]
          have hkept := kept_pushAlternate h howner hsame
          rw [← howner]
          exact hkept
  · rw [if_neg hparsed]
    have hnotin : uri ∉ st.alternates := by
      rcases hfresh with hsome | hnotin
      · exact absurd hsome hparsed
      · exact hnotin
    exact kept_takeOver h hnotin st.parsed

theorem kept_mergeKeep {st : NameState Class} (h : st.Kept) (uri : String) :
    (st.mergeKeep uri).Kept := by
  unfold mergeKeep
  cases howner : st.owner with
  | none =>
      have hnil := (h.owned howner).1
      refine ⟨h.single, h.nodup, ?_, fun hnone => absurd hnone (by simp)⟩
      intro owner _
      show owner ∉ st.alternates
      rw [hnil]
      exact List.not_mem_nil
  | some owner =>
      by_cases hsame : owner = uri
      · simpa [hsame, howner] using h
      · simp only [ne_eq, hsame, not_false_eq_true, if_true]
        have hkept := kept_pushAlternate h howner hsame
        rw [howner] at hkept
        exact hkept

theorem kept_mergeAll {st : NameState Class} (h : st.Kept) (uris : List String) :
    (uris.foldl (fun st uri => st.mergeKeep uri) st).Kept := by
  induction uris generalizing st with
  | nil => exact h
  | cons uri rest ih => exact ih (kept_mergeKeep h uri)

/-- Without a record of duplicates only the owner decides whether a withdrawal
of files drops the name. -/
theorem withdrawUris_single {st : NameState Class} (hsingle : st.decls = none)
    (gone : String → Bool) :
    st.withdrawUris gone =
      if st.owner.any gone then
        promote ⟨none, none, none, st.alternates.filter fun uri => !gone uri⟩
      else { st with alternates := st.alternates.filter fun uri => !gone uri } := by
  have haffected : st.affected gone = false := by
    unfold affected
    rw [hsingle]
  have hnext : st.afterRecord gone = st := by
    unfold afterRecord
    rw [haffected]
    rfl
  unfold withdrawUris dropped
  simp only [hnext, haffected, hsingle, Bool.false_and, Bool.false_or]

theorem kept_withdrawUris {st : NameState Class} (h : st.Kept) {gone : String → Bool}
    (hleft : st.owner.any gone = true → st.OneLeft gone) : (st.withdrawUris gone).Kept := by
  rw [withdrawUris_single h.single]
  by_cases howner : st.owner.any gone = true
  · rw [if_pos howner]
    apply kept_of_nil
    · exact (unparsed_promote rfl rfl).1
    · exact (unparsed_promote rfl rfl).2
    · exact alternates_promote (hleft howner)
  · rw [if_neg howner]
    exact kept_filter h gone

/-- Merging fresh locations one after another keeps the owner apart. -/
theorem apart_mergeReplace {uris : List String} {st : NameState Class}
    (hfresh : MergesFresh uris st) (hnodup : st.alternates.Nodup)
    (hapart : ∀ owner, st.owner = some owner → owner ∉ st.alternates) :
    let merged := uris.foldl (fun st uri => st.mergeReplace uri) st
    merged.alternates.Nodup ∧ ∀ owner, merged.owner = some owner → owner ∉ merged.alternates := by
  induction uris generalizing st with
  | nil => exact ⟨hnodup, hapart⟩
  | cons uri rest ih =>
      apply ih hfresh.2
      · exact nodup_displaceOwner hnodup uri
      · intro owner howner
        rw [← Option.some.inj howner]
        intro hmem
        rcases mem_displaceOwner.mp hmem with hold | ⟨_, hne⟩
        · exact hfresh.1 hold
        · exact hne rfl

theorem mem_purge {st : NameState Class} {inTree : String → Bool} {uri : String} :
    uri ∈ (st.purge inTree).alternates ↔ uri ∈ st.alternates ∧ inTree uri = false := by
  simp [purge]

theorem owner_purge {st : NameState Class} {inTree : String → Bool} {owner : String} :
    (st.purge inTree).owner = some owner ↔ st.owner = some owner ∧ inTree owner = false := by
  simp [purge, Option.filter_eq_some_iff]

/-- What a rescan leaves is kept once its owner is apart from its alternates
and a name without an owner has none. -/
theorem kept_cleared {st : NameState Class} (hnodup : st.alternates.Nodup)
    (hapart : ∀ owner, st.owner = some owner → owner ∉ st.alternates)
    (howned : st.owner = none → st.alternates = []) :
    Kept (⟨st.owner, none, none, st.alternates⟩ : NameState Class) where
  single := rfl
  nodup := hnodup
  ownerApart := hapart
  owned hnone := ⟨howned hnone, rfl⟩

theorem kept_rescan {st : NameState Class} (h : st.Kept) {inTree : String → Bool}
    {uris : List String} (hfresh : MergesFresh uris (st.purge inTree))
    (hleft : st.owner.any inTree = true → uris = [] → st.OneLeft inTree) :
    (st.rescan inTree uris).Kept := by
  have hpurged : (st.purge inTree).alternates.Nodup := h.nodup.filter _
  have happart : ∀ owner, (st.purge inTree).owner = some owner →
      owner ∉ (st.purge inTree).alternates := by
    intro owner howner hmem
    exact h.ownerApart owner (owner_purge.mp howner).1 (mem_purge.mp hmem).1
  obtain ⟨hnodup, hmerged⟩ := apart_mergeReplace hfresh hpurged happart
  have hscan : (uris.foldl (fun st uri => st.mergeReplace uri) (st.purge inTree)).owner.isNone =
      true → uris = [] := ClassDeclarations.mergeReplace_owner_none
  unfold rescan
  generalize hdef : uris.foldl (fun st uri => st.mergeReplace uri) (st.purge inTree) = merged
    at hnodup hmerged hscan
  dsimp only
  by_cases howned : st.owner.any inTree = true
  · rw [if_pos howned]
    unfold promoteOrphan
    by_cases hnone : merged.owner.isNone = true
    · -- the owner was purged, and at most one alternate is left to take over
      rw [if_pos hnone]
      have hone : merged.alternates.length ≤ 1 := by
        have hnil := hscan hnone
        rw [← hdef, hnil]
        exact hleft howned hnil
      exact kept_of_nil rfl rfl (alternates_promote hone)
    · rw [if_neg hnone]
      exact kept_cleared hnodup hmerged (fun heq => absurd (by rw [heq]; rfl) hnone)
  · rw [if_neg howned]
    apply kept_cleared hnodup hmerged
    intro hnone
    have hnil := hscan (by rw [hnone]; rfl)
    rw [← hdef, hnil, List.foldl_nil] at hnone ⊢
    have howner : st.owner = none := by
      cases howner : st.owner with
      | none => rfl
      | some owner =>
          have hout : inTree owner = false := by simpa [howner] using howned
          have hkept := owner_purge.mpr ⟨howner, hout⟩
          rw [hnone] at hkept
          exact absurd hkept (by simp)
    show st.alternates.filter _ = []
    rw [(h.owned howner).1]
    rfl

theorem kept_apply (name : String) (st : NameState Class) (op : ClassOp Class) (h : st.Kept)
    (horderly : st.Orderly name op) : (st.apply name op).Kept := by
  cases op with
  | declare fqn uri cls =>
      show Kept (if fold fqn = fold name then st.declare uri cls else st)
      by_cases hname : fold fqn = fold name
      · rw [if_pos hname]
        exact kept_declare h (horderly hname).1 (horderly hname).2 cls
      · rw [if_neg hname]
        exact h
  | withdraw fqn uri =>
      show Kept (if fold fqn = fold name then st.withdraw uri else st)
      by_cases hname : fold fqn = fold name
      · rw [if_pos hname]
        exact kept_withdraw h (horderly hname)
      · rw [if_neg hname]
        exact h
  | withdrawUris uris => exact kept_withdrawUris h horderly
  | noteDiscovered fqn uri =>
      show Kept (if fold fqn = fold name then st.noteDiscovered uri else st)
      by_cases hname : fold fqn = fold name
      · rw [if_pos hname]
        exact kept_noteDiscovered h (horderly hname)
      · rw [if_neg hname]
        exact h
  | mergeScan classmap => exact kept_mergeAll h (urisOf classmap name)
  | rescan inTree classmap => exact kept_rescan h horderly.1 horderly.2

theorem kept_empty : Kept (empty : NameState Class) := kept_of_nil rfl rfl rfl

/-! ## The order of discovery -/

/-- The files an operation records for a name. -/
def recordedBy (name : String) : ClassOp Class → List String
  | .declare fqn uri _ => if fold fqn = fold name then [uri] else []
  | .noteDiscovered fqn uri => if fold fqn = fold name then [uri] else []
  | .mergeScan classmap => urisOf classmap name
  | _ => []

end NameState

/-- The operation only records files, found or parsed. -/
def IsRecording : ClassOp Class → Prop
  | .declare _ _ _ => True
  | .noteDiscovered _ _ => True
  | .mergeScan _ => True
  | _ => False

/-- The operations record the same files for every name. -/
def SameFiles (ops ops' : List (ClassOp Class)) : Prop :=
  ∀ name uri, (∃ op ∈ ops, uri ∈ NameState.recordedBy name op) ↔
    ∃ op ∈ ops', uri ∈ NameState.recordedBy name op

namespace NameState

theorem recorded_declare {st : NameState Class} (h : st.Kept) {uri : String}
    (hparsed : st.parsed = none ∨ st.owner = some uri) (cls : Class) (other : String) :
    (st.declare uri cls).Recorded other ↔ st.Recorded other ∨ other = uri := by
  have hdisplaced : st.displacedBy uri = none := displacedBy_of_orderly hparsed
  unfold declare Recorded
  rw [h.single, hdisplaced]
  simp only [mem_displaceOwner, Option.some.injEq]
  by_cases heq : other = uri
  · simp [heq]
  · simp [heq, Ne.symm heq, or_comm]

theorem recorded_noteDiscovered (st : NameState Class) (uri other : String) :
    (st.noteDiscovered uri).Recorded other ↔ st.Recorded other ∨ other = uri := by
  unfold noteDiscovered Recorded
  by_cases hparsed : st.parsed.isSome = true
  · rw [if_pos hparsed]
    by_cases howner : st.owner = some uri
    · rw [if_neg (by simp [howner])]
      constructor
      · exact Or.inl
      · rintro (hold | rfl)
        · exact hold
        · exact Or.inl howner
    · rw [if_pos howner]
      simp only [mem_pushUri, or_assoc]
  · rw [if_neg hparsed]
    simp only [mem_displaceOwner, Option.some.injEq]
    by_cases heq : other = uri
    · simp [heq]
    · simp [heq, Ne.symm heq, or_comm]

theorem recorded_mergeKeep (st : NameState Class) (uri other : String) :
    (st.mergeKeep uri).Recorded other ↔ st.Recorded other ∨ other = uri := by
  unfold mergeKeep Recorded
  cases howner : st.owner with
  | none => simp [eq_comm, or_comm]
  | some owner =>
      by_cases hsame : owner = uri
      · simp only [ne_eq, hsame, not_true_eq_false, if_false, howner, Option.some.injEq]
        constructor
        · exact Or.inl
        · rintro (hold | rfl)
          · exact hold
          · exact Or.inl rfl
      · simp only [ne_eq, hsame, not_false_eq_true, if_true, mem_pushUri, or_assoc]

theorem recorded_mergeAll (uris : List String) (st : NameState Class) (other : String) :
    (uris.foldl (fun st uri => st.mergeKeep uri) st).Recorded other ↔
      st.Recorded other ∨ other ∈ uris := by
  induction uris generalizing st with
  | nil => simp
  | cons uri rest ih => rw [List.foldl_cons, ih, recorded_mergeKeep, List.mem_cons, or_assoc]

theorem recorded_apply (name : String) {st : NameState Class} (h : st.Kept) {op : ClassOp Class}
    (hop : IsRecording op) (horderly : st.Orderly name op) (other : String) :
    (st.apply name op).Recorded other ↔ st.Recorded other ∨ other ∈ recordedBy name op := by
  cases op with
  | declare fqn uri cls =>
      show Recorded (if fold fqn = fold name then st.declare uri cls else st) other ↔
        _ ∨ other ∈ (if fold fqn = fold name then [uri] else [])
      by_cases hname : fold fqn = fold name
      · rw [if_pos hname, if_pos hname, recorded_declare h (horderly hname).1,
          List.mem_singleton]
      · simp [hname]
  | noteDiscovered fqn uri =>
      show Recorded (if fold fqn = fold name then st.noteDiscovered uri else st) other ↔
        _ ∨ other ∈ (if fold fqn = fold name then [uri] else [])
      by_cases hname : fold fqn = fold name
      · rw [if_pos hname, if_pos hname, recorded_noteDiscovered, List.mem_singleton]
      · simp [hname]
  | mergeScan classmap => exact recorded_mergeAll (urisOf classmap name) st other
  | withdraw fqn uri => exact hop.elim
  | withdrawUris uris => exact hop.elim
  | rescan inTree classmap => exact hop.elim

/-- The files recorded do not depend on the order they are recorded in. -/
theorem recorded_run (name : String) {st : NameState Class} (h : st.Kept)
    {ops : List (ClassOp Class)} (hops : ∀ op ∈ ops, IsRecording op)
    (horderly : GuardedRun (fun st => st.Orderly name) (NameState.apply name) st ops)
    (other : String) :
    (run (NameState.apply name) st ops).Recorded other ↔
      st.Recorded other ∨ ∃ op ∈ ops, other ∈ recordedBy name op := by
  induction ops generalizing st with
  | nil => simp
  | cons op rest ih =>
      have hkept := kept_apply name st op h horderly.1
      rw [run_cons, ih hkept (fun o ho => hops o (List.mem_cons_of_mem op ho)) horderly.2,
        recorded_apply name h (hops op List.mem_cons_self) horderly.1]
      simp [or_assoc]

/-- A file takes over from a withdrawn owner exactly when it is recorded and
stays, once at most one alternate stays. -/
theorem promoted_iff {st : NameState Class} (h : st.Kept) {gone : String → Bool} {owner : String}
    (howner : st.owner = some owner) (hgone : gone owner = true) (hleft : st.OneLeft gone)
    (uri : String) :
    (st.withdrawUris gone).owner = some uri ↔ st.Recorded uri ∧ gone uri = false := by
  have hany : st.owner.any gone = true := by rw [howner]; exact hgone
  have hrecorded : st.Recorded uri ∧ gone uri = false ↔
      uri ∈ st.alternates.filter fun uri => !gone uri := by
    rw [List.mem_filter, Recorded, howner]
    constructor
    · rintro ⟨heq | hmem, hkept⟩
      · rw [← Option.some.inj heq, hgone] at hkept
        exact absurd hkept (by simp)
      · exact ⟨hmem, by simp [hkept]⟩
    · rintro ⟨hmem, hkept⟩
      exact ⟨Or.inr hmem, by simpa using hkept⟩
  rw [hrecorded, withdrawUris_single h.single, if_pos hany]
  unfold OneLeft at hleft
  unfold promote
  match hlist : st.alternates.filter fun uri => !gone uri with
  | [] => simp
  | [left] => simp [eq_comm]
  | _ :: _ :: _ =>
      rw [hlist] at hleft
      simp only [List.length_cons] at hleft
      omega

/-- What `alternate_class_uris` lists of a kept name. -/
theorem mem_alternateClassUris {st : NameState Class} (h : st.Kept) {uri : String} :
    uri ∈ st.alternateClassUris ↔ uri ∈ st.alternates := by
  unfold alternateClassUris
  rw [h.single, mem_foldl_pushUri]
  simp

end NameState

namespace ClassDeclarations

/-- The condition an operation has to meet in the state before it, for every
name. -/
def Orderly (s : ClassDeclarations Class) (op : ClassOp Class) : Prop :=
  ∀ name, (view s name).Orderly name op

theorem alternateClassUris_eq (s : ClassDeclarations Class) (name : String) :
    s.alternateClassUris name = (view s name).alternateClassUris := rfl

theorem kept_after {ops : List (ClassOp Class)} (horderly : GuardedRun Orderly apply empty ops)
    (name : String) : (view (after ops) name).Kept := by
  apply guardedRun_invariant (I := fun s => (view s name).Kept) _ _ horderly
  · intro s op h hop
    rw [view_apply]
    exact NameState.kept_apply name (view s name) op h (hop name)
  · exact NameState.kept_empty

theorem view_after_concat (ops : List (ClassOp Class)) (op : ClassOp Class) (name : String) :
    view (after (ops ++ [op])) name = (view (after ops) name).apply name op := by
  unfold after
  rw [run_append]
  exact view_apply _ op name

/-- The file owns the name or is recorded beside its owner. -/
def Recorded (s : ClassDeclarations Class) (name uri : String) : Prop :=
  s.uris.get name = some uri ∨ uri ∈ (s.alternates.get name).getD []

theorem recorded_view (s : ClassDeclarations Class) (name uri : String) :
    s.Recorded name uri ↔ (view s name).Recorded uri := Iff.rfl

theorem guardedRun_view {s : ClassDeclarations Class} {ops : List (ClassOp Class)}
    (h : GuardedRun Orderly apply s ops) (name : String) :
    GuardedRun (fun st => NameState.Orderly name st) (NameState.apply name) (view s name) ops := by
  induction ops generalizing s with
  | nil => trivial
  | cons op rest ih =>
      refine ⟨h.1 name, ?_⟩
      rw [← view_apply]
      exact ih h.2

/-- Orderly runs that record the same files at their end, in whatever order,
leave the same files recorded. -/
theorem recorded_sameFiles {before found found' : List (ClassOp Class)}
    (hfound : ∀ op ∈ found, IsRecording op) (hfound' : ∀ op ∈ found', IsRecording op)
    (hsame : SameFiles found found')
    (horderly : GuardedRun Orderly apply empty (before ++ found))
    (horderly' : GuardedRun Orderly apply empty (before ++ found')) (name uri : String) :
    (after (before ++ found')).Recorded name uri ↔ (after (before ++ found)).Recorded name uri := by
  have hrun : ∀ {found : List (ClassOp Class)}, (∀ op ∈ found, IsRecording op) →
      GuardedRun Orderly apply empty (before ++ found) →
      ((after (before ++ found)).Recorded name uri ↔ (after before).Recorded name uri ∨
        ∃ op ∈ found, uri ∈ NameState.recordedBy name op) := by
    intro found hfound horderly
    have hsplit := guardedRun_append.mp horderly
    have hlater := guardedRun_view hsplit.2 name
    have hkept := kept_after hsplit.1 name
    have hview : view (run apply empty before) name = view (after before) name := rfl
    rw [hview] at hlater
    rw [recorded_view, recorded_view, view_after, run_append, ← view_after]
    exact NameState.recorded_run name hkept hfound hlater uri
  rw [hrun hfound horderly, hrun hfound' horderly', hsame]

/-- The last step of an orderly run leaves at most one alternate to a name
whose owner it withdraws. -/
theorem oneLeft_of_orderly {ops : List (ClassOp Class)} {uris : List String}
    (horderly : GuardedRun Orderly apply empty (ops ++ [.withdrawUris uris])) {name owner : String}
    (howner : (view (after ops) name).owner = some owner) (hgone : uris.contains owner = true) :
    (view (after ops) name).OneLeft uris.contains := by
  have hlast := (guardedRun_append.mp horderly).2.1 name
  apply hlast
  show (view (after ops) name).owner.any uris.contains = true
  rw [howner]
  exact hgone

/-- Two orderly runs that leave the same files recorded for a name, before the
same files are withdrawn, hand a name that lost its owner to the same file. -/
theorem promoted_same {ops ops' : List (ClassOp Class)} {uris : List String}
    (horderly : GuardedRun Orderly apply empty (ops ++ [.withdrawUris uris]))
    (horderly' : GuardedRun Orderly apply empty (ops' ++ [.withdrawUris uris]))
    {name owner : String}
    (hsame : ∀ uri, (after ops').Recorded name uri ↔ (after ops).Recorded name uri)
    (howner : (after ops).uris.get name = some owner) (hgone : owner ∈ uris) :
    (after (ops' ++ [.withdrawUris uris])).uris.get name =
      (after (ops ++ [.withdrawUris uris])).uris.get name := by
  show (view (after (ops' ++ [.withdrawUris uris])) name).owner =
    (view (after (ops ++ [.withdrawUris uris])) name).owner
  simp only [recorded_view] at hsame
  rw [view_after_concat, view_after_concat]
  have hkept := kept_after (guardedRun_append.mp horderly).1 name
  have hkept' := kept_after (guardedRun_append.mp horderly').1 name
  have hview : (view (after ops) name).owner = some owner := howner
  have hcontains : uris.contains owner = true := List.contains_iff_mem.mpr hgone
  have hpromoted := NameState.promoted_iff hkept hview hcontains
    (oneLeft_of_orderly horderly hview hcontains)
  have hleft' := @oneLeft_of_orderly Class _ _ horderly' name
  generalize view (after ops') name = st' at hkept' hsame hleft'
  generalize view (after ops) name = st at hkept hsame hpromoted hview
  show (st'.withdrawUris uris.contains).owner = (st.withdrawUris uris.contains).owner
  cases howner' : st'.owner with
  | none =>
      -- the owner of one run is recorded in the other
      have hrecorded := (hsame owner).mpr (Or.inl hview)
      rw [NameState.Recorded, howner', (hkept'.owned howner').1] at hrecorded
      simp at hrecorded
  | some owner' =>
      by_cases hgone' : uris.contains owner' = true
      · have hpromoted' := NameState.promoted_iff hkept' howner' hgone' (hleft' howner' hgone')
        apply Option.ext
        intro uri
        rw [hpromoted', hpromoted, hsame]
      · have hstays : (st'.withdrawUris uris.contains).owner = some owner' := by
          rw [NameState.withdrawUris_single hkept'.single]
          have hany : ¬ st'.owner.any uris.contains = true := by
            rw [howner']
            exact hgone'
          rw [if_neg hany]
          exact howner'
        rw [hstays]
        apply Eq.symm
        rw [hpromoted, ← hsame]
        exact ⟨Or.inl howner', by simpa using hgone'⟩

/-- In a run whose every step is orderly, `alternate_class_uris` never lists
the owner, a name with a recorded file is indexed, and the file that takes
over from a withdrawn owner is settled by which files are recorded.  So it does
not depend on the order they were recorded in. -/
theorem alternates_of_orderly (ops : List (ClassOp Class))
    (horderly : GuardedRun Orderly apply empty ops) :
    (∀ name owner, (after ops).uris.get name = some owner →
      owner ∉ (after ops).alternateClassUris name) ∧
    (∀ name, (after ops).alternateClassUris name ≠ [] → (after ops).uris.get name ≠ none) ∧
    (∀ (before before' : List (ClassOp Class)) uris, ops = before ++ [.withdrawUris uris] →
      GuardedRun Orderly apply empty (before' ++ [.withdrawUris uris]) →
      ∀ name owner, (after before).uris.get name = some owner → owner ∈ uris →
        (∀ uri, (after before').Recorded name uri ↔ (after before).Recorded name uri) →
        (after (before' ++ [.withdrawUris uris])).uris.get name = (after ops).uris.get name) ∧
    (∀ before found found' uris, ops = before ++ found ++ [.withdrawUris uris] →
      (∀ op ∈ found, IsRecording op) → (∀ op ∈ found', IsRecording op) → SameFiles found found' →
      GuardedRun Orderly apply empty (before ++ found' ++ [.withdrawUris uris]) →
      ∀ name owner, (after (before ++ found)).uris.get name = some owner → owner ∈ uris →
        (after (before ++ found' ++ [.withdrawUris uris])).uris.get name =
          (after ops).uris.get name) := by
  refine ⟨?_, ?_, ?_, ?_⟩
  · intro name owner howner
    have hkept := kept_after horderly name
    rw [alternateClassUris_eq, NameState.mem_alternateClassUris hkept]
    exact hkept.ownerApart owner howner
  · intro name hlisted hnone
    have hkept := kept_after horderly name
    obtain ⟨uri, huri⟩ := List.exists_mem_of_ne_nil _ hlisted
    rw [alternateClassUris_eq, NameState.mem_alternateClassUris hkept,
      (hkept.owned hnone).1] at huri
    exact absurd huri List.not_mem_nil
  · intro before before' uris hops horderly' name owner howner hgone hsame
    subst hops
    exact promoted_same horderly horderly' hsame howner hgone
  · intro before found found' uris hops hfound hfound' hfiles horderly' name owner howner hgone
    subst hops
    have hsame := recorded_sameFiles hfound hfound' hfiles (guardedRun_append.mp horderly).1
      (guardedRun_append.mp horderly').1 name
    exact promoted_same horderly horderly' hsame howner hgone

/-- A scan that finds two files of a class, and the first file withdrawn. -/
theorem alternates_of_orderly_scan :
    "b.php" ∉ (after [@ClassOp.mergeScan Nat [("Foo", "a.php"), ("Foo", "b.php")],
      .withdrawUris ["a.php"]]).alternateClassUris "Foo" := by
  apply (alternates_of_orderly _ ?_).1 "Foo" "b.php" (by decide +kernel)
  refine ⟨fun name => trivial, ?_, trivial⟩
  intro name
  rw [view_apply]
  by_cases hname : fold "Foo" = fold name
  · simp [NameState.Orderly, NameState.OneLeft, NameState.apply, urisOf, hname,
      NameState.mergeKeep, view, empty, pushUri]
  · simp [NameState.Orderly, NameState.OneLeft, NameState.apply, urisOf, hname, view, empty]

/-- Two parsed declarations list the owner, a withdrawal loses a name that
another file is recorded for, and the file that takes over is the one found
last. -/
theorem alternates_go_wrong :
    (after [ClassOp.declare "Foo" "a.php" 1, .declare "Foo" "b.php" 2]).uris.get "Foo" =
      some "a.php" ∧
    "a.php" ∈ (after [ClassOp.declare "Foo" "a.php" 1,
      .declare "Foo" "b.php" 2]).alternateClassUris "Foo" ∧
    (after [ClassOp.declare "Foo" "a.php" 1, .noteDiscovered "Foo" "b.php",
      .withdraw "Foo" "a.php"]).uris.get "Foo" = none ∧
    (after [ClassOp.declare "Foo" "a.php" 1, .noteDiscovered "Foo" "b.php",
      .withdraw "Foo" "a.php"]).alternateClassUris "Foo" = ["b.php"] ∧
    (after [ClassOp.declare "Foo" "a.php" 1, .noteDiscovered "Foo" "b.php",
      .noteDiscovered "Foo" "c.php", .withdrawUris ["a.php"]]).uris.get "Foo" = some "c.php" ∧
    (after [ClassOp.declare "Foo" "a.php" 1, .noteDiscovered "Foo" "c.php",
      .noteDiscovered "Foo" "b.php", .withdrawUris ["a.php"]]).uris.get "Foo" = some "b.php" := by
  decide +kernel

end ClassDeclarations

end PhpantomLsp.Index
