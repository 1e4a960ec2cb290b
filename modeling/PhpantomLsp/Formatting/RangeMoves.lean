import PhpantomLsp.Formatting.Range

/-!
# Moved lines under a range

A line the formatter moves is deleted in one place and inserted in another.
Hunks that share a moved line are applied together, so a content the formatter
keeps as often as the original has it is kept by the edits
(`keepsLines_iff_noMoveCut`), but for one case: a hunk of unchanged line count
that shares no moved line with another is cut around its respaced lines, and a
move from one of its runs to another is applied by half when the selection
touches only one of the two.
-/

namespace PhpantomLsp.Formatting

open PhpantomLsp.Lib PhpantomLsp.Lib.IndexRange
open PhpantomLsp.Text

/-- How many lines of the text have the content. -/
def occurrences (content : List Char) (text : List Char) : Nat :=
  (splitInclusive text).countP fun line => tokens line == content

section Claim

variable (captureDiffSlices : List Line → List Line → List DiffOp)
  (original formatted : List Char) (range : Range)

/-- No content the two texts have equally often is dropped or duplicated. -/
def KeepsLines : Prop :=
  ∀ content, content ≠ [] → occurrences content original = occurrences content formatted →
    occurrences content (simultaneousEdits original
      (computeRangeEdits captureDiffSlices original formatted range)) =
        occurrences content original

/-- The one hunk deletes a line the other inserts. -/
def Moves (oldLines newLines : List Line) (source target : Change) : Prop :=
  ∃ a ∈ slice oldLines source.old, ∃ b ∈ slice newLines target.new,
    tokens a ≠ [] ∧ tokens a = tokens b

instance (oldLines newLines : List Line) (source target : Change) :
    Decidable (Moves oldLines newLines source target) :=
  inferInstanceAs (Decidable (∃ a ∈ _, ∃ b ∈ _, _ ∧ _))

/-- The runs of changed lines between the lines that are only respaced. -/
def Collector.runsFrom (c : Collector) (old new : IndexRange) (changedFrom : Nat) :
    List Nat → List IndexRange
  | [] => [⟨changedFrom, old.stop⟩]
  | line :: rest =>
      if sameTokens (c.oldLines[line]?.getD [])
          (c.newLines[(toNew old new ⟨line, line⟩).start]?.getD []) then
        ⟨changedFrom, line⟩ :: runsFrom c old new (line + 1) rest
      else runsFrom c old new changedFrom rest

def Collector.changedRuns (c : Collector) (hunk : Change) : List Change :=
  (c.runsFrom hunk.old hunk.new hunk.old.start hunk.old.indices).map fun lines =>
    ⟨lines, toNew hunk.old hunk.new lines⟩

/-- The hunk shares no moved line with another. -/
def StandsAlone (oldLines newLines : List Line) (hunks : List Change) (index : Nat)
    (hunk : Change) : Prop :=
  ∀ index' other, hunks[index']? = some other → index' ≠ index →
    ¬ Moves oldLines newLines hunk other ∧ ¬ Moves oldLines newLines other hunk

/-- In a hunk of unchanged line count that stands alone, the runs the selection
touches delete a content as often as they insert it. -/
def NoMoveCut : Prop :=
  original = formatted ∨
    ∀ index hunk, (hunksOf captureDiffSlices original formatted)[index]? = some hunk →
      hunk.old.length = hunk.new.length →
      StandsAlone (splitInclusive original) (splitInclusive formatted)
        (hunksOf captureDiffSlices original formatted) index hunk →
      ∀ content, content ≠ [] → occurrences content original = occurrences content formatted →
        let c := collectorOf original formatted range
        (((c.changedRuns hunk).filter fun run => c.touches run.old).map
          (Change.gain c.oldLines c.newLines fun line => tokens line == content)).sum = 0

end Claim

/-! ## Groups -/

section Groups

variable (c : Collector) (hunks : List Change)

theorem Collector.mem_deleted {key : List Char} {index : Nat} :
    (key, index) ∈ c.deleted hunks ↔ ∃ hunk, hunks[index]? = some hunk ∧ key ≠ [] ∧
      ∃ line ∈ slice c.oldLines hunk.old, tokens line = key := by
  simp only [deleted, List.mem_flatMap, List.mem_filterMap, Prod.exists, List.mem_zipIdx_iff_getElem?]
  constructor
  · intro ⟨hunk, i, hget, line, hline, heq⟩
    by_cases hkey : tokens line ≠ []
    · rw [if_pos hkey, Option.some.injEq, Prod.mk.injEq] at heq
      rw [← heq.2, ← heq.1]
      exact ⟨hunk, hget, hkey, line, hline, rfl⟩
    · rw [if_neg hkey] at heq
      exact absurd heq (by simp)
  · intro ⟨hunk, hget, hkey, line, hline, heq⟩
    refine ⟨hunk, index, hget, line, hline, ?_⟩
    rw [heq, if_pos hkey]

theorem Collector.mem_moves {index other : Nat} :
    (index, other) ∈ c.moves hunks ↔ ∃ target source, hunks[index]? = some target ∧
      hunks[other]? = some source ∧ other ≠ index ∧
      Moves c.oldLines c.newLines source target := by
  simp only [moves, List.mem_flatMap, List.mem_filterMap, Prod.exists,
    List.mem_zipIdx_iff_getElem?]
  constructor
  · intro ⟨target, i, hget, b, hb, key, j, hmem, heq⟩
    by_cases hcond : key = tokens b ∧ j ≠ i
    · rw [if_pos hcond, Option.some.injEq, Prod.mk.injEq] at heq
      have ⟨source, hsource, hkey, a, ha, hak⟩ := (c.mem_deleted hunks).mp hmem
      rw [← heq.1, ← heq.2]
      refine ⟨target, source, hget, hsource, hcond.2, a, ha, b, hb, ?_, ?_⟩
      · rw [hak]
        exact hkey
      · rw [hak]
        exact hcond.1
    · rw [if_neg hcond] at heq
      exact absurd heq (by simp)
  · intro ⟨target, source, hget, hsource, hne, a, ha, b, hb, hkey, hab⟩
    refine ⟨target, index, hget, b, hb, tokens a, other, ?_, ?_⟩
    · exact (c.mem_deleted hunks).mpr ⟨source, hsource, hkey, a, ha, rfl⟩
    · rw [if_pos ⟨hab, hne⟩]

/-- The name of the group of a hunk. -/
def Collector.groupOf (index : Nat) : Nat :=
  ((c.moves hunks).foldl (fun f link => f.union link.1 link.2) Forest.singletons).top index

theorem Collector.moveGroups_eq :
    c.moveGroups hunks = (List.range hunks.length).map (c.groupOf hunks) :=
  Forest.roots_eq _ _

theorem Collector.groupOf_eq_iff {i j : Nat} :
    c.groupOf hunks i = c.groupOf hunks j ↔
      Relation.EqvGen (fun i j => (i, j) ∈ c.moves hunks) i j :=
  Forest.top_foldl_union_iff _ _ _

theorem Collector.groupOf_of_moves {i j : Nat} {source target : Change}
    (hi : hunks[i]? = some source) (hj : hunks[j]? = some target)
    (h : Moves c.oldLines c.newLines source target) : c.groupOf hunks i = c.groupOf hunks j := by
  by_cases hij : i = j
  · rw [hij]
  · apply Eq.symm
    apply (c.groupOf_eq_iff hunks).mpr
    exact Relation.EqvGen.rel _ _ ((c.mem_moves hunks).mpr ⟨target, source, hj, hi, hij, h⟩)

theorem count_map_eq_one_iff {f : Nat → Nat} {n k : Nat} (hk : k < n) :
    ((List.range n).map f).count (f k) = 1 ↔ ∀ j < n, f j = f k → j = k := by
  rw [List.count, List.countP_map, List.countP_eq_length_filter]
  have hmem (j : Nat) : j ∈ (List.range n).filter ((fun x => x == f k) ∘ f) ↔ j < n ∧ f j = f k := by
    simp
  have hself := (hmem k).mpr ⟨hk, rfl⟩
  constructor
  · intro hone j hj heq
    have ⟨a, ha⟩ := List.length_eq_one_iff.mp hone
    have hother := (hmem j).mpr ⟨hj, heq⟩
    rw [ha, List.mem_singleton] at hself hother
    rw [hself, hother]
  · intro h
    have hperm : ((List.range n).filter ((fun x => x == f k) ∘ f)).Perm [k] := by
      apply (List.perm_ext_iff_of_nodup (List.nodup_range.filter _) (List.nodup_singleton k)).mpr
      intro j
      rw [hmem, List.mem_singleton]
      constructor
      · intro hj
        exact h j hj.1 hj.2
      · intro hj
        rw [hj]
        exact ⟨hk, rfl⟩
    exact hperm.length_eq

/-- A hunk that stands alone is a group of its own. -/
theorem Collector.count_group_iff {index : Nat} {hunk : Change}
    (hget : hunks[index]? = some hunk) :
    (c.moveGroups hunks).count (c.groupOf hunks index) = 1 ↔
      StandsAlone c.oldLines c.newLines hunks index hunk := by
  have hlt : index < hunks.length := (List.getElem?_eq_some_iff.mp hget).1
  rw [moveGroups_eq, count_map_eq_one_iff hlt]
  constructor
  · intro h index' other hother hne
    have hlt' : index' < hunks.length := (List.getElem?_eq_some_iff.mp hother).1
    constructor
    · intro hmoves
      exact hne (h index' hlt' (c.groupOf_of_moves hunks hget hother hmoves).symm)
    · intro hmoves
      exact hne (h index' hlt' (c.groupOf_of_moves hunks hother hget hmoves))
  · intro halone j hj heq
    have hgen := (c.groupOf_eq_iff hunks).mp heq
    -- no move has the hunk at either end
    have hfixed {i j : Nat} (h : Relation.EqvGen (fun i j => (i, j) ∈ c.moves hunks) i j) :
        i = index ↔ j = index := by
      induction h with
      | rel i j h =>
          have ⟨target, source, hi, hj, hne, hmoves⟩ := (c.mem_moves hunks).mp h
          constructor
          · intro hindex
            rw [hindex, hget, Option.some.injEq] at hi
            rw [hindex] at hne
            rw [← hi] at hmoves
            exact absurd hmoves (halone j source hj hne).2
          · intro hindex
            rw [hindex, hget, Option.some.injEq] at hj
            rw [hindex] at hne
            rw [← hj] at hmoves
            exact absurd hmoves (halone i target hi (Ne.symm hne)).1
      | refl i => exact Iff.rfl
      | symm i j _ ih => exact ih.symm
      | trans i j k _ _ ih ih' => exact ih.trans ih'
    exact (hfixed hgen).mpr rfl

end Groups

/-! ## What the changes gain -/

section Gains

variable (c : Collector) {content : List Char} (hcontent : content ≠ [])

/-- A line of the content stands on one of the two sides. -/
def Collector.Holds (content : List Char) (hunk : Change) : Prop :=
  (∃ line ∈ slice c.oldLines hunk.old, tokens line = content) ∨
    ∃ line ∈ slice c.newLines hunk.new, tokens line = content

/-- What a change gains of a content. -/
def Collector.gain (content : List Char) (change : Change) : Int :=
  change.gain c.oldLines c.newLines fun line => tokens line == content

theorem mem_slice_of_within {lines : List Line} {s t : IndexRange} {line : Line}
    (hstart : t.start ≤ s.start) (hle : s.start ≤ s.stop) (hstop : s.stop ≤ t.stop)
    (h : line ∈ slice lines s) : line ∈ slice lines t := by
  have hhead : slice lines ⟨t.start, s.start⟩ ++ slice lines ⟨s.start, s.stop⟩ =
      slice lines ⟨t.start, s.stop⟩ := slice_append lines hstart hle
  have hall : slice lines ⟨t.start, s.stop⟩ ++ slice lines ⟨s.stop, t.stop⟩ =
      slice lines ⟨t.start, t.stop⟩ := slice_append lines (Nat.le_trans hstart hle) hstop
  show line ∈ slice lines ⟨t.start, t.stop⟩
  rw [← hall, ← hhead]
  exact List.mem_append_left _ (List.mem_append_right _ h)

theorem Collector.gain_eq_zero {hunk piece : Change} (hinside : Collector.Inside hunk piece)
    (h : ¬ c.Holds content hunk) : c.gain content piece = 0 := by
  have hold : (slice c.oldLines piece.old).countP (fun line => tokens line == content) = 0 := by
    apply List.countP_eq_zero.mpr
    intro line hline heq
    apply h
    exact Or.inl ⟨line, mem_slice_of_within hinside.old_start hinside.old_le hinside.old_stop hline,
      by simpa using heq⟩
  have hnew : (slice c.newLines piece.new).countP (fun line => tokens line == content) = 0 := by
    apply List.countP_eq_zero.mpr
    intro line hline heq
    apply h
    exact Or.inr ⟨line, mem_slice_of_within hinside.new_start hinside.new_le hinside.new_stop hline,
      by simpa using heq⟩
  rw [gain, Change.gain, hold, hnew]
  rfl

include hcontent in
/-- A respaced line gains nothing. -/
theorem Collector.gain_respaced {old new : IndexRange} {line : Nat}
    (hsame : sameTokens (c.oldLines[line]?.getD [])
      (c.newLines[(toNew old new ⟨line, line⟩).start]?.getD []) = true) :
    c.gain content ⟨⟨line, line + 1⟩, toNew old new ⟨line, line + 1⟩⟩ = 0 := by
  have hcount (x : Option Line) : x.toList.countP (fun line => tokens line == content) =
      if tokens (x.getD []) = content then 1 else 0 := by
    cases x with
    | none => simp [tokens, Ne.symm hcontent]
    | some line => simp [List.countP_singleton]
  have hplace : toNew old new ⟨line, line + 1⟩ =
      ⟨(toNew old new ⟨line, line⟩).start, (toNew old new ⟨line, line⟩).start + 1⟩ := by
    simp [toNew, IndexRange.length]
  have hsame : tokens (c.oldLines[line]?.getD []) =
      tokens (c.newLines[(toNew old new ⟨line, line⟩).start]?.getD []) := by
    simpa [sameTokens] using hsame
  rw [gain, Change.gain, hplace, slice_singleton, slice_singleton, hcount, hcount, hsame]
  exact sub_self _

include hcontent in
/-- What the pieces gain, the runs of changed lines do. -/
theorem Collector.sum_gain_cutFrom (old new : IndexRange) (changedFrom : Nat) (lines : List Nat) :
    ((((c.cutFrom old new changedFrom lines).map fun lines : IndexRange =>
        (⟨lines, toNew old new lines⟩ : Change)).filter fun piece => c.touches piece.old).map
          (c.gain content)).sum =
      ((((c.runsFrom old new changedFrom lines).map fun lines : IndexRange =>
        (⟨lines, toNew old new lines⟩ : Change)).filter fun run => c.touches run.old).map
          (c.gain content)).sum := by
  induction lines generalizing changedFrom with
  | nil => rfl
  | cons line rest ih =>
      unfold cutFrom runsFrom
      by_cases hsame : sameTokens (c.oldLines[line]?.getD [])
          (c.newLines[(toNew old new ⟨line, line⟩).start]?.getD []) = true
      · have hzero := c.gain_respaced hcontent hsame
        rw [if_pos hsame, if_pos hsame]
        simp only [List.map_cons, List.filter_cons]
        by_cases hrun : c.touches ⟨changedFrom, line⟩ = true
        · by_cases hline : c.touches ⟨line, line + 1⟩ = true
          · simp [hrun, hline, ih, hzero]
          · simp [hrun, hline, ih]
        · by_cases hline : c.touches ⟨line, line + 1⟩ = true
          · simp [hrun, hline, ih, hzero]
          · simp [hrun, hline, ih]
      · rw [if_neg hsame, if_neg hsame]
        exact ih changedFrom

include hcontent in
theorem Collector.sum_gain_pieces {hunk : Change} (hlen : hunk.old.length = hunk.new.length) :
    (((c.pieces hunk).filter fun piece => c.touches piece.old).map (c.gain content)).sum =
      (((c.changedRuns hunk).filter fun run => c.touches run.old).map (c.gain content)).sum := by
  unfold pieces changedRuns
  rw [if_neg (by simpa using hlen)]
  exact c.sum_gain_cutFrom hcontent _ _ _ _

end Gains

/-! ## One content in all the hunks -/

theorem sum_eq_zero_of_forall {α : Type*} {f : α → Int} {xs : List α} (h : ∀ x ∈ xs, f x = 0) :
    (xs.map f).sum = 0 := by
  apply List.sum_eq_zero
  intro z hz
  have ⟨x, hx, heq⟩ := List.mem_map.mp hz
  rw [← heq]
  exact h x hx

theorem sum_zipIdx_from {f : Change × Nat → Int} {hunks : List Change} {n index : Nat}
    {hunk : Change} (hget : hunks[index]? = some hunk)
    (hzero : ∀ other i, hunks[i]? = some other → i ≠ index → f (other, n + i) = 0) :
    ((hunks.zipIdx n).map f).sum = f (hunk, n + index) := by
  induction hunks generalizing n index with
  | nil => exact absurd hget (by simp)
  | cons first rest ih =>
      rw [List.zipIdx_cons, List.map_cons, List.sum_cons]
      cases index with
      | zero =>
          have hfirst : first = hunk := Option.some.inj hget
          have hrest : ((rest.zipIdx (n + 1)).map f).sum = 0 := by
            apply sum_eq_zero_of_forall
            intro ⟨other, i⟩ hmem
            have ⟨hle, hother⟩ := List.mem_zipIdx_iff_le_and_getElem?_sub.mp hmem
            simp only at hle hother
            have := hzero other (i - (n + 1) + 1) hother (by omega)
            rw [show n + (i - (n + 1) + 1) = i by omega] at this
            exact this
          rw [hrest, hfirst, add_zero, Nat.add_zero]
      | succ index =>
          have hfirst : f (first, n) = 0 := hzero first 0 rfl (by omega)
          rw [hfirst, zero_add, ih hget, show n + 1 + index = n + (index + 1) by omega]
          intro other i hother hne
          have := hzero other (i + 1) hother (by omega)
          rw [show n + 1 + i = n + (i + 1) by omega]
          exact this

section Balanced

variable (c : Collector) (hunks : List Change) {content : List Char}

/-- What the changes of one hunk gain. -/
def Collector.gainAt (content : List Char) (hunk : Change) (index : Nat) : Int :=
  ((c.applied hunks (c.moveGroups hunks) hunk (c.groupOf hunks index)).map (c.gain content)).sum

theorem Collector.zip_moveGroups :
    hunks.zip (c.moveGroups hunks) =
      hunks.zipIdx.map fun (hunk, index) => (hunk, c.groupOf hunks index) := by
  rw [moveGroups_eq, List.zip_map_right, List.zipIdx_eq_zip_range', List.range_eq_range']
  rfl

theorem Collector.sum_gain_allApplied :
    ((c.allApplied hunks (c.moveGroups hunks)).map (c.gain content)).sum =
      (hunks.zipIdx.map fun (hunk, index) => c.gainAt hunks content hunk index).sum := by
  rw [allApplied, List.map_flatMap, zip_moveGroups, List.flatMap_map, List.flatMap_def,
    List.sum_flatten, List.map_map]
  rfl

theorem sum_zipIdx_fst (f : Change → Int) :
    (hunks.zipIdx.map fun (hunk, _) => f hunk).sum = (hunks.map f).sum := by
  conv => rhs; rw [← List.zipIdx_map_fst 0 hunks, List.map_map]
  rfl

variable {hunks} (hordered : ∀ hunk ∈ hunks, hunk.old.start ≤ hunk.old.stop ∧
    hunk.new.start ≤ hunk.new.stop)
  (hbalanced : (hunks.map (c.gain content)).sum = 0)

include hordered in
theorem Collector.gainAt_eq_zero {hunk : Change} {index : Nat} (hmem : hunk ∈ hunks)
    (h : ¬ c.Holds content hunk) : c.gainAt hunks content hunk index = 0 := by
  apply sum_eq_zero_of_forall
  intro piece hpiece
  have hle := hordered hunk hmem
  exact c.gain_eq_zero (c.applied_inside hle.1 hle.2 piece hpiece) h

theorem Collector.sum_gain (content : List Char) (hunks : List Change) :
    (hunks.map (c.gain content)).sum =
      ((hunks.map fun h => (slice c.newLines h.new).countP fun line => tokens line == content).sum
          : Nat) -
        ((hunks.map fun h => (slice c.oldLines h.old).countP fun line => tokens line == content).sum
          : Nat) := by
  induction hunks with
  | nil => rfl
  | cons hunk rest ih =>
      simp only [List.map_cons, List.sum_cons, ih, gain, Change.gain, Nat.cast_add]
      omega

theorem sum_countP_eq_zero_iff (hunks : List Change) (content : List Char) (lines : List Line) (side : Change → IndexRange) :
    (hunks.map fun h => (slice lines (side h)).countP fun line => tokens line == content).sum = 0 ↔
      ¬ ∃ h ∈ hunks, ∃ line ∈ slice lines (side h), tokens line = content := by
  simp [List.sum_eq_zero_iff, List.countP_eq_zero]

include hbalanced in
/-- A content that is gained nowhere on the whole is both deleted and inserted. -/
theorem Collector.exists_source_target {hunk : Change} (hmem : hunk ∈ hunks)
    (h : c.Holds content hunk) :
    (∃ source ∈ hunks, ∃ line ∈ slice c.oldLines source.old, tokens line = content) ∧
      ∃ target ∈ hunks, ∃ line ∈ slice c.newLines target.new, tokens line = content := by
  have hsum := c.sum_gain content hunks
  rw [hbalanced] at hsum
  by_contra hnone
  have hold := sum_countP_eq_zero_iff hunks content c.oldLines Change.old
  have hnew := sum_countP_eq_zero_iff hunks content c.newLines Change.new
  have hzero : ¬ (∃ source ∈ hunks, ∃ line ∈ slice c.oldLines source.old, tokens line = content) ∧
      ¬ ∃ target ∈ hunks, ∃ line ∈ slice c.newLines target.new, tokens line = content := by
    rw [← hold, ← hnew]
    rw [Classical.not_and_iff_not_or_not, ← hold, ← hnew] at hnone
    omega
  rcases h with h | h
  · exact hzero.1 ⟨hunk, hmem, h⟩
  · exact hzero.2 ⟨hunk, hmem, h⟩

include hbalanced in
/-- The hunks that hold the content are one group. -/
theorem Collector.groupOf_holds (hcontent : content ≠ []) {i j : Nat} {hunk other : Change}
    (hi : hunks[i]? = some hunk) (hj : hunks[j]? = some other) (hhunk : c.Holds content hunk)
    (hother : c.Holds content other) : c.groupOf hunks i = c.groupOf hunks j := by
  have ⟨⟨source, hsource, a, ha, haeq⟩, ⟨target, htarget, b, hb, hbeq⟩⟩ :=
    c.exists_source_target hbalanced (List.mem_of_getElem? hi) hhunk
  have ⟨s, hs⟩ := List.getElem?_of_mem hsource
  have ⟨t, ht⟩ := List.getElem?_of_mem htarget
  have hst : c.groupOf hunks s = c.groupOf hunks t :=
    c.groupOf_of_moves hunks hs ht ⟨a, ha, b, hb, by rw [haeq]; exact hcontent, by rw [haeq, hbeq]⟩
  have hjoin {k : Nat} {hunk : Change} (hk : hunks[k]? = some hunk) (h : c.Holds content hunk) :
      c.groupOf hunks k = c.groupOf hunks t := by
    rcases h with ⟨line, hline, heq⟩ | ⟨line, hline, heq⟩
    · exact c.groupOf_of_moves hunks hk ht
        ⟨line, hline, b, hb, by rw [heq]; exact hcontent, by rw [heq, hbeq]⟩
    · rw [← hst]
      exact (c.groupOf_of_moves hunks hs hk
        ⟨a, ha, line, hline, by rw [haeq]; exact hcontent, by rw [heq, haeq]⟩).symm
  rw [hjoin hi hhunk, hjoin hj hother]

include hordered hbalanced in
/-- The changes gain what the touched runs of a hunk that stands alone do, if
there is one that holds the content. -/
theorem Collector.sum_gainAt_of_alone (hcontent : content ≠ []) {index : Nat} {hunk : Change}
    (hget : hunks[index]? = some hunk) (hhunk : c.Holds content hunk)
    (halone : StandsAlone c.oldLines c.newLines hunks index hunk) :
    (hunks.zipIdx.map fun (hunk, index) => c.gainAt hunks content hunk index).sum =
      if hunk.old.length = hunk.new.length then
        (((c.changedRuns hunk).filter fun run => c.touches run.old).map (c.gain content)).sum
      else 0 := by
  have hone := (c.count_group_iff hunks hget).mpr halone
  -- the other hunks of the content would be in the group of this one
  have hothers (other : Change) (i : Nat) (hi : hunks[i]? = some other) (hne : i ≠ index) :
      ¬ c.Holds content other := by
    intro hother
    have hsame := c.groupOf_holds hbalanced hcontent hget hi hhunk hother
    have hlt : index < hunks.length := (List.getElem?_eq_some_iff.mp hget).1
    rw [moveGroups_eq, count_map_eq_one_iff hlt] at hone
    exact hne (hone i (List.getElem?_eq_some_iff.mp hi).1 hsame.symm)
  have hsum := sum_zipIdx_from (n := 0)
    (f := fun x : Change × Nat => c.gainAt hunks content x.1 x.2) hget (by
      intro other i hi hne
      exact c.gainAt_eq_zero hordered (List.mem_of_getElem? hi) (hothers other i hi hne))
  rw [Nat.zero_add] at hsum
  refine Eq.trans hsum ?_
  show c.gainAt hunks content hunk index = _
  unfold gainAt applied
  rw [if_pos hone]
  by_cases hlen : hunk.old.length = hunk.new.length
  · rw [if_pos hlen, c.sum_gain_pieces hcontent hlen]
  · -- the hunk is applied whole or not at all
    rw [if_neg hlen, pieces, if_pos hlen]
    have hwhole := sum_zipIdx_from (n := 0) (f := fun x : Change × Nat => c.gain content x.1) hget
      (by
        intro other i hi hne
        have hle := hordered other (List.mem_of_getElem? hi)
        exact c.gain_eq_zero (Inside.refl hle.1 hle.2) (hothers other i hi hne))
    have hfst := sum_zipIdx_fst hunks (c.gain content)
    rw [hbalanced] at hfst
    have hzero : c.gain content hunk = 0 := hwhole.symm.trans hfst
    by_cases htouch : c.touches hunk.old = true
    · simp [htouch, hzero]
    · simp [htouch]

include hordered hbalanced in
/-- Hunks that share a moved line are applied together or not at all. -/
theorem Collector.sum_gainAt_of_not_alone (hcontent : content ≠ []) {index : Nat} {hunk : Change}
    (hget : hunks[index]? = some hunk) (hhunk : c.Holds content hunk)
    (halone : ¬ StandsAlone c.oldLines c.newLines hunks index hunk) :
    (hunks.zipIdx.map fun (hunk, index) => c.gainAt hunks content hunk index).sum = 0 := by
  have hmany := mt (c.count_group_iff hunks hget).mp halone
  -- each hunk gains its whole, if the group is touched, or nothing
  have hterm (other : Change) (i : Nat) (hi : hunks[i]? = some other) :
      c.gainAt hunks content other i =
        if (hunks.zip (c.moveGroups hunks)).any
            (fun (other, g) => g == c.groupOf hunks index && c.touches other.old) = true then
          c.gain content other
        else 0 := by
    by_cases hother : c.Holds content other
    · rw [gainAt, applied, ← c.groupOf_holds hbalanced hcontent hget hi hhunk hother, if_neg hmany]
      split
      · simp
      · rfl
    · have hmem := List.mem_of_getElem? hi
      have hle := hordered other hmem
      rw [c.gainAt_eq_zero hordered hmem hother,
        c.gain_eq_zero (Inside.refl hle.1 hle.2) hother, ite_self]
  have hmap : (hunks.zipIdx.map fun (hunk, index) => c.gainAt hunks content hunk index) =
      hunks.zipIdx.map fun (other, _) =>
        if (hunks.zip (c.moveGroups hunks)).any
            (fun (other, g) => g == c.groupOf hunks index && c.touches other.old) = true then
          c.gain content other
        else 0 := by
    apply List.map_congr_left
    intro ⟨other, i⟩ hmem
    exact hterm other i (List.mem_zipIdx_iff_getElem?.mp hmem)
  rw [hmap]
  split
  · exact (sum_zipIdx_fst hunks (c.gain content)).trans hbalanced
  · exact sum_eq_zero_of_forall fun _ _ => rfl

end Balanced

/-! ## The edits -/

section Edits

variable {captureDiffSlices : List Line → List Line → List DiffOp}
  (hdiff : DiffsLines captureDiffSlices) (original formatted : List Char) (range : Range)
  (content : List Char)

include hdiff

/-- The edits change how often a content occurs by what their changes gain. -/
theorem occurrences_computeRangeEdits :
    (occurrences content (simultaneousEdits original
        (computeRangeEdits captureDiffSlices original formatted range)) : Int) =
      occurrences content original +
        ((rangeChanges captureDiffSlices original formatted range).map
          ((collectorOf original formatted range).gain content)).sum := by
  unfold occurrences
  rw [splitInclusive_computeRangeEdits hdiff,
    countP_patchFrom _ (rangeChanges_inOrder hdiff original formatted range)]
  rfl

/-- A content the two texts have equally often is gained nowhere on the whole. -/
theorem sum_gain_hunksOf (h : occurrences content original = occurrences content formatted) :
    ((hunksOf captureDiffSlices original formatted).map
      ((collectorOf original formatted range).gain content)).sum = 0 := by
  have haligned := hunksOf_aligned hdiff original formatted
  have hall := haligned.countP_eq fun line => tokens line == content
  show ((hunksOf captureDiffSlices original formatted).map
    (Change.gain (splitInclusive original) (splitInclusive formatted)
      fun line => tokens line == content)).sum = 0
  rw [List.drop_zero, List.drop_zero] at hall
  have h : ((splitInclusive original).countP (fun line : Line => tokens line == content) : Int) =
      (splitInclusive formatted).countP fun line : Line => tokens line == content :=
    congrArg Nat.cast h
  rw [← h] at hall
  exact left_eq_add.mp hall

omit hdiff in
theorem sum_gain_rangeChanges (hsame : original ≠ formatted) (content : List Char) :
    ((rangeChanges captureDiffSlices original formatted range).map
        ((collectorOf original formatted range).gain content)).sum =
      ((hunksOf captureDiffSlices original formatted).zipIdx.map fun (hunk, index) =>
        (collectorOf original formatted range).gainAt
          (hunksOf captureDiffSlices original formatted) content hunk index).sum := by
  rw [rangeChanges, if_neg hsame]
  exact Collector.sum_gain_allApplied _ _

/-- The edits keep what the two texts have equally often exactly when the
selection cuts no move inside a hunk. -/
theorem keepsLines_iff_noMoveCut :
    KeepsLines captureDiffSlices original formatted range ↔
      NoMoveCut captureDiffSlices original formatted range := by
  have haligned := hunksOf_aligned hdiff original formatted
  have hordered : ∀ hunk ∈ hunksOf captureDiffSlices original formatted,
      hunk.old.start ≤ hunk.old.stop ∧ hunk.new.start ≤ hunk.new.stop :=
    fun hunk hmem => ⟨(haligned.starts hunk hmem).1.2, (haligned.starts hunk hmem).2.2⟩
  have hkept (content : List Char) : occurrences content (simultaneousEdits original
      (computeRangeEdits captureDiffSlices original formatted range)) =
        occurrences content original ↔
      ((rangeChanges captureDiffSlices original formatted range).map
          ((collectorOf original formatted range).gain content)).sum = 0 := by
    have := occurrences_computeRangeEdits hdiff original formatted range content
    omega
  by_cases hsame : original = formatted
  · constructor
    · intro _
      exact Or.inl hsame
    · intro _ content _ _
      rw [hkept, rangeChanges, if_pos hsame]
      rfl
  have hsum := @sum_gain_rangeChanges captureDiffSlices original formatted range hsame
  constructor
  · intro hkeeps
    apply Or.inr
    intro index hunk hget hlen halone content hcontent hbalanced
    have hzero := sum_gain_hunksOf hdiff original formatted range content hbalanced
    by_cases hhunk : (collectorOf original formatted range).Holds content hunk
    · have hresult := (hkept content).mp (hkeeps content hcontent hbalanced)
      rw [hsum, Collector.sum_gainAt_of_alone _ hordered hzero hcontent hget hhunk halone,
        if_pos hlen] at hresult
      exact hresult
    · -- the runs do not hold the content
      have hle := hordered hunk (List.mem_of_getElem? hget)
      refine Eq.trans (Collector.sum_gain_pieces _ hcontent hlen).symm ?_
      apply sum_eq_zero_of_forall
      intro piece hpiece
      exact Collector.gain_eq_zero _ (Collector.pieces_inside _ hle.1 hle.2 piece
        (List.mem_of_mem_filter hpiece)) hhunk
  · intro hcut content hcontent hbalanced
    have hcut := hcut.resolve_left hsame
    have hzero := sum_gain_hunksOf hdiff original formatted range content hbalanced
    rw [hkept, hsum]
    by_cases hheld : ∃ (index : Nat) (hunk : Change),
        (hunksOf captureDiffSlices original formatted)[index]? = some hunk ∧
          (collectorOf original formatted range).Holds content hunk
    · obtain ⟨index, hunk, hget, hhunk⟩ := hheld
      by_cases halone : StandsAlone (splitInclusive original) (splitInclusive formatted)
          (hunksOf captureDiffSlices original formatted) index hunk
      · rw [Collector.sum_gainAt_of_alone _ hordered hzero hcontent hget hhunk halone]
        by_cases hlen : hunk.old.length = hunk.new.length
        · rw [if_pos hlen]
          exact hcut index hunk hget hlen halone content hcontent hbalanced
        · rw [if_neg hlen]
      · exact Collector.sum_gainAt_of_not_alone _ hordered hzero hcontent hget hhunk halone
    · apply sum_eq_zero_of_forall
      rintro ⟨hunk, index⟩ hmem
      have hget := List.mem_zipIdx_iff_getElem?.mp hmem
      exact Collector.gainAt_eq_zero _ hordered (List.mem_of_getElem? hget)
        fun hhunk => hheld ⟨index, hunk, hget, hhunk⟩

end Edits

/-- The diff of two lists that share no line. -/
def replaceAll (oldLines newLines : List Line) : List DiffOp :=
  [.replace 0 oldLines.length 0 newLines.length]

theorem diffsLines_replaceAll : DiffsLines replaceAll := by
  intro oldLines newLines
  simp [replaceAll, Script, DiffOp.oldRange, DiffOp.newRange, DiffOp.isEqual]

/-- The first of two imports that change places is selected, and the import
between them is only indented: the last import stands twice. -/
theorem not_keepsLines_reordered :
    simultaneousEdits "use C;\nuse B;\nuse A;\n".toList
        (computeRangeEdits replaceAll "use C;\nuse B;\nuse A;\n".toList
          "  use A;\n  use B;\n  use C;\n".toList ⟨⟨0, 0⟩, ⟨0, 6⟩⟩) =
        "  use A;\nuse B;\nuse A;\n".toList ∧
      ¬ KeepsLines replaceAll "use C;\nuse B;\nuse A;\n".toList
        "  use A;\n  use B;\n  use C;\n".toList ⟨⟨0, 0⟩, ⟨0, 6⟩⟩ := by
  refine ⟨by decide +kernel, ?_⟩
  intro h
  exact absurd (h "useA;".toList (by decide) (by decide)) (by decide +kernel)

theorem keepsLines_iff_reordered :
    KeepsLines replaceAll "use C;\nuse B;\nuse A;\n".toList "  use A;\n  use B;\n  use C;\n".toList
        ⟨⟨0, 0⟩, ⟨3, 0⟩⟩ ↔
      NoMoveCut replaceAll "use C;\nuse B;\nuse A;\n".toList
        "  use A;\n  use B;\n  use C;\n".toList ⟨⟨0, 0⟩, ⟨3, 0⟩⟩ :=
  keepsLines_iff_noMoveCut diffsLines_replaceAll _ _ _

end PhpantomLsp.Formatting
