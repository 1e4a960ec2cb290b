import PhpantomLsp.Formatting.RangeMoves

/-!
# The edits of a range

The edits come in order and do not overlap; a range of all the lines gives the
formatted text; and a line that is in no hunk of a group the range touches keeps
its bytes.  Nothing is asked of the diff but that its operations cover both line
lists in order and its equal runs hold equal lines: an equal run may be empty,
so two hunks may meet.
-/

namespace PhpantomLsp.Formatting

open PhpantomLsp.Lib PhpantomLsp.Lib.IndexRange
open PhpantomLsp.Text

/-- The operations cover both line lists in order, from `i` of the one and `j`
of the other on, and the equal runs hold equal lines. -/
def Covering (oldLines newLines : List Line) : Nat → Nat → List DiffOp → Prop
  | i, j, [] => i = oldLines.length ∧ j = newLines.length
  | i, j, op :: rest =>
      op.oldRange.start = i ∧ op.newRange.start = j ∧
        (op.isEqual = true → slice oldLines op.oldRange = slice newLines op.newRange) ∧
        Covering oldLines newLines op.oldRange.stop op.newRange.stop rest

/-- What is asked of the diff. -/
def CoversLines (captureDiffSlices : List Line → List Line → List DiffOp) : Prop :=
  ∀ oldLines newLines, Covering oldLines newLines 0 0 (captureDiffSlices oldLines newLines)

section Hunks

variable {oldLines newLines : List Line}

theorem Covering.bounds {i j : Nat} {ops : List DiffOp} (h : Covering oldLines newLines i j ops) :
    i ≤ oldLines.length ∧ j ≤ newLines.length := by
  induction ops generalizing i j with
  | nil => exact ⟨Nat.le_of_eq h.1, Nat.le_of_eq h.2⟩
  | cons op rest ih =>
      have hle := op.ranges_le
      have ih := ih h.2.2.2
      have hi := h.1
      have hj := h.2.1
      omega

theorem hunksFrom_matched {i j : Nat} {ops : List DiffOp}
    (h : Covering oldLines newLines i j ops) :
    (∀ i' j', i' ≤ i → j' ≤ j → slice oldLines ⟨i', i⟩ = slice newLines ⟨j', j⟩ →
        Matched oldLines newLines i' j' (hunksFrom none ops)) ∧
      ∀ c : Change, c.old.start ≤ c.old.stop → c.new.start ≤ c.new.stop →
        c.old.stop = i → c.new.stop = j → ∀ i' j', i' ≤ c.old.start → j' ≤ c.new.start →
        slice oldLines ⟨i', c.old.start⟩ = slice newLines ⟨j', c.new.start⟩ →
        Matched oldLines newLines i' j' (hunksFrom (some c) ops) := by
  induction ops generalizing i j with
  | nil =>
      have hold : oldLines.drop i = [] := List.drop_of_length_le (Nat.le_of_eq h.1.symm)
      have hnew : newLines.drop j = [] := List.drop_of_length_le (Nat.le_of_eq h.2.symm)
      constructor
      · intro i' j' hi hj hgap
        show oldLines.drop i' = newLines.drop j'
        rw [← slice_append_drop oldLines hi, ← slice_append_drop newLines hj, hgap, hold, hnew]
      · intro c hc hc' hci hcj i' j' hi hj hgap
        refine ⟨⟨hi, hc⟩, ⟨hj, hc'⟩, hgap, ?_⟩
        show oldLines.drop c.old.stop = newLines.drop c.new.stop
        rw [hci, hcj, hold, hnew]
  | cons op rest ih =>
      have hle := op.ranges_le
      have ⟨hi, hj, hequal, hrest⟩ := h
      have ⟨hnone, hsome⟩ := ih hrest
      by_cases hop : op.isEqual = true
      · have hsame := hequal hop
        simp only [hunksFrom, hop, if_true]
        constructor
        · intro i' j' hi' hj' hgap
          apply hnone i' j' (by omega) (by omega)
          rw [← slice_append oldLines hi' (show i ≤ op.oldRange.stop by omega),
            ← slice_append newLines hj' (show j ≤ op.newRange.stop by omega), hgap, ← hi, ← hj]
          exact congrArg _ hsame
        · intro c hc hc' hci hcj i' j' hi' hj' hgap
          refine ⟨⟨hi', hc⟩, ⟨hj', hc'⟩, hgap, ?_⟩
          apply hnone _ _ (by omega) (by omega)
          rw [hci, hcj, ← hi, ← hj]
          exact hsame
      · simp only [hunksFrom, hop]
        constructor
        · intro i' j' hi' hj' hgap
          apply hsome ⟨op.oldRange, op.newRange⟩ hle.1 hle.2 rfl rfl i' j'
          · show i' ≤ op.oldRange.start
            omega
          · show j' ≤ op.newRange.start
            omega
          · show slice oldLines ⟨i', op.oldRange.start⟩ = slice newLines ⟨j', op.newRange.start⟩
            rw [hi, hj, hgap]
        · intro c hc hc' hci hcj i' j' hi' hj' hgap
          apply hsome ⟨⟨c.old.start, op.oldRange.stop⟩, ⟨c.new.start, op.newRange.stop⟩⟩ _ _ rfl rfl
            i' j' hi' hj' hgap
          · show c.old.start ≤ op.oldRange.stop
            omega
          · show c.new.start ≤ op.newRange.stop
            omega

/-- The lines outside the hunks are the same. -/
theorem hunks_matched {ops : List DiffOp} (h : Covering oldLines newLines 0 0 ops) :
    Matched oldLines newLines 0 0 (hunks ops) :=
  (hunksFrom_matched h).1 0 0 (Nat.le_refl _) (Nat.le_refl _) (by rw [slice_self, slice_self])

theorem hunksFrom_within {i j : Nat} {ops : List DiffOp} (h : Covering oldLines newLines i j ops)
    {last : Option Change} (hlast : ∀ c ∈ last, c.old.stop ≤ oldLines.length) :
    ∀ d ∈ hunksFrom last ops, d.old.stop ≤ oldLines.length := by
  induction ops generalizing i j last with
  | nil =>
      intro d hd
      exact hlast d (Option.mem_toList.mp hd)
  | cons op rest ih =>
      have hrest := h.2.2.2
      have hstop := hrest.bounds.1
      by_cases hop : op.isEqual = true
      · simp only [hunksFrom, hop, if_true]
        intro d hd
        rcases List.mem_append.mp hd with hd | hd
        · exact hlast d (Option.mem_toList.mp hd)
        · exact ih hrest (by simp) d hd
      · cases last with
        | none =>
            simp only [hunksFrom, hop]
            exact ih hrest (by simpa using hstop)
        | some c =>
            simp only [hunksFrom, hop]
            exact ih hrest (by simpa using hstop)

end Hunks

/-! ## The changes of hunks that may meet -/

namespace Collector

variable {c : Collector} {hunks : List Change} {groups : List Nat}

theorem touches_of_lt {old : IndexRange} (h : old.start < old.stop) :
    c.touches old = true ↔ old.start ≤ c.selected.2 ∧ c.selected.1 < old.stop := by
  have hempty : old.isEmpty = false := by
    rw [IndexRange.isEmpty, decide_eq_false_iff_not]
    omega
  simp [touches, hempty]

theorem touches_of_le {old : IndexRange} (h : old.stop ≤ old.start) :
    c.touches old = true ↔ c.selected.1 ≤ old.start ∧ old.start ≤ c.selected.2 + 1 := by
  have hempty : old.isEmpty = true := decide_eq_true h
  simp [touches, hempty]

/-- The line ranges of a hunk follow one another. -/
theorem tiles_cutFrom (old new : IndexRange) {changedFrom line n : Nat} (hstart : old.start ≤ changedFrom)
    (hfrom : changedFrom ≤ line) (hstop : line + n = old.stop) :
    Tiles (changedFrom, new.start + (changedFrom - old.start))
      (old.stop, new.start + (old.stop - old.start))
      ((c.cutFrom old new changedFrom (List.range' line n)).map fun lines =>
        ⟨lines, toNew old new lines⟩) := by
  induction n generalizing changedFrom line with
  | zero =>
      simp only [List.range'_zero, cutFrom, List.map_cons, List.map_nil]
      rw [toNew_eq hstart (by simp only; omega)]
      refine ⟨rfl, ?_, ?_, rfl⟩ <;> simp only <;> omega
  | succ n ih =>
      rw [List.range'_succ, cutFrom]
      by_cases hsame : sameTokens (c.oldLines[line]?.getD [])
          (c.newLines[(toNew old new ⟨line, line⟩).start]?.getD []) = true
      · rw [if_pos hsame, List.map_cons, List.map_cons, toNew_eq hstart (by simpa using hfrom),
          toNew_eq (show old.start ≤ (⟨line, line + 1⟩ : IndexRange).start by simp only; omega)
            (by simp)]
        have hrest := ih (show old.start ≤ line + 1 by omega) (Nat.le_refl _) (by omega)
        refine ⟨rfl, hfrom, ?_, rfl, ?_, ?_, hrest⟩ <;> simp only <;> omega
      · rw [if_neg hsame]
        exact ih hstart (by omega) (by omega)

/-- The pieces of a hunk follow one another, over the whole hunk. -/
theorem tiles_pieces {hunk : Change} (hold : hunk.old.start ≤ hunk.old.stop)
    (hnew : hunk.new.start ≤ hunk.new.stop) :
    Tiles (hunk.old.start, hunk.new.start) (hunk.old.stop, hunk.new.stop) (c.pieces hunk) := by
  unfold pieces
  by_cases hlen : hunk.old.length ≠ hunk.new.length
  · rw [if_pos hlen]
    exact ⟨rfl, hold, hnew, rfl⟩
  · rw [if_neg hlen]
    simp only [IndexRange.length, ne_eq, Decidable.not_not] at hlen
    have h := tiles_cutFrom (c := c) hunk.old hunk.new (Nat.le_refl _) (Nat.le_refl _)
      (Nat.add_sub_of_le hold)
    have hstop : hunk.new.start + (hunk.old.stop - hunk.old.start) = hunk.new.stop := by omega
    rw [Nat.sub_self, Nat.add_zero, hstop] at h
    exact h

/-- The changes of hunks in order come in order. -/
theorem applied_ordered {i : Nat} {entries : List (Change × Nat)}
    (hin : InOrder i (entries.map Prod.fst))
    (hnew : ∀ entry ∈ entries, entry.1.new.start ≤ entry.1.new.stop) :
    InOrder i (entries.flatMap fun (hunk, group) => c.applied hunks groups hunk group) where
  starts piece hpiece := by
    have ⟨entry, hmem, hpiece⟩ := List.mem_flatMap.mp hpiece
    have hstarts := hin.starts entry.1 (List.mem_map_of_mem hmem)
    have hinside := c.applied_inside hstarts.2 (hnew entry hmem) piece hpiece
    exact ⟨Nat.le_trans hstarts.1 hinside.old_start, hinside.old_le⟩
  apart := by
    rw [List.pairwise_flatMap]
    constructor
    · intro entry hmem
      exact (c.applied_apart (hin.starts entry.1 (List.mem_map_of_mem hmem)).2).imp fun h => h.1
    · have happart := hin.apart
      rw [List.pairwise_map] at happart
      apply List.Pairwise.imp_of_mem _ happart
      intro entry next hmem hmem' happart p hp q hq
      have hp := c.applied_inside (hin.starts entry.1 (List.mem_map_of_mem hmem)).2
        (hnew entry hmem) p hp
      have hq := c.applied_inside (hin.starts next.1 (List.mem_map_of_mem hmem')).2
        (hnew next hmem') q hq
      exact Nat.le_trans hp.old_stop (Nat.le_trans happart hq.old_start)

/-- Where everything is selected, the changes do what the hunks do. -/
theorem patchFrom_applied {hunk : Change} {rest : List Change} {group i : Nat}
    (hall : ∀ old : IndexRange, old.start ≤ old.stop → old.stop ≤ c.oldLines.length →
      c.touches old = true)
    (hmem : (hunk, group) ∈ hunks.zip groups) (hi : i ≤ hunk.old.start)
    (hold : hunk.old.start ≤ hunk.old.stop) (hnew : hunk.new.start ≤ hunk.new.stop)
    (hstop : hunk.old.stop ≤ c.oldLines.length) (hrest : InOrder hunk.old.stop rest) :
    patchFrom c.oldLines c.newLines i (c.applied hunks groups hunk group ++ rest) =
      patchFrom c.oldLines c.newLines i (hunk :: rest) := by
  unfold applied
  by_cases hlone : groups.count group = 1
  · have htouched : (c.pieces hunk).filter (fun piece => c.touches piece.old) = c.pieces hunk := by
      rw [List.filter_eq_self]
      intro piece hpiece
      have hinside := c.pieces_inside hold hnew piece hpiece
      exact hall _ hinside.old_le (Nat.le_trans hinside.old_stop hstop)
    rw [if_pos hlone, htouched, patchFrom_tiles (c.tiles_pieces hold hnew) hi hrest]
    rfl
  · have htouched : ((hunks.zip groups).any fun (other, g) =>
        g == group && c.touches other.old) = true := by
      rw [List.any_eq_true]
      exact ⟨(hunk, group), hmem, by simp [hall _ hold hstop]⟩
    rw [if_neg hlone, if_pos htouched]
    rfl

theorem patchFrom_allApplied {i : Nat} {entries : List (Change × Nat)}
    (hall : ∀ old : IndexRange, old.start ≤ old.stop → old.stop ≤ c.oldLines.length →
      c.touches old = true)
    (hentries : ∀ entry ∈ entries, entry ∈ hunks.zip groups)
    (hin : InOrder i (entries.map Prod.fst))
    (hnew : ∀ entry ∈ entries, entry.1.new.start ≤ entry.1.new.stop)
    (hstops : ∀ entry ∈ entries, entry.1.old.stop ≤ c.oldLines.length) :
    patchFrom c.oldLines c.newLines i
        (entries.flatMap fun (hunk, group) => c.applied hunks groups hunk group) =
      patchFrom c.oldLines c.newLines i (entries.map Prod.fst) := by
  induction entries generalizing i with
  | nil => rfl
  | cons entry rest ih =>
      have htail : InOrder entry.1.old.stop (rest.map Prod.fst) := hin.tail
      have hnew' : ∀ e ∈ rest, e.1.new.start ≤ e.1.new.stop := fun e he => hnew e (by simp [he])
      have ih := ih (fun e he => hentries e (by simp [he])) htail hnew'
        (fun e he => hstops e (by simp [he]))
      have hhead := hin.head
      rw [List.flatMap_cons, patchFrom_applied hall (hentries entry (by simp)) hhead.1 hhead.2
        (hnew entry (by simp)) (hstops entry (by simp)) (applied_ordered htail hnew')]
      show _ ++ _ ++ patchFrom c.oldLines c.newLines entry.1.old.stop _ = _
      rw [ih]
      rfl

/-- A change that is applied and holds line `k` is of a hunk in a group the
selection touches. -/
theorem touched_of_applied {hunk piece : Change} {group k : Nat}
    (hmem : (hunk, group) ∈ hunks.zip groups) (hold : hunk.old.start ≤ hunk.old.stop)
    (hnew : hunk.new.start ≤ hunk.new.stop) (hpiece : piece ∈ c.applied hunks groups hunk group)
    (hk : piece.old.start ≤ k ∧ k < piece.old.stop) :
    (hunk.old.start ≤ k ∧ k < hunk.old.stop) ∧
      ∃ other ∈ hunks, (other, group) ∈ hunks.zip groups ∧ c.touches other.old = true := by
  have hinside := c.applied_inside hold hnew piece hpiece
  have hfrom := hinside.old_start
  have hto := hinside.old_stop
  refine ⟨by omega, ?_⟩
  unfold applied at hpiece
  by_cases hlone : groups.count group = 1
  · rw [if_pos hlone] at hpiece
    have htouch : c.touches piece.old = true := (List.mem_filter.mp hpiece).2
    refine ⟨hunk, (List.of_mem_zip hmem).1, hmem, ?_⟩
    rw [touches_of_lt (by omega)] at htouch ⊢
    omega
  · rw [if_neg hlone] at hpiece
    by_cases htouched : ((hunks.zip groups).any fun (other, g) =>
        g == group && c.touches other.old) = true
    · have ⟨⟨other, g⟩, hother, htouch⟩ := List.any_eq_true.mp htouched
      simp only [Bool.and_eq_true, beq_iff_eq] at htouch
      rw [htouch.1] at hother
      exact ⟨other, (List.of_mem_zip hother).1, hother, htouch.2⟩
    · rw [if_neg htouched] at hpiece
      exact absurd hpiece List.not_mem_nil

end Collector

/-! ## Positions -/

/-- The position is not behind the other. -/
def AtMost (p q : Position) : Prop := p.line < q.line ∨ (p.line = q.line ∧ p.character ≤ q.character)

instance (p q : Position) : Decidable (AtMost p q) := inferInstanceAs (Decidable (_ ∨ _))

/-- Later lines have later positions. -/
theorem Collector.linePosition_mono (c : Collector) {k m : Nat} (hkm : k ≤ m)
    (hm : m ≤ c.oldLines.length) : AtMost (c.linePosition k) (c.linePosition m) := by
  unfold linePosition AtMost
  cases hlast : c.oldLines.getLast? with
  | none => simp only; omega
  | some last =>
      by_cases hterm : Terminated last
      · simp only [hterm, not_true, and_false, if_false]
        omega
      · simp only [hterm, not_false_eq_true, and_true]
        by_cases hk : k = c.oldLines.length
        · have hm : m = c.oldLines.length := by omega
          simp [hk, hm]
        · by_cases hm : m = c.oldLines.length
          · rw [if_neg hk, if_pos hm]
            simp only
            omega
          · rw [if_neg hk, if_neg hm]
            simp only
            omega

theorem Collector.linePosition_of_lt (c : Collector) {k : Nat} (hk : k < c.oldLines.length) :
    c.linePosition k = ⟨k, 0⟩ := by
  unfold linePosition
  split
  · rw [if_neg (by omega)]
  · rfl

theorem Collector.linePosition_of_terminated (c : Collector) (k : Nat)
    (hterm : ∀ line ∈ c.oldLines, Terminated line) : c.linePosition k = ⟨k, 0⟩ := by
  unfold linePosition
  split
  · rename_i last hlast
    rw [if_neg fun h => h.2 (hterm last (List.mem_of_getLast? hlast))]
  · rfl

/-- Lines with a line after them have their line break. -/
theorem terminated_of_mem_take {lines : List Line} (h : IsLines lines) {k : Nat}
    (hk : k < lines.length) : ∀ line ∈ lines.take k, Terminated line := by
  intro line hline
  have ⟨i, hi, heq⟩ := List.mem_take_iff_getElem.mp hline
  rw [← heq]
  exact h.terminated_of_lt (by omega)

theorem isLines_take {lines : List Line} (h : IsLines lines) (k : Nat) : IsLines (lines.take k) where
  isLine line hline := h.isLine line (List.mem_of_mem_take hline)
  terminated := h.terminated.prefix (List.take_prefix k lines)

/-! ## The edits -/

section Diff

variable {captureDiffSlices : List Line → List Line → List DiffOp}
  (hdiff : CoversLines captureDiffSlices) (original formatted : List Char) (range : Range)

/-- The range selects every line of the text. -/
def SelectsAll (original : List Char) (range : Range) : Prop :=
  (selectedLines range).1 = 0 ∧ (splitInclusive original).length ≤ (selectedLines range).2 + 1

instance (original : List Char) (range : Range) : Decidable (SelectsAll original range) :=
  inferInstanceAs (Decidable (_ ∧ _))

/-- Line `k` is in a hunk whose group holds a hunk the range touches. -/
def InTouchedGroup (captureDiffSlices : List Line → List Line → List DiffOp)
    (original formatted : List Char) (range : Range) (k : Nat) : Prop :=
  let c := collectorOf original formatted range
  let hunks := hunksOf captureDiffSlices original formatted
  ∃ hunk group, (hunk, group) ∈ hunks.zip (c.moveGroups hunks) ∧
    (hunk.old.start ≤ k ∧ k < hunk.old.stop) ∧
    ∃ other ∈ hunks, (other, group) ∈ hunks.zip (c.moveGroups hunks) ∧ c.touches other.old = true

/-- The edits leave line `k` as it is: each is before the line or behind it, and
the result has the line behind what the edits make of the lines before it. -/
def KeepsLine (original : List Char) (edits : List TextEdit) (k : Nat) : Prop :=
  let lines := splitInclusive original
  ∃ front back behind, edits = front ++ back ∧
    (∀ e ∈ front, place original e.range.stop ≤ (lines.take k).flatten.length) ∧
    (∀ e ∈ back, (lines.take (k + 1)).flatten.length ≤ place original e.range.start) ∧
    simultaneousEdits original edits =
      simultaneousEdits (lines.take k).flatten front ++ (lines[k]?).getD [] ++ behind

section Lines

include hdiff

theorem hunksOf_matched :
    Matched (splitInclusive original) (splitInclusive formatted) 0 0
      (hunksOf captureDiffSlices original formatted) :=
  hunks_matched (hdiff _ _)

theorem hunksOf_within :
    ∀ hunk ∈ hunksOf captureDiffSlices original formatted,
      hunk.old.stop ≤ (splitInclusive original).length :=
  hunksFrom_within (hdiff _ _) (by simp)

/-- The hunks with their groups, in order. -/
theorem hunksOf_entries (c : Collector) :
    let hunks := hunksOf captureDiffSlices original formatted
    InOrder 0 ((hunks.zip (c.moveGroups hunks)).map Prod.fst) ∧
      (hunks.zip (c.moveGroups hunks)).map Prod.fst = hunks ∧
      ∀ entry ∈ hunks.zip (c.moveGroups hunks), entry.1.new.start ≤ entry.1.new.stop := by
  intro hunks
  have hmatched := hunksOf_matched hdiff original formatted
  have hfst : (hunks.zip (c.moveGroups hunks)).map Prod.fst = hunks :=
    List.map_fst_zip (Nat.le_of_eq (c.length_moveGroups hunks).symm)
  refine ⟨?_, hfst, ?_⟩
  · rw [hfst]
    exact hmatched.inOrder
  · intro entry hentry
    exact (hmatched.starts entry.1 (List.of_mem_zip hentry).1).2.2

theorem rangeChanges_ordered :
    InOrder 0 (rangeChanges captureDiffSlices original formatted range) := by
  unfold rangeChanges
  by_cases hsame : original = formatted
  · rw [if_pos hsame]
    exact ⟨by simp, List.Pairwise.nil⟩
  · have ⟨hin, _, hnew⟩ := hunksOf_entries hdiff original formatted
      (collectorOf original formatted range)
    rw [if_neg hsame]
    exact Collector.applied_ordered hin hnew

/-- A change of the edits is part of a hunk. -/
theorem exists_hunk_of_mem {piece : Change}
    (hpiece : piece ∈ rangeChanges captureDiffSlices original formatted range) :
    let c := collectorOf original formatted range
    let hunks := hunksOf captureDiffSlices original formatted
    ∃ hunk group, (hunk, group) ∈ hunks.zip (c.moveGroups hunks) ∧
      (hunk.old.start ≤ hunk.old.stop ∧ hunk.new.start ≤ hunk.new.stop) ∧
      piece ∈ c.applied hunks (c.moveGroups hunks) hunk group := by
  intro c hunks
  unfold rangeChanges at hpiece
  by_cases hsame : original = formatted
  · rw [if_pos hsame] at hpiece
    exact absurd hpiece List.not_mem_nil
  · rw [if_neg hsame] at hpiece
    have ⟨⟨hunk, group⟩, hmem, hpiece⟩ := List.mem_flatMap.mp hpiece
    have hstarts := (hunksOf_matched hdiff original formatted).starts hunk (List.of_mem_zip hmem).1
    exact ⟨hunk, group, hmem, ⟨hstarts.1.2, hstarts.2.2⟩, hpiece⟩

theorem rangeChanges_within :
    ∀ piece ∈ rangeChanges captureDiffSlices original formatted range,
      piece.old.stop ≤ (splitInclusive original).length := by
  intro piece hpiece
  have ⟨hunk, group, hmem, hle, hpiece⟩ := exists_hunk_of_mem hdiff original formatted range hpiece
  have hinside := Collector.applied_inside _ hle.1 hle.2 piece hpiece
  exact Nat.le_trans hinside.old_stop
    (hunksOf_within hdiff original formatted hunk (List.of_mem_zip hmem).1)

/-- The text the edits give. -/
theorem text_computeRangeEdits :
    simultaneousEdits original (computeRangeEdits captureDiffSlices original formatted range) =
      (patchFrom (splitInclusive original) (splitInclusive formatted) 0
        (rangeChanges captureDiffSlices original formatted range)).flatten := by
  have hpatch := Collector.simultaneousEdits_push (collectorOf original formatted range)
    (isLines_splitInclusive original) (rangeChanges_ordered hdiff original formatted range)
    (rangeChanges_within hdiff original formatted range)
  have htext : (collectorOf original formatted range).oldLines.flatten = original :=
    flatten_splitInclusive original
  rw [htext] at hpatch
  rw [computeRangeEdits_eq, hpatch]
  rfl

/-- The edits come in order, none reaching into the next. -/
theorem computeRangeEdits_ordered :
    let edits := computeRangeEdits captureDiffSlices original formatted range
    (∀ e ∈ edits, AtMost e.range.start e.range.stop) ∧
      edits.Pairwise fun e f => AtMost e.range.stop f.range.start := by
  intro edits
  have hin := rangeChanges_ordered hdiff original formatted range
  have hstops := rangeChanges_within hdiff original formatted range
  have hedits : edits = _ := (computeRangeEdits_eq original formatted range).trans
    (Collector.flatMap_push _ _)
  rw [hedits]
  constructor
  · intro e he
    have ⟨d, hd, heq⟩ := List.mem_map.mp he
    have hd := List.mem_of_mem_filter hd
    rw [← heq]
    exact Collector.linePosition_mono _ (hin.starts d hd).2 (hstops d hd)
  · rw [List.pairwise_map]
    have happart := hin.apart.sublist (List.filter_sublist (p := fun change =>
      !decide (slice (collectorOf original formatted range).oldLines change.old =
        slice (collectorOf original formatted range).newLines change.new)))
    apply List.Pairwise.imp_of_mem _ happart
    intro d d' _ hd' hle
    have hd' := List.mem_of_mem_filter hd'
    exact Collector.linePosition_mono _ hle
      (Nat.le_trans (hin.starts d' hd').2 (hstops d' hd'))

/-- A range of all the lines gives the formatted text. -/
theorem computeRangeEdits_all (hall : SelectsAll original range) :
    simultaneousEdits original (computeRangeEdits captureDiffSlices original formatted range) =
      formatted := by
  rw [text_computeRangeEdits hdiff]
  by_cases hsame : original = formatted
  · rw [rangeChanges, if_pos hsame, hsame]
    exact flatten_splitInclusive formatted
  · obtain ⟨hin, hfst, hnew⟩ := hunksOf_entries hdiff original formatted
      (collectorOf original formatted range)
    have htouches : ∀ old : IndexRange, old.start ≤ old.stop →
        old.stop ≤ (collectorOf original formatted range).oldLines.length →
        (collectorOf original formatted range).touches old = true := by
      intro old hle hstop
      have hfirst : (collectorOf original formatted range).selected.1 = 0 := hall.1
      have hlast : old.stop ≤ (collectorOf original formatted range).selected.2 + 1 :=
        Nat.le_trans hstop hall.2
      by_cases hempty : old.stop ≤ old.start
      · rw [Collector.touches_of_le hempty, hfirst]
        omega
      · rw [Collector.touches_of_lt (by omega), hfirst]
        omega
    have hpatch := Collector.patchFrom_allApplied htouches (fun entry hentry => hentry) hin hnew
      fun entry hentry =>
        hunksOf_within hdiff original formatted entry.1 (List.of_mem_zip hentry).1
    rw [hfst] at hpatch
    rw [rangeChanges, if_neg hsame]
    show (patchFrom (collectorOf original formatted range).oldLines
      (collectorOf original formatted range).newLines 0 _).flatten = formatted
    rw [Collector.allApplied, hpatch]
    show (patchFrom (splitInclusive original) (splitInclusive formatted) 0 _).flatten = formatted
    rw [(hunksOf_matched hdiff original formatted).patchFrom_eq, List.drop_zero]
    exact flatten_splitInclusive formatted

/-- A line in no hunk of a touched group keeps its bytes. -/
theorem keepsLine_of_not_touched {k : Nat} (hk : k < (splitInclusive original).length)
    (hout : ¬ InTouchedGroup captureDiffSlices original formatted range k) :
    KeepsLine original (computeRangeEdits captureDiffSlices original formatted range) k := by
  let c := collectorOf original formatted range
  let before : Collector := ⟨(splitInclusive original).take k, c.newLines, c.selected⟩
  have hlines := isLines_splitInclusive original
  have hin := rangeChanges_ordered hdiff original formatted range
  have hwithin := rangeChanges_within hdiff original formatted range
  have havoid : ∀ d ∈ rangeChanges captureDiffSlices original formatted range,
      d.old.stop ≤ k ∨ k < d.old.start := by
    intro d hd
    by_contra hhit
    obtain ⟨hunk, group, hmem, hle, hpiece⟩ := exists_hunk_of_mem hdiff original formatted range hd
    obtain ⟨hat, htouched⟩ := Collector.touched_of_applied hmem hle.1 hle.2 hpiece
      (show d.old.start ≤ k ∧ k < d.old.stop by omega)
    exact hout ⟨hunk, group, hmem, hat, htouched⟩
  obtain ⟨front, back, hsplit, hfront, hback⟩ := exists_split_at hin havoid
  have hplace : ∀ m, m ≤ (splitInclusive original).length →
      place original (c.linePosition m) = ((splitInclusive original).take m).flatten.length := by
    intro m hm
    have h := c.place_linePosition hlines hm
    rw [show c.oldLines.flatten = original from flatten_splitInclusive original] at h
    exact h
  have hedit : ∀ {ds : List Change} {e : TextEdit},
      e ∈ ds.flatMap (fun d => c.push d.old d.new) → ∃ d ∈ ds, e = c.textEdit d := by
    intro ds e he
    rw [c.flatMap_push] at he
    obtain ⟨d, hd, heq⟩ := List.mem_map.mp he
    exact ⟨d, List.mem_of_mem_filter hd, heq.symm⟩
  -- the edits before the line are edits of the text before the line
  have hpush : front.flatMap (fun d => c.push d.old d.new) =
      front.flatMap fun d => before.push d.old d.new := by
    apply List.flatMap_congr
    intro d hd
    have hstop := hfront d hd
    have hle := (hin.starts d (by rw [hsplit]; simp [hd])).2
    have hpos : ∀ m, m ≤ k → c.linePosition m = before.linePosition m := by
      intro m hm
      rw [c.linePosition_of_lt (Nat.lt_of_le_of_lt hm hk),
        before.linePosition_of_terminated m (terminated_of_mem_take hlines hk)]
    have hslice : slice c.oldLines d.old = slice before.oldLines d.old := by
      show IndexRange.slice (splitInclusive original) d.old =
        IndexRange.slice ((splitInclusive original).take k) d.old
      rw [IndexRange.slice, IndexRange.slice, List.take_take, Nat.min_eq_left hstop]
    rw [Collector.push, Collector.push, hslice, hpos _ hstop, hpos _ (Nat.le_trans hle hstop)]
  have hsplit_edits : computeRangeEdits captureDiffSlices original formatted range =
      front.flatMap (fun d => c.push d.old d.new) ++ back.flatMap fun d => c.push d.old d.new := by
    rw [computeRangeEdits_eq, hsplit, List.flatMap_append]
  have hin' : InOrder 0 (front ++ back) := by
    rw [← hsplit]
    exact hin
  have htext : simultaneousEdits ((splitInclusive original).take k).flatten
      (front.flatMap fun d => c.push d.old d.new) =
      (patchFrom ((splitInclusive original).take k) (splitInclusive formatted) 0 front).flatten := by
    rw [hpush]
    apply before.simultaneousEdits_push (isLines_take hlines k)
      (hin'.sublist (List.sublist_append_left front back))
    intro d hd
    show d.old.stop ≤ ((splitInclusive original).take k).length
    rw [List.length_take, Nat.min_eq_left (Nat.le_of_lt hk)]
    exact hfront d hd
  refine ⟨_, _, (patchFrom (splitInclusive original) (splitInclusive formatted) (k + 1) back).flatten,
    hsplit_edits, ?_, ?_, ?_⟩
  · intro e he
    obtain ⟨d, hd, heq⟩ := hedit he
    rw [heq]
    show place original (c.linePosition d.old.stop) ≤ _
    rw [hplace _ (hwithin d (by rw [hsplit]; simp [hd]))]
    exact length_flatten_take_le _ (hfront d hd)
  · intro e he
    obtain ⟨d, hd, heq⟩ := hedit he
    have hmem : d ∈ rangeChanges captureDiffSlices original formatted range := by
      rw [hsplit]
      simp [hd]
    rw [heq]
    show _ ≤ place original (c.linePosition d.old.start)
    rw [hplace _ (Nat.le_trans (hin.starts d hmem).2 (hwithin d hmem))]
    exact length_flatten_take_le _ (hback d hd)
  · rw [text_computeRangeEdits hdiff, hsplit, htext,
      patchFrom_kept hin' (Nat.zero_le k) hk hfront hback, List.getElem?_eq_getElem hk]
    simp

/-- The edits are well formed, complete where every line is selected, and leave
alone what is in no hunk of a touched group. -/
theorem computeRangeEdits_wellFormed :
    ((∀ e ∈ computeRangeEdits captureDiffSlices original formatted range,
        AtMost e.range.start e.range.stop) ∧
      (computeRangeEdits captureDiffSlices original formatted range).Pairwise fun e f =>
        AtMost e.range.stop f.range.start) ∧
    (SelectsAll original range →
      simultaneousEdits original (computeRangeEdits captureDiffSlices original formatted range) =
        formatted) ∧
    ∀ k < (splitInclusive original).length,
      ¬ InTouchedGroup captureDiffSlices original formatted range k →
        KeepsLine original (computeRangeEdits captureDiffSlices original formatted range) k :=
  ⟨computeRangeEdits_ordered hdiff original formatted range,
    computeRangeEdits_all hdiff original formatted range,
    fun _ => keepsLine_of_not_touched hdiff original formatted range⟩

end Lines

end Diff

theorem coversLines_replaceAll : CoversLines replaceAll := by
  intro oldLines newLines
  simp [replaceAll, Covering, DiffOp.oldRange, DiffOp.newRange, DiffOp.isEqual]

/-- A range of both lines, the last without a line break; neither line is one of
the formatted text, so that the diff is one replacement. -/
theorem computeRangeEdits_wellFormed_both :
    simultaneousEdits " a\n b".toList
      (computeRangeEdits replaceAll " a\n b".toList "a\nb\n".toList ⟨⟨0, 0⟩, ⟨1, 2⟩⟩) =
        "a\nb\n".toList :=
  (computeRangeEdits_wellFormed coversLines_replaceAll _ _ _).2.1 (by decide +kernel)

end PhpantomLsp.Formatting
