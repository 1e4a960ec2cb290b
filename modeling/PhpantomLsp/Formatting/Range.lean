import PhpantomLsp.Lib.Patches
import PhpantomLsp.Lib.UnionFind
import PhpantomLsp.Text.Ascii
import PhpantomLsp.Text.Lines
import PhpantomLsp.Text.TextEdits

/-!
# Narrowing a formatted document to a range

The whole document is formatted and diffed line by line against the original;
the changed hunks that touch the selected lines are returned as edits.  A hunk
of unchanged line count is split around the lines the formatter only respaced,
and hunks linked by a moved line go together.

The edits patch the line list of the original (`text_computeRangeEdits`): a text
is kept or changed by whole lines, and no two lines run together, since an
equal run stands between any two hunks.
-/

namespace PhpantomLsp.Formatting

open PhpantomLsp.Lib PhpantomLsp.Lib.IndexRange
open PhpantomLsp.Text

abbrev Line := List Char

/-- `similar::DiffOp` -/
inductive DiffOp where
  | equal (oldIndex newIndex len : Nat)
  | delete (oldIndex oldLen newIndex : Nat)
  | insert (oldIndex newIndex newLen : Nat)
  | replace (oldIndex oldLen newIndex newLen : Nat)
deriving DecidableEq

namespace DiffOp

def oldRange : DiffOp → IndexRange
  | equal oldIndex _ len => ⟨oldIndex, oldIndex + len⟩
  | delete oldIndex oldLen _ => ⟨oldIndex, oldIndex + oldLen⟩
  | insert oldIndex _ _ => ⟨oldIndex, oldIndex⟩
  | replace oldIndex oldLen _ _ => ⟨oldIndex, oldIndex + oldLen⟩

def newRange : DiffOp → IndexRange
  | equal _ newIndex len => ⟨newIndex, newIndex + len⟩
  | delete _ _ newIndex => ⟨newIndex, newIndex⟩
  | insert _ newIndex newLen => ⟨newIndex, newIndex + newLen⟩
  | replace _ _ newIndex newLen => ⟨newIndex, newIndex + newLen⟩

def isEqual : DiffOp → Bool
  | equal .. => true
  | _ => false

end DiffOp

/-- The loop of `hunks`; `last` is the last hunk while it is open. -/
def hunksFrom (last : Option Change) : List DiffOp → List Change
  | [] => last.toList
  | op :: rest =>
      if op.isEqual then last.toList ++ hunksFrom none rest
      else
        match last with
        | some hunk =>
            hunksFrom (some ⟨⟨hunk.old.start, op.oldRange.stop⟩, ⟨hunk.new.start, op.newRange.stop⟩⟩)
              rest
        | none => hunksFrom (some ⟨op.oldRange, op.newRange⟩) rest

/-- The changed runs of lines; adjacent deletions and insertions are one. -/
def hunks (ops : List DiffOp) : List Change := hunksFrom none ops

/-- The first and last line the range selects, inclusive. -/
def selectedLines (range : Range) : Nat × Nat :=
  let first := range.start.line
  let last :=
    if range.stop.character = 0 ∧ first < range.stop.line then range.stop.line - 1
    else range.stop.line
  (first, max last first)

/-- A line without its whitespace. -/
def tokens (line : Line) : List Char := line.filter fun c => !isWhitespace c

def sameTokens (a b : Line) : Bool := tokens a == tokens b

structure Collector where
  oldLines : List Line
  newLines : List Line
  selected : Nat × Nat

namespace Collector

variable (c : Collector)

/-- The entries of `deleted`: the contents the hunks delete, blank lines left
out, each with the index of its hunk. -/
def deleted (hunks : List Change) : List (List Char × Nat) :=
  hunks.zipIdx.flatMap fun (hunk, index) =>
    (slice c.oldLines hunk.old).filterMap fun line =>
      let key := tokens line
      if key ≠ [] then some (key, index) else none

/-- The pairs of hunks the second loop of `move_groups` joins. -/
def moves (hunks : List Change) : List (Nat × Nat) :=
  hunks.zipIdx.flatMap fun (hunk, index) =>
    (slice c.newLines hunk.new).flatMap fun line =>
      (c.deleted hunks).filterMap fun (key, other) =>
        if key = tokens line ∧ other ≠ index then some (index, other) else none

/-- Each hunk's group, named by its lowest hunk index. -/
def moveGroups (hunks : List Change) : List Nat :=
  let forest := (c.moves hunks).foldl (fun f link => f.union link.1 link.2) Forest.singletons
  forest.roots (List.range hunks.length)

/-- Whether replacing original lines `old` is inside the selection. -/
def touches (old : IndexRange) : Bool :=
  let (first, last) := c.selected
  if old.isEmpty then first ≤ old.start ∧ old.start ≤ last + 1
  else old.start ≤ last ∧ first < old.stop

/-- The position at the start of original line `line`, or the end of the text
for the line past the last. -/
def linePosition (line : Nat) : Position :=
  match c.oldLines.getLast? with
  | some last =>
      if line = c.oldLines.length ∧ ¬ Terminated last then ⟨line - 1, utf16Len last⟩
      else ⟨line, 0⟩
  | none => ⟨line, 0⟩

def push (old new : IndexRange) : List TextEdit :=
  if slice c.oldLines old = slice c.newLines new then []
  else [⟨⟨c.linePosition old.start, c.linePosition old.stop⟩, (slice c.newLines new).flatten⟩]

def edit (old new : IndexRange) : List TextEdit :=
  if c.touches old then c.push old new else []

/-- The formatted lines in the places of `lines`, of a hunk of unchanged line
count. -/
def toNew (old new lines : IndexRange) : IndexRange :=
  let start := new.start + (lines.start - old.start)
  ⟨start, start + lines.length⟩

/-- The loop of `hunk`, over the lines that are left. -/
def hunkFrom (old new : IndexRange) (changedFrom : Nat) : List Nat → List TextEdit
  | [] =>
      let lines : IndexRange := ⟨changedFrom, old.stop⟩
      c.edit lines (toNew old new lines)
  | line :: rest =>
      if sameTokens (c.oldLines[line]?.getD [])
          (c.newLines[(toNew old new ⟨line, line⟩).start]?.getD []) then
        c.edit ⟨changedFrom, line⟩ (toNew old new ⟨changedFrom, line⟩) ++
          c.edit ⟨line, line + 1⟩ (toNew old new ⟨line, line + 1⟩) ++
            hunkFrom old new (line + 1) rest
      else hunkFrom old new changedFrom rest

def hunk (old new : IndexRange) : List TextEdit :=
  if old.length ≠ new.length then c.edit old new
  else c.hunkFrom old new old.start old.indices

end Collector

section Diff

variable (captureDiffSlices : List Line → List Line → List DiffOp)

/-- The edits that turn `original` into `formatted` within `range`. -/
def computeRangeEdits (original formatted : List Char) (range : Range) : List TextEdit :=
  if original = formatted then []
  else
    let oldLines := splitInclusive original
    let newLines := splitInclusive formatted
    let c : Collector := ⟨oldLines, newLines, selectedLines range⟩
    let hunks := hunks (captureDiffSlices oldLines newLines)
    let groups := c.moveGroups hunks
    (hunks.zip groups).flatMap fun (hunk, group) =>
      if groups.count group = 1 then c.hunk hunk.old hunk.new
      else if (hunks.zip groups).any fun (other, g) => g == group && c.touches other.old then
        c.push hunk.old hunk.new
      else []

/-- The operations cover both line lists in order, from `i` of the one and `j`
of the other on, and the equal runs hold equal lines. -/
def Script (oldLines newLines : List Line) : Nat → Nat → List DiffOp → Prop
  | i, j, [] => i = oldLines.length ∧ j = newLines.length
  | i, j, op :: rest =>
      op.oldRange.start = i ∧ op.newRange.start = j ∧
        (op.isEqual = true → op.oldRange.start < op.oldRange.stop ∧
          op.newRange.start < op.newRange.stop ∧
          slice oldLines op.oldRange = slice newLines op.newRange) ∧
        Script oldLines newLines op.oldRange.stop op.newRange.stop rest

/-- What the diff promises of its operations. -/
def DiffsLines : Prop :=
  ∀ oldLines newLines, Script oldLines newLines 0 0 (captureDiffSlices oldLines newLines)

end Diff

/-! ## The hunks of a diff -/

section Hunks

variable {oldLines newLines : List Line}

theorem DiffOp.ranges_le (op : DiffOp) :
    op.oldRange.start ≤ op.oldRange.stop ∧ op.newRange.start ≤ op.newRange.stop := by
  cases op <;> simp [DiffOp.oldRange, DiffOp.newRange]

theorem Script.bounds {i j : Nat} {ops : List DiffOp} (h : Script oldLines newLines i j ops) :
    i ≤ oldLines.length ∧ j ≤ newLines.length := by
  induction ops generalizing i j with
  | nil => exact ⟨Nat.le_of_eq h.1, Nat.le_of_eq h.2⟩
  | cons op rest ih =>
      have hle := op.ranges_le
      have ih := ih h.2.2.2
      have hi := h.1
      have hj := h.2.1
      omega

/-- The hunks start no earlier than the operations, or the open hunk. -/
theorem hunksFrom_starts {i j : Nat} {ops : List DiffOp} (h : Script oldLines newLines i j ops) :
    (∀ d ∈ hunksFrom none ops, i ≤ d.old.start ∧ j ≤ d.new.start) ∧
      ∀ c : Change, c.old.start ≤ i → c.new.start ≤ j →
        ∀ d ∈ hunksFrom (some c) ops, c.old.start ≤ d.old.start ∧ c.new.start ≤ d.new.start := by
  induction ops generalizing i j with
  | nil => simp [hunksFrom]
  | cons op rest ih =>
      have hle := op.ranges_le
      have ⟨hi, hj, _, hrest⟩ := h
      have ⟨hnone, hsome⟩ := ih hrest
      by_cases hop : op.isEqual = true
      · simp only [hunksFrom, hop, if_true]
        constructor
        · intro d hd
          have := hnone d hd
          omega
        · intro c hc hc' d hd
          rcases List.mem_append.mp hd with hd | hd
          · rw [Option.toList_some, List.mem_singleton] at hd
            rw [hd]
            exact ⟨Nat.le_refl _, Nat.le_refl _⟩
          · have := hnone d hd
            omega
      · simp only [hunksFrom, hop]
        constructor
        · intro d hd
          have := hsome ⟨op.oldRange, op.newRange⟩ hle.1 hle.2 d hd
          simp only at this
          omega
        · intro c hc hc' d hd
          exact hsome ⟨⟨c.old.start, op.oldRange.stop⟩, ⟨c.new.start, op.newRange.stop⟩⟩
            (by simp only; omega) (by simp only; omega) d hd

theorem hunksFrom_aligned {i j : Nat} {ops : List DiffOp} (h : Script oldLines newLines i j ops) :
    (∀ i' j', i' ≤ i → j' ≤ j → slice oldLines ⟨i', i⟩ = slice newLines ⟨j', j⟩ →
        Aligned oldLines newLines i' j' (hunksFrom none ops)) ∧
      ∀ c : Change, c.old.start ≤ c.old.stop → c.new.start ≤ c.new.stop →
        c.old.stop = i → c.new.stop = j → ∀ i' j', i' ≤ c.old.start → j' ≤ c.new.start →
        slice oldLines ⟨i', c.old.start⟩ = slice newLines ⟨j', c.new.start⟩ →
        Aligned oldLines newLines i' j' (hunksFrom (some c) ops) := by
  induction ops generalizing i j with
  | nil =>
      have hold : oldLines.drop i = [] := List.drop_of_length_le (Nat.le_of_eq h.1.symm)
      have hnew : newLines.drop j = [] := List.drop_of_length_le (Nat.le_of_eq h.2.symm)
      constructor
      · intro i' j' hi hj hgap
        show oldLines.drop i' = newLines.drop j'
        rw [← slice_append_drop oldLines hi, ← slice_append_drop newLines hj, hgap, hold, hnew]
      · intro c hc hc' hci hcj i' j' hi hj hgap
        refine ⟨⟨hi, hc⟩, ⟨hj, hc'⟩, hgap, by simp, ?_⟩
        show oldLines.drop c.old.stop = newLines.drop c.new.stop
        rw [hci, hcj, hold, hnew]
  | cons op rest ih =>
      have hle := op.ranges_le
      have ⟨hi, hj, hequal, hrest⟩ := h
      have ⟨hnone, hsome⟩ := ih hrest
      by_cases hop : op.isEqual = true
      · have ⟨hlt, hlt', hsame⟩ := hequal hop
        simp only [hunksFrom, hop, if_true]
        constructor
        · intro i' j' hi' hj' hgap
          apply hnone i' j' (by omega) (by omega)
          rw [← slice_append oldLines hi' (show i ≤ op.oldRange.stop by omega),
            ← slice_append newLines hj' (show j ≤ op.newRange.stop by omega), hgap, ← hi, ← hj]
          exact congrArg _ hsame
        · intro c hc hc' hci hcj i' j' hi' hj' hgap
          refine ⟨⟨hi', hc⟩, ⟨hj', hc'⟩, hgap, ?_, ?_⟩
          · intro d hd
            have := (hunksFrom_starts hrest).1 d hd
            omega
          · apply hnone _ _ (by omega) (by omega)
            rw [hci, hcj, ← hi, ← hj]
            exact hsame
      · simp only [hunksFrom, hop]
        constructor
        · intro i' j' hi' hj' hgap
          apply hsome ⟨op.oldRange, op.newRange⟩ hle.1 hle.2 rfl rfl i' j'
          · show i' ≤ op.oldRange.start
            omega
          · show j' ≤ op.newRange.start
            omega
          · show slice oldLines ⟨i', op.oldRange.start⟩ = slice newLines ⟨j', op.newRange.start⟩
            rw [hi, hj, hgap]
        · intro c hc hc' hci hcj i' j' hi' hj' hgap
          apply hsome ⟨⟨c.old.start, op.oldRange.stop⟩, ⟨c.new.start, op.newRange.stop⟩⟩ _ _ rfl rfl
            i' j' hi' hj' hgap
          · show c.old.start ≤ op.oldRange.stop
            omega
          · show c.new.start ≤ op.newRange.stop
            omega

/-- The lines outside the hunks are the same. -/
theorem hunks_aligned {ops : List DiffOp} (h : Script oldLines newLines 0 0 ops) :
    Aligned oldLines newLines 0 0 (hunks ops) :=
  (hunksFrom_aligned h).1 0 0 (Nat.le_refl _) (Nat.le_refl _) (by rw [slice_self, slice_self])

theorem hunksFrom_stops {i j : Nat} {ops : List DiffOp} (h : Script oldLines newLines i j ops)
    {last : Option Change}
    (hlast : ∀ c ∈ last, c.old.stop ≤ oldLines.length ∧ c.new.stop ≤ newLines.length) :
    ∀ d ∈ hunksFrom last ops, d.old.stop ≤ oldLines.length ∧ d.new.stop ≤ newLines.length := by
  induction ops generalizing i j last with
  | nil =>
      intro d hd
      exact hlast d (Option.mem_toList.mp hd)
  | cons op rest ih =>
      have ⟨_, _, _, hrest⟩ := h
      have hstop := hrest.bounds
      by_cases hop : op.isEqual = true
      · simp only [hunksFrom, hop, if_true]
        intro d hd
        rcases List.mem_append.mp hd with hd | hd
        · exact hlast d (Option.mem_toList.mp hd)
        · exact ih hrest (by simp) d hd
      · cases last with
        | none =>
            simp only [hunksFrom, hop]
            exact ih hrest (by simpa using hstop)
        | some c =>
            simp only [hunksFrom, hop]
            exact ih hrest (by simpa using hstop)

theorem hunks_stops {ops : List DiffOp} (h : Script oldLines newLines 0 0 ops) :
    ∀ d ∈ hunks ops, d.old.stop ≤ oldLines.length ∧ d.new.stop ≤ newLines.length :=
  hunksFrom_stops h (by simp)

end Hunks

/-! ## Lines that are put together -/

section Seams

variable {oldLines newLines : List Line}

theorem mem_getLast?_take {lines : List Line} {s : IndexRange} {line : Line}
    (hline : line ∈ (slice lines s).getLast?) : line ∈ (lines.take s.stop).getLast? := by
  have hline : ((lines.take s.stop).drop s.start).getLast? = some line := hline
  rw [List.getLast?_drop] at hline
  by_cases hlen : (lines.take s.stop).length ≤ s.start
  · rw [if_pos hlen] at hline
    exact absurd hline (by simp)
  · rw [if_neg hlen] at hline
    exact hline

theorem terminated_of_slice {lines : List Line} (h : IsLines lines) {s : IndexRange} {line : Line}
    (hline : line ∈ (slice lines s).getLast?) (hstop : s.stop < lines.length) :
    Terminated line := by
  have hsplit : (lines.take s.stop ++ lines.drop s.stop).IsChain fun line _ => Terminated line := by
    rw [List.take_append_drop]
    exact h.terminated
  have hnext : lines[s.stop] ∈ (lines.drop s.stop).head? := by
    rw [List.head?_drop, List.getElem?_eq_getElem hstop]
    rfl
  exact (List.isChain_append.mp hsplit).2.2 line (mem_getLast?_take hline) _ hnext

/-- The change leaves no line that runs into the next. -/
structure Seamed (oldLines newLines : List Line) (c : Change) : Prop where
  before : oldLines.length ≤ c.old.start → slice newLines c.new ≠ [] →
    ∀ line ∈ oldLines.getLast?, Terminated line
  after : newLines.length ≤ c.new.stop → oldLines.length ≤ c.old.stop

/-- Past the last line, a patch holds what is inserted there. -/
theorem exists_insertion {i : Nat} {cs : List Change} (hin : InOrder i cs)
    (hi : oldLines.length ≤ i) (hne : patchFrom oldLines newLines i cs ≠ []) :
    ∃ c ∈ cs, slice newLines c.new ≠ [] := by
  induction cs generalizing i with
  | nil => exact absurd (List.drop_of_length_le hi) hne
  | cons c rest ih =>
      by_cases hnew : slice newLines c.new = []
      · have hkept : slice oldLines ⟨i, c.old.start⟩ = [] := by
          apply List.drop_of_length_le
          rw [List.length_take]
          show min c.old.start oldLines.length ≤ i
          omega
        have hrest : patchFrom oldLines newLines c.old.stop rest ≠ [] := by
          intro hrest
          apply hne
          show slice oldLines ⟨i, c.old.start⟩ ++ slice newLines c.new ++ _ = []
          rw [hkept, hnew, hrest]
          rfl
        have hle := hin.head
        have ⟨d, hd, hne⟩ := ih hin.tail (by omega) hrest
        exact ⟨d, by simp [hd], hne⟩
      · exact ⟨c, by simp, hnew⟩

/-- A patch by whole lines is made up of lines. -/
theorem isLines_patchFrom (hold : IsLines oldLines) (hnew : IsLines newLines) {i : Nat}
    {cs : List Change} (hin : InOrder i cs)
    (hapart : cs.Pairwise fun c d => c.new.stop ≤ d.new.start)
    (hseams : ∀ c ∈ cs, Seamed oldLines newLines c) :
    IsLines (patchFrom oldLines newLines i cs) := by
  induction cs generalizing i with
  | nil =>
      exact ⟨fun line hline => hold.isLine line (List.mem_of_mem_drop hline),
        hold.terminated.drop i⟩
  | cons c rest ih =>
      have happart := List.pairwise_cons.mp hapart
      have ih := ih hin.tail happart.2 fun d hd => hseams d (by simp [hd])
      have hc := hseams c (by simp)
      show IsLines (slice oldLines ⟨i, c.old.start⟩ ++ slice newLines c.new ++
        patchFrom oldLines newLines c.old.stop rest)
      constructor
      · intro line hline
        rcases List.mem_append.mp hline with hline | hline
        · rcases List.mem_append.mp hline with hline | hline
          · exact hold.isLine line (mem_of_mem_slice hline)
          · exact hnew.isLine line (mem_of_mem_slice hline)
        · exact ih.isLine line hline
      rw [List.append_assoc]
      apply List.IsChain.append
      · exact (hold.terminated.take _).drop _
      · apply List.IsChain.append ((hnew.terminated.take _).drop _) ih.terminated
        intro line hline next hnext
        by_cases hstop : c.new.stop < newLines.length
        · exact terminated_of_slice hnew hline hstop
        · -- the formatted text ends with this change, so the original does
          have hne : patchFrom oldLines newLines c.old.stop rest ≠ [] :=
            List.ne_nil_of_mem (List.mem_of_mem_head? hnext)
          have ⟨d, hd, hins⟩ := exists_insertion hin.tail (hc.after (by omega)) hne
          have := happart.1 d hd
          apply absurd (List.drop_of_length_le _) hins
          rw [List.length_take]
          omega
      · intro line hline next hnext
        by_cases hstart : c.old.start < oldLines.length
        · exact terminated_of_slice hold hline hstart
        · -- only insertions are left
          have hlast : line ∈ oldLines.getLast? := by
            have := mem_getLast?_take hline
            rw [List.take_of_length_le (by simp only; omega)] at this
            exact this
          by_cases hins : slice newLines c.new = []
          · have hne : patchFrom oldLines newLines c.old.stop rest ≠ [] := by
              rw [hins, List.nil_append] at hnext
              exact List.ne_nil_of_mem (List.mem_of_mem_head? hnext)
            have hle := hin.head
            have ⟨d, hd, hins⟩ := exists_insertion hin.tail (by omega) hne
            have hle' := hin.tail.starts d hd
            exact (hseams d (by simp [hd])).before (by omega) hins line hlast
          · exact hc.before (by omega) hins line hlast

/-- Hunks that equal lines stand between are between whole lines. -/
theorem seamed_of_aligned (hnew : IsLines newLines) {i j : Nat}
    {cs : List Change} (h : Aligned oldLines newLines i j cs)
    (hstops : ∀ c ∈ cs, c.old.stop ≤ oldLines.length ∧ c.new.stop ≤ newLines.length)
    (hi : i = 0 ∨ ∀ c ∈ cs, i < c.old.start) : ∀ c ∈ cs, Seamed oldLines newLines c := by
  induction cs generalizing i j with
  | nil => simp
  | cons c rest ih =>
      have ⟨hco, hcn, hgap, hnext, hrest⟩ := h
      have hstop := hstops c (by simp)
      intro d hd
      rcases List.mem_cons.mp hd with rfl | hd
      · constructor
        · intro hstart hins line hline
          -- the line before the hunk is a line of the formatted text, not its last
          have hlt : d.new.start < newLines.length := by
            by_contra hge
            apply hins
            apply List.drop_of_length_le
            rw [List.length_take]
            omega
          have hpos : 0 < oldLines.length := List.length_pos_of_mem (List.mem_of_getLast? hline)
          have hilt : i < oldLines.length := by
            rcases hi with hi | hi
            · omega
            · have := hi d (by simp)
              omega
          have hbefore : line ∈ (slice oldLines ⟨i, d.old.start⟩).getLast? := by
            show ((oldLines.take d.old.start).drop i).getLast? = some line
            rw [List.take_of_length_le hstart, List.getLast?_drop, if_neg (by omega)]
            exact hline
          rw [hgap] at hbefore
          exact terminated_of_slice hnew hbefore hlt
        · intro hge
          cases rest with
          | nil =>
              have hend : oldLines.drop d.old.stop = newLines.drop d.new.stop := hrest
              rw [List.drop_of_length_le hge] at hend
              exact List.drop_eq_nil_iff.mp hend
          | cons e rest =>
              have hlater := hnext e (by simp)
              have hle := (hrest.starts e (by simp)).2
              have := hstops e (by simp)
              omega
      · exact ih hrest (fun e he => hstops e (by simp [he]))
          (Or.inr fun e he => (hnext e he).1) d hd

end Seams

/-! ## The edits as changes -/

section Edits

variable (c : Collector)

/-- The edit for a change. -/
def Collector.textEdit (change : Change) : TextEdit :=
  ⟨⟨c.linePosition change.old.start, c.linePosition change.old.stop⟩,
    (slice c.newLines change.new).flatten⟩

theorem Collector.flatMap_push (changes : List Change) :
    (changes.flatMap fun change => c.push change.old change.new) =
      (changes.filter fun change =>
        !decide (slice c.oldLines change.old = slice c.newLines change.new)).map c.textEdit := by
  induction changes with
  | nil => rfl
  | cons change rest ih =>
      rw [List.flatMap_cons, ih]
      by_cases hsame : slice c.oldLines change.old = slice c.newLines change.new
      · simp [Collector.push, hsame]
      · simp [Collector.push, hsame, Collector.textEdit]

/-- A line starts after the lines before it. -/
theorem Collector.place_linePosition (hlines : IsLines c.oldLines) {k : Nat}
    (hk : k ≤ c.oldLines.length) :
    place c.oldLines.flatten (c.linePosition k) = (c.oldLines.take k).flatten.length := by
  have htext : c.oldLines.flatten.take (c.oldLines.take k).flatten.length =
      (c.oldLines.take k).flatten := by
    conv => lhs; rw [← List.take_append_drop k c.oldLines]
    rw [List.flatten_append, List.take_left']
    rw [List.take_append_drop]
  have hafter : Position.origin.after (c.oldLines.take k).flatten = c.linePosition k := by
    unfold linePosition
    cases hlast : c.oldLines.getLast? with
    | none =>
        have hnil := List.getLast?_eq_none_iff.mp hlast
        rw [hnil] at hk ⊢
        rw [Nat.le_zero.mp hk]
        rfl
    | some last =>
        by_cases hend : k = c.oldLines.length
        · rw [hend, List.take_length, after_flatten_lines hlines hlast]
          by_cases hterm : Terminated last
          · simp [hterm]
          · simp [hterm]
        · rw [after_take_lines hlines (by omega)]
          simp [hend]
  have hlen : (c.oldLines.take k).flatten.length ≤ c.oldLines.flatten.length := by
    rw [← htext, List.length_take]
    exact Nat.min_le_right _ _
  have h := place_after hlen
  rw [htext, hafter] at h
  exact h

/-- The edits for changes in order patch the lines. -/
theorem Collector.simultaneousEdits_textEdit (hlines : IsLines c.oldLines) {changes : List Change}
    (hin : InOrder 0 changes) (hstops : ∀ d ∈ changes, d.old.stop ≤ c.oldLines.length) :
    simultaneousEdits c.oldLines.flatten (changes.map c.textEdit) =
      (patchFrom c.oldLines c.newLines 0 changes).flatten := by
  have hsplices : (changes.map c.textEdit).map (TextEdit.splice c.oldLines.flatten) =
      changes.map (Change.splice c.oldLines c.newLines) := by
    rw [List.map_map]
    apply List.map_congr_left
    intro d hd
    have hle := (hin.starts d hd).2
    have hstop := hstops d hd
    simp only [Function.comp_apply, textEdit, TextEdit.splice, Change.splice]
    rw [c.place_linePosition hlines (Nat.le_trans hle hstop), c.place_linePosition hlines hstop]
  rw [simultaneousEdits, hsplices, simultaneous_splice hin hstops]

/-- Pushing changes one after the other. -/
theorem Collector.simultaneousEdits_push (hlines : IsLines c.oldLines) {changes : List Change}
    (hin : InOrder 0 changes) (hstops : ∀ d ∈ changes, d.old.stop ≤ c.oldLines.length) :
    simultaneousEdits c.oldLines.flatten
        (changes.flatMap fun change => c.push change.old change.new) =
      (patchFrom c.oldLines c.newLines 0 changes).flatten := by
  rw [c.flatMap_push, c.simultaneousEdits_textEdit hlines (hin.sublist List.filter_sublist)
    (fun d hd => hstops d (List.mem_of_mem_filter hd))]
  rw [patchFrom_filter _ hin]
  intro change _ hsame
  simpa using hsame

end Edits

/-! ## The changes that are applied -/

section Applied

namespace Collector

variable (c : Collector)

/-- The line ranges `hunk` cuts a hunk of unchanged line count into. -/
def cutFrom (old new : IndexRange) (changedFrom : Nat) : List Nat → List IndexRange
  | [] => [⟨changedFrom, old.stop⟩]
  | line :: rest =>
      if sameTokens (c.oldLines[line]?.getD [])
          (c.newLines[(toNew old new ⟨line, line⟩).start]?.getD []) then
        ⟨changedFrom, line⟩ :: ⟨line, line + 1⟩ :: cutFrom old new (line + 1) rest
      else cutFrom old new changedFrom rest

/-- The changes a hunk that stands alone is cut into. -/
def pieces (hunk : Change) : List Change :=
  if hunk.old.length ≠ hunk.new.length then [hunk]
  else (c.cutFrom hunk.old hunk.new hunk.old.start hunk.old.indices).map fun lines =>
    ⟨lines, toNew hunk.old hunk.new lines⟩

/-- The changes of one hunk, in its group, that are applied. -/
def applied (hunks : List Change) (groups : List Nat) (hunk : Change) (group : Nat) :
    List Change :=
  if groups.count group = 1 then (c.pieces hunk).filter fun piece => c.touches piece.old
  else if (hunks.zip groups).any fun (other, g) => g == group && c.touches other.old then [hunk]
  else []

theorem hunkFrom_eq (old new : IndexRange) (changedFrom : Nat) (lines : List Nat) :
    c.hunkFrom old new changedFrom lines =
      (c.cutFrom old new changedFrom lines).flatMap fun lines =>
        c.edit lines (toNew old new lines) := by
  induction lines generalizing changedFrom with
  | nil => simp [hunkFrom, cutFrom]
  | cons line rest ih =>
      unfold hunkFrom cutFrom
      by_cases hsame : sameTokens (c.oldLines[line]?.getD [])
          (c.newLines[(toNew old new ⟨line, line⟩).start]?.getD [])
      · simp [hsame, ih]
      · simp [hsame, ih]

theorem edit_eq (old new : IndexRange) :
    c.edit old new = ([⟨old, new⟩].filter fun piece : Change => c.touches piece.old).flatMap
      fun change => c.push change.old change.new := by
  by_cases htouch : c.touches old = true
  · simp [edit, htouch]
  · simp [edit, htouch]

theorem flatMap_edit (changes : List Change) :
    (changes.flatMap fun change => c.edit change.old change.new) =
      (changes.filter fun piece => c.touches piece.old).flatMap
        fun change => c.push change.old change.new := by
  induction changes with
  | nil => rfl
  | cons change rest ih =>
      rw [List.flatMap_cons, ih, edit_eq, ← List.flatMap_append, ← List.filter_append,
        List.singleton_append]

theorem hunk_eq (hunk : Change) :
    c.hunk hunk.old hunk.new =
      ((c.pieces hunk).filter fun piece => c.touches piece.old).flatMap
        fun change => c.push change.old change.new := by
  rw [← flatMap_edit]
  unfold Collector.hunk pieces
  by_cases hlen : hunk.old.length ≠ hunk.new.length
  · simp [hlen]
  · rw [if_neg hlen, if_neg hlen, hunkFrom_eq, List.flatMap_map]

/-! ### Pieces -/

/-- The piece is part of the hunk, on both sides. -/
structure Inside (hunk piece : Change) : Prop where
  old_start : hunk.old.start ≤ piece.old.start
  old_le : piece.old.start ≤ piece.old.stop
  old_stop : piece.old.stop ≤ hunk.old.stop
  new_start : hunk.new.start ≤ piece.new.start
  new_le : piece.new.start ≤ piece.new.stop
  new_stop : piece.new.stop ≤ hunk.new.stop

theorem Inside.refl {hunk : Change} (hold : hunk.old.start ≤ hunk.old.stop)
    (hnew : hunk.new.start ≤ hunk.new.stop) : Inside hunk hunk :=
  ⟨Nat.le_refl _, hold, Nat.le_refl _, Nat.le_refl _, hnew, Nat.le_refl _⟩

theorem cutFrom_within (old new : IndexRange) {changedFrom line n : Nat}
    (hfrom : changedFrom ≤ line) (hstop : line + n = old.stop) :
    (∀ lines ∈ c.cutFrom old new changedFrom (List.range' line n),
        changedFrom ≤ lines.start ∧ lines.start ≤ lines.stop ∧ lines.stop ≤ old.stop) ∧
      (c.cutFrom old new changedFrom (List.range' line n)).Pairwise fun l r => l.stop ≤ r.start := by
  induction n generalizing changedFrom line with
  | zero =>
      simp only [List.range'_zero, cutFrom, List.mem_singleton, forall_eq, List.pairwise_singleton,
        and_true]
      omega
  | succ n ih =>
      rw [List.range'_succ, cutFrom]
      by_cases hsame : sameTokens (c.oldLines[line]?.getD [])
          (c.newLines[(toNew old new ⟨line, line⟩).start]?.getD []) = true
      · rw [if_pos hsame]
        have ⟨hwithin, hpairwise⟩ := ih (Nat.le_refl (line + 1)) (by omega)
        constructor
        · intro lines hlines
          rcases List.mem_cons.mp hlines with rfl | hlines
          · simp only
            omega
          rcases List.mem_cons.mp hlines with rfl | hlines
          · simp only
            omega
          · have := hwithin lines hlines
            omega
        · apply List.pairwise_cons.mpr
          constructor
          · intro lines hlines
            rcases List.mem_cons.mp hlines with rfl | hlines
            · exact Nat.le_refl _
            · have := hwithin lines hlines
              simp only
              omega
          · exact List.pairwise_cons.mpr ⟨fun lines hlines => (hwithin lines hlines).1, hpairwise⟩
      · rw [if_neg hsame]
        exact ih (by omega) (by omega)

/-- Lines of the hunk have their places in the formatted text. -/
theorem toNew_eq {old new lines : IndexRange} (hstart : old.start ≤ lines.start)
    (hle : lines.start ≤ lines.stop) :
    toNew old new lines =
      ⟨new.start + (lines.start - old.start), new.start + (lines.stop - old.start)⟩ := by
  simp only [toNew, IndexRange.length, IndexRange.mk.injEq, true_and]
  omega

section Hunk

variable {hunk : Change} (hold : hunk.old.start ≤ hunk.old.stop)
  (hnew : hunk.new.start ≤ hunk.new.stop)

include hold hnew in
theorem pieces_inside : ∀ piece ∈ c.pieces hunk, Inside hunk piece := by
  intro piece hpiece
  unfold pieces at hpiece
  by_cases hlen : hunk.old.length ≠ hunk.new.length
  · rw [if_pos hlen, List.mem_singleton] at hpiece
    rw [hpiece]
    exact Inside.refl hold hnew
  · rw [if_neg hlen] at hpiece
    have ⟨lines, hlines, heq⟩ := List.mem_map.mp hpiece
    have hwithin := (c.cutFrom_within hunk.old hunk.new (Nat.le_refl _)
      (Nat.add_sub_of_le hold)).1 lines hlines
    simp only [IndexRange.length, ne_eq, Decidable.not_not] at hlen
    rw [← heq, toNew_eq hwithin.1 hwithin.2.1]
    constructor <;> simp only <;> omega

include hold in
theorem pieces_apart :
    (c.pieces hunk).Pairwise fun p q => p.old.stop ≤ q.old.start ∧ p.new.stop ≤ q.new.start := by
  unfold pieces
  by_cases hlen : hunk.old.length ≠ hunk.new.length
  · rw [if_pos hlen]
    exact List.pairwise_singleton _ _
  · rw [if_neg hlen, List.pairwise_map]
    have ⟨hwithin, hpairwise⟩ := c.cutFrom_within hunk.old hunk.new (Nat.le_refl _)
      (Nat.add_sub_of_le hold)
    apply List.Pairwise.imp_of_mem _ hpairwise
    intro l r hl hr hlr
    have hl := hwithin l hl
    have hr := hwithin r hr
    rw [toNew_eq hl.1 hl.2.1, toNew_eq hr.1 hr.2.1]
    simp only
    omega

include hold hnew in
/-- A piece of a hunk between whole lines is between whole lines. -/
theorem pieces_seamed (hstops : hunk.old.stop ≤ c.oldLines.length ∧
      hunk.new.stop ≤ c.newLines.length) (hseam : Seamed c.oldLines c.newLines hunk) :
    ∀ piece ∈ c.pieces hunk, Seamed c.oldLines c.newLines piece := by
  intro piece hpiece
  have hinside := c.pieces_inside hold hnew piece hpiece
  unfold pieces at hpiece
  by_cases hlen : hunk.old.length ≠ hunk.new.length
  · rw [if_pos hlen, List.mem_singleton] at hpiece
    rw [hpiece]
    exact hseam
  · rw [if_neg hlen] at hpiece
    have ⟨lines, hlines, heq⟩ := List.mem_map.mp hpiece
    have hwithin := (c.cutFrom_within hunk.old hunk.new (Nat.le_refl _)
      (Nat.add_sub_of_le hold)).1 lines hlines
    have hplace : piece.new = ⟨hunk.new.start + (piece.old.start - hunk.old.start),
        hunk.new.start + (piece.old.stop - hunk.old.start)⟩ := by
      rw [← heq]
      exact toNew_eq hwithin.1 hwithin.2.1
    have ⟨hos, hol, hoe, _, _, hne⟩ := hinside
    simp only [IndexRange.length, ne_eq, Decidable.not_not] at hlen
    constructor
    · intro hstart hins
      apply absurd _ hins
      rw [hplace, show piece.old.stop = piece.old.start by omega]
      exact slice_self _ _
    · intro hstop
      have := hseam.after (by omega)
      rw [hplace] at hstop
      simp only at hstop
      omega

end Hunk

/-! ### All the changes -/

section Groups

variable {hunks : List Change} {groups : List Nat} {hunk : Change} {group : Nat}

theorem applied_cases :
    (c.applied hunks groups hunk group).Sublist (c.pieces hunk) ∨
      (c.applied hunks groups hunk group).Sublist [hunk] := by
  unfold applied
  by_cases hlone : groups.count group = 1
  · rw [if_pos hlone]
    exact Or.inl List.filter_sublist
  · rw [if_neg hlone]
    split
    · exact Or.inr (List.Sublist.refl _)
    · exact Or.inr (List.nil_sublist _)

theorem applied_inside (hold : hunk.old.start ≤ hunk.old.stop)
    (hnew : hunk.new.start ≤ hunk.new.stop) :
    ∀ piece ∈ c.applied hunks groups hunk group, Inside hunk piece := by
  intro piece hpiece
  rcases c.applied_cases with hsub | hsub
  · exact c.pieces_inside hold hnew piece (hsub.subset hpiece)
  · rw [List.mem_singleton.mp (hsub.subset hpiece)]
    exact Inside.refl hold hnew

theorem applied_apart (hold : hunk.old.start ≤ hunk.old.stop) :
    (c.applied hunks groups hunk group).Pairwise fun p q =>
      p.old.stop ≤ q.old.start ∧ p.new.stop ≤ q.new.start := by
  rcases @applied_cases c hunks groups hunk group with hsub | hsub
  · exact (c.pieces_apart hold).sublist hsub
  · exact (List.pairwise_singleton _ _).sublist hsub

end Groups

/-- The changes of all the hunks. -/
def allApplied (hunks : List Change) (groups : List Nat) : List Change :=
  (hunks.zip groups).flatMap fun (hunk, group) => c.applied hunks groups hunk group

theorem applied_eq (hunks : List Change) (groups : List Nat) (hunk : Change) (group : Nat) :
    (if groups.count group = 1 then c.hunk hunk.old hunk.new
      else if (hunks.zip groups).any fun (other, g) => g == group && c.touches other.old then
        c.push hunk.old hunk.new
      else []) =
      (c.applied hunks groups hunk group).flatMap fun change => c.push change.old change.new := by
  unfold applied
  by_cases hlone : groups.count group = 1
  · rw [if_pos hlone, if_pos hlone, hunk_eq]
  · rw [if_neg hlone, if_neg hlone]
    split
    · exact (List.flatMap_singleton _ _).symm
    · rfl

theorem length_moveGroups (hunks : List Change) : (c.moveGroups hunks).length = hunks.length := by
  simp [moveGroups, Forest.roots_eq]

section All

variable {c} {hunks : List Change} {groups : List Nat}
  (haligned : Aligned c.oldLines c.newLines 0 0 hunks)

include haligned

theorem mem_allApplied {piece : Change} (hpiece : piece ∈ c.allApplied hunks groups) :
    ∃ hunk ∈ hunks, Inside hunk piece ∧
      (piece ∈ c.pieces hunk ∨ piece = hunk) := by
  have ⟨⟨hunk, group⟩, hzip, hpiece⟩ := List.mem_flatMap.mp hpiece
  have hmem := (List.of_mem_zip hzip).1
  have hstarts := haligned.starts hunk hmem
  refine ⟨hunk, hmem, c.applied_inside hstarts.1.2 hstarts.2.2 piece hpiece, ?_⟩
  rcases c.applied_cases with hsub | hsub
  · exact Or.inl (hsub.subset hpiece)
  · exact Or.inr (List.mem_singleton.mp (hsub.subset hpiece))

theorem allApplied_apart (hlen : groups.length = hunks.length) :
    (c.allApplied hunks groups).Pairwise fun p q =>
      p.old.stop ≤ q.old.start ∧ p.new.stop ≤ q.new.start := by
  unfold allApplied
  rw [List.pairwise_flatMap]
  constructor
  · intro ⟨hunk, group⟩ hzip
    exact c.applied_apart (haligned.starts hunk (List.of_mem_zip hzip).1).1.2
  · have hzip : (hunks.zip groups).map Prod.fst = hunks :=
      List.map_fst_zip (Nat.le_of_eq hlen.symm)
    have happart := haligned.apart
    rw [← hzip, List.pairwise_map] at happart
    apply List.Pairwise.imp_of_mem _ happart
    intro ⟨hunk, group⟩ ⟨next, group'⟩ hunkMem nextMem happart p hp q hq
    have hunkStarts := haligned.starts hunk (List.of_mem_zip hunkMem).1
    have nextStarts := haligned.starts next (List.of_mem_zip nextMem).1
    have hp := c.applied_inside hunkStarts.1.2 hunkStarts.2.2 p hp
    have hq := c.applied_inside nextStarts.1.2 nextStarts.2.2 q hq
    have := hp.old_stop
    have := hp.new_stop
    have := hq.old_start
    have := hq.new_start
    simp only at happart
    omega

theorem allApplied_inOrder (hlen : groups.length = hunks.length) :
    InOrder 0 (c.allApplied hunks groups) where
  starts piece hpiece := by
    have ⟨hunk, _, hinside, _⟩ := mem_allApplied haligned hpiece
    exact ⟨Nat.zero_le _, hinside.old_le⟩
  apart := (allApplied_apart haligned hlen).imp fun h => h.1

end All

end Collector

end Applied

section Diff

variable {captureDiffSlices : List Line → List Line → List DiffOp}

/-- The hunks of the diff of two texts, and the collector of their edits. -/
def hunksOf (captureDiffSlices : List Line → List Line → List DiffOp)
    (original formatted : List Char) : List Change :=
  hunks (captureDiffSlices (splitInclusive original) (splitInclusive formatted))

def collectorOf (original formatted : List Char) (range : Range) : Collector :=
  ⟨splitInclusive original, splitInclusive formatted, selectedLines range⟩

/-- The changes `compute_range_edits` applies to the lines of the original. -/
def rangeChanges (captureDiffSlices : List Line → List Line → List DiffOp)
    (original formatted : List Char) (range : Range) : List Change :=
  let c := collectorOf original formatted range
  let hunks := hunksOf captureDiffSlices original formatted
  if original = formatted then [] else c.allApplied hunks (c.moveGroups hunks)

theorem computeRangeEdits_eq (original formatted : List Char) (range : Range) :
    computeRangeEdits captureDiffSlices original formatted range =
      (rangeChanges captureDiffSlices original formatted range).flatMap fun change =>
        (collectorOf original formatted range).push change.old change.new := by
  by_cases hsame : original = formatted
  · simp [computeRangeEdits, rangeChanges, hsame]
  · rw [computeRangeEdits, rangeChanges, if_neg hsame, if_neg hsame, Collector.allApplied,
      List.flatMap_assoc]
    apply List.flatMap_congr
    intro ⟨hunk, group⟩ _
    exact Collector.applied_eq _ _ _ hunk group

section Lines

variable (hdiff : DiffsLines captureDiffSlices) (original formatted : List Char) (range : Range)

include hdiff

theorem hunksOf_aligned :
    Aligned (splitInclusive original) (splitInclusive formatted) 0 0
      (hunksOf captureDiffSlices original formatted) :=
  hunks_aligned (hdiff _ _)

theorem hunksOf_stops :
    ∀ hunk ∈ hunksOf captureDiffSlices original formatted,
      hunk.old.stop ≤ (splitInclusive original).length ∧
        hunk.new.stop ≤ (splitInclusive formatted).length :=
  hunks_stops (hdiff _ _)

theorem rangeChanges_inOrder :
    InOrder 0 (rangeChanges captureDiffSlices original formatted range) := by
  unfold rangeChanges
  by_cases hsame : original = formatted
  · rw [if_pos hsame]
    exact ⟨by simp, List.Pairwise.nil⟩
  · rw [if_neg hsame]
    exact Collector.allApplied_inOrder (hunksOf_aligned hdiff original formatted)
      (Collector.length_moveGroups _ _)

theorem rangeChanges_apart :
    (rangeChanges captureDiffSlices original formatted range).Pairwise fun p q =>
      p.new.stop ≤ q.new.start := by
  unfold rangeChanges
  by_cases hsame : original = formatted
  · rw [if_pos hsame]
    exact List.Pairwise.nil
  · rw [if_neg hsame]
    exact (Collector.allApplied_apart (hunksOf_aligned hdiff original formatted)
      (Collector.length_moveGroups _ _)).imp fun h => h.2

theorem rangeChanges_seamed :
    ∀ piece ∈ rangeChanges captureDiffSlices original formatted range,
      Seamed (splitInclusive original) (splitInclusive formatted) piece ∧
        piece.old.stop ≤ (splitInclusive original).length := by
  intro piece hpiece
  have haligned := hunksOf_aligned hdiff original formatted
  have hstops := hunksOf_stops hdiff original formatted
  unfold rangeChanges at hpiece
  by_cases hsame : original = formatted
  · rw [if_pos hsame] at hpiece
    exact absurd hpiece List.not_mem_nil
  · rw [if_neg hsame] at hpiece
    have ⟨hunk, hmem, hinside, hfrom⟩ := Collector.mem_allApplied haligned hpiece
    have hseam := seamed_of_aligned (isLines_splitInclusive formatted) haligned hstops
      (Or.inl rfl) hunk hmem
    have hstarts := haligned.starts hunk hmem
    have hstop := hstops hunk hmem
    refine ⟨?_, Nat.le_trans hinside.old_stop hstop.1⟩
    rcases hfrom with hfrom | hfrom
    · exact Collector.pieces_seamed (collectorOf original formatted range) hstarts.1.2
        hstarts.2.2 hstop hseam piece hfrom
    · rw [hfrom]
      exact hseam

/-- The lines of the text the edits give. -/
theorem splitInclusive_computeRangeEdits :
    splitInclusive (simultaneousEdits original
        (computeRangeEdits captureDiffSlices original formatted range)) =
      patchFrom (splitInclusive original) (splitInclusive formatted) 0
        (rangeChanges captureDiffSlices original formatted range) := by
  have hin := rangeChanges_inOrder hdiff original formatted range
  have hseamed := rangeChanges_seamed hdiff original formatted range
  have hpatch := Collector.simultaneousEdits_push (collectorOf original formatted range)
    (isLines_splitInclusive original) hin fun d hd => (hseamed d hd).2
  have htext : (collectorOf original formatted range).oldLines.flatten = original :=
    flatten_splitInclusive original
  rw [htext] at hpatch
  rw [computeRangeEdits_eq, hpatch]
  exact splitInclusive_flatten (isLines_patchFrom (isLines_splitInclusive original)
    (isLines_splitInclusive formatted) hin (rangeChanges_apart hdiff original formatted range)
    fun d hd => (hseamed d hd).1)

end Lines

end Diff

end PhpantomLsp.Formatting
