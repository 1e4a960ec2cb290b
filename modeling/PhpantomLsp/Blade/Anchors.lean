import PhpantomLsp.Blade.Lines
import PhpantomLsp.Lib.Anchors

/-!
# Faithful anchors

Columns count UTF-16 code units.  The text buffered is what stands right before
the cursor, so a flush copies it or masks it with blanks between the anchors it
records (`anchored_flush`); every other text is put in at one template column.
The one exception is an argument list that is passed over: strings and comments
in it are buffered although the rest is not.  Closing the list drops them, but
the end of a line flushes them.  And a text that breaks its line leaves the anchor
behind it past the end of the line it is on (`faithful_iff`).
-/

namespace PhpantomLsp.Blade

open PhpantomLsp.Lib
open PhpantomLsp.Text (lenUtf16 utf16Len)

/-! ## Code units -/

def utf16Units (ch : Char) : List Nat :=
  if ch.toNat < 0x10000 then [ch.toNat]
  else [0xd800 + (ch.toNat - 0x10000) / 0x400, 0xdc00 + (ch.toNat - 0x10000) % 0x400]

def encodeUtf16 (text : List Char) : List Nat := text.flatMap utf16Units

@[simp] theorem encodeUtf16_append (text more : List Char) :
    encodeUtf16 (text ++ more) = encodeUtf16 text ++ encodeUtf16 more := List.flatMap_append

theorem length_utf16Units (ch : Char) : (utf16Units ch).length = lenUtf16 ch := by
  rw [utf16Units, lenUtf16]
  split <;> rfl

@[simp] theorem length_encodeUtf16 (text : List Char) :
    (encodeUtf16 text).length = utf16Len text := by
  induction text with
  | nil => rfl
  | cons ch rest ih =>
      rw [encodeUtf16, List.flatMap_cons, ← encodeUtf16, List.length_append, ih, length_utf16Units]
      rfl

@[simp] theorem utf16Len_append (text more : List Char) :
    utf16Len (text ++ more) = utf16Len text + utf16Len more := by
  rw [utf16Len, List.map_append, List.sum_append]
  rfl

/-- A unit is kept, or masked by a blank. -/
def Masked (unit source : Nat) : Prop := unit = source ∨ unit = ' '.toNat

theorem forall₂_masked_refl (units : List Nat) : List.Forall₂ Masked units units :=
  List.forall₂_same.mpr fun _ _ => Or.inl rfl

theorem forall₂_masked_blanks (units : List Nat) :
    List.Forall₂ Masked (List.replicate units.length ' '.toNat) units := by
  induction units with
  | nil => exact List.Forall₂.nil
  | cons unit units ih => exact List.Forall₂.cons (Or.inr rfl) ih

theorem encodeUtf16_blanks (n : Nat) :
    encodeUtf16 (List.replicate n ' ') = List.replicate n ' '.toNat := by
  induction n with
  | zero => rfl
  | succ n ih =>
      rw [List.replicate_succ, encodeUtf16, List.flatMap_cons, ← encodeUtf16, ih]
      rfl

theorem forall₂_blanked (text : List Char) :
    List.Forall₂ Masked
      (encodeUtf16 (text.flatMap fun ch => List.replicate (lenUtf16 ch) ' ')) (encodeUtf16 text) := by
  induction text with
  | nil => exact List.Forall₂.nil
  | cons ch rest ih =>
      rw [List.flatMap_cons, encodeUtf16_append, encodeUtf16_blanks, ← length_utf16Units]
      exact List.rel_append (forall₂_masked_blanks (utf16Units ch)) ih

theorem forall₂_commentText (text : List Char) (afterStar : Bool) :
    List.Forall₂ Masked (encodeUtf16 (commentText afterStar text)) (encodeUtf16 text) := by
  induction text generalizing afterStar with
  | nil => exact List.Forall₂.nil
  | cons ch rest ih =>
      rw [commentText]
      split
      · rename_i hends
        have hch : ch = '/' := by
          rw [Bool.and_eq_true, beq_iff_eq] at hends
          exact hends.2
        rw [hch]
        exact List.Forall₂.cons (Or.inr rfl) (ih false)
      · exact List.rel_append (forall₂_masked_refl (utf16Units ch)) (ih _)

/-- Whatever the mode, buffered text is kept or masked. -/
theorem forall₂_flushed (mode : Mode) (buffer : List Char) :
    List.Forall₂ Masked (encodeUtf16 (flushed mode buffer)) (encodeUtf16 buffer) := by
  rw [flushed.eq_def]
  split
  · exact forall₂_blanked buffer
  · exact forall₂_blanked buffer
  · exact forall₂_commentText buffer false
  · exact forall₂_masked_refl _

theorem utf16Len_flushed (mode : Mode) (buffer : List Char) :
    utf16Len (flushed mode buffer) = utf16Len buffer := by
  rw [← length_encodeUtf16, ← length_encodeUtf16]
  exact (forall₂_flushed mode buffer).length_eq

/-! ## Anchors of a line -/

/-- The anchors of a line are sound so far, and the last stands at template column `column`. -/
def LineOut.At (chars : List Char) (out : LineOut) (column : Nat) : Prop :=
  Anchored Masked (encodeUtf16 chars) (encodeUtf16 out.processed) out.adjustments column

variable {chars : List Char} {out : LineOut} {column : Nat}

theorem LineOut.At.anchor (h : out.At chars column) (hle : column ≤ out.col)
    (hin : out.col ≤ utf16Len chars) : out.anchor.At chars out.col := by
  have hanchor := Anchored.anchor h hle (by rw [length_encodeUtf16]; exact hin)
  rw [length_encodeUtf16] at hanchor
  exact hanchor

/-- Text without a source, with the anchor behind it. -/
theorem LineOut.At.emit (h : out.At chars out.col) (text : List Char) :
    (out.emit text).anchor.At chars out.col := by
  have hemit := Anchored.emit h (encodeUtf16 text)
  rw [← encodeUtf16_append, length_encodeUtf16] at hemit
  exact hemit

theorem LineOut.At.emitSuffix (h : out.At chars column) (hle : column ≤ out.col)
    (hin : out.col ≤ utf16Len chars) (text : List Char) :
    (out.emitSuffix text).At chars out.col :=
  LineOut.At.emit (h.anchor hle hin) text

/-- A construct is passed over, with an anchor behind it. -/
theorem LineOut.At.advance (h : out.At chars column) (hle : column ≤ out.col) {n : Nat}
    (hin : out.col + n ≤ utf16Len chars) : (out.advance n).anchor.At chars (out.col + n) := by
  have hle' : column ≤ (out.advance n).col := Nat.le_add_right_of_le hle
  exact @LineOut.At.anchor _ (out.advance n) _ h hle' hin

theorem LineOut.At.lower (h : out.At chars column) (hle : column ≤ out.col) {n : Nat}
    (hin : out.col + n ≤ utf16Len chars) (text : List Char) :
    (out.lower n text).At chars (out.col + n) := by
  rw [LineOut.lower]
  split
  · exact @LineOut.At.advance _ out.anchor _ (h.anchor hle (by omega)) (Nat.le_refl _) _ hin
  · exact @LineOut.At.advance _ (out.emitSuffix text) _ (h.emitSuffix hle (by omega) text)
      (Nat.le_refl _) _ hin

/-- A flush copies or masks what stands right before the cursor. -/
theorem LineOut.At.flush (h : out.At chars column) (mode : Mode)
    (hle : column + utf16Len out.buffer ≤ out.col)
    (hcol : out.col = utf16Len (chars.take out.charIdx))
    (hbuffer : out.buffer <:+ chars.take out.charIdx) :
    (out.flush mode).At chars (if out.buffer = [] then column else out.col) := by
  obtain ⟨before, hbefore⟩ := hbuffer
  rw [LineOut.flush]
  split
  · exact h
  · have hline : chars = before ++ out.buffer ++ chars.drop out.charIdx := by
      rw [hbefore, List.take_append_drop]
    have hcolumn : out.col = utf16Len before + utf16Len out.buffer := by
      rw [hcol, ← hbefore, utf16Len_append]
    have hwidth : utf16Len chars =
        utf16Len before + utf16Len out.buffer + utf16Len (chars.drop out.charIdx) := by
      rw [hline, utf16Len_append, utf16Len_append, ← hline]
    have hstart : out.col - utf16Len out.buffer = utf16Len before := by
      omega
    have hanchor := @Anchored.anchor _ _ _ _ _ _ _ h (utf16Len before) (by omega)
      (by rw [length_encodeUtf16]; omega)
    have hstretch : stretch (encodeUtf16 chars) (utf16Len before)
        (utf16Len before + (encodeUtf16 (flushed mode out.buffer)).length) =
        encodeUtf16 out.buffer := by
      rw [length_encodeUtf16, utf16Len_flushed, hline, encodeUtf16_append, encodeUtf16_append,
        ← length_encodeUtf16, ← length_encodeUtf16]
      exact stretch_append_middle _ _ _
    have hcopy := @Anchored.copy _ _ _ _ _ _ _ hanchor (encodeUtf16 (flushed mode out.buffer))
      (by rw [length_encodeUtf16, length_encodeUtf16, utf16Len_flushed]; omega)
      (by rw [hstretch]; exact forall₂_flushed mode out.buffer)
    rw [← encodeUtf16_append, length_encodeUtf16, length_encodeUtf16, length_encodeUtf16,
      utf16Len_flushed, ← hcolumn, ← hstart] at hcopy
    exact hcopy

/-! ## Steps -/

/-- Everything since the last anchor is buffered. -/
def Mode.Snug : Mode → Prop
  | .php _ | .boundAttr _ => True
  | _ => False

def Mode.Skips (mode : Mode) : Prop := ∃ suffix, mode = .skipArgs suffix

theorem Mode.not_skips {mode : Mode} (h : ∀ suffix, mode ≠ .skipArgs suffix) : ¬mode.Skips := by
  rintro ⟨suffix, hmode⟩
  exact h suffix hmode

/-- What every turn keeps of a line and the cursor on it. -/
structure Tracked (chars : List Char) (mode : Mode) (out : LineOut) : Prop where
  idx : out.charIdx ≤ chars.length
  col : out.col = utf16Len (chars.take out.charIdx)
  buffer : ¬mode.Skips → out.buffer <:+ chars.take out.charIdx
  verbatim : mode = .verbatim → out.buffer = []
  anchored : ∃ column, out.At chars column ∧ column + utf16Len out.buffer ≤ out.col ∧
    (mode.Snug → column + utf16Len out.buffer = out.col)

theorem utf16Len_take_le (chars : List Char) (n : Nat) : utf16Len (chars.take n) ≤ utf16Len chars := by
  have hsplit := utf16Len_append (chars.take n) (chars.drop n)
  rw [List.take_append_drop] at hsplit
  omega

theorem utf16Len_take_succ {ch : Char} {n : Nat} (hget : chars[n]? = some ch) :
    utf16Len (chars.take (n + 1)) = utf16Len (chars.take n) + lenUtf16 ch := by
  rw [List.take_add_one, hget, utf16Len_append]
  rfl

theorem Matches.utf16Len_take_add {n m : Nat} (h : Matches (chars.drop n) m) :
    utf16Len (chars.take (n + m)) = utf16Len (chars.take n) + m := by
  rw [List.take_add, utf16Len_append, h.utf16Len_take]

theorem Tracked.col_le {mode : Mode} (h : Tracked chars mode out) : out.col ≤ utf16Len chars := by
  rw [h.col]
  exact utf16Len_take_le chars _

/-- A line whose buffer is empty, anchored at or before the cursor. -/
theorem tracked_of_empty {mode : Mode} (hidx : out.charIdx ≤ chars.length)
    (hcol : out.col = utf16Len (chars.take out.charIdx)) (hempty : out.buffer = [])
    (hat : out.At chars out.col) : Tracked chars mode out := by
  refine ⟨hidx, hcol, fun _ => ?_, fun _ => hempty, out.col, hat, ?_, fun _ => ?_⟩
  · rw [hempty]
    exact List.nil_suffix
  · rw [hempty]
    exact Nat.le_refl _
  · rw [hempty]
    rfl

/-- A character is buffered. -/
theorem Tracked.push {mode : Mode} (h : Tracked chars mode out) (hverbatim : mode ≠ .verbatim)
    {ch : Char} (hget : chars[out.charIdx]? = some ch) : Tracked chars mode (out.push ch) := by
  obtain ⟨column, hat, hle, hsnug⟩ := h.anchored
  have hless := (List.getElem?_eq_some_iff.mp hget).1
  have hlen : utf16Len (out.push ch).buffer = utf16Len out.buffer + lenUtf16 ch :=
    utf16Len_append _ _
  refine ⟨hless, ?_, ?_, fun hmode => absurd hmode hverbatim, column, hat, ?_, ?_⟩
  · show out.col + lenUtf16 ch = utf16Len (chars.take (out.charIdx + 1))
    rw [utf16Len_take_succ hget, h.col]
  · intro hskip
    obtain ⟨before, hbefore⟩ := h.buffer hskip
    refine ⟨before, ?_⟩
    show before ++ (out.buffer ++ [ch]) = chars.take (out.charIdx + 1)
    rw [List.take_add_one, hget, ← hbefore, List.append_assoc]
    rfl
  · rw [hlen]
    show _ ≤ out.col + lenUtf16 ch
    omega
  · intro hmode
    rw [hlen]
    show _ = out.col + lenUtf16 ch
    have hsame := hsnug hmode
    omega

/-- What a flush leaves. -/
theorem Tracked.flush {mode : Mode} (h : Tracked chars mode out)
    (hskip : mode.Skips → out.buffer = []) :
    ∃ column, (out.flush mode).At chars column ∧ column ≤ out.col ∧
      (mode.Snug → column = out.col) := by
  obtain ⟨column, hat, hle, hsnug⟩ := h.anchored
  have hbuffer : out.buffer <:+ chars.take out.charIdx := by
    by_cases hmode : mode.Skips
    · rw [hskip hmode]
      exact List.nil_suffix
    · exact h.buffer hmode
  refine ⟨_, hat.flush mode hle h.col hbuffer, ?_, ?_⟩
  · split <;> omega
  · intro hmode
    split
    · rename_i hempty
      have hsame := hsnug hmode
      rw [hempty] at hsame
      exact hsame
    · rfl

/-- Text put in where the buffer is flushed. -/
theorem Tracked.flushSuffix {mode next : Mode} (h : Tracked chars mode out)
    (hskip : mode.Skips → out.buffer = []) (text : List Char) :
    Tracked chars next ((out.flush mode).emitSuffix text) := by
  obtain ⟨column, hat, hle, -⟩ := h.flush hskip
  apply tracked_of_empty
  · rw [LineOut.emitSuffix_charIdx, LineOut.flush_charIdx]
    exact h.idx
  · rw [LineOut.emitSuffix_charIdx, LineOut.emitSuffix_col, LineOut.flush_charIdx,
      LineOut.flush_col]
    exact h.col
  · rw [LineOut.emitSuffix_buffer, LineOut.flush_buffer]
  · apply hat.emitSuffix
    · rw [LineOut.flush_col]
      exact hle
    · rw [LineOut.flush_col]
      exact h.col_le

/-- Text put in where a list closes whose text is dropped. -/
theorem Tracked.dropSuffix {mode next : Mode} (h : Tracked chars mode out)
    (hget : chars[out.charIdx]? = some ')') (text : List Char) :
    Tracked chars next ((out.advance 1).clear.emitSuffix text) := by
  obtain ⟨column, hat, hle, -⟩ := h.anchored
  have hless := (List.getElem?_eq_some_iff.mp hget).1
  have hcol : out.col + 1 = utf16Len (chars.take (out.charIdx + 1)) := by
    rw [utf16Len_take_succ hget, h.col]
    rfl
  refine tracked_of_empty hless hcol rfl ?_
  apply @LineOut.At.emitSuffix _ (out.advance 1).clear column hat
  · show column ≤ out.col + 1
    omega
  · show out.col + 1 ≤ _
    rw [hcol]
    exact utf16Len_take_le chars _

/-- A character is passed over where nothing is buffered, or the list it stands in is. -/
theorem Tracked.skip {mode : Mode} (h : Tracked chars mode out) (hmode : mode = .verbatim ∨ mode.Skips)
    {ch : Char} (hget : chars[out.charIdx]? = some ch) : Tracked chars mode (out.skip ch) := by
  obtain ⟨column, hat, hle, -⟩ := h.anchored
  have hless := (List.getElem?_eq_some_iff.mp hget).1
  refine ⟨hless, ?_, ?_, h.verbatim, column, hat, ?_, ?_⟩
  · show out.col + lenUtf16 ch = utf16Len (chars.take (out.charIdx + 1))
    rw [utf16Len_take_succ hget, h.col]
  · intro hskip
    have hempty := h.verbatim (hmode.resolve_right hskip)
    show out.buffer <:+ _
    rw [hempty]
    exact List.nil_suffix
  · show column + utf16Len out.buffer ≤ out.col + lenUtf16 ch
    omega
  · intro hsnug
    rcases hmode with rfl | ⟨suffix, rfl⟩
    · exact hsnug.elim
    · exact hsnug.elim

theorem Tracked.endVerbatim (h : Tracked chars .verbatim out)
    (hmatch : Matches (chars.drop out.charIdx) 12) : Tracked chars .html (out.advance 12) := by
  obtain ⟨column, hat, hle, -⟩ := h.anchored
  have hempty := h.verbatim rfl
  refine ⟨hmatch.le_of_drop h.idx, ?_, ?_, nofun, column, hat, ?_, fun hsnug => hsnug.elim⟩
  · show out.col + 12 = utf16Len (chars.take (out.charIdx + 12))
    rw [hmatch.utf16Len_take_add, h.col]
  · intro _
    show out.buffer <:+ _
    rw [hempty]
    exact List.nil_suffix
  · show column + utf16Len out.buffer ≤ out.col + 12
    omega

theorem Tracked.lower {mode next : Mode} (h : Tracked chars mode out) (hskip : ¬mode.Skips) {n : Nat}
    (hmatch : Matches (chars.drop out.charIdx) n) (text : List Char) :
    Tracked chars next ((out.flush mode).lower n text) := by
  obtain ⟨column, hat, hle, -⟩ := h.flush (fun hmode => absurd hmode hskip)
  have hcol : out.col + n = utf16Len (chars.take (out.charIdx + n)) := by
    rw [hmatch.utf16Len_take_add, h.col]
  apply tracked_of_empty
  · rw [LineOut.lower_charIdx, LineOut.flush_charIdx]
    exact hmatch.le_of_drop h.idx
  · rw [LineOut.lower_charIdx, LineOut.lower_col, LineOut.flush_charIdx, LineOut.flush_col]
    exact hcol
  · rw [LineOut.lower_buffer, LineOut.flush_buffer]
  · rw [LineOut.lower_col]
    apply hat.lower
    · rw [LineOut.flush_col]
      exact hle
    · rw [LineOut.flush_col, hcol]
      exact utf16Len_take_le chars _

/-- Text put in at the end of a buffer, and the character after it passed over. -/
theorem Tracked.closeQuoted {mode : Mode} (h : Tracked chars mode out) (hskip : ¬mode.Skips)
    {ch : Char} (hget : chars[out.charIdx]? = some ch) (text : List Char) :
    Tracked chars .html ((((out.flush mode).emitSuffix text).skip ch).anchor) := by
  have hsuffix := @Tracked.flushSuffix _ _ _ .verbatim h (fun hmode => absurd hmode hskip) text
  have hget' : chars[((out.flush mode).emitSuffix text).charIdx]? = some ch := by
    rw [LineOut.emitSuffix_charIdx, LineOut.flush_charIdx]
    exact hget
  have hskipped := hsuffix.skip (Or.inl rfl) hget'
  obtain ⟨column, hat, hle, -⟩ := hskipped.anchored
  refine tracked_of_empty hskipped.idx hskipped.col (hskipped.verbatim rfl) ?_
  exact hat.anchor (by omega) hskipped.col_le

theorem OutStep.tracked {mode mode' : Mode} {out' : LineOut} {text : List Char}
    (h : OutStep chars mode out text mode' out') (htracked : Tracked chars mode out) :
    Tracked chars mode' out' := by
  cases h with
  | push hverbatim hget => exact htracked.push hverbatim hget
  | pushTwo hverbatim hget hother => exact (htracked.push hverbatim hget).push hverbatim hother
  | skip hmode hget => exact htracked.skip hmode hget
  | endVerbatim hmatch => exact htracked.endVerbatim hmatch
  | lower hskip _ hmatch => exact htracked.lower (fun ⟨suffix, h⟩ => hskip suffix h) hmatch text
  | consumeArgs hget => exact (htracked.push (by simp) hget).flushSuffix (fun ⟨_, h⟩ => nomatch h) _
  | skipArgs hget => exact htracked.dropSuffix hget _
  | captureArgs hget => exact htracked.dropSuffix hget _
  | closeQuoted hget => exact htracked.closeQuoted (fun ⟨_, h⟩ => nomatch h) hget _
  | closeShorthand => exact htracked.flushSuffix (fun ⟨_, h⟩ => nomatch h) _

/-! ## A line -/

variable {env : LineEnv} {s : State}

theorem tracked_startLine (scan : Scan) :
    Tracked env.line (startLine scan).scan.mode (startLine scan).out :=
  tracked_of_empty (Nat.zero_le _) rfl rfl (anchored_start Masked _)

theorem tracked_iterate {scan : Scan} (hline : OneLine env.line) (hok : SuffixesOk scan) (n : Nat) :
    Tracked env.line ((State.step env)^[n] (startLine scan)).scan.mode
      ((State.step env)^[n] (startLine scan)).out := by
  induction n with
  | zero => exact tracked_startLine scan
  | succ n ih =>
      have hon := onLine_iterate hline (@onLine_startLine env _ hok) n
      rw [Function.iterate_succ_apply']
      generalize (State.step env)^[n] (startLine scan) = s at ih hon ⊢
      by_cases hidx : s.out.charIdx < env.line.length
      · obtain ⟨text, hturn, -⟩ := turn_step hline hidx hon.suffixes
        exact hturn.out.tracked ih
      · rw [step_of_end (Nat.le_of_not_lt hidx)]
        exact ih

/-- A buffer that holds all since the last anchor is flushed at the end of the
line, and text put in behind it. -/
theorem Tracked.close {mode next : Mode} (h : Tracked chars mode out) (hsnug : mode.Snug)
    (text : List Char) : Tracked chars next ((out.flush mode).emit text).anchor := by
  have hskip : ¬mode.Skips := by
    rintro ⟨suffix, rfl⟩
    exact hsnug
  obtain ⟨column, hat, -, hsame⟩ := h.flush (fun hmode => absurd hmode hskip)
  rw [hsame hsnug] at hat
  apply tracked_of_empty
  · show (out.flush mode).charIdx ≤ _
    rw [LineOut.flush_charIdx]
    exact h.idx
  · show (out.flush mode).col = utf16Len (chars.take (out.flush mode).charIdx)
    rw [LineOut.flush_charIdx, LineOut.flush_col]
    exact h.col
  · exact LineOut.flush_buffer out mode
  · have hemit := @LineOut.At.emit _ (out.flush mode) (by rw [LineOut.flush_col]; exact hat) text
    exact hemit

theorem tracked_endEcho (h : Tracked chars s.scan.mode s.out) :
    Tracked chars s.endEcho.scan.mode s.endEcho.out := by
  rw [State.endEcho]
  split
  · rename_i rawEcho hmode
    split
    · exact h.close (by rw [hmode]; trivial) _
    · exact h
  · rename_i raw hmode
    split
    · rw [hmode] at h
      refine ⟨h.idx, h.col, fun _ => h.buffer (Mode.not_skips fun _ hskips => by cases hskips),
        (fun hverbatim => by cases hverbatim), ?_⟩
      obtain ⟨column, hat, hle, -⟩ := h.anchored
      exact ⟨column, hat, hle, fun hsnug => hsnug.elim⟩
    · exact h
  · exact h

theorem tracked_endBoundAttr (h : Tracked chars s.scan.mode s.out) :
    Tracked chars s.endBoundAttr.scan.mode s.endBoundAttr.out := by
  rw [State.endBoundAttr]
  split
  · rename_i term hmode
    rw [hmode] at h
    simp only
    split
    · obtain ⟨column, hat, -, hsame⟩ := h.flush fun hskips =>
        absurd hskips (Mode.not_skips fun _ hsame => by cases hsame)
      rw [hsame trivial] at hat
      apply tracked_of_empty
      · rw [LineOut.flush_charIdx]
        exact h.idx
      · rw [LineOut.flush_charIdx, LineOut.flush_col]
        exact h.col
      · exact LineOut.flush_buffer _ _
      · rw [LineOut.flush_col]
        exact hat
    · exact h.close trivial _
  · exact h

/-- A mode in which text is passed over stays as it is up to the flush. -/
theorem endBoundAttr_endEcho_of_skips (hmode : s.scan.mode.Skips) : s.endEcho.endBoundAttr = s := by
  obtain ⟨suffix, hmode⟩ := hmode
  have hecho : s.endEcho = s := by
    rw [State.endEcho, hmode]
  rw [hecho, State.endBoundAttr, hmode]

theorem endLine_of_skips (hmode : s.scan.mode.Skips) :
    s.endLine.out.processed = s.out.processed ++ s.out.buffer := by
  rw [State.endLine, endBoundAttr_endEcho_of_skips hmode]
  obtain ⟨suffix, hmode⟩ := hmode
  rw [State.endBuffer, hmode]
  exact LineOut.flush_processed _ _

theorem endEcho_mode : s.endEcho.scan.mode = s.scan.mode ∨ s.endEcho.scan.mode = .html := by
  rw [State.endEcho]
  split
  · split
    · exact Or.inr rfl
    · exact Or.inl rfl
  · split
    · exact Or.inr rfl
    · exact Or.inl rfl
  · exact Or.inl rfl

theorem endBoundAttr_mode :
    s.endBoundAttr.scan.mode = s.scan.mode ∨ s.endBoundAttr.scan.mode = .html := by
  rw [State.endBoundAttr]
  split
  · simp only
    split
    · exact Or.inl rfl
    · exact Or.inr rfl
  · exact Or.inl rfl

theorem skips_of_endBoundAttr (h : s.endEcho.endBoundAttr.scan.mode.Skips) : s.scan.mode.Skips := by
  have hhtml : ¬Mode.html.Skips := fun ⟨_, h⟩ => nomatch h
  rcases endBoundAttr_mode (s := s.endEcho) with hbound | hbound
  · rw [hbound] at h
    rcases endEcho_mode (s := s) with hecho | hecho
    · rwa [hecho] at h
    · rw [hecho] at h
      exact absurd h hhtml
  · rw [hbound] at h
    exact absurd h hhtml

/-- The anchors of a line are sound to its end. -/
theorem at_endLine (h : Tracked chars s.scan.mode s.out)
    (hskip : s.scan.mode.Skips → s.out.buffer = []) : ∃ column, s.endLine.out.At chars column := by
  have htracked := tracked_endBoundAttr (tracked_endEcho h)
  have hempty : s.endEcho.endBoundAttr.scan.mode.Skips → s.endEcho.endBoundAttr.out.buffer = [] := by
    intro hmode
    have hstart := skips_of_endBoundAttr hmode
    rw [endBoundAttr_endEcho_of_skips hstart]
    exact hskip hstart
  rw [State.endLine, State.endBuffer]
  split
  · obtain ⟨column, hat, -⟩ := htracked.anchored
    exact ⟨column, hat⟩
  · obtain ⟨column, hat, -⟩ := htracked.flush hempty
    exact ⟨column, hat⟩

theorem head?_dedupAnchors (anchors : List (Nat × Nat)) :
    (dedupAnchors anchors).head? = anchors.head? := by
  fun_induction dedupAnchors anchors with
  | case1 => rfl
  | case2 => rfl
  | case3 a rest ih => exact ih
  | case4 a b rest hne ih => rfl

/-- Anchors that repeat one another can go. -/
theorem isChain_dedupAnchors {R : Nat × Nat → Nat × Nat → Prop} {anchors : List (Nat × Nat)}
    (h : anchors.IsChain R) : (dedupAnchors anchors).IsChain R := by
  fun_induction dedupAnchors anchors with
  | case1 => exact h
  | case2 => exact h
  | case3 a rest ih => exact ih (List.isChain_cons_cons.mp h).2
  | case4 a b rest hne ih =>
      have hboth := List.isChain_cons_cons.mp h
      apply (ih hboth.2).cons
      intro y hy
      rw [head?_dedupAnchors] at hy
      cases hy
      exact hboth.1

/-! ## The end of the PHP -/

/-- The PHP of a line grows at its end, with an anchor behind what is added. -/
def LineOut.Extends (out out' : LineOut) : Prop :=
  ∃ more, out'.processed = out.processed ++ more ∧ out.adjustments <+: out'.adjustments ∧
    (more = [] ∨ ∃ anchor ∈ out'.adjustments, anchor.2 = utf16Len out'.processed)

namespace LineOut.Extends

variable {out out' out'' : LineOut}

theorem of_same (hprocessed : out'.processed = out.processed)
    (hadjustments : out'.adjustments = out.adjustments) : out.Extends out' :=
  ⟨[], by rw [hprocessed, List.append_nil], by rw [hadjustments], Or.inl rfl⟩

theorem refl (out : LineOut) : out.Extends out := of_same rfl rfl

theorem trans (h : out.Extends out') (h' : out'.Extends out'') : out.Extends out'' := by
  obtain ⟨more, hprocessed, hgrown, hend⟩ := h
  obtain ⟨more', hprocessed', hgrown', hend'⟩ := h'
  refine ⟨more ++ more', by rw [hprocessed', hprocessed, List.append_assoc],
    hgrown.trans hgrown', ?_⟩
  rcases hend' with rfl | hend'
  · rw [List.append_nil] at hprocessed' ⊢
    refine hend.imp id ?_
    intro hanchor
    obtain ⟨anchor, hmem, hcolumn⟩ := hanchor
    exact ⟨anchor, hgrown'.subset hmem, by rw [hcolumn, hprocessed']⟩
  · exact Or.inr hend'

theorem anchor (out : LineOut) : out.Extends out.anchor :=
  ⟨[], (List.append_nil _).symm, List.prefix_append _ _, Or.inl rfl⟩

theorem emit (out : LineOut) (text : List Char) : out.Extends (out.emit text).anchor := by
  refine ⟨text, rfl, List.prefix_append _ _,
    Or.inr ⟨(out.col, utf16Len (out.processed ++ text)), ?_, rfl⟩⟩
  exact List.mem_append_right _ (List.mem_singleton.mpr rfl)

theorem emitSuffix (out : LineOut) (text : List Char) : out.Extends (out.emitSuffix text) :=
  (anchor out).trans (emit out.anchor text)

theorem flush (out : LineOut) (mode : Mode) : out.Extends (out.flush mode) := by
  rw [LineOut.flush]
  split
  · exact refl out
  · have hemit := emit { out with
      adjustments := out.adjustments ++ [(out.col - utf16Len out.buffer, utf16Len out.processed)] }
      (flushed mode out.buffer)
    obtain ⟨more, hprocessed, hgrown, hend⟩ := hemit
    exact ⟨more, hprocessed, (List.prefix_append _ _).trans hgrown, hend⟩

theorem lower (out : LineOut) (n : Nat) (text : List Char) : out.Extends (out.lower n text) := by
  rw [LineOut.lower]
  split
  · have hadvance : out.anchor.Extends (out.anchor.advance n) := of_same rfl rfl
    exact ((anchor out).trans hadvance).trans (anchor _)
  · have hadvance : (out.emitSuffix text).Extends ((out.emitSuffix text).advance n) :=
      of_same rfl rfl
    exact ((emitSuffix out text).trans hadvance).trans (anchor _)

end LineOut.Extends

open LineOut.Extends in
theorem OutStep.grows {mode mode' : Mode} {out' : LineOut} {text : List Char}
    (h : OutStep chars mode out text mode' out') : out.Extends out' := by
  cases h with
  | push => exact of_same rfl rfl
  | pushTwo => exact of_same rfl rfl
  | skip => exact of_same rfl rfl
  | endVerbatim => exact of_same rfl rfl
  | lower => exact (LineOut.Extends.flush _ _).trans (LineOut.Extends.lower _ _ _)
  | consumeArgs =>
      have hpush : out.Extends (out.push ')') := of_same rfl rfl
      exact (hpush.trans (LineOut.Extends.flush _ _)).trans (emitSuffix _ _)
  | skipArgs =>
      have hdrop : out.Extends (out.advance 1).clear := of_same rfl rfl
      exact hdrop.trans (emitSuffix _ _)
  | captureArgs =>
      have hdrop : out.Extends (out.advance 1).clear := of_same rfl rfl
      exact hdrop.trans (emitSuffix _ _)
  | @closeQuoted delim _ _ ch =>
      have hsuffix := (LineOut.Extends.flush out (.boundAttr (some delim))).trans (emitSuffix _ text)
      have hskip : ((out.flush (.boundAttr (some delim))).emitSuffix text).Extends
          (((out.flush (.boundAttr (some delim))).emitSuffix text).skip ch) := of_same rfl rfl
      exact (hsuffix.trans hskip).trans (LineOut.Extends.anchor _)
  | closeShorthand => exact (LineOut.Extends.flush _ _).trans (emitSuffix _ _)

theorem grows_iterate {scan : Scan} (hline : OneLine env.line) (hok : SuffixesOk scan) (n : Nat) :
    LineOut.start.Extends ((State.step env)^[n] (startLine scan)).out := by
  induction n with
  | zero => exact LineOut.Extends.refl _
  | succ n ih =>
      have hon := onLine_iterate hline (@onLine_startLine env _ hok) n
      rw [Function.iterate_succ_apply']
      generalize (State.step env)^[n] (startLine scan) = s at ih hon ⊢
      by_cases hidx : s.out.charIdx < env.line.length
      · obtain ⟨text, hturn, -⟩ := turn_step hline hidx hon.suffixes
        exact ih.trans hturn.out.grows
      · rw [step_of_end (Nat.le_of_not_lt hidx)]
        exact ih

theorem grows_endLine (s : State) : s.out.Extends s.endLine.out := by
  have hecho : s.out.Extends s.endEcho.out := by
    rw [State.endEcho]
    split
    · split
      · exact (LineOut.Extends.flush _ _).trans (LineOut.Extends.emit _ _)
      · exact LineOut.Extends.refl _
    · split
      · exact LineOut.Extends.refl _
      · exact LineOut.Extends.refl _
    · exact LineOut.Extends.refl _
  have hbound (s : State) : s.out.Extends s.endBoundAttr.out := by
    rw [State.endBoundAttr]
    split
    · simp only
      split
      · exact LineOut.Extends.flush _ _
      · exact (LineOut.Extends.flush _ _).trans (LineOut.Extends.emit _ _)
    · exact LineOut.Extends.refl _
  have hbuffer (s : State) : s.out.Extends s.endBuffer.out := by
    rw [State.endBuffer]
    split
    · exact LineOut.Extends.of_same rfl rfl
    · exact LineOut.Extends.flush _ _
  exact (hecho.trans (hbound s.endEcho)).trans (hbuffer _)

theorem mem_dedupAnchors {anchor : Nat × Nat} {anchors : List (Nat × Nat)} (h : anchor ∈ anchors) :
    anchor ∈ dedupAnchors anchors := by
  fun_induction dedupAnchors anchors with
  | case1 => exact h
  | case2 => exact h
  | case3 a rest ih =>
      apply ih
      rcases List.mem_cons.mp h with rfl | h
      · exact List.mem_cons_self
      · exact h
  | case4 a b rest hne ih =>
      rcases List.mem_cons.mp h with rfl | h
      · exact List.mem_cons_self
      · exact List.mem_cons_of_mem _ (ih h)

/-- The PHP of a line starts and ends at an anchor. -/
theorem exists_anchor_at_end {project : Project} {all : List (List Char)} {lineIdx : Nat}
    {line : List Char} {following : List (List Char)} {scan : Scan} (hline : OneLine line)
    (hok : SuffixesOk scan) {lowered : LoweredLine}
    (h : lowered = (scanned project all lineIdx line following scan).endLine.out.lowered) :
    lowered.anchors.head? = some (0, 0) ∧
      (lowered.php = [] ∨ ∃ anchor ∈ lowered.anchors, anchor.2 = utf16Len lowered.php) := by
  have hrun := @grows_iterate (lineEnv project all lineIdx line following) _ hline hok (turns line)
  obtain ⟨more, hprocessed, ⟨later, hlater⟩, hend⟩ :=
    hrun.trans (grows_endLine (scanned project all lineIdx line following scan))
  rw [h]
  constructor
  · rw [LineOut.lowered, head?_dedupAnchors, ← hlater]
    rfl
  rcases hend with rfl | ⟨anchor, hmem, hcolumn⟩
  · exact Or.inl hprocessed
  · exact Or.inr ⟨anchor, mem_dedupAnchors hmem, hcolumn⟩

/-- Sound anchors stand in the target, but for the first. -/
theorem le_of_mem_chain {source target : List Nat} {anchors : List (Nat × Nat)}
    (h : anchors.IsChain (Sound Masked source target)) {anchor : Nat × Nat}
    (hmem : anchor ∈ anchors) : anchors.head? = some anchor ∨ anchor.2 ≤ target.length := by
  induction anchors with
  | nil => cases hmem
  | cons first rest ih =>
      rcases List.mem_cons.mp hmem with rfl | hmem
      · exact Or.inl rfl
      · cases rest with
        | nil => cases hmem
        | cons next rest =>
            have hboth := List.isChain_cons_cons.mp h
            rcases ih hboth.2 hmem with hhead | hle
            · rw [List.head?_cons, Option.some.injEq] at hhead
              rw [← hhead]
              exact Or.inr hboth.1.target_in
            · exact Or.inr hle

/-! ## Passing over -/

/-- Nothing that is read of an argument list passed over gets into the PHP: a
turn adds nothing or closes the list with its suffix, dropping the buffer, and
the end of a line adds nothing. -/
structure KeptOut (env : LineEnv) (s : State) : Prop where
  turn : ∀ suffix, s.scan.mode = .skipArgs suffix →
    ((s.step env).scan.mode = .skipArgs suffix ∧
        (s.step env).out.processed = s.out.processed) ∨
      ((s.step env).scan.mode = .html ∧ (s.step env).out.buffer = [] ∧
        (s.step env).out.processed = s.out.processed ++ suffix.toList)
  lineEnd : ∀ suffix, s.scan.mode = .skipArgs suffix → s.out.charIdx = env.line.length →
    s.endLine.out.processed = s.out.processed

theorem OutStep.keptOut {mode' : Mode} {out' : LineOut} {text : List Char} {suffix : String}
    (h : OutStep chars (.skipArgs suffix) out text mode' out') :
    (mode' = .skipArgs suffix ∧ out'.processed = out.processed) ∨
      (mode' = .html ∧ out'.buffer = [] ∧ out'.processed = out.processed ++ suffix.toList) := by
  cases h with
  | push => exact Or.inl ⟨rfl, rfl⟩
  | pushTwo => exact Or.inl ⟨rfl, rfl⟩
  | skip => exact Or.inl ⟨rfl, rfl⟩
  | lower hskip => exact absurd rfl (hskip suffix)
  | skipArgs => exact Or.inr ⟨rfl, rfl, rfl⟩

theorem keptOut_iff (hline : OneLine env.line) (hon : OnLine env s) :
    KeptOut env s ↔
      (s.out.charIdx = env.line.length → s.scan.mode.Skips → s.out.buffer = []) := by
  constructor
  · rintro h hend ⟨suffix, hmode⟩
    have hkept := h.lineEnd suffix hmode hend
    rw [endLine_of_skips ⟨suffix, hmode⟩] at hkept
    exact List.append_right_eq_self.mp hkept
  · intro h
    refine ⟨?_, ?_⟩
    · intro suffix hmode
      by_cases hidx : s.out.charIdx < env.line.length
      · obtain ⟨text, hturn, -⟩ := turn_step hline hidx hon.suffixes
        have hout := hturn.out
        rw [hmode] at hout
        exact hout.keptOut
      · rw [step_of_end (Nat.le_of_not_lt hidx)]
        exact Or.inl ⟨hmode, rfl⟩
    · intro suffix hmode hend
      rw [endLine_of_skips ⟨suffix, hmode⟩, h hend ⟨suffix, hmode⟩, List.append_nil]

/-! ## The template -/

variable {project : Project} {all : List (List Char)} {lineIdx : Nat} {line : List Char}
  {following : List (List Char)} {scan : Scan}

/-- A line is on one line wherever the scan is. -/
theorem onLine_of_visits {lines : List (List Char)} (hlines : ∀ line ∈ lines, OneLine line)
    (hok : SuffixesOk scan) (h : Visits project all lineIdx lines scan env s) :
    OneLine env.line ∧ OnLine env s := by
  induction h with
  | here n =>
      have hline := hlines _ List.mem_cons_self
      exact ⟨hline, onLine_iterate hline (onLine_startLine hok) n⟩
  | later h ih =>
      rw [List.forall_mem_cons] at hlines
      exact ih hlines.2 (oneLine_scanned hlines.1 hok).2

/-- Whether the strings and comments of a list passed over are dropped by the
end of every line they stand on. -/
def Dropped (project : Project) (all : List (List Char)) (lineIdx : Nat)
    (lines : List (List Char)) (scan : Scan) : Prop :=
  ∀ env s, Visits project all lineIdx lines scan env s → s.out.charIdx = env.line.length →
    s.scan.mode.Skips → s.out.buffer = []

/-- The anchors of a line are sound. -/
def FaithfulLine (line : List Char) (lowered : LoweredLine) : Prop :=
  lowered.anchors.IsChain (Sound Masked (encodeUtf16 line) (encodeUtf16 lowered.php))

theorem faithfulLine_scanned (hline : OneLine line) (hok : SuffixesOk scan)
    (hskip : (scanned project all lineIdx line following scan).scan.mode.Skips →
      (scanned project all lineIdx line following scan).out.buffer = []) :
    FaithfulLine line (scanned project all lineIdx line following scan).endLine.out.lowered := by
  have hrun := @tracked_iterate (lineEnv project all lineIdx line following) _ hline hok
    (turns line)
  obtain ⟨column, hat⟩ := at_endLine (s := scanned project all lineIdx line following scan) hrun hskip
  exact isChain_dedupAnchors hat.chain

theorem faithfulLine_scanLines {lines : List (List Char)} (hlines : ∀ line ∈ lines, OneLine line)
    (hok : SuffixesOk scan) (h : Dropped project all lineIdx lines scan) :
    List.Forall₂ FaithfulLine lines (scanLines project all lineIdx lines scan).1 := by
  induction lines generalizing lineIdx scan with
  | nil => exact List.Forall₂.nil
  | cons line following ih =>
      rw [List.forall_mem_cons] at hlines
      rw [scanLines_cons]
      have henv : OneLine (lineEnv project all lineIdx line following).line := hlines.1
      apply List.Forall₂.cons
      · apply faithfulLine_scanned hlines.1 hok
        exact h _ _ (.here (turns line)) (iterate_of_turns henv hok (Nat.le_refl _))
      · apply ih hlines.2 (oneLine_scanned hlines.1 hok).2
        exact fun env s hvisits => h env s (.later hvisits)

variable {declared : List (List Char × List Char)} {thisClass : Option (List Char)}
  {content : List Char}

theorem adjustments_eq : (preprocess project declared thisClass content).adjustments =
    (scanTemplate project content).1.map LoweredLine.anchors := by
  rw [preprocess]
  simp only
  split <;> rfl

theorem anchors_at_ends {lines : List (List Char)} (hlines : ∀ line ∈ lines, OneLine line)
    (hok : SuffixesOk scan) :
    ∀ lowered ∈ (scanLines project all lineIdx lines scan).1,
      lowered.anchors.head? = some (0, 0) ∧
        (lowered.php = [] ∨ ∃ anchor ∈ lowered.anchors, anchor.2 = utf16Len lowered.php) := by
  induction lines generalizing lineIdx scan with
  | nil =>
      intro lowered hmem
      cases hmem
  | cons line following ih =>
      rw [List.forall_mem_cons] at hlines
      rw [scanLines_cons, List.forall_mem_cons]
      exact ⟨exists_anchor_at_end hlines.1 hok rfl, ih hlines.2 (oneLine_scanned hlines.1 hok).2⟩

/-- The first line that is broken, with what stands before its break. -/
theorem exists_first_broken {lowered : List LoweredLine}
    (h : ¬∀ line ∈ lowered, OneLine line.php) :
    ∃ before line after first more, lowered = before ++ line :: after ∧
      (∀ line ∈ before, OneLine line.php) ∧ line.php = first ++ '\n' :: more ∧ OneLine first := by
  induction lowered with
  | nil =>
      refine absurd ?_ h
      intro line hmem
      cases hmem
  | cons line lowered ih =>
      by_cases hline : OneLine line.php
      · have hrest : ¬∀ line ∈ lowered, OneLine line.php := by
          intro hall
          exact h (List.forall_mem_cons.mpr ⟨hline, hall⟩)
        obtain ⟨before, broken, after, first, more, rfl, hbefore, hphp, hfirst⟩ := ih hrest
        exact ⟨line :: before, broken, after, first, more, rfl,
          List.forall_mem_cons.mpr ⟨hline, hbefore⟩, hphp, hfirst⟩
      · have hmem : '\n' ∈ line.php := Classical.not_not.mp hline
        obtain ⟨first, more, hphp, hfirst⟩ := List.eq_append_cons_of_mem hmem
        refine ⟨[], line, lowered, first, more, rfl, ?_, hphp, hfirst⟩
        intro line hmem
        cases hmem

/-- The line of the virtual file a line of the template is mapped to. -/
def virtualLine (project : Project) (declared : List (List Char × List Char))
    (thisClass : Option (List Char)) (content : List Char) (i : Nat) : Option (List Char) :=
  ((preprocess project declared thisClass content).virtualPhp.splitOn '\n')[
    (preprocess project declared thisClass content).prologueLines + i]?

/-- A broken line is mapped to what stands before its break. -/
theorem virtualLine_of_broken {before after : List LoweredLine} {line : LoweredLine}
    {first more : List Char} (hlowered : (scanTemplate project content).1 = before ++ line :: after)
    (hbefore : ∀ line ∈ before, OneLine line.php) (hphp : line.php = first ++ '\n' :: more)
    (hfirst : OneLine first) :
    virtualLine project declared thisClass content before.length = some first := by
  obtain ⟨start, hvirtual, hprologue⟩ := @virtualPhp_eq project declared thisClass content
  have hbody : body (before ++ line :: after) = body before ++ body (line :: after) :=
    List.flatMap_append
  have hline : body (line :: after) = first ++ '\n' :: (more ++ '\n' :: body after) := by
    rw [body, List.flatMap_cons, hphp]
    simp [body]
  rw [virtualLine, hvirtual, hprologue, hlowered, List.splitOn_append_cons_self,
    ← length_splitOn_newline, List.getElem?_append_right (Nat.le_add_right _ _),
    Nat.add_sub_cancel_left, hbody, List.append_assoc, splitOn_body hbefore,
    List.getElem?_append_right (by rw [List.length_map]), List.length_map, Nat.sub_self, hline,
    List.append_assoc, List.cons_append, List.splitOn_append_cons_self_of_not_mem hfirst]
  rfl

/-- Every line's anchors are sound against the line of the virtual file it is
mapped to, and what is passed over stays out of it. -/
structure Faithful (project : Project) (declared : List (List Char × List Char))
    (thisClass : Option (List Char)) (content : List Char) : Prop where
  anchors : ∀ (i : Nat) (line : List Char), (lines content)[i]? = some line →
    ∃ anchors emitted,
      (preprocess project declared thisClass content).adjustments[i]? = some anchors ∧
        virtualLine project declared thisClass content i = some emitted ∧
          anchors.IsChain (Sound Masked (encodeUtf16 line) (encodeUtf16 emitted))
  skipped : ∀ env s, Visits project (lines content) 0 (lines content) startScan env s →
    KeptOut env s

/-- No turn of the scan breaks its line. -/
def Unbroken (project : Project) (content : List Char) : Prop :=
  ∀ env s, Visits project (lines content) 0 (lines content) startScan env s → ¬Leak env s

theorem faithful_of_dropped (h : Dropped project (lines content) 0 (lines content) startScan)
    (hunbroken : Unbroken project content) : Faithful project declared thisClass content := by
  have hlines : ∀ line ∈ lines content, OneLine line := fun _ => oneLine_of_mem_lines
  have haligned : Aligned project declared thisClass content :=
    (aligned_iff project declared thisClass content).mpr hunbroken
  refine ⟨?_, ?_⟩
  · intro i line hline
    have hall := faithfulLine_scanLines hlines suffixesOk_startScan h
    obtain ⟨hi, rfl⟩ := List.getElem?_eq_some_iff.mp hline
    have hi' : i < (scanTemplate project content).1.length := by
      rw [haligned.lowered]
      exact hi
    have hlowered := List.getElem?_eq_getElem hi'
    refine ⟨_, _, ?_, haligned.emitted i _ hlowered, hall.get hi hi'⟩
    rw [adjustments_eq, List.getElem?_map, hlowered]
    rfl
  · intro env s hvisits
    have hon := onLine_of_visits hlines suffixesOk_startScan hvisits
    exact (keptOut_iff hon.1 hon.2).mpr (h env s hvisits)

/-- The PHP of a broken line ends at an anchor that is past what stands before the
break. -/
theorem oneLine_of_faithful (h : Faithful project declared thisClass content) :
    ∀ line ∈ (scanTemplate project content).1, OneLine line.php := by
  have hlines : ∀ line ∈ lines content, OneLine line := fun _ => oneLine_of_mem_lines
  by_contra hbroken
  obtain ⟨before, line, after, first, more, hlowered, hbefore, hphp, hfirst⟩ :=
    exists_first_broken hbroken
  have hlength : before.length < (lines content).length := by
    have hsame : (scanTemplate project content).1.length = (lines content).length :=
      length_scanLines
    rw [← hsame, hlowered, List.length_append]
    simp
  obtain ⟨anchors, emitted, hanchors, hemitted, hchain⟩ :=
    h.anchors before.length _ (List.getElem?_eq_getElem hlength)
  rw [virtualLine_of_broken hlowered hbefore hphp hfirst, Option.some.injEq] at hemitted
  rw [adjustments_eq, hlowered, List.getElem?_map,
    List.getElem?_append_right (Nat.le_refl _), Nat.sub_self] at hanchors
  have hsame : line.anchors = anchors := Option.some.inj hanchors
  have hmem : line ∈ (scanTemplate project content).1 := by
    rw [hlowered]
    simp
  have hends := anchors_at_ends hlines suffixesOk_startScan line hmem
  have hwidth : utf16Len line.php = utf16Len first + (1 + utf16Len more) := by
    rw [hphp, utf16Len_append]
    rfl
  rcases hends.2 with hempty | ⟨anchor, hmem, hcolumn⟩
  · rw [hphp] at hempty
    simp at hempty
  · rw [← hsame, ← hemitted] at hchain
    rcases le_of_mem_chain hchain hmem with hhead | hle
    · rw [hends.1, Option.some.injEq] at hhead
      rw [← hhead] at hcolumn
      simp only at hcolumn
      omega
    · rw [length_encodeUtf16] at hle
      omega

/-- The anchors are faithful exactly when no line ends inside an argument list
passed over with a string or a comment of it on the line, and no turn breaks its
line. -/
theorem faithful_iff (project : Project) (declared : List (List Char × List Char))
    (thisClass : Option (List Char)) (content : List Char) :
    Faithful project declared thisClass content ↔
      Dropped project (lines content) 0 (lines content) startScan ∧ Unbroken project content := by
  constructor
  · intro h
    constructor
    · intro env s hvisits
      have hon := onLine_of_visits (fun _ => oneLine_of_mem_lines) suffixesOk_startScan hvisits
      exact (keptOut_iff hon.1 hon.2).mp (h.skipped env s hvisits)
    · apply (aligned_iff project declared thisClass content).mp
      exact aligned_of_oneLine (oneLine_of_faithful h)
  · intro h
    exact faithful_of_dropped h.1 h.2

/-- The argument of an `@error` on a line of its own is emitted as code. -/
theorem not_faithful_error :
    ¬Faithful ⟨none, .new none []⟩ [] none "@error(\n'email'\n)".toList := by
  intro h
  have hlines : lines "@error(\n'email'\n)".toList =
      ["@error(".toList, "'email'".toList, ")".toList] := by
    decide +kernel
  have hskipped := h.skipped
  rw [hlines] at hskipped
  have hkept := (hskipped _ _ (.later (.here (turns "'email'".toList)))).lineEnd
    ": $message = '';" (by decide +kernel) (by decide +kernel)
  revert hkept
  decide +kernel

end PhpantomLsp.Blade
