import PhpantomLsp.Blade.Scan

/-!
# Line alignment

A line of the template is scanned on its own, so the PHP it becomes breaks the
line exactly when some turn of its scan leaks (`oneLine_iterate`), and nothing
is added at its end that breaks it.  The lines of the virtual file are then the
lines of the template, behind the prologue, exactly when no turn of any line
leaks (`aligned_iff`).
-/

namespace PhpantomLsp.Blade

open PhpantomLsp.Text (lenUtf16)

/-! ## The text of a line -/

variable {env : LineEnv} {s : State}

theorem oneLine_commentText {text : List Char} (h : OneLine text) (afterStar : Bool) :
    OneLine (commentText afterStar text) := by
  induction text generalizing afterStar with
  | nil => exact List.not_mem_nil
  | cons ch rest ih =>
      have hch : '\n' ≠ ch := fun heq => h (heq ▸ List.mem_cons_self)
      have hrest : OneLine rest := fun hmem => h (List.mem_cons_of_mem _ hmem)
      rw [commentText]
      split
      · intro hmem
        rcases List.mem_cons.mp hmem with heq | hmem
        · cases heq
        · exact ih hrest false hmem
      · intro hmem
        rcases List.mem_cons.mp hmem with heq | hmem
        · exact hch heq
        · exact ih hrest _ hmem

theorem oneLine_blanked (text : List Char) :
    OneLine (text.flatMap fun ch => List.replicate (lenUtf16 ch) ' ') := by
  intro hmem
  obtain ⟨ch, -, hblank⟩ := List.mem_flatMap.mp hmem
  cases List.eq_of_mem_replicate hblank

theorem oneLine_flushed {buffer : List Char} (h : OneLine buffer) (mode : Mode) :
    OneLine (flushed mode buffer) := by
  rw [flushed.eq_def]
  split
  · exact oneLine_blanked buffer
  · exact oneLine_blanked buffer
  · exact oneLine_commentText h false
  · exact h

theorem oneLine_push {out : LineOut} {ch : Char} (hbuffer : OneLine out.buffer) (hch : '\n' ≠ ch) :
    OneLine (out.push ch).buffer := by
  intro hmem
  rcases List.mem_append.mp hmem with hmem | hmem
  · exact hbuffer hmem
  · exact hch (List.mem_singleton.mp hmem)

theorem ne_of_getElem? {chars : List Char} {idx : Nat} {ch : Char} (hline : OneLine chars)
    (hget : chars[idx]? = some ch) : '\n' ≠ ch := by
  intro heq
  apply hline
  rw [heq]
  exact List.mem_of_getElem? hget

/-- A turn appends to the PHP, and breaks its line only with its own text. -/
theorem OutStep.oneLine {chars : List Char} {mode mode' : Mode} {out out' : LineOut}
    {text : List Char} (h : OutStep chars mode out text mode' out') (hline : OneLine chars)
    (hbuffer : OneLine out.buffer) :
    (OneLine out'.processed ↔ OneLine out.processed ∧ OneLine text) ∧ OneLine out'.buffer := by
  have hnil : OneLine ([] : List Char) := List.not_mem_nil
  have hflushed (mode : Mode) : OneLine (flushed mode out.buffer) := oneLine_flushed hbuffer mode
  cases h with
  | push _ hget =>
      exact ⟨(and_iff_left hnil).symm, oneLine_push hbuffer (ne_of_getElem? hline hget)⟩
  | pushTwo _ hget hother =>
      refine ⟨(and_iff_left hnil).symm, ?_⟩
      exact oneLine_push (oneLine_push hbuffer (ne_of_getElem? hline hget))
        (ne_of_getElem? hline hother)
  | skip => exact ⟨(and_iff_left hnil).symm, hbuffer⟩
  | endVerbatim => exact ⟨(and_iff_left hnil).symm, hbuffer⟩
  | lower =>
      rw [LineOut.lower_processed, LineOut.flush_processed, LineOut.lower_buffer,
        LineOut.flush_buffer, oneLine_append, oneLine_append, and_iff_left (hflushed mode)]
      exact ⟨Iff.rfl, hnil⟩
  | @consumeArgs suffix _ hget =>
      have hpushed := oneLine_push hbuffer (show '\n' ≠ ')' by decide)
      rw [LineOut.emitSuffix_processed, LineOut.flush_processed, LineOut.emitSuffix_buffer,
        LineOut.flush_buffer, oneLine_append, oneLine_append,
        and_iff_left (oneLine_flushed hpushed _)]
      exact ⟨Iff.rfl, hnil⟩
  | skipArgs => exact ⟨oneLine_append, hnil⟩
  | captureArgs => exact ⟨oneLine_append, hnil⟩
  | @closeQuoted delim =>
      show (OneLine (((out.flush _).processed) ++ text) ↔ _) ∧ OneLine (out.flush _).buffer
      rw [LineOut.flush_processed, LineOut.flush_buffer, oneLine_append, oneLine_append,
        and_iff_left (hflushed _)]
      exact ⟨Iff.rfl, hnil⟩
  | closeShorthand =>
      rw [LineOut.emitSuffix_processed, LineOut.flush_processed, LineOut.emitSuffix_buffer,
        LineOut.flush_buffer, oneLine_append, oneLine_append, and_iff_left (hflushed _)]
      exact ⟨Iff.rfl, hnil⟩

/-- Nothing leaks where nothing is left to read. -/
theorem not_leak_of_end (h : env.line.length ≤ s.out.charIdx) : ¬Leak env s := by
  have hrest := List.drop_eq_nil_iff.mpr h
  intro hleak
  cases hleak with
  | declares _ hbroken =>
      have hat := hbroken.at_cursor
      rw [hrest] at hat
      cases hat
  | calls _ hbroken =>
      have hat := hbroken.at_cursor
      rw [hrest] at hat
      simp at hat
  | injects _ hrest' =>
      rw [hrest] at hrest'
      cases hrest'

/-- The PHP of a line is on one line as long as no turn has leaked. -/
theorem oneLine_iterate {scan : Scan} (hline : OneLine env.line) (hok : SuffixesOk scan) (n : Nat) :
    (OneLine ((State.step env)^[n] (startLine scan)).out.processed ↔
        ∀ m < n, ¬Leak env ((State.step env)^[m] (startLine scan))) ∧
      OneLine ((State.step env)^[n] (startLine scan)).out.buffer := by
  induction n with
  | zero => exact ⟨iff_of_true List.not_mem_nil (by simp), List.not_mem_nil⟩
  | succ n ih =>
      have hon := onLine_iterate hline (@onLine_startLine env _ hok) n
      rw [Function.iterate_succ_apply', Nat.forall_lt_succ_right, ← ih.1]
      generalize (State.step env)^[n] (startLine scan) = s at ih hon ⊢
      by_cases hidx : s.out.charIdx < env.line.length
      · obtain ⟨text, hturn, -⟩ := turn_step hline hidx hon.suffixes
        have hstep := hturn.out.oneLine hline ih.2
        rw [hstep.1, hturn.leak]
        exact ⟨Iff.rfl, hstep.2⟩
      · have hend := Nat.le_of_not_lt hidx
        rw [step_of_end hend]
        exact ⟨(and_iff_left (not_leak_of_end hend)).symm, ih.2⟩

/-! ## The end of a line -/

/-- What the end of a line keeps. -/
structure Kept (s s' : State) : Prop where
  processed : OneLine s'.out.processed ↔ OneLine s.out.processed
  buffer : OneLine s'.out.buffer
  suffixes : SuffixesOk s'.scan

theorem kept_refl (hbuffer : OneLine s.out.buffer) (hok : SuffixesOk s.scan) : Kept s s :=
  ⟨Iff.rfl, hbuffer, hok⟩

/-- Text behind what a flush leaves. -/
theorem kept_of_flush {mode : Mode} {text : List Char} {scan : Scan} {out : LineOut}
    (hbuffer : OneLine s.out.buffer) (htext : OneLine text) (hok : SuffixesOk scan)
    (hprocessed : out.processed = (s.out.flush mode).processed ++ text)
    (hempty : out.buffer = []) : Kept s ⟨scan, out⟩ := by
  refine ⟨?_, ?_, hok⟩
  · show OneLine out.processed ↔ _
    rw [hprocessed, LineOut.flush_processed, oneLine_append, oneLine_append, and_iff_left htext,
      and_iff_left (oneLine_flushed hbuffer mode)]
  · show OneLine out.buffer
    rw [hempty]
    exact List.not_mem_nil

theorem kept_endEcho (hbuffer : OneLine s.out.buffer) (hok : SuffixesOk s.scan) :
    Kept s s.endEcho := by
  rw [State.endEcho]
  split
  · split
    · rename_i rawEcho _ _
      have htext : OneLine (if rawEcho = true then "; ".toList else "); ".toList) := by
        split <;> decide
      refine kept_of_flush hbuffer htext ?_ rfl (LineOut.flush_buffer _ _)
      exact ⟨trivial, hok.bound⟩
    · exact kept_refl hbuffer hok
  · split
    · exact ⟨Iff.rfl, hbuffer, trivial, hok.bound⟩
    · exact kept_refl hbuffer hok
  · exact kept_refl hbuffer hok

theorem kept_endBoundAttr (hbuffer : OneLine s.out.buffer) (hok : SuffixesOk s.scan) :
    Kept s s.endBoundAttr := by
  rw [State.endBoundAttr]
  split
  · rename_i term _
    simp only
    split
    · apply @kept_of_flush _ (.boundAttr term) [] _ _ hbuffer List.not_mem_nil hok
      · rw [List.append_nil]
      · exact LineOut.flush_buffer _ _
    · refine kept_of_flush hbuffer hok.bound ?_ rfl (LineOut.flush_buffer _ _)
      exact ⟨trivial, hok.bound⟩
  · exact kept_refl hbuffer hok

theorem kept_endBuffer (hbuffer : OneLine s.out.buffer) (hok : SuffixesOk s.scan) :
    Kept s s.endBuffer := by
  rw [State.endBuffer]
  split
  · exact ⟨Iff.rfl, List.not_mem_nil, hok.mode, hok.bound⟩
  · apply @kept_of_flush _ _ [] _ _ hbuffer List.not_mem_nil hok
    · rw [List.append_nil]
    · exact LineOut.flush_buffer _ _

theorem kept_endLine (hbuffer : OneLine s.out.buffer) (hok : SuffixesOk s.scan) :
    Kept s s.endLine := by
  have hecho := kept_endEcho hbuffer hok
  have hbound := kept_endBoundAttr hecho.buffer hecho.suffixes
  have hend := kept_endBuffer hbound.buffer hbound.suffixes
  exact ⟨hend.processed.trans (hbound.processed.trans hecho.processed), hend.buffer, hend.suffixes⟩

/-! ## The lines of a template -/

/-- Where the scan of a line ends. -/
def scanned (project : Project) (all : List (List Char)) (lineIdx : Nat) (line : List Char)
    (following : List (List Char)) (scan : Scan) : State :=
  scanLine (lineEnv project all lineIdx line following) (startLine scan)

/-- The states the scan of the lines from `lineIdx` on goes through. -/
inductive Visits (project : Project) (all : List (List Char)) :
    Nat → List (List Char) → Scan → LineEnv → State → Prop
  | here {lineIdx : Nat} {line : List Char} {following : List (List Char)} {scan : Scan} (n : Nat) :
      Visits project all lineIdx (line :: following) scan
        (lineEnv project all lineIdx line following)
        ((State.step (lineEnv project all lineIdx line following))^[n] (startLine scan))
  | later {lineIdx : Nat} {line : List Char} {following : List (List Char)} {scan : Scan}
      {env : LineEnv} {s : State}
      (h : Visits project all (lineIdx + 1) following
        (scanned project all lineIdx line following scan).endLine.scan env s) :
      Visits project all lineIdx (line :: following) scan env s

variable {project : Project} {all : List (List Char)} {lineIdx : Nat} {line : List Char}
  {following : List (List Char)} {scan : Scan}

theorem scanLines_cons : scanLines project all lineIdx (line :: following) scan =
    ((scanned project all lineIdx line following scan).endLine.out.lowered ::
        (scanLines project all (lineIdx + 1) following
          (scanned project all lineIdx line following scan).endLine.scan).1,
      (scanLines project all (lineIdx + 1) following
        (scanned project all lineIdx line following scan).endLine.scan).2) := rfl

theorem oneLine_of_mem_lines {content line : List Char} (h : line ∈ lines content) :
    OneLine line := by
  induction content generalizing line with
  | nil => cases h
  | cons ch rest ih =>
      rw [lines] at h
      split at h
      · rcases List.mem_cons.mp h with rfl | h
        · exact List.not_mem_nil
        · exact ih h
      · rename_i hch
        cases hrest : lines rest with
        | nil =>
            rw [hrest] at h
            rw [List.mem_singleton.mp h]
            intro hmem
            exact hch (List.mem_singleton.mp hmem).symm
        | cons first following =>
            rw [hrest] at h ih
            simp only at h
            split at h
            · exact ih h
            · rcases List.mem_cons.mp h with rfl | h
              · intro hmem
                rcases List.mem_cons.mp hmem with heq | hmem
                · exact hch heq.symm
                · exact ih List.mem_cons_self hmem
              · exact ih (List.mem_cons_of_mem _ h)

theorem suffixesOk_startScan : SuffixesOk startScan := ⟨trivial, by decide⟩

/-- A line is lowered to one line when no turn of its scan leaks. -/
theorem oneLine_scanned (hline : OneLine line) (hok : SuffixesOk scan) :
    (OneLine (scanned project all lineIdx line following scan).endLine.out.processed ↔
        ∀ n, ¬Leak (lineEnv project all lineIdx line following)
          ((State.step (lineEnv project all lineIdx line following))^[n] (startLine scan))) ∧
      SuffixesOk (scanned project all lineIdx line following scan).endLine.scan := by
  have henv : OneLine (lineEnv project all lineIdx line following).line := hline
  have hrun := oneLine_iterate henv hok (turns line)
  have hkept := kept_endLine (s := scanned project all lineIdx line following scan) hrun.2
    (onLine_iterate henv (onLine_startLine hok) _).suffixes
  refine ⟨(hkept.processed.trans hrun.1).trans ?_, hkept.suffixes⟩
  constructor
  · intro h n
    by_cases hn : n < turns line
    · exact h n hn
    · apply not_leak_of_end
      rw [iterate_of_turns henv hok (Nat.le_of_not_lt hn)]
  · intro h m _
    exact h m

/-- Every line is lowered to one line exactly when no turn leaks. -/
theorem oneLine_scanLines {lines : List (List Char)} (hlines : ∀ line ∈ lines, OneLine line)
    (hok : SuffixesOk scan) :
    (∀ lowered ∈ (scanLines project all lineIdx lines scan).1, OneLine lowered.php) ↔
      ∀ env s, Visits project all lineIdx lines scan env s → ¬Leak env s := by
  induction lines generalizing lineIdx scan with
  | nil =>
      apply iff_of_true
      · intro lowered hmem
        cases hmem
      · intro env s h
        cases h
  | cons line following ih =>
      rw [List.forall_mem_cons] at hlines
      have hhere := @oneLine_scanned project all lineIdx _ following _ hlines.1 hok
      rw [scanLines_cons, List.forall_mem_cons, ih hlines.2 hhere.2]
      show OneLine (State.endLine _).out.processed ∧ _ ↔ _
      rw [hhere.1]
      constructor
      · intro ⟨hnow, hlater⟩ env s h
        cases h with
        | here n => exact hnow n
        | later h => exact hlater env s h
      · intro h
        exact ⟨fun n => h _ _ (.here n), fun env s hlater => h env s (.later hlater)⟩

/-! ## The virtual file -/

theorem length_scanLines {lines : List (List Char)} :
    (scanLines project all lineIdx lines scan).1.length = lines.length := by
  induction lines generalizing lineIdx scan with
  | nil => rfl
  | cons line following ih =>
      rw [scanLines_cons]
      exact congrArg (· + 1) ih

@[simp] theorem newlines_append (text more : List Char) :
    newlines (text ++ more) = newlines text + newlines more := List.count_append

theorem newlines_eq_zero {text : List Char} : newlines text = 0 ↔ OneLine text :=
  List.count_eq_zero

/-- Every emitted line takes one line, and one more for each break in it. -/
theorem newlines_body (lowered : List LoweredLine) :
    newlines (body lowered) = lowered.length + (lowered.map fun line => newlines line.php).sum := by
  induction lowered with
  | nil => rfl
  | cons line lowered ih =>
      rw [body, List.flatMap_cons, ← body, newlines_append, newlines_append, ih, List.map_cons,
        List.sum_cons, List.length_cons]
      have hbreak : newlines ['\n'] = 1 := rfl
      omega

theorem length_splitOn_newline (text : List Char) :
    (text.splitOn '\n').length = newlines text + 1 := by
  induction text with
  | nil => rfl
  | cons ch rest ih =>
      rw [List.splitOn_cons_eq_if_modifyHead, newlines, List.count_cons, ← newlines]
      split
      · rw [List.length_cons, ih]
      · rw [List.length_modifyHead, ih, Nat.add_zero]

theorem splitOn_body {lowered : List LoweredLine} (h : ∀ line ∈ lowered, OneLine line.php)
    (rest : List Char) :
    (body lowered ++ rest).splitOn '\n' = lowered.map LoweredLine.php ++ rest.splitOn '\n' := by
  induction lowered with
  | nil => rfl
  | cons line lowered ih =>
      rw [List.forall_mem_cons] at h
      rw [body, List.flatMap_cons, ← body, List.append_assoc, List.append_assoc, List.singleton_append,
        List.splitOn_append_cons_self_of_not_mem h.1, ih h.2]
      rfl

variable {declared : List (List Char × List Char)} {thisClass : Option (List Char)}
  {content : List Char}

theorem exists_newline_end (text : List Char) :
    ∃ start, text ++ ";\n".toList = start ++ ['\n'] := by
  refine ⟨text ++ [';'], ?_⟩
  rw [List.append_assoc]
  rfl

theorem prologueTail_eq (declared : List (List Char × List Char)) (thisClass : Option (List Char)) :
    ∃ start, prologueTail declared thisClass = start ++ ['\n'] := by
  unfold prologueTail
  exact exists_newline_end _

/-- The lines stand between a prologue of `prologueLines` lines and the epilogue. -/
theorem virtualPhp_eq :
    ∃ start, (preprocess project declared thisClass content).virtualPhp =
        start ++ '\n' :: (body (scanTemplate project content).1 ++
          epilogue (scanTemplate project content).2 thisClass) ∧
      (preprocess project declared thisClass content).prologueLines = newlines start + 1 := by
  obtain ⟨tail, htail⟩ := prologueTail_eq declared thisClass
  rw [preprocess]
  simp only
  split
  · refine ⟨prologueHead ++ tail, ?_, ?_⟩
    · rw [htail]
      simp
    · rw [htail, ← List.append_assoc, newlines_append]
      rfl
  · refine ⟨prologueHead ++
        (scanTemplate project content).2.hoistedUses.flatMap (· ++ ['\n']) ++ tail, ?_, ?_⟩
    · rw [htail]
      simp
    · rw [htail]
      simp only [newlines_append]
      have hbreak : newlines ['\n'] = 1 := rfl
      omega

/-- Every line of the template is a line of the virtual file, `prologueLines` further down, and
nothing but the epilogue follows the last. -/
structure Aligned (project : Project) (declared : List (List Char × List Char))
    (thisClass : Option (List Char)) (content : List Char) : Prop where
  lowered : (scanTemplate project content).1.length = (lines content).length
  emitted : ∀ (i : Nat) (line : LoweredLine), (scanTemplate project content).1[i]? = some line →
    ((preprocess project declared thisClass content).virtualPhp.splitOn '\n')[
      (preprocess project declared thisClass content).prologueLines + i]? = some line.php
  height : ∃ before, (preprocess project declared thisClass content).virtualPhp =
      before ++ epilogue (scanTemplate project content).2 thisClass ∧
    newlines before = (preprocess project declared thisClass content).prologueLines +
      (lines content).length

theorem aligned_of_oneLine
    (h : ∀ line ∈ (scanTemplate project content).1, OneLine line.php) :
    Aligned project declared thisClass content := by
  obtain ⟨start, hphp, hprologue⟩ := @virtualPhp_eq project declared thisClass content
  refine ⟨length_scanLines, ?_, ?_⟩
  · intro i line hline
    rw [hphp, hprologue, List.splitOn_append_cons_self, ← length_splitOn_newline,
      List.getElem?_append_right (Nat.le_add_right _ _), Nat.add_sub_cancel_left, splitOn_body h,
      List.getElem?_append_left, List.getElem?_map, hline]
    · rfl
    · rw [List.length_map]
      exact (List.getElem?_eq_some_iff.mp hline).1
  · refine ⟨start ++ '\n' :: body (scanTemplate project content).1, by rw [hphp]; simp, ?_⟩
    have hzero : ((scanTemplate project content).1.map fun line => newlines line.php).sum = 0 := by
      apply List.sum_eq_zero
      intro count hcount
      obtain ⟨line, hmem, rfl⟩ := List.mem_map.mp hcount
      exact newlines_eq_zero.mpr (h line hmem)
    have hlength : (scanTemplate project content).1.length = (lines content).length :=
      length_scanLines
    rw [hprologue, newlines_append, ← List.singleton_append, newlines_append, newlines_body, hzero,
      hlength]
    have hbreak : newlines ['\n'] = 1 := rfl
    omega

/-- A line that is broken makes the virtual file too high. -/
theorem oneLine_of_aligned (h : Aligned project declared thisClass content) :
    ∀ line ∈ (scanTemplate project content).1, OneLine line.php := by
  obtain ⟨start, hphp, hprologue⟩ := @virtualPhp_eq project declared thisClass content
  obtain ⟨before, hbefore, hheight⟩ := h.height
  have hsame : before = start ++ '\n' :: body (scanTemplate project content).1 := by
    have hboth := hbefore.symm.trans hphp
    rw [← List.cons_append, ← List.append_assoc] at hboth
    exact List.append_cancel_right hboth
  have hlength : (scanTemplate project content).1.length = (lines content).length :=
    length_scanLines
  rw [hsame, hprologue, newlines_append, ← List.singleton_append, newlines_append, newlines_body,
    hlength] at hheight
  have hbreak : newlines ['\n'] = 1 := rfl
  have hzero : ((scanTemplate project content).1.map fun line => newlines line.php).sum = 0 := by
    omega
  intro line hmem
  apply newlines_eq_zero.mp
  exact List.sum_eq_zero_iff.mp hzero _ (List.mem_map_of_mem hmem)

/-- The lines of a template keep their places in the virtual file exactly when
no turn of the scan leaks. -/
theorem aligned_iff (project : Project) (declared : List (List Char × List Char))
    (thisClass : Option (List Char)) (content : List Char) :
    Aligned project declared thisClass content ↔
      ∀ env s, Visits project (lines content) 0 (lines content) startScan env s → ¬Leak env s := by
  rw [← oneLine_scanLines (fun _ => oneLine_of_mem_lines) suffixesOk_startScan]
  exact ⟨oneLine_of_aligned, aligned_of_oneLine⟩

/-- An `@inject` writes its service as it stands, so a line break in the middle
of the service moves every later line. -/
theorem not_aligned_inject :
    ¬Aligned ⟨none, .new none []⟩ [] none "@inject('m', $a ??\n'M')".toList := by
  intro h
  have hlines := oneLine_of_aligned h
  revert hlines
  decide +kernel

end PhpantomLsp.Blade
