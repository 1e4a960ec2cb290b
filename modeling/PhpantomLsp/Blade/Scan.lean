import PhpantomLsp.Blade.LineBreaks
import PhpantomLsp.Lib.Runs

/-!
# The scan of a line

`OutStep` lists what a turn of the scan can do to the line being lowered:
buffer a character, pass one over, or flush and put text of its own in.  A turn
that stays where it is returns to markup, where every turn moves on, so the
scan reaches the end of the line (`scanLine_done`).

A turn leaks exactly when the text it puts in is not on one line (`Turn.leak`).
-/

namespace PhpantomLsp.Blade

open PhpantomLsp.Lib (iterate_done)
open PhpantomLsp.Text (lenUtf16 utf16Len)

/-- What a turn does to the line and the mode, with the text it puts in. -/
inductive OutStep (chars : List Char) : Mode → LineOut → List Char → Mode → LineOut → Prop
  | push {mode : Mode} {out : LineOut} {ch : Char} (hverbatim : mode ≠ .verbatim)
      (hget : chars[out.charIdx]? = some ch) :
      OutStep chars mode out [] mode (out.push ch)
  | pushTwo {mode : Mode} {out : LineOut} {ch other : Char} (hverbatim : mode ≠ .verbatim)
      (hget : chars[out.charIdx]? = some ch)
      (hother : chars[out.charIdx + 1]? = some other) :
      OutStep chars mode out [] mode ((out.push ch).push other)
  | skip {mode : Mode} {out : LineOut} {ch : Char}
      (hmode : mode = .verbatim ∨ ∃ suffix, mode = .skipArgs suffix)
      (hget : chars[out.charIdx]? = some ch) : OutStep chars mode out [] mode (out.skip ch)
  | endVerbatim {out : LineOut} (hmatch : Matches (chars.drop out.charIdx) 12) :
      OutStep chars .verbatim out [] .html (out.advance 12)
  | lower {mode next : Mode} {out : LineOut} {n : Nat} {text : List Char}
      (hskip : ∀ suffix, mode ≠ .skipArgs suffix) (hverbatim : mode ≠ .verbatim)
      (hmatch : Matches (chars.drop out.charIdx) n)
      (hmoves : 0 < n ∨ (mode ≠ .html ∧ next = .html)) :
      OutStep chars mode out text next ((out.flush mode).lower n text)
  | consumeArgs {suffix : String} {out : LineOut} (hget : chars[out.charIdx]? = some ')') :
      OutStep chars (.directiveArgs suffix) out suffix.toList .html
        (((out.push ')').flush (.directiveArgs suffix)).emitSuffix suffix.toList)
  | skipArgs {suffix : String} {out : LineOut} (hget : chars[out.charIdx]? = some ')') :
      OutStep chars (.skipArgs suffix) out suffix.toList .html
        ((out.advance 1).clear.emitSuffix suffix.toList)
  | captureArgs {kind : CapturedDirective} {out : LineOut} {text : List Char}
      (hget : chars[out.charIdx]? = some ')') :
      OutStep chars (.captureArgs kind) out text .html ((out.advance 1).clear.emitSuffix text)
  | closeQuoted {delim : Char} {out : LineOut} {text : List Char} {ch : Char}
      (hget : chars[out.charIdx]? = some ch) :
      OutStep chars (.boundAttr (some delim)) out text .html
        ((((out.flush (.boundAttr (some delim))).emitSuffix text).skip ch).anchor)
  | closeShorthand {out : LineOut} {text : List Char} :
      OutStep chars (.boundAttr none) out text .html
        ((out.flush (.boundAttr none)).emitSuffix text)

/-- What a turn does, and when it leaks. -/
structure Turn (env : LineEnv) (s s' : State) (text : List Char) : Prop where
  out : OutStep env.line s.scan.mode s.out text s'.scan.mode s'.out
  leak : OneLine text ↔ ¬Leak env s

/-- All text a scan state holds ready is on one line. -/
structure SuffixesOk (scan : Scan) : Prop where
  mode : scan.mode.SuffixOk
  bound : OneLine scan.boundAttr.suffix.toList

variable {env : LineEnv} {s : State} {ch : Char} {after : List Char}

theorem getElem?_of_drop (h : env.line.drop s.out.charIdx = ch :: after) :
    env.line[s.out.charIdx]? = some ch := by
  rw [← List.head?_drop, h]
  rfl

theorem getElem?_succ_of_drop {next : Char} (h : env.line.drop s.out.charIdx = ch :: after)
    (hnext : after.head? = some next) : env.line[s.out.charIdx + 1]? = some next := by
  rw [← List.head?_drop, ← List.drop_drop, h, List.drop_one]
  exact hnext

/-- A mode other than the three that leak adds nothing with a line break. -/
theorem not_leak_of_mode (hhtml : s.scan.mode ≠ .html)
    (hinject : s.scan.mode ≠ .captureArgs .inject) : ¬Leak env s := by
  intro h
  cases h with
  | declares hmode => exact hhtml hmode
  | calls hmode => exact hhtml hmode
  | injects hmode => exact hinject hmode

/-- A turn that puts nothing in. -/
theorem turn_of_nil {s' : State} (hout : OutStep env.line s.scan.mode s.out [] s'.scan.mode s'.out)
    (hleak : ¬Leak env s) : Turn env s s' [] :=
  ⟨hout, iff_of_true List.not_mem_nil hleak⟩

/-- Strings and comments buffer what they read. -/
theorem turn_trackCode {s' : State} (hrest : env.line.drop s.out.charIdx = ch :: after)
    (hcode : s.scan.mode.isCode = true) (h : s.trackCode ch after.head? = some s') :
    Turn env s s' [] ∧ s'.scan.mode = s.scan.mode ∧ s'.scan.boundAttr = s.scan.boundAttr := by
  have hleak : ¬Leak env s := by
    intro hleak
    cases hleak with
    | declares hmode => rw [hmode] at hcode; exact absurd hcode (by decide)
    | calls hmode => rw [hmode] at hcode; exact absurd hcode (by decide)
    | injects _ hrest' hnone =>
        rw [hrest] at hrest'
        obtain ⟨rfl, rfl⟩ := List.cons.inj hrest'
        rw [h] at hnone
        cases hnone
  have hget := getElem?_of_drop hrest
  have hverbatim : s.scan.mode ≠ .verbatim := by
    intro h
    rw [h] at hcode
    cases hcode
  have hpush {scan : Scan} (hmode : scan.mode = s.scan.mode)
      (hbound : scan.boundAttr = s.scan.boundAttr) :
      Turn env s ⟨scan, s.out.push ch⟩ [] ∧ scan.mode = s.scan.mode ∧
        scan.boundAttr = s.scan.boundAttr := by
    refine ⟨turn_of_nil ?_ hleak, hmode, hbound⟩
    show OutStep env.line s.scan.mode s.out [] scan.mode (s.out.push ch)
    rw [hmode]
    exact .push hverbatim hget
  rw [State.trackCode] at h
  simp only at h
  split at h
  · cases h
    exact hpush rfl rfl
  · split at h
    · split at h
      · rename_i hend
        cases h
        exact ⟨turn_of_nil (.pushTwo hverbatim hget (getElem?_succ_of_drop hrest hend.2)) hleak, rfl, rfl⟩
      · cases h
        exact hpush rfl rfl
    · split at h
      · split at h
        · cases h
          exact hpush rfl rfl
        · split at h
          · cases h
            exact hpush rfl rfl
          · split at h
            · cases h
              exact hpush rfl rfl
            · cases h
              exact hpush rfl rfl
      · split at h
        · cases h
          exact hpush rfl rfl
        · split at h
          · cases h
            exact hpush rfl rfl
          · split at h
            · cases h
              exact hpush rfl rfl
            · cases h

/-! ## One lemma a mode -/

/-- A lowering is put in place, or the character is kept. -/
theorem outStep_applyLowering {scan' : Scan} {next : Option Char} {l : Lowering}
    (hrest : env.line.drop s.out.charIdx = ch :: after) (hmode : scan'.mode = s.scan.mode)
    (hskip : ∀ suffix, s.scan.mode ≠ .skipArgs suffix) (hverbatim : s.scan.mode ≠ .verbatim)
    (hmatch : Matches (ch :: after) l.matchLen)
    (hmoves : (0 < l.matchLen ∨ (s.scan.mode ≠ .html ∧ l.nextMode = .html)) ∨
      l = .keep s.scan.mode) :
    OutStep env.line s.scan.mode s.out l.replacement
        (({ s with scan := scan' } : State).applyLowering ch next l).scan.mode
        (({ s with scan := scan' } : State).applyLowering ch next l).out ∧
      (({ s with scan := scan' } : State).applyLowering ch next l).scan.mode = l.nextMode ∧
      (({ s with scan := scan' } : State).applyLowering ch next l).scan.boundAttr =
        scan'.boundAttr := by
  rw [State.applyLowering]
  by_cases htaken : 0 < l.matchLen ∨ scan'.mode ≠ l.nextMode
  · rw [if_pos htaken]
    refine ⟨?_, rfl, rfl⟩
    show OutStep env.line s.scan.mode s.out l.replacement l.nextMode
      ((s.out.flush scan'.mode).lower l.matchLen l.replacement)
    rw [hmode]
    apply OutStep.lower hskip hverbatim (by rw [hrest]; exact hmatch)
    rcases hmoves with hmoves | hkeep
    · exact hmoves
    · rw [hkeep, hmode] at htaken
      exact absurd htaken (by simp [Lowering.keep])
  · rw [if_neg htaken]
    have hkeep : l = .keep s.scan.mode := by
      rcases hmoves with (hpos | ⟨hhtml, hnext⟩) | hkeep
      · exact absurd (Or.inl hpos) htaken
      · rw [hmode, hnext] at htaken
        exact absurd (Or.inr hhtml) htaken
      · exact hkeep
    rw [hkeep]
    refine ⟨?_, hmode, rfl⟩
    show OutStep env.line s.scan.mode s.out [] scan'.mode (s.out.push ch)
    rw [hmode]
    exact .push hverbatim (getElem?_of_drop hrest)

/-- A mode that only markup follows. -/
theorem turn_closes {scan' : Scan} {next : Option Char} {l : Lowering}
    (hrest : env.line.drop s.out.charIdx = ch :: after) (hscan : scan'.mode = s.scan.mode)
    (hbound : scan'.boundAttr = s.scan.boundAttr) (hhtml : s.scan.mode ≠ .html)
    (hskip : ∀ suffix, s.scan.mode ≠ .skipArgs suffix) (hverbatim : s.scan.mode ≠ .verbatim)
    (hleak : ¬Leak env s) (h : Closes s.scan.mode (ch :: after) l)
    (hok : SuffixesOk s.scan) :
    ∃ text, Turn env s (({ s with scan := scan' } : State).applyLowering ch next l) text ∧
      SuffixesOk (({ s with scan := scan' } : State).applyLowering ch next l).scan := by
  have hmoves : (0 < l.matchLen ∨ (s.scan.mode ≠ .html ∧ l.nextMode = .html)) ∨
      l = .keep s.scan.mode := by
    rcases h.next with hnext | hkeep
    · exact Or.inl (Or.inr ⟨hhtml, hnext⟩)
    · exact Or.inr hkeep
  have hstep := @outStep_applyLowering _ _ _ _ _ next _ hrest hscan hskip hverbatim h.matched hmoves
  refine ⟨l.replacement, ⟨hstep.1, iff_of_true h.oneLine hleak⟩, ?_, ?_⟩
  · rw [hstep.2.1]
    rcases h.next with hnext | hkeep
    · rw [hnext]
      trivial
    · rw [hkeep]
      exact hok.mode
  · rw [hstep.2.2, hbound]
    exact hok.bound

/-- The character is kept in a mode that closes some other way. -/
theorem turn_keep {next : Option Char} {mode : Mode}
    (hrest : env.line.drop s.out.charIdx = ch :: after) (hmode : s.scan.mode = mode)
    (hhtml : mode ≠ .html) (hskip : ∀ suffix, mode ≠ .skipArgs suffix)
    (hverbatim : mode ≠ .verbatim) (hleak : ¬Leak env s) (hok : SuffixesOk s.scan) :
    ∃ text, Turn env s (s.applyLowering ch next (.keep mode)) text ∧
      SuffixesOk (s.applyLowering ch next (.keep mode)).scan := by
  subst hmode
  exact turn_closes hrest rfl rfl hhtml hskip hverbatim hleak (closes_keep _ _) hok

theorem closesArgs_eq {depth : Int} (h : (closesArgs ch depth).1 = true) : ch = ')' := by
  rw [closesArgs] at h
  split at h
  · cases h
  · split at h
    · assumption
    · cases h

theorem turn_html (hline : OneLine env.line) (hrest : env.line.drop s.out.charIdx = ch :: after)
    (hmode : s.scan.mode = .html) (hok : SuffixesOk s.scan) :
    ∃ text, Turn env s (s.stepMode env ch after) text ∧
      SuffixesOk (s.stepMode env ch after).scan := by
  have hrem : OneLine (ch :: after) := by
    rw [← hrest]
    exact fun hmem => hline ((List.drop_sublist _ _).subset hmem)
  have hskip (suffix : String) : s.scan.mode ≠ .skipArgs suffix := by
    rw [hmode]
    simp
  have hverbatim : s.scan.mode ≠ .verbatim := by
    rw [hmode]
    simp
  rw [State.stepMode]
  simp only [hmode]
  cases hlowering : htmlLowering env s.scan (ch :: after) s.out.charIdx with
  | none =>
      simp only
      have hstep := @outStep_applyLowering _ _ _ _ s.scan
        after.head? (.keep .html) hrest rfl hskip hverbatim (matches_zero _)
        (Or.inr (by rw [hmode]))
      refine ⟨[], ⟨hstep.1, iff_of_true List.not_mem_nil ?_⟩, ?_, ?_⟩
      · intro hleak
        obtain ⟨l, scan', h, -⟩ := htmlLowering_of_leak hmode hleak
        rw [hrest, hlowering] at h
        cases h
      · rw [hstep.2.1]
        trivial
      · rw [hstep.2.2]
        exact hok.bound
  | some found =>
      obtain ⟨l, scan'⟩ := found
      simp only
      have hopened := (opened_htmlLowering hrem hlowering).1
      have hmoves : (0 < l.matchLen ∨ (s.scan.mode ≠ .html ∧ l.nextMode = .html)) ∨
          l = .keep s.scan.mode := by
        rw [hmode]
        rcases hopened.moves with hpos | hkeep
        · exact Or.inl (Or.inl hpos)
        · exact Or.inr hkeep
      have hstep := @outStep_applyLowering _ _ _ _ _ after.head? _ hrest hopened.mode hskip
        hverbatim hopened.matched hmoves
      refine ⟨l.replacement, ⟨hstep.1, ?_⟩, ?_, ?_⟩
      · rw [← not_iff_not, not_not]
        exact not_oneLine_htmlLowering hmode hline (by rw [hrest]; exact hlowering)
      · rw [hstep.2.1]
        exact hopened.suffix
      · rw [hstep.2.2]
        exact hopened.boundSuffix hok.bound

/-- A depth is remembered and the character kept. -/
theorem turn_keepArgs {next : Option Char} {mode : Mode} (depth : Int)
    (hrest : env.line.drop s.out.charIdx = ch :: after) (hmode : s.scan.mode = mode)
    (hhtml : mode ≠ .html) (hskip : ∀ suffix, mode ≠ .skipArgs suffix)
    (hverbatim : mode ≠ .verbatim) (hleak : ¬Leak env s) (hok : SuffixesOk s.scan) :
    ∃ text, Turn env s ((s.setDepth depth).applyLowering ch next (.keep mode)) text ∧
      SuffixesOk ((s.setDepth depth).applyLowering ch next (.keep mode)).scan := by
  subst hmode
  exact @turn_closes _ _ _ _ { s.scan with parenDepth := depth } _ _ hrest rfl rfl hhtml hskip
    hverbatim hleak (closes_keep _ _) hok

theorem turn_consumeArgs {next : Option Char} {suffix : String}
    (hrest : env.line.drop s.out.charIdx = ch :: after)
    (hmode : s.scan.mode = .directiveArgs suffix) (hok : SuffixesOk s.scan) :
    ∃ text, Turn env s (s.consumeArgs suffix ch next) text ∧
      SuffixesOk (s.consumeArgs suffix ch next).scan := by
  have hleak : ¬Leak env s := not_leak_of_mode (by rw [hmode]; simp) (by rw [hmode]; simp)
  simp only [State.consumeArgs]
  by_cases hcloses : (closesArgs ch s.scan.parenDepth).1 = true
  · rw [if_pos hcloses]
    have hsuffix : OneLine suffix.toList := by
      have hmodeOk := hok.mode
      rw [hmode] at hmodeOk
      exact hmodeOk
    refine ⟨suffix.toList, ⟨?_, iff_of_true hsuffix hleak⟩, trivial, hok.bound⟩
    have hget := getElem?_of_drop hrest
    rw [closesArgs_eq hcloses] at hget
    rw [hmode]
    exact .consumeArgs hget
  · rw [if_neg hcloses]
    exact turn_keepArgs _ hrest hmode (by simp) (by simp) (by simp) hleak hok

theorem turn_skipArgs {suffix : String} (hrest : env.line.drop s.out.charIdx = ch :: after)
    (hmode : s.scan.mode = .skipArgs suffix) (hok : SuffixesOk s.scan) :
    ∃ text, Turn env s (s.skipArgs suffix ch) text ∧ SuffixesOk (s.skipArgs suffix ch).scan := by
  have hleak : ¬Leak env s := not_leak_of_mode (by rw [hmode]; simp) (by rw [hmode]; simp)
  have hget := getElem?_of_drop hrest
  simp only [State.skipArgs]
  by_cases hcloses : (closesArgs ch s.scan.parenDepth).1 = true
  · rw [if_pos hcloses]
    have hsuffix : OneLine suffix.toList := by
      have hmodeOk := hok.mode
      rw [hmode] at hmodeOk
      exact hmodeOk
    refine ⟨suffix.toList, ⟨?_, iff_of_true hsuffix hleak⟩, trivial, hok.bound⟩
    rw [closesArgs_eq hcloses] at hget
    rw [hmode]
    exact .skipArgs hget
  · rw [if_neg hcloses]
    exact ⟨[], turn_of_nil (.skip (Or.inr ⟨suffix, hmode⟩) hget) hleak, hok.mode, hok.bound⟩

theorem turn_captureArgs {kind : CapturedDirective}
    (hrest : env.line.drop s.out.charIdx = ch :: after) (hmode : s.scan.mode = .captureArgs kind)
    (hcode : s.trackCode ch after.head? = none) (hok : SuffixesOk s.scan) :
    ∃ text, Turn env s (s.captureArgs kind ch after.head?) text ∧
      SuffixesOk (s.captureArgs kind ch after.head?).scan := by
  simp only [State.captureArgs]
  by_cases hcloses : (closesArgs ch s.scan.parenDepth).1 = true
  · rw [if_pos hcloses]
    refine ⟨s.capturedText kind, ⟨?_, ?_⟩, trivial, hok.bound⟩
    · have hget := getElem?_of_drop hrest
      rw [closesArgs_eq hcloses] at hget
      rw [hmode]
      exact .captureArgs hget
    · cases kind with
      | use =>
          apply iff_of_true
          · exact List.not_mem_nil
          · exact not_leak_of_mode (by rw [hmode]; simp) (by rw [hmode]; simp)
      | inject =>
          rw [← not_iff_not, not_not]
          constructor
          · intro hbreak
            obtain ⟨name, service, hservice, h⟩ := not_oneLine_buildInjectStatement.mp hbreak
            exact .injects hmode hrest hcode hcloses hservice h
          · intro hleak
            cases hleak with
            | declares hhtml =>
                rw [hmode] at hhtml
                cases hhtml
            | calls hhtml =>
                rw [hmode] at hhtml
                cases hhtml
            | injects _ _ _ _ hservice h =>
                exact not_oneLine_buildInjectStatement.mpr ⟨_, _, hservice, h⟩
  · rw [if_neg hcloses]
    apply turn_keepArgs _ hrest hmode (by simp) (by simp) (by simp) _ hok
    intro hleak
    cases hleak with
    | declares hhtml =>
        rw [hmode] at hhtml
        cases hhtml
    | calls hhtml =>
        rw [hmode] at hhtml
        cases hhtml
    | injects _ hrest' _ hcloses' =>
        have hsame := hrest.symm.trans hrest'
        cases hsame
        exact hcloses hcloses'

theorem turn_scanVerbatim (hrest : env.line.drop s.out.charIdx = ch :: after)
    (hmode : s.scan.mode = .verbatim) (hok : SuffixesOk s.scan) :
    ∃ text, Turn env s (s.scanVerbatim (ch :: after) ch) text ∧
      SuffixesOk (s.scanVerbatim (ch :: after) ch).scan := by
  have hleak : ¬Leak env s := not_leak_of_mode (by rw [hmode]; simp) (by rw [hmode]; simp)
  rw [State.scanVerbatim]
  by_cases hends : "@endverbatim".toList <+: ch :: after
  · rw [if_pos hends]
    refine ⟨[], turn_of_nil ?_ hleak, trivial, hok.bound⟩
    rw [hmode]
    apply OutStep.endVerbatim
    rw [hrest]
    exact matches_of_isPrefix hends (by decide)
  · rw [if_neg hends]
    exact ⟨[], turn_of_nil (.skip (Or.inl hmode) (getElem?_of_drop hrest)) hleak, hok⟩

theorem turn_closeBoundAttr {term : Option Char} (hrest : env.line.drop s.out.charIdx = ch :: after)
    (hmode : s.scan.mode = .boundAttr term) (hok : SuffixesOk s.scan) :
    ∃ text, Turn env s (s.closeBoundAttr term ch) text ∧
      SuffixesOk (s.closeBoundAttr term ch).scan := by
  have hleak : ¬Leak env s := not_leak_of_mode (by rw [hmode]; simp) (by rw [hmode]; simp)
  refine ⟨s.scan.boundAttr.suffix.toList, ⟨?_, iff_of_true hok.bound hleak⟩, trivial, hok.bound⟩
  rw [hmode]
  cases term with
  | none => exact .closeShorthand
  | some delim => exact .closeQuoted (getElem?_of_drop hrest)

/-! ## A turn -/

theorem turn_stepMode (hline : OneLine env.line)
    (hrest : env.line.drop s.out.charIdx = ch :: after)
    (hcode : s.scan.mode.isCode = true → s.trackCode ch after.head? = none)
    (hok : SuffixesOk s.scan) :
    ∃ text, Turn env s (s.stepMode env ch after) text ∧
      SuffixesOk (s.stepMode env ch after).scan := by
  cases hmode : s.scan.mode with
  | html => exact turn_html hline hrest hmode hok
  | escapedEcho raw =>
      have hleak : ¬Leak env s := not_leak_of_mode (by rw [hmode]; simp) (by rw [hmode]; simp)
      simp only [State.stepMode, hmode]
      exact turn_closes hrest rfl rfl (by rw [hmode]; simp) (by rw [hmode]; simp)
        (by rw [hmode]; simp) hleak (by rw [hmode]; exact closes_closeEscaped raw) hok
  | comment =>
      have hleak : ¬Leak env s := not_leak_of_mode (by rw [hmode]; simp) (by rw [hmode]; simp)
      simp only [State.stepMode, hmode]
      exact turn_closes hrest rfl rfl (by rw [hmode]; simp) (by rw [hmode]; simp)
        (by rw [hmode]; simp) hleak (by rw [hmode]; exact closes_closeComment _) hok
  | php rawEcho =>
      have hleak : ¬Leak env s := not_leak_of_mode (by rw [hmode]; simp) (by rw [hmode]; simp)
      have hclose := @closes_closePhp env s.scan (ch :: after) rawEcho
      simp only [State.stepMode, hmode]
      exact turn_closes hrest hclose.2.1 hclose.2.2 (by rw [hmode]; simp) (by rw [hmode]; simp)
        (by rw [hmode]; simp) hleak (by rw [hmode]; exact hclose.1) hok
  | rawPhp needsSemicolon =>
      have hleak : ¬Leak env s := not_leak_of_mode (by rw [hmode]; simp) (by rw [hmode]; simp)
      simp only [State.stepMode, hmode]
      exact turn_closes hrest rfl rfl (by rw [hmode]; simp) (by rw [hmode]; simp)
        (by rw [hmode]; simp) hleak (by rw [hmode]; exact closes_phpIslandClose _) hok
  | directiveArgs suffix =>
      simp only [State.stepMode, hmode]
      exact turn_consumeArgs hrest hmode hok
  | skipArgs suffix =>
      simp only [State.stepMode, hmode]
      exact turn_skipArgs hrest hmode hok
  | captureArgs kind =>
      simp only [State.stepMode, hmode]
      exact turn_captureArgs hrest hmode (hcode (by rw [hmode]; rfl)) hok
  | verbatim =>
      simp only [State.stepMode, hmode]
      exact turn_scanVerbatim hrest hmode hok
  | boundAttr term =>
      have hleak : ¬Leak env s := not_leak_of_mode (by rw [hmode]; simp) (by rw [hmode]; simp)
      simp only [State.stepMode, hmode]
      exact turn_keep hrest hmode (by simp) (by simp) (by simp) hleak hok

theorem turn_stepCode (hline : OneLine env.line)
    (hrest : env.line.drop s.out.charIdx = ch :: after) (hok : SuffixesOk s.scan) :
    ∃ text, Turn env s (s.stepCode env ch after) text ∧
      SuffixesOk (s.stepCode env ch after).scan := by
  rw [State.stepCode]
  by_cases hcode : s.scan.mode.isCode = true
  · rw [if_pos hcode]
    cases htrack : s.trackCode ch after.head? with
    | none =>
        simp only
        exact turn_stepMode hline hrest (fun _ => htrack) hok
    | some s' =>
        simp only
        have hturn := turn_trackCode hrest hcode htrack
        refine ⟨[], hturn.1, ?_, ?_⟩
        · rw [hturn.2.1]
          exact hok.mode
        · rw [hturn.2.2]
          exact hok.bound
  · rw [if_neg hcode]
    exact turn_stepMode hline hrest (fun h => absurd h hcode) hok

/-- What a turn does short of the end of the line. -/
theorem turn_step (hline : OneLine env.line) (hidx : s.out.charIdx < env.line.length)
    (hok : SuffixesOk s.scan) :
    ∃ text, Turn env s (s.step env) text ∧ SuffixesOk (s.step env).scan := by
  rw [State.step]
  cases hrest : env.line.drop s.out.charIdx with
  | nil =>
      rw [List.drop_eq_nil_iff] at hrest
      omega
  | cons ch after =>
      simp only
      split
      · rename_i term hmode
        split
        · exact turn_closeBoundAttr hrest hmode hok
        · exact turn_stepCode hline hrest hok
      · exact turn_stepCode hline hrest hok

theorem step_of_end (h : env.line.length ≤ s.out.charIdx) : s.step env = s := by
  rw [State.step, List.drop_eq_nil_iff.mpr h]

/-! ## The whole line -/

section LineOut

variable (out : LineOut)

@[simp] theorem LineOut.flush_charIdx (mode : Mode) : (out.flush mode).charIdx = out.charIdx := by
  rw [LineOut.flush]
  split <;> rfl

@[simp] theorem LineOut.flush_col (mode : Mode) : (out.flush mode).col = out.col := by
  rw [LineOut.flush]
  split <;> rfl

@[simp] theorem LineOut.flush_buffer (mode : Mode) : (out.flush mode).buffer = [] := by
  rw [LineOut.flush]
  split
  · assumption
  · rfl

@[simp] theorem LineOut.flush_processed (mode : Mode) :
    (out.flush mode).processed = out.processed ++ flushed mode out.buffer := by
  rw [LineOut.flush]
  split
  · rename_i hempty
    have hnil : flushed mode [] = [] := by
      cases mode <;> rfl
    rw [hempty, hnil, List.append_nil]
  · rfl

@[simp] theorem LineOut.emitSuffix_charIdx (text : List Char) :
    (out.emitSuffix text).charIdx = out.charIdx := rfl

@[simp] theorem LineOut.emitSuffix_col (text : List Char) :
    (out.emitSuffix text).col = out.col := rfl

@[simp] theorem LineOut.emitSuffix_buffer (text : List Char) :
    (out.emitSuffix text).buffer = out.buffer := rfl

@[simp] theorem LineOut.emitSuffix_processed (text : List Char) :
    (out.emitSuffix text).processed = out.processed ++ text := rfl

@[simp] theorem LineOut.lower_charIdx (n : Nat) (text : List Char) :
    (out.lower n text).charIdx = out.charIdx + n := by
  rw [LineOut.lower]
  split <;> rfl

@[simp] theorem LineOut.lower_col (n : Nat) (text : List Char) :
    (out.lower n text).col = out.col + n := by
  rw [LineOut.lower]
  split <;> rfl

@[simp] theorem LineOut.lower_buffer (n : Nat) (text : List Char) :
    (out.lower n text).buffer = out.buffer := by
  rw [LineOut.lower]
  split <;> rfl

@[simp] theorem LineOut.lower_processed (n : Nat) (text : List Char) :
    (out.lower n text).processed = out.processed ++ text := by
  rw [LineOut.lower]
  split
  · rename_i hempty
    rw [hempty, List.append_nil]
    rfl
  · rfl

end LineOut

theorem Matches.le_of_drop {chars : List Char} {idx n : Nat} (h : Matches (chars.drop idx) n)
    (hidx : idx ≤ chars.length) : idx + n ≤ chars.length := by
  have hle := h.le
  rw [List.length_drop] at hle
  omega

/-- Whether a turn is still to be made where the scan stands. -/
def Mode.rank (mode : Mode) : Nat := if mode = .html then 0 else 1

theorem Mode.rank_le (mode : Mode) : mode.rank ≤ 1 := by
  rw [rank]
  split <;> omega

/-- A turn stays on the line, and moves on or returns to markup. -/
theorem OutStep.advances {chars : List Char} {mode mode' : Mode} {out out' : LineOut}
    {text : List Char} (h : OutStep chars mode out text mode' out')
    (hidx : out.charIdx < chars.length) :
    out'.charIdx ≤ chars.length ∧
      2 * (chars.length - out'.charIdx) + mode'.rank <
        2 * (chars.length - out.charIdx) + mode.rank := by
  cases h with
  | push =>
      show out.charIdx + 1 ≤ _ ∧ 2 * (chars.length - (out.charIdx + 1)) + _ < _
      omega
  | pushTwo _ hget hother =>
      have hless := (List.getElem?_eq_some_iff.mp hother).1
      show out.charIdx + 1 + 1 ≤ _ ∧ 2 * (chars.length - (out.charIdx + 1 + 1)) + _ < _
      omega
  | skip =>
      show out.charIdx + 1 ≤ _ ∧ 2 * (chars.length - (out.charIdx + 1)) + _ < _
      omega
  | endVerbatim hmatch =>
      have hle := hmatch.le_of_drop (Nat.le_of_lt hidx)
      have hhtml := Mode.rank_le .html
      show out.charIdx + 12 ≤ _ ∧ 2 * (chars.length - (out.charIdx + 12)) + _ < _
      omega
  | @lower _ _ _ n _ _ _ hmatch hmoves =>
      have hle := hmatch.le_of_drop (Nat.le_of_lt hidx)
      have hnext := mode'.rank_le
      rw [LineOut.lower_charIdx, LineOut.flush_charIdx]
      rcases hmoves with hpos | ⟨hhtml, rfl⟩
      · omega
      · have hback : mode.rank = 1 := by
          rw [Mode.rank, if_neg hhtml]
        have hmarkup : Mode.html.rank = 0 := rfl
        omega
  | consumeArgs =>
      have hhtml := Mode.rank_le .html
      rw [LineOut.emitSuffix_charIdx, LineOut.flush_charIdx]
      show out.charIdx + 1 ≤ _ ∧ 2 * (chars.length - (out.charIdx + 1)) + _ < _
      omega
  | skipArgs =>
      have hhtml := Mode.rank_le .html
      show out.charIdx + 1 ≤ _ ∧ 2 * (chars.length - (out.charIdx + 1)) + _ < _
      omega
  | captureArgs =>
      have hhtml := Mode.rank_le .html
      show out.charIdx + 1 ≤ _ ∧ 2 * (chars.length - (out.charIdx + 1)) + _ < _
      omega
  | @closeQuoted delim _ _ ch =>
      have hhtml := Mode.rank_le .html
      show (out.flush (.boundAttr (some delim))).charIdx + 1 ≤ _ ∧
        2 * (chars.length - ((out.flush (.boundAttr (some delim))).charIdx + 1)) + _ < _
      rw [LineOut.flush_charIdx]
      omega
  | closeShorthand =>
      rw [LineOut.emitSuffix_charIdx, LineOut.flush_charIdx]
      have hmarkup : Mode.html.rank = 0 := rfl
      have hbound : (Mode.boundAttr none).rank = 1 := rfl
      omega

/-- What every state of a line's scan satisfies. -/
structure OnLine (env : LineEnv) (s : State) : Prop where
  suffixes : SuffixesOk s.scan
  idx : s.out.charIdx ≤ env.line.length

theorem onLine_step (hline : OneLine env.line) (h : OnLine env s) : OnLine env (s.step env) := by
  by_cases hidx : s.out.charIdx < env.line.length
  · obtain ⟨text, hturn, hok⟩ := turn_step hline hidx h.suffixes
    exact ⟨hok, (hturn.out.advances hidx).1⟩
  · rw [step_of_end (by omega)]
    exact h

theorem onLine_startLine {scan : Scan} (hok : SuffixesOk scan) : OnLine env (startLine scan) := by
  refine ⟨⟨?_, hok.bound⟩, Nat.zero_le _⟩
  show (if _ then _ else _ : Mode).SuffixOk
  split
  · trivial
  · exact hok.mode

theorem onLine_iterate (hline : OneLine env.line) (h : OnLine env s) (n : Nat) :
    OnLine env ((State.step env)^[n] s) :=
  Function.Iterate.rec _ h (fun _ => onLine_step hline) n

/-- The scan of a line reads all of it. -/
theorem iterate_of_turns {scan : Scan} (hline : OneLine env.line) (hok : SuffixesOk scan) {n : Nat}
    (hn : turns env.line ≤ n) :
    ((State.step env)^[n] (startLine scan)).out.charIdx = env.line.length := by
  have hdone : env.line.length ≤ ((State.step env)^[n] (startLine scan)).out.charIdx := by
    apply @iterate_done _ _ (OnLine env) (fun s : State => env.line.length ≤ s.out.charIdx)
      (fun s => 2 * (env.line.length - s.out.charIdx) + s.scan.mode.rank)
    · exact fun s h => step_of_end h
    · intro s h hnot
      obtain ⟨text, hturn, -⟩ := turn_step hline (Nat.lt_of_not_le hnot) h.suffixes
      exact ⟨onLine_step hline h, (hturn.out.advances (Nat.lt_of_not_le hnot)).2⟩
    · exact onLine_startLine hok
    · show 2 * (env.line.length - 0) + Mode.rank _ ≤ n
      have hle := (startLine scan).scan.mode.rank_le
      rw [turns] at hn
      omega
  exact Nat.le_antisymm (onLine_iterate hline (onLine_startLine hok) _).idx hdone

theorem scanLine_done {scan : Scan} (hline : OneLine env.line) (hok : SuffixesOk scan) :
    (scanLine env (startLine scan)).out.charIdx = env.line.length :=
  iterate_of_turns hline hok (Nat.le_refl _)

end PhpantomLsp.Blade
