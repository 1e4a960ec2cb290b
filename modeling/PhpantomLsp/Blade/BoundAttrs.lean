import PhpantomLsp.Blade.Lines

/-!
# Where a bound attribute's value ends

Whether the value of a bound attribute goes on over lines is decided when it opens, by
a lookahead that knows strings but no comments.  The scan of the value itself knows
both.  The two are compared through one reading of the value's text (`readValue`): they
part where a comment holds a quote, which opens a string in the lookahead alone.
-/

namespace PhpantomLsp.Blade

/-! ## The scan of the value -/

/-- The scan of a line as far as the value goes: whether its quote is reached. -/
def State.scanValue (env : LineEnv) : Nat → State → Bool × State
  | 0, s => (false, s)
  | n + 1, s =>
      let s' := s.step env
      match s'.scan.mode with
      | .boundAttr _ => scanValue env n s'
      | _ => (true, s')

/-- A value that is not cut off where its line ends. -/
def State.keptOpen (s : State) : State :=
  { s with scan := { s.scan with boundAttr := { s.scan.boundAttr with multiline := true } } }

/-- One of the lines holds the quote that ends the value. -/
def valueEndsIn (project : Project) (all : List (List Char)) :
    (lineIdx : Nat) → List (List Char) → Scan → Bool
  | _, [], _ => false
  | lineIdx, line :: following, scan =>
      let env := lineEnv project all lineIdx line following
      let (closed, s) := (startLine scan).scanValue env (turns line)
      closed || valueEndsIn project all (lineIdx + 1) following s.endLine.scan

/-- The scan of a value that is open in a line reaches its quote on a later one. -/
def valueSpansLines (project : Project) (all : List (List Char)) (env : LineEnv) (s : State) :
    Bool :=
  let (closed, s) := s.keptOpen.scanValue env (turns env.line)
  !closed && valueEndsIn project all (env.lineIdx + 1) env.following s.endLine.scan

/-- A turn in the markup opens a quoted value, with `rest` behind its quote. -/
structure OpensValue (env : LineEnv) (s : State) (quote : Char) (rest : List Char)
    (opened : State) : Prop where
  mode : s.scan.mode = .html
  turn : ∃ ch after lowering scan, env.line.drop s.out.charIdx = ch :: after ∧
    boundAttrOpen env s.scan (ch :: after) s.out.charIdx = some (lowering, scan) ∧
    lowering.nextMode = .boundAttr (some quote) ∧ rest = (ch :: after).drop lowering.matchLen ∧
    opened = State.applyLowering ⟨scan, s.out⟩ ch after.head? lowering

/-! ## The text of a value -/

/-- Where the code of a value is: `closing` is at the `/` of a `*/`. -/
inductive CodePos where
  | code
  | lineComment
  | blockComment
  | closing
  | string (delim : Char) (isEscaped : Bool)

/-- How the text of a line reads: the value ends, a comment holds a quote, or it goes on. -/
inductive Reading where
  | ended
  | stray
  | goesOn (pos : CodePos)

def isQuote (ch : Char) : Bool := ch == '\'' || ch == '"'

namespace CodePos

/-- The string a position is in, and whether its character is escaped. -/
def inString : CodePos → Option Char
  | .string delim _ => some delim
  | _ => none

def isEscaped : CodePos → Bool
  | .string _ isEscaped => isEscaped
  | _ => false

def inComment : CodePos → Bool
  | .lineComment | .blockComment | .closing => true
  | _ => false

def after (pos : CodePos) (ch : Char) (next : Option Char) : CodePos :=
  match pos with
  | .lineComment => .lineComment
  | .blockComment => if ch = '*' ∧ next = some '/' then .closing else .blockComment
  | .closing => .code
  | .string delim isEscaped =>
      if isEscaped then .string delim false
      else if ch = '\\' then .string delim true
      else if ch = delim then .code
      else .string delim false
  | .code =>
      if ch = '\'' ∨ ch = '"' then .string ch false
      else if ch = '/' ∧ next = some '*' then .blockComment
      else if (ch = '/' ∧ next = some '/') ∨ (ch = '#' ∧ next ≠ some '[') then .lineComment
      else .code

/-- A line comment ends with its line. -/
def afterLine : CodePos → CodePos
  | .lineComment => .code
  | pos => pos

end CodePos

def readValue (quote : Char) : List Char → CodePos → Reading
  | [], pos => .goesOn pos.afterLine
  | ch :: rest, pos =>
      if pos.inString = none ∧ ch = quote then .ended
      else if pos.inComment ∧ isQuote ch then .stray
      else readValue quote rest (pos.after ch rest.head?)

/-- No comment of the value holds a quote other than the one that ends it. -/
def commentsHoldNoQuote (quote : Char) : CodePos → List (List Char) → Bool
  | _, [] => true
  | pos, line :: following =>
      match readValue quote line pos with
      | .ended => true
      | .stray => false
      | .goesOn pos => commentsHoldNoQuote quote pos following

/-! ## The lookahead -/

variable {quote : Char} {pos : CodePos}

theorem not_isQuote {ch : Char} (hstray : ¬(pos.inComment ∧ isQuote ch))
    (hin : pos.inComment = true) : ¬(ch = '\'' ∨ ch = '"') := by
  intro hquote
  exact hstray ⟨hin, by simpa [isQuote] using hquote⟩

/-- A character the lookahead passes leaves it where the text is. -/
theorem scanToBoundAttrEnd_cons {ch : Char} (hend : ¬(pos.inString = none ∧ ch = quote))
    (hstray : ¬(pos.inComment ∧ isQuote ch)) (rest : List Char) (next : Option Char) :
    scanToBoundAttrEnd quote (ch :: rest) pos.inString pos.isEscaped =
      scanToBoundAttrEnd quote rest (pos.after ch next).inString
        (pos.after ch next).isEscaped := by
  have hcomment : ∀ pos' : CodePos, pos'.inString = none → pos'.isEscaped = false →
      pos.inString = none → pos.isEscaped = false → ¬(ch = '\'' ∨ ch = '"') →
      scanToBoundAttrEnd quote (ch :: rest) pos.inString pos.isEscaped =
        scanToBoundAttrEnd quote rest pos'.inString pos'.isEscaped := by
    intro pos' hstring hescaped hnone hplain hquote
    rw [hnone, hplain, hstring, hescaped, scanToBoundAttrEnd,
      if_neg fun h => hend ⟨hnone, h⟩, if_neg hquote]
  cases pos with
  | string delim isEscaped =>
      show scanToBoundAttrEnd quote (ch :: rest) (some delim) isEscaped = _
      rw [scanToBoundAttrEnd, CodePos.after]
      by_cases hescaped : isEscaped = true
      · rw [if_pos hescaped, if_pos hescaped]
        rfl
      · rw [if_neg hescaped, if_neg hescaped]
        split
        · rfl
        · split <;> rfl
  | code =>
      by_cases hquote : ch = '\'' ∨ ch = '"'
      · show scanToBoundAttrEnd quote (ch :: rest) none false = _
        rw [scanToBoundAttrEnd, if_neg fun h => hend ⟨rfl, h⟩, if_pos hquote, CodePos.after,
          if_pos hquote]
        rfl
      · rw [CodePos.after, if_neg hquote]
        split
        · exact hcomment .blockComment rfl rfl rfl rfl hquote
        · split
          · exact hcomment .lineComment rfl rfl rfl rfl hquote
          · exact hcomment .code rfl rfl rfl rfl hquote
  | lineComment => exact hcomment _ rfl rfl rfl rfl (not_isQuote hstray rfl)
  | blockComment =>
      rw [CodePos.after]
      split <;> exact hcomment _ rfl rfl rfl rfl (not_isQuote hstray rfl)
  | closing => exact hcomment _ rfl rfl rfl rfl (not_isQuote hstray rfl)

/-- The lookahead reads as the text does, up to a quote in a comment. -/
theorem scanToBoundAttrEnd_eq (text : List Char) (pos : CodePos) :
    (readValue quote text pos = .ended →
      (scanToBoundAttrEnd quote text pos.inString pos.isEscaped).1 = true) ∧
    ∀ pos', readValue quote text pos = .goesOn pos' →
      scanToBoundAttrEnd quote text pos.inString pos.isEscaped =
        (false, pos'.inString, pos'.isEscaped) := by
  induction text generalizing pos with
  | nil =>
      constructor
      · intro hread
        exact absurd hread (by simp [readValue])
      · intro pos' hread
        rw [← Reading.goesOn.inj hread]
        cases pos <;> rfl
  | cons ch rest ih =>
      rw [readValue]
      by_cases hend : pos.inString = none ∧ ch = quote
      · rw [if_pos hend, hend.1, hend.2]
        exact ⟨fun _ => by rw [scanToBoundAttrEnd, if_pos rfl], fun _ h => absurd h (by simp)⟩
      · rw [if_neg hend]
        by_cases hstray : pos.inComment ∧ isQuote ch
        · rw [if_pos hstray]
          exact ⟨fun h => absurd h (by simp), fun _ h => absurd h (by simp)⟩
        · rw [if_neg hstray, scanToBoundAttrEnd_cons hend hstray rest rest.head?]
          exact ih (pos.after ch rest.head?)

/-! ## The scan reads the text -/

def CodePos.inBlock : CodePos → Bool
  | .blockComment => true
  | _ => false

def CodePos.inLine : CodePos → Bool
  | .lineComment => true
  | _ => false

/-- The scan is in a value that is kept open, where the text is at `pos`. -/
structure ReadsAt (scan : Scan) (quote : Char) (pos : CodePos) : Prop where
  mode : scan.mode = .boundAttr (some quote)
  multiline : scan.boundAttr.multiline = true
  inString : scan.inString = pos.inString
  isEscaped : scan.isEscaped = pos.isEscaped
  inBlockComment : scan.inBlockComment = pos.inBlock
  inLineComment : scan.inLineComment = pos.inLine

variable {env : LineEnv} {s : State} {ch : Char} {rest : List Char}

theorem step_ended (h : ReadsAt s.scan quote pos)
    (hrest : env.line.drop s.out.charIdx = ch :: rest) (hend : pos.inString = none ∧ ch = quote) :
    (s.step env).scan.mode = .html := by
  have hends : s.endsBoundAttr (some quote) ch = true := by
    rw [State.endsBoundAttr, h.inString, hend.1, hend.2]
    simp
  rw [State.step, hrest]
  simp only [h.mode, hends, if_true, State.closeBoundAttr]

theorem applyLowering_keep {mode : Mode} (hmode : s.scan.mode = mode) (hhtml : mode ≠ .html)
    (next : Option Char) : s.applyLowering ch next (.keep mode) = s.pushChar ch := by
  have hkept :
      ¬(0 < (Lowering.keep mode).matchLen ∨ s.scan.mode ≠ (Lowering.keep mode).nextMode) := by
    rw [hmode]
    simp [Lowering.keep]
  rw [State.applyLowering, if_neg hkept, if_neg (by rw [hmode]; exact hhtml)]
  rfl

/-- A character that does not end the value is tracked as code, or kept. -/
theorem step_value (h : ReadsAt s.scan quote pos)
    (hrest : env.line.drop s.out.charIdx = ch :: rest)
    (hend : ¬(pos.inString = none ∧ ch = quote)) :
    s.step env = (s.trackCode ch rest.head?).getD (s.pushChar ch) := by
  have hends : s.endsBoundAttr (some quote) ch = false := by
    rw [State.endsBoundAttr, h.inString]
    cases hstring : pos.inString with
    | some delim => rfl
    | none => simpa using fun heq => hend ⟨hstring, heq⟩
  rw [State.step, hrest]
  simp only [h.mode, hends, Bool.false_eq_true, if_false, State.stepCode, Mode.isCode, if_true]
  cases s.trackCode ch rest.head? with
  | some s' => rfl
  | none =>
      simp only [State.stepMode, h.mode]
      exact applyLowering_keep h.mode (by simp) rest.head?

/-- The scan is behind the character: at the next position, or past the `*/` as well. -/
theorem step_reads (h : ReadsAt s.scan quote pos)
    (hrest : env.line.drop s.out.charIdx = ch :: rest)
    (hend : ¬(pos.inString = none ∧ ch = quote)) (hstray : ¬(pos.inComment ∧ isQuote ch))
    (hpos : pos ≠ .closing) :
    (pos.after ch rest.head? ≠ .closing ∧
        ReadsAt (s.step env).scan quote (pos.after ch rest.head?) ∧
        (s.step env).out.charIdx = s.out.charIdx + 1) ∨
      (pos.after ch rest.head? = .closing ∧ ReadsAt (s.step env).scan quote .code ∧
        rest.head? = some '/' ∧ (s.step env).out.charIdx = s.out.charIdx + 2) := by
  rw [step_value h hrest hend, State.trackCode]
  cases pos with
  | closing => exact absurd rfl hpos
  | lineComment =>
      have hline : s.scan.inLineComment = true := h.inLineComment
      rw [hline]
      exact .inl ⟨by simp [CodePos.after], h, rfl⟩
  | blockComment =>
      have hline : s.scan.inLineComment = false := h.inLineComment
      have hblock : s.scan.inBlockComment = true := h.inBlockComment
      rw [hline, hblock, CodePos.after]
      by_cases hclose : ch = '*' ∧ rest.head? = some '/'
      · rw [if_pos hclose, if_pos hclose]
        exact .inr ⟨rfl, ⟨h.mode, h.multiline, h.inString, h.isEscaped, rfl, hline⟩,
          hclose.2, rfl⟩
      · rw [if_neg hclose, if_neg hclose]
        exact .inl ⟨by simp, h, rfl⟩
  | string delim isEscaped =>
      have hline : s.scan.inLineComment = false := h.inLineComment
      have hblock : s.scan.inBlockComment = false := h.inBlockComment
      have hstring : s.scan.inString = some delim := h.inString
      have hescaped : s.scan.isEscaped = isEscaped := h.isEscaped
      rw [hline, hblock, hstring, hescaped, CodePos.after]
      by_cases hesc : isEscaped = true
      · rw [if_pos hesc]
        simp only [hesc, if_true]
        exact .inl ⟨by simp, ⟨h.mode, h.multiline, hstring, rfl, hblock, hline⟩, rfl⟩
      · have hplain : s.scan.isEscaped = false := by rw [hescaped]; simpa using hesc
        rw [if_neg hesc]
        simp only [hesc, Bool.false_eq_true, if_false]
        by_cases hback : ch = '\\'
        · rw [if_pos hback, if_pos hback]
          exact .inl ⟨by simp, ⟨h.mode, h.multiline, hstring, rfl, hblock, hline⟩, rfl⟩
        · rw [if_neg hback, if_neg hback]
          by_cases hclose : ch = delim
          · rw [if_pos hclose, if_pos hclose]
            exact .inl ⟨by simp, ⟨h.mode, h.multiline, rfl, hplain, hblock, hline⟩, rfl⟩
          · rw [if_neg hclose, if_neg hclose]
            exact .inl ⟨by simp, ⟨h.mode, h.multiline, hstring, hplain, hblock, hline⟩, rfl⟩
  | code =>
      have hline : s.scan.inLineComment = false := h.inLineComment
      have hblock : s.scan.inBlockComment = false := h.inBlockComment
      have hstring : s.scan.inString = none := h.inString
      have hplain : s.scan.isEscaped = false := h.isEscaped
      rw [hline, hblock, hstring, CodePos.after]
      simp only [Bool.false_eq_true, if_false]
      by_cases hquote : ch = '\'' ∨ ch = '"'
      · rw [if_pos hquote, if_pos hquote]
        exact .inl ⟨by simp, ⟨h.mode, h.multiline, rfl, hplain, hblock, hline⟩, rfl⟩
      · rw [if_neg hquote, if_neg hquote]
        by_cases hopen : ch = '/' ∧ rest.head? = some '*'
        · rw [if_pos hopen, if_pos hopen]
          exact .inl ⟨by simp, ⟨h.mode, h.multiline, hstring, hplain, rfl, hline⟩, rfl⟩
        · rw [if_neg hopen, if_neg hopen]
          by_cases hslash :
              (ch = '/' ∧ rest.head? = some '/') ∨ (ch = '#' ∧ rest.head? ≠ some '[')
          · rw [if_pos hslash, if_pos hslash]
            exact .inl ⟨by simp, ⟨h.mode, h.multiline, hstring, hplain, hblock, rfl⟩, rfl⟩
          · rw [if_neg hslash, if_neg hslash]
            exact .inl ⟨by simp, ⟨h.mode, h.multiline, hstring, hplain, hblock, hline⟩, rfl⟩

theorem scanValue_of_end (h : ReadsAt s.scan quote pos) (hend : env.line.drop s.out.charIdx = [])
    (n : Nat) : s.scanValue env n = (false, s) := by
  have hstep : s.step env = s := by rw [State.step, hend]
  induction n with
  | zero => rfl
  | succ n ih =>
      rw [State.scanValue, hstep, h.mode]
      exact ih

theorem readsAt_nextLine (h : ReadsAt s.scan quote pos) :
    ReadsAt (startLine s.endLine.scan).scan quote pos.afterLine := by
  have hkept : s.endLine.scan = s.scan := by
    have hecho : s.endEcho = s := by rw [State.endEcho, h.mode]
    have hattr : s.endBoundAttr = { s with out := s.out.flush (.boundAttr (some quote)) } := by
      rw [State.endBoundAttr, h.mode]
      exact if_pos h.multiline
    rw [State.endLine, hecho, hattr, State.endBuffer]
    simp only [h.mode]
  have hmode : (startLine s.scan).scan.mode = .boundAttr (some quote) := by
    simp [startLine, h.mode]
  rw [hkept]
  cases pos with
  | lineComment =>
      exact ⟨hmode, h.multiline, h.inString, h.isEscaped, h.inBlockComment, rfl⟩
  | _ => exact ⟨hmode, h.multiline, h.inString, h.isEscaped, h.inBlockComment, rfl⟩

theorem readValue_closing (hquote : isQuote quote = true) (after : List Char) :
    readValue quote ('/' :: after) .closing = readValue quote after .code := by
  have hslash : ¬('/' = quote) := by
    intro heq
    rw [← heq] at hquote
    exact absurd hquote (by decide)
  rw [readValue, if_neg fun h => hslash h.2, if_neg fun h => absurd h.2 (by decide)]
  rfl

theorem scanValue_reads_end (h : ReadsAt s.scan quote pos) (hpos : pos ≠ .closing)
    {text : List Char} (htext : env.line.drop s.out.charIdx = text) (hnil : text = []) (n : Nat) :
    (readValue quote text pos = .ended → (s.scanValue env n).1 = true) ∧
    ∀ pos', readValue quote text pos = .goesOn pos' →
      (s.scanValue env n).1 = false ∧ pos' ≠ .closing ∧
        ReadsAt (startLine (s.scanValue env n).2.endLine.scan).scan quote pos' := by
  rw [hnil] at htext ⊢
  rw [scanValue_of_end h htext n, readValue]
  constructor
  · intro hread
    exact absurd hread (by simp)
  · intro pos' hread
    rw [← Reading.goesOn.inj hread]
    refine ⟨rfl, ?_, readsAt_nextLine h⟩
    cases pos with
    | closing => exact absurd rfl hpos
    | _ => simp [CodePos.afterLine]

/-- The scan of a line, as its text reads. -/
theorem scanValue_reads (hquote : isQuote quote = true) (n : Nat) (h : ReadsAt s.scan quote pos)
    (hpos : pos ≠ .closing) {text : List Char} (htext : env.line.drop s.out.charIdx = text)
    (hlen : text.length ≤ n) :
    (readValue quote text pos = .ended → (s.scanValue env n).1 = true) ∧
    ∀ pos', readValue quote text pos = .goesOn pos' →
      (s.scanValue env n).1 = false ∧ pos' ≠ .closing ∧
        ReadsAt (startLine (s.scanValue env n).2.endLine.scan).scan quote pos' := by
  induction n generalizing s pos text with
  | zero =>
      have hnil : text = [] := List.length_eq_zero_iff.mp (Nat.le_zero.mp hlen)
      exact scanValue_reads_end h hpos htext hnil 0
  | succ n ih =>
      cases text with
      | nil => exact scanValue_reads_end h hpos htext rfl (n + 1)
      | cons ch rest =>
          rw [readValue, State.scanValue]
          by_cases hend : pos.inString = none ∧ ch = quote
          · rw [if_pos hend, step_ended h htext hend]
            exact ⟨fun _ => rfl, fun _ hgo => absurd hgo (by simp)⟩
          · rw [if_neg hend]
            by_cases hstray : pos.inComment ∧ isQuote ch
            · rw [if_pos hstray]
              exact ⟨fun h => absurd h (by simp), fun _ h => absurd h (by simp)⟩
            · rw [if_neg hstray]
              rcases step_reads h htext hend hstray hpos with
                ⟨hnext, hreads, hidx⟩ | ⟨hnext, hreads, hhead, hidx⟩
              · have hrest : env.line.drop (s.step env).out.charIdx = rest := by
                  rw [hidx, ← List.drop_drop, htext]
                  rfl
                simp only [hreads.mode]
                exact ih hreads hnext hrest (Nat.le_of_succ_le_succ hlen)
              · -- the scan takes the `/` with the `*`
                have ⟨after, hafter⟩ : ∃ after, rest = '/' :: after := by
                  cases rest with
                  | nil => exact absurd hhead (by simp)
                  | cons slash after => exact ⟨after, by rw [Option.some.inj hhead]⟩
                have hrest : env.line.drop (s.step env).out.charIdx = after := by
                  rw [hidx, ← List.drop_drop, htext, hafter]
                  rfl
                simp only [hreads.mode]
                rw [hnext, hafter, readValue_closing hquote]
                rw [hafter] at hlen
                exact ih hreads (by simp) hrest (by simp at hlen; omega)

/-! ## The two together -/

/-- What the scan knows of code where a value opens. -/
structure EntersCode (scan : Scan) : Prop where
  inString : scan.inString = none
  isEscaped : scan.isEscaped = false
  inBlockComment : scan.inBlockComment = false
  inLineComment : scan.inLineComment = false

theorem boundAttrOpenLen_quote {rem : List Char} {openLen : Nat}
    (h : boundAttrOpenLen rem = some openLen) :
    0 < openLen ∧ isQuote (rem[openLen - 1]?.getD '"') = true := by
  unfold boundAttrOpenLen at h
  dsimp only at h
  split at h
  · exact absurd h (by simp)
  · split at h
    · split at h
      · rename_i hquoted
        rw [← Option.some.inj h]
        refine ⟨by omega, ?_⟩
        rw [Nat.add_sub_assoc (by omega)]
        rcases hquoted with hdouble | hsingle
        · rw [show 2 - 1 = 1 from rfl, hdouble]
          rfl
        · rw [show 2 - 1 = 1 from rfl, hsingle]
          rfl
      · exact absurd h (by simp)
    · exact absurd h (by simp)

/-- What opens a value consumes up to its quote and asks the lookahead about the rest. -/
theorem boundAttrOpen_quoted {scan scan' : Scan} {rem : List Char} {charIdx : Nat}
    {lowering : Lowering} (hopen : boundAttrOpen env scan rem charIdx = some (lowering, scan'))
    (hquote : lowering.nextMode = .boundAttr (some quote)) :
    0 < lowering.matchLen ∧ isQuote quote = true ∧ (EntersCode scan → EntersCode scan') ∧
      scan'.boundAttr.multiline =
        boundAttrSpansLines quote (rem.drop lowering.matchLen) env.following := by
  unfold boundAttrOpen at hopen
  split at hopen
  · split at hopen
    · have hmode := congrArg Lowering.nextMode (Prod.mk.inj (Option.some.inj hopen)).1
      rw [hquote] at hmode
      exact absurd hmode (by simp)
    · split at hopen
      · have hmode := congrArg Lowering.nextMode (Prod.mk.inj (Option.some.inj hopen)).1
        rw [hquote] at hmode
        exact absurd hmode (by simp [Lowering.keep])
      · rename_i openLen hlen
        obtain ⟨hlower, hscan⟩ := Prod.mk.inj (Option.some.inj hopen)
        have hmode := congrArg Lowering.nextMode hlower
        rw [hquote] at hmode
        have hterm : rem[openLen - 1]?.getD '"' = quote := by simpa using hmode
        obtain ⟨hpos, hisQuote⟩ := boundAttrOpenLen_quote hlen
        rw [hterm] at hisQuote hscan
        rw [← hlower, ← hscan]
        exact ⟨hpos, hisQuote, fun h => ⟨h.1, h.2, h.3, h.4⟩, rfl⟩
  · exact absurd hopen (by simp)

section

variable {project : Project} {all : List (List Char)}

/-- On the lines behind the first one, the lookahead finds the quote the scan reaches. -/
theorem valueEndsIn_eq (hquote : isQuote quote = true) (lineIdx : Nat)
    (following : List (List Char)) {scan : Scan} (hpos : pos ≠ .closing)
    (h : ReadsAt (startLine scan).scan quote pos)
    (hplain : commentsHoldNoQuote quote pos following = true) :
    valueEndsIn project all lineIdx following scan =
      boundAttrEndsIn quote following pos.inString pos.isEscaped := by
  induction following generalizing lineIdx scan pos with
  | nil => rfl
  | cons line following ih =>
      have hlen : line.length ≤ turns line := by rw [turns]; omega
      obtain ⟨hended, hgoes⟩ := @scanValue_reads _ _ (lineEnv project all lineIdx line following)
        _ hquote (turns line) h hpos line rfl hlen
      obtain ⟨hfound, hpassed⟩ := @scanToBoundAttrEnd_eq quote line pos
      show (((startLine scan).scanValue (lineEnv project all lineIdx line following)
          (turns line)).1 ||
        valueEndsIn project all (lineIdx + 1) following _) =
        ((scanToBoundAttrEnd quote line pos.inString pos.isEscaped).1 || _)
      rw [commentsHoldNoQuote] at hplain
      cases hread : readValue quote line pos with
      | stray => simp [hread] at hplain
      | ended =>
          rw [hfound hread, hended hread]
          rfl
      | goesOn pos' =>
          simp only [hread] at hplain
          obtain ⟨hopen, hpos', hreads⟩ := hgoes pos' hread
          rw [hpassed pos' hread, hopen]
          exact ih (lineIdx + 1) hpos' hreads hplain

theorem boundAttrSpansLines_eq (hquote : isQuote quote = true)
    (hmode : s.scan.mode = .boundAttr (some quote)) (henters : EntersCode s.scan)
    (hplain : commentsHoldNoQuote quote .code
      (env.line.drop s.out.charIdx :: env.following) = true) :
    boundAttrSpansLines quote (env.line.drop s.out.charIdx) env.following =
      valueSpansLines project all env s := by
  have hkept : ReadsAt s.keptOpen.scan quote .code :=
    ⟨hmode, rfl, henters.inString, henters.isEscaped, henters.inBlockComment,
      henters.inLineComment⟩
  have hlen : (env.line.drop s.out.charIdx).length ≤ turns env.line := by
    rw [turns, List.length_drop]
    omega
  obtain ⟨hended, hgoes⟩ := @scanValue_reads _ _ env _ hquote (turns env.line) hkept (by simp)
    (env.line.drop s.out.charIdx) rfl hlen
  obtain ⟨hfound, hpassed⟩ := @scanToBoundAttrEnd_eq quote (env.line.drop s.out.charIdx) .code
  show (!(scanToBoundAttrEnd quote (env.line.drop s.out.charIdx) none false).1 && _) =
    (!(s.keptOpen.scanValue env (turns env.line)).1 &&
      valueEndsIn project all (env.lineIdx + 1) env.following
        (s.keptOpen.scanValue env (turns env.line)).2.endLine.scan)
  rw [commentsHoldNoQuote] at hplain
  cases hread : readValue quote (env.line.drop s.out.charIdx) .code with
  | stray => simp [hread] at hplain
  | ended =>
      rw [show (scanToBoundAttrEnd quote (env.line.drop s.out.charIdx) none false).1 = true from
        hfound hread, hended hread]
      rfl
  | goesOn pos' =>
      simp only [hread] at hplain
      obtain ⟨hopen, hpos', hreads⟩ := hgoes pos' hread
      rw [show scanToBoundAttrEnd quote (env.line.drop s.out.charIdx) none false = _ from
        hpassed pos' hread, hopen,
        valueEndsIn_eq hquote (env.lineIdx + 1) env.following hpos' hreads hplain]

/-- The turn that opens a value asks the lookahead about the text behind its quote. -/
theorem OpensValue.opened {rest : List Char} {opened : State}
    (h : OpensValue env s quote rest opened) :
    isQuote quote = true ∧ opened.scan.mode = .boundAttr (some quote) ∧
      (EntersCode s.scan → EntersCode opened.scan) ∧
      env.line.drop opened.out.charIdx = rest ∧
      opened.scan.boundAttr.multiline = boundAttrSpansLines quote rest env.following := by
  have ⟨ch, after, lowering, scan, hrest, hopen, hquote, hbehind, happly⟩ := h.turn
  have ⟨hpos, hisQuote, hkept, hflag⟩ := boundAttrOpen_quoted hopen hquote
  have hopened : opened = ⟨{ scan with mode := lowering.nextMode },
      (s.out.flush scan.mode).lower lowering.matchLen lowering.replacement⟩ := by
    rw [happly, State.applyLowering, if_pos (.inl hpos)]
  have hidx : opened.out.charIdx = s.out.charIdx + lowering.matchLen := by
    rw [hopened]
    simp
  refine ⟨hisQuote, ?_, ?_, ?_, ?_⟩
  · rw [hopened]
    exact hquote
  · intro henters
    have hcode := hkept henters
    rw [hopened]
    exact ⟨hcode.inString, hcode.isEscaped, hcode.inBlockComment, hcode.inLineComment⟩
  · rw [hidx, ← List.drop_drop, hrest, hbehind]
  · rw [hopened, hbehind]
    exact hflag

/-- **The lookahead of a bound attribute** says that the value goes on over lines
exactly when the scan of the value reaches its quote on a later one, where the value
opens in plain code and no comment of it holds the other quote. -/
theorem looksAhead {rest : List Char} {opened : State} (h : OpensValue env s quote rest opened)
    (henters : EntersCode s.scan)
    (hplain : commentsHoldNoQuote quote .code (rest :: env.following) = true) :
    boundAttrSpansLines quote rest env.following = valueSpansLines project all env opened := by
  have ⟨hquote, hmode, hcode, hrest, _⟩ := h.opened
  rw [← hrest] at hplain ⊢
  exact boundAttrSpansLines_eq hquote hmode (hcode henters) hplain

end

/-- A list over two lines. -/
theorem looksAhead_list :
    let env : LineEnv := ⟨":b=\"[".toList, 0, ["]\"".toList], none, none, none, .new none []⟩
    let s : State := ⟨{ startScan with html := ⟨true, true, none⟩ }, .start⟩
    ∃ opened, OpensValue env s '"' "[".toList opened ∧
      boundAttrSpansLines '"' "[".toList ["]\"".toList] =
        valueSpansLines ⟨none, .new none []⟩ [] env opened := by
  intro env s
  have hopens : OpensValue env s '"' "[".toList _ :=
    ⟨rfl, ':', "b=\"[".toList, _, _, rfl, rfl, rfl, rfl, rfl⟩
  exact ⟨_, hopens, looksAhead hopens ⟨rfl, rfl, rfl, rfl⟩ (by decide)⟩

/-- An apostrophe in a comment of the first line is a string to the lookahead, which
misses the quote on the second. -/
theorem comment_not_looksAhead :
    ∃ env s rest opened,
      Visits ⟨none, .new none []⟩ (lines "<x-a :b=\"[ // it's\n]\">".toList) 0
        (lines "<x-a :b=\"[ // it's\n]\">".toList) startScan env s ∧
      OpensValue env s '"' rest opened ∧
      boundAttrSpansLines '"' rest env.following = false ∧
      valueSpansLines ⟨none, .new none []⟩ (lines "<x-a :b=\"[ // it's\n]\">".toList) env
        opened = true := by
  have hlines : lines "<x-a :b=\"[ // it's\n]\">".toList =
      ["<x-a :b=\"[ // it's".toList, "]\">".toList] := by
    decide +kernel
  rw [hlines]
  let env := lineEnv ⟨none, .new none []⟩ ["<x-a :b=\"[ // it's".toList, "]\">".toList] 0
    "<x-a :b=\"[ // it's".toList ["]\">".toList]
  let s := (State.step env)^[2] (startLine startScan)
  let answer := boundAttrOpen env s.scan (':' :: "b=\"[ // it's".toList) s.out.charIdx
  let found := answer.getD (.keep .html, startScan)
  have hopen : answer = some found := by
    have hsome : answer.isSome = true := by decide +kernel
    have ⟨pair, hpair⟩ := Option.isSome_iff_exists.mp hsome
    rw [show found = pair from congrArg (Option.getD · _) hpair, hpair]
  refine ⟨env, s, "[ // it's".toList,
    State.applyLowering ⟨found.2, s.out⟩ ':' (some 'b') found.1, .here 2, ⟨by decide +kernel, ':', "b=\"[ // it's".toList, found.1, found.2, by decide +kernel,
      hopen, by decide +kernel, by decide +kernel, rfl⟩, ?_, ?_⟩
  · decide +kernel
  · decide +kernel

end PhpantomLsp.Blade
