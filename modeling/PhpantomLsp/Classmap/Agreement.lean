import PhpantomLsp.Classmap.Following

/-!
# The two scans name the same classes

The full scan steps over words, imports and quoted names (`Follows.readSymbol`); with
that every turn of it is followed by the lean scan (`Follows.step`), and the runs of the
two end with the same classes (`findSymbols_classes`).
-/

namespace PhpantomLsp.Classmap

open Lib

variable {s s' t : Scan} {blocks : Blocks}

/-! ## Braces and words -/

/-- A brace, which the lean scan does not look at. -/
theorem Follows.readBrace (h : Follows s t blocks []) (hmode : s.mode = .code)
    (hbrace : s.readBrace = some s') : Reaches t blocks s' := by
  cases hrest : s.rest with
  | nil =>
      rw [Scan.readBrace, hrest] at hbrace
      exact absurd hbrace (by simp)
  | cons b rest =>
      rw [Scan.readBrace, hrest] at hbrace
      by_cases hopen : b = openBrace
      · simp only [if_pos hopen, Option.some.injEq] at hbrace
        apply @Follows.quiet s s' t blocks h hmode 1
        · exact quietFor_dull (by simp [hrest, hopen, isDull]) _
        · rw [← hbrace]
          exact ⟨rfl, rfl, hmode, rfl, rfl⟩
        · rw [← hbrace, hrest, hopen]
          exact h.inStep.openBlock
        · rw [hrest, hopen]
          rfl
      · by_cases hclose : b = closeBrace
        · simp only [if_neg hopen, if_pos hclose, Option.some.injEq] at hbrace
          obtain ⟨hrest', hbefore⟩ := h.here
          have hquiet : quietFor 1 t.before t.rest = true :=
            quietFor_dull (by simp [← hrest', hrest, hclose, isDull]) _
          have hsteps := steps_of_quiet (h.mode.trans hmode) hquiet blocks
          obtain ⟨hstep, hleft⟩ := h.inStep.closeBlock
          have hpass : (t.rest.take 1).foldl Blocks.pass blocks = blocks.pass closeBrace := by
            rw [← hrest', hrest, hclose]
            rfl
          rw [hpass] at hsteps
          refine ⟨_, _, hsteps, .inl ⟨[], ?_⟩⟩
          rw [← hbrace]
          constructor
          · simp
          · simp
          · exact h.mode
          · show s.rest.drop 1 = t.rest.drop 1
            rw [hrest']
          · show (t.rest.take 1).reverse ++ t.before = (s.rest.take 1).reverse ++ s.before
            rw [hrest', hbefore]
          · exact h.classes
          · intro hstays
            rw [hleft, Bool.or_eq_false_iff] at hstays
            show t.namespaceName = if s.book.leavesNamespace then [] else s.namespaceName
            rw [hstays.2]
            exact h.names hstays.1
          · exact hstep
        · simp [hopen, hclose] at hbrace

theorem take_of_wordAt {word rest : Bytes} {next : UInt8 → Bool} (h : wordAt word next rest = true) :
    rest.take word.length = word :=
  (List.prefix_iff_eq_take.mp (isPrefix_of_wordAt h)).symm

/-- A keyword that only the full scan reads, of the length `len`. -/
structure Word (s : Scan) (len : Nat) : Prop where
  mode : s.mode = .code
  quiet : quietFor len s.before s.rest = true
  not_brace : ∀ b ∈ s.rest.take len, b ≠ openBrace ∧ b ≠ closeBrace

theorem Word.of_names {len : Nat} (hmode : s.mode = .code)
    (hopens : opensAt s.before s.rest = false) (hnames : ∀ b ∈ s.rest.take len, isNameByte b = true) :
    Word s len :=
  ⟨hmode, quietFor_word hopens hnames, fun b hb => not_brace_of_isNameByte (hnames b hb)⟩

theorem Follows.word (h : Follows s t blocks []) {len : Nat} (hword : Word s len)
    (hmoves : Moves s len s') (hstep : InStep s'.book blocks) : Reaches t blocks s' :=
  h.plain hword.mode hword.quiet hmoves hword.not_brace hstep

/-- The blanks behind a word. -/
theorem Follows.blanks (h : Follows s t blocks []) {len : Nat} (hword : Word s len)
    (hmoves : Moves s (len + ((s.rest.drop len).takeWhile isBlank).length) s')
    (hstep : InStep s'.book blocks) : Reaches t blocks s' := by
  have htake : (s.rest.drop len).take ((s.rest.drop len).takeWhile isBlank).length =
      (s.rest.drop len).takeWhile isBlank := by
    exact (List.prefix_iff_eq_take.mp (List.takeWhile_prefix _)).symm
  have hblank : ∀ b ∈ (s.rest.drop len).takeWhile isBlank, isBlank b = true :=
    List.all_eq_true.mp List.all_takeWhile
  apply h.plain hword.mode _ hmoves _ hstep
  · rw [quietFor_add, hword.quiet, Bool.true_and]
    apply quietFor_dull
    rw [htake]
    intro b hb
    rw [isDull, hblank b hb]
    rfl
  · intro b hb
    rw [List.take_add, htake] at hb
    rcases List.mem_append.mp hb with hb | hb
    · exact hword.not_brace b hb
    · exact not_brace_of_isBlank (hblank b hb)

/-- A `use function` or `use const` statement. -/
theorem Follows.useStatement (h : Follows s t blocks []) {len : Nat} (hword : Word s len)
    (hread : s.importMisread len = false)
    (hmoves : Moves s (len + useStatementLen (s.rest.drop len)) s') (hbook : s'.book = s.book) :
    Reaches t blocks s' := by
  simp only [Scan.importMisread, Bool.or_eq_false_iff, Bool.not_eq_false', Bool.and_eq_false_iff]
    at hread
  obtain ⟨hquiet, hbalanced⟩ := hread
  have hpass : (s.rest.take (len + useStatementLen (s.rest.drop len))).foldl Blocks.pass blocks =
      ((s.rest.drop len).take (useStatementLen (s.rest.drop len))).foldl Blocks.pass blocks := by
    rw [List.take_add, List.foldl_append, foldl_pass hword.not_brace]
  have hquiet' : quietFor (len + useStatementLen (s.rest.drop len)) s.before s.rest = true := by
    rw [quietFor_add, hword.quiet, Bool.true_and]
    exact hquiet
  have hin := h.inStep
  rw [InStep] at hin
  cases houtside : blocks.outside with
  | none =>
      rw [houtside] at hin
      obtain ⟨hout, hleft⟩ := foldl_pass_outside
        ((s.rest.drop len).take (useStatementLen (s.rest.drop len))) houtside
      apply h.quiet hword.mode hquiet' hmoves
      · rw [hpass, hbook, InStep, hout]
        exact hin
      · rw [hpass, hleft]
  | some outside =>
      rw [houtside] at hin
      have hzero : balanced 0 ((s.rest.drop len).take (useStatementLen (s.rest.drop len))) = true := by
        rcases hbalanced with hnone | hzero
        · rw [hin.1] at hnone
          exact absurd hnone (by simp)
        · exact hzero
      have hsame := foldl_pass_balanced hzero houtside hin.2.1 (Nat.add_zero _).symm
      apply h.quiet hword.mode hquiet' hmoves
      · rw [hpass, hsame, hbook]
        exact h.inStep
      · rw [hpass, hsame]

/-! ## Names -/

theorem drop_takeWhile (p : UInt8 → Bool) (rest : Bytes) :
    rest.drop (rest.takeWhile p).length = rest.dropWhile p := by
  conv => lhs; arg 2; rw [← List.takeWhile_append_dropWhile (p := p) (l := rest)]
  exact List.drop_left

theorem take_takeWhile (p : UInt8 → Bool) (rest : Bytes) :
    rest.take (rest.takeWhile p).length = rest.takeWhile p :=
  (List.prefix_iff_eq_take.mp (List.takeWhile_prefix p)).symm

/-- A keyword ends where a name does. -/
theorem takeWhile_keyword {rest : Bytes} {len : Nat} (h : classKeywordAt rest = some len) :
    (rest.takeWhile isNameByte).length = len := by
  have ⟨word, hmem, hword, hlen⟩ := classKeywordAt_some h
  have ⟨more, hmore⟩ := isPrefix_of_wordAt hword
  have hnext : more.takeWhile isNameByte = [] := by
    rw [wordAt, ← hmore, Bool.and_eq_true, List.drop_left] at hword
    cases more with
    | nil => rfl
    | cons b more =>
        have hb : isBlank b = true := by simpa using hword.2
        have hname : isNameByte b = false := by
          have hcases : b = 32 ∨ b = 9 ∨ b = 10 ∨ b = 12 ∨ b = 13 := by
            simpa [isBlank, byte, or_assoc] using hb
          rcases hcases with rfl | rfl | rfl | rfl | rfl <;> decide
        rw [List.takeWhile_cons_of_neg (by simp [hname])]
  rw [← hmore, List.takeWhile_append_of_pos (isNameByte_of_keyword hmem), hnext, List.append_nil, hlen]

/-- A class-like keyword that no name follows declares nothing, and the lean scan is ahead of
the full one by the blanks behind it. -/
theorem Follows.keyword (h : Follows s t blocks []) (hmode : s.mode = .code)
    (hopens : opensAt s.before s.rest = true) (htext : textAt s.rest = none)
    (hread : declaresAt s.rest = false)
    (hmoves : Moves s (s.rest.takeWhile isNameByte).length s') (hstep : InStep s'.book blocks) :
    Reaches t blocks s' := by
  simp only [declaresAt, Bool.or_eq_false_iff] at hread
  simp only [opensAt, htext, Option.isSome_none, Bool.false_or, hread.1, Bool.and_eq_true] at hopens
  obtain ⟨len, hlen⟩ := Option.isSome_iff_exists.mp hopens.2
  rw [takeWhile_keyword hlen] at hmoves
  have hname : ((s.rest.drop len).dropWhile isBlank).takeWhile isNameByte = [] := by
    have hhead := hread.2
    rw [hlen, Option.any_some] at hhead
    cases hrest : (s.rest.drop len).dropWhile isBlank with
    | nil => rfl
    | cons b rest =>
        rw [hrest, List.head?_cons, Option.any_some] at hhead
        rw [List.takeWhile_cons_of_neg (by simp [hhead])]
  obtain ⟨hrest, hbefore⟩ := h.here
  have hmode' : t.mode = .code := h.mode.trans hmode
  have hone := leanStep_class hmode' (by rw [hbefore]; exact hopens.1) (by rwa [← hrest])
    (by rw [← hrest]; exact hread.1) (by rwa [← hrest]) blocks
  have hreadName : readName (t.rest.drop len) = (((s.rest.drop len).takeWhile isBlank).length, none) := by
    rw [readName, ← hrest, drop_takeWhile, hname]
    simp
  have ht' : t.readsClass false len =
      t.advance (len + ((s.rest.drop len).takeWhile isBlank).length) := by
    rw [Scan.readsClass, hreadName]
    rfl
  rw [ht'] at hone
  refine ⟨_, _, Steps.one hone, .inl ⟨(s.rest.drop len).takeWhile isBlank, ?_⟩⟩
  constructor
  · exact List.all_eq_true.mp List.all_takeWhile
  · exact fun _ => hmoves.mode
  · exact hmode'.trans hmoves.mode.symm
  · show s'.rest = _ ++ t.rest.drop _
    rw [hmoves.rest, ← hrest, ← List.drop_drop, drop_takeWhile, List.takeWhile_append_dropWhile]
  · show (t.rest.take _).reverse ++ t.before = _
    rw [hmoves.before, ← hrest, hbefore, List.take_add, take_takeWhile, List.reverse_append,
      List.append_assoc]
  · show t.result.classes = _
    rw [hmoves.classes, h.classes]
  · intro hleft
    show t.namespaceName = _
    rw [hmoves.names, h.names hleft]
  · exact hstep

theorem Reaches.after {t' : Scan} {blocks' : Blocks}
    (hsteps : Steps leanStep (t, blocks) (t', blocks')) (h : Reaches t' blocks' s') :
    Reaches t blocks s' := by
  have ⟨t'', blocks'', hmore, hend⟩ := h
  exact ⟨t'', blocks'', hsteps.trans hmore, hend⟩

/-- Both scans move to behind a word and the blanks that follow it. -/
theorem Follows.behind (h : Follows s t blocks []) {len : Nat} (hword : Word s len) :
    Steps leanStep (t, blocks)
        (t.advance (len + ((s.rest.drop len).takeWhile isBlank).length), blocks) ∧
      Follows (s.advance (len + ((s.rest.drop len).takeWhile isBlank).length))
        (t.advance (len + ((s.rest.drop len).takeWhile isBlank).length)) blocks [] := by
  have ⟨hrest, hbefore⟩ := h.here
  have hblank : ∀ b ∈ (s.rest.drop len).takeWhile isBlank, isBlank b = true :=
    List.all_eq_true.mp List.all_takeWhile
  have hquiet : quietFor (len + ((s.rest.drop len).takeWhile isBlank).length) t.before t.rest =
      true := by
    rw [← hrest, hbefore, quietFor_add, hword.quiet, Bool.true_and]
    apply quietFor_dull
    rw [take_takeWhile]
    intro b hb
    rw [isDull, hblank b hb]
    rfl
  have hpass : (t.rest.take (len + ((s.rest.drop len).takeWhile isBlank).length)).foldl Blocks.pass
      blocks = blocks := by
    apply foldl_pass
    intro b hb
    rw [← hrest, List.take_add, take_takeWhile] at hb
    rcases List.mem_append.mp hb with hb | hb
    · exact hword.not_brace b hb
    · exact not_brace_of_isBlank (hblank b hb)
  have hsteps := steps_of_quiet (h.mode.trans hword.mode) hquiet blocks
  rw [hpass] at hsteps
  refine ⟨hsteps, ?_⟩
  constructor
  · simp
  · simp
  · exact h.mode
  · show s.rest.drop _ = t.rest.drop _
    rw [hrest]
  · show (t.rest.take _).reverse ++ t.before = (s.rest.take _).reverse ++ s.before
    rw [hrest, hbefore]
  · exact h.classes
  · exact h.names
  · exact h.inStep

theorem Moves.split {m n : Nat} (h : Moves s (m + n) s') : Moves (s.advance m) n s' where
  rest := by
    rw [h.rest, ← List.drop_drop]
    rfl
  before := by
    rw [h.before, List.take_add, List.reverse_append, List.append_assoc]
    rfl
  mode := h.mode
  classes := h.classes
  names := h.names

/-- The name behind a word, where it declares nothing itself. -/
theorem Follows.name (h : Follows s t blocks []) {len : Nat} (hword : Word s len)
    (hread : s.nameMisread len = false)
    (hmoves : Moves s (len + (readName (s.rest.drop len)).1) s') (hstep : InStep s'.book blocks) :
    Reaches t blocks s' := by
  have ⟨hsteps, hbehind⟩ := h.behind hword
  have hlen : (readName (s.rest.drop len)).1 = ((s.rest.drop len).takeWhile isBlank).length +
      (((s.rest.drop len).dropWhile isBlank).takeWhile isNameByte).length := by
    rw [readName, drop_takeWhile]
  have hrest : (s.advance (len + ((s.rest.drop len).takeWhile isBlank).length)).rest =
      (s.rest.drop len).dropWhile isBlank := by
    show s.rest.drop _ = _
    rw [← List.drop_drop, drop_takeWhile]
  rw [hlen, ← Nat.add_assoc] at hmoves
  have hmoves' := hmoves.split
  rw [Scan.nameMisread] at hread
  rw [← hrest] at hread hmoves'
  apply Reaches.after hsteps
  have hnames : ∀ b ∈ (s.advance (len + ((s.rest.drop len).takeWhile isBlank).length)).rest.take
      ((s.advance (len + ((s.rest.drop len).takeWhile isBlank).length)).rest.takeWhile
        isNameByte).length, isNameByte b = true := by
    rw [take_takeWhile]
    exact List.all_eq_true.mp List.all_takeWhile
  have hmode : (s.advance (len + ((s.rest.drop len).takeWhile isBlank).length)).mode = .code :=
    hword.mode
  generalize s.advance (len + ((s.rest.drop len).takeWhile isBlank).length) = p at *
  by_cases hopens : opensAt p.before p.rest = true
  · by_cases hfirst : p.rest.head?.any isNameByte = true
    · apply hbehind.keyword hmode hopens _ hread hmoves' hstep
      cases hp : p.rest with
      | nil => rfl
      | cons b rest =>
          rw [hp, List.head?_cons, Option.any_some] at hfirst
          exact textAt_of_isNameByte hfirst rest
    · have hzero : p.rest.takeWhile isNameByte = [] := by
        cases hp : p.rest with
        | nil => rfl
        | cons b rest =>
            rw [hp, List.head?_cons, Option.any_some] at hfirst
            exact List.takeWhile_cons_of_neg hfirst
      rw [hzero] at hmoves'
      apply hbehind.plain hmode _ hmoves' (by simp) hstep
      rw [List.length_nil, quietFor]
      simp
  · rw [Bool.not_eq_true] at hopens
    exact hbehind.word (.of_names hmode hopens hnames) hmoves' hstep

/-! ## Quoted names -/

theorem leanStep_quoted {quote : UInt8} (hmode : t.mode = .quoted quote) (blocks : Blocks) :
    leanStep (t, blocks) = (t.step false).map fun s => (s, blocks) := by
  rw [leanStep, Blocks.read, if_neg (by simp [hmode])]

theorem skipText_skip {quote b : UInt8} (hquote : b ≠ quote) (hback : b ≠ backslash)
    (rest : Bytes) :
    skipText (.quoted quote) (b :: rest) =
      (skipText (.quoted quote) rest).map fun target => (target.1 + 1, target.2) := by
  have hnone : (b == quote || b == backslash) = false := by simp [hquote, hback]
  simp only [skipText, List.findIdx?_cons, hnone, Bool.false_eq_true, if_false, Option.map_map]
  congr 1
  funext pos
  simp only [Function.comp_apply, List.getElem?_cons_succ]
  split <;> rfl

theorem Scan.enter_advance (n : Nat) (target : Nat × Mode) (s : Scan) :
    (s.advance n).enter target = s.enter (n + target.1, target.2) := by
  rw [Scan.enter, Scan.advance_advance]
  rfl

/-- The next quote or backslash is where it is from the byte behind. -/
theorem step_quoted_skip {quote b : UInt8} {rest : Bytes} (hmode : t.mode = .quoted quote)
    (hrest : t.rest = b :: rest) (hquote : b ≠ quote) (hback : b ≠ backslash) :
    t.step false = (t.advance 1).step false := by
  have hrest' : (t.advance 1).rest = rest := by
    show t.rest.drop 1 = rest
    rw [hrest]
    rfl
  have hmode' : (t.advance 1).mode = .quoted quote := hmode
  rw [Scan.step, if_neg (by simp [hrest]), if_neg (by simp [hmode]), hmode, hrest,
    skipText_skip hquote hback, Scan.step, hrest', hmode']
  by_cases hnil : rest = []
  · rw [if_pos hnil, hnil]
    rfl
  · rw [if_neg hnil, if_neg (by simp), Option.map_map]
    congr 1
    funext target
    rw [Scan.enter_advance, Nat.add_comm]
    rfl

/-- At a backslash the lean scan steps over the byte behind. -/
theorem step_quoted_escape {quote : UInt8} {rest : Bytes} (hmode : t.mode = .quoted quote)
    (hrest : t.rest = backslash :: rest) : t.step false = some (t.advance 2) := by
  rw [Scan.step, if_neg (by simp [hrest]), if_neg (by simp [hmode]), hmode, hrest, skipText,
    List.findIdx?_cons, if_pos (by simp)]
  simp only [Option.map_some, List.getElem?_cons_zero, if_true]
  rw [Scan.enter, ← hmode]
  rfl

theorem step_quoted_close {quote : UInt8} {rest : Bytes} (hmode : t.mode = .quoted quote)
    (hquote : quote ≠ backslash) (hrest : t.rest = quote :: rest) :
    t.step false = some (t.enter (1, .code)) := by
  rw [Scan.step, if_neg (by simp [hrest]), if_neg (by simp [hmode]), hmode, hrest, skipText,
    List.findIdx?_cons, if_pos (by simp)]
  simp [hquote]

/-- The bytes behind an escape are no quotes. -/
theorem scanDefineName_escape {quote c : UInt8} {rest : Bytes} {len : Nat} {closed : Bool}
    (hquote : quote ≠ backslash)
    (h : scanDefineName quote (backslash :: c :: rest) = (len, closed))
    (hread : (len, closed) ≠ (0, false)) :
    ∃ more, scanDefineName quote rest = (more, closed) ∧ len = more + 2 := by
  rw [scanDefineName, if_neg (Ne.symm hquote)] at h
  by_cases hescape : backslash = backslash ∧ ((c :: rest).head? = some quote ∨
      (c :: rest).head? = some backslash)
  · rw [if_pos hescape] at h
    exact absurd h.symm hread
  · rw [if_neg hescape] at h
    simp only [List.head?_cons, Option.some.injEq, true_and, not_or] at hescape
    rw [scanDefineName, if_neg hescape.1, if_neg (fun hc => hescape.2 hc.1)] at h
    have hpair := Prod.mk.inj h
    exact ⟨_, Prod.ext rfl hpair.2, hpair.1.symm⟩

theorem scanDefineName_skip {quote b : UInt8} (hquote : b ≠ quote) (hback : b ≠ backslash)
    (rest : Bytes) : scanDefineName quote (b :: rest) =
      ((scanDefineName quote rest).1 + 1, (scanDefineName quote rest).2) := by
  rw [scanDefineName, if_neg hquote, if_neg fun h => hback h.1]

/-- The lean scan leaves quoted text where the name of a `define()` call is closed. -/
theorem steps_closed {quote : UInt8} (hquote : quote ≠ backslash) (n : Nat) (t : Scan)
    (hn : t.rest.length ≤ n) (hmode : t.mode = .quoted quote) {len : Nat}
    (h : scanDefineName quote t.rest = (len, true)) (blocks : Blocks) :
    ∃ t', leanStep (t, blocks) = some (t', blocks) ∧
      Steps leanStep (t', blocks) (t.enter (len + 1, .code), blocks) := by
  induction n generalizing t len with
  | zero =>
      rw [List.length_eq_zero_iff.mp (Nat.le_zero.mp hn)] at h
      exact absurd h (by simp [scanDefineName])
  | succ n ih =>
      cases hrest : t.rest with
      | nil =>
          rw [hrest] at h
          exact absurd h (by simp [scanDefineName])
      | cons b rest =>
          rw [hrest] at h hn
          rw [List.length_cons] at hn
          by_cases hb : b = quote
          · rw [scanDefineName, if_pos hb, Prod.mk.injEq] at h
            rw [hb] at hrest
            refine ⟨t.enter (1, .code), ?_, ?_⟩
            · rw [leanStep_quoted hmode, step_quoted_close hmode hquote hrest]
              rfl
            · rw [← h.1]
              exact Steps.refl _
          · by_cases hback : b = backslash
            · rw [hback] at h hrest
              have hone : leanStep (t, blocks) = some (t.advance 2, blocks) := by
                rw [leanStep_quoted hmode, step_quoted_escape hmode hrest]
                rfl
              refine ⟨t.advance 2, hone, ?_⟩
              cases rest with
              | nil => exact absurd h (by simp [scanDefineName, Ne.symm hquote])
              | cons c rest =>
                  have ⟨more, hmore, hlen⟩ := scanDefineName_escape hquote h (by simp)
                  have hrest' : (t.advance 2).rest = rest := by
                    show t.rest.drop 2 = rest
                    rw [hrest]
                    rfl
                  rw [List.length_cons] at hn
                  rw [← hrest'] at hmore
                  have ⟨t', hstep, hsteps⟩ := ih (t.advance 2) (by rw [hrest']; omega) hmode hmore
                  rw [Scan.enter_advance] at hsteps
                  rw [hlen, show more + 2 + 1 = 2 + (more + 1) by omega]
                  exact (Steps.one hstep).trans hsteps
            · rw [scanDefineName_skip hb hback, Prod.mk.injEq] at h
              have hrest' : (t.advance 1).rest = rest := by
                show t.rest.drop 1 = rest
                rw [hrest]
                rfl
              have hmore : scanDefineName quote (t.advance 1).rest =
                  ((scanDefineName quote rest).1, true) := by
                rw [hrest', ← h.2]
              have ⟨t', hstep, hsteps⟩ := ih (t.advance 1) (by rw [hrest']; omega) hmode hmore
              rw [Scan.enter_advance] at hsteps
              refine ⟨t', ?_, ?_⟩
              · rw [leanStep_quoted hmode, step_quoted_skip hmode hrest hb hback]
                rw [@leanStep_quoted (t.advance 1) quote hmode] at hstep
                exact hstep
              · rw [← h.1, show (scanDefineName quote rest).1 + 1 + 1 =
                  1 + ((scanDefineName quote rest).1 + 1) by omega]
                exact hsteps

/-- Where it is not closed, and no escape is in it, the lean scan ends. -/
theorem steps_unclosed {quote : UInt8} (hquote : quote ≠ backslash) (n : Nat) (t : Scan)
    (hn : t.rest.length ≤ n) (hmode : t.mode = .quoted quote) {len : Nat}
    (h : scanDefineName quote t.rest = (len, false)) (hlen : t.rest.length ≤ len)
    (blocks : Blocks) :
    ∃ t', Steps leanStep (t, blocks) (t', blocks) ∧ t'.step false = none ∧
      t'.result = t.result := by
  induction n generalizing t len with
  | zero =>
      have hnil := List.length_eq_zero_iff.mp (Nat.le_zero.mp hn)
      exact ⟨t, Steps.refl _, by rw [Scan.step, if_pos hnil], rfl⟩
  | succ n ih =>
      cases hrest : t.rest with
      | nil => exact ⟨t, Steps.refl _, by rw [Scan.step, if_pos hrest], rfl⟩
      | cons b rest =>
          rw [hrest] at h hn hlen
          rw [List.length_cons] at hn hlen
          by_cases hb : b = quote
          · rw [scanDefineName, if_pos hb] at h
            exact absurd (Prod.mk.inj h).2 (by simp)
          · by_cases hback : b = backslash
            · rw [hback] at h hrest
              have hone : leanStep (t, blocks) = some (t.advance 2, blocks) := by
                rw [leanStep_quoted hmode, step_quoted_escape hmode hrest]
                rfl
              have hrest' : (t.advance 2).rest = rest.drop 1 := by
                show t.rest.drop 2 = rest.drop 1
                rw [hrest]
                rfl
              cases rest with
              | nil =>
                  rw [List.drop_nil] at hrest'
                  exact ⟨t.advance 2, Steps.one hone, by rw [Scan.step, if_pos hrest'], rfl⟩
              | cons c rest =>
                  have hread : (len, false) ≠ (0, false) := by
                    intro heq
                    have hzero := (Prod.mk.inj heq).1
                    omega
                  obtain ⟨more, hmore, hlen'⟩ := scanDefineName_escape hquote h hread
                  rw [List.length_cons] at hn hlen
                  rw [List.drop_succ_cons, List.drop_zero] at hrest'
                  rw [← hrest'] at hmore
                  obtain ⟨t', hsteps, hend, hresult⟩ := ih (t.advance 2) (by rw [hrest']; omega) hmode
                    hmore (by rw [hrest']; omega)
                  exact ⟨t', (Steps.one hone).trans hsteps, hend, hresult⟩
            · rw [scanDefineName_skip hb hback, Prod.mk.injEq] at h
              have hrest' : (t.advance 1).rest = rest := by
                show t.rest.drop 1 = rest
                rw [hrest]
                rfl
              have hmore : scanDefineName quote (t.advance 1).rest =
                  ((scanDefineName quote rest).1, false) := by
                rw [hrest', ← h.2]
              obtain ⟨t', hsteps, hend, hresult⟩ := ih (t.advance 1) (by rw [hrest']; omega) hmode hmore
                (by rw [hrest']; omega)
              have hsame := step_quoted_skip hmode hrest hb hback
              cases Relation.ReflTransGen.cases_head hsteps with
              | inl heq =>
                  have ht' : t.advance 1 = t' := congrArg Prod.fst heq
                  refine ⟨t, Steps.refl _, ?_, rfl⟩
                  rw [hsame, ht']
                  exact hend
              | inr hmore =>
                  obtain ⟨x, hstep, hrun⟩ := hmore
                  have hone : leanStep (t, blocks) = some x := by
                    rw [leanStep_quoted hmode, hsame]
                    rw [@leanStep_quoted (t.advance 1) quote hmode] at hstep
                    exact hstep
                  exact ⟨t', (Steps.one hone).trans hrun, hend, hresult⟩

section

variable (name : Option Bytes)

theorem Moves.addFunction {n : Nat} (h : Moves s n s') : Moves s n (s'.addFunction name) := by
  cases name with
  | none => exact h
  | some name => exact ⟨h.rest, h.before, h.mode, h.classes, h.names⟩

theorem Moves.addConstant {n : Nat} (h : Moves s n s') : Moves s n (s'.addConstant name) := by
  cases name with
  | none => exact h
  | some name => exact ⟨h.rest, h.before, h.mode, h.classes, h.names⟩

@[simp] theorem Scan.addFunction_book : (s.addFunction name).book = s.book := by cases name <;> rfl

@[simp] theorem Scan.addConstant_book : (s.addConstant name).book = s.book := by cases name <;> rfl

end

theorem moves_advance (hmode : s.mode = .code) (n : Nat) : Moves s n (s.advance n) :=
  ⟨rfl, rfl, hmode, rfl, rfl⟩

/-- The quoted name of a `define()` call. -/
theorem Follows.define (h : Follows s t blocks []) {len : Nat} (hword : Word s len) {quote : UInt8}
    {name : Bytes} (hrest : (s.rest.drop len).dropWhile isBlank = quote :: name)
    (hquote : isQuote quote = true)
    (hread : (scanDefineName quote name).2 = true ∨
      name.length ≤ (scanDefineName quote name).1)
    (hmoves : Moves s (len + ((s.rest.drop len).takeWhile isBlank).length +
      (readDefineName (quote :: name)).1) s') (hstep : InStep s'.book blocks) :
    Reaches t blocks s' := by
  obtain ⟨hsteps, hbehind⟩ := h.behind hword
  have hmode : (s.advance (len + ((s.rest.drop len).takeWhile isBlank).length)).mode = .code :=
    hword.mode
  have hp : (s.advance (len + ((s.rest.drop len).takeWhile isBlank).length)).rest =
      quote :: name := by
    show s.rest.drop _ = _
    rw [← List.drop_drop, drop_takeWhile, hrest]
  have hmoves' := hmoves.split
  apply Reaches.after hsteps
  generalize s.advance (len + ((s.rest.drop len).takeWhile isBlank).length) = p at *
  generalize t.advance (len + ((s.rest.drop len).takeWhile isBlank).length) = r at *
  obtain ⟨hrest', hbefore⟩ := hbehind.here
  have htext : textAt (quote :: name) = some (1, .quoted quote) := by
    have hcases : quote = byte '\'' ∨ quote = byte '"' := by simpa [isQuote] using hquote
    rcases hcases with rfl | rfl <;> rfl
  have hback : quote ≠ backslash := by
    rintro rfl
    exact absurd hquote (by decide)
  have hr : r.rest = quote :: name := hrest'.symm.trans hp
  have hone : leanStep (r, blocks) = some (r.enter (1, .quoted quote), blocks) := by
    have hcode : r.readCode false = r.enter (1, .quoted quote) := by
      rw [Scan.readCode, hr, htext]
      rfl
    rw [leanStep, Scan.step, if_neg (by simp [hr]), if_pos (hbehind.mode.trans hmode), hcode,
      read_of_text hr (by rw [htext]; rfl)]
    rfl
  have hinside : (r.enter (1, .quoted quote)).rest = name := by
    show r.rest.drop 1 = name
    rw [hr]
    rfl
  apply Reaches.after (Steps.one hone)
  cases hscan : scanDefineName quote name with
  | mk n closed =>
      rw [hscan] at hread
      rw [← hinside] at hscan
      cases closed with
      | true =>
          have hlen : (readDefineName (quote :: name)).1 = n + 2 := by
            rw [hinside] at hscan
            simp [readDefineName, hquote, hscan]
          rw [hlen] at hmoves'
          obtain ⟨r', hstep', hclosed⟩ := steps_closed hback _ (r.enter (1, .quoted quote))
            (Nat.le_refl _) rfl hscan blocks
          refine ⟨_, _, (Steps.one hstep').trans hclosed, .inl ⟨[], ?_⟩⟩
          constructor
          · simp
          · simp
          · exact hmoves'.mode.symm
          · show s'.rest = (r.rest.drop 1).drop (n + 1)
            rw [hmoves'.rest, hrest', List.drop_drop, show 1 + (n + 1) = n + 2 by omega]
          · show ((r.rest.drop 1).take (n + 1)).reverse ++ ((r.rest.take 1).reverse ++ r.before) = _
            have htake : r.rest.take (n + 2) = r.rest.take 1 ++ (r.rest.drop 1).take (n + 1) := by
              rw [show n + 2 = 1 + (n + 1) by omega, List.take_add]
            rw [hmoves'.before, hrest', hbefore, htake, List.reverse_append, List.append_assoc]
            rfl
          · show r.result.classes = _
            rw [hmoves'.classes, hbehind.classes]
          · intro hleft
            show r.namespaceName = _
            rw [hmoves'.names, hbehind.names hleft]
          · exact hstep
      | false =>
          have hlong : name.length ≤ n := by simpa using hread
          have hlen : (readDefineName (quote :: name)).1 = n + 1 := by
            rw [hinside] at hscan
            simp [readDefineName, hquote, hscan]
          rw [hlen] at hmoves'
          obtain ⟨r', hsteps', hend, hresult⟩ := steps_unclosed hback _ (r.enter (1, .quoted quote))
            (Nat.le_refl _) rfl hscan (by rw [hinside]; exact hlong) blocks
          refine ⟨_, _, hsteps', .inr ⟨?_, hend, ?_⟩⟩
          · rw [hmoves'.rest, hp]
            apply List.drop_eq_nil_of_le
            rw [List.length_cons]
            omega
          · rw [hresult, hmoves'.classes]
            exact hbehind.classes

/-! ## What only the full scan reads -/

theorem names_of_word {word rest : Bytes} {next : UInt8 → Bool} (h : wordAt word next rest = true)
    (hword : ∀ b ∈ word, isNameByte b = true) :
    ∀ b ∈ rest.take word.length, isNameByte b = true := by
  rw [take_of_wordAt h]
  exact hword

theorem Follows.readsFunction (h : Follows s t blocks []) (hmode : s.mode = .code)
    (hopens : opensAt s.before s.rest = false) (hfunction : functionAt s.rest = true)
    (hread : (if isPrecededByUse s.before then s.importMisread 8
      else !s.book.inBody && s.nameMisread 8) = false) : Reaches t blocks s.readsFunction := by
  have hword : Word s 8 := .of_names hmode hopens (names_of_word hfunction (by decide +kernel))
  rw [Scan.readsFunction]
  by_cases huse : isPrecededByUse s.before = true
  · rw [if_pos huse] at hread ⊢
    exact h.useStatement hword hread (moves_advance hmode _) rfl
  · rw [if_neg huse] at hread ⊢
    by_cases hbody : s.book.inBody = true
    · rw [if_pos hbody]
      exact h.word hword (moves_advance hmode _) h.inStep
    · rw [Bool.not_eq_true] at hbody
      rw [hbody, Bool.not_false, Bool.true_and] at hread
      rw [if_neg (by simp [hbody])]
      by_cases hparen : ((s.rest.drop 8).drop ((s.rest.drop 8).takeWhile isBlank).length).head? =
          some (byte '(')
      · simp only [if_pos hparen]
        exact h.blanks hword ⟨rfl, rfl, hmode, rfl, rfl⟩ h.inStep.expectBody
      · simp only [if_neg hparen]
        apply h.name hword hread
        · apply Moves.addFunction
          exact ⟨rfl, rfl, hmode, rfl, rfl⟩
        · rw [Scan.addFunction_book]
          exact h.inStep.expectBody

theorem Follows.readsConst (h : Follows s t blocks []) (hmode : s.mode = .code)
    (hopens : opensAt s.before s.rest = false) (hconst : constAt s.rest = true)
    (hread : (if isPrecededByUse s.before then s.importMisread 5
      else s.book.isTopLevel && s.nameMisread 5) = false) : Reaches t blocks s.readsConst := by
  have hword : Word s 5 := .of_names hmode hopens (names_of_word hconst (by decide +kernel))
  rw [Scan.readsConst]
  by_cases huse : isPrecededByUse s.before = true
  · rw [if_pos huse] at hread ⊢
    exact h.useStatement hword hread (moves_advance hmode _) rfl
  · rw [if_neg huse] at hread ⊢
    by_cases htop : s.book.isTopLevel = true
    · rw [htop, Bool.true_and] at hread
      rw [if_pos htop]
      apply h.name hword hread
      · apply Moves.addConstant
        exact moves_advance hmode _
      · rw [Scan.addConstant_book]
        exact h.inStep
    · rw [if_neg htop]
      exact h.word hword (moves_advance hmode _) h.inStep

theorem Follows.readsDefine (h : Follows s t blocks []) (hmode : s.mode = .code)
    (hopens : opensAt s.before s.rest = false) (hdefine : defineAt s.rest = true)
    (hread : s.defineMisread = false) : Reaches t blocks s.readsDefine := by
  have ⟨more, hmore⟩ := List.isPrefixOf_iff_prefix.mp hdefine
  have hword : Word s 7 := by
    refine ⟨hmode, ?_, ?_⟩
    · rw [show 7 = 6 + 1 by rfl, quietFor_add, Bool.and_eq_true]
      constructor
      · apply quietFor_word hopens
        rw [← hmore, show (bytes "define(" ++ more).take 6 = bytes "define" from rfl]
        decide +kernel
      · apply quietFor_dull
        rw [← hmore, show ((bytes "define(" ++ more).drop 6).take 1 = bytes "(" from rfl]
        decide +kernel
    · rw [← hmore, show (bytes "define(" ++ more).take 7 = bytes "define(" from rfl]
      decide +kernel
  have hbook : ∀ n name, ((s.advance n).addConstant name).book = s.book :=
    fun n name => Scan.addConstant_book name
  rw [Scan.readsDefine]
  simp only [drop_takeWhile]
  simp only [Scan.defineMisread] at hread
  cases hrest : (s.rest.drop 7).dropWhile isBlank with
  | nil =>
      apply h.blanks hword ((moves_advance hmode _).addConstant _)
      rw [hbook]
      exact h.inStep
  | cons quote name =>
      rw [hrest] at hread
      by_cases hquote : isQuote quote = true
      · apply h.define hword hrest hquote _ ((moves_advance hmode _).addConstant _)
        · rw [hbook]
          exact h.inStep
        · simpa [hquote, or_iff_not_imp_left] using hread
      · have hnone : readDefineName (quote :: name) = (0, none) := by
          rw [readDefineName, if_neg hquote]
        rw [hnone]
        apply h.blanks hword (moves_advance hmode _)
        exact h.inStep

theorem Follows.readSymbol (h : Follows s t blocks []) (hmode : s.mode = .code)
    (hboundary : isKeywordBoundary s.before = true) (hopens : opensAt s.before s.rest = false)
    (hread : s.misreads = false) (hsymbol : s.readSymbol = some s') : Reaches t blocks s' := by
  have hread' : (if functionAt s.rest then
      if isPrecededByUse s.before then s.importMisread 8 else !s.book.inBody && s.nameMisread 8
    else if defineAt s.rest then s.defineMisread
    else if constAt s.rest then
      if isPrecededByUse s.before then s.importMisread 5
      else s.book.isTopLevel && s.nameMisread 5
    else false) = false := by
    rw [Scan.misreads, hmode, hboundary] at hread
    exact hread
  rw [Scan.readSymbol] at hsymbol
  split at hsymbol
  · rename_i hclass
    rw [← Option.some.inj hsymbol]
    rw [anonymousClassAt, Bool.and_eq_true] at hclass
    have htake := (List.prefix_iff_eq_take.mp (List.isPrefixOf_iff_prefix.mp hclass.1.1)).symm
    have hword : Word s 5 := by
      apply Word.of_names hmode hopens
      rw [show s.rest.take 5 = bytes "class" from htake]
      decide +kernel
    exact h.word hword ⟨rfl, rfl, hmode, rfl, rfl⟩ h.inStep.expectBody
  · split at hsymbol
    · rename_i hfunction
      rw [if_pos hfunction] at hread'
      rw [← Option.some.inj hsymbol]
      exact h.readsFunction hmode hopens hfunction hread'
    · rename_i hfunction
      rw [if_neg hfunction] at hread'
      split at hsymbol
      · rename_i hdefine
        rw [if_pos hdefine] at hread'
        rw [← Option.some.inj hsymbol]
        exact h.readsDefine hmode hopens hdefine hread'
      · rename_i hdefine
        rw [if_neg hdefine] at hread'
        split at hsymbol
        · rename_i hconst
          rw [if_pos hconst] at hread'
          rw [← Option.some.inj hsymbol]
          exact h.readsConst hmode hopens hconst hread'
        · exact absurd hsymbol (by simp)

/-! ## Every turn moves the cursor -/

/-- The cursor moves on, and what the scan is inside of can be left. -/
structure Onward (s s' : Scan) : Prop where
  rest : ∃ n, 1 ≤ n ∧ s'.rest = s.rest.drop n
  heredoc : ∀ id, s'.mode = .heredoc id → id ≠ []
  classes : classKeywordAt s.rest = none → s'.result.classes = s.result.classes

theorem onward_advance (hmode : s.mode = .code) {n : Nat} (hn : 1 ≤ n)
    (hrest : s'.rest = s.rest.drop n) (hmode' : s'.mode = s.mode)
    (hclasses : s'.result.classes = s.result.classes) : Onward s s' := by
  refine ⟨⟨n, hn, hrest⟩, ?_, fun _ => hclasses⟩
  intro id hid
  rw [hmode', hmode] at hid
  exact absurd hid (by simp)

theorem textAt_onward {rest : Bytes} {target : Nat × Mode} (h : textAt rest = some target) :
    1 ≤ target.1 ∧ ∀ id, target.2 = .heredoc id → id ≠ [] := by
  cases rest with
  | nil => exact absurd h (by simp [textAt])
  | cons b rest =>
      rw [textAt] at h
      split at h
      · rw [← Option.some.inj h]
        simp
      · split at h
        · rw [← Option.some.inj h]
          simp
        · split at h
          · split at h <;> rw [← Option.some.inj h] <;> simp
          · split at h
            · rw [← Option.some.inj h]
              simp
            · split at h
              · cases hread : readHeredoc (rest.drop 2) with
                | mk len id =>
                    rw [hread] at h
                    rw [← Option.some.inj h]
                    refine ⟨by show 1 ≤ 3 + len; omega, ?_⟩
                    intro id' hid
                    by_cases hnil : id = []
                    · exact absurd hid (by simp [hnil])
                    · simp only [hnil, if_false, Mode.heredoc.injEq] at hid
                      rw [← hid]
                      exact hnil
              · exact absurd h (by simp)

theorem skipText_onward {mode : Mode} {rest : Bytes} {target : Nat × Mode}
    (hid : ∀ id, mode = .heredoc id → id ≠ []) (h : skipText mode rest = some target) :
    1 ≤ target.1 ∧ ∀ id, target.2 = .heredoc id → id ≠ [] := by
  cases mode with
  | code => exact absurd h (by simp [skipText])
  | lineComment =>
      have ⟨pos, _, htarget⟩ := Option.map_eq_some_iff.mp h
      rw [← htarget]
      simp
  | blockComment =>
      have ⟨pos, _, htarget⟩ := Option.map_eq_some_iff.mp h
      rw [← htarget]
      simp
  | quoted quote =>
      have ⟨pos, _, htarget⟩ := Option.map_eq_some_iff.mp h
      rw [← htarget]
      split <;> simp
  | heredoc id =>
      have hne := hid id rfl
      simp only [skipText] at h
      split at h
      · rw [← Option.some.inj h]
        have hpos := List.length_pos_of_ne_nil hne
        refine ⟨?_, by simp⟩
        show 1 ≤ _ + id.length
        omega
      · have ⟨pos, _, htarget⟩ := Option.map_eq_some_iff.mp h
        rw [← htarget]
        refine ⟨by simp, ?_⟩
        intro id' hid'
        rw [← Mode.heredoc.inj hid']
        exact hne

theorem onward_enter {target : Nat × Mode}
    (h : 1 ≤ target.1 ∧ ∀ id, target.2 = .heredoc id → id ≠ []) : Onward s (s.enter target) :=
  ⟨⟨target.1, h.1, rfl⟩, h.2, fun _ => rfl⟩

theorem Onward.addFunction (h : Onward s s') (name : Option Bytes) :
    Onward s (s'.addFunction name) := by
  cases name with
  | none => exact h
  | some name => exact ⟨h.rest, h.heredoc, h.classes⟩

theorem Onward.addConstant (h : Onward s s') (name : Option Bytes) :
    Onward s (s'.addConstant name) := by
  cases name with
  | none => exact h
  | some name => exact ⟨h.rest, h.heredoc, h.classes⟩

theorem onward_symbol (hmode : s.mode = .code) (h : s.readSymbol = some s') : Onward s s' := by
  rw [Scan.readSymbol] at h
  split at h
  · rw [← Option.some.inj h]
    exact onward_advance hmode (by omega) rfl rfl rfl
  · split at h
    · rw [← Option.some.inj h, Scan.readsFunction]
      split
      · exact onward_advance hmode (by omega) rfl rfl rfl
      · split
        · exact onward_advance hmode (by omega) rfl rfl rfl
        · simp only
          split
          · exact onward_advance hmode (by omega) rfl rfl rfl
          · apply Onward.addFunction
            exact onward_advance hmode (by omega) rfl rfl rfl
    · split at h
      · rw [← Option.some.inj h, Scan.readsDefine]
        apply Onward.addConstant
        exact onward_advance hmode (by omega) rfl rfl rfl
      · split at h
        · rw [← Option.some.inj h, Scan.readsConst]
          split
          · exact onward_advance hmode (by omega) rfl rfl rfl
          · split
            · apply Onward.addConstant
              exact onward_advance hmode (by omega) rfl rfl rfl
            · exact onward_advance hmode (by omega) rfl rfl rfl
        · exact absurd h (by simp)

theorem onward_keyword {symbols : Bool} (hmode : s.mode = .code)
    (h : s.readKeyword symbols = some s') : Onward s s' := by
  rw [Scan.readKeyword] at h
  split at h
  · rw [← Option.some.inj h]
    cases symbols with
    | false => exact onward_advance hmode (by omega) rfl rfl rfl
    | true =>
        by_cases hbrace : (s.rest.drop (9 + (readNamespace (s.rest.drop 9)).1)).head? =
            some openBrace
        · rw [s.readsNamespace_brace hbrace]
          rw [Scan.advance_advance]
          exact onward_advance hmode (by omega) rfl rfl rfl
        · rw [s.readsNamespace_no_brace hbrace]
          exact onward_advance hmode (by omega) rfl rfl rfl
  · split at h
    · rename_i len hlen
      obtain ⟨word, hmem, _, hword⟩ := classKeywordAt_some hlen
      have hpos : 1 ≤ len := by
        simp only [List.mem_cons, List.not_mem_nil, or_false] at hmem
        rcases hmem with rfl | rfl | rfl | rfl <;> rw [hword] <;> decide
      rw [← Option.some.inj h]
      refine ⟨⟨len + (readName (s.rest.drop len)).1, ?_, ?_⟩, ?_, ?_⟩
      · omega
      · cases symbols <;> simp [Scan.readsClass, Scan.advance]
      · cases symbols <;> simp [Scan.readsClass, Scan.advance, hmode]
      · rw [hlen]
        exact fun hnone => absurd hnone (by simp)
    · split at h
      · exact onward_symbol hmode h
      · exact absurd h (by simp)

/-- What is read at the cursor: a brace, text, a keyword, or a byte. -/
theorem Scan.readCode_cases (symbols : Bool) (s : Scan) :
    (symbols = true ∧ s.readBrace = some (s.readCode symbols)) ∨
      ((symbols = true → s.readBrace = none) ∧
        ((∃ target, textAt s.rest = some target ∧ s.readCode symbols = s.enter target) ∨
          (textAt s.rest = none ∧
            ((isKeywordBoundary s.before = true ∧
                s.readKeyword symbols = some (s.readCode symbols)) ∨
              ((isKeywordBoundary s.before = true → s.readKeyword symbols = none) ∧
                s.readCode symbols = s.advance 1))))) := by
  cases hbrace : (if symbols = true then s.readBrace else none) with
  | some s' =>
      cases symbols with
      | false => exact absurd hbrace (by simp)
      | true =>
          left
          rw [if_pos rfl] at hbrace
          simp [Scan.readCode, hbrace]
  | none =>
      right
      refine ⟨fun hsymbols => by rwa [if_pos hsymbols] at hbrace, ?_⟩
      cases htext : textAt s.rest with
      | some target =>
          left
          exact ⟨target, rfl, by simp [Scan.readCode, hbrace, htext]⟩
      | none =>
          right
          refine ⟨rfl, ?_⟩
          by_cases hboundary : isKeywordBoundary s.before = true
          · cases hkeyword : s.readKeyword symbols with
            | some s' =>
                left
                simp [Scan.readCode, hbrace, htext, hboundary, hkeyword]
            | none =>
                right
                simp [Scan.readCode, hbrace, htext, hboundary, hkeyword]
          · right
            simp [Scan.readCode, hbrace, htext, hboundary]

theorem onward_brace (hmode : s.mode = .code) (h : s.readBrace = some s') : Onward s s' := by
  rw [Scan.readBrace] at h
  split at h
  · exact absurd h (by simp)
  · split at h
    · rw [← Option.some.inj h]
      exact onward_advance hmode (Nat.le_refl 1) rfl rfl rfl
    · split at h
      · rw [← Option.some.inj h]
        exact onward_advance hmode (Nat.le_refl 1) rfl rfl rfl
      · exact absurd h (by simp)

/-- A turn of the scan. -/
theorem Scan.step_onward {symbols : Bool} (hid : ∀ id, s.mode = .heredoc id → id ≠ [])
    (h : s.step symbols = some s') : s.rest ≠ [] ∧ Onward s s' := by
  rw [Scan.step] at h
  split at h
  · exact absurd h (by simp)
  · rename_i hrest
    refine ⟨hrest, ?_⟩
    split at h
    · rename_i hmode
      rw [← Option.some.inj h]
      rcases s.readCode_cases symbols with hbrace | ⟨_, hcode⟩
      · exact onward_brace hmode hbrace.2
      · rcases hcode with ⟨target, htext, hcode⟩ | ⟨_, hkeyword | hplain⟩
        · rw [hcode]
          exact onward_enter (textAt_onward htext)
        · exact onward_keyword hmode hkeyword.2
        · rw [hplain.2]
          exact onward_advance hmode (Nat.le_refl 1) rfl rfl rfl
    · obtain ⟨target, htarget, hs'⟩ := Option.map_eq_some_iff.mp h
      rw [← hs']
      exact onward_enter (skipText_onward hid htarget)

/-! ## The runs -/

/-- A byte that both scans step over. -/
theorem Follows.byte (h : Follows s t blocks []) (hmode : s.mode = .code) (hrest : s.rest ≠ [])
    (hopens : opensAt s.before s.rest = false) (hbrace : s.readBrace = none) :
    Reaches t blocks (s.advance 1) := by
  apply h.plain hmode _ (moves_advance hmode 1) _ h.inStep
  · cases hs : s.rest with
    | nil => rfl
    | cons b rest =>
        rw [hs] at hopens
        rw [quietFor, hopens]
        simp [quietFor]
  · cases hs : s.rest with
    | nil => exact absurd hs hrest
    | cons b rest =>
        simp only [Scan.readBrace, hs] at hbrace
        split at hbrace
        · exact absurd hbrace (by simp)
        · split at hbrace
          · exact absurd hbrace (by simp)
          · intro c hc
            rw [List.take_succ_cons, List.take_zero, List.mem_singleton] at hc
            rw [hc]
            constructor <;> assumption

/-- A turn of the full scan that misreads nothing is followed by the lean scan. -/
theorem Follows.step {gap : Bytes} (h : Follows s t blocks gap) (hread : s.misreads = false)
    (hcovered : t.declaresClass = true → blocks.left = false) (hstep : s.step true = some s') :
    Reaches t blocks s' := by
  cases gap with
  | cons b gap => exact h.blank_step hstep
  | nil =>
      by_cases hmode : s.mode = .code
      · obtain ⟨hrest, hbefore⟩ := h.here
        have hnil : s.rest ≠ [] := by
          intro hnil
          rw [Scan.step, if_pos hnil] at hstep
          exact absurd hstep (by simp)
        rw [Scan.step, if_neg hnil, if_pos hmode] at hstep
        rw [← Option.some.inj hstep]
        rcases s.readCode_cases true with hbrace | ⟨hbrace, hcode⟩
        · exact h.readBrace hmode hbrace.2
        · rcases hcode with ⟨target, htext, hcode⟩ | ⟨htext, hkeyword | ⟨hkeyword, hcode⟩⟩
          · rw [hcode]
            cases hs : s.rest with
            | nil => exact absurd hs hnil
            | cons b rest =>
                rw [hs] at htext
                have hr : t.rest = b :: rest := hrest.symm.trans hs
                apply h.enter _ (read_of_text hr (by rw [htext]; rfl) blocks)
                have henter : t.readCode false = t.enter target := by
                  rw [Scan.readCode, hr, htext]
                  rfl
                rw [Scan.step, if_neg (by simp [hr]), if_pos (h.mode.trans hmode), henter]
          · obtain ⟨hboundary, hkeyword⟩ := hkeyword
            rw [Scan.readKeyword] at hkeyword
            split at hkeyword
            · rename_i hnamespace
              rw [← Option.some.inj hkeyword]
              exact h.readsNamespace hmode hboundary htext hnamespace
            · rename_i hnamespace
              rw [Bool.not_eq_true] at hnamespace
              split at hkeyword
              · rename_i len hlen
                rw [← Option.some.inj hkeyword]
                exact h.readsClass hmode hboundary htext hnamespace hlen hcovered
              · rename_i hclass
                have hopens : opensAt s.before s.rest = false := by
                  rw [opensAt, htext, hnamespace, hclass]
                  simp
                rw [if_pos rfl] at hkeyword
                exact h.readSymbol hmode hboundary hopens hread hkeyword
          · rw [hcode]
            apply h.byte hmode hnil _ (hbrace rfl)
            by_cases hboundary : isKeywordBoundary s.before = true
            · have hnone := hkeyword hboundary
              rw [Scan.readKeyword] at hnone
              split at hnone
              · exact absurd hnone (by simp)
              · rename_i hnamespace
                rw [Bool.not_eq_true] at hnamespace
                split at hnone
                · exact absurd hnone (by simp)
                · rename_i hclass
                  rw [opensAt, htext, hnamespace, hclass]
                  simp
            · rw [Bool.not_eq_true] at hboundary
              rw [opensAt, htext, hboundary]
              rfl
      · exact h.skipText hmode hstep

/-- Where the full scan ends, the lean scan does. -/
theorem Follows.ends {gap : Bytes} (h : Follows s t blocks gap) (hend : s.step true = none) :
    t.step false = none := by
  cases gap with
  | cons b gap =>
      rw [Scan.step, if_neg (by simp [h.rest]), if_pos (h.code (by simp))] at hend
      exact absurd hend (by simp)
  | nil =>
      obtain ⟨hrest, _⟩ := h.here
      by_cases hnil : s.rest = []
      · rw [Scan.step, if_pos (hrest.symm.trans hnil)]
      · rw [Scan.step, if_neg hnil] at hend
        by_cases hmode : s.mode = .code
        · rw [if_pos hmode] at hend
          exact absurd hend (by simp)
        · rw [if_neg hmode, Option.map_eq_none_iff] at hend
          rw [Scan.step, if_neg (by rwa [← hrest]), if_neg (by rwa [h.mode]), h.mode, ← hrest, hend]
          rfl

theorem follows_start (content : Bytes) :
    Follows (startScan content) (startScan content) {} [] := by
  constructor
  · simp
  · simp
  · rfl
  · rfl
  · rfl
  · rfl
  · exact fun _ => rfl
  · rfl

/-- The lean scan without the blocks. -/
theorem steps_scan {x y : Scan × Blocks} (h : Steps leanStep x y) :
    Steps (Scan.step false) x.1 y.1 := by
  induction h with
  | refl => exact Steps.refl _
  | tail _ hlast ih =>
      have ⟨s, hs, heq⟩ := Option.map_eq_some_iff.mp hlast
      rw [← heq]
      exact ih.trans (Steps.one hs)

/-- The scan has ended after as many turns as there are bytes. -/
theorem scan_ends (symbols : Bool) (content : Bytes) :
    (lastOf (Scan.step symbols) content.length (startScan content)).step symbols = none := by
  have hless : ∀ s s' : Scan, (∀ id, s.mode = .heredoc id → id ≠ []) → s.step symbols = some s' →
      (∀ id, s'.mode = .heredoc id → id ≠ []) ∧ s'.rest.length < s.rest.length := by
    intro s s' hid hstep
    have ⟨hrest, honward⟩ := s.step_onward hid hstep
    have ⟨n, hn, hdrop⟩ := honward.rest
    refine ⟨honward.heredoc, ?_⟩
    have hpos := List.length_pos_of_ne_nil hrest
    rw [hdrop, List.length_drop]
    omega
  have hdone : ∀ s : Scan, s.rest.length = 0 → s.step symbols = none := by
    intro s hs
    rw [Scan.step, if_pos (List.length_eq_zero_iff.mp hs)]
  exact step_lastOf hless hdone (s := startScan content) (by simp [startScan]) (Nat.le_refl _)

/-- The two scans come to the same classes. -/
theorem scan_classes {content : Bytes} (hcovered : Covered content)
    (hread : ∀ s, Steps (Scan.step true) (startScan content) s → s.misreads = false) :
    (scan true content).classes = (scan false content).classes := by
  have hfull := scan_ends true content
  have hlean := scan_ends false content
  have hrun := steps_lastOf (Scan.step true) content.length (startScan content)
  have hrun' := steps_lastOf (Scan.step false) content.length (startScan content)
  have hsim : ∀ s s' x, s.misreads = false →
      (Steps leanStep (startScan content, {}) x ∧
        ((∃ gap, Follows s x.1 x.2 gap) ∨ Finished s x.1)) → s.step true = some s' →
      ∃ x', Steps leanStep x x' ∧ (Steps leanStep (startScan content, {}) x' ∧
        ((∃ gap, Follows s' x'.1 x'.2 gap) ∨ Finished s' x'.1)) := by
    rintro s s' x hs ⟨hreach, hrel⟩ hstep
    rcases hrel with ⟨gap, hfollows⟩ | hfinished
    · obtain ⟨t, blocks, hsteps, hend⟩ := hfollows.step hs (hcovered x hreach) hstep
      exact ⟨(t, blocks), hsteps, hreach.trans hsteps, hend⟩
    · rw [Scan.step, if_pos hfinished.rest] at hstep
      exact absurd hstep (by simp)
  have hstart : Steps leanStep (startScan content, {}) (startScan content, {}) ∧
      ((∃ gap, Follows (startScan content) (startScan content) {} gap) ∨
        Finished (startScan content) (startScan content)) :=
    ⟨Steps.refl _, .inl ⟨[], follows_start content⟩⟩
  obtain ⟨x, _, hreach, hrel⟩ := hrun.simulation hsim hread (t := (startScan content, {})) hstart
  have hend : x.1.step false = none ∧ x.1.result.classes = (scan true content).classes := by
    rcases hrel with ⟨gap, hfollows⟩ | hfinished
    · exact ⟨hfollows.ends hfull, hfollows.classes⟩
    · exact ⟨hfinished.ended, hfinished.classes⟩
  rw [← hend.2, (steps_scan hreach).end_unique hend.1 hrun' hlean]
  rfl

/-! ## Files without a class-like keyword -/

theorem find_of_isPrefix {needle rest : Bytes} (h : needle <+: rest) (hne : needle ≠ []) :
    (find needle rest).isSome = true := by
  cases rest with
  | nil => exact absurd (List.prefix_nil.mp h) hne
  | cons b rest =>
      rw [find, if_pos (List.isPrefixOf_iff_prefix.mpr h)]
      rfl

theorem find_of_drop {needle rest : Bytes} {n : Nat}
    (h : (find needle (rest.drop n)).isSome = true) : (find needle rest).isSome = true := by
  induction n generalizing rest with
  | zero => exact h
  | succ n ih =>
      cases rest with
      | nil => exact h
      | cons b rest =>
          rw [find]
          split
          · rfl
          · rw [Option.isSome_map]
            exact ih h

theorem classKeywordAt_none {content : Bytes} (h : hasClassKeyword content = false) (n : Nat) :
    classKeywordAt (content.drop n) = none := by
  cases hlen : classKeywordAt (content.drop n) with
  | none => rfl
  | some len =>
      have ⟨word, hmem, hword, _⟩ := classKeywordAt_some hlen
      have hne : word ≠ [] := by
        rintro rfl
        exact absurd hmem (by decide)
      have hfound := find_of_drop (find_of_isPrefix (isPrefix_of_wordAt hword) hne)
      have hhas : hasClassKeyword content = true := List.any_eq_true.mpr ⟨word, hmem, hfound⟩
      rw [h] at hhas
      exact absurd hhas (by simp)

/-- Without a class-like keyword the full scan finds no class. -/
theorem scan_classes_nil {content : Bytes} (h : hasClassKeyword content = false) :
    (scan true content).classes = [] := by
  have hrun := steps_lastOf (Scan.step true) content.length (startScan content)
  have hkept := hrun.invariant (I := fun s => (∃ n, s.rest = content.drop n) ∧
    (∀ id, s.mode = .heredoc id → id ≠ []) ∧ s.result.classes = []) ?_ ?_
  · exact hkept.2.2
  · intro s s' ⟨⟨n, hn⟩, hid, hclasses⟩ hstep
    have ⟨_, honward⟩ := s.step_onward hid hstep
    have ⟨m, _, hm⟩ := honward.rest
    refine ⟨⟨n + m, ?_⟩, honward.heredoc, ?_⟩
    · rw [hm, hn, List.drop_drop]
    · rw [honward.classes, hclasses]
      rw [hn]
      exact classKeywordAt_none h n
  · exact ⟨⟨0, rfl⟩, by simp [startScan], rfl⟩

/-- The full scan names the classes the lean scan names, in every run whose turns misread
nothing. -/
theorem findSymbols_classes {content : Bytes} (hcovered : Covered content)
    (hread : ∀ s, Steps (Scan.step true) (startScan content) s → s.misreads = false) :
    (findSymbols content).classes = findClasses content := by
  rw [findSymbols, findClasses]
  by_cases hclass : hasClassKeyword content = true
  · rw [hasAnyKeyword, hclass, Bool.true_or, if_pos rfl, if_pos rfl]
    exact scan_classes hcovered hread
  · rw [if_neg hclass]
    rw [Bool.not_eq_true] at hclass
    split
    · exact scan_classes_nil hclass
    · rfl

theorem findSymbols_classes_block :
    (findSymbols (bytes "<?php namespace A \x7b define('X', 1); function enum () \x7b\x7d class B \x7b\x7d \x7d")).classes =
      findClasses (bytes "<?php namespace A \x7b define('X', 1); function enum () \x7b\x7d class B \x7b\x7d \x7d") := by
  apply findSymbols_classes
  · intro x hsteps
    exact hsteps.forall_of_end (n := 70) (P := fun x => x.1.declaresClass = true → x.2.left = false)
      (by decide +kernel) (by decide +kernel)
  · intro s hsteps
    exact hsteps.forall_of_end (n := 70) (P := fun s => s.misreads = false) (by decide +kernel)
      (by decide +kernel)

/-- An escape in the name of a `define()` call leaves the full scan inside the quotes. -/
theorem define_escape_classes :
    Covered (bytes "<?php define('A\\\\B', 1); class C \x7b\x7d") ∧
      findClasses (bytes "<?php define('A\\\\B', 1); class C \x7b\x7d") = [bytes "C"] ∧
      (findSymbols (bytes "<?php define('A\\\\B', 1); class C \x7b\x7d")).classes = [] := by
  refine ⟨?_, by decide +kernel, by decide +kernel⟩
  intro x hsteps
  exact hsteps.forall_of_end (n := 40) (P := fun x => x.1.declaresClass = true → x.2.left = false)
    (by decide +kernel) (by decide +kernel)

end PhpantomLsp.Classmap
