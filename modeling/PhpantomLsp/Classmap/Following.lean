import PhpantomLsp.Classmap.Lexer

/-!
# The two scans agree

The full scan passes over names, imports and the quoted name of a `define()` call in one
turn, where the lean scan reads them byte by byte.  As long as the lean scan finds
nothing in what is passed over (`Scan.misreads`), the two come to the same classes, if
braced namespaces cover what is declared.
-/

namespace PhpantomLsp.Classmap

open Lib

/-! ## Blocks of namespaces -/

/-- The blocks of braced namespaces, over the code that the lean scan reads. -/
structure Blocks where
  depth : Nat := 0
  /-- The depth outside the block that is open. -/
  outside : Option Nat := none
  /-- A block is closed, and no namespace is declared since. -/
  left : Bool := false

namespace Blocks

/-- A byte of code is passed. -/
def pass (blocks : Blocks) (b : UInt8) : Blocks :=
  if b = openBrace then { blocks with depth := blocks.depth + 1 }
  else if b = closeBrace then
    if blocks.outside = some (blocks.depth - 1) then ⟨blocks.depth - 1, none, true⟩
    else { blocks with depth := blocks.depth - 1 }
  else blocks

/-- What the lean scan reads in one turn. -/
def read (blocks : Blocks) (s : Scan) : Blocks :=
  if s.mode = .code then
    if isKeywordBoundary s.before && namespaceAt s.rest then
      let after := s.rest.drop (9 + (readNamespace (s.rest.drop 9)).1)
      { blocks with
        outside := if after.head? = some openBrace then some blocks.depth else blocks.outside
        left := false }
    else
      match s.rest with
      | b :: _ => blocks.pass b
      | [] => blocks
  else blocks

end Blocks

/-- A turn of the lean scan. -/
def leanStep (x : Scan × Blocks) : Option (Scan × Blocks) :=
  (x.1.step false).map fun s => (s, x.2.read x.1)

def startScan (content : Bytes) : Scan := { before := [], rest := content }

/-- A class is declared at the cursor. -/
def Scan.declaresClass (s : Scan) : Bool :=
  s.mode == .code && isKeywordBoundary s.before &&
    (classKeywordAt s.rest).any fun len => (readName (s.rest.drop len)).2.isSome

/-- No class is declared behind the block of a namespace, unless a namespace is declared
in between. -/
def Covered (content : Bytes) : Prop :=
  ∀ x, Steps leanStep (startScan content, {}) x → x.1.declaresClass = true → x.2.left = false

/-! ## What the full scan passes over -/

/-- The lean scan reads more than a byte of code at the cursor. -/
def opensAt (before rest : Bytes) : Bool :=
  (textAt rest).isSome ||
    (isKeywordBoundary before && (namespaceAt rest || (classKeywordAt rest).isSome))

/-- The lean scan reads the next `n` bytes one by one. -/
def quietFor : (n : Nat) → (before rest : Bytes) → Bool
  | n + 1, before, b :: rest => !opensAt before (b :: rest) && quietFor n (b :: before) rest
  | _, _, _ => true

/-- The braces in a text are balanced, `depth` of them opened before. -/
def balanced : (depth : Nat) → Bytes → Bool
  | depth, [] => depth == 0
  | depth, b :: rest =>
      if b = openBrace then balanced (depth + 1) rest
      else if b = closeBrace then depth != 0 && balanced (depth - 1) rest
      else balanced depth rest

/-- A namespace, or a class-like keyword with a name behind it. -/
def declaresAt (rest : Bytes) : Bool :=
  namespaceAt rest ||
    (classKeywordAt rest).any fun len =>
      ((rest.drop len).dropWhile isBlank).head?.any isNameByte

namespace Scan

/-- In the rest of a `use function` or `use const` statement, behind a keyword of the length
`len`, is more than code with balanced braces, as far as it is passed over. -/
def importMisread (len : Nat) (s : Scan) : Bool :=
  let names := useStatementLen (s.rest.drop len)
  !quietFor names (s.advance len).before (s.advance len).rest ||
    (s.book.inBracedNamespace && !balanced 0 ((s.rest.drop len).take names))

/-- The name behind a keyword of the length `len` declares something itself. -/
def nameMisread (len : Nat) (s : Scan) : Bool := declaresAt ((s.rest.drop len).dropWhile isBlank)

/-- The quoted name of a `define()` call is left inside the quotes, at an escape. -/
def defineMisread (s : Scan) : Bool :=
  match (s.rest.drop 7).dropWhile isBlank with
  | quote :: name =>
      isQuote quote && !(scanDefineName quote name).2 &&
        decide ((scanDefineName quote name).1 < name.length)
  | [] => false

/-- The full scan passes over something here that the lean scan reads. -/
def misreads (s : Scan) : Bool :=
  s.mode == .code && isKeywordBoundary s.before &&
    if functionAt s.rest then
      if isPrecededByUse s.before then s.importMisread 8 else !s.book.inBody && s.nameMisread 8
    else if defineAt s.rest then s.defineMisread
    else if constAt s.rest then
      if isPrecededByUse s.before then s.importMisread 5
      else s.book.isTopLevel && s.nameMisread 5
    else false

end Scan

/-! ## Bytes that open nothing -/

/-- A byte that neither text nor a keyword starts with. -/
def isDull (b : UInt8) : Bool := isBlank b || b == byte '(' || b == openBrace || b == closeBrace

theorem textAt_of_isNameByte {b : UInt8} (h : isNameByte b = true) (rest : Bytes) :
    textAt (b :: rest) = none := by
  have hne : ∀ c, isNameByte c = false → b ≠ c := by
    rintro c hc rfl
    rw [h] at hc
    exact absurd hc (by simp)
  have hprefix : (bytes "<<<").isPrefixOf (b :: rest) = false := by
    simp [bytes, List.isPrefixOf, hne (byte '<') (by decide) |>.symm]
  simp [textAt, isQuote, hne (byte '/') (by decide), hne (byte '#') (by decide),
    hne (byte '\'') (by decide), hne (byte '"') (by decide), hprefix]

theorem isDull_cases {b : UInt8} (h : isDull b = true) :
    b = 32 ∨ b = 9 ∨ b = 10 ∨ b = 12 ∨ b = 13 ∨ b = 40 ∨ b = 123 ∨ b = 125 := by
  simpa [isDull, isBlank, byte, openBrace, closeBrace, or_assoc] using h

/-- Such a byte starts no text and no keyword. -/
theorem reads_of_isDull {b : UInt8} (h : isDull b = true) (rest : Bytes) :
    textAt (b :: rest) = none ∧ namespaceAt (b :: rest) = false ∧
      classKeywordAt (b :: rest) = none := by
  rcases isDull_cases h with rfl | rfl | rfl | rfl | rfl | rfl | rfl | rfl <;>
    exact ⟨rfl, rfl, rfl⟩

theorem opensAt_of_isDull {b : UInt8} (h : isDull b = true) (before rest : Bytes) :
    opensAt before (b :: rest) = false := by
  have ⟨htext, hnamespace, hclass⟩ := reads_of_isDull h rest
  rw [opensAt, htext, hnamespace, hclass]
  simp

/-- A name does not end, and no keyword starts, inside a word. -/
theorem opensAt_inside {p b : UInt8} (hp : isNameByte p = true) (hb : isNameByte b = true)
    (before rest : Bytes) : opensAt (p :: before) (b :: rest) = false := by
  have hboundary : isKeywordBoundary (p :: before) = false := by
    simp [isKeywordBoundary, isBoundaryChar, hp]
  rw [opensAt, textAt_of_isNameByte hb, hboundary]
  rfl

theorem quietFor_add (m n : Nat) (before rest : Bytes) :
    quietFor (m + n) before rest =
      (quietFor m before rest && quietFor n ((rest.take m).reverse ++ before) (rest.drop m)) := by
  induction m generalizing before rest with
  | zero => simp [quietFor]
  | succ m ih =>
      cases rest with
      | nil => cases n <;> simp [quietFor]
      | cons b rest =>
          rw [Nat.succ_add, quietFor, quietFor, ih]
          simp [Bool.and_assoc]

theorem quietFor_dull {n : Nat} {rest : Bytes} (h : ∀ b ∈ rest.take n, isDull b = true)
    (before : Bytes) : quietFor n before rest = true := by
  induction n generalizing before rest with
  | zero => cases rest <;> rfl
  | succ n ih =>
      cases rest with
      | nil => rfl
      | cons b rest =>
          rw [quietFor, opensAt_of_isDull (h b List.mem_cons_self)]
          exact ih (fun c hc => h c (List.mem_cons_of_mem b hc)) (b :: before)

theorem quietFor_inside {n : Nat} {p : UInt8} {rest : Bytes} (hp : isNameByte p = true)
    (h : ∀ b ∈ rest.take n, isNameByte b = true) (before : Bytes) :
    quietFor n (p :: before) rest = true := by
  induction n generalizing p before rest with
  | zero => cases rest <;> rfl
  | succ n ih =>
      cases rest with
      | nil => rfl
      | cons b rest =>
          have hb := h b List.mem_cons_self
          rw [quietFor, opensAt_inside hp hb]
          exact ih hb (fun c hc => h c (List.mem_cons_of_mem b hc)) (p :: before)

/-- A word whose first byte opens nothing is quiet. -/
theorem quietFor_word {n : Nat} {before rest : Bytes} (hopens : opensAt before rest = false)
    (h : ∀ b ∈ rest.take n, isNameByte b = true) : quietFor n before rest = true := by
  cases n with
  | zero => cases rest <;> rfl
  | succ n =>
      cases rest with
      | nil => rfl
      | cons b rest =>
          rw [quietFor, hopens]
          exact quietFor_inside (h b List.mem_cons_self)
            (fun c hc => h c (List.mem_cons_of_mem b hc)) before

/-! ## Turns of the lean scan -/

theorem Scan.advance_advance (m n : Nat) (s : Scan) :
    (s.advance m).advance n = s.advance (m + n) := by
  simp only [Scan.advance, List.drop_drop, List.take_add, List.reverse_append, List.append_assoc]

theorem Scan.advance_nil {s : Scan} (h : s.rest = []) (n : Nat) : s.advance n = s := by
  cases s
  simp only at h
  simp [Scan.advance, h]

/-- At a byte that opens nothing the lean scan moves on. -/
theorem step_of_quiet {s : Scan} (hmode : s.mode = .code) (hrest : s.rest ≠ [])
    (h : opensAt s.before s.rest = false) : s.step false = some (s.advance 1) := by
  simp only [opensAt, Bool.or_eq_false_iff, Bool.and_eq_false_iff, Option.isSome_eq_false_iff,
    Option.isNone_iff_eq_none] at h
  have ⟨htext, hkeyword⟩ := h
  rw [Scan.step, if_neg hrest, if_pos hmode, Scan.readCode, htext]
  rcases hkeyword with hboundary | ⟨hnamespace, hclass⟩
  · simp [hboundary]
  · simp [Scan.readKeyword, hnamespace, hclass]

theorem read_of_quiet {s : Scan} (hmode : s.mode = .code) {b : UInt8} {rest : Bytes}
    (hrest : s.rest = b :: rest) (h : opensAt s.before s.rest = false) (blocks : Blocks) :
    blocks.read s = blocks.pass b := by
  simp only [opensAt, Bool.or_eq_false_iff, Bool.and_eq_false_iff] at h
  have hnamespace : (isKeywordBoundary s.before && namespaceAt s.rest) = false := by
    rcases h.2 with hboundary | hkeyword
    · rw [hboundary]
      rfl
    · rw [hkeyword.1, Bool.and_false]
  rw [Blocks.read, if_pos hmode, hnamespace, hrest]
  rfl

/-- What is read byte by byte is passed. -/
theorem steps_of_quiet {n : Nat} {s : Scan} (hmode : s.mode = .code)
    (h : quietFor n s.before s.rest = true) (blocks : Blocks) :
    Steps leanStep (s, blocks) (s.advance n, (s.rest.take n).foldl Blocks.pass blocks) := by
  induction n generalizing s blocks with
  | zero => exact Steps.refl _
  | succ n ih =>
      cases hrest : s.rest with
      | nil =>
          rw [s.advance_nil hrest, List.take_nil]
          exact Steps.refl _
      | cons b rest =>
          rw [hrest, quietFor, Bool.and_eq_true, Bool.not_eq_true'] at h
          have hopens : opensAt s.before s.rest = false := by
            rw [hrest]
            exact h.1
          have hone : leanStep (s, blocks) = some (s.advance 1, blocks.pass b) := by
            rw [leanStep, step_of_quiet hmode (by simp [hrest]) hopens,
              read_of_quiet hmode hrest hopens]
            rfl
          have hquiet : quietFor n (s.advance 1).before (s.advance 1).rest = true := by
            simpa [Scan.advance, hrest] using h.2
          have hmore := @ih (s.advance 1) hmode hquiet (blocks.pass b)
          rw [Scan.advance_advance, Nat.add_comm] at hmore
          refine (Steps.one hone).trans ?_
          simpa [Scan.advance, hrest] using hmore

/-! ## Braces -/

/-- What the full scan keeps of the block that is open. -/
def InStep (book : Book) (blocks : Blocks) : Prop :=
  match blocks.outside with
  | none => book.inBracedNamespace = false
  | some outside =>
      book.inBracedNamespace = true ∧ outside < blocks.depth ∧
        blocks.depth + book.namespaceBraceDepth = book.braceDepth + outside

theorem pass_of_not_brace {b : UInt8} (hopen : b ≠ openBrace) (hclose : b ≠ closeBrace)
    (blocks : Blocks) : blocks.pass b = blocks := by
  rw [Blocks.pass, if_neg hopen, if_neg hclose]

theorem foldl_pass {piece : Bytes} (h : ∀ b ∈ piece, b ≠ openBrace ∧ b ≠ closeBrace)
    (blocks : Blocks) : piece.foldl Blocks.pass blocks = blocks := by
  induction piece with
  | nil => rfl
  | cons b piece ih =>
      have hb := h b List.mem_cons_self
      rw [List.foldl_cons, pass_of_not_brace hb.1 hb.2]
      exact ih fun c hc => h c (List.mem_cons_of_mem b hc)

/-- Outside every block no brace counts. -/
theorem foldl_pass_outside (piece : Bytes) {blocks : Blocks} (h : blocks.outside = none) :
    (piece.foldl Blocks.pass blocks).outside = none ∧
      (piece.foldl Blocks.pass blocks).left = blocks.left := by
  induction piece generalizing blocks with
  | nil => exact ⟨h, rfl⟩
  | cons b piece ih =>
      have hpass : (blocks.pass b).outside = none ∧ (blocks.pass b).left = blocks.left := by
        have hstays : blocks.outside ≠ some (blocks.depth - 1) := by
          rw [h]
          simp
        rw [Blocks.pass]
        split
        · exact ⟨h, rfl⟩
        · split <;> exact ⟨h, rfl⟩
      have ⟨houtside, hleft⟩ := ih hpass.1
      exact ⟨houtside, hleft.trans hpass.2⟩

/-- Balanced braces leave the block that is open as it is. -/
theorem foldl_pass_balanced {depth : Nat} {piece : Bytes} (h : balanced depth piece = true)
    {blocks : Blocks} {outside base : Nat} (houtside : blocks.outside = some outside)
    (hbase : outside < base) (hdepth : blocks.depth = base + depth) :
    piece.foldl Blocks.pass blocks = { blocks with depth := base } := by
  induction piece generalizing depth blocks with
  | nil =>
      rw [balanced, beq_iff_eq] at h
      rw [h, Nat.add_zero] at hdepth
      rw [List.foldl_nil, ← hdepth]
  | cons b piece ih =>
      rw [balanced] at h
      rw [List.foldl_cons]
      by_cases hopen : b = openBrace
      · rw [if_pos hopen] at h
        rw [Blocks.pass, if_pos hopen]
        apply @ih _ h { blocks with depth := blocks.depth + 1 } houtside
        show blocks.depth + 1 = _
        omega
      · by_cases hclose : b = closeBrace
        · rw [if_neg hopen, if_pos hclose, Bool.and_eq_true, bne_iff_ne] at h
          have hstays : blocks.outside ≠ some (blocks.depth - 1) := by
            rw [houtside, ne_eq, Option.some.injEq]
            omega
          rw [Blocks.pass, if_neg hopen, if_pos hclose, if_neg hstays]
          apply @ih _ h.2 { blocks with depth := blocks.depth - 1 } houtside
          show blocks.depth - 1 = _
          omega
        · rw [if_neg hopen, if_neg hclose] at h
          rw [pass_of_not_brace hopen hclose]
          exact ih h houtside hdepth

theorem InStep.expectBody {book : Book} {blocks : Blocks} (h : InStep book blocks) :
    InStep book.expectBody blocks := by
  rw [Book.expectBody]
  split <;> exact h

/-- An opening brace keeps the full scan in step. -/
theorem InStep.openBlock {book : Book} {blocks : Blocks} (h : InStep book blocks) :
    InStep book.openBlock (blocks.pass openBrace) := by
  have hbook : book.openBlock.inBracedNamespace = book.inBracedNamespace ∧
      book.openBlock.namespaceBraceDepth = book.namespaceBraceDepth ∧
      book.openBlock.braceDepth = book.braceDepth + 1 := by
    rw [Book.openBlock]
    split <;> exact ⟨rfl, rfl, rfl⟩
  rw [InStep] at h ⊢
  rw [Blocks.pass, if_pos rfl, hbook.1, hbook.2.1, hbook.2.2]
  cases houtside : blocks.outside with
  | none =>
      rw [houtside] at h
      exact h
  | some outside =>
      rw [houtside] at h
      have ⟨hin, hlt, heq⟩ := h
      refine ⟨hin, ?_, ?_⟩
      · show outside < blocks.depth + 1
        omega
      · show blocks.depth + 1 + book.namespaceBraceDepth = book.braceDepth + 1 + outside
        omega

/-- So does a closing one, and the block ends for both. -/
theorem InStep.closeBlock {book : Book} {blocks : Blocks} (h : InStep book blocks) :
    InStep book.closeBlock (blocks.pass closeBrace) ∧
      (blocks.pass closeBrace).left = (blocks.left || book.leavesNamespace) := by
  rw [InStep] at h
  rw [Blocks.pass, if_neg (by decide), if_pos rfl]
  cases houtside : blocks.outside with
  | none =>
      rw [houtside] at h
      have hstays : book.leavesNamespace = false := by simp [Book.leavesNamespace, h]
      rw [if_neg (by simp), hstays]
      exact ⟨by simp [InStep, Book.closeBlock, h], by simp⟩
  | some outside =>
      rw [houtside] at h
      by_cases hleaves : outside = blocks.depth - 1
      · have hleave : book.leavesNamespace = true := by
          simp only [Book.leavesNamespace, h.1, Bool.true_and, beq_iff_eq]
          omega
        rw [if_pos (by rw [hleaves]), hleave]
        exact ⟨by simp [InStep, Book.closeBlock, hleave], by simp⟩
      · have hstays : book.leavesNamespace = false := by
          simp only [Book.leavesNamespace, h.1, Bool.true_and, beq_eq_false_iff_ne]
          omega
        rw [if_neg (by simpa using hleaves), hstays]
        refine ⟨?_, by simp⟩
        simp only [InStep, Book.closeBlock, hstays, h.1]
        refine ⟨rfl, ?_, ?_⟩ <;> omega

/-! ## The lean scan follows -/

/-- The lean scan is where the full scan is, or ahead of it by blanks. -/
structure Follows (s t : Scan) (blocks : Blocks) (gap : Bytes) : Prop where
  blank : ∀ b ∈ gap, isBlank b = true
  code : gap ≠ [] → s.mode = .code
  mode : t.mode = s.mode
  rest : s.rest = gap ++ t.rest
  before : t.before = gap.reverse ++ s.before
  classes : t.result.classes = s.result.classes
  /-- Behind the block of a namespace the lean scan still has its name. -/
  names : blocks.left = false → t.namespaceName = s.namespaceName
  inStep : InStep s.book blocks

/-- The full scan is through, and so is the lean one. -/
structure Finished (s t : Scan) : Prop where
  rest : s.rest = []
  ended : t.step false = none
  classes : t.result.classes = s.result.classes

/-- The lean scan comes to where the full scan is. -/
def Reaches (t : Scan) (blocks : Blocks) (s : Scan) : Prop :=
  ∃ t' blocks', Steps leanStep (t, blocks) (t', blocks') ∧
    ((∃ gap, Follows s t' blocks' gap) ∨ Finished s t')

/-- The full scan moves on in code, with the classes it has. -/
structure Moves (s : Scan) (n : Nat) (s' : Scan) : Prop where
  rest : s'.rest = s.rest.drop n
  before : s'.before = (s.rest.take n).reverse ++ s.before
  mode : s'.mode = .code
  classes : s'.result.classes = s.result.classes
  names : s'.namespaceName = s.namespaceName

variable {s s' t : Scan} {blocks : Blocks}

theorem Follows.here (h : Follows s t blocks []) : s.rest = t.rest ∧ t.before = s.before :=
  ⟨h.rest, h.before⟩

/-- What the lean scan reads byte by byte the full scan may pass over. -/
theorem Follows.quiet (h : Follows s t blocks []) (hmode : s.mode = .code) {n : Nat}
    (hquiet : quietFor n s.before s.rest = true) (hmoves : Moves s n s')
    (hstep : InStep s'.book ((s.rest.take n).foldl Blocks.pass blocks))
    (hleft : ((s.rest.take n).foldl Blocks.pass blocks).left = blocks.left) :
    Reaches t blocks s' := by
  have ⟨hrest, hbefore⟩ := h.here
  rw [hrest, ← hbefore] at hquiet
  have hsteps := steps_of_quiet (h.mode.trans hmode) hquiet blocks
  refine ⟨_, _, hsteps, .inl ⟨[], ?_⟩⟩
  rw [← hrest]
  constructor
  · simp
  · simp
  · show t.mode = s'.mode
    rw [hmoves.mode, h.mode, hmode]
  · show s'.rest = t.rest.drop n
    rw [hmoves.rest, hrest]
  · show (t.rest.take n).reverse ++ t.before = s'.before
    rw [hmoves.before, hrest, hbefore]
  · show t.result.classes = s'.result.classes
    rw [hmoves.classes, h.classes]
  · intro hname
    rw [hleft] at hname
    show t.namespaceName = s'.namespaceName
    rw [hmoves.names, h.names hname]
  · exact hstep

theorem not_brace_of_isNameByte {b : UInt8} (h : isNameByte b = true) :
    b ≠ openBrace ∧ b ≠ closeBrace := by
  constructor <;> rintro rfl <;> exact absurd h (by decide)

theorem not_brace_of_isBlank {b : UInt8} (h : isBlank b = true) :
    b ≠ openBrace ∧ b ≠ closeBrace := by
  constructor <;> rintro rfl <;> exact absurd h (by decide)

/-- The same where no brace is passed. -/
theorem Follows.plain (h : Follows s t blocks []) (hmode : s.mode = .code) {n : Nat}
    (hquiet : quietFor n s.before s.rest = true) (hmoves : Moves s n s')
    (hbrace : ∀ b ∈ s.rest.take n, b ≠ openBrace ∧ b ≠ closeBrace)
    (hstep : InStep s'.book blocks) : Reaches t blocks s' := by
  have hpass := foldl_pass hbrace blocks
  apply h.quiet hmode hquiet hmoves <;> rw [hpass]
  exact hstep

/-- A blank that the lean scan has read before. -/
theorem Follows.blank_step {b : UInt8} {gap : Bytes} (h : Follows s t blocks (b :: gap))
    (hstep : s.step true = some s') : Reaches t blocks s' := by
  have hmode := h.code (by simp)
  have hb := h.blank b List.mem_cons_self
  have hdull : isDull b = true := by
    rw [isDull, hb]
    rfl
  have hrest : s.rest = b :: (gap ++ t.rest) := h.rest
  have hmove : s' = s.advance 1 := by
    have ⟨htext, hnamespace, hclass⟩ := reads_of_isDull hdull (gap ++ t.rest)
    have hsymbol : s.readSymbol = none := by
      rw [Scan.readSymbol, hrest]
      have hcases : b = 32 ∨ b = 9 ∨ b = 10 ∨ b = 12 ∨ b = 13 := by
        simpa [isBlank, byte, or_assoc] using hb
      rcases hcases with rfl | rfl | rfl | rfl | rfl <;> rfl
    have hbrace : s.readBrace = none := by
      have hne := not_brace_of_isBlank hb
      simp [Scan.readBrace, hrest, hne.1, hne.2]
    rw [Scan.step, if_neg (by simp [hrest]), if_pos hmode, Option.some.injEq] at hstep
    have hkeyword : s.readKeyword true = none := by
      simp only [Scan.readKeyword, hrest, hnamespace, hclass, hsymbol, Bool.false_eq_true, if_false,
        if_true]
    rw [← hstep, Scan.readCode, hbrace, hrest, htext, hkeyword]
    simp
  rw [hmove]
  refine ⟨t, blocks, Steps.refl _, .inl ⟨gap, ?_⟩⟩
  constructor
  · exact fun c hc => h.blank c (List.mem_cons_of_mem b hc)
  · exact fun _ => hmode
  · exact h.mode
  · show s.rest.drop 1 = _
    rw [hrest]
    rfl
  · show _ = gap.reverse ++ ((s.rest.take 1).reverse ++ s.before)
    rw [h.before, hrest]
    simp
  · exact h.classes
  · exact h.names
  · exact h.inStep

/-! ## Comments and quoted text -/

/-- Text starts with a byte that is no brace, and with no keyword. -/
theorem textAt_some {b : UInt8} {rest : Bytes} (h : (textAt (b :: rest)).isSome = true) :
    b = byte '/' ∨ b = byte '#' ∨ b = byte '\'' ∨ b = byte '"' ∨ b = byte '<' := by
  by_contra hne
  simp only [not_or] at hne
  have hprefix : (bytes "<<<").isPrefixOf (b :: rest) = false := by
    simp [bytes, List.isPrefixOf, Ne.symm hne.2.2.2.2]
  have hnone : textAt (b :: rest) = none := by
    simp [textAt, isQuote, hne.1, hne.2.1, hne.2.2.1, hne.2.2.2.1, hprefix]
  rw [hnone] at h
  exact absurd h (by simp)

theorem read_of_text {b : UInt8} {rest : Bytes} (hrest : t.rest = b :: rest)
    (h : (textAt (b :: rest)).isSome = true) (blocks : Blocks) : blocks.read t = blocks := by
  have hnamespace : namespaceAt t.rest = false := by
    rw [hrest]
    rcases textAt_some h with rfl | rfl | rfl | rfl | rfl <;> rfl
  have hpass : blocks.pass b = blocks := by
    rcases textAt_some h with rfl | rfl | rfl | rfl | rfl <;> rfl
  rw [Blocks.read, hnamespace, Bool.and_false, hrest]
  by_cases hmode : t.mode = .code
  · rw [if_pos hmode, if_neg (by simp)]
    exact hpass
  · rw [if_neg hmode]

/-- Both scans enter or leave text the same way. -/
theorem Follows.enter (h : Follows s t blocks []) {target : Nat × Mode}
    (hstep : t.step false = some (t.enter target)) (hread : blocks.read t = blocks) :
    Reaches t blocks (s.enter target) := by
  have ⟨hrest, hbefore⟩ := h.here
  have hone : leanStep (t, blocks) = some (t.enter target, blocks) := by
    rw [leanStep, hstep, hread]
    rfl
  refine ⟨_, _, Steps.one hone, .inl ⟨[], ?_⟩⟩
  constructor
  · simp
  · simp
  · rfl
  · show s.rest.drop target.1 = t.rest.drop target.1
    rw [hrest]
  · show (t.rest.take target.1).reverse ++ t.before = (s.rest.take target.1).reverse ++ s.before
    rw [hrest, hbefore]
  · exact h.classes
  · exact h.names
  · exact h.inStep

/-- Inside of text. -/
theorem Follows.skipText (h : Follows s t blocks []) (hmode : s.mode ≠ .code)
    (hstep : s.step true = some s') : Reaches t blocks s' := by
  have ⟨hrest, hbefore⟩ := h.here
  have hmode' : t.mode ≠ .code := by rwa [h.mode]
  by_cases hnil : s.rest = []
  · rw [Scan.step, if_pos hnil] at hstep
    exact absurd hstep (by simp)
  · rw [Scan.step, if_neg hnil, if_neg hmode] at hstep
    have ⟨target, htarget, hs'⟩ := Option.map_eq_some_iff.mp hstep
    rw [← hs']
    apply h.enter
    · rw [Scan.step, if_neg (by rwa [← hrest]), if_neg hmode', h.mode, ← hrest, htarget]
      rfl
    · rw [Blocks.read, if_neg hmode']

/-! ## Declarations -/

section

variable (name : Option Bytes)

@[simp] theorem Scan.addClass_rest : (s.addClass name).rest = s.rest := by cases name <;> rfl

@[simp] theorem Scan.addClass_before : (s.addClass name).before = s.before := by
  cases name <;> rfl

@[simp] theorem Scan.addClass_mode : (s.addClass name).mode = s.mode := by cases name <;> rfl

@[simp] theorem Scan.addClass_namespaceName : (s.addClass name).namespaceName = s.namespaceName := by
  cases name <;> rfl

@[simp] theorem Scan.addClass_book : (s.addClass name).book = s.book := by cases name <;> rfl

end

theorem isPrefix_of_wordAt {word rest : Bytes} {next : UInt8 → Bool} (h : wordAt word next rest = true) :
    word <+: rest := by
  rw [wordAt, Bool.and_eq_true] at h
  exact List.isPrefixOf_iff_prefix.mp h.1

theorem classKeywordAt_some {rest : Bytes} {len : Nat} (h : classKeywordAt rest = some len) :
    ∃ word ∈ [bytes "class", bytes "interface", bytes "trait", bytes "enum"],
      wordAt word isBlank rest = true ∧ len = word.length := by
  have ⟨word, hfind, hlen⟩ := Option.map_eq_some_iff.mp h
  have hword := List.find?_some hfind
  exact ⟨word, List.mem_of_find?_eq_some hfind, hword, hlen.symm⟩

/-- The bytes of a keyword are bytes of names. -/
theorem isNameByte_of_keyword {word : Bytes}
    (h : word ∈ [bytes "class", bytes "interface", bytes "trait", bytes "enum"]) :
    ∀ b ∈ word, isNameByte b = true := by
  simp only [List.mem_cons, List.not_mem_nil, or_false] at h
  rcases h with rfl | rfl | rfl | rfl <;> decide +kernel

theorem read_of_class (hmode : t.mode = .code) (hnamespace : namespaceAt t.rest = false) {len : Nat}
    (hlen : classKeywordAt t.rest = some len) (blocks : Blocks) : blocks.read t = blocks := by
  have ⟨word, hmem, hword, _⟩ := classKeywordAt_some hlen
  have ⟨more, hmore⟩ := isPrefix_of_wordAt hword
  rw [Blocks.read, if_pos hmode, hnamespace, Bool.and_false, if_neg (by simp)]
  cases hrest : t.rest with
  | nil => rfl
  | cons b rest =>
      have hb : isNameByte b = true := by
        cases word with
        | nil => exact absurd hmem (by decide)
        | cons c word =>
            rw [hrest, List.cons_append] at hmore
            rw [← (List.cons.inj hmore).1]
            exact isNameByte_of_keyword hmem c List.mem_cons_self
      have hne := not_brace_of_isNameByte hb
      exact pass_of_not_brace hne.1 hne.2 blocks

/-- The lean scan at a class-like keyword. -/
theorem leanStep_class (hmode : t.mode = .code) (hboundary : isKeywordBoundary t.before = true)
    (htext : textAt t.rest = none) (hnamespace : namespaceAt t.rest = false) {len : Nat}
    (hlen : classKeywordAt t.rest = some len) (blocks : Blocks) :
    leanStep (t, blocks) = some (t.readsClass false len, blocks) := by
  have hnil : t.rest ≠ [] := by
    intro hnil
    rw [hnil] at hlen
    exact absurd (show classKeywordAt [] = none by decide) (by simp [hlen])
  have hcode : t.readCode false = t.readsClass false len := by
    rw [Scan.readCode, htext, if_pos hboundary, Scan.readKeyword, hnamespace, hlen]
    rfl
  rw [leanStep, Scan.step, if_neg hnil, if_pos hmode, hcode,
    read_of_class hmode hnamespace hlen blocks]
  rfl

/-- What both scans read of a class-like declaration. -/
theorem Follows.readsClass (h : Follows s t blocks []) (hmode : s.mode = .code)
    (hboundary : isKeywordBoundary s.before = true) (htext : textAt s.rest = none)
    (hnamespace : namespaceAt s.rest = false) {len : Nat} (hlen : classKeywordAt s.rest = some len)
    (hcovered : t.declaresClass = true → blocks.left = false) :
    Reaches t blocks (s.readsClass true len) := by
  have ⟨hrest, hbefore⟩ := h.here
  have hmode' : t.mode = .code := h.mode.trans hmode
  have hboundary' : isKeywordBoundary t.before = true := by rwa [hbefore]
  have hlen' : classKeywordAt t.rest = some len := by rwa [← hrest]
  have hone := leanStep_class hmode' hboundary' (by rwa [← hrest]) (by rwa [← hrest]) hlen' blocks
  refine ⟨_, _, Steps.one hone, .inl ⟨[], ?_⟩⟩
  constructor
  · simp
  · simp
  · simp [Scan.readsClass, Scan.advance, h.mode]
  · simp [Scan.readsClass, Scan.advance, hrest]
  · simp [Scan.readsClass, Scan.advance, hrest, hbefore]
  · cases hname : (readName (t.rest.drop len)).2 with
    | none => simp [Scan.readsClass, Scan.advance, Scan.addClass, hrest, hname, h.classes]
    | some name =>
        have hdeclares : t.declaresClass = true := by
          rw [Scan.declaresClass, hmode', hboundary', hlen', Option.any_some, hname]
          rfl
        have hnames := h.names (hcovered hdeclares)
        simp [Scan.readsClass, Scan.advance, Scan.addClass, hrest, hname, h.classes, hnames]
  · intro hleft
    simp [Scan.readsClass, Scan.advance, h.names hleft]
  · have hbook : (s.readsClass true len).book = s.book.expectBody := by
      simp [Scan.readsClass, Scan.advance]
    rw [hbook]
    exact h.inStep.expectBody

theorem Scan.readsNamespace_brace (s : Scan)
    (h : (s.rest.drop (9 + (readNamespace (s.rest.drop 9)).1)).head? = some openBrace) :
    s.readsNamespace true =
      { (s.advance (9 + (readNamespace (s.rest.drop 9)).1)).advance 1 with
        namespaceName := (readNamespace (s.rest.drop 9)).2
        book := s.book.openNamespace } := by
  unfold Scan.readsNamespace
  cases hname : readNamespace (s.rest.drop 9) with
  | mk len name =>
      rw [hname] at h
      show (if (true && (s.rest.drop (9 + len)).head? == some openBrace) = true then _ else _) = _
      rw [h]
      rfl

theorem Scan.readsNamespace_no_brace (s : Scan)
    (h : (s.rest.drop (9 + (readNamespace (s.rest.drop 9)).1)).head? ≠ some openBrace) :
    s.readsNamespace true =
      { s.advance (9 + (readNamespace (s.rest.drop 9)).1) with
        namespaceName := (readNamespace (s.rest.drop 9)).2 } := by
  unfold Scan.readsNamespace
  cases hname : readNamespace (s.rest.drop 9) with
  | mk len name =>
      rw [hname] at h
      show (if (true && (s.rest.drop (9 + len)).head? == some openBrace) = true then _ else _) = _
      rw [if_neg]
      rw [Bool.true_and, beq_iff_eq]
      exact h

/-- What both scans read of a `namespace` declaration. -/
theorem Follows.readsNamespace (h : Follows s t blocks []) (hmode : s.mode = .code)
    (hboundary : isKeywordBoundary s.before = true) (htext : textAt s.rest = none)
    (hnamespace : namespaceAt s.rest = true) : Reaches t blocks (s.readsNamespace true) := by
  have ⟨hrest, hbefore⟩ := h.here
  have hmode' : t.mode = .code := h.mode.trans hmode
  have hnil : t.rest ≠ [] := by
    intro hnil
    rw [hrest, hnil] at hnamespace
    exact absurd hnamespace (by decide)
  have hcode : t.readCode false = t.readsNamespace false := by
    rw [Scan.readCode, ← hrest, htext, hbefore, if_pos hboundary, Scan.readKeyword, ← hrest,
      hnamespace]
    rfl
  have hone : leanStep (t, blocks) = some (t.readsNamespace false, blocks.read t) := by
    rw [leanStep, Scan.step, if_neg hnil, if_pos hmode', hcode]
    rfl
  have hread : blocks.read t = { blocks with
      outside := if (s.rest.drop (9 + (readNamespace (s.rest.drop 9)).1)).head? = some openBrace
        then some blocks.depth else blocks.outside
      left := false } := by
    rw [Blocks.read, if_pos hmode', hbefore, hboundary, ← hrest, hnamespace]
    rfl
  by_cases hbrace : (s.rest.drop (9 + (readNamespace (s.rest.drop 9)).1)).head? = some openBrace
  · rw [if_pos hbrace] at hread
    rw [hread] at hone
    have ⟨more, hmore⟩ : ∃ more, s.rest.drop (9 + (readNamespace (s.rest.drop 9)).1) =
        openBrace :: more := by
      cases hdrop : s.rest.drop (9 + (readNamespace (s.rest.drop 9)).1) with
      | nil =>
          rw [hdrop] at hbrace
          exact absurd hbrace (by simp)
      | cons b more =>
          rw [hdrop, List.head?_cons, Option.some.injEq] at hbrace
          exact ⟨more, by rw [hbrace]⟩
    have hopen : (t.readsNamespace false).rest = openBrace :: more := by
      rw [← hmore, hrest]
      rfl
    have hquiet : quietFor 1 (t.readsNamespace false).before (t.readsNamespace false).rest = true := by
      apply quietFor_dull
      rw [hopen]
      simp [isDull]
    have htwo := @steps_of_quiet 1 (t.readsNamespace false) hmode' hquiet
      { blocks with outside := some blocks.depth, left := false }
    refine ⟨_, _, (Steps.one hone).trans htwo, .inl ⟨[], ?_⟩⟩
    rw [hopen, s.readsNamespace_brace hbrace]
    constructor
    · simp
    · simp
    · exact h.mode
    · show (s.rest.drop (9 + (readNamespace (s.rest.drop 9)).1)).drop 1 =
        (t.rest.drop (9 + (readNamespace (t.rest.drop 9)).1)).drop 1
      rw [hrest]
    · show _ = ((s.rest.drop _).take 1).reverse ++ ((s.rest.take _).reverse ++ s.before)
      rw [hrest, ← hbefore]
      rfl
    · exact h.classes
    · intro _
      show (readNamespace (t.rest.drop 9)).2 = (readNamespace (s.rest.drop 9)).2
      rw [hrest]
    · show InStep s.book.openNamespace _
      simp only [List.take_succ_cons, List.take_zero, List.foldl_cons, List.foldl_nil, Blocks.pass,
        if_pos, InStep, Book.openNamespace]
      refine ⟨trivial, ?_, ?_⟩ <;> omega
  · rw [if_neg hbrace] at hread
    rw [hread] at hone
    refine ⟨_, _, Steps.one hone, .inl ⟨[], ?_⟩⟩
    rw [s.readsNamespace_no_brace hbrace]
    constructor
    · simp
    · simp
    · exact h.mode
    · simp [Scan.readsNamespace, Scan.advance, hrest]
    · simp [Scan.readsNamespace, Scan.advance, hrest, hbefore]
    · exact h.classes
    · intro _
      simp [Scan.readsNamespace, hrest]
    · exact h.inStep

end PhpantomLsp.Classmap
