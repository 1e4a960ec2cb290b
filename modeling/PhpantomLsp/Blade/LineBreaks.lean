import PhpantomLsp.Blade.Lowerings

/-!
# Line breaks in synthesized text

A component tag and an `@inject` are the only constructs whose PHP can break the
line: a tag names a class of the resolver and writes attribute values that may
run over lines, and an `@inject` writes the service it names as it stands.
`Leak` says when, in terms of what the scan has read.
-/

namespace PhpantomLsp.Blade

namespace OpenComponentCall

/-! ## Filling a call -/

theorem mem_pending_foldl {literals : List (List Char × List Char)} {call : OpenComponentCall}
    {param : ComponentParameter} :
    param ∈ (literals.foldl fillLiteral call).pending ↔
      param ∈ call.pending ∧ ∀ literal ∈ literals, literal.1 ≠ param.name := by
  induction literals generalizing call with
  | nil => simp
  | cons literal literals ih =>
      rw [List.foldl_cons, ih, fillLiteral]
      by_cases hany : call.pending.any (·.name = literal.1) = true
      · rw [if_pos hany]
        simp only [List.mem_filter, List.forall_mem_cons, decide_eq_true_eq, and_assoc]
        constructor
        · intro ⟨hmem, hne, hrest⟩
          exact ⟨hmem, fun heq => hne heq.symm, hrest⟩
        · intro ⟨hmem, hne, hrest⟩
          exact ⟨hmem, fun heq => hne heq.symm, hrest⟩
      · rw [if_neg hany]
        constructor
        · intro ⟨hmem, hrest⟩
          refine ⟨hmem, List.forall_mem_cons.mpr ⟨?_, hrest⟩⟩
          intro heq
          apply hany
          rw [List.any_eq_true]
          exact ⟨param, hmem, decide_eq_true heq.symm⟩
        · intro ⟨hmem, hrest⟩
          exact ⟨hmem, (List.forall_mem_cons.mp hrest).2⟩

/-- A literal fills the parameter it names when it is the first to name it. -/
def Fills (call : OpenComponentCall) (literals : List (List Char × List Char))
    (literal : List Char × List Char) : Prop :=
  (∃ param ∈ call.pending, param.name = literal.1) ∧
    literals.find? (·.1 = literal.1) = some literal

theorem mem_arguments_foldl {literals : List (List Char × List Char)} {call : OpenComponentCall}
    {argument : List Char} :
    argument ∈ (literals.foldl fillLiteral call).arguments ↔
      argument ∈ call.arguments ∨
        ∃ literal, call.Fills literals literal ∧
          argument = literal.1 ++ ": ".toList ++ literal.2 := by
  induction literals generalizing call with
  | nil => simp [Fills]
  | cons first literals ih =>
      rw [List.foldl_cons, ih, fillLiteral]
      by_cases hany : call.pending.any (·.name = first.1) = true
      · have hparam : ∃ param ∈ call.pending, param.name = first.1 := by
          simpa using hany
        rw [if_pos hany]
        simp only [List.mem_append, List.mem_singleton, or_assoc]
        apply or_congr Iff.rfl
        constructor
        · rintro (heq | ⟨literal, ⟨⟨param, hmem, hname⟩, hfind⟩, heq⟩)
          · exact ⟨first, ⟨hparam, by simp⟩, heq⟩
          · have hother := List.mem_filter.mp hmem
            have hne : first.1 ≠ literal.1 := by
              intro h
              exact of_decide_eq_true hother.2 (hname.trans h.symm)
            exact ⟨literal, ⟨⟨param, hother.1, hname⟩, by simpa [hne] using hfind⟩, heq⟩
        · rintro ⟨literal, ⟨⟨param, hmem, hname⟩, hfind⟩, heq⟩
          by_cases hsame : first.1 = literal.1
          · rw [List.find?_cons_of_pos (by simpa using hsame)] at hfind
            cases hfind
            exact Or.inl heq
          · rw [List.find?_cons_of_neg (by simpa using hsame)] at hfind
            refine Or.inr ⟨literal, ⟨⟨param, List.mem_filter.mpr ⟨hmem, ?_⟩, hname⟩, hfind⟩, heq⟩
            exact decide_eq_true fun h => hsame (h.symm.trans hname)
      · rw [if_neg hany]
        apply or_congr Iff.rfl
        apply exists_congr
        intro literal
        apply and_congr_left'
        rw [Fills, Fills]
        apply and_congr_right
        intro hparam
        have hne : first.1 ≠ literal.1 := by
          intro h
          apply hany
          simpa [h] using hparam
        rw [List.find?_cons_of_neg (by simpa using hne)]

/-- A part of the call that is written out breaks the line. -/
inductive Broken (call : OpenComponentCall) : Prop
  | fqn (h : ¬OneLine call.fqn)
  | bound {argument : List Char} (hmem : argument ∈ call.arguments) (h : ¬OneLine argument)
  | literal {literal : List Char × List Char} (hfills : call.Fills call.literals literal)
      (h : ¬OneLine literal.1 ∨ ¬OneLine literal.2)
  | fallback {param : ComponentParameter} {fallback : List Char} (hmem : param ∈ call.pending)
      (hunfilled : ∀ literal ∈ call.literals, literal.1 ≠ param.name)
      (hfallback : param.fallback = some fallback)
      (h : ¬OneLine param.name ∨ ¬OneLine fallback)

end OpenComponentCall

theorem oneLine_intercalate {separator : List Char} (hseparator : OneLine separator)
    (parts : List (List Char)) :
    OneLine (List.intercalate separator parts) ↔ ∀ part ∈ parts, OneLine part := by
  induction parts with
  | nil => simp [OneLine]
  | cons part parts ih =>
      rw [List.forall_mem_cons, ← ih]
      cases parts with
      | nil => simp [OneLine]
      | cons next parts =>
          rw [List.intercalate_cons_cons, oneLine_append, oneLine_append]
          constructor
          · rintro ⟨⟨hpart, -⟩, hrest⟩
            exact ⟨hpart, hrest⟩
          · rintro ⟨hpart, hrest⟩
            exact ⟨⟨hpart, hseparator⟩, hrest⟩

theorem oneLine_argument {name value : List Char} :
    OneLine (name ++ ": ".toList ++ value) ↔ OneLine name ∧ OneLine value := by
  rw [oneLine_append, oneLine_append]
  constructor
  · rintro ⟨⟨hname, -⟩, hvalue⟩
    exact ⟨hname, hvalue⟩
  · intro ⟨hname, hvalue⟩
    exact ⟨⟨hname, by decide⟩, hvalue⟩

namespace OpenComponentCall

/-- What the call passes. -/
def passed (call : OpenComponentCall) : List (List Char) :=
  let filled := call.literals.foldl fillLiteral { call with literals := [] }
  filled.arguments ++ filled.pending.filterMap fun param =>
    param.fallback.map fun fallback => param.name ++ ": ".toList ++ fallback

theorem oneLine_close_iff (call : OpenComponentCall) :
    OneLine call.close ↔ OneLine call.fqn ∧ ∀ argument ∈ call.passed, OneLine argument := by
  have hstart : OneLine (" ".toList ++ componentVar ++ " = new \\".toList) := by decide
  have hcreated : OneLine ("(); ".toList ++ componentVar ++ "->mount(".toList) := by decide
  have hopen : OneLine "(".toList := by decide
  have hend : OneLine "); ".toList := by decide
  rw [← oneLine_intercalate (show OneLine ", ".toList by decide)]
  simp only [oneLine_append] at hstart hcreated
  rw [close]
  by_cases hmount : call.mount = true
  · rw [if_pos hmount]
    simp only [oneLine_append, hstart, hcreated, hend, true_and, and_true]
    rfl
  · rw [if_neg hmount]
    simp only [oneLine_append, hstart, hopen, hend, true_and, and_true]
    rfl

/-- The call a tag closes with breaks the line when one of its parts does. -/
theorem not_oneLine_close (call : OpenComponentCall) : ¬OneLine call.close ↔ call.Broken := by
  rw [oneLine_close_iff, not_and_or]
  constructor
  · rintro (hfqn | hpassed)
    · exact .fqn hfqn
    · push Not at hpassed
      obtain ⟨argument, hmem, hbroken⟩ := hpassed
      rcases List.mem_append.mp hmem with hmem | hmem
      · rcases mem_arguments_foldl.mp hmem with hmem | ⟨literal, hfills, rfl⟩
        · exact .bound hmem hbroken
        · rw [oneLine_argument, not_and_or] at hbroken
          exact .literal hfills hbroken
      · obtain ⟨param, hpending, hfallback⟩ := List.mem_filterMap.mp hmem
        obtain ⟨fallback, hsome, rfl⟩ := Option.map_eq_some_iff.mp hfallback
        have hunfilled := mem_pending_foldl.mp hpending
        rw [oneLine_argument, not_and_or] at hbroken
        exact .fallback hunfilled.1 hunfilled.2 hsome hbroken
  · intro hbroken
    by_contra hno
    push Not at hno
    have hpassed := hno.2
    cases hbroken with
    | fqn h => exact h hno.1
    | bound hmem h =>
        apply h
        apply hpassed
        exact List.mem_append_left _ (mem_arguments_foldl.mpr (Or.inl hmem))
    | literal hfills h =>
        apply not_and_or.mpr h
        rw [← oneLine_argument]
        apply hpassed
        exact List.mem_append_left _ (mem_arguments_foldl.mpr (Or.inr ⟨_, hfills, rfl⟩))
    | fallback hmem hunfilled hfallback h =>
        apply not_and_or.mpr h
        rw [← oneLine_argument]
        apply hpassed
        apply List.mem_append_right
        rw [List.mem_filterMap]
        exact ⟨_, mem_pending_foldl.mpr ⟨hmem, hunfilled⟩, by rw [hfallback]; rfl⟩

end OpenComponentCall

/-! ## Tags -/

variable {env : LineEnv} {scan scan' : Scan} {rem : List Char} {l : Lowering}

theorem oneLine_comment {tag : ComponentTag} (hname : ∀ ch ∈ tag.name, isTagNameChar ch = true) :
    OneLine tag.comment := by
  have hline : OneLine tag.name := by
    intro hmem
    have hch := hname '\n' hmem
    simp [isTagNameChar, isAsciiAlphanumeric, isAsciiAlphabetic] at hch
  have hprefix : OneLine tag.kind.tagPrefix := by
    cases tag.kind <;> decide
  have hstart : OneLine " /* ".toList := by decide
  have hend : OneLine " */ ".toList := by decide
  have hslash : OneLine (if tag.closing = true then "/".toList else []) := by
    split <;> decide
  rw [ComponentTag.comment]
  simp only [oneLine_append]
  exact ⟨⟨⟨⟨hstart, hslash⟩, hprefix⟩, hline⟩, hend⟩

theorem oneLine_between {before text after : List Char} (hbefore : OneLine before)
    (hafter : OneLine after) : OneLine (before ++ text ++ after) ↔ OneLine text := by
  rw [oneLine_append, oneLine_append]
  constructor
  · intro h
    exact h.1.2
  · intro htext
    exact ⟨⟨hbefore, htext⟩, hafter⟩

theorem oneLine_declaration_iff {fqn : List Char} :
    OneLine (ComponentTag.declaration fqn) ↔ OneLine fqn := by
  unfold ComponentTag.declaration
  rw [List.append_assoc, List.append_assoc, List.append_assoc, List.append_assoc]
  exact oneLine_between (by decide) (by decide)

/-- The tag at the cursor declares the variable of a class it does not call, and
the name of the class breaks the line. -/
structure BrokenDeclaration (env : LineEnv) (scan : Scan) (rem : List Char) (tag : ComponentTag)
    (target : ComponentTarget) : Prop where
  markup : scan.html.attrString = none
  unopened : scan.openCall = none
  at_cursor : componentTagAt rem = some tag
  resolved : tag.resolve env.components = some target
  uncalled : target.binding = .declare ∨
    tagAttributeArguments (rem.drop tag.len) env.following = none
  fqn : ¬OneLine (trimMatches '\\' target.fqn)

theorem not_oneLine_emit {tag : ComponentTag} {target : Option ComponentTarget} {rest : List Char}
    {following : List (List Char)} (hname : ∀ ch ∈ tag.name, isTagNameChar ch = true) :
    ¬OneLine (tag.emit target rest following).1 ↔
      ∃ found, target = some found ∧
        (found.binding = .declare ∨ tagAttributeArguments rest following = none) ∧
        ¬OneLine (trimMatches '\\' found.fqn) := by
  cases target with
  | none => simpa [ComponentTag.emit] using oneLine_comment hname
  | some found =>
      have hspace : OneLine [' '] := by decide
      simp only [Option.some.injEq, exists_eq_left']
      rw [ComponentTag.emit]
      cases hbinding : found.binding with
      | declare => simp [oneLine_declaration_iff]
      | construct parameters =>
          cases tagAttributeArguments rest following with
          | none => simp [oneLine_declaration_iff]
          | some literals => simpa using hspace
      | mount parameters =>
          cases tagAttributeArguments rest following with
          | none => simp [oneLine_declaration_iff]
          | some literals => simpa using hspace

theorem not_oneLine_tagOpen (h : tagOpen env scan rem = some (l, scan')) :
    ¬OneLine l.replacement ↔ ∃ tag target, BrokenDeclaration env scan rem tag target := by
  rw [tagOpen] at h
  split at h
  · rename_i hmarkup
    split at h
    · cases h
    · rename_i tag htag
      cases h
      show ¬OneLine (tag.emit _ _ _).1 ↔ _
      rw [not_oneLine_emit (matches_componentTagAt htag).2.2]
      constructor
      · rintro ⟨target, htarget, huncalled, hfqn⟩
        by_cases hcall : scan.openCall.isNone = true
        · rw [if_pos hcall] at htarget
          exact ⟨tag, target, Option.isNone_iff_eq_none.mp hmarkup,
            Option.isNone_iff_eq_none.mp hcall, htag, htarget, huncalled, hfqn⟩
        · rw [if_neg hcall] at htarget
          cases htarget
      · rintro ⟨tag', target, hbroken⟩
        have hsame := htag.symm.trans hbroken.at_cursor
        cases hsame
        refine ⟨target, ?_, hbroken.uncalled, hbroken.fqn⟩
        rw [if_pos (by rw [hbroken.unopened]; rfl)]
        exact hbroken.resolved
  · cases h

theorem tagOpen_of_broken {tag : ComponentTag} {target : ComponentTarget}
    (h : BrokenDeclaration env scan rem tag target) : ∃ opened, tagOpen env scan rem = some opened := by
  rw [tagOpen, if_pos (by rw [h.markup]; rfl), h.at_cursor]
  exact ⟨_, rfl⟩

/-- A component tag and what closes a tag start with nothing that opens an echo
or an island of PHP. -/
theorem start_of_componentTagAt {tag : ComponentTag} (h : componentTagAt rem = some tag) :
    ∃ ch rest, rem = '<' :: ch :: rest ∧ ch ≠ '?' := by
  have hprefix (kind : TagKind) (text : List Char) (h : kind.tagPrefix <+: text) :
      ∃ ch rest, text = ch :: rest ∧ ch ≠ '?' := by
    obtain ⟨rest, rfl⟩ := h
    cases kind with
    | blade => exact ⟨'x', _, rfl, by decide⟩
    | livewire => exact ⟨'l', _, rfl, by decide⟩
  rw [componentTagAt] at h
  split at h
  · rename_i hlt
    obtain ⟨tail, rfl⟩ := List.head?_eq_some_iff.mp hlt
    by_cases hslash : tail.head? = some '/'
    · obtain ⟨rest, rfl⟩ := List.head?_eq_some_iff.mp hslash
      exact ⟨'/', rest, rfl, by decide⟩
    · have hkind {kind : TagKind} {found : Option ComponentTag}
          (h : ComponentTag.ofKind ('<' :: tail) (decide (tail.head? = some '/')) kind = some found) :
          ∃ ch rest, '<' :: tail = '<' :: ch :: rest ∧ ch ≠ '?' := by
        rw [decide_eq_false hslash, ComponentTag.ofKind] at h
        simp only [Bool.false_eq_true, if_false] at h
        split at h
        · rename_i hstart
          obtain ⟨ch, rest, heq, hne⟩ := hprefix kind _ hstart
          exact ⟨ch, rest, congrArg _ heq, hne⟩
        · cases h
      simp only [List.tail_cons] at h
      split at h
      · rename_i htag
        exact hkind htag
      · generalize hother : ComponentTag.ofKind ('<' :: tail) _ .livewire = found at h
        cases found with
        | none => cases h
        | some tag' => exact hkind hother
  · cases h

theorem htmlLowering_of_tagOpen {charIdx : Nat} (h : tagOpen env scan rem = some (l, scan')) :
    htmlLowering env scan rem charIdx = some (l, scan') := by
  have hopen := h
  rw [tagOpen] at hopen
  split at hopen
  · split at hopen
    · cases hopen
    · rename_i tag htag
      obtain ⟨ch, rest, rfl, hch⟩ := start_of_componentTagAt htag
      have hecho : echoOpen env scan ('<' :: ch :: rest) = none := by
        simp [echoOpen]
      have hisland : phpIslandOpen scan ('<' :: ch :: rest) = none := by
        simp [phpIslandOpen, hch.symm]
      rw [htmlLowering, hecho, hisland, h]
      rfl
  · cases hopen

theorem htmlLowering_of_tagClose {charIdx : Nat} (h : tagClose scan rem = some (l, scan')) :
    htmlLowering env scan rem charIdx = some (l, scan') := by
  have hclose := h
  rw [tagClose] at hclose
  split at hclose
  · cases hclose
  · split at hclose
    · rename_i hends
      have hstart : ∃ ch rest, rem = ch :: rest ∧ ch ≠ '{' ∧ ch ≠ '<' := by
        rcases hends.2 with ⟨rest, rfl⟩ | ⟨rest, rfl⟩
        · exact ⟨'>', rest, rfl, by decide⟩
        · exact ⟨'/', _, rfl, by decide⟩
      obtain ⟨ch, rest, rfl, hbrace, hangle⟩ := hstart
      have hecho : echoOpen env scan (ch :: rest) = none := by
        simp [echoOpen, hbrace.symm]
      have hisland : phpIslandOpen scan (ch :: rest) = none := by
        simp [phpIslandOpen, hangle.symm]
      have htag : tagOpen env scan (ch :: rest) = none := by
        simp [tagOpen, componentTagAt, hangle]
      rw [htmlLowering, hecho, hisland, htag, h]
      rfl
    · cases hclose

/-- The tag at the cursor ends, and the call it closes breaks the line. -/
structure BrokenCall (scan : Scan) (rem : List Char) (call : OpenComponentCall) : Prop where
  opened : scan.openCall = some call
  markup : scan.html.attrString = none
  at_cursor : ['>'] <+: rem ∨ ['/', '>'] <+: rem
  broken : call.Broken

theorem tagClose_of_broken {call : OpenComponentCall} (h : BrokenCall scan rem call) :
    ∃ opened, tagClose scan rem = some opened := by
  rw [tagClose, h.opened]
  simp only
  rw [if_pos ⟨by rw [h.markup]; rfl, h.at_cursor⟩]
  exact ⟨_, rfl⟩

theorem not_oneLine_tagClose (h : tagClose scan rem = some (l, scan')) :
    ¬OneLine l.replacement ↔ ∃ call, BrokenCall scan rem call := by
  rw [tagClose] at h
  split at h
  · cases h
  · rename_i call hcall
    split at h
    · rename_i hclose
      cases h
      rw [OpenComponentCall.not_oneLine_close]
      constructor
      · intro hbroken
        exact ⟨call, hcall, Option.isNone_iff_eq_none.mp hclose.1, hclose.2, hbroken⟩
      · rintro ⟨call', hbroken⟩
        have hsame := hcall.symm.trans hbroken.opened
        cases hsame
        exact hbroken.broken
    · cases h

/-! ## Injected services -/

theorem oneLine_of_isPhpIdentifier {name : List Char} (h : isPhpIdentifier name = true) :
    OneLine name := by
  have hbreak : ¬isWordChar '\n' = true := by
    simp [isWordChar, isAsciiAlphanumeric, isAsciiAlphabetic]
  cases name with
  | nil => exact List.not_mem_nil
  | cons first rest =>
      rw [isPhpIdentifier, Bool.and_eq_true, List.all_eq_true] at h
      intro hmem
      rcases List.mem_cons.mp hmem with rfl | hmem
      · simp [isAsciiAlphabetic] at h
      · exact hbreak (h.2 _ hmem)

theorem name_of_injectedService {raw name service : List Char}
    (h : injectedService raw = some (name, service)) : isPhpIdentifier name = true := by
  simp only [injectedService] at h
  split at h
  · rename_i hboth
    cases h
    exact (Bool.and_eq_true _ _ ▸ hboth).1
  · cases h

theorem not_oneLine_buildInjectStatement {raw : List Char} :
    ¬OneLine (buildInjectStatement raw) ↔
      ∃ name service, injectedService raw = some (name, service) ∧ ¬OneLine service := by
  rw [buildInjectStatement]
  cases hinjected : injectedService raw with
  | none => simp [OneLine]
  | some injected =>
      obtain ⟨name, service⟩ := injected
      have hname := oneLine_of_isPhpIdentifier (name_of_injectedService hinjected)
      have hstart : OneLine " $".toList := by decide
      have happ : OneLine " = app(".toList := by decide
      have hend : OneLine "); ".toList := by decide
      simp only [oneLine_append, Option.some.injEq, Prod.mk.injEq]
      constructor
      · intro h
        refine ⟨name, service, ⟨rfl, rfl⟩, ?_⟩
        intro hservice
        exact h ⟨⟨⟨⟨hstart, hname⟩, happ⟩, hservice⟩, hend⟩
      · rintro ⟨_, _, ⟨rfl, rfl⟩, hbreak⟩ h
        exact hbreak h.1.2

/-! ## Leaks -/

/-- A turn that breaks the line. -/
inductive Leak (env : LineEnv) (s : State) : Prop
  | declares {tag : ComponentTag} {target : ComponentTarget} (hmode : s.scan.mode = .html)
      (h : BrokenDeclaration env s.scan (env.line.drop s.out.charIdx) tag target)
  | calls {call : OpenComponentCall} (hmode : s.scan.mode = .html)
      (h : BrokenCall s.scan (env.line.drop s.out.charIdx) call)
  /-- An `@inject` whose argument list closes here, outside strings and comments. -/
  | injects {ch : Char} {after name service : List Char}
      (hmode : s.scan.mode = .captureArgs .inject)
      (hrest : env.line.drop s.out.charIdx = ch :: after)
      (hcode : s.trackCode ch after.head? = none)
      (hcloses : (closesArgs ch s.scan.parenDepth).1 = true)
      (hservice : injectedService s.captured = some (name, service)) (h : ¬OneLine service)

/-- In markup a turn leaks through the construct at the cursor. -/
theorem htmlLowering_of_leak {s : State} (hmode : s.scan.mode = .html) (hleak : Leak env s) :
    ∃ l scan', htmlLowering env s.scan (env.line.drop s.out.charIdx) s.out.charIdx =
      some (l, scan') ∧ ¬OneLine l.replacement := by
  cases hleak with
  | declares _ hbroken =>
      obtain ⟨⟨l, scan'⟩, hopen⟩ := tagOpen_of_broken hbroken
      exact ⟨l, scan', htmlLowering_of_tagOpen hopen,
        (not_oneLine_tagOpen hopen).mpr ⟨_, _, hbroken⟩⟩
  | calls _ hbroken =>
      obtain ⟨⟨l, scan'⟩, hclose⟩ := tagClose_of_broken hbroken
      exact ⟨l, scan', htmlLowering_of_tagClose hclose, (not_oneLine_tagClose hclose).mpr ⟨_, hbroken⟩⟩
  | injects hinject =>
      rw [hmode] at hinject
      cases hinject

/-- The PHP of a construct breaks the line where the turn leaks. -/
theorem not_oneLine_htmlLowering {s : State} (hmode : s.scan.mode = .html)
    (hline : OneLine env.line)
    (h : htmlLowering env s.scan (env.line.drop s.out.charIdx) s.out.charIdx = some (l, scan')) :
    ¬OneLine l.replacement ↔ Leak env s := by
  have hrem : OneLine (env.line.drop s.out.charIdx) :=
    fun hmem => hline ((List.drop_sublist _ _).subset hmem)
  constructor
  · intro hbreak
    rcases (opened_htmlLowering hrem h).2 with htext | htag | htag
    · exact absurd htext hbreak
    · obtain ⟨tag, target, hbroken⟩ := (not_oneLine_tagOpen htag).mp hbreak
      exact .declares hmode hbroken
    · obtain ⟨call, hbroken⟩ := (not_oneLine_tagClose htag).mp hbreak
      exact .calls hmode hbroken
  · intro hleak
    obtain ⟨l', scan'', hlowering, hbreak⟩ := htmlLowering_of_leak hmode hleak
    have hsame := hlowering.symm.trans h
    cases hsame
    exact hbreak

end PhpantomLsp.Blade
