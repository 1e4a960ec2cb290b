import PhpantomLsp.TextScan.Tokens

/-!
# Forward and backward scans agree

A scan for brackets makes of a text what it makes of the code bytes alone, and in a text
without comments whose strings are closed both directions come to the same code bytes.
So a bracket matches another forward exactly when it is matched by it backward, and the
first opener offered backward is the innermost one a forward scan has left open
(`scans_agree`).
-/

namespace PhpantomLsp.TextScan

open Lib.Nesting

/-! ## What a scan makes of the code bytes -/

/-- A code byte as a scan for one kind of bracket takes it. -/
def markFor (opener closer : Byte) (entry : Nat × Byte) : Nat × Mark :=
  (entry.1, if entry.2 = opener then .up else if entry.2 = closer then .down else .flat)

/-- A code byte as a scan for brackets of any kind takes it. -/
def anyMark (entry : Nat × Byte) : Nat × Mark :=
  (entry.1, if isCloser entry.2 then .down else if isOpener entry.2 then .up else .flat)

theorem findUnmatchedClose_eq (len : Nat) (opener closer : Byte) (depth : Nat)
    (text : List Byte) :
    findUnmatchedCloseLoop len opener closer depth text =
      firstClose depth ((codeFrom len text).map (markFor opener closer)) := by
  fun_induction findUnmatchedCloseLoop len opener closer depth text with
  | case1 depth => simp [codeFrom, firstClose]
  | case2 depth b rest past h ih => rw [ih, codeFrom_comment h]
  | case3 depth b rest h hquote ih => rw [ih, codeFrom_string h hquote]
  | case4 depth rest h hquote ih =>
      rw [ih, codeFrom_code h hquote]
      simp [markFor, firstClose]
  | case5 rest h hquote hopener =>
      rw [codeFrom_code h hquote]
      simp [hopener, markFor, firstClose]
  | case6 rest depth h hquote hopener ih =>
      rw [ih, codeFrom_code h hquote]
      simp [hopener, markFor, firstClose]
  | case7 depth b rest h hquote hopener hcloser ih =>
      rw [ih, codeFrom_code h hquote]
      simp [hopener, hcloser, markFor, firstClose]

theorem matchBackward_eq {opener closer : Byte} (hne : opener ≠ closer)
    (hopener : isQuote opener = false) (hcloser : isQuote closer = false) (depth : Nat)
    (before : List Byte) :
    matchBackwardLoop opener closer depth before =
      firstOpen depth ((codeBackward before).map (markFor opener closer)) := by
  fun_induction matchBackwardLoop opener closer depth before with
  | case1 depth => simp [codeBackward, firstOpen]
  | case2 depth before ih =>
      rw [ih, codeBackward, hcloser]
      simp [markFor, firstOpen, hne.symm]
  | case3 before hb =>
      rw [codeBackward, hopener]
      simp [markFor, firstOpen]
  | case4 before hb depth ih =>
      rw [ih, codeBackward, hopener]
      simp [markFor, firstOpen]
  | case5 depth b before hb hb' hquote ih =>
      rw [ih, codeBackward, if_pos hquote]
  | case6 depth b before hb hb' hquote ih =>
      rw [ih, codeBackward, if_neg hquote]
      simp [markFor, firstOpen, hb, hb']

/-- The visitor that stops at the first opener it is offered. -/
def stopAtOpener (bytes : List Byte) (i : Nat) : ScanStep :=
  if (bytes[i]?).any isOpener then .stop else .skip 1

theorem openingQuote_suffix (quote : Byte) (before : List Byte) :
    openingQuote quote before <:+ before := by
  induction before with
  | nil => exact List.suffix_refl _
  | cons b before ih =>
      unfold openingQuote
      split
      · exact List.suffix_cons ..
      · exact ih.trans (List.suffix_cons ..)

theorem scanBackward_eq {bytes : List Byte} (depth : Nat) {before : List Byte}
    (hbefore : before.reverse <+: bytes) :
    scanBackwardLoop (stopAtOpener bytes) depth before =
      firstOpen depth ((codeBackward before).map anyMark) := by
  have hrest : ∀ {b : Byte} {before : List Byte}, (b :: before).reverse <+: bytes →
      before.reverse <+: bytes := by
    intro b before h
    rw [List.reverse_cons] at h
    exact (List.prefix_append ..).trans h
  have hvisit : ∀ {b : Byte} {before : List Byte}, (b :: before).reverse <+: bytes →
      bytes[before.length]? = some b := by
    intro b before h
    obtain ⟨rest, rfl⟩ := h
    simp
  fun_induction scanBackwardLoop (stopAtOpener bytes) depth before with
  | case1 depth => simp [codeBackward, firstOpen]
  | case2 depth b before hquote ih =>
      rw [ih ?_, codeBackward, if_pos hquote]
      exact (List.reverse_prefix.mpr (openingQuote_suffix b before)).trans (hrest hbefore)
  | case3 depth b before hquote hcloser ih =>
      rw [ih (hrest hbefore), codeBackward, if_neg hquote]
      simp [anyMark, firstOpen, hcloser]
  | case4 depth b before hquote hcloser hopener ih =>
      rw [ih (hrest hbefore), codeBackward, if_neg hquote]
      obtain ⟨hopener, hdepth⟩ := hopener
      obtain ⟨depth, rfl⟩ := Nat.exists_eq_succ_of_ne_zero (Nat.ne_of_gt hdepth)
      simp [anyMark, firstOpen, hcloser, hopener]
  | case5 depth b before hquote hcloser hopener hdepth ih =>
      rw [ih (hrest hbefore), codeBackward, if_neg hquote]
      have hopener : ¬isOpener b = true := fun h => hopener ⟨h, hdepth⟩
      simp [anyMark, firstOpen, hcloser, hopener]
  | case6 depth b before hquote hcloser hopener hdepth n hvisitor ih =>
      have hsteps : isOpener b = false ∧ n = 1 := by
        simp only [stopAtOpener, hvisit hbefore, Option.any_some] at hvisitor
        split at hvisitor
        · cases hvisitor
        · rename_i hflat
          exact ⟨eq_false_of_ne_true hflat, (ScanStep.skip.inj hvisitor).symm⟩
      obtain ⟨hflat, rfl⟩ := hsteps
      rw [ih (hrest hbefore), codeBackward, if_neg hquote]
      simp [anyMark, firstOpen, hcloser, hflat]
  | case7 depth b before hquote hcloser hopener hdepth hvisitor =>
      have hup : isOpener b = true := by
        simp only [stopAtOpener, hvisit hbefore, Option.any_some] at hvisitor
        split at hvisitor
        · assumption
        · cases hvisitor
      obtain rfl : depth = 0 := by omega
      rw [codeBackward, if_neg hquote]
      simp [anyMark, firstOpen, hcloser, hup]
  | case8 depth b before hquote hcloser hopener hdepth hvisitor =>
      simp only [stopAtOpener] at hvisitor
      split at hvisitor <;> cases hvisitor

/-- The visitor that stops at one offset. -/
def stopAt (k i : Nat) : ScanStep := if i = k then .stop else .skip 1

theorem isCloser_of_isOpener {b : Byte} (h : isOpener b = true) : isCloser b = false := by
  simp only [isOpener, Bool.or_eq_true, beq_iff_eq] at h
  obtain (rfl | rfl) | rfl := h <;> decide

theorem scanTopLevel_eq (len k depth : Nat) (text : List Byte) :
    scanTopLevelLoop len (stopAt k) depth text =
      if meetsAtTop k depth ((codeFrom len text).map anyMark) then some k else none := by
  fun_induction scanTopLevelLoop len (stopAt k) depth text with
  | case1 depth => simp [codeFrom, meetsAtTop]
  | case2 depth b rest past h ih => rw [ih, codeFrom_comment h]
  | case3 depth b rest h hquote ih => rw [ih, codeFrom_string h hquote]
  | case4 depth b rest h hquote hopener ih =>
      rw [ih, codeFrom_code h hquote]
      simp [anyMark, hopener, isCloser_of_isOpener hopener, meetsAtTop]
  | case5 depth b rest h hquote hopener hcloser ih =>
      rw [ih, codeFrom_code h hquote]
      simp [anyMark, hcloser, meetsAtTop]
  | case6 depth b rest h hquote hopener hcloser hdepth ih =>
      rw [ih, codeFrom_code h hquote]
      simp [anyMark, hopener, hcloser, meetsAtTop, Nat.ne_of_gt hdepth]
  | case7 depth b rest h hquote hopener hcloser hdepth n hvisitor ih =>
      obtain ⟨hne, rfl⟩ : len - (b :: rest).length ≠ k ∧ n = 1 := by
        unfold stopAt at hvisitor
        split at hvisitor
        · cases hvisitor
        · rename_i hne
          exact ⟨hne, (ScanStep.skip.inj hvisitor).symm⟩
      have hmark : anyMark (len - (b :: rest).length, b) = (len - (b :: rest).length, .flat) := by
        simp [anyMark, hopener, hcloser]
      have hstep : ∀ marks, meetsAtTop k depth ((len - (b :: rest).length, .flat) :: marks) =
          meetsAtTop k depth marks := fun _ => if_neg fun heq => hne heq.2
      rw [codeFrom_code h hquote, List.map_cons, hmark, hstep]
      exact ih
  | case8 depth b rest h hquote hopener hcloser hdepth hvisitor =>
      have heq : len - (b :: rest).length = k := by
        unfold stopAt at hvisitor
        split at hvisitor
        · assumption
        · cases hvisitor
      have hmark : anyMark (len - (b :: rest).length, b) = (len - (b :: rest).length, .flat) := by
        simp [anyMark, hopener, hcloser]
      have hstep : ∀ marks, meetsAtTop k depth ((len - (b :: rest).length, .flat) :: marks) =
          true := fun _ => if_pos ⟨by omega, heq⟩
      rw [codeFrom_code h hquote, List.map_cons, hmark, hstep, if_pos rfl, heq]
  | case9 depth b rest h hquote hopener hcloser hdepth hvisitor =>
      unfold stopAt at hvisitor
      split at hvisitor <;> cases hvisitor

/-! ## Both directions -/

/-- A pair of brackets. -/
inductive BracketKind where
  | paren
  | square
  | brace

def BracketKind.opener : BracketKind → Byte
  | paren => '('.toUInt8
  | square => '['.toUInt8
  | brace => '\x7b'.toUInt8

def BracketKind.closer : BracketKind → Byte
  | paren => ')'.toUInt8
  | square => ']'.toUInt8
  | brace => '\x7d'.toUInt8

/-- The brackets a forward scan has left open at an offset, the innermost first. -/
def openBrackets (text : List Byte) (k : Nat) : List Nat :=
  openStack [] (((codeFrom text.length text).takeWhile (·.1 < k)).map anyMark)

theorem codeFrom_plain {tokens : List Token} (h : Plain tokens) :
    codeFrom (flatten tokens).length (flatten tokens) = codeOf 0 tokens := by
  rw [codeFrom_flatten h (Nat.le_refl _), Nat.sub_self]

/-- A text splits at each of its code offsets. -/
theorem split_of_codeOffset {tokens : List Token} (h : Plain tokens) {k : Nat}
    (hk : k ∈ codeOffsets (flatten tokens)) :
    ∃ before b after, tokens = before ++ .code b :: after ∧ (flatten before).length = k := by
  unfold codeOffsets at hk
  rw [codeFrom_plain h] at hk
  obtain ⟨⟨k, b⟩, hentry, rfl⟩ := List.mem_map.mp hk
  obtain ⟨before, after, hsplit, hlength⟩ := split_of_mem_codeOf hentry
  exact ⟨before, b, after, hsplit, by simpa using hlength⟩

theorem codeOf_split (before : List Token) (b : Byte) (after : List Token) :
    codeOf 0 (before ++ .code b :: after) =
      codeOf 0 before ++ ((flatten before).length, b) ::
        codeOf ((flatten before).length + 1) after := by
  rw [codeOf_append, Nat.zero_add]
  rfl

/-- What a forward scan has come to before a code offset. -/
theorem codeFrom_before {before after : List Token} {b : Byte}
    (h : Plain (before ++ .code b :: after)) :
    (codeFrom (flatten (before ++ .code b :: after)).length
        (flatten (before ++ .code b :: after))).takeWhile (·.1 < (flatten before).length) =
      codeOf 0 before := by
  rw [codeFrom_plain h, codeOf_split, List.takeWhile_append_of_pos,
    List.takeWhile_cons_of_neg (by simp), List.append_nil]
  intro entry hentry
  have hbounds := codeOf_bounds hentry
  simp only [decide_eq_true_eq]
  omega

theorem take_flatten (before after : List Token) :
    (flatten (before ++ after)).take (flatten before).length = flatten before := by
  rw [flatten_append, List.take_left]

theorem scanBackward_agrees {tokens : List Token} (h : Plain tokens) {k : Nat}
    (hk : k ∈ codeOffsets (flatten tokens)) :
    scanTopLevelBackward ((flatten tokens).take k) (stopAtOpener ((flatten tokens).take k)) =
      (openBrackets (flatten tokens) k).head? := by
  obtain ⟨before, b, after, rfl, rfl⟩ := split_of_codeOffset h hk
  unfold openBrackets scanTopLevelBackward
  rw [take_flatten, scanBackward_eq 0 (by simp), codeBackward_flatten h.splits.before,
    List.map_reverse, firstOpen_reverse, codeFrom_before h, List.head?_eq_getElem?]

theorem codeOf_index_unique {pos : Nat} {tokens : List Token} {k : Nat} {b b' : Byte}
    (h : (k, b) ∈ codeOf pos tokens) (h' : (k, b') ∈ codeOf pos tokens) : b = b' :=
  congrArg Prod.snd (List.inj_on_of_nodup_map (codeOf_nodup pos tokens) h h' rfl)

/-- A mark keeps the offset of its byte. -/
theorem index_bounds {mark : Nat × Byte → Nat × Mark} (hmark : ∀ entry, (mark entry).1 = entry.1)
    {pos : Nat} {tokens : List Token} {i : Nat}
    (h : i ∈ ((codeOf pos tokens).map mark).map (·.1)) :
    pos ≤ i ∧ i < pos + (flatten tokens).length := by
  rw [List.map_map] at h
  obtain ⟨entry, hentry, rfl⟩ := List.mem_map.mp h
  rw [Function.comp_apply, hmark]
  exact codeOf_bounds hentry

/-- The height of the stack is the depth `scan_top_level` counts: it offers a byte that is
no bracket exactly where none is open. -/
theorem scanTopLevel_offers_iff {before after : List Token} {b : Byte}
    (h : Plain (before ++ .code b :: after)) (hopener : isOpener b = false)
    (hcloser : isCloser b = false) :
    scanTopLevel (flatten (before ++ .code b :: after)) (stopAt (flatten before).length) =
        some (flatten before).length ↔
      openBrackets (flatten (before ++ .code b :: after)) (flatten before).length = [] := by
  have hmark : anyMark ((flatten before).length, b) = ((flatten before).length, .flat) := by
    simp [anyMark, hopener, hcloser]
  have hbefore : (flatten before).length ∉ ((codeOf 0 before).map anyMark).map (·.1) := by
    intro hmem
    have hbounds := index_bounds (fun _ => rfl) hmem
    omega
  have hafter : (flatten before).length ∉
      ((codeOf ((flatten before).length + 1) after).map anyMark).map (·.1) := by
    intro hmem
    have hbounds := index_bounds (fun _ => rfl) hmem
    omega
  have htop := @meetsAtTop_iff Nat _ _ [] _ _ hbefore hafter
  rw [List.length_nil] at htop
  unfold openBrackets scanTopLevel
  rw [scanTopLevel_eq, codeFrom_before h, codeFrom_plain h, codeOf_split, List.map_append,
    List.map_cons, hmark, ← htop]
  split
  · rename_i hmeets
    exact iff_of_true rfl hmeets
  · rename_i hmeets
    exact iff_of_false (by simp) hmeets

theorem BracketKind.facts (kind : BracketKind) :
    kind.opener ≠ kind.closer ∧ isQuote kind.opener = false ∧ isQuote kind.closer = false := by
  cases kind <;> decide

/-- A mark that opens or closes is that of an opener or a closer. -/
theorem byte_of_mark {opener closer : Byte} {marks : List (Nat × Byte)} {i : Nat} {mark : Mark}
    (h : (i, mark) ∈ marks.map (markFor opener closer)) :
    ∃ b, (i, b) ∈ marks ∧ (mark = .up → b = opener) ∧ (mark = .down → b = closer) := by
  obtain ⟨⟨j, b⟩, hentry, heq⟩ := List.mem_map.mp h
  obtain ⟨rfl, rfl⟩ := Prod.mk.inj heq
  refine ⟨b, hentry, fun hup => ?_, fun hdown => ?_⟩
  · dsimp only at hup
    split_ifs at hup with hopener
    exact hopener
  · dsimp only at hdown
    split_ifs at hdown with hopener hcloser
    exact hcloser

theorem plain_of_append {before after : List Token} (h : Plain (before ++ after)) : Plain after := by
  induction before with
  | nil => exact h
  | cons token before ih =>
      rw [List.cons_append] at h
      cases h with
      | code _ _ _ hplain => exact ih hplain
      | string _ _ hplain => exact ih hplain

theorem getElem?_flatten (before : List Token) (b : Byte) (after : List Token) :
    (flatten (before ++ .code b :: after))[(flatten before).length]? = some b := by
  rw [flatten_append, List.getElem?_append_right (Nat.le_refl _), Nat.sub_self]
  rfl

theorem drop_flatten (before : List Token) (b : Byte) (after : List Token) :
    (flatten (before ++ .code b :: after)).drop ((flatten before).length + 1) = flatten after := by
  rw [flatten_append, List.drop_append, List.drop_eq_nil_of_le (Nat.le_succ _), List.nil_append,
    Nat.add_sub_cancel_left]
  rfl

/-- The forward scan from an opener goes over the code bytes after it. -/
theorem findMatchingForward_eq {before after : List Token} {b : Byte}
    (h : Plain (before ++ .code b :: after)) (opener closer : Byte) :
    findMatchingForward (flatten (before ++ .code b :: after)) (flatten before).length
        opener closer =
      if b = opener then
        firstClose 0 ((codeOf ((flatten before).length + 1) after).map (markFor opener closer))
      else none := by
  have hafter : Plain after := by
    cases plain_of_append h with
    | code _ _ _ hplain => exact hplain
  have hlength : (flatten (before ++ .code b :: after)).length =
      (flatten before).length + 1 + (flatten after).length := by
    simp only [flatten, List.flatMap_append, List.flatMap_cons, Token.bytes, List.length_append,
      List.length_singleton]
    omega
  unfold findMatchingForward findUnmatchedCloseBytes
  simp only [getElem?_flatten, Option.some.injEq]
  rw [drop_flatten, findUnmatchedClose_eq, codeFrom_flatten hafter (by omega), hlength,
    Nat.add_sub_cancel]

/-- The backward scan from a closer goes over the code bytes before it. -/
theorem findMatchingBackward_eq {before after : List Token} {b : Byte}
    (h : Plain (before ++ .code b :: after)) (kind : BracketKind) :
    findMatchingBackward (flatten (before ++ .code b :: after)) (flatten before).length
        kind.opener kind.closer =
      if b = kind.closer then
        firstOpen 0 ((codeOf 0 before).map (markFor kind.opener kind.closer)).reverse
      else none := by
  obtain ⟨hne, hopener, hcloser⟩ := kind.facts
  unfold findMatchingBackward
  simp only [getElem?_flatten, Option.some.injEq]
  rw [take_flatten, matchBackward_eq hne hopener hcloser, codeBackward_flatten h.splits.before,
    List.map_reverse]

theorem matching_agrees {tokens : List Token} (h : Plain tokens) (kind : BracketKind) {o c : Nat}
    (ho : o ∈ codeOffsets (flatten tokens)) (hc : c ∈ codeOffsets (flatten tokens)) (hlt : o < c) :
    findMatchingForward (flatten tokens) o kind.opener kind.closer = some c ↔
      findMatchingBackward (flatten tokens) c kind.opener kind.closer = some o := by
  obtain ⟨hne, hopener, hcloser⟩ := kind.facts
  obtain ⟨before, x, rest, rfl, rfl⟩ := split_of_codeOffset h ho
  obtain ⟨between, y, after, rfl, rfl⟩ : ∃ between y after,
      rest = between ++ .code y :: after ∧
        (flatten before).length + 1 + (flatten between).length = c := by
    unfold codeOffsets at hc
    rw [codeFrom_plain h, codeOf_split, List.map_append, List.map_cons, List.mem_append,
      List.mem_cons] at hc
    rcases hc with hc | hc | hc
    · obtain ⟨entry, hentry, rfl⟩ := List.mem_map.mp hc
      have hbounds := codeOf_bounds hentry
      omega
    · omega
    · obtain ⟨⟨c, y⟩, hentry, rfl⟩ := List.mem_map.mp hc
      obtain ⟨between, after, hsplit, hlength⟩ := split_of_mem_codeOf hentry
      exact ⟨between, y, after, hsplit, hlength⟩
  have hassoc : before ++ Token.code x :: (between ++ .code y :: after) =
      (before ++ .code x :: between) ++ .code y :: after := by simp
  have hlength : (flatten before).length + 1 + (flatten between).length =
      (flatten (before ++ .code x :: between)).length := by
    simp only [flatten, List.flatMap_append, List.flatMap_cons, Token.bytes, List.length_append,
      List.length_singleton]
    omega
  have hbackward := findMatchingBackward_eq (hassoc ▸ h) kind
  rw [← hassoc, ← hlength, codeOf_split, List.map_append, List.map_cons] at hbackward
  rw [findMatchingForward_eq h, hbackward, codeOf_append]
  simp only [codeOf, List.map_append, List.map_cons]
  by_cases hx : x = kind.opener
  · by_cases hy : y = kind.closer
    · have hup : markFor kind.opener kind.closer ((flatten before).length, x) =
          ((flatten before).length, .up) := by
        simp [markFor, hx]
      have hdown : ∀ c, markFor kind.opener kind.closer (c, y) = (c, .down) := by
        intro c
        simp [markFor, hy, hne.symm]
      have hnodup := codeOf_nodup 0 (before ++ .code x :: (between ++ .code y :: after))
      rw [codeOf_split, codeOf_append] at hnodup
      rw [if_pos hx, if_pos hy, hup, hdown]
      refine firstClose_iff_firstOpen ?_
      simpa [codeOf, markFor, Function.comp_def] using hnodup
    · rw [if_pos hx, if_neg hy]
      refine iff_of_false (fun hfound => hy ?_) (by simp)
      have hmem := mem_of_firstClose hfound
      rw [← List.map_cons, ← List.map_append] at hmem
      obtain ⟨b, hb, -, hcloser⟩ := byte_of_mark hmem
      rw [← hcloser rfl]
      have hy' : ((flatten before).length + 1 + (flatten between).length, y) ∈
          codeOf ((flatten before).length + 1) (between ++ .code y :: after) := by
        rw [codeOf_append]
        exact List.mem_append_right _ (List.mem_cons_self ..)
      refine codeOf_index_unique hy' ?_
      rw [codeOf_append]
      exact hb
  · rw [if_neg hx]
    refine iff_of_false (by simp) fun hfound => hx ?_
    split_ifs at hfound with hy
    have hmem := List.mem_reverse.mp (mem_of_firstOpen hfound)
    rw [← List.map_cons, ← List.map_append] at hmem
    obtain ⟨b, hb, hopener, -⟩ := byte_of_mark hmem
    rw [← hopener rfl]
    have hx' : ((flatten before).length, x) ∈ codeOf 0 (before ++ .code x :: between) := by
      rw [codeOf_split]
      exact List.mem_append_right _ (List.mem_cons_self ..)
    refine codeOf_index_unique hx' ?_
    rw [codeOf_split]
    exact hb

/-- In a text without comments whose strings are closed, brackets of a kind match forward
exactly where they match backward, and the first opener a backward scan offers from a
code offset is the innermost one a forward scan has left open there: one that counts
the brackets offers a byte exactly where none is left open. -/
theorem scans_agree {text : List Byte} (h : PlainText text) :
    (∀ kind : BracketKind, ∀ o ∈ codeOffsets text, ∀ c ∈ codeOffsets text, o < c →
      (findMatchingForward text o kind.opener kind.closer = some c ↔
        findMatchingBackward text c kind.opener kind.closer = some o)) ∧
    (∀ k ∈ codeOffsets text,
      scanTopLevelBackward (text.take k) (stopAtOpener (text.take k)) =
        (openBrackets text k).head?) ∧
    ∀ k ∈ codeOffsets text, ∀ b, text[k]? = some b → isOpener b = false → isCloser b = false →
      (scanTopLevel text (stopAt k) = some k ↔ openBrackets text k = []) := by
  obtain ⟨tokens, hplain, rfl⟩ := h
  refine ⟨fun kind o ho c hc hlt => matching_agrees hplain kind ho hc hlt,
    fun k hk => scanBackward_agrees hplain hk, ?_⟩
  intro k hk b hb hopener hcloser
  obtain ⟨before, found, after, rfl, rfl⟩ := split_of_codeOffset hplain hk
  rw [getElem?_flatten, Option.some.injEq] at hb
  subst hb
  exact scanTopLevel_offers_iff hplain hopener hcloser

/-- `f("\\")`: the string ends in an escaped backslash. -/
theorem scans_agree_escapedBackslash :
    findMatchingBackward [102, 40, 34, 92, 92, 34, 41] 6 40 41 = some 1 := by
  have hplain : PlainText [102, 40, 34, 92, 92, 34, 41] := by
    refine ⟨[.code 102, .code 40, .string 34 [92, 92], .code 41], ?_, by decide⟩
    refine .code (by decide) (by decide) (by decide) ?_
    refine .code (by decide) (by decide) (by decide) ?_
    refine .string (by decide) (.escape .nil) ?_
    exact .code (by decide) (by decide) (by decide) .nil
  refine ((scans_agree hplain).1 .paren 1 (by decide +kernel) 6 (by decide +kernel)
    (by decide)).mp ?_
  decide +kernel

end PhpantomLsp.TextScan
