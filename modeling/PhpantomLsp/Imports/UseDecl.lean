import PhpantomLsp.Imports.UseItems

/-!
# The members of a clean statement

The text of a clean statement up to its semicolon, and the members
`find_use_member` goes through in it: those of the statement, each at its place.
-/

namespace PhpantomLsp.Imports

open PhpantomLsp.Lib
open PhpantomLsp.Text (isWhitespace)

/-! ## Clean statements -/

def KindWord.IsLower : KindWord → Prop
  | .function word => word.chars = "function".toList
  | .const word => word.chars = "const".toList

def Form.IsClean : Form → Prop
  | .plain none => True
  | .plain (some (gap, kind)) =>
      gap.head? = some .space ∧ gap.isBare = true ∧ kind.IsLower
  | .group afterUse kind _ beforeSlash beforeBrace trailing beforeEnd =>
      afterUse.head? = some .space ∧ afterUse.IsClean ∧ (∀ k ∈ kind, k.2.IsClean) ∧
        beforeSlash.IsClean ∧ beforeBrace.IsClean ∧ (∀ g ∈ trailing, g.IsClean) ∧
        beforeEnd.IsClean

namespace UseStatement

/-- A statement whose words are spelled and spaced as the code looks for them, and
whose comments hold nothing the list is split at. -/
structure IsClean (u : UseStatement) : Prop where
  useWord : u.useWord.chars = "use".toList
  form : u.form.IsClean
  start : u.form.isPlain = true → ∀ s ∈ u.slots.head?, s.before.head? = some .space
  slots : ∀ s ∈ u.slots, s.before.IsClean ∧ s.member.IsClean ∧ s.after.IsClean

/-- The statement up to its semicolon, as `find_use_statement` cuts it. -/
def decl (u : UseStatement) : Text := u.text.takeWhile (· != ';')

end UseStatement

theorem not_isPunctuation_of_isLabelChar {c : Char} (h : isLabelChar c = true) :
    isPunctuation c = false := by
  rw [Bool.eq_false_iff]
  intro hp
  simp only [isPunctuation, Bool.or_eq_true, beq_iff_eq] at hp
  rcases hp with ((rfl | rfl) | rfl) | rfl <;> revert h <;> decide

theorem not_isPunctuation_of_isMemberChar {c : Char} (h : isMemberChar c = true) :
    isPunctuation c = false := by
  rw [Bool.eq_false_iff]
  intro hp
  simp only [isPunctuation, Bool.or_eq_true, beq_iff_eq] at hp
  rcases hp with ((rfl | rfl) | rfl) | rfl <;> revert h <;> decide

theorem Name.not_isPunctuation {n : Name} {c : Char} (h : c ∈ n.text) : isPunctuation c = false := by
  rcases Name.char_mem h with h | rfl
  · exact not_isPunctuation_of_isLabelChar h
  · decide

/-- The opening of a group up to its brace. -/
def Form.head : Form → Text
  | .plain kind => (Form.plain kind).opening
  | .group afterUse kind pre beforeSlash beforeBrace _ _ =>
      afterUse.text ++ (match kind with | none => [] | some (kind, gap) => kind.text ++ gap.text) ++
        pre.text ++ beforeSlash.text ++ ['\\'] ++ beforeBrace.text

theorem Form.head_not_isPunctuation {form : Form} (h : form.IsClean) {c : Char} (hc : c ∈ form.head) :
    isPunctuation c = false := by
  cases form with
  | plain kind =>
      rcases kind with _ | ⟨gap, kind⟩
      · cases hc
      · simp only [Form.head, Form.opening, List.mem_append] at hc
        rcases hc with hc | hc
        · exact not_isPunctuation_of_isMemberChar
            (by simp [isMemberChar, isPhpSpace_of_isBare h.2.1 hc])
        · exact not_isPunctuation_of_isLabelChar (kind.isLabelChar c hc)
  | group afterUse kind pre beforeSlash beforeBrace trailing beforeEnd =>
      obtain ⟨-, hafter, hkind, hslash, hbrace, -, -⟩ := h
      simp only [Form.head, List.mem_append, List.mem_singleton] at hc
      rcases hc with ((((hc | hc) | hc) | hc) | hc) | hc
      · exact hafter.not_isPunctuation hc
      · rcases kind with _ | ⟨kind, gap⟩
        · cases hc
        · rcases List.mem_append.mp hc with hc | hc
          · exact not_isPunctuation_of_isLabelChar (kind.isLabelChar c hc)
          · exact (hkind _ rfl).not_isPunctuation hc
      · exact Name.not_isPunctuation hc
      · exact hslash.not_isPunctuation hc
      · rw [hc]; decide
      · exact hbrace.not_isPunctuation hc

theorem Slot.not_isPunctuation {s : Slot} (hb : s.before.IsClean) (ha : s.after.IsClean) {c : Char}
    (hc : c ∈ s.text) : isPunctuation c = false := by
  simp only [Slot.text, List.mem_append] at hc
  rcases hc with (hc | hc) | hc
  · exact hb.not_isPunctuation hc
  · exact not_isPunctuation_of_isMemberChar (Member.char_mem hc)
  · exact ha.not_isPunctuation hc

theorem UseStatement.IsClean.trailing {u : UseStatement} (h : u.IsClean) :
    ∀ g ∈ u.form.trailing, g.IsClean := by
  intro g hg
  have hform := h.form
  cases hf : u.form with
  | plain kind => rw [hf] at hg; cases hg
  | group afterUse kind pre beforeSlash beforeBrace trailing beforeEnd =>
      rw [hf] at hg hform
      exact hform.2.2.2.2.2.1 g hg

theorem UseStatement.IsClean.pieces {u : UseStatement} (h : u.IsClean) :
    ∀ p ∈ u.pieces, ∀ c ∈ p, isPunctuation c = false := by
  intro p hp c hc
  rcases List.mem_append.mp hp with hp | hp
  · obtain ⟨s, hs, rfl⟩ := List.mem_map.mp hp
    exact Slot.not_isPunctuation (h.slots s hs).1 (h.slots s hs).2.2 hc
  · obtain ⟨g, hg, rfl⟩ := List.mem_map.mp hp
    exact (h.trailing g (Option.mem_toList.mp hg)).not_isPunctuation hc

/-! ## The members and their places -/

/-- The members of the slots, the first slot starting at `offset`. -/
def slotItems (offset : Nat) : List Slot → List UseItem
  | [] => []
  | s :: rest =>
      ⟨offset + s.before.text.length, offset + (s.before.text.length + s.member.text.length),
        s.member.text⟩ :: slotItems (offset + s.text.length + 1) rest

theorem map_text_slotItems (offset : Nat) (slots : List Slot) :
    (slotItems offset slots).map UseItem.text = slots.map fun s => s.member.text := by
  induction slots generalizing offset with
  | nil => rfl
  | cons s slots ih => rw [slotItems, List.map_cons, List.map_cons, ih]

theorem mem_slotItems {offset : Nat} {slots : List Slot} {item : UseItem}
    (h : item ∈ slotItems offset slots) : ∃ l s r, slots = l ++ s :: r ∧
      item.start = offset + ((l.map Slot.text).flatMap (· ++ [',']) ++ s.before.text).length ∧
      item.stop = item.start + s.member.text.length := by
  induction slots generalizing offset with
  | nil => cases h
  | cons s slots ih =>
      rw [slotItems, List.mem_cons] at h
      rcases h with rfl | h
      · exact ⟨[], s, slots, rfl, by simp, by dsimp only; omega⟩
      · obtain ⟨l, s', r, rfl, hstart, hstop⟩ := ih h
        refine ⟨s :: l, s', r, rfl, ?_, hstop⟩
        rw [hstart, List.map_cons, List.flatMap_cons]
        simp only [List.length_append, List.length_singleton]
        omega

theorem useItemsFrom_slots {slots : List Slot} (offset : Nat) {gaps : List Gap}
    (hslots : ∀ s ∈ slots, s.before.IsClean ∧ s.member.IsClean) (hgaps : ∀ g ∈ gaps, g.IsClean) :
    useItemsFrom offset (slots.map Slot.text ++ gaps.map Gap.text) = slotItems offset slots := by
  induction slots generalizing offset with
  | nil =>
      rw [List.map_nil, List.nil_append, slotItems]
      induction gaps generalizing offset with
      | nil => rfl
      | cons g gaps ih =>
          rw [List.map_cons, useItemsFrom, itemContent_gap (hgaps g (List.mem_cons_self ..))]
          exact ih (fun g hg => hgaps g (List.mem_cons_of_mem _ hg)) _
  | cons s slots ih =>
      obtain ⟨hb, hm⟩ := hslots s (List.mem_cons_self ..)
      obtain ⟨c, rest, hc, -⟩ := s.member.head
      rw [List.map_cons, List.cons_append, useItemsFrom, Slot.text, itemContent_slot hb hm,
        memberContentSpan_slot hb hm, if_neg (by simp [hc]),
        ih _ fun s hs => hslots s (List.mem_cons_of_mem _ hs)]
      rfl

/-! ## Reading the declaration -/

theorem takeWhile_ne_append {c : Char} {s r : Text} (h : c ∉ s) :
    (s ++ c :: r).takeWhile (· != c) = s := by
  rw [List.takeWhile_append_of_pos, List.takeWhile_cons_of_neg (by simp), List.append_nil]
  intro d hd
  exact bne_iff_ne.mpr fun hdc => h (hdc ▸ hd)

theorem notMem_of_not_isPunctuation {c : Char} (hc : isPunctuation c = true) {s : Text}
    (h : ∀ d ∈ s, isPunctuation d = false) : c ∉ s := by
  intro hmem
  rw [h c hmem] at hc
  cases hc

theorem mem_intercalate_comma {pieces : List Text} {c : Char}
    (h : c ∈ [','].intercalate pieces) : c = ',' ∨ ∃ p ∈ pieces, c ∈ p := by
  induction pieces with
  | nil => cases h
  | cons p pieces ih =>
      rw [intercalate_cons_flatMap, List.mem_append, List.mem_flatMap] at h
      rcases h with h | ⟨q, hq, h⟩
      · exact .inr ⟨p, List.mem_cons_self .., h⟩
      · rcases List.mem_append.mp h with h | h
        · exact .inl (List.mem_singleton.mp h)
        · exact .inr ⟨q, List.mem_cons_of_mem _ hq, h⟩

theorem notMem_intercalate {pieces : List Text} {c : Char} (hcomma : c ≠ ',')
    (hc : isPunctuation c = true) (h : ∀ p ∈ pieces, ∀ d ∈ p, isPunctuation d = false) :
    c ∉ [','].intercalate pieces := by
  intro hmem
  rcases mem_intercalate_comma hmem with hmem | ⟨p, hp, hmem⟩
  · exact hcomma hmem
  · exact notMem_of_not_isPunctuation hc (h p hp) hmem

theorem rfindChar_append {c : Char} {s r : Text} (h : c ∉ r) :
    rfindChar c (s ++ c :: r) = some s.length := by
  have hidx : (r.reverse ++ c :: s.reverse).findIdx? (· == c) = some r.length := by
    rw [List.findIdx?_append, List.findIdx?_eq_none_iff.mpr]
    · simp [List.findIdx?_cons]
    · intro d hd
      exact beq_eq_false_iff_ne.mpr fun hdc => h (hdc ▸ List.mem_reverse.mp hd)
  have hrev : (s ++ c :: r).reverse = r.reverse ++ c :: s.reverse := by simp
  rw [rfindChar, hrev, hidx, Option.map_some, List.length_append, List.length_cons]
  congr 1
  omega

theorem findIdx?_char_append {c : Char} {s r : Text} (h : c ∉ s) :
    (s ++ c :: r).findIdx? (· == c) = some s.length := by
  rw [List.findIdx?_append, List.findIdx?_eq_none_iff.mpr]
  · simp [List.findIdx?_cons]
  · intro d hd
    exact beq_eq_false_iff_ne.mpr fun hdc => h (hdc ▸ hd)

/-- A keyword without a brace is stripped from the part before the brace. -/
theorem stripPrefix_append {start a r : Text} {c : Char} (hc : c ∉ start) :
    stripPrefix start (a ++ c :: r) = (stripPrefix start a).map (· ++ c :: r) := by
  induction start generalizing a with
  | nil => simp [stripPrefix]
  | cons x start ih =>
      have hx : x ≠ c := fun hx => hc (hx ▸ List.mem_cons_self ..)
      have hs : c ∉ start := fun hs => hc (List.mem_cons_of_mem _ hs)
      cases a with
      | nil => simp [stripPrefix, hx]
      | cons y a =>
          have := ih (a := a) hs
          by_cases hxy : x = y
          · simpa [stripPrefix, hxy, List.cons_prefix_cons] using this
          · simp [stripPrefix, hxy, List.cons_prefix_cons]

theorem trimStart_append {a r : Text} {c : Char} (hc : isWhitespace c = false) :
    trimStart (a ++ c :: r) = trimStart a ++ c :: r := by
  apply dropWhile_append_of_head
  intro d hd
  cases hd
  exact hc

/-- What is stripped from a group stands before its brace. -/
theorem useStatementBody_append {a r : Text} :
    useStatementBody (a ++ '\x7b' :: r) = (useStatementBody a).map (· ++ '\x7b' :: r) := by
  have hws : isWhitespace '\x7b' = false := by decide
  rw [useStatementBody, useStatementBody, stripPrefix_append (by decide), Option.map_map,
    Option.map_map]
  congr 1
  funext body
  simp only [Function.comp_apply]
  rw [trimStart_append hws, stripPrefix_append (by decide), stripPrefix_append (by decide)]
  rcases stripPrefix "function ".toList (trimStart body) with _ | x
  · rcases stripPrefix "const ".toList (trimStart body) with _ | x
    · exact trimStart_append hws
    · exact trimStart_append hws
  · exact trimStart_append hws

theorem length_le_of_useStatementBody {a body : Text} (h : useStatementBody a = some body) :
    body.length ≤ a.length := by
  have hstrip : ∀ {start text rest : Text}, stripPrefix start text = some rest →
      rest.length ≤ text.length := by
    intro start text rest h
    unfold stripPrefix at h
    split_ifs at h
    rw [← Option.some.inj h, List.length_drop]
    omega
  have htrim : ∀ text : Text, (trimStart text).length ≤ text.length := fun text =>
    (List.dropWhile_suffix _).length_le
  obtain ⟨stripped, hs, rfl⟩ := Option.map_eq_some_iff.mp h
  have hkind : (((stripPrefix "function ".toList (trimStart stripped)).or
      (stripPrefix "const ".toList (trimStart stripped))).getD (trimStart stripped)).length ≤
        (trimStart stripped).length := by
    rcases hf : stripPrefix "function ".toList (trimStart stripped) with _ | x
    · rcases hk : stripPrefix "const ".toList (trimStart stripped) with _ | x
      · exact le_refl _
      · exact hstrip hk
    · exact hstrip hf
  exact (htrim _).trans (hkind.trans ((htrim _).trans (hstrip hs)))

/-- The prefix that `find_use_member` takes from a group's opening. -/
def groupPrefix (body : Text) : Text :=
  ((trim body).rdropWhile (· == '\\')).dropWhile (· == '\\')

/-- A group is read between its braces. -/
theorem useItems_group {a l r body : Text} (ha : '\x7b' ∉ a) (hr : '\x7d' ∉ r)
    (hbody : useStatementBody a = some body) :
    useItems (a ++ '\x7b' :: (l ++ '\x7d' :: r)) =
      some (groupPrefix (a.drop (a.length - body.length)),
        useItemsFrom (a.length + 1) (l.splitOn ',')) := by
  have hle := length_le_of_useStatementBody hbody
  have hclose : rfindChar '\x7d' (a ++ '\x7b' :: (l ++ '\x7d' :: r)) =
      some (a.length + 1 + l.length) := by
    have := rfindChar_append (s := a ++ '\x7b' :: l) hr
    simpa [Nat.add_comm, Nat.add_left_comm, Nat.add_assoc] using this
  have hstart : (a ++ '\x7b' :: (l ++ '\x7d' :: r)).length -
      (body ++ '\x7b' :: (l ++ '\x7d' :: r)).length = a.length - body.length := by
    simp only [List.length_append, List.length_cons]
    omega
  have htake : (a ++ '\x7b' :: (l ++ '\x7d' :: r)).take (a.length + 1 + l.length) =
      a ++ '\x7b' :: l := by
    have hlen : a.length + 1 + l.length = (a ++ '\x7b' :: l).length := by
      simp only [List.length_append, List.length_cons]
      omega
    have happ : a ++ '\x7b' :: (l ++ '\x7d' :: r) = a ++ '\x7b' :: l ++ '\x7d' :: r := by simp
    rw [hlen, happ, List.take_left]
  have hdrop : (a ++ '\x7b' :: l).drop (a.length + 1) = l := by
    have hlen : a.length + 1 = (a ++ ['\x7b']).length := by simp
    have happ : a ++ '\x7b' :: l = a ++ ['\x7b'] ++ l := by simp
    rw [hlen, happ, List.drop_left]
  rw [useItems, useStatementBody_append, hbody, Option.map_some, Option.bind_some]
  dsimp only
  rw [findIdx?_char_append ha, hclose, hstart]
  dsimp only [Option.bind_some]
  rw [if_neg (by omega), if_neg (by omega), htake, hdrop, List.take_left]
  rfl

/-- A list without a group is read from behind the words it opens with. -/
theorem useItems_list {w body : Text} (hbrace : '\x7b' ∉ w ++ body)
    (hbody : useStatementBody (w ++ body) = some body) :
    useItems (w ++ body) = some ([], useItemsFrom w.length (body.splitOn ',')) := by
  have hnone : (w ++ body).findIdx? (· == '\x7b') = none := by
    rw [List.findIdx?_eq_none_iff]
    intro d hd
    exact beq_eq_false_iff_ne.mpr fun hdc => hbrace (hdc ▸ hd)
  have hlen : (w ++ body).length - body.length = w.length := by
    rw [List.length_append, Nat.add_sub_cancel]
  rw [useItems, hbody, Option.bind_some]
  dsimp only
  rw [hnone, hlen]
  dsimp only
  rw [List.drop_left]

/-! ## The words before a list -/

def isNameChar (c : Char) : Bool := isLabelChar c || c == '\\'

theorem Name.takeWhile_append (n : Name) {z : Text} (hz : ∀ c ∈ z.head?, isNameChar c = false) :
    (n.text ++ z).takeWhile isNameChar = n.text := by
  have hall : ∀ c ∈ n.text, isNameChar c = true := by
    intro c hc
    rcases Name.char_mem hc with h | rfl
    · simp [isNameChar, h]
    · decide
  rw [takeWhile_append_of_head hz, List.takeWhile_eq_self_iff.mpr hall]

/-- No name is a reserved word. -/
theorem Name.text_ne {n : Name} {word : Text} (hres : isReserved word = true) (hslash : '\\' ∉ word) :
    n.text ≠ word := by
  intro h
  have hrooted : n.rooted = false := by
    rw [Bool.eq_false_iff]
    intro hr
    exact hslash (h ▸ by simp [Name.text, hr])
  have hrest : n.rest = [] := by
    cases hrest : n.rest with
    | nil => rfl
    | cons l rest => exact absurd (h ▸ by simp [Name.text, hrest]) hslash
  have hfirst : n.first.chars = word := by simpa [Name.text, hrooted, hrest] using h
  have := n.notReserved hrooted hrest
  rw [hfirst, hres] at this
  cases this

theorem Gap.head_not_isNameChar {g : Gap} {z : Text} (hz : ∀ c ∈ z.head?, isNameChar c = false) :
    ∀ c ∈ (g.text ++ z).head?, isNameChar c = false := by
  intro c hc
  cases g with
  | nil => exact hz c hc
  | cons t g =>
      cases t with
      | space | tab => cases hc; decide
      | newline nl => cases nl <;> cases hc <;> decide
      | line comment nl =>
          simp only [Gap.text_cons, Trivia.text, LineText.marker] at hc
          split at hc <;> cases hc <;> decide
      | block comment => cases hc; decide

theorem Member.asClause_head (m : Member) {z : Text} (hz : ∀ c ∈ z.head?, isNameChar c = false) :
    ∀ c ∈ (m.aliasText ++ z).head?, isNameChar c = false := by
  unfold Member.aliasText
  split
  · exact hz
  · next clause _ =>
      intro c hc
      obtain ⟨d, rest, hd⟩ := List.exists_cons_of_ne_nil clause.before.nonempty
      have hspace := clause.before.spaces d (hd ▸ List.mem_cons_self ..)
      rw [AsClause.text, hd] at hc
      cases hc
      simp only [isPhpSpace, Bool.or_eq_true, beq_iff_eq] at hspace
      rcases hspace with ((rfl | rfl) | rfl) | rfl <;> decide

/-- What a member without a kind is followed by does not make it a kind. -/
theorem Member.stripPrefix_eq_none {m : Member} (hkind : m.kind = none) {word z : Text}
    (hres : isReserved word = true) (hword : ∀ c ∈ word, isNameChar c = true)
    (hslash : '\\' ∉ word) (hz : ∀ c ∈ z.head?, isNameChar c = false) :
    stripPrefix (word ++ [' ']) (m.text ++ z) = none := by
  unfold stripPrefix
  rw [if_neg]
  rintro ⟨q, hq⟩
  have htext : m.text ++ z = m.name.text ++ (m.aliasText ++ z) := by
    simp [Member.text, Member.kindText, hkind]
  have hleft : (word ++ [' '] ++ q).takeWhile isNameChar = word := by
    rw [List.append_assoc, takeWhile_append_of_head (by intro c hc; cases hc; decide),
      List.takeWhile_eq_self_iff.mpr hword]
  rw [hq, htext, Name.takeWhile_append _ (m.asClause_head hz)] at hleft
  exact Name.text_ne hres hslash hleft

theorem trimStart_trimStart (text : Text) : trimStart (trimStart text) = trimStart text :=
  List.dropWhile_idempotent ..

/-- The gap before a member, trimmed, is empty or starts with a comment. -/
theorem trimStart_gap {g : Gap} {m : Member} (hm : m.IsClean) (z : Text) :
    trimStart (g.text ++ m.text ++ z) = m.text ++ z ∨
      ∃ o ∈ openers, o <+: trimStart (g.text ++ m.text ++ z) := by
  obtain ⟨w, r, hg, hw, hr⟩ := g.text_split
  have hskip : trimStart (g.text ++ m.text ++ z) = trimStart (r ++ (m.text ++ z)) := by
    rw [hg, List.append_assoc, List.append_assoc]
    exact dropWhile_append_of_all fun c hc => isWhitespace_of_isPhpSpace (hw c hc)
  rcases hr with rfl | ⟨o, ho, r, rfl⟩
  · left
    obtain ⟨c, rest, hc, -⟩ := m.head
    rw [hskip, List.nil_append, trimStart, hc]
    exact List.dropWhile_cons_of_neg (by simp [hm.1 c (by rw [hc]; rfl)])
  · right
    refine ⟨o, ho, ?_⟩
    have htrim : trimStart (o ++ r ++ (m.text ++ z)) = o ++ r ++ (m.text ++ z) := by
      simp only [openers, List.mem_cons, List.not_mem_nil, or_false] at ho
      rcases ho with rfl | rfl | rfl <;> exact List.dropWhile_cons_of_neg (by decide)
    rw [hskip, htrim, List.append_assoc]
    exact List.prefix_append ..

/-- The words before a list are stripped, whether it has a kind or not. -/
theorem useStatementBody_plain {u : UseStatement} (h : u.IsClean) {y : Text}
    (hplain : u.form.isPlain = true)
    (hy : u.form.words.1 = none → ∀ word ∈ ["function".toList, "const".toList],
      stripPrefix (word ++ [' ']) (trimStart y) = none) :
    useStatementBody (u.opening ++ ' ' :: y) = some (trimStart y) := by
  have hclean := h.form
  rw [UseStatement.opening, h.useWord]
  cases hf : u.form with
  | group => rw [hf] at hplain; cases hplain
  | plain kind =>
      rw [hf] at hclean hy
      rcases kind with _ | ⟨gap, kind⟩
      · have huse : stripPrefix "use ".toList ("use".toList ++ [] ++ ' ' :: y) = some y := by
          simp [stripPrefix]
        have hfunction := hy rfl "function".toList (by simp)
        have hconst := hy rfl "const".toList (by simp)
        have hfunction' : stripPrefix "function ".toList (trimStart y) = none := hfunction
        have hconst' : stripPrefix "const ".toList (trimStart y) = none := hconst
        rw [Form.opening, useStatementBody, huse, Option.map_some]
        dsimp only
        rw [hfunction', hconst', Option.or_none, Option.getD_none, trimStart_trimStart]
      · obtain ⟨hspace, hbare, hlower⟩ := hclean
        obtain ⟨gap, rfl⟩ : ∃ gap', gap = .space :: gap' := by
          cases gap with
          | nil => cases hspace
          | cons t gap' => exact ⟨gap', by rw [Option.some.inj hspace]⟩
        have huse : stripPrefix "use ".toList
            ("use".toList ++ (Gap.text (.space :: gap) ++ kind.text) ++ ' ' :: y) =
              some (Gap.text gap ++ (kind.text ++ ' ' :: y)) := by
          simp [stripPrefix, Trivia.text]
        have hws : ∀ c ∈ Gap.text gap, isWhitespace c = true := fun c hc =>
          isWhitespace_of_isPhpSpace (isPhpSpace_of_isBare hbare
            (by rw [Gap.text_cons]; exact List.mem_append_right _ hc))
        have htrim : trimStart (Gap.text gap ++ (kind.text ++ ' ' :: y)) =
            trimStart (kind.text ++ ' ' :: y) := dropWhile_append_of_all hws
        rw [Form.opening, useStatementBody, huse, Option.map_some]
        dsimp only
        rw [htrim]
        cases kind with
        | function word =>
            have hlower : word.chars = "function".toList := hlower
            rw [KindWord.text, hlower]
            rfl
        | const word =>
            have hlower : word.chars = "const".toList := hlower
            rw [KindWord.text, hlower]
            rfl

/-! ## The list of a declaration -/

theorem memberContentSpan_cons {c : Char} (hc : isWhitespace c = true) (item : Text) :
    memberContentSpan (c :: item) =
      ((memberContentSpan item).1 + 1, (memberContentSpan item).2 + 1) := by
  rw [memberContentSpan, memberContentSpan, leading_cons hc]
  rcases leading item with _ | start
  · rfl
  · have hdrop : (c :: item).drop (1 + start) = item.drop start := by rw [Nat.add_comm]; rfl
    simp only [Option.map_some, hdrop, Prod.mk.injEq]
    omega

/-- Whitespace at the start of the first item can be counted to what is before. -/
theorem useItemsFrom_skip {w : Text} (hw : ∀ c ∈ w, isWhitespace c = true) (offset : Nat)
    (item : Text) (rest : List Text) :
    useItemsFrom offset ((w ++ item) :: rest) = useItemsFrom (offset + w.length) (item :: rest) := by
  induction w generalizing offset with
  | nil => rfl
  | cons c w ih =>
      have hc := hw c (List.mem_cons_self ..)
      have hspan := memberContentSpan_cons hc (w ++ item)
      have hcontent : itemContent (c :: (w ++ item)) = itemContent (w ++ item) := by
        rw [itemContent, hspan]
        rfl
      have hone : useItemsFrom offset ((c :: (w ++ item)) :: rest) =
          useItemsFrom (offset + 1) ((w ++ item) :: rest) := by
        have hoffset : offset + (c :: (w ++ item)).length + 1 =
            offset + 1 + (w ++ item).length + 1 := by
          rw [List.length_cons]
          omega
        rw [useItemsFrom, useItemsFrom, hcontent, hspan, hoffset]
        simp only [Nat.add_assoc, Nat.add_comm 1]
      rw [List.cons_append, hone, ih fun d hd => hw d (List.mem_cons_of_mem _ hd), List.length_cons]
      congr 1
      omega

/-- What the prefix of a group is read from. -/
def openingPrefix (a : Text) : Text :=
  groupPrefix (a.drop (a.length - ((useStatementBody a).getD []).length))

namespace UseStatement

/-- The prefix `find_use_member` reads. -/
def listPrefix (u : UseStatement) : Text :=
  if u.form.isPlain then [] else openingPrefix (u.useWord.chars ++ u.form.head)

/-- A list without braces starts behind a blank, and not with a word taken for a
kind. -/
def StartsList (u : UseStatement) (pieces : List Text) : Prop :=
  u.form.isPlain = true → ∃ p ps, pieces = (' ' :: p) :: ps ∧ trimStart p ≠ [] ∧
    (u.form.words.1 = none → ∀ word ∈ ["function".toList, "const".toList],
      stripPrefix (word ++ [' ']) (trimStart p ++ ps.flatMap ([','] ++ ·)) = none)

/-- What `find_use_member` reads in the opening of a clean statement followed by
some pieces. -/
theorem useItems_pieces {u : UseStatement} (h : u.IsClean) {pieces : List Text}
    (hne : pieces ≠ []) (hpieces : ∀ p ∈ pieces, ∀ c ∈ p, isPunctuation c = false)
    (hstart : u.StartsList pieces) :
    useItems ((u.opening ++ [','].intercalate pieces ++ u.form.closing).takeWhile (· != ';')) =
      some (u.listPrefix, useItemsFrom u.opening.length pieces) := by
  have hcomma : ∀ p ∈ pieces, ',' ∉ p := fun p hp =>
    notMem_of_not_isPunctuation (by decide) (hpieces p hp)
  have hsemi := notMem_intercalate (c := ';') (by decide) (by decide) hpieces
  have hbrace := notMem_intercalate (c := '\x7b') (by decide) (by decide) hpieces
  have hhead : ∀ c, isPunctuation c = true → c ∉ u.useWord.chars ++ u.form.head := by
    intro c hc hmem
    rcases List.mem_append.mp hmem with hmem | hmem
    · have huse : "use".toList.all (fun c => !isPunctuation c) = true := by decide
      rw [h.useWord] at hmem
      have := List.all_eq_true.mp huse c hmem
      rw [hc] at this
      cases this
    · rw [Form.head_not_isPunctuation h.form hmem] at hc
      cases hc
  cases hf : u.form with
  | group afterUse kind pre beforeSlash beforeBrace trailing beforeEnd =>
      have hclean := h.form
      rw [hf] at hclean hhead
      have hend : ∀ c, isPunctuation c = true → c ∉ beforeEnd.text := fun c hc =>
        notMem_of_not_isPunctuation hc fun d hd =>
          Gap.IsClean.not_isPunctuation hclean.2.2.2.2.2.2 hd
      have hopening : u.opening = u.useWord.chars ++ (u.form.head ++ ['\x7b']) := by
        rw [UseStatement.opening, hf]
        rfl
      have hdecl : (u.opening ++ [','].intercalate pieces ++ (Form.group afterUse kind pre
          beforeSlash beforeBrace trailing beforeEnd).closing).takeWhile (· != ';') =
            u.useWord.chars ++ u.form.head ++
              '\x7b' :: ([','].intercalate pieces ++ '\x7d' :: beforeEnd.text) := by
        have hsplit : u.opening ++ [','].intercalate pieces ++ (Form.group afterUse kind pre
            beforeSlash beforeBrace trailing beforeEnd).closing =
              (u.useWord.chars ++ u.form.head ++
                '\x7b' :: ([','].intercalate pieces ++ '\x7d' :: beforeEnd.text)) ++ [';'] := by
          rw [hopening]
          simp [Form.closing]
        rw [hsplit]
        apply takeWhile_ne_append
        rw [hf]
        intro hmem
        rcases List.mem_append.mp hmem with hmem | hmem
        · exact hhead ';' (by decide) hmem
        rcases List.mem_cons.mp hmem with hmem | hmem
        · revert hmem; decide
        rcases List.mem_append.mp hmem with hmem | hmem
        · exact hsemi hmem
        rcases List.mem_cons.mp hmem with hmem | hmem
        · revert hmem; decide
        · exact hend ';' (by decide) hmem
      obtain ⟨body, hbody⟩ : ∃ body, useStatementBody (u.useWord.chars ++ u.form.head) = some body := by
        obtain ⟨gap, hgap⟩ : ∃ gap, afterUse = .space :: gap := by
          cases afterUse with
          | nil => cases hclean.1
          | cons t gap => exact ⟨gap, by rw [Option.some.inj hclean.1]⟩
        have huse : (stripPrefix "use ".toList (u.useWord.chars ++ u.form.head)).isSome := by
          rw [h.useWord, hf]
          simp [stripPrefix, Form.head, hgap, Trivia.text]
        obtain ⟨z, hz⟩ := Option.isSome_iff_exists.mp huse
        exact ⟨_, by rw [useStatementBody, hz, Option.map_some]⟩
      rw [hdecl, useItems_group (by rw [hf]; exact hhead _ (by decide)) (hend _ (by decide)) hbody,
        List.splitOn_intercalate _ hcomma hne]
      have hlength : (u.useWord.chars ++ u.form.head).length + 1 = u.opening.length := by
        rw [hopening]
        simp only [List.length_append, List.length_cons, List.length_nil]
        omega
      have hpre : u.listPrefix = openingPrefix (u.useWord.chars ++ u.form.head) := by
        rw [listPrefix, hf]
        rfl
      rw [hlength, hpre, openingPrefix, hbody, Option.getD_some]
  | plain kind =>
      obtain ⟨p, ps, rfl, htrim, hkind⟩ := hstart (by rw [hf]; rfl)
      have hsplit : [','].intercalate ((' ' :: p) :: ps) = ' ' :: (p ++ ps.flatMap ([','] ++ ·)) := by
        rw [intercalate_cons_flatMap, List.cons_append]
      have htrimStart : trimStart (p ++ ps.flatMap ([','] ++ ·)) =
          trimStart p ++ ps.flatMap ([','] ++ ·) := by
        rw [trimStart, List.dropWhile_append, if_neg]
        · rfl
        · rw [List.isEmpty_iff]
          exact htrim
      have hbody := useStatementBody_plain h (y := p ++ ps.flatMap ([','] ++ ·)) (by rw [hf]; rfl)
        (by rw [htrimStart]; exact hkind)
      have hopening : u.opening = u.useWord.chars ++ u.form.head := by
        rw [UseStatement.opening, hf]
        rfl
      have hdecl : (u.opening ++ [','].intercalate ((' ' :: p) :: ps) ++
          (Form.plain kind).closing).takeWhile (· != ';') =
            u.opening ++ ' ' :: p.takeWhile isWhitespace ++
              (trimStart p ++ ps.flatMap ([','] ++ ·)) := by
        rw [Form.closing, takeWhile_ne_append, hsplit]
        · simp only [List.append_assoc, List.cons_append, trimStart]
          rw [← List.append_assoc (p.takeWhile isWhitespace), List.takeWhile_append_dropWhile]
        · intro hmem
          rcases List.mem_append.mp hmem with hmem | hmem
          · exact hhead ';' (by decide) (hopening ▸ hmem)
          · exact hsemi hmem
      have happ : u.opening ++ ' ' :: (p ++ ps.flatMap ([','] ++ ·)) =
          u.opening ++ ' ' :: p.takeWhile isWhitespace ++
            (trimStart p ++ ps.flatMap ([','] ++ ·)) := by
        simp only [List.append_assoc, List.cons_append, trimStart]
        rw [← List.append_assoc (p.takeWhile isWhitespace), List.takeWhile_append_dropWhile]
      have hnoBrace : '\x7b' ∉ u.opening ++ ' ' :: p.takeWhile isWhitespace ++
          (trimStart p ++ ps.flatMap ([','] ++ ·)) := by
        rw [← happ, ← hsplit]
        intro hmem
        rcases List.mem_append.mp hmem with hmem | hmem
        · exact hhead '\x7b' (by decide) (hopening ▸ hmem)
        · exact hbrace hmem
      have hitems : (trimStart p ++ ps.flatMap ([','] ++ ·)).splitOn ',' = trimStart p :: ps := by
        rw [← intercalate_cons_flatMap]
        apply List.splitOn_intercalate
        · intro l hl
          rcases List.mem_cons.mp hl with rfl | hl
          · intro hmem
            exact hcomma _ (List.mem_cons_self ..)
              (List.mem_cons_of_mem _ ((List.dropWhile_suffix _).mem hmem))
          · exact hcomma l (List.mem_cons_of_mem _ hl)
        · simp
      have hws : ∀ c ∈ ' ' :: p.takeWhile isWhitespace, isWhitespace c = true := by
        intro c hc
        rcases List.mem_cons.mp hc with rfl | hc
        · decide
        · exact List.mem_takeWhile_imp hc
      have hfirst : ' ' :: p = ' ' :: p.takeWhile isWhitespace ++ trimStart p := by
        rw [List.cons_append, trimStart, List.takeWhile_append_dropWhile]
      rw [happ, htrimStart] at hbody
      rw [hdecl, useItems_list hnoBrace hbody, hitems, List.length_append, hfirst,
        useItemsFrom_skip hws]
      simp [listPrefix, hf, Form.isPlain]

end UseStatement

theorem stripPrefix_of_opener {o text word : Text} (ho : o ∈ openers) (h : o <+: text)
    (hword : word ∈ ["function".toList, "const".toList]) :
    stripPrefix (word ++ [' ']) text = none := by
  obtain ⟨rest, rfl⟩ := h
  unfold stripPrefix
  rw [if_neg]
  simp only [openers, List.mem_cons, List.not_mem_nil, or_false] at ho hword
  rcases hword with rfl | rfl <;> rcases ho with rfl | rfl | rfl <;> rintro ⟨q, hq⟩ <;> cases hq

/-- The words that would be taken for a kind are no names. -/
theorem Member.stripPrefix_kind {m : Member} (hkind : m.kind = none) {word z : Text}
    (hword : word ∈ ["function".toList, "const".toList])
    (hz : ∀ c ∈ z.head?, isNameChar c = false) : stripPrefix (word ++ [' ']) (m.text ++ z) = none := by
  simp only [List.mem_cons, List.not_mem_nil, or_false] at hword
  rcases hword with rfl | rfl
  · exact m.stripPrefix_eq_none hkind (by decide) (List.all_eq_true.mp (by decide)) (by decide) hz
  · exact m.stripPrefix_eq_none hkind (by decide) (List.all_eq_true.mp (by decide)) (by decide) hz

theorem commas_head (ps : List Text) : ∀ c ∈ (ps.flatMap ([','] ++ ·)).head?, isNameChar c = false := by
  intro c hc
  cases ps with
  | nil => cases hc
  | cons q ps => cases hc; decide

namespace UseStatement

theorem startsList {u : UseStatement} {s : Slot} {r : List Slot} (hm : s.member.IsClean)
    (hslots : u.slots = s :: r) (hspace : u.form.isPlain = true → s.before.head? = some .space)
    (pieces : List Text) : u.StartsList (s.text :: pieces) := by
  intro hplain
  obtain ⟨g, hg⟩ : ∃ g, s.before = .space :: g := by
    have hspace := hspace hplain
    cases hb : s.before with
    | nil => rw [hb] at hspace; cases hspace
    | cons t g => rw [hb] at hspace; exact ⟨g, by rw [Option.some.inj hspace]⟩
  have hkind : s.member.kind = none := by
    have hfits := u.fits
    cases hf : u.form with
    | group => rw [hf] at hplain; cases hplain
    | plain kind =>
        rw [hf] at hfits
        exact hfits.2.2 s (by rw [hslots]; exact List.mem_cons_self ..)
  refine ⟨Gap.text g ++ s.member.text ++ s.after.text, pieces, ?_, ?_, ?_⟩
  · simp [Slot.text, hg, Trivia.text]
  · rcases trimStart_gap (g := g) hm s.after.text with h | ⟨o, ho, h⟩
    · obtain ⟨c, rest, hc, -⟩ := s.member.head
      rw [h, hc]
      simp
    · intro hnil
      rw [hnil, List.prefix_nil] at h
      subst h
      revert ho
      decide
  · intro _ word hword
    rcases trimStart_gap (g := g) hm s.after.text with h | ⟨o, ho, h⟩
    · rw [h, List.append_assoc]
      exact Member.stripPrefix_kind hkind hword (Gap.head_not_isNameChar (commas_head _))
    · exact stripPrefix_of_opener ho (h.trans (List.prefix_append ..)) hword

/-- In a clean statement `find_use_member` goes through the members, each at its
place. -/
theorem useItems_decl {u : UseStatement} (h : u.IsClean) :
    useItems u.decl = some (u.listPrefix, slotItems u.opening.length u.slots) := by
  obtain ⟨s, r, hslots⟩ := List.exists_cons_of_ne_nil u.nonempty
  have hpieces : u.pieces = s.text :: (r.map Slot.text ++ u.form.trailing.toList.map Gap.text) := by
    rw [pieces, hslots]
    rfl
  have hspace : u.form.isPlain = true → s.before.head? = some .space := fun hplain =>
    h.start hplain s (by rw [hslots]; rfl)
  have hm := (h.slots s (by rw [hslots]; exact List.mem_cons_self ..)).2.1
  have hread := @useItems_pieces u h u.pieces (by rw [hpieces]; simp) h.pieces
    (by rw [hpieces]; exact startsList hm hslots hspace _)
  rw [decl, text, hread]
  exact congrArg (fun items => some (u.listPrefix, items)) (useItemsFrom_slots _
    (fun s hs => ⟨(h.slots s hs).1, (h.slots s hs).2.1⟩)
    fun g hg => h.trailing g (Option.mem_toList.mp hg))

end UseStatement

end PhpantomLsp.Imports
