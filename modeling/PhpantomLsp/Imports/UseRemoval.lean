import PhpantomLsp.Imports.UseDeletion

/-!
# Statements without one of their members

Where the comma that goes with a member is in reach, what is left of a clean
statement is a clean statement of the other members
(`keepsOthers_of_removable`).  Elsewhere it need not be a statement at all
(`deletion_swallows_brace`).
-/

namespace PhpantomLsp.Imports

open PhpantomLsp.Lib
open PhpantomLsp (isAsciiWhitespace)

/-! ## Statements with other slots -/

namespace Form

/-- The form with another gap behind a trailing comma, or with no trailing comma. -/
def withTrailing (form : Form) (gap : Option Gap) : Form :=
  match form with
  | .plain kind => .plain kind
  | .group afterUse kind pre beforeSlash beforeBrace _ beforeEnd =>
      .group afterUse kind pre beforeSlash beforeBrace gap beforeEnd

variable (form : Form) (gap : Option Gap)

@[simp] theorem withTrailing_trailing : form.withTrailing form.trailing = form := by
  cases form <;> rfl

@[simp] theorem isPlain_withTrailing : (form.withTrailing gap).isPlain = form.isPlain := by
  cases form <;> rfl

@[simp] theorem opening_withTrailing : (form.withTrailing gap).opening = form.opening := by
  cases form <;> rfl

@[simp] theorem closing_withTrailing : (form.withTrailing gap).closing = form.closing := by
  cases form <;> rfl

@[simp] theorem head_withTrailing : (form.withTrailing gap).head = form.head := by
  cases form <;> rfl

theorem closing_head : ∃ c rest, form.closing = c :: rest ∧
    isAsciiWhitespace c = false ∧ c ≠ ',' := by
  cases form with
  | plain kind => exact ⟨';', [], rfl, by decide, by decide⟩
  | group afterUse kind pre beforeSlash beforeBrace trailing beforeEnd =>
      exact ⟨'\x7d', beforeEnd.text ++ [';'], rfl, by decide, by decide⟩

theorem trailing_withTrailing (h : form.isPlain = false) :
    (form.withTrailing gap).trailing = gap := by
  cases form with
  | plain kind => cases h
  | group => rfl

variable {form gap}

theorem isPlain_of_trailing {g : Gap} (h : form.trailing = some g) :
    form.isPlain = false := by
  cases form with
  | plain kind => cases h
  | group => rfl

theorem IsClean.withTrailing (h : form.IsClean) (hgap : ∀ g ∈ gap, g.IsClean) :
    (form.withTrailing gap).IsClean := by
  cases form with
  | plain kind => exact h
  | group afterUse kind pre beforeSlash beforeBrace trailing beforeEnd =>
      obtain ⟨hspace, hafter, hkind, hslash, hbrace, -, hend⟩ := h
      exact ⟨hspace, hafter, hkind, hslash, hbrace, hgap, hend⟩

/-- The members fit a form, and the first gap of a list must not be empty. -/
theorem Fits.withTrailing {slots slots' : List Slot} (h : form.Fits slots)
    (hmembers : ∀ s' ∈ slots', ∃ s ∈ slots, s'.member = s.member)
    (hfirst : form.isPlain = true → ∀ s ∈ slots'.head?, s.before ≠ []) :
    (form.withTrailing gap).Fits slots' := by
  cases form with
  | plain kind =>
      refine ⟨h.1, hfirst rfl, ?_⟩
      intro s' hs'
      obtain ⟨s, hs, hmember⟩ := hmembers s' hs'
      rw [hmember]
      exact h.2.2 s hs
  | group afterUse kind pre beforeSlash beforeBrace trailing beforeEnd =>
      refine ⟨h.1, h.2.1, ?_⟩
      intro s' hs'
      obtain ⟨s, hs, hmember⟩ := hmembers s' hs'
      rw [hmember]
      exact h.2.2 s hs

end Form

namespace UseStatement

/-- A statement that is the other one but for its slots and its trailing gap. -/
structure Mends (u' u : UseStatement) (gap : Option Gap) (slots : List Slot) : Prop where
  clean : u'.IsClean
  useWord : u'.useWord = u.useWord
  form : u'.form = u.form.withTrailing gap
  slots : u'.slots = slots

/-- A slot that a clean statement may hold: clean, with a member of its own. -/
def Admits (u : UseStatement) (s' : Slot) : Prop :=
  (∃ s ∈ u.slots, s'.member = s.member) ∧ s'.before.IsClean ∧ s'.after.IsClean

theorem IsClean.admits {u : UseStatement} (h : u.IsClean) {s : Slot} (hs : s ∈ u.slots) :
    u.Admits s := ⟨⟨s, hs, rfl⟩, (h.slots s hs).1, (h.slots s hs).2.2⟩

/-- The slots and the trailing gap of a clean statement may be replaced by others that are
clean and hold members of its own. -/
theorem exists_mended {u : UseStatement} (h : u.IsClean) {slots : List Slot} (gap : Option Gap)
    (hne : slots ≠ []) (hadmits : ∀ s' ∈ slots, u.Admits s')
    (hfirst : u.form.isPlain = true → ∀ s ∈ slots.head?, s.before.head? = some .space)
    (hgap : ∀ g ∈ gap, g.IsClean) :
    ∃ u' : UseStatement, u'.Mends u gap slots := by
  have hfits : (u.form.withTrailing gap).Fits slots :=
    u.fits.withTrailing (fun s' hs' => (hadmits s' hs').1) fun hplain s hs hnil => by
      have hspace := hfirst hplain s hs
      rw [hnil] at hspace
      cases hspace
  refine ⟨⟨u.useWord, u.form.withTrailing gap, slots, hne, hfits⟩, ?_, rfl, rfl, rfl⟩
  refine ⟨h.useWord, h.form.withTrailing hgap, ?_, ?_⟩
  · intro hplain
    exact hfirst (by simpa using hplain)
  · intro s' hs'
    obtain ⟨⟨s, hs, hmember⟩, hbefore, hafter⟩ := hadmits s' hs'
    refine ⟨hbefore, ?_, hafter⟩
    rw [hmember]
    exact (h.slots s hs).2.1

/-- The text in front of a slot. -/
def before (u : UseStatement) (l : List Slot) : Text :=
  u.opening ++ (l.map Slot.text).flatMap (· ++ [','])

/-- The text behind a slot. -/
def behind (u : UseStatement) (r : List Slot) : Text :=
  (r.map Slot.text ++ u.form.trailing.toList.map Gap.text).flatMap ([','] ++ ·) ++ u.form.closing

theorem text_eq {u : UseStatement} {l r : List Slot} {s : Slot} (h : u.slots = l ++ s :: r) :
    u.text = u.before l ++ s.text ++ u.behind r := by
  rw [text, pieces, h, List.map_append, List.map_cons, List.append_assoc (l.map Slot.text),
    List.cons_append, intercalate_append_cons, before, behind]
  simp only [List.append_assoc]

/-- The opening of a clean statement ends with neither whitespace nor a comma. -/
theorem IsClean.opening_last {u : UseStatement} (h : u.IsClean) :
    ∃ start c, u.opening = start ++ [c] ∧ isAsciiWhitespace c = false ∧ c ≠ ',' := by
  have hform := h.form
  rw [UseStatement.opening, h.useWord]
  cases hf : u.form with
  | plain kind =>
      cases kind with
      | none => exact ⟨['u', 's'], 'e', rfl, by decide, by decide⟩
      | some k =>
          obtain ⟨gap, kind⟩ := k
          rw [hf] at hform
          have hlower := hform.2.2
          cases kind with
          | function word =>
              refine ⟨"use".toList ++ (gap.text ++ "functio".toList), 'n', ?_, by decide, by decide⟩
              rw [Form.opening, KindWord.text,
                show word.chars = "functio".toList ++ ['n'] from hlower]
              simp only [List.append_assoc]
          | const word =>
              refine ⟨"use".toList ++ (gap.text ++ "cons".toList), 't', ?_, by decide, by decide⟩
              rw [Form.opening, KindWord.text, show word.chars = "cons".toList ++ ['t'] from hlower]
              simp only [List.append_assoc]
  | group afterUse kind pre beforeSlash beforeBrace trailing beforeEnd =>
      exact ⟨_, '\x7b', (List.append_assoc ..).symm, by decide, by decide⟩

/-- The text in front of a slot ends with a comma, except for the first slot. -/
theorem IsClean.before_last {u : UseStatement} (h : u.IsClean) (l : List Slot) :
    ∃ start c, u.before l = start ++ [c] ∧ isAsciiWhitespace c = false ∧ (c = ',' ↔ l ≠ []) := by
  rcases List.eq_nil_or_concat l with rfl | ⟨l', p, rfl⟩
  · obtain ⟨start, c, hopening, hc, hcomma⟩ := h.opening_last
    exact ⟨start, c, by rw [UseStatement.before, hopening]; simp, hc, by simp [hcomma]⟩
  · refine ⟨u.before l' ++ p.text, ',', ?_, by decide, by simp⟩
    simp only [UseStatement.before, List.map_append, List.flatMap_append, List.append_assoc,
      List.concat_eq_append, List.map_cons, List.map_nil, List.flatMap_cons, List.flatMap_nil,
      List.append_nil]

/-- The gap in front of what follows a slot. -/
def ahead (u : UseStatement) : List Slot → Gap
  | s :: _ => s.before
  | [] => u.form.trailing.getD []

/-- Only whitespace stands between the member and a comma behind it. -/
def CommaAhead (u : UseStatement) (s : Slot) (r : List Slot) : Prop :=
  s.after.isBare = true ∧ (r ≠ [] ∨ u.form.trailing ≠ none)

/-- Which member of a statement can be deleted: the slots in front of it, its own, and those
behind it. -/
inductive Removable (u : UseStatement) (l : List Slot) (s : Slot) (r : List Slot) : Prop where
  /-- The comma behind it is in reach, and a list still starts with a blank. -/
  | comma (hcomma : u.CommaAhead s r)
      (hspace : u.form.isPlain = true → l = [] →
        (s.before.stripBlanks ++ (u.ahead r).skipLine).head? = some .space)
  /-- The comma behind it is out of reach, and the one before it is in reach. -/
  | previous (hcomma : ¬u.CommaAhead s r) (hl : l ≠ []) (hbare : s.before.isBare = true)
  /-- It is the last of a group, the comma before it is out of reach and stays, and what is left
  of the gaps around it is a gap. -/
  | last (hl : l ≠ []) (hr : r = []) (htrailing : u.form.trailing = none)
      (hgroup : u.form.isPlain = false) (hcomment : s.before.isBare = false)
      (hgap : ∃ g : Gap, g.IsClean ∧
        Gap.text g = s.before.text.rdropWhile isAsciiWhitespace ++ s.after.text)

theorem behind_cons (u : UseStatement) (t : Slot) (r : List Slot) :
    u.behind (t :: r) = ',' :: (t.text ++ u.behind r) := by
  simp only [behind, List.map_cons, List.cons_append, List.flatMap_cons, List.nil_append,
    List.append_assoc]

theorem head_of_not_commaAhead {u : UseStatement} {s : Slot} {r : List Slot}
    (h : ¬u.CommaAhead s r) (post : Text) :
    ((s.after.text ++ (u.behind r ++ post)).dropWhile isAsciiWhitespace).head? ≠ some ',' := by
  cases hbare : s.after.isBare with
  | false => exact Gap.dropWhile_text hbare _
  | true =>
      have hnone : r = [] ∧ u.form.trailing = none := by
        by_contra hsome
        exact h ⟨hbare, by tauto⟩
      have hws : ∀ c ∈ s.after.text, isAsciiWhitespace c = true := fun c hc =>
        isAsciiWhitespace_of_isPhpSpace (isPhpSpace_of_isBare hbare hc)
      obtain ⟨c, rest, hclosing, hc, hcomma⟩ := u.form.closing_head
      rw [dropWhile_append_of_all hws, hnone.1, behind, hnone.2, List.map_nil, hclosing]
      simp only [Option.toList_none, List.map_nil, List.append_nil, List.flatMap_nil,
        List.nil_append, List.cons_append]
      rw [List.dropWhile_cons_of_neg (by simp [hc])]
      simpa using hcomma

namespace Mends

variable {u u' : UseStatement} {gap : Option Gap} {slots : List Slot}

theorem listPrefix (h : u'.Mends u gap slots) : u'.listPrefix = u.listPrefix := by
  simp only [UseStatement.listPrefix, h.useWord, h.form, Form.isPlain_withTrailing,
    Form.head_withTrailing]

theorem before (h : u'.Mends u gap slots) (l : List Slot) : u'.before l = u.before l := by
  simp only [UseStatement.before, opening, h.useWord, h.form, Form.opening_withTrailing]

theorem behind (h : u'.Mends u u.form.trailing slots) (r : List Slot) :
    u'.behind r = u.behind r := by
  simp only [UseStatement.behind, h.form, Form.withTrailing_trailing]

/-- A group with a trailing comma. -/
theorem text_trailing {g : Gap} (h : u'.Mends u (some g) slots) (hgroup : u.form.isPlain = false) :
    u'.text = u.before slots ++ Gap.text g ++ u.form.closing := by
  rw [text, pieces, h.slots, h.form, Form.trailing_withTrailing _ _ hgroup,
    Form.closing_withTrailing, Option.toList_some, List.map_cons, List.map_nil,
    intercalate_append_cons, ← h.before, UseStatement.before, List.flatMap_nil, List.append_nil]
  simp only [List.append_assoc]

end Mends

/-- What is left of a file that holds the statement when a member is deleted. -/
def deletion (u : UseStatement) (pre post : Text) (l : List Slot) (s : Slot) : Text :=
  deleteRange (pre ++ u.text ++ post) (listItemDeleteRange (pre ++ u.text ++ post)
    (pre ++ u.before l ++ s.before.text).length
    (pre ++ u.before l ++ s.before.text ++ s.member.text).length)

section Deletion

variable {u : UseStatement} {l r : List Slot} {s : Slot}

theorem mem_slots (hslots : u.slots = l ++ s :: r) {t : Slot} (ht : t ∈ l ++ r) : t ∈ u.slots := by
  rw [hslots]
  cases List.mem_append.mp ht with
  | inl ht => exact List.mem_append_left _ ht
  | inr ht => exact List.mem_append_right _ (List.mem_cons_of_mem _ ht)

/-- With the comma behind it in reach, the member goes with that comma. -/
theorem deletion_comma (h : u.IsClean) (hslots : u.slots = l ++ s :: r) (hcomma : u.CommaAhead s r)
    {z : Text} (hbehind : u.behind r = ',' :: (Gap.text (u.ahead r) ++ z))
    (hz : ∀ post, ∀ c ∈ (z ++ post).head?, Imports.isBlank c = false ∧ c ≠ '\n') (pre post : Text) :
    u.deletion pre post l s = pre ++ (u.before l ++
      Gap.text (s.before.stripBlanks ++ (u.ahead r).skipLine) ++ z) ++ post := by
  obtain ⟨start, c, hbefore, hc, -⟩ := h.before_last l
  have hx : ∀ d ∈ (pre ++ u.before l).getLast?, Imports.isBlank d = false := by
    intro d hd
    rw [hbefore, ← List.append_assoc, List.getLast?_concat] at hd
    cases hd
    exact (not_isBlank_of_not_isAsciiWhitespace hc).1
  have hcontent : pre ++ u.text ++ post = pre ++ u.before l ++ s.before.text ++ s.member.text ++
      (s.after.text ++ ',' :: (Gap.text (u.ahead r) ++ (z ++ post))) := by
    rw [text_eq hslots, hbehind, Slot.text]
    simp only [List.append_assoc, List.cons_append]
  rw [deletion, hcontent, deleteRange_comma hx hcomma.1 (hz post), Gap.text_append]
  simp only [List.append_assoc]

/-- Where the comma behind it is out of reach, the comma before it goes, if that one is. -/
theorem deletion_noComma (hslots : u.slots = l ++ s :: r) (hcomma : ¬u.CommaAhead s r)
    (pre post : Text) :
    u.deletion pre post l s =
      dropComma ((pre ++ u.before l ++ s.before.text).rdropWhile isAsciiWhitespace) ++
        (s.after.text ++ (u.behind r ++ post)) := by
  have hcontent : pre ++ u.text ++ post = pre ++ u.before l ++ s.before.text ++ s.member.text ++
      (s.after.text ++ (u.behind r ++ post)) := by
    rw [text_eq hslots, Slot.text]
    simp only [List.append_assoc]
  rw [deletion, hcontent, deleteRange_noComma (head_of_not_commaAhead hcomma post)]

/-- The statement without the member is left, in every file that holds it. -/
def Leaves (u : UseStatement) (l : List Slot) (s : Slot) (r : List Slot) (u' : UseStatement) :
    Prop :=
  u'.IsClean ∧ u'.listPrefix = u.listPrefix ∧
    u'.members = (l ++ r).map Slot.member ∧
      ∀ pre post, u.deletion pre post l s = pre ++ u'.text ++ post

theorem exists_leaves_of_comma (h : u.IsClean) (hslots : u.slots = l ++ s :: r)
    (hmany : l ++ r ≠ []) (hcomma : u.CommaAhead s r)
    (hspace : u.form.isPlain = true → l = [] →
      (s.before.stripBlanks ++ (u.ahead r).skipLine).head? = some .space) :
    ∃ u', u.Leaves l s r u' := by
  have hs := h.slots s (by rw [hslots]; simp)
  cases r with
  | cons t r =>
      have ht := h.slots t (mem_slots hslots (by simp))
      obtain ⟨merged, hmerged⟩ : ∃ merged : Slot,
          merged = ⟨s.before.stripBlanks ++ t.before.skipLine, t.member, t.after⟩ := ⟨_, rfl⟩
      have hadmits : ∀ p ∈ l ++ merged :: r, u.Admits p := by
        intro p hp
        have hcases : p = merged ∨ p ∈ l ++ t :: r := by
          simp only [List.mem_append, List.mem_cons] at hp ⊢
          tauto
        cases hcases with
        | inl heq =>
            rw [heq, hmerged]
            exact ⟨⟨t, mem_slots hslots (by simp), rfl⟩,
              hs.1.stripBlanks.append ht.1.skipLine, ht.2.2⟩
        | inr hmem => exact h.admits (mem_slots hslots hmem)
      have hfirst : u.form.isPlain = true → ∀ s ∈ (l ++ merged :: r).head?,
          s.before.head? = some .space := by
        intro hplain p hp
        cases l with
        | nil =>
            cases hp
            rw [hmerged]
            exact hspace hplain rfl
        | cons q l =>
            refine h.start hplain p ?_
            rw [hslots]
            exact hp
      obtain ⟨u', hu'⟩ := exists_mended h u.form.trailing (by simp) hadmits hfirst h.trailing
      refine ⟨u', hu'.clean, hu'.listPrefix, ?_, ?_⟩
      · rw [members, hu'.slots, List.map_append, List.map_append, List.map_cons, List.map_cons,
          hmerged]
      · intro pre post
        have hbehind : u.behind (t :: r) =
            ',' :: (Gap.text (u.ahead (t :: r)) ++
              (t.member.text ++ t.after.text ++ u.behind r)) := by
          rw [behind_cons, Slot.text, ahead]
          simp only [List.append_assoc]
        rw [deletion_comma h hslots hcomma hbehind
          (fun post => by
            rw [List.append_assoc, List.append_assoc]
            exact t.member.head_not_isBlank _),
          text_eq hu'.slots, hu'.before, hu'.behind, Slot.text, hmerged, ahead]
        simp only [List.append_assoc]
  | nil =>
      have hl : l ≠ [] := by simpa using hmany
      obtain ⟨g, hg⟩ := Option.ne_none_iff_exists'.mp (hcomma.2.resolve_left fun hne => hne rfl)
      have hgroup : u.form.isPlain = false := Form.isPlain_of_trailing hg
      have hgap : ∀ g' ∈ some (s.before.stripBlanks ++ g.skipLine), Gap.IsClean g' := by
        intro g' hg'
        cases hg'
        exact hs.1.stripBlanks.append (h.trailing g hg).skipLine
      obtain ⟨u', hu'⟩ := exists_mended h (some (s.before.stripBlanks ++ g.skipLine)) hl
        (fun p hp => h.admits (mem_slots hslots (by simpa using hp)))
        (fun hplain => absurd hplain (by simp [hgroup])) hgap
      refine ⟨u', hu'.clean, hu'.listPrefix, by rw [members, hu'.slots, List.append_nil], ?_⟩
      intro pre post
      have hahead : u.ahead [] = g := by rw [ahead, hg, Option.getD_some]
      have hbehind : u.behind [] = ',' :: (Gap.text (u.ahead []) ++ u.form.closing) := by
        rw [hahead, behind, hg]
        simp
      have hclosing : ∀ post, ∀ c ∈ (u.form.closing ++ post).head?,
          Imports.isBlank c = false ∧ c ≠ '\n' := by
        intro post c hc
        obtain ⟨d, rest, hclosing, hd, -⟩ := u.form.closing_head
        rw [hclosing] at hc
        cases hc
        exact not_isBlank_of_not_isAsciiWhitespace hd
      rw [deletion_comma h hslots hcomma hbehind hclosing, hu'.text_trailing hgroup, hahead]

theorem exists_leaves_of_previous (h : u.IsClean) (hslots : u.slots = l ++ s :: r)
    (hcomma : ¬u.CommaAhead s r) (hl : l ≠ []) (hbare : s.before.isBare = true) :
    ∃ u', u.Leaves l s r u' := by
  obtain ⟨l', p, rfl⟩ := (List.eq_nil_or_concat l).resolve_left hl
  rw [List.concat_eq_append] at *
  have hs := h.slots s (by rw [hslots]; simp)
  have hp := h.slots p (mem_slots hslots (by simp))
  obtain ⟨merged, hmerged⟩ : ∃ merged : Slot, merged = ⟨p.before, p.member, p.after ++ s.after⟩ :=
    ⟨_, rfl⟩
  have hadmits : ∀ q ∈ l' ++ merged :: r, u.Admits q := by
    intro q hq
    have hcases : q = merged ∨ q ∈ l' ++ [p] ++ r := by
      simp only [List.mem_append, List.mem_cons] at hq ⊢
      tauto
    cases hcases with
    | inl heq =>
        rw [heq, hmerged]
        exact ⟨⟨p, mem_slots hslots (by simp), rfl⟩, hp.1, hp.2.2.append hs.2.2⟩
    | inr hmem => exact h.admits (mem_slots hslots hmem)
  have hfirst : u.form.isPlain = true → ∀ q ∈ (l' ++ merged :: r).head?,
      q.before.head? = some .space := by
    intro hplain q hq
    cases l' with
    | nil =>
        cases hq
        rw [hmerged]
        exact h.start hplain p (by rw [hslots]; rfl)
    | cons first l' =>
        refine h.start hplain q ?_
        rw [hslots]
        exact hq
  obtain ⟨u', hu'⟩ := exists_mended h u.form.trailing (by simp) hadmits hfirst h.trailing
  refine ⟨u', hu'.clean, hu'.listPrefix, ?_, ?_⟩
  · rw [members, hu'.slots, hmerged]
    simp
  · intro pre post
    have hws : ∀ c ∈ s.before.text, isAsciiWhitespace c = true := fun c hc =>
      isAsciiWhitespace_of_isPhpSpace (isPhpSpace_of_isBare hbare hc)
    have hbefore : pre ++ u.before (l' ++ [p]) = pre ++ u.before l' ++ p.text ++ [','] := by
      simp only [UseStatement.before, List.map_append, List.flatMap_append, List.append_assoc,
        List.map_cons, List.map_nil, List.flatMap_cons, List.flatMap_nil, List.append_nil]
    rw [deletion_noComma hslots hcomma, rdropWhile_append_of_all hws, hbefore,
      List.rdropWhile_concat_neg _ _ _ (by decide), dropComma, List.getLast?_concat, if_pos rfl,
      List.dropLast_concat, text_eq hu'.slots, hu'.before, hu'.behind, hmerged]
    simp only [Slot.text, Gap.text_append, List.append_assoc]

theorem exists_leaves_of_last (h : u.IsClean) (hslots : u.slots = l ++ s :: r) (hl : l ≠ [])
    (hr : r = []) (htrailing : u.form.trailing = none) (hgroup : u.form.isPlain = false)
    (hcomment : s.before.isBare = false) {g : Gap} (hg : g.IsClean)
    (hgap : Gap.text g = s.before.text.rdropWhile isAsciiWhitespace ++ s.after.text) :
    ∃ u', u.Leaves l s r u' := by
  rw [hr] at hslots ⊢
  have hs := h.slots s (by rw [hslots]; simp)
  have hcomma : ¬u.CommaAhead s [] := fun hahead => by
    cases hahead.2 with
    | inl hne => exact hne rfl
    | inr hne => exact hne htrailing
  have hgaps : ∀ g' ∈ some g, Gap.IsClean g' := by
    intro g' hg'
    cases hg'
    exact hg
  obtain ⟨u', hu'⟩ := exists_mended h (some g) hl
    (fun p hp => h.admits (mem_slots hslots (by simpa using hp)))
    (fun hplain => absurd hplain (by simp [hgroup])) hgaps
  refine ⟨u', hu'.clean, hu'.listPrefix, by rw [members, hu'.slots, List.append_nil], ?_⟩
  intro pre post
  obtain ⟨start, c, hbefore, hc, -⟩ := h.before_last l
  have hx : ∀ d ∈ (pre ++ u.before l).getLast?, isAsciiWhitespace d = false := by
    intro d hd
    rw [hbefore, ← List.append_assoc, List.getLast?_concat] at hd
    cases hd
    exact hc
  obtain ⟨left, hleft⟩ : ∃ left, left = s.before.text.rdropWhile isAsciiWhitespace := ⟨_, rfl⟩
  have hlast : dropComma (pre ++ u.before l ++ left) = pre ++ u.before l ++ left := by
    rcases List.eq_nil_or_concat left with hnil | ⟨start', d, hconcat⟩
    · obtain ⟨d, hd, hnot⟩ := Gap.exists_not_whitespace hcomment
      rw [hnil] at hleft
      have hall := List.rdropWhile_eq_nil_iff.mp hleft.symm d hd
      rw [hnot] at hall
      cases hall
    · have hmem : d ∈ left := by simp [hconcat]
      have hd : d ∈ s.before.text := (List.rdropWhile_prefix _ _).subset (hleft ▸ hmem)
      have hne : d ≠ ',' := by
        rintro rfl
        exact absurd (hs.1.not_isPunctuation hd) (by decide)
      rw [dropComma, hconcat, List.concat_eq_append, ← List.append_assoc, List.getLast?_concat,
        if_neg (by simpa using hne)]
  rw [deletion_noComma hslots hcomma, rdropWhile_append hx, ← hleft, hlast,
    hu'.text_trailing hgroup, hgap, ← hleft, behind, htrailing]
  simp

end Deletion

/-- The prefix and the members `find_use_member` reads in a statement. -/
def membersRead (decl : Text) : Option (Text × List Text) :=
  (useItems decl).map fun found => (found.1, found.2.map UseItem.text)

/-- The member found is the one of this slot. -/
def FoundAt (u : UseStatement) (found : UseMemberMatch) (l : List Slot) (s : Slot) (r : List Slot) :
    Prop :=
  u.slots = l ++ s :: r ∧ found.start = (u.before l ++ s.before.text).length ∧
    found.stop = (u.before l ++ s.before.text ++ s.member.text).length

/-- In every file that holds the statement a statement of the other members, in their order, is
left when the member found is deleted, and `find_use_member` reads these in it. -/
def KeepsOthers (u : UseStatement) (found : UseMemberMatch) : Prop :=
  ∃ l s r, u.FoundAt found l s r ∧ ∃ u' : UseStatement,
    u'.members = (l ++ r).map Slot.member ∧
      membersRead u'.decl = some (u.listPrefix, (l ++ r).map fun s => s.member.text) ∧
      ∀ pre post, deleteRange (pre ++ u.text ++ post) (listItemDeleteRange (pre ++ u.text ++ post)
        (pre.length + found.start) (pre.length + found.stop)) = pre ++ u'.text ++ post

theorem membersRead_decl {u : UseStatement} (h : u.IsClean) :
    membersRead u.decl = some (u.listPrefix, u.slots.map fun s => s.member.text) := by
  rw [membersRead, useItems_decl h, Option.map_some, map_text_slotItems]

theorem exists_foundAt {u : UseStatement} (h : u.IsClean) {fqn aliased : Text}
    {found : UseMemberMatch} (hfound : findUseMember u.decl fqn aliased = some found) :
    ∃ l s r, u.FoundAt found l s r := by
  rw [findUseMember, useItems_decl h, Option.bind_some] at hfound
  obtain ⟨item, hitem, rfl⟩ := Option.map_eq_some_iff.mp hfound
  obtain ⟨l, s, r, hslots, hstart, hstop⟩ := mem_slotItems (List.mem_of_find?_eq_some hitem)
  refine ⟨l, s, r, hslots, ?_, ?_⟩
  · simp only [UseStatement.before, hstart, List.length_append]
    omega
  · simp only [UseStatement.before, hstop, hstart, List.length_append]
    omega

theorem exists_leaves {u : UseStatement} (h : u.IsClean) (hmany : 2 ≤ u.slots.length)
    {l r : List Slot} {s : Slot} (hslots : u.slots = l ++ s :: r) (hremovable : u.Removable l s r) :
    ∃ u', u.Leaves l s r u' := by
  cases hremovable with
  | comma hcomma hspace =>
      refine exists_leaves_of_comma h hslots ?_ hcomma hspace
      intro hnil
      obtain ⟨rfl, rfl⟩ := List.append_eq_nil_iff.mp hnil
      rw [hslots] at hmany
      simp at hmany
  | previous hcomma hl hbare => exact exists_leaves_of_previous h hslots hcomma hl hbare
  | last hl hr htrailing hgroup hcomment hgap =>
      obtain ⟨g, hg, hgap⟩ := hgap
      exact exists_leaves_of_last h hslots hl hr htrailing hgroup hcomment hg hgap

/-- `A` -/
def labelA : Label := ⟨['A'], by simp, rfl, List.all_eq_true.mp rfl⟩

/-- `B` -/
def labelB : Label := ⟨['B'], by simp, rfl, List.all_eq_true.mp rfl⟩

/-- `Foo` -/
def labelFoo : Label := ⟨"Foo".toList, by simp, rfl, List.all_eq_true.mp rfl⟩

/-- A name of one segment. -/
def nameOf (label : Label) (h : isReserved label.chars = false)
    (h' : label.chars.map Char.toLower ≠ "namespace".toList) : Name :=
  ⟨false, label, [], fun _ _ => h, fun _ => h'⟩

def memberA : Member := ⟨none, nameOf labelA rfl (by decide), none⟩

def memberB : Member := ⟨none, nameOf labelB rfl (by decide), none⟩

/-- `use Foo\{`, the members, the gap behind a trailing comma and `};` -/
def fooGroup (slots : List Slot) (trailing : Option Gap) (hne : slots ≠ [])
    (hmembers : ∀ s ∈ slots, s.member = memberA ∨ s.member = memberB) : UseStatement where
  useWord := ⟨"use".toList, by decide⟩
  form := .group [.space] none (nameOf labelFoo rfl (by decide)) [] [] trailing []
  slots := slots
  nonempty := hne
  fits := by
    refine ⟨by simp, by simp, fun s hs => ⟨?_, by simp⟩⟩
    cases hmembers s hs with
    | inl h => rw [h]; rfl
    | inr h => rw [h]; rfl

/-- The comment behind the first member ends its line, and the second member ends the list. -/
def commentedGroup : UseStatement :=
  fooGroup [⟨[], memberA, []⟩,
    ⟨[.space, .line ⟨false, " c".toList, by simp [isLineEnd], by decide, by simp⟩ .lf, .space], memberB, []⟩]
    none (by simp) (by simp)

theorem commentedGroup_text : commentedGroup.text = "use Foo\\\x7bA, // c\n B\x7d;".toList := by
  decide +kernel

theorem memberA_isClean : memberA.IsClean := by
  refine ⟨fun c hc => ?_, fun c hc => ?_⟩ <;> cases hc <;> rfl

theorem memberB_isClean : memberB.IsClean := by
  refine ⟨fun c hc => ?_, fun c hc => ?_⟩ <;> cases hc <;> rfl

theorem fooGroup_isClean {slots : List Slot} {trailing : Option Gap} {hne : slots ≠ []}
    {hmembers : ∀ s ∈ slots, s.member = memberA ∨ s.member = memberB}
    (hgaps : ∀ s ∈ slots, s.before.IsClean ∧ s.after.IsClean)
    (htrailing : ∀ g ∈ trailing, g.IsClean) :
    (fooGroup slots trailing hne hmembers).IsClean := by
  have hblank : Gap.IsClean [.space] := by simp [Gap.IsClean, Trivia.IsClean]
  have hnil : Gap.IsClean [] := by simp [Gap.IsClean]
  refine ⟨rfl, ⟨rfl, hblank, by simp, hnil, hnil, htrailing, hnil⟩, (fun hplain => ?_), ?_⟩
  · cases hplain
  intro s hs
  refine ⟨(hgaps s hs).1, ?_, (hgaps s hs).2⟩
  cases hmembers s hs with
  | inl h => rw [h]; exact memberA_isClean
  | inr h => rw [h]; exact memberB_isClean

theorem commentedGroup_isClean : commentedGroup.IsClean := by
  refine fooGroup_isClean ?_ (by simp)
  simp [Gap.IsClean, Trivia.IsClean, isPunctuation]

theorem commentedGroup_found : findUseMember commentedGroup.decl "Foo\\B".toList "B".toList =
    some ⟨18, 19, 2, "Foo".toList⟩ := by
  rw [findUseMember, useItems_decl commentedGroup_isClean]
  decide +kernel

end UseStatement

/-! ## A slash stands in a comment -/

/-- A slash in the text comes with a line end or a star. -/
def Explained (s : Text) : Prop := '/' ∈ s → '\n' ∈ s ∨ '\r' ∈ s ∨ '*' ∈ s

theorem Explained.append {s t : Text} (hs : Explained s) (ht : Explained t) :
    Explained (s ++ t) := by
  intro h
  simp only [List.mem_append] at h ⊢
  cases h with
  | inl h => have := hs h; tauto
  | inr h => have := ht h; tauto

theorem explained_of_notMem {s : Text} (h : '/' ∉ s) : Explained s := fun hmem => absurd hmem h

theorem explained_flatMap {α : Type} {items : List α} {f : α → Text}
    (h : ∀ a ∈ items, Explained (f a)) :
    Explained (items.flatMap f) := by
  induction items with
  | nil => exact explained_of_notMem (by simp)
  | cons a items ih =>
      rw [List.flatMap_cons]
      exact (h a (List.mem_cons_self ..)).append (ih fun b hb => h b (List.mem_cons_of_mem _ hb))

theorem Gap.explained (g : Gap) : Explained (Gap.text g) := by
  refine explained_flatMap fun t _ => ?_
  cases t with
  | space | tab => exact explained_of_notMem (by decide)
  | newline nl => exact explained_of_notMem (by cases nl <;> decide)
  | line comment nl =>
      intro _
      cases nl <;> simp [Trivia.text, Newline.text]
  | block comment =>
      intro _
      simp [Trivia.text]

theorem explained_of_isLabelChar {s : Text}
    (h : ∀ c ∈ s, isLabelChar c = true ∨ isMemberChar c = true) :
    Explained s := by
  refine explained_of_notMem fun hmem => ?_
  have := h '/' hmem
  revert this
  decide

theorem Member.explained (m : Member) : Explained m.text :=
  explained_of_isLabelChar fun _ hc => .inr (Member.char_mem hc)

theorem Slot.explained (s : Slot) : Explained s.text :=
  (s.before.explained.append s.member.explained).append s.after.explained

theorem KindWord.explained (kind : KindWord) : Explained kind.text :=
  explained_of_isLabelChar fun c hc => .inl (kind.isLabelChar c hc)

theorem Name.explained (n : Name) : Explained n.text := by
  refine explained_of_notMem fun hmem => ?_
  have hchar := Name.char_mem hmem
  revert hchar
  decide

theorem Form.explained (form : Form) : Explained form.opening ∧ Explained form.closing := by
  cases form with
  | plain kind =>
      refine ⟨?_, explained_of_notMem (by simp [Form.closing])⟩
      cases kind with
      | none => exact explained_of_notMem (by decide)
      | some k => exact (Gap.explained _).append (KindWord.explained _)
  | group afterUse kind pre beforeSlash beforeBrace trailing beforeEnd =>
      refine ⟨?_, ((explained_of_notMem (by decide)).append (Gap.explained _)).append
        (explained_of_notMem (by decide))⟩
      have hopen {s : Text} (hs : Explained s) : Explained (afterUse.text ++ s ++ pre.text ++
          beforeSlash.text ++ ['\\'] ++ beforeBrace.text ++ ['\x7b']) :=
        ((((((Gap.explained _).append hs).append pre.explained).append
          (Gap.explained _)).append (explained_of_notMem (by decide))).append
            (Gap.explained _)).append (explained_of_notMem (by decide))
      cases kind with
      | none => exact hopen (explained_of_notMem (by decide))
      | some k => exact hopen ((KindWord.explained _).append (Gap.explained _))

/-- In a statement a slash stands in a comment. -/
theorem UseStatement.explained (u : UseStatement) : Explained u.text := by
  have huse : Explained u.useWord.chars :=
    explained_of_isLabelChar fun c hc => .inl (u.useWord.isLabelChar (by decide) c hc)
  have hpieces : ∀ p ∈ u.pieces, Explained p := by
    intro p hp
    cases List.mem_append.mp hp with
    | inl hp =>
        obtain ⟨s, -, rfl⟩ := List.mem_map.mp hp
        exact s.explained
    | inr hp =>
        obtain ⟨g, -, rfl⟩ := List.mem_map.mp hp
        exact g.explained
  have hjoined : Explained ([','].intercalate u.pieces) := by
    cases hcases : u.pieces with
    | nil => exact explained_of_notMem (by simp)
    | cons p ps =>
        rw [hcases] at hpieces
        rw [intercalate_cons_flatMap]
        exact (hpieces p (List.mem_cons_self ..)).append (explained_flatMap fun q hq =>
          (explained_of_notMem (by decide)).append (hpieces q (List.mem_cons_of_mem _ hq)))
  exact ((huse.append u.form.explained.1).append hjoined).append u.form.explained.2

namespace UseStatement

/-- Each member on its own line, with a comma behind it. -/
def wrappedGroup : UseStatement :=
  fooGroup [⟨[.newline .lf, .space, .space], memberA, []⟩,
    ⟨[.newline .lf, .space, .space], memberB, []⟩] (some [.newline .lf]) (by simp) (by simp)

theorem wrappedGroup_isClean : wrappedGroup.IsClean := by
  refine fooGroup_isClean ?_ ?_ <;> simp [Gap.IsClean, Trivia.IsClean]

end UseStatement

end PhpantomLsp.Imports