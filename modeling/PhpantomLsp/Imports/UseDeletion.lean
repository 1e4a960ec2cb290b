import PhpantomLsp.Imports.UseDecl

/-!
# What is deleted with a member

`list_item_delete_range` deletes a member with the comma behind it, if only
whitespace stands between the two, and else with the comma in front of it, if
that is in reach.  Blanks in front of the member go too, and behind a comma the
blanks up to the end of the line.
-/

namespace PhpantomLsp.Imports

open PhpantomLsp.Lib
open PhpantomLsp (isAsciiWhitespace)

/-! ## What is left of the gaps -/

/-- A gap without the blanks at its end. -/
def Gap.stripBlanks (g : Gap) : Gap := g.rdropWhile Trivia.isBlank

/-- A gap without the blanks at its start and the `\n` behind them. -/
def Gap.skipLine (g : Gap) : Gap :=
  match g.dropWhile Trivia.isBlank with
  | .newline .lf :: rest => rest
  | rest => rest

theorem isAsciiWhitespace_of_isPhpSpace {c : Char} (h : isPhpSpace c = true) :
    isAsciiWhitespace c = true := by
  simp only [isPhpSpace, Bool.or_eq_true, beq_iff_eq] at h
  rcases h with ((rfl | rfl) | rfl) | rfl <;> decide

theorem isAsciiWhitespace_of_isBlank {c : Char} (h : isBlank c = true) :
    isAsciiWhitespace c = true := by
  simp only [isBlank, Bool.or_eq_true, beq_iff_eq] at h
  rcases h with rfl | rfl <;> decide

theorem not_isBlank_of_not_isAsciiWhitespace {c : Char} (h : isAsciiWhitespace c = false) :
    isBlank c = false ∧ c ≠ '\n' := by
  constructor
  · rw [Bool.eq_false_iff]
    intro hblank
    rw [isAsciiWhitespace_of_isBlank hblank] at h
    cases h
  · rintro rfl
    revert h
    decide

/-- The last character of what is no blank. -/
theorem Trivia.getLast_text {t : Trivia} (h : t.isBlank = false) :
    ∃ start c, t.text = start ++ [c] ∧ Imports.isBlank c = false := by
  cases t with
  | space | tab => cases h
  | newline nl =>
      cases nl with
      | lf => exact ⟨[], '\n', rfl, by decide⟩
      | crlf => exact ⟨['\r'], '\n', rfl, by decide⟩
      | cr => exact ⟨[], '\r', rfl, by decide⟩
  | line comment nl =>
      cases nl with
      | lf => exact ⟨comment.marker ++ comment.chars, '\n', rfl, by decide⟩
      | crlf =>
          exact ⟨comment.marker ++ comment.chars ++ ['\r'], '\n',
            by simp [Trivia.text, Newline.text], by decide⟩
      | cr => exact ⟨comment.marker ++ comment.chars, '\r', rfl, by decide⟩
  | block comment =>
      exact ⟨['/', '*'] ++ comment.chars ++ ['*'], '/', by simp [Trivia.text], by decide⟩

theorem Gap.text_stripBlanks (g : Gap) :
    Gap.text g.stripBlanks = (Gap.text g).rdropWhile isBlank := by
  induction g using List.reverseRecOn with
  | nil => rfl
  | append_singleton g t ih =>
      rw [Gap.stripBlanks, List.rdropWhile_concat, Gap.text_append, Gap.text_cons, Gap.text_nil,
        List.append_nil]
      cases hblank : t.isBlank with
      | true =>
          have hall : ∀ c ∈ t.text, isBlank c = true := by
            cases t with
            | space | tab => simp [Trivia.text, isBlank]
            | newline nl | line comment nl | block comment => cases hblank
          rw [if_pos rfl, rdropWhile_append_of_all hall]
          exact ih
      | false =>
          obtain ⟨start, c, htext, hc⟩ := Trivia.getLast_text hblank
          rw [if_neg Bool.false_ne_true, Gap.text_append, Gap.text_cons, Gap.text_nil,
            List.append_nil, htext, ← List.append_assoc,
            List.rdropWhile_concat_neg _ _ _ (by simp [hc])]

/-- What the walk over blanks and a line end leaves of a gap. -/
theorem Gap.text_skipLine (g : Gap) {z : Text}
    (hz : ∀ c ∈ z.head?, isBlank c = false ∧ c ≠ '\n') :
    let rest := (Gap.text g ++ z).dropWhile isBlank
    (if rest.head? = some '\n' then rest.drop 1 else rest) = Gap.text g.skipLine ++ z := by
  intro rest
  have hrest : rest = Gap.text (g.dropWhile Trivia.isBlank) ++ z := by
    show (Gap.text g ++ z).dropWhile isBlank = _
    induction g with
    | nil =>
        cases z with
        | nil => rfl
        | cons c z => exact List.dropWhile_cons_of_neg (by simp [(hz c rfl).1])
    | cons t g ih =>
        cases t with
        | space => exact ih
        | tab => exact ih
        | newline nl => cases nl <;> rfl
        | line comment nl =>
            have hmarker : ∃ c tail, comment.marker = c :: tail ∧ isBlank c = false := by
              unfold LineText.marker
              split
              · exact ⟨'#', [], rfl, by decide⟩
              · exact ⟨'/', ['/'], rfl, by decide⟩
            obtain ⟨c, tail, hm, hc⟩ := hmarker
            rw [List.dropWhile_cons_of_neg (by simp [Trivia.isBlank])]
            simp only [Gap.text_cons, Trivia.text, hm, List.cons_append]
            exact List.dropWhile_cons_of_neg (by simp [hc])
        | block comment => rfl
  rw [hrest]
  unfold Gap.skipLine
  cases hdrop : g.dropWhile Trivia.isBlank with
  | nil =>
      rw [Gap.text_nil, List.nil_append]
      split
      · rename_i hhead
        exact absurd rfl (hz _ hhead).2
      · rfl
  | cons t tail =>
      have hblank : t.isBlank = false := by
        have hnot := List.head?_dropWhile_not Trivia.isBlank g
        rw [hdrop] at hnot
        simpa using hnot
      cases t with
      | space | tab => cases hblank
      | newline nl => cases nl <;> rfl
      | line comment nl =>
          have hhead : (Gap.text (.line comment nl :: tail) ++ z).head? ≠ some '\n' := by
            simp only [Gap.text_cons, Trivia.text, LineText.marker]
            split <;> simp
          rw [if_neg hhead]
      | block comment => rfl

theorem Gap.IsClean.append {g g' : Gap} (h : g.IsClean) (h' : g'.IsClean) :
    Gap.IsClean (g ++ g') := by
  intro t ht
  cases List.mem_append.mp ht with
  | inl ht => exact h t ht
  | inr ht => exact h' t ht

theorem Gap.IsClean.stripBlanks {g : Gap} (h : g.IsClean) : g.stripBlanks.IsClean := fun t ht =>
  h t ((List.rdropWhile_prefix _ _).subset ht)

theorem Gap.IsClean.skipLine {g : Gap} (h : g.IsClean) : g.skipLine.IsClean := by
  have hdrop : ∀ t ∈ g.dropWhile Trivia.isBlank, t.IsClean := fun t ht =>
    h t ((List.dropWhile_suffix _).subset ht)
  unfold Gap.skipLine
  split
  · rename_i rest heq
    intro t ht
    exact hdrop t (heq ▸ List.mem_cons_of_mem _ ht)
  · exact hdrop

theorem Member.head_not_isBlank (m : Member) (z : Text) :
    ∀ c ∈ (m.text ++ z).head?, isBlank c = false ∧ c ≠ '\n' := by
  intro c hc
  obtain ⟨d, rest, hd, hlabel⟩ := m.head
  rw [hd] at hc
  cases hc
  have hne : ∀ x, isLabelChar x = false → x ≠ '\\' → c ≠ x := by
    rintro x hx hslash rfl
    cases hlabel with
    | inl hlabel => rw [hx] at hlabel; cases hlabel
    | inr hlabel => exact hslash hlabel
  have hspace := hne ' ' (by decide) (by decide)
  have htab := hne '\t' (by decide) (by decide)
  exact ⟨by simp [isBlank, hspace, htab], hne '\n' (by decide) (by decide)⟩

theorem Gap.exists_not_whitespace {g : Gap} (h : g.isBare = false) :
    ∃ c ∈ Gap.text g, isAsciiWhitespace c = false := by
  obtain ⟨t, ht, hcomment⟩ := List.all_eq_false.mp h
  have hslash : '/' ∈ t.text ∨ '#' ∈ t.text := by
    cases t with
    | space | tab | newline nl => simp [Trivia.isComment] at hcomment
    | line comment nl => simp only [Trivia.text, LineText.marker]; split <;> simp
    | block comment => simp [Trivia.text]
  cases hslash with
  | inl h => exact ⟨'/', List.mem_flatMap.mpr ⟨t, ht, h⟩, by decide⟩
  | inr h => exact ⟨'#', List.mem_flatMap.mpr ⟨t, ht, h⟩, by decide⟩

/-- Behind the whitespace of a gap with a comment stands the comment. -/
theorem Gap.dropWhile_text {g : Gap} (h : g.isBare = false) (z : Text) :
    ((Gap.text g ++ z).dropWhile isAsciiWhitespace).head? ≠ some ',' := by
  induction g with
  | nil => cases h
  | cons t g ih =>
      have hskip : ∀ w : Text, (∀ c ∈ w, isAsciiWhitespace c = true) → t.text = w →
          Gap.isBare g = false → ((Gap.text (t :: g) ++ z).dropWhile isAsciiWhitespace).head? ≠
            some ',' := by
        intro w hw htext hbare
        rw [Gap.text_cons, htext, List.append_assoc, dropWhile_append_of_all hw]
        exact ih hbare
      cases t with
      | space => exact hskip [' '] (by simp; decide) rfl h
      | tab => exact hskip ['\t'] (by simp; decide) rfl h
      | newline nl => exact hskip nl.text (by cases nl <;> simp [Newline.text] <;> decide) rfl h
      | line comment nl =>
          simp only [Gap.text_cons, Trivia.text, LineText.marker]
          split
          · simp [List.dropWhile_cons_of_neg, isAsciiWhitespace]
          · simp [List.dropWhile_cons_of_neg, isAsciiWhitespace]
      | block comment => simp [Gap.text_cons, Trivia.text, isAsciiWhitespace]

/-! ## What is deleted -/

theorem walkBack_append (p : Char → Bool) (s r : Text) :
    walkBack p (s ++ r) s.length = (s.rdropWhile p).length := by
  rw [walkBack, List.take_left]

theorem walkOn_append (p : Char → Bool) (s r : Text) :
    walkOn p (s ++ r) s.length = (s ++ r.takeWhile p).length := by
  rw [walkOn, List.drop_left, List.length_append]

/-- A comma in reach behind the member is deleted with it, and what is blank around the two. -/
theorem deleteRange_comma {x m z : Text} {b a ahead : Gap}
    (hx : ∀ c ∈ x.getLast?, isBlank c = false) (ha : a.isBare = true)
    (hz : ∀ c ∈ z.head?, isBlank c = false ∧ c ≠ '\n') :
    deleteRange (x ++ b.text ++ m ++ (a.text ++ ',' :: (ahead.text ++ z)))
        (listItemDeleteRange (x ++ b.text ++ m ++ (a.text ++ ',' :: (ahead.text ++ z)))
          (x ++ b.text).length (x ++ b.text ++ m).length) =
      x ++ Gap.text b.stripBlanks ++ (Gap.text ahead.skipLine ++ z) := by
  have hstart : walkBack isBlank (x ++ b.text ++ m ++ (a.text ++ ',' :: (ahead.text ++ z)))
      (x ++ b.text).length = (x ++ Gap.text b.stripBlanks).length := by
    rw [List.append_assoc _ m, walkBack_append, rdropWhile_append hx, Gap.text_stripBlanks]
  have hafter : walkOn isAsciiWhitespace (x ++ b.text ++ m ++ (a.text ++ ',' :: (ahead.text ++ z)))
      (x ++ b.text ++ m).length = (x ++ b.text ++ m ++ a.text).length := by
    have hws : ∀ c ∈ a.text, isAsciiWhitespace c = true := fun c hc =>
      isAsciiWhitespace_of_isPhpSpace (isPhpSpace_of_isBare ha hc)
    rw [walkOn_append, List.takeWhile_append_of_pos hws,
      List.takeWhile_cons_of_neg (by decide), List.append_nil]
  -- the text read from behind the comma on
  obtain ⟨read, hread⟩ : ∃ read, read = x ++ b.text ++ m ++ a.text ++ [','] := ⟨_, rfl⟩
  have hcontent : x ++ b.text ++ m ++ (a.text ++ ',' :: (ahead.text ++ z)) =
      read ++ (ahead.text ++ z) := by
    rw [hread]
    simp only [List.append_assoc, List.cons_append, List.nil_append]
  have hcomma : (read ++ (ahead.text ++ z))[(x ++ b.text ++ m ++ a.text).length]? = some ',' := by
    rw [hread, List.append_assoc _ [','], List.getElem?_append_right (Nat.le_refl _), Nat.sub_self]
    rfl
  have hlength : (x ++ b.text ++ m ++ a.text).length + 1 = read.length := by
    simp only [hread, List.length_append, List.length_singleton]
  have hrest := Gap.text_skipLine ahead hz
  rw [hcontent] at hstart hafter ⊢
  generalize ahead.text ++ z = y at *
  have hhead : (read ++ y)[(read ++ y.takeWhile isBlank).length]? =
      (y.dropWhile isBlank).head? := by
    have hsplit : read ++ y = read ++ y.takeWhile isBlank ++ y.dropWhile isBlank := by
      rw [List.append_assoc, List.takeWhile_append_dropWhile]
    exact (congrArg (·[(read ++ y.takeWhile isBlank).length]?) hsplit).trans
      (getElem?_append_length _ _)
  have hdrop : (read ++ y).drop (read ++ y.takeWhile isBlank).length = y.dropWhile isBlank := by
    rw [List.length_append, ← List.drop_drop, List.drop_left]
    have hsplit := List.takeWhile_append_dropWhile (p := isBlank) (l := y)
    exact (congrArg (List.drop _) hsplit.symm).trans List.drop_left
  have htake : (read ++ y).take (x ++ Gap.text b.stripBlanks).length =
      x ++ Gap.text b.stripBlanks := by
    obtain ⟨blanks, hb, -⟩ := rdropWhile_split isBlank b.text
    rw [← Gap.text_stripBlanks] at hb
    rw [hread, hb]
    simp only [List.append_assoc]
    rw [← List.append_assoc x, List.take_left]
  unfold listItemDeleteRange
  simp only [hstart, hafter, hcomma, hlength, if_true, walkOn_append]
  rw [hhead, deleteRange, htake, ← hrest]
  congr 1
  split
  · rw [← List.drop_drop, hdrop]
  · rw [hdrop]

/-- A text without the comma it ends with. -/
def dropComma (s : Text) : Text := if s.getLast? = some ',' then s.dropLast else s

/-- Where no comma is in reach behind the member, the one before it goes. -/
theorem deleteRange_noComma {x m z : Text} (hz : (z.dropWhile isAsciiWhitespace).head? ≠ some ',') :
    deleteRange (x ++ m ++ z) (listItemDeleteRange (x ++ m ++ z) x.length (x ++ m).length) =
      dropComma (x.rdropWhile isAsciiWhitespace) ++ z := by
  have hstart : walkBack isBlank (x ++ m ++ z) x.length = (x.rdropWhile isBlank).length := by
    rw [List.append_assoc, walkBack_append]
  have hprefix : x.rdropWhile isBlank <+: x ++ m ++ z :=
    (List.rdropWhile_prefix _ _).trans ⟨m ++ z, (List.append_assoc ..).symm⟩
  have hback : walkBack isAsciiWhitespace (x ++ m ++ z) (x.rdropWhile isBlank).length =
      (x.rdropWhile isAsciiWhitespace).length := by
    rw [walkBack, take_eq_of_isPrefix hprefix,
      rdropWhile_rdropWhile fun c hc => isAsciiWhitespace_of_isBlank hc]
  have hafter : (x ++ m ++ z)[walkOn isAsciiWhitespace (x ++ m ++ z) (x ++ m).length]? =
      (z.dropWhile isAsciiWhitespace).head? := by
    have hsplit : x ++ m ++ z = x ++ m ++ z.takeWhile isAsciiWhitespace ++
        z.dropWhile isAsciiWhitespace := by
      rw [List.append_assoc (x ++ m), List.takeWhile_append_dropWhile]
    rw [walkOn_append]
    exact (congrArg (·[(x ++ m ++ z.takeWhile isAsciiWhitespace).length]?) hsplit).trans
      (getElem?_append_length _ _)
  obtain ⟨left, hleft⟩ : ∃ left, left = x.rdropWhile isAsciiWhitespace := ⟨_, rfl⟩
  have hleftPrefix : left <+: x ++ m ++ z :=
    hleft ▸ (List.rdropWhile_prefix _ _).trans ⟨m ++ z, (List.append_assoc ..).symm⟩
  have hlast : (0 < left.length ∧ (x ++ m ++ z)[left.length - 1]? = some ',') ↔
      left.getLast? = some ',' := by
    obtain ⟨r, hr⟩ := hleftPrefix
    rw [← hr]
    rcases List.eq_nil_or_concat left with hnil | ⟨start, c, hconcat⟩
    · simp [hnil]
    · rw [hconcat]
      simp
  unfold listItemDeleteRange
  simp only [hstart, hback, hafter, if_neg hz, ← hleft, hlast]
  rw [deleteRange, List.drop_left, dropComma]
  split
  · have hdropLast : left.dropLast <+: x ++ m ++ z := (List.dropLast_prefix left).trans hleftPrefix
    rw [← List.length_dropLast, take_eq_of_isPrefix hdropLast]
  · rw [take_eq_of_isPrefix hleftPrefix]

end PhpantomLsp.Imports
