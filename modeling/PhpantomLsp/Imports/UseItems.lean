import PhpantomLsp.Imports.UseMembers
import PhpantomLsp.Lib.Joined

/-!
# What `find_use_member` reads in a statement

The comments of a clean statement hold none of the characters the list is split
at, so that the items between the commas are the members with the gaps around
them, and each is read as PHP reads it (`useItems_decl`).
-/

namespace PhpantomLsp.Imports

open PhpantomLsp.Lib
open PhpantomLsp.Text (isWhitespace)

/-! ## The characters of a member -/

def isMemberChar (c : Char) : Bool := isLabelChar c || c == '\\' || isPhpSpace c

theorem isLabelChar_of_toLower {c : Char} (h : isLabelChar c.toLower = true) :
    isLabelChar c = true := by
  delta Char.toLower at h
  split at h
  · next hupper =>
      have hletter : c.isAlpha = true := by
        delta Char.isAlpha Char.isUpper
        simpa using Or.inl (b := c.isLower = true) hupper
      simp [isLabelChar, Char.isAlphanum, hletter]
  · exact h

theorem Keyword.isLabelChar {word : String} (k : Keyword word)
    (hword : word.toList.all Imports.isLabelChar = true) :
    ∀ c ∈ k.chars, Imports.isLabelChar c = true := by
  intro c hc
  apply isLabelChar_of_toLower
  have hmem : c.toLower ∈ word.toList := k.spelled ▸ List.mem_map_of_mem hc
  exact List.all_eq_true.mp hword _ hmem

theorem Keyword.ne_nil {word : String} (k : Keyword word) (hword : word.toList ≠ []) :
    k.chars ≠ [] := by
  intro h
  have hs := k.spelled
  rw [h] at hs
  exact hword hs.symm

theorem KindWord.isLabelChar (k : KindWord) : ∀ c ∈ k.text, Imports.isLabelChar c = true := by
  cases k with
  | function word => exact word.isLabelChar (by decide)
  | const word => exact word.isLabelChar (by decide)

theorem KindWord.ne_nil (k : KindWord) : k.text ≠ [] := by
  cases k with
  | function word => exact word.ne_nil (by decide)
  | const word => exact word.ne_nil (by decide)

theorem Name.char_mem {n : Name} {c : Char} (h : c ∈ n.text) :
    isLabelChar c = true ∨ c = '\\' := by
  simp only [Name.text, List.mem_append, List.mem_flatMap, List.mem_cons] at h
  rcases h with (h | h) | ⟨l, -, h⟩
  · split at h
    · exact .inr (List.mem_singleton.mp h)
    · cases h
  · exact .inl (n.first.wellFormed c h)
  · exact h.elim .inr fun h => .inl (l.wellFormed c h)

theorem Member.char_mem {m : Member} {c : Char} (h : c ∈ m.text) : isMemberChar c = true := by
  have hlabel : isLabelChar c = true → isMemberChar c = true := fun h => by simp [isMemberChar, h]
  have hspace : isPhpSpace c = true → isMemberChar c = true := fun h => by simp [isMemberChar, h]
  simp only [Member.text, List.mem_append] at h
  rcases h with (h | h) | h
  · unfold Member.kindText at h
    split at h
    · cases h
    · next kind spaces _ =>
        rcases List.mem_append.mp h with h | h
        · exact hlabel (kind.isLabelChar c h)
        · exact hspace (spaces.spaces c h)
  · rcases Name.char_mem h with h | rfl
    · exact hlabel h
    · decide
  · unfold Member.aliasText at h
    split at h
    · cases h
    · next clause _ =>
        simp only [AsClause.text, List.mem_append] at h
        rcases h with ((h | h) | h) | h
        · exact hspace (clause.before.spaces c h)
        · exact hlabel (clause.word.isLabelChar (by decide) c h)
        · exact hspace (clause.after.spaces c h)
        · exact hlabel (clause.label.wellFormed c h)

/-- A name starts with a letter or its first separator. -/
theorem Name.head (n : Name) : ∃ c rest, n.text = c :: rest ∧ (isLabelChar c = true ∨ c = '\\') := by
  have hne : n.text ≠ [] := by simp [Name.text, n.first.nonempty]
  obtain ⟨c, rest, h⟩ := List.exists_cons_of_ne_nil hne
  exact ⟨c, rest, h, Name.char_mem (h ▸ List.mem_cons_self ..)⟩

theorem Name.last (n : Name) : ∃ start c, n.text = start ++ [c] ∧ isLabelChar c = true := by
  have hlabel : ∀ l : Label, ∃ start c, l.chars = start ++ [c] ∧ isLabelChar c = true := by
    intro l
    refine ⟨l.chars.dropLast, l.chars.getLast l.nonempty, (List.dropLast_append_getLast _).symm, ?_⟩
    exact l.wellFormed _ (List.getLast_mem _)
  cases hrest : n.rest using List.reverseRecOn with
  | nil =>
      obtain ⟨start, c, h, hc⟩ := hlabel n.first
      exact ⟨_, c, by rw [Name.text, hrest, h, List.flatMap_nil, List.append_nil,
        ← List.append_assoc], hc⟩
  | append_singleton rest l =>
      obtain ⟨start, c, h, hc⟩ := hlabel l
      refine ⟨(if n.rooted then ['\\'] else []) ++ n.first.chars ++
        (rest.flatMap fun l => '\\' :: l.chars) ++ '\\' :: start, c, ?_, hc⟩
      rw [Name.text, hrest, List.flatMap_append, List.flatMap_singleton, h]
      simp only [List.append_assoc, List.cons_append]

theorem Member.head (m : Member) :
    ∃ c rest, m.text = c :: rest ∧ (isLabelChar c = true ∨ c = '\\') := by
  unfold Member.text Member.kindText
  split
  · obtain ⟨c, rest, h, hc⟩ := m.name.head
    exact ⟨c, rest ++ m.aliasText, by rw [h]; rfl, hc⟩
  · next kind spaces _ =>
      obtain ⟨c, rest, h⟩ := List.exists_cons_of_ne_nil kind.ne_nil
      refine ⟨c, _, by rw [h]; simp only [List.cons_append]; rfl, .inl ?_⟩
      exact kind.isLabelChar c (h ▸ List.mem_cons_self ..)

theorem Member.last (m : Member) : ∃ start c, m.text = start ++ [c] ∧ isLabelChar c = true := by
  unfold Member.text Member.aliasText
  split
  · obtain ⟨start, c, h, hc⟩ := m.name.last
    exact ⟨m.kindText ++ start, c, by rw [h]; simp only [List.append_assoc, List.append_nil], hc⟩
  · next clause _ =>
      have hl := clause.label.nonempty
      refine ⟨m.kindText ++ m.name.text ++ (clause.before.chars ++ clause.word.chars ++
        clause.after.chars ++ clause.label.chars.dropLast), clause.label.chars.getLast hl, ?_,
        clause.label.wellFormed _ (List.getLast_mem hl)⟩
      simp only [AsClause.text, List.append_assoc, List.dropLast_append_getLast hl]

theorem isWhitespace_of_isPhpSpace {c : Char} (h : isPhpSpace c = true) : isWhitespace c = true := by
  simp only [isPhpSpace, Bool.or_eq_true, beq_iff_eq] at h
  rcases h with ((rfl | rfl) | rfl) | rfl <;> decide

/-! ## Where a pattern is found -/

theorem find_singleton {c : Char} {s rest : Text} (h : c ∉ s) :
    find [c] (s ++ c :: rest) = some s.length := by
  induction s with
  | nil => simp [find]
  | cons a s ih =>
      have ha : c ≠ a := fun ha => h (ha ▸ List.mem_cons_self ..)
      have hs : c ∉ s := fun hs => h (List.mem_cons_of_mem _ hs)
      rw [List.cons_append, find, if_neg (by simp [ha]), ih hs]
      rfl

theorem find_eq_none {x : Char} {pattern s : Text} (h : x ∉ s) : find (x :: pattern) s = none := by
  induction s with
  | nil => rfl
  | cons a s ih =>
      have ha : x ≠ a := fun ha => h (ha ▸ List.mem_cons_self ..)
      have hs : x ∉ s := fun hs => h (List.mem_cons_of_mem _ hs)
      rw [find, if_neg (by simp [ha]), ih hs]
      rfl

theorem find_pair {x y : Char} (hxy : x ≠ y) {s rest : Text} (h : ¬ [x, y] <:+: s) :
    find [x, y] (s ++ x :: y :: rest) = some s.length := by
  induction s with
  | nil => simp [find]
  | cons a s ih =>
      rw [List.infix_cons_iff, not_or] at h
      have hfirst : ¬ [x, y] <+: a :: (s ++ x :: y :: rest) := by
        rintro ⟨z, hz⟩
        cases s with
        | nil =>
            simp only [List.cons_append, List.nil_append, List.cons.injEq] at hz
            exact hxy hz.2.1.symm
        | cons b s =>
            simp only [List.cons_append, List.nil_append, List.cons.injEq] at hz
            exact h.1 ⟨s, by simp [hz.1, hz.2.1]⟩
      rw [List.cons_append, find, if_neg hfirst, ih h.2]
      rfl

/-- The first place of a pattern is not among characters other than its first. -/
theorem le_of_find {x : Char} {pattern s r : Text} (h : x ∉ s) {i : Nat}
    (hi : find (x :: pattern) (s ++ r) = some i) : s.length ≤ i := by
  induction s generalizing i with
  | nil => exact Nat.zero_le _
  | cons a s ih =>
      have ha : x ≠ a := fun ha => h (ha ▸ List.mem_cons_self ..)
      have hs : x ∉ s := fun hs => h (List.mem_cons_of_mem _ hs)
      rw [List.cons_append, find, if_neg (by simp [ha])] at hi
      obtain ⟨j, hj, rfl⟩ := Option.map_eq_some_iff.mp hi
      exact Nat.succ_le_succ (ih hs hj)

theorem find_of_notMem {x : Char} {pattern s r : Text} (h : x ∉ s) :
    find (x :: pattern) (s ++ x :: pattern ++ r) = some s.length := by
  induction s with
  | nil => simp [find]
  | cons a s ih =>
      have ha : x ≠ a := fun ha => h (ha ▸ List.mem_cons_self ..)
      have hs : x ∉ s := fun hs => h (List.mem_cons_of_mem _ hs)
      rw [List.cons_append, List.cons_append, find, if_neg (by simp [ha]), ih hs]
      rfl

/-- The three ways to open a comment. -/
def openers : List Text := [['/', '/'], ['#'], ['/', '*']]

theorem firstOpener_none {s : Text} (hslash : '/' ∉ s) (hhash : '#' ∉ s) :
    (openers.filterMap (find · s)).min? = none := by
  simp [openers, find_eq_none hslash, find_eq_none hhash]

theorem firstOpener {s o r : Text} (ho : o ∈ openers) (hslash : '/' ∉ s) (hhash : '#' ∉ s) :
    (openers.filterMap (find · (s ++ o ++ r))).min? = some s.length := by
  rw [List.min?_eq_some_iff]
  refine ⟨List.mem_filterMap.mpr ⟨o, ho, ?_⟩, ?_⟩
  · simp only [openers, List.mem_cons, List.not_mem_nil, or_false] at ho
    rcases ho with rfl | rfl | rfl
    · exact find_of_notMem hslash
    · exact find_of_notMem hhash
    · exact find_of_notMem hslash
  · intro i hi
    obtain ⟨o', ho', hi⟩ := List.mem_filterMap.mp hi
    rw [List.append_assoc] at hi
    simp only [openers, List.mem_cons, List.not_mem_nil, or_false] at ho'
    rcases ho' with rfl | rfl | rfl
    · exact le_of_find hslash hi
    · exact le_of_find hhash hi
    · exact le_of_find hslash hi

/-! ## Clean statements -/

/-- The characters a list is split at. -/
def isPunctuation (c : Char) : Bool := c == ',' || c == ';' || c == '\x7b' || c == '\x7d'

/-- A comment that holds nothing the list is split at, and line ends that every
reader takes for one. -/
def Trivia.IsClean : Trivia → Prop
  | .space | .tab => True
  | .newline nl => nl ≠ .cr
  | .line comment nl => nl ≠ .cr ∧ ∀ c ∈ comment.chars, isPunctuation c = false
  | .block comment =>
      (∀ c ∈ comment.chars, isPunctuation c = false) ∧ comment.chars.head? ≠ some '/' ∧
        ¬ ['?', '>'] <:+: comment.chars

def Gap.IsClean (g : Gap) : Prop := ∀ t ∈ g, t.IsClean

theorem isPhpSpace_of_isBare {g : Gap} (h : g.isBare = true) {c : Char} (hc : c ∈ g.text) :
    isPhpSpace c = true := by
  obtain ⟨t, ht, hc⟩ := List.mem_flatMap.mp hc
  have hcomment := List.all_eq_true.mp h t ht
  cases t with
  | space | tab => rw [List.mem_singleton.mp hc]; decide
  | newline nl =>
      cases nl <;> simp only [Trivia.text, Newline.text, List.mem_cons, List.not_mem_nil,
        or_false] at hc
      · rw [hc]; decide
      · rcases hc with rfl | rfl <;> decide
      · rw [hc]; decide
  | line comment nl => simp [Trivia.isComment] at hcomment
  | block comment => simp [Trivia.isComment] at hcomment

/-- Clean gaps hold nothing the list is split at. -/
theorem Gap.IsClean.not_isPunctuation {g : Gap} (h : g.IsClean) {c : Char} (hc : c ∈ g.text) :
    isPunctuation c = false := by
  have hnl : ∀ {nl : Newline}, c ∈ nl.text → isPunctuation c = false := by
    intro nl hc
    cases nl <;> simp only [Newline.text, List.mem_cons, List.not_mem_nil, or_false] at hc
    · rw [hc]; decide
    · rcases hc with rfl | rfl <;> decide
    · rw [hc]; decide
  obtain ⟨t, ht, hc⟩ := List.mem_flatMap.mp hc
  have hclean := h t ht
  cases t with
  | space | tab => rw [List.mem_singleton.mp hc]; decide
  | newline nl => exact hnl hc
  | line comment nl =>
      simp only [Trivia.text, List.mem_append] at hc
      rcases hc with (hc | hc) | hc
      · unfold LineText.marker at hc
        split at hc <;> simp only [List.mem_cons, List.not_mem_nil, or_false] at hc
        · rw [hc]; decide
        · rcases hc with rfl | rfl <;> decide
      · exact hclean.2 c hc
      · exact hnl hc
  | block comment =>
      simp only [Trivia.text, List.mem_append, List.mem_cons, List.not_mem_nil, or_false] at hc
      rcases hc with (hc | hc) | hc
      · rcases hc with rfl | rfl <;> decide
      · exact hclean.1 c hc
      · rcases hc with rfl | rfl <;> decide

/-! ## Gaps are skipped -/

theorem leading_eq (rest : Text) : leading rest =
    match commentLength (rest.dropWhile isWhitespace) with
    | none => some (rest.takeWhile isWhitespace).length
    | some none => none
    | some (some n) =>
        (leading ((rest.dropWhile isWhitespace).drop n)).map
          ((rest.takeWhile isWhitespace).length + n + ·) := by
  have hdrop : rest.drop (rest.takeWhile isWhitespace).length = rest.dropWhile isWhitespace := by
    have hsplit := List.takeWhile_append_dropWhile (p := isWhitespace) (l := rest)
    exact (congrArg (List.drop _) hsplit.symm).trans List.drop_left
  rw [leading, hdrop]
  split <;> simp_all

theorem leading_cons {c : Char} {rest : Text} (h : isWhitespace c = true) :
    leading (c :: rest) = (leading rest).map (1 + ·) := by
  rw [leading_eq, leading_eq rest, List.dropWhile_cons_of_pos h, List.takeWhile_cons_of_pos h,
    List.length_cons]
  split
  · simp only [Option.map_some, Nat.add_comm]
  · rfl
  · rw [Option.map_map]
    congr 1
    funext k
    simp only [Function.comp_apply]
    omega

theorem leading_comment {rest : Text} {n : Nat} (hhead : ∀ c ∈ rest.head?, isWhitespace c = false)
    (h : commentLength rest = some (some n)) :
    leading rest = (leading (rest.drop n)).map (n + ·) := by
  have hdrop := dropWhile_append_of_head (a := []) hhead
  have htake := takeWhile_append_of_head (a := []) hhead
  simp only [List.nil_append, List.dropWhile_nil, List.takeWhile_nil] at hdrop htake
  rw [leading_eq, hdrop, htake, h]
  simp only [List.length_nil, Nat.zero_add]

theorem LineText.marker_mem (comment : LineText) : comment.marker ∈ openers := by
  unfold LineText.marker openers
  split <;> simp

/-- A line comment goes on to the next line feed. -/
theorem commentLength_line {comment : LineText} {s rest : Text} (hs : '\n' ∉ s) :
    commentLength (comment.marker ++ s ++ '\n' :: rest) =
      some (some (comment.marker.length + s.length + 1)) := by
  have hmarker : '\n' ∉ comment.marker ++ s := by
    rw [List.mem_append, not_or]
    refine ⟨?_, hs⟩
    unfold LineText.marker
    split <;> decide
  have hopen : ['/', '/'] <+: comment.marker ++ s ++ '\n' :: rest ∨
      ['#'] <+: comment.marker ++ s ++ '\n' :: rest := by
    rw [List.append_assoc]
    unfold LineText.marker
    split
    · exact .inr (List.prefix_append ..)
    · exact .inl (List.prefix_append ..)
  rw [commentLength, if_pos hopen, find_singleton hmarker, List.length_append]
  rfl

theorem commentLength_block {s rest : Text} (hs : ¬ ['*', '/'] <:+: s)
    (hhead : s.head? ≠ some '/') :
    commentLength (['/', '*'] ++ s ++ '*' :: '/' :: rest) = some (some (s.length + 4)) := by
  have hinside : ¬ ['*', '/'] <:+: ['/', '*'] ++ s := by
    apply not_pair_infix_append (by decide) hs
    intro c hc
    rintro rfl
    exact hhead hc
  have hline : ¬ (['/', '/'] <+: ['/', '*'] ++ s ++ '*' :: '/' :: rest ∨
      ['#'] <+: ['/', '*'] ++ s ++ '*' :: '/' :: rest) := by
    simp
  have hblock : ['/', '*'] <+: ['/', '*'] ++ s ++ '*' :: '/' :: rest := by
    rw [List.append_assoc]
    exact List.prefix_append ..
  rw [commentLength, if_neg hline, if_pos hblock, find_pair (by decide) hinside]
  simp only [Option.map_some, List.length_append, List.length_cons, List.length_nil]
  congr 2
  omega

theorem leading_newline {nl : Newline} (rest : Text) :
    leading (nl.text ++ rest) = (leading rest).map (nl.text.length + ·) := by
  cases nl with
  | lf | cr => exact leading_cons (by decide)
  | crlf =>
      rw [Newline.text, List.cons_append, leading_cons (by decide), List.singleton_append,
        leading_cons (by decide), Option.map_map]
      congr 1
      funext k
      simp only [Function.comp_apply, List.length_cons, List.length_nil]
      omega

theorem leading_trivia {t : Trivia} (h : t.IsClean) (rest : Text) :
    leading (t.text ++ rest) = (leading rest).map (t.text.length + ·) := by
  cases t with
  | space | tab => exact leading_cons (by decide)
  | newline nl => exact leading_newline rest
  | line comment nl =>
      have hmarker : ∀ r, ∀ c ∈ (comment.marker ++ r).head?, isWhitespace c = false := by
        intro r c hc
        unfold LineText.marker at hc
        split at hc <;> cases hc <;> decide
      have hchars : '\n' ∉ comment.chars := fun hmem => by
        have := comment.oneLine _ hmem
        revert this
        decide
      have hend : ∀ s : Text, '\n' ∉ s → ∀ r, leading (comment.marker ++ s ++ '\n' :: r) =
          (leading r).map (comment.marker.length + s.length + 1 + ·) := by
        intro s hs r
        have hlen : comment.marker.length + s.length + 1 = (comment.marker ++ s ++ ['\n']).length := by
          simp only [List.length_append, List.length_cons, List.length_nil]
        have happ : comment.marker ++ s ++ '\n' :: r = comment.marker ++ s ++ ['\n'] ++ r := by
          simp only [List.append_assoc, List.cons_append, List.nil_append]
        rw [leading_comment (by rw [List.append_assoc]; exact hmarker _) (commentLength_line hs),
          happ, hlen, List.drop_left]
      cases nl with
      | lf =>
          have := hend comment.chars hchars rest
          simpa [Trivia.text, Newline.text, Nat.add_assoc] using this
      | crlf =>
          have hcr : '\n' ∉ comment.chars ++ ['\r'] := by simp [hchars]
          have := hend (comment.chars ++ ['\r']) hcr rest
          simpa [Trivia.text, Newline.text, Nat.add_assoc] using this
      | cr => exact absurd rfl h.1
  | block comment =>
      have hhead : ∀ c ∈ (['/', '*'] ++ comment.chars ++ '*' :: '/' :: rest).head?,
          isWhitespace c = false := by
        intro c hc
        cases hc
        decide
      have hlen : comment.chars.length + 4 = (Trivia.block comment).text.length := by
        simp only [Trivia.text, List.length_append, List.length_cons, List.length_nil]
        omega
      have happ : (Trivia.block comment).text ++ rest =
          ['/', '*'] ++ comment.chars ++ '*' :: '/' :: rest := by
        simp only [Trivia.text, List.append_assoc, List.cons_append, List.nil_append]
      rw [happ, leading_comment hhead (commentLength_block comment.inside h.2.1), hlen, ← happ,
        List.drop_left]

theorem leading_gap {g : Gap} (h : g.IsClean) (rest : Text) :
    leading (g.text ++ rest) = (leading rest).map (g.text.length + ·) := by
  induction g with
  | nil => simp
  | cons t g ih =>
      rw [Gap.text_cons, List.append_assoc, leading_trivia (h t (List.mem_cons_self ..)),
        ih fun t ht => h t (List.mem_cons_of_mem _ ht), Option.map_map]
      congr 1
      funext k
      simp only [Function.comp_apply, List.length_append]
      omega

/-- Nothing is skipped where neither whitespace nor a comment starts. -/
theorem leading_content {c : Char} {rest : Text} (hc : isWhitespace c = false)
    (hslash : c ≠ '/') (hhash : c ≠ '#') : leading (c :: rest) = some 0 := by
  rw [leading_eq, List.dropWhile_cons_of_neg (by simp [hc]), List.takeWhile_cons_of_neg (by simp [hc])]
  have hnone : commentLength (c :: rest) = none := by
    simp [commentLength, hslash.symm, hhash.symm]
  rw [hnone]
  rfl

/-! ## One item -/

/-- Whitespace, and then nothing or a comment. -/
theorem Gap.text_split (g : Gap) : ∃ w r, g.text = w ++ r ∧ (∀ c ∈ w, isPhpSpace c = true) ∧
    (r = [] ∨ ∃ o ∈ openers, o <+: r) := by
  induction g with
  | nil => exact ⟨[], [], rfl, by simp, .inl rfl⟩
  | cons t g ih =>
      obtain ⟨w, r, hg, hw, hr⟩ := ih
      cases hcomment : t.isComment with
      | false =>
          have hbare : Gap.isBare [t] = true := by simp [Gap.isBare, hcomment]
          refine ⟨t.text ++ w, r, by rw [Gap.text_cons, hg, List.append_assoc], ?_, hr⟩
          intro c hc
          rcases List.mem_append.mp hc with hc | hc
          · exact isPhpSpace_of_isBare hbare (by simpa using hc)
          · exact hw c hc
      | true =>
          refine ⟨[], t.text ++ Gap.text g, rfl, by simp, .inr ?_⟩
          cases t with
          | space | tab | newline nl => simp [Trivia.isComment] at hcomment
          | line comment nl =>
              refine ⟨comment.marker, comment.marker_mem, ?_⟩
              simp only [Trivia.text, List.append_assoc]
              exact List.prefix_append ..
          | block comment =>
              refine ⟨['/', '*'], by simp [openers], ?_⟩
              simp only [Trivia.text, List.append_assoc]
              exact List.prefix_append ..

/-- What the trimming at both ends of a member leaves as it is. -/
def Member.IsClean (m : Member) : Prop :=
  (∀ c ∈ m.text.head?, isWhitespace c = false) ∧ ∀ c ∈ m.text.getLast?, isWhitespace c = false

theorem Member.notMem {m : Member} {c : Char} (h : isMemberChar c = false) : c ∉ m.text := by
  intro hc
  rw [Member.char_mem hc] at h
  cases h

theorem Member.leading {m : Member} (h : m.IsClean) (rest : Text) :
    leading (m.text ++ rest) = some 0 := by
  obtain ⟨c, tail, htext, -⟩ := m.head
  have hnot : ∀ d, isMemberChar d = false → c ≠ d := by
    rintro d hd rfl
    exact Member.notMem hd (htext ▸ List.mem_cons_self ..)
  rw [htext]
  exact leading_content (h.1 c (by rw [htext]; rfl)) (hnot '/' (by decide)) (hnot '#' (by decide))

/-- The content of a member and the gap behind it is the member. -/
theorem Member.trimEnd_content {m : Member} (h : m.IsClean) (g : Gap) :
    trimEnd ((m.text ++ g.text).take ((openers.filterMap (find · (m.text ++ g.text))).min?.getD
      (m.text ++ g.text).length)) = m.text := by
  obtain ⟨w, r, hg, hw, hr⟩ := g.text_split
  have hnot : ∀ d, isMemberChar d = false → isPhpSpace d = false → d ∉ m.text ++ w := by
    intro d hd hspace hmem
    rcases List.mem_append.mp hmem with hmem | hmem
    · exact Member.notMem hd hmem
    · rw [hw d hmem] at hspace
      cases hspace
  have htrim : trimEnd (m.text ++ w) = m.text := by
    rw [trimEnd, rdropWhile_append_of_all fun c hc => isWhitespace_of_isPhpSpace (hw c hc),
      List.rdropWhile_eq_self_iff]
    intro hne
    rw [h.2 _ (List.getLast?_eq_some_getLast hne)]
    exact Bool.false_ne_true
  have hslash := hnot '/' (by decide) (by decide)
  have hhash := hnot '#' (by decide) (by decide)
  rw [hg, ← List.append_assoc]
  rcases hr with rfl | ⟨o, ho, r, rfl⟩
  · rw [List.append_nil, firstOpener_none hslash hhash, Option.getD_none, List.take_length, htrim]
  · rw [← List.append_assoc, firstOpener ho hslash hhash, Option.getD_some, List.append_assoc,
      List.take_left, htrim]

theorem memberContentSpan_slot {g : Gap} {m : Member} {g' : Gap} (hg : g.IsClean) (hm : m.IsClean) :
    memberContentSpan (g.text ++ m.text ++ g'.text) =
      (g.text.length, g.text.length + m.text.length) := by
  have hleading : leading (g.text ++ m.text ++ g'.text) = some g.text.length := by
    rw [List.append_assoc, leading_gap hg, Member.leading hm]
    rfl
  rw [memberContentSpan, hleading]
  dsimp only
  rw [List.append_assoc, List.drop_left]
  exact congrArg (fun t : Text => (g.text.length, g.text.length + t.length))
    (Member.trimEnd_content hm g')

theorem itemContent_slot {g : Gap} {m : Member} {g' : Gap} (hg : g.IsClean) (hm : m.IsClean) :
    itemContent (g.text ++ m.text ++ g'.text) = m.text := by
  rw [itemContent, memberContentSpan_slot hg hm, ← List.length_append, List.take_left,
    List.drop_left]

theorem itemContent_gap {g : Gap} (hg : g.IsClean) : itemContent g.text = [] := by
  have hleading : leading g.text = some g.text.length := by
    have hnil : leading [] = some 0 := by rw [leading_eq]; rfl
    have := leading_gap hg []
    rw [List.append_nil, hnil] at this
    exact this
  rw [itemContent, memberContentSpan, hleading]
  simp

end PhpantomLsp.Imports
