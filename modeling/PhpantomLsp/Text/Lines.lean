import Mathlib.Data.List.Chain
import PhpantomLsp.Text.LineIndex

/-!
# The lines of a text

`splitInclusive` cuts a text after each line break.  Lists of lines of this form
(`IsLines`) are the line lists of the texts they make up, so a text put
together from lines has those lines, as long as only the last is without its
line break.
-/

namespace PhpantomLsp.Text

/-- `str::split_inclusive('\n')` -/
def splitInclusive : List Char → List (List Char)
  | [] => []
  | ch :: rest =>
      if ch = '\n' then [ch] :: splitInclusive rest
      else
        match splitInclusive rest with
        | [] => [[ch]]
        | line :: lines => (ch :: line) :: lines

/-- `line.ends_with('\n')` -/
def Terminated (line : List Char) : Prop := line.getLast? = some '\n'

instance (line : List Char) : Decidable (Terminated line) :=
  inferInstanceAs (Decidable (_ = _))

/-- A line break stands at the end of a line only. -/
def IsLine (line : List Char) : Prop := line ≠ [] ∧ '\n' ∉ line.dropLast

/-- Lines, each but the last with its line break. -/
structure IsLines (lines : List (List Char)) : Prop where
  isLine : ∀ line ∈ lines, IsLine line
  terminated : lines.IsChain fun line _ => Terminated line

theorem IsLine.terminated_eq {line : List Char} (h : IsLine line) (hterm : Terminated line) :
    ∃ body, '\n' ∉ body ∧ line = body ++ ['\n'] :=
  ⟨line.dropLast, h.2, (List.dropLast_append_getLast? _ hterm).symm⟩

theorem IsLine.not_mem {line : List Char} (h : IsLine line) (hterm : ¬ Terminated line) :
    '\n' ∉ line := by
  intro hmem
  have hsplit := List.dropLast_append_getLast h.1
  rw [← hsplit] at hmem
  rcases List.mem_append.mp hmem with hmem | hmem
  · exact h.2 hmem
  · apply hterm
    show line.getLast? = some '\n'
    rw [List.getLast?_eq_some_getLast h.1, ← List.mem_singleton.mp hmem]

theorem splitInclusive_newline {body : List Char} (hbody : '\n' ∉ body) (rest : List Char) :
    splitInclusive (body ++ '\n' :: rest) = (body ++ ['\n']) :: splitInclusive rest := by
  induction body with
  | nil => rfl
  | cons ch body ih =>
      have hch : ¬ ch = '\n' := by
        intro hch
        exact hbody (by simp [hch])
      have ih := ih fun hmem => hbody (by simp [hmem])
      rw [List.cons_append, splitInclusive, if_neg hch, ih]
      rfl

theorem splitInclusive_of_not_mem {line : List Char} (hne : line ≠ []) (h : '\n' ∉ line) :
    splitInclusive line = [line] := by
  induction line with
  | nil => exact absurd rfl hne
  | cons ch line ih =>
      have hch : ¬ ch = '\n' := by
        intro hch
        exact h (by simp [hch])
      rw [splitInclusive, if_neg hch]
      by_cases hline : line = []
      · rw [hline]
        rfl
      · rw [ih hline fun hmem => h (by simp [hmem])]

theorem flatten_splitInclusive (text : List Char) : (splitInclusive text).flatten = text := by
  induction text with
  | nil => rfl
  | cons ch rest ih =>
      rw [splitInclusive]
      by_cases hch : ch = '\n'
      · rw [if_pos hch, List.flatten_cons, ih]
        rfl
      · rw [if_neg hch]
        cases hlines : splitInclusive rest with
        | nil =>
            rw [hlines] at ih
            rw [← ih]
            rfl
        | cons line lines =>
            rw [hlines] at ih
            show ch :: (line ++ lines.flatten) = ch :: rest
            rw [← ih]
            rfl

theorem isLines_splitInclusive (text : List Char) : IsLines (splitInclusive text) := by
  induction text with
  | nil => exact ⟨by simp [splitInclusive], List.IsChain.nil⟩
  | cons ch rest ih =>
      rw [splitInclusive]
      by_cases hch : ch = '\n'
      · rw [if_pos hch]
        constructor
        · intro line hline
          rcases List.mem_cons.mp hline with rfl | hline
          · exact ⟨by simp, by simp⟩
          · exact ih.isLine line hline
        · exact ih.terminated.cons fun line _ => by rw [Terminated, hch]; rfl
      · rw [if_neg hch]
        cases hlines : splitInclusive rest with
        | nil => exact ⟨by simp [IsLine], List.isChain_singleton _⟩
        | cons line lines =>
            rw [hlines] at ih
            have hfirst := ih.isLine line (by simp)
            constructor
            · intro l hl
              rcases List.mem_cons.mp hl with rfl | hl
              · refine ⟨by simp, ?_⟩
                rw [List.dropLast_cons_of_ne_nil hfirst.1]
                simp [hfirst.2, Ne.symm hch]
              · exact ih.isLine l (by simp [hl])
            · have hterm := List.isChain_cons.mp ih.terminated
              apply hterm.2.cons
              intro l hl
              have := hterm.1 l hl
              rw [Terminated, List.getLast?_cons_of_ne_nil hfirst.1]
              exact this

/-- The lines of a text made up of lines. -/
theorem splitInclusive_flatten {lines : List (List Char)} (h : IsLines lines) :
    splitInclusive lines.flatten = lines := by
  induction lines with
  | nil => rfl
  | cons line rest ih =>
      have hline := h.isLine line (by simp)
      have hrest : IsLines rest :=
        ⟨fun l hl => h.isLine l (by simp [hl]), h.terminated.tail⟩
      rw [List.flatten_cons]
      by_cases hterm : Terminated line
      · have ⟨body, hbody, hsplit⟩ := hline.terminated_eq hterm
        rw [hsplit, List.append_assoc]
        show splitInclusive (body ++ '\n' :: rest.flatten) = _
        rw [splitInclusive_newline hbody, ih hrest]
      · cases rest with
        | nil =>
            rw [List.flatten_nil, List.append_nil,
              splitInclusive_of_not_mem hline.1 (hline.not_mem hterm)]
        | cons next rest =>
            exact absurd (List.isChain_cons_cons.mp h.terminated).1 hterm

/-- A line with a line after it has its line break. -/
theorem IsLines.terminated_of_lt {lines : List (List Char)} (h : IsLines lines) {k : Nat}
    (hk : k + 1 < lines.length) : Terminated lines[k] :=
  List.isChain_iff_getElem.mp h.terminated k hk

/-! ## Where a line starts -/

theorem after_line_end {line : List Char} (h : IsLine line) (hterm : Terminated line) (n : Nat) :
    Position.after ⟨n, 0⟩ line = ⟨n + 1, 0⟩ := by
  have ⟨body, hbody, hline⟩ := h.terminated_eq hterm
  rw [hline, Position.after_append, after_of_not_mem hbody]
  simp [Position.next]

theorem after_lines {lines : List (List Char)} (hlines : ∀ line ∈ lines, IsLine line)
    (hterm : ∀ line ∈ lines, Terminated line) (n : Nat) :
    Position.after ⟨n, 0⟩ lines.flatten = ⟨n + lines.length, 0⟩ := by
  induction lines generalizing n with
  | nil => rfl
  | cons line rest ih =>
      rw [List.flatten_cons, Position.after_append,
        after_line_end (hlines line (by simp)) (hterm line (by simp)),
        ih (fun l hl => hlines l (by simp [hl])) (fun l hl => hterm l (by simp [hl]))]
      simp
      omega

/-- The position after the lines before line `k`. -/
theorem after_take_lines {lines : List (List Char)} (h : IsLines lines) {k : Nat}
    (hk : k < lines.length) : Position.origin.after (lines.take k).flatten = ⟨k, 0⟩ := by
  have hterm (line : List Char) (hline : line ∈ lines.take k) : Terminated line := by
    have ⟨i, hi, heq⟩ := List.mem_take_iff_getElem.mp hline
    rw [← heq]
    exact h.terminated_of_lt (by omega)
  have := after_lines (fun line hline => h.isLine line (List.mem_of_mem_take hline)) hterm 0
  rw [List.length_take, Nat.min_eq_left (Nat.le_of_lt hk), Nat.zero_add] at this
  exact this

/-- The position after all the lines. -/
theorem after_flatten_lines {lines : List (List Char)} (h : IsLines lines) {last : List Char}
    (hlast : lines.getLast? = some last) :
    Position.origin.after lines.flatten =
      if Terminated last then ⟨lines.length, 0⟩ else ⟨lines.length - 1, utf16Len last⟩ := by
  have hsplit : lines.dropLast ++ [last] = lines := List.dropLast_append_getLast? _ hlast
  have hpos : 0 < lines.length := by
    rw [← hsplit]
    simp
  have hline := h.isLine last (List.mem_of_getLast? hlast)
  have hinit := after_take_lines h (show lines.length - 1 < lines.length by omega)
  rw [← List.dropLast_eq_take] at hinit
  conv => lhs; rw [← hsplit]
  rw [List.flatten_append, Position.after_append, hinit, List.flatten_singleton]
  by_cases hterm : Terminated last
  · rw [if_pos hterm, after_line_end hline hterm, Nat.sub_add_cancel hpos]
  · rw [if_neg hterm, after_of_not_mem (hline.not_mem hterm), Nat.zero_add]

end PhpantomLsp.Text
