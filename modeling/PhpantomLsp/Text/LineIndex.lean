import PhpantomLsp.Text.Positions

/-!
# The line table

`LineIndex` keeps the byte offsets the lines of a text start at, so that an
offset is converted to a position, and back, by looking at one line.  For an
offset that cuts the text, the position is that of the text before it
(`position_of_append`), and the way back returns the offset
(`byteOffset_position`).
-/

namespace PhpantomLsp.Text

open String (utf8Len utf8Len_append utf8Len_cons)
open Position

/-- The offset just past each line break. -/
def lineStartsFrom : List Char → Nat → List Nat
  | [], _ => []
  | ch :: rest, i =>
      if ch = '\n' then (i + 1) :: lineStartsFrom rest (i + 1)
      else lineStartsFrom rest (i + ch.utf8Size)

def lineStarts (content : List Char) : List Nat := 0 :: lineStartsFrom content 0

/-- `slice::binary_search` on a strictly increasing list: where `x` is, or
where it would have to be inserted. -/
def binarySearch (xs : List Nat) (x : Nat) : Except Nat Nat :=
  if x ∈ xs then .ok (xs.idxOf x) else .error (xs.filter (· < x)).length

structure LineIndex where
  content : List Char
  lineStarts : List Nat

namespace LineIndex

def new (content : List Char) : LineIndex := ⟨content, Text.lineStarts content⟩

def lineStart (lines : LineIndex) (line : Nat) : Nat :=
  lines.lineStarts[line]?.getD (utf8Len lines.content)

end LineIndex

/-- The least offset from `n` on that cuts the text, or its length. -/
def ceilCharBoundary : List Char → Nat → Nat
  | [], _ => 0
  | ch :: rest, n => if n = 0 then 0 else ch.utf8Size + ceilCharBoundary rest (n - ch.utf8Size)

/-- The UTF-16 code units of a text. -/
def utf16Len (xs : List Char) : Nat := (xs.map lenUtf16).sum

def positionIn (content : List Char) (lineStarts : List Nat) (offset : Nat) : Position :=
  let offset := ceilCharBoundary content (min offset (utf8Len content))
  let line := match binarySearch lineStarts offset with
    | .ok idx => idx
    | .error idx => idx - 1
  ⟨line, utf16Len (slice content (lineStarts[line]?.getD 0) offset)⟩

def LineIndex.position (lines : LineIndex) (offset : Nat) : Position :=
  positionIn lines.content lines.lineStarts offset

/-- The loop of `utf16_col_to_byte_offset`, at byte `i` and column `col`. -/
def utf16ColFrom (utf16Col : Nat) : List Char → (i col : Nat) → Nat
  | [], i, _ => i
  | ch :: rest, i, col =>
      if col = utf16Col then i
      else utf16ColFrom utf16Col rest (i + ch.utf8Size) (col + lenUtf16 ch)

def utf16ColToByteOffset (line : List Char) (utf16Col : Nat) : Nat := utf16ColFrom utf16Col line 0 0

/-- The byte offset of a position, through a line table. -/
def LineIndex.byteOffset (lines : LineIndex) (position : Position) : Nat :=
  let start := lines.lineStart position.line
  let stop := lines.lineStart (position.line + 1)
  start + utf16ColToByteOffset (slice lines.content start stop) position.character

/-! ## The line table of a text -/

@[simp] theorem utf8Size_newline : '\n'.utf8Size = 1 := by decide

theorem lineStartsFrom_append (xs ys : List Char) (i : Nat) :
    lineStartsFrom (xs ++ ys) i = lineStartsFrom xs i ++ lineStartsFrom ys (i + utf8Len xs) := by
  induction xs generalizing i with
  | nil => simp [lineStartsFrom]
  | cons ch xs ih =>
      by_cases hch : ch = '\n'
      · simp only [List.cons_append, lineStartsFrom, hch, if_true, ih, utf8Len_cons, utf8Size_newline]
        rw [show i + 1 + utf8Len xs = i + (utf8Len xs + 1) by omega]
      · simp only [List.cons_append, lineStartsFrom, hch, if_false, ih, utf8Len_cons]
        rw [show i + ch.utf8Size + utf8Len xs = i + (utf8Len xs + ch.utf8Size) by omega]

/-- The starts lie in the text. -/
theorem lineStartsFrom_bounds {xs : List Char} {i n : Nat} (h : n ∈ lineStartsFrom xs i) :
    i < n ∧ n ≤ i + utf8Len xs := by
  induction xs generalizing i with
  | nil => simp [lineStartsFrom] at h
  | cons ch xs ih =>
      by_cases hch : ch = '\n'
      · simp only [lineStartsFrom, hch, if_true, List.mem_cons] at h
        rw [utf8Len_cons, hch, utf8Size_newline]
        rcases h with rfl | h
        · omega
        · have := ih h
          omega
      · simp only [lineStartsFrom, hch, if_false] at h
        have := ih h
        rw [utf8Len_cons]
        omega

/-- The starts cut the text. -/
theorem exists_append_of_mem_lineStartsFrom {xs : List Char} {i n : Nat}
    (h : n ∈ lineStartsFrom xs i) : ∃ ys zs, xs = ys ++ zs ∧ i + utf8Len ys = n := by
  induction xs generalizing i with
  | nil => simp [lineStartsFrom] at h
  | cons ch xs ih =>
      have later (h : n ∈ lineStartsFrom xs (i + ch.utf8Size)) :
          ∃ ys zs, ch :: xs = ys ++ zs ∧ i + utf8Len ys = n := by
        obtain ⟨ys, zs, hxs, hn⟩ := ih h
        exact ⟨ch :: ys, zs, by rw [hxs]; rfl, by rw [utf8Len_cons]; omega⟩
      by_cases hch : ch = '\n'
      · have hsize : ch.utf8Size = 1 := by
          rw [hch]
          decide
        rw [lineStartsFrom, if_pos hch] at h
        rcases List.mem_cons.mp h with rfl | h
        · exact ⟨[ch], xs, rfl, by simp [hsize]⟩
        · apply later
          rw [hsize]
          exact h
      · rw [lineStartsFrom, if_neg hch] at h
        exact later h

/-- The first line break ends the first line; without one, the text does. -/
theorem exists_first_line (xs : List Char) (i : Nat) :
    ∃ line rest, xs = line ++ rest ∧
      (lineStartsFrom xs i)[0]?.getD (i + utf8Len xs) = i + utf8Len line := by
  induction xs generalizing i with
  | nil => exact ⟨[], [], rfl, rfl⟩
  | cons ch xs ih =>
      by_cases hch : ch = '\n'
      · exact ⟨[ch], xs, rfl, by simp [lineStartsFrom, hch]⟩
      · obtain ⟨line, rest, hxs, hstart⟩ := ih (i + ch.utf8Size)
        refine ⟨ch :: line, rest, by rw [hxs]; rfl, ?_⟩
        rw [lineStartsFrom, if_neg hch, utf8Len_cons, utf8Len_cons,
          show i + (utf8Len xs + ch.utf8Size) = i + ch.utf8Size + utf8Len xs by omega, hstart]
        omega

theorem lineStartsFrom_of_not_mem {xs : List Char} (h : '\n' ∉ xs) (i : Nat) :
    lineStartsFrom xs i = [] := by
  induction xs generalizing i with
  | nil => rfl
  | cons ch xs ih =>
      have hch : ¬ ch = '\n' := by
        intro hch
        exact h (by simp [hch])
      rw [lineStartsFrom, if_neg hch]
      exact ih (fun hmem => h (by simp [hmem])) _

/-- The number of the line a text ends on. -/
theorem after_line (xs : List Char) (p : Position) (i : Nat) :
    (p.after xs).line = p.line + (lineStartsFrom xs i).length := by
  induction xs generalizing p i with
  | nil => rfl
  | cons ch xs ih =>
      by_cases hch : ch = '\n'
      · rw [after_cons, ih _ (i + 1)]
        simp [lineStartsFrom, next, hch]
        omega
      · rw [after_cons, ih _ (i + ch.utf8Size)]
        simp [lineStartsFrom, next, hch]

theorem after_of_not_mem {xs : List Char} (h : '\n' ∉ xs) (p : Position) :
    p.after xs = ⟨p.line, p.character + utf16Len xs⟩ := by
  induction xs generalizing p with
  | nil => simp [utf16Len]
  | cons ch xs ih =>
      have hch : ¬ ch = '\n' := by
        intro hch
        exact h (by simp [hch])
      rw [after_cons, ih (fun hmem => h (by simp [hmem]))]
      simp [next, hch, utf16Len]
      omega

/-- A text is its lines up to the last line break, and the rest of its last
line. -/
theorem exists_last_line (xs : List Char) :
    ∃ lines last, xs = lines ++ last ∧ '\n' ∉ last ∧
      (lines = [] ∨ ∃ init, lines = init ++ ['\n']) := by
  induction xs using List.reverseRecOn with
  | nil => exact ⟨[], [], rfl, by simp, Or.inl rfl⟩
  | append_singleton xs ch ih =>
      by_cases hch : ch = '\n'
      · exact ⟨xs ++ [ch], [], by simp, by simp, Or.inr ⟨xs, by rw [hch]⟩⟩
      · obtain ⟨lines, last, hxs, hlast, hlines⟩ := ih
        refine ⟨lines, last ++ [ch], by simp [hxs], ?_, hlines⟩
        simp [hlast, Ne.symm hch]

/-! ## Offsets that cut the text -/

theorem ceilCharBoundary_append (xs ys : List Char) :
    ceilCharBoundary (xs ++ ys) (utf8Len xs) = utf8Len xs := by
  induction xs with
  | nil => cases ys <;> rfl
  | cons ch xs ih =>
      have hpos := Char.utf8Size_pos ch
      rw [List.cons_append, ceilCharBoundary, utf8Len_cons, if_neg (by omega),
        Nat.add_sub_cancel, ih]
      omega

/-- The walk along a line ends past the text that has its columns. -/
theorem utf16ColFrom_append (xs ys : List Char) (i col : Nat) :
    utf16ColFrom (col + utf16Len xs) (xs ++ ys) i col = i + utf8Len xs := by
  induction xs generalizing i col with
  | nil => cases ys <;> simp [utf16ColFrom, utf16Len]
  | cons ch xs ih =>
      have hpos := lenUtf16_pos ch
      have hlen : col + utf16Len (ch :: xs) = col + lenUtf16 ch + utf16Len xs := by
        simp [utf16Len]
        omega
      rw [List.cons_append, utf16ColFrom, hlen, if_neg (by omega), ih, utf8Len_cons]
      omega

/-- The walk along a line ends at an offset that cuts it. -/
theorem exists_append_of_utf16ColFrom (utf16Col : Nat) (xs : List Char) (i col : Nat) :
    ∃ ys zs, xs = ys ++ zs ∧ utf16ColFrom utf16Col xs i col = i + utf8Len ys := by
  induction xs generalizing i col with
  | nil => exact ⟨[], [], rfl, rfl⟩
  | cons ch xs ih =>
      by_cases hcol : col = utf16Col
      · exact ⟨[], ch :: xs, rfl, by simp [utf16ColFrom, hcol]⟩
      · obtain ⟨ys, zs, hxs, hend⟩ := ih (i + ch.utf8Size) (col + lenUtf16 ch)
        refine ⟨ch :: ys, zs, by rw [hxs]; rfl, ?_⟩
        rw [utf16ColFrom, if_neg hcol, hend, utf8Len_cons]
        omega

section LastLine

/-! A text cut inside the line `last ++ rest`, or at one of its ends. -/

variable {lines last rest : List Char} (hlast : '\n' ∉ last)
  (hlines : lines = [] ∨ ∃ init, lines = init ++ ['\n'])

include hlast in
theorem lineStarts_append :
    lineStarts (lines ++ (last ++ rest)) = 0 :: (lineStartsFrom lines 0 ++
      lineStartsFrom rest (utf8Len lines + utf8Len last)) := by
  rw [lineStarts, lineStartsFrom_append, lineStartsFrom_append, lineStartsFrom_of_not_mem hlast,
    Nat.zero_add, List.nil_append]

include hlines in
/-- The last line starts past the others, and they start before it. -/
theorem lineStarts_last :
    ∃ starts, 0 :: lineStartsFrom lines 0 = starts ++ [utf8Len lines] ∧
      ∀ n ∈ starts, n < utf8Len lines := by
  rcases hlines with rfl | ⟨init, rfl⟩
  · exact ⟨[], by simp [lineStartsFrom], by simp⟩
  · refine ⟨0 :: lineStartsFrom init 0, ?_, ?_⟩
    · simp [lineStartsFrom_append, lineStartsFrom]
    · intro n hn
      rw [utf8Len_append]
      simp only [utf8Len_cons, String.utf8Len_nil, utf8Size_newline]
      rcases List.mem_cons.mp hn with rfl | hn
      · omega
      · have := lineStartsFrom_bounds hn
        omega

include hlines in
theorem origin_after_lines :
    origin.after lines = ⟨(lineStartsFrom lines 0).length, 0⟩ := by
  have hline := after_line lines origin 0
  have hcharacter : (origin.after lines).character = 0 := by
    rcases hlines with rfl | ⟨init, rfl⟩
    · rfl
    · rw [after_append]
      simp [next]
  rw [show origin.line = 0 from rfl, Nat.zero_add] at hline
  rw [← hline, ← hcharacter]

include hlast hlines

/-- The search ends at the last line. -/
theorem binarySearch_lineStarts :
    (match binarySearch (lineStarts (lines ++ (last ++ rest))) (utf8Len lines + utf8Len last) with
      | .ok idx => idx
      | .error idx => idx - 1) = (lineStartsFrom lines 0).length := by
  obtain ⟨starts, hstarts, hbefore⟩ := lineStarts_last hlines
  have hlen : (lineStartsFrom lines 0).length = starts.length := by
    have := congrArg List.length hstarts
    simp only [List.length_cons, List.length_append, List.length_nil] at this
    omega
  have hafter : ∀ n ∈ lineStartsFrom rest (utf8Len lines + utf8Len last),
      utf8Len lines + utf8Len last < n := fun n hn => (lineStartsFrom_bounds hn).1
  rw [lineStarts_append hlast, ← List.cons_append, hstarts, hlen]
  generalize lineStartsFrom rest (utf8Len lines + utf8Len last) = later at hafter
  by_cases hempty : last = []
  · -- the offset is the start of the line
    have hnot : utf8Len lines ∉ starts := by
      intro hmem
      have := hbefore _ hmem
      omega
    simp only [hempty, String.utf8Len_nil, Nat.add_zero, binarySearch]
    rw [if_pos (by simp)]
    simp only [List.append_assoc]
    rw [List.idxOf_append_of_notMem hnot]
    simp
  · have hpos : 0 < utf8Len last := by
      apply Nat.pos_of_ne_zero
      intro h
      exact hempty (String.utf8Len_eq_zero.mp h)
    have hnot : utf8Len lines + utf8Len last ∉ starts ++ [utf8Len lines] ++ later := by
      intro hmem
      simp only [List.mem_append, List.mem_singleton] at hmem
      rcases hmem with (hmem | hmem) | hmem
      · have := hbefore _ hmem
        omega
      · omega
      · have := hafter _ hmem
        omega
    have hfirst : (starts ++ [utf8Len lines]).filter (· < utf8Len lines + utf8Len last) =
        starts ++ [utf8Len lines] := by
      apply List.filter_eq_self.mpr
      intro n hn
      rcases List.mem_append.mp hn with hn | hn
      · have := hbefore n hn
        exact decide_eq_true (by omega)
      · rw [List.mem_singleton.mp hn]
        exact decide_eq_true (by omega)
    have hlater : later.filter (· < utf8Len lines + utf8Len last) = [] := by
      apply List.filter_eq_nil_iff.mpr
      intro n hn
      have := hafter n hn
      simp only [decide_eq_true_eq]
      omega
    rw [binarySearch, if_neg hnot]
    simp only [List.filter_append _ later, hfirst, hlater]
    simp

/-- The table around the last line. -/
theorem lineStarts_split :
    ∃ starts, starts.length = (lineStartsFrom lines 0).length ∧
      lineStarts (lines ++ (last ++ rest)) = starts ++ utf8Len lines ::
        lineStartsFrom rest (utf8Len lines + utf8Len last) := by
  obtain ⟨starts, hstarts, -⟩ := lineStarts_last hlines
  have hlen := congrArg List.length hstarts
  simp only [List.length_cons, List.length_append, List.length_nil] at hlen
  refine ⟨starts, by omega, ?_⟩
  rw [lineStarts_append hlast, ← List.cons_append, hstarts]
  simp

theorem position_last_line :
    (LineIndex.new (lines ++ (last ++ rest))).position (utf8Len lines + utf8Len last) =
      ⟨(lineStartsFrom lines 0).length, utf16Len last⟩ := by
  have hceil : ceilCharBoundary (lines ++ (last ++ rest)) (min (utf8Len lines + utf8Len last)
      (utf8Len (lines ++ (last ++ rest)))) = utf8Len lines + utf8Len last := by
    have h := ceilCharBoundary_append (lines ++ last) rest
    rw [utf8Len_append, List.append_assoc] at h
    rw [Nat.min_eq_left (by simp only [utf8Len_append]; omega), h]
  have hsearch := @binarySearch_lineStarts _ _ rest hlast hlines
  have hget : (lineStarts (lines ++ (last ++ rest)))[(lineStartsFrom lines 0).length]? =
      some (utf8Len lines) := by
    obtain ⟨starts, hlen, hstarts⟩ := @lineStarts_split _ _ rest hlast hlines
    rw [hstarts, ← hlen]
    simp
  show positionIn (lines ++ (last ++ rest)) (lineStarts (lines ++ (last ++ rest))) _ = _
  simp only [positionIn, hceil, hsearch, hget]
  rw [Option.getD_some, slice_append]

theorem byteOffset_last_line :
    (LineIndex.new (lines ++ (last ++ rest))).byteOffset
      ⟨(lineStartsFrom lines 0).length, utf16Len last⟩ = utf8Len lines + utf8Len last := by
  obtain ⟨starts, hlen, hstarts⟩ := @lineStarts_split _ _ rest hlast hlines
  obtain ⟨line, later, hrest, hstop⟩ := exists_first_line rest (utf8Len lines + utf8Len last)
  have hstart : (LineIndex.new (lines ++ (last ++ rest))).lineStart
      (lineStartsFrom lines 0).length = utf8Len lines := by
    show (lineStarts _)[_]?.getD _ = _
    rw [hstarts, ← hlen]
    simp
  have hnext : (LineIndex.new (lines ++ (last ++ rest))).lineStart
      ((lineStartsFrom lines 0).length + 1) =
        utf8Len lines + utf8Len (last ++ line) := by
    show (lineStarts _)[_]?.getD (utf8Len (lines ++ (last ++ rest))) = _
    rw [hstarts, ← hlen, List.getElem?_append_right (by omega),
      show starts.length + 1 - starts.length = 0 + 1 by omega, List.getElem?_cons_succ,
      utf8Len_append, utf8Len_append, ← Nat.add_assoc, hstop, utf8Len_append]
    omega
  have hslice : slice (lines ++ (last ++ rest)) (utf8Len lines)
      (utf8Len lines + utf8Len (last ++ line)) = last ++ line := by
    rw [hrest, ← List.append_assoc last, slice_append]
  show (LineIndex.new _).lineStart _ + utf16ColToByteOffset (slice _ ((LineIndex.new _).lineStart _)
    ((LineIndex.new _).lineStart (_ + 1))) (utf16Len last) = _
  rw [hstart, hnext]
  show utf8Len lines + utf16ColToByteOffset (slice (lines ++ (last ++ rest)) _ _) _ = _
  have hcol := utf16ColFrom_append last line 0 0
  rw [Nat.zero_add, Nat.zero_add] at hcol
  rw [hslice, utf16ColToByteOffset, hcol]

end LastLine

/-- The position of an offset is the position after the text before it. -/
theorem position_of_append (xs ys : List Char) :
    (LineIndex.new (xs ++ ys)).position (utf8Len xs) = origin.after xs := by
  obtain ⟨lines, last, rfl, hlast, hlines⟩ := exists_last_line xs
  have h := @position_last_line _ _ ys hlast hlines
  rw [List.append_assoc, utf8Len_append, h, after_append, origin_after_lines hlines,
    after_of_not_mem hlast, Nat.zero_add]

/-- The way back from the position of an offset. -/
theorem byteOffset_position {content : List Char} {offset : Nat}
    (h : IsCharBoundary content offset) :
    (LineIndex.new content).byteOffset ((LineIndex.new content).position offset) = offset := by
  obtain ⟨xs, ys, rfl, rfl⟩ := isCharBoundary_iff.mp h
  obtain ⟨lines, last, rfl, hlast, hlines⟩ := exists_last_line xs
  rw [List.append_assoc, utf8Len_append, position_last_line hlast hlines,
    byteOffset_last_line hlast hlines]

/-- Every position is converted to an offset that cuts the text. -/
theorem isCharBoundary_byteOffset (content : List Char) (position : Position) :
    IsCharBoundary content ((LineIndex.new content).byteOffset position) := by
  have hstart : IsCharBoundary content ((LineIndex.new content).lineStart position.line) := by
    show IsCharBoundary content ((lineStarts content)[position.line]?.getD (utf8Len content))
    cases hget : (lineStarts content)[position.line]? with
    | none => exact isCharBoundary_iff.mpr ⟨content, [], by simp, rfl⟩
    | some n =>
        rcases List.mem_cons.mp (List.mem_of_getElem? hget) with rfl | hn
        · exact isCharBoundary_iff.mpr ⟨[], content, rfl, rfl⟩
        · obtain ⟨ys, zs, hcontent, hlen⟩ := exists_append_of_mem_lineStartsFrom hn
          exact isCharBoundary_iff.mpr ⟨ys, zs, hcontent, by
            rw [Nat.zero_add] at hlen
            exact hlen⟩
  obtain ⟨before, rest, hcontent, hbefore⟩ := isCharBoundary_iff.mp hstart
  have hdrop : dropBytes (utf8Len before) content = rest := by
    rw [hcontent, dropBytes_append]
  rw [LineIndex.byteOffset]
  show IsCharBoundary content (_ + utf16ColToByteOffset (slice content _ _) _)
  rw [slice, ← hbefore, hdrop]
  generalize (LineIndex.new content).lineStart (position.line + 1) - utf8Len before = n
  obtain ⟨ys, zs, hline, hend⟩ :=
    exists_append_of_utf16ColFrom position.character (takeBytes n rest) 0 0
  apply isCharBoundary_iff.mpr
  refine ⟨before ++ ys, zs ++ dropBytes n rest, ?_, ?_⟩
  · rw [List.append_assoc, ← List.append_assoc ys, ← hline, takeBytes_append_dropBytes, hcontent]
  · rw [utf16ColToByteOffset, hend, Nat.zero_add, utf8Len_append]

end PhpantomLsp.Text
