import PhpantomLsp.Text.LineIndex

/-!
# Offsets to positions, without a table

`offset_to_position` walks the text to the offset; `LineIndex::position` looks
the line up and walks that line alone.  Both answer the position after the
characters that begin before the offset (`offsetToPosition_eq`,
`position_eq`), so they agree on every offset, inside a character and past the
end included, and `position_to_byte_offset` leads back from every offset that
cuts the text.

A line or a column is never larger than the text has bytes
(`position_le_utf8Len`): the `u32` it is counted in does not wrap on a text
below four gigabytes.
-/

namespace PhpantomLsp.Text

open String (utf8Len utf8Len_append utf8Len_cons)
open Position

/-- The loop of `offset_to_position`, at byte `i`. -/
def offsetToPositionFrom (offset : Nat) : List Char → (i line col : Nat) → Position
  | [], _, line, col => ⟨line, col⟩
  | ch :: rest, i, line, col =>
      if offset ≤ i then ⟨line, col⟩
      else if ch = '\n' then offsetToPositionFrom offset rest (i + ch.utf8Size) (line + 1) 0
      else offsetToPositionFrom offset rest (i + ch.utf8Size) line (col + lenUtf16 ch)

def offsetToPosition (content : List Char) (offset : Nat) : Position :=
  offsetToPositionFrom offset content 0 0 0

/-- The characters of a text that begin before byte `n`. -/
def charsBefore : Nat → List Char → List Char
  | _, [] => []
  | n, ch :: rest => if n = 0 then [] else ch :: charsBefore (n - ch.utf8Size) rest

theorem exists_charsBefore_append (n : Nat) (xs : List Char) : ∃ ys, xs = charsBefore n xs ++ ys := by
  induction xs generalizing n with
  | nil => exact ⟨[], rfl⟩
  | cons ch xs ih =>
      by_cases hn : n = 0
      · exact ⟨ch :: xs, by simp [charsBefore, hn]⟩
      · obtain ⟨ys, hys⟩ := ih (n - ch.utf8Size)
        exact ⟨ys, by rw [charsBefore, if_neg hn, List.cons_append, ← hys]⟩

theorem utf8Len_charsBefore (n : Nat) (xs : List Char) :
    utf8Len (charsBefore n xs) = ceilCharBoundary xs n := by
  induction xs generalizing n with
  | nil => rfl
  | cons ch xs ih =>
      by_cases hn : n = 0
      · simp [charsBefore, ceilCharBoundary, hn]
      · rw [charsBefore, ceilCharBoundary, if_neg hn, if_neg hn, utf8Len_cons, ih, Nat.add_comm]

/-- Past the end there is nothing more to begin. -/
theorem charsBefore_min (n : Nat) (xs : List Char) :
    charsBefore (min n (utf8Len xs)) xs = charsBefore n xs := by
  induction xs generalizing n with
  | nil => rfl
  | cons ch xs ih =>
      have hpos := Char.utf8Size_pos ch
      by_cases hn : n = 0
      · simp [charsBefore, hn]
      · have hmin : min n (utf8Len (ch :: xs)) ≠ 0 := by
          rw [utf8Len_cons]
          omega
        rw [charsBefore, charsBefore, if_neg hn, if_neg hmin, ← ih (n - ch.utf8Size),
          show min n (utf8Len (ch :: xs)) - ch.utf8Size = min (n - ch.utf8Size) (utf8Len xs) by
            rw [utf8Len_cons]
            omega]

/-- A later offset has the characters of an earlier one before it. -/
theorem exists_charsBefore_of_le {m n : Nat} (h : m ≤ n) (xs : List Char) :
    ∃ ys, charsBefore n xs = charsBefore m xs ++ ys := by
  induction xs generalizing m n with
  | nil => exact ⟨[], rfl⟩
  | cons ch xs ih =>
      by_cases hm : m = 0
      · exact ⟨charsBefore n (ch :: xs), by simp [charsBefore, hm]⟩
      · obtain ⟨ys, hys⟩ := @ih (m - ch.utf8Size) (n - ch.utf8Size) (by omega)
        refine ⟨ys, ?_⟩
        rw [charsBefore, charsBefore, if_neg hm, if_neg (by omega), List.cons_append, hys]

theorem charsBefore_utf8Len (xs ys : List Char) : charsBefore (utf8Len xs) (xs ++ ys) = xs := by
  induction xs with
  | nil => cases ys <;> rfl
  | cons ch xs ih =>
      have hpos := Char.utf8Size_pos ch
      rw [List.cons_append, charsBefore, if_neg (by rw [utf8Len_cons]; omega), utf8Len_cons,
        Nat.add_sub_cancel, ih]

/-! ## The two conversions -/

theorem offsetToPositionFrom_eq (offset : Nat) (xs : List Char) (i : Nat) (p : Position) :
    offsetToPositionFrom offset xs i p.line p.character =
      p.after (charsBefore (offset - i) xs) := by
  induction xs generalizing i p with
  | nil => rfl
  | cons ch xs ih =>
      rw [offsetToPositionFrom, charsBefore]
      by_cases hi : offset ≤ i
      · rw [if_pos hi, if_pos (by omega)]
        rfl
      · rw [if_neg hi, if_neg (show ¬ offset - i = 0 by omega), after_cons, Nat.sub_sub,
          ← ih (i + ch.utf8Size) (p.next ch)]
        by_cases hch : ch = '\n'
        · rw [if_pos hch, next, if_pos hch]
        · rw [if_neg hch, next, if_neg hch]

theorem offsetToPosition_eq (content : List Char) (offset : Nat) :
    offsetToPosition content offset = origin.after (charsBefore offset content) :=
  offsetToPositionFrom_eq offset content 0 origin

/-- An offset is converted as the next one that cuts the text is. -/
theorem position_ceil (content : List Char) (offset : Nat) :
    (LineIndex.new content).position offset =
      (LineIndex.new content).position (utf8Len (charsBefore offset content)) := by
  have hceil : ceilCharBoundary content (min offset (utf8Len content)) =
      utf8Len (charsBefore offset content) := by
    rw [← utf8Len_charsBefore, charsBefore_min]
  have hcut : ceilCharBoundary content
      (min (utf8Len (charsBefore offset content)) (utf8Len content)) =
        utf8Len (charsBefore offset content) := by
    obtain ⟨ys, hys⟩ := exists_charsBefore_append offset content
    have happend := ceilCharBoundary_append (charsBefore offset content) ys
    rw [← hys] at happend
    have hle := congrArg utf8Len hys
    rw [utf8Len_append] at hle
    rw [Nat.min_eq_left (by omega), happend]
  show positionIn content (lineStarts content) _ = positionIn content (lineStarts content) _
  rw [positionIn, positionIn, hceil, hcut]

theorem position_eq (content : List Char) (offset : Nat) :
    (LineIndex.new content).position offset = origin.after (charsBefore offset content) := by
  obtain ⟨ys, hys⟩ := exists_charsBefore_append offset content
  have happend := position_of_append (charsBefore offset content) ys
  rw [← hys] at happend
  rw [position_ceil, happend]

/-! ## Bounds -/

/-- A character has no more code units than bytes. -/
theorem lenUtf16_le_utf8Size (ch : Char) : lenUtf16 ch ≤ ch.utf8Size := by
  have hpos := Char.utf8Size_pos ch
  unfold lenUtf16
  split
  · exact hpos
  · rename_i hlarge
    have hval : ¬ ch.val ≤ 0x7f := by
      intro h
      exact hlarge (Nat.lt_of_le_of_lt h (by decide))
    unfold Char.utf8Size
    dsimp only
    split
    · rename_i hsmall
      exact absurd hsmall hval
    · split_ifs <;> omega

theorem after_le_utf8Len (xs : List Char) (p : Position) :
    (p.after xs).line ≤ p.line + utf8Len xs ∧
      (p.after xs).character ≤ p.character + utf8Len xs := by
  induction xs generalizing p with
  | nil => simp
  | cons ch xs ih =>
      have hstep := ih (p.next ch)
      rw [after_cons, utf8Len_cons]
      by_cases hch : ch = '\n'
      · have hsize : ch.utf8Size = 1 := by rw [hch, utf8Size_newline]
        simp only [next, hch, if_true] at hstep ⊢
        rw [hch] at hsize
        omega
      · have hsize : lenUtf16 ch ≤ ch.utf8Size := lenUtf16_le_utf8Size ch
        simp only [next, hch, if_false] at hstep ⊢
        omega

theorem position_le_utf8Len (content : List Char) (offset : Nat) :
    (offsetToPosition content offset).line ≤ utf8Len content ∧
      (offsetToPosition content offset).character ≤ utf8Len content := by
  obtain ⟨ys, hys⟩ := exists_charsBefore_append offset content
  have hlen := congrArg utf8Len hys
  have hbounds := after_le_utf8Len (charsBefore offset content) origin
  rw [utf8Len_append] at hlen
  rw [offsetToPosition_eq]
  simp only [origin] at hbounds ⊢
  omega

/-- The table answers what the walk does; the way back from an offset that
cuts the text returns it; a later offset has no earlier position. -/
theorem position_conversions (content : List Char) :
    (∀ offset, (LineIndex.new content).position offset = offsetToPosition content offset) ∧
      (∀ offset, IsCharBoundary content offset →
        positionToByteOffset content (offsetToPosition content offset) = offset) ∧
      ∀ earlier later, earlier ≤ later →
        Before (offsetToPosition content earlier) (offsetToPosition content later) ∨
          offsetToPosition content earlier = offsetToPosition content later := by
  refine ⟨?_, ?_, ?_⟩
  · intro offset
    rw [position_eq, offsetToPosition_eq]
  · intro offset hcut
    obtain ⟨xs, ys, rfl, rfl⟩ := isCharBoundary_iff.mp hcut
    rw [offsetToPosition_eq, charsBefore_utf8Len, positionToByteOffset_eq, place,
      placeFrom_after, List.take_left]
  · intro earlier later hle
    obtain ⟨ys, hys⟩ := exists_charsBefore_of_le hle content
    rw [offsetToPosition_eq, offsetToPosition_eq, hys, after_append]
    cases ys with
    | nil => exact .inr rfl
    | cons ch ys => exact .inl (before_after_cons _ ch ys)

end PhpantomLsp.Text
