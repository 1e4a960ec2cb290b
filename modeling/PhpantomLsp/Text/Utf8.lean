import Mathlib

/-!
# Byte offsets

A text is the list of its characters.  A byte offset counts the bytes of their
UTF-8 encoding; a character begins at `utf8Len (xs.take k)`, and cutting a
text at such an offset is cutting it at `k`.

An offset at the start of a character, or at the end of the text, cuts the
text in two parts the first of which has that many bytes
(`isCharBoundary_iff`).
-/

namespace PhpantomLsp.Text

open String (utf8Len utf8Len_append utf8Len_cons)

/-- `&xs[..n]`, for `n` at the start of a character. -/
def takeBytes (n : Nat) : List Char → List Char
  | [] => []
  | c :: rest => if c.utf8Size ≤ n then c :: takeBytes (n - c.utf8Size) rest else []

/-- `&xs[n..]`, for `n` at the start of a character. -/
def dropBytes (n : Nat) : List Char → List Char
  | [] => []
  | c :: rest => if c.utf8Size ≤ n then dropBytes (n - c.utf8Size) rest else c :: rest

/-- Cutting where the text of `xs` ends. -/
theorem takeBytes_append (xs ys : List Char) : takeBytes (utf8Len xs) (xs ++ ys) = xs := by
  induction xs with
  | nil =>
      cases ys with
      | nil => rfl
      | cons c ys => simp [takeBytes, Nat.not_le.mpr (Char.utf8Size_pos c)]
  | cons c xs ih => simp [takeBytes, ih]

theorem dropBytes_append (xs ys : List Char) : dropBytes (utf8Len xs) (xs ++ ys) = ys := by
  induction xs with
  | nil =>
      cases ys with
      | nil => rfl
      | cons c ys => simp [dropBytes, Nat.not_le.mpr (Char.utf8Size_pos c)]
  | cons c xs ih => simp [dropBytes, ih]

theorem takeBytes_utf8Len_take (xs : List Char) (k : Nat) :
    takeBytes (utf8Len (xs.take k)) xs = xs.take k := by
  have h := takeBytes_append (xs.take k) (xs.drop k)
  rwa [List.take_append_drop] at h

theorem dropBytes_utf8Len_take (xs : List Char) (k : Nat) :
    dropBytes (utf8Len (xs.take k)) xs = xs.drop k := by
  have h := dropBytes_append (xs.take k) (xs.drop k)
  rwa [List.take_append_drop] at h

/-- Every character is a byte at least. -/
theorem length_le_utf8Len (xs : List Char) : xs.length ≤ utf8Len xs := by
  induction xs with
  | nil => simp
  | cons c xs ih =>
      have := Char.utf8Size_pos c
      simp only [List.length_cons, utf8Len_cons]
      omega

/-- Byte offsets are in the order of the characters they are offsets of. -/
theorem utf8Len_take_le_iff {xs : List Char} {i j : Nat} (hi : i ≤ xs.length)
    (hj : j ≤ xs.length) :
    utf8Len (xs.take i) ≤ utf8Len (xs.take j) ↔ i ≤ j := by
  have split {a b : Nat} (hab : a ≤ b) (hb : b ≤ xs.length) :
      utf8Len (xs.take a) + utf8Len ((xs.drop a).take (b - a)) = utf8Len (xs.take b) ∧
        b - a ≤ utf8Len ((xs.drop a).take (b - a)) := by
    constructor
    · rw [← utf8Len_append, ← List.take_add, show a + (b - a) = b by omega]
    · have := length_le_utf8Len ((xs.drop a).take (b - a))
      simp only [List.length_take, List.length_drop] at this
      omega
  constructor
  · intro h
    by_contra hlt
    have := split (show j ≤ i by omega) hi
    omega
  · intro h
    have := split h hj
    omega

/-! ## Offsets that cut a text -/

/-- `str::is_char_boundary` -/
def IsCharBoundary (xs : List Char) (n : Nat) : Prop := utf8Len (takeBytes n xs) = n

instance (xs : List Char) (n : Nat) : Decidable (IsCharBoundary xs n) :=
  inferInstanceAs (Decidable (_ = _))

theorem takeBytes_append_dropBytes (n : Nat) (xs : List Char) :
    takeBytes n xs ++ dropBytes n xs = xs := by
  induction xs generalizing n with
  | nil => rfl
  | cons c xs ih =>
      by_cases h : c.utf8Size ≤ n
      · simp [takeBytes, dropBytes, h, ih]
      · simp [takeBytes, dropBytes, h]

theorem isCharBoundary_iff {xs : List Char} {n : Nat} :
    IsCharBoundary xs n ↔ ∃ ys zs, xs = ys ++ zs ∧ utf8Len ys = n := by
  constructor
  · intro h
    exact ⟨takeBytes n xs, dropBytes n xs, (takeBytes_append_dropBytes n xs).symm, h⟩
  · rintro ⟨ys, zs, rfl, rfl⟩
    rw [IsCharBoundary, takeBytes_append]

theorem IsCharBoundary.le {xs : List Char} {n : Nat} (h : IsCharBoundary xs n) :
    n ≤ utf8Len xs := by
  obtain ⟨ys, zs, rfl, rfl⟩ := isCharBoundary_iff.mp h
  simp

/-- Of two beginnings of a text, the one with fewer bytes is a beginning of
the other. -/
theorem exists_append_of_utf8Len_le {xs ys xs' ys' : List Char} (h : xs ++ ys = xs' ++ ys')
    (hle : utf8Len xs ≤ utf8Len xs') : ∃ zs, xs' = xs ++ zs ∧ ys = zs ++ ys' := by
  rcases List.append_eq_append_iff.mp h with ⟨zs, hxs, hys⟩ | ⟨zs, hxs, hys⟩
  · exact ⟨zs, hxs, hys⟩
  · have hzs : zs = [] := by
      rw [hxs, utf8Len_append] at hle
      exact String.utf8Len_eq_zero.mp (by omega)
    exact ⟨[], by simp [hxs, hzs], by simp [hys, hzs]⟩

/-- `&xs[start..stop]` -/
def slice (xs : List Char) (start stop : Nat) : List Char :=
  takeBytes (stop - start) (dropBytes start xs)

theorem slice_append (xs ys zs : List Char) :
    slice (xs ++ (ys ++ zs)) (utf8Len xs) (utf8Len xs + utf8Len ys) = ys := by
  rw [slice, dropBytes_append, Nat.add_sub_cancel_left, takeBytes_append]

theorem takeBytes_zero (xs : List Char) : takeBytes 0 xs = [] := by
  have h := takeBytes_append [] xs
  exact h

theorem slice_of_le (xs : List Char) {start stop : Nat} (h : stop ≤ start) :
    slice xs start stop = [] := by
  rw [slice, Nat.sub_eq_zero_of_le h, takeBytes_zero]

/-- `str::get(start..stop)` -/
def getSlice (xs : List Char) (start stop : Nat) : Option (List Char) :=
  if start ≤ stop ∧ IsCharBoundary xs start ∧ IsCharBoundary xs stop then
    some (slice xs start stop)
  else none

theorem getSlice_eq_some {xs ys : List Char} {start stop : Nat}
    (h : getSlice xs start stop = some ys) :
    ∃ before after, xs = before ++ (ys ++ after) ∧ utf8Len before = start ∧
      utf8Len before + utf8Len ys = stop := by
  by_cases hget : start ≤ stop ∧ IsCharBoundary xs start ∧ IsCharBoundary xs stop
  · rw [getSlice, if_pos hget, Option.some.injEq] at h
    obtain ⟨hle, hstart, hstop⟩ := hget
    obtain ⟨before, rest, hbefore, rfl⟩ := isCharBoundary_iff.mp hstart
    obtain ⟨upto, after, hupto, rfl⟩ := isCharBoundary_iff.mp hstop
    obtain ⟨between, rfl, rfl⟩ := exists_append_of_utf8Len_le (hbefore.symm.trans hupto) hle
    have hys : between = ys := by
      rw [← h, hbefore, utf8Len_append, slice_append]
    exact ⟨before, after, by rw [hbefore, hys], rfl, by rw [← hys, utf8Len_append]⟩
  · rw [getSlice, if_neg hget] at h
    exact absurd h (by simp)

end PhpantomLsp.Text
