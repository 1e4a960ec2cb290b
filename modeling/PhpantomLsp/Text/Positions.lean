import PhpantomLsp.Text.Utf8

/-!
# Lines and columns

A position counts lines and UTF-16 code units.  `positionToByteOffset` walks
the text to the place a position denotes and stops short of it at the end of
the line or of the text.

The walk reads the text up to the place it stops at and, when the position is
not the position of that place, the character there.  A text that agrees with
another up to `m` therefore has the same place for a position that is settled
by `m` (`place_of_take`).
-/

namespace PhpantomLsp.Text

open String (utf8Len)

structure Position where
  line : Nat
  character : Nat
deriving DecidableEq

structure Range where
  start : Position
  stop : Position
deriving DecidableEq

/-- `char::len_utf16` -/
def lenUtf16 (ch : Char) : Nat := if ch.toNat < 0x10000 then 1 else 2

/-- The loop of `position_to_byte_offset`, at byte `i`. -/
def offsetFrom (position : Position) : List Char → (i line col : Nat) → Nat
  | [], i, _, _ => i
  | ch :: rest, i, line, col =>
      if line = position.line ∧ col = position.character then i
      else if ch = '\n' then
        -- past the end of this line: clamp to the newline
        if line = position.line then i
        else offsetFrom position rest (i + ch.utf8Size) (line + 1) 0
      else offsetFrom position rest (i + ch.utf8Size) line (col + lenUtf16 ch)

def positionToByteOffset (content : List Char) (position : Position) : Nat :=
  offsetFrom position content 0 0 0

/-! ## Places

The same walk, counting characters. -/

namespace Position

def origin : Position := ⟨0, 0⟩

/-- The position after one character. -/
def next (p : Position) (ch : Char) : Position :=
  if ch = '\n' then ⟨p.line + 1, 0⟩ else ⟨p.line, p.character + lenUtf16 ch⟩

/-- The position after a text. -/
def after (p : Position) (xs : List Char) : Position := xs.foldl next p

/-- Lines first, then columns. -/
def Before (p q : Position) : Prop :=
  p.line < q.line ∨ (p.line = q.line ∧ p.character < q.character)

instance (p q : Position) : Decidable (Before p q) := inferInstanceAs (Decidable (_ ∨ _))

/-- The walk to `target` stops before `ch`. -/
def StopsAt (target p : Position) (ch : Char) : Prop :=
  p = target ∨ (ch = '\n' ∧ p.line = target.line)

instance (target p : Position) (ch : Char) : Decidable (StopsAt target p ch) :=
  inferInstanceAs (Decidable (_ ∨ _))

theorem Before.trans {p q r : Position} (h : Before p q) (h' : Before q r) : Before p r := by
  simp only [Before] at *
  omega

theorem Before.irrefl (p : Position) : ¬ Before p p := by
  simp [Before]

theorem eq_of_not_before {p q : Position} (h : ¬ Before p q) (h' : ¬ Before q p) : p = q := by
  have hline : p.line = q.line ∧ p.character = q.character := by
    simp only [Before] at h h'
    omega
  cases p
  cases q
  exact congrArg₂ Position.mk hline.1 hline.2

theorem lenUtf16_pos (ch : Char) : 0 < lenUtf16 ch := by
  unfold lenUtf16
  split <;> omega

/-- Each character moves the position on. -/
theorem before_next (p : Position) (ch : Char) : Before p (p.next ch) := by
  have := lenUtf16_pos ch
  by_cases hch : ch = '\n'
  · simp [next, hch, Before]
  · simp [next, hch, Before, this]

@[simp] theorem after_nil (p : Position) : p.after [] = p := rfl

@[simp] theorem after_cons (p : Position) (ch : Char) (xs : List Char) :
    p.after (ch :: xs) = (p.next ch).after xs := rfl

theorem after_append (p : Position) (xs ys : List Char) :
    p.after (xs ++ ys) = (p.after xs).after ys :=
  List.foldl_append

theorem before_after_cons (p : Position) (ch : Char) (xs : List Char) :
    Before p (p.after (ch :: xs)) := by
  induction xs generalizing p ch with
  | nil => exact before_next p ch
  | cons c xs ih => exact (before_next p ch).trans (ih (p.next ch) c)

theorem line_le_after (p : Position) (xs : List Char) : p.line ≤ (p.after xs).line := by
  cases xs with
  | nil => exact Nat.le_refl _
  | cons c xs =>
      have := before_after_cons p c xs
      simp only [Before] at this
      omega

/-- Past a line break, the column the text started at does not matter. -/
theorem after_of_line_ne {p q : Position} {xs : List Char} (hline : p.line = q.line)
    (h : (q.after xs).line ≠ q.line) : p.after xs = q.after xs := by
  induction xs generalizing p q with
  | nil => exact absurd rfl h
  | cons ch xs ih =>
      rw [after_cons] at h ⊢
      rw [after_cons]
      by_cases hch : ch = '\n'
      · simp [next, hch, hline]
      · have hnext : (q.next ch).line = q.line := by simp [next, hch]
        apply ih
        · simp [next, hch, hline]
        · rw [hnext]
          exact h

end Position

open Position

/-- The characters the walk to `target` passes. -/
def placeFrom (target : Position) : List Char → Position → Nat
  | [], _ => 0
  | ch :: rest, p => if StopsAt target p ch then 0 else placeFrom target rest (p.next ch) + 1

/-- The place of `content` that `position` denotes. -/
def place (content : List Char) (position : Position) : Nat := placeFrom position content origin

theorem placeFrom_le (target : Position) (xs : List Char) (p : Position) :
    placeFrom target xs p ≤ xs.length := by
  induction xs generalizing p with
  | nil => simp [placeFrom]
  | cons ch xs ih =>
      by_cases hstop : StopsAt target p ch
      · simp [placeFrom, hstop]
      · simpa [placeFrom, hstop] using ih (p.next ch)

theorem place_le (content : List Char) (position : Position) :
    place content position ≤ content.length :=
  placeFrom_le _ _ _

theorem offsetFrom_eq (target : Position) (xs : List Char) (i : Nat) (p : Position) :
    offsetFrom target xs i p.line p.character =
      i + utf8Len (xs.take (placeFrom target xs p)) := by
  induction xs generalizing i p with
  | nil => simp [offsetFrom, placeFrom]
  | cons ch xs ih =>
      have hp : p = target ↔ p.line = target.line ∧ p.character = target.character := by
        cases p
        cases target
        simp
      by_cases hstop : StopsAt target p ch
      · rw [placeFrom, if_pos hstop]
        by_cases hat : p = target
        · simp [offsetFrom, hp.mp hat]
        · obtain ⟨hch, hline⟩ := hstop.resolve_left hat
          simp [offsetFrom, hch, hline]
      · have hnot : ¬ (p.line = target.line ∧ p.character = target.character) := by
          intro h
          exact hstop (Or.inl (hp.mpr h))
        rw [placeFrom, if_neg hstop, offsetFrom, if_neg hnot, List.take_succ_cons,
          String.utf8Len_cons]
        by_cases hch : ch = '\n'
        · have hline : p.line ≠ target.line := by
            intro h
            exact hstop (Or.inr ⟨hch, h⟩)
          have := ih (i + ch.utf8Size) (p.next ch)
          rw [if_pos hch, if_neg hline]
          simp only [next, hch, if_true] at this ⊢
          omega
        · have := ih (i + ch.utf8Size) (p.next ch)
          rw [if_neg hch]
          simp only [next, hch, if_false] at this ⊢
          omega

/-- The byte offset of a position is that of its place. -/
theorem positionToByteOffset_eq (content : List Char) (position : Position) :
    positionToByteOffset content position = utf8Len (content.take (place content position)) := by
  have h := offsetFrom_eq position content 0 origin
  rw [Nat.zero_add] at h
  exact h

/-! ## What the walk reads -/

/-- The walk to the position after `xs` ends there. -/
theorem placeFrom_after (xs rest : List Char) (p : Position) :
    placeFrom (p.after xs) (xs ++ rest) p = xs.length := by
  induction xs generalizing p with
  | nil =>
      cases rest with
      | nil => rfl
      | cons ch rest => simp [placeFrom, StopsAt]
  | cons ch xs ih =>
      have hbefore := before_after_cons p ch xs
      have hstop : ¬ StopsAt (p.after (ch :: xs)) p ch := by
        rintro (hp | ⟨hch, hline⟩)
        · rw [← hp] at hbefore
          exact Before.irrefl _ hbefore
        · have := line_le_after (p.next ch) xs
          simp only [after_cons] at hline
          simp only [next, hch, if_true] at this hline
          omega
      rw [List.cons_append, placeFrom, if_neg hstop, after_cons, ih (p.next ch)]
      rfl

/-- The walk to a position does not leave its line. -/
theorem placeFrom_newline_le {target p : Position} {xs : List Char} (rest : List Char)
    (h : (p.after xs).line = target.line) :
    placeFrom target (xs ++ '\n' :: rest) p ≤ xs.length := by
  induction xs generalizing p with
  | nil => simp [placeFrom, StopsAt, show p.line = target.line from h]
  | cons ch xs ih =>
      by_cases hstop : StopsAt target p ch
      · simp [placeFrom, hstop]
      · have := ih (p := p.next ch) h
        simp only [List.cons_append, placeFrom, hstop, if_false, List.length_cons]
        omega

/-- A walk that stops inside `xs` has read nothing past it. -/
theorem placeFrom_of_lt {target p : Position} {xs rest : List Char} (rest' : List Char)
    (h : placeFrom target (xs ++ rest) p < xs.length) :
    placeFrom target (xs ++ rest') p = placeFrom target (xs ++ rest) p := by
  induction xs generalizing p with
  | nil => simp at h
  | cons ch xs ih =>
      by_cases hstop : StopsAt target p ch
      · simp [placeFrom, hstop]
      · simp only [List.cons_append, placeFrom, hstop, if_false, List.length_cons] at h ⊢
        rw [ih (by omega)]

/-- The position is the position of its place: it lies on a character of its
line, or at the end of it. -/
def Exact (content : List Char) (position : Position) : Prop :=
  origin.after (content.take (place content position)) = position

instance (content : List Char) (position : Position) : Decidable (Exact content position) :=
  inferInstanceAs (Decidable (_ = _))

/-- The walk to `position` needs the text up to `m` only. -/
def Settled (content : List Char) (m : Nat) (position : Position) : Prop :=
  place content position < m ∨ (place content position = m ∧ Exact content position)

instance (content : List Char) (m : Nat) (position : Position) :
    Decidable (Settled content m position) :=
  inferInstanceAs (Decidable (_ ∨ _))

theorem Settled.le {content : List Char} {m : Nat} {position : Position}
    (h : Settled content m position) : place content position ≤ m := by
  rcases h with h | h <;> omega

/-- The position after the text before a place denotes that place. -/
theorem place_after {content : List Char} {k : Nat} (hk : k ≤ content.length) :
    place content (origin.after (content.take k)) = k := by
  have h := placeFrom_after (content.take k) (content.drop k) origin
  rw [List.take_append_drop] at h
  rw [place, h, List.length_take_of_le hk]

/-- Texts that agree up to `m` have the same place for a position settled by
`m`. -/
theorem place_of_take {content content' : List Char} {m : Nat} {position : Position}
    (hlen : m ≤ content.length) (hm : content.take m = content'.take m)
    (h : Settled content m position) : place content' position = place content position := by
  have hcontent : content = content.take m ++ content.drop m := (List.take_append_drop m _).symm
  have hcontent' : content' = content.take m ++ content'.drop m := by
    rw [hm, List.take_append_drop]
  have hmlen : (content.take m).length = m := List.length_take_of_le hlen
  rcases h with hlt | ⟨heq, hexact⟩
  · have h := @placeFrom_of_lt position origin (content.take m) (content.drop m)
      (content'.drop m)
      (by rw [← hcontent, hmlen]; exact hlt)
    rw [← hcontent, ← hcontent'] at h
    exact h
  · rw [Exact, heq] at hexact
    have h := placeFrom_after (content.take m) (content'.drop m) origin
    rw [← hcontent', hexact, hmlen] at h
    rw [heq]
    exact h

/-- The position stays settled. -/
theorem Settled.of_take {content content' : List Char} {m n : Nat} {position : Position}
    (hlen : m ≤ content.length) (hm : content.take m = content'.take m) (hn : n ≤ m)
    (h : Settled content n position) : Settled content' n position := by
  have htake : content.take n = content'.take n := by
    rw [← Nat.min_eq_left hn, ← List.take_take, hm, List.take_take]
  have hplace := place_of_take (by omega) htake h
  rcases h with hlt | ⟨heq, hexact⟩
  · exact Or.inl (by omega)
  · refine Or.inr ⟨by omega, ?_⟩
    rw [Exact, hplace, heq, ← htake, ← heq]
    exact hexact

/-! ## Exact positions -/

/-- Exact positions are in the order of their places. -/
theorem before_iff_place_lt {content : List Char} {p q : Position} (hp : Exact content p)
    (hq : Exact content q) : Before p q ↔ place content p < place content q := by
  have mono {p q : Position} (hp : Exact content p) (hq : Exact content q)
      (h : place content p < place content q) : Before p q := by
    have hsplit : content.take (place content q) = content.take (place content p) ++
        (content.drop (place content p)).take (place content q - place content p) := by
      rw [← List.take_add, Nat.add_sub_of_le (Nat.le_of_lt h)]
    have hq' := place_le content q
    rw [← hp, ← hq, hsplit, after_append]
    cases hcut : (content.drop (place content p)).take (place content q - place content p) with
    | nil =>
        have := congrArg List.length hcut
        simp only [List.length_take, List.length_drop, List.length_nil] at this
        omega
    | cons c cs => exact before_after_cons _ c cs
  constructor
  · intro h
    by_contra hle
    rcases Nat.lt_or_eq_of_le (Nat.le_of_not_lt hle) with hlt | heq
    · exact Before.irrefl p (h.trans (mono hq hp hlt))
    · rw [← hp, ← hq, heq] at h
      exact Before.irrefl _ h
  · exact mono hp hq

theorem place_inj {content : List Char} {p q : Position} (hp : Exact content p)
    (hq : Exact content q) : place content p = place content q ↔ p = q := by
  constructor
  · intro h
    rw [← hp, ← hq, h]
  · intro h
    rw [h]

theorem Exact.settled {content : List Char} {position : Position} {m : Nat}
    (h : Exact content position) (hm : place content position ≤ m) :
    Settled content m position := by
  rcases Nat.lt_or_eq_of_le hm with hlt | heq
  · exact Or.inl hlt
  · exact Or.inr ⟨heq, h⟩

end PhpantomLsp.Text
