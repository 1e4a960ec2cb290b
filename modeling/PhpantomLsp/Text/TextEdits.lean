import PhpantomLsp.Lib.Splices
import PhpantomLsp.Lib.StableSort
import PhpantomLsp.Text.Positions

/-!
# Applying text edits

`apply_text_edits` sorts the edits by where they start, the last one first,
and applies each to the text the ones before it left.  An edit that ends
before the start of every edit applied before it finds the places it was
written for; so does one that touches that start, as long as the position
is one the text has (`Clear`).  The edits then do what they do at once
(`applyTextEdits_of_undisturbed`), but for edits that insert at one place,
which come out in the opposite order of their application.
-/

namespace PhpantomLsp.Text

open PhpantomLsp.Lib
open String (utf8Len)

structure TextEdit where
  range : Range
  newText : List Char
deriving DecidableEq

/-- The order of the sort: lines, then columns, the greater first. -/
def startsNoEarlier (a b : Range) : Bool :=
  b.start.line < a.start.line ∨
    (b.start.line = a.start.line ∧ b.start.character ≤ a.start.character)

/-- `String::replace_range` -/
def replaceRange (result : List Char) (start stop : Nat) (newText : List Char) : List Char :=
  takeBytes start result ++ newText ++ dropBytes stop result

/-- One edit, on the text the edits before it left. -/
def applyTextEdit (result : List Char) (edit : TextEdit) : List Char :=
  let start := positionToByteOffset result edit.range.start
  let stop := positionToByteOffset result edit.range.stop
  if start ≤ stop then replaceRange result start stop edit.newText else result

/-- The edits in the order they are applied in. -/
def bottomToTop (edits : List TextEdit) : List TextEdit :=
  edits.mergeSort fun a b => startsNoEarlier a.range b.range

def applyTextEdits (content : List Char) (edits : List TextEdit) : List Char :=
  (bottomToTop edits).foldl applyTextEdit content

/-! ## Edits as splices -/

/-- The places of `content` an edit is for. -/
def TextEdit.splice (content : List Char) (edit : TextEdit) : Splice Char :=
  ⟨place content edit.range.start, place content edit.range.stop, edit.newText⟩

/-- The edits applied to the original text at once. -/
def simultaneousEdits (content : List Char) (edits : List TextEdit) : List Char :=
  Splice.simultaneous (edits.map (TextEdit.splice content)) content

/-- The range does not end before it starts. -/
def Range.Upright (content : List Char) (r : Range) : Prop :=
  place content r.start ≤ place content r.stop

instance (content : List Char) (r : Range) : Decidable (r.Upright content) :=
  inferInstanceAs (Decidable (_ ≤ _))

theorem applyTextEdit_of_upright {result : List Char} {edit : TextEdit}
    (h : edit.range.Upright result) :
    applyTextEdit result edit = Splice.splice result (edit.splice result) := by
  have hle : positionToByteOffset result edit.range.start ≤
      positionToByteOffset result edit.range.stop := by
    rw [positionToByteOffset_eq, positionToByteOffset_eq,
      utf8Len_take_le_iff (place_le _ _) (place_le _ _)]
    exact h
  rw [applyTextEdit, if_pos hle, replaceRange, positionToByteOffset_eq, positionToByteOffset_eq,
    takeBytes_utf8Len_take, dropBytes_utf8Len_take]
  rfl

/-- An inverted range is skipped. -/
theorem applyTextEdit_of_inverted {result : List Char} {edit : TextEdit}
    (h : ¬ edit.range.Upright result) : applyTextEdit result edit = result := by
  apply if_neg
  rw [positionToByteOffset_eq, positionToByteOffset_eq,
    utf8Len_take_le_iff (place_le _ _) (place_le _ _)]
  exact h

/-- Applied after the edits of `i`, the edit of `j` finds the places of
`content` it is for. -/
def Range.Clear (content : List Char) (i j : Range) : Prop :=
  Settled content (place content i.start) j.start ∧
    Settled content (place content i.start) j.stop

instance (content : List Char) (i j : Range) : Decidable (i.Clear content j) :=
  inferInstanceAs (Decidable (_ ∧ _))

/-- Texts that agree up to where an edit starts, and the edits clear of it. -/
theorem splice_of_clear {content content' : List Char} {i : Range} {e : TextEdit}
    (htake : content.take (place content i.start) = content'.take (place content i.start))
    (h : i.Clear content e.range) : e.splice content' = e.splice content := by
  have hstart := place_of_take (place_le _ _) htake h.1
  have hstop := place_of_take (place_le _ _) htake h.2
  simp only [TextEdit.splice, hstart, hstop]

theorem take_splice_start {content : List Char} {e : TextEdit} :
    (Splice.splice content (e.splice content)).take (place content e.range.start) =
      content.take (place content e.range.start) := by
  have hle := place_le content e.range.start
  simp [Splice.splice, TextEdit.splice, hle]

/-- Edits that are each clear of the ones before them are the splices of the
places they are for. -/
theorem foldl_applyTextEdit {edits : List TextEdit} {content : List Char}
    (hup : ∀ e ∈ edits, e.range.Upright content)
    (hclear : edits.Pairwise fun i j => i.range.Clear content j.range) :
    edits.foldl applyTextEdit content =
      (edits.map (TextEdit.splice content)).foldl Splice.splice content := by
  induction edits generalizing content with
  | nil => rfl
  | cons e rest ih =>
      have hclear := List.pairwise_cons.mp hclear
      have hfirst := applyTextEdit_of_upright (hup e (by simp))
      have htake : content.take (place content e.range.start) =
          (applyTextEdit content e).take (place content e.range.start) := by
        rw [hfirst, take_splice_start]
      have hsame (t : TextEdit) (ht : t ∈ rest) :
          t.splice (applyTextEdit content e) = t.splice content :=
        splice_of_clear htake (hclear.1 t ht)
      have hup' (t : TextEdit) (ht : t ∈ rest) : t.range.Upright (applyTextEdit content e) := by
        have h := hsame t ht
        simp only [TextEdit.splice, Splice.mk.injEq] at h
        rw [Range.Upright, h.1, h.2.1]
        exact hup t (by simp [ht])
      have hclear' : rest.Pairwise fun i j => i.range.Clear (applyTextEdit content e) j.range := by
        apply List.Pairwise.imp_of_mem _ hclear.2
        intro t u ht hu h
        have hplace : place (applyTextEdit content e) t.range.start =
            place content t.range.start := by
          have h := hsame t ht
          simp only [TextEdit.splice, Splice.mk.injEq] at h
          exact h.1
        have hle := (hclear.1 t ht).1.le
        rw [Range.Clear, hplace]
        exact ⟨h.1.of_take (place_le _ _) htake hle, h.2.of_take (place_le _ _) htake hle⟩
      have hmap : rest.map (TextEdit.splice (applyTextEdit content e)) =
          rest.map (TextEdit.splice content) :=
        List.map_congr_left hsame
      show rest.foldl applyTextEdit (applyTextEdit content e) = _
      rw [ih hup' hclear', hmap, hfirst]
      rfl

/-! ## Edits that do not disturb each other -/

/-- Two edits of the array, `a` before `b`: the one applied later is clear of
the other, and of two insertions at one place that is `a`. -/
def Range.Undisturbed (content : List Char) (a b : Range) : Prop :=
  if startsNoEarlier a b then
    a.Clear content b ∧
      ¬ (place content a.start = place content a.stop ∧
        place content b.start = place content b.stop ∧
        place content a.start = place content b.start)
  else b.Clear content a

instance (content : List Char) (a b : Range) : Decidable (a.Undisturbed content b) :=
  inferInstanceAs (Decidable (ite _ _ _))

theorem startsNoEarlier_trans (a b c : Range) (hab : startsNoEarlier a b)
    (hbc : startsNoEarlier b c) : startsNoEarlier a c := by
  simp only [startsNoEarlier, decide_eq_true_eq] at *
  omega

theorem startsNoEarlier_total (a b : Range) : startsNoEarlier a b || startsNoEarlier b a := by
  simp only [startsNoEarlier, Bool.or_eq_true, decide_eq_true_eq]
  omega

/-- Every edit applied is clear of the ones applied before it. -/
theorem bottomToTop_clear {content : List Char} {edits : List TextEdit}
    (h : edits.Pairwise fun a b => a.range.Undisturbed content b.range) :
    (bottomToTop edits).Pairwise fun i j => i.range.Clear content j.range := by
  apply pairwise_mergeSort_of_pairwise
    (fun a b c : TextEdit => startsNoEarlier_trans a.range b.range c.range)
    (fun a b : TextEdit => startsNoEarlier_total a.range b.range) _ _ h
  · intro a b hab hle
    rw [Range.Undisturbed, if_pos hle] at hab
    exact hab.1
  · intro a b hab hle
    rw [Range.Undisturbed, if_neg hle] at hab
    exact hab

/-- Edits of which no two can be kept apart by `Undisturbed` only when the
later one is applied first, in the order they are applied in. -/
theorem bottomToTop_filter {content : List Char} {edits : List TextEdit} {p : TextEdit → Bool}
    (h : edits.Pairwise fun a b => a.range.Undisturbed content b.range)
    (hp : ∀ a b, p a → p b → startsNoEarlier a.range b.range →
      ¬ a.range.Undisturbed content b.range) :
    (bottomToTop edits).reverse.filter p = edits.filter p := by
  have hback : edits.Pairwise fun a b => p a → p b → ¬ startsNoEarlier a.range b.range := by
    apply h.imp
    intro a b hab ha hb hle
    exact hp a b ha hb hle hab
  have hfilter := filter_mergeSort_reverse
    (fun a b c : TextEdit => startsNoEarlier_trans a.range b.range c.range)
    (fun a b : TextEdit => startsNoEarlier_total a.range b.range) hback
  rw [List.filter_reverse, bottomToTop, hfilter, List.reverse_reverse]

theorem filter_map_splice (content : List Char) (edits : List TextEdit)
    (p : Splice Char → Bool) :
    (edits.map (TextEdit.splice content)).filter p =
      (edits.filter (p ∘ TextEdit.splice content)).map (TextEdit.splice content) :=
  List.filter_map

/-- Edits that do not disturb each other are applied at once. -/
theorem applyTextEdits_of_undisturbed {content : List Char} {edits : List TextEdit}
    (hup : ∀ e ∈ edits, e.range.Upright content)
    (h : edits.Pairwise fun a b => a.range.Undisturbed content b.range) :
    applyTextEdits content edits = simultaneousEdits content edits := by
  have hmem (e : TextEdit) : e ∈ bottomToTop edits ↔ e ∈ edits := List.mem_mergeSort
  have hclear := bottomToTop_clear h
  have hranges : ∀ s ∈ (bottomToTop edits).map (TextEdit.splice content),
      s.InRange content.length := by
    intro s hs
    obtain ⟨e, he, rfl⟩ := List.mem_map.mp hs
    exact ⟨hup e ((hmem e).mp he), place_le _ _⟩
  have hback : ((bottomToTop edits).map (TextEdit.splice content)).Pairwise
      fun s t => t.stop ≤ s.start := by
    apply List.pairwise_map.mpr
    apply hclear.imp
    intro i j hij
    exact hij.2.le
  rw [applyTextEdits, foldl_applyTextEdit (fun e he => hup e ((hmem e).mp he)) hclear,
    Splice.foldl_splice hranges hback, ← List.map_reverse]
  apply Splice.simultaneous_congr
  · intro k
    rw [filter_map_splice, filter_map_splice, bottomToTop_filter h]
    intro a b ha hb hle hab
    rw [Range.Undisturbed, if_pos hle] at hab
    have ha : place content a.range.start = k ∧ place content a.range.stop = k :=
      of_decide_eq_true ha
    have hb : place content b.range.start = k ∧ place content b.range.stop = k :=
      of_decide_eq_true hb
    exact hab.2 ⟨by omega, by omega, by omega⟩
  · intro k
    rw [filter_map_splice, filter_map_splice, bottomToTop_filter h]
    intro a b ha hb hle hab
    rw [Range.Undisturbed, if_pos hle] at hab
    have ha : place content a.range.start = k ∧ k < place content a.range.stop :=
      of_decide_eq_true ha
    have hb : place content b.range.start = k ∧ k < place content b.range.stop :=
      of_decide_eq_true hb
    have := hab.1.2.le
    omega
  · intro s
    simp [hmem]

end PhpantomLsp.Text
