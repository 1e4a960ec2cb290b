import PhpantomLsp.Text.TextEdits

/-!
# Edits that start at one position

The sort leaves edits that start at one position in the order of the array,
and each is then applied at that position of what the one before it left.  A
replacement leaves the place it starts at, so an insertion after it in the
array still lands beside it.  An insertion does not: what follows it in the
array lands in front of the inserted text, or replaces it.

For ranges the text has, that is all there is to it.  The edits are applied
at once, whatever their texts, exactly when no insertion is followed in the
array by an edit that starts where it does (`LeavesStart`).
-/

namespace PhpantomLsp.Text

open PhpantomLsp.Lib
open Position

/-! ## Ranges of a text -/

/-- Both positions are positions of the text, in order. -/
def Range.In (content : List Char) (r : Range) : Prop :=
  Exact content r.start ∧ Exact content r.stop ∧ r.Upright content

/-- The ranges have no character in common, and neither starts inside the
other. -/
def Range.Apart (content : List Char) (a b : Range) : Prop :=
  place content a.stop ≤ place content b.start ∨ place content b.stop ≤ place content a.start

/-- An edit of `a`, applied before one of `b`, leaves `b` its start. -/
def Range.LeavesStart (a b : Range) : Prop := a.start = b.start → a.start ≠ a.stop

instance (content : List Char) (r : Range) : Decidable (r.In content) :=
  inferInstanceAs (Decidable (_ ∧ _))
instance (content : List Char) (a b : Range) : Decidable (a.Apart content b) :=
  inferInstanceAs (Decidable (_ ∨ _))
instance (a b : Range) : Decidable (a.LeavesStart b) := inferInstanceAs (Decidable (_ → _))

theorem Range.Apart.symm {content : List Char} {a b : Range} (h : a.Apart content b) :
    b.Apart content a :=
  Or.symm h

theorem startsNoEarlier_iff (a b : Range) :
    startsNoEarlier a b ↔ ¬ Before a.start b.start := by
  simp only [startsNoEarlier, Before, decide_eq_true_eq]
  omega

theorem Range.In.clear {content : List Char} {a b : Range} (hb : b.In content)
    (h : place content b.stop ≤ place content a.start) : a.Clear content b :=
  ⟨hb.1.settled (Nat.le_trans hb.2.2 h), hb.2.1.settled h⟩

/-- The place a range of the text starts at, along the sort. -/
theorem place_le_of_startsNoEarlier {content : List Char} {a b : Range} (ha : a.In content)
    (hb : b.In content) (h : startsNoEarlier a b) :
    place content b.start ≤ place content a.start := by
  have hnot := (startsNoEarlier_iff a b).mp h
  rw [before_iff_place_lt ha.1 hb.1] at hnot
  omega

theorem Range.LeavesStart.undisturbed {content : List Char} {a b : Range} (ha : a.In content)
    (hb : b.In content) (hapart : a.Apart content b) (h : a.LeavesStart b) :
    a.Undisturbed content b := by
  have hua : place content a.start ≤ place content a.stop := ha.2.2
  have hub : place content b.start ≤ place content b.stop := hb.2.2
  by_cases hle : startsNoEarlier a b
  · have hplace := place_le_of_startsNoEarlier ha hb hle
    -- at one start, the range of `a` is not empty
    have hne : place content a.start = place content b.start →
        place content a.start ≠ place content a.stop := by
      intro heq hempty
      exact h ((place_inj ha.1 hb.1).mp heq) ((place_inj ha.1 ha.2.1).mp hempty)
    rw [Range.Undisturbed, if_pos hle]
    constructor
    · apply hb.clear
      rcases hapart with hab | hba <;> omega
    · rintro ⟨hempty, -, heq⟩
      exact hne heq hempty
  · rw [Range.Undisturbed, if_neg hle]
    have hbefore : Before a.start b.start := by
      by_contra hnot
      exact hle ((startsNoEarlier_iff a b).mpr hnot)
    have hlt := (before_iff_place_lt ha.1 hb.1).mp hbefore
    apply ha.clear
    rcases hapart with hab | hba <;> omega

/-! ## Edits that put nothing in place of their range -/

/-- The edit that deletes a range. -/
def blank (r : Range) : TextEdit := ⟨r, []⟩

theorem eq_map_blank {edits : List TextEdit} (h : ∀ e ∈ edits, e.newText = []) :
    edits = (edits.map TextEdit.range).map blank := by
  have hid : edits.map id = edits.map (blank ∘ TextEdit.range) := by
    apply List.map_congr_left
    intro e he
    show e = blank e.range
    rw [blank, ← h e he]
  rw [List.map_map, ← hid, List.map_id]

theorem applyTextEdit_blank {result : List Char} {r : Range} (h : r.start = r.stop) :
    applyTextEdit result (blank r) = result := by
  have hup : (blank r).range.Upright result := by
    show place result r.start ≤ place result r.stop
    rw [h]
  rw [applyTextEdit_of_upright hup]
  simp [blank, TextEdit.splice, Splice.splice, h]

theorem foldl_applyTextEdit_blank {ranges : List Range} (h : ∀ r ∈ ranges, r.start = r.stop)
    (result : List Char) : (ranges.map blank).foldl applyTextEdit result = result := by
  induction ranges with
  | nil => rfl
  | cons r ranges ih =>
      show (ranges.map blank).foldl applyTextEdit (applyTextEdit result (blank r)) = result
      rw [applyTextEdit_blank (h r (by simp))]
      exact ih fun r hr => h r (by simp [hr])

/-- Edits that delete nothing may be left out. -/
theorem foldl_applyTextEdit_filter (ranges : List Range) (result : List Char) :
    (ranges.map blank).foldl applyTextEdit result =
      ((ranges.filter fun r => r.start ≠ r.stop).map blank).foldl applyTextEdit result := by
  induction ranges generalizing result with
  | nil => rfl
  | cons r ranges ih =>
      show (ranges.map blank).foldl applyTextEdit (applyTextEdit result (blank r)) = _
      by_cases h : r.start = r.stop
      · rw [applyTextEdit_blank h, List.filter_cons_of_neg (by simp [h])]
        exact ih result
      · rw [List.filter_cons_of_pos (by simp [h])]
        exact ih _

/-! ## What edits keep -/

/-- A position past the agreeing prefix of two texts is past it in both. -/
theorem le_place_of_take {content content' : List Char} {m : Nat} {position : Position}
    (hlen : m ≤ content'.length) (hm : content.take m = content'.take m)
    (h : m ≤ place content position) : m ≤ place content' position := by
  by_contra hlt
  have hplace := place_of_take hlen hm.symm (Or.inl (Nat.lt_of_not_le hlt))
  omega

/-- Edits that start past a prefix keep it. -/
theorem foldl_applyTextEdit_take {content : List Char} {m : Nat} {edits : List TextEdit}
    (h : ∀ e ∈ edits, m ≤ place content e.range.start) {result : List Char}
    (hlen : m ≤ result.length) (hm : content.take m = result.take m) :
    m ≤ (edits.foldl applyTextEdit result).length ∧
      content.take m = (edits.foldl applyTextEdit result).take m := by
  induction edits generalizing result with
  | nil => exact ⟨hlen, hm⟩
  | cons e edits ih =>
      have hstart := le_place_of_take hlen hm (h e (by simp))
      have hstep : m ≤ (applyTextEdit result e).length ∧
          content.take m = (applyTextEdit result e).take m := by
        by_cases hup : e.range.Upright result
        · have hle := place_le result e.range.start
          rw [applyTextEdit_of_upright hup]
          constructor
          · simp [Splice.splice, TextEdit.splice]
            omega
          · rw [hm, ← Nat.min_eq_left hstart, ← List.take_take, ← List.take_take,
              take_splice_start]
        · rw [applyTextEdit_of_inverted hup]
          exact ⟨hlen, hm⟩
      exact ih (fun e he => h e (by simp [he])) hstep.1 hstep.2

/-- Non-empty ranges with nothing in common, along the sort. -/
theorem pairwise_clear_of_apart {content : List Char} {ranges : List Range}
    (hin : ∀ r ∈ ranges, r.In content) (hne : ∀ r ∈ ranges, r.start ≠ r.stop)
    (hsorted : ranges.Pairwise fun i j => startsNoEarlier i j)
    (hapart : ranges.Pairwise (Range.Apart content)) : ranges.Pairwise (Range.Clear content) := by
  apply (hsorted.and hapart).imp_of_mem
  intro i j hi hj h
  have hplace := place_le_of_startsNoEarlier (hin i hi) (hin j hj) h.1
  have hlt : place content i.start < place content i.stop := by
    apply Nat.lt_of_le_of_ne (hin i hi).2.2
    intro heq
    exact hne i hi ((place_inj (hin i hi).1 (hin i hi).2.1).mp heq)
  apply (hin j hj).clear
  rcases h.2 with hij | hji <;> omega

section Below

/-! Deletions of ranges that end by `k` change the text before `k` in one way,
whatever follows it. -/

variable {content result : List Char} {ranges : List Range} {k : Nat}

theorem splice_of_take {r : Range} (hk : k ≤ content.length)
    (htake : content.take k = result.take k) (hin : r.In content)
    (hbelow : place content r.stop ≤ k) :
    (blank r).splice result = (blank r).splice content := by
  have hstart : place content r.start ≤ k := Nat.le_trans hin.2.2 hbelow
  have h := place_of_take hk htake (hin.1.settled hstart)
  have h' := place_of_take hk htake (hin.2.1.settled hbelow)
  simp only [TextEdit.splice, blank, h, h']

/-- The deletions are the same splices in every text that agrees up to `k`. -/
theorem foldl_blank_of_take (hk : k ≤ content.length)
    (htake : content.take k = result.take k) (hin : ∀ r ∈ ranges, r.In content)
    (hbelow : ∀ r ∈ ranges, place content r.stop ≤ k)
    (hclear : ranges.Pairwise (Range.Clear content)) :
    (ranges.map blank).foldl applyTextEdit result =
      ((ranges.map blank).map (TextEdit.splice content)).foldl Splice.splice result := by
  have hsame (r : Range) (hr : r ∈ ranges) :
      place result r.start = place content r.start ∧
        place result r.stop = place content r.stop := by
    have h := splice_of_take hk htake (hin r hr) (hbelow r hr)
    simp only [TextEdit.splice, Splice.mk.injEq] at h
    exact ⟨h.1, h.2.1⟩
  have hup : ∀ e ∈ ranges.map blank, e.range.Upright result := by
    intro e he
    obtain ⟨r, hr, rfl⟩ := List.mem_map.mp he
    show place result r.start ≤ place result r.stop
    rw [(hsame r hr).1, (hsame r hr).2]
    exact (hin r hr).2.2
  have hclear' : (ranges.map blank).Pairwise fun i j => i.range.Clear result j.range := by
    apply List.pairwise_map.mpr
    apply hclear.imp_of_mem
    intro i j hi _ h
    have hle : place content i.start ≤ k := Nat.le_trans (hin i hi).2.2 (hbelow i hi)
    show i.Clear result j
    rw [Range.Clear, (hsame i hi).1]
    exact ⟨h.1.of_take hk htake hle, h.2.of_take hk htake hle⟩
  have hmap : (ranges.map blank).map (TextEdit.splice result) =
      (ranges.map blank).map (TextEdit.splice content) := by
    rw [List.map_map, List.map_map]
    apply List.map_congr_left
    intro r hr
    exact splice_of_take hk htake (hin r hr) (hbelow r hr)
  rw [foldl_applyTextEdit hup hclear', hmap]

theorem foldl_applyTextEdit_below (hk : k ≤ content.length) (hin : ∀ r ∈ ranges, r.In content)
    (hbelow : ∀ r ∈ ranges, place content r.stop ≤ k)
    (hsorted : ranges.Pairwise fun i j => startsNoEarlier i j)
    (hapart : ranges.Pairwise (Range.Apart content)) :
    ∃ front, ∀ result : List Char, content.take k = result.take k →
      (ranges.map blank).foldl applyTextEdit result = front ++ result.drop k := by
  have hsub : (ranges.filter fun r => r.start ≠ r.stop).Sublist ranges := List.filter_sublist
  generalize hkept : (ranges.filter fun r => r.start ≠ r.stop) = kept at hsub
  have hne : ∀ r ∈ kept, r.start ≠ r.stop := by
    intro r hr
    rw [← hkept] at hr
    simpa using (List.mem_filter.mp hr).2
  have hin' : ∀ r ∈ kept, r.In content := fun r hr => hin r (hsub.subset hr)
  have hbelow' : ∀ r ∈ kept, place content r.stop ≤ k := fun r hr => hbelow r (hsub.subset hr)
  have hclear := pairwise_clear_of_apart hin' hne (hsorted.sublist hsub) (hapart.sublist hsub)
  have hranges : ∀ s ∈ (kept.map blank).map (TextEdit.splice content),
      s.InRange (content.take k).length := by
    intro s hs
    rw [List.map_map] at hs
    obtain ⟨r, hr, rfl⟩ := List.mem_map.mp hs
    rw [List.length_take_of_le hk]
    exact ⟨(hin' r hr).2.2, hbelow' r hr⟩
  have hback : ((kept.map blank).map (TextEdit.splice content)).Pairwise
      fun s t => t.stop ≤ s.start := by
    rw [List.map_map]
    apply List.pairwise_map.mpr
    apply hclear.imp
    intro i j h
    exact h.2.le
  refine ⟨((kept.map blank).map (TextEdit.splice content)).foldl Splice.splice (content.take k), ?_⟩
  intro result htake
  have hcut : result = content.take k ++ result.drop k := by
    rw [htake, List.take_append_drop]
  calc (ranges.map blank).foldl applyTextEdit result
      = (kept.map blank).foldl applyTextEdit result := by
        rw [foldl_applyTextEdit_filter, hkept]
    _ = ((kept.map blank).map (TextEdit.splice content)).foldl Splice.splice result :=
        foldl_blank_of_take hk htake hin' hbelow' hclear
    _ = _ := by
        conv_lhs => rw [hcut]
        exact Splice.foldl_splice_append _ hranges hback

end Below

/-! ## Two edits at one position -/

/-- The ranges in the order their edits are applied in. -/
def sortedRanges (ranges : List Range) : List Range := ranges.mergeSort startsNoEarlier

/-- The ranges that start after `p`. -/
def above (ranges : List Range) (p : Position) : List Range :=
  (sortedRanges ranges).filter (Before p ·.start)

/-- The ranges that start at `p`. -/
def startingAt (ranges : List Range) (p : Position) : List Range :=
  ranges.filter (·.start = p)

/-- The ranges that start before `p`. -/
def below (ranges : List Range) (p : Position) : List Range :=
  (sortedRanges ranges).filter (Before ·.start p)

theorem mem_above {ranges : List Range} {p : Position} {r : Range} :
    r ∈ above ranges p ↔ r ∈ ranges ∧ Before p r.start := by
  simp [above, sortedRanges]

theorem mem_startingAt {ranges : List Range} {p : Position} {r : Range} :
    r ∈ startingAt ranges p ↔ r ∈ ranges ∧ r.start = p := by
  simp [startingAt]

theorem mem_below {ranges : List Range} {p : Position} {r : Range} :
    r ∈ below ranges p ↔ r ∈ ranges ∧ Before r.start p := by
  simp [below, sortedRanges]

theorem sortedRanges_pairwise (ranges : List Range) :
    (sortedRanges ranges).Pairwise fun a b => startsNoEarlier a b :=
  List.pairwise_mergeSort startsNoEarlier_trans startsNoEarlier_total ranges

theorem sortedRanges_apart {content : List Char} {ranges : List Range}
    (h : ranges.Pairwise (Range.Apart content)) :
    (sortedRanges ranges).Pairwise (Range.Apart content) :=
  h.perm (List.mergeSort_perm ranges startsNoEarlier).symm Range.Apart.symm

theorem map_range_bottomToTop (edits : List TextEdit) :
    (bottomToTop edits).map TextEdit.range = sortedRanges (edits.map TextEdit.range) :=
  List.map_mergeSort fun _ _ _ _ => rfl

/-- Edits of which those with a range in `p` put nothing in place of it. -/
theorem filter_eq_map_blank {edits : List TextEdit} {p : Range → Bool}
    (h : ∀ e ∈ edits, p e.range → e.newText = []) :
    edits.filter (fun e => p e.range) = ((edits.map TextEdit.range).filter p).map blank := by
  have hblank := @eq_map_blank (edits.filter fun e => p e.range) (by
    intro e he
    have he := List.mem_filter.mp he
    exact h e he.1 he.2)
  rw [List.filter_map]
  exact hblank

/-- The edits applied, by where they start. -/
theorem bottomToTop_split (edits : List TextEdit) (p : Position) :
    bottomToTop edits = (bottomToTop edits).filter (fun e => Before p e.range.start) ++
      (edits.filter (fun e => e.range.start = p) ++
        (bottomToTop edits).filter (fun e => Before e.range.start p)) := by
  have hsorted : (bottomToTop edits).Pairwise fun a b => startsNoEarlier a.range b.range :=
    List.pairwise_mergeSort
      (fun a b c : TextEdit => startsNoEarlier_trans a.range b.range c.range)
      (fun a b : TextEdit => startsNoEarlier_total a.range b.range) edits
  have hequal : (bottomToTop edits).filter (fun e => e.range.start = p) =
      edits.filter (fun e => e.range.start = p) := by
    apply filter_mergeSort (fun a b c : TextEdit => startsNoEarlier_trans a.range b.range c.range)
      (fun a b : TextEdit => startsNoEarlier_total a.range b.range)
    intro a b ha hb
    rw [startsNoEarlier_iff, of_decide_eq_true ha, of_decide_eq_true hb]
    exact Before.irrefl p
  have hfirst := filter_append_of_sorted (p := fun e => decide (Before p e.range.start)) hsorted (by
    intro a b hab hb
    have hab := (startsNoEarlier_iff _ _).mp hab
    have hb := of_decide_eq_true hb
    apply decide_eq_true
    simp only [Before] at hab hb ⊢
    omega)
  have hsecond := filter_append_of_sorted (p := fun e => !decide (Before e.range.start p))
    (hsorted.sublist (List.filter_sublist (p := fun e => !decide (Before p e.range.start)))) (by
    intro a b hab hb
    have hab := (startsNoEarlier_iff _ _).mp hab
    rw [Bool.not_eq_true', decide_eq_false_iff_not] at hb ⊢
    simp only [Before] at hab hb ⊢
    omega)
  rw [List.filter_filter, List.filter_filter] at hsecond
  have hat : (bottomToTop edits).filter (fun e =>
      !decide (Before e.range.start p) && !decide (Before p e.range.start)) =
      (bottomToTop edits).filter (fun e => e.range.start = p) := by
    apply List.filter_congr
    intro e _
    rw [Bool.eq_iff_iff]
    simp only [Bool.and_eq_true, Bool.not_eq_true', decide_eq_false_iff_not, decide_eq_true_eq]
    constructor
    · intro h
      exact Position.eq_of_not_before h.1 h.2
    · intro h
      rw [h]
      exact ⟨Before.irrefl p, Before.irrefl p⟩
  have hbelow : (bottomToTop edits).filter (fun e =>
      !!decide (Before e.range.start p) && !decide (Before p e.range.start)) =
      (bottomToTop edits).filter (fun e => Before e.range.start p) := by
    apply List.filter_congr
    intro e _
    rw [Bool.eq_iff_iff]
    simp only [Bool.not_not, Bool.and_eq_true, Bool.not_eq_true', decide_eq_false_iff_not,
      decide_eq_true_eq]
    simp only [Before]
    omega
  rw [hat, hbelow, hequal] at hsecond
  rw [hsecond]
  exact hfirst.symm

/-- Two of the edits have a text, the others delete. -/
def tied (l₁ : List Range) (a : Range) (s : List Char) (l₂ : List Range) (b : Range)
    (t : List Char) (l₃ : List Range) : List TextEdit :=
  l₁.map blank ++ ⟨a, s⟩ :: (l₂.map blank ++ ⟨b, t⟩ :: l₃.map blank)

section Tied

variable {content : List Char} {l₁ l₂ l₃ : List Range} {a b : Range} {p : Position}

theorem map_range_tied (l₁ l₂ l₃ : List Range) (a b : Range) (s t : List Char) :
    (tied l₁ a s l₂ b t l₃).map TextEdit.range = l₁ ++ a :: (l₂ ++ b :: l₃) := by
  have hblank (l : List Range) : (l.map blank).map TextEdit.range = l := by
    rw [List.map_map]
    exact List.map_id l
  simp [tied, hblank]

theorem mem_tied {e : TextEdit} {s t : List Char} (h : e ∈ tied l₁ a s l₂ b t l₃) :
    e.newText = [] ∨ e = ⟨a, s⟩ ∨ e = ⟨b, t⟩ := by
  simp only [tied, List.mem_append, List.mem_cons, List.mem_map] at h
  rcases h with ⟨r, -, rfl⟩ | h | ⟨r, -, rfl⟩ | h | ⟨r, -, rfl⟩
  · exact Or.inl rfl
  · exact Or.inr (Or.inl h)
  · exact Or.inl rfl
  · exact Or.inr (Or.inr h)
  · exact Or.inl rfl

theorem filter_tied (ha : a.start = p) (hb : b.start = p) (s t : List Char) :
    (tied l₁ a s l₂ b t l₃).filter (fun e => e.range.start = p) =
      tied (startingAt l₁ p) a s (startingAt l₂ p) b t (startingAt l₃ p) := by
  have hblank (l : List Range) :
      (l.map blank).filter (fun e => e.range.start = p) = (startingAt l p).map blank := by
    rw [List.filter_map]
    rfl
  simp [tied, hblank, ha, hb]

/-- The two edits are applied as they stand, after those above and before
those below. -/
theorem bottomToTop_tied (ha : a.start = p) (hb : b.start = p) (s t : List Char) :
    bottomToTop (tied l₁ a s l₂ b t l₃) =
      (above (l₁ ++ a :: (l₂ ++ b :: l₃)) p).map blank ++
        (tied (startingAt l₁ p) a s (startingAt l₂ p) b t (startingAt l₃ p) ++
          (below (l₁ ++ a :: (l₂ ++ b :: l₃)) p).map blank) := by
  have hblank (e : TextEdit) (he : e ∈ bottomToTop (tied l₁ a s l₂ b t l₃))
      (hne : e.range.start ≠ p) : e.newText = [] := by
    rcases mem_tied (List.mem_mergeSort.mp he) with h | h | h
    · exact h
    · exact absurd (by rw [h]; exact ha) hne
    · exact absurd (by rw [h]; exact hb) hne
  have habove := @filter_eq_map_blank (bottomToTop (tied l₁ a s l₂ b t l₃))
    (fun r => decide (Before p r.start)) (by
      intro e he hbefore
      apply hblank e he
      intro heq
      rw [heq] at hbefore
      exact Before.irrefl p (of_decide_eq_true hbefore))
  have hbelow := @filter_eq_map_blank (bottomToTop (tied l₁ a s l₂ b t l₃))
    (fun r => decide (Before r.start p)) (by
      intro e he hbefore
      apply hblank e he
      intro heq
      rw [heq] at hbefore
      exact Before.irrefl p (of_decide_eq_true hbefore))
  rw [map_range_bottomToTop, map_range_tied] at habove hbelow
  rw [bottomToTop_split _ p, filter_tied ha hb, habove, hbelow]
  rfl

theorem start_of_mem_tied (ha : a.start = p) (hb : b.start = p) {e : TextEdit} {s t : List Char}
    (h : e ∈ tied (startingAt l₁ p) a s (startingAt l₂ p) b t (startingAt l₃ p)) :
    e.range.start = p := by
  rw [← filter_tied ha hb] at h
  exact of_decide_eq_true (List.mem_filter.mp h).2

/-- A range that starts before an insertion ends by it. -/
theorem stop_le_of_before {ranges : List Range} {r : Range}
    (hapart : ranges.Pairwise (Range.Apart content)) (hr : r.In content) (ha : a.In content)
    (hmem : r ∈ ranges) (hamem : a ∈ ranges) (hempty : a.start = a.stop)
    (hbefore : Before r.start a.start) : place content r.stop ≤ place content a.start := by
  have hlt := (before_iff_place_lt hr.1 ha.1).mp hbefore
  have hne : r ≠ a := by
    intro h
    rw [h] at hbefore
    exact Before.irrefl _ hbefore
  have : Std.Symm (Range.Apart content) := ⟨fun _ _ => Range.Apart.symm⟩
  have h := hapart.forall hmem hamem hne
  rw [Range.Apart, ← hempty] at h
  omega

/-- An insertion puts its text at its place. -/
theorem applyTextEdit_insertion {result : List Char} (hk : a.start = a.stop) (s : List Char) :
    applyTextEdit result ⟨a, s⟩ = result.take (place result a.start) ++ s ++
      result.drop (place result a.start) := by
  have hup : a.Upright result := by
    rw [Range.Upright, hk]
  rw [@applyTextEdit_of_upright _ ⟨a, s⟩ hup]
  simp [TextEdit.splice, Splice.splice, hk]

/-- What the edits do to a text, when the ranges between and after the two
edits at their position are empty: the text the edits before them leave
depends on neither text, and so does what the edits below them do to it. -/
theorem applyTextEdits_tied (ha : a.start = p) (hb : b.start = p) (hempty : a.start = a.stop)
    (hin : ∀ r ∈ l₁ ++ a :: (l₂ ++ b :: l₃), r.In content)
    (hapart : (l₁ ++ a :: (l₂ ++ b :: l₃)).Pairwise (Range.Apart content))
    (h₂ : ∀ r ∈ l₂, r.start = p → r.start = r.stop)
    (h₃ : ∀ r ∈ l₃, r.start = p → r.start = r.stop) :
    ∃ front, ∀ s t, applyTextEdits content (tied l₁ a s l₂ b t l₃) =
      front ++ (applyTextEdit (applyTextEdit
        (((above (l₁ ++ a :: (l₂ ++ b :: l₃)) p ++ startingAt l₁ p).map blank).foldl
          applyTextEdit content) ⟨a, s⟩) ⟨b, t⟩).drop (place content p) := by
  generalize hranges : l₁ ++ a :: (l₂ ++ b :: l₃) = ranges at *
  have hamem : a ∈ ranges := by simp [← hranges]
  have hp : Exact content p := by
    rw [← ha]
    exact (hin a hamem).1
  have habove : ∀ r ∈ above ranges p, place content p ≤ place content r.start := by
    intro r hr
    obtain ⟨hr, hbefore⟩ := mem_above.mp hr
    have := (before_iff_place_lt hp (hin r hr).1).mp hbefore
    omega
  have hfront := @foldl_applyTextEdit_below content (below ranges p) _
    (place_le content p) (fun r hr => hin r (mem_below.mp hr).1) (by
      intro r hr
      obtain ⟨hr, hbefore⟩ := mem_below.mp hr
      rw [← ha] at hbefore ⊢
      exact stop_le_of_before hapart (hin r hr) (hin a hamem) hr hamem hempty hbefore)
    ((sortedRanges_pairwise ranges).sublist List.filter_sublist)
    ((sortedRanges_apart hapart).sublist List.filter_sublist)
  obtain ⟨front, hfront⟩ := hfront
  refine ⟨front, ?_⟩
  intro s t
  have hrun : ((above ranges p).map blank ++
      tied (startingAt l₁ p) a s (startingAt l₂ p) b t (startingAt l₃ p)).foldl applyTextEdit
        content =
      applyTextEdit (applyTextEdit
        (((above ranges p ++ startingAt l₁ p).map blank).foldl applyTextEdit content) ⟨a, s⟩)
        ⟨b, t⟩ := by
    rw [tied, List.map_append, ← List.append_assoc, List.foldl_append, List.foldl_cons,
      List.foldl_append, List.foldl_cons, foldl_applyTextEdit_blank, foldl_applyTextEdit_blank]
    · intro r hr
      exact h₂ r (mem_startingAt.mp hr).1 (mem_startingAt.mp hr).2
    · intro r hr
      exact h₃ r (mem_startingAt.mp hr).1 (mem_startingAt.mp hr).2
  have htake := (@foldl_applyTextEdit_take content (place content p)
    ((above ranges p).map blank ++
      tied (startingAt l₁ p) a s (startingAt l₂ p) b t (startingAt l₃ p)) (by
      intro e he
      rcases List.mem_append.mp he with he | he
      · obtain ⟨r, hr, rfl⟩ := List.mem_map.mp he
        exact habove r hr
      · rw [start_of_mem_tied ha hb he]) content (place_le content p) rfl).2
  rw [hrun] at htake
  rw [applyTextEdits, bottomToTop_tied ha hb, hranges, ← List.append_assoc, List.foldl_append,
    hrun, hfront _ htake]

/-! ## What they do at once -/

theorem insertedAt_blank (content : List Char) (ranges : List Range) (k : Nat) :
    Splice.insertedAt ((ranges.map blank).map (TextEdit.splice content)) k = [] := by
  apply List.flatMap_eq_nil_iff.mpr
  intro s hs
  have hs := (List.mem_filter.mp hs).1
  rw [List.map_map] at hs
  obtain ⟨r, -, rfl⟩ := List.mem_map.mp hs
  rfl

theorem insertsAt_of_empty (ha : a.start = p) (hempty : a.start = a.stop) (s : List Char) :
    Splice.InsertsAt (place content p) (TextEdit.splice content ⟨a, s⟩) := by
  constructor
  · show place content a.start = place content p
    rw [ha]
  · show place content a.stop = place content p
    rw [← hempty, ha]

theorem map_splice_tied (content : List Char) (l₁ l₂ l₃ : List Range) (a b : Range)
    (s t : List Char) :
    (tied l₁ a s l₂ b t l₃).map (TextEdit.splice content) =
      (l₁.map blank).map (TextEdit.splice content) ++
        ([TextEdit.splice content ⟨a, s⟩] ++
          ((l₂.map blank).map (TextEdit.splice content) ++
            ([TextEdit.splice content ⟨b, t⟩] ++
              (l₃.map blank).map (TextEdit.splice content)))) := by
  simp only [tied, List.map_append, List.map_cons, List.singleton_append]

/-- An insertion, and a replacement that starts where it inserts. -/
theorem simultaneous_insertion_replacement (ha : a.start = p) (hempty : a.start = a.stop)
    (hb : ¬ Splice.InsertsAt (place content p) (TextEdit.splice content ⟨b, []⟩)) :
    ∃ before behind, ∀ s, simultaneousEdits content (tied l₁ a s l₂ b [] l₃) =
      before ++ s ++ behind := by
  obtain ⟨bare, hbare⟩ : ∃ bare, bare =
      (tied l₁ a [] l₂ b [] l₃).map (TextEdit.splice content) := ⟨_, rfl⟩
  refine ⟨Splice.beforeInsertions bare content (place content p),
    Splice.afterInsertions bare content (place content p), ?_⟩
  intro s
  have hinserts := @insertsAt_of_empty content _ _ ha hempty
  have helse : Splice.elsewhere ((tied l₁ a s l₂ b [] l₃).map (TextEdit.splice content))
        (place content p) = Splice.elsewhere bare (place content p) := by
    simp [hbare, map_splice_tied, Splice.elsewhere, hinserts]
  have hinserted : Splice.insertedAt ((tied l₁ a s l₂ b [] l₃).map (TextEdit.splice content))
      (place content p) = s := by
    have hfirst : Splice.insertedAt [TextEdit.splice content ⟨a, s⟩] (place content p) = s :=
      Splice.insertedAt_singleton (hinserts s)
    have hsecond : Splice.insertedAt [TextEdit.splice content ⟨b, []⟩] (place content p) = [] := by
      simp [Splice.insertedAt, hb]
    rw [map_splice_tied]
    simp only [Splice.insertedAt_append, insertedAt_blank, hfirst, hsecond, List.nil_append,
      List.append_nil]
  rw [simultaneousEdits, Splice.simultaneous_of_elsewhere (place_le content p) helse, hinserted]

/-- Two insertions at one place. -/
theorem simultaneous_insertions_tied (ha : a.start = p) (haempty : a.start = a.stop)
    (hb : b.start = p) (hbempty : b.start = b.stop) :
    ∃ before behind, ∀ s t, simultaneousEdits content (tied l₁ a s l₂ b t l₃) =
      before ++ (s ++ t) ++ behind := by
  obtain ⟨bare, hbare⟩ : ∃ bare, bare =
      (tied l₁ a [] l₂ b [] l₃).map (TextEdit.splice content) := ⟨_, rfl⟩
  refine ⟨Splice.beforeInsertions bare content (place content p),
    Splice.afterInsertions bare content (place content p), ?_⟩
  intro s t
  have hinsertsa := @insertsAt_of_empty content _ _ ha haempty
  have hinsertsb := @insertsAt_of_empty content _ _ hb hbempty
  have helse : Splice.elsewhere ((tied l₁ a s l₂ b t l₃).map (TextEdit.splice content))
        (place content p) = Splice.elsewhere bare (place content p) := by
    simp [hbare, map_splice_tied, Splice.elsewhere, hinsertsa, hinsertsb]
  have hinserted : Splice.insertedAt ((tied l₁ a s l₂ b t l₃).map (TextEdit.splice content))
      (place content p) = s ++ t := by
    have hfirst : Splice.insertedAt [TextEdit.splice content ⟨a, s⟩] (place content p) = s :=
      Splice.insertedAt_singleton (hinsertsa s)
    have hsecond : Splice.insertedAt [TextEdit.splice content ⟨b, t⟩] (place content p) = t :=
      Splice.insertedAt_singleton (hinsertsb t)
    rw [map_splice_tied]
    simp only [Splice.insertedAt_append, insertedAt_blank, hfirst, hsecond, List.nil_append,
      List.append_nil]
  rw [simultaneousEdits, Splice.simultaneous_of_elsewhere (place_le content p) helse, hinserted]

/-! ## Where the two differ -/

/-- The text before the place both edits start at. -/
theorem drop_applyTextEdit {result : List Char} (htake : content.take (place content p) =
    result.take (place content p)) (hp : Exact content p) (hb : b.start = p)
    (hstop : place content p ≤ place content b.stop) (hlen : place content p ≤ result.length)
    (t : List Char) :
    (applyTextEdit result ⟨b, t⟩).drop (place content p) = t ++ result.drop (place result b.stop) := by
  have hk := place_le content p
  have hplace : place result b.start = place content p := by
    rw [hb]
    exact place_of_take hk htake (hp.settled (Nat.le_refl _))
  have hup : b.Upright result := by
    rw [Range.Upright, hplace]
    exact le_place_of_take hlen htake hstop
  rw [@applyTextEdit_of_upright _ ⟨b, t⟩ hup, TextEdit.splice, Splice.splice]
  show (result.take (place result b.start) ++ t ++ result.drop (place result b.stop)).drop _ = _
  rw [hplace, List.append_assoc, List.drop_append_of_le_length (by simp [hlen])]
  simp

theorem take_applyTextEdit {result : List Char} (htake : content.take (place content p) =
    result.take (place content p)) (hb : b.start = p) (hlen : place content p ≤ result.length)
    (t : List Char) :
    place content p ≤ (applyTextEdit result ⟨b, t⟩).length ∧
      content.take (place content p) = (applyTextEdit result ⟨b, t⟩).take (place content p) :=
  @foldl_applyTextEdit_take content _ [⟨b, t⟩] (by simp [hb]) _ hlen htake

/-- The text the edits before the first of the two leave. -/
def reached (content : List Char) (ranges l₁ : List Range) (p : Position) : List Char :=
  ((above ranges p ++ startingAt l₁ p).map blank).foldl applyTextEdit content

theorem reached_take {ranges : List Range} (hp : Exact content p)
    (hin : ∀ r ∈ ranges, r.In content) :
    place content p ≤ (reached content ranges l₁ p).length ∧
      content.take (place content p) = (reached content ranges l₁ p).take (place content p) := by
  apply foldl_applyTextEdit_take _ (place_le content p) rfl
  intro e he
  obtain ⟨r, hr, rfl⟩ := List.mem_map.mp he
  show place content p ≤ place content r.start
  rcases List.mem_append.mp hr with hr | hr
  · obtain ⟨hr, hbefore⟩ := mem_above.mp hr
    have := (before_iff_place_lt hp (hin r hr).1).mp hbefore
    omega
  · rw [(mem_startingAt.mp hr).2]

/-- Two texts that are each in front of the other in one text. -/
theorem append_swap_ne (xs ys zs ws : List Char) :
    ∃ s t, xs ++ (t ++ (s ++ ys)) ≠ zs ++ (s ++ t) ++ ws := by
  refine ⟨List.replicate (xs.length + zs.length + 1) 'a',
    List.replicate (xs.length + zs.length + 1) 'b', ?_⟩
  intro h
  -- the first place that is in neither front
  have hat := congrArg (fun l => l[max xs.length zs.length]?) h
  simp only [List.append_assoc] at hat
  rw [List.getElem?_append_right (by omega), List.getElem?_append_left (by simp; omega),
    List.getElem?_append_right (by omega), List.getElem?_append_left (by simp; omega),
    List.getElem?_replicate, List.getElem?_replicate, if_pos (by omega), if_pos (by omega)] at hat
  simp at hat

/-- Two insertions at one position come out backwards. -/
theorem insertions_differ (ha : a.start = p) (haempty : a.start = a.stop) (hb : b.start = p)
    (hbempty : b.start = b.stop) (hin : ∀ r ∈ l₁ ++ a :: (l₂ ++ b :: l₃), r.In content)
    (hapart : (l₁ ++ a :: (l₂ ++ b :: l₃)).Pairwise (Range.Apart content))
    (h₂ : ∀ r ∈ l₂, r.start = p → r.start = r.stop)
    (h₃ : ∀ r ∈ l₃, r.start = p → r.start = r.stop) :
    ∃ s t, applyTextEdits content (tied l₁ a s l₂ b t l₃) ≠
      simultaneousEdits content (tied l₁ a s l₂ b t l₃) := by
  obtain ⟨front, hactual⟩ := applyTextEdits_tied ha hb haempty hin hapart h₂ h₃
  obtain ⟨before, behind, hatOnce⟩ := @simultaneous_insertions_tied content
    l₁ l₂ l₃ _ _ _ ha haempty hb hbempty
  have hp : Exact content p := by
    rw [← ha]
    exact (hin a (by simp)).1
  have hreached := @reached_take _ l₁ _ _ hp hin
  obtain ⟨s, t, hne⟩ := append_swap_ne front
    ((reached content (l₁ ++ a :: (l₂ ++ b :: l₃)) l₁ p).drop (place content p)) before behind
  refine ⟨s, t, ?_⟩
  have hastop : a.stop = p := by rw [← haempty, ha]
  have hbstop : b.stop = p := by rw [← hbempty, hb]
  have hfirst := take_applyTextEdit (b := a) hreached.2 ha hreached.1 s
  have hplace := place_of_take (place_le content p) hreached.2 (hp.settled (Nat.le_refl _))
  have hplace' := place_of_take (place_le content p) hfirst.2 (hp.settled (Nat.le_refl _))
  have hdrop := drop_applyTextEdit (b := a) hreached.2 hp ha (by rw [hastop]) hreached.1 s
  rw [hastop, hplace] at hdrop
  have hdrop' := drop_applyTextEdit (b := b) hfirst.2 hp hb (by rw [hbstop]) hfirst.1 t
  rw [hbstop, hplace', hdrop] at hdrop'
  rw [hactual s t, hatOnce s t]
  show front ++ (applyTextEdit (applyTextEdit (reached _ _ _ _) _) _).drop _ ≠ _
  rw [hdrop']
  exact hne

/-- Some text inserted at `k` leaves a later position of the text at a place
that is too early or too late by that text: a line break cuts the line of `k`
short, and one more character on it does not move the lines after it. -/
theorem exists_text_moving_stop {content result : List Char} {k q : Nat} {stop : Position}
    (hexact : origin.after (content.take q) = stop) (hkq : k < q) (hq : q ≤ content.length)
    (hlen : q ≤ result.length) (htake : content.take q = result.take q) :
    ∃ s : List Char, place (result.take k ++ s ++ result.drop k) stop ≠ q := by
  have htakek : content.take k = result.take k := by
    rw [← Nat.min_eq_left (Nat.le_of_lt hkq), ← List.take_take, htake, List.take_take]
  have hklen : (content.take k).length = k := List.length_take_of_le (by omega)
  by_cases hline : (origin.after (content.take k)).line = stop.line
  · have hle := placeFrom_newline_le (result.drop k) hline
    refine ⟨['\n'], ?_⟩
    rw [← htakek, List.append_assoc]
    show placeFrom stop (content.take k ++ '\n' :: result.drop k) origin ≠ q
    omega
  · -- from the line of `k` to the line of the stop
    have hsplit : content.take q = content.take k ++ (content.take q).drop k := by
      rw [← List.take_append_drop k (content.take q), List.take_take,
        Nat.min_eq_left (Nat.le_of_lt hkq), List.drop_left' hklen]
    have hstop : (origin.after (content.take k)).after ((content.take q).drop k) = stop := by
      rw [← after_append, ← hsplit, hexact]
    have hmoved : origin.after (content.take k ++ 'a' :: (content.take q).drop k) = stop := by
      rw [after_append, after_cons, after_of_line_ne (q := origin.after (content.take k)), hstop]
      · simp [next]
      · rw [hstop]
        exact fun h => hline h.symm
    have hdrop : result.drop k = (content.take q).drop k ++ result.drop q := by
      rw [htake, ← List.drop_append_of_le_length (by simp; omega), List.take_append_drop]
    have hplace := placeFrom_after (content.take k ++ 'a' :: (content.take q).drop k)
      (result.drop q) origin
    rw [hmoved] at hplace
    refine ⟨['a'], ?_⟩
    have htext : result.take k ++ ['a'] ++ result.drop k =
        (content.take k ++ 'a' :: (content.take q).drop k) ++ result.drop q := by
      rw [hdrop, htakek]
      simp
    rw [htext, place, hplace]
    simp only [List.length_append, List.length_cons, List.length_drop, hklen,
      List.length_take_of_le hq]
    omega

/-- A range that starts after a replaced one starts past its stop. -/
theorem stop_le_of_after {ranges : List Range} {r : Range}
    (hapart : ranges.Pairwise (Range.Apart content)) (hr : r.In content) (hb : b.In content)
    (hmem : r ∈ ranges) (hbmem : b ∈ ranges) (hbefore : Before b.start r.start) :
    place content b.stop ≤ place content r.start := by
  have hlt := (before_iff_place_lt hb.1 hr.1).mp hbefore
  have hne : r ≠ b := by
    intro h
    rw [h] at hbefore
    exact Before.irrefl _ hbefore
  have : Std.Symm (Range.Apart content) := ⟨fun _ _ => Range.Apart.symm⟩
  have h := hapart.forall hmem hbmem hne
  have hup : place content r.start ≤ place content r.stop := hr.2.2
  rw [Range.Apart] at h
  omega

/-- The edits before them leave the text up to the stop of a replacement. -/
theorem reached_take_stop {ranges : List Range} (hb : b.start = p) (hbmem : b ∈ ranges)
    (hin : ∀ r ∈ ranges, r.In content) (hapart : ranges.Pairwise (Range.Apart content))
    (h₁ : ∀ r ∈ l₁, r.start = p → r.start = r.stop) :
    place content b.stop ≤ (reached content ranges l₁ p).length ∧
      content.take (place content b.stop) =
        (reached content ranges l₁ p).take (place content b.stop) := by
  have hempty : ∀ r ∈ startingAt l₁ p, r.start = r.stop := by
    intro r hr
    exact h₁ r (mem_startingAt.mp hr).1 (mem_startingAt.mp hr).2
  rw [reached, List.map_append, List.foldl_append, foldl_applyTextEdit_blank hempty]
  apply foldl_applyTextEdit_take _ (place_le content b.stop) rfl
  intro e he
  obtain ⟨r, hr, rfl⟩ := List.mem_map.mp he
  obtain ⟨hr, hbefore⟩ := mem_above.mp hr
  rw [← hb] at hbefore
  exact stop_le_of_after hapart (hin r hr) (hin b hbmem) hr hbmem hbefore

/-- Beside a replaced range that starts at `p`, the ranges at `p` are empty. -/
theorem empty_of_apart {r : Range} (hr : r.In content) (hapart : r.Apart content b)
    (hb : b.start = p) (hlt : place content p < place content b.stop) (hstart : r.start = p) :
    r.start = r.stop := by
  apply (place_inj hr.1 hr.2.1).mp
  have hup : place content r.start ≤ place content r.stop := hr.2.2
  rw [Range.Apart, hb, hstart] at hapart
  rw [hstart] at hup ⊢
  omega

/-- A replacement that follows an insertion at its start replaces the inserted
text, or leaves some of its own. -/
theorem insertion_replacement_differ (ha : a.start = p) (haempty : a.start = a.stop)
    (hb : b.start = p) (hbne : b.start ≠ b.stop)
    (hin : ∀ r ∈ l₁ ++ a :: (l₂ ++ b :: l₃), r.In content)
    (hapart : (l₁ ++ a :: (l₂ ++ b :: l₃)).Pairwise (Range.Apart content)) :
    ∃ s, applyTextEdits content (tied l₁ a s l₂ b [] l₃) ≠
      simultaneousEdits content (tied l₁ a s l₂ b [] l₃) := by
  have hbin : b.In content := hin b (by simp)
  have hp : Exact content p := by
    rw [← hb]
    exact hbin.1
  have hlt : place content p < place content b.stop := by
    have hup : place content b.start ≤ place content b.stop := hbin.2.2
    rw [← hb]
    apply Nat.lt_of_le_of_ne hup
    intro h
    exact hbne ((place_inj hbin.1 hbin.2.1).mp h)
  -- `b` is the one range at `p` that is not empty
  have hapart' := List.pairwise_append.mp hapart
  have hapart'' := List.pairwise_append.mp (List.pairwise_cons.mp hapart'.2.1).2
  have h₁ : ∀ r ∈ l₁, r.start = p → r.start = r.stop := by
    intro r hr
    exact empty_of_apart (hin r (by simp [hr])) (hapart'.2.2 r hr b (by simp)) hb hlt
  have h₂ : ∀ r ∈ l₂, r.start = p → r.start = r.stop := by
    intro r hr
    exact empty_of_apart (hin r (by simp [hr])) (hapart''.2.2 r hr b (by simp)) hb hlt
  have h₃ : ∀ r ∈ l₃, r.start = p → r.start = r.stop := by
    intro r hr
    exact empty_of_apart (hin r (by simp [hr]))
      ((List.pairwise_cons.mp hapart''.2.1).1 r hr).symm hb hlt
  obtain ⟨front, hactual⟩ := applyTextEdits_tied ha hb haempty hin hapart h₂ h₃
  obtain ⟨before, behind, hatOnce⟩ := @simultaneous_insertion_replacement content
    l₁ l₂ l₃ _ b _ ha haempty (by
      intro h
      have : place content b.stop = place content p := h.2
      omega)
  have hreached := @reached_take _ l₁ _ _ hp hin
  have hbmem : b ∈ l₁ ++ a :: (l₂ ++ b :: l₃) := by simp
  have hstop := reached_take_stop hb hbmem hin hapart h₁
  generalize hresult : reached content (l₁ ++ a :: (l₂ ++ b :: l₃)) l₁ p = result at hreached hstop
  have hplace := place_of_take (place_le content p) hreached.2 (hp.settled (Nat.le_refl _))
  -- what the two edits leave, for any text of the insertion
  have hactual' (s : List Char) :
      applyTextEdits content (tied l₁ a s l₂ b [] l₃) = front ++
        (result.take (place content p) ++ s ++ result.drop (place content p)).drop
          (place (result.take (place content p) ++ s ++ result.drop (place content p)) b.stop) := by
    have hfirst := take_applyTextEdit (b := a) hreached.2 ha hreached.1 s
    have hdrop := drop_applyTextEdit (b := b) hfirst.2 hp hb (Nat.le_of_lt hlt) hfirst.1 []
    have hinsert := @applyTextEdit_insertion _ result haempty s
    rw [ha, hplace] at hinsert
    rw [hinsert] at hdrop
    rw [hactual s]
    show front ++ (applyTextEdit (applyTextEdit (reached _ _ _ _) _) _).drop _ = _
    rw [hresult, hinsert, hdrop, List.nil_append]
  obtain ⟨s, hmoved⟩ := exists_text_moving_stop hbin.2.1 hlt (place_le content b.stop) hstop.1
    hstop.2
  by_contra hall
  push Not at hall
  have hempty := congrArg List.length ((hactual' []).symm.trans ((hall []).trans (hatOnce [])))
  have hs := congrArg List.length ((hactual' s).symm.trans ((hall s).trans (hatOnce s)))
  have hbstop := place_of_take (place_le content b.stop) hstop.2
    (hbin.2.1.settled (Nat.le_refl _))
  have hle := place_le (result.take (place content p) ++ s ++ result.drop (place content p)) b.stop
  rw [List.append_nil, List.take_append_drop, hbstop] at hempty
  simp only [List.length_append, List.length_drop, List.length_take, List.length_nil] at hempty hs hle
  omega

end Tied

/-! ## Edits applied at once -/

/-- The first edit that does not leave a later one its start: the edit after it
can be taken to be a replacement, unless all after it there are insertions. -/
theorem exists_tied_of_not_leavesStart {ranges : List Range}
    (h : ¬ ranges.Pairwise Range.LeavesStart) :
    ∃ (l₁ : List Range) (a : Range) (l₂ : List Range) (b : Range) (l₃ : List Range),
      ranges = l₁ ++ a :: (l₂ ++ b :: l₃) ∧ a.start = b.start ∧ a.start = a.stop ∧
      (b.start ≠ b.stop ∨
        (∀ r ∈ l₂, r.start = a.start → r.start = r.stop) ∧
          b.start = b.stop ∧ ∀ r ∈ l₃, r.start = a.start → r.start = r.stop) := by
  obtain ⟨l₁, a, l₂, b, l₃, hsplit, hnot⟩ := exists_split_of_not_pairwise h
  have hstart : a.start = b.start ∧ a.start = a.stop := by
    simpa [Range.LeavesStart] using hnot
  by_cases hall : ∀ r ∈ l₂ ++ b :: l₃, r.start = a.start → r.start = r.stop
  · refine ⟨l₁, a, l₂, b, l₃, hsplit, hstart.1, hstart.2, Or.inr ⟨?_, ?_, ?_⟩⟩
    · intro r hr
      exact hall r (by simp [hr])
    · exact hall b (by simp) hstart.1.symm
    · intro r hr
      exact hall r (by simp [hr])
  · push Not at hall
    obtain ⟨r, hr, hrstart, hrne⟩ := hall
    obtain ⟨l₂', l₃', hcut⟩ := List.append_of_mem hr
    exact ⟨l₁, a, l₂', r, l₃', by rw [hsplit, hcut], hrstart.symm, hstart.2, Or.inl hrne⟩

/-- Edits that do not disturb each other are applied at once.  For ranges that
the text has and that have nothing in common, edits with any texts are,
exactly when no insertion is followed in the array by an edit that starts
where it does. -/
theorem applyTextEdits_atOnce_iff (content : List Char) :
    (∀ edits : List TextEdit, (∀ e ∈ edits, e.range.Upright content) →
      (edits.Pairwise fun a b => a.range.Undisturbed content b.range) →
        applyTextEdits content edits = simultaneousEdits content edits) ∧
      ∀ ranges : List Range, (∀ r ∈ ranges, r.In content) →
        ranges.Pairwise (Range.Apart content) →
          ((∀ edits, edits.map TextEdit.range = ranges →
            applyTextEdits content edits = simultaneousEdits content edits) ↔
              ranges.Pairwise Range.LeavesStart) := by
  refine ⟨fun edits => applyTextEdits_of_undisturbed, ?_⟩
  intro ranges hin hapart
  constructor
  · intro hall
    by_contra hnot
    obtain ⟨l₁, a, l₂, b, l₃, rfl, hstart, haempty, hb⟩ := exists_tied_of_not_leavesStart hnot
    rcases hb with hbne | ⟨h₂, hbempty, h₃⟩
    · obtain ⟨s, hne⟩ :=
        insertion_replacement_differ hstart haempty rfl hbne hin hapart
      exact hne (hall _ (map_range_tied l₁ l₂ l₃ a b s []))
    · obtain ⟨s, t, hne⟩ :=
        insertions_differ rfl haempty hstart.symm hbempty hin hapart h₂ h₃
      exact hne (hall _ (map_range_tied l₁ l₂ l₃ a b s t))
  · intro hleaves edits hranges
    subst hranges
    have hin' : ∀ e ∈ edits, e.range.In content :=
      fun e he => hin e.range (List.mem_map_of_mem he)
    apply applyTextEdits_of_undisturbed
    · intro e he
      exact (hin' e he).2.2
    · apply ((List.pairwise_map.mp hapart).and (List.pairwise_map.mp hleaves)).imp_of_mem
      intro a b ha hb h
      exact h.2.undisturbed (hin' a ha) (hin' b hb) h.1

/-- A replacement and an insertion further on, of `abc`. -/
theorem applyTextEdits_atOnce_iff_abc :
    applyTextEdits ['a', 'b', 'c'] [⟨⟨⟨0, 0⟩, ⟨0, 1⟩⟩, ['x']⟩, ⟨⟨⟨0, 2⟩, ⟨0, 2⟩⟩, ['y']⟩] =
        simultaneousEdits ['a', 'b', 'c']
          [⟨⟨⟨0, 0⟩, ⟨0, 1⟩⟩, ['x']⟩, ⟨⟨⟨0, 2⟩, ⟨0, 2⟩⟩, ['y']⟩] ∧
      ∀ edits : List TextEdit,
        edits.map TextEdit.range = [⟨⟨0, 0⟩, ⟨0, 1⟩⟩, ⟨⟨0, 2⟩, ⟨0, 2⟩⟩] →
          applyTextEdits ['a', 'b', 'c'] edits = simultaneousEdits ['a', 'b', 'c'] edits :=
  ⟨(applyTextEdits_atOnce_iff ['a', 'b', 'c']).1 _ (by decide) (by decide),
    ((applyTextEdits_atOnce_iff ['a', 'b', 'c']).2 [⟨⟨0, 0⟩, ⟨0, 1⟩⟩, ⟨⟨0, 2⟩, ⟨0, 2⟩⟩]
      (by decide) (by decide)).mpr (by decide)⟩

/-- Of two insertions at one position the later one of the array comes out
first, and an insertion before a replacement of the array is replaced. -/
theorem insertions_swapped_and_lost :
    (applyTextEdits ['a', 'b'] [⟨⟨⟨0, 1⟩, ⟨0, 1⟩⟩, ['x']⟩, ⟨⟨⟨0, 1⟩, ⟨0, 1⟩⟩, ['y']⟩] =
        ['a', 'y', 'x', 'b'] ∧
      simultaneousEdits ['a', 'b'] [⟨⟨⟨0, 1⟩, ⟨0, 1⟩⟩, ['x']⟩, ⟨⟨⟨0, 1⟩, ⟨0, 1⟩⟩, ['y']⟩] =
        ['a', 'x', 'y', 'b']) ∧
    (applyTextEdits ['a', 'b', 'c'] [⟨⟨⟨0, 1⟩, ⟨0, 1⟩⟩, ['x']⟩, ⟨⟨⟨0, 1⟩, ⟨0, 2⟩⟩, ['y']⟩] =
        ['a', 'y', 'b', 'c'] ∧
      simultaneousEdits ['a', 'b', 'c']
        [⟨⟨⟨0, 1⟩, ⟨0, 1⟩⟩, ['x']⟩, ⟨⟨⟨0, 1⟩, ⟨0, 2⟩⟩, ['y']⟩] = ['a', 'x', 'y', 'c']) := by
  have hsorted (a b : TextEdit) (h : startsNoEarlier a.range b.range) :
      bottomToTop [a, b] = [a, b] :=
    List.mergeSort_of_pairwise (List.pairwise_pair.mpr h)
  refine ⟨⟨?_, by decide⟩, ?_, by decide⟩
  · rw [applyTextEdits, hsorted _ _ (by decide)]
    decide
  · rw [applyTextEdits, hsorted _ _ (by decide)]
    decide

end PhpantomLsp.Text
