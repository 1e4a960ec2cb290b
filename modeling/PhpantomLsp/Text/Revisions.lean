import PhpantomLsp.Text.Utf8

/-!
# Two revisions of a text

`AgreeBut at old new edits` says that the two texts are the same but for the
ranges `edits` lists, the old one starting at offset `at`.  An offset that is
not inside a listed range moves by what the ranges before it grew, and the
texts between two such offsets agree again but for the ranges between them
(`AgreeBut.between`).
-/

namespace PhpantomLsp.Text

open String (utf8Len utf8Len_append)

/-- A range of the old text, and by how many bytes the new one is longer. -/
structure Revision where
  start : Nat
  stop : Nat
  growth : Int

/-- `new` in place of `old`, behind `before`. -/
def Revision.of (offset : Nat) (before old new : List Char) : Revision :=
  ⟨offset + utf8Len before, offset + utf8Len before + utf8Len old,
    (utf8Len new : Int) - utf8Len old⟩

inductive AgreeBut : Nat → List Char → List Char → List Revision → Prop
  | same (offset : Nat) (text : List Char) : AgreeBut offset text text []
  | revised {offset : Nat} {before old new oldRest newRest : List Char} {edits : List Revision} :
      old ≠ [] →
      AgreeBut (offset + utf8Len before + utf8Len old) oldRest newRest edits →
      AgreeBut offset (before ++ (old ++ oldRest)) (before ++ (new ++ newRest))
        (Revision.of offset before old new :: edits)

/-- What the ranges that end by `offset` grew. -/
def growthUpTo (edits : List Revision) (offset : Nat) : Int :=
  ((edits.filter (·.stop ≤ offset)).map Revision.growth).sum

/-- The offset is not inside a revised range. -/
def Outside (edits : List Revision) (offset : Nat) : Prop :=
  ∀ e ∈ edits, offset ≤ e.start ∨ e.stop ≤ offset

/-- The ranges between two offsets. -/
def revisionsBetween (edits : List Revision) (start stop : Nat) : List Revision :=
  edits.filter fun e => start ≤ e.start ∧ e.stop ≤ stop

theorem utf8Len_pos {xs : List Char} (h : xs ≠ []) : 0 < utf8Len xs := by
  apply Nat.pos_of_ne_zero
  intro hlen
  exact h (String.utf8Len_eq_zero.mp hlen)

namespace AgreeBut

/-- The same text in front of both. -/
theorem prepend {offset : Nat} {old new : List Char} {edits : List Revision} (text : List Char)
    (h : AgreeBut (offset + utf8Len text) old new edits) :
    AgreeBut offset (text ++ old) (text ++ new) edits := by
  generalize hat : offset + utf8Len text = start at h
  cases h with
  | same => exact same _ _
  | @revised _ before old new oldRest newRest edits hne hrest =>
      have hlen : start + utf8Len before = offset + utf8Len (text ++ before) := by
        rw [utf8Len_append]
        omega
      rw [Revision.of]
      rw [hlen] at hrest ⊢
      rw [← List.append_assoc, ← List.append_assoc text]
      exact revised hne hrest

/-- The revised ranges lie in the text, and are not empty. -/
theorem bounds {offset : Nat} {old new : List Char} {edits : List Revision}
    (h : AgreeBut offset old new edits) {e : Revision} (he : e ∈ edits) :
    offset ≤ e.start ∧ e.start < e.stop := by
  induction h with
  | same => simp at he
  | @revised offset before old new oldRest newRest edits hne hrest ih =>
      have hpos := utf8Len_pos hne
      rcases List.mem_cons.mp he with rfl | he
      · constructor
        · exact Nat.le_add_right _ _
        · show offset + utf8Len before < offset + utf8Len before + utf8Len old
          omega
      · have := ih he
        omega

theorem eq_of_nil {offset : Nat} {old new : List Char} (h : AgreeBut offset old new []) :
    old = new := by
  cases h
  rfl

/-- No range ends by where the text starts. -/
theorem growthUpTo_eq_zero {offset start : Nat} {old new : List Char} {edits : List Revision}
    (h : AgreeBut start old new edits) (hle : offset ≤ start) : growthUpTo edits offset = 0 := by
  have hnone : edits.filter (·.stop ≤ offset) = [] := by
    apply List.filter_eq_nil_iff.mpr
    intro e he
    have := h.bounds he
    simp only [decide_eq_true_eq]
    omega
  simp [growthUpTo, hnone]

theorem revisionsBetween_eq_nil {start stop offset : Nat} {old new : List Char}
    {edits : List Revision} (h : AgreeBut offset old new edits) (hle : stop ≤ offset) :
    revisionsBetween edits start stop = [] := by
  apply List.filter_eq_nil_iff.mpr
  intro e he
  have := h.bounds he
  simp only [decide_eq_true_eq]
  omega

end AgreeBut

theorem growthUpTo_cons (e : Revision) (edits : List Revision) (offset : Nat) :
    growthUpTo (e :: edits) offset =
      (if e.stop ≤ offset then e.growth else 0) + growthUpTo edits offset := by
  by_cases h : e.stop ≤ offset
  · simp [growthUpTo, h]
  · simp [growthUpTo, h]

/-- In `new`, the offsets before and after `text`, which comes `start` bytes
into the old text, have moved by what the ranges before them grew, and between
them is `text` but for the ranges inside it. -/
def MovedTo (edits : List Revision) (start : Nat) (text : List Char) (offset : Nat)
    (new : List Char) : Prop :=
  ∃ before' text' after', new = before' ++ (text' ++ after') ∧
    ((offset + utf8Len before' : Nat) : Int) = (start : Int) + growthUpTo edits start ∧
    ((offset + utf8Len before' + utf8Len text' : Nat) : Int) =
      ((start + utf8Len text : Nat) : Int) + growthUpTo edits (start + utf8Len text) ∧
    AgreeBut start text text' (revisionsBetween edits start (start + utf8Len text))

section Revised

/-! The first revised range is behind `text`, before it or in it. -/

variable {offset : Nat} {front body body' oldRest newRest before text after : List Char}
  {edits : List Revision}

theorem growthUpTo_revised_of_le (hne : body ≠ [])
    (hrest : AgreeBut (offset + utf8Len front + utf8Len body) oldRest newRest edits)
    {at' : Nat} (hle : at' ≤ offset + utf8Len front) :
    growthUpTo (Revision.of offset front body body' :: edits) at' = 0 := by
  have hpos := utf8Len_pos hne
  rw [growthUpTo_cons, if_neg (by show ¬ offset + _ + _ ≤ _; omega),
    hrest.growthUpTo_eq_zero (by omega)]
  rfl

theorem growthUpTo_revised_of_ge {at' : Nat}
    (hle : offset + utf8Len front + utf8Len body ≤ at') :
    growthUpTo (Revision.of offset front body body' :: edits) at' =
      (utf8Len body' : Int) - utf8Len body + growthUpTo edits at' := by
  rw [growthUpTo_cons, if_pos (by exact hle)]
  rfl

theorem movedTo_of_behind (hne : body ≠ [])
    (hrest : AgreeBut (offset + utf8Len front + utf8Len body) oldRest newRest edits)
    (hold : front ++ (body ++ oldRest) = before ++ (text ++ after))
    (hle : utf8Len before + utf8Len text ≤ utf8Len front) :
    MovedTo (Revision.of offset front body body' :: edits) (offset + utf8Len before) text offset
      (front ++ (body' ++ newRest)) := by
  have hpos := utf8Len_pos hne
  rw [← List.append_assoc before] at hold
  obtain ⟨gap, hfront, -⟩ := exists_append_of_utf8Len_le hold.symm (by
    rw [utf8Len_append]
    exact hle)
  have hnone : revisionsBetween (Revision.of offset front body body' :: edits)
      (offset + utf8Len before) (offset + utf8Len before + utf8Len text) = [] := by
    rw [revisionsBetween, List.filter_cons_of_neg (by simp [Revision.of]; omega)]
    exact hrest.revisionsBetween_eq_nil (by omega)
  refine ⟨before, text, gap ++ (body' ++ newRest), ?_, ?_, ?_, ?_⟩
  · rw [hfront]
    simp only [List.append_assoc]
  · rw [growthUpTo_revised_of_le hne hrest (by omega), Int.add_zero]
  · rw [growthUpTo_revised_of_le hne hrest (by omega), Int.add_zero]
  · rw [hnone]
    exact AgreeBut.same _ _

theorem movedTo_of_before (hne : body ≠ [])
    (hle : utf8Len front + utf8Len body ≤ utf8Len before)
    (h : MovedTo edits (offset + utf8Len before) text (offset + utf8Len front + utf8Len body)
      newRest) :
    MovedTo (Revision.of offset front body body' :: edits) (offset + utf8Len before) text offset
      (front ++ (body' ++ newRest)) := by
  have hpos := utf8Len_pos hne
  have hskip : revisionsBetween (Revision.of offset front body body' :: edits)
      (offset + utf8Len before) (offset + utf8Len before + utf8Len text) =
      revisionsBetween edits (offset + utf8Len before)
        (offset + utf8Len before + utf8Len text) := by
    rw [revisionsBetween, List.filter_cons_of_neg (by simp [Revision.of]; omega)]
    rfl
  obtain ⟨before', text', after', hnew, hstart, hstop, hagree⟩ := h
  refine ⟨front ++ (body' ++ before'), text', after', ?_, ?_, ?_, ?_⟩
  · rw [hnew]
    simp only [List.append_assoc]
  · rw [growthUpTo_revised_of_ge (by omega)]
    simp only [utf8Len_append]
    omega
  · rw [growthUpTo_revised_of_ge (by omega)]
    simp only [utf8Len_append]
    omega
  · rw [hskip]
    exact hagree

theorem movedTo_of_inside {gap inner : List Char} (hne : body ≠ [])
    (hrest : AgreeBut (offset + utf8Len front + utf8Len body) oldRest newRest edits)
    (hfront : front = before ++ gap)
    (h : MovedTo edits (offset + utf8Len front + utf8Len body) inner
      (offset + utf8Len front + utf8Len body) newRest) :
    MovedTo (Revision.of offset front body body' :: edits) (offset + utf8Len before)
      (gap ++ (body ++ inner)) offset (front ++ (body' ++ newRest)) := by
  obtain ⟨before', text', after', hnew, hstart, hstop, hagree⟩ := h
  -- nothing has moved at the start of the rest
  have hbefore : before' = [] := by
    rw [hrest.growthUpTo_eq_zero (Nat.le_refl _)] at hstart
    apply String.utf8Len_eq_zero.mp
    omega
  have hlen : utf8Len front = utf8Len before + utf8Len gap := by
    rw [hfront, utf8Len_append]
  have hbetween : revisionsBetween (Revision.of offset front body body' :: edits)
      (offset + utf8Len before)
      (offset + utf8Len before + utf8Len (gap ++ (body ++ inner))) =
      Revision.of offset front body body' :: revisionsBetween edits
        (offset + utf8Len front + utf8Len body)
        (offset + utf8Len front + utf8Len body + utf8Len inner) := by
    have htail : edits.filter (fun e => offset + utf8Len before ≤ e.start ∧
          e.stop ≤ offset + utf8Len before + utf8Len (gap ++ (body ++ inner))) =
        revisionsBetween edits (offset + utf8Len front + utf8Len body)
          (offset + utf8Len front + utf8Len body + utf8Len inner) := by
      apply List.filter_congr
      intro e he
      have := hrest.bounds he
      simp only [utf8Len_append]
      congr 1
      rw [eq_iff_iff]
      omega
    rw [revisionsBetween, List.filter_cons_of_pos, htail]
    simp only [Revision.of, utf8Len_append, decide_eq_true_eq]
    omega
  refine ⟨before, gap ++ (body' ++ text'), after', ?_, ?_, ?_, ?_⟩
  · rw [hnew, hbefore, hfront]
    simp only [List.append_assoc, List.nil_append]
  · rw [growthUpTo_revised_of_le hne hrest (by omega), Int.add_zero]
  · rw [hbefore] at hstop
    simp only [utf8Len_append, String.utf8Len_nil] at hstop ⊢
    rw [growthUpTo_revised_of_ge (by omega),
      show offset + utf8Len before + (utf8Len gap + (utf8Len body + utf8Len inner)) =
        offset + utf8Len front + utf8Len body + utf8Len inner by omega]
    omega
  · rw [hbetween]
    have hgap : Revision.of offset front body body' =
        Revision.of (offset + utf8Len before) gap body body' := by
      simp only [Revision.of, hlen, Nat.add_assoc]
    rw [hgap]
    apply AgreeBut.revised hne
    rw [show offset + utf8Len before + utf8Len gap + utf8Len body =
      offset + utf8Len front + utf8Len body by omega]
    exact hagree

end Revised

/-- Where an offset outside the revised ranges is in the new text, and what
the texts between two such offsets are. -/
theorem AgreeBut.between {offset : Nat} {old new : List Char} {edits : List Revision}
    (h : AgreeBut offset old new edits) {before text after : List Char}
    (hold : old = before ++ (text ++ after))
    (hstart : Outside edits (offset + utf8Len before))
    (hstop : Outside edits (offset + utf8Len before + utf8Len text)) :
    MovedTo edits (offset + utf8Len before) text offset new := by
  induction h generalizing before text after with
  | same =>
      exact ⟨before, text, after, hold, by simp [growthUpTo], by simp [growthUpTo], same _ _⟩
  | @revised offset front body body' oldRest newRest edits hne hrest ih =>
      have hstarts : offset + utf8Len before ≤ offset + utf8Len front ∨
          offset + utf8Len front + utf8Len body ≤ offset + utf8Len before :=
        hstart _ List.mem_cons_self
      have hstops : offset + utf8Len before + utf8Len text ≤ offset + utf8Len front ∨
          offset + utf8Len front + utf8Len body ≤ offset + utf8Len before + utf8Len text :=
        hstop _ List.mem_cons_self
      by_cases hbehind : utf8Len before + utf8Len text ≤ utf8Len front
      · exact movedTo_of_behind hne hrest hold hbehind
      · by_cases hbefore : utf8Len front + utf8Len body ≤ utf8Len before
        · rw [← List.append_assoc] at hold
          obtain ⟨before₀, rfl, hrest₀⟩ := exists_append_of_utf8Len_le hold (by
            rw [utf8Len_append]
            exact hbefore)
          have hat : offset + utf8Len (front ++ body ++ before₀) =
              offset + utf8Len front + utf8Len body + utf8Len before₀ := by
            simp only [utf8Len_append]
            omega
          apply movedTo_of_before hne hbefore
          rw [hat] at hstart hstop ⊢
          exact ih hrest₀ (fun e he => hstart e (List.mem_cons_of_mem _ he))
            (fun e he => hstop e (List.mem_cons_of_mem _ he))
        · -- the offsets are on either side of the revised range
          obtain ⟨gap, hfront, hgap⟩ := exists_append_of_utf8Len_le hold.symm (by omega)
          rw [← List.append_assoc] at hgap
          obtain ⟨inner, htext, hrest₀⟩ := exists_append_of_utf8Len_le hgap.symm (by
            rw [hfront, utf8Len_append] at hbehind hstops
            rw [utf8Len_append]
            omega)
          have hlen : utf8Len text = utf8Len gap + utf8Len body + utf8Len inner := by
            rw [htext, utf8Len_append, utf8Len_append]
          have hlen' : utf8Len front = utf8Len before + utf8Len gap := by
            rw [hfront, utf8Len_append]
          rw [htext, List.append_assoc]
          apply movedTo_of_inside hne hrest hfront
          have hat : offset + utf8Len front + utf8Len body + utf8Len inner =
              offset + utf8Len before + utf8Len text := by omega
          apply @ih [] inner after hrest₀
          · intro e he
            exact Or.inl (hrest.bounds he).1
          · intro e he
            rw [String.utf8Len_nil, Nat.add_zero, hat]
            exact hstop e (List.mem_cons_of_mem _ he)

end PhpantomLsp.Text
