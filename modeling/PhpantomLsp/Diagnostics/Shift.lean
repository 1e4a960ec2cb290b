import PhpantomLsp.Diagnostics.Units
import PhpantomLsp.Text.LineIndex

/-!
# Moving diagnostics to the edited text

`carry_over` moves the diagnostics that start outside the changed functions to
where the same text is in the edited file.  It looks at the two ends of a
diagnostic only: one that starts before a changed function and ends behind it
is moved like the others, and covers the function as it is now.
-/

namespace PhpantomLsp.Diagnostics

open PhpantomLsp.Text
open String (utf8Len utf8Len_append)

/-- A function whose body an edit changed: its span in the old text and in the
new one. -/
structure ChangedSpan where
  old : Nat × Nat
  new : Nat × Nat

/-- How many bytes longer the declaration got. -/
def ChangedSpan.growth (span : ChangedSpan) : Int :=
  ((span.new.2 - span.new.1 : Nat) : Int) - (span.old.2 - span.old.1 : Nat)

/-- What `f` makes of each changed unit, old and new. -/
def mapChanged {β : Type*} (f : DiagnosticUnit → DiagnosticUnit → β)
    (oldUnits newUnits : List DiagnosticUnit) (changed : List Nat) : List β :=
  changed.filterMap fun i =>
    match oldUnits[i]?, newUnits[i]? with
    | some oldUnit, some newUnit => some (f oldUnit newUnit)
    | _, _ => none

/-- The spans of the changed units, as the partial pass collects them. -/
def changedSpans (oldUnits newUnits : List DiagnosticUnit) (changed : List Nat) :
    List ChangedSpan :=
  mapChanged (fun oldUnit newUnit => ⟨oldUnit.span, newUnit.span⟩) oldUnits newUnits changed

/-- A diagnostic: its range, and everything else it says. -/
structure Diagnostic (δ : Type*) where
  range : Range
  rest : δ
deriving DecidableEq

def contains (span : Nat × Nat) (offset : Nat) : Bool := span.1 ≤ offset && offset < span.2

/-- Where `offset`, which lies outside every changed span of the old text, sits
in the new text. -/
def shift (offset : Nat) (changed : List ChangedSpan) : Nat :=
  ((offset : Int) +
    ((changed.filter fun span => span.old.2 ≤ offset).map ChangedSpan.growth).sum).toNat

variable {δ : Type*}

/-- The diagnostic at its place in the new text. -/
def moved (old new : List Char) (changed : List ChangedSpan) (diagnostic : Diagnostic δ) :
    Diagnostic δ :=
  let oldLines := LineIndex.new old
  let newLines := LineIndex.new new
  { diagnostic with
    range := ⟨newLines.position (shift (oldLines.byteOffset diagnostic.range.start) changed),
      newLines.position (shift (oldLines.byteOffset diagnostic.range.stop) changed)⟩ }

/-- The loop over the diagnostics. -/
def carryEach (old new : List Char) (changed : List ChangedSpan) :
    List (Diagnostic δ) → Option (List (Diagnostic δ))
  | [] => some []
  | diagnostic :: diagnostics =>
      let start := (LineIndex.new old).byteOffset diagnostic.range.start
      if changed.any fun span => contains span.old start then
        carryEach old new changed diagnostics
      else
        let stop := (LineIndex.new old).byteOffset diagnostic.range.stop
        if changed.any fun span => span.old.1 < stop && stop < span.old.2 then none
        else do
          let carried ← carryEach old new changed diagnostics
          some (moved old new changed diagnostic :: carried)

def carryOver (old new : List Char) (changed : List ChangedSpan)
    (diagnostics : List (Diagnostic δ)) : Option (List (Diagnostic δ)) :=
  if diagnostics.isEmpty then some [] else carryEach old new changed diagnostics

/-! ## What is kept, dropped and refused -/

/-- The offsets a diagnostic covers. -/
def Diagnostic.offsets (content : List Char) (diagnostic : Diagnostic δ) : Nat × Nat :=
  ((LineIndex.new content).byteOffset diagnostic.range.start,
    (LineIndex.new content).byteOffset diagnostic.range.stop)

/-- The text it covers. -/
def Diagnostic.covered (content : List Char) (diagnostic : Diagnostic δ) : List Char :=
  slice content (diagnostic.offsets content).1 (diagnostic.offsets content).2

/-- It starts inside a changed span. -/
def Diagnostic.StartsInside (old : List Char) (changed : List ChangedSpan)
    (diagnostic : Diagnostic δ) : Prop :=
  ∃ span ∈ changed, span.old.1 ≤ (diagnostic.offsets old).1 ∧
    (diagnostic.offsets old).1 < span.old.2

/-- It ends strictly inside a changed span. -/
def Diagnostic.EndsInside (old : List Char) (changed : List ChangedSpan)
    (diagnostic : Diagnostic δ) : Prop :=
  ∃ span ∈ changed, span.old.1 < (diagnostic.offsets old).2 ∧
    (diagnostic.offsets old).2 < span.old.2

/-- It has nothing in common with a changed span. -/
def Diagnostic.CoversNone (old : List Char) (changed : List ChangedSpan)
    (diagnostic : Diagnostic δ) : Prop :=
  ∀ span ∈ changed, (diagnostic.offsets old).2 ≤ span.old.1 ∨
    span.old.2 ≤ (diagnostic.offsets old).1

instance (old : List Char) (changed : List ChangedSpan) (diagnostic : Diagnostic δ) :
    Decidable (diagnostic.StartsInside old changed) :=
  inferInstanceAs (Decidable (∃ span ∈ changed, _ ∧ _))
instance (old : List Char) (changed : List ChangedSpan) (diagnostic : Diagnostic δ) :
    Decidable (diagnostic.EndsInside old changed) :=
  inferInstanceAs (Decidable (∃ span ∈ changed, _ ∧ _))

/-- One diagnostic of the loop. -/
theorem carryEach_cons (old new : List Char) (changed : List ChangedSpan)
    (diagnostic : Diagnostic δ) (diagnostics : List (Diagnostic δ)) :
    carryEach old new changed (diagnostic :: diagnostics) =
      if diagnostic.StartsInside old changed then carryEach old new changed diagnostics
      else if diagnostic.EndsInside old changed then none
      else (carryEach old new changed diagnostics).map
        (moved old new changed diagnostic :: ·) := by
  have hstart : (changed.any fun span => contains span.old
      ((LineIndex.new old).byteOffset diagnostic.range.start)) = true ↔
      diagnostic.StartsInside old changed := by
    simp [Diagnostic.StartsInside, Diagnostic.offsets, contains]
  have hstop : (changed.any fun span =>
      span.old.1 < (LineIndex.new old).byteOffset diagnostic.range.stop &&
        (LineIndex.new old).byteOffset diagnostic.range.stop < span.old.2) = true ↔
      diagnostic.EndsInside old changed := by
    simp [Diagnostic.EndsInside, Diagnostic.offsets]
  simp only [carryEach, hstart, hstop]
  by_cases hs : diagnostic.StartsInside old changed
  · simp [hs]
  · by_cases he : diagnostic.EndsInside old changed
    · simp [hs, he]
    · simp only [hs, he, if_false]
      cases carryEach old new changed diagnostics <;> rfl

/-- The loop refuses for one diagnostic, or moves all that do not start inside
a changed span. -/
theorem carryEach_eq (old new : List Char) (changed : List ChangedSpan)
    (diagnostics : List (Diagnostic δ)) :
    carryEach old new changed diagnostics =
      if ∃ d ∈ diagnostics, ¬ d.StartsInside old changed ∧ d.EndsInside old changed then none
      else some ((diagnostics.filter fun d => ¬ d.StartsInside old changed).map
        (moved old new changed)) := by
  induction diagnostics with
  | nil => simp [carryEach]
  | cons d diagnostics ih =>
      rw [carryEach_cons, ih]
      by_cases hs : d.StartsInside old changed
      · simp [hs]
      · by_cases he : d.EndsInside old changed
        · simp [hs, he]
        · simp only [hs, he, if_false, List.mem_cons, exists_eq_or_imp, not_false_eq_true,
            and_false, false_or]
          split
          · rfl
          · simp [hs]

theorem carryOver_eq (old new : List Char) (changed : List ChangedSpan)
    (diagnostics : List (Diagnostic δ)) :
    carryOver old new changed diagnostics = carryEach old new changed diagnostics := by
  cases diagnostics with
  | nil => rfl
  | cons d diagnostics => rfl

/-! ## The texts of the moved diagnostics -/

/-- The bodies of the changed units, as revisions of the old text. -/
def bodyRevisions (oldUnits newUnits : List DiagnosticUnit) (changed : List Nat) :
    List Revision :=
  mapChanged (fun oldUnit newUnit => bodyRevision (oldUnit, newUnit)) oldUnits newUnits changed

/-- Paired units are the same declaration: its header, which the text between
the bodies holds, is as long in the new text. -/
def SameDeclarations (oldUnits newUnits : List DiagnosticUnit) : Prop :=
  ∀ units ∈ oldUnits.zip newUnits,
    units.1.body.1 - units.1.span.1 = units.2.body.1 - units.2.span.1

section Carried

variable {old new : List Char} {oldUnits newUnits : List DiagnosticUnit} {changed : List Nat}

theorem mapChanged_found {β : Type*} {found : List (Nat × DiagnosticUnit × DiagnosticUnit)}
    (h : ∀ p ∈ found, (oldUnits.zip newUnits)[p.1]? = some p.2)
    (f : DiagnosticUnit → DiagnosticUnit → β) :
    mapChanged f oldUnits newUnits (found.map Prod.fst) = found.map fun p => f p.2.1 p.2.2 := by
  induction found with
  | nil => rfl
  | cons p found ih =>
      have hp := List.getElem?_zip_eq_some.mp (h p (by simp))
      have ih := ih fun q hq => h q (by simp [hq])
      rw [mapChanged] at ih
      rw [mapChanged, List.map_cons, List.filterMap_cons, hp.1, hp.2, ih]
      rfl

/-- The spans and the bodies of the changed units, unit by unit. -/
theorem exists_found (h : changedUnits old oldUnits new newUnits = some changed)
    (hsame : SameDeclarations oldUnits newUnits) :
    ∃ found : List (DiagnosticUnit × DiagnosticUnit),
      changedSpans oldUnits newUnits changed = found.map (fun p => ⟨p.1.span, p.2.span⟩) ∧
        bodyRevisions oldUnits newUnits changed = found.map bodyRevision ∧
          (∀ p ∈ found, p.1.body.1 - p.1.span.1 = p.2.body.1 - p.2.span.1) ∧
            AgreeBut 0 old new (bodyRevisions oldUnits newUnits changed) := by
  obtain ⟨found, rfl, hfound, hagree⟩ := changedUnits_agreeBut h
  have hrevisions := mapChanged_found hfound fun o n => bodyRevision (o, n)
  refine ⟨found.map Prod.snd, ?_, ?_, ?_, ?_⟩
  · rw [changedSpans, mapChanged_found hfound fun o n => ChangedSpan.mk o.span n.span, List.map_map]
    rfl
  · rw [bodyRevisions, hrevisions, List.map_map]
    rfl
  · intro p hp
    obtain ⟨q, hq, rfl⟩ := List.mem_map.mp hp
    exact hsame q.2 (List.mem_of_getElem? (hfound q hq))
  · rw [bodyRevisions, hrevisions]
    exact hagree

/-- The spans grow by what their bodies grow. -/
theorem growth_eq {p : DiagnosticUnit × DiagnosticUnit}
    (h : p.1.body.1 - p.1.span.1 = p.2.body.1 - p.2.span.1) :
    (ChangedSpan.mk p.1.span p.2.span).growth = (bodyRevision p).growth := by
  have := p.1.span_le_body
  have := p.1.body_nonempty
  have := p.1.body_ends
  have := p.2.span_le_body
  have := p.2.body_nonempty
  have := p.2.body_ends
  simp only [ChangedSpan.growth, bodyRevision]
  omega

theorem shift_eq (h : changedUnits old oldUnits new newUnits = some changed)
    (hsame : SameDeclarations oldUnits newUnits) (offset : Nat) :
    shift offset (changedSpans oldUnits newUnits changed) =
      ((offset : Int) + growthUpTo (bodyRevisions oldUnits newUnits changed) offset).toNat := by
  obtain ⟨found, hspans, hrevisions, hheaders, -⟩ := exists_found h hsame
  have hsum : ((found.map fun p => ChangedSpan.mk p.1.span p.2.span).filter
        fun span => span.old.2 ≤ offset).map ChangedSpan.growth =
      ((found.map bodyRevision).filter fun e => e.stop ≤ offset).map Revision.growth := by
    rw [List.filter_map, List.filter_map, List.map_map, List.map_map]
    have hfilter : found.filter ((fun span : ChangedSpan => decide (span.old.2 ≤ offset)) ∘
          fun p => ChangedSpan.mk p.1.span p.2.span) =
        found.filter ((fun e : Revision => decide (e.stop ≤ offset)) ∘ bodyRevision) := by
      apply List.filter_congr
      intro p _
      simp only [Function.comp, bodyRevision, p.1.body_ends]
    rw [hfilter]
    apply List.map_congr_left
    intro p hp
    exact growth_eq (hheaders p (List.mem_filter.mp hp).1)
  rw [shift, growthUpTo, hspans, hrevisions, hsum]

/-- Outside the changed spans is outside the changed bodies. -/
theorem outside_bodies (h : changedUnits old oldUnits new newUnits = some changed)
    (hsame : SameDeclarations oldUnits newUnits) {offset : Nat}
    (hout : ∀ span ∈ changedSpans oldUnits newUnits changed,
      offset ≤ span.old.1 ∨ span.old.2 ≤ offset) :
    Outside (bodyRevisions oldUnits newUnits changed) offset := by
  obtain ⟨found, hspans, hrevisions, -, -⟩ := exists_found h hsame
  intro e he
  rw [hrevisions] at he
  obtain ⟨p, hp, rfl⟩ := List.mem_map.mp he
  have hspan : offset ≤ p.1.span.1 ∨ p.1.span.2 ≤ offset :=
    hout ⟨p.1.span, p.2.span⟩ (by
      rw [hspans]
      exact List.mem_map.mpr ⟨p, hp, rfl⟩)
  have := p.1.span_le_body
  have := p.1.body_ends
  simp only [bodyRevision]
  omega

/-- Between two offsets outside the changed spans, the new text is the old one
but for the bodies there, and `shift` gives its ends. -/
theorem shift_between (h : changedUnits old oldUnits new newUnits = some changed)
    (hsame : SameDeclarations oldUnits newUnits) {start stop : Nat} (hle : start ≤ stop)
    (hstart : IsCharBoundary old start) (hstop : IsCharBoundary old stop)
    (houtStart : ∀ span ∈ changedSpans oldUnits newUnits changed,
      start ≤ span.old.1 ∨ span.old.2 ≤ start)
    (houtStop : ∀ span ∈ changedSpans oldUnits newUnits changed,
      stop ≤ span.old.1 ∨ span.old.2 ≤ stop) :
    ∃ before text after, new = before ++ (text ++ after) ∧
      utf8Len before = shift start (changedSpans oldUnits newUnits changed) ∧
        utf8Len before + utf8Len text = shift stop (changedSpans oldUnits newUnits changed) ∧
          AgreeBut start (slice old start stop) text
            (revisionsBetween (bodyRevisions oldUnits newUnits changed) start stop) := by
  obtain ⟨-, -, -, -, hagree⟩ := exists_found h hsame
  obtain ⟨before, rest, hold, rfl⟩ := isCharBoundary_iff.mp hstart
  obtain ⟨upto, after, hold', rfl⟩ := isCharBoundary_iff.mp hstop
  obtain ⟨text, rfl, rfl⟩ := exists_append_of_utf8Len_le (hold.symm.trans hold') hle
  have hmoved := hagree.between hold (by
    rw [Nat.zero_add]
    exact outside_bodies h hsame houtStart) (by
    rw [Nat.zero_add, ← utf8Len_append]
    exact outside_bodies h hsame houtStop)
  obtain ⟨before', text', after', hnew, hstart', hstop', htext⟩ := hmoved
  simp only [Nat.zero_add, ← utf8Len_append] at hstart' hstop' htext
  refine ⟨before', text', after', hnew, ?_, ?_, ?_⟩
  · rw [shift_eq h hsame]
    omega
  · rw [shift_eq h hsame, ← utf8Len_append]
    omega
  · have hslice := slice_append before text after
    rw [← hold, ← utf8Len_append] at hslice
    rw [hslice]
    exact htext

theorem outside_of_not_startsInside {spans : List ChangedSpan} {d : Diagnostic δ}
    (h : ¬ d.StartsInside old spans) :
    ∀ span ∈ spans, (d.offsets old).1 ≤ span.old.1 ∨ span.old.2 ≤ (d.offsets old).1 := by
  intro span hspan
  by_contra hnot
  exact h ⟨span, hspan, by omega, by omega⟩

theorem outside_of_not_endsInside {spans : List ChangedSpan} {d : Diagnostic δ}
    (h : ¬ d.EndsInside old spans) :
    ∀ span ∈ spans, (d.offsets old).2 ≤ span.old.1 ∨ span.old.2 ≤ (d.offsets old).2 := by
  intro span hspan
  by_contra hnot
  exact h ⟨span, hspan, by omega, by omega⟩

theorem byteOffset_shift (h : changedUnits old oldUnits new newUnits = some changed)
    (hsame : SameDeclarations oldUnits newUnits) {offset : Nat} (hcut : IsCharBoundary old offset)
    (hout : ∀ span ∈ changedSpans oldUnits newUnits changed,
      offset ≤ span.old.1 ∨ span.old.2 ≤ offset) :
    (LineIndex.new new).byteOffset ((LineIndex.new new).position
      (shift offset (changedSpans oldUnits newUnits changed))) =
        shift offset (changedSpans oldUnits newUnits changed) := by
  obtain ⟨before, text, after, hnew, hstart, -, -⟩ :=
    shift_between h hsame (Nat.le_refl _) hcut hcut hout hout
  apply byteOffset_position
  exact isCharBoundary_iff.mpr ⟨before, text ++ after, hnew, hstart⟩

/-- The ends of a moved diagnostic. -/
theorem offsets_moved (h : changedUnits old oldUnits new newUnits = some changed)
    (hsame : SameDeclarations oldUnits newUnits) {d : Diagnostic δ}
    (hstart : ¬ d.StartsInside old (changedSpans oldUnits newUnits changed))
    (hstop : ¬ d.EndsInside old (changedSpans oldUnits newUnits changed)) :
    (moved old new (changedSpans oldUnits newUnits changed) d).offsets new =
      (shift (d.offsets old).1 (changedSpans oldUnits newUnits changed),
        shift (d.offsets old).2 (changedSpans oldUnits newUnits changed)) := by
  have hfirst := byteOffset_shift h hsame (isCharBoundary_byteOffset old d.range.start)
    (outside_of_not_startsInside hstart)
  have hsecond := byteOffset_shift h hsame (isCharBoundary_byteOffset old d.range.stop)
    (outside_of_not_endsInside hstop)
  exact Prod.ext hfirst hsecond

/-- A moved diagnostic covers the same text but for the bodies of the changed
units it covers. -/
theorem covered_moved_agreeBut (h : changedUnits old oldUnits new newUnits = some changed)
    (hsame : SameDeclarations oldUnits newUnits) {d : Diagnostic δ}
    (hstart : ¬ d.StartsInside old (changedSpans oldUnits newUnits changed))
    (hstop : ¬ d.EndsInside old (changedSpans oldUnits newUnits changed))
    (hle : (d.offsets old).1 ≤ (d.offsets old).2) :
    AgreeBut (d.offsets old).1 (d.covered old)
      ((moved old new (changedSpans oldUnits newUnits changed) d).covered new)
      (revisionsBetween (bodyRevisions oldUnits newUnits changed) (d.offsets old).1
        (d.offsets old).2) := by
  obtain ⟨before, text, after, hnew, hbefore, htext, hagree⟩ := shift_between h hsame hle
    (isCharBoundary_byteOffset old d.range.start) (isCharBoundary_byteOffset old d.range.stop)
    (outside_of_not_startsInside hstart) (outside_of_not_endsInside hstop)
  have hcovered : (moved old new (changedSpans oldUnits newUnits changed) d).covered new =
      text := by
    have hslice := slice_append before text after
    rw [Diagnostic.covered, offsets_moved h hsame hstart hstop, ← hbefore, ← htext, hnew, hslice]
  rw [hcovered]
  exact hagree

/-- A diagnostic that has nothing in common with a changed span is moved to the
same text. -/
theorem covered_moved (h : changedUnits old oldUnits new newUnits = some changed)
    (hsame : SameDeclarations oldUnits newUnits) {d : Diagnostic δ}
    (hstart : ¬ d.StartsInside old (changedSpans oldUnits newUnits changed))
    (hstop : ¬ d.EndsInside old (changedSpans oldUnits newUnits changed))
    (hnone : d.CoversNone old (changedSpans oldUnits newUnits changed)) :
    (moved old new (changedSpans oldUnits newUnits changed) d).covered new = d.covered old := by
  by_cases hle : (d.offsets old).1 ≤ (d.offsets old).2
  · have hagree := covered_moved_agreeBut h hsame hstart hstop hle
    have hbetween : revisionsBetween (bodyRevisions oldUnits newUnits changed) (d.offsets old).1
        (d.offsets old).2 = [] := by
      obtain ⟨found, hspans, hrevisions, -, htexts⟩ := exists_found h hsame
      apply List.filter_eq_nil_iff.mpr
      intro e he
      have hbounds := htexts.bounds he
      rw [hrevisions] at he
      obtain ⟨p, hp, rfl⟩ := List.mem_map.mp he
      have hspan : (d.offsets old).2 ≤ p.1.span.1 ∨ p.1.span.2 ≤ (d.offsets old).1 :=
        hnone ⟨p.1.span, p.2.span⟩ (by
          rw [hspans]
          exact List.mem_map.mpr ⟨p, hp, rfl⟩)
      have := p.1.span_le_body
      have := p.1.body_ends
      intro hbetween
      have hbetween := of_decide_eq_true hbetween
      simp only [bodyRevision] at hbounds hbetween
      omega
    rw [hbetween] at hagree
    exact hagree.eq_of_nil.symm
  · -- an inverted range covers nothing, before and after
    obtain ⟨before, text, after, hnew, hbefore, htext, -⟩ := shift_between h hsame
      (Nat.le_of_not_le hle) (isCharBoundary_byteOffset old d.range.stop)
      (isCharBoundary_byteOffset old d.range.start) (outside_of_not_endsInside hstop)
      (outside_of_not_startsInside hstart)
    have hinverted : shift (d.offsets old).2 (changedSpans oldUnits newUnits changed) ≤
        shift (d.offsets old).1 (changedSpans oldUnits newUnits changed) := by
      omega
    rw [Diagnostic.covered, Diagnostic.covered, offsets_moved h hsame hstart hstop,
      slice_of_le _ hinverted, slice_of_le _ (Nat.le_of_not_le hle)]

end Carried

/-- `carry_over` refuses exactly when a diagnostic that starts outside the
changed spans ends strictly inside one.  Otherwise it drops those that start
inside a changed span and moves the others, in order, both ends by what the
spans before them grew; a moved diagnostic covers the text it covered, but for
the bodies of the changed units it covers, and exactly that text when it has
nothing in common with a changed span. -/
theorem carryOver_exact (old new : List Char) (oldUnits newUnits : List DiagnosticUnit)
    (changed : List Nat) (h : changedUnits old oldUnits new newUnits = some changed)
    (hsame : SameDeclarations oldUnits newUnits) (diagnostics : List (Diagnostic δ)) :
    (carryOver old new (changedSpans oldUnits newUnits changed) diagnostics =
      if ∃ d ∈ diagnostics, ¬ d.StartsInside old (changedSpans oldUnits newUnits changed) ∧
          d.EndsInside old (changedSpans oldUnits newUnits changed) then none
      else some ((diagnostics.filter fun d =>
        ¬ d.StartsInside old (changedSpans oldUnits newUnits changed)).map
          (moved old new (changedSpans oldUnits newUnits changed)))) ∧
    ∀ d ∈ diagnostics, ¬ d.StartsInside old (changedSpans oldUnits newUnits changed) →
      ¬ d.EndsInside old (changedSpans oldUnits newUnits changed) →
        (moved old new (changedSpans oldUnits newUnits changed) d).offsets new =
          (shift (d.offsets old).1 (changedSpans oldUnits newUnits changed),
            shift (d.offsets old).2 (changedSpans oldUnits newUnits changed)) ∧
        (d.CoversNone old (changedSpans oldUnits newUnits changed) →
          (moved old new (changedSpans oldUnits newUnits changed) d).covered new =
            d.covered old) ∧
        ((d.offsets old).1 ≤ (d.offsets old).2 →
          AgreeBut (d.offsets old).1 (d.covered old)
            ((moved old new (changedSpans oldUnits newUnits changed) d).covered new)
            (revisionsBetween (bodyRevisions oldUnits newUnits changed) (d.offsets old).1
              (d.offsets old).2)) := by
  constructor
  · rw [carryOver_eq, carryEach_eq]
  · intro d _ hstart hstop
    exact ⟨offsets_moved h hsame hstart hstop, covered_moved h hsame hstart hstop,
      covered_moved_agreeBut h hsame hstart hstop⟩

/-- The body of a function grows by one character. -/
theorem carryOver_exact_grown :
    carryOver ['{', '}', 'é', '\n', 'b'] ['{', '\n', '}', 'é', '\n', 'b']
        (changedSpans [⟨(0, 2), (0, 2), by decide, by decide, rfl⟩]
          [⟨(0, 3), (0, 3), by decide, by decide, rfl⟩] [0])
        [⟨⟨⟨0, 2⟩, ⟨0, 3⟩⟩, ()⟩, ⟨⟨⟨0, 0⟩, ⟨0, 3⟩⟩, ()⟩] =
      some [⟨⟨⟨1, 1⟩, ⟨1, 2⟩⟩, ()⟩] := by
  have hchanged := (carryOver_exact (δ := Unit) ['{', '}', 'é', '\n', 'b']
    ['{', '\n', '}', 'é', '\n', 'b'] [⟨(0, 2), (0, 2), by decide, by decide, rfl⟩]
    [⟨(0, 3), (0, 3), by decide, by decide, rfl⟩] [0] (by decide)
    (by unfold SameDeclarations; decide)
    [⟨⟨⟨0, 2⟩, ⟨0, 3⟩⟩, ()⟩, ⟨⟨⟨0, 0⟩, ⟨0, 3⟩⟩, ()⟩]).1
  rw [hchanged]
  decide

/-- A diagnostic around a changed function is carried, though the text it
covers is another. -/
theorem carries_around_changed :
    carryOver ['a', ' ', '{', '}', 'b'] ['a', ' ', '{', '1', '}', 'b']
        (changedSpans [⟨(1, 4), (2, 4), by decide, by decide, rfl⟩]
          [⟨(1, 5), (2, 5), by decide, by decide, rfl⟩] [0])
        [⟨⟨⟨0, 0⟩, ⟨0, 5⟩⟩, ()⟩] = some [⟨⟨⟨0, 0⟩, ⟨0, 6⟩⟩, ()⟩] ∧
      changedUnits ['a', ' ', '{', '}', 'b'] [⟨(1, 4), (2, 4), by decide, by decide, rfl⟩]
        ['a', ' ', '{', '1', '}', 'b'] [⟨(1, 5), (2, 5), by decide, by decide, rfl⟩] =
          some [0] ∧
      Diagnostic.covered ['a', ' ', '{', '}', 'b'] ⟨⟨⟨0, 0⟩, ⟨0, 5⟩⟩, ()⟩ ≠
        Diagnostic.covered ['a', ' ', '{', '1', '}', 'b'] ⟨⟨⟨0, 0⟩, ⟨0, 6⟩⟩, ()⟩ := by
  refine ⟨by decide, by decide, by decide⟩

end PhpantomLsp.Diagnostics
