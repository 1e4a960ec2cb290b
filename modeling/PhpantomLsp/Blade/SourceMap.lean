import PhpantomLsp.Text.Positions

/-!
# Positions through the source map

A line of a template has anchors that pair a template column with the column of
the virtual PHP it stands for.  A position is moved along the segment it lies in,
one column for one column and never past where the segment ends on the other side.
Both directions are one walk with the sides swapped (`walked`); what is proved of
the walk is what holds of both.  Columns are numbers without the source's `u32`
bound, which no column of the protocol reaches (`LineAnchors.walked_fits`).
-/

namespace PhpantomLsp.Blade

open Text

/-! ## The two directions -/

structure BladeSourceMap where
  adjustments : List (List (Nat × Nat))
  prologueLines : Nat

/-- Which side of an anchor pair a lookup compares against. -/
inductive AnchorSide where
  | blade
  | php
  deriving DecidableEq

/-- The column an anchor has on a side. -/
def AnchorSide.column : AnchorSide → Nat × Nat → Nat
  | .blade, anchor => anchor.1
  | .php, anchor => anchor.2

/-- The loop of `anchor_at`. -/
def anchorFrom (character : Nat) (side : AnchorSide) (best : Nat × Nat × Nat) (i : Nat) :
    List (Nat × Nat) → Nat × Nat × Nat
  | [] => best
  | (blade, php) :: rest =>
      if character < side.column (blade, php) then best
      else anchorFrom character side (i, blade, php) (i + 1) rest

/-- `anchor_at`: the last anchor at or before `character`. -/
def anchorAt (lineAdj : List (Nat × Nat)) (character : Nat) (side : AnchorSide) :
    Nat × Nat × Nat :=
  anchorFrom character side (0, 0, 0) 0 lineAdj

namespace BladeSourceMap

def bladeToPhp (map : BladeSourceMap) (pos : Position) : Position :=
  let virtualLine := pos.line + map.prologueLines
  match map.adjustments[pos.line]? with
  | none => ⟨virtualLine, pos.character⟩
  | some lineAdj =>
      if lineAdj = [] then ⟨virtualLine, pos.character⟩
      else
        let (bestIdx, bestB, bestP) := anchorAt lineAdj pos.character .blade
        let charOffset := pos.character - bestB
        let charOffset :=
          match lineAdj[bestIdx + 1]? with
          | some (_, nextP) => min charOffset (nextP - bestP)
          | none => charOffset
        ⟨virtualLine, bestP + charOffset⟩

def tryPhpToBlade (map : BladeSourceMap) (pos : Position) : Option Position :=
  if pos.line < map.prologueLines then none
  else
    let line := pos.line - map.prologueLines
    match map.adjustments[line]? with
    | none => some ⟨line, pos.character⟩
    | some lineAdj =>
        if lineAdj = [] then some ⟨line, pos.character⟩
        else
          let (bestIdx, bestB, bestP) := anchorAt lineAdj pos.character .php
          let charOffset := pos.character - bestP
          match lineAdj[bestIdx + 1]? with
          | none => some ⟨line, bestB + charOffset⟩
          | some (nextB, nextP) =>
              let maxBOffset := nextB - bestB
              let maxPOffset := nextP - bestP
              if maxPOffset = 0 then some ⟨line, bestB⟩
              else if maxBOffset = 0 then some ⟨line, bestB⟩
              else if maxBOffset < charOffset then some ⟨line, bestB + maxBOffset⟩
              else some ⟨line, bestB + charOffset⟩

end BladeSourceMap

/-! ## The anchors of a line -/

/-- Anchors that start at the start of the line and go back on neither side. -/
structure LineAnchors (lineAdj : List (Nat × Nat)) : Prop where
  start : lineAdj.head? = some (0, 0)
  sorted : lineAdj.Pairwise fun a b => a.1 ≤ b.1 ∧ a.2 ≤ b.2

/-- The anchor `i` is the last one at or before a column. -/
structure LastAt (lineAdj : List (Nat × Nat)) (side : AnchorSide) (character i : Nat)
    (anchor : Nat × Nat) : Prop where
  get : lineAdj[i]? = some anchor
  le : side.column anchor ≤ character
  past : ∀ j next, i < j → lineAdj[j]? = some next → character < side.column next

variable {lineAdj : List (Nat × Nat)} {side : AnchorSide}

theorem LineAnchors.column_le (h : LineAnchors lineAdj) (side : AnchorSide) {i j : Nat}
    {a b : Nat × Nat} (hij : i ≤ j) (ha : lineAdj[i]? = some a) (hb : lineAdj[j]? = some b) :
    side.column a ≤ side.column b := by
  rcases Nat.eq_or_lt_of_le hij with heq | hlt
  · rw [heq, hb] at ha
    rw [Option.some.inj ha]
  · have ⟨hi, hai⟩ := List.getElem?_eq_some_iff.mp ha
    have ⟨hj, hbj⟩ := List.getElem?_eq_some_iff.mp hb
    have hpair := List.pairwise_iff_getElem.mp h.sorted i j hi hj hlt
    rw [hai, hbj] at hpair
    cases side with
    | blade => exact hpair.1
    | php => exact hpair.2

/-- What the loop has seen is at or before the column, and the last of it is the best. -/
theorem anchorFrom_spec (h : LineAnchors lineAdj) (character : Nat) {i : Nat} {best : Nat × Nat}
    (hbest : lineAdj[i]? = some best) (hle : side.column best ≤ character) :
    ∃ last anchor, anchorFrom character side (i, best) (i + 1) (lineAdj.drop (i + 1)) =
      (last, anchor) ∧ LastAt lineAdj side character last anchor := by
  cases hrest : lineAdj.drop (i + 1) with
  | nil =>
      refine ⟨i, best, rfl, hbest, hle, ?_⟩
      intro j next hij hnext
      have hlen := List.drop_eq_nil_iff.mp hrest
      rw [List.getElem?_eq_none (by omega)] at hnext
      exact absurd hnext (by simp)
  | cons anchor rest =>
      have hget : lineAdj[i + 1]? = some anchor := by
        rw [← List.head?_drop, hrest]
        rfl
      have hdrop : lineAdj.drop (i + 1 + 1) = rest := by
        rw [← List.drop_drop, hrest]
        rfl
      obtain ⟨blade, php⟩ := anchor
      rw [anchorFrom]
      by_cases hlt : character < side.column (blade, php)
      · rw [if_pos hlt]
        refine ⟨i, best, rfl, hbest, hle, ?_⟩
        intro j next hij hnext
        exact Nat.lt_of_lt_of_le hlt (h.column_le side hij hget hnext)
      · rw [if_neg hlt, ← hdrop]
        exact anchorFrom_spec h character hget (Nat.le_of_not_lt hlt)
termination_by lineAdj.length - i
decreasing_by
  have hlt := (List.getElem?_eq_some_iff.mp hget).1
  omega

theorem anchorAt_spec (h : LineAnchors lineAdj) (character : Nat) (side : AnchorSide) :
    ∃ last anchor, anchorAt lineAdj character side = (last, anchor) ∧
      LastAt lineAdj side character last anchor := by
  have hstart := h.start
  cases hall : lineAdj with
  | nil =>
      rw [hall] at hstart
      exact absurd hstart (by simp)
  | cons first rest =>
      rw [hall, List.head?_cons, Option.some.injEq] at hstart
      have hget : lineAdj[0]? = some (0, 0) := by
        rw [hall, hstart]
        rfl
      have hzero : side.column (0, 0) ≤ character := by
        cases side <;> exact Nat.zero_le _
      have hspec := anchorFrom_spec h character hget hzero
      rw [hall, hstart] at hspec
      rw [anchorAt, hstart, anchorFrom, if_neg (Nat.not_lt.mpr hzero)]
      exact hspec

/-- There is one last anchor. -/
theorem LastAt.unique {character i j : Nat} {a b : Nat × Nat}
    (ha : LastAt lineAdj side character i a) (hb : LastAt lineAdj side character j b) :
    i = j ∧ a = b := by
  have hij : i = j := by
    rcases Nat.lt_trichotomy i j with hlt | heq | hlt
    · exact absurd hb.le (Nat.not_le.mpr (ha.past j b hlt hb.get))
    · exact heq
    · exact absurd ha.le (Nat.not_le.mpr (hb.past i a hlt ha.get))
  refine ⟨hij, ?_⟩
  have hget := ha.get
  rw [hij, hb.get] at hget
  exact (Option.some.inj hget).symm

/-! ## The walk along a segment -/

def AnchorSide.other : AnchorSide → AnchorSide
  | .blade => .php
  | .php => .blade

/-- Where a column of one side is on the other. -/
def walked (lineAdj : List (Nat × Nat)) (side : AnchorSide) (character : Nat) : Nat :=
  let (last, anchor) := anchorAt lineAdj character side
  side.other.column anchor +
    match lineAdj[last + 1]? with
    | some next =>
        min (character - side.column anchor) (side.other.column next - side.other.column anchor)
    | none => character - side.column anchor

/-- A column of the segment `i`: at or behind its anchor, and before the next one. -/
def InSegment (lineAdj : List (Nat × Nat)) (side : AnchorSide) (i character : Nat) : Prop :=
  ∃ anchor, lineAdj[i]? = some anchor ∧ side.column anchor ≤ character ∧
    ∀ next, lineAdj[i + 1]? = some next → character < side.column next

/-- As wide on one side as on the other; the last segment has no end. -/
def EqualWidth (lineAdj : List (Nat × Nat)) (i : Nat) : Prop :=
  ∀ anchor next, lineAdj[i]? = some anchor → lineAdj[i + 1]? = some next →
    next.1 - anchor.1 = next.2 - anchor.2

theorem AnchorSide.other_other (side : AnchorSide) : side.other.other = side := by
  cases side <;> rfl

theorem LineAnchors.lastAt (h : LineAnchors lineAdj) {character i : Nat} {anchor : Nat × Nat}
    (hget : lineAdj[i]? = some anchor) (hle : side.column anchor ≤ character)
    (hnext : ∀ next, lineAdj[i + 1]? = some next → character < side.column next) :
    LastAt lineAdj side character i anchor where
  get := hget
  le := hle
  past := by
    intro j later hij hlater
    have hj := (List.getElem?_eq_some_iff.mp hlater).1
    have hsucc : i + 1 < lineAdj.length := by omega
    have hstop := List.getElem?_eq_getElem hsucc
    exact Nat.lt_of_lt_of_le (hnext _ hstop) (h.column_le side hij hstop hlater)

theorem LineAnchors.walked_eq (h : LineAnchors lineAdj) {character i : Nat} {anchor : Nat × Nat}
    (hlast : LastAt lineAdj side character i anchor) :
    walked lineAdj side character = side.other.column anchor +
      match lineAdj[i + 1]? with
      | some next =>
          min (character - side.column anchor) (side.other.column next - side.other.column anchor)
      | none => character - side.column anchor := by
  have ⟨last, found, hfound, hspec⟩ := anchorAt_spec h character side
  have ⟨hi, ha⟩ := hspec.unique hlast
  rw [walked, hfound, hi, ha]

/-- A column is never moved past where its segment ends. -/
theorem LineAnchors.walked_le (h : LineAnchors lineAdj) {character i : Nat}
    {anchor next : Nat × Nat} (hlast : LastAt lineAdj side character i anchor) (hnext : lineAdj[i + 1]? = some next) :
    walked lineAdj side character ≤ side.other.column next := by
  have hsorted := h.column_le side.other (Nat.le_succ i) hlast.get hnext
  rw [h.walked_eq hlast, hnext]
  show _ + min _ _ ≤ _
  omega

theorem LineAnchors.le_walked (h : LineAnchors lineAdj) {character i : Nat} {anchor : Nat × Nat}
    (hlast : LastAt lineAdj side character i anchor) :
    side.other.column anchor ≤ walked lineAdj side character := by
  rw [h.walked_eq hlast]
  exact Nat.le_add_right _ _

theorem LineAnchors.walked_mono (h : LineAnchors lineAdj) (side : AnchorSide) {c c' : Nat}
    (hle : c ≤ c') : walked lineAdj side c ≤ walked lineAdj side c' := by
  have ⟨i, a, _, ha⟩ := anchorAt_spec h c side
  have ⟨j, b, _, hb⟩ := anchorAt_spec h c' side
  have hij : i ≤ j := by
    by_contra hlt
    have hpast := hb.past i a (Nat.lt_of_not_le hlt) ha.get
    have hstart := ha.le
    omega
  rcases Nat.eq_or_lt_of_le hij with heq | hlt
  · -- one segment
    have hab : a = b := by
      have hget := ha.get
      rw [heq, hb.get] at hget
      exact (Option.some.inj hget).symm
    rw [h.walked_eq ha, h.walked_eq hb, heq, hab]
    cases lineAdj[j + 1]? with
    | none => exact Nat.add_le_add_left (Nat.sub_le_sub_right hle _) _
    | some next =>
        show _ + min _ _ ≤ _ + min _ _
        omega
  · -- the first one ends at or before the second one starts
    have hj := (List.getElem?_eq_some_iff.mp hb.get).1
    have hsucc : i + 1 < lineAdj.length := by omega
    have hnext := List.getElem?_eq_getElem hsucc
    calc walked lineAdj side c ≤ side.other.column lineAdj[i + 1] := h.walked_le ha hnext
      _ ≤ side.other.column b := h.column_le side.other hlt hnext hb.get
      _ ≤ walked lineAdj side c' := h.le_walked hb

/-- In a segment as wide on both sides, a column goes to the other side and back. -/
theorem LineAnchors.walked_walked (h : LineAnchors lineAdj) {i c : Nat}
    (hwidth : EqualWidth lineAdj i) (hin : InSegment lineAdj side i c) :
    InSegment lineAdj side.other i (walked lineAdj side c) ∧
      walked lineAdj side.other (walked lineAdj side c) = c := by
  have ⟨anchor, hget, hle, hbefore⟩ := hin
  have hlast := h.lastAt hget hle hbefore
  cases hnext : lineAdj[i + 1]? with
  | none =>
      have hwalked : walked lineAdj side c =
          side.other.column anchor + (c - side.column anchor) := by
        rw [h.walked_eq hlast, hnext]
      have hback := @LineAnchors.lastAt _ side.other h (walked lineAdj side c) _ _ hget
        (h.le_walked hlast) (by rw [hnext]; exact fun _ hnone => absurd hnone (by simp))
      refine ⟨⟨anchor, hget, h.le_walked hlast, by rw [hnext]; simp⟩, ?_⟩
      rw [h.walked_eq hback, hnext, AnchorSide.other_other, hwalked]
      show side.column anchor + (_ - _) = c
      omega
  | some next =>
      have hsame : side.column next - side.column anchor =
          side.other.column next - side.other.column anchor := by
        have hequal := hwidth anchor next hget hnext
        cases side with
        | blade => exact hequal
        | php => exact hequal.symm
      have hlt := hbefore next hnext
      have hwalked : walked lineAdj side c =
          side.other.column anchor + (c - side.column anchor) := by
        rw [h.walked_eq hlast, hnext]
        show _ + min _ _ = _
        omega
      have hstop : walked lineAdj side c < side.other.column next := by
        rw [hwalked]
        omega
      have hinside : ∀ later, lineAdj[i + 1]? = some later →
          walked lineAdj side c < side.other.column later := by
        intro later hlater
        rw [hnext, Option.some.injEq] at hlater
        rw [← hlater]
        exact hstop
      have hback := h.lastAt hget (h.le_walked hlast) hinside
      refine ⟨⟨anchor, hget, h.le_walked hlast, hinside⟩, ?_⟩
      rw [h.walked_eq hback, hnext, AnchorSide.other_other, hwalked]
      show side.column anchor + min _ _ = c
      omega

/-- Columns below the protocol's bound are never added past the source's `u32`. -/
theorem LineAnchors.walked_fits (h : LineAnchors lineAdj) {c : Nat} (hc : c < 2 ^ 31)
    (hsmall : ∀ anchor ∈ lineAdj, side.other.column anchor < 2 ^ 31) :
    walked lineAdj side c < 2 ^ 32 := by
  have ⟨last, anchor, _, hlast⟩ := anchorAt_spec h c side
  have hanchor := hsmall anchor (List.mem_of_getElem? hlast.get)
  rw [h.walked_eq hlast]
  cases lineAdj[last + 1]? with
  | none =>
      show _ + (c - _) < _
      omega
  | some next =>
      show _ + min _ _ < _
      omega

/-! ## Positions on a line -/

theorem LineAnchors.ne_nil (h : LineAnchors lineAdj) : lineAdj ≠ [] := by
  intro hnil
  have hstart := h.start
  rw [hnil] at hstart
  exact absurd hstart (by simp)

section

variable {map : BladeSourceMap} {line : Nat}

theorem bladeToPhp_eq (hline : map.adjustments[line]? = some lineAdj) (h : LineAnchors lineAdj)
    (character : Nat) :
    map.bladeToPhp ⟨line, character⟩ =
      ⟨line + map.prologueLines, walked lineAdj .blade character⟩ := by
  have ⟨last, anchor, hfound, _⟩ := anchorAt_spec h character .blade
  obtain ⟨bestB, bestP⟩ := anchor
  rw [BladeSourceMap.bladeToPhp, walked]
  simp only [hline, h.ne_nil, if_false, hfound]
  cases lineAdj[last + 1]? <;> rfl

/-- The guards against a segment without a width answer as the cap does. -/
theorem tryPhpToBlade_eq (hline : map.adjustments[line]? = some lineAdj) (h : LineAnchors lineAdj)
    (character : Nat) :
    map.tryPhpToBlade ⟨line + map.prologueLines, character⟩ =
      some ⟨line, walked lineAdj .php character⟩ := by
  have ⟨last, anchor, hfound, hlast⟩ := anchorAt_spec h character .php
  obtain ⟨bestB, bestP⟩ := anchor
  rw [BladeSourceMap.tryPhpToBlade, walked]
  simp only [Nat.add_sub_cancel, hline, h.ne_nil, if_false, hfound,
    Nat.not_lt.mpr (Nat.le_add_left map.prologueLines line)]
  cases hnext : lineAdj[last + 1]? with
  | none => rfl
  | some next =>
      obtain ⟨nextB, nextP⟩ := next
      have hpast : character < nextP := hlast.past (last + 1) _ (Nat.lt_succ_self last) hnext
      have hle : bestP ≤ character := hlast.le
      have hwide : ¬ nextP - bestP = 0 := by omega
      show (if nextP - bestP = 0 then _ else _) =
        some (Position.mk line (bestB + min (character - bestP) (nextB - bestB)))
      rw [if_neg hwide]
      by_cases hnone : nextB - bestB = 0
      · rw [if_pos hnone, hnone, Nat.min_zero, Nat.add_zero]
      · rw [if_neg hnone]
        by_cases hcap : nextB - bestB < character - bestP
        · rw [if_pos hcap, Nat.min_eq_right (Nat.le_of_lt hcap)]
        · rw [if_neg hcap, Nat.min_eq_left (Nat.le_of_not_lt hcap)]

/-- **The two directions of the source map**, on a line whose anchors go back on
neither side: both are monotone, a position in a segment that is as wide on both
sides comes back to itself, from either side, and no position of a segment goes past
where the next one starts. -/
theorem positions_map (hline : map.adjustments[line]? = some lineAdj) (h : LineAnchors lineAdj) :
    (∀ c c', c ≤ c' →
      (map.bladeToPhp ⟨line, c⟩).line = (map.bladeToPhp ⟨line, c'⟩).line ∧
        (map.bladeToPhp ⟨line, c⟩).character ≤ (map.bladeToPhp ⟨line, c'⟩).character) ∧
    (∀ d d', d ≤ d' → ∃ e e',
      map.tryPhpToBlade ⟨line + map.prologueLines, d⟩ = some ⟨line, e⟩ ∧
        map.tryPhpToBlade ⟨line + map.prologueLines, d'⟩ = some ⟨line, e'⟩ ∧ e ≤ e') ∧
    (∀ i, EqualWidth lineAdj i →
      (∀ c, InSegment lineAdj .blade i c →
        map.tryPhpToBlade (map.bladeToPhp ⟨line, c⟩) = some ⟨line, c⟩) ∧
      ∀ d, InSegment lineAdj .php i d →
        (map.tryPhpToBlade ⟨line + map.prologueLines, d⟩).map map.bladeToPhp =
          some ⟨line + map.prologueLines, d⟩) ∧
    ∀ i next, lineAdj[i + 1]? = some next →
      (∀ c, InSegment lineAdj .blade i c → (map.bladeToPhp ⟨line, c⟩).character ≤ next.2) ∧
      ∀ d, InSegment lineAdj .php i d →
        ∃ e, map.tryPhpToBlade ⟨line + map.prologueLines, d⟩ = some ⟨line, e⟩ ∧ e ≤ next.1 := by
  refine ⟨?_, ?_, ?_, ?_⟩
  · intro c c' hle
    rw [bladeToPhp_eq hline h, bladeToPhp_eq hline h]
    exact ⟨rfl, h.walked_mono .blade hle⟩
  · intro d d' hle
    exact ⟨_, _, tryPhpToBlade_eq hline h d, tryPhpToBlade_eq hline h d', h.walked_mono .php hle⟩
  · intro i hwidth
    constructor
    · intro c hin
      rw [bladeToPhp_eq hline h, tryPhpToBlade_eq hline h]
      have hback := (h.walked_walked hwidth hin).2
      rw [show walked lineAdj .php (walked lineAdj .blade c) = c from hback]
    · intro d hin
      rw [tryPhpToBlade_eq hline h, Option.map_some, bladeToPhp_eq hline h]
      have hback := (h.walked_walked hwidth hin).2
      rw [show walked lineAdj .blade (walked lineAdj .php d) = d from hback]
  · intro i next hnext
    constructor
    · intro c hin
      have ⟨anchor, hget, hle, hbefore⟩ := hin
      rw [bladeToPhp_eq hline h]
      exact h.walked_le (h.lastAt hget hle hbefore) hnext
    · intro d hin
      have ⟨anchor, hget, hle, hbefore⟩ := hin
      refine ⟨walked lineAdj .php d, tryPhpToBlade_eq hline h d, ?_⟩
      exact h.walked_le (h.lastAt hget hle hbefore) hnext

/-- An echo of four columns that the PHP has as ten, then text as it stands. -/
theorem positions_map_echo :
    let map : BladeSourceMap := ⟨[[(0, 0), (3, 8), (20, 25), (24, 35)]], 3⟩
    map.adjustments[0]? = some [(0, 0), (3, 8), (20, 25), (24, 35)] ∧
      map.bladeToPhp ⟨0, 5⟩ = ⟨3, 10⟩ ∧ map.tryPhpToBlade ⟨3, 10⟩ = some ⟨0, 5⟩ := by
  intro map
  have hline : map.adjustments[0]? = some [(0, 0), (3, 8), (20, 25), (24, 35)] := rfl
  have hanchors : LineAnchors [(0, 0), (3, 8), (20, 25), (24, 35)] := ⟨rfl, by decide⟩
  have hwidth : EqualWidth [(0, 0), (3, 8), (20, 25), (24, 35)] 1 := by
    intro anchor next hget hnext
    rw [← Option.some.inj hget, ← Option.some.inj hnext]
    rfl
  have hin : InSegment [(0, 0), (3, 8), (20, 25), (24, 35)] .blade 1 5 := by
    refine ⟨(3, 8), rfl, by decide, ?_⟩
    intro next hnext
    rw [← Option.some.inj hnext]
    decide
  exact ⟨hline, rfl, ((positions_map hline hanchors).2.2.1 1 hwidth).1 5 hin⟩

end

end PhpantomLsp.Blade
