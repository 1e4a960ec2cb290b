import Mathlib.Data.List.Chain
import Mathlib.Data.List.Forall2

/-!
# Anchored texts

A target text is written against a source text, and anchors `(s, t)` record which
source column a target column stands for.  Two anchors are sound when neither
column goes back and, where both are equally far apart, every unit of the target
between them keeps the unit of the source it stands against, up to a relation
`R`.  Anchors that are sound so far stay so when the target grows, and each way
to write more of it comes with the anchor it needs.
-/

namespace PhpantomLsp.Lib

universe u v

variable {α : Type u} {β : Type v}

/-- The units from `start` up to `stop`. -/
def stretch (xs : List α) (start stop : Nat) : List α := (xs.drop start).take (stop - start)

theorem stretch_self (xs : List α) (start : Nat) : stretch xs start start = [] := by
  rw [stretch, Nat.sub_self, List.take_zero]

theorem stretch_append_left {xs : List α} {start stop : Nat} (h : stop ≤ xs.length) (more : List α) :
    stretch (xs ++ more) start stop = stretch xs start stop := by
  rw [stretch, stretch]
  by_cases hstart : start ≤ xs.length
  · rw [List.drop_append_of_le_length hstart, List.take_append_of_le_length]
    rw [List.length_drop]
    omega
  · rw [Nat.sub_eq_zero_of_le (by omega), List.take_zero, List.take_zero]

theorem stretch_append_middle (before text after : List α) :
    stretch (before ++ text ++ after) before.length (before.length + text.length) = text := by
  rw [stretch, List.append_assoc, List.drop_left, Nat.add_sub_cancel_left, List.take_left]

/-- Nothing between two anchors is out of place. -/
structure Sound (R : β → α → Prop) (source : List α) (target : List β) (x y : Nat × Nat) : Prop where
  source_le : x.1 ≤ y.1
  target_le : x.2 ≤ y.2
  source_in : y.1 ≤ source.length
  target_in : y.2 ≤ target.length
  kept : y.1 - x.1 = y.2 - x.2 → List.Forall₂ R (stretch target x.2 y.2) (stretch source x.1 y.1)

variable {R : β → α → Prop} {source : List α} {target : List β} {anchors : List (Nat × Nat)}
  {column : Nat}

theorem Sound.append {x y : Nat × Nat} (h : Sound R source target x y) (more : List β) :
    Sound R source (target ++ more) x y := by
  refine ⟨h.source_le, h.target_le, h.source_in, ?_, ?_⟩
  · rw [List.length_append]
    exact Nat.le_add_right_of_le h.target_in
  · rw [stretch_append_left h.target_in]
    exact h.kept

/-- Two anchors with no width on one side. -/
theorem sound_of_empty {x y : Nat × Nat} (hsource : x.1 ≤ y.1) (htarget : x.2 ≤ y.2)
    (hsourceIn : y.1 ≤ source.length) (htargetIn : y.2 ≤ target.length)
    (hempty : x.1 = y.1 ∨ x.2 = y.2) : Sound R source target x y := by
  refine ⟨hsource, htarget, hsourceIn, htargetIn, ?_⟩
  intro hwidth
  have hboth : x.1 = y.1 ∧ x.2 = y.2 := by
    omega
  rw [hboth.1, hboth.2, stretch_self, stretch_self]
  exact List.Forall₂.nil

/-- The anchors are sound and the last stands at `column`, against the end of the target. -/
structure Anchored (R : β → α → Prop) (source : List α) (target : List β)
    (anchors : List (Nat × Nat)) (column : Nat) : Prop where
  chain : anchors.IsChain (Sound R source target)
  last : anchors.getLast? = some (column, target.length)
  inside : column ≤ source.length

theorem anchored_start (R : β → α → Prop) (source : List α) :
    Anchored R source [] [(0, 0)] 0 :=
  ⟨List.isChain_singleton _, rfl, Nat.zero_le _⟩

/-- One more anchor at the end of a target that may have grown. -/
theorem Anchored.extend (h : Anchored R source target anchors column) {more : List β} {next : Nat}
    (hin : next ≤ source.length)
    (hsound : Sound R source (target ++ more) (column, target.length)
      (next, (target ++ more).length)) :
    Anchored R source (target ++ more) (anchors ++ [(next, (target ++ more).length)]) next := by
  refine ⟨?_, List.getLast?_concat, hin⟩
  apply List.IsChain.append
  · exact h.chain.imp fun _ _ hxy => hxy.append more
  · exact List.isChain_singleton _
  · intro x hx y hy
    rw [h.last] at hx
    cases hx
    cases hy
    exact hsound

/-- The source is passed over. -/
theorem Anchored.anchor (h : Anchored R source target anchors column) {next : Nat}
    (hle : column ≤ next) (hin : next ≤ source.length) :
    Anchored R source target (anchors ++ [(next, target.length)]) next := by
  have hextend := @Anchored.extend _ _ _ _ _ _ _ h [] _ hin
  rw [List.append_nil] at hextend
  exact hextend (sound_of_empty hle (Nat.le_refl _) hin (Nat.le_refl _) (Or.inr rfl))

/-- Text of the target alone. -/
theorem Anchored.emit (h : Anchored R source target anchors column) (text : List β) :
    Anchored R source (target ++ text) (anchors ++ [(column, (target ++ text).length)]) column := by
  apply h.extend h.inside
  refine sound_of_empty (Nat.le_refl column) ?_ h.inside (Nat.le_refl _) (Or.inl rfl)
  show target.length ≤ (target ++ text).length
  rw [List.length_append]
  exact Nat.le_add_right _ _

/-- Text that keeps what the source holds from `column` on. -/
theorem Anchored.copy (h : Anchored R source target anchors column) {text : List β}
    (hin : column + text.length ≤ source.length)
    (hkept : List.Forall₂ R text (stretch source column (column + text.length))) :
    Anchored R source (target ++ text)
      (anchors ++ [(column + text.length, (target ++ text).length)]) (column + text.length) := by
  apply h.extend hin
  refine ⟨Nat.le_add_right _ _, ?_, hin, Nat.le_refl _, ?_⟩
  · rw [List.length_append]
    exact Nat.le_add_right _ _
  · intro _
    have htext := stretch_append_middle target text []
    rw [List.append_nil] at htext
    rw [List.length_append, htext]
    exact hkept

end PhpantomLsp.Lib
