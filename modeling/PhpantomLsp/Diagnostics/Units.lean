import PhpantomLsp.Text.Revisions

/-!
# Which functions an edit touched

`changed_units` compares the functions and methods of a file with those of the
edited file, in order: the text between their bodies has to be the same, and
the units whose bodies differ are the changed ones.  When it answers, the two
texts are the same but for the bodies of these units
(`changedUnits_agreeBut`).
-/

namespace PhpantomLsp.Diagnostics

open PhpantomLsp.Text
open String (utf8Len utf8Len_append)

/-- A function or method with a body.  The span is the whole declaration, to
just past its closing brace; the body is from its opening brace on. -/
structure DiagnosticUnit where
  span : Nat × Nat
  body : Nat × Nat
  span_le_body : span.1 ≤ body.1
  body_nonempty : body.1 < body.2
  body_ends : body.2 = span.2

/-- The loop over the paired units, from the unit `index` on. -/
def changedFrom (old new : List Char) :
    List (DiagnosticUnit × DiagnosticUnit) → (index oldAt newAt : Nat) → Option (List Nat)
  | [], _, oldAt, newAt => do
      let oldRest ← getSlice old oldAt (utf8Len old)
      let newRest ← getSlice new newAt (utf8Len new)
      if oldRest = newRest then some [] else none
  | (oldUnit, newUnit) :: units, index, oldAt, newAt => do
      let oldBetween ← getSlice old oldAt oldUnit.body.1
      let newBetween ← getSlice new newAt newUnit.body.1
      if oldBetween ≠ newBetween then none
      else do
        let oldBody ← getSlice old oldUnit.body.1 oldUnit.body.2
        let newBody ← getSlice new newUnit.body.1 newUnit.body.2
        let changed ← changedFrom old new units (index + 1) oldUnit.body.2 newUnit.body.2
        some (if oldBody ≠ newBody then index :: changed else changed)

def changedUnits (old : List Char) (oldUnits : List DiagnosticUnit) (new : List Char)
    (newUnits : List DiagnosticUnit) : Option (List Nat) :=
  if oldUnits.length ≠ newUnits.length then none
  else changedFrom old new (oldUnits.zip newUnits) 0 0 0

/-! ## The texts of paired units -/

/-- The body of one unit in place of another's. -/
def bodyRevision (units : DiagnosticUnit × DiagnosticUnit) : Revision :=
  ⟨units.1.body.1, units.1.body.2,
    ((units.2.body.2 - units.2.body.1 : Nat) : Int) - (units.1.body.2 - units.1.body.1 : Nat)⟩

/-- What follows an offset, up to another. -/
theorem getSlice_of_append {xs ys zs : List Char} {stop : Nat}
    (h : getSlice (xs ++ ys) (utf8Len xs) stop = some zs) :
    ∃ after, ys = zs ++ after ∧ utf8Len xs + utf8Len zs = stop := by
  obtain ⟨before, after, hsplit, hbefore, hstop⟩ := getSlice_eq_some h
  obtain ⟨gap, hxs, hys⟩ := exists_append_of_utf8Len_le hsplit.symm (Nat.le_of_eq hbefore)
  have hgap : gap = [] := by
    rw [hxs, utf8Len_append] at hbefore
    exact String.utf8Len_eq_zero.mp (by omega)
  rw [hgap, List.nil_append] at hys
  exact ⟨after, hys.symm, by omega⟩

/-- The rest of a text. -/
theorem getSlice_rest {xs ys zs : List Char}
    (h : getSlice (xs ++ ys) (utf8Len xs) (utf8Len (xs ++ ys)) = some zs) : ys = zs := by
  obtain ⟨after, hys, hstop⟩ := getSlice_of_append h
  have hafter : after = [] := by
    rw [utf8Len_append, hys, utf8Len_append] at hstop
    exact String.utf8Len_eq_zero.mp (by omega)
  rw [hys, hafter, List.append_nil]

/-- One unit of the loop: the text before the body is the same in both, and the
index is kept when the bodies differ. -/
theorem changedFrom_cons {old new before before' oldRest newRest : List Char}
    {oldUnit newUnit : DiagnosticUnit} {units : List (DiagnosticUnit × DiagnosticUnit)}
    {index : Nat} {changed : List Nat} (hold : old = before ++ oldRest)
    (hnew : new = before' ++ newRest)
    (h : changedFrom old new ((oldUnit, newUnit) :: units) index (utf8Len before)
      (utf8Len before') = some changed) :
    ∃ between oldBody newBody oldAfter newAfter later,
      (oldRest = between ++ (oldBody ++ oldAfter) ∧
        utf8Len before + utf8Len between = oldUnit.body.1 ∧
        utf8Len before + utf8Len between + utf8Len oldBody = oldUnit.body.2) ∧
      (newRest = between ++ (newBody ++ newAfter) ∧
        utf8Len before' + utf8Len between = newUnit.body.1 ∧
        utf8Len before' + utf8Len between + utf8Len newBody = newUnit.body.2) ∧
      changedFrom old new units (index + 1) oldUnit.body.2 newUnit.body.2 = some later ∧
      changed = if oldBody ≠ newBody then index :: later else later := by
  simp only [changedFrom, Option.bind_eq_bind, Option.bind_eq_some_iff] at h
  obtain ⟨oldBetween, holdBetween, newBetween, hnewBetween, h⟩ := h
  by_cases hbetween : oldBetween = newBetween
  · subst hbetween
    rw [if_neg (by simp)] at h
    simp only [Option.bind_eq_some_iff] at h
    obtain ⟨oldBody, holdBody, newBody, hnewBody, later, hlater, hchanged⟩ := h
    rw [hold] at holdBetween
    rw [hnew] at hnewBetween
    obtain ⟨oldFrom, holdFrom, holdStart⟩ := getSlice_of_append holdBetween
    obtain ⟨newFrom, hnewFrom, hnewStart⟩ := getSlice_of_append hnewBetween
    rw [hold, holdFrom, ← List.append_assoc, ← holdStart, ← utf8Len_append] at holdBody
    rw [hnew, hnewFrom, ← List.append_assoc, ← hnewStart, ← utf8Len_append] at hnewBody
    obtain ⟨oldAfter, holdAfter, holdStop⟩ := getSlice_of_append holdBody
    obtain ⟨newAfter, hnewAfter, hnewStop⟩ := getSlice_of_append hnewBody
    rw [utf8Len_append] at holdStop hnewStop
    exact ⟨oldBetween, oldBody, newBody, oldAfter, newAfter, later,
      ⟨by rw [holdFrom, holdAfter], holdStart, holdStop⟩,
      ⟨by rw [hnewFrom, hnewAfter], hnewStart, hnewStop⟩, hlater,
      (Option.some.inj hchanged).symm⟩
  · rw [if_pos hbetween] at h
    exact absurd h (by simp)

/-- What the loop found: the changed units, each with its index, and that the
texts from here on are the same but for their bodies. -/
theorem changedFrom_agreeBut {old new : List Char}
    {all units : List (DiagnosticUnit × DiagnosticUnit)} {index : Nat}
    {before before' oldRest newRest : List Char} {changed : List Nat}
    (hunits : all.drop index = units) (hold : old = before ++ oldRest)
    (hnew : new = before' ++ newRest)
    (h : changedFrom old new units index (utf8Len before) (utf8Len before') = some changed) :
    ∃ found : List (Nat × DiagnosticUnit × DiagnosticUnit),
      changed = found.map Prod.fst ∧ (∀ p ∈ found, all[p.1]? = some p.2) ∧
        AgreeBut (utf8Len before) oldRest newRest (found.map fun p => bodyRevision p.2) := by
  induction units generalizing index before before' oldRest newRest changed with
  | nil =>
      simp only [changedFrom, Option.bind_eq_bind, Option.bind_eq_some_iff] at h
      obtain ⟨oldText, holdText, newText, hnewText, hsame⟩ := h
      rw [hold] at holdText
      rw [hnew] at hnewText
      rw [getSlice_rest holdText, getSlice_rest hnewText]
      by_cases heq : oldText = newText
      · rw [if_pos heq] at hsame
        refine ⟨[], (Option.some.inj hsame).symm, by simp, ?_⟩
        rw [heq]
        exact AgreeBut.same _ _
      · rw [if_neg heq] at hsame
        exact absurd hsame (by simp)
  | cons pair units ih =>
      obtain ⟨between, oldBody, newBody, oldAfter, newAfter, later,
        ⟨holdRest, holdStart, holdStop⟩, ⟨hnewRest, hnewStart, hnewStop⟩, hlater, hchanged⟩ :=
        @changedFrom_cons _ _ _ _ _ _ pair.1 pair.2 _ _ _ hold hnew h
      have hhead : all[index]? = some pair := by
        rw [← List.head?_drop, hunits]
        rfl
      have hrest : all.drop (index + 1) = units := by
        rw [← List.drop_drop, hunits]
        rfl
      have hlen : utf8Len (before ++ (between ++ oldBody)) = pair.1.body.2 := by
        rw [utf8Len_append, utf8Len_append, ← holdStop, Nat.add_assoc]
      have hlen' : utf8Len (before' ++ (between ++ newBody)) = pair.2.body.2 := by
        rw [utf8Len_append, utf8Len_append, ← hnewStop, Nat.add_assoc]
      rw [← hlen, ← hlen'] at hlater
      obtain ⟨found, hfound, hmem, hagree⟩ := @ih _ _ _ oldAfter newAfter _ hrest
        (by rw [hold, holdRest]; simp only [List.append_assoc])
        (by rw [hnew, hnewRest]; simp only [List.append_assoc]) hlater
      rw [utf8Len_append, utf8Len_append, ← Nat.add_assoc] at hagree
      by_cases hbody : oldBody = newBody
      · refine ⟨found, ?_, hmem, ?_⟩
        · rw [hchanged, if_neg (by simp [hbody]), hfound]
        · rw [holdRest, hnewRest, hbody]
          rw [hbody] at hagree
          exact (hagree.prepend newBody).prepend between
      · refine ⟨(index, pair) :: found, ?_, ?_, ?_⟩
        · rw [hchanged, if_pos hbody, hfound]
          rfl
        · intro p hp
          rcases List.mem_cons.mp hp with rfl | hp
          · exact hhead
          · exact hmem p hp
        · have hne : oldBody ≠ [] := by
            intro hnil
            have := pair.1.body_nonempty
            rw [hnil, String.utf8Len_nil] at holdStop
            omega
          have hrevision : bodyRevision pair =
              Revision.of (utf8Len before) between oldBody newBody := by
            rw [bodyRevision, Revision.of, ← holdStart, ← holdStop, ← hnewStart, ← hnewStop,
              Nat.add_sub_cancel_left, Nat.add_sub_cancel_left]
          rw [List.map_cons, holdRest, hnewRest]
          show AgreeBut _ _ _ (bodyRevision pair :: _)
          rw [hrevision]
          exact AgreeBut.revised hne hagree

/-- When `changed_units` answers, the texts are the same but for the bodies of
the units it names. -/
theorem changedUnits_agreeBut {old new : List Char} {oldUnits newUnits : List DiagnosticUnit}
    {changed : List Nat} (h : changedUnits old oldUnits new newUnits = some changed) :
    ∃ found : List (Nat × DiagnosticUnit × DiagnosticUnit),
      changed = found.map Prod.fst ∧
        (∀ p ∈ found, (oldUnits.zip newUnits)[p.1]? = some p.2) ∧
          AgreeBut 0 old new (found.map fun p => bodyRevision p.2) := by
  by_cases hlen : oldUnits.length = newUnits.length
  · rw [changedUnits, if_neg (by simp [hlen])] at h
    exact @changedFrom_agreeBut old new (oldUnits.zip newUnits) (oldUnits.zip newUnits) 0 [] [] old new
      changed rfl rfl rfl h
  · rw [changedUnits, if_pos hlen] at h
    exact absurd h (by simp)

end PhpantomLsp.Diagnostics
