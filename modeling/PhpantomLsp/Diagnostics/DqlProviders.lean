import Mathlib.Logic.Function.Basic
import PhpantomLsp.Lib.Worklist

/-!
# The methods a query builder is handed on to

A call that hands a builder on reaches methods, and each of them declares DQL
variables, uses some, and hands the builder on in calls of its own, cycles
included.  `Providers::aliases` collects what is declared along the way, with a
stack of calls, and `Providers::open_uses` what is used and left to the callers
to declare, by a recursion that remembers its answers.
-/

namespace PhpantomLsp.Diagnostics.Dql

open PhpantomLsp.Lib
open PhpantomLsp.Lib.Worklist (successors Lists potential potential_push exits)

universe u v

/-- `DqlBuilderMethod`: what a method does with a builder.  The calls it hands it
on with stand with the file they are in. -/
structure BuilderMethod (κ : Type u) (α : Type v) where
  aliases : List α
  uses : List α
  requires : List κ

/-- The methods each call reaches: `none` for a call whose methods cannot be
found, and in it `none` for a method that is not known to declare only what its
body spells. -/
structure Providers (κ : Type u) (α : Type v) where
  calls : List κ
  targets : κ → Option (List (Option (BuilderMethod κ α)))
  finite : ∀ k, (targets k).isSome = true → k ∈ calls

variable {κ : Type u} {α : Type v}

/-- All the methods, where each of them is known. -/
def allKnown : List (Option (BuilderMethod κ α)) → Option (List (BuilderMethod κ α))
  | [] => some []
  | none :: _ => none
  | some m :: rest => (allKnown rest).map (m :: ·)

theorem allKnown_eq_some_iff {methods : List (Option (BuilderMethod κ α))}
    {known : List (BuilderMethod κ α)} : allKnown methods = some known ↔ methods = known.map some := by
  induction methods generalizing known with
  | nil => cases known <;> simp [allKnown]
  | cons m rest ih =>
      cases m with
      | none => cases known <;> simp [allKnown]
      | some m =>
          cases known with
          | nil => simp [allKnown]
          | cons m' known => simp [allKnown, ih, and_comm]

namespace Providers

section Aliases

variable (p : Providers κ α)

/-- The methods a call reaches, if every one is known. -/
def known (k : κ) : Option (List (BuilderMethod κ α)) := (p.targets k).bind allKnown

theorem targets_of_known {k : κ} {methods : List (BuilderMethod κ α)}
    (h : p.known k = some methods) : p.targets k = some (methods.map some) := by
  obtain ⟨targets, htargets, hall⟩ := Option.bind_eq_some_iff.mp h
  rw [htargets, allKnown_eq_some_iff.mp hall]

/-- The calls that are handed on to, the last of them first. -/
def graph : DepthFirst.Graph κ where
  keys := p.calls
  deps k := (p.known k).map fun methods => (methods.flatMap BuilderMethod.requires).reverse
  known k h := by
    apply p.finite
    cases htargets : p.targets k with
    | none => simp [known, htargets] at h
    | some targets => rfl

theorem successors_of_known {k : κ} {methods : List (BuilderMethod κ α)}
    (h : p.known k = some methods) :
    successors p.graph k = (methods.flatMap BuilderMethod.requires).reverse := by
  simp [successors, graph, h]

/-- A call hands the builder on to another. -/
def Reaches : κ → κ → Prop := Relation.ReflTransGen (Lists p.graph)

/-- Some method of the call declares the variable. -/
def Declares (k : κ) (x : α) : Prop :=
  ∃ methods, p.known k = some methods ∧ ∃ m ∈ methods, x ∈ m.aliases

/-- Every method the builder comes to is known. -/
def AllKnown (k : κ) : Prop := ∀ j, p.Reaches k j → ∃ methods, p.known j = some methods

variable [DecidableEq κ] [DecidableEq α]

/-- Add the variables that are not there yet. -/
def addNew (list : List α) (more : List α) : List α :=
  more.foldl (fun list a => if a ∈ list then list else list ++ [a]) list

/-- The loop of `aliases`; the stack has its top first. -/
def aliasesFrom (seen : List κ) (aliases : List α) : List κ → Option (List α)
  | [] => some aliases
  | k :: pending =>
      if _hseen : k ∈ seen then aliasesFrom seen aliases pending
      else
        match _h : p.known k with
        | none => none
        | some methods =>
            aliasesFrom (k :: seen) (methods.foldl (fun list m => addNew list m.aliases) aliases)
              ((methods.flatMap BuilderMethod.requires).reverse ++ pending)
termination_by pending => potential p.graph seen pending
decreasing_by
  · simp [potential]
  · rw [← p.successors_of_known _h]
    exact potential_push p.graph _hseen

def aliases (k : κ) : Option (List α) := p.aliasesFrom [] [] [k]

end Aliases

section Spec

variable {p : Providers κ α}

theorem mem_addNew [DecidableEq α] {list more : List α} {x : α} :
    x ∈ addNew list more ↔ x ∈ list ∨ x ∈ more := by
  induction more generalizing list with
  | nil => simp [addNew]
  | cons a more ih =>
      have hcons : addNew list (a :: more) = addNew (if a ∈ list then list else list ++ [a]) more :=
        rfl
      rw [hcons, ih, List.mem_cons]
      split
      · next ha =>
          constructor
          · rintro (h | h)
            · exact .inl h
            · exact .inr (.inr h)
          · rintro (h | rfl | h)
            · exact .inl h
            · exact .inl ha
            · exact .inr h
      · rw [List.mem_append, List.mem_singleton, or_assoc]

theorem mem_foldl_addNew [DecidableEq α] {methods : List (BuilderMethod κ α)} {list : List α}
    {x : α} : x ∈ methods.foldl (fun list m => addNew list m.aliases) list ↔
      x ∈ list ∨ ∃ m ∈ methods, x ∈ m.aliases := by
  induction methods generalizing list with
  | nil => simp
  | cons m methods ih => rw [List.foldl_cons, ih, mem_addNew]; simp [or_assoc]

variable [DecidableEq κ] [DecidableEq α]

/-- The answer of the loop: every variable declared on the way from the stack,
or nothing if a method is not known. -/
def Collects (p : Providers κ α) (aliases : List α) (pending : List κ) : Option (List α) → Prop
  | none => ¬ ∀ a ∈ pending, p.AllKnown a
  | some found => (∀ a ∈ pending, p.AllKnown a) ∧
      ∀ x, x ∈ found ↔ x ∈ aliases ∨ ∃ a ∈ pending, ∃ j, p.Reaches a j ∧ p.Declares j x

omit [DecidableEq κ] [DecidableEq α] in
/-- Two states of the loop with the same way to go have the same answers. -/
theorem Collects.congr {aliases aliases' : List α} {pending pending' : List κ}
    {result : Option (List α)} (h : p.Collects aliases pending result)
    (hall : (∀ a ∈ pending, p.AllKnown a) ↔ ∀ a ∈ pending', p.AllKnown a)
    (hiff : ∀ x, (x ∈ aliases ∨ ∃ a ∈ pending, ∃ j, p.Reaches a j ∧ p.Declares j x) ↔
      (x ∈ aliases' ∨ ∃ a ∈ pending', ∃ j, p.Reaches a j ∧ p.Declares j x)) :
    p.Collects aliases' pending' result := by
  cases result with
  | none => exact fun h' => h (hall.mpr h')
  | some found => exact ⟨hall.mp h.1, fun x => (h.2 x).trans (hiff x)⟩

/-- By induction on the loop: whatever has been seen is known, has its variables
among the aliases, and leads nowhere but to the stack. -/
theorem collects_aliasesFrom {seen : List κ} {aliases : List α} {pending : List κ}
    (hclosed : ∀ b ∈ seen, ∀ c, Lists p.graph b c → c ∈ seen ∨ c ∈ pending)
    (hseen : ∀ b ∈ seen, (∃ methods, p.known b = some methods) ∧
      ∀ x, p.Declares b x → x ∈ aliases) :
    p.Collects aliases pending (p.aliasesFrom seen aliases pending) := by
  induction seen, aliases, pending using aliasesFrom.induct p with
  | case1 seen aliases => simp [aliasesFrom, Collects]
  | case2 seen aliases k pending hmem ih =>
      have hclosed' : ∀ b ∈ seen, ∀ c, Lists p.graph b c → c ∈ seen ∨ c ∈ pending := by
        intro b hb c hc
        rcases hclosed b hb c hc with h | h
        · exact .inl h
        · rcases List.mem_cons.mp h with rfl | h
          · exact .inl hmem
          · exact .inr h
      -- a call seen before leads to calls seen before and to the rest of the stack
      have hleads : ∀ j, p.Reaches k j → j ∈ seen ∨ ∃ a ∈ pending, p.Reaches a j := by
        intro j hj
        by_cases hin : j ∈ seen
        · exact .inl hin
        · exact .inr (exits hclosed' hin hmem hj)
      rw [aliasesFrom, dif_pos hmem]
      apply (ih hclosed' hseen).congr
      · constructor
        · intro hall a ha j hj
          rcases List.mem_cons.mp ha with rfl | ha
          · rcases hleads j hj with hin | ⟨b, hb, hbj⟩
            · exact (hseen j hin).1
            · exact hall b hb j hbj
          · exact hall a ha j hj
        · exact fun hall a ha => hall a (List.mem_cons_of_mem _ ha)
      · intro x
        constructor
        · rintro (hx | ⟨a, ha, hx⟩)
          · exact .inl hx
          · exact .inr ⟨a, List.mem_cons_of_mem _ ha, hx⟩
        · rintro (hx | ⟨a, ha, j, hj, hx⟩)
          · exact .inl hx
          · rcases List.mem_cons.mp ha with rfl | ha
            · rcases hleads j hj with hin | ⟨b, hb, hbj⟩
              · exact .inl ((hseen j hin).2 x hx)
              · exact .inr ⟨b, hb, j, hbj, hx⟩
            · exact .inr ⟨a, ha, j, hj, hx⟩
  | case3 seen aliases k pending hmem hnone =>
      rw [aliasesFrom, dif_neg hmem]
      split
      · intro hall
        obtain ⟨methods, hmethods⟩ := hall k (List.mem_cons_self ..) k .refl
        rw [hnone] at hmethods
        cases hmethods
      · next methods hmethods =>
          rw [hnone] at hmethods
          cases hmethods
  | case4 seen aliases k pending hmem methods hknown ih =>
      have hedge : ∀ c, Lists p.graph k c ↔ c ∈ (methods.flatMap BuilderMethod.requires).reverse := by
        intro c
        rw [Lib.Worklist.Lists, successors_of_known p hknown]
      have hdeclares : ∀ x, p.Declares k x ↔ ∃ m ∈ methods, x ∈ m.aliases := by
        intro x
        simp [Declares, hknown]
      have hclosed' : ∀ b ∈ k :: seen, ∀ c, Lists p.graph b c → c ∈ k :: seen ∨
          c ∈ (methods.flatMap BuilderMethod.requires).reverse ++ pending := by
        intro b hb c hc
        rcases List.mem_cons.mp hb with rfl | hb
        · exact .inr (List.mem_append_left _ ((hedge c).mp hc))
        · rcases hclosed b hb c hc with h | h
          · exact .inl (List.mem_cons_of_mem _ h)
          · rcases List.mem_cons.mp h with rfl | h
            · exact .inl (List.mem_cons_self ..)
            · exact .inr (List.mem_append_right _ h)
      have hseen' : ∀ b ∈ k :: seen, (∃ methods, p.known b = some methods) ∧ ∀ x, p.Declares b x →
          x ∈ methods.foldl (fun list m => addNew list m.aliases) aliases := by
        intro b hb
        rcases List.mem_cons.mp hb with rfl | hb
        · exact ⟨⟨methods, hknown⟩, fun x hx => mem_foldl_addNew.mpr (.inr ((hdeclares x).mp hx))⟩
        · exact ⟨(hseen b hb).1, fun x hx => mem_foldl_addNew.mpr (.inl ((hseen b hb).2 x hx))⟩
      have hstep : p.aliasesFrom seen aliases (k :: pending) = p.aliasesFrom (k :: seen)
          (methods.foldl (fun list m => addNew list m.aliases) aliases)
          ((methods.flatMap BuilderMethod.requires).reverse ++ pending) := by
        rw [aliasesFrom, dif_neg hmem]
        split
        · next hnone => rw [hknown] at hnone; cases hnone
        · next methods' hmethods => rw [hknown] at hmethods; cases hmethods; rfl
      rw [hstep]
      apply (ih hclosed' hseen').congr
      · constructor
        · intro hall a ha
          rcases List.mem_cons.mp ha with rfl | ha
          · intro j hj
            rcases Relation.ReflTransGen.cases_head hj with rfl | ⟨c, hc, hrest⟩
            · exact ⟨methods, hknown⟩
            · exact hall c (List.mem_append_left _ ((hedge c).mp hc)) j hrest
          · exact hall a (List.mem_append_right _ ha)
        · intro hall a ha
          rcases List.mem_append.mp ha with ha | ha
          · exact fun j hj => hall k (List.mem_cons_self ..) j (.head ((hedge a).mpr ha) hj)
          · exact hall a (List.mem_cons_of_mem _ ha)
      · intro x
        rw [mem_foldl_addNew, ← hdeclares]
        constructor
        · rintro ((hx | hx) | ⟨a, ha, j, hj, hx⟩)
          · exact .inl hx
          · exact .inr ⟨k, List.mem_cons_self .., k, .refl, hx⟩
          · rcases List.mem_append.mp ha with ha | ha
            · exact .inr ⟨k, List.mem_cons_self .., j, .head ((hedge a).mpr ha) hj, hx⟩
            · exact .inr ⟨a, List.mem_cons_of_mem _ ha, j, hj, hx⟩
        · rintro (hx | ⟨a, ha, j, hj, hx⟩)
          · exact .inl (.inl hx)
          · rcases List.mem_cons.mp ha with rfl | ha
            · rcases Relation.ReflTransGen.cases_head hj with rfl | ⟨c, hc, hrest⟩
              · exact .inl (.inr hx)
              · exact .inr ⟨c, List.mem_append_left _ ((hedge c).mp hc), j, hrest, hx⟩
            · exact .inr ⟨a, List.mem_append_right _ ha, j, hj, hx⟩

/-- The methods a call reaches, and those they hand the builder on to, declare a
variable. -/
def DeclaresDeep (p : Providers κ α) (k : κ) (x : α) : Prop :=
  ∃ j, p.Reaches k j ∧ p.Declares j x

/-- `aliases` answers what is declared along the way, where all of it is known. -/
theorem aliases_eq_none_iff {k : κ} : p.aliases k = none ↔ ¬ p.AllKnown k := by
  have h := @collects_aliasesFrom κ α p _ _ [] [] [k] (by simp)
    (by simp)
  rw [aliases]
  cases hres : p.aliasesFrom [] [] [k] with
  | none => rw [hres] at h; simpa [Collects] using h
  | some found => rw [hres] at h; simpa using h.1 k (List.mem_singleton_self k)

theorem mem_aliases {k : κ} {found : List α} (h : p.aliases k = some found) {x : α} :
    x ∈ found ↔ p.DeclaresDeep k x := by
  have hc := @collects_aliasesFrom κ α p _ _ [] [] [k] (by simp)
    (by simp)
  rw [aliases] at h
  rw [h] at hc
  simpa [DeclaresDeep] using hc.2 x

end Spec

end Providers

end PhpantomLsp.Diagnostics.Dql
