import Mathlib.Data.List.Infix
import Mathlib.Data.List.Count

/-!
# Replacing a pattern in a list

Every occurrence of a pattern is replaced from left to right, none inside another.
What no pattern occurs in stays as it is; where one occurs, an item the patterns hold
more often than their replacements becomes rarer (`count_replaceAll_lt`).
-/

namespace PhpantomLsp.Lib.Replace

variable {α : Type*} [DecidableEq α]

/-- `str::replace` from inside a match of which `skip` items are left. -/
def replaceFrom (needle put : List α) : (skip : Nat) → List α → List α
  | _, [] => []
  | skip + 1, _ :: rest => replaceFrom needle put skip rest
  | 0, c :: rest =>
      if needle.isPrefixOf (c :: rest) then put ++ replaceFrom needle put (needle.length - 1) rest
      else c :: replaceFrom needle put 0 rest

/-- `str::replace`, for a pattern that is not empty. -/
def replace (needle put text : List α) : List α := replaceFrom needle put 0 text

/-- One replacement after the other, each where its pattern occurs. -/
def replaceAll (pairs : List (List α × List α)) (text : List α) : List α :=
  pairs.foldl (fun result pair =>
    if pair.1 <:+: result then replace pair.1 pair.2 result else result) text

/-- Some of the patterns occurs. -/
def Occurs (pairs : List (List α × List α)) (text : List α) : Prop :=
  ∃ pair ∈ pairs, pair.1 <:+: text

theorem replaceAll_of_not_occurs {pairs : List (List α × List α)} {text : List α}
    (h : ¬ Occurs pairs text) : replaceAll pairs text = text := by
  induction pairs with
  | nil => rfl
  | cons pair pairs ih =>
      have hfirst : ¬ pair.1 <:+: text := fun hp => h ⟨pair, List.mem_cons_self, hp⟩
      rw [replaceAll, List.foldl_cons, if_neg hfirst]
      exact ih fun ⟨p, hp, hin⟩ => h ⟨p, List.mem_cons_of_mem _ hp, hin⟩

/-! ## What a replacement does to the items -/

theorem count_replaceFrom_le {needle put : List α} {c : α}
    (hcount : put.count c ≤ needle.count c) (skip : Nat) (text : List α) :
    (replaceFrom needle put skip text).count c ≤ (text.drop skip).count c := by
  induction text generalizing skip with
  | nil => simp [replaceFrom]
  | cons d rest ih =>
      cases skip with
      | succ skip => exact ih skip
      | zero =>
          rw [replaceFrom]
          split
          · next hprefix =>
              obtain ⟨after, hafter⟩ := List.isPrefixOf_iff_prefix.mp hprefix
              have hrest := ih (needle.length - 1)
              have hdrop : (rest.drop (needle.length - 1)).count c ≤ after.count c := by
                cases needle with
                | nil =>
                    rw [List.nil_append] at hafter
                    rw [hafter]
                    exact (List.drop_sublist _ _).trans (List.sublist_cons_self _ _) |>.count_le c
                | cons n needle =>
                    rw [List.cons_append, List.cons.injEq] at hafter
                    rw [← hafter.2, List.length_cons, Nat.add_sub_cancel, List.drop_left]
              rw [List.drop_zero, ← hafter, List.count_append, List.count_append]
              omega
          · have hrest := ih 0
            rw [List.drop_zero] at hrest
            rw [List.drop_zero, List.count_cons, List.count_cons]
            omega

theorem count_replace_lt {needle put text : List α} {c : α} (hcount : put.count c < needle.count c)
    (h : needle <:+: text) : (replace needle put text).count c < text.count c := by
  have hne : needle ≠ [] := by
    rintro rfl
    exact absurd hcount (Nat.not_lt_zero _)
  induction text with
  | nil => exact absurd (List.infix_nil.mp h) hne
  | cons d rest ih =>
      rw [replace, replaceFrom]
      split
      · next hprefix =>
          obtain ⟨after, hafter⟩ := List.isPrefixOf_iff_prefix.mp hprefix
          have hrest := count_replaceFrom_le (le_of_lt hcount) (needle.length - 1) rest
          have hdrop : rest.drop (needle.length - 1) = after := by
            cases needle with
            | nil => exact absurd rfl hne
            | cons n needle =>
                rw [List.cons_append, List.cons.injEq] at hafter
                rw [← hafter.2, List.length_cons, Nat.add_sub_cancel, List.drop_left]
          rw [hdrop] at hrest
          rw [← hafter, List.count_append, List.count_append]
          omega
      · next hprefix =>
          rcases List.infix_cons_iff.mp h with hfirst | hrest
          · exact absurd (List.isPrefixOf_iff_prefix.mpr hfirst) hprefix
          · have hlt := ih hrest
            rw [replace] at hlt
            rw [List.count_cons, List.count_cons]
            omega

/-- An item that every pattern holds more often than its replacement. -/
def Sheds (pairs : List (List α × List α)) (c : α) : Prop :=
  ∀ pair ∈ pairs, pair.2.count c < pair.1.count c

theorem count_replaceAll_le {pairs : List (List α × List α)} {c : α} (h : Sheds pairs c)
    (text : List α) : (replaceAll pairs text).count c ≤ text.count c := by
  induction pairs generalizing text with
  | nil => exact le_refl _
  | cons pair pairs ih =>
      have hrest := ih fun p hp => h p (List.mem_cons_of_mem _ hp)
      rw [replaceAll, List.foldl_cons]
      split
      · next hin =>
          have hlt := count_replace_lt (h pair List.mem_cons_self) hin
          exact le_trans (hrest _) hlt.le
      · exact hrest text

/-- Where a pattern occurs, the item becomes rarer. -/
theorem count_replaceAll_lt {pairs : List (List α × List α)} {c : α} (h : Sheds pairs c)
    {text : List α} (hoccurs : Occurs pairs text) :
    (replaceAll pairs text).count c < text.count c := by
  induction pairs with
  | nil => exact hoccurs.elim fun _ hp => absurd hp.1 List.not_mem_nil
  | cons pair pairs ih =>
      have htail : Sheds pairs c := fun p hp => h p (List.mem_cons_of_mem _ hp)
      rw [replaceAll, List.foldl_cons]
      split
      · next hin =>
          have hlt := count_replace_lt (h pair List.mem_cons_self) hin
          exact lt_of_le_of_lt (count_replaceAll_le htail _) hlt
      · next hnot =>
          obtain ⟨p, hp, hin⟩ := hoccurs
          rcases List.mem_cons.mp hp with rfl | hp
          · exact absurd hin hnot
          · exact ih htail ⟨p, hp, hin⟩

theorem replaceAll_eq_self_iff {pairs : List (List α × List α)} {c : α} (h : Sheds pairs c)
    (text : List α) : replaceAll pairs text = text ↔ ¬ Occurs pairs text := by
  constructor
  · intro heq hoccurs
    have hlt := count_replaceAll_lt h hoccurs
    rw [heq] at hlt
    exact absurd hlt (lt_irrefl _)
  · exact replaceAll_of_not_occurs

/-! ## What is kept -/

theorem mem_replaceFrom {needle put : List α} {skip : Nat} {text : List α} {c : α}
    (h : c ∈ replaceFrom needle put skip text) : c ∈ text ∨ c ∈ put := by
  induction text generalizing skip with
  | nil => simp [replaceFrom] at h
  | cons d rest ih =>
      cases skip with
      | succ skip => exact (ih h).imp_left (List.mem_cons_of_mem d)
      | zero =>
          rw [replaceFrom] at h
          split at h
          · rcases List.mem_append.mp h with h | h
            · exact .inr h
            · exact (ih h).imp_left (List.mem_cons_of_mem d)
          · rcases List.mem_cons.mp h with rfl | h
            · exact .inl List.mem_cons_self
            · exact (ih h).imp_left (List.mem_cons_of_mem d)

/-- A condition on the items that holds of the text and of what is put into it. -/
theorem replaceAll_all {pairs : List (List α × List α)} {p : α → Prop}
    (h : ∀ pair ∈ pairs, ∀ c ∈ pair.2, p c) {text : List α} (htext : ∀ c ∈ text, p c) :
    ∀ c ∈ replaceAll pairs text, p c := by
  induction pairs generalizing text with
  | nil => exact htext
  | cons pair pairs ih =>
      rw [replaceAll, List.foldl_cons]
      refine ih (fun q hq => h q (List.mem_cons_of_mem _ hq)) ?_
      split
      · intro c hc
        rcases mem_replaceFrom hc with hc | hc
        · exact htext c hc
        · exact h pair List.mem_cons_self c hc
      · exact htext

/-- A condition on the first item, in the same way. -/
theorem replaceAll_head {pairs : List (List α × List α)} {p : α → Prop}
    (h : ∀ pair ∈ pairs, ∃ c rest, pair.2 = c :: rest ∧ p c) {text : List α}
    (htext : ∃ c rest, text = c :: rest ∧ p c) :
    ∃ c rest, replaceAll pairs text = c :: rest ∧ p c := by
  induction pairs generalizing text with
  | nil => exact htext
  | cons pair pairs ih =>
      rw [replaceAll, List.foldl_cons]
      refine ih (fun q hq => h q (List.mem_cons_of_mem _ hq)) ?_
      split
      · obtain ⟨c, rest, rfl, hc⟩ := htext
        rw [replace, replaceFrom]
        split
        · obtain ⟨d, put, hput, hd⟩ := h pair List.mem_cons_self
          exact ⟨d, _, by rw [hput, List.cons_append], hd⟩
        · exact ⟨c, _, rfl, hc⟩
      · exact htext

/-! ## Replacing on either side of an item -/

omit [DecidableEq α] in
theorem prefix_append_cons_iff {needle before after : List α} {sep : α} (hsep : sep ∉ needle) :
    needle <+: before ++ sep :: after ↔ needle <+: before := by
  induction needle generalizing before with
  | nil => simp
  | cons n needle ih =>
      rw [List.mem_cons, not_or] at hsep
      cases before with
      | nil =>
          rw [List.nil_append, List.cons_prefix_cons, List.prefix_nil]
          constructor
          · exact fun h => absurd h.1.symm hsep.1
          · exact fun h => absurd h (List.cons_ne_nil _ _)
      | cons b before =>
          rw [List.cons_append, List.cons_prefix_cons, List.cons_prefix_cons, ih hsep.2]

theorem replaceFrom_append_cons {needle put before after : List α} {sep : α} (hne : needle ≠ [])
    (hsep : sep ∉ needle) {skip : Nat} (hskip : skip ≤ before.length) :
    replaceFrom needle put skip (before ++ sep :: after) =
      replaceFrom needle put skip before ++ sep :: replace needle put after := by
  induction before generalizing skip with
  | nil =>
      have hzero : skip = 0 := Nat.le_zero.mp hskip
      subst hzero
      have hnot : ¬ needle <+: sep :: after := fun h =>
        hne (List.prefix_nil.mp ((@prefix_append_cons_iff α needle [] after sep hsep).mp h))
      change replaceFrom needle put 0 (sep :: after) = sep :: replace needle put after
      rw [replaceFrom, if_neg (mt List.isPrefixOf_iff_prefix.mp hnot), replace]
  | cons b before ih =>
      cases skip with
      | succ skip => exact ih (Nat.le_of_succ_le_succ hskip)
      | zero =>
          have hiff := @prefix_append_cons_iff α needle (b :: before) after sep hsep
          rw [List.cons_append] at hiff
          rw [List.cons_append, replaceFrom, replaceFrom]
          by_cases hprefix : needle <+: b :: before
          · have hle := hprefix.length_le
            rw [List.length_cons] at hle
            rw [if_pos (List.isPrefixOf_iff_prefix.mpr (hiff.mpr hprefix)),
              if_pos (List.isPrefixOf_iff_prefix.mpr hprefix), ih (by omega), List.append_assoc]
          · rw [if_neg (mt List.isPrefixOf_iff_prefix.mp (mt hiff.mp hprefix)),
              if_neg (mt List.isPrefixOf_iff_prefix.mp hprefix), ih (Nat.zero_le _),
              List.cons_append]

theorem replace_of_absent {needle put text : List α} (h : ¬ needle <:+: text) :
    replace needle put text = text := by
  induction text with
  | nil => rfl
  | cons c rest ih =>
      have hprefix : ¬ needle <+: c :: rest := fun hp => h hp.isInfix
      have hrest : ¬ needle <:+: rest := fun hp => h (List.infix_cons hp)
      rw [replace, replaceFrom, if_neg (mt List.isPrefixOf_iff_prefix.mp hprefix)]
      exact congrArg (c :: ·) (ih hrest)

theorem replaceAll_cons (pair : List α × List α) (pairs : List (List α × List α))
    (text : List α) :
    replaceAll (pair :: pairs) text = replaceAll pairs (replace pair.1 pair.2 text) := by
  rw [replaceAll, List.foldl_cons]
  split
  · rfl
  · next h => rw [replace_of_absent h, replaceAll]

/-- What stands on the two sides of an item no pattern holds is replaced on its own. -/
theorem replaceAll_append_cons {pairs : List (List α × List α)} {sep : α}
    (h : ∀ pair ∈ pairs, pair.1 ≠ [] ∧ sep ∉ pair.1) (before after : List α) :
    replaceAll pairs (before ++ sep :: after) =
      replaceAll pairs before ++ sep :: replaceAll pairs after := by
  induction pairs generalizing before after with
  | nil => rfl
  | cons pair pairs ih =>
      have hfirst := h pair List.mem_cons_self
      rw [replaceAll_cons, replaceAll_cons, replaceAll_cons, replace,
        replaceFrom_append_cons hfirst.1 hfirst.2 (Nat.zero_le _)]
      exact ih (fun p hp => h p (List.mem_cons_of_mem _ hp)) _ _

end PhpantomLsp.Lib.Replace
