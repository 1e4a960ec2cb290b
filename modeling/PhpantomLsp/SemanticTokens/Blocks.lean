import PhpantomLsp.SemanticTokens.Encoding

/-!
# Sorted tokens in blocks

Sorted by position, collected tokens fall into blocks that are apart: a token
that is in no comment, or a comment with the tokens inside it, one of which may
stand in front of the comment when it starts where the comment does.  Splitting,
sorting again and deduplication work on each block alone, and only a token in
front of its comment can be lost: when the piece of the comment that starts with
it is longer.
-/

namespace PhpantomLsp.SemanticTokens

open AbsoluteToken

variable {a b c t : AbsoluteToken} {collected : List AbsoluteToken}

theorem AbsoluteToken.startChar_lt_stop (t : AbsoluteToken) : t.startChar < t.stop :=
  Nat.lt_add_of_pos_right t.length_pos

theorem positionLe_iff :
    positionLe a b = true ↔ a.line < b.line ∨ (a.line = b.line ∧ a.startChar ≤ b.startChar) := by
  simp [positionLe]

theorem positionLe_trans (h : positionLe a b = true) (h' : positionLe b c = true) :
    positionLe a c = true := by
  rw [positionLe_iff] at *
  omega

theorem positionLe_total (a b : AbsoluteToken) : (positionLe a b || positionLe b a) = true := by
  rw [Bool.or_eq_true, positionLe_iff, positionLe_iff]
  omega

theorem Ahead.le (h : Ahead a b) : positionLe a b = true := by
  rw [positionLe_iff]
  have := a.startChar_lt_stop
  unfold Ahead at h
  omega

theorem Ahead.not_of_positionLe (h : Ahead a b) : positionLe b a = false := by
  rw [Bool.eq_false_iff, ne_eq, positionLe_iff]
  have := a.startChar_lt_stop
  unfold Ahead at h
  omega

theorem Apart.symm (h : Apart a b) : Apart b a := Or.symm h

theorem Apart.ahead (h : Apart a b) (hle : positionLe a b = true) : Ahead a b := by
  rcases h with h | h
  · exact h
  · rw [h.not_of_positionLe] at hle
    exact absurd hle (by decide)

theorem Inside.apart (h : Inside t c) (hapart : Apart c b) : Apart t b := by
  have := t.startChar_lt_stop
  unfold Inside at h
  unfold Apart Ahead at *
  omega

theorem Inside.ahead (h : Inside t c) (hahead : Ahead c b) : Ahead t b := by
  unfold Inside at h
  unfold Ahead at *
  omega

theorem Ahead.not_covers {line col : Nat} (h : Ahead a b) (ha : Covers a line col) :
    ¬ Covers b line col := by
  intro hb
  unfold Ahead at h
  unfold Covers at *
  omega

/-! ## Sorted tokens, two at a time -/

/-- What a token is to one that comes after it. -/
inductive Follows (a b : AbsoluteToken) : Prop
  | ahead (h : Ahead a b)
  | inner (ha : a.isComment = true) (hb : b.isComment = false) (h : Inside b a)
  | tied (ha : a.isComment = false) (hb : b.isComment = true) (h : Inside a b) (hs : SameStart a b)

theorem Follows.ne (h : Follows a b) : a ≠ b := by
  rintro rfl
  cases h with
  | ahead h =>
      have := a.startChar_lt_stop
      unfold Ahead at h
      omega
  | inner ha hb _ => exact absurd (ha.symm.trans hb) (by decide)
  | tied ha hb _ _ => exact absurd (ha.symm.trans hb) (by decide)

theorem Follows.ahead_of_plain (h : Follows a b) (ha : a.isComment = false)
    (hb : b.isComment = false) : Ahead a b := by
  cases h with
  | ahead h => exact h
  | inner ha' _ _ => exact absurd (ha'.symm.trans ha) (by decide)
  | tied _ hb' _ _ => exact absurd (hb'.symm.trans hb) (by decide)

/-- Tokens as collected, sorted by position. -/
theorem follows_of_layout (h : Layout collected) (hsorted : collected.Pairwise fun a b => positionLe a b = true) :
    collected.Pairwise Follows := by
  have hplain := List.pairwise_filter.mp h.plain
  have hcomments := List.pairwise_filter.mp h.comments
  have hall : ∀ c ∈ collected, ∀ d ∈ collected, c ≠ d → c.isComment = true → d.isComment = true →
      Apart c d := by
    intro c hc d hd hne
    have hsymm : Std.Symm fun c d : AbsoluteToken =>
        c.isComment = true → d.isComment = true → Apart c d :=
      ⟨fun _ _ hcd hd hc => (hcd hc hd).symm⟩
    exact hcomments.forall hc hd hne
  apply List.Pairwise.imp_of_mem _ (hsorted.and (hplain.and hcomments))
  intro a b ha hb ⟨hle, hplain, hcomments⟩
  cases hta : a.isComment with
  | true =>
      cases htb : b.isComment with
      | true => exact .ahead ((hcomments hta htb).ahead hle)
      | false =>
          rcases h.nested b hb htb with ⟨c, hc, htc, hin⟩ | hout
          · by_cases hca : c = a
            · exact .inner hta htb (hca ▸ hin)
            · exact .ahead ((hin.apart (hall c hc a ha hca htc hta)).symm.ahead hle)
          · exact .ahead ((hout a ha hta).symm.ahead hle)
  | false =>
      cases htb : b.isComment with
      | true =>
          rcases h.nested a ha hta with ⟨c, hc, htc, hin⟩ | hout
          · by_cases hcb : c = b
            · subst hcb
              apply Follows.tied hta htb hin
              rw [positionLe_iff] at hle
              unfold Inside at hin
              unfold SameStart
              omega
            · exact .ahead ((hin.apart (hall c hc b hb hcb htc htb)).ahead hle)
          · exact .ahead ((hout b hb htb).ahead hle)
      | false => exact .ahead ((hplain (by simp [hta]) (by simp [htb])).ahead hle)

theorem Layout.perm {sorted : List AbsoluteToken} (h : Layout collected) (hperm : sorted.Perm collected) :
    Layout sorted where
  plain := (hperm.filter _).pairwise_iff Apart.symm |>.mpr h.plain
  comments := (hperm.filter _).pairwise_iff Apart.symm |>.mpr h.comments
  nested t ht hplain := by
    rcases h.nested t (hperm.mem_iff.mp ht) hplain with ⟨c, hc, hin⟩ | hout
    · exact Or.inl ⟨c, hperm.mem_iff.mpr hc, hin⟩
    · exact Or.inr fun c hc => hout c (hperm.mem_iff.mp hc)

/-! ## Blocks -/

/-- A token that is in no comment, or a comment with the tokens inside it, `lead`
in front of it. -/
inductive Block where
  | plain (t : AbsoluteToken)
  | comment (lead : Option AbsoluteToken) (c : AbsoluteToken) (inner : List AbsoluteToken)

namespace Block

def tokens : Block → List AbsoluteToken
  | plain t => [t]
  | comment lead c inner => lead.toList ++ c :: inner

/-- The tokens inside the comment are apart and in order, and the one in front
of it starts where it does. -/
def Valid : Block → Prop
  | plain t => t.isComment = false
  | comment lead c inner =>
      c.isComment = true ∧ (∀ t ∈ lead, SameStart t c) ∧
        (∀ t ∈ lead.toList ++ inner, t.isComment = false ∧ Inside t c) ∧
        (lead.toList ++ inner).Pairwise Ahead

/-- All the tokens of one block are ahead of those of another. -/
def Before (x y : Block) : Prop := ∀ a ∈ x.tokens, ∀ b ∈ y.tokens, Ahead a b

end Block

/-- The tokens inside a comment follow it directly. -/
theorem exists_inner {rest : List AbsoluteToken} (hc : c.isComment = true)
    (h : (c :: rest).Pairwise Follows) :
    ∃ inner after, rest = inner ++ after ∧ (∀ t ∈ inner, t.isComment = false ∧ Inside t c) ∧
      ∀ t ∈ after, Ahead c t := by
  induction rest with
  | nil => exact ⟨[], [], rfl, by simp, by simp⟩
  | cons t rest ih =>
      have ⟨hfirst, htail⟩ := List.pairwise_cons.mp h
      have ⟨hnext, hrest⟩ := List.pairwise_cons.mp htail
      cases hfirst t (by simp) with
      | inner _ ht hin =>
          have ⟨inner, after, heq, hinner, hafter⟩ := ih
            (List.pairwise_cons.mpr ⟨fun u hu => hfirst u (by simp [hu]), hrest⟩)
          refine ⟨t :: inner, after, by rw [heq]; rfl, ?_, hafter⟩
          intro u hu
          rcases List.mem_cons.mp hu with rfl | hu
          · exact ⟨ht, hin⟩
          · exact hinner u hu
      | tied hc' _ _ _ => exact absurd (hc.symm.trans hc') (by decide)
      | ahead hahead =>
          refine ⟨[], t :: rest, rfl, by simp, ?_⟩
          intro u hu
          rcases List.mem_cons.mp hu with rfl | hu
          · exact hahead
          · -- what comes after a token behind the comment is behind it too
            cases hfirst u (by simp [hu]) with
            | ahead h => exact h
            | tied hc' _ _ _ => exact absurd (hc.symm.trans hc') (by decide)
            | inner _ hu' hin =>
                have := u.startChar_lt_stop
                cases hnext u hu with
                | ahead h =>
                    unfold Ahead at *
                    unfold Inside at hin
                    have := t.startChar_lt_stop
                    omega
                | inner _ _ h =>
                    unfold Ahead at *
                    unfold Inside at hin h
                    omega
                | tied _ hu'' _ _ => exact absurd (hu'.symm.trans hu'') (by decide)

/-- A token that is no comment is ahead of the others, unless a comment that
starts where it does comes next. -/
theorem ahead_or_tied {rest : List AbsoluteToken} (ht : t.isComment = false)
    (h : (t :: rest).Pairwise Follows) :
    (∀ u ∈ rest, Ahead t u) ∨
      ∃ c after, rest = c :: after ∧ c.isComment = true ∧ Inside t c ∧ SameStart t c := by
  cases rest with
  | nil => exact Or.inl (by simp)
  | cons u rest =>
      have ⟨hfirst, htail⟩ := List.pairwise_cons.mp h
      cases hfirst u (by simp) with
      | inner ht' _ _ => exact absurd (ht'.symm.trans ht) (by decide)
      | tied _ hu hin hs => exact Or.inr ⟨u, rest, rfl, hu, hin, hs⟩
      | ahead hahead =>
          refine Or.inl ?_
          intro v hv
          rcases List.mem_cons.mp hv with rfl | hv
          · exact hahead
          · cases hfirst v (by simp [hv]) with
            | ahead h => exact h
            | inner ht' _ _ => exact absurd (ht'.symm.trans ht) (by decide)
            | tied _ hv' _ hs =>
                have := t.startChar_lt_stop
                have := u.startChar_lt_stop
                unfold SameStart at hs
                cases (List.pairwise_cons.mp htail).1 v hv with
                | ahead h =>
                    unfold Ahead at *
                    omega
                | inner _ hv'' _ => exact absurd (hv'.symm.trans hv'') (by decide)
                | tied _ _ _ hs' =>
                    unfold SameStart at hs'
                    unfold Ahead at *
                    omega

/-- Sorted tokens fall into blocks. -/
theorem exists_blocks (h : collected.Pairwise Follows) :
    ∃ blocks : List Block, collected = blocks.flatMap Block.tokens ∧ (∀ x ∈ blocks, x.Valid) ∧
      blocks.Pairwise Block.Before := by
  induction hn : collected.length using Nat.strong_induction_on generalizing collected with
  | _ n ih =>
      cases collected with
      | nil => exact ⟨[], rfl, by simp, List.Pairwise.nil⟩
      | cons t rest =>
          -- one block in front of the blocks of the tokens behind it
          have hblock : ∀ (x : Block) (after : List AbsoluteToken), t :: rest = x.tokens ++ after →
              after.length < n → x.Valid → (∀ a ∈ x.tokens, ∀ b ∈ after, Ahead a b) →
              ∃ blocks : List Block, t :: rest = blocks.flatMap Block.tokens ∧
                (∀ x ∈ blocks, x.Valid) ∧ blocks.Pairwise Block.Before := by
            intro x after heq hlen hvalid hahead
            have hafter : after.Pairwise Follows := by
              rw [heq] at h
              exact (List.pairwise_append.mp h).2.1
            have ⟨blocks, htokens, hvalids, hbefore⟩ := ih after.length hlen hafter rfl
            refine ⟨x :: blocks, by rw [List.flatMap_cons, ← htokens, heq], ?_, ?_⟩
            · intro y hy
              rcases List.mem_cons.mp hy with rfl | hy
              · exact hvalid
              · exact hvalids y hy
            · refine List.pairwise_cons.mpr ⟨?_, hbefore⟩
              intro y hy a ha b hb
              apply hahead a ha
              rw [htokens]
              exact List.mem_flatMap.mpr ⟨y, hy, hb⟩
          rw [List.length_cons] at hn
          cases ht : t.isComment with
          | true =>
              have ⟨inner, after, heq, hinner, hafter⟩ := exists_inner ht h
              have hlen : after.length < n := by
                rw [← hn, heq, List.length_append]
                omega
              apply hblock (.comment none t inner) after (by rw [heq]; rfl) hlen
              · refine ⟨ht, by simp, by simpa using hinner, ?_⟩
                have hsub : inner.Pairwise Follows :=
                  h.sublist ((heq ▸ List.sublist_append_left inner after).cons t)
                exact List.Pairwise.imp_of_mem (fun hu hv huv =>
                  huv.ahead_of_plain (hinner _ hu).1 (hinner _ hv).1) hsub
              · intro a ha b hb
                rcases List.mem_cons.mp ha with rfl | ha
                · exact hafter b hb
                · exact (hinner a ha).2.ahead (hafter b hb)
          | false =>
              rcases ahead_or_tied ht h with hahead | ⟨c, behind, hcons, hc, hin, hs⟩
              · apply hblock (.plain t) rest rfl (by omega) ht
                intro a ha b hb
                rw [List.mem_singleton.mp ha]
                exact hahead b hb
              · subst hcons
                have ⟨inner, after, heq, hinner, hafter⟩ :=
                  exists_inner hc (List.pairwise_cons.mp h).2
                have hlen : after.length < n := by
                  rw [← hn, heq, List.length_cons, List.length_append]
                  omega
                apply hblock (.comment (some t) c inner) after (by rw [heq]; rfl) hlen
                · refine ⟨hc, by simpa using hs, ?_, ?_⟩
                  · intro u hu
                    rcases List.mem_cons.mp hu with rfl | hu
                    · exact ⟨ht, hin⟩
                    · exact hinner u hu
                  · have hsub : (t :: inner).Sublist (t :: c :: behind) := by
                      rw [heq]
                      exact ((List.sublist_append_left inner after).cons c).cons_cons t
                    apply List.Pairwise.imp_of_mem _ (h.sublist hsub)
                    intro u v hu hv huv
                    have hplain : ∀ w ∈ t :: inner, w.isComment = false := by
                      intro w hw
                      rcases List.mem_cons.mp hw with rfl | hw
                      · exact ht
                      · exact (hinner w hw).1
                    exact huv.ahead_of_plain (hplain u hu) (hplain v hv)
                · intro a ha b hb
                  rcases List.mem_cons.mp ha with rfl | ha
                  · exact hin.ahead (hafter b hb)
                  · rcases List.mem_cons.mp ha with rfl | ha
                    · exact hafter b hb
                    · exact (hinner a ha).2.ahead (hafter b hb)

end PhpantomLsp.SemanticTokens
