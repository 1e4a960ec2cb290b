import PhpantomLsp.SemanticTokens.Blocks

/-!
# What the client sees of the tokens

What each pass makes of a block, and from it what all of them make of the
collected tokens: the client sees them faithfully exactly when every token
collected before a comment that starts with it fits the piece of the comment
that starts there (`encodedTokens_faithful_iff`).
-/

namespace PhpantomLsp.SemanticTokens

open AbsoluteToken

variable {a b c t : AbsoluteToken} {inner : List AbsoluteToken}

/-! ## The pieces of a comment -/

section Fragment

variable {line start stop : Nat} (h : start < stop)

@[simp] theorem fragment_line : (fragment line h).line = line := rfl

@[simp] theorem fragment_startChar : (fragment line h).startChar = start := rfl

@[simp] theorem fragment_isComment : (fragment line h).isComment = true := rfl

@[simp] theorem fragment_stop : (fragment line h).stop = stop := by
  show start + (stop - start) = stop
  omega

end Fragment

/-- The inner tokens of a comment and the columns of the comment between them,
from `cursor` on. -/
structure Pieces (c : AbsoluteToken) (cursor : Nat) (inner out : List AbsoluteToken) : Prop where
  within : ∀ f ∈ out, f.line = c.line ∧ cursor ≤ f.startChar ∧ f.stop ≤ c.stop
  ordered : out.Pairwise Ahead
  plain : out.filter (fun t => !t.isComment) = inner
  covers : ∀ line col, (∃ f ∈ out, f.isComment = true ∧ Covers f line col) ↔
    line = c.line ∧ cursor ≤ col ∧ col < c.stop ∧ ¬ ∃ t ∈ inner, Covers t line col

/-- A token that is no comment in front of pieces. -/
theorem Pieces.cons {out : List AbsoluteToken} (h : Pieces c t.stop inner out)
    (ht : t.isComment = false) (hin : Inside t c) : Pieces c t.startChar (t :: inner) (t :: out) := by
  have hpos := t.startChar_lt_stop
  have hline := hin.1
  constructor
  · intro f hf
    rcases List.mem_cons.mp hf with rfl | hf
    · exact ⟨hline, Nat.le_refl _, hin.2.2⟩
    · have := h.within f hf
      omega
  · refine List.pairwise_cons.mpr ⟨?_, h.ordered⟩
    intro f hf
    have := h.within f hf
    exact Or.inr ⟨by omega, this.2.1⟩
  · rw [List.filter_cons_of_pos (by simp [ht]), h.plain]
  · intro line col
    have hcovers := h.covers line col
    constructor
    · rintro ⟨f, hf, hcomment, hcol⟩
      rcases List.mem_cons.mp hf with rfl | hf
      · exact absurd (hcomment.symm.trans ht) (by decide)
      · have ⟨hl, hle, hlt, hnone⟩ := hcovers.mp ⟨f, hf, hcomment, hcol⟩
        refine ⟨hl, by omega, hlt, ?_⟩
        rintro ⟨u, hu, hucol⟩
        rcases List.mem_cons.mp hu with rfl | hu
        · unfold Covers at hucol
          omega
        · exact hnone ⟨u, hu, hucol⟩
    · rintro ⟨hl, hle, hlt, hnone⟩
      have hbehind : t.stop ≤ col := by
        by_contra hbefore
        exact hnone ⟨t, by simp, hline.trans hl.symm, hle, by omega⟩
      have ⟨f, hf, hcomment, hcol⟩ := hcovers.mpr ⟨hl, hbehind, hlt, fun ⟨u, hu, hucol⟩ =>
        hnone ⟨u, by simp [hu], hucol⟩⟩
      exact ⟨f, by simp [hf], hcomment, hcol⟩

/-- A fragment up to where the next token starts in front of pieces. -/
theorem Pieces.cons_fragment {cursor next : Nat} {out : List AbsoluteToken}
    (h : Pieces c next inner out) (hlt : cursor < next) (hle : next ≤ c.stop)
    (hstart : ∀ t ∈ inner, next ≤ t.startChar) :
    Pieces c cursor inner (fragment c.line hlt :: out) := by
  constructor
  · intro f hf
    rcases List.mem_cons.mp hf with rfl | hf
    · simp [hle]
    · have := h.within f hf
      omega
  · refine List.pairwise_cons.mpr ⟨?_, h.ordered⟩
    intro f hf
    have := h.within f hf
    exact Or.inr ⟨by simp [this.1], by simp [this.2.1]⟩
  · rw [List.filter_cons_of_neg (by simp), h.plain]
  · intro line col
    have hcovers := h.covers line col
    constructor
    · rintro ⟨f, hf, hcomment, hcol⟩
      rcases List.mem_cons.mp hf with rfl | hf
      · simp only [Covers, fragment_line, fragment_startChar, fragment_stop] at hcol
        refine ⟨hcol.1.symm, hcol.2.1, by omega, ?_⟩
        rintro ⟨u, hu, hucol⟩
        have := hstart u hu
        unfold Covers at hucol
        omega
      · have ⟨hl, hfrom, hto, hnone⟩ := hcovers.mp ⟨f, hf, hcomment, hcol⟩
        exact ⟨hl, by omega, hto, hnone⟩
    · rintro ⟨hl, hfrom, hto, hnone⟩
      by_cases hbefore : col < next
      · exact ⟨_, List.mem_cons_self, fragment_isComment hlt, by
          simp only [Covers, fragment_line, fragment_startChar, fragment_stop]
          exact ⟨hl.symm, hfrom, hbefore⟩⟩
      · have ⟨f, hf, hcomment, hcol⟩ := hcovers.mpr ⟨hl, by omega, hto, hnone⟩
        exact ⟨f, by simp [hf], hcomment, hcol⟩

theorem pieces_nil {cursor : Nat} (h : cursor = c.stop) : Pieces c cursor [] [] := by
  constructor
  · simp
  · exact List.Pairwise.nil
  · rfl
  · intro line col
    simp only [List.not_mem_nil, false_and, exists_false, not_false_eq_true, and_true, false_iff]
    omega

theorem pieces_fragmentsFrom {cursor : Nat} (hcursor : cursor ≤ c.stop)
    (hfrom : ∀ t ∈ inner, cursor ≤ t.startChar)
    (hinner : ∀ t ∈ inner, t.isComment = false ∧ Inside t c) (hordered : inner.Pairwise Ahead) :
    Pieces c cursor inner (fragmentsFrom c cursor inner) := by
  induction inner generalizing cursor with
  | nil =>
      rw [fragmentsFrom]
      by_cases hlt : cursor < c.stop
      · rw [dif_pos hlt]
        exact (pieces_nil rfl).cons_fragment hlt (Nat.le_refl _) (by simp)
      · rw [dif_neg hlt]
        exact pieces_nil (by omega)
  | cons t rest ih =>
      have ⟨ht, hin⟩ := hinner t (by simp)
      have ⟨hfirst, hrest⟩ := List.pairwise_cons.mp hordered
      have hahead : ∀ u ∈ rest, t.stop ≤ u.startChar := by
        intro u hu
        have hut := (hinner u (by simp [hu])).2.1
        have htt := hin.1
        have := hfirst u hu
        unfold Ahead at this
        omega
      have hpieces := (ih hin.2.2 hahead (fun u hu => hinner u (by simp [hu])) hrest).cons ht hin
      have hstart := hfrom t (by simp)
      have hpos := t.startChar_lt_stop
      rw [fragmentsFrom]
      by_cases hlt : cursor < t.startChar
      · rw [dif_pos hlt]
        apply hpieces.cons_fragment hlt (by have := hin.2.2; omega)
        intro u hu
        rcases List.mem_cons.mp hu with rfl | hu
        · exact Nat.le_refl _
        · have := hahead u hu
          omega
      · have heq : cursor = t.startChar := by omega
        rw [dif_neg hlt, heq]
        exact hpieces

/-- What becomes of a comment with the tokens inside it. -/
def splitComment (c : AbsoluteToken) (inner : List AbsoluteToken) : List AbsoluteToken :=
  if inner.isEmpty then [c] else fragmentsFrom c c.startChar inner

theorem pieces_splitComment (hc : c.isComment = true)
    (hinner : ∀ t ∈ inner, t.isComment = false ∧ Inside t c) (hordered : inner.Pairwise Ahead) :
    Pieces c c.startChar inner (splitComment c inner) := by
  unfold splitComment
  by_cases hnone : inner.isEmpty = true
  · rw [if_pos hnone, List.isEmpty_iff.mp hnone]
    constructor
    · simp
    · exact List.pairwise_singleton _ _
    · simp [hc]
    · intro line col
      simp only [List.mem_singleton, exists_eq_left, hc, Covers, true_and, List.not_mem_nil,
        false_and, exists_false, not_false_eq_true, and_true]
      exact and_congr_left' eq_comm
  · rw [if_neg hnone]
    exact pieces_fragmentsFrom (Nat.le_of_lt c.startChar_lt_stop) (fun t ht => (hinner t ht).2.2.1)
      hinner hordered

/-! ## Splitting, block by block -/

theorem collectInner_append {after : List AbsoluteToken}
    (hinner : ∀ t ∈ inner, t.isComment = false ∧ Inside t c) (hafter : ∀ t ∈ after, Ahead c t) :
    collectInner c (inner ++ after) = (inner, inner.length) := by
  induction inner with
  | nil =>
      cases after with
      | nil => rfl
      | cons t after =>
          have hahead := hafter t (by simp)
          have hpos := t.startChar_lt_stop
          rw [List.nil_append, collectInner]
          by_cases hline : t.line = c.line
          · have hbehind : c.stop ≤ t.startChar := by
              unfold Ahead at hahead
              omega
            have hout : isInner c t = false := by
              have : ¬ t.stop ≤ c.stop := by omega
              simp [isInner, this]
            simp [hline, hbehind, hout]
          · simp [hline]
  | cons t rest ih =>
      have ⟨ht, hin⟩ := hinner t (by simp)
      have hpos := t.startChar_lt_stop
      have hyes : isInner c t = true := by
        simp [isInner, ht, hin.2.1, hin.2.2]
      have hnot : ¬ c.stop ≤ t.startChar := by
        have := hin.2.2
        omega
      rw [List.cons_append, collectInner, ih fun u hu => hinner u (by simp [hu])]
      simp [hin.1, hyes, hnot]

theorem skipInner_append {after : List AbsoluteToken}
    (hinner : ∀ t ∈ inner, t.isComment = false ∧ Inside t c) :
    skipInner c inner.length (inner ++ after) = after := by
  induction inner with
  | nil => cases after <;> rfl
  | cons t rest ih =>
      have ⟨ht, hin⟩ := hinner t (by simp)
      have hyes : isInner c t = true := by
        simp [isInner, ht, hin.2.1, hin.2.2]
      rw [List.length_cons, List.cons_append, skipInner, if_pos ⟨hin.1, hyes⟩]
      exact ih fun u hu => hinner u (by simp [hu])

namespace Block

/-- What splitting makes of a block. -/
def split : Block → List AbsoluteToken
  | plain t => [t]
  | comment lead c inner => lead.toList ++ splitComment c inner

/-- The tokens behind the lead of a block. -/
theorem Valid.held {lead : Option AbsoluteToken} (h : (comment lead c inner).Valid) :
    (∀ t ∈ inner, t.isComment = false ∧ Inside t c) ∧ inner.Pairwise Ahead :=
  ⟨fun t ht => h.2.2.1 t (by simp [ht]), (List.pairwise_append.mp h.2.2.2).2.1⟩

theorem Valid.pieces {lead : Option AbsoluteToken} (h : (comment lead c inner).Valid) :
    Pieces c c.startChar inner (splitComment c inner) :=
  pieces_splitComment h.1 h.held.1 h.held.2

end Block

theorem splitFrom_comment {after : List AbsoluteToken} (hc : c.isComment = true)
    (hinner : ∀ t ∈ inner, t.isComment = false ∧ Inside t c) (hafter : ∀ t ∈ after, Ahead c t) :
    splitFrom (c :: (inner ++ after)) = splitComment c inner ++ splitFrom after := by
  rw [splitFrom, if_pos hc, collectInner_append hinner hafter]
  show (if inner.isEmpty = true then c :: splitFrom (inner ++ after)
    else fragmentsFrom c c.startChar inner ++ splitFrom (skipInner c inner.length (inner ++ after))) = _
  rw [skipInner_append hinner]
  unfold splitComment
  by_cases hnone : inner.isEmpty = true
  · simp [List.isEmpty_iff.mp hnone]
  · simp [hnone]

theorem splitFrom_plain {after : List AbsoluteToken} (ht : t.isComment = false) :
    splitFrom (t :: after) = t :: splitFrom after := by
  rw [splitFrom, if_neg (by simp [ht])]

theorem splitFrom_blocks {blocks : List Block} (hvalid : ∀ x ∈ blocks, x.Valid)
    (hbefore : blocks.Pairwise Block.Before) :
    splitFrom (blocks.flatMap Block.tokens) = blocks.flatMap Block.split := by
  induction blocks with
  | nil => simp [splitFrom]
  | cons x rest ih =>
      obtain ⟨hfirst, hrest⟩ := List.pairwise_cons.mp hbefore
      have ih := ih (fun y hy => hvalid y (by simp [hy])) hrest
      have hx := hvalid x (by simp)
      have hahead : ∀ a ∈ x.tokens, ∀ b ∈ rest.flatMap Block.tokens, Ahead a b := by
        intro a ha b hb
        obtain ⟨y, hy, hby⟩ := List.mem_flatMap.mp hb
        exact hfirst y hy a ha b hby
      rw [List.flatMap_cons, List.flatMap_cons, ← ih]
      cases x with
      | plain t => exact splitFrom_plain hx
      | comment lead c inner =>
          have hsplit := splitFrom_comment hx.1 hx.held.1 fun b hb =>
            hahead c (by simp [Block.tokens]) b hb
          cases lead with
          | none => exact hsplit
          | some t =>
              have ht := (hx.2.2.1 t (by simp)).1
              show splitFrom (t :: (c :: inner ++ rest.flatMap Block.tokens)) = _
              rw [splitFrom_plain ht, List.cons_append, hsplit]
              rfl

/-! ## Sorting again, and deduplication -/

theorem Ahead.inside (h : Ahead a b) (hin : Inside t b) : Ahead a t := by
  unfold Inside at hin
  unfold Ahead at *
  omega

/-- What is made of blocks one by one keeps the order of the blocks. -/
theorem pairwise_flatMap_blocks {R : AbsoluteToken → AbsoluteToken → Prop} {blocks : List Block}
    {out : Block → List AbsoluteToken} (hR : ∀ a b, Ahead a b → R a b)
    (hout : ∀ x ∈ blocks, (out x).Pairwise R ∧ ∀ f ∈ out x, ∃ a ∈ x.tokens, Inside f a)
    (hbefore : blocks.Pairwise Block.Before) : (blocks.flatMap out).Pairwise R := by
  rw [List.pairwise_flatMap]
  refine ⟨fun x hx => (hout x hx).1, ?_⟩
  apply List.Pairwise.imp_of_mem _ hbefore
  intro x y hx hy hxy f hf g hg
  have ⟨a, ha, hfa⟩ := (hout x hx).2 f hf
  have ⟨b, hb, hgb⟩ := (hout y hy).2 g hg
  exact hR f g ((hfa.ahead (hxy a ha b hb)).inside hgb)

theorem Inside.refl (t : AbsoluteToken) : Inside t t := ⟨rfl, Nat.le_refl _, Nat.le_refl _⟩

namespace Block

theorem inside_split {x : Block} (hx : x.Valid) : ∀ f ∈ x.split, ∃ a ∈ x.tokens, Inside f a := by
  intro f hf
  cases x with
  | plain t =>
      rw [List.mem_singleton.mp hf]
      exact ⟨t, by simp [tokens], Inside.refl t⟩
  | comment lead c inner =>
      rcases List.mem_append.mp hf with hf | hf
      · exact ⟨f, List.mem_append_left _ hf, Inside.refl f⟩
      · have := hx.pieces.within f hf
        exact ⟨c, by simp [tokens], this.1, this.2.1, this.2.2⟩

theorem sorted_split {x : Block} (hx : x.Valid) :
    x.split.Pairwise fun a b => positionLe a b = true := by
  cases x with
  | plain t => exact List.pairwise_singleton _ _
  | comment lead c inner =>
      have hpieces := hx.pieces
      refine List.pairwise_append.mpr ⟨?_, hpieces.ordered.imp Ahead.le, ?_⟩
      · cases lead with
        | none => exact List.Pairwise.nil
        | some t => exact List.pairwise_singleton _ _
      · intro t ht f hf
        have hs := hx.2.1 t (Option.mem_toList.mp ht)
        have := hpieces.within f hf
        unfold SameStart at hs
        rw [positionLe_iff]
        omega

end Block

theorem sortByPosition_split {blocks : List Block} (hvalid : ∀ x ∈ blocks, x.Valid)
    (hbefore : blocks.Pairwise Block.Before) :
    sortByPosition (blocks.flatMap Block.split) = blocks.flatMap Block.split := by
  apply List.mergeSort_of_pairwise
  exact pairwise_flatMap_blocks (fun _ _ => Ahead.le)
    (fun x hx => ⟨Block.sorted_split (hvalid x hx), Block.inside_split (hvalid x hx)⟩) hbefore

theorem Ahead.not_sameStart (h : Ahead a b) : ¬ SameStart a b := by
  have := a.startChar_lt_stop
  unfold Ahead at h
  unfold SameStart
  omega

theorem sameStart_keepLonger : SameStart (keepLonger a b) t ↔ SameStart a t := by
  unfold keepLonger
  split
  · rfl
  · rfl

theorem keepLonger_eq (hs : SameStart a b) :
    keepLonger a b = if a.length < b.length then b else a := by
  unfold keepLonger
  split
  · obtain ⟨hline, hstart⟩ := hs
    cases a
    cases b
    simp_all
  · rfl

theorem dedupFrom_append {xs ys : List AbsoluteToken}
    (h : ∀ x ∈ a :: xs, ∀ y ∈ ys, ¬ SameStart x y) :
    dedupFrom a (xs ++ ys) = dedupFrom a xs ++ dedupSameStart ys := by
  induction xs generalizing a with
  | nil =>
      cases ys with
      | nil => rfl
      | cons y ys =>
          show (if SameStart a y then dedupFrom (keepLonger a y) ys else a :: dedupFrom y ys) = _
          rw [if_neg (h a (by simp) y (by simp))]
          rfl
  | cons x xs ih =>
      rw [List.cons_append, dedupFrom, dedupFrom]
      by_cases hs : SameStart a x
      · rw [if_pos hs, if_pos hs]
        apply ih
        intro z hz y hy
        rcases List.mem_cons.mp hz with rfl | hz
        · rw [sameStart_keepLonger]
          exact h a (by simp) y hy
        · exact h z (by simp [hz]) y hy
      · rw [if_neg hs, if_neg hs, ih fun z hz => h z (List.mem_cons_of_mem a hz)]
        rfl

theorem dedupSameStart_append {xs ys : List AbsoluteToken}
    (h : ∀ x ∈ xs, ∀ y ∈ ys, ¬ SameStart x y) :
    dedupSameStart (xs ++ ys) = dedupSameStart xs ++ dedupSameStart ys := by
  cases xs with
  | nil => rfl
  | cons a xs => exact dedupFrom_append h

theorem dedupSameStart_of_ordered {xs : List AbsoluteToken} (h : xs.Pairwise Ahead) :
    dedupSameStart xs = xs := by
  induction xs with
  | nil => rfl
  | cons a xs ih =>
      have ⟨hfirst, hrest⟩ := List.pairwise_cons.mp h
      cases xs with
      | nil => rfl
      | cons b xs =>
          show dedupFrom a (b :: xs) = _
          rw [dedupFrom, if_neg (hfirst b (by simp)).not_sameStart]
          exact congrArg _ (ih hrest)

namespace Block

/-- What deduplication makes of a split block. -/
def sent (x : Block) : List AbsoluteToken := dedupSameStart x.split

/-- The lead ends where the piece of the comment that starts with it does. -/
def Fits : Block → Prop
  | comment (some t) c inner => t.stop = (inner.head?.map startChar).getD c.stop
  | _ => True

/-- The first piece of a comment with a lead. -/
theorem Valid.first {t : AbsoluteToken} (h : (comment (some t) c inner).Valid) :
    ∃ first more, splitComment c inner = first :: more ∧ SameStart t first ∧
      first.isComment = true ∧ first.stop = (inner.head?.map startChar).getD c.stop ∧
      t.stop ≤ first.stop := by
  have hs := h.2.1 t rfl
  have htc := (h.2.2.1 t (by simp)).2
  unfold splitComment
  cases inner with
  | nil => exact ⟨c, [], rfl, hs, h.1, rfl, htc.2.2⟩
  | cons u rest =>
      have huc := (h.2.2.1 u (by simp)).2
      have hahead : Ahead t u := (List.pairwise_cons.mp h.2.2.2).1 u (by simp)
      have hpos := t.startChar_lt_stop
      unfold SameStart at hs
      unfold Inside at htc huc
      unfold Ahead at hahead
      have hlt : c.startChar < u.startChar := by omega
      refine ⟨fragment c.line hlt, u :: fragmentsFrom c u.stop rest, ?_, ⟨hs.1, hs.2⟩, rfl, ?_, ?_⟩
      · rw [if_neg (by simp), fragmentsFrom, dif_pos hlt]
        rfl
      · rw [fragment_stop]
        rfl
      · rw [fragment_stop]
        omega

/-- What is sent of a comment with a lead: the longer of the lead and the piece
that starts with it, and the other pieces. -/
theorem Valid.sent_lead {t first : AbsoluteToken} {more : List AbsoluteToken}
    (h : (comment (some t) c inner).Valid) (hsplit : splitComment c inner = first :: more)
    (hs : SameStart t first) :
    (comment (some t) c inner).sent = (if t.length < first.length then first else t) :: more := by
  have hordered := h.pieces.ordered
  rw [hsplit] at hordered
  have ⟨hfirst, hmore⟩ := List.pairwise_cons.mp hordered
  show dedupFrom t (splitComment c inner) = _
  rw [hsplit, dedupFrom, if_pos hs, keepLonger_eq hs]
  have hone : ∀ x : AbsoluteToken, SameStart x first → dedupFrom x more = x :: more := by
    intro x hx
    cases more with
    | nil => rfl
    | cons y more =>
        rw [dedupFrom, if_neg]
        · exact congrArg _ (dedupSameStart_of_ordered hmore)
        · intro hxy
          apply (hfirst y (by simp)).not_sameStart
          unfold SameStart at *
          omega
  split
  · exact hone first ⟨rfl, rfl⟩
  · exact hone t hs

theorem sent_comment {c : AbsoluteToken} (h : (comment none c inner).Valid) :
    (comment none c inner).sent = splitComment c inner :=
  dedupSameStart_of_ordered h.pieces.ordered

theorem length_lt_iff_not_fits {t first : AbsoluteToken} (hs : SameStart t first)
    (hstop : first.stop = (inner.head?.map startChar).getD c.stop) (hle : t.stop ≤ first.stop) :
    t.length < first.length ↔ ¬ (comment (some t) c inner).Fits := by
  show _ ↔ ¬ t.stop = (inner.head?.map startChar).getD c.stop
  rw [← hstop]
  unfold SameStart at hs
  unfold AbsoluteToken.stop at *
  omega

end Block

/-! ## What is sent of each block -/

namespace Block

/-- What is sent of a block stays inside it, in order. -/
theorem ordered_sent {x : Block} (hx : x.Valid) :
    x.sent.Pairwise Ahead ∧ ∀ f ∈ x.sent, ∃ a ∈ x.tokens, Inside f a := by
  cases x with
  | plain t =>
      refine ⟨List.pairwise_singleton _ _, ?_⟩
      intro f hf
      exact ⟨t, by simp [tokens], List.mem_singleton.mp hf ▸ Inside.refl t⟩
  | comment lead c inner =>
      have hpieces := hx.pieces
      have hinside : ∀ f ∈ splitComment c inner, ∃ a ∈ (comment lead c inner).tokens, Inside f a := by
        intro f hf
        have := hpieces.within f hf
        exact ⟨c, by simp [tokens], this.1, this.2.1, this.2.2⟩
      cases lead with
      | none =>
          rw [sent_comment hx]
          exact ⟨hpieces.ordered, hinside⟩
      | some t =>
          have ⟨first, more, hsplit, hs, _, _, hle⟩ := hx.first
          rw [hx.sent_lead hsplit hs]
          rw [hsplit] at hinside
          have hordered := hpieces.ordered
          rw [hsplit] at hordered
          have ⟨hfirst, hmore⟩ := List.pairwise_cons.mp hordered
          by_cases hlt : t.length < first.length
          · rw [if_pos hlt]
            exact ⟨hordered, hinside⟩
          · rw [if_neg hlt]
            constructor
            · refine List.pairwise_cons.mpr ⟨?_, hmore⟩
              intro m hm
              have := hfirst m hm
              unfold SameStart at hs
              unfold Ahead at *
              omega
            · intro f hf
              rcases List.mem_cons.mp hf with rfl | hf
              · exact ⟨f, by simp [tokens], Inside.refl f⟩
              · exact hinside f (by simp [hf])

/-- A block whose lead fits is sent with all its tokens that are no comments. -/
theorem plain_sent {x : Block} (hx : x.Valid) (hfits : x.Fits) :
    x.sent.filter (fun t => !t.isComment) = x.tokens.filter fun t => !t.isComment := by
  cases x with
  | plain t => rfl
  | comment lead c inner =>
      have hpieces := hx.pieces
      have hinner : inner.filter (fun t => !t.isComment) = inner := by
        rw [List.filter_eq_self]
        intro t ht
        simp [(hx.held.1 t ht).1]
      have hplain : (comment lead c inner).tokens.filter (fun t => !t.isComment) =
          lead.toList.filter (fun t => !t.isComment) ++ inner := by
        show (lead.toList ++ c :: inner).filter _ = _
        rw [List.filter_append, List.filter_cons_of_neg (by simp [hx.1]), hinner]
      rw [hplain]
      cases lead with
      | none =>
          rw [sent_comment hx, hpieces.plain]
          rfl
      | some t =>
          have ⟨first, more, hsplit, hs, hcomment, hstop, hle⟩ := hx.first
          have hlt : ¬ t.length < first.length := by
            rw [length_lt_iff_not_fits hs hstop hle]
            exact not_not.mpr hfits
          have hmore := hpieces.plain
          rw [hsplit, List.filter_cons_of_neg (by simp [hcomment])] at hmore
          have ht : (!t.isComment) = true := by simp [(hx.2.2.1 t (by simp)).1]
          rw [hx.sent_lead hsplit hs, if_neg hlt]
          simp only [Option.toList_some, List.filter_cons, ht, if_true, hmore, List.filter_nil,
            List.singleton_append]

/-- A block whose lead fits is sent with the columns that only its comment covers. -/
theorem covers_sent {x : Block} (hx : x.Valid) (hfits : x.Fits) (line col : Nat) :
    (∃ f ∈ x.sent, f.isComment = true ∧ Covers f line col) ↔
      (∃ c ∈ x.tokens, c.isComment = true ∧ Covers c line col) ∧
        ¬ ∃ t ∈ x.tokens, t.isComment = false ∧ Covers t line col := by
  cases x with
  | plain t =>
      have ht : t.isComment = false := hx
      constructor
      · rintro ⟨f, hf, hcomment, _⟩
        rw [List.mem_singleton.mp hf, ht] at hcomment
        exact absurd hcomment (by decide)
      · rintro ⟨⟨f, hf, hcomment, _⟩, _⟩
        rw [List.mem_singleton.mp hf, ht] at hcomment
        exact absurd hcomment (by decide)
  | comment lead c inner =>
      have hcovers := hx.pieces.covers line col
      have hcomment : (∃ d ∈ (comment lead c inner).tokens, d.isComment = true ∧ Covers d line col) ↔
          Covers c line col := by
        constructor
        · rintro ⟨d, hd, hdc, hcol⟩
          rcases List.mem_append.mp hd with hd | hd
          · have := (hx.2.2.1 d (List.mem_append_left _ hd)).1
            exact absurd (hdc.symm.trans this) (by decide)
          · rcases List.mem_cons.mp hd with rfl | hd
            · exact hcol
            · exact absurd (hdc.symm.trans (hx.held.1 d hd).1) (by decide)
        · intro hcol
          exact ⟨c, by simp [tokens], hx.1, hcol⟩
      have hplain : (∃ t ∈ (comment lead c inner).tokens, t.isComment = false ∧ Covers t line col) ↔
          (∃ t ∈ lead, Covers t line col) ∨ ∃ t ∈ inner, Covers t line col := by
        constructor
        · rintro ⟨t, ht, htc, hcol⟩
          rcases List.mem_append.mp ht with ht | ht
          · exact Or.inl ⟨t, Option.mem_toList.mp ht, hcol⟩
          · rcases List.mem_cons.mp ht with rfl | ht
            · exact absurd (htc.symm.trans hx.1) (by decide)
            · exact Or.inr ⟨t, ht, hcol⟩
        · rintro (⟨t, ht, hcol⟩ | ⟨t, ht, hcol⟩)
          · have hmem : t ∈ lead.toList := Option.mem_toList.mpr ht
            exact ⟨t, List.mem_append_left _ hmem, (hx.2.2.1 t (List.mem_append_left _ hmem)).1, hcol⟩
          · exact ⟨t, by simp [tokens, ht], (hx.held.1 t ht).1, hcol⟩
      rw [hcomment, hplain]
      cases lead with
      | none =>
          rw [sent_comment hx, hcovers]
          simp only [Option.mem_def, reduceCtorEq, false_and, exists_false, false_or, Covers]
          constructor
          · rintro ⟨hl, hfrom, hto, hnone⟩
            exact ⟨⟨hl.symm, hfrom, hto⟩, hnone⟩
          · rintro ⟨⟨hl, hfrom, hto⟩, hnone⟩
            exact ⟨hl.symm, hfrom, hto, hnone⟩
      | some t =>
          have ⟨first, more, hsplit, hs, hfirst, hstop, hle⟩ := hx.first
          have htc := (hx.2.2.1 t (by simp)).2
          have htplain := (hx.2.2.1 t (by simp)).1
          have heq : t.stop = first.stop := by
            rw [hstop]
            exact hfits
          have hlt : ¬ t.length < first.length := by
            rw [length_lt_iff_not_fits hs hstop hle]
            exact not_not.mpr hfits
          have hordered := hx.pieces.ordered
          rw [hsplit] at hordered hcovers
          have hahead := (List.pairwise_cons.mp hordered).1
          rw [hx.sent_lead hsplit hs, if_neg hlt]
          unfold SameStart at hs
          constructor
          · rintro ⟨f, hf, hfc, hcol⟩
            rcases List.mem_cons.mp hf with rfl | hf
            · exact absurd (hfc.symm.trans htplain) (by decide)
            · have ⟨hl, hfrom, hto, hnone⟩ := hcovers.mp ⟨f, by simp [hf], hfc, hcol⟩
              refine ⟨⟨hl.symm, hfrom, hto⟩, ?_⟩
              rintro (⟨u, hu, hucol⟩ | hu)
              · rw [← Option.some.inj hu] at hucol
                have := hahead f hf
                unfold Ahead at this
                unfold Covers at hucol hcol
                omega
              · exact hnone hu
          · rintro ⟨⟨hl, hfrom, hto⟩, hnone⟩
            have ⟨f, hf, hfc, hcol⟩ := hcovers.mpr ⟨hl.symm, hfrom, hto, fun h => hnone (Or.inr h)⟩
            rcases List.mem_cons.mp hf with rfl | hf
            · apply absurd _ hnone
              refine Or.inl ⟨t, rfl, ?_⟩
              unfold Covers at hcol ⊢
              omega
            · exact ⟨f, by simp [hf], hfc, hcol⟩

end Block

/-! ## All the passes -/

section Passes

variable {tokens : List AbsoluteToken} {blocks : List Block}

theorem dedupSameStart_split (hvalid : ∀ x ∈ blocks, x.Valid)
    (hbefore : blocks.Pairwise Block.Before) :
    dedupSameStart (blocks.flatMap Block.split) = blocks.flatMap Block.sent := by
  induction blocks with
  | nil => rfl
  | cons x rest ih =>
      have ⟨hfirst, hrest⟩ := List.pairwise_cons.mp hbefore
      rw [List.flatMap_cons, List.flatMap_cons, dedupSameStart_append,
        ih (fun y hy => hvalid y (by simp [hy])) hrest]
      · rfl
      · intro f hf g hg
        have ⟨y, hy, hgy⟩ := List.mem_flatMap.mp hg
        have ⟨a, ha, hfa⟩ := Block.inside_split (hvalid x (by simp)) f hf
        have ⟨b, hb, hgb⟩ := Block.inside_split (hvalid y (by simp [hy])) g hgy
        exact ((hfa.ahead (hfirst y hy a ha b hb)).inside hgb).not_sameStart

theorem positionLe_trans_all (a b c : AbsoluteToken) (h : positionLe a b = true)
    (h' : positionLe b c = true) : positionLe a c = true :=
  positionLe_trans h h'

/-- The blocks of collected tokens, and what the client reads of them. -/
theorem exists_sent_blocks (h : Layout tokens) :
    ∃ blocks : List Block, sortByPosition tokens = blocks.flatMap Block.tokens ∧
      (∀ x ∈ blocks, x.Valid) ∧ blocks.Pairwise Block.Before ∧
      (sortByPosition tokens).Pairwise Follows ∧
      decodeDeltas (encodedTokens tokens) = blocks.flatMap Block.sent := by
  have hsorted : (sortByPosition tokens).Pairwise fun a b => positionLe a b = true :=
    List.pairwise_mergeSort positionLe_trans_all positionLe_total tokens
  have hfollows : (sortByPosition tokens).Pairwise Follows :=
    follows_of_layout (h.perm (List.mergeSort_perm tokens positionLe)) hsorted
  have ⟨blocks, htokens, hvalid, hbefore⟩ := exists_blocks hfollows
  refine ⟨blocks, htokens, hvalid, hbefore, hfollows, ?_⟩
  rw [encodedTokens, splitCommentsAroundInner, htokens, splitFrom_blocks hvalid hbefore,
    sortByPosition_split hvalid hbefore, dedupSameStart_split hvalid hbefore]
  apply decodeDeltas_encodeDeltas
  exact pairwise_flatMap_blocks (fun _ _ h => h) (fun x hx => Block.ordered_sent (hvalid x hx)) hbefore

/-- Tokens that cover one column are of one block. -/
theorem block_of_covers {x y : Block} {line col : Nat} (hbefore : blocks.Pairwise Block.Before)
    (hx : x ∈ blocks) (hy : y ∈ blocks) (ha : a ∈ x.tokens) (hb : b ∈ y.tokens)
    (hcol : Covers a line col) (hcol' : Covers b line col) : x = y := by
  by_contra hne
  have hsymm : Std.Symm fun x y : Block => Block.Before x y ∨ Block.Before y x :=
    ⟨fun _ _ h => Or.symm h⟩
  have happart : blocks.Pairwise fun x y => Block.Before x y ∨ Block.Before y x :=
    hbefore.imp Or.inl
  rcases happart.forall hx hy hne with h | h
  · exact (h a ha b hb).not_covers hcol hcol'
  · exact (h b hb a ha).not_covers hcol' hcol

/-- Two tokens come in one order only. -/
theorem not_sublist_both {xs : List AbsoluteToken} (hnodup : xs.Nodup) (h : [a, b].Sublist xs)
    (h' : [b, a].Sublist xs) : False := by
  induction xs with
  | nil => cases h
  | cons x xs ih =>
      have ⟨hx, hxs⟩ := List.nodup_cons.mp hnodup
      cases h with
      | cons _ h =>
          cases h' with
          | cons _ h' => exact ih hxs h h'
          | cons_cons _ _ => exact hx (h.subset (by simp))
      | cons_cons _ h =>
          cases h' with
          | cons _ h' => exact hx (h'.subset (by simp))
          | cons_cons _ _ => exact hx (h.subset (by simp))

theorem sublist_or_sublist {xs : List AbsoluteToken} (ha : a ∈ xs) (hb : b ∈ xs) (hne : a ≠ b) :
    [a, b].Sublist xs ∨ [b, a].Sublist xs := by
  induction xs with
  | nil => exact absurd ha List.not_mem_nil
  | cons x xs ih =>
      by_cases hax : a = x
      · subst hax
        have hb := (List.mem_cons.mp hb).resolve_left (Ne.symm hne)
        exact Or.inl ((List.singleton_sublist.mpr hb).cons_cons a)
      · have ha' := (List.mem_cons.mp ha).resolve_left hax
        by_cases hbx : b = x
        · subst hbx
          exact Or.inr ((List.singleton_sublist.mpr ha').cons_cons b)
        · have hb' := (List.mem_cons.mp hb).resolve_left hbx
          exact (ih ha' hb').imp (fun h => h.cons x) fun h => h.cons x

/-- Two tokens that start together keep the order they were collected in. -/
theorem sublist_sort_iff (hfollows : (sortByPosition tokens).Pairwise Follows) (hne : t ≠ c)
    (hs : SameStart t c) : [t, c].Sublist (sortByPosition tokens) ↔ [t, c].Sublist tokens := by
  have hstable : ∀ a b : AbsoluteToken, SameStart a b → [a, b].Sublist tokens →
      [a, b].Sublist (sortByPosition tokens) := by
    intro a b hab h
    have hpair : [a, b].Pairwise fun a b => positionLe a b = true := by
      rw [List.pairwise_pair, positionLe_iff]
      unfold SameStart at hab
      omega
    exact List.sublist_mergeSort positionLe_trans_all positionLe_total hpair h
  constructor
  · intro h
    have hperm := List.mergeSort_perm tokens positionLe
    have ht : t ∈ tokens := hperm.mem_iff.mp (h.subset (by simp))
    have hc : c ∈ tokens := hperm.mem_iff.mp (h.subset (by simp))
    rcases sublist_or_sublist ht hc hne with hsub | hsub
    · exact hsub
    · have hback := hstable c t ⟨hs.1.symm, hs.2.symm⟩ hsub
      exact (not_sublist_both (hfollows.imp Follows.ne) h hback).elim
  · exact hstable t c hs

/-- The ties fit when the lead of every block does. -/
theorem tiesFit_iff (htokens : sortByPosition tokens = blocks.flatMap Block.tokens)
    (hvalid : ∀ x ∈ blocks, x.Valid) (hbefore : blocks.Pairwise Block.Before)
    (hfollows : (sortByPosition tokens).Pairwise Follows) :
    TiesFit tokens ↔ ∀ x ∈ blocks, x.Fits := by
  have hmem : ∀ u, u ∈ tokens ↔ ∃ x ∈ blocks, u ∈ x.tokens := by
    intro u
    rw [← (List.mergeSort_perm tokens positionLe).mem_iff]
    show u ∈ sortByPosition tokens ↔ _
    rw [htokens, List.mem_flatMap]
  have hsublist : ∀ x ∈ blocks, x.tokens.Sublist (sortByPosition tokens) := by
    intro x hx
    rw [htokens]
    exact List.sublist_flatten_of_mem (List.mem_map_of_mem hx)
  constructor
  · intro hties x hx
    cases x with
    | plain t => trivial
    | comment lead c inner =>
        cases lead with
        | none => trivial
        | some t =>
            have hvx := hvalid _ hx
            have hs : SameStart t c := hvx.2.1 t rfl
            have ⟨htplain, htc⟩ := hvx.2.2.1 t (by simp)
            have ⟨first, more, hsplit, _, _, hstop, hle⟩ := hvx.first
            have htc' : t ≠ c := by
              rintro rfl
              exact absurd (hvx.1.symm.trans htplain) (by decide)
            have hsub : [t, c].Sublist (sortByPosition tokens) :=
              (((List.nil_sublist inner).cons_cons c).cons_cons t).trans (hsublist _ hx)
            have htie := hties t c ((sublist_sort_iff hfollows htc' hs).mp hsub) htplain hvx.1 hs
            have hnext : t.stop = c.stop ∨ ∃ u ∈ inner, u.startChar = t.stop := by
              rcases htie with heq | ⟨u, hu, huplain, hline, hstart⟩
              · exact Or.inl heq
              · by_cases heq : t.stop = c.stop
                · exact Or.inl heq
                · have hpos := t.startChar_lt_stop
                  have hupos := u.startChar_lt_stop
                  have ⟨y, hy, huy⟩ := (hmem u).mp hu
                  have hcol : Covers c u.line u.startChar := by
                    unfold Inside at htc
                    unfold Covers
                    omega
                  have hyx : y = Block.comment (some t) c inner :=
                    block_of_covers hbefore hy hx huy (by simp [Block.tokens])
                      ⟨rfl, Nat.le_refl _, hupos⟩ hcol
                  rw [hyx] at huy
                  rcases List.mem_cons.mp huy with rfl | huy
                  · omega
                  · rcases List.mem_cons.mp huy with rfl | huy
                    · exact absurd (hvx.1.symm.trans huplain) (by decide)
                    · exact Or.inr ⟨u, huy, hstart⟩
            show t.stop = (inner.head?.map startChar).getD c.stop
            cases inner with
            | nil => simpa using hnext
            | cons w rest =>
                rw [hstop] at hle
                show t.stop = w.startChar
                have hle : t.stop ≤ w.startChar := hle
                have hpos := w.startChar_lt_stop
                have hwc := (hvx.held.1 w (by simp)).2.2.2
                rcases hnext with heq | ⟨u, hu, hstart⟩
                · omega
                · rcases List.mem_cons.mp hu with rfl | hu
                  · exact hstart.symm
                  · have hwu := (List.pairwise_cons.mp hvx.held.2).1 u hu
                    have hline := (hvx.held.1 w (by simp)).2.1
                    have hline' := (hvx.held.1 u (by simp [hu])).2.1
                    unfold Ahead at hwu
                    omega
  · intro hfits t c hsub htplain hcomment hs
    have htc : t ≠ c := by
      rintro rfl
      exact absurd (hcomment.symm.trans htplain) (by decide)
    have hsorted := (sublist_sort_iff hfollows htc hs).mpr hsub
    have ⟨x, hx, htx⟩ := (hmem t).mp (hsub.subset (by simp))
    have ⟨y, hy, hcy⟩ := (hmem c).mp (hsub.subset (by simp))
    have hcol : Covers c t.line t.startChar := by
      have := c.startChar_lt_stop
      unfold SameStart at hs
      unfold Covers
      omega
    have hyx := block_of_covers hbefore hx hy htx hcy ⟨rfl, Nat.le_refl _, t.startChar_lt_stop⟩ hcol
    rw [← hyx] at hcy
    have hvx := hvalid x hx
    cases x with
    | plain s =>
        have hts := List.mem_singleton.mp htx
        have hcs := List.mem_singleton.mp hcy
        exact absurd (hts.trans hcs.symm) htc
    | comment lead d inner =>
        have hd : c = d := by
          rcases List.mem_append.mp hcy with hcy | hcy
          · have := (hvx.2.2.1 c (List.mem_append_left _ hcy)).1
            exact absurd (hcomment.symm.trans this) (by decide)
          · rcases List.mem_cons.mp hcy with hcy | hcy
            · exact hcy
            · exact absurd (hcomment.symm.trans (hvx.held.1 c hcy).1) (by decide)
        subst hd
        rcases List.mem_append.mp htx with htl | hti
        · rw [Option.mem_toList] at htl
          subst htl
          have hfit : t.stop = (inner.head?.map startChar).getD c.stop := hfits _ hx
          cases inner with
          | nil => exact Or.inl hfit
          | cons w rest =>
              have hw := hvx.held.1 w (by simp)
              refine Or.inr ⟨w, (hmem w).mpr ⟨_, hx, by simp [Block.tokens]⟩, hw.1, ?_, hfit.symm⟩
              exact hw.2.1.trans hs.1.symm
        · have hti := (List.mem_cons.mp hti).resolve_left htc
          have hback : [c, t].Sublist (sortByPosition tokens) :=
            (((List.singleton_sublist.mpr hti).cons_cons c).trans
              (List.sublist_append_right lead.toList (c :: inner))).trans (hsublist _ hx)
          exact (not_sublist_both (hfollows.imp Follows.ne) hsorted hback).elim

/-- Blocks whose leads fit are sent faithfully. -/
theorem faithful_of_fits (hperm : (blocks.flatMap Block.tokens).Perm tokens)
    (hvalid : ∀ x ∈ blocks, x.Valid) (hbefore : blocks.Pairwise Block.Before)
    (hfits : ∀ x ∈ blocks, x.Fits) : Faithful tokens (blocks.flatMap Block.sent) where
  ordered := pairwise_flatMap_blocks (fun _ _ h => h)
    (fun x hx => Block.ordered_sent (hvalid x hx)) hbefore
  plain := by
    have hsame : (blocks.flatMap Block.sent).filter (fun t => !t.isComment) =
        (blocks.flatMap Block.tokens).filter fun t => !t.isComment := by
      rw [List.filter_flatMap, List.filter_flatMap]
      exact List.flatMap_congr fun x hx => Block.plain_sent (hvalid x hx) (hfits x hx)
    rw [hsame]
    exact hperm.filter _
  comments line col := by
    have hmem : ∀ u, u ∈ tokens ↔ ∃ x ∈ blocks, u ∈ x.tokens := by
      intro u
      rw [← hperm.mem_iff, List.mem_flatMap]
    constructor
    · rintro ⟨f, hf, hcomment, hcol⟩
      have ⟨x, hx, hfx⟩ := List.mem_flatMap.mp hf
      have ⟨⟨c, hc, hcc, hccol⟩, hnone⟩ :=
        (Block.covers_sent (hvalid x hx) (hfits x hx) line col).mp ⟨f, hfx, hcomment, hcol⟩
      refine ⟨⟨c, (hmem c).mpr ⟨x, hx, hc⟩, hcc, hccol⟩, ?_⟩
      rintro ⟨t, ht, htc, htcol⟩
      have ⟨y, hy, hty⟩ := (hmem t).mp ht
      have hxy := block_of_covers hbefore hx hy hc hty hccol htcol
      exact hnone ⟨t, hxy ▸ hty, htc, htcol⟩
    · rintro ⟨⟨c, hc, hcc, hccol⟩, hnone⟩
      have ⟨x, hx, hcx⟩ := (hmem c).mp hc
      have ⟨f, hf, hfc, hfcol⟩ := (Block.covers_sent (hvalid x hx) (hfits x hx) line col).mpr
        ⟨⟨c, hcx, hcc, hccol⟩, fun ⟨t, ht, htc, htcol⟩ =>
          hnone ⟨t, (hmem t).mpr ⟨x, hx, ht⟩, htc, htcol⟩⟩
      exact ⟨f, List.mem_flatMap.mpr ⟨x, hx, hf⟩, hfc, hfcol⟩

/-- A lead that does not fit is lost. -/
theorem fits_of_faithful (hperm : (blocks.flatMap Block.tokens).Perm tokens)
    (hvalid : ∀ x ∈ blocks, x.Valid) (h : Faithful tokens (blocks.flatMap Block.sent)) :
    ∀ x ∈ blocks, x.Fits := by
  intro x hx
  cases x with
  | plain t => trivial
  | comment lead c inner =>
      cases lead with
      | none => trivial
      | some t =>
          have hvx := hvalid _ hx
          have ⟨first, more, hsplit, hs, hcomment, hstop, hle⟩ := hvx.first
          by_contra hmisfit
          have hlt := (Block.length_lt_iff_not_fits hs hstop hle).mpr hmisfit
          have hsent := hvx.sent_lead hsplit hs
          rw [if_pos hlt] at hsent
          have hfirst : first ∈ blocks.flatMap Block.sent :=
            List.mem_flatMap.mpr ⟨_, hx, by rw [hsent]; simp⟩
          have ht : t.isComment = false := (hvx.2.2.1 t (by simp)).1
          -- the lead is to be sent, beside the piece that starts with it
          have htokens : t ∈ tokens.filter fun t => !t.isComment := by
            refine List.mem_filter.mpr ⟨hperm.mem_iff.mp ?_, by simp [ht]⟩
            exact List.mem_flatMap.mpr ⟨_, hx, by simp [Block.tokens]⟩
          have htsent : t ∈ blocks.flatMap Block.sent :=
            List.mem_of_mem_filter (h.plain.mem_iff.mpr htokens)
          have hne : t ≠ first := by
            rintro rfl
            exact absurd (hcomment.symm.trans ht) (by decide)
          have hsymm : Std.Symm Apart := ⟨fun _ _ => Apart.symm⟩
          have hapart : (blocks.flatMap Block.sent).Pairwise Apart := h.ordered.imp Or.inl
          rcases hapart.forall htsent hfirst hne with hap | hap
          · exact hap.not_sameStart hs
          · exact hap.not_sameStart ⟨hs.1.symm, hs.2.symm⟩

/-- What the client reads is what was collected exactly when the ties fit. -/
theorem encodedTokens_faithful_iff (h : Layout tokens) :
    Faithful tokens (decodeDeltas (encodedTokens tokens)) ↔ TiesFit tokens := by
  have ⟨blocks, htokens, hvalid, hbefore, hfollows, hsent⟩ := exists_sent_blocks h
  have hperm : (blocks.flatMap Block.tokens).Perm tokens := by
    rw [← htokens]
    exact List.mergeSort_perm tokens positionLe
  rw [hsent, tiesFit_iff htokens hvalid hbefore hfollows]
  constructor
  · exact fits_of_faithful hperm hvalid
  · exact faithful_of_fits hperm hvalid hbefore

end Passes

/-- A keyword of four columns in a comment of ten. -/
theorem encodedTokens_faithful_keyword :
    let tokens : List AbsoluteToken :=
      [⟨0, 0, 10, ttComment, 0, by decide⟩, ⟨0, 0, 4, 13, 0, by decide⟩]
    Faithful tokens (decodeDeltas (encodedTokens tokens)) := by
  intro tokens
  apply (encodedTokens_faithful_iff ⟨by decide, by decide, by decide⟩).mpr
  intro t c hsub ht
  have heq := hsub.eq_of_length rfl
  rw [(List.cons.inj heq).1] at ht
  exact absurd ht (by decide)

/-- A keyword collected before the comment that starts with it is swallowed. -/
theorem keyword_swallowed :
    let tokens : List AbsoluteToken :=
      [⟨0, 0, 4, 13, 0, by decide⟩, ⟨0, 0, 10, ttComment, 0, by decide⟩]
    Layout tokens ∧ ¬ Faithful tokens (decodeDeltas (encodedTokens tokens)) := by
  intro tokens
  have hsorted : sortByPosition tokens = tokens := List.mergeSort_of_pairwise (by decide)
  have hsplit : splitCommentsAroundInner tokens = tokens := by
    rw [splitCommentsAroundInner, hsorted]
    simp [tokens, splitFrom, isComment, ttComment, collectInner]
  have hencoded : encodedTokens tokens = encodeDeltas (dedupSameStart tokens) := by
    rw [encodedTokens, hsplit, hsorted]
  refine ⟨⟨by decide, by decide, by decide⟩, fun h => ?_⟩
  rw [hencoded] at h
  exact absurd h.plain.length_eq (by decide)

end PhpantomLsp.SemanticTokens
