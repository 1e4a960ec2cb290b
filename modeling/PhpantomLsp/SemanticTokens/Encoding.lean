import Mathlib.Data.List.Pairwise
import Mathlib.Data.List.Sort

/-!
# Semantic tokens from collection to encoding

The comment tokens are split around the tokens inside them, the tokens are
sorted by position, of two that start together the longer is kept, and each is
encoded relative to the one before it.  No token is collected empty, and a
fragment of a comment is not empty either, so a token carries that its length
is positive.
-/

namespace PhpantomLsp.SemanticTokens

structure AbsoluteToken where
  line : Nat
  startChar : Nat
  length : Nat
  tokenType : Nat
  modifiers : Nat
  length_pos : 0 < length
deriving DecidableEq

/-- `TT_COMMENT` -/
def ttComment : Nat := 14

namespace AbsoluteToken

/-- The column behind the token. -/
def stop (t : AbsoluteToken) : Nat := t.startChar + t.length

def isComment (t : AbsoluteToken) : Bool := t.tokenType == ttComment

/-- The comment columns from `start` to before `stop`. -/
def fragment (line : Nat) {start stop : Nat} (h : start < stop) : AbsoluteToken :=
  ⟨line, start, stop - start, ttComment, 0, Nat.sub_pos_of_lt h⟩

end AbsoluteToken

open AbsoluteToken

/-- The order of the sorts: lines, then columns. -/
def positionLe (a b : AbsoluteToken) : Bool :=
  a.line < b.line || (a.line == b.line && a.startChar ≤ b.startChar)

def sortByPosition (tokens : List AbsoluteToken) : List AbsoluteToken :=
  tokens.mergeSort positionLe

/-! ## Splitting comments -/

/-- The token is one that a comment is split around. -/
def isInner (comment t : AbsoluteToken) : Bool :=
  comment.startChar ≤ t.startChar && t.stop ≤ comment.stop && !t.isComment

/-- The tokens inside a comment, of those behind it on its line, and how many
tokens the search passes. -/
def collectInner (comment : AbsoluteToken) : List AbsoluteToken → List AbsoluteToken × Nat
  | [] => ([], 0)
  | t :: rest =>
      if t.line = comment.line then
        let inner := if isInner comment t then [t] else []
        if comment.stop ≤ t.startChar then (inner, 0)
        else
          let (more, passed) := collectInner comment rest
          (inner ++ more, passed + 1)
      else ([], 0)

/-- The inner tokens with the columns of the comment between them, from `cursor`
on. -/
def fragmentsFrom (comment : AbsoluteToken) (cursor : Nat) :
    List AbsoluteToken → List AbsoluteToken
  | [] => if h : cursor < comment.stop then [fragment comment.line h] else []
  | t :: rest =>
      (if h : cursor < t.startChar then [fragment comment.line h] else []) ++
        t :: fragmentsFrom comment t.stop rest

/-- Pass over inner tokens, `n` at most. -/
def skipInner (comment : AbsoluteToken) : (n : Nat) → List AbsoluteToken → List AbsoluteToken
  | n + 1, t :: rest =>
      if t.line = comment.line ∧ isInner comment t then skipInner comment n rest else t :: rest
  | _, rest => rest

theorem length_skipInner_le (comment : AbsoluteToken) (n : Nat) (rest : List AbsoluteToken) :
    (skipInner comment n rest).length ≤ rest.length := by
  induction n generalizing rest with
  | zero => simp [skipInner]
  | succ n ih =>
      cases rest with
      | nil => simp [skipInner]
      | cons t rest =>
          rw [skipInner]
          split
          · exact Nat.le_succ_of_le (ih rest)
          · exact Nat.le_refl _

/-- The loop over the sorted tokens. -/
def splitFrom : List AbsoluteToken → List AbsoluteToken
  | [] => []
  | t :: rest =>
      if t.isComment then
        let (inner, passed) := collectInner t rest
        if inner.isEmpty then t :: splitFrom rest
        else fragmentsFrom t t.startChar inner ++ splitFrom (skipInner t passed rest)
      else t :: splitFrom rest
termination_by tokens => tokens.length
decreasing_by
  all_goals simp only [List.length_cons]
  · omega
  · have := length_skipInner_le t passed rest
    omega
  · omega

def splitCommentsAroundInner (tokens : List AbsoluteToken) : List AbsoluteToken :=
  splitFrom (sortByPosition tokens)

/-! ## Deduplication and encoding -/

/-- Two tokens start at one place. -/
def SameStart (a b : AbsoluteToken) : Prop := a.line = b.line ∧ a.startChar = b.startChar

instance (a b : AbsoluteToken) : Decidable (SameStart a b) := inferInstanceAs (Decidable (_ ∧ _))

/-- The first token, or the second in its place when that is longer. -/
def keepLonger (a b : AbsoluteToken) : AbsoluteToken :=
  if a.length < b.length then
    { a with
      length := b.length, tokenType := b.tokenType, modifiers := b.modifiers,
      length_pos := b.length_pos }
  else a

/-- `dedup_by`, behind the kept token `a`. -/
def dedupFrom (a : AbsoluteToken) : List AbsoluteToken → List AbsoluteToken
  | [] => [a]
  | b :: rest => if SameStart a b then dedupFrom (keepLonger a b) rest else a :: dedupFrom b rest

def dedupSameStart : List AbsoluteToken → List AbsoluteToken
  | [] => []
  | a :: rest => dedupFrom a rest

/-- `lsp_types::SemanticToken` -/
structure SemanticToken where
  deltaLine : Nat
  deltaStart : Nat
  length : Nat
  tokenType : Nat
  tokenModifiersBitset : Nat
  length_pos : 0 < length
deriving DecidableEq

/-- The loop of `encode_deltas`. -/
def encodeFrom (prevLine prevStart : Nat) : List AbsoluteToken → List SemanticToken
  | [] => []
  | t :: rest =>
      let deltaLine := t.line - prevLine
      let deltaStart := if deltaLine = 0 then t.startChar - prevStart else t.startChar
      ⟨deltaLine, deltaStart, t.length, t.tokenType, t.modifiers, t.length_pos⟩ ::
        encodeFrom t.line t.startChar rest

def encodeDeltas (tokens : List AbsoluteToken) : List SemanticToken := encodeFrom 0 0 tokens

/-- The tokens of a file as they are sent. -/
def encodedTokens (tokens : List AbsoluteToken) : List SemanticToken :=
  encodeDeltas (dedupSameStart (sortByPosition (splitCommentsAroundInner tokens)))

/-! ## What a client reads -/

/-- A client's reading: each token relative to the one before it. -/
def decodeFrom (prevLine prevStart : Nat) : List SemanticToken → List AbsoluteToken
  | [] => []
  | t :: rest =>
      let line := prevLine + t.deltaLine
      let start := if t.deltaLine = 0 then prevStart + t.deltaStart else t.deltaStart
      ⟨line, start, t.length, t.tokenType, t.tokenModifiersBitset, t.length_pos⟩ ::
        decodeFrom line start rest

def decodeDeltas (tokens : List SemanticToken) : List AbsoluteToken := decodeFrom 0 0 tokens

/-- The first token ends before the second starts. -/
def Ahead (a b : AbsoluteToken) : Prop :=
  a.line < b.line ∨ (a.line = b.line ∧ a.stop ≤ b.startChar)

instance (a b : AbsoluteToken) : Decidable (Ahead a b) := inferInstanceAs (Decidable (_ ∨ _))

/-- No column is in both tokens. -/
def Apart (a b : AbsoluteToken) : Prop := Ahead a b ∨ Ahead b a

instance (a b : AbsoluteToken) : Decidable (Apart a b) := inferInstanceAs (Decidable (_ ∨ _))

/-- Every column of the first token is in the second. -/
def Inside (a b : AbsoluteToken) : Prop :=
  a.line = b.line ∧ b.startChar ≤ a.startChar ∧ a.stop ≤ b.stop

instance (a b : AbsoluteToken) : Decidable (Inside a b) := inferInstanceAs (Decidable (_ ∧ _))

def Covers (t : AbsoluteToken) (line col : Nat) : Prop :=
  t.line = line ∧ t.startChar ≤ col ∧ col < t.stop

/-- Tokens as they are collected: those that are no comments are apart, so are
the comments, and a token that is no comment is inside one or apart from all. -/
structure Layout (tokens : List AbsoluteToken) : Prop where
  plain : (tokens.filter fun t => !t.isComment).Pairwise Apart
  comments : (tokens.filter isComment).Pairwise Apart
  nested : ∀ t ∈ tokens, t.isComment = false →
    (∃ c ∈ tokens, c.isComment = true ∧ Inside t c) ∨
      ∀ c ∈ tokens, c.isComment = true → Apart t c

/-- What a client is to see of collected tokens: tokens in order and apart, every
token that is no comment, and the columns that only comments cover. -/
structure Faithful (tokens sent : List AbsoluteToken) : Prop where
  ordered : sent.Pairwise Ahead
  plain : (sent.filter fun t => !t.isComment).Perm (tokens.filter fun t => !t.isComment)
  comments : ∀ line col, (∃ c ∈ sent, c.isComment = true ∧ Covers c line col) ↔
    (∃ c ∈ tokens, c.isComment = true ∧ Covers c line col) ∧
      ¬ ∃ t ∈ tokens, t.isComment = false ∧ Covers t line col

/-- A token collected before the comment it starts with is as long as the piece
of the comment that starts there: it ends where the comment ends, or where
another token inside it starts. -/
def TiesFit (tokens : List AbsoluteToken) : Prop :=
  ∀ t c, [t, c].Sublist tokens → t.isComment = false → c.isComment = true → SameStart t c →
    t.stop = c.stop ∨ ∃ u ∈ tokens, u.isComment = false ∧ u.line = t.line ∧ u.startChar = t.stop

/-! ## Encoding loses nothing -/

/-- Tokens in the order of their positions are read as they were. -/
theorem decodeFrom_encodeFrom {prevLine prevStart : Nat} {tokens : List AbsoluteToken}
    (hhead : ∀ t ∈ tokens.head?, prevLine < t.line ∨ (prevLine = t.line ∧ prevStart ≤ t.startChar))
    (hsorted : tokens.Pairwise Ahead) :
    decodeFrom prevLine prevStart (encodeFrom prevLine prevStart tokens) = tokens := by
  induction tokens generalizing prevLine prevStart with
  | nil => rfl
  | cons t rest ih =>
      have ⟨hfirst, hrest⟩ := List.pairwise_cons.mp hsorted
      have hnext : ∀ u ∈ rest.head?, t.line < u.line ∨ (t.line = u.line ∧ t.startChar ≤ u.startChar) := by
        intro u hu
        have := hfirst u (List.mem_of_mem_head? hu)
        simp only [Ahead, stop] at this
        omega
      have hhead := hhead t (by simp)
      have ih := ih hnext hrest
      simp only [encodeFrom, decodeFrom]
      have hline : prevLine + (t.line - prevLine) = t.line := by omega
      have hstart : (if t.line - prevLine = 0 then
          prevStart + (if t.line - prevLine = 0 then t.startChar - prevStart else t.startChar)
          else if t.line - prevLine = 0 then t.startChar - prevStart else t.startChar) =
          t.startChar := by
        by_cases hzero : t.line - prevLine = 0
        · simp only [hzero, if_true]
          omega
        · simp only [hzero, if_false]
      simp only [hline, hstart, ih]

theorem decodeDeltas_encodeDeltas {tokens : List AbsoluteToken} (h : tokens.Pairwise Ahead) :
    decodeDeltas (encodeDeltas tokens) = tokens := by
  apply decodeFrom_encodeFrom _ h
  intro t _
  omega

end PhpantomLsp.SemanticTokens
