import Mathlib.Data.List.Forall2
import Mathlib.Data.List.Perm.Subperm
import Mathlib.Data.Set.Lattice
import Mathlib.Order.FixedPoints
import Mathlib.Order.CompletePartialOrder
import PhpantomLsp.Diagnostics.DqlProviders

/-!
# Variables left open, and the order of the questions

`Providers::open_uses` follows the calls a builder is handed on with, answers
nothing for a call that is still open, and remembers every answer, those found
inside a cycle included.  The variables left open are the least solution of an
equation over the calls (`leftOpen`).  Asked in any order, every answer is that
solution as long as nothing a call leaves open comes only from the calls that
lead to it (`answers_of_nothingCut`).
-/

namespace PhpantomLsp.Diagnostics.Dql

open PhpantomLsp.Lib.Worklist (Lists)

namespace Providers

universe u v

variable {κ : Type u} {α : Type v} (p : Providers κ α)

/-! ## The recursion -/

section Code

variable [DecidableEq κ] [DecidableEq α]

/-- The answers remembered so far. -/
abbrev Memo (κ : Type u) (α : Type v) := κ → Option (Option (List α))

/-- The loop over the calls a method hands the builder on with. -/
def extendRequired (openUses : Memo κ α → κ → Option (List α) × Memo κ α) :
    Memo κ α → (uses declared : List α) → List κ → Option (List α × List α) × Memo κ α
  | memo, uses, declared, [] => (some (uses, declared), memo)
  | memo, uses, declared, required :: rest =>
      match openUses memo required with
      | (none, memo) => (none, memo)
      | (some handed, memo) =>
          match p.aliases required with
          | none => (none, memo)
          | some aliases => extendRequired openUses memo (uses ++ handed) (declared ++ aliases) rest

/-- Add the variables that are neither declared nor there yet. -/
def addOpen (declared opened uses : List α) : List α :=
  uses.foldl (fun opened a => if a ∉ declared ∧ a ∉ opened then opened ++ [a] else opened) opened

/-- The loop over the methods a call reaches. -/
def openUsesOf (openUses : Memo κ α → κ → Option (List α) × Memo κ α) :
    Memo κ α → (opened : List α) → List (Option (BuilderMethod κ α)) → Option (List α) × Memo κ α
  | memo, opened, [] => (some opened, memo)
  | memo, _, none :: _ => (none, memo)
  | memo, opened, some m :: rest =>
      match p.extendRequired openUses memo m.uses m.aliases m.requires with
      | (none, memo) => (none, memo)
      | (some (uses, declared), memo) => openUsesOf openUses memo (addOpen declared opened uses) rest

def findOpenUses (openUses : Memo κ α → κ → Option (List α) × Memo κ α) (memo : Memo κ α) (k : κ) :
    Option (List α) × Memo κ α :=
  match p.targets k with
  | none => (none, memo)
  | some methods => p.openUsesOf openUses memo [] methods

/-- `open_uses` with the calls that are being looked up in `opening`, at most
`fuel` calls deep. -/
def openUsesWithin : (fuel : Nat) → (opening : List κ) → Memo κ α → κ →
    Option (List α) × Memo κ α
  | 0, _, memo, _ => (none, memo)
  | fuel + 1, opening, memo, k =>
      match memo k with
      | some done => (done, memo)
      | none =>
          if k ∈ opening then (some [], memo)
          else
            let (result, memo) := p.findOpenUses (openUsesWithin fuel (k :: opening)) memo k
            (result, Function.update memo k (some result))

/-- Every call that is open reaches methods, so that there are no more of them
than calls. -/
def openUses (memo : Memo κ α) (k : κ) : Option (List α) × Memo κ α :=
  p.openUsesWithin (p.calls.length + 1) [] memo k

/-- The answers to a sequence of questions asked of the same value. -/
def answers : Memo κ α → List κ → List (Option (List α))
  | _, [] => []
  | memo, k :: rest =>
      let (answer, memo) := p.openUses memo k
      answer :: answers memo rest

/-- Nothing is remembered. -/
def fresh : Memo κ α := fun _ => none

end Code

/-! ## What is left open -/

/-- A method the call reaches. -/
def HasMethod (k : κ) (m : BuilderMethod κ α) : Prop :=
  ∃ methods, p.targets k = some methods ∧ some m ∈ methods

/-- The method, or one it hands the builder on to, declares the variable. -/
def DeclaredBy (m : BuilderMethod κ α) (x : α) : Prop :=
  x ∈ m.aliases ∨ ∃ r ∈ m.requires, p.DeclaresDeep r x

/-- What is used here or left open by a method handed on to, less what is
declared. -/
def handOn : (κ → Set α) →o (κ → Set α) where
  toFun s k := {x | ∃ m, p.HasMethod k m ∧ ¬ p.DeclaredBy m x ∧ (x ∈ m.uses ∨ ∃ r ∈ m.requires, x ∈ s r)}
  monotone' s s' hs k x := by
    rintro ⟨m, hm, hx, h⟩
    refine ⟨m, hm, hx, h.imp_right ?_⟩
    rintro ⟨r, hr, h⟩
    exact ⟨r, hr, hs r h⟩

/-- The variables each call leaves open: the least solution. -/
def leftOpen : κ → Set α := OrderHom.lfp p.handOn

theorem mem_leftOpen {k : κ} {x : α} : x ∈ p.leftOpen k ↔
    ∃ m, p.HasMethod k m ∧ ¬ p.DeclaredBy m x ∧ (x ∈ m.uses ∨ ∃ r ∈ m.requires, x ∈ p.leftOpen r) := by
  have h : p.handOn p.leftOpen = p.leftOpen := OrderHom.map_lfp p.handOn
  conv_lhs => rw [← h]
  rfl

/-- The answer that is right for a call, up to the order of the variables. -/
def IsAnswer (k : κ) : Option (List α) → Prop
  | none => ¬ p.AllKnown k
  | some found => p.AllKnown k ∧ ∀ x, x ∈ found ↔ x ∈ p.leftOpen k

/-! ## What a cut leaves out -/

/-- A call of the methods one call reaches. -/
def HandsOn (k r : κ) : Prop := ∃ m, p.HasMethod k m ∧ r ∈ m.requires

/-- From a call and the calls open around it, to one of the calls it hands on
with that is not open yet. -/
def Follows (c d : List κ × κ) : Prop :=
  ∃ r, p.HandsOn c.2 r ∧ r ∉ c.2 :: c.1 ∧ d = (c.2 :: c.1, r)

/-- What a call leaves open is used by its own methods or left open by a call it
hands on with that is not open yet. -/
def Complete (c : List κ × κ) : Prop :=
  p.AllKnown c.2 → ∀ x ∈ p.leftOpen c.2, ∃ m, p.HasMethod c.2 m ∧ ¬ p.DeclaredBy m x ∧
    (x ∈ m.uses ∨ ∃ r ∈ m.requires, r ∉ c.2 :: c.1 ∧ x ∈ p.leftOpen r)

/-- However the builder is handed on from the call, nothing is left open only by
the calls it came through. -/
def NothingCut (k : κ) : Prop := ∀ c, Relation.ReflTransGen p.Follows ([], k) c → p.Complete c

/-! ## The answers are right -/

section Answers

variable {p} [DecidableEq κ] [DecidableEq α]

theorem mem_addOpen {declared opened uses : List α} {x : α} :
    x ∈ addOpen declared opened uses ↔ x ∈ opened ∨ (x ∈ uses ∧ x ∉ declared) := by
  induction uses generalizing opened with
  | nil => simp [addOpen]
  | cons a uses ih =>
      have hcons : addOpen declared opened (a :: uses) =
          addOpen declared (if a ∉ declared ∧ a ∉ opened then opened ++ [a] else opened) uses := rfl
      rw [hcons, ih, List.mem_cons]
      split
      · next ha =>
          rw [List.mem_append, List.mem_singleton]
          constructor
          · rintro ((h | rfl) | h)
            · exact .inl h
            · exact .inr ⟨.inl rfl, ha.1⟩
            · exact .inr ⟨.inr h.1, h.2⟩
          · rintro (h | ⟨rfl | h, hx⟩)
            · exact .inl (.inl h)
            · exact .inl (.inr rfl)
            · exact .inr ⟨h, hx⟩
      · next ha =>
          constructor
          · rintro (h | h)
            · exact .inl h
            · exact .inr ⟨.inr h.1, h.2⟩
          · rintro (h | ⟨rfl | h, hx⟩)
            · exact .inl h
            · exact .inl (not_not.mp fun h => ha ⟨hx, h⟩)
            · exact .inr ⟨h, hx⟩

/-- Every answer remembered is right. -/
def Holds (p : Providers κ α) (memo : Memo κ α) : Prop :=
  ∀ k answer, memo k = some answer → p.IsAnswer k answer

omit [DecidableEq κ] [DecidableEq α] in
theorem holds_fresh : p.Holds fresh := by
  intro k answer h
  cases h

/-- What a call gives that may be open: its answer, or nothing. -/
def Gives (p : Providers κ α) (opening : List κ) (r : κ) (answer : Option (List α)) : Prop :=
  p.IsAnswer r answer ∨ (r ∈ opening ∧ answer = some [])

/-- The outcome of the loop over the calls a method hands on with. -/
def Extended (p : Providers κ α) (opening : List κ) (uses declared : List α) (requires : List κ) :
    Option (List α × List α) → Prop
  | none => ∃ r ∈ requires, ¬ p.AllKnown r
  | some (uses', declared') => (∀ r ∈ requires, p.AllKnown r) ∧
      (∀ x, x ∈ declared' ↔ x ∈ declared ∨ ∃ r ∈ requires, p.DeclaresDeep r x) ∧
      (∀ x ∈ uses', x ∈ uses ∨ ∃ r ∈ requires, x ∈ p.leftOpen r) ∧
      (∀ x ∈ uses, x ∈ uses') ∧ ∀ r ∈ requires, r ∉ opening → ∀ x ∈ p.leftOpen r, x ∈ uses'

theorem extendRequired_spec {opening : List κ}
    {openUses : Memo κ α → κ → Option (List α) × Memo κ α} {memo : Memo κ α}
    {uses declared : List α} {requires : List κ} (hmemo : p.Holds memo)
    (hopen : ∀ r ∈ requires, ∀ memo, p.Holds memo →
      p.Gives opening r (openUses memo r).1 ∧ p.Holds (openUses memo r).2) :
    p.Extended opening uses declared requires
        (p.extendRequired openUses memo uses declared requires).1 ∧
      p.Holds (p.extendRequired openUses memo uses declared requires).2 := by
  induction requires generalizing memo uses declared with
  | nil => simp [extendRequired, Extended, hmemo]
  | cons r rest ih =>
      obtain ⟨hgives, hholds⟩ := hopen r (List.mem_cons_self ..) memo hmemo
      rw [extendRequired]
      rcases hres : openUses memo r with ⟨answer, memo'⟩
      rw [hres] at hgives hholds
      dsimp only at hgives hholds ⊢
      cases answer with
      | none =>
          refine ⟨⟨r, List.mem_cons_self .., ?_⟩, hholds⟩
          rcases hgives with h | ⟨-, h⟩
          · exact h
          · cases h
      | some handed =>
          dsimp only
          cases haliases : p.aliases r with
          | none => exact ⟨⟨r, List.mem_cons_self .., aliases_eq_none_iff.mp haliases⟩, hholds⟩
          | some aliases =>
              have hknown : p.AllKnown r := by
                by_contra h
                rw [aliases_eq_none_iff.mpr h] at haliases
                cases haliases
              have hhanded : ∀ x ∈ handed, x ∈ p.leftOpen r := by
                intro x hx
                rcases hgives with h | ⟨-, h⟩
                · exact (h.2 x).mp hx
                · rw [Option.some.inj h] at hx
                  cases hx
              have hall : r ∉ opening → ∀ x ∈ p.leftOpen r, x ∈ handed := by
                intro hr x hx
                rcases hgives with h | ⟨h, -⟩
                · exact (h.2 x).mpr hx
                · exact absurd h hr
              obtain ⟨hext, hholds⟩ := @ih memo' (uses ++ handed) (declared ++ aliases) hholds
                fun r hr => hopen r (List.mem_cons_of_mem _ hr)
              refine ⟨?_, hholds⟩
              cases hout : (p.extendRequired openUses memo' (uses ++ handed) (declared ++ aliases)
                  rest).1 with
              | none =>
                  rw [hout] at hext
                  obtain ⟨r', hr', h⟩ := hext
                  exact ⟨r', List.mem_cons_of_mem _ hr', h⟩
              | some out =>
                  rw [hout] at hext
                  obtain ⟨hknowns, hdeclared, hsound, hkeep, hhand⟩ := hext
                  refine ⟨?_, ?_, ?_, ?_, ?_⟩
                  · intro r' hr'
                    rcases List.mem_cons.mp hr' with rfl | hr'
                    · exact hknown
                    · exact hknowns r' hr'
                  · intro x
                    rw [hdeclared, List.mem_append, mem_aliases haliases]
                    simp [or_assoc]
                  · intro x hx
                    rcases hsound x hx with h | ⟨r', hr', h⟩
                    · rcases List.mem_append.mp h with h | h
                      · exact .inl h
                      · exact .inr ⟨r, List.mem_cons_self .., hhanded x h⟩
                    · exact .inr ⟨r', List.mem_cons_of_mem _ hr', h⟩
                  · exact fun x hx => hkeep x (List.mem_append_left _ hx)
                  · intro r' hr' hopen' x hx
                    rcases List.mem_cons.mp hr' with rfl | hr'
                    · exact hkeep x (List.mem_append_right _ (hall hopen' x hx))
                    · exact hhand r' hr' hopen' x hx

/-- The outcome of the loop over the methods a call reaches. -/
def Opened (p : Providers κ α) (opening : List κ) (opened : List α)
    (methods : List (Option (BuilderMethod κ α))) : Option (List α) → Prop
  | none => none ∈ methods ∨ ∃ m, some m ∈ methods ∧ ∃ r ∈ m.requires, ¬ p.AllKnown r
  | some found => none ∉ methods ∧ (∀ m, some m ∈ methods → ∀ r ∈ m.requires, p.AllKnown r) ∧
      (∀ x ∈ found, x ∈ opened ∨ ∃ m, some m ∈ methods ∧ ¬ p.DeclaredBy m x ∧
        (x ∈ m.uses ∨ ∃ r ∈ m.requires, x ∈ p.leftOpen r)) ∧
      (∀ x ∈ opened, x ∈ found) ∧
      ∀ m, some m ∈ methods → ∀ x, ¬ p.DeclaredBy m x →
        (x ∈ m.uses ∨ ∃ r ∈ m.requires, r ∉ opening ∧ x ∈ p.leftOpen r) → x ∈ found

theorem openUsesOf_spec {opening : List κ}
    {openUses : Memo κ α → κ → Option (List α) × Memo κ α} {memo : Memo κ α} {opened : List α}
    {methods : List (Option (BuilderMethod κ α))} (hmemo : p.Holds memo)
    (hopen : ∀ m, some m ∈ methods → ∀ r ∈ m.requires, ∀ memo, p.Holds memo →
      p.Gives opening r (openUses memo r).1 ∧ p.Holds (openUses memo r).2) :
    p.Opened opening opened methods (p.openUsesOf openUses memo opened methods).1 ∧
      p.Holds (p.openUsesOf openUses memo opened methods).2 := by
  induction methods generalizing memo opened with
  | nil => simp [openUsesOf, Opened, hmemo]
  | cons m rest ih =>
      cases m with
      | none => exact ⟨.inl (List.mem_cons_self ..), hmemo⟩
      | some m =>
          obtain ⟨hext, hholds⟩ := @extendRequired_spec κ α p _ _ opening _ memo m.uses
            m.aliases _ hmemo (hopen m (List.mem_cons_self ..))
          rw [openUsesOf]
          rcases hres : p.extendRequired openUses memo m.uses m.aliases m.requires with ⟨out, memo'⟩
          rw [hres] at hext hholds
          cases out with
          | none => exact ⟨.inr ⟨m, List.mem_cons_self .., hext⟩, hholds⟩
          | some out =>
              obtain ⟨uses, declared⟩ := out
              obtain ⟨hknown, hdeclared, hsound, hkeep, hhand⟩ := hext
              have hdeclaredBy : ∀ x, x ∈ declared ↔ p.DeclaredBy m x := hdeclared
              dsimp only at hholds ⊢
              obtain ⟨hrest, hholds⟩ := @ih memo' (addOpen declared opened uses) hholds
                fun m hm => hopen m (List.mem_cons_of_mem _ hm)
              refine ⟨?_, hholds⟩
              cases hout : (p.openUsesOf openUses memo' (addOpen declared opened uses) rest).1 with
              | none =>
                  rw [hout] at hrest
                  rcases hrest with h | ⟨m', hm', h⟩
                  · exact .inl (List.mem_cons_of_mem _ h)
                  · exact .inr ⟨m', List.mem_cons_of_mem _ hm', h⟩
              | some found =>
                  rw [hout] at hrest
                  obtain ⟨hnone, hknowns, hsounds, hkeeps, hhands⟩ := hrest
                  refine ⟨?_, ?_, ?_, ?_, ?_⟩
                  · rw [List.mem_cons, not_or]
                    exact ⟨by simp, hnone⟩
                  · intro m' hm'
                    rcases List.mem_cons.mp hm' with h | hm'
                    · cases h
                      exact hknown
                    · exact hknowns m' hm'
                  · intro x hx
                    rcases hsounds x hx with h | ⟨m', hm', h⟩
                    · rcases mem_addOpen.mp h with h | ⟨hu, hd⟩
                      · exact .inl h
                      · exact .inr ⟨m, List.mem_cons_self .., fun h => hd ((hdeclaredBy x).mpr h),
                          hsound x hu⟩
                    · exact .inr ⟨m', List.mem_cons_of_mem _ hm', h⟩
                  · exact fun x hx => hkeeps x (mem_addOpen.mpr (.inl hx))
                  · intro m' hm' x hx h
                    rcases List.mem_cons.mp hm' with heq | hm'
                    · cases heq
                      apply hkeeps
                      refine mem_addOpen.mpr (.inr ⟨?_, fun h => hx ((hdeclaredBy x).mp h)⟩)
                      rcases h with h | ⟨r, hr, hropen, h⟩
                      · exact hkeep x h
                      · exact hhand r hr hropen x h
                    · exact hhands m' hm' x hx h

omit [DecidableEq κ] [DecidableEq α] in
theorem allKnown_iff {k : κ} {methods : List (Option (BuilderMethod κ α))}
    (h : p.targets k = some methods) : p.AllKnown k ↔
      none ∉ methods ∧ ∀ m, some m ∈ methods → ∀ r ∈ m.requires, p.AllKnown r := by
  constructor
  · intro hall
    obtain ⟨known, hknown⟩ := hall k .refl
    have hmethods : methods = known.map some := by
      have := targets_of_known p hknown
      rw [h] at this
      exact Option.some.inj this
    subst hmethods
    refine ⟨by simp, ?_⟩
    intro m hm r hr j hj
    apply hall
    refine .head ?_ hj
    have hm' : m ∈ known := by simpa using hm
    rw [Lib.Worklist.Lists, successors_of_known p hknown, List.mem_reverse, List.mem_flatMap]
    exact ⟨m, hm', hr⟩
  · rintro ⟨hnone, hrequires⟩ j hj
    have hsome : ∀ methods : List (Option (BuilderMethod κ α)), none ∉ methods →
        ∃ known : List (BuilderMethod κ α), methods = known.map some := by
      intro methods
      induction methods with
      | nil => exact fun _ => ⟨[], rfl⟩
      | cons m rest ih =>
          intro hn
          rw [List.mem_cons, not_or] at hn
          obtain ⟨known, rfl⟩ := ih hn.2
          cases m with
          | none => exact absurd rfl hn.1
          | some m => exact ⟨m :: known, rfl⟩
    obtain ⟨known, rfl⟩ := hsome methods hnone
    have hknown : p.known k = some known := by
      rw [Providers.known, h, Option.bind_some, allKnown_eq_some_iff]
    rcases Relation.ReflTransGen.cases_head hj with rfl | ⟨c, hc, hrest⟩
    · exact ⟨known, hknown⟩
    · rw [Lib.Worklist.Lists, successors_of_known p hknown, List.mem_reverse, List.mem_flatMap] at hc
      obtain ⟨m, hm, hr⟩ := hc
      exact hrequires m (List.mem_map_of_mem hm) c hr j hrest

omit [DecidableEq κ] [DecidableEq α] in
theorem not_allKnown_of_targets {k : κ} (h : p.targets k = none) : ¬ p.AllKnown k := by
  intro hall
  obtain ⟨known, hknown⟩ := hall k .refl
  rw [targets_of_known p hknown] at h
  cases h

/-- By induction on the calls that may still be opened: asked of a call from
which nothing is cut, `open_uses` answers right and remembers only right
answers. -/
theorem openUsesWithin_spec {fuel : Nat} {opening : List κ} {memo : Memo κ α} {k : κ}
    (hfuel : p.calls.length < fuel + opening.length) (hnodup : opening.Nodup)
    (hsub : ∀ j ∈ opening, j ∈ p.calls) (hmemo : p.Holds memo) (hk : k ∉ opening)
    (hcut : ∀ c, Relation.ReflTransGen p.Follows (opening, k) c → p.Complete c) :
    p.IsAnswer k (p.openUsesWithin fuel opening memo k).1 ∧
      p.Holds (p.openUsesWithin fuel opening memo k).2 := by
  induction fuel generalizing opening memo k with
  | zero =>
      have := (List.subperm_of_subset hnodup hsub).length_le
      omega
  | succ fuel ih =>
      rw [openUsesWithin]
      cases hdone : memo k with
      | some done => exact ⟨hmemo k done hdone, hmemo⟩
      | none =>
          rw [if_neg hk]
          dsimp only
          suffices h : p.IsAnswer k (p.findOpenUses (p.openUsesWithin fuel (k :: opening)) memo k).1 ∧
              p.Holds (p.findOpenUses (p.openUsesWithin fuel (k :: opening)) memo k).2 by
            refine ⟨h.1, ?_⟩
            intro j answer hj
            by_cases hjk : j = k
            · subst hjk
              rw [Function.update_self] at hj
              exact Option.some.inj hj ▸ h.1
            · rw [Function.update_of_ne hjk] at hj
              exact h.2 j answer hj
          rw [findOpenUses]
          cases htargets : p.targets k with
          | none => exact ⟨not_allKnown_of_targets htargets, hmemo⟩
          | some methods =>
              have hkcalls : k ∈ p.calls := p.finite k (by rw [htargets]; rfl)
              have hsub' : ∀ j ∈ k :: opening, j ∈ p.calls := by
                intro j hj
                rcases List.mem_cons.mp hj with rfl | hj
                · exact hkcalls
                · exact hsub j hj
              have hnodup' : (k :: opening).Nodup := List.nodup_cons.mpr ⟨hk, hnodup⟩
              have hopen : ∀ m, some m ∈ methods → ∀ r ∈ m.requires, ∀ memo, p.Holds memo →
                  p.Gives (k :: opening) r (p.openUsesWithin fuel (k :: opening) memo r).1 ∧
                    p.Holds (p.openUsesWithin fuel (k :: opening) memo r).2 := by
                intro m hm r hr memo hmemo
                by_cases hropen : r ∈ k :: opening
                · -- a call that is open gives what is remembered of it, or nothing
                  cases fuel with
                  | zero =>
                      have := (List.subperm_of_subset hnodup' hsub').length_le
                      simp only [List.length_cons] at this
                      omega
                  | succ fuel =>
                      rw [openUsesWithin]
                      cases hdone : memo r with
                      | some done => exact ⟨.inl (hmemo r done hdone), hmemo⟩
                      | none =>
                          rw [if_pos hropen]
                          exact ⟨.inr ⟨hropen, rfl⟩, hmemo⟩
                · have hfollows : p.Follows (opening, k) (k :: opening, r) :=
                    ⟨r, ⟨m, ⟨methods, htargets, hm⟩, hr⟩, hropen, rfl⟩
                  have := @ih (k :: opening) memo r
                    (by simp only [List.length_cons]; omega) hnodup' hsub' hmemo hropen
                    fun c hc => hcut c (.head hfollows hc)
                  exact ⟨.inl this.1, this.2⟩
              obtain ⟨hopened, hholds⟩ := @openUsesOf_spec κ α p _ _ _ _ _ [] _ hmemo hopen
              refine ⟨?_, hholds⟩
              dsimp only
              cases hout : (p.openUsesOf (p.openUsesWithin fuel (k :: opening)) memo [] methods).1 with
              | none =>
                  rw [hout] at hopened
                  show ¬ p.AllKnown k
                  rw [allKnown_iff htargets]
                  rintro ⟨hnone, hall⟩
                  rcases hopened with h | ⟨m, hm, r, hr, h⟩
                  · exact hnone h
                  · exact h (hall m hm r hr)
              | some found =>
                  rw [hout] at hopened
                  obtain ⟨hnone, hknown, hsound, -, hhand⟩ := hopened
                  have hall : p.AllKnown k := (allKnown_iff htargets).mpr ⟨hnone, hknown⟩
                  refine ⟨hall, fun x => ⟨?_, ?_⟩⟩
                  · intro hx
                    rcases hsound x hx with h | ⟨m, hm, h⟩
                    · cases h
                    · exact (p.mem_leftOpen).mpr ⟨m, ⟨methods, htargets, hm⟩, h⟩
                  · intro hx
                    obtain ⟨m, ⟨methods', htargets', hm⟩, hdeclared, h⟩ := hcut _ .refl hall x hx
                    rw [htargets] at htargets'
                    cases htargets'
                    exact hhand m hm x hdeclared h

/-! ## Sequences of questions -/

/-- Two answers name the same variables. -/
def SameAnswer : Option (List α) → Option (List α) → Prop
  | none, none => True
  | some found, some found' => ∀ x, x ∈ found ↔ x ∈ found'
  | _, _ => False

omit [DecidableEq κ] [DecidableEq α] in
theorem IsAnswer.same {k : κ} {answer answer' : Option (List α)} (h : p.IsAnswer k answer)
    (h' : p.IsAnswer k answer') : SameAnswer answer answer' := by
  cases answer with
  | none =>
      cases answer' with
      | none => trivial
      | some found' => exact h h'.1
  | some found =>
      cases answer' with
      | none => exact h' h.1
      | some found' => exact fun x => (h.2 x).trans (h'.2 x).symm

theorem openUses_spec {memo : Memo κ α} {k : κ} (hmemo : p.Holds memo) (hcut : p.NothingCut k) :
    p.IsAnswer k (p.openUses memo k).1 ∧ p.Holds (p.openUses memo k).2 :=
  openUsesWithin_spec (by simp) List.nodup_nil (by simp) hmemo (by simp) hcut

/-- One question after another leaves only right answers behind. -/
theorem answers_spec {memo : Memo κ α} {ks : List κ} (hmemo : p.Holds memo)
    (hcut : ∀ k ∈ ks, p.NothingCut k) : List.Forall₂ p.IsAnswer ks (p.answers memo ks) := by
  induction ks generalizing memo with
  | nil => exact .nil
  | cons k ks ih =>
      obtain ⟨hanswer, hholds⟩ := openUses_spec hmemo (hcut k (List.mem_cons_self ..))
      exact .cons hanswer (ih hholds fun k hk => hcut k (List.mem_cons_of_mem _ hk))

/-- Where nothing is cut, each answer is the one a fresh value gives, and the
least solution. -/
theorem answers_of_nothingCut (p : Providers κ α) (ks : List κ)
    (hcut : ∀ k ∈ ks, p.NothingCut k) :
    List.Forall₂ (fun k answer => p.IsAnswer k answer ∧ SameAnswer answer (p.openUses fresh k).1)
      ks (p.answers fresh ks) := by
  have hanswers := answers_spec (p := p) holds_fresh hcut
  rw [List.forall₂_iff_zip] at hanswers ⊢
  refine ⟨hanswers.1, ?_⟩
  intro k answer hmem
  have hanswer := hanswers.2 hmem
  refine ⟨hanswer, hanswer.same ?_⟩
  exact (openUses_spec holds_fresh (hcut k (List.of_mem_zip hmem).1)).1

end Answers

/-- Two methods that call each other and both use `x`. -/
def oneAnother : Providers Nat String where
  calls := [0, 1]
  targets k :=
    if k = 0 then some [some ⟨[], ["x"], [1]⟩]
    else if k = 1 then some [some ⟨[], ["x"], [0]⟩]
    else none
  finite k h := by
    split_ifs at h with h0 h1
    · simp [h0]
    · simp [h1]
    · cases h

theorem oneAnother_uses {k : Nat} {m : BuilderMethod Nat String} (h : oneAnother.HasMethod k m) :
    m.uses = ["x"] := by
  obtain ⟨methods, htargets, hm⟩ := h
  dsimp only [oneAnother] at htargets
  split_ifs at htargets with h0 h1
  · cases htargets
    cases List.mem_singleton.mp hm
    rfl
  · cases htargets
    cases List.mem_singleton.mp hm
    rfl

theorem oneAnother_leftOpen {k : Nat} {x : String} (h : x ∈ oneAnother.leftOpen k) : x = "x" := by
  have hbound : oneAnother.leftOpen ≤ fun _ => {"x"} := by
    apply OrderHom.lfp_le
    rintro j y ⟨m, hm, -, huses | ⟨r, -, hy⟩⟩
    · rw [oneAnother_uses hm] at huses
      exact List.mem_singleton.mp huses
    · exact hy
  exact hbound k h

/-- Neither method leaves open what only the other one uses. -/
theorem oneAnother_answers : List.Forall₂
    (fun k answer => oneAnother.IsAnswer k answer ∧
      SameAnswer answer (oneAnother.openUses fresh k).1)
    [1, 0] (oneAnother.answers fresh [1, 0]) := by
  apply answers_of_nothingCut
  intro k _ c _ _ x hx
  obtain ⟨m, hm, hdeclared, -⟩ := oneAnother.mem_leftOpen.mp hx
  refine ⟨m, hm, hdeclared, .inl ?_⟩
  rw [oneAnother_uses hm, oneAnother_leftOpen hx]
  exact List.mem_singleton_self "x"

/-- Two methods that call each other, the first of which uses `x`. -/
def eachOther : Providers Nat String where
  calls := [0, 1]
  targets k :=
    if k = 0 then some [some ⟨[], ["x"], [1]⟩]
    else if k = 1 then some [some ⟨[], [], [0]⟩]
    else none
  finite k h := by
    split_ifs at h with h0 h1
    · simp [h0]
    · simp [h1]
    · cases h

/-- Asked of the first method and then of the second, the second answers
nothing; a value that was asked nothing before answers `x`. -/
theorem eachOther_forgets :
    eachOther.answers fresh [0, 1] = [some ["x"], some []] ∧
      (eachOther.openUses fresh 1).1 = some ["x"] ∧
      ¬ List.Forall₂ (fun k answer => eachOther.IsAnswer k answer ∧
        SameAnswer answer (eachOther.openUses fresh k).1) [0, 1] (eachOther.answers fresh [0, 1]) := by
  have hanswers : eachOther.answers fresh [0, 1] = [some ["x"], some []] := by decide +kernel
  have hfresh : (eachOther.openUses fresh 1).1 = some ["x"] := by decide +kernel
  refine ⟨hanswers, hfresh, ?_⟩
  intro hall
  rw [hanswers] at hall
  have hsecond := (List.forall₂_cons.mp (List.forall₂_cons.mp hall).2).1.2
  rw [hfresh] at hsecond
  cases (hsecond "x").mpr (List.mem_singleton_self _)

end Providers

end PhpantomLsp.Diagnostics.Dql
