import Mathlib.Algebra.GroupWithZero.Nat
import Mathlib.Data.List.Nodup
import Mathlib.Data.List.Perm.Subperm
import Mathlib.Data.List.Range
import Mathlib.Data.Nat.Find
import PhpantomLsp.Lib.PartialRuns

/-!
# Workers that pull their items off a shared counter

The items below `count` are shared out among any number of workers.  A worker
claims the next item off one counter, waits until as many items are over as the
item asks for, works on it, and comes back for another; past the last item it
stops.  The workers take their turns in any order, and a worker may join at any
time.  The work on an item may break its worker: the item counts as over, and
the worker claims no more.

Every item below the counter is claimed exactly once (`Inv.claimed`).  Where the
items come in layers, an item is begun only once every item of the layers before
it is over (`Moved.ordered`).  Some worker can always take a turn (`exists_turn`),
and no run takes more turns than its potential (`Turn.potential_lt`), so every
run ends, and then every item is over (`settled_perm`).
-/

namespace PhpantomLsp.Lib.WorkerPool

universe u

variable {ρ : Type u}

/-- What the work on an item comes to. -/
inductive Outcome (ρ : Type u) where
  | nothing
  | result (value : ρ)
  | broken

/-- What is kept of the work on an item. -/
def Outcome.results (item : Nat) : Outcome ρ → List (Nat × ρ)
  | .result value => [(item, value)]
  | _ => []

/-- The items, how many of them are over before each may begin, and the work a
worker of some number does on each. -/
structure Job (ρ : Type u) where
  count : Nat
  ready : Nat → Nat
  work : Nat → Nat → Outcome ρ

inductive Phase where
  | pulling
  | waiting (item : Nat)
  | working (item : Nat)
  | stopped
  | broken (item : Nat)

/-- A worker; `ended` is the history of what it has come back from. -/
structure Worker (ρ : Type u) where
  number : Nat
  phase : Phase
  ended : List Nat
  produced : List (Nat × ρ)

/-- A worker that has claimed nothing yet. -/
def Worker.fresh (number : Nat) : Worker ρ := ⟨number, .pulling, [], []⟩

/-- The counter of claims, and how many items are over. -/
structure Shared where
  next : Nat
  finished : Nat

structure Pool (ρ : Type u) where
  shared : Shared
  workers : List (Worker ρ)

def Pool.empty : Pool ρ := ⟨⟨0, 0⟩, []⟩

variable {job : Job ρ}

/-- One turn of a worker; `none` where it can take none. -/
def Worker.turn (job : Job ρ) (s : Shared) (w : Worker ρ) : Option (Shared × Worker ρ) :=
  match w.phase with
  | .pulling =>
      if s.next < job.count then
        some ({ s with next := s.next + 1 }, { w with phase := .waiting s.next })
      else some ({ s with next := s.next + 1 }, { w with phase := .stopped })
  | .waiting item =>
      if job.ready item ≤ s.finished then some (s, { w with phase := .working item }) else none
  | .working item =>
      match job.work w.number item with
      | .broken => some ({ s with finished := s.finished + 1 }, { w with phase := .broken item })
      | outcome =>
          some ({ s with finished := s.finished + 1 },
            { w with
              phase := .pulling, ended := w.ended ++ [item],
              produced := w.produced ++ outcome.results item })
  | .stopped => none
  | .broken _ => none

/-- The turns there are. -/
inductive Turn (job : Job ρ) : Shared → Worker ρ → Shared → Worker ρ → Prop where
  | claim {s w} (hphase : w.phase = .pulling) (hnext : s.next < job.count) :
      Turn job s w { s with next := s.next + 1 } { w with phase := .waiting s.next }
  | stop {s w} (hphase : w.phase = .pulling) (hnext : job.count ≤ s.next) :
      Turn job s w { s with next := s.next + 1 } { w with phase := .stopped }
  | start {s w} {item} (hphase : w.phase = .waiting item) (hready : job.ready item ≤ s.finished) :
      Turn job s w s { w with phase := .working item }
  | finish {s w} {item} (hphase : w.phase = .working item)
      (hwork : job.work w.number item ≠ .broken) :
      Turn job s w { s with finished := s.finished + 1 }
        { w with
          phase := .pulling, ended := w.ended ++ [item],
          produced := w.produced ++ (job.work w.number item).results item }
  | breakDown {s w} {item} (hphase : w.phase = .working item)
      (hwork : job.work w.number item = .broken) :
      Turn job s w { s with finished := s.finished + 1 } { w with phase := .broken item }

theorem turn_of_turn {s s' : Shared} {w w' : Worker ρ} (h : w.turn job s = some (s', w')) :
    Turn job s w s' w' := by
  unfold Worker.turn at h
  split at h
  · rename_i hphase
    split at h
    · cases h
      exact .claim hphase (by assumption)
    · cases h
      exact .stop hphase (Nat.le_of_not_lt (by assumption))
  · rename_i item hphase
    split at h
    · cases h
      exact .start hphase (by assumption)
    · cases h
  · rename_i item hphase
    split at h
    · rename_i hwork
      cases h
      exact .breakDown hphase hwork
    · rename_i hwork
      cases h
      exact .finish hphase fun hbroken => hwork hbroken
  · cases h
  · cases h

/-- A worker takes its turn, or one joins. -/
inductive Move where
  | turn (worker : Nat)
  | join (number : Nat)

def Pool.step (job : Job ρ) (s : Pool ρ) : Move → Option (Pool ρ)
  | .turn worker =>
      (s.workers[worker]?).bind fun w =>
        (w.turn job s.shared).map fun turned => ⟨turned.1, s.workers.set worker turned.2⟩
  | .join number => some ⟨s.shared, s.workers ++ [.fresh number]⟩

theorem exists_split {α : Type*} {items : List α} {k : Nat} {a : α} (h : items[k]? = some a) :
    ∃ before after, items = before ++ a :: after ∧
      ∀ a', items.set k a' = before ++ a' :: after := by
  induction items generalizing k with
  | nil => cases h
  | cons first rest ih =>
      cases k with
      | zero =>
          rw [List.getElem?_cons_zero, Option.some.injEq] at h
          exact ⟨[], rest, by simp [h], fun a' => rfl⟩
      | succ k =>
          rw [List.getElem?_cons_succ] at h
          cases ih h with
          | intro before hbefore =>
              cases hbefore with
              | intro after hsplit =>
                  refine ⟨first :: before, after, by simp [← hsplit.1], fun a' => ?_⟩
                  rw [List.set_cons_succ, hsplit.2 a', List.cons_append]

/-- What a move makes of a pool. -/
inductive Moved (job : Job ρ) : Pool ρ → Pool ρ → Prop where
  | turn {s s' before w w' after} (h : Turn job s w s' w') :
      Moved job ⟨s, before ++ w :: after⟩ ⟨s', before ++ w' :: after⟩
  | join {s workers} (number : Nat) : Moved job ⟨s, workers⟩ ⟨s, workers ++ [.fresh number]⟩

theorem moved_of_turn {s s' : Pool ρ} {worker : Nat} (h : s.step job (.turn worker) = some s') :
    ∃ before w after w', Turn job s.shared w s'.shared w' ∧
      s.workers = before ++ w :: after ∧ s'.workers = before ++ w' :: after := by
  have hget := Option.bind_eq_some_iff.mp h
  cases hget with
  | intro w hw =>
      cases Option.map_eq_some_iff.mp hw.2 with
      | intro turned hturned =>
          cases exists_split hw.1 with
          | intro before hbefore =>
              cases hbefore with
              | intro after hsplit =>
                  rw [← hturned.2]
                  exact ⟨before, w, after, turned.2, turn_of_turn hturned.1, hsplit.1,
                    hsplit.2 turned.2⟩

/-! ## The items of a pool -/

def Phase.held : Phase → List Nat
  | .waiting item => [item]
  | .working item => [item]
  | .broken item => [item]
  | _ => []

def Phase.begun : Phase → List Nat
  | .working item => [item]
  | .broken item => [item]
  | _ => []

def Phase.lost : Phase → List Nat
  | .broken item => [item]
  | _ => []

namespace Worker

/-- The items the worker has claimed. -/
def claimed (w : Worker ρ) : List Nat := w.ended ++ w.phase.held

/-- The items the worker has begun. -/
def begun (w : Worker ρ) : List Nat := w.ended ++ w.phase.begun

/-- The items the worker is over with, the one that broke it among them. -/
def settled (w : Worker ρ) : List Nat := w.ended ++ w.phase.lost

end Worker

namespace Pool

def claimed (s : Pool ρ) : List Nat := s.workers.flatMap Worker.claimed

def begun (s : Pool ρ) : List Nat := s.workers.flatMap Worker.begun

def settled (s : Pool ρ) : List Nat := s.workers.flatMap Worker.settled

end Pool

theorem lost_sublist_held (phase : Phase) : phase.lost.Sublist phase.held := by
  cases phase <;> simp [Phase.lost, Phase.held]

theorem settled_sublist_claimed (s : Pool ρ) : s.settled.Sublist s.claimed := by
  unfold Pool.settled Pool.claimed
  induction s.workers with
  | nil => exact List.Sublist.refl _
  | cons w rest ih =>
      rw [List.flatMap_cons, List.flatMap_cons]
      exact ((List.Sublist.refl w.ended).append (lost_sublist_held w.phase)).append ih

/-- What every move keeps. -/
structure Inv (job : Job ρ) (s : Pool ρ) : Prop where
  claimed : s.claimed.Perm (List.range (min s.shared.next job.count))
  finished : s.shared.finished = s.settled.length
  stopped : ∀ w ∈ s.workers, w.phase = .stopped → job.count ≤ s.shared.next
  produced : ∀ w ∈ s.workers,
    w.produced = w.ended.flatMap fun item => (job.work w.number item).results item
  broken : ∀ w ∈ s.workers, ∀ item ∈ w.phase.lost, job.work w.number item = .broken

section Replace

variable {before after : List (Worker ρ)} {w w' : Worker ρ} {f : Worker ρ → List Nat}

theorem flatMap_same (h : f w' = f w) :
    (before ++ w' :: after).flatMap f = (before ++ w :: after).flatMap f := by
  simp [h]

theorem flatMap_grown {item : Nat} (h : f w' = f w ++ [item]) :
    ((before ++ w' :: after).flatMap f).Perm ((before ++ w :: after).flatMap f ++ [item]) := by
  simp only [List.flatMap_append, List.flatMap_cons, h, List.append_assoc]
  exact ((@List.perm_append_comm _ [item] _).append_left _).append_left _

theorem mem_replaced {v : Worker ρ} (h : v ∈ before ++ w' :: after) :
    v = w' ∨ v ∈ before ++ w :: after := by
  simp only [List.mem_append, List.mem_cons] at h ⊢
  tauto

end Replace

theorem Inv.empty : Inv job (Pool.empty : Pool ρ) where
  claimed := by simp [Pool.claimed, Pool.empty]
  finished := rfl
  stopped := by simp [Pool.empty]
  produced := by simp [Pool.empty]
  broken := by simp [Pool.empty]

theorem Inv.join {s : Shared} {workers : List (Worker ρ)} (h : Inv job ⟨s, workers⟩)
    (number : Nat) : Inv job ⟨s, workers ++ [.fresh number]⟩ := by
  have hclaimed : (⟨s, workers ++ [.fresh number]⟩ : Pool ρ).claimed =
      (⟨s, workers⟩ : Pool ρ).claimed := by
    simp [Pool.claimed, Worker.claimed, Worker.fresh, Phase.held]
  have hover : (⟨s, workers ++ [.fresh number]⟩ : Pool ρ).settled =
      (⟨s, workers⟩ : Pool ρ).settled := by
    simp [Pool.settled, Worker.settled, Worker.fresh, Phase.lost]
  refine ⟨hclaimed ▸ h.claimed, hover ▸ h.finished, fun w hw hstopped => ?_, fun w hw => ?_,
    fun w hw => ?_⟩
  · cases List.mem_append.mp hw with
    | inl hmem => exact h.stopped w hmem hstopped
    | inr hnew =>
        rw [List.mem_singleton.mp hnew] at hstopped
        cases hstopped
  · cases List.mem_append.mp hw with
    | inl hmem => exact h.produced w hmem
    | inr hnew =>
        rw [List.mem_singleton.mp hnew]
        rfl
  · cases List.mem_append.mp hw with
    | inl hmem => exact h.broken w hmem
    | inr hnew =>
        rw [List.mem_singleton.mp hnew]
        exact fun item hitem => absurd hitem List.not_mem_nil

namespace Turn

variable {s s' : Shared} {w w' : Worker ρ}

theorem next_le (h : Turn job s w s' w') : s.next ≤ s'.next := by
  cases h <;> simp

theorem claimed (h : Turn job s w s' w') :
    (w'.claimed = w.claimed ∧ min s'.next job.count = min s.next job.count) ∨
      (w'.claimed = w.claimed ++ [s.next] ∧ s.next < job.count ∧ s'.next = s.next + 1) := by
  cases h with
  | claim hphase hnext => exact .inr ⟨by simp [Worker.claimed, Phase.held, hphase], hnext, rfl⟩
  | stop hphase hnext =>
      exact .inl ⟨by simp [Worker.claimed, Phase.held, hphase], by dsimp only; omega⟩
  | start hphase hready => exact .inl ⟨by simp [Worker.claimed, Phase.held, hphase], rfl⟩
  | finish hphase hwork => exact .inl ⟨by simp [Worker.claimed, Phase.held, hphase], rfl⟩
  | breakDown hphase hwork => exact .inl ⟨by simp [Worker.claimed, Phase.held, hphase], rfl⟩

theorem begun (h : Turn job s w s' w') :
    w'.begun = w.begun ∨
      ∃ item, w'.begun = w.begun ++ [item] ∧ w'.settled = w.settled ∧
        job.ready item ≤ s.finished := by
  cases h with
  | claim hphase hnext => exact .inl (by simp [Worker.begun, Phase.begun, hphase])
  | stop hphase hnext => exact .inl (by simp [Worker.begun, Phase.begun, hphase])
  | @start item hphase hready =>
      exact .inr ⟨item, by simp [Worker.begun, Phase.begun, hphase],
        by simp [Worker.settled, Phase.lost, hphase], hready⟩
  | finish hphase hwork => exact .inl (by simp [Worker.begun, Phase.begun, hphase])
  | breakDown hphase hwork => exact .inl (by simp [Worker.begun, Phase.begun, hphase])

theorem settled (h : Turn job s w s' w') :
    (w'.settled = w.settled ∧ s'.finished = s.finished) ∨
      ∃ item, w'.settled = w.settled ++ [item] ∧ s'.finished = s.finished + 1 := by
  cases h with
  | claim hphase hnext => exact .inl ⟨by simp [Worker.settled, Phase.lost, hphase], rfl⟩
  | stop hphase hnext => exact .inl ⟨by simp [Worker.settled, Phase.lost, hphase], rfl⟩
  | start hphase hready => exact .inl ⟨by simp [Worker.settled, Phase.lost, hphase], rfl⟩
  | @finish item hphase hwork =>
      exact .inr ⟨item, by simp [Worker.settled, Phase.lost, hphase], rfl⟩
  | @breakDown item hphase hwork =>
      exact .inr ⟨item, by simp [Worker.settled, Phase.lost, hphase], rfl⟩

theorem stopped (h : Turn job s w s' w') (hstopped : w'.phase = .stopped) :
    job.count ≤ s'.next := by
  cases h with
  | stop hphase hnext => exact Nat.le_succ_of_le hnext
  | _ => cases hstopped

theorem produced (h : Turn job s w s' w')
    (hproduced : w.produced = w.ended.flatMap fun item => (job.work w.number item).results item) :
    w'.produced = w'.ended.flatMap fun item => (job.work w'.number item).results item := by
  cases h with
  | finish hphase hwork => simp [hproduced]
  | _ => exact hproduced

theorem broken (h : Turn job s w s' w') :
    ∀ item ∈ w'.phase.lost, job.work w'.number item = .broken := by
  intro item hitem
  cases h with
  | breakDown hphase hwork =>
      rw [List.mem_singleton.mp hitem]
      exact hwork
  | _ => exact absurd hitem List.not_mem_nil

end Turn

theorem Inv.turn {s s' : Shared} {before after : List (Worker ρ)} {w w' : Worker ρ}
    (h : Inv job ⟨s, before ++ w :: after⟩) (hturn : Turn job s w s' w') :
    Inv job ⟨s', before ++ w' :: after⟩ := by
  refine ⟨?_, ?_, fun v hv hstopped => ?_, fun v hv => ?_, fun v hv => ?_⟩
  · cases hturn.claimed with
    | inl hkept =>
        have hclaimed := h.claimed
        rw [Pool.claimed, ← @flatMap_same _ before after w w' _ hkept.1] at hclaimed
        show List.Perm _ (List.range (min s'.next job.count))
        rw [hkept.2]
        exact hclaimed
    | inr hgrown =>
        have hclaimed := h.claimed.append_right [s.next]
        have hnext := hgrown.2.1
        show List.Perm _ (List.range (min s'.next job.count))
        rw [hgrown.2.2, show min (s.next + 1) job.count = s.next + 1 by omega, List.range_succ]
        rw [show min s.next job.count = s.next by omega] at hclaimed
        exact (flatMap_grown hgrown.1).trans hclaimed
  · have hfinished := h.finished
    cases hturn.settled with
    | inl hkept =>
        rw [Pool.settled, ← @flatMap_same _ before after w w' _ hkept.1] at hfinished
        exact hkept.2.trans hfinished
    | inr hgrown =>
        cases hgrown with
        | intro item hgrown =>
            have hlength := (@flatMap_grown _ before after w w' _ item hgrown.1).length_eq
            rw [List.length_append, List.length_singleton] at hlength
            show s'.finished = _
            rw [hgrown.2, hfinished]
            exact hlength.symm
  · cases mem_replaced hv with
    | inl heq => exact hturn.stopped (heq ▸ hstopped)
    | inr hold => exact (h.stopped v hold hstopped).trans hturn.next_le
  · cases mem_replaced hv with
    | inl heq => exact heq ▸ hturn.produced (h.produced w (by simp))
    | inr hold => exact h.produced v hold
  · cases mem_replaced hv with
    | inl heq => exact heq ▸ hturn.broken
    | inr hold => exact h.broken v hold

theorem Moved.inv {s s' : Pool ρ} (h : Moved job s s') (hinv : Inv job s) : Inv job s' := by
  cases h with
  | turn hturn => exact hinv.turn hturn
  | join number => exact hinv.join number

/-! ## Items in layers -/

/-- No item past the start of a layer is ready before the layer is. -/
def Layered (job : Job ρ) : Prop :=
  ∀ i j, job.ready i ≤ j → job.ready i ≤ job.ready j

/-- What has begun has everything before its layer behind it. -/
def Ordered (job : Job ρ) (s : Pool ρ) : Prop :=
  ∀ i ∈ s.begun, ∀ j < job.ready i, j ∈ s.settled

theorem settled_subset_begun (s : Pool ρ) : ∀ i ∈ s.settled, i ∈ s.begun := by
  intro i hi
  have hmem := List.mem_flatMap.mp hi
  cases hmem with
  | intro w hw =>
      refine List.mem_flatMap.mpr ⟨w, hw.1, ?_⟩
      cases List.mem_append.mp hw.2 with
      | inl hended => exact List.mem_append_left _ hended
      | inr hlost =>
          refine List.mem_append_right _ ?_
          cases hphase : w.phase with
          | broken item => simpa [hphase, Phase.lost, Phase.begun] using hlost
          | _ => simp [hphase, Phase.lost] at hlost

/-- As many items are over as a layer asks for only once the layers before it
are. -/
theorem all_settled {s : Pool ρ} (hlayers : Layered job) (hinv : Inv job s) (hordered : Ordered job s)
    {i : Nat} (hready : job.ready i ≤ s.shared.finished) : ∀ j < job.ready i, j ∈ s.settled := by
  by_cases hpast : ∃ k ∈ s.settled, job.ready i ≤ k
  · -- an item of this layer is over, so it was begun, and everything before it was over
    cases hpast with
    | intro k hk =>
        intro j hj
        exact hordered k (settled_subset_begun s k hk.1) j
          (hj.trans_le (hlayers i k hk.2))
  · -- only items of earlier layers are over, and there are no more of these
    have hnodup : s.settled.Nodup :=
      (hinv.claimed.nodup_iff.mpr List.nodup_range).sublist (settled_sublist_claimed s)
    have hsubset : s.settled ⊆ List.range (job.ready i) := by
      intro k hk
      refine List.mem_range.mpr (Nat.lt_of_not_le fun hle => hpast ⟨k, hk, hle⟩)
    have hlength : (List.range (job.ready i)).length ≤ s.settled.length := by
      rw [List.length_range, ← hinv.finished]
      exact hready
    have hperm := (hnodup.subperm hsubset).perm_of_length_le hlength
    intro j hj
    exact hperm.mem_iff.mpr (List.mem_range.mpr hj)

theorem Ordered.join {s : Shared} {workers : List (Worker ρ)} (h : Ordered job ⟨s, workers⟩)
    (number : Nat) : Ordered job ⟨s, workers ++ [.fresh number]⟩ := by
  have hbegun : (⟨s, workers ++ [.fresh number]⟩ : Pool ρ).begun =
      (⟨s, workers⟩ : Pool ρ).begun := by
    simp [Pool.begun, Worker.begun, Worker.fresh, Phase.begun]
  have hover : (⟨s, workers ++ [.fresh number]⟩ : Pool ρ).settled =
      (⟨s, workers⟩ : Pool ρ).settled := by
    simp [Pool.settled, Worker.settled, Worker.fresh, Phase.lost]
  intro i hi j hj
  rw [hbegun] at hi
  rw [hover]
  exact h i hi j hj

theorem Ordered.turn (hlayers : Layered job) {s s' : Shared} {before after : List (Worker ρ)}
    {w w' : Worker ρ} (hinv : Inv job ⟨s, before ++ w :: after⟩)
    (h : Ordered job ⟨s, before ++ w :: after⟩) (hturn : Turn job s w s' w') :
    Ordered job ⟨s', before ++ w' :: after⟩ := by
  -- what was over stays over
  have hkept : ∀ j ∈ (before ++ w :: after).flatMap Worker.settled,
      j ∈ (before ++ w' :: after).flatMap Worker.settled := by
    intro j hj
    cases hturn.settled with
    | inl hsame => exact (@flatMap_same _ before after w w' _ hsame.1) ▸ hj
    | inr hgrown =>
        cases hgrown with
        | intro item hgrown =>
            exact (flatMap_grown hgrown.1).mem_iff.mpr (List.mem_append_left _ hj)
  intro i hi j hj
  cases hturn.begun with
  | inl hsame =>
      have hold : i ∈ (before ++ w :: after).flatMap Worker.begun :=
        (@flatMap_same _ before after w w' _ hsame) ▸ hi
      exact hkept j (h i hold j hj)
  | inr hstart =>
      cases hstart with
      | intro item hstart =>
          cases List.mem_append.mp ((flatMap_grown hstart.1).mem_iff.mp hi) with
          | inl hold => exact hkept j (h i hold j hj)
          | inr hnew =>
              rw [List.mem_singleton.mp hnew] at hj
              exact hkept j (all_settled hlayers hinv h hstart.2.2 j hj)

/-- An item is begun only once everything before its layer is over. -/
theorem Moved.ordered (hlayers : Layered job) {s s' : Pool ρ} (h : Moved job s s')
    (hinv : Inv job s) (hordered : Ordered job s) : Ordered job s' := by
  cases h with
  | turn hturn => exact hordered.turn hlayers hinv hturn
  | join number => exact hordered.join number

theorem Ordered.empty : Ordered job (Pool.empty : Pool ρ) := by
  intro i hi
  simp [Pool.begun, Pool.empty] at hi

/-! ## Progress -/

/-- The worker takes no more turns. -/
def Phase.isOver : Phase → Bool
  | .stopped => true
  | .broken _ => true
  | _ => false

theorem exists_turn_of_free {s : Shared} {w : Worker ρ} (h : w.phase.isOver = false)
    (hready : ∀ item, w.phase = .waiting item → job.ready item ≤ s.finished) :
    ∃ s' w', w.turn job s = some (s', w') := by
  unfold Worker.turn
  cases hphase : w.phase with
  | pulling => by_cases hnext : s.next < job.count <;> simp [hnext]
  | waiting item => simp [hready item hphase]
  | working item => cases hwork : job.work w.number item <;> simp [hwork]
  | stopped => simp [hphase, Phase.isOver] at h
  | broken item => simp [hphase, Phase.isOver] at h

/-- Where every worker that is not over waits, the item the first of them waits for has
everything before it over. -/
theorem least_waiting {s : Pool ρ} (hinv : Inv job s)
    (hwaits : ∀ w ∈ s.workers, w.phase.isOver = false → ∃ item, w.phase = .waiting item) {i : Nat}
    (hclaimed : i ∈ s.claimed) (hleast : ∀ j < i, ¬∃ w ∈ s.workers, w.phase = .waiting j) :
    i ≤ s.shared.finished := by
  have hsubset : List.range i ⊆ s.settled := by
    intro j hj
    have hlt := List.mem_range.mp hj
    have hi := List.mem_range.mp (hinv.claimed.mem_iff.mp hclaimed)
    have hmem := hinv.claimed.mem_iff.mpr (List.mem_range.mpr (hlt.trans hi))
    cases List.mem_flatMap.mp hmem with
    | intro w hw =>
        refine List.mem_flatMap.mpr ⟨w, hw.1, ?_⟩
        cases List.mem_append.mp hw.2 with
        | inl hended => exact List.mem_append_left _ hended
        | inr hheld =>
            refine List.mem_append_right _ ?_
            cases hphase : w.phase with
            | waiting item =>
                rw [hphase, Phase.held, List.mem_singleton] at hheld
                rw [← hheld] at hphase
                exact absurd ⟨w, hw.1, hphase⟩ (hleast j hlt)
            | working item =>
                have hwait := hwaits w hw.1 (by rw [hphase]; rfl)
                simp [hphase] at hwait
            | broken item => simpa [hphase, Phase.held, Phase.lost] using hheld
            | pulling => simp [hphase, Phase.held] at hheld
            | stopped => simp [hphase, Phase.held] at hheld
  have hlength := (List.nodup_range.subperm hsubset).length_le
  rw [List.length_range, ← hinv.finished] at hlength
  exact hlength

/-- Unless every worker is over, one of them can take its turn. -/
theorem exists_turn {s : Pool ρ} (hinv : Inv job s) (hready : ∀ i, job.ready i ≤ i)
    (h : ∃ w ∈ s.workers, w.phase.isOver = false) :
    ∃ w ∈ s.workers, ∃ s' w', w.turn job s.shared = some (s', w') := by
  classical
  by_cases hwaits : ∀ w ∈ s.workers, w.phase.isOver = false → ∃ item, w.phase = .waiting item
  · have hexists : ∃ item, ∃ w ∈ s.workers, w.phase = .waiting item := by
      cases h with
      | intro w hw =>
          cases hwaits w hw.1 hw.2 with
          | intro item hphase => exact ⟨item, w, hw.1, hphase⟩
    cases Nat.find_spec hexists with
    | intro w hw =>
        have hclaimed : Nat.find hexists ∈ s.claimed := by
          refine List.mem_flatMap.mpr ⟨w, hw.1, List.mem_append_right _ ?_⟩
          simp [hw.2, Phase.held]
        have hfinished := least_waiting hinv hwaits hclaimed fun j hj => Nat.find_min hexists hj
        refine ⟨w, hw.1, exists_turn_of_free (by rw [hw.2]; rfl) fun item hphase => ?_⟩
        have hsame : Nat.find hexists = item := Phase.waiting.inj (hw.2.symm.trans hphase)
        rw [hsame] at hfinished
        exact (hready item).trans hfinished
  · -- a worker that pulls or works can always go on
    push Not at hwaits
    cases hwaits with
    | intro w hw =>
        exact ⟨w, hw.1, exists_turn_of_free hw.2.1 fun item hphase =>
          absurd hphase (hw.2.2 item)⟩

/-! ## Termination -/

/-- The turns a worker can still take without claiming anything more. -/
def Phase.left : Phase → Nat
  | .pulling => 1
  | .waiting _ => 3
  | .working _ => 2
  | _ => 0

/-- A bound on the turns that are left. -/
def potential (job : Job ρ) (s : Pool ρ) : Nat :=
  3 * (job.count - s.shared.next) + (s.workers.map fun w => w.phase.left).sum

/-- Every turn is one of those left. -/
theorem Turn.potential_lt {s s' : Shared} {before after : List (Worker ρ)} {w w' : Worker ρ}
    (h : Turn job s w s' w') :
    potential job ⟨s', before ++ w' :: after⟩ < potential job ⟨s, before ++ w :: after⟩ := by
  simp only [potential, List.map_append, List.map_cons, List.sum_append, List.sum_cons]
  cases h with
  | claim hphase hnext =>
      rw [hphase]
      simp only [Phase.left]
      omega
  | stop hphase hnext =>
      rw [hphase]
      simp only [Phase.left]
      omega
  | start hphase hready =>
      rw [hphase]
      simp only [Phase.left]
      omega
  | finish hphase hwork =>
      rw [hphase]
      simp only [Phase.left]
      omega
  | breakDown hphase hwork =>
      rw [hphase]
      simp only [Phase.left]
      omega

theorem potential_join (s : Pool ρ) (number : Nat) :
    potential job ⟨s.shared, s.workers ++ [.fresh number]⟩ = potential job s + 1 := by
  simp [potential, Worker.fresh, Phase.left]
  omega

/-! ## When every worker is over -/

/-- What the workers that did not break have produced. -/
def merged (s : Pool ρ) : List (Nat × ρ) :=
  (s.workers.filter fun w => w.phase.lost.isEmpty).flatMap Worker.produced

/-- The items the workers that broke had claimed. -/
def lost (s : Pool ρ) : List Nat :=
  (s.workers.filter fun w => !w.phase.lost.isEmpty).flatMap Worker.settled

/-- Where no work breaks its worker nothing is lost. -/
theorem lost_eq_nil {s : Pool ρ} (hinv : Inv job s)
    (hcalm : ∀ number item, job.work number item ≠ .broken) : lost s = [] := by
  refine List.flatMap_eq_nil_iff.mpr fun w hw => ?_
  have hmem := List.mem_filter.mp hw
  cases hlost : w.phase.lost with
  | nil => simp [hlost] at hmem
  | cons item rest => exact absurd (hinv.broken w hmem.1 item (by simp [hlost])) (hcalm _ _)

section Done

variable {s : Pool ρ} (hinv : Inv job s) (hover : ∀ w ∈ s.workers, w.phase.isOver = true)

include hinv hover

/-- Once one worker has run out of items, every item is over. -/
theorem settled_perm (hstopped : ∃ w ∈ s.workers, w.phase = .stopped) :
    s.settled.Perm (List.range job.count) := by
  have hclaimed : s.claimed = s.settled := by
    refine List.flatMap_congr fun w hw => ?_
    have hphase := hover w hw
    cases hw' : w.phase with
    | stopped => simp [Worker.claimed, Worker.settled, hw', Phase.held, Phase.lost]
    | broken item => simp [Worker.claimed, Worker.settled, hw', Phase.held, Phase.lost]
    | _ => simp [hw', Phase.isOver] at hphase
  have hnext : job.count ≤ s.shared.next := by
    cases hstopped with
    | intro w hw => exact hinv.stopped w hw.1 hw.2
  have hperm := hinv.claimed
  rw [hclaimed, Nat.min_eq_right hnext] at hperm
  exact hperm

omit hinv hover in
theorem settled_split : s.settled.Perm
    ((s.workers.filter fun w => w.phase.lost.isEmpty).flatMap Worker.ended ++ lost s) := by
  have hended : (s.workers.filter fun w => w.phase.lost.isEmpty).flatMap Worker.ended =
      (s.workers.filter fun w => w.phase.lost.isEmpty).flatMap Worker.settled := by
    refine List.flatMap_congr fun w hw => ?_
    have hempty := (List.mem_filter.mp hw).2
    rw [List.isEmpty_iff] at hempty
    rw [Worker.settled, hempty, List.append_nil]
  rw [hended, lost, ← List.flatMap_append]
  have hparts := List.filter_append_perm (fun w : Worker ρ => w.phase.lost.isEmpty) s.workers
  exact hparts.symm.flatMap_right _

/-- What was produced is what the items come to that no broken worker had claimed, each
once. -/
theorem merged_perm (hstopped : ∃ w ∈ s.workers, w.phase = .stopped) (results : Nat → List (Nat × ρ))
    (hwork : ∀ number item, (job.work number item).results item = results item) :
    (merged s).Perm
      (((List.range job.count).filter fun item => !(lost s).contains item).flatMap results) := by
  have hperm := settled_split.symm.trans (settled_perm hinv hover hstopped)
  have hnodup := hperm.nodup_iff.mpr List.nodup_range
  have hkept := hperm.filter fun item => !(lost s).contains item
  have hended : ((s.workers.filter fun w => w.phase.lost.isEmpty).flatMap Worker.ended ++
      lost s).filter (fun item => !(lost s).contains item) =
        (s.workers.filter fun w => w.phase.lost.isEmpty).flatMap Worker.ended := by
    have hnone : (lost s).filter (fun item => !(lost s).contains item) = [] := by
      simp [List.filter_eq_nil_iff]
    rw [List.filter_append, hnone, List.append_nil]
    refine List.filter_eq_self.mpr fun item hitem => ?_
    simpa using (List.disjoint_of_nodup_append hnodup) hitem
  rw [hended] at hkept
  have hmerged : merged s =
      ((s.workers.filter fun w => w.phase.lost.isEmpty).flatMap Worker.ended).flatMap results := by
    rw [merged, List.flatMap_assoc]
    refine List.flatMap_congr fun w hw => ?_
    rw [hinv.produced w (List.mem_filter.mp hw).1]
    exact List.flatMap_congr fun item _ => hwork w.number item
  rw [hmerged]
  exact hkept.flatMap_right results

end Done

end PhpantomLsp.Lib.WorkerPool
