import Mathlib.Data.List.SplitBy
import PhpantomLsp.Lib.Layering
import PhpantomLsp.Lib.SharedStore
import PhpantomLsp.Parallel.Pool

/-!
# Items in layers

`for_each_layered` runs an item only once as many items have finished as the item
asks for.  Where `ready_after` never falls and each of its values is the place
its layer starts at, an item is begun only once every item before its layer is
over, whichever worker picked it up and whichever of the others panicked
(`Call.ordered_of_run`).  However few workers the system let start, the run ends
with every item worked on once (`begun_perm_of_returned`).  Where the items write
to a shared store, and read nothing of their own layer but what they write
themselves, the store ends as a single worker would have left it
(`store_of_returned`).
-/

namespace PhpantomLsp.Parallel

open PhpantomLsp.Lib PhpantomLsp.Lib.Layering PhpantomLsp.Lib.WorkerPool

universe u

variable {ρ : Type u}

/-- The length of the longest run of equal values, at least one. -/
def widestLayer (readyAfter : List Nat) : Nat :=
  ((readyAfter.splitBy fun a b => a == b).map List.length).max?.getD 1

/-- The plan of `for_each_layered`.  A pool of one is no pool: the calling thread
drains the items and no worker is spawned. -/
def layeredPlan (availableCores : Nat) (readyAfter : List Nat) (work : Nat → Outcome ρ) :
    Plan ρ where
  job := ⟨readyAfter.length, fun i => readyAfter.getD i i, fun _ => work⟩
  threads :=
    let threads := min availableCores (widestLayer readyAfter)
    if threads ≤ 1 then 0 else threads
  drainsAfter := true

variable {availableCores : Nat} {readyAfter : List Nat} {work : Nat → Outcome ρ}

theorem ready_le (h : LayerStarts readyAfter) (i : Nat) :
    (layeredPlan availableCores readyAfter work).job.ready i ≤ i := by
  show readyAfter.getD i i ≤ i
  by_cases hi : i < readyAfter.length
  · exact h.le i hi
  · exact (getD_of_length_le (Nat.le_of_not_lt hi)).le

theorem layered (h : LayerStarts readyAfter) :
    Layered (layeredPlan availableCores readyAfter work).job := by
  intro i j hij
  show readyAfter.getD i i ≤ readyAfter.getD j j
  replace hij : readyAfter.getD i i ≤ j := hij
  by_cases hj : j < readyAfter.length
  · by_cases hi : i < readyAfter.length
    · calc readyAfter.getD i i
          = readyAfter.getD (readyAfter.getD i i) (readyAfter.getD i i) := (h.start i hi).symm
        _ ≤ readyAfter.getD j j := h.sorted _ _ hij hj
    · rw [getD_of_length_le (Nat.le_of_not_lt hi)] at hij
      omega
  · rw [getD_of_length_le (Nat.le_of_not_lt hj)]
    exact hij

/-! ## Over a whole run -/

section Run

variable {plan : Plan ρ} {call call' : Call ρ}

theorem Stepped.ordered (hlayers : Layered plan.job) (h : Stepped plan call call')
    (hinv : Call.Inv plan call) (hordered : Ordered plan.job call.pool) :
    Ordered plan.job call'.pool := by
  cases h.moved with
  | inl hsame => exact hsame ▸ hordered
  | inr hmoved => exact hmoved.ordered hlayers hinv.pool hordered

/-- After any events, what has been begun has everything before its layer behind it. -/
theorem Call.ordered_of_run (hlayers : Layered plan.job) {events : List Event}
    (hrun : attempt (Call.step plan) Call.start events = some call) :
    Ordered plan.job call.pool := by
  have hboth : Call.Inv plan call ∧ Ordered plan.job call.pool := by
    refine @attempt_invariant _ _ (Call.step plan)
      (fun call => Call.Inv plan call ∧ Ordered plan.job call.pool) ?_ _ _
      ⟨Call.Inv.start, Ordered.empty⟩ _ hrun
    intro s event s' hs hstep
    have hstepped := stepped_of_step hstep
    exact ⟨hstepped.inv hs.1, hstepped.ordered hlayers hs.1 hs.2⟩
  exact hboth.2

theorem begun_eq_settled (h : ∀ w ∈ call.pool.workers, w.phase.isOver = true) :
    call.pool.begun = call.pool.settled := by
  refine List.flatMap_congr fun w hw => ?_
  have hphase := h w hw
  cases hw' : w.phase with
  | stopped => simp [Worker.begun, Worker.settled, hw', Phase.begun, Phase.lost]
  | broken item => simp [Worker.begun, Worker.settled, hw', Phase.begun, Phase.lost]
  | _ => simp [hw', Phase.isOver] at hphase

theorem isOver_of_returned (hinv : Call.Inv plan call) (hreturned : call.stage = .returned) :
    ∀ w ∈ call.pool.workers, w.phase.isOver = true := by
  cases hinv.standing with
  | spawning hroom hlength => cases hreturned
  | serial hover hlength => cases hreturned
  | returned hover hlength hstopped => exact hover

/-- A run in which the calling thread drains too ends with every item over. -/
theorem settled_perm_of_returned (hinv : Call.Inv plan call) (hdrains : plan.drainsAfter = true)
    (hreturned : call.stage = .returned) : call.pool.settled.Perm (List.range plan.job.count) := by
  cases hinv.standing with
  | spawning hroom hlength => cases hreturned
  | serial hover hlength => cases hreturned
  | returned hover hlength hstopped =>
      exact settled_perm hinv.pool hover (hstopped (by simp [hdrains]))

/-- Each item has been begun once by then. -/
theorem begun_perm_of_returned (hinv : Call.Inv plan call) (hdrains : plan.drainsAfter = true)
    (hreturned : call.stage = .returned) : call.pool.begun.Perm (List.range plan.job.count) := by
  rw [begun_eq_settled (isOver_of_returned hinv hreturned)]
  exact settled_perm_of_returned hinv hdrains hreturned

end Run

/-! ## With a shared store -/

section Store

universe v w

variable {κ : Type v} {σ : Type w} [DecidableEq κ]

/-- An event of the call, or a worker that reads a cell of the store. -/
inductive StoreEvent (κ : Type v) where
  | call (event : Event)
  | read (worker : Nat) (cell : κ)

def storeStep (plan : Plan ρ) (cells : Cells κ σ) (s : Call ρ × Memory κ σ) :
    StoreEvent κ → Option (Call ρ × Memory κ σ)
  | .call (.turn worker) =>
      (s.1.step plan (.turn worker)).map fun call => (call, s.2.turn cells s.1.pool worker)
  | .call event => (s.1.step plan event).map fun call => (call, s.2)
  | .read worker cell => some (s.1, s.2.read worker cell)

/-- A call before its first event, over a store. -/
def storeStart (initial : κ → σ) : Call ρ × Memory κ σ := (.start, ⟨initial, fun _ => initial⟩)

/-- What holds of a call over a store after any run. -/
structure Shares (plan : Plan ρ) (cells : Cells κ σ) (initial : κ → σ)
    (s : Call ρ × Memory κ σ) : Prop where
  inv : Call.Inv plan s.1
  ordered : Ordered plan.job s.1.pool
  fed : Fed cells plan.job initial s.1.pool s.2

variable {plan : Plan ρ} {cells : Cells κ σ} {initial : κ → σ} {s s' : Call ρ × Memory κ σ}

/-- An event that moves no worker but may let one join. -/
theorem fed_of_stepped {call call' : Call ρ} {m : Memory κ σ} {event : Event}
    (h : Fed cells plan.job initial call.pool m) (hevent : ∀ worker, event ≠ .turn worker)
    (hstep : call.step plan event = some call') : Fed cells plan.job initial call'.pool m := by
  cases event with
  | turn worker => exact absurd rfl (hevent worker)
  | spawned =>
      cases hstage : call.stage with
      | spawning attempted =>
          simp only [Call.step, hstage] at hstep
          split at hstep
          · obtain ⟨pool, hpool, hcall⟩ := Option.map_eq_some_iff.mp hstep
            rw [← hcall, ← Option.some.inj hpool]
            exact h.join attempted
          · cases hstep
      | _ => simp [Call.step, hstage] at hstep
  | refused =>
      cases hstage : call.stage with
      | spawning attempted =>
          simp only [Call.step, hstage] at hstep
          split at hstep
          · rw [← Option.some.inj hstep]
            exact h
          · cases hstep
      | _ => simp [Call.step, hstage] at hstep
  | joined =>
      cases hstage : call.stage with
      | spawning attempted =>
          simp only [Call.step, hstage] at hstep
          split at hstep
          · split at hstep
            · obtain ⟨pool, hpool, hcall⟩ := Option.map_eq_some_iff.mp hstep
              rw [← hcall, ← Option.some.inj hpool]
              exact h.join plan.threads
            · rw [← Option.some.inj hstep]
              exact h
          · cases hstep
      | _ => simp [Call.step, hstage] at hstep
  | drained =>
      cases hstage : call.stage with
      | serial =>
          simp only [Call.step, hstage] at hstep
          split at hstep
          · rw [← Option.some.inj hstep]
            exact h
          · cases hstep
      | _ => simp [Call.step, hstage] at hstep

variable (happart : Apart cells plan.job) (hlayers : Layered plan.job)
  (hready : ∀ i, plan.job.ready i ≤ i) (hcalm : ∀ number item, plan.job.work number item ≠ .broken)

include happart hlayers hready hcalm

theorem Shares.step {event : StoreEvent κ} (h : Shares plan cells initial s)
    (hstep : storeStep plan cells s event = some s') : Shares plan cells initial s' := by
  cases event with
  | read worker cell =>
      rw [← Option.some.inj hstep]
      exact ⟨h.inv, h.ordered, h.fed.read h.inv.pool h.ordered worker cell⟩
  | call event =>
      cases event with
      | turn worker =>
          obtain ⟨call', hcall, hs'⟩ := Option.map_eq_some_iff.mp hstep
          have hstepped := stepped_of_step hcall
          obtain ⟨pool, hpool, hcall'⟩ := Option.map_eq_some_iff.mp hcall
          rw [← hs']
          refine ⟨hstepped.inv h.inv, hstepped.ordered hlayers h.inv h.ordered, ?_⟩
          rw [← hcall']
          exact h.fed.turn happart hlayers hready hcalm h.inv.pool h.ordered hpool
      | _ =>
          obtain ⟨call', hcall, hs'⟩ := Option.map_eq_some_iff.mp hstep
          have hstepped := stepped_of_step hcall
          rw [← hs']
          exact ⟨hstepped.inv h.inv, hstepped.ordered hlayers h.inv h.ordered,
            fed_of_stepped h.fed (fun _ => by simp) hcall⟩

theorem Shares.of_run {events : List (StoreEvent κ)}
    (hrun : attempt (storeStep plan cells) (storeStart initial) events = some s) :
    Shares plan cells initial s :=
  attempt_invariant
    (fun _ _ _ h hstep => Shares.step happart hlayers hready hcalm h hstep)
    ⟨Call.Inv.start, Ordered.empty, Fed.empty _⟩ hrun

/-- Whoever worked on which item, and whatever the moment each cell was read at, the store
ends as it would have, had the items been done one after the other. -/
theorem store_of_returned {events : List (StoreEvent κ)} (hdrains : plan.drainsAfter = true)
    (hrun : attempt (storeStep plan cells) (storeStart initial) events = some s)
    (hreturned : s.1.stage = .returned) :
    s.2.store = serial cells initial plan.job.count := by
  have h := Shares.of_run happart hlayers hready hcalm hrun
  refine h.fed.store_eq happart fun j hj => ?_
  have hperm := settled_perm_of_returned h.inv hdrains hreturned
  exact hperm.mem_iff.mpr (List.mem_range.mpr hj)

end Store

end PhpantomLsp.Parallel
