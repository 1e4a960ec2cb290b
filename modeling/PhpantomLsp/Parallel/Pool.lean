import Mathlib.Data.List.Sort
import PhpantomLsp.Lib.WorkerPool

/-!
# The pull-index worker pool

Every parallel scan walks a list of items with one worker per core and a shared
counter, from which each worker pulls its next index.  The calling thread spawns
the workers one after the other and joins them; a worker the system refuses to
spawn leaves its share to the others, and the calling thread then drains what is
left itself.  A worker that panics loses the items it had claimed.

Workers take their turns in any order.  Whatever the order, `map_indexed` gives
what the items come to, each once (`mapIndexed_complete`), and `map_in_blocks`
gives what a plain pass over the items gives, in their order
(`mapInBlocks_eq_filterMap`).  No call waits for ever (`Call.exists_event`), and
how many turns it takes is bounded (`Call.length_le`).
-/

namespace PhpantomLsp.Parallel

open PhpantomLsp.Lib PhpantomLsp.Lib.WorkerPool

universe u v

variable {ρ : Type u}

/-- Where the calling thread is: it has tried to spawn `attempted` workers, or
drains the items itself. -/
inductive Stage where
  | spawning (attempted : Nat)
  | serial
  | returned

structure Call (ρ : Type u) where
  stage : Stage
  spawnFailed : Bool
  pool : Pool ρ

/-- What happens next: the calling thread spawns a worker or is refused one, a
worker takes its turn, or the calling thread comes back from its workers, or
from its own drain. -/
inductive Event where
  | spawned
  | refused
  | turn (worker : Nat)
  | joined
  | drained

/-- How a pool is run: how many workers are spawned, and whether the calling
thread drains the items even if none was refused. -/
structure Plan (ρ : Type u) where
  job : Job ρ
  threads : Nat
  drainsAfter : Bool

/-- Every worker of a pool is over. -/
def allOver (pool : Pool ρ) : Bool := pool.workers.all fun w => w.phase.isOver

/-- The drain of the calling thread, the last of the pool, ran out of items. -/
def callerStopped (pool : Pool ρ) : Bool :=
  pool.workers.getLast?.any fun w => w.phase.isOver && w.phase.lost.isEmpty

/-- One event of `run_workers` and of what follows it. -/
def Call.step (plan : Plan ρ) (call : Call ρ) : Event → Option (Call ρ)
  | .spawned =>
      match call.stage with
      | .spawning attempted =>
          if attempted < plan.threads then
            (call.pool.step plan.job (.join attempted)).map fun pool =>
              { call with stage := .spawning (attempted + 1), pool }
          else none
      | _ => none
  | .refused =>
      match call.stage with
      | .spawning attempted =>
          if attempted < plan.threads then
            some { call with stage := .spawning (attempted + 1), spawnFailed := true }
          else none
      | _ => none
  | .turn worker =>
      (call.pool.step plan.job (.turn worker)).map fun pool => { call with pool }
  | .joined =>
      match call.stage with
      | .spawning attempted =>
          if attempted = plan.threads ∧ allOver call.pool = true then
            if plan.drainsAfter || call.spawnFailed then
              (call.pool.step plan.job (.join plan.threads)).map fun pool =>
                { call with stage := .serial, pool }
            else some { call with stage := .returned }
          else none
      | _ => none
  | .drained =>
      match call.stage with
      | .serial => if callerStopped call.pool then some { call with stage := .returned } else none
      | _ => none

/-- A call that has spawned no worker yet. -/
def Call.start : Call ρ := ⟨.spawning 0, false, .empty⟩

/-! ## What the events do -/

variable {plan : Plan ρ}

/-- A pool that one more worker has joined. -/
def joinedBy (pool : Pool ρ) (number : Nat) : Pool ρ :=
  ⟨pool.shared, pool.workers ++ [.fresh number]⟩

inductive Stepped (plan : Plan ρ) : Call ρ → Call ρ → Prop where
  | spawned {attempted failed pool} (hroom : attempted < plan.threads) :
      Stepped plan ⟨.spawning attempted, failed, pool⟩
        ⟨.spawning (attempted + 1), failed, joinedBy pool attempted⟩
  | refused {attempted failed pool} (hroom : attempted < plan.threads) :
      Stepped plan ⟨.spawning attempted, failed, pool⟩ ⟨.spawning (attempted + 1), true, pool⟩
  | turn {stage failed pool pool' before w after w'}
      (hturn : Turn plan.job pool.shared w pool'.shared w')
      (hworkers : pool.workers = before ++ w :: after)
      (hworkers' : pool'.workers = before ++ w' :: after) :
      Stepped plan ⟨stage, failed, pool⟩ ⟨stage, failed, pool'⟩
  | joined {failed pool} (hover : ∀ w ∈ pool.workers, w.phase.isOver = true)
      (hdrains : (plan.drainsAfter || failed) = true) :
      Stepped plan ⟨.spawning plan.threads, failed, pool⟩
        ⟨.serial, failed, joinedBy pool plan.threads⟩
  | left {pool} (hover : ∀ w ∈ pool.workers, w.phase.isOver = true)
      (hdrains : plan.drainsAfter = false) :
      Stepped plan ⟨.spawning plan.threads, false, pool⟩ ⟨.returned, false, pool⟩
  | drained {failed pool} (hstopped : callerStopped pool = true) :
      Stepped plan ⟨.serial, failed, pool⟩ ⟨.returned, failed, pool⟩

theorem stepped_of_step {call call' : Call ρ} {event : Event}
    (h : call.step plan event = some call') : Stepped plan call call' := by
  cases call with
  | mk stage failed pool =>
      cases event with
      | turn worker =>
          cases Option.map_eq_some_iff.mp h with
          | intro pool' hpool =>
              obtain ⟨before, w, after, w', hturn, hs, hs'⟩ := moved_of_turn hpool.1
              rw [← hpool.2]
              exact .turn hturn hs hs'
      | spawned =>
          cases stage with
          | spawning attempted =>
              by_cases hroom : attempted < plan.threads
              · simp only [Call.step, hroom, if_true, Pool.step, Option.map_some,
                  Option.some.injEq] at h
                rw [← h]
                exact .spawned hroom
              · simp [Call.step, hroom] at h
          | _ => cases h
      | refused =>
          cases stage with
          | spawning attempted =>
              by_cases hroom : attempted < plan.threads
              · simp only [Call.step, hroom, if_true, Option.some.injEq] at h
                rw [← h]
                exact .refused hroom
              · simp [Call.step, hroom] at h
          | _ => cases h
      | joined =>
          cases stage with
          | spawning attempted =>
              by_cases hdone : attempted = plan.threads ∧ allOver pool = true
              · have hover : ∀ w ∈ pool.workers, w.phase.isOver = true :=
                  List.all_eq_true.mp hdone.2
                rw [hdone.1] at h ⊢
                by_cases hdrains : (plan.drainsAfter || failed) = true
                · simp only [Call.step, hdone.2, hdrains, and_self, if_true, Pool.step,
                    Option.map_some, Option.some.injEq] at h
                  rw [← h]
                  exact .joined hover hdrains
                · simp only [Bool.or_eq_true, not_or, Bool.not_eq_true] at hdrains
                  simp only [Call.step, hdone.2, hdrains.1, hdrains.2, and_self, if_true,
                    Bool.or_self, Bool.false_eq_true, if_false, Option.some.injEq] at h
                  rw [← h, hdrains.2]
                  exact .left hover hdrains.1
              · simp [Call.step, hdone] at h
          | _ => cases h
      | drained =>
          cases stage with
          | serial =>
              by_cases hstopped : callerStopped pool = true
              · simp only [Call.step, hstopped, if_true, Option.some.injEq] at h
                rw [← h]
                exact .drained hstopped
              · simp [Call.step, hstopped] at h
          | _ => cases h

theorem Stepped.moved {call call' : Call ρ} (h : Stepped plan call call') :
    call'.pool = call.pool ∨ Moved plan.job call.pool call'.pool := by
  cases h with
  | spawned hroom => exact .inr (.join _)
  | refused hroom => exact .inl rfl
  | @turn stage failed pool pool' before w after w' hturn hworkers hworkers' =>
      refine .inr ?_
      show Moved plan.job pool pool'
      rw [show pool = ⟨pool.shared, before ++ w :: after⟩ from hworkers ▸ rfl,
        show pool' = ⟨pool'.shared, before ++ w' :: after⟩ from hworkers' ▸ rfl]
      exact .turn hturn
  | joined hover hdrains => exact .inr (.join _)
  | left hover hdrains => exact .inl rfl
  | drained hstopped => exact .inl rfl

/-! ## What a call keeps -/

/-- Where the calling thread stands to its workers. -/
inductive Standing (plan : Plan ρ) : Call ρ → Prop where
  | spawning {attempted failed pool} (hroom : attempted ≤ plan.threads)
      (hlength : failed = false → pool.workers.length = attempted) :
      Standing plan ⟨.spawning attempted, failed, pool⟩
  | serial {failed shared front caller} (hover : ∀ w ∈ front, w.phase.isOver = true)
      (hlength : failed = false → plan.threads ≤ front.length) :
      Standing plan ⟨.serial, failed, ⟨shared, front ++ [caller]⟩⟩
  | returned {failed pool} (hover : ∀ w ∈ pool.workers, w.phase.isOver = true)
      (hlength : failed = false → plan.threads ≤ pool.workers.length)
      (hstopped : (plan.drainsAfter || failed) = true →
        ∃ w ∈ pool.workers, w.phase = .stopped) :
      Standing plan ⟨.returned, failed, pool⟩

theorem Turn.isOver_eq_false {job : Job ρ} {s s' : Shared} {w w' : Worker ρ}
    (h : Turn job s w s' w') : w.phase.isOver = false := by
  cases h with
  | claim hphase hnext => rw [hphase]; rfl
  | stop hphase hnext => rw [hphase]; rfl
  | start hphase hready => rw [hphase]; rfl
  | finish hphase hwork => rw [hphase]; rfl
  | breakDown hphase hwork => rw [hphase]; rfl

theorem stopped_of_callerStopped {shared : Shared} {front : List (Worker ρ)} {caller : Worker ρ}
    (h : callerStopped ⟨shared, front ++ [caller]⟩ = true) : caller.phase = .stopped := by
  simp only [callerStopped, List.getLast?_concat, Option.any_some, Bool.and_eq_true] at h
  cases hphase : caller.phase with
  | stopped => rfl
  | broken item => simp [hphase, Phase.lost] at h
  | _ => simp [hphase, Phase.isOver] at h

/-- Of the workers only the last is not over, so it is the one that takes a turn. -/
theorem turn_of_front {front before after : List (Worker ρ)} {caller w : Worker ρ}
    (hover : ∀ w ∈ front, w.phase.isOver = true) (hw : w.phase.isOver = false)
    (heq : front ++ [caller] = before ++ w :: after) : front = before ∧ after = [] := by
  cases List.eq_nil_or_concat after with
  | inl hnil =>
      rw [hnil] at heq
      exact ⟨(List.append_inj' heq rfl).1, hnil⟩
  | inr hlast =>
      obtain ⟨rest, last, hrest⟩ := hlast
      rw [hrest, List.concat_eq_append, ← List.cons_append, ← List.append_assoc] at heq
      have hmem : w ∈ front := by
        rw [(List.append_inj' heq rfl).1]
        simp
      exact absurd (hover w hmem) (by simp [hw])

theorem Stepped.standing {call call' : Call ρ} (h : Stepped plan call call')
    (hstanding : Standing plan call) : Standing plan call' := by
  cases h with
  | spawned hroom =>
      cases hstanding with
      | spawning hle hlength =>
          exact .spawning hroom fun hfailed => by simp [joinedBy, hlength hfailed]
  | refused hroom => exact .spawning hroom fun hfailed => absurd hfailed (by simp)
  | joined hover hdrains =>
      cases hstanding with
      | spawning hle hlength => exact .serial hover fun hfailed => (hlength hfailed).ge
  | left hover hdrains =>
      cases hstanding with
      | spawning hle hlength =>
          exact .returned hover (fun hfailed => (hlength hfailed).ge) (by simp [hdrains])
  | drained hstopped =>
      cases hstanding with
      | @serial _ _ front caller hover hlength =>
          have hcaller := stopped_of_callerStopped hstopped
          refine .returned (fun w hw => ?_) (fun hfailed => ?_) fun _ => ⟨caller, by simp, hcaller⟩
          · cases List.mem_append.mp hw with
            | inl hfront => exact hover w hfront
            | inr hlast =>
                rw [List.mem_singleton.mp hlast, hcaller]
                rfl
          · have := hlength hfailed
            simp only [List.length_append]
            omega
  | @turn _ failed pool pool' before w after w' hturn hworkers hworkers' =>
      have hw := Turn.isOver_eq_false hturn
      cases hstanding with
      | spawning hle hlength =>
          refine .spawning hle fun hfailed => ?_
          have hlen := hlength hfailed
          rw [hworkers] at hlen
          rw [hworkers', ← hlen]
          simp
      | @serial _ _ front caller hover hlength =>
          have hfront := turn_of_front hover hw hworkers
          have hpool : pool' = ⟨pool'.shared, front ++ [w']⟩ := by
            rw [hfront.2, ← hfront.1] at hworkers'
            exact hworkers' ▸ rfl
          rw [hpool]
          exact .serial hover hlength
      | returned hover hlength hstopped =>
          have hmem : w ∈ pool.workers := by
            rw [hworkers]
            simp
          exact absurd (hover w hmem) (by simp [hw])

/-- What holds of a call after any run. -/
structure Call.Inv (plan : Plan ρ) (call : Call ρ) : Prop where
  pool : WorkerPool.Inv plan.job call.pool
  standing : Standing plan call

theorem Call.Inv.start : Call.Inv plan (Call.start : Call ρ) where
  pool := WorkerPool.Inv.empty
  standing := .spawning (Nat.zero_le _) fun _ => rfl

theorem Stepped.inv {call call' : Call ρ} (h : Stepped plan call call')
    (hinv : Call.Inv plan call) : Call.Inv plan call' := by
  refine ⟨?_, h.standing hinv.standing⟩
  cases h.moved with
  | inl hsame => exact hsame ▸ hinv.pool
  | inr hmoved => exact hmoved.inv hinv.pool

theorem Call.Inv.of_run {call : Call ρ} {events : List Event}
    (hrun : attempt (Call.step plan) Call.start events = some call) : Call.Inv plan call :=
  attempt_invariant (fun _ _ _ hinv hstep => (stepped_of_step hstep).inv hinv) Call.Inv.start hrun

/-! ## No call waits for ever -/

theorem exists_event_of_isSome {call : Call ρ} (event : Event)
    (h : (call.step plan event).isSome = true) :
    ∃ event call', call.step plan event = some call' :=
  ⟨event, Option.isSome_iff_exists.mp h⟩

theorem exists_turn_event {call : Call ρ} {w : Worker ρ} (hmem : w ∈ call.pool.workers)
    (hturn : ∃ s' w', w.turn plan.job call.pool.shared = some (s', w')) :
    ∃ event call', call.step plan event = some call' := by
  obtain ⟨s', w', hturn⟩ := hturn
  obtain ⟨k, hk⟩ := List.mem_iff_getElem?.mp hmem
  exact exists_event_of_isSome (.turn k) (by simp [Call.step, Pool.step, hk, hturn])

/-- A call that has not returned can go on, unless the calling thread itself panicked. -/
theorem Call.exists_event {call : Call ρ} (hinv : Call.Inv plan call)
    (hready : ∀ i, plan.job.ready i ≤ i) (hreturned : call.stage ≠ .returned)
    (hcaller : ∀ w ∈ call.pool.workers.getLast?, call.stage = .serial → w.phase.lost = []) :
    ∃ event call', call.step plan event = some call' := by
  by_cases hover : ∀ w ∈ call.pool.workers, w.phase.isOver = true
  · have hall : allOver call.pool = true := List.all_eq_true.mpr hover
    cases hstanding : hinv.standing with
    | @spawning attempted failed pool hroom hlength =>
        by_cases hmore : attempted < plan.threads
        · exact exists_event_of_isSome .refused (by simp [Call.step, hmore])
        · have heq : attempted = plan.threads := by omega
          by_cases hdrains : (plan.drainsAfter || failed) = true
          · exact exists_event_of_isSome .joined
              (by simp only [Call.step, heq, hall, hdrains, and_self, if_true, Pool.step]; rfl)
          · exact exists_event_of_isSome .joined
              (by simp only [Call.step, heq, hall, hdrains, and_self, if_true]; rfl)
    | @serial failed shared front caller hfront hlength =>
        have hlost := hcaller caller (by simp) rfl
        have hcallerOver := hover caller (by simp)
        exact exists_event_of_isSome .drained (by simp [Call.step, callerStopped, hlost, hcallerOver])
    | returned hover hlength hstopped => exact absurd rfl hreturned
  · push Not at hover
    have hactive : ∃ w ∈ call.pool.workers, w.phase.isOver = false := by
      simpa using hover
    obtain ⟨w, hmem, hturn⟩ := exists_turn hinv.pool hready hactive
    exact exists_turn_event hmem hturn

/-- What is left of a call: its workers' turns, and what the calling thread still does. -/
def Call.left (plan : Plan ρ) (call : Call ρ) : Nat :=
  potential plan.job call.pool +
    match call.stage with
    | .spawning attempted => 2 * (plan.threads - attempted) + 3
    | .serial => 1
    | .returned => 0

theorem Stepped.left_lt {call call' : Call ρ} (h : Stepped plan call call') :
    call'.left plan < call.left plan := by
  cases h with
  | @spawned attempted failed pool hroom =>
      have hjoin := @potential_join _ plan.job pool attempted
      simp only [Call.left, joinedBy, hjoin]
      omega
  | refused hroom =>
      simp only [Call.left]
      omega
  | @joined failed pool hover hdrains =>
      have hjoin := @potential_join _ plan.job pool plan.threads
      simp only [Call.left, joinedBy, hjoin]
      omega
  | left hover hdrains => simp [Call.left]
  | drained hstopped => simp [Call.left]
  | @turn stage failed pool pool' before w after w' hturn hworkers hworkers' =>
      have hless := @Turn.potential_lt _ plan.job pool.shared pool'.shared before after w w' hturn
      rw [show pool = ⟨pool.shared, before ++ w :: after⟩ from hworkers ▸ rfl,
        show pool' = ⟨pool'.shared, before ++ w' :: after⟩ from hworkers' ▸ rfl]
      exact Nat.add_lt_add_right hless _

/-- No call takes more events than this, whoever takes the turns. -/
theorem Call.length_le {call : Call ρ} {events : List Event}
    (hrun : attempt (Call.step plan) Call.start events = some call) :
    events.length ≤ 3 * plan.job.count + 2 * plan.threads + 3 := by
  have hlength := attempt_length_le (I := fun _ => True) (fun _ _ _ _ _ => trivial)
    (fun _ _ _ _ hstep => (stepped_of_step hstep).left_lt) trivial hrun
  have hstart : (Call.start : Call ρ).left plan = 3 * plan.job.count + (2 * plan.threads + 3) := by
    simp [Call.left, Call.start, potential, Pool.empty]
  omega

end PhpantomLsp.Parallel
