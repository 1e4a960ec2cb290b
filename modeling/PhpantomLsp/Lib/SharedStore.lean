import PhpantomLsp.Lib.WorkerPool

/-!
# Workers that read and write a shared store

Each item has a cell of a store.  The work on an item computes the new value of
its cell from what it reads of the others, and it may read a cell at any moment
between its start and its end, while other workers write theirs.

Where the items come in layers and no item reads a cell of its own layer but its
own, the interleaving does not show: the store ends as it would have, had one
worker done the items in their order (`Fed.store_eq`).
-/

namespace PhpantomLsp.Lib.WorkerPool

universe u v w

variable {ρ : Type u} {κ : Type v} {σ : Type w} [DecidableEq κ]

/-- The store, and what each worker has read of it for its item. -/
structure Memory (κ : Type v) (σ : Type w) where
  store : κ → σ
  views : Nat → κ → σ

/-- The cell of each item, and what the work on an item makes of what it reads. -/
structure Cells (κ : Type v) (σ : Type w) where
  key : Nat → κ
  compute : Nat → (κ → σ) → σ

variable (cells : Cells κ σ)

/-- What a turn of a worker does to the memory: it begins an item with the store
before it, and ends one by writing the cell. -/
def Memory.turn (m : Memory κ σ) (s : Pool ρ) (worker : Nat) : Memory κ σ :=
  match (s.workers[worker]?).map Worker.phase with
  | some (.waiting _) => { m with views := Function.update m.views worker m.store }
  | some (.working item) =>
      { m with
        store := Function.update m.store (cells.key item) (cells.compute item (m.views worker)) }
  | _ => m

/-- A worker reads a cell once more. -/
def Memory.read (m : Memory κ σ) (worker : Nat) (cell : κ) : Memory κ σ :=
  { m with
    views :=
      Function.update m.views worker (Function.update (m.views worker) cell (m.store cell)) }

/-- The store after the first items, done in their order. -/
def serial (initial : κ → σ) : Nat → κ → σ
  | 0 => initial
  | i + 1 =>
      Function.update (serial initial i) (cells.key i) (cells.compute i (serial initial i))

/-- No item reads a cell of its own layer, its own apart. -/
structure Apart (job : Job ρ) : Prop where
  injective : ∀ i < job.count, ∀ j < job.count, cells.key i = cells.key j → i = j
  apart : ∀ i < job.count, ∀ view view' : κ → σ, view (cells.key i) = view' (cells.key i) →
    (∀ j < job.count, j < job.ready i ∨ i < job.ready j →
      view (cells.key j) = view' (cells.key j)) →
    (∀ c, (∀ j < job.count, c ≠ cells.key j) → view c = view' c) →
    cells.compute i view = cells.compute i view'

variable {cells} {job : Job ρ} {initial : κ → σ}

theorem serial_of_foreign {c : κ} {k : Nat} (h : ∀ j < k, c ≠ cells.key j) :
    serial cells initial k c = initial c := by
  induction k with
  | zero => rfl
  | succ k ih =>
      rw [serial, Function.update_of_ne (h k (Nat.lt_succ_self k))]
      exact ih fun j hj => h j (Nat.lt_succ_of_lt hj)

/-- A cell keeps what its item wrote. -/
theorem serial_of_lt (happart : Apart cells job) {j k : Nat} (hjk : j < k) (hk : k ≤ job.count) :
    serial cells initial k (cells.key j) = cells.compute j (serial cells initial j) := by
  induction k with
  | zero => exact absurd hjk (Nat.not_lt_zero j)
  | succ k ih =>
      rw [serial]
      by_cases heq : j = k
      · rw [heq, Function.update_self]
      · have hne : cells.key j ≠ cells.key k := fun h =>
          heq (happart.injective j (by omega) k (by omega) h)
        rw [Function.update_of_ne hne]
        exact ih (by omega) (by omega)

theorem serial_of_le (happart : Apart cells job) {j k : Nat} (hkj : k ≤ j) (hj : j < job.count) :
    serial cells initial k (cells.key j) = initial (cells.key j) :=
  serial_of_foreign fun i hi heq => by
    have hij := happart.injective j hj i (by omega) heq
    omega

/-- What a worker may have read for its item. -/
structure Fits (cells : Cells κ σ) (job : Job ρ) (initial : κ → σ) (item : Nat) (view : κ → σ) :
    Prop where
  own : view (cells.key item) = initial (cells.key item)
  before : ∀ j < job.count, j < job.ready item →
    view (cells.key j) = cells.compute j (serial cells initial j)
  after : ∀ j < job.count, item < job.ready j → view (cells.key j) = initial (cells.key j)
  foreign : ∀ c, (∀ j < job.count, c ≠ cells.key j) → view c = initial c

/-- From such reads the item computes what it would have in order. -/
theorem Fits.compute_eq (happart : Apart cells job) (hready : ∀ i, job.ready i ≤ i) {item : Nat}
    (hitem : item < job.count) {view : κ → σ} (h : Fits cells job initial item view) :
    cells.compute item view = cells.compute item (serial cells initial item) := by
  refine happart.apart item hitem _ _ ?_ (fun j hj hlayers => ?_) fun c hc => ?_
  · rw [h.own, serial_of_le happart (Nat.le_refl item) hitem]
  · cases hlayers with
    | inl hbefore =>
        have hlt := hbefore.trans_le (hready item)
        rw [h.before j hj hbefore, serial_of_lt happart hlt hitem.le]
    | inr hafter =>
        have hlt := hafter.trans_le (hready j)
        rw [h.after j hj hafter, serial_of_le happart hlt.le hj]
  · rw [h.foreign c hc, serial_of_foreign fun j hj => hc j (hj.trans hitem)]

/-- Reading a cell again from a store that fits. -/
theorem Fits.update {item : Nat} {view store : κ → σ} (h : Fits cells job initial item view)
    (hstore : Fits cells job initial item store) (cell : κ) :
    Fits cells job initial item (Function.update view cell (store cell)) := by
  have hcell : ∀ c, Function.update view cell (store cell) c = view c ∨
      Function.update view cell (store cell) c = store c := by
    intro c
    by_cases hc : c = cell
    · exact .inr (by rw [hc, Function.update_self])
    · exact .inl (Function.update_of_ne hc _ _)
  refine ⟨?_, fun j hj hlt => ?_, fun j hj hlt => ?_, fun c hc => ?_⟩
  · exact (hcell _).elim (fun heq => heq.trans h.own) fun heq => heq.trans hstore.own
  · exact (hcell _).elim (fun heq => heq.trans (h.before j hj hlt)) fun heq =>
      heq.trans (hstore.before j hj hlt)
  · exact (hcell _).elim (fun heq => heq.trans (h.after j hj hlt)) fun heq =>
      heq.trans (hstore.after j hj hlt)
  · exact (hcell _).elim (fun heq => heq.trans (h.foreign c hc)) fun heq =>
      heq.trans (hstore.foreign c hc)

/-! ## What the turns keep -/

/-- The store holds what the items that are over computed, in order, and each
worker has read what fits its item. -/
structure Fed (cells : Cells κ σ) (job : Job ρ) (initial : κ → σ) (s : Pool ρ) (m : Memory κ σ) :
    Prop where
  settled : ∀ j ∈ s.settled, m.store (cells.key j) = cells.compute j (serial cells initial j)
  fresh : ∀ j < job.count, j ∉ s.settled → m.store (cells.key j) = initial (cells.key j)
  foreign : ∀ c, (∀ j < job.count, c ≠ cells.key j) → m.store c = initial c
  views : ∀ (worker : Nat) (w : Worker ρ) (item : Nat), s.workers[worker]? = some w →
    w.phase = .working item → Fits cells job initial item (m.views worker)

theorem lt_of_mem_claimed {s : Pool ρ} (hinv : Inv job s) {i : Nat} (h : i ∈ s.claimed) :
    i < job.count := by
  have hmem := List.mem_range.mp (hinv.claimed.mem_iff.mp h)
  omega

/-- What a worker has claimed and is not over with, no worker is over with. -/
theorem not_settled_of_held {s : Pool ρ} (hinv : Inv job s) {w : Worker ρ} (hmem : w ∈ s.workers)
    {item : Nat} (hheld : item ∈ w.phase.held) (hlost : item ∉ w.phase.lost) : item ∉ s.settled := by
  have hnodup : s.claimed.Nodup := hinv.claimed.nodup_iff.mpr List.nodup_range
  obtain ⟨before, after, hsplit⟩ := List.append_of_mem hmem
  have hparts : s.claimed = before.flatMap Worker.claimed ++
      ((w.ended ++ w.phase.held) ++ after.flatMap Worker.claimed) := by
    rw [Pool.claimed, hsplit, List.flatMap_append, List.flatMap_cons]
    rfl
  have hsub : ∀ workers : List (Worker ρ), ∀ i ∈ workers.flatMap Worker.settled,
      i ∈ workers.flatMap Worker.claimed := by
    intro workers i hi
    exact (settled_sublist_claimed (⟨s.shared, workers⟩ : Pool ρ)).subset hi
  rw [hparts] at hnodup
  have hcut := List.nodup_append'.mp hnodup
  have hcut' := List.nodup_append'.mp hcut.2.1
  have hcut'' := List.nodup_append'.mp hcut'.1
  intro hover
  rw [Pool.settled, hsplit, List.flatMap_append, List.flatMap_cons, List.mem_append,
    List.mem_append] at hover
  cases hover with
  | inl hbefore =>
      exact hcut.2.2 (hsub before item hbefore)
        (List.mem_append_left _ (List.mem_append_right _ hheld))
  | inr hrest =>
      cases hrest with
      | inl hown =>
          cases List.mem_append.mp hown with
          | inl hended => exact hcut''.2.2 hended hheld
          | inr hwas => exact hlost hwas
      | inr hafter => exact hcut'.2.2 (List.mem_append_right _ hheld) (hsub after item hafter)

/-- At any moment of the work on an item the store fits it. -/
theorem Fed.store_fits {s : Pool ρ} {m : Memory κ σ} (h : Fed cells job initial s m)
    (hordered : Ordered job s) {item : Nat} (hitem : item < job.count)
    (hnew : item ∉ s.settled) (hbefore : ∀ j < job.ready item, j ∈ s.settled) :
    Fits cells job initial item m.store := by
  refine ⟨h.fresh item hitem hnew, fun j _ hlt => h.settled j (hbefore j hlt), fun j hj hlt => ?_,
    h.foreign⟩
  -- an item of a later layer is not even begun
  refine h.fresh j hj fun hover => hnew ?_
  exact hordered j (settled_subset_begun s j hover) item hlt

theorem Fed.read {s : Pool ρ} {m : Memory κ σ} (h : Fed cells job initial s m) (hinv : Inv job s)
    (hordered : Ordered job s) (worker : Nat) (cell : κ) :
    Fed cells job initial s (m.read worker cell) := by
  refine ⟨h.settled, h.fresh, h.foreign, fun k w item hk hphase => ?_⟩
  by_cases hworker : k = worker
  · have hmem := List.mem_of_getElem? hk
    have hclaimed : item ∈ s.claimed :=
      List.mem_flatMap.mpr ⟨w, hmem, List.mem_append_right _ (by simp [hphase, Phase.held])⟩
    have hbegun : item ∈ s.begun :=
      List.mem_flatMap.mpr ⟨w, hmem, List.mem_append_right _ (by simp [hphase, Phase.begun])⟩
    have hnew : item ∉ s.settled := not_settled_of_held hinv hmem (by simp [hphase, Phase.held])
      (by simp [hphase, Phase.lost])
    have hstore := h.store_fits hordered (lt_of_mem_claimed hinv hclaimed) hnew
      (hordered item hbegun)
    rw [hworker] at hk
    show Fits cells job initial item (Function.update m.views worker _ k)
    rw [hworker, Function.update_self]
    exact (h.views worker w item hk hphase).update hstore cell
  · show Fits cells job initial item (Function.update m.views worker _ k)
    rw [Function.update_of_ne hworker]
    exact h.views k w item hk hphase

theorem Fed.join {s : Pool ρ} {m : Memory κ σ} (h : Fed cells job initial s m) (number : Nat) :
    Fed cells job initial ⟨s.shared, s.workers ++ [.fresh number]⟩ m := by
  have hover : (⟨s.shared, s.workers ++ [.fresh number]⟩ : Pool ρ).settled = s.settled := by
    simp [Pool.settled, Worker.settled, Worker.fresh, Phase.lost]
  refine ⟨hover ▸ h.settled, hover ▸ h.fresh, h.foreign, fun k w item hk hphase => ?_⟩
  by_cases hlt : k < s.workers.length
  · rw [List.getElem?_append_left hlt] at hk
    exact h.views k w item hk hphase
  · have hlast := List.mem_of_getElem? (by
      rwa [List.getElem?_append_right (Nat.le_of_not_lt hlt)] at hk)
    rw [List.mem_singleton.mp hlast] at hphase
    cases hphase

theorem turned_of_step {s s' : Pool ρ} {worker : Nat} (h : s.step job (.turn worker) = some s') :
    ∃ w w', s.workers[worker]? = some w ∧ Turn job s.shared w s'.shared w' ∧
      s'.workers = s.workers.set worker w' := by
  obtain ⟨w, hw, hturned⟩ := Option.bind_eq_some_iff.mp h
  obtain ⟨turned, hturn, hs'⟩ := Option.map_eq_some_iff.mp hturned
  rw [← hs']
  exact ⟨w, turned.2, hw, turn_of_turn hturn, rfl⟩

section Turned

variable {s s' : Pool ρ} {worker : Nat} {w w' : Worker ρ} (hw : s.workers[worker]? = some w)
  (hworkers : s'.workers = s.workers.set worker w')

include hw hworkers

theorem settled_of_kept (h : w'.settled = w.settled) : s'.settled = s.settled := by
  obtain ⟨before, after, hsplit, hset⟩ := exists_split hw
  rw [Pool.settled, Pool.settled, hworkers, hset w', hsplit]
  exact flatMap_same h

theorem mem_settled_of_grown {item : Nat} (h : w'.settled = w.settled ++ [item]) (j : Nat) :
    j ∈ s'.settled ↔ j ∈ s.settled ∨ j = item := by
  obtain ⟨before, after, hsplit, hset⟩ := exists_split hw
  rw [Pool.settled, Pool.settled, hworkers, hset w', hsplit, (flatMap_grown h).mem_iff, List.mem_append,
    List.mem_singleton]

/-- The other workers are where they were. -/
theorem worker_of_set {k : Nat} {v : Worker ρ} (h : s'.workers[k]? = some v) :
    (k = worker ∧ v = w') ∨ (k ≠ worker ∧ s.workers[k]? = some v) := by
  have hlt := (List.getElem?_eq_some_iff.mp hw).1
  rw [hworkers, List.getElem?_set] at h
  by_cases hk : worker = k
  · rw [if_pos hk, if_pos (hk ▸ hlt), Option.some.injEq] at h
    exact .inl ⟨hk.symm, h.symm⟩
  · rw [if_neg hk] at h
    exact .inr ⟨Ne.symm hk, h⟩

/-- A turn that ends no item and starts none. -/
theorem Fed.kept {m : Memory κ σ} (h : Fed cells job initial s m) (hover : w'.settled = w.settled)
    (hphase : ∀ item, w'.phase ≠ .working item) : Fed cells job initial s' m := by
  have hsame := settled_of_kept hw hworkers hover
  refine ⟨hsame ▸ h.settled, hsame ▸ h.fresh, h.foreign, fun k v item hk hworking => ?_⟩
  cases worker_of_set hw hworkers hk with
  | inl hself => exact absurd (hself.2 ▸ hworking) (hphase item)
  | inr hother => exact h.views k v item hother.2 hworking

theorem Fed.started {m : Memory κ σ} (h : Fed cells job initial s m) (hover : w'.settled = w.settled)
    {item : Nat} (hphase : w'.phase = .working item)
    (hfits : Fits cells job initial item m.store) :
    Fed cells job initial s' { m with views := Function.update m.views worker m.store } := by
  have hsame := settled_of_kept hw hworkers hover
  refine ⟨hsame ▸ h.settled, hsame ▸ h.fresh, h.foreign, fun k v j hk hworking => ?_⟩
  show Fits cells job initial j (Function.update m.views worker m.store k)
  cases worker_of_set hw hworkers hk with
  | inl hself =>
      rw [hself.2, hphase] at hworking
      rw [hself.1, Function.update_self, ← Phase.working.inj hworking]
      exact hfits
  | inr hother =>
      rw [Function.update_of_ne hother.1]
      exact h.views k v j hother.2 hworking

theorem Fed.finished {m : Memory κ σ} (h : Fed cells job initial s m) (happart : Apart cells job)
    (hready : ∀ i, job.ready i ≤ i) (hinv : Inv job s) {item : Nat}
    (hphase : w.phase = .working item) (hover : w'.settled = w.settled ++ [item])
    (hphase' : ∀ j, w'.phase ≠ .working j) :
    Fed cells job initial s'
      { m with
        store := Function.update m.store (cells.key item) (cells.compute item (m.views worker)) } := by
  have hmem := List.mem_of_getElem? hw
  have hitem : item < job.count := lt_of_mem_claimed hinv
    (List.mem_flatMap.mpr ⟨w, hmem, List.mem_append_right _ (by simp [hphase, Phase.held])⟩)
  have hnew : item ∉ s.settled := not_settled_of_held hinv hmem (by simp [hphase, Phase.held])
    (by simp [hphase, Phase.lost])
  have hgrown := mem_settled_of_grown hw hworkers hover
  have hother : ∀ j < job.count, j ≠ item →
      Function.update m.store (cells.key item) (cells.compute item (m.views worker)) (cells.key j) =
        m.store (cells.key j) := by
    intro j hj hne
    exact Function.update_of_ne (fun heq => hne (happart.injective j hj item hitem heq)) _ _
  refine ⟨fun j hj => ?_, fun j hj hfresh => ?_, fun c hc => ?_, fun k v j hk hworking => ?_⟩
  · by_cases heq : j = item
    · have hfits := h.views worker w item hw hphase
      show Function.update m.store _ _ _ = _
      rw [heq, Function.update_self, hfits.compute_eq happart hready hitem]
    · have hold := ((hgrown j).mp hj).resolve_right heq
      have hlt := lt_of_mem_claimed hinv ((settled_sublist_claimed s).subset hold)
      exact (hother j hlt heq).trans (h.settled j hold)
  · have hcut : j ∉ s.settled ∧ j ≠ item := not_or.mp fun hmem => hfresh ((hgrown j).mpr hmem)
    exact (hother j hj hcut.2).trans (h.fresh j hj hcut.1)
  · show Function.update m.store _ _ c = _
    rw [Function.update_of_ne (hc item hitem)]
    exact h.foreign c hc
  · cases worker_of_set hw hworkers hk with
    | inl hself => exact absurd (hself.2 ▸ hworking) (hphase' j)
    | inr hother => exact h.views k v j hother.2 hworking

end Turned

theorem Memory.turn_of_phase {s : Pool ρ} {m : Memory κ σ} {worker : Nat} {w : Worker ρ}
    (hw : s.workers[worker]? = some w) : m.turn cells s worker =
      match w.phase with
      | .waiting _ => { m with views := Function.update m.views worker m.store }
      | .working item =>
          { m with
            store :=
              Function.update m.store (cells.key item) (cells.compute item (m.views worker)) }
      | _ => m := by
  rw [Memory.turn, hw, Option.map_some]
  cases w.phase <;> rfl

/-- Every turn of a worker that does not break. -/
theorem Fed.turn {s s' : Pool ρ} {m : Memory κ σ} {worker : Nat} (h : Fed cells job initial s m)
    (happart : Apart cells job) (hlayers : Layered job) (hready : ∀ i, job.ready i ≤ i)
    (hcalm : ∀ number item, job.work number item ≠ .broken) (hinv : Inv job s)
    (hordered : Ordered job s) (hstep : s.step job (.turn worker) = some s') :
    Fed cells job initial s' (m.turn cells s worker) := by
  obtain ⟨w, w', hw, hturn, hworkers⟩ := turned_of_step hstep
  have hmem := List.mem_of_getElem? hw
  rw [Memory.turn_of_phase hw]
  generalize s'.shared = shared' at hturn
  cases hturn with
  | claim hphase hnext =>
      rw [hphase]
      exact h.kept hw hworkers (by simp [Worker.settled, Phase.lost, hphase]) fun item => by simp
  | stop hphase hnext =>
      rw [hphase]
      exact h.kept hw hworkers (by simp [Worker.settled, Phase.lost, hphase]) fun item => by simp
  | @start item hphase hgo =>
      rw [hphase]
      have hitem : item < job.count := lt_of_mem_claimed hinv
        (List.mem_flatMap.mpr ⟨w, hmem, List.mem_append_right _ (by simp [hphase, Phase.held])⟩)
      have hnew : item ∉ s.settled := not_settled_of_held hinv hmem (by simp [hphase, Phase.held])
        (by simp [hphase, Phase.lost])
      exact h.started hw hworkers (by simp [Worker.settled, Phase.lost, hphase]) rfl
        (h.store_fits hordered hitem hnew (all_settled hlayers hinv hordered hgo))
  | @finish item hphase hwork =>
      rw [hphase]
      exact h.finished hw hworkers happart hready hinv hphase
        (by simp [Worker.settled, Phase.lost, hphase]) fun j => by simp
  | @breakDown item hphase hwork => exact absurd hwork (hcalm w.number item)

theorem Fed.empty (views : Nat → κ → σ) :
    Fed cells job initial (Pool.empty : Pool ρ) ⟨initial, views⟩ where
  settled j hj := by simp [Pool.settled, Pool.empty] at hj
  fresh j _ _ := rfl
  foreign c _ := rfl
  views k w item hk := by simp [Pool.empty] at hk

/-- Once every item is over, the store is what one worker would have left. -/
theorem Fed.store_eq {s : Pool ρ} {m : Memory κ σ} (h : Fed cells job initial s m)
    (happart : Apart cells job) (hover : ∀ j < job.count, j ∈ s.settled) :
    m.store = serial cells initial job.count := by
  funext c
  by_cases hc : ∃ j < job.count, c = cells.key j
  · obtain ⟨j, hj, heq⟩ := hc
    rw [heq, h.settled j (hover j hj), serial_of_lt happart hj (Nat.le_refl _)]
  · push Not at hc
    rw [h.foreign c hc, serial_of_foreign hc]

end PhpantomLsp.Lib.WorkerPool
