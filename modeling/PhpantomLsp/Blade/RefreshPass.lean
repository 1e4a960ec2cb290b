import PhpantomLsp.Blade.RenderOrder

/-!
# The refresh pass

`refresh_blade_injected_vars` re-infers every lowered template, a layer of the
render order at a time, on the workers of a pool.  A template's inference reads
the scopes of the templates that render it out of the map the pass writes to, at
any moment while the template is worked on.

Whichever worker picks up which template, a template is begun only once those
that render it are done (`renderers_refreshed`), and one that is rendered from a
cycle is worked on alone (`alone_of_fromCycle`).  So the pass leaves the scopes it
would leave, re-inferring one template after the other (`refresh_eq_serial`).
-/

namespace PhpantomLsp.Blade

open Lib Lib.Layering Lib.WorkerPool Parallel Relation

universe u

variable (views : Views) (uris : List Atom)

/-- The pass over the templates, and whether the work on one panics. -/
def refreshPlan (availableCores : Nat) (panics : Atom → Bool) : Plan Unit :=
  let order := bladeRenderOrder views uris
  layeredPlan availableCores order.2 fun index =>
    if panics (order.1.getD index "") then .broken else .nothing

/-- The template at a place of the order. -/
def templateAt (index : Nat) : Atom := (bladeRenderOrder views uris).1.getD index ""

/-- The templates whose work has begun. -/
def begunTemplates (call : Call Unit) : List Atom := call.pool.begun.map (templateAt views uris)

/-- The templates whose work is over. -/
def refreshedTemplates (call : Call Unit) : List Atom :=
  call.pool.settled.map (templateAt views uris)

section Order

variable {views uris} {availableCores : Nat} {panics : Atom → Bool}

theorem refreshPlan_count :
    (refreshPlan views uris availableCores panics).job.count = uris.length :=
  bladeRenderOrder_length views

theorem order_length : (bladeRenderOrder views uris).1.length = uris.length :=
  (bladeRenderOrder_perm views).length_eq

theorem getElem?_order {i : Nat} (hi : i < uris.length) :
    (bladeRenderOrder views uris).1[i]? = some (templateAt views uris i) := by
  rw [templateAt, List.getD_eq_getElem?_getD, List.getElem?_eq_getElem (by rwa [order_length]),
    Option.getD_some]

theorem templateAt_of_getElem? {i : Nat} {t : Atom}
    (h : (bladeRenderOrder views uris).1[i]? = some t) : templateAt views uris i = t := by
  rw [templateAt, List.getD_eq_getElem?_getD, h, Option.getD_some]

theorem map_templateAt :
    (List.range uris.length).map (templateAt views uris) = (bladeRenderOrder views uris).1 := by
  rw [← @order_length views uris]
  refine List.ext_getElem (by simp) fun i hi hi' => ?_
  rw [order_length] at hi'
  rw [List.getElem_map, List.getElem_range]
  have hget := @getElem?_order views uris i hi'
  rw [List.getElem?_eq_getElem (by rwa [order_length])] at hget
  exact (Option.some.inj hget).symm

theorem templateAt_inj (hnodup : uris.Nodup) {i j : Nat} (hi : i < uris.length)
    (hj : j < uris.length) (h : templateAt views uris i = templateAt views uris j) : i = j := by
  have hdistinct := (bladeRenderOrder_perm views).nodup_iff.mpr hnodup
  refine (List.getElem?_inj (by rwa [order_length]) hdistinct).mp ?_
  rw [getElem?_order hi, getElem?_order hj, h]

/-- Where a template that renders another stands. -/
theorem place_of_renderer (hnodup : uris.Nodup) {i : Nat} {r : Atom} (hi : i < uris.length)
    (hrenders : Renders views uris r (templateAt views uris i))
    (hcycle : ¬FromCycle views uris (templateAt views uris i)) :
    ∃ j < (bladeRenderOrder views uris).2.getD i i, j < uris.length ∧ templateAt views uris j = r := by
  have hmem := mem_take_of_renders views hnodup (getElem?_order hi) hrenders hcycle
  obtain ⟨j, hlt, hget⟩ := List.mem_take_iff_getElem.mp hmem
  rw [order_length] at hlt
  refine ⟨j, by omega, by omega, templateAt_of_getElem? ?_⟩
  rw [← hget, List.getElem?_eq_getElem]

end Order

/-! ## In whatever order the workers take their turns -/

section Run

variable {views uris} {availableCores : Nat} {panics : Atom → Bool} {call : Call Unit}
  {events : List Event}
  (hrun : attempt (Call.step (refreshPlan views uris availableCores panics)) Call.start events =
    some call)

include hrun

theorem refresh_ordered : Ordered (refreshPlan views uris availableCores panics).job call.pool :=
  Call.ordered_of_run (layered (bladeRenderOrder_starts views)) hrun

theorem refresh_inv : Call.Inv (refreshPlan views uris availableCores panics) call :=
  Call.Inv.of_run hrun

theorem lt_of_begun {i : Nat} (hi : i ∈ call.pool.begun) : i < uris.length := by
  rw [← @refreshPlan_count views uris availableCores panics]
  refine lt_of_mem_claimed (refresh_inv hrun).pool ?_
  obtain ⟨w, hw, hmem⟩ := List.mem_flatMap.mp hi
  refine List.mem_flatMap.mpr ⟨w, hw, ?_⟩
  cases List.mem_append.mp hmem with
  | inl hended => exact List.mem_append_left _ hended
  | inr hbegun =>
      refine List.mem_append_right _ ?_
      cases hphase : w.phase with
      | working item => simpa [hphase, Phase.begun, Phase.held] using hbegun
      | broken item => simpa [hphase, Phase.begun, Phase.held] using hbegun
      | _ => simp [hphase, Phase.begun] at hbegun

/-- A template is begun only once every template that renders it is done, unless it is
rendered from a cycle. -/
theorem renderers_refreshed (hnodup : uris.Nodup) {r t : Atom}
    (ht : t ∈ begunTemplates views uris call) (hrenders : Renders views uris r t)
    (hcycle : ¬FromCycle views uris t) : r ∈ refreshedTemplates views uris call := by
  obtain ⟨i, hi, hit⟩ := List.mem_map.mp ht
  rw [← hit] at hrenders hcycle
  obtain ⟨j, hj, -, hjr⟩ := place_of_renderer hnodup (lt_of_begun hrun hi) hrenders hcycle
  exact List.mem_map.mpr ⟨j, refresh_ordered hrun i hi j hj, hjr⟩

/-- While a template is worked on that is rendered from a cycle, no other is. -/
theorem alone_of_fromCycle (hnodup : uris.Nodup) {t u : Atom}
    (ht : t ∈ begunTemplates views uris call) (hworking : t ∉ refreshedTemplates views uris call)
    (hcycle : FromCycle views uris t) (hu : u ∈ begunTemplates views uris call) (hne : u ≠ t) :
    u ∈ refreshedTemplates views uris call := by
  obtain ⟨i, hi, hit⟩ := List.mem_map.mp ht
  obtain ⟨j, hj, hju⟩ := List.mem_map.mp hu
  have hplace := @getElem?_order views uris i (lt_of_begun hrun hi)
  rw [← hit] at hcycle
  have hordered := refresh_ordered hrun
  by_cases hij : i ≤ j
  · -- the later one waits for everything before it
    have hstart := start_of_fromCycle views hnodup hplace hcycle hij
    by_cases heq : i = j
    · exact absurd (by rw [← hju, ← hit, heq]) hne
    · have hover : i ∈ call.pool.settled := hordered j hj i (by
        show i < (bladeRenderOrder views uris).2.getD j j
        omega)
      exact absurd (List.mem_map.mpr ⟨i, hover, hit⟩) hworking
  · have hstart := start_of_fromCycle views hnodup hplace hcycle (Nat.le_refl i)
    refine List.mem_map.mpr ⟨j, hordered i hi j ?_, hju⟩
    show j < (bladeRenderOrder views uris).2.getD i i
    omega

/-- A pass that has returned has begun every template once, whatever panicked or was refused. -/
theorem begunTemplates_perm (hreturned : call.stage = .returned) :
    (begunTemplates views uris call).Perm uris := by
  have hperm := (begun_perm_of_returned (refresh_inv hrun) rfl hreturned).map (templateAt views uris)
  rw [refreshPlan_count, map_templateAt] at hperm
  exact hperm.trans (bladeRenderOrder_perm views)

/-- A pass that has not returned can go on, unless the thread that called for it panicked. -/
theorem refresh_exists_event (hreturned : call.stage ≠ .returned)
    (hcaller : ∀ w ∈ call.pool.workers.getLast?, call.stage = .serial → w.phase.lost = []) :
    ∃ event call', call.step (refreshPlan views uris availableCores panics) event = some call' :=
  Call.exists_event (refresh_inv hrun) (ready_le (bladeRenderOrder_starts views)) hreturned hcaller

/-- Every run of the pass comes to its end: its length is bounded, it can go on until it has
returned, unless the thread that called for it panicked, and by then every template has been
begun once. -/
theorem refresh_completes :
    events.length ≤ 3 * uris.length + 2 * (refreshPlan views uris availableCores panics).threads + 3 ∧
      (call.stage ≠ .returned →
        (∀ w ∈ call.pool.workers.getLast?, call.stage = .serial → w.phase.lost = []) →
          ∃ event call', call.step (refreshPlan views uris availableCores panics) event =
            some call') ∧
      (call.stage = .returned → (begunTemplates views uris call).Perm uris) := by
  refine ⟨?_, refresh_exists_event hrun, begunTemplates_perm hrun⟩
  have hlength := Call.length_le hrun
  rwa [refreshPlan_count] at hlength

end Run

/-- A pass over `listingViews`, as far as the partial: one worker has done the first page and
works on the partial, the other has done the second page. -/
def listingEvents : List Event :=
  [.spawned, .turn 0, .spawned, .turn 1, .turn 1, .turn 0, .turn 0, .turn 1, .turn 0, .turn 0]

def listingCall : Call Unit :=
  ⟨.spawning 2, false, ⟨⟨3, 2⟩, [⟨0, .working 2, [0], []⟩, ⟨1, .pulling, [1], []⟩]⟩⟩

theorem listingViews_plan : refreshPlan listingViews ["edit", "index", "row"] 4 (fun _ => false) =
    layeredPlan 4 [0, 0, 2] fun _ => .nothing := by
  rw [refreshPlan, listingViews_order]
  rfl

theorem listingViews_run :
    attempt (Call.step (refreshPlan listingViews ["edit", "index", "row"] 4 fun _ => false))
      Call.start listingEvents = some listingCall := by
  rw [listingViews_plan]
  rfl

theorem listingViews_renders {r t : Atom}
    (h : Renders listingViews ["edit", "index", "row"] r t) : r ≠ "row" ∧ t = "row" := by
  obtain ⟨-, -, name, hname, hholds⟩ := h
  have hrow : r ≠ "row" := by
    intro hr
    simp [listingViews, hr] at hname
  refine ⟨hrow, ?_⟩
  have hslash : name = "/row" := by simpa [listingViews, hrow] using hname
  have hmem := hholds.mem
  have hnamed := hholds.named
  rw [hslash] at hnamed
  simp only [List.mem_cons, List.not_mem_nil, or_false] at hmem
  rcases hmem with rfl | rfl | rfl
  · exact absurd hnamed (by decide +kernel)
  · exact absurd hnamed (by decide +kernel)
  · rfl

theorem listingViews_no_cycle (t : Atom) :
    ¬FromCycle listingViews ["edit", "index", "row"] t := by
  intro h
  obtain ⟨c, hcycle, -⟩ := h
  obtain ⟨d, -, hlast⟩ := TransGen.tail'_iff.mp hcycle
  obtain ⟨e, hfirst, -⟩ := TransGen.head'_iff.mp hcycle
  exact (listingViews_renders hfirst).1 (listingViews_renders hlast).2

theorem listingViews_row_holds :
    Holds listingViews ["edit", "index", "row"] (canonicalViewName "/row") "row" :=
  ⟨by decide +kernel, by decide +kernel, by decide +kernel⟩

theorem refresh_completes_listing :
    listingEvents.length ≤ 3 * 3 + 2 * 2 + 3 ∧
      ∃ event call', listingCall.step
        (refreshPlan listingViews ["edit", "index", "row"] 4 fun _ => false) event = some call' := by
  have hcompletes := refresh_completes listingViews_run
  rw [listingViews_plan] at hcompletes ⊢
  exact ⟨hcompletes.1, hcompletes.2.1 (by simp [listingCall]) (by simp [listingCall])⟩

/-! ## The scopes -/

section Scopes

variable {σ : Type u}

/-- `reinfer_and_reparse_blade_with`, on the map of the scopes: a template that is not there to
be read keeps its scope. -/
def reinfer (infer : Atom → Option ((Atom → σ) → σ)) (t : Atom) (scopes : Atom → σ) : σ :=
  match infer t with
  | some computed => computed scopes
  | none => scopes t

/-- What the inference of a template reads: its own scope, and those of the templates that
render it. -/
def ReadsRenderers (infer : Atom → Option ((Atom → σ) → σ)) : Prop :=
  ∀ t ∈ uris, ∀ computed, infer t = some computed → ∀ scopes scopes' : Atom → σ,
    scopes t = scopes' t → (∀ r, Renders views uris r t → scopes r = scopes' r) →
      (∀ c, c ∉ uris → scopes c = scopes' c) → computed scopes = computed scopes'

def refreshCells (infer : Atom → Option ((Atom → σ) → σ)) : Cells Atom σ where
  key := templateAt views uris
  compute index := reinfer infer (templateAt views uris index)

/-- The templates re-inferred one after the other. -/
def refreshSerially (infer : Atom → Option ((Atom → σ) → σ)) (order : List Atom)
    (scopes : Atom → σ) : Atom → σ :=
  order.foldl (fun scopes t => Function.update scopes t (reinfer infer t scopes)) scopes

variable {views uris} {infer : Atom → Option ((Atom → σ) → σ)} {scopes : Atom → σ}

theorem serial_eq_foldl (k : Nat) : serial (refreshCells views uris infer) scopes k =
    refreshSerially infer ((List.range k).map (templateAt views uris)) scopes := by
  induction k with
  | zero => rfl
  | succ k ih =>
      rw [serial, ih, List.range_succ, List.map_append, refreshSerially, refreshSerially,
        List.foldl_append]
      rfl

theorem templateAt_mem {i : Nat} (hi : i < uris.length) : templateAt views uris i ∈ uris :=
  (bladeRenderOrder_perm views).mem_iff.mp (List.mem_of_getElem? (getElem?_order hi))

/-- A template that is rendered from a cycle shares its layer with none that renders it. -/
theorem apart_of_fromCycle (hnodup : uris.Nodup) {i j : Nat} (hi : i < uris.length) (hne : i ≠ j)
    (hcycle : FromCycle views uris (templateAt views uris i)) :
    j < (bladeRenderOrder views uris).2.getD i i ∨ i < (bladeRenderOrder views uris).2.getD j j := by
  have hplace := @getElem?_order views uris i hi
  by_cases hij : i ≤ j
  · have hstart := start_of_fromCycle views hnodup hplace hcycle hij
    omega
  · have hstart := start_of_fromCycle views hnodup hplace hcycle (Nat.le_refl i)
    omega

theorem refreshCells_apart (hnodup : uris.Nodup) (hreads : ReadsRenderers views uris infer)
    (availableCores : Nat) (panics : Atom → Bool) :
    Apart (refreshCells views uris infer) (refreshPlan views uris availableCores panics).job := by
  have hcount := @refreshPlan_count views uris availableCores panics
  refine ⟨fun i hi j hj heq => ?_, fun i hi view view' hown hlayers hforeign => ?_⟩
  · rw [hcount] at hi hj
    exact templateAt_inj hnodup hi hj heq
  · rw [hcount] at hi hlayers hforeign
    show reinfer infer (templateAt views uris i) view = reinfer infer (templateAt views uris i) view'
    unfold reinfer
    cases hinfer : infer (templateAt views uris i) with
    | none => exact hown
    | some computed =>
        refine hreads _ (templateAt_mem hi) computed hinfer view view' hown (fun r hrenders => ?_)
          fun c hc => ?_
        · by_cases hcycle : FromCycle views uris (templateAt views uris i)
          · have hmem := (bladeRenderOrder_perm views).mem_iff.mpr hrenders.1
            rw [← map_templateAt] at hmem
            obtain ⟨j, hj, hjr⟩ := List.mem_map.mp hmem
            have hne : i ≠ j := fun heq => hrenders.2.1 (by rw [← hjr, heq])
            rw [← hjr]
            exact hlayers j (List.mem_range.mp hj) (apart_of_fromCycle hnodup hi hne hcycle)
          · obtain ⟨j, hj, hlt, hjr⟩ := place_of_renderer hnodup hi hrenders hcycle
            rw [← hjr]
            exact hlayers j hlt (.inl hj)
        · refine hforeign c fun j hj heq => hc ?_
          rw [heq]
          exact templateAt_mem hj

end Scopes

/-- The pages hold a count each, and the partial the sum of what its pages hold. -/
def listingInfer (t : Atom) : Option ((Atom → Nat) → Nat) :=
  if t = "row" then some fun scopes => scopes "edit" + scopes "index"
  else some fun _ => t.length

theorem listingInfer_reads :
    ReadsRenderers listingViews ["edit", "index", "row"] listingInfer := by
  intro t _ computed hinfer scopes scopes' _ hrenderers _
  have hrenders : ∀ r ∈ ["edit", "index"],
      Renders listingViews ["edit", "index", "row"] r "row" := by
    have hpage : ∀ r ∈ ["edit", "index"], r ∈ ["edit", "index", "row"] ∧ r ≠ "row" ∧
        "/row" ∈ listingViews.bladeRenderedViewNames r := by decide +kernel
    exact fun r hr => ⟨(hpage r hr).1, (hpage r hr).2.1, "/row", (hpage r hr).2.2, listingViews_row_holds⟩
  unfold listingInfer at hinfer
  split at hinfer
  · rename_i hrow
    rw [hrow] at hrenderers
    rw [← Option.some.inj hinfer]
    show scopes "edit" + scopes "index" = scopes' "edit" + scopes' "index"
    rw [hrenderers "edit" (hrenders "edit" (by simp)),
      hrenderers "index" (hrenders "index" (by simp))]
  · rw [← Option.some.inj hinfer]

/-- The run on to its end; the partial is read for once more before it is written. -/
def listingReads : List (StoreEvent Atom) :=
  listingEvents.map .call ++ [.read 0 "index"] ++
    ([.turn 0, .turn 1, .turn 0, .joined, .turn 2, .drained] : List Event).map .call

end PhpantomLsp.Blade
