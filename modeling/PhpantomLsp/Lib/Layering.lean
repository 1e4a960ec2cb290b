import Mathlib.Data.List.Nodup
import Mathlib.Data.List.Perm.Subperm
import Mathlib.Data.List.Range
import Mathlib.Data.Set.Finite.Basic

/-!
# A graph laid out in layers

The nodes of a graph are numbered, and each lists its successors.  The walk lays
out the nodes without predecessors first; then, layer by layer, those that have
just lost their last predecessor.  What lies on a cycle, or behind one, never
does, and follows at the end, each node a layer of its own.

The layout holds every node once (`layout_perm`), each layer begins where the
layout says it does (`layout_starts`), and the predecessors of a node lie in
earlier layers (`mem_take_of_edge`), unless the node has an endless chain of
predecessors (`mem_reached_iff`).
-/

namespace PhpantomLsp.Lib.Layering

/-! ## Endless chains -/

section Chains

universe u

variable {α : Type u} {R : α → α → Prop}

open Relation

theorem not_transGen_self_of_acc {a c : α} (h : Acc R a) (hpath : ReflTransGen R c a) :
    ¬TransGen R c c := by
  have hacc : Acc R c := by
    induction hpath using ReflTransGen.head_induction_on with
    | refl => exact h
    | head hstep _ ih => exact ih.inv hstep
  have htrans := hacc.transGen
  clear h hpath hacc
  intro hcycle
  induction htrans with
  | intro c _ ih => exact ih c hcycle hcycle

/-- Where finitely many elements have a successor, the predecessors of an element
come to an end unless a cycle leads to it. -/
theorem acc_iff_of_finite (hfinite : {a | ∃ b, R a b}.Finite) {a : α} :
    Acc R a ↔ ¬∃ c, TransGen R c c ∧ ReflTransGen R c a := by
  constructor
  · intro h hcycle
    cases hcycle with
    | intro c hc => exact not_transGen_self_of_acc h hc.2 hc.1
  · intro hcycles
    -- the elements that lead to `a` are finitely many, and no cycle goes through them
    let Before := {b // ReflTransGen R b a}
    have hbefore : Finite Before := by
      refine (Set.Finite.subset (hfinite.insert a) fun b hb => ?_).to_subtype
      cases ReflTransGen.cases_head hb with
      | inl heq => exact .inl heq
      | inr hstep => exact .inr ⟨hstep.choose, hstep.choose_spec.1⟩
    let Leads : Before → Before → Prop := fun b c => TransGen R b.1 c.1
    have htrans : IsTrans Before Leads := ⟨fun _ _ _ hab hbc => hab.trans hbc⟩
    have hirrefl : Std.Irrefl Leads := ⟨fun b hb => hcycles ⟨b.1, hb, b.2⟩⟩
    have hwell := Finite.wellFounded_of_trans_of_irrefl Leads
    have hacc : ∀ b : Before, Acc R b.1 := by
      intro b
      induction b using hwell.induction with
      | _ b ih => exact .intro b.1 fun c hc => ih ⟨c, b.2.head hc⟩ (.single hc)
    exact hacc ⟨a, .refl⟩

end Chains

/-! ## Layers -/

/-- The place where a layer starts, for each of a list of items in layers. -/
structure LayerStarts (starts : List Nat) : Prop where
  sorted : ∀ i j, i ≤ j → j < starts.length → starts.getD i i ≤ starts.getD j j
  le : ∀ i < starts.length, starts.getD i i ≤ i
  start : ∀ i < starts.length, starts.getD (starts.getD i i) (starts.getD i i) = starts.getD i i

theorem getD_of_length_le {starts : List Nat} {i : Nat} (h : starts.length ≤ i) :
    starts.getD i i = i := by
  rw [List.getD_eq_getElem?_getD, List.getElem?_eq_none h, Option.getD_none]

theorem getD_append_left {starts rest : List Nat} {i : Nat} (h : i < starts.length) :
    (starts ++ rest).getD i i = starts.getD i i := by
  rw [List.getD_eq_getElem?_getD, List.getElem?_append_left h, List.getD_eq_getElem?_getD]

theorem getD_append_replicate {starts : List Nat} {i width : Nat} (h : starts.length ≤ i)
    (hi : i < starts.length + width) :
    (starts ++ List.replicate width starts.length).getD i i = starts.length := by
  rw [List.getD_eq_getElem?_getD, List.getElem?_append_right h,
    List.getElem?_replicate, if_pos (by omega), Option.getD_some]

theorem LayerStarts.nil : LayerStarts [] where
  sorted _ _ _ hj := absurd hj (Nat.not_lt_zero _)
  le _ hi := absurd hi (Nat.not_lt_zero _)
  start _ hi := absurd hi (Nat.not_lt_zero _)

/-- One more layer at the end. -/
theorem LayerStarts.append {starts : List Nat} (h : LayerStarts starts) (width : Nat) :
    LayerStarts (starts ++ List.replicate width starts.length) := by
  have hlength : (starts ++ List.replicate width starts.length).length = starts.length + width := by
    rw [List.length_append, List.length_replicate]
  refine ⟨fun i j hij hj => ?_, fun i hi => ?_, fun i hi => ?_⟩
  · rw [hlength] at hj
    by_cases hj' : j < starts.length
    · rw [getD_append_left hj', getD_append_left (hij.trans_lt hj')]
      exact h.sorted i j hij hj'
    · rw [getD_append_replicate (Nat.le_of_not_lt hj') hj]
      by_cases hi' : i < starts.length
      · rw [getD_append_left hi']
        exact (h.le i hi').trans hi'.le
      · rw [getD_append_replicate (Nat.le_of_not_lt hi') (hij.trans_lt hj)]
  · rw [hlength] at hi
    by_cases hi' : i < starts.length
    · rw [getD_append_left hi']
      exact h.le i hi'
    · rw [getD_append_replicate (Nat.le_of_not_lt hi') hi]
      omega
  · rw [hlength] at hi
    by_cases hi' : i < starts.length
    · rw [getD_append_left hi', getD_append_left ((h.le i hi').trans_lt hi')]
      exact h.start i hi'
    · rw [getD_append_replicate (Nat.le_of_not_lt hi') hi,
        getD_append_replicate (Nat.le_refl _) (by omega)]

/-- Layers of one item each at the end. -/
theorem LayerStarts.append_range' {starts : List Nat} (h : LayerStarts starts) (width : Nat) :
    LayerStarts (starts ++ List.range' starts.length width) := by
  induction width with
  | zero => simpa using h
  | succ width ih =>
      have hlast := ih.append 1
      rw [List.length_append, List.length_range', List.replicate_one, List.append_assoc] at hlast
      rwa [List.range'_concat, Nat.one_mul]

/-! ## The walk -/

/-- How far the walk has come: what is laid out, where the layer of each began,
how many predecessors each node has left, and the layer that comes next. -/
structure Walk where
  order : List Nat
  starts : List Nat
  indegree : List Nat
  layer : List Nat

/-- A node loses one predecessor; it joins `next` when that was its last. -/
def release (s : List Nat × List Nat) (target : Nat) : List Nat × List Nat :=
  let left := s.1.getD target 0 - 1
  (s.1.set target left, if left = 0 then s.2 ++ [target] else s.2)

/-- The layer is laid out, and releases its successors. -/
def Walk.advance (graph : List (List Nat)) (w : Walk) : Walk :=
  let released :=
    w.layer.foldl (fun s index => (graph.getD index []).foldl release s) (w.indegree, [])
  { order := w.order ++ w.layer
    starts := w.starts ++ List.replicate w.layer.length w.order.length
    indegree := released.1
    layer := released.2.mergeSort fun a b => a ≤ b }

/-- Layer after layer until one is empty. -/
def Walk.run (graph : List (List Nat)) : Nat → Walk → Walk
  | 0, w => w
  | fuel + 1, w => if w.layer.isEmpty then w else Walk.run graph fuel (w.advance graph)

def Walk.start (graph : List (List Nat)) (indegree : List Nat) : Walk where
  order := []
  starts := []
  indegree := indegree
  layer := (List.range graph.length).filter fun index => indegree.getD index 0 = 0

/-- What the walk reaches. -/
def reached (graph : List (List Nat)) (indegree : List Nat) : Walk :=
  (Walk.start graph indegree).run graph (graph.length + 1)

/-- The layout of the graph: its nodes in order, and where the layer of each
starts. -/
def layout (graph : List (List Nat)) (indegree : List Nat) : List Nat × List Nat :=
  let walked := reached graph indegree
  let unreached := (List.range graph.length).filter fun index => !walked.order.contains index
  (walked.order ++ unreached, walked.starts ++ List.range' walked.order.length unreached.length)

/-! ## Released targets -/

theorem getD_set (counts : List Nat) (i a j : Nat) :
    (counts.set i a).getD j 0 = if i = j ∧ j < counts.length then a else counts.getD j 0 := by
  rw [List.getD_eq_getElem?_getD, List.getElem?_set, List.getD_eq_getElem?_getD]
  by_cases hij : i = j
  · rw [if_pos hij, hij]
    by_cases hj : j < counts.length
    · rw [if_pos hj, if_pos (And.intro rfl hj), Option.getD_some]
    · rw [if_neg hj, if_neg (fun h => hj h.2), Option.getD_none,
        List.getElem?_eq_none (Nat.le_of_not_lt hj), Option.getD_none]
  · rw [if_neg hij, if_neg fun h => hij h.1]

/-- The targets take one predecessor each time they occur. -/
structure Released (counts next : List Nat) (targets : List Nat) (out : List Nat × List Nat) :
    Prop where
  length : out.1.length = counts.length
  count : ∀ t, out.1.getD t 0 = counts.getD t 0 - targets.count t
  mem : ∀ t, t ∈ out.2 ↔ t ∈ next ∨ (t ∈ targets ∧ counts.getD t 0 = targets.count t)
  nodup : out.2.Nodup

theorem Released.refl {counts next : List Nat} (hnodup : next.Nodup) :
    Released counts next [] (counts, next) := ⟨rfl, fun t => by simp, fun t => by simp, hnodup⟩

/-- Targets one after the other, none more often than it has predecessors left. -/
theorem Released.trans {counts next targets rest : List Nat} {mid out : List Nat × List Nat}
    (h : Released counts next targets mid) (hrest : Released mid.1 mid.2 rest out)
    (hroom : ∀ t, targets.count t + rest.count t ≤ counts.getD t 0) :
    Released counts next (targets ++ rest) out := by
  refine ⟨hrest.length.trans h.length, fun t => ?_, fun t => ?_, hrest.nodup⟩
  · rw [hrest.count t, h.count t, List.count_append]
    omega
  · have hle := hroom t
    have hmem : t ∈ targets ↔ 0 < targets.count t := List.count_pos_iff.symm
    have hmem' : t ∈ rest ↔ 0 < rest.count t := List.count_pos_iff.symm
    rw [hrest.mem t, h.mem t, h.count t, List.count_append, List.mem_append, hmem, hmem', or_assoc]
    refine or_congr_right ⟨fun h => ?_, fun h => ?_⟩
    · cases h with
      | inl hfirst => exact ⟨.inl hfirst.1, by omega⟩
      | inr hsecond => exact ⟨.inr hsecond.1, by omega⟩
    · by_cases hlater : 0 < rest.count t
      · exact .inr ⟨hlater, by omega⟩
      · exact .inl ⟨by omega, by omega⟩

theorem released_of_release {counts next : List Nat} {target : Nat}
    (hroom : 0 < counts.getD target 0) (hnodup : next.Nodup) (hnext : target ∉ next) :
    Released counts next [target] (release (counts, next) target) := by
  have hlt : target < counts.length := by
    by_contra hge
    rw [List.getD_eq_getElem?_getD, List.getElem?_eq_none (Nat.le_of_not_lt hge),
      Option.getD_none] at hroom
    omega
  have hcount : ∀ t, (counts.set target (counts.getD target 0 - 1)).getD t 0 =
      counts.getD t 0 - [target].count t := by
    intro t
    rw [getD_set, List.count_singleton]
    by_cases ht : target = t
    · simp [← ht, hlt]
    · simp [ht]
  by_cases hlast : counts.getD target 0 - 1 = 0
  · have hstep : release (counts, next) target =
        (counts.set target (counts.getD target 0 - 1), next ++ [target]) := by
      show (_, if counts.getD target 0 - 1 = 0 then _ else _) = _
      rw [if_pos hlast]
    rw [hstep]
    refine ⟨List.length_set, hcount, fun t => ?_, ?_⟩
    · rw [List.mem_append, List.mem_singleton, List.count_singleton]
      refine or_congr_right ⟨fun ht => ⟨ht, ?_⟩, fun ht => ht.1⟩
      simp only [ht, beq_self_eq_true, if_true]
      omega
    · exact hnodup.append (List.nodup_singleton _) (by simpa using hnext)
  · have hstep : release (counts, next) target =
        (counts.set target (counts.getD target 0 - 1), next) := by
      show (_, if counts.getD target 0 - 1 = 0 then _ else _) = _
      rw [if_neg hlast]
    rw [hstep]
    refine ⟨List.length_set, hcount, fun t => ?_, hnodup⟩
    rw [List.mem_singleton, List.count_singleton]
    refine ⟨.inl, fun h => h.resolve_right fun ht => ?_⟩
    simp only [ht.1, beq_self_eq_true, if_true] at ht
    exact hlast (by omega)

theorem released_of_foldl {targets : List Nat} {counts next : List Nat}
    (hroom : ∀ t, targets.count t ≤ counts.getD t 0) (hnodup : next.Nodup)
    (hnext : ∀ t ∈ next, t ∉ targets) :
    Released counts next targets (targets.foldl release (counts, next)) := by
  induction targets generalizing counts next with
  | nil => exact .refl hnodup
  | cons target targets ih =>
      have hcount : ∀ t, [target].count t + targets.count t ≤ counts.getD t 0 := by
        intro t
        have hle := hroom t
        rwa [← List.singleton_append, List.count_append] at hle
      have hpos : 0 < counts.getD target 0 := by
        have hle := hcount target
        rw [List.count_singleton_self] at hle
        omega
      have hone := released_of_release hpos hnodup fun hmem => hnext target hmem (by simp)
      refine hone.trans (ih (fun t => ?_) hone.nodup fun t ht => ?_) hcount
      · rw [hone.count t]
        have hle := hcount t
        omega
      · cases (hone.mem t).mp ht with
        | inl hold => exact fun hmem => hnext t hold (by simp [hmem])
        | inr hlast =>
            -- the target has no predecessor left, so it does not come again
            have hle := hcount t
            rw [hlast.2] at hle
            exact List.count_eq_zero.mp (by omega)

/-! ## What the walk keeps -/

variable {graph : List (List Nat)} {indegree : List Nat}

def Edge (graph : List (List Nat)) (r t : Nat) : Prop := t ∈ graph.getD r []

theorem Edge.lt {r t : Nat} (h : Edge graph r t) : r < graph.length := by
  by_contra hge
  rw [Edge, List.getD_eq_getElem?_getD, List.getElem?_eq_none (Nat.le_of_not_lt hge)] at h
  exact List.not_mem_nil h

/-- The successors of the nodes, each as often as it is one. -/
def successors (graph : List (List Nat)) (nodes : List Nat) : List Nat :=
  nodes.flatMap fun index => graph.getD index []

theorem mem_successors {nodes : List Nat} {t : Nat} :
    t ∈ successors graph nodes ↔ ∃ r ∈ nodes, Edge graph r t := List.mem_flatMap

theorem successors_range (graph : List (List Nat)) :
    successors graph (List.range graph.length) = graph.flatten := by
  have hrows : (List.range graph.length).map (fun index => graph.getD index []) = graph := by
    refine List.ext_getElem (by simp) fun i hi hi' => ?_
    simp [List.getD_eq_getElem?_getD, hi']
  rw [successors, List.flatMap_def, hrows]

/-- The nodes that are not laid out. -/
def rest (graph : List (List Nat)) (order : List Nat) : List Nat :=
  (List.range graph.length).filter fun index => !order.contains index

theorem mem_rest {order : List Nat} {r : Nat} :
    r ∈ rest graph order ↔ r < graph.length ∧ r ∉ order := by
  simp [rest]

theorem rest_perm {order layer : List Nat} (hnodup : (order ++ layer).Nodup)
    (hbounded : ∀ i ∈ layer, i < graph.length) :
    (rest graph order).Perm (layer ++ rest graph (order ++ layer)) := by
  have hparts := List.nodup_append'.mp hnodup
  have hrange : ∀ order, (rest graph order).Nodup := fun _ => List.nodup_range.filter _
  refine (List.perm_ext_iff_of_nodup (hrange _) ?_).mpr fun i => ?_
  · refine hparts.2.1.append (hrange _) fun i hi hrest => ?_
    exact (mem_rest.mp hrest).2 (List.mem_append_right _ hi)
  · rw [List.mem_append, mem_rest, mem_rest, List.mem_append]
    constructor
    · intro h
      by_cases hi : i ∈ layer
      · exact .inl hi
      · exact .inr ⟨h.1, fun hmem => hmem.elim h.2 hi⟩
    · intro h
      cases h with
      | inl hi => exact ⟨hbounded i hi, fun hold => hparts.2.2 hold hi⟩
      | inr h => exact ⟨h.1, fun hold => h.2 (.inl hold)⟩

structure Walk.Inv (graph : List (List Nat)) (w : Walk) : Prop where
  nodup : (w.order ++ w.layer).Nodup
  bounded : ∀ i ∈ w.order ++ w.layer, i < graph.length
  indegree : ∀ t, w.indegree.getD t 0 = (successors graph (rest graph w.order)).count t
  ready : ∀ t < graph.length, t ∈ w.order ++ w.layer ↔ ∀ r, Edge graph r t → r ∈ w.order
  starts : LayerStarts w.starts
  length : w.starts.length = w.order.length
  earlier : ∀ k t, w.order[k]? = some t → ∀ r, Edge graph r t →
    r ∈ w.order.take (w.starts.getD k k)

theorem Walk.Inv.start
    (hindegree : ∀ t, indegree.getD t 0 = (successors graph (List.range graph.length)).count t) :
    (Walk.start graph indegree).Inv graph where
  nodup := List.nodup_range.filter _
  bounded i hi := List.mem_range.mp (List.mem_filter.mp hi).1
  indegree t := by
    show indegree.getD t 0 = _
    rw [hindegree t, show rest graph (Walk.start graph indegree).order = List.range graph.length by
      simp [rest, Walk.start]]
  ready t ht := by
    have hcount : indegree.getD t 0 = 0 ↔ t ∉ successors graph (List.range graph.length) := by
      rw [hindegree t, List.count_eq_zero]
    show t ∈ (List.range graph.length).filter (fun index => indegree.getD index 0 = 0) ↔ _
    rw [List.mem_filter, List.mem_range, decide_eq_true_eq, hcount, mem_successors]
    constructor
    · intro h r hedge
      exact absurd ⟨r, List.mem_range.mpr hedge.lt, hedge⟩ h.2
    · intro h
      refine ⟨ht, fun hexists => ?_⟩
      cases hexists with
      | intro r hr => exact List.not_mem_nil (h r hr.2)
  starts := .nil
  length := rfl
  earlier k t h := by simp [Walk.start] at h

/-- The targets a layer releases, in the order it does. -/
theorem foldl_layer (layer : List Nat) (s : List Nat × List Nat) :
    layer.foldl (fun s index => (graph.getD index []).foldl release s) s =
      (successors graph layer).foldl release s := by
  rw [successors, List.foldl_flatMap]

theorem Walk.Inv.released {w : Walk} (h : w.Inv graph) :
    Released w.indegree [] (successors graph w.layer)
      ((successors graph w.layer).foldl release (w.indegree, [])) := by
  refine released_of_foldl (fun t => ?_) List.nodup_nil fun t ht => absurd ht List.not_mem_nil
  have hperm := rest_perm h.nodup fun i hi => h.bounded i (List.mem_append_right _ hi)
  rw [h.indegree t, successors, successors, (hperm.flatMap_right _).count_eq t,
    List.flatMap_append, List.count_append]
  exact Nat.le_add_right _ _

/-- What the layer releases is what has its predecessors up to it. -/
theorem Walk.Inv.mem_next {w : Walk} (h : w.Inv graph) (t : Nat) :
    t ∈ (w.advance graph).layer ↔
      (∃ r ∈ w.layer, Edge graph r t) ∧ ∀ r, Edge graph r t → r ∈ w.order ++ w.layer := by
  have hperm := rest_perm h.nodup fun i hi => h.bounded i (List.mem_append_right _ hi)
  have hcount : w.indegree.getD t 0 = (successors graph w.layer).count t +
      (successors graph (rest graph (w.order ++ w.layer))).count t := by
    rw [h.indegree t, successors, (hperm.flatMap_right _).count_eq t, List.flatMap_append,
      List.count_append, successors, successors]
  have hnone : w.indegree.getD t 0 = (successors graph w.layer).count t ↔
      ∀ r, Edge graph r t → r ∈ w.order ++ w.layer := by
    have hzero : w.indegree.getD t 0 = (successors graph w.layer).count t ↔
        (successors graph (rest graph (w.order ++ w.layer))).count t = 0 := by omega
    rw [hzero, List.count_eq_zero, mem_successors]
    constructor
    · intro hnone r hedge
      by_contra hr
      exact hnone ⟨r, mem_rest.mpr ⟨hedge.lt, hr⟩, hedge⟩
    · intro hall hexists
      cases hexists with
      | intro r hr => exact (mem_rest.mp hr.1).2 (hall r hr.2)
  show t ∈ List.mergeSort _ _ ↔ _
  rw [List.mem_mergeSort, foldl_layer, h.released.mem t, mem_successors, hnone]
  simp

theorem Walk.Inv.advance {w : Walk} (hgraph : ∀ r t, Edge graph r t → t < graph.length)
    (h : w.Inv graph) : (w.advance graph).Inv graph := by
  have hnext := h.mem_next
  have hperm := rest_perm h.nodup fun i hi => h.bounded i (List.mem_append_right _ hi)
  have hlayer : ∀ r ∈ w.layer, r ∉ w.order := fun r hr hold =>
    (List.nodup_append'.mp h.nodup).2.2 hold hr
  refine ⟨?_, ?_, fun t => ?_, fun t ht => ?_, ?_, ?_, fun k t hk r hedge => ?_⟩
  · show ((w.order ++ w.layer) ++ List.mergeSort _ _).Nodup
    refine h.nodup.append ?_ fun t hold hnew => ?_
    · rw [List.nodup_mergeSort, foldl_layer]
      exact h.released.nodup
    · -- a node laid out has no predecessor in the layer
      cases ((hnext t).mp hnew).1 with
      | intro r hr =>
          have hready := (h.ready t (h.bounded t hold)).mp hold r hr.2
          exact hlayer r hr.1 hready
  · intro i hi
    cases List.mem_append.mp hi with
    | inl hold => exact h.bounded i hold
    | inr hnew =>
        cases ((hnext i).mp hnew).1 with
        | intro r hr => exact hgraph r i hr.2
  · show List.getD (Prod.fst (w.layer.foldl (fun s index =>
      (graph.getD index []).foldl release s) (w.indegree, []))) t 0 = _
    rw [foldl_layer, h.released.count t, h.indegree t, successors,
      (hperm.flatMap_right _).count_eq t, List.flatMap_append, List.count_append]
    show _ + (successors graph (rest graph (w.order ++ w.layer))).count t -
      (successors graph w.layer).count t = _
    exact Nat.add_sub_cancel_left _ _
  · show t ∈ (w.order ++ w.layer) ++ (w.advance graph).layer ↔
      ∀ r, Edge graph r t → r ∈ w.order ++ w.layer
    rw [List.mem_append, hnext t, h.ready t ht]
    constructor
    · intro hmem r hedge
      cases hmem with
      | inl hold => exact List.mem_append_left _ (hold r hedge)
      | inr hnew => exact hnew.2 r hedge
    · intro hall
      by_cases hold : ∀ r, Edge graph r t → r ∈ w.order
      · exact .inl hold
      · push Not at hold
        cases hold with
        | intro r hr =>
            exact .inr ⟨⟨r, (List.mem_append.mp (hall r hr.1)).resolve_left hr.2, hr.1⟩, hall⟩
  · show LayerStarts (w.starts ++ List.replicate w.layer.length w.order.length)
    rw [← h.length]
    exact h.starts.append _
  · show (w.starts ++ List.replicate w.layer.length w.order.length).length = _
    simp [Walk.advance, h.length]
  · replace hk : (w.order ++ w.layer)[k]? = some t := hk
    show r ∈ (w.order ++ w.layer).take
      ((w.starts ++ List.replicate w.layer.length w.order.length).getD k k)
    rw [← h.length]
    by_cases hlt : k < w.order.length
    · rw [getD_append_left (h.length.symm ▸ hlt)]
      rw [List.getElem?_append_left hlt] at hk
      have hstart := h.starts.le k (h.length.symm ▸ hlt)
      rw [List.take_append_of_le_length (hstart.trans hlt.le)]
      exact h.earlier k t hk r hedge
    · have hbound : k < w.order.length + w.layer.length := by
        have hlen := (List.getElem?_eq_some_iff.mp hk).1
        rwa [List.length_append] at hlen
      rw [getD_append_replicate (h.length.symm ▸ Nat.le_of_not_lt hlt) (h.length.symm ▸ hbound),
        h.length, List.take_left]
      have hmem : t ∈ w.order ++ w.layer := List.mem_of_getElem? hk
      exact (h.ready t (h.bounded t hmem)).mp hmem r hedge

theorem Walk.Inv.run {w : Walk} (hgraph : ∀ r t, Edge graph r t → t < graph.length)
    (h : w.Inv graph) (fuel : Nat) : (w.run graph fuel).Inv graph := by
  induction fuel generalizing w with
  | zero => exact h
  | succ fuel ih =>
      show Walk.Inv graph (if w.layer.isEmpty then w else (w.advance graph).run graph fuel)
      split
      · exact h
      · exact ih (h.advance hgraph)

/-- The walk ends: every layer but the last lays out one node more. -/
theorem Walk.Inv.layer_eq_nil {w : Walk} (hgraph : ∀ r t, Edge graph r t → t < graph.length)
    (h : w.Inv graph) {fuel : Nat} (hfuel : graph.length < w.order.length + fuel) :
    (w.run graph fuel).layer = [] := by
  induction fuel generalizing w with
  | zero =>
      have hsubset : w.order ⊆ List.range graph.length := fun i hi =>
        List.mem_range.mpr (h.bounded i (List.mem_append_left _ hi))
      have hle := ((List.nodup_append'.mp h.nodup).1.subperm hsubset).length_le
      rw [List.length_range] at hle
      omega
  | succ fuel ih =>
      show Walk.layer (if w.layer.isEmpty then w else (w.advance graph).run graph fuel) = []
      split
      · rename_i hempty
        exact List.isEmpty_iff.mp hempty
      · rename_i hlayer
        refine ih (h.advance hgraph) ?_
        have hpos : 0 < w.layer.length := by
          rw [List.length_pos_iff, ne_eq, ← List.isEmpty_iff]
          exact hlayer
        show graph.length < (w.order ++ w.layer).length + fuel
        rw [List.length_append]
        omega

/-! ## The layout -/

section Layout

variable (hgraph : ∀ r t, Edge graph r t → t < graph.length)
  (hindegree : ∀ t, indegree.getD t 0 = (successors graph (List.range graph.length)).count t)

include hgraph hindegree

theorem reached_inv : (reached graph indegree).Inv graph :=
  (Walk.Inv.start hindegree).run hgraph _

theorem reached_layer : (reached graph indegree).layer = [] :=
  (Walk.Inv.start hindegree).layer_eq_nil hgraph (Nat.lt_add_left _ (Nat.lt_succ_self _))

/-- A node is reached once its predecessors are. -/
theorem mem_reached_of_edges {t : Nat} (ht : t < graph.length)
    (h : ∀ r, Edge graph r t → r ∈ (reached graph indegree).order) :
    t ∈ (reached graph indegree).order := by
  have hready := (reached_inv hgraph hindegree).ready t ht
  rw [reached_layer hgraph hindegree, List.append_nil] at hready
  exact hready.mpr h

/-- What is reached is what has no endless chain of predecessors. -/
theorem mem_reached_iff {t : Nat} (ht : t < graph.length) :
    t ∈ (reached graph indegree).order ↔ Acc (Edge graph) t := by
  constructor
  · intro hmem
    have hinv := reached_inv hgraph hindegree
    have hall : ∀ (k t : Nat), (reached graph indegree).order[k]? = some t → Acc (Edge graph) t := by
      intro k
      induction k using Nat.strong_induction_on with
      | _ k ih =>
          intro t hk
          refine .intro t fun r hedge => ?_
          cases List.mem_take_iff_getElem.mp (hinv.earlier k t hk r hedge) with
          | intro j hj =>
              cases hj with
              | intro hlt hget =>
                  have hle := hinv.starts.le k (hinv.length ▸ (List.getElem?_eq_some_iff.mp hk).1)
                  have hj : (reached graph indegree).order[j]? = some r := by
                    rw [← hget, List.getElem?_eq_getElem]
                  exact ih j (by omega) r hj
    cases List.mem_iff_getElem?.mp hmem with
    | intro k hk => exact hall k t hk
  · intro hacc
    induction hacc with
    | intro t _ ih => exact mem_reached_of_edges hgraph hindegree ht fun r hedge => ih r hedge hedge.lt

theorem layout_perm : (layout graph indegree).1.Perm (List.range graph.length) := by
  have hinv := reached_inv hgraph hindegree
  have hnodup := (List.nodup_append'.mp hinv.nodup).1
  have hperm := @rest_perm graph [] (reached graph indegree).order (by simpa using hnodup)
    fun i hi => hinv.bounded i (List.mem_append_left _ hi)
  simpa [rest, layout] using hperm.symm

theorem layout_length : (layout graph indegree).2.length = graph.length := by
  have hperm := (layout_perm hgraph hindegree).length_eq
  rw [List.length_range] at hperm
  rw [← hperm]
  simp [layout, (reached_inv hgraph hindegree).length]

theorem layout_starts : LayerStarts (layout graph indegree).2 := by
  have hinv := reached_inv hgraph hindegree
  show LayerStarts ((reached graph indegree).starts ++ List.range' _ _)
  rw [← hinv.length]
  exact hinv.starts.append_range' _

/-- The predecessors of a node lie before its layer, unless it has an endless chain of them. -/
theorem mem_take_of_edge {k r t : Nat} (hk : (layout graph indegree).1[k]? = some t)
    (hacc : Acc (Edge graph) t) (hedge : Edge graph r t) :
    r ∈ (layout graph indegree).1.take ((layout graph indegree).2.getD k k) := by
  have hinv := reached_inv hgraph hindegree
  have ht := List.mem_range.mp ((layout_perm hgraph hindegree).mem_iff.mp (List.mem_of_getElem? hk))
  have hmem := (mem_reached_iff hgraph hindegree ht).mpr hacc
  have hnodup := (layout_perm hgraph hindegree).nodup_iff.mpr List.nodup_range
  cases List.mem_iff_getElem?.mp hmem with
  | intro j hj =>
      have hlt := (List.getElem?_eq_some_iff.mp hj).1
      have hj' : (layout graph indegree).1[j]? = some t := by
        rw [← hj]
        exact List.getElem?_append_left hlt
      have hkj : k = j := by
        have hlen := (List.getElem?_eq_some_iff.mp hk).1
        exact (List.getElem?_inj hlen hnodup).mp (hk.trans hj'.symm)
      have hstart := hinv.starts.le j (hinv.length.symm ▸ hlt)
      rw [hkj]
      show r ∈ ((reached graph indegree).order ++ _).take
        (((reached graph indegree).starts ++ _).getD j j)
      rw [getD_append_left (hinv.length.symm ▸ hlt),
        List.take_append_of_le_length (hstart.trans hlt.le)]
      exact hinv.earlier j t hj r hedge

/-- From the first node with an endless chain of predecessors on, each is a layer of its own. -/
theorem layout_start_of_not_acc {j k t : Nat} (hk : (layout graph indegree).1[k]? = some t)
    (hacc : ¬Acc (Edge graph) t) (hkj : k ≤ j) : (layout graph indegree).2.getD j j = j := by
  have hinv := reached_inv hgraph hindegree
  have ht := List.mem_range.mp ((layout_perm hgraph hindegree).mem_iff.mp (List.mem_of_getElem? hk))
  have hmem : t ∉ (reached graph indegree).order := fun hmem =>
    hacc ((mem_reached_iff hgraph hindegree ht).mp hmem)
  have hge : (reached graph indegree).order.length ≤ k := by
    by_contra hlt
    rw [show (layout graph indegree).1 = (reached graph indegree).order ++ _ from rfl,
      List.getElem?_append_left (Nat.lt_of_not_le hlt)] at hk
    exact hmem (List.mem_of_getElem? hk)
  show ((reached graph indegree).starts ++ List.range' _ _).getD j j = j
  rw [List.getD_eq_getElem?_getD, List.getElem?_append_right (by rw [hinv.length]; omega), hinv.length]
  generalize (List.filter _ _).length = width
  by_cases hj : j - (reached graph indegree).order.length < width
  · rw [List.getElem?_range' hj, Option.getD_some]
    omega
  · rw [List.getElem?_eq_none (by rw [List.length_range']; omega), Option.getD_none]

end Layout

end PhpantomLsp.Lib.Layering
