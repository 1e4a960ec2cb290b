import PhpantomLsp.Imports.UseMembers
import PhpantomLsp.Index.Toposort
import PhpantomLsp.Lib.Layering
import PhpantomLsp.Parallel.Layers

/-!
# The order templates are re-inferred in

A refresh pass re-infers every template that has been lowered.  A partial's types
are read out of the template that renders it, so a template comes after the
templates that render it: `blade_render_order` lays the templates out in layers,
those nobody renders first, and `for_each_layered` re-infers a layer at a time on
a pool of workers.  A template that is rendered from a cycle has no such place; it
follows at the end, in the order of the URIs, alone in its layer.
-/

namespace PhpantomLsp.Blade

open Lib Lib.Layering Lib.WorkerPool Parallel Relation

/-- `canonical_view_name`: `/` separates as `.` does, and neither starts a name. -/
def canonicalViewName (name : Atom) : Atom :=
  let parts :=
    match Imports.splitOnce [':', ':'] name.toList with
    | some (nmspace, view) => (some nmspace, view)
    | none => (none, name.toList)
  let view := parts.2
  if !view.contains '/' && view.head? != some '.' then name
  else
    let normalised :=
      (view.dropWhile fun c => c = '/' || c = '.').map fun c => if c = '/' then '.' else c
    match parts.1 with
    | some nmspace => String.ofList (nmspace ++ ':' :: ':' :: normalised)
    | none => String.ofList normalised

/-- What the project says of its templates: the names each is rendered by, and the
names of the views it renders. -/
structure Views where
  viewNamesForBladeUri : Atom → List Atom
  bladeRenderedViewNames : Atom → List Atom

variable (views : Views)

/-- The canonical names a template is rendered by. -/
def Views.names (uri : Atom) : List Atom := (views.viewNamesForBladeUri uri).map canonicalViewName

/-- `rendered_by_name`: a name two templates share is the later one's. -/
def renderedByName (uris : List Atom) : Table Atom Nat :=
  uris.zipIdx.foldl
    (fun byName template =>
      (views.viewNamesForBladeUri template.1).foldl
        (fun byName name => byName.insert (canonicalViewName name) template.2) byName)
    ∅

/-- The template at `index` renders another: unless it is itself, or known already. -/
def addRender (index : Nat) (s : List Nat × List Nat) (target : Nat) : List Nat × List Nat :=
  if target = index ∨ target ∈ s.1 then s
  else (s.1 ++ [target], s.2.set target (s.2.getD target 0 + 1))

/-- What one template renders, and how many templates render each by now. -/
def renderRow (byName : Table Atom Nat) (template : Atom × Nat) (renderers : List Nat) :
    List Nat × List Nat :=
  ((views.bladeRenderedViewNames template.1).filterMap fun name =>
    byName[canonicalViewName name]?).foldl (addRender template.2) ([], renderers)

/-- `renders` and `renderers`, for the first of the templates. -/
def renderRows (byName : Table Atom Nat) (count : Nat) (uris : List Atom) :
    List (List Nat) × List Nat :=
  uris.zipIdx.foldl
    (fun s template =>
      let row := renderRow views byName template s.2
      (s.1 ++ [row.1], row.2))
    ([], List.replicate count 0)

def renderGraph (uris : List Atom) : List (List Nat) × List Nat :=
  renderRows views (renderedByName views uris) uris.length uris

/-- `uris.sort_unstable()` -/
def sortedUris (uris : List Atom) : List Atom := uris.mergeSort fun a b => decide (a ≤ b)

/-- `blade_render_order` -/
def bladeRenderOrder (uris : List Atom) : List Atom × List Nat :=
  let uris := sortedUris uris
  let graph := renderGraph views uris
  let laidOut := layout graph.1 graph.2
  (laidOut.1.map fun index => uris.getD index "", laidOut.2)

/-! ## Who renders whom -/

/-- The template a view name stands for: of those with the name, the last. -/
structure Holds (uris : List Atom) (name t : Atom) : Prop where
  mem : t ∈ uris
  named : name ∈ views.names t
  last : ∀ u ∈ uris, name ∈ views.names u → u ≤ t

/-- A template renders another. -/
def Renders (uris : List Atom) (r t : Atom) : Prop :=
  r ∈ uris ∧ r ≠ t ∧
    ∃ name ∈ views.bladeRenderedViewNames r, Holds views uris (canonicalViewName name) t

/-- A template is rendered from a cycle of templates, or is on one. -/
def FromCycle (uris : List Atom) (t : Atom) : Prop :=
  ∃ c, TransGen (Renders views uris) c c ∧ ReflTransGen (Renders views uris) c t

variable {views}

theorem foldl_insert_get (names : List Atom) (index : Nat) (byName : Table Atom Nat) (c : Atom) :
    (names.foldl (fun byName name => byName.insert (canonicalViewName name) index) byName)[c]? =
      if c ∈ names.map canonicalViewName then some index else byName[c]? := by
  induction names generalizing byName with
  | nil => simp
  | cons name names ih =>
      rw [List.foldl_cons, ih, Table.get_insert, List.map_cons]
      by_cases hrest : c ∈ names.map canonicalViewName
      · rw [if_pos hrest, if_pos (List.mem_cons_of_mem _ hrest)]
      · rw [if_neg hrest]
        by_cases hname : canonicalViewName name = c
        · rw [if_pos hname, if_pos (by simp [hname])]
        · have hnone : c ∉ canonicalViewName name :: names.map canonicalViewName := by
            rw [List.mem_cons, not_or]
            exact ⟨Ne.symm hname, hrest⟩
          rw [if_neg hname, if_neg hnone]

theorem renderedByName_concat (uris : List Atom) (uri c : Atom) :
    (renderedByName views (uris ++ [uri]))[c]? =
      if c ∈ views.names uri then some uris.length else (renderedByName views uris)[c]? := by
  rw [renderedByName, List.zipIdx_append, List.foldl_append]
  simp only [List.zipIdx_cons, List.zipIdx_nil, List.foldl_cons, List.foldl_nil, Nat.zero_add]
  rw [foldl_insert_get]
  rfl

theorem renderedByName_get (uris : List Atom) (c : Atom) (i : Nat) :
    (renderedByName views uris)[c]? = some i ↔
      (∃ u, uris[i]? = some u ∧ c ∈ views.names u) ∧
        ∀ (j : Nat) (u : Atom), uris[j]? = some u → c ∈ views.names u → j ≤ i := by
  induction uris using List.reverseRecOn with
  | nil => simp [renderedByName]
  | append_singleton uris uri ih =>
      rw [renderedByName_concat]
      by_cases hc : c ∈ views.names uri
      · rw [if_pos hc, Option.some.injEq]
        constructor
        · intro hi
          refine ⟨⟨uri, by rw [← hi]; simp, hc⟩, fun j u hj _ => ?_⟩
          have hlt := (List.getElem?_eq_some_iff.mp hj).1
          rw [List.length_append, List.length_singleton] at hlt
          omega
        · intro h
          have hge := h.2 uris.length uri (by simp) hc
          obtain ⟨u, hu, -⟩ := h.1
          have hlt := (List.getElem?_eq_some_iff.mp hu).1
          rw [List.length_append, List.length_singleton] at hlt
          omega
      · have hold : ∀ (j : Nat) (u : Atom), (uris ++ [uri])[j]? = some u → c ∈ views.names u →
            uris[j]? = some u := by
          intro j u hj hu
          by_cases hlt : j < uris.length
          · rwa [List.getElem?_append_left hlt] at hj
          · have hbound := (List.getElem?_eq_some_iff.mp hj).1
            rw [List.length_append, List.length_singleton] at hbound
            have heq : j = uris.length := by omega
            rw [heq, List.getElem?_concat_length, Option.some.injEq] at hj
            exact absurd (hj ▸ hu) hc
        have hkept : ∀ (j : Nat) (u : Atom), uris[j]? = some u → (uris ++ [uri])[j]? = some u := by
          intro j u hj
          rwa [List.getElem?_append_left (List.getElem?_eq_some_iff.mp hj).1]
        rw [if_neg hc, ih]
        constructor
        · intro h
          obtain ⟨u, hu, hcu⟩ := h.1
          exact ⟨⟨u, hkept i u hu, hcu⟩, fun j v hj hv => h.2 j v (hold j v hj hv) hv⟩
        · intro h
          obtain ⟨u, hu, hcu⟩ := h.1
          exact ⟨⟨u, hold i u hu hcu, hcu⟩, fun j v hj hv => h.2 j v (hkept j v hj) hv⟩

/-! ## The graph -/

/-- What adding renders does to a row and to the numbers of renderers. -/
structure Added (index : Nat) (s : List Nat × List Nat) (targets : List Nat)
    (out : List Nat × List Nat) : Prop where
  length : out.2.length = s.2.length
  mem : ∀ t, t ∈ out.1 ↔ t ∈ s.1 ∨ (t ∈ targets ∧ t ≠ index)
  count : ∀ t, out.2.getD t 0 + s.1.count t = s.2.getD t 0 + out.1.count t

theorem added_of_addRender {index target : Nat} {s : List Nat × List Nat}
    (hlt : target < s.2.length) : Added index s [target] (addRender index s target) := by
  unfold addRender
  split
  · rename_i hknown
    refine ⟨rfl, fun t => ?_, fun t => rfl⟩
    rw [List.mem_singleton]
    refine ⟨.inl, fun h => h.elim id fun ht => ?_⟩
    cases hknown with
    | inl hself => exact absurd (ht.1.trans hself) ht.2
    | inr hmem => exact ht.1 ▸ hmem
  · rename_i hnew
    rw [not_or] at hnew
    refine ⟨List.length_set, fun t => ?_, fun t => ?_⟩
    · rw [List.mem_append, List.mem_singleton]
      exact or_congr_right ⟨fun ht => ⟨ht, ht ▸ hnew.1⟩, fun ht => ht.1⟩
    · dsimp only
      rw [getD_set, List.count_append, List.count_singleton]
      by_cases ht : target = t
      · rw [ht] at hlt
        simp only [ht, beq_self_eq_true, if_true, hlt, and_self]
        omega
      · simp [ht]

theorem added_of_foldl {index : Nat} {targets : List Nat} {s : List Nat × List Nat}
    (hlt : ∀ t ∈ targets, t < s.2.length) :
    Added index s targets (targets.foldl (addRender index) s) := by
  induction targets generalizing s with
  | nil => exact ⟨rfl, fun t => by simp, fun t => rfl⟩
  | cons target targets ih =>
      have hone := @added_of_addRender index target s (hlt target (by simp))
      have hrest := ih (s := addRender index s target) fun t ht => by
        rw [hone.length]
        exact hlt t (by simp [ht])
      refine ⟨hrest.length.trans hone.length, fun t => ?_, fun t => ?_⟩
      · rw [List.foldl_cons, hrest.mem t, hone.mem t, List.mem_singleton, List.mem_cons]
        tauto
      · have h₁ := hone.count t
        have h₂ := hrest.count t
        rw [List.foldl_cons]
        omega

/-- The rows of the first templates. -/
structure Rows (views : Views) (byName : Table Atom Nat) (count : Nat) (uris : List Atom)
    (s : List (List Nat) × List Nat) : Prop where
  rows : s.1.length = uris.length
  length : s.2.length = count
  count : ∀ t, s.2.getD t 0 = s.1.flatten.count t
  edge : ∀ i t, Edge s.1 i t ↔ ∃ u, uris[i]? = some u ∧ t ≠ i ∧
    ∃ name ∈ views.bladeRenderedViewNames u, byName[canonicalViewName name]? = some t

theorem edge_concat {graph : List (List Nat)} {row : List Nat} {i t : Nat} :
    Edge (graph ++ [row]) i t ↔ Edge graph i t ∨ (i = graph.length ∧ t ∈ row) := by
  unfold Edge
  rw [List.getD_eq_getElem?_getD, List.getD_eq_getElem?_getD]
  by_cases hlt : i < graph.length
  · rw [List.getElem?_append_left hlt]
    exact ⟨.inl, fun h => h.resolve_right fun hi => absurd hi.1 hlt.ne⟩
  · rw [List.getElem?_eq_none (Nat.le_of_not_lt hlt)]
    by_cases hi : i = graph.length
    · rw [hi, List.getElem?_concat_length]
      simp
    · have hnone : (graph ++ [row])[i]? = none := by
        rw [List.getElem?_eq_none_iff, List.length_append, List.length_singleton]
        omega
      simp [hnone, hi]

theorem rows_of_renderRows {byName : Table Atom Nat} {count : Nat}
    (hlt : ∀ (c : Atom) (t : Nat), byName[c]? = some t → t < count) (uris : List Atom) :
    Rows views byName count uris (renderRows views byName count uris) := by
  induction uris using List.reverseRecOn with
  | nil =>
      refine ⟨rfl, List.length_replicate, fun t => ?_, fun i t => ?_⟩
      · show (List.replicate count 0).getD t 0 = 0
        rw [List.getD_eq_getElem?_getD, List.getElem?_replicate]
        split <;> rfl
      · simp [Edge, renderRows]
  | append_singleton uris uri ih =>
      let before := renderRows views byName count uris
      have htargets : ∀ t ∈ (views.bladeRenderedViewNames uri).filterMap
          (fun name => byName[canonicalViewName name]?), t < before.2.length := by
        intro t ht
        obtain ⟨name, -, hname⟩ := List.mem_filterMap.mp ht
        rw [ih.length]
        exact hlt _ t hname
      have hadded := @added_of_foldl uris.length _ ([], before.2) htargets
      have hstep : renderRows views byName count (uris ++ [uri]) =
          (before.1 ++ [(renderRow views byName (uri, uris.length) before.2).1],
            (renderRow views byName (uri, uris.length) before.2).2) := by
        rw [renderRows, List.zipIdx_append, List.foldl_append]
        simp only [List.zipIdx_cons, List.zipIdx_nil, List.foldl_cons, List.foldl_nil, Nat.zero_add]
        rfl
      rw [hstep]
      refine ⟨?_, hadded.length.trans ih.length, fun t => ?_, fun i t => ?_⟩
      · rw [List.length_append, List.length_append, ih.rows]
        rfl
      · have hcount := hadded.count t
        rw [List.count_nil, Nat.add_zero, ih.count t] at hcount
        show List.getD (Prod.snd (renderRow views byName (uri, uris.length) before.2)) t 0 = _
        rw [List.flatten_append, List.count_append, List.flatten_singleton]
        exact hcount
      · have hrow : t ∈ (renderRow views byName (uri, uris.length) before.2).1 ↔
            t ≠ uris.length ∧ ∃ name ∈ views.bladeRenderedViewNames uri,
              byName[canonicalViewName name]? = some t := by
          have hmem := hadded.mem t
          rw [List.mem_filterMap] at hmem
          exact hmem.trans (by simp [and_comm])
        rw [edge_concat, ih.edge i t, hrow, ih.rows]
        constructor
        · intro h
          cases h with
          | inl hold =>
              obtain ⟨u, hu, hrest⟩ := hold
              refine ⟨u, ?_, hrest⟩
              rwa [List.getElem?_append_left (List.getElem?_eq_some_iff.mp hu).1]
          | inr hnew => exact ⟨uri, by rw [hnew.1]; simp, hnew.1 ▸ hnew.2.1, hnew.2.2⟩
        · intro h
          obtain ⟨u, hu, hne, hnames⟩ := h
          by_cases hi : i < uris.length
          · rw [List.getElem?_append_left hi] at hu
            exact .inl ⟨u, hu, hne, hnames⟩
          · have hbound := (List.getElem?_eq_some_iff.mp hu).1
            rw [List.length_append, List.length_singleton] at hbound
            have heq : i = uris.length := by omega
            rw [heq, List.getElem?_concat_length, Option.some.injEq] at hu
            exact .inr ⟨heq, heq ▸ hne, hu ▸ hnames⟩

theorem renderedByName_lt {uris : List Atom} {c : Atom} {t : Nat}
    (h : (renderedByName views uris)[c]? = some t) : t < uris.length := by
  obtain ⟨u, hu, -⟩ := ((renderedByName_get uris c t).mp h).1
  exact (List.getElem?_eq_some_iff.mp hu).1

theorem rows_of_renderGraph (uris : List Atom) :
    Rows views (renderedByName views uris) uris.length uris (renderGraph views uris) :=
  rows_of_renderRows (fun _ _ h => renderedByName_lt h) uris

theorem renderGraph_bounded (uris : List Atom) (r t : Nat)
    (h : Edge (renderGraph views uris).1 r t) : t < (renderGraph views uris).1.length := by
  have hrows := @rows_of_renderGraph views uris
  obtain ⟨u, -, -, name, -, hname⟩ := (hrows.edge r t).mp h
  rw [hrows.rows]
  exact renderedByName_lt hname

theorem renderGraph_indegree (uris : List Atom) (t : Nat) :
    (renderGraph views uris).2.getD t 0 = (successors (renderGraph views uris).1
      (List.range (renderGraph views uris).1.length)).count t := by
  rw [successors_range, (@rows_of_renderGraph views uris).count t]

/-! ## Places and URIs -/

theorem sortedUris_perm (uris : List Atom) : (sortedUris uris).Perm uris := List.mergeSort_perm _ _

theorem exists_place {uris : List Atom} {u : Atom} :
    u ∈ uris ↔ ∃ i : Nat, (sortedUris uris)[i]? = some u := by
  rw [← (sortedUris_perm uris).mem_iff, List.mem_iff_getElem?]

section Places

variable {uris : List Atom} (hnodup : uris.Nodup)

include hnodup

theorem sortedUris_pairwise : (sortedUris uris).Pairwise (· < ·) := by
  have hsorted : (sortedUris uris).Pairwise (· ≤ ·) := by
    have hpairwise := @List.pairwise_mergeSort _ (fun a b : Atom => decide (a ≤ b))
      (fun a b c hab hbc => decide_eq_true ((of_decide_eq_true hab).trans (of_decide_eq_true hbc)))
      (fun a b => by simpa using le_total a b) uris
    exact hpairwise.imp fun hab => of_decide_eq_true hab
  have hdistinct := (sortedUris_perm uris).nodup_iff.mpr hnodup
  exact (hsorted.and hdistinct).imp fun h => lt_of_le_of_ne h.1 h.2

/-- The places ascend with the URIs. -/
theorem le_iff_of_places {i j : Nat} {u v : Atom} (hu : (sortedUris uris)[i]? = some u)
    (hv : (sortedUris uris)[j]? = some v) : u ≤ v ↔ i ≤ j := by
  have hlt : ∀ {i j : Nat} {u v : Atom}, (sortedUris uris)[i]? = some u →
      (sortedUris uris)[j]? = some v → i < j → u < v := by
    intro i j u v hu hv hij
    obtain ⟨hi, hu⟩ := List.getElem?_eq_some_iff.mp hu
    obtain ⟨hj, hv⟩ := List.getElem?_eq_some_iff.mp hv
    rw [← hu, ← hv]
    exact List.pairwise_iff_getElem.mp (sortedUris_pairwise hnodup) i j hi hj hij
  constructor
  · intro huv
    by_contra hji
    exact absurd (hlt hv hu (Nat.lt_of_not_le hji)) (not_lt.mpr huv)
  · intro hij
    cases Nat.lt_or_eq_of_le hij with
    | inl hij => exact (hlt hu hv hij).le
    | inr heq =>
        rw [heq, hv, Option.some.injEq] at hu
        exact hu.ge

theorem eq_iff_of_places {i j : Nat} {u v : Atom} (hu : (sortedUris uris)[i]? = some u)
    (hv : (sortedUris uris)[j]? = some v) : u = v ↔ i = j := by
  rw [le_antisymm_iff, le_iff_of_places hnodup hu hv, le_iff_of_places hnodup hv hu]
  omega

/-- A name stands for a template where the map has its place. -/
theorem holds_iff {j : Nat} {t c : Atom} (ht : (sortedUris uris)[j]? = some t) :
    (renderedByName views (sortedUris uris))[c]? = some j ↔ Holds views uris c t := by
  rw [renderedByName_get]
  constructor
  · intro h
    obtain ⟨u, hu, hcu⟩ := h.1
    rw [ht, Option.some.injEq] at hu
    refine ⟨exists_place.mpr ⟨j, ht⟩, hu ▸ hcu, fun v hv hcv => ?_⟩
    obtain ⟨i, hi⟩ := exists_place.mp hv
    exact (le_iff_of_places hnodup hi ht).mpr (h.2 i v hi hcv)
  · intro h
    refine ⟨⟨t, ht, h.named⟩, fun i u hu hcu => ?_⟩
    exact (le_iff_of_places hnodup hu ht).mp (h.last u (exists_place.mpr ⟨i, hu⟩) hcu)

theorem edge_iff_renders {i j : Nat} {r t : Atom} (hr : (sortedUris uris)[i]? = some r)
    (ht : (sortedUris uris)[j]? = some t) :
    Edge (renderGraph views (sortedUris uris)).1 i j ↔ Renders views uris r t := by
  rw [rows_of_renderGraph (sortedUris uris) |>.edge i j]
  constructor
  · intro h
    obtain ⟨u, hu, hne, name, hmem, hname⟩ := h
    rw [hr, Option.some.injEq] at hu
    refine ⟨exists_place.mpr ⟨i, hr⟩, fun heq => ?_, name, hu ▸ hmem,
      (holds_iff hnodup ht).mp hname⟩
    exact hne ((eq_iff_of_places hnodup hr ht).mp heq).symm
  · intro h
    obtain ⟨-, hne, name, hmem, hname⟩ := h
    refine ⟨r, hr, fun heq => ?_, name, hmem, (holds_iff hnodup ht).mpr hname⟩
    exact hne ((eq_iff_of_places hnodup hr ht).mpr heq.symm)

theorem acc_iff_acc {j : Nat} {t : Atom} (ht : (sortedUris uris)[j]? = some t) :
    Acc (Edge (renderGraph views (sortedUris uris)).1) j ↔ Acc (Renders views uris) t := by
  constructor
  · intro h
    induction h generalizing t with
    | intro j _ ih =>
        refine .intro t fun r hrenders => ?_
        obtain ⟨i, hi⟩ := exists_place.mp hrenders.1
        exact ih i ((edge_iff_renders hnodup hi ht).mpr hrenders) hi
  · intro h
    induction h generalizing j with
    | intro t _ ih =>
        refine .intro j fun i hedge => ?_
        have hlt := hedge.lt
        rw [(rows_of_renderGraph (sortedUris uris)).rows] at hlt
        have hi : (sortedUris uris)[i]? = some (sortedUris uris)[i] := List.getElem?_eq_getElem hlt
        exact ih _ ((edge_iff_renders hnodup hi ht).mp hedge) hi

theorem acc_iff_not_fromCycle {j : Nat} {t : Atom} (ht : (sortedUris uris)[j]? = some t) :
    Acc (Edge (renderGraph views (sortedUris uris)).1) j ↔ ¬FromCycle views uris t := by
  rw [acc_iff_acc hnodup ht]
  refine acc_iff_of_finite ((List.finite_toSet uris).subset fun r hr => ?_)
  obtain ⟨t, ht⟩ := hr
  exact ht.1

end Places

/-! ## The order -/

section Order

variable (views : Views) {uris : List Atom} (hnodup : uris.Nodup)

theorem bladeRenderOrder_graph :
    (layout (renderGraph views (sortedUris uris)).1 (renderGraph views (sortedUris uris)).2).1.Perm
      (List.range (sortedUris uris).length) := by
  have hperm := layout_perm (@renderGraph_bounded views (sortedUris uris))
    (renderGraph_indegree (sortedUris uris))
  rwa [(rows_of_renderGraph (sortedUris uris)).rows] at hperm

theorem bladeRenderOrder_perm : (bladeRenderOrder views uris).1.Perm uris := by
  have hrange : (List.range (sortedUris uris).length).map (fun i => (sortedUris uris).getD i "") =
      sortedUris uris := by
    refine List.ext_getElem (by simp) fun i hi hi' => ?_
    simp [List.getD_eq_getElem?_getD, hi']
  have hperm := (@bladeRenderOrder_graph views uris).map fun i => (sortedUris uris).getD i ""
  rw [hrange] at hperm
  exact hperm.trans (sortedUris_perm uris)

theorem bladeRenderOrder_length : (bladeRenderOrder views uris).2.length = uris.length := by
  show (layout _ _).2.length = _
  rw [layout_length (@renderGraph_bounded views (sortedUris uris))
    (renderGraph_indegree (sortedUris uris)), (rows_of_renderGraph (sortedUris uris)).rows,
    (sortedUris_perm uris).length_eq]

theorem bladeRenderOrder_starts : LayerStarts (bladeRenderOrder views uris).2 :=
  layout_starts (@renderGraph_bounded views (sortedUris uris))
    (renderGraph_indegree (sortedUris uris))

/-- The place in the graph of what stands at a place of the order. -/
theorem place_of_order {k : Nat} {t : Atom} (h : (bladeRenderOrder views uris).1[k]? = some t) :
    ∃ i, (layout (renderGraph views (sortedUris uris)).1
        (renderGraph views (sortedUris uris)).2).1[k]? = some i ∧
      (sortedUris uris)[i]? = some t := by
  rw [bladeRenderOrder] at h
  dsimp only at h
  rw [List.getElem?_map, Option.map_eq_some_iff] at h
  obtain ⟨i, hi, hget⟩ := h
  refine ⟨i, hi, ?_⟩
  have hlt := List.mem_range.mp ((bladeRenderOrder_graph views).mem_iff.mp (List.mem_of_getElem? hi))
  rw [← hget, List.getD_eq_getElem?_getD, List.getElem?_eq_getElem hlt, Option.getD_some]

include hnodup

/-- A template follows those that render it, in an earlier layer, unless it is rendered from
a cycle. -/
theorem mem_take_of_renders {k : Nat} {r t : Atom}
    (ht : (bladeRenderOrder views uris).1[k]? = some t) (hrenders : Renders views uris r t)
    (hcycle : ¬FromCycle views uris t) :
    r ∈ (bladeRenderOrder views uris).1.take ((bladeRenderOrder views uris).2.getD k k) := by
  obtain ⟨j, hj, hjt⟩ := place_of_order views ht
  obtain ⟨i, hir⟩ := exists_place.mp hrenders.1
  have hmem := mem_take_of_edge (@renderGraph_bounded views (sortedUris uris))
    (renderGraph_indegree (sortedUris uris)) hj ((acc_iff_not_fromCycle hnodup hjt).mpr hcycle)
    ((edge_iff_renders hnodup hir hjt).mpr hrenders)
  rw [bladeRenderOrder]
  dsimp only
  rw [← List.map_take]
  refine List.mem_map.mpr ⟨i, hmem, ?_⟩
  rw [List.getD_eq_getElem?_getD, hir, Option.getD_some]

/-- From the first template that is rendered from a cycle on, each has a layer of its own. -/
theorem start_of_fromCycle {j k : Nat} {t : Atom}
    (ht : (bladeRenderOrder views uris).1[k]? = some t) (hcycle : FromCycle views uris t)
    (hkj : k ≤ j) : (bladeRenderOrder views uris).2.getD j j = j := by
  obtain ⟨i, hi, hit⟩ := place_of_order views ht
  exact layout_start_of_not_acc (@renderGraph_bounded views (sortedUris uris))
    (renderGraph_indegree (sortedUris uris)) hi
    (fun hacc => (acc_iff_not_fromCycle hnodup hit).mp hacc hcycle) hkj

omit hnodup in
theorem bladeRenderOrder_of_perm {listing : List Atom} (h : listing.Perm uris) :
    bladeRenderOrder views listing = bladeRenderOrder views uris := by
  rw [bladeRenderOrder, bladeRenderOrder, sortedUris, sortedUris, Toposort.mergeSort_perm_eq h]

end Order

/-- Two pages that render the same partial. -/
def listingViews : Views where
  viewNamesForBladeUri uri := [uri]
  bladeRenderedViewNames uri := if uri = "row" then [] else ["/row"]

theorem sortedUris_eq_self {uris : List Atom} (h : uris.Pairwise fun a b => decide (a ≤ b) = true) :
    sortedUris uris = uris := List.mergeSort_of_pairwise h

theorem listingViews_order :
    bladeRenderOrder listingViews ["edit", "index", "row"] = (["edit", "index", "row"], [0, 0, 2]) := by
  rw [bladeRenderOrder, sortedUris_eq_self (by decide +kernel)]
  decide +kernel

end PhpantomLsp.Blade
