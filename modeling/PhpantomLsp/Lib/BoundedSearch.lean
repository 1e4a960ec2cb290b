import Mathlib.Data.List.Infix
import PhpantomLsp.Lib.PreorderWalk

/-!
# A depth-first search that gives up

The search asks each node for an answer before its children and stops at the first.
It marks the key of every node it asks, passes a node whose key is marked, and passes
every node once `limit` of them are marked, wherever in the tree they are.  So what it
asks is the beginning of the preorder of the unlimited search, `limit` nodes long
(`search_eq`).
-/

namespace PhpantomLsp.Lib.BoundedSearch

open PreorderWalk

universe u v

variable {ν : Type u} {κ : Type v} {β : Type*} [DecidableEq κ]

/-- What is searched, and for what. -/
structure Problem (ν : Type u) (κ : Type v) (β : Type*) extends Walk ν κ where
  answer : ν → Option β

/-- The first answer of a loop whose body marks nodes. -/
def firstAnswer (ask : ν → List κ → Option β × List κ) :
    List ν → List κ → Option β × List κ
  | [], visited => (none, visited)
  | node :: rest, visited =>
      match ask node visited with
      | (some b, visited) => (some b, visited)
      | (none, visited) => firstAnswer ask rest visited

variable (p : Problem ν κ β) (limit : Nat)

/-- The search, which also ends `fuel` levels down. -/
def search : (fuel : Nat) → (node : ν) → (visited : List κ) → Option β × List κ
  | 0, _, visited => (none, visited)
  | fuel + 1, node, visited =>
      if limit ≤ visited.length ∨ p.key node ∈ visited then (none, visited)
      else
        match p.answer node with
        | some b => (some b, p.key node :: visited)
        | none => firstAnswer (search fuel) (p.children node) (p.key node :: visited)

variable {p limit}

/-- The result of a search agrees with the nodes an unlimited one would ask: its answer
is the first of those still allowed, and without one it has marked them all, or as many
as are allowed. -/
structure Agrees (answer : ν → Option β) (limit : Nat) (visited : List κ)
    (result : Option β × List κ) (order : List ν × List κ) : Prop where
  answer : result.1 = (order.1.take (limit - visited.length)).findSome? answer
  visited : result.1 = none →
    (order.1.length ≤ limit - visited.length ∧ result.2 = order.2) ∨
      (limit - visited.length ≤ order.1.length ∧ limit ≤ result.2.length)

omit [DecidableEq κ] in
theorem firstAnswer_full {ask : ν → List κ → Option β × List κ} {visited : List κ}
    (h : ∀ node, ask node visited = (none, visited)) (nodes : List ν) :
    firstAnswer ask nodes visited = (none, visited) := by
  induction nodes with
  | nil => rfl
  | cons node rest ih => simp only [firstAnswer, h node, ih]

omit [DecidableEq κ] in
/-- A loop over what some of the items stand for. -/
theorem firstAnswer_filterMap {α : Type*} {f : α → Option ν}
    {ask : ν → List κ → Option β × List κ} (items : List α) (visited : List κ) :
    firstAnswer (fun item visited =>
        match f item with
        | none => (none, visited)
        | some node => ask node visited) items visited =
      firstAnswer ask (items.filterMap f) visited := by
  induction items generalizing visited with
  | nil => rfl
  | cons item rest ih =>
      cases hf : f item with
      | none => simp only [firstAnswer, List.filterMap_cons_none hf, hf, ih]
      | some node => simp only [firstAnswer, List.filterMap_cons_some hf, hf, ih]

omit [DecidableEq κ] in
/-- A loop agrees where its body does. -/
theorem agrees_gather {answer : ν → Option β} {least : Nat}
    {ask : ν → List κ → Option β × List κ} {list : ν → List κ → List ν × List κ}
    (hagrees : ∀ node visited, least ≤ visited.length →
      Agrees answer limit visited (ask node visited) (list node visited))
    (hfull : ∀ node visited, limit ≤ visited.length → ask node visited = (none, visited))
    (hlist : ∀ node visited,
      (list node visited).2.length = visited.length + (list node visited).1.length)
    (nodes : List ν) (visited : List κ) (hleast : least ≤ visited.length) :
    Agrees answer limit visited (firstAnswer ask nodes visited) (gather list nodes visited) := by
  induction nodes generalizing visited with
  | nil => exact ⟨by simp [firstAnswer, gather], fun _ => Or.inl ⟨Nat.zero_le _, rfl⟩⟩
  | cons node rest ih =>
      have hnode := hagrees node visited hleast
      have hlength := hlist node visited
      have htake : ∀ below : List ν,
          ((list node visited).1 ++ below).take (limit - visited.length) =
            (list node visited).1.take (limit - visited.length) ++
              below.take (limit - visited.length - (list node visited).1.length) := fun below =>
        List.take_append
      simp only [firstAnswer, gather]
      cases hask : ask node visited with
      | mk found visited' =>
          rw [hask] at hnode
          cases found with
          | some b =>
              refine ⟨?_, fun hnone => absurd hnone (by simp)⟩
              dsimp only
              rw [htake, List.findSome?_append, ← hnode.answer]
              rfl
          | none =>
              have hnothing := hnode.answer
              dsimp only at hnothing ⊢
              obtain ⟨hfew, heq⟩ | ⟨hmany, hlimit⟩ := hnode.visited rfl
              · dsimp only at heq
                subst heq
                have hrest := ih (list node visited).2 (by omega)
                have hleft : limit - (list node visited).2.length =
                    limit - visited.length - (list node visited).1.length := by omega
                refine ⟨?_, fun hnone => ?_⟩
                · rw [htake, List.findSome?_append, ← hnothing, hrest.answer, hleft]
                  rfl
                · refine (hrest.visited hnone).imp (fun h => ⟨?_, h.2⟩) (fun h => ⟨?_, h.2⟩)
                  · simp only [List.length_append]
                    omega
                  · simp only [List.length_append]
                    omega
              · rw [firstAnswer_full (fun n => hfull n visited' hlimit)]
                refine ⟨?_, fun _ => Or.inr ⟨?_, hlimit⟩⟩
                · rw [htake, List.findSome?_append, ← hnothing, Nat.sub_eq_zero_of_le hmany]
                  rfl
                · simp only [List.length_append]
                  omega

theorem search_full {fuel : Nat} {node : ν} {visited : List κ} (h : limit ≤ visited.length) :
    search p limit fuel node visited = (none, visited) := by
  cases fuel with
  | zero => rfl
  | succ fuel => rw [search, if_pos (Or.inl h)]

/-- The search agrees with the unlimited one as soon as neither runs out of fuel before
the limit is reached. -/
theorem agrees_search (fuel fuel' : Nat) (node : ν) (visited : List κ)
    (hfuel : limit + 1 ≤ fuel + visited.length) (hfuel' : limit ≤ fuel' + visited.length) :
    Agrees p.answer limit visited (search p limit fuel node visited)
      (preorder p.toWalk fuel' node visited) := by
  have hover : limit ≤ visited.length → Agrees p.answer limit visited (none, visited)
      (preorder p.toWalk fuel' node visited) := by
    intro hlimit
    have hzero : limit - visited.length = 0 := by omega
    refine ⟨?_, fun _ => Or.inr ⟨?_, hlimit⟩⟩
    · rw [hzero]
      rfl
    · omega
  induction fuel generalizing fuel' node visited with
  | zero => exact hover (by omega)
  | succ fuel ih =>
      by_cases hlimit : limit ≤ visited.length
      · rw [search_full hlimit]
        exact hover hlimit
      · cases fuel' with
        | zero => omega
        | succ fuel' =>
            by_cases hmem : p.key node ∈ visited
            · rw [search, preorder, if_pos (Or.inr hmem), if_pos hmem]
              exact ⟨by simp, fun _ => Or.inl ⟨Nat.zero_le _, rfl⟩⟩
            · rw [search, preorder, if_neg (not_or.mpr ⟨hlimit, hmem⟩), if_neg hmem]
              dsimp only
              have hleft : limit - visited.length =
                  limit - (p.key node :: visited).length + 1 := by
                simp only [List.length_cons]
                omega
              cases hanswer : p.answer node with
              | some b =>
                  refine ⟨?_, fun hnone => absurd hnone (by simp)⟩
                  rw [hleft, List.take_succ_cons, List.findSome?_cons_of_isSome (by simp [hanswer]),
                    hanswer]
              | none =>
                  have hbelow := @agrees_gather ν κ β limit p.answer (visited.length + 1)
                    (search p limit fuel) (preorder p.toWalk fuel')
                    (fun n v hv => ih fuel' n v (by omega) (by omega) fun hv' => by
                      have hzero : limit - v.length = 0 := by omega
                      exact ⟨by rw [hzero]; rfl, fun _ => Or.inr ⟨by omega, hv'⟩⟩)
                    (fun n v hv => search_full hv) (preorder_length fuel')
                    (p.children node) (p.key node :: visited) (by simp)
                  refine ⟨?_, fun hnone => ?_⟩
                  · rw [hleft, List.take_succ_cons, List.findSome?_cons_of_isNone (by simp [hanswer])]
                    exact hbelow.answer
                  · refine (hbelow.visited hnone).imp (fun h => ⟨?_, h.2⟩) (fun h => ⟨?_, h.2⟩)
                    · simp only [List.length_cons] at h ⊢
                      omega
                    · simp only [List.length_cons] at h ⊢
                      omega

/-- A limited search answers what the first `limit` nodes of the preorder do. -/
theorem search_eq (node : ν) {fuel : Nat} (hfuel : limit ≤ fuel) :
    (search p limit (limit + 1) node []).1 =
      ((preorder p.toWalk fuel node []).1.take limit).findSome? p.answer := by
  have h := @agrees_search ν κ β _ p limit (limit + 1) fuel node [] (by simp) (by simpa using hfuel)
  simpa using h.answer

/-- It answers `b` exactly when the first node of the preorder that has an answer has
this one, and fewer than `limit` nodes come before it. -/
theorem search_eq_some_iff {node : ν} {fuel : Nat} (hfuel : limit ≤ fuel) {b : β} :
    (search p limit (limit + 1) node []).1 = some b ↔
      ∃ before found after, (preorder p.toWalk fuel node []).1 = before ++ found :: after ∧
        before.length < limit ∧ (∀ n ∈ before, p.answer n = none) ∧ p.answer found = some b := by
  rw [search_eq node hfuel, List.findSome?_eq_some_iff]
  constructor
  · rintro ⟨before, found, after, htake, hfound, hbefore⟩
    have hlen : (before ++ found :: after).length ≤ limit := htake ▸ List.length_take_le _ _
    refine ⟨before, found, after ++ (preorder p.toWalk fuel node []).1.drop limit, ?_, ?_, hbefore, hfound⟩
    · rw [← List.cons_append, ← List.append_assoc, ← htake, List.take_append_drop]
    · simp only [List.length_append, List.length_cons] at hlen
      omega
  · rintro ⟨before, found, after, horder, hlen, hbefore, hfound⟩
    refine ⟨before, found, after.take (limit - before.length - 1), ?_, hfound, hbefore⟩
    rw [horder, List.take_append, List.take_of_length_le (by omega),
      show limit - before.length = limit - before.length - 1 + 1 by omega, List.take_succ_cons]
    rfl

end PhpantomLsp.Lib.BoundedSearch
