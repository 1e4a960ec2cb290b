import Mathlib.Data.List.Induction
import Mathlib.Logic.Function.Basic
import Mathlib.Logic.Relation

/-!
# Union-find with path halving

Each index has a parent that is no greater than it; an index that is its own
parent names its class.  Looking for the name of a class halves the path
walked, which changes no name, and joining two classes keeps the lesser of
their names.  After any number of unions two indices have the same name exactly
when the unions connect them (`top_foldl_union_iff`).
-/

namespace PhpantomLsp.Lib

structure Forest where
  parent : Nat → Nat
  parent_le : ∀ i, parent i ≤ i

namespace Forest

/-- Every index is a class of its own. -/
def singletons : Forest := ⟨id, fun _ => Nat.le_refl _⟩

/-- The index is moved up to its grandparent. -/
def halve (f : Forest) (index : Nat) : Forest where
  parent := Function.update f.parent index (f.parent (f.parent index))
  parent_le i := by
    by_cases hi : i = index
    · rw [hi, Function.update_self]
      exact Nat.le_trans (f.parent_le _) (f.parent_le _)
    · rw [Function.update_of_ne hi]
      exact f.parent_le i

theorem halve_parent_lt {f : Forest} {index : Nat} (h : f.parent index ≠ index) :
    (f.halve index).parent index < index := by
  have hlt := Nat.lt_of_le_of_ne (f.parent_le index) h
  have hle := f.parent_le (f.parent index)
  show Function.update f.parent index (f.parent (f.parent index)) index < index
  rw [Function.update_self]
  omega

/-- The name of a class, and the forest with the path to it halved. -/
def root (f : Forest) (index : Nat) : Forest × Nat :=
  if h : f.parent index = index then (f, index)
  else
    have := halve_parent_lt h
    root (f.halve index) ((f.halve index).parent index)
termination_by index

/-- The class of the greater name takes the lesser. -/
def attach (f : Forest) (a b : Nat) : Forest where
  parent := Function.update f.parent (max a b) (min a b)
  parent_le i := by
    by_cases hi : i = max a b
    · rw [hi, Function.update_self]
      omega
    · rw [Function.update_of_ne hi]
      exact f.parent_le i

def union (f : Forest) (i j : Nat) : Forest :=
  let (f, a) := f.root i
  let (f, b) := f.root j
  f.attach a b

/-- The names of the indices, one after the other. -/
def roots (f : Forest) : List Nat → List Nat
  | [] => []
  | index :: rest =>
      let (f, name) := f.root index
      name :: f.roots rest

/-! ## The name of a class -/

/-- The index a path of parents ends at. -/
def top (f : Forest) (index : Nat) : Nat :=
  if h : f.parent index = index then index
  else
    have := Nat.lt_of_le_of_ne (f.parent_le index) h
    top f (f.parent index)
termination_by index

theorem top_of_parent_eq {f : Forest} {i : Nat} (h : f.parent i = i) : f.top i = i := by
  rw [top, dif_pos h]

@[simp] theorem top_parent (f : Forest) (i : Nat) : f.top (f.parent i) = f.top i := by
  by_cases h : f.parent i = i
  · rw [h]
  · conv => rhs; rw [top]
    rw [dif_neg h]

@[simp] theorem parent_top (f : Forest) (i : Nat) : f.parent (f.top i) = f.top i := by
  fun_induction top f i with
  | case1 i h => exact h
  | case2 i h _ ih => exact ih

@[simp] theorem top_top (f : Forest) (i : Nat) : f.top (f.top i) = f.top i :=
  top_of_parent_eq (f.parent_top i)

/-- A naming that goes along with the parents and keeps the names of the roots
is the one the parents give. -/
theorem top_eq_of_naming {f : Forest} {g : Nat → Nat}
    (hparent : ∀ i, g (f.parent i) = g i) (hroot : ∀ i, f.parent i = i → g i = i)
    (i : Nat) : f.top i = g i := by
  fun_induction top f i with
  | case1 i h => exact (hroot i h).symm
  | case2 i h _ ih => rw [ih, hparent]

@[simp] theorem halve_top (f : Forest) (index i : Nat) : (f.halve index).top i = f.top i := by
  apply top_eq_of_naming
  · intro i
    by_cases hi : i = index
    · show f.top (Function.update f.parent index (f.parent (f.parent index)) i) = f.top i
      rw [hi, Function.update_self, top_parent, top_parent]
    · show f.top (Function.update f.parent index (f.parent (f.parent index)) i) = f.top i
      rw [Function.update_of_ne hi, top_parent]
  · intro i h
    apply top_of_parent_eq
    by_cases hi : i = index
    · by_contra hne
      have hlt := @halve_parent_lt f index (by rw [← hi]; exact hne)
      rw [← hi] at hlt
      rw [← hi] at h
      omega
    · have hsame : (f.halve index).parent i = f.parent i := Function.update_of_ne hi _ _
      rw [← hsame]
      exact h

theorem root_spec (f : Forest) (i : Nat) :
    (f.root i).2 = f.top i ∧ ∀ j, (f.root i).1.top j = f.top j := by
  fun_induction root f i with
  | case1 f i h => exact ⟨(top_of_parent_eq h).symm, fun j => rfl⟩
  | case2 f i h _ ih =>
      constructor
      · rw [ih.1, top_parent, halve_top]
      · intro j
        rw [ih.2, halve_top]

theorem attach_top {f : Forest} {a b : Nat} (ha : f.parent a = a) (hb : f.parent b = b) (i : Nat) :
    (f.attach a b).top i = if f.top i = max a b then min a b else f.top i := by
  have hmax : f.parent (max a b) = max a b := by
    rcases Nat.le_total a b with h | h
    · rw [Nat.max_eq_right h, hb]
    · rw [Nat.max_eq_left h, ha]
  have hmin : f.parent (min a b) = min a b := by
    rcases Nat.le_total a b with h | h
    · rw [Nat.min_eq_left h, ha]
    · rw [Nat.min_eq_right h, hb]
  apply top_eq_of_naming (g := fun i => if f.top i = max a b then min a b else f.top i)
  · intro i
    by_cases hi : i = max a b
    · have hparent : (f.attach a b).parent i = min a b := by
        rw [hi]
        exact Function.update_self _ _ _
      rw [hparent, hi, top_of_parent_eq hmin, top_of_parent_eq hmax, if_pos rfl]
      exact ite_self _
    · have hparent : (f.attach a b).parent i = f.parent i := Function.update_of_ne hi _ _
      simp only [hparent, top_parent]
  · intro i h
    by_cases hi : i = max a b
    · have hparent : (f.attach a b).parent i = min a b := by
        rw [hi]
        exact Function.update_self _ _ _
      rw [hi, top_of_parent_eq hmax, if_pos rfl, ← hi, ← hparent, h]
    · have hparent : (f.attach a b).parent i = f.parent i := Function.update_of_ne hi _ _
      rw [hparent] at h
      rw [top_of_parent_eq h, if_neg hi]

theorem roots_eq (f : Forest) (indices : List Nat) : f.roots indices = indices.map f.top := by
  induction indices generalizing f with
  | nil => rfl
  | cons index rest ih =>
      have hroot := f.root_spec index
      show (f.root index).2 :: (f.root index).1.roots rest = _
      rw [ih, hroot.1, funext hroot.2, List.map_cons]

/-! ## What the unions connect -/

theorem union_top (f : Forest) (i j x : Nat) :
    (f.union i j).top x =
      if f.top x = max (f.top i) (f.top j) then min (f.top i) (f.top j) else f.top x := by
  have hi := f.root_spec i
  have hj := (f.root i).1.root_spec j
  have htop (x : Nat) : ((f.root i).1.root j).1.top x = f.top x := by rw [hj.2, hi.2]
  have hroot (x : Nat) : ((f.root i).1.root j).1.parent (f.top x) = f.top x := by
    rw [← htop, parent_top]
  show (((f.root i).1.root j).1.attach (f.root i).2 ((f.root i).1.root j).2).top x = _
  rw [hj.1, hi.1, hi.2, attach_top (hroot i) (hroot j), htop]

/-- A union joins the two classes and no others. -/
theorem union_top_eq_iff (f : Forest) (i j x y : Nat) :
    (f.union i j).top x = (f.union i j).top y ↔
      f.top x = f.top y ∨ (f.top x = f.top i ∧ f.top y = f.top j) ∨
        (f.top x = f.top j ∧ f.top y = f.top i) := by
  rw [union_top, union_top]
  grind

theorem top_foldl_union_iff (links : List (Nat × Nat)) (x y : Nat) :
    (links.foldl (fun f link => f.union link.1 link.2) singletons).top x =
        (links.foldl (fun f link => f.union link.1 link.2) singletons).top y ↔
      Relation.EqvGen (fun i j => (i, j) ∈ links) x y := by
  induction links using List.reverseRecOn generalizing x y with
  | nil =>
      have htop (i : Nat) : singletons.top i = i := top_of_parent_eq rfl
      simp only [List.foldl_nil, htop]
      constructor
      · intro h
        rw [h]
        exact Relation.EqvGen.refl y
      · intro h
        induction h with
        | rel x y h => exact absurd h List.not_mem_nil
        | refl x => rfl
        | symm x y _ ih => exact ih.symm
        | trans x y z _ _ ih ih' => exact ih.trans ih'
  | append_singleton links link ih =>
      have hmono {x y : Nat} (h : Relation.EqvGen (fun i j => (i, j) ∈ links) x y) :
          Relation.EqvGen (fun i j => (i, j) ∈ links ++ [link]) x y :=
        h.mono fun i j h => List.mem_append_left _ h
      have hlink : Relation.EqvGen (fun i j => (i, j) ∈ links ++ [link]) link.1 link.2 :=
        Relation.EqvGen.rel _ _ (by simp)
      simp only [List.foldl_append, List.foldl_cons, List.foldl_nil]
      rw [union_top_eq_iff, ih, ih, ih, ih, ih]
      constructor
      · intro h
        rcases h with h | ⟨hx, hy⟩ | ⟨hx, hy⟩
        · exact hmono h
        · exact ((hmono hx).trans _ _ _ hlink).trans _ _ _ (hmono hy).symm
        · exact ((hmono hx).trans _ _ _ hlink.symm).trans _ _ _ (hmono hy).symm
      · intro h
        -- the union gives the ends of a link one name, and names are equal or not
        simp only [← ih, ← union_top_eq_iff]
        induction h with
        | rel x y h =>
            rw [union_top_eq_iff]
            rcases List.mem_append.mp h with h | h
            · exact Or.inl ((ih x y).mpr (Relation.EqvGen.rel _ _ h))
            · have h := List.mem_singleton.mp h
              exact Or.inr (Or.inl ⟨by rw [← h], by rw [← h]⟩)
        | refl x => rfl
        | symm x y _ ih => exact ih.symm
        | trans x y z _ _ ih ih' => exact ih.trans ih'

end Forest

end PhpantomLsp.Lib
