import Mathlib.Data.List.Basic
import Mathlib.Data.List.Nodup
import Mathlib.Data.List.Pairwise

/-!
# Filtering a list against itself

Two ways of thinning a list out, over an arbitrary element type.

`firstOccurrences` keeps an element unless one kept before it is related to
it; this is the specification of a deduplication.  `retainUnseen` is the same
loop with its state visible, and `bucketRetain` is the loop a hash table runs:
it compares an element only with the kept ones that share its hash.

`retainByMask` drops the positions a mask marks, which is how a pass that
compares every pair of positions reports its answer.
-/

namespace PhpantomLsp.Lib

universe u v

variable {α : Type u}

/-! ## Masks -/

/-- Keep the elements of `items` whose position in `mask` is `true`; a
position the mask does not reach is kept. -/
def retainByMask : List α → List Bool → List α
  | [], _ => []
  | x :: xs, [] => x :: retainByMask xs []
  | x :: xs, keep :: mask =>
      if keep then x :: retainByMask xs mask else retainByMask xs mask

/-- The mask a test of every position gives. -/
def maskOf (items : List α) (keep : Nat → α → Bool) : List Bool :=
  items.mapIdx keep

theorem retainByMask_sublist (items : List α) (mask : List Bool) :
    (retainByMask items mask).Sublist items := by
  induction items generalizing mask with
  | nil => exact List.Sublist.refl _
  | cons x xs ih =>
      cases mask with
      | nil => exact (ih []).cons_cons x
      | cons keep mask =>
          simp only [retainByMask]
          split
          · exact (ih mask).cons_cons x
          · exact (ih mask).cons x

/-! ## Dominated positions

A pass that compares positions pairwise drops each position that another one
dominates.  It may ask only some candidates for each position; what it keeps
does not change as long as no dominating position is left out.
-/

section Dominated

variable (candidates : Nat → α → List Nat) (dominated : Nat → α → Nat → α → Bool)

/-- Keep the positions that no candidate dominates: `dominated i x j y` says
that `x` at `i` is dominated by `y` at `j`. -/
def retainUndominated (items : List α) : List α :=
  retainByMask items
    (maskOf items fun i x =>
      !(candidates i x).any fun j => (items[j]?).any fun y => dominated i x j y)

theorem retainUndominated_sublist (items : List α) :
    (retainUndominated candidates dominated items).Sublist items :=
  retainByMask_sublist items _

theorem maskOf_congr {items : List α} {keep keep' : Nat → α → Bool}
    (h : ∀ i x, items[i]? = some x → keep i x = keep' i x) :
    maskOf items keep = maskOf items keep' := by
  refine List.ext_getElem? (fun i => ?_)
  simp only [maskOf, List.getElem?_mapIdx]
  cases hi : items[i]? with
  | none => rfl
  | some x => simp [h i x hi]

/-- Two lists of candidates that hold the same dominating positions keep the
same elements. -/
theorem retainUndominated_congr {candidates candidates' : Nat → α → List Nat}
    {dominated dominated' : Nat → α → Nat → α → Bool} {items : List α}
    (hdom : ∀ i x j y, items[i]? = some x → items[j]? = some y →
      dominated i x j y = dominated' i x j y)
    (hcand : ∀ i x j y, items[i]? = some x → items[j]? = some y → dominated i x j y = true →
      (j ∈ candidates i x ↔ j ∈ candidates' i x)) :
    retainUndominated candidates dominated items =
      retainUndominated candidates' dominated' items := by
  unfold retainUndominated
  congr 1
  refine maskOf_congr (fun i x hi => ?_)
  congr 1
  rw [Bool.eq_iff_iff]
  simp only [List.any_eq_true, Option.any_eq_true]
  constructor
  · rintro ⟨j, hj, y, hy, hd⟩
    exact ⟨j, (hcand i x j y hi hy hd).mp hj, y, hy, hdom i x j y hi hy ▸ hd⟩
  · rintro ⟨j, hj, y, hy, hd⟩
    have hd' : dominated i x j y = true := (hdom i x j y hi hy).trans hd
    exact ⟨j, (hcand i x j y hi hy hd').mpr hj, y, hy, hd'⟩

end Dominated

/-! ## First occurrences -/

section FirstOccurrences

variable (same : α → α → Bool)

/-- The loop of a deduplication: `kept` are the elements kept so far, and an
element related to one of them is dropped. -/
def retainUnseen (kept : List α) : List α → List α
  | [] => []
  | x :: xs =>
      if kept.any (fun seen => same seen x) then retainUnseen kept xs
      else x :: retainUnseen (kept ++ [x]) xs

/-- Keep every element that no element kept before it is related to. -/
def firstOccurrences (items : List α) : List α := retainUnseen same [] items

theorem retainUnseen_sublist (kept items : List α) :
    (retainUnseen same kept items).Sublist items := by
  induction items generalizing kept with
  | nil => exact List.Sublist.refl _
  | cons x xs ih =>
      simp only [retainUnseen]
      split
      · exact (ih kept).cons x
      · exact (ih _).cons_cons x

theorem firstOccurrences_sublist (items : List α) :
    (firstOccurrences same items).Sublist items :=
  retainUnseen_sublist same [] items

/-- What is kept is unrelated to everything kept before it. -/
theorem retainUnseen_pairwise (kept items : List α) :
    (retainUnseen same kept items).Pairwise (fun a b => same a b = false) ∧
      ∀ seen ∈ kept, ∀ x ∈ retainUnseen same kept items, same seen x = false := by
  induction items generalizing kept with
  | nil => simp [retainUnseen]
  | cons x xs ih =>
      simp only [retainUnseen]
      split
      · exact ih kept
      · rename_i hunseen
        obtain ⟨hpair, hkept⟩ := ih (kept ++ [x])
        have hx : ∀ seen ∈ kept, same seen x = false := by
          simpa using hunseen
        refine ⟨List.pairwise_cons.mpr ⟨?_, hpair⟩, ?_⟩
        · intro y hy
          exact hkept x (by simp) y hy
        · intro seen hseen y hy
          rcases List.mem_cons.mp hy with rfl | hy
          · exact hx seen hseen
          · exact hkept seen (by simp [hseen]) y hy

theorem firstOccurrences_pairwise (items : List α) :
    (firstOccurrences same items).Pairwise (fun a b => same a b = false) :=
  (retainUnseen_pairwise same [] items).1

/-- Every element is kept, or related to an element that was. -/
theorem retainUnseen_covers {same} (hrefl : ∀ a, same a a = true)
    (kept items : List α) {x : α} (hx : x ∈ items) :
    ∃ y, (y ∈ kept ∨ y ∈ retainUnseen same kept items) ∧ same y x = true := by
  induction items generalizing kept with
  | nil => simp at hx
  | cons z zs ih =>
      simp only [retainUnseen]
      by_cases hseen : (kept.any fun seen => same seen z) = true
      · rw [if_pos hseen]
        rcases List.mem_cons.mp hx with rfl | hx
        · obtain ⟨y, hy, hyx⟩ := List.any_eq_true.mp hseen
          exact ⟨y, .inl hy, hyx⟩
        · exact ih kept hx
      · rw [if_neg hseen]
        rcases List.mem_cons.mp hx with rfl | hx
        · exact ⟨x, .inr (by simp), hrefl x⟩
        · obtain ⟨y, hy, hyx⟩ := ih (kept ++ [z]) hx
          refine ⟨y, ?_, hyx⟩
          rcases hy with hy | hy
          · rcases List.mem_append.mp hy with hy | hy
            · exact .inl hy
            · exact .inr (by simp_all)
          · exact .inr (List.mem_cons_of_mem _ hy)

theorem firstOccurrences_covers {same} (hrefl : ∀ a, same a a = true)
    (items : List α) {x : α} (hx : x ∈ items) :
    ∃ y ∈ firstOccurrences same items, same y x = true := by
  obtain ⟨y, hy, hyx⟩ := retainUnseen_covers hrefl [] items hx
  exact ⟨y, by simpa [firstOccurrences] using hy, hyx⟩

/-- A list without related pairs is left as it is. -/
theorem retainUnseen_eq_self {same} {kept items : List α}
    (hkept : ∀ seen ∈ kept, ∀ x ∈ items, same seen x = false)
    (hpair : items.Pairwise (fun a b => same a b = false)) :
    retainUnseen same kept items = items := by
  induction items generalizing kept with
  | nil => rfl
  | cons x xs ih =>
      obtain ⟨hx, hxs⟩ := List.pairwise_cons.mp hpair
      have hunseen : (kept.any fun seen => same seen x) = false := by
        simpa using fun seen hseen => hkept seen hseen x (by simp)
      simp only [retainUnseen, hunseen, Bool.false_eq_true, if_false, List.cons.injEq, true_and]
      refine ih ?_ hxs
      intro seen hseen y hy
      rcases List.mem_append.mp hseen with hseen | hseen
      · exact hkept seen hseen y (by simp [hy])
      · obtain rfl : seen = x := by simpa using hseen
        exact hx y hy

theorem firstOccurrences_eq_self {same} {items : List α}
    (hpair : items.Pairwise (fun a b => same a b = false)) :
    firstOccurrences same items = items :=
  retainUnseen_eq_self (by simp) hpair

/-- Two relations that agree on the elements drop the same of them. -/
theorem firstOccurrences_congr {same same' : α → α → Bool} {items : List α}
    (h : ∀ a ∈ items, ∀ b ∈ items, same a b = same' a b) :
    firstOccurrences same items = firstOccurrences same' items := by
  suffices hloop : ∀ todo kept : List α, (∀ a ∈ kept, a ∈ items) → (∀ a ∈ todo, a ∈ items) →
      retainUnseen same kept todo = retainUnseen same' kept todo from
    hloop items [] (by simp) (fun _ ha => ha)
  intro todo
  induction todo with
  | nil => exact fun _ _ _ => rfl
  | cons x xs ih =>
      intro kept hkept htodo
      have hx : x ∈ items := htodo x (by simp)
      have hxs : ∀ a ∈ xs, a ∈ items := fun a ha => htodo a (List.mem_cons_of_mem _ ha)
      have hseen : (kept.any fun seen => same seen x) = kept.any fun seen => same' seen x := by
        rw [Bool.eq_iff_iff, List.any_eq_true, List.any_eq_true]
        constructor
        · intro hany
          obtain ⟨seen, hmem, hsame⟩ := hany
          exact ⟨seen, hmem, h seen (hkept seen hmem) x hx ▸ hsame⟩
        · intro hany
          obtain ⟨seen, hmem, hsame⟩ := hany
          exact ⟨seen, hmem, (h seen (hkept seen hmem) x hx).symm ▸ hsame⟩
      have hkept' : ∀ a ∈ kept ++ [x], a ∈ items := by
        intro a ha
        rcases List.mem_append.mp ha with ha | ha
        · exact hkept a ha
        · rwa [List.mem_singleton.mp ha]
      simp only [retainUnseen, hseen, ih kept hkept hxs, ih (kept ++ [x]) hkept' hxs]

theorem retainUnseen_append (kept as bs : List α) :
    retainUnseen same kept (as ++ bs) =
      retainUnseen same kept as ++
        retainUnseen same (kept ++ retainUnseen same kept as) bs := by
  induction as generalizing kept with
  | nil => simp [retainUnseen]
  | cons a as ih =>
      simp only [List.cons_append, retainUnseen]
      by_cases h : (kept.any fun seen => same seen a) = true
      · rw [if_pos h, if_pos h, ih]
      · rw [if_neg h, if_neg h, ih]
        simp

/-- Elements that are all seen are all dropped. -/
theorem retainUnseen_eq_nil {same} {kept items : List α}
    (h : ∀ x ∈ items, ∃ seen ∈ kept, same seen x = true) :
    retainUnseen same kept items = [] := by
  induction items with
  | nil => rfl
  | cons x xs ih =>
      have hseen : (kept.any fun seen => same seen x) = true := List.any_eq_true.mpr (h x (by simp))
      rw [retainUnseen, if_pos hseen]
      exact ih fun y hy => h y (List.mem_cons_of_mem _ hy)

/-- Dropping related elements before they are expanded changes nothing, where
related elements expand to the same. -/
theorem firstOccurrences_flatMap {β : Type v} [DecidableEq β] {same : α → α → Bool}
    {expand : α → List β} {items : List α}
    (h : ∀ a ∈ items, ∀ b ∈ items, same a b = true → ∀ y ∈ expand b, y ∈ expand a) :
    firstOccurrences (fun x y => decide (x = y)) ((firstOccurrences same items).flatMap expand) =
      firstOccurrences (fun x y => decide (x = y)) (items.flatMap expand) := by
  suffices hloop : ∀ (todo kept : List α) (seen : List β), (∀ a ∈ kept, a ∈ items) →
      (∀ a ∈ todo, a ∈ items) → (∀ a ∈ kept, ∀ y ∈ expand a, y ∈ seen) →
      retainUnseen (fun x y => decide (x = y)) seen ((retainUnseen same kept todo).flatMap expand) =
        retainUnseen (fun x y => decide (x = y)) seen (todo.flatMap expand) from
    hloop items [] [] (by simp) (fun _ ha => ha) (by simp)
  intro todo
  induction todo with
  | nil => simp [retainUnseen]
  | cons x xs ih =>
      intro kept seen hkept htodo hseen
      have hx := htodo x (by simp)
      have hxs : ∀ a ∈ xs, a ∈ items := fun a ha => htodo a (List.mem_cons_of_mem _ ha)
      rw [retainUnseen, List.flatMap_cons, retainUnseen_append]
      by_cases hrelated : (kept.any fun a => same a x) = true
      · obtain ⟨a, ha, hax⟩ := List.any_eq_true.mp hrelated
        have hnil : retainUnseen (fun x y => decide (x = y)) seen (expand x) = [] := by
          refine retainUnseen_eq_nil fun y hy => ?_
          exact ⟨y, hseen a ha y (h a (hkept a ha) x hx hax y hy), by simp⟩
        rw [if_pos hrelated, hnil, List.append_nil, List.nil_append]
        exact ih kept seen hkept hxs hseen
      · rw [if_neg hrelated, List.flatMap_cons, retainUnseen_append]
        congr 1
        refine ih _ _ ?_ hxs ?_
        · intro a ha
          rcases List.mem_append.mp ha with ha | ha
          · exact hkept a ha
          · rw [List.mem_singleton.mp ha]
            exact hx
        · intro a ha y hy
          rcases List.mem_append.mp ha with ha | ha
          · exact List.mem_append_left _ (hseen a ha y hy)
          · rw [List.mem_singleton.mp ha] at hy
            by_cases hyseen : y ∈ seen
            · exact List.mem_append_left _ hyseen
            · obtain ⟨z, hz, hzy⟩ := @retainUnseen_covers β (fun x y => decide (x = y)) (by simp)
                seen (expand x) y hy
              obtain rfl : z = y := by simpa using hzy
              exact List.mem_append.mpr hz

end FirstOccurrences

/-! ## Hash buckets -/

section Buckets

variable {κ : Type v} [DecidableEq κ] (hash : α → κ) (same : α → α → Bool)

/-- The kept elements filed under a hash, oldest first. -/
def bucket (kept : List α) (k : κ) : List α := kept.filter (fun x => hash x = k)

/-- The loop of `retainUnseen`, comparing an element with its own bucket
only. -/
def bucketRetain (kept : List α) : List α → List α
  | [] => []
  | x :: xs =>
      if (bucket hash kept (hash x)).any (fun seen => same seen x) then
        bucketRetain kept xs
      else x :: bucketRetain (kept ++ [x]) xs

/-- Where related elements share their hash, looking into one bucket is
looking at everything. -/
theorem any_bucket_eq {kept : List α} {x : α}
    (hagree : ∀ seen ∈ kept, same seen x = true → hash seen = hash x) :
    (bucket hash kept (hash x)).any (fun seen => same seen x) =
      kept.any (fun seen => same seen x) := by
  rw [Bool.eq_iff_iff]
  simp only [bucket, List.any_eq_true, List.mem_filter, decide_eq_true_eq]
  constructor
  · rintro ⟨seen, ⟨hmem, -⟩, hsame⟩
    exact ⟨seen, hmem, hsame⟩
  · rintro ⟨seen, hmem, hsame⟩
    exact ⟨seen, ⟨hmem, hagree seen hmem hsame⟩, hsame⟩

/-- A hash that agrees with the relation makes the bucket loop the naive
one. -/
theorem bucketRetain_eq_retainUnseen {kept items : List α}
    (hagree : ∀ a ∈ kept ++ items, ∀ b ∈ items, same a b = true → hash a = hash b) :
    bucketRetain hash same kept items = retainUnseen same kept items := by
  induction items generalizing kept with
  | nil => rfl
  | cons x xs ih =>
      have hx : (bucket hash kept (hash x)).any (fun seen => same seen x) =
          kept.any (fun seen => same seen x) :=
        any_bucket_eq hash same (fun seen hseen => hagree seen (by simp [hseen]) x (by simp))
      simp only [bucketRetain, retainUnseen, hx]
      rw [@ih kept, @ih (kept ++ [x])]
      · intro a ha b hb
        exact hagree a (by simp only [List.mem_append, List.mem_cons] at ha ⊢; grind) b
          (List.mem_cons_of_mem _ hb)
      · intro a ha b hb
        exact hagree a (by simp only [List.mem_append, List.mem_cons] at ha ⊢; grind) b
          (List.mem_cons_of_mem _ hb)

theorem bucketRetain_sublist (kept items : List α) :
    (bucketRetain hash same kept items).Sublist items := by
  induction items generalizing kept with
  | nil => exact List.Sublist.refl _
  | cons x xs ih =>
      simp only [bucketRetain]
      split
      · exact (ih kept).cons x
      · exact (ih _).cons_cons x

/-- A list without related elements of one hash is left as it is. -/
theorem bucketRetain_eq_self {kept items : List α}
    (hkept : ∀ seen ∈ kept, ∀ x ∈ items, hash seen = hash x → same seen x = false)
    (hpair : items.Pairwise fun a b => hash a = hash b → same a b = false) :
    bucketRetain hash same kept items = items := by
  induction items generalizing kept with
  | nil => rfl
  | cons x xs ih =>
      obtain ⟨hx, hxs⟩ := List.pairwise_cons.mp hpair
      have hunseen : ((bucket hash kept (hash x)).any fun seen => same seen x) = false := by
        rw [List.any_eq_false]
        intro seen hseen
        simp only [bucket, List.mem_filter, decide_eq_true_eq] at hseen
        simp [hkept seen hseen.1 x (by simp) hseen.2]
      rw [bucketRetain, hunseen, if_neg (by simp), ih ?_ hxs]
      intro seen hseen y hy
      rcases List.mem_append.mp hseen with hseen | hseen
      · exact hkept seen hseen y (List.mem_cons_of_mem _ hy)
      · rw [List.mem_singleton.mp hseen]
        exact hx y hy

/-- Two kept elements of one hash are never related. -/
theorem bucketRetain_pairwise (kept items : List α) :
    (bucketRetain hash same kept items).Pairwise
        (fun a b => hash a = hash b → same a b = false) ∧
      ∀ seen ∈ kept, ∀ x ∈ bucketRetain hash same kept items,
        hash seen = hash x → same seen x = false := by
  induction items generalizing kept with
  | nil => simp [bucketRetain]
  | cons x xs ih =>
      simp only [bucketRetain]
      split
      · exact ih kept
      · rename_i hunseen
        obtain ⟨hpair, hkept⟩ := ih (kept ++ [x])
        have hx : ∀ seen ∈ kept, hash seen = hash x → same seen x = false := by
          simpa [bucket] using hunseen
        refine ⟨List.pairwise_cons.mpr ⟨?_, hpair⟩, ?_⟩
        · intro y hy
          exact hkept x (by simp) y hy
        · intro seen hseen y hy
          rcases List.mem_cons.mp hy with rfl | hy
          · exact hx seen hseen
          · exact hkept seen (by simp [hseen]) y hy

/-- Every element is kept, or related to a kept element of its own hash. -/
theorem bucketRetain_covers (hrefl : ∀ a, same a a = true) (kept items : List α) {x : α}
    (hx : x ∈ items) :
    ∃ y, (y ∈ kept ∨ y ∈ bucketRetain hash same kept items) ∧ hash y = hash x ∧
      same y x = true := by
  induction items generalizing kept with
  | nil => simp at hx
  | cons z zs ih =>
      simp only [bucketRetain]
      by_cases hseen : ((bucket hash kept (hash z)).any fun seen => same seen z) = true
      · rw [if_pos hseen]
        rcases List.mem_cons.mp hx with rfl | hx
        · obtain ⟨y, hy, hyx⟩ := List.any_eq_true.mp hseen
          simp only [bucket, List.mem_filter, decide_eq_true_eq] at hy
          exact ⟨y, .inl hy.1, hy.2, hyx⟩
        · exact ih kept hx
      · rw [if_neg hseen]
        rcases List.mem_cons.mp hx with rfl | hx
        · exact ⟨x, .inr (by simp), rfl, hrefl x⟩
        · obtain ⟨y, hy, hyx⟩ := ih (kept ++ [z]) hx
          refine ⟨y, ?_, hyx⟩
          rcases hy with hy | hy
          · rcases List.mem_append.mp hy with hy | hy
            · exact .inl hy
            · exact .inr (by simp_all)
          · exact .inr (List.mem_cons_of_mem _ hy)

/-- Where the bucket loop keeps only unrelated elements, related elements
have one hash. -/
theorem hash_eq_of_bucketRetain_pairwise (hrefl : ∀ a, same a a = true)
    (hsymm : ∀ a b, same a b = true → same b a = true)
    (htrans : ∀ a b c, same a b = true → same b c = true → same a c = true) {items : List α}
    (hpair : (bucketRetain hash same [] items).Pairwise (fun a b => same a b = false))
    {a b : α} (ha : a ∈ items) (hb : b ∈ items) (hab : same a b = true) : hash a = hash b := by
  obtain ⟨a', ha', hhash, hsame⟩ := bucketRetain_covers hash same hrefl [] items ha
  obtain ⟨b', hb', hhash', hsame'⟩ := bucketRetain_covers hash same hrefl [] items hb
  simp only [List.not_mem_nil, false_or] at ha' hb'
  have hrel : same a' b' = true := htrans _ _ _ hsame (htrans _ _ _ hab (hsymm _ _ hsame'))
  by_cases heq : a' = b'
  · rw [← hhash, heq, hhash']
  · have : Std.Symm (fun x y => same x y = false) := by
      refine ⟨fun x y hxy => ?_⟩
      by_contra hyx
      simp [hsymm y x (by simpa using hyx)] at hxy
    have hunrelated := hpair.forall ha' hb' heq
    simp [hrel] at hunrelated

end Buckets

end PhpantomLsp.Lib
