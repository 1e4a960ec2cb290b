import PhpantomLsp.Index.NameState

/-!
# Who owns a class name

`latestParses` is the specification: for one name, the class every file's
latest parse declares under it.  `Settled` says what the indexes must hold for
given parses, and every operation keeps it, so the class index, the record of
duplicates and the owner of a declared name are read off the latest parses.
A name that no parse declares may still be owned, by a file that discovery
found.
-/

namespace PhpantomLsp.Index

open PhpantomLsp.Lib

variable {Class : Type}

/-- The class each file's latest parse declares under one name. -/
abbrev Parses (Class : Type) := String → Option Class

/-- What an operation does to the parses of `name`. -/
def Parses.apply (name : String) (parses : Parses Class) : ClassOp Class → Parses Class
  | .declare fqn uri cls =>
      if fold fqn = fold name then Function.update parses uri (some cls) else parses
  | .withdraw fqn uri =>
      if fold fqn = fold name then Function.update parses uri none else parses
  | .withdrawUris uris => fun uri => if uris.contains uri then none else parses uri
  | .noteDiscovered _ _ => parses
  | .mergeScan _ => parses
  | .rescan _ _ => fun _ => none

/-- The latest parses of `name` after a sequence of operations. -/
def latestParses (ops : List (ClassOp Class)) (name : String) : Parses Class :=
  run (Parses.apply name) (fun _ => none) ops

/-- `uri` is the lowest-sorting file that declares the name, with `cls`. -/
def IsLowest (parses : Parses Class) (uri : String) (cls : Class) : Prop :=
  parses uri = some cls ∧ ∀ other, parses other ≠ none → uri ≤ other

/-- What the indexes hold for a name with the given parses: nothing parsed,
one declaration, or a record of several with the lowest one published. -/
inductive Settled : NameState Class → Parses Class → Prop
  | nobody (owner : Option String) (alternates : List String) :
      Settled ⟨owner, none, none, alternates⟩ (fun _ => none)
  | single (owner : String) (cls : Class) (alternates : List String) :
      Settled ⟨some owner, some cls, none, alternates⟩
        (fun uri => if uri = owner then some cls else none)
  | several (decls : Table String Class) (first : String × Class) (alternates : List String)
      (htwo : 2 ≤ decls.size) (hfirst : decls.toList.head? = some first) :
      Settled ⟨some first.1, some first.2, some decls, alternates⟩ (fun uri => decls[uri]?)

namespace Settled

/-- Publishing a record settles the name on what the record holds. -/
theorem publish (decls : Table String Class) (owner : Option String) (parsed : Option Class)
    (alternates : List String) :
    Settled (NameState.publish ⟨owner, parsed, some decls, alternates⟩)
      (fun uri => decls[uri]?) := by
  unfold NameState.publish
  have hlength := Std.ExtTreeMap.length_toList (t := decls)
  have hmem : ∀ (uri : String) (cls : Class),
      decls[uri]? = some cls ↔ (uri, cls) ∈ decls.toList := by
    intro uri cls
    exact (Std.ExtTreeMap.mem_toList_iff_getElem?_eq_some (t := decls)).symm
  cases hlist : decls.toList with
  | nil =>
      simp only [hlist] at hlength hmem
      have hsize : decls.size ≤ 1 := by simp [← hlength]
      have hnone : (fun uri : String => decls[uri]?) = fun _ => (none : Option Class) := by
        funext uri
        cases hget : decls[uri]? with
        | none => rfl
        | some cls => exact absurd ((hmem uri cls).mp hget) List.not_mem_nil
      rw [hnone]
      simp only [hlist, if_pos hsize, List.head?_nil, Option.map_none]
      exact nobody none alternates
  | cons first rest =>
      rw [hlist] at hlength
      by_cases hsize : decls.size ≤ 1
      · have hrest : rest = [] := by
          apply List.length_eq_zero_iff.mp
          simp only [List.length_cons] at hlength
          omega
        rw [hlist, hrest] at hmem
        have hlookup : (fun uri : String => decls[uri]?) =
            fun uri => if uri = first.1 then some first.2 else none := by
          funext uri
          by_cases huri : uri = first.1
          · rw [if_pos huri, hmem, huri]
            exact List.mem_singleton_self first
          · rw [if_neg huri]
            cases hget : decls[uri]? with
            | none => rfl
            | some cls =>
                have hpair := List.mem_singleton.mp ((hmem uri cls).mp hget)
                exact absurd (congrArg Prod.fst hpair) huri
        rw [hlookup]
        simp only [hlist, if_pos hsize, List.head?_cons, Option.map_some]
        exact single first.1 first.2 alternates
      · simp only [hlist, if_neg hsize, List.head?_cons, Option.map_some]
        exact several decls first alternates (by omega) (by rw [hlist]; rfl)

theorem congr_parses {st : NameState Class} {parses parses' : Parses Class}
    (h : Settled st parses) (hsame : ∀ uri, parses uri = parses' uri) : Settled st parses' := by
  rw [← funext hsame]
  exact h

/-- A name is settled whatever its alternates are. -/
theorem with_alternates {st : NameState Class} {parses : Parses Class} (h : Settled st parses)
    (alternates : List String) : Settled { st with alternates := alternates } parses := by
  cases h with
  | nobody owner _ => exact nobody owner alternates
  | single owner cls _ => exact single owner cls alternates
  | several decls first _ htwo hfirst => exact several decls first alternates htwo hfirst

/-- Nothing is published for a name without a parse. -/
theorem of_unparsed {st : NameState Class} (hparsed : st.parsed = none) (hdecls : st.decls = none)
    {parses : Parses Class} (hparses : ∀ uri, parses uri = none) : Settled st parses := by
  obtain ⟨owner, parsed, decls, alternates⟩ := st
  simp only at hparsed hdecls
  rw [hparsed, hdecls, funext hparses]
  exact nobody owner alternates

/-! ## Declaring and withdrawing -/

theorem declare {st : NameState Class} {parses : Parses Class} (h : Settled st parses)
    (uri : String) (cls : Class) :
    Settled (st.declare uri cls) (Function.update parses uri (some cls)) := by
  cases h with
  | nobody owner alternates =>
      apply (single uri cls _).congr_parses
      intro other
      simp [Function.update_apply]
  | single owner displaced alternates =>
      by_cases huri : owner = uri
      · subst huri
        unfold NameState.declare NameState.displacedBy
        simp only [ne_eq, not_true_eq_false, if_false]
        apply (single owner cls _).congr_parses
        intro other
        by_cases hother : other = owner
        · simp [hother]
        · simp [hother]
      · unfold NameState.declare NameState.displacedBy
        simp only [ne_eq, huri, not_false_eq_true, if_true]
        apply (publish ((Std.ExtTreeMap.insert ∅ owner displaced).insert uri cls)
          (some owner) (some displaced) alternates).congr_parses
        intro other
        rw [Table.get_insert, Table.get_insert, Table.get_empty, Function.update_apply]
        simp only [eq_comm]
  | several decls first alternates htwo hfirst =>
      apply (publish (decls.insert uri cls) (some first.1) (some first.2)
        alternates).congr_parses
      intro other
      rw [Table.get_insert, Function.update_apply]
      simp only [eq_comm]

theorem withdraw {st : NameState Class} {parses : Parses Class} (h : Settled st parses)
    (uri : String) : Settled (st.withdraw uri) (Function.update parses uri none) := by
  cases h with
  | nobody owner alternates =>
      apply of_unparsed
      · unfold NameState.withdraw
        dsimp only
        split
        · rfl
        · rfl
      · unfold NameState.withdraw
        dsimp only
        split
        · rfl
        · rfl
      · intro other
        simp [Function.update_apply]
  | single owner cls alternates =>
      unfold NameState.withdraw
      by_cases huri : owner = uri
      · simp only [huri, if_true]
        apply of_unparsed rfl rfl
        intro other
        by_cases hother : other = uri
        · simp [hother]
        · simp [hother]
      · simp only [Option.some.injEq, huri, if_false]
        apply (single owner cls alternates).congr_parses
        intro other
        by_cases hother : other = uri
        · subst hother
          simp [Ne.symm huri]
        · simp [hother]
  | several decls first alternates htwo hfirst =>
      apply (publish (decls.erase uri) (some first.1) (some first.2) alternates).congr_parses
      intro other
      rw [Table.get_erase, Function.update_apply]
      simp only [eq_comm]

/-! ## Discovery -/

theorem noteDiscovered {st : NameState Class} {parses : Parses Class} (h : Settled st parses)
    (uri : String) : Settled (st.noteDiscovered uri) parses := by
  unfold NameState.noteDiscovered
  by_cases hparsed : st.parsed.isSome = true
  · rw [if_pos hparsed]
    split
    · exact h.with_alternates _
    · exact h
  · rw [if_neg hparsed]
    cases h with
    | nobody owner alternates => exact nobody _ _
    | single owner cls alternates => exact absurd rfl hparsed
    | several decls first alternates htwo hfirst => exact absurd rfl hparsed

theorem mergeKeep {st : NameState Class} {parses : Parses Class} (h : Settled st parses)
    (uri : String) : Settled (st.mergeKeep uri) parses := by
  unfold NameState.mergeKeep
  obtain ⟨owner, parsed, decls, alternates⟩ := st
  cases owner with
  | some existing =>
      by_cases hsame : existing = uri
      · simpa [hsame] using h
      · simp only [ne_eq, hsame, not_false_eq_true, if_true]
        exact h.with_alternates _
  | none =>
      cases h with
      | nobody _ _ => exact nobody _ _

theorem mergeAll {st : NameState Class} {parses : Parses Class} (h : Settled st parses)
    (uris : List String) : Settled (uris.foldl (fun st uri => st.mergeKeep uri) st) parses := by
  induction uris generalizing st with
  | nil => exact h
  | cons uri rest ih => exact ih (h.mergeKeep uri)

/-! ## Withdrawing files -/

theorem promote {st : NameState Class} (hparsed : st.parsed = none) (hdecls : st.decls = none)
    {parses : Parses Class} (hparses : ∀ uri, parses uri = none) :
    Settled st.promote parses := by
  unfold NameState.promote
  cases st.alternates.getLast? with
  | none => exact of_unparsed hparsed hdecls hparses
  | some uri =>
      apply of_unparsed
      · exact hparsed
      · exact hdecls
      · exact hparses

/-- The alternates are filtered and a dropped name is promoted, after the
parsed declarations outside `gone` are settled. -/
theorem withdrawUris_of_settled {st : NameState Class} {gone : String → Bool}
    {parses : Parses Class} (h : Settled (st.afterRecord gone) parses)
    (hgone : ∀ uri, gone uri = true → parses uri = none) :
    Settled (st.withdrawUris gone) parses := by
  unfold NameState.withdrawUris NameState.dropped
  generalize st.afterRecord gone = next at h
  cases h with
  | nobody owner alternates =>
      dsimp only
      split
      · exact promote rfl rfl (fun _ => rfl)
      · exact nobody _ _
  | single owner cls alternates =>
      have hkept : gone owner = false := by
        cases hg : gone owner with
        | false => rfl
        | true => exact absurd (hgone owner hg) (by simp)
      simp only [Option.isNone_some, Bool.and_false, Option.any_some, hkept, Bool.false_or]
      exact single owner cls _
  | several decls first alternates htwo hfirst =>
      have hhead : first ∈ decls.toList := List.mem_of_mem_head? hfirst
      have hget : decls[first.1]? = some first.2 :=
        Std.ExtTreeMap.mem_toList_iff_getElem?_eq_some.mp hhead
      have hkept : gone first.1 = false := by
        cases hg : gone first.1 with
        | false => rfl
        | true =>
            have hnone := hgone first.1 hg
            simp only [hget] at hnone
            exact absurd hnone (by simp)
      simp only [Option.isNone_some, Bool.and_false, Option.any_some, hkept, Bool.false_or]
      exact several decls first _ htwo hfirst

theorem withdrawUris {st : NameState Class} {parses : Parses Class} (h : Settled st parses)
    (gone : String → Bool) :
    Settled (st.withdrawUris gone) (fun uri => if gone uri then none else parses uri) := by
  have hgone : ∀ uri, gone uri = true → (if gone uri then none else parses uri) = none := by
    intro uri hg
    rw [if_pos hg]
  cases h with
  | nobody owner alternates =>
      apply withdrawUris_of_settled _ hgone
      apply of_unparsed rfl rfl
      intro uri
      split
      · rfl
      · rfl
  | single owner cls alternates =>
      by_cases hg : gone owner = true
      · -- the only declaration goes, and the name with it
        have hparses : ∀ uri, (if gone uri then none else
            if uri = owner then some cls else none) = (none : Option Class) := by
          intro uri
          by_cases huri : uri = owner
          · simp [huri, hg]
          · simp [huri]
        have hsome : (some owner).any gone = true := hg
        unfold NameState.withdrawUris NameState.dropped NameState.afterRecord NameState.affected
        simp only [Bool.false_eq_true, if_false, Bool.false_and, Bool.false_or, hsome, if_true]
        exact promote rfl rfl hparses
      · apply withdrawUris_of_settled _ hgone
        apply (single owner cls alternates).congr_parses
        intro uri
        by_cases huri : uri = owner
        · simp [huri, hg]
        · simp [huri]
  | several decls first alternates htwo hfirst =>
      apply withdrawUris_of_settled _ hgone
      unfold NameState.afterRecord NameState.affected
      by_cases haffected : decls.keys.any gone = true
      · rw [if_pos haffected]
        apply (publish (decls.filter fun uri _ => !gone uri) (some first.1) (some first.2)
          alternates).congr_parses
        intro uri
        show (decls.filter fun uri _ => !gone uri)[uri]? = if gone uri then none else decls[uri]?
        rw [Std.ExtTreeMap.getElem?_filter']
        cases decls[uri]? with
        | none => simp
        | some cls =>
            by_cases hg : gone uri = true
            · simp [hg, Option.filter]
            · simp [hg, Option.filter]
      · rw [if_neg haffected]
        apply (several decls first alternates htwo hfirst).congr_parses
        intro uri
        by_cases hg : gone uri = true
        · -- no declaring file is in `gone`
          rw [if_pos hg]
          cases hget : decls[uri]? with
          | none => rfl
          | some cls =>
              have hkey : uri ∈ decls.keys := by
                rw [Std.ExtTreeMap.mem_keys, Std.ExtTreeMap.mem_iff_isSome_getElem?, hget]
                rfl
              exact absurd (List.any_eq_true.mpr ⟨uri, hkey, hg⟩) haffected
        · rw [if_neg hg]

/-! ## Runs -/

theorem apply (name : String) (st : NameState Class) (parses : Parses Class) (op : ClassOp Class)
    (h : Settled st parses) : Settled (st.apply name op) (parses.apply name op) := by
  cases op with
  | declare fqn uri cls =>
      unfold NameState.apply Parses.apply
      by_cases hname : fold fqn = fold name
      · simp only [if_pos hname]
        exact h.declare uri cls
      · simp only [if_neg hname]
        exact h
  | withdraw fqn uri =>
      unfold NameState.apply Parses.apply
      by_cases hname : fold fqn = fold name
      · simp only [if_pos hname]
        exact h.withdraw uri
      · simp only [if_neg hname]
        exact h
  | withdrawUris uris => exact h.withdrawUris uris.contains
  | noteDiscovered fqn uri =>
      unfold NameState.apply Parses.apply
      by_cases hname : fold fqn = fold name
      · simp only [if_pos hname]
        exact h.noteDiscovered uri
      · simp only [if_neg hname]
        exact h
  | mergeScan classmap => exact h.mergeAll (urisOf classmap name)
  | rescan inTree classmap => exact of_unparsed rfl rfl (fun _ => rfl)

end Settled

/-! ## What the lookups answer -/

namespace Settled

/-- The first entry of a record is its lowest file. -/
theorem isLowest_head {decls : Table String Class} {first : String × Class}
    (hfirst : decls.toList.head? = some first) :
    IsLowest (fun uri => decls[uri]?) first.1 first.2 := by
  have hmem : ∀ {uri : String} {cls : Class},
      decls[uri]? = some cls ↔ (uri, cls) ∈ decls.toList :=
    (Std.ExtTreeMap.mem_toList_iff_getElem?_eq_some).symm
  constructor
  · exact hmem.mpr (List.mem_of_mem_head? hfirst)
  · intro other hother
    obtain ⟨cls, hcls⟩ := Option.ne_none_iff_exists'.mp hother
    have hsorted := Std.ExtTreeMap.ordered_keys_toList (t := decls)
    have hother' := hmem.mp hcls
    cases hlist : decls.toList with
    | nil =>
        rw [hlist] at hother'
        exact absurd hother' List.not_mem_nil
    | cons entry rest =>
        rw [hlist] at hsorted hother' hfirst
        rw [Option.some.inj hfirst] at hsorted hother'
        rcases List.mem_cons.mp hother' with heq | hrest
        · exact le_of_eq (congrArg Prod.fst heq).symm
        · have hlt := (List.pairwise_cons.mp hsorted).1 (other, cls) hrest
          exact le_of_lt (compare_lt_iff_lt.mp hlt)

theorem lookups_of_undeclared {st : NameState Class} {parses : Parses Class}
    (h : Settled st parses) (hnone : ∀ uri, parses uri = none) :
    st.parsed = none ∧ st.decls = none := by
  cases h with
  | nobody owner alternates => exact ⟨rfl, rfl⟩
  | single owner cls alternates =>
      have hself := hnone owner
      simp at hself
  | several decls first alternates htwo hfirst =>
      have hself := (isLowest_head hfirst).1
      rw [hnone first.1] at hself
      exact absurd hself (by simp)

theorem lookups_of_declared {st : NameState Class} {parses : Parses Class}
    (h : Settled st parses) (hsome : ∃ uri, parses uri ≠ none) :
    ∃ uri cls, IsLowest parses uri cls ∧ st.owner = some uri ∧ st.parsed = some cls := by
  cases h with
  | nobody owner alternates =>
      obtain ⟨uri, huri⟩ := hsome
      exact absurd rfl huri
  | single owner cls alternates =>
      refine ⟨owner, cls, ⟨by simp, ?_⟩, rfl, rfl⟩
      intro other hother
      by_cases heq : other = owner
      · exact le_of_eq heq.symm
      · simp [heq] at hother
  | several decls first alternates htwo hfirst =>
      exact ⟨first.1, first.2, isLowest_head hfirst, rfl, rfl⟩

theorem decls_eq {st : NameState Class} {parses : Parses Class} (h : Settled st parses)
    {decls : Table String Class} (hdecls : st.decls = some decls) (uri : String) :
    decls[uri]? = parses uri := by
  cases h with
  | nobody owner alternates => exact absurd hdecls (by simp)
  | single owner cls alternates => exact absurd hdecls (by simp)
  | several record first alternates htwo hfirst =>
      rw [Option.some.inj hdecls]

/-- A duplicate record stands exactly for a name that two files declare. -/
theorem decls_isSome_iff {st : NameState Class} {parses : Parses Class}
    (h : Settled st parses) :
    st.decls.isSome = true ↔ ∃ a b, a ≠ b ∧ parses a ≠ none ∧ parses b ≠ none := by
  cases h with
  | nobody owner alternates => simp
  | single owner cls alternates =>
      constructor
      · intro hsome
        exact absurd hsome (by simp)
      · rintro ⟨a, b, hne, ha, hb⟩
        have howner : ∀ uri, (if uri = owner then some cls else none) ≠ none → uri = owner := by
          intro uri huri
          by_contra hother
          rw [if_neg hother] at huri
          exact huri rfl
        exact absurd ((howner a ha).trans (howner b hb).symm) hne
  | several decls first alternates htwo hfirst =>
      constructor
      · intro _
        have hlength := Std.ExtTreeMap.length_toList (t := decls)
        have hdistinct := Std.ExtTreeMap.distinct_keys_toList (t := decls)
        have hget : ∀ entry ∈ decls.toList, decls[entry.1]? ≠ none := by
          intro entry hentry
          rw [Std.ExtTreeMap.mem_toList_iff_getElem?_eq_some.mp hentry]
          simp
        match hlist : decls.toList with
        | [] =>
            rw [hlist] at hlength
            simp only [List.length_nil] at hlength
            omega
        | [entry] =>
            rw [hlist] at hlength
            simp only [List.length_cons, List.length_nil] at hlength
            omega
        | a :: b :: rest =>
            rw [hlist] at hdistinct hget
            refine ⟨a.1, b.1, ?_, hget a (by simp), hget b (by simp)⟩
            intro heq
            apply (List.pairwise_cons.mp hdistinct).1 b (by simp)
            rw [heq]
            exact Std.ReflCmp.compare_self
      · intro _
        rfl

theorem isLowest_unique {parses : Parses Class} {uri uri' : String} {cls cls' : Class}
    (h : IsLowest parses uri cls) (h' : IsLowest parses uri' cls') : uri = uri' ∧ cls = cls' := by
  have huri : uri = uri' := by
    apply le_antisymm
    · exact h.2 uri' (by rw [h'.1]; simp)
    · exact h'.2 uri (by rw [h.1]; simp)
  refine ⟨huri, ?_⟩
  have hcls := h.1
  rw [huri, h'.1] at hcls
  exact (Option.some.inj hcls).symm

theorem record_unique {st st' : NameState Class} {parses : Parses Class}
    (h : Settled st parses) (h' : Settled st' parses) : st.decls = st'.decls := by
  have hiff := h.decls_isSome_iff.trans h'.decls_isSome_iff.symm
  cases hdecls : st.decls with
  | none =>
      cases hdecls' : st'.decls with
      | none => rfl
      | some decls' => simp [hdecls, hdecls'] at hiff
  | some decls =>
      cases hdecls' : st'.decls with
      | none => simp [hdecls, hdecls'] at hiff
      | some decls' =>
          congr 1
          apply Std.ExtTreeMap.ext_getElem?
          intro uri
          rw [h.decls_eq hdecls, h'.decls_eq hdecls']

/-- The parses leave no choice of the class and the record, nor of the owner
of a declared name. -/
theorem unique {st st' : NameState Class} {parses : Parses Class} (h : Settled st parses)
    (h' : Settled st' parses) :
    st.parsed = st'.parsed ∧ st.decls = st'.decls ∧
      ((∃ uri, parses uri ≠ none) → st.owner = st'.owner) := by
  have hdeclared : (∃ uri, parses uri ≠ none) →
      st.owner = st'.owner ∧ st.parsed = st'.parsed := by
    intro hsome
    obtain ⟨uri, cls, hlowest, howner, hparsed⟩ := h.lookups_of_declared hsome
    obtain ⟨uri', cls', hlowest', howner', hparsed'⟩ := h'.lookups_of_declared hsome
    have hsame := isLowest_unique hlowest hlowest'
    rw [howner, howner', hparsed, hparsed', hsame.1, hsame.2]
    exact ⟨rfl, rfl⟩
  refine ⟨?_, record_unique h h', fun hsome => (hdeclared hsome).1⟩
  by_cases hsome : ∃ uri, parses uri ≠ none
  · exact (hdeclared hsome).2
  · have hnone : ∀ uri, parses uri = none := by
      intro uri
      by_contra huri
      exact hsome ⟨uri, huri⟩
    rw [(h.lookups_of_undeclared hnone).1, (h'.lookups_of_undeclared hnone).1]

end Settled

namespace ClassDeclarations

theorem settled_after (ops : List (ClassOp Class)) (name : String) :
    Settled (view (after ops) name) (latestParses ops name) := by
  rw [view_after]
  exact run_simulation (Settled.apply name) (Settled.nobody none []) ops

/-- After any run the class index, the owner of a declared name and its
duplicate record are read off the latest parses of the name alone: the owner
is the lowest file that declares it and the class is that file's, a record
stands exactly for a name that two files declare, and it lists them all.  A
name no parse declares has no class and no record. -/
theorem owners_of_latestParses (ops : List (ClassOp Class)) (name : String) :
    ((∀ uri, latestParses ops name uri = none) →
      (after ops).classes.get name = none ∧ (after ops).dupes.get name = none) ∧
    ((∃ uri, latestParses ops name uri ≠ none) →
      ∃ uri cls, IsLowest (latestParses ops name) uri cls ∧
        (after ops).uris.get name = some uri ∧ (after ops).classes.get name = some cls) ∧
    (((after ops).dupes.get name).isSome = true ↔
      ∃ a b, a ≠ b ∧ latestParses ops name a ≠ none ∧ latestParses ops name b ≠ none) ∧
    (∀ decls, (after ops).dupes.get name = some decls →
      ∀ uri : String, decls[uri]? = latestParses ops name uri) ∧
    (∀ ops' : List (ClassOp Class), latestParses ops' name = latestParses ops name →
      (after ops').classes.get name = (after ops).classes.get name ∧
      (after ops').dupes.get name = (after ops).dupes.get name ∧
      ((∃ uri, latestParses ops name uri ≠ none) →
        (after ops').uris.get name = (after ops).uris.get name)) := by
  have h := settled_after ops name
  refine ⟨h.lookups_of_undeclared, h.lookups_of_declared, h.decls_isSome_iff,
    fun decls hdecls => h.decls_eq hdecls, ?_⟩
  intro ops' hsame
  have h' := settled_after ops' name
  rw [hsame] at h'
  exact h'.unique h

/-- Two files may be declared in either order. -/
theorem latestParses_swap (before later : List (ClassOp Class)) (fqn fqn' : String)
    {uri uri' : String} (huri : uri ≠ uri') (cls cls' : Class) (name : String) :
    latestParses (before ++ .declare fqn uri cls :: .declare fqn' uri' cls' :: later) name =
      latestParses (before ++ .declare fqn' uri' cls' :: .declare fqn uri cls :: later) name := by
  unfold latestParses
  rw [run_append, run_append]
  simp only [run_cons]
  congr 1
  unfold Parses.apply
  by_cases hname : fold fqn = fold name
  · by_cases hname' : fold fqn' = fold name
    · simp only [if_pos hname, if_pos hname']
      exact Function.update_comm huri _ _ _
    · simp only [if_pos hname, if_neg hname']
  · simp only [if_neg hname]

/-- A name that no parse declares is owned by a file discovery found, and
which file that is can depend on the order in which two files declared the
name before. -/
theorem owner_without_parse :
    (∀ uri, latestParses [@ClassOp.noteDiscovered Nat "Foo" "a.php"] "Foo" uri = none) ∧
    (after [@ClassOp.noteDiscovered Nat "Foo" "a.php"]).uris.get "Foo" = some "a.php" ∧
    (after [.noteDiscovered "Foo" "a.php", .declare "Foo" "b.php" 2, .declare "Foo" "a.php" 1,
      .withdraw "Foo" "a.php", .withdrawUris ["b.php"]]).uris.get "Foo" = some "a.php" ∧
    (after [.noteDiscovered "Foo" "a.php", .declare "Foo" "a.php" 1, .declare "Foo" "b.php" 2,
      .withdraw "Foo" "a.php", .withdrawUris ["b.php"]]).uris.get "Foo" = none := by
  refine ⟨fun uri => rfl, ?_⟩
  decide +kernel

end ClassDeclarations

end PhpantomLsp.Index
