import PhpantomLsp.Inheritance.Generics
import PhpantomLsp.PhpType.SubstituteMentions

/-!
# Template names that leak

Whether the substitution a class is given mentions one of the class's own template
parameters.  A default is read through the parameters bound so far, so it is resolved
when it names no other; one that names a parameter bound later leaves its name behind.
-/

namespace PhpantomLsp.Inheritance

open Text PhpType

/-! ## Substitutions as maps -/

section Maps

variable {subs : Substitution} {name param : Atom} {t : PhpType}

@[simp] theorem get_insert :
    (subs.insert param t).get name = if name = param then some t else subs.get name := by
  simp only [Substitution.insert, Substitution.get, List.lookup_cons]
  by_cases h : name = param
  · simp [h]
  · rw [if_neg h, beq_eq_false_iff_ne.mpr h]

@[simp] theorem containsKey_insert :
    (subs.insert param t).containsKey name = (decide (name = param) || subs.containsKey name) := by
  simp only [Substitution.containsKey, get_insert]
  by_cases h : name = param <;> simp [h]

end Maps

/-! ## The property and the condition -/

variable (cls : ClassInfo)

def isParam (name : Atom) : Bool := name ∈ cls.templateParams

/-- A type that mentions none of the class's template parameters. -/
def Closed (t : PhpType) : Prop := Avoids (isParam cls) (isParam cls) t

/-- Every parameter is bound, to a type that mentions none of them. -/
def NoLeak (subs : Substitution) : Prop :=
  ∀ param ∈ cls.templateParams, ∃ t, subs.get param = some t ∧ Closed cls t

/-- The default of a parameter mentions no parameter but the bound ones. -/
def Explained (bound : List Atom) (param : Atom) : Prop :=
  Avoids (fun name => isParam cls name && !(name ∈ bound)) (isParam cls) (defaultTypeArg cls param)

/-- Every parameter `fill_template_bounds` comes to is explained by those bound before
it. -/
def FillResolves : List Atom → List Atom → Prop
  | _, [] => True
  | bound, param :: rest =>
      if param ∈ bound then FillResolves bound rest
      else Explained cls bound param ∧ FillResolves (param :: bound) rest

/-- The parameters that receive an argument. -/
def explicitParams (offset : Nat) (args : List PhpType) : List Atom :=
  cls.templateParams.zipIdx.filterMap fun (param, index) =>
    if (argAt offset index args).isSome then some param else none

/-- Every omitted parameter is explained by the explicit ones. -/
def FallbacksResolve (offset : Nat) (args : List PhpType) (falls : Nat → Atom → Bool) : Prop :=
  ∀ param ∈ omittedParams cls.templateParams offset args falls,
    Explained cls (explicitParams cls offset args) param

/-- What resolves a written type's arguments. -/
def BuildResolves (args : List PhpType) : Prop :=
  if args.isEmpty then FillResolves cls [] cls.templateParams
  else FallbacksResolve cls (genericArgOffset cls args.length) args fun _ _ => true

/-- What resolves a clause's arguments. -/
def BindResolves (args : List PhpType) : Prop :=
  let offset := genericArgOffset cls args.length
  FallbacksResolve cls offset args (fallsBack cls offset) ∧
    FillResolves cls
      (omittedParams cls.templateParams offset args (fallsBack cls offset) ++
        explicitParams cls offset args) cls.templateParams

/-- An omitted parameter whose default keeps the name of a parameter that receives no
argument. -/
def FallbackLeaks (offset : Nat) (args : List PhpType) (falls : Nat → Atom → Bool) : Prop :=
  ∃ param ∈ omittedParams cls.templateParams offset args falls,
    keeps (fun name => isParam cls name && !(name ∈ explicitParams cls offset args))
      (fun name => name ∈ explicitParams cls offset args) (defaultTypeArg cls param) = true

instance (t : PhpType) : Decidable (Closed cls t) := inferInstanceAs (Decidable (Avoids _ _ t))

instance (bound : List Atom) (param : Atom) : Decidable (Explained cls bound param) :=
  inferInstanceAs (Decidable (Avoids _ _ _))

instance (offset : Nat) (args : List PhpType) (falls : Nat → Atom → Bool) :
    Decidable (FallbacksResolve cls offset args falls) :=
  inferInstanceAs (Decidable (∀ param ∈ omittedParams _ _ _ _, _))

/-- No chain of defaults and bounds leads from a parameter back to it. -/
def AcyclicDefaults : Prop :=
  ∃ rank : Atom → Nat, ∀ param ∈ cls.templateParams,
    ∀ t ∈ (cls.templateParamDefaults.lookup param).toList ++
        (cls.templateParamBounds.lookup param).toList,
      Avoids (fun name => isParam cls name && rank param ≤ rank name) (fun _ => false) t

/-! ## Sufficiency -/

/-- What a substitution under construction is known to be: its values are closed, and it
binds exactly these names. -/
structure Binds (subs : Substitution) (bound : List Atom) : Prop where
  closed : ∀ name t, subs.get name = some t → Closed cls t
  keys : ∀ name, subs.containsKey name = decide (name ∈ bound)

variable {cls}

theorem Explained.congr {bound bound' : List Atom} {param : Atom}
    (h : ∀ name, name ∈ bound ↔ name ∈ bound') (hp : Explained cls bound param) :
    Explained cls bound' param := by
  simpa only [Explained, h] using hp

theorem fillResolves_congr {bound bound' : List Atom} (h : ∀ name, name ∈ bound ↔ name ∈ bound')
    {params : List Atom} (hp : FillResolves cls bound params) : FillResolves cls bound' params := by
  induction params generalizing bound bound' with
  | nil => trivial
  | cons param rest ih =>
      unfold FillResolves at hp ⊢
      by_cases hmem : param ∈ bound
      · rw [if_pos hmem] at hp
        rw [if_pos ((h param).mp hmem)]
        exact ih h hp
      · rw [if_neg hmem] at hp
        rw [if_neg (mt (h param).mpr hmem)]
        refine ⟨hp.1.congr h, ih (fun name => ?_) hp.2⟩
        rw [List.mem_cons, List.mem_cons, h name]

/-- Nothing is left to fill where every parameter is bound. -/
theorem fillResolves_of_mem {bound params : List Atom} (h : ∀ param ∈ params, param ∈ bound) :
    FillResolves cls bound params := by
  induction params with
  | nil => trivial
  | cons param rest ih =>
      unfold FillResolves
      rw [if_pos (h param (by simp))]
      exact ih fun q hq => h q (List.mem_cons_of_mem _ hq)

namespace Binds

variable {subs : Substitution} {bound : List Atom} {param : Atom} {t : PhpType}

theorem congr {bound' : List Atom} (h : Binds cls subs bound)
    (hbound : ∀ name, name ∈ bound ↔ name ∈ bound') : Binds cls subs bound' where
  closed := h.closed
  keys name := by rw [h.keys name, decide_eq_decide.mpr (hbound name)]

theorem empty : Binds cls [] [] where
  closed := by simp [Substitution.get]
  keys := by simp [Substitution.containsKey, Substitution.get]

theorem insert (h : Binds cls subs bound) (ht : Closed cls t) :
    Binds cls (subs.insert param t) (param :: bound) where
  closed name u hu := by
    rw [get_insert] at hu
    split at hu
    · exact Option.some.inj hu ▸ ht
    · exact h.closed name u hu
  keys name := by
    rw [containsKey_insert, h.keys name]
    by_cases hname : name = param <;> simp [hname]

variable [DedupHasher]

/-- An explained default is resolved. -/
theorem substitute (h : Binds cls subs bound) (hp : Unreserved (isParam cls))
    (hparam : Explained cls bound param) :
    Closed cls ((defaultTypeArg cls param).substitute subs) := by
  refine avoids_substitute hp h.closed ?_
  have hunbound : unbound (isParam cls) subs =
      fun name => isParam cls name && !(name ∈ bound) := by
    funext name
    rw [unbound, h.keys name]
  rw [hunbound]
  exact hparam

/-- The fallbacks are all read through the same substitution, so each of them is
explained by what was bound before the first. -/
theorem insertFallbacks (hp : Unreserved (isParam cls)) {omitted : List Atom}
    (h : Binds cls subs bound) (hexplained : ∀ param ∈ omitted, Explained cls bound param) :
    Binds cls (insertFallbacks cls omitted subs) (omitted.reverse ++ bound) := by
  have hloop : ∀ (todo done : List Atom) (acc : Substitution), (∀ param ∈ todo, param ∈ omitted) →
      Binds cls acc done → Binds cls (todo.foldl
        (fun bound param => bound.insert param ((defaultTypeArg cls param).substitute subs)) acc)
        (todo.reverse ++ done) := by
    intro todo
    induction todo with
    | nil => exact fun done acc _ hacc => hacc
    | cons param rest ih =>
        intro done acc htodo hacc
        have hclosed := h.substitute hp (hexplained param (htodo param (by simp)))
        have := ih (param :: done) _ (fun q hq => htodo q (List.mem_cons_of_mem _ hq))
          (hacc.insert hclosed)
        simpa using this
  exact hloop omitted bound subs (fun _ h => h) h

/-- What `fill_template_bounds` leaves is closed, and binds every parameter. -/
theorem fill (hp : Unreserved (isParam cls)) {params : List Atom} (h : Binds cls subs bound)
    (hresolves : FillResolves cls bound params) :
    ∃ after, Binds cls (params.foldl (fillTemplateBound cls) subs) after ∧
      (∀ name ∈ bound, name ∈ after) ∧ ∀ name ∈ params, name ∈ after := by
  induction params generalizing subs bound with
  | nil => exact ⟨bound, h, fun _ hn => hn, by simp⟩
  | cons param rest ih =>
      rw [List.foldl_cons, fillTemplateBound, h.keys param]
      unfold FillResolves at hresolves
      by_cases hmem : param ∈ bound
      · rw [if_pos hmem] at hresolves
        rw [if_pos (by simpa using hmem)]
        obtain ⟨after, hafter, hkeep, hrest⟩ := ih h hresolves
        refine ⟨after, hafter, hkeep, fun name hname => ?_⟩
        obtain rfl | hname := List.mem_cons.mp hname
        · exact hkeep _ hmem
        · exact hrest name hname
      · rw [if_neg hmem] at hresolves
        rw [if_neg (by simpa using hmem)]
        obtain ⟨after, hafter, hkeep, hrest⟩ :=
          ih (h.insert (h.substitute hp hresolves.1)) hresolves.2
        refine ⟨after, hafter, fun name hname => hkeep name (List.mem_cons_of_mem _ hname),
          fun name hname => ?_⟩
        obtain rfl | hname := List.mem_cons.mp hname
        · exact hkeep _ (by simp)
        · exact hrest name hname

theorem noLeak_fill (hp : Unreserved (isParam cls)) (h : Binds cls subs bound)
    (hresolves : FillResolves cls bound cls.templateParams) :
    NoLeak cls (fillTemplateBounds cls subs) := by
  obtain ⟨after, hafter, -, hall⟩ := h.fill hp hresolves
  intro param hparam
  have hkey := hafter.keys param
  rw [decide_eq_true (hall param hparam), Substitution.containsKey, Option.isSome_iff_exists]
    at hkey
  obtain ⟨t, ht⟩ := hkey
  exact ⟨t, ht, hafter.closed param t ht⟩

end Binds

theorem mem_zipIdx_argAt {offset : Nat} {args : List PhpType} {index : Nat} {arg : PhpType}
    (h : argAt offset index args = some arg) : arg ∈ args := by
  obtain ⟨i, -, hi⟩ := Option.bind_eq_some_iff.mp h
  exact List.mem_of_getElem? hi

theorem binds_foldl_explicit {offset : Nat} {args : List PhpType}
    (hargs : ∀ arg ∈ args, Closed cls arg) {todo : List (Atom × Nat)} {done : List Atom}
    {acc : Substitution} (hacc : Binds cls acc done) :
    Binds cls (todo.foldl (fun subs (param, index) =>
        match argAt offset index args with
        | some arg => subs.insert param arg
        | none => subs) acc)
      ((todo.filterMap fun (param, index) =>
        if (argAt offset index args).isSome then some param else none).reverse ++ done) := by
  induction todo generalizing done acc with
  | nil => exact hacc
  | cons pair rest ih =>
      obtain ⟨param, index⟩ := pair
      rw [List.foldl_cons, List.filterMap_cons]
      dsimp only
      cases harg : argAt offset index args with
      | none => simpa using ih hacc
      | some arg => simpa using ih (hacc.insert (hargs arg (mem_zipIdx_argAt harg)))

/-- The explicit parameters are bound to the arguments. -/
theorem binds_explicitSubs {offset : Nat} {args : List PhpType}
    (hargs : ∀ arg ∈ args, Closed cls arg) :
    Binds cls (explicitSubs cls.templateParams offset args) (explicitParams cls offset args) :=
  (binds_foldl_explicit hargs Binds.empty).congr (by simp [explicitParams])

/-- Each parameter receives an argument or is omitted. -/
theorem mem_explicit_or_omitted {offset : Nat} {args : List PhpType} {param : Atom}
    (h : param ∈ cls.templateParams) :
    param ∈ omittedParams cls.templateParams offset args (fun _ _ => true) ∨
      param ∈ explicitParams cls offset args := by
  obtain ⟨index, hget⟩ := List.getElem?_of_mem h
  have hindex : (param, index) ∈ cls.templateParams.zipIdx :=
    List.mk_mem_zipIdx_iff_getElem?.mpr hget
  cases harg : argAt offset index args with
  | none => exact Or.inl (List.mem_filterMap.mpr ⟨(param, index), hindex, by simp [harg]⟩)
  | some arg => exact Or.inr (List.mem_filterMap.mpr ⟨(param, index), hindex, by simp [harg]⟩)

section

variable [DedupHasher]

theorem noLeak_build (hp : Unreserved (isParam cls)) {args : List PhpType}
    (hargs : ∀ arg ∈ args, Closed cls arg) (h : BuildResolves cls args) :
    NoLeak cls (fillTemplateBounds cls (buildGenericSubs cls args)) := by
  unfold BuildResolves at h
  unfold buildGenericSubs
  by_cases hparams : cls.templateParams.isEmpty
  · rw [List.isEmpty_iff] at hparams
    intro param hparam
    rw [hparams] at hparam
    cases hparam
  by_cases hempty : args.isEmpty
  · rw [if_pos hempty] at h
    rw [if_pos (by simp [hempty])]
    exact Binds.empty.noLeak_fill hp h
  · rw [if_neg hempty] at h
    rw [if_neg (by simp [hempty, hparams])]
    refine ((binds_explicitSubs hargs).insertFallbacks hp h).noLeak_fill hp
      (fillResolves_of_mem fun param hparam => ?_)
    simpa using mem_explicit_or_omitted hparam

omit [DedupHasher] in
theorem argAt_map {f : PhpType → PhpType} {offset index : Nat} {args : List PhpType} :
    argAt offset index (args.map f) = (argAt offset index args).map f := by
  unfold argAt
  cases argIndex offset index <;> simp

omit [DedupHasher] in
theorem explicitParams_map {f : PhpType → PhpType} {offset : Nat} {args : List PhpType} :
    explicitParams cls offset (args.map f) = explicitParams cls offset args := by
  simp only [explicitParams, argAt_map, Option.isSome_map]

omit [DedupHasher] in
theorem omittedParams_map {f : PhpType → PhpType} {params : List Atom} {offset : Nat}
    {args : List PhpType} {falls : Nat → Atom → Bool} :
    omittedParams params offset (args.map f) falls = omittedParams params offset args falls := by
  simp only [omittedParams, argAt_map, Option.isNone_map]

/-- What `bind_template_args` answers for the entry it finds. -/
theorem bindTemplateArgs_eq {generics : List (Atom × List PhpType)} {active subs : Substitution}
    {args : List PhpType} (hentry : genericsEntry cls.fqn generics = some args)
    (hsubs : bindTemplateArgs cls generics active = some subs) :
    subs = insertFallbacks cls
      (omittedParams cls.templateParams (genericArgOffset cls args.length) args
        (fallsBack cls (genericArgOffset cls args.length)))
      (explicitSubs cls.templateParams (genericArgOffset cls args.length)
        (args.map (substitute active))) := by
  unfold bindTemplateArgs at hsubs
  split at hsubs
  · cases hsubs
  · rw [hentry, Option.map_some, Option.some.injEq] at hsubs
    rw [← hsubs]
    dsimp only
    rw [omittedParams_map]

/-- An argument read through a substitution of closed types is closed. -/
theorem closed_map_substitute (hp : Unreserved (isParam cls)) {active : Substitution}
    (hactive : ∀ name t, active.get name = some t → Closed cls t) {args : List PhpType}
    (hargs : ∀ arg ∈ args, Closed cls arg) :
    ∀ arg ∈ args.map (substitute active), Closed cls arg := by
  intro arg harg
  obtain ⟨arg, hmem, rfl⟩ := List.mem_map.mp harg
  have hunbound : ∀ name, unbound (isParam cls) active name = true → isParam cls name = true :=
    fun name hname => (Bool.and_eq_true_iff.mp hname).1
  exact avoids_substitute hp hactive (Avoids.mono hunbound (hargs arg hmem))

/-- The parameters an entry of a clause binds explicitly. -/
theorem binds_resolved (hp : Unreserved (isParam cls)) {active : Substitution}
    (hactive : ∀ name t, active.get name = some t → Closed cls t) {args : List PhpType}
    (hargs : ∀ arg ∈ args, Closed cls arg) {offset : Nat} :
    Binds cls (explicitSubs cls.templateParams offset (args.map (substitute active)))
      (explicitParams cls offset args) := by
  have hbinds := @binds_explicitSubs cls offset _ (closed_map_substitute hp hactive hargs)
  rwa [explicitParams_map] at hbinds

theorem noLeak_bind (hp : Unreserved (isParam cls)) {generics : List (Atom × List PhpType)}
    {active subs : Substitution} {args : List PhpType}
    (hargs : ∀ arg ∈ args, Closed cls arg)
    (hactive : ∀ name t, active.get name = some t → Closed cls t)
    (hentry : genericsEntry cls.fqn generics = some args)
    (hsubs : bindTemplateArgs cls generics active = some subs) (h : BindResolves cls args) :
    NoLeak cls (fillTemplateBounds cls subs) := by
  rw [bindTemplateArgs_eq hentry hsubs]
  exact ((binds_resolved hp hactive hargs).insertFallbacks hp h.1).noLeak_fill hp
    (fillResolves_congr (by simp) h.2)

/-! ## Necessity -/

theorem get_fill {source : ClassInfo} {params : List Atom} {subs : Substitution} {name : Atom}
    {t : PhpType} (h : subs.get name = some t) :
    (params.foldl (fillTemplateBound source) subs).get name = some t := by
  induction params generalizing subs with
  | nil => exact h
  | cons param rest ih =>
      rw [List.foldl_cons]
      refine ih ?_
      unfold fillTemplateBound
      split
      · exact h
      · rename_i hkey
        have hne : name ≠ param := by
          rintro rfl
          simp [Substitution.containsKey, h] at hkey
        rw [get_insert, if_neg hne, h]

/-- The fallback of a parameter is what it is bound to. -/
theorem get_insertFallbacks {omitted : List Atom} {subs : Substitution} {param : Atom}
    (h : param ∈ omitted) :
    (insertFallbacks cls omitted subs).get param =
      some ((defaultTypeArg cls param).substitute subs) := by
  have hloop : ∀ (todo : List Atom) (acc : Substitution),
      (param ∈ todo ∨ acc.get param = some ((defaultTypeArg cls param).substitute subs)) →
      (todo.foldl
        (fun bound param => bound.insert param ((defaultTypeArg cls param).substitute subs))
        acc).get param = some ((defaultTypeArg cls param).substitute subs) := by
    intro todo
    induction todo with
    | nil => exact fun acc hacc => hacc.resolve_left (by simp)
    | cons q rest ih =>
        intro acc hacc
        rw [List.foldl_cons]
        refine ih _ ?_
        rw [get_insert]
        by_cases hq : param = q
        · rw [if_pos hq, hq]
          exact Or.inr rfl
        · rw [if_neg hq]
          exact hacc.imp_left fun hmem => (List.mem_cons.mp hmem).resolve_left hq
  exact hloop omitted subs (Or.inl h)

omit [DedupHasher] in
theorem genericArgOffset_lt {numArgs : Nat} (hparams : cls.templateParams ≠ [])
    (hargs : 0 < numArgs) : genericArgOffset cls numArgs < cls.templateParams.length := by
  have hpos := List.length_pos_of_ne_nil hparams
  unfold genericArgOffset rightAlignOffset
  split_ifs with hcore
  · exact hcore.2.1
  · exact hpos
  · dsimp only
    split_ifs <;> omega

omit [DedupHasher] in
/-- The parameter at the offset receives the first argument. -/
theorem explicitParams_ne_nil {args : List PhpType} (hparams : cls.templateParams ≠ [])
    (hargs : args ≠ []) : explicitParams cls (genericArgOffset cls args.length) args ≠ [] := by
  have hlen := List.length_pos_of_ne_nil hargs
  have hlt := genericArgOffset_lt hparams hlen
  refine List.ne_nil_of_mem (a := cls.templateParams[genericArgOffset cls args.length])
    (List.mem_filterMap.mpr ⟨(_, genericArgOffset cls args.length),
      List.mk_mem_zipIdx_iff_getElem?.mpr (List.getElem?_eq_getElem hlt), ?_⟩)
  have hfirst : (argAt (genericArgOffset cls args.length) (genericArgOffset cls args.length)
      args).isSome := by
    simpa [argAt, argIndex] using hlen
  simp [hfirst]

/-- A fallback that keeps the name of an omitted parameter leaks it. -/
theorem leak_of_fallbackLeaks {offset : Nat} {args : List PhpType} {falls : Nat → Atom → Bool}
    {subs : Substitution} (hbinds : Binds cls subs (explicitParams cls offset args))
    (hne : explicitParams cls offset args ≠ []) (h : FallbackLeaks cls offset args falls) :
    ¬ NoLeak cls (fillTemplateBounds cls
      (insertFallbacks cls (omittedParams cls.templateParams offset args falls) subs)) := by
  obtain ⟨param, hparam, hkeeps⟩ := h
  intro hclosed
  have hmem : param ∈ cls.templateParams := by
    obtain ⟨⟨q, index⟩, hpair, hq⟩ := List.mem_filterMap.mp hparam
    dsimp only at hq
    split_ifs at hq
    obtain rfl := Option.some.inj hq
    exact List.fst_mem_of_mem_zipIdx hpair
  obtain ⟨t, ht, havoids⟩ := hclosed param hmem
  rw [fillTemplateBounds, get_fill (get_insertFallbacks hparam)] at ht
  obtain rfl := Option.some.inj ht
  have hbound : subs.containsKey = fun name => decide (name ∈ explicitParams cls offset args) :=
    funext hbinds.keys
  have hsubs : subs ≠ [] := by
    rintro rfl
    obtain ⟨name, hname⟩ := List.exists_mem_of_ne_nil _ hne
    have := hbinds.keys name
    simp [hname, Substitution.containsKey, Substitution.get] at this
  have hmentions := @mentions_substitute (isParam cls) _
    (fun name => isParam cls name && !(name ∈ explicitParams cls offset args)) subs
    (fun name hname => by
      simp only [Bool.and_eq_true, Bool.not_eq_true', decide_eq_false_iff_not] at hname
      exact ⟨hname.1, by rw [hbinds.keys]; simpa using hname.2⟩)
    (defaultTypeArg cls param) (by rw [hbound]; exact hkeeps) hsubs
  rw [Closed, Avoids, hmentions] at havoids
  exact Bool.false_ne_true havoids.symm

end

/-! ## When no template name leaks -/

/-- No template name leaks where every omitted parameter's default mentions bound
parameters only, and one does where it keeps the name of another omitted one. -/
theorem noLeak_of_resolves [DedupHasher] (hp : Unreserved (isParam cls)) :
    (∀ args : List PhpType, (∀ arg ∈ args, Closed cls arg) →
      (BuildResolves cls args → NoLeak cls (fillTemplateBounds cls (buildGenericSubs cls args))) ∧
      (args ≠ [] → FallbackLeaks cls (genericArgOffset cls args.length) args (fun _ _ => true) →
        ¬ NoLeak cls (fillTemplateBounds cls (buildGenericSubs cls args)))) ∧
    ∀ (generics : List (Atom × List PhpType)) (active subs : Substitution) (args : List PhpType),
      (∀ arg ∈ args, Closed cls arg) → (∀ name t, active.get name = some t → Closed cls t) →
      genericsEntry cls.fqn generics = some args →
      bindTemplateArgs cls generics active = some subs →
      (BindResolves cls args → NoLeak cls (fillTemplateBounds cls subs)) ∧
      (args ≠ [] → FallbackLeaks cls (genericArgOffset cls args.length) args
          (fallsBack cls (genericArgOffset cls args.length)) →
        ¬ NoLeak cls (fillTemplateBounds cls subs)) := by
  have hparams : ∀ {offset : Nat} {args : List PhpType} {falls : Nat → Atom → Bool},
      FallbackLeaks cls offset args falls → cls.templateParams ≠ [] := by
    rintro offset args falls ⟨param, hparam, -⟩ hnil
    rw [hnil] at hparam
    cases hparam
  constructor
  · intro args hargs
    refine ⟨noLeak_build hp hargs, fun hne hleaks => ?_⟩
    rw [buildGenericSubs, if_neg (by simp [hparams hleaks, hne])]
    exact leak_of_fallbackLeaks (binds_explicitSubs hargs)
      (explicitParams_ne_nil (hparams hleaks) hne) hleaks
  · intro generics active subs args hargs hactive hentry hsubs
    refine ⟨noLeak_bind hp hargs hactive hentry hsubs, fun hne hleaks => ?_⟩
    rw [bindTemplateArgs_eq hentry hsubs]
    exact leak_of_fallbackLeaks (binds_resolved hp hactive hargs)
      (explicitParams_ne_nil (hparams hleaks) hne) hleaks

/-- `@template A`, `@template B = int` and `@template C = B`. -/
def defaultOfDefault : ClassInfo :=
  ⟨"Triple", none, [], ["A", "B", "C"], [], [("B", PhpType.int), ("C", .named "B")], [], []⟩

theorem unreserved_defaultOfDefault : Unreserved (isParam defaultOfDefault) := by
  intro name h
  simp only [isParam, defaultOfDefault, List.mem_cons, List.not_mem_nil, or_false,
    decide_eq_true_eq] at h
  obtain rfl | rfl | rfl := h <;> decide +kernel

/-- With two arguments `C` stands for what `B` received, with one it stands for `B`. -/
theorem noLeak_of_resolves_defaultOfDefault :
    NoLeak defaultOfDefault (@fillTemplateBounds constantHasher defaultOfDefault
      (@buildGenericSubs constantHasher defaultOfDefault [.named "Foo", .named "Bar"])) ∧
    ¬ NoLeak defaultOfDefault (@fillTemplateBounds constantHasher defaultOfDefault
      (@buildGenericSubs constantHasher defaultOfDefault [.named "Foo"])) := by
  have h := (@noLeak_of_resolves defaultOfDefault constantHasher unreserved_defaultOfDefault).1
  refine ⟨(h [.named "Foo", .named "Bar"] ?_).1 ?_, (h [.named "Foo"] ?_).2 ?_ ?_⟩
  · intro arg harg
    simp only [List.mem_cons, List.not_mem_nil, or_false] at harg
    obtain rfl | rfl := harg <;> decide +kernel
  · have hfalls : FallbacksResolve defaultOfDefault (genericArgOffset defaultOfDefault 2)
        [.named "Foo", .named "Bar"] fun _ _ => true := by decide +kernel
    exact hfalls
  · intro arg harg
    simp only [List.mem_cons, List.not_mem_nil, or_false] at harg
    obtain rfl := harg
    decide +kernel
  · decide
  · exact ⟨"C", by decide +kernel, by decide +kernel⟩

/-- `Triple<Foo>` binds `C` to the name `B`. -/
theorem noLeak_fails_defaultOfDefault :
    AcyclicDefaults defaultOfDefault ∧ Closed defaultOfDefault (.named "Foo") ∧
      (@fillTemplateBounds constantHasher defaultOfDefault
        (@buildGenericSubs constantHasher defaultOfDefault [.named "Foo"])).get "C" =
          some (.named "B") ∧
      ¬ Closed defaultOfDefault (.named "B") := by
  refine ⟨⟨fun name => if name = "C" then 1 else 0, ?_⟩, by decide +kernel, by decide +kernel,
    by decide +kernel⟩
  intro param hparam
  simp only [defaultOfDefault, List.mem_cons, List.not_mem_nil, or_false] at hparam
  obtain rfl | rfl | rfl := hparam <;> decide +kernel

end PhpantomLsp.Inheritance
