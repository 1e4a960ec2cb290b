import PhpantomLsp.Flow.Proofs

/-!
# Keys that read a variable

`key_reads_variable` looks for a variable in the text of a subject key; the
index of a proof map lists the `$name` tokens of its keys.  The two scan the
text by different rules, but a key that reads a variable spells it on a token
boundary, so the variable's first token is a token of the key
(`firstVariable_mem`), and a bare variable name reads nothing (`isCompound`).
-/

namespace PhpantomLsp.Flow

open Text Lib PhpType

/-- `is_name_char` -/
def isNameChar (c : Char) : Bool := isAsciiAlphanumeric c || c == '_' || isNonAscii c

/-- `str::find`: the text before and after the first occurrence. -/
def findText (needle : List Char) : List Char → Option (List Char × List Char)
  | [] => if needle = [] then some ([], []) else none
  | c :: rest =>
      if needle <+: c :: rest then some ([], (c :: rest).drop needle.length)
      else (findText needle rest).map fun (before, after) => (c :: before, after)

/-- `bracket_depth_at`, over the text in between. -/
def bracketDepthAt (depth : Nat) (between : List Char) : Nat :=
  between.foldl
    (fun depth c => if c = '[' then depth + 1 else if c = ']' then depth - 1 else depth) depth

theorem findText_eq_some {needle text before after : List Char}
    (h : findText needle text = some (before, after)) : text = before ++ needle ++ after := by
  induction text generalizing before after with
  | nil =>
      by_cases hneedle : needle = []
      · simp only [findText, hneedle, if_true, Option.some.injEq, Prod.mk.injEq] at h
        rw [hneedle, ← h.1, ← h.2]
        rfl
      · simp [findText, hneedle] at h
  | cons c rest ih =>
      rw [findText] at h
      by_cases hpre : needle <+: c :: rest
      · rw [if_pos hpre, Option.some.injEq, Prod.mk.injEq] at h
        rw [← h.1, ← h.2, List.nil_append, ← List.prefix_append_drop hpre]
      · rw [if_neg hpre] at h
        have ⟨⟨before', after'⟩, hfind, heq⟩ := Option.map_eq_some_iff.mp h
        simp only [Prod.mk.injEq] at heq
        rw [← heq.1, ← heq.2, ih hfind]
        rfl

/-- The loop of `key_reads_variable`, over what is left of the key. -/
def readsFrom (bracketedOnly : Bool) (varName : List Char) (depth : Nat) (rest : List Char) :
    Bool :=
  if hvar : varName = [] then false
  else
    match h : findText varName rest with
    | none => false
    | some (before, after) =>
        have : after.length < rest.length := by
          have hlen := List.length_pos_of_ne_nil hvar
          rw [findText_eq_some h]
          simp only [List.length_append]
          omega
        let depth := if bracketedOnly then bracketDepthAt depth before else depth
        if (!bracketedOnly || decide (0 < depth)) && !after.head?.any isNameChar then true
        else readsFrom bracketedOnly varName depth after
termination_by rest.length

/-- The key is rooted at the variable: a member, an element or a static member of
it. -/
def rootedAt (key varName : List Char) : Bool :=
  let rest := key.drop varName.length
  varName <+: key ∧ (['-', '>'] <+: rest ∨ ['['] <+: rest ∨ [':', ':'] <+: rest)

def keyReadsVariable (key varName : Atom) : Bool :=
  if varName.toList = [] then false
  else if rootedAt key.toList varName.toList then true
  else
    let bracketedOnly := !isCallKey key
    if bracketedOnly && !key.toList.contains '[' then false
    else readsFrom bracketedOnly varName.toList 0 key.toList

/-! ## Tokens -/

/-- The loop of `each_variable`. -/
def eachVariableFrom : List Char → List Atom
  | [] => []
  | c :: rest =>
      if c = '$' then
        let name := rest.takeWhile isNameChar
        if name = [] then eachVariableFrom rest
        else String.ofList ('$' :: name) :: eachVariableFrom rest
      else eachVariableFrom rest

/-- The `$name` tokens of a key; a key that is one variable is its own token. -/
def eachVariable (key : Atom) : List Atom :=
  match key.toList with
  | '$' :: rest =>
      if rest ≠ [] ∧ rest.all isNameChar then [key] else eachVariableFrom ('$' :: rest)
  | text => eachVariableFrom text

/-- The first `$name` token of a key. -/
def firstVariable (key : Atom) : Option Atom :=
  match key.toList.dropWhile (· ≠ '$') with
  | [] => none
  | _ :: rest =>
      let name := rest.takeWhile isNameChar
      if name = [] then none else some (String.ofList ('$' :: name))

/-- Any character that no bare variable name has. -/
def isCompound (key : Atom) : Bool :=
  key.toList.any fun c => !(isAsciiAlphanumeric c || c == '_' || c == '$' || isNonAscii c)

/-! ## What reading a variable spells -/

/-- The key has the text of the variable, and the name does not go on after it. -/
def Spells (key varName : List Char) : Prop :=
  ∃ before after, key = before ++ varName ++ after ∧ after.head?.any isNameChar = false

theorem spells_of_readsFrom {bracketedOnly : Bool} {varName rest : List Char} {depth : Nat}
    (h : readsFrom bracketedOnly varName depth rest = true) : Spells rest varName := by
  fun_induction readsFrom bracketedOnly varName depth rest with
  | case1 => exact absurd h Bool.false_ne_true
  | case2 => exact absurd h Bool.false_ne_true
  | case3 depth rest hvar before after hfind _ depth' hread =>
      simp only [Bool.and_eq_true, Bool.not_eq_true'] at hread
      exact ⟨before, after, findText_eq_some hfind, hread.2⟩
  | case4 depth rest hvar before after hfind _ depth' hread ih =>
      have ⟨before', after', heq, hend⟩ := ih h
      refine ⟨before ++ varName ++ before', after', ?_, hend⟩
      rw [findText_eq_some hfind, heq]
      simp

theorem rootedAt_iff {key varName : List Char} :
    rootedAt key varName = true ↔ ∃ rest, key = varName ++ rest ∧
      (['-', '>'] <+: rest ∨ ['['] <+: rest ∨ [':', ':'] <+: rest) := by
  rw [rootedAt, decide_eq_true_eq]
  constructor
  · intro ⟨hpre, hrest⟩
    exact ⟨_, (List.prefix_append_drop hpre), hrest⟩
  · intro ⟨rest, hkey, hrest⟩
    rw [hkey, List.drop_left]
    exact ⟨List.prefix_append _ _, hrest⟩

/-- A path goes on with a character that no name has. -/
theorem head_of_path {rest : List Char}
    (h : ['-', '>'] <+: rest ∨ ['['] <+: rest ∨ [':', ':'] <+: rest) :
    ∃ c ∈ rest, rest.head? = some c ∧ (c = '-' ∨ c = '[' ∨ c = ':') := by
  rcases h with ⟨tail, h⟩ | ⟨tail, h⟩ | ⟨tail, h⟩
  · exact ⟨'-', by simp [← h], by simp [← h], by simp⟩
  · exact ⟨'[', by simp [← h], by simp [← h], by simp⟩
  · exact ⟨':', by simp [← h], by simp [← h], by simp⟩

/-- A key that reads a variable spells it. -/
theorem spells_of_keyReadsVariable {key varName : Atom} (h : keyReadsVariable key varName = true) :
    varName.toList ≠ [] ∧ Spells key.toList varName.toList := by
  unfold keyReadsVariable at h
  by_cases hvar : varName.toList = []
  · rw [if_pos hvar] at h
    exact absurd h Bool.false_ne_true
  rw [if_neg hvar] at h
  refine ⟨hvar, ?_⟩
  by_cases hroot : rootedAt key.toList varName.toList = true
  · have ⟨rest, hkey, hpath⟩ := rootedAt_iff.mp hroot
    have ⟨c, _, hhead, hc⟩ := head_of_path hpath
    refine ⟨[], rest, hkey, ?_⟩
    rw [hhead]
    rcases hc with rfl | rfl | rfl <;> decide
  · rw [if_neg hroot] at h
    simp only at h
    split at h
    · exact absurd h Bool.false_ne_true
    · exact spells_of_readsFrom h

/-- A bare variable name reads no variable. -/
theorem isCompound_of_keyReadsVariable {key varName : Atom}
    (h : keyReadsVariable key varName = true) : isCompound key = true := by
  have hmem {c : Char} (hc : c ∈ key.toList)
      (hnot : (!(isAsciiAlphanumeric c || c == '_' || c == '$' || isNonAscii c)) = true) :
      isCompound key = true :=
    List.any_eq_true.mpr ⟨c, hc, hnot⟩
  unfold keyReadsVariable at h
  by_cases hvar : varName.toList = []
  · rw [if_pos hvar] at h
    exact absurd h Bool.false_ne_true
  rw [if_neg hvar] at h
  by_cases hroot : rootedAt key.toList varName.toList = true
  · have ⟨rest, hkey, hpath⟩ := rootedAt_iff.mp hroot
    have ⟨c, hrest, _, hc⟩ := head_of_path hpath
    apply hmem (c := c)
    · rw [hkey]
      exact List.mem_append_right _ hrest
    · rcases hc with rfl | rfl | rfl <;> decide
  · rw [if_neg hroot] at h
    by_cases hcall : isCallKey key = true
    · have hlast : key.toList.getLast? = some ')' := by simpa [isCallKey] using hcall
      exact hmem (List.mem_of_getLast? hlast) (by decide)
    · by_cases hbracket : key.toList.contains '[' = true
      · exact hmem (List.contains_iff_mem.mp hbracket) (by decide)
      · rw [Bool.not_eq_true] at hcall hbracket
        simp only [hcall, hbracket, Bool.not_false, Bool.and_self, if_true] at h
        exact absurd h Bool.false_ne_true

/-! ## The tokens of a key -/

theorem takeWhile_append_of_name {name after : List Char} (hname : name.all isNameChar = true)
    (hafter : after.head?.any isNameChar = false) :
    (name ++ after).takeWhile isNameChar = name := by
  rw [List.takeWhile_append_of_pos (fun c hc => List.all_eq_true.mp hname c hc)]
  cases after with
  | nil => simp
  | cons c rest =>
      have hc : isNameChar c = false := by simpa using hafter
      simp [hc]

theorem mem_eachVariableFrom {before name after : List Char} (hne : name ≠ [])
    (hname : name.all isNameChar = true) (hafter : after.head?.any isNameChar = false) :
    String.ofList ('$' :: name) ∈ eachVariableFrom (before ++ '$' :: (name ++ after)) := by
  induction before with
  | nil =>
      rw [List.nil_append, eachVariableFrom, if_pos rfl, takeWhile_append_of_name hname hafter]
      simp [hne]
  | cons c before ih =>
      rw [List.cons_append, eachVariableFrom]
      by_cases hc : c = '$'
      · rw [if_pos hc]
        simp only
        split
        · exact ih
        · exact List.mem_cons_of_mem _ ih
      · rw [if_neg hc]
        exact ih

theorem mem_eachVariable {key : Atom} {before name after : List Char}
    (hkey : key.toList = before ++ '$' :: (name ++ after)) (hne : name ≠ [])
    (hname : name.all isNameChar = true) (hafter : after.head?.any isNameChar = false) :
    String.ofList ('$' :: name) ∈ eachVariable key := by
  have hfrom := @mem_eachVariableFrom before name after hne hname hafter
  rw [← hkey] at hfrom
  unfold eachVariable
  split
  · rename_i rest hrest
    by_cases hwhole : rest ≠ [] ∧ rest.all isNameChar = true
    · -- the key is one variable, and has no `$` past its first character
      rw [if_pos hwhole]
      have hnot : '$' ∉ rest := by
        intro hmem
        exact absurd (List.all_eq_true.mp hwhole.2 '$' hmem) (by decide)
      rw [hrest] at hkey
      cases before with
      | nil =>
          have hrest' : rest = name ++ after := by simpa using hkey
          have hafter : after = [] := by
            cases after with
            | nil => rfl
            | cons c after =>
                have hc := List.all_eq_true.mp hwhole.2 c (by rw [hrest']; simp)
                simp [hc] at hafter
          rw [hafter, List.append_nil] at hrest'
          rw [← hrest', ← hrest, String.ofList_toList]
          exact List.mem_singleton_self _
      | cons c before =>
          exfalso
          apply hnot
          rw [List.cons_append, List.cons.injEq] at hkey
          rw [hkey.2]
          simp
    · rw [if_neg hwhole, ← hrest]
      exact hfrom
  · exact hfrom

theorem firstVariable_eq_some {varName token : Atom} (h : firstVariable varName = some token) :
    ∃ before name after, varName.toList = before ++ '$' :: (name ++ after) ∧ name ≠ [] ∧
      name.all isNameChar = true ∧ after.head?.any isNameChar = false ∧
      token = String.ofList ('$' :: name) := by
  unfold firstVariable at h
  cases hrest : varName.toList.dropWhile (· ≠ '$') with
  | nil =>
      rw [hrest] at h
      exact absurd h (by simp)
  | cons c rest =>
      rw [hrest] at h
      simp only at h
      by_cases hname : rest.takeWhile isNameChar = []
      · simp [hname] at h
      · rw [if_neg hname, Option.some.injEq] at h
        have hc : c = '$' := by
          have hhead := List.head?_dropWhile_not (· ≠ '$') varName.toList
          rw [hrest] at hhead
          simpa using hhead
        refine ⟨varName.toList.takeWhile (· ≠ '$'), rest.takeWhile isNameChar,
          rest.dropWhile isNameChar, ?_, hname, ?_, ?_, h.symm⟩
        · rw [List.takeWhile_append_dropWhile]
          conv => lhs; rw [← List.takeWhile_append_dropWhile (p := (· ≠ '$')) (l := varName.toList)]
          rw [hrest, hc]
        · exact List.all_takeWhile
        · have hhead := List.head?_dropWhile_not isNameChar rest
          cases hd : (rest.dropWhile isNameChar).head? with
          | none => rfl
          | some d =>
              rw [hd] at hhead
              simpa using hhead

/-- A key that spells a variable has the variable's first token. -/
theorem firstVariable_mem_of_spells {key varName token : Atom}
    (htoken : firstVariable varName = some token) (h : Spells key.toList varName.toList) :
    token ∈ eachVariable key := by
  have ⟨before, name, after, hvar, hne, hname, hafter, htok⟩ := firstVariable_eq_some htoken
  have ⟨keyBefore, keyAfter, hkey, hend⟩ := h
  rw [htok]
  apply @mem_eachVariable _ (keyBefore ++ before) _ (after ++ keyAfter) _ hne hname
  · -- the name ends where it does in the variable, or where the variable does
    cases after with
    | nil => exact hend
    | cons c after => exact hafter
  · rw [hkey, hvar]
    simp

/-- What a write to the variable makes stale has the variable's first token. -/
theorem firstVariable_mem {key varName token : Atom} (htoken : firstVariable varName = some token)
    (h : key = varName ∨ keyReadsVariable key varName = true) : token ∈ eachVariable key := by
  apply firstVariable_mem_of_spells htoken
  rcases h with h | h
  · exact ⟨[], [], by rw [h]; simp, rfl⟩
  · exact (spells_of_keyReadsVariable h).2

end PhpantomLsp.Flow
