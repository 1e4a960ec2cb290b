import PhpantomLsp.Composer.Psr4

/-!
# A class and the file PSR-4 places it in

Below one mapping, the path and the name are one text read with two separators:
the name is cut at its last `\`, the file's path at its last `/`.  Which mapping a
file is below is settled by the directories, so when none lies inside another the
two directions choose the same one.
-/

namespace PhpantomLsp.Composer

/-! ## The last separator -/

section LastSeparator

variable {c : Char} {text a b : Text}

theorem beforeLast_append_cons (hb : c ∉ b) : beforeLast c (a ++ c :: b) = a := by
  have hdrop : (a ++ c :: b).rdropWhile (· != c) = a ++ [c] := by
    induction b using List.reverseRecOn with
    | nil => exact List.rdropWhile_concat_neg _ _ _ (by simp)
    | append_singleton b x ih =>
        simp only [List.mem_append, List.mem_singleton, not_or] at hb
        rw [← List.cons_append, ← List.append_assoc,
          List.rdropWhile_concat_pos _ _ _ (by simpa using Ne.symm hb.2)]
        exact ih hb.1
  rw [beforeLast, hdrop, List.dropLast_concat]

theorem afterLast_append_cons (hb : c ∉ b) : afterLast c (a ++ c :: b) = b := by
  induction b using List.reverseRecOn with
  | nil => exact List.rtakeWhile_concat_neg _ _ _ (by simp)
  | append_singleton b x ih =>
      simp only [List.mem_append, List.mem_singleton, not_or] at hb
      rw [afterLast, ← List.cons_append, ← List.append_assoc,
        List.rtakeWhile_concat_pos _ _ _ (by simpa using Ne.symm hb.2)]
      exact congrArg (· ++ [x]) (ih hb.1)

theorem afterLast_of_not_mem (h : c ∉ text) : afterLast c text = text :=
  List.rtakeWhile_eq_self_iff.mpr fun x hx => by
    simpa using fun heq : x = c => h (heq ▸ hx)

/-- A text with the separator is cut at the last one. -/
theorem exists_last (h : c ∈ text) : ∃ a b, text = a ++ c :: b ∧ c ∉ b := by
  obtain ⟨b, a, hrev, hb⟩ := List.eq_append_cons_of_mem (List.mem_reverse.mpr h)
  refine ⟨a.reverse, b.reverse, ?_, by simpa using hb⟩
  have := congrArg List.reverse hrev
  simpa using this

end LastSeparator

/-! ## Exchanging the separators -/

@[simp] theorem slashes_append (a b : Text) : slashes (a ++ b) = slashes a ++ slashes b :=
  List.map_append

theorem slashes_of_not_mem {text : Text} (h : '\\' ∉ text) : slashes text = text := by
  refine (List.map_congr_left fun c hc => ?_).trans (List.map_id text)
  exact if_neg fun heq : c = '\\' => h (heq ▸ hc)

theorem backslashes_of_not_mem {text : Text} (h : '/' ∉ text) : backslashes text = text := by
  refine (List.map_congr_left fun c hc => ?_).trans (List.map_id text)
  exact if_neg fun heq : c = '/' => h (heq ▸ hc)

theorem slashes_backslashes {text : Text} (h : '\\' ∉ text) :
    slashes (backslashes text) = text := by
  rw [slashes, backslashes, List.map_map]
  refine (List.map_congr_left fun c hc => ?_).trans (List.map_id text)
  have hne : c ≠ '\\' := fun heq => h (heq ▸ hc)
  by_cases hslash : c = '/' <;> simp [hslash, hne]

theorem backslashes_slashes {text : Text} (h : '/' ∉ text) :
    backslashes (slashes text) = text := by
  rw [slashes, backslashes, List.map_map]
  refine (List.map_congr_left fun c hc => ?_).trans (List.map_id text)
  have hne : c ≠ '/' := fun heq => h (heq ▸ hc)
  by_cases hslash : c = '\\' <;> simp [hslash, hne]

theorem not_mem_slashes (text : Text) : '\\' ∉ slashes text := by
  simp only [slashes, List.mem_map, not_exists, not_and]
  intro c _
  split_ifs with h
  · decide
  · exact h

/-- The name of a file below a directory is the short name of the class. -/
theorem afterLast_backslashes {text : Text} (h : '\\' ∉ text) :
    afterLast '\\' (backslashes text) = afterLast '/' text := by
  by_cases hmem : '/' ∈ text
  · obtain ⟨a, b, rfl, hb⟩ := exists_last hmem
    have hback : backslashes (a ++ '/' :: b) = backslashes a ++ '\\' :: b := by
      rw [backslashes, List.map_append, List.map_cons, ← backslashes, ← backslashes,
        backslashes_of_not_mem hb]
      rfl
    rw [hback, afterLast_append_cons hb, afterLast_append_cons]
    exact fun hb' => h (List.mem_append_right _ (List.mem_cons_of_mem _ hb'))
  · rw [backslashes_of_not_mem hmem, afterLast_of_not_mem hmem, afterLast_of_not_mem h]

/-! ## Class names -/

/-- One or more segments, none of them empty, between separators. -/
structure IsClassName (name : Text) : Prop where
  segments : ∀ s ∈ name.splitOn '\\', s ≠ []
  noSlash : '/' ∉ name

/-- The namespace of a class name, `none` for a global class. -/
def namespaceOf (name : Text) : Option Text :=
  if '\\' ∈ name then some (beforeLast '\\' name) else none

def shortNameOf (name : Text) : Text := afterLast '\\' name

/-- A namespace and a short name put together. -/
def qualified : Option Text → Text → Text
  | none, short => short
  | some ns, short => ns ++ '\\' :: short

theorem qualified_namespaceOf (name : Text) :
    qualified (namespaceOf name) (shortNameOf name) = name := by
  by_cases hmem : '\\' ∈ name
  · rw [namespaceOf, if_pos hmem]
    obtain ⟨a, b, rfl, hb⟩ := exists_last hmem
    rw [beforeLast_append_cons hb, shortNameOf, afterLast_append_cons hb, qualified]
  · rw [namespaceOf, if_neg hmem, shortNameOf, afterLast_of_not_mem hmem, qualified]

/-- A prefix that ends in one separator, or the root's. -/
def IsSeparated (namespacePrefix : Text) : Prop :=
  namespacePrefix = [] ∨ ∃ p, p ≠ [] ∧ p.getLast? ≠ some '\\' ∧ namespacePrefix = p ++ ['\\']

namespace IsClassName

theorem ne_nil {name : Text} (h : IsClassName name) : name ≠ [] := by
  rintro rfl
  exact h.segments [] (by simp) rfl

theorem head_ne {name : Text} (h : IsClassName name) : name.head? ≠ some '\\' := by
  intro hhead
  obtain ⟨rest, rfl⟩ : ∃ rest, name = '\\' :: rest := by
    cases name with
    | nil => simp at hhead
    | cons c rest => exact ⟨rest, by simpa using hhead⟩
  have hsplit := List.splitOn_append_cons_self (a := '\\') [] rest
  exact h.segments [] (by rw [← List.nil_append ('\\' :: rest), hsplit]; simp) rfl

theorem getLast_ne {name : Text} (h : IsClassName name) : name.getLast? ≠ some '\\' := by
  intro hlast
  obtain ⟨rest, rfl⟩ : ∃ rest, name = rest ++ ['\\'] := List.getLast?_eq_some_iff.mp hlast
  exact h.segments [] (by rw [List.splitOn_append_cons_self (a := '\\') rest []]; simp) rfl

/-- Both sides of a separator are class names. -/
theorem of_append_cons {p rest : Text} (h : IsClassName (p ++ '\\' :: rest)) :
    IsClassName p ∧ IsClassName rest := by
  have hsplit := List.splitOn_append_cons_self (a := '\\') p rest
  refine ⟨⟨fun s hs => h.segments s ?_, fun hmem => h.noSlash ?_⟩,
    ⟨fun s hs => h.segments s ?_, fun hmem => h.noSlash ?_⟩⟩
  · rw [hsplit]; exact List.mem_append_left _ hs
  · exact List.mem_append_left _ hmem
  · rw [hsplit]; exact List.mem_append_right _ hs
  · exact List.mem_append_right _ (List.mem_cons_of_mem _ hmem)

/-- The prefix of a mapping that covers a class name, and what is left below it. -/
theorem of_prefix {m : Psr4Mapping} {rest : Text} (h : IsClassName (m.namespacePrefix ++ rest)) :
    IsSeparated m.namespacePrefix ∧ IsClassName rest := by
  obtain hempty | hends := m.prefixEnds
  · rw [hempty] at h ⊢
    exact ⟨Or.inl rfl, h⟩
  · obtain ⟨p, hp⟩ := List.getLast?_eq_some_iff.mp hends
    rw [hp, List.append_assoc, List.singleton_append] at h
    have hparts := h.of_append_cons
    exact ⟨Or.inr ⟨p, hparts.1.ne_nil, hparts.1.getLast_ne, hp⟩, hparts.2⟩

end IsClassName

/-- What is below a mapping is named as the text after its prefix is. -/
theorem namespaceBelow_eq {m : Psr4Mapping} (hm : IsSeparated m.namespacePrefix) (w : Text) :
    namespaceBelow m w = namespaceOf (m.namespacePrefix ++ backslashes w) := by
  simp only [namespaceBelow, namespaceOf]
  obtain hempty | ⟨p, hne, hlast, hp⟩ := hm
  · rw [hempty]
    simp
  · have htrim : m.namespacePrefix.rdropWhile (· == '\\') = p := by
      rw [hp, List.rdropWhile_concat_pos _ _ _ (by simp), List.rdropWhile_eq_self_iff]
      intro hp' heq
      rw [beq_iff_eq] at heq
      exact hlast (by rw [List.getLast?_eq_some_getLast hp', heq])
    have hmem : '\\' ∈ m.namespacePrefix ++ backslashes w := by rw [hp]; simp
    rw [htrim, if_pos hmem, hp, if_neg hne, if_neg hne]
    split_ifs with hin
    · obtain ⟨a, b, hab, hb⟩ := exists_last hin
      rw [hab, beforeLast_append_cons hb, ← List.append_assoc, beforeLast_append_cons hb,
        List.append_assoc, List.singleton_append]
    · rw [List.append_assoc, List.singleton_append, beforeLast_append_cons hin]

theorem shortNameOf_append {m : Psr4Mapping} {w : Text} (h : '\\' ∉ w) :
    shortNameOf (m.namespacePrefix ++ backslashes w) = afterLast '/' w := by
  rw [shortNameOf, ← afterLast_backslashes h]
  by_cases hin : '\\' ∈ backslashes w
  · obtain ⟨a, b, hab, hb⟩ := exists_last hin
    rw [hab, ← List.append_assoc, afterLast_append_cons hb, afterLast_append_cons hb]
  · rw [afterLast_of_not_mem hin]
    obtain hempty | hends := m.prefixEnds
    · rw [hempty, List.nil_append, afterLast_of_not_mem hin]
    · obtain ⟨p, hp⟩ := List.getLast?_eq_some_iff.mp hends
      rw [hp, List.append_assoc, List.singleton_append, afterLast_append_cons hin]

/-! ## Directories -/

/-- The directory of a mapping, ending in `/`. -/
def directory (root : Text) (m : Psr4Mapping) : Text :=
  let absBase := join root m.basePath
  if absBase.getLast? = some '/' then absBase else absBase ++ ['/']

theorem join_ne_nil {root arg : Text} (hroot : root ≠ []) : join root arg ≠ [] := by
  unfold join
  split_ifs with habs hsep
  · rintro rfl; simp at habs
  · simp [hroot]
  · simp

theorem join_getLast_ne {root : Text} (m : Psr4Mapping) (hroot : root ≠ []) :
    (join root m.basePath).getLast? ≠ some '\\' := by
  have hbase := m.baseEnds
  by_cases hempty : m.basePath = []
  · rw [hempty, join]
    split_ifs with habs hsep
    · simp
    · rw [List.append_nil, hsep.resolve_left hroot]
      decide
    · simp
  · have hlast : ∀ a : Text, (a ++ m.basePath).getLast? ≠ some '\\' := fun a => by
      rw [List.getLast?_append_of_ne_nil _ hempty]
      exact hbase
    unfold join
    split_ifs with habs hsep
    · exact hbase
    · exact hlast root
    · rw [← List.singleton_append, ← List.append_assoc]
      exact hlast _

theorem getLast_slashes {text : Text} (h : text.getLast? ≠ some '\\') :
    (slashes text).getLast? = some '/' ↔ text.getLast? = some '/' := by
  rw [slashes, List.getLast?_map, Option.map_eq_some_iff]
  constructor
  · rintro ⟨c, hc, hmap⟩
    split_ifs at hmap with heq
    · exact absurd (heq ▸ hc) h
    · exact hmap ▸ hc
  · intro hlast
    exact ⟨'/', hlast, by decide⟩

theorem slashes_directory {root : Text} (hroot : root ≠ []) (m : Psr4Mapping) :
    slashes (directory root m) = absBaseSlash root m := by
  have hlast := getLast_slashes (join_getLast_ne m hroot)
  simp only [directory, absBaseSlash, hlast]
  split_ifs
  · rfl
  · rw [slashes_append]; rfl

theorem join_join {root arg : Text} (hroot : root ≠ []) (m : Psr4Mapping)
    (harg : arg.head? ≠ some '/') : join (join root m.basePath) arg = directory root m ++ arg := by
  have hne : join root m.basePath ≠ [] := join_ne_nil hroot
  rw [join, if_neg harg]
  simp only [hne, false_or, directory]
  split_ifs
  · rfl
  · rw [List.append_assoc, List.singleton_append]

theorem directory_getLast (root : Text) (m : Psr4Mapping) :
    (directory root m).getLast? = some '/' := by
  simp only [directory]
  split_ifs with h
  · exact h
  · simp

/-- Neither directory equals or lies inside the other, as they are spelled. -/
def Apart (root : Text) (m n : Psr4Mapping) : Prop :=
  ¬ absBaseSlash root m <+: absBaseSlash root n ∧ ¬ absBaseSlash root n <+: absBaseSlash root m

instance (root : Text) : DecidableRel (Apart root) := fun _ _ => inferInstanceAs (Decidable (_ ∧ _))

theorem foldl_better_of_not_prefix {root file : Text} {mappings : List Psr4Mapping}
    (h : ∀ n ∈ mappings, ¬ absBaseSlash root n <+: file) (best : Option (Psr4Mapping × Text)) :
    mappings.foldl (better root file) best = best := by
  induction mappings generalizing best with
  | nil => rfl
  | cons n rest ih =>
      have hstrip : stripPrefix (absBaseSlash root n) file = none := if_neg (h n (by simp))
      rw [List.foldl_cons, better, hstrip]
      exact ih (fun k hk => h k (List.mem_cons_of_mem _ hk)) best

/-- A file is below one directory only, and its mapping is found. -/
theorem psr4MappingForPath_eq {root file below : Text} {mappings : List Psr4Mapping}
    (hapart : mappings.Pairwise (Apart root)) {m : Psr4Mapping} (hm : m ∈ mappings)
    (hfile : slashes file = absBaseSlash root m ++ below) :
    psr4MappingForPath mappings root file = some (m, below) := by
  obtain ⟨pl, pr, rfl⟩ := List.append_of_mem hm
  have holds : absBaseSlash root m <+: slashes file := hfile ▸ List.prefix_append _ _
  have hother : ∀ n, (Apart root n m ∨ Apart root m n) → ¬ absBaseSlash root n <+: slashes file := by
    intro n hn hprefix
    have := List.prefix_or_prefix_of_prefix hprefix holds
    obtain hn | hn := hn
    · exact this.elim hn.1 hn.2
    · exact this.elim hn.2 hn.1
  rw [List.pairwise_append, List.pairwise_cons] at hapart
  obtain ⟨-, ⟨hright, -⟩, hleft⟩ := hapart
  have hstrip : stripPrefix (absBaseSlash root m) (slashes file) = some below := by
    rw [stripPrefix, if_pos holds, hfile, List.drop_left]
  rw [psr4MappingForPath, List.foldl_append, List.foldl_cons,
    foldl_better_of_not_prefix fun n hn => hother n (Or.inl (hleft n hn m (by simp))),
    foldl_better_of_not_prefix fun n hn => hother n (Or.inr (hright n hn)), better, hstrip]
  rfl

/-! ## Extensions -/

theorem extension_dotPhp {text : Text} (hmem : '/' ∈ text) (hlast : text.getLast? ≠ some '/') :
    extension (text ++ dotPhp) = some ['p', 'h', 'p'] := by
  obtain ⟨a, stem, rfl, hstem⟩ := exists_last hmem
  have hne : stem ≠ [] := by rintro rfl; simp at hlast
  have hlen : 5 ≤ (stem ++ dotPhp).length := by
    have := List.length_pos_of_ne_nil hne
    simp only [List.length_append, dotPhp, List.length_cons, List.length_nil]
    omega
  have hlong : ∀ t : Text, t.length < 5 → stem ++ dotPhp ≠ t := by
    rintro t ht rfl
    omega
  have hname : fileName (a ++ '/' :: stem ++ dotPhp) = some (stem ++ dotPhp) := by
    have hnot : '/' ∉ stem ++ dotPhp := by
      rw [List.mem_append, not_or]
      exact ⟨hstem, by decide⟩
    rw [fileName, List.append_assoc, List.cons_append,
      List.splitOn_append_cons_self (a := '/') a, List.splitOn_eq_singleton hnot,
      List.filter_append, List.filter_singleton]
    simp [hlong]
  have hsplit : stem ++ dotPhp = stem ++ '.' :: ['p', 'h', 'p'] := rfl
  have hno : '.' ∉ ['p', 'h', 'p'] := by decide
  rw [extension, hname, Option.bind_some, hsplit, beforeLast_append_cons hno,
    afterLast_append_cons hno, if_pos ⟨by simp, hne⟩]

/-! ## The round trips -/

/-- The path of a file below a directory, without `.php`: it names a file, and is
spelled with one separator. -/
structure IsBelow (w : Text) : Prop where
  nonempty : w ≠ []
  noBackslash : '\\' ∉ w
  relative : w.head? ≠ some '/'
  names : w.getLast? ≠ some '/'

theorem head_append_dotPhp {w : Text} (hw : IsBelow w) : (w ++ dotPhp).head? ≠ some '/' := by
  rw [List.head?_append_of_ne_nil _ hw.nonempty]
  exact hw.relative

/-- The class a file below a mapping should declare. -/
theorem resolveNamespaceFromPath_eq {root w : Text} {mappings : List Psr4Mapping}
    (hroot : root ≠ []) (hapart : mappings.Pairwise (Apart root)) {m : Psr4Mapping}
    (hm : m ∈ mappings) (hsep : IsSeparated m.namespacePrefix) (hw : IsBelow w) :
    resolveNamespaceFromPath mappings root (directory root m ++ (w ++ dotPhp)) =
      some (namespaceOf (m.namespacePrefix ++ backslashes w),
        shortNameOf (m.namespacePrefix ++ backslashes w)) := by
  have hext : extension (directory root m ++ (w ++ dotPhp)) = some ['p', 'h', 'p'] := by
    rw [← List.append_assoc]
    refine extension_dotPhp ?_ ?_
    · exact List.mem_append_left _ (List.mem_of_getLast? (directory_getLast root m))
    · rw [List.getLast?_append_of_ne_nil _ hw.nonempty]
      exact hw.names
  have hfile : slashes (directory root m ++ (w ++ dotPhp)) =
      absBaseSlash root m ++ (w ++ dotPhp) := by
    rw [slashes_append, slashes_directory hroot, slashes_append,
      slashes_of_not_mem hw.noBackslash]
    rfl
  have hsuffix : stripSuffix dotPhp (w ++ dotPhp) = some w := by
    rw [stripSuffix, if_pos (List.suffix_append _ _), List.length_append, Nat.add_sub_cancel,
      List.take_left]
  rw [resolveNamespaceFromPath, if_neg (not_not.mpr hext),
    psr4MappingForPath_eq hapart hm hfile]
  simp only [Option.bind_eq_bind, Option.bind_some, hsuffix, namespaceBelow_eq hsep,
    shortNameOf_append hw.noBackslash]
  rfl

/-- Where one mapping places a class its prefix covers. -/
theorem candidatePath_append {root rest : Text} (hroot : root ≠ []) (m : Psr4Mapping)
    (hrest : (slashes rest ++ dotPhp).head? ≠ some '/') :
    candidatePath root (m.namespacePrefix ++ rest) m =
      some (directory root m ++ (slashes rest ++ dotPhp)) := by
  have hrel : (if m.namespacePrefix = [] then some (m.namespacePrefix ++ rest)
      else stripPrefix m.namespacePrefix (m.namespacePrefix ++ rest)) = some rest := by
    split_ifs with hempty
    · rw [hempty, List.nil_append]
    · rw [stripPrefix, if_pos (List.prefix_append _ _), List.drop_left]
  simp only [candidatePath, hrel, Option.map_some, join_join hroot m hrest]

theorem candidatePath_eq_some {root className path : Text} {m : Psr4Mapping}
    (h : candidatePath root className m = some path) :
    ∃ rest, className = m.namespacePrefix ++ rest := by
  simp only [candidatePath, Option.map_eq_some_iff] at h
  obtain ⟨rest, hrest, -⟩ := h
  split_ifs at hrest with hempty
  · exact ⟨className, by rw [hempty, List.nil_append]⟩
  · rw [stripPrefix] at hrest
    split_ifs at hrest with hprefix
    obtain ⟨rest, rfl⟩ := hprefix
    exact ⟨rest, rfl⟩

theorem stripLeading_eq {name : Text} (h : name.head? ≠ some '\\') :
    (stripPrefix ['\\'] name).getD name = name := by
  rw [stripPrefix, if_neg, Option.getD_none]
  rintro ⟨rest, rfl⟩
  simp at h

theorem isBelow_slashes {rest : Text} (h : IsClassName rest) : IsBelow (slashes rest) where
  nonempty := by
    rw [slashes, ne_eq, List.map_eq_nil_iff]
    exact h.ne_nil
  noBackslash := not_mem_slashes rest
  relative := by
    have hhead := h.head_ne
    have hslash := h.noSlash
    cases rest with
    | nil => simp [slashes]
    | cons c rest =>
        have hne : c ≠ '\\' := by simpa using hhead
        simp only [List.mem_cons, not_or] at hslash
        simpa [slashes, hne] using Ne.symm hslash.1
  names := by
    rw [ne_eq, getLast_slashes h.getLast_ne]
    exact fun hlast => h.noSlash (List.mem_of_getLast? hlast)

/-- The file a class is placed in declares that class. -/
theorem resolveNamespaceFromPath_of_candidatePath {root name path : Text}
    {mappings : List Psr4Mapping} (hroot : root ≠ []) (hapart : mappings.Pairwise (Apart root))
    (hname : IsClassName name) {m : Psr4Mapping} (hm : m ∈ mappings)
    (hpath : candidatePath root name m = some path) :
    resolveNamespaceFromPath mappings root path = some (namespaceOf name, shortNameOf name) := by
  obtain ⟨rest, rfl⟩ := candidatePath_eq_some hpath
  obtain ⟨hstart, hrest⟩ := hname.of_prefix
  have hbelow := isBelow_slashes hrest
  rw [candidatePath_append hroot m (head_append_dotPhp hbelow), Option.some.injEq] at hpath
  rw [← hpath, resolveNamespaceFromPath_eq hroot hapart hm hstart hbelow,
    backslashes_slashes hrest.noSlash]

/-- A class some mapping covers has a place. -/
theorem exists_psr4PathForClass {root name : Text} {mappings : List Psr4Mapping}
    (hroot : root ≠ []) (hname : IsClassName name)
    (hcovers : ∃ m ∈ mappings, m.namespacePrefix <+: name) :
    ∃ path, psr4PathForClass mappings root name = some path ∧
      ∃ m ∈ mappings, candidatePath root name m = some path := by
  obtain ⟨m, hm, rest, rfl⟩ := hcovers
  have hbelow := isBelow_slashes hname.of_prefix.2
  have hpath := candidatePath_append hroot m (head_append_dotPhp hbelow)
  rw [psr4PathForClass, psr4CandidatePaths, stripLeading_eq hname.head_ne]
  cases hhead : (mappings.filterMap (candidatePath root (m.namespacePrefix ++ rest))).head? with
  | none =>
      rw [List.head?_eq_none_iff, List.filterMap_eq_nil_iff] at hhead
      rw [hhead m hm] at hpath
      cases hpath
  | some path =>
      refine ⟨path, rfl, ?_⟩
      exact List.mem_filterMap.mp (List.mem_of_head? hhead)

theorem head_append_backslashes {p w : Text} (hp : p.head? ≠ some '\\') (hw : IsBelow w) :
    (p ++ backslashes w).head? ≠ some '\\' := by
  cases p with
  | cons c p => exact hp
  | nil =>
      have hne := hw.nonempty
      have hslash := hw.noBackslash
      have hrel := hw.relative
      cases w with
      | nil => exact absurd rfl hne
      | cons c w =>
          have hc : c ≠ '/' := by simpa using hrel
          simp only [List.mem_cons, not_or] at hslash
          simpa [backslashes, hc] using Ne.symm hslash.1

/-- Classes and files correspond: the file a class is placed in declares it, and the
class a file declares is placed in that file. -/
theorem psr4_round_trip {root : Text} {mappings : List Psr4Mapping} (hroot : root ≠ [])
    (hapart : mappings.Pairwise (Apart root)) :
    (∀ name, IsClassName name → (∃ m ∈ mappings, m.namespacePrefix <+: name) →
      ∃ path, psr4PathForClass mappings root name = some path ∧
        resolveNamespaceFromPath mappings root path =
          some (namespaceOf name, shortNameOf name)) ∧
    (∀ m ∈ mappings, IsSeparated m.namespacePrefix → m.namespacePrefix.head? ≠ some '\\' →
      ∀ w, IsBelow w → ∃ ns short,
        resolveNamespaceFromPath mappings root (directory root m ++ (w ++ dotPhp)) =
          some (ns, short) ∧
        psr4CandidatePaths [m] root (qualified ns short) = [directory root m ++ (w ++ dotPhp)] ∧
        directory root m ++ (w ++ dotPhp) ∈
          psr4CandidatePaths mappings root (qualified ns short)) := by
  constructor
  · intro name hname hcovers
    obtain ⟨path, hpath, m, hm, hcandidate⟩ := exists_psr4PathForClass hroot hname hcovers
    exact ⟨path, hpath,
      resolveNamespaceFromPath_of_candidatePath hroot hapart hname hm hcandidate⟩
  · intro m hm hprefix hhead w hw
    have hback := slashes_backslashes hw.noBackslash
    have hplaced : candidatePath root (m.namespacePrefix ++ backslashes w) m =
        some (directory root m ++ (w ++ dotPhp)) := by
      have hrel : (slashes (backslashes w) ++ dotPhp).head? ≠ some '/' := by
        rw [hback]
        exact head_append_dotPhp hw
      rw [candidatePath_append hroot m hrel, hback]
    have hstrip := stripLeading_eq (head_append_backslashes hhead hw)
    refine ⟨_, _, resolveNamespaceFromPath_eq hroot hapart hm hprefix hw, ?_, ?_⟩
    · rw [qualified_namespaceOf, psr4CandidatePaths, hstrip, List.filterMap_cons_some hplaced,
        List.filterMap_nil]
    · rw [qualified_namespaceOf, psr4CandidatePaths, hstrip]
      exact List.mem_filterMap.mpr ⟨m, hm, hplaced⟩

/-- `App\` in `src/`, and a root fallback in `lib/`. -/
def appAndFallback : List Psr4Mapping :=
  collectPsr4Entries "App".toList ["src".toList] ++ collectPsr4Entries [] ["lib/".toList]

theorem psr4_round_trip_appAndFallback :
    (∃ path, psr4PathForClass appAndFallback "/r".toList "App\\User".toList = some path ∧
      resolveNamespaceFromPath appAndFallback "/r".toList path =
        some (some "App".toList, "User".toList)) ∧
    ∃ ns short,
      resolveNamespaceFromPath appAndFallback "/r".toList "/r/lib/Foo.php".toList =
        some (ns, short) ∧
      "/r/lib/Foo.php".toList ∈
        psr4CandidatePaths appAndFallback "/r".toList (qualified ns short) := by
  have h := @psr4_round_trip "/r".toList appAndFallback (by decide +kernel) (by decide +kernel)
  constructor
  · exact h.1 "App\\User".toList ⟨by decide +kernel, by decide +kernel⟩
      ⟨appAndFallback.head (by decide), by simp, by decide +kernel⟩
  · obtain ⟨ns, short, hresolve, -, hmem⟩ := h.2 (appAndFallback.getLast (by decide)) (by simp)
      (Or.inl rfl) (by decide) "Foo".toList
      ⟨by decide +kernel, by decide +kernel, by decide +kernel, by decide +kernel⟩
    exact ⟨ns, short, hresolve, hmem⟩

/-- A file with a `\` in its name: the class it declares is placed one directory
further down. -/
theorem psr4_round_trip_backslash :
    resolveNamespaceFromPath appAndFallback "/r".toList "/r/src/A\\B.php".toList =
      some (some "App\\A".toList, "B".toList) ∧
    psr4CandidatePaths [appAndFallback.head (by decide)] "/r".toList
      (qualified (some "App\\A".toList) "B".toList) = ["/r/src/A/B.php".toList] ∧
    "/r/src/A\\B.php".toList ≠ "/r/src/A/B.php".toList := by
  refine ⟨?_, ?_, ?_⟩ <;> decide +kernel

end PhpantomLsp.Composer
