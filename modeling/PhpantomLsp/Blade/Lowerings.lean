import PhpantomLsp.Blade.Preprocessor

/-!
# What a construct lowers to

A construct matches ASCII text at the cursor, so that it is as many columns wide
as characters long, and it moves the scan on unless nothing was lowered
(`Opened`).  The PHP in its place is on one line but where a component tag is
concerned: a class name comes from the resolver and an argument may be an
attribute value with a line break in it.
-/

namespace PhpantomLsp.Blade

open PhpantomLsp.Text (lenUtf16 utf16Len)

/-! ## ASCII text -/

/-- Every character is one column wide. -/
def Narrow (text : List Char) : Prop := ∀ ch ∈ text, lenUtf16 ch = 1

instance (text : List Char) : Decidable (Narrow text) :=
  decidable_of_iff (text.all (lenUtf16 · == 1) = true) (by simp [Narrow])

/-- The next `n` characters are there and one column wide each. -/
def Matches (rem : List Char) (n : Nat) : Prop := ∃ text, text.length = n ∧ text <+: rem ∧ Narrow text

theorem matches_zero (rem : List Char) : Matches rem 0 := ⟨[], rfl, List.nil_prefix, by simp [Narrow]⟩

theorem matches_of_isPrefix {text rem : List Char} (h : text <+: rem) (hnarrow : Narrow text) :
    Matches rem text.length := ⟨text, rfl, h, hnarrow⟩

theorem Matches.append {rem : List Char} {n m : Nat} (h : Matches rem n)
    (hmore : Matches (rem.drop n) m) : Matches rem (n + m) := by
  obtain ⟨text, rfl, ⟨rest, rfl⟩, hnarrow⟩ := h
  obtain ⟨more, rfl, hstart, hnarrow'⟩ := hmore
  rw [List.drop_left] at hstart
  refine ⟨text ++ more, List.length_append, (List.prefix_append_right_inj text).mpr hstart, ?_⟩
  intro ch hch
  rcases List.mem_append.mp hch with hch | hch
  · exact hnarrow ch hch
  · exact hnarrow' ch hch

theorem Matches.le {rem : List Char} {n : Nat} (h : Matches rem n) : n ≤ rem.length := by
  obtain ⟨text, rfl, hstart, -⟩ := h
  exact hstart.length_le

theorem Matches.utf16Len_take {rem : List Char} {n : Nat} (h : Matches rem n) :
    utf16Len (rem.take n) = n := by
  obtain ⟨text, rfl, ⟨rest, rfl⟩, hnarrow⟩ := h
  rw [List.take_left]
  clear rest
  induction text with
  | nil => rfl
  | cons ch text ih =>
      have hch := hnarrow ch List.mem_cons_self
      have hrest := ih fun c hc => hnarrow c (List.mem_cons_of_mem _ hc)
      simp only [utf16Len, List.map_cons, List.sum_cons, List.length_cons] at hrest ⊢
      omega

theorem lenUtf16_of_lt {ch : Char} (h : ch.toNat < 128) : lenUtf16 ch = 1 := by
  rw [lenUtf16, if_pos (by omega)]

theorem toNat_of_isAsciiAlphanumeric {ch : Char} (h : isAsciiAlphanumeric ch = true) :
    ch.toNat < 128 := by
  simp only [isAsciiAlphanumeric, isAsciiAlphabetic, Bool.or_eq_true, Bool.and_eq_true,
    decide_eq_true_eq, Char.le_def, UInt32.le_iff_toNat_le] at h
  rcases h with (⟨-, h⟩ | ⟨-, h⟩) | ⟨-, h⟩
  · exact Nat.lt_of_le_of_lt h (by decide)
  · exact Nat.lt_of_le_of_lt h (by decide)
  · exact Nat.lt_of_le_of_lt h (by decide)

/-- A character that is alphanumeric or one of a few ASCII others is one column wide. -/
theorem lenUtf16_of_alphanumeric_or {ch : Char} {others : List Char} (hothers : Narrow others)
    (h : (isAsciiAlphanumeric ch || others.contains ch) = true) : lenUtf16 ch = 1 := by
  rcases Bool.or_eq_true _ _ ▸ h with h | h
  · exact lenUtf16_of_lt (toNat_of_isAsciiAlphanumeric h)
  · exact hothers ch (List.contains_iff_mem.mp h)

theorem lenUtf16_of_isWordChar {ch : Char} (h : isWordChar ch = true) : lenUtf16 ch = 1 := by
  apply @lenUtf16_of_alphanumeric_or _ ['_'] (by decide)
  rw [isWordChar] at h
  simpa using h

theorem narrow_takeWhile {p : Char → Bool} (h : ∀ ch, p ch = true → lenUtf16 ch = 1)
    (text : List Char) : Narrow (text.takeWhile p) := by
  intro ch hch
  exact h ch (List.mem_takeWhile_imp hch)

theorem matches_takeWhile {p : Char → Bool} (h : ∀ ch, p ch = true → lenUtf16 ch = 1)
    (rem : List Char) : Matches rem (rem.takeWhile p).length :=
  matches_of_isPrefix (List.takeWhile_prefix p) (narrow_takeWhile h rem)

theorem matches_of_head? {rem : List Char} {ch : Char} (h : rem.head? = some ch)
    (hch : lenUtf16 ch = 1) : Matches rem 1 := by
  obtain ⟨rest, rfl⟩ := List.head?_eq_some_iff.mp h
  exact ⟨[ch], rfl, ⟨rest, rfl⟩, by simpa [Narrow] using hch⟩

/-! ## Openers -/

/-- The suffix a mode closes with is on one line. -/
def Mode.SuffixOk : Mode → Prop
  | .directiveArgs suffix | .skipArgs suffix => OneLine suffix.toList
  | _ => True

/-- What holds of any construct that opens in markup. -/
structure Opened (scan : Scan) (rem : List Char) (l : Lowering) (scan' : Scan) : Prop where
  matched : Matches rem l.matchLen
  moves : 0 < l.matchLen ∨ l = .keep .html
  suffix : l.nextMode.SuffixOk
  mode : scan'.mode = scan.mode
  boundSuffix : OneLine scan.boundAttr.suffix.toList → OneLine scan'.boundAttr.suffix.toList

variable {env : LineEnv} {scan scan' : Scan} {rem : List Char} {l : Lowering}

theorem opened_keep : Opened scan rem (.keep .html) scan :=
  ⟨matches_zero rem, Or.inr rfl, trivial, rfl, id⟩

/-- An opener that only matches literal text. -/
theorem opened_of_isPrefix {text replacement : List Char} {mode : Mode} (h : text <+: rem)
    (hne : text ≠ []) (hnarrow : Narrow text) (hsuffix : mode.SuffixOk)
    (hmode : scan'.mode = scan.mode) (hbound : scan'.boundAttr = scan.boundAttr) :
    Opened scan rem ⟨text.length, replacement, mode⟩ scan' :=
  ⟨matches_of_isPrefix h hnarrow, Or.inl (List.length_pos_iff.mpr hne), hsuffix, hmode,
    fun h => hbound ▸ h⟩

theorem opened_echoOpen (h : echoOpen env scan rem = some (l, scan')) :
    Opened scan rem l scan' ∧ OneLine l.replacement := by
  rw [echoOpen] at h
  split at h
  · rename_i hopen
    split at h
    · rename_i hcomment
      cases h
      exact ⟨opened_of_isPrefix hcomment (by decide) (by decide) trivial rfl rfl, by decide⟩
    · cases h
      exact ⟨opened_of_isPrefix hopen.1 (by decide) (by decide) trivial rfl rfl, by decide⟩
  · split at h
    · rename_i hraw
      cases h
      exact ⟨opened_of_isPrefix hraw (by decide) (by decide) trivial rfl rfl, by decide⟩
    · cases h

theorem opened_phpIslandOpen (h : phpIslandOpen scan rem = some (l, scan')) :
    Opened scan rem l scan' ∧ OneLine l.replacement := by
  rw [phpIslandOpen] at h
  split at h
  · rename_i hphp
    cases h
    exact ⟨opened_of_isPrefix hphp (by decide) (by decide) trivial rfl rfl, by decide⟩
  · split at h
    · rename_i hecho
      cases h
      exact ⟨opened_of_isPrefix hecho (by decide) (by decide) trivial rfl rfl, by decide⟩
    · split at h
      · cases h
        exact ⟨opened_keep, by decide⟩
      · split at h
        · rename_i hshort
          cases h
          exact ⟨opened_of_isPrefix hshort (by decide) (by decide) trivial rfl rfl, by decide⟩
        · cases h

theorem opened_echoOpenEscaped (h : echoOpenEscaped env scan rem = some (l, scan')) :
    Opened scan rem l scan' ∧ OneLine l.replacement := by
  rw [echoOpenEscaped] at h
  split at h
  · cases h
  · rename_i hopen
    split at h
    · cases h
    · split at h
      · rename_i hraw
        cases h
        have hstart : ['@', '{', '!', '!'] <+: rem := by
          by_contra hno
          have hecho : ['@', '{', '{'] <+: rem := by
            by_contra hno'
            exact hopen ⟨hno', hno⟩
          obtain ⟨rest, rfl⟩ := hecho
          simp at hraw
        exact ⟨opened_of_isPrefix hstart (by decide) (by decide) trivial rfl rfl, by decide⟩
      · rename_i hraw
        cases h
        have hstart : ['@', '{', '{'] <+: rem := by
          by_contra hno
          have hecho : ['@', '{', '!', '!'] <+: rem := by
            by_contra hno'
            exact hopen ⟨hno, hno'⟩
          obtain ⟨rest, rfl⟩ := hecho
          simp at hraw
        exact ⟨opened_of_isPrefix hstart (by decide) (by decide) trivial rfl rfl, by decide⟩

/-! ## Tags -/

theorem narrow_tagPrefix (kind : TagKind) : Narrow kind.tagPrefix := by
  cases kind <;> decide

theorem matches_ofKind {closing : Bool} {kind : TagKind} {tag : ComponentTag}
    (h : ComponentTag.ofKind rem closing kind = some (some tag))
    (hopen : Matches rem (if closing then 2 else 1)) :
    Matches rem tag.len ∧ 0 < tag.len ∧ tag.kind = kind ∧ tag.closing = closing ∧
      ∀ ch ∈ tag.name, isTagNameChar ch = true := by
  have hpos : 0 < if closing = true then 2 else 1 := by
    split <;> omega
  simp only [ComponentTag.ofKind] at h
  generalize (if closing = true then 2 else 1) = afterAngle at h hopen hpos
  split at h
  · rename_i hstart
    split at h
    · cases h
    · cases h
      refine ⟨?_, ?_, rfl, rfl, fun ch hch => List.mem_takeWhile_imp hch⟩
      · apply Matches.append
        · exact hopen.append (matches_of_isPrefix hstart (narrow_tagPrefix kind))
        · apply matches_takeWhile
          exact fun ch hch => lenUtf16_of_alphanumeric_or (by decide) hch
      · show 0 < afterAngle + _ + _
        omega
  · cases h

theorem matches_componentTagAt {tag : ComponentTag} (h : componentTagAt rem = some tag) :
    Matches rem tag.len ∧ 0 < tag.len ∧ ∀ ch ∈ tag.name, isTagNameChar ch = true := by
  rw [componentTagAt] at h
  split at h
  · rename_i hlt
    have hopen : Matches rem (if decide (rem.tail.head? = some '/') = true then 2 else 1) := by
      have hone : Matches rem 1 := matches_of_head? hlt (by decide)
      by_cases hslash : rem.tail.head? = some '/'
      · rw [if_pos (decide_eq_true hslash)]
        apply hone.append (m := 1)
        rw [List.drop_one]
        exact matches_of_head? hslash (by decide)
      · rw [if_neg (by simpa using hslash)]
        exact hone
    simp only at h
    split at h
    · rename_i tag' htag
      rw [h] at htag
      have hmatch := matches_ofKind htag hopen
      exact ⟨hmatch.1, hmatch.2.1, hmatch.2.2.2.2⟩
    · generalize htag : ComponentTag.ofKind rem _ .livewire = found at h
      cases found with
      | none => cases h
      | some tag' =>
          rw [Option.getD_some] at h
          rw [h] at htag
          have hmatch := matches_ofKind htag hopen
          exact ⟨hmatch.1, hmatch.2.1, hmatch.2.2.2.2⟩
  · cases h

theorem opened_tagOpen (h : tagOpen env scan rem = some (l, scan')) : Opened scan rem l scan' := by
  rw [tagOpen] at h
  split at h
  · split at h
    · cases h
    · rename_i tag htag
      cases h
      have hmatch := matches_componentTagAt htag
      exact ⟨hmatch.1, Or.inl hmatch.2.1, trivial, rfl, id⟩
  · cases h

theorem opened_tagClose (h : tagClose scan rem = some (l, scan')) : Opened scan rem l scan' := by
  rw [tagClose] at h
  split at h
  · cases h
  · split at h
    · rename_i hclose
      cases h
      refine ⟨?_, ?_, trivial, rfl, id⟩
      · by_cases hslash : rem.head? = some '/'
        · simp only [if_pos hslash]
          rcases hclose.2 with hgt | hboth
          · obtain ⟨rest, rfl⟩ := hgt
            simp at hslash
          · exact matches_of_isPrefix hboth (by decide)
        · simp only [if_neg hslash]
          rcases hclose.2 with hgt | hboth
          · exact matches_of_isPrefix hgt (by decide)
          · obtain ⟨rest, rfl⟩ := hboth
            simp at hslash
      · left
        show 0 < if _ then _ else _
        split <;> omega
    · cases h

/-! ## Bound attributes -/

theorem toUpper_ne_newline {ch : Char} (h : ch ≠ '\n') : ch.toUpper ≠ '\n' := by
  rw [Char.toUpper]
  split
  · rename_i hlower
    intro heq
    have hval := congrArg Char.toNat heq
    simp only [UInt32.le_iff_toNat_le] at hlower
    change (ch.val + ('A'.val - 'a'.val)).toNat = 10 at hval
    rw [UInt32.toNat_add] at hval
    have hconst : ('A'.val - 'a'.val).toNat = 4294967264 := by decide
    have hlow : 'a'.val.toNat = 97 := by decide
    have hhigh : 'z'.val.toNat = 122 := by decide
    omega
  · exact h

theorem oneLine_camelCaseAttrName {name : List Char} (h : OneLine name) (upperNext : Bool) :
    OneLine (camelCaseAttrName upperNext name) := by
  induction name generalizing upperNext with
  | nil => exact List.not_mem_nil
  | cons ch rest ih =>
      have hch : ch ≠ '\n' := fun heq => h (heq ▸ List.mem_cons_self)
      have hrest : OneLine rest := fun hmem => h (List.mem_cons_of_mem _ hmem)
      rw [camelCaseAttrName]
      split
      · exact ih hrest true
      · intro hmem
        rcases List.mem_cons.mp hmem with heq | hmem
        · split at heq
          · exact toUpper_ne_newline hch heq.symm
          · exact hch heq.symm
        · exact ih hrest false hmem

/-- What stands in front of a bound attribute's expression is on one line, and
so is what closes it. -/
theorem oneLine_boundAttrPrefix {name : List Char} (h : OneLine name) :
    OneLine (boundAttrPrefix scan name).1 ∧
      OneLine (boundAttrPrefix scan name).2.1.toList := by
  have hmarker : OneLine (" ".toList ++ Markers.boundAttr.toList ++ "(".toList) := by decide
  have hclose : OneLine ");".toList := by decide
  have hend : OneLine ";".toList := by decide
  rw [boundAttrPrefix]
  split
  · exact ⟨hmarker, hclose⟩
  · rename_i call hcall
    split
    · rename_i bound call' htake
      refine ⟨?_, hend⟩
      have hbound : bound = "$__blade_arg_".toList ++ camelCaseAttrName false name := by
        rw [OpenComponentCall.take] at htake
        split at htake
        · exact (congrArg Prod.fst (Option.some.inj htake)).symm
        · cases htake
      rw [oneLine_append, oneLine_append, hbound, oneLine_append]
      exact ⟨⟨by decide, by decide, oneLine_camelCaseAttrName h false⟩, by decide⟩
    · exact ⟨hmarker, hclose⟩

theorem matches_boundAttrOpenLen {openLen : Nat} (hcolon : rem.head? = some ':')
    (h : boundAttrOpenLen rem = some openLen) : Matches rem openLen ∧ 0 < openLen := by
  have hat {n : Nat} {ch : Char} (hmatch : Matches rem n) (hget : rem[n]? = some ch)
      (hch : lenUtf16 ch = 1) : Matches rem (n + 1) := by
    apply hmatch.append
    exact matches_of_head? (by rw [List.head?_drop]; exact hget) hch
  simp only [boundAttrOpenLen] at h
  split at h
  · cases h
  · split at h
    · rename_i hequal
      have hnamed := (matches_of_head? hcolon (by decide)).append
        (by rw [List.drop_one]
            exact matches_takeWhile (fun ch hch =>
              @lenUtf16_of_alphanumeric_or _ ['_', '-', '.'] (by decide) hch) _)
      split at h
      · rename_i hquote
        cases h
        refine ⟨?_, by omega⟩
        rcases hquote with hquote | hquote
        · exact hat (hat hnamed hequal (by decide)) hquote (by decide)
        · exact hat (hat hnamed hequal (by decide)) hquote (by decide)
      · cases h
    · cases h

theorem opened_boundAttrOpen {charIdx : Nat} (hrem : OneLine rem)
    (h : boundAttrOpen env scan rem charIdx = some (l, scan')) :
    Opened scan rem l scan' ∧ OneLine l.replacement := by
  have hpart {name : List Char} (hname : name.Sublist rem) : OneLine name :=
    fun hmem => hrem (hname.subset hmem)
  rw [boundAttrOpen] at h
  split at h
  · rename_i hopen
    split at h
    · have hstart := @oneLine_boundAttrPrefix scan _
        (hpart ((List.takeWhile_sublist isWordChar).trans (List.drop_sublist 2 rem)))
      cases h
      exact ⟨⟨matches_of_head? hopen.1 (by decide), Or.inl Nat.one_pos, trivial, rfl,
        fun _ => hstart.2⟩, hstart.1⟩
    · split at h
      · cases h
        exact ⟨opened_keep, by decide⟩
      · rename_i openLen hlen
        have hstart := @oneLine_boundAttrPrefix scan _
          (hpart ((List.drop_sublist 1 _).trans (List.take_sublist (openLen - 2) rem)))
        have hmatch := matches_boundAttrOpenLen hopen.1 hlen
        cases h
        exact ⟨⟨hmatch.1, Or.inl hmatch.2, trivial, rfl, fun _ => hstart.2⟩, hstart.1⟩
  · cases h

/-! ## Directives -/

theorem narrow_knownDirectives : ∀ directive ∈ knownDirectives, Narrow directive.toList := by
  have h : knownDirectives.all (fun directive => directive.toList.all (lenUtf16 · == 1)) = true := by
    decide
  intro directive hmem ch hch
  rw [List.all_eq_true] at h
  have hall := h directive hmem
  rw [List.all_eq_true] at hall
  exact beq_iff_eq.mp (hall ch hch)

theorem matches_directive {name : List Char} (hat : rem.head? = some '@')
    (hstart : name <+: rem.tail) (hnarrow : Narrow name) : Matches rem (1 + name.length) := by
  apply (matches_of_head? hat (by decide)).append
  rw [List.drop_one]
  exact matches_of_isPrefix hstart hnarrow

/-- What a directive lowers to, on one line. -/
def DirectiveOpened (scan : Scan) (rem : List Char) (opened : Lowering × Scan) : Prop :=
  Opened scan rem opened.1 opened.2 ∧ OneLine opened.1.replacement

theorem directiveOpened_ite {p : Prop} [Decidable p] {opened other : Lowering × Scan}
    (h : DirectiveOpened scan rem opened) (hother : DirectiveOpened scan rem other) :
    DirectiveOpened scan rem (if p then opened else other) := by
  by_cases hp : p
  · rw [if_pos hp]
    exact h
  · rw [if_neg hp]
    exact hother

theorem directiveOpened_of_mode {matchLen : Nat} {text : List Char} {mode : Mode}
    (hmatch : Matches rem (1 + matchLen)) (htext : OneLine text) (hsuffix : mode.SuffixOk)
    (hmode : scan'.mode = scan.mode) (hbound : scan'.boundAttr = scan.boundAttr) :
    DirectiveOpened scan rem (⟨1 + matchLen, text, mode⟩, scan') :=
  ⟨⟨hmatch, Or.inl (by show 0 < 1 + matchLen; omega), hsuffix, hmode, fun h => hbound ▸ h⟩, htext⟩

theorem oneLine_spaced {text : List Char} (h : OneLine text) : OneLine (spaced text) := by
  rw [spaced, oneLine_append, oneLine_append]
  exact ⟨⟨by decide, h⟩, by decide⟩

theorem oneLine_toList_append {text more : String} (h : OneLine text.toList)
    (hmore : OneLine more.toList) : OneLine (text ++ more).toList := by
  rw [String.toList_append, oneLine_append]
  exact ⟨h, hmore⟩

theorem oneLine_loopSuffix : OneLine loopSuffix.toList := by
  apply oneLine_toList_append
  · apply oneLine_toList_append
    · apply oneLine_toList_append
      · decide
      · decide
    · decide
  · decide

theorem directiveOpened_builtinOpen {directive : String} (hname : OneLine directive.toList)
    (hmatch : Matches rem (1 + directive.toList.length)) :
    DirectiveOpened scan rem (builtinOpen scan rem directive) := by
  have htranslated : OneLine (translateDirective directive) := oneLine_translateDirective hname
  have hspaced := oneLine_spaced htranslated
  have hhtml {text : List Char} (htext : OneLine text) :
      DirectiveOpened scan rem (⟨1 + directive.toList.length, text, .html⟩, scan) :=
    directiveOpened_of_mode hmatch htext trivial rfl rfl
  have hargs {text : List Char} {mode : Mode} (htext : OneLine text) (hsuffix : mode.SuffixOk) :
      DirectiveOpened scan rem (withArgs scan (1 + directive.toList.length) text mode) :=
    directiveOpened_of_mode hmatch htext hsuffix rfl rfl
  have hdirective (suffix : String) (hsuffix : OneLine suffix.toList) :
      (Mode.directiveArgs suffix).SuffixOk := hsuffix
  have hskip (suffix : String) (hsuffix : OneLine suffix.toList) :
      (Mode.skipArgs suffix).SuffixOk := hsuffix
  have hjump : OneLine (if directive = "break" then " break;" else " continue;").toList := by
    split <;> decide
  rw [builtinOpen]
  simp only
  repeat' apply directiveOpened_ite
  · exact hargs hspaced (hdirective _ (by decide))
  · exact directiveOpened_of_mode hmatch (by decide) trivial rfl rfl
  · exact hhtml (by decide)
  · exact directiveOpened_of_mode hmatch (by decide) trivial rfl rfl
  · exact hargs hspaced (hdirective _ (by decide))
  · exact hhtml (by decide)
  · exact hargs (by decide) (hskip _ (by decide))
  · exact hargs (by decide) (hskip _ (by decide))
  · exact hargs (by decide) (hskip _ (by decide))
  · exact hhtml (by decide)
  · exact hargs hspaced (hdirective _ oneLine_loopSuffix)
  · exact hargs (by decide) (hdirective _ hjump)
  · apply hhtml
    rw [oneLine_append, oneLine_append]
    exact ⟨⟨by decide, hname⟩, by decide⟩
  · exact hargs hspaced (hdirective _ (by decide))
  · exact hargs hspaced (hdirective _ (by decide))
  · exact hargs hspaced (hdirective _ (by decide))
  · exact hargs hspaced (hdirective _ (by decide))
  · exact hhtml (by decide)
  · exact hhtml hspaced
  · exact hargs (by decide) trivial
  · exact hhtml (by decide)
  · have htext : OneLine (" ".toList ++ translateDirective directive ++ "; ".toList) := by
      rw [oneLine_append, oneLine_append]
      exact ⟨⟨by decide, htranslated⟩, by decide⟩
    exact directiveOpened_of_mode hmatch htext trivial rfl rfl

theorem directiveOpened_customOpen {name : List Char} {form : CustomForm}
    (hmatch : Matches rem (1 + name.length)) :
    DirectiveOpened scan rem (customOpen scan rem name form) := by
  have hhtml {text : List Char} (htext : OneLine text) :
      DirectiveOpened scan rem (⟨1 + name.length, text, .html⟩, scan) :=
    directiveOpened_of_mode hmatch htext trivial rfl rfl
  have hargs {text : List Char} (suffix : String) (htext : OneLine text)
      (hsuffix : OneLine suffix.toList) :
      DirectiveOpened scan rem (withArgs scan (1 + name.length) text (.directiveArgs suffix)) :=
    directiveOpened_of_mode hmatch htext hsuffix rfl rfl
  cases form with
  | ender => exact hhtml (by decide)
  | statement =>
      apply directiveOpened_ite
      · exact hargs _ (by decide) (by decide)
      · exact hhtml (by decide)
  | opener =>
      apply directiveOpened_ite
      · exact hargs _ (by decide) (by decide)
      · exact hhtml (by decide)
  | elseForm =>
      apply directiveOpened_ite
      · exact hargs _ (by decide) (by decide)
      · exact hhtml (by decide)

theorem opened_directiveOpen (hrem : OneLine rem)
    (h : directiveOpen env scan rem = some (l, scan')) :
    Opened scan rem l scan' ∧ OneLine l.replacement := by
  rw [directiveOpen] at h
  split at h
  · rename_i hat
    split at h
    · rename_i directive hbuiltin
      have hknown := builtin_prefix hbuiltin
      have hname : OneLine directive.toList := fun hmem =>
        hrem ((List.tail_sublist rem).subset (hknown.2.subset hmem))
      have hopen := @directiveOpened_builtinOpen scan _ _ hname
        (matches_directive hat hknown.2 (narrow_knownDirectives directive hknown.1))
      rw [Option.some.inj h] at hopen
      exact hopen
    · split at h
      · rename_i name form hcustom
        have hregistered := custom_prefix hcustom
        have hnarrow : Narrow name := by
          intro ch hch
          rcases wordChar_of_isDirectiveName hregistered.1 hch with hword | rfl
          · exact lenUtf16_of_isWordChar hword
          · decide
        have hopen := @directiveOpened_customOpen scan _ _ form
          (matches_directive hat hregistered.2 hnarrow)
        rw [Option.some.inj h] at hopen
        exact hopen
      · cases h
        exact ⟨opened_keep, by decide⟩
  · cases h

/-- Whatever opens in markup. -/
theorem opened_htmlLowering {charIdx : Nat} (hrem : OneLine rem)
    (h : htmlLowering env scan rem charIdx = some (l, scan')) :
    Opened scan rem l scan' ∧
      (OneLine l.replacement ∨ tagOpen env scan rem = some (l, scan') ∨
        tagClose scan rem = some (l, scan')) := by
  simp only [htmlLowering, Option.or_eq_some_iff] at h
  rcases h with h | ⟨-, h | ⟨-, h | ⟨-, h | ⟨-, h | ⟨-, h | ⟨-, h⟩⟩⟩⟩⟩⟩
  · exact (opened_echoOpen h).imp_right Or.inl
  · exact (opened_phpIslandOpen h).imp_right Or.inl
  · exact ⟨opened_tagOpen h, Or.inr (Or.inl h)⟩
  · exact ⟨opened_tagClose h, Or.inr (Or.inr h)⟩
  · exact (opened_echoOpenEscaped h).imp_right Or.inl
  · split at h
    · exact (opened_directiveOpen hrem h).imp_right Or.inl
    · cases h
  · exact (opened_boundAttrOpen hrem h).imp_right Or.inl

/-! ## Closers -/

/-- What holds of a lowering in a mode that only markup follows. -/
structure Closes (mode : Mode) (rem : List Char) (l : Lowering) : Prop where
  matched : Matches rem l.matchLen
  next : l.nextMode = .html ∨ l = .keep mode
  oneLine : OneLine l.replacement

theorem closes_keep (mode : Mode) (rem : List Char) : Closes mode rem (.keep mode) :=
  ⟨matches_zero rem, Or.inr rfl, List.not_mem_nil⟩

theorem closes_of_isPrefix {mode : Mode} {text replacement : List Char} (h : text <+: rem)
    (hnarrow : Narrow text) (hline : OneLine replacement) :
    Closes mode rem ⟨text.length, replacement, .html⟩ :=
  ⟨matches_of_isPrefix h hnarrow, Or.inl rfl, hline⟩

theorem closes_closeEscaped (raw : Bool) :
    Closes (.escapedEcho raw) rem (closeEscaped env rem raw) := by
  rw [closeEscaped]
  split
  · rename_i h
    exact closes_of_isPrefix h.2 (by decide) (by decide)
  · split
    · rename_i h
      exact closes_of_isPrefix h.2 (by decide) (by decide)
    · split
      · exact ⟨matches_zero rem, Or.inl rfl, List.not_mem_nil⟩
      · exact closes_keep _ rem

theorem closes_closeComment (charIdx : Nat) :
    Closes .comment rem (closeComment env rem charIdx) := by
  rw [closeComment]
  split
  · rename_i h
    exact closes_of_isPrefix h.1 (by decide) (by decide)
  · exact closes_keep _ rem

theorem closes_phpIslandClose (needsSemicolon : Bool) :
    Closes (.rawPhp needsSemicolon) rem (phpIslandClose rem needsSemicolon) := by
  rw [phpIslandClose]
  split
  · rename_i h
    apply closes_of_isPrefix h (by decide)
    split <;> decide
  · exact closes_keep _ rem

theorem closes_closePhp (rawEcho : Bool) :
    Closes (.php rawEcho) rem (closePhp env scan rem rawEcho).1 ∧
      (closePhp env scan rem rawEcho).2.mode = scan.mode ∧
      (closePhp env scan rem rawEcho).2.boundAttr = scan.boundAttr := by
  rw [closePhp]
  split
  · rename_i h
    exact ⟨closes_of_isPrefix h.2 (by decide) (by decide), rfl, rfl⟩
  · split
    · rename_i h
      exact ⟨closes_of_isPrefix h.2 (by decide) (by decide), rfl, rfl⟩
    · split
      · rename_i h
        exact ⟨closes_of_isPrefix h (by decide) List.not_mem_nil, rfl, rfl⟩
      · split
        · refine ⟨⟨matches_zero rem, Or.inl rfl, ?_⟩, rfl, rfl⟩
          show OneLine (if rawEcho = true then "; ".toList else "); ".toList)
          cases rawEcho <;> decide
        · exact ⟨closes_keep _ rem, rfl, rfl⟩

end PhpantomLsp.Blade
