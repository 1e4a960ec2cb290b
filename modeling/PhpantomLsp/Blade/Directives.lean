import Mathlib.Data.Char
import Mathlib.Data.List.Lex
import Mathlib.Data.List.Sort
import Mathlib.Data.List.Infix

/-!
# Blade directives

A directive is known by its name: one of Blade's own, when the installed
compiler has it, or one a service provider registered.  A registered name is
made of word characters, with at most one `::` inside (`BladeDirectives.named`),
so it is as wide in a template as it is long.

`translateDirective` gives the PHP a built-in directive becomes.  All of it is on
one line.
-/

namespace PhpantomLsp.Blade

def knownDirectives : List String :=
  ["if", "elseif", "else", "endif", "foreach", "endforeach", "forelse", "endforelse", "for",
   "endfor", "while", "endwhile", "unless", "endunless", "isset", "endisset", "empty", "endempty",
   "switch", "endswitch", "case", "default", "break", "php", "endphp", "use", "inject", "class",
   "style", "checked", "selected", "disabled", "readonly", "required", "json", "dump", "extends",
   "extendsFirst", "section", "endsection", "yield", "include", "includeIf", "includeWhen",
   "includeUnless", "includeFirst", "stack", "push", "endpush", "prepend", "endprepend",
   "component", "componentFirst", "endcomponent", "endcomponentFirst", "slot", "endslot", "props",
   "aware", "stop", "show", "append", "overwrite", "auth", "endauth", "guest", "endguest",
   "production", "endproduction", "env", "endenv", "session", "endsession", "context",
   "endcontext", "hasSection", "sectionMissing", "parent", "includeIsolated", "each", "pushIf",
   "endPushIf", "pushOnce", "endPushOnce", "prependOnce", "endPrependOnce", "hasStack", "csrf",
   "method", "error", "enderror", "continue", "once", "endonce", "verbatim", "endverbatim",
   "fragment", "endfragment", "can", "cannot", "canany", "elsecan", "elsecannot", "elsecanany",
   "endcan", "endcannot", "endcanany", "lang", "endlang", "choice", "unset", "js", "vite",
   "viteReactRefresh", "fonts", "dd"]

/-- `is_ascii_alphabetic` -/
def isAsciiAlphabetic (ch : Char) : Bool := ('a' ≤ ch && ch ≤ 'z') || ('A' ≤ ch && ch ≤ 'Z')

/-- `is_ascii_alphanumeric` -/
def isAsciiAlphanumeric (ch : Char) : Bool := isAsciiAlphabetic ch || ('0' ≤ ch && ch ≤ '9')

/-- A `\w` character. -/
def isWordChar (ch : Char) : Bool := isAsciiAlphanumeric ch || ch == '_'

/-- `name` is read off the front of the text, and the next character does not go on with it. -/
def namedBy (name afterAt : List Char) : Bool :=
  decide (name <+: afterAt) && !((afterAt.drop name.length).head?.any isWordChar)

def knownDirectiveIndex (afterAt : List Char) : Option Nat :=
  knownDirectives.findIdx? fun name => namedBy name.toList afterAt

inductive CustomForm where
  | statement
  | opener
  | elseForm
  | ender
deriving DecidableEq

structure CustomEntry where
  name : List Char
  form : CustomForm

/-- The parts of a name between its `::`. -/
def segments : List Char → List (List Char)
  | [] => [[]]
  | ':' :: ':' :: rest => [] :: segments rest
  | ch :: rest =>
      match segments rest with
      | [] => [[ch]]
      | first :: others => (ch :: first) :: others

def segmentOk (segment : List Char) : Bool := !segment.isEmpty && segment.all isWordChar

def isDirectiveName (name : List Char) : Bool :=
  match segments name with
  | [only] => segmentOk only
  | [first, second] => segmentOk first && segmentOk second
  | _ => false

structure BladeDirectives where
  /-- Which of the known directives the installed compiler has; all of them
  when there was no compiler to read. -/
  installed : Option (List Bool)
  /-- Longest name first. -/
  entries : List CustomEntry
  named : ∀ entry ∈ entries, isDirectiveName entry.name = true

structure CustomDirective where
  name : List Char
  conditional : Bool

/-! ## Registrations -/

/-- A later registration of a name replaces the one before it. -/
def record (entries : List CustomEntry) (entry : CustomEntry) : List CustomEntry :=
  if entries.any (·.name = entry.name) then
    entries.map fun e => if e.name = entry.name then { e with form := entry.form } else e
  else entries ++ [entry]

def register (entries : List CustomEntry) (registration : CustomDirective) : List CustomEntry :=
  let name := registration.name
  if isDirectiveName name then
    if registration.conditional then
      [⟨name, .opener⟩, ⟨"unless".toList ++ name, .opener⟩, ⟨"else".toList ++ name, .elseForm⟩,
        ⟨"end".toList ++ name, .ender⟩].foldl record entries
    else record entries ⟨name, .statement⟩
  else entries

/-- Longer names first, equally long ones in order. -/
def entryLe (a b : CustomEntry) : Bool :=
  decide (b.name.length < a.name.length) ||
    (a.name.length == b.name.length && decide (a.name ≤ b.name))

def registeredEntries (registrations : List CustomDirective) : List CustomEntry :=
  (registrations.foldl register []).mergeSort entryLe

namespace BladeDirectives

def hasIndex (directives : BladeDirectives) (index : Nat) : Bool :=
  match directives.installed with
  | none => true
  | some installed => installed[index]?.getD false

/-- The built-in directive the text right after an `@` names. -/
def builtin (directives : BladeDirectives) (afterAt : List Char) : Option String :=
  match knownDirectiveIndex afterAt with
  | some index => if directives.hasIndex index then knownDirectives[index]? else none
  | none => none

/-- The registered directive the text right after an `@` names. -/
def custom (directives : BladeDirectives) (afterAt : List Char) :
    Option (List Char × CustomForm) :=
  (directives.entries.find? fun entry => namedBy entry.name afterAt).map fun entry =>
    (entry.name, entry.form)

end BladeDirectives

/-! ## Names -/

theorem segments_ne_nil (name : List Char) : segments name ≠ [] := by
  fun_induction segments name <;> simp

/-- Every character of a name is in one of its segments or a colon. -/
theorem mem_segments {name : List Char} {ch : Char} (h : ch ∈ name) :
    ch = ':' ∨ ∃ segment ∈ segments name, ch ∈ segment := by
  fun_induction segments name with
  | case1 => simp at h
  | case2 rest ih =>
      rcases List.mem_cons.mp h with rfl | h
      · exact Or.inl rfl
      · rcases List.mem_cons.mp h with rfl | h
        · exact Or.inl rfl
        · rcases ih h with heq | ⟨segment, hsegment, hch⟩
          · exact Or.inl heq
          · exact Or.inr ⟨segment, List.mem_cons_of_mem _ hsegment, hch⟩
  | case3 first rest _ hnil ih => exact absurd hnil (segments_ne_nil rest)
  | case4 first rest _ segment others hsegments ih =>
      rcases List.mem_cons.mp h with rfl | h
      · exact Or.inr ⟨_, List.mem_cons_self, List.mem_cons_self⟩
      · rcases ih h with heq | ⟨other, hother, hch⟩
        · exact Or.inl heq
        · rw [hsegments] at hother
          rcases List.mem_cons.mp hother with rfl | hother
          · exact Or.inr ⟨_, List.mem_cons_self, List.mem_cons_of_mem _ hch⟩
          · exact Or.inr ⟨other, List.mem_cons_of_mem _ hother, hch⟩

theorem isWordChar_of_segmentOk {segment : List Char} (h : segmentOk segment = true) {ch : Char}
    (hch : ch ∈ segment) : isWordChar ch = true := by
  rw [segmentOk, Bool.and_eq_true, List.all_eq_true] at h
  exact h.2 ch hch

/-- A directive name is made of word characters and colons. -/
theorem wordChar_of_isDirectiveName {name : List Char} (h : isDirectiveName name = true)
    {ch : Char} (hch : ch ∈ name) : isWordChar ch = true ∨ ch = ':' := by
  rcases mem_segments hch with heq | ⟨segment, hsegment, hmem⟩
  · exact Or.inr heq
  · left
    rw [isDirectiveName] at h
    split at h
    · rename_i only honly
      rw [honly, List.mem_singleton] at hsegment
      rw [hsegment] at hmem
      exact isWordChar_of_segmentOk h hmem
    · rename_i first second hboth
      rw [Bool.and_eq_true] at h
      rw [hboth] at hsegment
      rcases List.mem_cons.mp hsegment with rfl | hsegment
      · exact isWordChar_of_segmentOk h.1 hmem
      · rw [List.mem_singleton.mp hsegment] at hmem
        exact isWordChar_of_segmentOk h.2 hmem
    · exact absurd h (by simp)

theorem namedBy_prefix {name afterAt : List Char} (h : namedBy name afterAt = true) :
    name <+: afterAt := by
  rw [namedBy, Bool.and_eq_true, decide_eq_true_eq] at h
  exact h.1

theorem builtin_prefix {directives : BladeDirectives} {afterAt : List Char} {name : String}
    (h : directives.builtin afterAt = some name) :
    name ∈ knownDirectives ∧ name.toList <+: afterAt := by
  rw [BladeDirectives.builtin] at h
  split at h
  · rename_i index hindex
    split at h
    · rw [knownDirectiveIndex, List.findIdx?_eq_some_iff_getElem] at hindex
      obtain ⟨hlt, hname, -⟩ := hindex
      rw [List.getElem?_eq_getElem hlt] at h
      rw [← Option.some.inj h]
      exact ⟨List.getElem_mem hlt, namedBy_prefix hname⟩
    · exact absurd h (by simp)
  · exact absurd h (by simp)

theorem custom_prefix {directives : BladeDirectives} {afterAt name : List Char} {form : CustomForm}
    (h : directives.custom afterAt = some (name, form)) :
    isDirectiveName name = true ∧ name <+: afterAt := by
  rw [BladeDirectives.custom, Option.map_eq_some_iff] at h
  obtain ⟨entry, hfind, heq⟩ := h
  have hnamed : namedBy entry.name afterAt = true :=
    List.find?_some (p := fun entry : CustomEntry => namedBy entry.name afterAt) hfind
  rw [← (Prod.mk.inj heq).1]
  exact ⟨directives.named entry (List.mem_of_find?_eq_some hfind), namedBy_prefix hnamed⟩

/-! ## Registered names -/

/-- Word characters in front of a name go to its first segment. -/
theorem segments_append {letters name : List Char} (h : ∀ ch ∈ letters, ch ≠ ':') :
    segments (letters ++ name) =
      (letters ++ (segments name).headD []) :: (segments name).tail := by
  induction letters with
  | nil =>
      obtain ⟨first, others, hname⟩ := List.exists_cons_of_ne_nil (segments_ne_nil name)
      simp [hname]
  | cons ch letters ih =>
      have hch : ch ≠ ':' := h ch List.mem_cons_self
      rw [List.cons_append, segments.eq_3 _ _ (fun _ heq _ => hch heq),
        ih fun c hc => h c (List.mem_cons_of_mem _ hc)]
      rfl

theorem isDirectiveName_append {letters name : List Char} (h : letters.all isWordChar = true)
    (hname : isDirectiveName name = true) : isDirectiveName (letters ++ name) = true := by
  have hcolon : ∀ ch ∈ letters, ch ≠ ':' := by
    intro ch hch heq
    rw [List.all_eq_true] at h
    have hword := h ch hch
    rw [heq] at hword
    exact absurd hword (by decide)
  have hok {segment : List Char} (hsegment : segmentOk segment = true) :
      segmentOk (letters ++ segment) = true := by
    rw [segmentOk, Bool.and_eq_true] at hsegment ⊢
    refine ⟨?_, by rw [List.all_append, h, hsegment.2, Bool.true_and]⟩
    cases segment with
    | nil => simp at hsegment
    | cons ch rest => simp
  rw [isDirectiveName, segments_append hcolon]
  rw [isDirectiveName] at hname
  split at hname
  · rename_i only honly
    rw [honly]
    exact hok hname
  · rename_i first second hboth
    rw [hboth]
    rw [Bool.and_eq_true] at hname
    show (segmentOk (letters ++ first) && segmentOk second) = true
    rw [hok hname.1, hname.2, Bool.true_and]
  · exact absurd hname (by simp)

/-- All names are names of directives. -/
def AllNamed (entries : List CustomEntry) : Prop :=
  ∀ entry ∈ entries, isDirectiveName entry.name = true

theorem allNamed_record {entries : List CustomEntry} {entry : CustomEntry}
    (h : AllNamed entries) (hentry : isDirectiveName entry.name = true) :
    AllNamed (record entries entry) := by
  intro e he
  rw [record] at he
  split at he
  · obtain ⟨e', he', rfl⟩ := List.mem_map.mp he
    split
    · exact h e' he'
    · exact h e' he'
  · rcases List.mem_append.mp he with he | he
    · exact h e he
    · rw [List.mem_singleton.mp he]
      exact hentry

theorem allNamed_foldl_record {entries recorded : List CustomEntry} (h : AllNamed entries)
    (hrecorded : AllNamed recorded) : AllNamed (recorded.foldl record entries) := by
  induction recorded generalizing entries with
  | nil => exact h
  | cons entry rest ih =>
      apply ih
      · exact allNamed_record h (hrecorded entry List.mem_cons_self)
      · exact fun e he => hrecorded e (List.mem_cons_of_mem _ he)

theorem allNamed_register {entries : List CustomEntry} (registration : CustomDirective)
    (h : AllNamed entries) : AllNamed (register entries registration) := by
  rw [register]
  split
  · rename_i hname
    split
    · apply allNamed_foldl_record h
      intro entry hentry
      simp only [List.mem_cons, List.not_mem_nil, or_false] at hentry
      rcases hentry with rfl | rfl | rfl | rfl
      · exact hname
      · exact isDirectiveName_append (by decide) hname
      · exact isDirectiveName_append (by decide) hname
      · exact isDirectiveName_append (by decide) hname
    · exact allNamed_record h hname
  · exact h

theorem allNamed_registeredEntries (registrations : List CustomDirective) :
    AllNamed (registeredEntries registrations) := by
  have hfold : ∀ entries, AllNamed entries → AllNamed (registrations.foldl register entries) := by
    induction registrations with
    | nil => exact fun _ h => h
    | cons registration rest ih => exact fun _ h => ih _ (allNamed_register registration h)
  intro entry hentry
  rw [registeredEntries, List.mem_mergeSort] at hentry
  exact hfold [] (by intro entry hentry; simp at hentry) entry hentry

/-- The directives of a project: the known ones its compiler has a method for,
and the registered ones. -/
def BladeDirectives.new (compilerHasMethod : Option (String → Bool))
    (registrations : List CustomDirective) : BladeDirectives where
  installed := compilerHasMethod.map fun hasMethod => knownDirectives.map fun name =>
    ["verbatim", "endverbatim", "php", "endphp"].contains name || hasMethod ("compile" ++ name)
  entries := registeredEntries registrations
  named := allNamed_registeredEntries registrations

/-! ## Translation -/

namespace Markers

def directive : String := "blade_directive"
def boundAttr : String := "blade_bound_attr_directive"
def view : String := "blade_view_directive"
def component : String := "blade_component_directive"
def each : String := "blade_each_directive"
def can : String := "blade_can_directive"
def vite : String := "blade_vite_directive"
def sectionMarker : String := "blade_section_directive"
def stack : String := "blade_stack_directive"
def pushIf : String := "blade_push_if_directive"
def custom : String := "blade_custom_directive"

end Markers

/-- The directives that name a section or a stack: the marker, and whether they
open a condition. -/
def namedBlockDirective (directive : String) : Option (String × Bool) :=
  if directive ∈ ["section", "yield"] then some (Markers.sectionMarker, false)
  else if directive ∈ ["hasSection", "sectionMissing"] then some (Markers.sectionMarker, true)
  else if directive ∈ ["stack", "push", "pushOnce", "prepend", "prependOnce"] then
    some (Markers.stack, false)
  else if directive = "pushIf" then some (Markers.pushIf, false)
  else if directive = "hasStack" then some (Markers.stack, true)
  else none

def translateDirective (directive : String) : List Char :=
  match namedBlockDirective directive with
  | some (marker, true) => "if (".toList ++ marker.toList
  | some (marker, false) => marker.toList
  | none =>
      if directive ∈ ["php", "endphp"] then []
      else if directive ∈ ["if", "elseif", "foreach", "for", "while", "switch", "case"] then
        directive.toList
      else if directive = "forelse" then "foreach".toList
      else if directive = "unless" then "if(!".toList
      else if directive = "else" then "else:".toList
      else if directive ∈ ["endunless", "endisset", "endempty", "endsession", "endcontext",
        "enderror", "endauth", "endguest", "endproduction", "endenv", "endonce", "endcan",
        "endcannot", "endcanany", "endforelse"] then "endif;".toList
      else if directive ∈ ["endif", "endforeach", "endfor", "endwhile", "endswitch"] then
        directive.toList ++ ";".toList
      else if directive = "isset" then "if(isset".toList
      else if directive = "empty" then "if(empty".toList
      else if directive = "break" then "break;".toList
      else if directive = "default" then "default:".toList
      else if directive ∈ ["extends", "extendsFirst", "include", "includeIf", "includeWhen",
        "includeUnless", "includeFirst"] then Markers.view.toList
      else if directive ∈ ["component", "componentFirst"] then Markers.component.toList
      else if directive = "each" then Markers.each.toList
      else if directive ∈ ["slot", "props", "aware", "class", "style", "checked", "selected",
        "disabled", "readonly", "required", "json", "dump", "js", "fonts", "dd"] then
        Markers.directive.toList
      else if directive = "vite" then Markers.vite.toList
      else if directive = "lang" then "__".toList
      else if directive = "choice" then "trans_choice".toList
      else if directive = "unset" then "unset".toList
      else if directive ∈ ["can", "cannot", "canany"] then "if (".toList ++ Markers.can.toList
      else if directive ∈ ["elsecan", "elsecannot", "elsecanany"] then
        "elseif (".toList ++ Markers.can.toList
      else if directive ∈ ["endsection", "endpush", "endprepend", "endcomponent",
        "endcomponentFirst", "endslot", "stop", "show", "append", "overwrite"] then []
      else "/* @".toList ++ directive.toList ++ " */".toList

/-- A text on one line. -/
def OneLine (text : List Char) : Prop := '\n' ∉ text

instance (text : List Char) : Decidable (OneLine text) := inferInstanceAs (Decidable (_ ∉ _))

theorem oneLine_append {text more : List Char} :
    OneLine (text ++ more) ↔ OneLine text ∧ OneLine more := by
  simp [OneLine, not_or]

theorem oneLine_ite {p : Prop} [Decidable p] {text other : List Char} (h : OneLine text)
    (hother : OneLine other) : OneLine (if p then text else other) := by
  by_cases hp : p
  · rw [if_pos hp]
    exact h
  · rw [if_neg hp]
    exact hother

theorem oneLine_namedBlockDirective {directive marker : String} {condition : Bool}
    (h : namedBlockDirective directive = some (marker, condition)) : OneLine marker.toList := by
  rw [namedBlockDirective] at h
  repeat' split at h
  all_goals first
    | (cases h; decide)
    | cases h

theorem oneLine_translateDirective {directive : String} (h : OneLine directive.toList) :
    OneLine (translateDirective directive) := by
  rw [translateDirective]
  split
  · rename_i marker hmarker
    exact oneLine_append.mpr ⟨by decide, oneLine_namedBlockDirective hmarker⟩
  · rename_i marker hmarker
    exact oneLine_namedBlockDirective hmarker
  · repeat' apply oneLine_ite
    all_goals first
      | decide
      | exact h
      | (rw [oneLine_append]; exact ⟨h, by decide⟩)
      | (rw [oneLine_append, oneLine_append]; exact ⟨⟨by decide, h⟩, by decide⟩)

end PhpantomLsp.Blade
