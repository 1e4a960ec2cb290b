import PhpantomLsp.Lib.Occurrences
import PhpantomLsp.Lib.PartitionPoint
import PhpantomLsp.Text.PhpBytes
import PhpantomLsp.TextScan.Brackets

/-!
# The namespace in force

The declaration in force at an offset is the last one whose keyword ends at or before
it.  `namespaceDeclAt` scans backward for it each time; `NamespaceDecls` holds every
declaration of the text and searches among them.
-/

namespace PhpantomLsp.TextScan

open Lib (partitionPoint Partitioned)
open Lib.Occurrences

/-! ## Declarations -/

/-- `KEYWORD`. -/
def keyword : List Byte := ['n', 'a', 'm', 'e', 's', 'p', 'a', 'c', 'e'].map Char.toUInt8

/-- `u8::is_ascii_whitespace`. -/
def isAsciiWhitespace (b : Byte) : Bool :=
  b == ' '.toUInt8 || b == '\t'.toUInt8 || b == '\n'.toUInt8 || b == 0x0C || b == '\r'.toUInt8

/-- `u8::to_ascii_lowercase`. -/
def toAsciiLower (b : Byte) : Byte :=
  if 'A'.toUInt8 ≤ b && b ≤ 'Z'.toUInt8 then b + 32 else b

/-- The end of a statement or of the opening tag at the byte at `prev`. -/
def endsStatement (before : List Byte) (prev : Nat) : Bool :=
  before[prev]?.any (fun b => b == ';'.toUInt8 || b == '\x7b'.toUInt8 || b == '\x7d'.toUInt8 ||
      b == '>'.toUInt8) ||
    (4 ≤ prev && ((before.take (prev + 1)).drop (prev - 4)).map toAsciiLower ==
      ['<', '?', 'p', 'h', 'p'].map Char.toUInt8)

/-- Where the last line comment of a line without its line break starts. -/
def lineCommentMarker (line : List Byte) : Option Nat :=
  (rposition (fun
      | b :: c :: _ => (b == '/'.toUInt8 && c == '/'.toUInt8) ||
          (b == '#'.toUInt8 && c != '['.toUInt8)
      | _ => false) line).or
    (if line.getLast? = some '#'.toUInt8 then some (line.length - 1) else none)

theorem lineCommentMarker_lt {line : List Byte} {m : Nat} (h : lineCommentMarker line = some m) :
    m < line.length := by
  rw [lineCommentMarker, Option.or_eq_some_iff] at h
  rcases h with h | ⟨-, h⟩
  · exact rposition_lt h
  · split at h
    · next hlast =>
        rw [Option.some.injEq] at h
        have hpos : 0 < line.length := by
          rw [List.length_pos_iff]
          rintro rfl
          cases hlast
        omega
    · cases h

/-- Where the line of the last byte starts. -/
def lineStart (code : List Byte) : Nat :=
  match rposition (fun suffix => suffix.head? == some '\n'.toUInt8) code with
  | some n => n + 1
  | none => 0

/-- What a turn of the loop over the text before the keyword does: it answers, or it
drops a comment and goes on. -/
def peel (text : List Byte) (pos : Nat) (before : List Byte) : Bool ⊕ List Byte :=
  match rposition (fun suffix => suffix.head?.any fun b => !isAsciiWhitespace b) before with
  | none => .inl true
  | some prev =>
      if endsStatement before prev then .inl true
      else
        let code := before.take (prev + 1)
        if ['*'.toUInt8, '/'.toUInt8].isSuffixOf code then
          match rfind ['/'.toUInt8, '*'.toUInt8] (code.take (code.length - 2)) with
          | some opened => .inr (code.take opened)
          | none => .inl false
        else if !((text.take pos).drop code.length).contains '\n'.toUInt8 then .inl false
        else
          match lineCommentMarker (code.drop (lineStart code)) with
          | some m => .inr (code.take (lineStart code + m))
          | none => .inl false

/-- The last byte that is no blank is no line break, so it is on the line found. -/
theorem lineStart_le {code : List Byte} {prev : Nat} {b : Byte} (hlen : code.length = prev + 1)
    (hlast : code[prev]? = some b) (hb : isAsciiWhitespace b = false) : lineStart code ≤ prev := by
  rw [lineStart]
  split
  · next n hn =>
      have hbreak := rposition_isLast (fun suffix => suffix.head? == some '\n'.toUInt8) code
      rw [hn] at hbreak
      have hhead := eq_of_beq hbreak.1.2
      rw [List.head?_drop] at hhead
      have hlt := hbreak.1.1
      have hne : n ≠ prev := by
        rintro rfl
        rw [hlast, Option.some.injEq] at hhead
        rw [hhead] at hb
        exact absurd hb (by decide)
      omega
  · exact Nat.zero_le prev

/-- A turn that goes on drops something. -/
theorem peel_length_lt {text before before' : List Byte} {pos : Nat}
    (h : peel text pos before = .inr before') : before'.length < before.length := by
  rw [peel] at h
  cases hprev : rposition (fun suffix => suffix.head?.any fun b => !isAsciiWhitespace b) before with
  | none =>
      rw [hprev] at h
      cases h
  | some prev =>
      have hword := rposition_isLast
        (fun suffix => suffix.head?.any fun b => !isAsciiWhitespace b) before
      rw [hprev] at hword
      have hlt := hword.1.1
      have hlen : (before.take (prev + 1)).length = prev + 1 := by
        rw [List.length_take]
        omega
      have hmem := hword.1.2
      rw [List.head?_drop, Option.any_eq_true] at hmem
      rw [hprev] at h
      simp only at h
      split at h
      · cases h
      · split at h
        · split at h
          · next opened hopened =>
              have hopen := rposition_lt hopened
              rw [Sum.inr.injEq] at h
              rw [← h]
              simp only [List.length_take] at hopen ⊢
              omega
          · cases h
        · split at h
          · cases h
          · split at h
            · next m hm =>
                obtain ⟨b, hb, hblank⟩ := hmem
                have hlast : (before.take (prev + 1))[prev]? = some b := by
                  rw [List.getElem?_take_of_lt (Nat.lt_succ_self prev)]
                  exact hb
                have hstart := lineStart_le hlen hlast (by simpa using hblank)
                have hlength := lineCommentMarker_lt hm
                rw [Sum.inr.injEq] at h
                rw [← h]
                simp only [List.length_drop, List.length_take] at hlength ⊢
                omega
            · cases h

/-- The loop of `is_namespace_statement`. -/
def opensStatement (text : List Byte) (pos : Nat) (before : List Byte) : Bool :=
  match _h : peel text pos before with
  | .inl answer => answer
  | .inr before' => opensStatement text pos before'
  termination_by before.length
  decreasing_by exact peel_length_lt _h

/-- `is_namespace_statement`. -/
def isNamespaceStatement (text : List Byte) (pos len : Nat) : Bool :=
  text[pos + len]?.any (fun b => isAsciiWhitespace b || b == '\x7b'.toUInt8) &&
    opensStatement text pos (text.take pos)

/-- The bytes of a name: `[A-Za-z0-9_\\]` and all that are not ASCII. -/
def isNameByte (b : Byte) : Bool :=
  ('0'.toUInt8 ≤ b && b ≤ '9'.toUInt8) || ('a'.toUInt8 ≤ toAsciiLower b &&
    toAsciiLower b ≤ 'z'.toUInt8) || b == '_'.toUInt8 || b == backslash || 0x80 ≤ b

/-- Where the slice that `namespace_name_after` returns lies. -/
def nameRange (text : List Byte) (afterKeyword : Nat) : Option (Nat × Nat) :=
  match (text.drop afterKeyword).findIdx? fun b => !isAsciiWhitespace b with
  | none => none
  | some blanks =>
      let start := afterKeyword + blanks
      let len := ((text.drop start).findIdx? fun b => !isNameByte b).getD (text.length - start)
      if 0 < len then some (start, start + len) else none

/-- `&text[start..stop]`. -/
def slice (text : List Byte) (range : Nat × Nat) : List Byte :=
  (text.take range.2).drop range.1

/-- `namespace_name_after`. -/
def namespaceNameAfter (text : List Byte) (afterKeyword : Nat) : Option (List Byte) :=
  (nameRange text afterKeyword).map (slice text)

/-! ## The backward scan -/

theorem rfind_take_lt {text : List Byte} {stop pos : Nat}
    (h : rfind keyword (text.take stop) = some pos) : pos < stop := by
  have hlt := rposition_lt h
  rw [List.length_take] at hlt
  omega

/-- The loop of `namespace_decl_at`. -/
def lastDecl (text : List Byte) (stop : Nat) : Option Nat :=
  match _h : rfind keyword (text.take stop) with
  | none => none
  | some pos =>
      if isNamespaceStatement text pos keyword.length then some pos else lastDecl text pos
  termination_by stop
  decreasing_by exact rfind_take_lt _h

/-- `namespace_decl_at`. -/
def namespaceDeclAt (text : List Byte) (offset : Nat) : Option Nat :=
  lastDecl text (min offset text.length)

/-- `namespace_at_offset`. -/
def namespaceAtOffset (text : List Byte) (offset : Nat) : Option (List Byte) :=
  (namespaceDeclAt text offset).bind fun pos => namespaceNameAfter text (pos + keyword.length)

/-! ## All declarations at once -/

/-- Each declaration's keyword, and where the name it declares lies. -/
structure NamespaceDecls where
  decls : List (Nat × Option (Nat × Nat))

namespace NamespaceDecls

def scan (text : List Byte) : NamespaceDecls where
  decls := ((findIter keyword text).filter fun pos =>
    isNamespaceStatement text pos keyword.length).map fun pos =>
      (pos, nameRange text (pos + keyword.length))

/-- `index_at`. -/
def indexAt (self : NamespaceDecls) (offset : Nat) : Option Nat :=
  match partitionPoint (fun decl => decide (decl.1 + keyword.length ≤ offset)) self.decls with
  | 0 => none
  | count + 1 => some count

/-- `at`. -/
def at' (self : NamespaceDecls) (text : List Byte) (offset : Nat) : Option (List Byte) :=
  (self.indexAt (min offset text.length)).bind fun i =>
    self.decls[i]?.bind fun decl => decl.2.map (slice text)

/-- `decl_at`. -/
def declAt (self : NamespaceDecls) (offset : Nat) : Option Nat :=
  (self.indexAt offset).bind fun i => self.decls[i]?.map Prod.fst

end NamespaceDecls

/-! ## What both find -/

/-- A declaration of the namespace stands at `pos`. -/
def Declares (text : List Byte) (pos : Nat) : Prop :=
  keyword <+: text.drop pos ∧ isNamespaceStatement text pos keyword.length = true

/-- The declarations whose keyword ends by `offset`. -/
def DeclaresBy (text : List Byte) (offset pos : Nat) : Prop :=
  pos + keyword.length ≤ offset ∧ Declares text pos

theorem keyword_unbordered : Unbordered keyword where
  ne_nil := by decide
  apart := by decide

/-- The backward scan passes every keyword that declares nothing. -/
theorem lastDecl_isLast (text : List Byte) (stop : Nat) :
    IsLast (DeclaresBy text stop) (lastDecl text stop) := by
  induction stop using Nat.strongRecOn with
  | ind stop ih =>
      have hlast := rfind_isLast keyword_unbordered.ne_nil text stop
      rw [lastDecl]
      split
      · next hnone =>
          rw [hnone] at hlast
          exact fun n hn => hlast n ⟨hn.1, hn.2.1⟩
      · next pos hpos =>
          rw [hpos] at hlast
          split
          · next hstatement =>
              exact ⟨⟨hlast.1.1, hlast.1.2, hstatement⟩, fun n hn => hlast.2 ⟨hn.1, hn.2.1⟩⟩
          · next hnot =>
              refine (ih pos (rfind_take_lt hpos)).congr fun n => ?_
              constructor
              · exact fun hn => ⟨by have := hlast.1.1; have := hn.1; omega, hn.2⟩
              · intro hn
                -- an occurrence before the one passed ends before it
                have hle : n ≤ pos := hlast.2 ⟨hn.1, hn.2.1⟩
                have hne : n ≠ pos := by
                  rintro rfl
                  exact hnot hn.2.2
                have hoverlap := keyword_unbordered.le_of_prefix (k := pos - n) (by omega) hn.2.1
                  (by rw [List.drop_drop, Nat.add_sub_cancel' hle]; exact hlast.1.2)
                exact ⟨by omega, hn.2⟩

theorem declares_lt {text : List Byte} {pos : Nat} (h : Declares text pos) :
    pos + keyword.length ≤ text.length :=
  prefix_length_le keyword_unbordered.ne_nil h.1

/-- Every keyword ends in the text, so an offset behind it is one at its end. -/
theorem declaresBy_min_iff (text : List Byte) (offset n : Nat) :
    DeclaresBy text (min offset text.length) n ↔ DeclaresBy text offset n := by
  constructor
  · exact fun h => ⟨le_trans h.1 (Nat.min_le_left _ _), h.2⟩
  · exact fun h => ⟨le_min h.1 (declares_lt h.2), h.2⟩

theorem namespaceDeclAt_isLast (text : List Byte) (offset : Nat) :
    IsLast (DeclaresBy text offset) (namespaceDeclAt text offset) :=
  (lastDecl_isLast text _).congr (declaresBy_min_iff text offset)

namespace NamespaceDecls

variable {text : List Byte}

theorem mem_scan_iff {decl : Nat × Option (Nat × Nat)} :
    decl ∈ (scan text).decls ↔
      Declares text decl.1 ∧ decl.2 = nameRange text (decl.1 + keyword.length) := by
  simp only [scan, List.mem_map, List.mem_filter, mem_findIter_iff keyword_unbordered, Declares]
  constructor
  · rintro ⟨pos, hpos, rfl⟩
    exact ⟨hpos, rfl⟩
  · rintro ⟨hpos, hname⟩
    exact ⟨decl.1, hpos, Prod.ext rfl hname.symm⟩

theorem mem_scan_of_declares {pos : Nat} (h : Declares text pos) :
    (pos, nameRange text (pos + keyword.length)) ∈ (scan text).decls :=
  mem_scan_iff.mpr ⟨h, rfl⟩

theorem scan_pairwise : (scan text).decls.Pairwise fun d e => d.1 < e.1 := by
  rw [scan, List.pairwise_map]
  exact (findIter_pairwise text).filter _

/-- The index is that of the last declaration whose keyword ends by the offset. -/
theorem indexAt_spec (offset : Nat) :
    match (scan text).indexAt offset with
    | none => ∀ decl ∈ (scan text).decls, ¬ decl.1 + keyword.length ≤ offset
    | some i => ∃ decl, (scan text).decls[i]? = some decl ∧ decl.1 + keyword.length ≤ offset ∧
        ∀ other ∈ (scan text).decls, other.1 + keyword.length ≤ offset → other.1 ≤ decl.1 := by
  have hsorted : (scan text).decls.Pairwise fun d e =>
      d.1 + keyword.length < e.1 + keyword.length :=
    scan_pairwise.imp fun h => Nat.add_lt_add_right h _
  have hpart := @Lib.partitioned_of_pairwise _ _ _ offset hsorted
  have hpoint := Lib.partitionPoint_eq hpart
  rw [indexAt, hpoint]
  generalize (scan text).decls.countP _ = count at hpart
  cases count with
  | zero =>
      intro decl hdecl hle
      obtain ⟨i, hi, rfl⟩ := List.getElem_of_mem hdecl
      have hlt := (hpart.iff i).mp (by simpa [List.getElem?_eq_getElem hi] using hle)
      exact absurd hlt (Nat.not_lt_zero i)
  | succ i =>
      have hi : i < (scan text).decls.length := hpart.le
      have hin := (hpart.iff i).mpr (Nat.lt_succ_self i)
      rw [List.getElem?_eq_getElem hi, Option.any_some, decide_eq_true_eq] at hin
      refine ⟨(scan text).decls[i], List.getElem?_eq_getElem hi, hin, fun other hother hle => ?_⟩
      obtain ⟨j, hj, rfl⟩ := List.getElem_of_mem hother
      have hlt := (hpart.iff j).mp (by simpa [List.getElem?_eq_getElem hj] using hle)
      rcases Nat.lt_succ_iff_lt_or_eq.mp hlt with hbefore | rfl
      · exact (List.pairwise_iff_getElem.mp scan_pairwise j i hj hi hbefore).le
      · exact le_refl _

theorem declAt_isLast (offset : Nat) :
    IsLast (DeclaresBy text offset) ((scan text).declAt offset) := by
  have hspec := @indexAt_spec text offset
  rw [declAt]
  cases hindex : (scan text).indexAt offset with
  | none =>
      rw [hindex] at hspec
      exact fun n hn => hspec _ (mem_scan_of_declares hn.2) hn.1
  | some i =>
      rw [hindex] at hspec
      obtain ⟨decl, hdecl, hle, hmax⟩ := hspec
      rw [Option.bind_some, hdecl, Option.map_some]
      refine ⟨⟨hle, (mem_scan_iff.mp (List.mem_of_getElem? hdecl)).1⟩, fun n hn => ?_⟩
      exact hmax _ (mem_scan_of_declares hn.2) hn.1

theorem declAt_eq (text : List Byte) (offset : Nat) :
    (scan text).declAt offset = namespaceDeclAt text offset :=
  (declAt_isLast offset).unique (namespaceDeclAt_isLast text offset)

/-- The name kept with a declaration is the one read behind its keyword. -/
theorem at_eq_bind (text : List Byte) (offset : Nat) :
    (scan text).at' text offset = ((scan text).declAt (min offset text.length)).bind fun pos =>
      namespaceNameAfter text (pos + keyword.length) := by
  rw [at', declAt]
  cases hindex : (scan text).indexAt (min offset text.length) with
  | none => rfl
  | some i =>
      rw [Option.bind_some, Option.bind_some]
      cases hdecl : (scan text).decls[i]? with
      | none => rfl
      | some decl =>
          rw [Option.bind_some, Option.map_some, Option.bind_some, namespaceNameAfter,
            (mem_scan_iff.mp (List.mem_of_getElem? hdecl)).2]

/-- The declarations read once answer as the scan from each offset. -/
theorem agrees_with_scan (text : List Byte) (offset : Nat) :
    (scan text).declAt offset = namespaceDeclAt text offset ∧
      (scan text).at' text offset = namespaceAtOffset text offset := by
  refine ⟨declAt_eq text offset, ?_⟩
  rw [at_eq_bind, declAt_eq, namespaceAtOffset]
  congr 1
  exact ((namespaceDeclAt_isLast text _).congr (declaresBy_min_iff text offset)).unique
    (namespaceDeclAt_isLast text offset)

end NamespaceDecls

/-! ## No slice cuts a character -/

/-- A byte that goes on with a character. -/
def isContinuation (b : Byte) : Prop := 0x80 ≤ b ∧ b < 0xC0

/-- `str::is_char_boundary`, for an index in the text. -/
def IsCharBoundary (text : List Byte) (i : Nat) : Prop := ∀ b, text[i]? = some b → ¬ isContinuation b

/-- What follows an ASCII byte starts a character. -/
def Led (x y : Byte) : Prop := isContinuation y → 0x80 ≤ x

theorem ofNat_le_ofNat {m n : Nat} (hn : n < 256) (h : m ≤ n) :
    UInt8.ofNat m ≤ UInt8.ofNat n := by
  rw [UInt8.le_iff_toNat_le, UInt8.toNat_ofNat', UInt8.toNat_ofNat']
  omega

theorem not_isContinuation_ofNat {n : Nat} (h : n < 0x80 ∨ 0xC0 ≤ n ∧ n < 256) :
    ¬ isContinuation (UInt8.ofNat n) := by
  rintro ⟨hlow, hhigh⟩
  have hl : (0x80 : UInt8).toNat = 0x80 := rfl
  have hh : (0xC0 : UInt8).toNat = 0xC0 := rfl
  rw [UInt8.le_iff_toNat_le, UInt8.toNat_ofNat'] at hlow
  rw [UInt8.lt_iff_toNat_lt, UInt8.toNat_ofNat'] at hhigh
  omega

open Text (charBytes charBytes_eq)

theorem head_charBytes {c : Char} {y : Byte} (h : y ∈ (charBytes c).head?) :
    ¬ isContinuation y := by
  rw [charBytes_eq] at h
  split at h
  · obtain rfl : UInt8.ofNat c.toNat = y := by simpa using h
    exact not_isContinuation_ofNat (by omega)
  · split at h
    · obtain rfl : UInt8.ofNat (c.toNat / 64 % 32 + 0xC0) = y := by simpa using h
      exact not_isContinuation_ofNat (by omega)
    · split at h
      · obtain rfl : UInt8.ofNat (c.toNat / 4096 % 16 + 0xE0) = y := by simpa using h
        exact not_isContinuation_ofNat (by omega)
      · obtain rfl : UInt8.ofNat (c.toNat / 262144 % 8 + 0xF0) = y := by simpa using h
        exact not_isContinuation_ofNat (by omega)

theorem isChain_led_charBytes (c : Char) : (charBytes c).IsChain Led := by
  have hlead : ∀ {n : Nat} {y : Byte}, 0x80 ≤ n → n < 256 → Led (UInt8.ofNat n) y :=
    fun hlow hlt _ => ofNat_le_ofNat hlt hlow
  rw [charBytes_eq]
  split
  · exact .singleton _
  · split
    · exact .cons_cons (hlead (by omega) (by omega)) (.singleton _)
    · split
      · refine .cons_cons (hlead (by omega) (by omega)) ?_
        exact .cons_cons (hlead (by omega) (by omega)) (.singleton _)
      · refine .cons_cons (hlead (by omega) (by omega)) ?_
        refine .cons_cons (hlead (by omega) (by omega)) ?_
        exact .cons_cons (hlead (by omega) (by omega)) (.singleton _)

theorem head_flatMap_charBytes {chars : List Char} {y : Byte}
    (h : y ∈ (chars.flatMap charBytes).head?) : ¬ isContinuation y := by
  cases chars with
  | nil => cases h
  | cons c rest =>
      have hne : charBytes c ≠ [] := by
        rw [charBytes_eq]
        split_ifs <;> exact List.cons_ne_nil _ _
      rw [List.flatMap_cons, List.head?_append_of_ne_nil _ hne] at h
      exact head_charBytes h

theorem isChain_led (chars : List Char) : (chars.flatMap charBytes).IsChain Led := by
  induction chars with
  | nil => exact .nil
  | cons c rest ih =>
      rw [List.flatMap_cons, List.isChain_append]
      exact ⟨isChain_led_charBytes c, ih,
        fun x _ y hy hcont => absurd hcont (head_flatMap_charBytes hy)⟩

/-- Behind an ASCII byte a character starts. -/
theorem isCharBoundary_succ {text : List Byte} (hchain : text.IsChain Led) {i : Nat} {x : Byte}
    (hx : text[i]? = some x) (hascii : x < 0x80) : IsCharBoundary text (i + 1) := by
  intro y hy hcont
  obtain ⟨hi, rfl⟩ := List.getElem?_eq_some_iff.mp hx
  obtain ⟨hsucc, rfl⟩ := List.getElem?_eq_some_iff.mp hy
  exact absurd (List.isChain_iff_getElem.mp hchain i hsucc hcont) (UInt8.not_le.mpr hascii)

theorem ascii_of_isAsciiWhitespace {b : Byte} (h : isAsciiWhitespace b = true) : b < 0x80 := by
  simp only [isAsciiWhitespace, Bool.or_eq_true, beq_iff_eq] at h
  rcases h with (((rfl | rfl) | rfl) | rfl) | rfl <;> decide

/-- A name ends before an ASCII byte, or with the text. -/
theorem stop_isCharBoundary (text : List Byte) (start : Nat) :
    IsCharBoundary text (start +
      ((text.drop start).findIdx? fun b => !isNameByte b).getD (text.length - start)) := by
  intro b hb hcont
  cases hstop : (text.drop start).findIdx? fun b => !isNameByte b with
  | none =>
      obtain ⟨hlt, -⟩ := List.getElem?_eq_some_iff.mp hb
      rw [hstop, Option.getD_none] at hlt
      omega
  | some len =>
      rw [hstop, Option.getD_some, ← List.getElem?_drop] at hb
      obtain ⟨hlt, hend, -⟩ := List.findIdx?_eq_some_iff_getElem.mp hstop
      rw [List.getElem?_eq_getElem hlt, Option.some.injEq] at hb
      rw [hb] at hend
      have hname : isNameByte b = true := by
        simp only [isNameByte, hcont.1, decide_true, Bool.or_true]
      rw [hname] at hend
      cases hend

/-- The name behind the keyword of a declaration is a slice between two characters. -/
theorem nameRange_isCharBoundary {chars : List Char} {pos : Nat} {range : Nat × Nat}
    (hdecl : Declares (chars.flatMap charBytes) pos)
    (h : nameRange (chars.flatMap charBytes) (pos + keyword.length) = some range) :
    IsCharBoundary (chars.flatMap charBytes) range.1 ∧
      IsCharBoundary (chars.flatMap charBytes) range.2 := by
  have hchain := isChain_led chars
  generalize chars.flatMap charBytes = text at *
  rw [nameRange] at h
  split at h
  · cases h
  · next blanks hblanks =>
      simp only at h
      split at h
      · rw [Option.some.injEq] at h
        subst h
        constructor
        · cases blanks with
          | zero =>
              -- the keyword's own last letter
              have hlast : text[pos + 8]? = some 'e'.toUInt8 := by
                obtain ⟨rest, hrest⟩ := hdecl.1
                rw [← List.getElem?_drop, ← hrest]
                rfl
              exact isCharBoundary_succ hchain hlast (by decide)
          | succ blanks =>
              obtain ⟨hlt, -, hblank⟩ := List.findIdx?_eq_some_iff_getElem.mp hblanks
              have hb := hblank blanks (Nat.lt_succ_self blanks)
              have hget : text[pos + keyword.length + blanks]? =
                  some ((text.drop (pos + keyword.length))[blanks]) := by
                rw [← List.getElem?_drop, List.getElem?_eq_getElem]
              exact isCharBoundary_succ hchain hget
                (ascii_of_isAsciiWhitespace (by simpa using hb))
        · exact stop_isCharBoundary text _
      · cases h

end PhpantomLsp.TextScan
