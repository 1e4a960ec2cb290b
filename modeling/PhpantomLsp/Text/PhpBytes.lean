import PhpantomLsp.Text.PhpString
import Mathlib.Data.List.Chain

/-!
# The bytes of a PHP string

The value of a string literal is a run of bytes.  PHP lets an escape name a
byte, or a surrogate, so the run need not be UTF-8; `decode_php_string_literal`
reads the literals whose run is, and `none` says that it is not
(`phpStringBytes_of_none`).
-/

namespace PhpantomLsp.Text

/-- What PHP writes for a code point, a surrogate included. -/
def codePointBytes (n : Nat) : Option (List UInt8) :=
  if n < 0xD800 ∨ (0xDFFF < n ∧ n < 0x110000) then some (charBytes (Char.ofNat n))
  else if n < 0x110000 then
    some [0xED, UInt8.ofNat (n / 64 % 64 + 0x80), UInt8.ofNat (n % 64 + 0x80)]
  else none

/-- PHP's reading of a backslash followed by `next`; a code point it rejects is
an error. -/
def phpEscape (doubleQuoted : Bool) (next : Char) (rest : List Char) :
    Option (List UInt8 × List Char) :=
  match doubleQuoted, next, rest with
  | true, 'u', '{' :: digits =>
      let (value, len, after) := takeDigits hexDigit 16 digits.length 0 digits
      match after with
      | '}' :: after =>
          if len = 0 then none else (codePointBytes value).map fun bytes => (bytes, after)
      | _ => none
  | true, _, _ => doubleQuotedEscape next rest
  | false, _, _ => singleQuotedEscape next rest

/-- PHP's reading of the content of a literal, with fuel for its length. -/
def phpContent (doubleQuoted : Bool) : Nat → List Char → Option (List UInt8)
  | 0, _ => some []
  | _, [] => some []
  | fuel + 1, c :: rest =>
      if c = '\\' then
        match rest with
        | [] => some (charBytes '\\')
        | next :: rest =>
            (phpEscape doubleQuoted next rest).bind fun (bytes, after) =>
              (phpContent doubleQuoted fuel after).map (bytes ++ ·)
      else (phpContent doubleQuoted fuel rest).map (charBytes c ++ ·)

/-- The bytes PHP gives a quoted literal. -/
def phpStringBytes (raw : String) : Option (List UInt8) :=
  (literalContent raw).bind fun (doubleQuoted, content) =>
    phpContent doubleQuoted content.length content

/-- The bytes are the UTF-8 of no text. -/
def NotUtf8 (bytes : List UInt8) : Prop := ∀ chars : List Char, bytes ≠ chars.flatMap charBytes

/-! ## Surrogates are not UTF-8 -/

/-- A byte `ED` with one of `A0` and up behind it begins a surrogate. -/
def HasSurrogate (bytes : List UInt8) : Prop :=
  ∃ before b after, bytes = before ++ 0xED :: b :: after ∧ 0xA0 ≤ b

theorem HasSurrogate.append_left {bytes : List UInt8} (h : HasSurrogate bytes)
    (front : List UInt8) : HasSurrogate (front ++ bytes) := by
  obtain ⟨before, b, after, rfl, hb⟩ := h
  exact ⟨front ++ before, b, after, by simp, hb⟩

/-- Two neighbours that do not begin a surrogate. -/
def Apart (x y : UInt8) : Prop := x = 0xED → y < 0xA0

theorem HasSurrogate.not_isChain {bytes : List UInt8} (h : HasSurrogate bytes) :
    ¬ bytes.IsChain Apart := by
  obtain ⟨before, b, after, rfl, hb⟩ := h
  intro hchain
  have hpair := (List.isChain_append.mp hchain).2.1
  have hlt : b < 0xA0 := (List.isChain_cons_cons.mp hpair).1 rfl
  exact absurd hlt (UInt8.not_lt.mpr hb)

theorem ofNat_ne_surrogate {n : Nat} (h : n < 0xED ∨ 0xED < n ∧ n < 256) :
    UInt8.ofNat n ≠ 0xED := by
  intro heq
  have hnat := congrArg UInt8.toNat heq
  rw [UInt8.toNat_ofNat'] at hnat
  have : (0xED : UInt8).toNat = 0xED := rfl
  omega

theorem apart_of_ne {x y : UInt8} (h : x ≠ 0xED) : Apart x y := fun heq => absurd heq h

/-- The lead byte of three is followed by one below `A0`, as no character is a
surrogate. -/
theorem apart_lead {c : Char} (hc : 0x800 ≤ c.toNat) (hlt : c.toNat ≤ 0xFFFF) :
    Apart (UInt8.ofNat (c.toNat / 4096 % 16 + 0xE0)) (UInt8.ofNat (c.toNat / 64 % 64 + 0x80)) := by
  intro heq
  have hnat := congrArg UInt8.toNat heq
  rw [UInt8.toNat_ofNat'] at hnat
  have hED : (0xED : UInt8).toNat = 0xED := rfl
  have hvalid : c.toNat < 0xD800 ∨ (0xDFFF < c.toNat ∧ c.toNat < 0x110000) := c.valid
  rw [UInt8.lt_iff_toNat_lt, UInt8.toNat_ofNat']
  have hA0 : (0xA0 : UInt8).toNat = 0xA0 := rfl
  omega

theorem charBytes_eq (c : Char) : charBytes c =
    if c.toNat ≤ 0x7F then [UInt8.ofNat c.toNat]
    else if c.toNat ≤ 0x7FF then
      [UInt8.ofNat (c.toNat / 64 % 32 + 0xC0), UInt8.ofNat (c.toNat % 64 + 0x80)]
    else if c.toNat ≤ 0xFFFF then
      [UInt8.ofNat (c.toNat / 4096 % 16 + 0xE0), UInt8.ofNat (c.toNat / 64 % 64 + 0x80),
        UInt8.ofNat (c.toNat % 64 + 0x80)]
    else
      [UInt8.ofNat (c.toNat / 262144 % 8 + 0xF0), UInt8.ofNat (c.toNat / 4096 % 64 + 0x80),
        UInt8.ofNat (c.toNat / 64 % 64 + 0x80), UInt8.ofNat (c.toNat % 64 + 0x80)] := rfl

theorem isChain_charBytes (c : Char) : (charBytes c).IsChain Apart := by
  rw [charBytes_eq]
  split
  · exact .singleton _
  · split
    · exact .cons_cons (apart_of_ne (ofNat_ne_surrogate (by omega))) (.singleton _)
    · split
      · refine .cons_cons (apart_lead (by omega) (by omega)) ?_
        exact .cons_cons (apart_of_ne (ofNat_ne_surrogate (by omega))) (.singleton _)
      · refine .cons_cons (apart_of_ne (ofNat_ne_surrogate (by omega))) ?_
        refine .cons_cons (apart_of_ne (ofNat_ne_surrogate (by omega))) ?_
        exact .cons_cons (apart_of_ne (ofNat_ne_surrogate (by omega))) (.singleton _)

theorem getLast_charBytes_ne {c : Char} {x : UInt8} (h : x ∈ (charBytes c).getLast?) :
    x ≠ 0xED := by
  rw [charBytes_eq] at h
  split at h
  · obtain rfl : UInt8.ofNat c.toNat = x := by simpa using h
    exact ofNat_ne_surrogate (by omega)
  · have hlast : UInt8.ofNat (c.toNat % 64 + 0x80) = x := by
      split at h
      · simpa using h
      · split at h <;> simpa using h
    subst hlast
    exact ofNat_ne_surrogate (by omega)

theorem isChain_flatMap_charBytes (chars : List Char) :
    (chars.flatMap charBytes).IsChain Apart := by
  induction chars with
  | nil => exact .nil
  | cons c rest ih =>
      rw [List.flatMap_cons, List.isChain_append]
      exact ⟨isChain_charBytes c, ih, fun x hx y _ => apart_of_ne (getLast_charBytes_ne hx)⟩

theorem HasSurrogate.notUtf8 {bytes : List UInt8} (h : HasSurrogate bytes) : NotUtf8 bytes := by
  rintro chars rfl
  exact h.not_isChain (isChain_flatMap_charBytes chars)

/-! ## Against the decoder -/

/-- The decoder's escapes of a quote kind. -/
def decoderEscape (doubleQuoted : Bool) (next : Char) (rest : List Char) :
    Option (List UInt8 × List Char) :=
  (if doubleQuoted then doubleQuotedEscape else singleQuotedEscape) next rest

theorem codePointBytes_eq_some {n : Nat} {bytes : List UInt8} (h : codePointBytes n = some bytes) :
    (charFromU32 n).map charBytes = some bytes ∨ charFromU32 n = none ∧ HasSurrogate bytes := by
  unfold codePointBytes at h
  unfold charFromU32
  split at h
  · rename_i hchar
    exact .inl (by rw [if_pos hchar]; exact h)
  · rename_i hchar
    split at h
    · rename_i hlast
      rw [if_neg hchar]
      refine .inr ⟨rfl, [], UInt8.ofNat (n / 64 % 64 + 0x80), [UInt8.ofNat (n % 64 + 0x80)],
        (Option.some.inj h).symm, ?_⟩
      rw [UInt8.le_iff_toNat_le, UInt8.toNat_ofNat']
      have hA0 : (0xA0 : UInt8).toNat = 0xA0 := rfl
      omega
    · cases h

/-- An escape of PHP's that the decoder does not read is a surrogate. -/
theorem phpEscape_eq_some {doubleQuoted : Bool} {next : Char} {rest after : List Char}
    {bytes : List UInt8} (h : phpEscape doubleQuoted next rest = some (bytes, after)) :
    decoderEscape doubleQuoted next rest = some (bytes, after) ∨
      decoderEscape doubleQuoted next rest = none ∧ HasSurrogate bytes := by
  unfold phpEscape at h
  split at h
  · rename_i digits
    simp only [decoderEscape, if_true, doubleQuotedEscape]
    generalize takeDigits hexDigit 16 digits.length 0 digits = read at h ⊢
    obtain ⟨value, len, after'⟩ := read
    simp only at h ⊢
    split at h
    · by_cases hlen : len = 0
      · simp [hlen] at h
      · simp only [hlen, if_false, Option.map_eq_some_iff, Prod.mk.injEq] at h ⊢
        obtain ⟨front, hfront, rfl, rfl⟩ := h
        obtain hchar | ⟨hnone, hsurrogate⟩ := codePointBytes_eq_some hfront
        · obtain ⟨c, hc, rfl⟩ := Option.map_eq_some_iff.mp hchar
          exact .inl ⟨c, hc, rfl, rfl⟩
        · exact .inr ⟨by simp [hnone], hsurrogate⟩
    · cases h
  · exact .inl h
  · exact .inl h

/-- By induction on the fuel: the decoder reads what PHP reads, unless there is
a surrogate. -/
theorem phpContent_eq_some {doubleQuoted : Bool} {fuel : Nat} {content : List Char}
    {bytes : List UInt8} (h : phpContent doubleQuoted fuel content = some bytes) :
    decodeContent doubleQuoted fuel content = some bytes ∨
      decodeContent doubleQuoted fuel content = none ∧ HasSurrogate bytes := by
  induction fuel generalizing content bytes with
  | zero => exact .inl (by simpa [phpContent, decodeContent] using h)
  | succ fuel ih =>
      cases content with
      | nil => exact .inl (by simpa [phpContent, decodeContent] using h)
      | cons c rest =>
          by_cases hslash : c = '\\'
          · subst hslash
            cases rest with
            | nil => exact .inl (by simpa [phpContent, decodeContent] using h)
            | cons next rest =>
                simp only [phpContent, if_true, Option.bind_eq_some_iff,
                  Option.map_eq_some_iff] at h
                obtain ⟨⟨front, after⟩, hescape, back, hback, rfl⟩ := h
                have hdecode : decodeContent doubleQuoted (fuel + 1) ('\\' :: next :: rest) =
                    (decoderEscape doubleQuoted next rest).bind fun (bytes, after) =>
                      (decodeContent doubleQuoted fuel after).map (bytes ++ ·) := rfl
                obtain hfront | ⟨hnone, hsurrogate⟩ := phpEscape_eq_some hescape
                · obtain hrest | ⟨hnone, hsurrogate⟩ := ih hback
                  · exact .inl (by simp [hdecode, hfront, hrest])
                  · exact .inr ⟨by simp [hdecode, hfront, hnone], hsurrogate.append_left front⟩
                · obtain ⟨before, b, tail, rfl, hb⟩ := hsurrogate
                  exact .inr ⟨by simp [hdecode, hnone], before, b, tail ++ back, by simp, hb⟩
          · simp only [phpContent, hslash, if_false, Option.map_eq_some_iff] at h
            obtain ⟨back, hback, rfl⟩ := h
            obtain hrest | ⟨hnone, hsurrogate⟩ := ih hback
            · exact .inl (by simp [decodeContent, hslash, hrest])
            · exact .inr ⟨by simp [decodeContent, hslash, hnone], hsurrogate.append_left _⟩

theorem phpContent_of_not_mem {doubleQuoted : Bool} {fuel : Nat} {content : List Char}
    (hslash : '\\' ∉ content) (hfuel : content.length ≤ fuel) :
    phpContent doubleQuoted fuel content = some (content.flatMap charBytes) := by
  induction fuel generalizing content with
  | zero =>
      obtain rfl : content = [] := List.eq_nil_of_length_eq_zero (by omega)
      rfl
  | succ fuel ih =>
      cases content with
      | nil => rfl
      | cons c rest =>
          have hc : c ≠ '\\' := fun h => hslash (h ▸ List.mem_cons_self ..)
          have hrest := ih (fun h => hslash (List.mem_cons_of_mem _ h))
            (by simpa using hfuel)
          simp [phpContent, hc, hrest]

theorem stringFromUtf8_eq_some {bytes : List UInt8} {s : String}
    (h : stringFromUtf8 bytes = some s) : bytes = s.toList.flatMap charBytes := by
  simp only [stringFromUtf8, Option.map_eq_some_iff] at h
  obtain ⟨chars, hdecode, rfl⟩ := h
  have hsome : bytes.toByteArray.utf8Decode?.isSome = true := by simp [hdecode]
  have hencode := ByteArray.utf8Encode_get_utf8Decode? (h := hsome)
  simp only [hdecode, Option.get_some] at hencode
  rw [String.toList_ofList]
  exact List.toByteArray_inj.mp hencode.symm

theorem notUtf8_of_stringFromUtf8 {bytes : List UInt8} (h : stringFromUtf8 bytes = none) :
    NotUtf8 bytes := by
  rintro chars rfl
  simp [stringFromUtf8_charBytes] at h

/-- A literal that is read is read as PHP reads it. -/
theorem phpStringBytes_of_some {raw s : String} {bytes : List UInt8}
    (hbytes : phpStringBytes raw = some bytes) (hs : decodePhpStringLiteral raw = some s) :
    bytes = s.toList.flatMap charBytes := by
  simp only [phpStringBytes, decodePhpStringLiteral, Option.bind_eq_some_iff] at hbytes hs
  obtain ⟨⟨doubleQuoted, content⟩, hcontent, hbytes⟩ := hbytes
  obtain ⟨⟨doubleQuoted', content'⟩, hcontent', hs⟩ := hs
  obtain ⟨rfl, rfl⟩ : doubleQuoted = doubleQuoted' ∧ content = content' := by
    simpa using hcontent.symm.trans hcontent'
  split at hs
  · obtain ⟨read, hread, hs⟩ := Option.bind_eq_some_iff.mp hs
    obtain hdecode | ⟨hnone, -⟩ := phpContent_eq_some hbytes
    · obtain rfl : read = bytes := by simpa using hread.symm.trans hdecode
      exact stringFromUtf8_eq_some hs
    · simp [hnone] at hread
  · rename_i hslash
    obtain rfl : String.ofList content = s := by simpa using hs
    rw [phpContent_of_not_mem hslash (le_refl _)] at hbytes
    simpa using hbytes.symm

/-- A literal of PHP's that is not read is not UTF-8. -/
theorem phpStringBytes_of_none {raw : String} {bytes : List UInt8}
    (hbytes : phpStringBytes raw = some bytes) (hs : decodePhpStringLiteral raw = none) :
    NotUtf8 bytes := by
  simp only [phpStringBytes, Option.bind_eq_some_iff] at hbytes
  obtain ⟨⟨doubleQuoted, content⟩, hcontent, hbytes⟩ := hbytes
  simp only [decodePhpStringLiteral, hcontent, Option.bind_some] at hs
  split at hs
  · obtain hdecode | ⟨-, hsurrogate⟩ := phpContent_eq_some hbytes
    · rw [hdecode] at hs
      exact notUtf8_of_stringFromUtf8 hs
    · exact hsurrogate.notUtf8
  · cases hs

end PhpantomLsp.Text
