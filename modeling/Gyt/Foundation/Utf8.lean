import Mathlib

/-!
# UTF-8

A UTF-8 decoder on byte lists that computes by structural recursion, next to the encoder
`String.utf8EncodeChar` of the standard library.  A byte sequence is accepted as a character only
if it is that character's encoding, so overlong forms, surrogates and stray continuation bytes are
refused.  `Utf8.decode_encode` says that decoding inverts encoding.  `Utf8.decodeLossy` replaces
what is refused, and `Utf8.decodeLossy_of_decode` says that it agrees with `Utf8.decode` otherwise.
-/

namespace Gyt.Utf8

open List Option Nat UInt8

/-- The UTF-8 encoding of a text. -/
def encode (s : List Char) : List UInt8 := s.flatMap String.utf8EncodeChar

/-- The character with the payload bits of a two-byte sequence. -/
def char2 (b₀ b₁ : UInt8) : Char := Char.ofNat (b₀.toNat % 32 * 64 + b₁.toNat % 64)

/-- The character with the payload bits of a three-byte sequence. -/
def char3 (b₀ b₁ b₂ : UInt8) : Char :=
  Char.ofNat (b₀.toNat % 16 * 4096 + b₁.toNat % 64 * 64 + b₂.toNat % 64)

/-- The character with the payload bits of a four-byte sequence. -/
def char4 (b₀ b₁ b₂ b₃ : UInt8) : Char :=
  Char.ofNat (b₀.toNat % 8 * 262144 + b₁.toNat % 64 * 4096 + b₂.toNat % 64 * 64 + b₃.toNat % 64)

/-- Decoding of a whole byte list; `none` if it is not well-formed UTF-8. -/
def decode : List UInt8 → Option (List Char)
  | [] => some []
  | b₀ :: rest =>
    if b₀.toNat < 0x80 then (decode rest).map (Char.ofNat b₀.toNat :: ·)
    else if b₀.toNat < 0xe0 then
      match rest with
      | b₁ :: rest =>
        if String.utf8EncodeChar (char2 b₀ b₁) = [b₀, b₁] then
          (decode rest).map (char2 b₀ b₁ :: ·)
        else none
      | _ => none
    else if b₀.toNat < 0xf0 then
      match rest with
      | b₁ :: b₂ :: rest =>
        if String.utf8EncodeChar (char3 b₀ b₁ b₂) = [b₀, b₁, b₂] then
          (decode rest).map (char3 b₀ b₁ b₂ :: ·)
        else none
      | _ => none
    else
      match rest with
      | b₁ :: b₂ :: b₃ :: rest =>
        if String.utf8EncodeChar (char4 b₀ b₁ b₂ b₃) = [b₀, b₁, b₂, b₃] then
          (decode rest).map (char4 b₀ b₁ b₂ b₃ :: ·)
        else none
      | _ => none

@[simp] lemma encode_nil : encode [] = [] := rfl

@[simp] lemma encode_cons (c : Char) (s : List Char) :
    encode (c :: s) = String.utf8EncodeChar c ++ encode s := rfl

@[simp] lemma encode_append (s t : List Char) : encode (s ++ t) = encode s ++ encode t :=
  flatMap_append

/-- The encoding of a character below `U+0080`. -/
lemma utf8EncodeChar_one {c : Char} (h : c.toNat ≤ 0x7f) :
    String.utf8EncodeChar c = [.ofNat c.toNat] := by
  rw [String.utf8EncodeChar, if_pos (by exact h)]
  rfl

/-- The encoding of a character from `U+0080` to `U+07FF`. -/
lemma utf8EncodeChar_two {c : Char} (h : 0x7f < c.toNat) (h' : c.toNat ≤ 0x7ff) :
    String.utf8EncodeChar c =
      [.ofNat (c.toNat / 64 % 0x20 + 0xc0), .ofNat (c.toNat % 0x40 + 0x80)] := by
  rw [String.utf8EncodeChar, if_neg (by exact not_le.mpr h), if_pos (by exact h')]
  rfl

/-- The encoding of a character from `U+0800` to `U+FFFF`. -/
lemma utf8EncodeChar_three {c : Char} (h : 0x7ff < c.toNat) (h' : c.toNat ≤ 0xffff) :
    String.utf8EncodeChar c =
      [.ofNat (c.toNat / 4096 % 0x10 + 0xe0), .ofNat (c.toNat / 64 % 0x40 + 0x80),
        .ofNat (c.toNat % 0x40 + 0x80)] := by
  rw [String.utf8EncodeChar, if_neg (by exact not_le.mpr (lt_trans (by decide) h)),
    if_neg (by exact not_le.mpr h), if_pos (by exact h')]
  rfl

/-- The encoding of a character above `U+FFFF`. -/
lemma utf8EncodeChar_four {c : Char} (h : 0xffff < c.toNat) : String.utf8EncodeChar c =
      [.ofNat (c.toNat / 262144 % 0x08 + 0xf0), .ofNat (c.toNat / 4096 % 0x40 + 0x80),
        .ofNat (c.toNat / 64 % 0x40 + 0x80), .ofNat (c.toNat % 0x40 + 0x80)] := by
  rw [String.utf8EncodeChar, if_neg (by exact not_le.mpr (lt_trans (by decide) h)),
    if_neg (by exact not_le.mpr (lt_trans (by decide) h)),
    if_neg (by exact not_le.mpr h)]
  rfl

/-- An ASCII byte is a character of its own. -/
lemma decode_cons_ascii {b : UInt8} {rest : List UInt8} (h : b.toNat < 0x80) :
    decode (b :: rest) = (decode rest).map (Char.ofNat b.toNat :: ·) := by
  rw [decode.eq_def]
  exact if_pos h

/-- One encoded character in front of a byte list is decoded to that character. -/
lemma decode_utf8EncodeChar_append (c : Char) (rest : List UInt8) :
    decode (String.utf8EncodeChar c ++ rest) = (decode rest).map (c :: ·) := by
  have hvalid : c.toNat < 0x110000 := by
    have h := c.valid
    simp only [UInt32.isValidChar, Nat.isValidChar] at h
    change c.val.toNat < 0x110000
    omega
  -- A sum of payload bits that equals the code point gives the character back.
  have hback : ∀ n, n = c.toNat → Char.ofNat n = c := by
    rintro n rfl
    exact Char.ofNat_toNat c
  have hbyte : ∀ n, n < 256 → (ofNat n).toNat = n := fun n hn => by
    rw [toNat_ofNat']; omega
  rcases lt_or_ge 0x7f c.toNat with h₁ | h₁
  · rcases lt_or_ge 0x7ff c.toNat with h₂ | h₂
    · rcases lt_or_ge 0xffff c.toNat with h₃ | h₃
      · have henc := utf8EncodeChar_four h₃
        have hchar : char4 (.ofNat (c.toNat / 262144 % 0x08 + 0xf0))
            (.ofNat (c.toNat / 4096 % 0x40 + 0x80)) (.ofNat (c.toNat / 64 % 0x40 + 0x80))
            (.ofNat (c.toNat % 0x40 + 0x80)) = c := by
          refine hback _ ?_
          rw [hbyte _ (by omega), hbyte _ (by omega), hbyte _ (by omega), hbyte _ (by omega)]
          omega
        rw [henc]
        simp only [cons_append, nil_append, decode]
        rw [hbyte _ (by omega), if_neg (by omega), if_neg (by omega), if_neg (by omega), hchar,
          if_pos henc]
      · have henc := utf8EncodeChar_three h₂ h₃
        have hchar : char3 (.ofNat (c.toNat / 4096 % 0x10 + 0xe0))
            (.ofNat (c.toNat / 64 % 0x40 + 0x80)) (.ofNat (c.toNat % 0x40 + 0x80)) = c := by
          refine hback _ ?_
          rw [hbyte _ (by omega), hbyte _ (by omega), hbyte _ (by omega)]
          omega
        rw [henc]
        simp only [cons_append, nil_append, decode]
        rw [hbyte _ (by omega), if_neg (by omega), if_neg (by omega), if_pos (by omega), hchar,
          if_pos henc]
    · have henc := utf8EncodeChar_two h₁ h₂
      have hchar : char2 (.ofNat (c.toNat / 64 % 0x20 + 0xc0))
          (.ofNat (c.toNat % 0x40 + 0x80)) = c := by
        refine hback _ ?_
        rw [hbyte _ (by omega), hbyte _ (by omega)]
        omega
      rw [henc]
      simp only [cons_append, nil_append, decode]
      rw [hbyte _ (by omega), if_neg (by omega), if_pos (by omega), hchar, if_pos henc]
  · have hb := hbyte c.toNat (by omega)
    rw [utf8EncodeChar_one h₁, singleton_append, decode_cons_ascii (by omega), hb, hback _ rfl]

/-- Decoding reads an encoded text back, whatever bytes follow. -/
lemma decode_encode_append (s : List Char) (rest : List UInt8) :
    decode (encode s ++ rest) = (decode rest).map (s ++ ·) := by
  induction s with
  | nil => simp
  | cons c s ih =>
    rw [encode_cons, append_assoc, decode_utf8EncodeChar_append, ih, Option.map_map]
    rfl

/-- Decoding inverts encoding. -/
@[simp] theorem decode_encode (s : List Char) : decode (encode s) = some s := by
  have h := decode_encode_append s []
  rw [append_nil] at h
  simpa [decode] using h

/-- Encoding is injective. -/
lemma encode_injective : Function.Injective encode := fun s t h => by
  have := congrArg decode h
  simpa using this

/-- The bytes of a character are all above `0x7f`, except for an ASCII character. -/
lemma toNat_eq_of_mem_utf8EncodeChar {c : Char} {b : UInt8} (h : b ∈ String.utf8EncodeChar c)
    (hb : b.toNat ≤ 0x7f) : c.toNat = b.toNat := by
  rcases lt_or_ge 0x7f c.toNat with h₁ | h₁
  · exfalso
    rcases lt_or_ge 0x7ff c.toNat with h₂ | h₂
    · rcases lt_or_ge 0xffff c.toNat with h₃ | h₃
      · rw [utf8EncodeChar_four h₃] at h
        simp only [mem_cons, not_mem_nil, or_false] at h
        rcases h with rfl | rfl | rfl | rfl <;> rw [toNat_ofNat'] at hb <;> omega
      · rw [utf8EncodeChar_three h₂ h₃] at h
        simp only [mem_cons, not_mem_nil, or_false] at h
        rcases h with rfl | rfl | rfl <;> rw [toNat_ofNat'] at hb <;> omega
    · rw [utf8EncodeChar_two h₁ h₂] at h
      simp only [mem_cons, not_mem_nil, or_false] at h
      rcases h with rfl | rfl <;> rw [toNat_ofNat'] at hb <;> omega
  · rw [utf8EncodeChar_one h₁, mem_singleton] at h
    rw [h, toNat_ofNat']
    omega

/-- An ASCII byte in an encoded text is a character of the text. -/
lemma ofNat_mem_of_mem_encode {s : List Char} {b : UInt8} (h : b ∈ encode s)
    (hb : b.toNat ≤ 0x7f) : Char.ofNat b.toNat ∈ s := by
  obtain ⟨c, hc, hmem⟩ := mem_flatMap.mp h
  rw [← toNat_eq_of_mem_utf8EncodeChar hmem hb, Char.ofNat_toNat]
  exact hc

/-- No text has more characters than bytes. -/
lemma length_le_length_encode (s : List Char) : s.length ≤ (encode s).length := by
  induction s with
  | nil => exact le_refl _
  | cons c s ih =>
    have hpos := c.utf8Size_pos
    rw [encode_cons, length_append, String.length_utf8EncodeChar, length_cons]
    omega

/-- An ASCII text has one byte for each character. -/
lemma length_encode_of_ascii {s : List Char} (h : ∀ c ∈ s, c.toNat ≤ 0x7f) :
    (encode s).length = s.length := by
  induction s with
  | nil => rfl
  | cons c s ih =>
    obtain ⟨hc, hs⟩ := forall_mem_cons.mp h
    rw [encode_cons, utf8EncodeChar_one hc, singleton_append, length_cons, ih hs, length_cons]

/-! ## Lossy decoding -/

/-- The first character of a byte list that starts with one, and the bytes after it. -/
def decodeChar : List UInt8 → Option (Char × List UInt8)
  | [] => none
  | b₀ :: rest =>
    if b₀.toNat < 0x80 then some (Char.ofNat b₀.toNat, rest)
    else if b₀.toNat < 0xe0 then
      match rest with
      | b₁ :: rest =>
        if String.utf8EncodeChar (char2 b₀ b₁) = [b₀, b₁] then some (char2 b₀ b₁, rest) else none
      | _ => none
    else if b₀.toNat < 0xf0 then
      match rest with
      | b₁ :: b₂ :: rest =>
        if String.utf8EncodeChar (char3 b₀ b₁ b₂) = [b₀, b₁, b₂] then
          some (char3 b₀ b₁ b₂, rest)
        else none
      | _ => none
    else
      match rest with
      | b₁ :: b₂ :: b₃ :: rest =>
        if String.utf8EncodeChar (char4 b₀ b₁ b₂ b₃) = [b₀, b₁, b₂, b₃] then
          some (char4 b₀ b₁ b₂ b₃, rest)
        else none
      | _ => none

/-- Whether a byte continues a sequence. -/
def isContinuation (b : UInt8) : Bool := 0x80 ≤ b && b ≤ 0xbf

/-- Whether a byte can come second in a sequence of three or four bytes. -/
def isSecond (b₀ b₁ : UInt8) : Bool :=
  if b₀ < 0xe0 || 0xf4 < b₀ then false
  else if b₀ = 0xe0 then 0xa0 ≤ b₁ && b₁ ≤ 0xbf
  else if b₀ = 0xed then 0x80 ≤ b₁ && b₁ ≤ 0x9f
  else if b₀ = 0xf0 then 0x90 ≤ b₁ && b₁ ≤ 0xbf
  else if b₀ = 0xf4 then 0x80 ≤ b₁ && b₁ ≤ 0x8f
  else isContinuation b₁

/-- How many bytes at the start of a list that does not start with a character are replaced by one
replacement character: the beginning of a character as far as it goes, or one byte. -/
def invalidLength : List UInt8 → ℕ
  | b₀ :: b₁ :: b₂ :: _ =>
    if isSecond b₀ b₁ then if 0xf0 ≤ b₀ && isContinuation b₂ then 3 else 2 else 1
  | [b₀, b₁] => if isSecond b₀ b₁ then 2 else 1
  | _ => 1

/-- Decoding of at most the given number of characters with replacements. -/
def decodeLossyUpTo : ℕ → List UInt8 → List Char
  | 0, _ => []
  | _ + 1, [] => []
  | n + 1, b :: bytes =>
    match decodeChar (b :: bytes) with
    | some (c, rest) => c :: decodeLossyUpTo n rest
    | none =>
      Char.ofNat 0xfffd :: decodeLossyUpTo n ((b :: bytes).drop (invalidLength (b :: bytes)))

/-- Decoding that replaces what is not well-formed, `String::from_utf8_lossy`. -/
def decodeLossy (bytes : List UInt8) : List Char := decodeLossyUpTo bytes.length bytes

/-- Decoding goes character by character. -/
lemma decode_cons {b : UInt8} {bytes : List UInt8} :
    decode (b :: bytes) = (decodeChar (b :: bytes)).bind fun (c, rest) =>
      (decode rest).map (c :: ·) := by
  rw [decode.eq_def, decodeChar.eq_def]
  dsimp only
  split_ifs
  · rfl
  · split <;> [split_ifs; skip] <;> rfl
  · split <;> [split_ifs; skip] <;> rfl
  · split <;> [split_ifs; skip] <;> rfl

/-- The bytes of a character that is found are those of its encoding. -/
lemma eq_of_decodeChar {b : UInt8} {bytes rest : List UInt8} {c : Char}
    (h : decodeChar (b :: bytes) = some (c, rest)) :
    b :: bytes = String.utf8EncodeChar c ++ rest := by
  rw [decodeChar.eq_def] at h
  dsimp only at h
  split_ifs at h with hascii
  · cases h
    have hchar : (Char.ofNat b.toNat).toNat = b.toNat := by
      rw [Char.toNat_ofNat, if_pos (.inl (by omega))]
    rw [utf8EncodeChar_one (by omega), hchar, UInt8.ofNat_toNat]
    rfl
  all_goals
    split at h
    · split_ifs at h with henc
      cases h
      rw [henc]
      rfl
    · cases h

lemma length_decodeChar {b : UInt8} {bytes rest : List UInt8} {c : Char}
    (h : decodeChar (b :: bytes) = some (c, rest)) : rest.length ≤ bytes.length := by
  have hlen := congrArg length (eq_of_decodeChar h)
  have hpos := c.utf8Size_pos
  rw [length_cons, length_append, String.length_utf8EncodeChar] at hlen
  omega

/-- The well-formed byte lists are the encodings of texts. -/
lemma decode_eq_some {bytes : List UInt8} {s : List Char} :
    decode bytes = some s ↔ bytes = encode s := by
  refine ⟨fun h => ?_, fun h => h ▸ decode_encode s⟩
  induction s generalizing bytes with
  | nil =>
    cases bytes with
    | nil => rfl
    | cons b bytes =>
      rw [decode_cons] at h
      obtain ⟨_, -, hrest⟩ := bind_eq_some_iff.mp h
      obtain ⟨_, -, heq⟩ := map_eq_some_iff.mp hrest
      cases heq
  | cons c s ih =>
    cases bytes with
    | nil => cases h
    | cons b bytes =>
      rw [decode_cons] at h
      obtain ⟨⟨c', rest⟩, hchar, hrest⟩ := bind_eq_some_iff.mp h
      obtain ⟨s', hs', heq⟩ := map_eq_some_iff.mp hrest
      cases heq
      rw [eq_of_decodeChar hchar, ih hs', encode_cons]

/-- Nothing is replaced in a well-formed text. -/
theorem decodeLossy_of_decode {bytes : List UInt8} {s : List Char} (h : decode bytes = some s) :
    decodeLossy bytes = s := by
  suffices hupTo : ∀ n, bytes.length ≤ n → decodeLossyUpTo n bytes = s from hupTo _ (le_refl _)
  intro n hn
  induction n generalizing bytes s with
  | zero =>
    rw [length_eq_zero_iff.mp (le_zero.mp hn)] at h
    cases h
    rfl
  | succ n ih =>
    cases bytes with
    | nil =>
      cases h
      rfl
    | cons b bytes =>
      rw [decode_cons] at h
      obtain ⟨⟨c, rest⟩, hchar, hrest⟩ := bind_eq_some_iff.mp h
      obtain ⟨s', hs', rfl⟩ := map_eq_some_iff.mp hrest
      have hlen := length_decodeChar hchar
      rw [decodeLossyUpTo, hchar]
      dsimp only
      rw [ih hs' (by simp only [length_cons] at hn; omega)]

end Gyt.Utf8
