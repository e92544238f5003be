import Gyt.Errors

/-!
# Object identifiers

Object identifiers are 32-byte BLAKE3 digests, printed as 64 hexadecimal digits.  `toHex` and
`fromHex` are the codec of `hash.rs`; `fromHex_toHex` says that an identifier survives it.
-/

namespace Gyt

open List Utf8

/-- The number of bytes of a digest, `HASH_LEN`. -/
def hashLen : ℕ := 32

/-- The number of hexadecimal digits of a printed digest, `HEX_LEN`. -/
def hexLen : ℕ := hashLen * 2

structure ObjectId where
  bytes : Bytes
  length_bytes : bytes.length = hashLen
  deriving DecidableEq, Repr

/-- Hash functions. -/
abbrev Hash := Bytes → ObjectId

namespace ObjectId

/-- Identifiers are determined by their bytes. -/
@[ext] lemma ext {a b : ObjectId} (h : a.bytes = b.bytes) : a = b := by
  cases a; cases b; cases h; rfl

/-- The identifier all of whose bytes are equal. -/
def fill (b : UInt8) : ObjectId := ⟨List.replicate hashLen b, List.length_replicate⟩

def zero : ObjectId := fill 0

/-- Reading an identifier off its raw bytes. -/
def fromBytes (bytes : Bytes) : Result ObjectId :=
  if h : bytes.length = hashLen then .ok ⟨bytes, h⟩
  else .error (.parse ["expected ", .num hashLen, " bytes, got ", .num bytes.length])

lemma fromBytes_bytes (id : ObjectId) : fromBytes id.bytes = .ok id := by
  rw [fromBytes, dif_pos id.length_bytes]

/-- The value of a hexadecimal digit given as an ASCII byte. -/
def hexNibble (b : UInt8) : Result UInt8 :=
  if 0x30 ≤ b ∧ b ≤ 0x39 then .ok (b - 0x30)
  else if 0x61 ≤ b ∧ b ≤ 0x66 then .ok (b - 0x61 + 10)
  else if 0x41 ≤ b ∧ b ≤ 0x46 then .ok (b - 0x41 + 10)
  else .error (.parse ["non-hex byte: ", .hex b])

/-- The hexadecimal digit of a nibble. -/
def hexChar (nibble : UInt8) : Char :=
  let n := nibble &&& 0x0f
  if n < 10 then Char.ofNat (0x30 + n).toNat else Char.ofNat (0x61 + n - 10).toNat

/-- The bytes that pairs of hexadecimal digits stand for. -/
def nibblePairs : Bytes → Result Bytes
  | hi :: lo :: rest => do
    let hi ← hexNibble hi
    let lo ← hexNibble lo
    let out ← nibblePairs rest
    return ((hi <<< 4) ||| lo) :: out
  | _ => .ok []

/-- Two digits make one byte. -/
lemma length_of_nibblePairs {s out : Bytes} (h : nibblePairs s = .ok out) :
    out.length = s.length / 2 := by
  induction s using nibblePairs.induct generalizing out with
  | case1 hi lo rest ih =>
    simp only [nibblePairs, bind_eq_ok] at h
    obtain ⟨hi', -, lo', -, out', hout, h⟩ := h
    cases h
    simp only [length_cons, ih hout]
    omega
  | case2 s hs =>
    cases s with
    | nil => cases h; rfl
    | cons b s =>
      cases s with
      | nil => cases h; simp
      | cons b' s => exact absurd rfl (hs b b' s)

/-- Reading an identifier off its hexadecimal digits. -/
def fromHex (s : Str) : Result ObjectId :=
  let bytes := Utf8.encode s
  if hlen : bytes.length = hexLen then
    match hout : nibblePairs bytes with
    | .ok out => .ok ⟨out, by rw [length_of_nibblePairs hout, hlen]; rfl⟩
    | .error e => .error e
  else .error (.parse ["expected ", .num hexLen, " hex chars, got ", .num bytes.length])

/-- The two hexadecimal digits of a byte. -/
def hexPair (b : UInt8) : Str := [hexChar (b >>> 4), hexChar (b &&& 0x0f)]

/-- The hexadecimal digits of an identifier. -/
def toHex (id : ObjectId) : Str := id.bytes.flatMap hexPair

/-! ## Reading back what was printed -/

/-- A statement about a byte can be checked on the 256 of them. -/
lemma forall_byte {p : UInt8 → Prop} (h : ∀ n < 256, p (UInt8.ofNat n)) (b : UInt8) : p b := by
  have hb := h b.toNat b.toNat_lt
  rwa [UInt8.ofNat_toNat] at hb

/-- The digit of a nibble is a single byte, which reads back as the nibble. -/
lemma exists_hexNibble_hexChar (b : UInt8) :
    ∃ d, String.utf8EncodeChar (hexChar b) = [d] ∧ hexNibble d = .ok (b &&& 0x0f) := by
  refine ⟨(String.utf8EncodeChar (hexChar b)).headD 0, ?_⟩
  revert b
  refine forall_byte ?_
  decide +kernel

/-- The two halves of a byte make up the byte. -/
lemma nibbles_or (b : UInt8) : (((b >>> 4) &&& 0x0f) <<< 4) ||| ((b &&& 0x0f) &&& 0x0f) = b := by
  revert b
  refine forall_byte ?_
  decide +kernel

/-- Pairs of digits read back as the bytes they were printed for. -/
lemma nibblePairs_encode_flatMap (bytes : Bytes) :
    nibblePairs (encode (bytes.flatMap hexPair)) = .ok bytes := by
  induction bytes with
  | nil => rfl
  | cons b bytes ih =>
    obtain ⟨hi, hhi, hhi'⟩ := exists_hexNibble_hexChar (b >>> 4)
    obtain ⟨lo, hlo, hlo'⟩ := exists_hexNibble_hexChar (b &&& 0x0f)
    simp only [flatMap_cons, hexPair, cons_append, nil_append, encode_cons,
      hhi, hlo, nibblePairs, hhi', hlo', ok_bind, ih, nibbles_or]
    rfl

/-- Every digit is printed as a single byte. -/
lemma length_encode_flatMap (bytes : Bytes) :
    (encode (bytes.flatMap hexPair)).length = bytes.length * 2 := by
  induction bytes with
  | nil => rfl
  | cons b bytes ih =>
    obtain ⟨hi, hhi, -⟩ := exists_hexNibble_hexChar (b >>> 4)
    obtain ⟨lo, hlo, -⟩ := exists_hexNibble_hexChar (b &&& 0x0f)
    simp only [flatMap_cons, hexPair, cons_append, nil_append, encode_cons,
      hhi, hlo, length_cons, ih]
    omega

/-- A printed identifier has 64 digits. -/
lemma length_encode_toHex (id : ObjectId) : (encode id.toHex).length = hexLen := by
  rw [toHex, length_encode_flatMap, id.length_bytes]
  rfl

/-- A printed identifier reads back as itself. -/
@[simp] theorem fromHex_toHex (id : ObjectId) : fromHex id.toHex = .ok id := by
  have hpairs := nibblePairs_encode_flatMap id.bytes
  rw [fromHex]
  simp only [length_encode_toHex, dif_pos]
  split
  · next out hout =>
    rw [toHex, hpairs] at hout
    cases hout
    rfl
  · next e hout =>
    rw [toHex, hpairs] at hout
    cases hout

/-- The digits are the hexadecimal ones, in lower case. -/
lemma mem_digits_of_mem_toHex {id : ObjectId} {c : Char} (h : c ∈ id.toHex) :
    c ∈ "0123456789abcdef".toList := by
  have hpair : ∀ b : UInt8, (hexPair b).all (· ∈ "0123456789abcdef".toList) = true :=
    forall_byte (by decide +kernel)
  obtain ⟨b, -, hc⟩ := mem_flatMap.mp h
  simpa using all_eq_true.mp (hpair b) c hc

lemma notMem_toHex {id : ObjectId} {c : Char} (hc : c ∉ "0123456789abcdef".toList) :
    c ∉ id.toHex :=
  fun h => hc (mem_digits_of_mem_toHex h)

lemma toHex_ne_nil (id : ObjectId) : id.toHex ≠ [] := by
  intro hnil
  have hlen := id.length_encode_toHex
  rw [hnil] at hlen
  cases hlen

/-- What starts with another letter is no identifier. -/
lemma fromHex_cons_ne_ok {c : Char} {s : Str} {id : ObjectId} (hascii : c.toNat ≤ 0x7f)
    (hc : (hexNibble c.toUInt8).toOption = none) : fromHex (c :: s) ≠ .ok id := by
  intro h
  unfold fromHex at h
  dsimp only at h
  split_ifs at h with hlen
  split at h
  · next out hout =>
    rw [encode_cons, utf8EncodeChar_one hascii, singleton_append] at hout hlen
    cases hrest : encode s with
    | nil =>
      rw [hrest] at hlen
      cases hlen
    | cons b rest =>
      rw [hrest, nibblePairs, bind_eq_ok] at hout
      obtain ⟨hi, hhi, -⟩ := hout
      have hnibble : (hexNibble c.toUInt8).toOption = some hi := by
        rw [show c.toUInt8 = UInt8.ofNat c.toNat from rfl, hhi]
        rfl
      rw [hc] at hnibble
      cases hnibble
  · cases h

/-- Printing is injective. -/
lemma toHex_injective : Function.Injective toHex := fun a b h => by
  have := congrArg fromHex h
  simpa using this

end ObjectId

end Gyt
