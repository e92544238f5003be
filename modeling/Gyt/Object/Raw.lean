import Gyt.Object.Store

/-!
# The raw form of objects

An object is hashed in its raw form `"<kind> <size>\0<payload>"` and stored compressed, `store.rs`
and `compress.rs`.

`parseRaw_eq_ok` says which byte strings `parse_raw` accepts: those of `build_raw`, but with any
spelling of the size that the integer parser accepts.  `buildRaw_eq_iff` says that only the plain
spelling is printed back.
-/

namespace Gyt

open Text List Utf8

/-! ## Compression -/

structure Xz where
  compress : Bytes → Bytes
  decompress : Bytes → Except IoError Bytes
  /-- What was compressed is decompressed again, unless it was empty: an empty stream is a matter of
  the codec. -/
  decompress_compress : ∀ bytes, bytes ≠ [] → decompress (compress bytes) = .ok bytes

/-- A compression that leaves everything as it is, for small runs. -/
def plainXz : Xz := ⟨id, .ok, fun _ _ => rfl⟩

namespace Compress

/-- What a wrapped object file starts with, `MAGIC`. -/
def magic : Bytes := [0x67, 0x79, 0x74, 0x01]

/-- The flag of compressed content, `FLAG_XZ`. -/
def flagXz : UInt8 := 0x01

/-- The maximum size of a decompressed stream, `MAX_DECOMPRESSED_BYTES`. -/
def maxDecompressedBytes : ℕ := 1024 * 1024 * 1024

variable (xz : Xz)

/-- Decompressing a stream, `xz_decode_raw`. -/
def xzDecodeRaw (body : Bytes) : Result Bytes := do
  let out ← (xz.decompress body).mapError .io
  ensure (out.length ≤ maxDecompressedBytes)
    (.object ["xz: decompressed output exceeds ", .num maxDecompressedBytes,
      " bytes (decompression bomb?)"])
  return out

/-- The content of an object file. -/
def encode (payload : Bytes) : Bytes := magic ++ flagXz :: xz.compress payload

/-- Reading the content of an object file. -/
def decode (stored : Bytes) : Result Bytes :=
  match stored with
  | m₀ :: m₁ :: m₂ :: m₃ :: flags :: body =>
    if [m₀, m₁, m₂, m₃] = magic then
      if flags &&& flagXz ≠ 0 then xzDecodeRaw xz body else .ok body
    else .ok stored
  | _ => .ok stored

variable {xz} {payload raw : Bytes}

lemma xzDecodeRaw_compress (hinv : xz.decompress (xz.compress payload) = .ok payload) :
    xzDecodeRaw xz (xz.compress payload) = .ok raw ↔
      raw = payload ∧ payload.length ≤ maxDecompressedBytes := by
  rw [xzDecodeRaw, hinv]
  simp only [Except.mapError, ok_bind, check_bind_eq_ok, ensure_eq_ok]
  rw [and_comm, and_congr_left_iff]
  exact fun _ => ⟨fun h => by cases h; rfl, fun h => by rw [h]; rfl⟩

/-- What was written is read, up to the maximum size. -/
theorem decode_encode (hne : payload ≠ []) : decode xz (encode xz payload) = .ok raw ↔
    raw = payload ∧ payload.length ≤ maxDecompressedBytes :=
  xzDecodeRaw_compress (xz.decompress_compress payload hne)

end Compress

/-! ## Headers -/

/-- Parsing the raw form of an object. -/
def parseRaw (raw : Bytes) : Result Object := do
  let (headerBytes, payload) ← okOr (splitOnce [0] raw)
    (.object ["missing NUL after object header"])
  let header ← okOr (Utf8.decode headerBytes) (.object ["non-utf8 object header"])
  let (kindS, sizeS) ← okOr (splitOnce [' '] header)
    (.object ["malformed header: ", .debug header])
  let kind ← ObjectKind.parse kindS
  let size ← okOr (parseU64 sizeS) (.object ["non-numeric size in header: ", .debug sizeS])
  ensure (payload.length = size)
    (.object ["header says size ", .num size, " but payload is ", .num payload.length])
  return ⟨kind, payload⟩

/-- The raw form of an object with the given spelling of its size. -/
def rawWith (sizeS : Str) (o : Object) : Bytes :=
  Utf8.encode (o.kind.asStr ++ ' ' :: sizeS) ++ 0 :: o.payload

/-- How the size is spelled in a raw form: what stands between the first space and the first NUL. -/
def sizeText (raw : Bytes) : Str :=
  match splitOnce [0] raw with
  | some (headerBytes, _) =>
    ((Utf8.decode headerBytes).bind fun header => (splitOnce [' '] header).map Prod.snd).getD []
  | none => []

lemma buildRaw_eq_rawWith (o : Object) :
    buildRaw o.kind o.payload = rawWith (Text.ofNat o.payload.length) o := rfl

section Parse

variable {raw : Bytes} {o : Object} {sizeS : Str}

lemma ObjectKind.parse_asStr (kind : ObjectKind) : parse kind.asStr = .ok kind := by
  cases kind <;> decide

lemma ObjectKind.eq_asStr_of_parse {kindS : Str} {kind : ObjectKind}
    (h : parse kindS = .ok kind) : kindS = kind.asStr := by
  unfold parse at h
  split_ifs at h with h₁ h₂ h₃ h₄ <;> cases h <;> assumption

lemma ObjectKind.notMem_asStr (kind : ObjectKind) :
    ' ' ∉ kind.asStr ∧ Char.ofNat 0 ∉ kind.asStr := by
  cases kind <;> decide

/-- A number that is parsed is made of digits and a sign. -/
lemma notMem_of_parseU64 {n : ℕ} (h : parseU64 sizeS = some n) : Char.ofNat 0 ∉ sizeS := by
  obtain ⟨-, digits, hs, -, hdigits, -⟩ := parseUnsigned_eq_some.mp h
  intro hmem
  have hcases : Char.ofNat 0 = '+' ∨ Char.ofNat 0 ∈ digits := by
    rcases hs with rfl | rfl
    · exact .inr hmem
    · exact mem_cons.mp hmem
  rcases hcases with hplus | hmem
  · exact absurd hplus (by decide)
  · exact absurd (hdigits _ hmem) (by decide)

/-- The header ends at the first NUL. -/
lemma splitOnce_rawWith (h : parseU64 sizeS = some o.payload.length) :
    splitOnce [0] (rawWith sizeS o) = some (encode (o.kind.asStr ++ ' ' :: sizeS), o.payload) := by
  have hheader : (0 : UInt8) ∉ encode (o.kind.asStr ++ ' ' :: sizeS) := by
    intro hmem
    rcases mem_append.mp (ofNat_mem_of_mem_encode hmem (by decide)) with hmem | hmem
    · exact o.kind.notMem_asStr.2 hmem
    · rcases mem_cons.mp hmem with heq | hmem
      · exact absurd heq (by decide)
      · exact notMem_of_parseU64 h hmem
  rw [rawWith, splitOnce_append_cons hheader]

/-- The kind ends at the first space. -/
lemma splitOnce_header (kind : ObjectKind) (sizeS : Str) :
    splitOnce [' '] (kind.asStr ++ ' ' :: sizeS) = some (kind.asStr, sizeS) :=
  splitOnce_append_cons kind.notMem_asStr.1 sizeS

lemma sizeText_rawWith (h : parseU64 sizeS = some o.payload.length) :
    sizeText (rawWith sizeS o) = sizeS := by
  simp only [sizeText, splitOnce_rawWith h, decode_encode, Option.bind_some, splitOnce_header,
    Option.map_some, Option.getD_some]

lemma parseRaw_rawWith (h : parseU64 sizeS = some o.payload.length) :
    parseRaw (rawWith sizeS o) = .ok o := by
  simp only [parseRaw, splitOnce_rawWith h, splitOnce_header, h, decode_encode,
    ObjectKind.parse_asStr, okOr_some, ok_bind]
  exact check_bind_eq_ok.mpr ⟨ensure_eq_ok.mpr trivial, rfl⟩

/-- What `parse_raw` accepts: the raw form with any spelling of the size. -/
theorem parseRaw_eq_ok : parseRaw raw = .ok o ↔
    ∃ sizeS, raw = rawWith sizeS o ∧ parseU64 sizeS = some o.payload.length := by
  refine ⟨fun h => ?_, fun ⟨sizeS, hraw, h⟩ => hraw ▸ parseRaw_rawWith h⟩
  obtain ⟨⟨headerBytes, payload⟩, hsplit, h⟩ := bind_eq_ok.mp h
  obtain ⟨header, hdecode, h⟩ := bind_eq_ok.mp h
  obtain ⟨⟨kindS, sizeS⟩, hheader, h⟩ := bind_eq_ok.mp h
  obtain ⟨kind, hkind, h⟩ := bind_eq_ok.mp h
  obtain ⟨size, hsize, h⟩ := bind_eq_ok.mp h
  obtain ⟨hlen, h⟩ := check_bind_eq_ok.mp h
  cases h
  rw [ensure_eq_ok] at hlen
  have hraw := eq_of_splitOnce (okOr_eq_ok.mp hsplit)
  have htext := eq_of_splitOnce (okOr_eq_ok.mp hheader)
  refine ⟨sizeS, ?_, hlen ▸ okOr_eq_ok.mp hsize⟩
  rw [hraw, decode_eq_some.mp (okOr_eq_ok.mp hdecode), htext,
    ObjectKind.eq_asStr_of_parse hkind, rawWith]
  simp only [append_assoc, singleton_append]

/-- The raw form is parsed back. -/
lemma parseRaw_buildRaw (h : o.payload.length < 2 ^ 64) :
    parseRaw (buildRaw o.kind o.payload) = .ok o :=
  parseRaw_rawWith (parseUnsigned_ofNat (Nat.le_pred_of_lt h))

/-- The spelling of the size is determined by the raw form. -/
lemma rawWith_inj {sizeS' : Str} : rawWith sizeS o = rawWith sizeS' o ↔ sizeS = sizeS' := by
  refine ⟨fun h => ?_, fun h => h ▸ rfl⟩
  have htext := encode_injective (append_cancel_right h)
  exact (cons.inj (append_cancel_left htext)).2

/-- Only a plain spelling of the size is printed back. -/
theorem buildRaw_eq_iff (h : parseRaw raw = .ok o) :
    buildRaw o.kind o.payload = raw ↔ PlainNumber (sizeText raw) := by
  obtain ⟨sizeS, rfl, hsize⟩ := parseRaw_eq_ok.mp h
  rw [buildRaw_eq_rawWith, rawWith_inj, sizeText_rawWith hsize, eq_comm]
  exact eq_ofNat_iff hsize

/-- Printing never makes a raw form longer. -/
lemma length_buildRaw_le (h : parseRaw raw = .ok o) :
    (buildRaw o.kind o.payload).length ≤ raw.length := by
  obtain ⟨sizeS, rfl, hsize⟩ := parseRaw_eq_ok.mp h
  have hascii : ∀ c ∈ Text.ofNat o.payload.length, c.toNat ≤ 0x7f := fun c hc =>
    (Char.isDigit_iff_toNat.mp (isDigit_of_mem_ofNat hc)).2.trans (by decide)
  have hsizes : (encode (Text.ofNat o.payload.length)).length ≤ (encode sizeS).length :=
    calc (encode (Text.ofNat o.payload.length)).length
      _ = (Text.ofNat o.payload.length).length := length_encode_of_ascii hascii
      _ ≤ sizeS.length := length_ofNat_le hsize
      _ ≤ (encode sizeS).length := length_le_length_encode sizeS
  simp only [buildRaw, rawWith, encode_append, encode_cons, length_append]
  omega

end Parse

end Gyt
