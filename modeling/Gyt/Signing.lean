import Gyt.Config
import Gyt.Object.Commit

/-!
# Commit signatures

The base64 codec with its strict decoder (`base64Decode_eq_some_iff`) and the signed form of a
commit, `cmd/signing.rs`.  The signature scheme itself is a parameter:
`verifyStrict key payload sig` stands for ed25519 verification, and `sign payload` for loading the
signing key and signing.
-/

namespace Gyt.Signing

open Text List

/-- The six bits of a base64 digit. -/
def base64Value (b : UInt8) : Option ℕ :=
  if 0x41 ≤ b ∧ b ≤ 0x5a then some (b - 0x41).toNat
  else if 0x61 ≤ b ∧ b ≤ 0x7a then some (b - 0x61 + 26).toNat
  else if 0x30 ≤ b ∧ b ≤ 0x39 then some (b - 0x30 + 52).toNat
  else if b = 0x2b then some 62
  else if b = 0x2f then some 63
  else none

/-- The bytes of a string of base64 digits; `buf` holds the `bits` bits that are left over. -/
def base64Loop : ℕ → ℕ → Bytes → Bytes → Option Bytes
  | buf, _, out, [] => if buf ≠ 0 then none else some out
  | buf, bits, out, b :: rest =>
    match base64Value b with
    | none => none
    | some val =>
      let buf := buf * 64 + val
      let bits := bits + 6
      if 8 ≤ bits then
        base64Loop (buf % 2 ^ (bits - 8)) (bits - 8)
          (out ++ [UInt8.ofNat (buf / 2 ^ (bits - 8))]) rest
      else base64Loop buf bits out rest

/-- Decoding a base64 text. -/
def base64Decode (input : Str) : Option Bytes :=
  let bytes := Utf8.encode (trim input)
  if bytes.length % 4 ≠ 0 then none
  else
    let pad := ((bytes.reverse.take 2).takeWhile (· == 0x3d)).length
    let body := bytes.take (bytes.length - pad)
    if 0x3d ∈ body then none else base64Loop 0 0 [] body

/-- The base64 digits, `B64_CHARS`. -/
def base64Chars : Str :=
  "ABCDEFGHIJKLMNOPQRSTUVWXYZ" ++ "abcdefghijklmnopqrstuvwxyz" ++
    "0123456789+/"

/-- The base64 digit of the lowest six bits of a number. -/
def base64Char (n : ℕ) : Char := base64Chars.getD (n % 64) 'A'

def base64Encode : Bytes → Str
  | [] => []
  | [b₀] =>
    let triple := b₀.toNat * 2 ^ 16
    [base64Char (triple / 2 ^ 18), base64Char (triple / 2 ^ 12), '=', '=']
  | [b₀, b₁] =>
    let triple := b₀.toNat * 2 ^ 16 + b₁.toNat * 2 ^ 8
    [base64Char (triple / 2 ^ 18), base64Char (triple / 2 ^ 12), base64Char (triple / 2 ^ 6), '=']
  | b₀ :: b₁ :: b₂ :: rest =>
    let triple := b₀.toNat * 2 ^ 16 + b₁.toNat * 2 ^ 8 + b₂.toNat
    base64Char (triple / 2 ^ 18) :: base64Char (triple / 2 ^ 12) :: base64Char (triple / 2 ^ 6) ::
      base64Char triple :: base64Encode rest

lemma base64Char_mod (n : ℕ) : base64Char (n % 64) = base64Char n := by
  rw [base64Char, base64Char, Nat.mod_mod]

/-- Base64 digits are neither line ends nor carriage returns. -/
lemma base64Char_ne (n : ℕ) : base64Char n ≠ '\n' ∧ base64Char n ≠ '\r' := by
  have hall : ∀ k : Fin 64, base64Char k ≠ '\n' ∧ base64Char k ≠ '\r' := by decide +kernel
  rw [← base64Char_mod]
  exact hall ⟨n % 64, Nat.mod_lt _ (by decide)⟩

lemma ne_of_mem_base64Encode {bytes : Bytes} {c : Char} (h : c ∈ base64Encode bytes) :
    c ≠ '\n' ∧ c ≠ '\r' := by
  fun_induction base64Encode bytes with
  | case1 => exact absurd h not_mem_nil
  | case2 b₀ triple =>
    simp only [mem_cons, not_mem_nil, or_false] at h
    rcases h with rfl | rfl | rfl | rfl <;> first | exact base64Char_ne _ | decide
  | case3 b₀ b₁ triple =>
    simp only [mem_cons, not_mem_nil, or_false] at h
    rcases h with rfl | rfl | rfl | rfl <;> first | exact base64Char_ne _ | decide
  | case4 b₀ b₁ b₂ rest triple ih =>
    simp only [mem_cons] at h
    rcases h with rfl | rfl | rfl | rfl | h
    iterate 4 exact base64Char_ne _
    exact ih h

/-! ## The decoder is strict -/

/-- The byte of a base64 digit. -/
def base64Digit (n : ℕ) : UInt8 := UInt8.ofNat (base64Char n).toNat

lemma utf8EncodeChar_base64Char (n : ℕ) :
    String.utf8EncodeChar (base64Char n) = [base64Digit n] := by
  have hall : ∀ k : Fin 64, String.utf8EncodeChar (base64Char k) = [base64Digit k] := by
    decide +kernel
  have := hall ⟨n % 64, Nat.mod_lt _ (by decide)⟩
  rwa [base64Digit, base64Char_mod] at this

lemma base64Value_eq_some {c : UInt8} {v : ℕ} :
    base64Value c = some v ↔ v < 64 ∧ c = base64Digit v := by
  constructor
  · have hall : ∀ n < 256, (base64Value (UInt8.ofNat n)).all
        (fun v => v < 64 && UInt8.ofNat n = base64Digit v) = true := by decide +kernel
    intro h
    have := ObjectId.forall_byte
      (p := fun c => (base64Value c).all (fun v => v < 64 && c = base64Digit v)) hall c
    simpa [h] using this
  · have hall : ∀ k : Fin 64, base64Value (base64Digit k) = some k.val := by decide +kernel
    rintro ⟨hv, rfl⟩
    exact hall ⟨v, hv⟩

lemma base64Digit_congr {m n : ℕ} (h : m % 64 = n % 64) : base64Digit m = base64Digit n := by
  rw [base64Digit, ← base64Char_mod, h, base64Char_mod, base64Digit]

lemma cons_base64Digit {m n : ℕ} {l l' : Bytes} (h : m % 64 = n % 64) (hl : l = l') :
    base64Digit m :: l = base64Digit n :: l' := congrArg₂ cons (base64Digit_congr h) hl

lemma base64Value_base64Digit (n : ℕ) : base64Value (base64Digit n) = some (n % 64) := by
  exact base64Value_eq_some.mpr ⟨Nat.mod_lt _ (by decide),
    base64Digit_congr (Nat.mod_mod n 64).symm⟩

lemma base64Loop_append (body : Bytes) (buf bits : ℕ) (out pre : Bytes) :
    base64Loop buf bits (pre ++ out) body = (base64Loop buf bits out body).map (pre ++ ·) := by
  induction body generalizing buf bits out with
  | nil =>
    rw [base64Loop, base64Loop]
    split_ifs <;> rfl
  | cons c body ih =>
    rw [base64Loop, base64Loop]
    cases base64Value c with
    | none => rfl
    | some v =>
      dsimp only
      rw [append_assoc, ih, ih, apply_ite (Option.map _)]

/-- A group of four digits makes three bytes. -/
lemma base64Loop_four (n₀ n₁ n₂ n₃ : ℕ) (rest : Bytes) :
    base64Loop 0 0 []
      (base64Digit n₀ :: base64Digit n₁ :: base64Digit n₂ :: base64Digit n₃ :: rest) =
      (base64Loop 0 0 [] rest).map ([UInt8.ofNat ((n₀ % 64 * 64 + n₁ % 64) / 16),
        UInt8.ofNat ((n₁ % 16 * 64 + n₂ % 64) / 4), UInt8.ofNat (n₂ % 4 * 64 + n₃ % 64)] ++ ·) := by
  have h₁ : (n₀ % 64 * 64 + n₁ % 64) % 16 = n₁ % 16 := by omega
  have h₂ : (n₁ % 16 * 64 + n₂ % 64) % 4 = n₂ % 4 := by omega
  rw [← base64Loop_append]
  simp [base64Loop, base64Value_base64Digit, h₁, h₂, Nat.mod_one]

lemma base64Loop_three (n₀ n₁ n₂ : ℕ) :
    base64Loop 0 0 [] [base64Digit n₀, base64Digit n₁, base64Digit n₂] =
      if n₂ % 4 ≠ 0 then none else some [UInt8.ofNat ((n₀ % 64 * 64 + n₁ % 64) / 16),
        UInt8.ofNat ((n₁ % 16 * 64 + n₂ % 64) / 4)] := by
  have h₁ : (n₀ % 64 * 64 + n₁ % 64) % 16 = n₁ % 16 := by omega
  have h₂ : (n₁ % 16 * 64 + n₂ % 64) % 4 = n₂ % 4 := by omega
  simp [base64Loop, base64Value_base64Digit, h₁, h₂]

lemma base64Loop_two (n₀ n₁ : ℕ) : base64Loop 0 0 [] [base64Digit n₀, base64Digit n₁] =
    if n₁ % 16 ≠ 0 then none else some [UInt8.ofNat ((n₀ % 64 * 64 + n₁ % 64) / 16)] := by
  have h₁ : (n₀ % 64 * 64 + n₁ % 64) % 16 = n₁ % 16 := by omega
  simp [base64Loop, base64Value_base64Digit, h₁]

lemma toNat_ofNat {n : ℕ} (h : n < 256) : (UInt8.ofNat n).toNat = n := UInt8.toNat_ofNat_of_lt' h

lemma ofNat_eq {b : UInt8} {n : ℕ} (h : n = b.toNat) : UInt8.ofNat n = b := by
  rw [h, UInt8.ofNat_toNat]

/-- The digits of a text are followed by at most two signs that fill the last group of four up. -/
lemma exists_base64Loop (b : Bytes) :
    ∃ body k, Utf8.encode (base64Encode b) = body ++ replicate k 0x3d ∧
    k ≤ 2 ∧ (body.length + k) % 4 = 0 ∧ base64Loop 0 0 [] body = some b := by
  fun_induction base64Encode b with
  | case1 => exact ⟨[], 0, rfl, by decide, rfl, rfl⟩
  | case2 b₀ triple =>
    have := b₀.toNat_lt
    refine ⟨[base64Digit (triple / 2 ^ 18), base64Digit (triple / 2 ^ 12)], 2,
      ?_, by decide, by simp, ?_⟩
    · simp only [Utf8.encode_cons, utf8EncodeChar_base64Char]
      rfl
    · rw [base64Loop_two, if_neg (by omega), ofNat_eq (b := b₀) (by omega)]
  | case3 b₀ b₁ triple =>
    have := b₀.toNat_lt
    have := b₁.toNat_lt
    refine ⟨[base64Digit (triple / 2 ^ 18), base64Digit (triple / 2 ^ 12),
      base64Digit (triple / 2 ^ 6)], 1, ?_, by decide, by simp, ?_⟩
    · simp only [Utf8.encode_cons, utf8EncodeChar_base64Char]
      rfl
    · rw [base64Loop_three, if_neg (by omega), ofNat_eq (b := b₀) (by omega),
        ofNat_eq (b := b₁) (by omega)]
  | case4 b₀ b₁ b₂ rest triple ih =>
    have := b₀.toNat_lt
    have := b₁.toNat_lt
    have := b₂.toNat_lt
    obtain ⟨body, k, henc, hk, hlen, hloop⟩ := ih
    refine ⟨base64Digit (triple / 2 ^ 18) :: base64Digit (triple / 2 ^ 12) ::
      base64Digit (triple / 2 ^ 6) :: base64Digit triple :: body, k, ?_, hk, by simp; omega, ?_⟩
    · simp only [Utf8.encode_cons, utf8EncodeChar_base64Char, henc]
      rfl
    · rw [base64Loop_four, hloop, ofNat_eq (b := b₀) (by omega), ofNat_eq (b := b₁) (by omega),
        ofNat_eq (b := b₂) (by omega)]
      rfl

lemma exists_digits {body out b : Bytes} {buf bits : ℕ}
    (h : base64Loop buf bits out body = some b) : ∃ vs : List ℕ, body = vs.map base64Digit := by
  induction body generalizing buf bits out with
  | nil => exact ⟨[], rfl⟩
  | cons c body ih =>
    rw [base64Loop] at h
    rcases hv : base64Value c with _ | v
    · rw [hv] at h
      cases h
    · obtain ⟨-, rfl⟩ := base64Value_eq_some.mp hv
      rw [hv] at h
      dsimp only at h
      split_ifs at h
      all_goals
        obtain ⟨vs, rfl⟩ := ih h
        exact ⟨v :: vs, rfl⟩

lemma encode_of_base64Loop : ∀ (vs : List ℕ) (b : Bytes) (k : ℕ), k ≤ 2 →
    (vs.length + k) % 4 = 0 → base64Loop 0 0 [] (vs.map base64Digit) = some b →
    Utf8.encode (base64Encode b) = vs.map base64Digit ++ replicate k 0x3d
  | [], b, k, hk, hlen, h => by
    cases h
    obtain rfl : k = 0 := by simp at hlen; omega
    rfl
  | [_], _, _, hk, hlen, _ => by simp at hlen; omega
  | [v₀, v₁], b, k, hk, hlen, h => by
    obtain rfl : k = 2 := by simp at hlen; omega
    rw [map_cons, map_cons, map_nil, base64Loop_two] at h
    split_ifs at h with h₁
    cases h
    have h₀ := toNat_ofNat (n := (v₀ % 64 * 64 + v₁ % 64) / 16) (by omega)
    simp only [base64Encode, Utf8.encode_cons, utf8EncodeChar_base64Char, h₀]
    exact cons_base64Digit (by omega) (cons_base64Digit (by omega) rfl)
  | [v₀, v₁, v₂], b, k, hk, hlen, h => by
    obtain rfl : k = 1 := by simp at hlen; omega
    rw [map_cons, map_cons, map_cons, map_nil, base64Loop_three] at h
    split_ifs at h with h₂
    cases h
    have h₀ := toNat_ofNat (n := (v₀ % 64 * 64 + v₁ % 64) / 16) (by omega)
    have h₁ := toNat_ofNat (n := (v₁ % 16 * 64 + v₂ % 64) / 4) (by omega)
    simp only [base64Encode, Utf8.encode_cons, utf8EncodeChar_base64Char, h₀, h₁]
    exact cons_base64Digit (by omega) (cons_base64Digit (by omega)
      (cons_base64Digit (by omega) rfl))
  | v₀ :: v₁ :: v₂ :: v₃ :: vs, b, k, hk, hlen, h => by
    rw [map_cons, map_cons, map_cons, map_cons, base64Loop_four, Option.map_eq_some_iff] at h
    obtain ⟨b', hloop, rfl⟩ := h
    have ih := encode_of_base64Loop vs b' k hk (by simp at hlen; omega) hloop
    have h₀ := toNat_ofNat (n := (v₀ % 64 * 64 + v₁ % 64) / 16) (by omega)
    have h₁ := toNat_ofNat (n := (v₁ % 16 * 64 + v₂ % 64) / 4) (by omega)
    have h₂ := toNat_ofNat (n := v₂ % 4 * 64 + v₃ % 64) (by omega)
    simp only [cons_append, nil_append, base64Encode, Utf8.encode_cons, utf8EncodeChar_base64Char,
      ih, h₀, h₁, h₂]
    exact cons_base64Digit (by omega) (cons_base64Digit (by omega) (cons_base64Digit (by omega)
      (cons_base64Digit (by omega) rfl)))

lemma notMem_of_base64Loop {body out b : Bytes} {buf bits : ℕ}
    (h : base64Loop buf bits out body = some b) : 0x3d ∉ body := by
  obtain ⟨vs, rfl⟩ := exists_digits h
  rw [mem_map]
  rintro ⟨v, -, hv⟩
  have := base64Value_base64Digit v
  rw [hv] at this
  cases this

/-- The number of signs at the end of a text, up to two. -/
lemma padding_append {body : Bytes} {k : ℕ} (hk : k ≤ 2) (h : 0x3d ∉ body) :
    (((body ++ replicate k 0x3d).reverse.take 2).takeWhile (· == 0x3d)).length = k := by
  have hstop : ∀ n, (body.reverse.take n).takeWhile (· == 0x3d) = [] := by
    intro n
    rw [takeWhile_eq_nil_iff]
    intro hpos heq
    refine h (mem_reverse.mp (mem_of_mem_take (i := n) ?_))
    rw [← beq_iff_eq.mp heq]
    exact getElem_mem hpos
  rw [reverse_append, reverse_replicate, take_append, take_replicate, Nat.min_eq_right hk,
    length_replicate, takeWhile_append_of_pos (by simp), hstop, append_nil, length_replicate]

lemma exists_padding (bytes : Bytes) : ∃ body, bytes =
    body ++ replicate ((bytes.reverse.take 2).takeWhile (· == 0x3d)).length 0x3d := by
  have hsigns := takeWhile_prefix (l := bytes.reverse.take 2) (· == 0x3d)
  obtain ⟨l, hl⟩ := hsigns.trans <| take_prefix 2 _
  have hrep := eq_replicate_of_mem fun c
      (hc : c ∈ (bytes.reverse.take 2).takeWhile (· == 0x3d)) => by
    simpa using mem_takeWhile_imp hc
  refine ⟨l.reverse, ?_⟩
  rw [← reverse_replicate, ← hrep, ← reverse_append, hl, reverse_reverse]

/-- The decoder accepts exactly the texts of the encoder, between white space. -/
theorem base64Decode_eq_some_iff (s : Str) (b : Bytes) :
    base64Decode s = some b ↔ trim s = base64Encode b := by
  rw [base64Decode, ← Utf8.encode_injective.eq_iff]
  generalize Utf8.encode (trim s) = bytes
  dsimp only
  constructor
  · intro h
    obtain ⟨body, hbody⟩ := exists_padding bytes
    have hle : ((bytes.reverse.take 2).takeWhile (· == 0x3d)).length ≤ 2 :=
      (takeWhile_sublist _).length_le.trans (length_take_le 2 _)
    generalize ((bytes.reverse.take 2).takeWhile (· == 0x3d)).length = pad at h hbody hle
    subst hbody
    rw [length_append, length_replicate, Nat.add_sub_cancel, take_left] at h
    split_ifs at h with hlen heq
    obtain ⟨vs, rfl⟩ := exists_digits h
    rw [length_map, not_not] at hlen
    exact (encode_of_base64Loop vs b pad hle hlen h).symm
  · rintro rfl
    obtain ⟨body, k, henc, hk, hlen, hloop⟩ := exists_base64Loop b
    have hnot := notMem_of_base64Loop hloop
    rw [henc, padding_append hk hnot, length_append, length_replicate, if_neg (not_not.mpr hlen),
      Nat.add_sub_cancel, take_left, if_neg hnot, hloop]

/-! ## Signed commits -/

/-- The bytes that a signature is made over: the commit without its signature line. -/
def commitPayloadWithoutSig (c : Commit) : Bytes := Commit.encode { c with signature := none }

/-- Signing a commit if the configuration or the caller asks for it. -/
def maybeSignCommit (config : Result Config) (sign : Bytes → Result Bytes) (c : Commit)
    (forceSign : Bool) : Result Commit := do
  let cfg ← config
  if (!cfg.signRequired && !forceSign) || c.signature.isSome then return c
  else
    let sig ← sign (commitPayloadWithoutSig c)
    return { c with signature := some (base64Encode sig) }

variable {K : Type} (verifyStrict : K → Bytes → Bytes → Bool)

/-- Whether a commit carries a signature that verifies under one of the allowed keys. -/
def Signed (allowed : List K) (c : Commit) : Prop :=
  ∃ b64 sig, c.signature = some b64 ∧ base64Decode b64 = some sig ∧ sig.length = 64 ∧
    ∃ key ∈ allowed, verifyStrict key (commitPayloadWithoutSig c) sig = true

end Gyt.Signing
