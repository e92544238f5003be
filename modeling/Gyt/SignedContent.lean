import Gyt.Net.RefsPolicy

/-!
# Signed contents

How many commits can carry the same signed content.  The content determines all fields of a commit
but its signature, and if the scheme accepts one signature per content, the bytes of the signature
as well.  The strict decoder leaves one base64 text for these bytes, but it trims its input:
`payload_eq_iff` says that two payloads with the same signed content are equal exactly if the white
space around their signatures is.
-/

namespace Gyt

open Text List Utf8

namespace Signing

/-! ## White space around a text -/

/-- The white space before and after a text. -/
def margins (t : Str) : Str × Str :=
  (t.takeWhile isWhitespace, ((trimStart t).reverse.takeWhile isWhitespace).reverse)

lemma margins_append_trim (t : Str) : (margins t).1 ++ (trim t ++ (margins t).2) = t := by
  have hend : trim t ++ (margins t).2 = trimStart t := by
    rw [trim, trimEnd, margins, ← reverse_append, takeWhile_append_dropWhile, reverse_reverse]
  rw [hend]
  exact takeWhile_append_dropWhile

/-! ## One signed content -/

section Content

variable {c c' : Commit}

/-- Without its signature line, a well-formed commit stays well formed. -/
lemma wellFormed_unsigned (h : c.WellFormed) (hsigned : c.signature ≠ none) :
    ({ c with signature := none } : Commit).WellFormed := by
  obtain ⟨b64, hb64⟩ := Option.ne_none_iff_exists'.mp hsigned
  have hlines : c.headerLines = ({ c with signature := none } : Commit).headerLines ++
      [Commit.Section.signature.label ++ b64] := by simp [Commit.headerLines, hb64]
  refine ⟨h.authors_ne_nil, fun l hl => h.newline_notMem l ?_, fun l hl => h.getLast?_ne_cr l ?_⟩
  · rw [hlines]
    exact mem_append_left _ hl
  · rw [hlines, dropLast_concat]
    exact dropLast_subset _ hl

/-- The signed content determines all fields but the signature. -/
lemma unsigned_eq_of_payload (h : c.WellFormed) (h' : c'.WellFormed) (hsigned : c.signature ≠ none)
    (hsigned' : c'.signature ≠ none)
    (hpayload : commitPayloadWithoutSig c = commitPayloadWithoutSig c') :
    ({ c with signature := none } : Commit) = { c' with signature := none } := by
  have hdec := Commit.decode_encode (wellFormed_unsigned h hsigned)
  have hdec' := Commit.decode_encode (wellFormed_unsigned h' hsigned')
  rw [commitPayloadWithoutSig, commitPayloadWithoutSig] at hpayload
  rw [hpayload, hdec'] at hdec
  exact (Except.ok.inj hdec).symm

end Content

end Signing

namespace RefsPolicy

open Signing

variable {K : Type} {verifyStrict : K → Bytes → Bytes → Bool} {key : K} {s : Store}
  {id₁ id₂ : ObjectId} {p₁ p₂ : Bytes} {c₁ c₂ : Commit}

/-- What a commit has that passes the check under one key. -/
lemma exists_sig_of_verifyCommitSigned {id : ObjectId} {p : Bytes} {c : Commit}
    (hget : s.get? id = some ⟨.commit, p⟩) (hdec : Commit.decode p = .ok c)
    (h : verifyCommitSigned verifyStrict s id [key] = .ok ()) :
    ∃ b64 sig, c.signature = some b64 ∧ base64Decode b64 = some sig ∧ sig.length = 64 ∧
      verifyStrict key (commitPayloadWithoutSig c) sig = true := by
  obtain ⟨c', hc', b64, sig, hb64, hsig, hlen, key', hkey, hverify⟩ :=
    (verifyCommitSigned_eq_ok verifyStrict).mp h
  cases (Store.commitRead_eq_ok.mpr ⟨p, hget, hdec⟩).symm.trans hc'
  rw [mem_singleton.mp hkey] at hverify
  exact ⟨b64, sig, hb64, hsig, hlen, hverify⟩

/-- If a key accepts one signature per content, two payloads with the same signed content that pass
the check differ in nothing but the white space around their signatures. -/
theorem payload_eq_iff
    (hone : ∀ content, ∃! sig : Bytes, sig.length = 64 ∧ verifyStrict key content sig = true)
    (hget₁ : s.get? id₁ = some ⟨.commit, p₁⟩) (hget₂ : s.get? id₂ = some ⟨.commit, p₂⟩)
    (hdec₁ : Commit.decode p₁ = .ok c₁) (hdec₂ : Commit.decode p₂ = .ok c₂)
    (hsigned₁ : verifyCommitSigned verifyStrict s id₁ [key] = .ok ())
    (hsigned₂ : verifyCommitSigned verifyStrict s id₂ [key] = .ok ())
    (hcontent : commitPayloadWithoutSig c₁ = commitPayloadWithoutSig c₂) :
    ({ c₁ with signature := none } : Commit) = { c₂ with signature := none } ∧
      (p₁ = p₂ ↔ c₁.signature.map margins = c₂.signature.map margins) := by
  obtain ⟨henc₁, hwf₁⟩ := Commit.wellFormed_of_decode hdec₁
  obtain ⟨henc₂, hwf₂⟩ := Commit.wellFormed_of_decode hdec₂
  obtain ⟨t₁, sig₁, ht₁, hsig₁, hlen₁, hverify₁⟩ :=
    exists_sig_of_verifyCommitSigned hget₁ hdec₁ hsigned₁
  obtain ⟨t₂, sig₂, ht₂, hsig₂, hlen₂, hverify₂⟩ :=
    exists_sig_of_verifyCommitSigned hget₂ hdec₂ hsigned₂
  have hunsigned := unsigned_eq_of_payload hwf₁ hwf₂ (by simp [ht₁]) (by simp [ht₂]) hcontent
  refine ⟨hunsigned, fun hpayload => ?_, fun hmargins => ?_⟩
  · rw [hpayload, hdec₂] at hdec₁
    cases hdec₁
    rfl
  · -- Both signatures have the same bytes, hence the same text between the margins.
    rw [← hcontent] at hverify₂
    obtain rfl := (hone _).unique ⟨hlen₁, hverify₁⟩ ⟨hlen₂, hverify₂⟩
    rw [base64Decode_eq_some_iff] at hsig₁ hsig₂
    have htrim : trim t₁ = trim t₂ := hsig₁.trans hsig₂.symm
    rw [ht₁, ht₂, Option.map_some, Option.map_some, Option.some.injEq] at hmargins
    have htext : t₁ = t₂ := by
      rw [← margins_append_trim t₁, ← margins_append_trim t₂, hmargins, htrim]
    have hcommit : c₁ = c₂ := by
      calc c₁ = { ({ c₁ with signature := none } : Commit) with signature := some t₁ } := by
            rw [← ht₁]
        _ = { ({ c₂ with signature := none } : Commit) with signature := some t₂ } := by
            rw [hunsigned, htext]
        _ = c₂ := by rw [← ht₂]
    rw [← henc₁, ← henc₂, hcommit]

/-- A scheme with one signature for everything. -/
def onlyZeros (_ : Unit) (_ sig : Bytes) : Bool := sig == List.replicate 64 0

/-- A commit with that signature, and something after it. -/
def sampleSigned (tail : Str) : Commit :=
  ⟨.zero, [], [['o']], ['o'], [], [], some (base64Encode (List.replicate 64 0) ++ tail), ['m']⟩

/-- The commit without and with a blank after its signature. -/
def sampleStore : Store :=
  ⟨[(.fill 1, ⟨.commit, (sampleSigned []).encode⟩),
    (.fill 2, ⟨.commit, (sampleSigned [' ']).encode⟩)]⟩

lemma onlyZeros_unique (content : Bytes) :
    ∃! sig : Bytes, sig.length = 64 ∧ onlyZeros () content sig = true := by
  refine ⟨replicate 64 0, ⟨length_replicate, by simp [onlyZeros]⟩, fun sig hsig => ?_⟩
  simpa [onlyZeros] using hsig.2

/-- The two payloads of the sample have the same fields but the signature, and not the same
margins. -/
theorem payload_eq_iff_margins :
    ({ sampleSigned [] with signature := none } : Commit) =
        { sampleSigned [' '] with signature := none } ∧
      ((sampleSigned []).encode = (sampleSigned [' ']).encode ↔
        (sampleSigned []).signature.map margins = (sampleSigned [' ']).signature.map margins) := by
  have hget₁ : sampleStore.get? (.fill 1) = some ⟨.commit, (sampleSigned []).encode⟩ := rfl
  have hget₂ : sampleStore.get? (.fill 2) = some ⟨.commit, (sampleSigned [' ']).encode⟩ := rfl
  exact payload_eq_iff onlyZeros_unique hget₁ hget₂ (by decide +kernel) (by decide +kernel)
    (by decide +kernel) (by decide +kernel) rfl

/-- A blank after the signature gives a second payload for the same signed content. -/
theorem blank_after_signature_accepted :
    (∀ content, ∃! sig : Bytes, sig.length = 64 ∧ onlyZeros () content sig = true) ∧
      Commit.decode (sampleSigned []).encode = .ok (sampleSigned []) ∧
      Commit.decode (sampleSigned [' ']).encode = .ok (sampleSigned [' ']) ∧
      verifyCommitSigned onlyZeros sampleStore (.fill 1) [()] = .ok () ∧
      verifyCommitSigned onlyZeros sampleStore (.fill 2) [()] = .ok () ∧
      commitPayloadWithoutSig (sampleSigned []) = commitPayloadWithoutSig (sampleSigned [' ']) ∧
      (sampleSigned []).encode ≠ (sampleSigned [' ']).encode :=
  ⟨onlyZeros_unique, by decide +kernel, by decide +kernel, by decide +kernel, by decide +kernel,
    rfl,
    by decide +kernel⟩

end RefsPolicy

end Gyt
