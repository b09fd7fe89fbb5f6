import Skrepka.Lib.Checked
import Skrepka.Client.Authentic

/-! No panic on hostile bytes: `decrypt` with the checks that Rust makes at run time returns what it
returns without them, whatever the bytes. -/
namespace Skrepka.Client
open Rust Rust.Checked

namespace Crypto

section
variable (x : Crates)

/-- `decrypt` with a `usize` of so many bits. A value whose type is an array has the length of its
type; every index, slice and copy of the two buffers is checked, and so is arithmetic on their lengths. -/
def decryptChecked (bits : ℕ) (recipient : Identity) (blob : Bytes) : Run CryptoError Decrypted := do
  if blob.length < minBlobLen then throw .blobTooShort
  if blob.length > maxBlobLen then throw .blobTooLong
  let version ← check (index blob 0)
  if version ≠ wireVersion then throw .decrypt
  let ephPub ← check (slice blob 1 33 >>= copyFromSlice 32)
  let nonceEnd ← check (usizeAdd bits 33 nonceLen)
  let nonce ← check (slice blob 33 nonceEnd >>= copyFromSlice nonceLen)
  let ciphertext ← check (sliceFrom blob nonceEnd)
  let rawSecret ← attempt (x25519 x recipient.x25519Priv ephPub)
  let key := deriveKey x rawSecret ephPub recipient.x25519Pub
  let recipPub := recipient.publicKey
  match x.aeadOpen key nonce (aad version ephPub nonce recipPub) ciphertext with
  | none => throw .decrypt
  | some inner =>
    if inner.length < 32+64+4 then throw .blobTooShort
    let senderPub ← check (slice inner 0 32 >>= copyFromSlice 32)
    let sigBytes ← check (slice inner 32 96 >>= copyFromSlice 64)
    let a ← check (index inner 96)
    let b ← check (index inner 97)
    let c ← check (index inner 98)
    let d ← check (index inner 99)
    let compressedLen := asUsize bits (u32FromBeBytes [a,b,c,d])
    -- `saturating_sub`
    if compressedLen > inner.length-100 then throw .decrypt
    let compressedEnd ← check (usizeAdd bits 100 compressedLen)
    let compressed ← check (slice inner 100 compressedEnd)
    if ¬ x.verifyingKey senderPub then throw .badSignature
    let tagged ← check (usizeAdd bits msgTag.length 32)
    let signedFrom ← check (usizeSub inner.length 96)
    let capacity ← check (usizeAdd bits tagged signedFrom)
    check (withCapacity bits capacity)
    let signedBytes ← check (sliceFrom inner 96)
    let signed := msgTag ++ recipPub ++ signedBytes
    if ¬ x.verifyStrict senderPub signed sigBytes then throw .badSignature
    let plaintext ← attempt (decompress x compressed)
    return ⟨plaintext,Hex.encode senderPub⟩

/-- The decoder stops one byte past the limit, and a plaintext over the limit is an error. -/
theorem decompress_length {data out : Bytes} (h : decompress x data = .ok out) :
    out.length ≤ maxPlaintextLen := by
  unfold decompress at h
  split at h
  · cases h
  · rename_i decoded hdecoded
    split at h
    · cases h
    · cases h
      omega

variable {x}

theorem x25519_error {scalar point : Bytes} {e : CryptoError} (h : x25519 x scalar point = .error e) :
    e = .invalidEphemeralKey := by
  simp only [x25519] at h
  split at h <;> cases h
  rfl

theorem decompress_error {data : Bytes} {e : CryptoError} (h : decompress x data = .error e) :
    e = .decompress := by
  simp only [decompress] at h
  split at h
  · cases h
    rfl
  · split at h <;> cases h
    rfl

/-- A ciphertext that is not too short opens to all the fixed fields. -/
theorem inner_length {blob inner key nonce ad : Bytes}
    (hopen : ∀ key nonce ad c inner, x.aeadOpen key nonce ad c = some inner → inner.length+16 = c.length)
    (hlen : minBlobLen ≤ blob.length) (h : x.aeadOpen key nonce ad (blob.drop (33+nonceLen)) = some inner) :
    32+64+4 ≤ inner.length := by
  have htag := hopen _ _ _ _ _ h
  rw [List.length_drop] at htag
  simp only [minBlobLen, nonceLen] at hlen htag
  omega

/-- Four bytes read one by one. -/
theorem four_indices {bs : Bytes} {n : ℕ} (h : n+4 ≤ bs.length) :
    ∃ a b c d, index bs n = some a ∧ index bs (n+1) = some b ∧ index bs (n+2) = some c ∧
      index bs (n+3) = some d ∧ (bs.drop n).take 4 = [a,b,c,d] := by
  have hlen : 4 ≤ (bs.drop n).length := by
    rw [List.length_drop]
    omega
  have hindex : ∀ k, index bs (n+k) = (bs.drop n)[k]? := fun k => List.getElem?_drop.symm
  obtain ⟨a,b,c,d,rest,hdrop⟩ : ∃ a b c d rest, bs.drop n = a :: b :: c :: d :: rest := by
    match bs.drop n, hlen with
    | a :: b :: c :: d :: rest, _ => exact ⟨a,b,c,d,rest,rfl⟩
  refine ⟨a,b,c,d,?_,?_,?_,?_,?_⟩
  · exact (hindex 0).trans (by rw [hdrop]; rfl)
  · exact (hindex 1).trans (by rw [hdrop]; rfl)
  · exact (hindex 2).trans (by rw [hdrop]; rfl)
  · exact (hindex 3).trans (by rw [hdrop]; rfl)
  · rw [hdrop]
    rfl

theorem u32FromBeBytes_lt (bs : Bytes) : u32FromBeBytes bs < 2^32 := by
  unfold u32FromBeBytes
  split
  · rename_i a b c d
    have ha := a.toNat_lt
    have hb := b.toNat_lt
    have hc := c.toNat_lt
    have hd := d.toNat_lt
    omega
  · exact Nat.two_pow_pos 32

/-- The checks on the header of a blob that is not too short. -/
theorem header_checks {bits : ℕ} (hbits : 32 ≤ bits) {blob : Bytes} (hlen : minBlobLen ≤ blob.length) :
    index blob 0 = some (blob.headD 0) ∧
    (slice blob 1 33 >>= copyFromSlice 32) = some ((blob.drop 1).take 32) ∧
    usizeAdd bits 33 nonceLen = some (33+nonceLen) ∧
    (slice blob 33 (33+nonceLen) >>= copyFromSlice nonceLen) = some ((blob.drop 33).take nonceLen) ∧
    sliceFrom blob (33+nonceLen) = some (blob.drop (33+nonceLen)) := by
  have hpow : 2^32 ≤ 2^bits := Nat.pow_le_pow_right (by omega) hbits
  simp only [minBlobLen] at hlen
  refine ⟨?_,slice_copy rfl (by omega),usizeAdd_eq ?_,slice_copy rfl ?_,sliceFrom_eq ?_⟩
  · cases blob with
    | nil => simp at hlen
    | cons v blob => rfl
  all_goals simp only [nonceLen]; omega

/-- The checks on the fields of the inner buffer. -/
theorem inner_checks {inner : Bytes} (hlen : 32+64+4 ≤ inner.length) :
    (slice inner 0 32 >>= copyFromSlice 32) = some (inner.take 32) ∧
    (slice inner 32 96 >>= copyFromSlice 64) = some ((inner.drop 32).take 64) ∧
    sliceFrom inner 96 = some (inner.drop 96) ∧ usizeSub inner.length 96 = some (inner.length-96) :=
  ⟨slice_copy rfl (by omega),slice_copy rfl (by omega),sliceFrom_eq (by omega),usizeSub_eq (by omega)⟩

/-- Where the field of the compressed length fits, so does the slice. -/
theorem compressed_checks {bits : ℕ} (hbits : 32 ≤ bits) {inner : Bytes} (hlen : 32+64+4 ≤ inner.length)
    (hmax : inner.length ≤ maxBlobLen) {n : ℕ} (hfits : ¬ n > inner.length-100) :
    usizeAdd bits 100 n = some (100+n) ∧ slice inner 100 (100+n) = some ((inner.drop 100).take n) := by
  have hpow : 2^32 ≤ 2^bits := Nat.pow_le_pow_right (by omega) hbits
  simp only [maxBlobLen] at hmax
  refine ⟨usizeAdd_eq (by omega),?_⟩
  rw [slice_eq (by omega) (by omega), Nat.add_sub_cancel_left]

/-- The checks on the buffer of the signed text. -/
theorem signed_checks {bits : ℕ} (hbits : 32 ≤ bits) {inner : Bytes} (hmax : inner.length ≤ maxBlobLen) :
    usizeAdd bits msgTag.length 32 = some (msgTag.length+32) ∧
    usizeAdd bits (msgTag.length+32) (inner.length-96) = some (msgTag.length+32+(inner.length-96)) ∧
    withCapacity bits (msgTag.length+32+(inner.length-96)) = some ⟨⟩ := by
  have hpow : 2^31 ≤ 2^(bits-1) := Nat.pow_le_pow_right (by omega) (by omega)
  have hpow' : 2^32 ≤ 2^bits := Nat.pow_le_pow_right (by omega) hbits
  have htag : msgTag.length = 15 := by decide
  simp only [maxBlobLen] at hmax
  exact ⟨usizeAdd_eq (by omega),usizeAdd_eq (by omega),withCapacity_eq (by omega)⟩

/-- No check fails. -/
theorem decryptChecked_eq {bits : ℕ} (hbits : 32 ≤ bits)
    (hopen : ∀ key nonce ad c inner, x.aeadOpen key nonce ad c = some inner → inner.length+16 = c.length)
    (recipient : Identity) (blob : Bytes) :
    decryptChecked x bits recipient blob = attempt (decrypt x recipient blob) := by
  unfold decryptChecked decrypt
  by_cases hshort : blob.length < minBlobLen
  · rw [if_pos hshort, if_pos hshort]
    rfl
  by_cases hlong : blob.length > maxBlobLen
  · rw [if_neg hshort, if_neg hshort, if_pos hlong, if_pos hlong]
    rfl
  rw [if_neg hshort, if_neg hshort, if_neg hlong, if_neg hlong]
  have hlen : minBlobLen ≤ blob.length := Nat.le_of_not_lt hshort
  obtain ⟨hversion,hephPub,hnonceEnd,hnonce,hciphertext⟩ := header_checks hbits hlen
  rw [check_bind hversion]
  by_cases hwire : blob.headD 0 ≠ wireVersion
  · rw [if_pos hwire, if_pos hwire]
    rfl
  simp only [if_neg hwire]
  rw [check_bind hephPub, check_bind hnonceEnd, check_bind hnonce, check_bind hciphertext]
  cases hsecret : x25519 x recipient.x25519Priv ((blob.drop 1).take 32) with
  | error e => rfl
  | ok rawSecret =>
    rw [attempt_ok rfl]
    change _ = attempt (match x.aeadOpen _ _ _ _ with | none => _ | some inner => _)
    split
    · rfl
    · rename_i inner hinner
      have hfixed := inner_length hopen hlen hinner
      have hmax : inner.length ≤ maxBlobLen := by
        have := hopen _ _ _ _ _ hinner
        rw [List.length_drop] at this
        omega
      obtain ⟨hsender,hsignature,hsigned,hrest⟩ := inner_checks hfixed
      obtain ⟨a,b,c,d,ha,hb,hc,hd,hfield⟩ := four_indices (show 96+4 ≤ inner.length from hfixed)
      have hfrom : asUsize bits (u32FromBeBytes [a,b,c,d]) = u32FromBeBytes [a,b,c,d] :=
        asUsize_eq (Nat.lt_of_lt_of_le (u32FromBeBytes_lt _) (Nat.pow_le_pow_right (by omega) hbits))
      simp only [if_neg (Nat.not_lt.mpr hfixed), hfield]
      rw [check_bind hsender, check_bind hsignature, check_bind ha, check_bind hb, check_bind hc,
        check_bind hd, hfrom]
      by_cases hfits : u32FromBeBytes [a,b,c,d] > inner.length-100
      · rw [if_pos hfits, if_pos hfits]
        rfl
      simp only [if_neg hfits]
      obtain ⟨hend,hcompressed⟩ := compressed_checks hbits hfixed hmax hfits
      obtain ⟨htagged,hcapacity,hroom⟩ := signed_checks hbits hmax
      rw [check_bind hend, check_bind hcompressed]
      by_cases hkey : x.verifyingKey (inner.take 32) = true
      · rw [if_neg (not_not.2 hkey), if_neg (not_not.2 hkey), check_bind htagged, check_bind hrest,
          check_bind hcapacity, check_bind hroom, check_bind hsigned]
        split
        · rfl
        · cases decompress x ((inner.drop 100).take (u32FromBeBytes [a,b,c,d])) <;> rfl
      · rw [if_pos hkey, if_pos hkey]
        rfl

/-- Only a blob that is too short is called so. -/
theorem blobTooShort_iff
    (hopen : ∀ key nonce ad c inner, x.aeadOpen key nonce ad c = some inner → inner.length+16 = c.length)
    (recipient : Identity) (blob : Bytes) :
    decrypt x recipient blob = .error .blobTooShort ↔ blob.length < minBlobLen := by
  constructor
  · intro h
    by_contra hshort
    unfold decrypt at h
    by_cases hlong : blob.length > maxBlobLen
    · rw [if_neg hshort, if_pos hlong] at h
      cases h
    rw [if_neg hshort, if_neg hlong] at h
    by_cases hwire : blob.headD 0 ≠ wireVersion
    · rw [if_pos hwire] at h
      cases h
    simp only [if_neg hwire] at h
    cases hsecret : x25519 x recipient.x25519Priv ((blob.drop 1).take 32) with
    | error e =>
      rw [hsecret, x25519_error hsecret] at h
      cases h
    | ok rawSecret =>
      rw [hsecret] at h
      change (match x.aeadOpen _ _ _ _ with | none => _ | some inner => _) = _ at h
      split at h
      · cases h
      · rename_i inner hinner
        have hfixed := inner_length hopen (Nat.le_of_not_lt hshort) hinner
        simp only [if_neg (Nat.not_lt.2 hfixed)] at h
        split at h
        · cases h
        split at h
        · cases h
        split at h
        · cases h
        cases hout : decompress x ((inner.drop 100).take (u32FromBeBytes ((inner.drop 96).take 4))) with
        | error e =>
          rw [hout, decompress_error hout] at h
          cases h
        | ok plaintext =>
          rw [hout] at h
          cases h
  · intro hshort
    unfold decrypt
    rw [if_pos hshort]
    rfl

/-- Where opening takes 16 bytes off, no check of `decrypt` fails on any bytes; the inner buffer is
never too short, and no plaintext is longer than the limit. -/
theorem decrypt_never_panics {bits : ℕ} (hbits : 32 ≤ bits)
    (hopen : ∀ key nonce ad c inner, x.aeadOpen key nonce ad c = some inner → inner.length+16 = c.length)
    (recipient : Identity) (blob : Bytes) :
    decryptChecked x bits recipient blob = some (decrypt x recipient blob) ∧
      (∀ key nonce ad inner, minBlobLen ≤ blob.length →
        x.aeadOpen key nonce ad (blob.drop (33+nonceLen)) = some inner → 32+64+4 ≤ inner.length) ∧
      (decrypt x recipient blob = .error .blobTooShort ↔ blob.length < minBlobLen) ∧
      ∀ data out, decompress x data = .ok out → out.length ≤ maxPlaintextLen :=
  ⟨decryptChecked_eq hbits hopen recipient blob,fun _ _ _ _ hlen => inner_length hopen hlen,
    blobTooShort_iff hopen recipient blob,fun _ _ => decompress_length x⟩

/-- The first sample mail opens with every check made. -/
theorem decrypt_never_panics_mail :
    decryptChecked .ideal 64 postedIdentity firstMail.blob =
      some (.ok ⟨asBytes firstMail.text,mailSender.publicKeyHex⟩) := by
  have hdecrypt : decrypt .ideal postedIdentity firstMail.blob =
      .ok ⟨asBytes firstMail.text,mailSender.publicKeyHex⟩ := by decide +kernel
  have hopen : ∀ key nonce ad c inner, Crates.ideal.aeadOpen key nonce ad c = some inner →
      inner.length+16 = c.length := by
    intro key nonce ad c inner h
    simp only [Crates.ideal, Option.ite_none_right_eq_some, Option.some.injEq] at h
    obtain ⟨⟨-,-,-,rfl⟩,rfl⟩ := h
    decide +kernel
  rw [← hdecrypt]
  exact (decrypt_never_panics (by decide) hopen postedIdentity firstMail.blob).1

end
end Crypto
end Skrepka.Client
