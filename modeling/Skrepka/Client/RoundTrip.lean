import Skrepka.Client.Sealing

/-! Decrypting undoes encrypting: the recipient derives the key of the sender, and reads back the
layout that the sender wrote. -/
namespace Skrepka.Client
open Rust

/-- The sizes of what the primitives yield: byte arrays of fixed length, and frames that do not grow
beyond a bound. -/
structure Crates.Sized (x : Crates) : Prop where
  signLength : ∀ seed msg, (x.ed25519Sign seed msg).length = 64
  x25519Length : ∀ scalar point, (x.x25519 scalar point).length = 32
  encodeLength : ∀ p, (x.zstdEncode p).length ≤ 2*p.length+1024

/-- What correct primitives do. -/
structure Crates.Correct (x : Crates) : Prop extends x.Sized where
  agree : ∀ a b, x.x25519 a (x.x25519 b x.x25519Basepoint) =
    x.x25519 b (x.x25519 a x.x25519Basepoint)
  /-- The two key maps belong together. -/
  keyMap : ∀ secretKey, secretKey.length = Crypto.ed25519SecretLen →
    x.toMontgomery (x.ed25519Public (secretKey.take 32)) =
      some (x.x25519 (Crypto.ed25519SkToX25519 x secretKey) x.x25519Basepoint)
  open_seal : ∀ key nonce ad msg ciphertext, x.aeadSeal key nonce ad msg = some ciphertext →
    x.aeadOpen key nonce ad ciphertext = some msg ∧ ciphertext.length = msg.length+16
  verify_sign : ∀ seed msg, seed.length = 32 → x.verifyingKey (x.ed25519Public seed) = true ∧
    x.verifyStrict (x.ed25519Public seed) msg (x.ed25519Sign seed msg) = true
  /-- Within a window of 2 MiB. -/
  decode_encode : ∀ p, p.length ≤ Crypto.maxPlaintextLen →
    x.zstdDecode 21 (Crypto.maxPlaintextLen+1) (x.zstdEncode p) = some p

namespace Crypto

/-- The keys of an identity come from its seed. -/
structure Identity.Valid (x : Crates) (id : Identity) : Prop where
  length : id.secretKey.length = ed25519SecretLen
  publicKey : id.publicKey = x.ed25519Public (id.secretKey.take 32)
  priv : id.x25519Priv = ed25519SkToX25519 x id.secretKey
  pub : id.x25519Pub = x.x25519 id.x25519Priv x.x25519Basepoint

theorem fromSecretBytes_valid {x : Crates} {bytes : Bytes} {id : Identity}
    (h : fromSecretBytes x bytes = .ok id) : id.Valid x := by
  unfold fromSecretBytes withX25519 at h
  split at h
  · simp at h
  rename_i hlen
  split at h
  · simp at h
  rename_i hpub
  simp only at h
  split at h
  · simp at h
  · obtain rfl := Except.ok.inj h
    exact ⟨by simpa using hlen,(Decidable.not_not.mp hpub).symm,rfl,rfl⟩

@[simp] theorem u32ToBeBytes_length (n : ℕ) : (u32ToBeBytes n).length = 4 := rfl

theorem u32FromBeBytes_toBeBytes {n : ℕ} (h : n < 4294967296) :
    u32FromBeBytes (u32ToBeBytes n) = n := by
  simp only [u32FromBeBytes, u32ToBeBytes, UInt8.toNat_ofNat']
  omega

theorem paddedLen_le (n : ℕ) : paddedLen n ≤ n+65536 := by
  simp only [paddedLen]
  split
  · rename_i bucket h
    have hmem := List.mem_of_find?_eq_some h
    simp only [paddingBuckets, List.mem_cons, List.not_mem_nil, or_false] at hmem
    omega
  · split <;> omega

/-- A frame, read from its front. -/
theorem frame_read {compressed padding : Bytes} (h : compressed.length < 4294967296) :
    u32FromBeBytes ((frame compressed padding).take 4) = compressed.length ∧
      ((frame compressed padding).drop 4).take compressed.length = compressed := by
  rw [frame, List.append_assoc, List.take_left' (u32ToBeBytes_length _),
    List.drop_left' (u32ToBeBytes_length _), u32FromBeBytes_toBeBytes h, List.take_left]
  exact ⟨rfl,rfl⟩

@[simp] theorem drawnNonce_length (rng : Rng) (compressed : Bytes) :
    (drawnNonce rng compressed).length = nonceLen := fill_length _ _

theorem frame_length (rng : Rng) (compressed : Bytes) :
    (frame compressed (padding rng compressed)).length = 4+compressed.length+padLen compressed := by
  simp [frame, padding, Nat.add_assoc]

section
variable {x : Crates} {rng : Rng} {sender recipient : Identity} {plaintext : Bytes}

theorem Identity.Valid.publicKey_length {id : Identity} (h : id.Valid x) :
    id.publicKey.length = 32 := by
  simp [Identity.publicKey, h.length, ed25519SecretLen]

theorem Identity.Valid.seed_length {id : Identity} (h : id.Valid x) :
    (id.secretKey.take 32).length = 32 := by
  simp [h.length, ed25519SecretLen]

/-- The blob of a frame is not too long to be looked at. -/
theorem innerBytes_length (hx : x.Sized) (hs : sender.Valid x) (recipientEdPub : Bytes) :
    (innerBytes x rng sender recipientEdPub plaintext).length =
      100+(x.zstdEncode plaintext).length+padLen (x.zstdEncode plaintext) := by
  rw [innerBytes, List.length_append, List.length_append, hs.publicKey_length, hx.signLength,
    frame_length]
  omega

/-- The inside of a blob, read from its front. -/
theorem innerBytes_read (hx : x.Sized) (hs : sender.Valid x) (recipientEdPub : Bytes) :
    let inner := innerBytes x rng sender recipientEdPub plaintext
    inner.take 32 = sender.publicKey ∧
      (inner.drop 32).take 64 =
        x.ed25519Sign (sender.secretKey.take 32) (messageBytes x rng recipientEdPub plaintext) ∧
      inner.drop 96 = frame (x.zstdEncode plaintext) (padding rng (x.zstdEncode plaintext)) := by
  have hkey := hs.publicKey_length
  have hsig := hx.signLength (sender.secretKey.take 32)
    (messageBytes x rng recipientEdPub plaintext)
  refine ⟨?_,?_,?_⟩
  · rw [innerBytes, List.append_assoc, List.take_left' hkey]
  · rw [innerBytes, List.append_assoc, List.drop_left' hkey, List.take_left' hsig]
  · rw [innerBytes, List.drop_left' (by simp [hkey, hsig])]

/-- What was sealed for a recipient opens for it. -/
theorem innerBytes_opens (hx : x.Correct) (hs : sender.Valid x)
    (hlen : (x.zstdEncode plaintext).length < 4294967296)
    (hshort : plaintext.length ≤ maxPlaintextLen) :
    Opens x recipient (innerBytes x rng sender recipient.publicKey plaintext)
      ⟨plaintext,sender.publicKeyHex⟩ := by
  obtain ⟨htake,hsigned,hframe⟩ := innerBytes_read hx.toSized
    hs recipient.publicKey
  have hcompressed : (innerBytes x rng sender recipient.publicKey plaintext).drop 100 =
      (frame (x.zstdEncode plaintext) (padding rng (x.zstdEncode plaintext))).drop 4 := by
    rw [← hframe, List.drop_drop]
  obtain ⟨hread,hcut⟩ := frame_read hlen
  obtain ⟨hverifying,hverify⟩ := hx.verify_sign (sender.secretKey.take 32)
    (messageBytes x rng recipient.publicKey plaintext) hs.seed_length
  have hinner : (innerBytes x rng sender recipient.publicKey plaintext).length =
      100+(x.zstdEncode plaintext).length+padLen (x.zstdEncode plaintext) :=
    innerBytes_length hx.toSized hs _
  refine ⟨by omega,?_,?_,?_,?_,?_⟩
  · rw [hframe, hread]
    omega
  · rw [htake, hs.publicKey]
    exact hverifying
  · rw [htake, hsigned, hframe, hs.publicKey]
    exact hverify
  · rw [hframe, hread, hcompressed, hcut, decompress, hx.decode_encode plaintext hshort]
    exact if_neg (by omega)
  · rw [htake]
    rfl

/-- The header of a blob, read from its front. -/
theorem header_read {ephPub nonce : Bytes} (heph : ephPub.length = 32)
    (hnonce : nonce.length = nonceLen) (ciphertext : Bytes) :
    let blob := wireVersion :: ephPub ++ nonce ++ ciphertext
    (blob.drop 1).take 32 = ephPub ∧ (blob.drop 33).take nonceLen = nonce ∧
      blob.drop (33+nonceLen) = ciphertext := by
  refine ⟨?_,?_,List.drop_left' (by simp [heph, hnonce]; omega)⟩
  · rw [List.cons_append, List.cons_append, List.drop_one, List.tail_cons, List.append_assoc,
      List.take_left' heph]
  · rw [List.append_assoc, List.drop_left' (by simp [heph]), List.take_left' hnonce]

/-- Sender and recipient arrive at one shared secret. -/
theorem x25519_agrees {recipX rawSecret : Bytes} (hx : x.Correct) (hr : recipient.Valid x)
    (hmap : ed25519PkToX25519 x recipient.publicKey = .ok recipX)
    (hraw : x25519 x (rng.fill 32) recipX = .ok rawSecret) : recipX = recipient.x25519Pub ∧
      x25519 x recipient.x25519Priv (x.x25519 (rng.fill 32) x.x25519Basepoint) = .ok rawSecret := by
  have hmont : x.toMontgomery recipient.publicKey = some recipient.x25519Pub := by
    rw [hr.publicKey, hx.keyMap _ hr.length, ← hr.priv, ← hr.pub]
  have hrecipX : recipX = recipient.x25519Pub := by
    rw [ed25519PkToX25519, hmont] at hmap
    simp only at hmap
    split at hmap
    · simp at hmap
    · exact (Except.ok.inj hmap).symm
  refine ⟨hrecipX,?_⟩
  rw [x25519, hx.agree, ← hr.pub, ← hrecipX]
  exact hraw

/-- With correct primitives, the recipient decrypts what was encrypted for it to just that
plaintext, and learns who sent it. -/
theorem decrypt_encrypt {senderSecret recipientSecret blob : Bytes} (hx : x.Correct)
    (hs : fromSecretBytes x senderSecret = .ok sender)
    (hr : fromSecretBytes x recipientSecret = .ok recipient)
    (h : encrypt x rng sender recipient.publicKey plaintext = .ok blob) :
    decrypt x recipient blob = .ok ⟨plaintext,sender.publicKeyHex⟩ := by
  have hs := fromSecretBytes_valid hs
  have hr := fromSecretBytes_valid hr
  obtain ⟨hshort,recipX,rawSecret,ephPub,nonce,ciphertext,heph,hnonce,hmap,hraw,hseal,rfl⟩ :=
    encrypt_ok h
  obtain ⟨hopen,hcipher⟩ := hx.open_seal _ _ _ _ _ hseal
  obtain ⟨rfl,hagree⟩ := x25519_agrees hx hr hmap hraw
  rw [innerBytes_length hx.toSized hs] at hcipher
  have hencoded := hx.encodeLength plaintext
  have hephLen : ephPub.length = 32 := heph ▸ hx.x25519Length _ _
  have hnonceLen : nonce.length = nonceLen := by simp [hnonce]
  have hlen : (wireVersion :: ephPub ++ nonce ++ ciphertext).length = 57+ciphertext.length := by
    simp only [List.cons_append, List.length_cons, List.length_append, hephLen, hnonceLen, nonceLen]
    omega
  have hpad : padLen (x.zstdEncode plaintext) ≤ 65536 := by
    have := paddedLen_le (minBlobLen+(x.zstdEncode plaintext).length)
    simp only [padLen]
    omega
  obtain ⟨hreadEph,hreadNonce,hreadCipher⟩ := header_read hephLen hnonceLen ciphertext
  refine decrypt_eq_ok.mpr ⟨innerBytes x rng sender recipient.publicKey plaintext,
    ⟨?_,?_,rfl,rawSecret,?_,?_⟩,innerBytes_opens hx hs ?_ hshort⟩
  · rw [hlen]
    simp only [minBlobLen, nonceLen]
    omega
  · rw [hlen]
    simp only [maxBlobLen, maxPlaintextLen] at *
    omega
  · rw [hreadEph, heph]
    exact hagree
  · rw [hreadEph, hreadNonce, hreadCipher]
    exact hopen
  · simp only [maxPlaintextLen] at hshort
    omega

end

end Crypto

/-- X25519 points by their logarithms: first those of the sample mail. -/
def samplePoint (n : ℕ) : Bytes :=
  ([9 :: List.replicate 31 0,postedIdentity.x25519Pub,SampleMail.ephPub,
    bytes32 0x59ecd06d48d035b409158e5b0fd2a223fc3af3339d0906cb7afe7c382af4b56a,
    bytes32 0x761d88ec830413919dfe9d4d1d56f17e653c8c994082df5b137b90a0ae6edf74][n]?).getD
    (bytes32 n)

/-- The identity that the sample mail is from. -/
def mailSender : Crypto.Identity where
  secretKey := List.replicate 32 7 ++ Crates.sample.ed25519Public (List.replicate 32 7)
  x25519Priv := bytes32 0x28ad39fefd7fa3e200a9c626eef599e61a2d055c48a8288a4e7e4c4bca392878
  x25519Pub := samplePoint 4

/-- The logarithm of what a scalar multiplies with. -/
def sampleLog (scalar : Bytes) : ℕ :=
  if scalar = postedIdentity.x25519Priv then 1
  else if scalar = List.replicate 32 9 then 2
  else if scalar = mailSender.x25519Priv then 4
  else 8

/-- The first of the sample mail. -/
def firstMail : SampleMail := sampleMail.headD ⟨0,0,"",.null,[],[],0⟩

namespace SampleMail

/-- The key that sample mail is sealed with. -/
def sealKey : Bytes :=
  Crates.posted.hkdf (ephPub ++ postedIdentity.x25519Pub) (samplePoint 3) Crypto.hkdfInfo

def ad (mail : SampleMail) : Bytes :=
  Crypto.aad Crypto.wireVersion ephPub mail.nonce postedIdentity.publicKey

def signatureBytes (mail : SampleMail) : Bytes := mail.signature.flatMap bytes32

def signed (mail : SampleMail) : Bytes :=
  Crypto.msgTag ++ postedIdentity.publicKey ++ mail.frame

end SampleMail

/-- The crates that open sample mail, completed to lawful ones that also seal the first of it. -/
def Crates.lawful : Crates :=
  { Crates.posted with
    ed25519Public := fun seed =>
      if seed = List.replicate 32 3 then postedIdentity.publicKey
      else if seed = List.replicate 32 7 then mailSender.publicKey
      else List.replicate 32 0
    ed25519Sign := fun seed msg =>
      if seed = List.replicate 32 7 ∧ msg = firstMail.signed then firstMail.signatureBytes
      else List.replicate 64 1
    verifyingKey := fun _ => true
    verifyStrict := fun key msg signature =>
      signature = List.replicate 64 1 || Crates.posted.verifyStrict key msg signature
    toMontgomery := fun key => some (samplePoint (if key = mailSender.publicKey then 4 else 1))
    x25519 := fun scalar point =>
      samplePoint (sampleLog scalar+(([0,1,2,4,8].find? fun n => samplePoint n = point).getD 0))
    sha512 := fun seed => if seed = List.replicate 32 7 then
        bytes32 0x2fad39fefd7fa3e200a9c626eef599e61a2d055c48a8288a4e7e4c4bca3928f8 ++
        bytes32 0x9c7d6db3506d65dbac7c052aaee4857425210c9bc54030c826e54055983452a5
      else Crates.posted.sha512 seed
    aeadSeal := fun key nonce ad msg =>
      if key = SampleMail.sealKey ∧ nonce = firstMail.nonce ∧ ad = firstMail.ad ∧
        msg = firstMail.inner then some firstMail.ciphertextBytes
      else some (msg ++ List.replicate 16 0)
    aeadOpen := fun key nonce ad ciphertext =>
      (Crates.posted.aeadOpen key nonce ad ciphertext).or
        (some (ciphertext.take (ciphertext.length-16)))
    zstdEncode := rawFrame }

theorem lawful_log (scalar : Bytes) : sampleLog scalar ∈ [1,2,4,8] := by
  unfold sampleLog
  split
  · simp
  split
  · simp
  split <;> simp

theorem bytes32_length (n : ℕ) : (bytes32 n).length = 32 := by simp [bytes32]

theorem samplePoint_length (n : ℕ) : (samplePoint n).length = 32 := by
  rw [samplePoint]
  match n with
  | 0 | 1 | 2 | 3 | 4 => decide
  | n+5 => exact bytes32_length _

theorem lawful_x25519 (scalar : Bytes) {n : ℕ} (h : n ∈ [0,1,2,4,8]) :
    Crates.lawful.x25519 scalar (samplePoint n) = samplePoint (sampleLog scalar+n) := by
  have hfind : ∀ n ∈ [0,1,2,4,8],
      ([0,1,2,4,8].find? fun k => samplePoint k = samplePoint n) = some n := by decide
  change samplePoint (sampleLog scalar+_) = _
  rw [hfind n h]
  rfl

theorem lawful_base (scalar : Bytes) :
    Crates.lawful.x25519 scalar Crates.lawful.x25519Basepoint = samplePoint (sampleLog scalar) :=
  lawful_x25519 scalar (n := 0) (by simp)

theorem lawful_agree (a b : Bytes) :
    Crates.lawful.x25519 a (Crates.lawful.x25519 b Crates.lawful.x25519Basepoint) =
      Crates.lawful.x25519 b (Crates.lawful.x25519 a Crates.lawful.x25519Basepoint) := by
  rw [lawful_base, lawful_base, lawful_x25519 a (List.mem_cons_of_mem _ (lawful_log b)),
    lawful_x25519 b (List.mem_cons_of_mem _ (lawful_log a)), Nat.add_comm]

theorem posted_scalar (seed : Bytes) :
    ((((Crates.posted.sha512 seed).take 32).modify 0 (· &&& 248)).modify 31
      fun b => (b &&& 127) ||| 64) = postedIdentity.x25519Priv := by
  change (((Crates.posted.sha512 []).take 32).modify 0 (· &&& 248)).modify 31
    (fun b => (b &&& 127) ||| 64) = _
  decide

theorem lawful_keyMap (secretKey : Bytes) :
    Crates.lawful.toMontgomery (Crates.lawful.ed25519Public (secretKey.take 32)) =
      some (Crates.lawful.x25519 (Crypto.ed25519SkToX25519 .lawful secretKey)
        Crates.lawful.x25519Basepoint) := by
  rw [lawful_base]
  have hsk : Crypto.ed25519SkToX25519 .lawful secretKey =
      if secretKey.take 32 = List.replicate 32 7 then mailSender.x25519Priv
      else postedIdentity.x25519Priv := by
    simp only [Crypto.ed25519SkToX25519, Crates.lawful]
    split
    · decide
    · exact posted_scalar _
  rw [hsk]
  change some (samplePoint (if (if secretKey.take 32 = List.replicate 32 3 then
      postedIdentity.publicKey else if secretKey.take 32 = List.replicate 32 7 then
      mailSender.publicKey else List.replicate 32 0) = mailSender.publicKey then 4 else 1)) = _
  obtain ⟨hposted,hsender,hne,hzero,hseeds⟩ :
      sampleLog postedIdentity.x25519Priv = 1 ∧ sampleLog mailSender.x25519Priv = 4 ∧
      postedIdentity.publicKey ≠ mailSender.publicKey ∧
      List.replicate 32 0 ≠ mailSender.publicKey ∧
      List.replicate 32 (7 : UInt8) ≠ List.replicate 32 3 := by decide
  by_cases h₇ : secretKey.take 32 = List.replicate 32 7
  · simp only [h₇, hseeds, if_true, if_false, hsender]
  · by_cases h₃ : secretKey.take 32 = List.replicate 32 3
    · simp only [h₃, hseeds.symm, if_true, if_false, hne, hposted]
    · simp only [h₃, h₇, if_false, hzero, hposted]

theorem lawful_open_seal (key nonce ad msg ciphertext : Bytes)
    (h : Crates.lawful.aeadSeal key nonce ad msg = some ciphertext) :
    Crates.lawful.aeadOpen key nonce ad ciphertext = some msg ∧
      ciphertext.length = msg.length+16 := by
  simp only [Crates.lawful] at h ⊢
  split at h
  · rename_i hmail
    obtain ⟨rfl,rfl,rfl,rfl⟩ := hmail
    obtain rfl := Option.some.inj h
    decide +kernel
  · obtain rfl := Option.some.inj h
    have hnone : Crates.posted.aeadOpen key nonce ad (msg ++ List.replicate 16 0) = none := by
      have hlast : ∀ mail ∈ sampleMail, mail.ciphertextBytes.getLast? ≠ some 0 := by decide
      simp only [Crates.posted, Option.map_eq_none_iff, List.find?_eq_none]
      intro mail hmem hopen
      simp only [decide_eq_true_eq] at hopen
      refine hlast mail hmem ?_
      rw [← hopen.2.2.2]
      simp
    rw [hnone]
    simp

theorem lawful_correct : Crates.lawful.Correct where
  signLength seed msg := by
    simp only [Crates.lawful]
    split
    · decide
    · simp
  x25519Length scalar point := samplePoint_length _
  agree := lawful_agree
  keyMap secretKey _ := lawful_keyMap secretKey
  open_seal := lawful_open_seal
  verify_sign seed msg _ := by
    refine ⟨rfl,?_⟩
    simp only [Crates.lawful]
    split
    · rename_i h
      obtain ⟨rfl,rfl⟩ := h
      decide
    · simp
  decode_encode p hp := by
    have hdrop : (rawFrame p).drop 9 = p := rfl
    simp only [Crates.lawful, Crates.posted, hdrop, if_true]
    rw [List.take_of_length_le (by omega)]
  encodeLength p := by
    change (rawFrame p).length ≤ _
    simp only [rawFrame, List.length_append, List.length_cons, List.length_nil]
    omega

namespace Crypto

/-- The first sample mail, sealed and opened. -/
theorem decrypt_encrypt_mail :
    encrypt .lawful (fun n => if n < 32 then 9 else 1) mailSender postedIdentity.publicKey
        (asBytes firstMail.text) = .ok firstMail.blob ∧
      decrypt .lawful postedIdentity firstMail.blob =
        .ok ⟨asBytes firstMail.text,samplePeer 7⟩ := by
  have hseal : encrypt .lawful (fun n => if n < 32 then 9 else 1) mailSender
      postedIdentity.publicKey (asBytes firstMail.text) = .ok firstMail.blob := by
    decide +kernel
  have hsender : fromSecretBytes .lawful mailSender.secretKey = .ok mailSender := by
    decide
  have hrecipient : fromSecretBytes .lawful sampleSecret = .ok postedIdentity := by decide
  exact ⟨hseal,decrypt_encrypt lawful_correct hsender hrecipient hseal⟩

end Crypto
end Skrepka.Client
