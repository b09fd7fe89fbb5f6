import Skrepka.Client.RoundTrip

/-! Sender authenticity: with ideal primitives, what a recipient decrypts was encrypted for it by
the owner of the key that it names. -/
namespace Skrepka.Client
open Rust

namespace Crypto

/-- The two ways in which the code signs something with a secret key. -/
inductive SigningRun
  | encrypt (rng : Rng) (sender : Identity) (recipientEdPub : Bytes)
      (hlen : recipientEdPub.length = 32) (plaintext : Bytes)
  | signChallenge (id : Identity) (serverHost challenge : String)

def challengeBytes (serverHost challenge : String) : Bytes :=
  asBytes (authTag ++ serverHost ++ ":" ++ challenge)

/-- The public key under which a run signs, and what it signs, if it gets there. -/
def SigningRun.signs (x : Crates) : SigningRun → Option (Bytes × Bytes)
  | encrypt rng sender recipientEdPub _ plaintext => do
    guard (plaintext.length ≤ maxPlaintextLen)
    let recipX ← (ed25519PkToX25519 x recipientEdPub).toOption
    let _ ← (x25519 x (rng.fill 32) recipX).toOption
    return (sender.publicKey,messageBytes x rng recipientEdPub plaintext)
  | signChallenge id serverHost challenge =>
    if len challenge > maxChallengeLen then none
    else some (id.publicKey,challengeBytes serverHost challenge)

/-- A signature verifies for nothing but what it was made for. -/
def Binds (x : Crates) (verify : Bytes → Bytes → Bytes → Bool) : Prop :=
  ∀ key seed msg msg', verify key msg (x.ed25519Sign seed msg') = true → msg = msg'

/-- Ideal primitives, where the owners of the keys made some runs. -/
structure Ideal (x : Crates) (log : List SigningRun) : Prop where
  unforgeable : ∀ key msg signature, x.verifyStrict key msg signature = true →
    ∃ run ∈ log, run.signs x = some (key,msg)
  binding : Binds x x.verifyStrict
  /-- What was sealed opens under the same key, nonce and associated data only. -/
  sealing : ∀ key nonce ad msg ciphertext key' nonce' ad' msg',
    x.aeadSeal key nonce ad msg = some ciphertext →
    x.aeadOpen key' nonce' ad' ciphertext = some msg' →
    key = key' ∧ nonce = nonce' ∧ ad = ad' ∧ msg = msg'

/-- The two kinds of signed bytes differ at the ninth. -/
theorem challengeBytes_ne (serverHost challenge : String) (rest : Bytes) :
    challengeBytes serverHost challenge ≠ msgTag ++ rest := by
  intro h
  rw [challengeBytes, asBytes_append, asBytes_append, asBytes_append, List.append_assoc,
    List.append_assoc] at h
  have hninth : (asBytes authTag)[8]? = some 97 ∧ msgTag[8]? = some 109 := by decide
  have heq : (asBytes authTag ++ _)[8]? = (msgTag ++ rest)[8]? := congrArg (·[8]?) h
  rw [List.getElem?_append_left (by decide), List.getElem?_append_left (by decide),
    hninth.1, hninth.2] at heq
  simp at heq

/-- A run of `encrypt` that returns a blob has signed its message. -/
theorem encrypt_signs {x : Crates} {rng : Rng} {sender : Identity} {recipientEdPub plaintext blob : Bytes}
    (hlen : recipientEdPub.length = 32)
    (h : encrypt x rng sender recipientEdPub plaintext = .ok blob) :
    (SigningRun.encrypt rng sender recipientEdPub hlen plaintext).signs x =
      some (sender.publicKey,messageBytes x rng recipientEdPub plaintext) := by
  obtain ⟨hshort,recipX,rawSecret,_,_,_,_,_,hmap,hraw,-,-⟩ := encrypt_ok h
  simp [SigningRun.signs, guard, hshort, hmap, hraw, Except.toOption]

section
variable {x : Crates} {log : List SigningRun} {recipient : Identity}

/-- A frame tells its length, and with it what was compressed. -/
theorem frame_compressed {compressed padding : Bytes} (h : compressed.length < 4294967296) :
    ((frame compressed padding).drop 4).take
      (u32FromBeBytes ((frame compressed padding).take 4)) = compressed := by
  obtain ⟨hread,hcut⟩ := frame_read h
  rw [hread, hcut]

/-- What opens for a recipient was signed in a run of `encrypt` for that recipient. -/
theorem opens_authentic {inner : Bytes} {dec : Decrypted} (hx : x.Sized) (hi : Ideal x log)
    (hr : recipient.Valid x) (h : Opens x recipient inner dec) :
    ∃ rng sender hlen plaintext, .encrypt rng sender recipient.publicKey hlen plaintext ∈ log ∧
      sender.publicKeyHex = dec.senderHex ∧
      decompress x (x.zstdEncode plaintext) = .ok dec.plaintext := by
  obtain ⟨run,hrun,hsigns⟩ := hi.unforgeable _ _ _ h.signature
  cases run with
  | signChallenge id serverHost challenge =>
    simp only [SigningRun.signs, Option.ite_none_left_eq_some, Option.some.injEq,
      Prod.mk.injEq] at hsigns
    obtain ⟨-,-,hbytes⟩ := hsigns
    rw [List.append_assoc] at hbytes
    exact absurd hbytes (challengeBytes_ne _ _ _)
  | encrypt rng sender recipientEdPub hlen plaintext =>
    simp only [SigningRun.signs, guard, Option.bind_eq_bind, Option.bind_eq_some_iff, Option.pure_def,
      Option.some.injEq, Prod.mk.injEq] at hsigns
    obtain ⟨_,hshort,_,-,_,-,hkey,hbytes⟩ := hsigns
    have hshort : plaintext.length ≤ maxPlaintextLen := by
      by_contra hlong
      simp [hlong] at hshort
    rw [messageBytes, List.append_assoc, List.append_assoc] at hbytes
    obtain ⟨hrecipient,hframe⟩ := List.append_inj (List.append_cancel_left hbytes)
      (hlen.trans hr.publicKey_length.symm)
    subst hrecipient
    refine ⟨rng,sender,hlen,plaintext,hrun,?_,?_⟩
    · rw [h.sender, ← hkey]
      rfl
    · have hencoded := hx.encodeLength plaintext
      simp only [maxPlaintextLen] at hshort
      have hplain := h.plaintext
      rwa [← hframe, show inner.drop 100 = (inner.drop 96).drop 4 by rw [List.drop_drop],
        ← hframe, frame_compressed (by omega)] at hplain

/-- The associated data name one recipient. -/
theorem aad_injective {version version' : UInt8} {ephPub ephPub' nonce nonce' pub pub' : Bytes}
    (h : aad version ephPub nonce pub = aad version' ephPub' nonce' pub')
    (heph : ephPub.length = ephPub'.length) (hnonce : nonce.length = nonce'.length) :
    pub = pub' := by
  simp only [aad, List.cons_append, List.cons.injEq] at h
  exact (List.append_inj h.2 (by simp [heph, hnonce])).2

/-- A blob that was made for one recipient opens for no other. -/
theorem blob_bound {rng : Rng} {sender : Identity} {other plaintext blob : Bytes} {dec : Decrypted}
    (hx : x.Sized) (hi : Ideal x log) (hmade : encrypt x rng sender other plaintext = .ok blob)
    (h : decrypt x recipient blob = .ok dec) : other = recipient.publicKey := by
  obtain ⟨inner,⟨-,-,-,rawSecret,-,hopen⟩,-⟩ := decrypt_eq_ok.mp h
  obtain ⟨-,recipX,rawSecret',ephPub,nonce,ciphertext,heph,hnonce,-,-,hseal,rfl⟩ := encrypt_ok hmade
  have hephLen : ephPub.length = 32 := heph ▸ hx.x25519Length _ _
  have hnonceLen : nonce.length = nonceLen := by simp [hnonce]
  obtain ⟨hreadEph,hreadNonce,hreadCipher⟩ := header_read hephLen hnonceLen ciphertext
  rw [hreadEph, hreadNonce, hreadCipher] at hopen
  obtain ⟨-,-,had,-⟩ := hi.sealing _ _ _ _ _ _ _ _ _ hseal hopen
  exact aad_injective had rfl rfl

/-- The inside of a blob that was made for one recipient opens for no other, in whatever blob. -/
theorem inner_bound {rng : Rng} {sender : Identity} {other plaintext : Bytes} {dec : Decrypted}
    (hx : x.Sized) (hi : Ideal x log) (hs : sender.Valid x)
    (h : Opens x recipient (innerBytes x rng sender other plaintext) dec) :
    other = recipient.publicKey := by
  obtain ⟨-,hsigned,hframe⟩ := innerBytes_read hx hs other
  have hverify := h.signature
  rw [hsigned, hframe] at hverify
  have hbytes := hi.binding _ _ _ _ hverify
  rw [messageBytes, List.append_assoc, List.append_assoc] at hbytes
  exact (List.append_cancel_right (List.append_cancel_left hbytes)).symm

/-- Opening the seal of a blob yields one inside. -/
theorem Unseals.unique {blob inner inner' : Bytes} (h : Unseals x recipient blob inner)
    (h' : Unseals x recipient blob inner') : inner = inner' := by
  obtain ⟨_,hraw,hopen⟩ := h.opened
  obtain ⟨_,hraw',hopen'⟩ := h'.opened
  obtain rfl := Except.ok.inj (hraw.symm.trans hraw')
  exact Option.some.inj (hopen.symm.trans hopen')

/-- A signature over a challenge is none over a message. -/
theorem challenge_not_message {id : Identity} {serverHost challenge : String} {signature : Bytes}
    (hi : Ideal x log) (hsign : signChallenge x id serverHost challenge = .ok (Hex.encode signature))
    {inner : Bytes} {dec : Decrypted} (h : Opens x recipient inner dec) :
    (inner.drop 32).take 64 ≠ signature := by
  rintro rfl
  unfold signChallenge at hsign
  split at hsign
  · simp at hsign
  have hsignature := Hex.encode_injective (Except.ok.inj hsign)
  have hverify := h.signature
  rw [← hsignature] at hverify
  have hbytes := hi.binding _ _ _ _ hverify
  rw [List.append_assoc] at hbytes
  exact challengeBytes_ne serverHost challenge _ hbytes.symm

/-- With ideal primitives, whatever a recipient decrypts was encrypted for it by its sender. A blob
for another recipient, or its inside in a new blob, is not accepted, nor is the signature over a
challenge; and no verifier takes a message signature for one over a challenge. -/
theorem sender_authentic {recipientSecret : Bytes} (hx : x.Sized) (hi : Ideal x log)
    (hr : fromSecretBytes x recipientSecret = .ok recipient) :
    (∀ blob dec, decrypt x recipient blob = .ok dec → ∃ rng sender hlen plaintext,
      .encrypt rng sender recipient.publicKey hlen plaintext ∈ log ∧
      sender.publicKeyHex = dec.senderHex ∧
      decompress x (x.zstdEncode plaintext) = .ok dec.plaintext) ∧
    (∀ rng sender other plaintext blob, other ≠ recipient.publicKey →
      encrypt x rng sender other plaintext = .ok blob → ∀ dec, decrypt x recipient blob ≠ .ok dec) ∧
    (∀ rng senderSecret sender other plaintext blob,
      fromSecretBytes x senderSecret = .ok sender → other ≠ recipient.publicKey →
      Unseals x recipient blob (innerBytes x rng sender other plaintext) →
      ∀ dec, decrypt x recipient blob ≠ .ok dec) ∧
    (∀ id serverHost challenge blob inner,
      signChallenge x id serverHost challenge = .ok (Hex.encode ((inner.drop 32).take 64)) →
      Unseals x recipient blob inner → ∀ dec, decrypt x recipient blob ≠ .ok dec) ∧
    ∀ verify, Binds x verify → ∀ rng (sender : Identity) other plaintext key serverHost challenge,
      verify key (challengeBytes serverHost challenge)
        (x.ed25519Sign (sender.secretKey.take 32) (messageBytes x rng other plaintext)) = false := by
  have hr := fromSecretBytes_valid hr
  refine ⟨fun blob dec h => ?_,fun rng sender other plaintext blob hne hmade dec h => ?_,
    fun rng senderSecret sender other plaintext blob hs hne hwrapped dec h => ?_,
    fun id serverHost challenge blob inner hsign hwrapped dec h => ?_,
    fun verify hverify rng sender other plaintext key serverHost challenge => ?_⟩
  · obtain ⟨inner,-,hopens⟩ := decrypt_eq_ok.mp h
    exact opens_authentic hx hi hr hopens
  · exact hne (blob_bound hx hi hmade h)
  · obtain ⟨inner,hunseals,hopens⟩ := decrypt_eq_ok.mp h
    obtain rfl := hwrapped.unique hunseals
    exact hne (inner_bound hx hi (fromSecretBytes_valid hs) hopens)
  · obtain ⟨inner',hunseals,hopens⟩ := decrypt_eq_ok.mp h
    obtain rfl := hwrapped.unique hunseals
    exact challenge_not_message hi hsign hopens rfl
  · by_contra htrue
    have hbytes := hverify _ _ _ _ (by simpa using htrue)
    rw [messageBytes, List.append_assoc] at hbytes
    exact challengeBytes_ne serverHost challenge _ hbytes

end

end Crypto

/-- The lawful crates, made ideal for the first sample mail alone. -/
def Crates.ideal : Crates :=
  { Crates.lawful with
    verifyStrict := fun key msg signature => key = mailSender.publicKey ∧ msg = firstMail.signed ∧
      signature = firstMail.signatureBytes
    aeadSeal := fun key nonce ad msg =>
      if key = SampleMail.sealKey ∧ nonce = firstMail.nonce ∧ ad = firstMail.ad ∧
        msg = firstMail.inner then some firstMail.ciphertextBytes
      else none
    aeadOpen := fun key nonce ad ciphertext =>
      if key = SampleMail.sealKey ∧ nonce = firstMail.nonce ∧ ad = firstMail.ad ∧
        ciphertext = firstMail.ciphertextBytes then some firstMail.inner
      else none }

namespace Crypto

/-- Its sender ran `encrypt` once. -/
def mailLog : List SigningRun :=
  [.encrypt (fun n => if n < 32 then 9 else 1) mailSender postedIdentity.publicKey
    (by decide) (asBytes firstMail.text)]

theorem mailLog_ideal : Ideal .ideal mailLog where
  unforgeable key msg signature h := by
    obtain ⟨rfl,rfl,rfl⟩ : key = mailSender.publicKey ∧ msg = firstMail.signed ∧
      signature = firstMail.signatureBytes := by simpa [Crates.ideal] using h
    exact ⟨_,List.mem_singleton_self _,by decide⟩
  binding key seed msg msg' h := by
    obtain ⟨-,rfl,hsign⟩ : key = mailSender.publicKey ∧ msg = firstMail.signed ∧
      Crates.ideal.ed25519Sign seed msg' = firstMail.signatureBytes := by
        simpa [Crates.ideal] using h
    by_contra hne
    have hother : Crates.ideal.ed25519Sign seed msg' = List.replicate 64 1 :=
      if_neg fun hboth => hne hboth.2.symm
    rw [hother] at hsign
    exact absurd hsign (by decide)
  sealing key nonce ad msg ciphertext key' nonce' ad' msg' hseal hopen := by
    simp only [Crates.ideal, Option.ite_none_right_eq_some, Option.some.injEq] at hseal hopen
    obtain ⟨⟨rfl,rfl,rfl,rfl⟩,-⟩ := hseal
    obtain ⟨⟨rfl,rfl,rfl,-⟩,rfl⟩ := hopen
    exact ⟨rfl,rfl,rfl,rfl⟩

/-- The first sample mail opens, and its sender encrypted it. -/
theorem sender_authentic_mail :
    decrypt .ideal postedIdentity firstMail.blob =
        .ok ⟨asBytes firstMail.text,mailSender.publicKeyHex⟩ ∧
      ∃ rng sender hlen plaintext,
        .encrypt rng sender postedIdentity.publicKey hlen plaintext ∈ mailLog ∧
        sender.publicKeyHex = mailSender.publicKeyHex ∧
        decompress .ideal (Crates.ideal.zstdEncode plaintext) = .ok (asBytes firstMail.text) := by
  have hopen : decrypt .ideal postedIdentity firstMail.blob =
      .ok ⟨asBytes firstMail.text,mailSender.publicKeyHex⟩ := by decide +kernel
  have hrecipient : fromSecretBytes .ideal sampleSecret = .ok postedIdentity := by decide
  have hsized : Crates.ideal.Sized :=
    ⟨lawful_correct.signLength,lawful_correct.x25519Length,lawful_correct.encodeLength⟩
  exact ⟨hopen,(sender_authentic hsized mailLog_ideal hrecipient).1 _ _ hopen⟩

end Crypto
end Skrepka.Client
