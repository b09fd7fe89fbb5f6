import Skrepka.Client.Readable
import Skrepka.Client.Spelling
import Skrepka.Relay.Handlers

/-! Every batch that the client sends passes the validation of a relay. -/
namespace Skrepka.Client
open Rust Mvu

/-- The documented bound on the length of a zstd frame. -/
def zstdCompressBound (n : ℕ) : ℕ := n+n/256+(if n < 131072 then (131072-n)/2048 else 0)

/-- The sizes of what the primitives yield. -/
structure Crates.Measured (x : Crates) : Prop where
  signLength : ∀ seed msg, (x.ed25519Sign seed msg).length = 64
  x25519Length : ∀ scalar point, (x.x25519 scalar point).length = 32
  sealLength : ∀ key nonce ad msg ciphertext, x.aeadSeal key nonce ad msg = some ciphertext →
    ciphertext.length = msg.length+16
  encodeLength : ∀ p, (x.zstdEncode p).length ≤ zstdCompressBound p.length

theorem zstdCompressBound_le (n : ℕ) : zstdCompressBound n ≤ n+n/256+64 := by
  unfold zstdCompressBound
  split <;> omega

theorem Crates.Measured.sized {x : Crates} (hx : x.Measured) : x.Sized where
  signLength := hx.signLength
  x25519Length := hx.x25519Length
  encodeLength p := by
    have h := hx.encodeLength p
    have hbound := zstdCompressBound_le p.length
    omega

namespace Crypto

/-- A blob is exactly as long as the class of its envelope and its frame. -/
theorem encrypt_length_eq {x : Crates} (hx : x.Measured) {rng : Rng} {sender : Identity}
    (hs : sender.Valid x) {recipientEdPub plaintext blob : Bytes}
    (h : encrypt x rng sender recipientEdPub plaintext = .ok blob) :
    blob.length = paddedLen (minBlobLen+(x.zstdEncode plaintext).length) := by
  obtain ⟨-,recipX,rawSecret,ephPub,nonce,ciphertext,rfl,rfl,-,-,hseal,rfl⟩ := encrypt_ok h
  have hinner := @innerBytes_length x rng sender plaintext hx.sized hs recipientEdPub
  have hcipher := hx.sealLength _ _ _ _ _ hseal
  have hpadded := le_paddedLen (minBlobLen+(x.zstdEncode plaintext).length)
  have hpad : padLen (x.zstdEncode plaintext) = paddedLen (minBlobLen+(x.zstdEncode plaintext).length)-
      (minBlobLen+(x.zstdEncode plaintext).length) := rfl
  simp only [List.cons_append, List.length_cons, List.length_append, hx.x25519Length, drawnNonce_length,
    hcipher, hinner]
  simp only [minBlobLen, nonceLen] at hpadded hpad ⊢
  omega

/-- A frame is not much longer than its plaintext, which is within the cap. -/
theorem encode_le {x : Crates} (hx : x.Measured) {rng : Rng} {sender : Identity}
    {recipientEdPub plaintext blob : Bytes} (h : encrypt x rng sender recipientEdPub plaintext = .ok blob) :
    (x.zstdEncode plaintext).length ≤ maxPlaintextLen+maxPlaintextLen/256+64 := by
  obtain ⟨hshort,-⟩ := encrypt_ok h
  have hcompressed := (hx.encodeLength plaintext).trans (zstdCompressBound_le plaintext.length)
  simp only [maxPlaintextLen] at hshort ⊢
  omega

/-- A blob is as long as its smallest envelope, and not much longer than its plaintext. -/
theorem encrypt_length {x : Crates} (hx : x.Measured) {rng : Rng} {sender : Identity} (hs : sender.Valid x)
    {recipientEdPub plaintext blob : Bytes} (h : encrypt x rng sender recipientEdPub plaintext = .ok blob) :
    minBlobLen ≤ blob.length ∧ blob.length ≤ maxPlaintextLen+maxPlaintextLen/256+64+65536+minBlobLen := by
  have hcompressed := encode_le hx h
  have hlower := le_paddedLen (minBlobLen+(x.zstdEncode plaintext).length)
  have hupper := paddedLen_le (minBlobLen+(x.zstdEncode plaintext).length)
  rw [encrypt_length_eq hx hs h]
  omega

end Crypto
end Skrepka.Client

namespace Skrepka.Exchange
open Rust Mvu

/-- An envelope as the relay reads it. -/
def wire (env : Client.Envelope) : Relay.Envelope := ⟨env.toKey.toList,env.encryptedBlob.toList⟩

theorem isValidHex_encode {bs : Bytes} (h : bs ≠ []) : Relay.isValidHex (Hex.encode bs).toList = true := by
  have hlength := Hex.length_encode bs
  have hpos : 0 < bs.length := List.length_pos_iff.mpr h
  have hdigits : ∀ n < 16, Relay.contains (Hex.digit n) "0123456789abcdef" = true := by decide
  simp only [Relay.isValidHex, Bool.and_eq_true, decide_eq_true_eq, List.all_eq_true, hlength]
  refine ⟨⟨by omega,by omega⟩,fun c hc => ?_⟩
  obtain ⟨n,hn,rfl⟩ := Hex.mem_encode hc
  exact hdigits n hn

/-- The key of a contact: 64 lowercase digits. -/
abbrev ValidKey (key : String) : Prop := Relay.isValidExactHex 64 key.toList = true

theorem validKey_encode {bs : Bytes} (h : bs.length = 32) : ValidKey (Hex.encode bs) := by
  have hne : bs ≠ [] := by
    rintro rfl
    simp at h
  simp [ValidKey, Relay.isValidExactHex, isValidHex_encode hne, Hex.length_encode, h]

/-- Keys that are valid and not our own, and batches that a relay accepts. -/
def otherTerms (own : String) : Client.Terms where
  key k := ValidKey k ∧ k ≠ own
  batch msgs := Relay.validateBatch {} (msgs.map wire) own.toList = none

variable {x : Client.Crates} {own : String}

/-- A blob within the bounds has a length that the relay stores. -/
theorem blobHex_accepted {blob : Bytes} (hlong : Client.Crypto.minBlobLen ≤ blob.length)
    (hshort : blob.length ≤ 20971520) : Relay.isValidBlobHex {} (Hex.encode blob).toList = true := by
  simp only [Client.Crypto.minBlobLen, Client.Crypto.nonceLen] at hlong
  have hne : blob ≠ [] := by
    rintro rfl
    simp at hlong
  simp only [Relay.isValidBlobHex, isValidHex_encode hne, Hex.length_encode, Bool.and_true, Bool.and_eq_true,
    decide_eq_true_eq]
  omega

theorem blob_accepted (hx : x.Measured) {id : Client.Crypto.Identity} (hid : id.Valid x)
    {rng : Client.Crypto.Rng} {i : Client.OutboxItem} {blob : Bytes}
    (h : Client.encryptFor x rng id i = some blob) :
    Relay.isValidBlobHex {} (Hex.encode blob).toList = true := by
  unfold Client.encryptFor at h
  split at h
  · simp at h
  split at h
  · simp at h
  rename_i recipient _ _
  cases hr : Client.Crypto.encrypt x rng id recipient (asBytes i.envelopeJson) with
  | error e => simp [hr, Except.toOption] at h
  | ok b =>
    obtain rfl : b = blob := by simpa [hr, Except.toOption] using h
    obtain ⟨hlong,hshort⟩ := Client.Crypto.encrypt_length hx hid hr
    apply blobHex_accepted hlong
    simp only [Client.Crypto.minBlobLen, Client.Crypto.maxPlaintextLen, Client.Crypto.nonceLen] at hshort
    omega

theorem otherTerms_batches (hx : x.Measured) (own : String) : (otherTerms own).Batches x := by
  intro id items msgs hid hseals hcount hkeys
  have henv : ∀ env ∈ msgs, ValidKey env.toKey ∧ env.toKey ≠ own ∧
      Relay.isValidBlobHex {} env.encryptedBlob.toList = true := by
    clear hcount
    induction hseals with
    | nil => simp
    | @cons i env items msgs hseal _ ih =>
      have hrest := ih fun j hj => hkeys j (List.mem_cons_of_mem i hj)
      refine List.forall_mem_cons.mpr ⟨?_,hrest⟩
      obtain ⟨hto,rng,blob,hblob,hhex⟩ := hseal
      rw [hto, hhex]
      exact ⟨(hkeys i List.mem_cons_self).1,(hkeys i List.mem_cons_self).2,blob_accepted hx hid hblob⟩
  simp only [otherTerms, Relay.validateBatch, List.length_map, List.any_map]
  rw [if_neg, if_neg, if_neg]
  · intro hself
    obtain ⟨env,henv',hto⟩ := List.any_eq_true.mp hself
    exact (henv env henv').2.1 (String.toList_inj.mp (of_decide_eq_true hto))
  · intro hbad
    obtain ⟨env,henv',hbad⟩ := List.any_eq_true.mp hbad
    obtain ⟨hkey,-,hblob⟩ := henv env henv'
    change (!(Relay.isValidExactHex 64 env.toKey.toList &&
      Relay.isValidBlobHex {} env.encryptedBlob.toList)) = true at hbad
    rw [hkey, hblob] at hbad
    exact absurd hbad (by decide)
  · change ¬ (100 : ℤ) < _
    simp only [Client.maxSendBatch] at hcount
    omega

/-- A key is parsed from a name or from digits of either case, and is valid. -/
theorem tryParsePubkey_valid {verifyingKey : Bytes → Bool} {input key : String}
    (h : Client.Phonemic.tryParsePubkey verifyingKey input = some key) : ValidKey key := by
  obtain ⟨bs,hlength,-,rfl⟩ := Client.Phonemic.tryParsePubkey_eq_some h
  exact validKey_encode hlength

/-- The sender of whatever a page delivers is a valid key. -/
theorem opened_valid {id : Client.Crypto.Identity} {page : Client.PollResp} {p : String × Client.ParsedPayload}
    (h : p ∈ page.opened x id) : ValidKey p.1 := by
  obtain ⟨blob,-,hopen⟩ := List.mem_filterMap.mp h
  simp only [Client.Ingest.openBlob, Option.bind_eq_bind, Option.bind_eq_some_iff] at hopen
  obtain ⟨bytes,-,dec,hdec,parsed,-,heq⟩ := hopen
  obtain rfl := Option.some.inj heq
  cases hr : Client.Crypto.decrypt x id bytes with
  | error e => simp [hr, Except.toOption] at hdec
  | ok d =>
    obtain rfl : d = dec := by simpa [hr, Except.toOption] using hdec
    obtain ⟨inner,-,hopens⟩ := Client.Crypto.decrypt_eq_ok.mp hr
    have hlong := hopens.long
    rw [hopens.sender]
    exact validKey_encode (by rw [List.length_take]; omega)

/-- Chats are opened with contacts. -/
def opensContact (m : Client.Model) : Client.Event → Bool
  | .openChat peer => m.contacts.contains peer
  | _ => true

/-- Whatever identity is loaded has a given key, and that key is not added as a contact before. -/
def knowsOwn (x : Client.Crates) (own : String) (m : Client.Model) : Client.Event → Bool
  | .identityLoaded sk => (Client.Crypto.fromSecretBytes x sk).toOption.all fun id => id.publicKeyHex = own
  | .addContact input _ =>
    m.myPubkey = own || Client.Phonemic.tryParsePubkey x.verifyingKey input ≠ some own
  | _ => true

/-- A client with an identity knows its key. -/
def SelfAware (own : String) (m : Client.Model) : Prop := m.secretKey.isSome = true → m.myPubkey = own

theorem update_selfAware {amb : Client.Ambient} {e : Client.Event} {m : Client.Model}
    (h : SelfAware own m) (he : knowsOwn x own m e = true) : SelfAware own (Client.update x amb e m).1 := by
  have hkept : Client.Field.secretKey ∉ e.writes → Client.Field.myPubkey ∉ e.writes →
      SelfAware own (Client.update x amb e m).1 := by
    intro hsecret hme hsome
    have hsecret : (Client.update x amb e m).1.secretKey = m.secretKey :=
      Client.update_agrees x amb e m .secretKey hsecret
    have hme : (Client.update x amb e m).1.myPubkey = m.myPubkey :=
      Client.update_agrees x amb e m .myPubkey hme
    exact hme.trans (h (hsecret ▸ hsome))
  cases e with
  | identityLoaded sk =>
    simp only [Client.update, Client.identityLoaded]
    split
    · exact h
    · rename_i id hid
      intro _
      simpa [knowsOwn, hid, Except.toOption] using he
  | _ => exact hkept (by simp [Client.Event.writes]) (by simp [Client.Event.writes])

/-- The keys that an event brings are valid and not our own. -/
theorem brings_other {e : Client.Event} {m : Client.Model} (hm : m.Meets x (otherTerms own))
    (hself : SelfAware own m) (hopen : opensContact m e = true) (hknows : knowsOwn x own m e = true) {key : String}
    (h : e.brings x m key) : (otherTerms own).key key := by
  cases e with
  | openChat peer =>
    obtain rfl : key = peer := h
    have hsome : (m.contacts[key]?).isSome = true := by
      rw [← Std.TreeMap.contains_eq_isSome_getElem?]
      exact hopen
    obtain ⟨c,hc⟩ := Option.isSome_iff_exists.mp hsome
    exact hm.contacts key c hc
  | addContact input nickname =>
    obtain ⟨hparse,hother⟩ := h
    refine ⟨tryParsePubkey_valid hparse,?_⟩
    rintro rfl
    have hme : m.myPubkey = key := by simpa [knowsOwn, hparse] using hknows
    exact hother hme.symm
  | pollResult gen res =>
    obtain ⟨page,id,htake,hsender,hother⟩ := h
    obtain ⟨p,hp,rfl⟩ := List.mem_map.mp hsender
    obtain ⟨-,-,-,hid⟩ := Client.takesIn_eq_some.mp htake
    obtain ⟨sk,hsk,-⟩ := Option.bind_eq_some_iff.mp hid
    refine ⟨opened_valid hp,?_⟩
    rintro rfl
    exact hother (hself (by simp [hsk])).symm
  | _ => exact h.elim

/-- Whatever batch a client sends, from a fresh install on, a relay finds nothing wrong with it. -/
theorem batches_accepted (hx : x.Measured) {hs : List (Happening Client.Ambient Client.Event Client.Answer)}
    {d : Client.Phone} (hsane : ∀ h ∈ hs, ∀ amb ∈ h.reads, amb.Sane)
    (hmeets : Device.Meets (Client.app x) Client.kvStore
      (fun _ e m => opensContact m e = true ∧ knowsOwn x own m e = true) (Client.freshInstall x) hs)
    (hrun : Lts.run (Client.Phone.step x) (Client.freshInstall x) hs = some d) :
    ∀ t req gen msgs, (t,.http req (.sendResult gen)) ∈ d.core.pending → req.body = .sendBatch msgs →
      Relay.validateBatch {} (msgs.map wire) own.toList = none := by
  have hkeeps : Device.Keeps (Client.app x) Client.kvStore
      (fun amb e m => amb.Sane ∧ opensContact m e = true ∧ knowsOwn x own m e = true)
      (fun m => m.Meets x (otherTerms own) ∧ SelfAware own m) (Client.Event.Meets x (otherTerms own))
      (fun f => Client.CmdMeets x (otherTerms own) (.request f)) (Client.DiskMeets x (otherTerms own)) :=
    Client.phone_keeps (otherTerms_batches hx own) (by simp [SelfAware])
      (fun _ _ _ ha hm hself => ⟨ha.1,fun _ => brings_other hm hself ha.2.1 ha.2.2⟩)
      (fun _ _ _ ha hself => update_selfAware hself ha.2.2)
  have hempty : Client.DiskMeets x (otherTerms own) fun _ => none := by simp [Client.DiskMeets]
  have hsound := hkeeps.run hempty ((Device.meets_of_reads _ _ hsane).and hmeets) hrun
  intro t req gen msgs hpending hbody
  exact hsound.pending _ hpending msgs hbody

/-- The crates of the samples, with ciphertexts of the right length. -/
def sealing : Client.Crates :=
  { Client.Crates.sample with aeadSeal := fun _ _ _ msg => some (List.replicate (msg.length+16) 0) }

theorem sealing_measured : sealing.Measured where
  signLength _ _ := rfl
  x25519Length _ _ := rfl
  sealLength _ _ _ msg ciphertext h := by
    obtain rfl := Option.some.inj h
    simp
  encodeLength p := by
    change p.length ≤ _
    unfold Client.zstdCompressBound
    omega

/-- After some events the store is asked and some of what it answers is handed over, the client goes
online, and a contact is sent a text. -/
def sampleChat (starts : List Client.Event) (asked answered challenge : ℕ) (key : String) :
    List (Happening Client.Ambient Client.Event Client.Answer) :=
  let shell := fun e => .act .sample (.shell e)
  starts.map shell ++ List.replicate asked (.perform true) ++ (List.range answered).map (.deliver .sample) ++
    [.drain,.drain,.answer challenge (Client.sampleOk Client.challengeText),
      .answer (challenge+2) (Client.sampleOk Client.tokenText),.drain,.drain].map (.act .sample) ++
    [shell (.openChat key),shell (.composeChanged "hi"),shell .sendText,.act .sample .drain]

/-- A key is added as a contact and the identity is loaded. -/
def sampleConversation (key : String) : List (Happening Client.Ambient Client.Event Client.Answer) :=
  sampleChat [.addContact key "",.identityLoaded Client.sampleSecret] 7 7 8 key

/-- The batches that are on their way. -/
def batches (d : Client.Phone) : List (List Client.Envelope) :=
  d.core.pending.filterMap fun p => match p.2 with
    | .http ⟨_,_,.sendBatch msgs⟩ (.sendResult _) => some msgs
    | _ => none

def sampleKey : String := Hex.encode (Client.sampleSecret.drop 32)

theorem validateBatch_self {cfg : Relay.Config} {msgs : List Relay.Envelope} {sender : Relay.Text}
    (h : ∃ m ∈ msgs, m.toKey = sender) : Relay.validateBatch cfg msgs sender ≠ none := by
  have hany : (msgs.any fun m => m.toKey = sender) = true := by simpa using h
  simp only [Relay.validateBatch, hany, if_true]
  split
  · simp
  split <;> simp

theorem mem_batches {d : Client.Phone} {msgs : List Client.Envelope} (h : msgs ∈ batches d) :
    ∃ t req gen, (t,.http req (.sendResult gen)) ∈ d.core.pending ∧ req.body = .sendBatch msgs := by
  obtain ⟨⟨t,f⟩,hp,hf⟩ := List.mem_filterMap.mp h
  simp only at hf
  split at hf
  · rename_i url auth msgs' gen
    obtain rfl := Option.some.inj hf
    exact ⟨t,_,gen,hp,rfl⟩
  · simp at hf

theorem sampleChat_sane (starts : List Client.Event) (asked answered challenge : ℕ) (key : String) :
    ∀ h ∈ sampleChat starts asked answered challenge key, ∀ amb ∈ h.reads, amb.Sane := by
  have hreads : ∀ h ∈ sampleChat starts asked answered challenge key, ∀ amb ∈ h.reads, amb = .sample := by
    simp [sampleChat, Happening.reads, or_imp, forall_and]
  exact fun h hh amb hamb => hreads h hh amb hamb ▸ Client.sample_sane

/-- One batch is on its way, of a message for a key. -/
def Sends (key : String) (d : Client.Phone) : Prop :=
  d.core.model.myPubkey = sampleKey ∧ (batches d).map (fun msgs => msgs.map Client.Envelope.toKey) = [[key]]

instance (key : String) (d : Client.Phone) : Decidable (Sends key d) :=
  inferInstanceAs (Decidable (_ ∧ _))

theorem Sends.batch {key : String} {d : Client.Phone} (h : Sends key d) :
    ∃ msgs ∈ batches d, ∃ env ∈ msgs, env.toKey = key := by
  obtain ⟨msgs,hmsgs,hkeys⟩ := List.mem_map.mp (h.2 ▸ List.mem_singleton_self [key])
  obtain ⟨env,henv,hto⟩ := List.mem_map.mp (hkeys ▸ List.mem_singleton_self key)
  exact ⟨msgs,hmsgs,env,henv,hto⟩

/-- Whatever identity is loaded has a given key. -/
def loadsOwn (own : String) (_ : Client.Model) : Client.Event → Bool
  | .identityLoaded sk =>
    (Client.Crypto.fromSecretBytes sealing sk).toOption.all fun id => id.publicKeyHex = own
  | _ => true

/-- Contacts are added under an identity. -/
def addsIdentified (m : Client.Model) : Client.Event → Bool
  | .addContact _ _ => m.secretKey.isSome
  | _ => true

/-- Under a condition on its events a client from a fresh install may send what is refused under its own
key. -/
def SelfSends (G : Client.Model → Client.Event → Bool) : Prop :=
  ∃ hs d, (∀ h ∈ hs, ∀ amb ∈ h.reads, amb.Sane) ∧
    Device.Meets (Client.app sealing) Client.kvStore (fun _ e m => opensContact m e = true ∧ G m e = true)
      (Client.freshInstall sealing) hs ∧
    Lts.run (Client.Phone.step sealing) (Client.freshInstall sealing) hs = some d ∧
    ∃ t req gen msgs, (t,.http req (.sendResult gen)) ∈ d.core.pending ∧ req.body = .sendBatch msgs ∧
      Relay.validateBatch {} (msgs.map wire) d.core.model.myPubkey.toList ≠ none

theorem selfSends_of_run {G : Client.Model → Client.Event → Bool} (starts : List Client.Event)
    (asked answered challenge : ℕ)
    (hrun : (Device.runMeeting (Client.app sealing) Client.kvStore
      (fun _ e m => opensContact m e = true ∧ G m e = true) (Client.freshInstall sealing)
      (sampleChat starts asked answered challenge sampleKey)).any (Sends sampleKey) = true) :
    SelfSends G := by
  obtain ⟨hmeets,d,hrun,hsends⟩ := Device.exists_of_runMeeting _ _ hrun
  have hsends : Sends sampleKey d := of_decide_eq_true hsends
  obtain ⟨msgs,hmsgs,env,henv,hto⟩ := hsends.batch
  obtain ⟨t,req,gen,hpending,hbody⟩ := mem_batches hmsgs
  refine ⟨_,d,sampleChat_sane _ _ _ _ _,hmeets,hrun,t,req,gen,msgs,hpending,hbody,
    validateBatch_self ⟨wire env,List.mem_map_of_mem henv,?_⟩⟩
  rw [hsends.1, ← hto]
  rfl

/-- The identity of another seed. -/
def sampleOther : Rust.Bytes :=
  List.replicate 32 7 ++ Client.Crates.sample.ed25519Public (List.replicate 32 7)

/-- What is sent to our own key is refused. It can be added as a contact before our identity is loaded,
and, when an identity of another key takes its place for a while, also after that. -/
theorem self_send_emitted : SelfSends (loadsOwn sampleKey) ∧ SelfSends addsIdentified := by
  constructor
  · refine selfSends_of_run [.addContact sampleKey "",.identityLoaded Client.sampleSecret] 7 7 8 ?_
    decide +kernel
  · refine selfSends_of_run [.identityLoaded Client.sampleSecret,.identityLoaded sampleOther,
      .addContact sampleKey "",.identityLoaded Client.sampleSecret] 19 6 19 ?_
    decide +kernel

theorem batches_accepted_conversation : ∃ d msgs,
    Lts.run (Client.Phone.step sealing) (Client.freshInstall sealing)
      (sampleConversation (Client.samplePeer 7)) = some d ∧ msgs ∈ batches d ∧ msgs ≠ [] ∧
      Relay.validateBatch {} (msgs.map wire) sampleKey.toList = none := by
  have hrun : (Device.runMeeting (Client.app sealing) Client.kvStore
      (fun _ e m => opensContact m e = true ∧ knowsOwn sealing sampleKey m e = true)
      (Client.freshInstall sealing) (sampleConversation (Client.samplePeer 7))).any
        (Sends (Client.samplePeer 7)) = true := by decide +kernel
  obtain ⟨hmeets,d,hrun,hsends⟩ := Device.exists_of_runMeeting _ _ hrun
  have hsends : Sends (Client.samplePeer 7) d := of_decide_eq_true hsends
  obtain ⟨msgs,hmsgs,env,henv,-⟩ := hsends.batch
  obtain ⟨t,req,gen,hpending,hbody⟩ := mem_batches hmsgs
  exact ⟨d,msgs,hrun,hmsgs,List.ne_nil_of_mem henv,
    batches_accepted sealing_measured (sampleChat_sane _ _ _ _ _) hmeets hrun t req gen msgs hpending hbody⟩

end Skrepka.Exchange
