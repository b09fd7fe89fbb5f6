import Mathlib.Data.List.Basic
import Skrepka.Client.Crypto

/-! What a sealed blob consists of, as the sender writes it and as the recipient reads it. -/
namespace Skrepka.Client
open Rust

namespace Crypto

/-- What a recipient checks of the inside of a blob, and what it makes of it. -/
structure Opens (x : Crates) (recipient : Identity) (inner : Bytes) (dec : Decrypted) : Prop where
  long : 100 ≤ inner.length
  compressed : u32FromBeBytes ((inner.drop 96).take 4) ≤ inner.length-100
  verifyingKey : x.verifyingKey (inner.take 32) = true
  signature : x.verifyStrict (inner.take 32)
    (msgTag ++ recipient.publicKey ++ inner.drop 96) ((inner.drop 32).take 64) = true
  plaintext : decompress x
    ((inner.drop 100).take (u32FromBeBytes ((inner.drop 96).take 4))) = .ok dec.plaintext
  sender : dec.senderHex = Hex.encode (inner.take 32)

/-- What a recipient checks of a blob. -/
structure Unseals (x : Crates) (recipient : Identity) (blob inner : Bytes) : Prop where
  long : minBlobLen ≤ blob.length
  short : blob.length ≤ maxBlobLen
  version : blob.headD 0 = wireVersion
  opened : ∃ rawSecret,
    x25519 x recipient.x25519Priv ((blob.drop 1).take 32) = .ok rawSecret ∧
    x.aeadOpen (deriveKey x rawSecret ((blob.drop 1).take 32) recipient.x25519Pub)
      ((blob.drop 33).take nonceLen)
      (aad wireVersion ((blob.drop 1).take 32) ((blob.drop 33).take nonceLen) recipient.publicKey)
      (blob.drop (33+nonceLen)) = some inner

theorem decrypt_eq_ok {x : Crates} {recipient : Identity} {blob : Bytes} {dec : Decrypted} :
    decrypt x recipient blob = .ok dec ↔
      ∃ inner, Unseals x recipient blob inner ∧ Opens x recipient inner dec := by
  unfold decrypt
  simp only [ite_throw_eq_ok, bind_eq_ok]
  constructor
  · rintro ⟨hmin,hmax,hversion,rawSecret,hraw,h⟩
    have hversion : blob.headD 0 = wireVersion := by simpa using hversion
    rw [hversion] at h
    split at h
    · simp [throw, throwThe, MonadExceptOf.throw] at h
    · rename_i inner hopen
      simp only [ite_throw_eq_ok, bind_eq_ok, pure, Except.pure, Except.ok.injEq] at h
      obtain ⟨hlong,hcomp,hkey,hsig,plaintext,hplain,rfl⟩ := h
      exact ⟨inner,⟨by omega,by omega,hversion,rawSecret,hraw,hopen⟩,
        ⟨by omega,by omega,by simpa using hkey,by simpa using hsig,hplain,rfl⟩⟩
  · rintro ⟨inner,⟨hmin,hmax,hversion,rawSecret,hraw,hopen⟩,
      ⟨hlong,hcomp,hkey,hsig,hplain,hsender⟩⟩
    refine ⟨by omega,by omega,by simpa using hversion,rawSecret,hraw,?_⟩
    rw [hversion, hopen]
    simp only [ite_throw_eq_ok, bind_eq_ok, pure, Except.pure, Except.ok.injEq]
    refine ⟨by omega,by omega,by simpa using hkey,by simpa using hsig,dec.plaintext,hplain,?_⟩
    rw [← hsender]

/-- The bytes that a sender signs, after the recipient's key: length, frame and padding. -/
def frame (compressed padding : Bytes) : Bytes :=
  u32ToBeBytes compressed.length ++ compressed ++ padding

theorem le_paddedLen (n : ℕ) : n ≤ paddedLen n := by
  simp only [paddedLen]
  split
  · rename_i bucket h
    simpa using List.find?_some h
  · split <;> omega

/-- How much padding a frame gets. -/
def padLen (compressed : Bytes) : ℕ :=
  let unpadded := minBlobLen+compressed.length
  paddedLen unpadded-unpadded

/-- The padding that a run of `encrypt` draws after its ephemeral key. -/
def padding (rng : Rng) (compressed : Bytes) : Bytes := (rng.skip 32).fill (padLen compressed)

/-- The nonce that it draws after the padding. -/
def drawnNonce (rng : Rng) (compressed : Bytes) : Bytes :=
  ((rng.skip 32).skip (padLen compressed)).fill nonceLen

/-- What a run of `encrypt` signs. -/
def messageBytes (x : Crates) (rng : Rng) (recipientEdPub plaintext : Bytes) : Bytes :=
  msgTag ++ recipientEdPub ++ frame (x.zstdEncode plaintext) (padding rng (x.zstdEncode plaintext))

/-- What a run of `encrypt` seals. -/
def innerBytes (x : Crates) (rng : Rng) (sender : Identity) (recipientEdPub plaintext : Bytes) :
    Bytes :=
  sender.publicKey ++
    x.ed25519Sign (sender.secretKey.take 32) (messageBytes x rng recipientEdPub plaintext) ++
    frame (x.zstdEncode plaintext) (padding rng (x.zstdEncode plaintext))

@[simp] theorem fill_length (rng : Rng) (n : ℕ) : (rng.fill n).length = n := by simp [Rng.fill]

theorem encrypt_ok {x : Crates} {rng : Rng} {sender : Identity}
    {recipientEdPub plaintext blob : Bytes}
    (h : encrypt x rng sender recipientEdPub plaintext = .ok blob) :
    plaintext.length ≤ maxPlaintextLen ∧ ∃ recipX rawSecret ephPub nonce ciphertext,
      ephPub = x.x25519 (rng.fill 32) x.x25519Basepoint ∧
      nonce = drawnNonce rng (x.zstdEncode plaintext) ∧
      ed25519PkToX25519 x recipientEdPub = .ok recipX ∧
      x25519 x (rng.fill 32) recipX = .ok rawSecret ∧
      x.aeadSeal (deriveKey x rawSecret ephPub recipX) nonce
        (aad wireVersion ephPub nonce recipientEdPub)
        (innerBytes x rng sender recipientEdPub plaintext) = some ciphertext ∧
      blob = wireVersion :: ephPub ++ nonce ++ ciphertext := by
  have hunpadded : ∀ n, 1+32+nonceLen+32+64+4+n+16 = minBlobLen+n := by
    intro n
    simp only [minBlobLen]
    omega
  unfold encrypt at h
  simp only [ite_throw_eq_ok, bind_eq_ok, hunpadded] at h
  obtain ⟨hshort,recipX,hrecip,rawSecret,hraw,h⟩ := h
  split at h
  · simp [throw, throwThe, MonadExceptOf.throw] at h
  · rename_i ciphertext hseal
    refine ⟨by omega,recipX,rawSecret,_,_,ciphertext,rfl,rfl,hrecip,hraw,?_,?_⟩
    · simpa only [innerBytes, messageBytes, frame, padding, padLen, drawnNonce, List.append_assoc]
        using hseal
    · simpa [pure, Except.pure, drawnNonce, padLen] using h.symm

end Crypto

/-- The zstd frame of a single raw block. -/
def rawFrame (p : Bytes) : Bytes :=
  let header := 8*p.length+1
  [0x28,0xb5,0x2f,0xfd,0,0x58,UInt8.ofNat header,UInt8.ofNat (header/256),
    UInt8.ofNat (header/65536)] ++ p

/-- A message from the peer with a seed of bytes `sender` to the identity with seed 3, whose ephemeral
key is 32 bytes of 9 and whose padding and nonce are bytes of `seq`: its plaintext, what that parses to,
its signature, and its ciphertext in pieces of 32 bytes and a last one of 7. -/
structure SampleMail where
  sender : UInt8
  seq : UInt8
  text : String
  json : Json
  signature : List ℕ
  ciphertext : List ℕ
  last : ℕ

def sampleMail : List SampleMail := [
  ⟨7,1,"\x7b\"type\":\"text\",\"id\":\"m\",\"body\":\"hi\",\"ts\":900\x7d",
    .obj [("type",.str "text"),("id",.str "m"),("body",.str "hi"),("ts",.int 900)],
    [0x7f76dee3748942952407ced1911066f6eeb9b98fc413e2ea573ba7c0005f2bbd,
      0x21b9b935fa438c3b0dae60f53e4e546cb77a548f6720141e12db2b189852c20d],
    [0x7684efa4fa755123026d3c78ed5f7faadba91546173f240b842a120d9f9d8da5,
      0xb0838a40749d42c2c84cc525375a0a07b6e01fb67c57c1be066fb456877c8989,
      0xad7a7aabe108784a20f6ee50550be25473a07b8125c9ee6002fc6a3e330f169d,
      0x9059dca73b4a1c908fa83ff9a05af3e2d50739d574a2510acd6ec0487670a4d7,
      0x182be0ab88afcf77e7d05c7fd366486a56d57816a9c41dd2ffb8c76b114cdb02,
      0x4697aa6f4815b4aa3f160a2ef1a895f71e7020cf9f97ee754f20f6d5381790a4],
    0xf8ac89de914eb9⟩,
  ⟨7,2,"\x7b\"type\":\"text\",\"id\":\"id\",\"body\":\"yo\",\"ts\":950\x7d",
    .obj [("type",.str "text"),("id",.str "id"),("body",.str "yo"),("ts",.int 950)],
    [0xf0164a5102104a6bd26df8812a87490b36771773b8921b4690e6bf9648d882e5,
      0x335e7a8612a45e61a7a170f91c8f56659254bf1e3832d1e149f16ada0ed67d0c],
    [0x49915749dd19b7ace3916cd314522d20962c605326c3e1b980deccd705413d89,
      0x53cf60f0ee8a58d67070658190fb14d438514a99d29ba2dda5e163d8bbd0a180,
      0x44e4493dff1d1a3ecfed0a7411e4448fc0be46429521da20372e2a4c424e9cbc,
      0x2be60079071815442c7abc4521073b08d7568c9f43dc4c7a7378b8cd4c5c9ded,
      0x9e17e2fcb598af1aff6c9477ce77b4239a526c36b673adcba84027bd77917bfa,
      0x3f2b184e9e189d41d23be311ba32acdfeaaebd92e441daaf3e5824b8df3c6474],
    0x4a4ca130aede40⟩,
  ⟨7,3,"\x7b\"type\":\"profile\",\"ts\":3000,\"display_name\":\"new\",\"bio\":\"b\"\x7d",
    .obj [("type",.str "profile"),("ts",.int 3000),("display_name",.str "new"),("bio",.str "b")],
    [0xc2e6adc8c35655c09f51e7db7ccd9fb80f55a0c4f62fa20224965bf504aa824a,
      0x6c305fb1dd3ae86b8a3a221a0b0db0a72027e845dbed760ee5b2941fa08d7808],
    [0x34de342ae9f3e9b86c4ed1108da59eeeffeef45d20d8c485b2ae8db22d699f2f,
      0xa27f5a180f613920efdf23bb32233393a3613c7b4a26f8920388eb225bd2e45f,
      0xa1fabb950748129a4d8204fb7d392c77a4e95e94b1c2d17e4ac611ee121df9b4,
      0x39504ffd51cf319cdb2cd482fa90f309a1865517d71c8243956ad1af49fa98a6,
      0xa7330783b1d2a0a433fc264583d048218998f984c57183e803c743891f2b19ca,
      0x9415099c0e714e5037b478c97ae98743cfc3efcbdaaf1afca9a2078dd3d73d25],
    0x0fe25027e6e08d⟩,
  ⟨7,4,"\x7b\"type\":\"profile\",\"ts\":2000,\"display_name\":\"old\",\"bio\":\"a\"\x7d",
    .obj [("type",.str "profile"),("ts",.int 2000),("display_name",.str "old"),("bio",.str "a")],
    [0x41aaa0836b6965c377938c43ebdf9e15f96c169fe16196c505f369e380487cfc,
      0xb0e48f6c6afa4e585715f817d7a5dea0160483678006fa445378a7ce944d0905],
    [0xf15a5f8c24b1dbf22bab9260915a729d5185795a7ce4dcccd77da371d4c5156d,
      0xdbff6ab99d13b1511dd5761398d8e9bdfe8d1c5f4fa1ffc951442389ac298843,
      0x98490c8a8be23ecc2a9b07052be93b62c14d5c53ce46cb38fc4c3802a3007686,
      0xfcf8da13502e118eaf29075bb884e8eba3bf71143424dba71c07d9440956b2ea,
      0x91a32dc652ddfe2fc16461d56b4c4b59c137eae2931262378ee1dc65878f3b18,
      0xd7db6deb13180db1d1cda66486eb25ea7df32b7f875b967c889c3a1d01e90b37],
    0xdcb355cd863147⟩,
  ⟨7,5,"\x7b\"type\":\"delivery.ack\",\"ack_ids\":[\"b\"],\"ts\":900\x7d",
    .obj [("type",.str "delivery.ack"),("ack_ids",.arr [.str "b"]),("ts",.int 900)],
    [0x6ae69644729cfdbf6a6930dfbc90f2a59fc7985276a03462e0d84c1960215746,
      0x4abd647a079daf433e9d9b988380facf4a53b689776323fada3e594c3878f302],
    [0xcd19b80bb91c61392f462d75d63ac19f95df197f02828181abbea6430e4d8891,
      0xb5d8c0fd5444060ec28a317f5e9e6276c0b2c2651eddf3d3598e591d17c97ba8,
      0x50c90bfe88e969e7abfd20c48a5a9a94c7c19e24605c17d8e7a866a3601a3b87,
      0xf4a1686ed353aeb39f2759866722c140df2b9955e357c4f87ef78e2369970337,
      0xf9456e4bd2465988bbdd62dbdaed327f8440d89d7ba4e6ae14071348db5186ed,
      0xb606699b3c78011f91589e0a817018374a99b2e080772b3f58963140280ee2cf],
    0xe40118ec1fc7b9⟩,
  ⟨7,6,"\x7b\"type\":\"delivery.ack\",\"ack_ids\":[\"a\"],\"ts\":800\x7d",
    .obj [("type",.str "delivery.ack"),("ack_ids",.arr [.str "a"]),("ts",.int 800)],
    [0x51b5717eed45ee54cc9e032aba8a70e5be58a984476a8c3cac5fa86f8025f003,
      0x80fd107f4a5dfdff9a7eb34f1e7efc2e1a2b13b06aafe05f24b3d884ae01fd0a],
    [0xc8251f40b895cbb3d5e56d0f34f34b6b478c3693236d7389f6016a6063003f0b,
      0x8295d3f95511d773df019c8d7f3c3dc01c031b03eeb5cee67ffd4f7270dd740e,
      0x2faed203957fad1ba6453eea517d47a4d4120b92d7db31a2576263cc6cb9637d,
      0x4903d06270d4fa18e515694fce15ec8272ba7b8345876efca010624752638e45,
      0x38e007eb41830497e710f61b9d5648a7cb601591fba8a5cd8f5554220d6e6183,
      0xad216f90c032de753c87c616201861d66cea4eb152d344c156093f036f2ff9d3],
    0xf9957cd6b8f889⟩,
  ⟨7,7,"\x7b\"bio\":\"b\",\"display_name\":\"new\",\"ts\":3000,\"type\":\"profile\"\x7d",
    .obj [("bio",.str "b"),("display_name",.str "new"),("ts",.int 3000),("type",.str "profile")],
    [0x8a00fc3f4fa90808d58a77443078578a6265c9dc9463c09114c4a1e851943b9c,
      0x681f7c9ad8dc865dbe66495f1260e5c2ec8b3361796c03841a3f4f870cf74e07],
    [0xd91d0239d87bad4e3a6491161050c41fc86c389f14021672eb7fc231a082e86e,
      0x76c04df751e5644a3c7e70af77de4038aff370faca84b75facc3f11a502daf67,
      0xb2c467452fbc408c04c331c3d366e04d5cf2745f07ddf4e38ff2d3b9579f2529,
      0x522d109212978e7ea869fb368495e332da5e6e5979dea1d72d505b8439a95f2c,
      0x9c9fd9c2fe6f3e649513d3caf9b1980a4c34322d653c6fdd3b7145529b6833c6,
      0x1c95826e81ecf60d6e1d05c8fb093d87c148e0639e8648785704b00d622bca39],
    0x75eb53c4d242a9⟩,
  ⟨8,8,"\x7b\"type\":\"text\",\"id\":\"n\",\"body\":\"no\",\"ts\":900\x7d",
    .obj [("type",.str "text"),("id",.str "n"),("body",.str "no"),("ts",.int 900)],
    [0x771463e0016b2059419ba23bac2fa2d2e2623d8297128c12af18762cdf127285,
      0xddca151f2af7f1f76bde6b12e7e3b3816ac99608101aa710922ab220770f5f03],
    [0xf93ebfe3570eba3076ab1bf27017a0a8ff318704c28ded126ad051f2c3ec6fca,
      0xd35476fd00eda8f490ec0c6518e3ad223d3715edea87f5ee1dfc00547c38108c,
      0x8702cad87175ac00d48e68660d338c7025308c8f9ef1cac2b7b008ebc4209a98,
      0xa38a995071ddae131104aa85991610f3c32d129f737fee66d256cc91c766cd92,
      0x2bb91ce6a3ba9035040ba7b833d9d75bf70f533b7a43e4ec2be79998b9910869,
      0x1a10dd896bd6b1e73a7e91df83cdeef4b3756cec39748bcffc6d1ddc9c8c30c7],
    0x6f3e3aa13efc88⟩]

namespace SampleMail

def ephPub : Bytes := bytes32
  0x57db4b359f23ae5e146e4e2512056704722506348c150c14753d0c933d04d421

def nonce (mail : SampleMail) : Bytes := List.replicate Crypto.nonceLen mail.seq

def ciphertextBytes (mail : SampleMail) : Bytes :=
  mail.ciphertext.flatMap bytes32 ++ (bytes32 mail.last).drop 25

/-- The whole blob. -/
def blob (mail : SampleMail) : Bytes :=
  Crypto.wireVersion :: ephPub ++ mail.nonce ++ mail.ciphertextBytes

def frame (mail : SampleMail) : Bytes :=
  let compressed := rawFrame (asBytes mail.text)
  Crypto.frame compressed (List.replicate (Crypto.padLen compressed) mail.seq)

def senderKey (mail : SampleMail) : Bytes :=
  Crates.sample.ed25519Public (List.replicate 32 mail.sender)

/-- What the sender sealed: key, signature and frame. -/
def inner (mail : SampleMail) : Bytes :=
  mail.senderKey ++ mail.signature.flatMap bytes32 ++ mail.frame

end SampleMail

/-- The sample crates with true values for opening sample mail under the first sample seed. -/
def Crates.posted : Crates :=
  let sk : Bytes := bytes32
    0x98aebbb178a551876bfaf8e1e530dac6aaf6c2ea1c8f8406a3ab37dfb40fbc65
  let sealKey : Bytes := bytes32
    0x0d0fe62a62b1c74788e01f92c8886a5c62e538f6390531c0451093a66348b040
  let shared : Bytes := bytes32
    0x59ecd06d48d035b409158e5b0fd2a223fc3af3339d0906cb7afe7c382af4b56a
  let pub := ((sampleKeys.head?).map (fun k => k.2)).getD ([],[])
  { Crates.sample with
    sha512 := fun _ =>
      bytes32 0x98aebbb178a551876bfaf8e1e530dac6aaf6c2ea1c8f8406a3ab37dfb40fbc25 ++
      bytes32 0xcf9c2fb29ccbb8fb7cdc1879860ba069cc557eae1aed76aa30be4bc88f90408d
    x25519 := fun scalar point =>
      if scalar = sk ∧ point = SampleMail.ephPub then shared
      else if scalar = sk ∧ point = 9 :: List.replicate 31 0 then pub.2
      else List.replicate 32 1
    hkdf := fun salt secret info =>
      if salt = SampleMail.ephPub ++ pub.2 ∧ secret = shared ∧ info = Crypto.hkdfInfo then sealKey
      else List.replicate 32 1
    aeadOpen := fun key nonce ad ciphertext =>
      (sampleMail.find? fun mail => key = sealKey ∧ nonce = mail.nonce ∧
        ad = Crypto.aad Crypto.wireVersion SampleMail.ephPub mail.nonce pub.1 ∧
        ciphertext = mail.ciphertextBytes).map SampleMail.inner
    verifyStrict := fun key msg signature => sampleMail.any fun mail =>
      key = mail.senderKey ∧ msg = Crypto.msgTag ++ pub.1 ++ mail.frame ∧
        signature = mail.signature.flatMap bytes32
    zstdDecode := fun _ limit data =>
      if data = rawFrame (data.drop 9) then some ((data.drop 9).take limit) else none
    fromSlice := fun body =>
      match sampleMail.find? (fun mail => asBytes mail.text = body) with
      | some mail => some mail.json
      | none => sampleBodies.lookup body }

/-- The recipient of the sample mail. -/
def postedIdentity : Crypto.Identity where
  secretKey := sampleSecret
  x25519Priv := bytes32 0x98aebbb178a551876bfaf8e1e530dac6aaf6c2ea1c8f8406a3ab37dfb40fbc65
  x25519Pub := bytes32 0x75e270df2952c57ba8367ba8618c178f9fe50db2799d304e74e918d985686146

theorem posted_secret : Crypto.fromSecretBytes .posted sampleSecret = .ok postedIdentity := by
  have h : (Crypto.fromSecretBytes .posted sampleSecret).toOption = some postedIdentity := by
    decide
  cases hr : Crypto.fromSecretBytes .posted sampleSecret with
  | error e => simp [hr, Except.toOption] at h
  | ok id => simpa [hr, Except.toOption] using h

/-- The sample mails of some numbers. -/
def mailed (seqs : List UInt8) : List Bytes :=
  seqs.filterMap fun seq => (sampleMail.find? fun mail => mail.seq = seq).map SampleMail.blob

end Skrepka.Client
