import Skrepka.Client.Crates

/-! Message crypto: ephemeral X25519, HKDF, XChaCha20-Poly1305 and an Ed25519 signature over
the recipient and the padded, compressed plaintext. -/
namespace Skrepka.Client
open Rust

namespace Crypto

def hkdfInfo : Bytes := asBytes "skrepka-v2"
def authTag : String := "skrepka-auth-v1:"
def msgTag : Bytes := asBytes "skrepka-msg-v2:"
def wireVersion : UInt8 := 2
def ed25519SecretLen : ℕ := 64
def nonceLen : ℕ := 24
def minBlobLen : ℕ := 1+32+nonceLen+32+64+4+16
def maxBlobLen : ℕ := 42*1024*1024
def maxPlaintextLen : ℕ := 1048576
def maxChallengeLen : ℕ := 256

def paddingBuckets : List ℕ := [256,512,1024,2048,4096,8192,16384,32768,65536]

/-- Round up to a bucket, and above the last bucket to a multiple of it that is never met
exactly. -/
def paddedLen (actual : ℕ) : ℕ :=
  match paddingBuckets.find? (fun bucket => actual ≤ bucket) with
  | some bucket => bucket
  | none =>
    let remainder := actual%65536
    if remainder = 0 then actual+65536 else actual+65536-remainder

/-- What the ciphertext is bound to: version, ephemeral key, nonce and recipient. -/
def aad (version : UInt8) (ephPub nonce recipientPub : Bytes) : Bytes :=
  version :: ephPub ++ nonce ++ recipientPub

inductive CryptoError
  | badKeyLength
  | blobTooShort
  | blobTooLong
  | invalidPublicKey
  | invalidEphemeralKey
  | encrypt
  | decrypt
  | badSignature
  | decompress
  | challengeTooLong
  deriving DecidableEq

/-- A random byte stream, read from the front by `fill_bytes`. -/
abbrev Rng := ℕ → UInt8

def Rng.fill (rng : Rng) (n : ℕ) : Bytes := (List.range n).map rng
def Rng.skip (rng : Rng) (n : ℕ) : Rng := fun k => rng (n+k)

def allZero (bs : Bytes) : Bool := bs.all (· == 0)

def u32ToBeBytes (n : ℕ) : Bytes :=
  [UInt8.ofNat (n/16777216),UInt8.ofNat (n/65536),UInt8.ofNat (n/256),UInt8.ofNat n]

def u32FromBeBytes : Bytes → ℕ
  | [a,b,c,d] => 16777216*a.toNat+65536*b.toNat+256*c.toNat+d.toNat
  | _ => 0

/-- The 64-byte secret key (seed, then public key) with its cached X25519 pair. -/
structure Identity where
  secretKey : Bytes
  x25519Priv : Bytes
  x25519Pub : Bytes
  deriving DecidableEq

section
variable (x : Crates)

/-- The clamped first half of the seed's SHA-512. -/
def ed25519SkToX25519 (secretKey : Bytes) : Bytes :=
  let scalar := (x.sha512 (secretKey.take 32)).take 32
  (scalar.modify 0 (· &&& 248)).modify 31 (fun b => (b &&& 127) ||| 64)

def withX25519 (secretKey : Bytes) : Except CryptoError Identity :=
  let x25519Priv := ed25519SkToX25519 x secretKey
  let x25519Pub := x.x25519 x25519Priv x.x25519Basepoint
  if allZero x25519Pub then .error .invalidPublicKey
  else .ok ⟨secretKey,x25519Priv,x25519Pub⟩

/-- The trailing half must be the public key of the seed. -/
def fromSecretBytes (bytes : Bytes) : Except CryptoError Identity :=
  if bytes.length ≠ ed25519SecretLen then .error .badKeyLength
  else if x.ed25519Public (bytes.take 32) ≠ bytes.drop 32 then .error .badKeyLength
  else withX25519 x bytes

def Identity.publicKey (id : Identity) : Bytes := id.secretKey.drop 32
def Identity.publicKeyHex (id : Identity) : String := Hex.encode id.publicKey

/-- Sign the auth challenge for a host, if it is short enough. -/
def signChallenge (id : Identity) (serverHost challenge : String) : Except CryptoError String :=
  if len challenge > maxChallengeLen then .error .challengeTooLong
  else
    let message := authTag ++ serverHost ++ ":" ++ challenge
    .ok (Hex.encode (x.ed25519Sign (id.secretKey.take 32) (asBytes message)))

def ed25519PkToX25519 (edPub : Bytes) : Except CryptoError Bytes :=
  match x.toMontgomery edPub with
  | none => .error .invalidPublicKey
  | some montgomery => if allZero montgomery then .error .invalidPublicKey else .ok montgomery

/-- X25519 that refuses an all-zero shared secret. -/
def x25519 (scalar point : Bytes) : Except CryptoError Bytes :=
  let shared := x.x25519 scalar point
  if allZero shared then .error .invalidEphemeralKey else .ok shared

def deriveKey (rawSecret ephPub recipXPub : Bytes) : Bytes :=
  x.hkdf (ephPub ++ recipXPub) rawSecret hkdfInfo

/-- Decode a zstd frame, reading one byte past the cap so that an overrun is noticed. -/
def decompress (data : Bytes) : Except CryptoError Bytes :=
  match x.zstdDecode 21 (maxPlaintextLen+1) data with
  | none => .error .decompress
  | some out => if out.length > maxPlaintextLen then .error .decompress else .ok out

/-- Encrypt a plaintext for an Ed25519 key. The random stream yields the ephemeral key, the
padding and the nonce, in that order. -/
def encrypt (rng : Rng) (sender : Identity) (recipientEdPub plaintext : Bytes) :
    Except CryptoError Bytes := do
  if plaintext.length > maxPlaintextLen then throw .encrypt
  let senderPub := sender.publicKey
  let ephPriv := rng.fill 32
  let ephPub := x.x25519 ephPriv x.x25519Basepoint
  let recipX ← ed25519PkToX25519 x recipientEdPub
  let rawSecret ← x25519 x ephPriv recipX
  let key := deriveKey x rawSecret ephPub recipX
  let compressed := x.zstdEncode plaintext
  let unpaddedBlobLen := 1+32+nonceLen+32+64+4+compressed.length+16
  let target := paddedLen unpaddedBlobLen
  let padLen := target-unpaddedBlobLen
  let padding := (rng.skip 32).fill padLen
  let compressedLenBytes := u32ToBeBytes compressed.length
  let signed := msgTag ++ recipientEdPub ++ compressedLenBytes ++ compressed ++ padding
  let signature := x.ed25519Sign (sender.secretKey.take 32) signed
  let inner := senderPub ++ signature ++ compressedLenBytes ++ compressed ++ padding
  let nonce := ((rng.skip 32).skip padLen).fill nonceLen
  match x.aeadSeal key nonce (aad wireVersion ephPub nonce recipientEdPub) inner with
  | none => throw .encrypt
  | some ciphertext => return wireVersion :: ephPub ++ nonce ++ ciphertext

structure Decrypted where
  plaintext : Bytes
  senderHex : String
  deriving DecidableEq

/-- Decrypt a blob addressed to `recipient` and verify its sender's signature. -/
def decrypt (recipient : Identity) (blob : Bytes) : Except CryptoError Decrypted := do
  if blob.length < minBlobLen then throw .blobTooShort
  if blob.length > maxBlobLen then throw .blobTooLong
  let version := blob.headD 0
  if version ≠ wireVersion then throw .decrypt
  let ephPub := (blob.drop 1).take 32
  let nonce := (blob.drop 33).take nonceLen
  let ciphertext := blob.drop (33+nonceLen)
  let rawSecret ← x25519 x recipient.x25519Priv ephPub
  let key := deriveKey x rawSecret ephPub recipient.x25519Pub
  let recipPub := recipient.publicKey
  match x.aeadOpen key nonce (aad version ephPub nonce recipPub) ciphertext with
  | none => throw .decrypt
  | some inner =>
    if inner.length < 32+64+4 then throw .blobTooShort
    let senderPub := inner.take 32
    let sigBytes := (inner.drop 32).take 64
    let compressedLen := u32FromBeBytes ((inner.drop 96).take 4)
    if compressedLen > inner.length-100 then throw .decrypt
    let compressed := (inner.drop 100).take compressedLen
    if ¬ x.verifyingKey senderPub then throw .badSignature
    let signed := msgTag ++ recipPub ++ inner.drop 96
    if ¬ x.verifyStrict senderPub signed sigBytes then throw .badSignature
    let plaintext ← decompress x compressed
    return ⟨plaintext,Hex.encode senderPub⟩

end
end Crypto
end Skrepka.Client
