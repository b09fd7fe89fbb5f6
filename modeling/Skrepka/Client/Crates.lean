import Skrepka.Lib.Hex

/-! The third-party crates behind the client, as functions that the model takes as given. -/
namespace Skrepka.Client
open Rust

/-- A `serde_json::Value`; an integer literal is kept exactly, any other number as text. -/
inductive Json
  | null
  | bool (b : Bool)
  | int (n : ℤ)
  | float (text : String)
  | str (s : String)
  | arr (xs : List Json)
  | obj (fields : List (String × Json))

namespace Json

/-- A repeated key keeps its last value. -/
def get? : Json → String → Option Json
  | obj fields, key => fields.reverse.lookup key
  | _, _ => none

def asStr? : Json → Option String
  | str s => some s
  | _ => none

/-- `as_i64`: integers outside the range of `i64` have none. -/
def asI64? : Json → Option ℤ
  | int n => if i64Min ≤ n ∧ n ≤ i64Max then some n else none
  | _ => none

def asArray? : Json → Option (List Json)
  | arr xs => some xs
  | _ => none

end Json

/-- The parts of a parsed URL that the client looks at. -/
structure Url where
  scheme : String
  hostStr : Option String
  query : Option String
  fragment : Option String
  asStr : String

structure Envelope where
  toKey : String
  encryptedBlob : String
  deriving DecidableEq

/-- The JSON bodies of the four requests the client makes. -/
inductive RequestBody
  | challengeReq (pubkey : String)
  | verifyReq (pubkey challenge signature : String) (revokeOthers : Bool)
  | pollReq (cursor : ℤ)
  | sendBatch (messages : List Envelope)
  deriving DecidableEq

/-- One HTTP answer, with the last `retry-after` header if there is one. -/
structure Response where
  status : ℕ
  retryAfter : Option String := none
  body : Bytes := []
  deriving DecidableEq

/-- A response with a status of 4xx or 5xx. -/
def Response.isError (resp : Response) : Bool := 400 ≤ resp.status && resp.status < 600

inductive HttpResult
  | ok (resp : Response)
  | err
  deriving DecidableEq

/-- Everything the client calls outside its own source. -/
structure Crates where
  /-- `SigningKey::from_bytes(seed).verifying_key()` -/
  ed25519Public : Bytes → Bytes
  ed25519Sign : Bytes → Bytes → Bytes
  /-- `VerifyingKey::from_bytes` accepts the key. -/
  verifyingKey : Bytes → Bool
  verifyStrict : Bytes → Bytes → Bytes → Bool
  /-- `CompressedEdwardsY::decompress`, then `to_montgomery` -/
  toMontgomery : Bytes → Option Bytes
  x25519 : Bytes → Bytes → Bytes
  x25519Basepoint : Bytes
  sha512 : Bytes → Bytes
  /-- HKDF-SHA256 of salt, input key and info, 32 bytes long -/
  hkdf : Bytes → Bytes → Bytes → Bytes
  /-- XChaCha20-Poly1305 of key, nonce, associated data and message -/
  aeadSeal : Bytes → Bytes → Bytes → Bytes → Option Bytes
  aeadOpen : Bytes → Bytes → Bytes → Bytes → Option Bytes
  zstdEncode : Bytes → Bytes
  /-- Window limit, output limit and frame: at most that much of the decoded frame. -/
  zstdDecode : ℕ → ℕ → Bytes → Option Bytes
  base64Decodes : String → Bool
  parseUrl : String → Option Url
  fromSlice : Bytes → Option Json
  toJson : Json → String
  /-- `serde_json::to_vec` succeeds on a request body. -/
  serializes : RequestBody → Bool
  /-- What `crux_http` makes of a response before the event is built. -/
  received : Response → HttpResult

/-- What an HTTP answer of the shell is when it gets to the update. -/
def Crates.deliver (x : Crates) : HttpResult → HttpResult
  | .ok resp => x.received resp
  | .err => .err

/-- `crux_http` hands a response on, unless its status is 4xx or 5xx, which makes it an error. -/
structure Crates.Screens (x : Crates) : Prop where
  refused : ∀ resp, resp.isError = true → x.received resp = .err
  passed : ∀ resp, resp.isError = false → x.received resp = .ok resp

/-- That, as a function. -/
def screened (resp : Response) : HttpResult := if resp.isError then .err else .ok resp

/-- The 32 bytes of a number, most significant first. -/
def bytes32 (n : ℕ) : Bytes := ((List.range 32).map fun i => UInt8.ofNat (n >>> (8*i))).reverse

/-- Seeds of 32 equal bytes, with their Ed25519 keys and the Montgomery forms of these. -/
def sampleKeys : List (Bytes × Bytes × Bytes) :=
  [(3,0xed4928c628d1c2c6eae90338905995612959273a5c63f93636c14614ac8737d1,
      0x75e270df2952c57ba8367ba8618c178f9fe50db2799d304e74e918d985686146),
   (7,0xea4a6c63e29c520abef5507b132ec5f9954776aebebe7b92421eea691446d22c,
      0x761d88ec830413919dfe9d4d1d56f17e653c8c994082df5b137b90a0ae6edf74),
   (8,0x1398f62c6d1a457c51ba6a4b5f3dbd2f69fca93216218dc8997e416bd17d93ca,
      0x899abcb61e203a8c03613c9f7524d4efcf609db0c80d8e8d0fbabd93430c5323)].map
    fun (b,ed,mont) => (List.replicate 32 b,bytes32 ed,bytes32 mont)

def challengeText : String := "\x7b\"challenge\":\"c\"\x7d"
def tokenText : String := "\x7b\"token\":\"t\"\x7d"
def junkPageText : String := "\x7b\"cursor\":5,\"events\":[\x7b\"encryptedBlob\":\"00\"\x7d]\x7d"

/-- Response bodies and what they parse to. -/
def sampleBodies : List (Bytes × Json) :=
  [(asBytes challengeText,.obj [("challenge",.str "c")]),
   (asBytes tokenText,.obj [("token",.str "t")]),
   (asBytes junkPageText,
     .obj [("cursor",.int 5),("events",.arr [.obj [("encryptedBlob",.str "00")]])])]

def sampleUrl (port : String) : Url :=
  ⟨"http",some "localhost",none,none,"http://localhost:" ++ port ++ "/"⟩

/-- An instance to evaluate runs with. Keys, responses and URLs are looked up in tables of true
values; sealing and signing are stand-ins. -/
def Crates.sample : Crates where
  ed25519Public seed := ((sampleKeys.lookup seed).map Prod.fst).getD []
  ed25519Sign _ _ := List.replicate 64 1
  verifyingKey key := sampleKeys.any (fun k => k.2.1 = key)
  verifyStrict _ _ _ := true
  toMontgomery key := (sampleKeys.find? (fun k => k.2.1 = key)).map (fun k => k.2.2)
  x25519 _ _ := List.replicate 32 1
  x25519Basepoint := 9 :: List.replicate 31 0
  sha512 _ := List.replicate 64 1
  hkdf _ _ _ := List.replicate 32 1
  aeadSeal _ _ _ _ := some (List.replicate 16 0)
  aeadOpen _ _ _ _ := none
  zstdEncode bs := bs
  zstdDecode _ _ _ := none
  base64Decodes s := s = ""
  parseUrl s := ["8080","9090"].findSome? fun port =>
    let url := "http://localhost:" ++ port
    if s = url ∨ s = url ++ "/" then some (sampleUrl port) else none
  fromSlice body := sampleBodies.lookup body
  toJson _ := "\x7b\x7d"
  serializes _ := true
  received := screened

/-- The secret key of the first sample seed. -/
def sampleSecret : Bytes :=
  List.replicate 32 3 ++ Crates.sample.ed25519Public (List.replicate 32 3)

/-- The public key of another sample seed. -/
def samplePeer (seed : UInt8) : String :=
  Hex.encode (Crates.sample.ed25519Public (List.replicate 32 seed))

end Skrepka.Client
