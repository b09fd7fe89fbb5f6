import Skrepka.Client.Crates

/-! Plaintext payloads: JSON with a `type`, a sender-chosen `ts`, and capped fields. -/
namespace Skrepka.Client
open Rust

namespace Protocol

def maxBodyLen : ℕ := 64*1024
def maxDisplayNameLen : ℕ := 128
def maxBioLen : ℕ := 1024
def maxPhotoLen : ℕ := 64*1024
def maxIdLen : ℕ := 128
def maxAckIds : ℕ := 1024

end Protocol

inductive Payload
  | text (id body : String)
  | deliveryAck (ackIds : List String)
  | profile (displayName bio photo : Option String)
  deriving DecidableEq

structure ParsedPayload where
  ts : ℤ
  payload : Payload
  deriving DecidableEq

namespace Protocol

/-- The JSON object of a payload; an absent profile field is left out of it. -/
def payloadJson (payload : Payload) (ts : ℤ) : Json :=
  match payload with
  | .text id body => .obj [("type",.str "text"),("id",.str id),("body",.str body),("ts",.int ts)]
  | .deliveryAck ackIds =>
    .obj [("type",.str "delivery.ack"),("ack_ids",.arr (ackIds.map .str)),("ts",.int ts)]
  | .profile displayName bio photo =>
    .obj ([("type",.str "profile"),("ts",.int ts)] ++
      (displayName.map (fun name => ("display_name",.str name))).toList ++
      (bio.map (fun b => ("bio",.str b))).toList ++
      (photo.map (fun p => ("photo",.str p))).toList)

def serializePayload (x : Crates) (payload : Payload) (ts : ℤ) : String :=
  x.toJson (payloadJson payload ts)

/-- The characters that survive `sanitize_text`: no control, bidirectional or zero-width
characters, except tab, newline and carriage return. -/
def keepsChar (c : Char) : Bool :=
  let cp := c.toNat
  if cp ≤ 0x1F && cp ≠ 0x9 && cp ≠ 0xA && cp ≠ 0xD then false
  else if cp = 0x200E || cp = 0x200F || (0x202A ≤ cp && cp ≤ 0x202E) ||
    (0x2066 ≤ cp && cp ≤ 0x2069) then false
  else if cp = 0x200B || cp = 0x200C || cp = 0x200D || cp = 0xFEFF then false
  else true

def sanitizeText (s : String) : String := String.ofList (s.toList.filter keepsChar)

/-- Read a parsed JSON value as a payload, dropping unknown types and oversized fields. -/
def payloadOfJson (x : Crates) (v : Json) : Option ParsedPayload := do
  let ts := ((v.get? "ts").bind Json.asI64?).getD 0
  let ty ← (v.get? "type").bind Json.asStr?
  let payload ← match ty with
    | "text" => do
      let id ← (v.get? "id").bind Json.asStr?
      let body := sanitizeText (← (v.get? "body").bind Json.asStr?)
      if len id > maxIdLen ∨ len body > maxBodyLen then none
      else some (Payload.text id body)
    | "delivery.ack" => do
      let raw ← (v.get? "ack_ids").bind Json.asArray?
      if raw.length > maxAckIds then none
      else
        let ackIds := raw.filterMap Json.asStr?
        if ackIds.length > maxAckIds ∨ ackIds.any (fun id => len id > maxIdLen) then none
        else some (Payload.deliveryAck ackIds)
    | "profile" =>
      let displayName := ((v.get? "display_name").bind Json.asStr?).map sanitizeText
      let bio := ((v.get? "bio").bind Json.asStr?).map sanitizeText
      let photo := (v.get? "photo").bind Json.asStr?
      if displayName.any (fun d => d.length > maxDisplayNameLen) ∨
        bio.any (fun b => b.length > maxBioLen) ∨
        photo.any (fun p => len p > maxPhotoLen) ∨
        photo.any (fun p => ¬ x.base64Decodes p) then none
      else some (Payload.profile displayName bio photo)
    | _ => none
  return ⟨ts,payload⟩

def parsePayload (x : Crates) (bytes : Bytes) : Option ParsedPayload :=
  (x.fromSlice bytes).bind (payloadOfJson x)

end Protocol
end Skrepka.Client
