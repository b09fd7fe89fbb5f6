import Skrepka.Client.State

/-! The responses of the relay, read the way a derived `Deserialize` reads them. -/
namespace Skrepka.Client
open Rust

/-- The fields of a struct: an object in which no known field occurs twice and unknown ones are
ignored, or an array of at most that many values in order. -/
def Json.structFields (keys : List String) : Json → Option (List (Option Json))
  | .obj fields => keys.mapM fun key =>
    match fields.filter (fun f => f.1 = key) with
    | [] => some none
    | [f] => some (some f.2)
    | _ => none
  | .arr xs =>
    if xs.length ≤ keys.length then
      some (xs.map some ++ List.replicate (keys.length-xs.length) none)
    else none
  | _ => none

/-- A struct with one string field that must be there. -/
def Json.stringField (key : String) (v : Json) : Option String :=
  match v.structFields [key] with
  | some [some s] => s.asStr?
  | _ => none

def challengeRespOfJson : Json → Option String := Json.stringField "challenge"
def verifyRespOfJson : Json → Option String := Json.stringField "token"
def pollEventOfJson : Json → Option String := Json.stringField "encryptedBlob"

structure PollResp where
  /-- The blobs of the events. -/
  events : List String
  cursor : ℤ
  deriving DecidableEq

/-- Both fields may be missing. -/
def PollResp.ofJson (v : Json) : Option PollResp :=
  match v.structFields ["events","cursor"] with
  | some [events,cursor] => do
    let events ← match events with
      | some evs => (← evs.asArray?).mapM pollEventOfJson
      | none => some []
    let cursor ← match cursor with
      | some c => c.asI64?
      | none => some 0
    return ⟨events,cursor⟩
  | _ => none

example : PollResp.ofJson (.obj [("cursor",.int 7),("unknown",.null)]) = some ⟨[],7⟩ := by decide
example : PollResp.ofJson (.obj [("cursor",.int 7),("cursor",.int 7)]) = none := by decide

end Skrepka.Client
