import Mathlib.Data.Finset.Basic
import Std.Data.TreeMap
import Skrepka.Client.Phonemic

/-! Persisted state: the values the client keeps in its key-value store. -/
namespace Skrepka.Client
open Rust

/-- A `BTreeMap` keyed by the hex public key of a peer. -/
abbrev PeerMap (α : Type) := Std.TreeMap String α

def defaultServerUrl : String := "http://localhost:8080"
def maxMessagesPerPeer : ℕ := 1000
def maxOutboxRetries : ℕ := 10
def outboxTtlMs : ℤ := 86400000

structure Settings where
  serverUrl : String := defaultServerUrl
  deriving DecidableEq

structure OwnProfile where
  displayName : String := ""
  bio : String := ""
  photo : Option String := none
  deriving DecidableEq

structure Contact where
  pubkey : String
  nickname : String
  displayName : String := ""
  bio : String := ""
  photo : Option String := none
  blocked : Bool := false
  lastProfileTs : ℤ := 0
  lastAckTs : ℤ := 0
  addedAt : ℤ
  deriving DecidableEq

/-- `Contact::new`. -/
def Contact.new (pubkey nickname : String) (addedAt : ℤ) : Contact :=
  { pubkey, nickname, addedAt }

structure StoredMessage where
  id : String
  body : String
  ts : ℤ
  outgoing : Bool
  delivered : Bool
  deriving DecidableEq

/-- A queued payload, encrypted only when it is sent. -/
structure OutboxItem where
  recipient : String
  envelopeJson : String
  kind : Option String := none
  retries : ℕ := 0
  firstAttempt : ℤ := 0
  deriving DecidableEq

namespace OutboxItem

def new (recipient envelopeJson : String) : OutboxItem := { recipient, envelopeJson }

def profile (recipient envelopeJson : String) : OutboxItem :=
  { new recipient envelopeJson with kind := some "profile" }

def isProfile (i : OutboxItem) : Bool := i.kind = some "profile"

/-- The retry budget is spent, or the first attempt is too long ago. -/
def isExpired (i : OutboxItem) (now : ℤ) : Bool :=
  i.retries ≥ maxOutboxRetries ||
    (i.firstAttempt > 0 && i64SaturatingSub now i.firstAttempt > outboxTtlMs)

end OutboxItem

/-- The keys of the store; `messages peer` is the string `messages:<peer>`. -/
inductive KvKey
  | settings
  | profile
  | contacts
  | cursor
  | outbox
  | seenIds
  | messages (peer : String)
  deriving DecidableEq

/-- What the store holds under a key: the JSON of a value of that key's type, or bytes that
no type of the client accepts. -/
inductive KvValue
  | settings (s : Settings)
  | profile (p : OwnProfile)
  | contacts (cs : List Contact)
  | cursor (c : ℤ)
  | outbox (items : List OutboxItem)
  | seenIds (ids : PeerMap (Finset String))
  | messages (ms : List StoredMessage)
  | garbage (bytes : Bytes)

namespace KvValue

def settings? : KvValue → Option Settings | settings s => some s | _ => none
def profile? : KvValue → Option OwnProfile | profile p => some p | _ => none
def contacts? : KvValue → Option (List Contact) | contacts cs => some cs | _ => none
def cursor? : KvValue → Option ℤ | cursor c => some c | _ => none
def outbox? : KvValue → Option (List OutboxItem) | outbox items => some items | _ => none
def seenIds? : KvValue → Option (PeerMap (Finset String)) | seenIds ids => some ids | _ => none
def messages? : KvValue → Option (List StoredMessage) | messages ms => some ms | _ => none

end KvValue

/-- The result of a key-value operation: what was there, or an error and its text. -/
abbrev KvData := Except String (Option KvValue)

/-- Decode a `get` result: the value, an absent key, or a read that failed. -/
def parseKv {α : Type} (decode : KvValue → Option α) : KvData → Except Unit (Option α)
  | .ok (some bytes) => match decode bytes with
    | some a => .ok (some a)
    | none => .error ()
  | .ok none => .ok none
  | .error _ => .error ()

/-- Insert a message after every message with the same or an earlier `ts`: in a conversation in the order
of its times, which is what is kept, the binary search of the source ends at the first later one. -/
def insertSorted (convo : List StoredMessage) (msg : StoredMessage) : List StoredMessage :=
  let pos := convo.findIdx (fun m => ¬ m.ts ≤ msg.ts)
  convo.insertIdx pos msg

/-- Keep only the most recent messages, which are at the back. -/
def trimHistory (convo : List StoredMessage) : List StoredMessage :=
  convo.drop (convo.length-maxMessagesPerPeer)

end Skrepka.Client
