import Mathlib.Data.Char
import Mathlib.Data.List.Dedup
import Mathlib.Data.List.Lex
import Skrepka.Lib.Sequenced
import Skrepka.Relay.ServerName

/-! The state of a relay, its startup constants, and the helpers that its handlers share. -/
namespace Skrepka.Relay
open Sequenced

/-- The constants that a relay can be started with. -/
structure Config where
  serverHost : Text := "localhost".toList
  messageMaxAge : ℤ := 2592000000
  maxBlobLen : ℤ := 41943040
  minBlobLen : ℤ := 346
  maxBatchSize : ℤ := 100
  maxGossipEvents : ℤ := 100
  maxPollEvents : ℤ := 50
  maxForwardsPerServer : ℤ := 2000
  maxRemoteServersPerMessage : ℤ := 100
  maxForwardsTotal : ℤ := 50000
  maxPresence : ℤ := 100000
  maxPresencePerServer : ℤ := 5000
  maxMessagesPerRecipient : ℤ := 10000
  maxMessagesTotal : ℤ := 1000000
  sessionExpiry : ℤ := 3600000
  onlineGossipTtl : ℤ := 5400000
  maxForwardRetries : ℤ := 10
  federationEnabled : Bool := false

/-- A mailbox row, with the peers that have accepted a forward of it. -/
structure Message where
  toKey : Text
  encryptedBlob : Text
  receivedAt : ℤ
  deliveredTo : List Text := []
  deriving DecidableEq

structure PresenceEntry where
  pubkey : Text
  server : Text
  expiresAt : ℤ
  deriving DecidableEq

structure ForwardEntry where
  toServer : Text
  toKey : Text
  encryptedBlob : Text
  retries : ℤ
  deriving DecidableEq

/-- The mailbox and the counter that numbers its rows. -/
structure Mailbox where
  messages : List Message := []
  seqCounter : List ℤ := []
  deriving DecidableEq

structure State where
  mail : Mailbox := {}
  presence : List PresenceEntry := []
  forwards : List ForwardEntry := []

/-- A relation holds every row once. -/
def union {α : Type} [DecidableEq α] (rows more : List α) : List α :=
  rows ++ more.filter fun a => a ∉ rows

variable (cfg : Config)

def isLocalServer (s : Text) : Bool := s = cfg.serverHost

def hasLocalPresence (pres : List PresenceEntry) (pk : Text) (t : ℤ) : Bool :=
  pres.any fun p => p.pubkey = pk && isLocalServer cfg p.server && p.expiresAt > t

/-- The servers of some rows, without ourselves. -/
def collectPeers {α : Type} (items : List α) (getServer : α → Text) : List Text :=
  ((items.map getServer).filter fun s => !isLocalServer cfg s).dedup

/-- Drop the entries that expire soonest. -/
def capList (items : List PresenceEntry) (maxN : ℤ) : List PresenceEntry :=
  (sortBy PresenceEntry.expiresAt items).drop (max 0 (items.length-maxN)).toNat

def capPerServer (items : List PresenceEntry) (server : Text) (maxN : ℤ) : List PresenceEntry :=
  union (items.filter fun x => !(x.server = server))
    (capList (items.filter fun x => x.server = server) maxN)

/-- Drop the forwards that have been retried most. -/
def capForwards (fwds : List ForwardEntry) : List ForwardEntry :=
  (fwds.insertionSort fun a b => a.retries < b.retries ∨
    a.retries = b.retries ∧ a.encryptedBlob ≤ b.encryptedBlob).take cfg.maxForwardsTotal.toNat

def forwardMatches (toKey blob server : Text) (f : ForwardEntry) : Bool :=
  f.toKey = toKey && f.encryptedBlob = blob && f.toServer = server

def isValidHex (s : Text) : Bool :=
  s.length > 0 && s.length/2*2 = s.length && s.all fun c => contains c "0123456789abcdef"

def isValidExactHex (exactLen : ℕ) (s : Text) : Bool := s.length = exactLen && isValidHex s

def isValidBlobHex (s : Text) : Bool :=
  s.length ≥ cfg.minBlobLen && s.length ≤ cfg.maxBlobLen && isValidHex s

end Skrepka.Relay
