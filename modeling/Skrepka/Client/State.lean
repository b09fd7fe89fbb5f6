import Mathlib.Data.List.Sort
import Mathlib.Data.String.Basic
import Skrepka.Lib.Mvu
import Skrepka.Client.Crypto
import Skrepka.Client.Data
import Skrepka.Client.Protocol

/-! The client's model, its events, and the effects it asks of the shell. -/
namespace Skrepka.Client
open Rust Mvu

inductive Event
  | identityLoaded (sk : Bytes)
  | showConversations
  | showSettings
  | showAddContact
  | showEditProfile
  | openChat (peer : String)
  | back
  | composeChanged (s : String)
  | sendText
  | addContact (input nickname : String)
  | setBlocked (peer : String) (blocked : Bool)
  | deleteContact (peer : String)
  | saveProfile (displayName bio : String) (photo : Option String)
  | setServerUrl (url : String)
  | connect
  | loadedSettings (res : KvData)
  | loadedProfile (res : KvData)
  | loadedContacts (res : KvData)
  | loadedCursor (res : KvData)
  | loadedOutbox (res : KvData)
  | loadedSeenIds (res : KvData)
  | loadedMessages (peer : String) (res : KvData)
  | saved (res : KvData)
  | savedCursor (res : KvData)
  | authenticate
  | poll
  | pollWatchdog (gen : UInt64)
  | startFlush
  | flushWatchdog (gen : UInt64)
  | authWatchdog (gen : UInt64)
  | challengeResult (gen : UInt64) (res : HttpResult)
  | verifyResult (gen : UInt64) (res : HttpResult)
  | pollResult (gen : UInt64) (res : HttpResult)
  | sendResult (gen : UInt64) (res : HttpResult)

structure HttpRequest where
  url : String
  authorization : Option String := none
  body : RequestBody
  deriving DecidableEq

/-- Which event a finished HTTP request is sent back as. -/
inductive HttpTag
  | challengeResult (gen : UInt64)
  | verifyResult (gen : UInt64)
  | pollResult (gen : UInt64)
  | sendResult (gen : UInt64)
  deriving DecidableEq

def HttpTag.event : HttpTag → HttpResult → Event
  | challengeResult gen => .challengeResult gen
  | verifyResult gen => .verifyResult gen
  | pollResult gen => .pollResult gen
  | sendResult gen => .sendResult gen

inductive KvOp
  | get (key : KvKey)
  | set (key : KvKey) (value : KvValue)
  | delete (key : KvKey)

def KvOp.key : KvOp → KvKey
  | get key | set key _ | delete key => key

/-- Which event a finished key-value operation is sent back as. -/
inductive KvTag
  | loadedSettings
  | loadedProfile
  | loadedContacts
  | loadedCursor
  | loadedOutbox
  | loadedSeenIds
  | loadedMessages (peer : String)
  | saved
  | savedCursor
  deriving DecidableEq

def KvTag.event : KvTag → KvData → Event
  | loadedSettings => .loadedSettings
  | loadedProfile => .loadedProfile
  | loadedContacts => .loadedContacts
  | loadedCursor => .loadedCursor
  | loadedOutbox => .loadedOutbox
  | loadedSeenIds => .loadedSeenIds
  | loadedMessages peer => .loadedMessages peer
  | saved => .saved
  | savedCursor => .savedCursor

/-- Which event a timer is sent back as when it fires. -/
inductive TimeTag
  | authenticate
  | poll
  | startFlush
  | pollWatchdog (gen : UInt64)
  | flushWatchdog (gen : UInt64)
  | authWatchdog (gen : UInt64)
  deriving DecidableEq

def TimeTag.event : TimeTag → Event
  | authenticate => .authenticate
  | poll => .poll
  | startFlush => .startFlush
  | pollWatchdog gen => .pollWatchdog gen
  | flushWatchdog gen => .flushWatchdog gen
  | authWatchdog gen => .authWatchdog gen

inductive Effect
  | http (req : HttpRequest) (tag : HttpTag)
  | kv (op : KvOp) (tag : KvTag)
  | time (ms : ℕ) (tag : TimeTag)

abbrev Commands := List (Cmd Event Effect)

inductive ConnStatus
  | offline
  | connecting
  | online
  deriving DecidableEq

inductive Page
  | conversations
  | chat
  | addContact
  | settings
  | editProfile
  deriving DecidableEq

/-- The batch a live `/messages` request is carrying: the first `count` outbox items. -/
structure InFlight where
  recipient : String
  count : ℕ
  bytes : ℕ
  deriving DecidableEq

def startupLoads : ℕ := 6
def maxFutureSkewMs : ℤ := 60000
def maxContacts : ℕ := 500
def maxPollTotalBytes : ℕ := 64*1024*1024
def maxPollEvents : ℕ := 2000
def maxPollResponseBytes : ℕ := 64*1024*1024
def pollWatchdogMs : ℕ := 90000
def flushWatchdogMs : ℕ := 90000
def authWatchdogMs : ℕ := 90000
def maxSendBatch : ℕ := 100
def maxSendBatchBytes : ℕ := 4*1024*1024
def maxRetryAfterMs : ℕ := 5*60*1000
def maxSeenIdsPerPeer : ℕ := 2000

structure Model where
  secretKey : Option Bytes := none
  myPubkey : String := ""
  settings : Settings := {}
  profile : OwnProfile := {}
  contacts : PeerMap Contact := ∅
  messages : PeerMap (List StoredMessage) := ∅
  seenIds : PeerMap (Finset String) := ∅
  outbox : List OutboxItem := []
  cursor : ℤ := 0
  token : Option String := none
  conn : ConnStatus := .offline
  pollRetries : ℕ := 0
  sendRetries : ℕ := 0
  polling : Bool := false
  pollGen : UInt64 := 0
  authenticating : Bool := false
  authGen : UInt64 := 0
  flushing : Bool := false
  flushGen : UInt64 := 0
  inFlight : Option InFlight := none
  sendBatchBudget : Option ℕ := none
  loadsPending : ℕ := 0
  kvLoadFailed : Bool := false
  flushPausedUntil : ℤ := 0
  page : Page := .conversations
  activePeer : Option String := none
  compose : String := ""
  error : Option String := none

abbrev Handler := Upd Model Event Effect

/-- The order in which a hash set is iterated: some enumeration of it. -/
structure HashOrder where
  iter : Finset String → List String
  nodup : ∀ s, (iter s).Nodup
  mem_iter : ∀ s a, a ∈ iter s ↔ a ∈ s

/-- What one update reads besides its event: successive clock readings, a fresh uuid, a
random stream for each encryption, and the iteration order of hash sets. -/
structure Ambient where
  now : ℕ → ℤ
  uuid : String
  rng : ℕ → Crypto.Rng
  hash : HashOrder

/-- Hash sets that are iterated in the order of their elements. -/
def HashOrder.sorted : HashOrder where
  iter s := Quot.liftOn s.val (fun l => l.insertionSort (· ≤ ·)) fun _ _ h =>
    List.Perm.eq_of_pairwise' (List.pairwise_insertionSort _ _) (List.pairwise_insertionSort _ _)
      ((List.perm_insertionSort _ _).trans (h.trans (List.perm_insertionSort _ _).symm))
  nodup := by
    rintro ⟨⟨l⟩,h⟩
    exact (List.perm_insertionSort _ l).nodup_iff.mpr h
  mem_iter := by
    rintro ⟨⟨l⟩,h⟩ a
    exact List.mem_insertionSort _

/-- Surroundings to evaluate runs in: the clock stands still. -/
def Ambient.sample : Ambient := ⟨fun _ => 1000,"id",fun _ _ => 1,.sorted⟩

/-- The readings left after the first `n`. -/
def Ambient.after (amb : Ambient) (n : ℕ) : Ambient :=
  { amb with now := fun k => amb.now (n+k) }

namespace Model

def identity (x : Crates) (m : Model) : Option Crypto.Identity :=
  m.secretKey.bind (fun sk => (Crypto.fromSecretBytes x sk).toOption)

/-- Tick off one startup load; the flag says that it was the last. -/
def startupLoadDone (m : Model) : Model × Bool :=
  if m.loadsPending = 0 then (m,false)
  else ({ m with loadsPending := m.loadsPending-1 },m.loadsPending-1 = 0)

def nextPollGen (m : Model) : Model := { m with pollGen := m.pollGen+1 }
def nextAuthGen (m : Model) : Model := { m with authGen := m.authGen+1 }
def nextFlushGen (m : Model) : Model := { m with flushGen := m.flushGen+1 }

/-- Release the poll guard and retire its generation. -/
def abandonPoll (m : Model) : Model := { m with polling := false, pollGen := m.pollGen+1 }

def abandonFlush (m : Model) : Model :=
  { m with flushing := false, inFlight := none, flushGen := m.flushGen+1 }

def abandonAuth (m : Model) : Model :=
  { m with authenticating := false, authGen := m.authGen+1 }

/-- Forget what the live send will pop if its items are bound for `peer`. -/
def detachInFlight (m : Model) (peer : String) : Model :=
  if m.inFlight.any (fun f => f.recipient = peer) then { m with inFlight := none } else m

def inFlightCount (m : Model) : ℕ := m.inFlight.elim 0 InFlight.count

def isBlocked (m : Model) (peer : String) : Bool := m.contacts[peer]?.any Contact.blocked

end Model

/-- Bare lowercased hostname of a server URL. -/
def serverHost (x : Crates) (url : String) : String :=
  (((x.parseUrl url).bind Url.hostStr).map
    (fun h => toLowercase (trimEndMatches (· == '.') h))).getD ""

/-- Validate and canonicalize a relay URL. -/
def normalizeServerUrl (x : Crates) (input : String) : Option String := do
  let url ← x.parseUrl (trim input)
  if url.scheme ≠ "http" ∧ url.scheme ≠ "https" then none
  if url.hostStr.all (fun h => h = "") then none
  if url.query.isSome ∨ url.fragment.isSome then none
  return trimEndMatches (· == '/') url.asStr

/-- Exponential backoff from 3 s, capped at 30 s. -/
def backoffMs (retries : ℕ) : ℕ := min (u64SaturatingMul 3000 (1 <<< min retries 4)) 30000

end Skrepka.Client
