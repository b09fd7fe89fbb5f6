import Skrepka.Lib.Lts
import Skrepka.Relay.Mailbox

/-! The handlers of a relay as the transactions they commit. Who may call them is left open: a
transaction carries the key that its caller was authenticated for, and the clock reading that its
handler took before it ran. -/
namespace Skrepka.Relay
open Sequenced

structure Envelope where
  toKey : Text
  encryptedBlob : Text
  deriving DecidableEq

structure GossipEvent where
  eventType : Text
  pubkey : Option Text
  deriving DecidableEq

structure HttpError where
  status : ℕ
  message : String
  deriving DecidableEq

variable (cfg : Config)

def validateBatch (messages : List Envelope) (senderKey : Text) : Option HttpError :=
  if messages.length > cfg.maxBatchSize then some ⟨413,"batch_too_large"⟩
  else if messages.any fun m => !(isValidExactHex 64 m.toKey && isValidBlobHex cfg m.encryptedBlob) then
    some ⟨400,"invalid_message"⟩
  else if messages.any fun m => m.toKey = senderKey then some ⟨400,"self_send"⟩
  else none

/-- The peers to which a recipient's mail goes at once. -/
def remoteServers (pres : List PresenceEntry) (toKey : Text) (t : ℤ) : List Text :=
  (collectPeers cfg (pres.filter fun p => p.pubkey = toKey && p.expiresAt > t)
    PresenceEntry.server).take cfg.maxRemoteServersPerMessage.toNat

/-- The peers that hold a stored blob already. -/
def delivered (toKey blob : Text) (msgs : List Message) : List Text :=
  ((msgs.find? fun m => m.toKey = toKey && m.encryptedBlob = blob).map Message.deliveredTo).getD []

/-- Queue a forward to each of some servers that has none, has not got the blob, and is not full. -/
def stageForwards (toKey blob : Text) (servers had : List Text) (fwds : List ForwardEntry) :
    List ForwardEntry :=
  let fresh := servers.filter fun s => !(fwds.any (forwardMatches toKey blob s)) && !had.contains s &&
    (fwds.countP fun f => f.toServer = s) < cfg.maxForwardsPerServer
  capForwards cfg (union fwds (fresh.map fun s => ⟨s,toKey,blob,0⟩))

/-- File one message of a batch, and stage its forwards. -/
def sendOne (pres : List PresenceEntry) (t : ℤ) (s : State) (m : Envelope) : State :=
  let had := delivered m.toKey m.encryptedBlob s.mail.messages
  { s with
    mail := s.mail.appendMessage cfg m.toKey m.encryptedBlob t
    forwards := if cfg.federationEnabled then
        stageForwards cfg m.toKey m.encryptedBlob (remoteServers cfg pres m.toKey t) had s.forwards
      else s.forwards }

def handleSendMessages (messages : List Envelope) (senderKey : Text) (t : ℤ) (s : State) : State :=
  match validateBatch cfg messages senderKey with
  | some _ => s
  | none => messages.foldl (sendOne cfg s.presence t) s

def handleForwardMessage (toKey blob : Text) (t : ℤ) (s : State) : State :=
  if !cfg.federationEnabled then s
  else if !hasLocalPresence cfg s.presence toKey t then s
  else { s with mail := s.mail.appendMessage cfg toKey blob t }

/-- Replace the local presence of a key by a fresh one. -/
def refreshLocalPresence (pubkey : Text) (expiry : ℤ) (s : State) : State :=
  let others := s.presence.filter fun p => !(p.pubkey = pubkey && isLocalServer cfg p.server)
  { s with presence := union others [⟨pubkey,cfg.serverHost,expiry⟩] }

/-- Drop what a cursor acks, with its forwards. -/
def ackPolledMessages (pubkey : Text) (cursor : ℤ) (s : State) : State :=
  let blobs := (s.mail.messages.filter (Mailbox.acks pubkey cursor)).map Message.encryptedBlob
  { s with
    mail := s.mail.ackPolled pubkey cursor
    forwards := s.forwards.filter fun f => !(f.toKey = pubkey && blobs.contains f.encryptedBlob) }

/-- A cursor from a client, held below what has been given out or the clock. -/
def clampCursor (cursor t : ℤ) (mail : Mailbox) : ℤ :=
  max 0 (min (max t (currentSeq mail.seqCounter)) cursor)

/-- The first transaction of a poll, after which it collects from the clamped cursor. -/
def setupPoll (pubkey : Text) (cursor t : ℤ) (s : State) : State :=
  let clamped := clampCursor cursor t s.mail
  let s := if clamped > 0 then ackPolledMessages pubkey clamped s else s
  let stale := !s.presence.any fun p => p.pubkey = pubkey && isLocalServer cfg p.server &&
    p.expiresAt-t ≥ cfg.sessionExpiry/2
  if stale then refreshLocalPresence cfg pubkey (t+cfg.sessionExpiry) s else s

def freshFor (pk : Text) (cursor tnow : ℤ) (msgs : List Message) : List Message :=
  msgs.filter fun m => m.toKey = pk && tnow-m.receivedAt < cfg.messageMaxAge && m.receivedAt > cursor

structure Page where
  events : List Text
  cursor : ℤ
  deriving DecidableEq

/-- The rows that a poll collects. -/
def limited (pk : Text) (cursor tnow : ℤ) (msgs : List Message) : List Message :=
  (sortBy Message.receivedAt (freshFor cfg pk cursor tnow msgs)).take cfg.maxPollEvents.toNat

def collectAt (pk : Text) (clampedCursor tnow : ℤ) (msgs : List Message) : Page :=
  let rows := limited cfg pk clampedCursor tnow msgs
  ⟨rows.map Message.encryptedBlob,rows.foldl (fun acc m => max acc m.receivedAt) clampedCursor⟩

def pruneExpired (t : ℤ) (s : State) : State :=
  let surviving := Mailbox.surviving cfg t s.mail.messages
  { s with
    mail := s.mail.prune cfg t
    forwards := s.forwards.filter fun f => surviving.any fun m =>
      m.toKey = f.toKey && m.encryptedBlob = f.encryptedBlob
    presence := s.presence.filter fun p => p.expiresAt > t }

/-- A peer has accepted a forward that went out when its message was sent. -/
def forwardAccepted (toKey blob server : Text) (s : State) : State :=
  { s with
    mail := s.mail.markDelivered toKey blob server
    forwards := s.forwards.filter fun x => !forwardMatches toKey blob server x }

/-- A forward was tried once more. -/
def forwardRetried (toKey blob server : Text) (success : Bool) (s : State) : State :=
  let isMatch := forwardMatches toKey blob server
  let isDone := fun x : ForwardEntry => isMatch x && (success || x.retries+1 ≥ cfg.maxForwardRetries)
  { s with
    mail := if success then s.mail.markDelivered toKey blob server else s.mail
    forwards := (s.forwards.filter fun x => !isDone x).map fun x =>
      if isMatch x then { x with retries := x.retries+1 } else x }

def dropServer (server : Text) (s : State) : State :=
  { s with forwards := s.forwards.filter fun x => x.toServer ≠ server }

/-- Queue forwards of the mail of some keys to a server. -/
def forwardQueuedToAll (pubkeys : List Text) (server : Text) (s : State) : State :=
  let existing := s.forwards.countP fun f => f.toServer = server
  let budget := max 0 (cfg.maxForwardsPerServer-existing)
  let candidates := s.mail.messages.filter fun m => pubkeys.contains m.toKey &&
    !(s.forwards.any (forwardMatches m.toKey m.encryptedBlob server)) && !m.deliveredTo.contains server
  let newFwds := ((sortBy Message.receivedAt candidates).take budget.toNat).map fun m =>
    (⟨server,m.toKey,m.encryptedBlob,0⟩ : ForwardEntry)
  { s with forwards := capForwards cfg (union s.forwards newFwds) }

/-- The keys that a batch of gossip announces. -/
def announced (eventType : String) (events : List GossipEvent) : List Text :=
  (events.filter fun e => e.eventType = eventType.toList).filterMap fun e =>
    e.pubkey.filter (isValidExactHex 64)

def mergePresence (events : List GossipEvent) (fromServer : Text) (t : ℤ)
    (pres : List PresenceEntry) : List PresenceEntry :=
  let online := announced "online" events
  let touched := online ++ announced "offline" events
  let added := online.dedup.map fun pk => (⟨pk,fromServer,t+cfg.onlineGossipTtl⟩ : PresenceEntry)
  let kept := pres.filter fun p => p.server ≠ fromServer || !touched.contains p.pubkey
  let merged := union kept added
  let localRows := merged.filter fun p => isLocalServer cfg p.server
  let remoteRows := merged.filter fun p => !isLocalServer cfg p.server
  union localRows (capList (capPerServer remoteRows fromServer cfg.maxPresencePerServer) cfg.maxPresence)

/-- The keys of a batch of gossip that were not known to be online at its sender. -/
def newlyOnline (events : List GossipEvent) (fromServer : Text) (t : ℤ)
    (pres : List PresenceEntry) : List Text :=
  (announced "online" events).dedup.filter fun pk =>
    !pres.any fun p => p.pubkey = pk && p.server = fromServer && p.expiresAt > t

def refusesGossip (events : List GossipEvent) (fromServer : Text) : Bool :=
  !cfg.federationEnabled || isLocalServer cfg fromServer || isBadServerName fromServer ||
    events.length > cfg.maxGossipEvents

/-- Take in a batch of gossip. Forwards to keys that are offline now are cancelled. -/
def handleRecvGossip (events : List GossipEvent) (fromServer : Text) (t : ℤ) (s : State) : State :=
  if refusesGossip cfg events fromServer then s
  else
    let offlineOnly := (announced "offline" events).filter fun pk =>
      !(announced "online" events).contains pk
    { s with
      presence := mergePresence cfg events fromServer t s.presence
      forwards := s.forwards.filter fun f => !(f.toServer = fromServer && offlineOnly.contains f.toKey) }

/-- The transactions that a relay commits. -/
inductive Txn
  | sendMessages (messages : List Envelope) (senderKey : Text) (t : ℤ)
  | forwardMessage (toKey blob : Text) (t : ℤ)
  | verifyAuth (pubkey : Text) (t : ℤ)
  | setupPoll (pubkey : Text) (cursor t : ℤ)
  | recvGossip (events : List GossipEvent) (fromServer : Text) (t : ℤ)
  | forwardQueued (pubkeys : List Text) (server : Text)
  | forwardAccepted (toKey blob server : Text)
  | forwardRetried (toKey blob server : Text) (success : Bool)
  | dropServer (server : Text)
  | prune (t : ℤ)

def commit (s : State) : Txn → State
  | .sendMessages messages senderKey t => handleSendMessages cfg messages senderKey t s
  | .forwardMessage toKey blob t => handleForwardMessage cfg toKey blob t s
  | .verifyAuth pubkey t => refreshLocalPresence cfg pubkey (t+cfg.sessionExpiry) s
  | .setupPoll pubkey cursor t => setupPoll cfg pubkey cursor t s
  | .recvGossip events fromServer t => handleRecvGossip cfg events fromServer t s
  | .forwardQueued pubkeys server => forwardQueuedToAll cfg pubkeys server s
  | .forwardAccepted toKey blob server => forwardAccepted toKey blob server s
  | .forwardRetried toKey blob server success => forwardRetried cfg toKey blob server success s
  | .dropServer server => dropServer server s
  | .prune t => pruneExpired cfg t s

/-- What a transaction does to the mailbox, in order. -/
def mailOps (s : State) : Txn → List Mailbox.Op
  | .sendMessages messages senderKey t =>
    if validateBatch cfg messages senderKey = none then
      messages.map fun m => .append m.toKey m.encryptedBlob t
    else []
  | .forwardMessage toKey blob t =>
    if cfg.federationEnabled && hasLocalPresence cfg s.presence toKey t then [.append toKey blob t]
    else []
  | .setupPoll pubkey cursor t =>
    if clampCursor cursor t s.mail > 0 then [.ack pubkey (clampCursor cursor t s.mail)] else []
  | .forwardAccepted toKey blob server => [.mark toKey blob server]
  | .forwardRetried toKey blob server success => if success then [.mark toKey blob server] else []
  | .prune t => [.prune t]
  | .verifyAuth _ _ | .recvGossip _ _ _ | .forwardQueued _ _ | .dropServer _ => []

theorem sendAll_mail (pres : List PresenceEntry) (t : ℤ) (messages : List Envelope) (s : State) :
    (messages.foldl (sendOne cfg pres t) s).mail =
      (messages.map fun m => Mailbox.Op.append m.toKey m.encryptedBlob t).foldl (Mailbox.apply cfg)
        s.mail := by
  induction messages generalizing s with
  | nil => rfl
  | cons m messages ih => exact ih (sendOne cfg pres t s m)

/-- A transaction does to the mailbox what its operations do. -/
theorem commit_mail (s : State) (txn : Txn) :
    (commit cfg s txn).mail = (mailOps cfg s txn).foldl (Mailbox.apply cfg) s.mail := by
  cases txn with
  | sendMessages messages senderKey t =>
    simp only [commit, mailOps, handleSendMessages]
    cases validateBatch cfg messages senderKey with
    | some err => rfl
    | none => exact sendAll_mail cfg s.presence t messages s
  | forwardMessage toKey blob t =>
    cases hfed : cfg.federationEnabled with
    | false => simp [commit, mailOps, handleForwardMessage, hfed]
    | true =>
      cases hpres : hasLocalPresence cfg s.presence toKey t <;>
        simp [commit, mailOps, handleForwardMessage, hfed, hpres, Mailbox.apply]
  | setupPoll pubkey cursor t =>
    simp only [commit, mailOps, setupPoll]
    split <;> split <;> rfl
  | forwardRetried toKey blob server success => cases success <;> rfl
  | forwardAccepted | prune | verifyAuth | forwardQueued | dropServer => rfl
  | recvGossip events fromServer t =>
    simp only [commit, mailOps, handleRecvGossip]
    split <;> rfl

abbrev step (s : State) (txn : Txn) : Option State := some (commit cfg s txn)

/-- An observer who writes down every row that is added to the mailbox. -/
def noteRows (s : State) (txn : Txn) (_ : State) (log : List Message) : List Message :=
  log ++ Mailbox.allAdded cfg s.mail (mailOps cfg s txn)

end Skrepka.Relay
