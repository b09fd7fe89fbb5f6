import Mathlib.Data.Finset.Union
import Mathlib.Data.Finset.SDiff
import Mathlib.Data.Finset.Card
import Mathlib.Data.Finset.Dedup
import Skrepka.Client.Outbox
import Skrepka.Client.Wire

/-! Folding a poll page into the model, and queueing the delivery acks it calls for. -/
namespace Skrepka.Client
open Rust Mvu

/-- The acks of one sender on a page, applied after the page. -/
structure PendingAck where
  ts : ℤ := 0
  ids : Finset String := ∅

/-- The locals of `ingest_poll`. -/
structure Ingest where
  model : Model
  touchedConvos : Finset String := ∅
  contactsDirty : Bool := false
  outboxDirty : Bool := false
  ackTargets : PeerMap (List String) := ∅
  pendingAcks : PeerMap PendingAck := ∅
  budget : ℕ := maxPollTotalBytes
  eventsProcessed : ℕ := 0
  eventsStored : ℕ := 0

def ownProfile (m : Model) : Payload :=
  .profile (some m.profile.displayName) (some m.profile.bio) m.profile.photo

def messageIds (convo : List StoredMessage) : Finset String :=
  (convo.map StoredMessage.id).toFinset

namespace Ingest

/-- Give up on the rest of the page; a page of which nothing was stored is not acked. -/
def stop (prevCursor : ℤ) (error : String) (s : Ingest) : Ingest :=
  let cursor := if s.eventsStored = 0 then prevCursor else s.model.cursor
  { s with model := { s.model with cursor, error := some error } }

/-- A stranger wrote: a new contact, which is sent our profile. -/
def addStranger (x : Crates) (sender : String) (ts : ℤ) (s : Ingest) : Ingest :=
  let json := Protocol.serializePayload x (ownProfile s.model) ts
  { s with
    model := { s.model with
      contacts := s.model.contacts.insert sender (Contact.new sender "" ts)
      outbox := s.model.outbox ++ [.profile sender json] }
    contactsDirty := true
    outboxDirty := true }

/-- The dedup set of a peer, seeded from its conversation when it is empty. -/
def idSet (s : Ingest) (sender : String) : Finset String :=
  let ids := s.model.seenIds[sender]?.getD ∅
  if ids = ∅ then messageIds (s.model.messages[sender]?.getD []) else ids

/-- Bound the dedup set by dropping ids that the conversation no longer holds. -/
def capIds (hash : HashOrder) (convo : List StoredMessage) (ids : Finset String) :
    Finset String :=
  if ids.card > maxSeenIdsPerPeer then
    let excess := ids.card-maxSeenIdsPerPeer
    let toRemove := ((hash.iter ids).filter (fun i => i ∉ messageIds convo)).take excess
    ids \ toRemove.toFinset
  else ids

/-- File a text from a known contact, unless its id has been seen. -/
def storeText (hash : HashOrder) (sender : String) (ts : ℤ) (msgId body : String)
    (s : Ingest) : Ingest :=
  let convo := s.model.messages[sender]?.getD []
  let ids := s.idSet sender
  if msgId ∈ ids then
    { s with model := { s.model with
        messages := s.model.messages.insert sender convo
        seenIds := s.model.seenIds.insert sender ids } }
  else
    let convo := insertSorted convo ⟨msgId,body,ts,false,false⟩
    let ids := capIds hash convo (insert msgId ids)
    { s with
      model := { s.model with
        messages := s.model.messages.insert sender (trimHistory convo)
        seenIds := s.model.seenIds.insert sender ids }
      touchedConvos := insert sender s.touchedConvos
      ackTargets := s.ackTargets.insert sender (s.ackTargets[sender]?.getD [] ++ [msgId]) }

def text (x : Crates) (hash : HashOrder) (sender : String) (ts : ℤ) (msgId body : String)
    (s : Ingest) : Ingest :=
  if s.model.contacts.contains sender then s.storeText hash sender ts msgId body
  else if s.model.contacts.size ≥ maxContacts then s
  else (s.addStranger x sender ts).storeText hash sender ts msgId body

def deliveryAck (sender : String) (ts : ℤ) (ackIds : List String) (s : Ingest) : Ingest :=
  let p := s.pendingAcks[sender]?.getD {}
  let p := { p with ts := if ts > p.ts then ts else p.ts, ids := p.ids ∪ ackIds.toFinset }
  { s with pendingAcks := s.pendingAcks.insert sender p }

/-- Only a contact can change its profile, and an absent field means no change. -/
def profile (now : ℤ) (sender : String) (ts : ℤ) (displayName bio photo : Option String)
    (s : Ingest) : Ingest :=
  match s.model.contacts[sender]? with
  | none => s
  | some c =>
    if ts ≥ c.lastProfileTs then
      let c := { c with
        displayName := displayName.getD c.displayName
        bio := bio.getD c.bio
        photo := photo.orElse (fun _ => c.photo)
        lastProfileTs := min ts now }
      { s with
        model := { s.model with contacts := s.model.contacts.insert sender c }
        contactsDirty := true }
    else s

/-- A sender-chosen time, bounded to the present from both sides. -/
def clampTs (now ts : ℤ) : ℤ := min (max ts 0) (i64SaturatingAdd now maxFutureSkewMs)

/-- Act on a payload from an authenticated sender, unless it is ourselves or blocked. -/
def payload (x : Crates) (hash : HashOrder) (now : ℤ) (sender : String) (p : ParsedPayload)
    (s : Ingest) : Ingest :=
  if sender = s.model.myPubkey then s
  else if s.model.isBlocked sender then s
  else
    let ts := clampTs now p.ts
    match p.payload with
    | .text msgId body => s.text x hash sender ts msgId body
    | .deliveryAck ackIds => s.deliveryAck sender ts ackIds
    | .profile displayName bio photo => s.profile now sender ts displayName bio photo

/-- Decode, decrypt and parse a blob: its sender and payload. -/
def openBlob (x : Crates) (id : Crypto.Identity) (blob : String) :
    Option (String × ParsedPayload) := do
  let bytes ← Hex.decode blob
  let dec ← (Crypto.decrypt x id bytes).toOption
  let parsed ← Protocol.parsePayload x dec.plaintext
  return (dec.senderHex,parsed)

/-- An event counts as stored once it decrypts and parses, whatever becomes of it. -/
def event (x : Crates) (hash : HashOrder) (now : ℤ) (id : Crypto.Identity) (blob : String)
    (s : Ingest) : Ingest :=
  match openBlob x id blob with
  | none => s
  | some (sender,p) =>
    { s with eventsStored := s.eventsStored+1 }.payload x hash now sender p

/-- The loop over the page, with its limits on blob size, event count and total bytes. -/
def events (x : Crates) (hash : HashOrder) (now prevCursor : ℤ) (id : Crypto.Identity) :
    List String → Ingest → Ingest
  | [], s => s
  | blob :: evs, s =>
    if len blob > Crypto.maxBlobLen*2 then events x hash now prevCursor id evs s
    else if s.eventsProcessed ≥ maxPollEvents then
      s.stop prevCursor "relay sent too many poll events"
    else
      let s := { s with eventsProcessed := s.eventsProcessed+1 }
      if s.budget < len blob/2 then s.stop prevCursor "relay sent an oversized poll page"
      else
        events x hash now prevCursor id evs
          ({ s with budget := s.budget-len blob/2 }.event x hash now id blob)

def isStale (s : Ingest) (sender : String) (pending : PendingAck) : Bool :=
  s.model.contacts[sender]?.any (fun c => pending.ts < c.lastAckTs)

/-- Move the ack watermark of a contact, which never passes the present. -/
def ackWatermark (now : ℤ) (sender : String) (pending : PendingAck) (s : Ingest) : Ingest :=
  match s.model.contacts[sender]? with
  | none => s
  | some c =>
    let c := { c with lastAckTs := min pending.ts now }
    { s with
      model := { s.model with contacts := s.model.contacts.insert sender c }
      contactsDirty := true }

def isAcked (pending : PendingAck) (msg : StoredMessage) : Bool :=
  msg.outgoing && msg.id ∈ pending.ids && !msg.delivered

def markDelivered (pending : PendingAck) (convo : List StoredMessage) : List StoredMessage :=
  convo.map (fun msg => if isAcked pending msg then { msg with delivered := true } else msg)

def markConvo (sender : String) (pending : PendingAck) (s : Ingest) : Ingest :=
  match s.model.messages[sender]? with
  | none => s
  | some convo =>
    if convo.any (isAcked pending) then
      { s with
        model := { s.model with
          messages := s.model.messages.insert sender (markDelivered pending convo) }
        touchedConvos := insert sender s.touchedConvos }
    else s

def applyAck (now : ℤ) (s : Ingest) (pending : String × PendingAck) : Ingest :=
  if s.isStale pending.1 pending.2 then s
  else (s.ackWatermark now pending.1 pending.2).markConvo pending.1 pending.2

/-- The deferred acks. Each touches its own sender only, so the order is immaterial. -/
def applyAcks (now : ℤ) (s : Ingest) : Ingest := s.pendingAcks.toList.foldl (applyAck now) s

/-- The acks for one sender, in payloads that its own client will accept. -/
def ackItems (x : Crates) (ackTs : ℤ) (target : String × List String) : List OutboxItem :=
  (target.2.toChunks Protocol.maxAckIds).map fun ids =>
    .new target.1 (Protocol.serializePayload x (.deliveryAck ids) ackTs)

def queueAcks (x : Crates) (ackTs : ℤ) (s : Ingest) : Ingest :=
  { s with
    model := { s.model with
      outbox := s.model.outbox ++ s.ackTargets.toList.flatMap (ackItems x ackTs) }
    outboxDirty := s.outboxDirty || !s.ackTargets.isEmpty }

/-- Write down everything the page touched. -/
def persist (hash : HashOrder) (s : Ingest) : Handler :=
  (Upd.all ((hash.iter s.touchedConvos).map persistMessages)).and
    ((Upd.when (s.touchedConvos ≠ ∅) persistSeenIds).and
      ((Upd.when s.contactsDirty persistContacts).and
        (Upd.when s.outboxDirty persistOutbox)))

end Ingest

/-- The relay's cursor, kept out of the future and moved only by a page with events. -/
def adoptCursor (now : ℤ) (page : PollResp) (m : Model) : Model :=
  let clampedCursor := min page.cursor (i64SaturatingAdd now 60000)
  if page.events ≠ [] ∧ clampedCursor > m.cursor then { m with cursor := clampedCursor } else m

/-- Decrypt and fold a poll page into the model, and queue delivery acks. -/
def ingestPoll (x : Crates) (amb : Ambient) (page : PollResp) : Handler := fun m =>
  if m.kvLoadFailed then (m,[])
  else
    let adopted := adoptCursor (amb.now 0) page m
    match adopted.identity x with
    | none => (adopted,[])
    | some id =>
      let s := Ingest.events x amb.hash (amb.now 1) m.cursor id page.events { model := adopted }
      let s := (s.applyAcks (amb.now 1)).queueAcks x (amb.now 2)
      ((s.persist amb.hash).and (.emit [.event .startFlush])) s.model

end Skrepka.Client
