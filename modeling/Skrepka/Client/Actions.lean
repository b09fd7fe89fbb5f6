import Skrepka.Client.Ingest

/-! Navigation and what the user does. -/
namespace Skrepka.Client
open Rust Mvu

/-- Go to a page; an error is about what the user was just doing. -/
def showPage (page : Page) : Handler := fun m => ({ m with page, error := none },[.render])

def showConversations : Handler := fun m => showPage .conversations { m with activePeer := none }

def openChat (peer : String) : Handler := fun m => showPage .chat { m with activePeer := some peer }

def composeChanged (s : String) : Handler := fun m => ({ m with compose := s },[.render])

/-- Refuse what the user asked for. -/
def refuse (error : String) : Handler := fun m => ({ m with error := some error },[.render])

/-- The model after a switch to another relay. Its cursor, token, send budget and backoffs are
about the old one, and the requests in flight to it are retired. -/
def Model.switchRelay (m : Model) (url : String) : Model :=
  let m := { m with
    error := none
    settings := ⟨url⟩
    token := none
    conn := .offline
    sendBatchBudget := none
    cursor := 0 }
  let m := m.abandonPoll.abandonFlush
  { m with flushPausedUntil := 0, sendRetries := 0, pollRetries := 0 }

def setServerUrl (x : Crates) (url : String) : Handler := fun m =>
  match normalizeServerUrl x url with
  | none => refuse "server URL must be an http(s) address" m
  | some url =>
    let writes := guarded fun m => [.set .settings (.settings m.settings),.set .cursor (.cursor 0)]
    writes.and (.emit [.event .connect,.render]) (m.switchRelay url)

/-- Restart the auth flow, or a poll loop that died while online. -/
def connect : Handler := fun m =>
  let m := m.abandonAuth
  if m.kvLoadFailed then (m,[.render])
  else if m.secretKey.isSome ∧ m.conn ≠ .online then (m,[.event .authenticate])
  else if m.secretKey.isSome ∧ m.conn = .online ∧ ¬ m.polling then (m,[.event .poll])
  else (m,[.render])

def addContact (x : Crates) (amb : Ambient) (input nickname : String) : Handler := fun m =>
  let m := { m with error := none }
  if len nickname > Protocol.maxDisplayNameLen then refuse "nickname too long" m
  else match Phonemic.tryParsePubkey x.verifyingKey input with
    | none => refuse "invalid public key" m
    | some hex =>
      if hex = m.myPubkey then refuse "that's your own key" m
      else
        let c := m.contacts[hex]?.getD (Contact.new hex nickname (amb.now 0))
        let c := if nickname = "" then c else { c with nickname }
        let m := { m with contacts := m.contacts.insert hex c, page := .conversations }
        persistContacts.and (.emit [.render]) m

def Model.removeItems (m : Model) (peer : String) : Model :=
  { m with outbox := m.outbox.filter (fun i => i.recipient ≠ peer) }.detachInFlight peer

def blockContact (peer : String) (blocked : Bool) (contacts : PeerMap Contact) :
    PeerMap Contact :=
  match contacts[peer]? with
  | some c => contacts.insert peer { c with blocked }
  | none => contacts

def setBlocked (peer : String) (blocked : Bool) : Handler := fun m =>
  let m := { m with contacts := blockContact peer blocked m.contacts, error := none }
  -- Whatever is still queued for a blocked peer would tell them that we are here.
  if blocked then (persistContacts.and (persistOutbox.and (.emit [.render]))) (m.removeItems peer)
  else persistContacts.and (.emit [.render]) m

def Model.forgetPeer (m : Model) (peer : String) : Model :=
  let m := { m with
    contacts := m.contacts.erase peer
    messages := m.messages.erase peer
    seenIds := m.seenIds.erase peer }
  let m := m.removeItems peer
  let m := if m.activePeer = some peer then { m with activePeer := none, page := .conversations }
    else m
  { m with error := none }

/-- The conversation's key is deleted whether or not writes are refused. -/
def deleteContact (peer : String) : Handler := fun m =>
  persistContacts.and ((Upd.emit [.request (.kv (.delete (.messages peer)) .saved)]).and
    (persistOutbox.and (persistSeenIds.and (.emit [.render])))) (m.forgetPeer peer)

/-- Overwrite the pending profile for a peer, or queue one. -/
def supersede (json : String) (peer : String) (queue : List OutboxItem) : List OutboxItem :=
  match queue.findIdx? (fun i => i.isProfile && i.recipient = peer) with
  | some k => queue.modify k (fun i => { i with envelopeJson := json })
  | none => queue ++ [.profile peer json]

/-- The outbox after a profile broadcast. Items on the wire are not rewritten. -/
def broadcastProfile (json : String) (m : Model) : List OutboxItem :=
  let recipients := (m.contacts.values.filter (fun c => !c.blocked)).map Contact.pubkey
  let live := m.inFlightCount
  m.outbox.take live ++ recipients.foldl (fun queue peer => supersede json peer queue)
    (m.outbox.drop live)

def saveProfile (x : Crates) (amb : Ambient) (displayName bio : String) (photo : Option String) :
    Handler := fun m =>
  let m := { m with error := none }
  if displayName.length > Protocol.maxDisplayNameLen then refuse "display name too long" m
  else if bio.length > Protocol.maxBioLen then refuse "bio too long" m
  else if photo.any (fun p => len p > Protocol.maxPhotoLen) then refuse "photo too large" m
  else if photo.any (fun p => ¬ x.base64Decodes p) then refuse "photo is not valid base64" m
  else
    let m := { m with profile := ⟨displayName,bio,photo⟩, page := .conversations }
    let json := Protocol.serializePayload x (ownProfile m) (amb.now 0)
    let m := { m with outbox := broadcastProfile json m }
    persistProfile.and (persistOutbox.and (.emit [.event .startFlush,.render])) m

/-- The model after a text to `peer` was written: filed, queued, and the peer a contact. -/
def Model.writeText (x : Crates) (ts : ℤ) (id peer body : String) (m : Model) : Model :=
  let wasNew := ¬ m.contacts.contains peer
  let convo := insertSorted (m.messages[peer]?.getD []) ⟨id,body,ts,true,false⟩
  let text := OutboxItem.new peer (Protocol.serializePayload x (.text id body) ts)
  let m := { m with compose := "", messages := m.messages.insert peer (trimHistory convo) }
  if wasNew then
    -- The profile goes after the text, which is what makes us a contact on the other side.
    let profile := OutboxItem.profile peer (Protocol.serializePayload x (ownProfile m) ts)
    { m with
      contacts := m.contacts.insert peer (Contact.new peer "" ts)
      outbox := m.outbox ++ [text,profile] }
  else { m with outbox := m.outbox ++ [text] }

def sendText (x : Crates) (amb : Ambient) : Handler := fun m =>
  match m.activePeer with
  | none => (m,[.render])
  | some peer =>
    let m := { m with error := none }
    if m.isBlocked peer then refuse "cannot send to a blocked contact" m
    else
      let body := trim m.compose
      if body = "" then (m,[.render])
      else if len body > Protocol.maxBodyLen then refuse "message too long" m
      else if ¬ m.contacts.contains peer ∧ m.contacts.size ≥ maxContacts then
        refuse "contact list is full" m
      else
        ((persistMessages peer).and (persistContacts.and (persistOutbox.and
          (.emit [.event .startFlush,.render])))) (m.writeText x (amb.now 0) amb.uuid peer body)

end Skrepka.Client
