import Mathlib.Data.List.Sort
import Mathlib.Data.Finset.Union
import Mathlib.Data.Finset.Dedup
import Skrepka.Client.Persist

/-! Startup: the identity, the six loads it fans out, and the lazy loads of conversations. -/
namespace Skrepka.Client
open Rust Mvu

def load (key : KvKey) (tag : KvTag) : Cmd Event Effect := .request (.kv (.get key) tag)

def identityLoaded (x : Crates) (sk : Bytes) : Handler := fun m =>
  match Crypto.fromSecretBytes x sk with
  | .error _ => ({ m with error := some "invalid identity key" },[.render])
  | .ok id =>
    ({ m with
      secretKey := some sk
      myPubkey := id.publicKeyHex
      page := .conversations
      loadsPending := startupLoads
      kvLoadFailed := false },
     [load .settings .loadedSettings,load .profile .loadedProfile,
      load .contacts .loadedContacts,load .cursor .loadedCursor,load .outbox .loadedOutbox,
      load .seenIds .loadedSeenIds,.render])

/-- Tick off a load; the last one connects, unless a load failed. -/
def startupDone : Handler := fun m =>
  match m.startupLoadDone with
  | (m,false) => (m,[])
  | (m,true) =>
    if m.kvLoadFailed then
      let error := "storage read failed — restart the app; changes will not be saved until you do"
      ({ m with error := some error },[.render])
    else (m,[.event .connect])

/-- A read that failed leaves a hole in the model over data that is still on disk. -/
def Model.loadFailed (what : String) (m : Model) : Model :=
  let error := "could not read " ++ what ++ " from storage"
  { m with kvLoadFailed := true, error := some error }

/-- A startup load: install what was read, or latch the failure, and tick it off. -/
def loaded {α : Type} (decode : KvValue → Option α) (install : α → Model → Model)
    (failed : Model → Model) (res : KvData) : Handler := fun m =>
  let m := match parseKv decode res with
    | .ok (some a) => install a m
    | .ok none => m
    | .error _ => failed m
  startupDone.and (.emit [.render]) m

/-- The URL on disk is not trusted: one that does not normalize is replaced. -/
def loadedSettings (x : Crates) : KvData → Handler :=
  loaded KvValue.settings?
    (fun s m => { m with settings := ⟨(normalizeServerUrl x s.serverUrl).getD defaultServerUrl⟩ })
    (Model.loadFailed "settings")

def loadedProfile : KvData → Handler :=
  loaded KvValue.profile? (fun p m => { m with profile := p }) (Model.loadFailed "profile")

def loadedCursor : KvData → Handler :=
  loaded KvValue.cursor? (fun c m => { m with cursor := c }) (Model.loadFailed "cursor")

def loadedOutbox : KvData → Handler :=
  loaded KvValue.outbox? (fun list m => { m with outbox := list }) (Model.loadFailed "outbox")

/-- The one load whose failure is not fatal. -/
def loadedSeenIds : KvData → Handler :=
  loaded KvValue.seenIds? (fun map m => { m with seenIds := map })
    (fun m => { m with seenIds := ∅ })

def contactMap (list : List Contact) : PeerMap Contact :=
  list.foldl (fun map c => map.insert c.pubkey c) ∅

def loadMessages (peer : String) : Cmd Event Effect :=
  load (.messages peer) (.loadedMessages peer)

/-- The contacts bring the lazy loads of their conversations with them. This load is ticked
off before its result is looked at. -/
def loadedContacts (res : KvData) : Handler := fun m =>
  let (m,done) := startupDone m
  match parseKv KvValue.contacts? res with
  | .ok (some list) =>
    let contacts := contactMap list
    ({ m with contacts },done ++ contacts.keys.map loadMessages ++ [.render])
  | .ok none => (m,done ++ [.render])
  | .error _ => (m.loadFailed "contacts",done ++ [.render])

/-- Union by id of what a conversation holds and what was on disk, in `ts` order. -/
def mergeHistory (existing list : List StoredMessage) : List StoredMessage :=
  let newMsgs := list.filter (fun msg => msg.id ∉ existing.map StoredMessage.id)
  trimHistory ((existing ++ newMsgs).insertionSort (fun a b => a.ts ≤ b.ts))

def loadedMessages (peer : String) (res : KvData) : Handler := fun m =>
  match parseKv KvValue.messages? res with
  | .ok (some list) =>
    let seenIds := match m.seenIds[peer]? with
      | some ids => m.seenIds.insert peer (ids ∪ (list.map StoredMessage.id).toFinset)
      | none => m.seenIds
    let convo := match m.messages[peer]? with
      | some existing => mergeHistory existing list
      | none => list
    ({ m with seenIds, messages := m.messages.insert peer convo },[.render])
  | .ok none => (m,[.render])
  | .error _ => (m.loadFailed "messages",[.render])

def saved : KvData → Handler
  | .error e => fun m => ({ m with error := some ("could not save data: " ++ e) },[.render])
  | .ok _ => .done

/-- The re-poll hangs off the cursor write: polling is what acks the page. -/
def savedCursor : KvData → Handler
  | .error e => fun m => backoffPoll { m with error := some ("could not save data: " ++ e) }
  | .ok _ => .emit [.event .poll]

end Skrepka.Client
