import Skrepka.Client.Persist

/-! The send loop: batches from the head of the outbox, and retries of a failed batch. -/
namespace Skrepka.Client
open Rust Mvu

/-- Encrypt one outbox item to its recipient; `none` if the recipient's key is unusable. -/
def encryptFor (x : Crates) (rng : Crypto.Rng) (sender : Crypto.Identity) (item : OutboxItem) :
    Option Bytes :=
  match Hex.decode item.recipient with
  | none => none
  | some recipient =>
    if recipient.length ≠ 32 then none
    else (Crypto.encrypt x rng sender recipient (asBytes item.envelopeJson)).toOption

/-- What the batch loop has built so far: the items it took off the front of the outbox and
the request body for them. -/
structure Batch where
  taken : List OutboxItem := []
  messages : List Envelope := []
  bytes : ℕ := 0
  recipient : Option String := none
  dirty : Bool := false
  error : Option String
  /-- How many items were tried, which is the number of random streams used up. -/
  tried : ℕ := 0

/-- The longest run of items for one recipient that fits the batch limits. Items that cannot
be encrypted are dropped on the way; the rest of the outbox is returned. -/
def flushLoop (x : Crates) (rng : ℕ → Crypto.Rng) (id : Crypto.Identity) (batchBudget : ℕ) :
    Batch → List OutboxItem → Batch × List OutboxItem
  | b, [] => (b,[])
  | b, item :: rest =>
    if maxSendBatch ≤ b.messages.length then (b,item :: rest)
    else if b.recipient.any (fun r => r ≠ item.recipient) then (b,item :: rest)
    else match encryptFor x (rng b.tried) id item with
      | none =>
        let error := "cannot send to " ++ Phonemic.truncOb item.recipient ++ ": invalid key"
        flushLoop x rng id batchBudget
          { b with dirty := true, error := some error, tried := b.tried+1 } rest
      | some blob =>
        let hexBlob := Hex.encode blob
        -- The first item goes out whatever it weighs: the relay has to reject it for good.
        if b.messages ≠ [] ∧ b.bytes+len hexBlob > batchBudget then (b,item :: rest)
        else flushLoop x rng id batchBudget
          { b with
            taken := b.taken ++ [item]
            messages := b.messages ++ [⟨item.recipient,hexBlob⟩]
            bytes := b.bytes+len hexBlob
            recipient := some item.recipient
            tried := b.tried+1 } rest

/-- Start the clock of an item that goes out for the first time. -/
def OutboxItem.stamp (now : ℤ) (i : OutboxItem) : OutboxItem :=
  if i.firstAttempt = 0 then { i with firstAttempt := now } else i

def sendRequest (m : Model) (token : String) (messages : List Envelope) : HttpRequest :=
  { url := m.settings.serverUrl ++ "/messages"
    authorization := some ("Bearer " ++ token)
    body := .sendBatch messages }

/-- Send the batch that the loop built, as a new generation. -/
def sendBatch (x : Crates) (token recipient : String) (b : Batch) (persist : Handler) :
    Handler := fun m =>
  let (m,writes) := persist m
  let count := b.messages.length
  let m := { m.nextFlushGen with
    flushing := true, inFlight := some ⟨recipient,count,b.bytes⟩ }
  let req := sendRequest m token b.messages
  if x.serializes req.body then
    (m,writes ++ [.request (.http req (.sendResult m.flushGen)),
      .request (.time flushWatchdogMs (.flushWatchdog m.flushGen))])
  else
    let error := some "could not build send request"
    ({ m with flushing := false, inFlight := none, error },writes ++ [.render])

/-- The part of `flush_next` behind its gates. -/
def flushBatch (x : Crates) (amb : Ambient) (id : Crypto.Identity) (token : String) :
    Handler := fun m =>
  let now := amb.now 1
  let batchBudget := m.sendBatchBudget.getD maxSendBatchBytes
  let (b,rest) := flushLoop x amb.rng id batchBudget { error := m.error } m.outbox
  match b.recipient with
  | none =>
    let m := { m with outbox := b.taken ++ rest, error := b.error }
    if b.dirty then persistOutbox.and (.emit [.render]) m else (m,[])
  | some recipient =>
    let m := { m with outbox := b.taken.map (OutboxItem.stamp now) ++ rest, error := b.error }
    let dirty := b.dirty || b.taken.any (fun i => i.firstAttempt = 0)
    sendBatch x token recipient b (if dirty then persistOutbox else .done) m

/-- Encrypt and send a batch from the head of the outbox, one request at a time. -/
def flushNext (x : Crates) (amb : Ambient) : Handler := fun m =>
  if m.flushing then (m,[])
  else if m.kvLoadFailed then (m,[])
  else if amb.now 0 < m.flushPausedUntil then (m,[])
  else match m.identity x, m.token with
    | some id, some token => flushBatch x amb id token m
    | _, _ => (m,[])

def OutboxItem.charge (i : OutboxItem) : OutboxItem :=
  { i with retries := u32SaturatingAdd i.retries 1 }

/-- A send failed transiently: charge its items a retry and drop the expired ones. -/
def retryBatch (x : Crates) (amb : Ambient) : Option InFlight → Handler
  | none => .emit [.render]
  | some batch => fun m =>
    let now := amb.now 0
    let charged := (m.outbox.take batch.count).map OutboxItem.charge
    let expired := charged.countP (fun i => i.isExpired now)
    let kept := charged.filter (fun i => !i.isExpired now) ++ m.outbox.drop batch.count
    if expired = 0 then persistOutbox.and (.emit [.render]) { m with outbox := kept }
    else
      let error := "gave up sending " ++ toString expired ++ " message(s) to " ++
        Phonemic.truncOb batch.recipient
      ((persistOutbox.and (flushNext x (amb.after 1))).and (.emit [.render]))
        { m with outbox := kept, error := some error }

end Skrepka.Client
