import Skrepka.Client.Ingest

/-! The auth round trip, the long-poll loop, and the results of sends. -/
namespace Skrepka.Client
open Rust Mvu

/-- Give up on an auth attempt and try again after a backoff. -/
def authFailed : Handler := fun m => scheduleReconnect { m with conn := .offline }

def authFailedWith (error : String) : Handler := fun m => authFailed { m with error := some error }

/-- Start the auth round trip, unless one is under way. -/
def authenticate (x : Crates) : Handler := fun m =>
  if m.authenticating then (m,[])
  else match m.identity x with
    | none => (m,[.render])
    | some id =>
      let m := { m with conn := .connecting, error := none }
      let url := m.settings.serverUrl ++ "/auth/challenge"
      let req : HttpRequest := { url, body := .challengeReq id.publicKeyHex }
      if x.serializes req.body then
        let m := { m.nextAuthGen with authenticating := true }
        (m,[.request (.http req (.challengeResult m.authGen)),
          .request (.time authWatchdogMs (.authWatchdog m.authGen)),.render])
      else authFailedWith "could not build auth request" m

/-- Sign the challenge and send it back. The verify leg keeps the generation. -/
def challengeResult (x : Crates) (gen : UInt64) (res : HttpResult) : Handler := fun m =>
  if gen ≠ m.authGen then (m,[])
  else
    let m := { m with authenticating := false }
    match res with
    | .err => authFailed m
    | .ok resp => match m.identity x with
      | none => (m,[.render])
      | some id => match (x.fromSlice resp.body).bind challengeRespOfJson with
        | none => authFailed m
        | some challenge =>
          match Crypto.signChallenge x id (serverHost x m.settings.serverUrl) challenge with
          | .error _ => authFailedWith "relay sent a malformed auth challenge" m
          | .ok signature =>
            let url := m.settings.serverUrl ++ "/auth/verify"
            let body := .verifyReq id.publicKeyHex challenge signature false
            let req : HttpRequest := { url, body }
            if x.serializes req.body then
              ({ m with authenticating := true },[.request (.http req (.verifyResult gen))])
            else authFailedWith "could not build auth request" m

def verifyResult (x : Crates) (gen : UInt64) (res : HttpResult) : Handler := fun m =>
  if gen ≠ m.authGen then (m,[])
  else
    let m := { m with authenticating := false }
    match res with
    | .err => authFailed m
    | .ok resp => match (x.fromSlice resp.body).bind verifyRespOfJson with
      | none => authFailed m
      | some token =>
        if token = "" then authFailed m
        else
          ({ m with token := some token, conn := .online, pollRetries := 0, error := none },
            [.event .poll,.event .startFlush,.render])

def authWatchdog (gen : UInt64) : Handler := fun m =>
  if gen ≠ m.authGen ∨ ¬ m.authenticating then (m,[])
  else (m.abandonAuth,[.event .authenticate])

def pollRequest (m : Model) (token : String) : HttpRequest :=
  { url := m.settings.serverUrl ++ "/poll"
    authorization := some ("Bearer " ++ token)
    body := .pollReq m.cursor }

/-- Issue a poll with its watchdog, unless one is in flight. -/
def poll (x : Crates) : Handler := fun m =>
  if m.polling then (m,[])
  else match m.token with
    | none => (m,[.event .authenticate])
    | some token =>
      let req := pollRequest m token
      if x.serializes req.body then
        let m := { m.nextPollGen with polling := true }
        (m,[.request (.http req (.pollResult m.pollGen)),
          .request (.time pollWatchdogMs (.pollWatchdog m.pollGen))])
      else backoffPoll { m with error := some "could not build poll request" }

def pollWatchdog (gen : UInt64) : Handler := fun m =>
  if gen ≠ m.pollGen ∨ ¬ m.polling then (m,[])
  else (m.abandonPoll,[.event .poll])

/-- Ingest a page and re-poll: after the cursor write if the cursor moved, else at once, and
in any case when the watchdog timer fires. -/
def pollPage (x : Crates) (amb : Ambient) (page : PollResp) : Handler := fun m =>
  let (next,cmds) := ingestPoll x amb page m
  let repoll := if next.cursor ≠ m.cursor then
      Cmd.request (.kv (.set .cursor (.cursor next.cursor)) .savedCursor)
    else .event .poll
  (next,cmds ++ [repoll,.request (.time pollWatchdogMs .poll),.render])

def isSuccess (status : ℕ) : Bool := 200 ≤ status && status < 300

def pollResult (x : Crates) (amb : Ambient) (gen : UInt64) (res : HttpResult) : Handler := fun m =>
  if gen ≠ m.pollGen then (m,[])
  else
    let m := { m with polling := false }
    match res with
    | .err => backoffPoll m
    | .ok resp =>
      if resp.status = 401 then ({ m with token := none },[.event .authenticate])
      else if ¬ isSuccess resp.status then backoffPoll m
      else
        let m := { m with pollRetries := 0 }
        if m.kvLoadFailed then
          let error := "storage read failed — restart the app; messages are not being saved"
          ({ m with error := some error },[.render])
        else if resp.body.length > maxPollResponseBytes then
          backoffPoll { m with error := some "relay sent an oversized poll response" }
        else match (x.fromSlice resp.body).bind PollResp.ofJson with
          | none => backoffPoll { m with error := some "relay sent a malformed poll response" }
          | some page => pollPage x amb page m

def flushWatchdog (x : Crates) (amb : Ambient) (gen : UInt64) : Handler := fun m =>
  if gen ≠ m.flushGen ∨ ¬ m.flushing then (m,[])
  else flushNext x amb m.abandonFlush

/-- Park the send loop for as long as the relay asks, or for the send loop's own backoff. -/
def rateLimited (amb : Ambient) (retryAfter : Option String) : Handler := fun m =>
  let (delay,sendRetries) := match (retryAfter.map trim).bind parseU64 with
    | some secs => (min (u64SaturatingMul secs 1000) maxRetryAfterMs,m.sendRetries)
    | none => (backoffMs m.sendRetries,u32SaturatingAdd m.sendRetries 1)
  let flushPausedUntil := i64SaturatingAdd (amb.now 0) delay
  ({ m with sendRetries, flushPausedUntil },[.request (.time delay .startFlush),.render])

/-- The batch is finished with: pop its items, unless that could not be written down. -/
def sendDone (x : Crates) (amb : Ambient) (batch : Option InFlight) : Handler := fun m =>
  let m := { m with sendRetries := 0 }
  let m := if m.kvLoadFailed then m
    else { m with outbox := m.outbox.drop (batch.elim 0 InFlight.count) }
  persistOutbox.and (flushNext x amb) m

def sendResult (x : Crates) (amb : Ambient) (gen : UInt64) (res : HttpResult) : Handler := fun m =>
  if gen ≠ m.flushGen then (m,[])
  else
    let batch := m.inFlight
    let m := { m with flushing := false, inFlight := none }
    match res with
    | .err => retryBatch x amb batch m
    | .ok resp =>
      if resp.status = 401 then ({ m with token := none },[.event .authenticate])
      else if resp.status = 429 then rateLimited amb resp.retryAfter m
      else match if resp.status = 413 then batch.filter (fun b => b.count > 1) else none with
        -- Too large: halve what this batch weighed and rebuild under that.
        | some b => flushNext x amb { m with sendBatchBudget := some (b.bytes/2) }
        | none =>
          if isSuccess resp.status ∨ resp.status = 400 then sendDone x amb batch m
          else retryBatch x amb batch m

end Skrepka.Client
