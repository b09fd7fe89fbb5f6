import Skrepka.Client.Durable
import Skrepka.Client.Deliveries

/-! The status that is shown: what takes it away from online, and what alone brings it back. -/
namespace Skrepka.Client
open Rust Mvu

/-- A challenge that does not lead to the second leg of the auth round trip. -/
def failsChallenge (x : Crates) (m : Model) : HttpResult → Bool
  | .err => true
  | .ok resp => (m.identity x).any fun id =>
    !((x.fromSlice resp.body).bind challengeRespOfJson).any fun challenge =>
      (Crypto.signChallenge x id (serverHost x m.settings.serverUrl) challenge).toOption.any
        fun signature => x.serializes (.verifyReq id.publicKeyHex challenge signature false)

/-- The result of a poll that makes the client back off. A 401 would not, but one that the relay answers
comes in as an error where the HTTP crate screens statuses. -/
def failsPoll (x : Crates) (m : Model) : HttpResult → Bool
  | .err => true
  | .ok resp => resp.status ≠ 401 && (!isSuccess resp.status ||
      !m.kvLoadFailed && (readPage x (.ok resp)).isNone)

/-- An event that takes the status away from online: a switch to another relay, a write of the cursor
or a poll that fails, and an auth attempt that starts or fails. -/
def Event.falls (x : Crates) (m : Model) : Event → Bool
  | .setServerUrl url => (normalizeServerUrl x url).isSome
  | .savedCursor (.error _) => true
  | .poll => !m.polling && m.token.any fun token => !x.serializes (pollRequest m token).body
  | .pollResult gen res => gen = m.pollGen && failsPoll x m res
  | .authenticate => !m.authenticating && (m.identity x).isSome
  | .challengeResult gen res => gen = m.authGen && failsChallenge x m res
  | .verifyResult gen res => gen = m.authGen && (readToken x res).isNone
  | _ => false

/-- A token arrives. -/
def Event.bringsToken (x : Crates) (m : Model) : Event → Bool
  | .verifyResult gen res => gen = m.authGen && (readToken x res).isSome
  | _ => false

section
variable {x : Crates} {m : Model}

theorem authenticate_online : (authenticate x m).1.conn = .online ↔
    Event.authenticate.falls x m = false ∧ m.conn = .online := by
  unfold authenticate Event.falls
  cases m.authenticating with
  | true => simp
  | false =>
    simp only [Bool.false_eq_true, if_false, Bool.not_false, Bool.true_and]
    cases m.identity x with
    | none => simp
    | some id =>
      simp only [Option.isSome_some, Bool.true_eq_false, false_and, iff_false]
      split <;> simp [Model.nextAuthGen, authFailedWith, authFailed, scheduleReconnect]

theorem challengeResult_online (gen : UInt64) (res : HttpResult) :
    (challengeResult x gen res m).1.conn = .online ↔
      (Event.challengeResult gen res).falls x m = false ∧ m.conn = .online := by
  have hid : ∀ b, Model.identity x { m with authenticating := b } = m.identity x := fun b => rfl
  simp only [challengeResult, Event.falls, hid]
  by_cases hgen : gen = m.authGen
  · simp only [hgen, ne_eq, not_true_eq_false, if_false, decide_true, Bool.true_and]
    cases res with
    | err => simp [failsChallenge, authFailed, scheduleReconnect]
    | ok resp =>
      simp only [failsChallenge]
      cases m.identity x with
      | none => simp
      | some id =>
        cases (x.fromSlice resp.body).bind challengeRespOfJson with
        | none => simp [authFailed, scheduleReconnect]
        | some challenge =>
          simp only [Option.any_some]
          cases Crypto.signChallenge x id (serverHost x m.settings.serverUrl) challenge with
          | error => simp [Except.toOption, authFailedWith, authFailed, scheduleReconnect]
          | ok signature =>
            simp only [Except.toOption, Option.any_some]
            split
            · rename_i hser
              simp [hser]
            · rename_i hser
              simp [hser, authFailedWith, authFailed, scheduleReconnect]
  · simp [hgen]

theorem verifyResult_online (gen : UInt64) (res : HttpResult) :
    (verifyResult x gen res m).1.conn = .online ↔
      (Event.verifyResult gen res).bringsToken x m = true ∨
        (Event.verifyResult gen res).falls x m = false ∧ m.conn = .online := by
  simp only [verifyResult, Event.falls, Event.bringsToken]
  by_cases hgen : gen = m.authGen
  · simp only [hgen, ne_eq, not_true_eq_false, if_false, decide_true, Bool.true_and]
    cases res with
    | err => simp [readToken, authFailed, scheduleReconnect]
    | ok resp =>
      cases hread : (x.fromSlice resp.body).bind verifyRespOfJson with
      | none => simp [readToken, hread, authFailed, scheduleReconnect]
      | some token =>
        by_cases hempty : token = ""
        · simp [readToken, hread, hempty, Option.filter, authFailed, scheduleReconnect]
        · simp [readToken, hread, hempty, Option.filter]
  · simp [hgen]

theorem poll_online : (poll x m).1.conn = .online ↔
    Event.poll.falls x m = false ∧ m.conn = .online := by
  unfold poll Event.falls
  cases m.polling with
  | true => simp
  | false =>
    cases m.token with
    | none => simp
    | some token =>
      simp only [Bool.false_eq_true, if_false, Bool.not_false, Bool.true_and, Option.any_some]
      split
      · rename_i hser
        simp [hser, Model.nextPollGen]
      · rename_i hser
        simp [hser, backoffPoll]

theorem pollPage_conn (amb : Ambient) (page : PollResp) : (pollPage x amb page m).1.conn = m.conn := by
  obtain ⟨_,_,_,_,_,_,h,-⟩ := pollPage_fst x amb page m
  rw [h]

theorem pollResult_online (amb : Ambient) (gen : UInt64) (res : HttpResult) :
    (pollResult x amb gen res m).1.conn = .online ↔
      (Event.pollResult gen res).falls x m = false ∧ m.conn = .online := by
  simp only [pollResult, Event.falls]
  by_cases hgen : gen = m.pollGen
  · simp only [hgen, ne_eq, not_true_eq_false, if_false, decide_true, Bool.true_and]
    cases res with
    | err => simp [failsPoll, backoffPoll]
    | ok resp =>
      simp only [failsPoll]
      by_cases h401 : resp.status = 401
      · simp [h401]
      cases hs : isSuccess resp.status with
      | false => simp [h401, backoffPoll]
      | true =>
        cases hk : m.kvLoadFailed with
        | true => simp [h401]
        | false =>
          by_cases hlen : resp.body.length > maxPollResponseBytes
          · have hread : readPage x (.ok resp) = none := by simp [readPage, hs, hlen]
            simp [h401, hlen, hread, backoffPoll]
          · have hread : readPage x (.ok resp) = (x.fromSlice resp.body).bind PollResp.ofJson := by
              simp [readPage, hs, Nat.not_lt.mp hlen]
            simp only [h401, hlen, if_false, hread]
            cases (x.fromSlice resp.body).bind PollResp.ofJson with
            | none => simp [h401, backoffPoll]
            | some page => simp [pollPage_conn]
  · simp [hgen]

end

/-- The status is online after an event exactly if it brings a token, or does not take it away. -/
theorem update_online (x : Crates) (amb : Ambient) (e : Event) (m : Model) :
    (update x amb e m).1.conn = .online ↔
      e.bringsToken x m = true ∨ e.falls x m = false ∧ m.conn = .online := by
  by_cases hw : Field.conn ∈ e.writes
  · cases e with
    | setServerUrl url =>
      rcases setServerUrl_fst x url m with ⟨hurl,_,h⟩ | ⟨url',hurl,_,h⟩
      · simp [update, h, Event.falls, Event.bringsToken, hurl]
      · simp [update, h, Event.falls, Event.bringsToken, hurl, Model.switchRelay, Model.abandonPoll,
          Model.abandonFlush]
    | savedCursor res => cases res <;> simp [update, savedCursor, Event.falls, Event.bringsToken, backoffPoll]
    | authenticate => simpa [update, Event.bringsToken] using authenticate_online
    | challengeResult gen res => simpa [update, Event.bringsToken] using challengeResult_online gen res
    | verifyResult gen res => exact verifyResult_online gen res
    | poll => simpa [update, Event.bringsToken] using poll_online
    | pollResult gen res => simpa [update, Event.bringsToken] using pollResult_online amb gen res
    | _ => simp [Event.writes] at hw
  · have hsame : (update x amb e m).1.conn = m.conn := update_agrees x amb e m .conn hw
    rw [hsame]
    cases e with
    | setServerUrl | savedCursor | authenticate | challengeResult | verifyResult | poll | pollResult =>
      simp [Event.writes] at hw
    | _ => simp [Event.bringsToken, Event.falls]

/-- An observer who knows whether the status has fallen since the last token arrived. -/
def noteFall (x : Crates) (c : Running) (l : Label) (_ : Running) (fallen : Bool) : Bool :=
  (c.event? (app x) l.2).elim fallen fun e =>
    !e.bringsToken x c.model && (e.falls x c.model || fallen)

theorem fallen_iff {x : Crates} {ls : List Label} {c : Running} {fallen : Bool}
    (hrun : Lts.run (Lts.watch (step x) (noteFall x)) (boot x,true) ls = some (c,fallen)) :
    c.model.conn = .online ↔ fallen = false := by
  refine Lts.run_invariant _ (I := fun s : Running × Bool => s.1.model.conn = .online ↔ s.2 = false)
    (fun s l t hs hstep => ?_) (by simp [boot, Core.boot, app]) hrun
  obtain ⟨hcore,hnote⟩ := Lts.watch_eq_some (step x) hstep
  obtain ⟨⟨e,c₁⟩,htake,hd⟩ := Option.map_eq_some_iff.mp hcore
  have he : s.1.event? (app x) l.2 = some e := by simp [Core.event?, htake]
  have hmodel : t.1.model = (update x l.1 e s.1.model).1 := by
    rw [← hd, ← (Core.takes_of_take htake).model_eq]
    rfl
  rw [hmodel, update_online, hnote, noteFall, he, hs]
  simp only [Option.elim_some, Bool.and_eq_false_iff, Bool.not_eq_false', Bool.or_eq_false_iff]

/-- The status after a page: online, or about to be by a round trip under way, exactly if it has not
fallen since the token arrived or such a round trip is under way. -/
theorem status_after_page_iff {x : Crates} {ls : List Label} {c d : Running} {fallen : Bool} {l : Label}
    {gen : UInt64} {res : HttpResult}
    (hrun : Lts.run (Lts.watch (step x) (noteFall x)) (boot x,true) ls = some (c,fallen))
    (hstep : step x c l = some d) (he : c.event? (app x) l.2 = some (.pollResult gen res))
    (hpage : (readPage x res).isSome) :
    (d.model.conn = .online ∨ d.model.authenticating = true) ↔
      (fallen = false ∨ c.model.authenticating = true) := by
  obtain ⟨c₁,htake,rfl⟩ := Core.step_event hstep he
  have hc : c₁.model = c.model := htake.model_eq
  have hauth : (update x l.1 (.pollResult gen res) c.model).1.authenticating = c.model.authenticating :=
    update_agrees x l.1 (.pollResult gen res) c.model .authenticating (by simp [Event.writes])
  have hfalls : (Event.pollResult gen res).falls x c.model = false := by
    cases res with
    | err => simp [readPage] at hpage
    | ok resp =>
      have hs : isSuccess resp.status = true := by
        by_contra hs
        simp [readPage, hs] at hpage
      simp [Event.falls, failsPoll, hs, Option.isNone_eq_false_iff.mpr hpage]
  have hconn := update_online x l.1 (.pollResult gen res) c.model
  simp only [Event.bringsToken, hfalls, Bool.false_eq_true, true_and, false_or] at hconn
  change ((update x l.1 (.pollResult gen res) c₁.model).1.conn = .online ∨
    (update x l.1 (.pollResult gen res) c₁.model).1.authenticating = true) ↔ _
  rw [hc, hconn, hauth, fallen_iff hrun]

/-- What a poll of the sample crates gets: a page with one event. -/
def samplePage : HttpResult := .ok ⟨200,none,asBytes junkPageText⟩

theorem status_after_page_online : ∃ c d fallen,
    Lts.run (Lts.watch (step .sample) (noteFall .sample)) (boot .sample,true)
      (sampleLabels sampleOnline) = some (c,fallen) ∧
    step .sample c (.sample,.answer 11 (.http samplePage)) = some d ∧
    ((d.model.conn = .online ∨ d.model.authenticating = true) ↔
      (fallen = false ∨ c.model.authenticating = true)) := by
  have hrun : (Lts.run (Lts.watch (step .sample) (noteFall .sample)) (boot .sample,true)
      (sampleLabels sampleOnline)).any (fun s => Running.polls 11 s.1 &&
        (step .sample s.1 (.sample,.answer 11 (.http samplePage))).isSome) = true := by decide
  have hpage : (readPage .sample samplePage).isSome := by decide
  simp only [Option.any_eq_true, Bool.and_eq_true, Option.isSome_iff_exists] at hrun
  obtain ⟨⟨c,fallen⟩,hc,hpolls,d,hd⟩ := hrun
  exact ⟨c,d,fallen,hc,hd,status_after_page_iff hc hd (Running.polls_event hpolls samplePage).1 hpage⟩

/-- A poll fails, and the next one brings a page: the loop is up, and the status is still offline. -/
theorem status_offline_while_polling : ∃ c d,
    runFromBoot .sample (sampleLabels (sampleOnline ++ [.answer 11 (.http .err),.answer 13 .elapsed])) =
      some c ∧
    c.event? (app .sample) (.answer 14 (.http samplePage)) =
      some (.pollResult c.model.pollGen samplePage) ∧ (readPage .sample samplePage).isSome ∧
    step .sample c (.sample,.answer 14 (.http samplePage)) = some d ∧
    d.model.token.isSome ∧ d.model.conn = .offline ∧ d.model.authenticating = false := by
  have hrun : (runFromBoot .sample (sampleLabels (sampleOnline ++
      [.answer 11 (.http .err),.answer 13 .elapsed]))).any (fun c => Running.polls 14 c &&
        (step .sample c (.sample,.answer 14 (.http samplePage))).any fun d =>
          d.model.token.isSome && d.model.conn = .offline && !d.model.authenticating) = true := by
    decide +kernel
  simp only [Option.any_eq_true, Bool.and_eq_true, decide_eq_true_eq, Bool.not_eq_true'] at hrun
  obtain ⟨c,hc,hpolls,d,hd,⟨htoken,hconn⟩,hauth⟩ := hrun
  exact ⟨c,d,hc,(Running.polls_event hpolls samplePage).1,by decide,hd,htoken,hconn,hauth⟩

end Skrepka.Client
