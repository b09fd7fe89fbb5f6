import Skrepka.Client.Asks
import Skrepka.Client.Latch

/-! Polling is what acknowledges a page to the relay. Which writes of which pages are still owed
is kept by an observer of the run, and a poll must not be issued over any of them. -/
namespace Skrepka.Client
open Rust Mvu

/-- The page in the result of a poll, if it is one that the client looks at. -/
def readPage (x : Crates) : HttpResult → Option PollResp
  | .err => none
  | .ok resp =>
    if isSuccess resp.status && resp.body.length ≤ maxPollResponseBytes then
      (x.fromSlice resp.body).bind PollResp.ofJson
    else none

/-- The token in the result of a verify request. -/
def readToken (x : Crates) : HttpResult → Option String
  | .err => none
  | .ok resp => ((x.fromSlice resp.body).bind verifyRespOfJson).filter (· ≠ "")

/-- An event after which the client polls at once. -/
def Event.pokes (x : Crates) (m : Model) : Event → Bool
  | .poll | .savedCursor (.ok _) => !m.polling && m.token.isSome
  | .connect => !m.kvLoadFailed && m.secretKey.isSome && m.conn = .online && !m.polling &&
      m.token.isSome
  | .pollWatchdog gen => gen = m.pollGen && m.polling && m.token.isSome
  | .verifyResult gen res => gen = m.authGen && !m.polling && (readToken x res).isSome
  | .pollResult gen res => gen = m.pollGen && m.token.isSome && !m.kvLoadFailed &&
      (readPage x res).isSome
  | e => e.isStartupLoad && !e.failedRead && !m.kvLoadFailed && m.loadsPending = 1 &&
      m.secretKey.isSome && m.conn = .online && !m.polling && m.token.isSome

theorem pollResult_page {x : Crates} {amb : Ambient} {res : HttpResult} {m : Model}
    {page : PollResp} (hk : m.kvLoadFailed = false) (hp : readPage x res = some page) :
    pollResult x amb m.pollGen res m =
      pollPage x amb page { m with polling := false, pollRetries := 0 } := by
  cases res with
  | err => simp [readPage] at hp
  | ok resp =>
    simp only [readPage, Option.ite_none_right_eq_some, Bool.and_eq_true, decide_eq_true_eq] at hp
    obtain ⟨⟨hs,hl⟩,hp⟩ := hp
    have h401 : resp.status ≠ 401 := by
      rintro h
      simp [h, isSuccess] at hs
    have hlen : ¬ resp.body.length > maxPollResponseBytes := by omega
    simp [pollResult, h401, hs, hk, hlen, hp]

/-- A result without a page leaves the cursor alone, and queues no poll. -/
theorem pollResult_pageless {x : Crates} {amb : Ambient} {gen : UInt64} {res : HttpResult}
    {m : Model} (h : gen ≠ m.pollGen ∨ m.kvLoadFailed = true ∨ readPage x res = none) :
    (pollResult x amb gen res m).1.cursor = m.cursor ∧
      Asks [.authenticate,.timer,.render] (pollResult x amb gen res m).2 := by
  simp only [pollResult]
  split
  · exact ⟨rfl,asks_nil _⟩
  rename_i hgen
  cases res with
  | err => exact ⟨rfl,by simp [backoffPoll, ask]⟩
  | ok resp =>
    simp only
    split
    · exact ⟨rfl,by simp [ask]⟩
    split
    · exact ⟨rfl,by simp [backoffPoll, ask]⟩
    rename_i hs
    split
    · exact ⟨rfl,by simp [ask]⟩
    rename_i hk
    split
    · exact ⟨rfl,by simp [backoffPoll, ask]⟩
    rename_i hl
    have hnone : (x.fromSlice resp.body).bind PollResp.ofJson = none := by
      rcases h with h | h | h
      · exact absurd h hgen
      · exact absurd h hk
      · have hs : isSuccess resp.status = true := by simpa using hs
        have hl : resp.body.length ≤ maxPollResponseBytes := by omega
        simpa [readPage, hs, hl] using h
    rw [hnone]
    exact ⟨rfl,by simp [backoffPoll, ask]⟩

/-- The result of a poll leaves all data alone but the cursor, or folds a page into it. -/
theorem pollResult_cases (x : Crates) (amb : Ambient) (gen : UInt64) (res : HttpResult)
    (m : Model) :
    (∃ cursor token conn pollRetries polling error, (pollResult x amb gen res m).1 =
      { m with cursor, token, conn, pollRetries, polling, error }) ∨
    ∃ page id, gen = m.pollGen ∧ m.kvLoadFailed = false ∧ readPage x res = some page ∧
      m.identity x = some id ∧ (pollResult x amb gen res m).1 =
        (ingested x amb page id { m with polling := false, pollRetries := 0 }).model := by
  by_cases hno : gen ≠ m.pollGen ∨ m.kvLoadFailed = true ∨ readPage x res = none
  · left
    simp only [pollResult]
    split
    · exact ⟨_,_,_,_,_,_,rfl⟩
    rename_i hg
    cases res with
    | err => exact ⟨_,_,_,_,_,_,rfl⟩
    | ok resp =>
      simp only
      split
      · exact ⟨_,_,_,_,_,_,rfl⟩
      split
      · exact ⟨_,_,_,_,_,_,rfl⟩
      rename_i hs
      split
      · exact ⟨_,_,_,_,_,_,rfl⟩
      rename_i hk
      split
      · exact ⟨_,_,_,_,_,_,rfl⟩
      rename_i hl
      obtain hp := (hno.resolve_left hg).resolve_left hk
      have hs : isSuccess resp.status = true := by simpa using hs
      have hl : resp.body.length ≤ maxPollResponseBytes := by omega
      rw [show (x.fromSlice resp.body).bind PollResp.ofJson = none by
        simpa [readPage, hs, hl] using hp]
      exact ⟨_,_,_,_,_,_,rfl⟩
  · simp only [not_or, ne_eq, not_not, Bool.not_eq_true] at hno
    obtain ⟨rfl,hk,hp⟩ := hno
    obtain ⟨page,hp⟩ := Option.ne_none_iff_exists'.mp hp
    rw [pollResult_page hk hp]
    let m' : Model := { m with polling := false, pollRetries := 0 }
    cases hid : m.identity x with
    | none =>
      left
      obtain ⟨c,hc⟩ := ingestPoll_idle amb page (m := m') (.inr hid)
      exact ⟨c,_,_,_,_,_,hc⟩
    | some id =>
      refine .inr ⟨page,id,rfl,hk,hp,rfl,?_⟩
      change (ingestPoll x amb page m').1 = _
      rw [ingestPoll_eq (m := m') hk hid]

/-- A page that moves the cursor does not queue a poll. -/
theorem pollPage_queue {x : Crates} {amb : Ambient} {page : PollResp} {m : Model} :
    (pollPage x amb page m).1.token = m.token ∧
      (.event .poll ∈ (pollPage x amb page m).2 → (pollPage x amb page m).1.cursor = m.cursor) := by
  obtain ⟨m',ws,es,h,⟨_,_,_,_,_,_,hm,-⟩,hw,he⟩ := ingestPoll_cases x amb page m
  simp only [pollPage, h]
  refine ⟨by rw [hm],fun hp => ?_⟩
  by_contra hc
  have hws : .event .poll ∉ ws := fun hp => by
    obtain ⟨_,_,hp⟩ := hw _ hp
    simp at hp
  rcases he with rfl | rfl <;> simp [hc, hws] at hp

theorem pollResult_queue {x : Crates} {amb : Ambient} {gen : UInt64} {res : HttpResult} {m : Model}
    (h : .event .poll ∈ (pollResult x amb gen res m).2) :
    gen = m.pollGen ∧ m.kvLoadFailed = false ∧ (readPage x res).isSome = true ∧
      (pollResult x amb gen res m).1.token = m.token ∧
      (pollResult x amb gen res m).1.cursor = m.cursor := by
  by_cases hno : gen ≠ m.pollGen ∨ m.kvLoadFailed = true ∨ readPage x res = none
  · have := (pollResult_pageless hno).2 _ h
    simp [ask] at this
  · simp only [not_or, ne_eq, not_not, Bool.not_eq_true] at hno
    obtain ⟨rfl,hk,hp⟩ := hno
    obtain ⟨page,hp⟩ := Option.ne_none_iff_exists'.mp hp
    rw [pollResult_page hk hp] at h ⊢
    obtain ⟨ht,hc⟩ := pollPage_queue (x := x) (m := { m with polling := false, pollRetries := 0 })
    exact ⟨rfl,hk,by simp [hp],ht,hc h⟩

theorem pokes_poll {x : Crates} {m : Model} :
    Event.poll.pokes x m = false ↔ m.polling = true ∨ m.token = none := by
  simp [Event.pokes]
  cases m.polling <;> simp

theorem pokes_connect {x : Crates} {m : Model} : Event.connect.pokes x m = false ↔
    m.kvLoadFailed = true ∨ m.secretKey = none ∨ m.conn ≠ .online ∨ m.polling = true ∨
      m.token = none := by
  cases hk : m.kvLoadFailed <;> cases hs : m.secretKey <;> cases hc : m.conn <;>
    cases hp : m.polling <;> cases ht : m.token <;> simp [Event.pokes, hk, hs, hc, hp, ht]

theorem connect_queue {m : Model} (h : .event .poll ∈ (connect m).2) :
    m.kvLoadFailed = false ∧ m.secretKey.isSome = true ∧ m.conn = .online ∧ m.polling = false := by
  cases hk : m.kvLoadFailed <;> cases hs : m.secretKey <;> cases hc : m.conn <;>
    cases hp : m.polling <;> simp [connect, Model.abandonAuth, hk, hs, hc, hp] at h ⊢

theorem verifyResult_queue {x : Crates} {gen : UInt64} {res : HttpResult} {m : Model}
    (h : .event .poll ∈ (verifyResult x gen res m).2) :
    gen = m.authGen ∧ (readToken x res).isSome = true ∧
      (verifyResult x gen res m).1.polling = m.polling := by
  obtain ⟨_,_,_,_,_,hm⟩ := verifyResult_fst x gen res m
  by_cases hg : gen = m.authGen
  · refine ⟨hg,?_,by rw [hm]⟩
    cases res with
    | err => simp [verifyResult, hg, authFailed, scheduleReconnect] at h
    | ok resp =>
      cases ht : (x.fromSlice resp.body).bind verifyRespOfJson with
      | none => simp [verifyResult, hg, ht, authFailed, scheduleReconnect] at h
      | some token =>
        by_cases hempty : token = ""
        · simp [verifyResult, hg, ht, hempty, authFailed, scheduleReconnect] at h
        · simp [readToken, ht, Option.filter, hempty]
  · simp [verifyResult, hg] at h

/-- The poll that an update queues finds what the update was not to run into. -/
theorem queued_poll {x : Crates} {amb : Ambient} {e : Event} {m : Model}
    (h : e.pokes x m = false) (he : .event .poll ∈ (update x amb e m).2) :
    (update x amb e m).1.polling = true ∨ (update x amb e m).1.token = none := by
  have hask := update_asks x amb e m _ he
  cases e with
  | connect =>
    obtain ⟨hk,hs,hc,hp⟩ := connect_queue he
    refine .inr ?_
    rw [update, connect_fst]
    change m.token = none
    simpa [Event.pokes, hk, hs, hc, hp] using h
  | savedCursor res =>
    cases res with
    | error => simp [update, savedCursor, backoffPoll] at he
    | ok => exact (pokes_poll (x := x) (m := m)).mp h
  | pollWatchdog gen =>
    by_cases hg : gen = m.pollGen ∧ m.polling = true
    · refine .inr ?_
      simpa [update, pollWatchdog, hg, Event.pokes, Model.abandonPoll] using h
    · have hg : gen ≠ m.pollGen ∨ m.polling = false := by
        rcases not_and_or.mp hg with hg | hp
        · exact .inl hg
        · exact .inr (by simpa using hp)
      obtain ⟨-,-,-,-,hstale,-,-⟩ := update_stale x amb m
      simp [hstale gen hg] at he
  | verifyResult gen res =>
    obtain ⟨hg,ht,hp⟩ := verifyResult_queue he
    refine .inl (hp.trans ?_)
    simpa [Event.pokes, hg, ht] using h
  | pollResult gen res =>
    obtain ⟨hg,hk,hp,ht,-⟩ := pollResult_queue he
    refine .inr (ht.trans ?_)
    simpa [Event.pokes, hg, hk, hp] using h
  | _ => simp [Event.asks, ask] at hask

/-- The `connect` that an update queues will not poll either. -/
theorem queued_connect {x : Crates} {amb : Ambient} {e : Event} {m : Model}
    (h : e.pokes x m = false) (he : .event .connect ∈ (update x amb e m).2) :
    Event.connect.pokes x (update x amb e m).1 = false := by
  have hask := update_asks x amb e m _ he
  refine pokes_connect.mpr ?_
  by_cases hl : e.isStartupLoad = true
  · have hid : ∀ sk, e ≠ .identityLoaded sk := by
      rintro sk rfl
      simp [Event.isStartupLoad] at hl
    by_cases hf : e.failedRead = true
    · exact .inl (update_latches x amb hf m)
    by_cases hk : m.kvLoadFailed = true
    · exact .inl (update_latched x amb hk hid).1
    have hspec := startupLoad_spec x amb hl m
    have hlast := hspec.connects he
    have hag := update_agrees x amb e m
    have hoff : Field.secretKey ∉ e.writes ∧ Field.conn ∉ e.writes ∧ Field.polling ∉ e.writes ∧
        Field.token ∉ e.writes := by
      cases e <;> simp_all [Event.isStartupLoad, Event.writes]
    obtain ⟨hs,hc,hp,ht⟩ := hoff
    have hs : (update x amb e m).1.secretKey = m.secretKey := hag .secretKey hs
    have hc : (update x amb e m).1.conn = m.conn := hag .conn hc
    have hp : (update x amb e m).1.polling = m.polling := hag .polling hp
    have ht : (update x amb e m).1.token = m.token := hag .token ht
    rw [hs, hc, hp, ht]
    refine .inr ?_
    have hpoke : e.pokes x m = (e.isStartupLoad && !e.failedRead && !m.kvLoadFailed &&
        decide (m.loadsPending = 1) && m.secretKey.isSome && decide (m.conn = .online) &&
        !m.polling && m.token.isSome) := by
      cases e <;> first | rfl | simp [Event.isStartupLoad] at hl
    rw [hpoke] at h
    cases hs' : m.secretKey <;> cases hp' : m.polling <;> cases ht' : m.token <;>
      simp [hl, hf, hk, hlast, hs', hp', ht'] at h ⊢
    exact h
  · cases e with
    | setServerUrl url =>
      cases hn : normalizeServerUrl x url with
      | none => simp [update, setServerUrl, hn, refuse] at he
      | some url' =>
        rcases setServerUrl_fst x url m with ⟨hn',-⟩ | ⟨_,-,_,hm⟩
        · simp [hn] at hn'
        · refine .inr (.inr (.inl ?_))
          rw [update, hm]
          simp [Model.switchRelay, Model.abandonPoll, Model.abandonFlush]
    | loadedSettings | loadedProfile | loadedContacts | loadedCursor | loadedOutbox
    | loadedSeenIds => exact absurd rfl hl
    | _ => simp [Event.asks, ask] at hask

/-- An event that does not make the client poll queues none that does. -/
theorem update_pokes {x : Crates} {amb : Ambient} {e e' : Event} {m : Model}
    (h : e.pokes x m = false) (he : e' ∈ Cmd.events (update x amb e m).2) :
    e'.pokes x (update x amb e m).1 = false := by
  have hw := update_queuesWakes x amb e m e' he
  have he : .event e' ∈ (update x amb e m).2 := by
    obtain ⟨k,hk,he⟩ := List.mem_filterMap.mp he
    cases k with
    | event => cases he; exact hk
    | request | render => simp at he
  cases e' with
  | poll => exact pokes_poll.mpr (queued_poll h he)
  | connect => exact queued_connect h he
  | authenticate | startFlush => rfl
  | _ => cases hw

theorem authenticate_conn (x : Crates) (m : Model) :
    (authenticate x m).1.conn = m.conn ∨ (authenticate x m).1.conn ≠ .online := by
  simp only [authenticate]
  repeat' split
  · exact .inl rfl
  · exact .inl rfl
  · exact .inr (by simp [Model.nextAuthGen])
  · exact .inr (by simp [authFailedWith, authFailed, scheduleReconnect])

/-- What the core queues for itself keeps what is behind it in the queue from polling. -/
theorem wake_pokes {x : Crates} {amb : Ambient} {e e' : Event} {m : Model}
    (hw : e.isWake = true) (hw' : e'.isWake = true) (h : e.pokes x m = false)
    (h' : e'.pokes x m = false) : e'.pokes x (update x amb e m).1 = false := by
  have hag := update_agrees x amb e m
  have hoff : Field.secretKey ∉ e.writes ∧ Field.token ∉ e.writes ∧
      Field.kvLoadFailed ∉ e.writes := by
    cases e <;> simp [Event.isWake] at hw <;> simp [Event.writes]
  have hs : (update x amb e m).1.secretKey = m.secretKey := hag .secretKey hoff.1
  have ht : (update x amb e m).1.token = m.token := hag .token hoff.2.1
  have hk : (update x amb e m).1.kvLoadFailed = m.kvLoadFailed := hag .kvLoadFailed hoff.2.2
  have hpc : (update x amb e m).1.polling = m.polling ∧
      ((update x amb e m).1.conn = m.conn ∨ (update x amb e m).1.conn ≠ .online) := by
    cases e with
    | poll =>
      rcases pokes_poll.mp h with hp | hp
      · simp [update, poll, hp]
      · cases hpol : m.polling <;> simp [update, poll, hp, hpol]
    | authenticate => exact ⟨hag .polling (by simp [Event.writes]),authenticate_conn x m⟩
    | connect | startFlush =>
      exact ⟨hag .polling (by simp [Event.writes]),.inl (hag .conn (by simp [Event.writes]))⟩
    | _ => cases hw
  cases e' with
  | poll => rwa [pokes_poll, hpc.1, ht, ← pokes_poll (x := x)]
  | connect =>
    rw [pokes_connect, hk, hs, hpc.1, ht]
    rcases hpc.2 with hc | hc
    · rwa [hc, ← pokes_connect (x := x)]
    · exact .inr (.inr (.inl hc))
  | authenticate | startFlush => rfl
  | _ => cases hw'

/-- The cursor when an event other than a page is done with. -/
def Event.cursorAt (m : Model) : Event → ℤ
  | .loadedCursor res => match parseKv KvValue.cursor? res with
    | .ok (some cursor) => cursor
    | _ => m.cursor
  | _ => m.cursor

theorem update_cursor (x : Crates) (amb : Ambient) {e : Event} {m : Model}
    (hp : ∀ gen res, e ≠ .pollResult gen res)
    (hs : ∀ url, e = .setServerUrl url → normalizeServerUrl x url = none) :
    (update x amb e m).1.cursor = e.cursorAt m := by
  cases e with
  | pollResult gen res => exact absurd rfl (hp gen res)
  | setServerUrl url => simp [update, setServerUrl, hs url rfl, refuse, Event.cursorAt]
  | loadedCursor res =>
    simp only [update, loadedCursor, loaded_eq]
    obtain ⟨_,hd⟩ := startupDone_fst (loadedModel KvValue.cursor? (fun c m => { m with cursor := c })
      (Model.loadFailed "cursor") res m)
    change (startupDone _).1.cursor = _
    rw [hd]
    simp only [loadedModel, Event.cursorAt]
    cases hpk : parseKv KvValue.cursor? res with
    | error => rfl
    | ok c => cases c <;> rfl
  | _ => exact update_agrees x amb _ m .cursor (by simp [Event.writes])

/-- Writes that are still owed, by their tickets, each with the cursor its page moved to. -/
abbrev Owed := List (ℕ × ℤ)

/-- A write that succeeds is owed no more. -/
def paid (l : Label) (owed : Owed) : Owed :=
  match l.2 with
  | .answer t (.kv (.ok _)) => owed.filter (fun w => w.1 ≠ t)
  | _ => owed

/-- What a step does to the writes that are owed. A page that moves the cursor owes all its
writes, and a switch of the relay starts over. -/
def owes (x : Crates) (c : Running) (l : Label) (d : Running) (owed : Owed) : Owed :=
  match l.2 with
  | .answer _ (.http _) =>
    if d.model.cursor = c.model.cursor then owed
    else owed ++ (d.pending.filter (fun p => c.next ≤ p.1 && p.2.isWrite)).map
      (fun p => (p.1,d.model.cursor))
  | .shell (.setServerUrl url) => if (normalizeServerUrl x url).isSome then [] else owed
  | _ => paid l owed

/-- A run beside which the owed writes are kept. -/
abbrev stepOwing (x : Crates) : Running × Owed → Label → Option (Running × Owed) :=
  Lts.watch (step x) (owes x)

/-- Some page up to a cursor has a write that is not paid. -/
def unpaid (owed : Owed) (cursor : ℤ) : Bool := owed.any (fun w => w.2 ≤ cursor)

/-- What comes from outside does not make the client poll while a page up to the cursor has a
write that is not paid. -/
def Pays (x : Crates) (s : Running × Owed) (l : Label) : Prop :=
  l.2 matches .drain ∨ (s.1.event? (app x) l.2).all (fun e =>
    !(unpaid (paid l s.2) (e.cursorAt s.1.model) && e.pokes x s.1.model)) = true

instance (x : Crates) (s : Running × Owed) (l : Label) : Decidable (Pays x s l) :=
  inferInstanceAs (Decidable (_ ∨ _))

/-- While something is unpaid, nothing in the queue makes the client poll. -/
def QueuePays (x : Crates) (s : Running × Owed) : Prop :=
  Wakes s.1 ∧ (unpaid s.2 s.1.model.cursor = true → ∀ e ∈ s.1.queue, e.pokes x s.1.model = false)

/-- What a step from outside owes at a cursor was owed at the cursor that its event brings, unless
the event is a page that moved the cursor. -/
theorem unpaid_outside {x : Crates} {amb : Ambient} {act : Action Event Answer} {c c₁ : Running}
    {e : Event} {owed : Owed} (ht : Core.Takes (app x) c act e c₁) (ha : act ≠ .drain)
    (hu : unpaid (owes x c (amb,act) (c₁.process (app x) amb e) owed)
      (c₁.process (app x) amb e).model.cursor = true) :
    unpaid (paid (amb,act) owed) (e.cursorAt c.model) = true ∨
      ∃ gen res, e = .pollResult gen res ∧ (update x amb e c.model).1.cursor ≠ c.model.cursor := by
  have hmodel : (c₁.process (app x) amb e).model = (update x amb e c.model).1 := by
    rw [← ht.model_eq]; rfl
  rw [hmodel] at hu
  cases ht with
  | drain => exact absurd rfl ha
  | shell _ hs =>
    by_cases hurl : ∃ url, e = .setServerUrl url ∧ (normalizeServerUrl x url).isSome = true
    · obtain ⟨url,rfl,hn⟩ := hurl
      simp [owes, hn, unpaid] at hu
    · have howes : owes x c (amb,.shell e) (c.process (app x) amb e) owed = owed := by
        cases e <;> first | rfl | skip
        simp only [owes]
        split
        · rename_i hn
          exact absurd ⟨_,rfl,hn⟩ hurl
        · rfl
      rw [howes, update_cursor x amb ?_ ?_] at hu
      · exact .inl hu
      · rintro gen res rfl
        simp [app, fromShell] at hs
      · rintro url rfl
        by_contra hn
        exact hurl ⟨url,rfl,Option.isSome_iff_ne_none.mpr hn⟩
  | @answer t r f _ hq hf he =>
    change answer x f r = some e at he
    have hurl : ∀ url, e = .setServerUrl url → normalizeServerUrl x url = none := by
      rintro url rfl
      rcases f with ⟨_,tag⟩ | ⟨_,tag⟩ | ⟨_,tag⟩ <;> cases r <;>
        simp only [answer, Option.some.injEq, reduceCtorEq] at he <;> cases tag <;>
        simp [HttpTag.event, KvTag.event, TimeTag.event] at he
    by_cases hp : ∃ gen res, e = .pollResult gen res
    · obtain ⟨gen,res,rfl⟩ := hp
      by_cases hc : (update x amb (.pollResult gen res) c.model).1.cursor = c.model.cursor
      · left
        have hr : ∃ res', r = .http res' := by
          rcases f with ⟨_,tag⟩ | ⟨_,tag⟩ | ⟨_,tag⟩ <;> cases r <;>
            simp only [answer, Option.some.injEq, reduceCtorEq] at he <;>
            first | exact ⟨_,rfl⟩ | (cases tag <;> simp [KvTag.event, TimeTag.event] at he)
        obtain ⟨res',rfl⟩ := hr
        simp only [owes, hmodel, hc, if_true] at hu
        exact hu
      · exact .inr ⟨gen,res,rfl,hc⟩
    · rw [update_cursor x amb (fun gen res h => hp ⟨gen,res,h⟩) hurl] at hu
      left
      cases r with
      | http res =>
        have hc : e.cursorAt c.model = c.model.cursor := by
          rcases f with ⟨_,tag⟩ | ⟨_,tag⟩ | ⟨_,tag⟩ <;>
            simp only [answer, Option.some.injEq, reduceCtorEq] at he
          cases tag <;> (subst he; rfl)
        have hc' := update_cursor x amb (fun gen res h => hp ⟨gen,res,h⟩) hurl (m := c.model)
        simpa [owes, paid, hmodel, hc', hc] using hu
      | kv | elapsed => exact hu

theorem Takes.drain_wakes {x : Crates} {c c₁ : Running} {e : Event} (hw : Wakes c)
    (ht : Core.Takes (app x) c .drain e c₁) : e.isWake = true := by
  cases ht with
  | drain hq => exact hw e (hq ▸ List.mem_cons_self)

theorem wake_not_page {e : Event} (h : e.isWake = true) :
    (∀ gen res, e ≠ .pollResult gen res) ∧ (∀ url, e ≠ .setServerUrl url) ∧
      ∀ m : Model, e.cursorAt m = m.cursor := by
  cases e <;> simp [Event.isWake] at h <;> simp [Event.cursorAt]

theorem QueuePays.step {x : Crates} {s t : Running × Owed} {l : Label} (h : QueuePays x s)
    (hl : Pays x s l) (hs : stepOwing x s l = some t) : QueuePays x t := by
  obtain ⟨c,owed⟩ := s
  obtain ⟨d,owed'⟩ := t
  obtain ⟨amb,act⟩ := l
  obtain ⟨hs,ho⟩ := Lts.watch_eq_some _ hs
  simp only at hs ho
  obtain ⟨hw,hq⟩ := h
  refine ⟨hw.step hs,?_⟩
  obtain ⟨⟨e,c₁⟩,htake,rfl⟩ := Option.map_eq_some_iff.mp hs
  have ht := Core.takes_of_take htake
  simp only at ht ho hw hq ⊢
  subst ho
  have hmodel : (c₁.process (app x) amb e).model = (update x amb e c.model).1 := by
    rw [← ht.model_eq]; rfl
  intro hu e' he'
  rcases Core.mem_process_queue.mp he' with hold | hnew
  · -- Behind the head of the queue.
    cases act with
    | drain =>
      have hwake := Takes.drain_wakes hw ht
      obtain ⟨hp,hurl,-⟩ := wake_not_page hwake
      have hcur := update_cursor x amb hp (fun url h => absurd h (hurl url)) (m := c.model)
      rw [hmodel, hcur, (wake_not_page hwake).2.2] at hu
      have hmem := ht.mem_queue hold
      have he : e ∈ c.queue := by
        cases ht with
        | drain hq => exact hq ▸ List.mem_cons_self
      rw [hmodel]
      exact wake_pokes hwake (hw e' hmem) (hq hu e he) (hq hu e' hmem)
    | shell e => cases ht with
      | shell hq => simp [hq] at hold
    | answer t r => cases ht with
      | answer hq => simp [Core.settle, hq] at hold
  · rw [hmodel]
    have hnew : e' ∈ Cmd.events (update x amb e c.model).2 := by rwa [← ht.model_eq]
    by_cases ha : act = .drain
    · subst ha
      have hwake := Takes.drain_wakes hw ht
      obtain ⟨hp,hurl,hat⟩ := wake_not_page hwake
      have hcur := update_cursor x amb hp (fun url h => absurd h (hurl url)) (m := c.model)
      rw [hmodel, hcur, hat] at hu
      have he : e ∈ c.queue := by
        cases ht with
        | drain hq => exact hq ▸ List.mem_cons_self
      exact update_pokes (hq hu e he) hnew
    · rcases unpaid_outside ht ha hu with hu | ⟨gen,res,rfl,hc⟩
      · refine update_pokes ?_ hnew
        rcases hl with hl | hl
        · cases act <;> simp at hl ha
        · simpa [Core.event?, htake, hu] using hl
      · have hw := update_queuesWakes x amb _ _ e' hnew
        have hask := (update_asks x amb (.pollResult gen res) c.model).event hnew
        cases e' with
        | poll =>
          obtain ⟨k,hk,he⟩ := List.mem_filterMap.mp hnew
          cases k with
          | event => cases he; exact absurd (pollResult_queue hk).2.2.2.2 hc
          | request | render => simp at he
        | authenticate | startFlush => rfl
        | connect => simp [Event.asks, ask] at hask
        | _ => cases hw

theorem poll_request {x : Crates} {m : Model} {req : HttpRequest} {gen : UInt64}
    (h : .http req (.pollResult gen) ∈ Cmd.requests (poll x m).2) :
    Event.poll.pokes x m = true ∧ req.body = .pollReq m.cursor := by
  rw [← Bool.not_eq_false, pokes_poll, not_or]
  cases hp : m.polling with
  | true => simp [poll, hp] at h
  | false =>
    cases ht : m.token with
    | none => simp [poll, hp, ht] at h
    | some token =>
      refine ⟨by simp,?_⟩
      cases hs : x.serializes (pollRequest m token).body <;>
        simp [poll, hp, ht, hs, backoffPoll] at h
      rw [h.1]
      rfl

/-- In a run in which nothing from outside makes the client poll over an unpaid write, a poll
request carries a cursor below that of every page with a write that is owed. -/
theorem acked_pages_are_durable {x : Crates} {ls : List Label} {l : Label} {c d : Running}
    {owed : Owed} (hrun : Lts.run (stepOwing x) (boot x,[]) ls = some (c,owed))
    (hp : Lts.Along (stepOwing x) (Pays x) (boot x,[]) ls) (hl : Pays x (c,owed) l)
    (hs : step x c l = some d) {t : ℕ} {req : HttpRequest} {gen : UInt64}
    (hnew : (t,.http req (.pollResult gen)) ∈ d.pending)
    (hold : (t,.http req (.pollResult gen)) ∉ c.pending) :
    ∃ cursor, req.body = .pollReq cursor ∧ ∀ w ∈ owed, cursor < w.2 := by
  have hinv : QueuePays x (c,owed) := by
    refine Lts.run_invariant_along (stepOwing x) (I := QueuePays x) ?_ ?_ hp hrun
    · exact fun s l t h hl hs => h.step hl hs
    · exact ⟨by simp [Wakes, boot, Core.boot],by simp [boot, Core.boot]⟩
  obtain ⟨hw,hq⟩ := hinv
  obtain ⟨amb,act⟩ := l
  obtain ⟨⟨e,c₁⟩,htake,rfl⟩ := Option.map_eq_some_iff.mp hs
  have ht := Core.takes_of_take htake
  rcases Core.mem_process_pending hnew with hin | ⟨hreq,-⟩
  · exact absurd (ht.mem_pending hin) hold
  rw [ht.model_eq] at hreq
  have hask := (update_asks x amb e c.model).request hreq
  obtain rfl : e = .poll := by cases e <;> simp [Event.asks, ask] at hask ⊢
  have hpoke := poll_request hreq
  refine ⟨_,hpoke.2,fun w hw' => ?_⟩
  by_contra hle
  have hu : unpaid owed c.model.cursor = true :=
    List.any_eq_true.mpr ⟨w,hw',by simpa using hle⟩
  have hno : Event.poll.pokes x c.model = false := by
    cases act with
    | drain =>
      refine hq hu _ ?_
      cases ht with
      | drain hq => exact hq ▸ List.mem_cons_self
    | shell e => cases ht with
      | shell _ hshell =>
        have : fromShell .poll = true := hshell
        simp [fromShell] at this
    | answer u r =>
      have hpaid : paid (amb,.answer u r) owed = owed := by
        cases ht with
        | @answer _ _ f _ _ _ he =>
          rcases f with ⟨_,tag⟩ | ⟨_,tag⟩ | ⟨_,tag⟩ <;> cases r <;>
            simp only [app, answer, Option.some.injEq, reduceCtorEq] at he <;> cases tag <;>
            first | rfl | cases he
      rcases hl with hl | hl
      · simp at hl
      · simpa [Core.event?, htake, hpaid, hu, Event.cursorAt] using hl
  rw [hpoke.1] at hno
  cases hno

/-- Online, with a page that moved the cursor and the write of the cursor on its way. -/
def samplePaged : List (Action Event Answer) :=
  sampleOnline ++ [.answer 11 (sampleOk junkPageText),.drain]

/-- The write succeeds, and the next poll is issued. -/
def isPoll (gen : UInt64) : Effect → Bool
  | .http _ (.pollResult g) => g = gen
  | _ => false

theorem exists_of_isPoll {gen : UInt64} {f : Effect} (h : isPoll gen f = true) :
    ∃ req, f = .http req (.pollResult gen) := by
  unfold isPoll at h
  split at h
  · rw [of_decide_eq_true h]
    exact ⟨_,rfl⟩
  · simp at h

theorem acked_pages_are_durable_paged :
    ∃ c d owed req, Lts.run (stepOwing .sample) (boot .sample,[])
        (sampleLabels (samplePaged ++ [.answer 13 (.kv (.ok none))])) = some (c,owed) ∧
      step .sample c (.sample,.drain) = some d ∧ (15,.http req (.pollResult 2)) ∈ d.pending ∧
      ∃ cursor, req.body = .pollReq cursor ∧ ∀ w ∈ owed, cursor < w.2 := by
  have h : (Lts.run (stepOwing .sample) (boot .sample,[])
      (sampleLabels (samplePaged ++ [.answer 13 (.kv (.ok none))]))).any (fun s =>
        s.1.pending.all (fun p => p.1 ≠ 15) &&
        (step .sample s.1 (.sample,.drain)).any (fun d => d.pending.any (fun p =>
          p.1 = 15 && isPoll 2 p.2))) = true := by decide +kernel
  simp only [Option.any_eq_true, Bool.and_eq_true, List.all_eq_true, List.any_eq_true,
    decide_eq_true_eq] at h
  obtain ⟨⟨c,owed⟩,hrun,hold,d,hd,⟨t,f⟩,hp,rfl,hf⟩ := h
  obtain ⟨req,rfl⟩ := exists_of_isPoll hf
  exact ⟨c,d,owed,req,hrun,hd,hp,acked_pages_are_durable hrun (by decide +kernel)
    (.inl rfl) hd hp fun hin => hold _ hin rfl⟩

/-- A poll that carries a cursor is outstanding. -/
def polls (cursor : ℤ) : Effect → Bool
  | .http req (.pollResult _) => req.body = .pollReq cursor
  | _ => false

/-- The write of the cursor fails, or is just slow, and the page is acknowledged all the same:
the retry after the failure carries the new cursor, and so does the timer armed with the page. -/
theorem acked_over_unpaid_write :
    ((Lts.run (stepOwing .sample) (boot .sample,[]) (sampleLabels (samplePaged ++
        [.answer 13 (.kv (.error "disk full")),.answer 15 .elapsed]))).any fun s =>
      decide (s.2 = [(13,5)]) && s.1.pending.any (fun p => polls 5 p.2)) &&
    ((Lts.run (stepOwing .sample) (boot .sample,[]) (sampleLabels (samplePaged ++
        [.answer 14 .elapsed]))).any fun s =>
      decide (s.2 = [(13,5)]) && s.1.pending.any (fun p => polls 5 p.2)) = true := by
  decide +kernel

end Skrepka.Client
