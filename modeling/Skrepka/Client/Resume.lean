import Mathlib.Algebra.GroupWithZero.Nat
import Skrepka.Client.Liveness

/-! From every state of a loaded client another poll can be reached without the shell's help: by
draining the queue, letting timers fire, and answering requests that are yet to be made. -/
namespace Skrepka.Client
open Rust Mvu

/-- An upper bound on the updates that a queued event leads to before the queue is empty. -/
def Event.weight : Event → ℕ
  | .connect => 3
  | .poll => 2
  | .authenticate | .startFlush => 1
  | _ => 0

def weight (es : List Event) : ℕ := (es.map Event.weight).sum

@[simp] theorem weight_nil : weight [] = 0 := rfl
@[simp] theorem weight_cons (e : Event) (es : List Event) :
    weight (e :: es) = e.weight+weight es := by simp [weight]
@[simp] theorem weight_append (es fs : List Event) :
    weight (es ++ fs) = weight es+weight fs := by simp [weight]

@[simp] theorem events_guarded (ops : Model → List KvOp) (m : Model) :
    Cmd.events (guarded ops m).2 = [] := by
  rw [guarded_snd]
  split
  · rfl
  · refine List.filterMap_eq_nil_iff.mpr fun c hc => ?_
    obtain ⟨_,-,rfl⟩ := List.mem_map.mp hc
    rfl

@[simp] theorem events_persistContacts (m : Model) : Cmd.events (persistContacts m).2 = [] :=
  events_guarded _ m
@[simp] theorem events_persistProfile (m : Model) : Cmd.events (persistProfile m).2 = [] :=
  events_guarded _ m
@[simp] theorem events_persistOutbox (m : Model) : Cmd.events (persistOutbox m).2 = [] :=
  events_guarded _ m
@[simp] theorem events_persistMessages (peer : String) (m : Model) :
    Cmd.events (persistMessages peer m).2 = [] := events_guarded _ m
@[simp] theorem events_persistSeenIds (m : Model) : Cmd.events (persistSeenIds m).2 = [] :=
  events_guarded _ m

@[simp] theorem events_flushNext (x : Crates) (amb : Ambient) (m : Model) :
    Cmd.events (flushNext x amb m).2 = [] := by
  have h := flushNext_flushed x amb m
  generalize flushNext x amb m = r at h
  cases h with
  | gated => rfl
  | emptied _ _ _ _ hw he => rcases he with rfl | rfl <;> simp [hw.events]
  | sent _ _ _ _ _ hw | unsent _ _ _ _ hw => simp [hw.events]

@[simp] theorem events_retryBatch (x : Crates) (amb : Ambient) (batch : Option InFlight)
    (m : Model) : Cmd.events (retryBatch x amb batch m).2 = [] := by
  cases batch with
  | none => rfl
  | some batch =>
    simp only [retryBatch]
    split <;> simp

theorem startupDone_weight (m : Model) : weight (Cmd.events (startupDone m).2) ≤ 3 := by
  unfold startupDone
  split
  · simp
  · split <;> simp [Event.weight]

theorem loaded_weight {α : Type} (decode : KvValue → Option α) (install : α → Model → Model)
    (failed : Model → Model) (res : KvData) (m : Model) :
    weight (Cmd.events (loaded decode install failed res m).2) ≤ 3 := by
  rw [loaded_eq]
  simpa using startupDone_weight _

theorem loadedContacts_weight (res : KvData) (m : Model) :
    weight (Cmd.events (loadedContacts res m).2) ≤ 3 := by
  have h := startupDone_weight m
  unfold loadedContacts
  cases parseKv KvValue.contacts? res with
  | error => simpa using h
  | ok list =>
    cases list with
    | none => simpa using h
    | some list =>
      have hl : ∀ ps : List String, Cmd.events (ps.map loadMessages) = [] := fun ps => by
        induction ps with
        | nil => rfl
        | cons p ps ih => exact ih
      simpa [hl] using h

theorem poll_weight (x : Crates) (m : Model) : weight (Cmd.events (poll x m).2) ≤ 1 := by
  simp only [poll]
  split
  · simp
  split
  · simp [Event.weight]
  split
  · simp
  · simp [backoffPoll]

theorem authenticate_weight (x : Crates) (m : Model) :
    weight (Cmd.events (authenticate x m).2) = 0 := by
  simp only [authenticate]
  repeat' split
  all_goals simp [authFailedWith, authFailed, scheduleReconnect]

theorem connect_weight (m : Model) : weight (Cmd.events (connect m).2) ≤ 2 := by
  simp only [connect]
  repeat' split
  all_goals simp [Event.weight]

theorem verifyResult_weight (x : Crates) (gen : UInt64) (res : HttpResult) (m : Model) :
    weight (Cmd.events (verifyResult x gen res m).2) ≤ 3 := by
  simp only [verifyResult]
  repeat' split
  all_goals simp [authFailed, scheduleReconnect, Event.weight]

theorem challengeResult_weight (x : Crates) (gen : UInt64) (res : HttpResult) (m : Model) :
    weight (Cmd.events (challengeResult x gen res m).2) ≤ 3 := by
  simp only [challengeResult]
  repeat' split
  all_goals simp [authFailedWith, authFailed, scheduleReconnect]

theorem pollPage_weight (x : Crates) (amb : Ambient) (page : PollResp) (m : Model) :
    weight (Cmd.events (pollPage x amb page m).2) ≤ 3 := by
  obtain ⟨m',ws,es,heq,-,hw,hes⟩ := ingestPoll_cases x amb page m
  simp only [pollPage, heq]
  split <;> rcases hes with rfl | rfl <;> simp [hw.events, Event.weight]

theorem pollResult_weight (x : Crates) (amb : Ambient) (gen : UInt64) (res : HttpResult)
    (m : Model) : weight (Cmd.events (pollResult x amb gen res m).2) ≤ 3 := by
  simp only [pollResult]
  repeat' split
  iterate 7 simp [backoffPoll, Event.weight]
  exact pollPage_weight _ _ _ _

theorem sendResult_weight (x : Crates) (amb : Ambient) (gen : UInt64) (res : HttpResult)
    (m : Model) : weight (Cmd.events (sendResult x amb gen res m).2) ≤ 3 := by
  simp only [sendResult, sendDone, rateLimited]
  repeat' split
  all_goals simp [Event.weight]

theorem sendText_weight (x : Crates) (amb : Ambient) (m : Model) :
    weight (Cmd.events (sendText x amb m).2) ≤ 3 := by
  simp only [sendText]
  repeat' split
  all_goals simp [refuse, Event.weight]

theorem saveProfile_weight (x : Crates) (amb : Ambient) (displayName bio : String)
    (photo : Option String) (m : Model) :
    weight (Cmd.events (saveProfile x amb displayName bio photo m).2) ≤ 3 := by
  simp only [saveProfile]
  repeat' split
  all_goals simp [refuse, Event.weight]

/-- A queued event leads to less than it weighs, and no event to more than three updates. -/
theorem update_weight (x : Crates) (amb : Ambient) (e : Event) (m : Model) :
    weight (Cmd.events (update x amb e m).2) ≤ if e.isWake then e.weight-1 else 3 := by
  cases e with
  | connect => exact connect_weight m
  | poll => exact poll_weight x m
  | authenticate => exact (authenticate_weight x m).le
  | startFlush => simp [update, Event.isWake]
  | loadedSettings res | loadedProfile res | loadedCursor res | loadedOutbox res
  | loadedSeenIds res => exact loaded_weight _ _ _ _ _
  | loadedContacts res => exact loadedContacts_weight res m
  | verifyResult gen res => exact verifyResult_weight x gen res m
  | challengeResult gen res => exact challengeResult_weight x gen res m
  | pollResult gen res => exact pollResult_weight x amb gen res m
  | sendResult gen res => exact sendResult_weight x amb gen res m
  | identityLoaded sk =>
    simp only [update, identityLoaded]
    split <;> simp [load]
  | loadedMessages peer res =>
    simp only [update, loadedMessages]
    repeat' split
    all_goals simp
  | saved res => cases res <;> simp [update, saved]
  | savedCursor res => cases res <;> simp [update, savedCursor, backoffPoll, Event.weight, Event.isWake]
  | sendText => exact sendText_weight x amb m
  | addContact input nickname =>
    simp only [update, addContact]
    repeat' split
    all_goals simp [refuse]
  | setBlocked peer blocked =>
    simp only [update, setBlocked]
    split <;> simp
  | deleteContact peer => simp [update, deleteContact]
  | saveProfile displayName bio photo => exact saveProfile_weight x amb displayName bio photo m
  | setServerUrl url =>
    simp only [update, setServerUrl]
    split <;> simp [refuse, Event.weight, Event.isWake]
  | pollWatchdog gen =>
    simp only [update, pollWatchdog]
    split <;> simp [Event.weight, Event.isWake]
  | authWatchdog gen =>
    simp only [update, authWatchdog]
    split <;> simp [Event.weight, Event.isWake]
  | flushWatchdog gen =>
    simp only [update, flushWatchdog]
    split <;> simp
  | showConversations | showSettings | showAddContact | showEditProfile | back | openChat
  | composeChanged => simp [update, showConversations, showPage, openChat, composeChanged]

/-- What may happen in a continuation: the core drains its queue, timers fire, and requests
made from ticket `n` on are answered. -/
inductive Unaided (n : ℕ) : Action Event Answer → Prop
  | drain : Unaided n .drain
  | elapsed (t : ℕ) : Unaided n (.answer t .elapsed)
  | http {t : ℕ} (ht : n ≤ t) (res : HttpResult) : Unaided n (.answer t (.http res))

/-- Some unaided continuation issues another poll. -/
def CanPoll (x : Crates) (n : ℕ) (c : Running) : Prop :=
  ∃ ls d t req gen, Lts.run (step x) c ls = some d ∧ (∀ l ∈ ls, Unaided n l.2) ∧ n ≤ t ∧
    (t,.http req (.pollResult gen)) ∈ d.pending

theorem CanPoll.step {x : Crates} {n : ℕ} {c d : Running} {l : Label} (h : CanPoll x n d)
    (hs : step x c l = some d) (hl : Unaided n l.2) : CanPoll x n c := by
  obtain ⟨ls,d',t,req,gen,hr,hls,ht,hp⟩ := h
  refine ⟨l :: ls,d',t,req,gen,(Lts.run_cons_eq_some (Client.step x)).mpr ⟨d,hs,hr⟩,?_,ht,hp⟩
  intro l' hl'
  rcases List.mem_cons.mp hl' with rfl | hl'
  · exact hl
  · exact hls l' hl'

theorem Unaided.not_load {x : Crates} {n : ℕ} {act : Action Event Answer} {e : Event}
    {c d : Running} (ha : Unaided n act) (hw : ∀ e ∈ c.queue, e.isWake = true)
    (ht : Core.Takes (app x) c act e d) : e.isLoad = false := by
  cases ha with
  | drain =>
    cases ht with
    | drain hq =>
      have := hw e (hq ▸ List.mem_cons_self)
      cases e <;> simp_all [Event.isWake, Event.isLoad]
  | elapsed t =>
    cases ht with
    | @answer _ _ f _ _ _ he =>
      rcases f with ⟨_,_⟩ | ⟨_,_⟩ | ⟨_,tag⟩ <;>
        simp only [app, answer, Option.some.injEq, reduceCtorEq] at he
      subst he
      cases tag <;> rfl
  | http =>
    cases ht with
    | @answer _ _ f _ _ _ he =>
      rcases f with ⟨_,tag⟩ | ⟨_,_⟩ | ⟨_,_⟩ <;>
        simp only [app, answer, Option.some.injEq, reduceCtorEq] at he
      subst he
      cases tag <;> rfl

/-- A loaded client after `n` tickets, with room for `2*k` bumps of its generations. -/
structure Going (x : Crates) (n k : ℕ) (c : Running) : Prop where
  awake : AwakeInv x c
  poll : pollRound.Inv c
  auth : authRound.Inv c
  wakes : Wakes c
  pollRoom : c.model.pollGen.toNat+2*k < UInt64.size
  authRoom : c.model.authGen.toNat+2*k < UInt64.size
  loads : c.model.loadsPending = 0
  identity : (c.model.identity x).isSome = true
  failed : c.model.kvLoadFailed = false
  next : n ≤ c.next

theorem Going.step {x : Crates} {n k : ℕ} {c d : Running} {l : Label} (h : Going x n (k+1) c)
    (hs : step x c l = some d) (ha : Unaided n l.2) : Going x n k d := by
  have hpg := (pollRound_ok x).gen_le hs
  have hag := (authRound_ok x).gen_le hs
  have hpr := h.pollRoom
  have har := h.authRoom
  simp only [pollRound, authRound, Model.guards] at hpg hag
  have hpoll := (pollRound_ok x).step_inv
    (show c.model.pollGen.toNat+2 < UInt64.size by omega) h.poll hs
  have hauth := (authRound_ok x).step_inv
    (show c.model.authGen.toNat+2 < UInt64.size by omega) h.auth hs
  have hawake := h.awake.step hs
  obtain ⟨amb,act⟩ := l
  obtain ⟨e,c₁,ht,rfl⟩ := Core.step_cases hs
  simp only at ht ha hpg hag hpoll hauth hawake ⊢
  have hst : (c₁.process (app x) amb e).model.startup = c.model.startup := by
    rw [process_model ht]
    exact update_startup x amb (ha.not_load h.wakes ht) c.model
  refine ⟨hawake,hpoll,hauth,h.wakes.step hs,by omega,by omega,?_,?_,?_,?_⟩
  · exact (congrArg Startup.loadsPending hst).trans h.loads
  · rw [identity_congr (congrArg Startup.secretKey hst)]
    exact h.identity
  · exact (congrArg Startup.kvLoadFailed hst).trans h.failed
  · have := h.next
    have := ht.next_eq
    simp only [Core.process]
    omega

/-- The relay and the libraries are able to serve a client: request bodies serialize, responses of
status 200 are handed on, and some response is a challenge short enough to sign, and some response is
a token. -/
structure Serves (x : Crates) : Prop where
  serializes : ∀ body, x.serializes body = true
  received : ∀ body, x.received ⟨200,none,body⟩ = .ok ⟨200,none,body⟩
  challenge : ∃ bytes challenge, (x.fromSlice bytes).bind challengeRespOfJson = some challenge ∧
    len challenge ≤ Crypto.maxChallengeLen
  token : ∃ bytes token, (x.fromSlice bytes).bind verifyRespOfJson = some token ∧ token ≠ ""

section
variable {x : Crates} {n : ℕ}

theorem poll_eq (hx : Serves x) {m : Model} {token : String} (hp : m.polling = false)
    (ht : m.token = some token) :
    poll x m = ({ m with polling := true, pollGen := m.pollGen+1 },
      [.request (.http (pollRequest m token) (.pollResult (m.pollGen+1))),
        .request (.time pollWatchdogMs (.pollWatchdog (m.pollGen+1)))]) := by
  simp [poll, hp, ht, hx.serializes, Model.nextPollGen]

/-- Polling with a token and no poll under way issues the request. -/
theorem canPoll_process (hx : Serves x) (amb : Ambient) {c : Running} {token : String}
    (hn : n ≤ c.next) (hp : c.model.polling = false) (ht : c.model.token = some token) :
    CanPoll x n (c.process (app x) amb .poll) := by
  refine ⟨[],_,c.next,pollRequest c.model token,c.model.pollGen+1,rfl,by simp,hn,?_⟩
  simp [Core.process, app, update, poll_eq hx hp ht, number]

theorem Going.drain {k : ℕ} {c : Running} {e : Event} {q : List Event} (amb : Ambient)
    (h : Going x n (k+1) c) (hq : c.queue = e :: q)
    (hc : Going x n k ({ c with queue := q }.process (app x) amb e) →
      CanPoll x n ({ c with queue := q }.process (app x) amb e)) : CanPoll x n c := by
  have hs := Core.step_drain (app x) amb hq
  exact (hc (h.step hs .drain)).step hs .drain

theorem Going.answer {k t : ℕ} {c : Running} {f : Effect} {r : Answer} {e : Event}
    {m : Model} {cs : Commands} (amb : Ambient) (h : Going x n (k+1) c) (hq : c.queue = [])
    (hf : (t,f) ∈ c.pending) (he : answer x f r = some e) (ha : Unaided n (.answer t r))
    (hr : update x amb e c.model = (m,cs))
    (hc : ∀ d : Running, d.model = m → d.queue = Cmd.events cs →
      d.pending = (c.settle t).pending ++ number c.next (Cmd.requests cs) →
      Going x n k d → CanPoll x n d) : CanPoll x n c := by
  have hs := Core.step_answer (app x) amb h.awake.wf hq hf he
  have hproc := Core.process_of_update (A := app x) (c := c.settle t) hr
  rw [hproc] at hs
  refine (hc _ rfl ?_ rfl (h.step hs ha)).step hs ha
  change c.queue ++ _ = _
  rw [hq]
  rfl

theorem answer_ok (hx : Serves x) (bytes : Bytes) {req : HttpRequest} {tag : HttpTag} :
    answer x (.http req tag) (.http (.ok ⟨200,none,bytes⟩)) = some (tag.event (.ok ⟨200,none,bytes⟩)) := by
  rw [answer, Crates.deliver, hx.received]

/-- The verify leg of a current attempt can be answered with a token, which starts a poll. -/
theorem Going.verify {k t : ℕ} {c : Running} {req : HttpRequest} (hx : Serves x) (amb : Ambient)
    (h : Going x n (k+2) c) (hq : c.queue = []) (hp : c.model.polling = false) (ht : n ≤ t)
    (hf : (t,.http req (.verifyResult c.model.authGen)) ∈ c.pending) : CanPoll x n c := by
  obtain ⟨bytes,token,hj,hne⟩ := hx.token
  have hr : update x amb (.verifyResult c.model.authGen (.ok ⟨200,none,bytes⟩)) c.model =
      ({ c.model with
        authenticating := false, token := some token, conn := .online, pollRetries := 0
        error := none },[.event .poll,.event .startFlush,.render]) := by
    simp [update, verifyResult, hj, hne]
  refine h.answer (r := .http (.ok ⟨200,none,bytes⟩)) amb hq hf (answer_ok hx bytes) (.http ht _) hr
    fun d hm hdq _ hd => ?_
  refine hd.drain amb hdq fun _ => canPoll_process hx amb hd.next ?_ (?_ : _ = some token)
  · simpa [hm] using hp
  · simp [hm]

/-- The challenge leg can be answered with a challenge that the client signs. -/
theorem Going.challenge {k t : ℕ} {c : Running} {req : HttpRequest} (hx : Serves x)
    (amb : Ambient) (h : Going x n (k+3) c) (hq : c.queue = []) (hp : c.model.polling = false)
    (ht : n ≤ t) (hf : (t,.http req (.challengeResult c.model.authGen)) ∈ c.pending) :
    CanPoll x n c := by
  obtain ⟨bytes,challenge,hj,hlen⟩ := hx.challenge
  obtain ⟨id,hid⟩ := Option.isSome_iff_exists.mp h.identity
  obtain ⟨req',hr⟩ : ∃ req',
      update x amb (.challengeResult c.model.authGen (.ok ⟨200,none,bytes⟩)) c.model =
        ({ c.model with authenticating := true },
          [.request (.http req' (.verifyResult c.model.authGen))]) := by
    have hid' : Model.identity x { c.model with authenticating := false } = some id := hid
    simp [update, challengeResult, hj, hid', Crypto.signChallenge, Nat.not_lt.mpr hlen,
      hx.serializes]
  refine h.answer (r := .http (.ok ⟨200,none,bytes⟩)) amb hq hf (answer_ok hx bytes) (.http ht _) hr
    fun d hm hdq hdp hd => ?_
  refine Going.verify (t := c.next) hx amb hd hdq ?_ h.next (?_ : (_,Effect.http req' _) ∈ _)
  · simpa [hm] using hp
  · simp [hdp, hm, number]

theorem authenticate_eq (hx : Serves x) {m : Model} (ha : m.authenticating = false)
    (hid : (m.identity x).isSome = true) : ∃ req m', m'.polling = m.polling ∧
      m'.authGen = m.authGen+1 ∧ authenticate x m = (m',
        [.request (.http req (.challengeResult (m.authGen+1))),
          .request (.time authWatchdogMs (.authWatchdog (m.authGen+1))),.render]) := by
  obtain ⟨id,hid⟩ := Option.isSome_iff_exists.mp hid
  simp only [authenticate, ha, hid, hx.serializes, Bool.false_eq_true, if_false, if_true]
  refine ⟨_,_,?_,?_,rfl⟩ <;> rfl

/-- A state whose queue holds one event, when taking that event leads to a poll. -/
theorem Going.drain_one {k : ℕ} {c : Running} {e : Event} {m : Model} {cs : Commands}
    (amb : Ambient) (h : Going x n (k+1) c) (hq : c.queue = [e])
    (hr : update x amb e c.model = (m,cs))
    (hc : ∀ d : Running, d.model = m → d.queue = Cmd.events cs →
      d.pending = c.pending ++ number c.next (Cmd.requests cs) →
      Going x n k d → CanPoll x n d) : CanPoll x n c := by
  have hproc := Core.process_of_update (A := app x) (c := { c with queue := [] }) hr
  refine h.drain amb hq (hc _ ?_ ?_ ?_) <;> rw [hproc]
  rfl

/-- Authentication leads to a poll: a fresh attempt is answered, and one that may have been
dropped is given up by its watchdog first. -/
theorem Going.authenticate {k : ℕ} {c : Running} (hx : Serves x) (amb : Ambient)
    (h : Going x n (k+6) c) (hp : c.model.polling = false)
    (hq : c.queue = [.authenticate] ∨ c.queue = [] ∧ c.model.authenticating = true) :
    CanPoll x n c := by
  -- A fresh attempt.
  have hfresh : ∀ {k : ℕ} {c : Running}, Going x n (k+4) c → c.model.polling = false →
      c.model.authenticating = false → c.queue = [.authenticate] → CanPoll x n c := by
    intro k c h hp ha hq
    obtain ⟨req,m',hmp,hmg,hr⟩ := authenticate_eq hx ha h.identity
    refine h.drain_one amb hq hr fun d hm hdq hdp hd => ?_
    refine Going.challenge (t := c.next) hx amb hd hdq ?_ h.next (?_ : (_,Effect.http req _) ∈ _)
    · rw [hm, hmp, hp]
    · simp [hdp, hm, hmg, number]
  -- An attempt under way.
  have hunder : ∀ {k : ℕ} {c : Running}, Going x n (k+5) c → c.model.polling = false →
      c.model.authenticating = true → c.queue = [] → CanPoll x n c := by
    intro k c h hp ha hq
    obtain ⟨t,f,hf,hk⟩ := h.auth.watch ha
    rcases f with ⟨_,_⟩ | ⟨_,_⟩ | ⟨ms,tag⟩ <;> simp only [authRound, reduceCtorEq] at hk
    cases tag <;> simp only [Option.some.injEq, reduceCtorEq] at hk
    rename_i gen
    have hgen : gen = c.model.authGen := hk
    have hr : update x amb (.authWatchdog gen) c.model =
        (c.model.abandonAuth,[.event .authenticate]) := by
      simp [update, authWatchdog, hgen, ha]
    refine h.answer (r := .elapsed) amb hq hf rfl (.elapsed t) hr fun d hm hdq _ hd => ?_
    refine hfresh hd ?_ ?_ hdq
    · simpa [hm, Model.abandonAuth] using hp
    · simp [hm, Model.abandonAuth]
  rcases hq with hq | ⟨hq,ha⟩
  · cases ha : c.model.authenticating with
    | false => exact hfresh (k := k+2) h hp ha hq
    | true =>
      have hr : update x amb .authenticate c.model = (c.model,[]) := by
        simp [update, Client.authenticate, ha]
      refine h.drain_one amb hq hr fun d hm hdq _ hd => ?_
      exact hunder hd (by rw [hm, hp]) (by rw [hm, ha]) hdq
  · exact hunder (k := k+1) h hp ha hq

theorem Going.repoll {k : ℕ} {c : Running} (hx : Serves x) (amb : Ambient)
    (h : Going x n (k+7) c) (hp : c.model.polling = false) (hq : c.queue = [.poll]) :
    CanPoll x n c := by
  cases ht : c.model.token with
  | some token => exact h.drain amb hq fun _ => canPoll_process hx amb h.next hp ht
  | none =>
    have hr : update x amb .poll c.model = (c.model,[.event .authenticate]) := by
      simp [update, Client.poll, hp, ht]
    exact h.drain_one amb hq hr fun d hm hdq _ hd =>
      hd.authenticate hx amb (by rw [hm, hp]) (.inl hdq)

/-- Between outside events, whatever keeps the client awake leads to a poll. -/
theorem Going.resume {k : ℕ} {c : Running} (hx : Serves x) (amb : Ambient)
    (h : Going x n (k+8) c) (hq : c.queue = []) : CanPoll x n c := by
  cases hp : c.model.polling with
  | true =>
    obtain ⟨t,f,hf,hk⟩ := h.poll.watch hp
    rcases f with ⟨_,_⟩ | ⟨_,_⟩ | ⟨ms,tag⟩ <;> simp only [pollRound, reduceCtorEq] at hk
    cases tag <;> simp only [Option.some.injEq, reduceCtorEq] at hk
    rename_i gen
    have hgen : gen = c.model.pollGen := hk
    have hr : update x amb (.pollWatchdog gen) c.model =
        (c.model.abandonPoll,[.event .poll]) := by
      simp [update, pollWatchdog, hgen, hp]
    exact h.answer (r := .elapsed) amb hq hf rfl (.elapsed t) hr fun d hm hdq _ hd =>
      hd.repoll hx amb (by simp [hm, Model.abandonPoll]) hdq
  | false =>
    cases ha : c.model.authenticating with
    | true => exact h.authenticate (k := k+2) hx amb hp (.inr ⟨hq,ha⟩)
    | false =>
      obtain ⟨t,ms,tag,hf,hl⟩ : ∃ t ms tag, (t,Effect.time ms tag) ∈ c.pending ∧
          tag.event.leadsToPoll = true := by
        have hs : c.model.secretKey.isSome = true := by
          have hid := h.identity
          cases hs : c.model.secretKey <;> simp [Model.identity, hs] at hid ⊢
        rcases h.awake.awake h.loads hs h.failed with hp' | ha' | hw | ⟨e,he,-⟩
        · simp [hp] at hp'
        · simp [ha] at ha'
        · exact hw
        · simp [hq] at he
      cases tag <;> simp [TimeTag.event, Event.leadsToPoll] at hl
      · obtain ⟨req,m',hmp,hmg,hr⟩ := authenticate_eq hx ha h.identity
        refine h.answer (r := .elapsed) (e := .authenticate) amb hq hf rfl (.elapsed t) hr
          fun d hm hdq hdp hd => ?_
        refine Going.challenge (k := k+4) (t := c.next) hx amb hd hdq ?_ h.next
          (?_ : (_,Effect.http req _) ∈ _)
        · rw [hm, hmp, hp]
        · simp [hdp, hm, hmg, number]
      · cases ht : c.model.token with
        | some token =>
          have hs := Core.step_answer (app x) amb h.awake.wf hq hf (r := .elapsed) rfl
          exact (canPoll_process (c := c.settle t) hx amb h.next hp ht).step hs (.elapsed t)
        | none =>
          have hr : update x amb .poll c.model = (c.model,[.event .authenticate]) := by
            simp [update, Client.poll, hp, ht]
          exact h.answer (r := .elapsed) (e := .poll) amb hq hf rfl (.elapsed t) hr
            fun d hm hdq _ hd => hd.authenticate (k := k+1) hx amb (by rw [hm, hp]) (.inl hdq)

/-- Draining the queue first. -/
theorem Going.canPoll {k : ℕ} {c : Running} (hx : Serves x) (amb : Ambient)
    (h : Going x n (k+8) c) (hw : weight c.queue ≤ k) : CanPoll x n c := by
  induction k generalizing c with
  | zero =>
    cases hq : c.queue with
    | nil => exact h.resume hx amb hq
    | cons e q =>
      have := h.wakes e (by simp [hq])
      rw [hq] at hw
      cases e <;> simp_all [Event.isWake, Event.weight]
  | succ k ih =>
    cases hq : c.queue with
    | nil => exact h.resume (k := k+1) hx amb hq
    | cons e q =>
      refine h.drain (k := k+8) amb hq fun hd => ih hd ?_
      have he := h.wakes e (by simp [hq])
      have hu := update_weight x amb e c.model
      rw [hq] at hw
      change weight (q ++ Cmd.events (update x amb e c.model).2) ≤ k
      have hpos : 1 ≤ e.weight := by cases e <;> simp_all [Event.isWake, Event.weight]
      simp only [weight_cons, weight_append, he, if_true] at hw hu ⊢
      omega

end

/-- The queue is never longer than one outside event can make it. -/
theorem weight_run {x : Crates} {ls : List Label} {c : Running}
    (h : runFromBoot x ls = some c) : weight c.queue ≤ 3 := by
  refine (Lts.run_invariant (step x) (I := fun c : Running => Wakes c ∧ weight c.queue ≤ 3)
    ?_ ⟨by simp [Wakes, boot, Core.boot],by simp [boot, Core.boot]⟩ h).2
  rintro c ⟨amb,act⟩ d ⟨hq,hw⟩ hs
  refine ⟨hq.step hs,?_⟩
  obtain ⟨e,c₁,ht,rfl⟩ := Core.step_cases hs
  have hu := update_weight x amb e c₁.model
  change weight (c₁.queue ++ Cmd.events (update x amb e c₁.model).2) ≤ 3
  cases ht with
  | @drain e q hq' =>
    have he := hq e (by simp [hq'])
    have hpos : 1 ≤ e.weight := by cases e <;> simp_all [Event.isWake, Event.weight]
    rw [hq'] at hw
    simp only [weight_cons, weight_append, he, if_true] at hw hu ⊢
    omega
  | shell hq' | answer hq' =>
    simp only [hq', weight_append, weight_nil, Core.settle] at hu ⊢
    split at hu
    · rename_i he
      have : e.weight ≤ 3 := by cases e <;> simp [Event.weight]
      omega
    · omega

/-- The client never goes quiet, as long as no generation wraps: once it is loaded, a poll or an
auth leg is under way with its watchdog, or something that leads to a poll is on a timer or in
the queue, and another poll can be reached from there. -/
theorem client_never_quiet {x : Crates} {ls : List Label} {c : Running}
    (hrun : runFromBoot x ls = some c) (hlen : 2*(ls.length+11) < UInt64.size)
    (hl : c.model.loadsPending = 0) (hs : c.model.secretKey.isSome = true)
    (hk : c.model.kvLoadFailed = false) :
    (Attended pollRound c ∨ Attended authRound c ∨
      (∃ t ms, (t,.time ms .poll) ∈ c.pending ∨ (t,.time ms .authenticate) ∈ c.pending) ∨
      ∃ e ∈ c.queue, e = .poll ∨ e = .authenticate ∨ e = .connect) ∧
    (Serves x → CanPoll x c.next c) := by
  have hlen' : 2*ls.length < UInt64.size := by omega
  refine ⟨never_quiet hrun hlen' hl hs hk,fun hx => ?_⟩
  have hpg := (pollRound_ok x).run_gen_le hrun
  have hag := (authRound_ok x).run_gen_le hrun
  simp only [pollRound, authRound, Model.guards] at hpg hag
  have hawake := awakeInv_run hrun
  have hgoing : Going x c.next (3+8) c :=
    { awake := hawake
      poll := (pollRound_ok x).run_inv hlen' hrun
      auth := (authRound_ok x).run_inv hlen' hrun
      wakes := wakes_run hrun
      pollRoom := by omega
      authRoom := by omega
      loads := hl
      identity := hawake.valid hs
      failed := hk
      next := Nat.le_refl _ }
  exact hgoing.canPoll hx Ambient.sample (weight_run hrun)

/-- Online, with one poll out. -/
theorem client_never_quiet_online :
    ∃ c, runFromBoot .sample (sampleLabels sampleOnline) = some c ∧
    (Attended pollRound c ∨ Attended authRound c ∨
      (∃ t ms, (t,.time ms .poll) ∈ c.pending ∨ (t,.time ms .authenticate) ∈ c.pending) ∨
      ∃ e ∈ c.queue, e = .poll ∨ e = .authenticate ∨ e = .connect) ∧
    (Serves .sample → CanPoll .sample c.next c) := by
  have h : (runFromBoot .sample (sampleLabels sampleOnline)).any (fun c =>
      c.model.loadsPending = 0 && c.model.secretKey.isSome && !c.model.kvLoadFailed) = true := by
    decide
  simp only [Option.any_eq_true, Bool.and_eq_true, Bool.not_eq_true', decide_eq_true_eq] at h
  obtain ⟨c,hrun,⟨hl,hs⟩,hk⟩ := h
  exact ⟨c,hrun,client_never_quiet hrun (by decide) hl hs hk⟩

/-- Nothing that the client waits for: no live poll, no auth leg with its watchdog, no timer and
no queued event that leads to a poll. -/
def isQuiet (c : Running) : Bool :=
  c.pending.all (fun p =>
    pollRound.request p.2 ≠ some c.model.pollGen && authRound.timer p.2 ≠ some c.model.authGen &&
    !leadsToPoll (.request p.2)) && c.queue.isEmpty

/-- The counters wrap, and the user switches to another relay: the attempt to log in there has the
generation of one that its watchdog gave up. That one fails late, so that the watchdog of the new one
finds no attempt under way; then the new one is challenged, and the reconnect timer finds it under way.
Its verify leg has no watchdog left, and nothing is left to fire. -/
theorem wrapped_generation_goes_quiet :
    ∃ ls c, runFromBoot .sample ls = some c ∧ c.model.loadsPending = 0 ∧
      c.model.secretKey.isSome = true ∧ c.model.kvLoadFailed = false ∧
      ¬ (Attended pollRound c ∨ Attended authRound c ∨
        (∃ t ms, (t,.time ms .poll) ∈ c.pending ∨ (t,.time ms .authenticate) ∈ c.pending) ∨
        ∃ e ∈ c.queue, e = .poll ∨ e = .authenticate ∨ e = .connect) := by
  have h : (runFromBoot .sample (sampleLabels sampleOnline)).any (fun c =>
      c.queue.isEmpty && !c.model.kvLoadFailed && c.model.conn = .online && c.model.polling &&
      (Lts.run (step .sample)
        (Running.withAuthGen c (c.model.authGen+UInt64.ofNat 18446744073709551612))
        (sampleLabels [.shell (.setServerUrl "http://localhost:9090"),.drain,.drain,
          .answer 6 (.http .err),.answer 16 .elapsed,.answer 15 (sampleOk challengeText),
          .answer 17 .elapsed])).any fun d =>
          d.model.loadsPending = 0 && d.model.secretKey.isSome && !d.model.kvLoadFailed &&
          isQuiet d) = true := by decide
  simp only [Option.any_eq_true, Bool.and_eq_true, Bool.not_eq_true', decide_eq_true_eq,
    List.isEmpty_iff] at h
  obtain ⟨c,hrun,⟨⟨⟨hq,hk⟩,hc⟩,hp⟩,d,hd,⟨⟨hl,hs⟩,hkd⟩,hquiet⟩ := h
  have hwrap := run_connects (x := .sample) Ambient.sample hq hk hc hp 18446744073709551611
  have hall := Lts.run_append_eq_some _ hrun (Lts.run_append_eq_some _ hwrap hd)
  refine ⟨_,d,hall,hl,hs,hkd,?_⟩
  simp only [isQuiet, Bool.and_eq_true, List.all_eq_true, List.isEmpty_iff, decide_eq_true_eq,
    Bool.not_eq_true'] at hquiet
  obtain ⟨hpend,hqueue⟩ := hquiet
  rintro (⟨⟨t,f,hf,hr⟩,-⟩ | ⟨-,t,f,hf,ht⟩ | ⟨t,ms,hf | hf⟩ | ⟨e,he,-⟩)
  · exact (hpend _ hf).1.1 hr
  · exact (hpend _ hf).1.2 ht
  · simpa [leadsToPoll, TimeTag.event, Event.leadsToPoll] using (hpend _ hf).2
  · simpa [leadsToPoll, TimeTag.event, Event.leadsToPoll] using (hpend _ hf).2
  · simp [hqueue] at he

end Skrepka.Client
