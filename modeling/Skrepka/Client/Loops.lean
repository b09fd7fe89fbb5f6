import Skrepka.Client.Rounds

/-! Polling, authenticating and sending as loops of the core: at most one request of the current
generation is outstanding in each, its guard is up exactly while it is, and results and
watchdogs of other generations change nothing. -/
namespace Skrepka.Client
open Rust Mvu

def pollRound : Loop Model Event Effect where
  guard m := m.guards.poll
  request f := match f with | .http _ (.pollResult gen) => some gen | _ => none
  timer f := match f with | .time _ (.pollWatchdog gen) => some gen | _ => none
  result e := match e with | .pollResult gen _ => some gen | _ => none
  watch e := match e with | .pollWatchdog gen => some gen | _ => none

/-- The two legs of the auth round trip share one generation. -/
def authRound : Loop Model Event Effect where
  guard m := m.guards.auth
  request f := match f with
    | .http _ (.challengeResult gen) | .http _ (.verifyResult gen) => some gen
    | _ => none
  timer f := match f with | .time _ (.authWatchdog gen) => some gen | _ => none
  result e := match e with
    | .challengeResult gen _ | .verifyResult gen _ => some gen
    | _ => none
  watch e := match e with | .authWatchdog gen => some gen | _ => none

def sendRound : Loop Model Event Effect where
  guard m := m.guards.send
  request f := match f with | .http _ (.sendResult gen) => some gen | _ => none
  timer f := match f with | .time _ (.flushWatchdog gen) => some gen | _ => none
  result e := match e with | .sendResult gen _ => some gen | _ => none
  watch e := match e with | .flushWatchdog gen => some gen | _ => none

/-- A local command belongs to none of the loops. -/
def IgnoresLocal (L : Loop Model Event Effect) : Prop :=
  ∀ f, isLocal (.request f) = true → L.request f = none ∧ L.timer f = none

/-- Commands of a kind whose requests are none of the loop's issue nothing in it. -/
theorem issued_eq_nil {L : Loop Model Event Effect} {p : Cmd Event Effect → Bool}
    (hL : ∀ f, p (.request f) = true → L.request f = none) {cs : Commands}
    (h : ∀ c ∈ cs, p c = true) : L.issued cs = [] := by
  refine List.filterMap_eq_nil_iff.mpr fun f hf => ?_
  obtain ⟨c,hc,hf⟩ := List.mem_filterMap.mp hf
  cases c with
  | request g => cases hf; exact hL _ (h _ hc)
  | event | render => simp at hf

theorem IgnoresLocal.issued {L : Loop Model Event Effect} (hL : IgnoresLocal L) {cs : Commands}
    (h : Local cs) : L.issued cs = [] := issued_eq_nil (fun f hf => (hL f hf).1) h

theorem pollRound_ignoresLocal : IgnoresLocal pollRound := by
  rintro (⟨_,_⟩ | ⟨_,_⟩ | ⟨_,tag⟩) h
  · simp [isLocal] at h
  · exact ⟨rfl,rfl⟩
  · cases tag <;> first | exact ⟨rfl,rfl⟩ | simp [isLocal, TimeTag.isWake] at h

theorem authRound_ignoresLocal : IgnoresLocal authRound := by
  rintro (⟨_,_⟩ | ⟨_,_⟩ | ⟨_,tag⟩) h
  · simp [isLocal] at h
  · exact ⟨rfl,rfl⟩
  · cases tag <;> first | exact ⟨rfl,rfl⟩ | simp [isLocal, TimeTag.isWake] at h

theorem sendRound_ignoresLocal : IgnoresLocal sendRound := by
  rintro (⟨_,_⟩ | ⟨_,_⟩ | ⟨_,tag⟩) h
  · simp [isLocal] at h
  · exact ⟨rfl,rfl⟩
  · cases tag <;> first | exact ⟨rfl,rfl⟩ | simp [isLocal, TimeTag.isWake] at h

/-- A command of the send loop, or a local one. -/
def isSend : Cmd Event Effect → Bool
  | .request (.http _ (.sendResult _)) => true
  | .request (.time _ (.flushWatchdog _)) => true
  | c => isLocal c

def Sends (cs : Commands) : Prop := ∀ c ∈ cs, isSend c = true

@[simp] theorem sends_append {cs ds : Commands} :
    Sends (cs ++ ds) ↔ Sends cs ∧ Sends ds := by simp [Sends, or_imp, forall_and]

theorem Local.sends {cs : Commands} (h : Local cs) : Sends cs := by
  intro c hc
  have := h c hc
  unfold isSend
  split <;> simp_all

theorem Sends.pollRound {cs : Commands} (h : Sends cs) : pollRound.issued cs = [] := by
  refine issued_eq_nil ?_ h
  rintro (⟨_,tag⟩ | ⟨_,_⟩ | ⟨_,_⟩) hs
  · cases tag <;> first | rfl | simp [isSend, isLocal] at hs
  · rfl
  · rfl

theorem Sends.authRound {cs : Commands} (h : Sends cs) : authRound.issued cs = [] := by
  refine issued_eq_nil ?_ h
  rintro (⟨_,tag⟩ | ⟨_,_⟩ | ⟨_,_⟩) hs
  · cases tag <;> first | rfl | simp [isSend, isLocal] at hs
  · rfl
  · rfl

/-- An outcome that moves the guard of the send loop only, by at most `n` bumps. -/
structure SendsOnly (n : ℕ) (m : Model) (r : Model × Commands) : Prop where
  poll : r.1.guards.poll = m.guards.poll
  auth : r.1.guards.auth = m.guards.auth
  sends : Sends r.2
  moves : ∃ k ≤ n, Guard.Moves k m.guards.send (sendRound.issued r.2) r.1.guards.send ∧
    ∀ gen ∈ sendRound.issued r.2, gen ∈ sendRound.armed r.2

theorem Still.sendsOnly {m : Model} {r : Model × Commands} (h : Still m r) (n : ℕ) :
    SendsOnly n m r := by
  have hi := sendRound_ignoresLocal.issued h.2
  refine ⟨congrArg Guards.poll h.1,congrArg Guards.auth h.1,h.2.sends,0,by omega,?_,by simp [hi]⟩
  rw [hi, h.1]
  exact .stay _

theorem SendsOnly.of_guards {n : ℕ} {m m' : Model} {r : Model × Commands}
    (h : SendsOnly n m' r) (hm : m'.guards = m.guards) : SendsOnly n m r := by
  obtain ⟨hp,ha,hs,hmv⟩ := h
  rw [hm] at hp ha hmv
  exact ⟨hp,ha,hs,hmv⟩

theorem SendsOnly.and {n k : ℕ} {m : Model} {f g : Handler} (hf : SendsOnly n m (f m))
    (hg : ∀ m, SendsOnly k m (g m)) : SendsOnly (n+k) m (f.and g m) := by
  obtain ⟨i,hi,hm,harm⟩ := hf.moves
  obtain ⟨j,hj,hm',harm'⟩ := (hg (f m).1).moves
  refine ⟨(hg (f m).1).poll.trans hf.poll,(hg (f m).1).auth.trans hf.auth,
    sends_append.mpr ⟨hf.sends,(hg (f m).1).sends⟩,i+j,by omega,?_,?_⟩
  · simpa using hm.trans hm'
  · intro gen hgen
    simp only [Upd.and_snd, Loop.issued_append, Loop.armed_append, List.mem_append] at hgen ⊢
    exact hgen.imp (harm gen) (harm' gen)

theorem Flushed.sendsOnly {x : Crates} {amb : Ambient} {m : Model} {r : Model × Commands}
    (h : Flushed x amb m r) : SendsOnly 1 m r := by
  cases h with
  | gated => exact Still.sendsOnly (r := (m,[])) ⟨rfl,local_nil⟩ 1
  | @emptied id b rest ws es _ _ _ _ hw he =>
    have hes : Local es := by rcases he with rfl | rfl <;> simp [isLocal]
    have hs : Still m ({ m with outbox := b.taken ++ rest, error := b.error },ws ++ es) :=
      ⟨rfl,local_append.mpr ⟨hw.local,hes⟩⟩
    exact hs.sendsOnly 1
  | @sent id token b rest recipient ws _ _ _ _ _ hw =>
    have hi := sendRound_ignoresLocal.issued hw.local
    refine ⟨rfl,rfl,sends_append.mpr ⟨hw.local.sends,by simp [Sends, isSend]⟩,1,by omega,?_,?_⟩
    · simp only [Loop.issued_append, Loop.issued_request, Loop.issued_nil, hi]
      exact .issue (.stay _)
    · simp only [Loop.issued_append, Loop.issued_request, Loop.issued_nil, hi,
        Loop.armed_append, Loop.armed_request]
      simp [sendRound]
  | unsent _ _ _ _ hw =>
    have hl := local_append.mpr ⟨hw.local,show Local [.render] by simp [isLocal]⟩
    have hi := sendRound_ignoresLocal.issued hl
    refine ⟨rfl,rfl,hl.sends,1,by omega,?_,by simp [hi]⟩
    simp only [hi]
    exact .retire (.stay _)

theorem flushNext_sendsOnly (x : Crates) (amb : Ambient) (m : Model) :
    SendsOnly 1 m (flushNext x amb m) := (flushNext_flushed x amb m).sendsOnly

theorem flushWatchdog_sendsOnly (x : Crates) (amb : Ambient) (gen : UInt64) (m : Model) :
    SendsOnly 2 m (flushWatchdog x amb gen m) := by
  unfold flushWatchdog
  split
  · exact Still.sendsOnly (r := (m,[])) ⟨rfl,local_nil⟩ 2
  · obtain ⟨hp,ha,hs,k,hk,hm,harm⟩ := flushNext_sendsOnly x amb m.abandonFlush
    refine ⟨hp,ha,hs,1+k,by omega,?_,harm⟩
    exact (Guard.Moves.retire (.stay m.guards.send)).trans hm

theorem retryBatch_sendsOnly (x : Crates) (amb : Ambient) (batch : Option InFlight) (m : Model) :
    SendsOnly 1 m (retryBatch x amb batch m) := by
  cases batch with
  | none => exact (still_render m).sendsOnly 1
  | some batch =>
    simp only [retryBatch]
    split
    · exact (((still_guarded _ _).and still_render).sendsOnly 1).of_guards rfl
    · exact (SendsOnly.and (n := 1) (k := 0)
        (SendsOnly.and (n := 0) (k := 1) ((still_guarded _ _).sendsOnly 0)
          (flushNext_sendsOnly x (amb.after 1)))
        (fun m => (still_render m).sendsOnly 0)).of_guards rfl

theorem sendDone_sendsOnly (x : Crates) (amb : Ambient) (batch : Option InFlight) (m : Model) :
    SendsOnly 1 m (sendDone x amb batch m) := by
  simp only [sendDone]
  refine (SendsOnly.and (n := 0) (k := 1) ((still_guarded _ _).sendsOnly 0)
    (flushNext_sendsOnly x amb)).of_guards ?_
  split <;> rfl

theorem sendResult_sendsOnly (x : Crates) (amb : Ambient) (res : HttpResult) (m : Model) :
    SendsOnly 1 { m with flushing := false } (sendResult x amb m.flushGen res m) := by
  simp only [sendResult, ne_eq, not_true_eq_false, if_false]
  cases res with
  | err => exact (retryBatch_sendsOnly x amb _ _).of_guards rfl
  | ok resp =>
    simp only
    split
    · refine Still.sendsOnly ?_ 1
      exact ⟨rfl,by simp [isLocal, Event.isWake]⟩
    split
    · refine Still.sendsOnly ?_ 1
      unfold rateLimited
      split
      exact ⟨rfl,by simp [isLocal, TimeTag.isWake]⟩
    split
    · exact (flushNext_sendsOnly x amb _).of_guards rfl
    split
    · exact (sendDone_sendsOnly x amb _ _).of_guards rfl
    · exact (retryBatch_sendsOnly x amb _ _).of_guards rfl

/-- What a loop sees of an answer does not depend on what was answered. -/
theorem answer_round {x : Crates} {f : Effect} {r : Answer} {e : Event} (h : answer x f r = some e) :
    (pollRound.result e = pollRound.request f ∧ pollRound.watch e = pollRound.timer f) ∧
    (authRound.result e = authRound.request f ∧ authRound.watch e = authRound.timer f) ∧
    (sendRound.result e = sendRound.request f ∧ sendRound.watch e = sendRound.timer f) := by
  rcases f with ⟨req,tag⟩ | ⟨op,tag⟩ | ⟨ms,tag⟩ <;> cases r <;>
    simp only [answer, Option.some.injEq, reduceCtorEq] at h <;> subst h <;> cases tag <;>
    exact ⟨⟨rfl,rfl⟩,⟨rfl,rfl⟩,⟨rfl,rfl⟩⟩

/-- An event that is neither a result nor a watchdog of any loop. -/
def Event.isPlain (e : Event) : Prop :=
  (pollRound.result e = none ∧ pollRound.watch e = none) ∧
  (authRound.result e = none ∧ authRound.watch e = none) ∧
  (sendRound.result e = none ∧ sendRound.watch e = none)

theorem fromShell_isPlain {e : Event} (h : fromShell e = true) : e.isPlain := by
  cases e <;> simp [fromShell] at h <;> exact ⟨⟨rfl,rfl⟩,⟨rfl,rfl⟩,⟨rfl,rfl⟩⟩

theorem isWake_isPlain {e : Event} (h : e.isWake = true) : e.isPlain := by
  cases e <;> simp [Event.isWake] at h <;> exact ⟨⟨rfl,rfl⟩,⟨rfl,rfl⟩,⟨rfl,rfl⟩⟩

/-- Commands that queue nothing but wake-ups. -/
def QueuesWakes (cs : Commands) : Prop := ∀ e ∈ Cmd.events cs, e.isWake = true

theorem Sends.queuesWakes {cs : Commands} (h : Sends cs) : QueuesWakes cs := by
  intro e he
  obtain ⟨c,hc,he⟩ := List.mem_filterMap.mp he
  cases c with
  | event e' => cases he; exact h _ hc
  | request | render => simp at he

/-- What an update queues are wake-ups. -/
theorem update_queuesWakes (x : Crates) (amb : Ambient) (e : Event) (m : Model) :
    QueuesWakes (update x amb e m).2 := by
  by_cases he : e.isActive = true
  · cases e with
    | setServerUrl url =>
      rcases setServerUrl_guards x url m with h | h <;> exact h.2.sends.queuesWakes
    | connect => exact (connect_guards m).2.sends.queuesWakes
    | authenticate =>
      rcases authenticate_cases x m with h | ⟨_,_,_,_,h⟩
      · exact h.2.sends.queuesWakes
      · simp [update, h, QueuesWakes]
    | poll =>
      rcases poll_cases x m with h | ⟨_,_,_,h⟩
      · exact h.2.sends.queuesWakes
      · simp [update, h, QueuesWakes]
    | pollWatchdog gen =>
      simp only [update, pollWatchdog]
      split <;> simp [QueuesWakes, Event.isWake]
    | authWatchdog gen =>
      simp only [update, authWatchdog]
      split <;> simp [QueuesWakes, Event.isWake]
    | startFlush => exact (flushNext_sendsOnly x amb m).sends.queuesWakes
    | flushWatchdog gen => exact (flushWatchdog_sendsOnly x amb gen m).sends.queuesWakes
    | challengeResult gen res =>
      by_cases hg : gen = m.authGen
      · subst hg
        rcases challengeResult_cases x res m with h | ⟨_,h⟩
        · exact h.2.sends.queuesWakes
        · simp [update, h, QueuesWakes]
      · simp [update, challengeResult, hg, QueuesWakes]
    | verifyResult gen res =>
      by_cases hg : gen = m.authGen
      · subst hg
        exact (verifyResult_still x res m).2.sends.queuesWakes
      · simp [update, verifyResult, hg, QueuesWakes]
    | pollResult gen res =>
      by_cases hg : gen = m.pollGen
      · subst hg
        exact (pollResult_still x amb res m).2.sends.queuesWakes
      · simp [update, pollResult, hg, QueuesWakes]
    | sendResult gen res =>
      by_cases hg : gen = m.flushGen
      · subst hg
        exact (sendResult_sendsOnly x amb res m).sends.queuesWakes
      · simp [update, sendResult, hg, QueuesWakes]
    | _ => cases he
  · exact (update_still x amb (by simpa using he) m).2.sends.queuesWakes

/-- The queue holds nothing but wake-ups. -/
def Wakes (c : Running) : Prop := ∀ e ∈ c.queue, e.isWake = true

theorem Wakes.step {x : Crates} {c d : Running} {l : Label} (h : Wakes c)
    (hs : step x c l = some d) : Wakes d := by
  obtain ⟨amb,act⟩ := l
  obtain ⟨e,c₁,ht,rfl⟩ := Core.step_cases hs
  simp only at ht ⊢
  intro e' he'
  rcases Core.mem_process_queue.mp he' with he' | he'
  · exact h e' (ht.mem_queue he')
  · exact update_queuesWakes x amb e c₁.model e' he'

theorem wakes_run {x : Crates} {ls : List Label} {c : Running}
    (h : runFromBoot x ls = some c) : Wakes c :=
  Lts.run_invariant (Client.step x) (fun _ _ _ hw hs => hw.step hs)
    (by simp [Wakes, boot, Core.boot]) h

/-- A result of another generation, or a watchdog of another generation or with its guard
down, is inert. -/
def StaleInert (x : Crates) (amb : Ambient) (m : Model) : Prop :=
    (∀ gen res, gen ≠ m.pollGen → update x amb (.pollResult gen res) m = (m,[])) ∧
    (∀ gen res, gen ≠ m.flushGen → update x amb (.sendResult gen res) m = (m,[])) ∧
    (∀ gen res, gen ≠ m.authGen → update x amb (.challengeResult gen res) m = (m,[])) ∧
    (∀ gen res, gen ≠ m.authGen → update x amb (.verifyResult gen res) m = (m,[])) ∧
    (∀ gen, gen ≠ m.pollGen ∨ m.polling = false →
      update x amb (.pollWatchdog gen) m = (m,[])) ∧
    (∀ gen, gen ≠ m.flushGen ∨ m.flushing = false →
      update x amb (.flushWatchdog gen) m = (m,[])) ∧
    (∀ gen, gen ≠ m.authGen ∨ m.authenticating = false →
      update x amb (.authWatchdog gen) m = (m,[]))

theorem update_stale (x : Crates) (amb : Ambient) (m : Model) : StaleInert x amb m := by
  refine ⟨?_,?_,?_,?_,?_,?_,?_⟩
  · intro gen res h
    simp [update, pollResult, h]
  · intro gen res h
    simp [update, sendResult, h]
  · intro gen res h
    simp [update, challengeResult, h]
  · intro gen res h
    simp [update, verifyResult, h]
  · intro gen h
    simp [update, pollWatchdog, h]
  · intro gen h
    simp [update, flushWatchdog, h]
  · intro gen h
    simp [update, authWatchdog, h]

theorem SendsOnly.pollAdvances {n : ℕ} {m : Model} {r : Model × Commands}
    (h : SendsOnly n m r) : pollRound.Advances m.guards.poll r :=
  Loop.advances_stay h.poll h.sends.pollRound

theorem SendsOnly.authAdvances {n : ℕ} {m : Model} {r : Model × Commands}
    (h : SendsOnly n m r) : authRound.Advances m.guards.auth r :=
  Loop.advances_stay h.auth h.sends.authRound

theorem Still.pollAdvances {m : Model} {r : Model × Commands} (h : Still m r) :
    pollRound.Advances m.guards.poll r := (h.sendsOnly 0).pollAdvances

theorem Still.authAdvances {m : Model} {r : Model × Commands} (h : Still m r) :
    authRound.Advances m.guards.auth r := (h.sendsOnly 0).authAdvances

theorem Still.sendAdvances {m : Model} {r : Model × Commands} (h : Still m r) :
    sendRound.Advances m.guards.send r := (h.sendsOnly 2).moves

theorem pollRound_other (x : Crates) (amb : Ambient) (e : Event) (m : Model)
    (he : pollRound.result e = none) : pollRound.Advances m.guards.poll (update x amb e m) := by
  by_cases ha : e.isActive = true
  · cases e with
    | setServerUrl url =>
      rcases setServerUrl_guards x url m with h | ⟨hg,hl⟩
      · exact h.pollAdvances
      · exact Loop.advances_retire (congrArg Guards.poll hg) (pollRound_ignoresLocal.issued hl)
    | connect =>
      obtain ⟨hg,hl⟩ := connect_guards m
      have hp := congrArg Guards.poll hg
      exact Loop.advances_stay hp (pollRound_ignoresLocal.issued hl)
    | authenticate =>
      rcases authenticate_cases x m with h | ⟨_,_,_,_,h⟩
      · exact h.pollAdvances
      · simp only [update, h]
        exact Loop.advances_stay rfl rfl
    | poll =>
      rcases poll_cases x m with h | ⟨_,_,_,h⟩
      · exact h.pollAdvances
      · simp only [update, h]
        exact Loop.advances_issue rfl rfl (by simp [Loop.armed_request, pollRound, Model.guards])
    | pollWatchdog gen =>
      simp only [update, pollWatchdog]
      split
      · exact Loop.advances_stay rfl rfl
      · exact Loop.advances_retire rfl rfl
    | authWatchdog gen =>
      simp only [update, authWatchdog]
      split <;> exact Loop.advances_stay rfl rfl
    | startFlush => exact (flushNext_sendsOnly x amb m).pollAdvances
    | flushWatchdog gen => exact (flushWatchdog_sendsOnly x amb gen m).pollAdvances
    | challengeResult gen res =>
      by_cases hg : gen = m.authGen
      · subst hg
        rcases challengeResult_cases x res m with h | ⟨_,h⟩
        · exact h.pollAdvances
        · simp only [update, h]
          exact Loop.advances_stay rfl rfl
      · rw [(update_stale x amb m).2.2.1 gen res hg]
        exact Loop.advances_stay rfl rfl
    | verifyResult gen res =>
      by_cases hg : gen = m.authGen
      · subst hg
        exact (verifyResult_still x res m).pollAdvances
      · rw [(update_stale x amb m).2.2.2.1 gen res hg]
        exact Loop.advances_stay rfl rfl
    | sendResult gen res =>
      by_cases hg : gen = m.flushGen
      · subst hg
        exact (sendResult_sendsOnly x amb res m).pollAdvances
      · rw [(update_stale x amb m).2.1 gen res hg]
        exact Loop.advances_stay rfl rfl
    | pollResult gen res => simp [pollRound] at he
    | _ => cases ha
  · exact (update_still x amb (by simpa using ha) m).pollAdvances

theorem authRound_other (x : Crates) (amb : Ambient) (e : Event) (m : Model)
    (he : authRound.result e = none) : authRound.Advances m.guards.auth (update x amb e m) := by
  by_cases ha : e.isActive = true
  · cases e with
    | setServerUrl url =>
      rcases setServerUrl_guards x url m with h | ⟨hg,hl⟩
      · exact h.authAdvances
      · have hp := congrArg Guards.auth hg
        exact Loop.advances_stay hp (authRound_ignoresLocal.issued hl)
    | connect =>
      obtain ⟨hg,hl⟩ := connect_guards m
      exact Loop.advances_retire (congrArg Guards.auth hg) (authRound_ignoresLocal.issued hl)
    | authenticate =>
      rcases authenticate_cases x m with h | ⟨_,_,_,_,h⟩
      · exact h.authAdvances
      · simp only [update, h]
        exact Loop.advances_issue rfl rfl (by simp [Loop.armed_request, authRound, Model.guards])
    | poll =>
      rcases poll_cases x m with h | ⟨_,_,_,h⟩
      · exact h.authAdvances
      · simp only [update, h]
        exact Loop.advances_stay rfl rfl
    | pollWatchdog gen =>
      simp only [update, pollWatchdog]
      split <;> exact Loop.advances_stay rfl rfl
    | authWatchdog gen =>
      simp only [update, authWatchdog]
      split
      · exact Loop.advances_stay rfl rfl
      · exact Loop.advances_retire rfl rfl
    | startFlush => exact (flushNext_sendsOnly x amb m).authAdvances
    | flushWatchdog gen => exact (flushWatchdog_sendsOnly x amb gen m).authAdvances
    | pollResult gen res =>
      by_cases hg : gen = m.pollGen
      · subst hg
        exact (pollResult_still x amb res m).authAdvances
      · rw [(update_stale x amb m).1 gen res hg]
        exact Loop.advances_stay rfl rfl
    | sendResult gen res =>
      by_cases hg : gen = m.flushGen
      · subst hg
        exact (sendResult_sendsOnly x amb res m).authAdvances
      · rw [(update_stale x amb m).2.1 gen res hg]
        exact Loop.advances_stay rfl rfl
    | challengeResult gen res | verifyResult gen res => simp [authRound] at he
    | _ => cases ha
  · exact (update_still x amb (by simpa using ha) m).authAdvances

theorem sendRound_other (x : Crates) (amb : Ambient) (e : Event) (m : Model)
    (he : sendRound.result e = none) : sendRound.Advances m.guards.send (update x amb e m) := by
  by_cases ha : e.isActive = true
  · cases e with
    | setServerUrl url =>
      rcases setServerUrl_guards x url m with h | ⟨hg,hl⟩
      · exact h.sendAdvances
      · exact Loop.advances_retire (congrArg Guards.send hg) (sendRound_ignoresLocal.issued hl)
    | connect =>
      obtain ⟨hg,hl⟩ := connect_guards m
      have hp := congrArg Guards.send hg
      exact Loop.advances_stay hp (sendRound_ignoresLocal.issued hl)
    | authenticate =>
      rcases authenticate_cases x m with h | ⟨_,_,_,_,h⟩
      · exact h.sendAdvances
      · simp only [update, h]
        exact Loop.advances_stay rfl rfl
    | poll =>
      rcases poll_cases x m with h | ⟨_,_,_,h⟩
      · exact h.sendAdvances
      · simp only [update, h]
        exact Loop.advances_stay rfl rfl
    | pollWatchdog gen =>
      simp only [update, pollWatchdog]
      split <;> exact Loop.advances_stay rfl rfl
    | authWatchdog gen =>
      simp only [update, authWatchdog]
      split <;> exact Loop.advances_stay rfl rfl
    | startFlush =>
      obtain ⟨k,hk,hm⟩ := (flushNext_sendsOnly x amb m).moves
      exact ⟨k,by omega,hm⟩
    | flushWatchdog gen => exact (flushWatchdog_sendsOnly x amb gen m).moves
    | challengeResult gen res =>
      by_cases hg : gen = m.authGen
      · subst hg
        rcases challengeResult_cases x res m with h | ⟨_,h⟩
        · exact h.sendAdvances
        · simp only [update, h]
          exact Loop.advances_stay rfl rfl
      · rw [(update_stale x amb m).2.2.1 gen res hg]
        exact Loop.advances_stay rfl rfl
    | verifyResult gen res =>
      by_cases hg : gen = m.authGen
      · subst hg
        exact (verifyResult_still x res m).sendAdvances
      · rw [(update_stale x amb m).2.2.2.1 gen res hg]
        exact Loop.advances_stay rfl rfl
    | pollResult gen res =>
      by_cases hg : gen = m.pollGen
      · subst hg
        exact (pollResult_still x amb res m).sendAdvances
      · rw [(update_stale x amb m).1 gen res hg]
        exact Loop.advances_stay rfl rfl
    | sendResult gen res => simp [sendRound] at he
    | _ => cases ha
  · exact (update_still x amb (by simpa using ha) m).sendAdvances

theorem pollRound_ok (x : Crates) : pollRound.Ok (app x) where
  init := rfl
  answer _ _ _ h := (answer_round h).1
  shell _ h := (fromShell_isPlain h).1
  queued a e m e' he' := (isWake_isPlain (update_queuesWakes x a e m e' he')).1
  other := pollRound_other x
  stale a e m k he hk := by
    cases e with
    | pollResult gen res => cases he; exact (update_stale x a m).1 k res hk
    | _ => cases he
  current a e m k he hk := by
    cases e with
    | pollResult gen res =>
      cases he
      cases hk
      exact .inl (pollResult_still x a res m).pollAdvances
    | _ => cases he
  watched a e m k he hk hu := by
    cases e with
    | pollWatchdog gen =>
      cases he
      cases hk
      refine ⟨rfl,?_⟩
      have hu : m.polling = true := hu
      simp [app, update, pollWatchdog, pollRound, Model.guards, Model.abandonPoll, hu]
    | _ => cases he

theorem authRound_ok (x : Crates) : authRound.Ok (app x) where
  init := rfl
  answer _ _ _ h := (answer_round h).2.1
  shell _ h := (fromShell_isPlain h).2.1
  queued a e m e' he' := (isWake_isPlain (update_queuesWakes x a e m e' he')).2.1
  other := authRound_other x
  stale a e m k he hk := by
    cases e with
    | challengeResult gen res => cases he; exact (update_stale x a m).2.2.1 k res hk
    | verifyResult gen res => cases he; exact (update_stale x a m).2.2.2.1 k res hk
    | _ => cases he
  current a e m k he hk := by
    cases e with
    | challengeResult gen res =>
      cases he
      cases hk
      rcases challengeResult_cases x res m with h | ⟨_,h⟩
      · exact .inl h.authAdvances
      · refine .inr ?_
        simp only [app, update]
        change authRound.Continues m.authGen (challengeResult x m.authGen res m)
        rw [h]
        exact ⟨rfl,rfl⟩
    | verifyResult gen res =>
      cases he
      cases hk
      exact .inl (verifyResult_still x res m).authAdvances
    | _ => cases he
  watched a e m k he hk hu := by
    cases e with
    | authWatchdog gen =>
      cases he
      cases hk
      refine ⟨rfl,?_⟩
      have hu : m.authenticating = true := hu
      simp [app, update, authWatchdog, authRound, Model.guards, Model.abandonAuth, hu]
    | _ => cases he

theorem sendRound_ok (x : Crates) : sendRound.Ok (app x) where
  init := rfl
  answer _ _ _ h := (answer_round h).2.2
  shell _ h := (fromShell_isPlain h).2.2
  queued a e m e' he' := (isWake_isPlain (update_queuesWakes x a e m e' he')).2.2
  other := sendRound_other x
  stale a e m k he hk := by
    cases e with
    | sendResult gen res => cases he; exact (update_stale x a m).2.1 k res hk
    | _ => cases he
  current a e m k he hk := by
    cases e with
    | sendResult gen res =>
      cases he
      cases hk
      obtain ⟨k,hk,hm⟩ := (sendResult_sendsOnly x a res m).moves
      exact .inl ⟨k,by omega,hm⟩
    | _ => cases he
  watched a e m k he hk hu := by
    cases e with
    | flushWatchdog gen =>
      cases he
      cases hk
      refine ⟨rfl,?_⟩
      have hu : m.flushing = true := hu
      obtain ⟨n,hn,hm,-⟩ := (flushNext_sendsOnly x a m.abandonFlush).moves
      have hup : update x a (.flushWatchdog m.flushGen) m = flushNext x a m.abandonFlush := by
        simp [update, flushWatchdog, hu]
      change (update x a (.flushWatchdog m.flushGen) m).1.flushGen ≠ m.flushGen
      rw [hup]
      exact Guard.Moves.gen_ne (Guard.Moves.retire (.stay m.guards.send)) hm (by omega)
    | _ => cases he

/-- At most one outstanding request carries the current generation of the loop, and its guard is
up only while there is one. -/
def OneLive (L : Loop Model Event Effect) (c : Running) : Prop :=
  (∀ t u, L.Out c t (L.guard c.model).gen → L.Out c u (L.guard c.model).gen → t = u) ∧
  ((L.guard c.model).up = true → ∃ t, L.Out c t (L.guard c.model).gen)

/-- In every run too short for a generation to wrap, each loop has at most one live round trip,
and whatever is stale is inert. -/
theorem one_live_loop {x : Crates} {ls : List Label} {c : Running}
    (hrun : runFromBoot x ls = some c) (hlen : 2*ls.length < UInt64.size) :
    OneLive pollRound c ∧ OneLive sendRound c ∧ OneLive authRound c ∧
      ∀ amb, StaleInert x amb c.model := by
  have hlive : ∀ {L : Loop Model Event Effect}, L.Ok (app x) → OneLive L c := fun hok =>
    have htr := (hok.run_inv hlen hrun).tracks
    ⟨htr.single,htr.live.mp⟩
  exact ⟨hlive (pollRound_ok x),hlive (sendRound_ok x),hlive (authRound_ok x),
    fun amb => update_stale x amb c.model⟩

/-- Online, with one poll out. -/
theorem one_live_loop_online :
    ∃ c, runFromBoot .sample (sampleLabels sampleOnline) = some c ∧ OneLive pollRound c ∧
      OneLive sendRound c ∧ OneLive authRound c ∧ ∀ amb, StaleInert .sample amb c.model := by
  obtain ⟨c,hrun⟩ := Option.isSome_iff_exists.mp (show
    (runFromBoot .sample (sampleLabels sampleOnline)).isSome = true by decide)
  exact ⟨c,hrun,one_live_loop hrun (by decide)⟩

/-- A client that believes it is online and polling takes `connect` as a bump of the auth
generation and nothing else. -/
theorem step_connect_online {x : Crates} (amb : Ambient) {c : Running} (hq : c.queue = [])
    (hk : c.model.kvLoadFailed = false) (hc : c.model.conn = .online)
    (hp : c.model.polling = true) :
    step x c (amb,.shell .connect) = some { c with model := c.model.abandonAuth } := by
  have hr : update x amb .connect c.model = (c.model.abandonAuth,[.render]) := by
    simp [update, connect, Model.abandonAuth, hk, hc, hp]
  have hs := Core.step_shell (app x) amb hq (show (app x).shell .connect = true from rfl)
  rw [Core.process_of_update hr] at hs
  simpa [number, hq] using hs

/-- The client after another auth generation was reached. -/
def Running.withAuthGen (c : Running) (gen : UInt64) : Running :=
  { c with model := { c.model with authenticating := false, authGen := gen } }

/-- A number of `connect`s in a row, each of which the shell may send at any time. -/
theorem run_connects {x : Crates} (amb : Ambient) {c : Running} (hq : c.queue = [])
    (hk : c.model.kvLoadFailed = false) (hc : c.model.conn = .online)
    (hp : c.model.polling = true) (n : ℕ) :
    Lts.run (step x) c (List.replicate (n+1) (amb,.shell .connect)) =
      some (Running.withAuthGen c (c.model.authGen+UInt64.ofNat (n+1))) := by
  induction n generalizing c with
  | zero => simp [Lts.run, step_connect_online amb hq hk hc hp, Running.withAuthGen,
      Model.abandonAuth]
  | succ n ih =>
    rw [List.replicate_succ, Lts.run, step_connect_online amb hq hk hc hp, Option.bind_some]
    refine (ih (c := { c with model := c.model.abandonAuth }) hq hk hc hp).trans ?_
    have hgen : c.model.authGen+1+UInt64.ofNat (n+1) = c.model.authGen+UInt64.ofNat (n+1+1) := by
      rw [UInt64.ofNat_add (n+1) 1, UInt64.add_comm (UInt64.ofNat (n+1)), ← UInt64.add_assoc]
      rfl
    simp only [Running.withAuthGen, Model.abandonAuth, hgen]

/-- A request of the current generation is outstanding under ticket `t`. -/
def outs (L : Loop Model Event Effect) (c : Running) (t : ℕ) : Bool :=
  c.pending.any fun p => p.1 = t && L.request p.2 = some (L.guard c.model).gen

theorem out_of_outs {L : Loop Model Event Effect} {c : Running} {t : ℕ} (h : outs L c t = true) :
    L.Out c t (L.guard c.model).gen := by
  obtain ⟨⟨u,f⟩,hf,h⟩ := List.any_eq_true.mp h
  simp only [Bool.and_eq_true, decide_eq_true_eq] at h
  obtain ⟨rfl,hr⟩ := h
  exact ⟨f,hf,hr⟩

/-- The counters wrap: after so many `connect`s the auth attempt that its watchdog gave up is of the
current generation again, next to a fresh one. -/
theorem wrapped_generation_forks :
    ∃ ls c t u, runFromBoot .sample ls = some c ∧ t ≠ u ∧
      authRound.Out c t (authRound.guard c.model).gen ∧
      authRound.Out c u (authRound.guard c.model).gen := by
  have h : (runFromBoot .sample (sampleLabels sampleOnline)).any (fun c =>
      c.queue.isEmpty && !c.model.kvLoadFailed && c.model.conn = .online && c.model.polling &&
      (Lts.run (step .sample)
        (Running.withAuthGen c (c.model.authGen+UInt64.ofNat 18446744073709551612))
        (sampleLabels [.answer 11 (.http .err),.shell .connect,.drain])).any fun d =>
          outs authRound d 6 && outs authRound d 14) = true := by decide
  simp only [Option.any_eq_true, Bool.and_eq_true, Bool.not_eq_true', decide_eq_true_eq,
    List.isEmpty_iff] at h
  obtain ⟨c,hrun,⟨⟨⟨hq,hk⟩,hc⟩,hp⟩,d,hd,h₁,h₂⟩ := h
  have hwrap := run_connects (x := .sample) Ambient.sample hq hk hc hp 18446744073709551611
  have hall := Lts.run_append_eq_some _ hrun (Lts.run_append_eq_some _ hwrap hd)
  exact ⟨_,d,6,14,hall,by decide,out_of_outs h₁,out_of_outs h₂⟩

end Skrepka.Client
