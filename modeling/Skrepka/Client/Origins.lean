import Skrepka.Client.HalfLoaded
import Skrepka.Client.Tokens

/-! Which relay a request went to. In every loop the requests of the current generation are to the relay
that the model names, and a client that has yet to connect has none out. -/
namespace Skrepka.Client
open Rust Mvu

/-- The requests of the current generation of a loop went to the relay that the model names. -/
def Homed (L : Loop Model Event Effect) (c : Running) : Prop :=
  ∀ t req tag, (t,.http req tag) ∈ c.pending →
    L.request (.http req tag) = some (L.guard c.model).gen →
      req.url = c.model.settings.serverUrl ++ tag.path

theorem HttpTag.event_inj {tag tag' : HttpTag} {res res' : HttpResult}
    (h : tag.event res = tag'.event res') : tag = tag' ∧ res = res' := by
  cases tag <;> cases tag' <;> simp [HttpTag.event] at h ⊢ <;> exact h

section
variable {x : Crates} {L : Loop Model Event Effect} {n : ℕ} {c d : Running} {l : Label} {e : Event}

/-- The result of a request is the answer to one that is out. -/
theorem takes_http (tag : HttpTag) (hk : Known c) {res : HttpResult} {act : Action Event Answer}
    {c₁ : Running} (ht : Core.Takes (app x) c act (tag.event res) c₁) :
    c.queue = [] ∧
      ∃ t req r, act = .answer t (.http r) ∧ (t,.http req tag) ∈ c.pending ∧ res = x.deliver r := by
  generalize he : tag.event res = e at ht
  cases ht with
  | drain hq =>
    have hother := hk.queue e (hq ▸ List.mem_cons_self)
    subst he
    cases tag <;> exact absurd rfl hother
  | shell _ hs =>
    change fromShell e = true at hs
    subst he
    cases tag <;> simp [HttpTag.event, fromShell] at hs
  | @answer t r f _ hq hf ha =>
    change answer x f r = some e at ha
    subst he
    rcases f with ⟨req,tag'⟩ | ⟨op,tag'⟩ | ⟨ms,tag'⟩ <;> cases r <;>
      simp only [answer, Option.some.injEq, reduceCtorEq] at ha
    · obtain ⟨rfl,rfl⟩ := HttpTag.event_inj ha
      exact ⟨hq,t,req,_,rfl,hf,rfl⟩
    · cases tag <;> cases tag' <;> simp [HttpTag.event, KvTag.event] at ha
    · cases tag <;> cases tag' <;> simp [TimeTag.event, HttpTag.event] at ha

/-- With a new generation, or with the same relay, the requests of the current one are to that relay. -/
theorem Homed.step (hok : L.Ok (app x)) (hwithin : L.Within n c) (hn : n+2 < UInt64.size)
    (hstep : Client.step x c l = some d) (he : c.event? (app x) l.2 = some e)
    (h : (L.guard d.model).gen ≠ (L.guard c.model).gen ∨
      Homed L c ∧ d.model.settings = c.model.settings) : Homed L d := by
  intro t req tag hf hcur
  have hgen := hwithin.2
  obtain ⟨hold,hk⟩ | hnew := hok.current_cases (by omega) hwithin.1 hstep he hf hcur
  · obtain hne | ⟨hhomed,hsame⟩ := h
    · rw [hcur] at hk
      exact absurd (Option.some.inj hk) hne
    · rw [hsame]
      exact hhomed t req tag hold hk
  · have hmodel := step_model hstep he
    rw [hmodel]
    exact (update_issuing e req tag hnew).url

/-- The address of the relay changes with a switch, and when the settings are loaded. -/
theorem update_settings {amb : Ambient} {m : Model} (hswitch : e.switches x = false)
    (hload : e.load? ≠ some .loadedSettings) : (update x amb e m).1.settings = m.settings := by
  by_cases hw : Field.settings ∈ e.writes
  · cases e with
    | setServerUrl url =>
      simp only [Event.switches, Option.isSome_eq_false_iff, Option.isNone_iff_eq_none] at hswitch
      simp [update, setServerUrl, hswitch, refuse]
    | loadedSettings => exact absurd rfl hload
    | _ => simp [Event.writes] at hw
  · exact update_agrees x amb e m .settings hw

/-- A switch starts from the beginning. -/
theorem update_switched (amb : Ambient) (m : Model) {url url' : String}
    (h : normalizeServerUrl x url = some url') :
    (update x amb (.setServerUrl url) m).1.settings.serverUrl = url' ∧
      (update x amb (.setServerUrl url) m).1.cursor = 0 := by
  obtain ⟨hnone,-⟩ | ⟨url'',hsome,_,hfst⟩ := setServerUrl_fst x url m
  · simp [hnone] at h
  · obtain rfl := Option.some.inj (hsome.symm.trans h)
    rw [update, hfst]
    exact ⟨rfl,rfl⟩

/-- A switch leaves an event that connects. -/
theorem switch_step (hstep : step x c l = some d) (he : c.event? (app x) l.2 = some e)
    (hswitch : e.switches x = true) :
    .connect ∈ d.queue ∧ d.model.pollGen ≠ c.model.pollGen ∧ d.model.flushGen ≠ c.model.flushGen := by
  obtain ⟨c₁,ht,rfl⟩ := Core.step_event hstep he
  cases e with
  | setServerUrl url =>
    have hsome : (normalizeServerUrl x url).isSome = true := hswitch
    obtain ⟨url',hurl⟩ := Option.isSome_iff_exists.mp hsome
    have hmodel : (c₁.process (app x) l.1 (.setServerUrl url)).model =
        (update x l.1 (.setServerUrl url) c.model).1 := by
      rw [← ht.model_eq]
      rfl
    refine ⟨Core.mem_process_queue.mpr (.inr ?_),?_⟩
    · simp [app, update, setServerUrl, hurl]
    · obtain ⟨hnone,-⟩ | ⟨_,-,_,hfst⟩ := setServerUrl_fst x url c.model
      · simp [hnone] at hurl
      · rw [hmodel, update, hfst]
        simp [Model.switchRelay, Model.abandonPoll, Model.abandonFlush]
  | _ => simp [Event.switches] at hswitch

/-- What is current in the three loops went to the relay that the model names; an auth attempt may be
older than that while the client is about to connect. -/
structure Addressed (c : Running) : Prop where
  poll : Homed pollRound c
  send : Homed sendRound c
  auth : .connect ∈ c.queue ∨ Homed authRound c

/-- The three loops with their counters. -/
structure Counted (n : ℕ) (c : Running) : Prop where
  poll : pollRound.Within n c
  send : sendRound.Within n c
  auth : authRound.Within n c

theorem counted_boot (x : Crates) : Counted 0 (boot x) :=
  ⟨(pollRound_ok x).boot_within,(sendRound_ok x).boot_within,(authRound_ok x).boot_within⟩

theorem Counted.mono {k : ℕ} (h : Counted n c) (hle : n ≤ k) : Counted k c :=
  ⟨h.poll.mono hle,h.send.mono hle,h.auth.mono hle⟩

theorem Counted.step (h : Counted n c) (hn : n+2 < UInt64.size) (hstep : Client.step x c l = some d) :
    Counted (n+2) d :=
  ⟨(pollRound_ok x).step_within h.poll hn hstep,(sendRound_ok x).step_within h.send hn hstep,
    (authRound_ok x).step_within h.auth hn hstep⟩

theorem homed_of_silent (h : ∀ t req tag, (t,.http req tag) ∉ c.pending) : Homed L c :=
  fun t req tag hf => absurd hf (h t req tag)

theorem Addressed.step (h : Addressed c) (hcounted : Counted n c) (hn : n+2 < UInt64.size)
    (hstep : Client.step x c l = some d) (he : c.event? (app x) l.2 = some e)
    (hload : e.load? = some .loadedSettings → ∀ t req tag, (t,.http req tag) ∉ d.pending) :
    Addressed d := by
  have hmodel := step_model hstep he
  by_cases hswitch : e.switches x = true
  · obtain ⟨hconnect,hpoll,hsend⟩ := switch_step hstep he hswitch
    exact ⟨.step (pollRound_ok x) hcounted.poll hn hstep he (.inl hpoll),
      .step (sendRound_ok x) hcounted.send hn hstep he (.inl hsend),.inl hconnect⟩
  by_cases hl : e.load? = some .loadedSettings
  · exact ⟨homed_of_silent (hload hl),homed_of_silent (hload hl),.inr (homed_of_silent (hload hl))⟩
  have hsame : d.model.settings = c.model.settings := by
    rw [hmodel]
    exact update_settings (by simpa using hswitch) hl
  refine ⟨.step (pollRound_ok x) hcounted.poll hn hstep he (.inr ⟨h.poll,hsame⟩),
    .step (sendRound_ok x) hcounted.send hn hstep he (.inr ⟨h.send,hsame⟩),?_⟩
  obtain hq | hauth := h.auth
  · obtain ⟨c₁,ht,rfl⟩ := Core.step_event hstep he
    generalize l.2 = act at ht
    cases ht with
    | shell hq' | answer hq' => simp [hq'] at hq
    | drain hq' =>
      obtain rfl | hq := List.mem_cons.mp (hq' ▸ hq)
      · refine .inr (.step (authRound_ok x) hcounted.auth hn hstep he (.inl ?_))
        rw [hmodel, update, connect_fst]
        simp [authRound, Model.guards, Model.abandonAuth]
      · exact .inl (Core.mem_process_queue.mpr (.inl hq))
  · exact .inr (.step (authRound_ok x) hcounted.auth hn hstep he (.inr ⟨hauth,hsame⟩))

end

/-- The client has not connected yet: nothing but reads and writes of the store is out. -/
structure Idle (c : Running) : Prop where
  token : c.model.token = none
  pending : ∀ p ∈ c.pending, ask (.request p.2) ∈ [.startup,.history,.write]
  queue : ∀ e ∈ c.queue, ask (.event e) ∈ [.connect,.startFlush]
  early : c.model.secretKey = none →
    c.model.kvLoadFailed = false ∧ ∀ p ∈ c.pending, ask (.request p.2) = .write

/-- What an idle client can meet. -/
def Event.isCalm : Event → Bool
  | .loadedMessages _ _ | .saved _ | .startFlush => true
  | e => fromShell e || e.isStartupLoad

section
variable {x : Crates} {amb : Ambient} {c c₁ d : Running} {l : Label} {e : Event}

theorem idle_boot (x : Crates) : Idle (boot x) where
  token := rfl
  pending := by simp [boot, Core.boot]
  queue := by simp [boot, Core.boot]
  early _ := ⟨rfl,by simp [boot, Core.boot]⟩

theorem Idle.silent (h : Idle c) (t : ℕ) (req : HttpRequest) (tag : HttpTag) :
    (t,.http req tag) ∉ c.pending := by
  intro hf
  have hask := h.pending _ hf
  cases tag <;> simp [ask] at hask

/-- Before there is an identity, no load is out. -/
theorem Idle.calm {act : Action Event Answer} (h : Idle c) (ht : Core.Takes (app x) c act e c₁) :
    e.isCalm = true ∧ (c.model.secretKey = none →
      e.isStartupLoad = false ∧ ∀ peer res, e ≠ .loadedMessages peer res) := by
  cases ht with
  | drain hq =>
    have hask := h.queue e (hq ▸ List.mem_cons_self)
    cases e <;> simp [ask] at hask <;> simp [Event.isCalm, Event.isStartupLoad, fromShell]
  | shell _ hs =>
    change fromShell e = true at hs
    cases e <;> simp [fromShell] at hs <;> simp [Event.isCalm, Event.isStartupLoad, fromShell]
  | @answer t r f _ _ hf he =>
    have hask := h.pending _ hf
    have hearly := fun hs => (h.early hs).2 _ hf
    change answer x f r = some e at he
    rcases f with ⟨req,tag⟩ | ⟨op,tag⟩ | ⟨ms,tag⟩ <;> cases r <;>
      simp only [answer, Option.some.injEq, reduceCtorEq] at he <;> subst he
    · cases tag <;> simp [ask] at hask
    · cases op <;> cases tag <;> simp [ask] at hask <;>
        simp [KvTag.event, Event.isCalm, Event.isStartupLoad, ask] at hearly ⊢ <;> exact hearly
    · cases tag <;> simp [ask] at hask


/-- Without a token, the send loop stands down. -/
theorem flushNext_untokened {m : Model} (h : m.token = none) : flushNext x amb m = (m,[]) := by
  simp only [flushNext, h]
  repeat' split
  all_goals first | rfl | simp_all

/-- What an idle client asks for as long as it does not connect. -/
theorem calm_asks {m : Model} (hcalm : e.isCalm = true) (htoken : m.token = none)
    (hstay : e = .connect → m.kvLoadFailed = true ∨ m.secretKey = none) :
    Asks [.startup,.history,.write,.connect,.startFlush,.render] (update x amb e m).2 := by
  have hasks := update_asks x amb e m
  cases e with
  | connect =>
    have hrender : Asks [.render] (connect m).2 := by
      simp only [connect, Model.abandonAuth]
      obtain h | h := hstay rfl
      · simp [h, ask]
      · by_cases hk : m.kvLoadFailed = true <;> simp [h, hk, ask]
    exact hrender.mono (by simp)
  | startFlush => simp [update, flushNext_untokened htoken]
  | _ => first
    | (simp [Event.isCalm, fromShell, Event.isStartupLoad] at hcalm; done)
    | exact hasks.mono (by simp [Event.asks])

theorem calm_token {m : Model} (hcalm : e.isCalm = true) (htoken : m.token = none) :
    (update x amb e m).1.token = none := by
  rw [update_token, htoken]
  cases e <;> simp [Event.isCalm, fromShell, Event.isStartupLoad] at hcalm <;> simp [Event.grants]

/-- Before there is an identity, an idle client reads nothing. -/
theorem early_asks {m : Model} (hcalm : e.isCalm = true) (hload : e.isStartupLoad = false)
    (hhistory : ∀ peer res, e ≠ .loadedMessages peer res) (htoken : m.token = none)
    (hsecret : m.secretKey = none) (hnone : (update x amb e m).1.secretKey = none) :
    (update x amb e m).1.kvLoadFailed = m.kvLoadFailed ∧
      Asks [.write,.connect,.startFlush,.render] (update x amb e m).2 := by
  by_cases hid : ∃ sk, e = .identityLoaded sk
  · obtain ⟨sk,rfl⟩ := hid
    simp only [update, identityLoaded] at hnone ⊢
    cases hsk : Crypto.fromSecretBytes x sk with
    | error => exact ⟨rfl,by simp [ask]⟩
    | ok id => simp [hsk] at hnone
  · refine ⟨update_agrees x amb e m .kvLoadFailed ?_,?_⟩
    · cases e <;> simp_all [Event.writes, Event.isCalm, fromShell, Event.isStartupLoad]
    · have hasks := @calm_asks x amb e m hcalm htoken fun _ => .inr hsecret
      intro k hk
      have hall := hasks k hk
      have hown := update_asks x amb e m k hk
      have hneither : ask k ≠ .startup ∧ ask k ≠ .history := by
        cases e <;> simp [Event.isCalm, fromShell, Event.isStartupLoad] at hcalm hload hhistory hid <;>
          constructor <;> rintro hk <;> simp [hk, Event.asks] at hown
      simpa [hneither] using hall

/-- A client that does not connect stays idle. -/
theorem Idle.step (h : Idle c) (hstep : Client.step x c l = some d)
    (he : c.event? (app x) l.2 = some e)
    (hstay : e = .connect → c.model.kvLoadFailed = true ∨ c.model.secretKey = none) : Idle d := by
  have hmodel := step_model hstep he
  obtain ⟨c₁,ht,rfl⟩ := Core.step_event hstep he
  obtain ⟨hcalm,hearly⟩ := h.calm ht
  have hasks : Asks _ (update x l.1 e c₁.model).2 := ht.model_eq ▸ calm_asks hcalm h.token hstay
  refine ⟨hmodel ▸ calm_token hcalm h.token,fun p hp => ?_,fun e' he' => ?_,fun hnone => ?_⟩
  · obtain hold | ⟨hnew,-⟩ := Core.mem_process_pending (t := p.1) (f := p.2) hp
    · exact h.pending p (ht.mem_pending hold)
    · have := hasks.request hnew
      obtain ⟨t,f⟩ := p
      rcases f with ⟨_,tag⟩ | ⟨op,tag⟩ | _
      · cases tag <;> simp [ask] at this
      · cases op <;> cases tag <;> simp [ask] at this ⊢
      · simp [ask] at this
  · obtain hold | hnew := Core.mem_process_queue.mp he'
    · exact h.queue e' (ht.mem_queue hold)
    · have := hasks.event hnew
      cases e' <;> simp [ask] at this ⊢
  · rw [hmodel] at hnone ⊢
    -- An identity is never taken away.
    have hsecret : c.model.secretKey = none := by
      by_cases hid : ∃ sk, e = .identityLoaded sk ∧ (Crypto.fromSecretBytes x sk).isOk = true
      · obtain ⟨sk,rfl,hok⟩ := hid
        obtain ⟨pk,hup⟩ := @identityLoaded_ok l.1 _ _ hok c.model
        simp [hup] at hnone
      · rw [← hnone]
        refine (counts_loads x l.1 c.model fun sk hsk => ?_).1.symm
        simpa using fun hok => hid ⟨sk,hsk,hok⟩
    obtain ⟨hlatch,hpending⟩ := h.early hsecret
    obtain ⟨hload,hhistory⟩ := hearly hsecret
    obtain ⟨hsame,hearlyAsks⟩ := @early_asks x l.1 e c.model hcalm hload hhistory h.token hsecret hnone
    refine ⟨hsame.trans hlatch,fun p hp => ?_⟩
    obtain hold | ⟨hnew,-⟩ := Core.mem_process_pending (t := p.1) (f := p.2) hp
    · exact hpending p (ht.mem_pending hold)
    · rw [ht.model_eq] at hnew
      have := hearlyAsks.request hnew
      obtain ⟨t,f⟩ := p
      rcases f with ⟨_,tag⟩ | ⟨op,tag⟩ | _
      · cases tag <;> simp [ask] at this
      · cases op <;> cases tag <;> simp [ask] at this ⊢
      · simp [ask] at this

end
end Skrepka.Client
