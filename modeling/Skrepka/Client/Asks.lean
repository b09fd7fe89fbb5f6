import Skrepka.Client.Footprint

/-! Which event can ask for which command, as one table. -/
namespace Skrepka.Client
open Rust Mvu

/-- What a command asks for, without its contents: an event of the core's own, a request to
the relay, a read or a write of the store, a timer, or a redraw. -/
inductive Ask
  | connect | authenticate | poll | startFlush
  | challenge | verify | page | send
  | startup | history | write | writeCursor
  | timer | render | other
  deriving DecidableEq

def ask : Cmd Event Effect → Ask
  | .event .connect => .connect
  | .event .authenticate => .authenticate
  | .event .poll => .poll
  | .event .startFlush => .startFlush
  | .event _ => .other
  | .request (.http _ (.challengeResult _)) => .challenge
  | .request (.http _ (.verifyResult _)) => .verify
  | .request (.http _ (.pollResult _)) => .page
  | .request (.http _ (.sendResult _)) => .send
  | .request (.kv (.get _) (.loadedMessages _)) => .history
  | .request (.kv (.get _) .saved) | .request (.kv (.get _) .savedCursor) => .other
  | .request (.kv (.get _) _) => .startup
  | .request (.kv _ .saved) => .write
  | .request (.kv _ .savedCursor) => .writeCursor
  | .request (.kv _ _) => .other
  | .request (.time _ _) => .timer
  | .render => .render

/-- What an event can ask for. -/
def Event.asks : Event → List Ask
  | .identityLoaded _ => [.startup,.render]
  | .showConversations | .showSettings | .showAddContact | .showEditProfile | .openChat _ | .back
  | .composeChanged _ | .loadedMessages _ _ | .saved _ => [.render]
  | .addContact _ _ | .setBlocked _ _ | .deleteContact _ => [.write,.render]
  | .sendText | .saveProfile _ _ _ => [.write,.startFlush,.render]
  | .setServerUrl _ => [.write,.connect,.render]
  | .connect => [.authenticate,.poll,.render]
  | .loadedSettings _ | .loadedProfile _ | .loadedCursor _ | .loadedOutbox _ | .loadedSeenIds _ =>
    [.connect,.render]
  | .loadedContacts _ => [.connect,.history,.render]
  | .savedCursor _ => [.poll,.timer,.render]
  | .authenticate => [.challenge,.timer,.render]
  | .challengeResult _ _ => [.verify,.timer,.render]
  | .verifyResult _ _ => [.poll,.startFlush,.timer,.render]
  | .authWatchdog _ => [.authenticate]
  | .poll => [.authenticate,.page,.timer,.render]
  | .pollWatchdog _ => [.poll]
  | .pollResult _ _ => [.write,.writeCursor,.poll,.startFlush,.authenticate,.timer,.render]
  | .startFlush | .flushWatchdog _ => [.write,.send,.timer,.render]
  | .sendResult _ _ => [.write,.send,.authenticate,.timer,.render]

attribute [local simp] ask

/-- Commands that ask for nothing outside a list. -/
def Asks (as : List Ask) (cs : Commands) : Prop := ∀ c ∈ cs, ask c ∈ as

@[simp] theorem asks_nil (as : List Ask) : Asks as [] := by simp [Asks]

@[simp] theorem asks_cons {as : List Ask} {c : Cmd Event Effect} {cs : Commands} :
    Asks as (c :: cs) ↔ ask c ∈ as ∧ Asks as cs := by simp [Asks]

@[simp] theorem asks_append {as : List Ask} {cs ds : Commands} :
    Asks as (cs ++ ds) ↔ Asks as cs ∧ Asks as ds := by simp [Asks, or_imp, forall_and]

theorem Asks.mono {as bs : List Ask} {cs : Commands} (h : Asks as cs) (hs : as ⊆ bs) :
    Asks bs cs := fun c hc => hs (h c hc)

theorem Asks.request {as : List Ask} {cs : Commands} (h : Asks as cs) {f : Effect}
    (hf : f ∈ Cmd.requests cs) : ask (.request f) ∈ as := by
  obtain ⟨c,hc,hf⟩ := List.mem_filterMap.mp hf
  cases c with
  | request g => cases hf; exact h _ hc
  | event | render => simp at hf

theorem Asks.event {as : List Ask} {cs : Commands} (h : Asks as cs) {e : Event}
    (he : e ∈ Cmd.events cs) : ask (.event e) ∈ as := by
  obtain ⟨c,hc,he⟩ := List.mem_filterMap.mp he
  cases c with
  | event g => cases he; exact h _ hc
  | request | render => simp at he

theorem Writes.asks {cs : Commands} (h : Writes cs) : Asks [.write] cs := by
  intro c hc
  obtain ⟨key,value,rfl⟩ := h c hc
  simp

theorem asks_render {as : List Ask} (h : .render ∈ as) (m : Model) :
    Asks as (Upd.emit [.render] m : Model × Commands).2 := by simpa using h

theorem startupDone_asks (m : Model) : Asks [.connect,.render] (startupDone m).2 := by
  unfold startupDone
  split
  · exact asks_nil _
  · split <;> simp

theorem loaded_asks {α : Type} (decode : KvValue → Option α) (install : α → Model → Model)
    (failed : Model → Model) (res : KvData) (m : Model) :
    Asks [.connect,.render] (loaded decode install failed res m).2 := by
  rw [loaded_eq]
  exact asks_append.mpr ⟨startupDone_asks _,by simp⟩

theorem loadedContacts_asks (res : KvData) (m : Model) :
    Asks [.connect,.history,.render] (loadedContacts res m).2 := by
  have hd : Asks [.connect,.history,.render] (startupDone m).2 :=
    (startupDone_asks m).mono (by simp)
  unfold loadedContacts
  cases parseKv KvValue.contacts? res with
  | error => exact asks_append.mpr ⟨hd,by simp⟩
  | ok list =>
    cases list with
    | none => exact asks_append.mpr ⟨hd,by simp⟩
    | some list =>
      refine asks_append.mpr ⟨asks_append.mpr ⟨hd,fun c hc => ?_⟩,by simp⟩
      obtain ⟨peer,-,rfl⟩ := List.mem_map.mp hc
      simp [loadMessages, load]

theorem sendText_asks (x : Crates) (amb : Ambient) (m : Model) :
    Asks [.write,.startFlush,.render] (sendText x amb m).2 := by
  unfold sendText
  split
  · simp
  simp only
  repeat' split
  iterate 4 simp [refuse]
  simp only [Upd.and_snd, asks_append]
  refine ⟨?_,?_,?_,by simp⟩
  · exact (persistMessages_writes _ _).asks.mono (by simp)
  · exact (persistContacts_writes _).asks.mono (by simp)
  · exact (persistOutbox_writes _).asks.mono (by simp)

theorem flushNext_asks (x : Crates) (amb : Ambient) (m : Model) :
    Asks [.write,.send,.timer,.render] (flushNext x amb m).2 := by
  have h := flushNext_flushed x amb m
  generalize flushNext x amb m = r at h
  cases h with
  | gated => exact asks_nil _
  | emptied _ _ _ _ hw he =>
    refine asks_append.mpr ⟨hw.asks.mono (by simp),?_⟩
    rcases he with rfl | rfl <;> simp
  | sent _ _ _ _ _ hw => exact asks_append.mpr ⟨hw.asks.mono (by simp),by simp⟩
  | unsent _ _ _ _ hw => exact asks_append.mpr ⟨hw.asks.mono (by simp),by simp⟩

theorem retryBatch_asks (x : Crates) (amb : Ambient) (batch : Option InFlight) (m : Model) :
    Asks [.write,.send,.timer,.render] (retryBatch x amb batch m).2 := by
  cases batch with
  | none => simp [retryBatch]
  | some batch =>
    simp only [retryBatch]
    split
    · exact asks_append.mpr ⟨(persistOutbox_writes _).asks.mono (by simp),by simp⟩
    · refine asks_append.mpr ⟨asks_append.mpr ⟨?_,flushNext_asks x _ _⟩,by simp⟩
      exact (persistOutbox_writes _).asks.mono (by simp)

theorem sendResult_asks (x : Crates) (amb : Ambient) (gen : UInt64) (res : HttpResult)
    (m : Model) :
    Asks [.write,.send,.authenticate,.timer,.render] (sendResult x amb gen res m).2 := by
  simp only [sendResult]
  split
  · exact asks_nil _
  cases res with
  | err => exact (retryBatch_asks x amb _ _).mono (by simp)
  | ok resp =>
    simp only
    split
    · simp
    split
    · simp [rateLimited]
    split
    · exact (flushNext_asks x amb _).mono (by simp)
    split
    · refine asks_append.mpr ⟨?_,(flushNext_asks x amb _).mono (by simp)⟩
      exact (persistOutbox_writes _).asks.mono (by simp)
    · exact (retryBatch_asks x amb _ _).mono (by simp)

theorem pollResult_asks (x : Crates) (amb : Ambient) (gen : UInt64) (res : HttpResult)
    (m : Model) : Asks [.write,.writeCursor,.poll,.startFlush,.authenticate,.timer,.render]
      (pollResult x amb gen res m).2 := by
  simp only [pollResult]
  repeat' split
  all_goals try simp [backoffPoll]
  rename_i page _
  obtain ⟨m',ws,es,h,-,hw,he⟩ := ingestPoll_cases x amb page
    { m with polling := false, pollRetries := 0 }
  simp only [pollPage, h, asks_append, asks_cons, asks_nil, and_true]
  refine ⟨⟨hw.asks.mono (by simp),?_⟩,?_,by simp⟩
  · rcases he with rfl | rfl <;> simp
  · split <;> simp

/-- No event asks for what is not in its list. -/
theorem update_asks (x : Crates) (amb : Ambient) (e : Event) (m : Model) :
    Asks e.asks (update x amb e m).2 := by
  cases e with
  | showConversations | showSettings | showAddContact | showEditProfile | back | openChat
  | composeChanged =>
    simp [update, showConversations, showPage, openChat, composeChanged, Event.asks]
  | identityLoaded sk =>
    simp only [update, identityLoaded]
    split <;> simp [load, Event.asks]
  | sendText => exact sendText_asks x amb m
  | addContact input nickname =>
    simp only [update, addContact]
    repeat' split
    iterate 3 simp [refuse, Event.asks]
    all_goals
      exact asks_append.mpr ⟨(persistContacts_writes _).asks.mono (by simp [Event.asks]),
        asks_render (by simp [Event.asks]) _⟩
  | setBlocked peer blocked =>
    simp only [update, setBlocked]
    split
    · refine asks_append.mpr ⟨?_,asks_append.mpr ⟨?_,asks_render (by simp [Event.asks]) _⟩⟩
      · exact (persistContacts_writes _).asks.mono (by simp [Event.asks])
      · exact (persistOutbox_writes _).asks.mono (by simp [Event.asks])
    · exact asks_append.mpr ⟨(persistContacts_writes _).asks.mono (by simp [Event.asks]),
        asks_render (by simp [Event.asks]) _⟩
  | deleteContact peer =>
    simp only [update, deleteContact, Upd.and_snd, asks_append]
    refine ⟨?_,by simp [Event.asks],?_,?_,asks_render (by simp [Event.asks]) _⟩
    · exact (persistContacts_writes _).asks.mono (by simp [Event.asks])
    · exact (persistOutbox_writes _).asks.mono (by simp [Event.asks])
    · exact (persistSeenIds_writes _).asks.mono (by simp [Event.asks])
  | saveProfile displayName bio photo =>
    simp only [update, saveProfile]
    repeat' split
    iterate 4 simp [refuse, Event.asks]
    refine asks_append.mpr ⟨?_,asks_append.mpr ⟨?_,by simp [Event.asks]⟩⟩
    · exact (persistProfile_writes _).asks.mono (by simp [Event.asks])
    · exact (persistOutbox_writes _).asks.mono (by simp [Event.asks])
  | setServerUrl url =>
    simp only [update, setServerUrl]
    split
    · simp [refuse, Event.asks]
    · refine asks_append.mpr ⟨?_,by simp [Event.asks]⟩
      exact (writes_guarded (by simp) _).asks.mono (by simp [Event.asks])
  | connect =>
    simp only [update, connect]
    repeat' split
    all_goals simp [Event.asks]
  | loadedSettings res | loadedProfile res | loadedCursor res | loadedOutbox res
  | loadedSeenIds res => exact loaded_asks _ _ _ res m
  | loadedContacts res => exact loadedContacts_asks res m
  | loadedMessages peer res =>
    simp only [update, loadedMessages]
    repeat' split
    all_goals simp [Event.asks]
  | saved res => cases res <;> simp [update, saved, Event.asks]
  | savedCursor res => cases res <;> simp [update, savedCursor, backoffPoll, Event.asks]
  | authenticate =>
    simp only [update, authenticate]
    repeat' split
    all_goals simp [authFailedWith, authFailed, scheduleReconnect, Event.asks]
  | authWatchdog gen | pollWatchdog gen =>
    simp only [update, authWatchdog, pollWatchdog]
    split <;> simp [Event.asks]
  | challengeResult gen res =>
    simp only [update, challengeResult]
    repeat' split
    all_goals simp [authFailedWith, authFailed, scheduleReconnect, Event.asks]
  | verifyResult gen res =>
    simp only [update, verifyResult]
    repeat' split
    all_goals simp [authFailed, scheduleReconnect, Event.asks]
  | poll =>
    simp only [update, poll]
    repeat' split
    all_goals simp [backoffPoll, Event.asks]
  | pollResult gen res => exact pollResult_asks x amb gen res m
  | startFlush => exact flushNext_asks x amb m
  | flushWatchdog gen =>
    simp only [update, flushWatchdog]
    split
    · exact asks_nil _
    · exact flushNext_asks x amb _
  | sendResult gen res => exact sendResult_asks x amb gen res m

/-- Only commands of a known kind are outstanding. -/
structure Known (c : Running) : Prop where
  queue : ∀ e ∈ c.queue, ask (.event e) ≠ .other
  pending : ∀ p ∈ c.pending, ask (.request p.2) ≠ .other

theorem Known.step {x : Crates} {c d : Running} {l : Label} (h : Known c)
    (hs : step x c l = some d) : Known d := by
  obtain ⟨e,c₁,ht,rfl⟩ := Core.step_cases hs
  have hasks := update_asks x l.1 e c₁.model
  have hother : Ask.other ∉ e.asks := by cases e <;> simp [Event.asks]
  constructor
  · intro e' he'
    rcases Core.mem_process_queue.mp he' with he' | he'
    · exact h.queue e' (ht.mem_queue he')
    · exact fun ho => hother (ho ▸ hasks.event he')
  · rintro ⟨t,f⟩ hp
    rcases Core.mem_process_pending hp with hp | ⟨hp,-⟩
    · exact h.pending _ (ht.mem_pending hp)
    · exact fun ho => hother (ho ▸ hasks.request hp)

theorem known_run {x : Crates} {ls : List Label} {c : Running}
    (h : runFromBoot x ls = some c) : Known c :=
  Lts.run_invariant (step x) (fun _ _ _ hk hs => hk.step hs)
    ⟨by simp [boot, Core.boot],by simp [boot, Core.boot]⟩ h

end Skrepka.Client
