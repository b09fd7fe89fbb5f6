import Skrepka.Client.Liveness

/-! A failed read is latched: until the next identity, the core asks the store for reads only,
whatever happens, with the deletion of a conversation as the one exception. -/
namespace Skrepka.Client
open Rust Mvu

def KvOp.isGet : KvOp → Bool
  | .get _ => true
  | _ => false

/-- A command that asks the store for nothing but reads. -/
def isRead : Cmd Event Effect → Bool
  | .request (.kv op _) => op.isGet
  | _ => true

def ReadsOnly (cs : Commands) : Prop := ∀ c ∈ cs, isRead c = true

@[simp] theorem readsOnly_nil : ReadsOnly [] := by simp [ReadsOnly]

@[simp] theorem readsOnly_cons {c : Cmd Event Effect} {cs : Commands} :
    ReadsOnly (c :: cs) ↔ isRead c = true ∧ ReadsOnly cs := by simp [ReadsOnly]

@[simp] theorem readsOnly_append {cs ds : Commands} :
    ReadsOnly (cs ++ ds) ↔ ReadsOnly cs ∧ ReadsOnly ds := by
  simp [ReadsOnly, or_imp, forall_and]

theorem ReadsOnly.requests {cs : Commands} (h : ReadsOnly cs) {op : KvOp} {tag : KvTag}
    (hf : .kv op tag ∈ Cmd.requests cs) : op.isGet = true := by
  obtain ⟨c,hc,hf⟩ := List.mem_filterMap.mp hf
  cases c with
  | request g => cases hf; exact h _ hc
  | event | render => simp at hf

/-- An outcome that keeps the latch set and only reads. -/
def Latched (r : Model × Commands) : Prop := r.1.kvLoadFailed = true ∧ ReadsOnly r.2

theorem Latched.and {f g : Handler} {m : Model} (hf : Latched (f m))
    (hg : ∀ m, m.kvLoadFailed = true → Latched (g m)) : Latched (f.and g m) := by
  obtain ⟨hk,hr⟩ := hg _ hf.1
  exact ⟨hk,readsOnly_append.mpr ⟨hf.2,hr⟩⟩

theorem latched_emit {cs : Commands} (h : ReadsOnly cs) (m : Model)
    (hk : m.kvLoadFailed = true) : Latched (Upd.emit cs m) := ⟨hk,h⟩

/-- A write that is refused is no command at all. -/
theorem latched_guarded (ops : Model → List KvOp) (m : Model) (hk : m.kvLoadFailed = true) :
    Latched (guarded ops m) := by
  refine ⟨?_,by simp [guarded_snd, hk]⟩
  rw [guarded_fst, m.refused_eq]
  exact hk

theorem latched_render (m : Model) (hk : m.kvLoadFailed = true) :
    Latched (Upd.emit [.render] m) := latched_emit (by simp [isRead]) m hk

theorem latched_flushNext (x : Crates) (amb : Ambient) (m : Model)
    (hk : m.kvLoadFailed = true) : Latched (flushNext x amb m) := by
  have h : flushNext x amb m = (m,[]) := by
    simp only [flushNext, hk]
    split <;> rfl
  rw [h]
  exact ⟨hk,readsOnly_nil⟩

theorem latched_refuse (error : String) (m : Model) (hk : m.kvLoadFailed = true) :
    Latched (refuse error m) := ⟨hk,by simp [refuse, isRead]⟩

theorem latched_startupDone (m : Model) (hk : m.kvLoadFailed = true) :
    Latched (startupDone m) := by
  obtain ⟨_,h⟩ := startupDone_fst m
  refine ⟨by rw [h]; exact hk,?_⟩
  unfold startupDone
  split
  · exact readsOnly_nil
  · split <;> simp [isRead]

theorem latched_loaded {α : Type} {decode : KvValue → Option α} {install : α → Model → Model}
    {failed : Model → Model} (hi : ∀ a m, (install a m).kvLoadFailed = m.kvLoadFailed)
    (hf : ∀ m, m.kvLoadFailed = true → (failed m).kvLoadFailed = true) (res : KvData) (m : Model)
    (hk : m.kvLoadFailed = true) : Latched (loaded decode install failed res m) := by
  rw [loaded_eq]
  refine (latched_startupDone _ ?_).and latched_render
  unfold loadedModel
  cases parseKv decode res with
  | error => exact hf m hk
  | ok a =>
    cases a with
    | none => exact hk
    | some a => exact (hi a m).trans hk

theorem latched_loadedContacts (res : KvData) (m : Model) (hk : m.kvLoadFailed = true) :
    Latched (loadedContacts res m) := by
  obtain ⟨hd,hr⟩ := latched_startupDone m hk
  unfold loadedContacts
  cases parseKv KvValue.contacts? res with
  | error => exact ⟨rfl,by simp [hr, isRead]⟩
  | ok list =>
    cases list with
    | none => exact ⟨hd,by simp [hr, isRead]⟩
    | some list =>
      refine ⟨hd,?_⟩
      simp only [readsOnly_append, readsOnly_cons, readsOnly_nil]
      refine ⟨⟨hr,fun c hc => ?_⟩,rfl,trivial⟩
      obtain ⟨peer,-,rfl⟩ := List.mem_map.mp hc
      rfl

theorem latched_loadedMessages (peer : String) (res : KvData) (m : Model)
    (hk : m.kvLoadFailed = true) : Latched (loadedMessages peer res m) := by
  unfold loadedMessages
  cases parseKv KvValue.messages? res with
  | error => exact ⟨rfl,by simp [isRead]⟩
  | ok list => cases list <;> exact ⟨hk,by simp [isRead]⟩

theorem latched_addContact (x : Crates) (amb : Ambient) (input nickname : String) (m : Model)
    (hk : m.kvLoadFailed = true) : Latched (addContact x amb input nickname m) := by
  simp only [addContact]
  split
  · exact latched_refuse _ _ hk
  split
  · exact latched_refuse _ _ hk
  split
  · exact latched_refuse _ _ hk
  · exact (latched_guarded _ _ (by exact hk)).and latched_render

theorem latched_setBlocked (peer : String) (blocked : Bool) (m : Model)
    (hk : m.kvLoadFailed = true) : Latched (setBlocked peer blocked m) := by
  simp only [setBlocked]
  split
  · refine (latched_guarded _ _ ?_).and fun m hk =>
      (latched_guarded _ m hk).and latched_render
    obtain ⟨_,h⟩ := removeItems_eq
      { m with contacts := blockContact peer blocked m.contacts, error := none } peer
    rw [h]
    exact hk
  · exact (latched_guarded _ _ (by exact hk)).and latched_render

theorem latched_saveProfile (x : Crates) (amb : Ambient) (displayName bio : String)
    (photo : Option String) (m : Model) (hk : m.kvLoadFailed = true) :
    Latched (saveProfile x amb displayName bio photo m) := by
  simp only [saveProfile]
  repeat' split
  iterate 4 exact latched_refuse _ _ hk
  exact (latched_guarded _ _ (by exact hk)).and fun m hk => (latched_guarded _ m hk).and
    (latched_emit (by simp [isRead]))

theorem latched_sendText (x : Crates) (amb : Ambient) (m : Model)
    (hk : m.kvLoadFailed = true) : Latched (sendText x amb m) := by
  unfold sendText
  split
  · exact ⟨hk,by simp [isRead]⟩
  simp only
  split
  · exact latched_refuse _ _ hk
  split
  · exact ⟨hk,by simp [isRead]⟩
  split
  · exact latched_refuse _ _ hk
  split
  · exact latched_refuse _ _ hk
  · refine (latched_guarded _ _ ?_).and fun m hk => (latched_guarded _ m hk).and fun m hk =>
      (latched_guarded _ m hk).and (latched_emit (by simp [isRead]))
    simp only [Model.writeText]
    split <;> exact hk

theorem latched_retryBatch (x : Crates) (amb : Ambient) (batch : Option InFlight) (m : Model)
    (hk : m.kvLoadFailed = true) : Latched (retryBatch x amb batch m) := by
  cases batch with
  | none => exact latched_render m hk
  | some batch =>
    simp only [retryBatch]
    split
    · exact (latched_guarded _ _ (by exact hk)).and latched_render
    · exact ((latched_guarded _ _ (by exact hk)).and
        (latched_flushNext x _)).and latched_render

theorem latched_sendResult (x : Crates) (amb : Ambient) (gen : UInt64) (res : HttpResult)
    (m : Model) (hk : m.kvLoadFailed = true) : Latched (sendResult x amb gen res m) := by
  simp only [sendResult]
  split
  · exact ⟨hk,readsOnly_nil⟩
  cases res with
  | err => exact latched_retryBatch x amb _ _ hk
  | ok resp =>
    simp only
    split
    · exact ⟨hk,by simp [isRead]⟩
    split
    · unfold rateLimited
      split
      exact ⟨hk,by simp [isRead]⟩
    split
    · exact latched_flushNext x amb _ hk
    split
    · simp only [sendDone]
      refine Latched.and (latched_guarded _ _ ?_) (latched_flushNext x amb)
      split <;> exact hk
    · exact latched_retryBatch x amb _ _ hk

/-- No page is ingested while the latch is set, and its cursor is not adopted. -/
theorem latched_pollResult (x : Crates) (amb : Ambient) (gen : UInt64) (res : HttpResult)
    (m : Model) (hk : m.kvLoadFailed = true) : Latched (pollResult x amb gen res m) := by
  simp only [pollResult]
  split
  · exact ⟨hk,readsOnly_nil⟩
  cases res with
  | err => exact ⟨hk,by simp [backoffPoll, isRead]⟩
  | ok resp =>
    simp only
    split
    · exact ⟨hk,by simp [isRead]⟩
    split
    · exact ⟨hk,by simp [backoffPoll, isRead]⟩
    · exact ⟨hk,by simp [isRead]⟩

def Event.isDelete : Event → Bool
  | .deleteContact _ => true
  | _ => false

/-- While the latch is set, an event other than the identity keeps it set, and asks the store
for reads only unless it deletes a contact. -/
theorem update_latched (x : Crates) (amb : Ambient) {e : Event} {m : Model}
    (hk : m.kvLoadFailed = true) (he : ∀ sk, e ≠ .identityLoaded sk) :
    (update x amb e m).1.kvLoadFailed = true ∧
      (e.isDelete = false → ReadsOnly (update x amb e m).2) := by
  suffices h : Latched (update x amb e m) ∨ e.isDelete = true ∧
      (update x amb e m).1.kvLoadFailed = true by
    rcases h with h | ⟨he,h⟩
    · exact ⟨h.1,fun _ => h.2⟩
    · exact ⟨h,by simp [he]⟩
  cases e with
  | deleteContact peer =>
    refine .inr ⟨rfl,?_⟩
    obtain ⟨_,_,_,_,h⟩ := forgetPeer_eq m peer
    change (deleteContact peer m).1.kvLoadFailed = true
    rw [deleteContact_fst, Model.refused_eq, h]
    exact hk
  | identityLoaded sk => exact absurd rfl (he sk)
  | showConversations | showSettings | showAddContact | showEditProfile | back | openChat
  | composeChanged => exact .inl ⟨hk,by
      simp [update, showConversations, showPage, openChat, composeChanged, isRead]⟩
  | sendText => exact .inl (latched_sendText x amb m hk)
  | addContact input nickname => exact .inl (latched_addContact x amb input nickname m hk)
  | setBlocked peer blocked => exact .inl (latched_setBlocked peer blocked m hk)
  | saveProfile displayName bio photo =>
    exact .inl (latched_saveProfile x amb displayName bio photo m hk)
  | setServerUrl url =>
    refine .inl ?_
    simp only [update, setServerUrl]
    split
    · exact latched_refuse _ _ hk
    · exact (latched_guarded _ _ (by exact hk)).and (latched_emit (by simp [isRead]))
  | connect =>
    refine .inl ⟨by rw [update, connect_fst]; exact hk,?_⟩
    simp only [update, connect]
    repeat' split
    all_goals simp [isRead]
  | loadedSettings res | loadedProfile res | loadedCursor res | loadedOutbox res
  | loadedSeenIds res =>
    refine .inl (latched_loaded ?_ ?_ res m hk)
    · exact fun _ _ => rfl
    · exact fun _ h => by first | exact h | rfl
  | loadedContacts res => exact .inl (latched_loadedContacts res m hk)
  | loadedMessages peer res => exact .inl (latched_loadedMessages peer res m hk)
  | saved res => cases res <;> exact .inl ⟨hk,by simp [update, saved, isRead]⟩
  | savedCursor res =>
    cases res <;> exact .inl ⟨hk,by simp [update, savedCursor, backoffPoll, isRead]⟩
  | authenticate =>
    obtain ⟨_,_,_,_,_,h⟩ := authenticate_fst x m
    refine .inl ⟨by rw [update, h]; exact hk,?_⟩
    simp only [update, authenticate]
    repeat' split
    all_goals simp [authFailedWith, authFailed, scheduleReconnect, isRead]
  | authWatchdog gen =>
    refine .inl ?_
    simp only [update, authWatchdog]
    split <;> exact ⟨hk,by simp [isRead]⟩
  | challengeResult gen res =>
    obtain ⟨_,_,_,_,h⟩ := challengeResult_fst x gen res m
    refine .inl ⟨by rw [update, h]; exact hk,?_⟩
    simp only [update, challengeResult]
    repeat' split
    all_goals simp [authFailedWith, authFailed, scheduleReconnect, isRead]
  | verifyResult gen res =>
    obtain ⟨_,_,_,_,_,h⟩ := verifyResult_fst x gen res m
    refine .inl ⟨by rw [update, h]; exact hk,?_⟩
    simp only [update, verifyResult]
    repeat' split
    all_goals simp [authFailed, scheduleReconnect, isRead]
  | poll =>
    obtain ⟨_,_,_,_,_,h⟩ := poll_fst x m
    refine .inl ⟨by rw [update, h]; exact hk,?_⟩
    simp only [update, poll]
    repeat' split
    all_goals simp [backoffPoll, isRead]
  | pollWatchdog gen =>
    refine .inl ?_
    simp only [update, pollWatchdog]
    split <;> exact ⟨hk,by simp [isRead]⟩
  | pollResult gen res => exact .inl (latched_pollResult x amb gen res m hk)
  | startFlush => exact .inl (latched_flushNext x amb m hk)
  | flushWatchdog gen =>
    refine .inl ?_
    simp only [update, flushWatchdog]
    split
    · exact ⟨hk,readsOnly_nil⟩
    · exact latched_flushNext x amb _ hk
  | sendResult gen res => exact .inl (latched_sendResult x amb gen res m hk)

/-- The result of a read that failed, or that no value of the key's type could be read from,
for every key but the dedup sets. -/
def Event.failedRead : Event → Bool
  | .loadedSettings res => (parseKv KvValue.settings? res).isOk = false
  | .loadedProfile res => (parseKv KvValue.profile? res).isOk = false
  | .loadedContacts res => (parseKv KvValue.contacts? res).isOk = false
  | .loadedCursor res => (parseKv KvValue.cursor? res).isOk = false
  | .loadedOutbox res => (parseKv KvValue.outbox? res).isOk = false
  | .loadedMessages _ res => (parseKv KvValue.messages? res).isOk = false
  | _ => false

theorem loaded_latches {α : Type} {decode : KvValue → Option α} {install : α → Model → Model}
    {failed : Model → Model} (hf : ∀ m, (failed m).kvLoadFailed = true) {res : KvData}
    (h : (parseKv decode res).isOk = false) (m : Model) :
    (loaded decode install failed res m).1.kvLoadFailed = true := by
  rw [loaded_eq]
  obtain ⟨_,hd⟩ := startupDone_fst (loadedModel decode install failed res m)
  change (startupDone (loadedModel decode install failed res m)).1.kvLoadFailed = true
  rw [hd]
  unfold loadedModel
  cases hp : parseKv decode res with
  | error => exact hf m
  | ok a => simp [hp, Except.isOk, Except.toBool] at h

/-- A failed read sets the latch. -/
theorem update_latches (x : Crates) (amb : Ambient) {e : Event} (he : e.failedRead = true)
    (m : Model) : (update x amb e m).1.kvLoadFailed = true := by
  cases e with
  | loadedSettings res | loadedProfile res | loadedCursor res | loadedOutbox res =>
    exact loaded_latches (fun _ => rfl) (by simpa [Event.failedRead] using he) m
  | loadedContacts res =>
    have h : (parseKv KvValue.contacts? res).isOk = false := by
      simpa [Event.failedRead] using he
    simp only [update, loadedContacts]
    cases hp : parseKv KvValue.contacts? res with
    | error => rfl
    | ok a => simp [hp, Except.isOk, Except.toBool] at h
  | loadedMessages peer res =>
    have h : (parseKv KvValue.messages? res).isOk = false := by
      simpa [Event.failedRead] using he
    simp only [update, loadedMessages]
    cases hp : parseKv KvValue.messages? res with
    | error => rfl
    | ok a => simp [hp, Except.isOk, Except.toBool] at h
  | _ => cases he

/-- The identity comes from the shell only. -/
theorem Wakes.identityLoaded {x : Crates} {c d : Running} {act : Action Event Answer} {e : Event}
    (hq : Wakes c) (ht : Core.Takes (app x) c act e d)
    (ha : ∀ sk, act ≠ .shell (.identityLoaded sk)) (sk : Bytes) : e ≠ .identityLoaded sk := by
  rintro rfl
  cases ht with
  | drain hq' =>
    have := hq (.identityLoaded sk) (by simp [hq'])
    simp [Event.isWake] at this
  | shell => exact ha sk rfl
  | @answer _ r f _ _ _ he =>
    rcases f with ⟨_,tag⟩ | ⟨_,tag⟩ | ⟨_,tag⟩ <;> cases r <;>
      simp only [app, answer, Option.some.injEq, reduceCtorEq] at he <;> cases tag <;>
      simp [HttpTag.event, KvTag.event, TimeTag.event] at he

theorem identityLoaded_readsOnly (x : Crates) (sk : Bytes) (m : Model) :
    ReadsOnly (identityLoaded x sk m).2 := by
  unfold identityLoaded
  split <;> simp [load, isRead, KvOp.isGet]

/-- The latch stays set in every run without a new identity. -/
theorem latched_run {x : Crates} {ms : List Label} {c d : Running} (hq : Wakes c)
    (hk : c.model.kvLoadFailed = true) (hms : ∀ l ∈ ms, ∀ sk, l.2 ≠ .shell (.identityLoaded sk))
    (hrun : Lts.run (step x) c ms = some d) : d.model.kvLoadFailed = true := by
  have halong : Lts.Along (step x) (fun _ l => ∀ sk, l.2 ≠ .shell (.identityLoaded sk)) c ms :=
    Lts.along_of_forall (step x) hms
  refine (Lts.run_invariant_along (step x)
    (I := fun c : Running => Wakes c ∧ c.model.kvLoadFailed = true) ?_ ⟨hq,hk⟩ halong hrun).2
  rintro c ⟨amb,act⟩ d ⟨hq,hk⟩ ha hs
  refine ⟨hq.step hs,?_⟩
  obtain ⟨e,c₁,ht,rfl⟩ := Core.step_cases hs
  rw [process_model ht]
  exact (update_latched x amb hk (hq.identityLoaded ht ha)).1

/-- Of what the deletion of a contact asks of the store, the latch lets through that of the conversation. -/
theorem deleteContact_latched (peer : String) {m : Model} (hk : m.kvLoadFailed = true) :
    Cmd.requests (deleteContact peer m).2 = [.kv (.delete (.messages peer)) .saved] := by
  obtain ⟨_,_,_,_,h⟩ := forgetPeer_eq m peer
  have hforgotten : (m.forgetPeer peer).kvLoadFailed = true := by rw [h]; exact hk
  simp only [deleteContact, Upd.and_snd, Upd.emit_fst, Upd.emit_snd, persistContacts,
    persistOutbox, persistSeenIds, guarded_fst, guarded_snd, Model.refused_refused, hforgotten, if_true,
    show (m.forgetPeer peer).refused.kvLoadFailed = true by rw [Model.refused_eq]; exact hforgotten]
  rfl

/-- From a failed read until the next identity, no step asks the store for anything but a read, and the
deletion of a contact for that of its conversation. -/
theorem failed_read_never_overwritten {x : Crates} {ls ms : List Label} {l k : Label}
    {c c₁ d d₁ : Running} {e e' : Event} (hrun : runFromBoot x ls = some c)
    (hl : step x c l = some c₁) (he : c.event? (app x) l.2 = some e) (hf : e.failedRead = true)
    (hms : ∀ l ∈ ms, ∀ sk, l.2 ≠ .shell (.identityLoaded sk))
    (hrun' : Lts.run (step x) c₁ ms = some d) (hk : step x d k = some d₁)
    (he' : d.event? (app x) k.2 = some e') :
    ∀ t op tag, (t,.kv op tag) ∈ d₁.pending → (t,.kv op tag) ∈ d.pending ∨ op.isGet = true ∨
      ∃ peer, e' = .deleteContact peer ∧ op = .delete (.messages peer) := by
  have hq := (wakes_run hrun).step hl
  have hlatch : c₁.model.kvLoadFailed = true := by
    obtain ⟨_,ht,rfl⟩ := Core.step_event hl he
    rw [process_model ht]
    exact update_latches x l.1 hf c.model
  have hlatch := latched_run hq hlatch hms hrun'
  obtain ⟨d',ht,rfl⟩ := Core.step_event hk he'
  intro t op tag hp
  rcases Core.mem_process_pending hp with hp | ⟨hp,-⟩
  · exact .inl (ht.mem_pending hp)
  rw [ht.model_eq] at hp
  right
  by_cases hid : ∃ sk, e' = .identityLoaded sk
  · obtain ⟨sk,rfl⟩ := hid
    exact .inl ((identityLoaded_readsOnly x sk d.model).requests hp)
  by_cases hdelete : ∃ peer, e' = .deleteContact peer
  · obtain ⟨peer,rfl⟩ := hdelete
    have hp : .kv op tag ∈ Cmd.requests (deleteContact peer d.model).2 := hp
    rw [deleteContact_latched peer hlatch, List.mem_singleton] at hp
    exact .inr ⟨peer,rfl,(Effect.kv.inj hp).1⟩
  · have hne : e'.isDelete = false := by
      cases e' with
      | deleteContact peer => exact absurd ⟨peer,rfl⟩ hdelete
      | _ => rfl
    exact .inl (((update_latched x k.1 hlatch fun sk h => hid ⟨sk,h⟩).2 hne).requests hp)

/-- The settings cannot be read at launch, and a contact is deleted later. -/
theorem locked_settings_never_overwritten :
    ∃ c d d₁, runFromBoot .sample (sampleLabels [.shell (.identityLoaded sampleSecret)]) = some c ∧
      Lts.run (step .sample) c (sampleLabels [.answer 0 (.kv (.error "locked")),
        .shell .connect,.shell (.setBlocked "p" true)]) = some d ∧
      step .sample d (.sample,.shell (.deleteContact "p")) = some d₁ ∧
      ∀ t op tag, (t,.kv op tag) ∈ d₁.pending → (t,.kv op tag) ∈ d.pending ∨ op.isGet = true ∨
        op = .delete (.messages "p") := by
  have h : (runFromBoot .sample (sampleLabels [.shell (.identityLoaded sampleSecret)])).any
      (fun c => (c.event? (app .sample) (.answer 0 (.kv (.error "locked")))).any
        Event.failedRead &&
      (step .sample c (.sample,.answer 0 (.kv (.error "locked")))).any fun c₁ =>
      (Lts.run (step .sample) c₁ (sampleLabels [.shell .connect,.shell (.setBlocked "p" true)])).any
        fun d => d.queue.isEmpty && (step .sample d (.sample,.shell (.deleteContact "p"))).isSome) =
      true := by
    decide
  simp only [Option.any_eq_true, Bool.and_eq_true, Option.isSome_iff_exists] at h
  obtain ⟨c,hc,⟨e,he,hf⟩,c₁,hc₁,d,hd,hq,d₁,hd₁⟩ := h
  have he' : d.event? (app .sample) (.shell (.deleteContact "p")) = some (.deleteContact "p") := by
    simp [Core.event?, Core.take, List.isEmpty_iff.mp hq, app, fromShell]
  refine ⟨c,d,d₁,hc,(Lts.run_cons_eq_some _).mpr ⟨c₁,hc₁,hd⟩,hd₁,fun t op tag hp => ?_⟩
  obtain hold | hget | ⟨peer,hpeer,hop⟩ :=
    failed_read_never_overwritten hc hc₁ he hf (by simp [sampleLabels]) hd hd₁ he' t op tag hp
  · exact .inl hold
  · exact .inr (.inl hget)
  · obtain rfl := Event.deleteContact.inj hpeer
    exact .inr (.inr hop)

def Effect.isWrite : Effect → Bool
  | .kv op _ => !op.isGet
  | _ => false

/-- The read of the dedup sets comes back as an error, and blocking a contact writes; the read
of the settings does, and deleting a contact deletes. -/
theorem failed_read_then_written :
    (runFromBoot .sample (sampleLabels [.shell (.identityLoaded sampleSecret)])).any (fun c =>
      (c.event? (app .sample) (.answer 5 (.kv (.error "locked")))).any
        (fun e => e matches .loadedSeenIds (.error _)) &&
      (Lts.run (step .sample) c (sampleLabels [.answer 5 (.kv (.error "locked")),
        .shell (.setBlocked "p" true)])).any
          (fun d => d.pending.any (fun p => p.2.isWrite)) &&
      (c.event? (app .sample) (.answer 0 (.kv (.error "locked")))).any
        (fun e => e matches .loadedSettings (.error _)) &&
      (Lts.run (step .sample) c (sampleLabels [.answer 0 (.kv (.error "locked")),
        .shell (.deleteContact "p")])).any
          (fun d => d.pending.any (fun p => p.2.isWrite))) = true := by decide

end Skrepka.Client
