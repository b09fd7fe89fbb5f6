import Skrepka.Client.Frame

/-! The three loops of the client: polling, authenticating and sending. Each keeps one round trip
going at a time, and only twelve of the events can move a guard. -/
namespace Skrepka.Client
open Rust Mvu

/-- The events that the core queues for itself. -/
def Event.isWake : Event → Bool
  | .connect | .authenticate | .poll | .startFlush => true
  | _ => false

/-- The timers that are not watchdogs. -/
def TimeTag.isWake : TimeTag → Bool
  | .authenticate | .poll | .startFlush => true
  | _ => false

/-- A command that neither starts a round trip nor arms a watchdog. -/
def isLocal : Cmd Event Effect → Bool
  | .event e => e.isWake
  | .request (.http _ _) => false
  | .request (.kv _ _) => true
  | .request (.time _ tag) => tag.isWake
  | .render => true

def Local (cs : Commands) : Prop := ∀ c ∈ cs, isLocal c = true

@[simp] theorem local_nil : Local [] := by simp [Local]

@[simp] theorem local_cons {c : Cmd Event Effect} {cs : Commands} :
    Local (c :: cs) ↔ isLocal c = true ∧ Local cs := by simp [Local]

@[simp] theorem local_append {cs ds : Commands} :
    Local (cs ++ ds) ↔ Local cs ∧ Local ds := by simp [Local, or_imp, forall_and]

theorem Writes.local {cs : Commands} (h : Writes cs) : Local cs := by
  intro c hc
  obtain ⟨key,value,rfl⟩ := h c hc
  rfl

/-- The guards of the three loops. -/
structure Guards where
  poll : Guard
  auth : Guard
  send : Guard

def Model.guards (m : Model) : Guards :=
  ⟨⟨m.polling,m.pollGen⟩,⟨m.authenticating,m.authGen⟩,⟨m.flushing,m.flushGen⟩⟩

/-- An outcome that moves no guard and starts nothing. -/
def Still (m : Model) (r : Model × Commands) : Prop := r.1.guards = m.guards ∧ Local r.2

theorem Still.and {m : Model} {f g : Handler} (hf : Still m (f m)) (hg : ∀ m, Still m (g m)) :
    Still m (f.and g m) :=
  ⟨(hg (f m).1).1.trans hf.1,local_append.mpr ⟨hf.2,(hg (f m).1).2⟩⟩

theorem Still.of_guards {m m' : Model} {r : Model × Commands} (h : Still m' r)
    (hm : m'.guards = m.guards) : Still m r := ⟨h.1.trans hm,h.2⟩

theorem still_emit {cs : Commands} (h : Local cs) (m : Model) : Still m (Upd.emit cs m) := ⟨rfl,h⟩

@[simp] theorem refused_guards (m : Model) : m.refused.guards = m.guards := by
  rw [m.refused_eq]
  rfl

theorem still_guarded (ops : Model → List KvOp) (m : Model) : Still m (guarded ops m) := by
  refine ⟨by simp,?_⟩
  rw [guarded_snd]
  split
  · exact local_nil
  · intro c hc
    obtain ⟨op,-,rfl⟩ := List.mem_map.mp hc
    rfl

theorem still_render (m : Model) : Still m (Upd.emit [.render] m) := still_emit (by simp [isLocal]) m

theorem startupDone_still (m : Model) : Still m (startupDone m) := by
  unfold startupDone Model.startupLoadDone
  by_cases h : m.loadsPending = 0
  · simp [h, Still]
  · simp only [h, if_false]
    split
    · rename_i heq
      obtain ⟨rfl,-⟩ := Prod.mk.inj heq
      exact ⟨rfl,local_nil⟩
    · rename_i heq
      obtain ⟨rfl,-⟩ := Prod.mk.inj heq
      split <;> exact ⟨rfl,by simp [isLocal, Event.isWake]⟩

theorem loaded_still {α : Type} {decode : KvValue → Option α} {install : α → Model → Model}
    {failed : Model → Model} (hi : ∀ a m, (install a m).guards = m.guards)
    (hf : ∀ m, (failed m).guards = m.guards) (res : KvData) (m : Model) :
    Still m (loaded decode install failed res m) := by
  simp only [loaded]
  cases parseKv decode res with
  | error => exact ((startupDone_still _).and still_render).of_guards (hf m)
  | ok a =>
    cases a with
    | none => exact (startupDone_still _).and still_render
    | some a => exact ((startupDone_still _).and still_render).of_guards (hi a m)

theorem loadedContacts_still (res : KvData) (m : Model) : Still m (loadedContacts res m) := by
  obtain ⟨hg,hl⟩ := startupDone_still m
  unfold loadedContacts
  cases parseKv KvValue.contacts? res with
  | error => exact ⟨hg,by simp [hl, isLocal]⟩
  | ok list =>
    cases list with
    | none => exact ⟨hg,by simp [hl, isLocal]⟩
    | some list =>
      refine ⟨hg,?_⟩
      simp only [local_append, local_cons, local_nil]
      refine ⟨⟨hl,fun c hc => ?_⟩,rfl,trivial⟩
      obtain ⟨peer,-,rfl⟩ := List.mem_map.mp hc
      rfl

theorem loadedMessages_still (peer : String) (res : KvData) (m : Model) :
    Still m (loadedMessages peer res m) := by
  unfold loadedMessages
  cases parseKv KvValue.messages? res with
  | error => exact ⟨rfl,by simp [isLocal]⟩
  | ok list => cases list <;> exact ⟨rfl,by simp [isLocal]⟩

theorem refuse_still (error : String) (m : Model) : Still m (refuse error m) :=
  ⟨rfl,by simp [refuse, isLocal]⟩

theorem backoffPoll_still (m : Model) : Still m (backoffPoll m) :=
  ⟨rfl,by simp [backoffPoll, isLocal, TimeTag.isWake]⟩

theorem authFailed_still (m : Model) : Still m (authFailed m) :=
  ⟨rfl,by simp [authFailed, scheduleReconnect, isLocal, TimeTag.isWake]⟩

theorem addContact_still (x : Crates) (amb : Ambient) (input nickname : String) (m : Model) :
    Still m (addContact x amb input nickname m) := by
  simp only [addContact]
  split
  · exact refuse_still _ _
  split
  · exact refuse_still _ _
  split
  · exact refuse_still _ _
  · exact ((still_guarded _ _).and still_render).of_guards rfl

@[simp] theorem removeItems_guards (m : Model) (peer : String) :
    (m.removeItems peer).guards = m.guards := by
  unfold Model.removeItems Model.detachInFlight
  split <;> rfl

theorem setBlocked_still (peer : String) (blocked : Bool) (m : Model) :
    Still m (setBlocked peer blocked m) := by
  simp only [setBlocked]
  split
  · exact ((still_guarded _ _).and fun m => (still_guarded _ m).and still_render).of_guards
      (removeItems_guards _ _)
  · exact (still_guarded _ _).and still_render

@[simp] theorem forgetPeer_guards (m : Model) (peer : String) :
    (m.forgetPeer peer).guards = m.guards := by
  simp only [Model.forgetPeer]
  split <;> exact removeItems_guards _ _

theorem deleteContact_still (peer : String) (m : Model) : Still m (deleteContact peer m) :=
  ((still_guarded _ _).and fun m => (still_emit (by simp [isLocal]) m).and fun m =>
    (still_guarded _ m).and fun m => (still_guarded _ m).and still_render).of_guards
      (forgetPeer_guards m peer)

theorem saveProfile_still (x : Crates) (amb : Ambient) (displayName bio : String)
    (photo : Option String) (m : Model) : Still m (saveProfile x amb displayName bio photo m) := by
  simp only [saveProfile]
  repeat' split
  iterate 4 exact refuse_still _ _
  exact ((still_guarded _ _).and fun m => (still_guarded _ m).and
    (still_emit (by simp [isLocal, Event.isWake]))).of_guards rfl

@[simp] theorem writeText_guards (x : Crates) (ts : ℤ) (id peer body : String) (m : Model) :
    (m.writeText x ts id peer body).guards = m.guards := by
  simp only [Model.writeText]
  split <;> rfl

theorem sendText_still (x : Crates) (amb : Ambient) (m : Model) : Still m (sendText x amb m) := by
  unfold sendText
  split
  · exact ⟨rfl,by simp [isLocal]⟩
  simp only
  split
  · exact refuse_still _ _
  split
  · exact ⟨rfl,by simp [isLocal]⟩
  split
  · exact refuse_still _ _
  split
  · exact refuse_still _ _
  · exact ((still_guarded _ _).and fun m => (still_guarded _ m).and fun m =>
      (still_guarded _ m).and (still_emit (by simp [isLocal, Event.isWake]))).of_guards
        (writeText_guards x _ _ _ _ _)

theorem identityLoaded_still (x : Crates) (sk : Bytes) (m : Model) :
    Still m (identityLoaded x sk m) := by
  unfold identityLoaded
  split
  · exact ⟨rfl,by simp [isLocal]⟩
  · exact ⟨rfl,by simp [load, isLocal]⟩

/-- The events that can move a guard or start a round trip. -/
def Event.isActive : Event → Bool
  | .setServerUrl _ | .connect | .authenticate | .poll | .pollWatchdog _ | .startFlush
  | .flushWatchdog _ | .authWatchdog _ | .challengeResult _ _ | .verifyResult _ _
  | .pollResult _ _ | .sendResult _ _ => true
  | _ => false

/-- Every other event leaves the loops alone. -/
theorem update_still (x : Crates) (amb : Ambient) {e : Event} (he : e.isActive = false)
    (m : Model) : Still m (update x amb e m) := by
  cases e with
  | identityLoaded sk => exact identityLoaded_still x sk m
  | showConversations | showSettings | showAddContact | showEditProfile | back =>
    exact ⟨rfl,by simp [update, showConversations, showPage, isLocal]⟩
  | openChat peer => exact ⟨rfl,by simp [update, openChat, showPage, isLocal]⟩
  | composeChanged s => exact ⟨rfl,by simp [update, composeChanged, isLocal]⟩
  | sendText => exact sendText_still x amb m
  | addContact input nickname => exact addContact_still x amb input nickname m
  | setBlocked peer blocked => exact setBlocked_still peer blocked m
  | deleteContact peer => exact deleteContact_still peer m
  | saveProfile displayName bio photo => exact saveProfile_still x amb displayName bio photo m
  | loadedSettings res | loadedProfile res | loadedCursor res | loadedOutbox res
  | loadedSeenIds res => exact loaded_still (by intros; rfl) (by intros; rfl) res m
  | loadedContacts res => exact loadedContacts_still res m
  | loadedMessages peer res => exact loadedMessages_still peer res m
  | saved res =>
    cases res with
    | error => exact ⟨rfl,by simp [update, saved, isLocal]⟩
    | ok => exact ⟨rfl,local_nil⟩
  | savedCursor res =>
    cases res with
    | error => exact (backoffPoll_still _).of_guards rfl
    | ok => exact ⟨rfl,by simp [update, savedCursor, Upd.emit, isLocal, Event.isWake]⟩
  | _ => cases he

theorem poll_cases (x : Crates) (m : Model) :
    Still m (poll x m) ∨ ∃ token, m.polling = false ∧ m.token = some token ∧
      poll x m = ({ m with polling := true, pollGen := m.pollGen+1 },
        [.request (.http (pollRequest m token) (.pollResult (m.pollGen+1))),
          .request (.time pollWatchdogMs (.pollWatchdog (m.pollGen+1)))]) := by
  unfold poll
  split
  · exact .inl ⟨rfl,local_nil⟩
  rename_i hp
  split
  · exact .inl ⟨rfl,by simp [isLocal, Event.isWake]⟩
  rename_i token htoken
  simp only
  split
  · exact .inr ⟨token,by simpa using hp,htoken,rfl⟩
  · exact .inl (backoffPoll_still _)

theorem authenticate_cases (x : Crates) (m : Model) :
    Still m (authenticate x m) ∨ ∃ req conn error, m.authenticating = false ∧
      authenticate x m = ({ m with conn, error, authenticating := true, authGen := m.authGen+1 },
        [.request (.http req (.challengeResult (m.authGen+1))),
          .request (.time authWatchdogMs (.authWatchdog (m.authGen+1))),.render]) := by
  unfold authenticate
  split
  · exact .inl ⟨rfl,local_nil⟩
  rename_i ha
  split
  · exact .inl ⟨rfl,by simp [isLocal]⟩
  simp only
  split
  · exact .inr ⟨_,_,_,by simpa using ha,rfl⟩
  · exact .inl (authFailed_still _)

theorem challengeResult_cases (x : Crates) (res : HttpResult) (m : Model) :
    Still { m with authenticating := false } (challengeResult x m.authGen res m) ∨
      ∃ req, challengeResult x m.authGen res m =
        ({ m with authenticating := true },[.request (.http req (.verifyResult m.authGen))]) := by
  simp only [challengeResult, ne_eq, not_true_eq_false, if_false]
  cases res with
  | err => exact .inl (authFailed_still _)
  | ok resp =>
    simp only
    split
    · exact .inl ⟨rfl,by simp [isLocal]⟩
    split
    · exact .inl (authFailed_still _)
    split
    · exact .inl (authFailed_still _)
    split
    · exact .inr ⟨_,rfl⟩
    · exact .inl (authFailed_still _)

theorem verifyResult_still (x : Crates) (res : HttpResult) (m : Model) :
    Still { m with authenticating := false } (verifyResult x m.authGen res m) := by
  simp only [verifyResult, ne_eq, not_true_eq_false, if_false]
  cases res with
  | err => exact authFailed_still _
  | ok resp =>
    simp only
    split
    · exact authFailed_still _
    split
    · exact authFailed_still _
    · exact ⟨rfl,by simp [isLocal, Event.isWake]⟩

theorem Model.Ingested.guards {m m' : Model} (h : m.Ingested m') : m'.guards = m.guards := by
  obtain ⟨_,_,_,_,_,_,rfl,-⟩ := h
  rfl

theorem pollPage_still (x : Crates) (amb : Ambient) (page : PollResp) (m : Model) :
    Still m (pollPage x amb page m) := by
  obtain ⟨m',ws,es,heq,hm,hw,hes⟩ := ingestPoll_cases x amb page m
  have hes : Local es := by rcases hes with rfl | rfl <;> simp [isLocal, Event.isWake]
  simp only [pollPage, heq]
  refine ⟨hm.guards,?_⟩
  simp only [local_append, local_cons, local_nil]
  refine ⟨⟨hw.local,hes⟩,?_,rfl,rfl,trivial⟩
  split <;> rfl

theorem pollResult_still (x : Crates) (amb : Ambient) (res : HttpResult) (m : Model) :
    Still { m with polling := false } (pollResult x amb m.pollGen res m) := by
  simp only [pollResult, ne_eq, not_true_eq_false, if_false]
  cases res with
  | err => exact backoffPoll_still _
  | ok resp =>
    simp only
    split
    · exact ⟨rfl,by simp [isLocal, Event.isWake]⟩
    split
    · exact backoffPoll_still _
    split
    · exact ⟨rfl,by simp [isLocal]⟩
    split
    · exact backoffPoll_still _
    split
    · exact backoffPoll_still _
    · exact (pollPage_still x amb _ _).of_guards rfl

theorem connect_guards (m : Model) :
    (connect m).1.guards = { m.guards with auth := ⟨false,m.authGen+1⟩ } ∧
      Local (connect m).2 := by
  simp only [connect]
  repeat' split
  all_goals exact ⟨rfl,by simp [isLocal, Event.isWake]⟩

theorem setServerUrl_guards (x : Crates) (url : String) (m : Model) :
    Still m (setServerUrl x url m) ∨
      (setServerUrl x url m).1.guards =
        ⟨⟨false,m.pollGen+1⟩,m.guards.auth,⟨false,m.flushGen+1⟩⟩ ∧
      Local (setServerUrl x url m).2 := by
  unfold setServerUrl
  split
  · exact .inl (refuse_still _ _)
  · rename_i url' _
    exact .inr ((still_guarded _ (m.switchRelay url')).and
      (still_emit (by simp [isLocal, Event.isWake])))

end Skrepka.Client
