import Skrepka.Client.Fields
import Skrepka.Client.Loops

/-! The client never goes quiet: once it is loaded, something that leads to another poll is always
pending, whatever the shell drops. -/
namespace Skrepka.Client
open Rust Mvu

/-- The identity, or the result of a load. -/
def Event.isLoad : Event → Bool
  | .identityLoaded _ | .loadedSettings _ | .loadedProfile _ | .loadedContacts _
  | .loadedCursor _ | .loadedOutbox _ | .loadedSeenIds _ | .loadedMessages _ _ => true
  | _ => false

/-- The fields that say whether the client is loaded. -/
@[ext]
structure Startup where
  secretKey : Option Bytes
  loadsPending : ℕ
  kvLoadFailed : Bool

def Model.startup (m : Model) : Startup := ⟨m.secretKey,m.loadsPending,m.kvLoadFailed⟩

theorem update_startup (x : Crates) (amb : Ambient) {e : Event} (he : e.isLoad = false)
    (m : Model) : (update x amb e m).1.startup = m.startup := by
  have hoff : Field.secretKey ∉ e.writes ∧ Field.loadsPending ∉ e.writes ∧
      Field.kvLoadFailed ∉ e.writes := by
    cases e <;> simp_all [Event.isLoad, Event.writes]
  obtain ⟨hs,hl,hk⟩ := hoff
  have h := update_agrees x amb e m
  exact Startup.ext (h .secretKey hs) (h .loadsPending hl) (h .kvLoadFailed hk)

/-- The events that lead to a poll. -/
def Event.leadsToPoll : Event → Bool
  | .connect | .authenticate | .poll => true
  | _ => false

/-- A command that will bring such an event about. -/
def leadsToPoll : Cmd Event Effect → Bool
  | .event e => e.leadsToPoll
  | .request (.time _ tag) => tag.event.leadsToPoll
  | _ => false

/-- After an update, a guard is up or something was asked for that leads to a poll. -/
def AwakeAfter (r : Model × Commands) : Prop :=
  r.1.polling = true ∨ r.1.authenticating = true ∨ ∃ c ∈ r.2, leadsToPoll c = true

theorem awakeAfter_of_guards {m : Model} {r : Model × Commands}
    (hp : r.1.guards.poll = m.guards.poll) (ha : r.1.guards.auth = m.guards.auth)
    (h : m.polling = true ∨ m.authenticating = true) : AwakeAfter r := by
  rcases h with h | h
  · exact .inl ((congrArg Guard.up hp).trans h)
  · exact .inr (.inl ((congrArg Guard.up ha).trans h))

theorem awakeAfter_cons {m : Model} {c : Cmd Event Effect} {cs : Commands}
    (h : leadsToPoll c = true) : AwakeAfter (m,c :: cs) :=
  .inr (.inr ⟨c,List.mem_cons_self,h⟩)

theorem authFailed_awake (m : Model) : AwakeAfter (authFailed m) := awakeAfter_cons rfl

theorem authFailedWith_awake (error : String) (m : Model) :
    AwakeAfter (authFailedWith error m) := awakeAfter_cons rfl

theorem backoffPoll_awake (m : Model) : AwakeAfter (backoffPoll m) := awakeAfter_cons rfl

theorem connect_awake {x : Crates} {m : Model} (hid : (m.identity x).isSome = true)
    (hk : m.kvLoadFailed = false) : AwakeAfter (connect m) := by
  have hs : m.secretKey.isSome = true := by
    cases h : m.secretKey <;> simp [Model.identity, h] at hid ⊢
  simp only [connect, Model.abandonAuth, hk, hs]
  split
  · simp at *
  split
  · exact awakeAfter_cons rfl
  split
  · exact awakeAfter_cons rfl
  · rename_i h₁ h₂
    refine .inl ?_
    cases hp : m.polling <;> simp_all

theorem authenticate_awake {x : Crates} {m : Model} (hid : (m.identity x).isSome = true) :
    AwakeAfter (authenticate x m) := by
  obtain ⟨id,hid⟩ := Option.isSome_iff_exists.mp hid
  simp only [authenticate, hid]
  split
  · rename_i ha
    exact .inr (.inl ha)
  split
  · exact .inr (.inl rfl)
  · exact authFailedWith_awake _ _

theorem poll_awake (x : Crates) (m : Model) : AwakeAfter (poll x m) := by
  simp only [poll]
  split
  · rename_i hp
    exact .inl hp
  split
  · exact awakeAfter_cons rfl
  split
  · exact .inl rfl
  · exact backoffPoll_awake _

theorem challengeResult_awake {x : Crates} {res : HttpResult} {m : Model}
    (hid : (m.identity x).isSome = true) : AwakeAfter (challengeResult x m.authGen res m) := by
  obtain ⟨id,hid⟩ := Option.isSome_iff_exists.mp hid
  have hid' : Model.identity x { m with authenticating := false } = some id := hid
  simp only [challengeResult, ne_eq, not_true_eq_false, if_false, hid']
  cases res with
  | err => exact authFailed_awake _
  | ok resp =>
    simp only
    split
    · exact authFailed_awake _
    split
    · exact authFailedWith_awake _ _
    split
    · exact .inr (.inl rfl)
    · exact authFailedWith_awake _ _

theorem verifyResult_awake (x : Crates) (res : HttpResult) (m : Model) :
    AwakeAfter (verifyResult x m.authGen res m) := by
  simp only [verifyResult, ne_eq, not_true_eq_false, if_false]
  cases res with
  | err => exact authFailed_awake _
  | ok resp =>
    simp only
    split
    · exact authFailed_awake _
    split
    · exact authFailed_awake _
    · exact awakeAfter_cons rfl

theorem pollPage_awake (x : Crates) (amb : Ambient) (page : PollResp) (m : Model) :
    AwakeAfter (pollPage x amb page m) :=
  .inr (.inr ⟨.request (.time pollWatchdogMs .poll),by simp [pollPage],rfl⟩)

theorem pollResult_awake {x : Crates} {amb : Ambient} {res : HttpResult} {m : Model}
    (hk : m.kvLoadFailed = false) : AwakeAfter (pollResult x amb m.pollGen res m) := by
  simp only [pollResult, ne_eq, not_true_eq_false, if_false, hk, Bool.false_eq_true]
  cases res with
  | err => exact backoffPoll_awake _
  | ok resp =>
    simp only
    split
    · exact awakeAfter_cons rfl
    split
    · exact backoffPoll_awake _
    split
    · exact backoffPoll_awake _
    split
    · exact backoffPoll_awake _
    · exact pollPage_awake _ _ _ _

/-- No update of a loaded client puts it to sleep: every exit of every handler that takes a
guard down, and every event that leads to a poll, leaves something armed. -/
theorem update_awake {x : Crates} {amb : Ambient} {e : Event} {m : Model}
    (hid : (m.identity x).isSome = true) (hk : m.kvLoadFailed = false)
    (h : m.polling = true ∨ m.authenticating = true ∨ e.leadsToPoll = true) :
    AwakeAfter (update x amb e m) := by
  by_cases ha : e.isActive = true
  · cases e with
    | connect => exact connect_awake hid hk
    | authenticate => exact authenticate_awake hid
    | poll => exact poll_awake x m
    | setServerUrl url =>
      simp only [Event.leadsToPoll, Bool.false_eq_true, or_false] at h
      simp only [update, setServerUrl]
      split
      · exact awakeAfter_of_guards rfl rfl h
      · refine .inr (.inr ⟨.event .connect,?_,rfl⟩)
        simp
    | pollWatchdog gen =>
      simp only [Event.leadsToPoll, Bool.false_eq_true, or_false] at h
      simp only [update, pollWatchdog]
      split
      · exact awakeAfter_of_guards rfl rfl h
      · exact awakeAfter_cons rfl
    | authWatchdog gen =>
      simp only [Event.leadsToPoll, Bool.false_eq_true, or_false] at h
      simp only [update, authWatchdog]
      split
      · exact awakeAfter_of_guards rfl rfl h
      · exact awakeAfter_cons rfl
    | challengeResult gen res =>
      by_cases hg : gen = m.authGen
      · subst hg
        exact challengeResult_awake hid
      · rw [(update_stale x amb m).2.2.1 gen res hg]
        exact awakeAfter_of_guards rfl rfl (by simpa [Event.leadsToPoll] using h)
    | verifyResult gen res =>
      by_cases hg : gen = m.authGen
      · subst hg
        exact verifyResult_awake x res m
      · rw [(update_stale x amb m).2.2.2.1 gen res hg]
        exact awakeAfter_of_guards rfl rfl (by simpa [Event.leadsToPoll] using h)
    | pollResult gen res =>
      by_cases hg : gen = m.pollGen
      · subst hg
        exact pollResult_awake hk
      · rw [(update_stale x amb m).1 gen res hg]
        exact awakeAfter_of_guards rfl rfl (by simpa [Event.leadsToPoll] using h)
    | startFlush =>
      have hs := flushNext_sendsOnly x amb m
      exact awakeAfter_of_guards hs.poll hs.auth (by simpa [Event.leadsToPoll] using h)
    | flushWatchdog gen =>
      have hs := flushWatchdog_sendsOnly x amb gen m
      exact awakeAfter_of_guards hs.poll hs.auth (by simpa [Event.leadsToPoll] using h)
    | sendResult gen res =>
      by_cases hg : gen = m.flushGen
      · subst hg
        have hs := sendResult_sendsOnly x amb res m
        exact awakeAfter_of_guards hs.poll hs.auth (by simpa [Event.leadsToPoll] using h)
      · rw [(update_stale x amb m).2.1 gen res hg]
        exact awakeAfter_of_guards rfl rfl (by simpa [Event.leadsToPoll] using h)
    | _ => cases ha
  · obtain ⟨hg,-⟩ := update_still x amb (by simpa using ha) m
    have hl : e.leadsToPoll = false := by cases e <;> simp_all [Event.isActive, Event.leadsToPoll]
    exact awakeAfter_of_guards (congrArg Guards.poll hg) (congrArg Guards.auth hg)
      (by simpa [hl] using h)

/-- A guard is up, or something that leads to a poll is on a timer or in the queue. -/
def Awake (c : Running) : Prop :=
  c.model.polling = true ∨ c.model.authenticating = true ∨
  (∃ t ms tag, (t,.time ms tag) ∈ c.pending ∧ tag.event.leadsToPoll = true) ∨
  ∃ e ∈ c.queue, e.leadsToPoll = true

theorem AwakeAfter.awake {x : Crates} {amb : Ambient} {e : Event} {c : Running}
    (h : AwakeAfter (update x amb e c.model)) : Awake (c.process (app x) amb e) := by
  rcases h with h | h | ⟨cmd,hc,hl⟩
  · exact .inl h
  · exact .inr (.inl h)
  · cases cmd with
    | event e' =>
      refine .inr (.inr (.inr ⟨e',Core.mem_process_queue.mpr (.inr ?_),hl⟩))
      exact List.mem_filterMap.mpr ⟨_,hc,rfl⟩
    | request f =>
      have hf : f ∈ Cmd.requests (update x amb e c.model).2 := List.mem_filterMap.mpr ⟨_,hc,rfl⟩
      obtain ⟨t,ht⟩ := Core.exists_mem_process (A := app x) amb e hf
      cases f with
      | time ms tag => exact .inr (.inr (.inl ⟨t,ms,tag,ht,hl⟩))
      | http | kv => simp [leadsToPoll] at hl
    | render => simp [leadsToPoll] at hl

/-- What is on a timer or in the queue stays there while another event is taken. -/
theorem awake_of_waiting {x : Crates} {amb : Ambient} {act : Action Event Answer} {e : Event}
    {c d : Running} (hwf : c.Wf) (ht : Core.Takes (app x) c act e d)
    (he : e.leadsToPoll = false)
    (h : (∃ t ms tag, (t,.time ms tag) ∈ c.pending ∧ tag.event.leadsToPoll = true) ∨
      ∃ e ∈ c.queue, e.leadsToPoll = true) : Awake (d.process (app x) amb e) := by
  rcases h with ⟨t,ms,tag,hp,hl⟩ | ⟨e',he',hl⟩
  · refine .inr (.inr (.inl ⟨t,ms,tag,?_,hl⟩))
    refine Core.mem_process_of_mem amb e (ht.mem_of_ne hwf hp fun r hr => ?_)
    cases r <;> simp only [app, answer, Option.some.injEq, reduceCtorEq] at hr
    rw [hr, he] at hl
    simp at hl
  · refine .inr (.inr (.inr ⟨e',Core.mem_process_queue.mpr (.inl ?_),hl⟩))
    cases ht with
    | drain hq =>
      rw [hq] at he'
      rcases List.mem_cons.mp he' with rfl | he'
      · rw [he] at hl
        simp at hl
      · exact he'
    | shell | answer => exact he'

theorem startupDone_spec (m : Model) :
    (startupDone m).1.startup = ⟨m.secretKey,m.loadsPending-1,m.kvLoadFailed⟩ ∧
      (m.loadsPending = 1 → m.kvLoadFailed = false → .event .connect ∈ (startupDone m).2) ∧
      (.event .connect ∈ (startupDone m).2 → m.loadsPending = 1) := by
  obtain ⟨_,h⟩ := startupDone_fst m
  refine ⟨(congrArg Model.startup h).trans rfl,fun h₁ hk => ?_,fun hc => ?_⟩
  · simp [startupDone, Model.startupLoadDone, h₁, hk]
  · by_contra h₁
    by_cases h₀ : m.loadsPending = 0
    · simp [startupDone, Model.startupLoadDone, h₀] at hc
    · have h₂ : m.loadsPending-1 ≠ 0 := by omega
      simp [startupDone, Model.startupLoadDone, h₀, h₂] at hc

/-- A startup load: it is ticked off, may latch a failure, and connects if and only if it is the
last of loads that did not fail. -/
structure LoadSpec (m : Model) (r : Model × Commands) : Prop where
  secretKey : r.1.secretKey = m.secretKey
  loadsPending : r.1.loadsPending = m.loadsPending-1
  failed : r.1.kvLoadFailed = false → m.kvLoadFailed = false
  last : m.loadsPending = 1 → r.1.kvLoadFailed = false → .event .connect ∈ r.2
  connects : .event .connect ∈ r.2 → m.loadsPending = 1

theorem loaded_spec {α : Type} {decode : KvValue → Option α} {install : α → Model → Model}
    {failed : Model → Model} (hi : ∀ a m, (install a m).startup = m.startup)
    (hf : ∀ m, (failed m).startup = { m.startup with kvLoadFailed := true } ∨
      (failed m).startup = m.startup) (res : KvData) (m : Model) :
    LoadSpec m (loaded decode install failed res m) := by
  rw [loaded_eq]
  have hm : ∃ k, (loadedModel decode install failed res m).startup =
      { m.startup with kvLoadFailed := k } ∧ (k = false → m.kvLoadFailed = false) := by
    unfold loadedModel
    cases parseKv decode res with
    | error => exact (hf m).elim (fun h => ⟨_,h,by simp⟩) (fun h => ⟨m.kvLoadFailed,h,id⟩)
    | ok a =>
      cases a with
      | none => exact ⟨m.kvLoadFailed,rfl,id⟩
      | some a => exact ⟨m.kvLoadFailed,hi a m,id⟩
  obtain ⟨k,hm,hk⟩ := hm
  generalize loadedModel decode install failed res m = m' at hm ⊢
  obtain ⟨hs,hl,hc⟩ := startupDone_spec m'
  have hsk : m'.secretKey = m.secretKey := congrArg Startup.secretKey hm
  have hlp : m'.loadsPending = m.loadsPending := congrArg Startup.loadsPending hm
  have hkf : m'.kvLoadFailed = k := congrArg Startup.kvLoadFailed hm
  have hkd : (startupDone m').1.kvLoadFailed = m'.kvLoadFailed :=
    congrArg Startup.kvLoadFailed hs
  have hpending : (startupDone m').1.loadsPending = m'.loadsPending-1 :=
    congrArg Startup.loadsPending hs
  refine ⟨(congrArg Startup.secretKey hs).trans hsk,hpending.trans (by rw [hlp]),
    fun h => hk ?_,fun h₁ h => ?_,fun h => ?_⟩
  · rw [← hkf, ← hkd]
    exact h
  · exact List.mem_append_left _ (hl (by rw [hlp, h₁]) (hkd ▸ h))
  · exact hlp.symm.trans (hc (by simpa using h))

theorem loadedContacts_spec (res : KvData) (m : Model) : LoadSpec m (loadedContacts res m) := by
  obtain ⟨contacts,k,error,h,hk⟩ := loadedContacts_fst res m
  have hkf : (loadedContacts res m).1.kvLoadFailed = false → m.kvLoadFailed = false := by
    rw [h]
    rintro rfl
    simpa using hk
  refine ⟨by rw [h],by rw [h],hkf,fun h₁ hf => ?_,fun hc => ?_⟩
  swap
  · have hc : .event .connect ∈ (startupDone m).2 := by
      revert hc
      unfold loadedContacts
      cases parseKv KvValue.contacts? res with
      | error => simp
      | ok list => cases list <;> simp [loadMessages, load]
    exact (startupDone_spec m).2.2 hc
  have hc := (startupDone_spec m).2.1 h₁ (hkf hf)
  unfold loadedContacts
  cases parseKv KvValue.contacts? res with
  | error => exact List.mem_append_left _ hc
  | ok list =>
    cases list with
    | none => exact List.mem_append_left _ hc
    | some list => exact List.mem_append_left _ (List.mem_append_left _ hc)

/-- The six loads that `connect` waits for. -/
def Event.isStartupLoad : Event → Bool
  | .loadedSettings _ | .loadedProfile _ | .loadedContacts _ | .loadedCursor _
  | .loadedOutbox _ | .loadedSeenIds _ => true
  | _ => false

theorem startupLoad_spec (x : Crates) (amb : Ambient) {e : Event} (he : e.isStartupLoad = true)
    (m : Model) : LoadSpec m (update x amb e m) := by
  cases e with
  | loadedSettings res =>
    simp only [update, loadedSettings]
    refine loaded_spec ?_ ?_ res m
    · exact fun _ _ => rfl
    · exact fun _ => .inl rfl
  | loadedProfile res =>
    simp only [update, loadedProfile]
    refine loaded_spec ?_ ?_ res m
    · exact fun _ _ => rfl
    · exact fun _ => .inl rfl
  | loadedContacts res => exact loadedContacts_spec res m
  | loadedCursor res =>
    simp only [update, loadedCursor]
    refine loaded_spec ?_ ?_ res m
    · exact fun _ _ => rfl
    · exact fun _ => .inl rfl
  | loadedOutbox res =>
    simp only [update, loadedOutbox]
    refine loaded_spec ?_ ?_ res m
    · exact fun _ _ => rfl
    · exact fun _ => .inl rfl
  | loadedSeenIds res =>
    simp only [update, loadedSeenIds]
    refine loaded_spec ?_ ?_ res m
    · exact fun _ _ => rfl
    · exact fun _ => .inr rfl
  | _ => cases he

/-- The identity is valid, and a loaded client is awake. -/
structure AwakeInv (x : Crates) (c : Running) : Prop where
  wf : c.Wf
  valid : c.model.secretKey.isSome = true → (c.model.identity x).isSome = true
  awake : c.model.loadsPending = 0 → c.model.secretKey.isSome = true →
    c.model.kvLoadFailed = false → Awake c

theorem identity_congr {x : Crates} {m m' : Model} (h : m'.secretKey = m.secretKey) :
    m'.identity x = m.identity x := by simp [Model.identity, h]

/-- An update that ticks nothing off; it may latch a failed read. -/
structure Kept (m m' : Model) : Prop where
  secretKey : m'.secretKey = m.secretKey
  loadsPending : m'.loadsPending = m.loadsPending
  failed : m'.kvLoadFailed = false → m.kvLoadFailed = false

theorem kept_of_startup {m m' : Model} (h : m'.startup = m.startup) : Kept m m' :=
  ⟨congrArg Startup.secretKey h,congrArg Startup.loadsPending h,
    fun hk => (congrArg Startup.kvLoadFailed h).symm.trans hk⟩

theorem process_model {x : Crates} {amb : Ambient} {act : Action Event Answer} {e : Event}
    {c d : Running} (ht : Core.Takes (app x) c act e d) :
    (d.process (app x) amb e).model = (update x amb e c.model).1 := by
  rw [← ht.model_eq]
  rfl

/-- An event that moves no guard leaves an awake client awake. -/
theorem Awake.still {x : Crates} {amb : Ambient} {act : Action Event Answer} {e : Event}
    {c d : Running} (hwf : c.Wf) (ht : Core.Takes (app x) c act e d)
    (hs : Still c.model (update x amb e c.model)) (he : e.leadsToPoll = false) (h : Awake c) :
    Awake (d.process (app x) amb e) := by
  rcases h with hp | ha | hw
  · refine .inl ?_
    rw [process_model ht]
    exact (congrArg (fun g => g.poll.up) hs.1).trans hp
  · refine .inr (.inl ?_)
    rw [process_model ht]
    exact (congrArg (fun g => g.auth.up) hs.1).trans ha
  · exact awake_of_waiting hwf ht he hw

theorem Awake.update {x : Crates} {amb : Ambient} {act : Action Event Answer} {e : Event}
    {c d : Running} (hwf : c.Wf) (ht : Core.Takes (app x) c act e d)
    (hid : (c.model.identity x).isSome = true) (hk : c.model.kvLoadFailed = false)
    (h : Awake c) : Awake (d.process (app x) amb e) := by
  have hup : (c.model.polling = true ∨ c.model.authenticating = true ∨ e.leadsToPoll = true) →
      Awake (d.process (app x) amb e) := fun h =>
    AwakeAfter.awake (by rw [ht.model_eq]; exact update_awake hid hk h)
  rcases h with hp | ha | hw
  · exact hup (.inl hp)
  · exact hup (.inr (.inl ha))
  · cases he : e.leadsToPoll with
    | true => exact hup (.inr (.inr he))
    | false => exact awake_of_waiting hwf ht he hw

theorem AwakeInv.kept {x : Crates} {amb : Ambient} {act : Action Event Answer} {e : Event}
    {c d : Running} (hi : AwakeInv x c) (ht : Core.Takes (app x) c act e d)
    (hk : Kept c.model (Client.update x amb e c.model).1)
    (haw : (c.model.identity x).isSome = true → c.model.kvLoadFailed = false → Awake c →
      Awake (d.process (app x) amb e)) : AwakeInv x (d.process (app x) amb e) := by
  have hm : _ = (Client.update x amb e c.model).1 := process_model ht
  refine ⟨Core.process_wf (A := app x) amb e (ht.wf hi.wf),fun h => ?_,fun h₁ h₂ h₃ => ?_⟩
  · rw [hm] at h ⊢
    rw [identity_congr hk.secretKey]
    exact hi.valid (hk.secretKey ▸ h)
  · rw [hm] at h₁ h₂ h₃
    have h₂ := hk.secretKey ▸ h₂
    exact haw (hi.valid h₂) (hk.failed h₃) (hi.awake (hk.loadsPending ▸ h₁) h₂ (hk.failed h₃))

theorem AwakeInv.load {x : Crates} {amb : Ambient} {act : Action Event Answer} {e : Event}
    {c d : Running} (hi : AwakeInv x c) (ht : Core.Takes (app x) c act e d)
    (hl : LoadSpec c.model (Client.update x amb e c.model))
    (hs : Still c.model (Client.update x amb e c.model)) (he : e.leadsToPoll = false) :
    AwakeInv x (d.process (app x) amb e) := by
  have hm : _ = (Client.update x amb e c.model).1 := process_model ht
  refine ⟨Core.process_wf (A := app x) amb e (ht.wf hi.wf),fun h => ?_,fun h₁ h₂ h₃ => ?_⟩
  · rw [hm] at h ⊢
    rw [identity_congr hl.secretKey]
    exact hi.valid (hl.secretKey ▸ h)
  · rw [hm] at h₁ h₂ h₃
    have hlp := hl.loadsPending
    by_cases h0 : c.model.loadsPending = 0
    · exact (hi.awake h0 (hl.secretKey ▸ h₂) (hl.failed h₃)).still hi.wf ht hs he
    · have hlast := hl.last (by omega) h₃
      refine .inr (.inr (.inr ⟨.connect,Core.mem_process_queue.mpr (.inr ?_),rfl⟩))
      rw [ht.model_eq]
      exact List.mem_filterMap.mpr ⟨_,hlast,rfl⟩

theorem AwakeInv.step {x : Crates} {c d : Running} {l : Label} (hi : AwakeInv x c)
    (h : step x c l = some d) : AwakeInv x d := by
  obtain ⟨amb,act⟩ := l
  obtain ⟨e,c₁,ht,rfl⟩ := Core.step_cases h
  simp only at ht ⊢
  cases hl : e.isLoad with
  | false =>
    exact hi.kept ht (kept_of_startup (update_startup x amb hl c.model))
      fun hid hk h => h.update hi.wf ht hid hk
  | true =>
    cases e with
    | identityLoaded sk =>
      rcases identityLoaded_fst x sk c.model with ⟨_,h⟩ | ⟨id,hid,h⟩
      · exact hi.kept ht (kept_of_startup ((congrArg Model.startup h).trans rfl))
          fun _ _ h => h.still hi.wf ht (identityLoaded_still x sk c.model) rfl
      · have hm := (process_model ht : _ = (Client.update x amb _ c.model).1).trans h
        refine ⟨Core.process_wf (A := app x) amb _ (ht.wf hi.wf),fun _ => ?_,fun h₁ => ?_⟩
        · rw [hm]
          simp [Model.identity, hid, Except.toOption]
        · rw [hm] at h₁
          simp [startupLoads] at h₁
    | loadedMessages peer res =>
      obtain ⟨_,_,k,_,h,hk⟩ := loadedMessages_fst peer res c.model
      have hk' : Kept c.model (loadedMessages peer res c.model).1 := by
        rw [h]
        refine ⟨rfl,rfl,fun hf => ?_⟩
        rcases hk with hk | hk
        · exact hk ▸ hf
        · simp [hk] at hf
      exact hi.kept ht hk' fun _ _ h =>
        h.still hi.wf ht (loadedMessages_still peer res c.model) rfl
    | loadedSettings res | loadedProfile res | loadedContacts res | loadedCursor res
    | loadedOutbox res | loadedSeenIds res =>
      exact hi.load ht (startupLoad_spec x amb rfl c.model) (update_still x amb rfl c.model) rfl
    | _ => cases hl

theorem awakeInv_boot (x : Crates) : AwakeInv x (boot x) :=
  ⟨Core.boot_wf _,fun h => by simp [boot, Core.boot, app] at h,
    fun _ h => by simp [boot, Core.boot, app] at h⟩

theorem awakeInv_run {x : Crates} {ls : List Label} {c : Running}
    (h : runFromBoot x ls = some c) : AwakeInv x c :=
  Lts.run_invariant (step x) (fun _ _ _ hi hs => hi.step hs) (awakeInv_boot x) h

/-- The current round trip of a loop is outstanding together with its watchdog. -/
def Attended (L : Loop Model Event Effect) (c : Running) : Prop :=
  (∃ t, L.Out c t (L.guard c.model).gen) ∧ ∃ t, L.Watched c t (L.guard c.model).gen

/-- In every run too short for a generation to wrap, a client that is loaded has a poll or an
auth leg under way with its watchdog, or a timer or a queued event that leads to a poll. -/
theorem never_quiet {x : Crates} {ls : List Label} {c : Running}
    (hrun : runFromBoot x ls = some c) (hlen : 2*ls.length < UInt64.size)
    (hl : c.model.loadsPending = 0) (hs : c.model.secretKey.isSome = true)
    (hk : c.model.kvLoadFailed = false) :
    Attended pollRound c ∨ Attended authRound c ∨
    (∃ t ms, (t,.time ms .poll) ∈ c.pending ∨ (t,.time ms .authenticate) ∈ c.pending) ∨
    ∃ e ∈ c.queue, e = .poll ∨ e = .authenticate ∨ e = .connect := by
  have hp := (pollRound_ok x).run_inv hlen hrun
  have ha := (authRound_ok x).run_inv hlen hrun
  rcases (awakeInv_run hrun).awake hl hs hk with h | h | ⟨t,ms,tag,ht,h⟩ | ⟨e,he,h⟩
  · exact .inl ⟨hp.tracks.live.mp h,hp.watch h⟩
  · exact .inr (.inl ⟨ha.tracks.live.mp h,ha.watch h⟩)
  · refine .inr (.inr (.inl ⟨t,ms,?_⟩))
    cases tag <;> simp [TimeTag.event, Event.leadsToPoll] at h
    · exact .inr ht
    · exact .inl ht
  · refine .inr (.inr (.inr ⟨e,he,?_⟩))
    cases e <;> simp [Event.leadsToPoll] at h <;> simp

end Skrepka.Client
