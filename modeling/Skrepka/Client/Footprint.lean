import Skrepka.Client.Frame

/-! Which fields of the model each handler can change. -/
namespace Skrepka.Client
open Rust Mvu

theorem identityLoaded_fst (x : Crates) (sk : Bytes) (m : Model) :
    (∃ error, (identityLoaded x sk m).1 = { m with error }) ∨
    ∃ id, Crypto.fromSecretBytes x sk = .ok id ∧ (identityLoaded x sk m).1 = { m with
      secretKey := some sk, myPubkey := id.publicKeyHex, page := .conversations
      loadsPending := startupLoads, kvLoadFailed := false } := by
  unfold identityLoaded
  split
  · exact .inl ⟨_,rfl⟩
  · rename_i id hid
    exact .inr ⟨id,hid,rfl⟩

theorem sendText_fst (x : Crates) (amb : Ambient) (m : Model) :
    ∃ contacts messages outbox compose error,
      (sendText x amb m).1 = { m with contacts, messages, outbox, compose, error } := by
  unfold sendText
  split
  · exact ⟨_,_,_,_,_,rfl⟩
  simp only
  split
  · exact ⟨_,_,_,_,_,rfl⟩
  split
  · exact ⟨_,_,_,_,_,rfl⟩
  split
  · exact ⟨_,_,_,_,_,rfl⟩
  split
  · exact ⟨_,_,_,_,_,rfl⟩
  simp only [Upd.and_fst, Upd.emit_fst, persistMessages_fst, persistContacts_fst,
    persistOutbox_fst, Model.refused_refused, Model.writeText]
  split <;> exact ⟨_,_,_,_,_,Model.refused_eq _⟩

theorem addContact_fst (x : Crates) (amb : Ambient) (input nickname : String) (m : Model) :
    ∃ contacts page error,
      (addContact x amb input nickname m).1 = { m with contacts, page, error } := by
  simp only [addContact]
  repeat' split
  iterate 3 exact ⟨_,_,_,rfl⟩
  all_goals
    simp only [Upd.and_fst, Upd.emit_fst, persistContacts_fst]
    exact ⟨_,_,_,Model.refused_eq _⟩

theorem removeItems_eq (m : Model) (peer : String) :
    ∃ inFlight, m.removeItems peer = { m with
      outbox := m.outbox.filter (fun i => i.recipient ≠ peer), inFlight } := by
  unfold Model.removeItems Model.detachInFlight
  split <;> exact ⟨_,rfl⟩

theorem setBlocked_fst (peer : String) (blocked : Bool) (m : Model) :
    ∃ contacts outbox inFlight error,
      (setBlocked peer blocked m).1 = { m with contacts, outbox, inFlight, error } := by
  simp only [setBlocked]
  split
  · simp only [Upd.and_fst, Upd.emit_fst, persistContacts_fst, persistOutbox_fst,
      Model.refused_refused]
    obtain ⟨_,h⟩ := removeItems_eq
      { m with contacts := blockContact peer blocked m.contacts, error := none } peer
    rw [h]
    exact ⟨_,_,_,_,Model.refused_eq _⟩
  · simp only [Upd.and_fst, Upd.emit_fst, persistContacts_fst]
    exact ⟨_,_,_,_,Model.refused_eq _⟩

theorem forgetPeer_eq (m : Model) (peer : String) :
    ∃ inFlight activePeer page error, m.forgetPeer peer = { m with
      contacts := m.contacts.erase peer
      messages := m.messages.erase peer
      seenIds := m.seenIds.erase peer
      outbox := m.outbox.filter (fun i => i.recipient ≠ peer)
      inFlight, activePeer, page, error } := by
  simp only [Model.forgetPeer]
  obtain ⟨_,h⟩ := removeItems_eq { m with
    contacts := m.contacts.erase peer
    messages := m.messages.erase peer
    seenIds := m.seenIds.erase peer } peer
  rw [h]
  split <;> exact ⟨_,_,_,_,rfl⟩

theorem deleteContact_fst (peer : String) (m : Model) :
    (deleteContact peer m).1 = (m.forgetPeer peer).refused := by
  simp [deleteContact]

theorem saveProfile_fst (x : Crates) (amb : Ambient) (displayName bio : String)
    (photo : Option String) (m : Model) :
    ∃ profile outbox page error,
      (saveProfile x amb displayName bio photo m).1 = { m with profile, outbox, page, error } := by
  simp only [saveProfile]
  repeat' split
  iterate 4 exact ⟨_,_,_,_,rfl⟩
  simp only [Upd.and_fst, Upd.emit_fst, persistProfile_fst, persistOutbox_fst,
    Model.refused_refused]
  exact ⟨_,_,_,_,Model.refused_eq _⟩

theorem setServerUrl_fst (x : Crates) (url : String) (m : Model) :
    (normalizeServerUrl x url = none ∧ ∃ error, (setServerUrl x url m).1 = { m with error }) ∨
    ∃ url', normalizeServerUrl x url = some url' ∧ ∃ error,
      (setServerUrl x url m).1 = { m.switchRelay url' with error } := by
  unfold setServerUrl
  split
  · rename_i h
    exact .inl ⟨h,_,rfl⟩
  · rename_i url' h
    simp only [Upd.and_fst, Upd.emit_fst, guarded_fst]
    exact .inr ⟨url',h,_,Model.refused_eq _⟩

theorem connect_fst (m : Model) : (connect m).1 = m.abandonAuth := by
  simp only [connect]
  repeat' split
  all_goals rfl

theorem startupDone_fst (m : Model) :
    ∃ error, (startupDone m).1 = { m with loadsPending := m.loadsPending-1, error } := by
  unfold startupDone Model.startupLoadDone
  by_cases h : m.loadsPending = 0
  · refine ⟨m.error,?_⟩
    obtain ⟨⟩ := m
    simp only at h
    subst h
    rfl
  · simp only [h, if_false]
    split
    · rename_i heq
      obtain ⟨rfl,-⟩ := Prod.mk.inj heq
      exact ⟨_,rfl⟩
    · rename_i heq
      obtain ⟨rfl,-⟩ := Prod.mk.inj heq
      split <;> exact ⟨_,rfl⟩

/-- The model when a startup load is ticked off. -/
def loadedModel {α : Type} (decode : KvValue → Option α) (install : α → Model → Model)
    (failed : Model → Model) (res : KvData) (m : Model) : Model :=
  match parseKv decode res with
  | .ok (some a) => install a m
  | .ok none => m
  | .error _ => failed m

theorem loaded_eq {α : Type} (decode : KvValue → Option α) (install : α → Model → Model)
    (failed : Model → Model) (res : KvData) (m : Model) :
    loaded decode install failed res m =
      startupDone.and (.emit [.render]) (loadedModel decode install failed res m) := rfl

theorem loadedContacts_fst (res : KvData) (m : Model) :
    ∃ contacts kvLoadFailed error, (loadedContacts res m).1 = { m with
      contacts, kvLoadFailed, error, loadsPending := m.loadsPending-1 } ∧
      (kvLoadFailed = m.kvLoadFailed ∨ kvLoadFailed = true) := by
  obtain ⟨error,h⟩ := startupDone_fst m
  unfold loadedContacts
  generalize startupDone m = r at h ⊢
  obtain ⟨m',cs⟩ := r
  obtain rfl : m' = _ := h
  cases parseKv KvValue.contacts? res with
  | error => exact ⟨_,_,_,rfl,.inr rfl⟩
  | ok list => cases list <;> exact ⟨_,_,_,rfl,.inl rfl⟩

theorem loadedMessages_fst (peer : String) (res : KvData) (m : Model) :
    ∃ messages seenIds kvLoadFailed error, (loadedMessages peer res m).1 = { m with
      messages, seenIds, kvLoadFailed, error } ∧
      (kvLoadFailed = m.kvLoadFailed ∨ kvLoadFailed = true) := by
  unfold loadedMessages
  cases parseKv KvValue.messages? res with
  | error => exact ⟨_,_,_,_,rfl,.inr rfl⟩
  | ok list => cases list <;> exact ⟨_,_,_,_,rfl,.inl rfl⟩

theorem saved_fst (res : KvData) (m : Model) : ∃ error, (saved res m).1 = { m with error } := by
  cases res <;> exact ⟨_,rfl⟩

theorem savedCursor_fst (res : KvData) (m : Model) :
    ∃ conn pollRetries error, (savedCursor res m).1 = { m with conn, pollRetries, error } := by
  cases res <;> exact ⟨_,_,_,rfl⟩

theorem authenticate_fst (x : Crates) (m : Model) :
    ∃ conn error authenticating authGen pollRetries, (authenticate x m).1 =
      { m with conn, error, authenticating, authGen, pollRetries } := by
  simp only [authenticate]
  repeat' split
  all_goals exact ⟨_,_,_,_,_,rfl⟩

theorem authWatchdog_fst (gen : UInt64) (m : Model) :
    ∃ authenticating authGen, (authWatchdog gen m).1 = { m with authenticating, authGen } := by
  unfold authWatchdog
  split <;> exact ⟨_,_,rfl⟩

theorem challengeResult_fst (x : Crates) (gen : UInt64) (res : HttpResult) (m : Model) :
    ∃ conn error authenticating pollRetries, (challengeResult x gen res m).1 =
      { m with conn, error, authenticating, pollRetries } := by
  simp only [challengeResult]
  repeat' split
  all_goals exact ⟨_,_,_,_,rfl⟩

theorem verifyResult_fst (x : Crates) (gen : UInt64) (res : HttpResult) (m : Model) :
    ∃ token conn error authenticating pollRetries, (verifyResult x gen res m).1 =
      { m with token, conn, error, authenticating, pollRetries } := by
  simp only [verifyResult]
  repeat' split
  all_goals exact ⟨_,_,_,_,_,rfl⟩

theorem poll_fst (x : Crates) (m : Model) :
    ∃ polling pollGen conn pollRetries error, (poll x m).1 =
      { m with polling, pollGen, conn, pollRetries, error } := by
  simp only [poll]
  repeat' split
  all_goals exact ⟨_,_,_,_,_,rfl⟩

theorem pollWatchdog_fst (gen : UInt64) (m : Model) :
    ∃ polling pollGen, (pollWatchdog gen m).1 = { m with polling, pollGen } := by
  unfold pollWatchdog
  split <;> exact ⟨_,_,rfl⟩

theorem pollPage_fst (x : Crates) (amb : Ambient) (page : PollResp) (m : Model) :
    m.Ingested (pollPage x amb page m).1 := by
  obtain ⟨m',ws,es,heq,hm,-⟩ := ingestPoll_cases x amb page m
  simp only [pollPage, heq]
  exact hm

theorem pollResult_fst (x : Crates) (amb : Ambient) (gen : UInt64) (res : HttpResult)
    (m : Model) :
    ∃ polling token conn pollRetries error, Model.Ingested
      { m with polling, token, conn, pollRetries, error } (pollResult x amb gen res m).1 := by
  simp only [pollResult]
  repeat' split
  iterate 7 exact ⟨_,_,_,_,_,.refl _⟩
  exact ⟨_,_,_,_,_,pollPage_fst x amb _ _⟩

theorem Flushed.fst {x : Crates} {amb : Ambient} {m : Model} {r : Model × Commands}
    (h : Flushed x amb m r) : ∃ outbox error flushing flushGen inFlight, r.1 =
      { m with outbox, error, flushing, flushGen, inFlight } := by
  cases h <;> exact ⟨_,_,_,_,_,rfl⟩

theorem flushNext_fst (x : Crates) (amb : Ambient) (m : Model) :
    ∃ outbox error flushing flushGen inFlight, (flushNext x amb m).1 =
      { m with outbox, error, flushing, flushGen, inFlight } := (flushNext_flushed x amb m).fst

theorem flushWatchdog_fst (x : Crates) (amb : Ambient) (gen : UInt64) (m : Model) :
    ∃ outbox error flushing flushGen inFlight, (flushWatchdog x amb gen m).1 =
      { m with outbox, error, flushing, flushGen, inFlight } := by
  unfold flushWatchdog
  split
  · exact ⟨_,_,_,_,_,rfl⟩
  · obtain ⟨_,_,_,_,_,h⟩ := flushNext_fst x amb m.abandonFlush
    exact ⟨_,_,_,_,_,h⟩

theorem retryBatch_fst (x : Crates) (amb : Ambient) (batch : Option InFlight) (m : Model) :
    ∃ outbox error flushing flushGen inFlight, (retryBatch x amb batch m).1 =
      { m with outbox, error, flushing, flushGen, inFlight } := by
  cases batch with
  | none => exact ⟨_,_,_,_,_,rfl⟩
  | some batch =>
    simp only [retryBatch]
    split
    · simp only [Upd.and_fst, Upd.emit_fst, persistOutbox_fst]
      exact ⟨_,_,_,_,_,Model.refused_eq _⟩
    · simp only [Upd.and_fst, Upd.emit_fst, persistOutbox_fst]
      rw [Model.refused_eq]
      obtain ⟨_,_,_,_,_,h⟩ := flushNext_fst x (amb.after 1) _
      exact ⟨_,_,_,_,_,h⟩

theorem sendDone_fst (x : Crates) (amb : Ambient) (batch : Option InFlight) (m : Model) :
    ∃ outbox error flushing flushGen inFlight sendRetries, (sendDone x amb batch m).1 =
      { m with outbox, error, flushing, flushGen, inFlight, sendRetries } := by
  simp only [sendDone]
  split
  all_goals
    simp only [Upd.and_fst, persistOutbox_fst]
    rw [Model.refused_eq]
    obtain ⟨_,_,_,_,_,h⟩ := flushNext_fst x amb _
    exact ⟨_,_,_,_,_,_,h⟩

theorem sendResult_fst (x : Crates) (amb : Ambient) (gen : UInt64) (res : HttpResult)
    (m : Model) :
    ∃ outbox error flushing flushGen inFlight token sendRetries flushPausedUntil sendBatchBudget,
      (sendResult x amb gen res m).1 = { m with
        outbox, error, flushing, flushGen, inFlight, token, sendRetries, flushPausedUntil
        sendBatchBudget } ∧ (token = m.token ∨ token = none) := by
  simp only [sendResult]
  split
  · exact ⟨_,_,_,_,_,_,_,_,_,rfl,.inl rfl⟩
  cases res with
  | err =>
    obtain ⟨_,_,_,_,_,h⟩ := retryBatch_fst x amb m.inFlight _
    exact ⟨_,_,_,_,_,_,_,_,_,h,.inl rfl⟩
  | ok resp =>
    simp only
    split
    · exact ⟨_,_,_,_,_,_,_,_,_,rfl,.inr rfl⟩
    split
    · unfold rateLimited
      split
      exact ⟨_,_,_,_,_,_,_,_,_,rfl,.inl rfl⟩
    split
    · obtain ⟨_,_,_,_,_,h⟩ := flushNext_fst x amb _
      exact ⟨_,_,_,_,_,_,_,_,_,h,.inl rfl⟩
    split
    · obtain ⟨_,_,_,_,_,_,h⟩ := sendDone_fst x amb m.inFlight _
      exact ⟨_,_,_,_,_,_,_,_,_,h,.inl rfl⟩
    · obtain ⟨_,_,_,_,_,h⟩ := retryBatch_fst x amb m.inFlight _
      exact ⟨_,_,_,_,_,_,_,_,_,h,.inl rfl⟩

end Skrepka.Client
