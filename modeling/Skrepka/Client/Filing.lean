import Skrepka.Lib.Device
import Skrepka.Client.Replays

/-! What an update makes of the conversations on disk: it writes the one that a text goes to and those
that a page touched, and deletes that of a deleted contact. -/
namespace Skrepka.Client
open Rust Mvu

/-- What a command makes of a conversation on disk, a value or nothing, meets a condition. -/
def CmdFiles (K : String → Option KvValue → Prop) : Cmd Event Effect → Prop
  | .request (.kv (.set (.messages peer) value) _) => K peer (some value)
  | .request (.kv (.delete (.messages peer)) _) => K peer none
  | _ => True

theorem CmdFiles.mono {K L : String → Option KvValue → Prop} {c : Cmd Event Effect} (h : CmdFiles K c)
    (hKL : ∀ peer value, K peer value → L peer value) : CmdFiles L c := by
  unfold CmdFiles at h ⊢
  split
  · exact hKL _ _ h
  · exact hKL _ _ h
  · trivial

/-- A handler leaves the conversations in memory as they are, and what it makes of those on disk meets
a condition. -/
abbrev Files (M : PeerMap (List StoredMessage)) (K : String → Option KvValue → Prop) (f : Handler) :
    Prop := Upd.Keeps (fun m => m.messages = M) (CmdFiles K) f

/-- A text that can be sent is typed into the open chat, which is that of a peer. -/
def Model.writesTo (m : Model) (peer : String) : Prop :=
  m.activePeer = some peer ∧ m.isBlocked peer = false ∧ trim m.compose ≠ "" ∧
    len (trim m.compose) ≤ Protocol.maxBodyLen ∧
    (m.contacts.contains peer = true ∨ m.contacts.size < maxContacts)

instance (m : Model) (peer : String) : Decidable (m.writesTo peer) :=
  inferInstanceAs (Decidable (_ ∧ _))

section
variable {x : Crates} {amb : Ambient} {M : PeerMap (List StoredMessage)}
  {K : String → Option KvValue → Prop}

theorem Files.cmds {f : Handler} {m : Model} (h : Files m.messages K f) :
    ∀ c ∈ (f m).2, CmdFiles K c := (h m rfl).2

theorem guarded_files {ops : Model → List KvOp}
    (h : ∀ m, m.messages = M → ∀ op ∈ ops m, CmdFiles K (.request (.kv op .saved))) :
    Files M K (guarded ops) := by
  intro m hm
  rw [guarded_fst, guarded_snd, Model.refused_eq]
  refine ⟨hm,fun c hc => ?_⟩
  split at hc
  · simp at hc
  · obtain ⟨op,hop,rfl⟩ := List.mem_map.mp hc
    exact h m hm op hop

theorem persistContacts_files : Files M K persistContacts :=
  guarded_files fun _ _ _ hop => List.mem_singleton.mp hop ▸ trivial

theorem persistProfile_files : Files M K persistProfile :=
  guarded_files fun _ _ _ hop => List.mem_singleton.mp hop ▸ trivial

theorem persistOutbox_files : Files M K persistOutbox :=
  guarded_files fun _ _ _ hop => List.mem_singleton.mp hop ▸ trivial

theorem persistSeenIds_files : Files M K persistSeenIds :=
  guarded_files fun _ _ _ hop => List.mem_singleton.mp hop ▸ trivial

theorem persistMessages_files {peer : String} (h : K peer (some (.messages (M[peer]?.getD [])))) :
    Files M K (persistMessages peer) := by
  refine guarded_files fun m hm op hop => ?_
  rw [List.mem_singleton.mp hop, hm]
  exact h

theorem emit_files {cs : Commands} (h : ∀ c ∈ cs, CmdFiles K c) : Files M K (.emit cs) := .emit h

theorem render_files : Files M K (.emit [.render]) := emit_files (by simp [CmdFiles])

theorem startFlush_files : Files M K (.emit [.event .startFlush,.render]) :=
  emit_files (by simp [CmdFiles])

/-- Commands that ask for no write. -/
theorem Asks.files {as : List Ask} {cs : Commands} (h : Asks as cs)
    (hq : ∀ a ∈ as, a ∉ [.write,.writeCursor,.other]) : ∀ c ∈ cs, CmdFiles K c := by
  intro c hc
  have hask := hq _ (h c hc)
  cases c with
  | event | render => trivial
  | request f =>
    cases f with
    | http | time => trivial
    | kv op tag =>
      cases op with
      | get => trivial
      | set | delete => cases tag <;> simp [ask] at hask

theorem sendBatch_files (token recipient : String) (b : Batch) {persist : Handler}
    (h : ∀ M, Files M K persist) (m : Model) :
    ∀ c ∈ (sendBatch x token recipient b persist m).2, CmdFiles K c := by
  intro c hc
  simp only [sendBatch] at hc
  split at hc
  · obtain hc | hc := List.mem_append.mp hc
    · exact (h _).cmds c hc
    · simp only [List.mem_cons, List.not_mem_nil, or_false] at hc
      obtain rfl | rfl := hc <;> trivial
  · obtain hc | hc := List.mem_append.mp hc
    · exact (h _).cmds c hc
    · obtain rfl := List.mem_singleton.mp hc
      trivial

theorem flushNext_files (amb : Ambient) : Files M K (flushNext x amb) := by
  intro m hm
  obtain ⟨_,_,_,_,_,hfst⟩ := flushNext_fst x amb m
  refine ⟨by rw [hfst]; exact hm,fun c hc => ?_⟩
  unfold flushNext at hc
  split at hc
  · simp at hc
  split at hc
  · simp at hc
  split at hc
  · simp at hc
  split at hc
  · simp only [flushBatch] at hc
    split at hc
    · split at hc
      · exact Files.cmds (persistOutbox_files.and render_files) c hc
      · simp at hc
    · refine sendBatch_files _ _ _ (fun M => ?_) _ c hc
      split
      · exact persistOutbox_files
      · exact .done
  · simp at hc

theorem retryBatch_files (batch : Option InFlight) (m : Model) :
    ∀ c ∈ (retryBatch x amb batch m).2, CmdFiles K c := by
  intro c hc
  cases batch with
  | none => exact Files.cmds (m := m) render_files c hc
  | some batch =>
    simp only [retryBatch] at hc
    split at hc
    · exact Files.cmds (persistOutbox_files.and render_files) c hc
    · exact Files.cmds ((persistOutbox_files.and (flushNext_files _)).and render_files) c hc

theorem sendResult_files (gen : UInt64) (res : HttpResult) (m : Model) :
    ∀ c ∈ (sendResult x amb gen res m).2, CmdFiles K c := by
  intro c hc
  have hanswered := sendResult_answered x amb gen res m
  generalize sendResult x amb gen res m = r at hanswered hc
  cases hanswered with
  | stale => simp at hc
  | unauthorized => exact List.mem_singleton.mp hc ▸ trivial
  | limited =>
    simp only [rateLimited, List.mem_cons, List.not_mem_nil, or_false] at hc
    obtain rfl | rfl := hc <;> trivial
  | split => exact Files.cmds (flushNext_files amb) c hc
  | settled => exact Files.cmds (persistOutbox_files.and (flushNext_files amb)) c hc
  | failed => exact retryBatch_files _ _ c hc

/-- A text is refused, or it is filed and written down. -/
theorem sendText_cases (x : Crates) (amb : Ambient) (m : Model) :
    (∃ error, sendText x amb m = ({ m with error },[.render])) ∨
    ∃ peer, m.writesTo peer ∧ sendText x amb m =
      ((persistMessages peer).and (persistContacts.and (persistOutbox.and
        (.emit [.event .startFlush,.render]))))
        ({ m with error := none }.writeText x (amb.now 0) amb.uuid peer (trim m.compose)) := by
  unfold sendText
  split
  · exact .inl ⟨m.error,rfl⟩
  rename_i peer hpeer
  simp only
  split
  · exact .inl ⟨_,rfl⟩
  rename_i hblocked
  split
  · exact .inl ⟨_,rfl⟩
  rename_i hbody
  split
  · exact .inl ⟨_,rfl⟩
  rename_i hlen
  split
  · exact .inl ⟨_,rfl⟩
  rename_i hfull
  refine .inr ⟨peer,⟨hpeer,(Bool.not_eq_true _).mp hblocked,hbody,by omega,?_⟩,rfl⟩
  rw [not_and_or, not_not, ge_iff_le, Nat.not_le] at hfull
  exact hfull

theorem writeText_messages (x : Crates) (ts : ℤ) (id peer body : String) (m : Model) :
    (m.writeText x ts id peer body).messages =
      m.messages.insert peer (trimHistory (insertSorted (m.convo peer) ⟨id,body,ts,true,false⟩)) := by
  simp only [Model.writeText]
  split <;> rfl

theorem sendText_messages (x : Crates) (amb : Ambient) (m : Model) :
    (sendText x amb m).1.messages = m.messages ∨ ∃ peer, m.writesTo peer ∧
      (sendText x amb m).1.messages = m.messages.insert peer (trimHistory
        (insertSorted (m.convo peer) ⟨amb.uuid,trim m.compose,amb.now 0,true,false⟩)) := by
  obtain ⟨_,hsend⟩ | ⟨peer,hwrites,hsend⟩ := sendText_cases x amb m
  · rw [hsend]
    exact .inl rfl
  · refine .inr ⟨peer,hwrites,?_⟩
    rw [hsend]
    simp only [Upd.and_fst, Upd.emit_fst, persistMessages_fst, persistContacts_fst,
      persistOutbox_fst, Model.refused_refused]
    rw [Model.refused_eq]
    exact writeText_messages x (amb.now 0) amb.uuid peer (trim m.compose) _

/-- A list that is read becomes the conversation, or is merged into it. -/
theorem loadedMessages_messages (p : String) (res : KvData) (m : Model) :
    (loadedMessages p res m).1.messages = m.messages ∨
    ∃ list convo, res = .ok (some (.messages list)) ∧
      (loadedMessages p res m).1.messages = m.messages.insert p convo ∧
      (m.messages[p]? = none ∧ convo = list ∨
        ∃ existing, m.messages[p]? = some existing ∧ convo = mergeHistory existing list) := by
  obtain _ | _ | v := res
  · exact .inl rfl
  · exact .inl rfl
  · cases v with
    | messages list =>
      refine .inr ⟨list,_,rfl,rfl,?_⟩
      cases m.messages[p]? with
      | none => exact .inl ⟨rfl,rfl⟩
      | some existing => exact .inr ⟨existing,rfl,rfl⟩
    | _ => exact .inl rfl

theorem sendText_files {m : Model}
    (h : ∀ peer, m.writesTo peer → K peer (some (.messages ((sendText x amb m).1.convo peer)))) :
    ∀ c ∈ (sendText x amb m).2, CmdFiles K c := by
  intro c hc
  obtain ⟨_,hsend⟩ | ⟨peer,hwrites,hsend⟩ := sendText_cases x amb m
  · rw [hsend] at hc
    obtain rfl := List.mem_singleton.mp hc
    trivial
  · have hK := h peer hwrites
    have hmessages : (sendText x amb m).1.messages = ({ m with error := none }.writeText x
        (amb.now 0) amb.uuid peer (trim m.compose)).messages := by
      rw [hsend]
      simp only [Upd.and_fst, Upd.emit_fst, persistMessages_fst, persistContacts_fst,
        persistOutbox_fst, Model.refused_refused]
      rw [Model.refused_eq]
    rw [Model.convo, hmessages] at hK
    rw [hsend] at hc
    exact Files.cmds ((persistMessages_files hK).and (persistContacts_files.and
      (persistOutbox_files.and startFlush_files))) c hc

theorem persist_files (hash : HashOrder) (s : Ingest)
    (h : ∀ peer ∈ s.touchedConvos, K peer (some (.messages (s.model.convo peer)))) :
    Files s.model.messages K (s.persist hash) := by
  refine Upd.Keeps.and (.all fun f hf => ?_) (.and (.when _ persistSeenIds_files)
    (.and (.when _ persistContacts_files) (.when _ persistOutbox_files)))
  obtain ⟨peer,hpeer,rfl⟩ := List.mem_map.mp hf
  exact persistMessages_files (h peer ((hash.mem_iter _ _).mp hpeer))

/-- A page writes the conversations that it touched. -/
theorem pollPage_files {page : PollResp} {m : Model}
    (h : ∀ id, m.identity x = some id → ∀ peer ∈ (ingested x amb page id m).touchedConvos,
      K peer (some (.messages ((ingested x amb page id m).model.convo peer)))) :
    ∀ c ∈ (pollPage x amb page m).2, CmdFiles K c := by
  have hpage : ∀ c ∈ (ingestPoll x amb page m).2, CmdFiles K c := by
    intro c hc
    cases hk : m.kvLoadFailed with
    | true => simp [ingestPoll, hk] at hc
    | false =>
      cases hid : m.identity x with
      | none =>
        have hnone : (adoptCursor (amb.now 0) page m).identity x = none := by
          obtain ⟨_,hcursor⟩ := adoptCursor_eq (amb.now 0) page m
          rw [hcursor]
          exact hid
        simp [ingestPoll, hk, hnone] at hc
      | some id =>
        rw [ingestPoll_eq hk hid] at hc
        obtain hc | hc := List.mem_append.mp hc
        · exact (persist_files amb.hash _ (h id hid)).cmds c hc
        · exact List.mem_singleton.mp hc ▸ trivial
  intro c hmem
  unfold pollPage at hmem
  generalize ingestPoll x amb page m = r at hpage hmem
  obtain hmem | hmem := List.mem_append.mp hmem
  · exact hpage c hmem
  · simp only [List.mem_cons, List.not_mem_nil, or_false] at hmem
    obtain rfl | rfl | rfl := hmem
    · split <;> trivial
    · trivial
    · trivial

/-- What an update makes of the conversations on disk: it writes that of a text and those that a page
touched, as they are in memory then, and deletes that of a deleted contact. -/
theorem update_files {e : Event} {m : Model}
    (hsend : e = .sendText → ∀ peer, m.writesTo peer →
      K peer (some (.messages ((sendText x amb m).1.convo peer))))
    (hdelete : ∀ peer, e = .deleteContact peer → K peer none)
    (hpoll : ∀ page id, e.takesIn x m = some (page,id) →
      ∀ peer ∈ (ingested x amb page id { m with polling := false, pollRetries := 0 }).touchedConvos,
        K peer (some (.messages
          ((ingested x amb page id { m with polling := false, pollRetries := 0 }).model.convo peer)))) :
    ∀ c ∈ (update x amb e m).2, CmdFiles K c := by
  have hquiet : (∀ a ∈ e.asks, a ∉ [.write,.writeCursor,.other]) →
      ∀ c ∈ (update x amb e m).2, CmdFiles K c := (update_asks x amb e m).files
  cases e with
  | sendText => exact sendText_files (hsend rfl)
  | addContact input nickname =>
    intro c hc
    simp only [update, addContact] at hc
    repeat' split at hc
    iterate 3 exact List.mem_singleton.mp (by simpa [refuse] using hc) ▸ trivial
    all_goals exact Files.cmds (persistContacts_files.and render_files) c hc
  | setBlocked peer blocked =>
    intro c hc
    simp only [update, setBlocked] at hc
    split at hc
    · exact Files.cmds (persistContacts_files.and (persistOutbox_files.and render_files)) c hc
    · exact Files.cmds (persistContacts_files.and render_files) c hc
  | deleteContact peer =>
    have hemit : Files (m.forgetPeer peer).messages K
        (.emit [.request (.kv (.delete (.messages peer)) .saved)]) :=
      emit_files fun c hc => List.mem_singleton.mp hc ▸ hdelete peer rfl
    exact Files.cmds (m := m.forgetPeer peer) (persistContacts_files.and (hemit.and
      (persistOutbox_files.and (persistSeenIds_files.and render_files))))
  | saveProfile displayName bio photo =>
    intro c hc
    simp only [update, saveProfile] at hc
    repeat' split at hc
    iterate 4 exact List.mem_singleton.mp (by simpa [refuse] using hc) ▸ trivial
    exact Files.cmds (persistProfile_files.and (persistOutbox_files.and startFlush_files)) c hc
  | setServerUrl url =>
    intro c hc
    simp only [update, setServerUrl] at hc
    split at hc
    · exact List.mem_singleton.mp (by simpa [refuse] using hc) ▸ trivial
    · refine Files.cmds (Upd.Keeps.and (guarded_files fun m _ op hop => ?_)
        (emit_files (by simp [CmdFiles]))) c hc
      simp only [List.mem_cons, List.not_mem_nil, or_false] at hop
      obtain rfl | rfl := hop <;> trivial
  | startFlush => exact Files.cmds (flushNext_files amb)
  | flushWatchdog gen =>
    intro c hc
    simp only [update, flushWatchdog] at hc
    split at hc
    · simp at hc
    · exact Files.cmds (flushNext_files amb) c hc
  | sendResult gen res => exact sendResult_files gen res m
  | pollResult gen res =>
    by_cases hno : gen ≠ m.pollGen ∨ m.kvLoadFailed = true ∨ readPage x res = none
    · exact (pollResult_pageless hno).2.files (by simp)
    · simp only [not_or, ne_eq, not_not, Bool.not_eq_true] at hno
      obtain ⟨rfl,hk,hpage⟩ := hno
      obtain ⟨page,hpage⟩ := Option.ne_none_iff_exists'.mp hpage
      simp only [update]
      rw [pollResult_page hk hpage]
      refine pollPage_files fun id hid => hpoll page id ?_
      have hid : m.identity x = some id := hid
      simp [Event.takesIn, hk, hpage, hid]
  | _ => exact hquiet (by simp [Event.asks])

end

end Skrepka.Client
