import Skrepka.Client.History
import Skrepka.Client.Stamps
import Skrepka.Client.Stored

/-! Texts and their delivery acks on a device: the conversation, the dedup set, the contacts and the outbox
are separate writes, and only the last one has the ack. -/
namespace Skrepka.Client
open Rust Mvu

/-- An item is a delivery ack to a peer that names an id. -/
def OutboxItem.Names (x : Crates) (peer id : String) (i : OutboxItem) : Prop :=
  i.recipient = peer ∧
    ∃ ids ts, id ∈ ids ∧ i.envelopeJson = Protocol.serializePayload x (.deliveryAck ids) ts

/-- A stored outbox has a delivery ack to a peer that names an id. -/
def KvValue.Names (x : Crates) (peer id : String) : KvValue → Prop
  | .outbox items => ∃ i ∈ items, i.Names x peer id
  | _ => False

/-- A message is an incoming one with an id. -/
def StoredMessage.isText (id : String) (msg : StoredMessage) : Prop :=
  msg.outgoing = false ∧ msg.id = id

/-- A stored conversation has an incoming text with an id. -/
def KvValue.Received (id : String) : KvValue → Prop
  | .messages list => ∃ msg ∈ list, msg.isText id
  | _ => False

section
variable (x : Crates) (peer id : String)

/-- A text of a peer is on disk. -/
def HasText (disk : Disk) : Prop := ∃ value, disk (.messages peer) = some value ∧ value.Received id

/-- A delivery ack for it is in the outbox on disk. -/
def HasAck (disk : Disk) : Prop := ∃ value, disk .outbox = some value ∧ value.Names x peer id

/-- A write of the outbox with such an ack was asked for and has not been performed. -/
def Phone.Acking (d : Phone) : Prop :=
  ∃ value tag, d.Awaits kvStore (.kv (.set .outbox value) tag) ∧ value.Names x peer id

/-- The conversation has been written, the outbox with the ack for it has not. -/
def Phone.Torn (d : Phone) : Prop :=
  HasText peer id d.disk ∧ d.Acking x peer id ∧ ¬ HasAck x peer id d.disk

/-- The client is not killed between the write of a text and that of the ack for it, and the latter does
not fail. -/
def Phone.Whole (d : Phone) : Happening Ambient Event Answer → Prop
  | .kill => ¬ d.Torn x peer id
  | .perform false => ∀ t value tag, value.Names x peer id →
    d.oldest kvStore ≠ some (t,.kv (.set .outbox value) tag)
  | _ => True

end

section
variable {x : Crates} {amb : Ambient} {m : Model} {peer id : String}

/-- A message that is no incoming text with the id. -/
def Model.NoText (m : Model) (peer id : String) : Prop := ∀ msg ∈ m.convo peer, ¬ msg.isText id

theorem noText_insert {m' : Model} (h : m.NoText peer id) {p : String} {convo : List StoredMessage}
    (hm : m'.messages = m.messages.insert p convo)
    (hconvo : p = peer → ∀ msg ∈ convo, msg ∈ m.convo peer ∨ ¬ msg.isText id) : m'.NoText peer id := by
  intro msg hmsg
  rw [convo_insert hm] at hmsg
  split at hmsg
  · rename_i hp
    exact (hconvo hp msg hmsg).elim (h msg) fun hno => hno
  · exact h msg hmsg

theorem ingested_noText {page : PollResp} {identity : Crypto.Identity} (h : m.NoText peer id)
    (hfiled : id ∉ (ingested x amb page identity m).acks peer) :
    (ingested x amb page identity m).model.NoText peer id := by
  rw [(ingested_texts x amb page identity m peer).2.2] at hfiled
  have hdeliver : ∀ ps, (∀ msg ∈ (Ingest.deliver x amb.hash (amb.now 1) ps
      { model := m }).model.convo peer, ¬ msg.isText id) ∨
      id ∈ (Ingest.deliver x amb.hash (amb.now 1) ps { model := m }).acks peer := by
    intro ps
    refine Ingest.deliver_induction (I := fun s => (∀ msg ∈ s.model.convo peer, ¬ msg.isText id) ∨
      id ∈ s.acks peer) (fun p _ s hs => ?_) (.inl h)
    obtain ⟨i,body,-,-,-,-,hfiled⟩ | hun :=
      Ingest.payload_texts x amb.hash (amb.now 1) p s peer
    · rw [hfiled.convo, hfiled.acks]
      by_cases hi : i = id
      · exact .inr (by simp [hi])
      refine hs.imp (fun hno msg hmsg => ?_) fun hacks => List.mem_append_left _ hacks
      obtain rfl | hmsg := mem_filed hmsg
      · exact fun htext => hi htext.2
      · exact hno msg hmsg
    · rw [hun.convo, hun.acks]
      exact hs
  have hno := (hdeliver (page.opened x identity)).resolve_right hfiled
  have hsame := ingested_convo x amb page identity m peer
    (f := fun msg : StoredMessage => (msg.outgoing,msg.id)) fun _ => rfl
  intro msg hmsg htext
  have hmem : (msg.outgoing,msg.id) ∈ ((ingested x amb page identity m).model.convo peer).map
      (fun msg : StoredMessage => (msg.outgoing,msg.id)) := List.mem_map_of_mem hmsg
  rw [hsame] at hmem
  obtain ⟨msg',hmsg',heq⟩ := List.mem_map.mp hmem
  obtain ⟨hout,hid⟩ := Prod.mk.inj heq
  exact hno msg' hmsg' ⟨hout.trans htext.1,hid.trans htext.2⟩

/-- A text comes into memory from the store, or is filed from a page. -/
theorem update_noText {e : Event} (h : m.NoText peer id)
    (he : e.Reads peer fun list => ∀ msg ∈ list, ¬ msg.isText id)
    (hfiled : id ∉ filedTexts x amb e m peer) : (update x amb e m).1.NoText peer id := by
  have hsame : (update x amb e m).1.messages = m.messages → (update x amb e m).1.NoText peer id := by
    intro hmessages
    rwa [Model.NoText, Model.convo, hmessages]
  by_cases hw : Field.messages ∈ e.writes
  · cases e with
    | sendText =>
      obtain hsend | ⟨p,-,hsend⟩ := sendText_messages x amb m
      · exact hsame hsend
      refine noText_insert h hsend fun hp msg hmsg => ?_
      subst hp
      obtain rfl | hmsg := mem_filed hmsg
      · exact .inr fun htext => by simp [StoredMessage.isText] at htext
      · exact .inl hmsg
    | loadedMessages p res =>
      obtain hload | ⟨list,convo,rfl,hload,hconvo⟩ := loadedMessages_messages p res m
      · exact hsame hload
      refine noText_insert h hload fun hp msg hmsg => ?_
      subst hp
      have hlist : msg ∈ list → ¬ msg.isText id := he list rfl msg
      obtain ⟨-,hnew⟩ | ⟨existing,hc,hmerge⟩ := hconvo
      · rw [hnew] at hmsg
        exact .inr (hlist hmsg)
      rw [hmerge] at hmsg
      obtain hmsg | hmsg := mem_mergeHistory hmsg
      · exact .inl (by simpa [Model.convo, hc] using hmsg)
      · exact .inr (hlist hmsg)
    | pollResult gen res =>
      obtain ⟨_,_,_,_,_,_,hm⟩ | ⟨page,identity,hgen,hk,hpage,hid,hm⟩ :=
        pollResult_cases x amb gen res m
      · refine hsame ?_
        rw [update, hm]
      · simp only [filedTexts, takesIn_some hgen hk hpage hid] at hfiled
        rw [update, hm]
        exact ingested_noText h hfiled
    | deleteContact p =>
      obtain ⟨_,_,_,_,hm⟩ := forgetPeer_eq m p
      simp only [update, deleteContact_fst]
      rw [Model.refused_eq, hm]
      intro msg hmsg
      simp only [Model.convo, Maps.getElem?_erase] at hmsg
      split at hmsg
      · simp at hmsg
      · exact h msg hmsg
    | _ => simp [Event.writes] at hw
  · exact hsame (update_agrees x amb e m .messages hw)

namespace Ingest

/-- The acks of a page name every text that it filed. -/
theorem queueAcks_names {s : Ingest} (h : id ∈ s.acks peer) (ackTs : ℤ) :
    (∃ i ∈ (s.queueAcks x ackTs).model.outbox, i.Names x peer id) ∧
      (s.queueAcks x ackTs).outboxDirty = true := by
  obtain ⟨ids,hids⟩ : ∃ ids, s.ackTargets[peer]? = some ids := by
    cases hc : s.ackTargets[peer]? with
    | none => simp [acks, hc] at h
    | some ids => exact ⟨ids,rfl⟩
  have hid : id ∈ ids := by simpa [acks, hids] using h
  obtain ⟨chunk,hchunk,hmem⟩ : ∃ chunk ∈ ids.toChunks Protocol.maxAckIds, id ∈ chunk := by
    rw [← Chunks.flatten_toChunks (n := Protocol.maxAckIds) ids] at hid
    exact List.mem_flatten.mp hid
  refine ⟨⟨_,List.mem_append_right _ (List.mem_flatMap.mpr ⟨(peer,ids),Maps.mem_toList.mpr hids,
    List.mem_map.mpr ⟨chunk,hchunk,rfl⟩⟩),rfl,chunk,ackTs,hmem,rfl⟩,?_⟩
  have hne : s.ackTargets.isEmpty = false := by
    rw [Std.TreeMap.isEmpty_eq_false_iff_exists_contains_eq_true]
    exact ⟨peer,by simp [Std.TreeMap.contains_eq_isSome_getElem?, hids]⟩
  simp [queueAcks, hne]

end Ingest

/-- A page that queued items writes the outbox as it leaves it. -/
theorem persist_outbox {hash : HashOrder} {s : Ingest} (hdirty : s.outboxDirty = true)
    (hk : s.model.kvLoadFailed = false) :
    .request (.kv (.set .outbox (.outbox s.model.outbox)) .saved) ∈ (s.persist hash s.model).2 := by
  rw [Ingest.persist_snd hash hk, hdirty]
  refine List.mem_append_right _ (List.mem_append_right _ (List.mem_append_right _ ?_))
  change _ ∈ (persistOutbox s.model).2
  simp [persistOutbox, guarded_snd, hk]

theorem ingested_names {page : PollResp} {identity : Crypto.Identity}
    (h : id ∈ (ingested x amb page identity m).acks peer) :
    (∃ i ∈ (ingested x amb page identity m).model.outbox, i.Names x peer id) ∧
      (ingested x amb page identity m).outboxDirty = true := by
  let s := Ingest.events x amb.hash (amb.now 1) m.cursor identity page.events
    { model := adoptCursor (amb.now 0) page m }
  exact @Ingest.queueAcks_names x peer id (s.applyAcks (amb.now 1)) h (amb.now 2)

/-- An update that files a text of a peer writes an outbox with the ack for it. -/
theorem update_acks {e : Event} (h : id ∈ filedTexts x amb e m peer) :
    ∃ items, .kv (.set .outbox (.outbox items)) .saved ∈ Cmd.requests (update x amb e m).2 ∧
      ∃ i ∈ items, i.Names x peer id := by
  cases e with
  | pollResult gen res =>
    simp only [filedTexts] at h
    split at h
    · rename_i page identity htakes
      simp only [Event.takesIn, Option.bind_eq_bind, Option.bind_eq_some_iff, Option.guard_eq_some',
        Option.pure_def, Option.some.injEq, Prod.mk.injEq] at htakes
      obtain ⟨_,⟨rfl,hk⟩,page,hpage,identity,hid,rfl,rfl⟩ := htakes
      obtain ⟨⟨i,hi,hnames⟩,hdirty⟩ := ingested_names h
      obtain ⟨cmds,hcmds,-⟩ := @pollResult_cmds x amb _ _ _ _ hk hpage hid
      refine ⟨_,?_,i,hi,hnames⟩
      have hwrite := @persist_outbox amb.hash _ hdirty (ingested_intact hk)
      refine List.mem_filterMap.mpr ⟨.request _,?_,rfl⟩
      rw [update, hcmds]
      exact List.mem_append_left _ hwrite
    · simp at h
  | _ => simp [filedTexts, Event.takesIn] at h

theorem update_textless {e : Event} (h : m.NoText peer id)
    (he : e.Reads peer fun list => ∀ msg ∈ list, ¬ msg.isText id)
    (hfiled : id ∉ filedTexts x amb e m peer) : (update x amb e m).1.NoText peer id ∧
      ∀ c ∈ (update x amb e m).2, CmdFiles (fun p value => p = peer →
        ∀ v, value = some v → ¬ v.Received id) c := by
  have hno := update_noText h he hfiled
  refine ⟨hno,update_files (fun hsend p _ hp v hv => ?_) (by simp)
    fun page identity htakes p _ hp v hv => ?_⟩
  · subst hsend hp
    rw [← Option.some.inj hv]
    rintro ⟨msg,hmsg,htext⟩
    exact hno msg hmsg htext
  · subst hp
    rw [← Option.some.inj hv]
    rintro ⟨msg,hmsg,htext⟩
    cases e with
    | pollResult gen res =>
      rw [← pollResult_takesIn htakes] at hmsg
      exact hno msg hmsg htext
    | _ => cases htakes

/-- As long as a text is not filed from a page, it is nowhere on the device. -/
theorem textless_keeps : Device.Keeps (app x) kvStore
    (fun amb e m => id ∉ filedTexts x amb e m peer) (fun m => m.NoText peer id)
    (Event.Reads peer fun list => ∀ msg ∈ list, ¬ msg.isText id)
    (Effect.Careful peer fun value => ∀ v, value = some v → ¬ v.Received id)
    (fun disk => ∀ v, disk (.messages peer) = some v → ¬ v.Received id) :=
  conversation_keeps (fun _ h msg hmsg htext => h _ rfl ⟨msg,hmsg,htext⟩)
    (by simp [Model.NoText, Model.convo]) fun _ _ _ ha hm he => update_textless hm he ha

end

/-- A text is acknowledged in a run: a delivery ack for it was on disk at some point. -/
def Phone.Acked (x : Crates) (peer id : String) (d : Phone)
    (hs : List (Happening Ambient Event Answer)) : Prop :=
  ∃ hs₁ hs₂ d₁, hs = hs₁ ++ hs₂ ∧ Lts.run (Phone.step x) d hs₁ = some d₁ ∧ HasAck x peer id d₁.disk

section
variable {x : Crates} {peer id : String} {d d' start : Phone} {hs : List (Happening Ambient Event Answer)}

theorem Phone.Acked.append (h : Phone.Acked x peer id d hs) (hs' : List (Happening Ambient Event Answer)) :
    Phone.Acked x peer id d (hs ++ hs') := by
  obtain ⟨hs₁,hs₂,d₁,rfl,hrun,hack⟩ := h
  exact ⟨hs₁,hs₂ ++ hs',d₁,List.append_assoc ..,hrun,hack⟩

theorem Phone.Acked.of_run (hrun : Lts.run (Phone.step x) start hs = some d) (h : HasAck x peer id d.disk) :
    Phone.Acked x peer id start hs :=
  ⟨hs,[],d,(List.append_nil hs).symm,hrun,h⟩

/-- The text is on no disk and in no memory. -/
abbrev Phone.Textless (x : Crates) (peer id : String) : Phone → Prop :=
  Device.Sound (app x) (fun m => m.NoText peer id)
    (Event.Reads peer fun list => ∀ msg ∈ list, ¬ msg.isText id)
    (Effect.Careful peer fun value => ∀ v, value = some v → ¬ v.Received id)
    (fun disk => ∀ v, disk (.messages peer) = some v → ¬ v.Received id)

/-- An ack that awaits comes to disk, unless the client is killed before. -/
theorem acking_step (hwf : d.Wf) (h : d.Acking x peer id) {hap : Happening Ambient Event Answer}
    (hwhole : d.Whole x peer id hap) (hstep : Phone.step x d hap = some d') :
    d'.Acking x peer id ∨ HasAck x peer id d.disk ∨ HasAck x peer id d'.disk ∨
      Phone.Textless x peer id d' := by
  obtain ⟨value,tag,hawaits,hnames⟩ := h
  obtain h | rfl | ⟨ok,t,rfl,hold⟩ := hawaits.step hwf hstep
  · exact .inl ⟨value,tag,h,hnames⟩
  · obtain rfl := Option.some.inj hstep
    by_cases hack : HasAck x peer id d.disk
    · exact .inr (.inl hack)
    have hno : ¬ HasText peer id d.disk :=
      fun htext => hwhole ⟨htext,⟨value,tag,hawaits,hnames⟩,hack⟩
    exact .inr (.inr (.inr (textless_keeps.start fun v hv hr => hno ⟨v,hv,hr⟩)))
  · cases ok with
    | true =>
      obtain ⟨p,hp,rfl⟩ := Option.map_eq_some_iff.mp hstep
      obtain rfl := Option.some.inj (hp.symm.trans hold)
      exact .inr (.inr (.inl ⟨value,by simp [kvStore, performKv],hnames⟩))
    | false => exact absurd hold (hwhole t value tag hnames)

/-- A text that is filed from a page has its ack on the way, and any other step files none. -/
theorem textless_step (h : Phone.Textless x peer id d) {hap : Happening Ambient Event Answer}
    (hstep : Phone.step x d hap = some d') :
    d'.Acking x peer id ∨ Phone.Textless x peer id d' := by
  by_cases hnew : ∀ l ∈ d.label kvStore hap, ∀ e ∈ d.core.event? (app x) l.2,
      id ∉ filedTexts x l.1 e d.core.model peer
  · exact .inr (textless_keeps.step h hnew hstep)
  push Not at hnew
  obtain ⟨l,hl,e,he,hfiled⟩ := hnew
  obtain ⟨items,hwrite,hnames⟩ := update_acks hfiled
  have hacking : ∀ {core answers}, d.core.step (app x) l = some core → answers ⊆ d.answers →
      Phone.Acking x peer id ⟨core,d.disk,answers⟩ := by
    intro core answers hcore hsub
    obtain ⟨c,ht,rfl⟩ := Core.step_event hcore he
    refine ⟨.outbox items,.saved,?_,hnames⟩
    exact Device.Wf.awaits_new ⟨h.wf,h.issued⟩ ht (ht.model_eq ▸ hwrite) rfl hsub d.disk
  cases hap with
  | act a action =>
    obtain ⟨l',hl',hstep⟩ := Option.bind_eq_some_iff.mp hstep
    obtain rfl : l' = l := Option.some.inj (hl'.symm.trans hl)
    obtain ⟨core,hcore,rfl⟩ := Option.map_eq_some_iff.mp hstep
    exact .inl (hacking hcore fun _ h => h)
  | deliver a t =>
    obtain ⟨l',hl',hstep⟩ := Option.bind_eq_some_iff.mp hstep
    obtain rfl : l' = l := Option.some.inj (hl'.symm.trans hl)
    obtain ⟨core,hcore,rfl⟩ := Option.map_eq_some_iff.mp hstep
    exact .inl (hacking hcore fun _ hq => List.mem_of_mem_filter hq)
  | perform | kill => simp [Device.label] at hl

/-- Every text that a run leaves on disk has its ack on disk at some point, or on the way there, as long
as the client is not killed between the two writes. -/
theorem texts_acknowledged {disk : Disk} (hdisk : ¬ HasText peer id disk)
    (hwhole : Lts.Along (Phone.step x) (Phone.Whole x peer id) (Device.fresh (app x) disk) hs)
    (hrun : Lts.run (Phone.step x) (Device.fresh (app x) disk) hs = some d)
    (htext : HasText peer id d.disk) :
    Phone.Acked x peer id (Device.fresh (app x) disk) hs ∨ d.Acking x peer id := by
  let start : Phone := Device.fresh (app x) disk
  let I : List (Happening Ambient Event Answer) → Phone → Prop := fun hs d =>
    Lts.run (Phone.step x) start hs = some d ∧ d.Wf ∧
      (Phone.Acked x peer id start hs ∨ d.Acking x peer id ∨ Phone.Textless x peer id d)
  have hstart : Phone.Textless x peer id start := textless_keeps.start fun v hv hr => hdisk ⟨v,hv,hr⟩
  have hend : I ([] ++ hs) d := by
    refine Lts.run_invariant_past (Phone.step x) (I := I) (fun hs d hap d' h hw hstep => ?_)
      ⟨rfl,⟨hstart.wf,hstart.issued⟩,.inr (.inr hstart)⟩ hwhole hrun
    obtain ⟨hrun,hwf,h⟩ := h
    have hrun' := Lts.run_append_eq_some _ hrun (Lts.run_single _ hstep)
    refine ⟨hrun',hwf.step hstep,?_⟩
    obtain hacked | hacking | hno := h
    · exact .inl (hacked.append _)
    · obtain h | h | h | h := acking_step hwf hacking hw hstep
      · exact .inr (.inl h)
      · exact .inl ((Phone.Acked.of_run hrun h).append _)
      · exact .inl (.of_run hrun' h)
      · exact .inr (.inr h)
    · exact .inr (textless_step hno hstep)
  obtain ⟨-,-,h | h | h⟩ := hend
  · exact .inl h
  · exact .inr h
  · obtain ⟨value,hv,hreceived⟩ := htext
    exact absurd hreceived (h.disk value hv)

theorem not_acked {start d : Phone} {hs : List (Happening Ambient Event Answer)}
    (h : Lts.Along (Phone.step x) (fun d _ => ¬ HasAck x peer id d.disk) start hs)
    (hrun : Lts.run (Phone.step x) start hs = some d) (hd : ¬ HasAck x peer id d.disk) :
    ¬ Phone.Acked x peer id start hs := by
  rintro ⟨hs₁,hs₂,d₁,rfl,hrun₁,hack⟩
  cases hs₂ with
  | nil =>
    rw [List.append_nil] at hrun
    exact hd (Option.some.inj (hrun₁.symm.trans hrun) ▸ hack)
  | cons hap hs₂ => exact (Lts.along_append _ h hrun₁).2.1 hack

end

/-- What a stored outbox has is for others. -/
def KvValue.spares (peer : String) : KvValue → Bool
  | .outbox items => items.all fun i => i.recipient ≠ peer
  | _ => true

theorem not_hasAck {x : Crates} {peer id : String} {disk : Disk}
    (h : (disk .outbox).all (KvValue.spares peer) = true) : ¬ HasAck x peer id disk := by
  rintro ⟨value,hvalue,hnames⟩
  rw [hvalue, Option.all_some] at h
  cases value with
  | outbox items =>
    obtain ⟨i,hi,hrecipient,-⟩ := hnames
    simpa [hrecipient] using List.all_eq_true.mp h i hi
  | _ => exact hnames

theorem whole_of_lasting {x : Crates} {peer id : String} {d : Phone} {hap : Happening Ambient Event Answer}
    (h : hap.lasting = true) : d.Whole x peer id hap := by
  cases hap with
  | act | deliver => trivial
  | perform ok =>
    cases ok with
    | true => trivial
    | false => simp [Happening.lasting] at h
  | kill => simp [Happening.lasting] at h

/-- Stored contacts have a peer that is not blocked. -/
def KvValue.befriends (peer : String) : KvValue → Bool
  | .contacts list => list.any fun c => c.pubkey = peer && !c.blocked
  | _ => false

/-- A contact on disk. -/
def contactDisk : Disk
  | .contacts => some (.contacts [Contact.new (samplePeer 7) "" 0])
  | _ => none

/-- Online, with a text to somebody else on the wire and everything written. -/
def sampleAway : List (Happening Ambient Event Answer) :=
  sampleActs [.shell (.identityLoaded sampleSecret)] ++ performs 6 ++
    [0,1,2].map (.deliver .sample) ++ performs 1 ++ [3,4,6,5].map (.deliver .sample) ++
    sampleActs ([.drain,.drain,.answer 7 (sampleOk challengeText),.answer 9 (sampleOk tokenText),
      .drain,.drain] ++ sampleText (samplePeer 8)) ++ performs 4

/-- A launch that finds that text still in the outbox and has it on the wire again. -/
def sampleReturn : List (Happening Ambient Event Answer) :=
  sampleActs [.shell (.identityLoaded sampleSecret)] ++ performs 6 ++
    [0,1,2].map (.deliver .sample) ++ performs 2 ++ [3,4,6,7,5].map (.deliver .sample) ++
    sampleActs [.drain,.drain,.answer 8 (sampleOk challengeText),.answer 10 (sampleOk tokenText),
      .drain,.drain]

/-- What the client keeps of a text of the contact. -/
def Phone.mailed (d : Phone) : Ingest :=
  delivered (.mailing [1]) .sample [(samplePeer 7,⟨900,.text "m" "hi"⟩)]
    { d.core.model with polling := false, pollRetries := 0 }

/-- What it asks of the store then. -/
def Phone.writes (d : Phone) : List Effect :=
  Cmd.requests (d.mailed.persist Ambient.sample.hash d.mailed.model).2

/-- A poll is under way while a batch is on the wire, and nothing is left to write. -/
def Phone.settled (ticket : ℕ) (d : Phone) : Bool :=
  Running.polls ticket d.core && d.core.model.secretKey = some sampleSecret && d.core.model.flushing &&
    (d.oldest kvStore).isNone && d.isExternal kvStore (.answer ticket (.http (mailResult [1]))) &&
    (d.disk .outbox).all (KvValue.spares (samplePeer 7))

/-- The disk once the conversation with the text is written. -/
def torn (disk : Disk) : Disk :=
  (performKv disk (.set (.messages (samplePeer 7)) (.messages [⟨"m","hi",900,false,false⟩]))).1

/-- The first thing that is written of the text is its conversation; after a launch from that disk,
nothing at all is. -/
def Phone.tears (d : Phone) : Bool :=
  d.settled 10 && (d.writes.head?.bind fun f => (f.filed (samplePeer 7)).bind KvValue.messages?) =
    some [⟨"m","hi",900,false,false⟩] &&
  (Lts.runAlong (Phone.step (.mailing [1]))
    (fun d _ => (d.disk .outbox).all (KvValue.spares (samplePeer 7)) = true)
    (Device.fresh (app (.mailing [1])) (torn d.disk)) sampleReturn).any
    fun d => d.settled 11 && d.writes.isEmpty && (d.disk .contacts).any (KvValue.befriends (samplePeer 7)) &&
      ((d.disk (.messages (samplePeer 7))).bind KvValue.messages?) = some [⟨"m","hi",900,false,false⟩]

theorem away_run : Lts.Along (Phone.step (.mailing [1]))
      (fun d _ => (d.disk .outbox).all (KvValue.spares (samplePeer 7)) = true)
      (Device.fresh (app (.mailing [1])) contactDisk) sampleAway ∧
    ∃ d, Lts.run (Phone.step (.mailing [1])) (Device.fresh (app (.mailing [1])) contactDisk) sampleAway = some d ∧
      d.tears = true :=
  Lts.exists_of_runAlong _ (by decide +kernel)

theorem filed_eq_some {peer : String} {f : Effect} {value : KvValue} (h : f.filed peer = some value) :
    ∃ tag, f = .kv (.set (.messages peer) value) tag := by
  unfold Effect.filed at h
  split at h
  · simp only [Option.ite_none_right_eq_some, Option.some.injEq] at h
    obtain ⟨rfl,rfl⟩ := h
    exact ⟨_,rfl⟩
  · simp at h

/-- The page is taken in. -/
theorem settled_page {d : Phone} {ticket : ℕ} (h : d.settled ticket = true) :
    ∃ core cmds, Phone.step (.mailing [1]) d (.act .sample (.answer ticket (.http (mailResult [1])))) =
      some ⟨core,d.disk,d.answers⟩ ∧ core.model.flushing = true ∧
    core.queue = .startFlush :: Cmd.events cmds ∧
    core.pending = (d.core.settle ticket).pending ++
      number d.core.next (d.writes ++ Cmd.requests cmds) ∧
    ∀ value tag, .request (.kv (.set .outbox value) tag) ∉ cmds := by
  simp only [Phone.settled, Bool.and_eq_true, decide_eq_true_eq] at h
  obtain ⟨⟨⟨⟨⟨hpolls,hsecret⟩,hflushing⟩,-⟩,hexternal⟩,-⟩ := h
  have hpage : readPage (.mailing [1]) ((Crates.mailing [1]).deliver (mailResult [1])) =
      some (postedPage [1]) := readPage_mailing (by decide +kernel)
  have hid : d.core.model.identity (.mailing [1]) = some postedIdentity := mailing_identity hsecret
  obtain ⟨he,hk⟩ := Running.polls_event (x := .mailing [1]) hpolls (mailResult [1])
  obtain ⟨core,hcore,hmodel⟩ := Running.polls_step .sample hpolls hpage hid
  obtain ⟨c,ht,rfl⟩ := Core.step_event hcore he
  obtain ⟨cmds,hcmds,hno⟩ := @pollResult_cmds _ Ambient.sample _ _ _ _ hk hpage hid
  have hmatch := ingested_delivered (.mailing [1]) .sample (postedPage [1]) postedIdentity
    { d.core.model with polling := false, pollRetries := 0 }
  rw [← Ingest.persist_matches Ambient.sample.hash hmatch.symm (ingested_intact hk), mailed_text] at hcmds
  change _ = (d.mailed.persist Ambient.sample.hash d.mailed.model).2 ++ _ at hcmds
  cases ht with
  | answer hq _ _ =>
  refine ⟨(d.core.settle ticket).process (app (.mailing [1])) Ambient.sample
    (.pollResult d.core.model.pollGen ((Crates.mailing [1]).deliver (mailResult [1]))),cmds,?_,?_,?_,?_,hno⟩
  · simp only [Phone.step, Device.step, Device.label, hexternal, if_true, Option.bind_some]
    rw [show d.core.step _ _ = _ from hcore]
    rfl
  · obtain ⟨_,_,_,_,_,_,hing,-⟩ := ingested_ingested (.mailing [1]) .sample (postedPage [1])
      postedIdentity { d.core.model with polling := false, pollRetries := 0 }
    rw [show Core.model _ = _ from hmodel, hing]
    exact hflushing
  · change d.core.queue ++ Cmd.events (pollResult _ _ _ _ d.core.model).2 = _
    rw [hq, hcmds, Cmd.events_append, (Ingest.persist_writes _ d.mailed _).events]
    rfl
  · change _ ++ number d.core.next (Cmd.requests (pollResult _ _ _ _ d.core.model).2) = _
    rw [hcmds, Cmd.requests_append]
    rfl

theorem settled_no_ack {d : Phone} {ticket : ℕ} (h : d.settled ticket = true) :
    ¬ HasAck (.mailing [1]) (samplePeer 7) "m" d.disk := by
  simp only [Phone.settled, Bool.and_eq_true] at h
  exact not_hasAck h.2

/-- The text is taken in and its conversation is written. -/
def sampleTaking : List (Happening Ambient Event Answer) :=
  sampleActs [.answer 10 (.http (mailResult [1])),.drain] ++ performs 1

theorem settled_taking {d : Phone} (hwf : d.Wf) (h : d.settled 10 = true)
    (hfirst : (d.writes.head?.bind fun f => (f.filed (samplePeer 7)).bind KvValue.messages?) =
      some [⟨"m","hi",900,false,false⟩]) :
    ∃ d', Lts.run (Phone.step (.mailing [1])) d sampleTaking = some d' ∧ d'.disk = torn d.disk ∧
      Lts.Along (Phone.step (.mailing [1])) (fun d _ => ¬ HasAck (.mailing [1]) (samplePeer 7) "m" d.disk)
        d sampleTaking := by
  have hno := settled_no_ack h
  obtain ⟨core,cmds,hpage,hflushing,hqueue,hpending,-⟩ := settled_page h
  simp only [Phone.settled, Bool.and_eq_true, Option.isNone_iff_eq_none] at h
  have hold := h.1.1.2
  simp only [Option.bind_eq_some_iff] at hfirst
  obtain ⟨f,hf,value,hfiled,hvalue⟩ := hfirst
  obtain ⟨fs,hfs⟩ := List.head?_eq_some_iff.mp hf
  obtain ⟨tag,rfl⟩ := filed_eq_some hfiled
  obtain rfl : value = .messages [⟨"m","hi",900,false,false⟩] := by
    cases value with
    | messages list => exact congrArg KvValue.messages (Option.some.inj hvalue)
    | _ => simp [KvValue.messages?] at hvalue
  have hbusy : flushNext (.mailing [1]) .sample core.model = (core.model,[]) := by
    simp [flushNext, hflushing]
  let core₂ : Running := ⟨core.model,Cmd.events cmds ++ [],core.pending ++ [],core.next⟩
  have hdrain : core.step (app (.mailing [1])) (.sample,.drain) = some core₂ := by
    simp only [Core.step, Core.take, hqueue, Option.map_some, Option.some.injEq]
    exact Core.process_of_update (A := app (.mailing [1])) (c := { core with queue := Cmd.events cmds })
      (a := Ambient.sample) (e := Event.startFlush) hbusy
  rw [hfs] at hpending
  have hnext : Device.oldest kvStore ⟨core₂,d.disk,d.answers⟩ = some (d.core.next,_) :=
    Device.oldest_new hwf hold (List.filter_subset_self _) rfl ((List.append_nil _).trans hpending) d.disk
  let r := kvStore.perform (.kv (.set (.messages (samplePeer 7))
    (.messages [⟨"m","hi",900,false,false⟩])) tag) d.disk
  have hstep₂ : Phone.step (.mailing [1]) ⟨core,d.disk,d.answers⟩ (.act .sample .drain) =
      some ⟨core₂,d.disk,d.answers⟩ := by
    simp only [Phone.step, Device.step, Device.label, Device.isExternal, if_true, Option.bind_some]
    rw [hdrain]
    rfl
  have hstep₃ : Phone.step (.mailing [1]) ⟨core₂,d.disk,d.answers⟩ (.perform true) =
      some ⟨core₂,r.1,d.answers ++ [(d.core.next,r.2)]⟩ := by
    rw [Phone.step, Device.step, hnext]
    rfl
  have htaking : sampleTaking = [.act .sample (.answer 10 (.http (mailResult [1]))),
      .act .sample .drain,.perform true] := by rfl
  rw [htaking]
  refine ⟨⟨core₂,r.1,d.answers ++ [(d.core.next,r.2)]⟩,?_,rfl,hno,fun t ht => ?_⟩
  · simp only [Lts.run_cons_eq_some]
    exact ⟨_,hpage,_,hstep₂,_,hstep₃,rfl⟩
  obtain rfl := Option.some.inj (hpage.symm.trans ht)
  refine ⟨hno,fun t ht => ?_⟩
  obtain rfl := Option.some.inj (hstep₂.symm.trans ht)
  exact ⟨hno,fun _ _ => trivial⟩

/-- Of a page of which nothing is written, no ack is on the way. -/
theorem settled_idle {d : Phone} {ticket : ℕ} (h : d.settled ticket = true) (hnone : d.writes = []) :
    ∃ d', Phone.step (.mailing [1]) d (.act .sample (.answer ticket (.http (mailResult [1])))) = some d' ∧
      d'.disk = d.disk ∧ ¬ d'.Acking (.mailing [1]) (samplePeer 7) "m" := by
  obtain ⟨core,cmds,hpage,-,-,hpending,hcmds⟩ := settled_page h
  refine ⟨_,hpage,rfl,?_⟩
  rintro ⟨value,tag,⟨t,ht,hop,hopen⟩,-⟩
  simp only [Phone.settled, Bool.and_eq_true, Option.isNone_iff_eq_none] at h
  rw [hnone, List.nil_append] at hpending
  obtain ht | ht := List.mem_append.mp (hpending ▸ ht)
  · have hperformed := List.find?_eq_none.mp h.1.1.2 _ (List.filter_subset_self _ ht)
    refine hperformed ?_
    simp only [hop, Bool.true_and, List.all_eq_true]
    exact fun q hq => by simpa using hopen q hq
  · obtain ⟨c,hc,hreq⟩ := List.mem_filterMap.mp (mem_number ht).1
    cases c with
    | request f => exact hcmds value tag (Option.some.inj hreq ▸ hc)
    | _ => simp at hreq

theorem texts_acknowledged_taking : ∃ d,
    Lts.run (Phone.step (.mailing [1])) (Device.fresh (app (.mailing [1])) contactDisk)
      (sampleAway ++ sampleTaking) = some d ∧
    d.disk (.messages (samplePeer 7)) = some (.messages [⟨"m","hi",900,false,false⟩]) ∧
    (Phone.Acked (.mailing [1]) (samplePeer 7) "m" (Device.fresh (app (.mailing [1])) contactDisk)
      (sampleAway ++ sampleTaking) ∨ d.Acking (.mailing [1]) (samplePeer 7) "m") := by
  obtain ⟨-,d,hd,htears⟩ := away_run
  simp only [Phone.tears, Bool.and_eq_true, decide_eq_true_eq] at htears
  obtain ⟨⟨hsettled,hfirst⟩,-⟩ := htears
  obtain ⟨d',hd',hdisk,-⟩ := settled_taking (Device.Wf.run hd) hsettled hfirst
  have htext : d'.disk (.messages (samplePeer 7)) = some (.messages [⟨"m","hi",900,false,false⟩]) := by
    rw [hdisk]
    rfl
  have hlasting : ∀ hap ∈ sampleAway ++ sampleTaking, hap.lasting = true :=
    List.all_eq_true.mp (by rfl : (sampleAway ++ sampleTaking).all Happening.lasting = true)
  have hwhole : Lts.Along (Phone.step (.mailing [1])) (Phone.Whole (.mailing [1]) (samplePeer 7) "m")
      (Device.fresh (app (.mailing [1])) contactDisk) (sampleAway ++ sampleTaking) :=
    (Lts.along_of_forall _ hlasting).mono _ fun _ _ h => whole_of_lasting h
  have hrun := Lts.run_append_eq_some _ hd hd'
  refine ⟨d',hrun,htext,texts_acknowledged ?_ hwhole hrun ⟨_,htext,?_⟩⟩
  · rintro ⟨v,hv,-⟩
    simp [contactDisk] at hv
  · exact ⟨_,List.mem_singleton_self _,rfl,rfl⟩

/-- A text is taken in while a batch is on the wire and its conversation written, the client is killed and
started again, and the relay serves the text again: it is a duplicate now, and an ack for it never was
anywhere. -/
theorem text_unacknowledged : ∃ d hs,
    hs = sampleAway ++ (sampleTaking ++ (.kill ::
      (sampleReturn ++ sampleActs [.answer 11 (.http (mailResult [1]))]))) ∧
    Lts.run (Phone.step (.mailing [1])) (Device.fresh (app (.mailing [1])) contactDisk) hs = some d ∧
    HasText (samplePeer 7) "m" d.disk ∧
    (d.disk .contacts).any (KvValue.befriends (samplePeer 7)) = true ∧
    ¬ Phone.Acked (.mailing [1]) (samplePeer 7) "m" (Device.fresh (app (.mailing [1])) contactDisk) hs ∧
    ¬ d.Acking (.mailing [1]) (samplePeer 7) "m" := by
  obtain ⟨haway,d,hd,htears⟩ := away_run
  simp only [Phone.tears, Bool.and_eq_true, decide_eq_true_eq] at htears
  obtain ⟨⟨hsettled,hfirst⟩,hreturn⟩ := htears
  obtain ⟨hreturn,d₂,hd₂,hserved⟩ := Lts.exists_of_runAlong _ hreturn
  simp only [Bool.and_eq_true, decide_eq_true_eq, List.isEmpty_iff] at hserved
  obtain ⟨⟨⟨hsettled₂,hnone⟩,hfriend⟩,htext⟩ := hserved
  obtain ⟨d₁,hd₁,hdisk₁,halong⟩ := settled_taking (Device.Wf.run hd) hsettled hfirst
  obtain ⟨d₃,hd₃,hdisk₃,hidle⟩ := settled_idle hsettled₂ hnone
  have hno₁ : ¬ HasAck (.mailing [1]) (samplePeer 7) "m" d₁.disk := by
    have hno := settled_no_ack hsettled
    rw [hdisk₁]
    exact hno
  have hno₃ : ¬ HasAck (.mailing [1]) (samplePeer 7) "m" d₃.disk := hdisk₃ ▸ settled_no_ack hsettled₂
  have hkill : Phone.step (.mailing [1]) d₁ .kill =
      some (Device.fresh (app (.mailing [1])) (torn d.disk)) := hdisk₁ ▸ rfl
  have hback := Lts.run_append_eq_some _ hd₂ (Lts.run_single _ hd₃)
  have hrun := Lts.run_append_eq_some _ hd (Lts.run_append_eq_some _ hd₁
    ((Lts.run_cons_eq_some _).mpr ⟨_,hkill,hback⟩))
  refine ⟨d₃,_,rfl,hrun,?_,hdisk₃ ▸ hfriend,?_,hidle⟩
  · obtain ⟨value,hvalue,hlist⟩ := Option.bind_eq_some_iff.mp htext
    refine ⟨value,hdisk₃ ▸ hvalue,?_⟩
    cases value with
    | messages list =>
      obtain rfl := Option.some.inj hlist
      exact ⟨_,List.mem_singleton_self _,rfl,rfl⟩
    | _ => simp [KvValue.messages?] at hlist
  · have hlast : Lts.Along (Phone.step (.mailing [1]))
        (fun d _ => ¬ HasAck (.mailing [1]) (samplePeer 7) "m" d.disk) d₂
        (sampleActs [.answer 11 (.http (mailResult [1]))]) :=
      ⟨settled_no_ack hsettled₂,fun _ _ => trivial⟩
    have hafter := Lts.along_append_of_run _ (hreturn.mono _ fun _ _ h => not_hasAck h) hd₂ hlast
    refine not_acked (Lts.along_append_of_run _ (haway.mono _ fun _ _ h => not_hasAck h) hd
      (Lts.along_append_of_run _ halong hd₁ ⟨hno₁,fun t ht => ?_⟩)) hrun hno₃
    obtain rfl := Option.some.inj (hkill.symm.trans ht)
    exact hafter

end Skrepka.Client
