import Skrepka.Lib.Loop
import Skrepka.Client.Update

/-! What the handlers do to the parts of the model that are not their own, and the shape of the
commands they issue. -/
namespace Skrepka.Client
open Rust Mvu

/-- Only writes of a value, whose results come back as `saved`. -/
def Writes (cs : Commands) : Prop :=
  ∀ c ∈ cs, ∃ key value, c = .request (.kv (.set key value) .saved)

@[simp] theorem writes_nil : Writes [] := by simp [Writes]

@[simp] theorem writes_append {cs ds : Commands} :
    Writes (cs ++ ds) ↔ Writes cs ∧ Writes ds := by simp [Writes, or_imp, forall_and]

theorem Writes.events {cs : Commands} (h : Writes cs) : Cmd.events cs = [] := by
  refine List.filterMap_eq_nil_iff.mpr fun c hc => ?_
  obtain ⟨key,value,rfl⟩ := h c hc
  rfl

theorem Writes.requests {cs : Commands} (h : Writes cs) {f : Effect}
    (hf : f ∈ Cmd.requests cs) : ∃ key value, f = .kv (.set key value) .saved := by
  obtain ⟨c,hc,hf⟩ := List.mem_filterMap.mp hf
  obtain ⟨key,value,rfl⟩ := h c hc
  exact ⟨key,value,(Option.some.inj hf).symm⟩

theorem writes_guarded {ops : Model → List KvOp} (h : ∀ m, ∀ op ∈ ops m, ∃ k v, op = .set k v)
    (m : Model) : Writes (guarded ops m).2 := by
  rw [guarded_snd]
  split
  · exact writes_nil
  · intro c hc
    obtain ⟨op,hop,rfl⟩ := List.mem_map.mp hc
    obtain ⟨k,v,rfl⟩ := h m op hop
    exact ⟨k,v,rfl⟩

@[simp] theorem persistContacts_fst (m : Model) : (persistContacts m).1 = m.refused :=
  guarded_fst _ m
@[simp] theorem persistProfile_fst (m : Model) : (persistProfile m).1 = m.refused :=
  guarded_fst _ m
@[simp] theorem persistOutbox_fst (m : Model) : (persistOutbox m).1 = m.refused :=
  guarded_fst _ m
@[simp] theorem persistMessages_fst (peer : String) (m : Model) :
    (persistMessages peer m).1 = m.refused := guarded_fst _ m
@[simp] theorem persistSeenIds_fst (m : Model) : (persistSeenIds m).1 = m.refused :=
  guarded_fst _ m

@[simp] theorem persistContacts_writes (m : Model) : Writes (persistContacts m).2 :=
  writes_guarded (by simp) m
@[simp] theorem persistProfile_writes (m : Model) : Writes (persistProfile m).2 :=
  writes_guarded (by simp) m
@[simp] theorem persistOutbox_writes (m : Model) : Writes (persistOutbox m).2 :=
  writes_guarded (by simp) m
@[simp] theorem persistMessages_writes (peer : String) (m : Model) :
    Writes (persistMessages peer m).2 := writes_guarded (by simp) m
@[simp] theorem persistSeenIds_writes (m : Model) : Writes (persistSeenIds m).2 :=
  writes_guarded (by simp) m

/-- An item that no request has carried yet. -/
def OutboxItem.Fresh (i : OutboxItem) : Prop := i.retries = 0 ∧ i.firstAttempt = 0

/-- Fresh items at the end of the outbox. -/
def Grows (xs ys : List OutboxItem) : Prop := ∃ new, ys = xs ++ new ∧ ∀ i ∈ new, i.Fresh

theorem Grows.refl (xs : List OutboxItem) : Grows xs xs := ⟨[],by simp⟩

theorem Grows.trans {xs ys zs : List OutboxItem} (h₁ : Grows xs ys) (h₂ : Grows ys zs) :
    Grows xs zs := by
  obtain ⟨new₁,rfl,hf₁⟩ := h₁
  obtain ⟨new₂,rfl,hf₂⟩ := h₂
  refine ⟨new₁ ++ new₂,by simp,fun i hi => ?_⟩
  rcases List.mem_append.mp hi with hi | hi
  · exact hf₁ i hi
  · exact hf₂ i hi

/-- The model after a page, or any part of one, was folded in: only data is touched, and the
outbox grows. -/
def Model.Ingested (m m' : Model) : Prop :=
  ∃ contacts messages seenIds outbox cursor error,
    m' = { m with contacts, messages, seenIds, outbox, cursor, error } ∧ Grows m.outbox outbox

theorem Model.Ingested.refl (m : Model) : m.Ingested m := ⟨_,_,_,_,_,_,rfl,.refl _⟩

theorem Model.Ingested.trans {m₁ m₂ m₃ : Model} (h₁ : m₁.Ingested m₂) (h₂ : m₂.Ingested m₃) :
    m₁.Ingested m₃ := by
  obtain ⟨_,_,_,_,_,_,rfl,hg₁⟩ := h₁
  obtain ⟨_,_,_,_,_,_,rfl,hg₂⟩ := h₂
  exact ⟨_,_,_,_,_,_,rfl,hg₁.trans hg₂⟩

namespace Ingest

/-- A part of ingestion: what it does to the locals touches only data of the model. -/
def Folds (f : Ingest → Ingest) : Prop :=
  ∀ s : Ingest, s.model.Ingested (f s).model

theorem Folds.comp {f g : Ingest → Ingest} (hg : Folds g) (hf : Folds f) :
    Folds (fun s => g (f s)) := fun s => (hf s).trans (hg (f s))

theorem stop_folds (prevCursor : ℤ) (error : String) : Folds (stop prevCursor error) :=
  fun _ => ⟨_,_,_,_,_,_,rfl,.refl _⟩

theorem addStranger_folds (x : Crates) (sender : String) (ts : ℤ) :
    Folds (addStranger x sender ts) :=
  fun _ => ⟨_,_,_,_,_,_,rfl,_,rfl,by simp [OutboxItem.Fresh, OutboxItem.profile, OutboxItem.new]⟩

theorem storeText_folds (hash : HashOrder) (sender : String) (ts : ℤ) (msgId body : String) :
    Folds (storeText hash sender ts msgId body) := by
  intro s
  simp only [storeText]
  split <;> exact ⟨_,_,_,_,_,_,rfl,.refl _⟩

theorem text_folds (x : Crates) (hash : HashOrder) (sender : String) (ts : ℤ)
    (msgId body : String) : Folds (text x hash sender ts msgId body) := by
  intro s
  unfold text
  split
  · exact storeText_folds hash sender ts msgId body s
  split
  · exact .refl _
  · exact (storeText_folds hash sender ts msgId body).comp (addStranger_folds x sender ts) s

theorem profile_folds (now : ℤ) (sender : String) (ts : ℤ)
    (displayName bio photo : Option String) :
    Folds (profile now sender ts displayName bio photo) := by
  intro s
  simp only [profile]
  split
  · exact .refl _
  split
  · exact ⟨_,_,_,_,_,_,rfl,.refl _⟩
  · exact .refl _

theorem payload_folds (x : Crates) (hash : HashOrder) (now : ℤ) (sender : String)
    (p : ParsedPayload) : Folds (payload x hash now sender p) := by
  intro s
  simp only [payload]
  split
  · exact .refl _
  split
  · exact .refl _
  cases p.payload with
  | text id body => exact text_folds x hash sender _ id body s
  | deliveryAck ackIds => exact .refl _
  | profile displayName bio photo => exact profile_folds now sender _ displayName bio photo s

theorem event_folds (x : Crates) (hash : HashOrder) (now : ℤ) (id : Crypto.Identity)
    (blob : String) : Folds (event x hash now id blob) := by
  intro s
  unfold event
  split
  · exact .refl _
  · exact payload_folds x hash now _ _ { s with eventsStored := s.eventsStored+1 }

theorem events_folds (x : Crates) (hash : HashOrder) (now prevCursor : ℤ)
    (id : Crypto.Identity) (evs : List String) :
    Folds (events x hash now prevCursor id evs) := by
  induction evs with
  | nil => exact fun s => .refl _
  | cons blob evs ih =>
    intro s
    simp only [events]
    split
    · exact ih s
    split
    · exact stop_folds _ _ s
    split
    · exact stop_folds prevCursor _ { s with eventsProcessed := s.eventsProcessed+1 }
    · exact (event_folds x hash now id blob
        { s with eventsProcessed := s.eventsProcessed+1, budget := _ }).trans (ih _)

theorem ackWatermark_folds (now : ℤ) (sender : String) (pending : PendingAck) :
    Folds (ackWatermark now sender pending) := by
  intro s
  simp only [ackWatermark]
  split
  · exact .refl _
  · exact ⟨_,_,_,_,_,_,rfl,.refl _⟩

theorem markConvo_folds (sender : String) (pending : PendingAck) :
    Folds (markConvo sender pending) := by
  intro s
  simp only [markConvo]
  split
  · exact .refl _
  split
  · exact ⟨_,_,_,_,_,_,rfl,.refl _⟩
  · exact .refl _

theorem applyAck_folds (now : ℤ) (pending : String × PendingAck) :
    Folds (applyAck now · pending) := by
  intro s
  simp only [applyAck]
  split
  · exact .refl _
  · exact (markConvo_folds _ _).comp (ackWatermark_folds now _ _) s

theorem applyAcks_folds (now : ℤ) : Folds (applyAcks now) := by
  intro s
  unfold applyAcks
  generalize s.pendingAcks.toList = acks
  induction acks generalizing s with
  | nil => exact .refl _
  | cons ack acks ih => exact (applyAck_folds now ack s).trans (ih _)

theorem queueAcks_folds (x : Crates) (ackTs : ℤ) : Folds (queueAcks x ackTs) := by
  refine fun _ => ⟨_,_,_,_,_,_,rfl,_,rfl,fun i hi => ?_⟩
  obtain ⟨target,-,hi⟩ := List.mem_flatMap.mp hi
  obtain ⟨ids,-,rfl⟩ := List.mem_map.mp hi
  exact ⟨rfl,rfl⟩

end Ingest

theorem Upd.all_writes {fs : List Handler} (h : ∀ f ∈ fs, ∀ m, Writes (f m).2) (m : Model) :
    Writes (Upd.all fs m).2 := by
  induction fs generalizing m with
  | nil => exact writes_nil
  | cons f fs ih =>
    exact writes_append.mpr ⟨h f List.mem_cons_self m,
      ih (fun g hg => h g (List.mem_cons_of_mem f hg)) _⟩

theorem Upd.when_writes {b : Bool} {f : Handler} (h : ∀ m, Writes (f m).2) (m : Model) :
    Writes (Upd.when b f m).2 := by
  cases b
  · exact writes_nil
  · exact h m

/-- Writing changes nothing of a model whose writes are not refused. -/
theorem Upd.all_persist_fst {fs : List Handler} {m : Model}
    (h : ∀ f ∈ fs, (f m).1 = m) : (Upd.all fs m).1 = m := by
  induction fs with
  | nil => rfl
  | cons f fs ih =>
    change (Upd.all fs (f m).1).1 = m
    rw [h f List.mem_cons_self]
    exact ih fun g hg => h g (List.mem_cons_of_mem f hg)

theorem Upd.all_persist_snd {fs : List Handler} {m : Model} (h : ∀ f ∈ fs, (f m).1 = m) :
    (Upd.all fs m).2 = fs.flatMap fun f => (f m).2 := by
  induction fs with
  | nil => rfl
  | cons f fs ih =>
    change (f m).2 ++ (Upd.all fs (f m).1).2 = _
    rw [h f List.mem_cons_self, ih fun g hg => h g (List.mem_cons_of_mem f hg)]
    rfl

theorem Upd.when_fst {b : Bool} {f : Handler} {m : Model} (h : (f m).1 = m) :
    (Upd.when b f m).1 = m := by
  cases b
  · rfl
  · exact h

namespace Ingest

theorem persist_writes (hash : HashOrder) (s : Ingest) (m : Model) :
    Writes (s.persist hash m).2 := by
  simp only [persist, Upd.and_snd, writes_append]
  refine ⟨Upd.all_writes (fun f hf m => ?_) m,Upd.when_writes persistSeenIds_writes _,
    Upd.when_writes persistContacts_writes _,Upd.when_writes persistOutbox_writes _⟩
  obtain ⟨peer,-,rfl⟩ := List.mem_map.mp hf
  exact persistMessages_writes peer m

theorem persist_fst (hash : HashOrder) (s : Ingest) {m : Model} (h : m.kvLoadFailed = false) :
    (s.persist hash m).1 = m := by
  have hr : m.refused = m := Model.refused_of_failed h
  have hall : (Upd.all ((hash.iter s.touchedConvos).map persistMessages) m).1 = m := by
    refine Upd.all_persist_fst fun f hf => ?_
    obtain ⟨peer,-,rfl⟩ := List.mem_map.mp hf
    rw [persistMessages_fst, hr]
  have hwhen : ∀ (b : Bool) (f : Handler), (f m).1 = m.refused → (Upd.when b f m).1 = m :=
    fun b f hf => Upd.when_fst (hf.trans hr)
  simp only [persist, Upd.and_fst, hall]
  rw [hwhen _ _ (persistSeenIds_fst m), hwhen _ _ (persistContacts_fst m),
    hwhen _ _ (persistOutbox_fst m)]

/-- The writes of a page. -/
theorem persist_snd (hash : HashOrder) {s : Ingest} (hk : s.model.kvLoadFailed = false) :
    (s.persist hash s.model).2 =
      ((hash.iter s.touchedConvos).flatMap fun p => (persistMessages p s.model).2) ++
        ((Upd.when (s.touchedConvos ≠ ∅) persistSeenIds s.model).2 ++
          ((Upd.when s.contactsDirty persistContacts s.model).2 ++
            (Upd.when s.outboxDirty persistOutbox s.model).2)) := by
  have hsame : ∀ ops, (guarded ops s.model).1 = s.model := fun ops => by
    rw [guarded_fst, Model.refused_of_failed hk]
  have hall : ∀ f ∈ (hash.iter s.touchedConvos).map persistMessages, (f s.model).1 = s.model := by
    intro f hf
    obtain ⟨p,-,rfl⟩ := List.mem_map.mp hf
    exact hsame _
  have hwhen : ∀ (b : Bool) ops, (Upd.when b (guarded ops) s.model).1 = s.model :=
    fun b ops => Upd.when_fst (hsame ops)
  simp only [persist, Upd.and_snd, Upd.all_persist_fst hall, Upd.all_persist_snd hall, List.flatMap_map]
  rw [show (Upd.when (s.touchedConvos ≠ ∅) persistSeenIds s.model).1 = s.model from hwhen _ _,
    show (Upd.when s.contactsDirty persistContacts s.model).1 = s.model from hwhen _ _]

end Ingest

theorem adoptCursor_ingested (now : ℤ) (page : PollResp) (m : Model) :
    m.Ingested (adoptCursor now page m) := by
  simp only [adoptCursor]
  split
  · exact ⟨_,_,_,_,_,_,rfl,.refl _⟩
  · exact .refl _

theorem adoptCursor_eq (now : ℤ) (page : PollResp) (m : Model) :
    ∃ cursor, adoptCursor now page m = { m with cursor } := by
  simp only [adoptCursor]
  split <;> exact ⟨_,rfl⟩

/-- The locals of `ingest_poll` when it comes to writing them down. -/
def ingested (x : Crates) (amb : Ambient) (page : PollResp) (id : Crypto.Identity) (m : Model) :
    Ingest :=
  let s := Ingest.events x amb.hash (amb.now 1) m.cursor id page.events
    { model := adoptCursor (amb.now 0) page m }
  (s.applyAcks (amb.now 1)).queueAcks x (amb.now 2)

theorem ingested_ingested (x : Crates) (amb : Ambient) (page : PollResp) (id : Crypto.Identity)
    (m : Model) : m.Ingested (ingested x amb page id m).model :=
  (adoptCursor_ingested (amb.now 0) page m).trans
    (((Ingest.queueAcks_folds x (amb.now 2)).comp (Ingest.applyAcks_folds (amb.now 1))).comp
      (Ingest.events_folds x amb.hash (amb.now 1) m.cursor id page.events) _)

@[simp] theorem adoptCursor_identity (x : Crates) (now : ℤ) (page : PollResp) (m : Model) :
    (adoptCursor now page m).identity x = m.identity x := by
  obtain ⟨_,_,_,_,_,_,h,-⟩ := adoptCursor_ingested now page m
  rw [h]
  rfl

/-- Without an identity, or with the latch set, nothing but the cursor moves. -/
theorem ingestPoll_idle {x : Crates} (amb : Ambient) (page : PollResp) {m : Model}
    (h : m.kvLoadFailed = true ∨ m.identity x = none) :
    ∃ cursor, (ingestPoll x amb page m).1 = { m with cursor } := by
  by_cases hk : m.kvLoadFailed = true
  · refine ⟨m.cursor,?_⟩
    unfold ingestPoll
    rw [if_pos hk]
  · obtain ⟨c,hc⟩ := adoptCursor_eq (amb.now 0) page m
    have hid : (adoptCursor (amb.now 0) page m).identity x = none := by
      rw [adoptCursor_identity]
      exact h.resolve_left hk
    refine ⟨c,?_⟩
    rw [← hc]
    simp [ingestPoll, hk, hid]

theorem ingested_intact {x : Crates} {amb : Ambient} {page : PollResp} {id : Crypto.Identity} {m : Model}
    (hk : m.kvLoadFailed = false) : (ingested x amb page id m).model.kvLoadFailed = false := by
  obtain ⟨_,_,_,_,_,_,h,-⟩ := ingested_ingested x amb page id m
  rw [h]
  exact hk

/-- A page that is ingested is folded in, written down and followed by a flush. -/
theorem ingestPoll_eq {x : Crates} {amb : Ambient} {page : PollResp} {m : Model}
    {id : Crypto.Identity} (hk : m.kvLoadFailed = false) (hid : m.identity x = some id) :
    ingestPoll x amb page m =
      ((ingested x amb page id m).model,
        ((ingested x amb page id m).persist amb.hash (ingested x amb page id m).model).2 ++
          [.event .startFlush]) := by
  have hintact : (ingested x amb page id m).model.kvLoadFailed = false := ingested_intact hk
  have hfst := Ingest.persist_fst amb.hash (ingested x amb page id m) hintact
  simp only [ingestPoll, hk, adoptCursor_identity, hid]
  exact Prod.ext hfst rfl

theorem ingestPoll_cases (x : Crates) (amb : Ambient) (page : PollResp) (m : Model) :
    ∃ m' ws es, ingestPoll x amb page m = (m',ws ++ es) ∧ m.Ingested m' ∧ Writes ws ∧
      (es = [] ∨ es = [.event .startFlush]) := by
  cases hk : m.kvLoadFailed with
  | true => exact ⟨m,[],[],by simp [ingestPoll, hk],.refl m,writes_nil,.inl rfl⟩
  | false =>
    cases hid : m.identity x with
    | none =>
      exact ⟨_,[],[],by simp [ingestPoll, hk, hid],adoptCursor_ingested (amb.now 0) page m,
        writes_nil,.inl rfl⟩
    | some id =>
      exact ⟨_,_,_,ingestPoll_eq hk hid,ingested_ingested x amb page id m,
        Ingest.persist_writes _ _ _,.inr rfl⟩

/-- What the batch loop makes of the outbox of `m`. -/
def Model.batch (x : Crates) (amb : Ambient) (id : Crypto.Identity) (m : Model) :
    Batch × List OutboxItem :=
  flushLoop x amb.rng id (m.sendBatchBudget.getD maxSendBatchBytes) { error := m.error } m.outbox

/-- The model with a new send under way. -/
def Model.sending (amb : Ambient) (recipient : String) (b : Batch) (rest : List OutboxItem)
    (m : Model) : Model :=
  { m with
    outbox := b.taken.map (OutboxItem.stamp (amb.now 1)) ++ rest
    error := b.error
    flushing := true
    flushGen := m.flushGen+1
    inFlight := some ⟨recipient,b.messages.length,b.bytes⟩ }

/-- The outcomes of `flush_next`: it stands down, finds nothing that it can send, sends a
batch, or cannot build the request for it. -/
inductive Flushed (x : Crates) (amb : Ambient) (m : Model) : Model × Commands → Prop
  | gated : Flushed x amb m (m,[])
  | emptied {id b rest ws es} (hf : m.flushing = false) (hid : m.identity x = some id)
      (hb : m.batch x amb id = (b,rest)) (hr : b.recipient = none) (hw : Writes ws)
      (he : es = [] ∨ es = [.render]) :
      Flushed x amb m ({ m with outbox := b.taken ++ rest, error := b.error },ws ++ es)
  | sent {id token b rest recipient ws} (hf : m.flushing = false) (hid : m.identity x = some id)
      (htoken : m.token = some token) (hb : m.batch x amb id = (b,rest))
      (hr : b.recipient = some recipient) (hw : Writes ws) :
      Flushed x amb m (m.sending amb recipient b rest,
        ws ++ [.request (.http (sendRequest m token b.messages) (.sendResult (m.flushGen+1))),
          .request (.time flushWatchdogMs (.flushWatchdog (m.flushGen+1)))])
  | unsent {id b rest recipient ws error} (hf : m.flushing = false)
      (hid : m.identity x = some id) (hb : m.batch x amb id = (b,rest))
      (hr : b.recipient = some recipient) (hw : Writes ws) :
      Flushed x amb m ({ m.sending amb recipient b rest with
        flushing := false, inFlight := none, error },ws ++ [.render])

/-- Writing the outbox, or not, leaves a model alone that is allowed to write. -/
theorem persistIf_spec (dirty : Bool) {m : Model} (hk : m.kvLoadFailed = false) :
    ((if dirty then persistOutbox else .done : Handler) m).1 = m ∧
      Writes ((if dirty then persistOutbox else .done : Handler) m).2 := by
  cases dirty
  · exact ⟨rfl,writes_nil⟩
  · exact ⟨by simp [Model.refused_of_failed hk],persistOutbox_writes m⟩

theorem flushNext_flushed (x : Crates) (amb : Ambient) (m : Model) :
    Flushed x amb m (flushNext x amb m) := by
  unfold flushNext
  split
  · exact .gated
  rename_i hf
  split
  · exact .gated
  rename_i hk
  split
  · exact .gated
  split
  · rename_i id token hid htoken
    have hf : m.flushing = false := by simpa using hf
    have hk : m.kvLoadFailed = false := by simpa using hk
    obtain ⟨b,rest,hb⟩ : ∃ b rest, m.batch x amb id = (b,rest) := ⟨_,_,rfl⟩
    unfold Model.batch at hb
    simp only [flushBatch, hb]
    cases hr : b.recipient with
    | none =>
      cases b.dirty with
      | true =>
        have h := Flushed.emptied hf hid hb hr
          (persistOutbox_writes { m with outbox := b.taken ++ rest, error := b.error }) (.inr rfl)
        simpa [Model.refused_of_failed, hk, Upd.and] using h
      | false => simpa using Flushed.emptied hf hid hb hr writes_nil (.inl rfl)
    | some recipient =>
      let m' := { m with
        outbox := b.taken.map (OutboxItem.stamp (amb.now 1)) ++ rest, error := b.error }
      obtain ⟨hfst,hw⟩ := persistIf_spec
        (b.dirty || b.taken.any (fun i => i.firstAttempt = 0)) (m := m') hk
      simp only [sendBatch, m'] at hfst hw ⊢
      rw [hfst]
      split
      · exact .sent hf hid htoken hb hr hw
      · exact .unsent hf hid hb hr hw
  · exact .gated

end Skrepka.Client
