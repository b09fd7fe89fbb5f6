import Skrepka.Lib.Maps
import Skrepka.Client.Flight
import Skrepka.Client.Durable

/-! Nothing goes to a blocked peer: no part of the client queues an item for one, and what is on
the wire was in the queue. -/
namespace Skrepka.Client
open Rust Mvu Queue

/-- Every contact is filed under its own key. -/
def WellKeyed (contacts : PeerMap Contact) : Prop :=
  ∀ (k : String) (c : Contact), contacts[k]? = some c → c.pubkey = k

theorem WellKeyed.insert {contacts : PeerMap Contact} (h : WellKeyed contacts) {k : String}
    {c : Contact} (hc : c.pubkey = k) : WellKeyed (contacts.insert k c) := by
  intro a d hd
  rw [Maps.getElem?_insert] at hd
  split at hd
  · rename_i ha
    cases hd
    exact hc.trans ha
  · exact h a d hd

theorem isBlocked_eq (m : Model) (peer : String) :
    m.isBlocked peer = (m.contacts[peer]?).any Contact.blocked := rfl

/-- Filing a contact who is as blocked as whoever was there. -/
theorem isBlocked_insert {m : Model} {contacts : PeerMap Contact} {k : String} {c : Contact}
    (hm : contacts = m.contacts.insert k c) (hc : c.blocked = m.isBlocked k) (peer : String) :
    (contacts[peer]?).any Contact.blocked = m.isBlocked peer := by
  rw [hm, Maps.getElem?_insert]
  split
  · rename_i hk
    subst hk
    simpa using hc
  · rfl

namespace Ingest

/-- A part of ingestion blocks and unblocks nobody, and queues items and acks only for senders who
are not blocked. -/
structure Spares (s s' : Ingest) : Prop where
  me : s'.model.myPubkey = s.model.myPubkey
  blocked : ∀ peer, s'.model.isBlocked peer = s.model.isBlocked peer
  keyed : WellKeyed s.model.contacts → WellKeyed s'.model.contacts
  outbox : ∀ i ∈ s'.model.outbox, i ∈ s.model.outbox ∨ s.model.isBlocked i.recipient = false
  acks : ∀ (peer : String) ids, s'.ackTargets[peer]? = some ids →
    (∃ ids, s.ackTargets[peer]? = some ids) ∨ s.model.isBlocked peer = false

theorem Spares.refl (s : Ingest) : Spares s s :=
  ⟨rfl,fun _ => rfl,id,fun _ h => .inl h,fun _ _ h => .inl ⟨_,h⟩⟩

theorem Spares.trans {s₁ s₂ s₃ : Ingest} (h₁ : Spares s₁ s₂) (h₂ : Spares s₂ s₃) :
    Spares s₁ s₃ where
  me := h₂.me.trans h₁.me
  blocked peer := (h₂.blocked peer).trans (h₁.blocked peer)
  keyed h := h₂.keyed (h₁.keyed h)
  outbox i hi := by
    rcases h₂.outbox i hi with hi | hi
    · exact h₁.outbox i hi
    · exact .inr ((h₁.blocked _).symm.trans hi)
  acks peer ids h := by
    rcases h₂.acks peer ids h with ⟨_,h⟩ | h
    · exact h₁.acks peer _ h
    · exact .inr ((h₁.blocked _).symm.trans h)

/-- What leaves contacts, outbox and acks alone. -/
theorem Spares.of_eq {s s' : Ingest} (hme : s'.model.myPubkey = s.model.myPubkey)
    (hc : s'.model.contacts = s.model.contacts) (ho : s'.model.outbox = s.model.outbox)
    (ha : s'.ackTargets = s.ackTargets) : Spares s s' where
  me := hme
  blocked peer := by simp [isBlocked_eq, hc]
  keyed h := hc ▸ h
  outbox i hi := .inl (ho ▸ hi)
  acks peer ids h := .inl ⟨ids,ha ▸ h⟩

theorem addStranger_spares {x : Crates} {sender : String} {ts : ℤ} {s : Ingest}
    (hs : s.model.contacts[sender]? = none) : Spares s (s.addStranger x sender ts) where
  me := rfl
  blocked peer := isBlocked_insert rfl (by simp [Contact.new, isBlocked_eq, hs]) peer
  keyed h := h.insert rfl
  outbox i hi := by
    rcases List.mem_append.mp hi with hi | hi
    · exact .inl hi
    · obtain rfl := List.mem_singleton.mp hi
      exact .inr (by simp [OutboxItem.profile, OutboxItem.new, isBlocked_eq, hs])
  acks peer ids h := .inl ⟨ids,h⟩

theorem storeText_spares {hash : HashOrder} {sender : String} {ts : ℤ} {msgId body : String}
    {s : Ingest} (hs : s.model.isBlocked sender = false) :
    Spares s (s.storeText hash sender ts msgId body) := by
  simp only [storeText]
  split
  · exact .of_eq rfl rfl rfl rfl
  · refine ⟨rfl,fun _ => rfl,id,fun i hi => .inl hi,fun peer ids h => ?_⟩
    simp only [Maps.getElem?_insert] at h
    split at h
    · rename_i hp
      exact .inr (hp ▸ hs)
    · exact .inl ⟨ids,h⟩

theorem text_spares {x : Crates} {hash : HashOrder} {sender : String} {ts : ℤ}
    {msgId body : String} {s : Ingest} (hs : s.model.isBlocked sender = false) :
    Spares s (s.text x hash sender ts msgId body) := by
  unfold text
  split
  · exact storeText_spares hs
  rename_i hc
  split
  · exact .refl s
  · have hnone : s.model.contacts[sender]? = none :=
      Std.TreeMap.getElem?_eq_none_of_contains_eq_false ((Bool.not_eq_true _).mp hc)
    have h : Spares s (s.addStranger x sender ts) := addStranger_spares hnone
    exact h.trans (storeText_spares ((h.blocked sender).trans hs))

theorem profile_spares (now : ℤ) (sender : String) (ts : ℤ)
    (displayName bio photo : Option String) (s : Ingest) :
    Spares s (s.profile now sender ts displayName bio photo) := by
  simp only [profile]
  split
  · exact .refl s
  rename_i c hc
  split
  · refine ⟨rfl,isBlocked_insert rfl (by simp [isBlocked_eq, hc]),fun h => h.insert (show c.pubkey = sender from h _ _ hc),
      fun i hi => .inl hi,fun peer ids h => .inl ⟨ids,h⟩⟩
  · exact .refl s

theorem payload_spares (x : Crates) (hash : HashOrder) (now : ℤ) (sender : String)
    (p : ParsedPayload) (s : Ingest) :
    Spares s (s.payload x hash now sender p) := by
  simp only [payload]
  split
  · exact .refl s
  split
  · exact .refl s
  rename_i hb
  cases p.payload with
  | text id body => exact text_spares (by simpa using hb)
  | deliveryAck ackIds => exact .of_eq rfl rfl rfl rfl
  | profile displayName bio photo => exact profile_spares now sender _ displayName bio photo s

theorem event_spares (x : Crates) (hash : HashOrder) (now : ℤ) (id : Crypto.Identity)
    (blob : String) (s : Ingest) :
    Spares s (s.event x hash now id blob) := by
  unfold event
  split
  · exact .refl s
  · rename_i sender p _
    have h := payload_spares x hash now sender p { s with eventsStored := s.eventsStored+1 }
    exact ⟨h.me,h.blocked,h.keyed,h.outbox,h.acks⟩

theorem events_spares (x : Crates) (hash : HashOrder) (now prevCursor : ℤ)
    (id : Crypto.Identity) (evs : List String) (s : Ingest) :
    Spares s (events x hash now prevCursor id evs s) := by
  induction evs generalizing s with
  | nil => exact .refl s
  | cons blob evs ih =>
    simp only [events]
    split
    · exact ih s
    split
    · exact .of_eq rfl rfl rfl rfl
    split
    · exact .of_eq rfl rfl rfl rfl
    · have h := event_spares x hash now id blob
        { s with eventsProcessed := s.eventsProcessed+1, budget := s.budget-len blob/2 }
      have h : Spares s _ := ⟨h.me,h.blocked,h.keyed,h.outbox,h.acks⟩
      exact h.trans (ih _)

theorem applyAck_spares (now : ℤ) (pending : String × PendingAck) (s : Ingest) :
    Spares s (s.applyAck now pending) := by
  have hmark : ∀ s : Ingest, Spares s (s.markConvo pending.1 pending.2) := by
    intro s
    simp only [markConvo]
    split
    · exact .refl s
    split <;> exact .of_eq rfl rfl rfl rfl
  have hwater : Spares s (s.ackWatermark now pending.1 pending.2) := by
    simp only [ackWatermark]
    split
    · exact .refl s
    · rename_i c hc
      exact ⟨rfl,isBlocked_insert rfl (by simp [isBlocked_eq, hc]),
        fun h => h.insert (show c.pubkey = pending.1 from h _ _ hc),fun i hi => .inl hi,
        fun peer ids h => .inl ⟨ids,h⟩⟩
  simp only [applyAck]
  split
  · exact .refl s
  · exact hwater.trans (hmark _)

theorem applyAcks_spares (now : ℤ) (s : Ingest) : Spares s (s.applyAcks now) := by
  unfold applyAcks
  generalize s.pendingAcks.toList = acks
  induction acks generalizing s with
  | nil => exact .refl s
  | cons ack acks ih =>
    have h := applyAck_spares now ack s
    exact h.trans (ih _)

/-- The acks go to senders that the page was taken from. -/
theorem queueAcks_outbox {x : Crates} {ackTs : ℤ} {s : Ingest} {i : OutboxItem}
    (h : i ∈ (s.queueAcks x ackTs).model.outbox) :
    i ∈ s.model.outbox ∨ ∃ ids, s.ackTargets[i.recipient]? = some ids := by
  rcases List.mem_append.mp h with h | h
  · exact .inl h
  · obtain ⟨⟨peer,ids⟩,ht,hi⟩ := List.mem_flatMap.mp h
    obtain ⟨_,-,rfl⟩ := List.mem_map.mp hi
    exact .inr ⟨ids,Maps.mem_toList.mp ht⟩

end Ingest

/-- Ingesting a page blocks nobody, and queues items only for who is not blocked. -/
theorem ingested_spares (x : Crates) (amb : Ambient) (page : PollResp) (id : Crypto.Identity)
    {m : Model} (hk : WellKeyed m.contacts) :
    (∀ peer, (ingested x amb page id m).model.isBlocked peer = m.isBlocked peer) ∧
    WellKeyed (ingested x amb page id m).model.contacts ∧
    ∀ i ∈ (ingested x amb page id m).model.outbox, i ∈ m.outbox ∨ m.isBlocked i.recipient = false := by
  obtain ⟨hc,ho⟩ : (adoptCursor (amb.now 0) page m).contacts = m.contacts ∧
      (adoptCursor (amb.now 0) page m).outbox = m.outbox := by
    simp only [adoptCursor]
    split <;> exact ⟨rfl,rfl⟩
  have hb : ∀ peer, (adoptCursor (amb.now 0) page m).isBlocked peer = m.isBlocked peer := by
    simp [isBlocked_eq, hc]
  have h₁ := Ingest.events_spares x amb.hash (amb.now 1) m.cursor id page.events
    { model := adoptCursor (amb.now 0) page m }
  have h := h₁.trans (Ingest.applyAcks_spares (amb.now 1) _)
  refine ⟨fun peer => (h.blocked peer).trans (hb peer),h.keyed (hc ▸ hk),fun i hi => ?_⟩
  rcases Ingest.queueAcks_outbox hi with hi | ⟨ids,hi⟩
  · exact (h.outbox i hi).imp (fun h => ho ▸ h) fun h => (hb _).symm.trans h
  · rcases h.acks _ ids hi with ⟨_,hi⟩ | hi
    · simp at hi
    · exact .inr ((hb _).symm.trans hi)

/-- Nothing in the outbox is for a blocked contact. -/
structure Unblocked (m : Model) : Prop where
  keyed : WellKeyed m.contacts
  outbox : ∀ i ∈ m.outbox, m.isBlocked i.recipient = false

/-- Contacts stay filed under their keys, and an item for a blocked contact was there before, for
a contact who was blocked before. -/
structure Sparing (m m' : Model) : Prop where
  keyed : WellKeyed m'.contacts
  outbox : ∀ i ∈ m'.outbox, m'.isBlocked i.recipient = false ∨
    m.isBlocked i.recipient = true ∧ ∃ j ∈ m.outbox, i.recipient = j.recipient

/-- No envelope of a batch is for a blocked contact. -/
def Clears (m : Model) (cs : Commands) : Prop :=
  ∀ req tag msgs, .http req tag ∈ Cmd.requests cs → req.body = .sendBatch msgs →
    ∀ env ∈ msgs, m.isBlocked env.toKey = false

/-- The loads that overwrite contacts or outbox. -/
def Event.restores : Event → Bool
  | .loadedContacts _ | .loadedOutbox _ => true
  | _ => false

section
variable {x : Crates} {amb : Ambient}

theorem Unblocked.of_eq {m m' : Model} (h : Unblocked m) (hc : m'.contacts = m.contacts)
    (ho : m'.outbox = m.outbox) : Unblocked m' :=
  ⟨hc ▸ h.keyed,fun i hi => by simpa [isBlocked_eq, hc] using h.outbox i (ho ▸ hi)⟩

/-- Contacts stay as they are, and items change or go, but none is new. -/
theorem Unblocked.evolves {m m' : Model} (h : Unblocked m) (hc : m'.contacts = m.contacts)
    {same : OutboxItem → OutboxItem → Prop} {lost : ℕ → OutboxItem → Prop} {k : ℕ}
    (hs : ∀ i j, same i j → j.recipient = i.recipient)
    (ho : Evolves same (fun _ => False) lost k m.outbox m'.outbox) : Unblocked m' := by
  refine ⟨hc ▸ h.keyed,fun j hj => ?_⟩
  rcases ho.mem hj with ⟨i,hi,hij⟩ | hf
  · simpa [isBlocked_eq, hc, hs i j hij] using h.outbox i hi
  · exact hf.elim

@[simp] theorem clears_nil (m : Model) : Clears m [] := by simp [Clears]

/-- A request with a body of another kind. -/
theorem clears_cons_http {m : Model} {req : HttpRequest} {tag : HttpTag} {cs : Commands}
    (hb : ∀ msgs, req.body ≠ .sendBatch msgs) (h : Clears m cs) :
    Clears m (.request (.http req tag) :: cs) := by
  intro req' tag' msgs hr hbody
  rcases List.mem_cons.mp hr with hr | hr
  · obtain ⟨rfl,rfl⟩ := Effect.http.inj hr
    exact absurd hbody (hb msgs)
  · exact h req' tag' msgs hr hbody

@[simp] theorem clears_append {m : Model} {cs ds : Commands} :
    Clears m (cs ++ ds) ↔ Clears m cs ∧ Clears m ds := by
  simp only [Clears, Cmd.requests_append, List.mem_append]
  exact ⟨fun h => ⟨fun req tag msgs hr => h req tag msgs (.inl hr),
      fun req tag msgs hr => h req tag msgs (.inr hr)⟩,
    fun ⟨h₁,h₂⟩ req tag msgs hr => hr.elim (h₁ req tag msgs) (h₂ req tag msgs)⟩

/-- Commands without a request to the relay. -/
theorem Asks.clears {m : Model} {as : List Ask} {cs : Commands} (h : Asks as cs)
    (ha : ∀ a ∈ [Ask.challenge,.verify,.page,.send], a ∉ as) : Clears m cs := by
  intro req tag msgs hr
  have hask := h.request hr
  cases tag with
  | challengeResult => exact absurd hask (ha .challenge (by simp))
  | verifyResult => exact absurd hask (ha .verify (by simp))
  | pollResult => exact absurd hask (ha .page (by simp))
  | sendResult => exact absurd hask (ha .send (by simp))

theorem Writes.clears {m : Model} {cs : Commands} (h : Writes cs) : Clears m cs :=
  h.asks.clears (by simp)

/-- What a flush puts on the wire comes from the outbox. -/
theorem Flushed.unblocked {m : Model} {r : Model × Commands} (h : Flushed x amb m r)
    (hm : Unblocked m) : Unblocked r.1 ∧ Clears r.1 r.2 := by
  have hr : Unblocked r.1 := by
    refine hm.evolves ?_ (fun _ _ h => h.1) h.evolves
    obtain ⟨_,_,_,_,_,h⟩ := h.fst
    rw [h]
  refine ⟨hr,?_⟩
  have hrender : ∀ m : Model, Clears m [.render] := by simp [Clears]
  cases h with
  | gated => exact clears_nil _
  | emptied _ _ _ _ hw he =>
    refine clears_append.mpr ⟨hw.clears,?_⟩
    rcases he with rfl | rfl
    · exact clears_nil _
    · exact hrender _
  | unsent _ _ _ _ hw => exact clears_append.mpr ⟨hw.clears,hrender _⟩
  | @sent id token b rest recipient ws _ _ _ hb _ hw =>
    refine clears_append.mpr ⟨hw.clears,fun req tag msgs hreq hbody env henv => ?_⟩
    simp only [Cmd.requests_cons_request, Cmd.requests_nil, List.mem_cons, List.not_mem_nil,
      or_false, reduceCtorEq, Effect.http.injEq] at hreq
    obtain ⟨rfl,-⟩ := hreq
    obtain rfl : b.messages = msgs := by simpa [sendRequest] using hbody
    obtain ⟨hok,-⟩ := flushLoop_spec
      (b := { error := m.error }) m.outbox
      ⟨.nil,by simp⟩ 0
    rw [Model.batch] at hb
    rw [hb] at hok
    obtain ⟨i,hi,hto⟩ := Carries.mem ⟨id,hok.seals⟩ henv
    have hi' : i.stamp (amb.now 1) ∈ (m.sending amb recipient b rest).outbox :=
      List.mem_append_left _ (List.mem_map_of_mem hi)
    rw [hto, ← (kin_stamp (amb.now 1) i).1]
    exact hr.outbox _ hi'

theorem Sparing.unblocked {m m' : Model} (h : Sparing m m') (hm : Unblocked m) :
    Unblocked m' := by
  refine ⟨h.keyed,fun i hi => ?_⟩
  rcases h.outbox i hi with hb | ⟨hb,j,hj,hr⟩
  · exact hb
  · simp [hr, hm.outbox j hj] at hb

/-- As many are blocked as before, and items are queued for who is not. -/
theorem Sparing.grows {m m' : Model} (hb : ∀ peer, m'.isBlocked peer = m.isBlocked peer)
    (hk : WellKeyed m'.contacts)
    (ho : ∀ i ∈ m'.outbox, (∃ j ∈ m.outbox, i.recipient = j.recipient) ∨
      m.isBlocked i.recipient = false) : Sparing m m' := by
  refine ⟨hk,fun i hi => ?_⟩
  cases h : m.isBlocked i.recipient with
  | false => exact .inl ((hb _).trans h)
  | true => exact .inr ⟨rfl,(ho i hi).resolve_right (by simp [h])⟩

/-- Items go, and the recipient of one that stays is blocked only if it was. -/
theorem Sparing.shrinks {m m' : Model} (hk : WellKeyed m'.contacts)
    (ho : ∀ i ∈ m'.outbox, i ∈ m.outbox ∧
      (m.isBlocked i.recipient = false → m'.isBlocked i.recipient = false)) : Sparing m m' := by
  refine ⟨hk,fun i hi => ?_⟩
  obtain ⟨hmem,hb⟩ := ho i hi
  cases h : m.isBlocked i.recipient with
  | false => exact .inl (hb h)
  | true => exact .inr ⟨rfl,i,hmem,rfl⟩

theorem Sparing.of_eq {m m' : Model} (h : WellKeyed m.contacts) (hc : m'.contacts = m.contacts)
    (ho : m'.outbox = m.outbox) : Sparing m m' :=
  .grows (fun _ => by simp [isBlocked_eq, hc]) (hc ▸ h) fun i hi => .inl ⟨i,ho ▸ hi,rfl⟩

theorem sendText_sparing (x : Crates) (amb : Ambient) {m : Model} (h : WellKeyed m.contacts) : Sparing m (sendText x amb m).1 := by
  unfold sendText
  split
  · exact .of_eq h rfl rfl
  rename_i peer _
  simp only
  split
  · exact .of_eq h rfl rfl
  rename_i hb
  have hb : m.isBlocked peer = false := by simpa [isBlocked_eq] using hb
  split
  · exact .of_eq h rfl rfl
  split
  · exact .of_eq h rfl rfl
  split
  · exact .of_eq h rfl rfl
  simp only [Upd.and_fst, Upd.emit_fst, persistMessages_fst, persistContacts_fst,
    persistOutbox_fst, Model.refused_refused, Model.writeText]
  rw [Model.refused_eq]
  split
  · rename_i hc
    have hnone : m.contacts[peer]? = none :=
      Std.TreeMap.getElem?_eq_none_of_contains_eq_false ((Bool.not_eq_true _).mp hc)
    refine .grows (isBlocked_insert rfl (by simp [Contact.new, isBlocked_eq, hnone]))
      (h.insert rfl) fun i hi => ?_
    rcases List.mem_append.mp hi with hi | hi
    · exact .inl ⟨i,hi,rfl⟩
    · right
      have hr : i.recipient = peer := by
        simp only [List.mem_cons, List.not_mem_nil, or_false] at hi
        rcases hi with rfl | rfl <;> rfl
      exact hr ▸ hb
  · refine .grows (fun _ => rfl) h fun i hi => ?_
    rcases List.mem_append.mp hi with hi | hi
    · exact .inl ⟨i,hi,rfl⟩
    · obtain rfl := List.mem_singleton.mp hi
      exact .inr hb

theorem addContact_sparing (x : Crates) (amb : Ambient) (input nickname : String) {m : Model} (h : WellKeyed m.contacts) :
    Sparing m (addContact x amb input nickname m).1 := by
  simp only [addContact]
  split
  · exact .of_eq h rfl rfl
  split
  · exact .of_eq h rfl rfl
  rename_i hex _
  split
  · exact .of_eq h rfl rfl
  have hfile : ∀ {m' : Model} {c : Contact}, m'.contacts = m.contacts.insert hex c →
      m'.outbox = m.outbox → c.pubkey = hex → c.blocked = m.isBlocked hex → Sparing m m' := by
    intro m' c hc ho hp hb
    refine .grows (isBlocked_insert hc hb) (hc ▸ h.insert hp) fun i hi => ?_
    exact .inl ⟨i,ho ▸ hi,rfl⟩
  have hcontact : (m.contacts[hex]?.getD (Contact.new hex nickname (amb.now 0))).pubkey = hex ∧
      (m.contacts[hex]?.getD (Contact.new hex nickname (amb.now 0))).blocked =
        m.isBlocked hex := by
    cases hc : m.contacts[hex]? with
    | none => simp [Contact.new, isBlocked_eq, hc]
    | some c => simpa [isBlocked_eq, hc] using h _ _ hc
  simp only [Upd.and_fst, Upd.emit_fst, persistContacts_fst]
  rw [Model.refused_eq]
  split
  · exact hfile rfl rfl hcontact.1 hcontact.2
  · exact hfile rfl rfl hcontact.1 hcontact.2

theorem blockContact_keyed {peer : String} {blocked : Bool} {contacts : PeerMap Contact}
    (h : WellKeyed contacts) : WellKeyed (blockContact peer blocked contacts) := by
  unfold blockContact
  split
  · rename_i c hc
    exact h.insert (show c.pubkey = peer from h _ _ hc)
  · exact h

/-- Blocking a contact changes it alone, and unblocking blocks nobody. -/
theorem blockContact_blocked {peer p : String} {blocked : Bool} {contacts : PeerMap Contact}
    (h : (contacts[p]?).any Contact.blocked = false) (hp : blocked = true → p ≠ peer) :
    ((blockContact peer blocked contacts)[p]?).any Contact.blocked = false := by
  unfold blockContact
  split
  · rw [Maps.getElem?_insert]
    split
    · rename_i hpp
      subst hpp
      have hb : blocked = false := by
        cases blocked with
        | false => rfl
        | true => exact absurd rfl (hp rfl)
      simpa using hb
    · exact h
  · exact h

theorem setBlocked_sparing (peer : String) (blocked : Bool) {m : Model} (h : WellKeyed m.contacts) :
    Sparing m (setBlocked peer blocked m).1 := by
  simp only [setBlocked]
  split
  · rename_i hb
    simp only [Upd.and_fst, Upd.emit_fst, persistContacts_fst, persistOutbox_fst,
      Model.refused_refused]
    obtain ⟨_,hm⟩ := removeItems_eq
      { m with contacts := blockContact peer blocked m.contacts, error := none } peer
    rw [Model.refused_eq, hm]
    refine .shrinks (blockContact_keyed h) fun i hi => ?_
    obtain ⟨hi,hp⟩ := List.mem_filter.mp hi
    exact ⟨hi,fun hb => blockContact_blocked hb fun _ => by simpa using hp⟩
  · rename_i hb
    simp only [Upd.and_fst, Upd.emit_fst, persistContacts_fst]
    rw [Model.refused_eq]
    exact .shrinks (blockContact_keyed h) fun i hi =>
      ⟨hi,fun hi => blockContact_blocked hi fun ht => absurd ht hb⟩

theorem deleteContact_sparing (peer : String) {m : Model} (h : WellKeyed m.contacts) :
    Sparing m (deleteContact peer m).1 := by
  obtain ⟨_,_,_,_,hm⟩ := forgetPeer_eq m peer
  rw [deleteContact_fst, Model.refused_eq, hm]
  refine .shrinks (fun k c hc => ?_) fun i hi => ?_
  · rw [Maps.getElem?_erase] at hc
    split at hc
    · simp at hc
    · exact h k c hc
  · obtain ⟨hi,-⟩ := List.mem_filter.mp hi
    refine ⟨hi,fun hb => ?_⟩
    change (((m.contacts.erase peer)[i.recipient]?).any Contact.blocked) = false
    rw [Maps.getElem?_erase]
    split
    · rfl
    · exact hb

/-- A pending profile is overwritten in place, so no recipient is new but the peer. -/
theorem supersede_mem {json peer : String} {queue : List OutboxItem} {i : OutboxItem}
    (hi : i ∈ supersede json peer queue) :
    (∃ j ∈ queue, i.recipient = j.recipient) ∨ i.recipient = peer := by
  unfold supersede at hi
  split at hi
  · rename_i n _
    have hmod : Evolves (fun i j : OutboxItem => j.recipient = i.recipient) (fun _ => False)
        (fun _ _ => False) 0 queue (queue.modify n (fun i => { i with envelopeJson := json })) := by
      apply Evolves.modify
      · exact fun _ => rfl
      · exact fun _ => rfl
    rcases hmod.mem hi with h | h
    · exact .inl h
    · exact h.elim
  · rcases List.mem_append.mp hi with hi | hi
    · exact .inl ⟨i,hi,rfl⟩
    · obtain rfl := List.mem_singleton.mp hi
      exact .inr rfl

theorem foldl_supersede_mem {json : String} {peers : List String} {queue : List OutboxItem}
    {i : OutboxItem} (hi : i ∈ peers.foldl (fun queue peer => supersede json peer queue) queue) :
    (∃ j ∈ queue, i.recipient = j.recipient) ∨ i.recipient ∈ peers := by
  induction peers generalizing queue with
  | nil => exact .inl ⟨i,hi,rfl⟩
  | cons peer peers ih =>
    rcases ih hi with ⟨j,hj,hr⟩ | hr
    · rcases supersede_mem hj with ⟨k,hk,hr'⟩ | hr'
      · exact .inl ⟨k,hk,hr.trans hr'⟩
      · exact .inr (by simp [hr, hr'])
    · exact .inr (List.mem_cons_of_mem peer hr)

/-- A broadcast goes to the contacts that are not blocked. -/
theorem broadcastProfile_contact {json : String} {m : Model} (hk : WellKeyed m.contacts)
    {i : OutboxItem} (hi : i ∈ broadcastProfile json m) :
    (∃ j ∈ m.outbox, i.recipient = j.recipient) ∨
      ∃ c, m.contacts[i.recipient]? = some c ∧ c.blocked = false := by
  rcases List.mem_append.mp hi with hi | hi
  · exact .inl ⟨i,List.mem_of_mem_take hi,rfl⟩
  rcases foldl_supersede_mem hi with ⟨j,hj,hr⟩ | hr
  · exact .inl ⟨j,List.mem_of_mem_drop hj,hr⟩
  · obtain ⟨c,hc,hr⟩ := List.mem_map.mp hr
    obtain ⟨hc,hb⟩ := List.mem_filter.mp hc
    obtain ⟨k,hc⟩ := Maps.mem_values.mp hc
    refine .inr ⟨c,?_,by simpa using hb⟩
    rw [← hr, hk k c hc, hc]

theorem broadcastProfile_mem {json : String} {m : Model} (hk : WellKeyed m.contacts)
    {i : OutboxItem} (hi : i ∈ broadcastProfile json m) :
    (∃ j ∈ m.outbox, i.recipient = j.recipient) ∨ m.isBlocked i.recipient = false := by
  refine (broadcastProfile_contact hk hi).imp id fun ⟨c,hc,hb⟩ => ?_
  rw [isBlocked_eq, hc]
  exact hb

theorem saveProfile_sparing (x : Crates) (amb : Ambient) (displayName bio : String)
    (photo : Option String) {m : Model} (h : WellKeyed m.contacts) : Sparing m (saveProfile x amb displayName bio photo m).1 := by
  simp only [saveProfile]
  repeat' split
  iterate 4 exact .of_eq h rfl rfl
  simp only [Upd.and_fst, Upd.emit_fst, persistProfile_fst, persistOutbox_fst,
    Model.refused_refused]
  rw [Model.refused_eq]
  refine .grows (fun _ => rfl) h fun i hi => ?_
  exact broadcastProfile_mem (m := { m with
    error := none, profile := ⟨displayName,bio,photo⟩, page := .conversations }) h hi

theorem pollResult_sparing (x : Crates) (amb : Ambient) (gen : UInt64) (res : HttpResult)
    {m : Model} (h : WellKeyed m.contacts) :
    Sparing m (pollResult x amb gen res m).1 := by
  rcases pollResult_cases x amb gen res m with ⟨_,_,_,_,_,_,hm⟩ | ⟨page,id,-,-,-,-,hm⟩
  · rw [hm]
    exact .of_eq h rfl rfl
  · obtain ⟨hb,hk,ho⟩ := ingested_spares x amb page id
      (m := { m with polling := false, pollRetries := 0 }) h
    rw [hm]
    exact .grows hb hk fun i hi => (ho i hi).imp (fun hi => ⟨i,hi,rfl⟩) fun hi => hi

theorem flush_unblocked (amb : Ambient) {m : Model} (h : Unblocked m) :
    Unblocked (flushNext x amb m).1 ∧ Clears (flushNext x amb m).1 (flushNext x amb m).2 :=
  (flushNext_flushed x amb m).unblocked h

theorem retryBatch_unblocked {batch : Option InFlight} {m : Model} (h : Unblocked m) :
    Unblocked (retryBatch x amb batch m).1 ∧
      Clears (retryBatch x amb batch m).1 (retryBatch x amb batch m).2 := by
  have hrender : ∀ m : Model, Clears m [.render] := by simp [Clears]
  cases batch with
  | none => exact ⟨h,hrender _⟩
  | some batch =>
    have hkept : ∀ {m' : Model}, m'.contacts = m.contacts →
        m'.outbox = ((m.outbox.take batch.count).map OutboxItem.charge).filter
          (fun i => !i.isExpired (amb.now 0)) ++ m.outbox.drop batch.count → Unblocked m' := by
      intro m' hc ho
      refine Sparing.unblocked (.grows (fun _ => by simp [isBlocked_eq, hc]) (hc ▸ h.keyed)
        fun i hi => .inl ?_) h
      rw [ho] at hi
      rcases List.mem_append.mp hi with hi | hi
      · obtain ⟨hi,-⟩ := List.mem_filter.mp hi
        obtain ⟨j,hj,rfl⟩ := List.mem_map.mp hi
        exact ⟨j,List.mem_of_mem_take hj,rfl⟩
      · exact ⟨i,List.mem_of_mem_drop hi,rfl⟩
    simp only [retryBatch]
    split
    · simp only [Upd.and_fst, Upd.and_snd, Upd.emit_fst, Upd.emit_snd, persistOutbox_fst]
      refine ⟨?_,clears_append.mpr ⟨(persistOutbox_writes _).clears,hrender _⟩⟩
      rw [Model.refused_eq]
      exact hkept rfl rfl
    · simp only [Upd.and_fst, Upd.and_snd, Upd.emit_fst, Upd.emit_snd, persistOutbox_fst]
      refine (flush_unblocked (amb.after 1) ?_).imp id fun hc => clears_append.mpr
        ⟨clears_append.mpr ⟨(persistOutbox_writes _).clears,hc⟩,hrender _⟩
      rw [Model.refused_eq]
      exact hkept rfl rfl

theorem sendResult_unblocked {gen : UInt64} {res : HttpResult} {m : Model} (h : Unblocked m) :
    Unblocked (sendResult x amb gen res m).1 ∧
      Clears (sendResult x amb gen res m).1 (sendResult x amb gen res m).2 := by
  have hanswered := sendResult_answered x amb gen res m
  generalize sendResult x amb gen res m = r at hanswered
  cases hanswered with
  | stale => exact ⟨h,clears_nil _⟩
  | unauthorized => exact ⟨h.of_eq rfl rfl,by simp [Clears]⟩
  | limited => exact ⟨h.of_eq rfl rfl,by simp [rateLimited, Clears]⟩
  | split => exact flush_unblocked amb (h.of_eq rfl rfl)
  | failed => exact retryBatch_unblocked (h.of_eq rfl rfl)
  | settled =>
    simp only [sendDone, Upd.and_fst, Upd.and_snd, persistOutbox_fst]
    have hpop : ∀ {m' : Model}, m'.contacts = m.contacts →
        (∀ i ∈ m'.outbox, i ∈ m.outbox) → Unblocked m' := fun hc ho =>
      Sparing.unblocked (.grows (fun _ => by simp [isBlocked_eq, hc]) (hc ▸ h.keyed)
        fun i hi => .inl ⟨i,ho i hi,rfl⟩) h
    refine (flush_unblocked amb ?_).imp id fun hc =>
      clears_append.mpr ⟨(persistOutbox_writes _).clears,hc⟩
    rw [Model.refused_eq]
    split
    · exact hpop rfl fun i hi => hi
    · exact hpop rfl fun i hi => List.mem_of_mem_drop hi

/-- No event but a load of the contacts or the outbox brings in an item or a request for a
blocked contact. -/
theorem update_unblocked {e : Event} {m : Model} (h : Unblocked m) (he : e.restores = false) :
    Unblocked (update x amb e m).1 ∧ Clears (update x amb e m).1 (update x amb e m).2 := by
  have hasks := update_asks x amb e m
  by_cases hw : Field.contacts ∈ e.writes ∨ Field.outbox ∈ e.writes
  · have hclear : .send ∉ e.asks ∧ .page ∉ e.asks ∧ .verify ∉ e.asks ∧ .challenge ∉ e.asks →
        Clears (update x amb e m).1 (update x amb e m).2 := fun ⟨h₁,h₂,h₃,h₄⟩ =>
      hasks.clears (by simp [h₁, h₂, h₃, h₄])
    clear hasks
    cases e with
    | sendText => exact ⟨(sendText_sparing x amb h.keyed).unblocked h,hclear (by simp [Event.asks])⟩
    | addContact input nickname =>
      refine ⟨?_,hclear (by simp [Event.asks])⟩
      exact (addContact_sparing x amb input nickname h.keyed).unblocked h
    | setBlocked peer blocked =>
      refine ⟨?_,hclear (by simp [Event.asks])⟩
      exact (setBlocked_sparing peer blocked h.keyed).unblocked h
    | deleteContact peer =>
      refine ⟨?_,hclear (by simp [Event.asks])⟩
      exact (deleteContact_sparing peer h.keyed).unblocked h
    | saveProfile displayName bio photo =>
      refine ⟨?_,hclear (by simp [Event.asks])⟩
      exact (saveProfile_sparing x amb displayName bio photo h.keyed).unblocked h
    | pollResult gen res =>
      refine ⟨?_,hclear (by simp [Event.asks])⟩
      exact (pollResult_sparing x amb gen res h.keyed).unblocked h
    | startFlush => exact flush_unblocked amb h
    | flushWatchdog gen =>
      simp only [update, flushWatchdog]
      split
      · exact ⟨h,clears_nil _⟩
      · exact flush_unblocked amb (h.of_eq rfl rfl)
    | sendResult gen res => exact sendResult_unblocked h
    | loadedContacts | loadedOutbox => simp [Event.restores] at he
    | _ => simp [Event.writes] at hw
  · rw [not_or] at hw
    refine ⟨h.of_eq (update_agrees x amb e m .contacts hw.1)
      (update_agrees x amb e m .outbox hw.2),?_⟩
    cases e with
    | authenticate =>
      simp only [update, authenticate]
      repeat' split
      iterate 2 simp [Clears]
      · exact clears_cons_http (by simp) (by simp [Clears])
      · simp [Clears, authFailedWith, authFailed, scheduleReconnect]
    | challengeResult gen res =>
      simp only [update, challengeResult]
      repeat' split
      all_goals first
        | exact clears_cons_http (by simp) (clears_nil _)
        | simp [Clears, authFailedWith, authFailed, scheduleReconnect]
    | poll =>
      simp only [update, poll]
      split
      · exact clears_nil _
      split
      · simp [Clears]
      · rename_i token _
        cases x.serializes (pollRequest m token).body
        · simp [Clears, backoffPoll]
        · exact clears_cons_http (by simp [pollRequest]) (by simp [Clears])
    | startFlush | flushWatchdog | sendResult => simp [Event.writes] at hw
    | _ => exact hasks.clears (by simp [Event.asks])

theorem contactMap_keyed (list : List Contact) : WellKeyed (contactMap list) := by
  unfold contactMap
  suffices h : ∀ contacts : PeerMap Contact, WellKeyed contacts →
      WellKeyed (list.foldl (fun map c => map.insert c.pubkey c) contacts) from
    h ∅ fun k c hc => by simp at hc
  induction list with
  | nil => exact fun _ h => h
  | cons c list ih => exact fun contacts h => ih _ (h.insert rfl)

theorem loadedContacts_keyed (res : KvData) {m : Model} (h : WellKeyed m.contacts) :
    WellKeyed (loadedContacts res m).1.contacts := by
  obtain ⟨_,hm⟩ := startupDone_fst m
  unfold loadedContacts
  generalize startupDone m = r at hm ⊢
  obtain ⟨m',cs⟩ := r
  obtain rfl : m' = _ := hm
  cases parseKv KvValue.contacts? res with
  | error => exact h
  | ok list =>
    cases list with
    | none => exact h
    | some list => exact contactMap_keyed list

theorem update_keyed {e : Event} {m : Model} (h : WellKeyed m.contacts) :
    WellKeyed (update x amb e m).1.contacts := by
  by_cases hw : Field.contacts ∈ e.writes
  · cases e with
    | sendText => exact (sendText_sparing x amb h).keyed
    | addContact input nickname => exact (addContact_sparing x amb input nickname h).keyed
    | setBlocked peer blocked => exact (setBlocked_sparing peer blocked h).keyed
    | deleteContact peer => exact (deleteContact_sparing peer h).keyed
    | pollResult gen res => exact (pollResult_sparing x amb gen res h).keyed
    | loadedContacts res => exact loadedContacts_keyed res h
    | _ => simp [Event.writes] at hw
  · have hc : (update x amb e m).1.contacts = m.contacts := update_agrees x amb e m .contacts hw
    exact hc ▸ h

theorem keyed_run {ls : List Label} {c : Running} (h : runFromBoot x ls = some c) :
    WellKeyed c.model.contacts := by
  refine Lts.run_invariant (step x) (I := fun c : Running => WellKeyed c.model.contacts)
    (fun c l d hc hs => ?_) (fun k c hc => ?_) h
  · obtain ⟨e,c₁,ht,rfl⟩ := Core.step_cases hs
    exact update_keyed (ht.model_eq ▸ hc)
  · simp [boot, Core.boot, app] at hc

/-- No startup load is outstanding. -/
def LoadsDone (c : Running) : Prop := ∀ p ∈ c.pending, ask (.request p.2) ≠ .startup

instance (c : Running) : Decidable (LoadsDone c) := inferInstanceAs (Decidable (∀ _ ∈ _, _))

/-- The shell does not hand over the identity, which would start the loads again. -/
def KeepsIdentity (l : Label) : Prop := ∀ sk, l.2 ≠ .shell (.identityLoaded sk)

/-- The startup loads, which fill a field from the store. -/
def Event.isStartup : Event → Bool
  | .loadedSettings _ | .loadedProfile _ | .loadedContacts _ | .loadedCursor _ | .loadedOutbox _
  | .loadedSeenIds _ => true
  | _ => false

theorem isStartup_ask {x : Crates} {f : Effect} {r : Answer} {e : Event} (he : answer x f r = some e)
    (hr : e.isStartup = true) : ask (.request f) = .startup ∨ ask (.request f) = .other := by
  rcases f with ⟨_,tag⟩ | ⟨op,tag⟩ | ⟨_,tag⟩ <;> cases r <;>
    simp only [answer, Option.some.injEq, reduceCtorEq] at he <;> subst he
  · cases tag <;> simp [HttpTag.event, Event.isStartup] at hr
  · cases tag <;> simp [KvTag.event, Event.isStartup] at hr <;> cases op <;> simp [ask]
  · cases tag <;> simp [TimeTag.event, Event.isStartup] at hr

/-- With the loads done, no event fills a field from the store. -/
theorem LoadsDone.takes {c c₁ : Running} {act : Action Event Answer} {e : Event}
    (h : LoadsDone c) (hq : Wakes c) (hk : Known c) (ht : Core.Takes (app x) c act e c₁) :
    e.isStartup = false := by
  cases ht with
  | drain hqueue =>
    have hw := hq e (hqueue ▸ List.mem_cons_self)
    cases e <;> first | rfl | simp [Event.isWake] at hw
  | shell _ hs =>
    change fromShell e = true at hs
    cases e <;> first | rfl | simp [fromShell] at hs
  | @answer t r f _ _ hf he =>
    by_contra hr
    rcases isStartup_ask he (by simpa using hr) with ha | ha
    · exact h _ hf ha
    · exact hk.pending _ hf ha

theorem LoadsDone.step {c d : Running} {l : Label} (h : LoadsDone c) (hq : Wakes c)
    (hl : KeepsIdentity l) (hs : step x c l = some d) : LoadsDone d := by
  obtain ⟨e,c₁,ht,rfl⟩ := Core.step_cases hs
  intro ⟨t,f⟩ hp ha
  rcases Core.mem_process_pending hp with hp | ⟨hp,-⟩
  · exact h _ (ht.mem_pending hp) ha
  have hask := (update_asks x l.1 e c₁.model).request hp
  rw [ha] at hask
  have hid : ∃ sk, e = .identityLoaded sk := by
    cases e with
    | identityLoaded sk => exact ⟨sk,rfl⟩
    | _ => simp [Event.asks] at hask
  obtain ⟨sk,rfl⟩ := hid
  generalize hact : l.2 = act at ht
  cases ht with
  | drain hq' => simpa [Event.isWake] using hq (.identityLoaded sk) (hq' ▸ List.mem_cons_self)
  | shell => exact hl sk hact
  | @answer t r f _ _ hf he =>
    rcases f with ⟨_,tag⟩ | ⟨_,tag⟩ | ⟨_,tag⟩ <;> cases r <;>
      simp only [app, answer, Option.some.injEq, reduceCtorEq] at he <;> cases tag <;>
      simp [HttpTag.event, KvTag.event, TimeTag.event] at he

/-- What a client whose loads are done keeps true. -/
structure Spared (c : Running) : Prop where
  unblocked : Unblocked c.model
  queue : Wakes c
  known : Known c
  done : LoadsDone c

/-- With the loads done, no event brings contacts or an outbox from the store. -/
theorem Spared.restores {c c₁ : Running} {act : Action Event Answer} {e : Event}
    (h : Spared c) (ht : Core.Takes (app x) c act e c₁) : e.restores = false := by
  have hload := h.done.takes h.queue h.known ht
  cases e <;> first | rfl | simp [Event.isStartup] at hload

theorem Spared.step {c d : Running} {l : Label} (h : Spared c) (hl : KeepsIdentity l)
    (hs : step x c l = some d) : Spared d := by
  have hq := h.queue.step hs
  have hk := h.known.step hs
  have hdone := h.done.step h.queue hl hs
  obtain ⟨e,c₁,ht,rfl⟩ := Core.step_cases hs
  have hu : Unblocked c₁.model := ht.model_eq ▸ h.unblocked
  exact ⟨(update_unblocked hu (h.restores ht)).1,hq,hk,hdone⟩

/-- From every state with the loads done and nothing queued for a blocked contact, whatever
happens next: nothing is queued for a blocked contact, and no batch that goes out carries an
envelope for one. -/
theorem nothing_for_blocked {ls ms : List Label} {c d : Running}
    (hrun : runFromBoot x ls = some c) (hdone : LoadsDone c)
    (hout : ∀ i ∈ c.model.outbox, c.model.isBlocked i.recipient = false)
    (hms : ∀ l ∈ ms, KeepsIdentity l) (hd : Lts.run (step x) c ms = some d) :
    (∀ i ∈ d.model.outbox, d.model.isBlocked i.recipient = false) ∧
    ∀ l d', step x d l = some d' → ∀ t req tag msgs,
      (t,.http req tag) ∈ d'.pending → (t,.http req tag) ∉ d.pending →
      req.body = .sendBatch msgs → ∀ env ∈ msgs, d'.model.isBlocked env.toKey = false := by
  have hspared : Spared d := by
    refine Lts.run_invariant_along (step x) (G := fun _ l => KeepsIdentity l) (I := Spared)
      (fun _ _ _ h hl hs => h.step hl hs) ?_ (Lts.along_of_forall (step x) hms) hd
    exact ⟨⟨keyed_run hrun,hout⟩,wakes_run hrun,known_run hrun,hdone⟩
  refine ⟨hspared.unblocked.outbox,fun l d' hs t req tag msgs hnew hold hbody => ?_⟩
  obtain ⟨e,c₁,ht,rfl⟩ := Core.step_cases hs
  have hu : Unblocked c₁.model := ht.model_eq ▸ hspared.unblocked
  rcases Core.mem_process_pending hnew with hp | ⟨hp,-⟩
  · exact absurd (ht.mem_pending hp) hold
  · exact (update_unblocked hu (hspared.restores ht)).2 req tag msgs hp hbody

end

/-- The recipient of what is on the wire is blocked, and then the send fails. -/
def sampleBlocking : List (Action Event Answer) :=
  [.shell (.setBlocked (samplePeer 7) true),.answer 17 (.http .err)]

/-- A text and a profile on the wire when their recipient is blocked. -/
theorem nothing_for_blocked_on_wire :
    ∃ c d, runFromBoot .sample (sampleLabels (sampleOnline ++ sampleText (samplePeer 7))) = some c ∧
      c.model.inFlight.isSome = true ∧ Lts.run (step .sample) c (sampleLabels sampleBlocking) = some d ∧
      d.model.isBlocked (samplePeer 7) = true ∧
      (∀ i ∈ d.model.outbox, d.model.isBlocked i.recipient = false) ∧
      ∀ l d', step .sample d l = some d' → ∀ t req tag msgs,
        (t,.http req tag) ∈ d'.pending → (t,.http req tag) ∉ d.pending →
        req.body = .sendBatch msgs → ∀ env ∈ msgs, d'.model.isBlocked env.toKey = false := by
  have h : (runFromBoot .sample (sampleLabels (sampleOnline ++ sampleText (samplePeer 7)))).any
      (fun c => c.model.inFlight.isSome && decide (LoadsDone c) &&
        decide (∀ i ∈ c.model.outbox, c.model.isBlocked i.recipient = false) &&
        (Lts.run (step .sample) c (sampleLabels sampleBlocking)).any
          fun d => d.model.isBlocked (samplePeer 7)) = true := by decide +kernel
  simp only [Option.any_eq_true, Bool.and_eq_true, decide_eq_true_eq] at h
  obtain ⟨c,hrun,⟨⟨hf,hdone⟩,hout⟩,d,hd,hb⟩ := h
  refine ⟨c,d,hrun,hf,hd,hb,nothing_for_blocked hrun hdone hout (fun l hl sk => ?_) hd⟩
  obtain ⟨act,hact,rfl⟩ := List.mem_map.mp hl
  rcases List.mem_pair.mp hact with rfl | rfl <;> simp

end Skrepka.Client
