import Skrepka.Client.Stored
import Skrepka.Client.Filing

/-! Conditions on the items of an outbox and on the contacts that hold of both in memory, on disk and on the
way there, as long as they hold of what is sent and of what is shown. -/
namespace Skrepka.Client
open Rust Mvu Queue

/-- A condition on items, and one on the contact of a key. -/
structure Clauses where
  item : OutboxItem → Prop
  contact : String → Contact → Prop

/-- Stamps and charges do not matter to an item, nor anything but its profile to a contact. -/
structure Clauses.Lenient (T : Clauses) : Prop where
  kin : ∀ i j, Kin i j → T.item i → T.item j
  key : ∀ p c, T.contact p c → c.pubkey = p
  new : ∀ p nickname ts, T.contact p (Contact.new p nickname ts)
  face : ∀ p c c', T.contact p c → c'.pubkey = c.pubkey → c'.displayName = c.displayName → c'.bio = c.bio →
    c'.photo = c.photo → T.contact p c'

def KvValue.Held (T : Clauses) : KvValue → Prop
  | .outbox items => ∀ i ∈ items, T.item i
  | .contacts list => ∀ c ∈ list, T.contact c.pubkey c
  | _ => True

def Model.Held (T : Clauses) (m : Model) : Prop :=
  (∀ i ∈ m.outbox, T.item i) ∧ ∀ (k : String) (c : Contact), m.contacts[k]? = some c → T.contact k c

/-- What is written meets the conditions. -/
def CmdHeld (T : Clauses) : Cmd Event Effect → Prop
  | .request (.kv (.set _ value) _) => value.Held T
  | _ => True

/-- What an event brings from the store meets the conditions. -/
def Event.Held (T : Clauses) (e : Event) : Prop := ∀ v ∈ e.stored, v.Held T

theorem KvValue.Held.mono {T U : Clauses} {v : KvValue} (h : v.Held T) (hitem : ∀ i, T.item i → U.item i)
    (hcontact : ∀ p c, T.contact p c → U.contact p c) : v.Held U := by
  cases v with
  | outbox items => exact fun i hi => hitem i (h i hi)
  | contacts list => exact fun c hc => hcontact _ c (h c hc)
  | _ => trivial

theorem CmdHeld.mono {T U : Clauses} {c : Cmd Event Effect} (h : CmdHeld T c)
    (hitem : ∀ i, T.item i → U.item i) (hcontact : ∀ p c, T.contact p c → U.contact p c) : CmdHeld U c := by
  unfold CmdHeld at h ⊢
  split
  · exact KvValue.Held.mono h hitem hcontact
  · trivial

abbrev Holding (T : Clauses) (f : Handler) : Prop := Upd.Keeps (Model.Held T) (CmdHeld T) f

/-- The conditions hold after an update, as they do of what it writes. -/
def Upheld (T : Clauses) (r : Model × Commands) : Prop := r.1.Held T ∧ ∀ c ∈ r.2, CmdHeld T c

section
variable {x : Crates} {amb : Ambient} {T : Clauses}

theorem guarded_held {ops : Model → List KvOp}
    (h : ∀ m, m.Held T → ∀ op ∈ ops m, CmdHeld T (.request (.kv op .saved))) : Holding T (guarded ops) := by
  intro m hm
  rw [guarded_fst, guarded_snd, Model.refused_eq]
  refine ⟨hm,fun c hc => ?_⟩
  split at hc
  · simp at hc
  · obtain ⟨op,hop,rfl⟩ := List.mem_map.mp hc
    exact h m hm op hop

theorem persistProfile_held : Holding T persistProfile :=
  guarded_held fun _ _ _ hop => List.mem_singleton.mp hop ▸ trivial

theorem persistOutbox_held : Holding T persistOutbox :=
  guarded_held fun _ hm _ hop => List.mem_singleton.mp hop ▸ hm.1

theorem persistMessages_held (peer : String) : Holding T (persistMessages peer) :=
  guarded_held fun _ _ _ hop => List.mem_singleton.mp hop ▸ trivial

theorem persistSeenIds_held : Holding T persistSeenIds :=
  guarded_held fun _ _ _ hop => List.mem_singleton.mp hop ▸ trivial

theorem emit_held {cs : Commands} (h : ∀ c ∈ cs, CmdHeld T c) : Holding T (.emit cs) := .emit h

theorem render_held : Holding T (.emit [.render]) := emit_held (by simp [CmdHeld])

theorem startFlush_held : Holding T (.emit [.event .startFlush,.render]) := emit_held (by simp [CmdHeld])

theorem refuse_held (error : String) : Holding T (refuse error) := fun _ hm => ⟨hm,by simp [refuse, CmdHeld]⟩

/-- Commands that ask for no write. -/
theorem Asks.held {as : List Ask} {cs : Commands} (h : Asks as cs)
    (hq : ∀ a ∈ as, a ∉ [.write,.writeCursor,.other]) : ∀ c ∈ cs, CmdHeld T c := by
  intro c hc
  have hask := hq _ (h c hc)
  cases c with
  | event | render => trivial
  | request f =>
    cases f with
    | http | time => trivial
    | kv op tag =>
      cases op with
      | get | delete => trivial
      | set key value => cases tag <;> simp [ask] at hask

theorem sendBatch_held {token recipient : String} {b : Batch} {persist : Handler}
    (h : Holding T persist) : Holding T (sendBatch x token recipient b persist) := by
  intro m hm
  obtain ⟨hkept,hcmds⟩ := h m hm
  simp only [sendBatch]
  split
  · refine ⟨hkept,fun c hc => ?_⟩
    simp only [List.mem_append, List.mem_cons, List.not_mem_nil, or_false] at hc
    obtain hc | rfl | rfl := hc
    · exact hcmds c hc
    · trivial
    · trivial
  · refine ⟨hkept,fun c hc => ?_⟩
    obtain hc | hc := List.mem_append.mp hc
    · exact hcmds c hc
    · obtain rfl := List.mem_singleton.mp hc
      trivial

variable (hT : T.Lenient)
include hT

theorem persistContacts_held : Holding T persistContacts := by
  refine guarded_held fun m hm op hop => List.mem_singleton.mp hop ▸ fun c hc => ?_
  obtain ⟨k,hk⟩ := Maps.mem_values.mp hc
  have h := hm.2 k c hk
  rwa [hT.key k c h]

theorem flushBatch_held {id : Crypto.Identity} (token : String) : Holding T (flushBatch x amb id token) := by
  intro m hm
  let budget := m.sendBatchBudget.getD maxSendBatchBytes
  obtain ⟨-,new,hnew,hkept⟩ := @flushLoop_spec x amb.rng id budget m.outbox { error := m.error }
    ⟨.nil,by simp⟩ 0
  simp only [flushBatch]
  change Upheld T _
  generalize flushLoop x amb.rng id budget { error := m.error } m.outbox = r at hnew hkept ⊢
  obtain ⟨b,rest⟩ := r
  obtain rfl : b.taken = new := by simpa using hnew
  have hitems : ∀ i ∈ b.taken ++ rest, T.item i := by
    intro i hi
    obtain ⟨j,hj,rfl⟩ | h := hkept.mem hi
    · exact hm.1 j hj
    · exact h.elim
  split
  · split
    · exact (persistOutbox_held.and render_held) _ ⟨hitems,hm.2⟩
    · exact ⟨⟨hitems,hm.2⟩,by simp⟩
  · refine sendBatch_held ?_ _ ⟨fun i hi => ?_,hm.2⟩
    · split
      · exact persistOutbox_held
      · exact .done
    · obtain hi | hi := List.mem_append.mp hi
      · obtain ⟨j,hj,rfl⟩ := List.mem_map.mp hi
        exact hT.kin j _ (kin_stamp _ j) (hitems j (List.mem_append_left _ hj))
      · exact hitems i (List.mem_append_right _ hi)

theorem flushNext_held : Holding T (flushNext x amb) := by
  intro m hm
  unfold flushNext
  split
  · exact ⟨hm,by simp⟩
  split
  · exact ⟨hm,by simp⟩
  split
  · exact ⟨hm,by simp⟩
  split
  · exact flushBatch_held hT _ m hm
  · exact ⟨hm,by simp⟩

theorem retryBatch_held (batch : Option InFlight) : Holding T (retryBatch x amb batch) := by
  cases batch with
  | none => exact render_held
  | some batch =>
    intro m hm
    have hkept : ∀ i ∈ ((m.outbox.take batch.count).map OutboxItem.charge).filter
        (fun i => !i.isExpired (amb.now 0)) ++ m.outbox.drop batch.count, T.item i := by
      intro i hi
      obtain hi | hi := List.mem_append.mp hi
      · obtain ⟨hi,-⟩ := List.mem_filter.mp hi
        obtain ⟨j,hj,rfl⟩ := List.mem_map.mp hi
        exact hT.kin j _ (kin_charge j) (hm.1 j (List.mem_of_mem_take hj))
      · exact hm.1 i (List.mem_of_mem_drop hi)
    simp only [retryBatch]
    split
    · exact (persistOutbox_held.and render_held) _ ⟨hkept,hm.2⟩
    · exact ((persistOutbox_held.and (flushNext_held hT)).and render_held) _ ⟨hkept,hm.2⟩

theorem sendResult_held (gen : UInt64) (res : HttpResult) : Holding T (sendResult x amb gen res) := by
  intro m hm
  have hanswered := sendResult_answered x amb gen res m
  generalize sendResult x amb gen res m = r at hanswered
  cases hanswered with
  | stale => exact ⟨hm,by simp⟩
  | unauthorized => exact ⟨hm,by simp [CmdHeld]⟩
  | limited => exact ⟨hm,by simp [rateLimited, CmdHeld]⟩
  | split => exact flushNext_held hT _ hm
  | failed => exact retryBatch_held hT _ _ hm
  | settled =>
    refine (persistOutbox_held.and (flushNext_held hT)) _ ?_
    split
    · exact hm
    · exact ⟨fun i hi => hm.1 i (List.mem_of_mem_drop hi),hm.2⟩

omit hT

end

/-- The text that an update sends to a peer, with its id. -/
def writtenTexts (amb : Ambient) (e : Event) (m : Model) (peer : String) : List (String × String) :=
  match e with
  | .sendText => if m.writesTo peer then [(amb.uuid,trim m.compose)] else []
  | _ => []

/-- A contact with the profile of a payload. -/
def Contact.dressed (displayName bio photo : Option String) (ts : ℤ) (c : Contact) : Contact :=
  { c with
    displayName := displayName.getD c.displayName
    bio := bio.getD c.bio
    photo := photo.orElse fun _ => c.photo
    lastProfileTs := ts }

/-- The profiles and texts that an update sends meet the conditions, as do acks of what it files; and the
profiles that it takes in leave the contacts of their senders with theirs. -/
structure Upholds (x : Crates) (T : Clauses) (amb : Ambient) (e : Event) (m : Model) : Prop where
  profiles : ∀ (i : OutboxItem) (own : OwnProfile) ts, own = m.profile ∨ own = (update x amb e m).1.profile →
    i.envelopeJson = Protocol.serializePayload x own.payload ts → T.item i
  texts : ∀ peer ts, ∀ p ∈ writtenTexts amb e m peer,
    T.item (.new peer (Protocol.serializePayload x (.text p.1 p.2) ts))
  acks : ∀ peer ids ts, (∀ i ∈ ids, i ∈ filedTexts x amb e m peer) →
    T.item (.new peer (Protocol.serializePayload x (.deliveryAck ids) ts))
  shown : ∀ page id, e.takesIn x m = some (page,id) → ∀ p ∈ page.opened x id, ∀ displayName bio photo,
    p.2.payload = .profile displayName bio photo → ∀ c ts, T.contact p.1 c →
      T.contact p.1 (c.dressed displayName bio photo ts)

section
variable {x : Crates} {amb : Ambient} {T : Clauses}

theorem contact_insert {contacts : PeerMap Contact}
    (h : ∀ (k : String) (c : Contact), contacts[k]? = some c → T.contact k c) {p : String} {d : Contact}
    (hd : T.contact p d) (k : String) (c : Contact) (hc : (contacts.insert p d)[k]? = some c) :
    T.contact k c := by
  rw [Maps.getElem?_insert] at hc
  split at hc
  · rename_i hp
    exact hp ▸ Option.some.inj hc ▸ hd
  · exact h k c hc

theorem contact_erase {contacts : PeerMap Contact}
    (h : ∀ (k : String) (c : Contact), contacts[k]? = some c → T.contact k c) (p k : String) (c : Contact)
    (hc : (contacts.erase p)[k]? = some c) : T.contact k c := by
  rw [Maps.getElem?_erase] at hc
  split at hc
  · cases hc
  · exact h k c hc

theorem removeItems_held {m : Model} (hm : m.Held T) (peer : String) : (m.removeItems peer).Held T := by
  obtain ⟨_,h⟩ := removeItems_eq m peer
  rw [h]
  exact ⟨fun i hi => hm.1 i (List.mem_of_mem_filter hi),hm.2⟩

variable (hT : T.Lenient)
include hT

theorem sendText_held {m : Model} (hm : m.Held T)
    (hprofile : ∀ peer, T.item (.profile peer (Protocol.serializePayload x m.profile.payload (amb.now 0))))
    (htext : ∀ peer, m.writesTo peer →
      T.item (.new peer (Protocol.serializePayload x (.text amb.uuid (trim m.compose)) (amb.now 0)))) :
    Upheld T (sendText x amb m) := by
  obtain ⟨error,hsend⟩ | ⟨peer,hwrites,hsend⟩ := sendText_cases x amb m
  · rw [hsend]
    exact ⟨hm,by simp [CmdHeld]⟩
  · rw [hsend]
    refine (Upd.Keeps.and (persistMessages_held peer) ((persistContacts_held hT).and
      (persistOutbox_held.and startFlush_held))) _ ?_
    simp only [Model.writeText]
    split
    · refine ⟨fun i hi => ?_,contact_insert hm.2 (hT.new peer "" _)⟩
      obtain hi | hi := List.mem_append.mp hi
      · exact hm.1 i hi
      · simp only [List.mem_cons, List.not_mem_nil, or_false] at hi
        obtain rfl | rfl := hi
        · exact htext peer hwrites
        · exact hprofile peer
    · refine ⟨fun i hi => ?_,hm.2⟩
      obtain hi | hi := List.mem_append.mp hi
      · exact hm.1 i hi
      · exact List.mem_singleton.mp hi ▸ htext peer hwrites

omit hT in
theorem saveProfile_held (displayName bio : String) (photo : Option String) {m : Model} (hm : m.Held T)
    (hprofile : ∀ (i : OutboxItem) (own : OwnProfile) ts,
      own = m.profile ∨ own = (saveProfile x amb displayName bio photo m).1.profile →
        i.envelopeJson = Protocol.serializePayload x own.payload ts → T.item i) :
    Upheld T (saveProfile x amb displayName bio photo m) := by
  by_cases hcaps : (Payload.profile (some displayName) (some bio) photo).withinCaps x = true
  · have hown : (saveProfile x amb displayName bio photo m).1.profile = ⟨displayName,bio,photo⟩ := by
      rw [saveProfile_accepted amb hcaps, Model.refused_eq]
      rfl
    rw [hown] at hprofile
    simp only [saveProfile]
    split
    · exact refuse_held _ _ hm
    split
    · exact refuse_held _ _ hm
    split
    · exact refuse_held _ _ hm
    split
    · exact refuse_held _ _ hm
    refine (Upd.Keeps.and persistProfile_held (persistOutbox_held.and startFlush_held)) _
      ⟨fun i hi => ?_,hm.2⟩
    rw [broadcastProfile_eq] at hi
    obtain hi | hi := List.mem_append.mp hi
    · exact hm.1 i (List.mem_of_mem_take hi)
    obtain hi | ⟨-,hjson⟩ := mem_foldl_supersede hi
    · exact hm.1 i (List.mem_of_mem_drop hi)
    · exact hprofile i _ _ (.inr rfl) hjson
  · have hover := (profile_exceeds (x := x) (some displayName) (some bio) photo).mpr hcaps
    simp only [Option.any_some, decide_eq_true_eq] at hover
    simp only [saveProfile]
    split
    · exact refuse_held _ _ hm
    split
    · exact refuse_held _ _ hm
    split
    · exact refuse_held _ _ hm
    split
    · exact refuse_held _ _ hm
    simp_all

theorem setBlocked_held (peer : String) (blocked : Bool) : Holding T (setBlocked peer blocked) := by
  intro m hm
  have hblock : ∀ (k : String) (c : Contact), (blockContact peer blocked m.contacts)[k]? = some c →
      T.contact k c := by
    unfold blockContact
    split
    · rename_i c hc
      exact contact_insert hm.2 (hT.face peer c _ (hm.2 peer c hc) rfl rfl rfl rfl)
    · exact hm.2
  simp only [setBlocked]
  split
  · exact ((persistContacts_held hT).and (persistOutbox_held.and render_held)) _
      (removeItems_held (by exact ⟨hm.1,hblock⟩) peer)
  · exact ((persistContacts_held hT).and render_held) _ ⟨hm.1,hblock⟩

theorem deleteContact_held (peer : String) : Holding T (deleteContact peer) := by
  intro m hm
  refine (Upd.Keeps.and (persistContacts_held hT) (Upd.Keeps.and (emit_held (by simp [CmdHeld]))
    (persistOutbox_held.and (persistSeenIds_held.and render_held)))) _ ?_
  obtain ⟨_,_,_,_,h⟩ := forgetPeer_eq m peer
  rw [h]
  exact ⟨fun i hi => hm.1 i (List.mem_of_mem_filter hi),contact_erase hm.2 peer⟩

theorem addContact_held (input nickname : String) : Holding T (addContact x amb input nickname) := by
  intro m hm
  simp only [addContact]
  split
  · exact refuse_held _ _ hm
  split
  · exact refuse_held _ _ hm
  rename_i hex _
  split
  · exact refuse_held _ _ hm
  refine ((persistContacts_held hT).and render_held) _ ⟨hm.1,contact_insert hm.2 ?_⟩
  have hold : T.contact hex (m.contacts[hex]?.getD (Contact.new hex nickname (amb.now 0))) := by
    cases hc : m.contacts[hex]? with
    | none => exact hT.new hex nickname _
    | some c => exact hm.2 hex c hc
  split
  · exact hold
  · exact hT.face hex _ _ hold rfl rfl rfl rfl

theorem persist_held (hash : HashOrder) (s : Ingest) : Holding T (s.persist hash) := by
  refine Upd.Keeps.and (.all fun f hf => ?_) (.and (.when _ persistSeenIds_held)
    (.and (.when _ (persistContacts_held hT)) (.when _ persistOutbox_held)))
  obtain ⟨peer,-,rfl⟩ := List.mem_map.mp hf
  exact persistMessages_held peer

namespace Ingest

theorem payload_contacts {s : Ingest} (hash : HashOrder) (now : ℤ) {p : String × ParsedPayload}
    (hp : ∀ displayName bio photo, p.2.payload = .profile displayName bio photo → ∀ c ts, T.contact p.1 c →
      T.contact p.1 (c.dressed displayName bio photo ts))
    (h : ∀ (k : String) (c : Contact), s.model.contacts[k]? = some c → T.contact k c) :
    ∀ (k : String) (c : Contact), (s.payload x hash now p.1 p.2).model.contacts[k]? = some c →
      T.contact k c := by
  obtain ⟨sender,ts,pl⟩ := p
  simp only [payload]
  split
  · exact h
  split
  · exact h
  cases pl with
  | text id body =>
    simp only [text]
    split
    · rwa [storeText_contacts]
    split
    · exact h
    · rw [storeText_contacts]
      exact contact_insert h (hT.new sender "" _)
  | deliveryAck ackIds => exact h
  | profile displayName bio photo =>
    simp only [profile]
    split
    · exact h
    rename_i c hc
    split
    · exact contact_insert h (hp displayName bio photo rfl c _ (h sender c hc))
    · exact h

theorem applyAck_contacts {s : Ingest} (now : ℤ) (pending : String × PendingAck)
    (h : ∀ (k : String) (c : Contact), s.model.contacts[k]? = some c → T.contact k c) :
    ∀ (k : String) (c : Contact), (s.applyAck now pending).model.contacts[k]? = some c → T.contact k c := by
  have hmark : ∀ s : Ingest, (s.markConvo pending.1 pending.2).model.contacts = s.model.contacts := by
    intro s
    simp only [markConvo]
    split
    · rfl
    split <;> rfl
  simp only [applyAck]
  split
  · exact h
  rw [hmark]
  simp only [ackWatermark]
  split
  · exact h
  · rename_i c hc
    exact contact_insert h (hT.face _ c _ (h _ c hc) rfl rfl rfl rfl)

theorem applyAcks_contacts {s : Ingest} (now : ℤ)
    (h : ∀ (k : String) (c : Contact), s.model.contacts[k]? = some c → T.contact k c) :
    ∀ (k : String) (c : Contact), (s.applyAcks now).model.contacts[k]? = some c → T.contact k c := by
  unfold applyAcks
  generalize s.pendingAcks.toList = acks
  induction acks generalizing s with
  | nil => exact h
  | cons ack acks ih => exact ih (applyAck_contacts hT now ack h)

end Ingest

/-- A page queues profiles for new contacts, and acks that name what it has filed; its profiles go to the
contacts of their senders. -/
theorem ingested_held {page : PollResp} {id : Crypto.Identity} {m : Model} (hm : m.Held T)
    (hprofile : ∀ peer ts, T.item (.profile peer (Protocol.serializePayload x m.profile.payload ts)))
    (hacks : ∀ peer ids ts, (∀ i ∈ ids, i ∈ (ingested x amb page id m).acks peer) →
      T.item (.new peer (Protocol.serializePayload x (.deliveryAck ids) ts)))
    (hshown : ∀ p ∈ page.opened x id, ∀ displayName bio photo, p.2.payload = .profile displayName bio photo →
      ∀ c ts, T.contact p.1 c → T.contact p.1 (c.dressed displayName bio photo ts)) :
    (ingested x amb page id m).model.Held T := by
  let s := Ingest.deliver x amb.hash (amb.now 1) (page.opened x id) { model := m }
  obtain ⟨_,_,_,_,_,hmatch⟩ := ingested_delivered x amb page id m
  have hout : (ingested x amb page id m).model.outbox = s.model.outbox ++
      (s.applyAcks (amb.now 1)).ackTargets.toList.flatMap (Ingest.ackItems x (amb.now 2)) := by
    rw [hmatch, ← Ingest.applyAcks_outbox (amb.now 1) s]
    rfl
  have hfiled : ∀ peer, (ingested x amb page id m).acks peer = (s.applyAcks (amb.now 1)).acks peer := by
    intro peer
    rw [hmatch]
    rfl
  have hcontacts : (ingested x amb page id m).model.contacts = (s.applyAcks (amb.now 1)).model.contacts := by
    rw [hmatch]
    rfl
  constructor
  · rw [hout, (Ingest.deliver_outbox _ _).1]
    intro i hi
    obtain hi | hi := List.mem_append.mp hi
    · obtain hi | hi := List.mem_append.mp hi
      · exact hm.1 i hi
      · obtain ⟨p,-,rfl⟩ := List.mem_map.mp hi
        exact hprofile _ _
    · obtain ⟨⟨peer,ids⟩,htarget,hi⟩ := List.mem_flatMap.mp hi
      obtain ⟨chunk,hchunk,rfl⟩ := List.mem_map.mp hi
      refine hacks peer chunk _ fun i hi => ?_
      rw [hfiled, Ingest.acks, Maps.mem_toList.mp htarget, Option.getD_some,
        ← Chunks.flatten_toChunks (n := Protocol.maxAckIds) ids]
      exact List.mem_flatten.mpr ⟨chunk,hchunk,hi⟩
  · rw [hcontacts]
    exact Ingest.applyAcks_contacts hT _ (Ingest.deliver_induction
      (I := fun s => ∀ (k : String) (c : Contact), s.model.contacts[k]? = some c → T.contact k c)
      (fun p hp s hs => Ingest.payload_contacts hT amb.hash (amb.now 1) (hshown p hp) hs) hm.2)

theorem pollResult_held {gen : UInt64} {res : HttpResult} {m : Model} (hm : m.Held T)
    (hup : Upholds x T amb (.pollResult gen res) m) : Upheld T (pollResult x amb gen res m) := by
  by_cases hno : gen ≠ m.pollGen ∨ m.kvLoadFailed = true ∨ readPage x res = none
  · refine ⟨?_,(pollResult_pageless hno).2.held (by simp)⟩
    obtain ⟨_,_,_,_,_,_,h⟩ | ⟨page,id,hgen,hk,hpage,-,-⟩ := pollResult_cases x amb gen res m
    · rw [h]
      exact hm
    · simp [hgen, hk, hpage] at hno
  simp only [not_or, ne_eq, not_not, Bool.not_eq_true] at hno
  obtain ⟨rfl,hk,hpage⟩ := hno
  obtain ⟨page,hpage⟩ := Option.ne_none_iff_exists'.mp hpage
  let m' : Model := { m with polling := false, pollRetries := 0 }
  have hpoll : Upheld T (ingestPoll x amb page m') := by
    cases hid : m.identity x with
    | none =>
      have hnone : (adoptCursor (amb.now 0) page m').identity x = none := by
        rw [adoptCursor_identity]
        exact hid
      obtain ⟨_,hcursor⟩ := adoptCursor_eq (amb.now 0) page m'
      simp only [ingestPoll, show m'.kvLoadFailed = false from hk, hnone]
      refine ⟨?_,by simp⟩
      simp only [Bool.false_eq_true, if_false, hcursor]
      exact hm
    | some id =>
      have hid : m'.identity x = some id := hid
      have htakes : (Event.pollResult m.pollGen res).takesIn x m = some (page,id) :=
        takesIn_eq_some.mpr ⟨rfl,hk,hpage,hid⟩
      have hheld := @ingested_held x amb T hT page id m' hm (fun peer ts => hup.profiles _ m.profile ts (.inl rfl) rfl)
        (fun peer ids ts hids => hup.acks peer ids ts fun i hi => by simpa [filedTexts, htakes] using hids i hi)
        (hup.shown page id htakes)
      rw [ingestPoll_eq (m := m') hk hid]
      refine ⟨hheld,fun c hc => ?_⟩
      obtain hc | hc := List.mem_append.mp hc
      · exact (persist_held hT amb.hash _ _ hheld).2 c hc
      · exact List.mem_singleton.mp hc ▸ trivial
  rw [pollResult_page hk hpage]
  unfold pollPage
  generalize ingestPoll x amb page m' = r at hpoll ⊢
  refine ⟨hpoll.1,fun c hc => ?_⟩
  obtain hc | hc := List.mem_append.mp hc
  · exact hpoll.2 c hc
  · simp only [List.mem_cons, List.not_mem_nil, or_false] at hc
    obtain rfl | rfl | rfl := hc
    · split <;> trivial
    · trivial
    · trivial

omit hT in
theorem loadedOutbox_held {res : KvData} {m : Model} (hm : m.Held T) (h : (Event.loadedOutbox res).Held T) :
    Upheld T (loadedOutbox res m) := by
  refine ⟨?_,(loaded_asks _ _ _ res m).held (by simp)⟩
  have hread : (loadedModel KvValue.outbox? (fun items m => { m with outbox := items })
      (Model.loadFailed "outbox") res m).Held T := by
    unfold loadedModel
    split
    · rename_i items hitems
      obtain ⟨v,rfl,hv⟩ := parseKv_some hitems
      have hv' := h v rfl
      cases v <;> simp only [KvValue.outbox?, Option.some.injEq, reduceCtorEq] at hv
      exact ⟨hv ▸ hv',hm.2⟩
    · exact hm
    · exact hm
  simp only [loadedOutbox, loaded_eq, Upd.and_fst]
  obtain ⟨_,hdone⟩ := startupDone_fst (loadedModel KvValue.outbox?
    (fun items m => { m with outbox := items }) (Model.loadFailed "outbox") res m)
  rw [hdone]
  exact hread

omit hT in
theorem loadedContacts_held {res : KvData} {m : Model} (hm : m.Held T)
    (h : (Event.loadedContacts res).Held T) : Upheld T (loadedContacts res m) := by
  refine ⟨?_,(loadedContacts_asks res m).held (by simp)⟩
  obtain ⟨_,hdone⟩ := startupDone_fst m
  unfold loadedContacts
  generalize startupDone m = r at hdone ⊢
  obtain ⟨m',cs⟩ := r
  obtain rfl : m' = _ := hdone
  simp only
  split
  · rename_i list hlist
    obtain ⟨v,rfl,hv⟩ := parseKv_some hlist
    have hv' := h v rfl
    cases v <;> simp only [KvValue.contacts?, Option.some.injEq, reduceCtorEq] at hv
    refine ⟨hm.1,fun k c hc => ?_⟩
    obtain rfl := contactMap_keyed list k c hc
    exact hv' c (hv ▸ mem_contactMap hc)
  · exact hm
  · exact hm

/-- No update puts an item into the outbox, or a contact into the list, that fails its condition. -/
theorem update_held {e : Event} {m : Model} (hm : m.Held T) (he : e.Held T) (hup : Upholds x T amb e m) :
    Upheld T (update x amb e m) := by
  have hquiet : Field.outbox ∉ e.writes → Field.contacts ∉ e.writes →
      (∀ a ∈ e.asks, a ∉ [.write,.writeCursor,.other]) → Upheld T (update x amb e m) := by
    intro ho hc ha
    refine ⟨?_,(update_asks x amb e m).held ha⟩
    have houtbox : (update x amb e m).1.outbox = m.outbox := update_agrees x amb e m .outbox ho
    have hcontacts : (update x amb e m).1.contacts = m.contacts := update_agrees x amb e m .contacts hc
    rwa [Model.Held, houtbox, hcontacts]
  cases e with
  | sendText =>
    refine sendText_held hT hm (fun _ => hup.profiles _ m.profile _ (.inl rfl) rfl) fun peer hwrites => ?_
    exact hup.texts peer (amb.now 0) (amb.uuid,trim m.compose) (by simp [writtenTexts, hwrites])
  | saveProfile displayName bio photo =>
    change Upheld T (saveProfile x amb displayName bio photo m)
    exact saveProfile_held displayName bio photo hm hup.profiles
  | setBlocked peer blocked => exact setBlocked_held hT peer blocked m hm
  | deleteContact peer => exact deleteContact_held hT peer m hm
  | addContact input nickname =>
    change Upheld T (addContact x amb input nickname m)
    exact addContact_held hT input nickname m hm
  | setServerUrl url =>
    change Upheld T (setServerUrl x url m)
    simp only [setServerUrl]
    split
    · exact refuse_held _ _ hm
    · refine (Upd.Keeps.and (guarded_held fun _ _ op hop => ?_) (emit_held (by simp [CmdHeld]))) _ hm
      simp only [List.mem_cons, List.not_mem_nil, or_false] at hop
      obtain rfl | rfl := hop <;> trivial
  | startFlush => exact flushNext_held hT m hm
  | flushWatchdog gen =>
    change Upheld T (flushWatchdog x amb gen m)
    simp only [flushWatchdog]
    split
    · exact ⟨hm,by simp⟩
    · exact flushNext_held hT _ hm
  | sendResult gen res => exact sendResult_held hT gen res m hm
  | pollResult gen res => exact pollResult_held hT hm hup
  | loadedOutbox res => exact loadedOutbox_held hm he
  | loadedContacts res => exact loadedContacts_held hm he
  | _ => exact hquiet (by simp [Event.writes]) (by simp [Event.writes]) (by simp [Event.asks])

omit hT in
theorem performKv_held {disk : Disk} {op : KvOp} (tag : KvTag)
    (hd : ∀ key value, disk key = some value → value.Held T) (hop : CmdHeld T (.request (.kv op tag))) :
    (∀ key value, (performKv disk op).1 key = some value → value.Held T) ∧
      ∀ e, answer x (.kv op tag) (performKv disk op).2 = some e → e.Held T := by
  have hread : ∀ key e, answer x (.kv op tag) (.kv (.ok (disk key))) = some e → e.Held T := by
    intro key e he v hv
    obtain rfl := Option.some.inj he
    refine hd key v ?_
    cases hdisk : disk key with
    | none => cases tag <;> simp [KvTag.event, Event.stored, hdisk] at hv
    | some w => cases tag <;> simp_all [KvTag.event, Event.stored]
  cases op with
  | get key => exact ⟨hd,hread key⟩
  | set key value =>
    refine ⟨fun k v hv => ?_,hread key⟩
    simp only [performKv] at hv
    split at hv
    · exact Option.some.inj hv ▸ hop
    · exact hd k v hv
  | delete key =>
    refine ⟨fun k v hv => ?_,hread key⟩
    simp only [performKv] at hv
    split at hv
    · simp at hv
    · exact hd k v hv

/-- Where what is sent and shown meets the conditions, so do the items and contacts of a device, in memory
and on disk. -/
theorem clauses_keep : Device.Keeps (app x) kvStore (Upholds x T) (Model.Held T) (Event.Held T)
    (fun f => CmdHeld T (.request f)) (fun disk => ∀ key value, disk key = some value → value.Held T) where
  init := by simp [app, Model.Held]
  update amb e m hup hm he := by
    obtain ⟨hheld,hcmds⟩ := update_held hT hm he hup
    refine ⟨hheld,fun f hf => ?_,fun e' he' => ?_⟩
    · obtain ⟨c,hc,hcf⟩ := List.mem_filterMap.mp hf
      cases c <;> simp at hcf
      exact hcf ▸ hcmds _ hc
    · have hask := (update_asks x amb e m).event he'
      have hother : Ask.other ∉ e.asks := by cases e <;> simp [Event.asks]
      intro v hv
      cases e' <;> simp [Event.stored] at hv
      all_goals exact absurd hask hother
  shell e he := by
    intro v hv
    cases e <;> simp_all [Event.stored, app, fromShell]
  answer f r e _ hop he := by
    intro v hv
    cases f with
    | kv => simp [kvStore] at hop
    | http req tag =>
      cases r <;> simp only [app, answer, Option.some.injEq, reduceCtorEq] at he
      cases tag <;> simp [← he, HttpTag.event, Event.stored] at hv
    | time ms tag =>
      cases r <;> simp only [app, answer, Option.some.injEq, reduceCtorEq] at he
      cases tag <;> simp [← he, TimeTag.event, Event.stored] at hv
  perform f disk hf hd := by
    cases f with
    | kv op tag => exact performKv_held tag hd hf
    | http | time => exact ⟨hd,by simp [app, kvStore, answer]⟩
  failed f e _ he := by
    intro v hv
    cases f with
    | http | time => simp [app, kvStore, answer] at he
    | kv op tag =>
      simp only [app, kvStore, answer, Option.some.injEq] at he
      cases tag <;> simp [← he, KvTag.event, Event.stored] at hv

end

end Skrepka.Client
