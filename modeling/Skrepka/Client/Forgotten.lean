import Skrepka.Client.Stored
import Skrepka.Client.Ordered
import Skrepka.Client.Blocked
import Skrepka.Client.Filing

/-! A deleted contact is forgotten, by the model and by what is written to the store: what can bring
it back is the user, a text from it, or a read of the store that was still out. -/
namespace Skrepka.Client
open Rust Mvu

/-- Nothing is kept for a peer. -/
structure Model.Forgets (m : Model) (peer : String) : Prop where
  contact : m.contacts[peer]? = none
  convo : m.messages[peer]? = none
  seen : m.seenIds[peer]? = none
  outbox : ∀ i ∈ m.outbox, i.recipient ≠ peer

/-- An answer of the store has something of a peer in it. -/
def Event.carries (peer : String) : Event → Bool
  | .loadedContacts (.ok (some (.contacts list))) => list.any fun c => c.pubkey = peer
  | .loadedOutbox (.ok (some (.outbox items))) => items.any fun i => i.recipient = peer
  | .loadedSeenIds (.ok (some (.seenIds ids))) => ids[peer]?.isSome
  | .loadedMessages p (.ok (some (.messages _))) => p = peer
  | _ => false

/-- The user adds a peer or writes to it, or a page with a text from it is ingested. -/
def Event.revives (x : Crates) (m : Model) (peer : String) : Event → Bool
  | .addContact input nickname => len nickname ≤ Protocol.maxDisplayNameLen &&
      Phonemic.tryParsePubkey x.verifyingKey input = some peer && peer ≠ m.myPubkey
  | .sendText => m.writesTo peer
  | e => (e.takesIn x m).any fun p => textIds peer (p.1.opened x p.2) ≠ []

/-- A message with one of the old ids is read from the store for a peer, written to it or ingested
from it. -/
def Event.bringsBack (x : Crates) (amb : Ambient) (m : Model) (peer : String) (old : Finset String) :
    Event → Bool
  | .loadedMessages p (.ok (some (.messages list))) => p = peer && list.any fun msg => msg.id ∈ old
  | .sendText => m.writesTo peer && amb.uuid ∈ old
  | e => (e.takesIn x m).any fun p => (textIds peer (p.1.opened x p.2)).any fun id => id ∈ old

section
variable {peer : String}

/-- The maps say the same of the peer, and what is new in the outbox is for others. -/
theorem Model.Forgets.of_eq {m m' : Model} (h : m.Forgets peer)
    (hc : m'.contacts[peer]? = m.contacts[peer]?) (hm : m'.messages[peer]? = m.messages[peer]?)
    (hs : m'.seenIds[peer]? = m.seenIds[peer]?)
    (ho : ∀ i ∈ m'.outbox, (∃ j ∈ m.outbox, i.recipient = j.recipient) ∨ i.recipient ≠ peer) :
    m'.Forgets peer := by
  refine ⟨hc.trans h.contact,hm.trans h.convo,hs.trans h.seen,fun i hi => ?_⟩
  obtain ⟨j,hj,hr⟩ | hne := ho i hi
  · exact hr ▸ h.outbox j hj
  · exact hne

theorem kept_items {items : List OutboxItem} (i : OutboxItem) (hi : i ∈ items) :
    (∃ j ∈ items, i.recipient = j.recipient) ∨ i.recipient ≠ peer := .inl ⟨i,hi,rfl⟩

namespace Ingest

/-- A page has brought nothing of a peer so far. -/
structure Skips (peer : String) (s : Ingest) : Prop where
  forgets : s.model.Forgets peer
  acks : s.ackTargets[peer]? = none
  touched : peer ∉ s.touchedConvos

variable {s : Ingest} {sender : String}

theorem addStranger_skips (h : s.Skips peer) (hs : sender ≠ peer) (x : Crates) (ts : ℤ) :
    (s.addStranger x sender ts).Skips peer := by
  refine ⟨h.forgets.of_eq ?_ rfl rfl fun i hi => ?_,h.acks,h.touched⟩
  · simp [addStranger, Maps.getElem?_insert, hs]
  · obtain hi | hi := List.mem_append.mp hi
    · exact kept_items i hi
    · obtain rfl := List.mem_singleton.mp hi
      exact .inr hs

theorem storeText_skips (h : s.Skips peer) (hs : sender ≠ peer) (hash : HashOrder) (ts : ℤ)
    (msgId body : String) : (s.storeText hash sender ts msgId body).Skips peer := by
  simp only [storeText]
  split
  · refine ⟨h.forgets.of_eq rfl ?_ ?_ kept_items,h.acks,h.touched⟩
    · simp [Maps.getElem?_insert, hs]
    · simp [Maps.getElem?_insert, hs]
  · refine ⟨h.forgets.of_eq rfl ?_ ?_ kept_items,?_,?_⟩
    · simp [Maps.getElem?_insert, hs]
    · simp [Maps.getElem?_insert, hs]
    · simpa [Maps.getElem?_insert, hs] using h.acks
    · simpa [Ne.symm hs] using h.touched

theorem text_skips (h : s.Skips peer) (hs : sender ≠ peer) (x : Crates) (hash : HashOrder) (ts : ℤ)
    (msgId body : String) : (s.text x hash sender ts msgId body).Skips peer := by
  unfold text
  split
  · exact storeText_skips h hs ..
  split
  · exact h
  · exact storeText_skips (addStranger_skips h hs x ts) hs ..

/-- A profile of an unknown peer is dropped, and its acks have nothing to apply to. -/
theorem payload_skips (h : s.Skips peer) {p : String × ParsedPayload} (hp : NoText peer p)
    (x : Crates) (hash : HashOrder) (now : ℤ) : (s.payload x hash now p.1 p.2).Skips peer := by
  obtain ⟨sender,ts,pl⟩ := p
  simp only [payload]
  split
  · exact h
  split
  · exact h
  cases pl with
  | text id body => exact text_skips h (fun hs => hp hs id body rfl) ..
  | deliveryAck ackIds => exact ⟨h.forgets,h.acks,h.touched⟩
  | profile displayName bio photo =>
    simp only [profile]
    split
    · exact h
    rename_i c hc
    have hs : sender ≠ peer := by
      rintro rfl
      simp [h.forgets.contact] at hc
    split
    · refine ⟨h.forgets.of_eq ?_ rfl rfl kept_items,h.acks,h.touched⟩
      simp [Maps.getElem?_insert, hs]
    · exact h

theorem applyAck_skips (h : s.Skips peer) (now : ℤ) (pending : String × PendingAck) :
    (s.applyAck now pending).Skips peer := by
  have hmark : ∀ s : Ingest, s.Skips peer → (s.markConvo pending.1 pending.2).Skips peer := by
    intro s h
    simp only [markConvo]
    split
    · exact h
    rename_i convo hc
    have hs : pending.1 ≠ peer := by
      intro hs
      simp [hs, h.forgets.convo] at hc
    split
    · refine ⟨h.forgets.of_eq rfl ?_ rfl kept_items,h.acks,?_⟩
      · simp [Maps.getElem?_insert, hs]
      · simpa [Ne.symm hs] using h.touched
    · exact h
  simp only [applyAck]
  split
  · exact h
  refine hmark _ ?_
  simp only [ackWatermark]
  split
  · exact h
  rename_i c hc
  have hs : pending.1 ≠ peer := by
    intro hs
    simp [hs, h.forgets.contact] at hc
  refine ⟨h.forgets.of_eq ?_ rfl rfl kept_items,h.acks,h.touched⟩
  simp [Maps.getElem?_insert, hs]

theorem applyAcks_skips (h : s.Skips peer) (now : ℤ) : (s.applyAcks now).Skips peer := by
  unfold applyAcks
  generalize s.pendingAcks.toList = acks
  induction acks generalizing s with
  | nil => exact h
  | cons ack acks ih => exact ih (applyAck_skips h now ack)

theorem queueAcks_skips (h : s.Skips peer) (x : Crates) (ackTs : ℤ) :
    (s.queueAcks x ackTs).Skips peer := by
  refine ⟨h.forgets.of_eq rfl rfl rfl fun i hi => ?_,h.acks,h.touched⟩
  obtain hi | ⟨ids,hids⟩ := queueAcks_outbox hi
  · exact kept_items i hi
  · refine .inr fun hr => ?_
    simp [hr, h.acks] at hids

end Ingest

theorem noText_of_textIds {ps : List (String × ParsedPayload)} (h : textIds peer ps = [])
    {p : String × ParsedPayload} (hp : p ∈ ps) : NoText peer p := by
  rintro hs id body hbody
  have hmem : id ∈ textIds peer ps := List.mem_filterMap.mpr ⟨p,hp,by simp [hbody, hs]⟩
  simp [h] at hmem

/-- A page without a text from a forgotten peer brings nothing of it. -/
theorem ingested_skips (x : Crates) (amb : Ambient) {page : PollResp} {id : Crypto.Identity}
    {m : Model} (h : m.Forgets peer) (htexts : textIds peer (page.opened x id) = []) :
    (ingested x amb page id m).Skips peer := by
  have hdeliver : (Ingest.deliver x amb.hash (amb.now 1) (page.opened x id)
      { model := m }).Skips peer := by
    refine Ingest.deliver_induction (fun p hp s hs => ?_) ⟨h,by simp,by simp⟩
    exact Ingest.payload_skips hs (noText_of_textIds htexts hp) ..
  have hdelivered : (delivered x amb (page.opened x id) m).Skips peer :=
    Ingest.queueAcks_skips (Ingest.applyAcks_skips hdeliver _) ..
  obtain ⟨_,_,_,_,_,hmatch⟩ := ingested_delivered x amb page id m
  rw [hmatch]
  exact ⟨hdelivered.forgets.of_eq rfl rfl rfl kept_items,hdelivered.acks,hdelivered.touched⟩

section
variable {x : Crates} {amb : Ambient} {m : Model}

/-- An event that touches none of the maps and queues no item. -/
theorem Model.Forgets.quiet (h : m.Forgets peer) {e : Event} (hc : Field.contacts ∉ e.writes)
    (hm : Field.messages ∉ e.writes) (hs : Field.seenIds ∉ e.writes) (hq : e.queuesItems = false)
    (ho : ∀ res, e ≠ .loadedOutbox res) : (update x amb e m).1.Forgets peer := by
  have hcontacts : (update x amb e m).1.contacts = m.contacts := update_agrees x amb e m .contacts hc
  have hmessages : (update x amb e m).1.messages = m.messages := update_agrees x amb e m .messages hm
  have hseen : (update x amb e m).1.seenIds = m.seenIds := update_agrees x amb e m .seenIds hs
  refine h.of_eq (by rw [hcontacts]) (by rw [hmessages]) (by rw [hseen]) fun i hi => ?_
  obtain ⟨j,hj,hkept⟩ | ⟨hadded,-⟩ := (update_evolves ho).mem hi
  · exact .inl ⟨j,hj,hkept.1⟩
  · simp [hq] at hadded

theorem writeText_forgets (h : m.Forgets peer) {p : String} (hp : p ≠ peer) (ts : ℤ)
    (id body : String) : (m.writeText x ts id p body).Forgets peer := by
  simp only [Model.writeText]
  split
  · refine h.of_eq ?_ ?_ rfl fun i hi => ?_
    · simp [Maps.getElem?_insert, hp]
    · simp [Maps.getElem?_insert, hp]
    · obtain hi | hi := List.mem_append.mp hi
      · exact kept_items i hi
      · obtain rfl | rfl := List.mem_pair.mp hi <;> exact .inr hp
  · refine h.of_eq rfl ?_ rfl fun i hi => ?_
    · simp [Maps.getElem?_insert, hp]
    · obtain hi | hi := List.mem_append.mp hi
      · exact kept_items i hi
      · obtain rfl := List.mem_singleton.mp hi
        exact .inr hp

theorem sendText_forgets (h : m.Forgets peer) (hr : ¬ m.writesTo peer) :
    (sendText x amb m).1.Forgets peer := by
  obtain ⟨_,hsend⟩ | ⟨p,hwrites,hsend⟩ := sendText_cases x amb m
  · rw [hsend]
    exact h.of_eq rfl rfl rfl kept_items
  · have hp : p ≠ peer := by
      rintro rfl
      exact hr hwrites
    have hm : ({ m with error := none } : Model).Forgets peer := h.of_eq rfl rfl rfl kept_items
    rw [hsend]
    simp only [Upd.and_fst, Upd.emit_fst, persistMessages_fst, persistContacts_fst,
      persistOutbox_fst, Model.refused_refused]
    rw [Model.refused_eq]
    exact (writeText_forgets hm hp (amb.now 0) amb.uuid (trim m.compose)).of_eq rfl rfl rfl kept_items

theorem addContact_forgets (h : m.Forgets peer) {input nickname : String}
    (hr : (Event.addContact input nickname).revives x m peer = false) :
    (addContact x amb input nickname m).1.Forgets peer := by
  have hrefused : ∀ error, ({ m with error } : Model).Forgets peer := fun _ =>
    h.of_eq rfl rfl rfl kept_items
  simp only [addContact]
  split
  · exact hrefused _
  rename_i hlen
  split
  · exact hrefused _
  rename_i hex hparse
  split
  · exact hrefused _
  rename_i hme
  have hne : hex ≠ peer := by
    rintro rfl
    have hlen : len nickname ≤ Protocol.maxDisplayNameLen := by omega
    simp [Event.revives, hlen, hparse, hme] at hr
  simp only [Upd.and_fst, Upd.emit_fst, persistContacts_fst]
  rw [Model.refused_eq]
  refine h.of_eq ?_ rfl rfl kept_items
  simp [Maps.getElem?_insert, hne]

theorem blockContact_none {contacts : PeerMap Contact} (h : contacts[peer]? = none) (p : String)
    (blocked : Bool) : (blockContact p blocked contacts)[peer]? = none := by
  unfold blockContact
  split
  · rename_i c hc
    have hp : p ≠ peer := by
      rintro rfl
      simp [h] at hc
    simpa [Maps.getElem?_insert, hp] using h
  · exact h

theorem setBlocked_forgets (h : m.Forgets peer) (p : String) (blocked : Bool) :
    (setBlocked p blocked m).1.Forgets peer := by
  have hnone : (blockContact p blocked m.contacts)[peer]? = m.contacts[peer]? := by
    rw [h.contact, blockContact_none h.contact]
  simp only [setBlocked]
  split
  · simp only [Upd.and_fst, Upd.emit_fst, persistContacts_fst, persistOutbox_fst,
      Model.refused_refused]
    obtain ⟨_,hm⟩ := removeItems_eq
      { m with contacts := blockContact p blocked m.contacts, error := none } p
    rw [Model.refused_eq, hm]
    exact h.of_eq hnone rfl rfl fun i hi => kept_items i (List.mem_filter.mp hi).1
  · simp only [Upd.and_fst, Upd.emit_fst, persistContacts_fst]
    rw [Model.refused_eq]
    exact h.of_eq hnone rfl rfl kept_items

theorem deleteContact_forgets (h : m.Forgets peer) (p : String) :
    (deleteContact p m).1.Forgets peer := by
  obtain ⟨_,_,_,_,hm⟩ := forgetPeer_eq m p
  rw [deleteContact_fst, Model.refused_eq, hm]
  refine ⟨?_,?_,?_,fun i hi => h.outbox i (List.mem_filter.mp hi).1⟩
  · simp [Maps.getElem?_erase, h.contact]
  · simp [Maps.getElem?_erase, h.convo]
  · simp [Maps.getElem?_erase, h.seen]

/-- A deleted contact is forgotten. -/
theorem forgets_deleteContact (peer : String) (m : Model) : (deleteContact peer m).1.Forgets peer := by
  obtain ⟨_,_,_,_,hm⟩ := forgetPeer_eq m peer
  rw [deleteContact_fst, Model.refused_eq, hm]
  refine ⟨?_,?_,?_,fun i hi => by simpa using (List.mem_filter.mp hi).2⟩
  iterate 3 simp

theorem saveProfile_forgets (h : m.Forgets peer) (hk : WellKeyed m.contacts)
    (displayName bio : String) (photo : Option String) :
    (saveProfile x amb displayName bio photo m).1.Forgets peer := by
  simp only [saveProfile]
  repeat' split
  iterate 4 exact h.of_eq rfl rfl rfl kept_items
  simp only [Upd.and_fst, Upd.emit_fst, persistProfile_fst, persistOutbox_fst,
    Model.refused_refused]
  rw [Model.refused_eq]
  refine h.of_eq rfl rfl rfl fun i hi => ?_
  refine (broadcastProfile_contact (m := { m with
    error := none, profile := ⟨displayName,bio,photo⟩, page := .conversations }) hk hi).imp id ?_
  rintro ⟨c,hc,-⟩ hr
  rw [hr] at hc
  simp [h.contact] at hc

theorem loadedContacts_forgets (h : m.Forgets peer) {res : KvData}
    (hc : (Event.loadedContacts res).carries peer = false) :
    (loadedContacts res m).1.Forgets peer := by
  obtain ⟨_,hdone⟩ := startupDone_fst m
  unfold loadedContacts
  generalize startupDone m = r at hdone ⊢
  obtain ⟨m',cs⟩ := r
  obtain rfl : m' = _ := hdone
  cases hres : parseKv KvValue.contacts? res with
  | error => exact h.of_eq rfl rfl rfl kept_items
  | ok list =>
    cases list with
    | none => exact h.of_eq rfl rfl rfl kept_items
    | some list =>
      obtain ⟨v,rfl,hv⟩ := parseKv_some hres
      cases v <;> simp only [KvValue.contacts?, Option.some.injEq, reduceCtorEq] at hv
      refine h.of_eq ?_ rfl rfl kept_items
      rw [h.contact]
      by_contra hne
      obtain ⟨c,hmem⟩ := Option.ne_none_iff_exists'.mp hne
      have hout : ∀ c ∈ list, c.pubkey ≠ peer := by simpa [Event.carries, hv] using hc
      exact hout c (mem_contactMap hmem) (contactMap_keyed list peer c hmem)

theorem loadedOutbox_forgets (h : m.Forgets peer) {res : KvData}
    (hc : (Event.loadedOutbox res).carries peer = false) : (loadedOutbox res m).1.Forgets peer := by
  obtain ⟨_,hdone⟩ := startupDone_fst
    (loadedModel KvValue.outbox? (fun list m => { m with outbox := list }) (Model.loadFailed "outbox") res m)
  simp only [loadedOutbox, loaded_eq, Upd.and_fst, Upd.emit_fst]
  rw [hdone, loadedModel]
  cases hres : parseKv KvValue.outbox? res with
  | error => exact h.of_eq rfl rfl rfl kept_items
  | ok items =>
    cases items with
    | none => exact h.of_eq rfl rfl rfl kept_items
    | some items =>
      obtain ⟨v,rfl,hv⟩ := parseKv_some hres
      cases v <;> simp only [KvValue.outbox?, Option.some.injEq, reduceCtorEq] at hv
      have hout : ∀ i ∈ items, i.recipient ≠ peer := by simpa [Event.carries, hv] using hc
      exact h.of_eq rfl rfl rfl fun i hi => .inr (hout i hi)

theorem loadedSeenIds_forgets (h : m.Forgets peer) {res : KvData}
    (hc : (Event.loadedSeenIds res).carries peer = false) : (loadedSeenIds res m).1.Forgets peer := by
  obtain ⟨_,hdone⟩ := startupDone_fst
    (loadedModel KvValue.seenIds? (fun map m => { m with seenIds := map })
      (fun m => { m with seenIds := ∅ }) res m)
  simp only [loadedSeenIds, loaded_eq, Upd.and_fst, Upd.emit_fst]
  rw [hdone, loadedModel]
  cases hres : parseKv KvValue.seenIds? res with
  | error => exact h.of_eq rfl rfl (by simp [h.seen]) kept_items
  | ok ids =>
    cases ids with
    | none => exact h.of_eq rfl rfl rfl kept_items
    | some ids =>
      obtain ⟨v,rfl,hv⟩ := parseKv_some hres
      cases v <;> simp only [KvValue.seenIds?, Option.some.injEq, reduceCtorEq] at hv
      have hnone : ids[peer]?.isSome = false := hv ▸ hc
      exact h.of_eq rfl rfl (by rw [h.seen, Option.not_isSome_iff_eq_none.mp (Bool.eq_false_iff.mp hnone)])
        kept_items

theorem loadedMessages_forgets (h : m.Forgets peer) {p : String} {res : KvData}
    (hc : (Event.loadedMessages p res).carries peer = false) :
    (loadedMessages p res m).1.Forgets peer := by
  unfold loadedMessages
  cases hres : parseKv KvValue.messages? res with
  | error => exact h.of_eq rfl rfl rfl kept_items
  | ok list =>
    cases list with
    | none => exact h
    | some list =>
      obtain ⟨v,rfl,hv⟩ := parseKv_some hres
      cases v <;> simp only [KvValue.messages?, Option.some.injEq, reduceCtorEq] at hv
      have hp : p ≠ peer := by simpa [Event.carries] using hc
      refine h.of_eq rfl ?_ ?_ kept_items
      · simp [Maps.getElem?_insert, hp]
      · dsimp only
        split
        · simp [Maps.getElem?_insert, hp]
        · rfl

theorem takesIn_some {gen : UInt64} {res : HttpResult} {page : PollResp} {id : Crypto.Identity}
    (hgen : gen = m.pollGen) (hk : m.kvLoadFailed = false) (hpage : readPage x res = some page)
    (hid : m.identity x = some id) : (Event.pollResult gen res).takesIn x m = some (page,id) := by
  simp [Event.takesIn, hgen, hk, hpage, hid]

theorem pollResult_forgets (h : m.Forgets peer) {gen : UInt64} {res : HttpResult}
    (hr : (Event.pollResult gen res).revives x m peer = false) :
    (pollResult x amb gen res m).1.Forgets peer := by
  obtain ⟨_,_,_,_,_,_,hm⟩ | ⟨page,id,hgen,hk,hpage,hid,hm⟩ := pollResult_cases x amb gen res m
  · rw [hm]
    exact h.of_eq rfl rfl rfl kept_items
  · rw [hm]
    have hm : ({ m with polling := false, pollRetries := 0 } : Model).Forgets peer :=
      h.of_eq rfl rfl rfl kept_items
    refine (ingested_skips x amb hm ?_).forgets
    simpa [Event.revives, takesIn_some hgen hk hpage hid] using hr

/-- A forgotten peer is brought back by the store, by the user or by a text from it, and by nothing
else. -/
theorem update_forgets (h : m.Forgets peer) (hk : WellKeyed m.contacts) {e : Event}
    (hc : e.carries peer = false) (hr : e.revives x m peer = false) :
    (update x amb e m).1.Forgets peer := by
  cases e with
  | sendText => exact sendText_forgets h (by simpa [Event.revives] using hr)
  | addContact input nickname =>
    simp only [update]
    exact addContact_forgets h hr
  | setBlocked p blocked => exact setBlocked_forgets h p blocked
  | deleteContact p => exact deleteContact_forgets h p
  | saveProfile displayName bio photo => exact saveProfile_forgets h hk displayName bio photo
  | loadedContacts res => exact loadedContacts_forgets h hc
  | loadedOutbox res => exact loadedOutbox_forgets h hc
  | loadedSeenIds res => exact loadedSeenIds_forgets h hc
  | loadedMessages p res => exact loadedMessages_forgets h hc
  | pollResult gen res => exact pollResult_forgets h hr
  | _ => exact h.quiet (by simp [Event.writes]) (by simp [Event.writes]) (by simp [Event.writes]) rfl (by simp)

end
end

/-- No message of a peer's conversation has one of some ids. -/
def Model.Lacks (m : Model) (peer : String) (old : Finset String) : Prop :=
  ∀ i ∈ (m.convo peer).map StoredMessage.id, i ∉ old

/-- What a request writes for a peer's conversation, if it writes that. -/
def Effect.filed (peer : String) : Effect → Option KvValue
  | .kv (.set (.messages p) value) _ => if p = peer then some value else none
  | _ => none

section
variable {x : Crates} {amb : Ambient} {m : Model} {peer : String} {old : Finset String}

theorem Model.Lacks.of_messages {m' : Model} (h : m.Lacks peer old)
    (hm : m'.messages[peer]? = m.messages[peer]?) : m'.Lacks peer old := by
  rw [Model.Lacks, Model.convo, hm]
  exact h

/-- Every message is an old one of the conversation, or a new one with another id. -/
theorem Model.Lacks.insert {m' : Model} {p : String} {convo : List StoredMessage}
    (h : m.Lacks peer old) (hm : m'.messages = m.messages.insert p convo)
    (hconvo : p = peer → ∀ msg ∈ convo, msg ∈ m.convo peer ∨ msg.id ∉ old) : m'.Lacks peer old := by
  intro i hi
  rw [convo_insert hm] at hi
  split at hi
  · rename_i hp
    obtain ⟨msg,hmsg,rfl⟩ := List.mem_map.mp hi
    obtain hmsg | hmsg := hconvo hp msg hmsg
    · exact h _ (List.mem_map_of_mem hmsg)
    · exact hmsg
  · exact h i hi

theorem mem_filed {convo : List StoredMessage} {msg msg' : StoredMessage}
    (h : msg' ∈ trimHistory (insertSorted convo msg)) : msg' = msg ∨ msg' ∈ convo := by
  have hmem := (insertSorted_perm convo msg).mem_iff.mp ((trimHistory_sublist _).subset h)
  exact List.mem_cons.mp hmem

theorem mem_mergeHistory {existing list : List StoredMessage} {msg : StoredMessage}
    (h : msg ∈ mergeHistory existing list) : msg ∈ existing ∨ msg ∈ list := by
  unfold mergeHistory at h
  have hmem := (List.mem_insertionSort _).mp ((trimHistory_sublist _).subset h)
  exact (List.mem_append.mp hmem).imp id fun h => (List.mem_filter.mp h).1

theorem sendText_lacks (h : m.Lacks peer old)
    (he : Event.sendText.bringsBack x amb m peer old = false) : (sendText x amb m).1.Lacks peer old := by
  obtain hsend | ⟨p,hwrites,hsend⟩ := sendText_messages x amb m
  · exact h.of_messages (congrArg (fun messages => messages[peer]?) hsend)
  refine h.insert hsend fun hp msg hmsg => ?_
  subst hp
  obtain rfl | hmsg := mem_filed hmsg
  · exact .inr (by simpa [Event.bringsBack, hwrites] using he)
  · exact .inl hmsg

theorem loadedMessages_lacks (h : m.Lacks peer old) {p : String} {res : KvData}
    (he : (Event.loadedMessages p res).bringsBack x amb m peer old = false) :
    (loadedMessages p res m).1.Lacks peer old := by
  obtain hload | ⟨list,convo,rfl,hload,hconvo⟩ := loadedMessages_messages p res m
  · exact h.of_messages (congrArg (fun messages => messages[peer]?) hload)
  refine h.insert hload fun hp msg hmsg => ?_
  subst hp
  have hnew : ∀ msg ∈ list, msg.id ∉ old := by simpa [Event.bringsBack] using he
  obtain ⟨-,hlist⟩ | ⟨existing,hc,hmerge⟩ := hconvo
  · rw [hlist] at hmsg
    exact .inr (hnew msg hmsg)
  rw [hmerge] at hmsg
  obtain hmsg | hmsg := mem_mergeHistory hmsg
  · exact .inl (by simpa [Model.convo, hc] using hmsg)
  · exact .inr (hnew msg hmsg)

theorem pollResult_lacks (h : m.Lacks peer old) {gen : UInt64} {res : HttpResult}
    (he : (Event.pollResult gen res).bringsBack x amb m peer old = false) :
    (pollResult x amb gen res m).1.Lacks peer old := by
  obtain ⟨_,_,_,_,_,_,hm⟩ | ⟨page,id,hgen,hk,hpage,hid,hm⟩ := pollResult_cases x amb gen res m
  · rw [hm]
    exact h
  have hnew : ∀ i ∈ textIds peer (page.opened x id), i ∉ old := by
    simpa [Event.bringsBack, takesIn_some hgen hk hpage hid] using he
  rw [hm, Model.Lacks, (ingested_texts x amb page id _ peer).1]
  refine Ingest.deliver_induction (I := fun s => s.model.Lacks peer old) (fun p hp s hs => ?_) h
  obtain ⟨i,body,hpeer,htext,-,-,hfiled⟩ | hun :=
    Ingest.payload_texts x amb.hash (amb.now 1) p s peer
  · intro j hj
    rw [hfiled.convo] at hj
    obtain ⟨msg,hmsg,rfl⟩ := List.mem_map.mp hj
    obtain rfl | hmsg := mem_filed hmsg
    · exact hnew i (List.mem_filterMap.mpr ⟨p,hp,by simp [htext, hpeer]⟩)
    · exact hs _ (List.mem_map_of_mem hmsg)
  · rw [Model.Lacks, hun.convo]
    exact hs

/-- Old messages come back from the store, or under their own ids again, and in no other way. -/
theorem update_lacks (h : m.Lacks peer old) {e : Event}
    (he : e.bringsBack x amb m peer old = false) : (update x amb e m).1.Lacks peer old := by
  by_cases hw : Field.messages ∈ e.writes
  · cases e with
    | sendText => exact sendText_lacks h he
    | loadedMessages p res =>
      simp only [update]
      exact loadedMessages_lacks h he
    | pollResult gen res => exact pollResult_lacks h he
    | deleteContact p =>
      obtain ⟨_,_,_,_,hm⟩ := forgetPeer_eq m p
      simp only [update, deleteContact_fst]
      rw [Model.refused_eq, hm]
      intro i hi
      simp only [Model.convo, Maps.getElem?_erase] at hi
      split at hi
      · simp at hi
      · exact h i hi
    | _ => simp [Event.writes] at hw
  · have hmessages : (update x amb e m).1.messages = m.messages := update_agrees x amb e m .messages hw
    exact h.of_messages (by rw [hmessages])

theorem filed_eq_none {cs : Commands} (h : ∀ c ∈ cs, CmdFiles (fun p value => value.isSome → p ≠ peer) c) {f : Effect}
    (hf : f ∈ Cmd.requests cs) : f.filed peer = none := by
  obtain ⟨c,hc,hreq⟩ := List.mem_filterMap.mp hf
  cases c with
  | request g =>
    obtain rfl : g = f := by simpa using hreq
    have hg := h _ hc
    cases g with
    | kv op tag =>
      cases op with
      | set key value => cases key <;> first | rfl | exact if_neg (hg rfl)
      | get | delete => rfl
    | http | time => rfl
  | event | render => simp at hreq

/-- Nothing of a forgotten peer is written down. -/
theorem update_files_forgotten (h : m.Forgets peer) {e : Event} (hr : e.revives x m peer = false)
    {f : Effect} (hf : f ∈ Cmd.requests (update x amb e m).2) : f.filed peer = none := by
  refine filed_eq_none (update_files (fun he p hwrites _ hp => ?_) (by simp)
    fun page id htakes p hp _ => ?_) hf
  · subst he hp
    simp [Event.revives, hwrites] at hr
  · rintro rfl
    have htexts : textIds p (page.opened x id) = [] := by
      cases e with
      | pollResult gen res => simpa [Event.revives, htakes] using hr
      | _ => cases htakes
    have hm : ({ m with polling := false, pollRetries := 0 } : Model).Forgets p :=
      h.of_eq rfl rfl rfl kept_items
    exact (ingested_skips x amb hm htexts).touched hp

theorem deleteContact_files (x : Crates) (amb : Ambient) {f : Effect}
    (hf : f ∈ Cmd.requests (update x amb (.deleteContact peer) m).2) : f.filed peer = none :=
  filed_eq_none (update_files (by simp) (by simp) (by simp [Event.takesIn])) hf

/-- A run goes on without a peer: nothing is kept for it, and what is written of it was written
before. -/
structure Without (peer : String) (c₀ c : Running) : Prop where
  forgets : c.model.Forgets peer
  keyed : WellKeyed c.model.contacts
  pending : ∀ p ∈ c.pending, (p.2.filed peer).isSome → p ∈ c₀.pending

theorem Without.process {c₀ c : Running} (h : Without peer c₀ c) {e : Event}
    (hc : e.carries peer = false) (hr : e.revives x c.model peer = false) :
    Without peer c₀ (c.process (app x) amb e) := by
  refine ⟨update_forgets h.forgets h.keyed hc hr,update_keyed h.keyed,fun p hp hfiled => ?_⟩
  obtain hp | ⟨hp,-⟩ := Core.mem_process_pending hp
  · exact h.pending p hp hfiled
  · simp [update_files_forgotten h.forgets hr hp] at hfiled

/-- A deleted contact stays forgotten: as long as no read of the store brings something of the peer,
nothing is kept for it, and nothing of it written, until the user adds it or writes to it or a text
from it comes in; and as long as no old message is read from the store or comes again under its id,
the conversation has none. -/
theorem deleted_stays_forgotten {ls ms : List Label} {c c' d : Running}
    (hrun : runFromBoot x ls = some c)
    (hdel : step x c (amb,.shell (.deleteContact peer)) = some c')
    (hd : Lts.run (step x) c' ms = some d) :
    (Core.Meets (app x) (fun _ e m => e.carries peer = false ∧ e.revives x m peer = false) c' ms →
      d.model.Forgets peer ∧ ∀ p ∈ d.pending, (p.2.filed peer).isSome → p ∈ c.pending) ∧
    ∀ old : Finset String,
      Core.Meets (app x) (fun amb e m => e.bringsBack x amb m peer old = false) c' ms →
      ∀ msg ∈ d.model.convo peer, msg.id ∉ old := by
  obtain ⟨e,c₁,ht,rfl⟩ := Core.step_cases hdel
  cases ht with
  | shell hq hs =>
  have hforgets : (deleteContact peer c.model).1.Forgets peer := forgets_deleteContact peer c.model
  refine ⟨fun hms => ?_,fun old hms msg hmsg => ?_⟩
  · have hwithout : Without peer c (c.process (app x) amb (.deleteContact peer)) := by
      refine ⟨hforgets,update_keyed (keyed_run hrun),fun p hp hfiled => ?_⟩
      obtain hp | ⟨hp,-⟩ := Core.mem_process_pending hp
      · exact hp
      · simp [deleteContact_files x amb hp] at hfiled
    have hend : Without peer c d := by
      refine Lts.run_invariant_along (step x) (I := Without peer c) (fun c₁ l c₂ hc hl hs => ?_)
        hwithout hms hd
      obtain ⟨⟨e,c₂⟩,ht,rfl⟩ := Option.map_eq_some_iff.mp hs
      obtain ⟨hcarries,hrevives⟩ := hl e (by simp [Core.event?, ht])
      have ht := Core.takes_of_take ht
      have hc₂ : Without peer c c₂ := ⟨ht.model_eq ▸ hc.forgets,ht.model_eq ▸ hc.keyed,
        fun p hp hfiled => hc.pending p (ht.mem_pending hp) hfiled⟩
      exact hc₂.process hcarries (ht.model_eq ▸ hrevives)
    exact ⟨hend.forgets,hend.pending⟩
  · have hlacks : d.model.Lacks peer old := by
      refine Core.model_invariant (A := app x) (I := fun m => m.Lacks peer old)
        (fun amb e m hm he => update_lacks hm he) (fun i hi => ?_) hms hd
      change i ∈ ((deleteContact peer c.model).1.convo peer).map StoredMessage.id at hi
      simp [Model.convo, hforgets.convo] at hi
    exact hlacks _ (List.mem_map_of_mem hmsg)

end

/-- A launch that has read one contact, whose conversation is still being read. -/
def sampleLaunch : List Label :=
  sampleLabels [.shell (.identityLoaded sampleSecret),
    .answer 2 (.kv (.ok (some (.contacts [Contact.new (samplePeer 7) "" 0]))))]

/-- The peer's chat is opened and a text to it typed. -/
def sampleWriting : List Label :=
  sampleLabels [.shell (.openChat (samplePeer 7)),.shell (.composeChanged "yo")]

def sampleHistory : List StoredMessage := [⟨"a","hi",1,false,false⟩]

theorem deleted_stays_forgotten_writing : ∃ c c' d d',
    runFromBoot .sample (sampleReading sampleHistory) = some c ∧
    c.model.convo (samplePeer 7) = sampleHistory ∧
    step .sample c (.sample,.shell (.deleteContact (samplePeer 7))) = some c' ∧
    Lts.run (step .sample) c' sampleWriting = some d ∧
    (d.model.Forgets (samplePeer 7) ∧
      ∀ p ∈ d.pending, (p.2.filed (samplePeer 7)).isSome → p ∈ c.pending) ∧
    step .sample d (.sample,.shell .sendText) = some d' ∧
    d'.model.convo (samplePeer 7) = [⟨"id","yo",1000,true,false⟩] ∧
    ∀ msg ∈ d'.model.convo (samplePeer 7), msg.id ∉ ({"a"} : Finset String) := by
  have h : (runFromBoot .sample (sampleReading sampleHistory)).any (fun c =>
      c.model.convo (samplePeer 7) = sampleHistory &&
      (step .sample c (.sample,.shell (.deleteContact (samplePeer 7)))).any fun c' =>
        decide (Core.Meets (app .sample) (fun _ e m => e.carries (samplePeer 7) = false ∧
          e.revives .sample m (samplePeer 7) = false) c' sampleWriting) &&
        decide (Core.Meets (app .sample) (fun amb e m =>
          e.bringsBack .sample amb m (samplePeer 7) {"a"} = false) c'
          (sampleWriting ++ [(.sample,.shell .sendText)])) &&
        (Lts.run (step .sample) c' sampleWriting).any fun d =>
          (step .sample d (.sample,.shell .sendText)).any fun d' =>
            d'.model.convo (samplePeer 7) = [⟨"id","yo",1000,true,false⟩]) = true := by
    decide +kernel
  simp only [Option.any_eq_true, Bool.and_eq_true, decide_eq_true_eq] at h
  obtain ⟨c,hrun,hconvo,c',hdel,⟨hquiet,hnew⟩,d,hd,d',hd',hsent⟩ := h
  refine ⟨c,c',d,d',hrun,hconvo,hdel,hd,?_,hd',hsent,?_⟩
  · exact (deleted_stays_forgotten hrun hdel hd).1 hquiet
  · have hrun' := Lts.run_append_eq_some _ hd (Lts.run_single _ hd')
    exact (deleted_stays_forgotten hrun hdel hrun').2 {"a"} hnew

/-- The read of the conversation is answered after the contact was deleted: the conversation is
back, and the next text writes its old messages down again. -/
theorem deleted_history_returns : ∃ c c' d d',
    runFromBoot .sample sampleLaunch = some c ∧
    step .sample c (.sample,.shell (.deleteContact (samplePeer 7))) = some c' ∧
    Core.Meets (app .sample) (fun _ e m => e.revives .sample m (samplePeer 7) = false) c'
      (sampleLabels [.answer 6 (.kv (.ok (some (.messages sampleHistory))))]) ∧
    Lts.run (step .sample) c'
      (sampleLabels [.answer 6 (.kv (.ok (some (.messages sampleHistory))))]) = some d ∧
    d.model.contacts[samplePeer 7]? = none ∧
    d.model.messages[samplePeer 7]? = some sampleHistory ∧
    Lts.run (step .sample) d (sampleWriting ++ [(.sample,.shell .sendText)]) = some d' ∧
    ∃ p ∈ d'.pending, (p.2.filed (samplePeer 7)).bind KvValue.messages? =
      some (sampleHistory ++ [⟨"id","yo",1000,true,false⟩]) := by
  have h : (runFromBoot .sample sampleLaunch).any (fun c =>
      (step .sample c (.sample,.shell (.deleteContact (samplePeer 7)))).any fun c' =>
        decide (Core.Meets (app .sample) (fun _ e m => e.revives .sample m (samplePeer 7) = false) c'
          (sampleLabels [.answer 6 (.kv (.ok (some (.messages sampleHistory))))])) &&
        (Lts.run (step .sample) c'
          (sampleLabels [.answer 6 (.kv (.ok (some (.messages sampleHistory))))])).any fun d =>
            d.model.contacts[samplePeer 7]? = none &&
            d.model.messages[samplePeer 7]? = some sampleHistory &&
            (Lts.run (step .sample) d (sampleWriting ++ [(.sample,.shell .sendText)])).any fun d' =>
              d'.pending.any fun p => (p.2.filed (samplePeer 7)).bind KvValue.messages? =
                some (sampleHistory ++ [⟨"id","yo",1000,true,false⟩])) = true := by
    decide
  simp only [Option.any_eq_true, Bool.and_eq_true, List.any_eq_true, decide_eq_true_eq] at h
  obtain ⟨c,hrun,c',hdel,hquiet,d,hd,⟨hcontact,hconvo⟩,d',hd',p,hp,hfiled⟩ := h
  exact ⟨c,c',d,d',hrun,hdel,hquiet,hd,hcontact,hconvo,hd',p,hp,hfiled⟩

end Skrepka.Client
