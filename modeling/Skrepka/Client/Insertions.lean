import Skrepka.Client.Stamps
import Skrepka.Client.Stored

/-! The texts that a page adds to a conversation, one after the other, and the acks that it queues for
them. -/
namespace Skrepka.Client
open Rust Mvu

/-- The text that a payload adds to the conversation with a peer: one of its own, unless it is ourselves
or blocked, or a stranger for whom there is no room, or the id was seen before. -/
def Model.adds (now : ℤ) (m : Model) (peer : String) (p : String × ParsedPayload) : Option StoredMessage :=
  match p.2.payload with
  | .text id body =>
    if p.1 = peer ∧ peer ≠ m.myPubkey ∧ m.isBlocked peer = false ∧
        (m.contacts.contains peer = true ∨ m.contacts.size < maxContacts) ∧ id ∉ m.dedupSet peer then
      some ⟨id,body,Ingest.clampTs now p.2.ts,false,false⟩
    else none
  | _ => none

namespace Ingest
variable {x : Crates} {hash : HashOrder} {now : ℤ} {peer : String}

theorem payload_adds (x : Crates) (hash : HashOrder) (now : ℤ) (peer : String)
    (p : String × ParsedPayload) (s : Ingest) :
    (∃ msg, s.model.adds now peer p = some msg ∧ Filed hash peer msg s (s.payload x hash now p.1 p.2)) ∨
      (s.model.adds now peer p = none ∧ Unfiled peer s (s.payload x hash now p.1 p.2)) := by
  obtain ⟨sender,ts,pl⟩ := p
  cases pl with
  | deliveryAck ackIds =>
    obtain ⟨_,_,-,h,-⟩ | hun := payload_texts x hash now (sender,⟨ts,.deliveryAck ackIds⟩) s peer
    · simp at h
    · exact .inr ⟨rfl,hun⟩
  | profile displayName bio photo =>
    obtain ⟨_,_,-,h,-⟩ | hun :=
      payload_texts x hash now (sender,⟨ts,.profile displayName bio photo⟩) s peer
    · simp at h
    · exact .inr ⟨rfl,hun⟩
  | text id body =>
    by_cases hgates : sender = peer ∧ peer ≠ s.model.myPubkey ∧ s.model.isBlocked peer = false ∧
        (s.model.contacts.contains peer = true ∨ s.model.contacts.size < maxContacts)
    · obtain ⟨rfl,hme,hblocked,hroom⟩ := hgates
      -- The text is held against the dedup set, after its sender was made a contact if need be.
      obtain ⟨s₁,hsame,hstore⟩ : ∃ s₁ : Ingest, Unfiled sender s s₁ ∧
          s.payload x hash now sender ⟨ts,.text id body⟩ =
            s₁.storeText hash sender (clampTs now ts) id body := by
        by_cases hknown : s.model.contacts.contains sender = true
        · exact ⟨s,.of_eq rfl rfl rfl,by simp [payload, hme, hblocked, text, hknown]⟩
        · have hsize : ¬ s.model.contacts.size ≥ maxContacts := by
            have := hroom.resolve_left hknown
            omega
          refine ⟨s.addStranger x sender (clampTs now ts),.of_eq rfl rfl rfl,?_⟩
          simp only [payload, hme, hblocked, text, hknown, hsize, if_false, Bool.false_eq_true]
      change (∃ msg, _ ∧ Filed hash sender msg s (s.payload x hash now sender ⟨ts,.text id body⟩)) ∨
        (_ ∧ Unfiled sender s (s.payload x hash now sender ⟨ts,.text id body⟩))
      rw [hstore]
      by_cases hseen : id ∈ s.model.dedupSet sender
      · right
        obtain ⟨-,hfiled⟩ | ⟨hun,-⟩ := storeText_texts hash sender (clampTs now ts) id body s₁ sender
        · rw [← hsame.dedupSet] at hseen
          exact absurd hseen hfiled.fresh
        · refine ⟨?_,hun.convo.trans hsame.convo,hun.dedupSet.trans hsame.dedupSet,
            hsame.seen.trans hun.seen,hun.acks.trans hsame.acks⟩
          simp [Model.adds, hseen]
      · left
        obtain ⟨-,hfiled⟩ | ⟨-,hold⟩ := storeText_texts hash sender (clampTs now ts) id body s₁ sender
        · refine ⟨⟨id,body,clampTs now ts,false,false⟩,?_,hsame.dedupSet ▸ hfiled.fresh,
            hsame.convo ▸ hfiled.convo,by rw [hfiled.seen, hsame.convo, hsame.dedupSet],
            hsame.acks ▸ hfiled.acks⟩
          simp only [Model.adds]
          exact if_pos ⟨trivial,hme,hblocked,hroom,hseen⟩
        · rw [hsame.dedupSet] at hold
          exact absurd (hold rfl) hseen
    · right
      refine ⟨?_,?_⟩
      · simp only [Model.adds]
        exact if_neg fun h => hgates ⟨h.1,h.2.1,h.2.2.1,h.2.2.2.1⟩
      · obtain ⟨_,_,rfl,-,hme,hblocked,hfiled⟩ | hun :=
          payload_texts x hash now (sender,⟨ts,.text id body⟩) s peer
        · -- Such a stranger is turned away.
          have hroom : ¬ s.model.contacts.contains sender = true ∧ s.model.contacts.size ≥ maxContacts := by
            constructor
            · exact fun hknown => hgates ⟨rfl,hme,hblocked,.inl hknown⟩
            · by_contra hsize
              exact hgates ⟨rfl,hme,hblocked,.inr (by omega)⟩
          have hkept : s.payload x hash now sender ⟨ts,.text id body⟩ = s := by
            simp only [payload, hme, hblocked, text, hroom, if_false, if_true, Bool.false_eq_true]
          have hacks := hfiled.acks
          rw [hkept] at hacks
          have := congrArg List.length hacks
          simp at this
        · exact hun

/-- The texts that payloads add to the conversation with a peer, in their order. -/
def additions (x : Crates) (hash : HashOrder) (now : ℤ) (peer : String) :
    List (String × ParsedPayload) → Ingest → List StoredMessage
  | [], _ => []
  | p :: ps, s => (s.model.adds now peer p).toList ++
      additions x hash now peer ps (s.payload x hash now p.1 p.2)

theorem deliver_additions (ps : List (String × ParsedPayload)) (s : Ingest) :
    (deliver x hash now ps s).model.convo peer =
        (additions x hash now peer ps s).foldl (fun convo msg => trimHistory (insertSorted convo msg))
          (s.model.convo peer) ∧
      (deliver x hash now ps s).acks peer =
        s.acks peer ++ (additions x hash now peer ps s).map StoredMessage.id := by
  induction ps generalizing s with
  | nil => exact ⟨rfl,(List.append_nil _).symm⟩
  | cons p ps ih =>
    obtain ⟨hconvo,hacks⟩ := ih (s.payload x hash now p.1 p.2)
    change (deliver x hash now ps (s.payload x hash now p.1 p.2)).model.convo peer = _ ∧
      (deliver x hash now ps (s.payload x hash now p.1 p.2)).acks peer = _
    rw [hconvo, hacks, additions]
    obtain ⟨msg,hadds,hfiled⟩ | ⟨hadds,hun⟩ := payload_adds x hash now peer p s
    · rw [hadds, hfiled.convo, hfiled.acks, Option.toList_some, List.singleton_append, List.foldl_cons,
        List.map_cons, List.append_assoc, List.singleton_append]
      constructor <;> rfl
    · rw [hadds, hun.convo, hun.acks, Option.toList_none, List.nil_append]
      constructor <;> rfl

/-- Texts are added for contacts only, who are neither ourselves nor blocked. -/
theorem additions_contact (ps : List (String × ParsedPayload)) (s : Ingest)
    (h : additions x hash now peer ps s ≠ []) : peer ≠ s.model.myPubkey ∧
      s.model.isBlocked peer = false ∧ (deliver x hash now ps s).model.contacts.contains peer = true := by
  have hkept : ∀ (ps : List (String × ParsedPayload)) (s : Ingest),
      s.model.contacts.contains peer = true →
      (deliver x hash now ps s).model.contacts.contains peer = true := by
    intro ps
    induction ps with
    | nil => exact fun _ h => h
    | cons p ps ih => exact fun s h => ih _ (payload_contains p s (.inl h))
  induction ps generalizing s with
  | nil => exact absurd rfl h
  | cons p ps ih =>
    have hspares := payload_spares x hash now p.1 p.2 s
    cases hadds : s.model.adds now peer p with
    | none =>
      rw [additions, hadds] at h
      obtain ⟨hme,hblocked,hcontact⟩ := ih (s.payload x hash now p.1 p.2) h
      exact ⟨hspares.me ▸ hme,hspares.blocked peer ▸ hblocked,hcontact⟩
    | some msg =>
      obtain ⟨sender,ts,pl⟩ := p
      cases pl with
      | deliveryAck ackIds => simp [Model.adds] at hadds
      | profile displayName bio photo => simp [Model.adds] at hadds
      | text id body =>
        simp only [Model.adds, Option.ite_none_right_eq_some] at hadds
        obtain ⟨⟨rfl,hme,hblocked,hroom,-⟩,-⟩ := hadds
        refine ⟨hme,hblocked,hkept ps _ (payload_contains _ s ?_)⟩
        by_cases hknown : s.model.contacts.contains sender = true
        · exact .inl hknown
        · right
          simp [greets, hme, hblocked, Payload.isText, hknown, hroom.resolve_left hknown]

theorem applyAcks_contains (now : ℤ) (s : Ingest) (peer : String) :
    (s.applyAcks now).model.contacts.contains peer = s.model.contacts.contains peer := by
  have hview : (s.applyAcks now).model.contacts[peer]? = ((s.pendingAcks[peer]?).elim
      (s.model.correspondence peer)
      (fun pending => settleAcks now pending (s.model.correspondence peer))).1 :=
    congrArg Prod.fst applyAcks_correspondence
  rw [Std.TreeMap.contains_eq_isSome_getElem?, Std.TreeMap.contains_eq_isSome_getElem?, hview]
  cases s.pendingAcks[peer]? with
  | none => rfl
  | some pending =>
    simp only [Option.elim_some, settleAcks]
    split
    · rfl
    · exact Option.isSome_map

/-- The acks for one peer. -/
theorem ackTargets_filter (s : Ingest) (ackTs : ℤ) (peer : String) :
    (s.ackTargets.toList.flatMap (ackItems x ackTs)).filter (fun i => i.recipient = peer) =
      ((s.acks peer).toChunks Protocol.maxAckIds).map fun ids =>
        .new peer (Protocol.serializePayload x (.deliveryAck ids) ackTs) := by
  have howner : ∀ p, ∀ i ∈ ackItems x ackTs p, i.recipient = p.1 := by
    intro p i hi
    obtain ⟨ids,-,rfl⟩ := List.mem_map.mp hi
    rfl
  rw [Maps.filter_flatMap_toList howner, acks]
  cases s.ackTargets[peer]? with
  | none => rfl
  | some ids => rfl

end Ingest

/-- The texts that a page adds to the conversation with a peer, in their order. -/
def Model.pageAdditions (x : Crates) (amb : Ambient) (page : PollResp) (m : Model) (peer : String) :
    List StoredMessage :=
  if m.kvLoadFailed then []
  else match m.identity x with
    | none => []
    | some id => Ingest.additions x amb.hash (amb.now 1) peer (page.opened x id) { model := m }

theorem Model.pageAdditions_idle {x : Crates} {m : Model} (amb : Ambient) (page : PollResp) (peer : String)
    (h : m.kvLoadFailed = true ∨ m.identity x = none) : m.pageAdditions x amb page peer = [] := by
  unfold pageAdditions
  obtain hk | hid := h
  · rw [if_pos hk]
  · split
    · rfl
    · rw [hid]

theorem Model.pageAdditions_eq {x : Crates} {id : Crypto.Identity} {m : Model} (amb : Ambient)
    (page : PollResp) (peer : String) (hk : m.kvLoadFailed = false) (hid : m.identity x = some id) :
    m.pageAdditions x amb page peer =
      Ingest.additions x amb.hash (amb.now 1) peer (page.opened x id) { model := m } := by
  simp only [pageAdditions, hk, hid, Bool.false_eq_true, if_false]

/-- The acks that a page queues behind the profiles for new contacts carry, over all those for one peer,
just the ids of the texts that it added to the conversation with that peer, in their order; none of them is
empty or too long, and none is for ourselves, for a blocked contact or for who is no contact even then. -/
theorem ingestPoll_acks (x : Crates) (amb : Ambient) (page : PollResp) (m : Model) :
    ∃ greetings acks, (ingestPoll x amb page m).1.outbox = m.outbox ++ greetings ++ acks ∧
      (∀ i ∈ greetings, i.isProfile = true) ∧
      ∀ peer, ∃ batches : List (List String),
        acks.filter (fun i => i.recipient = peer) = batches.map (fun ids =>
          .new peer (Protocol.serializePayload x (.deliveryAck ids) (amb.now 2))) ∧
        batches.flatten = (m.pageAdditions x amb page peer).map StoredMessage.id ∧
        (∀ ids ∈ batches, ids ≠ [] ∧ ids.length ≤ Protocol.maxAckIds) ∧
        (batches ≠ [] → peer ≠ m.myPubkey ∧ m.isBlocked peer = false ∧
          (ingestPoll x amb page m).1.contacts.contains peer = true) ∧
        ((ingestPoll x amb page m).1.convo peer).map (fun msg => (msg.id,msg.body,msg.ts,msg.outgoing)) =
          ((m.pageAdditions x amb page peer).foldl
            (fun convo msg => trimHistory (insertSorted convo msg)) (m.convo peer)).map
            fun msg => (msg.id,msg.body,msg.ts,msg.outgoing) := by
  by_cases hidle : m.kvLoadFailed = true ∨ m.identity x = none
  · obtain ⟨c,hc⟩ := ingestPoll_idle amb page hidle
    have hnone : ∀ peer, m.pageAdditions x amb page peer = [] :=
      fun peer => Model.pageAdditions_idle amb page peer hidle
    refine ⟨[],[],?_,by simp,fun peer => ⟨[],rfl,?_,by simp,fun h => absurd rfl h,?_⟩⟩
    · rw [hc, List.append_nil, List.append_nil]
    · rw [hnone]
      rfl
    · rw [hc, hnone]
      rfl
  · obtain ⟨hk,hid⟩ := not_or.mp hidle
    obtain ⟨id,hid⟩ := Option.ne_none_iff_exists'.mp hid
    have hk : m.kvLoadFailed = false := by simpa using hk
    obtain ⟨c,e,hm⟩ := ingestPoll_delivered amb page hk hid
    let s := Ingest.deliver x amb.hash (amb.now 1) (page.opened x id) { model := m }
    have hadditions : ∀ peer, m.pageAdditions x amb page peer =
        Ingest.additions x amb.hash (amb.now 1) peer (page.opened x id) { model := m } :=
      fun peer => Model.pageAdditions_eq amb page peer hk hid
    have hout : (ingestPoll x amb page m).1.outbox =
        s.model.outbox ++ s.ackTargets.toList.flatMap (Ingest.ackItems x (amb.now 2)) := by
      rw [hm, ← Ingest.applyAcks_outbox (amb.now 1) s, ← (Ingest.applyAcks_keeps (amb.now 1) s).2]
      rfl
    refine ⟨(Ingest.strangers x amb.hash (amb.now 1) (page.opened x id) { model := m }).map
        (fun p => (Ingest.greeting (amb.now 1) m.profile p).item x),
      s.ackTargets.toList.flatMap (Ingest.ackItems x (amb.now 2)),?_,?_,fun peer => ?_⟩
    · rw [hout, (Ingest.deliver_outbox _ _).1]
    · intro i hi
      obtain ⟨p,-,rfl⟩ := List.mem_map.mp hi
      rfl
    obtain ⟨hconvo,hacks⟩ := @Ingest.deliver_additions x amb.hash (amb.now 1) peer (page.opened x id)
      { model := m }
    have hids : s.acks peer = (m.pageAdditions x amb page peer).map StoredMessage.id := by
      rw [hadditions]
      exact hacks
    refine ⟨(s.acks peer).toChunks Protocol.maxAckIds,Ingest.ackTargets_filter s _ peer,?_,
      Chunks.bounds_toChunks (by decide) _,?_,?_⟩
    · rw [Chunks.flatten_toChunks, hids]
    · intro hne
      have hadded : m.pageAdditions x amb page peer ≠ [] := by
        intro hnil
        rw [hids, hnil] at hne
        exact hne rfl
      rw [hadditions] at hadded
      obtain ⟨hme,hblocked,hcontact⟩ := Ingest.additions_contact _ _ hadded
      refine ⟨hme,hblocked,?_⟩
      rw [hm]
      exact (Ingest.applyAcks_contains (amb.now 1) s peer).trans hcontact
    · rw [hadditions, hm]
      refine (Ingest.applyAcks_map ?_ (amb.now 1) s peer).trans ?_
      · exact fun _ => rfl
      · exact congrArg (List.map _) hconvo

end Skrepka.Client
