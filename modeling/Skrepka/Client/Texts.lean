import Skrepka.Client.Deliveries

/-! What the texts of a page do to one conversation, to its dedup set and to the acks. -/
namespace Skrepka.Client
open Rust Mvu

theorem insertSorted_perm (convo : List StoredMessage) (msg : StoredMessage) :
    (insertSorted convo msg).Perm (msg :: convo) :=
  List.perm_insertIdx msg convo List.findIdx_le_length

theorem trimHistory_sublist (convo : List StoredMessage) : (trimHistory convo).Sublist convo :=
  List.drop_sublist _ _

theorem mem_messageIds {convo : List StoredMessage} {id : String} :
    id ∈ messageIds convo ↔ id ∈ convo.map StoredMessage.id := by simp [messageIds]

theorem messageIds_insertSorted (convo : List StoredMessage) (msg : StoredMessage) :
    messageIds (insertSorted convo msg) = insert msg.id (messageIds convo) := by
  ext id
  rw [mem_messageIds, ((insertSorted_perm convo msg).map _).mem_iff]
  simp [messageIds]

/-- A conversation, empty if there is none. -/
def Model.convo (m : Model) (peer : String) : List StoredMessage := m.messages[peer]?.getD []

/-- The dedup set that is kept for a peer, empty if there is none. -/
def Model.seen (m : Model) (peer : String) : Finset String := m.seenIds[peer]?.getD ∅

/-- The dedup set that a text from a peer is held against. -/
def Model.dedupSet (m : Model) (peer : String) : Finset String :=
  if m.seen peer = ∅ then messageIds (m.convo peer) else m.seen peer

theorem Model.dedupSet_eq_seen {m : Model} {peer : String} (h : (m.seen peer).Nonempty) :
    m.dedupSet peer = m.seen peer := if_neg h.ne_empty

/-- The ids of the texts that come from a peer. -/
def textIds (peer : String) (ps : List (String × ParsedPayload)) : List String :=
  ps.filterMap fun p => match p.2.payload with
    | .text id _ => if p.1 = peer then some id else none
    | _ => none

namespace Ingest

/-- The ids to acknowledge to a peer, which are those of the texts filed so far. -/
def acks (s : Ingest) (peer : String) : List String := s.ackTargets[peer]?.getD []

theorem idSet_eq (s : Ingest) (peer : String) : s.idSet peer = s.model.dedupSet peer := rfl

theorem mem_capIds {hash : HashOrder} {convo : List StoredMessage} {ids : Finset String}
    {id : String} (hid : id ∈ ids) (hconvo : id ∈ messageIds convo) :
    id ∈ capIds hash convo ids := by
  unfold capIds
  split
  · refine Finset.mem_sdiff.mpr ⟨hid,fun hmem => ?_⟩
    have hout := (List.mem_filter.mp (List.mem_of_mem_take (List.mem_toFinset.mp hmem))).2
    exact absurd hconvo (by simpa using hout)
  · exact hid

theorem capIds_of_card_le {hash : HashOrder} {convo : List StoredMessage} {ids : Finset String}
    (h : ids.card ≤ maxSeenIdsPerPeer) : capIds hash convo ids = ids := if_neg (by omega)

/-- A text was filed: its id was new, and it goes into the conversation, the dedup set and the
acks. -/
structure Filed (hash : HashOrder) (peer : String) (msg : StoredMessage) (s s' : Ingest) :
    Prop where
  fresh : msg.id ∉ s.model.dedupSet peer
  convo : s'.model.convo peer = trimHistory (insertSorted (s.model.convo peer) msg)
  seen : s'.model.seen peer = capIds hash (insertSorted (s.model.convo peer) msg)
    (insert msg.id (s.model.dedupSet peer))
  acks : s'.acks peer = s.acks peer ++ [msg.id]

/-- No text of a peer was filed. -/
structure Unfiled (peer : String) (s s' : Ingest) : Prop where
  convo : s'.model.convo peer = s.model.convo peer
  dedupSet : s'.model.dedupSet peer = s.model.dedupSet peer
  seen : s.model.seen peer ⊆ s'.model.seen peer
  acks : s'.acks peer = s.acks peer

theorem Unfiled.of_eq {peer : String} {s s' : Ingest}
    (hm : s'.model.messages[peer]? = s.model.messages[peer]?)
    (hs : s'.model.seenIds[peer]? = s.model.seenIds[peer]?)
    (ha : s'.ackTargets[peer]? = s.ackTargets[peer]?) : Unfiled peer s s' := by
  have hconvo : s'.model.convo peer = s.model.convo peer := congrArg (Option.getD · []) hm
  have hseen : s'.model.seen peer = s.model.seen peer := congrArg (Option.getD · ∅) hs
  refine ⟨hconvo,?_,hseen.ge,congrArg (Option.getD · []) ha⟩
  rw [Model.dedupSet, hconvo, hseen]
  rfl

theorem subset_dedupSet (m : Model) (peer : String) : m.seen peer ⊆ m.dedupSet peer := by
  unfold Model.dedupSet
  split
  · rename_i h
    simp [h]
  · exact subset_rfl

theorem Filed.mem_seen {hash : HashOrder} {peer : String} {msg : StoredMessage} {s s' : Ingest}
    (h : Filed hash peer msg s s') : msg.id ∈ s'.model.seen peer := by
  rw [h.seen]
  refine mem_capIds (Finset.mem_insert_self _ _) ?_
  rw [messageIds_insertSorted]
  exact Finset.mem_insert_self _ _

/-- A filed text is in the dedup set from then on. -/
theorem Filed.dedupSet {hash : HashOrder} {peer : String} {msg : StoredMessage} {s s' : Ingest}
    (h : Filed hash peer msg s s') : s'.model.dedupSet peer = s'.model.seen peer :=
  Model.dedupSet_eq_seen ⟨msg.id,h.mem_seen⟩

theorem storeText_texts (hash : HashOrder) (sender : String) (ts : ℤ) (msgId body : String)
    (s : Ingest) (peer : String) :
    (sender = peer ∧ Filed hash peer ⟨msgId,body,ts,false,false⟩ s
      (s.storeText hash sender ts msgId body)) ∨
    (Unfiled peer s (s.storeText hash sender ts msgId body) ∧
      (sender = peer → msgId ∈ s.model.dedupSet peer)) := by
  by_cases hpeer : sender = peer
  · subst hpeer
    by_cases hid : msgId ∈ s.idSet sender
    · refine .inr ⟨?_,fun _ => hid⟩
      have hne : s.idSet sender ≠ ∅ := fun h => by simp [h] at hid
      have hstore : s.storeText hash sender ts msgId body = { s with model := { s.model with
          messages := s.model.messages.insert sender (s.model.messages[sender]?.getD [])
          seenIds := s.model.seenIds.insert sender (s.idSet sender) } } := if_pos hid
      rw [hstore]
      have hseen : ({ s.model with
          messages := s.model.messages.insert sender (s.model.messages[sender]?.getD [])
          seenIds := s.model.seenIds.insert sender (s.idSet sender) } : Model).seen sender =
            s.idSet sender := by simp [Model.seen]
      refine ⟨by simp [Model.convo],?_,?_,rfl⟩
      · rw [Model.dedupSet, hseen, if_neg hne, idSet_eq]
      · rw [hseen]
        exact subset_dedupSet s.model sender
    · have hstore : s.storeText hash sender ts msgId body = { s with
          model := { s.model with
            messages := s.model.messages.insert sender
              (trimHistory (insertSorted (s.model.convo sender) ⟨msgId,body,ts,false,false⟩))
            seenIds := s.model.seenIds.insert sender
              (capIds hash (insertSorted (s.model.convo sender) ⟨msgId,body,ts,false,false⟩)
                (insert msgId (s.idSet sender))) }
          touchedConvos := insert sender s.touchedConvos
          ackTargets := s.ackTargets.insert sender (s.acks sender ++ [msgId]) } := if_neg hid
      rw [hstore]
      exact .inl ⟨rfl,hid,by simp [Model.convo],by simp [Model.seen, idSet_eq],
        by simp [acks]⟩
  · refine .inr ⟨?_,fun h => absurd h hpeer⟩
    unfold storeText
    simp only
    split
    · exact .of_eq (by simp [Maps.getElem?_insert, hpeer]) (by simp [Maps.getElem?_insert, hpeer]) rfl
    · exact .of_eq (by simp [Maps.getElem?_insert, hpeer]) (by simp [Maps.getElem?_insert, hpeer])
        (by simp [Maps.getElem?_insert, hpeer])

/-- What one payload does with the texts of a peer. -/
theorem payload_texts (x : Crates) (hash : HashOrder) (now : ℤ) (p : String × ParsedPayload)
    (s : Ingest) (peer : String) :
    (∃ id body, p.1 = peer ∧ p.2.payload = .text id body ∧ peer ≠ s.model.myPubkey ∧
      s.model.isBlocked peer = false ∧
      Filed hash peer ⟨id,body,clampTs now p.2.ts,false,false⟩ s
        (s.payload x hash now p.1 p.2)) ∨
    Unfiled peer s (s.payload x hash now p.1 p.2) := by
  unfold payload
  split
  · exact .inr (.of_eq rfl rfl rfl)
  rename_i hme
  split
  · exact .inr (.of_eq rfl rfl rfl)
  rename_i hblocked
  obtain ⟨sender,ts,pl⟩ := p
  cases pl with
  | text id body =>
    simp only [text]
    have hstore : ∀ s₁ : Ingest, s₁.model.messages = s.model.messages →
        s₁.model.seenIds = s.model.seenIds → s₁.ackTargets = s.ackTargets →
        (∃ id' body', sender = peer ∧ Payload.text id body = .text id' body' ∧
          peer ≠ s.model.myPubkey ∧ s.model.isBlocked peer = false ∧
          Filed hash peer ⟨id',body',clampTs now ts,false,false⟩ s
            (s₁.storeText hash sender (clampTs now ts) id body)) ∨
        Unfiled peer s (s₁.storeText hash sender (clampTs now ts) id body) := by
      intro s₁ hm hs ha
      have hsame : Unfiled peer s s₁ := .of_eq (by rw [hm]) (by rw [hs]) (by rw [ha])
      obtain ⟨rfl,hfiled⟩ | ⟨hun,-⟩ :=
        storeText_texts hash sender (clampTs now ts) id body s₁ peer
      · refine .inl ⟨id,body,rfl,rfl,hme,by simpa using hblocked,?_,?_,?_,?_⟩
        · rw [← hsame.dedupSet]
          exact hfiled.fresh
        · rw [← hsame.convo]
          exact hfiled.convo
        · rw [hfiled.seen, hsame.convo, hsame.dedupSet]
        · rw [← hsame.acks]
          exact hfiled.acks
      · exact .inr ⟨hun.convo.trans hsame.convo,hun.dedupSet.trans hsame.dedupSet,
          hsame.seen.trans hun.seen,hun.acks.trans hsame.acks⟩
    split
    · exact hstore s rfl rfl rfl
    split
    · exact .inr (.of_eq rfl rfl rfl)
    · exact hstore _ rfl rfl rfl
  | deliveryAck ackIds => exact .inr (.of_eq rfl rfl rfl)
  | profile displayName bio photo =>
    refine .inr ?_
    simp only [profile]
    split
    · exact .of_eq rfl rfl rfl
    split
    · exact .of_eq rfl rfl rfl
    · exact .of_eq rfl rfl rfl

/-- A text from a contact is filed if its id is new. -/
theorem payload_filed (x : Crates) (hash : HashOrder) (now ts : ℤ) {peer id : String}
    (body : String) {s : Ingest} (hme : peer ≠ s.model.myPubkey) (hb : s.model.isBlocked peer = false)
    (hc : s.model.contacts.contains peer = true) (hid : id ∉ s.model.dedupSet peer) :
    Filed hash peer ⟨id,body,clampTs now ts,false,false⟩ s
      (s.payload x hash now peer ⟨ts,.text id body⟩) := by
  have hstore : s.payload x hash now peer ⟨ts,.text id body⟩ =
      s.storeText hash peer (clampTs now ts) id body := by
    simp [payload, hme, hb, text, hc]
  rw [hstore]
  obtain ⟨-,hfiled⟩ | ⟨-,hold⟩ := storeText_texts hash peer (clampTs now ts) id body s peer
  · exact hfiled
  · exact absurd (hold rfl) hid

/-- What every payload preserves, all of them together do. -/
theorem deliver_induction {x : Crates} {hash : HashOrder} {now : ℤ} {I : Ingest → Prop}
    {ps : List (String × ParsedPayload)} {s : Ingest}
    (hstep : ∀ p ∈ ps, ∀ s, I s → I (s.payload x hash now p.1 p.2)) (hs : I s) :
    I (deliver x hash now ps s) := by
  induction ps generalizing s with
  | nil => exact hs
  | cons p ps ih =>
    exact ih (fun q hq => hstep q (List.mem_cons_of_mem _ hq)) (hstep p List.mem_cons_self s hs)

/-- Nothing is filed for ourselves or a blocked contact. -/
theorem deliver_screened {x : Crates} {hash : HashOrder} {now : ℤ} {peer : String} {m : Model}
    (hpeer : peer = m.myPubkey ∨ m.isBlocked peer = true)
    (ps : List (String × ParsedPayload)) :
    (deliver x hash now ps { model := m }).model.convo peer = m.convo peer ∧
      m.seen peer ⊆ (deliver x hash now ps { model := m }).model.seen peer ∧
      (deliver x hash now ps { model := m }).acks peer = [] := by
  suffices h : Screens (deliver x hash now ps { model := m }) m ∧
      (deliver x hash now ps { model := m }).model.convo peer = m.convo peer ∧
      m.seen peer ⊆ (deliver x hash now ps { model := m }).model.seen peer ∧
      (deliver x hash now ps { model := m }).acks peer = [] from h.2
  refine deliver_induction (I := fun s => Screens s m ∧ s.model.convo peer = m.convo peer ∧
      m.seen peer ⊆ s.model.seen peer ∧ s.acks peer = [])
    (fun p _ s ⟨hs,hconvo,hseen,hacks⟩ => ⟨hs.spares (payload_spares x hash now p.1 p.2 s),?_⟩)
    ⟨⟨rfl,fun _ => rfl⟩,rfl,subset_rfl,by simp [acks]⟩
  obtain ⟨_,_,-,-,hme,hblocked,-⟩ | hun := payload_texts x hash now p s peer
  · rw [hs.1] at hme
    rw [hs.2] at hblocked
    obtain hpeer | hpeer := hpeer
    · exact absurd hpeer hme
    · simp [hpeer] at hblocked
  · exact ⟨hun.convo.trans hconvo,hseen.trans hun.seen,hun.acks.trans hacks⟩

theorem applyAck_keeps (now : ℤ) (pending : String × PendingAck) (s : Ingest) :
    (s.applyAck now pending).model.seenIds = s.model.seenIds ∧
      (s.applyAck now pending).ackTargets = s.ackTargets := by
  have hmark : ∀ s : Ingest, (s.markConvo pending.1 pending.2).model.seenIds = s.model.seenIds ∧
      (s.markConvo pending.1 pending.2).ackTargets = s.ackTargets := by
    intro s
    unfold markConvo
    split
    · exact ⟨rfl,rfl⟩
    split <;> exact ⟨rfl,rfl⟩
  unfold applyAck
  split
  · exact ⟨rfl,rfl⟩
  · rw [(hmark _).1, (hmark _).2]
    unfold ackWatermark
    simp only
    split <;> exact ⟨rfl,rfl⟩

theorem applyAcks_keeps (now : ℤ) (s : Ingest) :
    (s.applyAcks now).model.seenIds = s.model.seenIds ∧
      (s.applyAcks now).ackTargets = s.ackTargets := by
  unfold applyAcks
  generalize s.pendingAcks.toList = pending
  induction pending generalizing s with
  | nil => exact ⟨rfl,rfl⟩
  | cons a pending ih =>
    obtain ⟨hs,ha⟩ := ih (s.applyAck now a)
    obtain ⟨hs',ha'⟩ := applyAck_keeps now a s
    exact ⟨hs.trans hs',ha.trans ha'⟩

/-- Acks change nothing of a message but whether it is delivered. -/
theorem markDelivered_map {β : Type*} {f : StoredMessage → β}
    (hf : ∀ msg, f { msg with delivered := true } = f msg) (pending : PendingAck)
    (convo : List StoredMessage) : (markDelivered pending convo).map f = convo.map f := by
  rw [markDelivered, List.map_map]
  refine List.map_congr_left fun msg _ => ?_
  simp only [Function.comp_apply]
  split
  · exact hf msg
  · rfl

theorem applyAcks_map {β : Type*} {f : StoredMessage → β}
    (hf : ∀ msg, f { msg with delivered := true } = f msg) (now : ℤ) (s : Ingest) (peer : String) :
    ((s.applyAcks now).model.convo peer).map f = (s.model.convo peer).map f := by
  have hview : (s.applyAcks now).model.messages[peer]? = ((s.pendingAcks[peer]?).elim
      (s.model.correspondence peer)
      (fun pending => settleAcks now pending (s.model.correspondence peer))).2 :=
    congrArg Prod.snd applyAcks_correspondence
  rw [Model.convo, Model.convo, hview]
  cases s.pendingAcks[peer]? with
  | none => rfl
  | some pending =>
    simp only [Option.elim_some, settleAcks]
    split
    · rfl
    · change ((s.model.messages[peer]?.map (markDelivered pending)).getD []).map _ = _
      cases s.model.messages[peer]? with
      | none => rfl
      | some convo => exact markDelivered_map hf pending convo

end Ingest

/-- Apart from what is delivered, a page leaves a conversation as its payloads do. -/
theorem ingested_convo (x : Crates) (amb : Ambient) (page : PollResp) (id : Crypto.Identity)
    (m : Model) (peer : String) {β : Type*} {f : StoredMessage → β}
    (hf : ∀ msg, f { msg with delivered := true } = f msg) :
    ((ingested x amb page id m).model.convo peer).map f =
      ((Ingest.deliver x amb.hash (amb.now 1) (page.opened x id) { model := m }).model.convo peer).map f := by
  obtain ⟨_,_,_,_,_,hmatch⟩ := ingested_delivered x amb page id m
  have hacked := Ingest.applyAcks_map hf (amb.now 1)
    (Ingest.deliver x amb.hash (amb.now 1) (page.opened x id) { model := m }) peer
  change ((delivered x amb (page.opened x id) m).model.convo peer).map f = _ at hacked
  rw [hmatch, ← hacked]
  rfl

/-- What a page does with the texts of a peer is what its payloads do. -/
theorem ingested_texts (x : Crates) (amb : Ambient) (page : PollResp) (id : Crypto.Identity)
    (m : Model) (peer : String) :
    let s := Ingest.deliver x amb.hash (amb.now 1) (page.opened x id) { model := m }
    let s' := ingested x amb page id m
    (s'.model.convo peer).map StoredMessage.id = (s.model.convo peer).map StoredMessage.id ∧
      s'.model.seen peer = s.model.seen peer ∧ s'.acks peer = s.acks peer := by
  have hids := ingested_convo x amb page id m peer (f := StoredMessage.id) fun _ => rfl
  obtain ⟨_,_,_,_,_,hmatch⟩ := ingested_delivered x amb page id m
  refine ⟨hids,?_⟩
  simp only [hmatch]
  obtain ⟨hseen,hacks⟩ := Ingest.applyAcks_keeps (amb.now 1)
    (Ingest.deliver x amb.hash (amb.now 1) (page.opened x id) { model := m })
  exact ⟨congrArg (fun ids => ids[peer]?.getD ∅) hseen,
    congrArg (fun ids => ids[peer]?.getD []) hacks⟩

end Skrepka.Client
