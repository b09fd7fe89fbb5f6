import Skrepka.Client.Insertions
import Skrepka.Client.Ordered

/-! What a page can do at most, whatever the relay and the senders put on it. -/
namespace Skrepka.Client
open Rust Mvu

namespace Ingest
variable {x : Crates} {hash : HashOrder} {now : ℤ} {id : Crypto.Identity}

/-- The bytes that the loop over a page hands to `decrypt`. -/
def decrypted (x : Crates) (hash : HashOrder) (now : ℤ) (id : Crypto.Identity) :
    List String → Ingest → List Bytes
  | [], _ => []
  | blob :: evs, s =>
    if len blob > Crypto.maxBlobLen*2 then decrypted x hash now id evs s
    else if s.eventsProcessed ≥ maxPollEvents then []
    else
      let s := { s with eventsProcessed := s.eventsProcessed+1 }
      if s.budget < len blob/2 then []
      else
        (Hex.decode blob).toList ++ decrypted x hash now id evs
          ({ s with budget := s.budget-len blob/2 }.event x hash now id blob)

theorem decrypted_bounds (evs : List String) {s : Ingest} (hs : s.eventsProcessed ≤ maxPollEvents) :
    s.eventsProcessed+(decrypted x hash now id evs s).length ≤ maxPollEvents ∧
      (decrypted x hash now id evs s).flatten.length ≤ s.budget := by
  induction evs generalizing s with
  | nil => exact ⟨hs,Nat.zero_le _⟩
  | cons blob evs ih =>
    simp only [decrypted]
    split
    · exact ih hs
    split
    · exact ⟨hs,Nat.zero_le _⟩
    split
    · exact ⟨hs,Nat.zero_le _⟩
    · let s' : Ingest := { s with
        eventsProcessed := s.eventsProcessed+1, budget := s.budget-len blob/2 }
      obtain ⟨hprocessed,hbudget⟩ := event_keeps x hash now id blob s'
      have hroom : (s'.event x hash now id blob).eventsProcessed ≤ maxPollEvents := by
        rw [hprocessed]
        change s.eventsProcessed+1 ≤ maxPollEvents
        omega
      obtain ⟨hcount,hbytes⟩ := ih hroom
      rw [hprocessed] at hcount
      rw [hbudget] at hbytes
      change s.eventsProcessed+1+_ ≤ _ at hcount
      change _ ≤ s.budget-len blob/2 at hbytes
      change s.eventsProcessed+((Hex.decode blob).toList ++
          decrypted x hash now id evs (s'.event x hash now id blob)).length ≤ _ ∧
        ((Hex.decode blob).toList ++
          decrypted x hash now id evs (s'.event x hash now id blob)).flatten.length ≤ _
      cases hblob : Hex.decode blob with
      | none =>
        rw [Option.toList_none, List.nil_append]
        exact ⟨by omega,by omega⟩
      | some bytes =>
        have hlen := Hex.len_of_decode hblob
        rw [Option.toList_some, List.singleton_append, List.flatten_cons, List.length_cons,
          List.length_append]
        exact ⟨by omega,by omega⟩

/-- The loop over a page runs into its limit on events or on bytes. -/
def cut : ℕ → ℕ → List String → Bool
  | _, _, [] => false
  | processed, budget, blob :: evs =>
    if len blob > Crypto.maxBlobLen*2 then cut processed budget evs
    else if processed ≥ maxPollEvents then true
    else if budget < len blob/2 then true
    else cut (processed+1) (budget-len blob/2) evs

theorem event_books (blob : String) (s : Ingest) :
    (s.event x hash now id blob).model.cursor = s.model.cursor ∧
      (s.event x hash now id blob).eventsStored =
        s.eventsStored+(openBlob x id blob).toList.length := by
  unfold event
  cases openBlob x id blob with
  | none => exact ⟨rfl,rfl⟩
  | some p =>
    have h := payload_bookless x hash now p.1 p.2 s.model.cursor s.model.error s.budget
      s.eventsProcessed (s.eventsStored+1) s
    change { s with eventsStored := s.eventsStored+1 }.payload x hash now p.1 p.2 = _ at h
    exact ⟨congrArg (fun s => s.model.cursor) h,congrArg Ingest.eventsStored h⟩

/-- The loop puts the cursor back if it is cut short before anything was stored. -/
theorem events_cursor_eq (prevCursor : ℤ) (evs : List String) (s : Ingest) :
    (events x hash now prevCursor id evs s).model.cursor =
      if cut s.eventsProcessed s.budget evs = true ∧ s.eventsStored = 0 ∧
          (taken s.eventsProcessed s.budget evs).filterMap (openBlob x id) = [] then prevCursor
      else s.model.cursor := by
  induction evs generalizing s with
  | nil => simp [events, cut]
  | cons blob evs ih =>
    simp only [events, cut, taken]
    split
    · exact ih s
    split
    · simp [stop]
    split
    · simp [stop]
    · let s' : Ingest := { s with
        eventsProcessed := s.eventsProcessed+1, budget := s.budget-len blob/2 }
      obtain ⟨hprocessed,hbudget⟩ := event_keeps x hash now id blob s'
      obtain ⟨hcursor,hstored⟩ := @event_books x hash now id blob s'
      have hrest := ih (s'.event x hash now id blob)
      rw [hprocessed, hbudget, hcursor, hstored] at hrest
      refine hrest.trans ?_
      cases ho : openBlob x id blob with
      | none => rw [List.filterMap_cons_none ho]; rfl
      | some p =>
        rw [if_neg (by simp), if_neg]
        simp [List.filterMap_cons_some ho]

theorem card_messageIds (convo : List StoredMessage) : (messageIds convo).card ≤ convo.length := by
  rw [← List.length_map (f := StoredMessage.id)]
  exact List.toFinset_card_le _

/-- The ids that a conversation does not hold are enough to bring a dedup set down to its cap. -/
theorem card_capIds (hash : HashOrder) {convo : List StoredMessage} (ids : Finset String)
    (hconvo : convo.length ≤ maxSeenIdsPerPeer) : (capIds hash convo ids).card ≤ maxSeenIdsPerPeer := by
  unfold capIds
  split
  · let evictable := (hash.iter ids).filter fun i => i ∉ messageIds convo
    have hnodup : evictable.Nodup := (hash.nodup ids).filter _
    have hmem : ∀ i, i ∈ evictable ↔ i ∈ ids \ messageIds convo := by
      intro i
      rw [Finset.mem_sdiff, List.mem_filter, hash.mem_iter]
      simp
    have hset : evictable.toFinset = ids \ messageIds convo := by
      ext i
      rw [List.mem_toFinset, hmem]
    have hlen : ids.card-convo.length ≤ evictable.length := by
      rw [← List.toFinset_card_of_nodup hnodup, hset]
      have := Finset.le_card_sdiff (messageIds convo) ids
      have := card_messageIds convo
      omega
    let toRemove := (evictable.take (ids.card-maxSeenIdsPerPeer)).toFinset
    have hsub : toRemove ⊆ ids := by
      intro i hi
      have hi := (hmem i).mp (List.mem_of_mem_take (List.mem_toFinset.mp hi))
      exact (Finset.mem_sdiff.mp hi).1
    have hremoved : toRemove.card = ids.card-maxSeenIdsPerPeer := by
      rw [List.toFinset_card_of_nodup (hnodup.sublist (List.take_sublist _ _)), List.length_take]
      omega
    change (ids \ toRemove).card ≤ maxSeenIdsPerPeer
    rw [Finset.card_sdiff_of_subset hsub, hremoved]
    omega
  · omega

/-- What texts added so far have done at most to a conversation and its dedup set. -/
structure Bounded (peer : String) (m : Model) (added : List StoredMessage) (s : Ingest) : Prop where
  convo : (s.model.convo peer).length ≤ maxMessagesPerPeer
  seen : (s.model.seen peer).card ≤ maxSeenIdsPerPeer ∨ added = [] ∧ s.model.seen peer = m.seen peer
  kept : ∀ msg ∈ added, msg.id ∈ messageIds (s.model.convo peer) → msg.id ∈ s.model.seen peer

theorem Bounded.payload {peer : String} {m : Model} {added : List StoredMessage} {s : Ingest}
    (h : Bounded peer m added s) (x : Crates) (hash : HashOrder) (now : ℤ)
    (p : String × ParsedPayload) :
    Bounded peer m (added ++ (s.model.adds now peer p).toList) (s.payload x hash now p.1 p.2) := by
  obtain ⟨msg,hadds,hfiled⟩ | ⟨hadds,hun⟩ := payload_adds x hash now peer p s
  · have hlong : (insertSorted (s.model.convo peer) msg).length = (s.model.convo peer).length+1 :=
      (insertSorted_perm _ msg).length_eq
    have hconvo := h.convo
    have hcap : (insertSorted (s.model.convo peer) msg).length ≤ maxSeenIdsPerPeer := by
      rw [hlong, maxSeenIdsPerPeer]
      rw [maxMessagesPerPeer] at hconvo
      omega
    rw [hadds, Option.toList_some]
    refine ⟨?_,.inl ?_,fun msg' hmsg' hheld => ?_⟩
    · rw [hfiled.convo, trimHistory, List.length_drop]
      omega
    · rw [hfiled.seen]
      exact card_capIds hash _ hcap
    · -- What the conversation still holds is not forgotten when the set is cut down.
      have hheld' : msg'.id ∈ messageIds (insertSorted (s.model.convo peer) msg) := by
        rw [hfiled.convo, mem_messageIds] at hheld
        rw [mem_messageIds]
        exact ((trimHistory_sublist _).map _).subset hheld
      rw [hfiled.seen]
      refine mem_capIds ?_ hheld'
      rw [messageIds_insertSorted] at hheld'
      obtain heq | hold := Finset.mem_insert.mp hheld'
      · rw [heq]
        exact Finset.mem_insert_self _ _
      · obtain hmsg' | hmsg' := List.mem_append.mp hmsg'
        · exact Finset.mem_insert_of_mem (subset_dedupSet _ _ (h.kept msg' hmsg' hold))
        · rw [List.mem_singleton.mp hmsg']
          exact Finset.mem_insert_self _ _
  · rw [hadds, Option.toList_none, List.append_nil]
    refine ⟨hun.convo ▸ h.convo,?_,fun msg hmsg hheld => hun.seen (h.kept msg hmsg (hun.convo ▸ hheld))⟩
    have hsub : (s.payload x hash now p.1 p.2).model.seen peer ⊆ s.model.dedupSet peer :=
      hun.dedupSet ▸ subset_dedupSet _ peer
    by_cases hempty : s.model.seen peer = ∅
    · -- An empty set is filled from the conversation.
      left
      rw [Model.dedupSet, if_pos hempty] at hsub
      calc
        _ ≤ (messageIds (s.model.convo peer)).card := Finset.card_le_card hsub
        _ ≤ (s.model.convo peer).length := card_messageIds _
        _ ≤ maxMessagesPerPeer := h.convo
        _ ≤ maxSeenIdsPerPeer := by decide
    · rw [Model.dedupSet, if_neg hempty] at hsub
      rw [hsub.antisymm hun.seen]
      exact h.seen

theorem Bounded.deliver {peer : String} {m : Model} {added : List StoredMessage} {s : Ingest}
    (h : Bounded peer m added s) (x : Crates) (hash : HashOrder) (now : ℤ)
    (ps : List (String × ParsedPayload)) :
    Bounded peer m (added ++ additions x hash now peer ps s) (deliver x hash now ps s) := by
  induction ps generalizing added s with
  | nil =>
    rw [additions, List.append_nil]
    exact h
  | cons p ps ih =>
    rw [additions, ← List.append_assoc]
    exact ih (h.payload x hash now p)

/-- A payload makes no more contacts than there is room for. -/
theorem payload_size (p : String × ParsedPayload) (s : Ingest) :
    (s.payload x hash now p.1 p.2).model.contacts.size ≤ max s.model.contacts.size maxContacts := by
  obtain ⟨sender,ts,pl⟩ := p
  simp only [payload]
  split
  · exact le_max_left _ _
  split
  · exact le_max_left _ _
  cases pl with
  | deliveryAck ackIds => exact le_max_left _ _
  | text id body =>
    simp only [text]
    split
    · rw [storeText_contacts]
      exact le_max_left _ _
    split
    · exact le_max_left _ _
    · rename_i hroom
      rw [storeText_contacts]
      refine le_trans (Std.TreeMap.size_insert_le) ?_
      omega
  | profile displayName bio photo =>
    simp only [profile]
    split
    · exact le_max_left _ _
    rename_i c hc
    split
    · have hknown : s.model.contacts.contains sender = true := by
        rw [Std.TreeMap.contains_eq_isSome_getElem?, hc]
        rfl
      refine le_trans (le_of_eq ?_) (le_max_left _ _)
      rw [Std.TreeMap.size_insert]
      simp [hknown]
    · exact le_max_left _ _

theorem ackWatermark_size (now : ℤ) (sender : String) (pending : PendingAck) (s : Ingest) :
    (s.ackWatermark now sender pending).model.contacts.size = s.model.contacts.size := by
  unfold ackWatermark
  split
  · rfl
  · rename_i c hc
    have hknown : s.model.contacts.contains sender = true := by
      rw [Std.TreeMap.contains_eq_isSome_getElem?, hc]
      rfl
    simp only
    rw [Std.TreeMap.size_insert]
    simp [hknown]

theorem applyAcks_size (now : ℤ) (s : Ingest) :
    (s.applyAcks now).model.contacts.size = s.model.contacts.size := by
  unfold applyAcks
  generalize s.pendingAcks.toList = acks
  induction acks generalizing s with
  | nil => rfl
  | cons a acks ih =>
    have hmark : ∀ s : Ingest, (s.markConvo a.1 a.2).model.contacts = s.model.contacts := by
      intro s
      unfold markConvo
      split
      · rfl
      split <;> rfl
    rw [List.foldl_cons, ih, applyAck]
    split
    · rfl
    · rw [hmark, ackWatermark_size]

/-- Conversations that were not there before are with contacts. -/
def Introduced (m : Model) (s : Ingest) : Prop :=
  ∀ peer : String, m.messages[peer]? = none → s.model.messages[peer]? ≠ none →
    s.model.contacts.contains peer = true

theorem Introduced.payload {m : Model} {s : Ingest} (h : Introduced m s) (p : String × ParsedPayload) :
    Introduced m (s.payload x hash now p.1 p.2) := by
  intro peer hm hs
  by_cases hold : s.model.messages[peer]? = none
  · obtain ⟨sender,ts,pl⟩ := p
    have hstore : ∀ (s₁ : Ingest) (id body : String), s₁.model.messages[peer]? = none →
        (s₁.storeText hash sender (clampTs now ts) id body).model.messages[peer]? ≠ none →
        sender = peer := by
      intro s₁ id body hnone hsome
      by_contra hpeer
      refine hsome ?_
      simp only [storeText]
      split <;> simp [Maps.getElem?_insert, hpeer, hnone]
    simp only [Ingest.payload] at hs ⊢
    split at hs
    · exact absurd hold hs
    split at hs
    · exact absurd hold hs
    rw [if_neg ‹_›, if_neg ‹_›]
    cases pl with
    | deliveryAck ackIds => exact absurd hold hs
    | text id body =>
      simp only [text] at hs ⊢
      split at hs
      · rename_i hknown
        rw [if_pos hknown, storeText_contacts, ← hstore s id body hold hs]
        exact hknown
      rename_i hnew
      split at hs
      · exact absurd hold hs
      rename_i hroom
      rw [if_neg hnew, if_neg hroom, storeText_contacts,
        ← hstore (s.addStranger x sender (clampTs now ts)) id body hold hs]
      simp [addStranger]
    | profile displayName bio photo =>
      simp only [profile] at hs
      split at hs
      · exact absurd hold hs
      split at hs <;> exact absurd hold hs
  · exact payload_contains p s (.inl (h peer hm hold))

theorem Introduced.applyAcks {m : Model} {s : Ingest} (h : Introduced m s) (now : ℤ) :
    Introduced m (s.applyAcks now) := by
  intro peer hm hs
  have hview : (s.applyAcks now).model.messages[peer]? = ((s.pendingAcks[peer]?).elim
      (s.model.correspondence peer)
      (fun pending => settleAcks now pending (s.model.correspondence peer))).2 :=
    congrArg Prod.snd applyAcks_correspondence
  rw [applyAcks_contains]
  refine h peer hm fun hnone => hs ?_
  rw [hview]
  cases s.pendingAcks[peer]? with
  | none => exact hnone
  | some pending =>
    simp only [Option.elim_some, settleAcks, Model.correspondence, hnone]
    split <;> rfl

end Ingest

/-- The bytes that a page gets decrypted. -/
def Model.decrypted (x : Crates) (amb : Ambient) (page : PollResp) (m : Model) : List Bytes :=
  if m.kvLoadFailed then []
  else
    let adopted := adoptCursor (amb.now 0) page m
    match adopted.identity x with
    | none => []
    | some id => Ingest.decrypted x amb.hash (amb.now 1) id page.events { model := adopted }

theorem Model.decrypted_bounds (x : Crates) (amb : Ambient) (page : PollResp) (m : Model) :
    (m.decrypted x amb page).length ≤ maxPollEvents ∧
      (m.decrypted x amb page).flatten.length ≤ maxPollTotalBytes := by
  unfold Model.decrypted
  split
  · exact ⟨Nat.zero_le _,Nat.zero_le _⟩
  simp only
  split
  · exact ⟨Nat.zero_le _,Nat.zero_le _⟩
  · rename_i id _
    obtain ⟨hcount,hbytes⟩ := @Ingest.decrypted_bounds x amb.hash (amb.now 1) id page.events
      { model := adoptCursor (amb.now 0) page m } (Nat.zero_le _)
    exact ⟨(Nat.zero_add _).symm.trans_le hcount,hbytes⟩

/-- The page runs into a limit, before anything on it opened. -/
def PollResp.cutShort (x : Crates) (id : Crypto.Identity) (page : PollResp) : Prop :=
  Ingest.cut 0 maxPollTotalBytes page.events = true ∧ page.opened x id = []

theorem adoptCursor_bounds (now : ℤ) (page : PollResp) (m : Model) :
    m.cursor ≤ (adoptCursor now page m).cursor ∧
      (adoptCursor now page m).cursor ≤ max m.cursor (i64SaturatingAdd now 60000) ∧
      (page.events = [] → (adoptCursor now page m).cursor = m.cursor) := by
  unfold adoptCursor
  simp only
  split
  · rename_i h
    exact ⟨h.2.le,(min_le_right _ _).trans (le_max_right _ _),fun hempty => absurd hempty h.1⟩
  · exact ⟨le_rfl,le_max_left _ _,fun _ => rfl⟩

/-- The cursor is the relay's, unless it is kept. -/
theorem ingestPoll_cursor_cases (x : Crates) (amb : Ambient) (page : PollResp) (m : Model) :
    (ingestPoll x amb page m).1.cursor = m.cursor ∨
      (ingestPoll x amb page m).1.cursor = (adoptCursor (amb.now 0) page m).cursor ∧
        ∀ id, m.identity x = some id → ¬ page.cutShort x id := by
  by_cases hk : m.kvLoadFailed = true
  · left
    rw [ingestPoll, if_pos hk]
  have hk : m.kvLoadFailed = false := by simpa using hk
  cases hid : m.identity x with
  | none =>
    right
    simp [ingestPoll, hk, hid]
  | some id =>
    have hcursor : (ingestPoll x amb page m).1.cursor =
        (Ingest.events x amb.hash (amb.now 1) m.cursor id page.events
          { model := adoptCursor (amb.now 0) page m }).model.cursor := by
      rw [ingestPoll_eq hk hid, ingested]
      generalize Ingest.events x amb.hash (amb.now 1) m.cursor id page.events
        { model := adoptCursor (amb.now 0) page m } = s
      have h := Ingest.applyAcks_bookless (amb.now 1) s.model.cursor s.model.error s.budget
        s.eventsProcessed s.eventsStored s
      change s.applyAcks (amb.now 1) = _ at h
      change (s.applyAcks (amb.now 1)).model.cursor = s.model.cursor
      rw [h]
      rfl
    rw [hcursor, Ingest.events_cursor_eq]
    split
    · exact .inl rfl
    · rename_i hcut
      refine .inr ⟨rfl,fun id' hid' hshort => hcut ⟨hshort.1,rfl,?_⟩⟩
      rw [Option.some.injEq] at hid'
      exact hid' ▸ hshort.2

theorem ingestPoll_size (x : Crates) (amb : Ambient) (page : PollResp) (m : Model) :
    (ingestPoll x amb page m).1.contacts.size ≤ max m.contacts.size maxContacts := by
  by_cases hidle : m.kvLoadFailed = true ∨ m.identity x = none
  · obtain ⟨c,hc⟩ := ingestPoll_idle amb page hidle
    rw [hc]
    exact le_max_left _ _
  · simp only [not_or, Bool.not_eq_true] at hidle
    obtain ⟨hk,hid⟩ := hidle
    obtain ⟨id,hid⟩ := Option.ne_none_iff_exists'.mp hid
    obtain ⟨c,e,hm⟩ := ingestPoll_delivered amb page hk hid
    rw [hm]
    refine (Ingest.applyAcks_size (amb.now 1) _).trans_le ?_
    refine Ingest.deliver_induction (I := fun s => s.model.contacts.size ≤ max m.contacts.size maxContacts)
      (fun p _ s hs => ?_) (le_max_left _ _)
    exact (Ingest.payload_size p s).trans (max_le hs (le_max_right _ _))

/-- What a page leaves of a conversation and its dedup set. -/
theorem ingestPoll_bounded (x : Crates) (amb : Ambient) (page : PollResp) {m : Model} {peer : String}
    (hm : (m.convo peer).length ≤ maxMessagesPerPeer) :
    Ingest.Bounded peer m (m.pageAdditions x amb page peer) { model := (ingestPoll x amb page m).1 } ∧
      (m.messages[peer]? = none → (ingestPoll x amb page m).1.messages[peer]? ≠ none →
        (ingestPoll x amb page m).1.contacts.contains peer = true) := by
  by_cases hidle : m.kvLoadFailed = true ∨ m.identity x = none
  · obtain ⟨c,hc⟩ := ingestPoll_idle amb page hidle
    rw [hc, Model.pageAdditions_idle amb page peer hidle]
    exact ⟨⟨hm,.inr ⟨rfl,rfl⟩,by simp⟩,fun hnone hsome => absurd hnone hsome⟩
  · simp only [not_or, Bool.not_eq_true] at hidle
    obtain ⟨hk,hid⟩ := hidle
    obtain ⟨id,hid⟩ := Option.ne_none_iff_exists'.mp hid
    obtain ⟨c,e,hdelivered⟩ := ingestPoll_delivered amb page hk hid
    let s := Ingest.deliver x amb.hash (amb.now 1) (page.opened x id) { model := m }
    have hs : Ingest.Bounded peer m (m.pageAdditions x amb page peer) s := by
      rw [Model.pageAdditions_eq amb page peer hk hid]
      have hstart : Ingest.Bounded peer m [] { model := m } := ⟨hm,.inr ⟨rfl,rfl⟩,by simp⟩
      exact hstart.deliver x amb.hash (amb.now 1) (page.opened x id)
    have hconvo := @Ingest.applyAcks_map String StoredMessage.id (fun _ => rfl) (amb.now 1) s peer
    have hids : messageIds ((s.applyAcks (amb.now 1)).model.convo peer) = messageIds (s.model.convo peer) :=
      congrArg List.toFinset hconvo
    have hseen : (s.applyAcks (amb.now 1)).model.seen peer = s.model.seen peer := by
      rw [Model.seen, (Ingest.applyAcks_keeps (amb.now 1) s).1]
      rfl
    have hnew : Ingest.Introduced m (s.applyAcks (amb.now 1)) := by
      refine Ingest.Introduced.applyAcks ?_ (amb.now 1)
      refine Ingest.deliver_induction (fun p _ s hs => hs.payload p) ?_
      exact fun peer hnone hsome => absurd hnone hsome
    rw [show delivered x amb (page.opened x id) m = (s.applyAcks (amb.now 1)).queueAcks x (amb.now 2)
      from rfl] at hdelivered
    generalize s.applyAcks (amb.now 1) = acked at hconvo hids hseen hnew hdelivered
    rw [hdelivered]
    refine ⟨⟨?_,?_,?_⟩,hnew peer⟩
    · have hlen := congrArg List.length hconvo
      rw [List.length_map, List.length_map] at hlen
      exact hlen.trans_le hs.convo
    · change (acked.model.seen peer).card ≤ _ ∨ _ ∧ acked.model.seen peer = _
      rw [hseen]
      exact hs.seen
    · intro msg hmsg hheld
      change msg.id ∈ acked.model.seen peer
      change msg.id ∈ messageIds (acked.model.convo peer) at hheld
      rw [hids] at hheld
      rw [hseen]
      exact hs.kept msg hmsg hheld

/-- Whatever is on a page, only so many blobs and bytes of it get decrypted, and contacts, conversations
and dedup sets stay within their caps, as long as the conversations were. A dedup set that is cut down
keeps the ids of the texts that the page added and the conversation still holds. The cursor moves
forward, to no later than a minute from now, and not at all if the page is empty or cut short before
anything on it opened. -/
theorem hostile_page (x : Crates) (amb : Ambient) (page : PollResp) (m : Model)
    (hm : ∀ peer, (m.convo peer).length ≤ maxMessagesPerPeer) :
    ((m.decrypted x amb page).length ≤ maxPollEvents ∧
      (m.decrypted x amb page).flatten.length ≤ maxPollTotalBytes) ∧
    (ingestPoll x amb page m).1.contacts.size ≤ max m.contacts.size maxContacts ∧
    (∀ peer, ((ingestPoll x amb page m).1.convo peer).length ≤ maxMessagesPerPeer ∧
      (m.pageAdditions x amb page peer ≠ [] ∨
          (ingestPoll x amb page m).1.seen peer ≠ m.seen peer →
        ((ingestPoll x amb page m).1.seen peer).card ≤ maxSeenIdsPerPeer) ∧
      (∀ msg ∈ m.pageAdditions x amb page peer,
        msg.id ∈ messageIds ((ingestPoll x amb page m).1.convo peer) →
        msg.id ∈ (ingestPoll x amb page m).1.seen peer) ∧
      (m.messages[peer]? = none → (ingestPoll x amb page m).1.messages[peer]? ≠ none →
        (ingestPoll x amb page m).1.contacts.contains peer = true)) ∧
    m.cursor ≤ (ingestPoll x amb page m).1.cursor ∧
    (ingestPoll x amb page m).1.cursor ≤ max m.cursor (i64SaturatingAdd (amb.now 0) 60000) ∧
    (page.events = [] ∨ (∃ id, m.identity x = some id ∧ page.cutShort x id) →
      (ingestPoll x amb page m).1.cursor = m.cursor) := by
  refine ⟨m.decrypted_bounds x amb page,?_,?_,?_,?_,?_⟩
  · exact ingestPoll_size x amb page m
  · intro peer
    obtain ⟨hbounded,hnew⟩ := ingestPoll_bounded x amb page (hm peer)
    refine ⟨hbounded.convo,fun hadded => ?_,hbounded.kept,hnew⟩
    obtain hcard | ⟨hnone,hsame⟩ := hbounded.seen
    · exact hcard
    · exact absurd hsame (hadded.resolve_left fun h => h hnone)
  · obtain h | ⟨h,-⟩ := ingestPoll_cursor_cases x amb page m
    · exact h.ge
    · exact h ▸ (adoptCursor_bounds (amb.now 0) page m).1
  · obtain h | ⟨h,-⟩ := ingestPoll_cursor_cases x amb page m
    · exact h.trans_le (le_max_left _ _)
    · exact h ▸ (adoptCursor_bounds (amb.now 0) page m).2.1
  · intro hkept
    obtain h | ⟨h,hwhole⟩ := ingestPoll_cursor_cases x amb page m
    · exact h
    · obtain hempty | ⟨id,hid,hshort⟩ := hkept
      · exact h.trans ((adoptCursor_bounds (amb.now 0) page m).2.2 hempty)
      · exact absurd hshort (hwhole id hid)

/-- A page of junk, a text from a contact and one from a blocked contact. -/
theorem hostile_page_mixed :
    (mixedReader.decrypted .posted .sample mixedPage).length ≤ 2000 ∧
    (ingestPoll .posted .sample mixedPage mixedReader).1.contacts.size ≤ 500 ∧
    (ingestPoll .posted .sample mixedPage mixedReader).1.convo (samplePeer 7) =
      [⟨"a","ho",700,false,false⟩,⟨"m","hi",900,false,false⟩] ∧
    "m" ∈ (ingestPoll .posted .sample mixedPage mixedReader).1.seen (samplePeer 7) ∧
    ((ingestPoll .posted .sample mixedPage mixedReader).1.seen (samplePeer 7)).card ≤ 2000 ∧
    3 ≤ (ingestPoll .posted .sample mixedPage mixedReader).1.cursor ∧
    (ingestPoll .posted .sample mixedPage mixedReader).1.cursor ≤ 61000 := by
  obtain ⟨hdecrypted,hsize,hpeers,hforward,hcursor,-⟩ := hostile_page .posted .sample mixedPage mixedReader
    (fun peer => by
      simp only [Model.convo, mixedReader, Maps.getElem?_insert]
      split
      · decide
      · simp)
  have hadded : mixedReader.pageAdditions .posted .sample mixedPage (samplePeer 7) =
      [⟨"m","hi",900,false,false⟩] := by
    rw [Model.pageAdditions_eq .sample mixedPage (samplePeer 7) rfl mixedReader_identity,
      mixedPage_opened]
    decide +kernel
  have hconvo : (ingestPoll .posted .sample mixedPage mixedReader).1.convo (samplePeer 7) =
      [⟨"a","ho",700,false,false⟩,⟨"m","hi",900,false,false⟩] := by
    rw [Model.convo, mixedPage_filed, Option.getD_some]
  obtain ⟨-,hcard,hkept,-⟩ := hpeers (samplePeer 7)
  refine ⟨hdecrypted.1.trans (by decide),hsize.trans (by decide),hconvo,?_,?_,hforward,
    hcursor.trans (by decide)⟩
  · rw [hadded, List.forall_mem_singleton, hconvo] at hkept
    have hheld : "m" ∈ messageIds [⟨"a","ho",700,false,false⟩,⟨"m","hi",900,false,false⟩] := by decide
    generalize ingestPoll .posted .sample mixedPage mixedReader = r at hkept ⊢
    exact hkept hheld
  · exact hcard (.inl (by simp [hadded]))

end Skrepka.Client
