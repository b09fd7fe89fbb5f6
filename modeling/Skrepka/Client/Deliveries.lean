import Skrepka.Client.Admission

/-! What a page delivers: the payloads of the events that the loop over it looks at and can open,
and what the data becomes when they are folded in. -/
namespace Skrepka.Client
open Rust Mvu

namespace Ingest

/-- Decrypt and parse the bytes of a blob. -/
def openBytes (x : Crates) (id : Crypto.Identity) (bytes : Bytes) :
    Option (String × ParsedPayload) := do
  let dec ← (Crypto.decrypt x id bytes).toOption
  let parsed ← Protocol.parsePayload x dec.plaintext
  return (dec.senderHex,parsed)

theorem openBlob_encode (x : Crates) (id : Crypto.Identity) (bytes : Bytes) :
    openBlob x id (Hex.encode bytes) = openBytes x id bytes := by
  simp [openBlob, openBytes, Hex.decode_encode]

/-- The blobs of a page that its loop gets to, after some events and with some budget left. -/
def taken : ℕ → ℕ → List String → List String
  | _, _, [] => []
  | processed, budget, blob :: evs =>
    if len blob > Crypto.maxBlobLen*2 then taken processed budget evs
    else if processed ≥ maxPollEvents then []
    else if budget < len blob/2 then []
    else blob :: taken (processed+1) (budget-len blob/2) evs

variable {x : Crates} {hash : HashOrder} {now : ℤ} {id : Crypto.Identity}

theorem events_taken (prevCursor : ℤ) (evs : List String) (s : Ingest) :
    Matches (foldEvents x hash now id (taken s.eventsProcessed s.budget evs) s)
      (events x hash now prevCursor id evs s) := by
  induction evs generalizing s with
  | nil => exact .refl s
  | cons blob evs ih =>
    simp only [events, taken]
    split
    · exact ih s
    split
    · exact ⟨_,_,_,_,_,rfl⟩
    split
    · exact ⟨_,_,_,_,_,rfl⟩
    · let s' : Ingest := { s with
        eventsProcessed := s.eventsProcessed+1, budget := s.budget-len blob/2 }
      have hkept := event_keeps x hash now id blob s'
      have hrest := ih (s'.event x hash now id blob)
      rw [hkept.1, hkept.2] at hrest
      exact (foldEvents_matches _ (event_matches ⟨_,_,_,_,_,rfl⟩)).trans hrest

/-- Fold in payloads from authenticated senders. -/
def deliver (x : Crates) (hash : HashOrder) (now : ℤ) (ps : List (String × ParsedPayload))
    (s : Ingest) : Ingest :=
  ps.foldl (fun s p => s.payload x hash now p.1 p.2) s

theorem deliver_matches (ps : List (String × ParsedPayload)) {s t : Ingest} (h : Matches s t) :
    Matches (deliver x hash now ps s) (deliver x hash now ps t) := by
  induction ps generalizing s t with
  | nil => exact h
  | cons p ps ih => exact ih ((payload_bookless x hash now p.1 p.2).matches h)

theorem taken_encode {processed budget : ℕ} {blobs : List Bytes}
    (hshort : ∀ blob ∈ blobs, blob.length ≤ Crypto.maxBlobLen)
    (hcount : processed+blobs.length ≤ maxPollEvents)
    (hbudget : (blobs.map List.length).sum ≤ budget) :
    taken processed budget (blobs.map Hex.encode) = blobs.map Hex.encode := by
  induction blobs generalizing processed budget with
  | nil => rfl
  | cons blob blobs ih =>
    have hlen : len (Hex.encode blob) = 2*blob.length := Hex.len_of_decode (Hex.decode_encode blob)
    have hblob := hshort blob List.mem_cons_self
    simp only [List.length_cons, List.map_cons, List.sum_cons] at hcount hbudget
    simp only [List.map_cons, taken, hlen]
    rw [if_neg (by omega), if_neg (by omega), if_neg (by omega),
      ih (fun b hb => hshort b (List.mem_cons_of_mem _ hb)) (by omega) (by omega)]

theorem foldEvents_deliver (evs : List String) (s : Ingest) :
    Matches (deliver x hash now (evs.filterMap (openBlob x id)) s)
      (foldEvents x hash now id evs s) := by
  induction evs generalizing s with
  | nil => exact .refl s
  | cons blob evs ih =>
    cases ho : openBlob x id blob with
    | none =>
      rw [List.filterMap_cons_none ho, foldEvents, List.foldl_cons, event_of_none ho]
      exact ih s
    | some p =>
      rw [List.filterMap_cons_some ho]
      change Matches (deliver x hash now _ (s.payload x hash now p.1 p.2)) _
      refine (deliver_matches _ ?_).trans (ih _)
      simp only [event, ho]
      exact (payload_bookless x hash now p.1 p.2).matches ⟨_,_,_,_,_,rfl⟩

end Ingest

/-- The payloads that a page delivers, with their senders. -/
def PollResp.opened (x : Crates) (id : Crypto.Identity) (page : PollResp) :
    List (String × ParsedPayload) :=
  (Ingest.taken 0 maxPollTotalBytes page.events).filterMap (Ingest.openBlob x id)

theorem PollResp.opened_encode (x : Crates) (id : Crypto.Identity) {blobs : List Bytes}
    (hshort : ∀ blob ∈ blobs, blob.length ≤ Crypto.maxBlobLen)
    (hcount : blobs.length ≤ maxPollEvents)
    (hbudget : (blobs.map List.length).sum ≤ maxPollTotalBytes) (cursor : ℤ) :
    PollResp.opened x id ⟨blobs.map Hex.encode,cursor⟩ =
      blobs.filterMap (Ingest.openBytes x id) := by
  rw [opened, Ingest.taken_encode hshort (by omega) hbudget, List.filterMap_map]
  exact List.filterMap_congr fun blob _ => Ingest.openBlob_encode x id blob

/-- Folding payloads in as those of one page, with the acks they bring and the acks they call
for. -/
def delivered (x : Crates) (amb : Ambient) (ps : List (String × ParsedPayload)) (m : Model) :
    Ingest :=
  ((Ingest.deliver x amb.hash (amb.now 1) ps { model := m }).applyAcks (amb.now 1)).queueAcks x
    (amb.now 2)

theorem ingested_delivered (x : Crates) (amb : Ambient) (page : PollResp) (id : Crypto.Identity)
    (m : Model) :
    Ingest.Matches (delivered x amb (page.opened x id) m) (ingested x amb page id m) := by
  obtain ⟨c,hc⟩ := adoptCursor_eq (amb.now 0) page m
  let s : Ingest := { model := adoptCursor (amb.now 0) page m }
  have hevents : Ingest.Matches
      (Ingest.foldEvents x amb.hash (amb.now 1) id (Ingest.taken 0 maxPollTotalBytes page.events) s)
      (Ingest.events x amb.hash (amb.now 1) m.cursor id page.events s) :=
    Ingest.events_taken m.cursor page.events s
  have hfold : Ingest.Matches (Ingest.deliver x amb.hash (amb.now 1) (page.opened x id) s)
      (Ingest.foldEvents x amb.hash (amb.now 1) id (Ingest.taken 0 maxPollTotalBytes page.events) s) :=
    Ingest.foldEvents_deliver _ s
  have hmodel : Ingest.Matches { model := m } { model := adoptCursor (amb.now 0) page m } := by
    rw [hc]
    exact ⟨c,m.error,_,_,_,rfl⟩
  exact (Ingest.queueAcks_bookless x (amb.now 2)).matches
    ((Ingest.applyAcks_bookless (amb.now 1)).matches
      ((Ingest.deliver_matches _ hmodel).trans (hfold.trans hevents)))

/-- Ingesting a page folds in what it delivers. -/
theorem ingestPoll_delivered {x : Crates} (amb : Ambient) (page : PollResp) {m : Model}
    {id : Crypto.Identity} (hk : m.kvLoadFailed = false) (hid : m.identity x = some id) :
    ∃ cursor error, (ingestPoll x amb page m).1 =
      { (delivered x amb (page.opened x id) m).model with cursor, error } := by
  obtain ⟨c,e,_,_,_,h⟩ := ingested_delivered x amb page id m
  refine ⟨c,e,?_⟩
  rw [ingestPoll_eq hk hid]
  exact congrArg Ingest.model h

/-- A contact after a payload, which concerns it if it is a profile of its own. -/
def Contact.receive (peer : String) (now : ℤ) (c : Contact) (p : String × ParsedPayload) :
    Contact :=
  match p.2.payload with
  | .profile displayName bio photo =>
    if p.1 = peer ∧ Ingest.clampTs now p.2.ts ≥ c.lastProfileTs then
      { c with
        displayName := displayName.getD c.displayName
        bio := bio.getD c.bio
        photo := photo.orElse (fun _ => c.photo)
        lastProfileTs := min (Ingest.clampTs now p.2.ts) now }
    else c
  | _ => c

@[simp] theorem Contact.receive_blocked (peer : String) (now : ℤ) (c : Contact)
    (p : String × ParsedPayload) : (c.receive peer now p).blocked = c.blocked := by
  unfold receive
  split
  · split <;> rfl
  · rfl

@[simp] theorem Contact.receive_lastAckTs (peer : String) (now : ℤ) (c : Contact)
    (p : String × ParsedPayload) : (c.receive peer now p).lastAckTs = c.lastAckTs := by
  unfold receive
  split
  · split <;> rfl
  · rfl

/-- A contact and its conversation. -/
def Model.correspondence (peer : String) (m : Model) :
    Option Contact × Option (List StoredMessage) := (m.contacts[peer]?,m.messages[peer]?)

/-- A payload that acknowledges, with its clamped time, if it comes from a peer. -/
def ackFrom (peer : String) (now : ℤ) (p : String × ParsedPayload) :
    Option (ℤ × List String) :=
  match p.2.payload with
  | .deliveryAck ackIds => if p.1 = peer then some (Ingest.clampTs now p.2.ts,ackIds) else none
  | _ => none

/-- The acks of one sender so far, and one more payload of acks. -/
def PendingAck.add (o : Option PendingAck) (ack : ℤ × List String) : Option PendingAck :=
  let p := o.getD {}
  some { ts := if ack.1 > p.ts then ack.1 else p.ts, ids := p.ids ∪ ack.2.toFinset }

/-- A payload is not a text from a peer. -/
def NoText (peer : String) (p : String × ParsedPayload) : Prop :=
  p.1 = peer → ∀ id body, p.2.payload ≠ .text id body

namespace Ingest

variable {x : Crates} {hash : HashOrder} {now : ℤ} {peer : String} {c : Contact} {s : Ingest}

@[simp] theorem storeText_contacts (sender : String) (ts : ℤ) (msgId body : String) :
    (s.storeText hash sender ts msgId body).model.contacts = s.model.contacts := by
  simp only [storeText]
  split <;> rfl

@[simp] theorem storeText_pendingAcks (sender : String) (ts : ℤ) (msgId body : String) :
    (s.storeText hash sender ts msgId body).pendingAcks = s.pendingAcks := by
  simp only [storeText]
  split <;> rfl

theorem storeText_messages {sender : String} (h : sender ≠ peer) (ts : ℤ) (msgId body : String) :
    (s.storeText hash sender ts msgId body).model.messages[peer]? = s.model.messages[peer]? := by
  simp only [storeText]
  split
  all_goals
    change (s.model.messages.insert sender _)[peer]? = _
    rw [Maps.getElem?_insert, if_neg h]

theorem text_contact (hc : s.model.contacts[peer]? = some c) (sender : String) (ts : ℤ)
    (msgId body : String) :
    (s.text x hash sender ts msgId body).model.contacts[peer]? = some c := by
  unfold text
  split
  · rwa [storeText_contacts]
  split
  · exact hc
  · rename_i hknown _
    rw [storeText_contacts]
    change (s.model.contacts.insert sender _)[peer]? = _
    rw [Maps.getElem?_insert, if_neg ?_, hc]
    rintro rfl
    rw [Std.TreeMap.contains_eq_isSome_getElem?, hc] at hknown
    exact hknown rfl

theorem text_pendingAcks (sender : String) (ts : ℤ) (msgId body : String) :
    (s.text x hash sender ts msgId body).pendingAcks = s.pendingAcks := by
  unfold text
  split
  · exact storeText_pendingAcks ..
  split
  · rfl
  · exact storeText_pendingAcks ..

theorem text_messages {sender : String} (h : sender ≠ peer) (ts : ℤ) (msgId body : String) :
    (s.text x hash sender ts msgId body).model.messages[peer]? = s.model.messages[peer]? := by
  unfold text
  split
  · exact storeText_messages h ..
  split
  · rfl
  · exact storeText_messages h ..

/-- What one payload does to what is known of a contact who is neither blocked nor ourselves. -/
theorem payload_contact (x : Crates) (hash : HashOrder) (now : ℤ)
    (hc : s.model.contacts[peer]? = some c) (hb : c.blocked = false)
    (hme : peer ≠ s.model.myPubkey) (p : String × ParsedPayload) :
    (s.payload x hash now p.1 p.2).model.contacts[peer]? = some (c.receive peer now p) ∧
    (s.payload x hash now p.1 p.2).pendingAcks[peer]? =
      (ackFrom peer now p).elim s.pendingAcks[peer]? (PendingAck.add s.pendingAcks[peer]?) ∧
    (NoText peer p →
      (s.payload x hash now p.1 p.2).model.messages[peer]? = s.model.messages[peer]?) := by
  have hother : p.1 ≠ peer → c.receive peer now p = c ∧ ackFrom peer now p = none := by
    intro hne
    unfold Contact.receive ackFrom
    cases p.2.payload <;> simp [hne]
  unfold payload
  split
  · rename_i hsender
    obtain ⟨hreceive,hack⟩ := hother (hsender.trans_ne hme.symm)
    rw [hreceive, hack]
    exact ⟨hc,rfl,fun _ => rfl⟩
  split
  · rename_i hblocked
    obtain ⟨hreceive,hack⟩ := hother (by
      rintro hpeer
      rw [isBlocked_eq, hpeer, hc] at hblocked
      simp [hb] at hblocked)
    rw [hreceive, hack]
    exact ⟨hc,rfl,fun _ => rfl⟩
  obtain ⟨sender,ts,pl⟩ := p
  cases pl with
  | text msgId body =>
    refine ⟨text_contact hc ..,?_,fun hno => ?_⟩
    · change (text ..).pendingAcks[peer]? = _
      rw [text_pendingAcks]
      rfl
    · exact text_messages (fun h => hno h msgId body rfl) ..
  | deliveryAck ackIds =>
    refine ⟨hc,?_,fun _ => rfl⟩
    change (s.pendingAcks.insert sender _)[peer]? = _
    rw [Maps.getElem?_insert]
    by_cases hpeer : sender = peer
    · subst hpeer
      simp [ackFrom, PendingAck.add]
    · simp [ackFrom, hpeer]
  | profile displayName bio photo =>
    simp only [profile]
    by_cases hpeer : sender = peer
    · subst hpeer
      simp only [hc, Contact.receive, true_and]
      split
      · exact ⟨by simp,rfl,fun _ => rfl⟩
      · exact ⟨hc,rfl,fun _ => rfl⟩
    · rw [(hother hpeer).1]
      split
      · exact ⟨hc,rfl,fun _ => rfl⟩
      split
      · refine ⟨?_,rfl,fun _ => rfl⟩
        change (s.model.contacts.insert sender _)[peer]? = _
        rw [Maps.getElem?_insert, if_neg hpeer, hc]
      · exact ⟨hc,rfl,fun _ => rfl⟩

theorem payload_me (sender : String) (p : ParsedPayload) :
    (s.payload x hash now sender p).model.myPubkey = s.model.myPubkey :=
  (payload_spares x hash now sender p s).me

/-- What payloads do to what is known of a peer. -/
theorem deliver_contact (x : Crates) (hash : HashOrder) (now : ℤ)
    (ps : List (String × ParsedPayload))
    (hc : s.model.contacts[peer]? = some c) (hb : c.blocked = false)
    (hme : peer ≠ s.model.myPubkey) :
    (deliver x hash now ps s).model.contacts[peer]? =
      some (ps.foldl (Contact.receive peer now) c) ∧
    (deliver x hash now ps s).pendingAcks[peer]? =
      (ps.filterMap (ackFrom peer now)).foldl PendingAck.add s.pendingAcks[peer]? ∧
    ((∀ p ∈ ps, NoText peer p) →
      (deliver x hash now ps s).model.messages[peer]? = s.model.messages[peer]?) := by
  induction ps generalizing s c with
  | nil => exact ⟨hc,rfl,fun _ => rfl⟩
  | cons p ps ih =>
    obtain ⟨hc',ha',hm'⟩ := payload_contact x hash now hc hb hme p
    have hme' : peer ≠ (s.payload x hash now p.1 p.2).model.myPubkey := by rwa [payload_me]
    obtain ⟨hc'',ha'',hm''⟩ := ih hc' (by simpa using hb) hme'
    refine ⟨hc'',ha''.trans ?_,fun hno => ?_⟩
    · rw [ha']
      cases hack : ackFrom peer now p with
      | none => rw [List.filterMap_cons_none hack]; rfl
      | some ack => rw [List.filterMap_cons_some hack]; rfl
    · exact (hm'' fun q hq => hno q (List.mem_cons_of_mem _ hq)).trans
        (hm' (hno p List.mem_cons_self))

/-- The acks of a peer, applied to what is known of it. -/
def settleAcks (now : ℤ) (pending : PendingAck)
    (v : Option Contact × Option (List StoredMessage)) :
    Option Contact × Option (List StoredMessage) :=
  if v.1.any (fun c => pending.ts < c.lastAckTs) then v
  else (v.1.map (fun c => { c with lastAckTs := min pending.ts now }),
    v.2.map (markDelivered pending))

theorem markDelivered_of_not_any {pending : PendingAck} {convo : List StoredMessage}
    (h : convo.any (isAcked pending) = false) : markDelivered pending convo = convo := by
  refine (List.map_congr_left fun msg hmsg => ?_).trans (List.map_id _)
  rw [if_neg (List.any_eq_false.mp h msg hmsg)]
  rfl

theorem applyAck_correspondence (pending : PendingAck) :
    (s.applyAck now (peer,pending)).model.correspondence peer =
      settleAcks now pending (s.model.correspondence peer) := by
  have hmark : ∀ s : Ingest, (s.markConvo peer pending).model.correspondence peer =
      (s.model.contacts[peer]?,s.model.messages[peer]?.map (markDelivered pending)) := by
    intro s
    unfold markConvo
    cases hm : s.model.messages[peer]? with
    | none => simp [Model.correspondence, hm]
    | some convo =>
      by_cases hany : convo.any (isAcked pending) = true
      · simp [Model.correspondence, hany]
      · have hsame := markDelivered_of_not_any (Bool.eq_false_iff.mpr hany)
        simp [Model.correspondence, hany, hm, hsame]
  have hstale : s.isStale peer pending =
      (s.model.correspondence peer).1.any (fun c => pending.ts < c.lastAckTs) := rfl
  unfold applyAck settleAcks
  simp only [hstale]
  split
  · rfl
  · rw [hmark]
    unfold ackWatermark Model.correspondence
    cases hc : s.model.contacts[peer]? with
    | none => simp [hc]
    | some c => simp

theorem applyAck_other {sender : String} (h : sender ≠ peer) (pending : PendingAck) :
    (s.applyAck now (sender,pending)).model.correspondence peer = s.model.correspondence peer := by
  have hmark : ∀ s : Ingest, (s.markConvo sender pending).model.correspondence peer =
      s.model.correspondence peer := by
    intro s
    unfold markConvo
    split
    · rfl
    split
    · simp [Model.correspondence, Maps.getElem?_insert, h]
    · rfl
  unfold applyAck
  split
  · rfl
  · rw [hmark]
    unfold ackWatermark
    simp only
    split
    · rfl
    · simp [Model.correspondence, Maps.getElem?_insert, h]

/-- Applying the acks of a page, seen from one peer. -/
theorem applyAcks_correspondence :
    (s.applyAcks now).model.correspondence peer =
      (s.pendingAcks[peer]?).elim (s.model.correspondence peer)
        (fun pending => settleAcks now pending (s.model.correspondence peer)) :=
  Maps.foldl_toList (fun s => s.model.correspondence peer)
    (fun _ _ pending h => applyAck_other h pending)
    (fun _ pending => applyAck_correspondence pending) s

end Ingest

/-- The acks that payloads bring from a peer, taken together. -/
def pendingFrom (peer : String) (now : ℤ) (ps : List (String × ParsedPayload)) :
    Option PendingAck :=
  (ps.filterMap (ackFrom peer now)).foldl PendingAck.add none

/-- What the payloads of a page leave of a contact and its conversation. -/
theorem delivered_correspondence (x : Crates) (amb : Ambient) {peer : String} {c : Contact}
    {m : Model} (ps : List (String × ParsedPayload)) (hc : m.contacts[peer]? = some c)
    (hb : c.blocked = false) (hme : peer ≠ m.myPubkey) :
    ∃ convo, ((∀ p ∈ ps, NoText peer p) → convo = m.messages[peer]?) ∧
      (delivered x amb ps m).model.correspondence peer =
        let v := (some (ps.foldl (Contact.receive peer (amb.now 1)) c),convo)
        (pendingFrom peer (amb.now 1) ps).elim v (Ingest.settleAcks (amb.now 1) · v) := by
  obtain ⟨hc',ha',hm'⟩ := Ingest.deliver_contact x amb.hash (amb.now 1) ps
    (show ({ model := m } : Ingest).model.contacts[peer]? = some c from hc) hb hme
  refine ⟨_,hm',?_⟩
  have hdeliver : (Ingest.deliver x amb.hash (amb.now 1) ps
      { model := m }).model.correspondence peer =
      (some (ps.foldl (Contact.receive peer (amb.now 1)) c),_) := Prod.ext hc' rfl
  have hpending : (Ingest.deliver x amb.hash (amb.now 1) ps { model := m }).pendingAcks[peer]? =
      pendingFrom peer (amb.now 1) ps := by simpa [pendingFrom] using ha'
  change (Ingest.applyAcks (amb.now 1) _).model.correspondence peer = _
  rw [Ingest.applyAcks_correspondence, hdeliver, hpending]
  rfl

/-- Ingest pages one after another. -/
def ingestAll (x : Crates) (pages : List (Ambient × PollResp)) (m : Model) : Model :=
  pages.foldl (fun m page => (ingestPoll x page.1 page.2 m).1) m

/-- A model that takes in mail: its reads went well, and its identity is known. -/
structure Receives (x : Crates) (id : Crypto.Identity) (m : Model) : Prop where
  intact : m.kvLoadFailed = false
  identity : m.identity x = some id

theorem Receives.ingestPoll {x : Crates} {id : Crypto.Identity} {m : Model}
    (h : Receives x id m) (amb : Ambient) (page : PollResp) :
    Receives x id (ingestPoll x amb page m).1 ∧
      (Client.ingestPoll x amb page m).1.myPubkey = m.myPubkey := by
  obtain ⟨m',ws,es,heq,⟨_,_,_,_,_,_,rfl,-⟩,-,-⟩ := ingestPoll_cases x amb page m
  rw [heq]
  exact ⟨⟨h.intact,h.identity⟩,rfl⟩

/-- What a page leaves of a contact and its conversation. -/
theorem ingestPoll_correspondence {x : Crates} {id : Crypto.Identity} {m : Model}
    (h : Receives x id m) (amb : Ambient) (page : PollResp) {peer : String} {c : Contact}
    (hc : m.contacts[peer]? = some c) (hb : c.blocked = false) (hme : peer ≠ m.myPubkey) :
    ∃ convo, ((∀ p ∈ page.opened x id, NoText peer p) → convo = m.messages[peer]?) ∧
      (ingestPoll x amb page m).1.correspondence peer =
        let v := (some ((page.opened x id).foldl (Contact.receive peer (amb.now 1)) c),convo)
        (pendingFrom peer (amb.now 1) (page.opened x id)).elim v
          (Ingest.settleAcks (amb.now 1) · v) := by
  obtain ⟨cursor,error,heq⟩ := ingestPoll_delivered amb page h.intact h.identity
  rw [heq]
  exact delivered_correspondence x amb _ hc hb hme

/-- A page of sample mails. -/
def postedPage (seqs : List UInt8) : PollResp := ⟨(mailed seqs).map Hex.encode,5⟩

/-- What it delivers, if opening the bytes yields that. -/
theorem postedPage_opened {x : Crates} {seqs : List UInt8} {ps : List (String × ParsedPayload)}
    (hsize : ((mailed seqs).all fun blob => blob.length ≤ Crypto.maxBlobLen) = true ∧
      (mailed seqs).length ≤ maxPollEvents ∧
      ((mailed seqs).map List.length).sum ≤ maxPollTotalBytes)
    (hopen : (mailed seqs).filterMap (Ingest.openBytes x postedIdentity) = ps) :
    (postedPage seqs).opened x postedIdentity = ps := by
  rw [postedPage, PollResp.opened_encode x postedIdentity (by simpa using hsize.1)
    hsize.2.1 hsize.2.2 5, hopen]

/-- Events that a model does not admit leave no trace in its data: a page within its budgets has the
same outcome, but for the cursor and the error, as that page without them. -/
theorem inadmissible_mail_is_inert (x : Crates) (amb : Ambient) (page : PollResp) (m : Model)
    (hpage : page.WithinBudgets) :
    ∃ cursor error, (ingestPoll x amb page m).1 =
      { (ingestPoll x amb (page.admitted x m) m).1 with cursor, error } := by
  by_cases hidle : m.kvLoadFailed = true ∨ m.identity x = none
  · obtain ⟨c,hc⟩ := ingestPoll_idle amb page hidle
    obtain ⟨c',hc'⟩ := ingestPoll_idle amb (page.admitted x m) hidle
    exact ⟨c,m.error,by rw [hc, hc']⟩
  · simp only [not_or, Bool.not_eq_true] at hidle
    obtain ⟨hk,hid⟩ := hidle
    obtain ⟨id,hid⟩ := Option.ne_none_iff_exists'.mp hid
    obtain ⟨c,e,b,p,q,hmatch⟩ := (ingested_admitted amb hid hpage).symm
    refine ⟨c,e,?_⟩
    rw [ingestPoll_eq hk hid, ingestPoll_eq hk hid]
    exact congrArg Ingest.model hmatch

theorem PollResp.withinBudgets_encode {blobs : List Bytes} (hcount : blobs.length ≤ maxPollEvents)
    (hbudget : (blobs.map List.length).sum ≤ maxPollTotalBytes) (cursor : ℤ) :
    PollResp.WithinBudgets ⟨blobs.map Hex.encode,cursor⟩ := by
  have hsized : (Ingest.sized (blobs.map Hex.encode)).Sublist (blobs.map Hex.encode) :=
    List.filter_sublist
  have hweight : Ingest.weight (blobs.map Hex.encode) = (blobs.map List.length).sum := by
    rw [Ingest.weight, List.map_map]
    refine congrArg List.sum (List.map_congr_left fun blob _ => ?_)
    have hlen : len (Hex.encode blob) = 2*blob.length := Hex.len_of_decode (Hex.decode_encode blob)
    simp only [Function.comp_apply, hlen]
    omega
  refine ⟨hsized.length_le.trans ?_,(Ingest.weight_le hsized).trans ?_⟩
  · rwa [List.length_map]
  · rwa [hweight]

theorem PollResp.admitted_encode {x : Crates} {id : Crypto.Identity} {m : Model} {blobs : List Bytes}
    {cursor : ℤ} (hid : m.identity x = some id) : PollResp.admitted x m ⟨blobs.map Hex.encode,cursor⟩ =
      ⟨(blobs.filter fun blob => (Ingest.openBytes x id blob).any fun r =>
        r.1 ≠ m.myPubkey && !m.isBlocked r.1).map Hex.encode,cursor⟩ := by
  simp only [PollResp.admitted, hid, Option.any_some, List.filter_map]
  refine congrArg (PollResp.mk · cursor) (congrArg (List.map Hex.encode) ?_)
  refine List.filter_congr fun blob _ => ?_
  rw [Function.comp_apply, Model.admits, Ingest.openBlob_encode]

/-- A page of junk, a text from a contact and one from a blocked contact. -/
def mixedPage : PollResp := ⟨([0] :: mailed [1,8]).map Hex.encode,5⟩

/-- The contact has written before. -/
def mixedReader : Model :=
  { secretKey := some sampleSecret
    myPubkey := samplePeer 3
    contacts := ((∅ : PeerMap Contact).insert (samplePeer 7) (Contact.new (samplePeer 7) "" 0)).insert
      (samplePeer 8) { Contact.new (samplePeer 8) "" 0 with blocked := true }
    messages := (∅ : PeerMap (List StoredMessage)).insert (samplePeer 7) [⟨"a","ho",700,false,false⟩]
    cursor := 3 }

theorem mixedReader_identity : mixedReader.identity .posted = some postedIdentity := by
  simp [Model.identity, mixedReader, posted_secret, Except.toOption]

/-- The junk is not opened, and the two texts are. -/
theorem mixed_texts : ∃ a b, mailed [1] = [a] ∧ mailed [1,8] = [a,b] ∧
    Ingest.openBytes .posted postedIdentity [0] = none ∧
    Ingest.openBytes .posted postedIdentity a = some (samplePeer 7,⟨900,.text "m" "hi"⟩) ∧
    Ingest.openBytes .posted postedIdentity b = some (samplePeer 8,⟨900,.text "n" "no"⟩) := by
  have hfirst : (mailed [1]).map (Ingest.openBytes .posted postedIdentity) =
      [some (samplePeer 7,⟨900,.text "m" "hi"⟩)] := by decide +kernel
  have hsecond : (mailed [8]).map (Ingest.openBytes .posted postedIdentity) =
      [some (samplePeer 8,⟨900,.text "n" "no"⟩)] := by decide +kernel
  obtain ⟨a,ha,hopena⟩ := List.map_eq_singleton_iff.mp hfirst
  obtain ⟨b,hb,hopenb⟩ := List.map_eq_singleton_iff.mp hsecond
  refine ⟨a,b,ha,?_,by decide +kernel,hopena,hopenb⟩
  have hsplit : mailed [1,8] = mailed [1] ++ mailed [8] := List.filterMap_append (l := [1])
  rw [hsplit, ha, hb, List.singleton_append]

theorem mixedPage_admitted : mixedPage.admitted .posted mixedReader = postedPage [1] := by
  obtain ⟨a,b,hfirst,hall,hjunk,hopena,hopenb⟩ := mixed_texts
  have hleft : (([0] :: mailed [1,8]).filter fun blob =>
      (Ingest.openBytes .posted postedIdentity blob).any fun r =>
        r.1 ≠ mixedReader.myPubkey && !mixedReader.isBlocked r.1) = mailed [1] := by
    have hfriend : (samplePeer 7 ≠ mixedReader.myPubkey && !mixedReader.isBlocked (samplePeer 7)) = true := by
      decide +kernel
    have hblocked : mixedReader.isBlocked (samplePeer 8) = true := by decide +kernel
    rw [hall, hfirst, List.filter_cons_of_neg (by simp [hjunk]),
      List.filter_cons_of_pos (by rw [hopena, Option.any_some, hfriend]),
      List.filter_cons_of_neg (by simp [hopenb, hblocked]), List.filter_nil]
  rw [mixedPage, PollResp.admitted_encode mixedReader_identity, hleft, postedPage]

theorem mixedPage_opened : mixedPage.opened .posted postedIdentity =
    [(samplePeer 7,⟨900,.text "m" "hi"⟩),(samplePeer 8,⟨900,.text "n" "no"⟩)] := by
  obtain ⟨a,b,-,hall,hjunk,hopena,hopenb⟩ := mixed_texts
  have hshort : (([0] :: mailed [1,8]).all fun blob => blob.length ≤ Crypto.maxBlobLen) = true := by
    decide +kernel
  have hopen : ([0] :: mailed [1,8]).filterMap (Ingest.openBytes .posted postedIdentity) =
      [(samplePeer 7,⟨900,.text "m" "hi"⟩),(samplePeer 8,⟨900,.text "n" "no"⟩)] := by
    rw [hall]
    simp [hjunk, hopena, hopenb]
  rw [mixedPage, PollResp.opened_encode .posted postedIdentity (by simpa using hshort)
    (by decide +kernel) (by decide +kernel) 5, hopen]

theorem mixedPage_filed :
    (ingestPoll .posted .sample mixedPage mixedReader).1.messages[samplePeer 7]? =
      some [⟨"a","ho",700,false,false⟩,⟨"m","hi",900,false,false⟩] := by
  have hfiled : (delivered .posted .sample [(samplePeer 7,⟨900,.text "m" "hi"⟩),
      (samplePeer 8,⟨900,.text "n" "no"⟩)] mixedReader).model.messages[samplePeer 7]? =
      some [⟨"a","ho",700,false,false⟩,⟨"m","hi",900,false,false⟩] := by decide +kernel
  obtain ⟨cursor,error,heq⟩ := ingestPoll_delivered .sample mixedPage (m := mixedReader) rfl
    mixedReader_identity
  rw [mixedPage_opened] at heq
  have hmessages : (ingestPoll .posted .sample mixedPage mixedReader).1.messages =
      (delivered .posted .sample [(samplePeer 7,⟨900,.text "m" "hi"⟩),
        (samplePeer 8,⟨900,.text "n" "no"⟩)] mixedReader).model.messages := by rw [heq]
  rw [hmessages, hfiled]

/-- What is left of the page is the text from the contact, which is taken in. -/
theorem inadmissible_mail_is_inert_mixed :
    mixedPage.admitted .posted mixedReader = postedPage [1] ∧
    (ingestPoll .posted .sample mixedPage mixedReader).1.messages[samplePeer 7]? =
      some [⟨"a","ho",700,false,false⟩,⟨"m","hi",900,false,false⟩] ∧
    ∃ cursor error, (ingestPoll .posted .sample mixedPage mixedReader).1 =
      { (ingestPoll .posted .sample (mixedPage.admitted .posted mixedReader) mixedReader).1 with
        cursor, error } :=
  ⟨mixedPage_admitted,mixedPage_filed,inadmissible_mail_is_inert .posted .sample mixedPage mixedReader
    (PollResp.withinBudgets_encode (by decide +kernel) (by decide +kernel) 5)⟩

def hexByte (n : ℕ) : UInt8 := UInt8.ofNat (Hex.digit n).toNat

/-- The JSON text of a page of blobs. -/
def pageBytes (blobs : List Bytes) : Bytes :=
  asBytes "\x7b\"cursor\":5,\"events\":[" ++
    ((blobs.map fun blob => asBytes "\x7b\"encryptedBlob\":\"" ++
      blob.flatMap (fun b => [hexByte (b.toNat/16),hexByte (b.toNat%16)]) ++
      asBytes "\"\x7d").intersperse (asBytes ",")).flatten ++ asBytes "]\x7d"

/-- What it parses to. -/
def pageJson (blobs : List Bytes) : Json :=
  .obj [("cursor",.int 5),
    ("events",.arr (blobs.map fun blob => .obj [("encryptedBlob",.str (Hex.encode blob))]))]

/-- The JSON of a page reads back. -/
theorem ofJson_events (events : List String) {cursor : ℤ} (h : i64Min ≤ cursor ∧ cursor ≤ i64Max) :
    PollResp.ofJson (.obj [("cursor",.int cursor),
      ("events",.arr (events.map fun blob => .obj [("encryptedBlob",.str blob)]))]) = some ⟨events,cursor⟩ := by
  have hevents : (events.map fun blob => Json.obj [("encryptedBlob",.str blob)]).mapM pollEventOfJson =
      some events := by
    induction events with
    | nil => rfl
    | cons blob blobs ih =>
      simp only [List.map_cons, List.mapM_cons, ih]
      rfl
  simp [PollResp.ofJson, Json.structFields, Json.asArray?, Json.asI64?, hevents, h]

theorem ofJson_page (blobs : List Bytes) :
    PollResp.ofJson (pageJson blobs) = some ⟨blobs.map Hex.encode,5⟩ := by
  have h := ofJson_events (blobs.map Hex.encode) (by decide : i64Min ≤ 5 ∧ 5 ≤ i64Max)
  rwa [List.map_map] at h

/-- The crates that open sample mail, and that parse one page of it. -/
def Crates.mailing (seqs : List UInt8) : Crates :=
  { Crates.posted with
    fromSlice := fun body =>
      if body = pageBytes (mailed seqs) then some (pageJson (mailed seqs))
      else Crates.posted.fromSlice body }

def mailResult (seqs : List UInt8) : HttpResult := .ok ⟨200,none,pageBytes (mailed seqs)⟩

theorem readPage_mailing {seqs : List UInt8}
    (h : (pageBytes (mailed seqs)).length ≤ maxPollResponseBytes) :
    readPage (.mailing seqs) ((Crates.mailing seqs).deliver (mailResult seqs)) =
      some (postedPage seqs) := by
  change readPage (.mailing seqs) (mailResult seqs) = _
  have hsuccess : isSuccess 200 = true := by decide
  simp [readPage, mailResult, hsuccess, h, Crates.mailing, ofJson_page, postedPage]

theorem mailing_identity {seqs : List UInt8} {m : Model} (h : m.secretKey = some sampleSecret) :
    m.identity (.mailing seqs) = some postedIdentity := by
  rw [Model.identity, h]
  exact congrArg Except.toOption posted_secret

namespace Ingest

theorem persist_matches (hash : HashOrder) {s t : Ingest} (h : Matches s t)
    (hk : s.model.kvLoadFailed = false) :
    (t.persist hash t.model).2 = (s.persist hash s.model).2 := by
  obtain ⟨c,e,b,p,q,rfl⟩ := h
  have hk' : (s.recount c e b p q).model.kvLoadFailed = false := hk
  have hwhen : ∀ (dirty : Bool) (f : Handler), (f (s.recount c e b p q).model).2 = (f s.model).2 →
      (Upd.when dirty f (s.recount c e b p q).model).2 = (Upd.when dirty f s.model).2 := by
    rintro (_ | _) f hf
    · rfl
    · exact hf
  have hguarded : ∀ ops : Model → List KvOp, ops (s.recount c e b p q).model = ops s.model →
      (guarded ops (s.recount c e b p q).model).2 = (guarded ops s.model).2 := by
    intro ops hops
    simp [guarded_snd, hk, hk', hops]
  rw [persist_snd hash hk, persist_snd hash hk']
  refine congrArg₂ _ (List.flatMap_congr fun p _ => hguarded _ rfl) (congrArg₂ _ ?_ (congrArg₂ _ ?_ ?_))
  all_goals exact hwhen _ _ (hguarded _ rfl)

end Ingest

/-- A page that is taken in is written down, and then the outbox is flushed. -/
theorem pollResult_cmds {x : Crates} {amb : Ambient} {m : Model} {res : HttpResult} {page : PollResp}
    {id : Crypto.Identity} (hk : m.kvLoadFailed = false) (hpage : readPage x res = some page)
    (hid : m.identity x = some id) :
    let s := ingested x amb page id { m with polling := false, pollRetries := 0 }
    ∃ cmds, (pollResult x amb m.pollGen res m).2 =
        (s.persist amb.hash s.model).2 ++ .event .startFlush :: cmds ∧
      ∀ value tag, .request (.kv (.set .outbox value) tag) ∉ cmds := by
  intro s
  rw [pollResult_page hk hpage, pollPage,
    ingestPoll_eq (m := { m with polling := false, pollRetries := 0 }) hk hid]
  refine ⟨_,List.append_assoc _ _ _,fun value tag => ?_⟩
  split <;> simp

/-- A page that the client looks at is folded into its model. -/
theorem pollResult_ingested {x : Crates} {res : HttpResult} {page : PollResp}
    {id : Crypto.Identity} {m : Model} (amb : Ambient) (hk : m.kvLoadFailed = false)
    (hpage : readPage x res = some page) (hid : m.identity x = some id) :
    (pollResult x amb m.pollGen res m).1 =
      (ingested x amb page id { m with polling := false, pollRetries := 0 }).model := by
  rw [pollResult_page hk hpage]
  change (ingestPoll x amb page { m with polling := false, pollRetries := 0 }).1 = _
  rw [ingestPoll_eq (m := { m with polling := false, pollRetries := 0 }) hk hid]

/-- A client that is to be told the result of its poll. -/
def Running.polls (ticket : ℕ) (c : Running) : Bool :=
  c.queue.isEmpty && !c.model.kvLoadFailed && match c.pending.lookup ticket with
    | some (.http _ (.pollResult gen)) => gen = c.model.pollGen
    | _ => false

theorem Running.polls_event {x : Crates} {c : Running} {ticket : ℕ}
    (h : Running.polls ticket c = true) (res : HttpResult) :
    c.event? (app x) (.answer ticket (.http res)) =
        some (.pollResult c.model.pollGen (x.deliver res)) ∧ c.model.kvLoadFailed = false := by
  simp only [Running.polls, Bool.and_eq_true, Bool.not_eq_true'] at h
  obtain ⟨⟨hq,hk⟩,hpend⟩ := h
  split at hpend
  · rename_i req gen hlookup
    obtain rfl : gen = c.model.pollGen := by simpa using hpend
    exact ⟨by simp [Core.event?, Core.take, hq, hlookup, app, answer, HttpTag.event],hk⟩
  · simp at hpend

/-- A page that it is given is taken in. -/
theorem Running.polls_step {x : Crates} {c : Running} {ticket : ℕ} {res : HttpResult}
    {page : PollResp} {id : Crypto.Identity} (amb : Ambient) (h : Running.polls ticket c = true)
    (hpage : readPage x (x.deliver res) = some page) (hid : c.model.identity x = some id) :
    ∃ d, step x c (amb,.answer ticket (.http res)) = some d ∧ d.model =
      (ingested x amb page id { c.model with polling := false, pollRetries := 0 }).model := by
  simp only [Running.polls, Bool.and_eq_true, Bool.not_eq_true'] at h
  obtain ⟨⟨hq,hk⟩,hpend⟩ := h
  split at hpend
  · rename_i req gen hlookup
    obtain rfl : gen = c.model.pollGen := by simpa using hpend
    refine ⟨(c.settle ticket).process (app x) amb (.pollResult c.model.pollGen (x.deliver res)),?_,?_⟩
    · simp [Core.step, Core.take, hq, hlookup, app, answer, HttpTag.event]
    · exact pollResult_ingested amb hk hpage hid
  · simp at hpend

end Skrepka.Client
