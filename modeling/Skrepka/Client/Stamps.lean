import Skrepka.Client.Broadcast
import Skrepka.Client.HalfLoaded
import Skrepka.Client.Replays

/-! The profiles that are queued for a peer, or put in the place of a queued one, and the times that
they are stamped with. -/
namespace Skrepka.Client
open Rust Mvu Queue

/-- One of our profiles on its way into the queue. -/
structure Stamp where
  peer : String
  ts : ℤ
  profile : OwnProfile
  deriving DecidableEq

def Stamp.json (x : Crates) (s : Stamp) : String :=
  Protocol.serializePayload x
    (.profile (some s.profile.displayName) (some s.profile.bio) s.profile.photo) s.ts

def Stamp.item (x : Crates) (s : Stamp) : OutboxItem := .profile s.peer (s.json x)

theorem Stamp.item_for (x : Crates) (s : Stamp) (peer : String) :
    (s.item x).profileFor peer = true ↔ s.peer = peer := by
  simp only [item, OutboxItem.profileFor, OutboxItem.isProfile, OutboxItem.profile, OutboxItem.new,
    decide_true, Bool.true_and]
  exact decide_eq_true_iff

def Payload.isText : Payload → Bool
  | .text _ _ => true
  | _ => false

namespace Ingest

/-- A payload makes its sender a contact. -/
def greets (m : Model) (p : String × ParsedPayload) : Bool :=
  p.1 ≠ m.myPubkey && !m.isBlocked p.1 && p.2.payload.isText && !m.contacts.contains p.1 &&
    m.contacts.size < maxContacts

/-- The payloads that do so when all are delivered. -/
def strangers (x : Crates) (hash : HashOrder) (now : ℤ) :
    List (String × ParsedPayload) → Ingest → List (String × ParsedPayload)
  | [], _ => []
  | p :: ps, s => (if greets s.model p then [p] else []) ++
      strangers x hash now ps (s.payload x hash now p.1 p.2)

/-- The profile that goes out in return. -/
def greeting (now : ℤ) (profile : OwnProfile) (p : String × ParsedPayload) : Stamp :=
  ⟨p.1,clampTs now p.2.ts,profile⟩

variable {x : Crates} {hash : HashOrder} {now : ℤ}

theorem storeText_outbox (hash : HashOrder) (sender : String) (ts : ℤ) (msgId body : String) (s : Ingest) :
    (s.storeText hash sender ts msgId body).model.outbox = s.model.outbox ∧
      (s.storeText hash sender ts msgId body).model.profile = s.model.profile := by
  simp only [storeText]
  split <;> exact ⟨rfl,rfl⟩

/-- A payload queues nothing but the profile for a new contact. -/
theorem payload_outbox (x : Crates) (hash : HashOrder) (now : ℤ) (p : String × ParsedPayload) (s : Ingest) :
    (s.payload x hash now p.1 p.2).model.outbox = s.model.outbox ++
        (if greets s.model p then [p] else []).map
          (fun p => (greeting now s.model.profile p).item x) ∧
      (s.payload x hash now p.1 p.2).model.profile = s.model.profile := by
  obtain ⟨sender,ts,pl⟩ := p
  simp only [payload]
  split
  · rename_i hme
    simp [greets, hme]
  rename_i hme
  split
  · rename_i hblocked
    simp [greets, hblocked]
  rename_i hblocked
  cases pl with
  | text id body =>
    simp only [text]
    split
    · rename_i hknown
      obtain ⟨ho,hp⟩ := storeText_outbox hash sender (clampTs now ts) id body s
      simp [greets, hknown, ho, hp]
    rename_i hknown
    split
    · rename_i hfull
      simp [greets, Nat.not_lt.mpr hfull]
    · rename_i hroom
      obtain ⟨ho,hp⟩ := storeText_outbox hash sender (clampTs now ts) id body
        (s.addStranger x sender (clampTs now ts))
      have hgreets : greets s.model (sender,⟨ts,.text id body⟩) = true := by
        simp only [greets, Payload.isText, Bool.and_eq_true, decide_eq_true_eq, ne_eq,
          Bool.not_eq_true']
        exact ⟨⟨⟨⟨hme,by simpa using hblocked⟩,trivial⟩,(Bool.not_eq_true _).mp hknown⟩,by omega⟩
      rw [ho, hp, hgreets]
      exact ⟨rfl,rfl⟩
  | deliveryAck ackIds => simp [greets, Payload.isText, deliveryAck]
  | profile displayName bio photo =>
    have hkept : (s.profile now sender (clampTs now ts) displayName bio photo).model.outbox =
        s.model.outbox ∧ (s.profile now sender (clampTs now ts) displayName bio photo).model.profile =
          s.model.profile := by
      simp only [profile]
      split
      · exact ⟨rfl,rfl⟩
      split <;> exact ⟨rfl,rfl⟩
    simp [greets, Payload.isText, hkept]

theorem deliver_outbox (ps : List (String × ParsedPayload)) (s : Ingest) :
    (deliver x hash now ps s).model.outbox = s.model.outbox ++
        (strangers x hash now ps s).map (fun p => (greeting now s.model.profile p).item x) ∧
      (deliver x hash now ps s).model.profile = s.model.profile := by
  induction ps generalizing s with
  | nil => simp [deliver, strangers]
  | cons p ps ih =>
    obtain ⟨ho,hp⟩ := payload_outbox x hash now p s
    obtain ⟨ho',hp'⟩ := ih (s.payload x hash now p.1 p.2)
    refine ⟨?_,hp'.trans hp⟩
    change (deliver x hash now ps (s.payload x hash now p.1 p.2)).model.outbox = _
    rw [ho', ho, hp, strangers, List.map_append, List.append_assoc]

/-- Payloads forget no contact, and make one of whom they greet. -/
theorem payload_contains (p : String × ParsedPayload) (s : Ingest) {peer : String}
    (h : s.model.contacts.contains peer = true ∨ greets s.model p = true ∧ p.1 = peer) :
    (s.payload x hash now p.1 p.2).model.contacts.contains peer = true := by
  obtain ⟨sender,ts,pl⟩ := p
  have hold : greets s.model (sender,⟨ts,pl⟩) = false → s.model.contacts.contains peer = true := by
    intro hno
    obtain h | ⟨h,-⟩ := h
    · exact h
    · simp [hno] at h
  simp only [payload]
  split
  · rename_i hme
    exact hold (by simp [greets, hme])
  split
  · rename_i hblocked
    exact hold (by simp [greets, hblocked])
  cases pl with
  | text id body =>
    simp only [text]
    split
    · rename_i hknown
      rw [storeText_contacts]
      exact hold (by simp [greets, hknown])
    split
    · rename_i hfull
      exact hold (by simp [greets, Nat.not_lt.mpr hfull])
    · rw [storeText_contacts]
      change (s.model.contacts.insert sender _).contains peer = true
      rw [Std.TreeMap.contains_insert]
      obtain h | ⟨-,rfl⟩ := h
      · simp [h]
      · simp
  | deliveryAck ackIds => exact hold (by simp [greets, Payload.isText])
  | profile displayName bio photo =>
    have hpeer := hold (by simp [greets, Payload.isText])
    simp only [profile]
    split
    · exact hpeer
    split
    · change (s.model.contacts.insert sender _).contains peer = true
      rw [Std.TreeMap.contains_insert, hpeer, Bool.or_true]
    · exact hpeer

/-- No stranger is greeted twice. -/
theorem strangers_distinct (ps : List (String × ParsedPayload)) (s : Ingest) :
    (strangers x hash now ps s).Pairwise (fun p q => p.1 ≠ q.1) ∧
      ∀ p ∈ strangers x hash now ps s, s.model.contacts.contains p.1 = false := by
  induction ps generalizing s with
  | nil => simp [strangers]
  | cons p ps ih =>
    obtain ⟨hdistinct,hnew⟩ := ih (s.payload x hash now p.1 p.2)
    have hrest : ∀ q ∈ strangers x hash now ps (s.payload x hash now p.1 p.2),
        s.model.contacts.contains q.1 = false ∧ (greets s.model p = true → p.1 ≠ q.1) := by
      intro q hq
      have hq' := hnew q hq
      constructor
      · by_contra hknown
        rw [payload_contains p s (.inl ((Bool.not_eq_false _).mp hknown))] at hq'
        exact absurd hq' (by simp)
      · intro hgreets heq
        rw [payload_contains p s (.inr ⟨hgreets,heq⟩)] at hq'
        exact absurd hq' (by simp)
    simp only [strangers]
    cases hgreets : greets s.model p with
    | false => exact ⟨by simpa using hdistinct,by simpa using fun a b hq => (hrest (a,b) hq).1⟩
    | true =>
      refine ⟨?_,fun q hq => ?_⟩
      · exact List.pairwise_cons.mpr ⟨fun q hq => (hrest q hq).2 hgreets,hdistinct⟩
      · obtain rfl | hq := List.mem_cons.mp hq
        · simp only [greets, Bool.and_eq_true, Bool.not_eq_true'] at hgreets
          exact hgreets.1.2
        · exact (hrest q hq).1

theorem applyAcks_outbox (now : ℤ) (s : Ingest) :
    (s.applyAcks now).model.outbox = s.model.outbox := by
  have hone : ∀ (s : Ingest) (pending : String × PendingAck),
      (s.applyAck now pending).model.outbox = s.model.outbox := by
    intro s pending
    have hmark : ∀ s : Ingest, (s.markConvo pending.1 pending.2).model.outbox = s.model.outbox := by
      intro s
      unfold markConvo
      split
      · rfl
      split <;> rfl
    unfold applyAck
    split
    · rfl
    · rw [hmark]
      unfold ackWatermark
      simp only
      split <;> rfl
  unfold applyAcks
  induction s.pendingAcks.toList generalizing s with
  | nil => rfl
  | cons a pending ih => exact (ih (s.applyAck now a)).trans (hone s a)

end Ingest

/-- The payloads of an event that make their senders contacts. -/
def Event.greeters (x : Crates) (amb : Ambient) (e : Event) (m : Model) :
    List (String × ParsedPayload) :=
  match e.takesIn x m with
  | some (page,id) => Ingest.strangers x amb.hash (amb.now 1) (page.opened x id)
      { model := { m with polling := false, pollRetries := 0 } }
  | none => []

/-- The profiles that an event queues or puts in the place of queued ones, in that order. -/
def profileStamps (x : Crates) (amb : Ambient) (e : Event) (m : Model) : List Stamp :=
  match e with
  | .saveProfile displayName bio photo =>
    if e.accepted x m then m.audience.map fun peer => ⟨peer,amb.now 0,⟨displayName,bio,photo⟩⟩
    else []
  | .sendText =>
    if e.accepted x m then
      (m.activePeer.toList.filter fun peer => !m.contacts.contains peer).map fun peer =>
        ⟨peer,amb.now 0,m.profile⟩
    else []
  | e => (e.greeters x amb m).map (Ingest.greeting (amb.now 1) m.profile)

section
variable {x : Crates} {amb : Ambient} {m : Model}

theorem greeters_page {e : Event} {page : PollResp} {id : Crypto.Identity}
    (h : e.takesIn x m = some (page,id)) : e.greeters x amb m =
      Ingest.strangers x amb.hash (amb.now 1) (page.opened x id)
        { model := { m with polling := false, pollRetries := 0 } } := by
  simp [Event.greeters, h]

/-- The result of a poll queues profiles for new contacts, and acks behind them. -/
theorem pollResult_outbox (x : Crates) (amb : Ambient) (gen : UInt64) (res : HttpResult) (m : Model) :
    ∃ acks, (∀ i ∈ acks, i.isProfile = false) ∧ (pollResult x amb gen res m).1.outbox =
      m.outbox ++ (profileStamps x amb (.pollResult gen res) m).map (Stamp.item x) ++ acks := by
  cases htake : (Event.pollResult gen res).takesIn x m with
  | none =>
    refine ⟨[],by simp,?_⟩
    simp only [profileStamps, Event.greeters, htake, List.map_nil, List.append_nil]
    obtain ⟨_,_,_,_,_,_,hm⟩ | ⟨page,id,rfl,hk,hp,hid,-⟩ := pollResult_cases x amb gen res m
    · rw [hm]
    · simp [takesIn_eq_some.mpr ⟨rfl,hk,hp,hid⟩] at htake
  | some taken =>
    obtain ⟨page,id⟩ := taken
    obtain ⟨rfl,hk,hp,hid⟩ := takesIn_eq_some.mp htake
    let m' : Model := { m with polling := false, pollRetries := 0 }
    let s := Ingest.deliver x amb.hash (amb.now 1) (page.opened x id) { model := m' }
    obtain ⟨_,_,_,_,_,hmatch⟩ := ingested_delivered x amb page id m'
    have hout : (ingested x amb page id m').model.outbox =
        s.model.outbox ++ (s.applyAcks (amb.now 1)).ackTargets.toList.flatMap
          (Ingest.ackItems x (amb.now 2)) := by
      rw [hmatch, ← Ingest.applyAcks_outbox (amb.now 1) s]
      rfl
    refine ⟨(s.applyAcks (amb.now 1)).ackTargets.toList.flatMap (Ingest.ackItems x (amb.now 2)),
      fun i hi => ?_,?_⟩
    · obtain ⟨target,-,hi⟩ := List.mem_flatMap.mp hi
      obtain ⟨ids,-,rfl⟩ := List.mem_map.mp hi
      rfl
    · rw [pollResult_ingested amb hk hp hid, hout, (Ingest.deliver_outbox _ _).1]
      simp only [profileStamps, greeters_page htake, List.map_map]
      rfl

theorem sendText_outbox (x : Crates) (amb : Ambient) (m : Model) :
    ∃ texts, (∀ i ∈ texts, i.isProfile = false) ∧ (sendText x amb m).1.outbox =
      m.outbox ++ texts ++ (profileStamps x amb .sendText m).map (Stamp.item x) := by
  cases haccepted : Event.sendText.accepted x m with
  | false =>
    obtain ⟨_,_,h⟩ := update_refused amb (x := x) (e := .sendText) rfl haccepted
    refine ⟨[],by simp,?_⟩
    change (update x amb .sendText m).1.outbox = _
    rw [h]
    simp [profileStamps, haccepted]
  | true =>
    have hchecks := haccepted
    simp only [Event.accepted, Option.any_eq_true, Bool.and_eq_true, Bool.or_eq_true,
      Bool.not_eq_true', decide_eq_true_eq] at hchecks
    obtain ⟨peer,hpeer,⟨⟨hblocked,hbody⟩,hlen⟩,hroom⟩ := hchecks
    have hfull : ¬(¬m.contacts.contains peer = true ∧ m.contacts.size ≥ maxContacts) := by
      rintro ⟨hnew,hsize⟩
      obtain hknown | hroom := hroom
      · exact hnew hknown
      · omega
    let m' : Model := { m with error := none }
    have hwritten : (sendText x amb m).1.outbox =
        (m'.writeText x (amb.now 0) amb.uuid peer (trim m.compose)).outbox := by
      simp only [sendText, hpeer]
      rw [if_neg (by simpa [Model.isBlocked] using hblocked), if_neg hbody, if_neg (by omega),
        if_neg hfull]
      simp only [Upd.and_fst, Upd.emit_fst, persistMessages_fst, persistContacts_fst,
        persistOutbox_fst, Model.refused_refused, refused_outbox, m', hpeer]
    let text := OutboxItem.new peer
      (Protocol.serializePayload x (.text amb.uuid (trim m.compose)) (amb.now 0))
    refine ⟨[text],by simp [text, OutboxItem.new, OutboxItem.isProfile],?_⟩
    rw [hwritten]
    cases hknown : m.contacts.contains peer with
    | true =>
      simp only [Model.writeText, m', hknown, profileStamps, haccepted]
      simp [hpeer, hknown, text]
    | false =>
      simp only [Model.writeText, m', hknown, profileStamps, haccepted]
      simp [hpeer, hknown, text, Stamp.item, Stamp.json, ownProfile]

theorem accepted_withinCaps {displayName bio : String} {photo : Option String}
    (h : (Event.saveProfile displayName bio photo).accepted x m = true) :
    (Payload.profile (some displayName) (some bio) photo).withinCaps x = true := by
  by_contra hexceeds
  have hover := (profile_exceeds (x := x) (some displayName) (some bio) photo).mpr hexceeds
  simp only [Event.accepted, Bool.and_eq_true, Bool.not_eq_true', decide_eq_true_eq] at h
  obtain ⟨⟨⟨hname,hbio⟩,hphoto⟩,hdecodes⟩ := h
  simp only [Option.any_some, decide_eq_true_eq, hphoto, hdecodes, Bool.false_eq_true,
    or_false] at hover
  omega

theorem saveProfile_outbox (x : Crates) (amb : Ambient) (displayName bio : String)
    (photo : Option String) (m : Model) :
    ∃ json, (∀ s ∈ profileStamps x amb (.saveProfile displayName bio photo) m, s.json x = json) ∧
      (saveProfile x amb displayName bio photo m).1.outbox = m.outbox.take m.inFlightCount ++
        ((profileStamps x amb (.saveProfile displayName bio photo) m).map Stamp.peer).foldl
          (fun queue peer => supersede json peer queue) (m.outbox.drop m.inFlightCount) := by
  cases haccepted : (Event.saveProfile displayName bio photo).accepted x m with
  | false =>
    obtain ⟨_,_,h⟩ := update_refused amb (x := x) (e := .saveProfile displayName bio photo) rfl haccepted
    refine ⟨"",by simp [profileStamps, haccepted],?_⟩
    change (update x amb (.saveProfile displayName bio photo) m).1.outbox = _
    rw [h]
    simp [profileStamps, haccepted]
  | true =>
    refine ⟨Protocol.serializePayload x (.profile (some displayName) (some bio) photo) (amb.now 0),
      ?_,?_⟩
    · intro s hs
      simp only [profileStamps, haccepted, if_true, List.mem_map] at hs
      obtain ⟨peer,-,rfl⟩ := hs
      rfl
    · have hpeers : (profileStamps x amb (.saveProfile displayName bio photo) m).map Stamp.peer =
          m.audience := by
        simp only [profileStamps, haccepted, if_true, List.map_map]
        exact List.map_id _
      rw [saveProfile_accepted amb (accepted_withinCaps haccepted), refused_outbox, hpeers]
      rfl

theorem mem_foldl_supersede {json : String} {peers : List String} {queue : List OutboxItem}
    {i : OutboxItem} (hi : i ∈ peers.foldl (fun queue peer => supersede json peer queue) queue) :
    i ∈ queue ∨ i.recipient ∈ peers ∧ i.envelopeJson = json := by
  induction peers generalizing queue with
  | nil => exact .inl hi
  | cons peer peers ih =>
    obtain hi | ⟨hrest,hjson⟩ := ih hi
    · change i ∈ supersede json peer queue at hi
      rw [supersede_eq] at hi
      obtain hold | rfl | ⟨j,-,hj,rfl⟩ := mem_upsert hi
      · exact .inl hold
      · exact .inr ⟨List.mem_cons_self,rfl⟩
      · simp only [OutboxItem.profileFor, Bool.and_eq_true, decide_eq_true_eq] at hj
        exact .inr ⟨List.mem_cons.mpr (.inl hj.2),rfl⟩
    · exact .inr ⟨List.mem_cons_of_mem peer hrest,hjson⟩

/-- A profile in the queue was there before with the same payload, or has its stamp. -/
theorem update_stamped {e : Event} (he : ∀ res, e ≠ .loadedOutbox res) {i : OutboxItem}
    (hi : i ∈ (update x amb e m).1.outbox) (hprofile : i.isProfile = true) :
    (∃ j ∈ m.outbox, Kin j i) ∨
      ∃ s ∈ profileStamps x amb e m, s.peer = i.recipient ∧ s.json x = i.envelopeJson := by
  have hold : e.queuesItems = false →
      (∃ j ∈ m.outbox, Kin j i) ∨
        ∃ s ∈ profileStamps x amb e m, s.peer = i.recipient ∧ s.json x = i.envelopeJson := by
    intro hq
    obtain ⟨j,hj,hr,hk,hjson⟩ | ⟨hadds,-⟩ := (update_evolves he).mem hi
    · refine .inl ⟨j,hj,hr,hk,hjson.resolve_right fun hsaves => ?_⟩
      cases e <;> simp [Event.savesProfile, Event.queuesItems] at hsaves hq
    · simp [hq] at hadds
  cases e with
  | sendText =>
    obtain ⟨texts,htexts,hout⟩ := sendText_outbox x amb m
    change i ∈ (sendText x amb m).1.outbox at hi
    rw [hout, List.append_assoc, List.mem_append, List.mem_append] at hi
    obtain hi | hi | hi := hi
    · exact .inl ⟨i,hi,.refl i⟩
    · simp [htexts i hi] at hprofile
    · obtain ⟨s,hs,rfl⟩ := List.mem_map.mp hi
      exact .inr ⟨s,hs,rfl,rfl⟩
  | pollResult gen res =>
    obtain ⟨acks,hacks,hout⟩ := pollResult_outbox x amb gen res m
    change i ∈ (pollResult x amb gen res m).1.outbox at hi
    rw [hout, List.mem_append, List.mem_append] at hi
    obtain (hi | hi) | hi := hi
    · exact .inl ⟨i,hi,.refl i⟩
    · obtain ⟨s,hs,rfl⟩ := List.mem_map.mp hi
      exact .inr ⟨s,hs,rfl,rfl⟩
    · simp [hacks i hi] at hprofile
  | saveProfile displayName bio photo =>
    obtain ⟨json,hjson,hout⟩ := saveProfile_outbox x amb displayName bio photo m
    change i ∈ (saveProfile x amb displayName bio photo m).1.outbox at hi
    rw [hout, List.mem_append] at hi
    obtain hi | hi := hi
    · exact .inl ⟨i,List.mem_of_mem_take hi,.refl i⟩
    · obtain hi | ⟨hpeer,hi⟩ := mem_foldl_supersede hi
      · exact .inl ⟨i,List.mem_of_mem_drop hi,.refl i⟩
      · obtain ⟨s,hs,hs'⟩ := List.mem_map.mp hpeer
        exact .inr ⟨s,hs,hs',(hjson s hs).trans hi.symm⟩
  | _ => exact hold rfl

/-- Every stamp is that of a profile in the queue. -/
theorem stamp_queued {e : Event} {s : Stamp} (hs : s ∈ profileStamps x amb e m) :
    ∃ i ∈ (update x amb e m).1.outbox, i.profileFor s.peer = true ∧ i.envelopeJson = s.json x := by
  cases e with
  | sendText =>
    obtain ⟨texts,-,hout⟩ := sendText_outbox x amb m
    refine ⟨s.item x,?_,(s.item_for x _).mpr rfl,rfl⟩
    change s.item x ∈ (sendText x amb m).1.outbox
    rw [hout]
    exact List.mem_append_right _ (List.mem_map_of_mem hs)
  | pollResult gen res =>
    obtain ⟨acks,-,hout⟩ := pollResult_outbox x amb gen res m
    refine ⟨s.item x,?_,(s.item_for x _).mpr rfl,rfl⟩
    change s.item x ∈ (pollResult x amb gen res m).1.outbox
    rw [hout]
    exact List.mem_append_left _ (List.mem_append_right _ (List.mem_map_of_mem hs))
  | saveProfile displayName bio photo =>
    simp only [profileStamps] at hs
    split at hs
    · rename_i haccepted
      obtain ⟨peer,hpeer,rfl⟩ := List.mem_map.mp hs
      exact saveProfile_queues amb (accepted_withinCaps haccepted) hpeer
    · simp at hs
  | _ => simp [profileStamps, Event.greeters, Event.takesIn] at hs

end

/-- An observer who writes down the stamps of every step. -/
def noteStamps (x : Crates) (c : Running) (l : Label) (_ : Running) (log : List Stamp) :
    List Stamp :=
  log ++ ((c.event? (app x) l.2).map (profileStamps x l.1 · c.model)).getD []

abbrev stepStamping (x : Crates) : Running × List Stamp → Label → Option (Running × List Stamp) :=
  Lts.watch (step x) (noteStamps x)

/-- The local clock does not run backwards, from reading to reading and from step to step. -/
def ClockOnward (ls : List Label) : Prop :=
  (∀ l ∈ ls, ∀ j k, j ≤ k → l.1.now j ≤ l.1.now k) ∧
    ls.Pairwise fun l l' => ∀ k, l.1.now k ≤ l'.1.now 0

/-- For each peer the times go up. -/
def Chronological (log : List Stamp) : Prop :=
  log.Pairwise fun s s' => s.peer = s'.peer → s.ts ≤ s'.ts

/-- A text that makes its sender a contact is no newer than our clock, and no older than a profile
that was queued for that sender before. -/
def Timely (x : Crates) (s : Running × List Stamp) (l : Label) : Prop :=
  ∀ e ∈ s.1.event? (app x) l.2, ∀ p ∈ e.greeters x l.1 s.1.model,
    Ingest.clampTs (l.1.now 1) p.2.ts ≤ l.1.now 1 ∧
    ∀ s' ∈ s.2, s'.peer = p.1 → s'.ts ≤ Ingest.clampTs (l.1.now 1) p.2.ts

section
variable {x : Crates}

theorem greeters_distinct (x : Crates) (amb : Ambient) (e : Event) (m : Model) :
    (e.greeters x amb m).Pairwise fun p q => p.1 ≠ q.1 := by
  unfold Event.greeters
  split
  · exact (Ingest.strangers_distinct _ _).1
  · exact List.Pairwise.nil

/-- What one event adds to the log keeps it in order, and is no newer than the clock. -/
theorem profileStamps_chronological {amb : Ambient} {m : Model} {e : Event} {log : List Stamp}
    (hnow : ∀ j k, j ≤ k → amb.now j ≤ amb.now k) (hlog : Chronological log) (hpast : ∀ s ∈ log, s.ts ≤ amb.now 0)
    (htimely : ∀ p ∈ e.greeters x amb m, Ingest.clampTs (amb.now 1) p.2.ts ≤ amb.now 1 ∧
      ∀ s ∈ log, s.peer = p.1 → s.ts ≤ Ingest.clampTs (amb.now 1) p.2.ts) :
    Chronological (log ++ profileStamps x amb e m) ∧
      ∀ s ∈ profileStamps x amb e m, s.ts ≤ amb.now 1 := by
  have hfresh : (∀ s ∈ profileStamps x amb e m, s.ts = amb.now 0) →
      Chronological (log ++ profileStamps x amb e m) ∧
        ∀ s ∈ profileStamps x amb e m, s.ts ≤ amb.now 1 := by
    intro hts
    refine ⟨List.pairwise_append.mpr ⟨hlog,?_,fun s hs s' hs' _ => ?_⟩,fun s hs => ?_⟩
    · exact List.pairwise_of_forall_mem_list fun s hs s' hs' _ => (hts s hs).trans_le (hts s' hs').ge
    · exact (hpast s hs).trans (hts s' hs').ge
    · exact (hts s hs).trans_le (hnow 0 1 (by omega))
  have hgreet : profileStamps x amb e m = (e.greeters x amb m).map
      (Ingest.greeting (amb.now 1) m.profile) → Chronological (log ++ profileStamps x amb e m) ∧
        ∀ s ∈ profileStamps x amb e m, s.ts ≤ amb.now 1 := by
    intro heq
    rw [heq]
    refine ⟨List.pairwise_append.mpr ⟨hlog,?_,fun s hs s' hs' hpeer => ?_⟩,fun s hs => ?_⟩
    · refine List.pairwise_map.mpr ((greeters_distinct x amb e m).imp ?_)
      intro p q hne hpeer
      exact absurd hpeer hne
    · obtain ⟨p,hp,rfl⟩ := List.mem_map.mp hs'
      exact (htimely p hp).2 s hs hpeer
    · obtain ⟨p,hp,rfl⟩ := List.mem_map.mp hs
      exact (htimely p hp).1
  cases e with
  | saveProfile displayName bio photo =>
    refine hfresh fun s hs => ?_
    simp only [profileStamps] at hs
    split at hs
    · obtain ⟨peer,-,rfl⟩ := List.mem_map.mp hs
      rfl
    · simp at hs
  | sendText =>
    refine hfresh fun s hs => ?_
    simp only [profileStamps] at hs
    split at hs
    · obtain ⟨peer,-,rfl⟩ := List.mem_map.mp hs
      rfl
    · simp at hs
  | _ => exact hgreet rfl

theorem chronological_run {ls : List Label} {c d : Running} {log log' : List Stamp}
    (hclock : ClockOnward ls) (hlog : Chronological log)
    (hpast : ∀ s ∈ log, ∀ l ∈ ls, s.ts ≤ l.1.now 0)
    (htimely : Lts.Along (stepStamping x) (Timely x) (c,log) ls)
    (hrun : Lts.run (stepStamping x) (c,log) ls = some (d,log')) : Chronological log' := by
  induction ls generalizing c log with
  | nil =>
    obtain ⟨-,rfl⟩ := Prod.mk.inj (Option.some.inj hrun)
    exact hlog
  | cons l ls ih =>
    obtain ⟨⟨c₁,log₁⟩,hstep,hrun⟩ := (Lts.run_cons_eq_some _).mp hrun
    obtain ⟨hnow,hlater⟩ := hclock
    obtain ⟨hl,hls⟩ := List.pairwise_cons.mp hlater
    have hnote : log₁ = noteStamps x c l c₁ log := (Lts.watch_eq_some _ hstep).2
    have hkeeps : Chronological log₁ ∧ ∀ s ∈ log₁, s ∈ log ∨ s.ts ≤ l.1.now 1 := by
      rw [hnote, noteStamps]
      cases he : c.event? (app x) l.2 with
      | none => simpa using ⟨hlog,fun s hs => .inl hs⟩
      | some e =>
        obtain ⟨hordered,hbound⟩ := profileStamps_chronological (x := x) (e := e)
          (hnow l List.mem_cons_self) hlog (fun s hs => hpast s hs l List.mem_cons_self)
          (htimely.1 e he)
        refine ⟨hordered,fun s hs => (List.mem_append.mp hs).imp id (hbound s)⟩
    refine ih ⟨fun l' hl' => hnow l' (List.mem_cons_of_mem l hl'),hls⟩ hkeeps.1
      (fun s hs l' hl' => ?_) (htimely.2 _ hstep) hrun
    obtain hs | hs := hkeeps.2 s hs
    · exact hpast s hs l' (List.mem_cons_of_mem l hl')
    · exact hs.trans (hl l' hl' 1)

/-- A recipient of profiles in the order of their times finds none older than one before it. -/
theorem Chronological.accepted {log : List Stamp} (h : Chronological log) {peer : String}
    {arrivals : List ProfileArrival}
    (hts : arrivals.map ProfileArrival.ts = (log.filter fun s => s.peer = peer).map Stamp.ts)
    (hnow : (arrivals.map ProfileArrival.now).Pairwise (· ≤ ·)) :
    arrivals.Pairwise fun e a => e.stamp ≤ a.clamped := by
  have hsame : (log.filter fun s => s.peer = peer).Pairwise fun s s' => s.ts ≤ s'.ts := by
    refine (h.filter _).imp_of_mem fun hs hs' hle => hle ?_
    rw [List.mem_filter, decide_eq_true_eq] at hs hs'
    exact hs.2.trans hs'.2.symm
  have htimes : arrivals.Pairwise fun e a => e.ts ≤ a.ts := by
    have := List.pairwise_map.mpr hsame
    rw [← hts] at this
    exact List.pairwise_map.mp this
  refine (htimes.and (List.pairwise_map.mp hnow)).imp fun hle => ?_
  exact (min_le_left _ _).trans (clampTs_mono hle.2 hle.1)

/-- In a run whose clock does not run backwards, and in which those who become contacts by writing
to us write in time, the times of the profiles that are queued for a peer never run backwards, also
after those of earlier runs. The peer finds none of them older than one before it. -/
theorem profile_times_in_order {ls : List Label} {c : Running} {log log' : List Stamp}
    (hclock : ClockOnward ls) (hlog : Chronological log)
    (hpast : ∀ s ∈ log, ∀ l ∈ ls, s.ts ≤ l.1.now 0)
    (htimely : Lts.Along (stepStamping x) (Timely x) (boot x,log) ls)
    (hrun : Lts.run (stepStamping x) (boot x,log) ls = some (c,log')) :
    Chronological log' ∧ ∀ peer (arrivals : List ProfileArrival),
      arrivals.map ProfileArrival.ts = (log'.filter fun s => s.peer = peer).map Stamp.ts →
      (arrivals.map ProfileArrival.now).Pairwise (· ≤ ·) →
      arrivals.Pairwise fun e a => e.stamp ≤ a.clamped := by
  have h := chronological_run hclock hlog hpast htimely hrun
  exact ⟨h,fun peer arrivals hts hnow => h.accepted hts hnow⟩

end

/-- Online with one contact, who is sent a profile and then deleted. -/
def sampleParting : List (Action Event Answer) :=
  [.shell (.identityLoaded sampleSecret),.answer 0 (.kv (.ok none)),.answer 1 (.kv (.ok none)),
    .answer 2 (.kv (.ok (some (.contacts [Contact.new (samplePeer 7) "" 0])))),
    .answer 3 (.kv (.ok none)),.answer 4 (.kv (.ok none)),.answer 6 (.kv (.ok none)),
    .answer 5 (.kv (.ok none)),.drain,.drain,.answer 7 (sampleOk challengeText),
    .answer 9 (sampleOk tokenText),.drain,.drain,.shell (.saveProfile "n" "" none),.drain,
    .answer 15 (sampleOk ""),.shell (.deleteContact (samplePeer 7))]

theorem mailed_text : (postedPage [1]).opened (.mailing [1]) postedIdentity =
    [(samplePeer 7,⟨900,.text "m" "hi"⟩)] := postedPage_opened (by decide +kernel) (by decide +kernel)

/-- A client that does not know the sender of that text. -/
def Running.unacquainted (ticket : ℕ) (c : Running) : Bool :=
  Running.polls ticket c && c.model.secretKey = some sampleSecret && c.model.contacts.isEmpty &&
    c.model.myPubkey ≠ samplePeer 7

/-- The text makes its sender a contact. -/
theorem unacquainted_greets {c : Running} {ticket : ℕ} (h : c.unacquainted ticket = true) :
    let l : Label := (.sample,.answer ticket (.http (mailResult [1])))
    ∃ d e, step (.mailing [1]) c l = some d ∧ c.event? (app (.mailing [1])) l.2 = some e ∧
      e.greeters (.mailing [1]) .sample c.model = [(samplePeer 7,⟨900,.text "m" "hi"⟩)] ∧
      profileStamps (.mailing [1]) .sample e c.model = [⟨samplePeer 7,900,c.model.profile⟩] := by
  simp only [Running.unacquainted, Bool.and_eq_true, decide_eq_true_eq] at h
  obtain ⟨⟨⟨hpolls,hsecret⟩,hempty⟩,hme⟩ := h
  have hpage : readPage (.mailing [1]) ((Crates.mailing [1]).deliver (mailResult [1])) =
      some (postedPage [1]) := readPage_mailing (by decide +kernel)
  have hid : c.model.identity (.mailing [1]) = some postedIdentity := mailing_identity hsecret
  obtain ⟨d,hd,-⟩ := Running.polls_step .sample hpolls hpage hid
  obtain ⟨he,hk⟩ := Running.polls_event (x := .mailing [1]) hpolls (mailResult [1])
  set result := (Crates.mailing [1]).deliver (mailResult [1])
  have htake : (Event.pollResult c.model.pollGen result).takesIn (.mailing [1]) c.model =
      some (postedPage [1],postedIdentity) := takesIn_eq_some.mpr ⟨rfl,hk,hpage,hid⟩
  have hgreeters : (Event.pollResult c.model.pollGen result).greeters (.mailing [1]) .sample
      c.model = [(samplePeer 7,⟨900,.text "m" "hi"⟩)] := by
    have hnew : c.model.contacts.contains (samplePeer 7) = false :=
      Std.TreeMap.contains_of_isEmpty hempty
    have hblocked : c.model.isBlocked (samplePeer 7) = false := by
      simp [Model.isBlocked, Std.TreeMap.getElem?_of_isEmpty hempty]
    have hsize : c.model.contacts.size < maxContacts := by
      rw [Std.TreeMap.isEmpty_eq_size_eq_zero, beq_iff_eq] at hempty
      rw [hempty]
      decide
    have hgreets : Ingest.greets { c.model with polling := false, pollRetries := 0 }
        (samplePeer 7,⟨900,.text "m" "hi"⟩) = true := by
      simp only [Ingest.greets, Payload.isText, Bool.and_eq_true, decide_eq_true_eq,
        Bool.not_eq_true']
      exact ⟨⟨⟨⟨hme.symm,hblocked⟩,trivial⟩,hnew⟩,hsize⟩
    rw [greeters_page htake, mailed_text]
    simp only [Ingest.strangers]
    rw [hgreets]
    rfl
  refine ⟨d,_,hd,he,hgreeters,?_⟩
  simp only [profileStamps, hgreeters, List.map_singleton]
  rfl

theorem sample_clock (acts : List (Action Event Answer)) : ClockOnward (sampleLabels acts) := by
  have hsample : ∀ l ∈ sampleLabels acts, l.1 = Ambient.sample := by
    intro l hl
    obtain ⟨act,-,rfl⟩ := List.mem_map.mp hl
    rfl
  refine ⟨fun l hl => ?_,List.pairwise_of_forall_mem_list fun l hl l' hl' k => ?_⟩
  · rw [hsample l hl]
    exact fun _ _ _ => le_rfl
  · rw [hsample l hl, hsample l' hl']
    exact le_rfl

/-- A profile that went out at 1000 is followed by one with the time of the text, which is 900. -/
theorem profile_times_run_back : ∃ c log,
    ClockOnward (sampleLabels (sampleParting ++ [.answer 10 (.http (mailResult [1]))])) ∧
    Lts.run (stepStamping (.mailing [1])) (boot (.mailing [1]),[])
      (sampleLabels (sampleParting ++ [.answer 10 (.http (mailResult [1]))])) = some (c,log) ∧
    log.map (fun s => (s.peer,s.ts)) = [(samplePeer 7,1000),(samplePeer 7,900)] ∧
    ¬Chronological log := by
  have hrun : (Lts.run (stepStamping (.mailing [1])) (boot (.mailing [1]),[])
      (sampleLabels sampleParting)).any (fun s => Running.unacquainted 10 s.1 &&
        s.2.map (fun s => (s.peer,s.ts)) = [(samplePeer 7,1000)]) = true := by decide +kernel
  simp only [Option.any_eq_true, Bool.and_eq_true, decide_eq_true_eq, Prod.exists] at hrun
  obtain ⟨c,log,hc,hnew,hlog⟩ := hrun
  obtain ⟨d,e,hd,he,-,hstamps⟩ := unacquainted_greets hnew
  have hnote := Lts.watch_of_step (step (.mailing [1])) (noteStamps (.mailing [1]))
    (s := (c,log)) hd
  have hlog' : (noteStamps (.mailing [1]) c (.sample,.answer 10 (.http (mailResult [1]))) d log).map
      (fun s => (s.peer,s.ts)) = [(samplePeer 7,1000),(samplePeer 7,900)] := by
    simp only [noteStamps, he, Option.map_some, Option.getD_some, hstamps, List.map_append, hlog]
    rfl
  refine ⟨d,_,sample_clock _,?_,hlog',fun hlog => ?_⟩
  · rw [sampleLabels, List.map_append]
    exact Lts.run_append_eq_some _ hc (Lts.run_single _ hnote)
  · have hpairs : ([(samplePeer 7,1000),(samplePeer 7,900)] : List (String × ℤ)).Pairwise
        fun a b => a.1 = b.1 → a.2 ≤ b.2 := hlog' ▸ List.pairwise_map.mpr hlog
    simp at hpairs

theorem greeters_other {x : Crates} {amb : Ambient} {e : Event} {m : Model}
    (h : isPollResult e = false) : e.greeters x amb m = [] := by
  cases e with
  | pollResult gen res => simp [isPollResult] at h
  | _ => rfl

/-- A text from somebody who was sent no profile before is in time. -/
theorem profile_times_in_order_greeting : ∃ c log,
    Lts.run (stepStamping (.mailing [1])) (boot (.mailing [1]),[])
      (sampleLabels (sampleOnline ++ [.answer 11 (.http (mailResult [1]))])) = some (c,log) ∧
    log.map (fun s => (s.peer,s.ts)) = [(samplePeer 7,900)] ∧ Chronological log := by
  have hrun : (Lts.run (stepStamping (.mailing [1])) (boot (.mailing [1]),[])
      (sampleLabels sampleOnline)).any (fun s => Running.unacquainted 11 s.1 && s.2 = []) = true := by
    decide
  simp only [Option.any_eq_true, Bool.and_eq_true, decide_eq_true_eq, Prod.exists] at hrun
  obtain ⟨c,log,hc,hnew,rfl⟩ := hrun
  obtain ⟨d,e,hd,he,hgreeters,hstamps⟩ := unacquainted_greets hnew
  let l : Label := (.sample,.answer 11 (.http (mailResult [1])))
  have hnote := Lts.watch_of_step (step (.mailing [1])) (noteStamps (.mailing [1]))
    (s := (c,[])) hd
  have hlog : noteStamps (.mailing [1]) c l d [] = [⟨samplePeer 7,900,c.model.profile⟩] := by
    simp only [noteStamps, l, he, Option.map_some, Option.getD_some, hstamps, List.nil_append]
  have hquiet : Core.Meets (app (.mailing [1])) (fun _ e _ => isPollResult e = false)
      (boot (.mailing [1])) (sampleLabels sampleOnline) := by decide
  have hfront : Lts.Along (stepStamping (.mailing [1])) (Timely (.mailing [1]))
      (boot (.mailing [1]),[]) (sampleLabels sampleOnline) := by
    refine Lts.Along.mono _ (fun s l hl e he p hp => ?_) (Lts.Along.watch _ hquiet)
    simp [greeters_other (hl e he)] at hp
  have hback : Timely (.mailing [1]) (c,[]) l := by
    intro e' he' p hp
    obtain rfl : e = e' := Option.some.inj (he.symm.trans he')
    rw [show Event.greeters _ l.1 e c.model = _ from hgreeters] at hp
    obtain rfl := List.mem_singleton.mp hp
    exact ⟨by decide,by simp⟩
  have hall : Lts.run (stepStamping (.mailing [1])) (boot (.mailing [1]),[])
      (sampleLabels sampleOnline ++ [l]) = some (d,noteStamps (.mailing [1]) c l d []) :=
    Lts.run_append_eq_some _ hc (Lts.run_single _ hnote)
  have hlabels : sampleLabels (sampleOnline ++ [.answer 11 (.http (mailResult [1]))]) =
      sampleLabels sampleOnline ++ [l] := List.map_append
  refine ⟨d,_,by rw [hlabels]; exact hall,by rw [hlog]; rfl,?_⟩
  refine (profile_times_in_order (hlabels ▸ sample_clock _) List.Pairwise.nil (by simp) ?_ hall).1
  exact Lts.along_append_of_run _ hfront hc ⟨hback,fun _ _ => trivial⟩

end Skrepka.Client
