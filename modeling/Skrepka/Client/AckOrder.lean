import Skrepka.Client.Acks
import Skrepka.Client.Insertions

/-! The acks of a page are taken together, so that their order on the page is immaterial. -/
namespace Skrepka.Client
open Rust Mvu

def Payload.isAck : Payload → Bool
  | .deliveryAck _ => true
  | _ => false

/-- A blob that opens to acks. -/
def Model.isAck (x : Crates) (m : Model) (blob : String) : Bool :=
  (m.identity x).any fun id => (Ingest.openBlob x id blob).any fun p => p.2.payload.isAck

theorem add_comm_acks (o : Option PendingAck) (a b : ℤ × List String) :
    PendingAck.add (PendingAck.add o a) b = PendingAck.add (PendingAck.add o b) a := by
  have hmax : ∀ a b : ℤ, (if b > a then b else a) = max a b := by
    intro a b
    split <;> omega
  simp only [PendingAck.add, Option.getD_some, Option.some.injEq, PendingAck.mk.injEq, hmax]
  constructor
  · exact max_right_comm _ _ _
  · rw [Finset.union_assoc, Finset.union_comm a.2.toFinset, Finset.union_assoc]

/-- Acks taken together in any order are the same. -/
theorem foldl_add_perm {as bs : List (ℤ × List String)} (h : as.Perm bs) (o : Option PendingAck) :
    as.foldl PendingAck.add o = bs.foldl PendingAck.add o :=
  h.foldl_eq' (fun a _ b _ o => add_comm_acks o a b) o

namespace Ingest
variable {x : Crates} {hash : HashOrder} {now : ℤ}

/-- The locals with other acks pending. -/
def holding (acks : PeerMap PendingAck) (s : Ingest) : Ingest := { s with pendingAcks := acks }

theorem storeText_holding (sender : String) (ts : ℤ) (msgId body : String) (acks : PeerMap PendingAck)
    (s : Ingest) : (s.holding acks).storeText hash sender ts msgId body =
      (s.storeText hash sender ts msgId body).holding acks := by
  have hids : (s.holding acks).idSet sender = s.idSet sender := rfl
  simp only [storeText, hids]
  split <;> rfl

/-- What is not an ack has nothing to do with the acks that are pending. -/
theorem payload_holding (p : String × ParsedPayload) (hp : p.2.payload.isAck = false)
    (acks : PeerMap PendingAck) (s : Ingest) :
    (s.holding acks).payload x hash now p.1 p.2 = (s.payload x hash now p.1 p.2).holding acks := by
  obtain ⟨sender,ts,pl⟩ := p
  have hme : (s.holding acks).model.myPubkey = s.model.myPubkey := rfl
  have hblocked : (s.holding acks).model.isBlocked sender = s.model.isBlocked sender := rfl
  have hcontacts : (s.holding acks).model.contacts = s.model.contacts := rfl
  simp only [payload, hme, hblocked]
  split
  · rfl
  split
  · rfl
  cases pl with
  | deliveryAck ackIds => simp [Payload.isAck] at hp
  | text id body =>
    simp only [text, hcontacts]
    split
    · exact storeText_holding ..
    split
    · rfl
    · exact storeText_holding _ _ _ _ acks (s.addStranger x sender (clampTs now ts))
  | profile displayName bio photo =>
    simp only [profile, hcontacts]
    split
    · rfl
    split <;> rfl

/-- Acks are only put aside. -/
theorem payload_ack (p : String × ParsedPayload) (hp : p.2.payload.isAck = true) (s : Ingest) :
    ∃ acks, s.payload x hash now p.1 p.2 = s.holding acks := by
  obtain ⟨sender,ts,pl⟩ := p
  cases pl with
  | deliveryAck ackIds =>
    simp only [payload]
    split
    · exact ⟨s.pendingAcks,rfl⟩
    split
    · exact ⟨s.pendingAcks,rfl⟩
    · exact ⟨_,rfl⟩
  | text id body => simp [Payload.isAck] at hp
  | profile displayName bio photo => simp [Payload.isAck] at hp

theorem deliver_holding (ps : List (String × ParsedPayload))
    (hps : ∀ p ∈ ps, p.2.payload.isAck = false) (acks : PeerMap PendingAck) (s : Ingest) :
    deliver x hash now ps (s.holding acks) = (deliver x hash now ps s).holding acks := by
  induction ps generalizing s with
  | nil => rfl
  | cons p ps ih =>
    obtain ⟨hp,hps⟩ := List.forall_mem_cons.mp hps
    change deliver x hash now ps ((s.holding acks).payload x hash now p.1 p.2) = _
    rw [payload_holding p hp, ih hps]
    rfl

/-- But for the acks that are pending, payloads do what those among them do that are not acks. -/
theorem deliver_others (ps : List (String × ParsedPayload)) (s : Ingest) :
    ∃ acks, deliver x hash now ps s =
      (deliver x hash now (ps.filter fun p => !p.2.payload.isAck) s).holding acks := by
  induction ps generalizing s with
  | nil => exact ⟨s.pendingAcks,rfl⟩
  | cons p ps ih =>
    obtain ⟨acks,hrest⟩ := ih (s.payload x hash now p.1 p.2)
    cases hp : p.2.payload.isAck with
    | false =>
      rw [List.filter_cons_of_pos (by simp [hp])]
      exact ⟨acks,hrest⟩
    | true =>
      obtain ⟨acks',hack⟩ := @payload_ack x hash now p hp s
      rw [List.filter_cons_of_neg (by simp [hp])]
      refine ⟨acks,?_⟩
      change deliver x hash now ps (s.payload x hash now p.1 p.2) = _
      rw [hrest, hack, deliver_holding]
      · rfl
      · intro q hq
        simpa using (List.mem_filter.mp hq).2

/-- The acks that are pending for a peer, unless it is ourselves or blocked, are those that it sent. -/
theorem deliver_pending (ps : List (String × ParsedPayload)) (s : Ingest) (peer : String) :
    (deliver x hash now ps s).pendingAcks[peer]? =
      if peer ≠ s.model.myPubkey ∧ s.model.isBlocked peer = false then
        (ps.filterMap (ackFrom peer now)).foldl PendingAck.add s.pendingAcks[peer]?
      else s.pendingAcks[peer]? := by
  induction ps generalizing s with
  | nil => exact (ite_self _).symm
  | cons p ps ih =>
    have hspares := payload_spares x hash now p.1 p.2 s
    have hstep : (s.payload x hash now p.1 p.2).pendingAcks[peer]? =
        if peer ≠ s.model.myPubkey ∧ s.model.isBlocked peer = false then
          (ackFrom peer now p).elim s.pendingAcks[peer]? (PendingAck.add s.pendingAcks[peer]?)
        else s.pendingAcks[peer]? := by
      obtain ⟨sender,ts,pl⟩ := p
      cases hp : pl.isAck with
      | false =>
        have hkept : s.payload x hash now sender ⟨ts,pl⟩ =
            (s.payload x hash now sender ⟨ts,pl⟩).holding s.pendingAcks :=
          payload_holding (sender,⟨ts,pl⟩) hp s.pendingAcks s
        have hnone : ackFrom peer now (sender,⟨ts,pl⟩) = none := by
          cases pl with
          | deliveryAck ackIds => simp [Payload.isAck] at hp
          | _ => rfl
        rw [hnone, Option.elim_none, ite_self]
        have hpending : (s.payload x hash now sender ⟨ts,pl⟩).pendingAcks = s.pendingAcks := by
          rw [hkept]
          rfl
        change (s.payload x hash now sender ⟨ts,pl⟩).pendingAcks[peer]? = _
        rw [hpending]
      | true =>
        cases pl with
        | deliveryAck ackIds =>
          simp only [payload]
          by_cases hpeer : sender = peer
          · subst hpeer
            by_cases hme : sender = s.model.myPubkey
            · simp [hme]
            · cases hblocked : s.model.isBlocked sender with
              | true => simp [hme]
              | false => simp [hme, deliveryAck, ackFrom, PendingAck.add]
          · have hnone : ackFrom peer now (sender,⟨ts,.deliveryAck ackIds⟩) = none := by
              simp [ackFrom, hpeer]
            rw [hnone, Option.elim_none, ite_self]
            split
            · rfl
            split
            · rfl
            · simp [deliveryAck, Maps.getElem?_insert, hpeer]
        | text id body => simp [Payload.isAck] at hp
        | profile displayName bio photo => simp [Payload.isAck] at hp
    change (deliver x hash now ps (s.payload x hash now p.1 p.2)).pendingAcks[peer]? = _
    rw [ih, hspares.me, hspares.blocked, hstep]
    split
    · rw [List.filterMap_cons]
      cases ackFrom peer now p with
      | none => rfl
      | some ack => rfl
    · rfl

theorem payload_watermark (p : String × ParsedPayload) (s : Ingest) (peer : String) :
    (s.payload x hash now p.1 p.2).model.contacts[peer]?.map Contact.lastAckTs =
        s.model.contacts[peer]?.map Contact.lastAckTs ∨
      s.model.contacts[peer]? = none ∧
        (s.payload x hash now p.1 p.2).model.contacts[peer]?.map Contact.lastAckTs = some 0 := by
  obtain ⟨sender,ts,pl⟩ := p
  simp only [payload]
  split
  · exact .inl rfl
  split
  · exact .inl rfl
  cases pl with
  | deliveryAck ackIds => exact .inl rfl
  | text id body =>
    simp only [text]
    split
    · rw [storeText_contacts]
      exact .inl rfl
    rename_i hnew
    split
    · exact .inl rfl
    rw [storeText_contacts]
    simp only [addStranger, Maps.getElem?_insert]
    split
    · rename_i hpeer
      subst hpeer
      rw [Std.TreeMap.contains_eq_isSome_getElem?, Bool.not_eq_true,
        Option.isSome_eq_false_iff] at hnew
      exact .inr ⟨Option.isNone_iff_eq_none.mp hnew,rfl⟩
    · exact .inl rfl
  | profile displayName bio photo =>
    simp only [profile]
    split
    · exact .inl rfl
    rename_i c hc
    split
    · left
      rw [Maps.getElem?_insert]
      split
      · rename_i hpeer
        rw [← hpeer, hc]
        rfl
      · rfl
    · exact .inl rfl

/-- But for strangers, who start at zero, no payload moves a watermark. -/
theorem deliver_watermark (ps : List (String × ParsedPayload)) (s : Ingest) (peer : String) :
    (deliver x hash now ps s).model.contacts[peer]?.map Contact.lastAckTs =
        s.model.contacts[peer]?.map Contact.lastAckTs ∨
      s.model.contacts[peer]? = none ∧
        (deliver x hash now ps s).model.contacts[peer]?.map Contact.lastAckTs = some 0 := by
  induction ps generalizing s with
  | nil => exact .inl rfl
  | cons p ps ih =>
    obtain hstep | ⟨hnew,hstep⟩ := @payload_watermark x hash now p s peer
    · obtain hrest | ⟨hnew,hrest⟩ := ih (s.payload x hash now p.1 p.2)
      · exact .inl (hrest.trans hstep)
      · rw [hnew, Option.map_none] at hstep
        exact .inr ⟨Option.map_eq_none_iff.mp hstep.symm,hrest⟩
    · obtain hrest | ⟨hnone,-⟩ := ih (s.payload x hash now p.1 p.2)
      · exact .inr ⟨hnew,hrest.trans hstep⟩
      · simp [hnone] at hstep

theorem taken_of_within {processed budget : ℕ} {evs : List String}
    (hcount : processed+(sized evs).length ≤ maxPollEvents) (hweight : weight (sized evs) ≤ budget) :
    taken processed budget evs = sized evs := by
  induction evs generalizing processed budget with
  | nil => rfl
  | cons blob evs ih =>
    simp only [taken]
    split
    · rename_i hlong
      have hskip : sized (blob :: evs) = sized evs := by
        simp only [sized, List.filter_cons]
        rw [if_neg (by simpa using hlong)]
      rw [hskip] at hcount hweight
      rw [hskip, ih hcount hweight]
    · rename_i hshort
      have htake : sized (blob :: evs) = blob :: sized evs := by
        simp only [sized, List.filter_cons]
        rw [if_pos (by simpa using hshort)]
      rw [htake] at hcount hweight
      simp only [List.length_cons, weight, List.map_cons, List.sum_cons] at hcount hweight
      rw [if_neg (by omega), if_neg (by omega), htake, ih (by omega) (by rw [weight]; omega)]

theorem filterMap_sized (x : Crates) (id : Crypto.Identity) (evs : List String) :
    (sized evs).filterMap (openBlob x id) = evs.filterMap (openBlob x id) := by
  induction evs with
  | nil => rfl
  | cons blob evs ih =>
    rw [sized, List.filter_cons]
    split
    · rw [List.filterMap_cons, List.filterMap_cons, ← ih]
      rfl
    · rename_i hlong
      have hnone : openBlob x id blob = none := by
        cases ho : openBlob x id blob with
        | none => rfl
        | some r => exact absurd (len_of_openBlob ho) (by simpa using hlong)
      rw [List.filterMap_cons_none hnone, ← ih]
      rfl

end Ingest

/-- A page within its budgets delivers all that opens. -/
theorem PollResp.opened_of_within {x : Crates} {id : Crypto.Identity} {page : PollResp}
    (h : page.WithinBudgets) : page.opened x id = page.events.filterMap (Ingest.openBlob x id) := by
  rw [PollResp.opened, Ingest.taken_of_within (by simpa using h.1) h.2, Ingest.filterMap_sized]

theorem PollResp.WithinBudgets.perm {page page' : PollResp} (h : page.WithinBudgets)
    (hperm : page'.events.Perm page.events) : page'.WithinBudgets := by
  have hsized : (Ingest.sized page'.events).Perm (Ingest.sized page.events) := hperm.filter _
  have hweight : Ingest.weight (Ingest.sized page'.events) = Ingest.weight (Ingest.sized page.events) :=
    (hsized.map _).sum_eq
  exact ⟨hsized.length_eq.trans_le h.1,hweight.trans_le h.2⟩

/-- What the pending acks of a peer, if there are any, leave of it and its conversation. -/
def Ingest.settled (now : ℤ) (peer : String) (s : Ingest) :
    Option Contact × Option (List StoredMessage) :=
  (s.pendingAcks[peer]?).elim (s.model.correspondence peer)
    fun pending => settleAcks now pending (s.model.correspondence peer)

/-- What a page leaves of a contact and its conversation. -/
theorem ingestPoll_settled {x : Crates} {id : Crypto.Identity} {m : Model} (amb : Ambient)
    (page : PollResp) (hk : m.kvLoadFailed = false) (hid : m.identity x = some id) (peer : String) :
    (ingestPoll x amb page m).1.correspondence peer =
      (Ingest.deliver x amb.hash (amb.now 1) (page.opened x id) { model := m }).settled (amb.now 1)
        peer := by
  obtain ⟨c,e,hm⟩ := ingestPoll_delivered amb page hk hid
  rw [hm]
  exact Ingest.applyAcks_correspondence

/-- Acks mark messages and do nothing else to a conversation. -/
theorem Ingest.settled_marks (now : ℤ) (peer : String) (s : Ingest) :
    ∃ mark : StoredMessage → StoredMessage,
      (∀ msg, mark msg = msg ∨ mark msg = { msg with delivered := true }) ∧
      (s.settled now peer).2 = s.model.messages[peer]?.map (List.map mark) := by
  have hnone : s.model.messages[peer]? = s.model.messages[peer]?.map (List.map fun msg => msg) := by
    rw [List.map_id_fun', Option.map_id]
    rfl
  unfold settled
  cases s.pendingAcks[peer]? with
  | none => exact ⟨fun msg => msg,fun _ => .inl rfl,hnone⟩
  | some pending =>
    simp only [Option.elim_some, settleAcks]
    split
    · exact ⟨fun msg => msg,fun _ => .inl rfl,hnone⟩
    · refine ⟨fun msg => if isAcked pending msg then { msg with delivered := true } else msg,
        fun msg => ?_,rfl⟩
      by_cases hacked : isAcked pending msg = true
      · exact .inr (if_pos hacked)
      · exact .inl (if_neg hacked)

theorem Ingest.settleAcks_watermark {now : ℤ} (pending : PendingAck) (o : Option Contact)
    (convo : Option (List StoredMessage)) (ho : ∀ c, o = some c → c.lastAckTs ≤ now) :
    (∀ c, o = some c →
      ∃ c', (settleAcks now pending (o,convo)).1 = some c' ∧ c.lastAckTs ≤ c'.lastAckTs) ∧
    ∀ c', (settleAcks now pending (o,convo)).1 = some c' → c'.lastAckTs ≤ now := by
  cases o with
  | none => simp [settleAcks]
  | some c =>
    have hnow := ho c rfl
    simp only [settleAcks, Option.any_some, decide_eq_true_eq, Option.map_some]
    split
    · exact ⟨fun c hc => ⟨c,hc,le_rfl⟩,ho⟩
    · constructor
      · intro c₁ hc₁
        rw [Option.some.injEq] at hc₁
        subst hc₁
        exact ⟨_,rfl,le_min (by omega) hnow⟩
      · intro c' hc'
        rw [Option.some.injEq] at hc'
        subst hc'
        exact min_le_right _ _

/-- Acks move a watermark to no later than the present, and never back if it was not past that. -/
theorem Ingest.settled_watermark {now : ℤ} {peer : String} {s : Ingest}
    (hs : ∀ c, s.model.contacts[peer]? = some c → c.lastAckTs ≤ now) :
    (∀ c, s.model.contacts[peer]? = some c →
      ∃ c', (s.settled now peer).1 = some c' ∧ c.lastAckTs ≤ c'.lastAckTs) ∧
    ∀ c', (s.settled now peer).1 = some c' → c'.lastAckTs ≤ now := by
  unfold settled
  cases s.pendingAcks[peer]? with
  | none => exact ⟨fun c hc => ⟨c,hc,le_rfl⟩,hs⟩
  | some pending => exact settleAcks_watermark pending _ _ hs

theorem filter_opened (x : Crates) (id : Crypto.Identity) {m : Model} (hid : m.identity x = some id)
    (evs : List String) :
    (evs.filterMap (Ingest.openBlob x id)).filter (fun p => !p.2.payload.isAck) =
      (evs.filter fun blob => !m.isAck x blob).filterMap (Ingest.openBlob x id) := by
  induction evs with
  | nil => rfl
  | cons blob evs ih =>
    have hack : m.isAck x blob = (Ingest.openBlob x id blob).any fun p => p.2.payload.isAck := by
      rw [Model.isAck, hid, Option.any_some]
    cases ho : Ingest.openBlob x id blob with
    | none =>
      rw [List.filterMap_cons_none ho, List.filter_cons_of_pos (by simp [hack, ho]),
        List.filterMap_cons_none ho, ih]
    | some p =>
      rw [List.filterMap_cons_some ho]
      cases hp : p.2.payload.isAck with
      | true =>
        rw [List.filter_cons_of_neg (by simp [hp]), List.filter_cons_of_neg (by simp [hack, ho, hp]), ih]
      | false =>
        rw [List.filter_cons_of_pos (by simp [hp]), List.filter_cons_of_pos (by simp [hack, ho, hp]),
          List.filterMap_cons_some ho, ih]

/-- Pages that differ in the order of their acks leave the same contacts and conversations. -/
theorem ingestPoll_correspondence_perm {x : Crates} {page page' : PollResp} {m : Model} (amb : Ambient)
    (hpage : page.WithinBudgets) (hperm : page'.events.Perm page.events)
    (hothers : page'.events.filter (fun blob => !m.isAck x blob) =
      page.events.filter fun blob => !m.isAck x blob) (peer : String) :
    (ingestPoll x amb page' m).1.correspondence peer =
      (ingestPoll x amb page m).1.correspondence peer := by
  by_cases hidle : m.kvLoadFailed = true ∨ m.identity x = none
  · obtain ⟨c,hc⟩ := ingestPoll_idle amb page hidle
    obtain ⟨c',hc'⟩ := ingestPoll_idle amb page' hidle
    rw [hc, hc']
    rfl
  · simp only [not_or, Bool.not_eq_true] at hidle
    obtain ⟨hk,hid⟩ := hidle
    obtain ⟨id,hid⟩ := Option.ne_none_iff_exists'.mp hid
    have hopened : (page'.opened x id).Perm (page.opened x id) := by
      rw [PollResp.opened_of_within hpage, PollResp.opened_of_within (hpage.perm hperm)]
      exact hperm.filterMap _
    have hothers' : (page'.opened x id).filter (fun p => !p.2.payload.isAck) =
        (page.opened x id).filter fun p => !p.2.payload.isAck := by
      rw [PollResp.opened_of_within hpage, PollResp.opened_of_within (hpage.perm hperm),
        filter_opened x id hid, filter_opened x id hid, hothers]
    have hmodel : (Ingest.deliver x amb.hash (amb.now 1) (page'.opened x id) { model := m }).model =
        (Ingest.deliver x amb.hash (amb.now 1) (page.opened x id) { model := m }).model := by
      obtain ⟨acks,h⟩ := @Ingest.deliver_others x amb.hash (amb.now 1) (page.opened x id) { model := m }
      obtain ⟨acks',h'⟩ := @Ingest.deliver_others x amb.hash (amb.now 1) (page'.opened x id) { model := m }
      rw [h, h', hothers']
      rfl
    have hpending : (Ingest.deliver x amb.hash (amb.now 1) (page'.opened x id)
          { model := m }).pendingAcks[peer]? =
        (Ingest.deliver x amb.hash (amb.now 1) (page.opened x id) { model := m }).pendingAcks[peer]? := by
      rw [Ingest.deliver_pending, Ingest.deliver_pending, foldl_add_perm (hopened.filterMap _)]
    rw [ingestPoll_settled amb page hk hid, ingestPoll_settled amb page' hk hid, Ingest.settled,
      Ingest.settled, hmodel, hpending]

/-- Acks mark messages delivered and do nothing else to a conversation. -/
theorem ingestPoll_marks (x : Crates) (amb : Ambient) (page : PollResp) (m : Model) (peer : String) :
    ∃ mark : StoredMessage → StoredMessage,
      (∀ msg, mark msg = msg ∨ mark msg = { msg with delivered := true }) ∧
      (ingestPoll x amb page m).1.convo peer = ((m.pageAdditions x amb page peer).foldl
        (fun convo msg => trimHistory (insertSorted convo msg)) (m.convo peer)).map mark := by
  by_cases hidle : m.kvLoadFailed = true ∨ m.identity x = none
  · obtain ⟨c,hc⟩ := ingestPoll_idle amb page hidle
    refine ⟨id,fun _ => .inl rfl,?_⟩
    rw [hc, Model.pageAdditions_idle amb page peer hidle, List.map_id]
    rfl
  · simp only [not_or, Bool.not_eq_true] at hidle
    obtain ⟨hk,hid⟩ := hidle
    obtain ⟨id,hid⟩ := Option.ne_none_iff_exists'.mp hid
    obtain ⟨hconvo,-⟩ := @Ingest.deliver_additions x amb.hash (amb.now 1) peer (page.opened x id)
      { model := m }
    obtain ⟨mark,hmark,hsettled⟩ := (Ingest.deliver x amb.hash (amb.now 1) (page.opened x id)
      { model := m }).settled_marks (amb.now 1) peer
    rw [← ingestPoll_settled amb page hk hid] at hsettled
    refine ⟨mark,hmark,?_⟩
    change ((ingestPoll x amb page m).1.correspondence peer).2.getD [] = _
    rw [hsettled, Model.pageAdditions_eq amb page peer hk hid]
    refine Eq.trans ?_ (congrArg (List.map mark) hconvo)
    rw [Model.convo]
    cases (Ingest.deliver x amb.hash (amb.now 1) (page.opened x id)
      { model := m }).model.messages[peer]? with
    | none => rfl
    | some convo => rfl

/-- Under a clock that is past all watermarks, none of them goes back or passes it. -/
theorem ingestPoll_watermark {x : Crates} {amb : Ambient} {page : PollResp} {m : Model}
    (hnow : 0 ≤ amb.now 1)
    (hm : ∀ (peer : String) c, m.contacts[peer]? = some c → c.lastAckTs ≤ amb.now 1) (peer : String) :
    (∀ c, m.contacts[peer]? = some c →
      ∃ c', (ingestPoll x amb page m).1.contacts[peer]? = some c' ∧ c.lastAckTs ≤ c'.lastAckTs) ∧
    ∀ c', (ingestPoll x amb page m).1.contacts[peer]? = some c' → c'.lastAckTs ≤ amb.now 1 := by
  by_cases hidle : m.kvLoadFailed = true ∨ m.identity x = none
  · obtain ⟨c,hc⟩ := ingestPoll_idle amb page hidle
    rw [hc]
    exact ⟨fun c hc => ⟨c,hc,le_rfl⟩,hm peer⟩
  · simp only [not_or, Bool.not_eq_true] at hidle
    obtain ⟨hk,hid⟩ := hidle
    obtain ⟨id,hid⟩ := Option.ne_none_iff_exists'.mp hid
    have hview := congrArg Prod.fst (ingestPoll_settled amb page hk hid peer)
    change (ingestPoll x amb page m).1.contacts[peer]? = _ at hview
    rw [hview]
    let s := Ingest.deliver x amb.hash (amb.now 1) (page.opened x id) { model := m }
    have hmarks : s.model.contacts[peer]?.map Contact.lastAckTs =
        m.contacts[peer]?.map Contact.lastAckTs ∨
      m.contacts[peer]? = none ∧ s.model.contacts[peer]?.map Contact.lastAckTs = some 0 :=
      Ingest.deliver_watermark (page.opened x id) { model := m } peer
    have hs : ∀ c, s.model.contacts[peer]? = some c → c.lastAckTs ≤ amb.now 1 := by
      intro c hc
      rw [hc, Option.map_some] at hmarks
      obtain hold | ⟨-,hnew⟩ := hmarks
      · obtain ⟨c₀,hc₀,heq⟩ := Option.map_eq_some_iff.mp hold.symm
        exact heq ▸ hm peer c₀ hc₀
      · rw [Option.some.injEq] at hnew
        exact hnew ▸ hnow
    obtain ⟨hkept,hbound⟩ := Ingest.settled_watermark hs
    refine ⟨fun c hc => ?_,hbound⟩
    rw [hc] at hmarks
    obtain hold | ⟨hnew,-⟩ := hmarks
    · obtain ⟨c₁,hc₁,heq⟩ := Option.map_eq_some_iff.mp hold
      exact heq ▸ hkept c₁ hc₁
    · exact absurd hnew (Option.some_ne_none c)

/-- Pages within their budgets that differ only in how their acks are placed leave the same contacts and
conversations behind. No ack takes a delivered mark back, and while the clock is past all watermarks, no
page takes one back or past the clock. -/
theorem ack_order (x : Crates) (amb : Ambient) (page : PollResp) (m : Model) :
    (page.WithinBudgets → ∀ page' : PollResp, page'.events.Perm page.events →
      page'.events.filter (fun blob => !m.isAck x blob) =
        page.events.filter (fun blob => !m.isAck x blob) →
      ∀ peer : String, (ingestPoll x amb page' m).1.contacts[peer]? =
          (ingestPoll x amb page m).1.contacts[peer]? ∧
        (ingestPoll x amb page' m).1.messages[peer]? = (ingestPoll x amb page m).1.messages[peer]?) ∧
    (∀ peer, ∃ mark : StoredMessage → StoredMessage,
      (∀ msg, mark msg = msg ∨ mark msg = { msg with delivered := true }) ∧
      (ingestPoll x amb page m).1.convo peer = ((m.pageAdditions x amb page peer).foldl
        (fun convo msg => trimHistory (insertSorted convo msg)) (m.convo peer)).map mark) ∧
    (0 ≤ amb.now 1 → (∀ (peer : String) c, m.contacts[peer]? = some c → c.lastAckTs ≤ amb.now 1) →
      ∀ peer : String, (∀ c, m.contacts[peer]? = some c →
          ∃ c', (ingestPoll x amb page m).1.contacts[peer]? = some c' ∧ c.lastAckTs ≤ c'.lastAckTs) ∧
        ∀ c', (ingestPoll x amb page m).1.contacts[peer]? = some c' → c'.lastAckTs ≤ amb.now 1) := by
  refine ⟨fun hpage page' hperm hothers peer => ?_,ingestPoll_marks x amb page m,
    fun hnow hm => ingestPoll_watermark hnow hm⟩
  have h := ingestPoll_correspondence_perm amb hpage hperm hothers peer
  exact ⟨congrArg Prod.fst h,congrArg Prod.snd h⟩

/-- The acks of two messages on one page, in either order. -/
theorem ack_order_two :
    (∀ peer : String, (ingestPoll .posted .sample (postedPage [6,5]) awaiting).1.messages[peer]? =
      (ingestPoll .posted .sample (postedPage [5,6]) awaiting).1.messages[peer]?) ∧
    ∀ (peer : String) c',
      (ingestPoll .posted .sample (postedPage [5,6]) awaiting).1.contacts[peer]? = some c' →
      c'.lastAckTs ≤ 1000 := by
  obtain ⟨hperm,-,hmarks⟩ := ack_order .posted .sample (postedPage [5,6]) awaiting
  have hacks : ∀ seqs : List UInt8,
      ((mailed seqs).all fun blob =>
        (Ingest.openBytes .posted postedIdentity blob).any fun p => p.2.payload.isAck) = true →
      (postedPage seqs).events.filter (fun blob => !awaiting.isAck .posted blob) = [] := by
    intro seqs hall
    rw [List.filter_eq_nil_iff]
    intro blob hblob
    obtain ⟨bytes,hbytes,rfl⟩ := List.mem_map.mp hblob
    have hack := List.all_eq_true.mp hall bytes hbytes
    simpa [Model.isAck, awaiting_receives.identity, Ingest.openBlob_encode] using hack
  constructor
  · have hswap : (mailed [6,5]).Perm (mailed [5,6]) := List.Perm.swap _ _ _
    intro peer
    refine (hperm ?_ (postedPage [6,5]) (hswap.map Hex.encode) ?_ peer).2
    · exact PollResp.withinBudgets_encode (by decide) (by decide +kernel) 5
    · rw [hacks [6,5] (by decide +kernel), hacks [5,6] (by decide +kernel)]
  · intro peer
    refine (hmarks (by decide) (fun peer c hc => ?_) peer).2
    simp only [awaiting, Maps.getElem?_insert] at hc
    split at hc
    · rw [Option.some.injEq] at hc
      subst hc
      decide
    · simp at hc

end Skrepka.Client
