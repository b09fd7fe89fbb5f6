import Skrepka.Client.Deliveries
import Skrepka.Lib.Watermark

/-! Which of our messages are marked delivered when a peer's acks have all arrived, in whatever
order and on whatever pages. -/
namespace Skrepka.Client
open Rust Mvu

/-- The acks that a page brings from one peer: their latest clamped time, the ids that they name,
and the clock when they are applied. -/
structure AckArrival where
  now : ℤ
  ts : ℤ
  ids : List String
  deriving DecidableEq

def AckArrival.mark (a : AckArrival) : Watermark.Mark ℤ := ⟨a.ts,a.now⟩

/-- The acks of one page, if there are any. -/
def ackArrival (now : ℤ) : List (ℤ × List String) → Option AckArrival
  | [] => none
  | acks => some ⟨now,acks.foldl (fun ts ack => max ts ack.1) 0,acks.flatMap Prod.snd⟩

theorem ackArrival_cons (now : ℤ) (ack : ℤ × List String) (acks : List (ℤ × List String)) :
    ackArrival now (ack :: acks) = some ⟨now,(ack :: acks).foldl (fun ts ack => max ts ack.1) 0,
      (ack :: acks).flatMap Prod.snd⟩ := rfl

/-- The acks that come from a peer, page by page. -/
def ackArrivals (x : Crates) (id : Crypto.Identity) (peer : String)
    (pages : List (Ambient × PollResp)) : List AckArrival :=
  pages.filterMap fun page => ackArrival (page.1.now 1)
    ((page.2.opened x id).filterMap (ackFrom peer (page.1.now 1)))

theorem foldl_add (acks : List (ℤ × List String)) (p : PendingAck) :
    ∃ ids, acks.foldl PendingAck.add (some p) =
      some ⟨acks.foldl (fun ts ack => max ts ack.1) p.ts,ids⟩ ∧
      ∀ i, i ∈ ids ↔ i ∈ p.ids ∨ i ∈ acks.flatMap Prod.snd := by
  induction acks generalizing p with
  | nil => exact ⟨p.ids,rfl,by simp⟩
  | cons ack acks ih =>
    have hmax : (if ack.1 > p.ts then ack.1 else p.ts) = max p.ts ack.1 := by
      split <;> omega
    obtain ⟨ids,heq,hmem⟩ := ih ⟨max p.ts ack.1,p.ids ∪ ack.2.toFinset⟩
    refine ⟨ids,?_,fun i => ?_⟩
    · rw [List.foldl_cons, PendingAck.add, Option.getD_some, hmax]
      exact heq
    · rw [hmem i]
      simp [or_assoc]

/-- Acks taken together are those of the page. -/
theorem foldl_add_none {acks : List (ℤ × List String)} (now : ℤ) :
    (acks = [] ∧ acks.foldl PendingAck.add none = none ∧ ackArrival now acks = none) ∨
    ∃ pending a, acks.foldl PendingAck.add none = some pending ∧
      ackArrival now acks = some a ∧ a.now = now ∧ a.ts = pending.ts ∧
      ∀ i, i ∈ pending.ids ↔ i ∈ a.ids := by
  cases acks with
  | nil => exact .inl ⟨rfl,rfl,rfl⟩
  | cons ack acks =>
    obtain ⟨ids,heq,hmem⟩ := foldl_add (ack :: acks) {}
    refine .inr ⟨_,_,heq,rfl,rfl,rfl,fun i => ?_⟩
    simp [hmem i]

/-- Some arrival that was let through names a message of ours. -/
def Acked (w : ℤ) (arrivals : List AckArrival) (msg : StoredMessage) : Bool :=
  msg.outgoing && (Watermark.passed AckArrival.mark w arrivals).any (fun a => msg.id ∈ a.ids)

/-- A message after the acks that were let through. -/
def StoredMessage.settle (w : ℤ) (arrivals : List AckArrival) (msg : StoredMessage) :
    StoredMessage := { msg with delivered := msg.delivered || Acked w arrivals msg }

theorem settle_of_none {w : ℤ} {arrivals : List AckArrival}
    (h : Watermark.passed AckArrival.mark w arrivals = []) :
    StoredMessage.settle w arrivals = id := by
  funext msg
  simp [StoredMessage.settle, Acked, h]

theorem settle_settle (w : ℤ) (as bs : List AckArrival) (msg : StoredMessage) :
    (msg.settle w as).settle (Watermark.level AckArrival.mark w as) bs =
      msg.settle w (as ++ bs) := by
  have hsplit : Acked w (as ++ bs) msg =
      (Acked w as msg || Acked (Watermark.level AckArrival.mark w as) bs msg) := by
    simp [Acked, Watermark.passed_append, Bool.and_or_distrib_left]
  rw [StoredMessage.settle, StoredMessage.settle, StoredMessage.settle, hsplit, ← Bool.or_assoc]
  rfl

/-- A contact and its conversation after acks. -/
structure Settles (peer : String) (arrivals : List AckArrival) (m : Model) (c : Contact)
    (m' : Model) (c' : Contact) : Prop where
  contact : m'.contacts[peer]? = some c'
  unblocked : c'.blocked = c.blocked
  watermark : c'.lastAckTs = Watermark.level AckArrival.mark c.lastAckTs arrivals
  messages : m'.messages[peer]? =
    m.messages[peer]?.map (List.map (StoredMessage.settle c.lastAckTs arrivals))

theorem Settles.trans {peer : String} {as bs : List AckArrival} {m₁ m₂ m₃ : Model}
    {c₁ c₂ c₃ : Contact} (h₁ : Settles peer as m₁ c₁ m₂ c₂) (h₂ : Settles peer bs m₂ c₂ m₃ c₃) :
    Settles peer (as ++ bs) m₁ c₁ m₃ c₃ where
  contact := h₂.contact
  unblocked := h₂.unblocked.trans h₁.unblocked
  watermark := by rw [h₂.watermark, h₁.watermark, Watermark.level_append]
  messages := by
    rw [h₂.messages, h₁.messages, h₁.watermark, Option.map_map]
    congr 1
    funext convo
    simp [settle_settle]

theorem markDelivered_settle {pending : PendingAck} {a : AckArrival} {w : ℤ} (ha : w ≤ a.ts)
    (hids : ∀ i, i ∈ pending.ids ↔ i ∈ a.ids) (convo : List StoredMessage) :
    Ingest.markDelivered pending convo = convo.map (StoredMessage.settle w [a]) := by
  refine List.map_congr_left fun msg _ => ?_
  have hacked : Acked w [a] msg = (msg.outgoing && decide (msg.id ∈ pending.ids)) := by
    simp [Acked, Watermark.passed, AckArrival.mark, ha, hids]
  rw [StoredMessage.settle, hacked]
  unfold Ingest.isAcked
  obtain ⟨id,body,ts,outgoing,delivered⟩ := msg
  cases outgoing <;> cases delivered <;> by_cases hid : id ∈ pending.ids <;> simp [hid]

theorem receives_keeps {peer : String} (now : ℤ) (c : Contact)
    (ps : List (String × ParsedPayload)) :
    (ps.foldl (Contact.receive peer now) c).blocked = c.blocked ∧
      (ps.foldl (Contact.receive peer now) c).lastAckTs = c.lastAckTs := by
  induction ps generalizing c with
  | nil => exact ⟨rfl,rfl⟩
  | cons p ps ih => simpa using ih (c.receive peer now p)

/-- Applying the acks of a page settles the messages that they name, unless they are stale. -/
theorem settleAcks_eq {pending : PendingAck} {a : AckArrival} (hts : a.ts = pending.ts)
    (hids : ∀ i, i ∈ pending.ids ↔ i ∈ a.ids) (c : Contact)
    (convo : Option (List StoredMessage)) :
    Ingest.settleAcks a.now pending (some c,convo) =
      (some { c with lastAckTs := Watermark.level AckArrival.mark c.lastAckTs [a] },
        convo.map (List.map (StoredMessage.settle c.lastAckTs [a]))) := by
  by_cases hpass : c.lastAckTs ≤ a.ts
  · have hfresh : ¬pending.ts < c.lastAckTs := by omega
    have hlevel : Watermark.level AckArrival.mark c.lastAckTs [a] = min pending.ts a.now := by
      rw [← hts]
      exact if_pos hpass
    have hmark : Ingest.markDelivered pending =
        List.map (StoredMessage.settle c.lastAckTs [a]) :=
      funext fun convo => markDelivered_settle hpass hids convo
    simp [Ingest.settleAcks, hfresh, hlevel, hmark]
  · have hstale : pending.ts < c.lastAckTs := by omega
    have hlevel : Watermark.level AckArrival.mark c.lastAckTs [a] = c.lastAckTs := if_neg hpass
    have hnone : Watermark.passed AckArrival.mark c.lastAckTs [a] = [] := by
      simp [Watermark.passed, AckArrival.mark, hpass]
    simp [Ingest.settleAcks, hstale, hlevel, settle_of_none hnone]

/-- What a page without texts from a peer does to its conversation. -/
theorem ingestPoll_settles {x : Crates} {id : Crypto.Identity} {m : Model} (h : Receives x id m)
    (page : Ambient × PollResp) {peer : String} {c : Contact}
    (hc : m.contacts[peer]? = some c) (hb : c.blocked = false) (hme : peer ≠ m.myPubkey)
    (hno : ∀ p ∈ page.2.opened x id, NoText peer p) :
    ∃ c', Settles peer (ackArrivals x id peer [page]) m c (ingestPoll x page.1 page.2 m).1 c' := by
  obtain ⟨convo,hconvo,hpage⟩ := ingestPoll_correspondence h page.1 page.2 hc hb hme
  obtain rfl := hconvo hno
  obtain ⟨hblocked,hwater⟩ :=
    receives_keeps (page.1.now 1) c (page.2.opened x id)
  generalize (page.2.opened x id).foldl (Contact.receive peer (page.1.now 1)) c = c₁
    at hpage hblocked hwater
  have hlist : ackArrivals x id peer [page] = (ackArrival (page.1.now 1)
      ((page.2.opened x id).filterMap (ackFrom peer (page.1.now 1)))).toList := by
    unfold ackArrivals
    cases ha : ackArrival (page.1.now 1) _ <;> simp [ha]
  rw [hlist]
  unfold pendingFrom at hpage
  obtain ⟨-,hnone,ha⟩ | ⟨pending,a,hsome,ha,hnow,hts,hids⟩ := foldl_add_none
    (page.1.now 1)
  · rw [hnone] at hpage
    refine ⟨c₁,congrArg Prod.fst hpage,hblocked,by rw [ha]; exact hwater,?_⟩
    rw [ha, Option.toList_none, settle_of_none rfl, List.map_id_fun, Option.map_id]
    exact congrArg Prod.snd hpage
  · simp only [hsome, Option.elim_some] at hpage
    rw [← hnow, settleAcks_eq hts hids c₁, hwater] at hpage
    rw [ha]
    exact ⟨_,congrArg Prod.fst hpage,hblocked,rfl,congrArg Prod.snd hpage⟩

/-- What pages without texts from a peer do to its conversation. -/
theorem ingestAll_settles {x : Crates} {id : Crypto.Identity} {m : Model} (h : Receives x id m)
    {peer : String} {c : Contact} (pages : List (Ambient × PollResp))
    (hc : m.contacts[peer]? = some c) (hb : c.blocked = false) (hme : peer ≠ m.myPubkey)
    (hno : ∀ page ∈ pages, ∀ p ∈ page.2.opened x id, NoText peer p) :
    ∃ c', Settles peer (ackArrivals x id peer pages) m c (ingestAll x pages m) c' := by
  induction pages generalizing m c with
  | nil =>
    refine ⟨c,hc,rfl,rfl,?_⟩
    rw [ackArrivals, List.filterMap_nil, settle_of_none rfl, List.map_id_fun, Option.map_id]
    rfl
  | cons page pages ih =>
    obtain ⟨c₁,hfirst⟩ := ingestPoll_settles h page hc hb hme (hno page List.mem_cons_self)
    obtain ⟨h',hme'⟩ := h.ingestPoll page.1 page.2
    obtain ⟨c₂,hrest⟩ := ih h' hfirst.contact (hfirst.unblocked.trans hb) (hme'.symm ▸ hme)
      fun q hq => hno q (List.mem_cons_of_mem _ hq)
    have hsplit : ackArrivals x id peer (page :: pages) =
        ackArrivals x id peer [page] ++ ackArrivals x id peer pages := by
      simp only [ackArrivals, List.filterMap_cons, List.filterMap_nil]
      split <;> simp
    exact ⟨c₂,hsplit ▸ hfirst.trans hrest⟩

/-- A message is named on a page whose acks are not stale: the latest of their times is not below
the watermark that the pages before it leave. -/
def FreshlyAcked (w : ℤ) (arrivals : List AckArrival) (msg : StoredMessage) : Prop :=
  ∃ before a after, arrivals = before ++ a :: after ∧
    Watermark.level AckArrival.mark w before ≤ a.ts ∧ msg.id ∈ a.ids

theorem acked_iff {w : ℤ} {arrivals : List AckArrival} {msg : StoredMessage} :
    Acked w arrivals msg = true ↔ msg.outgoing = true ∧ FreshlyAcked w arrivals msg := by
  simp only [Acked, Bool.and_eq_true, List.any_eq_true, decide_eq_true_eq, Watermark.mem_passed,
    FreshlyAcked]
  constructor
  · rintro ⟨hout,a,⟨before,after,hsplit,hpass⟩,hid⟩
    exact ⟨hout,before,a,after,hsplit,hpass,hid⟩
  · rintro ⟨hout,before,a,after,hsplit,hpass,hid⟩
    exact ⟨hout,a,⟨before,after,hsplit,hpass⟩,hid⟩

/-- What acks make of a message: it is marked delivered if it was already, or if it is ours and
named on a page whose acks are not stale. -/
def Delivers (w : ℤ) (arrivals : List AckArrival) (msg msg' : StoredMessage) : Prop :=
  msg' = { msg with delivered := msg'.delivered } ∧
    (msg'.delivered = true ↔
      msg.delivered = true ∨ msg.outgoing = true ∧ FreshlyAcked w arrivals msg)

theorem settle_delivers (w : ℤ) (arrivals : List AckArrival) (msg : StoredMessage) :
    Delivers w arrivals msg (msg.settle w arrivals) := by
  refine ⟨rfl,?_⟩
  rw [← acked_iff]
  exact (Bool.or_eq_true _ _).to_iff

/-- The watermark under acks that arrive in the order of their times does not shut any of them out,
as no clock moves it past them. -/
theorem freshlyAcked_of_sorted {w : ℤ} {arrivals : List AckArrival}
    (hw : ∀ a ∈ arrivals, w ≤ a.ts) (hsorted : arrivals.Pairwise (fun a b => a.ts ≤ b.ts))
    {msg : StoredMessage} (hnamed : ∃ a ∈ arrivals, msg.id ∈ a.ids) :
    FreshlyAcked w arrivals msg := by
  obtain ⟨a,ha,hid⟩ := hnamed
  obtain ⟨before,after,rfl⟩ := List.append_of_mem ha
  refine ⟨before,a,after,rfl,?_,hid⟩
  have hbefore : ∀ e ∈ before, e.ts ≤ a.ts := fun e he =>
    (List.pairwise_append.mp hsorted).2.2 e he a List.mem_cons_self
  have hwa := hw a ha
  clear hw hsorted ha
  induction before generalizing w with
  | nil => exact hwa
  | cons e before ih =>
    refine ih (fun e he => hbefore e (List.mem_cons_of_mem _ he)) ?_
    unfold Watermark.advance
    split
    · exact (min_le_left _ _).trans (hbefore e List.mem_cons_self)
    · exact hwa

/-- Once pages have brought a peer's acks, in any order and under any clock, the messages of the
conversation that are marked delivered are those that were before, and those of ours that are
named on a page whose acks are not stale when it arrives. Acks that arrive in the order of their
times are never stale. -/
theorem acks_deliver {x : Crates} {id : Crypto.Identity} {m : Model} (h : Receives x id m)
    {peer : String} {c : Contact} (pages : List (Ambient × PollResp))
    (hc : m.contacts[peer]? = some c) (hb : c.blocked = false) (hme : peer ≠ m.myPubkey)
    (hno : ∀ page ∈ pages, ∀ p ∈ page.2.opened x id, NoText peer p) :
    List.Forall₂ (Delivers c.lastAckTs (ackArrivals x id peer pages))
      (m.messages[peer]?.getD []) ((ingestAll x pages m).messages[peer]?.getD []) ∧
    ((∀ a ∈ ackArrivals x id peer pages, c.lastAckTs ≤ a.ts) →
      (ackArrivals x id peer pages).Pairwise (fun a b => a.ts ≤ b.ts) →
      ∀ msg, (∃ a ∈ ackArrivals x id peer pages, msg.id ∈ a.ids) →
        FreshlyAcked c.lastAckTs (ackArrivals x id peer pages) msg) := by
  obtain ⟨c',hsettles⟩ := ingestAll_settles h pages hc hb hme hno
  have hconvo : (ingestAll x pages m).messages[peer]?.getD [] = (m.messages[peer]?.getD []).map
      (StoredMessage.settle c.lastAckTs (ackArrivals x id peer pages)) := by
    rw [hsettles.messages]
    cases m.messages[peer]? <;> rfl
  refine ⟨?_,fun hw hsorted msg hnamed => freshlyAcked_of_sorted hw hsorted hnamed⟩
  rw [hconvo, List.forall₂_map_right_iff, List.forall₂_same]
  exact fun msg _ => settle_delivers _ _ msg

/-- The recipient of the sample mail, who has sent its sender two messages. -/
def awaiting : Model :=
  { secretKey := some sampleSecret
    myPubkey := samplePeer 3
    contacts := (∅ : PeerMap Contact).insert (samplePeer 7) (Contact.new (samplePeer 7) "" 0)
    messages := (∅ : PeerMap (List StoredMessage)).insert (samplePeer 7)
      [⟨"a","",700,true,false⟩,⟨"b","",750,true,false⟩] }

theorem awaiting_receives : Receives .posted postedIdentity awaiting :=
  ⟨rfl,by simp [Model.identity, awaiting, posted_secret, Except.toOption]⟩

theorem awaiting_contact :
    awaiting.contacts[samplePeer 7]? = some (Contact.new (samplePeer 7) "" 0) := by
  simp [awaiting]

theorem awaiting_stranger : samplePeer 7 ≠ awaiting.myPubkey := by decide

theorem posted_ackB :
    (postedPage [5]).opened .posted postedIdentity = [(samplePeer 7,⟨900,.deliveryAck ["b"]⟩)] :=
  postedPage_opened (by decide +kernel) (by decide +kernel)

theorem posted_ackA :
    (postedPage [6]).opened .posted postedIdentity = [(samplePeer 7,⟨800,.deliveryAck ["a"]⟩)] :=
  postedPage_opened (by decide +kernel) (by decide +kernel)

theorem posted_acks_noText {pages : List (Ambient × PollResp)}
    (h : ∀ page ∈ pages, page.2 = postedPage [5] ∨ page.2 = postedPage [6]) :
    ∀ page ∈ pages, ∀ p ∈ page.2.opened .posted postedIdentity, NoText (samplePeer 7) p := by
  intro page hpage p hp
  obtain hb | ha := h page hpage
  · rw [hb, posted_ackB, List.mem_singleton] at hp
    subst hp
    simp [NoText]
  · rw [ha, posted_ackA, List.mem_singleton] at hp
    subst hp
    simp [NoText]

/-- The acks of the two messages, on two pages and the later one first: the message that the
earlier ack names is never marked delivered. -/
theorem late_ack_is_lost :
    ackArrivals .posted postedIdentity (samplePeer 7)
      [(.sample,postedPage [5]),(.sample,postedPage [6])] =
      [⟨1000,900,["b"]⟩,⟨1000,800,["a"]⟩] ∧
    (ingestAll .posted [(.sample,postedPage [5]),(.sample,postedPage [6])]
      awaiting).messages[samplePeer 7]? =
      some [⟨"a","",700,true,false⟩,⟨"b","",750,true,true⟩] := by
  have harrivals : ackArrivals .posted postedIdentity (samplePeer 7)
      [(.sample,postedPage [5]),(.sample,postedPage [6])] =
      [⟨1000,900,["b"]⟩,⟨1000,800,["a"]⟩] := by
    simp [ackArrivals, posted_ackB, posted_ackA, ackFrom, ackArrival_cons, Ambient.sample,
      Ingest.clampTs, i64SaturatingAdd, i64Clamp, i64Min, i64Max, maxFutureSkewMs]
  obtain ⟨c,hsettles⟩ := ingestAll_settles awaiting_receives
    [(.sample,postedPage [5]),(.sample,postedPage [6])] awaiting_contact rfl awaiting_stranger
    (posted_acks_noText (by simp))
  refine ⟨harrivals,hsettles.messages.trans ?_⟩
  rw [harrivals]
  simp only [awaiting, Maps.getElem?_insert, if_true, Option.map_some]
  decide

/-- The same two in the order in which they were sent. -/
theorem acks_deliver_in_order :
    List.Forall₂ (Delivers 0 [⟨1000,800,["a"]⟩,⟨1000,900,["b"]⟩])
      [⟨"a","",700,true,false⟩,⟨"b","",750,true,false⟩]
      ((ingestAll .posted [(.sample,postedPage [6]),(.sample,postedPage [5])]
        awaiting).messages[samplePeer 7]?.getD []) := by
  have harrivals : ackArrivals .posted postedIdentity (samplePeer 7)
      [(.sample,postedPage [6]),(.sample,postedPage [5])] =
      [⟨1000,800,["a"]⟩,⟨1000,900,["b"]⟩] := by
    simp [ackArrivals, posted_ackB, posted_ackA, ackFrom, ackArrival_cons, Ambient.sample,
      Ingest.clampTs, i64SaturatingAdd, i64Clamp, i64Min, i64Max, maxFutureSkewMs]
  have hdeliver := (acks_deliver awaiting_receives
    [(.sample,postedPage [6]),(.sample,postedPage [5])] awaiting_contact rfl awaiting_stranger
    (posted_acks_noText (by simp))).1
  rw [harrivals] at hdeliver
  simpa [awaiting, Contact.new] using hdeliver

end Skrepka.Client
