import Skrepka.Client.Held
import Skrepka.Client.Receipts
import Skrepka.Client.Codec
import Skrepka.Client.Tokens

/-! Two phones with whatever lies between them: a message has a tick only once it is filed at the other end,
and what is shown as written or set by the other end was written or set there. -/
namespace Skrepka.Client
open Rust Mvu

/-- What an observer has seen on a phone: the items in its outbox, the ids of the texts from the other phone
that it has filed, the texts for the other phone that were written on it, and its own profiles. -/
structure PairLog where
  queued : List OutboxItem := []
  filed : List String := []
  written : List (String × String) := []
  profiles : List OwnProfile := []

structure PairLog.Grows (log log' : PairLog) : Prop where
  filed : log.filed ⊆ log'.filed
  written : log.written ⊆ log'.written
  profiles : log.profiles ⊆ log'.profiles

/-- What a payload says has happened on the phone that it comes from. -/
def Payload.Backed (log : PairLog) : Payload → Prop
  | .text id body => (id,body) ∈ log.written
  | .deliveryAck ids => ∀ i ∈ ids, i ∈ log.filed
  | .profile displayName bio photo => ∃ own ∈ log.profiles, own.payload = .profile displayName bio photo

/-- An item is a printed payload, which is true if it is for us. -/
def OutboxItem.Backed (x : Crates) (me : String) (log : PairLog) (i : OutboxItem) : Prop :=
  ∃ p ts, i.envelopeJson = Protocol.serializePayload x p ts ∧ (i.recipient = me → p.Backed log)

/-- A message that we have sent has a tick only if it was filed, and one that we have got was written. -/
structure StoredMessage.TrueTo (log : PairLog) (msg : StoredMessage) : Prop where
  tick : msg.outgoing = true → msg.delivered = true → msg.id ∈ log.filed
  body : msg.outgoing = false → ∃ body, (msg.id,body) ∈ log.written ∧ msg.body = Protocol.sanitizeText body

/-- A contact shows what was set as a profile, if anything. -/
structure Contact.TrueTo (log : PairLog) (c : Contact) : Prop where
  displayName : c.displayName = "" ∨
    ∃ own ∈ log.profiles, c.displayName = Protocol.sanitizeText own.displayName
  bio : c.bio = "" ∨ ∃ own ∈ log.profiles, c.bio = Protocol.sanitizeText own.bio
  photo : c.photo = none ∨ ∃ own ∈ log.profiles, c.photo = own.photo

def Truthful (log : PairLog) (convo : List StoredMessage) : Prop := ∀ msg ∈ convo, msg.TrueTo log

/-- What is on disk as a conversation is true. -/
def TruthfulOn (log : PairLog) (value : Option KvValue) : Prop :=
  ∀ list, value = some (.messages list) → Truthful log list

section
variable {x : Crates} {me : String} {log log' : PairLog}

theorem Payload.Backed.mono {p : Payload} (h : p.Backed log) (hgrows : log.Grows log') : p.Backed log' := by
  cases p with
  | text id body => exact hgrows.written h
  | deliveryAck ids => exact fun i hi => hgrows.filed (h i hi)
  | profile displayName bio photo =>
    obtain ⟨own,hown,heq⟩ := h
    exact ⟨own,hgrows.profiles hown,heq⟩

theorem Contact.TrueTo.mono {c : Contact} (h : c.TrueTo log) (hgrows : log.Grows log') : c.TrueTo log' := by
  refine ⟨h.displayName.imp_right ?_,h.bio.imp_right ?_,h.photo.imp_right ?_⟩
  all_goals exact fun ⟨own,hown,heq⟩ => ⟨own,hgrows.profiles hown,heq⟩

theorem OutboxItem.Backed.mono {i : OutboxItem} (h : i.Backed x me log) (hgrows : log.Grows log') :
    i.Backed x me log' := by
  obtain ⟨p,ts,hjson,hbacked⟩ := h
  exact ⟨p,ts,hjson,fun hme => (hbacked hme).mono hgrows⟩

theorem Truthful.mono {convo : List StoredMessage} (h : Truthful log convo) (hgrows : log.Grows log') :
    Truthful log' convo := by
  intro msg hmsg
  obtain ⟨htick,hbody⟩ := h msg hmsg
  refine ⟨fun hout hdel => hgrows.filed (htick hout hdel),fun hout => ?_⟩
  obtain ⟨body,hwritten,heq⟩ := hbody hout
  exact ⟨body,hgrows.written hwritten,heq⟩

theorem TruthfulOn.mono {value : Option KvValue} (h : TruthfulOn log value) (hgrows : log.Grows log') :
    TruthfulOn log' value := fun list hlist => (h list hlist).mono hgrows

theorem truthful_nil : Truthful log [] := by simp [Truthful]

theorem truthfulOn_some {convo : List StoredMessage} (h : Truthful log convo) :
    TruthfulOn log (some (.messages convo)) := by
  intro list heq
  obtain rfl := KvValue.messages.inj (Option.some.inj heq)
  exact h

theorem Truthful.file {convo : List StoredMessage} (h : Truthful log convo) {msg : StoredMessage}
    (hmsg : msg.TrueTo log) : Truthful log (trimHistory (insertSorted convo msg)) := by
  intro msg' hmem
  obtain rfl | hmem := mem_filed hmem
  · exact hmsg
  · exact h msg' hmem

theorem Truthful.mark {convo : List StoredMessage} (h : Truthful log convo) {pending : PendingAck}
    (hids : ∀ i ∈ pending.ids, i ∈ log.filed) : Truthful log (Ingest.markDelivered pending convo) := by
  intro msg hmem
  obtain ⟨old,hold,rfl⟩ := List.mem_map.mp hmem
  split
  · rename_i hacked
    simp only [Ingest.isAcked, Bool.and_eq_true, decide_eq_true_eq] at hacked
    exact ⟨fun _ _ => hids _ hacked.1.2,(h old hold).body⟩
  · exact h old hold

/-- A text that is sent has no tick yet. -/
theorem trueTo_sent (id body : String) (ts : ℤ) : (⟨id,body,ts,true,false⟩ : StoredMessage).TrueTo log :=
  ⟨by simp,by simp⟩

end

/-- What payloads of a peer say is true, up to what a reader leaves out of a text. -/
def Honoured (log : PairLog) (peer : String) (ps : List (String × ParsedPayload)) : Prop :=
  ∀ p ∈ ps, p.1 = peer → ∃ q : Payload, q.Backed log ∧ p.2.payload = q.sanitized

section
variable {x : Crates} {amb : Ambient} {peer : String} {log : PairLog}

namespace Ingest

theorem payload_truthful {s : Ingest} (hash : HashOrder) (now : ℤ) {p : String × ParsedPayload}
    (hp : p.1 = peer → ∃ q : Payload, q.Backed log ∧ p.2.payload = q.sanitized)
    (h : Truthful log (s.model.convo peer) ∧
      ∀ pending ∈ s.pendingAcks[peer]?, ∀ i ∈ pending.ids, i ∈ log.filed) :
    Truthful log ((s.payload x hash now p.1 p.2).model.convo peer) ∧
      ∀ pending ∈ (s.payload x hash now p.1 p.2).pendingAcks[peer]?, ∀ i ∈ pending.ids, i ∈ log.filed := by
  constructor
  · obtain ⟨id,body,hsender,hpayload,-,-,hfiled⟩ | hun := payload_texts x hash now p s peer
    · rw [hfiled.convo]
      refine h.1.file ⟨by simp,fun _ => ?_⟩
      obtain ⟨q,hq,heq⟩ := hp hsender
      rw [hpayload] at heq
      cases q with
      | text id' body' =>
        obtain ⟨rfl,rfl⟩ := Payload.text.inj heq
        exact ⟨body',hq,rfl⟩
      | deliveryAck | profile => cases heq
    · rw [hun.convo]
      exact h.1
  · obtain ⟨sender,ts,pl⟩ := p
    simp only [payload]
    split
    · exact h.2
    split
    · exact h.2
    cases pl with
    | text id body =>
      simp only [text_pendingAcks]
      exact h.2
    | profile displayName bio photo =>
      simp only [profile]
      split
      · exact h.2
      split <;> exact h.2
    | deliveryAck ackIds =>
      simp only [deliveryAck, Maps.getElem?_insert]
      split
      · rename_i hsender
        rintro pending hpending i hi
        obtain rfl := Option.some.inj hpending
        obtain hi | hi := Finset.mem_union.mp hi
        · subst hsender
          cases hold : s.pendingAcks[sender]? with
          | none => simp [hold] at hi
          | some old =>
            rw [hold] at hi
            exact h.2 old hold i hi
        · obtain ⟨q,hq,heq⟩ := hp hsender
          cases q with
          | deliveryAck ids =>
            obtain rfl := Payload.deliveryAck.inj heq
            exact hq i (List.mem_toFinset.mp hi)
          | text | profile => cases heq
      · exact h.2

end Ingest

/-- A page adds and ticks only what true payloads of the peer say. -/
theorem ingested_truthful {page : PollResp} {id : Crypto.Identity} {m : Model}
    (h : Truthful log (m.convo peer)) (hpage : Honoured log peer (page.opened x id)) :
    Truthful log ((ingested x amb page id m).model.convo peer) := by
  let s := Ingest.deliver x amb.hash (amb.now 1) (page.opened x id) { model := m }
  obtain ⟨hconvo,hpending⟩ : Truthful log (s.model.convo peer) ∧
      ∀ pending ∈ s.pendingAcks[peer]?, ∀ i ∈ pending.ids, i ∈ log.filed :=
    Ingest.deliver_induction (I := fun s => Truthful log (s.model.convo peer) ∧
      ∀ pending ∈ s.pendingAcks[peer]?, ∀ i ∈ pending.ids, i ∈ log.filed)
      (fun p hp s hs => Ingest.payload_truthful amb.hash (amb.now 1) (hpage p hp) hs) ⟨h,by simp⟩
  obtain ⟨_,_,_,_,_,hmatch⟩ := ingested_delivered x amb page id m
  have hview : (s.applyAcks (amb.now 1)).model.messages[peer]? = ((s.pendingAcks[peer]?).elim
      (s.model.correspondence peer)
      (fun pending => Ingest.settleAcks (amb.now 1) pending (s.model.correspondence peer))).2 :=
    congrArg Prod.snd Ingest.applyAcks_correspondence
  have happlied : Truthful log ((s.applyAcks (amb.now 1)).model.convo peer) := by
    rw [Model.convo, hview]
    cases hp : s.pendingAcks[peer]? with
    | none => exact hconvo
    | some pending =>
      simp only [Option.elim_some, Ingest.settleAcks]
      split
      · exact hconvo
      · simp only [Model.convo, Model.correspondence] at hconvo ⊢
        cases hm : s.model.messages[peer]? with
        | none => exact truthful_nil
        | some convo =>
          rw [hm] at hconvo
          exact Truthful.mark hconvo (hpending pending hp)
  rw [hmatch]
  exact happlied

/-- What is new in a conversation was read, sent, or in a page. -/
theorem update_truthful {e : Event} {m : Model} (h : Truthful log (m.convo peer))
    (he : e.Reads peer (Truthful log))
    (hpage : ∀ page id, e.takesIn x m = some (page,id) → Honoured log peer (page.opened x id)) :
    Truthful log ((update x amb e m).1.convo peer) := by
  have hsame : (update x amb e m).1.messages = m.messages →
      Truthful log ((update x amb e m).1.convo peer) := by
    intro hmessages
    rwa [Model.convo, hmessages]
  by_cases hw : Field.messages ∈ e.writes
  · cases e with
    | sendText =>
      obtain hsend | ⟨p,-,hsend⟩ := sendText_messages x amb m
      · exact hsame hsend
      rw [update, convo_insert hsend]
      split
      · rename_i hp
        exact Truthful.file (hp ▸ h) (trueTo_sent _ _ _)
      · exact h
    | loadedMessages p res =>
      obtain hload | ⟨list,convo,rfl,hload,hconvo⟩ := loadedMessages_messages p res m
      · exact hsame hload
      rw [update, convo_insert hload]
      split
      · rename_i hp
        subst hp
        have hlist : Truthful log list := he list rfl
        obtain ⟨-,hread⟩ | ⟨existing,hc,hmerge⟩ := hconvo
        · exact hread ▸ hlist
        · intro msg hmsg
          rw [hmerge] at hmsg
          obtain hmsg | hmsg := mem_mergeHistory hmsg
          · exact h msg (by simpa [Model.convo, hc] using hmsg)
          · exact hlist msg hmsg
      · exact h
    | pollResult gen res =>
      obtain ⟨_,_,_,_,_,_,hm⟩ | ⟨page,id,hgen,hk,hread,hid,hm⟩ := pollResult_cases x amb gen res m
      · refine hsame ?_
        rw [update, hm]
      · rw [update, hm]
        exact ingested_truthful (m := { m with polling := false, pollRetries := 0 }) h
          (hpage page id (takesIn_some hgen hk hread hid))
    | deleteContact p =>
      obtain ⟨_,_,_,_,hm⟩ := forgetPeer_eq m p
      simp only [update, deleteContact_fst]
      rw [Model.refused_eq, hm]
      intro msg hmsg
      simp only [Model.convo, Maps.getElem?_erase] at hmsg
      split at hmsg
      · simp at hmsg
      · exact h msg hmsg
    | _ => simp [Event.writes] at hw
  · exact hsame (update_agrees x amb e m .messages hw)

theorem update_truthfulOn {e : Event} {m : Model} (h : Truthful log (m.convo peer))
    (hpage : ∀ page id, e.takesIn x m = some (page,id) → Honoured log peer (page.opened x id)) :
    ∀ c ∈ (update x amb e m).2, CmdFiles (fun p value => p = peer → TruthfulOn log value) c := by
  refine update_files (fun hsend p _ hp => ?_) (fun p _ _ => ?_) fun page id htakes p _ hp => ?_
  · subst hsend hp
    exact truthfulOn_some (update_truthful (e := .sendText) h (by simp [Event.Reads]) hpage)
  · intro list heq
    cases heq
  · subst hp
    exact truthfulOn_some
      (ingested_truthful (m := { m with polling := false, pollRetries := 0 }) h (hpage page id htakes))

/-- Where what the peer says in pages is true, so is its conversation, in memory and on disk. -/
theorem truthful_keeps : Device.Keeps (app x) kvStore
    (fun _ e m => ∀ page id, e.takesIn x m = some (page,id) → Honoured log peer (page.opened x id))
    (fun m => Truthful log (m.convo peer)) (Event.Reads peer (Truthful log))
    (Effect.Careful peer (TruthfulOn log)) (fun disk => TruthfulOn log (disk (.messages peer))) :=
  conversation_keeps (fun list h => h list rfl) (by simpa [Model.convo] using truthful_nil)
    fun _ _ _ hpage hm he => ⟨update_truthful hm he hpage,update_truthfulOn hm hpage⟩

end

/-- The items of a phone are true if they are for us. -/
def tellsUs (x : Crates) (me : String) (log : PairLog) : Clauses where
  item := OutboxItem.Backed x me log
  contact p c := c.pubkey = p

/-- The contact of a peer is true. -/
def showsPeer (peer : String) (log : PairLog) : Clauses where
  item _ := True
  contact p c := c.pubkey = p ∧ (p = peer → c.TrueTo log)

theorem tellsUs_lenient (x : Crates) (me : String) (log : PairLog) : (tellsUs x me log).Lenient where
  kin i j hk h := by
    obtain ⟨p,ts,hjson,hbacked⟩ := h
    exact ⟨p,ts,hk.2.2.trans hjson,fun hr => hbacked (hk.1.symm.trans hr)⟩
  key p c h := h
  new p nickname ts := rfl
  face p c c' h hp _ _ _ := hp.trans h

theorem showsPeer_lenient (peer : String) (log : PairLog) : (showsPeer peer log).Lenient where
  kin i j hk h := trivial
  key p c h := h.1
  new p nickname ts := ⟨rfl,fun _ => ⟨.inl rfl,.inl rfl,.inl rfl⟩⟩
  face p c c' h hp hname hbio hphoto := by
    refine ⟨hp.trans h.1,fun hpeer => ?_⟩
    obtain ⟨hn,hb,hph⟩ := h.2 hpeer
    exact ⟨hname ▸ hn,hbio ▸ hb,hphoto ▸ hph⟩

/-- A profile that says what was set leaves a contact true. -/
theorem Contact.TrueTo.dress {log : PairLog} {c : Contact} (h : c.TrueTo log) {q : Payload}
    (hq : q.Backed log) {displayName bio photo : Option String}
    (heq : .profile displayName bio photo = q.sanitized) (ts : ℤ) :
    (c.dressed displayName bio photo ts).TrueTo log := by
  cases q with
  | text | deliveryAck => cases heq
  | profile name' bio' photo' =>
    obtain ⟨own,hown,hpayload⟩ := hq
    obtain ⟨rfl,rfl,rfl⟩ := Payload.profile.inj hpayload
    obtain ⟨rfl,rfl,rfl⟩ := Payload.profile.inj heq
    refine ⟨.inr ⟨own,hown,rfl⟩,.inr ⟨own,hown,rfl⟩,?_⟩
    cases hphoto : own.photo with
    | none => simpa [Contact.dressed, hphoto] using h.photo
    | some photo => exact .inr ⟨own,hown,by simp [Contact.dressed, hphoto]⟩

/-- What is parsed from a printed payload has its fields. -/
def Crates.Faithful (x : Crates) : Prop :=
  ∀ p ts v, x.fromSlice (asBytes (Protocol.serializePayload x p ts)) = some v →
    ∀ key, v.get? key = (Protocol.payloadJson p ts).get? key

section
variable {x : Crates} {me : String} {log : PairLog}

/-- The payload that is read does not depend on the time. -/
theorem payload_of_fields {v v' : Json} (h : ∀ key, key ≠ "ts" → v'.get? key = v.get? key) :
    (Protocol.payloadOfJson x v').map ParsedPayload.payload =
      (Protocol.payloadOfJson x v).map ParsedPayload.payload := by
  simp only [Protocol.payloadOfJson, h "type" (by decide), h "id" (by decide), h "body" (by decide),
    h "ack_ids" (by decide), h "display_name" (by decide), h "bio" (by decide), h "photo" (by decide),
    Option.bind_eq_bind, Option.map_bind]
  congr 1
  funext ty
  simp only [Function.comp]
  split <;> simp [Option.map_bind, apply_ite (Option.map ParsedPayload.payload)]

theorem get?_payloadJson (p : Payload) (ts ts' : ℤ) {key : String} (hkey : key ≠ "ts") :
    (Protocol.payloadJson p ts).get? key = (Protocol.payloadJson p ts').get? key := by
  have hne : (key == "ts") = false := by simpa using hkey
  cases p with
  | text | deliveryAck => simp [Protocol.payloadJson, Json.get?, List.lookup_cons, hne]
  | profile displayName bio photo =>
    cases displayName <;> cases bio <;> cases photo <;>
      simp [Protocol.payloadJson, Json.get?, List.lookup_cons, hne]

/-- What a printed payload is read as is that payload, sanitized. -/
theorem payload_readBack (hx : x.Faithful) {p : Payload} {ts : ℤ} {parsed : ParsedPayload}
    (h : Protocol.parsePayload x (asBytes (Protocol.serializePayload x p ts)) = some parsed) :
    parsed.payload = p.sanitized := by
  obtain ⟨v,hv,hparsed⟩ := Option.bind_eq_some_iff.mp h
  rw [payloadOfJson_congr (hx p ts v hv)] at hparsed
  have hzero := payload_of_fields (x := x) fun _ hkey => get?_payloadJson p ts 0 hkey
  rw [hparsed, payloadOfJson_payloadJson p (by decide) (by decide)] at hzero
  split at hzero
  · simpa using hzero
  · simp at hzero

end

/-- Our phone and that of a peer. -/
structure Pair where
  ours : Phone
  theirs : Phone

inductive PairAct
  | ours (h : Happening Ambient Event Answer)
  | theirs (h : Happening Ambient Event Answer)

/-- The event that a phone handles in a step. -/
def Phone.handles (x : Crates) (d : Phone) (h : Happening Ambient Event Answer) : Option (Ambient × Event) :=
  (d.label kvStore h).bind fun l => (d.core.event? (app x) l.2).map fun e => (l.1,e)

section
variable (x : Crates) (me peer : String)

def pairStep (s : Pair) : PairAct → Option Pair
  | .ours h => (Phone.step x s.ours h).map fun ours => { s with ours }
  | .theirs h => (Phone.step x s.theirs h).map fun theirs => { s with theirs }

/-- The observer watches the phone of the peer. -/
def notePair (s : Pair) (act : PairAct) (s' : Pair) (log : PairLog) : PairLog :=
  match act with
  | .ours _ => log
  | .theirs h =>
    let m := s.theirs.core.model
    let handled := (s.theirs.handles x h).toList
    { queued := log.queued ++ s'.theirs.core.model.outbox
      filed := log.filed ++ handled.flatMap fun l => filedTexts x l.1 l.2 m me
      written := log.written ++ handled.flatMap fun l => writtenTexts l.1 l.2 m me
      profiles := log.profiles ++ [m.profile,s'.theirs.core.model.profile] }

/-- What a blob decrypts to. -/
def opensTo (id : Crypto.Identity) (blob : String) : Option Crypto.Decrypted :=
  (Hex.decode blob).bind fun bytes => (Crypto.decrypt x id bytes).toOption

/-- Whatever of a page decrypts as the peer's was encrypted by the peer's phone, for us and from its
outbox. -/
def Vouched (queued : List OutboxItem) (id : Crypto.Identity) (page : PollResp) : Prop :=
  ∀ blob ∈ page.events, ∀ dec ∈ opensTo x id blob, dec.senderHex = peer →
    ∃ i ∈ queued, i.recipient = me ∧ dec.plaintext = asBytes i.envelopeJson

instance (queued : List OutboxItem) (id : Crypto.Identity) (page : PollResp) :
    Decidable (Vouched x me peer queued id page) := inferInstanceAs (Decidable (∀ _ ∈ _, _))

/-- The keys of the peer are on the peer's phone only: our phone takes in no page that shows otherwise. -/
def Honest (s : Pair × PairLog) : PairAct → Prop
  | .ours h => ∀ l ∈ s.1.ours.handles x h, ∀ taken ∈ l.2.takesIn x s.1.ours.core.model,
    Vouched x me peer s.2.queued taken.2 taken.1
  | .theirs _ => True

instance (s : Pair × PairLog) (act : PairAct) : Decidable (Honest x me peer s act) := by
  cases act <;> unfold Honest <;> infer_instance

/-- A phone and its store meet conditions. -/
abbrev Phone.Meets (T : Clauses) (d : Phone) : Prop :=
  Device.Sound (app x) (Model.Held T) (Event.Held T) (fun f => CmdHeld T (.request f))
    (fun disk => ∀ key value, disk key = some value → value.Held T) d

/-- The items of the peer's phone, its contact on ours and our conversation with it are true to the log. -/
structure PairOk (s : Pair × PairLog) : Prop where
  theirs : s.1.theirs.Meets x (tellsUs x me s.2)
  queued : ∀ i ∈ s.2.queued, i.Backed x me s.2
  known : s.1.ours.Meets x (showsPeer peer s.2)
  ours : Device.Sound (app x) (fun m => Truthful s.2 (m.convo peer)) (Event.Reads peer (Truthful s.2))
    (Effect.Careful peer (TruthfulOn s.2)) (fun disk => TruthfulOn s.2 (disk (.messages peer))) s.1.ours

def freshPair : Pair := ⟨freshInstall x,freshInstall x⟩

end

/-- A phone has a message of a conversation, in memory or on disk. -/
def Phone.Holds (d : Phone) (peer : String) (msg : StoredMessage) : Prop :=
  msg ∈ d.core.model.convo peer ∨ ∃ list, d.disk (.messages peer) = some (.messages list) ∧ msg ∈ list

/-- A phone has a contact, in memory or on disk. -/
def Phone.Lists (d : Phone) (peer : String) (c : Contact) : Prop :=
  d.core.model.contacts[peer]? = some c ∨
    ∃ list, d.disk .contacts = some (.contacts list) ∧ c ∈ list ∧ c.pubkey = peer

section
variable {x : Crates} {me peer : String}

theorem Phone.Meets.weaken {T U : Clauses} {d : Phone} (h : d.Meets x T) (hitem : ∀ i, T.item i → U.item i)
    (hcontact : ∀ p c, T.contact p c → U.contact p c) : d.Meets x U := by
  refine h.mono ?_ ?_ ?_ ?_
  · exact fun m hm => ⟨fun i hi => hitem i (hm.1 i hi),fun k c hc => hcontact k c (hm.2 k c hc)⟩
  · exact fun e he v hv => (he v hv).mono hitem hcontact
  · exact fun f hf => hf.mono hitem hcontact
  · exact fun disk hdisk key value hvalue => (hdisk key value hvalue).mono hitem hcontact

/-- Handling an event leaves what the update makes of the model. -/
theorem step_updates {d d' : Phone} {h : Happening Ambient Event Answer} {l : Ambient × Action Event Answer}
    {e : Event} (hl : l ∈ d.label kvStore h) (he : e ∈ d.core.event? (app x) l.2)
    (hstep : Phone.step x d h = some d') : d'.core.model = (update x l.1 e d.core.model).1 := by
  cases h with
  | act amb action =>
    obtain ⟨l',hl',hstep⟩ := Option.bind_eq_some_iff.mp hstep
    obtain rfl := Option.some.inj (hl.symm.trans hl')
    obtain ⟨core,hcore,rfl⟩ := Option.map_eq_some_iff.mp hstep
    exact step_model hcore he
  | deliver amb t =>
    obtain ⟨l',hl',hstep⟩ := Option.bind_eq_some_iff.mp hstep
    obtain rfl := Option.some.inj (hl.symm.trans hl')
    obtain ⟨core,hcore,rfl⟩ := Option.map_eq_some_iff.mp hstep
    exact step_model hcore he
  | perform | kill => cases hl

theorem mem_taken {processed budget : ℕ} {evs : List String} {blob : String}
    (h : blob ∈ Ingest.taken processed budget evs) : blob ∈ evs := by
  induction evs generalizing processed budget with
  | nil => exact h
  | cons ev evs ih =>
    simp only [Ingest.taken] at h
    split at h
    · exact List.mem_cons_of_mem _ (ih h)
    split at h
    · simp at h
    split at h
    · simp at h
    · obtain rfl | h := List.mem_cons.mp h
      · exact List.mem_cons_self
      · exact List.mem_cons_of_mem _ (ih h)

/-- What the peer says in a page that is vouched for is true. -/
theorem Vouched.honoured (hx : x.Faithful) {log : PairLog} (hqueued : ∀ i ∈ log.queued, i.Backed x me log)
    {id : Crypto.Identity} {page : PollResp} (h : Vouched x me peer log.queued id page) :
    Honoured log peer (page.opened x id) := by
  intro p hp hpeer
  obtain ⟨blob,hblob,hopen⟩ := List.mem_filterMap.mp hp
  simp only [Ingest.openBlob, Option.bind_eq_bind, Option.bind_eq_some_iff] at hopen
  obtain ⟨bytes,hbytes,dec,hdec,parsed,hparsed,heq⟩ := hopen
  obtain rfl := Option.some.inj heq
  have hopens : dec ∈ opensTo x id blob := Option.bind_eq_some_iff.mpr ⟨bytes,hbytes,hdec⟩
  obtain ⟨i,hi,hme,htext⟩ := h blob (mem_taken hblob) dec hopens hpeer
  obtain ⟨q,ts,hjson,hbacked⟩ := hqueued i hi
  rw [htext, hjson] at hparsed
  exact ⟨q,hbacked hme,payload_readBack hx hparsed⟩

theorem notePair_grows (s : Pair) (act : PairAct) (s' : Pair) (log : PairLog) :
    log.Grows (notePair x me s act s' log) := by
  cases act with
  | ours h => exact ⟨fun _ hi => hi,fun _ hi => hi,fun _ hi => hi⟩
  | theirs h => exact ⟨List.subset_append_left _ _,List.subset_append_left _ _,List.subset_append_left _ _⟩

theorem mem_handles {d : Phone} {h : Happening Ambient Event Answer} {l : Ambient × Action Event Answer}
    {e : Event} (hl : l ∈ d.label kvStore h) (he : e ∈ d.core.event? (app x) l.2) :
    (l.1,e) ∈ d.handles x h :=
  Option.bind_eq_some_iff.mpr ⟨l,hl,Option.map_eq_some_iff.mpr ⟨e,he,rfl⟩⟩

/-- What the peer's phone sends in a step is true to the log that the step leaves. -/
theorem upholds_noted {s s' : Pair} {log : PairLog} {h : Happening Ambient Event Answer}
    {l : Ambient × Action Event Answer} {e : Event} (hl : l ∈ s.theirs.label kvStore h)
    (he : e ∈ s.theirs.core.event? (app x) l.2) (hstep : Phone.step x s.theirs h = some s'.theirs) :
    Upholds x (tellsUs x me (notePair x me s (.theirs h) s' log)) l.1 e s.theirs.core.model where
  profiles i own ts hown hjson := by
    refine ⟨_,ts,hjson,fun _ => ⟨own,List.mem_append_right _ ?_,rfl⟩⟩
    rw [step_updates hl he hstep]
    simpa using hown
  texts p ts text htext := by
    refine ⟨_,ts,rfl,fun hp => List.mem_append_right _ (List.mem_flatMap.mpr
      ⟨_,Option.mem_toList.mpr (mem_handles hl he),?_⟩)⟩
    obtain rfl : p = me := hp
    exact htext
  acks p ids ts hids := by
    refine ⟨_,ts,rfl,fun hp i hi => List.mem_append_right _ (List.mem_flatMap.mpr
      ⟨_,Option.mem_toList.mpr (mem_handles hl he),?_⟩)⟩
    obtain rfl : p = me := hp
    exact hids i hi
  shown page id htakes p hp displayName bio photo hpayload c ts hc := hc

/-- What our phone takes in leaves the contact of the peer true. -/
theorem upholds_honoured {log : PairLog} {amb : Ambient} {e : Event} {m : Model}
    (hpage : ∀ page id, e.takesIn x m = some (page,id) → Honoured log peer (page.opened x id)) :
    Upholds x (showsPeer peer log) amb e m where
  profiles i own ts hown hjson := trivial
  texts p ts text htext := trivial
  acks p ids ts hids := trivial
  shown page id htakes p hp displayName bio photo hpayload c ts hc := by
    refine ⟨hc.1,fun hpeer => ?_⟩
    obtain ⟨q,hq,heq⟩ := hpage page id htakes p hp hpeer
    exact (hc.2 hpeer).dress hq (hpayload.symm.trans heq) ts

theorem pair_step (hx : x.Faithful) {s t : Pair × PairLog} (h : PairOk x me peer s) {act : PairAct}
    (hhonest : Honest x me peer s act)
    (hstep : Lts.watch (pairStep x) (notePair x me) s act = some t) : PairOk x me peer t := by
  obtain ⟨⟨ours,theirs⟩,log⟩ := s
  obtain ⟨s',hs',rfl⟩ := Option.map_eq_some_iff.mp hstep
  cases act with
  | ours hap =>
    obtain ⟨d,hd,rfl⟩ := Option.map_eq_some_iff.mp hs'
    have hpage : ∀ l ∈ ours.label kvStore hap, ∀ e ∈ ours.core.event? (app x) l.2, ∀ page id,
        e.takesIn x ours.core.model = some (page,id) → Honoured log peer (page.opened x id) :=
      fun l hl e he page id htakes =>
        Vouched.honoured hx h.queued (hhonest _ (mem_handles hl he) (page,id) htakes)
    exact ⟨h.theirs,h.queued,
      (clauses_keep (showsPeer_lenient peer log)).step h.known (fun l hl e he => upholds_honoured (hpage l hl e he)) hd,
      truthful_keeps.step h.ours hpage hd⟩
  | theirs hap =>
    obtain ⟨d,hd,rfl⟩ := Option.map_eq_some_iff.mp hs'
    let log' := notePair x me ⟨ours,theirs⟩ (.theirs hap) ⟨ours,d⟩ log
    have hgrows : log.Grows log' := notePair_grows _ _ _ log
    have hitem : ∀ i : OutboxItem, i.Backed x me log → i.Backed x me log' := fun _ hi => hi.mono hgrows
    have hcontact : ∀ p (c : Contact), (showsPeer peer log).contact p c → (showsPeer peer log').contact p c :=
      fun p c hc => ⟨hc.1,fun hp => (hc.2 hp).mono hgrows⟩
    have htheirs : d.Meets x (tellsUs x me log') :=
      (clauses_keep (tellsUs_lenient x me log')).step (h.theirs.weaken hitem fun _ _ hc => hc)
        (fun l hl e he => upholds_noted hl he hd) hd
    refine ⟨htheirs,fun i hi => ?_,h.known.weaken (fun _ _ => trivial) hcontact,h.ours.mono ?_ ?_ ?_ ?_⟩
    · obtain hi | hi := List.mem_append.mp hi
      · exact hitem i (h.queued i hi)
      · exact htheirs.good.1 i hi
    · exact fun m hm => hm.mono hgrows
    · exact fun e he list heq => (he list heq).mono hgrows
    · exact fun f hf => hf.mono fun value hvalue => hvalue.mono hgrows
    · exact fun disk hdisk => hdisk.mono hgrows

theorem pair_run (hx : x.Faithful) {acts : List PairAct} {s : Pair × PairLog}
    (hhonest : Lts.Along (Lts.watch (pairStep x) (notePair x me)) (Honest x me peer) (freshPair x,{}) acts)
    (hrun : Lts.run (Lts.watch (pairStep x) (notePair x me)) (freshPair x,{}) acts = some s) :
    PairOk x me peer s := by
  have hstart : PairOk x me peer (freshPair x,{}) := by
    refine ⟨(clauses_keep (tellsUs_lenient x me {})).start ?_,by simp,
      (clauses_keep (showsPeer_lenient peer {})).start ?_,truthful_keeps.start ?_⟩
    · intro key value h
      cases h
    · intro key value h
      cases h
    · intro list h
      cases h
  exact Lts.run_invariant_along _ (I := PairOk x me peer)
    (fun _ _ _ h hg hstep => pair_step hx h hg hstep) hstart hhonest hrun

theorem PairOk.message {s : Pair × PairLog} (h : PairOk x me peer s) {msg : StoredMessage}
    (hmsg : s.1.ours.Holds peer msg) : msg.TrueTo s.2 := by
  obtain hmsg | ⟨list,hlist,hmsg⟩ := hmsg
  · exact h.ours.good msg hmsg
  · exact h.ours.disk list hlist msg hmsg

theorem PairOk.contact {s : Pair × PairLog} (h : PairOk x me peer s) {c : Contact}
    (hc : s.1.ours.Lists peer c) : c.TrueTo s.2 := by
  obtain hc | ⟨list,hlist,hc,hpeer⟩ := hc
  · exact (h.known.good.2 peer c hc).2 rfl
  · exact (h.known.disk .contacts _ hlist c hc).2 hpeer

/-- However two phones run, with whatever between them, kills and failing stores included: where nobody
else has the keys of the peer, a message on ours has a tick only if the peer's phone has filed its text. -/
theorem ticks_truthful (hx : x.Faithful) {acts : List PairAct} {s : Pair} {log : PairLog}
    (hhonest : Lts.Along (Lts.watch (pairStep x) (notePair x me)) (Honest x me peer) (freshPair x,{}) acts)
    (hrun : Lts.run (Lts.watch (pairStep x) (notePair x me)) (freshPair x,{}) acts = some (s,log)) :
    ∀ msg, s.ours.Holds peer msg → msg.outgoing = true → msg.delivered = true → msg.id ∈ log.filed :=
  fun _ hmsg => ((pair_run hx hhonest hrun).message hmsg).tick

/-- In such a run our phone shows as written by the peer only what was written on the peer's phone for us,
with its id, and with no change but that some characters may be missing. -/
theorem texts_truthful (hx : x.Faithful) {acts : List PairAct} {s : Pair} {log : PairLog}
    (hhonest : Lts.Along (Lts.watch (pairStep x) (notePair x me)) (Honest x me peer) (freshPair x,{}) acts)
    (hrun : Lts.run (Lts.watch (pairStep x) (notePair x me)) (freshPair x,{}) acts = some (s,log)) :
    ∀ msg, s.ours.Holds peer msg → msg.outgoing = false →
      ∃ body, (msg.id,body) ∈ log.written ∧ msg.body = Protocol.sanitizeText body :=
  fun _ hmsg => ((pair_run hx hhonest hrun).message hmsg).body

/-- In such a run our phone shows for the peer only a name, a bio and a photo that the profile on the peer's
phone has had, with no change but that some characters may be missing. -/
theorem profiles_truthful (hx : x.Faithful) {acts : List PairAct} {s : Pair} {log : PairLog}
    (hhonest : Lts.Along (Lts.watch (pairStep x) (notePair x me)) (Honest x me peer) (freshPair x,{}) acts)
    (hrun : Lts.run (Lts.watch (pairStep x) (notePair x me)) (freshPair x,{}) acts = some (s,log)) :
    ∀ c, s.ours.Lists peer c → c.TrueTo log := fun _ hc => (pair_run hx hhonest hrun).contact hc

end

/-- The texts that the sample phones send, as printed. -/
def hiText : String := "\x7b\"body\":\"hi\",\"id\":\"id\",\"ts\":1000,\"type\":\"text\"\x7d"
def ackText : String := "\x7b\"ack_ids\":[\"id\"],\"ts\":1000,\"type\":\"delivery.ack\"\x7d"
def nameText : String := "\x7b\"bio\":\"\",\"display_name\":\"Ada\",\"ts\":1000,\"type\":\"profile\"\x7d"
def blankText : String := "\x7b\"bio\":\"\",\"display_name\":\"\",\"ts\":1000,\"type\":\"profile\"\x7d"

/-- A blob that shows what it seals, signed by the owner of a seed. -/
def plainBlob (seed : UInt8) (text : String) : Bytes :=
  Crypto.wireVersion :: List.replicate 32 1 ++ List.replicate Crypto.nonceLen 0 ++
    Crates.sample.ed25519Public (List.replicate 32 seed) ++ List.replicate 64 1 ++
    Crypto.frame (asBytes text) []

/-- The sample crates for two phones that open each other's mail, which is left as it is. -/
def Crates.plain : Crates :=
  { Crates.sample with
    aeadOpen := fun _ _ _ ciphertext => some ciphertext
    zstdDecode := fun _ limit data => some (data.take limit)
    toJson := fun v =>
      match v with
      | .obj [("type",.str "text"),("id",.str "id"),("body",.str "hi"),("ts",.int 1000)] => hiText
      | .obj [("type",.str "delivery.ack"),("ack_ids",.arr [.str "id"]),("ts",.int 1000)] => ackText
      | .obj [("type",.str "profile"),("ts",.int 1000),("display_name",.str "Ada"),("bio",.str "")] => nameText
      | .obj [("type",.str "profile"),("ts",.int 1000),("display_name",.str ""),("bio",.str "")] => blankText
      | _ => "\x7b"
    fromSlice := fun body =>
      if body = pageBytes [plainBlob 3 hiText] then some (pageJson [plainBlob 3 hiText])
      else if body = pageBytes [plainBlob 7 ackText] then some (pageJson [plainBlob 7 ackText])
      else if body = pageBytes [plainBlob 3 nameText] then some (pageJson [plainBlob 3 nameText])
      else if body = asBytes hiText then some (Protocol.payloadJson (.text "id" "hi") 1000)
      else if body = asBytes ackText then some (Protocol.payloadJson (.deliveryAck ["id"]) 1000)
      else if body = asBytes nameText then
        some (Protocol.payloadJson (.profile (some "Ada") (some "") none) 1000)
      else if body = asBytes blankText then
        some (Protocol.payloadJson (.profile (some "") (some "") none) 1000)
      else sampleBodies.lookup body }

/-- Whatever reads back at all is what was printed. -/
theorem plain_reads {v w : Json} (h : Crates.plain.fromSlice (asBytes (Crates.plain.toJson v)) = some w) :
    w = v := by
  simp only [Crates.plain] at h
  split at h
  · have hw : some (Protocol.payloadJson (.text "id" "hi") 1000) = some w := h
    exact (Option.some.inj hw).symm
  · have hw : some (Protocol.payloadJson (.deliveryAck ["id"]) 1000) = some w := h
    exact (Option.some.inj hw).symm
  · have hw : some (Protocol.payloadJson (.profile (some "Ada") (some "") none) 1000) = some w := h
    exact (Option.some.inj hw).symm
  · have hw : some (Protocol.payloadJson (.profile (some "") (some "") none) 1000) = some w := h
    exact (Option.some.inj hw).symm
  · have hnone : Crates.plain.fromSlice (asBytes "\x7b") = none := rfl
    exact absurd (hnone.symm.trans h) (by simp)

theorem plain_faithful : Crates.plain.Faithful := fun _ _ _ hv _ => plain_reads hv ▸ rfl

def plainPage (seed : UInt8) (text : String) : PollResp := ⟨[plainBlob seed text].map Hex.encode,5⟩

/-- A page with one blob arrives. -/
def arrives (seed : UInt8) (text : String) : Happening Ambient Event Answer :=
  .act .sample (.answer 9 (.http (.ok ⟨200,none,pageBytes [plainBlob seed text]⟩)))

def seedSecret (seed : UInt8) : Bytes :=
  List.replicate 32 seed ++ Crates.sample.ed25519Public (List.replicate 32 seed)

/-- What a page with one payload makes of the model of a phone. -/
def Phone.afterPage (d : Phone) (p : String × ParsedPayload) : Model :=
  (delivered .plain .sample [p] { d.core.model with polling := false, pollRetries := 0 }).model

/-- A sample page can be read by the owner of a seed. -/
structure Legible (seed sender : UInt8) (text : String) (p : String × ParsedPayload) (id : Crypto.Identity) :
    Prop where
  page : readPage .plain (Crates.plain.deliver (.ok ⟨200,none,pageBytes [plainBlob sender text]⟩)) =
    some (plainPage sender text)
  secret : (Crypto.fromSecretBytes .plain (seedSecret seed)).toOption = some id
  opens : opensTo .plain id (Hex.encode (plainBlob sender text)) = some ⟨asBytes text,samplePeer sender⟩
  opened : (plainPage sender text).opened .plain id = [p]

theorem exists_legible {seed sender : UInt8} {text : String} {p : String × ParsedPayload}
    (hread : Crates.plain.fromSlice (pageBytes [plainBlob sender text]) = some (pageJson [plainBlob sender text]))
    (hlen : (pageBytes [plainBlob sender text]).length ≤ maxPollResponseBytes ∧
      (plainBlob sender text).length ≤ Crypto.maxBlobLen)
    (h : (Crypto.fromSecretBytes .plain (seedSecret seed)).toOption.any (fun id =>
      (Crypto.decrypt .plain id (plainBlob sender text)).toOption = some ⟨asBytes text,samplePeer sender⟩ &&
        Ingest.openBytes .plain id (plainBlob sender text) = some p) = true) :
    ∃ id, Legible seed sender text p id := by
  obtain ⟨id,hid,h⟩ := (Option.any_eq_true _ _).mp h
  simp only [Bool.and_eq_true, decide_eq_true_eq] at h
  have hsuccess : isSuccess 200 = true := by decide
  have hbudget : (plainBlob sender text).length ≤ maxPollTotalBytes := hlen.2.trans (by decide)
  refine ⟨id,?_,hid,by simpa [opensTo, Hex.decode_encode] using h.1,?_⟩
  · change readPage .plain (.ok ⟨200,none,_⟩) = _
    simp [readPage, hsuccess, hlen.1, hread, ofJson_page, plainPage]
  · rw [plainPage, PollResp.opened_encode .plain id (by simpa using hlen.2) (by simp [maxPollEvents])
      (by simpa using hbudget)]
    simp [h.2]

theorem hi_legible : ∃ id, Legible 7 3 hiText (samplePeer 3,⟨1000,.text "id" "hi"⟩) id :=
  exists_legible (by simp [Crates.plain]) (by decide +kernel) (by decide +kernel)

theorem ack_legible : ∃ id, Legible 3 7 ackText (samplePeer 7,⟨1000,.deliveryAck ["id"]⟩) id := by
  have hother : pageBytes [plainBlob 7 ackText] ≠ pageBytes [plainBlob 3 hiText] := by decide +kernel
  exact exists_legible (by simp [Crates.plain, hother]) (by decide +kernel) (by decide +kernel)

theorem name_legible : ∃ id,
    Legible 7 3 nameText (samplePeer 3,⟨1000,.profile (some "Ada") (some "") none⟩) id := by
  have hhi : pageBytes [plainBlob 3 nameText] ≠ pageBytes [plainBlob 3 hiText] := by decide +kernel
  have hack : pageBytes [plainBlob 3 nameText] ≠ pageBytes [plainBlob 7 ackText] := by decide +kernel
  exact exists_legible (by simp [Crates.plain, hhi, hack]) (by decide +kernel) (by decide +kernel)

/-- A phone that waits for a page. -/
def Phone.awaitsPage (seed : UInt8) (d : Phone) : Bool :=
  Running.polls 9 d.core && d.isExternal kvStore (.answer 9 .elapsed) &&
    d.core.model.secretKey = some (seedSecret seed)

section
variable {seed sender : UInt8} {text : String} {p : String × ParsedPayload} {id : Crypto.Identity} {d : Phone}

theorem Legible.identity (h : Legible seed sender text p id) (hd : d.awaitsPage seed = true) :
    Running.polls 9 d.core = true ∧ (∀ r, d.isExternal kvStore (.answer 9 r) = true) ∧
      d.core.model.identity .plain = some id := by
  simp only [Phone.awaitsPage, Bool.and_eq_true, decide_eq_true_eq] at hd
  refine ⟨hd.1.1,fun _ => hd.1.2,?_⟩
  rw [Model.identity, hd.2]
  exact h.secret

/-- The page leaves what the payload in it makes of the model. -/
theorem Legible.arrive (h : Legible seed sender text p id) (hd : d.awaitsPage seed = true) :
    ∃ d', Phone.step .plain d (arrives sender text) = some d' ∧
      d'.core.model.outbox = (d.afterPage p).outbox ∧ d'.core.model.messages = (d.afterPage p).messages ∧
      d'.core.model.contacts = (d.afterPage p).contacts := by
  obtain ⟨hpolls,hext,hid⟩ := h.identity hd
  obtain ⟨core,hcore,hmodel⟩ := Running.polls_step .sample hpolls h.page hid
  have hlabel : d.label kvStore (arrives sender text) = some (Ambient.sample,_) := if_pos (hext _)
  have hcore : d.core.step (app .plain) (.sample,_) = some core := hcore
  obtain ⟨_,_,_,_,_,hmatch⟩ := ingested_delivered .plain .sample (plainPage sender text) id
    { d.core.model with polling := false, pollRetries := 0 }
  rw [h.opened] at hmatch
  refine ⟨{ d with core },?_,?_⟩
  · rw [arrives] at hlabel ⊢
    simp [Phone.step, Device.step, hlabel, hcore]
  · simp only [hmodel, hmatch]
    exact ⟨rfl,rfl,rfl⟩

/-- It shows nothing that the sender's phone has not queued. -/
theorem Legible.honest (h : Legible seed sender text p id) (hd : d.awaitsPage seed = true) {theirs : Phone}
    {log : PairLog} {i : OutboxItem} (hi : i ∈ log.queued) (hme : i.recipient = samplePeer seed)
    (htext : i.envelopeJson = text) :
    Honest .plain (samplePeer seed) (samplePeer sender) (⟨d,theirs⟩,log) (.ours (arrives sender text)) := by
  obtain ⟨hpolls,hext,hid⟩ := h.identity hd
  refine fun l hl ⟨page,id'⟩ htaken => ?_
  obtain ⟨l',hl',hl⟩ := Option.bind_eq_some_iff.mp hl
  obtain ⟨e,he,rfl⟩ := Option.map_eq_some_iff.mp hl
  obtain rfl := Option.some.inj ((if_pos (hext _)).symm.trans hl')
  obtain rfl := Option.some.inj ((Running.polls_event hpolls _).1.symm.trans he)
  obtain ⟨-,-,hpage,hid'⟩ := takesIn_eq_some.mp htaken
  obtain rfl := Option.some.inj (h.page.symm.trans hpage)
  obtain rfl := Option.some.inj (hid.symm.trans hid')
  intro blob hblob dec hdec _
  obtain rfl : blob = Hex.encode (plainBlob sender text) := by simpa [plainPage] using hblob
  obtain rfl := Option.some.inj (h.opens.symm.trans hdec)
  exact ⟨i,hi,hme,congrArg asBytes htext.symm⟩

end

/-- A first launch that gets online. -/
def sampleArriving (seed : UInt8) : List (Happening Ambient Event Answer) :=
  sampleActs [.shell (.identityLoaded (seedSecret seed))] ++
    performs 6 ++ (List.range 6).map (.deliver .sample) ++
    sampleActs [.drain,.drain,.answer 6 (sampleOk challengeText),.answer 8 (sampleOk tokenText),.drain,.drain]

/-- A phone whose owner sets a name and sends a text. -/
def sampleComposing : List (Happening Ambient Event Answer) :=
  sampleArriving 3 ++ sampleActs ([.shell (.saveProfile "Ada" "" none),.drain] ++ sampleText (samplePeer 7))

/-- The text is filed on the one phone, and its ack puts the tick on the other. -/
theorem ticks_truthful_shown : ∃ s log msg,
    Lts.run (Lts.watch (pairStep .plain) (notePair .plain (samplePeer 3))) (freshPair .plain,{})
      (sampleComposing.map .ours ++ (sampleArriving 7).map .theirs ++
        [.theirs (arrives 3 hiText),.ours (arrives 7 ackText)]) = some (s,log) ∧
    s.ours.Holds (samplePeer 7) msg ∧ msg.outgoing = true ∧ msg.delivered = true ∧ msg.id ∈ log.filed := by
  have hwriting : (Lts.runAlong (Lts.watch (pairStep .plain) (notePair .plain (samplePeer 3)))
      (Honest .plain (samplePeer 3) (samplePeer 7)) (freshPair .plain,{})
      (sampleComposing.map .ours ++ (sampleArriving 7).map .theirs)).any (fun s =>
        s.1.ours.awaitsPage 3 && s.1.theirs.awaitsPage 7 &&
        (s.1.theirs.afterPage (samplePeer 3,⟨1000,.text "id" "hi"⟩)).outbox.any (fun i =>
          i.recipient = samplePeer 3 && i.envelopeJson = ackText) &&
        ((s.1.ours.afterPage (samplePeer 7,⟨1000,.deliveryAck ["id"]⟩)).convo (samplePeer 7)).any fun msg =>
          msg.outgoing && msg.delivered) = true := by
    decide +kernel
  obtain ⟨halong,⟨⟨ours,theirs⟩,log⟩,hrun,hwritten⟩ := Lts.exists_of_runAlong _ hwriting
  simp only [Bool.and_eq_true, decide_eq_true_eq, List.any_eq_true] at hwritten
  obtain ⟨⟨⟨hours,htheirs⟩,i,hi,hme,htext⟩,msg,hmsg,hout,htick⟩ := hwritten
  obtain ⟨_,hhi⟩ := hi_legible
  obtain ⟨_,hack⟩ := ack_legible
  obtain ⟨theirs',htheirs',houtbox,-⟩ := hhi.arrive htheirs
  obtain ⟨ours',hours',-,hmessages,-⟩ := hack.arrive hours
  have hfile : pairStep .plain ⟨ours,theirs⟩ (.theirs (arrives 3 hiText)) = some ⟨ours,theirs'⟩ := by
    simp [pairStep, htheirs']
  have hmark : pairStep .plain ⟨ours,theirs'⟩ (.ours (arrives 7 ackText)) = some ⟨ours',theirs'⟩ := by
    simp [pairStep, hours']
  have hfile := Lts.watch_of_step _ (notePair .plain (samplePeer 3)) (s := (⟨ours,theirs⟩,log)) hfile
  have hruns := Lts.run_append_eq_some _ hrun ((Lts.run_cons_eq_some _).mpr
    ⟨_,hfile,Lts.run_single _ (Lts.watch_of_step _ (notePair .plain (samplePeer 3)) hmark)⟩)
  have hend : Lts.Along (Lts.watch (pairStep .plain) (notePair .plain (samplePeer 3)))
      (Honest .plain (samplePeer 3) (samplePeer 7)) (⟨ours,theirs⟩,log)
      [.theirs (arrives 3 hiText),.ours (arrives 7 ackText)] := by
    refine ⟨trivial,fun t ht => ⟨?_,fun _ _ => trivial⟩⟩
    obtain rfl := Option.some.inj (hfile.symm.trans ht)
    exact hack.honest hours (List.mem_append_right _ (houtbox ▸ hi)) hme htext
  have halongs := Lts.along_append_of_run _ halong hrun hend
  have hholds : ours'.Holds (samplePeer 7) msg := .inl (by rw [Model.convo, hmessages]; exact hmsg)
  exact ⟨_,_,msg,hruns,hholds,hout,htick,ticks_truthful plain_faithful halongs hruns msg hholds hout htick⟩

/-- A page from the one phone reaches the other, and nothing but what it sent is in it. -/
theorem sample_page (mine : List (Happening Ambient Event Answer)) {text : String}
    {p : String × ParsedPayload} {Q : Model → Bool} (hread : ∃ id, Legible 7 3 text p id)
    (h : (Lts.runAlong (Lts.watch (pairStep .plain) (notePair .plain (samplePeer 7)))
      (Honest .plain (samplePeer 7) (samplePeer 3)) (freshPair .plain,{})
      (sampleComposing.map .theirs ++ mine.map .ours)).any (fun s => s.1.ours.awaitsPage 7 &&
        s.2.queued.any (fun i => i.recipient = samplePeer 7 && i.envelopeJson = text) &&
        Q (s.1.ours.afterPage p)) = true) :
    ∃ s log, Lts.Along (Lts.watch (pairStep .plain) (notePair .plain (samplePeer 7)))
        (Honest .plain (samplePeer 7) (samplePeer 3)) (freshPair .plain,{})
        (sampleComposing.map .theirs ++ mine.map .ours ++ [.ours (arrives 3 text)]) ∧
      Lts.run (Lts.watch (pairStep .plain) (notePair .plain (samplePeer 7))) (freshPair .plain,{})
        (sampleComposing.map .theirs ++ mine.map .ours ++ [.ours (arrives 3 text)]) = some (s,log) ∧
      ∃ m, Q m = true ∧ s.ours.core.model.messages = m.messages ∧ s.ours.core.model.contacts = m.contacts := by
  obtain ⟨halong,⟨⟨ours,theirs⟩,log⟩,hrun,hwritten⟩ := Lts.exists_of_runAlong _ h
  simp only [Bool.and_eq_true, decide_eq_true_eq, List.any_eq_true] at hwritten
  obtain ⟨⟨hours,i,hi,hme,htext⟩,hQ⟩ := hwritten
  obtain ⟨_,hread⟩ := hread
  obtain ⟨ours',hours',-,hmessages,hcontacts⟩ := hread.arrive hours
  have hstep : pairStep .plain ⟨ours,theirs⟩ (.ours (arrives 3 text)) = some ⟨ours',theirs⟩ := by
    simp [pairStep, hours']
  have hend : Lts.Along (Lts.watch (pairStep .plain) (notePair .plain (samplePeer 7)))
      (Honest .plain (samplePeer 7) (samplePeer 3)) (⟨ours,theirs⟩,log) [.ours (arrives 3 text)] :=
    ⟨hread.honest hours hi hme htext,fun _ _ => trivial⟩
  refine ⟨_,_,Lts.along_append_of_run _ halong hrun hend,Lts.run_append_eq_some _ hrun
    (Lts.run_single _ (Lts.watch_of_step _ (notePair .plain (samplePeer 7)) hstep)),_,hQ,hmessages,hcontacts⟩

/-- A text goes from the one phone to the other. -/
theorem texts_truthful_shown : ∃ s log msg,
    Lts.run (Lts.watch (pairStep .plain) (notePair .plain (samplePeer 7))) (freshPair .plain,{})
      (sampleComposing.map .theirs ++ (sampleArriving 7).map .ours ++ [.ours (arrives 3 hiText)]) =
        some (s,log) ∧
    s.ours.Holds (samplePeer 3) msg ∧ msg.outgoing = false ∧
    ∃ body, (msg.id,body) ∈ log.written ∧ msg.body = Protocol.sanitizeText body := by
  obtain ⟨s,log,halong,hrun,m,hm,hmessages,-⟩ := sample_page (sampleArriving 7)
    (Q := fun m => (m.convo (samplePeer 3)).any fun msg => !msg.outgoing) hi_legible (by decide +kernel)
  obtain ⟨msg,hmsg,hout⟩ := List.any_eq_true.mp hm
  have hout : msg.outgoing = false := by simpa using hout
  have hholds : s.ours.Holds (samplePeer 3) msg := .inl (by rw [Model.convo, hmessages]; exact hmsg)
  exact ⟨s,log,msg,hrun,hholds,hout,texts_truthful plain_faithful halong hrun msg hholds hout⟩

/-- So does a name. -/
theorem profiles_truthful_shown : ∃ s log c,
    Lts.run (Lts.watch (pairStep .plain) (notePair .plain (samplePeer 7))) (freshPair .plain,{})
      (sampleComposing.map .theirs ++
        (sampleArriving 7 ++ sampleActs [.shell (.addContact (samplePeer 3) "")]).map .ours ++
        [.ours (arrives 3 nameText)]) = some (s,log) ∧
    s.ours.Lists (samplePeer 3) c ∧ c.displayName = "Ada" ∧ c.TrueTo log := by
  obtain ⟨s,log,halong,hrun,m,hm,-,hcontacts⟩ := sample_page
    (sampleArriving 7 ++ sampleActs [.shell (.addContact (samplePeer 3) "")])
    (Q := fun m => m.contacts[samplePeer 3]?.any fun c => c.displayName = "Ada") name_legible
    (by decide +kernel)
  obtain ⟨c,hc,hname⟩ := (Option.any_eq_true _ _).mp hm
  have hlists : s.ours.Lists (samplePeer 3) c := .inl (by rw [hcontacts]; exact hc)
  exact ⟨s,log,c,hrun,hlists,by simpa using hname,profiles_truthful plain_faithful halong hrun c hlists⟩

end Skrepka.Client
