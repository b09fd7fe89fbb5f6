import Skrepka.Client.Forgotten
import Skrepka.Client.Phone

/-! Lazily loaded history on a device: a message that was on disk stays there as long as no text is
filed in a conversation that is not in memory. -/
namespace Skrepka.Client
open Rust Mvu

/-- What an event reads as the conversation of a peer meets a condition. -/
def Event.Reads (peer : String) (E : List StoredMessage → Prop) (e : Event) : Prop :=
  ∀ list, e = .loadedMessages peer (.ok (some (.messages list))) → E list

/-- A request that makes only good conversations of a peer, and whose answer brings what is on disk. -/
structure Effect.Careful (peer : String) (D : Option KvValue → Prop) (f : Effect) : Prop where
  files : CmdFiles (fun p value => p = peer → D value) (.request f)
  known : ask (.request f) ≠ .other
  loads : ∀ key p, f = .kv (.get key) (.loadedMessages p) → key = .messages p

section
variable {x : Crates} {peer : String} {D : Option KvValue → Prop} {E : List StoredMessage → Prop}

theorem Effect.Careful.mono {D' : Option KvValue → Prop} {f : Effect} (h : Effect.Careful peer D f)
    (hD : ∀ value, D value → D' value) : Effect.Careful peer D' f :=
  ⟨h.files.mono fun _ value hd hp => hD value (hd hp),h.known,h.loads⟩

/-- A conversation is loaded from its own key. -/
theorem update_loads {amb : Ambient} {e : Event} {m : Model} {key : KvKey} {p : String}
    (hf : .kv (.get key) (.loadedMessages p) ∈ Cmd.requests (update x amb e m).2) : key = .messages p := by
  have hask := (update_asks x amb e m).request hf
  cases e with
  | loadedContacts res =>
    obtain ⟨c,hc,hreq⟩ := List.mem_filterMap.mp hf
    cases c with
    | event | render => simp at hreq
    | request g =>
    obtain rfl : g = .kv (.get key) (.loadedMessages p) := by simpa using hreq
    have hdone : .request (.kv (.get key) (.loadedMessages p)) ∉ (startupDone m).2 := fun hmem => by
      simpa [ask] using startupDone_asks m _ hmem
    simp only [update, loadedContacts] at hc
    generalize startupDone m = r at hc hdone
    split at hc
    · simp only [List.mem_append, hdone, List.mem_map, loadMessages, load, List.mem_singleton,
        reduceCtorEq, or_false, false_or] at hc
      obtain ⟨peer,-,heq⟩ := hc
      simp only [Cmd.request.injEq, Effect.kv.injEq, KvOp.get.injEq, KvTag.loadedMessages.injEq] at heq
      rw [← heq.1, heq.2]
    · simp [hdone] at hc
    · simp [hdone] at hc
  | _ => simp [Event.asks, ask] at hask

theorem performKv_careful {disk : Disk} {op : KvOp} {tag : KvTag}
    (hread : ∀ list, D (some (.messages list)) → E list) (hd : D (disk (.messages peer)))
    (hf : Effect.Careful peer D (.kv op tag)) : D ((performKv disk op).1 (.messages peer)) ∧
      ∀ e, answer x (.kv op tag) (performKv disk op).2 = some e → e.Reads peer E := by
  have hsaved : ∀ value, (tag = .saved ∨ tag = .savedCursor) →
      ∀ e, answer x (.kv op tag) (.kv (.ok value)) = some e → e.Reads peer E := by
    rintro value (rfl | rfl) e he list rfl <;> simp [answer, KvTag.event] at he
  have htag : (∀ key, op ≠ .get key) → tag = .saved ∨ tag = .savedCursor := by
    intro hop
    have hknown := hf.known
    cases op with
    | get key => exact absurd rfl (hop key)
    | set | delete => cases tag <;> simp [ask] at hknown ⊢
  cases op with
  | get key =>
    refine ⟨hd,fun e he list hlist => ?_⟩
    subst hlist
    cases tag <;> simp only [performKv, answer, KvTag.event, Option.some.injEq, reduceCtorEq] at he
    rename_i p
    obtain ⟨rfl,hvalue⟩ := Event.loadedMessages.inj he
    obtain rfl := hf.loads key p rfl
    rw [Except.ok.inj hvalue] at hd
    exact hread list hd
  | set key value =>
    refine ⟨?_,hsaved (disk key) (htag (by simp))⟩
    simp only [performKv]
    split
    · rename_i hkey
      subst hkey
      exact hf.files rfl
    · exact hd
  | delete key =>
    refine ⟨?_,hsaved (disk key) (htag (by simp))⟩
    simp only [performKv]
    split
    · rename_i hkey
      subst hkey
      exact hf.files rfl
    · exact hd

/-- Where updates keep good models good, and make only good conversations of a peer, a device keeps
them good on disk. -/
theorem conversation_keeps {allowed : Ambient → Event → Model → Prop} {good : Model → Prop}
    (hread : ∀ list, D (some (.messages list)) → E list) (hinit : good {})
    (hupdate : ∀ amb e m, allowed amb e m → good m → e.Reads peer E → good (update x amb e m).1 ∧
      ∀ c ∈ (update x amb e m).2, CmdFiles (fun p value => p = peer → D value) c) :
    Device.Keeps (app x) kvStore allowed good (Event.Reads peer E) (Effect.Careful peer D)
      (fun disk => D (disk (.messages peer))) where
  init := hinit
  update amb e m ha hm he := by
    obtain ⟨hgood,hfiles⟩ := hupdate amb e m ha hm he
    have hother : Ask.other ∉ e.asks := by cases e <;> simp [Event.asks]
    refine ⟨hgood,fun f hf => ⟨?_,fun ho => ?_,?_⟩,?_⟩
    · obtain ⟨c,hc,hreq⟩ := List.mem_filterMap.mp hf
      cases c with
      | event | render => simp at hreq
      | request g =>
        obtain rfl : g = f := by simpa using hreq
        exact hfiles _ hc
    · exact hother (ho ▸ (update_asks x amb e m).request hf)
    · rintro key p rfl
      exact update_loads hf
    · rintro e' he' list rfl
      exact absurd ((update_asks x amb e m).event he') hother
  shell e he list hlist := by
    subst hlist
    simp [app, fromShell] at he
  answer f r e _ hop he list hlist := by
    subst hlist
    cases f with
    | kv => simp [kvStore] at hop
    | http req tag => cases r <;> cases tag <;> simp [app, answer, HttpTag.event] at he
    | time ms tag => cases r <;> cases tag <;> simp [app, answer, TimeTag.event] at he
  perform f disk hf hd := by
    cases f with
    | kv op tag => exact performKv_careful hread hd hf
    | http | time => exact ⟨hd,by simp [app, kvStore, answer]⟩
  failed f e _ he list hlist := by
    subst hlist
    cases f with
    | http | time => simp [app, kvStore, answer] at he
    | kv op tag => cases tag <;> simp [app, kvStore, answer, KvTag.event] at he

end

/-- A message apart from whether it is delivered. -/
def StoredMessage.bare (msg : StoredMessage) : StoredMessage := { msg with delivered := false }

/-- A stored value is a conversation with a message. -/
def KvValue.holds (msg : StoredMessage) : KvValue → Bool
  | .messages list => msg.bare ∈ list.map StoredMessage.bare
  | _ => false

/-- A conversation in memory is full, and a message is not in it. -/
def Model.crowdsOut (m : Model) (peer : String) (msg : StoredMessage) : Bool :=
  msg.bare ∉ (m.convo peer).map StoredMessage.bare && maxMessagesPerPeer ≤ (m.convo peer).length

/-- The peer is deleted, or the message made room for newer ones. -/
def Event.partsWith (x : Crates) (amb : Ambient) (m : Model) (peer : String) (msg : StoredMessage) :
    Event → Bool
  | .deleteContact p => p = peer
  | e => (update x amb e m).1.crowdsOut peer msg

/-- A text is filed with a peer: one that the user writes to it, or one of a page that comes from it and
is new. -/
def Event.filesText (x : Crates) (m : Model) (peer : String) : Event → Bool
  | .sendText => m.writesTo peer
  | e => peer ≠ m.myPubkey && !m.isBlocked peer &&
      (m.contacts.contains peer || m.contacts.size < maxContacts) &&
      (e.takesIn x m).any fun p =>
        (textIds peer (p.1.opened x p.2)).any fun id => id ∉ m.dedupSet peer

/-- No text goes into a conversation that is not in memory. -/
def Event.filesLoaded (x : Crates) (m : Model) (peer : String) (e : Event) : Bool :=
  !e.filesText x m peer || m.convo peer ≠ []

section
variable {peer : String} {msg : StoredMessage}

/-- A conversation has a message, or is full. -/
def Retains (msg : StoredMessage) (convo : List StoredMessage) : Prop :=
  msg.bare ∈ convo.map StoredMessage.bare ∨ maxMessagesPerPeer ≤ convo.length

theorem retains_trim {convo : List StoredMessage} (h : Retains msg convo) :
    Retains msg (trimHistory convo) := by
  unfold trimHistory
  by_cases hlen : convo.length ≤ maxMessagesPerPeer
  · rwa [Nat.sub_eq_zero_of_le hlen, List.drop_zero]
  · right
    rw [List.length_drop]
    omega

theorem retains_filed {convo : List StoredMessage} (h : Retains msg convo) (new : StoredMessage) :
    Retains msg (trimHistory (insertSorted convo new)) := by
  refine retains_trim (h.imp (fun h => ?_) fun h => ?_)
  · exact ((insertSorted_perm convo new).map _).mem_iff.mpr (List.mem_cons_of_mem _ h)
  · rw [(insertSorted_perm convo new).length_eq, List.length_cons]
    omega

/-- Merging in a list leaves what was there, and brings its messages unless their ids were there. -/
theorem retains_mergeHistory {existing : List StoredMessage}
    (h : msg.bare ∈ existing.map StoredMessage.bare) (list : List StoredMessage) :
    Retains msg (mergeHistory existing list) := by
  refine retains_trim (.inl ?_)
  refine ((List.perm_insertionSort _ _).map _).mem_iff.mpr ?_
  rw [List.map_append]
  exact List.mem_append_left _ h

theorem retains_mergeHistory_nil {list : List StoredMessage}
    (h : msg.bare ∈ list.map StoredMessage.bare) : Retains msg (mergeHistory [] list) := by
  refine retains_trim (.inl ?_)
  refine ((List.perm_insertionSort _ _).map _).mem_iff.mpr ?_
  simpa using h

theorem mem_of_not_crowdsOut {m : Model} (h : Retains msg (m.convo peer))
    (hout : m.crowdsOut peer msg = false) : msg.bare ∈ (m.convo peer).map StoredMessage.bare := by
  refine h.elim id fun hfull => ?_
  by_contra hno
  simp [Model.crowdsOut, hno, hfull] at hout

namespace Ingest

/-- Only a text that is acknowledged touches its conversation. -/
def Spread (peer : String) (s : Ingest) : Prop := peer ∈ s.touchedConvos → s.acks peer ≠ []

theorem storeText_spread {s : Ingest} (h : s.Spread peer) (hash : HashOrder) (sender : String) (ts : ℤ)
    (msgId body : String) : (s.storeText hash sender ts msgId body).Spread peer := by
  simp only [storeText]
  split
  · exact h
  · intro hmem
    simp only [acks, Maps.getElem?_insert]
    split
    · simp
    · rename_i hne
      obtain hmem | hmem := Finset.mem_insert.mp hmem
      · exact absurd hmem.symm hne
      · exact h hmem

theorem payload_spread {s : Ingest} (h : s.Spread peer) (x : Crates) (hash : HashOrder) (now : ℤ)
    (p : String × ParsedPayload) : (s.payload x hash now p.1 p.2).Spread peer := by
  obtain ⟨sender,ts,pl⟩ := p
  simp only [payload]
  split
  · exact h
  split
  · exact h
  cases pl with
  | text id body =>
    simp only [text]
    split
    · exact storeText_spread h _ _ _ _ _
    split
    · exact h
    · exact storeText_spread (s := s.addStranger x sender _) h _ _ _ _ _
  | deliveryAck ackIds => exact h
  | profile displayName bio photo =>
    simp only [profile]
    split
    · exact h
    split
    · exact h
    · exact h

/-- Applying acks does not touch an empty conversation. -/
theorem applyAcks_untouched {s : Ingest} (hconvo : s.model.convo peer = []) (h : peer ∉ s.touchedConvos)
    (now : ℤ) : peer ∉ (s.applyAcks now).touchedConvos := by
  unfold applyAcks
  generalize s.pendingAcks.toList = pending
  induction pending generalizing s with
  | nil => exact h
  | cons ack pending ih =>
    have hwater : (s.ackWatermark now ack.1 ack.2).model.convo peer = [] ∧
        peer ∉ (s.ackWatermark now ack.1 ack.2).touchedConvos := by
      simp only [ackWatermark]
      split
      · exact ⟨hconvo,h⟩
      · exact ⟨hconvo,h⟩
    have hmark : ∀ s : Ingest, s.model.convo peer = [] ∧ peer ∉ s.touchedConvos →
        (s.markConvo ack.1 ack.2).model.convo peer = [] ∧
          peer ∉ (s.markConvo ack.1 ack.2).touchedConvos := by
      rintro s ⟨hconvo,h⟩
      simp only [markConvo]
      split
      · exact ⟨hconvo,h⟩
      rename_i convo hc
      split
      · rename_i hacked
        have hne : ack.1 ≠ peer := by
          rintro hpeer
          rw [Model.convo, ← hpeer, hc] at hconvo
          obtain rfl : convo = [] := hconvo
          simp at hacked
        exact ⟨by simpa [Model.convo, Maps.getElem?_insert, hne] using hconvo,
          by simpa [Ne.symm hne] using h⟩
      · exact ⟨hconvo,h⟩
    have hack : (s.applyAck now ack).model.convo peer = [] ∧
        peer ∉ (s.applyAck now ack).touchedConvos := by
      simp only [applyAck]
      split
      · exact ⟨hconvo,h⟩
      · exact hmark _ hwater
    exact ih hack.1 hack.2

/-- The contacts are full, and the peer is none of them. -/
def Roomless (peer : String) (s : Ingest) : Prop :=
  s.model.contacts.contains peer = false ∧ maxContacts ≤ s.model.contacts.size

theorem payload_roomless {s : Ingest} (h : s.Roomless peer) (x : Crates) (hash : HashOrder) (now : ℤ)
    (p : String × ParsedPayload) : (s.payload x hash now p.1 p.2).Roomless peer ∧
      (s.payload x hash now p.1 p.2).acks peer = s.acks peer := by
  obtain ⟨sender,ts,pl⟩ := p
  simp only [payload]
  split
  · exact ⟨h,rfl⟩
  split
  · exact ⟨h,rfl⟩
  cases pl with
  | text id body =>
    simp only [text]
    split
    · rename_i hsender
      have hne : sender ≠ peer := by
        rintro rfl
        simp [h.1] at hsender
      refine ⟨by simpa [Roomless] using h,?_⟩
      obtain ⟨hsame,-⟩ | ⟨hun,-⟩ := storeText_texts hash sender (clampTs now ts) id body s peer
      · exact absurd hsame hne
      · exact hun.acks
    rw [if_pos h.2]
    exact ⟨h,rfl⟩
  | deliveryAck ackIds => exact ⟨h,rfl⟩
  | profile displayName bio photo =>
    simp only [profile]
    split
    · exact ⟨h,rfl⟩
    rename_i c hc
    split
    · refine ⟨⟨?_,?_⟩,rfl⟩
      · have hne : sender ≠ peer := by
          rintro rfl
          simp [Std.TreeMap.contains_eq_isSome_getElem?, hc, Roomless] at h
        simpa [Std.TreeMap.contains_insert, Std.LawfulEqCmp.compare_eq_iff_eq, hne] using h.1
      · exact h.2.trans Std.TreeMap.size_le_size_insert
    · exact ⟨h,rfl⟩

/-- Why no text of some payloads is filed with a peer. -/
inductive Stale (m : Model) (peer : String) (ps : List (String × ParsedPayload)) : Prop
  | screened (h : peer = m.myPubkey ∨ m.isBlocked peer = true)
  | roomless (h : Roomless peer { model := m })
  | seen (h : ∀ id ∈ textIds peer ps, id ∈ m.dedupSet peer)

/-- Payloads of which none is filed with a peer. -/
theorem deliver_stale {x : Crates} {hash : HashOrder} {now : ℤ} {m : Model}
    {ps : List (String × ParsedPayload)} (h : Stale m peer ps) :
    (deliver x hash now ps { model := m }).model.convo peer = m.convo peer ∧
      peer ∉ (deliver x hash now ps { model := m }).touchedConvos := by
  have hspread : (deliver x hash now ps { model := m }).Spread peer :=
    deliver_induction (I := Spread peer) (fun p _ s hs => payload_spread hs x hash now p)
      (by simp [Spread])
  suffices hsame : (deliver x hash now ps { model := m }).model.convo peer = m.convo peer ∧
      (deliver x hash now ps { model := m }).acks peer = [] from
    ⟨hsame.1,fun hmem => hspread hmem hsame.2⟩
  cases h with
  | screened h =>
    obtain ⟨hconvo,-,hacks⟩ := deliver_screened h ps
    exact ⟨hconvo,hacks⟩
  | roomless h =>
    refine (deliver_induction (I := fun s => s.Roomless peer ∧ s.model.convo peer = m.convo peer ∧
      s.acks peer = []) (fun p _ s hs => ?_) ⟨h,rfl,by simp [acks]⟩).2
    obtain ⟨hroom,hconvo,hacks⟩ := hs
    obtain ⟨hroom',hsame⟩ := payload_roomless hroom x hash now p
    obtain ⟨_,_,-,-,-,-,hfiled⟩ | hun := payload_texts x hash now p s peer
    · rw [hfiled.acks] at hsame
      simp at hsame
    · exact ⟨hroom',hun.convo.trans hconvo,hun.acks.trans hacks⟩
  | seen h =>
    refine (deliver_induction (I := fun s => s.model.dedupSet peer = m.dedupSet peer ∧
      s.model.convo peer = m.convo peer ∧ s.acks peer = [])
      (fun p hp s hs => ?_) ⟨rfl,rfl,by simp [acks]⟩).2
    obtain ⟨hset,hconvo,hacks⟩ := hs
    obtain ⟨id,body,hpeer,htext,-,-,hfiled⟩ | hun := payload_texts x hash now p s peer
    · refine absurd ?_ hfiled.fresh
      rw [hset]
      exact h id (List.mem_filterMap.mpr ⟨p,hp,by simp [htext, hpeer]⟩)
    · exact ⟨hun.dedupSet.trans hset,hun.convo.trans hconvo,hun.acks.trans hacks⟩

end Ingest

section
variable {x : Crates} {amb : Ambient} {m : Model}

/-- A page leaves a conversation with the message, or a full one. -/
theorem ingested_retains (page : PollResp) (id : Crypto.Identity) (h : Retains msg (m.convo peer)) :
    Retains msg ((ingested x amb page id m).model.convo peer) := by
  have hdeliver : Retains msg ((Ingest.deliver x amb.hash (amb.now 1) (page.opened x id)
      { model := m }).model.convo peer) := by
    refine Ingest.deliver_induction (I := fun s => Retains msg (s.model.convo peer))
      (fun p _ s hs => ?_) h
    obtain ⟨i,body,-,-,-,-,hfiled⟩ | hun :=
      Ingest.payload_texts x amb.hash (amb.now 1) p s peer
    · rw [hfiled.convo]
      exact retains_filed hs _
    · rwa [hun.convo]
  have hbare := ingested_convo x amb page id m peer (f := StoredMessage.bare) fun _ => rfl
  have hlen := congrArg List.length hbare
  simp only [List.length_map] at hlen
  rwa [Retains, hbare, hlen]

/-- A page of which no text is filed leaves an empty conversation empty and does not write it. -/
theorem ingested_stale {page : PollResp} {id : Crypto.Identity}
    (h : Ingest.Stale m peer (page.opened x id)) (hconvo : m.convo peer = []) :
    (ingested x amb page id m).model.convo peer = [] ∧
      peer ∉ (ingested x amb page id m).touchedConvos := by
  obtain ⟨hsame,htouched⟩ := @Ingest.deliver_stale peer x amb.hash (amb.now 1) m _ h
  rw [hconvo] at hsame
  have hbare := ingested_convo x amb page id m peer (f := StoredMessage.bare) fun _ => rfl
  rw [hsame, List.map_nil, List.map_eq_nil_iff] at hbare
  obtain ⟨_,_,_,_,_,hmatch⟩ := ingested_delivered x amb page id m
  refine ⟨hbare,?_⟩
  rw [hmatch]
  exact Ingest.applyAcks_untouched hsame htouched (amb.now 1)

/-- A message in memory stays there, unless the peer is deleted or the conversation is full. -/
theorem update_retains {e : Event} (h : msg.bare ∈ (m.convo peer).map StoredMessage.bare)
    (he : e.partsWith x amb m peer msg = false) :
    msg.bare ∈ ((update x amb e m).1.convo peer).map StoredMessage.bare := by
  have hsame : (update x amb e m).1.messages = m.messages →
      msg.bare ∈ ((update x amb e m).1.convo peer).map StoredMessage.bare := by
    intro hmessages
    rwa [Model.convo, hmessages]
  by_cases hw : Field.messages ∈ e.writes
  · cases e with
    | sendText =>
      obtain hsend | ⟨p,-,hsend⟩ := sendText_messages x amb m
      · exact hsame hsend
      refine mem_of_not_crowdsOut ?_ he
      rw [update, convo_insert hsend]
      split
      · rename_i hp
        exact retains_filed (.inl (hp ▸ h)) _
      · exact .inl h
    | loadedMessages p res =>
      obtain hload | ⟨list,convo,-,hload,hconvo⟩ := loadedMessages_messages p res m
      · exact hsame hload
      refine mem_of_not_crowdsOut ?_ he
      rw [update, convo_insert hload]
      split
      · rename_i hp
        subst hp
        obtain ⟨hnone,-⟩ | ⟨existing,hc,hmerge⟩ := hconvo
        · simp [Model.convo, hnone] at h
        · rw [hmerge]
          exact retains_mergeHistory (by simpa [Model.convo, hc] using h) list
      · exact .inl h
    | pollResult gen res =>
      obtain ⟨_,_,_,_,_,_,hm⟩ | ⟨page,id,-,-,-,-,hm⟩ := pollResult_cases x amb gen res m
      · refine hsame ?_
        rw [update, hm]
      · refine mem_of_not_crowdsOut ?_ he
        rw [update, hm]
        exact ingested_retains page id (.inl h)
    | deleteContact p =>
      have hp : p ≠ peer := by simpa [Event.partsWith] using he
      obtain ⟨_,_,_,_,hm⟩ := forgetPeer_eq m p
      simp only [update, deleteContact_fst]
      rw [Model.refused_eq, hm]
      simpa [Model.convo, Maps.getElem?_erase, hp] using h
    | _ => simp [Event.writes] at hw
  · exact hsame (update_agrees x amb e m .messages hw)

theorem stale_of_filesText {gen : UInt64} {res : HttpResult} {page : PollResp} {id : Crypto.Identity}
    (htakes : (Event.pollResult gen res).takesIn x m = some (page,id))
    (h : (Event.pollResult gen res).filesText x m peer = false) :
    Ingest.Stale { m with polling := false, pollRetries := 0 } peer (page.opened x id) := by
  simp only [Event.filesText, htakes, Option.any_some] at h
  by_cases hme : peer = m.myPubkey
  · exact .screened (.inl hme)
  by_cases hblocked : m.isBlocked peer = true
  · exact .screened (.inr hblocked)
  by_cases hroom : m.contacts.contains peer = true ∨ m.contacts.size < maxContacts
  · refine .seen fun i hi => ?_
    change i ∈ m.dedupSet peer
    by_contra hnew
    have hroom : (m.contacts.contains peer || decide (m.contacts.size < maxContacts)) = true := by
      simpa using hroom
    have hfresh : ((textIds peer (page.opened x id)).any fun i => i ∉ m.dedupSet peer) = true :=
      List.any_eq_true.mpr ⟨i,hi,by simpa using hnew⟩
    rw [hroom, hfresh] at h
    simp [hme, hblocked] at h
  · rw [not_or, Bool.not_eq_true, Nat.not_lt] at hroom
    exact .roomless hroom

/-- A conversation is not in memory, or the message is in it. -/
def Model.bears (m : Model) (peer : String) (msg : StoredMessage) : Prop :=
  m.convo peer = [] ∨ msg.bare ∈ (m.convo peer).map StoredMessage.bare

theorem update_bears {e : Event} (h : m.bears peer msg)
    (he : e.Reads peer fun list => msg.bare ∈ list.map StoredMessage.bare)
    (hparts : e.partsWith x amb m peer msg = false) (hfiles : e.filesLoaded x m peer = true) :
    (update x amb e m).1.bears peer msg := by
  obtain hempty | h := h
  · have hno : e.filesText x m peer = false := by simpa [Event.filesLoaded, hempty] using hfiles
    have hsame : (update x amb e m).1.messages = m.messages → (update x amb e m).1.bears peer msg := by
      intro hmessages
      left
      rwa [Model.convo, hmessages]
    by_cases hw : Field.messages ∈ e.writes
    · cases e with
      | sendText =>
        obtain hsend | ⟨p,hwrites,hsend⟩ := sendText_messages x amb m
        · exact hsame hsend
        left
        rw [update, convo_insert hsend, if_neg ?_, hempty]
        rintro rfl
        simp [Event.filesText, hwrites] at hno
      | loadedMessages p res =>
        obtain hload | ⟨list,convo,rfl,hload,hconvo⟩ := loadedMessages_messages p res m
        · exact hsame hload
        by_cases hp : p = peer
        · subst hp
          right
          refine mem_of_not_crowdsOut ?_ hparts
          have hlist : msg.bare ∈ list.map StoredMessage.bare := he list rfl
          rw [update, convo_insert hload, if_pos rfl]
          obtain ⟨-,hnew⟩ | ⟨existing,hc,hmerge⟩ := hconvo
          · exact .inl (hnew ▸ hlist)
          · obtain rfl : existing = [] := by simpa [Model.convo, hc] using hempty
            rw [hmerge]
            exact retains_mergeHistory_nil hlist
        · left
          rw [update, convo_insert hload, if_neg hp, hempty]
      | pollResult gen res =>
        obtain ⟨_,_,_,_,_,_,hm⟩ | ⟨page,id,hgen,hk,hpage,hid,hm⟩ := pollResult_cases x amb gen res m
        · refine hsame ?_
          rw [update, hm]
        · left
          have hstale := stale_of_filesText (takesIn_some hgen hk hpage hid) hno
          rw [update, hm]
          exact (ingested_stale hstale hempty).1
      | deleteContact p =>
        left
        obtain ⟨_,_,_,_,hm⟩ := forgetPeer_eq m p
        simp only [update, deleteContact_fst]
        rw [Model.refused_eq, hm]
        simp only [Model.convo, Maps.getElem?_erase]
        split
        · rfl
        · exact hempty
      | _ => simp [Event.writes] at hw
    · exact hsame (update_agrees x amb e m .messages hw)
  · exact .inr (update_retains h hparts)

theorem pollResult_takesIn {gen : UInt64} {res : HttpResult} {page : PollResp} {id : Crypto.Identity}
    (h : (Event.pollResult gen res).takesIn x m = some (page,id)) :
    (pollResult x amb gen res m).1 =
      (ingested x amb page id { m with polling := false, pollRetries := 0 }).model := by
  simp only [Event.takesIn, Option.bind_eq_bind, Option.bind_eq_some_iff, Option.guard_eq_some',
    Option.pure_def, Option.some.injEq, Prod.mk.injEq] at h
  obtain ⟨_,⟨rfl,hk⟩,_,hpage,_,hid,rfl,rfl⟩ := h
  rw [pollResult_page hk hpage]
  let m' : Model := { m with polling := false, pollRetries := 0 }
  change (ingestPoll x amb _ m').1 = _
  rw [ingestPoll_eq (m := m') hk hid]

theorem holds_messages {list : List StoredMessage} :
    (KvValue.messages list).holds msg = true ↔ msg.bare ∈ list.map StoredMessage.bare := by
  simp only [KvValue.holds, decide_eq_true_eq]

theorem update_files_history {e : Event} (h : m.bears peer msg)
    (hparts : e.partsWith x amb m peer msg = false) (hfiles : e.filesLoaded x m peer = true) :
    ∀ c ∈ (update x amb e m).2, CmdFiles (fun p value => p = peer → value.any (KvValue.holds msg) = true) c := by
  have hloaded : e.filesText x m peer = true →
      msg.bare ∈ ((update x amb e m).1.convo peer).map StoredMessage.bare := by
    intro hf
    refine update_retains (h.resolve_left fun hempty => ?_) hparts
    simp [Event.filesLoaded, hf, hempty] at hfiles
  refine update_files (fun he p hwrites hp => ?_) (fun p he hp => ?_) fun page id htakes p hp hpeer => ?_
  · subst he hp
    exact holds_messages.mpr (hloaded (by simpa [Event.filesText] using hwrites))
  · subst he hp
    simp [Event.partsWith] at hparts
  · subst hpeer
    cases e with
    | pollResult gen res =>
      refine holds_messages.mpr ?_
      obtain hempty | h := h
      · have hno : (Event.pollResult gen res).filesText x m p = false := by
          simpa [Event.filesLoaded, hempty] using hfiles
        exact absurd hp (ingested_stale (stale_of_filesText htakes hno) hempty).2
      · have hkept := update_retains h hparts
        rw [show update x amb (.pollResult gen res) m = pollResult x amb gen res m from rfl,
          pollResult_takesIn htakes] at hkept
        exact hkept
    | _ => cases htakes

/-- Where the conversation is in memory before a text is filed in it, the message stays on disk. -/
theorem history_keeps : Device.Keeps (app x) kvStore
    (fun amb e m => e.partsWith x amb m peer msg = false ∧ e.filesLoaded x m peer = true)
    (fun m => m.bears peer msg) (Event.Reads peer fun list => msg.bare ∈ list.map StoredMessage.bare)
    (Effect.Careful peer fun value => value.any (KvValue.holds msg) = true)
    (fun disk => (disk (.messages peer)).any (KvValue.holds msg) = true) :=
  conversation_keeps (fun _ h => holds_messages.mp h) (.inl (by simp [Model.convo]))
    fun _ _ _ ha hm he => ⟨update_bears hm he ha.1 ha.2,update_files_history hm ha.1 ha.2⟩

/-- A message that was on disk at launch stays there, whatever happens and wherever the client is
killed, in every run in which no text is filed in a conversation that is not in memory, until the peer
is deleted or the conversation is full without it. -/
theorem history_survives {disk : Disk} {hs : List (Happening Ambient Event Answer)} {d : Phone}
    {stored : List StoredMessage} (hdisk : disk (.messages peer) = some (.messages stored))
    (hmsg : msg ∈ stored)
    (hmeets : Device.Meets (app x) kvStore
      (fun amb e m => e.partsWith x amb m peer msg = false ∧ e.filesLoaded x m peer = true)
      (Device.fresh (app x) disk) hs)
    (hrun : Lts.run (Phone.step x) (Device.fresh (app x) disk) hs = some d) :
    (d.disk (.messages peer)).any (KvValue.holds msg) = true := by
  refine (history_keeps.run ?_ hmeets hrun).disk
  rw [hdisk]
  exact holds_messages.mpr (List.mem_map_of_mem hmsg)

end
end

/-- A contact and the history with it on disk. -/
def sampleDisk : Disk
  | .contacts => some (.contacts [Contact.new (samplePeer 7) "" 0])
  | .messages p => if p = samplePeer 7 then some (.messages sampleHistory) else none
  | _ => none

/-- Actions of the sample shell. -/
def sampleActs (acts : List (Action Event Answer)) : List (Happening Ambient Event Answer) :=
  acts.map (.act .sample)

/-- Operations that reach the store. -/
def performs (n : ℕ) : List (Happening Ambient Event Answer) := List.replicate n (.perform true)

/-- A launch up to the contacts, which ask for the history. -/
def sampleLoading : List (Happening Ambient Event Answer) :=
  sampleActs [.shell (.identityLoaded sampleSecret)] ++ performs 3 ++ [.deliver .sample 2]

/-- A text to the contact. -/
def sampleSaying : List (Happening Ambient Event Answer) :=
  sampleActs [.shell (.openChat (samplePeer 7)),.shell (.composeChanged "yo"),.shell .sendText,.drain]

/-- The history is read before the text, and the client is killed once its conversation is written. -/
theorem history_survives_loaded : ∃ d,
    Lts.run (Phone.step .sample) (Device.fresh (app .sample) sampleDisk)
      (sampleLoading ++ performs 4 ++ [.deliver .sample 6] ++ sampleSaying ++ performs 1 ++ [.kill]) = some d ∧
    ((d.disk (.messages (samplePeer 7))).bind KvValue.messages?).any (fun list => list.length = 2) = true ∧
    (d.disk (.messages (samplePeer 7))).any (KvValue.holds ⟨"a","hi",1,false,false⟩) = true := by
  have hrun : (Device.runMeeting (app .sample) kvStore
      (fun amb e m => e.partsWith .sample amb m (samplePeer 7) ⟨"a","hi",1,false,false⟩ = false ∧
        e.filesLoaded .sample m (samplePeer 7) = true) (Device.fresh (app .sample) sampleDisk)
      (sampleLoading ++ performs 4 ++ [.deliver .sample 6] ++ sampleSaying ++ performs 1 ++ [.kill])).any (fun d =>
        ((d.disk (.messages (samplePeer 7))).bind KvValue.messages?).any fun list => list.length = 2) = true := by
    decide
  obtain ⟨hmeets,d,hd,hlen⟩ := Device.exists_of_runMeeting _ _ hrun
  have hdisk : sampleDisk (.messages (samplePeer 7)) = some (.messages sampleHistory) := by rfl
  exact ⟨d,hd,hlen,history_survives hdisk (by simp [sampleHistory]) hmeets hd⟩

/-- The text is written while the history is still being read: the conversation that is written does not
have it, and the merged one is not written. -/
theorem history_overwritten : ∃ d,
    Lts.run (Phone.step .sample) (Device.fresh (app .sample) sampleDisk)
      (sampleLoading ++ sampleSaying ++ performs 5 ++ [.deliver .sample 6]) = some d ∧
    (sampleDisk (.messages (samplePeer 7))).any (KvValue.holds ⟨"a","hi",1,false,false⟩) = true ∧
    Device.Meets (app .sample) kvStore
      (fun amb e m => e.partsWith .sample amb m (samplePeer 7) ⟨"a","hi",1,false,false⟩ = false)
      (Device.fresh (app .sample) sampleDisk)
      (sampleLoading ++ sampleSaying ++ performs 5 ++ [.deliver .sample 6]) ∧
    (d.disk (.messages (samplePeer 7))).any (KvValue.holds ⟨"a","hi",1,false,false⟩) = false ∧
    ∀ p ∈ d.core.pending, (p.2.filed (samplePeer 7)).any (KvValue.holds ⟨"a","hi",1,false,false⟩) = false := by
  have hrun : (Device.runMeeting (app .sample) kvStore
      (fun amb e m => e.partsWith .sample amb m (samplePeer 7) ⟨"a","hi",1,false,false⟩ = false)
      (Device.fresh (app .sample) sampleDisk)
      (sampleLoading ++ sampleSaying ++ performs 5 ++ [.deliver .sample 6])).any (fun d =>
        !(d.disk (.messages (samplePeer 7))).any (KvValue.holds ⟨"a","hi",1,false,false⟩) &&
        d.core.pending.all fun p =>
          !(p.2.filed (samplePeer 7)).any (KvValue.holds ⟨"a","hi",1,false,false⟩)) = true := by
    decide +kernel
  obtain ⟨hmeets,d,hd,hkeeps⟩ := Device.exists_of_runMeeting _ _ hrun
  simp only [Bool.and_eq_true, Bool.not_eq_true', List.all_eq_true] at hkeeps
  obtain ⟨hdisk,hpending⟩ := hkeeps
  exact ⟨d,hd,by decide +kernel,hmeets,hdisk,hpending⟩

end Skrepka.Client
