import Skrepka.Client.Phone
import Skrepka.Lib.Chunks

/-! Pages, loads and every other event keep the terms, and so does a whole run from a fresh install. -/
namespace Skrepka.Client
open Rust Mvu Queue

section
variable {x : Crates} {T : Terms}

namespace Ingest
variable {hash : HashOrder} {now : ℤ}

variable (x T) in
/-- What a page is folded into meets the terms, and the acks are for known keys and name short ids. -/
structure Meets (s : Ingest) : Prop where
  model : s.model.Meets x T
  acks : ∀ (peer : String) (ids : List String), s.ackTargets[peer]? = some ids →
    T.key peer ∧ ∀ id ∈ ids, len id ≤ Protocol.maxIdLen

theorem Meets.of_eq {s s' : Ingest} (h : s.Meets x T) (hm : s'.model.Meets x T)
    (ha : s'.ackTargets = s.ackTargets) : s'.Meets x T := ⟨hm,ha ▸ h.acks⟩

theorem storeText_meets {s : Ingest} (h : s.Meets x T) {sender msgId : String} (hkey : T.key sender)
    (hid : len msgId ≤ Protocol.maxIdLen) (ts : ℤ) (body : String) :
    (s.storeText hash sender ts msgId body).Meets x T := by
  simp only [storeText]
  split
  · exact h.of_eq (h.model.of_eq rfl rfl rfl rfl) rfl
  · refine ⟨h.model.of_eq rfl rfl rfl rfl,fun peer ids hids => ?_⟩
    simp only [Maps.getElem?_insert] at hids
    split at hids
    · rename_i hpeer
      obtain rfl := Option.some.inj hids
      refine ⟨hpeer ▸ hkey,fun id hmem => ?_⟩
      obtain hmem | hmem := List.mem_append.mp hmem
      · cases hold : s.ackTargets[sender]? with
        | none => simp [hold] at hmem
        | some old =>
          rw [hold] at hmem
          exact (h.acks sender old hold).2 id hmem
      · exact List.mem_singleton.mp hmem ▸ hid
    · exact h.acks peer ids hids

theorem addStranger_meets {s : Ingest} (h : s.Meets x T) {sender : String} (hkey : T.key sender) {ts : ℤ}
    (hts : i64Min ≤ ts ∧ ts ≤ i64Max) : (s.addStranger x sender ts).Meets x T := by
  refine h.of_eq (h.model.file hkey rfl rfl rfl rfl fun i hi => ?_) rfl
  obtain hi | hi := List.mem_append.mp hi
  · exact h.model.outbox i hi
  · exact List.mem_singleton.mp hi ▸ ⟨hkey,printed_profile h.model.profile hts⟩

theorem clampTs_bounds {now ts : ℤ} (hts : ts ≤ i64Max) :
    i64Min ≤ clampTs now ts ∧ clampTs now ts ≤ i64Max := by
  have hpos : (0 : ℤ) ≤ i64Max := by decide
  have hneg : i64Min ≤ (0 : ℤ) := by decide
  have hmax : i64Min ≤ i64Max := by decide
  unfold clampTs i64SaturatingAdd
  constructor
  · exact le_min (hneg.trans (le_max_right _ _)) (le_max_left _ _)
  · exact (min_le_left _ _).trans (max_le hts hpos)

theorem payload_meets {s : Ingest} (h : s.Meets x T) {p : String × ParsedPayload}
    (hkey : p.1 ≠ s.model.myPubkey → T.key p.1) (hts : p.2.ts ≤ i64Max)
    (hcaps : p.2.payload.withinCaps x = true) : (s.payload x hash now p.1 p.2).Meets x T := by
  obtain ⟨sender,ts,pl⟩ := p
  simp only [payload]
  split
  · exact h
  rename_i hother
  have hkey := hkey hother
  split
  · exact h
  cases pl with
  | text id body =>
    simp only [Payload.withinCaps, Bool.and_eq_true, decide_eq_true_eq] at hcaps
    simp only [text]
    split
    · exact storeText_meets h hkey hcaps.1 _ _
    split
    · exact h
    · exact storeText_meets (addStranger_meets h hkey (clampTs_bounds hts)) hkey hcaps.1 _ _
  | deliveryAck ackIds => exact h.of_eq (h.model.of_eq rfl rfl rfl rfl) rfl
  | profile displayName bio photo =>
    simp only [profile]
    split
    · exact h
    rename_i c hc
    split
    · exact h.of_eq (h.model.file hkey (by exact h.model.keyed _ c hc) rfl rfl rfl h.model.outbox) rfl
    · exact h

theorem deliver_meets {s : Ingest} (h : s.Meets x T)
    {ps : List (String × ParsedPayload)} (hps : ∀ p ∈ ps, (p.1 ≠ s.model.myPubkey → T.key p.1) ∧
      p.2.ts ≤ i64Max ∧ p.2.payload.withinCaps x = true) : (deliver x hash now ps s).Meets x T := by
  induction ps generalizing s with
  | nil => exact h
  | cons p ps ih =>
    obtain ⟨hkey,hts,hcaps⟩ := hps p List.mem_cons_self
    refine ih (payload_meets h hkey hts hcaps) fun q hq => ?_
    rw [payload_me]
    exact hps q (List.mem_cons_of_mem _ hq)

theorem applyAck_meets {s : Ingest} (h : s.Meets x T) (pending : String × PendingAck) :
    (s.applyAck now pending).Meets x T := by
  have hmark : ∀ s : Ingest, s.Meets x T → (s.markConvo pending.1 pending.2).Meets x T := by
    intro s h
    simp only [markConvo]
    split
    · exact h
    split
    · exact h.of_eq (h.model.of_eq rfl rfl rfl rfl) rfl
    · exact h
  simp only [applyAck]
  split
  · exact h
  refine hmark _ ?_
  simp only [ackWatermark]
  split
  · exact h
  · rename_i c hc
    exact h.of_eq (h.model.file (h.model.contacts _ c hc) (by exact h.model.keyed _ c hc) rfl rfl rfl
      h.model.outbox) rfl

theorem applyAcks_meets {s : Ingest} (h : s.Meets x T) : (s.applyAcks now).Meets x T := by
  unfold applyAcks
  generalize s.pendingAcks.toList = acks
  induction acks generalizing s with
  | nil => exact h
  | cons ack acks ih => exact ih (applyAck_meets h ack)

theorem queueAcks_meets {s : Ingest} (h : s.Meets x T) {ackTs : ℤ}
    (hts : i64Min ≤ ackTs ∧ ackTs ≤ i64Max) : (s.queueAcks x ackTs).model.Meets x T := by
  refine ⟨h.model.profile,h.model.keyed,h.model.contacts,h.model.active,fun i hi => ?_⟩
  obtain hi | hi := List.mem_append.mp hi
  · exact h.model.outbox i hi
  · obtain ⟨⟨peer,ids⟩,htarget,hi⟩ := List.mem_flatMap.mp hi
    obtain ⟨chunk,hchunk,rfl⟩ := List.mem_map.mp hi
    obtain ⟨hkey,hids⟩ := h.acks peer ids (Maps.mem_toList.mp htarget)
    have hcount := (Chunks.bounds_toChunks (by decide) ids chunk hchunk).2
    have hsub : ∀ id ∈ chunk, id ∈ ids := by
      intro id hid
      rw [← Chunks.flatten_toChunks ids]
      exact List.mem_flatten.mpr ⟨chunk,hchunk,hid⟩
    refine ⟨hkey,_,_,hts.1,hts.2,?_,rfl⟩
    simp only [Payload.withinCaps, Bool.and_eq_true, decide_eq_true_eq, List.all_eq_true]
    exact ⟨hcount,fun id hid => hids id (hsub id hid)⟩

theorem persist_keeps (hash : HashOrder) (s : Ingest) : Keeping x T (s.persist hash) := by
  refine Upd.Keeps.and (.all fun f hf => ?_) (.and (.when _ persistSeenIds_keeps)
    (.and (.when _ persistContacts_keeps) (.when _ persistOutbox_keeps)))
  obtain ⟨peer,-,rfl⟩ := List.mem_map.mp hf
  exact persistMessages_keeps peer

end Ingest

/-- What a page delivers was within the caps. -/
theorem opened_caps {id : Crypto.Identity} {page : PollResp} {p : String × ParsedPayload}
    (h : p ∈ page.opened x id) : p.2.ts ≤ i64Max ∧ p.2.payload.withinCaps x = true := by
  obtain ⟨blob,-,hopen⟩ := List.mem_filterMap.mp h
  simp only [Ingest.openBlob, Option.bind_eq_bind, Option.bind_eq_some_iff] at hopen
  obtain ⟨bytes,-,dec,-,parsed,hparsed,heq⟩ := hopen
  obtain ⟨v,-,hv⟩ := Option.bind_eq_some_iff.mp hparsed
  obtain ⟨-,hmax,-,hcaps⟩ := payloadOfJson_some hv
  obtain rfl := Option.some.inj heq
  exact ⟨hmax,hcaps⟩

theorem ingested_meets {amb : Ambient} (hamb : amb.Sane) {m : Model} (hm : m.Meets x T) (page : PollResp)
    {id : Crypto.Identity} (hnew : ∀ p ∈ page.opened x id, p.1 ≠ m.myPubkey → T.key p.1) :
    (ingested x amb page id m).model.Meets x T := by
  obtain ⟨c,e,b,p,q,h⟩ := ingested_delivered x amb page id m
  have hdelivered : (delivered x amb (page.opened x id) m).model.Meets x T := by
    refine Ingest.queueAcks_meets (Ingest.applyAcks_meets (Ingest.deliver_meets ?_ ?_)) (hamb.now 2)
    · exact ⟨hm,fun peer ids hids => by simp at hids⟩
    · exact fun p hp => ⟨hnew p hp,opened_caps hp⟩
  rw [h]
  exact hdelivered.of_eq rfl rfl rfl rfl

/-- The keys that an event brings to the knowledge of a client. -/
def Event.brings (x : Crates) (m : Model) : Event → String → Prop
  | .openChat peer, key => key = peer
  | .addContact input _, key =>
    Phonemic.tryParsePubkey x.verifyingKey input = some key ∧ key ≠ m.myPubkey
  | .pollResult gen res, key => ∃ page id, (Event.pollResult gen res).takesIn x m = some (page,id) ∧
    key ∈ (page.opened x id).map Prod.fst ∧ key ≠ m.myPubkey
  | _, _ => False

/-- Whatever is neither a write nor a send. -/
theorem cmdMeets_of_ask {c : Cmd Event Effect} (h : ask c ∉ [.write,.writeCursor,.send,.other]) :
    CmdMeets x T c := by
  cases c with
  | event | render => trivial
  | request f =>
    cases f with
    | time => trivial
    | http req tag => cases tag <;> first | trivial | simp [ask] at h
    | kv op tag =>
      cases op with
      | get | delete => trivial
      | set key value => cases tag <;> simp [ask] at h

theorem cmdsMeet_of_asks {as : List Ask} {cs : Commands} (h : Asks as cs)
    (hq : ∀ a ∈ as, a ∉ [.write,.writeCursor,.send,.other]) : ∀ c ∈ cs, CmdMeets x T c :=
  fun c hc => cmdMeets_of_ask (hq _ (h c hc))

theorem ingestPoll_kept {amb : Ambient} (hamb : amb.Sane) {m : Model} (hm : m.Meets x T) (page : PollResp)
    (hk : m.kvLoadFailed = false) (hnew : ∀ id, m.identity x = some id → ∀ p ∈ page.opened x id,
      p.1 ≠ m.myPubkey → T.key p.1) : Outcome x T (ingestPoll x amb page m) := by
  unfold ingestPoll
  rw [if_neg (by simp [hk])]
  simp only [adoptCursor_identity]
  split
  · refine ⟨?_,by simp⟩
    simp only [adoptCursor]
    split <;> exact hm.of_eq rfl rfl rfl rfl
  · rename_i id hid
    exact ((Ingest.persist_keeps amb.hash _).and (emit_keeps (by simp [CmdMeets]))) _
      (ingested_meets hamb hm page (hnew id hid))

theorem pollPage_kept {amb : Ambient} {page : PollResp} {m : Model}
    (h : Outcome x T (ingestPoll x amb page m)) : Outcome x T (pollPage x amb page m) := by
  unfold pollPage
  generalize ingestPoll x amb page m = r at h ⊢
  refine ⟨h.1,fun c hc => ?_⟩
  obtain hc | hc := List.mem_append.mp hc
  · exact h.2 c hc
  · simp only [List.mem_cons, List.not_mem_nil, or_false] at hc
    obtain rfl | rfl | rfl := hc
    · split <;> trivial
    · trivial
    · trivial

theorem pollResult_kept {amb : Ambient} (hamb : amb.Sane) {gen : UInt64} {res : HttpResult} {m : Model}
    (hm : m.Meets x T) (hnew : ∀ key, (Event.pollResult gen res).brings x m key → T.key key) :
    Outcome x T (pollResult x amb gen res m) := by
  by_cases hno : gen ≠ m.pollGen ∨ m.kvLoadFailed = true ∨ readPage x res = none
  · refine ⟨?_,cmdsMeet_of_asks (pollResult_pageless hno).2 (by simp)⟩
    obtain ⟨_,_,_,_,_,_,h⟩ | ⟨page,id,hgen,hk,hpage,-,-⟩ := pollResult_cases x amb gen res m
    · rw [h]
      exact hm.of_eq rfl rfl rfl rfl
    · simp [hgen, hk, hpage] at hno
  · simp only [not_or, ne_eq, not_not, Bool.not_eq_true] at hno
    obtain ⟨rfl,hk,hpage⟩ := hno
    obtain ⟨page,hpage⟩ := Option.ne_none_iff_exists'.mp hpage
    rw [pollResult_page hk hpage]
    exact pollPage_kept (ingestPoll_kept hamb (m := { m with polling := false, pollRetries := 0 })
      (hm.of_eq rfl rfl rfl rfl) page hk fun id hid p hp hother => hnew p.1
        ⟨page,id,takesIn_eq_some.mpr ⟨rfl,hk,hpage,hid⟩,List.mem_map_of_mem hp,hother⟩)

/-- What a load brings from the store. -/
def Event.stored : Event → Option KvValue
  | .loadedProfile (.ok (some v)) | .loadedContacts (.ok (some v)) | .loadedOutbox (.ok (some v)) => some v
  | _ => none

variable (x T) in
/-- What an event brings from the store meets the terms. -/
def Event.Meets (e : Event) : Prop := ∀ v ∈ e.stored, v.Meets x T

theorem startupDone_keeps : Keeping x T startupDone := by
  intro m hm
  obtain ⟨_,h⟩ := startupDone_fst m
  refine ⟨?_,cmdsMeet_of_asks (startupDone_asks m) (by simp)⟩
  rw [h]
  exact hm.of_eq rfl rfl rfl rfl

theorem parseKv_some {α : Type} {decode : KvValue → Option α} {res : KvData} {a : α}
    (h : parseKv decode res = .ok (some a)) : ∃ v, res = .ok (some v) ∧ decode v = some a := by
  obtain _ | _ | v := res
  · simp [parseKv] at h
  · simp [parseKv] at h
  · cases hv : decode v with
    | none => simp [parseKv, hv] at h
    | some b =>
      obtain rfl : b = a := by simpa [parseKv, hv] using h
      exact ⟨v,rfl,hv⟩

theorem loaded_kept {α : Type} {decode : KvValue → Option α} {install : α → Model → Model}
    {failed : Model → Model} {res : KvData} {m : Model}
    (h : (loadedModel decode install failed res m).Meets x T) :
    Outcome x T (loaded decode install failed res m) := by
  rw [loaded_eq]
  exact (startupDone_keeps.and render_keeps) _ h

theorem mem_contactMap {list : List Contact} {k : String} {c : Contact}
    (h : (contactMap list)[k]? = some c) : c ∈ list := by
  unfold contactMap at h
  suffices hfold : ∀ map : PeerMap Contact,
      (list.foldl (fun map c => map.insert c.pubkey c) map)[k]? = some c → c ∈ list ∨ map[k]? = some c from
    (hfold ∅ h).resolve_right (by simp)
  clear h
  induction list with
  | nil => exact fun _ h => .inr h
  | cons d list ih =>
    intro map h
    obtain hmem | h := ih _ h
    · exact .inl (List.mem_cons_of_mem d hmem)
    · rw [Maps.getElem?_insert] at h
      split at h
      · exact .inl (Option.some.inj h ▸ List.mem_cons_self)
      · exact .inr h

theorem loadedContacts_kept {res : KvData} {m : Model} (hm : m.Meets x T)
    (h : (Event.loadedContacts res).Meets x T) : Outcome x T (loadedContacts res m) := by
  refine ⟨?_,cmdsMeet_of_asks (loadedContacts_asks res m) (by simp)⟩
  obtain ⟨_,hdone⟩ := startupDone_fst m
  unfold loadedContacts
  generalize startupDone m = r at hdone ⊢
  obtain ⟨m',cs⟩ := r
  obtain rfl : m' = _ := hdone
  simp only
  split
  · rename_i list hlist
    obtain ⟨v,rfl,hv⟩ := parseKv_some hlist
    have hlist : ∀ c ∈ list, T.key c.pubkey := by
      have hv' := h v rfl
      cases v <;> simp only [KvValue.contacts?, Option.some.injEq, reduceCtorEq] at hv
      exact hv ▸ hv'
    refine ⟨hm.profile,contactMap_keyed list,fun k c hc => ?_,hm.active,hm.outbox⟩
    exact contactMap_keyed list k c hc ▸ hlist c (mem_contactMap hc)
  · exact hm.of_eq rfl rfl rfl rfl
  · exact hm.of_eq rfl rfl rfl rfl

theorem loadedProfile_kept {res : KvData} {m : Model} (hm : m.Meets x T)
    (h : (Event.loadedProfile res).Meets x T) : Outcome x T (loadedProfile res m) := by
  refine loaded_kept ?_
  unfold loadedModel
  split
  · rename_i p hp
    obtain ⟨v,rfl,hv⟩ := parseKv_some hp
    have hv' := h v rfl
    cases v <;> simp only [KvValue.profile?, Option.some.injEq, reduceCtorEq] at hv
    exact ⟨hv ▸ hv',hm.keyed,hm.contacts,hm.active,hm.outbox⟩
  · exact hm
  · exact hm.of_eq rfl rfl rfl rfl

theorem loadedOutbox_kept {res : KvData} {m : Model} (hm : m.Meets x T)
    (h : (Event.loadedOutbox res).Meets x T) : Outcome x T (loadedOutbox res m) := by
  refine loaded_kept ?_
  unfold loadedModel
  split
  · rename_i items hitems
    obtain ⟨v,rfl,hv⟩ := parseKv_some hitems
    have hv' := h v rfl
    cases v <;> simp only [KvValue.outbox?, Option.some.injEq, reduceCtorEq] at hv
    exact ⟨hm.profile,hm.keyed,hm.contacts,hm.active,hv ▸ hv'⟩
  · exact hm
  · exact hm.of_eq rfl rfl rfl rfl

/-- No event but those that bring in new keys or values from outside can break the terms. -/
theorem update_kept (hT : T.Batches x) {amb : Ambient} (hamb : amb.Sane) {e : Event} {m : Model}
    (hm : m.Meets x T) (he : e.Meets x T) (hnew : ∀ key, e.brings x m key → T.key key) :
    Outcome x T (update x amb e m) := by
  have hquiet : e.writes.all (fun f => f ∉ [.profile,.contacts,.activePeer,.outbox]) = true →
      (∀ a ∈ e.asks, a ∉ [.write,.writeCursor,.send,.other]) → Outcome x T (update x amb e m) := by
    intro hw ha
    have hfield : ∀ f ∈ [Field.profile,.contacts,.activePeer,.outbox], f.get (update x amb e m).1 = f.get m := by
      intro f hf
      refine update_agrees x amb e m f fun hmem => ?_
      have hnot := List.all_eq_true.mp hw f hmem
      simp only [decide_eq_true_eq] at hnot
      exact hnot hf
    exact ⟨hm.of_eq (hfield .profile (by simp)) (hfield .contacts (by simp)) (hfield .activePeer (by simp))
      (hfield .outbox (by simp)),cmdsMeet_of_asks (update_asks x amb e m) ha⟩
  cases e with
  | sendText =>
    change Outcome x T (sendText x amb m)
    exact sendText_keeps hamb m hm
  | addContact input nickname =>
    change Outcome x T (addContact x amb input nickname m)
    exact addContact_kept amb input nickname hm fun key h hown => hnew key ⟨h,hown⟩
  | setBlocked peer blocked =>
    change Outcome x T (setBlocked peer blocked m)
    exact setBlocked_keeps peer blocked m hm
  | deleteContact peer =>
    change Outcome x T (deleteContact peer m)
    exact deleteContact_keeps peer m hm
  | saveProfile displayName bio photo =>
    change Outcome x T (saveProfile x amb displayName bio photo m)
    exact saveProfile_keeps hamb displayName bio photo m hm
  | setServerUrl url =>
    change Outcome x T (setServerUrl x url m)
    exact setServerUrl_keeps url m hm
  | startFlush =>
    change Outcome x T (flushNext x amb m)
    exact flushNext_keeps hT amb m hm
  | flushWatchdog gen =>
    change Outcome x T (flushWatchdog x amb gen m)
    exact flushWatchdog_keeps hT amb gen m hm
  | sendResult gen res =>
    change Outcome x T (sendResult x amb gen res m)
    exact sendResult_keeps hT amb gen res m hm
  | pollResult gen res =>
    change Outcome x T (pollResult x amb gen res m)
    exact pollResult_kept hamb hm hnew
  | loadedProfile res =>
    change Outcome x T (loadedProfile res m)
    exact loadedProfile_kept hm he
  | loadedContacts res =>
    change Outcome x T (loadedContacts res m)
    exact loadedContacts_kept hm he
  | loadedOutbox res =>
    change Outcome x T (loadedOutbox res m)
    exact loadedOutbox_kept hm he
  | openChat peer =>
    exact ⟨⟨hm.profile,hm.keyed,hm.contacts,fun p hp => hnew p (Option.some.inj hp).symm,hm.outbox⟩,
      by simp [update, openChat, showPage, CmdMeets]⟩
  | showConversations | back =>
    exact ⟨⟨hm.profile,hm.keyed,hm.contacts,fun p hp => by simp [update, showConversations, showPage] at hp,hm.outbox⟩,
      by simp [update, showConversations, showPage, CmdMeets]⟩
  | _ => exact hquiet (by simp [Event.writes]) (by simp [Event.asks])

/-- A value on the disk. -/
def DiskMeets (x : Crates) (T : Terms) (disk : Disk) : Prop :=
  ∀ key value, disk key = some value → value.Meets x T

theorem performKv_meets {disk : Disk} {op : KvOp} (tag : KvTag) (hd : DiskMeets x T disk)
    (hop : CmdMeets x T (.request (.kv op tag))) : DiskMeets x T (performKv disk op).1 ∧
      ∀ e, answer x (.kv op tag) (performKv disk op).2 = some e → e.Meets x T := by
  have hread : ∀ key e, answer x (.kv op tag) (.kv (.ok (disk key))) = some e → e.Meets x T := by
    intro key e he v hv
    obtain rfl := Option.some.inj he
    refine hd key v ?_
    cases hdisk : disk key with
    | none => cases tag <;> simp [KvTag.event, Event.stored, hdisk] at hv
    | some w => cases tag <;> simp_all [KvTag.event, Event.stored]
  cases op with
  | get key => exact ⟨hd,hread key⟩
  | set key value =>
    refine ⟨fun k v hv => ?_,hread key⟩
    simp only [performKv] at hv
    split at hv
    · exact Option.some.inj hv ▸ hop
    · exact hd k v hv
  | delete key =>
    refine ⟨fun k v hv => ?_,hread key⟩
    simp only [performKv] at hv
    split at hv
    · simp at hv
    · exact hd k v hv

/-- Where the surroundings are sane and new keys are acceptable, a client and its store keep the
terms. -/
theorem phone_keeps {allowed : Ambient → Event → Model → Prop} {extra : Model → Prop}
    (hT : T.Batches x) (hinit : extra {})
    (hallowed : ∀ amb e m, allowed amb e m → m.Meets x T → extra m →
      amb.Sane ∧ ∀ key, e.brings x m key → T.key key)
    (hextra : ∀ amb e m, allowed amb e m → extra m → extra (update x amb e m).1) :
    Device.Keeps (app x) kvStore allowed (fun m => m.Meets x T ∧ extra m) (Event.Meets x T)
      (fun f => CmdMeets x T (.request f)) (DiskMeets x T) where
  init := by
    refine ⟨⟨by simp [app, OwnProfile.payload, Payload.withinCaps],fun k c hc => ?_,fun k c hc => ?_,
      fun p hp => ?_,fun i hi => ?_⟩,hinit⟩
    all_goals simp_all [app]
  update amb e m ha hm he := by
    obtain ⟨hamb,hnew⟩ := hallowed amb e m ha hm.1 hm.2
    obtain ⟨hgood,hcmds⟩ := update_kept hT hamb hm.1 he hnew
    refine ⟨⟨hgood,hextra amb e m ha hm.2⟩,fun f hf => ?_,fun e' he' => ?_⟩
    · obtain ⟨c,hc,hcf⟩ := List.mem_filterMap.mp hf
      cases c <;> simp at hcf
      exact hcf ▸ hcmds _ hc
    · have hask := (update_asks x amb e m).event he'
      have hother : Ask.other ∉ e.asks := by cases e <;> simp [Event.asks]
      intro v hv
      cases e' <;> simp [Event.stored] at hv
      all_goals exact absurd hask hother
  shell e he := by
    intro v hv
    cases e <;> simp_all [Event.stored, app, fromShell]
  answer f r e _ hop he := by
    intro v hv
    cases f with
    | kv => simp [kvStore] at hop
    | http req tag =>
      cases r <;> simp only [app, answer, Option.some.injEq, reduceCtorEq] at he
      cases tag <;> simp [← he, HttpTag.event, Event.stored] at hv
    | time ms tag =>
      cases r <;> simp only [app, answer, Option.some.injEq, reduceCtorEq] at he
      cases tag <;> simp [← he, TimeTag.event, Event.stored] at hv
  perform f disk hf hd := by
    cases f with
    | kv op tag => exact performKv_meets tag hd hf
    | http | time => exact ⟨hd,by simp [app, kvStore, answer]⟩
  failed f e _ he := by
    intro v hv
    cases f with
    | http | time => simp [app, kvStore, answer] at he
    | kv op tag =>
      simp only [app, kvStore, answer, Option.some.injEq] at he
      cases tag <;> simp [← he, KvTag.event, Event.stored] at hv

end

end Skrepka.Client
