import Skrepka.Lib.Device
import Skrepka.Client.RoundTrip
import Skrepka.Client.Stamps

/-! The client on a device with a key-value store, and terms that its handlers keep: a profile within
the caps, items whose payloads are, and conditions on the keys that it knows. -/
namespace Skrepka.Client
open Rust Mvu Queue

abbrev Disk := KvKey → Option KvValue

/-- What is stored is answered to a read, and what was stored before to a write. -/
def performKv (disk : Disk) : KvOp → Disk × Answer
  | .get key => (disk,.kv (.ok (disk key)))
  | .set key value => (fun k => if k = key then some value else disk k,.kv (.ok (disk key)))
  | .delete key => (fun k => if k = key then none else disk k,.kv (.ok (disk key)))

def kvStore : Store Effect Answer Disk where
  isOp
    | .kv _ _ => true
    | _ => false
  perform
    | .kv op _, disk => performKv disk op
    | _, disk => (disk,.kv (.ok none))
  failed := .kv (.error "store")

/-- The client on a device that keeps its store when the client is killed. -/
abbrev Phone := Device Model Event Effect Answer Disk

abbrev Phone.step (x : Crates) : Phone → Happening Ambient Event Answer → Option Phone :=
  Device.step (app x) kvStore

abbrev freshInstall (x : Crates) : Phone := Device.fresh (app x) fun _ => none

/-- The clock reads an `i64`, and a uuid is short. -/
structure Ambient.Sane (amb : Ambient) : Prop where
  now : ∀ k, i64Min ≤ amb.now k ∧ amb.now k ≤ i64Max
  uuid : len amb.uuid ≤ Protocol.maxIdLen

def OwnProfile.payload (p : OwnProfile) : Payload := .profile (some p.displayName) (some p.bio) p.photo

/-- A text is the print of a payload within the caps. -/
def Printed (x : Crates) (json : String) : Prop :=
  ∃ p ts, i64Min ≤ ts ∧ ts ≤ i64Max ∧ p.withinCaps x = true ∧ json = Protocol.serializePayload x p ts

/-- Conditions on the keys that a client knows, and on the batches that it sends. -/
structure Terms where
  key : String → Prop
  batch : List Envelope → Prop

section
variable (x : Crates) (T : Terms)

structure OutboxItem.Meets (i : OutboxItem) : Prop where
  key : T.key i.recipient
  printed : Printed x i.envelopeJson

/-- What is stored meets the terms. -/
def KvValue.Meets : KvValue → Prop
  | .profile p => p.payload.withinCaps x = true
  | .contacts cs => ∀ c ∈ cs, T.key c.pubkey
  | .outbox items => ∀ i ∈ items, i.Meets x T
  | _ => True

structure Model.Meets (m : Model) : Prop where
  profile : m.profile.payload.withinCaps x = true
  keyed : WellKeyed m.contacts
  contacts : ∀ (k : String) (c : Contact), m.contacts[k]? = some c → T.key k
  active : ∀ peer, m.activePeer = some peer → T.key peer
  outbox : ∀ i ∈ m.outbox, i.Meets x T

/-- What is asked of the store and of the relay meets the terms. -/
def CmdMeets : Cmd Event Effect → Prop
  | .request (.kv (.set _ value) _) => value.Meets x T
  | .request (.http req (.sendResult _)) => ∀ msgs, req.body = .sendBatch msgs → T.batch msgs
  | _ => True

def Outcome (r : Model × Commands) : Prop := r.1.Meets x T ∧ ∀ c ∈ r.2, CmdMeets x T c

abbrev Keeping (f : Handler) : Prop := Upd.Keeps (Model.Meets x T) (CmdMeets x T) f

/-- Batches of items for known keys meet the terms. -/
def Terms.Batches : Prop := ∀ id items msgs, Crypto.Identity.Valid x id →
  List.Forall₂ (Seals x id) items msgs → msgs.length ≤ maxSendBatch →
    (∀ i ∈ items, T.key i.recipient) → T.batch msgs

end

section
variable {x : Crates} {T : Terms}

theorem OutboxItem.Meets.kin {i j : OutboxItem} (h : i.Meets x T) (hk : Kin i j) : j.Meets x T :=
  ⟨hk.1 ▸ h.key,hk.2.2 ▸ h.printed⟩

theorem Model.Meets.of_eq {m m' : Model} (h : m.Meets x T) (hp : m'.profile = m.profile)
    (hc : m'.contacts = m.contacts) (ha : m'.activePeer = m.activePeer) (ho : m'.outbox = m.outbox) :
    m'.Meets x T :=
  ⟨hp ▸ h.profile,hc ▸ h.keyed,hc ▸ h.contacts,ha ▸ h.active,ho ▸ h.outbox⟩

/-- Filing a contact under its own key. -/
theorem Model.Meets.file {m m' : Model} (h : m.Meets x T) {key : String} {c : Contact} (hkey : T.key key)
    (hpub : c.pubkey = key) (hp : m'.profile = m.profile) (hc : m'.contacts = m.contacts.insert key c)
    (ha : m'.activePeer = m.activePeer) (ho : ∀ i ∈ m'.outbox, i.Meets x T) : m'.Meets x T := by
  refine ⟨hp ▸ h.profile,hc ▸ h.keyed.insert hpub,fun k d hd => ?_,ha ▸ h.active,ho⟩
  rw [hc, Maps.getElem?_insert] at hd
  split at hd
  · rename_i hk
    exact hk ▸ hkey
  · exact h.contacts k d hd

/-- Forgetting items and contacts. -/
theorem Model.Meets.shrink {m m' : Model} (h : m.Meets x T) (hp : m'.profile = m.profile)
    (hc : ∀ (k : String) (c : Contact), m'.contacts[k]? = some c → ∃ d, m.contacts[k]? = some d ∧ c.pubkey = d.pubkey)
    (ha : ∀ peer, m'.activePeer = some peer → m.activePeer = some peer)
    (ho : ∀ i ∈ m'.outbox, ∃ j ∈ m.outbox, Kin j i) : m'.Meets x T where
  profile := hp ▸ h.profile
  keyed k c hk := by
    obtain ⟨d,hd,hpub⟩ := hc k c hk
    exact hpub.trans (h.keyed k d hd)
  contacts k c hk := by
    obtain ⟨d,hd,-⟩ := hc k c hk
    exact h.contacts k d hd
  active peer hpeer := h.active peer (ha peer hpeer)
  outbox i hi := by
    obtain ⟨j,hj,hk⟩ := ho i hi
    exact (h.outbox j hj).kin hk

theorem Model.Meets.refused {m : Model} (h : m.Meets x T) : m.refused.Meets x T := by
  rw [m.refused_eq]
  exact h.of_eq rfl rfl rfl rfl

theorem emit_keeps {cs : Commands} (h : ∀ c ∈ cs, CmdMeets x T c) : Keeping x T (.emit cs) := .emit h

theorem render_keeps : Keeping x T (.emit [.render]) := emit_keeps (by simp [CmdMeets])

theorem guarded_keeps {ops : Model → List KvOp}
    (h : ∀ m, m.Meets x T → ∀ op ∈ ops m, CmdMeets x T (.request (.kv op .saved))) :
    Keeping x T (guarded ops) := by
  intro m hm
  rw [guarded_fst, guarded_snd]
  refine ⟨hm.refused,fun c hc => ?_⟩
  split at hc
  · simp at hc
  · obtain ⟨op,hop,rfl⟩ := List.mem_map.mp hc
    exact h m hm op hop

theorem persistContacts_keeps : Keeping x T persistContacts := by
  refine guarded_keeps fun m hm op hop => ?_
  obtain rfl := List.mem_singleton.mp hop
  intro c hc
  obtain ⟨k,hk⟩ := Maps.mem_values.mp hc
  exact hm.keyed k c hk ▸ hm.contacts k c hk

theorem persistProfile_keeps : Keeping x T persistProfile := by
  refine guarded_keeps fun m hm op hop => ?_
  obtain rfl := List.mem_singleton.mp hop
  exact hm.profile

theorem persistOutbox_keeps : Keeping x T persistOutbox := by
  refine guarded_keeps fun m hm op hop => ?_
  obtain rfl := List.mem_singleton.mp hop
  exact hm.outbox

theorem persistMessages_keeps (peer : String) : Keeping x T (persistMessages peer) := by
  refine guarded_keeps fun m _ op hop => ?_
  obtain rfl := List.mem_singleton.mp hop
  trivial

theorem persistSeenIds_keeps : Keeping x T persistSeenIds := by
  refine guarded_keeps fun m _ op hop => ?_
  obtain rfl := List.mem_singleton.mp hop
  trivial

/-- Another page, compose text or error. -/
theorem refuse_keeps (error : String) : Keeping x T (refuse error) :=
  fun _ hm => ⟨hm.of_eq rfl rfl rfl rfl,by simp [refuse, CmdMeets]⟩

theorem identity_valid {m : Model} {id : Crypto.Identity} (h : m.identity x = some id) : id.Valid x := by
  obtain ⟨sk,-,hid⟩ := Option.bind_eq_some_iff.mp h
  cases hr : Crypto.fromSecretBytes x sk with
  | error e => simp [hr, Except.toOption] at hid
  | ok id' =>
    obtain rfl : id' = id := by simpa [hr, Except.toOption] using hid
    exact Crypto.fromSecretBytes_valid hr

/-- The batch loop stops at the limit of a batch. -/
theorem flushLoop_count {rng : ℕ → Crypto.Rng} {id : Crypto.Identity} {budget : ℕ}
    (items : List OutboxItem) {b : Batch} (hb : b.messages.length ≤ maxSendBatch) :
    (flushLoop x rng id budget b items).1.messages.length ≤ maxSendBatch := by
  induction items generalizing b with
  | nil => exact hb
  | cons i items ih =>
    simp only [flushLoop]
    split
    · exact hb
    rename_i hroom
    split
    · exact hb
    cases encryptFor x (rng b.tried) id i with
    | none => exact ih hb
    | some blob =>
      simp only
      split
      · exact hb
      · refine ih ?_
        simp only [List.length_append, List.length_singleton]
        omega

theorem sendBatch_keeps {token recipient : String} {b : Batch} {persist : Handler}
    (hp : Keeping x T persist) (hb : T.batch b.messages) :
    Keeping x T (sendBatch x token recipient b persist) := by
  intro m hm
  obtain ⟨hgood,hcmds⟩ := hp m hm
  simp only [sendBatch]
  split
  · refine ⟨hgood.of_eq rfl rfl rfl rfl,fun c hc => ?_⟩
    simp only [List.mem_append, List.mem_cons, List.not_mem_nil, or_false] at hc
    obtain hc | rfl | rfl := hc
    · exact hcmds c hc
    · intro msgs hmsgs
      obtain rfl := RequestBody.sendBatch.inj hmsgs
      exact hb
    · trivial
  · refine ⟨hgood.of_eq rfl rfl rfl rfl,fun c hc => ?_⟩
    obtain hc | hc := List.mem_append.mp hc
    · exact hcmds c hc
    · obtain rfl := List.mem_singleton.mp hc
      trivial

theorem flushBatch_keeps (hT : T.Batches x) (amb : Ambient) {id : Crypto.Identity} (hid : id.Valid x)
    (token : String) : Keeping x T (flushBatch x amb id token) := by
  intro m hm
  let budget := m.sendBatchBudget.getD maxSendBatchBytes
  obtain ⟨hok,new,hnew,hkept⟩ := @flushLoop_spec x amb.rng id budget m.outbox { error := m.error }
    ⟨.nil,by simp⟩ 0
  have hcount := @flushLoop_count x amb.rng id budget m.outbox { error := m.error } (Nat.zero_le _)
  simp only [flushBatch]
  change Outcome x T _
  generalize flushLoop x amb.rng id budget { error := m.error } m.outbox = r at hok hnew hkept hcount ⊢
  obtain ⟨b,rest⟩ := r
  obtain rfl : b.taken = new := by simpa using hnew
  have hitems : ∀ i ∈ b.taken ++ rest, i.Meets x T := by
    intro i hi
    obtain ⟨j,hj,rfl⟩ | h := hkept.mem hi
    · exact hm.outbox j hj
    · exact h.elim
  have hshrunk : ∀ (items : List OutboxItem) (error : Option String), (∀ i ∈ items, i.Meets x T) →
      Model.Meets x T { m with outbox := items, error } := fun _ _ hi =>
    ⟨hm.profile,hm.keyed,hm.contacts,hm.active,hi⟩
  split
  · split
    · exact (persistOutbox_keeps.and render_keeps) _ (hshrunk _ _ hitems)
    · exact ⟨hshrunk _ _ hitems,by simp⟩
  · refine sendBatch_keeps ?_ ?_ _ (hshrunk _ _ fun i hi => ?_)
    · split
      · exact persistOutbox_keeps
      · exact .done
    · exact hT id b.taken b.messages hid hok.seals hcount fun i hi =>
        (hitems i (List.mem_append_left _ hi)).key
    · obtain hi | hi := List.mem_append.mp hi
      · obtain ⟨j,hj,rfl⟩ := List.mem_map.mp hi
        exact (hitems j (List.mem_append_left _ hj)).kin (kin_stamp _ j)
      · exact hitems i (List.mem_append_right _ hi)

theorem flushNext_keeps (hT : T.Batches x) (amb : Ambient) : Keeping x T (flushNext x amb) := by
  intro m hm
  have hstands : Outcome x T (m,[]) := ⟨hm,by simp⟩
  unfold flushNext
  split
  · exact hstands
  split
  · exact hstands
  split
  · exact hstands
  split
  · rename_i id token hid _
    exact flushBatch_keeps hT amb (identity_valid hid) token m hm
  · exact hstands

theorem retryBatch_keeps (hT : T.Batches x) (amb : Ambient) (batch : Option InFlight) :
    Keeping x T (retryBatch x amb batch) := by
  cases batch with
  | none => exact render_keeps
  | some batch =>
    intro m hm
    have hkept : ∀ error : Option String, Model.Meets x T { m with
        outbox := ((m.outbox.take batch.count).map OutboxItem.charge).filter
          (fun i => !i.isExpired (amb.now 0)) ++ m.outbox.drop batch.count
        error } := by
      refine fun error => hm.shrink rfl (fun k c hc => ⟨c,hc,rfl⟩) (fun _ h => h) fun i hi => ?_
      obtain hi | hi := List.mem_append.mp hi
      · obtain ⟨hi,-⟩ := List.mem_filter.mp hi
        obtain ⟨j,hj,rfl⟩ := List.mem_map.mp hi
        exact ⟨j,List.mem_of_mem_take hj,kin_charge j⟩
      · exact ⟨i,List.mem_of_mem_drop hi,.refl i⟩
    simp only [retryBatch]
    split
    · exact (persistOutbox_keeps.and render_keeps) _ (hkept m.error)
    · exact ((persistOutbox_keeps.and (flushNext_keeps hT _)).and render_keeps) _ (hkept _)

theorem sendResult_keeps (hT : T.Batches x) (amb : Ambient) (gen : UInt64) (res : HttpResult) :
    Keeping x T (sendResult x amb gen res) := by
  intro m hm
  have hanswered := sendResult_answered x amb gen res m
  generalize sendResult x amb gen res m = r at hanswered
  cases hanswered with
  | stale => exact ⟨hm,by simp⟩
  | unauthorized => exact ⟨hm.of_eq rfl rfl rfl rfl,by simp [CmdMeets]⟩
  | limited => exact ⟨hm.of_eq rfl rfl rfl rfl,by simp [rateLimited, CmdMeets]⟩
  | split => exact flushNext_keeps hT amb _ (hm.of_eq rfl rfl rfl rfl)
  | failed => exact retryBatch_keeps hT amb _ _ (hm.of_eq rfl rfl rfl rfl)
  | settled =>
    refine (persistOutbox_keeps.and (flushNext_keeps hT amb)) _ ?_
    split
    · exact hm.of_eq rfl rfl rfl rfl
    · exact hm.shrink rfl (fun k c hc => ⟨c,hc,rfl⟩) (fun _ h => h) fun i hi =>
        ⟨i,List.mem_of_mem_drop hi,.refl i⟩

theorem flushWatchdog_keeps (hT : T.Batches x) (amb : Ambient) (gen : UInt64) :
    Keeping x T (flushWatchdog x amb gen) := by
  intro m hm
  simp only [flushWatchdog]
  split
  · exact ⟨hm,by simp⟩
  · exact flushNext_keeps hT amb _ (hm.of_eq rfl rfl rfl rfl)

theorem printed_profile {p : OwnProfile} {ts : ℤ} (hp : p.payload.withinCaps x = true)
    (hts : i64Min ≤ ts ∧ ts ≤ i64Max) : Printed x (Protocol.serializePayload x p.payload ts) :=
  ⟨p.payload,ts,hts.1,hts.2,hp,rfl⟩

theorem sendText_keeps {amb : Ambient} (hamb : amb.Sane) : Keeping x T (sendText x amb) := by
  intro m hm
  unfold sendText
  split
  · exact ⟨hm,by simp [CmdMeets]⟩
  rename_i peer hpeer
  simp only
  split
  · exact refuse_keeps _ _ (hm.of_eq rfl rfl rfl rfl)
  split
  · exact ⟨hm.of_eq rfl rfl rfl rfl,by simp [CmdMeets]⟩
  split
  · exact refuse_keeps _ _ (hm.of_eq rfl rfl rfl rfl)
  rename_i hlen
  split
  · exact refuse_keeps _ _ (hm.of_eq rfl rfl rfl rfl)
  have hkey := hm.active peer hpeer
  let body := trim m.compose
  have htext : OutboxItem.Meets x T (.new peer
      (Protocol.serializePayload x (.text amb.uuid body) (amb.now 0))) := by
    refine ⟨hkey,_,_,(hamb.now 0).1,(hamb.now 0).2,?_,rfl⟩
    have hbody : len body ≤ Protocol.maxBodyLen := Nat.not_lt.mp hlen
    simp [Payload.withinCaps, hamb.uuid, hbody]
  have hprofile : OutboxItem.Meets x T (.profile peer
      (Protocol.serializePayload x m.profile.payload (amb.now 0))) :=
    ⟨hkey,printed_profile hm.profile (hamb.now 0)⟩
  refine (Upd.Keeps.and (persistMessages_keeps peer) (persistContacts_keeps.and
    (persistOutbox_keeps.and (emit_keeps (by simp [CmdMeets]))))) _ ?_
  unfold Model.writeText
  simp only
  split
  · refine hm.file hkey rfl rfl rfl rfl fun i hi => ?_
    obtain hi | hi := List.mem_append.mp hi
    · exact hm.outbox i hi
    · simp only [List.mem_cons, List.not_mem_nil, or_false] at hi
      obtain rfl | rfl := hi
      · exact htext
      · exact hprofile
  · refine ⟨hm.profile,hm.keyed,hm.contacts,hm.active,fun i hi => ?_⟩
    obtain hi | hi := List.mem_append.mp hi
    · exact hm.outbox i hi
    · exact List.mem_singleton.mp hi ▸ htext

theorem addContact_kept (amb : Ambient) (input nickname : String) {m : Model} (hm : m.Meets x T)
    (hnew : ∀ key, Phonemic.tryParsePubkey x.verifyingKey input = some key → key ≠ m.myPubkey → T.key key) :
    Outcome x T (addContact x amb input nickname m) := by
  simp only [addContact]
  split
  · exact refuse_keeps _ _ (hm.of_eq rfl rfl rfl rfl)
  split
  · exact refuse_keeps _ _ (hm.of_eq rfl rfl rfl rfl)
  rename_i key hparse
  split
  · exact refuse_keeps _ _ (hm.of_eq rfl rfl rfl rfl)
  rename_i hown
  refine (persistContacts_keeps.and render_keeps) _ (hm.file (hnew key hparse hown) ?_ rfl rfl rfl hm.outbox)
  have hpub : (m.contacts[key]?.getD (Contact.new key nickname (amb.now 0))).pubkey = key := by
    cases hc : m.contacts[key]? with
    | none => rfl
    | some c => exact hm.keyed key c hc
  split <;> exact hpub

theorem blockContact_mem {peer : String} {blocked : Bool} {contacts : PeerMap Contact} {k : String}
    {c : Contact} (h : (blockContact peer blocked contacts)[k]? = some c) :
    ∃ d, contacts[k]? = some d ∧ c.pubkey = d.pubkey := by
  unfold blockContact at h
  split at h
  · rename_i d hd
    rw [Maps.getElem?_insert] at h
    split at h
    · rename_i hk
      obtain rfl := Option.some.inj h
      exact ⟨d,hk ▸ hd,rfl⟩
    · exact ⟨c,h,rfl⟩
  · exact ⟨c,h,rfl⟩

theorem setBlocked_keeps (peer : String) (blocked : Bool) : Keeping x T (setBlocked peer blocked) := by
  intro m hm
  simp only [setBlocked]
  split
  · refine (persistContacts_keeps.and (persistOutbox_keeps.and render_keeps)) _ ?_
    obtain ⟨_,h⟩ := removeItems_eq
      { m with contacts := blockContact peer blocked m.contacts, error := none } peer
    rw [h]
    exact hm.shrink rfl (fun k c => blockContact_mem) (fun _ h => h) fun i hi =>
      ⟨i,List.mem_of_mem_filter hi,.refl i⟩
  · exact (persistContacts_keeps.and render_keeps) _ (hm.shrink rfl (fun k c => blockContact_mem)
      (fun _ h => h) fun i hi => ⟨i,hi,.refl i⟩)

theorem forgetPeer_active {m : Model} {peer p : String}
    (h : (m.forgetPeer peer).activePeer = some p) : m.activePeer = some p := by
  simp only [Model.forgetPeer] at h
  obtain ⟨_,heq⟩ := removeItems_eq { m with
    contacts := m.contacts.erase peer, messages := m.messages.erase peer, seenIds := m.seenIds.erase peer } peer
  rw [heq] at h
  split at h
  · simp at h
  · exact h

theorem deleteContact_keeps (peer : String) : Keeping x T (deleteContact peer) := by
  intro m hm
  refine (Upd.Keeps.and persistContacts_keeps (Upd.Keeps.and (emit_keeps (by simp [CmdMeets]))
    (persistOutbox_keeps.and (persistSeenIds_keeps.and render_keeps)))) _ ?_
  obtain ⟨_,_,_,_,h⟩ := forgetPeer_eq m peer
  refine hm.shrink (by rw [h]) (fun k c hc => ⟨c,?_,rfl⟩) (fun _ => forgetPeer_active) fun i hi => ?_
  · rw [h] at hc
    simp only [Maps.getElem?_erase] at hc
    split at hc
    · simp at hc
    · exact hc
  · rw [h] at hi
    exact ⟨i,List.mem_of_mem_filter hi,.refl i⟩

theorem saveProfile_keeps {amb : Ambient} (hamb : amb.Sane) (displayName bio : String)
    (photo : Option String) : Keeping x T (saveProfile x amb displayName bio photo) := by
  intro m hm
  simp only [saveProfile]
  split
  · exact refuse_keeps _ _ (hm.of_eq rfl rfl rfl rfl)
  rename_i hname
  split
  · exact refuse_keeps _ _ (hm.of_eq rfl rfl rfl rfl)
  rename_i hbio
  split
  · exact refuse_keeps _ _ (hm.of_eq rfl rfl rfl rfl)
  rename_i hphoto
  split
  · exact refuse_keeps _ _ (hm.of_eq rfl rfl rfl rfl)
  rename_i hdecodes
  have hcaps : (OwnProfile.mk displayName bio photo).payload.withinCaps x = true := by
    by_contra hover
    have hexceeds := (profile_exceeds (some displayName) (some bio) photo).mpr hover
    simp only [Option.any_some, decide_eq_true_eq] at hexceeds
    obtain h | h | h | h := hexceeds
    · exact hname h
    · exact hbio h
    · exact hphoto h
    · exact hdecodes h
  refine (Upd.Keeps.and persistProfile_keeps (persistOutbox_keeps.and (emit_keeps (by simp [CmdMeets])))) _
    ⟨hcaps,hm.keyed,hm.contacts,hm.active,fun i hi => ?_⟩
  rw [broadcastProfile_eq] at hi
  obtain hi | hi := List.mem_append.mp hi
  · exact hm.outbox i (List.mem_of_mem_take hi)
  obtain hi | ⟨hpeer,hjson⟩ := mem_foldl_supersede hi
  · exact hm.outbox i (List.mem_of_mem_drop hi)
  · obtain ⟨c,hc,hpub⟩ := List.mem_map.mp hpeer
    obtain ⟨k,hk⟩ := Maps.mem_values.mp (List.mem_filter.mp hc).1
    refine ⟨?_,hjson ▸ printed_profile hcaps (hamb.now 0)⟩
    rw [← hpub, hm.keyed k c hk]
    exact hm.contacts k c hk

theorem setServerUrl_keeps (url : String) : Keeping x T (setServerUrl x url) := by
  intro m hm
  simp only [setServerUrl]
  split
  · exact refuse_keeps _ _ hm
  · refine (Upd.Keeps.and (guarded_keeps fun m _ op hop => ?_) (emit_keeps (by simp [CmdMeets]))) _
      (hm.of_eq rfl rfl rfl rfl)
    simp only [List.mem_cons, List.not_mem_nil, or_false] at hop
    obtain rfl | rfl := hop <;> trivial

end

end Skrepka.Client
