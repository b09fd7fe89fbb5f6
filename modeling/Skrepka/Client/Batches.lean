import Skrepka.Lib.Queue
import Skrepka.Client.Fields

/-! How the outbox evolves under each event: which items are kept, which are new, and the four
reasons for which an item leaves. -/
namespace Skrepka.Client
open Rust Mvu Queue

/-- The envelope is the item, encrypted for its recipient. -/
def Seals (x : Crates) (id : Crypto.Identity) (i : OutboxItem) (env : Envelope) : Prop :=
  env.toKey = i.recipient ∧ ∃ rng blob, encryptFor x rng id i = some blob ∧
    env.encryptedBlob = Hex.encode blob

/-- The envelopes are the items, encrypted one by one and in order. -/
def Carries (x : Crates) (msgs : List Envelope) (items : List OutboxItem) : Prop :=
  ∃ id, List.Forall₂ (Seals x id) items msgs

/-- Each envelope is for the recipient of some item. -/
theorem Carries.mem {x : Crates} {msgs : List Envelope} {items : List OutboxItem}
    (h : Carries x msgs items) {env : Envelope} (he : env ∈ msgs) :
    ∃ i ∈ items, env.toKey = i.recipient := by
  obtain ⟨id,h⟩ := h
  induction h with
  | nil => simp at he
  | @cons i _ items _ h _ ih =>
    rcases List.mem_cons.mp he with rfl | he
    · exact ⟨i,List.mem_cons_self,h.1⟩
    · obtain ⟨j,hj,hto⟩ := ih he
      exact ⟨j,List.mem_cons_of_mem i hj,hto⟩

/-- The item's key or payload cannot be encrypted. -/
def Unsendable (x : Crates) (i : OutboxItem) : Prop :=
  ∃ rng id, encryptFor x rng id i = none

/-- The same item, with other bookkeeping. -/
def Kin (i j : OutboxItem) : Prop :=
  j.recipient = i.recipient ∧ j.kind = i.kind ∧ j.envelopeJson = i.envelopeJson

theorem Kin.refl (i : OutboxItem) : Kin i i := ⟨rfl,rfl,rfl⟩

theorem Kin.trans {i j k : OutboxItem} (h₁ : Kin i j) (h₂ : Kin j k) : Kin i k :=
  ⟨h₂.1.trans h₁.1,h₂.2.1.trans h₁.2.1,h₂.2.2.trans h₁.2.2⟩

theorem kin_stamp (now : ℤ) (i : OutboxItem) : Kin i (i.stamp now) := by
  unfold OutboxItem.stamp
  split <;> exact ⟨rfl,rfl,rfl⟩

/-- The same item, whose clock may have been started. -/
def Restamped (i j : OutboxItem) : Prop :=
  j = i ∨ i.firstAttempt = 0 ∧ ∃ now, j = { i with firstAttempt := now }

theorem restamped_refl (i : OutboxItem) : Restamped i i := .inl rfl

theorem restamped_stamp (now : ℤ) (i : OutboxItem) : Restamped i (i.stamp now) := by
  unfold OutboxItem.stamp
  split
  · rename_i hfirst
    exact .inr ⟨hfirst,now,rfl⟩
  · exact .inl rfl

theorem Restamped.trans {i j k : OutboxItem} (h₁ : Restamped i j) (h₂ : Restamped j k) :
    Restamped i k := by
  obtain rfl | ⟨hfirst,now,rfl⟩ := h₁
  · exact h₂
  obtain rfl | ⟨-,now',rfl⟩ := h₂
  · exact .inr ⟨hfirst,now,rfl⟩
  · exact .inr ⟨hfirst,now',rfl⟩

theorem Restamped.kin {i j : OutboxItem} (h : Restamped i j) : Kin i j := by
  obtain rfl | ⟨-,now,rfl⟩ := h
  · exact .refl _
  · exact ⟨rfl,rfl,rfl⟩

theorem kin_charge (i : OutboxItem) : Kin i i.charge := ⟨rfl,rfl,rfl⟩

theorem encryptFor_kin {x : Crates} {rng : Crypto.Rng} {id : Crypto.Identity} {i j : OutboxItem}
    (h : Kin i j) : encryptFor x rng id j = encryptFor x rng id i := by
  simp [encryptFor, h.1, h.2.2]

theorem Unsendable.of_kin {x : Crates} {i j : OutboxItem} (h : Kin i j) (hj : Unsendable x j) :
    Unsendable x i := by
  obtain ⟨rng,id,hn⟩ := hj
  exact ⟨rng,id,(encryptFor_kin h).symm.trans hn⟩

/-- What the batch loop keeps true of what it has built. -/
structure Batch.Ok (x : Crates) (id : Crypto.Identity) (b : Batch) : Prop where
  seals : List.Forall₂ (Seals x id) b.taken b.messages
  recipient : ∀ i ∈ b.taken, b.recipient = some i.recipient

/-- Another item goes into the batch. -/
theorem Batch.Ok.take {x : Crates} {rng : Crypto.Rng} {id : Crypto.Identity} {b c : Batch}
    {i : OutboxItem} {blob : Bytes} (hb : b.Ok x id)
    (hr : b.recipient.any (fun r => r ≠ i.recipient) = false)
    (he : encryptFor x rng id i = some blob) (ht : c.taken = b.taken ++ [i])
    (hm : c.messages = b.messages ++ [⟨i.recipient,Hex.encode blob⟩])
    (hc : c.recipient = some i.recipient) : c.Ok x id := by
  constructor
  · rw [ht, hm]
    exact List.rel_append hb.seals (.cons ⟨rfl,rng,blob,he,rfl⟩ .nil)
  · intro j hj
    rw [ht, List.mem_append, List.mem_singleton] at hj
    rcases hj with hj | rfl
    · have := hb.recipient j hj
      simp_all
    · exact hc

theorem flushLoop_spec {x : Crates} {rng : ℕ → Crypto.Rng} {id : Crypto.Identity} {budget : ℕ}
    (items : List OutboxItem) {b : Batch} (hb : b.Ok x id) (k : ℕ) :
    (flushLoop x rng id budget b items).1.Ok x id ∧
    ∃ new, (flushLoop x rng id budget b items).1.taken = b.taken ++ new ∧
      Evolves Eq (fun _ => False) (fun _ => Unsendable x) k items
        (new ++ (flushLoop x rng id budget b items).2) := by
  have hstop : ∀ {b : Batch} (k : ℕ) (items : List OutboxItem), b.Ok x id →
      b.Ok x id ∧ ∃ new, b.taken = b.taken ++ new ∧
        Evolves Eq (fun _ => False) (fun _ => Unsendable x) k items (new ++ items) :=
    fun k items hb => ⟨hb,[],by simp,.refl Eq.refl k items⟩
  induction items generalizing b k with
  | nil => exact hstop k [] hb
  | cons i items ih =>
    simp only [flushLoop]
    split
    · exact hstop k _ hb
    split
    · exact hstop k _ hb
    rename_i hr
    cases he : encryptFor x (rng b.tried) id i with
    | none =>
      obtain ⟨hok,new,hn,hev⟩ := ih (b := { b with
        dirty := true
        error := some ("cannot send to " ++ Phonemic.truncOb i.recipient ++ ": invalid key")
        tried := b.tried+1 }) ⟨hb.seals,hb.recipient⟩ (k+1)
      exact ⟨hok,new,hn,.lose ⟨_,_,he⟩ hev⟩
    | some blob =>
      simp only
      split
      · exact hstop k _ hb
      · obtain ⟨hok,new,hn,hev⟩ := ih (b := { b with
          taken := b.taken ++ [i]
          messages := b.messages ++ [⟨i.recipient,Hex.encode blob⟩]
          bytes := b.bytes+len (Hex.encode blob)
          recipient := some i.recipient
          tried := b.tried+1 }) (hb.take (by simpa using hr) he rfl rfl rfl) (k+1)
        exact ⟨hok,i :: new,by simp [hn],.keep rfl hev⟩

/-- A flush loses nothing but items that cannot be encrypted, and changes nothing but clocks. -/
theorem Flushed.restamps {x : Crates} {amb : Ambient} {m : Model} {r : Model × Commands}
    (h : Flushed x amb m r) : Evolves Restamped (fun _ => False) (fun _ => Unsendable x) 0
      m.outbox r.1.outbox := by
  have hbatch : ∀ {id b rest}, m.batch x amb id = (b,rest) →
      Evolves Eq (fun _ => False) (fun _ => Unsendable x) 0 m.outbox (b.taken ++ rest) := by
    intro id b rest hb
    obtain ⟨-,new,hn,hev⟩ := flushLoop_spec
      (b := { error := m.error }) m.outbox
      ⟨.nil,by simp⟩ 0
    rw [Model.batch] at hb
    rw [hb] at hn hev
    obtain rfl : b.taken = new := by simpa using hn
    exact hev
  have hsame : ∀ {items : List OutboxItem},
      Evolves Eq (fun _ => False) (fun _ => Unsendable x) 0 m.outbox items →
      Evolves Restamped (fun _ => False) (fun _ => Unsendable x) 0 m.outbox items := fun hev =>
    hev.mono (fun i _ h => h ▸ restamped_refl i) (fun _ h => h) fun _ _ h => h
  have hstamp : ∀ {b : Batch} {rest : List OutboxItem},
      Evolves Eq (fun _ => False) (fun _ => Unsendable x) 0 m.outbox (b.taken ++ rest) →
      Evolves Restamped (fun _ => False) (fun _ => Unsendable x) 0 m.outbox
        (b.taken.map (OutboxItem.stamp (amb.now 1)) ++ rest) := by
    intro b rest hev
    have hmap : Evolves Restamped (fun _ => False) (fun _ _ => False) 0 (b.taken ++ rest)
        (b.taken.map (OutboxItem.stamp (amb.now 1)) ++ rest) :=
      .append (.map (restamped_stamp _) 0 _) (.refl restamped_refl _ _)
    refine (hsame hev).trans hmap ?_ ?_ ?_
    · exact fun _ _ _ => Restamped.trans
    · exact fun _ _ h => h.elim
    · exact fun _ _ _ _ h => h.elim
  cases h with
  | gated => exact .refl restamped_refl 0 _
  | emptied _ _ hb => exact hsame (hbatch hb)
  | sent _ _ _ hb | unsent _ _ hb => exact hstamp (hbatch hb)

theorem Flushed.evolves {x : Crates} {amb : Ambient} {m : Model} {r : Model × Commands}
    (h : Flushed x amb m r) : Evolves Kin (fun _ => False) (fun _ => Unsendable x) 0
      m.outbox r.1.outbox :=
  h.restamps.mono (fun _ _ h => h.kin) (fun _ h => h) fun _ _ h => h

/-- The events that queue new items. -/
def Event.queuesItems : Event → Bool
  | .sendText | .saveProfile _ _ _ | .pollResult _ _ => true
  | _ => false

def Event.savesProfile : Event → Bool
  | .saveProfile _ _ _ => true
  | _ => false

/-- An item is kept with its payload, but for a pending profile that a newer one supersedes. -/
def KeptBy (e : Event) (i j : OutboxItem) : Prop :=
  j.recipient = i.recipient ∧ j.kind = i.kind ∧
    (j.envelopeJson = i.envelopeJson ∨ e.savesProfile = true ∧ i.isProfile = true)

def AddedBy (e : Event) (i : OutboxItem) : Prop := e.queuesItems = true ∧ i.Fresh

/-- The relay has taken the batch, or refused it for good. -/
def HttpResult.settles : HttpResult → Bool
  | .ok resp => isSuccess resp.status || resp.status = 400
  | .err => false

/-- The send of that many items failed, and not for its token, its rate or its size. -/
def HttpResult.fails (count : ℕ) : HttpResult → Bool
  | .ok resp => !(resp.status = 401 || resp.status = 429 || resp.status = 413 && count > 1 ||
      isSuccess resp.status || resp.status = 400)
  | .err => true

/-- A send has been answered. -/
def Model.answered (m : Model) : Model := { m with flushing := false, inFlight := none }

/-- What the result of a send comes to: it is for an earlier one, or it says that the token, the rate or
the size was wrong, that the batch is settled, or that it has failed. -/
inductive Answered (x : Crates) (amb : Ambient) (m : Model) : UInt64 → HttpResult → Model × Commands → Prop
  | stale {gen res} (h : gen ≠ m.flushGen) : Answered x amb m gen res (m,[])
  | unauthorized {resp} (h : resp.status = 401) :
      Answered x amb m m.flushGen (.ok resp) ({ m.answered with token := none },[.event .authenticate])
  | limited {resp} (h : resp.status = 429) :
      Answered x amb m m.flushGen (.ok resp) (rateLimited amb resp.retryAfter m.answered)
  | split {resp f} (h : resp.status = 413) (hf : m.inFlight = some f) (hcount : 1 < f.count) :
      Answered x amb m m.flushGen (.ok resp)
        (flushNext x amb { m.answered with sendBatchBudget := some (f.bytes/2) })
  | settled {res} (h : res.settles = true) :
      Answered x amb m m.flushGen res (sendDone x amb m.inFlight m.answered)
  | failed {res} (h : res.fails ((m.inFlight.map InFlight.count).getD 0) = true) :
      Answered x amb m m.flushGen res (retryBatch x amb m.inFlight m.answered)

theorem sendResult_answered (x : Crates) (amb : Ambient) (gen : UInt64) (res : HttpResult) (m : Model) :
    Answered x amb m gen res (sendResult x amb gen res m) := by
  simp only [sendResult]
  split
  · rename_i h
    exact .stale h
  rename_i hgen
  obtain rfl := not_not.mp hgen
  cases res with
  | err => exact .failed rfl
  | ok resp =>
    simp only
    split
    · rename_i h401
      exact .unauthorized h401
    rename_i h401
    split
    · rename_i h429
      exact .limited h429
    rename_i h429
    split
    · rename_i f hf
      split at hf
      · rename_i h413
        obtain ⟨hf,hcount⟩ := Option.filter_eq_some_iff.mp hf
        exact .split h413 hf (by simpa using hcount)
      · simp at hf
    rename_i hnone
    split
    · rename_i hok
      exact .settled (by simpa [HttpResult.settles] using hok)
    · rename_i hno
      refine .failed ?_
      have hone : resp.status = 413 → (m.inFlight.map InFlight.count).getD 0 ≤ 1 := by
        intro h413
        cases hf : m.inFlight with
        | none => exact Nat.zero_le 1
        | some f => simpa [h413, hf] using hnone
      simp only [HttpResult.fails, h401, h429]
      by_cases h413 : resp.status = 413 <;> simp_all

/-- Why an item leaves the outbox: the result of the live send settled it or used up its
retries, it cannot be encrypted, or its recipient was blocked or deleted. -/
inductive LostBy (x : Crates) (amb : Ambient) (e : Event) (m : Model) : ℕ → OutboxItem → Prop
  | settled {k i res f} (he : e = .sendResult m.flushGen res) (hr : res.settles = true)
      (hf : m.inFlight = some f) (hk : k < f.count) : LostBy x amb e m k i
  | expired {k i res f} (he : e = .sendResult m.flushGen res) (hr : res.fails f.count = true)
      (hf : m.inFlight = some f) (hk : k < f.count)
      (hi : i.charge.isExpired (amb.now 0) = true) : LostBy x amb e m k i
  | unsendable {k i} (h : Unsendable x i) : LostBy x amb e m k i
  | removed {k i} (h : e = .setBlocked i.recipient true ∨ e = .deleteContact i.recipient) :
      LostBy x amb e m k i

/-- What an event may do to the outbox. -/
abbrev EvolvesBy (x : Crates) (amb : Ambient) (e : Event) (m : Model) :
    ℕ → List OutboxItem → List OutboxItem → Prop :=
  Evolves (KeptBy e) (AddedBy e) (LostBy x amb e m)

section
variable {x : Crates} {amb : Ambient} {e : Event} {m : Model}

theorem keptBy_of_kin {i j : OutboxItem} (h : Kin i j) : KeptBy e i j :=
  ⟨h.1,h.2.1,.inl h.2.2⟩

theorem keptBy_refl (i : OutboxItem) : KeptBy e i i := keptBy_of_kin (Kin.refl i)

theorem KeptBy.trans {i j k : OutboxItem} (h₁ : KeptBy e i j) (h₂ : KeptBy e j k) :
    KeptBy e i k := by
  obtain ⟨hr₁,hk₁,hp₁⟩ := h₁
  obtain ⟨hr₂,hk₂,hp₂⟩ := h₂
  have hprof : j.isProfile = i.isProfile := by simp [OutboxItem.isProfile, hk₁]
  refine ⟨hr₂.trans hr₁,hk₂.trans hk₁,?_⟩
  rcases hp₂ with hp₂ | ⟨hs,hp₂⟩
  · rcases hp₁ with hp₁ | hp₁
    · exact .inl (hp₂.trans hp₁)
    · exact .inr hp₁
  · exact .inr ⟨hs,hprof ▸ hp₂⟩

theorem evolves_of_eq {xs ys : List OutboxItem} (h : ys = xs) (k : ℕ) :
    EvolvesBy x amb e m k xs ys := by
  rw [h]
  exact .refl keptBy_refl k xs

theorem Grows.evolves {xs ys : List OutboxItem} (h : Grows xs ys) (he : e.queuesItems = true)
    (k : ℕ) : EvolvesBy x amb e m k xs ys := by
  obtain ⟨new,rfl,hf⟩ := h
  exact (Evolves.refl keptBy_refl k xs).append_new fun i hi => ⟨he,hf i hi⟩

/-- A flush after another change. -/
theorem evolves_flushNext {amb' : Ambient} {m' : Model} {xs : List OutboxItem}
    (h : EvolvesBy x amb e m 0 xs m'.outbox)
    (hnew : e.queuesItems = false) :
    EvolvesBy x amb e m 0 xs (flushNext x amb' m').1.outbox := by
  refine h.trans (flushNext_flushed x amb' m').evolves ?_ ?_ ?_
  · exact fun _ _ _ h₁ h₂ => h₁.trans (keptBy_of_kin h₂)
  · rintro _ _ ⟨he,-⟩
    simp [hnew] at he
  · rintro _ i j ⟨hr,hk,hp⟩ hu
    rcases hp with hp | ⟨hs,-⟩
    · exact .unsendable (hu.of_kin ⟨hr,hk,hp⟩)
    · cases e <;> simp [Event.savesProfile, Event.queuesItems] at hs hnew

theorem removeItems_outbox (m : Model) (peer : String) :
    (m.removeItems peer).outbox = m.outbox.filter (fun i => i.recipient ≠ peer) := by
  obtain ⟨_,h⟩ := removeItems_eq m peer
  rw [h]

/-- Dropping everything for a peer who is blocked or deleted. -/
theorem evolves_remove {peer : String} (he : e = .setBlocked peer true ∨ e = .deleteContact peer)
    (xs : List OutboxItem) :
    EvolvesBy x amb e m 0 xs (xs.filter (fun i => i.recipient ≠ peer)) := by
  refine .filter keptBy_refl xs (fun k i hp => ?_) 0
  obtain rfl : i.recipient = peer := by simpa using hp
  exact .removed he

theorem setBlocked_evolves (peer : String) (blocked : Bool) :
    EvolvesBy x amb (.setBlocked peer blocked) m 0 m.outbox (setBlocked peer blocked m).1.outbox := by
  simp only [setBlocked]
  split
  · rename_i hb
    subst hb
    simp only [Upd.and_fst, Upd.emit_fst, persistContacts_fst, persistOutbox_fst,
      Model.refused_refused, refused_outbox, removeItems_outbox]
    exact evolves_remove (.inl rfl) m.outbox
  · simp only [Upd.and_fst, Upd.emit_fst, persistContacts_fst, refused_outbox]
    exact .refl keptBy_refl 0 _

/-- A pending profile with a newer payload. -/
def Superseded (i j : OutboxItem) : Prop :=
  ∃ json, j = { i with envelopeJson := json } ∧ (json = i.envelopeJson ∨ i.isProfile = true)

theorem Superseded.refl (i : OutboxItem) : Superseded i i := ⟨_,rfl,.inl rfl⟩

theorem supersede_evolves {json peer : String} {k : ℕ} {xs queue : List OutboxItem}
    (hs : e.savesProfile = true) (h : EvolvesBy x amb e m k xs queue) :
    EvolvesBy x amb e m k xs (supersede json peer queue) := by
  have hq : e.queuesItems = true := by
    cases e <;> simp [Event.savesProfile, Event.queuesItems] at hs ⊢
  unfold supersede
  split
  · rename_i n hn
    obtain ⟨hlt,hp,-⟩ := List.findIdx?_eq_some_iff_getElem.mp hn
    have hprof : queue[n].isProfile = true := by
      simp only [Bool.and_eq_true] at hp
      exact hp.1
    have hmod : Evolves Superseded (fun _ => False) (fun _ _ => False) 0 queue
        (queue.modify n (fun i => { i with envelopeJson := json })) :=
      .modify Superseded.refl queue (fun _ => ⟨json,rfl,.inr hprof⟩) 0
    refine h.trans hmod ?_ ?_ ?_
    · rintro _ j _ h₁ ⟨json,rfl,hj⟩
      exact h₁.trans ⟨rfl,rfl,hj.imp id fun h => ⟨hs,h⟩⟩
    · rintro _ _ ⟨he,hf⟩ ⟨_,rfl,-⟩
      exact ⟨he,hf⟩
    · exact fun _ _ _ _ h => h.elim
  · refine h.append_new fun i hi => ?_
    obtain rfl := List.mem_singleton.mp hi
    exact ⟨hq,rfl,rfl⟩

theorem broadcastProfile_evolves (json : String) (hs : e.savesProfile = true) (m' : Model) :
    EvolvesBy x amb e m 0 m'.outbox (broadcastProfile json m') := by
  have hfold : ∀ (peers : List String) {k : ℕ} {xs queue : List OutboxItem},
      EvolvesBy x amb e m k xs queue →
      EvolvesBy x amb e m k xs (peers.foldl (fun queue peer => supersede json peer queue) queue) := by
    intro peers
    induction peers with
    | nil => exact fun h => h
    | cons peer peers ih => exact fun h => ih (supersede_evolves hs h)
  unfold broadcastProfile
  have hsplit := Evolves.append
    (.refl keptBy_refl 0 (m'.outbox.take m'.inFlightCount))
    (hfold ((m'.contacts.values.filter (fun c => !c.blocked)).map Contact.pubkey)
      (.refl keptBy_refl _ (m'.outbox.drop m'.inFlightCount)))
  rwa [List.take_append_drop] at hsplit

theorem saveProfile_evolves (displayName bio : String) (photo : Option String) :
    EvolvesBy x amb (.saveProfile displayName bio photo) m 0 m.outbox
      (saveProfile x amb displayName bio photo m).1.outbox := by
  simp only [saveProfile]
  repeat' split
  iterate 4 exact .refl keptBy_refl 0 _
  simp only [Upd.and_fst, Upd.emit_fst, persistProfile_fst, persistOutbox_fst,
    Model.refused_refused, refused_outbox]
  exact broadcastProfile_evolves _ rfl _

theorem sendText_grows (x : Crates) (amb : Ambient) (m : Model) :
    Grows m.outbox (sendText x amb m).1.outbox := by
  unfold sendText
  split
  · exact .refl _
  simp only
  split
  · exact .refl _
  split
  · exact .refl _
  split
  · exact .refl _
  split
  · exact .refl _
  simp only [Upd.and_fst, Upd.emit_fst, persistMessages_fst, persistContacts_fst,
    persistOutbox_fst, Model.refused_refused, refused_outbox, Model.writeText]
  split
  · exact ⟨_,rfl,by simp [OutboxItem.Fresh, OutboxItem.new, OutboxItem.profile]⟩
  · exact ⟨_,rfl,by simp [OutboxItem.Fresh, OutboxItem.new]⟩

/-- A batch that failed: the items it carried are charged, and may expire. -/
theorem retryBatch_evolves {f : Option InFlight} {res : HttpResult} {m' : Model}
    (hm : m'.outbox = m.outbox) (hf : m.inFlight = f)
    (hr : ∀ g, f = some g → res.fails g.count = true) :
    EvolvesBy x amb (.sendResult m.flushGen res) m 0 m.outbox
      (retryBatch x amb f m').1.outbox := by
  cases f with
  | none => exact evolves_of_eq hm 0
  | some g =>
    have hkept : EvolvesBy x amb (.sendResult m.flushGen res) m 0 m.outbox
        (((m.outbox.take g.count).map OutboxItem.charge).filter
          (fun i => !i.isExpired (amb.now 0)) ++ m.outbox.drop g.count) := by
      have hsplit : EvolvesBy x amb (.sendResult m.flushGen res) m 0
          (m.outbox.take g.count ++ m.outbox.drop g.count)
          (((m.outbox.take g.count).map OutboxItem.charge).filter
            (fun i => !i.isExpired (amb.now 0)) ++ m.outbox.drop g.count) :=
        .append (.filter_map (fun i => keptBy_of_kin (kin_charge i)) _ ?_)
          (.refl keptBy_refl _ _)
      · rwa [List.take_append_drop] at hsplit
      · intro j i _ hj _ hi
        refine .expired rfl (hr g rfl) hf ?_ (by simpa using hi)
        have := List.length_take_le g.count m.outbox
        omega
    simp only [retryBatch, hm]
    split
    · simpa [Upd.and] using hkept
    · simp only [Upd.and_fst, Upd.emit_fst, persistOutbox_fst]
      exact evolves_flushNext (by simpa using hkept) rfl

theorem sendResult_evolves (gen : UInt64) (res : HttpResult) :
    EvolvesBy x amb (.sendResult gen res) m 0 m.outbox (sendResult x amb gen res m).1.outbox := by
  have hanswered := sendResult_answered x amb gen res m
  generalize sendResult x amb gen res m = r at hanswered
  cases hanswered with
  | stale => exact .refl keptBy_refl 0 _
  | unauthorized => exact .refl keptBy_refl 0 _
  | limited => exact .refl keptBy_refl 0 _
  | split => exact evolves_flushNext (.refl keptBy_refl 0 _) rfl
  | failed hfails => exact retryBatch_evolves rfl rfl fun f hf => by simpa [hf] using hfails
  | settled hsettles =>
    simp only [sendDone, Upd.and_fst, persistOutbox_fst]
    refine evolves_flushNext ?_ rfl
    rw [refused_outbox]
    split
    · exact .refl keptBy_refl 0 _
    · refine .drop keptBy_refl _ fun k i _ hk => ?_
      cases hf : m.inFlight with
      | none => simp [hf] at hk
      | some f => exact .settled rfl hsettles hf (by simpa [hf] using hk)

/-- Every event but a load of the outbox itself keeps its items in order, and loses one only for
one of the four reasons. -/
theorem update_evolves (he : ∀ res, e ≠ .loadedOutbox res) :
    EvolvesBy x amb e m 0 m.outbox (update x amb e m).1.outbox := by
  by_cases hw : Field.outbox ∈ e.writes
  · cases e with
    | sendText => exact (sendText_grows x amb m).evolves rfl 0
    | setBlocked peer blocked => exact setBlocked_evolves peer blocked
    | deleteContact peer =>
      obtain ⟨_,_,_,_,h⟩ := forgetPeer_eq m peer
      simp only [update, deleteContact_fst, refused_outbox, h]
      exact evolves_remove (.inr rfl) m.outbox
    | saveProfile displayName bio photo => exact saveProfile_evolves displayName bio photo
    | pollResult gen res =>
      obtain ⟨_,_,_,_,_,_,_,_,_,_,_,h,hg⟩ := pollResult_fst x amb gen res m
      simp only [update, h]
      exact hg.evolves rfl 0
    | startFlush => exact evolves_flushNext (.refl keptBy_refl 0 _) rfl
    | flushWatchdog gen =>
      simp only [update, flushWatchdog]
      split
      · exact .refl keptBy_refl 0 _
      · exact evolves_flushNext (.refl keptBy_refl 0 _) rfl
    | sendResult gen res => exact sendResult_evolves gen res
    | loadedOutbox res => exact absurd rfl (he res)
    | _ => simp [Event.writes] at hw
  · exact evolves_of_eq (update_agrees x amb e m .outbox hw) 0

end

end Skrepka.Client
