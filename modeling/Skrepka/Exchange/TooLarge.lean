import Skrepka.Client.Drains
import Skrepka.Exchange.Accepts
import Mathlib.Data.Nat.Log

/-! A relay whose cap on a body is below the budget that the client starts with: the rejections measure
the cap where the update gets to see them, and are failures like any other where it does not. -/
namespace Skrepka.Client
open Rust Mvu Queue

/-- Whether something can be encrypted is up to the key and to lengths, whatever is drawn: the ladder
yields zero for every scalar or for none, and the cipher fails for the lengths of its inputs alone. -/
structure Crates.Steady (x : Crates) : Prop where
  ladder : ∀ scalar scalar' point, scalar.length = 32 → scalar'.length = 32 →
    Crypto.allZero (x.x25519 scalar point) = Crypto.allZero (x.x25519 scalar' point)
  cipher : ∀ key key' nonce nonce' ad ad' msg msg', ad.length = ad'.length → msg.length = msg'.length →
    (x.aeadSeal key nonce ad msg).isSome = (x.aeadSeal key' nonce' ad' msg').isSome

namespace Crypto

/-- What can be encrypted once can be encrypted again, by whomever. -/
theorem encrypt_again {x : Crates} (hx : x.Measured) (hsteady : x.Steady) {rng rng' : Rng}
    {sender sender' : Identity} (hs : sender.Valid x) (hs' : sender'.Valid x)
    {recipientEdPub plaintext blob : Bytes} (h : encrypt x rng sender recipientEdPub plaintext = .ok blob) :
    ∃ blob', encrypt x rng' sender' recipientEdPub plaintext = .ok blob' := by
  obtain ⟨hshort,recipX,rawSecret,_,_,ciphertext,rfl,rfl,hrecip,hraw,hseal,-⟩ := encrypt_ok h
  have hinner := @innerBytes_length x rng sender plaintext hx.sized hs recipientEdPub
  have hinner' := @innerBytes_length x rng' sender' plaintext hx.sized hs' recipientEdPub
  have hzero : allZero (x.x25519 (rng'.fill 32) recipX) = false := by
    rw [hsteady.ladder (rng'.fill 32) (rng.fill 32) recipX (fill_length _ _) (fill_length _ _)]
    simp only [x25519] at hraw
    split at hraw
    · simp at hraw
    · rename_i hzero
      simpa using hzero
  have had : ∀ nonce nonce' : Bytes, nonce.length = nonceLen → nonce'.length = nonceLen →
      (aad wireVersion (x.x25519 (rng.fill 32) x.x25519Basepoint) nonce recipientEdPub).length =
        (aad wireVersion (x.x25519 (rng'.fill 32) x.x25519Basepoint) nonce' recipientEdPub).length := by
    intro nonce nonce' hnonce hnonce'
    simp only [aad, List.cons_append, List.length_cons, List.length_append, hx.x25519Length, hnonce, hnonce']
  have hunpadded : 1+32+nonceLen+32+64+4+(x.zstdEncode plaintext).length+16 =
      minBlobLen+(x.zstdEncode plaintext).length := by
    simp only [minBlobLen]
    omega
  obtain ⟨ciphertext',hseal'⟩ : ∃ ciphertext',
      x.aeadSeal (deriveKey x (x.x25519 (rng'.fill 32) recipX) (x.x25519 (rng'.fill 32) x.x25519Basepoint)
          recipX) (drawnNonce rng' (x.zstdEncode plaintext))
        (aad wireVersion (x.x25519 (rng'.fill 32) x.x25519Basepoint)
          (drawnNonce rng' (x.zstdEncode plaintext)) recipientEdPub)
        (innerBytes x rng' sender' recipientEdPub plaintext) = some ciphertext' := by
    have hsame := had _ _ (drawnNonce_length rng (x.zstdEncode plaintext))
      (drawnNonce_length rng' (x.zstdEncode plaintext))
    rw [← Option.isSome_iff_exists,
      ← hsteady.cipher _ _ _ _ _ _ _ _ hsame (hinner.trans hinner'.symm), hseal]
    rfl
  simp only [innerBytes, messageBytes, frame, padding, padLen, drawnNonce, List.append_assoc] at hseal'
  simp only [encrypt, if_neg (not_lt.mpr hshort), hrecip, x25519, hzero, bind, Except.bind, pure,
    Except.pure, Bool.false_eq_true, if_false, hunpadded, List.append_assoc, hseal']
  exact ⟨_,rfl⟩

end Crypto

/-- The length of an item on the wire: the digits of its blob, whatever is drawn for it. -/
def OutboxItem.wireLen (x : Crates) (i : OutboxItem) : ℕ :=
  2*Crypto.paddedLen (Crypto.minBlobLen+(x.zstdEncode (asBytes i.envelopeJson)).length)

theorem two_le_wireLen (x : Crates) (i : OutboxItem) : 2 ≤ i.wireLen x := by
  have h := Crypto.le_paddedLen (Crypto.minBlobLen+(x.zstdEncode (asBytes i.envelopeJson)).length)
  simp only [Crypto.minBlobLen, OutboxItem.wireLen] at h ⊢
  omega

theorem wireLen_of_kin {x : Crates} {i j : OutboxItem} (h : Kin i j) : j.wireLen x = i.wireLen x := by
  rw [OutboxItem.wireLen, h.2.2, OutboxItem.wireLen]

theorem encryptFor_eq_some {x : Crates} {rng : Crypto.Rng} {id : Crypto.Identity} {i : OutboxItem}
    {blob : Bytes} (h : encryptFor x rng id i = some blob) :
    ∃ recipient, Hex.decode i.recipient = some recipient ∧ recipient.length = 32 ∧
      Crypto.encrypt x rng id recipient (asBytes i.envelopeJson) = .ok blob := by
  unfold encryptFor at h
  split at h
  · simp at h
  rename_i recipient hrecipient
  split at h
  · simp at h
  rename_i hlength
  cases hblob : Crypto.encrypt x rng id recipient (asBytes i.envelopeJson) with
  | error e => simp [hblob, Except.toOption] at h
  | ok b =>
    rw [hblob] at h
    obtain rfl := Option.some.inj h
    exact ⟨recipient,hrecipient,not_not.mp hlength,hblob⟩

theorem encryptFor_wireLen {x : Crates} (hx : x.Measured) {rng : Crypto.Rng} {id : Crypto.Identity}
    (hid : id.Valid x) {i : OutboxItem} {blob : Bytes} (h : encryptFor x rng id i = some blob) :
    len (Hex.encode blob) = i.wireLen x := by
  obtain ⟨recipient,-,-,hblob⟩ := encryptFor_eq_some h
  rw [Hex.len_of_decode (Hex.decode_encode blob), Crypto.encrypt_length_eq hx hid hblob]
  rfl

/-- The item can be encrypted by every client, whatever is drawn for it. -/
def Sendable (x : Crates) (i : OutboxItem) : Prop :=
  ∀ rng id, id.Valid x → ∃ blob, encryptFor x rng id i = some blob

theorem Sendable.of_kin {x : Crates} {i j : OutboxItem} (h : Kin i j) (hi : Sendable x i) :
    Sendable x j := by
  intro rng id hid
  rw [encryptFor_kin h]
  exact hi rng id hid

theorem sendable_of_some {x : Crates} (hx : x.Measured) (hsteady : x.Steady) {rng : Crypto.Rng}
    {id : Crypto.Identity} (hid : id.Valid x) {i : OutboxItem} {blob : Bytes}
    (h : encryptFor x rng id i = some blob) : Sendable x i := by
  intro rng' id' hid'
  obtain ⟨recipient,hrecipient,hlength,hblob⟩ := encryptFor_eq_some h
  obtain ⟨blob',hblob'⟩ := @Crypto.encrypt_again x hx hsteady rng rng' id id' hid hid' recipient
    (asBytes i.envelopeJson) blob hblob
  refine ⟨blob',?_⟩
  simp only [encryptFor, hrecipient, hlength, ne_eq, not_true_eq_false, if_false, hblob']
  rfl

/-- The length of a request for some items. -/
def wireLens (x : Crates) : List OutboxItem → ℕ
  | [] => 0
  | i :: items => i.wireLen x+wireLens x items

theorem wireLens_stamped (x : Crates) (now : ℤ) (items : List OutboxItem) :
    wireLens x (items.map (OutboxItem.stamp now)) = wireLens x items := by
  induction items with
  | nil => rfl
  | cons i items ih => rw [List.map_cons, wireLens, wireLen_of_kin (kin_stamp now i), ih, wireLens]

theorem two_le_wireLens (x : Crates) {items : List OutboxItem} (h : 0 < items.length) :
    2 ≤ wireLens x items := by
  cases items with
  | nil => exact absurd h (lt_irrefl _)
  | cons i items => exact (two_le_wireLen x i).trans (Nat.le_add_right _ _)

/-- What is tried is encrypted, with some random stream. -/
theorem mem_tried {x : Crates} {rng : ℕ → Crypto.Rng} {id : Crypto.Identity} {items : List OutboxItem}
    {k : ℕ} {p : Tried} (h : p ∈ tried x rng id k items) :
    p.1 ∈ items ∧ ∃ n, p.2 = encryptFor x (rng n) id p.1 := by
  induction items generalizing k with
  | nil => simp [tried] at h
  | cons i items ih =>
    obtain rfl | h := List.mem_cons.mp h
    · exact ⟨List.mem_cons_self,k,rfl⟩
    · obtain ⟨hmem,hn⟩ := ih h
      exact ⟨List.mem_cons_of_mem i hmem,hn⟩

/-- What was encrypted weighs what its items do on the wire. -/
theorem weigh_tried {x : Crates} (hx : x.Measured) {rng : ℕ → Crypto.Rng} {id : Crypto.Identity}
    (hid : id.Valid x) {ps : List Tried}
    (hps : ∀ p ∈ ps, p.usable = true ∧ ∃ n, p.2 = encryptFor x (rng n) id p.1) :
    Tried.weigh ps = wireLens x (ps.map Prod.fst) := by
  induction ps with
  | nil => rfl
  | cons p ps ih =>
    obtain ⟨husable,n,hp⟩ := hps p List.mem_cons_self
    obtain ⟨blob,hblob⟩ := Option.isSome_iff_exists.mp husable
    rw [Tried.weigh, List.map_cons, wireLens, ih fun q hq => hps q (List.mem_cons_of_mem p hq)]
    have hweight : p.weight = p.1.wireLen x := by
      rw [Tried.weight, hblob]
      exact encryptFor_wireLen hx hid (hp.symm.trans hblob)
    rw [hweight]

/-- What the client takes the cap of the relay to be. -/
def Model.budget (m : Model) : ℕ := m.sendBatchBudget.getD maxSendBatchBytes

section
variable {x : Crates} {amb : Ambient} {m : Model}

theorem batch_length {id : Crypto.Identity} {b : Batch} {rest : List OutboxItem}
    (h : m.batch x amb id = (b,rest)) : b.messages.length = b.taken.length := by
  obtain ⟨met,_,-,-,hbuilt,-⟩ := batch_built h
  rw [hbuilt.messages, hbuilt.taken, List.length_map, List.length_map]

/-- What a flush takes. -/
theorem batch_weighed (hx : x.Measured) (hsteady : x.Steady) {id : Crypto.Identity} (hid : id.Valid x)
    {b : Batch} {rest : List OutboxItem} (h : m.batch x amb id = (b,rest)) :
    (∀ i ∈ b.taken, Sendable x i) ∧ b.bytes = wireLens x b.taken ∧
      (b.taken.length ≤ 1 ∨ b.bytes ≤ m.budget) := by
  obtain ⟨met,after,htried,-,hbuilt,-⟩ := batch_built h
  have hmet : ∀ p ∈ met.filter Tried.usable,
      p.usable = true ∧ ∃ n, p.2 = encryptFor x (amb.rng n) id p.1 := by
    intro p hp
    obtain ⟨hp,husable⟩ := List.mem_filter.mp hp
    exact ⟨husable,(mem_tried (htried ▸ List.mem_append_left _ hp)).2⟩
  refine ⟨?_,?_,?_⟩
  · rw [hbuilt.taken]
    intro i hi
    obtain ⟨p,hp,rfl⟩ := List.mem_map.mp hi
    obtain ⟨husable,n,heq⟩ := hmet p hp
    obtain ⟨blob,hblob⟩ := Option.isSome_iff_exists.mp husable
    exact sendable_of_some hx hsteady hid (heq.symm.trans hblob)
  · rw [hbuilt.bytes, hbuilt.taken, weigh_tried hx hid hmet]
  · rw [hbuilt.bytes, hbuilt.taken, List.length_map]
    exact hbuilt.fits.2

/-- What is in flight weighs what its items do, and no more than the budget unless it is a single item. -/
structure Weighed (x : Crates) (m : Model) (f : InFlight) : Prop where
  fits : Fits m f
  count : 0 < f.count
  sendable : ∀ i ∈ m.outbox.take f.count, Sendable x i
  bytes : f.bytes = wireLens x (m.outbox.take f.count)
  light : f.count = 1 ∨ f.bytes ≤ m.budget

def Model.Weighs (x : Crates) (m : Model) : Prop := ∀ f, m.inFlight = some f → Weighed x m f

theorem Weighed.held {m' : Model} {f : InFlight} (h : Weighed x m f) (hholds : Holds m m')
    (hbudget : m'.sendBatchBudget = m.sendBatchBudget) (hf : m.inFlight = some f) : Weighed x m' f := by
  have hfront := (hholds.front f hf h.fits).1
  refine ⟨hholds.fits hf h.fits,h.count,?_,?_,?_⟩
  · rw [hfront]
    exact h.sendable
  · rw [hfront]
    exact h.bytes
  · rw [Model.budget, hbudget]
    exact h.light

/-- What a flush leaves in flight was there before, or is the batch that it sends. -/
theorem flushNext_inFlight (hidle : m.flushing = false → m.inFlight = none) {f : InFlight}
    (hf : (flushNext x amb m).1.inFlight = some f) :
    m.inFlight = some f ∧ (flushNext x amb m).1 = m ∨
    ∃ id b rest, m.identity x = some id ∧ m.batch x amb id = (b,rest) ∧
      Fits (flushNext x amb m).1 f ∧ 0 < f.count ∧ f.count = b.messages.length ∧ f.bytes = b.bytes ∧
      (flushNext x amb m).1.outbox = b.taken.map (OutboxItem.stamp (amb.now 1)) ++ rest ∧
      (flushNext x amb m).1.budget = m.budget := by
  have hflushed := flushNext_flushed x amb m
  generalize flushNext x amb m = r at hflushed hf
  have hlaunch := hflushed.launches
  cases hflushed with
  | gated => exact .inl ⟨hf,rfl⟩
  | emptied hflushing => exact absurd (hf.symm.trans (hidle hflushing)) (Option.some_ne_none f)
  | unsent => exact absurd hf.symm (Option.some_ne_none f)
  | @sent id token b rest recipient ws hflushing hid htoken hb hr hw =>
    have hcount := (batch_sublist hb).2 recipient hr
    obtain hnone | ⟨g,_,_,hg,hfits,-⟩ := hlaunch (hidle hflushing)
    · exact absurd (hf.symm.trans hnone) (Option.some_ne_none f)
    obtain rfl := Option.some.inj (hg.symm.trans hf)
    obtain rfl := Option.some.inj hf
    exact .inr ⟨id,b,rest,hid,hb,hfits,hcount,rfl,rfl,rfl,rfl⟩

theorem flushNext_weighed (hx : x.Measured) (hsteady : x.Steady) (hm : m.Weighs x) :
    (flushNext x amb m).1.Weighs x := by
  intro f hf
  obtain ⟨hold,hsame⟩ | ⟨id,b,rest,hid,hb,hfits,hcount,hmessages,hbytes,houtbox,hbudget⟩ :=
    flushNext_inFlight (idle_of_fits fun f hf => (hm f hf).fits) hf
  · rw [hsame]
    exact hm f hold
  obtain ⟨hsendable,hweight,hlight⟩ := batch_weighed hx hsteady (identity_valid hid) hb
  have hlength := batch_length hb
  have hfront : (flushNext x amb m).1.outbox.take f.count = b.taken.map (OutboxItem.stamp (amb.now 1)) := by
    rw [houtbox, hmessages, hlength]
    exact List.take_left' (List.length_map _)
  refine ⟨hfits,hcount,?_,?_,?_⟩
  · rw [hfront]
    intro i hi
    obtain ⟨j,hj,rfl⟩ := List.mem_map.mp hi
    exact (hsendable j hj).of_kin (kin_stamp _ j)
  · rw [hfront, wireLens_stamped, hbytes]
    exact hweight
  · obtain hone | hlight := hlight
    · left
      omega
    · right
      rw [hbytes, hbudget]
      exact hlight

theorem update_weighed (hx : x.Measured) (hsteady : x.Steady) {e : Event}
    (he : ∀ res, e = .loadedOutbox res → m.inFlight = none) (hm : m.Weighs x) :
    (update x amb e m).1.Weighs x :=
  update_inFlight (fun _ _ hholds hbudget hf h => h.held hholds hbudget hf)
    (fun _ _ _ hm' => flushNext_weighed hx hsteady hm') he hm

/-- A budget that is less than what is in flight lets through less of it, and drops none of it. -/
theorem batch_shrinks {m' : Model} {f : InFlight} (hf : Weighed x m f) (hcount : 1 < f.count)
    (houtbox : m'.outbox = m.outbox) (hbudget : m'.budget < f.bytes) {id : Crypto.Identity}
    (hid : id.Valid x) (hx : x.Measured) {b : Batch} {rest : List OutboxItem}
    (h : m'.batch x amb id = (b,rest)) :
    ∃ k < f.count, b.taken = m.outbox.take k ∧ rest = m.outbox.drop k ∧ b.messages.length = k ∧
      b.recipient ≠ none := by
  obtain ⟨met,after,htried,hrest,hbuilt,hstops⟩ := batch_built h
  rw [houtbox] at htried
  have hitems := tried_items x amb.rng id 0 m.outbox
  rw [htried, List.map_append] at hitems
  have hlength : f.count ≤ m.outbox.length := hf.fits.count
  have hmet : ∀ p ∈ met ++ after, ∃ n, p.2 = encryptFor x (amb.rng n) id p.1 := fun p hp =>
    (mem_tried (htried ▸ hp)).2
  have husable : ∀ p ∈ met ++ after, p.1 ∈ m.outbox.take f.count → p.usable = true := by
    intro p hp hfront
    obtain ⟨n,hn⟩ := hmet p hp
    obtain ⟨blob,hblob⟩ := hf.sendable p.1 hfront (amb.rng n) id hid
    rw [Tried.usable, hn, hblob]
    rfl
  -- The loop stops inside the old batch, whose items weigh more than the budget together.
  have hshort : met.length < f.count := by
    by_contra hlong
    rw [not_lt] at hlong
    have hfront : (met.take f.count).map Prod.fst = m.outbox.take f.count := by
      rw [← hitems, List.take_append_of_le_length (by rw [List.length_map]; exact hlong), List.map_take]
    have hall : ∀ p ∈ met.take f.count, p.usable = true := by
      intro p hp
      refine husable p (List.mem_append_left _ (List.mem_of_mem_take hp)) ?_
      rw [← hfront]
      exact List.mem_map_of_mem hp
    have hweigh : Tried.weigh (met.take f.count) = f.bytes := by
      rw [weigh_tried hx hid fun p hp => ⟨hall p hp,
        hmet p (List.mem_append_left _ (List.mem_of_mem_take hp))⟩, hfront, ← hf.bytes]
    have hcard : (met.take f.count).length = f.count := by rw [List.length_take, min_eq_left hlong]
    obtain hnil | ⟨a,p,hlast⟩ := List.eq_nil_or_concat (met.take f.count)
    · rw [hnil] at hcard
      exact absurd hcard.symm (by simp only [List.length_nil]; omega)
    rw [List.concat_eq_append] at hlast
    rw [hlast] at hall hweigh hcard
    have hkept : a.filter Tried.usable = a :=
      List.filter_eq_self.mpr fun q hq => hall q (List.mem_append_left _ hq)
    refine hbuilt.unstopped a p (hlast ▸ List.take_prefix _ _) (.inr (.inr ⟨?_,?_,?_⟩))
    · rw [hkept]
      rintro rfl
      simp only [List.nil_append, List.length_singleton] at hcard
      omega
    · exact hall p (List.mem_append_right _ (List.mem_singleton_self p))
    · rw [hkept]
      rw [Tried.weigh_append, Tried.weigh, Tried.weigh, Nat.add_zero] at hweigh
      rw [hweigh]
      exact hbudget
  have hfront : met.map Prod.fst = m.outbox.take met.length := by
    rw [← hitems, List.take_left' (List.length_map _)]
  have hall : met.filter Tried.usable = met := by
    refine List.filter_eq_self.mpr fun p hp => husable p (List.mem_append_left _ hp) ?_
    have hmem : p.1 ∈ m.outbox.take met.length := hfront ▸ List.mem_map_of_mem hp
    exact List.take_subset_take_left _ hshort.le hmem
  refine ⟨met.length,hshort,?_,?_,?_,fun hnone => ?_⟩
  · rw [hbuilt.taken, hall, hfront]
  · rw [hrest, ← hitems, List.drop_left' (List.length_map _)]
  · rw [hbuilt.messages, hall, List.length_map]
  -- The first item is taken whatever it weighs.
  have hmetnil : met = [] := by rw [← hall]; exact hbuilt.idle hnone
  subst hmetnil
  cases after with
  | nil =>
    simp only [List.map_nil, List.append_nil] at hitems
    rw [← hitems] at hlength
    simp only [List.length_nil] at hlength
    omega
  | cons p after =>
    obtain hfull | ⟨q,hq,-⟩ | ⟨hne,-⟩ := hstops p rfl
    · exact absurd hfull (by decide)
    · exact absurd hq List.not_mem_nil
    · exact hne rfl

/-- A batch that was too large: its items stay as they are, and what is tried next is smaller. -/
structure Split (t u : Model) (f : InFlight) : Prop where
  outbox : List.Forall₂ Restamped t.outbox u.outbox
  stamped : (∀ i ∈ t.outbox.take f.count, i.firstAttempt ≠ 0) → u.outbox = t.outbox
  halved : 2*u.budget ≤ t.budget
  lowered : u.budget < t.budget
  positive : 0 < u.budget
  smaller : ∀ g, u.inFlight = some g → g.count < f.count

theorem sendResult_splits (hx : x.Measured) {f : InFlight} (hf : m.inFlight = some f)
    (hw : Weighed x m f) (hcount : 1 < f.count) {resp : Response} (h413 : resp.status = 413) :
    Split m (sendResult x amb m.flushGen (.ok resp) m).1 f := by
  have hbatch : (if resp.status = 413 then (some f).filter (fun b => b.count > 1) else none) = some f := by
    rw [if_pos h413]
    exact Option.filter_eq_some_iff.mpr ⟨rfl,by simpa using hcount⟩
  obtain ⟨small,houtbox,hsmall,hidle,hsplit⟩ : ∃ small : Model, small.outbox = m.outbox ∧
      small.sendBatchBudget = some (f.bytes/2) ∧ small.inFlight = none ∧
      sendResult x amb m.flushGen (.ok resp) m = flushNext x amb small := by
    refine ⟨{ m with flushing := false, inFlight := none, sendBatchBudget := some (f.bytes/2) },
      rfl,rfl,rfl,?_⟩
    simp only [sendResult, ne_eq, not_true_eq_false, if_false, hf, hbatch,
      show resp.status ≠ 401 by omega, show resp.status ≠ 429 by omega]
  rw [hsplit]
  have hlong : (m.outbox.take f.count).length = f.count := by
    rw [List.length_take, min_eq_left hw.fits.count]
  have hpos : 2 ≤ f.bytes := by
    rw [hw.bytes]
    exact two_le_wireLens x (by omega)
  have hlight : f.bytes ≤ m.budget := hw.light.resolve_left (by omega)
  have hbudget : ∀ {u : Model}, u.sendBatchBudget = some (f.bytes/2) →
      2*u.budget ≤ m.budget ∧ u.budget < m.budget ∧ 0 < u.budget := by
    intro u hu
    rw [Model.budget, hu, Option.getD_some]
    omega
  have hkept : ∀ {u : Model} (k : ℕ), k < f.count → u.sendBatchBudget = some (f.bytes/2) →
      u.outbox = (m.outbox.take k).map (OutboxItem.stamp (amb.now 1)) ++ m.outbox.drop k →
      (∀ g, u.inFlight = some g → g.count = k) → Split m u f := by
    intro u k hk hu houtbox hflight
    obtain ⟨hhalved,hlowered,hpositive⟩ := hbudget hu
    refine ⟨?_,fun hstamped => ?_,hhalved,hlowered,hpositive,fun g hg => (hflight g hg).trans_lt hk⟩
    · rw [houtbox]
      have hfront : List.Forall₂ Restamped (m.outbox.take k)
          ((m.outbox.take k).map (OutboxItem.stamp (amb.now 1))) :=
        List.forall₂_map_right_iff.mpr (List.forall₂_same.mpr fun i _ => restamped_stamp _ i)
      have hback : List.Forall₂ Restamped (m.outbox.drop k) (m.outbox.drop k) :=
        List.forall₂_same.mpr fun i _ => restamped_refl i
      have hall : List.Forall₂ Restamped (m.outbox.take k ++ m.outbox.drop k)
          ((m.outbox.take k).map (OutboxItem.stamp (amb.now 1)) ++ m.outbox.drop k) :=
        List.rel_append hfront hback
      rwa [List.take_append_drop] at hall
    · have hsame : (m.outbox.take k).map (OutboxItem.stamp (amb.now 1)) = m.outbox.take k := by
        refine (List.map_congr_left fun i hi => ?_).trans (List.map_id _)
        exact if_neg (hstamped i (List.take_subset_take_left _ hk.le hi))
      rw [houtbox, hsame, List.take_append_drop]
  have hless : small.budget < f.bytes := by
    rw [Model.budget, hsmall, Option.getD_some]
    omega
  have hflushed := flushNext_flushed x amb small
  generalize flushNext x amb small = r at hflushed
  cases hflushed with
  | gated =>
    refine hkept 0 (by omega) hsmall houtbox fun g hg => ?_
    exact absurd (hg.symm.trans hidle) (Option.some_ne_none g)
  | emptied _ hid hb hr =>
    obtain ⟨_,-,-,-,-,hsome⟩ := batch_shrinks hw hcount houtbox hless (identity_valid hid) hx hb
    exact absurd hr hsome
  | sent _ hid _ hb =>
    obtain ⟨k,hk,htaken,hrest,hmessages,-⟩ :=
      batch_shrinks hw hcount houtbox hless (identity_valid hid) hx hb
    refine hkept k hk hsmall ?_ fun g hg => ?_
    · rw [← htaken, ← hrest]
      rfl
    · obtain rfl := Option.some.inj hg
      exact hmessages
  | unsent _ hid hb =>
    obtain ⟨k,hk,htaken,hrest,-⟩ :=
      batch_shrinks hw hcount houtbox hless (identity_valid hid) hx hb
    refine hkept k hk hsmall ?_ (by simp)
    rw [← htaken, ← hrest]
    rfl

/-- A single item that could not be sent is charged, and no other item is. -/
theorem sendResult_charges {f : InFlight} (hf : m.inFlight = some f) (hw : Weighed x m f)
    (hcount : f.count = 1) {res : HttpResult} (hfails : res.fails f.count = true) :
    ∃ i rest, m.outbox = i :: rest ∧ f.bytes = i.wireLen x ∧
      ((sendResult x amb m.flushGen res m).1.outbox = i.charge :: rest ∨
        Evolves Restamped (fun _ => False) (fun _ => Unsendable x) 0 rest
          (sendResult x amb m.flushGen res m).1.outbox) := by
  rw [sendResult_failed hf hfails]
  have hafter : ∀ {rest : List OutboxItem} (s : Model), s.outbox = rest →
      Evolves Restamped (fun _ => False) (fun _ => Unsendable x) 0 rest
        (flushNext x (amb.after 1) s).1.outbox := by
    rintro _ s rfl
    exact (flushNext_flushed x (amb.after 1) s).restamps
  have hlength := hw.fits.count
  have hbytes := hw.bytes
  rw [hcount] at hlength hbytes
  cases houtbox : m.outbox with
  | nil => simp [houtbox] at hlength
  | cons i rest =>
    rw [houtbox] at hbytes
    refine ⟨i,rest,rfl,hbytes,?_⟩
    simp only [retryBatch, hcount, List.take_succ_cons, List.take_zero, List.map_cons, List.map_nil,
      List.drop_succ_cons, List.drop_zero, List.countP_singleton]
    cases hexpired : i.charge.isExpired (amb.now 0) with
    | true =>
      right
      simp only [if_true, one_ne_zero, if_false, Upd.and_fst, Upd.emit_fst, persistOutbox_fst]
      have hnone : ([i.charge].filter fun i => !i.isExpired (amb.now 0)) = [] := by simp [hexpired]
      rw [hnone, List.nil_append]
      exact hafter _ (refused_outbox _)
    | false =>
      left
      simp only [Bool.false_eq_true, if_false, if_true, Upd.and_fst, Upd.emit_fst, persistOutbox_fst,
        refused_outbox]
      simp [hexpired]

/-- The event is the rejection, for its size, of a batch that can be made smaller. -/
def Model.splits (m : Model) : Event → Bool
  | .sendResult gen (.ok resp) =>
    gen = m.flushGen && resp.status = 413 && m.inFlight.any fun f => 1 < f.count
  | _ => false

theorem flushNext_budget (x : Crates) (amb : Ambient) (m : Model) : (flushNext x amb m).1.budget = m.budget := by
  have hsame : (flushNext x amb m).1.sendBatchBudget = m.sendBatchBudget :=
    update_agrees x amb .startFlush m .sendBatchBudget (by simp [Event.writes])
  rw [Model.budget, hsame, Model.budget]

theorem retryBatch_budget (x : Crates) (amb : Ambient) (batch : Option InFlight) (m : Model) :
    (retryBatch x amb batch m).1.budget = m.budget := by
  cases batch with
  | none => rfl
  | some b =>
    simp only [retryBatch]
    split
    · simp only [Upd.and_fst, Upd.emit_fst, persistOutbox_fst]
      rw [Model.refused_eq]
      rfl
    · simp only [Upd.and_fst, Upd.emit_fst, persistOutbox_fst]
      rw [flushNext_budget, Model.refused_eq]
      rfl

/-- Nothing but such a rejection changes the budget. -/
theorem sendResult_budget {gen : UInt64} {res : HttpResult} (h : m.splits (.sendResult gen res) = false) :
    (sendResult x amb gen res m).1.budget = m.budget := by
  have hanswered := sendResult_answered x amb gen res m
  generalize sendResult x amb gen res m = r at hanswered
  cases hanswered with
  | stale => rfl
  | unauthorized => rfl
  | limited => rfl
  | split h413 hf hcount => simp [Model.splits, h413, hf, hcount] at h
  | settled =>
    simp only [sendDone, Upd.and_fst, persistOutbox_fst]
    rw [flushNext_budget, Model.refused_eq]
    split <;> rfl
  | failed => exact retryBatch_budget ..

variable (amb) in
theorem update_budget (hx : x.Measured) {e : Event}
    (hrelay : ∀ url, e = .setServerUrl url → normalizeServerUrl x url = none) (hm : m.Weighs x) :
    m.splits e = false ∧ (update x amb e m).1.budget = m.budget ∨
      m.splits e = true ∧ 2*(update x amb e m).1.budget ≤ m.budget ∧ 0 < (update x amb e m).1.budget := by
  cases hsplits : m.splits e with
  | false =>
    refine .inl ⟨rfl,?_⟩
    by_cases hw : Field.sendBatchBudget ∈ e.writes
    · cases e with
      | setServerUrl url =>
        obtain ⟨-,_,h⟩ | ⟨url',hnorm,-⟩ := setServerUrl_fst x url m
        · simp only [update, h]
          rfl
        · exact absurd (hnorm.symm.trans (hrelay url rfl)) (Option.some_ne_none url')
      | sendResult gen res => exact sendResult_budget hsplits
      | _ => simp [Event.writes] at hw
    · rw [Model.budget, show (update x amb e m).1.sendBatchBudget = m.sendBatchBudget from
        update_agrees x amb e m .sendBatchBudget hw, Model.budget]
  | true =>
    right
    cases e with
    | sendResult gen res =>
      cases res with
      | err => simp [Model.splits] at hsplits
      | ok resp =>
        simp only [Model.splits, Bool.and_eq_true, decide_eq_true_eq, Option.any_eq_true] at hsplits
        obtain ⟨⟨rfl,h413⟩,f,hf,hcount⟩ := hsplits
        have hsplit := @sendResult_splits x amb m hx f hf (hm f hf) hcount resp h413
        exact ⟨rfl,hsplit.halved,hsplit.positive⟩
    | _ => cases hsplits

end

/-- One relay throughout, which rejects the bodies above its cap for their size, and no others; a load of
the outbox finds nothing in flight. -/
structure Capped (x : Crates) (C : ℕ) (m : Model) (l : Ambient × Event) : Prop where
  rejects : ∀ resp f, l.2 = .sendResult m.flushGen (.ok resp) → m.inFlight = some f →
    (resp.status = 413 ↔ C < f.bytes)
  relay : ∀ url, l.2 = .setServerUrl url → normalizeServerUrl x url = none
  loads : ∀ res, l.2 = .loadedOutbox res → m.inFlight = none

/-- What a rejection is to do: one of more than one item leaves the outbox as it is, but for a clock that
never started, halves the budget at least, and what is sent next is smaller; one of one item charges that
one alone, which is longer than the cap, and loses no other but what cannot be encrypted; and with nothing
in flight nothing happens. -/
structure Measures (x : Crates) (C : ℕ) (m u : Model) : Prop where
  split : ∀ f, m.inFlight = some f → 1 < f.count → Split m u f
  lone : ∀ f, m.inFlight = some f → f.count = 1 → ∃ i rest, m.outbox = i :: rest ∧ C < i.wireLen x ∧
    (u.outbox = i.charge :: rest ∨
      Evolves Restamped (fun _ => False) (fun _ => Unsendable x) 0 rest u.outbox)
  idle : m.inFlight = none → u.outbox = m.outbox

/-- If what happens is a rejection, it measures the cap. -/
def Converges (x : Crates) (C : ℕ) (m : Model) (l : Ambient × Event) : Prop :=
  ∀ resp, l.2 = .sendResult m.flushGen (.ok resp) → resp.status = 413 →
    Measures x C m (update x l.1 (l.2.received x) m).1

/-- If what happens is the rejection of a batch that can be made smaller, the update gets to see it. -/
def HandedOn (x : Crates) (m : Model) (l : Ambient × Event) : Prop :=
  m.splits l.2 = true → l.2.received x = l.2

/-- What happens is no rejection of a batch that can be made smaller. -/
def Lone (m : Model) (l : Ambient × Event) : Prop := m.splits l.2 = false

/-- Count the rejections of batches that can be made smaller. -/
def noteSplit (m : Model) (l : Ambient × Event) (_ : Model) (k : ℕ) : ℕ :=
  if m.splits l.2 then k+1 else k

/-- A response is handed on as it is, or made an error. -/
def Crates.Filters (x : Crates) : Prop := ∀ resp, x.received resp = .ok resp ∨ x.received resp = .err

theorem Crates.Screens.filters {x : Crates} (hx : x.Screens) : x.Filters := by
  intro resp
  cases h : resp.isError with
  | true => exact .inr (hx.refused resp h)
  | false => exact .inl (hx.passed resp h)

section
variable {x : Crates} {amb : Ambient} {m : Model} {C : ℕ}

theorem splits_eq_true {e : Event} : m.splits e = true ↔ ∃ resp f,
    e = .sendResult m.flushGen (.ok resp) ∧ resp.status = 413 ∧ m.inFlight = some f ∧ 1 < f.count := by
  constructor
  · intro h
    cases e with
    | sendResult gen res =>
      cases res with
      | err => simp [Model.splits] at h
      | ok resp =>
        simp only [Model.splits, Bool.and_eq_true, decide_eq_true_eq, Option.any_eq_true] at h
        obtain ⟨⟨rfl,h413⟩,f,hf,hcount⟩ := h
        exact ⟨resp,f,rfl,h413,hf,hcount⟩
    | _ => cases h
  · rintro ⟨resp,f,rfl,h413,hf,hcount⟩
    simp [Model.splits, h413, hf, hcount]

theorem Capped.weighs (hx : x.Measured) (hsteady : x.Steady) {l : Ambient × Event} (hl : Capped x C m l)
    (hm : m.Weighs x) : (update x l.1 (l.2.received x) m).1.Weighs x := by
  refine update_weighed hx hsteady (fun res he => hl.loads res ?_) hm
  cases hevent : l.2 <;> simp_all [Event.received]

theorem converges_iff (hfilters : x.Filters) (hx : x.Measured) (hm : m.Weighs x) {l : Ambient × Event}
    (hl : Capped x C m l) : Converges x C m l ↔ HandedOn x m l := by
  obtain ⟨amb,e⟩ := l
  constructor
  · intro h hsplits
    obtain ⟨resp,f,rfl,h413,hf,hcount⟩ := splits_eq_true.mp hsplits
    have hsplit := (h resp rfl h413).split f hf hcount
    obtain hpassed | hrefused := hfilters resp
    · exact congrArg (Event.sendResult m.flushGen) hpassed
    -- As an error it leaves the budget alone.
    have hsame : (update x amb (.sendResult m.flushGen .err) m).1.budget = m.budget :=
      sendResult_budget rfl
    have hless := hsplit.lowered
    simp only [Event.received, Crates.deliver, hrefused, hsame] at hless
    exact absurd hless (lt_irrefl _)
  · rintro h resp rfl h413
    refine ⟨fun f hf hcount => ?_,fun f hf hcount => ?_,fun hidle => ?_⟩
    · have hpassed : Event.received x (.sendResult m.flushGen (.ok resp)) = _ :=
        h (splits_eq_true.mpr ⟨resp,f,rfl,h413,hf,hcount⟩)
      simp only [hpassed]
      exact sendResult_splits hx hf (hm f hf) hcount h413
    · have hfails : (x.deliver (.ok resp)).fails f.count = true := by
        obtain hpassed | hrefused := hfilters resp
        · simp [Crates.deliver, hpassed, HttpResult.fails, h413, hcount, isSuccess]
        · simp [Crates.deliver, hrefused, HttpResult.fails]
      obtain ⟨i,rest,houtbox,hbytes,hafter⟩ := @sendResult_charges x amb m f hf (hm f hf) hcount _ hfails
      exact ⟨i,rest,houtbox,hbytes ▸ (hl.rejects resp f rfl hf).mp h413,hafter⟩
    · obtain hpassed | hrefused := hfilters resp
      · simp only [Event.received, Crates.deliver, hpassed, update, sendResult, hidle, Option.filter_none,
          ite_self, ne_eq, not_true_eq_false, if_false, h413, isSuccess]
        rfl
      · simp [Event.received, Crates.deliver, hrefused, update, sendResult, hidle, retryBatch]

/-- A relay that rejects the bodies above its cap for their size, and no others, has its cap measured if
and only if `crux_http` hands on the rejections of batches that can be made smaller; there are no more of
these than the budget has binary digits. -/
theorem cap_measured_iff (hfilters : x.Filters) (hx : x.Measured) (hsteady : x.Steady) {t : Model}
    {ls : List (Ambient × Event)} {k : ℕ} (hm : m.Weighs x)
    (hls : Lts.Along (Model.hears x) (Capped x C) m ls)
    (hrun : Lts.run (Lts.watch (Model.hears x) noteSplit) (m,0) ls = some (t,k)) :
    Lts.Along (Model.hears x) (Converges x C) m ls ∧ k ≤ Nat.log 2 m.budget ↔
      Lts.Along (Model.hears x) (HandedOn x) m ls := by
  have hsteps : Lts.Along (Model.hears x) (Converges x C) m ls ↔
      Lts.Along (Model.hears x) (HandedOn x) m ls := by
    refine Lts.along_congr_along _ (I := Model.Weighs x) (fun s l u hs hl hstep => ?_)
      (fun s l hs hl => converges_iff hfilters hx hs hl) hm hls
    obtain rfl := Option.some.inj hstep
    exact hl.weighs hx hsteady hs
  refine ⟨fun h => hsteps.mp h.1,fun h => ⟨hsteps.mpr h,?_⟩⟩
  -- Each of them halves the budget.
  have hinv : t.Weighs x ∧ t.budget*2^k ≤ m.budget ∧ (k = 0 ∨ 0 < t.budget) := by
    refine Lts.run_invariant_along (Lts.watch (Model.hears x) noteSplit)
      (G := fun s l => Capped x C s.1 l ∧ HandedOn x s.1 l)
      (I := fun s => s.1.Weighs x ∧ s.1.budget*2^s.2 ≤ m.budget ∧ (s.2 = 0 ∨ 0 < s.1.budget)) ?_
      ⟨hm,by simp,.inl rfl⟩ (Lts.Along.watch _ (Lts.Along.and _ hls h)) hrun
    rintro s ⟨amb,e⟩ u ⟨hweighs,hbound,hpos⟩ ⟨hl,hhanded⟩ hstep
    obtain ⟨hnext,hnote⟩ := Lts.watch_eq_some _ hstep
    have hmodel : u.1 = (update x amb (e.received x) s.1).1 := (Option.some.inj hnext).symm
    have hrelay : ∀ url, e.received x = .setServerUrl url → normalizeServerUrl x url = none := by
      intro url he
      refine hl.relay url ?_
      cases e <;> simp_all [Event.received]
    have hcounted : s.1.splits (e.received x) = s.1.splits e := by
      cases hsplits : s.1.splits e with
      | true => rw [show e.received x = e from hhanded hsplits, hsplits]
      | false =>
        cases e with
        | sendResult gen res =>
          cases res with
          | err => rfl
          | ok resp => obtain h | h := hfilters resp <;> simp_all [Event.received, Crates.deliver, Model.splits]
        | _ => rfl
    refine ⟨hmodel ▸ hl.weighs hx hsteady hweighs,?_⟩
    rw [hnote, hmodel, noteSplit, ← hcounted]
    obtain ⟨hno,hsame⟩ | ⟨hyes,hhalved,hpositive⟩ := update_budget amb hx hrelay hweighs
    · simp only [hno, Bool.false_eq_true, if_false, hsame]
      exact ⟨hbound,hpos⟩
    · simp only [hyes, if_true]
      refine ⟨?_,.inr hpositive⟩
      calc (update x amb (e.received x) s.1).1.budget*2^(s.2+1)
          = 2*(update x amb (e.received x) s.1).1.budget*2^s.2 := by ring
        _ ≤ s.1.budget*2^s.2 := Nat.mul_le_mul_right _ hhalved
        _ ≤ m.budget := hbound
  obtain ⟨-,hbound,hpos⟩ := hinv
  obtain rfl | hpos := hpos
  · exact Nat.zero_le _
  · exact Nat.le_log_of_pow_le Nat.one_lt_two ((Nat.le_mul_of_pos_left _ hpos).trans hbound)

theorem handedOn_iff (hscreens : x.Screens) (m : Model) (l : Ambient × Event) :
    HandedOn x m l ↔ Lone m l := by
  constructor
  · intro h
    by_contra hsplits
    rw [Lone, Bool.not_eq_false] at hsplits
    obtain ⟨resp,f,he,h413,-⟩ := splits_eq_true.mp hsplits
    have hsame := h hsplits
    rw [he] at hsame
    have hrefused := hscreens.refused resp (by simp [Response.isError, h413])
    simp [Event.received, Crates.deliver, hrefused] at hsame
  · exact fun h hsplits => absurd (h.symm.trans hsplits) Bool.false_ne_true

end

/-- How much a body carries. -/
def bodyLen : List Envelope → ℕ
  | [] => 0
  | env :: msgs => len env.encryptedBlob+bodyLen msgs

theorem bodyLen_weigh {ps : List Tried} (h : ∀ p ∈ ps, p.usable = true) :
    bodyLen (ps.map Tried.envelope) = Tried.weigh ps := by
  induction ps with
  | nil => rfl
  | cons p ps ih =>
    obtain ⟨blob,hblob⟩ := Option.isSome_iff_exists.mp (h p List.mem_cons_self)
    have hweight : len p.envelope.encryptedBlob = p.weight := by
      rw [Tried.envelope, Tried.weight, hblob]
      rfl
    rw [List.map_cons, bodyLen, hweight, ih fun q hq => h q (List.mem_cons_of_mem p hq), Tried.weigh]

/-- What is noted of a batch in flight is how much its body carries. -/
theorem flushNext_body (x : Crates) (amb : Ambient) (m : Model) {msgs : List Envelope}
    (h : msgs ∈ sentBatches (flushNext x amb m).2) :
    ∃ f, (flushNext x amb m).1.inFlight = some f ∧ f.count = msgs.length ∧ f.bytes = bodyLen msgs := by
  obtain ⟨id,b,rest,recipient,hb,-,rfl,hsent⟩ := (flushNext_flushed x amb m).of_sent h
  obtain ⟨met,_,-,-,hbuilt,-⟩ := batch_built hb
  rw [hsent]
  refine ⟨_,rfl,rfl,?_⟩
  rw [hbuilt.messages, bodyLen_weigh fun p hp => (List.mem_filter.mp hp).2]
  exact hbuilt.bytes

/-- With the errors that `crux_http` makes of rejections, a relay has its cap measured if and only if it
rejects no batch that can be made smaller. -/
theorem too_large_converges {x : Crates} (hscreens : x.Screens) (hx : x.Measured) (hsteady : x.Steady)
    {C : ℕ} {m t : Model} {ls : List (Ambient × Event)} {k : ℕ} (hm : m.Weighs x)
    (hls : Lts.Along (Model.hears x) (Capped x C) m ls)
    (hrun : Lts.run (Lts.watch (Model.hears x) noteSplit) (m,0) ls = some (t,k)) :
    (Lts.Along (Model.hears x) (Converges x C) m ls ∧ k ≤ Nat.log 2 m.budget ↔
      Lts.Along (Model.hears x) Lone m ls) ∧
    (∀ amb s msgs, msgs ∈ sentBatches (flushNext x amb s).2 → ∃ f,
      (flushNext x amb s).1.inFlight = some f ∧ f.count = msgs.length ∧ f.bytes = bodyLen msgs) ∧
    ∀ rng id i blob, id.Valid x → encryptFor x rng id i = some blob → len (Hex.encode blob) = i.wireLen x := by
  refine ⟨?_,fun amb s msgs h => flushNext_body x amb s h,fun _ _ _ _ hid hblob =>
    encryptFor_wireLen hx hid hblob⟩
  rw [cap_measured_iff hscreens.filters hx hsteady hm hls hrun]
  exact Lts.along_congr _ (I := fun _ => True) (fun _ _ _ _ _ => trivial)
    (fun s l _ => handedOn_iff hscreens s l) trivial ls

theorem sealing_screens : Exchange.sealing.Screens := ⟨sample_screens.refused,sample_screens.passed⟩

theorem sealing_steady : Exchange.sealing.Steady where
  ladder _ _ _ _ _ := rfl
  cipher _ _ _ _ _ _ _ _ _ _ := rfl

def sampleItem : OutboxItem := .new (samplePeer 7) "hi"

def sampleIdentity : Crypto.Identity :=
  ⟨sampleSecret,Crypto.ed25519SkToX25519 Exchange.sealing sampleSecret,List.replicate 32 1⟩

theorem sampleItem_sendable : Sendable Exchange.sealing sampleItem := by
  have hid : Crypto.fromSecretBytes Exchange.sealing sampleSecret = .ok sampleIdentity := by
    decide
  have hsome : (encryptFor Exchange.sealing (fun _ => 1) sampleIdentity sampleItem).isSome = true := by
    decide +kernel
  obtain ⟨blob,hblob⟩ := Option.isSome_iff_exists.mp hsome
  exact sendable_of_some Exchange.sealing_measured sealing_steady (Crypto.fromSecretBytes_valid hid) hblob

/-- The first of two items for one contact is under way. -/
def sampleSending : Model :=
  { secretKey := some sampleSecret
    token := some "t"
    outbox := [sampleItem,sampleItem]
    flushing := true
    inFlight := some ⟨samplePeer 7,1,512⟩ }

theorem sampleSending_weighs : sampleSending.Weighs Exchange.sealing := by
  intro f hf
  obtain rfl := Option.some.inj hf
  refine ⟨⟨rfl,by decide,by simp [sampleSending, sampleItem, OutboxItem.new]⟩,by decide,fun i hi => ?_,
    by decide,.inl rfl⟩
  obtain rfl : i = sampleItem := by simpa [sampleSending] using hi
  exact sampleItem_sendable

/-- An answer with the status of a body that is too large. -/
def tooLarge : HttpResult := .ok { status := 413 }

/-- It is rejected for its size, and is the only one to be charged. -/
theorem too_large_converges_one :
    Lts.Along (Model.hears Exchange.sealing) (Converges Exchange.sealing 500) sampleSending
      [(.sample,.sendResult 0 tooLarge)] := by
  have hcapped : Lts.Along (Model.hears Exchange.sealing) (Capped Exchange.sealing 500) sampleSending
      [(.sample,.sendResult 0 tooLarge)] := by
    refine ⟨⟨fun resp f he hf => ?_,fun _ h => by simp at h,fun _ h => by simp at h⟩,fun _ _ => trivial⟩
    obtain rfl := Option.some.inj hf
    obtain rfl : { status := 413 } = resp := HttpResult.ok.inj (Event.sendResult.inj he).2
    exact iff_of_true rfl (by decide)
  have hrun : Lts.run (Lts.watch (Model.hears Exchange.sealing) noteSplit) (sampleSending,0)
      [(.sample,.sendResult 0 tooLarge)] =
      some ((update Exchange.sealing .sample (.sendResult 0 .err) sampleSending).1,0) := rfl
  exact ((too_large_converges sealing_screens Exchange.sealing_measured sealing_steady sampleSending_weighs
    hcapped hrun).1.mpr ⟨rfl,fun _ _ => trivial⟩).1

/-- A text and a profile are on the wire together, each of which is below the cap. They are rejected for
their size: both are charged, and the budget stays what it was. -/
theorem rejected_batch_is_charged : ∃ c d f,
    runFromBoot Exchange.sealing (sampleLabels (sampleOnline ++ sampleText (samplePeer 7))) = some c ∧
    c.model.inFlight = some f ∧ f.count = 2 ∧ 1000 < f.bytes ∧
    (∀ i ∈ c.model.outbox, i.wireLen Exchange.sealing ≤ 1000) ∧
    step Exchange.sealing c (.sample,.answer 17 (.http tooLarge)) = some d ∧
    c.event? (app Exchange.sealing) (.answer 17 (.http tooLarge)) =
      some (.sendResult c.model.flushGen .err) ∧
    c.model.outbox.map OutboxItem.retries = [0,0] ∧ d.model.outbox.map OutboxItem.retries = [1,1] ∧
    d.model.budget = c.model.budget := by
  have h : (runFromBoot Exchange.sealing (sampleLabels (sampleOnline ++ sampleText (samplePeer 7)))).any
      (fun c => c.sends 17 && c.model.outbox.map OutboxItem.retries = [0,0] &&
        c.model.inFlight.any (fun f => f.count = 2 && 1000 < f.bytes) &&
        c.model.outbox.all (fun i => i.wireLen Exchange.sealing ≤ 1000) &&
        (step Exchange.sealing c (.sample,.answer 17 (.http tooLarge))).any fun d =>
          d.model.outbox.map OutboxItem.retries = [1,1] && d.model.budget = c.model.budget) = true := by
    decide +kernel
  simp only [Option.any_eq_true, Bool.and_eq_true, decide_eq_true_eq, List.all_eq_true] at h
  obtain ⟨c,hrun,⟨⟨⟨hsends,hbefore⟩,f,hf,hcount,hlong⟩,hshort⟩,d,hd,hafter,hbudget⟩ := h
  exact ⟨c,d,f,hrun,hf,hcount,hlong,hshort,hd,Running.sends_event hsends _,hbefore,hafter,hbudget⟩

end Skrepka.Client
