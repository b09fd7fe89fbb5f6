import Skrepka.Client.Blocked
import Skrepka.Client.Sealing
import Mathlib.Algebra.GroupWithZero.Nat
import Mathlib.Algebra.Order.BigOperators.Group.List

/-! Mail that is not admitted has no influence: a page leaves the same data behind when the events
are taken out of it that do not open, or that come from ourselves or a blocked contact. -/
namespace Skrepka.Client
open Rust Mvu

namespace Ingest

/-- Other bookkeeping: the cursor, the error, the byte budget and the two counters. -/
def recount (cursor : ℤ) (error : Option String) (budget eventsProcessed eventsStored : ℕ)
    (s : Ingest) : Ingest :=
  { s with
    model := { s.model with cursor, error }
    budget, eventsProcessed, eventsStored }

/-- The same data under other bookkeeping. -/
def Matches (s t : Ingest) : Prop := ∃ c e b p q, t = s.recount c e b p q

theorem Matches.refl (s : Ingest) : Matches s s := ⟨_,_,_,_,_,rfl⟩

theorem Matches.symm {s t : Ingest} (h : Matches s t) : Matches t s := by
  obtain ⟨_,_,_,_,_,rfl⟩ := h
  exact ⟨s.model.cursor,s.model.error,s.budget,s.eventsProcessed,s.eventsStored,rfl⟩

theorem Matches.trans {s t u : Ingest} (h₁ : Matches s t) (h₂ : Matches t u) : Matches s u := by
  obtain ⟨_,_,_,_,_,rfl⟩ := h₁
  obtain ⟨_,_,_,_,_,rfl⟩ := h₂
  exact ⟨_,_,_,_,_,rfl⟩

/-- A part of ingestion that keeps no books. -/
def Bookless (f : Ingest → Ingest) : Prop :=
  ∀ c e b p q s, f (recount c e b p q s) = recount c e b p q (f s)

theorem Bookless.matches {f : Ingest → Ingest} (hf : Bookless f) {s t : Ingest}
    (h : Matches s t) : Matches (f s) (f t) := by
  obtain ⟨_,_,_,_,_,rfl⟩ := h
  exact ⟨_,_,_,_,_,hf ..⟩

theorem Bookless.keeps {f : Ingest → Ingest} (hf : Bookless f) (s : Ingest) :
    (f s).budget = s.budget ∧ (f s).eventsProcessed = s.eventsProcessed := by
  have h := hf s.model.cursor s.model.error s.budget s.eventsProcessed s.eventsStored s
  change f s = _ at h
  rw [h]
  exact ⟨rfl,rfl⟩

theorem addStranger_bookless (x : Crates) (sender : String) (ts : ℤ) :
    Bookless (addStranger x sender ts) := fun _ _ _ _ _ _ => rfl

theorem storeText_bookless (hash : HashOrder) (sender : String) (ts : ℤ) (msgId body : String) :
    Bookless (storeText hash sender ts msgId body) := by
  intro c e b p q s
  have hids : (recount c e b p q s).idSet sender = s.idSet sender := rfl
  simp only [storeText, hids]
  split <;> rfl

theorem text_bookless (x : Crates) (hash : HashOrder) (sender : String) (ts : ℤ)
    (msgId body : String) : Bookless (text x hash sender ts msgId body) := by
  intro c e b p q s
  have hc : (recount c e b p q s).model.contacts = s.model.contacts := rfl
  simp only [text, hc]
  split
  · exact storeText_bookless hash sender ts msgId body ..
  split
  · rfl
  · rw [addStranger_bookless]
    exact storeText_bookless hash sender ts msgId body ..

theorem profile_bookless (now : ℤ) (sender : String) (ts : ℤ)
    (displayName bio photo : Option String) :
    Bookless (profile now sender ts displayName bio photo) := by
  intro c e b p q s
  have hc : (recount c e b p q s).model.contacts = s.model.contacts := rfl
  simp only [profile, hc]
  split
  · rfl
  split <;> rfl

theorem payload_bookless (x : Crates) (hash : HashOrder) (now : ℤ) (sender : String)
    (pl : ParsedPayload) : Bookless (payload x hash now sender pl) := by
  intro c e b p q s
  have hme : (recount c e b p q s).model.myPubkey = s.model.myPubkey := rfl
  have hb : (recount c e b p q s).model.isBlocked sender = s.model.isBlocked sender := rfl
  simp only [payload, hme, hb]
  split
  · rfl
  split
  · rfl
  cases pl.payload with
  | text id body => exact text_bookless x hash sender _ id body ..
  | deliveryAck ackIds => rfl
  | profile displayName bio photo => exact profile_bookless now sender _ displayName bio photo ..

theorem applyAck_bookless (now : ℤ) (pending : String × PendingAck) :
    Bookless (applyAck now · pending) := by
  intro c e b p q s
  have hwater : Bookless (ackWatermark now pending.1 pending.2) := by
    intro c e b p q s
    have hc : (recount c e b p q s).model.contacts = s.model.contacts := rfl
    simp only [ackWatermark, hc]
    split <;> rfl
  have hmark : Bookless (markConvo pending.1 pending.2) := by
    intro c e b p q s
    have hm : (recount c e b p q s).model.messages = s.model.messages := rfl
    simp only [markConvo, hm]
    split
    · rfl
    split <;> rfl
  have hstale : (recount c e b p q s).isStale pending.1 pending.2 =
      s.isStale pending.1 pending.2 := rfl
  simp only [applyAck, hstale]
  split
  · rfl
  · rw [hwater, hmark]

theorem applyAcks_bookless (now : ℤ) : Bookless (applyAcks now) := by
  intro c e b p q s
  have ha : (recount c e b p q s).pendingAcks = s.pendingAcks := rfl
  simp only [applyAcks, ha]
  clear ha
  generalize s.pendingAcks.toList = acks
  induction acks generalizing s with
  | nil => rfl
  | cons ack acks ih =>
    have hack : applyAck now (recount c e b p q s) ack = recount c e b p q (applyAck now s ack) :=
      applyAck_bookless now ack c e b p q s
    rw [List.foldl_cons, List.foldl_cons, hack, ih]

theorem queueAcks_bookless (x : Crates) (ackTs : ℤ) : Bookless (queueAcks x ackTs) :=
  fun _ _ _ _ _ _ => rfl

/-- A blob that opens is not oversized. -/
theorem len_of_openBlob {x : Crates} {id : Crypto.Identity} {blob : String}
    {r : String × ParsedPayload} (h : openBlob x id blob = some r) :
    len blob ≤ Crypto.maxBlobLen*2 := by
  simp only [openBlob, Option.bind_eq_bind, Option.bind_eq_some_iff] at h
  obtain ⟨bytes,hbytes,dec,hdec,-⟩ := h
  obtain ⟨inner,hblob,-⟩ : ∃ inner, Crypto.Unseals x id bytes inner ∧
      Crypto.Opens x id inner dec := by
    refine Crypto.decrypt_eq_ok.mp ?_
    cases hd : Crypto.decrypt x id bytes with
    | error => simp [hd, Except.toOption] at hdec
    | ok d => simpa [hd, Except.toOption] using hdec
  have := hblob.short
  rw [Hex.len_of_decode hbytes]
  omega

theorem event_of_none {x : Crates} {hash : HashOrder} {now : ℤ} {id : Crypto.Identity}
    {blob : String} (h : openBlob x id blob = none) (s : Ingest) :
    s.event x hash now id blob = s := by simp [event, h]

theorem event_matches {x : Crates} {hash : HashOrder} {now : ℤ} {id : Crypto.Identity}
    {blob : String} {s t : Ingest} (h : Matches s t) :
    Matches (s.event x hash now id blob) (t.event x hash now id blob) := by
  unfold event
  split
  · exact h
  · obtain ⟨c,e,b,p,q,rfl⟩ := h
    exact (payload_bookless x hash now _ _).matches ⟨c,e,b,p,q+1,rfl⟩

theorem event_keeps (x : Crates) (hash : HashOrder) (now : ℤ) (id : Crypto.Identity)
    (blob : String) (s : Ingest) :
    (s.event x hash now id blob).eventsProcessed = s.eventsProcessed ∧
      (s.event x hash now id blob).budget = s.budget := by
  unfold event
  split
  · exact ⟨rfl,rfl⟩
  · exact ((payload_bookless x hash now _ _).keeps _).symm

/-- The loop over a page without its limits. -/
def foldEvents (x : Crates) (hash : HashOrder) (now : ℤ) (id : Crypto.Identity)
    (evs : List String) (s : Ingest) : Ingest :=
  evs.foldl (fun s blob => s.event x hash now id blob) s

theorem foldEvents_matches {x : Crates} {hash : HashOrder} {now : ℤ} {id : Crypto.Identity}
    (evs : List String) {s t : Ingest} (h : Matches s t) :
    Matches (foldEvents x hash now id evs s) (foldEvents x hash now id evs t) := by
  induction evs generalizing s t with
  | nil => exact h
  | cons blob evs ih => exact ih (event_matches h)

/-- The blobs of a page that are not oversized. -/
def sized (evs : List String) : List String := evs.filter (fun blob => len blob ≤ Crypto.maxBlobLen*2)

/-- What the blobs of a page weigh. -/
def weight (evs : List String) : ℕ := (evs.map (fun blob => len blob/2)).sum

/-- A page that stays within the limits on its events is folded in whole. -/
theorem events_matches {x : Crates} {hash : HashOrder} {now prevCursor : ℤ}
    {id : Crypto.Identity} {evs : List String} {s : Ingest}
    (hcount : s.eventsProcessed+(sized evs).length ≤ maxPollEvents)
    (hweight : weight (sized evs) ≤ s.budget) :
    Matches (foldEvents x hash now id evs s) (events x hash now prevCursor id evs s) := by
  induction evs generalizing s with
  | nil => exact .refl s
  | cons blob evs ih =>
    simp only [events]
    split
    · rename_i hlong
      have hskip : sized (blob :: evs) = sized evs := by
        simp only [sized, List.filter_cons]
        rw [if_neg (by simpa using hlong)]
      have hnone : openBlob x id blob = none := by
        cases ho : openBlob x id blob with
        | none => rfl
        | some r => exact absurd (len_of_openBlob ho) (by omega)
      rw [hskip] at hcount hweight
      have hrest := ih hcount hweight
      rwa [foldEvents, List.foldl_cons, event_of_none hnone]
    · rename_i hshort
      have htake : sized (blob :: evs) = blob :: sized evs := by
        simp only [sized, List.filter_cons]
        rw [if_pos (by simpa using hshort)]
      rw [htake] at hcount hweight
      simp only [List.length_cons, weight, List.map_cons, List.sum_cons] at hcount hweight
      rw [if_neg (by omega), if_neg (by omega)]
      let s' : Ingest := { s with
        eventsProcessed := s.eventsProcessed+1, budget := s.budget-len blob/2 }
      have hbooks : Matches s s' := ⟨_,_,_,_,_,rfl⟩
      have hkept := event_keeps x hash now id blob s'
      refine (foldEvents_matches evs (event_matches hbooks)).trans (ih ?_ ?_)
      · rw [hkept.1]
        change s.eventsProcessed+1+_ ≤ _
        omega
      · rw [hkept.2, weight]
        change _ ≤ s.budget-len blob/2
        omega

end Ingest

/-- The blob opens, and its sender is neither ourselves nor blocked. -/
def Model.admits (x : Crates) (id : Crypto.Identity) (m : Model) (blob : String) : Bool :=
  (Ingest.openBlob x id blob).any fun r => r.1 ≠ m.myPubkey && !m.isBlocked r.1

/-- The page without the events that a model does not admit. -/
def PollResp.admitted (x : Crates) (m : Model) (page : PollResp) : PollResp :=
  { page with events := page.events.filter fun blob =>
      (m.identity x).any fun id => m.admits x id blob }

/-- The page stays within the limits on event count and total bytes. -/
def PollResp.WithinBudgets (page : PollResp) : Prop :=
  (Ingest.sized page.events).length ≤ maxPollEvents ∧
    Ingest.weight (Ingest.sized page.events) ≤ maxPollTotalBytes

namespace Ingest

variable {x : Crates} {hash : HashOrder} {now : ℤ} {id : Crypto.Identity} {m : Model}

/-- Our own key and the blocked contacts are those of a model. -/
def Screens (s : Ingest) (m : Model) : Prop :=
  s.model.myPubkey = m.myPubkey ∧ ∀ peer, s.model.isBlocked peer = m.isBlocked peer

theorem Screens.spares {s t : Ingest} (h : Screens s m) (hs : Spares s t) : Screens t m :=
  ⟨hs.me.trans h.1,fun peer => (hs.blocked peer).trans (h.2 peer)⟩

/-- An event that is not admitted is counted at most. -/
theorem event_of_refused {s : Ingest} {blob : String} (hs : Screens s m)
    (hb : m.admits x id blob = false) : Matches s (s.event x hash now id blob) := by
  unfold event
  split
  · exact .refl s
  · rename_i sender p ho
    have hpayload : { s with eventsStored := s.eventsStored+1 }.payload x hash now sender p =
        { s with eventsStored := s.eventsStored+1 } := by
      simp only [Model.admits, ho, Option.any_some, Bool.and_eq_false_iff, decide_eq_false_iff_not,
        Bool.not_eq_false', ne_eq, not_not] at hb
      simp only [payload, hs.1, hs.2]
      rcases hb with hme | hblocked
      · rw [if_pos hme]
      · simp [hblocked]
    rw [hpayload]
    exact ⟨_,_,_,_,_,rfl⟩

/-- Taking out the events that are not admitted leaves the same data. -/
theorem foldEvents_admitted {evs : List String} {s t : Ingest} (h : Matches s t)
    (hs : Screens s m) : Matches (foldEvents x hash now id evs s)
      (foldEvents x hash now id (evs.filter (m.admits x id)) t) := by
  induction evs generalizing s t with
  | nil => exact h
  | cons blob evs ih =>
    have hs' : Screens (s.event x hash now id blob) m :=
      hs.spares (event_spares x hash now id blob s)
    cases hb : m.admits x id blob with
    | true =>
      rw [List.filter_cons_of_pos hb]
      exact ih (event_matches h) hs'
    | false =>
      rw [List.filter_cons_of_neg (by simp [hb])]
      exact ih ((event_of_refused hs hb).symm.trans h) hs'

theorem sized_filter (evs : List String) (p : String → Bool) :
    (sized (evs.filter p)).Sublist (sized evs) := List.filter_sublist.filter _

theorem weight_le {xs ys : List String} (h : xs.Sublist ys) : weight xs ≤ weight ys :=
  (h.map _).sum_le_sum fun _ _ => Nat.zero_le _

end Ingest

/-- The two pages leave the same locals behind, up to bookkeeping. -/
theorem ingested_admitted {x : Crates} (amb : Ambient) {page : PollResp} {id : Crypto.Identity}
    {m : Model} (hid : m.identity x = some id) (hpage : page.WithinBudgets) :
    Ingest.Matches (ingested x amb page id m) (ingested x amb (page.admitted x m) id m) := by
  obtain ⟨c,hc⟩ := adoptCursor_eq (amb.now 0) page m
  obtain ⟨c',hc'⟩ := adoptCursor_eq (amb.now 0) (page.admitted x m) m
  have hevs : (page.admitted x m).events = page.events.filter (m.admits x id) := by
    simp [PollResp.admitted, hid]
  have hsub := Ingest.sized_filter page.events (m.admits x id)
  have hall : Ingest.Matches
      (Ingest.events x amb.hash (amb.now 1) m.cursor id page.events
        { model := adoptCursor (amb.now 0) page m })
      (Ingest.events x amb.hash (amb.now 1) m.cursor id (page.admitted x m).events
        { model := adoptCursor (amb.now 0) (page.admitted x m) m }) := by
    rw [hc, hc', hevs]
    refine (Ingest.events_matches ?_ ?_).symm.trans
      ((Ingest.foldEvents_admitted ?_ ?_).trans (Ingest.events_matches ?_ ?_))
    · simpa using hpage.1
    · exact hpage.2
    · exact ⟨c',m.error,_,_,_,rfl⟩
    · exact ⟨rfl,fun _ => rfl⟩
    · simpa using hsub.length_le.trans hpage.1
    · exact (Ingest.weight_le hsub).trans hpage.2
  exact (Ingest.queueAcks_bookless x (amb.now 2)).matches
    ((Ingest.applyAcks_bookless (amb.now 1)).matches hall)

end Skrepka.Client
