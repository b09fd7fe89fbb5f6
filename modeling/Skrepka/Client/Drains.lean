import Skrepka.Client.Flight
import Skrepka.Client.Flushes
import Mathlib.Data.List.Forall2

/-! Failed sends empty the outbox: every one of them charges an item, and no item is charged for longer
than its budget lasts. -/
namespace Skrepka.Client
open Rust Mvu

/-- An item after some charges, which its counter counts. -/
structure ChargedFrom (j i : OutboxItem) : Prop where
  recipient : j.recipient = i.recipient
  kind : j.kind = i.kind
  counted : i.retries ≤ j.retries
  within : j.retries = i.retries ∨ j.retries < maxOutboxRetries

theorem ChargedFrom.refl (i : OutboxItem) : ChargedFrom i i := ⟨rfl,rfl,le_rfl,.inl rfl⟩

instance : Std.Refl ChargedFrom := ⟨ChargedFrom.refl⟩

instance : IsTrans OutboxItem ChargedFrom where
  trans k j i hk hj := by
    refine ⟨hk.recipient.trans hj.recipient,hk.kind.trans hj.kind,hj.counted.trans hk.counted,?_⟩
    have := hk.counted
    obtain h | h := hk.within
    · obtain h' | h' := hj.within
      · exact .inl (h.trans h')
      · exact .inr (by omega)
    · exact .inr h

theorem charged_refl (items : List OutboxItem) : List.SublistForall₂ ChargedFrom items items :=
  Std.Refl.refl items

theorem charged_trans {xs ys zs : List OutboxItem} (h₁ : List.SublistForall₂ ChargedFrom xs ys)
    (h₂ : List.SublistForall₂ ChargedFrom ys zs) : List.SublistForall₂ ChargedFrom xs zs :=
  Trans.trans h₁ h₂

/-- The same item, never charged in between. -/
structure Uncharged (j i : OutboxItem) : Prop where
  recipient : j.recipient = i.recipient
  kind : j.kind = i.kind
  retries : j.retries = i.retries

theorem Uncharged.refl (i : OutboxItem) : Uncharged i i := ⟨rfl,rfl,rfl⟩

theorem Uncharged.chargedFrom {j i : OutboxItem} (h : Uncharged j i) : ChargedFrom j i :=
  ⟨h.recipient,h.kind,h.retries.ge,.inl h.retries⟩

theorem uncharged_stamp (now : ℤ) (i : OutboxItem) : Uncharged (i.stamp now) i := by
  unfold OutboxItem.stamp
  split <;> exact ⟨rfl,rfl,rfl⟩

/-- How many failures an item lasts for. -/
def OutboxItem.lives (i : OutboxItem) : ℕ := max 1 (maxOutboxRetries-i.retries)

def lives : List OutboxItem → ℕ
  | [] => 0
  | i :: items => i.lives+lives items

theorem lives_append (xs ys : List OutboxItem) : lives (xs ++ ys) = lives xs+lives ys := by
  induction xs with
  | nil => exact (Nat.zero_add _).symm
  | cons i xs ih =>
    simp only [List.cons_append, lives, ih]
    omega

theorem lives_le (items : List OutboxItem) : lives items ≤ items.length*maxOutboxRetries := by
  induction items with
  | nil => exact Nat.zero_le _
  | cons i items ih =>
    have hi : i.lives ≤ maxOutboxRetries := by
      simp only [OutboxItem.lives, maxOutboxRetries]
      omega
    rw [lives, List.length_cons, Nat.add_mul, Nat.one_mul]
    omega

theorem eq_nil_of_lives {items : List OutboxItem} (h : lives items = 0) : items = [] := by
  cases items with
  | nil => rfl
  | cons i items =>
    have hi : 1 ≤ i.lives := le_max_left _ _
    rw [lives] at h
    omega

theorem lives_mono {xs ys : List OutboxItem} (h : List.SublistForall₂ ChargedFrom xs ys) :
    lives xs ≤ lives ys := by
  induction h with
  | nil => exact Nat.zero_le _
  | cons hi _ ih =>
    have := hi.counted
    simp only [lives, OutboxItem.lives]
    omega
  | cons_right _ ih =>
    simp only [lives]
    omega

theorem lives_uncharged {xs ys : List OutboxItem} (h : List.Forall₂ Uncharged xs ys) :
    lives xs = lives ys := by
  induction h with
  | nil => rfl
  | cons hi _ ih => rw [lives, lives, ih, OutboxItem.lives, OutboxItem.lives, hi.retries]

theorem charge_lives {now : ℤ} {i : OutboxItem} (h : i.charge.isExpired now = false) :
    i.charge.lives+1 ≤ i.lives ∧ ChargedFrom i.charge i := by
  simp only [OutboxItem.isExpired, Bool.or_eq_false_iff, decide_eq_false_iff_not] at h
  obtain ⟨hretries,-⟩ := h
  have hcharge : i.charge.retries = min (i.retries+1) 4294967295 := rfl
  rw [hcharge, maxOutboxRetries] at hretries
  refine ⟨?_,rfl,rfl,?_,.inr ?_⟩
  · simp only [OutboxItem.lives, hcharge, maxOutboxRetries]
    omega
  · omega
  · rw [hcharge, maxOutboxRetries]
    omega

/-- A failure costs every item of its batch a life. -/
theorem charged_lives (now : ℤ) (items : List OutboxItem) :
    lives ((items.map OutboxItem.charge).filter fun i => !i.isExpired now)+items.length ≤ lives items ∧
      List.SublistForall₂ ChargedFrom
        ((items.map OutboxItem.charge).filter fun i => !i.isExpired now) items := by
  induction items with
  | nil => exact ⟨le_rfl,.nil⟩
  | cons i items ih =>
    obtain ⟨hlives,hkept⟩ := ih
    rw [List.map_cons]
    cases hi : i.charge.isExpired now with
    | true =>
      have hone : 1 ≤ i.lives := le_max_left _ _
      rw [List.filter_cons_of_neg (by simp [hi])]
      refine ⟨?_,.cons_right hkept⟩
      simp only [lives, List.length_cons]
      omega
    | false =>
      obtain ⟨hlost,hcharged⟩ := charge_lives hi
      rw [List.filter_cons_of_pos (by simp [hi])]
      refine ⟨?_,.cons hcharged hkept⟩
      simp only [lives, List.length_cons]
      omega

section
variable {x : Crates} {amb : Ambient} {m : Model}

theorem batch_sublist {id : Crypto.Identity} {b : Batch} {rest : List OutboxItem}
    (h : m.batch x amb id = (b,rest)) :
    (b.taken ++ rest).Sublist m.outbox ∧ ∀ r, b.recipient = some r → 0 < b.messages.length := by
  obtain ⟨met,after,htried,hrest,hbuilt,-⟩ := batch_built h
  have hitems := tried_items x amb.rng id 0 m.outbox
  rw [htried, List.map_append] at hitems
  constructor
  · rw [← hitems, hbuilt.taken]
    rw [hrest]
    exact (List.filter_sublist.map _).append (List.Sublist.refl _)
  · intro r hr
    rw [hbuilt.messages, List.length_map]
    exact List.length_pos_iff.mpr (hbuilt.recipient r hr).1

/-- A flush charges nothing. -/
theorem flushNext_uncharged (x : Crates) (amb : Ambient) (m : Model) :
    List.SublistForall₂ Uncharged (flushNext x amb m).1.outbox m.outbox := by
  have hsame : ∀ {xs ys : List OutboxItem}, xs.Sublist ys → List.SublistForall₂ Uncharged xs ys := by
    intro xs ys h
    exact List.sublistForall₂_iff.mpr ⟨xs,List.forall₂_same.mpr fun i _ => .refl i,h⟩
  have hstamped : ∀ {xs rest ys : List OutboxItem}, (xs ++ rest).Sublist ys →
      List.SublistForall₂ Uncharged (xs.map (OutboxItem.stamp (amb.now 1)) ++ rest) ys := by
    intro xs rest ys h
    refine List.sublistForall₂_iff.mpr ⟨_,List.rel_append ?_ (List.forall₂_same.mpr fun i _ => .refl i),h⟩
    exact List.forall₂_map_left_iff.mpr (List.forall₂_same.mpr fun i _ => uncharged_stamp _ i)
  have hflushed := flushNext_flushed x amb m
  generalize flushNext x amb m = r at hflushed
  cases hflushed with
  | gated => exact hsame (List.Sublist.refl _)
  | emptied _ _ hb => exact hsame (batch_sublist hb).1
  | sent _ _ _ hb => exact hstamped (batch_sublist hb).1
  | unsent _ _ hb => exact hstamped (batch_sublist hb).1

theorem flushNext_charged (x : Crates) (amb : Ambient) (m : Model) :
    List.SublistForall₂ ChargedFrom (flushNext x amb m).1.outbox m.outbox := by
  obtain ⟨ys,hys,hsub⟩ := List.sublistForall₂_iff.mp (flushNext_uncharged x amb m)
  exact List.sublistForall₂_iff.mpr ⟨ys,hys.imp fun _ _ h => h.chargedFrom,hsub⟩

end

section
variable {x : Crates} {amb : Ambient} {m : Model}

theorem retryBatch_charged (x : Crates) (amb : Ambient) (f : InFlight) (m : Model) :
    List.SublistForall₂ ChargedFrom (retryBatch x amb (some f) m).1.outbox m.outbox ∧
      lives (retryBatch x amb (some f) m).1.outbox+(m.outbox.take f.count).length ≤ lives m.outbox := by
  obtain ⟨hlives,hcharged⟩ := charged_lives (amb.now 0) (m.outbox.take f.count)
  let kept := ((m.outbox.take f.count).map OutboxItem.charge).filter (fun i => !i.isExpired (amb.now 0)) ++
    m.outbox.drop f.count
  have hkept : List.SublistForall₂ ChargedFrom kept m.outbox := by
    obtain ⟨ys,hys,hsub⟩ := List.sublistForall₂_iff.mp hcharged
    refine List.sublistForall₂_iff.mpr ⟨ys ++ m.outbox.drop f.count,
      List.rel_append hys (List.forall₂_same.mpr fun i _ => .refl i),?_⟩
    have h := hsub.append (List.Sublist.refl (m.outbox.drop f.count))
    rwa [List.take_append_drop] at h
  have hless : lives kept+(m.outbox.take f.count).length ≤ lives m.outbox := by
    have hsplit := lives_append (m.outbox.take f.count) (m.outbox.drop f.count)
    rw [List.take_append_drop] at hsplit
    rw [lives_append, hsplit]
    omega
  have hafter : List.SublistForall₂ ChargedFrom (retryBatch x amb (some f) m).1.outbox kept := by
    simp only [retryBatch]
    split
    · simp only [Upd.and_fst, Upd.emit_fst, persistOutbox_fst, refused_outbox]
      exact charged_refl kept
    · simp only [Upd.and_fst, Upd.emit_fst, persistOutbox_fst]
      refine charged_trans (flushNext_charged ..) ?_
      rw [refused_outbox]
      exact charged_refl kept
  exact ⟨charged_trans hafter hkept,(Nat.add_le_add_right (lives_mono hafter) _).trans hless⟩

/-- The event is the transient failure of the send that is under way. -/
def Model.failed (m : Model) : Event → Bool
  | .sendResult gen res => gen = m.flushGen && m.inFlight.any fun f => res.fails f.count
  | _ => false

theorem sendResult_failed {res : HttpResult} {f : InFlight} (hf : m.inFlight = some f)
    (hres : res.fails f.count = true) :
    sendResult x amb m.flushGen res m =
      retryBatch x amb (some f) { m with flushing := false, inFlight := none } := by
  have hanswered := sendResult_answered x amb m.flushGen res m
  generalize sendResult x amb m.flushGen res m = r at hanswered
  cases hanswered with
  | stale h => exact absurd rfl h
  | unauthorized h => simp [HttpResult.fails, h] at hres
  | limited h => simp [HttpResult.fails, h] at hres
  | split h413 hg hcount =>
    obtain rfl := Option.some.inj (hf.symm.trans hg)
    simp [HttpResult.fails, h413, hcount] at hres
  | settled hsettles =>
    cases res with
    | err => cases hsettles
    | ok resp => simp_all [HttpResult.fails, HttpResult.settles]
  | failed =>
    rw [hf]
    rfl

/-- No result charges an item past its budget. -/
theorem sendResult_charged (x : Crates) (amb : Ambient) (gen : UInt64) (res : HttpResult) (m : Model) :
    List.SublistForall₂ ChargedFrom (sendResult x amb gen res m).1.outbox m.outbox := by
  have hanswered := sendResult_answered x amb gen res m
  generalize sendResult x amb gen res m = r at hanswered
  have hself : List.SublistForall₂ ChargedFrom m.outbox m.outbox := charged_refl _
  cases hanswered with
  | stale => exact hself
  | unauthorized => exact hself
  | limited => exact hself
  | split => exact flushNext_charged ..
  | settled =>
    simp only [sendDone, Upd.and_fst, persistOutbox_fst]
    refine charged_trans (flushNext_charged ..) ?_
    rw [refused_outbox]
    split
    · exact hself
    · exact List.sublistForall₂_iff.mpr ⟨_,List.forall₂_same.mpr fun i _ => .refl i,List.drop_sublist _ _⟩
  | failed =>
    cases m.inFlight with
    | none => exact hself
    | some f => exact (retryBatch_charged x amb f _).1

/-- The events that may put items into the outbox. -/
def Event.mayQueue : Event → Bool
  | .loadedOutbox _ => true
  | e => e.queuesItems

/-- The event puts no item into the outbox. -/
def Quiet (x : Crates) (m : Model) (l : Ambient × Event) : Prop :=
  l.2.mayQueue = true → List.Forall₂ Uncharged (update x l.1 l.2 m).1.outbox m.outbox

/-- What is under way carries at least one item, and all that it carries is at the front of the outbox. -/
def Model.Sends (m : Model) : Prop := ∀ f, m.inFlight = some f → Fits m f ∧ 0 < f.count

theorem update_charged {e : Event} (hq : Quiet x m (amb,e)) :
    List.SublistForall₂ ChargedFrom (update x amb e m).1.outbox m.outbox := by
  by_cases hqueue : e.mayQueue = true
  · exact List.sublistForall₂_iff.mpr ⟨m.outbox,(hq hqueue).imp fun _ _ h => h.chargedFrom,List.Sublist.refl _⟩
  have hfilter : ∀ peer, List.SublistForall₂ ChargedFrom
      (m.outbox.filter fun i => i.recipient ≠ peer) m.outbox := fun peer =>
    List.sublistForall₂_iff.mpr ⟨_,List.forall₂_same.mpr fun i _ => .refl i,List.filter_sublist⟩
  by_cases hw : Field.outbox ∈ e.writes
  · cases e with
    | setBlocked peer blocked =>
      simp only [update, setBlocked]
      split
      · simp only [Upd.and_fst, Upd.emit_fst, persistContacts_fst, persistOutbox_fst,
          Model.refused_refused, refused_outbox, removeItems_outbox]
        exact hfilter peer
      · simp only [Upd.and_fst, Upd.emit_fst, persistContacts_fst, refused_outbox]
        exact charged_refl _
    | deleteContact peer =>
      obtain ⟨_,_,_,_,h⟩ := forgetPeer_eq m peer
      simp only [update, deleteContact_fst, refused_outbox, h]
      exact hfilter peer
    | startFlush => exact flushNext_charged ..
    | flushWatchdog gen =>
      simp only [update, flushWatchdog]
      split
      · exact charged_refl _
      · exact flushNext_charged ..
    | sendResult gen res => exact sendResult_charged x amb gen res m
    | _ => simp_all [Event.writes, Event.mayQueue, Event.queuesItems]
  · rw [show (update x amb e m).1.outbox = m.outbox from update_agrees x amb e m .outbox hw]
    exact charged_refl _

theorem flushNext_count (x : Crates) (amb : Ambient) (m : Model) {f : InFlight}
    (h : (flushNext x amb m).1.inFlight = some f) : m.inFlight = some f ∨ 0 < f.count := by
  have hflushed := flushNext_flushed x amb m
  generalize flushNext x amb m = r at hflushed h
  cases hflushed with
  | gated => exact .inl h
  | emptied => exact .inl h
  | sent _ _ _ hb hr =>
    obtain rfl := Option.some.inj h
    exact .inr ((batch_sublist hb).2 _ hr)
  | unsent => simp at h

theorem update_count (x : Crates) (amb : Ambient) (e : Event) (m : Model) {f : InFlight}
    (h : (update x amb e m).1.inFlight = some f) : m.inFlight = some f ∨ 0 < f.count := by
  have hheld : ∀ m' : Model, m'.inFlight = none ∨ Holds m m' → m'.inFlight = some f →
      m.inFlight = some f ∨ 0 < f.count := by
    intro m' hm' h
    obtain hnone | hholds := hm'
    · simp [hnone] at h
    · exact .inl (hholds.inFlight ▸ h)
  have hflush : ∀ (amb : Ambient) (m' : Model), m'.inFlight = none ∨ m'.inFlight = m.inFlight →
      (flushNext x amb m').1.inFlight = some f → m.inFlight = some f ∨ 0 < f.count := by
    intro amb m' hm' h
    obtain h | h := flushNext_count x amb m' h
    · obtain hnone | hsame := hm'
      · simp [hnone] at h
      · exact .inl (hsame ▸ h)
    · exact .inr h
  by_cases hw : Field.inFlight ∈ e.writes
  · cases e with
    | setBlocked peer blocked => exact hheld _ (setBlocked_holds peer blocked m) h
    | deleteContact peer =>
      simp only [update, deleteContact_fst, refused_inFlight] at h
      exact hheld _ (forgetPeer_holds m peer) h
    | setServerUrl url =>
      obtain ⟨-,_,hsame⟩ | ⟨_,-,_,hswitched⟩ := setServerUrl_fst x url m
      · simp only [update, hsame] at h
        exact .inl h
      · simp only [update, hswitched] at h
        exact absurd h.symm (Option.some_ne_none f)
    | startFlush => exact hflush amb m (.inr rfl) h
    | flushWatchdog gen =>
      simp only [update, flushWatchdog] at h
      split at h
      · exact .inl h
      · exact hflush amb _ (.inl rfl) h
    | sendResult gen res =>
      have hanswered := sendResult_answered x amb gen res m
      simp only [update] at h
      generalize sendResult x amb gen res m = r at hanswered h
      cases hanswered with
      | stale => exact .inl h
      | unauthorized => cases h
      | limited => cases h
      | split => exact hflush amb _ (.inl rfl) h
      | settled =>
        simp only [sendDone, Upd.and_fst, persistOutbox_fst] at h
        refine hflush amb _ (.inl ?_) h
        rw [refused_inFlight]
        split <;> rfl
      | failed =>
        cases hbatch : m.inFlight with
        | none => simp [retryBatch, hbatch, Model.answered] at h
        | some b =>
          simp only [retryBatch, hbatch] at h
          split at h
          · simp [Model.answered] at h
          · rw [← hbatch]
            exact hflush _ _ (.inl (by simp [Model.answered])) h
    | _ => simp [Event.writes] at hw
  · rw [show (update x amb e m).1.inFlight = m.inFlight from update_agrees x amb e m .inFlight hw] at h
    exact .inl h

theorem Model.Sends.update {e : Event} (h : m.Sends) (hq : Quiet x m (amb,e)) :
    (Client.update x amb e m).1.Sends := by
  intro f hf
  have hcount : 0 < f.count := by
    obtain hold | hnew := update_count x amb e m hf
    · exact (h f hold).2
    · exact hnew
  refine ⟨?_,hcount⟩
  by_cases he : ∃ res, e = .loadedOutbox res
  · obtain ⟨res,rfl⟩ := he
    have hsame := hq rfl
    have hflight : (Client.update x amb (.loadedOutbox res) m).1.inFlight = m.inFlight :=
      update_agrees x amb (.loadedOutbox res) m .inFlight (by simp [Event.writes])
    have hflushing : (Client.update x amb (.loadedOutbox res) m).1.flushing = m.flushing :=
      update_agrees x amb (.loadedOutbox res) m .flushing (by simp [Event.writes])
    obtain ⟨hfits,-⟩ := h f (hflight ▸ hf)
    refine ⟨hflushing.trans hfits.flushing,hsame.length_eq ▸ hfits.count,?_⟩
    have hrecipients : (Client.update x amb (.loadedOutbox res) m).1.outbox.map OutboxItem.recipient =
        m.outbox.map OutboxItem.recipient := by
      rw [← List.forall₂_eq_eq_eq, List.forall₂_map_left_iff, List.forall₂_map_right_iff]
      exact hsame.imp fun _ _ h => h.recipient
    intro i hi
    have hmem := List.mem_map_of_mem (f := OutboxItem.recipient) hi
    rw [List.map_take, hrecipients, ← List.map_take] at hmem
    obtain ⟨j,hj,heq⟩ := List.mem_map.mp hmem
    exact heq ▸ hfits.recipient j hj
  · have hidle : m.flushing = false → m.inFlight = none := idle_of_fits fun f hf => (h f hf).1
    obtain hlaunch | ⟨hholds,-⟩ := update_flight (x := x) amb (e := e) (m := m)
      (fun res hr => he ⟨res,hr⟩) hidle
    · obtain hnone | ⟨g,_,_,hg,hfits,-⟩ := hlaunch
      · simp [hnone] at hf
      · obtain rfl := Option.some.inj (hg.symm.trans hf)
        exact hfits
    · have hold := hholds.inFlight ▸ hf
      exact hholds.fits hold (h f hold).1

/-- Every transient failure costs a life. -/
theorem update_lives {e : Event} (h : m.Sends) (hq : Quiet x m (amb,e)) :
    lives (update x amb e m).1.outbox+(if m.failed e then 1 else 0) ≤ lives m.outbox := by
  cases hfailed : m.failed e with
  | false => exact lives_mono (update_charged hq)
  | true =>
    cases e with
    | sendResult gen res =>
      simp only [Model.failed, Bool.and_eq_true, decide_eq_true_eq, Option.any_eq_true] at hfailed
      obtain ⟨rfl,f,hf,hres⟩ := hfailed
      obtain ⟨hfits,hcount⟩ := h f hf
      have hlost := (retryBatch_charged x amb f { m with flushing := false, inFlight := none }).2
      rw [← sendResult_failed hf hres] at hlost
      have hlen : (m.outbox.take f.count).length = f.count := by simpa using hfits.count
      change lives (sendResult x amb m.flushGen res m).1.outbox+(m.outbox.take f.count).length ≤
        lives m.outbox at hlost
      simp only [update, if_true]
      omega
    | _ => cases hfailed

end

/-- One event after another, as the shell brings them. -/
def Model.hears (x : Crates) (m : Model) (l : Ambient × Event) : Option Model :=
  some (update x l.1 (l.2.received x) m).1

/-- What happens puts no item into the outbox. -/
def Barren (x : Crates) (m : Model) (l : Ambient × Event) : Prop := Quiet x m (l.1,l.2.received x)

/-- Count the transient failures. -/
def noteFailure (m : Model) (l : Ambient × Event) (_ : Model) (k : ℕ) : ℕ :=
  if m.failed l.2 then k+1 else k

/-- What failed on the wire has failed for the update. -/
theorem Crates.Screens.fails {x : Crates} (hx : x.Screens) {res : HttpResult} {count : ℕ}
    (h : res.fails count = true) : (x.deliver res).fails count = true := by
  cases res with
  | err => rfl
  | ok resp =>
    cases herror : resp.isError with
    | true => exact congrArg (HttpResult.fails count) (hx.refused resp herror)
    | false => exact (congrArg (HttpResult.fails count) (hx.passed resp herror)).trans h

theorem Crates.Screens.failed {x : Crates} (hx : x.Screens) {m : Model} {e : Event}
    (h : m.failed e = true) : m.failed (e.received x) = true := by
  cases e with
  | sendResult gen res =>
    simp only [Model.failed, Bool.and_eq_true, decide_eq_true_eq, Option.any_eq_true] at h
    obtain ⟨rfl,f,hf,hres⟩ := h
    simpa [Event.received, Model.failed, hf] using hx.fails hres
  | _ => cases h

/-- The answer to a send says nothing about its items: it is for an earlier send, or about the token, the
rate, or a size that can be made smaller. -/
def Model.excuses (m : Model) (gen : UInt64) (res : HttpResult) : Prop :=
  gen ≠ m.flushGen ∨ ∃ resp, res = .ok resp ∧ (resp.status = 401 ∨ resp.status = 429 ∨
    resp.status = 413 ∧ ∃ f, m.inFlight = some f ∧ 1 < f.count)

/-- An answer to a send that says nothing about its items leaves them all, and charges none. -/
def Pardons (x : Crates) (m : Model) (l : Ambient × Event) : Prop :=
  ∀ gen res, l.2 = .sendResult gen res → m.excuses gen res →
    List.Forall₂ Uncharged (update x l.1 (l.2.received x) m).1.outbox m.outbox

/-- Such an answer finds no batch of its own in flight. -/
def Unaccused (m : Model) (l : Ambient × Event) : Prop :=
  ∀ gen res, l.2 = .sendResult gen res → m.excuses gen res → gen ≠ m.flushGen ∨ m.inFlight = none

/-- A refusal of the relay reaches the update as an error. -/
theorem Crates.Screens.excused {x : Crates} (hx : x.Screens) {m : Model} {res : HttpResult}
    (h : m.excuses m.flushGen res) : x.deliver res = .err := by
  obtain ⟨resp,rfl,hstatus⟩ := h.resolve_left (not_not.mpr rfl)
  refine hx.refused resp ?_
  obtain h401 | h429 | ⟨h413,-⟩ := hstatus <;> simp [Response.isError, *]

theorem pardons_iff {x : Crates} (hx : x.Screens) {m : Model} (hm : m.Sends) (l : Ambient × Event) :
    Pardons x m l ↔ Unaccused m l := by
  obtain ⟨amb,e⟩ := l
  constructor
  · rintro h gen res rfl hres
    by_cases hgen : gen = m.flushGen
    · subst hgen
      refine .inr (Option.eq_none_iff_forall_ne_some.mpr fun f hf => ?_)
      have hkept := h m.flushGen res rfl hres
      -- Every item of the batch is charged as for a failure, so the outbox has fewer lives left.
      have hlost := (retryBatch_charged x amb f { m with flushing := false, inFlight := none }).2
      rw [← sendResult_failed hf (show HttpResult.err.fails f.count = true from rfl),
        ← hx.excused hres] at hlost
      have hsame := lives_uncharged hkept
      have hlen : (m.outbox.take f.count).length = f.count := by simpa using (hm f hf).1.count
      have hcount := (hm f hf).2
      change lives (update x amb (.sendResult m.flushGen (x.deliver res)) m).1.outbox+
        (m.outbox.take f.count).length ≤ lives m.outbox at hlost
      simp only [Event.received] at hsame
      omega
    · exact .inl hgen
  · rintro h gen res rfl hres
    have hsame : (sendResult x amb gen (x.deliver res) m).1.outbox = m.outbox := by
      obtain hstale | hidle := h gen res rfl hres
      · simp [sendResult, hstale]
      · by_cases hgen : gen = m.flushGen
        · subst hgen
          simp [hx.excused hres, sendResult, hidle, retryBatch]
        · simp [sendResult, hgen]
    change List.Forall₂ Uncharged (sendResult x amb gen (x.deliver res) m).1.outbox m.outbox
    rw [hsame]
    exact List.forall₂_same.mpr fun i _ => .refl i

/-- A flush that may run leaves nothing, or puts a batch on the wire. -/
theorem flushNext_advances {x : Crates} (hserializes : ∀ body, x.serializes body = true) {amb : Ambient}
    {m : Model} (h : m.mayFlush x amb = true) :
    (flushNext x amb m).1.outbox = [] ∨ ∃ f, (flushNext x amb m).1.inFlight = some f := by
  obtain ⟨id,b,met,rest,-,-,-,-,-,hout,⟨hnil,rfl,-⟩ | ⟨hne,-,hcount⟩⟩ := flushNext_built hserializes h
  · exact .inl (by rw [hout, hnil, List.map_nil, List.map_nil, List.append_nil])
  · right
    cases hlive : (flushNext x amb m).1.inFlight with
    | some f => exact ⟨f,rfl⟩
    | none =>
      rw [Model.inFlightCount, hlive] at hcount
      exact absurd (List.length_eq_zero_iff.mp hcount.symm) hne

/-- Whatever happens to an outbox, but for new items: by the time as many sends have failed as all of its
items have retries, it is empty, and no more can fail. Until then an item is charged fewer times than it
has retries, so that the charge that drops it is the last it can get, and as long as items are left, every
flush that may run sends some. Answers that say nothing about the items leave them uncharged as long as no
such answer finds its batch in flight, since `crux_http` makes the errors of them that failures are. -/
theorem outbox_drains {x : Crates} (hx : x.Screens) {m t : Model} {ls : List (Ambient × Event)} {k : ℕ}
    (hm : m.Sends)
    (hls : Lts.Along (Model.hears x) (Barren x) m ls)
    (hrun : Lts.run (Lts.watch (Model.hears x) noteFailure) (m,0) ls = some (t,k)) :
    k ≤ m.outbox.length*maxOutboxRetries ∧ (k = m.outbox.length*maxOutboxRetries → t.outbox = []) ∧
    List.SublistForall₂ ChargedFrom t.outbox m.outbox ∧
    ((∀ body, x.serializes body = true) → ∀ amb, t.mayFlush x amb = true →
      (update x amb .startFlush t).1.outbox = [] ∨ ∃ f, (update x amb .startFlush t).1.inFlight = some f) ∧
    (Lts.Along (Model.hears x) (Pardons x) m ls ↔ Lts.Along (Model.hears x) Unaccused m ls) := by
  have hinv : t.Sends ∧ List.SublistForall₂ ChargedFrom t.outbox m.outbox ∧
      lives t.outbox+k ≤ lives m.outbox := by
    refine Lts.run_invariant_along (Lts.watch (Model.hears x) noteFailure)
      (G := fun s l => Barren x s.1 l)
      (I := fun s => s.1.Sends ∧ List.SublistForall₂ ChargedFrom s.1.outbox m.outbox ∧
        lives s.1.outbox+s.2 ≤ lives m.outbox) ?_ ⟨hm,charged_refl _,le_rfl⟩ (Lts.Along.watch _ hls) hrun
    intro s l u hs hq hstep
    obtain ⟨hsends,hcharged,hlives⟩ := hs
    obtain ⟨hnext,hnote⟩ := Lts.watch_eq_some _ hstep
    have hmodel : u.1 = (update x l.1 (l.2.received x) s.1).1 := (Option.some.inj hnext).symm
    have hcost := @update_lives x l.1 s.1 (l.2.received x) hsends hq
    rw [hmodel]
    refine ⟨hsends.update hq,charged_trans (update_charged hq) hcharged,?_⟩
    rw [hnote]
    simp only [noteFailure]
    split
    · rename_i hfailed
      rw [if_pos (hx.failed hfailed)] at hcost
      omega
    · omega
  obtain ⟨-,hcharged,hlives⟩ := hinv
  have hbound := lives_le m.outbox
  refine ⟨by omega,fun hk => eq_nil_of_lives (by omega),hcharged,?_,?_⟩
  · intro hserializes amb hmay
    exact flushNext_advances hserializes hmay
  · refine Lts.along_congr_along _ (I := Model.Sends) (fun s l u hs hq hstep => ?_)
      (fun s l hs _ => pardons_iff hx hs l) hm hls
    obtain rfl := Option.some.inj hstep
    exact hs.update hq

theorem sample_screens : Crates.sample.Screens where
  refused _ h := if_pos h
  passed _ h := if_neg (by simp [h])

/-- A batch of two items for one contact is sent and fails. -/
theorem outbox_drains_one : ∃ t : Model,
    Lts.run (Lts.watch (Model.hears .sample) noteFailure) (sampleQueue,0)
      [(.sample,.startFlush),(.sample,.sendResult 1 (.ok ⟨503,none,[]⟩))] = some (t,1) ∧
    1 ≤ sampleQueue.outbox.length*maxOutboxRetries ∧
    List.SublistForall₂ ChargedFrom t.outbox sampleQueue.outbox := by
  have hcount : ((update .sample .sample .startFlush sampleQueue).1.failed
      (.sendResult 1 (.ok ⟨503,none,[]⟩))) = true := by
    decide +kernel
  have hrun : Lts.run (Lts.watch (Model.hears .sample) noteFailure) (sampleQueue,0)
      [(.sample,.startFlush),(.sample,.sendResult 1 (.ok ⟨503,none,[]⟩))] =
      some ((update .sample .sample (.sendResult 1 .err)
        (update .sample .sample .startFlush sampleQueue).1).1,1) := by
    simp only [Lts.run, Lts.watch, Model.hears, Event.received, Option.map_some, Option.bind_some,
      noteFailure, hcount]
    rfl
  have hquiet : Lts.Along (Model.hears .sample) (Barren .sample) sampleQueue
      [(.sample,.startFlush),(.sample,.sendResult 1 (.ok ⟨503,none,[]⟩))] := by
    refine ⟨?_,fun t _ => ⟨?_,fun _ _ => trivial⟩⟩
    · exact fun h => absurd h (by decide)
    · exact fun h => absurd h (by decide)
  have hsends : sampleQueue.Sends := fun f hf => absurd hf.symm (Option.some_ne_none f)
  obtain ⟨hbound,-,hcharged,-,-⟩ := outbox_drains sample_screens hsends hquiet hrun
  exact ⟨_,hrun,hbound,hcharged⟩

/-- A client whose send is answered next. -/
def Running.sends (ticket : ℕ) (c : Running) : Bool :=
  c.queue.isEmpty && match c.pending.lookup ticket with
    | some (.http _ (.sendResult gen)) => gen = c.model.flushGen
    | _ => false

theorem Running.sends_event {x : Crates} {c : Running} {ticket : ℕ} (h : Running.sends ticket c = true)
    (res : HttpResult) : c.event? (app x) (.answer ticket (.http res)) =
      some (.sendResult c.model.flushGen (x.deliver res)) := by
  simp only [Running.sends, Bool.and_eq_true] at h
  obtain ⟨hq,hpend⟩ := h
  split at hpend
  · rename_i req gen hlookup
    obtain rfl : gen = c.model.flushGen := by simpa using hpend
    simp [Core.event?, Core.take, hq, hlookup, app, answer, HttpTag.event]
  · simp at hpend

/-- The two items that are on the wire are charged because the token of their request is refused. -/
theorem refused_token_charges : ∃ c d,
    runFromBoot .sample (sampleLabels (sampleOnline ++ sampleText (samplePeer 7))) = some c ∧
    step .sample c (.sample,.answer 17 (.http (.ok ⟨401,none,[]⟩))) = some d ∧
    c.event? (app .sample) (.answer 17 (.http (.ok ⟨401,none,[]⟩))) =
      some (.sendResult c.model.flushGen .err) ∧
    c.model.excuses c.model.flushGen (.ok ⟨401,none,[]⟩) ∧
    c.model.outbox.map OutboxItem.retries = [0,0] ∧ d.model.outbox.map OutboxItem.retries = [1,1] := by
  have h : (runFromBoot .sample (sampleLabels (sampleOnline ++ sampleText (samplePeer 7)))).any
      (fun c => c.sends 17 && c.model.outbox.map OutboxItem.retries = [0,0] &&
        (step .sample c (.sample,.answer 17 (.http (.ok ⟨401,none,[]⟩)))).any fun d =>
          d.model.outbox.map OutboxItem.retries = [1,1]) = true := by decide +kernel
  simp only [Option.any_eq_true, Bool.and_eq_true, decide_eq_true_eq] at h
  obtain ⟨c,hrun,⟨hsends,hbefore⟩,d,hd,hafter⟩ := h
  exact ⟨c,d,hrun,hd,Running.sends_event hsends _,.inr ⟨_,rfl,.inl rfl⟩,hbefore,hafter⟩

end Skrepka.Client
