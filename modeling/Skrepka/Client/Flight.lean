import Skrepka.Client.Batches
import Skrepka.Client.Liveness

/-! The items on the wire: while a send is live, the first items of the outbox are the ones that
its request carries, whatever else happens to the outbox. -/
namespace Skrepka.Client
open Rust Mvu Queue

/-- The batch is the front of the outbox, and all of it is for one recipient. -/
structure Fits (m : Model) (f : InFlight) : Prop where
  flushing : m.flushing = true
  count : f.count ≤ m.outbox.length
  recipient : ∀ i ∈ m.outbox.take f.count, i.recipient = f.recipient

/-- An outcome with no batch in flight, or with one that was just sent. -/
def Launches (x : Crates) (r : Model × Commands) : Prop :=
  r.1.inFlight = none ∨ ∃ f req msgs, r.1.inFlight = some f ∧ Fits r.1 f ∧
    .http req (.sendResult r.1.flushGen) ∈ Cmd.requests r.2 ∧ req.body = .sendBatch msgs ∧
    Carries x msgs (r.1.outbox.take f.count)

/-- An outcome with the same batch in flight, and the same items at the front. -/
structure Holds (m : Model) (m' : Model) : Prop where
  inFlight : m'.inFlight = m.inFlight
  flushing : m'.flushing = m.flushing
  flushGen : m'.flushGen = m.flushGen
  front : ∀ f, m.inFlight = some f → Fits m f →
    m'.outbox.take f.count = m.outbox.take f.count ∧ f.count ≤ m'.outbox.length

section
variable {x : Crates}

theorem Launches.after {f g : Handler} {m : Model} (h : Launches x (g (f m).1)) :
    Launches x (f.and g m) := by
  rcases h with h | ⟨b,req,msgs,hb,hfit,hreq,h⟩
  · exact .inl h
  · refine .inr ⟨b,req,msgs,hb,hfit,?_,h⟩
    simp only [Upd.and_snd, Cmd.requests_append, List.mem_append]
    exact .inr hreq

theorem Launches.render {f : Handler} {m : Model} (h : Launches x (f m)) :
    Launches x (f.and (.emit [.render]) m) := by
  rcases h with h | ⟨b,req,msgs,hb,hfit,hreq,h⟩
  · exact .inl h
  · refine .inr ⟨b,req,msgs,hb,hfit,?_,h⟩
    simp only [Upd.and_snd, Cmd.requests_append, List.mem_append]
    exact .inl hreq

/-- The batch that a flush sends is at the front of the outbox. -/
theorem Flushed.launches {amb : Ambient} {m : Model} {r : Model × Commands}
    (h : Flushed x amb m r) (hm : m.inFlight = none) : Launches x r := by
  cases h with
  | gated => exact .inl hm
  | emptied => exact .inl hm
  | unsent => exact .inl rfl
  | @sent id token b rest recipient ws _ _ _ hb hr hw =>
    obtain ⟨hok,-⟩ := flushLoop_spec
      (b := { error := m.error }) m.outbox
      ⟨.nil,by simp⟩ 0
    rw [Model.batch] at hb
    rw [hb] at hok
    have hlen : b.messages.length = (b.taken.map (OutboxItem.stamp (amb.now 1))).length := by
      rw [List.length_map, hok.seals.length_eq]
    have hfront : (b.taken.map (OutboxItem.stamp (amb.now 1)) ++ rest).take b.messages.length =
        b.taken.map (OutboxItem.stamp (amb.now 1)) := by rw [hlen, List.take_left]
    refine .inr ⟨_,sendRequest m token b.messages,_,rfl,⟨rfl,?_,?_⟩,?_,rfl,id,?_⟩
    · simp [Model.sending, hlen]
    · intro i hi
      simp only [Model.sending, hfront, List.mem_map] at hi
      obtain ⟨j,hj,rfl⟩ := hi
      have hjr := hok.recipient j hj
      rw [hr] at hjr
      exact (kin_stamp _ j).1.trans (Option.some.inj hjr).symm
    · simp [Model.sending]
    · simp only [Model.sending, hfront, List.forall₂_map_left_iff]
      refine hok.seals.imp ?_
      rintro i env ⟨hto,rng,blob,he,hblob⟩
      have hkin := kin_stamp (amb.now 1) i
      exact ⟨hto.trans hkin.1.symm,rng,blob,(encryptFor_kin hkin).trans he,hblob⟩

theorem flushNext_launches {amb : Ambient} {m : Model} (hm : m.inFlight = none) :
    Launches x (flushNext x amb m) := (flushNext_flushed x amb m).launches hm

@[simp] theorem refused_inFlight (m : Model) : m.refused.inFlight = m.inFlight := by
  rw [m.refused_eq]

theorem retryBatch_launches {amb : Ambient} {m : Model} (batch : Option InFlight)
    (hm : m.inFlight = none) : Launches x (retryBatch x amb batch m) := by
  cases batch with
  | none => exact .inl hm
  | some batch =>
    simp only [retryBatch]
    split
    · exact .inl (by simpa using hm)
    · refine Launches.render (Launches.after (flushNext_launches ?_))
      simpa using hm

/-- The result of the live send takes its batch out of flight. -/
theorem sendResult_launches {amb : Ambient} {res : HttpResult} {m : Model} :
    Launches x (sendResult x amb m.flushGen res m) := by
  have hanswered := sendResult_answered x amb m.flushGen res m
  generalize sendResult x amb m.flushGen res m = r at hanswered
  cases hanswered with
  | stale h => exact absurd rfl h
  | unauthorized => exact .inl rfl
  | limited => exact .inl rfl
  | split => exact flushNext_launches rfl
  | settled =>
    simp only [sendDone]
    refine Launches.after (flushNext_launches ?_)
    split <;> simp [Model.answered]
  | failed => exact retryBatch_launches _ rfl

/-- A change of other fields. -/
theorem holds_of_eq {m m' : Model} (ho : m'.outbox = m.outbox) (hi : m'.inFlight = m.inFlight)
    (hf : m'.flushing = m.flushing) (hg : m'.flushGen = m.flushGen) : Holds m m' :=
  ⟨hi,hf,hg,fun _ _ hfit => by rw [ho]; exact ⟨rfl,hfit.count⟩⟩

theorem Holds.refl (m : Model) : Holds m m := holds_of_eq rfl rfl rfl rfl

theorem Holds.fits {m m' : Model} {f : InFlight} (h : Holds m m') (hf : m.inFlight = some f)
    (hfit : Fits m f) : Fits m' f := by
  obtain ⟨hfront,hlen⟩ := h.front f hf hfit
  exact ⟨h.flushing.trans hfit.flushing,hlen,hfront ▸ hfit.recipient⟩

theorem Holds.trans {m₁ m₂ m₃ : Model} (h₁ : Holds m₁ m₂) (h₂ : Holds m₂ m₃) : Holds m₁ m₃ := by
  refine ⟨h₂.inFlight.trans h₁.inFlight,h₂.flushing.trans h₁.flushing,
    h₂.flushGen.trans h₁.flushGen,fun f hf hfit => ?_⟩
  obtain ⟨hfront,hlen⟩ := h₂.front f (h₁.inFlight.trans hf) (h₁.fits hf hfit)
  exact ⟨hfront.trans (h₁.front f hf hfit).1,hlen⟩

theorem refused_holds (m : Model) : Holds m m.refused := by
  rw [m.refused_eq]
  exact holds_of_eq rfl rfl rfl rfl

theorem Grows.holds {m m' : Model} (hi : m'.inFlight = m.inFlight)
    (hf : m'.flushing = m.flushing) (hg : m'.flushGen = m.flushGen)
    (h : Grows m.outbox m'.outbox) : Holds m m' := by
  obtain ⟨new,ho,-⟩ := h
  refine ⟨hi,hf,hg,fun f _ hfit => ?_⟩
  rw [ho, List.take_append_of_le_length hfit.count]
  exact ⟨rfl,by simpa using Nat.le_add_right_of_le hfit.count⟩

/-- Dropping the items of a peer takes a batch for that peer out of flight, and leaves one for
another peer where it is. -/
theorem removeItems_holds (m : Model) (peer : String) :
    (m.removeItems peer).inFlight = none ∨ Holds m (m.removeItems peer) := by
  unfold Model.removeItems Model.detachInFlight
  split
  · exact .inl rfl
  rename_i hp
  refine .inr ⟨rfl,rfl,rfl,fun f hf hfit => ?_⟩
  have hne : f.recipient ≠ peer := by simpa [hf] using hp
  have hfront : (m.outbox.take f.count).filter (fun i => i.recipient ≠ peer) =
      m.outbox.take f.count := by
    refine List.filter_eq_self.mpr fun i hi => ?_
    simpa [hfit.recipient i hi] using hne
  have hsplit := congrArg (List.filter (fun i => i.recipient ≠ peer))
    (List.take_append_drop f.count m.outbox)
  rw [List.filter_append, hfront] at hsplit
  have hlen : (m.outbox.take f.count).length = f.count := by simpa using hfit.count
  change (m.outbox.filter (fun i => i.recipient ≠ peer)).take f.count = _ ∧
    f.count ≤ (m.outbox.filter (fun i => i.recipient ≠ peer)).length
  rw [← hsplit]
  refine ⟨?_,by simp only [List.length_append]; omega⟩
  rw [List.take_append_of_le_length (by omega), List.take_of_length_le (by omega)]

theorem setBlocked_holds (peer : String) (blocked : Bool) (m : Model) :
    (setBlocked peer blocked m).1.inFlight = none ∨ Holds m (setBlocked peer blocked m).1 := by
  have hcontacts : Holds m
      { m with contacts := blockContact peer blocked m.contacts, error := none } :=
    holds_of_eq rfl rfl rfl rfl
  simp only [setBlocked]
  split
  · simp only [Upd.and_fst, Upd.emit_fst, persistContacts_fst, persistOutbox_fst,
      Model.refused_refused, refused_inFlight]
    exact (removeItems_holds _ peer).imp id fun h => (hcontacts.trans h).trans (refused_holds _)
  · simp only [Upd.and_fst, Upd.emit_fst, persistContacts_fst]
    exact .inr (hcontacts.trans (refused_holds _))

theorem forgetPeer_holds (m : Model) (peer : String) :
    (m.forgetPeer peer).inFlight = none ∨ Holds m (m.forgetPeer peer) := by
  have hdata : Holds m { m with
      contacts := m.contacts.erase peer
      messages := m.messages.erase peer
      seenIds := m.seenIds.erase peer } := holds_of_eq rfl rfl rfl rfl
  simp only [Model.forgetPeer]
  rcases removeItems_holds { m with
    contacts := m.contacts.erase peer
    messages := m.messages.erase peer
    seenIds := m.seenIds.erase peer } peer with h | h
  · refine .inl ?_
    split <;> exact h
  · refine .inr ((hdata.trans h).trans ?_)
    split <;> exact holds_of_eq rfl rfl rfl rfl

/-- A profile broadcast rewrites nothing that is on the wire. -/
theorem saveProfile_holds (x : Crates) (amb : Ambient) (displayName bio : String)
    (photo : Option String) (m : Model) :
    Holds m (saveProfile x amb displayName bio photo m).1 := by
  simp only [saveProfile]
  repeat' split
  iterate 4 exact holds_of_eq rfl rfl rfl rfl
  simp only [Upd.and_fst, Upd.emit_fst, persistProfile_fst, persistOutbox_fst,
    Model.refused_refused]
  rw [Model.refused_eq]
  refine ⟨rfl,rfl,rfl,fun f hf hfit => ?_⟩
  have hlive : m.inFlightCount = f.count := by simp [Model.inFlightCount, hf]
  simp only [broadcastProfile, Model.inFlightCount] at hlive ⊢
  rw [hlive]
  have hlen : (m.outbox.take f.count).length = f.count := by simpa using hfit.count
  rw [List.take_append_of_le_length (by omega), List.take_of_length_le (by omega)]
  exact ⟨rfl,by simp only [List.length_append]; omega⟩

/-- Nothing is in flight unless a flush is under way. -/
theorem idle_of_fits {m : Model} (h : ∀ f, m.inFlight = some f → Fits m f) (hf : m.flushing = false) :
    m.inFlight = none := by
  cases hi : m.inFlight with
  | none => rfl
  | some f =>
    have := (h f hi).flushing
    simp [hf] at this

/-- What is in flight goes together with the other state of the send loop. -/
theorem not_writes_flight {e : Event} (hi : Field.inFlight ∉ e.writes) :
    Field.flushing ∉ e.writes ∧ Field.flushGen ∉ e.writes ∧ Field.sendBatchBudget ∉ e.writes := by
  revert hi
  cases e <;> exact of_decide_eq_true rfl

/-- An event that may not change what is in flight leaves it where it is. -/
theorem update_holds (amb : Ambient) {e : Event} {m : Model} (hi : Field.inFlight ∉ e.writes)
    (he : ∀ res, e ≠ .loadedOutbox res) : Holds m (update x amb e m).1 := by
  by_cases ho : Field.outbox ∈ e.writes
  · cases e with
    | sendText =>
      obtain ⟨_,_,_,_,_,h⟩ := sendText_fst x amb m
      refine Grows.holds ?_ ?_ ?_ (sendText_grows x amb m) <;> exact h ▸ rfl
    | saveProfile displayName bio photo => exact saveProfile_holds x amb displayName bio photo m
    | pollResult gen res =>
      obtain ⟨_,_,_,_,_,_,_,_,_,_,_,h,hg⟩ := pollResult_fst x amb gen res m
      refine Grows.holds ?_ ?_ ?_ ?_ <;> simp only [update, h]
      exact hg
    | loadedOutbox res => exact absurd rfl (he res)
    | _ => simp [Event.writes] at hi ho
  · have hag := update_agrees x amb e m
    obtain ⟨hflushing,hgen,-⟩ := not_writes_flight hi
    exact holds_of_eq (hag .outbox ho) (hag .inFlight hi) (hag .flushing hflushing) (hag .flushGen hgen)

/-- Every event but a load of the outbox leaves a batch in flight where it is, or takes it out
of flight, or puts a new one there; the result of the live send does not leave it there. -/
theorem update_flight (amb : Ambient) {e : Event} {m : Model} (he : ∀ res, e ≠ .loadedOutbox res)
    (hm : m.flushing = false → m.inFlight = none) :
    Launches x (update x amb e m) ∨
      Holds m (update x amb e m).1 ∧ ∀ res, e ≠ .sendResult m.flushGen res := by
  by_cases hi : Field.inFlight ∈ e.writes
  · cases e with
    | setBlocked peer blocked =>
      exact (setBlocked_holds peer blocked m).imp .inl fun h => ⟨h,by simp⟩
    | deleteContact peer =>
      simp only [update, Launches, deleteContact_fst, refused_inFlight]
      exact (forgetPeer_holds m peer).imp .inl fun h => ⟨h.trans (refused_holds _),by simp⟩
    | setServerUrl url =>
      rcases setServerUrl_fst x url m with ⟨-,_,h⟩ | ⟨_,-,_,h⟩
      · refine .inr ⟨?_,by simp⟩
        simp only [update, h]
        exact holds_of_eq rfl rfl rfl rfl
      · exact .inl (.inl (congrArg Model.inFlight h))
    | startFlush =>
      cases hf : m.flushing with
      | false => exact .inl (flushNext_launches (hm hf))
      | true =>
        refine .inr ⟨?_,by simp⟩
        simp only [update, flushNext, hf, if_true]
        exact .refl m
    | flushWatchdog gen =>
      simp only [update, flushWatchdog]
      split
      · exact .inr ⟨.refl m,by simp⟩
      · exact .inl (flushNext_launches rfl)
    | sendResult gen res =>
      by_cases hg : gen = m.flushGen
      · subst hg
        exact .inl sendResult_launches
      · rw [(update_stale x amb m).2.1 gen res hg]
        refine .inr ⟨.refl m,?_⟩
        rintro _ ⟨rfl⟩
        exact hg rfl
    | _ => simp [Event.writes] at hi
  · refine .inr ⟨update_holds amb hi he,?_⟩
    rintro _ rfl
    simp [Event.writes] at hi

/-- The rule for what is in flight: it is put there by a flush, and kept by whatever holds it. -/
theorem update_inFlight {amb : Ambient} {e : Event} {m : Model} {Q : Model → InFlight → Prop}
    (hheld : ∀ m' f, Holds m m' → m'.sendBatchBudget = m.sendBatchBudget → m.inFlight = some f →
      Q m f → Q m' f)
    (hflush : ∀ amb' m', (∀ n, ∃ k, amb'.now n = amb.now k) → (∀ f, m'.inFlight = some f → Q m' f) →
      ∀ f, (flushNext x amb' m').1.inFlight = some f → Q (flushNext x amb' m').1 f)
    (he : ∀ res, e = .loadedOutbox res → m.inFlight = none) (hm : ∀ f, m.inFlight = some f → Q m f) :
    ∀ f, (update x amb e m).1.inFlight = some f → Q (update x amb e m).1 f := by
  have hnone : ∀ {m' : Model}, m'.inFlight = none → ∀ f, m'.inFlight = some f → Q m' f := by
    intro m' hm' f hf
    rw [hm'] at hf
    exact absurd hf.symm (Option.some_ne_none f)
  have hkept : ∀ {m' : Model}, m'.inFlight = none ∨ Holds m m' → m'.sendBatchBudget = m.sendBatchBudget →
      ∀ f, m'.inFlight = some f → Q m' f := by
    intro m' hm' hbudget f hf
    obtain hidle | hholds := hm'
    · exact hnone hidle f hf
    · have hold := hholds.inFlight.symm.trans hf
      exact hheld m' f hholds hbudget hold (hm f hold)
  have hagain : ∀ {m' : Model} (k : ℕ), m'.inFlight = none → ∀ f,
      (flushNext x (amb.after k) m').1.inFlight = some f → Q (flushNext x (amb.after k) m').1 f :=
    fun k hm' => hflush _ _ (fun n => ⟨k+n,rfl⟩) (hnone hm')
  have hnow : ∀ {m' : Model}, (∀ f, m'.inFlight = some f → Q m' f) → ∀ f,
      (flushNext x amb m').1.inFlight = some f → Q (flushNext x amb m').1 f :=
    fun hm' => hflush _ _ (fun n => ⟨n,rfl⟩) hm'
  by_cases hi : Field.inFlight ∈ e.writes
  · cases e with
    | setBlocked peer blocked =>
      exact hkept (setBlocked_holds peer blocked m)
        (update_agrees x amb (.setBlocked peer blocked) m .sendBatchBudget (by simp [Event.writes]))
    | deleteContact peer =>
      refine hkept ?_ (update_agrees x amb (.deleteContact peer) m .sendBatchBudget (by simp [Event.writes]))
      simp only [update, deleteContact_fst, refused_inFlight]
      exact (forgetPeer_holds m peer).imp id fun h => h.trans (refused_holds _)
    | setServerUrl url =>
      obtain ⟨-,_,h⟩ | ⟨_,-,_,h⟩ := setServerUrl_fst x url m
      · refine hkept (.inr ?_) ?_
        · simp only [update, h]
          exact holds_of_eq rfl rfl rfl rfl
        · simp only [update, h]
      · exact hnone (congrArg Model.inFlight h)
    | startFlush => exact hnow hm
    | flushWatchdog gen =>
      simp only [update, flushWatchdog]
      split
      · exact hm
      · exact hnow (hnone rfl)
    | sendResult gen res =>
      have hanswered := sendResult_answered x amb gen res m
      simp only [update]
      generalize sendResult x amb gen res m = r at hanswered
      cases hanswered with
      | stale => exact hm
      | unauthorized => exact hnone rfl
      | limited => exact hnone rfl
      | split => exact hnow (hnone rfl)
      | settled =>
        simp only [sendDone, Upd.and_fst]
        refine hnow (hnone ?_)
        rw [persistOutbox_fst, refused_inFlight]
        split <;> rfl
      | failed =>
        cases m.inFlight with
        | none => exact hnone rfl
        | some b =>
          simp only [retryBatch]
          split
          · exact hnone (by simp [Model.answered])
          · simp only [Upd.and_fst, Upd.emit_fst]
            exact hagain 1 (by simp [Model.answered])
    | _ => simp [Event.writes] at hi
  · by_cases hload : ∃ res, e = .loadedOutbox res
    · obtain ⟨res,rfl⟩ := hload
      have hsame := update_agrees x amb (.loadedOutbox res) m .inFlight (by simp [Event.writes])
      exact hnone (hsame.trans (he res rfl))
    · exact hkept (.inr (update_holds amb hi fun res hr => hload ⟨res,hr⟩))
        (update_agrees x amb e m .sendBatchBudget (not_writes_flight hi).2.2)

/-- Ticket `t` is the live send, and it carries exactly the first `n` items of the outbox. -/
def OnWire (x : Crates) (c : Running) (t n : ℕ) : Prop :=
  ∃ req msgs, (t,.http req (.sendResult c.model.flushGen)) ∈ c.pending ∧
    req.body = .sendBatch msgs ∧ Carries x msgs (c.model.outbox.take n)

/-- What is in flight is the front of the outbox, and a live request carries it. -/
def FlightOk (x : Crates) (c : Running) : Prop :=
  ∀ f, c.model.inFlight = some f → Fits c.model f ∧ ∃ t, OnWire x c t f.count

theorem FlightOk.flushing {c : Running} (h : FlightOk x c) (hf : c.model.flushing = false) :
    c.model.inFlight = none := idle_of_fits (fun f hf => (h f hf).1) hf

theorem Launches.flightOk {amb : Ambient} {c : Running} {e : Event}
    (h : Launches x (update x amb e c.model)) : FlightOk x (c.process (app x) amb e) := by
  intro f hf
  change (update x amb e c.model).1.inFlight = some f at hf
  rcases h with h | ⟨b,req,msgs,hb,hfit,hreq,hbody,hc⟩
  · simp [h] at hf
  · obtain rfl : b = f := Option.some.inj (hb.symm.trans hf)
    obtain ⟨t,ht⟩ := Core.exists_mem_process (A := app x) amb e hreq
    exact ⟨hfit,t,req,msgs,ht,hbody,hc⟩

/-- Loads of the outbox find nothing in flight. -/
def LoadsIdle (x : Crates) (c : Running) (l : Label) : Prop :=
  (c.event? (app x) l.2).any (fun e => e matches .loadedOutbox _) = true →
    c.model.inFlight = none

instance (x : Crates) (c : Running) (l : Label) : Decidable (LoadsIdle x c l) :=
  inferInstanceAs (Decidable (_ → _))

theorem FlightOk.step {c d : Running} {l : Label} (h : FlightOk x c) (hwf : c.Wf)
    (hl : LoadsIdle x c l) (hs : step x c l = some d) : FlightOk x d := by
  obtain ⟨amb,act⟩ := l
  obtain ⟨⟨e,c₁⟩,htake,rfl⟩ := Option.map_eq_some_iff.mp hs
  have ht := Core.takes_of_take htake
  simp only at ht ⊢
  have hm := ht.model_eq
  by_cases he : ∃ res, e = .loadedOutbox res
  · obtain ⟨res,rfl⟩ := he
    have hidle := hl (by simp [Core.event?, htake])
    have hag := update_agrees x amb (.loadedOutbox res) c₁.model .inFlight (by simp [Event.writes])
    exact Launches.flightOk (.inl (hag.trans (hm ▸ hidle)))
  · have hflight := update_flight (x := x) amb (e := e) (m := c₁.model)
      (fun res hr => he ⟨res,hr⟩) (hm ▸ h.flushing)
    rcases hflight with hlaunch | ⟨hholds,hne⟩
    · exact hlaunch.flightOk
    · intro f hf
      change (update x amb e c₁.model).1.inFlight = some f at hf
      have hf₁ := hholds.inFlight.symm.trans hf
      have hf₀ : c.model.inFlight = some f := hm ▸ hf₁
      obtain ⟨hfit,t,req,msgs,hp,hbody,hc⟩ := h f hf₀
      rw [← hm] at hfit hp hc
      refine ⟨hholds.fits hf₁ hfit,t,req,msgs,?_,hbody,?_⟩
      · have hgen : (c₁.process (app x) amb e).model.flushGen = c₁.model.flushGen :=
          hholds.flushGen
        rw [hgen]
        refine Core.mem_process_of_mem amb e (ht.mem_of_ne hwf hp fun r hr => ?_)
        cases r <;> simp only [app, answer, Option.some.injEq, reduceCtorEq] at hr
        exact hne _ hr.symm
      · have hfront : (c₁.process (app x) amb e).model.outbox.take f.count =
            c₁.model.outbox.take f.count := (hholds.front f hf₁ hfit).1
        rwa [hfront]

/-- Why an item leaves the outbox in a step: a relay that took or refused for good the live
request that carried it, its retries used up by a failure of the request that carried it, a key or
payload that cannot be encrypted, or a recipient who was blocked or deleted. -/
inductive LeftBy (x : Crates) (c : Running) (l : Label) : ℕ → OutboxItem → Prop
  | settled {k i t n res} (hl : l.2 = .answer t (.http res)) (hr : (x.deliver res).settles = true)
      (hw : OnWire x c t n) (hk : k < n) : LeftBy x c l k i
  | expired {k i t n res} (hl : l.2 = .answer t (.http res)) (hr : (x.deliver res).fails n = true)
      (hw : OnWire x c t n) (hk : k < n) (hi : i.charge.isExpired (l.1.now 0) = true) :
      LeftBy x c l k i
  | unsendable {k i} (h : Unsendable x i) : LeftBy x c l k i
  | removed {k i e} (he : c.event? (app x) l.2 = some e)
      (h : e = .setBlocked i.recipient true ∨ e = .deleteContact i.recipient) : LeftBy x c l k i

/-- A result of the current generation answers the request that carries what is in flight. -/
theorem FlightOk.answered {c d : Running} {act : Action Event Answer} {res : HttpResult}
    {f : InFlight} (h : FlightOk x c) (hq : Wakes c) (hlive : OneLive sendRound c)
    (hf : c.model.inFlight = some f)
    (ht : Core.Takes (app x) c act (.sendResult c.model.flushGen res) d) :
    ∃ t raw, act = .answer t (.http raw) ∧ x.deliver raw = res ∧ OnWire x c t f.count := by
  obtain ⟨-,t,req,msgs,hp,hbody,hc⟩ := h f hf
  generalize hev : Event.sendResult c.model.flushGen res = e at ht
  cases ht with
  | drain hq' =>
    subst hev
    have := hq (.sendResult c.model.flushGen res) (by simp [hq'])
    simp [Event.isWake] at this
  | shell _ hs => subst hev; simp [app, fromShell] at hs
  | @answer u r g _ _ hg he =>
    subst hev
    rcases g with ⟨req',tag⟩ | ⟨_,tag⟩ | ⟨_,tag⟩ <;> cases r <;>
      simp only [app, answer, Option.some.injEq, reduceCtorEq] at he <;> cases tag <;>
      simp only [HttpTag.event, KvTag.event, TimeTag.event, Event.sendResult.injEq,
        reduceCtorEq] at he
    obtain ⟨rfl,rfl⟩ := he
    obtain rfl : u = t := hlive.1 u t ⟨_,hg,rfl⟩ ⟨_,hp,rfl⟩
    exact ⟨u,_,rfl,rfl,req,msgs,hp,hbody,hc⟩

theorem flightOk_boot (x : Crates) : FlightOk x (boot x) := fun f hf => by
  simp [boot, Core.boot, app] at hf

theorem flightOk_run {ls : List Label} {c : Running} (hrun : runFromBoot x ls = some c)
    (hload : Lts.Along (step x) (LoadsIdle x) (boot x) ls) : FlightOk x c := by
  refine (Lts.run_invariant_along (step x) (I := fun c : Running => FlightOk x c ∧ c.Wf) ?_
    ⟨flightOk_boot x,Core.boot_wf _⟩ hload hrun).1
  exact fun c l d ⟨h,hwf⟩ hl hs => ⟨h.step hwf hl hs,Core.step_wf hwf hs⟩

/-- The outbox loses and duplicates nothing it should not, in every run too short for a
generation to wrap in which the load of the outbox finds nothing in flight: what is in flight is
the front of the outbox, and each step keeps the items in order, adds fresh ones at most, and
loses one only for one of the four reasons. -/
theorem outbox_loses_nothing {ls : List Label} {c : Running} (hrun : runFromBoot x ls = some c)
    (hlen : 2*ls.length < UInt64.size) (hload : Lts.Along (step x) (LoadsIdle x) (boot x) ls) :
    FlightOk x c ∧ ∀ l d e, step x c l = some d → c.event? (app x) l.2 = some e →
      (∀ res, e ≠ .loadedOutbox res) →
      Evolves (KeptBy e) (AddedBy e) (LeftBy x c l) 0 c.model.outbox d.model.outbox := by
  have hok := flightOk_run hrun hload
  have hq := wakes_run hrun
  have htr := ((sendRound_ok x).run_inv hlen hrun).tracks
  refine ⟨hok,fun l d e hs hev he => ?_⟩
  obtain ⟨c₁,ht,rfl⟩ := Core.step_event hs hev
  rw [process_model ht]
  refine (update_evolves (m := c.model) he).mono (fun _ _ h => h) (fun _ h => h) ?_
  rintro k i hlost
  cases hlost with
  | settled he hr hf hk =>
    subst he
    obtain ⟨t,_,hl,rfl,hw⟩ := hok.answered hq ⟨htr.single,htr.live.mp⟩ hf ht
    exact .settled hl hr hw hk
  | expired he hr hf hk hi =>
    subst he
    obtain ⟨t,_,hl,rfl,hw⟩ := hok.answered hq ⟨htr.single,htr.live.mp⟩ hf ht
    exact .expired hl hr hw hk hi
  | unsendable h => exact .unsendable h
  | removed h => exact .removed hev h

end

/-- Writing to a peer, and the flush that follows. -/
def sampleText (peer : String) : List (Action Event Answer) :=
  [.shell (.openChat peer),.shell (.composeChanged "hi"),.shell .sendText,.drain]

/-- Online, with a text and a profile for a new contact on the wire. -/
theorem outbox_loses_nothing_sending :
    ∃ c, runFromBoot .sample (sampleLabels (sampleOnline ++ sampleText (samplePeer 7))) = some c ∧
      c.model.inFlight.isSome = true ∧
      FlightOk .sample c ∧ ∀ l d e, step .sample c l = some d →
      c.event? (app .sample) l.2 = some e → (∀ res, e ≠ .loadedOutbox res) →
      Evolves (KeptBy e) (AddedBy e) (LeftBy .sample c l) 0 c.model.outbox d.model.outbox := by
  have h : (runFromBoot .sample (sampleLabels (sampleOnline ++ sampleText (samplePeer 7)))).any
      (fun c => c.model.inFlight.isSome) = true := by decide +kernel
  obtain ⟨c,hrun,hf⟩ := (Option.any_eq_true _ _).mp h
  exact ⟨c,hrun,hf,outbox_loses_nothing hrun (by decide) (by decide)⟩

/-- A model whose flush sends the very batch again that is in flight. -/
structure Resends (x : Crates) (amb : Ambient) (m : Model) (id : Crypto.Identity)
    (token recipient : String) (b : Batch) (rest : List OutboxItem) : Prop where
  flushing : m.flushing = true
  kvLoadFailed : m.kvLoadFailed = false
  unpaused : m.flushPausedUntil ≤ amb.now 0
  identity : m.identity x = some id
  token : m.token = some token
  batch : m.batch x amb id = (b,rest)
  bound : b.recipient = some recipient
  clean : b.dirty = false
  stamped : ∀ i ∈ b.taken, i.firstAttempt ≠ 0
  serializes : x.serializes (.sendBatch b.messages) = true
  outbox : m.outbox = b.taken ++ rest
  error : m.error = b.error
  inFlight : m.inFlight = some ⟨recipient,b.messages.length,b.bytes⟩

theorem stamp_stamped {now : ℤ} {items : List OutboxItem}
    (h : ∀ i ∈ items, i.firstAttempt ≠ 0) : items.map (OutboxItem.stamp now) = items := by
  have hid : items.map (OutboxItem.stamp now) = items.map id :=
    List.map_congr_left fun i hi => by simp [OutboxItem.stamp, h i hi]
  rw [hid, List.map_id]

theorem flushNext_eq {x : Crates} {amb : Ambient} {m : Model} {id : Crypto.Identity}
    {token : String} (hf : m.flushing = false) (hk : m.kvLoadFailed = false)
    (hp : ¬ amb.now 0 < m.flushPausedUntil) (hid : m.identity x = some id)
    (ht : m.token = some token) : flushNext x amb m = flushBatch x amb id token m := by
  simp [flushNext, hf, hk, hp, hid, ht]

/-- Giving up such a send moves the generation on by two, and nothing else. -/
theorem Resends.flushWatchdog {x : Crates} {amb : Ambient} {m : Model} {id : Crypto.Identity}
    {token recipient : String} {b : Batch} {rest : List OutboxItem}
    (h : Resends x amb m id token recipient b rest) (gen : UInt64) :
    flushWatchdog x amb gen { m with flushGen := gen } =
      ({ m with flushGen := gen+2 },
        [.request (.http (sendRequest m token b.messages) (.sendResult (gen+2))),
          .request (.time flushWatchdogMs (.flushWatchdog (gen+2)))]) := by
  have hgen : gen+1+1 = gen+2 := by rw [UInt64.add_assoc]; rfl
  have hnow : ¬ amb.now 0 < m.flushPausedUntil := Int.not_lt.mpr h.unpaused
  have hb := h.batch
  have hany : b.taken.any (fun i => i.firstAttempt = 0) = false := by
    simpa [List.any_eq_false] using h.stamped
  unfold Model.batch at hb
  have hgiveup : Client.flushWatchdog x amb gen { m with flushGen := gen } =
      flushNext x amb { m with flushing := false, inFlight := none, flushGen := gen+1 } := by
    simp [Client.flushWatchdog, h.flushing, Model.abandonFlush]
  have hflush := hgiveup.trans (flushNext_eq rfl h.kvLoadFailed hnow h.identity h.token)
  rw [hflush]
  simp only [flushBatch, hb, h.bound, h.clean, hany, stamp_stamped h.stamped, Bool.or_self,
    Bool.false_eq_true, if_false, sendBatch, Upd.done_apply, sendRequest, h.serializes, if_true,
    Model.nextFlushGen, hgen, List.nil_append]
  rw [← h.outbox, ← h.error, ← h.inFlight, ← h.flushing]

/-- The client with an old request still out, while its watchdogs give up one send after
another. -/
structure Retrying (m : Model) (t : ℕ) (req : HttpRequest) (old gen : UInt64) (c : Running) :
    Prop where
  wf : c.Wf
  queue : c.queue = []
  model : c.model = { m with flushGen := gen }
  late : (t,.http req (.sendResult old)) ∈ c.pending
  watchdog : ∃ u ms, (u,.time ms (.flushWatchdog gen)) ∈ c.pending

theorem Retrying.step {x : Crates} {amb : Ambient} {m : Model} {id : Crypto.Identity}
    {token recipient : String} {b : Batch} {rest : List OutboxItem} {t : ℕ} {req : HttpRequest}
    {old gen : UInt64} {c : Running} (h : Resends x amb m id token recipient b rest)
    (hc : Retrying m t req old gen c) :
    ∃ l d, step x c l = some d ∧ Retrying m t req old (gen+2) d := by
  obtain ⟨u,ms,hu⟩ := hc.watchdog
  have hs := Core.step_answer (app x) amb (r := .elapsed) hc.wf hc.queue hu rfl
  refine ⟨_,_,hs,?_⟩
  have hup : update x amb (.flushWatchdog gen) (c.settle u).model = _ :=
    (congrArg (flushWatchdog x amb gen) hc.model).trans (h.flushWatchdog gen)
  have hproc := Core.process_of_update (A := app x) (a := amb) (e := .flushWatchdog gen)
    (c := c.settle u) hup
  refine ⟨Core.step_wf hc.wf hs,?_,?_,?_,?_⟩
  · change ((c.settle u).process (app x) amb (.flushWatchdog gen)).queue = []
    rw [hproc]
    simpa [Core.settle] using hc.queue
  · change ((c.settle u).process (app x) amb (.flushWatchdog gen)).model = _
    rw [hproc]
  · refine Core.mem_process_of_mem (A := app x) amb _ (Core.mem_settle.mpr ⟨hc.late,?_⟩)
    rintro rfl
    cases Core.pending_unique hc.wf hc.late hu
  · obtain ⟨v,hv⟩ := Core.exists_mem_process (A := app x) (c := c.settle u) amb
      (.flushWatchdog gen) (f := .time flushWatchdogMs (.flushWatchdog (gen+2)))
      (by change _ ∈ Cmd.requests (update x amb (.flushWatchdog gen) (c.settle u).model).2
          rw [hup]
          simp)
    exact ⟨v,_,hv⟩

theorem Retrying.run {x : Crates} {amb : Ambient} {m : Model} {id : Crypto.Identity}
    {token recipient : String} {b : Batch} {rest : List OutboxItem} {t : ℕ} {req : HttpRequest}
    {old gen : UInt64} {c : Running} (h : Resends x amb m id token recipient b rest)
    (hc : Retrying m t req old gen c) (n : ℕ) :
    ∃ ls d, Lts.run (Client.step x) c ls = some d ∧
      Retrying m t req old (gen+UInt64.ofNat (2*n)) d := by
  have hrep := Lts.exists_run_of_repeat (Client.step x) (k := 1)
    (P := fun n c => Retrying m t req old (gen+UInt64.ofNat (2*n)) c) (fun n c hn => ?_)
    (by simpa using hc) n
  · obtain ⟨ls,d,-,hr,hd⟩ := hrep
    exact ⟨ls,d,hr,hd⟩
  · obtain ⟨l,d,hs,hd⟩ := hn.step h
    refine ⟨[l],d,rfl,by simp [Lts.run, hs],?_⟩
    have hgen : gen+UInt64.ofNat (2*n)+2 = gen+UInt64.ofNat (2*(n+1)) := by
      rw [Nat.mul_succ, UInt64.ofNat_add, ← UInt64.add_assoc]
      rfl
    rwa [hgen] at hd

/-- A text to one contact is sent; the contact is deleted, a text to another is queued, and the
watchdog gives up the first send. -/
def sampleAbandoned : List (Action Event Answer) :=
  sampleOnline ++ sampleText (samplePeer 7) ++ [.shell (.deleteContact (samplePeer 7))] ++
    sampleText (samplePeer 8) ++ [.answer 18 .elapsed]

/-- `Resends`, evaluated. -/
def resends (x : Crates) (amb : Ambient) (m : Model) : Bool :=
  m.flushing && !m.kvLoadFailed && m.flushPausedUntil ≤ amb.now 0 &&
  (m.identity x).any fun id => m.token.any fun _ =>
    let (b,rest) := m.batch x amb id
    b.recipient.any fun recipient =>
      !b.dirty && b.taken.all (fun i => i.firstAttempt ≠ 0) &&
      x.serializes (.sendBatch b.messages) && m.outbox = b.taken ++ rest && m.error = b.error &&
      m.inFlight = some ⟨recipient,b.messages.length,b.bytes⟩

theorem exists_resends {x : Crates} {amb : Ambient} {m : Model} (h : resends x amb m = true) :
    ∃ id token recipient b rest, Resends x amb m id token recipient b rest := by
  simp only [resends, Bool.and_eq_true, Option.any_eq_true, decide_eq_true_eq, Bool.not_eq_true',
    List.all_eq_true] at h
  obtain ⟨⟨⟨hf,hk⟩,hp⟩,id,hid,token,ht,recipient,hr,⟨⟨⟨⟨hclean,hst⟩,hs⟩,ho⟩,he⟩,hi⟩ := h
  exact ⟨id,token,recipient,_,_,hf,hk,hp,hid,ht,rfl,hr,hclean,hst,hs,ho,he,hi⟩

/-- A launch whose user is faster than its store: the client connects, and a text is on the wire
when the loads land. -/
def sampleRace : List (Action Event Answer) :=
  [.shell (.identityLoaded sampleSecret),.shell .connect,.drain,.answer 6 (sampleOk challengeText),
    .answer 8 (sampleOk tokenText),.drain,.drain] ++ sampleText (samplePeer 7) ++
    (List.range 6).map (fun t =>
      .answer t (.kv (.ok (if t = 4 then some (.outbox []) else none)))) ++ [.drain]

/-- A send of the first generation that carries none of the outbox. -/
def isLate (outbox : List OutboxItem) : Effect → Bool
  | .http ⟨_,_,.sendBatch msgs⟩ (.sendResult gen) =>
    gen = 1 && outbox.all fun i => msgs.all fun env => env.toKey ≠ i.recipient
  | _ => false

theorem exists_of_isLate {outbox : List OutboxItem} {f : Effect} (h : isLate outbox f = true) :
    ∃ req msgs, f = .http req (.sendResult 1) ∧ req.body = .sendBatch msgs ∧
      ∀ i ∈ outbox, ∀ env ∈ msgs, env.toKey ≠ i.recipient := by
  unfold isLate at h
  split at h
  · simp only [Bool.and_eq_true, decide_eq_true_eq, List.all_eq_true] at h
    obtain ⟨rfl,h⟩ := h
    exact ⟨_,_,rfl,rfl,h⟩
  · simp at h

def isFlushWatchdog (gen : UInt64) : Effect → Bool
  | .time _ (.flushWatchdog g) => g = gen
  | _ => false

theorem exists_of_isFlushWatchdog {gen : UInt64} {f : Effect} (h : isFlushWatchdog gen f = true) :
    ∃ ms, f = .time ms (.flushWatchdog gen) := by
  unfold isFlushWatchdog at h
  split at h
  · rw [of_decide_eq_true h]
    exact ⟨_,rfl⟩
  · simp at h

/-- Two ways in which the outbox and the wire come apart. The load of the outbox lands while a
send is live, so that more items are in flight than there are; and a generation wraps, so that the
late answer to one contact's batch takes another contact's items off the outbox. -/
theorem outbox_and_wire_come_apart :
    (∃ ls c f, runFromBoot .sample ls = some c ∧ c.model.loadsPending = 0 ∧
      c.model.inFlight = some f ∧ c.model.outbox.length < f.count) ∧
    ∃ ls c t req msgs d, runFromBoot .sample ls = some c ∧ c.model.loadsPending = 0 ∧
      (t,.http req (.sendResult c.model.flushGen)) ∈ c.pending ∧ req.body = .sendBatch msgs ∧
      (∀ i ∈ c.model.outbox, ∀ env ∈ msgs, env.toKey ≠ i.recipient) ∧
      step .sample c (.sample,.answer t (.http (.ok ⟨200,none,[]⟩))) = some d ∧
      c.model.outbox ≠ [] ∧ d.model.outbox = [] := by
  constructor
  · have h : (runFromBoot .sample (sampleLabels sampleRace)).any (fun c =>
        c.model.loadsPending = 0 &&
        c.model.inFlight.any fun f => c.model.outbox.length < f.count) = true := by
      decide +kernel
    simp only [Option.any_eq_true, Bool.and_eq_true, decide_eq_true_eq] at h
    obtain ⟨c,hrun,hl,f,hf,hlt⟩ := h
    exact ⟨_,c,f,hrun,hl,hf,hlt⟩
  · have h : (runFromBoot .sample (sampleLabels sampleAbandoned)).any (fun c =>
        c.queue.isEmpty && c.model.loadsPending = 0 && c.model.flushGen = 3 &&
        c.model.outbox ≠ [] && resends .sample .sample c.model &&
        c.pending.any (fun p => isLate c.model.outbox p.2) &&
        c.pending.any (fun p => isFlushWatchdog 3 p.2) &&
        (update .sample .sample (.sendResult 1 (.ok ⟨200,none,[]⟩))
          { c.model with flushGen := 1 }).1.outbox = []) = true := by decide +kernel
    simp only [Option.any_eq_true, Bool.and_eq_true, decide_eq_true_eq, List.isEmpty_iff,
      List.any_eq_true] at h
    obtain ⟨c,hrun,⟨⟨⟨⟨⟨⟨hq,hl⟩,hg⟩,hne⟩,hre⟩,⟨t,f⟩,hf,hlate⟩,⟨u,w⟩,hw,hwatch⟩,hout⟩ := h
    obtain ⟨id,token,recipient,b,rest,hre⟩ := exists_resends hre
    obtain ⟨req,msgs,rfl,hbody,hto⟩ := exists_of_isLate hlate
    obtain ⟨ms,rfl⟩ := exists_of_isFlushWatchdog hwatch
    have hwatchdog : ∃ u ms, (u,.time ms (.flushWatchdog 3)) ∈ c.pending := ⟨u,ms,hw⟩
    have hstart : Retrying c.model t req 1 3 c :=
      ⟨(awakeInv_run hrun).wf,hq,by rw [← hg],hf,hwatchdog⟩
    obtain ⟨ls,d,hrun',hd⟩ := hstart.run hre 9223372036854775807
    have hgen : (3 : UInt64)+UInt64.ofNat (2*9223372036854775807) = 1 := by decide
    rw [hgen] at hd
    have hs := Core.step_answer (app .sample) Ambient.sample (r := .http (.ok ⟨200,none,[]⟩))
      hd.wf hd.queue hd.late rfl
    have hall := Lts.run_append_eq_some _ hrun hrun'
    refine ⟨_,d,t,req,msgs,_,hall,?_,?_,hbody,?_,hs,?_,?_⟩
    · rw [hd.model]
      exact hl
    · rw [hd.model]
      exact hd.late
    · rw [hd.model]
      exact hto
    · rw [hd.model]
      exact hne
    · change (update .sample .sample (.sendResult 1 (.ok ⟨200,none,[]⟩)) d.model).1.outbox = []
      rw [hd.model]
      exact hout

end Skrepka.Client
