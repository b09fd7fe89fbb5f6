import Skrepka.Lib.Rehost
import Skrepka.Client.Update

/-! The timers of the apple shell, and the client that waits for them: a timer is answered once, and none is
lost. -/
namespace Skrepka.Apple
open Rust Mvu Client

abbrev TimerId := ℕ

inductive TimeRequest
  | now
  | notifyAfter (id : TimerId) (nanos : ℕ)
  | notifyAt (id : TimerId) (instant : ℕ)
  | clear (id : TimerId)

inductive TimeResponse
  | now (instant : ℕ)
  | durationElapsed (id : TimerId)
  | instantArrived (id : TimerId)
  | cleared (id : TimerId)
  deriving DecidableEq

/-- An item of the main queue, with what it resolves and how. -/
structure Work where
  serial : ℕ
  id : TimerId
  ticket : ℕ
  response : TimeResponse
  due : ℕ
  cancelled : Bool := false

/-- The live timers, the items that the main queue has not come to, and the time in nanoseconds. -/
structure Timers where
  clock : ℕ := 0
  timers : TimerId → Option ℕ := fun _ => none
  queue : List Work := []
  next : ℕ := 0

namespace Timers

def remove (id : TimerId) (s : Timers) : Timers :=
  { s with timers := fun i => if i = id then none else s.timers i }

/-- Cancel the timer of an id, if there is one. -/
def cancel (id : TimerId) (s : Timers) : Timers :=
  { s.remove id with
    queue := s.queue.map fun w => if s.timers id = some w.serial then { w with cancelled := true } else w }

def schedule (id : TimerId) (ticket due : ℕ) (response : TimeResponse) (s : Timers) : Timers :=
  let s := s.cancel id
  { s with
    timers := fun i => if i = id then some s.next else s.timers i
    queue := s.queue ++ [⟨s.next,id,ticket,response,due,false⟩]
    next := s.next+1 }

/-- The state after a request, and its response if there is one at once. -/
def handle (ticket : ℕ) (s : Timers) : TimeRequest → Timers × Option TimeResponse
  | .now => (s,some (.now s.clock))
  | .notifyAfter id nanos => (s.schedule id ticket (s.clock+nanos) (.durationElapsed id),none)
  | .notifyAt id instant => (s.schedule id ticket (max s.clock instant) (.instantArrived id),none)
  | .clear id => (s.cancel id,some (.cleared id))

/-- The main queue comes to an item that is due. It resolves a ticket unless it is cancelled. -/
def fire (serial : ℕ) (s : Timers) : Option (Timers × Option (ℕ × TimeResponse)) :=
  (s.queue.find? fun w => w.serial = serial && w.due ≤ s.clock).map fun w =>
    let s := { s with queue := s.queue.filter fun v => v.serial ≠ serial }
    if w.cancelled then (s,none) else (s.remove w.id,some (w.ticket,w.response))

@[simp] theorem cancel_next (id : TimerId) (s : Timers) : (s.cancel id).next = s.next := rfl

/-- The items that are not cancelled are the live timers. -/
structure Wf (s : Timers) : Prop where
  serials : (s.queue.map Work.serial).Nodup
  below : ∀ w ∈ s.queue, w.serial < s.next
  live : ∀ w ∈ s.queue, w.cancelled = false ↔ s.timers w.id = some w.serial
  owner : ∀ w ∈ s.queue, ∀ id, s.timers id = some w.serial → w.id = id
  known : ∀ id n, s.timers id = some n → n < s.next

def Live (s : Timers) (w : Work) : Prop := w ∈ s.queue ∧ w.cancelled = false

theorem mem_cancel {id : TimerId} {s : Timers} {w : Work} : w ∈ (s.cancel id).queue ↔
    ∃ v ∈ s.queue, w = if s.timers id = some v.serial then { v with cancelled := true } else v := by
  simp [cancel, eq_comm]

/-- Cancelling an id spares the other live timers. -/
theorem live_cancel {s : Timers} (h : s.Wf) {id : TimerId} {w : Work} :
    (s.cancel id).Live w ↔ s.Live w ∧ w.id ≠ id := by
  constructor
  · rintro ⟨hw,hlive⟩
    obtain ⟨v,hv,rfl⟩ := mem_cancel.mp hw
    by_cases hcancel : s.timers id = some v.serial
    · simp [hcancel] at hlive
    · rw [if_neg hcancel] at hlive ⊢
      refine ⟨⟨hv,hlive⟩,?_⟩
      rintro rfl
      exact hcancel ((h.live v hv).mp hlive)
  · rintro ⟨⟨hw,hlive⟩,hne⟩
    refine ⟨mem_cancel.mpr ⟨w,hw,?_⟩,hlive⟩
    rw [if_neg fun hcancel => hne (h.owner w hw id hcancel)]

theorem Wf.cancel {s : Timers} (h : s.Wf) (id : TimerId) : (s.cancel id).Wf := by
  have hserial : (s.cancel id).queue.map Work.serial = s.queue.map Work.serial := by
    simp only [Timers.cancel, List.map_map]
    refine List.map_congr_left fun w _ => ?_
    simp only [Function.comp_apply]
    split <;> rfl
  refine ⟨hserial ▸ h.serials,fun w hw => ?_,fun w hw => ?_,fun w hw id' htimer => ?_,fun id' n htimer => ?_⟩
  · obtain ⟨v,hv,rfl⟩ := mem_cancel.mp hw
    have hlt := h.below v hv
    split <;> exact hlt
  · obtain ⟨v,hv,rfl⟩ := mem_cancel.mp hw
    by_cases hcancel : s.timers id = some v.serial
    · obtain rfl := h.owner v hv id hcancel
      simp [hcancel, Timers.cancel, remove]
    · rw [if_neg hcancel, h.live v hv]
      by_cases hid : v.id = id
      · subst hid
        simp [hcancel, Timers.cancel, remove]
      · simp [Timers.cancel, remove, hid]
  · obtain ⟨v,hv,rfl⟩ := mem_cancel.mp hw
    have hne : id' ≠ id := by
      rintro rfl
      simp [Timers.cancel, remove] at htimer
    have hold : s.timers id' = some v.serial := by
      have hsame : (if s.timers id = some v.serial then { v with cancelled := true } else v).serial =
          v.serial := by split <;> rfl
      simpa [Timers.cancel, remove, hne, hsame] using htimer
    have howner := h.owner v hv id' hold
    split <;> exact howner
  · exact h.known id' n (Option.ite_none_left_eq_some.mp htimer).2

variable {s : Timers} {id : TimerId} {ticket due : ℕ} {response : TimeResponse}

theorem live_schedule (h : s.Wf) {w : Work} : (s.schedule id ticket due response).Live w ↔
    s.Live w ∧ w.id ≠ id ∨ w = ⟨s.next,id,ticket,response,due,false⟩ := by
  rw [← live_cancel h]
  simp only [Live, schedule, List.mem_append, List.mem_singleton]
  constructor
  · rintro ⟨hw | hw,hlive⟩
    · exact .inl ⟨hw,hlive⟩
    · exact .inr hw
  · rintro (⟨hw,hlive⟩ | rfl)
    · exact ⟨.inl hw,hlive⟩
    · exact ⟨.inr rfl,rfl⟩

theorem Wf.schedule (h : s.Wf) : (s.schedule id ticket due response).Wf := by
  have hc := h.cancel id
  have hnext : ∀ w ∈ (s.cancel id).queue, w.serial ≠ s.next := fun w hw => (hc.below w hw).ne
  refine ⟨?_,fun w hw => ?_,fun w hw => ?_,fun w hw id' htimer => ?_,fun id' n htimer => ?_⟩
  · simp only [Timers.schedule, List.map_append, List.map_cons, List.map_nil]
    refine List.nodup_append.mpr ⟨hc.serials,List.nodup_singleton _,fun a ha b hb => ?_⟩
    obtain ⟨w,hw,rfl⟩ := List.mem_map.mp ha
    rw [List.mem_singleton.mp hb]
    exact hnext w hw
  · obtain hw | hw := List.mem_append.mp hw
    · exact Nat.lt_succ_of_lt (hc.below w hw)
    · rw [List.mem_singleton.mp hw]
      exact Nat.lt_succ_self _
  · obtain hw | hw := List.mem_append.mp hw
    · rw [hc.live w hw]
      by_cases hid : w.id = id
      · simp [Timers.schedule, hid, Timers.cancel, remove, (hnext w hw).symm]
      · simp [Timers.schedule, hid, Timers.cancel, remove]
    · rw [List.mem_singleton.mp hw]
      simp [Timers.schedule]
  · by_cases hid : id' = id
    · subst hid
      have hserial : w.serial = s.next := by simpa [Timers.schedule, eq_comm] using htimer
      obtain hw | hw := List.mem_append.mp hw
      · exact absurd hserial (hnext w hw)
      · rw [List.mem_singleton.mp hw]
    · have hold : (s.cancel id).timers id' = some w.serial := by
        simpa [Timers.schedule, hid, Timers.cancel, remove] using htimer
      obtain hw | hw := List.mem_append.mp hw
      · exact hc.owner w hw id' hold
      · rw [List.mem_singleton.mp hw] at hold
        exact absurd (hc.known id' _ hold) (Nat.lt_irrefl _)
  · by_cases hid : id' = id
    · obtain rfl : s.next = n := by simpa [Timers.schedule, hid] using htimer
      exact Nat.lt_succ_self _
    · have hold : (s.cancel id).timers id' = some n := by
        simpa [Timers.schedule, hid, Timers.cancel, remove] using htimer
      exact Nat.lt_succ_of_lt (hc.known id' n hold)

/-- An item that was cancelled, or a live one that resolves its ticket, leaves the queue alone. -/
theorem fire_live (h : s.Wf) {serial : ℕ} {t : Timers} {r : Option (ℕ × TimeResponse)}
    (hfire : s.fire serial = some (t,r)) : t.Wf ∧ ∃ w ∈ s.queue, w.serial = serial ∧ w.due ≤ s.clock ∧
      (∀ v, t.Live v ↔ s.Live v ∧ v ≠ w) ∧
      (w.cancelled = true ∧ r = none ∨ s.Live w ∧ r = some (w.ticket,w.response)) := by
  obtain ⟨w,hfind,heq⟩ := Option.map_eq_some_iff.mp hfire
  have hw := List.mem_of_find?_eq_some hfind
  obtain ⟨hserial,hdue⟩ : w.serial = serial ∧ w.due ≤ s.clock := by simpa using List.find?_some hfind
  subst hserial
  have hother : ∀ v ∈ s.queue, v.serial ≠ w.serial ↔ v ≠ w := by
    intro v hv
    constructor
    · rintro hne rfl
      exact hne rfl
    · intro hne heq
      exact hne (List.inj_on_of_nodup_map h.serials hv hw heq)
  have hsub : (s.queue.filter fun v => v.serial ≠ w.serial) ⊆ s.queue :=
    List.filter_sublist.subset
  have hnodup : ((s.queue.filter fun v => v.serial ≠ w.serial).map Work.serial).Nodup :=
    (List.filter_sublist.map _).nodup h.serials
  have hlive : ∀ v, (v ∈ s.queue.filter fun v => v.serial ≠ w.serial) ∧ v.cancelled = false ↔
      s.Live v ∧ v ≠ w := by
    intro v
    constructor
    · rintro ⟨hv,hcancelled⟩
      obtain ⟨hv,hne⟩ := List.mem_filter.mp hv
      exact ⟨⟨hv,hcancelled⟩,(hother v hv).mp (by simpa using hne)⟩
    · rintro ⟨⟨hv,hcancelled⟩,hne⟩
      exact ⟨List.mem_filter.mpr ⟨hv,by simpa using (hother v hv).mpr hne⟩,hcancelled⟩
  cases hcancelled : w.cancelled with
  | true =>
    simp only [hcancelled, if_true] at heq
    obtain ⟨rfl,rfl⟩ := Prod.mk.inj heq
    exact ⟨⟨hnodup,fun v hv => h.below v (hsub hv),fun v hv => h.live v (hsub hv),
      fun v hv => h.owner v (hsub hv),h.known⟩,w,hw,rfl,hdue,hlive,.inl ⟨hcancelled,rfl⟩⟩
  | false =>
    simp only [hcancelled, Bool.false_eq_true, if_false] at heq
    obtain ⟨rfl,rfl⟩ := Prod.mk.inj heq
    refine ⟨⟨hnodup,fun v hv => h.below v (hsub hv),fun v hv => ?_,fun v hv id htimer => ?_,
      fun id n htimer => ?_⟩,w,hw,rfl,hdue,hlive,.inr ⟨⟨hw,hcancelled⟩,rfl⟩⟩
    · obtain ⟨hv,hne⟩ := List.mem_filter.mp hv
      rw [h.live v hv]
      by_cases hid : v.id = w.id
      · have htimer := (h.live w hw).mp hcancelled
        have hne : v.serial ≠ w.serial := of_decide_eq_true hne
        simpa [remove, hid, htimer] using hne.symm
      · simp [remove, hid]
    · exact h.owner v (hsub hv) id (Option.ite_none_left_eq_some.mp htimer).2
    · exact h.known id n (Option.ite_none_left_eq_some.mp htimer).2

end Timers

/-- The client and the clock of the shell, with the requests that the shell has taken up. -/
structure Clocked where
  core : Running
  timers : Timers := {}
  processed : List ℕ := []
  trapped : Bool := false

/-- Everything but the clock happens to the client at any time; its requests to the clock are taken up in any
order, and due items are come to in any order. -/
inductive ClockedAct
  | client (l : Label)
  | process (ticket : ℕ) (id : TimerId)
  | fire (amb : Ambient) (serial : ℕ)
  | tick (nanos : ℕ)

def isTime : Effect → Bool
  | .time _ _ => true
  | _ => false

/-- What is for the clock to answer. -/
def answersTime (c : Running) : Action Event Answer → Bool
  | .answer t _ => c.pending.any fun p => p.1 = t && isTime p.2
  | _ => false

namespace Clocked
variable (x : Crates)

def boot : Clocked := { core := Client.boot x }

def step (s : Clocked) : ClockedAct → Option Clocked
  | .client l =>
    if answersTime s.core l.2 then none else (s.core.step (app x) l).map fun core => { s with core }
  | .process ticket id =>
    match s.core.pending.lookup ticket with
    | some (.time ms _) =>
      if ticket ∈ s.processed then none
      else
        let timers := (s.timers.handle ticket (.notifyAfter id (ms*1000000))).1
        some { s with timers, processed := ticket :: s.processed }
    | _ => none
  | .fire amb serial =>
    (s.timers.fire serial).bind fun (timers,resolved) =>
      match resolved with
      | none => some { s with timers }
      | some (ticket,_) =>
        -- An effect that is resolved twice traps in the core.
        if (s.core.pending.lookup ticket).isNone then some { s with timers, trapped := true }
        else (s.core.step (app x) (amb,.answer ticket .elapsed)).map fun core => { s with core, timers }
  | .tick nanos => some { s with timers := { s.timers with clock := s.timers.clock+nanos } }

/-- A ticket waits for the clock. -/
def Waits (c : Running) (ticket : ℕ) : Prop := ∃ ms tag, (ticket,.time ms tag) ∈ c.pending

/-- Each live item is the only one for its ticket, and its ticket waits. -/
structure Sound (s : Clocked) : Prop where
  core : s.core.Wf
  timers : s.timers.Wf
  below : ∀ t ∈ s.processed, t < s.core.next
  waits : ∀ w, s.timers.Live w → w.ticket ∈ s.processed ∧ Waits s.core w.ticket
  once : ∀ w v, s.timers.Live w → s.timers.Live v → w.ticket = v.ticket → w = v
  safe : s.trapped = false

/-- Each request that was taken up has a live item until it is answered. -/
def Attended (s : Clocked) : Prop :=
  ∀ t ∈ s.processed, Waits s.core t → ∃ w, s.timers.Live w ∧ w.ticket = t

/-- No id is used again while its timer lives. -/
def Fresh (s : Clocked) : ClockedAct → Prop
  | .process _ id => s.timers.timers id = none
  | _ => True

variable {x}

theorem next_mono {c d : Running} {l : Label} (hstep : c.step (app x) l = some d) : c.next ≤ d.next := by
  obtain ⟨e,c₁,htake,rfl⟩ := Core.step_cases hstep
  rw [← htake.next_eq]
  exact Nat.le_add_right _ _

/-- What is pending after a step was pending before and is not answered, or is new. -/
theorem pending_after {c d : Running} {l : Label} (hstep : c.step (app x) l = some d) {p : ℕ × Effect}
    (hp : p ∈ d.pending) : p ∈ c.pending ∧ (∀ t r, l.2 = .answer t r → p.1 ≠ t) ∨ c.next ≤ p.1 := by
  obtain ⟨e,c₁,htake,rfl⟩ := Core.step_cases hstep
  obtain hp | hp := List.mem_append.mp hp
  · left
    generalize l.2 = action at htake
    cases htake with
    | drain | shell => exact ⟨hp,by simp⟩
    | answer =>
      obtain ⟨hp,hne⟩ := Core.mem_settle.mp hp
      exact ⟨hp,by rintro t r ⟨rfl,rfl⟩; exact hne⟩
  · right
    rw [← htake.next_eq]
    exact (mem_number hp).2.1

/-- What is not answered stays pending. -/
theorem pending_stays {c d : Running} {l : Label} (hstep : c.step (app x) l = some d) {p : ℕ × Effect}
    (hp : p ∈ c.pending) (hne : ∀ t r, l.2 = .answer t r → p.1 ≠ t) : p ∈ d.pending := by
  obtain ⟨e,c₁,htake,rfl⟩ := Core.step_cases hstep
  refine List.mem_append_left _ ?_
  generalize l.2 = action at htake hne
  cases htake with
  | drain | shell => exact hp
  | answer => exact Core.mem_settle.mpr ⟨hp,hne _ _ rfl⟩

theorem Waits.stays {c d : Running} {l : Label} {ticket : ℕ} (h : Waits c ticket)
    (hstep : c.step (app x) l = some d) (hne : ∀ t r, l.2 = .answer t r → ticket ≠ t) : Waits d ticket := by
  obtain ⟨ms,tag,hp⟩ := h
  exact ⟨ms,tag,pending_stays hstep hp hne⟩

theorem Waits.before {c d : Running} {l : Label} {ticket : ℕ} (h : Waits d ticket)
    (hstep : c.step (app x) l = some d) (hold : ticket < c.next) :
    Waits c ticket ∧ ∀ t r, l.2 = .answer t r → ticket ≠ t := by
  obtain ⟨ms,tag,hp⟩ := h
  obtain ⟨hp,hne⟩ | hnew := pending_after hstep hp
  · exact ⟨⟨ms,tag,hp⟩,hne⟩
  · exact absurd hold (Nat.not_lt.mpr hnew)

/-- What the clock does not answer leaves its tickets. -/
theorem Waits.ne_answered {c : Running} {a : Action Event Answer} {ticket : ℕ} (h : Waits c ticket)
    (ha : answersTime c a = false) : ∀ t r, a = .answer t r → ticket ≠ t := by
  rintro t r rfl rfl
  obtain ⟨ms,tag,hp⟩ := h
  have hany : answersTime c (.answer ticket r) = true := by
    simp only [answersTime, List.any_eq_true, Bool.and_eq_true, decide_eq_true_eq]
    exact ⟨_,hp,rfl,rfl⟩
  rw [hany] at ha
  cases ha

theorem Sound.step {s t : Clocked} {a : ClockedAct} (h : s.Sound) (hstep : s.step x a = some t) :
    t.Sound ∧ (s.Attended → s.Fresh a → t.Attended) := by
  cases a with
  | client l =>
    obtain ⟨hnot,hstep⟩ := Option.ite_none_left_eq_some.mp hstep
    obtain ⟨core,hcore,rfl⟩ := Option.map_eq_some_iff.mp hstep
    have hnot : answersTime s.core l.2 = false := by simpa using hnot
    constructor
    · refine ⟨Core.step_wf h.core hcore,h.timers,fun n hn => ?_,fun w hw => ?_,h.once,h.safe⟩
      · exact Nat.lt_of_lt_of_le (h.below n hn) (next_mono hcore)
      · obtain ⟨hprocessed,hwaits⟩ := h.waits w hw
        exact ⟨hprocessed,hwaits.stays hcore (hwaits.ne_answered hnot)⟩
    · intro hattended _ n hn hwaits
      exact hattended n hn (hwaits.before hcore (h.below n hn)).1
  | process ticket id =>
    simp only [Clocked.step] at hstep
    cases hlookup : s.core.pending.lookup ticket with
    | none => simp [hlookup] at hstep
    | some f =>
    cases f with
    | http | kv => simp [hlookup] at hstep
    | time ms tag =>
      simp only [hlookup] at hstep
      obtain ⟨hnew,hstep⟩ := Option.ite_none_left_eq_some.mp hstep
      obtain rfl := Option.some.inj hstep
      have hpending := Core.mem_of_lookup hlookup
      have hlive : ∀ w, ((s.timers.handle ticket (.notifyAfter id (ms*1000000))).1).Live w ↔
          s.timers.Live w ∧ w.id ≠ id ∨
          w = ⟨s.timers.next,id,ticket,.durationElapsed id,s.timers.clock+ms*1000000,false⟩ :=
        fun w => Timers.live_schedule h.timers
      constructor
      · refine ⟨h.core,h.timers.schedule,fun n hn => ?_,fun w hw => ?_,fun w v hw hv heq => ?_,h.safe⟩
        · obtain rfl | hn := List.mem_cons.mp hn
          · exact h.core.lt _ hpending
          · exact h.below n hn
        · obtain ⟨hw,-⟩ | rfl := (hlive w).mp hw
          · obtain ⟨hprocessed,hwaits⟩ := h.waits w hw
            exact ⟨List.mem_cons_of_mem _ hprocessed,hwaits⟩
          · exact ⟨List.mem_cons_self,ms,tag,hpending⟩
        · obtain ⟨hw,-⟩ | rfl := (hlive w).mp hw
          · obtain ⟨hv,-⟩ | rfl := (hlive v).mp hv
            · exact h.once w v hw hv heq
            · have heq : w.ticket = ticket := heq
              exact absurd (heq ▸ (h.waits w hw).1) hnew
          · obtain ⟨hv,-⟩ | rfl := (hlive v).mp hv
            · have heq : ticket = v.ticket := heq
              exact absurd (heq ▸ (h.waits v hv).1) hnew
            · rfl
      · intro hattended hfresh n hn hwaits
        obtain rfl | hn := List.mem_cons.mp hn
        · exact ⟨_,(hlive _).mpr (.inr rfl),rfl⟩
        · obtain ⟨w,hw,rfl⟩ := hattended n hn hwaits
          refine ⟨w,(hlive w).mpr (.inl ⟨hw,?_⟩),rfl⟩
          rintro rfl
          have htimer := (h.timers.live w hw.1).mp hw.2
          rw [show s.timers.timers w.id = none from hfresh] at htimer
          cases htimer
  | fire amb serial =>
    obtain ⟨⟨timers,resolved⟩,hfire,hstep⟩ := Option.bind_eq_some_iff.mp hstep
    obtain ⟨hwf,w,hw,-,-,hlive,⟨hcancelled,rfl⟩ | ⟨hw,rfl⟩⟩ := Timers.fire_live h.timers hfire
    · obtain rfl := Option.some.inj hstep
      have hsame : ∀ v, timers.Live v ↔ s.timers.Live v := by
        intro v
        rw [hlive v]
        refine and_iff_left_of_imp fun hv => ?_
        rintro rfl
        exact absurd (hv.2.symm.trans hcancelled) (by decide)
      constructor
      · refine ⟨h.core,hwf,h.below,fun v hv => h.waits v ((hsame v).mp hv),fun u v hu hv => ?_,h.safe⟩
        exact h.once u v ((hsame u).mp hu) ((hsame v).mp hv)
      · intro hattended _ n hn hwaits
        obtain ⟨v,hv,hticket⟩ := hattended n hn hwaits
        exact ⟨v,(hsame v).mpr hv,hticket⟩
    · obtain ⟨-,ms,tag,hpending⟩ := h.waits w hw
      simp only [Core.lookup_of_mem h.core hpending, Option.isNone_some, Bool.false_eq_true,
        if_false] at hstep
      obtain ⟨core,hcore,rfl⟩ := Option.map_eq_some_iff.mp hstep
      have hother : ∀ v, timers.Live v → v.ticket ≠ w.ticket := by
        intro v hv heq
        obtain ⟨hv,hne⟩ := (hlive v).mp hv
        exact hne (h.once v w hv hw heq)
      constructor
      · refine ⟨Core.step_wf h.core hcore,hwf,fun n hn => ?_,fun v hv => ?_,fun u v hu hv => ?_,h.safe⟩
        · exact Nat.lt_of_lt_of_le (h.below n hn) (next_mono hcore)
        · obtain ⟨hprocessed,hwaits⟩ := h.waits v ((hlive v).mp hv).1
          refine ⟨hprocessed,hwaits.stays hcore ?_⟩
          rintro t r ⟨rfl,rfl⟩
          exact hother v hv
        · exact h.once u v ((hlive u).mp hu).1 ((hlive v).mp hv).1
      · intro hattended _ n hn hwaits
        obtain ⟨hold,hne⟩ := hwaits.before hcore (h.below n hn)
        obtain ⟨v,hv,rfl⟩ := hattended n hn hold
        refine ⟨v,(hlive v).mpr ⟨hv,?_⟩,rfl⟩
        rintro rfl
        exact hne _ _ rfl rfl
  | tick nanos =>
    obtain rfl := Option.some.inj hstep
    exact ⟨⟨h.core,⟨h.timers.serials,h.timers.below,h.timers.live,h.timers.owner,h.timers.known⟩,h.below,
      h.waits,h.once,h.safe⟩,fun hattended _ => hattended⟩

theorem boot_sound : (boot x).Sound where
  core := Core.boot_wf _
  timers := ⟨List.nodup_nil,by simp [boot],by simp [boot],by simp [boot],by simp [boot]⟩
  below := by simp [boot]
  waits w hw := by simp [boot, Timers.Live] at hw
  once w v hw := by simp [boot, Timers.Live] at hw
  safe := rfl

/-- In whatever order things happen, no timer resolves a request that does not wait for it; and if no id is
used again while its timer lives, each request that was taken up has one timer until it is answered. -/
theorem timers_answer_once {acts : List ClockedAct} {s : Clocked}
    (hrun : Lts.run (step x) (boot x) acts = some s) :
    s.trapped = false ∧ (∀ w, s.timers.Live w → w.ticket ∈ s.processed ∧ Waits s.core w.ticket) ∧
    (Lts.Along (step x) Fresh (boot x) acts →
      ∀ t ∈ s.processed, Waits s.core t → ∃! w, s.timers.Live w ∧ w.ticket = t) := by
  have hsound := Lts.run_invariant (step x) (fun _ _ _ h hstep => (Sound.step h hstep).1) boot_sound hrun
  refine ⟨hsound.safe,hsound.waits,fun halong t ht hwaits => ?_⟩
  have hboth : s.Sound ∧ s.Attended :=
    Lts.run_invariant_along (step x) (I := fun s => s.Sound ∧ s.Attended) (fun s a u h hfresh hstep => by
      obtain ⟨hu,hattended⟩ := h.1.step hstep
      exact ⟨hu,hattended h.2 hfresh⟩) ⟨boot_sound,by simp [Attended, boot]⟩ halong hrun
  obtain ⟨w,hw,hticket⟩ := hboth.2 t ht hwaits
  exact ⟨w,⟨hw,hticket⟩,fun v hv => hsound.once v w hv.1 hw (hv.2.trans hticket.symm)⟩

/-- A client asks for the watchdog of its first login. -/
def sampleWatched : List ClockedAct :=
  ((sampleOnline.take 9).map fun a => .client (.sample,a)) ++ [.process 7 0]

instance (s : Clocked) (a : ClockedAct) : Decidable (s.Fresh a) := by
  cases a <;> unfold Fresh <;> infer_instance

theorem timers_answer_once_watched : ∃ s, Lts.run (step .sample) (boot .sample) sampleWatched = some s ∧
    ∃! w, s.timers.Live w ∧ w.ticket = 7 := by
  have hrun : (Lts.run (step .sample) (boot .sample) sampleWatched).any (fun s =>
      s.processed = [7] && answersTime s.core (.answer 7 .elapsed)) = true := by decide
  have halong : Lts.Along (step .sample) Fresh (boot .sample) sampleWatched := by decide
  simp only [Option.any_eq_true, Bool.and_eq_true, decide_eq_true_eq] at hrun
  obtain ⟨s,hs,hprocessed,hanswers⟩ := hrun
  simp only [answersTime, List.any_eq_true, Bool.and_eq_true, decide_eq_true_eq] at hanswers
  obtain ⟨⟨t,f⟩,hpending,rfl,htime⟩ := hanswers
  refine ⟨s,hs,(timers_answer_once hs).2.2 halong 7 (by simp [hprocessed]) ?_⟩
  cases f with
  | time ms tag => exact ⟨ms,tag,hpending⟩
  | http | kv => cases htime

end Clocked
end Skrepka.Apple
