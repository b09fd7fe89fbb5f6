import Mathlib.Data.List.Nodup
import Skrepka.Lib.Lts

/-! Model-view-update cores. An update turns an event into a new model and a list of
commands: events for the core's own queue, and effects for a shell that may answer them
later, in any order, or never. -/
namespace Mvu

/-- What one update asks of its runtime. -/
inductive Cmd (ε φ : Type*)
  | event (e : ε)
  | request (f : φ)
  | render

namespace Cmd
variable {ε φ : Type*}

/-- The events a command list queues, in order. -/
def events (cs : List (Cmd ε φ)) : List ε :=
  cs.filterMap fun c => match c with | event e => some e | _ => none

/-- The effects a command list hands to the shell, in order. -/
def requests (cs : List (Cmd ε φ)) : List φ :=
  cs.filterMap fun c => match c with | request f => some f | _ => none

@[simp] theorem events_nil : events ([] : List (Cmd ε φ)) = [] := rfl
@[simp] theorem events_cons_event (e : ε) (cs : List (Cmd ε φ)) :
    events (event e :: cs) = e :: events cs := rfl
@[simp] theorem events_cons_request (f : φ) (cs : List (Cmd ε φ)) :
    events (request f :: cs) = events cs := rfl
@[simp] theorem events_cons_render (cs : List (Cmd ε φ)) :
    events (render :: cs) = events cs := rfl
@[simp] theorem events_append (cs ds : List (Cmd ε φ)) :
    events (cs ++ ds) = events cs ++ events ds := List.filterMap_append

@[simp] theorem requests_nil : requests ([] : List (Cmd ε φ)) = [] := rfl
@[simp] theorem requests_cons_event (e : ε) (cs : List (Cmd ε φ)) :
    requests (event e :: cs) = requests cs := rfl
@[simp] theorem requests_cons_request (f : φ) (cs : List (Cmd ε φ)) :
    requests (request f :: cs) = f :: requests cs := rfl
@[simp] theorem requests_cons_render (cs : List (Cmd ε φ)) :
    requests (render :: cs) = requests cs := rfl
@[simp] theorem requests_append (cs ds : List (Cmd ε φ)) :
    requests (cs ++ ds) = requests cs ++ requests ds := List.filterMap_append

end Cmd

/-- A part of an update: it changes the model and asks for some commands. -/
abbrev Upd (μ ε φ : Type*) := μ → μ × List (Cmd ε φ)

namespace Upd
variable {μ ε φ : Type*}

/-- First `f`, then `g`, with the commands of both in that order. -/
def and (f g : Upd μ ε φ) : Upd μ ε φ :=
  fun m => ((g (f m).1).1,(f m).2 ++ (g (f m).1).2)

/-- Only commands. -/
def emit (cs : List (Cmd ε φ)) : Upd μ ε φ := fun m => (m,cs)

def done : Upd μ ε φ := emit []

/-- All of a list, in order. -/
def all (fs : List (Upd μ ε φ)) : Upd μ ε φ := fs.foldr and done

/-- `f` if the flag is set. -/
def when (b : Bool) (f : Upd μ ε φ) : Upd μ ε φ := if b then f else done

@[simp] theorem and_fst (f g : Upd μ ε φ) (m : μ) : (f.and g m).1 = (g (f m).1).1 := rfl
@[simp] theorem and_snd (f g : Upd μ ε φ) (m : μ) :
    (f.and g m).2 = (f m).2 ++ (g (f m).1).2 := rfl
@[simp] theorem emit_fst (cs : List (Cmd ε φ)) (m : μ) : (emit cs m).1 = m := rfl
@[simp] theorem emit_snd (cs : List (Cmd ε φ)) (m : μ) : (emit cs m).2 = cs := rfl
@[simp] theorem done_apply (m : μ) : (done m : μ × List (Cmd ε φ)) = (m,[]) := rfl

end Upd

/-- An application: `α` is what an update reads from its surroundings (clock, randomness),
`ρ` the answers a shell can give to an effect. -/
structure App (μ ε φ α ρ : Type*) where
  init : μ
  update : α → ε → μ → μ × List (Cmd ε φ)
  /-- The event that an answer to an effect delivers, if it is an answer to that effect. -/
  answer : φ → ρ → Option ε
  /-- The events that the shell may send by itself. -/
  shell : ε → Bool

/-- A running application. Every effect handed out carries a ticket until it is answered. -/
structure Core (μ ε φ : Type*) where
  model : μ
  queue : List ε
  pending : List (ℕ × φ)
  next : ℕ

/-- What can happen next: the head of the queue, an event of the shell, or an answer. -/
inductive Action (ε ρ : Type*)
  | drain
  | shell (e : ε)
  | answer (ticket : ℕ) (r : ρ)

/-- Give consecutive tickets to a list of effects. -/
def number {φ : Type*} : ℕ → List φ → List (ℕ × φ)
  | _, [] => []
  | n, f :: fs => (n,f) :: number (n+1) fs

variable {μ ε φ α ρ : Type*}

theorem mem_number {n t : ℕ} {f : φ} {fs : List φ} (h : (t,f) ∈ number n fs) :
    f ∈ fs ∧ n ≤ t ∧ t < n+fs.length := by
  induction fs generalizing n with
  | nil => simp [number] at h
  | cons g gs ih =>
    simp only [number, List.mem_cons, Prod.mk.injEq] at h
    rcases h with ⟨rfl,rfl⟩ | h
    · simp
    · obtain ⟨hf,hl,hu⟩ := ih h
      refine ⟨List.mem_cons_of_mem _ hf,by omega,?_⟩
      simp only [List.length_cons]
      omega

theorem exists_mem_number (n : ℕ) {f : φ} {fs : List φ} (h : f ∈ fs) :
    ∃ t, (t,f) ∈ number n fs := by
  induction fs generalizing n with
  | nil => simp at h
  | cons g gs ih =>
    rcases List.mem_cons.mp h with rfl | h
    · exact ⟨n,List.mem_cons_self⟩
    · obtain ⟨t,ht⟩ := ih (n+1) h
      exact ⟨t,List.mem_cons_of_mem _ ht⟩

theorem number_nodup (n : ℕ) (fs : List φ) : ((number n fs).map Prod.fst).Nodup := by
  induction fs generalizing n with
  | nil => exact List.nodup_nil
  | cons f fs ih =>
    simp only [number, List.map_cons, List.nodup_cons]
    refine ⟨fun h => ?_,ih (n+1)⟩
    obtain ⟨⟨t,g⟩,hg,rfl⟩ := List.mem_map.mp h
    have := (mem_number hg).2.1
    simp only at this
    omega

@[simp] theorem number_map_snd (n : ℕ) (fs : List φ) : (number n fs).map Prod.snd = fs := by
  induction fs generalizing n with
  | nil => rfl
  | cons f fs ih => simp [number, ih]

namespace Core

/-- Run one update and hand its commands to the queue and to the shell. -/
def process (A : App μ ε φ α ρ) (a : α) (e : ε) (c : Core μ ε φ) : Core μ ε φ :=
  let r := A.update a e c.model
  { model := r.1
    queue := c.queue ++ Cmd.events r.2
    pending := c.pending ++ number c.next (Cmd.requests r.2)
    next := c.next + (Cmd.requests r.2).length }

/-- Take an effect off the pending list. -/
def settle (c : Core μ ε φ) (t : ℕ) : Core μ ε φ :=
  { c with pending := c.pending.filter (fun p => p.1 ≠ t) }

/-- The event an action delivers, and the core it is taken from. The queue is drained
before anything from outside is looked at. -/
def take (A : App μ ε φ α ρ) (c : Core μ ε φ) : Action ε ρ → Option (ε × Core μ ε φ)
  | .drain => match c.queue with
    | [] => none
    | e :: q => some (e,{ c with queue := q })
  | .shell e => if c.queue.isEmpty && A.shell e then some (e,c) else none
  | .answer t r => if c.queue.isEmpty then
      match c.pending.lookup t with
      | none => none
      | some f => (A.answer f r).map fun e => (e,c.settle t)
    else none

/-- The event that an action delivers. -/
def event? (A : App μ ε φ α ρ) (c : Core μ ε φ) (a : Action ε ρ) : Option ε :=
  (c.take A a).map Prod.fst

/-- One step: an action together with what its update reads. -/
def step (A : App μ ε φ α ρ) (c : Core μ ε φ) (l : α × Action ε ρ) : Option (Core μ ε φ) :=
  (c.take A l.2).map fun p => p.2.process A l.1 p.1

/-- The freshly started core. -/
def boot (A : App μ ε φ α ρ) : Core μ ε φ := ⟨A.init,[],[],0⟩

/-- The three ways an event reaches an update. -/
inductive Takes (A : App μ ε φ α ρ) (c : Core μ ε φ) : Action ε ρ → ε → Core μ ε φ → Prop
  | drain {e q} (hq : c.queue = e :: q) : Takes A c .drain e { c with queue := q }
  | shell {e} (hq : c.queue = []) (hs : A.shell e = true) : Takes A c (.shell e) e c
  | answer {t r f e} (hq : c.queue = []) (hf : (t,f) ∈ c.pending)
      (he : A.answer f r = some e) : Takes A c (.answer t r) e (c.settle t)

theorem mem_of_lookup {t : ℕ} {f : φ} {ps : List (ℕ × φ)} (h : ps.lookup t = some f) :
    (t,f) ∈ ps := by
  induction ps with
  | nil => simp at h
  | cons p ps ih =>
    rw [List.lookup_cons] at h
    split at h
    · rename_i ht
      cases h
      have : t=p.1 := by simpa using ht
      simp [this]
    · exact List.mem_cons_of_mem _ (ih h)

theorem takes_of_take {A : App μ ε φ α ρ} {c d : Core μ ε φ} {a : Action ε ρ} {e : ε}
    (h : c.take A a = some (e,d)) : Takes A c a e d := by
  cases a with
  | drain =>
    cases hq : c.queue with
    | nil => simp [take, hq] at h
    | cons e' q =>
      simp only [take, hq, Option.some.injEq, Prod.mk.injEq] at h
      obtain ⟨rfl,rfl⟩ := h
      exact .drain hq
  | shell e' =>
    simp only [take, Bool.and_eq_true, List.isEmpty_iff, Option.ite_none_right_eq_some,
      Option.some.injEq, Prod.mk.injEq] at h
    obtain ⟨⟨hq,hs⟩,rfl,rfl⟩ := h
    exact .shell hq hs
  | answer t r =>
    simp only [take, List.isEmpty_iff, Option.ite_none_right_eq_some] at h
    obtain ⟨hq,h⟩ := h
    cases hl : c.pending.lookup t with
    | none => simp [hl] at h
    | some f =>
      simp only [hl, Option.map_eq_some_iff, Prod.mk.injEq] at h
      obtain ⟨e',he,rfl,rfl⟩ := h
      exact .answer hq (mem_of_lookup hl) he

/-- A step is one update on an event taken in one of the three ways. -/
theorem step_cases {A : App μ ε φ α ρ} {c d : Core μ ε φ} {l : α × Action ε ρ}
    (h : c.step A l = some d) :
    ∃ e c₁, Takes A c l.2 e c₁ ∧ d = c₁.process A l.1 e := by
  obtain ⟨⟨e,c₁⟩,ht,rfl⟩ := Option.map_eq_some_iff.mp h
  exact ⟨e,c₁,takes_of_take ht,rfl⟩

/-- A step processes the event that its action delivers. -/
theorem step_event {A : App μ ε φ α ρ} {c d : Core μ ε φ} {l : α × Action ε ρ} {e : ε}
    (h : c.step A l = some d) (he : c.event? A l.2 = some e) :
    ∃ c₁, Takes A c l.2 e c₁ ∧ d = c₁.process A l.1 e := by
  obtain ⟨⟨e',c₁⟩,ht,rfl⟩ := Option.map_eq_some_iff.mp h
  obtain rfl : e' = e := by simpa [event?, ht] using he
  exact ⟨c₁,takes_of_take ht,rfl⟩

theorem Takes.model_eq {A : App μ ε φ α ρ} {c d : Core μ ε φ} {a : Action ε ρ} {e : ε}
    (h : Takes A c a e d) : d.model = c.model := by cases h <;> rfl

/-- Every event taken along a run meets a condition on its surroundings and the model it meets. -/
def Meets (A : App μ ε φ α ρ) (G : α → ε → μ → Prop) (c : Core μ ε φ)
    (ls : List (α × Action ε ρ)) : Prop :=
  Lts.Along (step A) (fun c l => ∀ e ∈ c.event? A l.2, G l.1 e c.model) c ls

instance (A : App μ ε φ α ρ) (G : α → ε → μ → Prop) [∀ a e m, Decidable (G a e m)]
    (c : Core μ ε φ) (ls : List (α × Action ε ρ)) : Decidable (Meets A G c ls) :=
  inferInstanceAs (Decidable (Lts.Along _ _ _ _))

theorem Meets.mono {A : App μ ε φ α ρ} {G H : α → ε → μ → Prop}
    (hGH : ∀ a e m, G a e m → H a e m) {c : Core μ ε φ} {ls : List (α × Action ε ρ)}
    (h : Meets A G c ls) : Meets A H c ls :=
  Lts.Along.mono (step A) (fun _ _ hg e he => hGH _ _ _ (hg e he)) h

theorem Meets.after {A : App μ ε φ α ρ} {G : α → ε → μ → Prop} {c d : Core μ ε φ}
    {ls ms : List (α × Action ε ρ)} (h : Meets A G c (ls ++ ms))
    (hr : Lts.run (step A) c ls = some d) : Meets A G d ms := (Lts.along_append (step A) h hr).2

/-- What updates preserve under a condition holds of the model after every run that meets it. -/
theorem model_invariant {A : App μ ε φ α ρ} {G : α → ε → μ → Prop} {I : μ → Prop}
    (hstep : ∀ a e m, I m → G a e m → I (A.update a e m).1) {c d : Core μ ε φ}
    {ls : List (α × Action ε ρ)} (h₀ : I c.model) (hg : Meets A G c ls)
    (h : Lts.run (step A) c ls = some d) : I d.model := by
  refine Lts.run_invariant_along (step A) (I := fun c => I c.model) (fun c l d hc hl hs => ?_)
    h₀ hg h
  obtain ⟨⟨e,c₁⟩,ht,rfl⟩ := Option.map_eq_some_iff.mp hs
  have hm : c₁.model = c.model := (takes_of_take ht).model_eq
  exact hstep l.1 e c₁.model (hm ▸ hc) (hm ▸ hl e (by simp [event?, ht]))

theorem Takes.next_eq {A : App μ ε φ α ρ} {c d : Core μ ε φ} {a : Action ε ρ} {e : ε}
    (h : Takes A c a e d) : d.next = c.next := by cases h <;> rfl

theorem Takes.mem_pending {A : App μ ε φ α ρ} {c d : Core μ ε φ} {a : Action ε ρ} {e : ε}
    (h : Takes A c a e d) {p : ℕ × φ} (hp : p ∈ d.pending) : p ∈ c.pending := by
  cases h with
  | drain | shell => exact hp
  | answer => exact (List.mem_filter.mp hp).1

theorem Takes.mem_queue {A : App μ ε φ α ρ} {c d : Core μ ε φ} {a : Action ε ρ} {e e' : ε}
    (h : Takes A c a e d) (he : e' ∈ d.queue) : e' ∈ c.queue := by
  cases h with
  | drain hq => exact hq ▸ List.mem_cons_of_mem _ he
  | shell | answer => exact he

theorem mem_settle {c : Core μ ε φ} {t : ℕ} {p : ℕ × φ} :
    p ∈ (c.settle t).pending ↔ p ∈ c.pending ∧ p.1 ≠ t := by
  simp [settle]

/-- Tickets are unique and below the next one. -/
structure Wf (c : Core μ ε φ) : Prop where
  nodup : (c.pending.map Prod.fst).Nodup
  lt : ∀ p ∈ c.pending, p.1 < c.next

theorem pending_unique {c : Core μ ε φ} (hc : c.Wf) {t : ℕ} {f g : φ}
    (hf : (t,f) ∈ c.pending) (hg : (t,g) ∈ c.pending) : f = g :=
  congrArg Prod.snd (List.inj_on_of_nodup_map hc.nodup hf hg rfl)

theorem boot_wf (A : App μ ε φ α ρ) : (boot A).Wf := ⟨List.nodup_nil,by simp [boot]⟩

theorem Takes.wf {A : App μ ε φ α ρ} {c d : Core μ ε φ} {a : Action ε ρ} {e : ε}
    (h : Takes A c a e d) (hc : c.Wf) : d.Wf := by
  cases h with
  | drain | shell => exact ⟨hc.nodup,hc.lt⟩
  | answer =>
    exact ⟨hc.nodup.sublist (List.filter_sublist.map _),
      fun p hp => hc.lt p (mem_settle.mp hp).1⟩

theorem process_wf {A : App μ ε φ α ρ} {c : Core μ ε φ} (a : α) (e : ε) (hc : c.Wf) :
    (c.process A a e).Wf := by
  constructor
  · simp only [process, List.map_append]
    refine List.nodup_append.mpr ⟨hc.nodup,number_nodup _ _,fun x hx y hy => ?_⟩
    obtain ⟨p,hp,rfl⟩ := List.mem_map.mp hx
    obtain ⟨⟨t,f⟩,hq,rfl⟩ := List.mem_map.mp hy
    have h₁ := hc.lt p hp
    have h₂ := (mem_number hq).2.1
    simp only
    omega
  · intro p hp
    simp only [process, List.mem_append] at hp ⊢
    rcases hp with hp | hp
    · exact Nat.lt_of_lt_of_le (hc.lt p hp) (Nat.le_add_right _ _)
    · exact (mem_number hp).2.2

theorem step_wf {A : App μ ε φ α ρ} {c d : Core μ ε φ} {l : α × Action ε ρ}
    (hc : c.Wf) (h : c.step A l = some d) : d.Wf := by
  obtain ⟨e,c₁,ht,rfl⟩ := step_cases h
  exact process_wf _ _ (ht.wf hc)

theorem mem_process_pending {A : App μ ε φ α ρ} {c : Core μ ε φ} {a : α} {e : ε} {t : ℕ}
    {f : φ} (h : (t,f) ∈ (c.process A a e).pending) :
    (t,f) ∈ c.pending ∨ f ∈ Cmd.requests (A.update a e c.model).2 ∧ c.next ≤ t := by
  rcases List.mem_append.mp h with h | h
  · exact .inl h
  · exact .inr ⟨(mem_number h).1,(mem_number h).2.1⟩

theorem mem_process_of_mem {A : App μ ε φ α ρ} {c : Core μ ε φ} (a : α) (e : ε)
    {p : ℕ × φ} (h : p ∈ c.pending) : p ∈ (c.process A a e).pending :=
  List.mem_append_left _ h

theorem exists_mem_process {A : App μ ε φ α ρ} {c : Core μ ε φ} (a : α) (e : ε) {f : φ}
    (h : f ∈ Cmd.requests (A.update a e c.model).2) :
    ∃ t, (t,f) ∈ (c.process A a e).pending := by
  obtain ⟨t,ht⟩ := exists_mem_number c.next h
  exact ⟨t,List.mem_append_right _ ht⟩

theorem mem_process_queue {A : App μ ε φ α ρ} {c : Core μ ε φ} {a : α} {e e' : ε} :
    e' ∈ (c.process A a e).queue ↔
      e' ∈ c.queue ∨ e' ∈ Cmd.events (A.update a e c.model).2 := List.mem_append

/-- An effect that the event is not an answer to is still pending when the event is taken. -/
theorem Takes.mem_of_ne {A : App μ ε φ α ρ} {c d : Core μ ε φ} {act : Action ε ρ} {e : ε}
    (h : Takes A c act e d) (hc : c.Wf) {t : ℕ} {f : φ} (hf : (t,f) ∈ c.pending)
    (hne : ∀ r, A.answer f r ≠ some e) : (t,f) ∈ d.pending := by
  cases h with
  | drain | shell => exact hf
  | @answer u r g _ _ hg he =>
    refine mem_settle.mpr ⟨hf,?_⟩
    rintro rfl
    exact hne r (pending_unique hc hg hf ▸ he)

theorem process_of_update {A : App μ ε φ α ρ} {c : Core μ ε φ} {a : α} {e : ε} {m : μ}
    {cs : List (Cmd ε φ)} (h : A.update a e c.model = (m,cs)) :
    c.process A a e = ⟨m,c.queue ++ Cmd.events cs,
      c.pending ++ number c.next (Cmd.requests cs),c.next+(Cmd.requests cs).length⟩ := by
  simp [process, h]

/-- Taking an effect off the pending list takes out that entry and no other. -/
theorem settle_split {c : Core μ ε φ} (hc : c.Wf) {t : ℕ} {f : φ} (h : (t,f) ∈ c.pending) :
    ∃ ps qs, c.pending = ps ++ (t,f) :: qs ∧ (c.settle t).pending = ps ++ qs := by
  obtain ⟨ps,qs,hp⟩ := List.append_of_mem h
  have hn := hc.nodup
  rw [hp, List.map_append, List.map_cons, List.nodup_append] at hn
  obtain ⟨-,hqs,hps⟩ := hn
  refine ⟨ps,qs,hp,?_⟩
  have keep : ∀ rs : List (ℕ × φ), (∀ p ∈ rs, p.1 ≠ t) → rs.filter (fun p => p.1 ≠ t) = rs :=
    fun rs hr => List.filter_eq_self.mpr fun p hp => by simpa using hr p hp
  have h₁ : ∀ p ∈ ps, p.1 ≠ t := fun p hp =>
    hps p.1 (List.mem_map_of_mem hp) t List.mem_cons_self
  have h₂ : ∀ p ∈ qs, p.1 ≠ t := by
    rintro p hq rfl
    exact (List.nodup_cons.mp hqs).1 (List.mem_map.mpr ⟨p,hq,rfl⟩)
  simp only [settle, hp, List.filter_append, keep ps h₁, List.filter_cons, ne_eq, not_true_eq_false,
    decide_false, Bool.false_eq_true, if_false, keep qs h₂]

theorem lookup_of_mem {c : Core μ ε φ} (hc : c.Wf) {t : ℕ} {f : φ} (h : (t,f) ∈ c.pending) :
    c.pending.lookup t = some f := by
  obtain ⟨g,hg⟩ : ∃ g, c.pending.lookup t = some g := by
    cases hl : c.pending.lookup t with
    | some g => exact ⟨g,rfl⟩
    | none => simpa using List.lookup_eq_none_iff.mp hl (t,f) h
  rw [hg, pending_unique hc (mem_of_lookup hg) h]

theorem step_drain (A : App μ ε φ α ρ) {c : Core μ ε φ} {e : ε} {q : List ε} (a : α)
    (hq : c.queue = e :: q) :
    c.step A (a,.drain) = some ({ c with queue := q }.process A a e) := by
  simp [step, take, hq]

theorem step_shell (A : App μ ε φ α ρ) {c : Core μ ε φ} {e : ε} (a : α) (hq : c.queue = [])
    (he : A.shell e = true) : c.step A (a,.shell e) = some (c.process A a e) := by
  simp [step, take, hq, he]

theorem step_answer (A : App μ ε φ α ρ) {c : Core μ ε φ} {t : ℕ} {f : φ} {r : ρ} {e : ε} (a : α)
    (hc : c.Wf) (hq : c.queue = []) (hf : (t,f) ∈ c.pending) (he : A.answer f r = some e) :
    c.step A (a,.answer t r) = some ((c.settle t).process A a e) := by
  simp [step, take, hq, lookup_of_mem hc hf, he]

end Core
end Mvu
