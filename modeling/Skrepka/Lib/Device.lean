import Skrepka.Lib.Mvu

/-! An application with a store. Operations reach the store in the order in which they were asked for,
their answers come back later, and a process that is killed leaves nothing but the store. -/
namespace Mvu

namespace Upd
variable {μ ε φ : Type*}

/-- A part of an update takes good models to good models, with acceptable commands only. -/
def Keeps (good : μ → Prop) (cmd : Cmd ε φ → Prop) (f : Upd μ ε φ) : Prop :=
  ∀ m, good m → good (f m).1 ∧ ∀ c ∈ (f m).2, cmd c

variable {good : μ → Prop} {cmd : Cmd ε φ → Prop} {f g : Upd μ ε φ}

theorem Keeps.emit {cs : List (Cmd ε φ)} (h : ∀ c ∈ cs, cmd c) : Keeps good cmd (emit cs) :=
  fun _ hm => ⟨hm,h⟩

theorem Keeps.done : Keeps good cmd (done : Upd μ ε φ) := .emit (by simp)

theorem Keeps.and (hf : Keeps good cmd f) (hg : Keeps good cmd g) : Keeps good cmd (f.and g) := by
  intro m hm
  obtain ⟨hgood,hcmds⟩ := hf m hm
  obtain ⟨hgood',hcmds'⟩ := hg (f m).1 hgood
  refine ⟨hgood',fun c hc => ?_⟩
  obtain hc | hc := List.mem_append.mp hc
  · exact hcmds c hc
  · exact hcmds' c hc

theorem Keeps.all {fs : List (Upd μ ε φ)} (h : ∀ f ∈ fs, Keeps good cmd f) : Keeps good cmd (all fs) := by
  induction fs with
  | nil => exact .done
  | cons f fs ih => exact (h f List.mem_cons_self).and (ih fun f hf => h f (List.mem_cons_of_mem _ hf))

theorem Keeps.when (b : Bool) (h : Keeps good cmd f) : Keeps good cmd (when b f) := by
  cases b with
  | true => exact h
  | false => exact .done

end Upd

/-- Which effects are operations on a store, what one does there and answers, and the answer of one
that fails. -/
structure Store (φ ρ δ : Type*) where
  isOp : φ → Bool
  perform : φ → δ → δ × ρ
  failed : ρ

/-- A process and its store, with the answers of the operations that have been performed. -/
structure Device (μ ε φ ρ δ : Type*) where
  core : Core μ ε φ
  disk : δ
  answers : List (ℕ × ρ)

inductive Happening (α ε ρ : Type*)
  | act (a : α) (action : Action ε ρ)
  | perform (ok : Bool)
  | deliver (a : α) (ticket : ℕ)
  | kill

/-- What a step reads from its surroundings. -/
def Happening.reads {α ε ρ : Type*} : Happening α ε ρ → Option α
  | .act a _ | .deliver a _ => some a
  | .perform _ | .kill => none

/-- The process goes on, and its operations succeed. -/
def Happening.lasting {α ε ρ : Type*} : Happening α ε ρ → Bool
  | .kill | .perform false => false
  | _ => true

namespace Device
variable {μ ε φ α ρ δ : Type*} (A : App μ ε φ α ρ) (S : Store φ ρ δ)

/-- The oldest operation that has not been performed. -/
def oldest (d : Device μ ε φ ρ δ) : Option (ℕ × φ) :=
  d.core.pending.find? fun p => S.isOp p.2 && d.answers.all fun q => q.1 ≠ p.1

/-- Whatever is not an answer of the store. -/
def isExternal (d : Device μ ε φ ρ δ) : Action ε ρ → Bool
  | .answer t _ => d.core.pending.all fun p => p.1 ≠ t || !S.isOp p.2
  | .drain | .shell _ => true

/-- The step that the process takes. -/
def label (d : Device μ ε φ ρ δ) : Happening α ε ρ → Option (α × Action ε ρ)
  | .act a action => if d.isExternal S action then some (a,action) else none
  | .deliver a t => (d.answers.lookup t).map fun r => (a,.answer t r)
  | .perform _ | .kill => none

def step (d : Device μ ε φ ρ δ) : Happening α ε ρ → Option (Device μ ε φ ρ δ)
  | .act a action => (d.label S (.act a action)).bind fun l =>
    (d.core.step A l).map fun core => { d with core }
  | .perform ok => (d.oldest S).map fun p =>
    let r := if ok then S.perform p.2 d.disk else (d.disk,S.failed)
    { d with disk := r.1, answers := d.answers ++ [(p.1,r.2)] }
  | .deliver a t => (d.label S (.deliver a t)).bind fun l =>
    (d.core.step A l).map fun core => { d with core, answers := d.answers.filter fun q => q.1 ≠ t }
  | .kill => some ⟨Core.boot A,d.disk,[]⟩

/-- The first start of a process over a store. -/
def fresh (disk : δ) : Device μ ε φ ρ δ := ⟨Core.boot A,disk,[]⟩

/-- An operation was asked for and has not been performed. -/
def Awaits (d : Device μ ε φ ρ δ) (f : φ) : Prop :=
  ∃ t, (t,f) ∈ d.core.pending ∧ S.isOp f = true ∧ ∀ q ∈ d.answers, q.1 ≠ t

/-- What the store was asked for and has not performed, in the order in which it will. -/
def awaiting (d : Device μ ε φ ρ δ) : List φ :=
  (d.core.pending.filter fun p => S.isOp p.2 && d.answers.all fun q => q.1 ≠ p.1).map Prod.snd

/-- Tickets are in order, and answers are to effects that were handed out. -/
structure Wf (d : Device μ ε φ ρ δ) : Prop where
  core : d.core.Wf
  issued : ∀ q ∈ d.answers, q.1 < d.core.next

section
variable {A S}

theorem Wf.core_step {d : Device μ ε φ ρ δ} (h : d.Wf) {l : α × Action ε ρ} {core : Core μ ε φ}
    (hstep : d.core.step A l = some core) {answers : List (ℕ × ρ)} (hsub : answers ⊆ d.answers)
    (disk : δ) : Wf ⟨core,disk,answers⟩ := by
  refine ⟨Core.step_wf h.core hstep,fun q hq => ?_⟩
  obtain ⟨e,c,ht,rfl⟩ := Core.step_cases hstep
  have := h.issued q (hsub hq)
  change q.1 < c.next+_
  rw [ht.next_eq]
  omega

/-- A step of the process leaves the store alone. -/
theorem step_core {d d' : Device μ ε φ ρ δ} {hap : Happening α ε ρ} {l : α × Action ε ρ}
    (hl : d.label S hap = some l) (hstep : step A S d hap = some d') :
    d.core.step A l = some d'.core ∧ d'.disk = d.disk ∧ d'.answers ⊆ d.answers := by
  cases hap with
  | act a action =>
    simp only [Device.step, hl, Option.bind_some, Option.map_eq_some_iff] at hstep
    obtain ⟨core,hcore,rfl⟩ := hstep
    exact ⟨hcore,rfl,fun _ hq => hq⟩
  | deliver a t =>
    simp only [Device.step, hl, Option.bind_some, Option.map_eq_some_iff] at hstep
    obtain ⟨core,hcore,rfl⟩ := hstep
    exact ⟨hcore,rfl,fun _ hq => List.mem_of_mem_filter hq⟩
  | perform | kill => simp [label] at hl

theorem Wf.step {d d' : Device μ ε φ ρ δ} (h : d.Wf) {hap : Happening α ε ρ}
    (hstep : step A S d hap = some d') : d'.Wf := by
  cases hap with
  | act a action =>
    obtain ⟨l,-,hstep⟩ := Option.bind_eq_some_iff.mp hstep
    obtain ⟨core,hcore,rfl⟩ := Option.map_eq_some_iff.mp hstep
    exact h.core_step hcore (fun _ h => h) d.disk
  | deliver a t =>
    obtain ⟨l,-,hstep⟩ := Option.bind_eq_some_iff.mp hstep
    obtain ⟨core,hcore,rfl⟩ := Option.map_eq_some_iff.mp hstep
    exact h.core_step hcore (fun _ hq => List.mem_of_mem_filter hq) d.disk
  | perform ok =>
    obtain ⟨p,hp,rfl⟩ := Option.map_eq_some_iff.mp hstep
    refine ⟨h.core,fun q hq => ?_⟩
    obtain hq | hq := List.mem_append.mp hq
    · exact h.issued q hq
    · rw [List.mem_singleton.mp hq]
      exact h.core.lt _ (List.mem_of_find?_eq_some hp)
  | kill =>
    obtain rfl := Option.some.inj hstep
    exact ⟨Core.boot_wf A,by simp⟩

/-- Every run from a start over a store keeps its tickets in order. -/
theorem Wf.run {disk : δ} {hs : List (Happening α ε ρ)} {d : Device μ ε φ ρ δ}
    (h : Lts.run (Device.step A S) (fresh A disk) hs = some d) : d.Wf := by
  refine Lts.run_invariant (Device.step A S) (I := Wf) (fun _ _ _ hwf hstep => hwf.step hstep) ?_ h
  exact ⟨Core.boot_wf A,by simp [fresh]⟩

/-- What an update asks of the store awaits from then on. -/
theorem Wf.awaits_new {d : Device μ ε φ ρ δ} (h : d.Wf) {l : α × Action ε ρ} {e : ε} {c : Core μ ε φ}
    (ht : Core.Takes A d.core l.2 e c) {f : φ} (hf : f ∈ Cmd.requests (A.update l.1 e c.model).2)
    (hop : S.isOp f = true) {answers : List (ℕ × ρ)} (hsub : answers ⊆ d.answers) (disk : δ) :
    Awaits S ⟨c.process A l.1 e,disk,answers⟩ f := by
  obtain ⟨t,hmem⟩ := exists_mem_number c.next hf
  refine ⟨t,List.mem_append_right _ hmem,hop,fun q hq => ?_⟩
  have hlt := h.issued q (hsub hq)
  have hge := (mem_number hmem).2.1
  rw [ht.next_eq] at hge
  omega

/-- An operation awaits until it is performed or the process is killed. -/
theorem Awaits.step {d d' : Device μ ε φ ρ δ} {f : φ} (h : d.Awaits S f) (hwf : d.Wf)
    {hap : Happening α ε ρ} (hstep : step A S d hap = some d') :
    d'.Awaits S f ∨ hap = .kill ∨ ∃ ok t, hap = .perform ok ∧ d.oldest S = some (t,f) := by
  obtain ⟨t,hf,hop,hnone⟩ := h
  -- An event that is not the answer to the operation leaves it pending.
  have hkeep : ∀ {l : α × Action ε ρ} {core : Core μ ε φ}, d.core.step A l = some core →
      (∀ r, l.2 ≠ .answer t r) → (t,f) ∈ core.pending := by
    intro l core hcore hne
    obtain ⟨e,c,ht,rfl⟩ := Core.step_cases hcore
    refine Core.mem_process_of_mem _ _ ?_
    generalize hact : l.2 = act at ht
    cases ht with
    | drain | shell => exact hf
    | @answer u r g _ _ _ _ =>
      refine Core.mem_settle.mpr ⟨hf,?_⟩
      rintro rfl
      exact hne r hact
  cases hap with
  | act a action =>
    obtain ⟨l,hl,hstep⟩ := Option.bind_eq_some_iff.mp hstep
    obtain ⟨core,hcore,rfl⟩ := Option.map_eq_some_iff.mp hstep
    simp only [label, Option.ite_none_right_eq_some, Option.some.injEq] at hl
    obtain ⟨hexternal,rfl⟩ := hl
    refine .inl ⟨t,hkeep hcore fun r hr => ?_,hop,hnone⟩
    obtain rfl : action = .answer t r := hr
    simpa [hop] using List.all_eq_true.mp hexternal _ hf
  | deliver a u =>
    obtain ⟨l,hl,hstep⟩ := Option.bind_eq_some_iff.mp hstep
    obtain ⟨core,hcore,rfl⟩ := Option.map_eq_some_iff.mp hstep
    obtain ⟨r,hr,rfl⟩ := Option.map_eq_some_iff.mp hl
    refine .inl ⟨t,hkeep hcore fun r' hr' => ?_,hop,fun q hq => hnone q (List.mem_of_mem_filter hq)⟩
    obtain ⟨rfl,-⟩ := Action.answer.inj hr'
    exact hnone _ (Core.mem_of_lookup hr) rfl
  | perform ok =>
    obtain ⟨p,hp,rfl⟩ := Option.map_eq_some_iff.mp hstep
    by_cases hpt : p.1 = t
    · have hmem := List.mem_of_find?_eq_some hp
      obtain ⟨u,g⟩ := p
      subst hpt
      obtain rfl := Core.pending_unique hwf.core hmem hf
      exact .inr (.inr ⟨ok,u,rfl,hp⟩)
    · refine .inl ⟨t,hf,hop,fun q hq => ?_⟩
      obtain hq | hq := List.mem_append.mp hq
      · exact hnone q hq
      · rw [List.mem_singleton.mp hq]
        exact hpt
  | kill => exact .inr (.inl rfl)

theorem mem_awaiting {d : Device μ ε φ ρ δ} {f : φ} : f ∈ d.awaiting S ↔ d.Awaits S f := by
  simp [awaiting, Awaits, and_assoc]

theorem awaiting_head? (d : Device μ ε φ ρ δ) : (d.awaiting S).head? = (d.oldest S).map Prod.snd := by
  rw [awaiting, oldest, List.head?_map, List.head?_filter]

/-- New effects have no answers yet. -/
theorem Wf.awaiting_number {d : Device μ ε φ ρ δ} (h : d.Wf) {answers : List (ℕ × ρ)}
    (hsub : answers ⊆ d.answers) (fs : List φ) :
    ((number d.core.next fs).filter fun p => S.isOp p.2 && answers.all fun q => q.1 ≠ p.1).map Prod.snd =
      fs.filter S.isOp := by
  have hnew : ∀ p ∈ number d.core.next fs,
      (S.isOp p.2 && answers.all fun q => q.1 ≠ p.1) = (S.isOp ∘ Prod.snd) p := by
    rintro ⟨t,f⟩ hp
    have hle := (mem_number hp).2.1
    have hall : answers.all (fun q => q.1 ≠ t) = true := List.all_eq_true.mpr fun q hq => by
      have := h.issued q (hsub hq)
      simp only [ne_eq, decide_not, Bool.not_eq_true', decide_eq_false_iff_not]
      omega
    simp only [hall, Bool.and_true]
    rfl
  rw [List.filter_congr hnew, ← List.filter_map, number_map_snd]

/-- A step of the process asks for more, at the end. -/
theorem Wf.awaiting_step {d d' : Device μ ε φ ρ δ} (h : d.Wf) {hap : Happening α ε ρ}
    {l : α × Action ε ρ} {e : ε} (hl : d.label S hap = some l) (he : d.core.event? A l.2 = some e)
    (hstep : Device.step A S d hap = some d') : d'.awaiting S =
      d.awaiting S ++ (Cmd.requests (A.update l.1 e d.core.model).2).filter S.isOp := by
  cases hap with
  | act a action =>
    simp only [Device.step, hl, Option.bind_some, Option.map_eq_some_iff] at hstep
    obtain ⟨core,hcore,rfl⟩ := hstep
    obtain ⟨c,ht,rfl⟩ := Core.step_event hcore he
    simp only [label, Option.ite_none_right_eq_some, Option.some.injEq] at hl
    obtain ⟨hexternal,rfl⟩ := hl
    -- An answer from outside is to no operation.
    have hold : (c.pending.filter fun p => S.isOp p.2 && d.answers.all fun q => q.1 ≠ p.1) =
        d.core.pending.filter fun p => S.isOp p.2 && d.answers.all fun q => q.1 ≠ p.1 := by
      cases ht with
      | drain | shell => rfl
      | @answer t =>
        simp only [Core.settle, List.filter_filter]
        refine List.filter_congr fun p hp => ?_
        have hp := List.all_eq_true.mp hexternal p hp
        by_cases hpt : p.1 = t
        · have hop : S.isOp p.2 = false := by simpa [hpt] using hp
          simp [hop]
        · simp [hpt]
    simp only [awaiting, Core.process, List.filter_append, List.map_append, hold, ht.next_eq,
      ht.model_eq, h.awaiting_number (fun _ hq => hq)]
  | deliver a t =>
    simp only [Device.step, hl, Option.bind_some, Option.map_eq_some_iff] at hstep
    obtain ⟨core,hcore,rfl⟩ := hstep
    obtain ⟨c,ht,rfl⟩ := Core.step_event hcore he
    obtain ⟨r,hr,rfl⟩ := Option.map_eq_some_iff.mp hl
    -- The operation that is answered awaits neither before nor after.
    have hold : (c.pending.filter fun p => S.isOp p.2 &&
        (d.answers.filter fun q => q.1 ≠ t).all fun q => q.1 ≠ p.1) =
        d.core.pending.filter fun p => S.isOp p.2 && d.answers.all fun q => q.1 ≠ p.1 := by
      cases ht with
      | answer =>
        simp only [Core.settle, List.filter_filter, List.all_filter]
        refine List.filter_congr fun p _ => ?_
        by_cases hpt : p.1 = t
        · have hanswered : d.answers.all (fun q => q.1 ≠ p.1) = false :=
            List.all_eq_false.mpr ⟨_,Core.mem_of_lookup hr,by simp [hpt]⟩
          simp only [hanswered, Bool.and_false]
          simp [hpt]
        · have hsame : ∀ q : ℕ × ρ, (!decide (q.1 ≠ t) || decide (q.1 ≠ p.1)) = decide (q.1 ≠ p.1) := by
            intro q
            by_cases hq : q.1 = t
            · simp [hq, Ne.symm hpt]
            · simp [hq]
          simp only [hsame, hpt, ne_eq, not_false_eq_true, decide_true, Bool.and_true]
    simp only [awaiting, Core.process, List.filter_append, List.map_append, hold, ht.next_eq,
      ht.model_eq, h.awaiting_number (fun _ hq => List.mem_of_mem_filter hq)]
  | perform | kill => simp [label] at hl

/-- The answer to an operation was made by the store. -/
theorem mem_answers {d : Device μ ε φ ρ δ} {hap : Happening α ε ρ} {l : α × Action ε ρ} {t : ℕ} {r : ρ} {f : φ}
    (hl : d.label S hap = some l) (hact : l.2 = .answer t r) (hf : (t,f) ∈ d.core.pending)
    (hop : S.isOp f = true) : (t,r) ∈ d.answers := by
  cases hap with
  | act a action =>
    simp only [label, Option.ite_none_right_eq_some, Option.some.injEq] at hl
    obtain ⟨hexternal,rfl⟩ := hl
    obtain rfl : action = .answer t r := hact
    simpa [hop] using List.all_eq_true.mp hexternal _ hf
  | deliver a u =>
    obtain ⟨r',hr,rfl⟩ := Option.map_eq_some_iff.mp hl
    obtain ⟨rfl,rfl⟩ := Action.answer.inj hact
    exact Core.mem_of_lookup hr
  | perform | kill => simp [label] at hl

/-- The oldest operation is the first that awaits, and when it is performed the others still do. -/
theorem Wf.awaiting_perform {d : Device μ ε φ ρ δ} (h : d.Wf) {p : ℕ × φ} (ho : d.oldest S = some p)
    (disk : δ) (r : ρ) : d.awaiting S =
      p.2 :: awaiting S ⟨d.core,disk,d.answers ++ [(p.1,r)]⟩ := by
  have hnodup := h.core.nodup
  simp only [awaiting, oldest] at ho ⊢
  generalize d.core.pending = ps at ho hnodup ⊢
  induction ps with
  | nil => simp at ho
  | cons q ps ih =>
    simp only [List.map_cons, List.nodup_cons] at hnodup
    have hrest : ∀ u ∈ ps, u.1 ≠ q.1 := fun u hu hq => hnodup.1 (hq ▸ List.mem_map_of_mem hu)
    by_cases hq : (S.isOp q.2 && d.answers.all fun u => u.1 ≠ q.1) = true
    · rw [List.find?_cons, hq] at ho
      obtain rfl := Option.some.inj ho
      have hsame : ∀ u ∈ ps, (S.isOp u.2 && (d.answers ++ [(q.1,r)]).all fun w => w.1 ≠ u.1) =
          (S.isOp u.2 && d.answers.all fun w => w.1 ≠ u.1) := fun u hu => by
        simp [(hrest u hu).symm]
      have hanswered : ¬ (S.isOp q.2 && (d.answers ++ [(q.1,r)]).all fun w => w.1 ≠ q.1) = true := by
        simp
      rw [List.filter_cons, List.filter_cons, if_pos hq, if_neg hanswered, List.filter_congr hsame]
      rfl
    · rw [List.find?_cons, Bool.eq_false_iff.mpr hq] at ho
      have hskip : ¬ (S.isOp q.2 && (d.answers ++ [(p.1,r)]).all fun u => u.1 ≠ q.1) = true := by
        simp only [List.all_append, Bool.and_eq_true] at hq ⊢
        exact fun h => hq ⟨h.1,h.2.1⟩
      rw [List.filter_cons, List.filter_cons, if_neg hq, if_neg hskip]
      exact ih ho hnodup.2

/-- What an update asks first of a store that has nothing left to do comes next. -/
theorem oldest_new {d : Device μ ε φ ρ δ} (hwf : d.Wf) (hold : d.oldest S = none)
    {pending : List (ℕ × φ)} (hsub : pending ⊆ d.core.pending) {f : φ} {fs : List φ}
    (hop : S.isOp f = true) {core : Core μ ε φ} (hp : core.pending = pending ++ number d.core.next (f :: fs))
    (disk : δ) : oldest S ⟨core,disk,d.answers⟩ = some (d.core.next,f) := by
  have hnone : pending.find? (fun p => S.isOp p.2 && d.answers.all fun q => q.1 ≠ p.1) = none := by
    refine List.find?_eq_none.mpr fun p hmem => ?_
    exact List.find?_eq_none.mp hold p (hsub hmem)
  have hnew : d.answers.all (fun q => q.1 ≠ d.core.next) = true := by
    refine List.all_eq_true.mpr fun q hq => ?_
    have := hwf.issued q hq
    simp only [ne_eq, decide_not, Bool.not_eq_true', decide_eq_false_iff_not]
    omega
  simp only [oldest, hp, number, List.find?_append, hnone, Option.none_or]
  exact List.find?_cons_of_pos (by simp only [hop, hnew, Bool.and_self])

end

/-- Every event taken along a run meets a condition on its surroundings and the model it meets. -/
def Meets (G : α → ε → μ → Prop) (d : Device μ ε φ ρ δ) (hs : List (Happening α ε ρ)) : Prop :=
  Lts.Along (step A S) (fun d h => ∀ l ∈ d.label S h, ∀ e ∈ d.core.event? A l.2, G l.1 e d.core.model) d hs

instance (G : α → ε → μ → Prop) [∀ a e m, Decidable (G a e m)] (d : Device μ ε φ ρ δ)
    (hs : List (Happening α ε ρ)) : Decidable (Meets A S G d hs) :=
  inferInstanceAs (Decidable (Lts.Along _ _ _ _))

/-- Follow happenings for as long as every event meets a condition. -/
def runMeeting (G : α → ε → μ → Prop) [∀ a e m, Decidable (G a e m)] :
    Device μ ε φ ρ δ → List (Happening α ε ρ) → Option (Device μ ε φ ρ δ) :=
  Lts.runAlong (step A S) fun d h => ∀ l ∈ d.label S h, ∀ e ∈ d.core.event? A l.2, G l.1 e d.core.model

theorem exists_of_runMeeting {G : α → ε → μ → Prop} [∀ a e m, Decidable (G a e m)]
    {P : Device μ ε φ ρ δ → Bool} {d : Device μ ε φ ρ δ} {hs : List (Happening α ε ρ)}
    (h : (runMeeting A S G d hs).any P = true) :
    Meets A S G d hs ∧ ∃ d', Lts.run (step A S) d hs = some d' ∧ P d' = true :=
  Lts.exists_of_runAlong (step A S) h

theorem label_reads {d : Device μ ε φ ρ δ} {h : Happening α ε ρ} {l : α × Action ε ρ}
    (hl : d.label S h = some l) : h.reads = some l.1 := by
  cases h with
  | act a action =>
    simp only [label, Option.ite_none_right_eq_some, Option.some.injEq] at hl
    exact hl.2 ▸ rfl
  | deliver a t =>
    obtain ⟨r,-,rfl⟩ := Option.map_eq_some_iff.mp hl
    rfl
  | perform | kill => simp [label] at hl

/-- A condition on the surroundings alone. -/
theorem meets_of_reads {P : α → Prop} {d : Device μ ε φ ρ δ} {hs : List (Happening α ε ρ)}
    (h : ∀ hap ∈ hs, ∀ a ∈ hap.reads, P a) : Meets A S (fun a _ _ => P a) d hs := by
  induction hs generalizing d with
  | nil => trivial
  | cons hap hs ih =>
    refine ⟨fun l hl e _ => ?_,fun t _ => ih fun hap hmem => h hap (List.mem_cons_of_mem _ hmem)⟩
    exact h hap List.mem_cons_self l.1 (label_reads S hl)

variable {A S} in
theorem Meets.and {G H : α → ε → μ → Prop} {d : Device μ ε φ ρ δ} {hs : List (Happening α ε ρ)}
    (hg : Meets A S G d hs) (hh : Meets A S H d hs) :
    Meets A S (fun a e m => G a e m ∧ H a e m) d hs := by
  induction hs generalizing d with
  | nil => trivial
  | cons hap hs ih =>
    exact ⟨fun l hl e he => ⟨hg.1 l hl e he,hh.1 l hl e he⟩,fun t ht => ih (hg.2 t ht) (hh.2 t ht)⟩

/-- What an application and its store keep: good models from acceptable events, acceptable requests
and events from good models, and acceptable contents of the store. -/
structure Keeps (allowed : α → ε → μ → Prop) (good : μ → Prop) (event : ε → Prop)
    (request : φ → Prop) (stored : δ → Prop) : Prop where
  init : good A.init
  update : ∀ a e m, allowed a e m → good m → event e → good (A.update a e m).1 ∧
    (∀ f ∈ Cmd.requests (A.update a e m).2, request f) ∧
    ∀ e' ∈ Cmd.events (A.update a e m).2, event e'
  shell : ∀ e, A.shell e = true → event e
  answer : ∀ f r e, request f → S.isOp f = false → A.answer f r = some e → event e
  perform : ∀ f s, request f → stored s → stored (S.perform f s).1 ∧
    ∀ e, A.answer f (S.perform f s).2 = some e → event e
  failed : ∀ f e, request f → A.answer f S.failed = some e → event e

/-- The invariant of such a process with its store. -/
structure Sound (good : μ → Prop) (event : ε → Prop) (request : φ → Prop) (stored : δ → Prop)
    (d : Device μ ε φ ρ δ) : Prop where
  wf : d.core.Wf
  good : good d.core.model
  queue : ∀ e ∈ d.core.queue, event e
  pending : ∀ p ∈ d.core.pending, request p.2
  disk : stored d.disk
  issued : ∀ q ∈ d.answers, q.1 < d.core.next
  answers : ∀ q ∈ d.answers, ∀ f, (q.1,f) ∈ d.core.pending → ∀ e, A.answer f q.2 = some e → event e

section
variable {A S} {allowed : α → ε → μ → Prop} {good : μ → Prop} {event : ε → Prop} {request : φ → Prop}
  {stored : δ → Prop}

theorem Sound.mono {good' : μ → Prop} {event' : ε → Prop} {request' : φ → Prop} {stored' : δ → Prop}
    {d : Device μ ε φ ρ δ} (h : Sound A good event request stored d) (hgood : ∀ m, good m → good' m)
    (hevent : ∀ e, event e → event' e) (hrequest : ∀ f, request f → request' f)
    (hstored : ∀ disk, stored disk → stored' disk) : Sound A good' event' request' stored' d where
  wf := h.wf
  good := hgood _ h.good
  queue := fun e he => hevent e (h.queue e he)
  pending := fun p hp => hrequest _ (h.pending p hp)
  disk := hstored _ h.disk
  issued := h.issued
  answers := fun q hq f hf e he => hevent e (h.answers q hq f hf e he)

theorem Keeps.start (h : Keeps A S allowed good event request stored) {disk : δ} (hdisk : stored disk) :
    Sound A good event request stored (fresh A disk) where
  wf := Core.boot_wf A
  good := h.init
  queue := by simp [Device.fresh, Core.boot]
  pending := by simp [Device.fresh, Core.boot]
  disk := hdisk
  issued := by simp [Device.fresh]
  answers := by simp [Device.fresh]

/-- An update on an acceptable event. -/
theorem Keeps.process (h : Keeps A S allowed good event request stored) {d : Device μ ε φ ρ δ}
    (hd : Sound A good event request stored d) {l : α × Action ε ρ} {core : Core μ ε φ}
    {answers : List (ℕ × ρ)} (hsub : answers ⊆ d.answers) (hstep : d.core.step A l = some core)
    (hevent : ∀ e c, Core.Takes A d.core l.2 e c → event e)
    (hallowed : ∀ e ∈ d.core.event? A l.2, allowed l.1 e d.core.model) :
    Sound A good event request stored ⟨core,d.disk,answers⟩ := by
  obtain ⟨⟨e,c⟩,htake,rfl⟩ := Option.map_eq_some_iff.mp hstep
  have ht := Core.takes_of_take htake
  have he : d.core.event? A l.2 = some e := by simp [Core.event?, htake]
  obtain ⟨hgood,hrequests,hevents⟩ := h.update l.1 e d.core.model (hallowed e he) hd.good (hevent e c ht)
  rw [← ht.model_eq] at hgood hrequests hevents
  refine ⟨Core.process_wf _ _ (ht.wf hd.wf),hgood,?_,?_,hd.disk,fun q hq => ?_,fun q hq f hf => ?_⟩
  · intro e' he'
    obtain he' | he' := Core.mem_process_queue.mp he'
    · exact hd.queue e' (ht.mem_queue he')
    · exact hevents e' he'
  · rintro ⟨t,f⟩ hp
    obtain hp | ⟨hf,-⟩ := Core.mem_process_pending hp
    · exact hd.pending _ (ht.mem_pending hp)
    · exact hrequests f hf
  · have := hd.issued q (hsub hq)
    change q.1 < c.next+_
    rw [ht.next_eq]
    omega
  · obtain hf | ⟨-,hnew⟩ := Core.mem_process_pending hf
    · exact hd.answers q (hsub hq) f (ht.mem_pending hf)
    · have := hd.issued q (hsub hq)
      rw [ht.next_eq] at hnew
      omega

theorem Keeps.step (h : Keeps A S allowed good event request stored) {d d' : Device μ ε φ ρ δ}
    (hd : Sound A good event request stored d) {hap : Happening α ε ρ}
    (hallowed : ∀ l ∈ d.label S hap, ∀ e ∈ d.core.event? A l.2, allowed l.1 e d.core.model)
    (hstep : step A S d hap = some d') : Sound A good event request stored d' := by
  cases hap with
  | act a action =>
    obtain ⟨l,hl,hstep⟩ := Option.bind_eq_some_iff.mp hstep
    obtain ⟨core,hcore,rfl⟩ := Option.map_eq_some_iff.mp hstep
    refine h.process hd (fun _ h => h) hcore (fun e c ht => ?_) (hallowed l hl)
    simp only [label, Option.ite_none_right_eq_some, Option.some.injEq] at hl
    obtain ⟨hexternal,rfl⟩ := hl
    cases ht with
    | drain hq => exact hd.queue e (by simp [hq])
    | shell _ hs => exact h.shell e hs
    | answer _ hf he =>
      refine h.answer _ _ e (hd.pending _ hf) ?_ he
      simpa using List.all_eq_true.mp hexternal _ hf
  | deliver a t =>
    obtain ⟨l,hl,hstep⟩ := Option.bind_eq_some_iff.mp hstep
    obtain ⟨core,hcore,rfl⟩ := Option.map_eq_some_iff.mp hstep
    refine h.process hd (fun _ hq => List.mem_of_mem_filter hq) hcore (fun e c ht => ?_) (hallowed l hl)
    obtain ⟨r,hr,rfl⟩ := Option.map_eq_some_iff.mp hl
    cases ht with
    | answer _ hf he => exact hd.answers _ (Core.mem_of_lookup hr) _ hf e he
  | perform ok =>
    obtain ⟨⟨t,f⟩,hf,rfl⟩ := Option.map_eq_some_iff.mp hstep
    have hf := List.mem_of_find?_eq_some hf
    have hok : stored (if ok then S.perform f d.disk else (d.disk,S.failed)).1 ∧
        ∀ e, A.answer f (if ok then S.perform f d.disk else (d.disk,S.failed)).2 = some e → event e := by
      cases ok with
      | true => exact h.perform f d.disk (hd.pending _ hf) hd.disk
      | false => exact ⟨hd.disk,fun e he => h.failed f e (hd.pending _ hf) he⟩
    refine ⟨hd.wf,hd.good,hd.queue,hd.pending,hok.1,fun q hq => ?_,fun q hq g hg e he => ?_⟩
    · obtain hq | hq := List.mem_append.mp hq
      · exact hd.issued q hq
      · rw [List.mem_singleton.mp hq]
        exact hd.wf.lt _ hf
    · obtain hq | hq := List.mem_append.mp hq
      · exact hd.answers q hq g hg e he
      · rw [List.mem_singleton.mp hq] at hg he
        obtain rfl := Core.pending_unique hd.wf hg hf
        exact hok.2 e he
  | kill =>
    obtain rfl := Option.some.inj hstep
    exact h.start hd.disk

/-- What is kept by every update and every operation holds after every run, kills included. -/
theorem Keeps.run (h : Keeps A S allowed good event request stored) {disk : δ} (hdisk : stored disk)
    {hs : List (Happening α ε ρ)} {d : Device μ ε φ ρ δ}
    (hmeets : Meets A S allowed (Device.fresh A disk) hs)
    (hrun : Lts.run (Device.step A S) (Device.fresh A disk) hs = some d) :
    Sound A good event request stored d :=
  Lts.run_invariant_along (Device.step A S) (I := Sound A good event request stored)
    (fun _ _ _ hd hallowed hstep => h.step hd hallowed hstep) (h.start hdisk) hmeets hrun

end

end Device
end Mvu
