import Skrepka.Lib.Device

/-! A store that is kept in another form. A device runs on it as on the first one, if the application
cannot tell their answers apart. -/
namespace Mvu
variable {μ ε φ α ρ δ δ' : Type*}

/-- Two answers to an effect that an application takes for the same. -/
def App.Alike (A : App μ ε φ α ρ) (f : φ) (r r' : ρ) : Prop :=
  (A.answer f r).map (fun e a m => A.update a e m) = (A.answer f r').map fun e a m => A.update a e m

/-- A store does in its own form what another does, and answers alike to the effects that are known. -/
structure Store.Refines (A : App μ ε φ α ρ) (known : φ → Prop) (S : Store φ ρ δ) (S' : Store φ ρ δ')
    (view : δ → δ') : Prop where
  isOp : S.isOp = S'.isOp
  disk : ∀ f disk, view (S.perform f disk).1 = (S'.perform f (view disk)).1
  answer : ∀ f disk, known f → A.Alike f (S.perform f disk).2 (S'.perform f (view disk)).2
  failed : ∀ f, known f → A.Alike f S.failed S'.failed

theorem Core.step_alike {A : App μ ε φ α ρ} {c : Core μ ε φ} {t : ℕ} {f : φ} {r r' : ρ} (a : α)
    (hf : c.pending.lookup t = some f) (h : A.Alike f r r') :
    c.step A (a,.answer t r) = c.step A (a,.answer t r') := by
  simp only [step, take, hf]
  split
  · have hprocess : ∀ r, ((A.answer f r).map fun e => (e,c.settle t)).map (fun p => p.2.process A a p.1) =
        ((A.answer f r).map (fun e a m => A.update a e m)).map fun g =>
          let s := g a (c.settle t).model
          (⟨s.1,(c.settle t).queue ++ Cmd.events s.2,
            (c.settle t).pending ++ number (c.settle t).next (Cmd.requests s.2),
            (c.settle t).next+(Cmd.requests s.2).length⟩ : Core μ ε φ) := by
      intro r
      rw [Option.map_map, Option.map_map]
      rfl
    rw [hprocess, hprocess, h]
  · rfl

/-- An effect with an old ticket was there before a step. -/
theorem Core.pending_old {A : App μ ε φ α ρ} {c c' : Core μ ε φ} {l : α × Action ε ρ}
    (hstep : c.step A l = some c') {p : ℕ × φ} (hp : p ∈ c'.pending) :
    p ∈ c.pending ∨ c.next ≤ p.1 ∧ ∃ a e m, p.2 ∈ Cmd.requests (A.update a e m).2 := by
  obtain ⟨a,action⟩ := l
  obtain ⟨⟨e,d⟩,htake,rfl⟩ := Option.map_eq_some_iff.mp hstep
  have htakes := takes_of_take htake
  have hd : d.pending ⊆ c.pending ∧ d.next = c.next := by
    cases htakes with
    | drain | shell => exact ⟨List.Subset.refl _,rfl⟩
    | answer => exact ⟨fun q hq => List.mem_of_mem_filter hq,rfl⟩
  obtain hp | hp := List.mem_append.mp hp
  · exact .inl (hd.1 hp)
  · obtain ⟨hin,hle,-⟩ := mem_number hp
    exact .inr ⟨hd.2 ▸ hle,a,e,d.model,hin⟩

namespace Device

/-- A step leaves the store alone, or performs an operation on it. -/
theorem step_disk {A : App μ ε φ α ρ} {S : Store φ ρ δ} {d d' : Device μ ε φ ρ δ} {hap : Happening α ε ρ}
    (hstep : d.step A S hap = some d') : d'.disk = d.disk ∨ ∃ f, d'.disk = (S.perform f d.disk).1 := by
  cases hap with
  | act | deliver =>
    obtain ⟨_,-,hstep⟩ := Option.bind_eq_some_iff.mp hstep
    obtain ⟨core,-,rfl⟩ := Option.map_eq_some_iff.mp hstep
    exact .inl rfl
  | perform ok =>
    obtain ⟨p,-,rfl⟩ := Option.map_eq_some_iff.mp hstep
    cases ok with
    | true => exact .inr ⟨p.2,rfl⟩
    | false => exact .inl rfl
  | kill =>
    obtain rfl := Option.some.inj hstep
    exact .inl rfl

/-- The same process over two forms of a store, with answers that it takes for the same. -/
structure Matches (A : App μ ε φ α ρ) (known : φ → Prop) (view : δ → δ') (d : Device μ ε φ ρ δ)
    (d' : Device μ ε φ ρ δ') : Prop where
  wf : d.Wf
  core : d'.core = d.core
  disk : d'.disk = view d.disk
  known : ∀ p ∈ d.core.pending, known p.2
  answers : List.Forall₂ (fun q q' => q'.1 = q.1 ∧ ∀ f, (q.1,f) ∈ d.core.pending → A.Alike f q.2 q'.2)
    d.answers d'.answers

variable {A : App μ ε φ α ρ} {known : φ → Prop} {S : Store φ ρ δ} {S' : Store φ ρ δ'} {view : δ → δ'}

theorem Matches.tickets {d : Device μ ε φ ρ δ} {d' : Device μ ε φ ρ δ'} (h : Matches A known view d d') :
    d'.answers.map Prod.fst = d.answers.map Prod.fst := by
  have hanswers := h.answers
  generalize d.answers = qs at hanswers ⊢
  generalize d'.answers = qs' at hanswers ⊢
  induction hanswers with
  | nil => rfl
  | cons hq _ ih => simp [hq.1, ih]

theorem Matches.oldest {d : Device μ ε φ ρ δ} {d' : Device μ ε φ ρ δ'} (h : Matches A known view d d')
    (hS : S.isOp = S'.isOp) : d'.oldest S' = d.oldest S := by
  have hall : ∀ {qs : List (ℕ × ρ)} (t : ℕ), (qs.all fun q => decide (q.1 ≠ t)) =
      (qs.map Prod.fst).all fun n => decide (n ≠ t) := fun t => by simp [List.all_map, Function.comp_def]
  simp only [Device.oldest, h.core, hS, hall, h.tickets]

theorem Matches.lookup {d : Device μ ε φ ρ δ} {d' : Device μ ε φ ρ δ'} (h : Matches A known view d d')
    (t : ℕ) : Option.Rel (fun r r' => ∀ f, (t,f) ∈ d.core.pending → A.Alike f r r')
      (d.answers.lookup t) (d'.answers.lookup t) := by
  have hanswers := h.answers
  generalize d.answers = qs at hanswers ⊢
  generalize d'.answers = qs' at hanswers ⊢
  induction hanswers with
  | nil => exact .none
  | @cons q q' qs qs' hq _ ih =>
    obtain ⟨ticket,r⟩ := q
    obtain ⟨ticket',r'⟩ := q'
    obtain ⟨hticket,halike⟩ := hq
    obtain rfl : ticket' = ticket := hticket
    rw [List.lookup_cons, List.lookup_cons]
    by_cases ht : t = ticket'
    · obtain rfl := ht
      simp only [BEq.rfl]
      exact .some halike
    · simp only [beq_false_of_ne ht]
      exact ih

/-- A step of the process itself. -/
theorem Matches.core_step {d : Device μ ε φ ρ δ} {d' : Device μ ε φ ρ δ'} (h : Matches A known view d d')
    (hknown : ∀ a e m, ∀ f ∈ Cmd.requests (A.update a e m).2, known f) {l : α × Action ε ρ}
    {core : Core μ ε φ} (hstep : d.core.step A l = some core) (keep : ℕ × ρ → Bool)
    (hkeep : ∀ q q' : ℕ × ρ, q.1 = q'.1 → keep q = keep q') :
    Matches A known view ⟨core,d.disk,d.answers.filter keep⟩ ⟨core,d'.disk,d'.answers.filter keep⟩ := by
  refine ⟨h.wf.core_step hstep List.filter_sublist.subset d.disk,rfl,h.disk,fun p hp => ?_,?_⟩
  · obtain hold | ⟨-,a,e,m,hin⟩ := Core.pending_old hstep hp
    · exact h.known p hold
    · exact hknown a e m _ hin
  · have hissued := h.wf.issued
    have hanswers := h.answers
    generalize d.answers = qs at hissued hanswers ⊢
    generalize d'.answers = qs' at hanswers ⊢
    induction hanswers with
    | nil => exact .nil
    | @cons q q' qs qs' hq _ ih =>
      have htail := ih fun q hq => hissued q (List.mem_cons_of_mem _ hq)
      have hsame := hkeep q q' hq.1.symm
      by_cases hk : keep q = true
      · rw [List.filter_cons_of_pos hk, List.filter_cons_of_pos (hsame ▸ hk)]
        refine .cons ⟨hq.1,fun f hf => ?_⟩ htail
        obtain hold | ⟨hnew,-⟩ := Core.pending_old hstep hf
        · exact hq.2 f hold
        · exact absurd (hissued q List.mem_cons_self) (Nat.not_lt.mpr hnew)
      · rw [List.filter_cons_of_neg hk, List.filter_cons_of_neg (hsame ▸ hk)]
        exact htail

/-- Every step over one form of the store is a step over the other. -/
theorem Matches.step (hS : S.Refines A known S' view)
    (hknown : ∀ a e m, ∀ f ∈ Cmd.requests (A.update a e m).2, known f)
    {d e : Device μ ε φ ρ δ} {d' : Device μ ε φ ρ δ'} (h : Matches A known view d d')
    {hap : Happening α ε ρ} (hstep : d.step A S hap = some e) :
    ∃ e', d'.step A S' hap = some e' ∧ Matches A known view e e' := by
  cases hap with
  | act a action =>
    obtain ⟨l,hl,hstep⟩ := Option.bind_eq_some_iff.mp hstep
    obtain ⟨core,hcore,rfl⟩ := Option.map_eq_some_iff.mp hstep
    have hl' : d'.label S' (.act a action) = some l := by
      rw [← hl]
      cases action <;> simp only [label, isExternal, h.core, hS.isOp]
    refine ⟨{ d' with core },?_,?_⟩
    · simp only [Device.step, hl', Option.bind_some, h.core, hcore, Option.map_some]
    · simpa using h.core_step hknown hcore (fun _ => true) fun _ _ _ => rfl
  | perform ok =>
    have hwf := h.wf.step hstep
    obtain ⟨p,hp,rfl⟩ := Option.map_eq_some_iff.mp hstep
    have hp' : d'.oldest S' = some p := (h.oldest hS.isOp).trans hp
    have hpending : p ∈ d.core.pending := List.mem_of_find?_eq_some hp
    refine ⟨_,by simp only [Device.step, hp', Option.map_some]; rfl,?_⟩
    have halike : ∀ f, (p.1,f) ∈ d.core.pending → A.Alike f
        (if ok then S.perform p.2 d.disk else (d.disk,S.failed)).2
        (if ok then S'.perform p.2 d'.disk else (d'.disk,S'.failed)).2 := by
      intro f hf
      obtain rfl : f = p.2 := Core.pending_unique h.wf.core hf hpending
      cases ok with
      | true => exact h.disk ▸ hS.answer p.2 d.disk (h.known p hpending)
      | false => exact hS.failed p.2 (h.known p hpending)
    refine ⟨hwf,h.core,?_,h.known,?_⟩
    · cases ok with
      | true => exact (congrArg (fun disk => (S'.perform p.2 disk).1) h.disk).trans (hS.disk p.2 d.disk).symm
      | false => exact h.disk
    · exact List.rel_append h.answers (.cons ⟨rfl,halike⟩ .nil)
  | deliver a t =>
    obtain ⟨l,hl,hstep⟩ := Option.bind_eq_some_iff.mp hstep
    obtain ⟨core,hcore,rfl⟩ := Option.map_eq_some_iff.mp hstep
    obtain ⟨r,hr,rfl⟩ := Option.map_eq_some_iff.mp hl
    have hlookup := h.lookup t
    rw [hr] at hlookup
    cases hr' : d'.answers.lookup t with
    | none => rw [hr'] at hlookup; cases hlookup
    | some r' =>
      rw [hr'] at hlookup
      obtain ⟨halike⟩ := hlookup
      have hcore' : d'.core.step A (a,.answer t r') = some core := by
        cases hf : d.core.pending.lookup t with
        | none => simp [Core.step, Core.take, hf] at hcore
        | some f => rw [h.core, ← Core.step_alike a hf (halike f (Core.mem_of_lookup hf)), hcore]
      refine ⟨{ d' with core, answers := d'.answers.filter fun q => q.1 ≠ t },?_,?_⟩
      · simp only [Device.step, label, hr', Option.map_some, Option.bind_some, hcore']
      · exact h.core_step hknown hcore _ fun q q' hq => by rw [hq]
  | kill =>
    obtain rfl := Option.some.inj hstep
    exact ⟨_,rfl,⟨Core.boot_wf A,by simp⟩,rfl,h.disk,by simp [Core.boot],.nil⟩

/-- A device runs on a store in one form as on it in the other. -/
theorem matches_run (hS : S.Refines A known S' view)
    (hknown : ∀ a e m, ∀ f ∈ Cmd.requests (A.update a e m).2, known f) {disk : δ}
    {haps : List (Happening α ε ρ)} {d : Device μ ε φ ρ δ}
    (hrun : Lts.run (Device.step A S) (fresh A disk) haps = some d) :
    ∃ d', Lts.run (Device.step A S') (fresh A (view disk)) haps = some d' ∧ Matches A known view d d' := by
  have hfrom : ∀ (haps : List (Happening α ε ρ)) (c : Device μ ε φ ρ δ) (c' : Device μ ε φ ρ δ'),
      Matches A known view c c' → Lts.run (Device.step A S) c haps = some d →
      ∃ d', Lts.run (Device.step A S') c' haps = some d' ∧ Matches A known view d d' := by
    intro haps
    induction haps with
    | nil =>
      intro c c' hc hrun
      obtain rfl := Option.some.inj hrun
      exact ⟨c',rfl,hc⟩
    | cons hap haps ih =>
      intro c c' hc hrun
      obtain ⟨e,he,hrun⟩ := (Lts.run_cons_eq_some _).mp hrun
      obtain ⟨e',he',hmatch⟩ := hc.step hS hknown he
      obtain ⟨d',hd',hmatch'⟩ := ih e e' hmatch hrun
      exact ⟨d',(Lts.run_cons_eq_some _).mpr ⟨e',he',hd'⟩,hmatch'⟩
  refine hfrom haps _ _ ?_ hrun
  exact ⟨⟨Core.boot_wf A,by simp [fresh]⟩,rfl,rfl,by simp [fresh, Core.boot],.nil⟩

end Device
end Mvu
