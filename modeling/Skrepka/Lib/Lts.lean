import Mathlib.Data.List.Basic

/-! Runs of a labelled transition system given by a partial step function, with the
induction rules for invariants of its runs and of the runs whose steps meet a condition, and
observers of runs. -/
namespace Lts

variable {σ ℓ : Type*} (step : σ → ℓ → Option σ)

/-- Follow the labels from a state; `none` when some label cannot be taken. -/
def run : σ → List ℓ → Option σ
  | s, [] => some s
  | s, l :: ls => (step s l).bind (fun t => run t ls)

@[simp] theorem run_nil (s : σ) : run step s [] = some s := rfl

theorem run_cons_eq_some {s u : σ} {l : ℓ} {ls : List ℓ} :
    run step s (l :: ls) = some u ↔ ∃ t, step s l = some t ∧ run step t ls = some u := by
  simp [run, Option.bind_eq_some_iff]

theorem run_single {s t : σ} {l : ℓ} (h : step s l = some t) : run step s [l] = some t :=
  (run_cons_eq_some step).mpr ⟨t,h,rfl⟩

theorem run_append (s : σ) (ls ms : List ℓ) :
    run step s (ls ++ ms) = (run step s ls).bind (fun t => run step t ms) := by
  induction ls generalizing s with
  | nil => rfl
  | cons l ls ih =>
    cases h : step s l with
    | none => simp [run, h]
    | some t => simpa [run, h] using ih t

theorem run_append_eq_some {s t u : σ} {ls ms : List ℓ} (h₁ : run step s ls = some t)
    (h₂ : run step t ms = some u) : run step s (ls ++ ms) = some u := by
  rw [run_append, h₁]
  exact h₂

/-- Every step taken from `s` along `ls` meets `G`. -/
def Along (G : σ → ℓ → Prop) : σ → List ℓ → Prop
  | _, [] => True
  | s, l :: ls => G s l ∧ ∀ t, step s l = some t → Along G t ls

/-- Evaluate a condition along a run. -/
def decidableAlong (G : σ → ℓ → Prop) [∀ s l, Decidable (G s l)] :
    ∀ s ls, Decidable (Along step G s ls)
  | _, [] => .isTrue trivial
  | s, l :: ls =>
    match h : step s l with
    | none => decidable_of_iff (G s l) (by simp [Along, h])
    | some t =>
      haveI := decidableAlong G t ls
      decidable_of_iff (G s l ∧ Along step G t ls) (by simp [Along, h])

instance (G : σ → ℓ → Prop) [∀ s l, Decidable (G s l)] (s : σ) (ls : List ℓ) :
    Decidable (Along step G s ls) := decidableAlong step G s ls

/-- Follow the labels for as long as the steps meet a condition. -/
def runAlong (G : σ → ℓ → Prop) [∀ s l, Decidable (G s l)] : σ → List ℓ → Option σ
  | s, [] => some s
  | s, l :: ls => if G s l then (step s l).bind fun t => runAlong G t ls else none

theorem runAlong_eq_some {G : σ → ℓ → Prop} [∀ s l, Decidable (G s l)] {s t : σ} {ls : List ℓ}
    (h : runAlong step G s ls = some t) : Along step G s ls ∧ run step s ls = some t := by
  induction ls generalizing s with
  | nil => exact ⟨trivial,h⟩
  | cons l ls ih =>
    simp only [runAlong, Option.ite_none_right_eq_some, Option.bind_eq_some_iff] at h
    obtain ⟨hg,u,hu,h⟩ := h
    obtain ⟨halong,hrun⟩ := ih h
    refine ⟨⟨hg,fun v hv => ?_⟩,(run_cons_eq_some step).mpr ⟨u,hu,hrun⟩⟩
    obtain rfl := Option.some.inj (hu.symm.trans hv)
    exact halong

/-- A run that was evaluated together with its condition. -/
theorem exists_of_runAlong {G : σ → ℓ → Prop} [∀ s l, Decidable (G s l)] {P : σ → Bool} {s : σ}
    {ls : List ℓ} (h : (runAlong step G s ls).any P = true) :
    Along step G s ls ∧ ∃ t, run step s ls = some t ∧ P t = true := by
  obtain ⟨t,ht,hP⟩ := (Option.any_eq_true _ _).mp h
  obtain ⟨halong,hrun⟩ := runAlong_eq_some step ht
  exact ⟨halong,t,hrun,hP⟩

theorem along_append {G : σ → ℓ → Prop} {s t : σ} {ls ms : List ℓ}
    (h : Along step G s (ls ++ ms)) (hr : run step s ls = some t) :
    Along step G s ls ∧ Along step G t ms := by
  induction ls generalizing s with
  | nil =>
    cases hr
    exact ⟨trivial,h⟩
  | cons l ls ih =>
    obtain ⟨u,hu,hr⟩ := (run_cons_eq_some step).mp hr
    obtain ⟨hg,ht⟩ := h
    refine ⟨⟨hg,fun v hv => ?_⟩,(ih (ht u hu) hr).2⟩
    rw [hu] at hv
    cases hv
    exact (ih (ht u hu) hr).1

theorem along_append_of_run {G : σ → ℓ → Prop} {s t : σ} {ls ms : List ℓ} (h : Along step G s ls)
    (hr : run step s ls = some t) (h' : Along step G t ms) : Along step G s (ls ++ ms) := by
  induction ls generalizing s with
  | nil =>
    cases hr
    exact h'
  | cons l ls ih =>
    obtain ⟨u,hu,hr⟩ := (run_cons_eq_some step).mp hr
    refine ⟨h.1,fun v hv => ?_⟩
    rw [hu] at hv
    cases hv
    exact ih (h.2 u hu) hr

theorem Along.mono {G H : σ → ℓ → Prop} (hGH : ∀ s l, G s l → H s l) {s : σ} {ls : List ℓ}
    (h : Along step G s ls) : Along step H s ls := by
  induction ls generalizing s with
  | nil => trivial
  | cons l ls ih => exact ⟨hGH s l h.1,fun t ht => ih (h.2 t ht)⟩

theorem Along.and {G H : σ → ℓ → Prop} {s : σ} {ls : List ℓ} (hG : Along step G s ls)
    (hH : Along step H s ls) : Along step (fun s l => G s l ∧ H s l) s ls := by
  induction ls generalizing s with
  | nil => trivial
  | cons l ls ih => exact ⟨⟨hG.1,hH.1⟩,fun t ht => ih (hG.2 t ht) (hH.2 t ht)⟩

theorem along_of_forall {P : ℓ → Prop} {s : σ} {ls : List ℓ} (h : ∀ l ∈ ls, P l) :
    Along step (fun _ l => P l) s ls := by
  induction ls generalizing s with
  | nil => trivial
  | cons l ls ih =>
    exact ⟨h l List.mem_cons_self,fun t _ => ih fun k hk => h k (List.mem_cons_of_mem l hk)⟩

/-- What holds at the start and is preserved by every step that meets `G` holds at the
end of every run whose steps all meet `G`. -/
theorem run_invariant_along {G : σ → ℓ → Prop} {I : σ → Prop}
    (hstep : ∀ s l t, I s → G s l → step s l = some t → I t)
    {s t : σ} {ls : List ℓ} (h₀ : I s) (hg : Along step G s ls)
    (h : run step s ls = some t) : I t := by
  induction ls generalizing s with
  | nil => cases h; exact h₀
  | cons l ls ih =>
    obtain ⟨u,hu,h⟩ := (run_cons_eq_some step).mp h
    exact ih (hstep s l u h₀ hg.1 hu) (hg.2 u hu) h

/-- Two conditions that agree in every state that meets an invariant agree along every run whose steps
meet what the invariant needs. -/
theorem along_congr_along {I : σ → Prop} {G H K : σ → ℓ → Prop}
    (hstep : ∀ s l t, I s → K s l → step s l = some t → I t)
    (hGH : ∀ s l, I s → K s l → (G s l ↔ H s l)) {s : σ} {ls : List ℓ} (h₀ : I s)
    (hK : Along step K s ls) : Along step G s ls ↔ Along step H s ls := by
  induction ls generalizing s with
  | nil => exact Iff.rfl
  | cons l ls ih =>
    obtain ⟨hl,hls⟩ := hK
    exact and_congr (hGH s l h₀ hl)
      (forall_congr' fun t => forall_congr' fun ht => ih (hstep s l t h₀ hl ht) (hls t ht))

theorem along_congr {I : σ → Prop} {G H : σ → ℓ → Prop}
    (hstep : ∀ s l t, I s → step s l = some t → I t) (hGH : ∀ s l, I s → (G s l ↔ H s l))
    {s : σ} (h₀ : I s) (ls : List ℓ) : Along step G s ls ↔ Along step H s ls :=
  along_congr_along step (K := fun _ _ => True) (fun s l t hs _ => hstep s l t hs)
    (fun s l hs _ => hGH s l hs) h₀ (along_of_forall step (P := fun _ => True) fun _ _ => trivial)

/-- The rule for invariants that mention the labels taken so far. -/
theorem run_invariant_past {G : σ → ℓ → Prop} {I : List ℓ → σ → Prop}
    (hstep : ∀ ls s l t, I ls s → G s l → step s l = some t → I (ls ++ [l]) t)
    {s t : σ} {ls ms : List ℓ} (h₀ : I ls s) (hg : Along step G s ms)
    (h : run step s ms = some t) : I (ls ++ ms) t := by
  induction ms generalizing ls s with
  | nil =>
    cases h
    simpa using h₀
  | cons l ms ih =>
    obtain ⟨u,hu,h⟩ := (run_cons_eq_some step).mp h
    have := ih (hstep ls s l u h₀ hg.1 hu) (hg.2 u hu) h
    rwa [List.append_assoc] at this

/-- An invariant of the initial state that every step preserves holds after every run. -/
theorem run_invariant {I : σ → Prop}
    (hstep : ∀ s l t, I s → step s l = some t → I t)
    {s t : σ} {ls : List ℓ} (h₀ : I s) (h : run step s ls = some t) : I t :=
  run_invariant_along step (G := fun _ _ => True) (fun s l t hs _ => hstep s l t hs) h₀
    (along_of_forall step (P := fun _ => True) fun _ _ => trivial) h

/-- The same rule for invariants that count the steps taken so far. -/
theorem run_invariant_counted {I : ℕ → σ → Prop}
    (hstep : ∀ n s l t, I n s → step s l = some t → I (n+1) t)
    {n : ℕ} {s t : σ} {ls : List ℓ} (h₀ : I n s) (h : run step s ls = some t) :
    I (n+ls.length) t := by
  induction ls generalizing s n with
  | nil => cases h; exact h₀
  | cons l ls ih =>
    obtain ⟨u,hu,h⟩ := (run_cons_eq_some step).mp h
    have := ih (hstep n s l u h₀ hu) h
    rwa [List.length_cons, Nat.add_comm ls.length 1, ← Nat.add_assoc]

/-- A step that can be repeated `n` times: if one label leads from `P k` to `P (k+1)`, some
run of `n` labels leads from `P 0` to `P n`. -/
theorem exists_run_of_repeat {P : ℕ → σ → Prop} {k : ℕ}
    (hstep : ∀ n s, P n s → ∃ ls t, ls.length=k ∧ run step s ls = some t ∧ P (n+1) t)
    {s : σ} (h₀ : P 0 s) (n : ℕ) :
    ∃ ls t, ls.length=k*n ∧ run step s ls = some t ∧ P n t := by
  induction n with
  | zero => exact ⟨[],s,rfl,rfl,h₀⟩
  | succ n ih =>
    obtain ⟨ls,t,hl,hr,ht⟩ := ih
    obtain ⟨ms,u,hm,hs,hu⟩ := hstep n t ht
    refine ⟨ls ++ ms,u,?_,run_append_eq_some step hr hs,hu⟩
    rw [List.length_append, hl, hm, Nat.mul_succ]

/-- A step with an observer beside it, who sees every step and stops none. -/
def watch {γ : Type*} (note : σ → ℓ → σ → γ → γ) (s : σ × γ) (l : ℓ) : Option (σ × γ) :=
  (step s.1 l).map fun t => (t,note s.1 l t s.2)

theorem watch_eq_some {γ : Type*} {note : σ → ℓ → σ → γ → γ} {s t : σ × γ} {l : ℓ}
    (h : watch step note s l = some t) : step s.1 l = some t.1 ∧ t.2 = note s.1 l t.1 s.2 := by
  obtain ⟨u,hu,rfl⟩ := Option.map_eq_some_iff.mp h
  exact ⟨hu,rfl⟩

theorem watch_of_step {γ : Type*} (note : σ → ℓ → σ → γ → γ) {s : σ × γ} {t : σ} {l : ℓ}
    (h : step s.1 l = some t) : watch step note s l = some (t,note s.1 l t s.2) := by
  rw [watch, h]
  rfl

theorem run_of_watch {γ : Type*} {note : σ → ℓ → σ → γ → γ} {s t : σ × γ} {ls : List ℓ}
    (h : run (watch step note) s ls = some t) : run step s.1 ls = some t.1 := by
  induction ls generalizing s with
  | nil => cases h; rfl
  | cons l ls ih =>
    obtain ⟨u,hu,h⟩ := (run_cons_eq_some _).mp h
    exact (run_cons_eq_some step).mpr ⟨u.1,(watch_eq_some step hu).1,ih h⟩

theorem Along.watch {γ : Type*} {note : σ → ℓ → σ → γ → γ} {G : σ → ℓ → Prop} {s : σ × γ}
    {ls : List ℓ} (h : Along step G s.1 ls) :
    Along (watch step note) (fun s l => G s.1 l) s ls := by
  induction ls generalizing s with
  | nil => trivial
  | cons l ls ih => exact ⟨h.1,fun t ht => ih (h.2 t.1 (watch_eq_some step ht).1)⟩

end Lts
