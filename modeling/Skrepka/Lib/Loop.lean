import Skrepka.Lib.Mvu

/-! Loops with one round trip at a time. The model of such a loop holds a guard, which is up
while a round trip is under way, and the generation of that round trip. Requests cannot be
cancelled, so a result or a watchdog of an earlier generation has to be told apart. -/
namespace Mvu

structure Guard where
  up : Bool
  gen : UInt64
  deriving DecidableEq

namespace Guard

/-- The ways a guard moves in `n` bumps of its generation, and the generations issued. -/
inductive Moves : ℕ → Guard → List UInt64 → Guard → Prop
  | stay (g : Guard) : Moves 0 g [] g
  | retire {n g ks h} (hm : Moves n g ks h) : Moves (n+1) g ks ⟨false,h.gen+1⟩
  | issue {n g ks h} (hm : Moves n g ks h) : Moves (n+1) g (ks ++ [h.gen+1]) ⟨true,h.gen+1⟩

theorem toNat_succ {k : UInt64} (h : k.toNat+1 < UInt64.size) : (k+1).toNat = k.toNat+1 := by
  rw [UInt64.toNat_add]
  exact Nat.mod_eq_of_lt h

theorem toNat_succ_le (k : UInt64) : (k+1).toNat ≤ k.toNat+1 := by
  rw [UInt64.toNat_add]
  exact Nat.mod_le _ _

namespace Moves

theorem trans {n n' : ℕ} {g h i : Guard} {ks ls : List UInt64} (h₁ : Moves n g ks h)
    (h₂ : Moves n' h ls i) : Moves (n+n') g (ks ++ ls) i := by
  induction h₂ with
  | stay => simpa using h₁
  | retire _ ih => exact .retire (ih h₁)
  | issue _ ih =>
    rw [← List.append_assoc]
    exact .issue (ih h₁)

theorem toNat_le {n : ℕ} {g h : Guard} {ks : List UInt64} (hm : Moves n g ks h) :
    h.gen.toNat ≤ g.gen.toNat+n := by
  induction hm with
  | stay => exact Nat.le_refl _
  | retire _ ih | issue _ ih => exact Nat.le_trans (toNat_succ_le _) (by omega)

theorem toNat_eq {n : ℕ} {g h : Guard} {ks : List UInt64} (hm : Moves n g ks h)
    (hn : g.gen.toNat+n < UInt64.size) : h.gen.toNat = g.gen.toNat+n := by
  induction hm with
  | stay => rfl
  | retire _ ih | issue _ ih =>
    have hih := ih (by omega)
    exact (toNat_succ (by omega)).trans (by omega)

/-- What is issued is newer than the guard was and no newer than it becomes. -/
theorem issued {n : ℕ} {g h : Guard} {ks : List UInt64} (hm : Moves n g ks h)
    (hn : g.gen.toNat+n < UInt64.size) {k : UInt64} (hk : k ∈ ks) :
    g.gen.toNat < k.toNat ∧ k.toNat ≤ h.gen.toNat := by
  induction hm with
  | stay => simp at hk
  | retire hm ih =>
    have hs := (retire hm).toNat_eq hn
    have := hm.toNat_eq (by omega)
    have := ih (by omega) hk
    simp only at hs ⊢
    omega
  | issue hm ih =>
    have hs := (issue hm).toNat_eq hn
    have := hm.toNat_eq (by omega)
    simp only at hs ⊢
    rcases List.mem_append.mp hk with hk | hk
    · have := ih (by omega) hk
      omega
    · obtain rfl := List.mem_singleton.mp hk
      omega

theorem nodup {n : ℕ} {g h : Guard} {ks : List UInt64} (hm : Moves n g ks h)
    (hn : g.gen.toNat+n < UInt64.size) : ks.Nodup := by
  induction hm with
  | stay => exact List.nodup_nil
  | retire _ ih => exact ih (by omega)
  | @issue n _ ks h hm ih =>
    refine List.nodup_append.mpr ⟨ih (by omega),List.nodup_singleton _,fun k hk l hl => ?_⟩
    obtain rfl := List.mem_singleton.mp hl
    have := (hm.issued (by omega) hk).2
    have hs := (issue hm).toNat_eq hn
    have := hm.toNat_eq (by omega)
    rintro rfl
    simp only at hs
    omega

/-- A guard that is up was up before, or its generation has just been issued. -/
theorem up {n : ℕ} {g h : Guard} {ks : List UInt64} (hm : Moves n g ks h)
    (hu : h.up = true) : (n = 0 ∧ h = g ∧ ks = []) ∨ h.gen ∈ ks := by
  cases hm with
  | stay => exact .inl ⟨rfl,rfl,rfl⟩
  | retire => simp at hu
  | issue => exact .inr (by simp)

/-- What has been issued under the guard's generation keeps the guard up. -/
theorem up_of_mem {n : ℕ} {g h : Guard} {ks : List UInt64} (hm : Moves n g ks h)
    (hn : g.gen.toNat+n < UInt64.size) (hk : h.gen ∈ ks) : h.up = true := by
  cases hm with
  | stay => simp at hk
  | retire hm =>
    have hs := (retire hm).toNat_eq hn
    have := hm.toNat_eq (by omega)
    have := (hm.issued (by omega) hk).2
    simp only at hs this
    omega
  | issue => rfl

theorem eq_of_zero {g h : Guard} {ks : List UInt64} (hm : Moves 0 g ks h) : h = g ∧ ks = [] := by
  cases hm
  exact ⟨rfl,rfl⟩

/-- One or two bumps lead to another generation, even where they wrap. -/
theorem gen_ne {n : ℕ} {g h i : Guard} {ks ls : List UInt64} (h₁ : Moves 1 g ks h)
    (h₂ : Moves n h ls i) (hn : n ≤ 1) : i.gen ≠ g.gen := by
  have hsucc : ∀ k : UInt64, (k+1).toNat = (k.toNat+1)%UInt64.size := fun k =>
    UInt64.toNat_add k 1
  have hg := g.gen.toNat_lt
  have hone : ∀ {g h : Guard} {ks : List UInt64}, Moves 1 g ks h → h.gen = g.gen+1 := by
    intro g h ks hm
    cases hm with
    | retire hm | issue hm => rw [(eq_of_zero hm).1]
  intro heq
  have hgen := congrArg UInt64.toNat heq
  rcases Nat.lt_or_ge n 1 with h0 | h1
  · obtain rfl : n = 0 := by omega
    rw [h₂.eq_of_zero.1, hone h₁, hsucc] at hgen
    simp only [UInt64.size] at hgen
    omega
  · obtain rfl : n = 1 := by omega
    rw [hone h₂, hone h₁, hsucc, hsucc] at hgen
    simp only [UInt64.size] at hgen
    omega

end Moves
end Guard

variable {μ ε φ α ρ : Type*}

/-- A loop of an application: its guard, and the generations that its requests, its watchdog
timers, its results and its watchdog events carry. -/
structure Loop (μ ε φ : Type*) where
  guard : μ → Guard
  request : φ → Option UInt64
  timer : φ → Option UInt64
  result : ε → Option UInt64
  watch : ε → Option UInt64

namespace Loop

/-- The generations of the requests among some commands. -/
def issued (L : Loop μ ε φ) (cs : List (Cmd ε φ)) : List UInt64 :=
  (Cmd.requests cs).filterMap L.request

/-- The generations of the watchdogs among some commands. -/
def armed (L : Loop μ ε φ) (cs : List (Cmd ε φ)) : List UInt64 :=
  (Cmd.requests cs).filterMap L.timer

@[simp] theorem issued_nil (L : Loop μ ε φ) : L.issued [] = [] := rfl
@[simp] theorem issued_append (L : Loop μ ε φ) (cs ds : List (Cmd ε φ)) :
    L.issued (cs ++ ds) = L.issued cs ++ L.issued ds := by simp [issued]
@[simp] theorem issued_event (L : Loop μ ε φ) (e : ε) (cs : List (Cmd ε φ)) :
    L.issued (.event e :: cs) = L.issued cs := rfl
@[simp] theorem issued_render (L : Loop μ ε φ) (cs : List (Cmd ε φ)) :
    L.issued (.render :: cs) = L.issued cs := rfl
theorem issued_request (L : Loop μ ε φ) (f : φ) (cs : List (Cmd ε φ)) :
    L.issued (.request f :: cs) = (L.request f).toList ++ L.issued cs := by
  cases h : L.request f <;> simp [issued, h]

@[simp] theorem armed_nil (L : Loop μ ε φ) : L.armed [] = [] := rfl
@[simp] theorem armed_append (L : Loop μ ε φ) (cs ds : List (Cmd ε φ)) :
    L.armed (cs ++ ds) = L.armed cs ++ L.armed ds := by simp [armed]
@[simp] theorem armed_event (L : Loop μ ε φ) (e : ε) (cs : List (Cmd ε φ)) :
    L.armed (.event e :: cs) = L.armed cs := rfl
@[simp] theorem armed_render (L : Loop μ ε φ) (cs : List (Cmd ε φ)) :
    L.armed (.render :: cs) = L.armed cs := rfl
theorem armed_request (L : Loop μ ε φ) (f : φ) (cs : List (Cmd ε φ)) :
    L.armed (.request f :: cs) = (L.timer f).toList ++ L.armed cs := by
  cases h : L.timer f <;> simp [armed, h]

/-- One update moves the guard by at most two bumps, and arms a watchdog for all it issues. -/
def Advances (L : Loop μ ε φ) (g : Guard) (r : μ × List (Cmd ε φ)) : Prop :=
  ∃ n ≤ 2, Guard.Moves n g (L.issued r.2) (L.guard r.1) ∧ ∀ k ∈ L.issued r.2, k ∈ L.armed r.2

theorem advances_stay {L : Loop μ ε φ} {g : Guard} {r : μ × List (Cmd ε φ)}
    (hg : L.guard r.1 = g) (hi : L.issued r.2 = []) : L.Advances g r :=
  ⟨0,by omega,by rw [hi, hg]; exact .stay g,by simp [hi]⟩

theorem advances_retire {L : Loop μ ε φ} {g : Guard} {r : μ × List (Cmd ε φ)}
    (hg : L.guard r.1 = ⟨false,g.gen+1⟩) (hi : L.issued r.2 = []) : L.Advances g r :=
  ⟨1,by omega,by rw [hi, hg]; exact .retire (.stay g),by simp [hi]⟩

theorem advances_issue {L : Loop μ ε φ} {g : Guard} {r : μ × List (Cmd ε φ)}
    (hg : L.guard r.1 = ⟨true,g.gen+1⟩) (hi : L.issued r.2 = [g.gen+1])
    (ha : g.gen+1 ∈ L.armed r.2) : L.Advances g r :=
  ⟨1,by omega,by rw [hi, hg]; exact .issue (.stay g),by simpa [hi] using ha⟩

/-- The same round trip goes on with another request. -/
def Continues (L : Loop μ ε φ) (k : UInt64) (r : μ × List (Cmd ε φ)) : Prop :=
  L.issued r.2 = [k] ∧ L.guard r.1 = ⟨true,k⟩

/-- How an application has to treat a loop. -/
structure Ok (A : App μ ε φ α ρ) (L : Loop μ ε φ) : Prop where
  init : L.guard A.init = ⟨false,0⟩
  answer : ∀ f r e, A.answer f r = some e → L.result e = L.request f ∧ L.watch e = L.timer f
  shell : ∀ e, A.shell e = true → L.result e = none ∧ L.watch e = none
  queued : ∀ a e m, ∀ e' ∈ Cmd.events (A.update a e m).2, L.result e' = none ∧ L.watch e' = none
  /-- No other event takes the guard down without bumping the generation. -/
  other : ∀ a e m, L.result e = none → L.Advances (L.guard m) (A.update a e m)
  stale : ∀ a e m k, L.result e = some k → k ≠ (L.guard m).gen → A.update a e m = (m,[])
  current : ∀ a e m k, L.result e = some k → k = (L.guard m).gen →
    L.Advances ⟨false,k⟩ (A.update a e m) ∨ L.Continues k (A.update a e m)
  /-- The watchdog of the round trip under way ends it. -/
  watched : ∀ a e m k, L.watch e = some k → k = (L.guard m).gen → (L.guard m).up = true →
    L.result e = none ∧ (L.guard (A.update a e m).1).gen ≠ k

/-- A request of generation `k` is outstanding under ticket `t`. -/
def Out (L : Loop μ ε φ) (c : Core μ ε φ) (t : ℕ) (k : UInt64) : Prop :=
  ∃ f, (t,f) ∈ c.pending ∧ L.request f = some k

/-- A watchdog of generation `k` is set under ticket `t`. -/
def Watched (L : Loop μ ε φ) (c : Core μ ε φ) (t : ℕ) (k : UInt64) : Prop :=
  ∃ f, (t,f) ∈ c.pending ∧ L.timer f = some k

/-- At most one request of the guard's generation is outstanding, and it is there exactly
while the guard is up. -/
structure Tracks (L : Loop μ ε φ) (c : Core μ ε φ) (g : Guard) : Prop where
  bounded : ∀ t k, L.Out c t k → k.toNat ≤ g.gen.toNat
  single : ∀ t u, L.Out c t g.gen → L.Out c u g.gen → t = u
  live : g.up = true ↔ ∃ t, L.Out c t g.gen

structure Inv (L : Loop μ ε φ) (c : Core μ ε φ) : Prop where
  wf : c.Wf
  queue : ∀ e ∈ c.queue, L.result e = none ∧ L.watch e = none
  tracks : L.Tracks c (L.guard c.model)
  watch : (L.guard c.model).up = true → ∃ t, L.Watched c t (L.guard c.model).gen

variable {A : App μ ε φ α ρ} {L : Loop μ ε φ}

theorem number_inj {n t u : ℕ} {f g : φ} {k : UInt64} {fs : List φ} (p : φ → Option UInt64)
    (hd : (fs.filterMap p).Nodup) (hf : (t,f) ∈ number n fs) (hg : (u,g) ∈ number n fs)
    (hfk : p f = some k) (hgk : p g = some k) : t = u := by
  induction fs generalizing n with
  | nil => simp [number] at hf
  | cons h hs ih =>
    have hk : ∀ {v : ℕ} {i : φ}, (v,i) ∈ number (n+1) hs → p i = some k →
        k ∈ hs.filterMap p :=
      fun hi hik => List.mem_filterMap.mpr ⟨_,(mem_number hi).1,hik⟩
    simp only [number, List.mem_cons, Prod.mk.injEq] at hf hg
    have htail : (hs.filterMap p).Nodup := hd.sublist ((List.sublist_cons_self h hs).filterMap p)
    have hhead : p h = some k → k ∉ hs.filterMap p := by
      intro hp
      rw [List.filterMap_cons_some hp] at hd
      exact (List.nodup_cons.mp hd).1
    rcases hf with ⟨rfl,rfl⟩ | hf <;> rcases hg with ⟨rfl,rfl⟩ | hg
    · rfl
    · exact absurd (hk hg hgk) (hhead hfk)
    · exact absurd (hk hf hfk) (hhead hgk)
    · exact ih htail hf hg

theorem mem_issued {cs : List (Cmd ε φ)} {k : UInt64} :
    k ∈ L.issued cs ↔ ∃ f ∈ Cmd.requests cs, L.request f = some k := List.mem_filterMap

theorem mem_armed {cs : List (Cmd ε φ)} {k : UInt64} :
    k ∈ L.armed cs ↔ ∃ f ∈ Cmd.requests cs, L.timer f = some k := List.mem_filterMap

theorem exists_out {c : Core μ ε φ} {a : α} {e : ε} {k : UInt64}
    (hk : k ∈ L.issued (A.update a e c.model).2) : ∃ t, L.Out (c.process A a e) t k := by
  obtain ⟨f,hf,hr⟩ := mem_issued.mp hk
  obtain ⟨t,ht⟩ := Core.exists_mem_process a e hf
  exact ⟨t,f,ht,hr⟩

theorem exists_watched {c : Core μ ε φ} {a : α} {e : ε} {k : UInt64}
    (hk : k ∈ L.armed (A.update a e c.model).2) : ∃ t, L.Watched (c.process A a e) t k := by
  obtain ⟨f,hf,hr⟩ := mem_armed.mp hk
  obtain ⟨t,ht⟩ := Core.exists_mem_process a e hf
  exact ⟨t,f,ht,hr⟩

theorem out_process {c : Core μ ε φ} {a : α} {e : ε} {t : ℕ} {k : UInt64}
    (h : L.Out (c.process A a e) t k) :
    L.Out c t k ∨ k ∈ L.issued (A.update a e c.model).2 := by
  obtain ⟨f,hf,hk⟩ := h
  rcases Core.mem_process_pending hf with hf | hf
  · exact .inl ⟨f,hf,hk⟩
  · exact .inr (mem_issued.mpr ⟨f,hf.1,hk⟩)

theorem out_mono {c d : Core μ ε φ} {act : Action ε ρ} {e : ε} (ht : Core.Takes A c act e d)
    {t : ℕ} {k : UInt64} (h : L.Out d t k) : L.Out c t k := by
  obtain ⟨f,hf,hk⟩ := h
  exact ⟨f,ht.mem_pending hf,hk⟩

/-- Tickets that are issued by one update for one generation are the same. -/
theorem new_single {c : Core μ ε φ} {a : α} {e : ε} {t u : ℕ} {k : UInt64}
    (hd : (L.issued (A.update a e c.model).2).Nodup) (ht : L.Out (c.process A a e) t k)
    (hu : L.Out (c.process A a e) u k) (hold : ∀ v, ¬ L.Out c v k) : t = u := by
  obtain ⟨f,hf,hfk⟩ := ht
  obtain ⟨g,hg,hgk⟩ := hu
  rcases List.mem_append.mp hf with hf | hf
  · exact absurd ⟨f,hf,hfk⟩ (hold t)
  rcases List.mem_append.mp hg with hg | hg
  · exact absurd ⟨g,hg,hgk⟩ (hold u)
  exact number_inj L.request hd hf hg hfk hgk

/-- Moving the guard keeps track of the requests that are outstanding. -/
theorem Tracks.process {c : Core μ ε φ} {a : α} {e : ε} {g : Guard} (hc : L.Tracks c g)
    (hadv : L.Advances g (A.update a e c.model)) (hn : g.gen.toNat+2 < UInt64.size) :
    L.Tracks (c.process A a e) (L.guard (c.process A a e).model) := by
  obtain ⟨n,hn2,hm,-⟩ := hadv
  have hn : g.gen.toNat+n < UInt64.size := by omega
  have hgen := hm.toNat_eq hn
  change L.Tracks (c.process A a e) (L.guard (A.update a e c.model).1)
  constructor
  · intro t k hk
    rcases out_process hk with hk | hk
    · have := hc.bounded t k hk
      omega
    · exact (hm.issued hn hk).2
  · intro t u ht hu
    by_cases h0 : n = 0
    · subst h0
      obtain ⟨hg,hks⟩ := hm.eq_of_zero
      rw [hg] at ht hu
      have hold : ∀ v, L.Out (c.process A a e) v g.gen → L.Out c v g.gen := fun v hv =>
        (out_process hv).resolve_right (by simp [hks])
      exact hc.single t u (hold t ht) (hold u hu)
    · refine new_single (hm.nodup hn) ht hu fun v hv => ?_
      have := hc.bounded v _ hv
      omega
  · constructor
    · intro hu
      rcases hm.up hu with ⟨-,hg,-⟩ | hk
      · rw [hg] at hu ⊢
        obtain ⟨t,f,hf,hk⟩ := hc.live.mp hu
        exact ⟨t,f,Core.mem_process_of_mem a e hf,hk⟩
      · exact exists_out hk
    · rintro ⟨t,ht⟩
      rcases out_process ht with ht | hk
      · by_cases h0 : n = 0
        · subst h0
          obtain ⟨hg,-⟩ := hm.eq_of_zero
          rw [hg] at ht ⊢
          exact hc.live.mpr ⟨t,ht⟩
        · have := hc.bounded t _ ht
          omega
      · exact hm.up_of_mem hn hk

/-- Going on with another request keeps track of it when no other was outstanding. -/
theorem Tracks.continue {c : Core μ ε φ} {a : α} {e : ε} {k : UInt64}
    (hc : L.Tracks c ⟨false,k⟩) (hcont : L.Continues k (A.update a e c.model)) :
    L.Tracks (c.process A a e) (L.guard (c.process A a e).model) := by
  obtain ⟨hks,hg⟩ := hcont
  change L.Tracks (c.process A a e) (L.guard (A.update a e c.model).1)
  have hnone : ∀ t, ¬ L.Out c t k := fun t ht => by
    have := hc.live.mpr ⟨t,ht⟩
    simp at this
  rw [hg]
  constructor
  · intro t l hl
    rcases out_process hl with hl | hl
    · exact hc.bounded t l hl
    · simp_all
  · intro t u ht hu
    exact new_single (by simp [hks]) ht hu hnone
  · exact ⟨fun _ => exists_out (by simp [hks]),fun _ => rfl⟩

/-- Taking an event that is no result of the loop removes none of its requests. -/
theorem Tracks.take {c d : Core μ ε φ} {act : Action ε ρ} {e : ε} {g : Guard}
    (hok : L.Ok A) (hwf : c.Wf) (hc : L.Tracks c g) (ht : Core.Takes A c act e d)
    (he : L.result e = none ∨ ∃ k, L.result e = some k ∧ k ≠ g.gen) : L.Tracks d g := by
  have hkeep : ∀ {t : ℕ}, L.Out c t g.gen → L.Out d t g.gen := by
    rintro t ⟨f,hf,hk⟩
    refine ⟨f,ht.mem_of_ne hwf hf fun r hr => ?_,hk⟩
    have hrf := (hok.answer f r e hr).1
    rcases he with he | ⟨l,hl,hne⟩
    · simp [hrf, hk] at he
    · rw [hrf, hk] at hl
      exact hne (Option.some.inj hl).symm
  exact ⟨fun t k hk => hc.bounded t k (out_mono ht hk),
    fun t u h₁ h₂ => hc.single t u (out_mono ht h₁) (out_mono ht h₂),
    ⟨fun hu => (hc.live.mp hu).imp fun _ => hkeep,
     fun ⟨t,h⟩ => hc.live.mpr ⟨t,out_mono ht h⟩⟩⟩

/-- Taking the result of the current round trip leaves no request of its generation. -/
theorem Tracks.take_current {c d : Core μ ε φ} {act : Action ε ρ} {e : ε} (hok : L.Ok A)
    (hi : L.Inv c) (ht : Core.Takes A c act e d)
    (he : L.result e = some (L.guard c.model).gen) :
    L.Tracks d ⟨false,(L.guard c.model).gen⟩ := by
  have hnone : ∀ t, ¬ L.Out d t (L.guard c.model).gen := by
    cases ht with
    | drain hq => simp [(hi.queue e (by simp [hq])).1] at he
    | shell _ hs => simp [(hok.shell e hs).1] at he
    | @answer u r f _ _ hf hr =>
      rintro t ⟨g,hg,hk⟩
      obtain ⟨hg,hne⟩ := Core.mem_settle.mp hg
      exact hne (hi.tracks.single t u ⟨g,hg,hk⟩ ⟨f,hf,(hok.answer f r e hr).1 ▸ he⟩)
  exact ⟨fun t k hk => hi.tracks.bounded t k (out_mono ht hk),
    fun t _ h => absurd h (hnone t),
    ⟨fun h => by simp at h,fun ⟨t,h⟩ => absurd h (hnone t)⟩⟩

theorem watched_process {c : Core μ ε φ} (a : α) (e : ε) {t : ℕ} {k : UInt64}
    (h : L.Watched c t k) : L.Watched (c.process A a e) t k := by
  obtain ⟨f,hf,hk⟩ := h
  exact ⟨f,Core.mem_process_of_mem a e hf,hk⟩

/-- A watchdog stays set unless it is the event that is taken. -/
theorem watched_take {c d : Core μ ε φ} {act : Action ε ρ} {e : ε} {t : ℕ} {k : UInt64}
    (hok : L.Ok A) (hwf : c.Wf) (ht : Core.Takes A c act e d) (h : L.Watched c t k)
    (he : L.watch e ≠ some k) : L.Watched d t k := by
  obtain ⟨f,hf,hk⟩ := h
  refine ⟨f,ht.mem_of_ne hwf hf fun r hr => he ?_,hk⟩
  rw [(hok.answer f r e hr).2, hk]

/-- One step of the core keeps the invariant of a loop, as long as generations do not wrap. -/
theorem Ok.step_inv {c d : Core μ ε φ} {l : α × Action ε ρ} (hok : L.Ok A)
    (hn : (L.guard c.model).gen.toNat+2 < UInt64.size) (hi : L.Inv c)
    (hstep : c.step A l = some d) : L.Inv d := by
  obtain ⟨a,act⟩ := l
  obtain ⟨e,c₁,ht,rfl⟩ := Core.step_cases hstep
  simp only at ht ⊢
  have hm := ht.model_eq
  have hwf := Core.process_wf (A := A) a e (ht.wf hi.wf)
  have hqueue : ∀ e' ∈ (c₁.process A a e).queue, L.result e' = none ∧ L.watch e' = none := by
    intro e' he'
    rcases Core.mem_process_queue.mp he' with he' | he'
    · cases ht with
      | drain hq => exact hi.queue e' (hq ▸ List.mem_cons_of_mem _ he')
      | shell | answer => exact hi.queue e' he'
    · exact hok.queued a e c₁.model e' he'
  cases hr : L.result e with
  | none =>
    have hadv : L.Advances (L.guard c.model) (A.update a e c₁.model) :=
      hm ▸ hok.other a e c.model hr
    refine ⟨hwf,hqueue,(hi.tracks.take hok hi.wf ht (.inl hr)).process hadv hn,fun hu => ?_⟩
    obtain ⟨n,-,hmoves,harm⟩ := hadv
    rcases hmoves.up hu with ⟨-,hg,-⟩ | hk
    · change (L.guard (A.update a e c₁.model).1).up = true at hu
      change ∃ t, L.Watched _ t (L.guard (A.update a e c₁.model).1).gen
      rw [hg] at hu ⊢
      obtain ⟨t,hw⟩ := hi.watch hu
      refine ⟨t,watched_process a e (watched_take hok hi.wf ht hw fun hwe => ?_)⟩
      refine (hok.watched a e c.model _ hwe rfl hu).2 ?_
      rw [← hm, hg, hm]
    · exact exists_watched (harm _ hk)
  | some k =>
    by_cases hk : k = (L.guard c.model).gen
    · have hcur := hok.current a e c.model k hr hk
      rw [← hm] at hcur
      have htr := Tracks.take_current hok hi ht (hk ▸ hr)
      rw [← hk] at htr
      rcases hcur with hadv | hcont
      · refine ⟨hwf,hqueue,htr.process hadv (by simpa [hk] using hn),fun hu => ?_⟩
        obtain ⟨n,-,hmoves,harm⟩ := hadv
        rcases hmoves.up hu with ⟨-,hg,-⟩ | hk'
        · change (L.guard (A.update a e c₁.model).1).up = true at hu
          simp [hg] at hu
        · exact exists_watched (harm _ hk')
      · refine ⟨hwf,hqueue,htr.continue hcont,fun _ => ?_⟩
        change ∃ t, L.Watched _ t (L.guard (A.update a e c₁.model).1).gen
        -- The round trip goes on, so its guard was up and its watchdog is still set.
        have hup : (L.guard c.model).up = true := by
          cases ht with
          | drain hq => simp [(hi.queue e (by simp [hq])).1] at hr
          | shell _ hs => simp [(hok.shell e hs).1] at hr
          | @answer u r f _ _ hf he =>
            exact hi.tracks.live.mpr ⟨u,f,hf,by rw [← (hok.answer f r e he).1, hr, hk]⟩
        obtain ⟨t,hw⟩ := hi.watch hup
        rw [hcont.2]
        refine ⟨t,watched_process a e (watched_take hok hi.wf ht (hk ▸ hw) fun hwe => ?_)⟩
        have := (hok.watched a e c.model k hwe hk hup).1
        simp [hr] at this
    · have hst := hok.stale a e c.model k hr hk
      rw [← hm] at hst
      have htr := hi.tracks.take hok hi.wf ht (.inr ⟨k,hr,hk⟩)
      have hadv : L.Advances (L.guard c.model) (A.update a e c₁.model) := by
        rw [hst, hm]
        exact ⟨0,by omega,.stay _,by simp⟩
      refine ⟨hwf,hqueue,htr.process hadv hn,fun hu => ?_⟩
      change (L.guard (A.update a e c₁.model).1).up = true at hu
      change ∃ t, L.Watched _ t (L.guard (A.update a e c₁.model).1).gen
      rw [hst, hm] at hu ⊢
      obtain ⟨t,hw⟩ := hi.watch hu
      refine ⟨t,watched_process a e (watched_take hok hi.wf ht hw fun hwe => ?_)⟩
      have := (hok.watched a e c.model _ hwe rfl hu).1
      simp [hr] at this

theorem Ok.boot_inv (hok : L.Ok A) : L.Inv (Core.boot A) := by
  have hout : ∀ t k, ¬ L.Out (Core.boot A) t k := by
    intro t k h
    obtain ⟨f,hf,-⟩ := h
    simp [Core.boot] at hf
  have hg : L.guard (Core.boot A).model = ⟨false,0⟩ := hok.init
  refine ⟨Core.boot_wf A,by simp [Core.boot],?_,by simp [hg]⟩
  refine ⟨fun t k h => absurd h (hout t k),fun t u h => absurd h (hout t _),by simp [hg],?_⟩
  intro h
  obtain ⟨t,h⟩ := h
  exact absurd h (hout t _)

/-- A step bumps the generation at most twice. -/
theorem Ok.gen_le {c d : Core μ ε φ} {l : α × Action ε ρ} (hok : L.Ok A)
    (hstep : c.step A l = some d) :
    (L.guard d.model).gen.toNat ≤ (L.guard c.model).gen.toNat+2 := by
  obtain ⟨e,c₁,ht,rfl⟩ := Core.step_cases hstep
  have hadvance : ∀ g : Guard, L.Advances g (A.update l.1 e c.model) →
      (L.guard (A.update l.1 e c.model).1).gen.toNat ≤ g.gen.toNat+2 := by
    rintro g ⟨n,hn,hm,-⟩
    have := hm.toNat_le
    omega
  change (L.guard (A.update l.1 e c₁.model).1).gen.toNat ≤ _
  rw [ht.model_eq]
  cases hr : L.result e with
  | none => exact hadvance _ (hok.other l.1 e c.model hr)
  | some k =>
    by_cases hk : k = (L.guard c.model).gen
    · rcases hok.current l.1 e c.model k hr hk with hadv | ⟨-,hg⟩
      · simpa [hk] using hadvance _ hadv
      · simp [hg, hk]
    · simp [hok.stale l.1 e c.model k hr hk]

/-- A request of the current generation is one that was current before, or has just been issued. -/
theorem Ok.current_cases (hok : L.Ok A) {c d : Core μ ε φ} {l : α × Action ε ρ} {e : ε}
    (hn : (L.guard c.model).gen.toNat+2 < UInt64.size) (hi : L.Inv c)
    (hstep : c.step A l = some d) (he : c.event? A l.2 = some e) {t : ℕ} {f : φ}
    (hf : (t,f) ∈ d.pending) (hcur : L.request f = some (L.guard d.model).gen) :
    ((t,f) ∈ c.pending ∧ L.request f = some (L.guard c.model).gen) ∨
      f ∈ Cmd.requests (A.update l.1 e c.model).2 := by
  obtain ⟨c₁,ht,rfl⟩ := Core.step_event hstep he
  rcases Core.mem_process_pending hf with hold | ⟨hnew,-⟩
  · have hold := ht.mem_pending hold
    have hle := hi.tracks.bounded t _ ⟨f,hold,hcur⟩
    have hmodel : ((c₁.process A l.1 e).model) = (A.update l.1 e c.model).1 := by
      rw [← ht.model_eq]
      rfl
    rw [hmodel] at hle hcur
    have hadv : ∀ g : Guard, g.gen = (L.guard c.model).gen → L.Advances g (A.update l.1 e c.model) →
        (L.guard (A.update l.1 e c.model).1).gen = (L.guard c.model).gen := by
      rintro g hg ⟨n,hn2,hm,-⟩
      have := hm.toNat_eq (by rw [hg]; omega)
      rw [hg] at this
      exact UInt64.toNat_inj.mp (by omega)
    have hgen : (L.guard (A.update l.1 e c.model).1).gen = (L.guard c.model).gen := by
      cases hr : L.result e with
      | none => exact hadv _ rfl (hok.other l.1 e c.model hr)
      | some k =>
        by_cases hk : k = (L.guard c.model).gen
        · rcases hok.current l.1 e c.model k hr hk with h | h
          · exact hadv _ hk h
          · rw [h.2, hk]
        · rw [hok.stale l.1 e c.model k hr hk]
    exact .inl ⟨hold,hgen ▸ hcur⟩
  · rw [ht.model_eq] at hnew
    exact .inr hnew

/-- The invariant of a loop, with a bound on the generation that it has come to. -/
def Within (L : Loop μ ε φ) (n : ℕ) (c : Core μ ε φ) : Prop :=
  L.Inv c ∧ (L.guard c.model).gen.toNat ≤ n

theorem Within.mono {n k : ℕ} {c : Core μ ε φ} (h : L.Within n c) (hle : n ≤ k) : L.Within k c :=
  ⟨h.1,Nat.le_trans h.2 hle⟩

theorem Ok.boot_within (hok : L.Ok A) : L.Within 0 (Core.boot A) := by
  refine ⟨hok.boot_inv,?_⟩
  have hg : L.guard (Core.boot A).model = ⟨false,0⟩ := hok.init
  simp [hg]

theorem Ok.step_within {n : ℕ} {c d : Core μ ε φ} {l : α × Action ε ρ} (hok : L.Ok A)
    (h : L.Within n c) (hn : n+2 < UInt64.size) (hstep : c.step A l = some d) : L.Within (n+2) d := by
  obtain ⟨hinv,hgen⟩ := h
  have hle := hok.gen_le hstep
  exact ⟨hok.step_inv (by omega) hinv hstep,by omega⟩

theorem Ok.run_gen_le {c : Core μ ε φ} {ls : List (α × Action ε ρ)} (hok : L.Ok A)
    (hrun : Lts.run (Core.step A) (Core.boot A) ls = some c) :
    (L.guard c.model).gen.toNat ≤ 2*ls.length := by
  have := Lts.run_invariant_counted (Core.step A) (n := 0)
    (I := fun n c => (L.guard c.model).gen.toNat ≤ 2*n)
    (fun n c l d hc hd => Nat.le_trans (hok.gen_le hd) (by omega))
    (by simp [Core.boot, hok.init]) hrun
  simpa using this

/-- Every run that is too short for a generation to wrap keeps the invariant of a loop. -/
theorem Ok.run_inv {c : Core μ ε φ} {ls : List (α × Action ε ρ)} (hok : L.Ok A)
    (hlen : 2*ls.length < UInt64.size) (hrun : Lts.run (Core.step A) (Core.boot A) ls = some c) :
    L.Inv c := by
  have := Lts.run_invariant_counted (Core.step A) (n := 0)
    (I := fun n c => (L.guard c.model).gen.toNat ≤ 2*n ∧ (2*n < UInt64.size → L.Inv c))
    (fun n c l d hc hd => ⟨Nat.le_trans (hok.gen_le hd) (by omega),
      fun hn => hok.step_inv (by omega) (hc.2 (by omega)) hd⟩)
    ⟨by simp [Core.boot, hok.init],fun _ => hok.boot_inv⟩ hrun
  exact this.2 (by omega)

end Loop
end Mvu
