import Mathlib.Data.List.Induction
import Mathlib.Order.Bounds.Basic

/-! A record of attempts whose outcomes come in out of order: the attempt that started last decides,
and of those that started together a success. Failures in a row are counted. -/
namespace LatestAttempt

structure Attempt (τ : Type*) where
  start : τ
  ok : Bool

/-- The attempt that decides, and the failures in a row up to it. -/
structure Record (τ : Type*) where
  start : τ
  failures : ℕ

variable {τ : Type*} [LinearOrder τ]

/-- What the record says outranks an outcome. -/
def Record.outranks (r : Record τ) (a : Attempt τ) : Bool :=
  a.start < r.start || (!a.ok && r.start = a.start && r.failures = 0)

/-- The failures that a record counts. -/
def count (r : Option (Record τ)) : ℕ := (r.map Record.failures).getD 0

def settle (r : Option (Record τ)) (a : Attempt τ) : Option (Record τ) :=
  if r.any fun r => r.outranks a then r else some ⟨a.start,if a.ok then 0 else count r+1⟩

/-- The failures among some attempts that started at some time. -/
def failed (t : τ) (as : List (Attempt τ)) : ℕ := as.countP fun a => !a.ok && a.start = t

/-- The fewest failures that may be counted if the last attempts have failed: what came before them is
forgotten by a success only. -/
def fewest (prior : Option (Record τ)) (as : List (Attempt τ)) (t : τ) : ℕ :=
  failed t as+if as.any Attempt.ok then 0 else count prior

/-- The most that may be counted. -/
def most (prior : Option (Record τ)) (as : List (Attempt τ)) : ℕ := count prior+as.countP fun a => !a.ok

/-- What a record says after some attempts, whatever the order of their outcomes. -/
structure Settled (prior : Option (Record τ)) (as : List (Attempt τ)) (r : Record τ) : Prop where
  greatest : IsGreatest {t | ∃ a ∈ as, a.start = t} r.start
  zero : r.failures = 0 ↔ ∃ a ∈ as, a.start = r.start ∧ a.ok = true
  least : r.failures ≠ 0 → fewest prior as r.start ≤ r.failures
  most : r.failures ≤ most prior as

variable {prior : Option (Record τ)} {as bs : List (Attempt τ)} {r : Record τ}

theorem Settled.perm (h : Settled prior as r) (hperm : as.Perm bs) : Settled prior bs r := by
  have hmem : ∀ a, a ∈ as ↔ a ∈ bs := fun a => hperm.mem_iff
  refine ⟨?_,?_,fun hr => ?_,?_⟩
  · simpa only [hmem] using h.greatest
  · simpa only [hmem] using h.zero
  · have hany : bs.any Attempt.ok = as.any Attempt.ok := hperm.symm.any_eq
    simpa only [fewest, failed, hperm.countP_eq, hany] using h.least hr
  · simpa only [LatestAttempt.most, hperm.countP_eq] using h.most

/-- The first outcome. -/
theorem settle_first {a : Attempt τ} (h : ∀ p ∈ prior, p.start < a.start) :
    ∃ r, settle prior a = some r ∧ Settled prior [a] r := by
  have hnew : (prior.any fun p => p.outranks a) = false := by
    rw [Option.any_eq_false]
    intro p hp
    have := h p hp
    simp [Record.outranks, this.le, this.ne]
  refine ⟨_,by rw [settle, hnew, if_neg Bool.false_ne_true],?_,?_,?_,?_⟩
  · simp
  · cases hok : a.ok <;> simp [hok]
  · cases hok : a.ok <;> simp [hok, fewest, failed, Nat.add_comm]
  · cases hok : a.ok <;> simp [hok, most]

theorem failed_append (t : τ) (as : List (Attempt τ)) (a : Attempt τ) :
    failed t (as ++ [a]) = failed t as+if a.ok = false ∧ a.start = t then 1 else 0 := by
  cases hok : a.ok <;> simp [failed, List.countP_append, List.countP_singleton, hok]

/-- One more outcome that the record outranks. -/
theorem Settled.outranked (h : Settled prior as r) {a : Attempt τ} (ha : r.outranks a = true) :
    Settled prior (as ++ [a]) r := by
  have hcases : a.start < r.start ∨ a.ok = false ∧ r.start = a.start ∧ r.failures = 0 := by
    simpa [Record.outranks, and_assoc] using ha
  have hle : a.start ≤ r.start := hcases.elim le_of_lt fun h => h.2.1.ge
  refine ⟨⟨?_,?_⟩,?_,fun hr => ?_,?_⟩
  · obtain ⟨b,hb,hstart⟩ := h.greatest.1
    exact ⟨b,List.mem_append_left _ hb,hstart⟩
  · rintro t ⟨b,hb,rfl⟩
    obtain hb | hb := List.mem_append.mp hb
    · exact h.greatest.2 ⟨b,hb,rfl⟩
    · rwa [List.mem_singleton.mp hb]
  · rw [h.zero]
    constructor
    · rintro ⟨b,hb,hb'⟩
      exact ⟨b,List.mem_append_left _ hb,hb'⟩
    · rintro ⟨b,hb,hstart,hok⟩
      obtain hb | hb := List.mem_append.mp hb
      · exact ⟨b,hb,hstart,hok⟩
      · obtain rfl := List.mem_singleton.mp hb
        obtain hlt | ⟨hfailed,-⟩ := hcases
        · exact absurd hstart hlt.ne
        · simp [hok] at hfailed
  · obtain hlt | ⟨-,-,hzero⟩ := hcases
    · have hleast := h.least hr
      have hany : as.any Attempt.ok = true → (as ++ [a]).any Attempt.ok = true := by
        simp +contextual
      simp only [fewest, failed_append, hlt.ne, and_false, if_false] at hleast ⊢
      split at hleast
      · rename_i hok
        rwa [if_pos (hany hok)]
      · split <;> omega
    · exact absurd hzero hr
  · have := h.most
    simp only [LatestAttempt.most, List.countP_append] at this ⊢
    omega

/-- One more outcome that the record does not outrank. -/
theorem Settled.replaced (h : Settled prior as r) {a : Attempt τ} (ha : r.outranks a = false) :
    Settled prior (as ++ [a]) ⟨a.start,if a.ok then 0 else r.failures+1⟩ := by
  obtain ⟨hle,hfresh⟩ : r.start ≤ a.start ∧ (a.ok = false → r.start = a.start → r.failures ≠ 0) := by
    simpa [Record.outranks] using ha
  have hsmall : ∀ b ∈ as, b.start ≤ r.start := fun b hb => h.greatest.2 ⟨b,hb,rfl⟩
  refine ⟨⟨?_,?_⟩,?_,fun hr => ?_,?_⟩
  · exact ⟨a,List.mem_append_right _ List.mem_cons_self,rfl⟩
  · rintro t ⟨b,hb,rfl⟩
    obtain hb | hb := List.mem_append.mp hb
    · exact (hsmall b hb).trans hle
    · rw [List.mem_singleton.mp hb]
  · cases hok : a.ok with
    | true => simpa using .inr hok
    | false =>
      simp only [Bool.false_eq_true, if_false, Nat.succ_ne_zero, false_iff]
      rintro ⟨b,hb,hstart,hbok⟩
      obtain hb | hb := List.mem_append.mp hb
      · have heq : r.start = a.start := le_antisymm hle (hstart ▸ hsmall b hb)
        exact hfresh hok heq (h.zero.mpr ⟨b,hb,hstart.trans heq.symm,hbok⟩)
      · rw [List.mem_singleton.mp hb, hok] at hbok
        cases hbok
  · cases hok : a.ok with
    | true => simp [hok] at hr
    | false =>
      have hcount : failed a.start as+(if as.any Attempt.ok then 0 else count prior) ≤ r.failures := by
        by_cases heq : r.start = a.start
        · rw [← heq]
          exact h.least (hfresh hok heq)
        · have hnone : failed a.start as = 0 := by
            refine List.countP_eq_zero.mpr fun b hb => ?_
            have := (hsmall b hb).trans_lt (lt_of_le_of_ne hle heq)
            simp [this.ne]
          rw [hnone, Nat.zero_add]
          by_cases hzero : r.failures = 0
          · obtain ⟨b,hb,-,hbok⟩ := h.zero.mp hzero
            rw [if_pos (List.any_eq_true.mpr ⟨b,hb,hbok⟩)]
            exact Nat.zero_le _
          · exact (Nat.le_add_left _ _).trans (h.least hzero)
      have hany : (as ++ [a]).any Attempt.ok = as.any Attempt.ok := by simp [hok]
      simp only [fewest, failed_append, hok, hany, and_self, if_true, Bool.false_eq_true, if_false]
      omega
  · have := h.most
    simp only [LatestAttempt.most, List.countP_append] at this ⊢
    cases hok : a.ok with
    | true => exact Nat.zero_le _
    | false =>
      simp only [Bool.false_eq_true, if_false, List.countP_singleton, hok, Bool.not_false, if_true]
      omega

theorem Settled.settle (h : Settled prior as r) (a : Attempt τ) :
    ∃ r', settle (some r) a = some r' ∧ Settled prior (as ++ [a]) r' := by
  cases ha : r.outranks a with
  | true => exact ⟨r,by simp [LatestAttempt.settle, ha],h.outranked ha⟩
  | false => exact ⟨_,by simp [LatestAttempt.settle, ha, count],h.replaced ha⟩

/-- All the outcomes of attempts that started after what was on record. -/
theorem settled_foldl (hne : as ≠ []) (h : ∀ a ∈ as, ∀ p ∈ prior, p.start < a.start) :
    ∃ r, as.foldl settle prior = some r ∧ Settled prior as r := by
  induction as using List.reverseRecOn with
  | nil => exact absurd rfl hne
  | append_singleton as a ih =>
    rw [List.foldl_append]
    by_cases hfirst : as = []
    · subst hfirst
      exact settle_first fun p hp => h a List.mem_cons_self p hp
    · obtain ⟨r,hr,hsettled⟩ := ih hfirst fun b hb => h b (List.mem_append_left _ hb)
      rw [hr]
      exact hsettled.settle a

/-- Another order of the same outcomes leaves a record of the same attempt. -/
theorem Settled.agree {r' : Record τ} (h : Settled prior as r) (h' : Settled prior bs r')
    (hperm : bs.Perm as) : r'.start = r.start ∧ (r'.failures = 0 ↔ r.failures = 0) := by
  have h' := h'.perm hperm
  have hstart := h'.greatest.unique h.greatest
  exact ⟨hstart,by rw [h'.zero, h.zero, hstart]⟩

end LatestAttempt
