import Skrepka.Lib.LatestAttempt
import Skrepka.Relay.State

/-! The failures of peers: each call to a peer that returns is written down by its outcome and the time
at which it started, and a peer that has failed is left alone for a while. -/
namespace Skrepka.Relay
open LatestAttempt

structure ForwardFailure where
  server : Text
  failedAt : ℤ
  failures : ℕ
  deriving DecidableEq

structure BackoffConfig where
  retryBackoffBase : ℤ := 30000
  retryBackoffMax : ℤ := 480000

/-- How long a peer is left alone after some failures in a row. -/
def BackoffConfig.delay (cfg : BackoffConfig) (failures : ℕ) : ℤ :=
  min cfg.retryBackoffMax (cfg.retryBackoffBase*failures)

def shouldRetryServer (cfg : BackoffConfig) (server : Text) (t : ℤ) (failures : List ForwardFailure) : Bool :=
  !failures.any fun f => f.server = server && t-f.failedAt < cfg.delay f.failures

/-- A call that started at some time has failed. -/
def recordFailure (server : Text) (attemptAt : ℤ) (failures : List ForwardFailure) : List ForwardFailure :=
  let prev := failures.find? fun f => f.server = server
  let stale := prev.any fun f => f.failedAt > attemptAt || (f.failedAt = attemptAt && f.failures = 0)
  if stale then failures
  else
    let prevCount := (prev.map ForwardFailure.failures).getD 0
    union (failures.filter fun f => f.server ≠ server) [⟨server,attemptAt,prevCount+1⟩]

/-- A call that started at some time has succeeded. -/
def clearFailure (server : Text) (attemptAt : ℤ) (failures : List ForwardFailure) : List ForwardFailure :=
  let stale := failures.any fun f => f.server = server && f.failedAt > attemptAt
  if stale then failures
  else union (failures.filter fun f => f.server ≠ server) [⟨server,attemptAt,0⟩]

/-- A call to a peer, when it started and how it ended. -/
structure PeerCall where
  server : Text
  attemptAt : ℤ
  ok : Bool
  deriving DecidableEq

def returned (failures : List ForwardFailure) (c : PeerCall) : List ForwardFailure :=
  if c.ok then clearFailure c.server c.attemptAt failures else recordFailure c.server c.attemptAt failures

/-- The row of a peer. -/
def rowOf (server : Text) (failures : List ForwardFailure) : List ForwardFailure :=
  failures.filter fun f => f.server = server

def ForwardFailure.record (f : ForwardFailure) : Record ℤ := ⟨f.failedAt,f.failures⟩

def Record.row (server : Text) (r : Record ℤ) : ForwardFailure := ⟨server,r.start,r.failures⟩

def PeerCall.attempt (c : PeerCall) : Attempt ℤ := ⟨c.attemptAt,c.ok⟩

/-- The attempts at a peer among some calls. -/
def attemptsAt (server : Text) (calls : List PeerCall) : List (Attempt ℤ) :=
  (calls.filter fun c => c.server = server).map PeerCall.attempt

theorem rowOf_union (server other : Text) (failures : List ForwardFailure) (t : ℤ) (n : ℕ) :
    rowOf server (union (failures.filter fun f => f.server ≠ other) [⟨other,t,n⟩]) =
      if other = server then [⟨other,t,n⟩] else rowOf server failures := by
  have hnew : (⟨other,t,n⟩ : ForwardFailure) ∉ failures.filter fun f => f.server ≠ other := by simp
  have hunion : union (failures.filter fun f => f.server ≠ other) [⟨other,t,n⟩] =
      (failures.filter fun f => f.server ≠ other) ++ [⟨other,t,n⟩] := by
    simp only [union, List.filter_cons, hnew, not_false_eq_true, decide_true, if_true, List.filter_nil]
  rw [hunion, rowOf, List.filter_append, List.filter_filter]
  by_cases hserver : other = server
  · subst hserver
    simp
  · rw [if_neg hserver, List.filter_cons_of_neg (by simpa using hserver), List.filter_nil, List.append_nil]
    refine List.filter_congr fun f _ => ?_
    by_cases hf : f.server = server
    · simp [hf, Ne.symm hserver]
    · simp [hf]

/-- A call changes the row of its peer only, and that row as an outcome changes a record. -/
theorem returned_row {server : Text} {failures : List ForwardFailure} {prior : Option (Record ℤ)}
    (h : rowOf server failures = (prior.map (Record.row server)).toList) (c : PeerCall) :
    rowOf server (returned failures c) =
      ((if c.server = server then settle prior c.attempt else prior).map (Record.row server)).toList := by
  by_cases hserver : c.server = server
  · subst hserver
    have hprev : failures.find? (fun f => decide (f.server = c.server)) = prior.map (Record.row c.server) := by
      rw [← List.head?_filter]
      change (rowOf c.server failures).head? = _
      rw [h]
      cases prior <;> rfl
    have hany : (failures.any fun f => decide (f.server = c.server) && decide (f.failedAt > c.attemptAt)) =
        prior.any fun r => decide (c.attemptAt < r.start) := by
      rw [← List.any_filter]
      change (rowOf c.server failures).any _ = _
      rw [h]
      cases prior <;> simp [Record.row]
    rw [if_pos rfl]
    cases hok : c.ok with
    | true =>
      simp only [returned, hok, if_true, clearFailure, hany, settle, Record.outranks, PeerCall.attempt,
        Bool.not_true, Bool.false_and, Bool.or_false]
      split
      · exact h
      · rw [rowOf_union, if_pos rfl]
        rfl
    | false =>
      simp only [returned, hok, Bool.false_eq_true, if_false, recordFailure, hprev, settle, Record.outranks,
        PeerCall.attempt]
      have hstale : ((prior.map (Record.row c.server)).any fun f => decide (f.failedAt > c.attemptAt) ||
          (decide (f.failedAt = c.attemptAt) && decide (f.failures = 0))) = prior.any fun r =>
            decide (c.attemptAt < r.start) ||
              (!false && decide (r.start = c.attemptAt) && decide (r.failures = 0)) := by
        cases prior <;> rfl
      rw [hstale]
      split
      · exact h
      · rw [rowOf_union, if_pos rfl]
        cases prior <;> rfl
  · rw [if_neg hserver, ← h]
    simp only [returned, clearFailure, recordFailure]
    split <;> split
    · rfl
    · rw [rowOf_union, if_neg hserver]
    · rfl
    · rw [rowOf_union, if_neg hserver]

/-- The calls that return, in order: the row of a peer comes from the attempts at it. -/
theorem returned_attempts {server : Text} {failures : List ForwardFailure} {prior : Option (Record ℤ)}
    (h : rowOf server failures = (prior.map (Record.row server)).toList) (calls : List PeerCall) :
    rowOf server (calls.foldl returned failures) =
      (((attemptsAt server calls).foldl settle prior).map (Record.row server)).toList := by
  induction calls generalizing failures prior with
  | nil => exact h
  | cons c calls ih =>
    rw [List.foldl_cons, ih (returned_row h c)]
    by_cases hserver : c.server = server <;> simp [attemptsAt, hserver]

theorem shouldRetryServer_row {cfg : BackoffConfig} {server : Text} {failures : List ForwardFailure}
    {f : ForwardFailure} (h : rowOf server failures = [f]) (t : ℤ) :
    shouldRetryServer cfg server t failures = !decide (t-f.failedAt < cfg.delay f.failures) := by
  have hrow : (failures.any fun g => decide (g.server = server) && decide (t-g.failedAt < cfg.delay g.failures)) =
      (rowOf server failures).any fun g => decide (t-g.failedAt < cfg.delay g.failures) :=
    List.any_filter.symm
  rw [shouldRetryServer, hrow, h, List.any_cons, List.any_nil, Bool.or_false]

/-- After some time, a peer is left alone for all of some numbers of failures, or for none. -/
def BackoffConfig.Decided (cfg : BackoffConfig) (lo hi : ℕ) (after : ℤ) : Prop :=
  ∀ k, lo ≤ k → k ≤ hi → (after < cfg.delay k ↔ after < cfg.delay lo)

theorem mem_attemptsAt {server : Text} {calls : List PeerCall} {P : ℤ → Bool → Prop} :
    (∃ a ∈ attemptsAt server calls, P a.start a.ok) ↔
      ∃ c ∈ calls, c.server = server ∧ P c.attemptAt c.ok := by
  simp [attemptsAt, PeerCall.attempt, and_assoc]

theorem rowOf_record {server : Text} {failures : List ForwardFailure} {prior : Option ForwardFailure}
    (h : rowOf server failures = prior.toList) :
    rowOf server failures = ((prior.map ForwardFailure.record).map (Record.row server)).toList := by
  cases prior with
  | none => exact h
  | some f =>
    have hf : f ∈ rowOf server failures := by simp [h]
    obtain rfl : f.server = server := by simpa [rowOf] using (List.mem_filter.mp hf).2
    exact h

/-- Whatever the order in which the calls to a peer return, the call that started last decides, and of
those that started together a success. Only how many failures are counted depends on it, and with
that whether the peer is left alone at a time when not all the counts agree. -/
theorem latest_attempt_wins (cfg : BackoffConfig) {server : Text} {failures : List ForwardFailure}
    {prior : Option ForwardFailure} (hprior : rowOf server failures = prior.toList) {calls : List PeerCall}
    (hsome : ∃ c ∈ calls, c.server = server)
    (hlater : ∀ c ∈ calls, c.server = server → ∀ f ∈ prior, f.failedAt < c.attemptAt) :
    ∃ f, rowOf server (calls.foldl returned failures) = [f] ∧
      IsGreatest {t | ∃ c ∈ calls, c.server = server ∧ c.attemptAt = t} f.failedAt ∧
      (f.failures = 0 ↔ ∃ c ∈ calls, c.server = server ∧ c.attemptAt = f.failedAt ∧ c.ok = true) ∧
      ∀ order : List PeerCall, order.Perm calls → ∃ g, rowOf server (order.foldl returned failures) = [g] ∧
        g.failedAt = f.failedAt ∧ (g.failures = 0 ↔ f.failures = 0) ∧
        ∀ t, cfg.Decided
            (fewest (prior.map ForwardFailure.record) (attemptsAt server calls) f.failedAt)
            (most (prior.map ForwardFailure.record) (attemptsAt server calls)) (t-f.failedAt) →
          shouldRetryServer cfg server t (order.foldl returned failures) =
            shouldRetryServer cfg server t (calls.foldl returned failures) := by
  have hrow := rowOf_record hprior
  have hmine : ∀ order : List PeerCall, order.Perm calls → ∃ r,
      rowOf server (order.foldl returned failures) = [Record.row server r] ∧
      Settled (prior.map ForwardFailure.record) (attemptsAt server calls) r := by
    intro order hperm
    have hattempts : (attemptsAt server order).Perm (attemptsAt server calls) := (hperm.filter _).map _
    have hne : attemptsAt server calls ≠ [] := by
      obtain ⟨c,hc,hserver⟩ := hsome
      exact List.ne_nil_of_mem (List.mem_map_of_mem (List.mem_filter.mpr ⟨hc,decide_eq_true hserver⟩))
    have hstarts : ∀ a ∈ attemptsAt server order, ∀ p ∈ prior.map ForwardFailure.record, p.start < a.start := by
      intro a ha p hp
      obtain ⟨c,hc,rfl⟩ := List.mem_map.mp ha
      obtain ⟨f,hf,rfl⟩ := Option.map_eq_some_iff.mp hp
      obtain ⟨hc,hserver⟩ := List.mem_filter.mp hc
      exact hlater c (hperm.mem_iff.mp hc) (of_decide_eq_true hserver) f hf
    obtain ⟨r,hr,hsettled⟩ := settled_foldl (fun h => hne (List.perm_nil.mp (h ▸ hattempts).symm)) hstarts
    refine ⟨r,?_,hsettled.perm hattempts⟩
    rw [returned_attempts hrow, hr]
    rfl
  obtain ⟨r,hr,hsettled⟩ := hmine calls (.refl calls)
  refine ⟨_,hr,?_,?_,fun order hperm => ?_⟩
  · have hset : {t | ∃ a ∈ attemptsAt server calls, a.start = t} =
        {t | ∃ c ∈ calls, c.server = server ∧ c.attemptAt = t} :=
      Set.ext fun t => mem_attemptsAt (P := fun start _ => start = t)
    exact hset ▸ hsettled.greatest
  · exact hsettled.zero.trans (mem_attemptsAt (P := fun start ok => start = r.start ∧ ok = true))
  · obtain ⟨r',hr',hsettled'⟩ := hmine order hperm
    obtain ⟨hstart,hzero⟩ := hsettled.agree hsettled' (.refl _)
    refine ⟨_,hr',hstart,hzero,fun t ht => ?_⟩
    have hdelay : t-r.start < cfg.delay r'.failures ↔ t-r.start < cfg.delay r.failures := by
      by_cases hr0 : r.failures = 0
      · rw [hr0, hzero.mpr hr0]
      · have hleast' := hsettled'.least fun h => hr0 (hzero.mp h)
        rw [hstart] at hleast'
        exact (ht _ hleast' hsettled'.most).trans (ht _ (hsettled.least hr0) hsettled.most).symm
    rw [shouldRetryServer_row hr', shouldRetryServer_row hr]
    refine congrArg not (decide_eq_decide.mpr ?_)
    change t-r'.start < _ ↔ _
    rw [hstart]
    exact hdelay

/-- Two calls to a peer fail, and the one that started first returns last. -/
def sampleCalls : List PeerCall := [⟨"peer.example".toList,1,false⟩,⟨"peer.example".toList,2,false⟩]

theorem latest_attempt_wins_two :
    ∃ f, rowOf "peer.example".toList (sampleCalls.foldl returned []) = [f] ∧
      IsGreatest {t | ∃ c ∈ sampleCalls, c.server = "peer.example".toList ∧ c.attemptAt = t} f.failedAt ∧
      (f.failures = 0 ↔
        ∃ c ∈ sampleCalls, c.server = "peer.example".toList ∧ c.attemptAt = f.failedAt ∧ c.ok = true) := by
  obtain ⟨f,hrow,hgreatest,hzero,-⟩ := @latest_attempt_wins {} "peer.example".toList [] none rfl sampleCalls
    ⟨_,List.mem_cons_self,rfl⟩ (by simp)
  exact ⟨f,hrow,hgreatest,hzero⟩

/-- Two failures that return in the order in which they started count twice, and a peer that is left alone
then would be called again after the other order. -/
theorem order_decides_backoff : sampleCalls.reverse.Perm sampleCalls ∧
    shouldRetryServer {} "peer.example".toList 40002 (sampleCalls.foldl returned []) = false ∧
    shouldRetryServer {} "peer.example".toList 40002 (sampleCalls.reverse.foldl returned []) = true := by
  decide

end Skrepka.Relay
