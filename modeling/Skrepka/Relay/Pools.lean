import Skrepka.Lib.Cutoff
import Skrepka.Relay.Auth

/-! The pools of challenges and sessions: they stay within their caps, and a newcomer stays unless too
many rows expire after it. -/
namespace Skrepka.Relay
open Sequenced

section
variable {α : Type} (expiresAt : α → ℤ) (key : α → Text)

/-- The rows that expire after some time. -/
def outliving (t : ℤ) (items : List α) : ℕ := items.countP fun x => t < expiresAt x

/-- The same, where only so many of the rows of one key are counted. -/
def outlivingCapped (pubkey : Text) (room t : ℤ) (items : List α) : ℤ :=
  outliving expiresAt t (items.filter fun x => !(key x = pubkey))+
    min room (outliving expiresAt t (items.filter fun x => key x = pubkey))

/-- A pool within its caps. -/
structure Pool (maxN perKey : ℤ) (items : List α) : Prop where
  total : (items.length : ℤ) ≤ maxN
  keys : ∀ pubkey, (items.countP (fun x => key x = pubkey) : ℤ) ≤ perKey

theorem length_capSoonest (items : List α) {n : ℤ} (hn : 0 ≤ n) :
    ((capSoonest expiresAt items n).length : ℤ) = min n items.length := by
  rw [capSoonest, List.length_drop, length_sortBy]
  omega

theorem outliving_capSoonest (items : List α) {n : ℤ} (hn : 0 ≤ n) (t : ℤ) :
    (outliving expiresAt t (capSoonest expiresAt items n) : ℤ) = min n (outliving expiresAt t items) := by
  have hsorted : (sortBy expiresAt items).Pairwise fun a b =>
      decide (t < expiresAt a) = true → decide (t < expiresAt b) = true := by
    refine (sortBy_le expiresAt items).imp fun {a b} hle => ?_
    simp only [decide_eq_true_eq]
    omega
  have hperm := (sortBy_perm expiresAt items).countP_eq fun x => decide (t < expiresAt x)
  have hle := List.countP_le_length (p := fun x => decide (t < expiresAt x)) (l := items)
  rw [outliving, capSoonest, Cutoff.countP_drop hsorted, hperm, length_sortBy, outliving]
  omega

/-- A newcomer stays exactly if there is room for it and for what outlives it. -/
theorem newcomer_stays_iff [DecidableEq α] {items : List α} {new : α} {n : ℤ}
    (hlen : (items.length : ℤ) ≤ n) :
    new ∈ capSoonest expiresAt (union items [new]) n ↔
      (outliving expiresAt (expiresAt new) items : ℤ) < n := by
  by_cases hin : new ∈ items
  · have hunion : union items [new] = items := by simp [union, hin]
    have hzero : (max 0 ((items.length : ℤ)-n)).toNat = 0 := by omega
    have hnot : 0 < items.countP fun x => ¬ (decide (expiresAt new < expiresAt x) = true) :=
      List.countP_pos_iff.mpr ⟨new,hin,by simp⟩
    have hsplit := List.length_eq_countP_add_countP (fun x => decide (expiresAt new < expiresAt x))
      (l := items)
    rw [hunion, capSoonest, hzero, List.drop_zero, mem_sortBy, outliving]
    refine iff_of_true hin ?_
    omega
  · have hunion : union items [new] = items ++ [new] := by simp [union, hin]
    have hnot : (items.countP fun x => decide (expiresAt x ≤ expiresAt new)) =
        items.countP fun x => ¬ (decide (expiresAt new < expiresAt x) = true) :=
      List.countP_congr fun x _ => by simp
    have hsplit := List.length_eq_countP_add_countP (fun x => decide (expiresAt new < expiresAt x))
      (l := items)
    have : Std.Total fun a b : α => expiresAt a ≤ expiresAt b := ⟨fun a b => le_total _ _⟩
    have : IsTrans α fun a b => expiresAt a ≤ expiresAt b := ⟨fun a b c => le_trans⟩
    rw [hunion, capSoonest, sortBy, Cutoff.mem_drop_iff, hnot, outliving, List.length_append,
      List.length_singleton]
    omega

variable {expiresAt key}

theorem Pool.of_subperm {items items' : List α} {maxN perKey : ℤ} (h : Pool key maxN perKey items)
    (hsub : items'.Subperm items) : Pool key maxN perKey items' := by
  refine ⟨?_,fun pubkey => ?_⟩
  · have := hsub.length_le
    have := h.total
    omega
  · have := hsub.countP_le fun x => decide (key x = pubkey)
    have := h.keys pubkey
    omega

/-- A newcomer for whose key there is room. -/
theorem Pool.enter [DecidableEq α] {items pruned : List α} {new : α} {maxN perKey : ℤ}
    (h : Pool key maxN perKey items) (hmax : 0 ≤ maxN) (hsub : pruned.Subperm items)
    (hroom : (pruned.countP (fun x => key x = key new) : ℤ)+1 ≤ perKey) :
    Pool key maxN perKey (capSoonest expiresAt (union pruned [new]) maxN) := by
  refine ⟨?_,fun pubkey => ?_⟩
  · rw [length_capSoonest _ _ hmax]
    exact min_le_left _ _
  · have hall := ((capSoonest_subperm expiresAt (union pruned [new]) maxN).trans
      (union_sublist _ _).subperm).countP_le fun x => decide (key x = pubkey)
    rw [List.countP_append, List.countP_singleton] at hall
    by_cases hkey : key new = pubkey
    · subst hkey
      simp only [decide_true, if_true] at hall
      omega
    · have := (h.of_subperm hsub).keys pubkey
      simp only [hkey, decide_false, Bool.false_eq_true, if_false] at hall
      omega

section
variable [DecidableEq α] (items : List α) (pubkey : Text) {n : ℤ}

theorem capPerKey_eq : capPerKey expiresAt key items pubkey n = (items.filter fun x => !(key x = pubkey)) ++
    capSoonest expiresAt (items.filter fun x => key x = pubkey) (n-1) := by
  have hother : ∀ x ∈ capSoonest expiresAt (items.filter fun x => key x = pubkey) (n-1),
      x ∉ items.filter fun x => !(key x = pubkey) := by
    intro x hx hx'
    have hx := (List.mem_filter.mp ((capSoonest_subperm _ _ _).subset hx)).2
    have hx' := (List.mem_filter.mp hx').2
    rw [hx] at hx'
    exact absurd hx' (by decide)
  have hall := List.filter_eq_self.mpr fun x hx => decide_eq_true (hother x hx)
  rw [capPerKey, union, hall]

theorem outliving_capPerKey (hn : 1 ≤ n) (t : ℤ) :
    (outliving expiresAt t (capPerKey expiresAt key items pubkey n) : ℤ) =
      outlivingCapped expiresAt key pubkey (n-1) t items := by
  have hcap := outliving_capSoonest expiresAt (items.filter fun x => key x = pubkey) (n := n-1) (by omega) t
  rw [capPerKey_eq, outlivingCapped, ← hcap, outliving, List.countP_append]
  exact Nat.cast_add _ _

theorem countP_capPerKey (hn : 1 ≤ n) :
    ((capPerKey expiresAt key items pubkey n).countP (fun x => key x = pubkey) : ℤ)+1 ≤ n := by
  have hnone : (items.filter fun x => !(key x = pubkey)).countP (fun x => key x = pubkey) = 0 :=
    List.countP_eq_zero.mpr fun x hx => by simpa using (List.mem_filter.mp hx).2
  have hlen := length_capSoonest expiresAt (items.filter fun x => key x = pubkey) (n := n-1) (by omega)
  have := List.countP_le_length (p := fun x => decide (key x = pubkey))
    (l := capSoonest expiresAt (items.filter fun x => key x = pubkey) (n-1))
  rw [capPerKey_eq, List.countP_append, hnone]
  omega

end
end

namespace Auth

variable (rt : Runtime) (cfg : AuthConfig)

structure Bounded (s : Auth) : Prop where
  challenges : Pool Challenge.pubkey cfg.maxChallenges cfg.maxChallengesPerKey s.challenges
  sessions : Pool Session.pubkey cfg.maxSessions cfg.maxSessionsPerKey s.sessions

/-- What a request returns to its caller is in its pool. -/
def Returned (s s' : Auth) : Act → Prop
  | .challenge pubkey clientIp t challenge => ⟨pubkey,challenge,t+cfg.challengeExpiry,clientIp⟩ ∈ s'.challenges
  | .install n => ∀ v ∈ s.verified[n]?, (v.redeems s.challenges).isSome → v.session cfg ∈ s'.sessions
  | _ => True

def Keeps (s : Auth) (act : Act) : Prop := ∀ s' ∈ step rt cfg s act, Bounded cfg s' ∧ Returned cfg s s' act

/-- The rows that expire after the newcomer of a request leave room for it: those of other keys, and as
many of its own key's as are let stay. -/
def HasPlace (s : Auth) : Act → Prop
  | .challenge pubkey _ t _ =>
    outlivingCapped Challenge.expiresAt Challenge.pubkey pubkey (cfg.maxChallengesPerKey-1)
      (t+cfg.challengeExpiry) (s.challenges.filter fun c => c.expiresAt > t) < cfg.maxChallenges
  | .install n => ∀ v ∈ s.verified[n]?, (v.redeems s.challenges).isSome →
    outlivingCapped Session.expiresAt Session.pubkey v.pubkey
      (if v.revokeOthers then 0 else cfg.maxSessionsPerKey-1) (v.t+cfg.sessionExpiry) s.sessions <
        cfg.maxSessions
  | _ => True

instance (s : Auth) : (act : Act) → Decidable (HasPlace cfg s act)
  | .challenge _ _ _ _ => inferInstanceAs (Decidable (_ < _))
  | .install n => inferInstanceAs (Decidable (∀ v ∈ s.verified[n]?, _))
  | .check _ | .verify _ | .prune _ | .commit _ => inferInstanceAs (Decidable True)

/-- The caps of a pool and of a key in it. -/
structure Capped : Prop where
  challenges : 0 ≤ cfg.maxChallenges
  sessions : 0 ≤ cfg.maxSessions
  challengesPerKey : 1 ≤ cfg.maxChallengesPerKey
  sessionsPerKey : 1 ≤ cfg.maxSessionsPerKey

variable {rt cfg}

theorem Bounded.handleChallenge {s : Auth} (h : Bounded cfg s) (hcap : Capped cfg) (pubkey clientIp : Text)
    (t : ℤ) (challenge : Text) : Bounded cfg (s.handleChallenge cfg pubkey clientIp t challenge) := by
  refine ⟨h.challenges.enter hcap.challenges ?_ ?_,h.sessions⟩
  · exact (capPerKey_subperm _ _ _ _ _).trans List.filter_sublist.subperm
  · exact countP_capPerKey _ _ hcap.challengesPerKey

theorem challenge_stays_iff {s : Auth} (h : Bounded cfg s) (hcap : Capped cfg) (pubkey clientIp : Text)
    (t : ℤ) (challenge : Text) :
    Returned cfg s (s.handleChallenge cfg pubkey clientIp t challenge)
        (.challenge pubkey clientIp t challenge) ↔
      HasPlace cfg s (.challenge pubkey clientIp t challenge) := by
  have hsub : (capPerKey Challenge.expiresAt Challenge.pubkey (s.challenges.filter fun c => c.expiresAt > t)
      pubkey cfg.maxChallengesPerKey).Subperm s.challenges :=
    (capPerKey_subperm _ _ _ _ _).trans List.filter_sublist.subperm
  simp only [Returned, HasPlace, Auth.handleChallenge]
  rw [newcomer_stays_iff Challenge.expiresAt (h.challenges.of_subperm hsub).total,
    outliving_capPerKey _ _ hcap.challengesPerKey]

/-- The sessions that an installation leaves room among. -/
def pruned (cfg : AuthConfig) (v : VerifyAuth) (sessions : List Session) : List Session :=
  if v.revokeOthers then sessions.filter fun x => x.pubkey ≠ v.pubkey
  else capPerKey Session.expiresAt Session.pubkey sessions v.pubkey cfg.maxSessionsPerKey

theorem pruned_subperm (v : VerifyAuth) (sessions : List Session) :
    (pruned cfg v sessions).Subperm sessions := by
  unfold pruned
  split
  · exact List.filter_sublist.subperm
  · exact capPerKey_subperm _ _ _ _ _

theorem countP_pruned (hcap : Capped cfg) (v : VerifyAuth) (sessions : List Session) :
    ((pruned cfg v sessions).countP (fun x => x.pubkey = v.pubkey) : ℤ)+1 ≤ cfg.maxSessionsPerKey := by
  unfold pruned
  split
  · have hnone : (sessions.filter fun x => x.pubkey ≠ v.pubkey).countP (fun x => x.pubkey = v.pubkey) = 0 :=
      List.countP_eq_zero.mpr fun x hx => by simpa using (List.mem_filter.mp hx).2
    have := hcap.sessionsPerKey
    rw [hnone]
    omega
  · exact countP_capPerKey _ _ hcap.sessionsPerKey

theorem outliving_pruned (hcap : Capped cfg) (v : VerifyAuth) (sessions : List Session) (t : ℤ) :
    (outliving Session.expiresAt t (pruned cfg v sessions) : ℤ) =
      outlivingCapped Session.expiresAt Session.pubkey v.pubkey
        (if v.revokeOthers then 0 else cfg.maxSessionsPerKey-1) t sessions := by
  unfold pruned
  split
  · have hothers : (sessions.filter fun x => decide (x.pubkey ≠ v.pubkey)) =
        sessions.filter fun x => !decide (x.pubkey = v.pubkey) := by
      simp only [ne_eq, decide_not]
    rw [outlivingCapped, hothers]
    omega
  · exact outliving_capPerKey _ _ hcap.sessionsPerKey t

theorem install_some {v : VerifyAuth} {s : Auth} (h : (v.redeems s.challenges).isSome) :
    (install cfg v s).sessions =
      capSoonest Session.expiresAt (union (pruned cfg v s.sessions) [v.session cfg]) cfg.maxSessions := by
  obtain ⟨c,hc⟩ := Option.isSome_iff_exists.mp h
  simp only [install, hc]
  rfl

theorem Bounded.install {s : Auth} (h : Bounded cfg s) (hcap : Capped cfg) (v : VerifyAuth) :
    Bounded cfg (install cfg v s) := by
  cases hc : v.redeems s.challenges with
  | none =>
    have hsame : Auth.install cfg v s = s := by simp only [Auth.install, hc]
    rw [hsame]
    exact h
  | some c =>
    refine ⟨h.challenges.of_subperm ((List.sublist_cons_self _ _).subperm.trans (install_challenges hc)),?_⟩
    rw [install_some (Option.isSome_iff_exists.mpr ⟨c,hc⟩)]
    exact h.sessions.enter hcap.sessions (pruned_subperm v _) (countP_pruned hcap v _)

theorem session_stays_iff {s : Auth} (h : Bounded cfg s) (hcap : Capped cfg) {v : VerifyAuth}
    (hredeems : (v.redeems s.challenges).isSome) :
    v.session cfg ∈ (Auth.install cfg v s).sessions ↔
      outlivingCapped Session.expiresAt Session.pubkey v.pubkey
        (if v.revokeOthers then 0 else cfg.maxSessionsPerKey-1) (v.t+cfg.sessionExpiry) s.sessions <
          cfg.maxSessions := by
  rw [install_some hredeems, newcomer_stays_iff Session.expiresAt
    (h.sessions.of_subperm (pruned_subperm v _)).total, outliving_pruned hcap]
  rfl

theorem Bounded.step {s s' : Auth} {act : Act} (h : Bounded cfg s) (hcap : Capped cfg)
    (hstep : step rt cfg s act = some s') : Bounded cfg s' := by
  cases act with
  | challenge pubkey clientIp t challenge =>
    obtain rfl := Option.some.inj hstep
    exact h.handleChallenge hcap pubkey clientIp t challenge
  | check v =>
    obtain rfl := Option.some.inj hstep
    split <;> exact ⟨h.challenges,h.sessions⟩
  | verify n =>
    obtain ⟨v,-,rfl⟩ := Option.map_eq_some_iff.mp hstep
    exact ⟨h.challenges,h.sessions⟩
  | install n =>
    obtain ⟨v,-,rfl⟩ := Option.map_eq_some_iff.mp hstep
    exact Bounded.install (s := { s with verified := s.verified.eraseIdx n }) ⟨h.challenges,h.sessions⟩ hcap v
  | prune t =>
    obtain rfl := Option.some.inj hstep
    exact ⟨h.challenges.of_subperm List.filter_sublist.subperm,
      h.sessions.of_subperm List.filter_sublist.subperm⟩
  | commit txn =>
    obtain rfl := Option.some.inj hstep
    exact ⟨h.challenges,h.sessions⟩

theorem keeps_iff {s : Auth} (h : Bounded cfg s) (hcap : Capped cfg) (act : Act) :
    Keeps rt cfg s act ↔ HasPlace cfg s act := by
  have hreturned : Keeps rt cfg s act ↔ ∀ s' ∈ step rt cfg s act, Returned cfg s s' act :=
    forall₂_congr fun s' hs' => and_iff_right (h.step hcap hs')
  rw [hreturned]
  cases act with
  | challenge pubkey clientIp t challenge =>
    rw [← challenge_stays_iff h hcap pubkey clientIp t challenge]
    exact ⟨fun hall => hall _ rfl,fun hstays s' hs' => Option.some.inj hs' ▸ hstays⟩
  | install n =>
    cases hv : s.verified[n]? with
    | none => simp [step, HasPlace, hv]
    | some v =>
      have hleft : Bounded cfg { s with verified := s.verified.eraseIdx n } := ⟨h.challenges,h.sessions⟩
      have hstep : step rt cfg s (.install n) = some (Auth.install cfg v
          { s with verified := s.verified.eraseIdx n }) := by rw [step, hv]; rfl
      simp only [hstep, Option.mem_some_iff, forall_eq', Returned, HasPlace, hv]
      exact forall_congr' fun hredeems => session_stays_iff hleft hcap hredeems
  | check | verify | prune | commit => simp [Returned, HasPlace]

variable (rt cfg) in
/-- In every run the pools are within their caps, and each request's newcomer is in its pool when the
request commits exactly if each finds room among the rows that expire after it. -/
theorem newcomers_stay (hcap : Capped cfg) (acts : List Act) :
    (∀ s, Lts.run (step rt cfg) {} acts = some s → Bounded cfg s) ∧
      (Lts.Along (step rt cfg) (Keeps rt cfg) {} acts ↔
        Lts.Along (step rt cfg) (HasPlace cfg) {} acts) := by
  have hempty : Bounded cfg {} := by
    have := hcap.challengesPerKey
    have := hcap.sessionsPerKey
    refine ⟨⟨hcap.challenges,fun _ => ?_⟩,⟨hcap.sessions,fun _ => ?_⟩⟩
    · change (0 : ℤ) ≤ _
      omega
    · change (0 : ℤ) ≤ _
      omega
  exact ⟨fun s hrun => Lts.run_invariant (step rt cfg) (I := Bounded cfg)
      (fun s act s' h hstep => h.step hcap hstep) hempty hrun,
    Lts.along_congr (step rt cfg) (I := Bounded cfg) (fun s act s' h hstep => h.step hcap hstep)
      (fun s act h => keeps_iff h hcap act) hempty acts⟩

/-- A challenge is issued and buys a session, and both are in their pools when they are returned. -/
theorem newcomers_stay_bought : ∃ s,
    Lts.run (step sampleRuntime {}) {} [.challenge (sampleKey 'a') "1.2.3.4".toList 0 ['c'],
      .check (sampleVerify "1.2.3.4" false),.verify 0,.install 0] = some s ∧ s.sessions.length = 1 ∧
    Bounded {} s ∧ Lts.Along (step sampleRuntime {}) (Keeps sampleRuntime {}) {}
      [.challenge (sampleKey 'a') "1.2.3.4".toList 0 ['c'],.check (sampleVerify "1.2.3.4" false),.verify 0,
        .install 0] := by
  obtain ⟨hbounded,hkeeps⟩ := newcomers_stay sampleRuntime {}
    ⟨by decide,by decide,by decide,by decide⟩ [.challenge (sampleKey 'a') "1.2.3.4".toList 0 ['c'],
      .check (sampleVerify "1.2.3.4" false),.verify 0,.install 0]
  exact ⟨_,rfl,by decide,hbounded _ rfl,hkeeps.mpr (by decide)⟩

/-- The handler that reads the clock last commits first, and the challenge of the other one gives way to
its own. -/
theorem newcomer_evicted : ∃ s,
    Lts.run (step sampleRuntime { maxChallenges := 1 }) {} [.challenge (sampleKey 'a') [] 10 ['c'],
      .challenge (sampleKey 'b') [] 5 ['d']] = some s ∧
    s.challenges = [⟨sampleKey 'a',['c'],60010,[]⟩] ∧
    ¬ Lts.Along (step sampleRuntime { maxChallenges := 1 }) (Keeps sampleRuntime { maxChallenges := 1 }) {}
      [.challenge (sampleKey 'a') [] 10 ['c'],.challenge (sampleKey 'b') [] 5 ['d']] := by
  refine ⟨_,rfl,by decide,fun h => ?_⟩
  have hreturned := ((h.2 _ rfl).1 _ rfl).2
  have hgone : (⟨sampleKey 'b',['d'],60005,[]⟩ : Challenge) ∉
      (Auth.handleChallenge { maxChallenges := 1 } (sampleKey 'b') [] 5 ['d']
        (Auth.handleChallenge { maxChallenges := 1 } (sampleKey 'a') [] 10 ['c'] {})).challenges := by
    decide
  exact hgone hreturned

end Auth
end Skrepka.Relay
