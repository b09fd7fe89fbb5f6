import Mathlib.Data.List.Perm.Subperm
import Skrepka.Relay.Gossip

/-! Challenges and sessions: a key proves itself by the signature of a challenge, which buys it one
session. The check of a challenge, the check of its signature and the installation of the session are
three steps, between which anything may happen. -/
namespace Skrepka.Relay
open Sequenced

structure Challenge where
  pubkey : Text
  challenge : Text
  expiresAt : ℤ
  ip : Text
  deriving DecidableEq

structure Session where
  token : Text
  pubkey : Text
  expiresAt : ℤ
  ip : Text
  deriving DecidableEq

structure AuthConfig extends Config where
  challengeExpiry : ℤ := 60000
  maxChallenges : ℤ := 10000
  maxChallengesPerKey : ℤ := 5
  maxSessions : ℤ := 10000
  maxSessionsPerKey : ℤ := 10

/-- What the runtime has for bytes and signatures. -/
structure Runtime where
  bytesFromHex : Text → Option (List UInt8)
  textToBytes : Text → List UInt8
  verify : List UInt8 → List UInt8 → List UInt8 → Bool

/-- A request to verify, with the clock reading and the token that its handler starts with. -/
structure VerifyAuth where
  pubkey : Text
  challenge : Text
  signature : Text
  revokeOthers : Bool
  clientIp : Text
  t : ℤ
  token : Text
  deriving DecidableEq

/-- A relay with its challenges and sessions, and the requests to verify that have passed the first
and the second phase. -/
structure Auth where
  relay : State := {}
  challenges : List Challenge := []
  sessions : List Session := []
  checked : List VerifyAuth := []
  verified : List VerifyAuth := []

section
variable {α : Type} (expiresAt : α → ℤ)

/-- Drop the rows that expire soonest. -/
def capSoonest (items : List α) (maxN : ℤ) : List α :=
  (sortBy expiresAt items).drop (max 0 (items.length-maxN)).toNat

/-- Make room for one more row of a key. -/
def capPerKey [DecidableEq α] (key : α → Text) (items : List α) (pubkey : Text) (maxN : ℤ) : List α :=
  union (items.filter fun x => !(key x = pubkey))
    (capSoonest expiresAt (items.filter fun x => key x = pubkey) (maxN-1))

theorem capSoonest_subperm (items : List α) (n : ℤ) : (capSoonest expiresAt items n).Subperm items :=
  drop_sortBy_subperm _ _ _

theorem capPerKey_subperm [DecidableEq α] (key : α → Text) (items : List α) (pubkey : Text) (n : ℤ) :
    (capPerKey expiresAt key items pubkey n).Subperm items := by
  have hcap := capSoonest_subperm expiresAt (items.filter fun x => key x = pubkey) (n-1)
  have hsplit : ((items.filter fun x => !(key x = pubkey)) ++
      items.filter fun x => key x = pubkey).Perm items :=
    List.perm_append_comm.trans (List.filter_append_perm (fun x => decide (key x = pubkey)) items)
  refine (union_sublist _ _).subperm.trans (List.Subperm.trans ?_ hsplit.subperm)
  exact (List.subperm_append_left _).mpr hcap

end

def throughBracket : Text → Text
  | [] => []
  | a :: s => if a = ']' then [']'] else a :: throughBracket s

/-- The host name that a signature commits to. -/
def authHost (s : Text) : Text := if s.take 1 = ['['] then throughBracket s else beforeColon s

/-- A row without an address binds nobody. -/
def matchIp (clientIp sessionIp : Text) : Bool := sessionIp = [] || clientIp = sessionIp

variable (rt : Runtime) (cfg : AuthConfig)

def signedText (challenge : Text) : Text :=
  "skrepka-auth-v1:".toList ++ authHost cfg.serverHost ++ ":".toList ++ challenge

/-- The signature of a challenge is that of its key. -/
def sigValid (pubkey challenge signature : Text) : Bool :=
  match rt.bytesFromHex pubkey, rt.bytesFromHex signature with
  | some pk, some sigBytes => rt.verify pk (rt.textToBytes (signedText cfg challenge)) sigBytes
  | _, _ => false

namespace VerifyAuth

def same (v : VerifyAuth) (c : Challenge) : Bool := c.pubkey = v.pubkey && c.challenge = v.challenge

/-- The challenge that a request can redeem. -/
def redeems (v : VerifyAuth) (ch : List Challenge) : Option Challenge :=
  (ch.find? v.same).filter fun c => c.expiresAt > v.t && matchIp v.clientIp c.ip

def session (v : VerifyAuth) : Session := ⟨v.token,v.pubkey,v.t+cfg.sessionExpiry,v.clientIp⟩

end VerifyAuth

/-- The key that a bearer token stands for. -/
def authedPubkey (authorization : Text) (t : ℤ) (clientIp : Text) (ses : List Session) : Option Text :=
  if !hasPrefix "Bearer " authorization then none
  else
    let token := authorization.drop 7
    (ses.find? fun s => s.expiresAt > t && s.token = token && matchIp clientIp s.ip).map Session.pubkey

namespace Auth

def handleChallenge (pubkey clientIp : Text) (t : ℤ) (challenge : Text) (s : Auth) : Auth :=
  let cappedActive := capPerKey Challenge.expiresAt Challenge.pubkey
    (s.challenges.filter fun c => c.expiresAt > t) pubkey cfg.maxChallengesPerKey
  { s with
    challenges := capSoonest Challenge.expiresAt
      (union cappedActive [⟨pubkey,challenge,t+cfg.challengeExpiry,clientIp⟩]) cfg.maxChallenges }

/-- The third phase: look for the challenge again, consume it and install the session. -/
def install (v : VerifyAuth) (s : Auth) : Auth :=
  match v.redeems s.challenges with
  | none => s
  | some _ =>
    let pruned := if v.revokeOthers then s.sessions.filter fun x => x.pubkey ≠ v.pubkey
      else capPerKey Session.expiresAt Session.pubkey s.sessions v.pubkey cfg.maxSessionsPerKey
    { s with
      challenges := if v.revokeOthers then s.challenges.filter fun x => !(x.pubkey = v.pubkey)
        else s.challenges.filter fun x => !v.same x
      sessions := capSoonest Session.expiresAt (union pruned [v.session cfg]) cfg.maxSessions
      relay := refreshLocalPresence cfg.toConfig v.pubkey (v.t+cfg.sessionExpiry) s.relay }

def prune (t : ℤ) (s : Auth) : Auth :=
  { s with
    challenges := s.challenges.filter fun x => x.expiresAt > t
    sessions := s.sessions.filter fun x => x.expiresAt > t
    relay := pruneExpired cfg.toConfig t s.relay }

inductive Act
  | challenge (pubkey clientIp : Text) (t : ℤ) (challenge : Text)
  | check (v : VerifyAuth)
  | verify (n : ℕ)
  | install (n : ℕ)
  | prune (t : ℤ)
  | commit (txn : Txn)

def step (s : Auth) : Act → Option Auth
  | .challenge pubkey clientIp t challenge => some (s.handleChallenge cfg pubkey clientIp t challenge)
  | .check v => some (if (v.redeems s.challenges).isSome then { s with checked := s.checked ++ [v] } else s)
  | .verify n => s.checked[n]?.map fun v =>
    { s with
      checked := s.checked.eraseIdx n
      verified := if sigValid rt cfg v.pubkey v.challenge v.signature then s.verified ++ [v]
        else s.verified }
  | .install n => s.verified[n]?.map fun v =>
    install cfg v { s with verified := s.verified.eraseIdx n }
  | .prune t => some (s.prune cfg t)
  | .commit txn => some { s with relay := Relay.commit cfg.toConfig s.relay txn }

/-- A session, as the request that has installed it and the challenge that it redeemed. -/
structure Redemption where
  challenge : Challenge
  request : VerifyAuth

/-- What an observer has seen issued and redeemed. -/
structure Log where
  issued : List Challenge := []
  redeemed : List Redemption := []

/-- What a step redeems. -/
def redemption (s : Auth) : Act → Option Redemption
  | .install n => s.verified[n]?.bind fun v => (v.redeems s.challenges).map fun c => ⟨c,v⟩
  | _ => none

def noteAuth (s : Auth) (act : Act) (_ : Auth) (log : Log) : Log where
  issued := log.issued ++ (match act with
    | .challenge pubkey clientIp t challenge => [⟨pubkey,challenge,t+cfg.challengeExpiry,clientIp⟩]
    | _ => [])
  redeemed := log.redeemed ++ (redemption s act).toList

variable {rt cfg}

theorem redeems_eq_some {v : VerifyAuth} {ch : List Challenge} {c : Challenge} (h : v.redeems ch = some c) :
    c ∈ ch ∧ v.same c = true ∧ matchIp v.clientIp c.ip = true := by
  obtain ⟨hfind,hlive⟩ := Option.filter_eq_some_iff.mp h
  rw [Bool.and_eq_true] at hlive
  exact ⟨List.mem_of_find?_eq_some hfind,List.find?_some hfind,hlive.2⟩

/-- An installation consumes the challenge that it redeems. -/
theorem install_challenges {v : VerifyAuth} {s : Auth} {c : Challenge}
    (h : v.redeems s.challenges = some c) : (c :: (install cfg v s).challenges).Subperm s.challenges := by
  obtain ⟨hmem,hsame,-⟩ := redeems_eq_some h
  have hkey : c.pubkey = v.pubkey := by
    simp only [VerifyAuth.same, Bool.and_eq_true, decide_eq_true_eq] at hsame
    exact hsame.1
  simp only [install, h]
  split
  · refine List.cons_subperm_of_not_mem_of_mem (fun hin => ?_) hmem List.filter_sublist.subperm
    simpa [hkey] using (List.mem_filter.mp hin).2
  · refine List.cons_subperm_of_not_mem_of_mem (fun hin => ?_) hmem List.filter_sublist.subperm
    simpa [hsame] using (List.mem_filter.mp hin).2

variable (cfg) in
theorem install_sessions (v : VerifyAuth) (s : Auth) :
    (install cfg v s).sessions.Subperm (s.sessions ++ ((v.redeems s.challenges).map fun _ =>
      v.session cfg).toList) := by
  cases h : v.redeems s.challenges with
  | none => simp [install, h, List.Subperm.refl]
  | some c =>
    simp only [install, h, Option.map_some, Option.toList_some]
    refine (capSoonest_subperm _ _ _).trans ((union_sublist _ _).subperm.trans ?_)
    refine (List.subperm_append_right _).mpr ?_
    split
    · exact List.filter_sublist.subperm
    · exact capPerKey_subperm _ _ _ _ _

/-- An installation that revokes leaves its own session at most, and no challenge. -/
theorem install_revokes {v : VerifyAuth} {s : Auth} (h : (v.redeems s.challenges).isSome)
    (hrevoke : v.revokeOthers = true) :
    (install cfg v s).challenges.filter (fun c => c.pubkey = v.pubkey) = [] ∧
      ((install cfg v s).sessions.filter fun x => x.pubkey = v.pubkey).Subperm [v.session cfg] := by
  obtain ⟨c,hc⟩ := Option.isSome_iff_exists.mp h
  simp only [install, hc, hrevoke, if_true]
  constructor
  · simp
  · have hcap := (capSoonest_subperm Session.expiresAt (union (s.sessions.filter fun x =>
      x.pubkey ≠ v.pubkey) [v.session cfg]) cfg.maxSessions).trans (union_sublist _ _).subperm
    have hkey := hcap.filter fun x => decide (x.pubkey = v.pubkey)
    rw [List.filter_append, List.filter_filter] at hkey
    have hnone : (s.sessions.filter fun x => decide (x.pubkey = v.pubkey) && decide (x.pubkey ≠ v.pubkey)) =
        [] := by simp
    rw [hnone, List.nil_append] at hkey
    exact hkey.trans List.filter_sublist.subperm

variable (cfg) in
theorem handleChallenge_challenges (pubkey clientIp : Text) (t : ℤ) (challenge : Text) (s : Auth) :
    (s.handleChallenge cfg pubkey clientIp t challenge).challenges.Subperm
      (s.challenges ++ [⟨pubkey,challenge,t+cfg.challengeExpiry,clientIp⟩]) := by
  refine (capSoonest_subperm _ _ _).trans ((union_sublist _ _).subperm.trans ?_)
  refine (List.subperm_append_right _).mpr ?_
  exact (capPerKey_subperm _ _ _ _ _).trans List.filter_sublist.subperm

variable (cfg) in
/-- Since some state, each challenge was redeemed at most once for each time it was issued, and each
session was bought with a challenge. -/
structure Once (base s : Auth) (log : Log) : Prop where
  challenges : (log.redeemed.map Redemption.challenge ++ s.challenges).Subperm
    (log.issued ++ base.challenges)
  sessions : s.sessions.Subperm
    ((log.redeemed.map fun r => r.request.session cfg) ++ base.sessions)

variable (rt cfg) in
/-- A challenge was issued for the key of the session that it bought, to the address that the session
is bound to or to nobody's, and was signed by that key. -/
structure Redemption.Sound (r : Redemption) : Prop where
  pubkey : r.challenge.pubkey = (r.request.session cfg).pubkey
  ip : r.challenge.ip = (r.request.session cfg).ip ∨ r.challenge.ip = []
  signed : sigValid rt cfg r.challenge.pubkey r.challenge.challenge r.request.signature = true

variable (rt cfg) in
/-- What waits for its third phase has a valid signature, as what has passed it had. -/
structure Signed (s : Auth) (log : Log) : Prop where
  verified : ∀ v ∈ s.verified, sigValid rt cfg v.pubkey v.challenge v.signature = true
  redeemed : ∀ r ∈ log.redeemed, Redemption.Sound rt cfg r

theorem once_start (s : Auth) : Once cfg s s {} := ⟨List.Subperm.refl _,List.Subperm.refl _⟩

theorem Once.of_less {base s s' : Auth} {log : Log} (h : Once cfg base s log)
    (hch : s'.challenges.Subperm s.challenges) (hses : s'.sessions.Subperm s.sessions) :
    Once cfg base s' log :=
  ⟨((List.subperm_append_left _).mpr hch).trans h.challenges,hses.trans h.sessions⟩

theorem Once.step {base s s' : Auth} {act : Act} {log : Log} (h : Once cfg base s log)
    (hstep : step rt cfg s act = some s') : Once cfg base s' (noteAuth cfg s act s' log) := by
  have hquiet : ∀ s' : Auth, s'.challenges.Subperm s.challenges → s'.sessions.Subperm s.sessions →
      Once cfg base s' ⟨log.issued ++ [],log.redeemed ++ []⟩ := by
    intro s' hch hses
    simp only [List.append_nil]
    exact h.of_less hch hses
  cases act with
  | challenge pubkey clientIp t challenge =>
    obtain rfl := Option.some.inj hstep
    have hch := handleChallenge_challenges cfg pubkey clientIp t challenge s
    refine ⟨?_,by simpa [noteAuth, redemption, handleChallenge] using h.sessions⟩
    simp only [noteAuth, redemption, Option.toList_none, List.append_nil]
    refine ((List.subperm_append_left _).mpr hch).trans ?_
    rw [← List.append_assoc]
    refine ((List.subperm_append_right _).mpr h.challenges).trans ?_
    rw [List.append_assoc, List.append_assoc]
    exact ((List.perm_append_comm).append_left _).subperm
  | check v =>
    obtain rfl := Option.some.inj hstep
    split <;> exact hquiet _ (List.Subperm.refl _) (List.Subperm.refl _)
  | verify n =>
    obtain ⟨v,-,rfl⟩ := Option.map_eq_some_iff.mp hstep
    exact hquiet _ (List.Subperm.refl _) (List.Subperm.refl _)
  | install n =>
    obtain ⟨v,hv,rfl⟩ := Option.map_eq_some_iff.mp hstep
    have hses := install_sessions cfg v { s with verified := s.verified.eraseIdx n }
    simp only at hses
    cases hc : v.redeems s.challenges with
    | none =>
      have hsame : install cfg v { s with verified := s.verified.eraseIdx n } =
        { s with verified := s.verified.eraseIdx n } := by simp only [install, hc]
      rw [hsame]
      simpa [noteAuth, redemption, hv, hc] using hquiet { s with verified := s.verified.eraseIdx n }
        (List.Subperm.refl _) (List.Subperm.refl _)
    | some c =>
      have hch := @install_challenges cfg v { s with verified := s.verified.eraseIdx n } c hc
      simp only [noteAuth, redemption, hv, Option.bind_some, hc, Option.map_some, Option.toList_some]
      refine ⟨?_,?_⟩
      · simp only [List.map_append, List.map_cons, List.map_nil, List.append_nil, List.append_assoc,
          List.singleton_append]
        exact ((List.subperm_append_left _).mpr hch).trans h.challenges
      · rw [hc, Option.map_some, Option.toList_some] at hses
        simp only [List.map_append, List.map_cons, List.map_nil, List.append_assoc]
        refine hses.trans (((List.subperm_append_right _).mpr h.sessions).trans ?_)
        rw [List.append_assoc]
        exact ((List.perm_append_comm).append_left _).subperm
  | prune t =>
    obtain rfl := Option.some.inj hstep
    exact hquiet _ List.filter_sublist.subperm List.filter_sublist.subperm
  | commit txn =>
    obtain rfl := Option.some.inj hstep
    exact hquiet _ (List.Subperm.refl _) (List.Subperm.refl _)

theorem Signed.step {s s' : Auth} {act : Act} {log : Log} (h : Signed rt cfg s log)
    (hstep : step rt cfg s act = some s') : Signed rt cfg s' (noteAuth cfg s act s' log) := by
  have hquiet : ∀ s' : Auth, s'.verified ⊆ s.verified →
      redemption s act = none → Signed rt cfg s' (noteAuth cfg s act s' log) := by
    intro s' hsub hnone
    refine ⟨fun v hv => h.verified v (hsub hv),?_⟩
    simpa [noteAuth, hnone] using h.redeemed
  cases act with
  | challenge | prune | commit =>
    obtain rfl := Option.some.inj hstep
    exact hquiet _ (List.Subset.refl _) rfl
  | check v =>
    obtain rfl := Option.some.inj hstep
    split <;> exact hquiet _ (List.Subset.refl _) rfl
  | verify n =>
    obtain ⟨v,-,rfl⟩ := Option.map_eq_some_iff.mp hstep
    split
    · rename_i hvalid
      refine ⟨fun v' hv' => ?_,by simpa [noteAuth, redemption] using h.redeemed⟩
      obtain hv' | hv' := List.mem_append.mp hv'
      · exact h.verified v' hv'
      · rw [List.mem_singleton.mp hv']
        exact hvalid
    · exact hquiet _ (List.Subset.refl _) rfl
  | install n =>
    obtain ⟨v,hv,rfl⟩ := Option.map_eq_some_iff.mp hstep
    have hleft : (install cfg v { s with verified := s.verified.eraseIdx n }).verified =
        s.verified.eraseIdx n := by
      unfold install
      split <;> rfl
    refine ⟨fun v' hv' => h.verified v' ((List.eraseIdx_sublist _ _).subset (hleft ▸ hv')),fun r hr => ?_⟩
    simp only [noteAuth, List.mem_append] at hr
    obtain hr | hr := hr
    · exact h.redeemed r hr
    · simp only [redemption, hv, Option.bind_some, Option.mem_toList,
        Option.map_eq_some_iff] at hr
      obtain ⟨c,hc,rfl⟩ := hr
      obtain ⟨-,hsame,hip⟩ := redeems_eq_some hc
      simp only [VerifyAuth.same, Bool.and_eq_true, decide_eq_true_eq] at hsame
      simp only [matchIp, Bool.or_eq_true, decide_eq_true_eq] at hip
      refine ⟨hsame.1,?_,?_⟩
      · obtain hip | hip := hip
        · exact .inr hip
        · exact .inl hip.symm
      · simp only [hsame.1, hsame.2]
        exact h.verified v (List.mem_of_getElem? hv)

theorem once_run {base s s' : Auth} {acts : List Act} {log log' : Log} (h : Once cfg base s log)
    (hrun : Lts.run (Lts.watch (step rt cfg) (noteAuth cfg)) (s,log) acts = some (s',log')) :
    Once cfg base s' log' := by
  refine Lts.run_invariant _ (I := fun sl : Auth × Log => Once cfg base sl.1 sl.2)
    (fun sl act sl' hI hstep => ?_) h hrun
  obtain ⟨hact,hnote⟩ := Lts.watch_eq_some _ hstep
  rw [hnote]
  exact Once.step hI hact

theorem signed_run {s : Auth} {acts : List Act} {log : Log}
    (hrun : Lts.run (Lts.watch (step rt cfg) (noteAuth cfg)) ({},{}) acts = some (s,log)) :
    Signed rt cfg s log := by
  refine Lts.run_invariant _ (I := fun sl : Auth × Log => Signed rt cfg sl.1 sl.2)
    (fun sl act sl' hI hstep => ?_) ⟨by simp,by simp⟩ hrun
  obtain ⟨hact,hnote⟩ := Lts.watch_eq_some _ hstep
  rw [hnote]
  exact Signed.step hI hact

theorem authedPubkey_session {authorization clientIp pubkey : Text} {t : ℤ} {ses : List Session}
    (h : authedPubkey authorization t clientIp ses = some pubkey) :
    ∃ x ∈ ses.filter (fun x => x.pubkey = pubkey), x.token = authorization.drop 7 ∧ t < x.expiresAt ∧
      matchIp clientIp x.ip = true := by
  unfold authedPubkey at h
  split at h
  · cases h
  · obtain ⟨x,hx,rfl⟩ := Option.map_eq_some_iff.mp h
    have hfits := List.find?_some hx
    simp only [Bool.and_eq_true, decide_eq_true_eq] at hfits
    exact ⟨x,List.mem_filter.mpr ⟨List.mem_of_find?_eq_some hx,by simp⟩,hfits.1.2,hfits.1.1,hfits.2⟩

variable (cfg) in
/-- Of a key only what was issued and installed since its other sessions were revoked is left: the
challenges that were redeemed and those that wait, the sessions, and what its tokens open. -/
structure Renewed (pubkey : Text) (first : Session) (s : Auth) (log : Log) : Prop where
  challenges : ((log.redeemed.map Redemption.challenge ++ s.challenges).filter fun c =>
    c.pubkey = pubkey).Subperm log.issued
  sessions : (s.sessions.filter fun x => x.pubkey = pubkey).Subperm
    ((log.redeemed.map fun r => r.request.session cfg) ++ [first])
  requests : ∀ authorization t clientIp, authedPubkey authorization t clientIp s.sessions = some pubkey →
    ∃ x ∈ (log.redeemed.map fun r => r.request.session cfg) ++ [first], x.token = authorization.drop 7

theorem renewed_run {v : VerifyAuth} {s s' s'' : Auth} {n : ℕ} {acts : List Act} {log : Log}
    (hv : s.verified[n]? = some v) (hrevoke : v.revokeOthers = true)
    (hredeems : (v.redeems s.challenges).isSome) (hstep : step rt cfg s (.install n) = some s')
    (hrun : Lts.run (Lts.watch (step rt cfg) (noteAuth cfg)) (s',{}) acts = some (s'',log)) :
    Renewed cfg v.pubkey (v.session cfg) s'' log := by
  obtain ⟨v',hv',rfl⟩ := Option.map_eq_some_iff.mp hstep
  obtain rfl := Option.some.inj (hv.symm.trans hv')
  obtain ⟨hch,hses⟩ := @install_revokes cfg v { s with verified := s.verified.eraseIdx n } hredeems hrevoke
  have hsince := once_run (once_start _) hrun
  have hleft : (s''.sessions.filter fun x => x.pubkey = v.pubkey).Subperm
      ((log.redeemed.map fun r => r.request.session cfg) ++ [v.session cfg]) := by
    have hkey := hsince.sessions.filter fun x => decide (x.pubkey = v.pubkey)
    rw [List.filter_append] at hkey
    exact hkey.trans (List.Subperm.append List.filter_sublist.subperm hses)
  refine ⟨?_,hleft,fun authorization t clientIp hauthed => ?_⟩
  · have hkey := hsince.challenges.filter fun c => decide (c.pubkey = v.pubkey)
    rw [List.filter_append log.issued, hch, List.append_nil] at hkey
    exact hkey.trans List.filter_sublist.subperm
  · obtain ⟨x,hx,htoken,-,-⟩ := authedPubkey_session hauthed
    exact ⟨x,hleft.subset hx,htoken⟩

/-- Each session was bought with a challenge of its own, which was signed by its key, and nothing of a
key from before the revocation of its other sessions is of use after it. -/
theorem challenges_redeemed_once {acts : List Act} {s : Auth} {log : Log}
    (hrun : Lts.run (Lts.watch (step rt cfg) (noteAuth cfg)) ({},{}) acts = some (s,log)) :
    (log.redeemed.map Redemption.challenge).Subperm log.issued ∧
    (∀ r ∈ log.redeemed, Redemption.Sound rt cfg r) ∧
    s.sessions.Subperm (log.redeemed.map fun r => r.request.session cfg) ∧
    ∀ n v s' acts' s'' log', s.verified[n]? = some v → v.revokeOthers = true →
      (v.redeems s.challenges).isSome → step rt cfg s (.install n) = some s' →
      Lts.run (Lts.watch (step rt cfg) (noteAuth cfg)) (s',{}) acts' = some (s'',log') →
      Renewed cfg v.pubkey (v.session cfg) s'' log' := by
  have honce := once_run (once_start {}) hrun
  refine ⟨?_,(signed_run hrun).redeemed,?_,?_⟩
  · have hall := honce.challenges
    rw [List.append_nil] at hall
    exact (List.sublist_append_left _ _).subperm.trans hall
  · simpa using honce.sessions
  · intro n v s' acts' s'' log' hv hrevoke hredeems hstep hrun'
    exact renewed_run hv hrevoke hredeems hstep hrun'

/-- A runtime in which a text is its own bytes, and a signature is what it signs. -/
def sampleRuntime : Runtime where
  bytesFromHex s := some (s.map fun c => c.toNat.toUInt8)
  textToBytes s := s.map fun c => c.toNat.toUInt8
  verify _ text sig := text = sig

/-- A request to redeem the challenge `c` with a valid signature. -/
def sampleVerify (clientIp : String) (revokeOthers : Bool) : VerifyAuth :=
  ⟨sampleKey 'a',['c'],signedText {} ['c'],revokeOthers,clientIp.toList,0,['t']⟩

/-- Two requests for one challenge pass the first phases together, and one of them revokes. -/
theorem challenges_redeemed_once_race : ∃ s log,
    Lts.run (Lts.watch (step sampleRuntime {}) (noteAuth {})) ({},{})
      [.challenge (sampleKey 'a') "1.2.3.4".toList 0 ['c'],.check (sampleVerify "1.2.3.4" false),
        .check (sampleVerify "1.2.3.4" true),.verify 0,.verify 0,.install 1,.install 0] = some (s,log) ∧
    log.redeemed.length = 1 ∧ s.sessions.Subperm (log.redeemed.map fun r => r.request.session {}) :=
  have hrun : Lts.run (Lts.watch (step sampleRuntime {}) (noteAuth {})) ({},{})
      [.challenge (sampleKey 'a') "1.2.3.4".toList 0 ['c'],.check (sampleVerify "1.2.3.4" false),
        .check (sampleVerify "1.2.3.4" true),.verify 0,.verify 0,.install 1,.install 0] = some (_,_) := rfl
  ⟨_,_,hrun,by decide,(challenges_redeemed_once hrun).2.2.1⟩

/-- A challenge that was issued to no address buys a session that is bound to one. -/
theorem unbound_challenge_redeemed : ∃ s log,
    Lts.run (Lts.watch (step sampleRuntime {}) (noteAuth {})) ({},{})
      [.challenge (sampleKey 'a') [] 0 ['c'],.check (sampleVerify "1.2.3.4" false),.verify 0,
        .install 0] = some (s,log) ∧
    ∃ x ∈ s.sessions, ∀ c ∈ log.issued, c.ip ≠ x.ip :=
  ⟨_,_,rfl,(sampleVerify "1.2.3.4" false).session {},by decide,by decide⟩

end Auth
end Skrepka.Relay
