import Skrepka.Relay.Backoff
import Skrepka.Relay.Gossip
import Skrepka.Relay.Service

/-! What a relay tells its peers about who is online: whom it tells, and that it speaks only of keys that
have signed in to it. -/
namespace Skrepka.Relay
open Sequenced

def beforeComma : Text → Text
  | [] => []
  | a :: s => if a = ',' then [] else a :: beforeComma s

/-- The fields between commas, without white space around them. -/
def splitOnComma (s : Text) : List Text :=
  if _h : s = [] then [] else union [trim (beforeComma s)] (splitOnComma (afterComma s))
termination_by s.length
decreasing_by exact afterComma_shorter ‹_›

structure AnnounceConfig extends ServiceConfig where
  backoff : BackoffConfig := {}
  seedPeers : Text := []

/-- A call of `sendBatchedGossip` that was forked and has not begun. -/
structure Bundle where
  peers : List Text
  events : List GossipEvent

/-- One that has begun: the peers it has yet to come to, and the failures when it began. -/
structure Broadcast where
  targets : List Text
  events : List GossipEvent
  t : ℤ
  failures : List ForwardFailure

/-- A sweep that has yet to tell of the keys that it found expired. -/
structure Cull where
  prePeers : List Text
  expiredLocal : List Text

structure Announcing where
  service : Service := {}
  prePeers : Option (List Text) := none
  swept : List Cull := []
  bundles : List Bundle := []
  broadcasts : List Broadcast := []

inductive AnnounceAct
  | service (act : ServiceAct)
  /-- The sweep reads the peers, then prunes, and what it forks reads them again. -/
  | snapshot
  | sweep (t : ℤ)
  | gather (n : ℕ)
  | start (n : ℕ) (t : ℤ) (failures : List ForwardFailure)
  | call (n : ℕ)

section
variable (cfg : AnnounceConfig) (rt : Runtime)

def localServerName : Option Text :=
  if isValidServerName cfg.toServiceConfig cfg.serverHost then some cfg.serverHost else none

def seedPeerList : List Text :=
  (splitOnComma cfg.seedPeers).filter fun s => s ≠ [] && !isLocalServer cfg.toConfig s

def gossipTargets (peers : List Text) : List Text := union peers (seedPeerList cfg)

/-- The beginning of `sendBatchedGossip`. -/
def Bundle.begin (b : Bundle) (t : ℤ) (failures : List ForwardFailure) : Option Broadcast :=
  match localServerName cfg with
  | none => none
  | some _ => if b.events.length > 0 then some ⟨gossipTargets cfg b.peers,b.events,t,failures⟩ else none

/-- The peer that a broadcast calls next, unless it leaves it out. -/
def Broadcast.callee (b : Broadcast) : Option Text :=
  b.targets.head?.filter fun server =>
    !isBadServerName server && shouldRetryServer cfg.backoff server b.t b.failures

/-- The presence of a key with us is about to lapse. -/
def isStale (pubkey : Text) (t : ℤ) (pres : List PresenceEntry) : Bool :=
  !pres.any fun p => p.pubkey = pubkey && isLocalServer cfg.toConfig p.server &&
    p.expiresAt-t ≥ cfg.sessionExpiry/2

def onlineBundle (pubkey : Text) (pres : List PresenceEntry) : Bundle :=
  ⟨collectPeers cfg.toConfig pres PresenceEntry.server,[⟨"online".toList,some pubkey⟩]⟩

/-- What a handler forks to be told. -/
def forkedBundle (s : Service) : ServiceAct → Option Bundle
  | .install n => s.auth.verified[n]?.bind fun v =>
    if (v.redeems s.auth.challenges).isSome && cfg.federationEnabled then
      some (onlineBundle cfg v.pubkey s.auth.relay.presence)
    else none
  | .request (.poll _ authorization xForwardedFor) t _ =>
    (authedPubkey authorization t (clientIpOf cfg.toServiceConfig xForwardedFor) s.auth.sessions).bind
      fun pubkey =>
        if cfg.federationEnabled && isStale cfg pubkey t s.auth.relay.presence then
          some (onlineBundle cfg pubkey s.auth.relay.presence)
        else none
  | _ => none

/-- The keys that `pruneExpired` returns. -/
def expiredLocal (t : ℤ) (pres : List PresenceEntry) : List Text :=
  let live := pres.filter fun p => p.expiresAt > t
  let liveLocalPubkeys := (live.filter fun p => isLocalServer cfg.toConfig p.server).map PresenceEntry.pubkey
  ((pres.filter fun p => p.expiresAt ≤ t && isLocalServer cfg.toConfig p.server &&
    !liveLocalPubkeys.contains p.pubkey).map PresenceEntry.pubkey).dedup

def isPrune : ServiceAct → Bool
  | .prune _ => true
  | _ => false

namespace Announcing

def peers (s : Announcing) : List Text :=
  collectPeers cfg.toConfig s.service.auth.relay.presence PresenceEntry.server

def step (s : Announcing) : AnnounceAct → Option Announcing
  | .service act =>
    if isPrune act then none
    else (s.service.step cfg.toServiceConfig rt act).map fun service =>
      { s with service, bundles := s.bundles ++ (forkedBundle cfg s.service act).toList }
  | .snapshot => if s.prePeers.isSome then none else some { s with prePeers := some (s.peers cfg) }
  | .sweep t => s.prePeers.bind fun prePeers =>
    (s.service.step cfg.toServiceConfig rt (.prune t)).map fun service =>
      { s with
        service
        prePeers := none
        swept := s.swept ++ if cfg.federationEnabled then
          [⟨prePeers,expiredLocal cfg t s.service.auth.relay.presence⟩] else [] }
  | .gather n => s.swept[n]?.map fun w =>
    { s with
      swept := s.swept.eraseIdx n
      bundles := s.bundles ++ [⟨union w.prePeers (s.peers cfg),
        w.expiredLocal.map fun pk => ⟨"offline".toList,some pk⟩⟩] }
  | .start n t failures => s.bundles[n]?.map fun b =>
    { s with
      bundles := s.bundles.eraseIdx n
      broadcasts := s.broadcasts ++ (b.begin cfg t failures).toList }
  | .call n => s.broadcasts[n]?.map fun b =>
    { s with
      broadcasts := if b.targets = [] then s.broadcasts.eraseIdx n
        else s.broadcasts.set n { b with targets := b.targets.tail } }

end Announcing

/-- What an observer has seen: what the relay has told whom, and the keys that a sweep found expired, with
the presence that it left. -/
structure AnnounceLog where
  service : ServiceLog := {}
  sweeps : List (List Text × List PresenceEntry) := []
  told : List (Text × List GossipEvent) := []

namespace Announcing

def note (s : Announcing) (act : AnnounceAct) (s' : Announcing) (log : AnnounceLog) : AnnounceLog :=
  match act with
  | .service act => { log with service := s.service.note cfg.toServiceConfig rt act s'.service log.service }
  | .sweep t =>
    { log with
      service := s.service.note cfg.toServiceConfig rt (.prune t) s'.service log.service
      sweeps := log.sweeps ++
        [(expiredLocal cfg t s.service.auth.relay.presence,s'.service.auth.relay.presence)] }
  | .call n =>
    { log with
      told := log.told ++ (s.broadcasts[n]?.bind fun b =>
        (b.callee cfg).map fun server => (server,b.events)).toList }
  | _ => log

/-- A key has redeemed a challenge of this relay with its own signature. -/
def SignedIn (log : AnnounceLog) (pubkey : Text) : Prop :=
  ∃ r ∈ log.service.auth.redeemed, Auth.Redemption.Sound rt cfg.toAuthConfig r ∧ r.request.pubkey = pubkey

/-- An event is about a key that has signed in, and if it says that the key is offline, a sweep has left no
presence of it with us. -/
def Says (log : AnnounceLog) (e : GossipEvent) : Prop :=
  ∃ pk, e.pubkey = some pk ∧ SignedIn cfg rt log pk ∧ (e.eventType = "online".toList ∨
    e.eventType = "offline".toList ∧ ∃ w ∈ log.sweeps, pk ∈ w.1 ∧
      ∀ p ∈ w.2, isLocalServer cfg.toConfig p.server = true → p.pubkey ≠ pk)

/-- Something to tell to others. -/
structure Tells (log : AnnounceLog) (peers : List Text) (events : List GossipEvent) : Prop where
  federated : cfg.federationEnabled = true
  others : ∀ server ∈ peers, isLocalServer cfg.toConfig server = false
  truths : ∀ e ∈ events, Says cfg rt log e

/-- Our own presence is of keys that have signed in, and all that is or will be told is so. -/
structure Truthful (s : Announcing) (log : AnnounceLog) : Prop where
  guarded : Service.Guarded cfg.toServiceConfig rt s.service log.service
  present : ∀ p ∈ s.service.auth.relay.presence, isLocalServer cfg.toConfig p.server = true →
    SignedIn cfg rt log p.pubkey
  before : ∀ peers, s.prePeers = some peers → ∀ server ∈ peers, isLocalServer cfg.toConfig server = false
  swept : ∀ w ∈ s.swept, Tells cfg rt log w.prePeers
    (w.expiredLocal.map fun pk => ⟨"offline".toList,some pk⟩)
  bundles : ∀ b ∈ s.bundles, Tells cfg rt log b.peers b.events
  broadcasts : ∀ b ∈ s.broadcasts, Tells cfg rt log b.targets b.events
  told : ∀ e ∈ log.told, Tells cfg rt log [e.1] e.2 ∧ isBadServerName e.1 = false

variable {cfg rt}

theorem SignedIn.mono {log log' : AnnounceLog} {pubkey : Text}
    (hsub : log.service.auth.redeemed ⊆ log'.service.auth.redeemed) (h : SignedIn cfg rt log pubkey) :
    SignedIn cfg rt log' pubkey := by
  obtain ⟨r,hr,hsound⟩ := h
  exact ⟨r,hsub hr,hsound⟩

theorem Says.mono {log log' : AnnounceLog} {e : GossipEvent}
    (hsub : log.service.auth.redeemed ⊆ log'.service.auth.redeemed) (hsweeps : log.sweeps ⊆ log'.sweeps)
    (h : Says cfg rt log e) : Says cfg rt log' e := by
  obtain ⟨pk,hpk,hsigned,honline | ⟨hoffline,w,hw,hgone⟩⟩ := h
  · exact ⟨pk,hpk,hsigned.mono hsub,.inl honline⟩
  · exact ⟨pk,hpk,hsigned.mono hsub,.inr ⟨hoffline,w,hsweeps hw,hgone⟩⟩

theorem Tells.mono {log log' : AnnounceLog} {peers : List Text} {events : List GossipEvent}
    (hsub : log.service.auth.redeemed ⊆ log'.service.auth.redeemed) (hsweeps : log.sweeps ⊆ log'.sweeps)
    (h : Tells cfg rt log peers events) : Tells cfg rt log' peers events :=
  ⟨h.federated,h.others,fun e he => (h.truths e he).mono hsub hsweeps⟩

theorem collectPeers_others (pres : List PresenceEntry) :
    ∀ server ∈ collectPeers cfg.toConfig pres PresenceEntry.server,
      isLocalServer cfg.toConfig server = false := by
  intro server hserver
  have hin := List.mem_dedup.mp hserver
  simpa using (List.mem_filter.mp hin).2

theorem gossipTargets_others {peers : List Text}
    (h : ∀ server ∈ peers, isLocalServer cfg.toConfig server = false) :
    ∀ server ∈ gossipTargets cfg peers, isLocalServer cfg.toConfig server = false := by
  intro server hserver
  obtain hpeer | hseed := mem_union.mp hserver
  · exact h server hpeer
  · have hkept := (List.mem_filter.mp hseed).2
    simp only [Bool.and_eq_true, Bool.not_eq_true'] at hkept
    exact hkept.2

/-- A broadcast goes to others, and tells what its bundle told. -/
theorem Tells.begin {log : AnnounceLog} {b : Bundle} {t : ℤ} {failures : List ForwardFailure}
    (h : Tells cfg rt log b.peers b.events) {c : Broadcast} (hc : b.begin cfg t failures = some c) :
    Tells cfg rt log c.targets c.events := by
  unfold Bundle.begin at hc
  split at hc
  · cases hc
  · obtain rfl := Option.some.inj (Option.ite_none_right_eq_some.mp hc).2
    exact ⟨h.federated,gossipTargets_others h.others,h.truths⟩

/-- Our own presence comes from verified logins and from polls only. -/
theorem commit_local {s : State} {txn : Txn} {p : PresenceEntry}
    (hp : p ∈ (commit cfg.toConfig s txn).presence) (hlocal : isLocalServer cfg.toConfig p.server = true) :
    p ∈ s.presence ∨ (∃ t, txn = .verifyAuth p.pubkey t) ∨ ∃ cursor t, txn = .setupPoll p.pubkey cursor t := by
  have hrefresh : ∀ {pubkey : Text} {expiry : ℤ} {s : State},
      p ∈ (refreshLocalPresence cfg.toConfig pubkey expiry s).presence → p ∈ s.presence ∨ p.pubkey = pubkey := by
    intro pubkey expiry s hp
    obtain hp | hp := mem_union.mp hp
    · exact .inl (List.mem_of_mem_filter hp)
    · rw [List.mem_singleton.mp hp]
      exact .inr rfl
  cases txn with
  | sendMessages messages senderKey t =>
    simp only [commit, handleSendMessages] at hp
    split at hp
    · exact .inl hp
    · rw [sendAll_presence] at hp
      exact .inl hp
  | forwardMessage toKey blob t =>
    simp only [commit, handleForwardMessage] at hp
    split at hp
    · exact .inl hp
    split at hp <;> exact .inl hp
  | verifyAuth pubkey t =>
    obtain hp | hkey := hrefresh hp
    · exact .inl hp
    · exact .inr (.inl ⟨t,by rw [hkey]⟩)
  | setupPoll pubkey cursor t =>
    have hold : p ∈ s.presence ∨ p.pubkey = pubkey := by
      simp only [commit, setupPoll] at hp
      split at hp <;> split at hp
      · exact hrefresh hp
      · exact .inl hp
      · exact hrefresh hp
      · exact .inl hp
    obtain hp | hkey := hold
    · exact .inl hp
    · exact .inr (.inr ⟨cursor,t,by rw [hkey]⟩)
  | recvGossip events fromServer t =>
    left
    simp only [commit, handleRecvGossip] at hp
    split at hp
    · exact hp
    · rename_i hrefuses
      have hpeer : isLocalServer cfg.toConfig fromServer = false := by
        simp only [refusesGossip, Bool.not_eq_true, Bool.or_eq_false_iff] at hrefuses
        exact hrefuses.1.1.2
      rw [mergePresence_eq] at hp
      obtain hp | hp := mem_union.mp hp
      · rw [gossiped_local _ _ _ hpeer] at hp
        exact List.mem_of_mem_filter hp
      · have hremote := ((capList_subperm _ _).trans (capPerServer_subperm _ _ _)).subset hp
        have hnot := (List.mem_filter.mp hremote).2
        rw [hlocal] at hnot
        cases hnot
  | prune t => exact .inl (List.mem_of_mem_filter hp)
  | forwardQueued | forwardAccepted | forwardRetried | dropServer => exact .inl hp

/-- Who renews its presence by a transaction was let in. -/
theorem commit_authed {s s' : Service} {act : ServiceAct} {answer : Option Answer} {txn : Txn}
    {pubkey : Text} (hstep : s.handle cfg.toServiceConfig rt act = some (s',answer))
    (hact : s.authAct cfg.toServiceConfig act = some (.commit txn))
    (hrenews : (∃ t, txn = .verifyAuth pubkey t) ∨ ∃ cursor t, txn = .setupPoll pubkey cursor t) :
    ∃ authorization t clientIp, authedPubkey authorization t clientIp s.auth.sessions = some pubkey := by
  cases act with
  | request r t fresh =>
    cases r with
    | reqChallenge | verifyAuth | sendMessages => cases hact
    | poll cursor authorization xForwardedFor =>
      obtain ⟨pk,hauthed,hact⟩ := Option.map_eq_some_iff.mp hact
      obtain rfl := Auth.Act.commit.inj hact
      obtain ⟨_,heq⟩ | ⟨_,_,heq⟩ := hrenews
      · cases heq
      · cases heq
        exact ⟨_,_,_,hauthed⟩
    | recvGossip | forwardMessage =>
      obtain rfl := Auth.Act.commit.inj (Option.some.inj hact)
      simp at hrenews
  | commitSend n =>
    obtain ⟨x,-,hact⟩ := Option.map_eq_some_iff.mp hact
    obtain rfl := Auth.Act.commit.inj hact
    simp at hrenews
  | task txn' =>
    obtain rfl := Auth.Act.commit.inj (Option.some.inj hact)
    simp only [Service.handle, Option.ite_none_right_eq_some] at hstep
    obtain ⟨_,rfl⟩ | ⟨_,_,rfl⟩ := hrenews
    · cases hstep.1
    · cases hstep.1
  | verify | install | prune | collect | wake | timeout => cases hact

/-- What a step makes of our own presence. -/
theorem handle_local {s s' : Service} {act : ServiceAct} {answer : Option Answer} {log : AnnounceLog}
    (h : Service.Guarded cfg.toServiceConfig rt s log.service)
    (hstep : s.handle cfg.toServiceConfig rt act = some (s',answer)) {p : PresenceEntry}
    (hp : p ∈ s'.auth.relay.presence) (hlocal : isLocalServer cfg.toConfig p.server = true) :
    p ∈ s.auth.relay.presence ∨
      SignedIn cfg rt { log with service := s.note cfg.toServiceConfig rt act s' log.service } p.pubkey := by
  have hauth := Service.handle_auth hstep
  have hguarded := h.step hstep
  cases hact : s.authAct cfg.toServiceConfig act with
  | none =>
    rw [hact, Option.elim_none, Option.some.injEq] at hauth
    exact .inl (hauth ▸ hp)
  | some a =>
    rw [hact, Option.elim_some] at hauth
    cases a with
    | challenge | check =>
      obtain heq := Option.some.inj hauth
      rw [← heq] at hp
      left
      first | exact hp | (split at hp <;> exact hp)
    | verify n =>
      obtain ⟨v,-,heq⟩ := Option.map_eq_some_iff.mp hauth
      rw [← heq] at hp
      exact .inl hp
    | prune t =>
      obtain heq := Option.some.inj hauth
      rw [← heq] at hp
      exact .inl (List.mem_of_mem_filter hp)
    | install n =>
      obtain ⟨v,hv,heq⟩ := Option.map_eq_some_iff.mp hauth
      rw [← heq] at hp
      unfold Auth.install at hp
      cases hredeems : v.redeems s.auth.challenges with
      | none =>
        simp only [hredeems] at hp
        exact .inl hp
      | some c =>
        simp only [hredeems] at hp
        obtain hp | hp := mem_union.mp hp
        · exact .inl (List.mem_of_mem_filter hp)
        · right
          have hr : (⟨c,v⟩ : Auth.Redemption) ∈ (s.note cfg.toServiceConfig rt act s' log.service).auth.redeemed := by
            simp only [Service.note, hact, Option.elim_some, Auth.noteAuth, Auth.redemption, hv,
              Option.bind_some, hredeems, Option.map_some]
            exact List.mem_append_right _ (List.mem_singleton_self _)
          refine ⟨⟨c,v⟩,hr,hguarded.signed.redeemed _ hr,?_⟩
          rw [List.mem_singleton.mp hp]
    | commit txn =>
      obtain heq := Option.some.inj hauth
      rw [← heq] at hp
      obtain hp | hrenews := commit_local hp hlocal
      · exact .inl hp
      · right
        obtain ⟨authorization,t,clientIp,hauthed⟩ := commit_authed hstep hact hrenews
        obtain ⟨r,hr,hsound,hkey,-⟩ := (h.entitled hauthed).mono (Service.redeemed_grows _ rt s act s' _)
        exact ⟨r,hr,hsound,hkey⟩

theorem Tells.online {log : AnnounceLog} {pubkey : Text} {pres : List PresenceEntry}
    (hfed : cfg.federationEnabled = true) (h : SignedIn cfg rt log pubkey) :
    Tells cfg rt log (onlineBundle cfg pubkey pres).peers (onlineBundle cfg pubkey pres).events := by
  refine ⟨hfed,collectPeers_others pres,fun e he => ?_⟩
  rw [List.mem_singleton.mp he]
  exact ⟨pubkey,rfl,h,.inl rfl⟩

/-- Who is said to be online after a step has signed in. -/
theorem forkedBundle_tells {s s' : Service} {act : ServiceAct} {answer : Option Answer} {log : AnnounceLog}
    (h : Service.Guarded cfg.toServiceConfig rt s log.service)
    (hstep : s.handle cfg.toServiceConfig rt act = some (s',answer)) {b : Bundle}
    (hb : forkedBundle cfg s act = some b) :
    Tells cfg rt { log with service := s.note cfg.toServiceConfig rt act s' log.service } b.peers b.events := by
  cases act with
  | install n =>
    obtain ⟨v,hv,hb⟩ := Option.bind_eq_some_iff.mp hb
    obtain ⟨hcond,hb⟩ := Option.ite_none_right_eq_some.mp hb
    obtain rfl := Option.some.inj hb
    obtain ⟨hredeems,hfed⟩ := Bool.and_eq_true_iff.mp hcond
    obtain ⟨c,hc⟩ := Option.isSome_iff_exists.mp hredeems
    have hr : (⟨c,v⟩ : Auth.Redemption) ∈
        (s.note cfg.toServiceConfig rt (.install n) s' log.service).auth.redeemed := by
      simp only [Service.note, Service.authAct, Option.elim_some, Auth.noteAuth, Auth.redemption, hv,
        Option.bind_some, hc, Option.map_some]
      exact List.mem_append_right _ (List.mem_singleton_self _)
    exact .online hfed ⟨⟨c,v⟩,hr,(h.step hstep).signed.redeemed _ hr,rfl⟩
  | request r t fresh =>
    cases r with
    | poll cursor authorization xForwardedFor =>
      obtain ⟨pubkey,hauthed,hb⟩ := Option.bind_eq_some_iff.mp hb
      obtain ⟨hcond,hb⟩ := Option.ite_none_right_eq_some.mp hb
      obtain rfl := Option.some.inj hb
      obtain ⟨r,hr,hsound,hkey,-⟩ := (h.entitled hauthed).mono (Service.redeemed_grows _ rt s _ s' _)
      exact .online (Bool.and_eq_true_iff.mp hcond).1 ⟨r,hr,hsound,hkey⟩
    | reqChallenge | verifyAuth | sendMessages | recvGossip | forwardMessage => cases hb
  | verify | collect | wake | timeout | commitSend | prune | task => cases hb

/-- What a sweep finds expired had presence with us, and has none afterwards. -/
theorem mem_expiredLocal {t : ℤ} {pres : List PresenceEntry} {pk : Text} (h : pk ∈ expiredLocal cfg t pres) :
    (∃ p ∈ pres, isLocalServer cfg.toConfig p.server = true ∧ p.pubkey = pk) ∧
      ∀ p ∈ pres.filter (fun p => p.expiresAt > t), isLocalServer cfg.toConfig p.server = true →
        p.pubkey ≠ pk := by
  obtain ⟨p,hp,rfl⟩ := List.mem_map.mp (List.mem_dedup.mp h)
  obtain ⟨hp,hexpired⟩ := List.mem_filter.mp hp
  simp only [Bool.and_eq_true, decide_eq_true_eq, Bool.not_eq_true', List.contains_eq_mem,
    decide_eq_false_iff_not] at hexpired
  refine ⟨⟨p,hp,hexpired.1.2,rfl⟩,fun q hq hlocal hkey => hexpired.2 ?_⟩
  exact List.mem_map.mpr ⟨q,List.mem_filter.mpr ⟨hq,hlocal⟩,hkey⟩

theorem Truthful.step {s s' : Announcing} {log : AnnounceLog} {act : AnnounceAct}
    (h : Truthful cfg rt s log) (hstep : s.step cfg rt act = some s') :
    Truthful cfg rt s' (s.note cfg rt act s' log) := by
  cases act with
  | service act =>
    obtain ⟨-,hstep⟩ := Option.ite_none_left_eq_some.mp hstep
    obtain ⟨service,hservice,rfl⟩ := Option.map_eq_some_iff.mp hstep
    obtain ⟨⟨service,answer⟩,hhandle,rfl⟩ := Option.map_eq_some_iff.mp hservice
    have hsub := Service.redeemed_grows cfg.toServiceConfig rt s.service act service log.service
    have hsweeps := List.Subset.refl log.sweeps
    refine ⟨h.guarded.step hhandle,fun p hp hlocal => ?_,h.before,fun w hw => (h.swept w hw).mono hsub hsweeps,
      fun b hb => ?_,fun b hb => (h.broadcasts b hb).mono hsub hsweeps,
      fun e he => ⟨(h.told e he).1.mono hsub hsweeps,(h.told e he).2⟩⟩
    · obtain hold | hnew := handle_local h.guarded hhandle hp hlocal
      · exact (h.present p hold hlocal).mono hsub
      · exact hnew
    · obtain hb | hb := List.mem_append.mp hb
      · exact (h.bundles b hb).mono hsub hsweeps
      · exact forkedBundle_tells h.guarded hhandle (Option.mem_toList.mp hb)
  | snapshot =>
    obtain ⟨-,hstep⟩ := Option.ite_none_left_eq_some.mp hstep
    obtain rfl := Option.some.inj hstep
    refine ⟨h.guarded,h.present,fun peers hpeers => ?_,h.swept,h.bundles,h.broadcasts,h.told⟩
    obtain rfl := Option.some.inj hpeers
    exact collectPeers_others _
  | sweep t =>
    obtain ⟨prePeers,hpre,hstep⟩ := Option.bind_eq_some_iff.mp hstep
    obtain ⟨service,hservice,rfl⟩ := Option.map_eq_some_iff.mp hstep
    obtain ⟨⟨service,answer⟩,hhandle,rfl⟩ := Option.map_eq_some_iff.mp hservice
    have hsub := Service.redeemed_grows cfg.toServiceConfig rt s.service (.prune t) service log.service
    have hsweeps : log.sweeps ⊆ log.sweeps ++
        [(expiredLocal cfg t s.service.auth.relay.presence,service.auth.relay.presence)] :=
      List.subset_append_left _ _
    have hpresence : service.auth.relay.presence =
        s.service.auth.relay.presence.filter fun p => p.expiresAt > t := by
      obtain ⟨rfl,-⟩ := Prod.mk.inj (Option.some.inj hhandle)
      rfl
    refine ⟨h.guarded.step hhandle,fun p hp hlocal => ?_,(by simp),fun w hw => ?_,
      fun b hb => (h.bundles b hb).mono hsub hsweeps,fun b hb => (h.broadcasts b hb).mono hsub hsweeps,
      fun e he => ⟨(h.told e he).1.mono hsub hsweeps,(h.told e he).2⟩⟩
    · rw [hpresence] at hp
      exact (h.present p (List.mem_of_mem_filter hp) hlocal).mono hsub
    · obtain hw | hw := List.mem_append.mp hw
      · exact (h.swept w hw).mono hsub hsweeps
      · split at hw
        · rename_i hfed
          rw [List.mem_singleton.mp hw]
          refine ⟨hfed,h.before _ hpre,fun e he => ?_⟩
          obtain ⟨pk,hpk,rfl⟩ := List.mem_map.mp he
          obtain ⟨⟨p,hp,hlocal,rfl⟩,hgone⟩ := mem_expiredLocal hpk
          refine ⟨p.pubkey,rfl,(h.present p hp hlocal).mono hsub,.inr ⟨rfl,_,
            List.mem_append_right _ (List.mem_singleton_self _),hpk,?_⟩⟩
          rw [← hpresence] at hgone
          exact hgone
        · simp at hw
  | gather n =>
    obtain ⟨w,hw,rfl⟩ := Option.map_eq_some_iff.mp hstep
    have htells := h.swept w (List.mem_of_getElem? hw)
    refine ⟨h.guarded,h.present,h.before,fun w hw => h.swept w ((List.eraseIdx_sublist _ _).subset hw),
      fun b hb => ?_,h.broadcasts,h.told⟩
    obtain hb | hb := List.mem_append.mp hb
    · exact h.bundles b hb
    · rw [List.mem_singleton.mp hb]
      refine ⟨htells.federated,fun server hserver => ?_,htells.truths⟩
      obtain hpre | hpost := mem_union.mp hserver
      · exact htells.others server hpre
      · exact collectPeers_others _ server hpost
  | start n t failures =>
    obtain ⟨b,hb,rfl⟩ := Option.map_eq_some_iff.mp hstep
    have htells := h.bundles b (List.mem_of_getElem? hb)
    refine ⟨h.guarded,h.present,h.before,h.swept,
      fun b hb => h.bundles b ((List.eraseIdx_sublist _ _).subset hb),fun c hc => ?_,h.told⟩
    obtain hc | hc := List.mem_append.mp hc
    · exact h.broadcasts c hc
    · exact htells.begin (Option.mem_toList.mp hc)
  | call n =>
    obtain ⟨b,hb,rfl⟩ := Option.map_eq_some_iff.mp hstep
    have htells := h.broadcasts b (List.mem_of_getElem? hb)
    have hsame : ∀ {peers : List Text} {events : List GossipEvent} {log' : AnnounceLog},
        log'.service = log.service → log'.sweeps = log.sweeps → Tells cfg rt log peers events →
        Tells cfg rt log' peers events := fun hservice hsweeps htells =>
      htells.mono (hservice ▸ List.Subset.refl _) (hsweeps ▸ List.Subset.refl _)
    refine ⟨h.guarded,h.present,h.before,fun w hw => hsame rfl rfl (h.swept w hw),
      fun b hb => hsame rfl rfl (h.bundles b hb),fun c hc => ?_,fun e he => ?_⟩
    · split at hc
      · exact hsame rfl rfl (h.broadcasts c ((List.eraseIdx_sublist _ _).subset hc))
      · obtain hc | rfl := List.mem_or_eq_of_mem_set hc
        · exact hsame rfl rfl (h.broadcasts c hc)
        · exact hsame rfl rfl ⟨htells.federated,
            fun server hserver => htells.others server (List.mem_of_mem_tail hserver),htells.truths⟩
    · obtain he | he := List.mem_append.mp he
      · exact ⟨hsame rfl rfl (h.told e he).1,(h.told e he).2⟩
      · rw [hb, Option.bind_some, Option.mem_toList, Option.map_eq_some_iff] at he
        obtain ⟨server,hserver,rfl⟩ := he
        obtain ⟨hhead,hkept⟩ := Option.filter_eq_some_iff.mp hserver
        simp only [Bool.and_eq_true, Bool.not_eq_true'] at hkept
        refine ⟨hsame rfl rfl ⟨htells.federated,fun other hother => ?_,htells.truths⟩,hkept.1⟩
        rw [List.mem_singleton.mp hother]
        exact htells.others server (List.mem_of_mem_head? hhead)

/-- In every run, a relay tells of the presence of keys only while it has peers, and only others, none of
them denied; of each key that it speaks of it has redeemed a challenge with the signature of that key; and
it says that a key is offline only after a sweep that left no presence of the key with us. -/
theorem announcements_truthful {acts : List AnnounceAct} {s : Announcing} {log : AnnounceLog}
    (hrun : Lts.run (Lts.watch (step cfg rt) (note cfg rt)) ({},{}) acts = some (s,log)) :
    ∀ e ∈ log.told, cfg.federationEnabled = true ∧ isLocalServer cfg.toConfig e.1 = false ∧
      isBadServerName e.1 = false ∧ ∀ event ∈ e.2, Says cfg rt log event := by
  have htruthful : Truthful cfg rt s log := by
    refine Lts.run_invariant _ (I := fun sl : Announcing × AnnounceLog => Truthful cfg rt sl.1 sl.2)
      (fun sl act sl' hI hstep => ?_) ?_ hrun
    · obtain ⟨hact,hnote⟩ := Lts.watch_eq_some _ hstep
      rw [hnote]
      exact hI.step hact
    · exact ⟨⟨Auth.once_start {},⟨by simp,by simp⟩,Mailbox.wf_empty,by simp,by simp,by simp,by simp,
        by simp,by simp⟩,by simp,by simp,by simp,by simp,by simp,by simp⟩
  intro e he
  obtain ⟨htells,hbad⟩ := htruthful.told e he
  exact ⟨htells.federated,htells.others _ (List.mem_singleton_self _),hbad,htells.truths⟩

/-- A relay with one seed peer, besides itself. -/
def sampleSeeded : AnnounceConfig :=
  { federationEnabled := true, seedPeers := "peer.example, localhost".toList }

theorem announcements_truthful_seeded : ∃ s log event,
    Lts.run (Lts.watch (step sampleSeeded Service.toyRuntime) (note sampleSeeded Service.toyRuntime)) ({},{})
      ((Service.sampleLogin 'a' "t").map AnnounceAct.service ++ [.start 0 0 [],.call 0]) = some (s,log) ∧
    log.told = [("peer.example".toList,[event])] ∧ event.pubkey = some (sampleKey 'a') ∧
    Says sampleSeeded Service.toyRuntime log event := by
  have hrun : (Lts.run (Lts.watch (step sampleSeeded Service.toyRuntime)
      (note sampleSeeded Service.toyRuntime)) ({},{})
      ((Service.sampleLogin 'a' "t").map AnnounceAct.service ++ [.start 0 0 [],.call 0])).any
      (fun s => s.2.told = [("peer.example".toList,[⟨"online".toList,some (sampleKey 'a')⟩])]) = true := by
    decide +kernel
  simp only [Option.any_eq_true, decide_eq_true_eq, Prod.exists] at hrun
  obtain ⟨s,log,hs,htold⟩ := hrun
  obtain ⟨-,-,-,htruth⟩ := announcements_truthful hs _ (htold ▸ List.mem_singleton_self _)
  exact ⟨s,log,_,hs,htold,rfl,htruth _ (List.mem_singleton_self _)⟩

end Announcing
end
end Skrepka.Relay
