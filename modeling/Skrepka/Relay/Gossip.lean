import Skrepka.Relay.Forks

/-! Presence over the runs of a relay: a key is online at a server at most once, the caps on what peers
announce hold, and gossip leaves our own presence alone. -/
namespace Skrepka.Relay
open Sequenced

variable {cfg : Config}

theorem capList_subperm (items : List PresenceEntry) (n : ℤ) : (capList items n).Subperm items :=
  drop_sortBy_subperm _ _ _

theorem length_capList (items : List PresenceEntry) (n : ℤ) : ((capList items n).length : ℤ) ≤ max 0 n := by
  rw [capList, List.length_drop, length_sortBy]
  omega

/-- What is cut expires no later than anything that is left. -/
theorem capList_cuts {items : List PresenceEntry} {n : ℤ} {p : PresenceEntry} (hp : p ∈ items)
    (hcut : p ∉ capList items n) :
    n < items.length ∧ ∀ q ∈ capList items n, p.expiresAt ≤ q.expiresAt := by
  have hmem : p ∈ sortBy PresenceEntry.expiresAt items := (mem_sortBy _).mpr hp
  constructor
  · by_contra hroom
    have hall : capList items n = sortBy PresenceEntry.expiresAt items := by
      have hzero : (max 0 ((items.length : ℤ)-n)).toNat = 0 := by omega
      rw [capList, hzero, List.drop_zero]
    exact hcut (hall ▸ hmem)
  · intro q hq
    have hsorted := sortBy_le PresenceEntry.expiresAt items
    rw [← List.take_append_drop (max 0 ((items.length : ℤ)-n)).toNat (sortBy _ items)] at hmem hsorted
    obtain hmem | hmem := List.mem_append.mp hmem
    · exact (List.pairwise_append.mp hsorted).2.2 p hmem q hq
    · exact absurd hmem hcut

theorem union_sublist {α : Type} [DecidableEq α] (rows more : List α) :
    (union rows more).Sublist (rows ++ more) := List.filter_sublist.append_left rows

/-- The pair that presence is kept under. -/
def PresenceEntry.name (p : PresenceEntry) : Text × Text := (p.pubkey,p.server)

/-- The rows at a server, and those at all servers but ours. -/
def presentAt (server : Text) (pres : List PresenceEntry) : ℕ := pres.countP fun p => p.server = server

variable (cfg) in
def presentElsewhere (pres : List PresenceEntry) : ℕ := pres.countP fun p => !isLocalServer cfg p.server

variable (cfg) in
/-- Each pair has one row, and what peers have announced is within the caps. -/
structure PresenceOk (pres : List PresenceEntry) : Prop where
  distinct : (pres.map PresenceEntry.name).Nodup
  perServer : ∀ server, isLocalServer cfg server = false →
    (presentAt server pres : ℤ) ≤ max 0 cfg.maxPresencePerServer
  elsewhere : (presentElsewhere cfg pres : ℤ) ≤ max 0 cfg.maxPresence

theorem nodup_names_of_subperm {pres pres' : List PresenceEntry} (h : (pres.map PresenceEntry.name).Nodup)
    (hsub : pres'.Subperm pres) : (pres'.map PresenceEntry.name).Nodup :=
  Mailbox.nodup_map_of_subperm hsub h

theorem PresenceOk.filter {pres : List PresenceEntry} (h : PresenceOk cfg pres) (p : PresenceEntry → Bool) :
    PresenceOk cfg (pres.filter p) where
  distinct := h.distinct.sublist (List.filter_sublist.map _)
  perServer server hremote := by
    have : presentAt server (pres.filter p) ≤ presentAt server pres := List.filter_sublist.countP_le
    have := h.perServer server hremote
    omega
  elsewhere := by
    have : presentElsewhere cfg (pres.filter p) ≤ presentElsewhere cfg pres :=
      List.filter_sublist.countP_le
    have := h.elsewhere
    omega

/-- A key that renews its presence with us has one row for it. -/
theorem PresenceOk.refresh {s : State} (h : PresenceOk cfg s.presence) (pubkey : Text) (expiry : ℤ) :
    PresenceOk cfg (refreshLocalPresence cfg pubkey expiry s).presence := by
  have hothers := h.filter fun p => !(p.pubkey = pubkey && isLocalServer cfg p.server)
  simp only [refreshLocalPresence]
  generalize hrest : s.presence.filter (fun p => !(p.pubkey = pubkey && isLocalServer cfg p.server)) =
    others at hothers
  have hsub := union_sublist others [⟨pubkey,cfg.serverHost,expiry⟩]
  refine ⟨?_,fun server hremote => ?_,?_⟩
  · refine List.Nodup.sublist (hsub.map _) ?_
    rw [List.map_append]
    refine List.nodup_append.mpr ⟨hothers.distinct,List.nodup_singleton _,fun a ha b hb hab => ?_⟩
    obtain ⟨p,hp,rfl⟩ := List.mem_map.mp ha
    rw [← hrest, List.mem_filter] at hp
    obtain ⟨hkey,hserver⟩ := Prod.mk.inj (hab.trans (List.mem_singleton.mp hb))
    simp [hkey, hserver, isLocalServer] at hp
  · have hcount : presentAt server (union others [⟨pubkey,cfg.serverHost,expiry⟩]) ≤
        presentAt server (others ++ [⟨pubkey,cfg.serverHost,expiry⟩]) := hsub.countP_le
    have hne : cfg.serverHost ≠ server := by
      rintro rfl
      simp [isLocalServer] at hremote
    have := hothers.perServer server hremote
    simp only [presentAt, List.countP_append, List.countP_singleton, hne, decide_false] at hcount this ⊢
    simp at hcount
    omega
  · have hcount : presentElsewhere cfg (union others [⟨pubkey,cfg.serverHost,expiry⟩]) ≤
        presentElsewhere cfg (others ++ [⟨pubkey,cfg.serverHost,expiry⟩]) := hsub.countP_le
    have := hothers.elsewhere
    simp only [presentElsewhere, List.countP_append, List.countP_singleton, isLocalServer] at hcount this ⊢
    simp at hcount
    omega

/-- What gossip makes of presence before the caps. -/
def gossiped (cfg : Config) (events : List GossipEvent) (fromServer : Text) (t : ℤ)
    (pres : List PresenceEntry) : List PresenceEntry :=
  let online := announced "online" events
  let touched := online ++ announced "offline" events
  union (pres.filter fun p => p.server ≠ fromServer || !touched.contains p.pubkey)
    (online.dedup.map fun pk => (⟨pk,fromServer,t+cfg.onlineGossipTtl⟩ : PresenceEntry))

/-- The rows of peers before the caps. -/
def announcedRows (cfg : Config) (events : List GossipEvent) (fromServer : Text) (t : ℤ)
    (pres : List PresenceEntry) : List PresenceEntry :=
  (gossiped cfg events fromServer t pres).filter fun p => !isLocalServer cfg p.server

theorem mergePresence_eq (events : List GossipEvent) (fromServer : Text) (t : ℤ) (pres : List PresenceEntry) :
    mergePresence cfg events fromServer t pres =
      union ((gossiped cfg events fromServer t pres).filter fun p => isLocalServer cfg p.server)
        (capList (capPerServer (announcedRows cfg events fromServer t pres) fromServer
          cfg.maxPresencePerServer) cfg.maxPresence) := rfl

theorem gossiped_distinct {pres : List PresenceEntry} (h : (pres.map PresenceEntry.name).Nodup)
    (events : List GossipEvent) (fromServer : Text) (t : ℤ) :
    ((gossiped cfg events fromServer t pres).map PresenceEntry.name).Nodup := by
  refine List.Nodup.sublist ((union_sublist _ _).map _) ?_
  rw [List.map_append]
  refine List.nodup_append.mpr ⟨h.sublist (List.filter_sublist.map _),?_,fun a ha b hb hab => ?_⟩
  · rw [List.map_map]
    refine (List.nodup_dedup _).map fun pk pk' heq => ?_
    exact (Prod.mk.inj heq).1
  · obtain ⟨p,hp,rfl⟩ := List.mem_map.mp ha
    obtain ⟨q,hq,rfl⟩ := List.mem_map.mp hb
    obtain ⟨pk,hpk,rfl⟩ := List.mem_map.mp hq
    obtain ⟨hkey,hserver⟩ := Prod.mk.inj hab
    have hkept := (List.mem_filter.mp hp).2
    simp only at hkey hserver
    simp [hkey, hserver, List.mem_dedup.mp hpk] at hkept

/-- Gossip from a peer leaves the rows of our own server as they are. -/
theorem gossiped_local (events : List GossipEvent) {fromServer : Text} (t : ℤ) (pres : List PresenceEntry)
    (hpeer : isLocalServer cfg fromServer = false) :
    (gossiped cfg events fromServer t pres).filter (fun p => isLocalServer cfg p.server) =
      pres.filter fun p => isLocalServer cfg p.server := by
  have hne : ∀ p : PresenceEntry, isLocalServer cfg p.server = true → p.server ≠ fromServer := by
    rintro p hp rfl
    simp [hp] at hpeer
  have hkept : ((pres.filter fun p => p.server ≠ fromServer ||
      !(announced "online" events ++ announced "offline" events).contains p.pubkey).filter fun p =>
        isLocalServer cfg p.server) = pres.filter fun p => isLocalServer cfg p.server := by
    rw [List.filter_filter]
    refine List.filter_congr fun p _ => ?_
    cases hp : isLocalServer cfg p.server with
    | false => rfl
    | true => simp [hne p hp]
  have hnone : ∀ rows : List PresenceEntry, (∀ p ∈ rows, p.server = fromServer) →
      rows.filter (fun p => isLocalServer cfg p.server) = [] := fun rows hrows =>
    List.filter_eq_nil_iff.mpr fun p hp => by simp [hrows p hp, hpeer]
  simp only [gossiped, union, List.filter_append]
  refine (congrArg₂ (· ++ ·) hkept (hnone _ fun p hp => ?_)).trans (List.append_nil _)
  obtain ⟨pk,-,rfl⟩ := List.mem_map.mp (List.mem_of_mem_filter hp)
  rfl

/-- Gossip adds no rows but those of its sender. -/
theorem presentAt_gossiped {server : Text} (events : List GossipEvent) {fromServer : Text} (t : ℤ)
    (pres : List PresenceEntry) (hne : server ≠ fromServer) :
    presentAt server (gossiped cfg events fromServer t pres) ≤ presentAt server pres := by
  refine ((union_sublist _ _).countP_le).trans ?_
  rw [List.countP_append]
  have hadded : ((announced "online" events).dedup.map fun pk =>
      (⟨pk,fromServer,t+cfg.onlineGossipTtl⟩ : PresenceEntry)).countP (fun p => p.server = server) = 0 := by
    refine List.countP_eq_zero.mpr fun p hp => ?_
    obtain ⟨pk,-,rfl⟩ := List.mem_map.mp hp
    simpa using hne.symm
  rw [hadded]
  exact List.filter_sublist.countP_le

theorem capPerServer_subperm (items : List PresenceEntry) (server : Text) (n : ℤ) :
    (capPerServer items server n).Subperm items := by
  refine (union_sublist _ _).subperm.trans ?_
  refine ((List.subperm_append_left _).mpr (capList_subperm _ n)).trans ?_
  refine List.Perm.subperm ?_
  refine List.perm_append_comm.trans ?_
  have := List.filter_append_perm (fun x : PresenceEntry => decide (x.server = server)) items
  simpa using this

theorem presentAt_capPerServer (items : List PresenceEntry) (server : Text) (n : ℤ) :
    (presentAt server (capPerServer items server n) : ℤ) ≤ max 0 n := by
  have hsub : presentAt server (capPerServer items server n) ≤ presentAt server
      (items.filter (fun x => !(x.server = server)) ++ capList (items.filter fun x => x.server = server) n) :=
    (union_sublist _ _).countP_le
  have hothers : presentAt server (items.filter fun x => !(x.server = server)) = 0 :=
    List.countP_eq_zero.mpr fun p hp => by simpa using (List.mem_filter.mp hp).2
  have hmine : presentAt server (capList (items.filter fun x => x.server = server) n) ≤
      (capList (items.filter fun x => x.server = server) n).length := List.countP_le_length
  have hlen := length_capList (items.filter fun x => x.server = server) n
  simp only [presentAt, List.countP_append] at hsub hothers hmine ⊢
  omega

theorem PresenceOk.gossip {pres : List PresenceEntry} (h : PresenceOk cfg pres) (events : List GossipEvent)
    {fromServer : Text} (t : ℤ) (hpeer : isLocalServer cfg fromServer = false) :
    PresenceOk cfg (mergePresence cfg events fromServer t pres) := by
  rw [mergePresence_eq, gossiped_local events t pres hpeer]
  have hrows : (announcedRows cfg events fromServer t pres).Sublist (gossiped cfg events fromServer t pres) :=
    List.filter_sublist
  have hremote : ∀ p ∈ announcedRows cfg events fromServer t pres, isLocalServer cfg p.server = false :=
    fun p hp => by simpa using (List.mem_filter.mp hp).2
  generalize announcedRows cfg events fromServer t pres = rows at hrows hremote
  have hcapped : (capList (capPerServer rows fromServer cfg.maxPresencePerServer) cfg.maxPresence).Subperm
      (capPerServer rows fromServer cfg.maxPresencePerServer) := capList_subperm _ _
  have hperServer := capPerServer_subperm rows fromServer cfg.maxPresencePerServer
  have hlen := length_capList (capPerServer rows fromServer cfg.maxPresencePerServer) cfg.maxPresence
  have hfrom := presentAt_capPerServer rows fromServer cfg.maxPresencePerServer
  generalize capPerServer rows fromServer cfg.maxPresencePerServer = capped at hcapped hperServer hlen hfrom
  generalize capList capped cfg.maxPresence = left at hcapped hlen
  have hsub := union_sublist (pres.filter fun p => isLocalServer cfg p.server) left
  have hleft : ∀ p ∈ left, isLocalServer cfg p.server = false := fun p hp =>
    hremote p (hperServer.subset (hcapped.subset hp))
  refine ⟨?_,fun server hserver => ?_,?_⟩
  · refine List.Nodup.sublist (hsub.map _) ?_
    rw [List.map_append]
    refine List.nodup_append.mpr ⟨h.distinct.sublist (List.filter_sublist.map _),?_,fun a ha b hb hab => ?_⟩
    · exact nodup_names_of_subperm (gossiped_distinct h.distinct events fromServer t)
        (hcapped.trans (hperServer.trans hrows.subperm))
    · obtain ⟨p,hp,rfl⟩ := List.mem_map.mp ha
      obtain ⟨q,hq,rfl⟩ := List.mem_map.mp hb
      have hp := (List.mem_filter.mp hp).2
      have hq := hleft q hq
      rw [show p.server = q.server from (Prod.mk.inj hab).2] at hp
      simp [hq] at hp
  · have hcount := hsub.countP_le (p := fun p => p.server = server)
    have hours : (pres.filter fun p => isLocalServer cfg p.server).countP (fun p => p.server = server) = 0 := by
      refine List.countP_eq_zero.mpr fun p hp => ?_
      rintro hp'
      have hp := (List.mem_filter.mp hp).2
      rw [of_decide_eq_true hp', hserver] at hp
      simp at hp
    rw [List.countP_append, hours, Nat.zero_add] at hcount
    have hbelow := hcapped.countP_le fun p => p.server = server
    by_cases hne : server = fromServer
    · subst hne
      simp only [presentAt] at hfrom ⊢
      omega
    · have hold := h.perServer server hserver
      have hmid := (hperServer.trans hrows.subperm).countP_le fun p => p.server = server
      have hgossiped := @presentAt_gossiped cfg server events fromServer t pres hne
      simp only [presentAt] at hold hgossiped ⊢
      omega
  · have hcount := hsub.countP_le (p := fun p => !isLocalServer cfg p.server)
    have hours : (pres.filter fun p => isLocalServer cfg p.server).countP
        (fun p => !isLocalServer cfg p.server) = 0 :=
      List.countP_eq_zero.mpr fun p hp => by simpa using (List.mem_filter.mp hp).2
    rw [List.countP_append, hours, Nat.zero_add] at hcount
    have hall : left.countP (fun p => !isLocalServer cfg p.server) ≤ left.length := List.countP_le_length
    simp only [presentElsewhere]
    omega

theorem PresenceOk.commit {s : State} (h : PresenceOk cfg s.presence) (txn : Txn) :
    PresenceOk cfg (commit cfg s txn).presence := by
  cases txn with
  | sendMessages messages senderKey t =>
    simp only [Relay.commit, handleSendMessages]
    split
    · exact h
    · rwa [sendAll_presence]
  | forwardMessage toKey blob t =>
    simp only [Relay.commit, handleForwardMessage]
    split
    · exact h
    split <;> exact h
  | verifyAuth pubkey t => exact h.refresh pubkey _
  | setupPoll pubkey cursor t =>
    simp only [Relay.commit, setupPoll]
    split <;> split
    · exact PresenceOk.refresh (s := ackPolledMessages pubkey _ s) h pubkey _
    · exact h
    · exact h.refresh pubkey _
    · exact h
  | recvGossip events server t =>
    simp only [Relay.commit, handleRecvGossip]
    split
    · exact h
    · rename_i hok
      refine h.gossip events t ?_
      simp only [refusesGossip, Bool.or_eq_true, not_or, Bool.not_eq_true] at hok
      exact hok.1.1.2
  | prune t => exact h.filter _
  | forwardQueued | forwardAccepted | forwardRetried | dropServer => exact h

theorem presenceOk_run {txns : List Txn} {s : State} (hrun : Lts.run (step cfg) {} txns = some s) :
    PresenceOk cfg s.presence := by
  have hstart : PresenceOk cfg ({} : State).presence :=
    ⟨List.nodup_nil,fun _ _ => le_max_left _ _,le_max_left _ _⟩
  refine Lts.run_invariant (step cfg) (I := fun s => PresenceOk cfg s.presence) (fun s txn s' h hstep => ?_)
    hstart hrun
  obtain rfl := Option.some.inj hstep
  exact h.commit txn

/-- The rows of peers that are left by the cap of the sender. -/
def cappedRows (cfg : Config) (events : List GossipEvent) (fromServer : Text) (t : ℤ)
    (pres : List PresenceEntry) : List PresenceEntry :=
  capPerServer (announcedRows cfg events fromServer t pres) fromServer cfg.maxPresencePerServer

/-- A row that gossip finds or brings stays, or makes way for rows that expire no sooner: for those of its
server if it is the sender's and there are too many of them, or for those of all peers if there are
too many in all. -/
theorem gossip_cuts {events : List GossipEvent} {fromServer : Text} {t : ℤ} {pres : List PresenceEntry}
    {p : PresenceEntry} (hp : p ∈ announcedRows cfg events fromServer t pres)
    (hgone : p ∉ mergePresence cfg events fromServer t pres) :
    (p.server = fromServer ∧
      cfg.maxPresencePerServer < presentAt fromServer (announcedRows cfg events fromServer t pres)) ∨
    (cfg.maxPresence < (cappedRows cfg events fromServer t pres).length ∧
      ∀ q ∈ mergePresence cfg events fromServer t pres, isLocalServer cfg q.server = false →
        p.expiresAt ≤ q.expiresAt) := by
  rw [mergePresence_eq] at hgone ⊢
  change p ∉ union _ (capList (cappedRows cfg events fromServer t pres) cfg.maxPresence) at hgone
  simp only [mem_union, not_or] at hgone
  by_cases hcapped : p ∈ cappedRows cfg events fromServer t pres
  · right
    obtain ⟨hmany,hlate⟩ := capList_cuts hcapped hgone.2
    refine ⟨hmany,fun q hq hremote => ?_⟩
    obtain hq | hq := mem_union.mp hq
    · have := (List.mem_filter.mp hq).2
      simp [hremote] at this
    · exact hlate q hq
  · left
    have hserver : p.server = fromServer := by
      by_contra hne
      exact hcapped (mem_union.mpr (.inl (List.mem_filter.mpr ⟨hp,by simpa using hne⟩)))
    refine ⟨hserver,?_⟩
    have hmine : p ∈ (announcedRows cfg events fromServer t pres).filter fun x => x.server = fromServer :=
      List.mem_filter.mpr ⟨hp,by simpa using hserver⟩
    have hcut := (capList_cuts hmine fun h => hcapped (mem_union.mpr (.inr h))).1
    rwa [presentAt, List.countP_eq_length_filter]

/-- In every state that a relay reaches, gossip that is refused changes nothing. Gossip that is taken in
leaves our own presence as it is, makes a key that it announces both online and offline online at its
sender, or leaves it to a cap, and cancels no forward to it. Each key has one row for each server, the
caps on the rows of peers hold, and a row of another peer goes only if there are too many rows in
all, and then before those that expire later. -/
theorem gossip_spares_presence {txns : List Txn} {s : State}
    (hrun : Lts.run (step cfg) {} txns = some s) (events : List GossipEvent) (fromServer : Text) (t : ℤ) :
    (handleRecvGossip cfg events fromServer t s).presence.filter (fun p => isLocalServer cfg p.server) =
        s.presence.filter (fun p => isLocalServer cfg p.server) ∧
      ((handleRecvGossip cfg events fromServer t s).presence.map fun p => (p.pubkey,p.server)).Nodup ∧
      (isLocalServer cfg fromServer = false →
        (presentAt fromServer (handleRecvGossip cfg events fromServer t s).presence : ℤ) ≤
          max 0 cfg.maxPresencePerServer) ∧
      (presentElsewhere cfg (handleRecvGossip cfg events fromServer t s).presence : ℤ) ≤
        max 0 cfg.maxPresence ∧
      (refusesGossip cfg events fromServer = true → handleRecvGossip cfg events fromServer t s = s) ∧
      (refusesGossip cfg events fromServer = false →
        ∀ pk ∈ announced "online" events, pk ∈ announced "offline" events →
          (⟨pk,fromServer,t+cfg.onlineGossipTtl⟩ ∈ (handleRecvGossip cfg events fromServer t s).presence ∨
            cfg.maxPresencePerServer <
              presentAt fromServer (announcedRows cfg events fromServer t s.presence) ∨
            cfg.maxPresence < (cappedRows cfg events fromServer t s.presence).length) ∧
          ∀ f ∈ s.forwards, f.toKey = pk →
            f ∈ (handleRecvGossip cfg events fromServer t s).forwards) ∧
      ∀ p ∈ s.presence, isLocalServer cfg p.server = false → p.server ≠ fromServer →
        p ∉ (handleRecvGossip cfg events fromServer t s).presence →
          cfg.maxPresence < (cappedRows cfg events fromServer t s.presence).length ∧
          ∀ q ∈ (handleRecvGossip cfg events fromServer t s).presence,
            isLocalServer cfg q.server = false → p.expiresAt ≤ q.expiresAt := by
  have hok : PresenceOk cfg (handleRecvGossip cfg events fromServer t s).presence :=
    (presenceOk_run hrun).commit (.recvGossip events fromServer t)
  cases hrefused : refusesGossip cfg events fromServer with
  | true =>
    have hsame : handleRecvGossip cfg events fromServer t s = s := if_pos hrefused
    rw [hsame] at hok ⊢
    exact ⟨rfl,hok.distinct,hok.perServer fromServer,hok.elsewhere,fun _ => rfl,by simp,
      fun p hp _ _ hgone => absurd hp hgone⟩
  | false =>
    have hpeer : isLocalServer cfg fromServer = false := by
      simp only [refusesGossip, Bool.or_eq_false_iff] at hrefused
      exact hrefused.1.1.2
    have hpresence : (handleRecvGossip cfg events fromServer t s).presence =
        mergePresence cfg events fromServer t s.presence := by
      simp only [handleRecvGossip, hrefused, Bool.false_eq_true, if_false]
    refine ⟨?_,hok.distinct,hok.perServer fromServer,hok.elsewhere,by simp,fun _ pk honline _ => ⟨?_,?_⟩,?_⟩
    · rw [hpresence, mergePresence_eq, gossiped_local events t _ hpeer]
      simp only [union, List.filter_append, List.filter_filter, Bool.and_self]
      refine (congrArg _ (List.filter_eq_nil_iff.mpr fun p hp => ?_)).trans (List.append_nil _)
      have hp := (capPerServer_subperm _ _ _).subset ((capList_subperm _ _).subset hp)
      have hremote : isLocalServer cfg p.server = false := by simpa using (List.mem_filter.mp hp).2
      simp [hremote]
    · rw [hpresence]
      by_contra hnot
      simp only [not_or] at hnot
      have hrow : (⟨pk,fromServer,t+cfg.onlineGossipTtl⟩ : PresenceEntry) ∈
          announcedRows cfg events fromServer t s.presence := by
        refine List.mem_filter.mpr ⟨mem_union.mpr (.inr ?_),by simpa using hpeer⟩
        exact List.mem_map.mpr ⟨pk,List.mem_dedup.mpr honline,rfl⟩
      obtain ⟨-,hmany⟩ | ⟨hmany,-⟩ := gossip_cuts hrow hnot.1
      · exact hnot.2.1 hmany
      · exact hnot.2.2 hmany
    · intro f hf hkey
      simp only [handleRecvGossip, hrefused, Bool.false_eq_true, if_false]
      refine List.mem_filter.mpr ⟨hf,?_⟩
      simp [hkey, honline]
    · rw [hpresence]
      intro p hp hremote hne hgone
      have hrow : p ∈ announcedRows cfg events fromServer t s.presence := by
        refine List.mem_filter.mpr ⟨mem_union.mpr (.inl (List.mem_filter.mpr ⟨hp,?_⟩)),by simpa using hremote⟩
        simp [hne]
      obtain ⟨hserver,-⟩ | h := gossip_cuts hrow hgone
      · exact absurd hserver hne
      · exact h

/-- A key that is announced both online and offline. -/
def bothEvents : List GossipEvent :=
  [⟨"online".toList,some (sampleKey 'b')⟩,⟨"offline".toList,some (sampleKey 'b')⟩]

/-- Our own user, and a peer that announces a key both online and offline. -/
theorem gossip_spares_presence_both : ∃ s,
    Lts.run (step sampleMesh) {} [.verifyAuth (sampleKey 'a') 0] = some s ∧
    (handleRecvGossip sampleMesh bothEvents "peer.example".toList 1 s).presence.length = 2 ∧
    ((handleRecvGossip sampleMesh bothEvents "peer.example".toList 1 s).presence.map fun p =>
      (p.pubkey,p.server)).Nodup := by
  have hrun : Lts.run (step sampleMesh) {} [.verifyAuth (sampleKey 'a') 0] =
    some (commit sampleMesh {} (.verifyAuth (sampleKey 'a') 0)) := rfl
  exact ⟨_,hrun,by decide +kernel,(gossip_spares_presence hrun bothEvents "peer.example".toList 1).2.1⟩

/-- Gossip that names us as its sender is refused, and the key is not online. -/
theorem spoofed_gossip_refused : isLocalServer sampleMesh "localhost".toList = true ∧
    sampleKey 'b' ∈ announced "online" bothEvents ∧ sampleKey 'b' ∈ announced "offline" bothEvents ∧
    (handleRecvGossip sampleMesh bothEvents "localhost".toList 1 {}).presence = [] := by
  decide

end Skrepka.Relay
