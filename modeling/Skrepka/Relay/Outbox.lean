import Skrepka.Relay.Forks

/-! The outbox of forwards over the runs of a relay: each forward is in it once, the caps hold, and what
has been retried too often is gone. -/
namespace Skrepka.Relay
open Sequenced

variable {cfg : Config}

/-- What makes a forward the one that it is. -/
def ForwardEntry.name (f : ForwardEntry) : Text × Text × Text := (f.toKey,f.encryptedBlob,f.toServer)

theorem forwardMatches_iff {toKey blob server : Text} {f : ForwardEntry} :
    forwardMatches toKey blob server f = true ↔ f.name = (toKey,blob,server) := by
  simp [forwardMatches, ForwardEntry.name, and_assoc]

variable (cfg) in
/-- An outbox is a set of forwards, within the caps, and with retries left. -/
structure Outbox (fwds : List ForwardEntry) : Prop where
  distinct : (fwds.map ForwardEntry.name).Nodup
  total : (fwds.length : ℤ) ≤ cfg.maxForwardsTotal
  perServer : ∀ server, (fwds.countP (fun f => f.toServer = server) : ℤ) ≤ cfg.maxForwardsPerServer
  retries : ∀ f ∈ fwds, f.retries < cfg.maxForwardRetries

theorem Outbox.of_subperm {fwds fwds' : List ForwardEntry} (h : Outbox cfg fwds)
    (hsub : fwds'.Subperm fwds) : Outbox cfg fwds' where
  distinct := by
    obtain ⟨mid,hperm,hsub⟩ := hsub
    exact (hperm.map _).nodup_iff.mp (h.distinct.sublist (hsub.map _))
  total := by
    have := hsub.length_le
    have := h.total
    omega
  perServer server := by
    have := hsub.countP_le fun f => f.toServer = server
    have := h.perServer server
    omega
  retries f hf := h.retries f (hsub.subset hf)

theorem Outbox.filter {fwds : List ForwardEntry} (h : Outbox cfg fwds) (p : ForwardEntry → Bool) :
    Outbox cfg (fwds.filter p) := h.of_subperm List.filter_sublist.subperm

theorem capForwards_subperm (fwds : List ForwardEntry) : (capForwards cfg fwds).Subperm fwds :=
  (List.take_sublist _ _).subperm.trans (List.perm_insertionSort _ _).subperm

theorem mem_capForwards {fwds new : List ForwardEntry} {f : ForwardEntry}
    (hf : f ∈ capForwards cfg (union fwds new)) : f ∈ fwds ∨ f ∈ new :=
  mem_union.mp ((capForwards_subperm _).subset hf)

/-- Forwards that are not queued yet, as many as their peers have room for. -/
structure Fits (cfg : Config) (fwds new : List ForwardEntry) : Prop where
  distinct : (new.map ForwardEntry.name).Nodup
  fresh : ∀ f ∈ new, f.name ∉ fwds.map ForwardEntry.name
  room : ∀ f ∈ new, (fwds.countP (fun g => g.toServer = f.toServer) : ℤ)+
    new.countP (fun g => g.toServer = f.toServer) ≤ cfg.maxForwardsPerServer
  untried : ∀ f ∈ new, f.retries = 0

theorem Fits.union_eq {fwds new : List ForwardEntry} (h : Fits cfg fwds new) :
    union fwds new = fwds ++ new := by
  have hall : new.filter (fun f => f ∉ fwds) = new :=
    List.filter_eq_self.mpr fun f hf => decide_eq_true fun hmem =>
      h.fresh f hf (List.mem_map_of_mem hmem)
  rw [union, hall]

theorem Fits.names {fwds new : List ForwardEntry} (hnew : Fits cfg fwds new)
    (hdistinct : (fwds.map ForwardEntry.name).Nodup) : ((fwds ++ new).map ForwardEntry.name).Nodup := by
  rw [List.map_append]
  refine List.nodup_append.mpr ⟨hdistinct,hnew.distinct,fun a ha b hb hab => ?_⟩
  obtain ⟨f,hf,rfl⟩ := List.mem_map.mp hb
  exact hnew.fresh f hf (hab ▸ ha)

/-- Queueing them and cutting to the cap. -/
theorem Outbox.queue {fwds new : List ForwardEntry} (h : Outbox cfg fwds) (hnew : Fits cfg fwds new)
    (hretries : 1 ≤ cfg.maxForwardRetries) (htotal : 1 ≤ cfg.maxForwardsTotal) :
    Outbox cfg (capForwards cfg (union fwds new)) := by
  rw [hnew.union_eq]
  have hsub : (capForwards cfg (fwds ++ new)).Subperm (fwds ++ new) := capForwards_subperm _
  refine ⟨?_,?_,fun server => ?_,fun f hf => ?_⟩
  · obtain ⟨mid,hperm,hmid⟩ := hsub
    exact (hperm.map _).nodup_iff.mp ((hnew.names h.distinct).sublist (hmid.map _))
  · have : (capForwards cfg (fwds ++ new)).length ≤ cfg.maxForwardsTotal.toNat := List.length_take_le _ _
    omega
  · have hcount := hsub.countP_le fun f => f.toServer = server
    rw [List.countP_append] at hcount
    obtain hnone | hsome := Nat.eq_zero_or_pos (new.countP fun f => f.toServer = server)
    · have := h.perServer server
      omega
    · obtain ⟨f,hf,hserver⟩ := List.countP_pos_iff.mp hsome
      obtain rfl : f.toServer = server := of_decide_eq_true hserver
      have := hnew.room f hf
      omega
  · obtain hf | hf := List.mem_append.mp (hsub.subset hf)
    · exact h.retries f hf
    · rw [hnew.untried f hf]
      omega

variable (cfg) in
/-- The forwards of a blob to some servers that have none queued, have not got it, and are not full. -/
def stagedForwards (toKey blob : Text) (servers had : List Text) (fwds : List ForwardEntry) :
    List ForwardEntry :=
  (servers.filter fun s => !(fwds.any (forwardMatches toKey blob s)) && !had.contains s &&
    (fwds.countP fun f => f.toServer = s) < cfg.maxForwardsPerServer).map fun s => ⟨s,toKey,blob,0⟩

theorem stageForwards_eq (toKey blob : Text) (servers had : List Text) (fwds : List ForwardEntry) :
    stageForwards cfg toKey blob servers had fwds =
      capForwards cfg (union fwds (stagedForwards cfg toKey blob servers had fwds)) := rfl

theorem stagedForwards_fits (toKey blob : Text) {servers : List Text} (hservers : servers.Nodup)
    (had : List Text) (fwds : List ForwardEntry) :
    Fits cfg fwds (stagedForwards cfg toKey blob servers had fwds) := by
  refine ⟨?_,fun f hf => ?_,fun f hf => ?_,fun f hf => ?_⟩
  · rw [stagedForwards, List.map_map]
    refine (hservers.filter _).map fun s s' heq => ?_
    simpa [ForwardEntry.name] using heq
  · obtain ⟨s,hs,rfl⟩ := List.mem_map.mp hf
    have hs := (List.mem_filter.mp hs).2
    simp only [Bool.and_eq_true, Bool.not_eq_true', List.any_eq_false] at hs
    intro hmem
    obtain ⟨g,hg,hname⟩ := List.mem_map.mp hmem
    exact hs.1.1 g hg (forwardMatches_iff.mpr hname)
  · obtain ⟨s,hs,rfl⟩ := List.mem_map.mp hf
    have hroom := (List.mem_filter.mp hs).2
    simp only [Bool.and_eq_true, decide_eq_true_eq] at hroom
    have hfresh := hservers.filter fun s => !(fwds.any (forwardMatches toKey blob s)) &&
      !had.contains s && (fwds.countP fun f => f.toServer = s) < cfg.maxForwardsPerServer
    rw [stagedForwards]
    generalize servers.filter _ = fresh at hfresh ⊢
    have honce : (fresh.map fun s => (⟨s,toKey,blob,0⟩ : ForwardEntry)).countP
        (fun g => g.toServer = s) = fresh.count s := by
      rw [List.countP_map, List.count]
      exact List.countP_congr fun s' _ => by simp
    have := List.nodup_iff_count_le_one.mp hfresh s
    change (fwds.countP (fun f => f.toServer = s) : ℤ)+_ ≤ _
    rw [honce]
    omega
  · obtain ⟨s,-,rfl⟩ := List.mem_map.mp hf
    rfl

/-- The forwards that a send stages: one for each of some peers that have room. -/
theorem Outbox.stage {fwds : List ForwardEntry} (h : Outbox cfg fwds)
    (hretries : 1 ≤ cfg.maxForwardRetries) (htotal : 1 ≤ cfg.maxForwardsTotal) (toKey blob : Text)
    {servers : List Text} (hservers : servers.Nodup) (had : List Text) :
    Outbox cfg (stageForwards cfg toKey blob servers had fwds) := by
  rw [stageForwards_eq]
  exact h.queue (stagedForwards_fits toKey blob hservers had fwds) hretries htotal

theorem remoteServers_nodup (pres : List PresenceEntry) (toKey : Text) (t : ℤ) :
    (remoteServers cfg pres toKey t).Nodup := (List.nodup_dedup _).sublist (List.take_sublist _ _)

theorem Outbox.sendAll (hretries : 1 ≤ cfg.maxForwardRetries) (htotal : 1 ≤ cfg.maxForwardsTotal)
    (pres : List PresenceEntry) (t : ℤ) (messages : List Envelope) {s : State}
    (h : Outbox cfg s.forwards) : Outbox cfg (messages.foldl (sendOne cfg pres t) s).forwards := by
  induction messages generalizing s with
  | nil => exact h
  | cons m messages ih =>
    refine ih ?_
    simp only [sendOne]
    split
    · exact h.stage hretries htotal _ _ (remoteServers_nodup pres _ _) _
    · exact h

variable (cfg) in
/-- The forwards of the mail of some keys to a server that has not got it, as far as there is room. -/
def queuedForwards (pubkeys : List Text) (server : Text) (s : State) : List ForwardEntry :=
  let existing := s.forwards.countP fun f => f.toServer = server
  let budget := max 0 (cfg.maxForwardsPerServer-existing)
  let candidates := s.mail.messages.filter fun m => pubkeys.contains m.toKey &&
    !(s.forwards.any (forwardMatches m.toKey m.encryptedBlob server)) && !m.deliveredTo.contains server
  ((sortBy Message.receivedAt candidates).take budget.toNat).map fun m => ⟨server,m.toKey,m.encryptedBlob,0⟩

theorem forwardQueuedToAll_forwards (pubkeys : List Text) (server : Text) (s : State) :
    (forwardQueuedToAll cfg pubkeys server s).forwards =
      capForwards cfg (union s.forwards (queuedForwards cfg pubkeys server s)) := rfl

theorem Outbox.queuedForwards_fits {s : State} (h : Outbox cfg s.forwards) (hmail : s.mail.Wf)
    (pubkeys : List Text) (server : Text) :
    Fits cfg s.forwards (queuedForwards cfg pubkeys server s) := by
  have hper := h.perServer server
  simp only [queuedForwards]
  generalize hbudget : max 0 (cfg.maxForwardsPerServer-(s.forwards.countP fun f => f.toServer = server)) =
    budget
  generalize hcandidates : s.mail.messages.filter (fun m => pubkeys.contains m.toKey &&
    !(s.forwards.any (forwardMatches m.toKey m.encryptedBlob server)) && !m.deliveredTo.contains server) =
      candidates
  have hblobs : ((sortBy Message.receivedAt candidates).map fun m => (m.toKey,m.encryptedBlob)).Nodup := by
    rw [((sortBy_perm Message.receivedAt candidates).map _).nodup_iff, ← hcandidates]
    exact hmail.blobs.sublist (List.filter_sublist.map _)
  refine ⟨?_,fun f hf => ?_,fun f hf => ?_,fun f hf => ?_⟩
  · have htaken := hblobs.sublist ((List.take_sublist budget.toNat _).map _)
    rw [List.map_map]
    refine List.Nodup.of_map (fun name : Text × Text × Text => (name.1,name.2.1)) ?_
    rw [List.map_map]
    exact htaken
  · obtain ⟨m,hm,rfl⟩ := List.mem_map.mp hf
    have hm := (mem_sortBy Message.receivedAt).mp (List.mem_of_mem_take hm)
    rw [← hcandidates, List.mem_filter] at hm
    simp only [Bool.and_eq_true, Bool.not_eq_true', List.any_eq_false] at hm
    intro hmem
    obtain ⟨g,hg,hname⟩ := List.mem_map.mp hmem
    exact hm.2.1.2 g hg (forwardMatches_iff.mpr hname)
  · obtain ⟨m,-,rfl⟩ := List.mem_map.mp hf
    change (s.forwards.countP (fun f => f.toServer = server) : ℤ)+_ ≤ _
    refine le_trans (add_le_add_right (Int.ofNat_le.mpr List.countP_le_length) _) ?_
    rw [List.length_map]
    have htaken : ((sortBy Message.receivedAt candidates).take budget.toNat).length ≤ budget.toNat :=
      List.length_take_le _ _
    omega
  · obtain ⟨m,-,rfl⟩ := List.mem_map.mp hf
    rfl

/-- The mail that waits for some keys is queued to a server. -/
theorem Outbox.queueWaiting (hretries : 1 ≤ cfg.maxForwardRetries) (htotal : 1 ≤ cfg.maxForwardsTotal)
    {s : State} (h : Outbox cfg s.forwards) (hmail : s.mail.Wf) (pubkeys : List Text) (server : Text) :
    Outbox cfg (forwardQueuedToAll cfg pubkeys server s).forwards := by
  rw [forwardQueuedToAll_forwards]
  exact h.queue (h.queuedForwards_fits hmail pubkeys server) hretries htotal

/-- A retry counts, and drops what it has counted too often. -/
theorem Outbox.retried {fwds : List ForwardEntry} (h : Outbox cfg fwds) (toKey blob server : Text)
    (success : Bool) (mail : Mailbox) (pres : List PresenceEntry) :
    Outbox cfg (forwardRetried cfg toKey blob server success ⟨mail,pres,fwds⟩).forwards := by
  let isMatch := forwardMatches toKey blob server
  let isDone := fun x : ForwardEntry => isMatch x && (success || x.retries+1 ≥ cfg.maxForwardRetries)
  let bump := fun x : ForwardEntry => if isMatch x then { x with retries := x.retries+1 } else x
  have hleft := h.filter fun x => !isDone x
  change Outbox cfg ((fwds.filter fun x => !isDone x).map bump)
  have hname : ∀ f, (bump f).name = f.name := by
    intro f
    simp only [bump]
    split <;> rfl
  have hserver : ∀ f, (bump f).toServer = f.toServer := by
    intro f
    simp only [bump]
    split <;> rfl
  refine ⟨?_,?_,fun server' => ?_,fun f hf => ?_⟩
  · rw [List.map_map]
    refine (List.map_congr_left fun f _ => ?_).symm ▸ hleft.distinct
    exact hname f
  · rw [List.length_map]
    exact hleft.total
  · rw [List.countP_map]
    refine (congrArg (Nat.cast (R := ℤ)) (List.countP_congr fun f _ => ?_)).le.trans (hleft.perServer server')
    simp [hserver]
  · obtain ⟨g,hg,rfl⟩ := List.mem_map.mp hf
    have hkept := (List.mem_filter.mp hg).2
    have hbound := hleft.retries g hg
    simp only [bump]
    split
    · rename_i hmatch
      simp only [isDone, hmatch, Bool.true_and, Bool.not_eq_true', Bool.or_eq_false_iff,
        decide_eq_false_iff_not] at hkept
      change g.retries+1 < _
      omega
    · exact hbound

theorem Outbox.commit (hretries : 1 ≤ cfg.maxForwardRetries) (htotal : 1 ≤ cfg.maxForwardsTotal)
    {s : State} (h : Outbox cfg s.forwards) (hmail : s.mail.Wf) (txn : Txn) :
    Outbox cfg (commit cfg s txn).forwards := by
  cases txn with
  | sendMessages messages senderKey t =>
    simp only [Relay.commit, handleSendMessages]
    split
    · exact h
    · exact h.sendAll hretries htotal s.presence t messages
  | forwardMessage toKey blob t =>
    simp only [Relay.commit, handleForwardMessage]
    split
    · exact h
    split <;> exact h
  | setupPoll pubkey cursor t =>
    simp only [Relay.commit, setupPoll]
    split <;> split
    · exact h.filter _
    · exact h.filter _
    · exact h
    · exact h
  | recvGossip events server t =>
    simp only [Relay.commit, handleRecvGossip]
    split
    · exact h
    · exact h.filter _
  | forwardQueued pubkeys server => exact h.queueWaiting hretries htotal hmail pubkeys server
  | forwardRetried toKey blob server success => exact h.retried toKey blob server success s.mail s.presence
  | forwardAccepted | dropServer | prune => exact h.filter _
  | verifyAuth => exact h

/-- In every run no forward is queued twice, no cap on forwards is exceeded, and every forward has
retries left. -/
theorem outbox_sound (hretries : 1 ≤ cfg.maxForwardRetries) (htotal : 1 ≤ cfg.maxForwardsTotal)
    (hserver : 1 ≤ cfg.maxForwardsPerServer) {txns : List Txn} {s : State}
    (hrun : Lts.run (step cfg) {} txns = some s) :
    (s.forwards.map fun f => (f.toKey,f.encryptedBlob,f.toServer)).Nodup ∧
      (s.forwards.length : ℤ) ≤ cfg.maxForwardsTotal ∧
      (∀ server, (s.forwards.countP (fun f => f.toServer = server) : ℤ) ≤ cfg.maxForwardsPerServer) ∧
      ∀ f ∈ s.forwards, f.retries < cfg.maxForwardRetries := by
  obtain ⟨-,h⟩ : s.mail.Wf ∧ Outbox cfg s.forwards := by
    refine Lts.run_invariant (step cfg) (I := fun s => s.mail.Wf ∧ Outbox cfg s.forwards)
      (fun s txn s' hs hstep => ?_) ⟨Mailbox.wf_empty,?_⟩ hrun
    · obtain rfl := Option.some.inj hstep
      refine ⟨?_,hs.2.commit hretries htotal hs.1 txn⟩
      rw [commit_mail]
      exact hs.1.foldl cfg _
    · have : (0 : ℤ) ≤ cfg.maxForwardsTotal ∧ (0 : ℤ) ≤ cfg.maxForwardsPerServer := by omega
      exact ⟨List.nodup_nil,this.1,fun _ => this.2,by simp⟩
  exact ⟨h.distinct,h.total,h.perServer,h.retries⟩

/-- A forward is staged by a send, and tried once. -/
def sampleRetried : List Txn :=
  [.recvGossip [⟨"online".toList,some (sampleKey 'b')⟩] "peer.example".toList 0,
    .sendMessages [⟨sampleKey 'b',sampleBlob '1'⟩] (sampleKey 'a') 1,
    .forwardRetried (sampleKey 'b') (sampleBlob '1') "peer.example".toList false]

theorem outbox_sound_retried : ∃ s, Lts.run (step sampleMesh) {} sampleRetried = some s ∧
    s.forwards = [⟨"peer.example".toList,sampleKey 'b',sampleBlob '1',1⟩] ∧
    (s.forwards.map fun f => (f.toKey,f.encryptedBlob,f.toServer)).Nodup ∧
      (s.forwards.length : ℤ) ≤ sampleMesh.maxForwardsTotal ∧
      (∀ server, (s.forwards.countP (fun f => f.toServer = server) : ℤ) ≤ sampleMesh.maxForwardsPerServer) ∧
      ∀ f ∈ s.forwards, f.retries < sampleMesh.maxForwardRetries := by
  have hrun : Lts.run (step sampleMesh) {} sampleRetried =
    some (sampleRetried.foldl (commit sampleMesh) {}) := rfl
  exact ⟨_,hrun,by decide +kernel,outbox_sound (by decide) (by decide) (by decide) hrun⟩

end Skrepka.Relay
