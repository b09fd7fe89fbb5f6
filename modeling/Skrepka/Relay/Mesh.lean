import Mathlib.Logic.Function.Basic
import Skrepka.Relay.Egress

/-! Relays that forward mail to each other. A call may be handled long after it was started, when its caller
has stopped waiting for it; its answer may be lost, and strangers may send anything to any relay. -/
namespace Skrepka.Relay
open Sequenced

/-- The call that a task waits for. -/
def ForwardTask.call (k : ForwardTask) : Option (Text × Text × Text) :=
  k.calling.map fun server => (k.toKey,k.encryptedBlob,server)

/-- The calls that a relay waits for. -/
def Egress.calling (s : Egress) : List (Text × Text × Text) :=
  s.tasks.filterMap ForwardTask.call ++ ((s.sweep.bind Sweep.calling).map ForwardEntry.name).toList

/-- The call of which an act hears that it was accepted. -/
def Egress.hears (s : Egress) (act : EgressAct) : Option (Text × Text × Text) := (s.txn act).bind marks

/-- The relays by their host names, the calls that were started and that no peer has handled yet, and the
answers to accepted calls: the caller and the call. -/
structure Mesh where
  relays : Text → Egress := fun _ => {}
  calls : List (Text × Text × Text × Text) := []
  accepted : List (Text × Text × Text × Text) := []

inductive MeshAct
  /-- A relay does something by itself, for a client or a stranger, or hears from a peer. -/
  | relay (host : Text) (act : EgressAct)
  /-- A peer handles a call that a relay has started, and may have given up on since. -/
  | serve (host : Text) (name : Text × Text × Text) (t : ℤ)

section
variable (cfg : Text → Config) (members : Text → Bool)

/-- A call passes the types of its route, and finds its recipient online. -/
def accepts (peer : Text) (s : Egress) (name : Text × Text × Text) (t : ℤ) : Bool :=
  isValidExactHex 64 name.1 && isValidBlobHex (cfg peer) name.2.1 && (cfg peer).federationEnabled &&
    hasLocalPresence (cfg peer) s.relay.presence name.1 t

/-- Only the members of the mesh are bound by it: that a member has accepted a call is heard only if it
has. -/
def meshStep (s : Mesh) : MeshAct → Option Mesh
  | .relay host act =>
    if members host && ((s.relays host).hears act).all fun name =>
        !members name.2.2 || s.accepted.contains (host,name) then
      (egressStep (cfg host) (s.relays host) act).map fun relay =>
        { s with
          relays := Function.update s.relays host relay
          calls := s.calls ++ ((s.relays host).starts act).toList.map fun name => (host,name) }
    else none
  | .serve host (toKey,blob,peer) t =>
    if members peer && s.calls.contains (host,toKey,blob,peer) then
      let calls := s.calls.erase (host,toKey,blob,peer)
      if accepts cfg peer (s.relays peer) (toKey,blob,peer) t then
        let relay := commit (cfg peer) (s.relays peer).relay (.forwardMessage toKey blob t)
        some ⟨Function.update s.relays peer { s.relays peer with relay },calls,
          (host,toKey,blob,peer) :: s.accepted⟩
      else some { s with calls }
    else none

/-- What an observer has seen: the messages that clients sent, with the relay and the sender; those that
strangers brought in; and the calls after which a member held the message for a recipient online there. -/
structure MeshLog where
  sent : List (Text × Text × Text × Text) := []
  injected : List (Text × Text × Text) := []
  filed : List (Text × Text × Text × Text) := []

def noteMesh (s : Mesh) (act : MeshAct) (s' : Mesh) (log : MeshLog) : MeshLog :=
  match act with
  | .relay host act =>
    match (s.relays host).txn act with
    | some (.sendMessages messages senderKey t) =>
      let filed := filedBlobs (cfg host) (s.relays host).relay (.sendMessages messages senderKey t)
      { log with sent := log.sent ++ filed.map fun p => (host,senderKey,p) }
    | some (.forwardMessage toKey blob t) =>
      let filed := filedBlobs (cfg host) (s.relays host).relay (.forwardMessage toKey blob t)
      { log with injected := log.injected ++ filed.map fun p => (host,p) }
    | _ => log
  | .serve host name t =>
    if hasLocalPresence (cfg name.2.2) (s.relays name.2.2).relay.presence name.1 t &&
        Mailbox.stored name.1 name.2.1 (s'.relays name.2.2).relay.mail.messages then
      { log with filed := log.filed ++ [(host,name)] }
    else log

/-- A message comes from a client of some relay, or from a stranger. -/
def Origin (log : MeshLog) (p : Text × Text) : Prop :=
  (∃ host senderKey, (host,senderKey,p) ∈ log.sent) ∨ ∃ host, (host,p) ∈ log.injected

/-- What a relay stores, queues and calls for has an origin, and what it marks as delivered to a member was
filed there. -/
structure TracedRelay (log : MeshLog) (host : Text) (s : Egress) : Prop where
  wf : s.relay.mail.Wf
  rows : ∀ p ∈ s.relay.mail.messages.map Message.name, Origin log p
  queued : ∀ f ∈ s.relay.forwards, Origin log (f.toKey,f.encryptedBlob)
  calls : ∀ name, name ∈ s.left (cfg host) ∨ name ∈ s.calling → Origin log (name.1,name.2.1)
  marked : ∀ name, s.relay.mail.Has name → members name.2.2 = true → (host,name) ∈ log.filed

/-- So it is of all relays; what is called for has an origin; what was sent is valid; and what is said to
be accepted was filed. -/
structure Traced (s : Mesh) (log : MeshLog) : Prop where
  relays : ∀ host, TracedRelay cfg members log host (s.relays host)
  calls : ∀ e ∈ s.calls, Origin log (e.2.1,e.2.2.1)
  valid : ∀ e ∈ log.sent, e.2.1 ≠ e.2.2.1 ∧ isValidExactHex 64 e.2.2.1 = true ∧
    isValidBlobHex (cfg e.1) e.2.2.2 = true
  accepted : s.accepted ⊆ log.filed

variable {cfg members}

theorem Origin.mono {log log' : MeshLog} {p : Text × Text} (hsent : log.sent ⊆ log'.sent)
    (hinjected : log.injected ⊆ log'.injected) (h : Origin log p) : Origin log' p := by
  obtain ⟨host,senderKey,h⟩ | ⟨host,h⟩ := h
  · exact .inl ⟨host,senderKey,hsent h⟩
  · exact .inr ⟨host,hinjected h⟩

theorem TracedRelay.mono {log log' : MeshLog} {host : Text} {s : Egress} (hsent : log.sent ⊆ log'.sent)
    (hinjected : log.injected ⊆ log'.injected) (hfiled : log.filed ⊆ log'.filed)
    (h : TracedRelay cfg members log host s) : TracedRelay cfg members log' host s :=
  ⟨h.wf,fun p hp => (h.rows p hp).mono hsent hinjected,fun f hf => (h.queued f hf).mono hsent hinjected,
    fun name hname => (h.calls name hname).mono hsent hinjected,
    fun name hname hpeer => hfiled (h.marked name hname hpeer)⟩

/-- One relay changes, and the others are known as before. -/
theorem tracedRelay_update {log : MeshLog} {relays : Text → Egress} {host : Text} {s : Egress}
    (hothers : ∀ other, TracedRelay cfg members log other (relays other))
    (hthis : TracedRelay cfg members log host s) (other : Text) :
    TracedRelay cfg members log other (Function.update relays host s other) := by
  by_cases hother : other = host
  · subst hother
    simpa using hthis
  · simpa [hother] using hothers other

/-- The calls under way after an act were under way before, or were left to make. -/
theorem calling_step {cfg : Config} {s s' : Egress} {act : EgressAct} (h : egressStep cfg s act = some s')
    {name : Text × Text × Text} (hname : name ∈ s'.calling) : name ∈ s.calling ∨ name ∈ s.left cfg := by
  obtain ⟨⟨tasks,sweep⟩,hp,rfl⟩ := Option.map_eq_some_iff.mp h
  have hproceeds := Egress.proceeds_of_proceed hp
  have htask : ∀ k ∈ s.tasks, k.call = some name → name ∈ s.calling := fun k hk hcall =>
    List.mem_append_left _ (List.mem_filterMap.mpr ⟨k,hk,hcall⟩)
  have hsweep : name ∈ ((s.sweep.bind Sweep.calling).map ForwardEntry.name).toList → name ∈ s.calling :=
    List.mem_append_right _
  obtain hname | hname := List.mem_append.mp hname
  · obtain ⟨k,hk,hcall⟩ := List.mem_filterMap.mp hname
    cases hproceeds with
    | commit =>
      obtain hk | hk := List.mem_append.mp hk
      · exact .inl (htask k hk hcall)
      · simp only [forkForwards] at hk
        split at hk
        · split at hk
          · obtain ⟨m,-,rfl⟩ := List.mem_map.mp hk
            simp [ForwardTask.call] at hcall
          · simp at hk
        · simp at hk
    | forward hk' hturn =>
      obtain hk | rfl := List.mem_or_eq_of_mem_set hk
      · exact .inl (htask k hk hcall)
      · obtain ⟨server,hserver,rfl⟩ := Option.map_eq_some_iff.mp hcall
        exact .inr (List.mem_append_left _ (List.mem_flatMap.mpr ⟨_,hk',ForwardTask.calling_left hturn hserver⟩))
    | forwarded hk' =>
      obtain hk | rfl := List.mem_or_eq_of_mem_set hk
      · exact .inl (htask k hk hcall)
      · simp [ForwardTask.call] at hcall
    | sweep | sweepServer | retry | retried => exact .inl (htask k hk hcall)
  · cases hproceeds with
    | commit | forward | forwarded => exact .inl (hsweep hname)
    | sweep => simp at hname
    | @sweepServer retry w w' hw hturn =>
      unfold Sweep.turn at hturn
      split at hturn
      · rename_i hnone _ _
        obtain rfl := Option.some.inj hturn
        simp [hnone] at hname
      · cases hturn
    | @retry w w' hw hcall =>
      simp only [Option.bind_some, Option.mem_toList, Option.map_eq_some_iff] at hname
      obtain ⟨f,hf,rfl⟩ := hname
      refine .inr (List.mem_append_right _ ?_)
      rw [hw]
      exact (Sweep.call_left hcall).2 f hf
    | retried hw => simp at hname

variable (cfg) in
theorem noteMesh_grows (s : Mesh) (act : MeshAct) (s' : Mesh) (log : MeshLog) :
    log.sent ⊆ (noteMesh cfg s act s' log).sent ∧ log.injected ⊆ (noteMesh cfg s act s' log).injected ∧
      log.filed ⊆ (noteMesh cfg s act s' log).filed := by
  cases act with
  | relay host act =>
    simp only [noteMesh]
    split <;> simp
  | serve host name t =>
    simp only [noteMesh]
    split <;> simp

/-- Only sends and forwards file anything. -/
theorem filedBlobs_noted {s s' : Mesh} {host : Text} {act : EgressAct} {log : MeshLog} {txn : Txn}
    (htxn : (s.relays host).txn act = some txn) {p : Text × Text}
    (hp : p ∈ filedBlobs (cfg host) (s.relays host).relay txn) :
    Origin (noteMesh cfg s (.relay host act) s' log) p := by
  have hnone : filedBlobs (cfg host) (s.relays host).relay txn = [] →
      Origin (noteMesh cfg s (.relay host act) s' log) p := fun h => by simp [h] at hp
  cases txn with
  | sendMessages messages senderKey t =>
    refine .inl ⟨host,senderKey,?_⟩
    simp only [noteMesh, htxn]
    exact List.mem_append_right _ (List.mem_map_of_mem hp)
  | forwardMessage toKey blob t =>
    refine .inr ⟨host,?_⟩
    simp only [noteMesh, htxn]
    exact List.mem_append_right _ (List.mem_map_of_mem hp)
  | setupPoll pubkey cursor t =>
    refine hnone ?_
    simp only [filedBlobs, mailOps]
    split <;> rfl
  | forwardRetried toKey blob server success => cases success <;> exact hnone rfl
  | verifyAuth | recvGossip | forwardQueued | forwardAccepted | dropServer | prune => exact hnone rfl

/-- What a batch files is valid, and not for its sender. -/
theorem filedBlobs_valid {cfg : Config} {s : State} {messages : List Envelope} {senderKey : Text} {t : ℤ}
    {p : Text × Text} (hp : p ∈ filedBlobs cfg s (.sendMessages messages senderKey t)) :
    senderKey ≠ p.1 ∧ isValidExactHex 64 p.1 = true ∧ isValidBlobHex cfg p.2 = true := by
  simp only [filedBlobs, mailOps] at hp
  split at hp
  · rename_i hvalid
    obtain ⟨op,hop,hfiled⟩ := List.mem_filterMap.mp hp
    obtain ⟨m,hm,rfl⟩ := List.mem_map.mp hop
    obtain rfl := Option.some.inj hfiled
    simp only [validateBatch] at hvalid
    split at hvalid
    · cases hvalid
    split at hvalid
    · cases hvalid
    rename_i hfields
    split at hvalid
    · cases hvalid
    rename_i hself
    rw [Bool.not_eq_true, List.any_eq_false] at hfields hself
    have hfields := hfields m hm
    have hself := hself m hm
    simp only [Bool.not_eq_true', Bool.not_eq_false, Bool.and_eq_true, decide_eq_true_eq] at hfields hself
    exact ⟨Ne.symm hself,hfields⟩
  · simp at hp

theorem noteMesh_valid {s s' : Mesh} {act : MeshAct} {log : MeshLog}
    (h : ∀ e ∈ log.sent, e.2.1 ≠ e.2.2.1 ∧ isValidExactHex 64 e.2.2.1 = true ∧
      isValidBlobHex (cfg e.1) e.2.2.2 = true) :
    ∀ e ∈ (noteMesh cfg s act s' log).sent, e.2.1 ≠ e.2.2.1 ∧ isValidExactHex 64 e.2.2.1 = true ∧
      isValidBlobHex (cfg e.1) e.2.2.2 = true := by
  cases act with
  | relay host act =>
    simp only [noteMesh]
    split
    · intro e he
      obtain he | he := List.mem_append.mp he
      · exact h e he
      · obtain ⟨p,hp,rfl⟩ := List.mem_map.mp he
        exact filedBlobs_valid hp
    · exact h
    · exact h
  | serve host name t =>
    simp only [noteMesh]
    split <;> exact h

/-- A relay that does something by itself keeps what is known of its mail. -/
theorem Traced.relay {s s' : Mesh} {log : MeshLog} (h : Traced cfg members s log) {host : Text}
    {act : EgressAct} {e : Egress}
    (hhears : ∀ name, (s.relays host).hears act = some name → members name.2.2 = true →
      (host,name) ∈ s.accepted)
    (hstep : egressStep (cfg host) (s.relays host) act = some e) :
    TracedRelay cfg members (noteMesh cfg s (.relay host act) s' log) host e := by
  obtain ⟨hsent,hinjected,hfiled⟩ := noteMesh_grows cfg s (.relay host act) s' log
  have hold := (h.relays host).mono hsent hinjected hfiled
  have hrelay := relay_step hstep
  have hcalls : ∀ name, name ∈ e.left (cfg host) ∨ name ∈ e.calling →
      Origin (noteMesh cfg s (.relay host act) s' log) (name.1,name.2.1) := by
    intro name hname
    obtain hname | hname := hname
    · obtain hname | hname := left_step hstep name hname
      · exact hold.calls name (.inl hname)
      · obtain hname | hname := List.mem_append.mp hname
        · cases act with
          | commit txn =>
            have htxn : (s.relays host).txn (.commit txn) = some txn := rfl
            exact filedBlobs_noted htxn (forks_filed rfl hname)
          | _ => simp [Egress.forks] at hname
        · cases act with
          | sweep =>
            obtain ⟨f,hf,rfl⟩ := List.mem_map.mp hname
            exact hold.queued f hf
          | _ => simp at hname
    · exact hold.calls name (calling_step hstep hname).symm
  cases htxn : (s.relays host).txn act with
  | none =>
    rw [htxn, Option.elim_none] at hrelay
    exact ⟨hrelay ▸ hold.wf,hrelay ▸ hold.rows,hrelay ▸ hold.queued,hcalls,hrelay ▸ hold.marked⟩
  | some txn =>
    rw [htxn, Option.elim_some] at hrelay
    refine ⟨?_,fun p hp => ?_,fun f hf => ?_,hcalls,fun name hname hpeer => ?_⟩
    · rw [hrelay, commit_mail]
      exact hold.wf.foldl (cfg host) _
    · rw [hrelay] at hp
      obtain hp | hp := name_commit hold.wf txn hp
      · exact hold.rows p hp
      · exact filedBlobs_noted htxn hp
    · rw [hrelay] at hf
      obtain ⟨⟨g,hg,hname⟩,-⟩ | ⟨-,hstored | ⟨t,hop⟩⟩ := forwards_commit hold.wf hf
      · simp only [ForwardEntry.name, Prod.mk.injEq] at hname
        have horigin := hold.queued g hg
        rwa [hname.1, hname.2.1] at horigin
      · exact hold.rows _ ((@stored_name (f.toKey,f.encryptedBlob) _).mp hstored)
      · exact filedBlobs_noted htxn (List.mem_filterMap.mpr ⟨_,hop,rfl⟩)
    · rw [hrelay] at hname
      obtain hname | ⟨-,hmarks⟩ := has_commit hold.wf txn hname
      · exact hold.marked name hname hpeer
      · refine hfiled (h.accepted (hhears name ?_ hpeer))
        rw [Egress.hears, htxn]
        exact hmarks

/-- So does a peer that takes in a forward. -/
theorem TracedRelay.takesIn {log : MeshLog} {peer : Text} {s : Egress} (h : TracedRelay cfg members log peer s)
    {toKey blob : Text} (horigin : Origin log (toKey,blob)) (t : ℤ) :
    TracedRelay cfg members log peer
      { s with relay := commit (cfg peer) s.relay (.forwardMessage toKey blob t) } := by
  refine ⟨?_,fun p hp => ?_,fun f hf => ?_,h.calls,fun name hname hpeer => ?_⟩
  · rw [commit_mail]
    exact h.wf.foldl (cfg peer) _
  · obtain hp | hp := name_commit h.wf _ hp
    · exact h.rows p hp
    · simp only [filedBlobs, mailOps] at hp
      split at hp
      · obtain rfl : p = (toKey,blob) := by simpa [Mailbox.Op.filed] using hp
        exact horigin
      · simp at hp
  · obtain ⟨⟨g,hg,hname⟩,-⟩ | ⟨-,hstored | ⟨t',hop⟩⟩ := forwards_commit h.wf hf
    · simp only [ForwardEntry.name, Prod.mk.injEq] at hname
      have hqueued := h.queued g hg
      rwa [hname.1, hname.2.1] at hqueued
    · exact h.rows _ ((@stored_name (f.toKey,f.encryptedBlob) _).mp hstored)
    · simp only [mailOps] at hop
      split at hop
      · simp only [List.mem_singleton, Mailbox.Op.append.injEq] at hop
        obtain ⟨hkey,hblob,-⟩ := hop
        rwa [hkey, hblob]
      · simp at hop
  · obtain hname | ⟨-,hmarks⟩ := has_commit h.wf _ hname
    · exact h.marked name hname hpeer
    · cases hmarks

theorem Traced.serve {s s' : Mesh} {log : MeshLog} (h : Traced cfg members s log) {host : Text}
    {name : Text × Text × Text} {t : ℤ} (hstep : meshStep cfg members s (.serve host name t) = some s') :
    Traced cfg members s' (noteMesh cfg s (.serve host name t) s' log) := by
  obtain ⟨toKey,blob,peer⟩ := name
  obtain ⟨hsent,hinjected,hfiled⟩ := noteMesh_grows cfg s (.serve host (toKey,blob,peer) t) s' log
  have hold := fun other => (h.relays other).mono hsent hinjected hfiled
  simp only [meshStep, Option.ite_none_right_eq_some, Bool.and_eq_true, List.contains_iff_mem] at hstep
  obtain ⟨⟨-,hcall⟩,hstep⟩ := hstep
  have hcalls : ∀ e ∈ s.calls,
      Origin (noteMesh cfg s (.serve host (toKey,blob,peer) t) s' log) (e.2.1,e.2.2.1) := fun e he =>
    (h.calls e he).mono hsent hinjected
  split at hstep
  · rename_i haccepts
    obtain rfl := Option.some.inj hstep
    simp only [accepts, Bool.and_eq_true] at haccepts
    obtain ⟨⟨-,hfed⟩,hpresence⟩ := haccepts
    refine ⟨tracedRelay_update hold ((hold peer).takesIn (hcalls _ hcall) t),
      fun e he => hcalls e (List.mem_of_mem_erase he),noteMesh_valid h.valid,fun e he => ?_⟩
    obtain rfl | he := List.mem_cons.mp he
    · have hstored := @Mailbox.stored_append_self (cfg peer) toKey blob t (s.relays peer).relay.mail
      simp [noteMesh, hpresence, commit, handleForwardMessage, hfed, hstored]
    · exact hfiled (h.accepted he)
  · obtain rfl := Option.some.inj hstep
    exact ⟨hold,fun e he => hcalls e (List.mem_of_mem_erase he),noteMesh_valid h.valid,
      fun e he => hfiled (h.accepted he)⟩

theorem Traced.step {s s' : Mesh} {log : MeshLog} (h : Traced cfg members s log) {act : MeshAct}
    (hstep : meshStep cfg members s act = some s') : Traced cfg members s' (noteMesh cfg s act s' log) := by
  cases act with
  | relay host act =>
    simp only [meshStep, Option.ite_none_right_eq_some, Bool.and_eq_true] at hstep
    obtain ⟨⟨-,hhears⟩,hstep⟩ := hstep
    obtain ⟨relay,hrelay,rfl⟩ := Option.map_eq_some_iff.mp hstep
    obtain ⟨hsent,hinjected,hfiled⟩ := noteMesh_grows cfg s (.relay host act)
      { s with
        relays := Function.update s.relays host relay
        calls := s.calls ++ ((s.relays host).starts act).toList.map fun name => (host,name) } log
    refine ⟨tracedRelay_update (fun other => (h.relays other).mono hsent hinjected hfiled)
      (h.relay (fun name hname hpeer => ?_) hrelay),fun e he => ?_,noteMesh_valid h.valid,
      fun e he => hfiled (h.accepted he)⟩
    · rw [hname] at hhears
      simpa [hpeer] using hhears
    · obtain he | he := List.mem_append.mp he
      · exact (h.calls e he).mono hsent hinjected
      · obtain ⟨name,hname,rfl⟩ := List.mem_map.mp he
        have hleft := @due_left (cfg host) _ _ (starts_due (Option.mem_toList.mp hname))
        exact ((h.relays host).calls name (.inl hleft)).mono hsent hinjected
  | serve host name t => exact h.serve hstep

theorem traced_run {acts : List MeshAct} {s : Mesh} {log : MeshLog}
    (hrun : Lts.run (Lts.watch (meshStep cfg members) (noteMesh cfg)) ({},{}) acts = some (s,log)) :
    Traced cfg members s log := by
  refine Lts.run_invariant _ (I := fun sl : Mesh × MeshLog => Traced cfg members sl.1 sl.2)
    (fun sl act sl' hI hstep => ?_) ?_ hrun
  · obtain ⟨hact,hnote⟩ := Lts.watch_eq_some _ hstep
    rw [hnote]
    exact hI.step hact
  · exact ⟨fun _ => ⟨Mailbox.wf_empty,by simp,by simp,by simp [Egress.left, Egress.calling],
      by simp [Mailbox.Has]⟩,by simp,by simp,by simp⟩

/-- Whatever any relay of a mesh stores, or calls a peer for, was sent by a client of some relay, in a
valid message to another key, or was brought in by a stranger. -/
theorem mesh_mail_sent {acts : List MeshAct} {s : Mesh} {log : MeshLog}
    (hrun : Lts.run (Lts.watch (meshStep cfg members) (noteMesh cfg)) ({},{}) acts = some (s,log))
    (host : Text) {p : Text × Text} (hp : p ∈ (s.relays host).relay.mail.messages.map Message.name ∨
      ∃ peer, (p.1,p.2,peer) ∈ (s.relays host).calling) :
    (∃ home senderKey, (home,senderKey,p) ∈ log.sent ∧ senderKey ≠ p.1 ∧ isValidExactHex 64 p.1 = true ∧
      isValidBlobHex (cfg home) p.2 = true) ∨ ∃ home, (home,p) ∈ log.injected := by
  have h := traced_run hrun
  have horigin : Origin log p := by
    obtain hrow | ⟨peer,hcall⟩ := hp
    · exact (h.relays host).rows p hrow
    · exact (h.relays host).calls _ (.inr hcall)
  obtain ⟨home,senderKey,hsent⟩ | hinjected := horigin
  · exact .inl ⟨home,senderKey,hsent,h.valid _ hsent⟩
  · exact .inr hinjected

/-- Whatever is lost under way, a row that says that a member of the mesh has got it is right: there was a
time when that member held the message, with its recipient online there. -/
theorem delivery_marks_true {acts : List MeshAct} {s : Mesh} {log : MeshLog}
    (hrun : Lts.run (Lts.watch (meshStep cfg members) (noteMesh cfg)) ({},{}) acts = some (s,log))
    (host : Text) {m : Message} (hm : m ∈ (s.relays host).relay.mail.messages) {peer : Text}
    (hpeer : peer ∈ m.deliveredTo) (hmember : members peer = true) :
    (host,m.toKey,m.encryptedBlob,peer) ∈ log.filed :=
  ((traced_run hrun).relays host).marked (m.toKey,m.encryptedBlob,peer) ⟨m,hm,rfl,rfl,hpeer⟩ hmember

end

def sampleHome : Text := "home.example".toList
def samplePeer : Text := "peer.example".toList

/-- Every relay knows its own name, and two of them are known to be honest. -/
def sampleHosts (host : Text) : Config := { sampleMesh with serverHost := host }
def sampleMembers (host : Text) : Bool := host = sampleHome || host = samplePeer

/-- A key comes online at a peer, and what is sent to it is forwarded there. -/
def sampleExchange : List MeshAct :=
  [.relay samplePeer (.commit (.verifyAuth (sampleKey 'b') 0)),
    .relay sampleHome (.commit (.recvGossip [⟨"online".toList,some (sampleKey 'b')⟩] samplePeer 0)),
    .relay sampleHome (.commit (.sendMessages [⟨sampleKey 'b',sampleBlob '1'⟩] (sampleKey 'a') 1)),
    .relay sampleHome (.forward 0),.serve sampleHome (sampleKey 'b',sampleBlob '1',samplePeer) 2,
    .relay sampleHome (.forwarded 0 true)]

theorem mesh_mail_sent_forwarded : ∃ s log,
    Lts.run (Lts.watch (meshStep sampleHosts sampleMembers) (noteMesh sampleHosts)) ({},{}) sampleExchange =
      some (s,log) ∧
    (s.relays samplePeer).relay.mail.messages = [⟨sampleKey 'b',sampleBlob '1',2,[]⟩] ∧
    ((∃ home senderKey, (home,senderKey,(sampleKey 'b',sampleBlob '1')) ∈ log.sent ∧
      senderKey ≠ sampleKey 'b' ∧ isValidExactHex 64 (sampleKey 'b') = true ∧
      isValidBlobHex (sampleHosts home) (sampleBlob '1') = true) ∨
        ∃ home, (home,(sampleKey 'b',sampleBlob '1')) ∈ log.injected) := by
  have hrun : (Lts.run (Lts.watch (meshStep sampleHosts sampleMembers) (noteMesh sampleHosts)) ({},{})
      sampleExchange).any (fun s =>
        (s.1.relays samplePeer).relay.mail.messages = [⟨sampleKey 'b',sampleBlob '1',2,[]⟩]) = true := by
    decide +kernel
  simp only [Option.any_eq_true, decide_eq_true_eq, Prod.exists] at hrun
  obtain ⟨s,log,hs,hmail⟩ := hrun
  exact ⟨s,log,hs,hmail,mesh_mail_sent hs samplePeer (p := (sampleKey 'b',sampleBlob '1'))
    (.inl (by simp [hmail, Message.name]))⟩

theorem delivery_marks_true_forwarded : ∃ s log,
    Lts.run (Lts.watch (meshStep sampleHosts sampleMembers) (noteMesh sampleHosts)) ({},{}) sampleExchange =
      some (s,log) ∧
    (s.relays sampleHome).relay.mail.messages = [⟨sampleKey 'b',sampleBlob '1',1,[samplePeer]⟩] ∧
    (sampleHome,sampleKey 'b',sampleBlob '1',samplePeer) ∈ log.filed := by
  have hrun : (Lts.run (Lts.watch (meshStep sampleHosts sampleMembers) (noteMesh sampleHosts)) ({},{})
      sampleExchange).any (fun s =>
        (s.1.relays sampleHome).relay.mail.messages = [⟨sampleKey 'b',sampleBlob '1',1,[samplePeer]⟩]) =
          true := by decide +kernel
  simp only [Option.any_eq_true, decide_eq_true_eq, Prod.exists] at hrun
  obtain ⟨s,log,hs,hmail⟩ := hrun
  exact ⟨s,log,hs,hmail,delivery_marks_true hs sampleHome (hmail ▸ List.mem_singleton_self _)
    List.mem_cons_self (by decide)⟩

end Skrepka.Relay
