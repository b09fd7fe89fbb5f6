import Skrepka.Relay.Outbox
import Skrepka.Relay.Sends

/-! What leaves a relay for its peers: the tasks that sends fork and the sweeps of the retry loop. Each
works off a list that it took when it began, and calls its peers between the transactions of others. -/
namespace Skrepka.Relay
open Sequenced

/-- A task that a send forks for one message: the peers that it has yet to call, and the one that it is
waiting for. -/
structure ForwardTask where
  toKey : Text
  encryptedBlob : Text
  servers : List Text
  calling : Option Text := none

/-- A sweep over the forwards as it found them. The batch is what is left of those for one peer. -/
structure Sweep where
  fwds : List ForwardEntry
  servers : List Text
  batch : List ForwardEntry := []
  calling : Option ForwardEntry := none

structure Egress where
  relay : State := {}
  tasks : List ForwardTask := []
  sweep : Option Sweep := none

inductive EgressAct
  | commit (txn : Txn)
  /-- A task turns to its next peer, and hears from the one it called. -/
  | forward (n : ℕ)
  | forwarded (n : ℕ) (ok : Bool)
  /-- A sweep starts, and turns to its next peer, which may be in backoff. -/
  | sweep
  | sweepServer (retry : Bool)
  /-- A sweep calls a peer for the next forward of its batch, and hears from it. -/
  | retry
  | retried (ok : Bool)

/-- The transactions of handlers and of the prune loop. The others are those of tasks and sweeps. -/
def Txn.isHandler : Txn → Bool
  | .forwardAccepted _ _ _ | .forwardRetried _ _ _ _ | .dropServer _ => false
  | _ => true

variable (cfg : Config)

/-- The tasks that a transaction forks. -/
def forkForwards (s : State) : Txn → List ForwardTask
  | .sendMessages messages senderKey t =>
    if cfg.federationEnabled && validateBatch cfg messages senderKey = none then
      messages.map fun m => ⟨m.toKey,m.encryptedBlob,remoteServers cfg s.presence m.toKey t,none⟩
    else []
  | _ => []

/-- The forwards to one peer that a sweep tries. -/
def sweepBatch (server : Text) (fwds : List ForwardEntry) : List ForwardEntry :=
  ((fwds.filter fun f => f.toServer = server).insertionSort fun f g =>
    f.encryptedBlob ≤ g.encryptedBlob).take cfg.maxBatchSize.toNat

/-- A denylisted peer is passed over. -/
def ForwardTask.turn (k : ForwardTask) : Option ForwardTask :=
  match k.calling, k.servers with
  | none, server :: servers =>
    some { k with servers, calling := if isBadServerName server then none else some server }
  | _, _ => none

def Sweep.turn (retry : Bool) (w : Sweep) : Option Sweep :=
  match w.calling, w.batch, w.servers with
  | none, [], server :: servers =>
    some { w with
      servers
      batch := if !isBadServerName server && retry then sweepBatch cfg server w.fwds else [] }
  | _, _, _ => none

def Sweep.call (w : Sweep) : Option Sweep :=
  match w.calling, w.batch with
  | none, f :: batch => some { w with batch, calling := some f }
  | _, _ => none

def Sweep.done (w : Sweep) : Bool := w.servers.isEmpty && w.batch.isEmpty && w.calling.isNone

/-- The denylisted peer that a sweep turns to. -/
def Sweep.denied (w : Sweep) : Option Text := w.servers.head?.filter fun server => isBadServerName server

/-- The transaction that goes with an act, if one does. -/
def Egress.txn (s : Egress) : EgressAct → Option Txn
  | .commit txn => some txn
  | .forwarded n ok => do
    let k ← s.tasks[n]?
    let server ← k.calling
    if ok then some (.forwardAccepted k.toKey k.encryptedBlob server) else none
  | .sweepServer _ => (s.sweep.bind Sweep.denied).map .dropServer
  | .retried ok => do
    let f ← s.sweep.bind Sweep.calling
    return .forwardRetried f.toKey f.encryptedBlob f.toServer ok
  | .forward _ | .sweep | .retry => none

/-- What an act does to the tasks and the sweep. -/
def Egress.proceed (s : Egress) : EgressAct → Option (List ForwardTask × Option Sweep)
  | .commit txn =>
    if txn.isHandler then some (s.tasks ++ forkForwards cfg s.relay txn,s.sweep) else none
  | .forward n => do
    let k ← s.tasks[n]?
    let k ← k.turn
    return (s.tasks.set n k,s.sweep)
  | .forwarded n _ => do
    let k ← s.tasks[n]?
    if k.calling.isSome then some (s.tasks.set n { k with calling := none },s.sweep) else none
  | .sweep =>
    if cfg.federationEnabled && s.sweep.all Sweep.done then
      some (s.tasks,some ⟨s.relay.forwards,collectPeers cfg s.relay.forwards ForwardEntry.toServer,[],none⟩)
    else none
  | .sweepServer retry => (s.sweep.bind (Sweep.turn cfg retry)).map fun w => (s.tasks,some w)
  | .retry => (s.sweep.bind Sweep.call).map fun w => (s.tasks,some w)
  | .retried _ => do
    let w ← s.sweep
    if w.calling.isSome then some (s.tasks,some { w with calling := none }) else none

def egressStep (s : Egress) (act : EgressAct) : Option Egress :=
  (s.proceed cfg act).map fun p => ⟨(s.txn act).elim s.relay (commit cfg s.relay),p.1,p.2⟩

/-- The call that an act starts: the recipient, the blob and the peer. -/
def Egress.starts (s : Egress) : EgressAct → Option (Text × Text × Text)
  | .forward n => do
    let k ← s.tasks[n]?
    let k ← k.turn
    k.calling.map fun server => (k.toKey,k.encryptedBlob,server)
  | .retry => (s.sweep.bind Sweep.call).bind fun w => w.calling.map ForwardEntry.name
  | _ => none

/-- The calls that a task has yet to make. -/
def ForwardTask.left (k : ForwardTask) : List (Text × Text × Text) :=
  (k.servers.filter fun server => !isBadServerName server).map fun server =>
    (k.toKey,k.encryptedBlob,server)

def Sweep.left (w : Sweep) : List (Text × Text × Text) :=
  (w.batch ++ (w.servers.filter fun server => !isBadServerName server).flatMap fun server =>
    sweepBatch cfg server w.fwds).map ForwardEntry.name

def Egress.left (s : Egress) : List (Text × Text × Text) :=
  s.tasks.flatMap ForwardTask.left ++ s.sweep.elim [] (Sweep.left cfg)

/-- The calls of the tasks that an act forks. -/
def Egress.forks (s : Egress) : EgressAct → List (Text × Text × Text)
  | .commit txn => (forkForwards cfg s.relay txn).flatMap ForwardTask.left
  | _ => []

/-- The calls that an act adds to those left. -/
def Egress.begins (s : Egress) (act : EgressAct) : List (Text × Text × Text) :=
  s.forks cfg act ++ match act with
    | .sweep => s.relay.forwards.map ForwardEntry.name
    | _ => []

/-- The calls that are due: those left for the tasks, and those of the batch that the sweep is at. The
sweep may find its later peers in backoff and pass over them. -/
def Egress.due (s : Egress) : List (Text × Text × Text) :=
  s.tasks.flatMap ForwardTask.left ++ s.sweep.elim [] fun w => w.batch.map ForwardEntry.name

/-- The calls of the batch that a sweep takes up when it turns to a peer. -/
def Egress.takesUp (s : Egress) : EgressAct → List (Text × Text × Text)
  | .sweepServer retry =>
    (s.sweep.bind (Sweep.turn cfg retry)).elim [] fun w => w.batch.map ForwardEntry.name
  | _ => []

section
variable {cfg}

theorem ForwardTask.turn_left {k k' : ForwardTask} (h : k.turn = some k') :
    k'.left ⊆ k.left ∧ k'.toKey = k.toKey ∧ k'.encryptedBlob = k.encryptedBlob := by
  unfold turn at h
  split at h
  · rename_i server servers _ hservers
    obtain rfl := Option.some.inj h
    refine ⟨fun name hname => ?_,rfl,rfl⟩
    simp only [left, List.mem_map, List.mem_filter] at hname ⊢
    obtain ⟨s,⟨hs,hgood⟩,rfl⟩ := hname
    exact ⟨s,⟨hservers ▸ List.mem_cons_of_mem _ hs,hgood⟩,rfl⟩
  · simp at h

/-- The peer that a task turns to was left to call. -/
theorem ForwardTask.calling_left {k k' : ForwardTask} (h : k.turn = some k') {server : Text}
    (hcalling : k'.calling = some server) : (k'.toKey,k'.encryptedBlob,server) ∈ k.left := by
  unfold turn at h
  split at h
  · rename_i server' servers _ hservers
    obtain rfl := Option.some.inj h
    simp only at hcalling
    split at hcalling
    · simp at hcalling
    rename_i hgood
    obtain rfl := Option.some.inj hcalling
    exact List.mem_map.mpr ⟨server',List.mem_filter.mpr ⟨hservers ▸ List.mem_cons_self,by simpa using hgood⟩,rfl⟩
  · simp at h

theorem Sweep.turn_left {retry : Bool} {w w' : Sweep} (h : w.turn cfg retry = some w') :
    w'.left cfg ⊆ w.left cfg := by
  unfold turn at h
  split at h
  · rename_i server servers _ hbatch hservers
    obtain rfl := Option.some.inj h
    intro name hname
    simp only [left, List.mem_map, List.mem_append, List.mem_flatMap, List.mem_filter] at hname ⊢
    obtain ⟨f,hf,rfl⟩ := hname
    refine ⟨f,.inr ?_,rfl⟩
    obtain hf | ⟨s,⟨hs,hgood⟩,hf⟩ := hf
    · split at hf
      · rename_i hretry
        simp only [Bool.and_eq_true] at hretry
        exact ⟨server,⟨hservers ▸ List.mem_cons_self,hretry.1⟩,hf⟩
      · simp at hf
    · exact ⟨s,⟨hservers ▸ List.mem_cons_of_mem _ hs,hgood⟩,hf⟩
  · simp at h

theorem Sweep.call_batch {w w' : Sweep} (h : w.call = some w') :
    w'.batch.map ForwardEntry.name ⊆ w.batch.map ForwardEntry.name ∧
      ∀ f, w'.calling = some f → f.name ∈ w.batch.map ForwardEntry.name := by
  unfold call at h
  split at h
  · rename_i f batch _ hbatch
    obtain rfl := Option.some.inj h
    rw [hbatch, List.map_cons]
    refine ⟨List.subset_cons_self _ _,fun g hg => ?_⟩
    obtain rfl := Option.some.inj hg
    exact List.mem_cons_self
  · simp at h

theorem Sweep.call_left {w w' : Sweep} (h : w.call = some w') :
    w'.left cfg ⊆ w.left cfg ∧ ∀ f, w'.calling = some f → f.name ∈ w.left cfg := by
  unfold call at h
  split at h
  · rename_i f batch _ hbatch
    obtain rfl := Option.some.inj h
    constructor
    · intro name hname
      simp only [left, hbatch, List.map_append, List.map_cons, List.mem_append, List.mem_cons] at hname ⊢
      tauto
    · intro g hg
      obtain rfl := Option.some.inj hg
      simp [left, hbatch]
  · simp at h

theorem sweepBatch_subset (server : Text) (fwds : List ForwardEntry) : sweepBatch cfg server fwds ⊆ fwds := by
  intro f hf
  have hf := (List.mem_insertionSort _).mp (List.mem_of_mem_take hf)
  exact List.mem_of_mem_filter hf

variable (cfg) in
/-- What the act does to the tasks and the sweep, one case per act. -/
inductive Egress.Proceeds (s : Egress) : EgressAct → List ForwardTask → Option Sweep → Prop
  | commit {txn} (h : txn.isHandler = true) :
    Proceeds s (.commit txn) (s.tasks ++ forkForwards cfg s.relay txn) s.sweep
  | forward {n k k'} (hk : k ∈ s.tasks) (hturn : k.turn = some k') :
    Proceeds s (.forward n) (s.tasks.set n k') s.sweep
  | forwarded {n ok k} (hk : k ∈ s.tasks) :
    Proceeds s (.forwarded n ok) (s.tasks.set n { k with calling := none }) s.sweep
  | sweep : Proceeds s .sweep s.tasks
    (some ⟨s.relay.forwards,collectPeers cfg s.relay.forwards ForwardEntry.toServer,[],none⟩)
  | sweepServer {retry w w'} (hw : s.sweep = some w) (hturn : w.turn cfg retry = some w') :
    Proceeds s (.sweepServer retry) s.tasks (some w')
  | retry {w w'} (hw : s.sweep = some w) (hcall : w.call = some w') : Proceeds s .retry s.tasks (some w')
  | retried {ok w} (hw : s.sweep = some w) :
    Proceeds s (.retried ok) s.tasks (some { w with calling := none })

theorem Egress.proceeds_of_proceed {s : Egress} {act : EgressAct} {tasks : List ForwardTask}
    {sweep : Option Sweep} (h : s.proceed cfg act = some (tasks,sweep)) : s.Proceeds cfg act tasks sweep := by
  cases act with
  | commit txn =>
    simp only [proceed, Option.ite_none_right_eq_some, Option.some.injEq, Prod.mk.injEq] at h
    obtain ⟨hhandler,rfl,rfl⟩ := h
    exact .commit hhandler
  | forward n =>
    simp only [proceed, Option.bind_eq_bind, Option.bind_eq_some_iff, Option.pure_def,
      Option.some.injEq, Prod.mk.injEq] at h
    obtain ⟨k,hk,k',hturn,rfl,rfl⟩ := h
    exact .forward (List.mem_of_getElem? hk) hturn
  | forwarded n ok =>
    simp only [proceed, Option.bind_eq_bind, Option.bind_eq_some_iff, Option.ite_none_right_eq_some,
      Option.some.injEq, Prod.mk.injEq] at h
    obtain ⟨k,hk,-,rfl,rfl⟩ := h
    exact .forwarded (List.mem_of_getElem? hk)
  | sweep =>
    simp only [proceed, Option.ite_none_right_eq_some, Option.some.injEq, Prod.mk.injEq] at h
    obtain ⟨-,rfl,rfl⟩ := h
    exact .sweep
  | sweepServer ok =>
    simp only [proceed, Option.map_eq_some_iff, Option.bind_eq_some_iff, Prod.mk.injEq] at h
    obtain ⟨w',⟨w,hw,hturn⟩,rfl,rfl⟩ := h
    exact .sweepServer hw hturn
  | retry =>
    simp only [proceed, Option.map_eq_some_iff, Option.bind_eq_some_iff, Prod.mk.injEq] at h
    obtain ⟨w',⟨w,hw,hcall⟩,rfl,rfl⟩ := h
    exact .retry hw hcall
  | retried ok =>
    simp only [proceed, Option.bind_eq_bind, Option.bind_eq_some_iff, Option.ite_none_right_eq_some,
      Option.some.injEq, Prod.mk.injEq] at h
    obtain ⟨w,hw,-,rfl,rfl⟩ := h
    exact .retried hw

theorem ForwardTask.mem_tasks_left {s : Egress} {k k' : ForwardTask} (hk : k ∈ s.tasks)
    (hsub : k'.left ⊆ k.left) {name : Text × Text × Text} (h : name ∈ k'.left) :
    name ∈ s.tasks.flatMap ForwardTask.left :=
  List.mem_flatMap.mpr ⟨k,hk,hsub h⟩

/-- The calls that the tasks have left after a step. -/
theorem Egress.Proceeds.tasks_left {s : Egress} {act : EgressAct} {tasks : List ForwardTask}
    {sweep : Option Sweep} (h : s.Proceeds cfg act tasks sweep) {name : Text × Text × Text}
    (hname : name ∈ tasks.flatMap ForwardTask.left) :
    name ∈ s.tasks.flatMap ForwardTask.left ∨ name ∈ s.forks cfg act := by
  obtain ⟨k',hk',hin⟩ := List.mem_flatMap.mp hname
  cases h with
  | commit =>
    obtain hk' | hk' := List.mem_append.mp hk'
    · exact .inl (ForwardTask.mem_tasks_left hk' (List.Subset.refl _) hin)
    · exact .inr (List.mem_flatMap.mpr ⟨k',hk',hin⟩)
  | forward hk hturn =>
    obtain hk' | rfl := List.mem_or_eq_of_mem_set hk'
    · exact .inl (ForwardTask.mem_tasks_left hk' (List.Subset.refl _) hin)
    · exact .inl (ForwardTask.mem_tasks_left hk (ForwardTask.turn_left hturn).1 hin)
  | forwarded hk =>
    obtain hk' | rfl := List.mem_or_eq_of_mem_set hk'
    · exact .inl (ForwardTask.mem_tasks_left hk' (List.Subset.refl _) hin)
    · exact .inl (ForwardTask.mem_tasks_left hk (List.Subset.refl _) hin)
  | sweep | sweepServer | retry | retried =>
    exact .inl (ForwardTask.mem_tasks_left hk' (List.Subset.refl _) hin)

/-- The calls that the sweep has left after a step. -/
theorem Egress.Proceeds.sweep_left {s : Egress} {act : EgressAct} {tasks : List ForwardTask}
    {sweep : Option Sweep} (h : s.Proceeds cfg act tasks sweep) {name : Text × Text × Text}
    (hname : name ∈ sweep.elim [] (Sweep.left cfg)) : name ∈ s.left cfg ∨ name ∈ s.begins cfg act := by
  have hold : ∀ w, s.sweep = some w → name ∈ w.left cfg → name ∈ s.left cfg := fun w hw hname =>
    List.mem_append_right _ (by rw [hw]; exact hname)
  cases h with
  | commit | forward | forwarded => exact .inl (List.mem_append_right _ hname)
  | sweep =>
    simp only [Option.elim_some, Sweep.left, List.nil_append, List.mem_map, List.mem_flatMap] at hname
    obtain ⟨f,⟨server,-,hf⟩,rfl⟩ := hname
    exact .inr (List.mem_append_right _ (List.mem_map_of_mem (sweepBatch_subset server _ hf)))
  | sweepServer hw hturn => exact .inl (hold _ hw (Sweep.turn_left hturn hname))
  | retry hw hcall => exact .inl (hold _ hw ((Sweep.call_left hcall).1 hname))
  | retried hw => exact .inl (hold _ hw hname)

/-- The calls left after a step were left before, or the step adds them. -/
theorem left_step {s s' : Egress} {act : EgressAct} (h : egressStep cfg s act = some s') :
    ∀ name ∈ s'.left cfg, name ∈ s.left cfg ∨ name ∈ s.begins cfg act := by
  obtain ⟨⟨tasks,sweep⟩,hp,rfl⟩ := Option.map_eq_some_iff.mp h
  have hproceeds := Egress.proceeds_of_proceed hp
  intro name hname
  obtain hname | hname := List.mem_append.mp hname
  · exact (hproceeds.tasks_left hname).imp (List.mem_append_left _) (List.mem_append_left _)
  · exact hproceeds.sweep_left hname

/-- The calls due after a step were due before, or the step forks them or takes them up. -/
theorem due_step {s s' : Egress} {act : EgressAct} (h : egressStep cfg s act = some s') :
    ∀ name ∈ s'.due, name ∈ s.due ∨ name ∈ s.forks cfg act ++ s.takesUp cfg act := by
  obtain ⟨⟨tasks,sweep⟩,hp,rfl⟩ := Option.map_eq_some_iff.mp h
  have hproceeds := Egress.proceeds_of_proceed hp
  intro name hname
  obtain hname | hname := List.mem_append.mp hname
  · exact (hproceeds.tasks_left hname).imp (List.mem_append_left _) (List.mem_append_left _)
  · have hold : ∀ w, s.sweep = some w → name ∈ w.batch.map ForwardEntry.name → name ∈ s.due :=
      fun w hw hname => List.mem_append_right _ (by rw [hw]; exact hname)
    cases hproceeds with
    | commit | forward | forwarded => exact .inl (List.mem_append_right _ hname)
    | sweep => simp at hname
    | sweepServer hw hturn =>
      refine .inr (List.mem_append_right _ ?_)
      rw [Egress.takesUp, hw, Option.bind_some, hturn]
      exact hname
    | retry hw hcall => exact .inl (hold _ hw ((Sweep.call_batch hcall).1 hname))
    | retried hw => exact .inl (hold _ hw hname)

theorem due_left {s : Egress} {name : Text × Text × Text} (h : name ∈ s.due) : name ∈ s.left cfg := by
  obtain hname | hname := List.mem_append.mp h
  · exact List.mem_append_left _ hname
  · refine List.mem_append_right _ ?_
    cases hw : s.sweep with
    | none => simp [hw] at hname
    | some w =>
      rw [hw, Option.elim_some] at hname
      rw [Option.elim_some, Sweep.left, List.map_append]
      exact List.mem_append_left _ hname

/-- A batch that is taken up was left. -/
theorem takesUp_left {s : Egress} {act : EgressAct} {name : Text × Text × Text}
    (h : name ∈ s.takesUp cfg act) : name ∈ s.left cfg := by
  cases act with
  | sweepServer retry =>
    cases hw : s.sweep with
    | none => simp [Egress.takesUp, hw] at h
    | some w =>
      cases hturn : w.turn cfg retry with
      | none => simp [Egress.takesUp, hw, hturn] at h
      | some w' =>
        rw [Egress.takesUp, hw, Option.bind_some, hturn, Option.elim_some] at h
        refine List.mem_append_right _ ?_
        rw [hw, Option.elim_some]
        refine Sweep.turn_left hturn ?_
        rw [Sweep.left, List.map_append]
        exact List.mem_append_left _ h
  | _ => simp [Egress.takesUp] at h

/-- A call that starts was due. -/
theorem starts_due {s : Egress} {act : EgressAct} {name : Text × Text × Text}
    (h : s.starts act = some name) : name ∈ s.due := by
  cases act with
  | forward n =>
    simp only [Egress.starts, Option.bind_eq_bind, Option.bind_eq_some_iff, Option.map_eq_some_iff] at h
    obtain ⟨k,hk,k',hturn,server,hcalling,rfl⟩ := h
    exact List.mem_append_left _ (List.mem_flatMap.mpr
      ⟨k,List.mem_of_getElem? hk,ForwardTask.calling_left hturn hcalling⟩)
  | retry =>
    simp only [Egress.starts, Option.bind_eq_some_iff, Option.map_eq_some_iff] at h
    obtain ⟨w',⟨w,hw,hcall⟩,f,hf,rfl⟩ := h
    refine List.mem_append_right _ ?_
    rw [hw]
    exact (Sweep.call_batch hcall).2 f hf
  | _ => simp [Egress.starts] at h

theorem relay_step {s s' : Egress} {act : EgressAct} (h : egressStep cfg s act = some s') :
    s'.relay = (s.txn act).elim s.relay (commit cfg s.relay) := by
  obtain ⟨p,-,rfl⟩ := Option.map_eq_some_iff.mp h
  rfl

/-- A row says that a peer has got it. -/
def Mailbox.Has (mail : Mailbox) (name : Text × Text × Text) : Prop :=
  ∃ m ∈ mail.messages, m.toKey = name.1 ∧ m.encryptedBlob = name.2.1 ∧ name.2.2 ∈ m.deliveredTo

/-- What a transaction marks as delivered. -/
def marks : Txn → Option (Text × Text × Text)
  | .forwardAccepted toKey blob server => some (toKey,blob,server)
  | .forwardRetried toKey blob server success => if success then some (toKey,blob,server) else none
  | _ => none

theorem Mailbox.has_apply {mail : Mailbox} (hwf : mail.Wf) (op : Op) {name : Text × Text × Text}
    (h : (mail.apply cfg op).Has name) : mail.Has name ∨
      Mailbox.stored name.1 name.2.1 mail.messages = true ∧
        op = .mark name.1 name.2.1 name.2.2 := by
  obtain ⟨m,hm,hkey,hblob,hserver⟩ := h
  cases op with
  | append toKey blob t =>
    left
    cases hstored : stored toKey blob mail.messages with
    | true =>
      rw [apply, appendMessage_of_stored cfg t hstored] at hm
      exact ⟨m,hm,hkey,hblob,hserver⟩
    | false =>
      rw [apply, appendMessage_messages cfg hwf hstored] at hm
      obtain hm | hm := List.mem_append.mp hm
      · exact ⟨m,(survivors_subperm cfg toKey mail.messages).subset hm,hkey,hblob,hserver⟩
      · rw [List.mem_singleton.mp hm] at hserver
        simp [newRow] at hserver
  | ack | prune => exact .inl ⟨m,List.mem_of_mem_filter hm,hkey,hblob,hserver⟩
  | mark toKey blob server =>
    obtain ⟨m',hm',rfl⟩ := List.mem_map.mp hm
    obtain ⟨hkey',hblob'⟩ := mark_blob toKey blob server m'
    rw [hkey'] at hkey
    rw [hblob'] at hblob
    by_cases hold : name.2.2 ∈ m'.deliveredTo
    · exact .inl ⟨m',hm',hkey,hblob,hold⟩
    · right
      have hmark : m'.toKey = toKey ∧ m'.encryptedBlob = blob ∧ name.2.2 = server := by
        unfold Mailbox.mark at hserver
        split at hserver
        · rename_i hcond
          simp only [Bool.and_eq_true, decide_eq_true_eq] at hcond
          obtain hserver | hserver := mem_union.mp hserver
          · exact absurd hserver hold
          · exact ⟨hcond.1.1,hcond.1.2,List.mem_singleton.mp hserver⟩
        · exact absurd hserver hold
      refine ⟨List.any_eq_true.mpr ⟨m',hm',by simp [hkey, hblob]⟩,?_⟩
      rw [← hkey, ← hblob, hmark.1, hmark.2.1, hmark.2.2]

theorem Mailbox.has_foldl {mail : Mailbox} (hwf : mail.Wf) {ops : List Op}
    (hops : ∀ toKey blob server, Op.mark toKey blob server ∉ ops) {name : Text × Text × Text}
    (h : (ops.foldl (Mailbox.apply cfg) mail).Has name) : mail.Has name := by
  induction ops generalizing mail with
  | nil => exact h
  | cons op ops ih =>
    obtain h | ⟨-,rfl⟩ := has_apply hwf op
      (ih (hwf.apply cfg op) (fun k b s hin => hops k b s (List.mem_cons_of_mem _ hin)) h)
    · exact h
    · exact absurd List.mem_cons_self (hops _ _ _)

/-- A transaction brings a delivery mark only to a stored row, where it says so. -/
theorem has_commit {s : State} (hwf : s.mail.Wf) (txn : Txn) {name : Text × Text × Text}
    (h : (commit cfg s txn).mail.Has name) : s.mail.Has name ∨
      Mailbox.stored name.1 name.2.1 s.mail.messages = true ∧ marks txn = some name := by
  rw [commit_mail] at h
  have hmark : ∀ {toKey blob server : Text}, ((mailOps cfg s txn) = [.mark toKey blob server]) →
      marks txn = some (toKey,blob,server) → s.mail.Has name ∨
        Mailbox.stored name.1 name.2.1 s.mail.messages = true ∧ marks txn = some name := by
    intro toKey blob server hops hm
    rw [hops, List.foldl_cons, List.foldl_nil] at h
    refine (Mailbox.has_apply hwf _ h).imp id fun hin => ⟨hin.1,?_⟩
    obtain ⟨rfl,rfl,rfl⟩ := Mailbox.Op.mark.inj hin.2
    exact hm
  have hnone : (∀ toKey blob server, Mailbox.Op.mark toKey blob server ∉ mailOps cfg s txn) →
      s.mail.Has name ∨ Mailbox.stored name.1 name.2.1 s.mail.messages = true ∧ marks txn = some name :=
    fun hops => .inl (Mailbox.has_foldl hwf hops h)
  cases txn with
  | forwardAccepted toKey blob server => exact hmark rfl rfl
  | forwardRetried toKey blob server success =>
    cases success with
    | true => exact hmark rfl rfl
    | false => exact hnone (by simp [mailOps])
  | sendMessages messages senderKey t =>
    refine hnone fun _ _ _ hin => ?_
    simp only [mailOps] at hin
    split at hin
    · simp at hin
    · simp at hin
  | forwardMessage | setupPoll =>
    refine hnone fun _ _ _ hin => ?_
    simp only [mailOps] at hin
    split at hin <;> simp at hin
  | verifyAuth | recvGossip | forwardQueued | dropServer | prune => exact hnone (by simp [mailOps])

/-- What a send finds delivered is what the stored row says. -/
theorem mem_delivered {toKey blob server : Text} {mail : Mailbox} (hwf : mail.Wf)
    (h : mail.Has (toKey,blob,server)) : server ∈ delivered toKey blob mail.messages := by
  obtain ⟨m,hm,rfl,rfl,hserver⟩ := h
  rwa [hwf.delivered_eq hm]

theorem mem_stageForwards {toKey blob : Text} {servers had : List Text} {fwds : List ForwardEntry}
    {f : ForwardEntry} (hf : f ∈ stageForwards cfg toKey blob servers had fwds) :
    f ∈ fwds ∨ f.toKey = toKey ∧ f.encryptedBlob = blob ∧ f.toServer ∉ had := by
  obtain hf | hf := mem_capForwards hf
  · exact .inl hf
  · obtain ⟨server,hserver,rfl⟩ := List.mem_map.mp hf
    have hfresh := (List.mem_filter.mp hserver).2
    simp only [Bool.and_eq_true, Bool.not_eq_true', List.contains_eq_mem, decide_eq_false_iff_not] at hfresh
    exact .inr ⟨rfl,rfl,hfresh.1.2⟩

/-- A batch queues forwards of its own messages only, and none to a peer that has got them. -/
theorem sendAll_forwards {pres : List PresenceEntry} {t : ℤ} {messages : List Envelope} {s : State}
    (hwf : s.mail.Wf) {f : ForwardEntry}
    (hf : f ∈ (messages.foldl (sendOne cfg pres t) s).forwards) :
    f ∈ s.forwards ∨ ¬ (messages.foldl (sendOne cfg pres t) s).mail.Has f.name ∧
      ∃ m ∈ messages, m.toKey = f.toKey ∧ m.encryptedBlob = f.encryptedBlob := by
  induction messages generalizing s with
  | nil => exact .inl hf
  | cons m messages ih =>
    have hmail : (sendOne cfg pres t s m).mail = s.mail.apply cfg (.append m.toKey m.encryptedBlob t) := rfl
    obtain hf | ⟨hnot,m',hm',hsame⟩ := ih (hmail ▸ hwf.apply cfg _) hf
    · simp only [sendOne] at hf
      split at hf
      · obtain hf | ⟨hkey,hblob,hhad⟩ := mem_stageForwards hf
        · exact .inl hf
        · refine .inr ⟨fun hhas => hhad ?_,m,List.mem_cons_self,hkey.symm,hblob.symm⟩
          have hbefore : s.mail.Has f.name := by
            rw [List.foldl_cons, sendAll_mail, hmail] at hhas
            have hthen := Mailbox.has_foldl (hwf.apply cfg _) (fun _ _ _ hin => by simp at hin) hhas
            exact (Mailbox.has_apply hwf _ hthen).resolve_right fun h => by simp at h
          rw [← hkey, ← hblob]
          exact mem_delivered hwf hbefore
      · exact .inl hf
    · exact .inr ⟨hnot,m',List.mem_cons_of_mem _ hm',hsame⟩

/-- A forward that is queued after a transaction was queued before and has not just been made, or is of
a message that is stored or filed and to a peer that has not got it. -/
theorem forwards_commit {s : State} (hwf : s.mail.Wf) {txn : Txn} {f : ForwardEntry}
    (hf : f ∈ (commit cfg s txn).forwards) :
    ((∃ g ∈ s.forwards, g.name = f.name) ∧ marks txn ≠ some f.name) ∨
      (¬ (commit cfg s txn).mail.Has f.name ∧
        (Mailbox.stored f.toKey f.encryptedBlob s.mail.messages = true ∨
          ∃ t, .append f.toKey f.encryptedBlob t ∈ mailOps cfg s txn)) := by
  cases txn with
  | sendMessages messages senderKey t =>
    simp only [commit, handleSendMessages, mailOps] at hf ⊢
    cases hvalid : validateBatch cfg messages senderKey with
    | some err =>
      simp only [hvalid] at hf
      exact .inl ⟨⟨f,hf,rfl⟩,by simp [marks]⟩
    | none =>
      simp only [hvalid] at hf
      obtain hf | ⟨hnot,m,hm,hkey,hblob⟩ := sendAll_forwards hwf hf
      · exact .inl ⟨⟨f,hf,rfl⟩,by simp [marks]⟩
      · refine .inr ⟨hnot,.inr ⟨t,?_⟩⟩
        rw [if_pos rfl]
        exact List.mem_map.mpr ⟨m,hm,by rw [hkey, hblob]⟩
  | forwardMessage toKey blob t =>
    simp only [commit, handleForwardMessage] at hf
    refine .inl ⟨⟨f,?_,rfl⟩,by simp [marks]⟩
    split at hf
    · exact hf
    · split at hf <;> exact hf
  | verifyAuth => exact .inl ⟨⟨f,hf,rfl⟩,by simp [marks]⟩
  | setupPoll pubkey cursor t =>
    simp only [commit, setupPoll] at hf
    refine .inl ⟨⟨f,?_,rfl⟩,by simp [marks]⟩
    split at hf <;> split at hf
    · exact List.mem_of_mem_filter hf
    · exact List.mem_of_mem_filter hf
    · exact hf
    · exact hf
  | recvGossip events server t =>
    simp only [commit, handleRecvGossip] at hf
    refine .inl ⟨⟨f,?_,rfl⟩,by simp [marks]⟩
    split at hf
    · exact hf
    · exact List.mem_of_mem_filter hf
  | forwardQueued pubkeys server =>
    obtain hf | hf := mem_capForwards hf
    · exact .inl ⟨⟨f,hf,rfl⟩,by simp [marks]⟩
    · obtain ⟨m,hm,rfl⟩ := List.mem_map.mp hf
      have hm := List.mem_filter.mp ((mem_sortBy Message.receivedAt).mp (List.mem_of_mem_take hm))
      simp only [Bool.and_eq_true, Bool.not_eq_true', List.contains_eq_mem, decide_eq_false_iff_not,
        decide_eq_true_eq] at hm
      refine .inr ⟨?_,.inl (List.any_eq_true.mpr ⟨m,hm.1,by simp⟩)⟩
      rintro ⟨m',hm',hkey,hblob,hserver⟩
      obtain rfl : m' = m := List.inj_on_of_nodup_map hwf.blobs hm' hm.1 (by
        simp only [ForwardEntry.name] at hkey hblob
        simp [hkey, hblob])
      exact hm.2.2 hserver
  | forwardAccepted toKey blob server =>
    have hf := List.mem_filter.mp hf
    refine .inl ⟨⟨f,hf.1,rfl⟩,fun hmark => ?_⟩
    have hmatch := forwardMatches_iff.mpr (Option.some.inj hmark).symm
    simp [hmatch] at hf
  | forwardRetried toKey blob server success =>
    obtain ⟨g,hg,rfl⟩ := List.mem_map.mp hf
    have hg := List.mem_filter.mp hg
    have hname : (if forwardMatches toKey blob server g then { g with retries := g.retries+1 } else g).name =
        g.name := by
      split <;> rfl
    rw [hname]
    refine .inl ⟨⟨g,hg.1,rfl⟩,fun hmark => ?_⟩
    simp only [marks] at hmark
    split at hmark
    · rename_i hok
      have hmatch := forwardMatches_iff.mpr (Option.some.inj hmark).symm
      simp [hmatch, hok] at hg
    · simp at hmark
  | dropServer | prune => exact .inl ⟨⟨f,List.mem_of_mem_filter hf,rfl⟩,by simp [marks]⟩

instance (mail : Mailbox) (name : Text × Text × Text) : Decidable (mail.Has name) :=
  inferInstanceAs (Decidable (∃ _ ∈ _, _))

variable (cfg) in
/-- No send is forked to a peer that the stored row says has got it, and no sweep takes up a forward to
such a peer; and a peer is marked only once its call is not due. -/
def NoRepeat (s : Egress) (act : EgressAct) : Prop :=
  (∀ name ∈ (s.txn act).bind marks, Mailbox.stored name.1 name.2.1 s.relay.mail.messages = true →
    name ∉ s.due) ∧
  ∀ name ∈ s.forks cfg act ++ s.takesUp cfg act, ¬ s.relay.mail.Has name

instance (s : Egress) (act : EgressAct) : Decidable (NoRepeat cfg s act) :=
  inferInstanceAs (Decidable (_ ∧ _))

variable (cfg) in
/-- The same without a look at what a sweep passes over: a peer is marked only once no task and no sweep
has its call left to make. -/
def NoneAhead (s : Egress) (act : EgressAct) : Prop :=
  (∀ name ∈ (s.txn act).bind marks, Mailbox.stored name.1 name.2.1 s.relay.mail.messages = true →
    name ∉ s.left cfg) ∧
  ∀ name ∈ s.forks cfg act, ¬ s.relay.mail.Has name

/-- Nothing is due that a peer has got. -/
structure Unrepeated (s : Egress) : Prop where
  wf : s.relay.mail.Wf
  due : ∀ name ∈ s.due, ¬ s.relay.mail.Has name

variable (cfg) in
/-- Nothing is queued or left to call that a peer has got. -/
structure Undelivered (s : Egress) : Prop where
  wf : s.relay.mail.Wf
  queued : ∀ f ∈ s.relay.forwards, ¬ s.relay.mail.Has f.name
  left : ∀ name ∈ s.left cfg, ¬ s.relay.mail.Has name

/-- What adds calls marks nothing. -/
theorem marks_of_adds {s s' : Egress} {act : EgressAct} (hstep : egressStep cfg s act = some s')
    {name : Text × Text × Text} (hname : name ∈ s.begins cfg act ++ s.takesUp cfg act) {txn : Txn}
    (htxn : s.txn act = some txn) : marks txn = none := by
  cases act with
  | commit txn' =>
    obtain rfl := Option.some.inj htxn
    obtain ⟨⟨tasks,sweep⟩,hp,-⟩ := Option.map_eq_some_iff.mp hstep
    obtain ⟨hhandler⟩ := Egress.proceeds_of_proceed hp
    cases txn' with
    | forwardAccepted | forwardRetried => simp [Txn.isHandler] at hhandler
    | _ => rfl
  | sweep => simp [Egress.txn] at htxn
  | sweepServer =>
    obtain ⟨server,-,rfl⟩ := Option.map_eq_some_iff.mp htxn
    rfl
  | _ => simp [Egress.begins, Egress.forks, Egress.takesUp] at hname

theorem wf_step {s s' : Egress} {act : EgressAct} (hwf : s.relay.mail.Wf)
    (hstep : egressStep cfg s act = some s') : s'.relay.mail.Wf := by
  rw [relay_step hstep]
  cases s.txn act with
  | none => exact hwf
  | some txn =>
    rw [Option.elim_some, commit_mail]
    exact hwf.foldl cfg _

/-- A peer that is not marked has got nothing more. -/
theorem not_has_step {s s' : Egress} {act : EgressAct} (hwf : s.relay.mail.Wf)
    (hstep : egressStep cfg s act = some s') {name : Text × Text × Text}
    (hbefore : ¬ s.relay.mail.Has name)
    (hmarks : ∀ txn, s.txn act = some txn → marks txn = some name →
      Mailbox.stored name.1 name.2.1 s.relay.mail.messages = false) : ¬ s'.relay.mail.Has name := by
  rw [relay_step hstep]
  cases htxn : s.txn act with
  | none => exact hbefore
  | some txn =>
    intro hhas
    obtain hold | ⟨hstored,hmark⟩ := has_commit hwf txn hhas
    · exact hbefore hold
    · simp [hmarks txn htxn hmark] at hstored

theorem Unrepeated.step {s s' : Egress} {act : EgressAct} (h : Unrepeated s)
    (hok : NoRepeat cfg s act) (hstep : egressStep cfg s act = some s') : Unrepeated s' := by
  refine ⟨wf_step h.wf hstep,fun name hname => ?_⟩
  obtain hdue | hadded := due_step hstep name hname
  · refine not_has_step h.wf hstep (h.due name hdue) fun txn htxn hmark => ?_
    by_contra hstored
    exact hok.1 name (by rw [htxn]; exact hmark) (by simpa using hstored) hdue
  · refine not_has_step h.wf hstep (hok.2 name hadded) fun txn htxn hmark => ?_
    have hadds : name ∈ s.begins cfg act ++ s.takesUp cfg act := by
      obtain hfork | htaken := List.mem_append.mp hadded
      · exact List.mem_append_left _ (List.mem_append_left _ hfork)
      · exact List.mem_append_right _ htaken
    rw [marks_of_adds hstep hadds htxn] at hmark
    cases hmark

theorem Undelivered.step {s s' : Egress} {act : EgressAct} (h : Undelivered cfg s)
    (hok : NoneAhead cfg s act) (hstep : egressStep cfg s act = some s') : Undelivered cfg s' := by
  refine ⟨wf_step h.wf hstep,fun f hf hhas => ?_,fun name hname => ?_⟩
  · rw [relay_step hstep] at hf hhas
    cases htxn : s.txn act with
    | none =>
      rw [htxn] at hf hhas
      exact h.queued f hf hhas
    | some txn =>
      rw [htxn, Option.elim_some] at hf hhas
      obtain ⟨⟨g,hg,hname⟩,hmark⟩ | ⟨hnot,-⟩ := forwards_commit h.wf hf
      · obtain hold | ⟨-,hmarks⟩ := has_commit h.wf txn hhas
        · exact h.queued g hg (hname ▸ hold)
        · exact hmark hmarks
      · exact hnot hhas
  · obtain hleft | hbegins := left_step hstep name hname
    · refine not_has_step h.wf hstep (h.left name hleft) fun txn htxn hmark => ?_
      by_contra hstored
      exact hok.1 name (by rw [htxn]; exact hmark) (by simpa using hstored) hleft
    · refine not_has_step h.wf hstep ?_ fun txn htxn hmark => ?_
      · obtain hfork | hqueued := List.mem_append.mp hbegins
        · exact hok.2 name hfork
        · cases act with
          | sweep =>
            obtain ⟨f,hf,rfl⟩ := List.mem_map.mp hqueued
            exact h.queued f hf
          | _ => simp at hqueued
      · rw [marks_of_adds hstep (List.mem_append_left _ hbegins) htxn] at hmark
        cases hmark

/-- What a sweep takes up was left to it. -/
theorem Undelivered.noRepeat {s : Egress} {act : EgressAct} (h : Undelivered cfg s)
    (hok : NoneAhead cfg s act) : NoRepeat cfg s act := by
  refine ⟨fun name hname hstored hdue => hok.1 name hname hstored (due_left hdue),fun name hname => ?_⟩
  obtain hfork | htaken := List.mem_append.mp hname
  · exact hok.2 name hfork
  · exact h.left name (takesUp_left htaken)

/-- In every run in which no send is forked, and no sweep takes up a forward, to a peer that has got its
blob, and no peer is marked with a call of the same forward due, no call is started for what the stored
row says is delivered. A run is such a one if no peer is marked with a call of the same forward left. -/
theorem delivered_not_called {acts : List EgressAct} {s : Egress}
    (hrun : Lts.run (egressStep cfg) {} acts = some s) :
    (Lts.Along (egressStep cfg) (NoRepeat cfg) {} acts → ∀ act toKey blob server,
      s.starts act = some (toKey,blob,server) → ∀ m ∈ s.relay.mail.messages,
        m.toKey = toKey → m.encryptedBlob = blob → server ∉ m.deliveredTo) ∧
    (Lts.Along (egressStep cfg) (NoneAhead cfg) {} acts →
      Lts.Along (egressStep cfg) (NoRepeat cfg) {} acts) := by
  constructor
  · intro hok act toKey blob server hstart m hm hkey hblob hserver
    have h : Unrepeated s := by
      refine Lts.run_invariant_along _ (fun s act s' hs hg hstep => hs.step hg hstep) ?_ hok hrun
      exact ⟨Mailbox.wf_empty,by simp [Egress.due]⟩
    exact h.due _ (starts_due hstart) ⟨m,hm,hkey,hblob,hserver⟩
  · intro hok
    refine (Lts.along_congr_along (egressStep cfg) (I := Undelivered cfg) (G := fun _ _ => True)
      (fun _ _ _ hs hg hstep => hs.step hg hstep) (fun _ _ hs hg => iff_of_true trivial (hs.noRepeat hg))
      ?_ hok).mp (Lts.along_of_forall _ (P := fun _ => True) fun _ _ => trivial)
    exact ⟨Mailbox.wf_empty,by simp,by simp [Egress.left]⟩

/-- A message is sent to a key that is online at a peer, forwarded and accepted there. -/
def sampleForwarded : List EgressAct :=
  [.commit (.recvGossip [⟨"online".toList,some (sampleKey 'b')⟩] "peer.example".toList 0),
    .commit (.sendMessages [⟨sampleKey 'b',sampleBlob '1'⟩] (sampleKey 'a') 1),.forward 0,.forwarded 0 true]

/-- Another message follows. -/
theorem delivered_not_called_next : ∃ s, Lts.run (egressStep sampleMesh) {} (sampleForwarded ++
      [.commit (.sendMessages [⟨sampleKey 'b',sampleBlob '2'⟩] (sampleKey 'a') 2)]) = some s ∧
    s.starts (.forward 1) = some (sampleKey 'b',sampleBlob '2',"peer.example".toList) ∧
    ∀ m ∈ s.relay.mail.messages, m.toKey = sampleKey 'b' → m.encryptedBlob = sampleBlob '2' →
      "peer.example".toList ∉ m.deliveredTo := by
  have hrun : (Lts.run (egressStep sampleMesh) {} (sampleForwarded ++
      [.commit (.sendMessages [⟨sampleKey 'b',sampleBlob '2'⟩] (sampleKey 'a') 2)])).any (fun s =>
        s.starts (.forward 1) = some (sampleKey 'b',sampleBlob '2',"peer.example".toList)) = true := by
    decide +kernel
  simp only [Option.any_eq_true, decide_eq_true_eq] at hrun
  obtain ⟨s,hs,hstart⟩ := hrun
  exact ⟨s,hs,hstart,(delivered_not_called hs).1 (by decide +kernel) _ _ _ _ hstart⟩

/-- The client sends the same message again. -/
theorem resent_called_again : ∃ s, Lts.run (egressStep sampleMesh) {} (sampleForwarded ++
      [.commit (.sendMessages [⟨sampleKey 'b',sampleBlob '1'⟩] (sampleKey 'a') 2)]) = some s ∧
    s.relay.mail.messages = [⟨sampleKey 'b',sampleBlob '1',1,["peer.example".toList]⟩] ∧
    s.starts (.forward 1) = some (sampleKey 'b',sampleBlob '1',"peer.example".toList) := by
  have hrun : (Lts.run (egressStep sampleMesh) {} (sampleForwarded ++
      [.commit (.sendMessages [⟨sampleKey 'b',sampleBlob '1'⟩] (sampleKey 'a') 2)])).any (fun s =>
        s.relay.mail.messages = [⟨sampleKey 'b',sampleBlob '1',1,["peer.example".toList]⟩] &&
        s.starts (.forward 1) = some (sampleKey 'b',sampleBlob '1',"peer.example".toList)) = true := by
    decide +kernel
  simp only [Option.any_eq_true, Bool.and_eq_true, decide_eq_true_eq] at hrun
  exact hrun

/-- The rows that an operation acks. -/
def Mailbox.Op.acked (msgs : List Message) : Op → List Message
  | .ack pubkey cursor => msgs.filter (acks pubkey cursor)
  | _ => []

/-- The recipient and the blob that an operation files. -/
def Mailbox.Op.filed : Op → Option (Text × Text)
  | .append toKey blob _ => some (toKey,blob)
  | _ => none

def Message.name (m : Message) : Text × Text := (m.toKey,m.encryptedBlob)

variable (cfg) in
def ackedRows (s : State) (txn : Txn) : List Message :=
  (mailOps cfg s txn).flatMap (Mailbox.Op.acked s.mail.messages)

variable (cfg) in
def filedBlobs (s : State) (txn : Txn) : List (Text × Text) :=
  (mailOps cfg s txn).filterMap Mailbox.Op.filed

variable (cfg) in
/-- An observer who writes down what is acked, and strikes out what is filed again. -/
def noteAcked (s : Egress) (act : EgressAct) (_ : Egress) (acked : List (Text × Text)) :
    List (Text × Text) :=
  (s.txn act).elim acked fun txn =>
    (acked ++ (ackedRows cfg s.relay txn).map Message.name).filter fun p =>
      p ∉ filedBlobs cfg s.relay txn

variable (cfg) in
/-- What is acked has no call due, and no sweep takes up a forward of what was acked. -/
def NoneDue (s : Egress × List (Text × Text)) (act : EgressAct) : Prop :=
  (∀ txn ∈ s.1.txn act, ∀ m ∈ ackedRows cfg s.1.relay txn, ∀ name ∈ s.1.due,
    (name.1,name.2.1) ≠ m.name) ∧
  ∀ name ∈ s.1.takesUp cfg act, (name.1,name.2.1) ∉ s.2

instance (s : Egress × List (Text × Text)) (act : EgressAct) : Decidable (NoneDue cfg s act) :=
  inferInstanceAs (Decidable ((∀ _ ∈ _, _) ∧ _))

variable (cfg) in
/-- The same without a look at what a sweep passes over: what is acked has no call left to make. -/
def NoneLeft (s : Egress) (act : EgressAct) : Prop :=
  ∀ txn ∈ s.txn act, ∀ m ∈ ackedRows cfg s.relay txn, ∀ name ∈ s.left cfg, (name.1,name.2.1) ≠ m.name

theorem stored_name {p : Text × Text} {msgs : List Message} :
    Mailbox.stored p.1 p.2 msgs = true ↔ p ∈ msgs.map Message.name := by
  simp only [Mailbox.stored, List.any_eq_true, List.mem_map, Message.name, Bool.and_eq_true,
    decide_eq_true_eq]
  exact exists_congr fun m => and_congr_right fun _ => by rw [Prod.ext_iff]

theorem Mailbox.name_apply {mail : Mailbox} (hwf : mail.Wf) (op : Op) {p : Text × Text}
    (h : p ∈ (mail.apply cfg op).messages.map Message.name) :
    p ∈ mail.messages.map Message.name ∨ op.filed = some p := by
  obtain ⟨m,hm,rfl⟩ := List.mem_map.mp h
  cases op with
  | append toKey blob t =>
    cases hstored : stored toKey blob mail.messages with
    | true =>
      rw [apply, appendMessage_of_stored cfg t hstored] at hm
      exact .inl (List.mem_map_of_mem hm)
    | false =>
      rw [apply, appendMessage_messages cfg hwf hstored] at hm
      obtain hm | hm := List.mem_append.mp hm
      · exact .inl (List.mem_map_of_mem ((survivors_subperm cfg toKey mail.messages).subset hm))
      · rw [List.mem_singleton.mp hm]
        exact .inr rfl
  | ack | prune => exact .inl (List.mem_map_of_mem (List.mem_of_mem_filter hm))
  | mark toKey blob server =>
    obtain ⟨m',hm',rfl⟩ := List.mem_map.mp hm
    obtain ⟨hkey,hblob⟩ := mark_blob toKey blob server m'
    exact .inl (List.mem_map.mpr ⟨m',hm',by simp [Message.name, hkey, hblob]⟩)

/-- Only what a transaction files comes to be stored. -/
theorem name_commit {s : State} (hwf : s.mail.Wf) (txn : Txn) {p : Text × Text}
    (h : p ∈ (commit cfg s txn).mail.messages.map Message.name) :
    p ∈ s.mail.messages.map Message.name ∨ p ∈ filedBlobs cfg s txn := by
  rw [commit_mail] at h
  rw [filedBlobs]
  generalize s.mail = mail at hwf h ⊢
  generalize mailOps cfg s txn = ops at h ⊢
  induction ops generalizing mail with
  | nil => exact .inl h
  | cons op ops ih =>
    obtain h | h := ih _ (hwf.apply cfg op) h
    · refine (Mailbox.name_apply hwf op h).imp id fun hop => ?_
      exact List.mem_filterMap.mpr ⟨op,List.mem_cons_self,hop⟩
    · obtain ⟨op',hop',hfiled⟩ := List.mem_filterMap.mp h
      exact .inr (List.mem_filterMap.mpr ⟨op',List.mem_cons_of_mem _ hop',hfiled⟩)

/-- What a poll acks is neither stored any more nor queued. -/
theorem acked_commit {s : State} (hwf : s.mail.Wf) {txn : Txn} {m : Message}
    (hm : m ∈ ackedRows cfg s txn) : m.name ∉ (commit cfg s txn).mail.messages.map Message.name ∧
      (∀ f ∈ (commit cfg s txn).forwards, (f.toKey,f.encryptedBlob) ≠ m.name) ∧
      forkForwards cfg s txn = [] := by
  obtain ⟨op,hop,hin⟩ := List.mem_flatMap.mp hm
  cases txn with
  | setupPoll pubkey cursor t =>
    simp only [mailOps] at hop
    split at hop
    · rename_i hpos
      rw [List.mem_singleton.mp hop] at hin
      obtain ⟨hstored,hacks⟩ := List.mem_filter.mp hin
      have hkey : m.toKey = pubkey := by
        simp only [Mailbox.acks, Bool.and_eq_true, decide_eq_true_eq] at hacks
        exact hacks.1
      refine ⟨fun hafter => ?_,fun f hf hsame => ?_,rfl⟩
      · rw [commit_mail, mailOps, if_pos hpos] at hafter
        obtain ⟨m',hm',hsame⟩ := List.mem_map.mp hafter
        obtain ⟨hm',hkept⟩ := List.mem_filter.mp hm'
        obtain rfl : m' = m := List.inj_on_of_nodup_map hwf.blobs hm' hstored hsame
        simp [hacks] at hkept
      · have hleft : f ∈ (ackPolledMessages pubkey (clampCursor cursor t s.mail) s).forwards := by
          simp only [commit, setupPoll, hpos, if_true] at hf
          split at hf <;> exact hf
        have hkept := (List.mem_filter.mp hleft).2
        obtain ⟨hk,hb⟩ : f.toKey = m.toKey ∧ f.encryptedBlob = m.encryptedBlob := Prod.mk.inj hsame
        simp only [hk, hkey, hb, decide_true, Bool.true_and, Bool.not_eq_true', List.contains_eq_mem,
          decide_eq_false_iff_not] at hkept
        exact hkept (List.mem_map_of_mem hin)
    · simp at hop
  | sendMessages messages senderKey t =>
    simp only [mailOps] at hop
    split at hop
    · obtain ⟨e,-,rfl⟩ := List.mem_map.mp hop
      simp [Mailbox.Op.acked] at hin
    · simp at hop
  | forwardMessage toKey blob t =>
    simp only [mailOps] at hop
    split at hop
    · rw [List.mem_singleton.mp hop] at hin
      simp [Mailbox.Op.acked] at hin
    · simp at hop
  | forwardRetried toKey blob server success =>
    simp only [mailOps] at hop
    split at hop
    · rw [List.mem_singleton.mp hop] at hin
      simp [Mailbox.Op.acked] at hin
    · simp at hop
  | forwardAccepted | prune =>
    rw [mailOps, List.mem_singleton] at hop
    rw [hop] at hin
    simp [Mailbox.Op.acked] at hin
  | verifyAuth | recvGossip | forwardQueued | dropServer => simp [mailOps] at hop

/-- The calls that a send adds are for what it files. -/
theorem forked_filed {s : State} {txn : Txn} {k : ForwardTask} (hk : k ∈ forkForwards cfg s txn) :
    (k.toKey,k.encryptedBlob) ∈ filedBlobs cfg s txn := by
  cases txn with
  | sendMessages messages senderKey t =>
    simp only [forkForwards] at hk
    split at hk
    · rename_i hcond
      simp only [Bool.and_eq_true, decide_eq_true_eq] at hcond
      obtain ⟨m,hm,rfl⟩ := List.mem_map.mp hk
      refine List.mem_filterMap.mpr ⟨.append m.toKey m.encryptedBlob t,?_,rfl⟩
      rw [mailOps, if_pos hcond.2]
      exact List.mem_map_of_mem hm
    · simp at hk
  | _ => simp [forkForwards] at hk

theorem forks_filed {s : Egress} {act : EgressAct} {txn : Txn} (htxn : s.txn act = some txn)
    {name : Text × Text × Text} (hname : name ∈ s.forks cfg act) :
    (name.1,name.2.1) ∈ filedBlobs cfg s.relay txn := by
  cases act with
  | commit txn' =>
    obtain rfl := Option.some.inj htxn
    obtain ⟨k,hk,hname⟩ := List.mem_flatMap.mp hname
    obtain ⟨server,-,rfl⟩ := List.mem_map.mp hname
    exact forked_filed hk
  | _ => simp [Egress.forks] at hname

variable (cfg) in
/-- What is acked is nowhere to be found. -/
structure Collected (s : Egress) (acked : List (Text × Text)) : Prop where
  wf : s.relay.mail.Wf
  gone : ∀ p ∈ acked, p ∉ s.relay.mail.messages.map Message.name
  queued : ∀ p ∈ acked, ∀ f ∈ s.relay.forwards, (f.toKey,f.encryptedBlob) ≠ p
  left : ∀ p ∈ acked, ∀ name ∈ s.left cfg, (name.1,name.2.1) ≠ p

theorem Collected.step {s s' : Egress} {act : EgressAct} {acked : List (Text × Text)}
    (h : Collected cfg s acked) (hok : NoneLeft cfg s act) (hstep : egressStep cfg s act = some s') :
    Collected cfg s' (noteAcked cfg s act s' acked) := by
  have hrelay := relay_step hstep
  have hleft := left_step hstep
  cases htxn : s.txn act with
  | none =>
    rw [htxn, Option.elim_none] at hrelay
    simp only [noteAcked, htxn, Option.elim_none]
    refine ⟨hrelay ▸ h.wf,hrelay ▸ h.gone,hrelay ▸ h.queued,fun p hp name hname => ?_⟩
    obtain hname | hname := hleft name hname
    · exact h.left p hp name hname
    · cases act with
      | sweep =>
        obtain ⟨f,hf,rfl⟩ := List.mem_map.mp hname
        exact h.queued p hp f hf
      | commit => simp [Egress.txn] at htxn
      | _ => simp [Egress.begins, Egress.forks] at hname
  | some txn =>
    rw [htxn, Option.elim_some] at hrelay
    simp only [noteAcked, htxn, Option.elim_some]
    refine ⟨?_,fun p hp hin => ?_,fun p hp f hf hsame => ?_,fun p hp name hname hsame => ?_⟩
    · rw [hrelay, commit_mail]
      exact h.wf.foldl cfg _
    all_goals
      simp only [List.mem_filter, List.mem_append, decide_eq_true_eq] at hp
      obtain ⟨hp,hnot⟩ := hp
    · rw [hrelay] at hin
      obtain hp | hp := hp
      · exact (name_commit h.wf txn hin).elim (h.gone p hp) hnot
      · obtain ⟨m,hm,rfl⟩ := List.mem_map.mp hp
        exact (acked_commit h.wf hm).1 hin
    · rw [hrelay] at hf
      obtain hp | hp := hp
      · obtain ⟨⟨g,hg,hname⟩,-⟩ | ⟨-,hstored | ⟨t,hfiled⟩⟩ := forwards_commit h.wf hf
        · simp only [ForwardEntry.name, Prod.mk.injEq] at hname
          exact h.queued p hp g hg (by rw [hname.1, hname.2.1, hsame])
        · have hin := (@stored_name (f.toKey,f.encryptedBlob) _).mp hstored
          exact h.gone p hp (hsame ▸ hin)
        · exact hnot (hsame ▸ List.mem_filterMap.mpr ⟨_,hfiled,rfl⟩)
      · obtain ⟨m,hm,rfl⟩ := List.mem_map.mp hp
        exact (acked_commit h.wf hm).2.1 f hf hsame
    · obtain hname | hname := hleft name hname
      · obtain hp | hp := hp
        · exact h.left p hp name hname hsame
        · obtain ⟨m,hm,rfl⟩ := List.mem_map.mp hp
          exact hok txn htxn m hm name hname hsame
      · obtain hname | hname := List.mem_append.mp hname
        · exact hnot (hsame ▸ forks_filed htxn hname)
        · cases act with
          | sweep => simp [Egress.txn] at htxn
          | _ => simp at hname

/-- No call is due for what was acked. -/
def Quiet (s : Egress × List (Text × Text)) : Prop :=
  ∀ p ∈ s.2, ∀ name ∈ s.1.due, (name.1,name.2.1) ≠ p

/-- A sweep that turns to a peer acks nothing. -/
theorem ackedRows_of_takesUp {s : Egress} {act : EgressAct} {name : Text × Text × Text}
    (hname : name ∈ s.takesUp cfg act) {txn : Txn} (htxn : s.txn act = some txn) :
    ackedRows cfg s.relay txn = [] := by
  cases act with
  | sweepServer =>
    obtain ⟨server,-,rfl⟩ := Option.map_eq_some_iff.mp htxn
    rfl
  | _ => simp [Egress.takesUp] at hname

theorem Quiet.step {s s' : Egress} {act : EgressAct} {acked : List (Text × Text)} (h : Quiet (s,acked))
    (hok : NoneDue cfg (s,acked) act) (hstep : egressStep cfg s act = some s') :
    Quiet (s',noteAcked cfg s act s' acked) := by
  intro p hp name hname hsame
  have hdue := due_step hstep name hname
  cases htxn : s.txn act with
  | none =>
    simp only [noteAcked, htxn, Option.elim_none] at hp
    obtain hdue | hadded := hdue
    · exact h p hp name hdue hsame
    · obtain hfork | htaken := List.mem_append.mp hadded
      · cases act with
        | commit => simp [Egress.txn] at htxn
        | _ => simp [Egress.forks] at hfork
      · exact hok.2 name htaken (hsame ▸ hp)
  | some txn =>
    simp only [noteAcked, htxn, Option.elim_some, List.mem_filter, List.mem_append,
      decide_eq_true_eq] at hp
    obtain ⟨hp,hnot⟩ := hp
    obtain hdue | hadded := hdue
    · obtain hp | hp := hp
      · exact h p hp name hdue hsame
      · obtain ⟨m,hm,rfl⟩ := List.mem_map.mp hp
        exact hok.1 txn htxn m hm name hdue hsame
    · obtain hfork | htaken := List.mem_append.mp hadded
      · exact hnot (hsame ▸ forks_filed htxn hfork)
      · obtain hp | hp := hp
        · exact hok.2 name htaken (hsame ▸ hp)
        · rw [ackedRows_of_takesUp htaken htxn] at hp
          simp at hp

theorem Collected.noneDue {s : Egress} {acked : List (Text × Text)} {act : EgressAct}
    (h : Collected cfg s acked) (hok : NoneLeft cfg s act) : NoneDue cfg (s,acked) act :=
  ⟨fun txn htxn m hm name hname => hok txn htxn m hm name (due_left hname),
    fun name hname hin => h.left _ hin name (takesUp_left hname) rfl⟩

/-- In every run in which a poll acks nothing for which a call is due, and no sweep takes up a forward of
what was acked, no call is started for what was acked and has not been filed again. A run is such a one if
a poll acks nothing that a task or a sweep has yet to call a peer for. -/
theorem acked_not_called {acts : List EgressAct} {s : Egress} {acked : List (Text × Text)}
    (hrun : Lts.run (Lts.watch (egressStep cfg) (noteAcked cfg)) ({},[]) acts = some (s,acked)) :
    (Lts.Along (Lts.watch (egressStep cfg) (noteAcked cfg)) (NoneDue cfg) ({},[]) acts →
      ∀ act toKey blob server, s.starts act = some (toKey,blob,server) → (toKey,blob) ∉ acked) ∧
    (Lts.Along (egressStep cfg) (NoneLeft cfg) {} acts →
      Lts.Along (Lts.watch (egressStep cfg) (noteAcked cfg)) (NoneDue cfg) ({},[]) acts) := by
  constructor
  · intro hok act toKey blob server hstart hin
    have h : Quiet (s,acked) := by
      refine Lts.run_invariant_along _ (I := Quiet) (fun s act s' hs hg hstep => ?_) ?_ hok hrun
      · obtain ⟨hstep,hnote⟩ := Lts.watch_eq_some _ hstep
        have hquiet := hs.step hg hstep
        rwa [← hnote] at hquiet
      · simp [Quiet]
    exact h _ hin _ (starts_due hstart) rfl
  · intro hok
    refine (Lts.along_congr_along _ (I := fun s : Egress × List (Text × Text) => Collected cfg s.1 s.2)
      (G := fun _ _ => True) (fun s act s' hs hg hstep => ?_)
      (fun s act hs hg => iff_of_true trivial (hs.noneDue hg)) ?_
      (Lts.Along.watch (egressStep cfg) (s := ({},[])) hok)).mp
      (Lts.along_of_forall _ (P := fun _ => True) fun _ _ => trivial)
    · obtain ⟨hstep,hnote⟩ := Lts.watch_eq_some _ hstep
      rw [hnote]
      exact hs.step hg hstep
    · exact ⟨Mailbox.wf_empty,by simp,by simp,by simp⟩

/-- A message that was forwarded is polled here, and another one follows. -/
theorem acked_not_called_next : ∃ s acked,
    Lts.run (Lts.watch (egressStep sampleMesh) (noteAcked sampleMesh)) ({},[]) (sampleForwarded ++
      [.commit (.setupPoll (sampleKey 'b') 1 2),
        .commit (.sendMessages [⟨sampleKey 'b',sampleBlob '2'⟩] (sampleKey 'a') 3)]) = some (s,acked) ∧
    acked = [(sampleKey 'b',sampleBlob '1')] ∧
    s.starts (.forward 1) = some (sampleKey 'b',sampleBlob '2',"peer.example".toList) ∧
    (sampleKey 'b',sampleBlob '2') ∉ acked := by
  have hrun : (Lts.run (Lts.watch (egressStep sampleMesh) (noteAcked sampleMesh)) ({},[]) (sampleForwarded ++
      [.commit (.setupPoll (sampleKey 'b') 1 2),
        .commit (.sendMessages [⟨sampleKey 'b',sampleBlob '2'⟩] (sampleKey 'a') 3)])).any (fun s =>
          s.2 = [(sampleKey 'b',sampleBlob '1')] && s.1.starts (.forward 1) =
            some (sampleKey 'b',sampleBlob '2',"peer.example".toList)) = true := by decide +kernel
  simp only [Option.any_eq_true, Bool.and_eq_true, decide_eq_true_eq, Prod.exists] at hrun
  obtain ⟨s,acked,hs,hacked,hstart⟩ := hrun
  exact ⟨s,acked,hs,hacked,hstart,(acked_not_called hs).1 (by decide +kernel) _ _ _ _ hstart⟩

/-- The recipient polls and acks a message here before the task for it has called its peer. -/
theorem acked_called : ∃ s acked,
    Lts.run (Lts.watch (egressStep sampleMesh) (noteAcked sampleMesh)) ({},[])
      (sampleForwarded.take 2 ++ [.commit (.setupPoll (sampleKey 'b') 1 2)]) = some (s,acked) ∧
    acked = [(sampleKey 'b',sampleBlob '1')] ∧ s.relay.mail.messages = [] ∧ s.relay.forwards = [] ∧
    s.starts (.forward 0) = some (sampleKey 'b',sampleBlob '1',"peer.example".toList) := by
  have hrun : (Lts.run (Lts.watch (egressStep sampleMesh) (noteAcked sampleMesh)) ({},[])
      (sampleForwarded.take 2 ++ [.commit (.setupPoll (sampleKey 'b') 1 2)])).any (fun s =>
        s.2 = [(sampleKey 'b',sampleBlob '1')] && s.1.relay.mail.messages = [] &&
        s.1.relay.forwards = [] && s.1.starts (.forward 0) =
          some (sampleKey 'b',sampleBlob '1',"peer.example".toList)) = true := by decide +kernel
  simp only [Option.any_eq_true, Bool.and_eq_true, decide_eq_true_eq, Prod.exists] at hrun
  obtain ⟨s,acked,hs,⟨⟨hacked,hmail⟩,hfwds⟩,hstart⟩ := hrun
  exact ⟨s,acked,hs,hacked,hmail,hfwds,hstart⟩

end
end Skrepka.Relay
