import Skrepka.Lib.Backlog
import Skrepka.Lib.Cutoff
import Skrepka.Relay.Egress
import Skrepka.Relay.Staging

/-! How the sweeps work off the forwards to one peer: each sweep that reaches the peer tries a batch of them
in the order of their blobs, and each try removes a forward or counts. -/
namespace Skrepka.Relay
open Backlog

/-- The forwards to a peer. -/
def forwardsTo (server : Text) (fwds : List ForwardEntry) : List ForwardEntry :=
  fwds.filter fun f => f.toServer = server

/-- The same in the order in which they are tried. -/
def inLine (server : Text) (fwds : List ForwardEntry) : List ForwardEntry :=
  (forwardsTo server fwds).insertionSort fun f g => f.encryptedBlob ≤ g.encryptedBlob

/-- What a sweep has yet to hear of in its batch. -/
def Sweep.pending (w : Sweep) : List ForwardEntry := w.calling.toList ++ w.batch

def Egress.pending (s : Egress) : List ForwardEntry := s.sweep.elim [] Sweep.pending

/-- What is known of a peer: which forwards each sweep that has reached it has tried there, the last sweep
first, and which ones handlers and tasks have withdrawn. -/
structure PeerLog where
  visits : List (List (Text × Text × Text)) := []
  withdrawn : List (Text × Text × Text) := []
  deriving DecidableEq

def noteVisits (server : Text) (s : Egress) (act : EgressAct) (s' : Egress)
    (visits : List (List (Text × Text × Text))) : List (List (Text × Text × Text)) :=
  match act with
  | .sweepServer retry =>
    if retry && (s.sweep.bind fun w => w.servers.head?) = some server then [] :: visits else visits
  | .retry =>
    match s'.sweep.bind Sweep.calling with
    | some f => if f.toServer = server then visits.modifyHead (· ++ [f.name]) else visits
    | none => visits
  | _ => visits

def notePeer (server : Text) (s : Egress) (act : EgressAct) (s' : Egress) (log : PeerLog) : PeerLog where
  visits := noteVisits server s act s' log.visits
  withdrawn := match act with
    | .commit _ | .forwarded _ _ => log.withdrawn ++ ((forwardsTo server s.relay.forwards).map
        ForwardEntry.name).filter fun name => name ∉ s'.relay.forwards.map ForwardEntry.name
    | _ => log.withdrawn

variable (cfg : Config)

/-- The transactions of handlers and tasks stage no forwards to a peer; they may withdraw some. -/
def StagesNone (server : Text) (s : Egress) (act : EgressAct) : Prop :=
  match act with
  | .commit _ | .forwarded _ _ => ∀ s' ∈ egressStep cfg s act, ∃ keep : ForwardEntry → Bool,
      forwardsTo server s'.relay.forwards = (forwardsTo server s.relay.forwards).filter keep
  | _ => True

/-- What a try makes of a forward. -/
def ForwardEntry.answered (f : ForwardEntry) (success : Bool) (x : ForwardEntry) : Option ForwardEntry :=
  if x.name = f.name then
    if success || x.retries+1 ≥ cfg.maxForwardRetries then none else some { x with retries := x.retries+1 }
  else some x

theorem forwardRetried_forwards (f : ForwardEntry) (success : Bool) (s : State) :
    (forwardRetried cfg f.toKey f.encryptedBlob f.toServer success s).forwards =
      s.forwards.filterMap (f.answered cfg success) := by
  simp only [forwardRetried]
  rw [← List.filterMap_eq_map', List.filterMap_filter]
  refine List.filterMap_congr fun x _ => ?_
  by_cases hname : x.name = f.name
  · have hmatch : forwardMatches f.toKey f.encryptedBlob f.toServer x = true := forwardMatches_iff.mpr hname
    cases hdone : success || decide (x.retries+1 ≥ cfg.maxForwardRetries) <;>
      simp only [hmatch, hdone, ForwardEntry.answered, hname, Bool.true_and, Bool.not_true, Bool.not_false,
        Bool.false_eq_true, if_true, if_false]
  · have hmatch : forwardMatches f.toKey f.encryptedBlob f.toServer x = false :=
      Bool.eq_false_iff.mpr fun h => hname (forwardMatches_iff.mp h)
    simp [hmatch, ForwardEntry.answered, hname]

variable {cfg}

theorem answered_some {f x y : ForwardEntry} {success : Bool} (h : f.answered cfg success x = some y) :
    y.toServer = x.toServer ∧ y.encryptedBlob = x.encryptedBlob := by
  unfold ForwardEntry.answered at h
  split at h
  · split at h
    · cases h
    · cases h
      exact ⟨rfl,rfl⟩
  · cases h
    exact ⟨rfl,rfl⟩

theorem ForwardEntry.server_of_name {x f : ForwardEntry} (h : x.name = f.name) : x.toServer = f.toServer :=
  congrArg (fun name : Text × Text × Text => name.2.2) h

theorem forwardsTo_answered (server : Text) (f : ForwardEntry) (success : Bool) (fwds : List ForwardEntry) :
    forwardsTo server (fwds.filterMap (f.answered cfg success)) =
      (forwardsTo server fwds).filterMap (f.answered cfg success) := by
  rw [forwardsTo, forwardsTo, List.filter_filterMap, List.filterMap_filter]
  refine List.filterMap_congr fun x _ => ?_
  cases hy : f.answered cfg success x with
  | none => simp
  | some y =>
    have hserver := (answered_some hy).1
    by_cases hx : x.toServer = server <;> simp [Option.filter, hserver, hx]

/-- A try at one peer leaves the forwards to the others alone. -/
theorem forwardsTo_other {server : Text} {f : ForwardEntry} (hne : f.toServer ≠ server) (success : Bool)
    (fwds : List ForwardEntry) :
    forwardsTo server (fwds.filterMap (f.answered cfg success)) = forwardsTo server fwds := by
  rw [forwardsTo_answered]
  have hother : ∀ x ∈ forwardsTo server fwds, f.answered cfg success x = some x := by
    intro x hx
    have hserver : x.toServer = server := of_decide_eq_true (List.mem_filter.mp hx).2
    refine if_neg fun hname => hne ?_
    rw [← hserver, ForwardEntry.server_of_name hname]
  rw [List.filterMap_congr hother, List.filterMap_some]

/-- What leaves the blobs alone keeps the line in order. -/
theorem inLine_filterMap {server : Text} {fwds fwds' : List ForwardEntry} {g : ForwardEntry → Option ForwardEntry}
    (hg : ∀ x, ∀ y ∈ g x, y.encryptedBlob = x.encryptedBlob)
    (h : forwardsTo server fwds' = (forwardsTo server fwds).filterMap g) :
    inLine server fwds' = (inLine server fwds).filterMap g := by
  have : Std.Total fun f g : ForwardEntry => f.encryptedBlob ≤ g.encryptedBlob := ⟨fun _ _ => le_total _ _⟩
  have : IsTrans ForwardEntry fun f g => f.encryptedBlob ≤ g.encryptedBlob := ⟨fun _ _ _ => le_trans⟩
  rw [inLine, h, Cutoff.insertionSort_filterMap, inLine]
  intro a b a' b' ha hb
  rw [hg a a' ha, hg b b' hb]

theorem inLine_answered (server : Text) (f : ForwardEntry) (success : Bool) (fwds : List ForwardEntry) :
    inLine server (fwds.filterMap (f.answered cfg success)) =
      (inLine server fwds).filterMap (f.answered cfg success) :=
  inLine_filterMap (fun _ _ hy => (answered_some hy).2) (forwardsTo_answered server f success fwds)

theorem inLine_filter {server : Text} {fwds fwds' : List ForwardEntry} {keep : ForwardEntry → Bool}
    (h : forwardsTo server fwds' = (forwardsTo server fwds).filter keep) :
    (inLine server fwds').Sublist (inLine server fwds) := by
  have hline : inLine server fwds' = (inLine server fwds).filterMap (Option.guard keep) := by
    refine inLine_filterMap (fun x y hy => ?_) (by rw [h, List.filterMap_eq_filter])
    rw [(Option.guard_eq_some_iff.mp hy).1]
  rw [hline, List.filterMap_eq_filter]
  exact List.filter_sublist

theorem inLine_congr {server : Text} {fwds fwds' : List ForwardEntry}
    (h : forwardsTo server fwds' = forwardsTo server fwds) : inLine server fwds' = inLine server fwds := by
  rw [inLine, h, inLine]

/-- What the answer of the peer that is called makes of the outbox. -/
theorem retried_forwards {s : Egress} {f : ForwardEntry} (hcalling : s.sweep.bind Sweep.calling = some f)
    (success : Bool) : ((s.txn (.retried success)).elim s.relay (commit cfg s.relay)).forwards =
      s.relay.forwards.filterMap (f.answered cfg success) := by
  simp only [Egress.txn, hcalling]
  exact forwardRetried_forwards cfg f success s.relay

theorem Egress.pending_eq {s : Egress} {w : Sweep} (h : s.sweep = some w) :
    s.pending = w.calling.toList ++ w.batch := by
  rw [Egress.pending, h, Option.elim_some, Sweep.pending]

theorem Sweep.done_iff {w : Sweep} : w.done = true ↔ w.servers = [] ∧ w.batch = [] ∧ w.calling = none := by
  rw [Sweep.done, Bool.and_eq_true, Bool.and_eq_true, List.isEmpty_iff, List.isEmpty_iff,
    Option.isNone_iff_eq_none, and_assoc]

/-- Between the sweeps no answer is awaited. -/
theorem Egress.pending_idle {s : Egress} (hidle : s.sweep.all Sweep.done = true) : s.pending = [] := by
  cases hw : s.sweep with
  | none => rw [Egress.pending, hw, Option.elim_none]
  | some w =>
    rw [hw, Option.all_some, Sweep.done_iff] at hidle
    obtain ⟨-,hbatch,hcalling⟩ := hidle
    rw [s.pending_eq hw, hbatch, hcalling]
    rfl

variable (cfg) in
/-- Some sweeps have worked off the line of a peer, as it was when they began. -/
abbrev Swept := Rounds ForwardEntry.name ForwardEntry.retries cfg.maxBatchSize.toNat cfg.maxForwardRetries.toNat

variable (cfg) in
/-- The same with a sweep at the peer. -/
abbrev Sweeping :=
  Trying ForwardEntry.name ForwardEntry.retries cfg.maxBatchSize.toNat cfg.maxForwardRetries.toNat

variable (cfg) in
/-- How far the sweeps have got with the line of a peer. Of a sweep that has yet to reach the peer the line
has lost some forwards at most. -/
structure Serving (server : Text) (start : List ForwardEntry) (s : Egress)
    (visits : List (List (Text × Text × Text))) : Prop where
  line : ((∀ f ∈ s.pending, f.toServer ≠ server) ∧ Swept cfg start visits (inLine server s.relay.forwards)) ∨
    ∃ log tried, Sweeping cfg start log tried s.pending (inLine server s.relay.forwards) ∧
      (∀ f ∈ s.pending, f.toServer = server) ∧
      visits = (tried ++ (s.sweep.bind Sweep.calling).toList).map ForwardEntry.name :: log ∧
      ∀ w ∈ s.sweep, server ∉ w.servers
  servers : ∀ w ∈ s.sweep, w.servers.Nodup
  snapshot : ∀ w ∈ s.sweep, server ∈ w.servers → Swept cfg start visits (inLine server w.fwds) ∧
    inLine server w.fwds ≠ [] ∧ (inLine server s.relay.forwards).Sublist (inLine server w.fwds)

section
variable {server : Text} {start : List ForwardEntry} {s s' : Egress}
  {visits : List (List (Text × Text × Text))}

/-- Between its batches a sweep has finished its round. -/
theorem Serving.resting (h : Serving cfg server start s visits) (hpending : s.pending = []) :
    Swept cfg start visits (inLine server s.relay.forwards) := by
  obtain ⟨-,hrounds⟩ | ⟨log,tried,htrying,-,rfl,-⟩ := h.line
  · exact hrounds
  · have hcalling : s.sweep.bind Sweep.calling = none := by
      cases hw : s.sweep with
      | none => rfl
      | some w =>
        rw [Egress.pending, hw, Option.elim_some, Sweep.pending, List.append_eq_nil_iff] at hpending
        rw [Option.bind_some]
        exact Option.toList_eq_nil_iff.mp hpending.1
    rw [hpending] at htrying
    rw [hcalling, Option.toList_none, List.append_nil]
    exact htrying.finish

theorem Serving.over (h : Serving cfg server start s visits) (hothers : ∀ f ∈ s.pending, f.toServer ≠ server) :
    Swept cfg start visits (inLine server s.relay.forwards) := by
  obtain ⟨-,hrounds⟩ | ⟨-,-,-,hmine,-,-⟩ := h.line
  · exact hrounds
  · exact h.resting (List.eq_nil_iff_forall_not_mem.mpr fun f hf => hothers f hf (hmine f hf))

/-- What leaves the sweep alone and stages no forwards to the peer. -/
theorem Serving.withdraw (h : Serving cfg server start s visits) (hsweep : s'.sweep = s.sweep)
    (hline : (inLine server s'.relay.forwards).Sublist (inLine server s.relay.forwards)) :
    Serving cfg server start s' visits := by
  have hpending : s'.pending = s.pending := by rw [Egress.pending, hsweep, Egress.pending]
  constructor
  · rw [hpending, hsweep]
    obtain ⟨hothers,hrounds⟩ | ⟨log,tried,htrying,hmine,hvisits,hlater⟩ := h.line
    · exact .inl ⟨hothers,hrounds.lose hline⟩
    · exact .inr ⟨log,tried,htrying.lose hline,hmine,hvisits,hlater⟩
  · rw [hsweep]
    exact h.servers
  · rw [hsweep]
    intro w hw hin
    obtain ⟨hrounds,hne,hsub⟩ := h.snapshot w hw hin
    exact ⟨hrounds,hne,hline.trans hsub⟩

theorem collectPeers_nodup (fwds : List ForwardEntry) :
    (collectPeers cfg fwds ForwardEntry.toServer).Nodup := List.nodup_dedup _

theorem mem_inLine {fwds : List ForwardEntry} {f : ForwardEntry} :
    f ∈ inLine server fwds ↔ f ∈ fwds ∧ f.toServer = server := by
  rw [inLine, List.mem_insertionSort, forwardsTo, List.mem_filter, decide_eq_true_eq]

/-- A sweep is at a peer only if there are forwards to it. -/
theorem inLine_ne_nil {fwds : List ForwardEntry}
    (h : server ∈ collectPeers cfg fwds ForwardEntry.toServer) : inLine server fwds ≠ [] := by
  obtain ⟨f,hf,hserver⟩ := List.mem_map.mp (List.mem_filter.mp (List.mem_dedup.mp h)).1
  exact List.ne_nil_of_mem (mem_inLine.mpr ⟨hf,hserver⟩)

/-- A sweep that has nothing pending for the peer. -/
theorem Serving.elsewhere {w : Sweep} (hw : s.sweep = some w)
    (hothers : ∀ f ∈ w.calling.toList ++ w.batch, f.toServer ≠ server)
    (hrounds : Swept cfg start visits (inLine server s.relay.forwards)) (hnodup : w.servers.Nodup)
    (hsnapshot : server ∈ w.servers → Swept cfg start visits (inLine server w.fwds) ∧
      inLine server w.fwds ≠ [] ∧ (inLine server s.relay.forwards).Sublist (inLine server w.fwds)) :
    Serving cfg server start s visits := by
  refine ⟨.inl ⟨(s.pending_eq hw).symm ▸ hothers,hrounds⟩,?_,?_⟩
  · rintro w' hw'
    obtain rfl := Option.some.inj (hw.symm.trans hw')
    exact hnodup
  · rintro w' hw'
    obtain rfl := Option.some.inj (hw.symm.trans hw')
    exact hsnapshot

/-- A sweep at the peer, which it does not visit again. -/
theorem Serving.visiting {w : Sweep} (hw : s.sweep = some w) (log : List (List (Text × Text × Text)))
    (tried : List ForwardEntry)
    (htrying : Sweeping cfg start log tried (w.calling.toList ++ w.batch) (inLine server s.relay.forwards))
    (hmine : ∀ f ∈ w.calling.toList ++ w.batch, f.toServer = server)
    (hvisits : visits = (tried ++ w.calling.toList).map ForwardEntry.name :: log)
    (hnodup : w.servers.Nodup) (hlater : server ∉ w.servers) : Serving cfg server start s visits := by
  have hpending := s.pending_eq hw
  refine ⟨.inr ⟨log,tried,hpending.symm ▸ htrying,hpending.symm ▸ hmine,?_,?_⟩,?_,?_⟩
  · rw [hw]
    exact hvisits
  · rintro w' hw'
    obtain rfl := Option.some.inj (hw.symm.trans hw')
    exact hlater
  · rintro w' hw'
    obtain rfl := Option.some.inj (hw.symm.trans hw')
    exact hnodup
  · rintro w' hw' hin
    obtain rfl := Option.some.inj (hw.symm.trans hw')
    exact absurd hin hlater

/-- A new sweep takes the forwards as they are. -/
theorem Serving.sweep (h : Serving cfg server start s visits) (hstep : egressStep cfg s .sweep = some s') :
    Serving cfg server start s' visits := by
  simp only [egressStep, Egress.proceed, Egress.txn, Option.map_eq_some_iff, Option.ite_none_right_eq_some,
    Option.some.injEq, Bool.and_eq_true, Option.elim_none] at hstep
  obtain ⟨_,⟨⟨-,hdone⟩,rfl⟩,rfl⟩ := hstep
  have hrounds := h.resting (s.pending_idle hdone)
  refine .elsewhere rfl (fun f hf => by cases hf) hrounds (collectPeers_nodup _) fun hserver => ?_
  exact ⟨hrounds,inLine_ne_nil hserver,List.Sublist.refl _⟩

theorem sweepBatch_eq (fwds : List ForwardEntry) :
    sweepBatch cfg server fwds = (inLine server fwds).take cfg.maxBatchSize.toNat := rfl

theorem mem_sweepBatch {fwds : List ForwardEntry} {f : ForwardEntry} (hf : f ∈ sweepBatch cfg server fwds) :
    f.toServer = server :=
  (mem_inLine.mp (List.mem_of_mem_take hf)).2

/-- A denylisted peer's forwards are not those of another. -/
theorem forwardsTo_dropServer {next : Text} (hne : next ≠ server) (fwds : List ForwardEntry) :
    forwardsTo server (fwds.filter fun x => x.toServer ≠ next) = forwardsTo server fwds := by
  rw [forwardsTo, List.filter_filter, forwardsTo]
  refine List.filter_congr fun x _ => ?_
  by_cases hx : x.toServer = server
  · simp [hx, Ne.symm hne]
  · simp [hx]

/-- A sweep turns to its next peer. -/
theorem Serving.turn (h : Serving cfg server start s visits) (hgood : isBadServerName server = false)
    {retry : Bool} (hstep : egressStep cfg s (.sweepServer retry) = some s') :
    Serving cfg server start s' (noteVisits server s (.sweepServer retry) s' visits) := by
  simp only [egressStep, Egress.proceed, Egress.txn, Option.map_eq_some_iff, Option.bind_eq_some_iff] at hstep
  obtain ⟨_,⟨w',⟨w,hw,hturn⟩,rfl⟩,rfl⟩ := hstep
  unfold Sweep.turn at hturn
  split at hturn
  · rename_i next rest hcalling hbatch hservers
    obtain rfl := Option.some.inj hturn
    have hpending : s.pending = [] := by
      rw [s.pending_eq hw, hcalling, hbatch]
      rfl
    have hrounds := h.resting hpending
    have hnodup := h.servers w hw
    rw [hservers, List.nodup_cons] at hnodup
    have hnext : (s.sweep.bind fun w => w.servers.head?) = some next := by
      rw [hw, Option.bind_some, hservers, List.head?_cons]
    simp only [hw, Option.bind_some, Sweep.denied, hservers, List.head?_cons]
    by_cases hserver : next = server
    · subst hserver
      have hdenied : (some next).filter (fun server => isBadServerName server) = none := by
        simp [Option.filter, hgood]
      obtain ⟨hbefore,hsome,hsub⟩ := h.snapshot w hw (hservers ▸ List.mem_cons_self)
      simp only [hdenied, Option.map_none, Option.elim_none, hgood, Bool.not_false, Bool.true_and]
      cases retry with
      | false =>
        refine .elsewhere rfl (fun f hf => ?_) ?_ hnodup.2 fun hin => absurd hin hnodup.1
        · simp [hcalling] at hf
        · simpa [noteVisits] using hrounds
      | true =>
        refine .visiting rfl visits [] ?_ ?_ ?_ hnodup.2 hnodup.1
        · simpa [hcalling, sweepBatch_eq] using hbefore.start hsome hsub
        · intro f hf
          simp only [hcalling, if_true, Option.toList_none, List.nil_append] at hf
          exact mem_sweepBatch hf
        · simp [noteVisits, hnext, hcalling]
    · have hline : inLine server ((((some next).filter fun server => isBadServerName server).map
          Txn.dropServer).elim s.relay (commit cfg s.relay)).forwards = inLine server s.relay.forwards := by
        refine inLine_congr ?_
        cases hbad : isBadServerName next with
        | false => simp [Option.filter, hbad]
        | true =>
          simp only [Option.filter, hbad, if_true, Option.map_some, Option.elim_some]
          exact forwardsTo_dropServer hserver _
      have hnote : ∀ s' : Egress, noteVisits server s (.sweepServer retry) s' visits = visits := by
        intro s'
        simp [noteVisits, hnext, hserver]
      rw [hnote]
      refine .elsewhere rfl (fun f hf => ?_) (hline.symm ▸ hrounds) hnodup.2 fun hin => ?_
      · simp only [hcalling, Option.toList_none, List.nil_append] at hf
        split at hf
        · rw [mem_sweepBatch hf]
          exact hserver
        · cases hf
      · rw [hline]
        exact h.snapshot w hw (hservers ▸ List.mem_cons_of_mem _ hin)
  · cases hturn

/-- A sweep calls a peer. -/
theorem Serving.call (h : Serving cfg server start s visits) (hstep : egressStep cfg s .retry = some s') :
    Serving cfg server start s' (noteVisits server s .retry s' visits) := by
  simp only [egressStep, Egress.proceed, Egress.txn, Option.map_eq_some_iff, Option.bind_eq_some_iff,
    Option.elim_none] at hstep
  obtain ⟨_,⟨w',⟨w,hw,hcall⟩,rfl⟩,rfl⟩ := hstep
  unfold Sweep.call at hcall
  split at hcall
  · rename_i f batch hcalling hbatch
    obtain rfl := Option.some.inj hcall
    have hpending : s.pending = f :: batch := by
      rw [s.pending_eq hw, hcalling, hbatch]
      rfl
    have hnodup := h.servers w hw
    obtain ⟨hothers,hrounds⟩ | ⟨log,tried,htrying,hmine,rfl,hlater⟩ := h.line
    · have hf := hothers f (hpending ▸ List.mem_cons_self)
      rw [hpending] at hothers
      have hnote : ∀ s' : Egress, s'.sweep.bind Sweep.calling = some f →
          noteVisits server s .retry s' visits = visits := by
        intro s' hs'
        simp [noteVisits, hs', hf]
      rw [hnote _ rfl]
      exact .elsewhere rfl hothers hrounds hnodup (h.snapshot w hw)
    · have hf := hmine f (hpending ▸ List.mem_cons_self)
      rw [hpending] at htrying hmine
      refine .visiting rfl log tried htrying hmine ?_ hnodup (hlater w hw)
      simp [noteVisits, hf, hw, hcalling, List.modifyHead]
  · cases hcall

/-- What a try makes of the forward that was tried. -/
theorem answered_charged {f y : ForwardEntry} {success : Bool} (h : y ∈ f.answered cfg success f) :
    y.name = f.name ∧ y.retries = f.retries+1 ∧ y.retries < cfg.maxForwardRetries := by
  rw [Option.mem_def, ForwardEntry.answered, if_pos rfl] at h
  split at h
  · cases h
  · rename_i hdone
    simp only [Bool.or_eq_true, decide_eq_true_eq, not_or, not_le] at hdone
    cases h
    exact ⟨rfl,rfl,hdone.2⟩

/-- A sweep hears from the peer that it called. -/
theorem Serving.answer (h : Serving cfg server start s visits) (hnames : (start.map ForwardEntry.name).Nodup)
    {ok : Bool} (hstep : egressStep cfg s (.retried ok) = some s') :
    Serving cfg server start s' (noteVisits server s (.retried ok) s' visits) := by
  simp only [egressStep, Egress.proceed, Option.bind_eq_bind, Option.map_eq_some_iff,
    Option.bind_eq_some_iff, Option.ite_none_right_eq_some, Option.some.injEq] at hstep
  obtain ⟨_,⟨w,hw,hcalled,rfl⟩,rfl⟩ := hstep
  obtain ⟨f,hcalling⟩ := Option.isSome_iff_exists.mp hcalled
  have hpending : s.pending = f :: w.batch := by
    rw [s.pending_eq hw, hcalling]
    rfl
  have hfwds : ((s.txn (.retried ok)).elim s.relay (commit cfg s.relay)).forwards =
      s.relay.forwards.filterMap (f.answered cfg ok) :=
    retried_forwards (by rw [hw, Option.bind_some, hcalling]) ok
  have hnodup := h.servers w hw
  simp only [noteVisits]
  by_cases hserver : f.toServer = server
  · obtain ⟨hothers,-⟩ | ⟨log,tried,htrying,hmine,rfl,hlater⟩ := h.line
    · exact absurd hserver (hothers f (hpending ▸ List.mem_cons_self))
    rw [hpending] at htrying hmine
    refine .visiting rfl log (tried ++ [f]) ?_ ?_ ?_ hnodup (hlater w hw)
    · simp only [hfwds, inLine_answered]
      refine htrying.answered hnames (fun y hy => if_neg hy) fun y hy => ?_
      obtain ⟨hname,hcount,hlt⟩ := answered_charged hy
      exact ⟨hname,hcount,by omega⟩
    · exact fun g hg => hmine g (List.mem_cons_of_mem _ hg)
    · simp [hw, hcalling]
  · have hline : inLine server ((s.txn (.retried ok)).elim s.relay (commit cfg s.relay)).forwards =
        inLine server s.relay.forwards := inLine_congr (by rw [hfwds, forwardsTo_other hserver])
    obtain ⟨hothers,hrounds⟩ | ⟨-,-,-,hmine,-,-⟩ := h.line
    · refine .elsewhere rfl (fun g hg => hothers g (hpending ▸ List.mem_cons_of_mem _ hg)) ?_ hnodup fun hin => ?_
      · rw [hline]
        exact hrounds
      · rw [hline]
        exact h.snapshot w hw hin
    · exact absurd (hmine f (hpending ▸ List.mem_cons_self)) hserver

theorem Serving.step (h : Serving cfg server start s visits) (hgood : isBadServerName server = false)
    (hnames : (start.map ForwardEntry.name).Nodup) {act : EgressAct} (hnone : StagesNone cfg server s act)
    (hstep : egressStep cfg s act = some s') :
    Serving cfg server start s' (noteVisits server s act s' visits) := by
  cases act with
  | commit txn =>
    obtain ⟨keep,hkeep⟩ := hnone s' hstep
    obtain ⟨⟨tasks,sweep⟩,hproceed,rfl⟩ := Option.map_eq_some_iff.mp hstep
    cases Egress.proceeds_of_proceed hproceed
    exact h.withdraw rfl (inLine_filter hkeep)
  | forward n =>
    obtain ⟨⟨tasks,sweep⟩,hproceed,rfl⟩ := Option.map_eq_some_iff.mp hstep
    cases Egress.proceeds_of_proceed hproceed
    exact h.withdraw rfl (List.Sublist.refl _)
  | forwarded n ok =>
    obtain ⟨keep,hkeep⟩ := hnone s' hstep
    obtain ⟨⟨tasks,sweep⟩,hproceed,rfl⟩ := Option.map_eq_some_iff.mp hstep
    cases Egress.proceeds_of_proceed hproceed
    exact h.withdraw rfl (inLine_filter hkeep)
  | sweep => exact h.sweep hstep
  | sweepServer retry => exact h.turn hgood hstep
  | retry => exact h.call hstep
  | retried ok => exact h.answer hnames hstep

/-- What is called is on record. -/
theorem Serving.called (h : Serving cfg server start s visits) {f : ForwardEntry}
    (hf : s.sweep.bind Sweep.calling = some f) (hserver : f.toServer = server) :
    f.name ∈ visits.flatten := by
  obtain ⟨hothers,-⟩ | ⟨log,tried,-,-,rfl,-⟩ := h.line
  · obtain ⟨w,hw,hcalling⟩ := Option.bind_eq_some_iff.mp hf
    refine absurd hserver (hothers f ?_)
    rw [Egress.pending, hw, Option.elim_some, Sweep.pending, hcalling]
    exact List.mem_cons_self
  · rw [hf, List.flatten_cons]
    simp

theorem noteVisits_grows {act : EgressAct} : visits.flatten ⊆ (noteVisits server s act s' visits).flatten := by
  cases act with
  | sweepServer retry =>
    simp only [noteVisits]
    split <;> simp
  | retry =>
    simp only [noteVisits]
    split
    · split
      · cases visits with
        | nil => simp
        | cons v visits => simp [List.modifyHead]
      · exact List.Subset.refl _
    · exact List.Subset.refl _
  | commit | forward | forwarded | sweep | retried => exact List.Subset.refl _

/-- The forwards of the line that are gone were tried or withdrawn. -/
def Accounted (start : List ForwardEntry) (s : Egress) (log : PeerLog) : Prop :=
  ∀ f ∈ start, f.name ∈ s.relay.forwards.map ForwardEntry.name ∨ f.name ∈ log.visits.flatten ∨
    f.name ∈ log.withdrawn

/-- What leaves the outbox in the steps of tasks and sweeps, none of which withdraws anything. -/
theorem names_kept (hgood : isBadServerName server = false) {f : ForwardEntry} (hserver : f.toServer = server)
    {act : EgressAct} (hact : (∀ txn, act ≠ .commit txn) ∧ ∀ n ok, act ≠ .forwarded n ok)
    (hstep : egressStep cfg s act = some s') (hf : f.name ∈ s.relay.forwards.map ForwardEntry.name) :
    f.name ∈ s'.relay.forwards.map ForwardEntry.name ∨
      ∃ g, s.sweep.bind Sweep.calling = some g ∧ g.name = f.name := by
  rw [relay_step hstep]
  obtain ⟨x,hx,hname⟩ := List.mem_map.mp hf
  have hxserver : x.toServer = server := (ForwardEntry.server_of_name hname).trans hserver
  cases act with
  | commit txn => exact absurd rfl (hact.1 txn)
  | forwarded n ok => exact absurd rfl (hact.2 n ok)
  | forward | sweep | retry => exact .inl hf
  | sweepServer retry =>
    left
    cases hdenied : s.sweep.bind Sweep.denied with
    | none => simpa [Egress.txn, hdenied] using hf
    | some next =>
      obtain ⟨w,-,hnext⟩ := Option.bind_eq_some_iff.mp hdenied
      have hbad : isBadServerName next = true := (Option.filter_eq_some_iff.mp hnext).2
      have hne : x.toServer ≠ next := by
        rintro rfl
        rw [hxserver, hgood] at hbad
        cases hbad
      simp only [Egress.txn, hdenied, Option.map_some, Option.elim_some]
      exact List.mem_map.mpr ⟨x,List.mem_filter.mpr ⟨hx,decide_eq_true hne⟩,hname⟩
  | retried ok =>
    cases hcalling : s.sweep.bind Sweep.calling with
    | none =>
      left
      simpa [Egress.txn, hcalling] using hf
    | some g =>
      by_cases hg : g.name = f.name
      · exact .inr ⟨g,rfl,hg⟩
      · left
        have hkept : g.answered cfg ok x = some x := if_neg fun hxg => hg (hxg.symm.trans hname)
        rw [retried_forwards hcalling]
        exact List.mem_map.mpr ⟨x,List.mem_filterMap.mpr ⟨x,hx,hkept⟩,hname⟩

theorem Accounted.step {log : PeerLog} (h : Accounted start s log)
    (hserving : Serving cfg server start s log.visits) (hgood : isBadServerName server = false)
    (hstart : ∀ f ∈ start, f.toServer = server) {act : EgressAct} (hstep : egressStep cfg s act = some s') :
    Accounted start s' (notePeer server s act s' log) := by
  intro f hf
  by_cases hact : (∀ txn, act ≠ .commit txn) ∧ ∀ n ok, act ≠ .forwarded n ok
  · have hwithdrawn : (notePeer server s act s' log).withdrawn = log.withdrawn := by
      cases act with
      | commit txn => exact absurd rfl (hact.1 txn)
      | forwarded n ok => exact absurd rfl (hact.2 n ok)
      | forward | sweep | sweepServer | retry | retried => rfl
    rw [hwithdrawn]
    obtain hin | htried | hgone := h f hf
    · obtain hin | ⟨g,hg,hname⟩ := names_kept hgood (hstart f hf) hact hstep hin
      · exact .inl hin
      · have hserver : g.toServer = server := (ForwardEntry.server_of_name hname).trans (hstart f hf)
        exact .inr (.inl (hname ▸ noteVisits_grows (hserving.called hg hserver)))
    · exact .inr (.inl (noteVisits_grows htried))
    · exact .inr (.inr hgone)
  · have hnote : (notePeer server s act s' log).visits = log.visits ∧
        (notePeer server s act s' log).withdrawn = log.withdrawn ++ ((forwardsTo server
          s.relay.forwards).map ForwardEntry.name).filter fun name =>
            name ∉ s'.relay.forwards.map ForwardEntry.name := by
      cases act with
      | commit | forwarded => exact ⟨rfl,rfl⟩
      | forward | sweep | sweepServer | retry | retried => simp at hact
    rw [hnote.1, hnote.2, List.mem_append]
    obtain hin | htried | hgone := h f hf
    · by_cases hstays : f.name ∈ s'.relay.forwards.map ForwardEntry.name
      · exact .inl hstays
      · obtain ⟨x,hx,hname⟩ := List.mem_map.mp hin
        have hserver : x.toServer = server := (ForwardEntry.server_of_name hname).trans (hstart f hf)
        refine .inr (.inr (.inr (List.mem_filter.mpr ⟨?_,decide_eq_true hstays⟩)))
        exact List.mem_map.mpr ⟨x,List.mem_filter.mpr ⟨hx,decide_eq_true hserver⟩,hname⟩
    · exact .inr (.inl htried)
    · exact .inr (.inr (.inl hgone))

theorem calling_sublist (s : Egress) : (s.sweep.bind Sweep.calling).toList.Sublist s.pending := by
  cases hw : s.sweep with
  | none => exact List.nil_sublist _
  | some w =>
    rw [Egress.pending, hw, Option.elim_some, Sweep.pending, Option.bind_some]
    exact List.sublist_append_left _ _

/-- A sweep that is done has no more peers. -/
theorem serving_start (hidle : s.sweep.all Sweep.done = true) :
    Serving cfg server (inLine server s.relay.forwards) s [] := by
  have hservers : ∀ w ∈ s.sweep, w.servers = [] := by
    intro w hw
    rw [Option.mem_def.mp hw, Option.all_some, Sweep.done_iff] at hidle
    exact hidle.1
  refine ⟨.inl ⟨fun f hf => ?_,.none⟩,fun w hw => ?_,fun w hw hin => ?_⟩
  · rw [s.pending_idle hidle] at hf
    cases hf
  · rw [hservers w hw]
    exact List.nodup_nil
  · rw [hservers w hw] at hin
    cases hin

/-- What holds of the visits at any time. -/
theorem Serving.bounds (h : Serving cfg server start s visits) (hnames : (start.map ForwardEntry.name).Nodup)
    (hcounts : ∀ f ∈ start, 0 ≤ f.retries) (hlimit : 1 ≤ cfg.maxForwardRetries.toNat) {m : ℕ}
    (hm : start.length ≤ m*cfg.maxBatchSize.toNat) :
    (∀ v ∈ visits, v.length ≤ cfg.maxBatchSize.toNat) ∧
      (∀ f ∈ start, visits.flatten.count f.name ≤ cfg.maxForwardRetries.toNat) ∧
      visits.length ≤ m*cfg.maxForwardRetries.toNat := by
  obtain ⟨-,hrounds⟩ | ⟨log,tried,htrying,-,rfl,-⟩ := h.line
  · exact ⟨hrounds.tried,fun f hf => (hrounds.fared hcounts hnames hlimit hf).count_le (hcounts f hf),
      hrounds.length_le hcounts hlimit hm⟩
  · obtain ⟨left,hrounds⟩ := htrying.all_done
    have hsub : (tried ++ (s.sweep.bind Sweep.calling).toList).Sublist (tried ++ s.pending) :=
      (calling_sublist s).append_left tried
    refine ⟨fun v hv => ?_,fun f hf => htrying.count_le hcounts hnames hlimit hsub hf,
      hrounds.length_le hcounts hlimit hm⟩
    obtain rfl | hv := List.mem_cons.mp hv
    · rw [List.length_map]
      exact hsub.length_le.trans htrying.tried_le
    · exact hrounds.tried v (List.mem_cons_of_mem _ hv)

end

variable (cfg) in
/-- As many sweeps as there are batches among some forwards, times the limit on retries. -/
def sweepsFor (n : ℕ) : ℕ :=
  (n+cfg.maxBatchSize.toNat-1)/cfg.maxBatchSize.toNat*cfg.maxForwardRetries.toNat

/-- A try at one peer changes nothing of the others. -/
theorem retried_spares {s s' : Egress} {ok : Bool} {f : ForwardEntry}
    (hcalling : s.sweep.bind Sweep.calling = some f) (hstep : egressStep cfg s (.retried ok) = some s')
    {other : Text} (hne : other ≠ f.toServer) :
    forwardsTo other s'.relay.forwards = forwardsTo other s.relay.forwards := by
  rw [relay_step hstep, retried_forwards hcalling, forwardsTo_other (Ne.symm hne)]

/-- Where a peer is not denylisted and no forwards to it are staged: each sweep that reaches it tries at most
a batch, no forward is tried more often than the limit on retries, and none goes that was neither tried nor
withdrawn. After a sweep for each batch, times that limit, none is left and no more sweeps come, and a try at
the peer leaves the forwards to the others alone. -/
theorem backlog_drains {server : Text} (hgood : isBadServerName server = false)
    (hbatch : 1 ≤ cfg.maxBatchSize) (hlimit : 1 ≤ cfg.maxForwardRetries) {s s' : Egress}
    (hidle : s.sweep.all Sweep.done = true)
    (hnames : ((forwardsTo server s.relay.forwards).map ForwardEntry.name).Nodup)
    (hcounts : ∀ f ∈ forwardsTo server s.relay.forwards, 0 ≤ f.retries) {acts : List EgressAct}
    (hnone : Lts.Along (egressStep cfg) (StagesNone cfg server) s acts) {log : PeerLog}
    (hrun : Lts.run (Lts.watch (egressStep cfg) (notePeer server)) (s,{}) acts = some (s',log)) :
    (∀ v ∈ log.visits, (v.length : ℤ) ≤ cfg.maxBatchSize) ∧
    (∀ f ∈ forwardsTo server s.relay.forwards,
      (log.visits.flatten.count f.name : ℤ) ≤ cfg.maxForwardRetries ∧
      (f.name ∉ s'.relay.forwards.map ForwardEntry.name →
        f.name ∈ log.visits.flatten ∨ f.name ∈ log.withdrawn)) ∧
    log.visits.length ≤ sweepsFor cfg (forwardsTo server s.relay.forwards).length ∧
    (log.visits.length = sweepsFor cfg (forwardsTo server s.relay.forwards).length →
      (∀ f ∈ s'.pending, f.toServer ≠ server) → forwardsTo server s'.relay.forwards = []) ∧
    ∀ u u' ok f, u.sweep.bind Sweep.calling = some f → f.toServer = server →
      egressStep cfg u (.retried ok) = some u' → ∀ other, other ≠ server →
        forwardsTo other u'.relay.forwards = forwardsTo other u.relay.forwards := by
  let start := inLine server s.relay.forwards
  have hperm : start.Perm (forwardsTo server s.relay.forwards) := List.perm_insertionSort _ _
  have hstart : (start.map ForwardEntry.name).Nodup := (hperm.map _).nodup_iff.mpr hnames
  have hnonneg : ∀ f ∈ start, 0 ≤ f.retries := fun f hf => hcounts f (hperm.mem_iff.mp hf)
  obtain ⟨hserving,haccounted⟩ : Serving cfg server start s' log.visits ∧ Accounted start s' log := by
    refine Lts.run_invariant_along _ (I := fun sl : Egress × PeerLog =>
      Serving cfg server start sl.1 sl.2.visits ∧ Accounted start sl.1 sl.2) ?_ ⟨serving_start hidle,?_⟩
        hnone.watch hrun
    · rintro sl act sl' ⟨hserving,haccounted⟩ hnone hstep
      obtain ⟨hact,hnote⟩ := Lts.watch_eq_some _ hstep
      rw [hnote]
      exact ⟨hserving.step hgood hstart hnone hact,
        haccounted.step hserving hgood (fun f hf => (mem_inLine.mp hf).2) hact⟩
    · exact fun f hf => .inl (List.mem_map_of_mem (mem_inLine.mp hf).1)
  have hlen : start.length = (forwardsTo server s.relay.forwards).length := hperm.length_eq
  have hm : start.length ≤ (start.length+cfg.maxBatchSize.toNat-1)/cfg.maxBatchSize.toNat*
      cfg.maxBatchSize.toNat := by
    have hdiv := Nat.div_add_mod (start.length+cfg.maxBatchSize.toNat-1) cfg.maxBatchSize.toNat
    have hmod := Nat.mod_lt (start.length+cfg.maxBatchSize.toNat-1) (y := cfg.maxBatchSize.toNat) (by omega)
    rw [Nat.mul_comm] at hdiv
    omega
  have hlimit' : 1 ≤ cfg.maxForwardRetries.toNat := by omega
  obtain ⟨hvisits,htries,hsweeps⟩ := hserving.bounds hstart hnonneg hlimit' hm
  refine ⟨fun v hv => ?_,fun f hf => ⟨?_,fun hgone => ?_⟩,?_,fun hall hover => ?_,?_⟩
  · have := hvisits v hv
    omega
  · have := htries f (hperm.mem_iff.mpr hf)
    omega
  · exact (haccounted f (hperm.mem_iff.mpr hf)).resolve_left hgone
  · rw [sweepsFor, ← hlen]
    exact hsweeps
  · have hempty : inLine server s'.relay.forwards = [] := by
      refine (hserving.over hover).drained hnonneg hlimit' hm ?_
      rw [hall, sweepsFor, ← hlen]
    exact (hempty ▸ List.perm_insertionSort _ _ : [].Perm (forwardsTo server s'.relay.forwards)).nil_eq.symm
  · rintro u u' ok f hcalling rfl hstep other hne
    exact retried_spares hcalling hstep hne

/-- In every run each forward is queued once, and its retries are counted from zero. -/
theorem egress_counted (hretries : 1 ≤ cfg.maxForwardRetries) (htotal : 1 ≤ cfg.maxForwardsTotal)
    (hserver : 1 ≤ cfg.maxForwardsPerServer) {acts : List EgressAct} {s : Egress}
    (hrun : Lts.run (egressStep cfg) {} acts = some s) : Counted cfg s.relay.forwards := by
  refine (Lts.run_invariant _ (I := fun s : Egress => s.relay.mail.Wf ∧ Counted cfg s.relay.forwards)
    (fun s act s' hs hstep => ?_) ⟨Mailbox.wf_empty,counted_empty htotal hserver⟩ hrun).2
  rw [relay_step hstep]
  cases s.txn act with
  | none => exact hs
  | some txn =>
    refine ⟨?_,hs.2.commit hretries htotal hs.1 txn⟩
    rw [Option.elim_some, commit_mail]
    exact hs.1.foldl cfg _

/-- A relay that tries one forward in a sweep, and each of them twice. -/
def sampleSlow : Config := { sampleMesh with maxBatchSize := 1, maxForwardRetries := 2 }

/-- Two messages are sent to a key that is online at a peer. -/
def sampleQueued : List EgressAct :=
  [.commit (.recvGossip [⟨"online".toList,some (sampleKey 'b')⟩] "peer.example".toList 0),
    .commit (.sendMessages [⟨sampleKey 'b',sampleBlob '2'⟩] (sampleKey 'a') 1),
    .commit (.sendMessages [⟨sampleKey 'b',sampleBlob '1'⟩] (sampleKey 'a') 2)]

/-- A sweep that calls the peer once. -/
def sampleSweep (ok : Bool) : List EgressAct := [.sweep,.sweepServer true,.retry,.retried ok]

/-- The first message is given up after two sweeps, and the second one is taken in the fourth. -/
theorem backlog_drains_two : ∃ s s' log, Lts.run (egressStep sampleSlow) {} sampleQueued = some s ∧
    Lts.run (Lts.watch (egressStep sampleSlow) (notePeer "peer.example".toList)) (s,{})
      ([false,false,false,true].flatMap sampleSweep) = some (s',log) ∧
    (forwardsTo "peer.example".toList s.relay.forwards).length = 2 ∧ log.visits.length = 4 ∧
    (∀ v ∈ log.visits, (v.length : ℤ) ≤ 1) ∧ forwardsTo "peer.example".toList s'.relay.forwards = [] := by
  have hruns : (Lts.run (egressStep sampleSlow) {} sampleQueued).any (fun s =>
      (forwardsTo "peer.example".toList s.relay.forwards).length = 2 && s.sweep.all Sweep.done &&
      (Lts.run (Lts.watch (egressStep sampleSlow) (notePeer "peer.example".toList)) (s,{})
        ([false,false,false,true].flatMap sampleSweep)).any fun sl => sl.2.visits.length = 4 &&
          sl.1.pending = []) = true := by decide +kernel
  obtain ⟨s,hs,hall⟩ := (Option.any_eq_true _ _).mp hruns
  simp only [Bool.and_eq_true, decide_eq_true_eq, Option.any_eq_true, Prod.exists] at hall
  obtain ⟨⟨hlen,hidle⟩,s',log,hrun,hvisits,hpending⟩ := hall
  have hcounted := egress_counted (by decide) (by decide) (by decide) hs
  have hnone : Lts.Along (egressStep sampleSlow) (StagesNone sampleSlow "peer.example".toList) s
      ([false,false,false,true].flatMap sampleSweep) := by
    simp [Lts.Along, sampleSweep, StagesNone]
  obtain ⟨hbatch,-,-,hempty,-⟩ := backlog_drains (by decide +kernel) (by decide) (by decide) hidle
    (hcounted.distinct.sublist (List.filter_sublist.map _))
    (fun f hf => hcounted.nonneg f (List.mem_filter.mp hf).1) hnone hrun
  refine ⟨s,s',log,hs,hrun,hlen,hvisits,hbatch,hempty ?_ ?_⟩
  · rw [hvisits, hlen]
    rfl
  · simp [hpending]

end Skrepka.Relay
