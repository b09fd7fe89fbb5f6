import Skrepka.Lib.Cutoff
import Skrepka.Relay.Outbox

/-! Whether a forward survives the cut that its own staging makes: the outbox is sorted by retries and
then by blob, so a new forward gives way to the untried ones whose blobs come before its own. -/
namespace Skrepka.Relay
open Sequenced

/-- An outbox, the forwards that are staged into it, and what is left of both. -/
structure Staging where
  before : List ForwardEntry
  new : List ForwardEntry
  after : List ForwardEntry

variable (cfg : Config)

def sendStagings (pres : List PresenceEntry) (t : ℤ) : State → List Envelope → List Staging
  | _, [] => []
  | s, m :: messages =>
    let s' := sendOne cfg pres t s m
    let new := stagedForwards cfg m.toKey m.encryptedBlob (remoteServers cfg pres m.toKey t)
      (delivered m.toKey m.encryptedBlob s.mail.messages) s.forwards
    if cfg.federationEnabled then ⟨s.forwards,new,s'.forwards⟩ :: sendStagings pres t s' messages
    else sendStagings pres t s' messages

/-- What a transaction stages, message by message. -/
def stagings (s : State) : Txn → List Staging
  | .sendMessages messages senderKey t =>
    if validateBatch cfg messages senderKey = none then sendStagings cfg s.presence t s messages else []
  | .forwardQueued pubkeys server =>
    [⟨s.forwards,queuedForwards cfg pubkeys server s,(commit cfg s (.forwardQueued pubkeys server)).forwards⟩]
  | _ => []

namespace Staging

/-- Unless more forwards are new than the outbox may hold, all of them stay, and no old one stays that has
been retried more often than one that does not. -/
def Survives (st : Staging) : Prop :=
  (st.new.length : ℤ) ≤ cfg.maxForwardsTotal →
    (∀ f ∈ st.new, f ∈ st.after) ∧
      ∀ e ∈ st.before ++ st.new, e ∉ st.after → ∀ f ∈ st.before, f ∈ st.after → f.retries ≤ e.retries

/-- The outbox can hold each new forward along with all untried ones whose blobs are not greater. -/
def HasRoom (st : Staging) : Prop :=
  (st.new.length : ℤ) ≤ cfg.maxForwardsTotal → ∀ f ∈ st.new,
    ((st.before ++ st.new).countP fun g => g.retries = 0 && g.encryptedBlob ≤ f.encryptedBlob : ℤ) ≤
      cfg.maxForwardsTotal

instance (st : Staging) : Decidable (st.Survives cfg) := inferInstanceAs (Decidable (_ → _ ∧ _))
instance (st : Staging) : Decidable (st.HasRoom cfg) := inferInstanceAs (Decidable (_ → _))

end Staging

/-- The order in which forwards are kept. -/
abbrev ForwardEntry.before (a b : ForwardEntry) : Prop :=
  a.retries < b.retries ∨ a.retries = b.retries ∧ a.encryptedBlob ≤ b.encryptedBlob

theorem capForwards_eq (fwds : List ForwardEntry) :
    capForwards cfg fwds = (fwds.insertionSort ForwardEntry.before).take cfg.maxForwardsTotal.toNat := rfl

instance : Std.Total ForwardEntry.before where
  total a b := by
    obtain h | h | h := lt_trichotomy a.retries b.retries
    · exact .inl (.inl h)
    · exact (le_total a.encryptedBlob b.encryptedBlob).imp (fun hle => .inr ⟨h,hle⟩)
        fun hle => .inr ⟨h.symm,hle⟩
    · exact .inr (.inl h)

instance : IsTrans ForwardEntry ForwardEntry.before where
  trans a b c := by
    rintro (hab | ⟨hab,hab'⟩) (hbc | ⟨hbc,hbc'⟩)
    · exact .inl (hab.trans hbc)
    · exact .inl (hab.trans_eq hbc)
    · exact .inl (hab.trans_lt hbc)
    · exact .inr ⟨hab.trans hbc,hab'.trans hbc'⟩

variable {cfg}

/-- What is evicted comes last in the order, whatever it is. -/
theorem capForwards_evicts {fwds : List ForwardEntry} {e f : ForwardEntry} (he : e ∈ fwds)
    (hgone : e ∉ capForwards cfg fwds) (hf : f ∈ capForwards cfg fwds) : f.retries ≤ e.retries := by
  have hsorted := List.pairwise_insertionSort ForwardEntry.before fwds
  rw [capForwards_eq] at hgone hf
  have hcut := Cutoff.mem_drop_of_not_mem_take ((List.mem_insertionSort _).mpr he) hgone
  obtain h | ⟨h,-⟩ := Cutoff.rel_of_take_drop hsorted hf hcut
  · exact h.le
  · exact h.le

theorem Staging.survives_iff {before new : List ForwardEntry} (hnew : Fits cfg before new)
    (hdistinct : (before.map ForwardEntry.name).Nodup) (hretries : ∀ f ∈ before, 0 ≤ f.retries) :
    (⟨before,new,capForwards cfg (union before new)⟩ : Staging).Survives cfg ↔
      (⟨before,new,capForwards cfg (union before new)⟩ : Staging).HasRoom cfg := by
  simp only [Survives, HasRoom, hnew.union_eq]
  have hnodup : (before ++ new).Nodup := (hnew.names hdistinct).of_map
  have hcount : ∀ f ∈ new, ((before ++ new).countP fun g => ForwardEntry.before g f) =
      (before ++ new).countP fun g => g.retries = 0 && g.encryptedBlob ≤ f.encryptedBlob := by
    intro f hf
    refine List.countP_congr fun g hg => ?_
    have hg : 0 ≤ g.retries := by
      obtain hg | hg := List.mem_append.mp hg
      · exact hretries g hg
      · exact (hnew.untried g hg).ge
    simp only [ForwardEntry.before, hnew.untried f hf, decide_eq_true_eq, Bool.and_eq_true]
    exact or_iff_right (not_lt.mpr hg)
  have hkeeps := Cutoff.keeps_new_iff (r := ForwardEntry.before) (n := cfg.maxForwardsTotal.toNat) hnodup
  refine forall_congr' fun hlen => ?_
  have hnonneg : 0 ≤ cfg.maxForwardsTotal := by omega
  constructor
  · rintro ⟨hstay,-⟩ f hf
    have := hkeeps.mp hstay f hf
    rw [hcount f hf] at this
    omega
  · intro hroom
    refine ⟨hkeeps.mpr fun f hf => ?_,fun e he hgone f _ hf => capForwards_evicts he hgone hf⟩
    have := hroom f hf
    rw [hcount f hf]
    omega

variable (cfg) in
/-- An outbox whose retries are counted from zero. -/
structure Counted (fwds : List ForwardEntry) : Prop extends Outbox cfg fwds where
  nonneg : ∀ f ∈ fwds, 0 ≤ f.retries

theorem counted_empty (htotal : 1 ≤ cfg.maxForwardsTotal) (hserver : 1 ≤ cfg.maxForwardsPerServer) :
    Counted cfg [] := by
  refine ⟨⟨List.nodup_nil,?_,fun _ => ?_,by simp⟩,by simp⟩
  · change (0 : ℤ) ≤ _
    omega
  · change (0 : ℤ) ≤ _
    omega

theorem Counted.of_outbox {fwds fwds' : List ForwardEntry} (h : Counted cfg fwds)
    (houtbox : Outbox cfg fwds') (hsub : ∀ f ∈ fwds', f ∈ fwds ∨ 0 ≤ f.retries) : Counted cfg fwds' :=
  ⟨houtbox,fun f hf => (hsub f hf).elim (h.nonneg f) id⟩

section
variable (hretries : 1 ≤ cfg.maxForwardRetries) (htotal : 1 ≤ cfg.maxForwardsTotal)
include hretries htotal

theorem Counted.queue {fwds new : List ForwardEntry} (h : Counted cfg fwds) (hnew : Fits cfg fwds new) :
    Counted cfg (capForwards cfg (union fwds new)) :=
  h.of_outbox (h.toOutbox.queue hnew hretries htotal) fun f hf =>
    (mem_capForwards hf).imp_right fun hf => (hnew.untried f hf).ge

theorem Counted.sendOne {s : State} (h : Counted cfg s.forwards) (pres : List PresenceEntry) (t : ℤ)
    (m : Envelope) : Counted cfg (sendOne cfg pres t s m).forwards := by
  simp only [Relay.sendOne]
  split
  · exact h.queue hretries htotal (stagedForwards_fits _ _ (remoteServers_nodup pres _ _) _ _)
  · exact h

theorem Counted.sendAll {s : State} (h : Counted cfg s.forwards) (pres : List PresenceEntry) (t : ℤ)
    (messages : List Envelope) : Counted cfg (messages.foldl (Relay.sendOne cfg pres t) s).forwards := by
  induction messages generalizing s with
  | nil => exact h
  | cons m messages ih => exact ih (h.sendOne hretries htotal pres t m)

theorem Counted.commit {s : State} (h : Counted cfg s.forwards) (hmail : s.mail.Wf) (txn : Txn) :
    Counted cfg (commit cfg s txn).forwards := by
  have houtbox := h.toOutbox.commit hretries htotal hmail txn
  cases txn with
  | sendMessages messages senderKey t =>
    simp only [Relay.commit, handleSendMessages]
    split
    · exact h
    · generalize s.presence = pres
      exact h.sendAll hretries htotal pres t messages
  | forwardQueued pubkeys server =>
    exact h.queue hretries htotal (h.toOutbox.queuedForwards_fits hmail pubkeys server)
  | forwardRetried toKey blob server success =>
    refine h.of_outbox houtbox fun f hf => ?_
    obtain ⟨g,hg,rfl⟩ := List.mem_map.mp hf
    have := h.nonneg g (List.mem_filter.mp hg).1
    right
    split
    · change 0 ≤ g.retries+1
      omega
    · exact this
  | forwardMessage toKey blob t =>
    refine h.of_outbox houtbox fun f hf => .inl ?_
    simp only [Relay.commit, handleForwardMessage] at hf
    split at hf
    · exact hf
    · split at hf <;> exact hf
  | setupPoll pubkey cursor t =>
    refine h.of_outbox houtbox fun f hf => .inl ?_
    simp only [Relay.commit, setupPoll] at hf
    split at hf <;> split at hf
    · exact (List.mem_filter.mp hf).1
    · exact (List.mem_filter.mp hf).1
    · exact hf
    · exact hf
  | recvGossip events server t =>
    refine h.of_outbox houtbox fun f hf => .inl ?_
    simp only [Relay.commit, handleRecvGossip] at hf
    split at hf
    · exact hf
    · exact (List.mem_filter.mp hf).1
  | verifyAuth => exact h
  | forwardAccepted | dropServer | prune =>
    exact h.of_outbox houtbox fun f hf => .inl (List.mem_filter.mp hf).1

/-- What a staging makes of an outbox that a run has reached. -/
theorem sendStagings_survive {s : State} (h : Counted cfg s.forwards) (pres : List PresenceEntry) (t : ℤ)
    (messages : List Envelope) {st : Staging} (hst : st ∈ sendStagings cfg pres t s messages) :
    st.Survives cfg ↔ st.HasRoom cfg := by
  induction messages generalizing s with
  | nil => cases hst
  | cons m messages ih =>
    have hnext := h.sendOne hretries htotal pres t m
    simp only [sendStagings] at hst
    split at hst
    · rename_i hfederated
      obtain rfl | hst := List.mem_cons.mp hst
      · have hafter : (Relay.sendOne cfg pres t s m).forwards = capForwards cfg (union s.forwards
            (stagedForwards cfg m.toKey m.encryptedBlob (remoteServers cfg pres m.toKey t)
              (delivered m.toKey m.encryptedBlob s.mail.messages) s.forwards)) := by
          simp only [Relay.sendOne, hfederated, if_true, stageForwards_eq]
        rw [hafter]
        exact Staging.survives_iff (stagedForwards_fits _ _ (remoteServers_nodup pres _ _) _ _) h.distinct h.nonneg
      · exact ih hnext hst
    · exact ih hnext hst

theorem stagings_survive {s : State} (h : Counted cfg s.forwards) (hmail : s.mail.Wf) {txn : Txn}
    {st : Staging} (hst : st ∈ stagings cfg s txn) : st.Survives cfg ↔ st.HasRoom cfg := by
  cases txn with
  | sendMessages messages senderKey t =>
    simp only [stagings] at hst
    split at hst
    · exact sendStagings_survive hretries htotal h s.presence t messages hst
    · cases hst
  | forwardQueued pubkeys server =>
    obtain rfl := List.mem_singleton.mp hst
    exact Staging.survives_iff (h.toOutbox.queuedForwards_fits hmail pubkeys server) h.distinct h.nonneg
  | _ => cases hst

end

/-- In a run every staging keeps its new forwards exactly if every staging finds room for each of them
along with the untried forwards whose blobs are not greater. -/
theorem fresh_forwards_survive (hretries : 1 ≤ cfg.maxForwardRetries) (htotal : 1 ≤ cfg.maxForwardsTotal)
    (hserver : 1 ≤ cfg.maxForwardsPerServer) (txns : List Txn) :
    Lts.Along (step cfg) (fun s txn => ∀ st ∈ stagings cfg s txn, st.Survives cfg) {} txns ↔
      Lts.Along (step cfg) (fun s txn => ∀ st ∈ stagings cfg s txn, st.HasRoom cfg) {} txns := by
  refine Lts.along_congr (step cfg) (I := fun s => s.mail.Wf ∧ Counted cfg s.forwards) ?_ ?_ ?_ txns
  · rintro s txn s' ⟨hmail,h⟩ hstep
    obtain rfl := Option.some.inj hstep
    refine ⟨?_,h.commit hretries htotal hmail txn⟩
    rw [commit_mail]
    exact hmail.foldl cfg _
  · rintro s txn ⟨hmail,h⟩
    exact forall₂_congr fun st hst => stagings_survive hretries htotal h hmail hst
  · exact ⟨Mailbox.wf_empty,counted_empty htotal hserver⟩

/-- Another message to a key that a forward waits for. -/
def sampleSecond : Txn := .sendMessages [⟨sampleKey 'b',sampleBlob '2'⟩] (sampleKey 'a') 2

theorem fresh_forwards_survive_second : ∃ s, Lts.run (step sampleMesh) {} (sampleRetried.take 2) = some s ∧
    (stagings sampleMesh s sampleSecond).map (fun st => (st.before.length,st.new.length,st.after.length)) =
      [(1,1,2)] ∧
    Lts.Along (step sampleMesh) (fun s txn => ∀ st ∈ stagings sampleMesh s txn, st.Survives sampleMesh) {}
      (sampleRetried.take 2 ++ [sampleSecond]) :=
  ⟨_,rfl,by decide +kernel,(fresh_forwards_survive (by decide) (by decide) (by decide) _).mpr
    (by decide +kernel)⟩

/-- A relay that may queue one forward. -/
def sampleTight : Config := { sampleMesh with maxForwardsTotal := 1 }

/-- The outbox is full with an untried forward whose blob is less, so the new forward is evicted. -/
theorem fresh_forward_evicted : ∃ s, Lts.run (step sampleTight) {} (sampleRetried.take 2) = some s ∧
    s.forwards = [⟨"peer.example".toList,sampleKey 'b',sampleBlob '1',0⟩] ∧
    (commit sampleTight s sampleSecond).forwards = s.forwards ∧
    ¬ ∀ st ∈ stagings sampleTight s sampleSecond, st.Survives sampleTight :=
  ⟨_,rfl,by decide +kernel,by decide +kernel,by decide +kernel⟩

end Skrepka.Relay
