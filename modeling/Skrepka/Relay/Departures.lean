import Skrepka.Relay.Service

/-! How mail leaves a relay: the ways in which a mailbox drops a row, and who can make it do so. -/
namespace Skrepka.Relay
open Sequenced

namespace Mailbox
variable (cfg : Config)

/-- Why an operation may drop a row: there is no room, the row is acked, or it is too old. -/
def Drops (mail : Mailbox) (m : Message) : Op → Prop
  | .append toKey _ _ =>
    (m.toKey = toKey ∧ cfg.maxMessagesPerRecipient ≤ (mail.messages.filter fun x => x.toKey = toKey).length) ∨
      cfg.maxMessagesTotal < mail.messages.length
  | .ack pubkey cursor => m.toKey = pubkey ∧ m.receivedAt ≤ cursor
  | .prune t => cfg.messageMaxAge ≤ t-m.receivedAt
  | .mark _ _ _ => False

/-- A row is stored, maybe with other delivery marks. -/
def Keeps (mail : Mailbox) (m : Message) : Prop := ∃ m' ∈ mail.messages, SameRow m m'

variable {cfg}

theorem drops_of_kept {toKey : Text} {mail : Mailbox} {m : Message} (hm : m ∈ mail.messages)
    (hgone : m ∉ globallyCapped cfg (kept cfg toKey mail.messages)) (blob : Text) (t : ℤ) :
    Drops cfg mail m (.append toKey blob t) := by
  by_cases hkept : m ∈ kept cfg toKey mail.messages
  · right
    have hover : (kept cfg toKey mail.messages).length > cfg.maxMessagesTotal := by
      by_contra hfits
      rw [globallyCapped, if_neg hfits] at hgone
      exact hgone hkept
    have := (kept_sublist cfg toKey mail.messages).length_le
    omega
  · left
    have hevicted : m.toKey = toKey ∧ excess cfg toKey mail.messages > 0 := by
      by_contra hnot
      refine hkept (List.mem_filter.mpr ⟨hm,?_⟩)
      simp only [Bool.not_eq_true', Bool.and_eq_false_iff, decide_eq_false_iff_not]
      tauto
    refine ⟨hevicted.1,?_⟩
    have := hevicted.2
    simp only [excess] at this
    omega

variable (cfg) in
/-- A row stays, unless the operation has a reason to drop it. -/
theorem keeps_apply {mail : Mailbox} (hwf : mail.Wf) (op : Op) {m : Message} (h : mail.Keeps m) :
    (mail.apply cfg op).Keeps m ∨ Drops cfg mail m op := by
  obtain ⟨m',hm',hsame⟩ := h
  have hdrops : Drops cfg mail m' op → Drops cfg mail m op := by
    obtain ⟨hkey,-,hnumber⟩ := hsame
    cases op <;> simp only [Drops, hkey, hnumber, imp_self]
  cases op with
  | append toKey blob t =>
    cases hstored : stored toKey blob mail.messages with
    | true =>
      refine .inl ⟨m',?_,hsame⟩
      rwa [apply, appendMessage_of_stored cfg t hstored]
    | false =>
      by_cases hkept : m' ∈ globallyCapped cfg (kept cfg toKey mail.messages)
      · refine .inl ⟨m',?_,hsame⟩
        rw [apply, appendMessage_messages cfg hwf hstored]
        exact List.mem_append_left _ hkept
      · exact .inr (hdrops (drops_of_kept hm' hkept blob t))
  | ack pubkey cursor =>
    by_cases hacked : acks pubkey cursor m' = true
    · simp only [acks, Bool.and_eq_true, decide_eq_true_eq] at hacked
      exact .inr (hdrops hacked)
    · exact .inl ⟨m',List.mem_filter.mpr ⟨hm',by simp [hacked]⟩,hsame⟩
  | prune t =>
    by_cases hlive : t-m'.receivedAt < cfg.messageMaxAge
    · exact .inl ⟨m',List.mem_filter.mpr ⟨hm',decide_eq_true hlive⟩,hsame⟩
    · exact .inr (hdrops (not_lt.mp hlive))
  | mark toKey blob server =>
    refine .inl ⟨mark toKey blob server m',List.mem_map_of_mem hm',hsame.trans ?_⟩
    obtain ⟨hkey,hblob⟩ := mark_blob toKey blob server m'
    exact ⟨hkey.symm,hblob.symm,(mark_receivedAt toKey blob server m').symm⟩

/-- One of some operations has a reason to drop a row, when its turn comes. -/
def DropsIn (cfg : Config) (mail : Mailbox) (m : Message) (ops : List Op) : Prop :=
  ∃ before op after, ops = before ++ op :: after ∧ Drops cfg (before.foldl (apply cfg) mail) m op

theorem keeps_foldl {mail : Mailbox} (hwf : mail.Wf) (ops : List Op) {m : Message} (h : mail.Keeps m) :
    (ops.foldl (apply cfg) mail).Keeps m ∨ DropsIn cfg mail m ops := by
  induction ops generalizing mail with
  | nil => exact .inl h
  | cons op ops ih =>
    obtain hkeeps | hdrops := keeps_apply cfg hwf op h
    · refine (ih (hwf.apply cfg op) hkeeps).imp_right fun hin => ?_
      obtain ⟨before,op',after,rfl,hdrops⟩ := hin
      exact ⟨op :: before,op',after,rfl,hdrops⟩
    · exact .inr ⟨[],op,ops,rfl,hdrops⟩

end Mailbox

namespace Service
variable {rt : Runtime} {cfg : ServiceConfig}

/-- How a row may leave in a step: its own key, let in by the token of its session, acks it; it is too old
when the relay prunes; or the relay appends other mail when it has no room left. -/
inductive Leaves (rt : Runtime) (cfg : ServiceConfig) (log : Auth.Log) (s : Service) (m : Message) :
    ServiceAct → Prop
  | acked {cursor authorization xForwardedFor t fresh}
    (entitled : Entitled cfg rt log authorization (clientIpOf cfg xForwardedFor) t m.toKey)
    (below : m.receivedAt ≤ cursor) :
    Leaves rt cfg log s m (.request (.poll cursor authorization xForwardedFor) t fresh)
  | aged {t} (old : cfg.messageMaxAge ≤ t-m.receivedAt) : Leaves rt cfg log s m (.prune t)
  | sent {n x} (send : s.sends[n]? = some x)
    (full : Mailbox.DropsIn cfg.toConfig s.auth.relay.mail m
      (x.messages.map fun e => .append e.toKey e.encryptedBlob x.t)) : Leaves rt cfg log s m (.commitSend n)
  | forwarded {toKey blob t fresh} (federated : cfg.federationEnabled = true)
    (full : Mailbox.Drops cfg.toConfig s.auth.relay.mail m (.append toKey blob t)) :
    Leaves rt cfg log s m (.request (.forwardMessage toKey blob) t fresh)

theorem commit_keeps {s : State} (hwf : s.mail.Wf) (txn : Txn) {m : Message} (hm : m ∈ s.mail.messages) :
    (Relay.commit cfg.toConfig s txn).mail.Keeps m ∨
      Mailbox.DropsIn cfg.toConfig s.mail m (mailOps cfg.toConfig s txn) := by
  rw [commit_mail]
  exact Mailbox.keeps_foldl hwf _ ⟨m,hm,rfl,rfl,rfl⟩

theorem dropsIn_singleton {mail : Mailbox} {m : Message} {op : Mailbox.Op} :
    Mailbox.DropsIn cfg.toConfig mail m [op] ↔ Mailbox.Drops cfg.toConfig mail m op := by
  constructor
  · rintro ⟨before,op',after,heq,hdrops⟩
    cases before with
    | nil =>
      obtain ⟨rfl,-⟩ := List.cons.inj heq
      exact hdrops
    | cons => simp at heq
  · exact fun h => ⟨[],op,[],rfl,h⟩

theorem not_dropsIn_nil {mail : Mailbox} {m : Message} : ¬ Mailbox.DropsIn cfg.toConfig mail m [] := by
  rintro ⟨before,op,after,heq,-⟩
  simp at heq

theorem auth_keeps {s s' : Auth} {act : Auth.Act} (hwf : s.relay.mail.Wf)
    (h : Auth.step rt cfg.toAuthConfig s act = some s') {m : Message} (hm : m ∈ s.relay.mail.messages) :
    s'.relay.mail.Keeps m ∨ (∃ t, act = .prune t ∧ cfg.messageMaxAge ≤ t-m.receivedAt) ∨
      ∃ txn, act = .commit txn ∧
        Mailbox.DropsIn cfg.toConfig s.relay.mail m (mailOps cfg.toConfig s.relay txn) := by
  have hkeeps : s.relay.mail.Keeps m := ⟨m,hm,rfl,rfl,rfl⟩
  cases act with
  | challenge pubkey clientIp t challenge =>
    obtain rfl := Option.some.inj h
    exact .inl hkeeps
  | check v =>
    obtain rfl := Option.some.inj h
    left
    split <;> exact hkeeps
  | verify n =>
    obtain ⟨v,-,rfl⟩ := Option.map_eq_some_iff.mp h
    exact .inl hkeeps
  | install n =>
    obtain ⟨v,-,rfl⟩ := Option.map_eq_some_iff.mp h
    left
    unfold Auth.install
    split <;> exact hkeeps
  | prune t =>
    obtain rfl := Option.some.inj h
    obtain hkeeps | hdrops := Mailbox.keeps_apply cfg.toConfig hwf (.prune t) hkeeps
    · exact .inl hkeeps
    · exact .inr (.inl ⟨t,rfl,hdrops⟩)
  | commit txn =>
    obtain rfl := Option.some.inj h
    exact (commit_keeps hwf txn hm).imp_right fun hdrops => .inr ⟨txn,rfl,hdrops⟩

theorem clampCursor_pos {cursor t : ℤ} {mail : Mailbox} (h : clampCursor cursor t mail > 0) :
    clampCursor cursor t mail ≤ cursor := by
  unfold clampCursor at h ⊢
  omega

/-- The transactions of a step that have a reason to drop a row. -/
theorem leaves_commit {s s' : Service} {log : ServiceLog} {act : ServiceAct} {answer : Option Answer}
    (h : Guarded cfg rt s log) (hstep : s.handle cfg rt act = some (s',answer)) {txn : Txn}
    (ha : s.authAct cfg act = some (.commit txn)) {m : Message}
    (hdrops : Mailbox.DropsIn cfg.toConfig s.auth.relay.mail m (mailOps cfg.toConfig s.auth.relay txn)) :
    Leaves rt cfg log.auth s m act := by
  cases act with
  | request r t fresh =>
    cases r with
    | reqChallenge | verifyAuth | sendMessages => cases ha
    | poll cursor authorization xForwardedFor =>
      obtain ⟨pubkey,hauthed,ha⟩ := Option.map_eq_some_iff.mp ha
      obtain rfl := Auth.Act.commit.inj ha
      simp only [mailOps] at hdrops
      split at hdrops
      · rename_i hpos
        obtain ⟨hkey,hle⟩ := dropsIn_singleton.mp hdrops
        exact .acked (hkey ▸ h.entitled hauthed) (hle.trans (clampCursor_pos hpos))
      · exact absurd hdrops not_dropsIn_nil
    | recvGossip events fromServer =>
      obtain rfl := Auth.Act.commit.inj (Option.some.inj ha)
      exact absurd hdrops not_dropsIn_nil
    | forwardMessage toKey blob =>
      obtain rfl := Auth.Act.commit.inj (Option.some.inj ha)
      simp only [mailOps] at hdrops
      split at hdrops
      · rename_i hcond
        exact .forwarded (Bool.and_eq_true_iff.mp hcond).1 (dropsIn_singleton.mp hdrops)
      · exact absurd hdrops not_dropsIn_nil
  | commitSend n =>
    obtain ⟨x,hx,ha⟩ := Option.map_eq_some_iff.mp ha
    obtain rfl := Auth.Act.commit.inj ha
    simp only [mailOps] at hdrops
    split at hdrops
    · exact .sent hx hdrops
    · exact absurd hdrops not_dropsIn_nil
  | task txn' =>
    obtain rfl := Auth.Act.commit.inj (Option.some.inj ha)
    simp only [handle, Option.ite_none_right_eq_some] at hstep
    cases txn' with
    | forwardRetried toKey blob server success =>
      cases success with
      | true => exact absurd (dropsIn_singleton.mp hdrops) id
      | false => exact absurd hdrops not_dropsIn_nil
    | forwardAccepted => exact absurd (dropsIn_singleton.mp hdrops) id
    | forwardQueued | dropServer => exact absurd hdrops not_dropsIn_nil
    | sendMessages | forwardMessage | verifyAuth | setupPoll | recvGossip | prune =>
      simp [Txn.isTask] at hstep
  | verify | install | prune | collect | wake | timeout => cases ha

/-- In every run, a row leaves a mailbox only when its key acks it with the token of a session that the key
has signed for, when it is too old, or when there is no room for other mail. -/
theorem mail_leaves {acts : List ServiceAct} {s s' : Service} {log : ServiceLog} {act : ServiceAct}
    (hrun : Lts.run (Lts.watch (step cfg rt) (note cfg rt)) ({},{}) acts = some (s,log))
    (hstep : s.step cfg rt act = some s') {m : Message} (hm : m ∈ s.auth.relay.mail.messages) :
    s'.auth.relay.mail.Keeps m ∨ Leaves rt cfg log.auth s m act := by
  have h := guarded_run hrun
  obtain ⟨⟨s',answer⟩,hhandle,rfl⟩ := Option.map_eq_some_iff.mp hstep
  have hauth := handle_auth hhandle
  cases ha : s.authAct cfg act with
  | none =>
    rw [ha, Option.elim_none, Option.some.injEq] at hauth
    exact .inl (hauth ▸ ⟨m,hm,rfl,rfl,rfl⟩)
  | some a =>
    rw [ha, Option.elim_some] at hauth
    refine (auth_keeps h.wf hauth hm).imp_right fun hdrops => ?_
    obtain ⟨t,rfl,hold⟩ | ⟨txn,rfl,hdrops⟩ := hdrops
    · obtain rfl : act = .prune t := by
        cases act with
        | request r => cases r <;> simp [authAct] at ha
        | _ => simp_all [authAct]
      exact .aged hold
    · exact leaves_commit h hhandle ha hdrops

/-- The recipient polls once more, with the cursor of the page that it got. -/
theorem mail_leaves_acked : ∃ s log s' m,
    Lts.run (Lts.watch (step {} toyRuntime) (note {} toyRuntime)) ({},{}) sampleService = some (s,log) ∧
    s.step {} toyRuntime (.request (.poll 1 "Bearer u".toList none) 3 []) = some s' ∧
    m ∈ s.auth.relay.mail.messages ∧ s'.auth.relay.mail.messages = [] ∧
    Leaves toyRuntime {} log.auth s m (.request (.poll 1 "Bearer u".toList none) 3 []) := by
  let m : Message := ⟨sampleKey 'b',sampleBlob '1',1,[]⟩
  have hrun : (Lts.run (Lts.watch (step {} toyRuntime) (note {} toyRuntime)) ({},{}) sampleService).any
      (fun s => (s.1.step {} toyRuntime (.request (.poll 1 "Bearer u".toList none) 3 [])).any fun s' =>
        s.1.auth.relay.mail.messages.contains m && s'.auth.relay.mail.messages = []) = true := by
    decide +kernel
  simp only [Option.any_eq_true, Bool.and_eq_true, decide_eq_true_eq, List.contains_iff_mem,
    Prod.exists] at hrun
  obtain ⟨s,log,hs,s',hs',hm,hempty⟩ := hrun
  refine ⟨s,log,s',m,hs,hs',hm,hempty,(mail_leaves hs hs' hm).resolve_left ?_⟩
  rintro ⟨m',hm',-⟩
  simp [hempty] at hm'

end Service
end Skrepka.Relay
