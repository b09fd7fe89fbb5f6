import Skrepka.Relay.Rows

/-! One recipient and the relay that holds its mail. The two transactions of a poll are steps of
their own, between which others commit, and replies may be lost. -/
namespace Skrepka.Relay
open Sequenced

/-- A page that a relay returned, and when it collected it. -/
structure Reply where
  page : Page
  collectedAt : ℤ
  deriving DecidableEq

/-- The cursors of the polls that may still collect, the replies sent, and those that arrived. -/
structure Polling where
  relay : State := {}
  polls : List ℤ := []
  replies : List Reply := []
  received : List Reply := []

inductive Move
  | commit (txn : Txn)
  | ask (cursor t : ℤ)
  | collect (cursor tnow : ℤ)
  | receive (reply : Reply)

def Txn.pollsFor (pk : Text) : Txn → Bool
  | .setupPoll pubkey _ _ => pubkey = pk
  | _ => false

variable (cfg : Config) (pk : Text)

/-- The recipient sends 0, or the cursor of a page that it received. -/
def pollingStep (s : Polling) : Move → Option Polling
  | .commit txn => if txn.pollsFor pk then none else some { s with relay := commit cfg s.relay txn }
  | .ask cursor t =>
    if cursor = 0 ∨ cursor ∈ s.received.map fun r => r.page.cursor then
      some { s with
        relay := commit cfg s.relay (.setupPoll pk cursor t)
        polls := clampCursor cursor t s.relay.mail :: s.polls }
    else none
  | .collect cursor tnow =>
    if cursor ∈ s.polls then
      let reply : Reply := ⟨collectAt cfg pk cursor tnow s.relay.mail.messages,tnow⟩
      some { s with replies := reply :: s.replies }
    else none
  | .receive reply =>
    if reply ∈ s.replies then some { s with received := reply :: s.received } else none

/-- A reply shows every row up to its cursor, unless the row was too old. -/
def Shows (msgs : List Message) (r : Reply) : Prop :=
  ∀ m ∈ msgs, m.toKey = pk → m.receivedAt ≤ r.page.cursor →
    m.encryptedBlob ∈ r.page.events ∨ cfg.messageMaxAge ≤ r.collectedAt-m.receivedAt

/-- All cursors in use are numbers that were given out, and what they skip is gone or was shown. -/
structure Covered (s : Polling) : Prop where
  wf : s.relay.mail.Wf
  positive : ∀ m ∈ s.relay.mail.messages, 0 < m.receivedAt
  polls : ∀ c ∈ s.polls, 0 ≤ c ∧ c ≤ currentSeq s.relay.mail.seqCounter ∧
    ∀ m ∈ s.relay.mail.messages, m.toKey = pk → c < m.receivedAt
  replies : ∀ r ∈ s.replies, r.page.cursor ≤ currentSeq s.relay.mail.seqCounter ∧
    Shows cfg pk s.relay.mail.messages r
  received : s.received ⊆ s.replies

variable {cfg pk}

/-- A row after a transaction was there before, or has a new number. -/
theorem commit_rows {s : State} (h : s.mail.Wf) (txn : Txn) {m : Message}
    (hm : m ∈ (commit cfg s txn).mail.messages) :
    (∃ m' ∈ s.mail.messages, Mailbox.SameRow m' m) ∨ currentSeq s.mail.seqCounter < m.receivedAt := by
  rw [commit_mail] at hm
  obtain hold | ⟨m',hm',-,-,hnumber⟩ := Mailbox.foldl_rows cfg h _ hm
  · exact .inl hold
  · right
    rw [← hnumber]
    exact ((Mailbox.allAdded_increasing cfg s.mail _).2.1 m' hm').1

theorem commit_seq (cfg : Config) (s : State) (txn : Txn) :
    currentSeq s.mail.seqCounter ≤ currentSeq (commit cfg s txn).mail.seqCounter := by
  rw [commit_mail]
  exact (Mailbox.allAdded_increasing cfg s.mail _).2.2

theorem Shows.commit {s : State} (h : s.mail.Wf) {r : Reply}
    (hr : r.page.cursor ≤ currentSeq s.mail.seqCounter) (hshows : Shows cfg pk s.mail.messages r)
    (txn : Txn) : Shows cfg pk (commit cfg s txn).mail.messages r := by
  intro m hm hkey hle
  obtain ⟨m',hm',hkey',hblob,hnumber⟩ | hnew := commit_rows h txn hm
  · rw [← hblob, ← hnumber]
    exact hshows m' hm' (hkey'.trans hkey) (by omega)
  · omega

/-- Every transaction keeps the recipient covered. -/
theorem Covered.commit {s : Polling} (h : Covered cfg pk s) (txn : Txn) :
    Covered cfg pk { s with relay := commit cfg s.relay txn } := by
  have hseq := commit_seq cfg s.relay txn
  refine ⟨?_,fun m hm => ?_,fun c hc => ?_,fun r hr => ?_,h.received⟩
  · change (Relay.commit cfg s.relay txn).mail.Wf
    rw [commit_mail]
    exact h.wf.foldl cfg _
  · obtain ⟨m',hm',-,-,hnumber⟩ | hnew := commit_rows h.wf txn hm
    · rw [← hnumber]
      exact h.positive m' hm'
    · exact (Mailbox.currentSeq_nonneg _).trans_lt hnew
  · obtain ⟨h0,hle,hrows⟩ := h.polls c hc
    refine ⟨h0,hle.trans hseq,fun m hm hkey => ?_⟩
    obtain ⟨m',hm',hkey',-,hnumber⟩ | hnew := commit_rows h.wf txn hm
    · rw [← hnumber]
      exact hrows m' hm' (hkey'.trans hkey)
    · omega
  · obtain ⟨hle,hshows⟩ := h.replies r hr
    exact ⟨hle.trans hseq,hshows.commit h.wf hle txn⟩

theorem le_foldl_cursor (rows : List Message) (c : ℤ) :
    c ≤ rows.foldl (fun acc m => max acc m.receivedAt) c ∧
      (∀ m ∈ rows, m.receivedAt ≤ rows.foldl (fun acc m => max acc m.receivedAt) c) ∧
      ∀ n, c ≤ n → (∀ m ∈ rows, m.receivedAt ≤ n) →
        rows.foldl (fun acc m => max acc m.receivedAt) c ≤ n := by
  induction rows generalizing c with
  | nil => exact ⟨le_rfl,by simp,fun n hc _ => hc⟩
  | cons a rows ih =>
    obtain ⟨hc,hrows,hleast⟩ := ih (max c a.receivedAt)
    refine ⟨(le_max_left c _).trans hc,fun m hm => ?_,fun n hn hall => ?_⟩
    · obtain rfl | hm := List.mem_cons.mp hm
      · exact (le_max_right c _).trans hc
      · exact hrows m hm
    · have ha := hall a List.mem_cons_self
      exact hleast n (max_le hn ha) fun m hm => hall m (List.mem_cons_of_mem a hm)

/-- What is left out of a page is newer than the whole page. -/
theorem fresh_cases {msgs : List Message} (hnumbers : (msgs.map Message.receivedAt).Nodup)
    {c tnow : ℤ} {m : Message} (hm : m ∈ freshFor cfg pk c tnow msgs) :
    m ∈ limited cfg pk c tnow msgs ∨ (collectAt cfg pk c tnow msgs).cursor < m.receivedAt := by
  let fresh := freshFor cfg pk c tnow msgs
  have hdistinct : (fresh.map Message.receivedAt).Nodup :=
    hnumbers.sublist (List.filter_sublist.map _)
  have hmem := (mem_sortBy Message.receivedAt).mpr hm
  rw [← List.take_append_drop cfg.maxPollEvents.toNat (sortBy Message.receivedAt fresh)] at hmem
  obtain htake | hdrop := List.mem_append.mp hmem
  · exact .inl htake
  · right
    have habove : c < m.receivedAt := by
      have hfresh := (List.mem_filter.mp hm).2
      simp only [Bool.and_eq_true, decide_eq_true_eq] at hfresh
      exact hfresh.2
    have hbelow := (le_foldl_cursor (limited cfg pk c tnow msgs) c).2.2 (m.receivedAt-1) (by omega)
      (fun a ha => by
        have := take_lt_drop hdistinct ha hdrop
        omega)
    simp only [collectAt]
    omega

/-- A page that is collected shows every row up to its cursor. -/
theorem collectAt_shows {msgs : List Message} (hnumbers : (msgs.map Message.receivedAt).Nodup)
    {c tnow : ℤ} (hc : ∀ m ∈ msgs, m.toKey = pk → c < m.receivedAt) :
    Shows cfg pk msgs ⟨collectAt cfg pk c tnow msgs,tnow⟩ := by
  intro m hm hkey hle
  by_cases hage : cfg.messageMaxAge ≤ tnow-m.receivedAt
  · exact .inr hage
  · left
    have hfresh : m ∈ freshFor cfg pk c tnow msgs := by
      have := hc m hm hkey
      simp only [freshFor, List.mem_filter, hm, hkey, true_and, Bool.and_eq_true,
        decide_eq_true_eq]
      omega
    obtain hshown | hlater := fresh_cases hnumbers hfresh
    · exact List.mem_map_of_mem hshown
    · exact absurd hle hlater.not_ge

theorem clampCursor_le {cursor t : ℤ} {mail : Mailbox} (h : cursor ≤ currentSeq mail.seqCounter) :
    0 ≤ clampCursor cursor t mail ∧ clampCursor cursor t mail ≤ currentSeq mail.seqCounter ∧
      (clampCursor cursor t mail ≤ cursor ∨ clampCursor cursor t mail = 0) := by
  have := Mailbox.currentSeq_nonneg mail.seqCounter
  simp only [clampCursor]
  omega

theorem setupPoll_mail (s : State) (cursor t : ℤ) :
    (commit cfg s (.setupPoll pk cursor t)).mail =
      if clampCursor cursor t s.mail > 0 then s.mail.ackPolled pk (clampCursor cursor t s.mail)
      else s.mail := by
  rw [commit_mail, mailOps]
  split <;> rfl

/-- Every step keeps the recipient covered. -/
theorem Covered.step {s s' : Polling} {move : Move} (h : Covered cfg pk s)
    (hstep : pollingStep cfg pk s move = some s') : Covered cfg pk s' := by
  cases move with
  | commit txn =>
    simp only [pollingStep, Option.ite_none_left_eq_some, Option.some.injEq] at hstep
    obtain ⟨-,rfl⟩ := hstep
    exact h.commit txn
  | ask cursor t =>
    simp only [pollingStep, Option.ite_none_right_eq_some, Option.some.injEq] at hstep
    obtain ⟨hcursor,rfl⟩ := hstep
    have hle : cursor ≤ currentSeq s.relay.mail.seqCounter := by
      obtain rfl | hmem := hcursor
      · exact Mailbox.currentSeq_nonneg _
      · obtain ⟨r,hr,rfl⟩ := List.mem_map.mp hmem
        exact (h.replies r (h.received hr)).1
    obtain ⟨h0,hseq,-⟩ := clampCursor_le (t := t) hle
    have hnext := h.commit (.setupPoll pk cursor t)
    refine ⟨hnext.wf,hnext.positive,fun c hc => ?_,hnext.replies,hnext.received⟩
    obtain rfl | hc := List.mem_cons.mp hc
    · refine ⟨h0,hseq.trans (commit_seq cfg s.relay _),fun m hm hkey => ?_⟩
      have hpos := hnext.positive m hm
      simp only [setupPoll_mail] at hm
      split at hm
      · have hkeeps := (List.mem_filter.mp hm).2
        simp only [Mailbox.acks, hkey, decide_true, Bool.true_and, Bool.not_eq_true',
          decide_eq_false_iff_not] at hkeeps
        omega
      · omega
    · exact hnext.polls c hc
  | collect cursor tnow =>
    simp only [pollingStep, Option.ite_none_right_eq_some, Option.some.injEq] at hstep
    obtain ⟨hmem,rfl⟩ := hstep
    obtain ⟨-,hle,hrows⟩ := h.polls cursor hmem
    refine ⟨h.wf,h.positive,h.polls,fun r hr => ?_,fun r hr => List.mem_cons_of_mem _ (h.received hr)⟩
    obtain rfl | hr := List.mem_cons.mp hr
    · refine ⟨?_,collectAt_shows h.wf.numbers hrows⟩
      refine (le_foldl_cursor _ cursor).2.2 _ hle fun m hm => h.wf.issued m ?_
      exact List.mem_of_mem_filter ((mem_sortBy _).mp (List.mem_of_mem_take hm))
    · exact h.replies r hr
  | receive reply =>
    simp only [pollingStep, Option.ite_none_right_eq_some, Option.some.injEq] at hstep
    obtain ⟨hmem,rfl⟩ := hstep
    exact ⟨h.wf,h.positive,h.polls,h.replies,List.cons_subset.mpr ⟨hmem,h.received⟩⟩

theorem covered_run {moves : List Move} {s : Polling}
    (hrun : Lts.run (pollingStep cfg pk) {} moves = some s) : Covered cfg pk s := by
  refine Lts.run_invariant _ (fun s move s' h hstep => h.step hstep) ?_ hrun
  exact ⟨Mailbox.wf_empty,by simp,by simp,by simp,List.nil_subset _⟩

/-- In every run, what a recipient's cursor drops was in the page with that cursor, which the
recipient received, or was too old when that page was collected. -/
theorem ack_drops_seen_mail {moves : List Move} {s s' : Polling} {cursor t : ℤ} {m : Message}
    (hrun : Lts.run (pollingStep cfg pk) {} moves = some s)
    (hstep : pollingStep cfg pk s (.ask cursor t) = some s')
    (hm : m ∈ s.relay.mail.messages) (hgone : m ∉ s'.relay.mail.messages) :
    ∃ r ∈ s.received, r.page.cursor = cursor ∧
      (m.encryptedBlob ∈ r.page.events ∨ cfg.messageMaxAge ≤ r.collectedAt-m.receivedAt) := by
  have h := covered_run hrun
  simp only [pollingStep, Option.ite_none_right_eq_some, Option.some.injEq] at hstep
  obtain ⟨hcursor,rfl⟩ := hstep
  simp only [setupPoll_mail] at hgone
  split at hgone
  · rename_i hpos
    have hacked : Mailbox.acks pk (clampCursor cursor t s.relay.mail) m = true := by
      by_contra hkeeps
      exact hgone (List.mem_filter.mpr ⟨hm,by simp [hkeeps]⟩)
    simp only [Mailbox.acks, Bool.and_eq_true, decide_eq_true_eq] at hacked
    obtain rfl | hmem := hcursor
    · have hzero : clampCursor 0 t s.relay.mail = 0 := by
        have := Mailbox.currentSeq_nonneg s.relay.mail.seqCounter
        simp only [clampCursor]
        omega
      omega
    · obtain ⟨r,hr,rfl⟩ := List.mem_map.mp hmem
      obtain ⟨hle,hshows⟩ := h.replies r (h.received hr)
      have hclamp := (clampCursor_le (t := t) hle).2.2
      exact ⟨r,hr,rfl,hshows m hm hacked.1 (by omega)⟩
  · exact absurd hm hgone

/-- A batch is sent and polled down, and its cursor comes back. -/
def samplePolling : List Move :=
  [.commit (.sendMessages sampleBatch (sampleKey 'a') 7),.ask 0 9,.collect 0 9,
    .receive ⟨⟨[sampleBlob '1',sampleBlob '2'],8⟩,9⟩]

theorem ack_drops_seen_mail_polled : ∃ s s' m,
    Lts.run (pollingStep {} (sampleKey 'b')) {} samplePolling = some s ∧
    pollingStep {} (sampleKey 'b') s (.ask 8 10) = some s' ∧ m ∈ s.relay.mail.messages ∧
    m ∉ s'.relay.mail.messages ∧ ∃ r ∈ s.received, r.page.cursor = 8 ∧
      (m.encryptedBlob ∈ r.page.events ∨ 2592000000 ≤ r.collectedAt-m.receivedAt) := by
  let m : Message := ⟨sampleKey 'b',sampleBlob '1',7,[]⟩
  have hrun : (Lts.run (pollingStep {} (sampleKey 'b')) {} samplePolling).any (fun s =>
      (pollingStep {} (sampleKey 'b') s (.ask 8 10)).any (fun s' =>
        s.relay.mail.messages.contains m && !s'.relay.mail.messages.contains m)) = true := by
    decide +kernel
  simp only [Option.any_eq_true, Bool.and_eq_true, Bool.not_eq_true', List.contains_iff_mem,
    ← Bool.not_eq_true] at hrun
  obtain ⟨s,hs,s',hs',hm,hgone⟩ := hrun
  exact ⟨s,s',m,hs,hs',hm,hgone,ack_drops_seen_mail hs hs' hm hgone⟩

end Skrepka.Relay
