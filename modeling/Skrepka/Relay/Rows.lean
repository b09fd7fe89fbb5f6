import Skrepka.Relay.Handlers

/-! The rows of the mailbox over the runs of a relay: their numbers, their identity, and how many
there are. -/
namespace Skrepka.Relay
open Sequenced

variable (cfg : Config)

/-- The numbers given out so far, and the rows that have them. -/
structure Numbered (s : State) (log : List Message) : Prop where
  wf : s.mail.Wf
  increasing : log.Pairwise fun a b => a.receivedAt < b.receivedAt
  issued : ∀ m ∈ log, m.receivedAt ≤ currentSeq s.mail.seqCounter
  logged : ∀ m ∈ s.mail.messages, ∃ r ∈ log, Mailbox.SameRow r m

variable {cfg}

theorem Numbered.commit {s : State} {log : List Message} (h : Numbered s log) (txn : Txn) :
    Numbered (commit cfg s txn) (noteRows cfg s txn (Relay.commit cfg s txn) log) := by
  obtain ⟨hinc,hrange,hle⟩ := Mailbox.allAdded_increasing cfg s.mail (mailOps cfg s txn)
  rw [← commit_mail] at hrange hle
  refine ⟨?_,?_,fun m hm => ?_,fun m hm => ?_⟩
  · rw [commit_mail]
    exact h.wf.foldl cfg _
  · refine List.pairwise_append.mpr ⟨h.increasing,hinc,fun a ha b hb => ?_⟩
    exact (h.issued a ha).trans_lt (hrange b hb).1
  · obtain hm | hm := List.mem_append.mp hm
    · exact (h.issued m hm).trans hle
    · exact (hrange m hm).2
  · rw [commit_mail] at hm
    obtain ⟨m',hm',hsame⟩ | ⟨m',hm',hsame⟩ := Mailbox.foldl_rows cfg h.wf _ hm
    · obtain ⟨r,hr,hsame'⟩ := h.logged m' hm'
      exact ⟨r,List.mem_append_left _ hr,hsame'.trans hsame⟩
    · exact ⟨m',List.mem_append_right _ hm',hsame⟩

theorem numbered_start : Numbered {} [] :=
  ⟨Mailbox.wf_empty,List.Pairwise.nil,by simp,by simp⟩

theorem numbered_run {txns : List Txn} {s : State} {log : List Message}
    (hrun : Lts.run (Lts.watch (step cfg) (noteRows cfg)) ({},[]) txns = some (s,log)) :
    Numbered s log := by
  refine Lts.run_invariant _ (I := fun sl : State × List Message => Numbered sl.1 sl.2)
    (fun sl txn sl' h hstep => ?_) numbered_start hrun
  obtain ⟨hcommit,hnote⟩ := Lts.watch_eq_some _ hstep
  obtain hcommit := Option.some.inj hcommit
  rw [hnote, ← hcommit]
  exact h.commit txn

theorem mail_run {txns : List Txn} {s : State} (hrun : Lts.run (step cfg) {} txns = some s) :
    s.mail.Wf := by
  refine Lts.run_invariant (step cfg) (I := fun s => s.mail.Wf) (fun s txn s' hs hstep => ?_)
    Mailbox.wf_empty hrun
  obtain rfl := Option.some.inj hstep
  rw [commit_mail]
  exact hs.foldl cfg _

/-- A batch of stored blobs is filed without a trace. -/
theorem resend_mail {messages : List Envelope} {s : State} (senderKey : Text) (t : ℤ)
    (h : ∀ m ∈ messages, Mailbox.stored m.toKey m.encryptedBlob s.mail.messages = true) :
    (commit cfg s (.sendMessages messages senderKey t)).mail = s.mail := by
  have hall : ∀ (messages : List Envelope) (mail : Mailbox),
      (∀ m ∈ messages, Mailbox.stored m.toKey m.encryptedBlob mail.messages = true) →
      (messages.map fun m => Mailbox.Op.append m.toKey m.encryptedBlob t).foldl
        (Mailbox.apply cfg) mail = mail := by
    intro messages mail hm
    induction messages with
    | nil => rfl
    | cons m messages ih =>
      rw [List.map_cons, List.foldl_cons, Mailbox.apply,
        Mailbox.appendMessage_of_stored cfg t (hm m List.mem_cons_self)]
      exact ih fun m' hm' => hm m' (List.mem_cons_of_mem m hm')
  rw [commit_mail, mailOps]
  split
  · exact hall messages s.mail h
  · rfl

/-- In every run the numbers of the rows are distinct, and so are their blobs for each recipient;
no number is above the counter; the rows ever added have increasing numbers, and those stored are
among them; and a batch of stored blobs changes nothing. -/
theorem mailbox_rows_ordered {txns : List Txn} {s : State} {log : List Message}
    (hrun : Lts.run (Lts.watch (step cfg) (noteRows cfg)) ({},[]) txns = some (s,log)) :
    (s.mail.messages.map Message.receivedAt).Nodup ∧
      (s.mail.messages.map fun m => (m.toKey,m.encryptedBlob)).Nodup ∧
      (∀ m ∈ s.mail.messages, m.receivedAt ≤ currentSeq s.mail.seqCounter) ∧
      log.Pairwise (fun a b => a.receivedAt < b.receivedAt) ∧
      (∀ m ∈ s.mail.messages, ∃ r ∈ log, Mailbox.SameRow r m) ∧
      ∀ (messages : List Envelope) (senderKey : Text) (t : ℤ),
        (∀ m ∈ messages, Mailbox.stored m.toKey m.encryptedBlob s.mail.messages = true) →
        (commit cfg s (.sendMessages messages senderKey t)).mail = s.mail := by
  have h := numbered_run hrun
  exact ⟨h.wf.numbers,h.wf.blobs,h.wf.issued,h.increasing,h.logged,
    fun messages senderKey t hstored => resend_mail senderKey t hstored⟩

/-- A key, as some repeated digit. -/
def sampleKey (digit : Char) : Text := List.replicate 64 digit

def sampleBlob (digit : Char) : Text := List.replicate 346 digit

/-- Two messages that are sent at the same time, one of them twice. -/
def sampleBatch : List Envelope :=
  [⟨sampleKey 'b',sampleBlob '1'⟩,⟨sampleKey 'b',sampleBlob '2'⟩,⟨sampleKey 'b',sampleBlob '1'⟩]

theorem mailbox_rows_ordered_batch : ∃ s log,
    Lts.run (Lts.watch (step {}) (noteRows {})) ({},[])
      [.sendMessages sampleBatch (sampleKey 'a') 7] = some (s,log) ∧
    log.map Message.receivedAt = [7,8] ∧
    (commit {} s (.sendMessages sampleBatch (sampleKey 'a') 5)).mail = s.mail := by
  let txn : Txn := .sendMessages sampleBatch (sampleKey 'a') 7
  have hrun : Lts.run (Lts.watch (step {}) (noteRows {})) ({},[]) [txn] =
    some (commit {} {} txn,noteRows {} {} txn (commit {} {} txn) []) := rfl
  refine ⟨_,_,hrun,by decide +kernel,?_⟩
  exact (mailbox_rows_ordered hrun).2.2.2.2.2 sampleBatch (sampleKey 'a') 5 (by decide +kernel)

end Skrepka.Relay
