import Skrepka.Relay.State

/-! The mailbox: what appends, acks, sweeps and delivery marks do to its rows. -/
namespace Skrepka.Relay
open Sequenced

/-- The last number given out, 0 before the first. -/
def currentSeq (rows : List ℤ) : ℤ := rows.foldl max 0

namespace Mailbox
variable (cfg : Config)

def stored (toKey blob : Text) (msgs : List Message) : Bool :=
  msgs.any fun m => m.toKey = toKey && m.encryptedBlob = blob

/-- How many rows of a recipient are in the way of one more. -/
def excess (toKey : Text) (msgs : List Message) : ℤ :=
  max 0 ((msgs.filter fun m => m.toKey = toKey).length-(cfg.maxMessagesPerRecipient-1))

def evictionThreshold (toKey : Text) (msgs : List Message) : ℤ :=
  if excess cfg toKey msgs > 0 then
    threshold Message.receivedAt (excess cfg toKey msgs).toNat (msgs.filter fun m => m.toKey = toKey)
  else 0

/-- The rows left when those in the way are evicted. -/
def kept (toKey : Text) (msgs : List Message) : List Message :=
  msgs.filter fun m => !(m.toKey = toKey && m.receivedAt ≤ evictionThreshold cfg toKey msgs &&
    excess cfg toKey msgs > 0)

def globallyCapped (kept : List Message) : List Message :=
  if kept.length > cfg.maxMessagesTotal then
    (sortBy Message.receivedAt kept).drop (kept.length-cfg.maxMessagesTotal).toNat
  else kept

/-- The row that an append adds. -/
def newRow (toKey blob : Text) (t : ℤ) (s : Mailbox) : Message :=
  ⟨toKey,blob,max t (currentSeq s.seqCounter+1),[]⟩

/-- Append a blob under a fresh number, unless it is stored. -/
def appendMessage (toKey blob : Text) (t : ℤ) (s : Mailbox) : Mailbox :=
  if stored toKey blob s.messages then s
  else
    { messages := union (globallyCapped cfg (kept cfg toKey s.messages)) [newRow toKey blob t s]
      seqCounter := [(newRow toKey blob t s).receivedAt] }

def acks (pubkey : Text) (cursor : ℤ) (m : Message) : Bool :=
  m.toKey = pubkey && m.receivedAt ≤ cursor

def ackPolled (pubkey : Text) (cursor : ℤ) (s : Mailbox) : Mailbox :=
  { s with messages := s.messages.filter fun m => !acks pubkey cursor m }

/-- The rows that the sweep at some time leaves. -/
def surviving (t : ℤ) (msgs : List Message) : List Message :=
  msgs.filter fun m => t-m.receivedAt < cfg.messageMaxAge

def prune (t : ℤ) (s : Mailbox) : Mailbox :=
  { s with messages := surviving cfg t s.messages }

def mark (toKey blob server : Text) (m : Message) : Message :=
  if m.toKey = toKey && m.encryptedBlob = blob && !m.deliveredTo.contains server then
    { m with deliveredTo := union m.deliveredTo [server] }
  else m

def markDelivered (toKey blob server : Text) (s : Mailbox) : Mailbox :=
  { s with messages := s.messages.map (mark toKey blob server) }

/-- Everything that rewrites the mailbox. -/
inductive Op
  | append (toKey blob : Text) (t : ℤ)
  | ack (pubkey : Text) (cursor : ℤ)
  | prune (t : ℤ)
  | mark (toKey blob server : Text)

def apply (s : Mailbox) : Op → Mailbox
  | .append toKey blob t => s.appendMessage cfg toKey blob t
  | .ack pubkey cursor => s.ackPolled pubkey cursor
  | .prune t => s.prune cfg t
  | .mark toKey blob server => s.markDelivered toKey blob server

/-- The row that an operation adds, if it adds one. -/
def added (s : Mailbox) : Op → Option Message
  | .append toKey blob t =>
    if stored toKey blob s.messages then none else some (newRow toKey blob t s)
  | _ => none

/-- The rows that operations add one after another. -/
def allAdded : Mailbox → List Op → List Message
  | _, [] => []
  | s, op :: ops => (added s op).toList ++ allAdded (apply cfg s op) ops

/-- Numbers tell the rows apart, and so do a recipient and a blob. -/
structure Wf (s : Mailbox) : Prop where
  numbers : (s.messages.map Message.receivedAt).Nodup
  blobs : (s.messages.map fun m => (m.toKey,m.encryptedBlob)).Nodup
  issued : ∀ m ∈ s.messages, m.receivedAt ≤ currentSeq s.seqCounter

theorem currentSeq_nonneg (rows : List ℤ) : 0 ≤ currentSeq rows := by
  have hfold : ∀ (rows : List ℤ) (n : ℤ), n ≤ rows.foldl max n := by
    intro rows
    induction rows with
    | nil => exact fun n => le_rfl
    | cons a rows ih => exact fun n => (le_max_left n a).trans (ih _)
  exact hfold rows 0

theorem newRow_fresh (toKey blob : Text) (t : ℤ) (s : Mailbox) :
    currentSeq s.seqCounter < (newRow toKey blob t s).receivedAt := by
  simp only [newRow]
  omega

theorem currentSeq_singleton {n : ℤ} (h : 0 ≤ n) : currentSeq [n] = n := by
  simp [currentSeq, h]

/-- After an append the last number is that of its row. -/
theorem appendMessage_seq {toKey blob : Text} {t : ℤ} {s : Mailbox}
    (h : stored toKey blob s.messages = false) :
    currentSeq (appendMessage cfg toKey blob t s).seqCounter = (newRow toKey blob t s).receivedAt := by
  have := currentSeq_nonneg s.seqCounter
  have := newRow_fresh toKey blob t s
  rw [appendMessage, if_neg (by simp [h]), currentSeq_singleton (by omega)]

theorem kept_sublist (toKey : Text) (msgs : List Message) : (kept cfg toKey msgs).Sublist msgs :=
  List.filter_sublist

theorem globallyCapped_subperm (msgs : List Message) : (globallyCapped cfg msgs).Subperm msgs := by
  unfold globallyCapped
  split
  · exact (List.drop_sublist _ _).subperm.trans (sortBy_perm _ _).subperm
  · exact List.Subperm.refl _

/-- The rows that survive an append are rows that were there. -/
theorem survivors_subperm (toKey : Text) (msgs : List Message) :
    (globallyCapped cfg (kept cfg toKey msgs)).Subperm msgs :=
  (globallyCapped_subperm cfg _).trans (kept_sublist cfg toKey msgs).subperm

theorem appendMessage_messages {toKey blob : Text} {t : ℤ} {s : Mailbox} (hs : s.Wf)
    (h : stored toKey blob s.messages = false) :
    (appendMessage cfg toKey blob t s).messages =
      globallyCapped cfg (kept cfg toKey s.messages) ++ [newRow toKey blob t s] := by
  have hnew : newRow toKey blob t s ∉ globallyCapped cfg (kept cfg toKey s.messages) := by
    intro hmem
    have hold := hs.issued _ ((survivors_subperm cfg toKey s.messages).subset hmem)
    have := newRow_fresh toKey blob t s
    omega
  rw [appendMessage, if_neg (by simp [h]), union, List.filter_singleton]
  simp [hnew]

theorem nodup_map_of_subperm {α β : Type} {f : α → β} {xs ys : List α} (h : xs.Subperm ys)
    (hys : (ys.map f).Nodup) : (xs.map f).Nodup := by
  obtain ⟨l,hperm,hsub⟩ := h
  exact (hperm.map f).nodup_iff.mp (hys.sublist (hsub.map f))

theorem Wf.of_subperm {s s' : Mailbox} (h : s.Wf) (hm : s'.messages.Subperm s.messages)
    (hseq : currentSeq s.seqCounter ≤ currentSeq s'.seqCounter) : s'.Wf :=
  ⟨nodup_map_of_subperm hm h.numbers,nodup_map_of_subperm hm h.blobs,
    fun m hmem => (h.issued m (hm.subset hmem)).trans hseq⟩

theorem Wf.append {s : Mailbox} (h : s.Wf) (toKey blob : Text) (t : ℤ) :
    (s.appendMessage cfg toKey blob t).Wf := by
  cases hstored : stored toKey blob s.messages with
  | true =>
    rw [appendMessage, if_pos hstored]
    exact h
  | false =>
    have hseq := appendMessage_seq cfg (t := t) hstored
    have hfresh := newRow_fresh toKey blob t s
    have hmsgs := appendMessage_messages cfg (t := t) h hstored
    have hsub := survivors_subperm cfg toKey s.messages
    refine ⟨?_,?_,?_⟩
    · rw [hmsgs, List.map_append, List.map_singleton, List.nodup_append_comm,
        List.singleton_append, List.nodup_cons]
      refine ⟨fun hmem => ?_,nodup_map_of_subperm hsub h.numbers⟩
      obtain ⟨m,hm,heq⟩ := List.mem_map.mp hmem
      have := h.issued m (hsub.subset hm)
      omega
    · rw [hmsgs, List.map_append, List.map_singleton, List.nodup_append_comm,
        List.singleton_append, List.nodup_cons]
      refine ⟨fun hmem => ?_,nodup_map_of_subperm hsub h.blobs⟩
      obtain ⟨m,hm,heq⟩ := List.mem_map.mp hmem
      have hstored' : stored toKey blob s.messages = true :=
        List.any_eq_true.mpr ⟨m,hsub.subset hm,by simpa [newRow] using heq⟩
      rw [hstored] at hstored'
      exact Bool.false_ne_true hstored'
    · intro m hm
      rw [hmsgs] at hm
      rw [hseq]
      obtain hm | hm := List.mem_append.mp hm
      · have := h.issued m (hsub.subset hm)
        omega
      · rw [List.mem_singleton.mp hm]

theorem mark_receivedAt (toKey blob server : Text) (m : Message) :
    (mark toKey blob server m).receivedAt = m.receivedAt := by
  unfold mark
  split <;> rfl

theorem mark_blob (toKey blob server : Text) (m : Message) :
    (mark toKey blob server m).toKey = m.toKey ∧
      (mark toKey blob server m).encryptedBlob = m.encryptedBlob := by
  unfold mark
  split <;> exact ⟨rfl,rfl⟩

theorem Wf.mark {s : Mailbox} (h : s.Wf) (toKey blob server : Text) :
    (s.markDelivered toKey blob server).Wf := by
  refine ⟨?_,?_,?_⟩
  · rw [markDelivered, List.map_map]
    convert h.numbers using 2
    funext m
    exact mark_receivedAt toKey blob server m
  · rw [markDelivered, List.map_map]
    convert h.blobs using 2
    funext m
    simp only [Function.comp_apply, mark_blob]
  · intro m hm
    obtain ⟨m',hm',rfl⟩ := List.mem_map.mp hm
    rw [mark_receivedAt]
    exact h.issued m' hm'

/-- Every operation keeps the rows apart. -/
theorem Wf.apply {s : Mailbox} (h : s.Wf) (op : Op) : (s.apply cfg op).Wf := by
  cases op with
  | append toKey blob t => exact h.append cfg toKey blob t
  | ack pubkey cursor => exact h.of_subperm List.filter_sublist.subperm le_rfl
  | prune t => exact h.of_subperm List.filter_sublist.subperm le_rfl
  | mark toKey blob server => exact h.mark toKey blob server

theorem wf_empty : Wf {} := ⟨List.nodup_nil,List.nodup_nil,by simp⟩

theorem Wf.foldl {s : Mailbox} (h : s.Wf) (ops : List Op) : (ops.foldl (Mailbox.apply cfg) s).Wf := by
  induction ops generalizing s with
  | nil => exact h
  | cons op ops ih => exact ih (h.apply cfg op)

/-- An operation adds no row or one above all numbers given out before, and gives out its. -/
theorem added_seq (s : Mailbox) (op : Op) :
    (∀ m ∈ added s op, currentSeq s.seqCounter < m.receivedAt ∧
      m.receivedAt = currentSeq (s.apply cfg op).seqCounter) ∧
    currentSeq s.seqCounter ≤ currentSeq (s.apply cfg op).seqCounter := by
  cases op with
  | append toKey blob t =>
    cases hstored : stored toKey blob s.messages with
    | true => simp [added, hstored, apply, appendMessage]
    | false =>
      have hseq := appendMessage_seq cfg (t := t) hstored
      have hfresh := newRow_fresh toKey blob t s
      simp only [added, hstored, apply, hseq]
      exact ⟨by simpa using hfresh,hfresh.le⟩
  | ack | prune | mark => exact ⟨by simp [added],le_rfl⟩

/-- The rows that operations add have increasing numbers. -/
theorem allAdded_increasing (s : Mailbox) (ops : List Op) :
    (allAdded cfg s ops).Pairwise (fun a b => a.receivedAt < b.receivedAt) ∧
    (∀ m ∈ allAdded cfg s ops, currentSeq s.seqCounter < m.receivedAt ∧
      m.receivedAt ≤ currentSeq (ops.foldl (apply cfg) s).seqCounter) ∧
    currentSeq s.seqCounter ≤ currentSeq (ops.foldl (apply cfg) s).seqCounter := by
  induction ops generalizing s with
  | nil => simp [allAdded]
  | cons op ops ih =>
    obtain ⟨hinc,hrange,hle⟩ := ih (s.apply cfg op)
    obtain ⟨hadd,hstep⟩ := added_seq cfg s op
    rw [allAdded, List.foldl_cons]
    refine ⟨List.pairwise_append.mpr ⟨?_,hinc,fun a ha b hb => ?_⟩,fun m hm => ?_,hstep.trans hle⟩
    · cases added s op with
      | none => exact List.Pairwise.nil
      | some m => exact List.pairwise_singleton _ m
    · rw [(hadd a (Option.mem_toList.mp ha)).2]
      exact (hrange b hb).1
    · obtain hm | hm := List.mem_append.mp hm
      · obtain ⟨hlt,heq⟩ := hadd m (Option.mem_toList.mp hm)
        exact ⟨hlt,heq ▸ hle⟩
      · exact ⟨hstep.trans_lt (hrange m hm).1,(hrange m hm).2⟩

/-- Appending what is stored changes nothing. -/
theorem appendMessage_of_stored {toKey blob : Text} (t : ℤ) {s : Mailbox}
    (h : stored toKey blob s.messages = true) : s.appendMessage cfg toKey blob t = s := if_pos h

/-- What a row is known by. -/
def SameRow (a b : Message) : Prop :=
  a.toKey = b.toKey ∧ a.encryptedBlob = b.encryptedBlob ∧ a.receivedAt = b.receivedAt

/-- Every row after an operation was there before, up to its delivery marks, or was added. -/
theorem apply_rows {s : Mailbox} (h : s.Wf) (op : Op) {m : Message}
    (hm : m ∈ (s.apply cfg op).messages) :
    (∃ m' ∈ s.messages, SameRow m' m) ∨ m ∈ added s op := by
  cases op with
  | append toKey blob t =>
    cases hstored : stored toKey blob s.messages with
    | true =>
      rw [apply, appendMessage_of_stored cfg t hstored] at hm
      exact .inl ⟨m,hm,rfl,rfl,rfl⟩
    | false =>
      rw [apply, appendMessage_messages cfg h hstored] at hm
      obtain hm | hm := List.mem_append.mp hm
      · exact .inl ⟨m,(survivors_subperm cfg toKey s.messages).subset hm,rfl,rfl,rfl⟩
      · rw [List.mem_singleton.mp hm]
        exact .inr (by simp [added, hstored])
  | ack | prune => exact .inl ⟨m,List.mem_of_mem_filter hm,rfl,rfl,rfl⟩
  | mark toKey blob server =>
    obtain ⟨m',hm',rfl⟩ := List.mem_map.mp hm
    obtain ⟨hkey,hblob⟩ := mark_blob toKey blob server m'
    exact .inl ⟨m',hm',hkey.symm,hblob.symm,(mark_receivedAt toKey blob server m').symm⟩

theorem SameRow.trans {a b c : Message} (h : SameRow a b)
    (h' : SameRow b c) : SameRow a c :=
  ⟨h.1.trans h'.1,h.2.1.trans h'.2.1,h.2.2.trans h'.2.2⟩

theorem foldl_rows {s : Mailbox} (h : s.Wf) (ops : List Op) {m : Message}
    (hm : m ∈ (ops.foldl (Mailbox.apply cfg) s).messages) :
    (∃ m' ∈ s.messages, SameRow m' m) ∨ ∃ m' ∈ allAdded cfg s ops, SameRow m' m := by
  induction ops generalizing s with
  | nil => exact .inl ⟨m,hm,rfl,rfl,rfl⟩
  | cons op ops ih =>
    obtain ⟨m',hm',hsame⟩ | ⟨m',hm',hsame⟩ := ih (h.apply cfg op) hm
    · obtain ⟨a,ha,hsame'⟩ | hadd := apply_rows cfg h op hm'
      · exact .inl ⟨a,ha,hsame'.trans hsame⟩
      · exact .inr ⟨m',List.mem_append_left _ (Option.mem_toList.mpr hadd),hsame⟩
    · exact .inr ⟨m',List.mem_append_right _ hm',hsame⟩

end Mailbox
end Skrepka.Relay
