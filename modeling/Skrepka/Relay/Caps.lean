import Skrepka.Relay.Rows

/-! The caps of the mailbox, and whom its evictions hit. -/
namespace Skrepka.Relay
open Sequenced

namespace Mailbox
variable (cfg : Config)

/-- The rows of a recipient. -/
def held (key : Text) (msgs : List Message) : ℕ := msgs.countP fun m => m.toKey = key

theorem held_le (key : Text) {xs ys : List Message} (h : xs.Subperm ys) : held key xs ≤ held key ys :=
  h.countP_le _

theorem mem_kept {toKey : Text} {msgs : List Message} {m : Message} (hm : m ∈ msgs) :
    m ∈ kept cfg toKey msgs ↔ ¬ (m.toKey = toKey ∧
      m.receivedAt ≤ evictionThreshold cfg toKey msgs ∧ excess cfg toKey msgs > 0) := by
  simp only [kept, List.mem_filter, hm, true_and, Bool.not_eq_true', Bool.and_eq_false_iff,
    decide_eq_false_iff_not, not_and_or, or_assoc]

/-- The eviction makes room for one more row of the recipient. -/
theorem held_kept (toKey : Text) {msgs : List Message} (h : (msgs.map Message.receivedAt).Nodup)
    (hcap : 1 ≤ cfg.maxMessagesPerRecipient) :
    (held toKey (kept cfg toKey msgs) : ℤ)+1 ≤ cfg.maxMessagesPerRecipient := by
  let mine := msgs.filter fun m => m.toKey = toKey
  have hexcess : excess cfg toKey msgs = max 0 (mine.length-(cfg.maxMessagesPerRecipient-1)) := rfl
  have hheld : held toKey msgs = mine.length := List.countP_eq_length_filter
  by_cases hpos : excess cfg toKey msgs > 0
  · let n := (excess cfg toKey msgs).toNat
    have hn : 0 < n := by omega
    have hlen : n ≤ mine.length := by omega
    have hmine : (mine.map Message.receivedAt).Nodup := h.sublist (List.filter_sublist.map _)
    have hold := countP_le_threshold hmine hn hlen
    have hthreshold : evictionThreshold cfg toKey msgs = threshold Message.receivedAt n mine :=
      if_pos hpos
    have hkept : held toKey (kept cfg toKey msgs) =
        mine.countP fun m => ¬ m.receivedAt ≤ threshold Message.receivedAt n mine := by
      rw [held, kept, List.countP_filter, List.countP_filter, hthreshold]
      congr 1
      funext m
      by_cases hkey : m.toKey = toKey
      · by_cases hle : m.receivedAt ≤ threshold Message.receivedAt n mine <;> simp [hkey, hpos, hle]
      · simp [hkey]
    have hsplit := List.length_eq_countP_add_countP
      (fun m : Message => decide (m.receivedAt ≤ threshold Message.receivedAt n mine)) (l := mine)
    simp only [hold, decide_eq_true_eq] at hsplit
    omega
  · have := held_le toKey (kept_sublist cfg toKey msgs).subperm
    omega

theorem length_globallyCapped (msgs : List Message) (hcap : 1 ≤ cfg.maxMessagesTotal) :
    ((globallyCapped cfg msgs).length : ℤ) = min (msgs.length : ℤ) cfg.maxMessagesTotal := by
  unfold globallyCapped
  split
  · rw [List.length_drop, length_sortBy]
    omega
  · omega

/-- An append leaves at most the allowed number of rows exactly if it finds fewer than that many
once its recipient's are evicted. -/
theorem append_total_iff {toKey blob : Text} (t : ℤ) {s : Mailbox} (hs : s.Wf)
    (h : stored toKey blob s.messages = false) (hcap : 1 ≤ cfg.maxMessagesTotal) :
    ((s.appendMessage cfg toKey blob t).messages.length : ℤ) ≤ cfg.maxMessagesTotal ↔
      ((kept cfg toKey s.messages).length : ℤ) < cfg.maxMessagesTotal := by
  have hlen := length_globallyCapped cfg (kept cfg toKey s.messages) hcap
  rw [appendMessage_messages cfg hs h, List.length_append, List.length_singleton]
  push_cast
  omega

theorem append_held {toKey blob : Text} (t : ℤ) {s : Mailbox} (hs : s.Wf)
    (hcap : 1 ≤ cfg.maxMessagesPerRecipient)
    (hheld : ∀ key, (held key s.messages : ℤ) ≤ cfg.maxMessagesPerRecipient) (key : Text) :
    (held key (s.appendMessage cfg toKey blob t).messages : ℤ) ≤ cfg.maxMessagesPerRecipient := by
  cases h : stored toKey blob s.messages with
  | true =>
    rw [appendMessage_of_stored cfg t h]
    exact hheld key
  | false =>
    have hsub := globallyCapped_subperm cfg (kept cfg toKey s.messages)
    have hcapped := held_le key hsub
    rw [appendMessage_messages cfg hs h, held, List.countP_append, List.countP_singleton]
    simp only [held] at hcapped
    by_cases hkey : toKey = key
    · subst hkey
      have := held_kept cfg toKey hs.numbers hcap
      simp only [held] at this
      split
      · push_cast
        omega
      · omega
    · have hold := held_le key (kept_sublist cfg toKey s.messages).subperm
      have := hheld key
      simp only [held] at hold this
      rw [if_neg (by simp [newRow, hkey])]
      omega

/-- What an append evicts is older than all rows left of the same recipient, or than all rows
left. -/
theorem append_evicts {toKey blob : Text} (t : ℤ) {s : Mailbox} (hs : s.Wf)
    (h : stored toKey blob s.messages = false) {m : Message} (hm : m ∈ s.messages)
    (hgone : m ∉ (s.appendMessage cfg toKey blob t).messages) :
    (m.toKey = toKey ∧ ∀ m' ∈ (s.appendMessage cfg toKey blob t).messages, m'.toKey = toKey →
      m.receivedAt < m'.receivedAt) ∨
    ∀ m' ∈ (s.appendMessage cfg toKey blob t).messages, m.receivedAt < m'.receivedAt := by
  have hnew : m.receivedAt < (newRow toKey blob t s).receivedAt :=
    (hs.issued m hm).trans_lt (newRow_fresh toKey blob t s)
  rw [appendMessage_messages cfg hs h] at hgone ⊢
  simp only [List.mem_append, List.mem_singleton, not_or] at hgone
  have hcapped := globallyCapped_subperm cfg (kept cfg toKey s.messages)
  by_cases hkept : m ∈ kept cfg toKey s.messages
  · -- The sweep over all recipients has taken it.
    right
    intro m' hm'
    obtain hm' | hm' := List.mem_append.mp hm'
    · have hnumbers := h |> fun _ => hs.numbers.sublist ((kept_sublist cfg toKey s.messages).map _)
      have hgone := hgone.1
      unfold globallyCapped at hgone hm'
      split at hm'
      · rename_i hover
        rw [if_pos hover] at hgone
        have hmem := (mem_sortBy Message.receivedAt).mpr hkept
        rw [← List.take_append_drop _ (sortBy Message.receivedAt _)] at hmem
        obtain htake | hdrop := List.mem_append.mp hmem
        · exact take_lt_drop hnumbers htake hm'
        · exact absurd hdrop hgone
      · rename_i hunder
        rw [if_neg hunder] at hgone
        exact absurd hkept hgone
    · rw [List.mem_singleton.mp hm']
      exact hnew
  · left
    rw [mem_kept cfg hm, not_not] at hkept
    refine ⟨hkept.1,fun m' hm' hkey => ?_⟩
    obtain hm' | hm' := List.mem_append.mp hm'
    · have hmem := hcapped.subset hm'
      have hstays := (mem_kept cfg ((kept_sublist cfg toKey s.messages).subset hmem)).mp hmem
      simp only [hkey, true_and, hkept.2.2, and_true] at hstays
      omega
    · rw [List.mem_singleton.mp hm']
      exact hnew

structure WithinCaps (s : Mailbox) : Prop where
  total : (s.messages.length : ℤ) ≤ cfg.maxMessagesTotal
  perRecipient : ∀ key, (held key s.messages : ℤ) ≤ cfg.maxMessagesPerRecipient

/-- An append of what is not stored adds it, and evicts the oldest. -/
def AppendsFairly (s : Mailbox) : Prop :=
  ∀ toKey blob t, stored toKey blob s.messages = false →
    newRow toKey blob t s ∈ (s.appendMessage cfg toKey blob t).messages ∧
    ∀ m ∈ s.messages, m ∉ (s.appendMessage cfg toKey blob t).messages →
      (m.toKey = toKey ∧ ∀ m' ∈ (s.appendMessage cfg toKey blob t).messages, m'.toKey = toKey →
        m.receivedAt < m'.receivedAt) ∨
      ∀ m' ∈ (s.appendMessage cfg toKey blob t).messages, m.receivedAt < m'.receivedAt

theorem Wf.appendsFairly {s : Mailbox} (hs : s.Wf) : AppendsFairly cfg s := by
  intro toKey blob t h
  refine ⟨?_,fun m hm hgone => append_evicts cfg t hs h hm hgone⟩
  rw [appendMessage_messages cfg hs h]
  simp

/-- An append finds what it appends, or a free row when its recipient's are evicted. -/
def HasRoom (s : Mailbox) : Op → Prop
  | .append toKey blob _ => stored toKey blob s.messages = true ∨
      ((kept cfg toKey s.messages).length : ℤ) < cfg.maxMessagesTotal
  | _ => True

instance (s : Mailbox) : (op : Op) → Decidable (HasRoom cfg s op)
  | .append _ _ _ => inferInstanceAs (Decidable (_ ∨ _))
  | .ack _ _ | .prune _ | .mark _ _ _ => inferInstanceAs (Decidable True)

abbrev step (s : Mailbox) (op : Op) : Option Mailbox := some (s.apply cfg op)

variable {cfg}

theorem WithinCaps.apply {s : Mailbox} (h : WithinCaps cfg s) (hs : s.Wf)
    (hper : 1 ≤ cfg.maxMessagesPerRecipient) (htotal : 1 ≤ cfg.maxMessagesTotal) {op : Op}
    (hroom : HasRoom cfg s op) : WithinCaps cfg (s.apply cfg op) := by
  have hless : ∀ msgs : List Message, msgs.Sublist s.messages →
      WithinCaps cfg { s with messages := msgs } := by
    intro msgs hsub
    have := hsub.length_le
    have := h.total
    refine ⟨by simp only; omega,fun key => ?_⟩
    have := h.perRecipient key
    have := held_le key hsub.subperm
    simp only
    omega
  cases op with
  | append toKey blob t =>
    refine ⟨?_,append_held cfg t hs hper h.perRecipient⟩
    cases hstored : stored toKey blob s.messages with
    | true =>
      rw [Mailbox.apply, appendMessage_of_stored cfg t hstored]
      exact h.total
    | false =>
      have hfree := hroom.resolve_left (by simp [hstored])
      exact (append_total_iff cfg t hs hstored htotal).mpr hfree
  | ack pubkey cursor => exact hless _ List.filter_sublist
  | prune t => exact hless _ List.filter_sublist
  | mark toKey blob server =>
    refine ⟨?_,fun key => ?_⟩
    · rw [Mailbox.apply, markDelivered, List.length_map]
      exact h.total
    · rw [Mailbox.apply, markDelivered, held, List.countP_map]
      have hkeys : (fun m : Message => decide (m.toKey = key)) ∘ Mailbox.mark toKey blob server =
          fun m => decide (m.toKey = key) := by
        funext m
        simp [mark_blob]
      rw [hkeys]
      exact h.perRecipient key

theorem WithinCaps.foldl {s : Mailbox} (h : WithinCaps cfg s) (hs : s.Wf)
    (hper : 1 ≤ cfg.maxMessagesPerRecipient) (htotal : 1 ≤ cfg.maxMessagesTotal) {ops : List Op}
    (hroom : Lts.Along (step cfg) (HasRoom cfg) s ops) :
    WithinCaps cfg (ops.foldl (Mailbox.apply cfg) s) := by
  induction ops generalizing s with
  | nil => exact h
  | cons op ops ih =>
    exact ih (h.apply hs hper htotal hroom.1) (hs.apply cfg op) (hroom.2 _ rfl)

end Mailbox

/-- Every append of a transaction has room. -/
def Roomy (cfg : Config) (s : State) (txn : Txn) : Prop :=
  Lts.Along (Mailbox.step cfg) (Mailbox.HasRoom cfg) s.mail (mailOps cfg s txn)

instance (cfg : Config) (s : State) (txn : Txn) : Decidable (Roomy cfg s txn) :=
  inferInstanceAs (Decidable (Lts.Along _ _ _ _))

/-- In every run whose appends have room, the caps hold in the state reached, and an append adds
its row and evicts the oldest. -/
theorem mailbox_within_caps {cfg : Config} (hper : 1 ≤ cfg.maxMessagesPerRecipient)
    (htotal : 1 ≤ cfg.maxMessagesTotal) {txns : List Txn} {s : State}
    (hrun : Lts.run (step cfg) {} txns = some s)
    (hroom : Lts.Along (step cfg) (Roomy cfg) {} txns) :
    Mailbox.WithinCaps cfg s.mail ∧ Mailbox.AppendsFairly cfg s.mail := by
  suffices h : s.mail.Wf ∧ Mailbox.WithinCaps cfg s.mail from ⟨h.2,h.1.appendsFairly cfg⟩
  refine Lts.run_invariant_along (step cfg)
    (I := fun s => s.mail.Wf ∧ Mailbox.WithinCaps cfg s.mail) ?_ ⟨Mailbox.wf_empty,?_⟩ hroom hrun
  · rintro s txn s' ⟨hs,h⟩ hroom hstep
    obtain rfl := Option.some.inj hstep
    rw [commit_mail]
    exact ⟨hs.foldl cfg _,h.foldl hs hper htotal hroom⟩
  · refine ⟨?_,fun key => ?_⟩
    · change (0 : ℤ) ≤ _
      omega
    · change (0 : ℤ) ≤ _
      omega

theorem mailbox_within_caps_batch : ∃ s,
    Lts.run (step { maxMessagesTotal := 2 }) {}
      [.sendMessages sampleBatch (sampleKey 'a') 7] = some s ∧
    s.mail.messages.length = 2 ∧ Mailbox.WithinCaps { maxMessagesTotal := 2 } s.mail := by
  let txn : Txn := .sendMessages sampleBatch (sampleKey 'a') 7
  have hrun : Lts.run (step { maxMessagesTotal := 2 }) {} [txn] =
    some (commit { maxMessagesTotal := 2 } {} txn) := rfl
  exact ⟨_,hrun,by decide +kernel,
    (mailbox_within_caps (by decide) (by decide) hrun (by decide +kernel)).1⟩

/-- No row is evicted for the one that is appended, so the mailbox can hold one row too many. -/
theorem total_cap_exceeded : ∃ s,
    Lts.run (step { maxMessagesTotal := 1 }) {}
      [.sendMessages sampleBatch (sampleKey 'a') 7] = some s ∧
    s.mail.messages.length = 2 :=
  ⟨_,rfl,by decide +kernel⟩

end Skrepka.Relay
