import Skrepka.Relay.Caps

/-! What appends evict: a row stays as long as there is room for the rows from it on. -/
namespace Skrepka.Relay
open Sequenced Cutoff

namespace Mailbox
variable (cfg : Config)

/-- How many rows of its recipient an append leaves, with its own. -/
def roomPerRecipient : ℕ := (max cfg.maxMessagesPerRecipient 1).toNat

/-- How many rows an append leaves, with its own. -/
def roomTotal : ℕ := (max cfg.maxMessagesTotal 0).toNat+1

/-- The recipients of the rows from some number on. -/
def since (n : ℤ) (msgs : List Message) : List Text :=
  (msgs.filter fun m => n ≤ m.receivedAt).map Message.toKey

/-- There is room for a row of some recipient, those from it on and those added for some recipients. -/
def Stays (toKey : Text) (rows added : List Text) : Prop :=
  added = [] ∨ (rows ++ added).count toKey ≤ roomPerRecipient cfg ∧
    left (roomPerRecipient cfg) (rows ++ added) ≤ roomTotal cfg

instance (toKey : Text) (rows added : List Text) : Decidable (Stays cfg toKey rows added) :=
  inferInstanceAs (Decidable (_ ∨ _))

/-- No recipient has more rows than it may. -/
def Held (msgs : List Message) : Prop := ∀ key, held key msgs ≤ roomPerRecipient cfg

variable {cfg}

theorem one_le_roomPerRecipient : 1 ≤ roomPerRecipient cfg := by
  rw [roomPerRecipient]
  omega

theorem Stays.of_count {toKey : Text} {rows rows' added added' : List Text}
    (h : Stays cfg toKey rows added)
    (hcount : ∀ k, (rows' ++ added').count k ≤ (rows ++ added).count k)
    (hnil : added = [] → added' = []) : Stays cfg toKey rows' added' := by
  obtain hnone | ⟨hown,hall⟩ := h
  · exact .inl (hnil hnone)
  · refine .inr ⟨(hcount toKey).trans hown,(left_mono fun k => ?_).trans hall⟩
    exact (min_le_right _ _).trans (hcount k)

theorem count_since (n : ℤ) (msgs : List Message) (key : Text) : (since n msgs).count key =
    (msgs.filter fun m => m.toKey = key).countP fun m => n ≤ m.receivedAt := by
  rw [since, List.count_eq_countP, List.countP_map, List.countP_filter, List.countP_filter]
  refine List.countP_congr fun m _ => ?_
  simp only [Function.comp_apply, Bool.and_eq_true, beq_iff_eq, decide_eq_true_eq, and_comm]

theorem count_since_le (n : ℤ) (msgs : List Message) (key : Text) :
    (since n msgs).count key ≤ held key msgs := by
  rw [count_since, held, List.countP_eq_length_filter (l := msgs)]
  exact List.countP_le_length

theorem length_since (n : ℤ) (msgs : List Message) :
    (since n msgs).length = msgs.countP fun m => n ≤ m.receivedAt := by
  rw [since, List.length_map, List.countP_eq_length_filter]

/-- Of the rows of its own recipient an append leaves the last. -/
theorem kept_own (toKey : Text) {msgs : List Message} (h : (msgs.map Message.receivedAt).Nodup) :
    ((kept cfg toKey msgs).filter fun m => m.toKey = toKey).Perm
      ((sortBy Message.receivedAt (msgs.filter fun m => m.toKey = toKey)).drop
        ((msgs.filter fun m => m.toKey = toKey).length-(roomPerRecipient cfg-1))) := by
  let mine := msgs.filter fun m => m.toKey = toKey
  let cut := mine.length-(roomPerRecipient cfg-1)
  change List.Perm _ ((sortBy Message.receivedAt mine).drop cut)
  have hexcess : excess cfg toKey msgs = max 0 (mine.length-(cfg.maxMessagesPerRecipient-1)) := rfl
  have hmine : (mine.map Message.receivedAt).Nodup := h.sublist (List.filter_sublist.map _)
  have hkept : (kept cfg toKey msgs).filter (fun m => m.toKey = toKey) =
      mine.filter fun m => !(m.receivedAt ≤ evictionThreshold cfg toKey msgs && excess cfg toKey msgs > 0) := by
    simp only [kept, mine, List.filter_filter]
    refine List.filter_congr fun m _ => ?_
    by_cases hkey : m.toKey = toKey <;> simp [hkey]
  rw [hkept]
  by_cases hcut : 0 < cut
  · have hpos : excess cfg toKey msgs > 0 := by
      simp only [cut, roomPerRecipient] at hcut
      omega
    have htake : (sortBy Message.receivedAt mine).take (excess cfg toKey msgs).toNat =
        (sortBy Message.receivedAt mine).take cut := by
      by_cases hle : (excess cfg toKey msgs).toNat ≤ mine.length
      · congr 1
        simp only [cut, roomPerRecipient]
        omega
      · have hall : cut = mine.length := by
          simp only [cut, roomPerRecipient]
          omega
        rw [List.take_of_length_le (by rw [length_sortBy]; omega),
          List.take_of_length_le (by rw [length_sortBy]; omega)]
    have hthreshold : evictionThreshold cfg toKey msgs = threshold Message.receivedAt cut mine := by
      rw [evictionThreshold, if_pos hpos, threshold, threshold]
      exact congrArg (fun rows : List Message => rows.getLast?.elim 0 Message.receivedAt) htake
    have hnodup : mine.Nodup := hmine.of_map _
    have hsorted := (sortBy_perm Message.receivedAt mine).nodup_iff.mpr hnodup
    refine (List.perm_ext_iff_of_nodup (hnodup.filter _) (hsorted.sublist (List.drop_sublist _ _))).mpr
      fun m => ?_
    simp only [List.mem_filter, hthreshold, decide_eq_true hpos, Bool.and_true, Bool.not_eq_true',
      decide_eq_false_iff_not]
    have hdisjoint : m ∈ (sortBy Message.receivedAt mine).take cut →
        m ∉ (sortBy Message.receivedAt mine).drop cut := by
      intro htake hdrop
      exact lt_irrefl _ (take_lt_drop hmine htake hdrop)
    constructor
    · rintro ⟨hm,hlate⟩
      rw [le_threshold_iff hmine hcut (Nat.sub_le _ _) hm] at hlate
      exact mem_drop_of_not_mem_take ((mem_sortBy _).mpr hm) hlate
    · intro hdrop
      have hm := (mem_sortBy Message.receivedAt).mp (List.mem_of_mem_drop hdrop)
      refine ⟨hm,?_⟩
      rw [le_threshold_iff hmine hcut (Nat.sub_le _ _) hm]
      exact fun htake => hdisjoint htake hdrop
  · have hzero : cut = 0 := by omega
    have hnone : mine.filter (fun m => !(m.receivedAt ≤ evictionThreshold cfg toKey msgs &&
        excess cfg toKey msgs > 0)) = mine := by
      refine List.filter_eq_self.mpr fun m hm => ?_
      have hsome : 0 < mine.length := List.length_pos_of_mem hm
      have hno : ¬ excess cfg toKey msgs > 0 := by
        simp only [cut, roomPerRecipient] at hzero
        omega
      simp [hno]
    rw [hnone, hzero, List.drop_zero]
    exact (sortBy_perm _ _).symm

theorem kept_other {toKey key : Text} (h : key ≠ toKey) (msgs : List Message) :
    (kept cfg toKey msgs).filter (fun m => m.toKey = key) = msgs.filter fun m => m.toKey = key := by
  rw [kept, List.filter_filter]
  refine List.filter_congr fun m _ => ?_
  by_cases hkey : m.toKey = key <;> simp [hkey, h]

/-- The rows from some number on that an append leaves before its own, in number. -/
theorem count_since_kept (toKey : Text) {msgs : List Message} (h : (msgs.map Message.receivedAt).Nodup)
    (n : ℤ) (key : Text) : (since n (kept cfg toKey msgs)).count key =
      if key = toKey then min (roomPerRecipient cfg-1) ((since n msgs).count toKey)
      else (since n msgs).count key := by
  split
  · rename_i hkey
    subst hkey
    have hle : (msgs.filter fun m => m.toKey = key).countP (fun m => n ≤ m.receivedAt) ≤
        (msgs.filter fun m => m.toKey = key).length := List.countP_le_length
    rw [count_since, (kept_own key h).countP_eq, countP_drop_sortBy, count_since]
    omega
  · rename_i hkey
    rw [count_since, kept_other hkey, count_since]

theorem mem_kept_iff {toKey : Text} {msgs : List Message} (h : (msgs.map Message.receivedAt).Nodup)
    {m : Message} (hm : m ∈ msgs) : m ∈ kept cfg toKey msgs ↔
      (m.toKey = toKey → (since m.receivedAt msgs).count toKey ≤ roomPerRecipient cfg-1) := by
  by_cases hkey : m.toKey = toKey
  · have hmine : m ∈ msgs.filter fun m => m.toKey = toKey :=
      List.mem_filter.mpr ⟨hm,decide_eq_true hkey⟩
    have hnodup : ((msgs.filter fun m => m.toKey = toKey).map Message.receivedAt).Nodup :=
      h.sublist (List.filter_sublist.map _)
    have hown : m ∈ kept cfg toKey msgs ↔ m ∈ (kept cfg toKey msgs).filter fun m => m.toKey = toKey := by
      simp [List.mem_filter, hkey]
    rw [hown, (kept_own toKey h).mem_iff, mem_drop_sortBy_iff hnodup hmine, count_since,
      forall_prop_of_true hkey]
    have hle : (msgs.filter fun m => m.toKey = toKey).countP (fun b => m.receivedAt ≤ b.receivedAt) ≤
        (msgs.filter fun m => m.toKey = toKey).length := List.countP_le_length
    omega
  · rw [mem_kept cfg hm]
    simp [hkey]

theorem globallyCapped_perm (msgs : List Message) : (globallyCapped cfg msgs).Perm
    ((sortBy Message.receivedAt msgs).drop (msgs.length-(roomTotal cfg-1))) := by
  unfold globallyCapped
  split
  · have hdrop : (sortBy Message.receivedAt msgs).drop (msgs.length-cfg.maxMessagesTotal).toNat =
        (sortBy Message.receivedAt msgs).drop (msgs.length-(roomTotal cfg-1)) := by
      by_cases hneg : cfg.maxMessagesTotal < 0
      · rw [List.drop_of_length_le (by rw [length_sortBy]; omega),
          List.drop_of_length_le (by rw [length_sortBy, roomTotal]; omega)]
      · congr 1
        rw [roomTotal]
        omega
    rw [hdrop]
  · have hzero : msgs.length-(roomTotal cfg-1) = 0 := by
      rw [roomTotal]
      omega
    rw [hzero, List.drop_zero]
    exact (sortBy_perm _ _).symm

theorem mem_globallyCapped_iff {msgs : List Message} (h : (msgs.map Message.receivedAt).Nodup)
    {m : Message} (hm : m ∈ msgs) :
    m ∈ globallyCapped cfg msgs ↔ (since m.receivedAt msgs).length < roomTotal cfg := by
  have hle : msgs.countP (fun b => m.receivedAt ≤ b.receivedAt) ≤ msgs.length := List.countP_le_length
  rw [(globallyCapped_perm msgs).mem_iff, mem_drop_sortBy_iff h hm, length_since]
  simp only [roomTotal]
  omega

/-- The cut over all recipients leaves all rows from one on that it leaves. -/
theorem since_globallyCapped {msgs : List Message} (h : (msgs.map Message.receivedAt).Nodup)
    {m : Message} (hm : m ∈ globallyCapped cfg msgs) :
    (since m.receivedAt (globallyCapped cfg msgs)).Perm (since m.receivedAt msgs) := by
  refine List.Perm.map _ ?_
  have hcapped := @globallyCapped_perm cfg msgs
  refine (hcapped.filter _).trans (List.Perm.trans ?_ ((sortBy_perm Message.receivedAt msgs).filter _))
  have hdrop := hcapped.mem_iff.mp hm
  generalize msgs.length-(roomTotal cfg-1) = e at hdrop
  have hfront : ((sortBy Message.receivedAt msgs).take e).filter
      (fun b => decide (m.receivedAt ≤ b.receivedAt)) = [] := by
    refine List.filter_eq_nil_iff.mpr fun b hb => ?_
    rw [decide_eq_true_eq, not_le]
    exact take_lt_drop h hb hdrop
  conv_rhs => rw [← List.take_append_drop e (sortBy Message.receivedAt msgs), List.filter_append, hfront,
    List.nil_append]

/-- What an append leaves before its own row. -/
theorem numbers_kept {s : Mailbox} (hs : s.Wf) (toKey : Text) :
    ((kept cfg toKey s.messages).map Message.receivedAt).Nodup :=
  hs.numbers.sublist ((kept_sublist cfg toKey s.messages).map _)

theorem since_kept_length {s : Mailbox} (hs : s.Wf) (hheld : Held cfg s.messages) (toKey : Text) (n : ℤ) :
    left (roomPerRecipient cfg) (since n s.messages ++ [toKey]) =
      (since n (kept cfg toKey s.messages)).length+1 := by
  have hroom := @one_le_roomPerRecipient cfg
  have hcount := @count_since_kept cfg toKey _ hs.numbers n
  have hle := fun key => (count_since_le n s.messages key).trans (hheld key)
  have hsame : ∀ key, min (roomPerRecipient cfg) ((since n s.messages ++ [toKey]).count key) =
      min (roomPerRecipient cfg) ((since n (kept cfg toKey s.messages) ++ [toKey]).count key) := by
    intro key
    have := hle key
    rw [List.count_append, List.count_append, hcount, List.count_singleton]
    by_cases hkey : key = toKey
    · subst hkey
      simp only [if_true, beq_self_eq_true]
      omega
    · rw [if_neg hkey]
  rw [left_congr hsame, left_of_count_le, List.length_append, List.length_singleton]
  intro key
  have := hle key
  rw [List.count_append, hcount, List.count_singleton]
  by_cases hkey : key = toKey
  · subst hkey
    simp only [if_true, beq_self_eq_true]
    omega
  · simp only [if_neg hkey, beq_iff_eq, Ne.symm hkey, if_false]
    omega

/-- A row outlasts an append if there is room for it. -/
theorem append_stays_iff {s : Mailbox} (hs : s.Wf) (hheld : Held cfg s.messages) {toKey blob : Text}
    (h : stored toKey blob s.messages = false) (t : ℤ) {r : Message} (hr : r ∈ s.messages) :
    r ∈ (s.appendMessage cfg toKey blob t).messages ↔
      Stays cfg r.toKey (since r.receivedAt s.messages) [toKey] := by
  have hroom := @one_le_roomPerRecipient cfg
  have hold : r ≠ newRow toKey blob t s := by
    rintro rfl
    have := hs.issued _ hr
    have := newRow_fresh toKey blob t s
    omega
  have hle := (count_since_le r.receivedAt s.messages r.toKey).trans (hheld r.toKey)
  have hkept := @mem_kept_iff cfg toKey _ hs.numbers _ hr
  rw [appendMessage_messages cfg hs h, List.mem_append, List.mem_singleton, or_iff_left hold, Stays,
    or_iff_right (List.cons_ne_nil _ _), since_kept_length hs hheld, List.count_append,
    List.count_singleton]
  constructor
  · intro hcapped
    have hmem := (globallyCapped_subperm cfg _).subset hcapped
    have hfront := hkept.mp hmem
    refine ⟨?_,(mem_globallyCapped_iff (numbers_kept hs toKey) hmem).mp hcapped⟩
    split
    · rename_i hkey
      obtain rfl : toKey = r.toKey := beq_iff_eq.mp hkey
      have := hfront rfl
      omega
    · exact hle
  · rintro ⟨hown,hall⟩
    have hmem : r ∈ kept cfg toKey s.messages := by
      refine hkept.mpr fun hkey => ?_
      subst hkey
      rw [beq_self_eq_true, if_pos rfl] at hown
      omega
    exact (mem_globallyCapped_iff (numbers_kept hs toKey) hmem).mpr hall

/-- The rows from one on that outlasts an append, up to what there is room for. -/
theorem since_append {s : Mailbox} (hs : s.Wf) (hheld : Held cfg s.messages) {toKey blob : Text}
    (h : stored toKey blob s.messages = false) (t : ℤ) {r : Message} (hr : r ∈ s.messages)
    (hstays : r ∈ (s.appendMessage cfg toKey blob t).messages) (key : Text) :
    (since r.receivedAt (s.appendMessage cfg toKey blob t).messages).count key =
      min (roomPerRecipient cfg) ((since r.receivedAt s.messages ++ [toKey]).count key) := by
  have hroom := @one_le_roomPerRecipient cfg
  have hnew := newRow_fresh toKey blob t s
  have hold := hs.issued _ hr
  have hle := (count_since_le r.receivedAt s.messages key).trans (hheld key)
  rw [appendMessage_messages cfg hs h] at hstays ⊢
  have hcapped : r ∈ globallyCapped cfg (kept cfg toKey s.messages) := by
    refine (List.mem_append.mp hstays).resolve_right fun hmem => ?_
    rw [List.mem_singleton.mp hmem] at hold
    omega
  have hlast : since r.receivedAt [newRow toKey blob t s] = [toKey] := by
    rw [since, List.filter_singleton, decide_eq_true (hold.trans hnew.le)]
    rfl
  rw [since, List.filter_append, List.map_append, List.count_append, List.count_append]
  change (since r.receivedAt (globallyCapped cfg (kept cfg toKey s.messages))).count key+
    (since r.receivedAt [newRow toKey blob t s]).count key = _
  rw [(since_globallyCapped (numbers_kept hs toKey) hcapped).count_eq, hlast,
    count_since_kept toKey hs.numbers, List.count_singleton]
  by_cases hkey : key = toKey
  · subst hkey
    simp only [if_true, beq_self_eq_true]
    omega
  · simp only [if_neg hkey, beq_iff_eq, Ne.symm hkey, if_false]
    omega

theorem Held.append {s : Mailbox} (hs : s.Wf) (hheld : Held cfg s.messages) (toKey blob : Text) (t : ℤ) :
    Held cfg (s.appendMessage cfg toKey blob t).messages := by
  intro key
  cases h : stored toKey blob s.messages with
  | true =>
    rw [appendMessage_of_stored cfg t h]
    exact hheld key
  | false =>
    have hroom := @one_le_roomPerRecipient cfg
    have hcapped := held_le key (globallyCapped_subperm cfg (kept cfg toKey s.messages))
    have hnew : held key [newRow toKey blob t s] = if toKey = key then 1 else 0 := by
      simp [held, List.countP_singleton, newRow]
    rw [appendMessage_messages cfg hs h, held, List.countP_append]
    change held key _+held key _ ≤ _
    rw [hnew]
    by_cases hkey : toKey = key
    · subst hkey
      have hown : held toKey (kept cfg toKey s.messages) ≤ roomPerRecipient cfg-1 := by
        rw [held, List.countP_eq_length_filter, (kept_own toKey hs.numbers).length_eq, List.length_drop,
          length_sortBy]
        omega
      rw [if_pos rfl]
      omega
    · have hother := (held_le key (kept_sublist cfg toKey s.messages).subperm).trans (hheld key)
      rw [if_neg hkey]
      omega

theorem Held.apply {s : Mailbox} (hs : s.Wf) (h : Held cfg s.messages) (op : Op) :
    Held cfg (s.apply cfg op).messages := by
  cases op with
  | append toKey blob t => exact h.append hs toKey blob t
  | ack pubkey cursor => exact fun key => (held_le key List.filter_sublist.subperm).trans (h key)
  | prune t => exact fun key => (held_le key List.filter_sublist.subperm).trans (h key)
  | mark toKey blob server =>
    intro key
    rw [Mailbox.apply, markDelivered, held, List.countP_map]
    exact (List.countP_congr fun m _ => by simp [mark_blob]).trans_le (h key)

theorem Held.foldl {s : Mailbox} (hs : s.Wf) (h : Held cfg s.messages) (ops : List Op) :
    Held cfg (ops.foldl (Mailbox.apply cfg) s).messages := by
  induction ops generalizing s with
  | nil => exact h
  | cons op ops ih => exact ih (hs.apply cfg op) (h.apply hs op)

/-- The appends of a batch. -/
def appends (t : ℤ) (batch : List Envelope) : List Op :=
  batch.map fun m => .append m.toKey m.encryptedBlob t

theorem rows_appends {s : Mailbox} (hs : s.Wf) (t : ℤ) (batch : List Envelope) {r : Message}
    (hr : r ∈ ((appends t batch).foldl (Mailbox.apply cfg) s).messages) :
    r ∈ s.messages ∨ r ∈ allAdded cfg s (appends t batch) := by
  induction batch generalizing s with
  | nil => exact .inl hr
  | cons m batch ih =>
    simp only [appends, List.map_cons, allAdded, List.mem_append, Option.mem_toList]
    obtain hr | hr := ih (hs.append cfg m.toKey m.encryptedBlob t) hr
    · cases h : stored m.toKey m.encryptedBlob s.messages with
      | true =>
        rw [appendMessage_of_stored cfg t h] at hr
        exact .inl hr
      | false =>
        rw [appendMessage_messages cfg hs h, List.mem_append, List.mem_singleton] at hr
        obtain hr | rfl := hr
        · exact .inl ((survivors_subperm cfg m.toKey s.messages).subset hr)
        · exact .inr (.inl (by simp [added, h]))
    · exact .inr (.inr hr)

/-- What is gone after an append does not come back. -/
theorem gone_appends {s : Mailbox} (hs : s.Wf) (t : ℤ) (batch : List Envelope) {r : Message}
    (hnumber : r.receivedAt ≤ currentSeq s.seqCounter) (hr : r ∉ s.messages) :
    r ∉ ((appends t batch).foldl (Mailbox.apply cfg) s).messages := by
  intro hback
  refine ((rows_appends hs t batch hback).resolve_left hr |> fun hadded => ?_)
  have := ((allAdded_increasing cfg s (appends t batch)).2.1 r hadded).1
  omega

/-- A row outlasts the appends of a batch if there is room for all that these add. -/
theorem outlasts_iff {s : Mailbox} (hs : s.Wf) (hheld : Held cfg s.messages) (t : ℤ)
    (batch : List Envelope) {r : Message} (hr : r ∈ s.messages) :
    r ∈ ((appends t batch).foldl (Mailbox.apply cfg) s).messages ↔
      Stays cfg r.toKey (since r.receivedAt s.messages)
        ((allAdded cfg s (appends t batch)).map Message.toKey) := by
  induction batch generalizing s with
  | nil => exact iff_of_true hr (.inl rfl)
  | cons m batch ih =>
    let s' := s.appendMessage cfg m.toKey m.encryptedBlob t
    have hs' : s'.Wf := hs.append cfg m.toKey m.encryptedBlob t
    have hheld' : Held cfg s'.messages := hheld.append hs m.toKey m.encryptedBlob t
    change r ∈ ((appends t batch).foldl (Mailbox.apply cfg) s').messages ↔ Stays cfg r.toKey _
      (((Mailbox.added s (.append m.toKey m.encryptedBlob t)).toList ++
        allAdded cfg s' (appends t batch)).map Message.toKey)
    cases h : stored m.toKey m.encryptedBlob s.messages with
    | true =>
      have hsame : s' = s := appendMessage_of_stored cfg t h
      rw [hsame, ih hs hheld hr]
      simp [Mailbox.added, h]
    | false =>
      have hadded : (Mailbox.added s (.append m.toKey m.encryptedBlob t)).toList =
          [newRow m.toKey m.encryptedBlob t s] := by simp [Mailbox.added, h]
      rw [hadded, List.singleton_append, List.map_cons]
      change _ ↔ Stays cfg r.toKey _ (m.toKey :: (allAdded cfg s' (appends t batch)).map Message.toKey)
      have hstep := append_stays_iff hs hheld h t hr
      by_cases hstays : r ∈ s'.messages
      · obtain ⟨hown,hall⟩ := (hstep.mp hstays).resolve_left (List.cons_ne_nil _ _)
        have hsame : ∀ key, (since r.receivedAt s'.messages).count key =
            min (roomPerRecipient cfg) ((since r.receivedAt s.messages ++ [m.toKey]).count key) :=
          since_append hs hheld h t hr hstays
        rw [ih hs' hheld' hstays]
        generalize (allAdded cfg s' (appends t batch)).map Message.toKey = more
        have hcount : (since r.receivedAt s'.messages ++ more).count r.toKey =
            (since r.receivedAt s.messages ++ m.toKey :: more).count r.toKey := by
          rw [List.append_cons, List.count_append, List.count_append, hsame, min_eq_right hown]
        have hleft : left (roomPerRecipient cfg) (since r.receivedAt s'.messages ++ more) =
            left (roomPerRecipient cfg) (since r.receivedAt s.messages ++ m.toKey :: more) := by
          refine left_congr fun key => ?_
          rw [List.append_cons, List.count_append, List.count_append, hsame]
          omega
        rw [Stays, Stays, hcount, hleft, or_iff_right (List.cons_ne_nil _ _)]
        constructor
        · rintro (rfl | h)
          · exact ⟨hown,hall⟩
          · exact h
        · exact .inr
      · refine iff_of_false (gone_appends hs' t batch ?_ hstays) fun hroom => hstays (hstep.mpr ?_)
        · rw [appendMessage_seq cfg h]
          exact (hs.issued r hr).trans (newRow_fresh _ _ t s).le
        · refine hroom.of_count (fun key => ?_) fun hnil => absurd hnil (List.cons_ne_nil _ _)
          exact ((List.Sublist.refl _).append
            ((List.nil_sublist _).cons_cons m.toKey)).count_le key

end Mailbox
end Skrepka.Relay
