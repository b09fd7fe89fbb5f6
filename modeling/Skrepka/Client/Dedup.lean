import Skrepka.Client.Texts
import Skrepka.Lib.StableSort

/-! Which ids a dedup set cannot be made to forget, whatever the hash order gives up: those of a set
that stays within its cap, and those of messages that are too new to be trimmed. -/
namespace Skrepka.Client
open Rust Mvu

/-- The payloads do not make the dedup set of a peer forget an id. They bring texts that it has already,
or keep it within the cap, or the messages that the conversation has or gets under the id are too new for
them to push out. -/
def Model.Remembers (m : Model) (now : ℤ) (peer id : String) (ps : List (String × ParsedPayload)) :
    Prop :=
  (∀ i ∈ textIds peer ps, i ∈ m.dedupSet peer) ∨
  (m.dedupSet peer ∪ (textIds peer ps).toFinset).card ≤ maxSeenIdsPerPeer ∨
  if id ∈ m.dedupSet peer then
    id ∈ messageIds ((m.convo peer).rtake (maxMessagesPerPeer-(textIds peer ps).length))
  else
    ∀ p ∈ ps, p.1 = peer → ∀ body, p.2.payload = .text id body →
      StableSort.behind StoredMessage.ts (Ingest.clampTs now p.2.ts) (m.convo peer)+
        (textIds peer ps).length ≤ maxMessagesPerPeer

theorem insertSorted_eq (convo : List StoredMessage) (msg : StoredMessage) :
    insertSorted convo msg = StableSort.insertAfter StoredMessage.ts msg convo := by
  induction convo with
  | nil => rfl
  | cons m convo ih =>
    rw [StableSort.insertAfter, ← ih]
    simp only [insertSorted, List.findIdx_cons]
    split <;> simp_all

theorem trimHistory_eq (convo : List StoredMessage) :
    trimHistory convo = convo.rtake maxMessagesPerPeer := by
  rw [trimHistory, List.rtake]

theorem textIds_cons {peer id body : String} {p : String × ParsedPayload} (hpeer : p.1 = peer)
    (htext : p.2.payload = .text id body) (ps : List (String × ParsedPayload)) :
    textIds peer (p :: ps) = id :: textIds peer ps := by
  simp [textIds, hpeer, htext]

theorem textIds_sublist (peer : String) (p : String × ParsedPayload) (ps : List (String × ParsedPayload)) :
    (textIds peer ps).Sublist (textIds peer (p :: ps)) :=
  (List.sublist_cons_self p ps).filterMap _

namespace Ingest
variable {x : Crates} {hash : HashOrder} {now : ℤ} {peer id : String} {msg : StoredMessage}
  {s s' : Ingest}

/-- A page acknowledges the ids of its texts only. -/
theorem mem_acks_deliver {ps : List (String × ParsedPayload)}
    (h : id ∈ (deliver x hash now ps s).acks peer) : id ∈ s.acks peer ∨ id ∈ textIds peer ps := by
  induction ps generalizing s with
  | nil => exact .inl h
  | cons p ps ih =>
    obtain hacks | htexts := ih h
    · obtain ⟨i,body,hpeer,htext,-,-,hfiled⟩ | hun := payload_texts x hash now p s peer
      · rw [hfiled.acks, List.mem_append, List.mem_singleton] at hacks
        rw [textIds_cons hpeer htext]
        exact hacks.imp_right fun hid => List.mem_cons.mpr (.inl hid)
      · exact .inl (hun.acks ▸ hacks)
    · exact .inr ((textIds_sublist peer p ps).subset htexts)

/-- An id that is in the dedup set, and under which one of the newest messages is held. -/
structure Held (peer id : String) (n : ℕ) (s : Ingest) : Prop where
  seen : id ∈ s.model.dedupSet peer
  recent : id ∈ messageIds ((s.model.convo peer).rtake n)

theorem mem_messageIds_rtake {convo : List StoredMessage} {n : ℕ} :
    id ∈ messageIds (convo.rtake n) ↔ ∃ msg ∈ convo.rtake n, msg.id = id := by
  rw [mem_messageIds, List.mem_map]

theorem Held.mono {m n : ℕ} (h : Held peer id m s) (hmn : m ≤ n) : Held peer id n s := by
  refine ⟨h.seen,?_⟩
  obtain ⟨msg,hmsg,hid⟩ := mem_messageIds_rtake.mp h.recent
  exact mem_messageIds_rtake.mpr ⟨msg,StableSort.mem_rtake_of_le hmsg hmn,hid⟩

theorem Held.filed {n : ℕ} (h : Held peer id n s) (hn : n < maxMessagesPerPeer)
    (hfiled : Filed hash peer msg s s') : Held peer id (n+1) s' := by
  obtain ⟨msg',hmsg',rfl⟩ := mem_messageIds_rtake.mp h.recent
  refine ⟨?_,mem_messageIds_rtake.mpr ⟨msg',?_,rfl⟩⟩
  · rw [hfiled.dedupSet, hfiled.seen]
    refine mem_capIds (Finset.mem_insert_of_mem h.seen) ?_
    rw [messageIds_insertSorted]
    refine Finset.mem_insert_of_mem (mem_messageIds.mpr (List.mem_map_of_mem ?_))
    exact List.mem_of_mem_drop hmsg'
  · rw [hfiled.convo, trimHistory_eq, StableSort.rtake_rtake hn, insertSorted_eq]
    exact StableSort.mem_rtake_insertAfter hmsg' msg

/-- A text that was just filed is held, unless the conversation is full of newer ones. -/
theorem Filed.held (hfiled : Filed hash peer msg s s')
    (hnew : StableSort.behind StoredMessage.ts msg.ts (s.model.convo peer) < maxMessagesPerPeer) :
    Held peer msg.id (StableSort.behind StoredMessage.ts msg.ts (s.model.convo peer)+1) s' := by
  refine ⟨?_,mem_messageIds_rtake.mpr ⟨msg,?_,rfl⟩⟩
  · rw [hfiled.dedupSet]
    exact hfiled.mem_seen
  · rw [hfiled.convo, trimHistory_eq, StableSort.rtake_rtake hnew, insertSorted_eq]
    exact StableSort.self_mem_rtake_insertAfter msg _

theorem Filed.behind_le (hfiled : Filed hash peer msg s s') (ts : ℤ) :
    StableSort.behind StoredMessage.ts ts (s'.model.convo peer) ≤
      StableSort.behind StoredMessage.ts ts (s.model.convo peer)+1 := by
  rw [hfiled.convo, trimHistory, insertSorted_eq]
  exact (StableSort.behind_drop _ ts _ _).trans (StableSort.behind_insertAfter ts msg _)

/-- Every text pushes a message down by one place at most. -/
theorem Held.deliver {n : ℕ} (h : Held peer id n s) (x : Crates) (hash : HashOrder) (now : ℤ)
    (ps : List (String × ParsedPayload)) (hn : n+(textIds peer ps).length ≤ maxMessagesPerPeer) :
    Held peer id (n+(textIds peer ps).length) (deliver x hash now ps s) := by
  induction ps generalizing n s with
  | nil => exact h
  | cons p ps ih =>
    obtain ⟨i,body,hpeer,htext,-,-,hfiled⟩ | hun := payload_texts x hash now p s peer
    · rw [textIds_cons hpeer htext, List.length_cons] at hn ⊢
      have hheld := ih (h.filed (by omega) hfiled) (by omega)
      exact hheld.mono (by omega)
    · have hless := (textIds_sublist peer p ps).length_le
      have hsame : Held peer id n (s.payload x hash now p.1 p.2) :=
        ⟨hun.dedupSet ▸ h.seen,hun.convo ▸ h.recent⟩
      exact (ih hsame (by omega)).mono (by omega)

/-- If all texts under an id are newer than what they have to be, it is held once it is filed. -/
theorem held_of_acks {ps : List (String × ParsedPayload)} (hfresh : id ∉ s.acks peer)
    (hnew : ∀ p ∈ ps, p.1 = peer → ∀ body, p.2.payload = .text id body →
      StableSort.behind StoredMessage.ts (clampTs now p.2.ts) (s.model.convo peer)+
        (textIds peer ps).length ≤ maxMessagesPerPeer)
    (hacks : id ∈ (deliver x hash now ps s).acks peer) :
    Held peer id maxMessagesPerPeer (deliver x hash now ps s) := by
  induction ps generalizing s with
  | nil => exact absurd hacks hfresh
  | cons p ps ih =>
    have hless := (textIds_sublist peer p ps).length_le
    obtain ⟨i,body,hpeer,htext,-,-,hfiled⟩ | hun := payload_texts x hash now p s peer
    · rw [textIds_cons hpeer htext, List.length_cons] at hnew
      by_cases hi : i = id
      · subst hi
        have hroom := hnew p List.mem_cons_self hpeer body htext
        have hheld := (hfiled.held (by dsimp only; omega)).deliver x hash now ps
          (by dsimp only; omega)
        exact hheld.mono (by dsimp only; omega)
      · refine ih ?_ (fun q hq hqpeer b hqtext => ?_) hacks
        · rw [hfiled.acks, List.mem_append, List.mem_singleton]
          exact fun h => h.elim hfresh fun heq => hi heq.symm
        · have hroom := hnew q (List.mem_cons_of_mem p hq) hqpeer b hqtext
          have hle := hfiled.behind_le (clampTs now q.2.ts)
          dsimp only at hle ⊢
          omega
    · refine ih (hun.acks ▸ hfresh) (fun q hq hqpeer b hqtext => ?_) hacks
      have hroom := hnew q (List.mem_cons_of_mem p hq) hqpeer b hqtext
      rw [hun.convo]
      omega

/-- A dedup set is not emptied, and has something once a text was filed. -/
theorem seen_nonempty_deliver {ps : List (String × ParsedPayload)}
    (h : (s.model.seen peer).Nonempty ∨ (deliver x hash now ps s).acks peer ≠ [])
    (hnone : s.acks peer = []) : ((deliver x hash now ps s).model.seen peer).Nonempty := by
  suffices hall : (s.model.seen peer).Nonempty ∨ (deliver x hash now ps s).acks peer ≠ [] →
      ((deliver x hash now ps s).model.seen peer).Nonempty from hall h
  refine deliver_induction (I := fun s' => (s.model.seen peer).Nonempty ∨ s'.acks peer ≠ [] →
    (s'.model.seen peer).Nonempty) (fun p _ s' hs => ?_) fun hsome => hsome.resolve_right (· hnone)
  obtain ⟨_,_,-,-,-,-,hfiled⟩ | hun := payload_texts x hash now p s' peer
  · exact fun _ => ⟨_,hfiled.mem_seen⟩
  · rw [hun.acks]
    exact fun hsome => (hs hsome).mono hun.seen

variable (x hash now) in
/-- Texts that the dedup set has are not filed, and change nothing. -/
theorem deliver_known {m : Model} {ps : List (String × ParsedPayload)}
    (h : ∀ i ∈ textIds peer ps, i ∈ m.dedupSet peer) :
    (deliver x hash now ps { model := m }).model.dedupSet peer = m.dedupSet peer ∧
      (deliver x hash now ps { model := m }).acks peer = [] := by
  refine deliver_induction (I := fun s => s.model.dedupSet peer = m.dedupSet peer ∧ s.acks peer = [])
    (fun p hp s hs => ?_) ⟨rfl,by simp [acks]⟩
  obtain ⟨i,body,hpeer,htext,-,-,hfiled⟩ | hun := payload_texts x hash now p s peer
  · have hi : i ∈ textIds peer [p] := by simp [textIds_cons hpeer htext]
    have hknown := h i (((List.singleton_sublist.mpr hp).filterMap _).subset hi)
    exact absurd (hs.1 ▸ hknown) hfiled.fresh
  · exact ⟨hun.dedupSet.trans hs.1,hun.acks.trans hs.2⟩

/-- What is in the dedup set or was filed is in it as long as it stays within a bound that is within
the cap. -/
structure Kept (peer : String) (bound old : Finset String) (s : Ingest) : Prop where
  bound : s.model.dedupSet peer ⊆ bound
  old : old ⊆ s.model.dedupSet peer
  acks : ∀ i ∈ s.acks peer, i ∈ s.model.dedupSet peer

theorem Kept.payload {bound old : Finset String} {p : String × ParsedPayload}
    (h : Kept peer bound old s) (hcap : bound.card ≤ maxSeenIdsPerPeer)
    (hp : ∀ i ∈ textIds peer [p], i ∈ bound) : Kept peer bound old (s.payload x hash now p.1 p.2) := by
  obtain ⟨i,body,hpeer,htext,-,-,hfiled⟩ | hun := payload_texts x hash now p s peer
  · have hinsert : insert i (s.model.dedupSet peer) ⊆ bound :=
      Finset.insert_subset (hp i (by simp [textIds_cons hpeer htext])) h.bound
    have hset : (s.payload x hash now p.1 p.2).model.dedupSet peer =
        insert i (s.model.dedupSet peer) := by
      rw [hfiled.dedupSet, hfiled.seen]
      exact capIds_of_card_le ((Finset.card_le_card hinsert).trans hcap)
    refine ⟨hset ▸ hinsert,hset ▸ h.old.trans (Finset.subset_insert _ _),fun j hj => ?_⟩
    rw [hfiled.acks, List.mem_append, List.mem_singleton] at hj
    rw [hset]
    obtain hj | rfl := hj
    · exact Finset.mem_insert_of_mem (h.acks j hj)
    · exact Finset.mem_insert_self _ _
  · exact ⟨hun.dedupSet ▸ h.bound,hun.dedupSet ▸ h.old,hun.acks ▸ hun.dedupSet ▸ h.acks⟩

end Ingest

/-- What such payloads find in the dedup set, or file, is in it after them. -/
theorem Model.Remembers.deliver {m : Model} {now : ℤ} {peer id : String}
    {ps : List (String × ParsedPayload)} (h : m.Remembers now peer id ps) (x : Crates) (hash : HashOrder)
    (hid : id ∈ m.dedupSet peer ∨ id ∈ (Ingest.deliver x hash now ps { model := m }).acks peer) :
    id ∈ (Ingest.deliver x hash now ps { model := m }).model.dedupSet peer := by
  have hnone : ({ model := m } : Ingest).acks peer = [] := by simp [Ingest.acks]
  obtain hknown | hcap | hnew := h
  · obtain ⟨hset,hacks⟩ := Ingest.deliver_known x hash now hknown
    rw [hset]
    exact hid.resolve_right (by simp [hacks])
  · let bound := m.dedupSet peer ∪ (textIds peer ps).toFinset
    have hkept : Ingest.Kept peer bound (m.dedupSet peer)
        (Ingest.deliver x hash now ps { model := m }) := by
      refine Ingest.deliver_induction (fun p hp s hs => hs.payload hcap fun i hi => ?_)
        ⟨Finset.subset_union_left,subset_rfl,by simp [hnone]⟩
      have hi : i ∈ textIds peer ps :=
        ((List.singleton_sublist.mpr hp).filterMap _).subset hi
      exact Finset.mem_union_right _ (List.mem_toFinset.mpr hi)
    exact hid.elim (fun hold => hkept.old hold) (hkept.acks id)
  · split at hnew
    · rename_i hold
      by_cases hlen : (textIds peer ps).length ≤ maxMessagesPerPeer
      · have hheld : Ingest.Held peer id (maxMessagesPerPeer-(textIds peer ps).length)
          { model := m } := ⟨hold,hnew⟩
        exact (hheld.deliver x hash now ps (by omega)).seen
      · rw [Nat.sub_eq_zero_of_le (by omega), List.rtake_zero] at hnew
        simp [messageIds] at hnew
    · rename_i hnot
      exact (Ingest.held_of_acks (by simp [hnone]) hnew (hid.resolve_left hnot)).seen

/-- Fewer payloads make a dedup set forget less. -/
theorem Model.Remembers.mono {m : Model} {now : ℤ} {peer id : String}
    {ps qs : List (String × ParsedPayload)} (h : m.Remembers now peer id qs) (hps : ps <+: qs) :
    m.Remembers now peer id ps := by
  have hsub : (textIds peer ps).Sublist (textIds peer qs) := hps.sublist.filterMap _
  have hlen := hsub.length_le
  refine h.imp (fun hknown i hi => hknown i (hsub.subset hi)) (Or.imp (fun hcap => ?_) fun hnew => ?_)
  · refine (Finset.card_le_card (Finset.union_subset_union subset_rfl fun i hi => ?_)).trans hcap
    exact List.mem_toFinset.mpr (hsub.subset (List.mem_toFinset.mp hi))
  · split at hnew
    · rename_i hold
      rw [if_pos hold]
      obtain ⟨msg,hmsg,hid⟩ := Ingest.mem_messageIds_rtake.mp hnew
      exact Ingest.mem_messageIds_rtake.mpr ⟨msg,StableSort.mem_rtake_of_le hmsg (by omega),hid⟩
    · rename_i hnot
      rw [if_neg hnot]
      intro p hp hpeer body htext
      have hroom := hnew p (hps.subset hp) hpeer body htext
      omega

/-- What a page files of an id, if no text that comes under it was forgotten: the id is filed once at
most, and not at all when the dedup set had it before. -/
theorem count_acks_deliver {m : Model} {now : ℤ} {peer id : String} {x : Crates} {hash : HashOrder}
    {ps : List (String × ParsedPayload)}
    (h : ∀ qs p, qs ++ [p] <+: ps → p.1 = peer → ∀ body, p.2.payload = .text id body →
      m.Remembers now peer id qs) :
    ((Ingest.deliver x hash now ps { model := m }).acks peer).count id ≤
      if id ∈ m.dedupSet peer then 0 else 1 := by
  induction ps using List.reverseRecOn with
  | nil => simp [Ingest.deliver, Ingest.acks]
  | append_singleton ps p ih =>
    have ih := ih fun qs q hq => h qs q (hq.trans (List.prefix_append ps [p]))
    rw [Ingest.deliver, List.foldl_append, List.foldl_cons, List.foldl_nil]
    change (((Ingest.deliver x hash now ps { model := m }).payload x hash now p.1 p.2).acks peer).count
      id ≤ _
    obtain ⟨i,body,hpeer,htext,-,-,hfiled⟩ | hun := Ingest.payload_texts x hash now p
      (Ingest.deliver x hash now ps { model := m }) peer
    · rw [hfiled.acks, List.count_append]
      by_cases hi : i = id
      · subst hi
        -- It is new to the dedup set, which would have it from before or from this page.
        have hnot := mt ((h ps p List.prefix_rfl hpeer body htext).deliver x hash) hfiled.fresh
        rw [not_or] at hnot
        rw [if_neg hnot.1, List.count_eq_zero.mpr hnot.2]
        simp
      · have hother : List.count id [i] = 0 := List.count_eq_zero.mpr (by simpa using Ne.symm hi)
        dsimp only
        rw [hother]
        exact ih
    · rw [hun.acks]
      exact ih

theorem exists_prefix_of_mem_textIds {peer id : String} {ps : List (String × ParsedPayload)}
    (h : id ∈ textIds peer ps) :
    ∃ qs p body, qs ++ [p] <+: ps ∧ p.1 = peer ∧ p.2.payload = .text id body := by
  obtain ⟨p,hp,htext⟩ := List.mem_filterMap.mp h
  obtain ⟨qs,rs,rfl⟩ := List.append_of_mem hp
  split at htext
  · rename_i i body hpayload
    obtain ⟨hpeer,hid⟩ := Option.ite_none_right_eq_some.mp htext
    obtain rfl := Option.some.inj hid
    exact ⟨qs,p,body,⟨rs,by simp⟩,hpeer,hpayload⟩
  · simp at htext

end Skrepka.Client
