import Skrepka.Relay.Evictions

/-! Batches of messages: when all of a batch that is accepted is in the mailbox at its commit. -/
namespace Skrepka.Relay
open Sequenced Cutoff

/-- The message that a row holds. -/
def Message.envelope (m : Message) : Envelope := ⟨m.toKey,m.encryptedBlob⟩

namespace Mailbox
variable (cfg : Config)

/-- The messages of a batch that are not stored. -/
def news (batch : List Envelope) (msgs : List Message) : List Envelope :=
  (batch.filter fun e => !stored e.toKey e.encryptedBlob msgs).dedup

/-- The recipients of the rows from that of a message on, if it has one. -/
def ahead (e : Envelope) (msgs : List Message) : List Text :=
  ((msgs.find? fun m => m.envelope = e).map fun m => since m.receivedAt msgs).getD []

/-- There is room for every message of a batch, be it stored or not, with the rows from it on and all that
the batch brings. -/
def Fits (batch : List Envelope) (msgs : List Message) : Prop :=
  ∀ e ∈ batch, Stays cfg e.toKey (ahead e msgs) ((news batch msgs).map Envelope.toKey)

instance (batch : List Envelope) (msgs : List Message) : Decidable (Fits cfg batch msgs) :=
  inferInstanceAs (Decidable (∀ e ∈ batch, _))

/-- Messages are filed one after another. -/
def filed (t : ℤ) (batch : List Envelope) (s : Mailbox) : Mailbox :=
  (appends t batch).foldl (Mailbox.apply cfg) s

/-- No message of a batch loses a row while the batch is filed. -/
def Lossless (t : ℤ) (batch : List Envelope) (s : Mailbox) : Prop :=
  ∀ before after r, batch = before ++ after → r ∈ (filed cfg t before s).messages → r.envelope ∈ batch →
    r ∈ (filed cfg t batch s).messages

/-- In a batch of two parts all of the first is stored already, and the second brings new messages once. -/
structure NewLast (old new : List Envelope) (msgs : List Message) : Prop where
  known : ∀ e ∈ old, stored e.toKey e.encryptedBlob msgs = true
  fresh : ∀ e ∈ new, stored e.toKey e.encryptedBlob msgs = false
  once : new.Nodup

variable {cfg}

theorem stored_iff {e : Envelope} {msgs : List Message} :
    stored e.toKey e.encryptedBlob msgs = true ↔ ∃ m ∈ msgs, m.envelope = e := by
  obtain ⟨toKey,blob⟩ := e
  simp [stored, Message.envelope]

theorem stored_append_self (toKey blob : Text) (t : ℤ) (s : Mailbox) :
    stored toKey blob (s.appendMessage cfg toKey blob t).messages = true := by
  cases h : stored toKey blob s.messages with
  | true => rwa [appendMessage_of_stored cfg t h]
  | false =>
    refine List.any_eq_true.mpr ⟨newRow toKey blob t s,?_,by simp [newRow]⟩
    rw [appendMessage, if_neg (by simp [h]), union]
    by_cases hold : newRow toKey blob t s ∈ globallyCapped cfg (kept cfg toKey s.messages)
    · exact List.mem_append_left _ hold
    · exact List.mem_append_right _ (by simp [hold])

theorem mem_news {batch : List Envelope} {msgs : List Message} {e : Envelope} :
    e ∈ news batch msgs ↔ e ∈ batch ∧ stored e.toKey e.encryptedBlob msgs = false := by
  simp [news]

theorem news_nodup (batch : List Envelope) (msgs : List Message) : (news batch msgs).Nodup :=
  List.nodup_dedup _

/-- Rows for one message are one row. -/
theorem Wf.eq_of_envelope {s : Mailbox} (hs : s.Wf) {r r' : Message} (hr : r ∈ s.messages)
    (hr' : r' ∈ s.messages) (h : r.envelope = r'.envelope) : r = r' := by
  refine List.inj_on_of_nodup_map hs.blobs hr hr' ?_
  simp only [Message.envelope, Envelope.mk.injEq] at h
  exact Prod.ext h.1 h.2

theorem ahead_of_mem {s : Mailbox} (hs : s.Wf) {r : Message} (hr : r ∈ s.messages) :
    ahead r.envelope s.messages = since r.receivedAt s.messages := by
  obtain ⟨r',hfind⟩ : ∃ r', (s.messages.find? fun m => m.envelope = r.envelope) = some r' :=
    Option.isSome_iff_exists.mp (List.find?_isSome.mpr ⟨r,hr,by simp⟩)
  have henv : r'.envelope = r.envelope := by simpa using List.find?_some hfind
  rw [ahead, hfind, hs.eq_of_envelope (List.mem_of_find?_eq_some hfind) hr henv]
  rfl

theorem ahead_of_new {e : Envelope} {msgs : List Message}
    (h : stored e.toKey e.encryptedBlob msgs = false) : ahead e msgs = [] := by
  have hnone : (msgs.find? fun m => m.envelope = e) = none := by
    refine List.find?_eq_none.mpr fun m hm henv => ?_
    have hstored := stored_iff.mpr ⟨m,hm,of_decide_eq_true henv⟩
    simp [h] at hstored
  rw [ahead, hnone]
  rfl

@[simp] theorem filed_nil (t : ℤ) (s : Mailbox) : filed cfg t [] s = s := rfl

theorem filed_cons (t : ℤ) (e : Envelope) (batch : List Envelope) (s : Mailbox) :
    filed cfg t (e :: batch) s = filed cfg t batch (s.appendMessage cfg e.toKey e.encryptedBlob t) := rfl

theorem filed_append (t : ℤ) (before after : List Envelope) (s : Mailbox) :
    filed cfg t (before ++ after) s = filed cfg t after (filed cfg t before s) := by
  rw [filed, appends, List.map_append, List.foldl_append]
  rfl

theorem Wf.filed {s : Mailbox} (hs : s.Wf) (t : ℤ) (batch : List Envelope) :
    (Mailbox.filed cfg t batch s).Wf := hs.foldl cfg _

theorem Held.filed {s : Mailbox} (hs : s.Wf) (h : Held cfg s.messages) (t : ℤ) (batch : List Envelope) :
    Held cfg (Mailbox.filed cfg t batch s).messages := h.foldl hs _

/-- What is stored is filed without a trace. -/
theorem filed_of_stored {t : ℤ} {batch : List Envelope} {s : Mailbox}
    (h : ∀ e ∈ batch, stored e.toKey e.encryptedBlob s.messages = true) : filed cfg t batch s = s := by
  induction batch with
  | nil => rfl
  | cons e batch ih =>
    rw [filed_cons, appendMessage_of_stored cfg t (h e List.mem_cons_self)]
    exact ih fun m hm => h m (List.mem_cons_of_mem e hm)

variable (cfg) in
/-- The rows that a batch adds. -/
def adds (t : ℤ) (batch : List Envelope) (s : Mailbox) : List Message := allAdded cfg s (appends t batch)

theorem adds_cons (t : ℤ) (e : Envelope) (batch : List Envelope) (s : Mailbox) :
    adds cfg t (e :: batch) s =
      (if stored e.toKey e.encryptedBlob s.messages then [] else [newRow e.toKey e.encryptedBlob t s]) ++
        adds cfg t batch (s.appendMessage cfg e.toKey e.encryptedBlob t) := by
  change (added s _).toList ++ _ = _
  simp only [added]
  split <;> rfl

theorem adds_append (t : ℤ) (before after : List Envelope) (s : Mailbox) :
    adds cfg t (before ++ after) s = adds cfg t before s ++ adds cfg t after (filed cfg t before s) := by
  induction before generalizing s with
  | nil => rfl
  | cons e before ih => rw [List.cons_append, adds_cons, ih, adds_cons, List.append_assoc, filed_cons]

/-- Every row that a batch adds is that of one of its messages, which was not stored when its turn came. -/
theorem adds_split {t : ℤ} {batch : List Envelope} {s : Mailbox} {front back : List Message} {r : Message}
    (h : adds cfg t batch s = front ++ r :: back) : ∃ before e after, batch = before ++ e :: after ∧
      stored e.toKey e.encryptedBlob (filed cfg t before s).messages = false ∧
      r = newRow e.toKey e.encryptedBlob t (filed cfg t before s) ∧ adds cfg t before s = front ∧
      adds cfg t after (filed cfg t (before ++ [e]) s) = back := by
  induction batch generalizing s front with
  | nil => exact absurd h (by simp [adds, appends, allAdded])
  | cons e batch ih =>
    rw [adds_cons] at h
    cases hstored : stored e.toKey e.encryptedBlob s.messages with
    | true =>
      rw [hstored, if_pos rfl, List.nil_append] at h
      obtain ⟨before,e',after,rfl,hnew,hr,hfront,hback⟩ := ih h
      refine ⟨e :: before,e',after,rfl,hnew,hr,?_,hback⟩
      rw [adds_cons, hstored, if_pos rfl, List.nil_append, hfront]
    | false =>
      rw [hstored, if_neg (by simp), List.singleton_append] at h
      cases front with
      | nil =>
        obtain ⟨rfl,hback⟩ := List.cons.inj h
        exact ⟨[],e,batch,rfl,hstored,rfl,rfl,hback⟩
      | cons a front =>
        obtain ⟨rfl,hrest⟩ := List.cons.inj h
        obtain ⟨before,e',after,rfl,hnew,hr,hfront,hback⟩ := @ih _ front hrest
        refine ⟨e :: before,e',after,rfl,hnew,hr,?_,hback⟩
        rw [adds_cons, hstored, if_neg (by simp), List.singleton_append]
        exact congrArg _ hfront

theorem envelope_of_adds {t : ℤ} {batch : List Envelope} {s : Mailbox} {r : Message}
    (h : r ∈ adds cfg t batch s) : r.envelope ∈ batch := by
  obtain ⟨front,back,hsplit⟩ := List.append_of_mem h
  obtain ⟨before,e,after,rfl,-,rfl,-⟩ := adds_split hsplit
  exact List.mem_append_right _ List.mem_cons_self

/-- A message of a batch adds one row at most. -/
theorem adds_sublist (t : ℤ) (batch : List Envelope) (s : Mailbox) :
    ((adds cfg t batch s).map Message.envelope).Sublist batch := by
  induction batch generalizing s with
  | nil => exact List.nil_sublist _
  | cons e batch ih =>
    rw [adds_cons]
    split
    · exact (ih _).cons e
    · exact (ih _).cons_cons e

/-- Every message that is not stored before a batch is added by it. -/
theorem news_adds {s : Mailbox} (hs : s.Wf) (t : ℤ) {batch : List Envelope} {e : Envelope}
    (h : e ∈ news batch s.messages) : e ∈ (adds cfg t batch s).map Message.envelope := by
  obtain ⟨hbatch,hnew⟩ := mem_news.mp h
  obtain ⟨before,after,rfl⟩ := List.append_of_mem hbatch
  rw [List.append_cons, adds_append, List.map_append]
  refine List.mem_append_left _ ?_
  have hstored : stored e.toKey e.encryptedBlob (filed cfg t (before ++ [e]) s).messages = true := by
    rw [filed_append]
    exact stored_append_self _ _ _ _
  obtain ⟨r,hr,rfl⟩ := stored_iff.mp hstored
  obtain hold | hadded := rows_appends hs t (before ++ [r.envelope]) hr
  · have hthere := stored_iff.mpr ⟨r,hold,rfl⟩
    rw [hnew] at hthere
    exact absurd hthere Bool.false_ne_true
  · exact List.mem_map_of_mem hadded

theorem count_map_le {α β : Type} [BEq β] (f : α → β) {xs ys : List α} (h : xs.Subperm ys) (b : β) :
    (xs.map f).count b ≤ (ys.map f).count b := by
  obtain ⟨l,hperm,hsub⟩ := h
  rw [← (hperm.map f).count_eq]
  exact (hsub.map f).count_le b

theorem news_le_adds {s : Mailbox} (hs : s.Wf) (t : ℤ) (batch : List Envelope) (key : Text) :
    ((news batch s.messages).map Envelope.toKey).count key ≤
      ((adds cfg t batch s).map Message.toKey).count key := by
  have hsub : (news batch s.messages).Subperm ((adds cfg t batch s).map Message.envelope) :=
    (news_nodup _ _).subperm fun e he => news_adds hs t he
  have h := count_map_le Envelope.toKey hsub key
  rwa [List.map_map] at h

theorem Stays.own {key : Text} {added : List Text} (h : Stays cfg key [key] added) :
    Stays cfg key [] (key :: added) := by
  obtain rfl | h := h
  · have hroom := @one_le_roomPerRecipient cfg
    refine .inr ⟨by simpa using hroom,?_⟩
    rw [List.nil_append, left_of_count_le fun k => (List.count_le_length.trans (by simpa using hroom))]
    simp [roomTotal]
  · exact .inr h

/-- A row that a batch adds outlasts it if there is room for what the rest of the batch adds. -/
theorem added_outlasts_iff {s : Mailbox} (hs : s.Wf) (hheld : Held cfg s.messages) {t : ℤ}
    {before after : List Envelope} {e : Envelope}
    (h : stored e.toKey e.encryptedBlob (filed cfg t before s).messages = false) :
    newRow e.toKey e.encryptedBlob t (filed cfg t before s) ∈
        (filed cfg t (before ++ e :: after) s).messages ↔
      Stays cfg e.toKey [e.toKey] ((adds cfg t after (filed cfg t (before ++ [e]) s)).map Message.toKey) := by
  have hwf : (Mailbox.filed cfg t before s).Wf := hs.filed t before
  have hnow : filed cfg t (before ++ [e]) s =
      (filed cfg t before s).appendMessage cfg e.toKey e.encryptedBlob t := by rw [filed_append]; rfl
  have hmsgs := appendMessage_messages cfg (t := t) hwf h
  have hmem : newRow e.toKey e.encryptedBlob t (filed cfg t before s) ∈
      (filed cfg t (before ++ [e]) s).messages := by
    rw [hnow, hmsgs]
    simp
  -- It is the last row so far.
  have hsince : since (newRow e.toKey e.encryptedBlob t (filed cfg t before s)).receivedAt
      (filed cfg t (before ++ [e]) s).messages = [e.toKey] := by
    have hnone : (globallyCapped cfg (kept cfg e.toKey (filed cfg t before s).messages)).filter
        (fun m => (newRow e.toKey e.encryptedBlob t (filed cfg t before s)).receivedAt ≤ m.receivedAt) = [] := by
      refine List.filter_eq_nil_iff.mpr fun m hm => ?_
      have := hwf.issued m ((survivors_subperm cfg e.toKey _).subset hm)
      have := newRow_fresh e.toKey e.encryptedBlob t (filed cfg t before s)
      rw [decide_eq_true_eq]
      omega
    rw [hnow, hmsgs, since, List.filter_append, hnone, List.nil_append, List.filter_singleton,
      decide_eq_true le_rfl]
    rfl
  rw [List.append_cons, filed_append, ← hsince]
  exact outlasts_iff (hs.filed t _) (hheld.filed hs t _) t after hmem

/-- A batch that fits and adds what is new of it once costs none of its messages a row. -/
theorem Fits.lossless {s : Mailbox} (hs : s.Wf) (hheld : Held cfg s.messages) {t : ℤ} {batch : List Envelope}
    (h : Fits cfg batch s.messages)
    (hperm : ((adds cfg t batch s).map Message.envelope).Perm (news batch s.messages)) :
    Lossless cfg t batch s := by
  have hkeys : ((adds cfg t batch s).map Message.toKey).Perm
      ((news batch s.messages).map Envelope.toKey) := by
    have := hperm.map Envelope.toKey
    rwa [List.map_map] at this
  intro before after r hbatch hr he
  obtain hold | hadded := rows_appends hs t before hr
  · have hfits := h r.envelope he
    rw [ahead_of_mem hs hold] at hfits
    refine (outlasts_iff hs hheld t batch hold).mpr (hfits.of_count (fun k => ?_) fun hnil => ?_)
    · exact ((List.Perm.append_left _ hkeys).count_eq k).le
    · exact List.Perm.eq_nil (hnil ▸ hkeys)
  · obtain ⟨front,back,hsplit⟩ := List.append_of_mem hadded
    have hall : adds cfg t batch s = front ++ r :: (back ++ adds cfg t after (filed cfg t before s)) := by
      rw [hbatch, adds_append]
      change allAdded cfg s (appends t before) ++ _ = _
      rw [hsplit, List.append_assoc, List.cons_append]
    have hnews := hperm.mem_iff.mp (List.mem_map_of_mem (hall ▸ List.mem_append_right _ List.mem_cons_self))
    obtain ⟨before',e,after',hbatch',hnew,rfl,-,hback⟩ := adds_split hall
    have hfits := h _ he
    rw [ahead_of_new (mem_news.mp hnews).2] at hfits
    rw [hbatch']
    refine (added_outlasts_iff hs hheld hnew).mpr (hfits.of_count (fun k => ?_) fun hnil => ?_)
    · rw [List.nil_append, ← hkeys.count_eq, hall, hback]
      generalize back ++ adds cfg t after (filed cfg t before s) = rest
      rw [List.map_append, List.map_cons]
      exact (List.sublist_append_right (front.map Message.toKey) (e.toKey :: _)).count_le k
    · rw [List.map_eq_nil_iff] at hnil
      rw [hnil] at hnews
      exact absurd hnews List.not_mem_nil

theorem Fits.mono {batch more : List Envelope} {msgs : List Message} (h : Fits cfg (batch ++ more) msgs) :
    Fits cfg batch msgs := by
  have hsub : (news batch msgs).Subperm (news (batch ++ more) msgs) := by
    refine (news_nodup _ _).subperm fun e he => ?_
    obtain ⟨hbatch,hnew⟩ := mem_news.mp he
    exact mem_news.mpr ⟨List.mem_append_left _ hbatch,hnew⟩
  intro e he
  refine (h e (List.mem_append_left _ he)).of_count (fun k => ?_) fun hnil => ?_
  · rw [List.count_append, List.count_append]
    exact Nat.add_le_add_left (count_map_le Envelope.toKey hsub k) _
  · rw [List.map_eq_nil_iff] at hnil ⊢
    exact List.subperm_nil.mp (hnil ▸ hsub)

theorem Fits.perm {order batch : List Envelope} {msgs : List Message} (h : Fits cfg batch msgs)
    (horder : order.Perm batch) : Fits cfg order msgs := by
  have hnews : (news order msgs).Perm (news batch msgs) := by
    refine (List.perm_ext_iff_of_nodup (news_nodup _ _) (news_nodup _ _)).mpr fun e => ?_
    rw [mem_news, mem_news, horder.mem_iff]
  intro e he
  refine (h e (horder.mem_iff.mp he)).of_count (fun k => ?_) fun hnil => ?_
  · exact (((hnews.map Envelope.toKey).append_left _).count_eq k).le
  · exact List.Perm.eq_nil (hnil ▸ hnews.map Envelope.toKey)

/-- A batch that fits adds what is new of it once, and is stored as a whole. -/
theorem Fits.adds_perm {s : Mailbox} (hs : s.Wf) (hheld : Held cfg s.messages) {t : ℤ}
    {batch : List Envelope} (h : Fits cfg batch s.messages) :
    ((adds cfg t batch s).map Message.envelope).Perm (news batch s.messages) ∧
      ∀ e ∈ batch, stored e.toKey e.encryptedBlob (filed cfg t batch s).messages = true := by
  induction batch using List.reverseRecOn with
  | nil => exact ⟨List.Perm.refl _,by simp⟩
  | append_singleton batch e ih =>
    obtain ⟨hperm,hstored⟩ := ih h.mono
    have hnow : filed cfg t (batch ++ [e]) s =
        (filed cfg t batch s).appendMessage cfg e.toKey e.encryptedBlob t := by rw [filed_append]; rfl
    have hnews : ∀ e', e' ∈ news (batch ++ [e]) s.messages ↔ e' ∈ news batch s.messages ∨
        e' = e ∧ stored e.toKey e.encryptedBlob s.messages = false := by
      intro e'
      simp only [mem_news, List.mem_append, List.mem_singleton]
      constructor
      · rintro ⟨hbatch | rfl,hnew⟩
        · exact .inl ⟨hbatch,hnew⟩
        · exact .inr ⟨rfl,hnew⟩
      · rintro (⟨hbatch,hnew⟩ | ⟨rfl,hnew⟩)
        · exact ⟨.inl hbatch,hnew⟩
        · exact ⟨.inr rfl,hnew⟩
    have hadds : adds cfg t (batch ++ [e]) s = adds cfg t batch s ++
        if stored e.toKey e.encryptedBlob (filed cfg t batch s).messages then []
        else [newRow e.toKey e.encryptedBlob t (filed cfg t batch s)] := by
      rw [adds_append, adds_cons]
      exact congrArg _ (List.append_nil _)
    have hnext : ((adds cfg t (batch ++ [e]) s).map Message.envelope).Perm
        (news (batch ++ [e]) s.messages) := by
      cases hthere : stored e.toKey e.encryptedBlob (filed cfg t batch s).messages with
      | true =>
        rw [hadds, if_pos hthere, List.append_nil]
        refine hperm.trans ((List.perm_ext_iff_of_nodup (news_nodup _ _) (news_nodup _ _)).mpr
          fun e' => ((hnews e').trans (or_iff_left_of_imp ?_)).symm)
        rintro ⟨rfl,hnew⟩
        obtain ⟨r,hr,rfl⟩ := stored_iff.mp hthere
        obtain hold | hadded := rows_appends hs t batch hr
        · exact absurd (hnew.symm.trans (stored_iff.mpr ⟨r,hold,rfl⟩)) Bool.false_ne_true
        · exact hperm.mem_iff.mp (List.mem_map_of_mem hadded)
      | false =>
        have hout : e ∉ batch := fun hmem => Bool.false_ne_true (hthere.symm.trans (hstored e hmem))
        have hnew : stored e.toKey e.encryptedBlob s.messages = false := by
          refine Bool.eq_false_iff.mpr fun hold => ?_
          obtain ⟨r,hr,rfl⟩ := stored_iff.mp hold
          have hfits := h r.envelope (List.mem_append_right _ (List.mem_singleton_self _))
          rw [ahead_of_mem hs hr] at hfits
          have hkeys := hperm.map Envelope.toKey
          rw [List.map_map] at hkeys
          have hsub : (news batch s.messages).Subperm (news (batch ++ [r.envelope]) s.messages) :=
            (news_nodup _ _).subperm fun e' he' => (hnews e').mpr (.inl he')
          have hstays : r ∈ (filed cfg t batch s).messages := by
            refine (outlasts_iff hs hheld t batch hr).mpr (hfits.of_count (fun k => ?_) fun hnil => ?_)
            · rw [List.count_append, List.count_append]
              exact Nat.add_le_add_left ((hkeys.count_eq k).trans_le
                (count_map_le Envelope.toKey hsub k)) _
            · rw [List.map_eq_nil_iff] at hnil
              have hnone : news batch s.messages = [] := List.subperm_nil.mp (hnil ▸ hsub)
              exact List.Perm.eq_nil (List.map_nil (f := Envelope.toKey) ▸ hnone ▸ hkeys)
          exact Bool.false_ne_true (hthere.symm.trans (stored_iff.mpr ⟨r,hstays,rfl⟩))
        rw [hadds, if_neg (by simp [hthere]), List.map_append, List.map_singleton]
        refine (hperm.append_right _).trans ((List.perm_ext_iff_of_nodup ?_ (news_nodup _ _)).mpr fun e' => ?_)
        · exact (news_nodup _ _).append (List.nodup_singleton _)
            (by simpa [newRow, Message.envelope] using fun hmem => hout (mem_news.mp hmem).1)
        · rw [hnews, List.mem_append, List.mem_singleton]
          exact or_congr_right ⟨fun heq => ⟨heq,hnew⟩,fun h => h.1⟩
    refine ⟨hnext,fun e' he' => ?_⟩
    have hlossless := h.lossless hs hheld hnext
    obtain he' | he' := List.mem_append.mp he'
    · obtain ⟨r,hr,rfl⟩ := stored_iff.mp (hstored e' he')
      exact stored_iff.mpr ⟨r,hlossless batch [e] r rfl hr (List.mem_append_left _ he'),rfl⟩
    · rw [List.mem_singleton.mp he', hnow]
      exact stored_append_self _ _ _ _

theorem nil_of_news_le {s : Mailbox} (hs : s.Wf) {t : ℤ} {batch : List Envelope}
    (h : (adds cfg t batch s).map Message.toKey = []) :
    (news batch s.messages).map Envelope.toKey = [] := by
  rw [List.map_eq_nil_iff] at h ⊢
  refine List.eq_nil_iff_forall_not_mem.mpr fun e he => ?_
  have hadded : e ∈ (adds cfg t batch s).map Message.envelope := news_adds hs t he
  simp [h] at hadded

/-- What a batch adds and keeps has room for what the batch adds from then on. -/
theorem Lossless.stays {s : Mailbox} (hs : s.Wf) (hheld : Held cfg s.messages) {t : ℤ}
    {batch : List Envelope} (h : Lossless cfg t batch s) {front back : List Message} {r : Message}
    (hsplit : adds cfg t batch s = front ++ r :: back) :
    Stays cfg r.toKey [] (r.toKey :: back.map Message.toKey) := by
  obtain ⟨before,e,after,hbatch,hnew,rfl,-,rfl⟩ := adds_split hsplit
  have hadded : newRow e.toKey e.encryptedBlob t (filed cfg t before s) ∈
      (filed cfg t (before ++ e :: []) s).messages :=
    (added_outlasts_iff hs hheld hnew).mpr (.inl rfl)
  have hkept := h (before ++ [e]) after _ (by simp [hbatch]) hadded
    (hbatch ▸ List.mem_append_right _ List.mem_cons_self)
  rw [hbatch] at hkept
  exact ((added_outlasts_iff hs hheld hnew).mp hkept).own

theorem Lossless.fits {s : Mailbox} (hs : s.Wf) (hheld : Held cfg s.messages) {t : ℤ} {batch : List Envelope}
    (h : Lossless cfg t batch s) : Fits cfg batch s.messages := by
  intro e he
  have hle : ∀ key, ((news batch s.messages).map Envelope.toKey).count key ≤
      ((adds cfg t batch s).map Message.toKey).count key := news_le_adds hs t batch
  cases hstored : stored e.toKey e.encryptedBlob s.messages with
  | true =>
    obtain ⟨r,hr,rfl⟩ := stored_iff.mp hstored
    rw [ahead_of_mem hs hr]
    refine ((outlasts_iff hs hheld t batch hr).mp (h [] batch r rfl hr he)).of_count (fun k => ?_)
      (nil_of_news_le hs)
    rw [List.count_append, List.count_append]
    exact Nat.add_le_add_left (hle k) _
  | false =>
    have hadded : e ∈ (adds cfg t batch s).map Message.envelope :=
      news_adds hs t (mem_news.mpr ⟨he,hstored⟩)
    obtain ⟨r₀,hr₀,hr₀e⟩ := List.mem_map.mp hadded
    have hkey : e.toKey ∈ (adds cfg t batch s).map Message.toKey := by
      rw [← hr₀e]
      exact List.mem_map_of_mem (f := Message.toKey) hr₀
    rw [ahead_of_new hstored]
    refine .inr ⟨?_,?_⟩
    · -- The first row that is added for this recipient has all others behind it.
      obtain ⟨_,_,hsplit,hfirst⟩ := List.eq_append_cons_of_mem hkey
      obtain ⟨front,rest,hadds,rfl,hrest⟩ := List.map_eq_append_iff.mp hsplit
      obtain ⟨r,back,rfl,hr,rfl⟩ := List.map_eq_cons_iff.mp hrest
      obtain ⟨hown,-⟩ := (h.stays hs hheld hadds).resolve_left (List.cons_ne_nil _ _)
      rw [List.nil_append]
      rw [List.nil_append, hr] at hown
      refine (hle e.toKey).trans ?_
      rw [hadds, List.map_append, List.count_append, List.count_eq_zero_of_not_mem hfirst, Nat.zero_add,
        List.map_cons, hr]
      exact hown
    · cases hadds : adds cfg t batch s with
      | nil => simp [hadds] at hkey
      | cons r back =>
        have hsplit : adds cfg t batch s = [] ++ r :: back := hadds
        obtain ⟨-,hall⟩ := (h.stays hs hheld hsplit).resolve_left (List.cons_ne_nil _ _)
        refine (left_mono fun k => (min_le_right _ _).trans ?_).trans hall
        rw [List.nil_append, List.nil_append, ← List.map_cons, ← hadds]
        exact hle k

/-- Where a batch is stored as a whole in whatever order its messages are filed, it fits. -/
theorem fits_of_orders {s : Mailbox} (hs : s.Wf) (hheld : Held cfg s.messages) {t : ℤ} {batch : List Envelope}
    (h : ∀ order : List Envelope, order.Perm batch → ∀ e ∈ batch,
      stored e.toKey e.encryptedBlob (filed cfg t order s).messages = true) :
    Fits cfg batch s.messages := by
  have hle : ∀ order : List Envelope, order.Perm batch → ∀ k,
      ((news batch s.messages).map Envelope.toKey).count k ≤
        ((adds cfg t order s).map Message.toKey).count k := by
    intro order horder k
    have hsame : (news batch s.messages).Perm (news order s.messages) := by
      refine (List.perm_ext_iff_of_nodup (news_nodup _ _) (news_nodup _ _)).mpr fun e => ?_
      rw [mem_news, mem_news, horder.mem_iff]
    rw [(hsame.map Envelope.toKey).count_eq]
    exact news_le_adds hs t order k
  intro e he
  cases hstored : stored e.toKey e.encryptedBlob s.messages with
  | true =>
    -- What is stored comes first, and then what is new pushes it out.
    obtain ⟨r,hr,rfl⟩ := stored_iff.mp hstored
    let old := batch.filter fun e => stored e.toKey e.encryptedBlob s.messages
    let new := batch.filter fun e => !stored e.toKey e.encryptedBlob s.messages
    have horder : (old ++ new).Perm batch := List.filter_append_perm _ _
    have hfiled : filed cfg t old s = s := filed_of_stored fun e he => (List.mem_filter.mp he).2
    obtain ⟨r',hr',henv⟩ := stored_iff.mp (h _ horder r.envelope he)
    rw [filed_append, hfiled] at hr'
    obtain hold | hadded := rows_appends hs t new hr'
    · obtain rfl := hs.eq_of_envelope hold hr henv
      have hstays := (outlasts_iff hs hheld t (old ++ new) hr).mp
        (show r' ∈ (filed cfg t (old ++ new) s).messages by rwa [filed_append, hfiled])
      rw [ahead_of_mem hs hr]
      refine hstays.of_count (fun k => ?_) fun hnil => ?_
      · rw [List.count_append, List.count_append]
        exact Nat.add_le_add_left (hle _ horder k) _
      · refine List.eq_nil_iff_forall_not_mem.mpr fun k hk => ?_
        have := (List.count_pos_iff.mpr hk).trans_le (hle _ horder k)
        change 0 < ((allAdded cfg s (appends t (old ++ new))).map Message.toKey).count k at this
        rw [hnil] at this
        exact absurd this (by simp)
    · have hnew := (List.mem_filter.mp (henv ▸ envelope_of_adds hadded)).2
      simp [hstored] at hnew
  | false =>
    -- It comes first, and then the others push it out.
    let others := batch.filter fun e' => ¬ e' = e
    obtain ⟨same,hsame⟩ : ∃ same, batch.filter (fun e' => e' = e) = e :: same ∧ ∀ e' ∈ same, e' = e := by
      cases hfilter : batch.filter fun e' => e' = e with
      | nil => exact absurd (decide_eq_true rfl) (List.filter_eq_nil_iff.mp hfilter e he)
      | cons a same =>
        have hall : ∀ e' ∈ a :: same, e' = e := by
          intro e' he'
          rw [← hfilter] at he'
          exact of_decide_eq_true (List.mem_filter.mp he').2
        obtain rfl := hall a List.mem_cons_self
        exact ⟨same,rfl,fun e' he' => hall e' (List.mem_cons_of_mem _ he')⟩
    have horder : (e :: (same ++ others)).Perm batch := by
      have := List.filter_append_perm (fun e' => decide (e' = e)) batch
      rw [hsame.1] at this
      simpa [others] using this
    let row := newRow e.toKey e.encryptedBlob t s
    let s' := s.appendMessage cfg e.toKey e.encryptedBlob t
    have hs' : s'.Wf := hs.append cfg e.toKey e.encryptedBlob t
    have hrow : row ∈ s'.messages := by
      change row ∈ (s.appendMessage cfg e.toKey e.encryptedBlob t).messages
      rw [appendMessage_messages cfg hs hstored]
      simp [row]
    have hfiled : filed cfg t same s' = s' := filed_of_stored fun e' he' => by
      rw [hsame.2 e' he']
      exact stored_append_self _ _ _ _
    obtain ⟨r,hr,henv⟩ := stored_iff.mp (h _ horder e he)
    rw [filed_cons, filed_append, hfiled] at hr
    obtain hold | hadded := rows_appends hs' t others hr
    · obtain rfl : r = row := hs'.eq_of_envelope hold hrow (henv.trans rfl)
      have hkept : row ∈ (filed cfg t ([] ++ e :: (same ++ others)) s).messages := by
        rwa [List.nil_append, filed_cons, filed_append, hfiled]
      have hstays := (added_outlasts_iff hs hheld hstored).mp hkept
      rw [ahead_of_new hstored]
      refine hstays.own.of_count (fun k => ?_) fun hnil => absurd hnil (List.cons_ne_nil _ _)
      have hcount := hle _ horder k
      rw [adds_cons, hstored, if_neg (by simp), List.singleton_append, List.map_cons] at hcount
      exact hcount
    · have hother := (List.mem_filter.mp (henv ▸ envelope_of_adds hadded)).2
      simp at hother

/-- Where the new messages of a batch come last and once, one that is stored in the end has kept its row. -/
theorem NewLast.lossless {s : Mailbox} (hs : s.Wf) {t : ℤ} {old new : List Envelope}
    (h : NewLast old new s.messages)
    (hstored : ∀ e ∈ old ++ new, stored e.toKey e.encryptedBlob (filed cfg t (old ++ new) s).messages = true) :
    Lossless cfg t (old ++ new) s := by
  have hfiled : filed cfg t old s = s := filed_of_stored h.known
  have hnone : adds cfg t old s = [] := by
    refine List.eq_nil_iff_forall_not_mem.mpr fun r hr => ?_
    obtain ⟨front,back,hsplit⟩ := List.append_of_mem hr
    obtain ⟨before,e,after,rfl,hnew,-⟩ := adds_split hsplit
    rw [filed_of_stored fun e he => h.known e (List.mem_append_left _ he)] at hnew
    exact Bool.false_ne_true (hnew.symm.trans (h.known e (List.mem_append_right _ List.mem_cons_self)))
  have hsub : ((adds cfg t (old ++ new) s).map Message.envelope).Sublist new := by
    rw [adds_append, hnone, hfiled, List.nil_append]
    exact adds_sublist t new s
  have hfresh : ∀ r ∈ adds cfg t (old ++ new) s, ∀ r' ∈ s.messages, r.envelope ≠ r'.envelope := by
    intro r hr r' hr' henv
    have hnew := h.fresh _ (hsub.subset (List.mem_map_of_mem hr))
    exact Bool.false_ne_true (hnew.symm.trans (stored_iff.mpr ⟨r',hr',henv.symm⟩))
  intro before after r hbatch hr he
  have hr := (rows_appends hs t before hr).imp_right fun hadded =>
    show r ∈ adds cfg t (old ++ new) s by
      rw [hbatch, adds_append]
      exact List.mem_append_left _ hadded
  obtain ⟨r',hr',henv⟩ := stored_iff.mp (hstored _ he)
  obtain hold | hadded := hr <;> obtain hold' | hadded' := rows_appends hs t (old ++ new) hr'
  · rwa [hs.eq_of_envelope hold hold' henv.symm]
  · exact absurd henv (hfresh r' hadded' r hold)
  · exact absurd henv.symm (hfresh r hadded r' hold')
  · rwa [List.inj_on_of_nodup_map (h.once.sublist hsub) hadded hadded' henv.symm]

end Mailbox

variable {cfg : Config}

theorem held_run {txns : List Txn} {s : State} (hrun : Lts.run (step cfg) {} txns = some s) :
    s.mail.Wf ∧ Mailbox.Held cfg s.mail.messages := by
  refine Lts.run_invariant (step cfg) (I := fun s => s.mail.Wf ∧ Mailbox.Held cfg s.mail.messages)
    ?_ ⟨Mailbox.wf_empty,fun key => Nat.zero_le _⟩ hrun
  rintro s txn s' ⟨hs,hheld⟩ hstep
  obtain rfl := Option.some.inj hstep
  rw [commit_mail]
  exact ⟨hs.foldl cfg _,hheld.foldl hs _⟩

theorem validateBatch_perm {order messages : List Envelope} (h : order.Perm messages) (senderKey : Text) :
    validateBatch cfg order senderKey = validateBatch cfg messages senderKey := by
  simp only [validateBatch, h.length_eq, h.any_eq]

/-- A batch that is refused changes nothing. One that is accepted is in the mailbox as a whole, in whatever
order it lists its messages, exactly if there is room for it; and exactly then, in the order in which it
does, none of its messages loses a row to another. Where its new messages come last and once, the order in
which it lists them is as good as any. -/
theorem sends_stored_iff {txns : List Txn} {s : State} (hrun : Lts.run (step cfg) {} txns = some s)
    (messages : List Envelope) (senderKey : Text) (t : ℤ) :
    (∀ err, validateBatch cfg messages senderKey = some err →
      handleSendMessages cfg messages senderKey t s = s) ∧
    (validateBatch cfg messages senderKey = none →
      ((∀ order : List Envelope, order.Perm messages → ∀ m ∈ messages,
          Mailbox.stored m.toKey m.encryptedBlob
            (handleSendMessages cfg order senderKey t s).mail.messages = true) ↔
        Mailbox.Fits cfg messages s.mail.messages) ∧
      (Mailbox.Lossless cfg t messages s.mail ↔ Mailbox.Fits cfg messages s.mail.messages) ∧
      ∀ old new : List Envelope, messages = old ++ new → Mailbox.NewLast old new s.mail.messages →
        ((∀ m ∈ messages, Mailbox.stored m.toKey m.encryptedBlob
            (handleSendMessages cfg messages senderKey t s).mail.messages = true) ↔
          Mailbox.Fits cfg messages s.mail.messages)) := by
  obtain ⟨hs,hheld⟩ := held_run hrun
  refine ⟨fun err herr => by simp only [handleSendMessages, herr],fun hok => ?_⟩
  have hmail : ∀ order : List Envelope, order.Perm messages →
      (handleSendMessages cfg order senderKey t s).mail.messages =
        (Mailbox.filed cfg t order s.mail).messages := by
    intro order horder
    simp only [handleSendMessages, validateBatch_perm horder, hok, sendAll_mail]
    rfl
  have hfits : Mailbox.Fits cfg messages s.mail.messages → ∀ order : List Envelope, order.Perm messages →
      ∀ m ∈ messages, Mailbox.stored m.toKey m.encryptedBlob
        (handleSendMessages cfg order senderKey t s).mail.messages = true := by
    intro h order horder m hm
    rw [hmail order horder]
    exact ((h.perm horder).adds_perm hs hheld).2 m (horder.mem_iff.mpr hm)
  refine ⟨⟨fun h => ?_,hfits⟩,⟨fun h => h.fits hs hheld,fun h => h.lossless hs hheld
    (h.adds_perm hs hheld).1⟩,fun old new hsplit hnew => ⟨fun h => ?_,fun h => hfits h _ (List.Perm.refl _)⟩⟩
  · refine Mailbox.fits_of_orders hs hheld (t := t) fun order horder e he => ?_
    rw [← hmail order horder]
    exact h order horder e he
  · rw [hmail _ (List.Perm.refl _)] at h
    subst hsplit
    exact (hnew.lossless hs h).fits hs hheld

/-- A batch that repeats a stored message, and itself, finds room. -/
theorem sends_stored_iff_batch : ∃ s,
    Lts.run (step {}) {} [.sendMessages (sampleBatch.take 1) (sampleKey 'a') 7] = some s ∧
    ∀ m ∈ sampleBatch, Mailbox.stored m.toKey m.encryptedBlob
      (handleSendMessages {} sampleBatch (sampleKey 'a') 8 s).mail.messages = true := by
  have hrun : Lts.run (step {}) {} [.sendMessages (sampleBatch.take 1) (sampleKey 'a') 7] =
      some (commit {} {} (.sendMessages (sampleBatch.take 1) (sampleKey 'a') 7)) := rfl
  have hvalid : validateBatch {} sampleBatch (sampleKey 'a') = none := by decide +kernel
  have hfits : Mailbox.Fits {} sampleBatch
      (commit {} {} (.sendMessages (sampleBatch.take 1) (sampleKey 'a') 7)).mail.messages := by
    decide +kernel
  exact ⟨_,hrun,((sends_stored_iff hrun sampleBatch (sampleKey 'a') 8).2 hvalid).1.mpr hfits sampleBatch
    (List.Perm.refl _)⟩

/-- A batch repeats a stored message and adds one, for a recipient whose mailbox is full. -/
theorem repeated_message_evicted :
    let cfg : Config := { maxMessagesPerRecipient := 1 }
    let s := handleSendMessages cfg (sampleBatch.take 1) (sampleKey 'a') 7 {}
    let batch := sampleBatch.take 2
    validateBatch cfg batch (sampleKey 'a') = none ∧
      ∃ m ∈ batch, Mailbox.stored m.toKey m.encryptedBlob s.mail.messages = true ∧
        Mailbox.stored m.toKey m.encryptedBlob
          (handleSendMessages cfg batch (sampleKey 'a') 8 s).mail.messages = false := by
  intro cfg s batch
  exact ⟨by decide +kernel,⟨sampleKey 'b',sampleBlob '1'⟩,by simp [batch, sampleBatch],
    by decide +kernel,by decide +kernel⟩

end Skrepka.Relay
