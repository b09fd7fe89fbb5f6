import Skrepka.Client.Replays

/-! Conversations are held in the order of their times and within the cap, as long as what is read for
a peer that has no conversation yet is. -/
namespace Skrepka.Client
open Rust Mvu

/-- A conversation in the order of its times, within the cap. -/
def Ordered (convo : List StoredMessage) : Prop :=
  convo.Pairwise (fun a b => a.ts ≤ b.ts) ∧ convo.length ≤ maxMessagesPerPeer

instance (convo : List StoredMessage) : Decidable (Ordered convo) := inferInstanceAs (Decidable (_ ∧ _))

def Model.Ordered (m : Model) : Prop := ∀ peer, Client.Ordered (m.convo peer)

theorem ordered_nil : Ordered [] := ⟨List.Pairwise.nil,Nat.zero_le _⟩

theorem insertSorted_sorted {convo : List StoredMessage}
    (h : convo.Pairwise fun a b => a.ts ≤ b.ts) (msg : StoredMessage) :
    (insertSorted convo msg).Pairwise fun a b => a.ts ≤ b.ts := by
  rw [insertSorted_eq]
  exact StableSort.insertAfter_sorted h msg

/-- A conversation into which messages are put one at a time, cut down to the cap after each, is the
newest part of all of them in a stable sort by time: what cutting once at the end would keep. -/
theorem filed_newest (msgs : List StoredMessage) :
    msgs.foldl (fun convo msg => trimHistory (insertSorted convo msg)) [] =
        (msgs.mergeSort fun a b => decide (a.ts ≤ b.ts)).drop (msgs.length-maxMessagesPerPeer) ∧
      msgs.foldl (fun convo msg => trimHistory (insertSorted convo msg)) [] =
        trimHistory (msgs.foldl insertSorted []) := by
  have hinsert : insertSorted = fun convo msg => StableSort.insertAfter StoredMessage.ts msg convo := by
    funext convo msg
    exact insertSorted_eq convo msg
  have hall : msgs.foldl insertSorted [] = msgs.mergeSort fun a b => decide (a.ts ≤ b.ts) := by
    rw [hinsert]
    exact (StableSort.sorts_foldl StoredMessage.ts msgs).unique
      (StableSort.sorts_mergeSort StoredMessage.ts msgs)
  have htrim : msgs.foldl (fun convo msg => trimHistory (insertSorted convo msg)) [] =
      trimHistory (msgs.foldl insertSorted []) := by
    simp only [trimHistory_eq, hinsert]
    exact StableSort.rtake_foldl StoredMessage.ts maxMessagesPerPeer msgs
  refine ⟨?_,htrim⟩
  rw [htrim, hall, trimHistory, List.length_mergeSort]

theorem trimHistory_ordered {convo : List StoredMessage}
    (h : convo.Pairwise fun a b => a.ts ≤ b.ts) : Ordered (trimHistory convo) := by
  refine ⟨h.sublist (trimHistory_sublist convo),?_⟩
  rw [trimHistory, List.length_drop]
  omega

theorem mergeHistory_ordered (existing list : List StoredMessage) :
    Ordered (mergeHistory existing list) :=
  trimHistory_ordered (@List.pairwise_insertionSort _ (fun a b : StoredMessage => a.ts ≤ b.ts) _
    ⟨fun a b => le_total a.ts b.ts⟩ ⟨fun _ _ _ => le_trans⟩ _)

theorem Ordered.file {convo : List StoredMessage} (h : Ordered convo) (msg : StoredMessage) :
    Ordered (trimHistory (insertSorted convo msg)) := trimHistory_ordered (insertSorted_sorted h.1 msg)

namespace Ingest

theorem markDelivered_ordered {convo : List StoredMessage} (h : Ordered convo) (pending : PendingAck) :
    Ordered (markDelivered pending convo) := by
  have hts : ∀ msg : StoredMessage,
      (if isAcked pending msg then { msg with delivered := true } else msg).ts = msg.ts := by
    intro msg
    split <;> rfl
  refine ⟨List.pairwise_map.mpr ?_,by simpa [markDelivered] using h.2⟩
  simpa only [hts] using h.1

theorem payload_ordered {x : Crates} {hash : HashOrder} {now : ℤ} {s : Ingest} (h : s.model.Ordered)
    (p : String × ParsedPayload) : (s.payload x hash now p.1 p.2).model.Ordered := by
  intro peer
  obtain ⟨id,body,-,-,-,-,hfiled⟩ | hun := payload_texts x hash now p s peer
  · rw [hfiled.convo]
    exact (h peer).file _
  · rw [hun.convo]
    exact h peer

theorem applyAcks_ordered {now : ℤ} {s : Ingest} (h : s.model.Ordered) :
    (s.applyAcks now).model.Ordered := by
  intro peer
  have hview : (s.applyAcks now).model.messages[peer]? = ((s.pendingAcks[peer]?).elim
      (s.model.correspondence peer)
      (fun pending => settleAcks now pending (s.model.correspondence peer))).2 :=
    congrArg Prod.snd applyAcks_correspondence
  rw [Model.convo, hview]
  cases s.pendingAcks[peer]? with
  | none => exact h peer
  | some pending =>
    simp only [Option.elim_some, settleAcks]
    split
    · exact h peer
    · have hconvo := h peer
      simp only [Model.convo, Model.correspondence] at hconvo ⊢
      cases hm : s.model.messages[peer]? with
      | none => exact ordered_nil
      | some convo =>
        rw [hm] at hconvo
        exact markDelivered_ordered hconvo pending

end Ingest

theorem ingested_ordered {x : Crates} {amb : Ambient} {page : PollResp} {id : Crypto.Identity} {m : Model}
    (h : m.Ordered) : (ingested x amb page id m).model.Ordered := by
  obtain ⟨_,_,_,_,_,hmatch⟩ := ingested_delivered x amb page id m
  have hdeliver : (Ingest.deliver x amb.hash (amb.now 1) (page.opened x id) { model := m }).model.Ordered :=
    Ingest.deliver_induction (I := fun s => s.model.Ordered)
      (fun p _ s hs => Ingest.payload_ordered hs p) h
  have hdelivered : (delivered x amb (page.opened x id) m).model.Ordered := by
    unfold delivered
    exact Ingest.applyAcks_ordered hdeliver
  rw [hmatch]
  exact hdelivered

theorem pollResult_ordered {x : Crates} {amb : Ambient} {gen : UInt64} {res : HttpResult} {m : Model}
    (h : m.Ordered) : (pollResult x amb gen res m).1.Ordered := by
  obtain ⟨_,_,_,_,_,_,hm⟩ | ⟨page,id,-,-,-,-,hm⟩ := pollResult_cases x amb gen res m
  · rw [hm]
    exact h
  · rw [hm]
    exact ingested_ordered (m := { m with polling := false, pollRetries := 0 }) h

theorem convo_insert {m m' : Model} {peer : String} {convo : List StoredMessage}
    (hm : m'.messages = m.messages.insert peer convo) (p : String) :
    m'.convo p = if peer = p then convo else m.convo p := by
  rw [Model.convo, hm, Maps.getElem?_insert]
  split <;> rfl

theorem writeText_ordered {m : Model} (h : m.Ordered) (x : Crates) (ts : ℤ) (id peer body : String) :
    (m.writeText x ts id peer body).Ordered := by
  have hmsgs : (m.writeText x ts id peer body).messages =
      m.messages.insert peer (trimHistory (insertSorted (m.convo peer) ⟨id,body,ts,true,false⟩)) := by
    simp only [Model.writeText]
    split <;> rfl
  intro p
  rw [convo_insert hmsgs]
  split
  · exact (h peer).file _
  · exact h p

theorem sendText_ordered {x : Crates} {amb : Ambient} {m : Model} (h : m.Ordered) :
    (sendText x amb m).1.Ordered := by
  simp only [sendText]
  split
  · exact h
  split
  · exact h
  split
  · exact h
  split
  · exact h
  split
  · exact h
  simp only [Upd.and_fst, Upd.emit_fst, persistMessages_fst, persistContacts_fst,
    persistOutbox_fst, Model.refused_refused]
  rw [Model.refused_eq]
  exact @writeText_ordered { m with error := none } h x (amb.now 0) amb.uuid _ (trim m.compose)

/-- A list that is read for a peer without a conversation is in order and within the cap. -/
def Event.readsOrdered (m : Model) : Event → Bool
  | .loadedMessages peer (.ok (some (.messages list))) =>
    m.messages[peer]?.isSome || decide (Ordered list)
  | _ => true

theorem loadedMessages_ordered_iff {peer : String} {res : KvData} {m : Model} (h : m.Ordered) :
    (loadedMessages peer res m).1.Ordered ↔ (Event.loadedMessages peer res).readsOrdered m = true := by
  obtain _ | _ | v := res
  · exact iff_of_true h rfl
  · exact iff_of_true h rfl
  · cases v with
    | messages list =>
      simp only [loadedMessages, parseKv, KvValue.messages?, Event.readsOrdered, Bool.or_eq_true,
        decide_eq_true_eq]
      cases hm : m.messages[peer]? with
      | none =>
        simp only [Option.isSome_none, Bool.false_eq_true, false_or]
        constructor
        · intro hord
          simpa [Model.convo] using hord peer
        · intro hlist p
          rw [convo_insert (m := m) rfl]
          split
          · exact hlist
          · exact h p
      | some existing =>
        simp only [Option.isSome_some, true_or, iff_true]
        intro p
        rw [convo_insert (m := m) rfl]
        split
        · exact mergeHistory_ordered existing list
        · exact h p
    | _ => exact iff_of_true h rfl

/-- An event leaves conversations in order exactly if it does not read one that is not. -/
theorem update_ordered_iff {x : Crates} {amb : Ambient} {e : Event} {m : Model} (h : m.Ordered) :
    (update x amb e m).1.Ordered ↔ e.readsOrdered m = true := by
  by_cases hw : Field.messages ∈ e.writes
  · cases e with
    | loadedMessages peer res => exact loadedMessages_ordered_iff h
    | sendText => exact iff_of_true (sendText_ordered h) rfl
    | pollResult gen res => exact iff_of_true (pollResult_ordered h) rfl
    | deleteContact peer =>
      refine iff_of_true (fun p => ?_) rfl
      obtain ⟨_,_,_,_,hm⟩ := forgetPeer_eq m peer
      have hfst := (deleteContact_fst peer m).trans (Model.refused_eq _)
      rw [hm] at hfst
      change Ordered (Model.convo (deleteContact peer m).1 p)
      rw [hfst]
      simp only [Model.convo, Maps.getElem?_erase]
      split
      · exact ordered_nil
      · exact h p
    | _ => simp [Event.writes] at hw
  · have hmsgs : (update x amb e m).1.messages = m.messages := update_agrees x amb e m .messages hw
    have hord : (update x amb e m).1.Ordered := by
      intro p
      rw [Model.convo, hmsgs]
      exact h p
    cases e with
    | loadedMessages => simp [Event.writes] at hw
    | _ => exact iff_of_true hord rfl

/-- Every conversation is in order and within the cap, in every run that reads no conversation from the
store, for a peer that has none, that is not. -/
theorem conversations_ordered {x : Crates} {ls : List Label} {c : Running}
    (hread : Core.Meets (app x) (fun _ e m => e.readsOrdered m = true) (boot x) ls)
    (hrun : runFromBoot x ls = some c) (peer : String) (convo : List StoredMessage)
    (hconvo : c.model.messages[peer]? = some convo) :
    convo.Pairwise (fun a b => a.ts ≤ b.ts) ∧ convo.length ≤ maxMessagesPerPeer := by
  have hord : c.model.Ordered := by
    refine Core.model_invariant (I := Model.Ordered) (fun amb e m hm hg => ?_) ?_ hread hrun
    · exact (update_ordered_iff hm).mpr hg
    · intro p
      simpa [boot, Core.boot, app, Model.convo] using ordered_nil
  have hpeer := hord peer
  rwa [Model.convo, hconvo] at hpeer

/-- A launch that reads a contact, and a conversation with it. -/
def sampleReading (convo : List StoredMessage) : List Label :=
  sampleLabels [.shell (.identityLoaded sampleSecret),
    .answer 2 (.kv (.ok (some (.contacts [Contact.new (samplePeer 7) "" 0])))),
    .answer 6 (.kv (.ok (some (.messages convo))))]

theorem conversations_ordered_reading : ∃ c convo,
    runFromBoot .sample (sampleReading [⟨"a","hi",1,false,false⟩,⟨"b","yo",2,false,false⟩]) = some c ∧
    c.model.messages[samplePeer 7]? = some convo ∧
    convo.Pairwise (fun a b => a.ts ≤ b.ts) ∧ convo.length ≤ maxMessagesPerPeer := by
  have hread : Core.Meets (app .sample) (fun _ e m => e.readsOrdered m = true) (boot .sample)
      (sampleReading [⟨"a","hi",1,false,false⟩,⟨"b","yo",2,false,false⟩]) := by decide
  have hrun : (runFromBoot .sample (sampleReading [⟨"a","hi",1,false,false⟩,
      ⟨"b","yo",2,false,false⟩])).any (fun c => c.model.messages[samplePeer 7]?.isSome) = true := by
    decide
  obtain ⟨c,hc,hsome⟩ := Option.any_eq_true _ _ |>.mp hrun
  obtain ⟨convo,hconvo⟩ := Option.isSome_iff_exists.mp hsome
  exact ⟨c,convo,hc,hconvo,conversations_ordered hread hc (samplePeer 7) convo hconvo⟩

/-- A conversation that was stored out of order comes into memory as it is. -/
theorem unordered_conversation_read : ∃ c convo,
    runFromBoot .sample (sampleReading [⟨"b","yo",2,false,false⟩,⟨"a","hi",1,false,false⟩]) = some c ∧
    c.model.messages[samplePeer 7]? = some convo ∧ ¬ convo.Pairwise fun a b => a.ts ≤ b.ts := by
  have hrun : (runFromBoot .sample (sampleReading [⟨"b","yo",2,false,false⟩,
      ⟨"a","hi",1,false,false⟩])).any (fun c => c.model.messages[samplePeer 7]?.any fun convo =>
        !decide (convo.Pairwise fun a b => a.ts ≤ b.ts)) = true := by
    decide
  simp only [Option.any_eq_true, Bool.not_eq_true', decide_eq_false_iff_not] at hrun
  obtain ⟨c,hc,convo,hconvo,hout⟩ := hrun
  exact ⟨c,convo,hc,hconvo,hout⟩

end Skrepka.Client
