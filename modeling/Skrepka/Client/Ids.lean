import Skrepka.Client.Texts
import Skrepka.Client.Fields

/-! Message ids: the ids of a stored conversation stay distinct as long as no page brings a text
under the id of a stored message that the dedup set does not know. -/
namespace Skrepka.Client
open Rust Mvu

/-- The ids of every stored conversation are distinct. -/
def UniqueIds (m : Model) : Prop := ∀ peer, ((m.convo peer).map StoredMessage.id).Nodup

/-- The ids that the client does not take from peers are good: one that it generates is not in the
conversation yet, and a conversation read back has distinct ids. -/
def GoodIds (amb : Ambient) : Event → Model → Bool
  | .sendText, m => m.activePeer.all fun peer => amb.uuid ∉ messageIds (m.convo peer)
  | .loadedMessages _ res, _ => match parseKv KvValue.messages? res with
    | .ok (some list) => (list.map StoredMessage.id).Nodup
    | _ => true
  | _, _ => true

/-- A page that is taken in brings no text under the id of a stored message of its conversation
unless the dedup set has that id. -/
def KnowsIds (x : Crates) : Event → Model → Prop
  | .pollResult gen res, m => gen = m.pollGen → m.kvLoadFailed = false →
      ∀ page id, readPage x res = some page → m.identity x = some id →
      ∀ peer, peer ≠ m.myPubkey → m.isBlocked peer = false →
      ∀ i ∈ textIds peer (page.opened x id), i ∈ messageIds (m.convo peer) → i ∈ m.dedupSet peer
  | _, _ => True

theorem UniqueIds.insert {m m' : Model} {peer : String} {convo : List StoredMessage}
    (h : UniqueIds m) (hm : m'.messages = m.messages.insert peer convo)
    (hconvo : (convo.map StoredMessage.id).Nodup) : UniqueIds m' := by
  intro q
  rw [Model.convo, hm, Maps.getElem?_insert]
  split
  · exact hconvo
  · exact h q

theorem UniqueIds.of_eq {m m' : Model} (h : UniqueIds m) (hm : m'.messages = m.messages) :
    UniqueIds m' := by
  intro q
  rw [Model.convo, hm]
  exact h q

theorem nodup_insertSorted {convo : List StoredMessage} {msg : StoredMessage}
    (h : (convo.map StoredMessage.id).Nodup) (hid : msg.id ∉ messageIds convo) :
    ((trimHistory (insertSorted convo msg)).map StoredMessage.id).Nodup := by
  refine List.Nodup.sublist ((trimHistory_sublist _).map _) ?_
  rw [((insertSorted_perm convo msg).map StoredMessage.id).nodup_iff, List.map_cons,
    List.nodup_cons]
  exact ⟨fun hmem => hid (mem_messageIds.mpr hmem),h⟩

theorem nodup_mergeHistory {existing list : List StoredMessage}
    (he : (existing.map StoredMessage.id).Nodup) (hl : (list.map StoredMessage.id).Nodup) :
    ((mergeHistory existing list).map StoredMessage.id).Nodup := by
  refine List.Nodup.sublist ((trimHistory_sublist _).map _) ?_
  rw [((List.perm_insertionSort _ _).map StoredMessage.id).nodup_iff, List.map_append,
    List.nodup_append]
  refine ⟨he,hl.sublist (List.filter_sublist.map _),?_⟩
  rintro i hi j hj rfl
  obtain ⟨msg,hmsg,rfl⟩ := List.mem_map.mp hj
  exact absurd hi (by simpa using (List.mem_filter.mp hmsg).2)

theorem sendText_unique (x : Crates) (amb : Ambient) {m : Model} (h : UniqueIds m)
    (hid : GoodIds amb .sendText m = true) : UniqueIds (sendText x amb m).1 := by
  unfold sendText
  split
  · exact h
  rename_i peer hpeer
  simp only
  repeat' split
  iterate 4 exact h.of_eq rfl
  simp only [Upd.and_fst, Upd.emit_fst, persistMessages_fst, persistContacts_fst,
    persistOutbox_fst, Model.refused_refused, Model.writeText]
  rw [Model.refused_eq]
  have hnew : ((trimHistory (insertSorted (m.convo peer)
      ⟨amb.uuid,trim m.compose,amb.now 0,true,false⟩)).map StoredMessage.id).Nodup :=
    nodup_insertSorted (h peer) (by simpa [GoodIds, hpeer] using hid)
  split
  · exact h.insert rfl hnew
  · exact h.insert rfl hnew

theorem deleteContact_unique (peer : String) {m : Model} (h : UniqueIds m) :
    UniqueIds (deleteContact peer m).1 := by
  obtain ⟨_,_,_,_,hm⟩ := forgetPeer_eq m peer
  rw [deleteContact_fst, Model.refused_eq, hm]
  intro q
  change (((m.messages.erase peer)[q]?.getD []).map StoredMessage.id).Nodup
  rw [Maps.getElem?_erase]
  split
  · exact List.nodup_nil
  · exact h q

theorem loadedMessages_unique (amb : Ambient) (peer : String) (res : KvData) {m : Model}
    (h : UniqueIds m) (hid : GoodIds amb (.loadedMessages peer res) m = true) :
    UniqueIds (loadedMessages peer res m).1 := by
  unfold loadedMessages
  cases hres : parseKv KvValue.messages? res with
  | error => exact h.of_eq rfl
  | ok list =>
    cases list with
    | none => exact h
    | some list =>
      have hlist : (list.map StoredMessage.id).Nodup := by simpa [GoodIds, hres] using hid
      refine h.insert rfl ?_
      cases hc : m.messages[peer]? with
      | none => exact hlist
      | some existing =>
        refine nodup_mergeHistory ?_ hlist
        have := h peer
        rwa [Model.convo, hc] at this

namespace Ingest

/-- The ids of a conversation are distinct, and those under which texts may still come are in the
dedup set. -/
structure Apart (peer : String) (ids : List String) (s : Ingest) : Prop where
  nodup : ((s.model.convo peer).map StoredMessage.id).Nodup
  known : ∀ i ∈ ids, i ∈ messageIds (s.model.convo peer) → i ∈ s.model.dedupSet peer

theorem Apart.filed {hash : HashOrder} {peer : String} {ids : List String} {msg : StoredMessage}
    {s s' : Ingest} (h : Apart peer ids s) (hmsg : msg.id ∈ ids)
    (hfiled : Filed hash peer msg s s') : Apart peer ids s' where
  nodup := by
    rw [hfiled.convo]
    exact nodup_insertSorted h.nodup fun hmem => hfiled.fresh (h.known _ hmsg hmem)
  known i hi hmem := by
    have hmem' : i ∈ messageIds (insertSorted (s.model.convo peer) msg) := by
      rw [hfiled.convo, mem_messageIds] at hmem
      exact mem_messageIds.mpr (((trimHistory_sublist _).map _).subset hmem)
    rw [hfiled.dedupSet, hfiled.seen]
    refine mem_capIds ?_ hmem'
    rw [messageIds_insertSorted, Finset.mem_insert] at hmem'
    obtain rfl | hold := hmem'
    · exact Finset.mem_insert_self _ _
    · exact Finset.mem_insert_of_mem (h.known i hi hold)

theorem Apart.payload {x : Crates} {hash : HashOrder} {now : ℤ} {peer : String}
    {ps : List (String × ParsedPayload)} {p : String × ParsedPayload} {s : Ingest}
    (h : Apart peer (textIds peer ps) s) (hp : p ∈ ps) :
    Apart peer (textIds peer ps) (s.payload x hash now p.1 p.2) := by
  obtain ⟨id,body,hpeer,htext,-,-,hfiled⟩ | hun := payload_texts x hash now p s peer
  · refine h.filed ?_ hfiled
    exact List.mem_filterMap.mpr ⟨p,hp,by simp [htext, hpeer]⟩
  · refine ⟨hun.convo ▸ h.nodup,fun i hi hmem => ?_⟩
    rw [hun.convo] at hmem
    rw [hun.dedupSet]
    exact h.known i hi hmem

end Ingest

theorem pollResult_unique (x : Crates) (amb : Ambient) (gen : UInt64) (res : HttpResult)
    {m : Model} (h : UniqueIds m) (hid : KnowsIds x (.pollResult gen res) m) :
    UniqueIds (pollResult x amb gen res m).1 := by
  obtain ⟨_,_,_,_,_,_,hm⟩ | ⟨page,id,hgen,hk,hpage,hident,hm⟩ :=
    pollResult_cases x amb gen res m
  · rw [hm]
    exact h.of_eq rfl
  · intro peer
    rw [hm, (ingested_texts x amb page id { m with polling := false, pollRetries := 0 } peer).1]
    by_cases hpeer : peer = m.myPubkey ∨ m.isBlocked peer = true
    · let m₁ : Model := { m with polling := false, pollRetries := 0 }
      have hscreened : (Ingest.deliver x amb.hash (amb.now 1) (page.opened x id)
          { model := m₁ }).model.convo peer = m.convo peer :=
        (Ingest.deliver_screened (m := m₁) hpeer _).1
      rw [hscreened]
      exact h peer
    · rw [not_or, Bool.not_eq_true] at hpeer
      have hknown := hid hgen hk page id hpage hident peer hpeer.1 hpeer.2
      have hstart : Ingest.Apart peer (textIds peer (page.opened x id))
          { model := { m with polling := false, pollRetries := 0 } } := ⟨h peer,hknown⟩
      exact (Ingest.deliver_induction (I := Ingest.Apart peer (textIds peer (page.opened x id)))
        (fun p hp s hs => hs.payload hp) hstart).nodup

theorem update_unique (x : Crates) (amb : Ambient) {e : Event} {m : Model} (h : UniqueIds m)
    (hgood : GoodIds amb e m = true) (hknows : KnowsIds x e m) : UniqueIds (update x amb e m).1 := by
  by_cases hw : Field.messages ∈ e.writes
  · cases e with
    | sendText => exact sendText_unique x amb h hgood
    | deleteContact peer => exact deleteContact_unique peer h
    | loadedMessages peer res => exact loadedMessages_unique amb peer res h hgood
    | pollResult gen res => exact pollResult_unique x amb gen res h hknows
    | _ => simp [Event.writes] at hw
  · exact h.of_eq (update_agrees x amb e m .messages hw)

/-- In every run with good ids of the client's own, if no page brings a text under the id of a
stored message that the dedup set does not have, the ids of every stored conversation are distinct
in every state. -/
theorem ids_identify_messages {x : Crates} {ls : List Label} {c : Running}
    (hids : Core.Meets (app x) (fun amb e m => GoodIds amb e m = true ∧ KnowsIds x e m) (boot x) ls)
    (hrun : runFromBoot x ls = some c) (peer : String) :
    ((c.model.convo peer).map StoredMessage.id).Nodup := by
  refine Core.model_invariant (A := app x) (I := UniqueIds)
    (fun amb e m h hg => update_unique x amb h hg.1 hg.2) (fun peer => ?_) hids hrun peer
  simp [boot, Core.boot, app, Model.convo]

/-- Online with one contact, whose dedup set holds one id; a text to it is on the wire. -/
def sampleTexting : List (Action Event Answer) :=
  [.shell (.identityLoaded sampleSecret),.answer 0 (.kv (.ok none)),.answer 1 (.kv (.ok none)),
    .answer 2 (.kv (.ok (some (.contacts [Contact.new (samplePeer 7) "" 0])))),
    .answer 3 (.kv (.ok none)),.answer 4 (.kv (.ok none)),.answer 6 (.kv (.ok none)),
    .answer 5 (.kv (.ok (some (.seenIds ((∅ : PeerMap (Finset String)).insert
      (samplePeer 7) {"m"}))))),
    .drain,.drain,.answer 7 (sampleOk challengeText),.answer 9 (sampleOk tokenText),.drain,
    .drain] ++ sampleText (samplePeer 7)

/-- A poll is under way, and the conversation is that text. -/
theorem texting_run : ∃ c, runFromBoot (.mailing [2]) (sampleLabels sampleTexting) = some c ∧
    Running.polls 10 c = true ∧ c.model.secretKey = some sampleSecret ∧ LoadsDone c ∧
    c.model.myPubkey ≠ samplePeer 7 ∧ c.model.isBlocked (samplePeer 7) = false ∧
    c.model.contacts.contains (samplePeer 7) = true ∧
    c.model.convo (samplePeer 7) = [⟨"id","hi",1000,true,false⟩] ∧
    c.model.seen (samplePeer 7) = {"m"} := by
  have hrun : (runFromBoot (.mailing [2]) (sampleLabels sampleTexting)).any (fun c =>
      Running.polls 10 c && c.model.secretKey = some sampleSecret && decide (LoadsDone c) &&
      c.model.myPubkey ≠ samplePeer 7 && !c.model.isBlocked (samplePeer 7) &&
      c.model.contacts.contains (samplePeer 7) &&
      c.model.convo (samplePeer 7) = [⟨"id","hi",1000,true,false⟩] &&
      c.model.seen (samplePeer 7) = {"m"}) = true := by decide +kernel
  simpa only [Option.any_eq_true, Bool.and_eq_true, decide_eq_true_eq, Bool.not_eq_true',
    and_assoc] using hrun

/-- A text under the id of that text. -/
theorem posted_clash : (postedPage [2]).opened (.mailing [2]) postedIdentity =
    [(samplePeer 7,⟨950,.text "id" "yo"⟩)] :=
  postedPage_opened (by decide +kernel) (by decide +kernel)

/-- The peer sends a text under the id of the text that it was sent: the conversation has two
messages with that id. -/
theorem ids_clash :
    let labels := sampleLabels (sampleTexting ++ [.answer 10 (.http (mailResult [2]))])
    Core.Meets (app (.mailing [2])) (fun amb e m => GoodIds amb e m = true) (boot (.mailing [2]))
      labels ∧
    ∃ c, runFromBoot (.mailing [2]) labels = some c ∧
      (c.model.convo (samplePeer 7)).map StoredMessage.id = ["id","id"] := by
  intro labels
  obtain ⟨c,hc,hpolls,hsecret,-,hme,hblocked,hcontact,hconvo,hseen⟩ := texting_run
  refine ⟨by decide +kernel,?_⟩
  have hpage : readPage (.mailing [2]) ((Crates.mailing [2]).deliver (mailResult [2])) =
      some (postedPage [2]) := readPage_mailing (by decide +kernel)
  obtain ⟨d,hd,hmodel⟩ := Running.polls_step .sample hpolls hpage (mailing_identity hsecret)
  refine ⟨d,Lts.run_append_eq_some _ hc (Lts.run_single _ hd),?_⟩
  let m : Model := { c.model with polling := false, pollRetries := 0 }
  have hnew : "id" ∉ m.dedupSet (samplePeer 7) := by
    have hset : m.seen (samplePeer 7) = {"m"} := hseen
    rw [Model.dedupSet_eq_seen (by simp [hset]), hset]
    decide
  have hfiled := Ingest.payload_filed (.mailing [2]) Ambient.sample.hash (Ambient.sample.now 1)
    950 "yo" (show samplePeer 7 ≠ ({ model := m } : Ingest).model.myPubkey from Ne.symm hme)
    hblocked hcontact hnew
  rw [hmodel, (ingested_texts (.mailing [2]) .sample (postedPage [2]) postedIdentity m _).1, posted_clash]
  rw [Ingest.deliver, List.foldl_cons, List.foldl_nil, hfiled.convo,
    show ({ model := m } : Ingest).model.convo (samplePeer 7) = _ from hconvo]
  decide

/-- The text that the client sends by itself has its conversation for its own. -/
def isPollResult : Event → Bool
  | .pollResult _ _ => true
  | _ => false

theorem ids_identify_messages_texting :
    ∃ c, runFromBoot (.mailing [2]) (sampleLabels sampleTexting) = some c ∧
      (c.model.convo (samplePeer 7)).map StoredMessage.id ≠ [] ∧
      ((c.model.convo (samplePeer 7)).map StoredMessage.id).Nodup := by
  obtain ⟨c,hc,-,-,-,-,-,-,hconvo,-⟩ := texting_run
  have hquiet : Core.Meets (app (.mailing [2])) (fun amb e m => GoodIds amb e m = true ∧
      isPollResult e = false) (boot (.mailing [2])) (sampleLabels sampleTexting) := by
    decide
  refine ⟨c,hc,by simp [hconvo],ids_identify_messages (hquiet.mono fun amb e m h => ⟨h.1,?_⟩) hc _⟩
  cases e <;> first | trivial | simp [isPollResult] at h

end Skrepka.Client
