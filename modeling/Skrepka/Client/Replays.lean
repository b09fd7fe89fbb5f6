import Skrepka.Client.Dedup
import Skrepka.Client.Ids

/-! Replay protection over whole runs: since a contact was last deleted, no id is filed twice for
it, as long as its dedup set stays within the cap and need not forget. -/
namespace Skrepka.Client
open Rust Mvu

/-- The page that an event brings in, and the identity that opens it, if it is taken in. -/
def Event.takesIn (x : Crates) (m : Model) : Event → Option (PollResp × Crypto.Identity)
  | .pollResult gen res => do
    guard (gen = m.pollGen ∧ m.kvLoadFailed = false)
    return (← readPage x res,← m.identity x)
  | _ => none

/-- The ids that an event files under a peer. Each of them is put into the conversation and into
one of the acks that the page queues. -/
def filedTexts (x : Crates) (amb : Ambient) (e : Event) (m : Model) (peer : String) :
    List String :=
  match e.takesIn x m with
  | some (page,id) =>
    (ingested x amb page id { m with polling := false, pollRetries := 0 }).acks peer
  | none => []

/-- The ids filed under each peer since its contact was last deleted, after one more event. -/
def noteEvent (x : Crates) (amb : Ambient) (e : Event) (m : Model) (log : String → List String)
    (peer : String) : List String :=
  match e with
  | .deleteContact p => if p = peer then [] else log peer
  | e => log peer ++ filedTexts x amb e m peer

/-- An observer of a run, who writes these ids down. -/
def noteTexts (x : Crates) (c : Running) (l : Label) (_ : Running)
    (log : String → List String) : String → List String :=
  match c.event? (app x) l.2 with
  | none => log
  | some e => noteEvent x l.1 e c.model log

/-- A page that is taken in brings no text under an id that was forgotten: one that was filed is in
the dedup set before the page, and the payloads in front of the text keep what the set has of it. -/
def Recalls (x : Crates) (peer id : String) (amb : Ambient) (e : Event) (m : Model) (log : List String) :
    Prop :=
  ∀ page identity, e.takesIn x m = some (page,identity) →
    peer ≠ m.myPubkey → m.isBlocked peer = false →
    ∀ ps p, ps ++ [p] <+: page.opened x identity → p.1 = peer →
      ∀ body, p.2.payload = .text id body →
      (id ∈ log → id ∈ m.dedupSet peer) ∧ m.Remembers (amb.now 1) peer id ps

/-- No page that is taken in makes the dedup set of a peer forget an id. -/
def Remembering (x : Crates) (peer id : String) (amb : Ambient) (e : Event) (m : Model) : Prop :=
  ∀ page identity, e.takesIn x m = some (page,identity) →
    peer ≠ m.myPubkey → m.isBlocked peer = false →
    m.Remembers (amb.now 1) peer id (page.opened x identity)

/-- The condition on a step of an observed run. -/
def RecallsAt (x : Crates) (peer id : String) (s : Running × (String → List String)) (l : Label) :
    Prop :=
  ∀ e ∈ s.1.event? (app x) l.2, Recalls x peer id l.1 e s.1.model (s.2 peer)

theorem takesIn_eq_some {x : Crates} {gen : UInt64} {res : HttpResult} {m : Model}
    {page : PollResp} {id : Crypto.Identity} :
    (Event.pollResult gen res).takesIn x m = some (page,id) ↔ gen = m.pollGen ∧
      m.kvLoadFailed = false ∧ readPage x res = some page ∧ m.identity x = some id := by
  simp [Event.takesIn, Option.bind_eq_some_iff, guard, and_assoc]

/-- Nothing is filed for ourselves or a blocked contact; for the others it is what the payloads of the
page make of their texts. -/
theorem filedTexts_of_takesIn {x : Crates} {e : Event} {m : Model} {page : PollResp}
    {identity : Crypto.Identity} (amb : Ambient) (htake : e.takesIn x m = some (page,identity))
    (peer : String) : filedTexts x amb e m peer =
      (Ingest.deliver x amb.hash (amb.now 1) (page.opened x identity)
        { model := { m with polling := false, pollRetries := 0 } }).acks peer := by
  simp only [filedTexts, htake]
  exact (ingested_texts x amb page identity { m with polling := false, pollRetries := 0 } peer).2.2

theorem filedTexts_of_screened {x : Crates} {amb : Ambient} {e : Event} {m : Model} {peer : String}
    (h : peer = m.myPubkey ∨ m.isBlocked peer = true) : filedTexts x amb e m peer = [] := by
  cases htake : e.takesIn x m with
  | none => simp only [filedTexts, htake]
  | some taken =>
    rw [filedTexts_of_takesIn amb htake]
    exact (Ingest.deliver_screened (m := { m with polling := false, pollRetries := 0 }) h _).2.2

/-- An event files an id once at most, and not again if it was filed before. -/
theorem Recalls.noteEvent {x : Crates} {peer id : String} {amb : Ambient} {e : Event} {m : Model}
    {log : String → List String} (h : Recalls x peer id amb e m (log peer))
    (hlog : (log peer).count id ≤ 1) : (noteEvent x amb e m log peer).count id ≤ 1 := by
  have hfiles : (log peer ++ filedTexts x amb e m peer).count id ≤ 1 := by
    rw [List.count_append]
    by_cases hfiled : id ∈ filedTexts x amb e m peer
    · have hopen : ¬ (peer = m.myPubkey ∨ m.isBlocked peer = true) := fun hscreened => by
        simp [filedTexts_of_screened hscreened] at hfiled
      rw [not_or, Bool.not_eq_true] at hopen
      cases htake : e.takesIn x m with
      | none => simp [filedTexts, htake] at hfiled
      | some taken =>
        obtain ⟨page,identity⟩ := taken
        have hpage := h page identity htake hopen.1 hopen.2
        rw [filedTexts_of_takesIn amb htake] at hfiled ⊢
        let m₁ : Model := { m with polling := false, pollRetries := 0 }
        let acks := (Ingest.deliver x amb.hash (amb.now 1) (page.opened x identity)
          { model := m₁ }).acks peer
        change id ∈ acks at hfiled
        change (log peer).count id+acks.count id ≤ 1
        obtain ⟨ps,p,body,hps,hpeer,htext⟩ := exists_prefix_of_mem_textIds
          ((Ingest.mem_acks_deliver hfiled).resolve_left (by simp [Ingest.acks]))
        have hcount : acks.count id ≤ if id ∈ m.dedupSet peer then 0 else 1 :=
          count_acks_deliver fun qs q hq hqpeer b hqtext => (hpage qs q hq hqpeer b hqtext).2
        have hsome := List.count_pos_iff.mpr hfiled
        have hnew : id ∉ m.dedupSet peer := fun hold => by
          rw [if_pos hold] at hcount
          omega
        rw [if_neg hnew] at hcount
        rw [List.count_eq_zero.mpr (mt (hpage ps p hps hpeer body htext).1 hnew)]
        omega
    · rw [List.count_eq_zero.mpr hfiled]
      exact hlog
  cases e with
  | deleteContact p =>
    simp only [Client.noteEvent]
    split
    · exact Nat.zero_le _
    · exact hlog
  | _ => exact hfiles

/-- An id that was filed for a peer is in its dedup set after a page that makes it forget nothing. -/
theorem pollResult_remembers {x : Crates} {amb : Ambient} {gen : UInt64} {res : HttpResult} {m : Model}
    {peer id : String} {log : List String} (h : id ∈ log → id ∈ m.seen peer)
    (hret : Remembering x peer id amb (.pollResult gen res) m)
    (hid : id ∈ log ++ filedTexts x amb (.pollResult gen res) m peer) :
    id ∈ (pollResult x amb gen res m).1.seen peer := by
  cases htake : (Event.pollResult gen res).takesIn x m with
  | none =>
    simp only [filedTexts, htake, List.append_nil] at hid
    obtain ⟨_,_,_,_,_,_,hm⟩ | ⟨page,identity,hgen,hk,hpage,hident,-⟩ :=
      pollResult_cases x amb gen res m
    · rw [hm]
      exact h hid
    · rw [takesIn_eq_some.mpr ⟨hgen,hk,hpage,hident⟩] at htake
      exact absurd htake (by simp)
  | some taken =>
    obtain ⟨page,identity⟩ := taken
    have hpage := hret page identity htake
    rw [List.mem_append] at hid
    obtain ⟨rfl,hk,hread,hident⟩ := takesIn_eq_some.mp htake
    rw [pollResult_ingested amb hk hread hident]
    let m₁ : Model := { m with polling := false, pollRetries := 0 }
    change id ∈ (ingested x amb page identity m₁).model.seen peer
    rw [(ingested_texts x amb page identity m₁ peer).2.1]
    by_cases hscreened : peer = m.myPubkey ∨ m.isBlocked peer = true
    · rw [filedTexts_of_screened hscreened] at hid
      exact (Ingest.deliver_screened (m := m₁) hscreened _).2.1 (h (by simpa using hid))
    · rw [not_or, Bool.not_eq_true] at hscreened
      rw [filedTexts_of_takesIn amb htake] at hid
      have hnone : ({ model := m₁ } : Ingest).acks peer = [] := by simp [Ingest.acks]
      have hremembers : m₁.Remembers (amb.now 1) peer id (page.opened x identity) :=
        hpage hscreened.1 hscreened.2
      have hdedup := hremembers.deliver x amb.hash (hid.imp_left fun hlog =>
        Ingest.subset_dedupSet m peer (h hlog))
      have hsome := Ingest.seen_nonempty_deliver (s := { model := m₁ })
        (hid.imp (fun hlog => ⟨id,h hlog⟩) List.ne_nil_of_mem) hnone
      rw [← Model.dedupSet_eq_seen hsome]
      exact hdedup

theorem loadedMessages_seen (peer : String) (res : KvData) (m : Model) (p : String) :
    m.seen p ⊆ (loadedMessages peer res m).1.seen p := by
  unfold loadedMessages
  cases parseKv KvValue.messages? res with
  | error => exact subset_rfl
  | ok list =>
    cases list with
    | none => exact subset_rfl
    | some list =>
      cases hs : m.seenIds[peer]? with
      | none => exact subset_rfl
      | some ids =>
        simp only [Model.seen, Maps.getElem?_insert]
        split
        · rename_i hp
          subst hp
          simp [hs]
        · exact subset_rfl

theorem noteEvent_of_none {x : Crates} {amb : Ambient} {e : Event} {m : Model}
    (log : String → List String) (hdelete : ∀ p, e ≠ .deleteContact p)
    (htake : e.takesIn x m = none) : noteEvent x amb e m log = log := by
  funext peer
  cases e with
  | deleteContact p => exact absurd rfl (hdelete p)
  | _ => simp [noteEvent, filedTexts, htake]

/-- An id that was filed for a peer is in its dedup set after an event that makes it forget nothing. -/
theorem update_remembers {x : Crates} {amb : Ambient} {e : Event} {m : Model} {peer id : String}
    {log : String → List String} (h : id ∈ log peer → id ∈ m.seen peer) (hload : e.isStartup = false)
    (hret : Remembering x peer id amb e m) (hid : id ∈ noteEvent x amb e m log peer) :
    id ∈ (update x amb e m).1.seen peer := by
  by_cases hw : Field.seenIds ∈ e.writes
  · cases e with
    | deleteContact p =>
      obtain ⟨_,_,_,_,hm⟩ := forgetPeer_eq m p
      change id ∈ (deleteContact p m).1.seen peer
      rw [deleteContact_fst, Model.refused_eq, hm]
      by_cases hp : p = peer
      · simp [noteEvent, hp] at hid
      · simp only [noteEvent, if_neg hp] at hid
        change id ∈ ((m.seenIds.erase p)[peer]?.getD ∅)
        rw [Maps.getElem?_erase, if_neg hp]
        exact h hid
    | loadedMessages p res =>
      rw [noteEvent_of_none log (by simp) rfl] at hid
      exact loadedMessages_seen p res m peer (h hid)
    | pollResult gen res => exact pollResult_remembers h hret hid
    | loadedSeenIds => simp [Event.isStartup] at hload
    | _ => simp [Event.writes] at hw
  · have hseen : (update x amb e m).1.seenIds = m.seenIds := update_agrees x amb e m .seenIds hw
    rw [Model.seen, hseen]
    cases e with
    | deleteContact | pollResult => simp [Event.writes] at hw
    | _ =>
      rw [noteEvent_of_none log (by simp) rfl] at hid
      exact h hid

/-- A run with the loads done, in which an id that was filed for a peer is in its dedup set. -/
structure Observed (peer id : String) (s : Running × (String → List String)) : Prop where
  queue : Wakes s.1
  known : Known s.1
  done : LoadsDone s.1
  filed : id ∈ s.2 peer → id ∈ s.1.model.seen peer

theorem Observed.step {x : Crates} {peer id : String} {s t : Running × (String → List String)}
    {l : Label} (h : Observed peer id s) (hl : KeepsIdentity l)
    (hret : ∀ e ∈ s.1.event? (app x) l.2, Remembering x peer id l.1 e s.1.model)
    (hs : Lts.watch (Client.step x) (noteTexts x) s l = some t) : Observed peer id t := by
  obtain ⟨hstep,hnote⟩ := Lts.watch_eq_some (Client.step x) hs
  refine ⟨h.queue.step hstep,h.known.step hstep,h.done.step h.queue hl hstep,fun hid => ?_⟩
  obtain ⟨⟨e,c₁⟩,htake,hd⟩ := Option.map_eq_some_iff.mp hstep
  have he : s.1.event? (app x) l.2 = some e := by simp [Core.event?, htake]
  have ht := Core.takes_of_take htake
  have hload := h.done.takes h.queue h.known ht
  rw [hnote, noteTexts, he] at hid
  rw [← hd]
  change id ∈ (update x l.1 e c₁.model).1.seen peer
  rw [ht.model_eq]
  exact update_remembers h.filed hload (hret e he) hid

/-- In a run that makes the client forget nothing it recalls what it filed. -/
theorem Observed.recallsAt {x : Crates} {peer id : String} {s : Running × (String → List String)}
    {l : Label} (h : Observed peer id s)
    (hret : ∀ e ∈ s.1.event? (app x) l.2, Remembering x peer id l.1 e s.1.model) :
    RecallsAt x peer id s l := by
  intro e he page identity htake hme hblocked ps p hps hpeer body htext
  refine ⟨fun hid => Ingest.subset_dedupSet _ _ (h.filed hid),?_⟩
  exact (hret e he page identity htake hme hblocked).mono ((List.prefix_append ps [p]).trans hps)

theorem RecallsAt.step {x : Crates} {peer id : String} {s t : Running × (String → List String)}
    {l : Label} (h : RecallsAt x peer id s l) (hlog : (s.2 peer).count id ≤ 1)
    (hs : Lts.watch (Client.step x) (noteTexts x) s l = some t) : (t.2 peer).count id ≤ 1 := by
  rw [(Lts.watch_eq_some (Client.step x) hs).2, noteTexts]
  cases he : s.1.event? (app x) l.2 with
  | none => exact hlog
  | some e => exact (h e he).noteEvent hlog

/-- From every state with the loads done, an id is filed once at most for a contact until it is
deleted, in every run in which no page brings it when it was forgotten. A run is such a one if no page
makes the dedup set of the contact forget the id. -/
theorem texts_filed_once {x : Crates} {ls ms : List Label} {c d : Running}
    {log : String → List String} (hrun : runFromBoot x ls = some c) (hdone : LoadsDone c)
    (hms : ∀ l ∈ ms, KeepsIdentity l)
    (hd : Lts.run (Lts.watch (step x) (noteTexts x)) (c,fun _ => []) ms = some (d,log))
    (peer id : String) :
    (Lts.Along (Lts.watch (step x) (noteTexts x)) (RecallsAt x peer id) (c,fun _ => []) ms →
      (log peer).count id ≤ 1) ∧
    (Core.Meets (app x) (Remembering x peer id) c ms →
      Lts.Along (Lts.watch (step x) (noteTexts x)) (RecallsAt x peer id) (c,fun _ => []) ms) := by
  constructor
  · intro hrecalls
    exact Lts.run_invariant_along _ (I := fun s => (s.2 peer).count id ≤ 1)
      (fun s l t hlog hl hs => hl.step hlog hs) (Nat.zero_le 1) hrecalls hd
  · intro hret
    have hkeeps : Lts.Along (step x) (fun c l => KeepsIdentity l ∧
        ∀ e ∈ c.event? (app x) l.2, Remembering x peer id l.1 e c.model) c ms :=
      Lts.Along.and (step x) (Lts.along_of_forall (step x) hms) hret
    have hstart : Observed peer id (c,fun _ => []) :=
      ⟨wakes_run hrun,known_run hrun,hdone,fun hid => absurd hid List.not_mem_nil⟩
    refine (Lts.along_congr_along (Lts.watch (step x) (noteTexts x)) (I := Observed peer id)
      (G := fun _ _ => True) (fun _ _ _ h hl hs => h.step hl.1 hl.2 hs)
      (fun _ _ h hl => iff_of_true trivial (h.recallsAt hl.2)) hstart
      (Lts.Along.watch (step x) (s := (c,fun _ => [])) hkeeps)).mp ?_
    exact Lts.along_of_forall _ (P := fun _ => True) fun _ _ => trivial

/-- What is noted down about a page that is taken in. -/
theorem Running.polls_notes {x : Crates} {c : Running} {ticket : ℕ} {res : HttpResult}
    {page : PollResp} {id : Crypto.Identity} (amb : Ambient) (h : Running.polls ticket c = true)
    (hpage : readPage x (x.deliver res) = some page) (hid : c.model.identity x = some id) (d : Running)
    (log : String → List String) (peer : String) :
    noteTexts x c (amb,.answer ticket (.http res)) d log peer = log peer ++
      (Ingest.deliver x amb.hash (amb.now 1) (page.opened x id)
        { model := { c.model with polling := false, pollRetries := 0 } }).acks peer := by
  obtain ⟨he,hk⟩ := Running.polls_event (x := x) h res
  have htake : (Event.pollResult c.model.pollGen (x.deliver res)).takesIn x c.model = some (page,id) :=
    takesIn_eq_some.mpr ⟨rfl,hk,hpage,hid⟩
  rw [noteTexts, he]
  simp only [noteEvent, filedTexts, htake]
  rw [(ingested_texts x amb page id { c.model with polling := false, pollRetries := 0 } peer).2.2]

/-- Hash sets whose iteration starts at some element. -/
def HashOrder.startingAt (a : String) : HashOrder where
  iter s := if a ∈ s then a :: sorted.iter (s.erase a) else sorted.iter s
  nodup s := by
    split
    · exact List.nodup_cons.mpr ⟨by simp [sorted.mem_iter],sorted.nodup _⟩
    · exact sorted.nodup s
  mem_iter s b := by
    split
    · rename_i ha
      rw [List.mem_cons, sorted.mem_iter, Finset.mem_erase]
      by_cases hb : b = a
      · simp [hb, ha]
      · simp [hb]
    · exact sorted.mem_iter s b

def agedId (n : ℕ) : String := .ofList (.replicate n 'x')

/-- The ids of a long correspondence, of which only the last thousand messages are still there. -/
def agedIds : Finset String := (Finset.range 1999).image agedId

def agedConvo : List StoredMessage :=
  (List.range 1000).map fun n => ⟨agedId n,"hi",2000,false,true⟩

theorem agedId_injective : Function.Injective agedId := fun a b h => by
  have := congrArg (fun s : String => s.toList.length) h
  simpa [agedId] using this

theorem card_agedIds : agedIds.card = 1999 := by
  rw [agedIds, Finset.card_image_of_injective _ agedId_injective, Finset.card_range]

theorem agedIds_nonempty : agedIds.Nonempty := Finset.card_pos.mp (by rw [card_agedIds]; decide)

theorem messageIds_agedConvo : messageIds agedConvo ⊆ agedIds := fun id hid => by
  obtain ⟨msg,hmsg,rfl⟩ := List.mem_map.mp (mem_messageIds.mp hid)
  obtain ⟨n,hn,rfl⟩ := List.mem_map.mp hmsg
  rw [List.mem_range] at hn
  exact Finset.mem_image.mpr ⟨n,by simp; omega,rfl⟩

theorem not_mem_agedIds {id : String} (h : id.toList.any (· ≠ 'x') = true) : id ∉ agedIds := by
  intro hid
  obtain ⟨n,-,rfl⟩ := Finset.mem_image.mp hid
  obtain ⟨a,ha,hne⟩ := List.any_eq_true.mp h
  obtain ⟨-,rfl⟩ : _ ∧ a = 'x' := by simpa [agedId] using ha
  simp at hne

/-- A message older than all of a full conversation is trimmed at once. -/
theorem trimHistory_insertSorted {convo : List StoredMessage} {msg : StoredMessage}
    (hlen : convo.length = maxMessagesPerPeer) (hnew : ∀ m ∈ convo, msg.ts < m.ts) :
    insertSorted convo msg = msg :: convo ∧ trimHistory (insertSorted convo msg) = convo := by
  have hfront : insertSorted convo msg = msg :: convo := by
    have hpos : convo.findIdx (fun m => ¬ m.ts ≤ msg.ts) = 0 := by
      cases convo with
      | nil => rfl
      | cons m convo =>
        have := hnew m List.mem_cons_self
        simp [List.findIdx_cons, this]
    rw [insertSorted, hpos, List.insertIdx_zero]
  refine ⟨hfront,?_⟩
  rw [hfront, trimHistory, List.length_cons, hlen, Nat.add_sub_cancel_left]
  rfl

namespace Ingest

/-- In the middle of a page, the long correspondence with a contact, and its dedup set. -/
structure Aged (peer : String) (seen : Finset String) (s : Ingest) : Prop where
  me : peer ≠ s.model.myPubkey
  contact : ∃ c, s.model.contacts[peer]? = some c ∧ c.blocked = false
  convo : s.model.convo peer = agedConvo
  seen : s.model.seen peer = seen

theorem Aged.text {x : Crates} (hash : HashOrder) {now ts : ℤ} {peer : String} (id body : String)
    {seen : Finset String} {s : Ingest} (h : Aged peer seen s) (hne : seen.Nonempty)
    (hid : id ∉ seen) (hts : clampTs now ts < 2000) :
    Aged peer (capIds hash (⟨id,body,clampTs now ts,false,false⟩ :: agedConvo)
        (insert id seen)) (s.payload x hash now peer ⟨ts,.text id body⟩) ∧
      (s.payload x hash now peer ⟨ts,.text id body⟩).acks peer = s.acks peer ++ [id] := by
  obtain ⟨c,hc,hb⟩ := h.contact
  have hset : s.model.dedupSet peer = seen := by
    rw [Model.dedupSet_eq_seen (h.seen ▸ hne), h.seen]
  have hblocked : s.model.isBlocked peer = false := by simp [isBlocked_eq, hc, hb]
  have hknown : s.model.contacts.contains peer = true := by
    rw [Std.TreeMap.contains_eq_isSome_getElem?, hc]
    rfl
  have hfiled := payload_filed x hash now ts body h.me hblocked hknown (hset ▸ hid)
  let msg : StoredMessage := ⟨id,body,clampTs now ts,false,false⟩
  obtain ⟨hfront,htrim⟩ : insertSorted agedConvo msg = msg :: agedConvo ∧
      trimHistory (insertSorted agedConvo msg) = agedConvo := by
    refine trimHistory_insertSorted (by simp [agedConvo, maxMessagesPerPeer]) fun m hm => ?_
    obtain ⟨n,-,rfl⟩ := List.mem_map.mp hm
    exact hts
  refine ⟨⟨?_,⟨c,?_,hb⟩,?_,?_⟩,hfiled.acks⟩
  · rw [payload_me]
    exact h.me
  · exact (payload_contact x hash now hc hb h.me (peer,⟨ts,.text id body⟩)).1
  · rw [hfiled.convo, h.convo, htrim]
  · rw [hfiled.seen, h.convo, hfront, hset]

/-- The dedup set is full: the next id makes it forget the one that its iteration starts at. -/
theorem capIds_forgets {id : String} {convo : List StoredMessage} {ids : Finset String}
    (hid : id ∈ ids) (hconvo : id ∉ messageIds convo) (hcard : ids.card = maxSeenIdsPerPeer+1) :
    capIds (.startingAt id) convo ids = ids.erase id := by
  have hexcess : ids.card-maxSeenIdsPerPeer = 1 := by omega
  have hiter : (HashOrder.startingAt id).iter ids = id :: HashOrder.sorted.iter (ids.erase id) :=
    if_pos hid
  rw [capIds, if_pos (by omega), hexcess, hiter, List.filter_cons_of_pos (by simpa using hconvo)]
  simp [Finset.sdiff_singleton_eq_erase]

/-- Three texts under two new ids: the second makes the client forget the first, and the third is
filed under its id again. -/
theorem aged_texts {x : Crates} {now : ℤ} {peer : String} {s : Ingest} {a b c : ℤ} {d e f : String}
    (h : Aged peer agedIds s)
    (hts : ∀ t ∈ [a,b,c], clampTs now t < 2000) :
    (deliver x (.startingAt "m") now [(peer,⟨a,.text "m" d⟩),(peer,⟨b,.text "id" e⟩),
      (peer,⟨c,.text "m" f⟩)] s).acks peer = s.acks peer ++ ["m","id","m"] := by
  have hm : "m" ∉ agedIds := not_mem_agedIds (by decide)
  have hid : "id" ∉ agedIds := not_mem_agedIds (by decide)
  have hconvo : ∀ i ∉ agedIds, i ∉ messageIds agedConvo := fun i hi hmem =>
    hi (messageIds_agedConvo hmem)
  have hcard : (insert "m" agedIds).card = 2000 := by
    rw [Finset.card_insert_of_notMem hm, card_agedIds]
  have hnew : "id" ∉ insert "m" agedIds := by simp [hid]
  obtain ⟨h₁,hacks₁⟩ := h.text (x := x) (.startingAt "m") "m" d agedIds_nonempty hm (hts a (by simp))
  rw [capIds_of_card_le hcard.le] at h₁
  obtain ⟨h₂,hacks₂⟩ := h₁.text (x := x) (.startingAt "m") "id" e (Finset.insert_nonempty _ _) hnew
    (hts b (by simp))
  rw [capIds_forgets (by simp) ?_ ?_] at h₂
  · obtain ⟨-,hacks₃⟩ := h₂.text (x := x) (.startingAt "m") "m" f ⟨"id",by simp⟩ (by simp)
      (hts c (by simp))
    rw [deliver, List.foldl_cons, List.foldl_cons, List.foldl_cons, List.foldl_nil, hacks₃, hacks₂,
      hacks₁, List.append_assoc, List.append_assoc]
    rfl
  · intro hmem
    rw [mem_messageIds, List.map_cons, List.mem_cons, ← mem_messageIds] at hmem
    exact hmem.elim (by simp) (hconvo _ hm)
  · rw [Finset.card_insert_of_notMem hnew, hcard, maxSeenIdsPerPeer]

end Ingest

/-- A client that is to be told the result of a read. -/
def Running.reads (ticket : ℕ) (tag : KvTag) (c : Running) : Bool :=
  c.queue.isEmpty && match c.pending.lookup ticket with
    | some (.kv _ tag') => tag' = tag
    | _ => false

theorem Running.reads_step {x : Crates} {c : Running} {ticket : ℕ} {tag : KvTag} (amb : Ambient)
    (res : KvData) (h : Running.reads ticket tag c = true) :
    step x c (amb,.answer ticket (.kv res)) =
      some ((c.settle ticket).process (app x) amb (tag.event res)) := by
  simp only [Running.reads, Bool.and_eq_true] at h
  obtain ⟨hq,hpend⟩ := h
  split at hpend
  · rename_i op tag' hlookup
    obtain rfl : tag' = tag := by simpa using hpend
    simp [Core.step, Core.take, hq, hlookup, app, answer]
  · simp at hpend

/-- What the store holds of the long correspondence. -/
def agedStore : PeerMap (Finset String) := (∅ : PeerMap (Finset String)).insert (samplePeer 7) agedIds

def sampleAging : List (Action Event Answer) :=
  [.shell (.identityLoaded sampleSecret),.answer 0 (.kv (.ok none)),.answer 1 (.kv (.ok none)),
    .answer 2 (.kv (.ok (some (.contacts [Contact.new (samplePeer 7) "" 0])))),
    .answer 3 (.kv (.ok none)),.answer 4 (.kv (.ok none))]

def sampleWaking : List (Action Event Answer) :=
  [.drain,.drain,.answer 7 (sampleOk challengeText),.answer 9 (sampleOk tokenText),.drain,.drain]

/-- Online, with a poll under way, when the conversation is read as well. -/
def sampleAged : List (Action Event Answer) :=
  sampleAging ++ [.answer 5 (.kv (.ok (some (.seenIds agedStore))))] ++ sampleWaking

/-- The page of which the second text makes the client forget the first, which then comes again. -/
def sampleReplay : List Label :=
  [({ Ambient.sample with hash := .startingAt "m" },.answer 10 (.http (mailResult [1,2,1])))]

/-- What is on that page. -/
def replayed : List (String × ParsedPayload) :=
  [(samplePeer 7,⟨900,.text "m" "hi"⟩),(samplePeer 7,⟨950,.text "id" "yo"⟩),
    (samplePeer 7,⟨900,.text "m" "hi"⟩)]

theorem replay_page :
    readPage (.mailing [1,2,1]) ((Crates.mailing [1,2,1]).deliver (mailResult [1,2,1])) =
      some (postedPage [1,2,1]) ∧
    (postedPage [1,2,1]).opened (.mailing [1,2,1]) postedIdentity = replayed :=
  ⟨readPage_mailing (by decide +kernel),postedPage_opened (by decide +kernel) (by decide +kernel)⟩

theorem loadedSeenIds_seenIds (map : PeerMap (Finset String)) (m : Model) :
    (loadedSeenIds (.ok (some (.seenIds map))) m).1.seenIds = map := by
  obtain ⟨_,h⟩ := startupDone_fst { m with seenIds := map }
  exact congrArg Model.seenIds h

/-- The dedup set that was read is left alone. -/
theorem aged_seenIds {c : Running}
    (hrun : runFromBoot (.mailing [1,2,1]) (sampleLabels sampleAged) = some c) :
    c.model.seenIds = agedStore := by
  have haging : (runFromBoot (.mailing [1,2,1]) (sampleLabels sampleAging)).any
      (fun c => Running.reads 5 .loadedSeenIds c) = true := by decide
  have hkeeps : Core.Meets (app (.mailing [1,2,1])) (fun _ e m =>
      m.seenIds.contains (samplePeer 7) → Field.seenIds ∉ e.writes) (boot (.mailing [1,2,1]))
      (sampleLabels sampleAged) := by decide
  simp only [Option.any_eq_true] at haging
  obtain ⟨c₀,hc₀,hreads⟩ := haging
  have hread := Running.reads_step (x := .mailing [1,2,1]) .sample (.ok (some (.seenIds agedStore)))
    hreads
  have hloaded := Lts.run_append_eq_some _ hc₀ (Lts.run_single _ hread)
  simp only [sampleAged, sampleLabels, List.map_append, List.map_cons, List.map_nil] at hrun hkeeps
  rw [sampleLabels] at hloaded
  rw [runFromBoot, Lts.run_append, hloaded] at hrun
  refine Core.model_invariant (I := fun m => m.seenIds = agedStore) (fun amb e m hm hg => ?_)
    (loadedSeenIds_seenIds agedStore _) (hkeeps.after hloaded) hrun
  exact (update_agrees _ amb e m .seenIds (hg (by simp [hm, agedStore]))).trans hm

/-- The conversation is read, while a poll is under way. -/
theorem aged_run : ∃ c, runFromBoot (.mailing [1,2,1]) (sampleLabels (sampleAged ++
      [.answer 6 (.kv (.ok (some (.messages agedConvo))))])) = some c ∧
    LoadsDone c ∧ Running.polls 10 c = true ∧ c.model.secretKey = some sampleSecret ∧
    Ingest.Aged (samplePeer 7) agedIds { model := c.model } := by
  have hrun : (runFromBoot (.mailing [1,2,1]) (sampleLabels sampleAged)).any (fun c =>
      Running.polls 10 (c.settle 6) && Running.reads 6 (.loadedMessages (samplePeer 7)) c &&
      c.model.secretKey = some sampleSecret && samplePeer 7 ≠ c.model.myPubkey &&
      (c.model.contacts[samplePeer 7]?).any (fun c => !c.blocked) &&
      c.model.messages[samplePeer 7]?.isNone && decide (LoadsDone c)) = true := by decide
  simp only [Option.any_eq_true, Bool.and_eq_true, decide_eq_true_eq, Bool.not_eq_true',
    Option.isNone_iff_eq_none] at hrun
  obtain ⟨c,hc,⟨⟨⟨⟨⟨hpolls,hreads⟩,hsecret⟩,hme⟩,hcontact⟩,hconvo⟩,hdone⟩ := hrun
  have hseen : c.model.seenIds[samplePeer 7]? = some agedIds := by
    rw [aged_seenIds hc]
    simp [agedStore]
  have hread := Running.reads_step (x := .mailing [1,2,1]) .sample
    (.ok (some (.messages agedConvo))) hreads
  have hloaded : loadedMessages (samplePeer 7) (.ok (some (.messages agedConvo))) c.model =
      ({ c.model with
        seenIds := c.model.seenIds.insert (samplePeer 7) (agedIds ∪ messageIds agedConvo)
        messages := c.model.messages.insert (samplePeer 7) agedConvo },[.render]) := by
    simp [loadedMessages, parseKv, KvValue.messages?, hseen, hconvo, messageIds]
  have hprocess := Core.process_of_update (A := app (.mailing [1,2,1])) (a := .sample)
    (c := c.settle 6) (e := .loadedMessages (samplePeer 7) (.ok (some (.messages agedConvo)))) hloaded
  refine ⟨_,Lts.run_append_eq_some _ hc (Lts.run_single _ hread),
    hdone.step (wakes_run hc) (by simp [KeepsIdentity]) hread,?_⟩
  simp only [KvTag.event]
  rw [hprocess]
  refine ⟨?_,hsecret,hme,hcontact,?_,?_⟩
  · simpa [Running.polls, Core.settle, number] using hpolls
  · simp [Model.convo]
  · simpa [Model.seen] using messageIds_agedConvo

theorem replayed_before {ps : List (String × ParsedPayload)} {p : String × ParsedPayload} {body : String}
    (hps : ps ++ [p] <+: replayed) (htext : p.2.payload = .text "id" body) :
    ps = [(samplePeer 7,⟨900,.text "m" "hi"⟩)] := by
  -- Of the three texts the second has the id.
  obtain _ | ⟨a,_ | ⟨b,_ | ⟨c,ps⟩⟩⟩ := ps
  · obtain rfl : p = _ := by simpa [replayed] using hps
    simp at htext
  · obtain ⟨rfl,-⟩ : a = _ ∧ p = _ := by simpa [replayed] using hps
    rfl
  · obtain ⟨-,-,rfl⟩ : a = _ ∧ b = _ ∧ p = _ := by simpa [replayed] using hps
    simp at htext
  · simp [replayed] at hps

/-- A page of three texts under two ids comes when the dedup set is all but full. -/
theorem replay_run : ∃ c d log,
    runFromBoot (.mailing [1,2,1]) (sampleLabels (sampleAged ++
      [.answer 6 (.kv (.ok (some (.messages agedConvo))))])) = some c ∧ LoadsDone c ∧
    Running.polls 10 c = true ∧ c.model.identity (.mailing [1,2,1]) = some postedIdentity ∧
    c.model.dedupSet (samplePeer 7) = agedIds ∧ Lts.run (Lts.watch (step (.mailing [1,2,1])) (noteTexts (.mailing [1,2,1])))
      (c,fun _ => []) sampleReplay = some (d,log) ∧
    log (samplePeer 7) = ["m","id","m"] := by
  obtain ⟨c,hc,hdone,hpolls,hsecret,haged⟩ := aged_run
  have hident : c.model.identity (.mailing [1,2,1]) = some postedIdentity := mailing_identity hsecret
  have hset : c.model.dedupSet (samplePeer 7) = agedIds := by
    rw [Model.dedupSet_eq_seen (haged.seen ▸ agedIds_nonempty), haged.seen]
  let amb : Ambient := { Ambient.sample with hash := .startingAt "m" }
  obtain ⟨d,hd,-⟩ := Running.polls_step amb hpolls replay_page.1 hident
  have hwatch := Lts.watch_of_step (step (.mailing [1,2,1])) (noteTexts (.mailing [1,2,1]))
    (s := (c,fun _ => [])) hd
  refine ⟨c,d,_,hc,hdone,hpolls,hident,hset,Lts.run_single _ hwatch,?_⟩
  dsimp only
  let m : Model := { c.model with polling := false, pollRetries := 0 }
  have hacks : (Ingest.deliver (.mailing [1,2,1]) (.startingAt "m") (amb.now 1)
      replayed { model := m }).acks (samplePeer 7) =
      ({ model := m } : Ingest).acks (samplePeer 7) ++ ["m","id","m"] :=
    Ingest.aged_texts ⟨haged.me,haged.contact,haged.convo,haged.seen⟩ (by decide)
  rw [Running.polls_notes amb hpolls replay_page.1 hident, replay_page.2]
  exact hacks.trans (by simp [Ingest.acks])

/-- The client forgets the first id, and files a text under it twice. -/
theorem replay_past_cap : ∃ c d log,
    runFromBoot (.mailing [1,2,1]) (sampleLabels (sampleAged ++
      [.answer 6 (.kv (.ok (some (.messages agedConvo))))])) = some c ∧ LoadsDone c ∧
    Lts.run (Lts.watch (step (.mailing [1,2,1])) (noteTexts (.mailing [1,2,1])))
      (c,fun _ => []) sampleReplay = some (d,log) ∧
    log (samplePeer 7) = ["m","id","m"] := by
  obtain ⟨c,d,log,hc,hdone,-,-,-,hrun,hlog⟩ := replay_run
  exact ⟨c,d,log,hc,hdone,hrun,hlog⟩

/-- The other id is filed once, although the page takes the dedup set past its cap. -/
theorem texts_filed_once_replay : ∃ c d log,
    runFromBoot (.mailing [1,2,1]) (sampleLabels (sampleAged ++
      [.answer 6 (.kv (.ok (some (.messages agedConvo))))])) = some c ∧
    Lts.run (Lts.watch (step (.mailing [1,2,1])) (noteTexts (.mailing [1,2,1])))
      (c,fun _ => []) sampleReplay = some (d,log) ∧
    "id" ∈ log (samplePeer 7) ∧ (log (samplePeer 7)).count "id" ≤ 1 := by
  obtain ⟨c,d,log,hc,hdone,hpolls,hident,hset,hrun,hlog⟩ := replay_run
  have hrecalls : RecallsAt (.mailing [1,2,1]) (samplePeer 7) "id" (c,fun _ => [])
      ({ Ambient.sample with hash := .startingAt "m" },.answer 10 (.http (mailResult [1,2,1]))) := by
    intro e he page identity htake _ _ ps p hps hpeer body htext
    rw [(Running.polls_event hpolls _).1] at he
    cases he
    obtain ⟨-,-,hread,hident'⟩ := takesIn_eq_some.mp htake
    obtain rfl := Option.some.inj (replay_page.1.symm.trans hread)
    obtain rfl := Option.some.inj (hident.symm.trans hident')
    refine ⟨fun hid => absurd hid List.not_mem_nil,?_⟩
    rw [replay_page.2] at hps
    obtain rfl := replayed_before hps htext
    -- The text in front of it fills the set up to the cap.
    refine .inr (.inl ?_)
    rw [hset]
    calc
      (agedIds ∪ {"m"}).card ≤ agedIds.card+({"m"} : Finset String).card := Finset.card_union_le _ _
      _ = maxSeenIdsPerPeer := by rw [card_agedIds, Finset.card_singleton, maxSeenIdsPerPeer]
  exact ⟨c,d,log,hc,hrun,by simp [hlog],(texts_filed_once hc hdone
    (by simp [sampleReplay, KeepsIdentity]) hrun (samplePeer 7) "id").1 ⟨hrecalls,fun _ _ => trivial⟩⟩

end Skrepka.Client
