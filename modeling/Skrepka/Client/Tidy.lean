import Skrepka.Client.Flushes
import Skrepka.Client.Stamps

/-! The profiles that wait in the queue. A broadcast rewrites the first one for a contact that it finds
behind the live request, so that one at most waits as long as no other comes back from the wire. -/
namespace Skrepka.Client
open Rust Mvu Queue Tried

/-- How many profiles for a peer are in a queue. -/
def copies (peer : String) (q : List OutboxItem) : ℕ := q.countP (OutboxItem.profileFor peer)

/-- At most one is behind the live request. -/
def Tidy (m : Model) : Prop := ∀ peer, copies peer (m.outbox.drop m.inFlightCount) ≤ 1

/-- A queue with at most one for each recipient. -/
def sparse (q : List OutboxItem) : Bool := q.all fun i => !i.isProfile || copies i.recipient q ≤ 1

/-- The profiles of a queue, as whom they are for and what they say. -/
def written (q : List OutboxItem) : List (String × String) :=
  (q.filter OutboxItem.isProfile).map fun i => (i.recipient,i.envelopeJson)

/-- The last that was written for a peer. -/
def latest (peer : String) (log : List (String × String)) : Option String :=
  ((log.filter fun p => p.1 = peer).getLast?).map Prod.snd

/-- The last profile for each peer in a queue says what was last written for that peer. -/
def Current (log : List (String × String)) (q : List OutboxItem) : Prop :=
  ∀ peer json, latest peer (written q) = some json → latest peer log = some json

theorem copies_append (peer : String) (q r : List OutboxItem) :
    copies peer (q ++ r) = copies peer q+copies peer r := List.countP_append

theorem copies_split (peer : String) (n : ℕ) (q : List OutboxItem) :
    copies peer (q.take n)+copies peer (q.drop n) = copies peer q := by
  rw [← copies_append, List.take_append_drop]

theorem copies_pos {peer : String} {q : List OutboxItem} (h : 0 < copies peer q) :
    ∃ i ∈ q, i.isProfile = true ∧ i.recipient = peer := by
  obtain ⟨i,hi,hfor⟩ := List.countP_pos_iff.mp h
  simp only [OutboxItem.profileFor, Bool.and_eq_true, decide_eq_true_eq] at hfor
  exact ⟨i,hi,hfor⟩

theorem copies_sparse {q : List OutboxItem} (h : sparse q = true) (peer : String) :
    copies peer q ≤ 1 := by
  by_contra hmany
  obtain ⟨i,hi,hprofile,rfl⟩ := copies_pos (show 0 < copies peer q by omega)
  have := List.all_eq_true.mp h i hi
  simp only [hprofile, Bool.not_true, Bool.false_or, decide_eq_true_eq] at this
  exact hmany this

theorem tidy_of_total {m : Model} (h : ∀ peer, copies peer m.outbox ≤ 1) : Tidy m := by
  intro peer
  have hsplit := copies_split peer m.inFlightCount m.outbox
  have := h peer
  omega

theorem copies_mono {q r : List OutboxItem} (h : q.Sublist r) (peer : String) :
    copies peer q ≤ copies peer r := h.countP_le

/-- A queue that loses items and keeps the others as they are has no more copies. -/
theorem copies_evolves {same : OutboxItem → OutboxItem → Prop} {added : OutboxItem → Prop}
    {lost : ℕ → OutboxItem → Prop} {k : ℕ} {q r : List OutboxItem}
    (h : Evolves same added lost k q r)
    (hsame : ∀ i j, same i j → j.recipient = i.recipient ∧ j.kind = i.kind)
    (hadded : ∀ i, ¬added i) (peer : String) : copies peer r ≤ copies peer q := by
  induction h with
  | nil k => exact le_rfl
  | @keep _ i j _ _ hij _ ih =>
    obtain ⟨hr,hk⟩ := hsame i j hij
    have hfor : j.profileFor peer = i.profileFor peer := by
      simp [OutboxItem.profileFor, OutboxItem.isProfile, hr, hk]
    simp only [copies, List.countP_cons, hfor] at ih ⊢
    omega
  | lose _ _ ih =>
    simp only [copies, List.countP_cons] at ih ⊢
    omega
  | add hi _ _ => exact absurd hi (hadded _)

/-- What a load brings to the queue. -/
def loadedItems : Event → List OutboxItem
  | .loadedOutbox res => match parseKv KvValue.outbox? res with
    | .ok (some list) => list
    | _ => []
  | _ => []

/-- The events after which at most one profile for each peer waits: a live request that ends without
being settled leaves a queue with one at most for each, those who become contacts have none waiting, and
a load brings one for each peer at most and finds nothing on the wire. -/
def Event.staysTidy (x : Crates) (amb : Ambient) (e : Event) (m : Model) : Bool :=
  match e with
  | .loadedOutbox _ => m.inFlight.isNone && sparse (loadedItems e)
  | .sendResult gen res =>
    gen ≠ m.flushGen || (res.settles && !m.kvLoadFailed) || sparse m.outbox
  | .flushWatchdog gen => gen ≠ m.flushGen || !m.flushing || sparse m.outbox
  | .setServerUrl url => (normalizeServerUrl x url).isNone || sparse m.outbox
  | .saveProfile _ _ _ => true
  | e => (profileStamps x amb e m).all fun s =>
      copies s.peer (m.outbox.drop m.inFlightCount) = 0

/-- The watchdog of a flush sends at once what it takes off the wire: it may flush, it can encrypt every
profile in the queue, and one request may carry so much of the front of the queue that one profile at
most for each peer is behind that. -/
def Event.goesOutAgain (x : Crates) (amb : Ambient) (e : Event) (m : Model) : Bool :=
  match e with
  | .flushWatchdog _ => m.abandonFlush.mayFlush x amb && (m.identity x).any fun id =>
      let items := tried x amb.rng id 0 m.outbox
      items.all (fun p => !p.1.isProfile || p.usable) && (List.range (m.outbox.length+1)).any fun n =>
        (items.take n).all usable && sparse (m.outbox.drop n) &&
          Batchable (m.sendBatchBudget.getD maxSendBatchBytes) (items.take n)
  | _ => false

/-- A step after which at most one profile for each peer waits, where a request for a batch can always be
built. -/
def Event.keepsTidy (x : Crates) (amb : Ambient) (e : Event) (m : Model) : Prop :=
  e.staysTidy x amb m = true ∨ (∀ body, x.serializes body = true) ∧ e.goesOutAgain x amb m = true

/-- The profiles that an event writes into the queue. -/
def Event.writings (x : Crates) (amb : Ambient) (e : Event) (m : Model) : List (String × String) :=
  match e with
  | .loadedOutbox _ => written (loadedItems e)
  | e => (profileStamps x amb e m).map fun s => (s.peer,s.json x)

section
variable {x : Crates} {amb : Ambient} {m : Model}

theorem written_append (q r : List OutboxItem) : written (q ++ r) = written q ++ written r := by
  simp [written]

theorem latest_append (peer : String) (log new : List (String × String)) :
    latest peer (log ++ new) = (latest peer new).or (latest peer log) := by
  simp only [latest, List.filter_append, List.getLast?_append]
  cases (new.filter fun p => p.1 = peer).getLast? <;> rfl

theorem latest_written (peer : String) (q : List OutboxItem) : latest peer (written q) =
    ((q.filter (OutboxItem.profileFor peer)).getLast?).map OutboxItem.envelopeJson := by
  simp only [latest, written, List.filter_map, List.getLast?_map, Option.map_map, List.filter_filter]
  have hfilter : q.filter (fun i => ((fun p : String × String => decide (p.1 = peer)) ∘
      fun i : OutboxItem => (i.recipient,i.envelopeJson)) i && i.isProfile) =
        q.filter (OutboxItem.profileFor peer) :=
    List.filter_congr fun i _ => Bool.and_comm _ _
  rw [hfilter]
  rfl

theorem Current.append {log new : List (String × String)} {q items : List OutboxItem}
    (h : Current log q) (hnew : written items = new) : Current (log ++ new) (q ++ items) := by
  intro peer json hlast
  rw [written_append, latest_append, hnew] at hlast
  rw [latest_append]
  cases hitems : latest peer new with
  | none =>
    rw [hitems] at hlast
    exact h peer json hlast
  | some json' =>
    rw [hitems] at hlast
    exact hlast

/-- The last profile in the back of a queue is the last of the whole queue. -/
theorem Current.drop {log : List (String × String)} {q : List OutboxItem} (h : Current log q)
    (n : ℕ) : Current log (q.drop n) := by
  intro peer json hlast
  refine h peer json ?_
  rw [← List.take_append_drop n q, written_append, latest_append, hlast]
  rfl

/-- Items that are lost and kept bring nothing back when there is one for each peer. -/
theorem Current.evolves {log : List (String × String)} {lost : ℕ → OutboxItem → Prop}
    {q r : List OutboxItem} (h : Current log q) (hone : ∀ peer, copies peer q ≤ 1)
    (hevolves : Evolves Kin (fun _ => False) lost 0 q r) : Current log r := by
  intro peer json hlast
  refine h peer json ?_
  rw [latest_written, Option.map_eq_some_iff] at hlast ⊢
  obtain ⟨i,hi,rfl⟩ := hlast
  obtain ⟨hi,hfor⟩ := List.mem_filter.mp (List.mem_of_getLast? hi)
  obtain ⟨j,hj,hr,hk,hjson⟩ := (hevolves.mem hi).resolve_right id
  have hj' : j ∈ q.filter (OutboxItem.profileFor peer) := by
    refine List.mem_filter.mpr ⟨hj,?_⟩
    simpa [OutboxItem.profileFor, OutboxItem.isProfile, hr, hk] using hfor
  have hlen := hone peer
  rw [copies, List.countP_eq_length_filter] at hlen
  obtain ⟨k,hk⟩ := List.length_eq_one_iff.mp (hlen.antisymm (List.length_pos_of_mem hj'))
  rw [hk] at hj' ⊢
  obtain rfl := List.mem_singleton.mp hj'
  exact ⟨j,rfl,hjson.symm⟩

/-- What a step may do to the queue, with what it writes there, when no profile comes back to
another. -/
inductive Requeues (x : Crates) (m m' : Model) : List (String × String) → Prop
  | same (hout : m'.outbox = m.outbox) (hlive : m'.inFlight = m.inFlight) : Requeues x m m' []
  | recounted {lost : ℕ → OutboxItem → Prop} (n : ℕ)
      (hone : ∀ peer, copies peer (m.outbox.drop n) ≤ 1)
      (hevolves : Evolves Kin (fun _ => False) lost 0 (m.outbox.drop n) m'.outbox) :
      Requeues x m m' []
  | resent (hone : ∀ peer, copies peer (m'.outbox.drop m'.inFlightCount) ≤ 1)
      (hwritten : written m'.outbox = written m.outbox) : Requeues x m m' []
  | removed (peer : String) (hout : m'.outbox = (m.removeItems peer).outbox)
      (hlive : m'.inFlight = (m.removeItems peer).inFlight) : Requeues x m m' []
  | greeted {stamps : List Stamp} {front back : List OutboxItem} (hlive : m'.inFlight = m.inFlight)
      (hout : m'.outbox = m.outbox ++ front ++ stamps.map (Stamp.item x) ++ back)
      (hfront : ∀ i ∈ front, i.isProfile = false) (hback : ∀ i ∈ back, i.isProfile = false)
      (hdistinct : stamps.Pairwise fun s s' => s.peer ≠ s'.peer)
      (hnone : ∀ s ∈ stamps, copies s.peer (m.outbox.drop m.inFlightCount) = 0) :
      Requeues x m m' (stamps.map fun s => (s.peer,s.json x))
  | broadcast {json : String} {peers : List String} (hlive : m'.inFlight = m.inFlight)
      (hout : m'.outbox = m.outbox.take m.inFlightCount ++
        peers.foldl (fun queue peer => supersede json peer queue) (m.outbox.drop m.inFlightCount)) :
      Requeues x m m' (peers.map fun peer => (peer,json))
  | loaded (hone : ∀ peer, copies peer m'.outbox ≤ 1) : Requeues x m m' (written m'.outbox)

theorem requeues_evolves {e : Event} (amb : Ambient) (he : ∀ res, e ≠ .loadedOutbox res)
    (hq : e.queuesItems = false) (hone : ∀ peer, copies peer m.outbox ≤ 1) :
    Requeues x m (update x amb e m).1 [] := by
  refine .recounted 0 hone ((update_evolves he).mono ?_ ?_ fun _ _ h => h)
  · rintro i j ⟨hr,hk,hjson⟩
    refine ⟨hr,hk,hjson.resolve_right fun hsaves => ?_⟩
    cases e <;> simp [Event.savesProfile, Event.queuesItems] at hsaves hq
  · rintro i ⟨hadds,-⟩
    simp [hq] at hadds

theorem sendResult_requeues {res : HttpResult} (h : Tidy m)
    (hres : (res.settles && !m.kvLoadFailed) = true ∨ sparse m.outbox = true) :
    Requeues x m (sendResult x amb m.flushGen res m).1 [] := by
  obtain hsettled | hsparse := hres
  · obtain ⟨hsettles,hlatch⟩ := Bool.and_eq_true_iff.mp hsettled
    rw [Bool.not_eq_true'] at hlatch
    cases res with
    | err => simp [HttpResult.settles] at hsettles
    | ok resp =>
      simp only [HttpResult.settles, Bool.or_eq_true, decide_eq_true_eq] at hsettles
      have hstatus : resp.status ≠ 401 ∧ resp.status ≠ 429 ∧ resp.status ≠ 413 := by
        simp only [isSuccess, Bool.and_eq_true, decide_eq_true_eq] at hsettles
        omega
      obtain ⟨h401,h429,h413⟩ := hstatus
      obtain ⟨m',hm',hsend⟩ : ∃ m' : Model, m'.outbox = m.outbox.drop m.inFlightCount ∧
          (sendResult x amb m.flushGen (.ok resp) m).1 = (flushNext x amb m').1 := by
        simp only [sendResult, ne_eq, not_true_eq_false, if_false, h401, h429, h413, hsettles,
          if_true, sendDone, hlatch, Bool.false_eq_true, Upd.and_fst, persistOutbox_fst]
        exact ⟨_,refused_outbox _,rfl⟩
      have hflush := (flushNext_flushed x amb m').evolves
      rw [← hsend, hm'] at hflush
      exact .recounted m.inFlightCount h hflush
  · exact requeues_evolves (e := .sendResult m.flushGen res) amb (by simp) rfl (copies_sparse hsparse)

/-- The items that cannot be encrypted are gone without a trace when no profile is among them. -/
theorem written_usable {now : ℤ} {met : List Tried}
    (h : ∀ p ∈ met, p.1.isProfile = true → p.usable = true) :
    written ((met.filter usable).map fun p => p.1.stamp now) = written (met.map Prod.fst) := by
  induction met with
  | nil => rfl
  | cons p met ih =>
    obtain ⟨hp,hmet⟩ := List.forall_mem_cons.mp h
    have hstamp : written [p.1.stamp now] = written [p.1] := by
      obtain ⟨hr,hk,hjson⟩ := (restamped_stamp now p.1).kin
      have hkind : (p.1.stamp now).isProfile = p.1.isProfile := by simp only [OutboxItem.isProfile, hk]
      simp only [written, List.filter_cons, List.filter_nil, hkind]
      split
      · simp only [List.map_cons, List.map_nil, hr, hjson]
      · rfl
    cases husable : p.usable with
    | true =>
      rw [List.filter_cons_of_pos husable, List.map_cons, List.map_cons, ← List.singleton_append,
        ← List.singleton_append (x := p.1), written_append, written_append, hstamp, ih hmet]
    | false =>
      have hplain : p.1.isProfile = false := by
        by_contra hprofile
        simp [hp (by simpa using hprofile)] at husable
      rw [List.filter_cons_of_neg (by simp [husable]), ih hmet]
      simp [written, hplain]

/-- A flush that goes ahead leaves no more behind the live request than lies behind any part of the front
that one request may carry, and loses no profile that it can encrypt. -/
theorem flushNext_resent (hserializes : ∀ body, x.serializes body = true)
    (hmay : m.mayFlush x amb = true) {id : Crypto.Identity} (hid : m.identity x = some id)
    (hprofiles : ∀ p ∈ tried x amb.rng id 0 m.outbox, p.1.isProfile = true → p.usable = true) {n : ℕ}
    (husable : ∀ p ∈ (tried x amb.rng id 0 m.outbox).take n, p.usable = true)
    (hfits : Batchable (m.sendBatchBudget.getD maxSendBatchBytes)
      ((tried x amb.rng id 0 m.outbox).take n)) (hsparse : sparse (m.outbox.drop n) = true) :
    (∀ peer, copies peer ((flushNext x amb m).1.outbox.drop (flushNext x amb m).1.inFlightCount) ≤ 1) ∧
      written (flushNext x amb m).1.outbox = written m.outbox := by
  obtain ⟨_,b,met,rest,hid',-,htried,-,hstops,hout,hsent⟩ := flushNext_built hserializes hmay
  obtain rfl := Option.some.inj (hid'.symm.trans hid)
  have hitems : m.outbox = met.map Prod.fst ++ rest.map Prod.fst := by
    rw [← List.map_append, ← htried, tried_items]
  rw [htried] at hprofiles husable hfits
  refine ⟨fun peer => ?_,?_⟩
  · obtain ⟨hnil,hnone,-⟩ | ⟨hne,-,hcount⟩ := hsent
    · simp [hout, hnil, hnone, copies]
    rw [hout, hcount, List.drop_left' (List.length_map _)]
    -- The front was all met, or the flush would have taken up more of it.
    have hfront : rest = [] ∨ n ≤ met.length := by
      by_contra! hlonger
      obtain ⟨hrest,hlonger⟩ := hlonger
      rw [List.take_append, List.take_of_length_le hlonger.le] at husable hfits
      have hall : met.filter usable = met :=
        List.filter_eq_self.mpr fun p hp => husable p (List.mem_append_left _ hp)
      have hpre : met ++ rest.take (n-met.length) <+: met.filter usable ++ rest := by
        rw [hall, List.prefix_append_right_inj]
        exact List.take_prefix _ _
      have hshort := longest_of_stops hne hstops hpre hfits
      rw [hall, List.length_append, List.length_take] at hshort
      have := List.length_pos_iff.mpr hrest
      omega
    obtain rfl | hmet := hfront
    · exact Nat.zero_le 1
    · refine (copies_mono ?_ peer).trans (copies_sparse hsparse peer)
      rw [hitems, List.drop_append_of_le_length (by simpa using hmet)]
      exact List.sublist_append_right _ _
  · rw [hout, written_append, written_usable, ← written_append, ← hitems]
    exact fun p hp => hprofiles p (List.mem_append_left _ hp)

theorem flushWatchdog_requeues {gen : UInt64} (hserializes : ∀ body, x.serializes body = true)
    (hagain : Event.goesOutAgain x amb (.flushWatchdog gen) m = true) :
    Requeues x m (flushWatchdog x amb gen m).1 [] := by
  simp only [Event.goesOutAgain, Bool.and_eq_true, Option.any_eq_true, List.any_eq_true,
    List.all_eq_true, decide_eq_true_eq, Bool.or_eq_true, Bool.not_eq_true'] at hagain
  obtain ⟨hmay,id,hid,hprofiles,n,-,⟨husable,hsparse⟩,hfits⟩ := hagain
  simp only [flushWatchdog]
  split
  · exact .same rfl rfl
  have hprofiles' : ∀ p ∈ tried x amb.rng id 0 m.outbox, p.1.isProfile = true → p.usable = true :=
    fun p hp hprofile => (hprofiles p hp).resolve_left (by simp [hprofile])
  obtain ⟨hone,hwritten⟩ := flushNext_resent hserializes hmay hid hprofiles' husable hfits hsparse
  exact .resent hone hwritten

theorem loadedOutbox_requeues {res : KvData} (h : sparse (loadedItems (.loadedOutbox res)) = true) :
    Requeues x m (loadedOutbox res m).1 (written (loadedItems (.loadedOutbox res))) := by
  have hdone : ∀ m' : Model, (startupDone m').1.inFlight = m'.inFlight ∧
      (startupDone m').1.outbox = m'.outbox := by
    intro m'
    obtain ⟨_,h⟩ := startupDone_fst m'
    rw [h]
    exact ⟨rfl,rfl⟩
  have hlive : (loadedOutbox res m).1.inFlight = m.inFlight ∧
      (loadedItems (.loadedOutbox res) = [] ∧ (loadedOutbox res m).1.outbox = m.outbox ∨
        (loadedOutbox res m).1.outbox = loadedItems (.loadedOutbox res)) := by
    simp only [loadedOutbox, loaded, loadedItems, Upd.and_fst, Upd.emit_fst, hdone]
    cases parseKv KvValue.outbox? res with
    | error e => exact ⟨rfl,.inl ⟨rfl,rfl⟩⟩
    | ok list =>
      cases list with
      | none => exact ⟨rfl,.inl ⟨rfl,rfl⟩⟩
      | some list => exact ⟨rfl,.inr rfl⟩
  obtain ⟨hlive,⟨hnil,hout⟩ | hout⟩ := hlive
  · rw [hnil]
    exact .same hout hlive
  · rw [← hout] at h ⊢
    exact .loaded (copies_sparse h)

theorem sendText_distinct :
    (profileStamps x amb .sendText m).Pairwise fun s s' => s.peer ≠ s'.peer := by
  cases hpeer : m.activePeer with
  | none => simp [profileStamps, hpeer]
  | some peer =>
    simp only [profileStamps, hpeer, Option.toList_some, List.filter_cons, List.filter_nil]
    split
    · split <;> simp
    · exact List.Pairwise.nil

theorem removeItems_inFlight (m : Model) (peer : String) :
    (m.removeItems peer).inFlight = m.inFlight.filter fun f => f.recipient ≠ peer := by
  simp only [Model.removeItems, Model.detachInFlight]
  cases m.inFlight with
  | none => rfl
  | some f =>
    by_cases hpeer : f.recipient = peer <;> simp [Option.filter, hpeer]

theorem setBlocked_requeues (peer : String) (blocked : Bool) :
    Requeues x m (setBlocked peer blocked m).1 [] := by
  simp only [setBlocked]
  split
  · simp only [Upd.and_fst, Upd.emit_fst, persistContacts_fst, persistOutbox_fst,
      Model.refused_refused]
    refine .removed peer ((refused_outbox _).trans ?_) ((refused_inFlight _).trans ?_)
    · simp only [removeItems_outbox]
    · simp only [removeItems_inFlight]
  · simp only [Upd.and_fst, Upd.emit_fst, persistContacts_fst]
    exact .same (refused_outbox _) (refused_inFlight _)

theorem deleteContact_requeues (peer : String) : Requeues x m (deleteContact peer m).1 [] := by
  have hforget : (m.forgetPeer peer).outbox = (m.removeItems peer).outbox ∧
      (m.forgetPeer peer).inFlight = (m.removeItems peer).inFlight := by
    rw [removeItems_outbox, removeItems_inFlight]
    simp only [Model.forgetPeer]
    split
    all_goals
      exact ⟨removeItems_outbox _ _,removeItems_inFlight _ _⟩
  rw [deleteContact_fst]
  exact .removed peer ((refused_outbox _).trans hforget.1) ((refused_inFlight _).trans hforget.2)

theorem writings_other {e : Event} (amb : Ambient) (m : Model) (he : ∀ res, e ≠ .loadedOutbox res)
    (hq : e.queuesItems = false) : e.writings x amb m = [] := by
  cases e with
  | loadedOutbox res => exact absurd rfl (he res)
  | sendText | saveProfile | pollResult => simp [Event.queuesItems] at hq
  | _ => rfl

theorem update_stays {e : Event} (h : Tidy m) (hidle : m.flushing = false → m.inFlight = none)
    (hstays : e.staysTidy x amb m = true) :
    Requeues x m (update x amb e m).1 (e.writings x amb m) := by
  by_cases hw : .outbox ∈ e.writes ∨ .inFlight ∈ e.writes
  · cases e with
    | sendText =>
      obtain ⟨texts,htexts,hout⟩ := sendText_outbox x amb m
      obtain ⟨_,_,_,_,_,hm⟩ := sendText_fst x amb m
      have hlive : (sendText x amb m).1.inFlight = m.inFlight := by rw [hm]
      exact .greeted hlive (hout.trans (List.append_nil _).symm) htexts (by simp) sendText_distinct
        (by simpa [Event.staysTidy] using hstays)
    | setBlocked peer blocked => exact setBlocked_requeues peer blocked
    | deleteContact peer => exact deleteContact_requeues peer
    | saveProfile displayName bio photo =>
      obtain ⟨json,hjson,hout⟩ := saveProfile_outbox x amb displayName bio photo m
      have hwritings : Event.writings x amb (.saveProfile displayName bio photo) m =
          ((profileStamps x amb (.saveProfile displayName bio photo) m).map Stamp.peer).map
            fun peer => (peer,json) := by
        rw [List.map_map]
        exact List.map_congr_left fun s hs => by rw [hjson s hs]; rfl
      rw [hwritings]
      exact .broadcast (saveProfile_holds x amb displayName bio photo m).inFlight hout
    | pollResult gen res =>
      obtain ⟨acks,hacks,hout⟩ := pollResult_outbox x amb gen res m
      obtain ⟨_,_,_,_,_,_,_,_,_,_,_,hm,-⟩ := pollResult_fst x amb gen res m
      have hlive : (pollResult x amb gen res m).1.inFlight = m.inFlight := by rw [hm]
      have hdistinct : (profileStamps x amb (.pollResult gen res) m).Pairwise
          fun s s' => s.peer ≠ s'.peer :=
        List.pairwise_map.mpr (greeters_distinct x amb (.pollResult gen res) m)
      refine @Requeues.greeted _ _ _ _ [] _ hlive ?_ (by simp) hacks hdistinct ?_
      · rw [List.append_nil]
        exact hout
      · simpa [Event.staysTidy] using hstays
    | setServerUrl url =>
      simp only [Event.staysTidy, Bool.or_eq_true] at hstays
      obtain hrefused | hsparse := hstays
      · obtain ⟨-,_,hm⟩ | ⟨_,hurl,-⟩ := setServerUrl_fst x url m
        · exact .same (by simp only [update, hm]) (by simp only [update, hm])
        · simp [hurl] at hrefused
      · exact requeues_evolves (e := .setServerUrl url) amb (by simp) rfl (copies_sparse hsparse)
    | startFlush =>
      cases hf : m.flushing with
      | true =>
        refine .same ?_ ?_
        all_goals simp only [update, flushNext, hf, if_true]
      | false =>
        refine requeues_evolves (e := .startFlush) amb (by simp) rfl fun peer => ?_
        simpa [Model.inFlightCount, hidle hf] using h peer
    | flushWatchdog gen =>
      simp only [Event.staysTidy, Bool.or_eq_true, decide_eq_true_eq, Bool.not_eq_true'] at hstays
      by_cases hdead : gen ≠ m.flushGen ∨ ¬m.flushing = true
      · refine .same ?_ ?_
        all_goals simp only [update, flushWatchdog, hdead, if_true]
      · simp only [not_or, ne_eq, not_not] at hdead
        have hsparse : sparse m.outbox = true := by simpa [hdead] using hstays
        exact requeues_evolves (e := .flushWatchdog gen) amb (by simp) rfl (copies_sparse hsparse)
    | sendResult gen res =>
      simp only [Event.staysTidy, Bool.or_eq_true, decide_eq_true_eq] at hstays
      by_cases hg : gen = m.flushGen
      · subst hg
        exact sendResult_requeues h (by simpa using hstays)
      · refine .same ?_ ?_
        all_goals rw [(update_stale x amb m).2.1 gen res hg]
    | loadedOutbox res =>
      obtain ⟨-,hsparse⟩ := Bool.and_eq_true_iff.mp hstays
      exact loadedOutbox_requeues hsparse
    | _ => simp [Event.writes] at hw
  · push Not at hw
    have hq : e.queuesItems = false := by
      cases e <;> simp_all [Event.writes, Event.queuesItems]
    rw [writings_other amb m (fun res he => by simp [he, Event.writes] at hw) hq]
    exact .same (update_agrees x amb e m .outbox hw.1) (update_agrees x amb e m .inFlight hw.2)

/-- What an event does to a tidy queue. -/
theorem update_requeues {e : Event} (h : Tidy m) (hidle : m.flushing = false → m.inFlight = none)
    (hkeeps : e.keepsTidy x amb m) :
    Requeues x m (update x amb e m).1 (e.writings x amb m) := by
  obtain hstays | ⟨hserializes,hagain⟩ := hkeeps
  · exact update_stays h hidle hstays
  · cases e with
    | flushWatchdog gen => exact flushWatchdog_requeues hserializes hagain
    | _ => simp [Event.goesOutAgain] at hagain

theorem tidy_of_eq {m' : Model} (h : Tidy m) (hout : m'.outbox = m.outbox)
    (hlive : m'.inFlight = m.inFlight) : Tidy m' := by
  intro peer
  simpa [hout, Model.inFlightCount, hlive] using h peer

theorem Fits.count_le (hfits : ∀ f, m.inFlight = some f → Fits m f) :
    m.inFlightCount ≤ m.outbox.length := by
  cases hf : m.inFlight with
  | none => simp [Model.inFlightCount, hf]
  | some f => simpa [Model.inFlightCount, hf] using (hfits f hf).count

theorem copies_plain {items : List OutboxItem} (h : ∀ i ∈ items, i.isProfile = false)
    (peer : String) : copies peer items = 0 :=
  List.countP_eq_zero.mpr fun i hi => by simp [OutboxItem.profileFor, h i hi]

theorem copies_stamps {stamps : List Stamp} (h : stamps.Pairwise fun s s' => s.peer ≠ s'.peer)
    (peer : String) : copies peer (stamps.map (Stamp.item x)) ≤ 1 := by
  induction stamps with
  | nil => simp [copies]
  | cons s stamps ih =>
    obtain ⟨hne,hrest⟩ := List.pairwise_cons.mp h
    have ih := ih hrest
    simp only [copies, List.map_cons, List.countP_cons] at ih ⊢
    split
    · rename_i hs
      have hnone : (stamps.map (Stamp.item x)).countP (OutboxItem.profileFor peer) = 0 := by
        refine List.countP_eq_zero.mpr fun i hi hfor => ?_
        obtain ⟨s',hs',rfl⟩ := List.mem_map.mp hi
        exact hne s' hs' (((s.item_for x peer).mp hs).trans ((s'.item_for x peer).mp hfor).symm)
      omega
    · omega

/-- Items that are appended go behind the live request. -/
theorem tidy_append {m' : Model} {new : List OutboxItem}
    (hfits : ∀ f, m.inFlight = some f → Fits m f) (hout : m'.outbox = m.outbox ++ new)
    (hlive : m'.inFlight = m.inFlight)
    (hnew : ∀ peer, copies peer (m.outbox.drop m.inFlightCount)+copies peer new ≤ 1) : Tidy m' := by
  have hcount : m.inFlightCount ≤ m.outbox.length := by
    cases hf : m.inFlight with
    | none => simp [Model.inFlightCount, hf]
    | some f => simpa [Model.inFlightCount, hf] using (hfits f hf).count
  have hlive' : m'.inFlightCount = m.inFlightCount := by simp [Model.inFlightCount, hlive]
  intro peer
  rw [hlive', hout, List.drop_append_of_le_length hcount, copies_append]
  exact hnew peer

/-- New contacts are sent one profile each. -/
theorem Tidy.greet {m' : Model} {stamps : List Stamp} {front back : List OutboxItem} (h : Tidy m)
    (hfits : ∀ f, m.inFlight = some f → Fits m f) (hlive : m'.inFlight = m.inFlight)
    (hout : m'.outbox = m.outbox ++ front ++ stamps.map (Stamp.item x) ++ back)
    (hfront : ∀ i ∈ front, i.isProfile = false) (hback : ∀ i ∈ back, i.isProfile = false)
    (hdistinct : stamps.Pairwise fun s s' => s.peer ≠ s'.peer)
    (hnone : ∀ s ∈ stamps, copies s.peer (m.outbox.drop m.inFlightCount) = 0) : Tidy m' := by
  rw [List.append_assoc, List.append_assoc] at hout
  refine tidy_append hfits hout hlive fun peer => ?_
  rw [copies_append, copies_append, copies_plain hfront, copies_plain hback]
  have hone := copies_stamps (x := x) hdistinct peer
  have hwaiting := h peer
  obtain hzero | hpos := Nat.eq_zero_or_pos (copies peer (stamps.map (Stamp.item x)))
  · omega
  · obtain ⟨i,hi,-,hpeer⟩ := copies_pos hpos
    obtain ⟨s,hs,rfl⟩ := List.mem_map.mp hi
    obtain rfl : s.peer = peer := hpeer
    have := hnone s hs
    omega

/-- Dropping everything for a peer, when the live request holds no profile for another. -/
theorem Tidy.remove_all (h : Tidy m) {peer : String}
    (hlive : ∀ other, other ≠ peer → copies other (m.outbox.take m.inFlightCount) = 0) :
    Tidy (m.removeItems peer) := by
  refine tidy_of_total fun other => ?_
  rw [removeItems_outbox]
  by_cases hother : other = peer
  · have hgone : copies other (m.outbox.filter (fun i => i.recipient ≠ peer)) = 0 := by
      refine List.countP_eq_zero.mpr fun i hi hfor => ?_
      have hne := (List.mem_filter.mp hi).2
      simp only [OutboxItem.profileFor, Bool.and_eq_true, decide_eq_true_eq] at hfor
      simp [hfor.2, hother] at hne
    omega
  · have hless := copies_mono (m.outbox.filter_sublist (p := fun i => i.recipient ≠ peer)) other
    have hsplit := copies_split other m.inFlightCount m.outbox
    have hbehind := h other
    have := hlive other hother
    omega

/-- Dropping everything for a peer. -/
theorem Tidy.remove (h : Tidy m) (hfits : ∀ f, m.inFlight = some f → Fits m f) (peer : String) :
    Tidy (m.removeItems peer) := by
  cases hf : m.inFlight with
  | none => exact h.remove_all fun other _ => by simp [Model.inFlightCount, hf, copies]
  | some f =>
    have hfit := hfits f hf
    have hcount : m.inFlightCount = f.count := by simp [Model.inFlightCount, hf]
    by_cases hpeer : f.recipient = peer
    · refine h.remove_all fun other hother => List.countP_eq_zero.mpr fun i hi hfor => hother ?_
      simp only [OutboxItem.profileFor, Bool.and_eq_true, decide_eq_true_eq] at hfor
      rw [hcount] at hi
      exact (hfor.2.symm.trans (hfit.recipient i hi)).trans hpeer
    · have hlive : (m.removeItems peer).inFlight = m.inFlight := by
        simp [Model.removeItems, Model.detachInFlight, hf, hpeer]
      have hlive' : (m.removeItems peer).inFlightCount = f.count := by
        simp [Model.inFlightCount, hlive, hf]
      have hfront : (m.outbox.take f.count).filter (fun i => i.recipient ≠ peer) =
          m.outbox.take f.count :=
        List.filter_eq_self.mpr fun i hi => by simpa [hfit.recipient i hi] using hpeer
      have hlen : (m.outbox.take f.count).length = f.count := by simpa using hfit.count
      have hout : (m.removeItems peer).outbox = m.outbox.take f.count ++
          (m.outbox.drop f.count).filter (fun i => i.recipient ≠ peer) := by
        rw [removeItems_outbox, ← hfront, ← List.filter_append, List.take_append_drop]
      intro other
      have hother := h other
      rw [hcount] at hother
      rw [hlive', hout, List.drop_left' hlen]
      exact (copies_mono List.filter_sublist other).trans hother

/-- A broadcast leaves one profile for each of its recipients. -/
theorem Tidy.broadcast {m' : Model} {json : String} {peers : List String} (h : Tidy m)
    (hfits : ∀ f, m.inFlight = some f → Fits m f) (hlive : m'.inFlight = m.inFlight)
    (hout : m'.outbox = m.outbox.take m.inFlightCount ++
      peers.foldl (fun queue peer => supersede json peer queue) (m.outbox.drop m.inFlightCount)) :
    Tidy m' := by
  have hlen : (m.outbox.take m.inFlightCount).length = m.inFlightCount := by
    simpa using Fits.count_le hfits
  have hlive' : m'.inFlightCount = m.inFlightCount := by simp [Model.inFlightCount, hlive]
  intro peer
  rw [hlive', hout, List.drop_left' hlen]
  have hbehind := h peer
  simp only [copies, List.countP_eq_length_filter, foldl_supersede_profiles] at hbehind ⊢
  split
  · cases hq : (m.outbox.drop m.inFlightCount).filter (OutboxItem.profileFor peer) with
    | nil => simp [refreshed]
    | cons i rest =>
      rw [hq] at hbehind
      simpa [refreshed] using hbehind
  · exact hbehind

/-- A queue stays tidy. -/
theorem Requeues.tidy {m' : Model} {new : List (String × String)} (hr : Requeues x m m' new)
    (h : Tidy m) (hfits : ∀ f, m.inFlight = some f → Fits m f) : Tidy m' := by
  cases hr with
  | same hout hlive => exact tidy_of_eq h hout hlive
  | recounted n hone hevolves =>
    refine tidy_of_total fun peer => ?_
    have hless := copies_evolves hevolves (fun i j hij => ⟨hij.1,hij.2.1⟩) (fun _ h => h) peer
    exact hless.trans (hone peer)
  | resent hone => exact hone
  | removed peer hout hlive => exact tidy_of_eq (h.remove hfits peer) hout hlive
  | greeted hlive hout hfront hback hdistinct hnone =>
    exact h.greet hfits hlive hout hfront hback hdistinct hnone
  | broadcast hlive hout => exact h.broadcast hfits hlive hout
  | loaded hone => exact tidy_of_total hone

theorem written_plain {items : List OutboxItem} (h : ∀ i ∈ items, i.isProfile = false) :
    written items = [] := by
  simpa [written] using h

theorem written_stamps (stamps : List Stamp) :
    written (stamps.map (Stamp.item x)) = stamps.map fun s => (s.peer,s.json x) := by
  have hall : (stamps.map (Stamp.item x)).filter OutboxItem.isProfile = stamps.map (Stamp.item x) := by
    refine List.filter_eq_self.mpr fun i hi => ?_
    obtain ⟨s,-,rfl⟩ := List.mem_map.mp hi
    rfl
  rw [written, hall, List.map_map]
  rfl

theorem latest_peers {peer json : String} {peers : List String} :
    latest peer (peers.map fun peer => (peer,json)) = if peer ∈ peers then some json else none := by
  have hsame : peers.filter
      ((fun p : String × String => decide (p.1 = peer)) ∘ fun peer => (peer,json)) =
        List.replicate (peers.count peer) peer := by
    rw [← List.filter_eq]
    exact List.filter_congr fun p _ => by simp [eq_comm]
  rw [latest, List.filter_map, hsame, List.getLast?_map, List.getLast?_replicate]
  by_cases hpeer : peer ∈ peers
  · simp [hpeer, List.count_eq_zero]
  · simp [hpeer, List.count_eq_zero_of_not_mem]

theorem Current.remove {log : List (String × String)} (h : Current log m.outbox) (peer : String) :
    Current log (m.removeItems peer).outbox := by
  intro other json hlast
  rw [removeItems_outbox, latest_written, List.filter_filter] at hlast
  refine h other json ?_
  rw [latest_written, ← hlast]
  by_cases hother : other = peer
  · have hgone : m.outbox.filter
        (fun i => i.profileFor other && decide (i.recipient ≠ peer)) = [] := by
      refine List.filter_eq_nil_iff.mpr fun i _ hi => ?_
      simp only [OutboxItem.profileFor, hother, Bool.and_eq_true, decide_eq_true_eq, ne_eq] at hi
      exact hi.2 hi.1.2
    rw [hgone] at hlast
    simp at hlast
  · congr 2
    refine List.filter_congr fun i _ => ?_
    by_cases hi : i.recipient = other <;> simp [OutboxItem.profileFor, hi, hother]

theorem Current.broadcast {log : List (String × String)} {json : String} {peers : List String}
    {live behind : List OutboxItem} (h : Current log (live ++ behind))
    (hone : ∀ peer, copies peer behind ≤ 1) :
    Current (log ++ peers.map fun peer => (peer,json))
      (live ++ peers.foldl (fun queue peer => supersede json peer queue) behind) := by
  intro peer json' hlast
  rw [latest_append, latest_peers]
  rw [written_append, latest_append, latest_written, foldl_supersede_profiles] at hlast
  by_cases hpeer : peer ∈ peers
  · have hlen := hone peer
    rw [copies, List.countP_eq_length_filter] at hlen
    rw [if_pos hpeer] at hlast ⊢
    have hjson : (((refreshed json peer (behind.filter (OutboxItem.profileFor peer))).getLast?).map
        OutboxItem.envelopeJson) = some json := by
      cases hq : behind.filter (OutboxItem.profileFor peer) with
      | nil => rfl
      | cons i rest =>
        obtain rfl : rest = [] := by simpa [hq] using hlen
        rfl
    rw [hjson] at hlast
    exact hlast
  · rw [if_neg hpeer] at hlast ⊢
    refine h peer json' ?_
    rw [written_append, latest_append, latest_written peer behind]
    exact hlast

/-- And what it holds stays current. -/
theorem Requeues.current {m' : Model} {new log : List (String × String)} (hr : Requeues x m m' new)
    (h : Tidy m) (hlog : Current log m.outbox) : Current (log ++ new) m'.outbox := by
  cases hr with
  | same hout hlive => simpa [hout] using hlog
  | recounted n hone hevolves =>
    rw [List.append_nil]
    exact (hlog.drop n).evolves hone hevolves
  | resent _ hwritten =>
    rw [List.append_nil, Current, hwritten]
    exact hlog
  | removed peer hout hlive =>
    rw [List.append_nil, hout]
    exact hlog.remove peer
  | @greeted stamps front back hlive hout hfront hback hdistinct hnone =>
    have hall := ((hlog.append (written_plain hfront)).append (written_stamps (x := x) stamps)).append
      (written_plain hback)
    rw [List.append_nil, List.append_nil] at hall
    rw [hout]
    exact hall
  | broadcast hlive hout =>
    rw [hout]
    refine Current.broadcast ?_ h
    rwa [List.take_append_drop]
  | loaded hone =>
    intro peer json hlast
    rw [latest_append, hlast]
    rfl

/-- A stamped profile is the one that the model then has. -/
theorem profileStamps_profile {amb : Ambient} {e : Event} {s : Stamp}
    (hs : s ∈ profileStamps x amb e m) : s.profile = (update x amb e m).1.profile := by
  have hkept : .profile ∉ e.writes → s.profile = m.profile →
      s.profile = (update x amb e m).1.profile :=
    fun hw hprofile => hprofile.trans (update_agrees x amb e m .profile hw).symm
  cases e with
  | saveProfile displayName bio photo =>
    simp only [profileStamps] at hs
    split at hs
    · rename_i haccepted
      obtain ⟨peer,-,rfl⟩ := List.mem_map.mp hs
      have hm := congrArg Model.profile (saveProfile_accepted amb (accepted_withinCaps haccepted) m)
      rw [Model.refused_eq] at hm
      exact hm.symm
    · simp at hs
  | sendText =>
    simp only [profileStamps] at hs
    split at hs
    · obtain ⟨peer,-,rfl⟩ := List.mem_map.mp hs
      exact hkept (by simp [Event.writes]) rfl
    · simp at hs
  | pollResult gen res =>
    obtain ⟨p,-,rfl⟩ := List.mem_map.mp hs
    exact hkept (by simp [Event.writes]) rfl
  | _ => simp [profileStamps, Event.greeters, Event.takesIn] at hs

/-- An observer who writes down what every step writes into the queue. -/
def noteWritings (x : Crates) (c : Running) (l : Label) (_ : Running) (log : List (String × String)) :
    List (String × String) :=
  log ++ ((c.event? (app x) l.2).map (Event.writings x l.1 · c.model)).getD []

abbrev stepWriting (x : Crates) :
    Running × List (String × String) → Label → Option (Running × List (String × String)) :=
  Lts.watch (step x) (noteWritings x)

/-- What every step that meets the condition preserves. -/
structure Orderly (x : Crates) (s : Running × List (String × String)) : Prop where
  wf : s.1.Wf
  flight : FlightOk x s.1
  tidy : Tidy s.1.model
  current : Current s.2 s.1.model.outbox

theorem orderly_boot (x : Crates) : Orderly x (boot x,[]) where
  wf := Core.boot_wf _
  flight := flightOk_boot x
  tidy := tidy_of_total fun _ => Nat.zero_le 1
  current := fun _ _ h => h

theorem Orderly.step {s t : Running × List (String × String)} {l : Label} (h : Orderly x s)
    (hl : ∀ e ∈ s.1.event? (app x) l.2, e.keepsTidy x l.1 s.1.model)
    (hs : stepWriting x s l = some t) : Orderly x t := by
  obtain ⟨hstep,hnote⟩ := Lts.watch_eq_some _ hs
  obtain ⟨⟨e,c⟩,htake,hc⟩ := Option.map_eq_some_iff.mp hstep
  have ht := Core.takes_of_take htake
  have he : s.1.event? (app x) l.2 = some e := by simp [Core.event?, htake]
  have hmodel : t.1.model = (update x l.1 e s.1.model).1 := by
    rw [← hc, process_model ht]
  have hkeeps := hl e he
  have hfits := fun f hf => (h.flight f hf).1
  have hrequeues := update_requeues h.tidy h.flight.flushing hkeeps
  have hload : LoadsIdle x s.1 l := by
    intro hload
    rw [he, Option.any_some] at hload
    cases e with
    | loadedOutbox res =>
      obtain hstays | ⟨-,hagain⟩ := hkeeps
      · simpa using (Bool.and_eq_true_iff.mp hstays).1
      · simp [Event.goesOutAgain] at hagain
    | _ => simp at hload
  refine ⟨Core.step_wf h.wf hstep,h.flight.step h.wf hload hstep,?_,?_⟩
  · rw [hmodel]
    exact hrequeues.tidy h.tidy hfits
  · rw [hmodel, hnote, noteWritings, he]
    exact hrequeues.current h.tidy h.current

/-- In a run in which no profile comes back to another, at most one for each peer waits behind the live
request. It is the last one for that peer in the queue and says what was last written for that peer,
and what is written at a step is the profile that is saved then. -/
theorem queued_profile_current {ls : List Label} {c : Running} {log : List (String × String)}
    (hmeets : Core.Meets (app x) (fun amb e m => e.keepsTidy x amb m) (boot x) ls)
    (hrun : Lts.run (stepWriting x) (boot x,[]) ls = some (c,log)) :
    (∀ peer front i back, c.model.outbox = front ++ i :: back →
      c.model.inFlightCount ≤ front.length → i.profileFor peer = true →
      (∀ j ∈ front.drop c.model.inFlightCount ++ back, j.profileFor peer = false) ∧
        latest peer log = some i.envelopeJson) ∧
    ∀ amb e m, ∀ s ∈ profileStamps x amb e m, s.profile = (update x amb e m).1.profile := by
  have h : Orderly x (c,log) := Lts.run_invariant_along (stepWriting x)
    (fun s l t h hl hs => h.step hl hs) (orderly_boot x) (Lts.Along.watch _ hmeets) hrun
  refine ⟨fun peer front i back hout hlive hfor => ?_,fun amb e m s hs => profileStamps_profile hs⟩
  have hbehind : c.model.outbox.drop c.model.inFlightCount =
      front.drop c.model.inFlightCount ++ i :: back := by
    rw [hout, List.drop_append_of_le_length hlive]
  have hone := h.tidy peer
  simp only [hbehind, copies, List.countP_append, List.countP_cons, hfor, if_true] at hone
  have hfront := List.countP_eq_zero.mp (show (front.drop c.model.inFlightCount).countP
    (OutboxItem.profileFor peer) = 0 by omega)
  have hback := List.countP_eq_zero.mp (show back.countP (OutboxItem.profileFor peer) = 0 by omega)
  refine ⟨fun j hj => ?_,h.current peer i.envelopeJson ?_⟩
  · obtain hj | hj := List.mem_append.mp hj
    · exact (Bool.not_eq_true _).mp (hfront j hj)
    · exact (Bool.not_eq_true _).mp (hback j hj)
  · have hnone : back.filter (OutboxItem.profileFor peer) = [] := List.filter_eq_nil_iff.mpr hback
    rw [latest_written, hout, List.filter_append, List.filter_cons, if_pos hfor, hnone]
    simp

end

/-- The sample crates, with a printer that prints a profile's name. -/
def Crates.naming : Crates :=
  { Crates.sample with toJson := fun j => ((j.get? "display_name").bind Json.asStr?).getD "" }

/-- Online with one contact, with a profile on the wire and another behind it. -/
def sampleResaved : List (Action Event Answer) :=
  sampleParting.take 16 ++ [.shell (.saveProfile "o" "" none),.drain]

/-- The first profile comes back in front of the second and is the one that a third supersedes, so
that the second goes out last. -/
theorem queued_profile_stale : ∃ c log, Lts.run (stepWriting .naming) (boot .naming,[])
      (sampleLabels (sampleResaved ++ [.answer 15 (.http (.ok ⟨500,none,[]⟩)),
        .shell (.saveProfile "p" "" none)])) = some (c,log) ∧
    c.model.inFlight = none ∧ c.model.isBlocked (samplePeer 7) = false ∧
    c.model.profile.displayName = "p" ∧
    c.model.outbox.map OutboxItem.envelopeJson = ["p","o"] ∧
    (∀ i ∈ c.model.outbox, i.profileFor (samplePeer 7) = true) ∧ ¬Tidy c.model := by
  have hrun : (Lts.run (stepWriting .naming) (boot .naming,[])
      (sampleLabels (sampleResaved ++ [.answer 15 (.http (.ok ⟨500,none,[]⟩)),
        .shell (.saveProfile "p" "" none)]))).any (fun s =>
      s.1.model.inFlight.isNone && !s.1.model.isBlocked (samplePeer 7) &&
        s.1.model.profile.displayName = "p" &&
        s.1.model.outbox.map OutboxItem.envelopeJson = ["p","o"] &&
        s.1.model.outbox.all (OutboxItem.profileFor (samplePeer 7))) = true := by decide
  simp only [Option.any_eq_true, Bool.and_eq_true, decide_eq_true_eq, Prod.exists,
    Option.isNone_iff_eq_none, Bool.not_eq_true', List.all_eq_true] at hrun
  obtain ⟨c,log,hc,⟨⟨⟨hlive,hblocked⟩,hname⟩,hout⟩,hfor⟩ := hrun
  refine ⟨c,log,hc,hlive,hblocked,hname,hout,hfor,fun htidy => ?_⟩
  have hone := htidy (samplePeer 7)
  have hlen : c.model.outbox.length = 2 := by
    simpa using congrArg List.length hout
  simp only [Model.inFlightCount, hlive, Option.elim_none, List.drop_zero, copies] at hone
  rw [List.countP_eq_length.mpr hfor] at hone
  omega

/-- The watchdog fires and both profiles go out; the third waits alone. -/
theorem queued_profile_current_resent : ∃ c log,
    Lts.run (stepWriting .naming) (boot .naming,[]) (sampleLabels (sampleResaved ++
      [.answer 16 .elapsed,.shell (.saveProfile "p" "" none)])) = some (c,log) ∧
    c.model.inFlightCount = 2 ∧ c.model.outbox.map OutboxItem.envelopeJson = ["n","o","p"] ∧
    ((∀ peer front i back, c.model.outbox = front ++ i :: back →
      c.model.inFlightCount ≤ front.length → i.profileFor peer = true →
      (∀ j ∈ front.drop c.model.inFlightCount ++ back, j.profileFor peer = false) ∧
        latest peer log = some i.envelopeJson) ∧
      ∀ amb e m, ∀ s ∈ profileStamps .naming amb e m,
        s.profile = (update .naming amb e m).1.profile) := by
  have hrun : (Lts.run (stepWriting .naming) (boot .naming,[]) (sampleLabels (sampleResaved ++
      [.answer 16 .elapsed,.shell (.saveProfile "p" "" none)]))).any (fun s =>
        s.1.model.inFlightCount = 2 &&
          s.1.model.outbox.map OutboxItem.envelopeJson = ["n","o","p"]) = true := by decide +kernel
  simp only [Option.any_eq_true, Bool.and_eq_true, decide_eq_true_eq, Prod.exists] at hrun
  obtain ⟨c,log,hc,hlive,hout⟩ := hrun
  have hkeeps : Core.Meets (app .naming) (fun amb e m =>
      e.staysTidy .naming amb m = true ∨ e.goesOutAgain .naming amb m = true) (boot .naming)
      (sampleLabels (sampleResaved ++ [.answer 16 .elapsed,.shell (.saveProfile "p" "" none)])) := by
    decide +kernel
  exact ⟨c,log,hc,hlive,hout,queued_profile_current
    (hkeeps.mono fun _ _ _ h => h.imp_right (⟨fun _ => rfl,·⟩)) hc⟩

end Skrepka.Client
