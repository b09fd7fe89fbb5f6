import Skrepka.Client.Deliveries
import Skrepka.Relay.Polls

/-! A client that polls its mailbox down from a relay, page after page, while the relay goes on
committing other transactions. -/
namespace Skrepka.Client
open Rust Mvu

namespace Ingest
variable {x : Crates} {hash : HashOrder} {now : ℤ} {id : Crypto.Identity}

theorem Bookless.keeps_cursor {f : Ingest → Ingest} (hf : Bookless f) (s : Ingest) :
    (f s).model.cursor = s.model.cursor := by
  have h := hf s.model.cursor s.model.error s.budget s.eventsProcessed s.eventsStored s
  change f s = _ at h
  rw [h]
  rfl

theorem event_cursor (blob : String) (s : Ingest) :
    (s.event x hash now id blob).model.cursor = s.model.cursor := by
  unfold event
  split
  · rfl
  · exact (payload_bookless x hash now _ _).keeps_cursor _

/-- A page within the budgets does not set the cursor back. -/
theorem events_cursor (prevCursor : ℤ) {evs : List String} {s : Ingest}
    (hcount : s.eventsProcessed+(sized evs).length ≤ maxPollEvents)
    (hweight : weight (sized evs) ≤ s.budget) :
    (events x hash now prevCursor id evs s).model.cursor = s.model.cursor := by
  induction evs generalizing s with
  | nil => rfl
  | cons blob evs ih =>
    simp only [events]
    split
    · rename_i hlong
      have hskip : sized (blob :: evs) = sized evs := by
        simp only [sized, List.filter_cons]
        rw [if_neg (by simpa using hlong)]
      rw [hskip] at hcount hweight
      exact ih hcount hweight
    · rename_i hshort
      have htake : sized (blob :: evs) = blob :: sized evs := by
        simp only [sized, List.filter_cons]
        rw [if_pos (by simpa using hshort)]
      rw [htake] at hcount hweight
      simp only [List.length_cons, weight, List.map_cons, List.sum_cons] at hcount hweight
      rw [if_neg (by omega), if_neg (by omega)]
      let s' : Ingest := { s with
        eventsProcessed := s.eventsProcessed+1, budget := s.budget-len blob/2 }
      have hkept := event_keeps x hash now id blob s'
      have hrest : (events x hash now prevCursor id evs (s'.event x hash now id blob)).model.cursor =
          (s'.event x hash now id blob).model.cursor := by
        refine ih ?_ ?_
        · rw [hkept.1]
          change s.eventsProcessed+1+_ ≤ _
          omega
        · rw [hkept.2, weight]
          change _ ≤ s.budget-len blob/2
          omega
      exact hrest.trans (event_cursor blob s')

end Ingest

/-- Ingesting a page within the budgets leaves the cursor that it was adopted with. -/
theorem ingestPoll_cursor {x : Crates} (amb : Ambient) {page : PollResp} {m : Model}
    (hk : m.kvLoadFailed = false) (hpage : page.WithinBudgets) :
    (ingestPoll x amb page m).1.cursor = (adoptCursor (amb.now 0) page m).cursor := by
  cases hid : m.identity x with
  | none => simp [ingestPoll, hk, adoptCursor_identity, hid]
  | some id =>
    rw [ingestPoll_eq hk hid]
    have hacks := (Ingest.queueAcks_bookless x (amb.now 2)).keeps_cursor
    have happly := (Ingest.applyAcks_bookless (amb.now 1)).keeps_cursor
    have hevents : (Ingest.events x amb.hash (amb.now 1) m.cursor id page.events
        { model := adoptCursor (amb.now 0) page m }).model.cursor =
          (adoptCursor (amb.now 0) page m).cursor :=
      Ingest.events_cursor m.cursor (by simpa using hpage.1) hpage.2
    exact (hacks _).trans ((happly _).trans hevents)

theorem adoptCursor_cursor (now : ℤ) (page : PollResp) (m : Model) :
    (adoptCursor now page m).cursor =
      if page.events ≠ [] ∧ min page.cursor (i64SaturatingAdd now 60000) > m.cursor then
        min page.cursor (i64SaturatingAdd now 60000)
      else m.cursor := by
  simp only [adoptCursor]
  split <;> rfl

/-- The result of a poll with a page within the budgets adopts its cursor. -/
theorem pollResult_cursor {x : Crates} (amb : Ambient) {res : HttpResult} {page : PollResp}
    {m : Model} (hk : m.kvLoadFailed = false) (hread : readPage x res = some page)
    (hpage : page.WithinBudgets) :
    (pollResult x amb m.pollGen res m).1.cursor = (adoptCursor (amb.now 0) page m).cursor := by
  rw [pollResult_page hk hread]
  change (ingestPoll x amb page { m with polling := false, pollRetries := 0 }).1.cursor = _
  rw [ingestPoll_cursor amb (m := { m with polling := false, pollRetries := 0 }) hk hpage,
    adoptCursor_cursor, adoptCursor_cursor]

/-- A page with events and a newer cursor moves ours to it just if it is no more than a minute
ahead of our clock. -/
theorem adoptCursor_iff {now : ℤ} {page : PollResp} {m : Model} (hevents : page.events ≠ [])
    (hnext : m.cursor < page.cursor) :
    (adoptCursor now page m).cursor = page.cursor ↔ page.cursor ≤ i64SaturatingAdd now 60000 := by
  simp only [adoptCursor_cursor, hevents, ne_eq, not_false_eq_true, true_and]
  split
  · exact min_eq_left_iff
  · rename_i hclamped
    constructor
    · intro heq
      omega
    · intro hle
      rw [min_eq_left hle] at hclamped
      omega

theorem adoptCursor_stays {now : ℤ} {page : PollResp} {m : Model} (hevents : page.events = []) :
    (adoptCursor now page m).cursor = m.cursor := by
  simp [adoptCursor_cursor, hevents]

end Skrepka.Client

namespace Skrepka.Exchange
open Rust Sequenced Mvu

/-- A page on its way to the client, with the rows that it was made of. -/
structure Answer where
  rows : List Relay.Message
  page : Relay.Page
  deriving DecidableEq

/-- The poll that the client issued last. -/
inductive Poll
  | idle
  | asked (gen : UInt64) (cursor : ℤ)
  | answered (gen : UInt64) (a : Answer)

/-- A relay and a client, the poll between them, and the rows that the client has been shown. -/
structure Link where
  relay : Relay.State := {}
  client : Client.Model
  poll : Poll := .idle
  shown : List Relay.Message := []

/-- What the client parses a page to. -/
def received (page : Relay.Page) : Client.PollResp := ⟨page.events.map String.ofList,page.cursor⟩

/-- The generation and the cursor of a poll request. -/
def pollOf : Client.Effect → Option (UInt64 × ℤ)
  | .http ⟨_,_,.pollReq cursor⟩ (.pollResult gen) => some (gen,cursor)
  | _ => none

inductive Turn
  | commit (txn : Relay.Txn)
  | act (amb : Client.Ambient) (e : Client.Event)
  | ask (t : ℤ)
  | collect (tnow : ℤ)
  | ingest (amb : Client.Ambient) (res : Client.HttpResult)

variable (cfg : Relay.Config) (x : Client.Crates) (pk : Relay.Text)

/-- The relay commits what no poll of the recipient is part of, and the client acts without
touching its cursor, at any time. Only the answer to the client's last poll reaches it. -/
def turn (s : Link) : Turn → Option Link
  | .commit txn =>
    if txn.pollsFor pk then none else some { s with relay := Relay.commit cfg s.relay txn }
  | .act amb e =>
    if .cursor ∈ e.writes then none
    else some { s with client := (Client.update x amb e s.client).1 }
  | .ask t =>
    ((Cmd.requests (Client.poll x s.client).2).findSome? pollOf).map fun (gen,cursor) => { s with
      client := (Client.poll x s.client).1
      relay := Relay.commit cfg s.relay (.setupPoll pk cursor t)
      poll := .asked gen (Relay.clampCursor cursor t s.relay.mail) }
  | .collect tnow => match s.poll with
    | .asked gen c => some { s with poll := .answered gen ⟨
        Relay.limited cfg pk c tnow s.relay.mail.messages,
        Relay.collectAt cfg pk c tnow s.relay.mail.messages⟩ }
    | _ => none
  | .ingest amb res => match s.poll with
    | .answered gen a =>
      if gen = s.client.pollGen ∧ Client.readPage x res = some (received a.page) then some { s with
        client := (Client.update x amb (.pollResult gen res) s.client).1
        poll := .idle
        shown := s.shown ++ a.rows }
      else none
    | _ => none

/-- A page is ingested within the budgets, with a cursor that is no more than a minute ahead. -/
def Tame (s : Link) : Turn → Prop
  | .ingest amb _ => ∀ gen a, s.poll = .answered gen a → s.client.kvLoadFailed = false ∧
      (received a.page).WithinBudgets ∧ a.page.cursor ≤ i64SaturatingAdd (amb.now 0) 60000
  | _ => True

/-- An answer holds rows above the client's cursor in their order, and ends at the last. -/
structure Answer.Follows (cursor seq : ℤ) (a : Answer) : Prop where
  ordered : a.rows.Pairwise fun r r' => r.receivedAt < r'.receivedAt
  above : ∀ r ∈ a.rows, cursor < r.receivedAt
  issued : a.page.cursor ≤ seq
  reached : ∀ r ∈ a.rows, r.receivedAt ≤ a.page.cursor
  start : cursor ≤ a.page.cursor
  stays : a.rows = [] → a.page.cursor = cursor
  events : a.page.events = a.rows.map Relay.Message.encryptedBlob

/-- The client's cursor is a number that was given out, and separates what it was shown from what
it will be shown. -/
structure Walking (s : Link) : Prop where
  wf : s.relay.mail.Wf
  cursor : 0 ≤ s.client.cursor ∧ s.client.cursor ≤ Relay.currentSeq s.relay.mail.seqCounter
  asked : ∀ gen c, s.poll = .asked gen c → c = s.client.cursor
  answer : ∀ gen a, s.poll = .answered gen a →
    a.Follows s.client.cursor (Relay.currentSeq s.relay.mail.seqCounter)
  ordered : s.shown.Pairwise fun r r' => r.receivedAt < r'.receivedAt
  below : ∀ r ∈ s.shown, r.receivedAt ≤ s.client.cursor

variable {cfg x pk}

theorem Answer.Follows.mono {cursor seq seq' : ℤ} {a : Answer} (h : a.Follows cursor seq)
    (hseq : seq ≤ seq') : a.Follows cursor seq' := { h with issued := h.issued.trans hseq }

theorem poll_asks {m : Client.Model} {gen : UInt64} {cursor : ℤ}
    (h : (Cmd.requests (Client.poll x m).2).findSome? pollOf = some (gen,cursor)) :
    cursor = m.cursor ∧ (Client.poll x m).1.cursor = m.cursor := by
  have hkeeps : (Client.poll x m).1.cursor = m.cursor :=
    Client.update_agrees x .sample .poll m .cursor (by simp [Client.Event.writes])
  obtain ⟨f,hf,hpoll⟩ := List.exists_of_findSome?_eq_some h
  refine ⟨?_,hkeeps⟩
  unfold pollOf at hpoll
  split at hpoll
  · have hbody := (Client.poll_request hf).2
    simp only [Option.some.injEq, Prod.mk.injEq, Client.RequestBody.pollReq.injEq] at hpoll hbody
    exact hpoll.2.symm.trans hbody
  · simp at hpoll

/-- A page that is collected follows the cursor. -/
theorem collect_follows {s : Link} (h : Walking s) (tnow : ℤ) :
    Answer.Follows s.client.cursor (Relay.currentSeq s.relay.mail.seqCounter)
      ⟨Relay.limited cfg pk s.client.cursor tnow s.relay.mail.messages,
        Relay.collectAt cfg pk s.client.cursor tnow s.relay.mail.messages⟩ := by
  let fresh := Relay.freshFor cfg pk s.client.cursor tnow s.relay.mail.messages
  have hfresh : ∀ r ∈ Relay.limited cfg pk s.client.cursor tnow s.relay.mail.messages, r ∈ fresh :=
    fun r hr => (mem_sortBy _).mp (List.mem_of_mem_take hr)
  have hdistinct : (fresh.map Relay.Message.receivedAt).Nodup :=
    h.wf.numbers.sublist (List.filter_sublist.map _)
  obtain ⟨hstart,hreached,hleast⟩ := Relay.le_foldl_cursor
    (Relay.limited cfg pk s.client.cursor tnow s.relay.mail.messages) s.client.cursor
  refine ⟨(sortBy_lt hdistinct).sublist (List.take_sublist _ _),fun r hr => ?_,?_,hreached,hstart,
    fun hnil => ?_,rfl⟩
  · have hkept := (List.mem_filter.mp (hfresh r hr)).2
    simp only [Bool.and_eq_true, decide_eq_true_eq] at hkept
    omega
  · exact hleast _ h.cursor.2 fun r hr => h.wf.issued r (List.mem_of_mem_filter (hfresh r hr))
  · change List.foldl _ _ (Relay.limited ..) = _
    rw [show Relay.limited cfg pk s.client.cursor tnow s.relay.mail.messages = [] from hnil]
    rfl

theorem Walking.commit (cfg : Relay.Config) {s : Link} (h : Walking s) (txn : Relay.Txn) :
    Walking { s with relay := Relay.commit cfg s.relay txn } := by
  have hseq := Relay.commit_seq cfg s.relay txn
  refine ⟨?_,⟨h.cursor.1,h.cursor.2.trans hseq⟩,h.asked,fun gen a ha => (h.answer gen a ha).mono hseq,
    h.ordered,h.below⟩
  change (Relay.commit cfg s.relay txn).mail.Wf
  rw [Relay.commit_mail]
  exact h.wf.foldl cfg _

theorem Walking.ask_eq {s : Link} (h : Walking s) (t : ℤ) :
    Relay.clampCursor s.client.cursor t s.relay.mail = s.client.cursor := by
  have := h.cursor
  simp only [Relay.clampCursor]
  omega

/-- A page that is ingested moves the cursor to its own. -/
theorem Walking.adopts {s s' : Link} (h : Walking s) {amb : Client.Ambient}
    {res : Client.HttpResult} {gen : UInt64} {a : Answer} (ha : s.poll = .answered gen a)
    (htame : Tame s (.ingest amb res)) (hstep : turn cfg x pk s (.ingest amb res) = some s') :
    s'.client.cursor = a.page.cursor ∧ s'.relay = s.relay ∧ s'.poll = .idle ∧
      s'.shown = s.shown ++ a.rows := by
  obtain ⟨hk,hbudgets,hclock⟩ := htame gen a ha
  have hfollows := h.answer gen a ha
  simp only [turn, ha, Option.ite_none_right_eq_some, Option.some.injEq] at hstep
  obtain ⟨⟨rfl,hread⟩,rfl⟩ := hstep
  refine ⟨?_,rfl,rfl,rfl⟩
  refine (Client.pollResult_cursor amb hk hread hbudgets).trans ?_
  cases hrows : a.rows with
  | nil =>
    rw [hfollows.stays hrows]
    exact Client.adoptCursor_stays (by simp [received, hfollows.events, hrows])
  | cons r rows =>
    have hr : r ∈ a.rows := by simp [hrows]
    have hevents : (received a.page).events ≠ [] := by simp [received, hfollows.events, hrows]
    have hnext := (hfollows.above r hr).trans_le (hfollows.reached r hr)
    exact (Client.adoptCursor_iff hevents hnext).mpr hclock

theorem Walking.step {s s' : Link} {t : Turn} (h : Walking s) (htame : Tame s t)
    (hstep : turn cfg x pk s t = some s') : Walking s' := by
  cases t with
  | commit txn =>
    simp only [turn, Option.ite_none_left_eq_some, Option.some.injEq] at hstep
    obtain ⟨-,rfl⟩ := hstep
    exact h.commit cfg txn
  | act amb e =>
    simp only [turn, Option.ite_none_left_eq_some, Option.some.injEq] at hstep
    obtain ⟨hwrites,rfl⟩ := hstep
    have hcursor : (Client.update x amb e s.client).1.cursor = s.client.cursor :=
      Client.update_agrees x amb e s.client .cursor hwrites
    exact ⟨h.wf,hcursor ▸ h.cursor,hcursor ▸ h.asked,hcursor ▸ h.answer,h.ordered,hcursor ▸ h.below⟩
  | ask t =>
    obtain ⟨⟨gen,cursor⟩,hpoll,rfl⟩ := Option.map_eq_some_iff.mp hstep
    obtain ⟨rfl,hcursor⟩ := poll_asks hpoll
    have hnext := h.commit cfg (.setupPoll pk s.client.cursor t)
    refine ⟨hnext.wf,hcursor ▸ hnext.cursor,?_,by simp,h.ordered,hcursor ▸ h.below⟩
    rintro gen c hc
    obtain ⟨-,rfl⟩ := Poll.asked.inj hc
    rw [h.ask_eq, hcursor]
  | collect tnow =>
    simp only [turn] at hstep
    split at hstep
    · rename_i gen c hc
      obtain rfl := Option.some.inj hstep
      obtain rfl := h.asked gen c hc
      refine ⟨h.wf,h.cursor,by simp,?_,h.ordered,h.below⟩
      simpa using collect_follows h tnow
    · simp at hstep
  | ingest amb res =>
    have hanswered : ∃ gen a, s.poll = .answered gen a := by
      simp only [turn] at hstep
      split at hstep
      · exact ⟨_,_,‹_›⟩
      · simp at hstep
    obtain ⟨gen,a,ha⟩ := hanswered
    obtain ⟨hcursor,hrelay,hpoll,hshown⟩ := h.adopts ha htame hstep
    have hfollows := h.answer gen a ha
    refine ⟨hrelay ▸ h.wf,?_,by simp [hpoll],by simp [hpoll],?_,?_⟩
    · rw [hcursor, hrelay]
      exact ⟨h.cursor.1.trans hfollows.start,hfollows.issued⟩
    · rw [hshown]
      exact List.pairwise_append.mpr ⟨h.ordered,hfollows.ordered,fun r hr r' hr' =>
        (h.below r hr).trans_lt (hfollows.above r' hr')⟩
    · intro r hr
      rw [hshown] at hr
      rw [hcursor]
      obtain hr | hr := List.mem_append.mp hr
      · exact (h.below r hr).trans hfollows.start
      · exact hfollows.reached r hr

/-- A relay without mail, and a client that has not polled. -/
def start (m : Client.Model) : Link := { client := m }

theorem walking_run {m : Client.Model} (hm : m.cursor = 0) {turns : List Turn} {s : Link}
    (hrun : Lts.run (turn cfg x pk) (start m) turns = some s)
    (htame : Lts.Along (turn cfg x pk) Tame (start m) turns) : Walking s := by
  refine Lts.run_invariant_along _ (fun s t s' h htame hstep => h.step htame hstep) ?_ htame hrun
  have hseq := Relay.Mailbox.currentSeq_nonneg ({} : Relay.State).mail.seqCounter
  exact ⟨Relay.Mailbox.wf_empty,by simpa [start, hm] using hseq,by simp [start],by simp [start],
    List.Pairwise.nil,by simp [start]⟩

/-- A poll whose page arrives, with no other turn in between. -/
structure Round where
  t : ℤ
  tnow : ℤ
  amb : Client.Ambient
  res : Client.HttpResult

def Round.turns (r : Round) : List Turn := [.ask r.t,.collect r.tnow,.ingest r.amb r.res]

/-- The recipient's rows that are still ahead of the client's cursor. -/
def Link.ahead (pk : Relay.Text) (s : Link) : List Relay.Message :=
  s.relay.mail.messages.filter fun r => r.toKey = pk && s.client.cursor < r.receivedAt

/-- Asking leaves the rows ahead where they are. -/
theorem Walking.ask_ahead {s s' : Link} (h : Walking s) {t : ℤ}
    (hstep : turn cfg x pk s (.ask t) = some s') :
    s'.ahead pk = s.ahead pk ∧ ∃ gen, s'.poll = .asked gen s'.client.cursor := by
  have hnext : Walking s' := h.step (x := x) (t := .ask t) trivial hstep
  obtain ⟨⟨gen,cursor⟩,hpoll,rfl⟩ := Option.map_eq_some_iff.mp hstep
  obtain ⟨rfl,hcursor⟩ := poll_asks hpoll
  refine ⟨?_,gen,congrArg _ (hnext.asked gen _ rfl)⟩
  simp only [Link.ahead, hcursor, Relay.setupPoll_mail, h.ask_eq]
  split
  · rw [Relay.Mailbox.ackPolled, List.filter_filter]
    refine List.filter_congr fun r _ => ?_
    by_cases hkey : r.toKey = pk
    · by_cases hahead : s.client.cursor < r.receivedAt
      · simp [Relay.Mailbox.acks, hkey, hahead]
      · simp [hahead]
    · simp [hkey]
  · rfl

theorem mem_ahead {s : Link} {r : Relay.Message} :
    r ∈ s.ahead pk ↔
      r ∈ s.relay.mail.messages ∧ r.toKey = pk ∧ s.client.cursor < r.receivedAt := by
  simp [Link.ahead]

/-- The page that a poll collects and the client takes in leaves ahead what is above it. -/
theorem Walking.taken_ahead {s₁ s₂ s' : Link} {gen : UInt64} {tnow : ℤ} {amb : Client.Ambient}
    {res : Client.HttpResult} (h : Walking s₁) (hask : s₁.poll = .asked gen s₁.client.cursor)
    (hcollect : turn cfg x pk s₁ (.collect tnow) = some s₂)
    (htame : Tame s₂ (.ingest amb res)) (hingest : turn cfg x pk s₂ (.ingest amb res) = some s') :
    let msgs := s₁.relay.mail.messages
    s'.shown = s₁.shown ++ Relay.limited cfg pk s₁.client.cursor tnow msgs ∧
      s'.ahead pk = (s₁.ahead pk).filter fun r =>
        (Relay.collectAt cfg pk s₁.client.cursor tnow msgs).cursor < r.receivedAt := by
  have h₂ : Walking s₂ := h.step (x := x) (t := .collect tnow) trivial hcollect
  simp only [turn, hask, Option.some.injEq] at hcollect
  subst hcollect
  obtain ⟨hcursor,hrelay,-,hshown⟩ := h₂.adopts rfl htame hingest
  refine ⟨hshown,?_⟩
  have hstart : s₁.client.cursor ≤
      (Relay.collectAt cfg pk s₁.client.cursor tnow s₁.relay.mail.messages).cursor :=
    (h₂.answer _ _ rfl).start
  simp only [Link.ahead, hcursor, hrelay, List.filter_filter]
  refine List.filter_congr fun r _ => ?_
  rw [Bool.eq_iff_iff]
  simp only [Bool.and_eq_true, decide_eq_true_eq]
  constructor
  · rintro ⟨hkey,hnext⟩
    exact ⟨hnext,hkey,hstart.trans_lt hnext⟩
  · rintro ⟨hnext,hkey,-⟩
    exact ⟨hkey,hnext⟩

/-- A round shows every row that is ahead, unless it is too old or waits for the next round, and
fewer wait for it as long as some row is not too old. -/
theorem Walking.round {s s' : Link} {r : Round} (h : Walking s)
    (hrun : Lts.run (turn cfg x pk) s r.turns = some s')
    (htame : Lts.Along (turn cfg x pk) Tame s r.turns) (hpage : 0 < cfg.maxPollEvents) :
    Walking s' ∧
    (∀ m ∈ s.ahead pk, m ∈ s'.shown ∨ m ∈ s'.ahead pk ∨ cfg.messageMaxAge ≤ r.tnow-m.receivedAt) ∧
    ((s'.ahead pk).length < (s.ahead pk).length ∨
      ∀ m ∈ s.ahead pk, cfg.messageMaxAge ≤ r.tnow-m.receivedAt) := by
  have hwalks : Walking s' := Lts.run_invariant_along _
    (fun s t s' h htame hstep => Walking.step h htame hstep) h htame hrun
  simp only [Round.turns, Lts.Along] at htame
  obtain ⟨s₁,hask,hrun⟩ := (Lts.run_cons_eq_some _).mp hrun
  obtain ⟨s₂,hcollect,hrun⟩ := (Lts.run_cons_eq_some _).mp hrun
  obtain ⟨s₃,hingest,hrun⟩ := (Lts.run_cons_eq_some _).mp hrun
  obtain rfl : s₃ = s' := by simpa using hrun
  have htame₂ := ((htame.2 s₁ hask).2 s₂ hcollect).1
  have h₁ : Walking s₁ := h.step htame.1 hask
  obtain ⟨hahead,gen,hpoll⟩ := h.ask_ahead hask
  obtain ⟨hshown',hahead'⟩ := h₁.taken_ahead hpoll hcollect htame₂ hingest
  rw [hahead] at hahead'
  have hcases : ∀ m ∈ s.ahead pk, ¬ cfg.messageMaxAge ≤ r.tnow-m.receivedAt →
      m ∈ Relay.freshFor cfg pk s₁.client.cursor r.tnow s₁.relay.mail.messages := by
    intro m hm hage
    obtain ⟨hmem,hkey,hnext⟩ := mem_ahead.mp (hahead.symm ▸ hm)
    refine List.mem_filter.mpr ⟨hmem,?_⟩
    simp only [hkey, decide_true, Bool.true_and, Bool.and_eq_true, decide_eq_true_eq]
    omega
  refine ⟨hwalks,fun m hm => ?_,?_⟩
  · by_cases hage : cfg.messageMaxAge ≤ r.tnow-m.receivedAt
    · exact .inr (.inr hage)
    · obtain hlimited | habove := Relay.fresh_cases h₁.wf.numbers (hcases m hm hage)
      · exact .inl (hshown' ▸ List.mem_append_right _ hlimited)
      · exact .inr (.inl (hahead' ▸ List.mem_filter.mpr ⟨hm,decide_eq_true habove⟩))
  · by_cases hold : ∀ m ∈ s.ahead pk, cfg.messageMaxAge ≤ r.tnow-m.receivedAt
    · exact .inr hold
    · left
      push Not at hold
      obtain ⟨m,hm,hage⟩ := hold
      have hlimited : Relay.limited cfg pk s₁.client.cursor r.tnow s₁.relay.mail.messages ≠ [] := by
        refine List.ne_nil_of_length_pos ?_
        have := List.length_pos_of_mem (hcases m hm (by omega))
        rw [Relay.limited, List.length_take, length_sortBy]
        omega
      obtain ⟨a,ha⟩ := List.exists_mem_of_ne_nil _ hlimited
      have hfresh := List.mem_filter.mp ((mem_sortBy _).mp (List.mem_of_mem_take ha))
      simp only [Bool.and_eq_true, decide_eq_true_eq] at hfresh
      have hreached := (Relay.le_foldl_cursor
        (Relay.limited cfg pk s₁.client.cursor r.tnow s₁.relay.mail.messages) s₁.client.cursor).2.1 a ha
      rw [hahead', List.length_filter_lt_length_iff_exists]
      refine ⟨a,hahead ▸ mem_ahead.mpr ⟨hfresh.1,hfresh.2.1.1,hfresh.2.2⟩,?_⟩
      rw [decide_eq_true_eq]
      exact hreached.not_gt

theorem turn_shown {s s' : Link} {t : Turn} (hstep : turn cfg x pk s t = some s') :
    s.shown ⊆ s'.shown := by
  cases t with
  | commit txn =>
    simp only [turn, Option.ite_none_left_eq_some, Option.some.injEq] at hstep
    obtain ⟨-,rfl⟩ := hstep
    exact List.Subset.refl s.shown
  | act amb e =>
    simp only [turn, Option.ite_none_left_eq_some, Option.some.injEq] at hstep
    obtain ⟨-,rfl⟩ := hstep
    exact List.Subset.refl s.shown
  | ask t =>
    obtain ⟨_,-,rfl⟩ := Option.map_eq_some_iff.mp hstep
    exact List.Subset.refl _
  | collect tnow =>
    simp only [turn] at hstep
    split at hstep
    · obtain rfl := Option.some.inj hstep
      exact List.Subset.refl s.shown
    · simp at hstep
  | ingest amb res =>
    simp only [turn] at hstep
    split at hstep
    · simp only [Option.ite_none_right_eq_some, Option.some.injEq] at hstep
      rw [← hstep.2]
      exact List.subset_append_left _ _
    · simp at hstep

/-- As many rounds as rows are ahead show them all, but for those that were too old. -/
theorem Walking.rounds {rounds : List Round} {s s' : Link} (h : Walking s)
    (hrun : Lts.run (turn cfg x pk) s (rounds.flatMap Round.turns) = some s')
    (htame : Lts.Along (turn cfg x pk) Tame s (rounds.flatMap Round.turns))
    (hpage : 0 < cfg.maxPollEvents) {m : Relay.Message} (hm : m ∈ s.ahead pk)
    (hlen : (s.ahead pk).length ≤ rounds.length) :
    m ∈ s'.shown ∨ ∃ r ∈ rounds, cfg.messageMaxAge ≤ r.tnow-m.receivedAt := by
  induction rounds generalizing s with
  | nil =>
    have := List.length_pos_of_mem hm
    simp only [List.length_nil] at hlen
    omega
  | cons r rounds ih =>
    rw [List.flatMap_cons] at hrun htame
    rw [Lts.run_append, Option.bind_eq_some_iff] at hrun
    obtain ⟨s₁,hround,hrun⟩ := hrun
    obtain ⟨htame₁,htame⟩ := Lts.along_append _ htame hround
    obtain ⟨h₁,hrows,hfewer⟩ := h.round hround htame₁ hpage
    have hrest : m ∈ s₁.shown → m ∈ s'.shown := fun hshown =>
      Lts.run_invariant (turn cfg x pk) (I := fun t => s₁.shown ⊆ t.shown)
        (fun _ _ _ hsub hstep => List.Subset.trans hsub (turn_shown hstep))
        (List.Subset.refl _) hrun hshown
    obtain hshown | hahead | hold := hrows m hm
    · exact .inl (hrest hshown)
    · obtain hfewer | hold := hfewer
      · simp only [List.length_cons] at hlen
        obtain hshown | ⟨r',hr',hold⟩ := ih h₁ hrun htame hahead (by omega)
        · exact .inl hshown
        · exact .inr ⟨r',List.mem_cons_of_mem r hr',hold⟩
      · exact .inr ⟨r,List.mem_cons_self,hold m hm⟩
    · exact .inr ⟨r,List.mem_cons_self,hold⟩

/-- A client that can poll. -/
def Link.Ready (s : Link) : Prop :=
  s.client.polling = false ∧ s.client.token ≠ none ∧ s.client.kvLoadFailed = false

/-- The page that a poll would get. -/
def Link.next (cfg : Relay.Config) (pk : Relay.Text) (s : Link) (t : ℤ) : Answer :=
  let relay := Relay.commit cfg s.relay (.setupPoll pk s.client.cursor t)
  let cursor := Relay.clampCursor s.client.cursor t s.relay.mail
  ⟨Relay.limited cfg pk cursor t relay.mail.messages,
    Relay.collectAt cfg pk cursor t relay.mail.messages⟩

/-- It can take a round, after which it can poll again. -/
theorem Link.Ready.round {s : Link} (h : s.Ready) (hbody : ∀ body, x.serializes body = true)
    (t : ℤ) (amb : Client.Ambient) {res : Client.HttpResult}
    (hread : Client.readPage x res = some (received (s.next cfg pk t).page))
    (hbudgets : (received (s.next cfg pk t).page).WithinBudgets) :
    ∃ s₂ s', Lts.run (turn cfg x pk) s [.ask t,.collect t] = some s₂ ∧
      turn cfg x pk s₂ (.ingest amb res) = some s' ∧
      s₂.poll = .answered s₂.client.pollGen (s.next cfg pk t) ∧
      s₂.client.cursor = s.client.cursor ∧ s₂.client.kvLoadFailed = false ∧ s'.Ready ∧
      s'.relay = Relay.commit cfg s.relay (.setupPoll pk s.client.cursor t) ∧
      s'.shown = s.shown ++ (s.next cfg pk t).rows ∧
      s'.client.cursor =
        (Client.adoptCursor (amb.now 0) (received (s.next cfg pk t).page) s.client).cursor := by
  obtain ⟨hpolling,htoken,hk⟩ := h
  obtain ⟨token,htoken⟩ := Option.ne_none_iff_exists'.mp htoken
  let m' : Client.Model := { s.client.nextPollGen with polling := true }
  have hpoll : (Cmd.requests (Client.poll x s.client).2).findSome? pollOf =
      some (m'.pollGen,s.client.cursor) ∧ (Client.poll x s.client).1 = m' := by
    simp only [Client.poll, hpolling, htoken, Client.pollRequest, hbody, m']
    exact ⟨rfl,rfl⟩
  obtain ⟨hpoll,hmodel⟩ := hpoll
  let asked : Link := { s with
    client := m'
    relay := Relay.commit cfg s.relay (.setupPoll pk s.client.cursor t)
    poll := .asked m'.pollGen (Relay.clampCursor s.client.cursor t s.relay.mail) }
  have hask : turn cfg x pk s (.ask t) = some asked := by
    simp only [turn, hpoll, hmodel]
    rfl
  let answered : Link := { asked with poll := .answered m'.pollGen (s.next cfg pk t) }
  have hcollect : turn cfg x pk asked (.collect t) = some answered := rfl
  have hresult : Client.pollResult x amb m'.pollGen res m' = _ := Client.pollResult_page hk hread
  have hmoved := Client.pollResult_cursor (m := m') amb hk hread hbudgets
  obtain ⟨m'',_,_,hingest,⟨_,_,_,_,_,_,hm'',-⟩,-,-⟩ := Client.ingestPoll_cases x amb
    (received (s.next cfg pk t).page) { m' with polling := false, pollRetries := 0 }
  have hfst : (Client.pollResult x amb m'.pollGen res m').1 = m'' := by
    rw [hresult]
    simp only [Client.pollPage, hingest]
  refine ⟨answered,{ answered with
    client := (Client.update x amb (.pollResult m'.pollGen res) m').1
    poll := .idle
    shown := s.shown ++ (s.next cfg pk t).rows },?_,?_,rfl,rfl,hk,?_,rfl,rfl,?_⟩
  · exact (Lts.run_cons_eq_some _).mpr ⟨asked,hask,Lts.run_single _ hcollect⟩
  · simp [turn, answered, asked, hread]
  · change (Client.pollResult x amb m'.pollGen res m').1.polling = false ∧
      (Client.pollResult x amb m'.pollGen res m').1.token ≠ none ∧
      (Client.pollResult x amb m'.pollGen res m').1.kvLoadFailed = false
    rw [hfst, hm'']
    exact ⟨rfl,by simp [m', Client.Model.nextPollGen, htoken],hk⟩
  · change (Client.pollResult x amb m'.pollGen res m').1.cursor = _
    rw [hmoved, Client.adoptCursor_cursor, Client.adoptCursor_cursor]
    rfl

/-- The JSON of a page. -/
def pageJson (page : Client.PollResp) : Client.Json :=
  .obj [("cursor",.int page.cursor),
    ("events",.arr (page.events.map fun blob => .obj [("encryptedBlob",.str blob)]))]

theorem ofJson_pageJson {page : Client.PollResp} (h : i64Min ≤ page.cursor ∧ page.cursor ≤ i64Max) :
    Client.PollResp.ofJson (pageJson page) = some page :=
  Client.ofJson_events page.events h

/-- The crates that parse every body to one page. -/
def serving (page : Client.PollResp) : Client.Crates :=
  { Client.Crates.sample with fromSlice := fun _ => some (pageJson page) }

def served : Client.HttpResult := .ok ⟨200,none,[]⟩

/-- A row that is filed while the client's clock is at 1000, and the page with it. -/
def lateRow : Relay.Message := ⟨Relay.sampleKey 'b',Relay.sampleBlob '1',100000,[]⟩

def latePage : Relay.Page := ⟨[Relay.sampleBlob '1'],100000⟩

def lateSend : Relay.Txn :=
  .sendMessages [⟨lateRow.toKey,lateRow.encryptedBlob⟩] (Relay.sampleKey 'a') 100000

/-- The client before its first poll. -/
def lateStart : Link := start { secretKey := some Client.sampleSecret, token := some "t" }

/-- A round that serves it. -/
def lateRound (amb : Client.Ambient) : Round := ⟨100000,100000,amb,served⟩

theorem readPage_served :
    Client.readPage (serving (received latePage)) served = some (received latePage) := by
  have hsuccess : Client.isSuccess 200 = true := by decide
  simp [Client.readPage, served, hsuccess, serving, ofJson_pageJson, received, latePage, i64Min, i64Max]

theorem latePage_budgets : (received latePage).WithinBudgets := by
  unfold Client.PollResp.WithinBudgets
  decide +kernel

/-- The same client after the row is filed. -/
def lateFiled : Link := { lateStart with relay := Relay.commit {} lateStart.relay lateSend }

theorem lateFiled_ready : lateFiled.Ready := ⟨rfl,by simp [lateFiled, lateStart, start],rfl⟩

theorem lateFiled_next :
    lateFiled.next {} (Relay.sampleKey 'b') 100000 = ⟨[lateRow],latePage⟩ := by decide +kernel

/-- In every run, the client is shown rows in the order that they were filed in and none twice. A
page with rows moves its cursor to the page's just if that is at most a minute ahead of its clock,
and if all are, polling on shows every row that is ahead, but for those that were too old. -/
theorem honest_pages_walk {m : Client.Model} (hm : m.cursor = 0) {turns : List Turn} {s : Link}
    (hrun : Lts.run (turn cfg x pk) (start m) turns = some s)
    (htame : Lts.Along (turn cfg x pk) Tame (start m) turns) :
    s.shown.Pairwise (fun r r' => r.receivedAt < r'.receivedAt) ∧
    (∀ gen a amb res s', s.poll = .answered gen a → a.rows ≠ [] →
      s.client.kvLoadFailed = false → (received a.page).WithinBudgets →
      turn cfg x pk s (.ingest amb res) = some s' → s.client.cursor < a.page.cursor ∧
        (s'.client.cursor = a.page.cursor ↔
          a.page.cursor ≤ i64SaturatingAdd (amb.now 0) 60000)) ∧
    ∀ (rounds : List Round) s', Lts.run (turn cfg x pk) s (rounds.flatMap Round.turns) = some s' →
      Lts.Along (turn cfg x pk) Tame s (rounds.flatMap Round.turns) → 0 < cfg.maxPollEvents →
      (s.ahead pk).length ≤ rounds.length → ∀ r ∈ s.ahead pk, r ∈ s'.shown ∨
        ∃ round ∈ rounds, cfg.messageMaxAge ≤ round.tnow-r.receivedAt := by
  have h := walking_run hm hrun htame
  refine ⟨h.ordered,fun gen a amb res s' ha hrows hk hbudgets hstep => ?_,
    fun rounds s' hrounds htame hpage hlen r hr => h.rounds hrounds htame hpage hr hlen⟩
  have hfollows := h.answer gen a ha
  obtain ⟨r,hr⟩ := List.exists_mem_of_ne_nil _ hrows
  have hnext : s.client.cursor < a.page.cursor := (hfollows.above r hr).trans_le (hfollows.reached r hr)
  simp only [turn, ha, Option.ite_none_right_eq_some, Option.some.injEq] at hstep
  obtain ⟨⟨rfl,hread⟩,rfl⟩ := hstep
  have hcursor := Client.pollResult_cursor amb hk hread hbudgets
  have hevents : (received a.page).events ≠ [] := by simpa [received, hfollows.events] using hrows
  refine ⟨hnext,?_⟩
  change (Client.pollResult x amb s.client.pollGen res s.client).1.cursor = _ ↔ _
  rw [hcursor]
  exact Client.adoptCursor_iff hevents hnext

theorem late_page_again : ∃ s₁ s₂ s₃ gen,
    Lts.run (turn {} (serving (received latePage)) (Relay.sampleKey 'b')) lateStart
      [.commit lateSend,.ask 100000,.collect 100000] = some s₁ ∧
    s₁.poll = .answered gen ⟨[lateRow],latePage⟩ ∧ s₁.client.cursor < latePage.cursor ∧
    s₁.client.kvLoadFailed = false ∧ (received latePage).WithinBudgets ∧
    turn {} (serving (received latePage)) (Relay.sampleKey 'b') s₁ (.ingest .sample served) =
      some s₂ ∧ s₂.client.cursor ≠ latePage.cursor ∧
    Lts.run (turn {} (serving (received latePage)) (Relay.sampleKey 'b')) s₂
      (lateRound .sample).turns = some s₃ ∧ s₃.shown = [lateRow,lateRow] := by
  have hnext := lateFiled_next
  have hbody : ∀ body, (serving (received latePage)).serializes body = true := fun _ => rfl
  obtain ⟨s₁,s₂,hrun,hingest,hpoll,hcursor₁,hk,hready,hrelay,hshown,hcursor⟩ :=
    lateFiled_ready.round hbody 100000 .sample (by rw [hnext]; exact readPage_served)
      (by rw [hnext]; exact latePage_budgets)
  rw [hnext] at hpoll hshown hcursor
  have hmoved : s₂.client.cursor = 61000 := hcursor
  have hnext₂ : s₂.next {} (Relay.sampleKey 'b') 100000 = ⟨[lateRow],latePage⟩ := by
    simp only [Link.next, hrelay, hmoved]
    decide +kernel
  obtain ⟨s₃,s₄,hrun',hingest',-,-,-,-,-,hshown',-⟩ :=
    hready.round hbody 100000 .sample (by rw [hnext₂]; exact readPage_served)
      (by rw [hnext₂]; exact latePage_budgets)
  rw [hnext₂, hshown] at hshown'
  have hfile : turn {} (serving (received latePage)) (Relay.sampleKey 'b') lateStart
      (.commit lateSend) = some lateFiled := rfl
  refine ⟨s₁,s₂,s₄,s₁.client.pollGen,(Lts.run_cons_eq_some _).mpr ⟨lateFiled,hfile,hrun⟩,hpoll,?_,hk,
    latePage_budgets,hingest,?_,?_,hshown'⟩
  · rw [hcursor₁]
    decide
  · rw [hmoved]
    decide
  · exact Lts.run_append_eq_some _ hrun' (Lts.run_single _ hingest')

/-- With the clock of the client at 100000 the row is shown. -/
theorem honest_pages_walk_late : ∃ s' round,
    Lts.run (turn {} (serving (received latePage)) (Relay.sampleKey 'b')) lateStart
      (.commit lateSend :: [round].flatMap Round.turns) = some s' ∧ lateRow ∈ s'.shown := by
  let amb : Client.Ambient := { Client.Ambient.sample with now := fun _ => 100000 }
  have hnext := lateFiled_next
  have hbody : ∀ body, (serving (received latePage)).serializes body = true := fun _ => rfl
  obtain ⟨s₁,s₂,hrun,hingest,hpoll,-,hk,-⟩ := lateFiled_ready.round hbody 100000 amb
    (by rw [hnext]; exact readPage_served) (by rw [hnext]; exact latePage_budgets)
  have hfile : turn {} (serving (received latePage)) (Relay.sampleKey 'b') lateStart
      (.commit lateSend) = some lateFiled := rfl
  have hturns : [lateRound amb].flatMap Round.turns =
      [.ask 100000,.collect 100000] ++ [.ingest amb served] := rfl
  have hrounds : Lts.run (turn {} (serving (received latePage)) (Relay.sampleKey 'b')) lateFiled
      ([lateRound amb].flatMap Round.turns) = some s₂ := by
    rw [hturns]
    exact Lts.run_append_eq_some _ hrun (Lts.run_single _ hingest)
  refine ⟨s₂,lateRound amb,(Lts.run_cons_eq_some _).mpr ⟨lateFiled,hfile,hrounds⟩,?_⟩
  have hahead : lateFiled.ahead (Relay.sampleKey 'b') = [lateRow] := by decide +kernel
  have htame : Lts.Along (turn {} (serving (received latePage)) (Relay.sampleKey 'b')) Tame
      lateFiled ([lateRound amb].flatMap Round.turns) := by
    have hback : Tame s₁ (.ingest amb served) := by
      intro gen a ha
      rw [hpoll, hnext] at ha
      obtain ⟨-,rfl⟩ := Poll.answered.inj ha
      have hclock : (100000 : ℤ) ≤ i64SaturatingAdd 100000 60000 := by decide
      exact ⟨hk,latePage_budgets,hclock⟩
    rw [hturns]
    exact Lts.along_append_of_run _ ⟨trivial,fun _ _ => ⟨trivial,fun _ _ => trivial⟩⟩ hrun
      ⟨hback,fun _ _ => trivial⟩
  obtain hshown | ⟨round,hround,hold⟩ := (honest_pages_walk rfl (Lts.run_single _ hfile)
    ⟨trivial,fun _ _ => trivial⟩).2.2 [lateRound amb] s₂ hrounds htame (by decide) (by simp [hahead])
    lateRow (by simp [hahead])
  · exact hshown
  · obtain rfl := List.mem_singleton.mp hround
    simp [lateRound, lateRow] at hold

end Skrepka.Exchange
