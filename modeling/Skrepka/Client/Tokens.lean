import Skrepka.Client.Flight
import Skrepka.Client.Resume
import Skrepka.Client.Status

/-! The tokens that requests carry: which one a rejected request carried, and which one it takes
away from the client. -/
namespace Skrepka.Client
open Rust Mvu

/-- The header of a request that is authorized with a token. -/
def bearer (token : String) : String := "Bearer " ++ token

/-- The token that an event brings. -/
def Event.grants (x : Crates) (m : Model) : Event → Option String
  | .verifyResult gen res => if gen = m.authGen then readToken x res else none
  | _ => none

/-- The relay refused the token of the poll or the send under way. -/
def Event.unauthorized (m : Model) : Event → Bool
  | .pollResult gen (.ok resp) => gen = m.pollGen && resp.status = 401
  | .sendResult gen (.ok resp) => gen = m.flushGen && resp.status = 401
  | _ => false

/-- The user switches to another relay. -/
def Event.switches (x : Crates) : Event → Bool
  | .setServerUrl url => (normalizeServerUrl x url).isSome
  | _ => false

/-- The path under the address of the relay that a request goes to. -/
def HttpTag.path : HttpTag → String
  | .challengeResult _ => "/auth/challenge"
  | .verifyResult _ => "/auth/verify"
  | .pollResult _ => "/poll"
  | .sendResult _ => "/messages"

/-- The request is a poll or a send. -/
def HttpTag.Authorized (tag : HttpTag) : Prop := ∃ gen, tag = .pollResult gen ∨ tag = .sendResult gen

/-- A request is what a model makes of its relay, its token and its cursor. -/
structure HttpRequest.From (req : HttpRequest) (tag : HttpTag) (m : Model) : Prop where
  url : req.url = m.settings.serverUrl ++ tag.path
  token : tag.Authorized → ∃ token, m.token = some token ∧ req.authorization = some (bearer token)
  unsigned : ¬ tag.Authorized → req.authorization = none
  cursor : ∀ gen, tag = .pollResult gen → req.body = .pollReq m.cursor

/-- The requests among some commands are from the model that goes with them. -/
def Issuing (r : Model × Commands) : Prop :=
  ∀ req tag, .http req tag ∈ Cmd.requests r.2 → req.From tag r.1

section
variable {x : Crates} {amb : Ambient} {m : Model}

theorem issuing_of_asks (as : List Ask) {r : Model × Commands} (h : Asks as r.2)
    (hnone : ∀ a ∈ as, a ∉ [.challenge,.verify,.page,.send]) : Issuing r := by
  intro req tag hreq
  have hask := hnone _ (h.request hreq)
  cases tag <;> simp [ask] at hask

theorem authenticate_issuing : Issuing (authenticate x m) := by
  intro req tag hreq
  simp only [authenticate] at hreq ⊢
  split at hreq
  · simp at hreq
  rename_i ha
  split at hreq
  · simp at hreq
  rename_i id hid
  split at hreq
  · rename_i hser
    simp only [Cmd.requests_cons_request, Cmd.requests_cons_render, Cmd.requests_nil, List.mem_cons,
      Effect.http.injEq, reduceCtorEq, List.not_mem_nil, or_self, or_false] at hreq
    obtain ⟨rfl,rfl⟩ := hreq
    simp only [ha, hser, if_true, Bool.false_eq_true, if_false]
    exact ⟨rfl,by simp [HttpTag.Authorized],fun _ => rfl,by simp⟩
  · simp [authFailedWith, authFailed, scheduleReconnect] at hreq

theorem challengeResult_issuing (gen : UInt64) (res : HttpResult) : Issuing (challengeResult x gen res m) := by
  simp only [challengeResult]
  repeat' split
  iterate 4 exact issuing_of_asks [.timer,.render] (by simp [authFailed, scheduleReconnect, ask]) (by simp)
  · exact issuing_of_asks [.timer,.render]
      (by simp [authFailedWith, authFailed, scheduleReconnect, ask]) (by simp)
  · intro req tag hreq
    simp only [Cmd.requests_cons_request, Cmd.requests_nil, List.mem_cons, Effect.http.injEq,
      List.not_mem_nil, or_false] at hreq
    obtain ⟨rfl,rfl⟩ := hreq
    exact ⟨rfl,by simp [HttpTag.Authorized],fun _ => rfl,by simp⟩
  · exact issuing_of_asks [.timer,.render]
      (by simp [authFailedWith, authFailed, scheduleReconnect, ask]) (by simp)

theorem poll_issuing : Issuing (poll x m) := by
  intro req tag hreq
  simp only [poll] at hreq ⊢
  split at hreq
  · simp at hreq
  rename_i hp
  cases htoken : m.token with
  | none => simp [htoken] at hreq
  | some token =>
    simp only [htoken] at hreq ⊢
    split at hreq
    · rename_i hser
      simp only [Cmd.requests_cons_request, Cmd.requests_nil, List.mem_cons, Effect.http.injEq,
        reduceCtorEq, List.not_mem_nil, or_self, or_false] at hreq
      obtain ⟨rfl,rfl⟩ := hreq
      simp only [hp, hser, if_true, Bool.false_eq_true, if_false]
      exact ⟨rfl,fun _ => ⟨token,htoken,rfl⟩,fun h => absurd ⟨_,.inl rfl⟩ h,fun _ _ => rfl⟩
    · simp [backoffPoll] at hreq

theorem Writes.issuing_append {ws cs : Commands} {m' : Model} (hw : Writes ws)
    (h : Issuing (m',cs)) : Issuing (m',ws ++ cs) := by
  intro req tag hreq
  simp only [Cmd.requests_append, List.mem_append] at hreq
  rcases hreq with hreq | hreq
  · have hask := hw.asks.request hreq
    cases tag <;> simp [ask] at hask
  · exact h req tag hreq

theorem issuing_render {r : Model × Commands} (h : Issuing r) : Issuing (r.1,r.2 ++ [.render]) :=
  fun req tag hreq => h req tag (by simpa using hreq)

theorem flushNext_issuing : Issuing (flushNext x amb m) := by
  have h := flushNext_flushed x amb m
  generalize flushNext x amb m = r at h
  cases h with
  | gated => exact issuing_of_asks [] (asks_nil []) (by simp)
  | emptied _ _ _ _ hw he =>
    refine hw.issuing_append (issuing_of_asks [.render] ?_ (by simp))
    rcases he with rfl | rfl <;> simp [ask]
  | @sent id token b rest recipient ws _ _ htoken _ _ hw =>
    refine hw.issuing_append fun req tag hreq => ?_
    simp only [Cmd.requests_cons_request, Cmd.requests_nil, List.mem_cons, Effect.http.injEq,
      reduceCtorEq, List.not_mem_nil, or_self, or_false] at hreq
    obtain ⟨rfl,rfl⟩ := hreq
    exact ⟨rfl,fun _ => ⟨token,htoken,rfl⟩,fun h => absurd ⟨_,.inr rfl⟩ h,by simp⟩
  | unsent _ _ _ _ hw => exact hw.issuing_append (issuing_of_asks [.render] (by simp [ask]) (by simp))

theorem retryBatch_issuing (batch : Option InFlight) : Issuing (retryBatch x amb batch m) := by
  cases batch with
  | none => exact issuing_of_asks [.render] (by simp [retryBatch, ask]) (by simp)
  | some batch =>
    simp only [retryBatch]
    split
    · exact (persistOutbox_writes _).issuing_append (issuing_of_asks [.render] (by simp [ask]) (by simp))
    · exact issuing_render ((persistOutbox_writes _).issuing_append flushNext_issuing)

theorem sendResult_issuing (gen : UInt64) (res : HttpResult) : Issuing (sendResult x amb gen res m) := by
  have hanswered := sendResult_answered x amb gen res m
  generalize sendResult x amb gen res m = r at hanswered
  cases hanswered with
  | stale => exact issuing_of_asks [] (asks_nil []) (by simp)
  | unauthorized => exact issuing_of_asks [.authenticate] (by simp [ask]) (by simp)
  | limited => exact issuing_of_asks [.timer,.render] (by simp [rateLimited, ask]) (by simp)
  | split => exact flushNext_issuing
  | settled => exact (persistOutbox_writes _).issuing_append flushNext_issuing
  | failed => exact retryBatch_issuing _

/-- What an event issues goes to the relay of the model that it leaves, with the token and the cursor
there. -/
theorem update_issuing (e : Event) : Issuing (update x amb e m) := by
  have hasks := update_asks x amb e m
  cases e with
  | authenticate => exact authenticate_issuing
  | challengeResult gen res => exact challengeResult_issuing gen res
  | poll => exact poll_issuing
  | startFlush => exact flushNext_issuing
  | flushWatchdog gen =>
    simp only [update, flushWatchdog]
    split
    · exact issuing_of_asks [] (asks_nil []) (by simp)
    · exact flushNext_issuing
  | sendResult gen res => exact sendResult_issuing gen res
  | _ => exact issuing_of_asks _ hasks (by simp [Event.asks])

theorem verifyResult_token (gen : UInt64) (res : HttpResult) : (verifyResult x gen res m).1.token =
    (Event.grants x m (.verifyResult gen res)).or m.token := by
  simp only [verifyResult, Event.grants]
  by_cases hgen : gen = m.authGen
  · simp only [hgen, ne_eq, not_true_eq_false, if_false, if_true]
    cases res with
    | err => simp [readToken, authFailed, scheduleReconnect]
    | ok resp =>
      cases hread : (x.fromSlice resp.body).bind verifyRespOfJson with
      | none => simp [readToken, hread, authFailed, scheduleReconnect]
      | some token =>
        by_cases hempty : token = ""
        · simp [readToken, hread, hempty, Option.filter, authFailed, scheduleReconnect]
        · simp [readToken, hread, hempty, Option.filter]
  · simp [hgen]

theorem pollPage_token (page : PollResp) : (pollPage x amb page m).1.token = m.token := by
  obtain ⟨_,_,_,_,_,_,h,-⟩ := pollPage_fst x amb page m
  rw [h]

theorem pollResult_token (gen : UInt64) (res : HttpResult) : (pollResult x amb gen res m).1.token =
    if (Event.pollResult gen res).unauthorized m then none else m.token := by
  simp only [pollResult]
  by_cases hgen : gen = m.pollGen
  · simp only [hgen, ne_eq, not_true_eq_false, if_false]
    cases res with
    | err => simp [Event.unauthorized, backoffPoll]
    | ok resp =>
      by_cases h401 : resp.status = 401
      · simp [Event.unauthorized, h401]
      · simp only [h401, if_false, Event.unauthorized, decide_false, Bool.and_false, Bool.false_eq_true]
        split
        · rfl
        split
        · rfl
        split
        · rfl
        split
        · rfl
        · exact pollPage_token _
  · cases res <;> simp [hgen, Event.unauthorized]

theorem flushNext_token : (flushNext x amb m).1.token = m.token := by
  obtain ⟨_,_,_,_,_,h⟩ := flushNext_fst x amb m
  rw [h]

theorem retryBatch_token (batch : Option InFlight) : (retryBatch x amb batch m).1.token = m.token := by
  obtain ⟨_,_,_,_,_,h⟩ := retryBatch_fst x amb batch m
  rw [h]

theorem sendResult_token (gen : UInt64) (res : HttpResult) : (sendResult x amb gen res m).1.token =
    if (Event.sendResult gen res).unauthorized m then none else m.token := by
  have hanswered := sendResult_answered x amb gen res m
  generalize sendResult x amb gen res m = r at hanswered
  have hother : ∀ {res : HttpResult}, (∀ resp, res = .ok resp → resp.status ≠ 401) →
      (Event.sendResult m.flushGen res).unauthorized m = false := by
    intro res h
    cases res with
    | err => rfl
    | ok resp => simp [Event.unauthorized, h resp rfl]
  cases hanswered with
  | stale h => cases res <;> simp [Event.unauthorized, h]
  | unauthorized h401 => simp [Event.unauthorized, h401]
  | limited h429 =>
    rw [hother fun _ h => by obtain rfl := HttpResult.ok.inj h; omega]
    rfl
  | split h413 =>
    rw [hother fun _ h => by obtain rfl := HttpResult.ok.inj h; omega]
    exact flushNext_token
  | settled hsettles =>
    rw [hother fun resp h h401 => by simp [h, h401, HttpResult.settles, isSuccess] at hsettles]
    obtain ⟨_,_,_,_,_,_,h⟩ := sendDone_fst x amb m.inFlight m.answered
    rw [h]
    rfl
  | failed hfails =>
    rw [hother fun resp h h401 => by simp [h, h401, HttpResult.fails] at hfails]
    exact retryBatch_token _

/-- A token is held until another comes, it is refused, or the user leaves the relay. -/
theorem update_token (e : Event) : (update x amb e m).1.token =
    (e.grants x m).or (if e.unauthorized m || e.switches x then none else m.token) := by
  by_cases hw : Field.token ∈ e.writes
  · cases e with
    | setServerUrl url =>
      rcases setServerUrl_fst x url m with ⟨hurl,_,h⟩ | ⟨url',hurl,_,h⟩
      · simp [update, h, Event.grants, Event.unauthorized, Event.switches, hurl]
      · simp [update, h, Event.grants, Event.unauthorized, Event.switches, hurl, Model.switchRelay,
          Model.abandonPoll, Model.abandonFlush]
    | verifyResult gen res =>
      simpa [update, Event.unauthorized, Event.switches] using verifyResult_token gen res
    | pollResult gen res =>
      simpa [update, Event.grants, Event.switches] using pollResult_token gen res
    | sendResult gen res =>
      simpa [update, Event.grants, Event.switches] using sendResult_token gen res
    | _ => simp [Event.writes] at hw
  · have hsame : (update x amb e m).1.token = m.token := update_agrees x amb e m .token hw
    rw [hsame]
    cases e with
    | setServerUrl | verifyResult | pollResult | sendResult => simp [Event.writes] at hw
    | _ => simp [Event.grants, Event.unauthorized, Event.switches]

/-- An error in place of a result costs neither the token nor a new auth attempt. -/
theorem update_err (tag : HttpTag) :
    (update x amb (tag.event .err) m).1.token = m.token ∧
      Cmd.events (update x amb (tag.event .err) m).2 = [] ∧
      ((update x amb (tag.event .err) m).1.authenticating = true → m.authenticating = true) := by
  have htoken : (update x amb (tag.event .err) m).1.token = m.token := by
    rw [update_token]
    cases tag <;> simp [HttpTag.event, Event.grants, Event.unauthorized, Event.switches, readToken]
  refine ⟨htoken,?_⟩
  cases tag with
  | challengeResult gen =>
    simp only [HttpTag.event, update, challengeResult]
    split <;> simp [authFailed, scheduleReconnect]
  | verifyResult gen =>
    simp only [HttpTag.event, update, verifyResult]
    split <;> simp [authFailed, scheduleReconnect]
  | pollResult gen =>
    simp only [HttpTag.event, update, pollResult]
    split <;> simp [backoffPoll]
  | sendResult gen =>
    simp only [HttpTag.event, update, sendResult]
    split
    · simp
    · refine ⟨events_retryBatch .., fun h => ?_⟩
      obtain ⟨_,_,_,_,_,hfst⟩ := retryBatch_fst x amb m.inFlight { m with flushing := false, inFlight := none }
      rw [hfst] at h
      exact h

end

/-- The tokens of a run, newest first: those that the client was given, and the headers whose
refusal had it start an auth attempt. -/
structure Tokens where
  given : List String
  renewed : List String

/-- The header of a request whose refusal has the client authenticate anew. -/
def renewal (c d : Running) : Action Event Answer → Option String
  | .answer t (.http (.ok resp)) =>
    match c.pending.lookup t with
    | some (.http req _) =>
      if resp.status = 401 && !c.model.authenticating &&
          (d.model.authenticating || d.queue.any fun e => e matches .authenticate) then
        req.authorization
      else none
    | _ => none
  | _ => none

def noteTokens (x : Crates) (c : Running) (l : Label) (d : Running) (n : Tokens) : Tokens where
  given := ((c.event? (app x) l.2).bind fun e => e.grants x c.model).toList ++ n.given
  renewed := (renewal c d l.2).toList ++ n.renewed

/-- Every token in use was given, and none has been renewed for a refusal. -/
structure Tracked (c : Running) (n : Tokens) : Prop where
  carried : ∀ t req tag, (t,.http req tag) ∈ c.pending → tag.Authorized →
    ∃ token ∈ n.given, req.authorization = some (bearer token)
  held : ∀ token, c.model.token = some token → token ∈ n.given
  renewed : n.renewed = []

section
variable {x : Crates} {c d : Running} {l : Label} {n : Tokens} {e : Event}

theorem step_model (hstep : step x c l = some d) (he : c.event? (app x) l.2 = some e) :
    d.model = (update x l.1 e c.model).1 := by
  obtain ⟨c₁,ht,rfl⟩ := Core.step_event hstep he
  exact process_model ht

/-- A refused request leaves the token alone, whichever it is by now, and starts no auth attempt. -/
theorem refusal_step (hx : x.Screens) {amb : Ambient} {t : ℕ} {resp : Response} (h401 : resp.status = 401)
    {req : HttpRequest} {tag : HttpTag} (hf : c.pending.lookup t = some (.http req tag))
    (hstep : step x c (amb,.answer t (.http (.ok resp))) = some d) :
    d.model.token = c.model.token ∧ d.queue = [] ∧
      (d.model.authenticating = true → c.model.authenticating = true) := by
  obtain ⟨⟨e,c₁⟩,htake,rfl⟩ := Option.map_eq_some_iff.mp hstep
  have hq : c.queue = [] := by
    by_contra hq
    simp [Core.take, hq] at htake
  have hdeliver : x.deliver (.ok resp) = .err := hx.refused resp (by simp [Response.isError, h401])
  simp only [Core.take, hq, List.isEmpty_nil, if_true, hf, app, answer, hdeliver, Option.map_some,
    Option.some.injEq, Prod.mk.injEq] at htake
  obtain ⟨rfl,rfl⟩ := htake
  obtain ⟨htoken,hevents,hauth⟩ := @update_err x amb c.model tag
  refine ⟨htoken,?_,hauth⟩
  change c.queue ++ Cmd.events (update x amb (tag.event .err) c.model).2 = []
  rw [hq, hevents, List.append_nil]

theorem renewal_eq_none (hx : x.Screens) (hstep : step x c l = some d) : renewal c d l.2 = none := by
  obtain ⟨amb,act⟩ := l
  simp only [renewal]
  split
  · split
    · rename_i t resp _ req tag hf
      refine if_neg fun h => ?_
      simp only [Bool.and_eq_true, decide_eq_true_eq, Bool.not_eq_true'] at h
      obtain ⟨⟨h401,hidle⟩,hstarts⟩ := h
      obtain ⟨-,hqueue,hauth⟩ := refusal_step hx h401 hf hstep
      simp only [hqueue, List.any_nil, Bool.or_false] at hstarts
      simp [hauth hstarts] at hidle
    · rfl
  · rfl

theorem Tracked.step (hx : x.Screens) (h : Tracked c n) (hstep : Client.step x c l = some d)
    (he : c.event? (app x) l.2 = some e) : Tracked d (noteTokens x c l d n) := by
  have hmodel := step_model hstep he
  have hnote : noteTokens x c l d n = ⟨(e.grants x c.model).toList ++ n.given,n.renewed⟩ := by
    simp [noteTokens, he, renewal_eq_none hx hstep]
  rw [hnote]
  have hheld : ∀ token, d.model.token = some token → token ∈ (e.grants x c.model).toList ++ n.given := by
    intro token ht
    rw [hmodel, update_token] at ht
    cases hb : e.grants x c.model with
    | some token' =>
      rw [hb, Option.some_or, Option.some.injEq] at ht
      simp [ht]
    | none =>
      rw [hb, Option.none_or, Option.ite_none_left_eq_some] at ht
      exact List.mem_append_right _ (h.held token ht.2)
  refine ⟨fun t req tag hf htag => ?_,hheld,h.renewed⟩
  obtain ⟨c₁,ht,rfl⟩ := Core.step_event hstep he
  obtain hold | ⟨hnew,-⟩ := Core.mem_process_pending hf
  · obtain ⟨token,hgiven,hauth⟩ := h.carried t req tag (ht.mem_pending hold) htag
    exact ⟨token,List.mem_append_right _ hgiven,hauth⟩
  · rw [ht.model_eq] at hnew
    obtain ⟨token,htoken,hauth⟩ := (update_issuing e req tag hnew).token htag
    exact ⟨token,hheld token (hmodel ▸ htoken),hauth⟩

end

theorem tracked_run {x : Crates} (hx : x.Screens) {ls : List Label} {c : Running} {n : Tokens}
    (hrun : Lts.run (Lts.watch (step x) (noteTokens x)) (boot x,⟨[],[]⟩) ls = some (c,n)) :
    Tracked c n := by
  refine Lts.run_invariant _ (I := fun s : Running × Tokens => Tracked s.1 s.2)
    (fun s l t hs hstep => ?_) ?_ hrun
  · obtain ⟨hcore,hnote⟩ := Lts.watch_eq_some (step x) hstep
    obtain ⟨⟨e,c₁⟩,htake,-⟩ := Option.map_eq_some_iff.mp hcore
    rw [hnote]
    exact hs.step hx hcore (e := e) (by simp [Core.event?, htake])
  · exact ⟨by simp [boot, Core.boot],by simp [boot, Core.boot, app],rfl⟩

/-- A late refusal leaves a newer token alone: in every run, what polls and sends carry was given to the
client as a token, the answer 401 to any request leaves the token that the client holds by then and
starts no auth attempt, and so a token has the client authenticate anew once at most. -/
theorem late_refusal_keeps_token {x : Crates} (hx : x.Screens) {ls : List Label} {c : Running} {n : Tokens}
    (hrun : Lts.run (Lts.watch (step x) (noteTokens x)) (boot x,⟨[],[]⟩) ls = some (c,n)) :
    (∀ t req tag, (t,.http req tag) ∈ c.pending → tag.Authorized →
      ∃ token ∈ n.given, req.authorization = some (bearer token)) ∧
    (∀ amb d t req tag resp, (t,.http req tag) ∈ c.pending → resp.status = 401 →
      step x c (amb,.answer t (.http (.ok resp))) = some d →
        d.model.token = c.model.token ∧ d.queue = [] ∧
          (d.model.authenticating = true → c.model.authenticating = true)) ∧
    ∀ token, n.renewed.count (bearer token) ≤ n.given.count token := by
  have htracked := tracked_run hx hrun
  have hwf : c.Wf := Lts.run_invariant (step x) (I := Core.Wf) (fun _ _ _ hc hs => Core.step_wf hc hs)
    (Core.boot_wf (app x)) (Lts.run_of_watch (step x) hrun)
  refine ⟨htracked.carried,fun amb d t req tag resp hf h401 hstep => ?_,fun token => ?_⟩
  · exact refusal_step hx h401 (Core.lookup_of_mem hwf hf) hstep
  · rw [htracked.renewed, List.count_nil]
    exact Nat.zero_le _

def laterTokenText : String := "\x7b\"token\":\"u\"\x7d"

/-- The sample crates, with one more response that a relay can give. -/
def Crates.sampleRenewed : Crates :=
  { Crates.sample with
    fromSlice := fun body =>
      if body = asBytes laterTokenText then some (.obj [("token",.str "u")])
      else Crates.sample.fromSlice body }

theorem sampleRenewed_screens : Crates.sampleRenewed.Screens where
  refused _ h := if_pos h
  passed _ h := if_neg (by simp [h])

def sampleRefusal : Answer := .http (.ok ⟨401,none,[]⟩)

/-- Online with a send out, a poll fails, the next one goes out with the old token, and the user has the
client authenticate anew. -/
def sampleRenewal : List (Action Event Answer) :=
  sampleOnline ++ sampleText (samplePeer 7) ++
    [.answer 11 (.http .err),.answer 19 .elapsed,.shell .connect,.drain,
      .answer 22 (sampleOk challengeText),.answer 24 (sampleOk laterTokenText),.drain,.drain]

/-- A request with some header. -/
def Effect.carries (tag : HttpTag) (header : String) : Effect → Bool
  | .http req tag' => tag' = tag && req.authorization = some header
  | _ => false

/-- Then that poll is refused, and the new token stays. -/
theorem late_refusal_keeps_token_refused : ∃ c n d req,
    Lts.run (Lts.watch (step .sampleRenewed) (noteTokens .sampleRenewed)) (boot .sampleRenewed,⟨[],[]⟩)
      (sampleLabels sampleRenewal) = some (c,n) ∧ n.given = ["u","t"] ∧
    (20,.http req (.pollResult c.model.pollGen)) ∈ c.pending ∧ req.authorization = some (bearer "t") ∧
    step .sampleRenewed c (.sample,.answer 20 sampleRefusal) = some d ∧ d.model.token = some "u" ∧
    d.queue = [] ∧ n.renewed.count (bearer "t") ≤ n.given.count "t" := by
  have hrun : (Lts.run (Lts.watch (step .sampleRenewed) (noteTokens .sampleRenewed))
      (boot .sampleRenewed,⟨[],[]⟩) (sampleLabels sampleRenewal)).any (fun s =>
        s.2.given = ["u","t"] && s.1.model.token = some "u" &&
        s.1.pending.any (fun p => p.1 = 20 && p.2.carries (.pollResult s.1.model.pollGen) (bearer "t")) &&
        (step .sampleRenewed s.1 (.sample,.answer 20 sampleRefusal)).isSome) = true := by
    decide +kernel
  simp only [Option.any_eq_true, Bool.and_eq_true, decide_eq_true_eq, List.any_eq_true,
    Option.isSome_iff_exists] at hrun
  obtain ⟨⟨c,n⟩,hc,⟨⟨hgiven,htoken⟩,⟨t,f⟩,hp,rfl,hf⟩,d,hd⟩ := hrun
  cases f with
  | http req tag =>
    simp only [Effect.carries, Bool.and_eq_true, decide_eq_true_eq] at hf
    obtain ⟨rfl,hauth⟩ := hf
    obtain ⟨-,hkeeps,hcount⟩ := late_refusal_keeps_token sampleRenewed_screens hc
    obtain ⟨hsame,hqueue,-⟩ := hkeeps _ d _ req _ _ hp rfl hd
    exact ⟨c,n,d,req,hc,hgiven,hp,hauth,hd,hsame.trans htoken,hqueue,hcount "t"⟩
  | kv | time => simp [Effect.carries] at hf

end Skrepka.Client
