import Skrepka.Client.History
import Skrepka.Client.Landing

/-! Relay isolation on a device: what goes to a relay is 0 or a cursor from a page of that relay, and a
token that it issued, over switches, late results, startup loads and kills. -/
namespace Skrepka.Client
open Rust Mvu

/-- What the relays have given a client, each with the address that it was asked at: the cursors that
the client took over from their pages, and the tokens. -/
structure Origins where
  cursors : List (String × ℤ)
  tokens : List (String × String)

/-- The request that a step brings the answer to. -/
def answered (d : Phone) (h : Happening Ambient Event Answer) : Option (HttpRequest × HttpTag × HttpResult) :=
  match d.label kvStore h with
  | some (_,.answer t (.http res)) => match d.core.pending.lookup t with
    | some (.http req tag) => some (req,tag,res)
    | _ => none
  | _ => none

def noteOrigins (x : Crates) (d : Phone) (h : Happening Ambient Event Answer) (d' : Phone)
    (n : Origins) : Origins :=
  match answered d h with
  | some (req,.pollResult _,_) =>
    if d'.core.model.cursor ≠ d.core.model.cursor then
      { n with cursors := (req.url,d'.core.model.cursor) :: n.cursors }
    else n
  | some (req,.verifyResult _,res) => match readToken x (x.deliver res) with
    | some token => { n with tokens := (req.url,token) :: n.tokens }
    | none => n
  | _ => n

/-- A cursor is 0, or was taken from a page of a relay. -/
def Adopted (n : Origins) (url : String) (cursor : ℤ) : Prop :=
  cursor = 0 ∨ (url ++ "/poll",cursor) ∈ n.cursors

/-- What a request carries is from the relay that it goes to. -/
structure HttpRequest.Belongs (req : HttpRequest) (tag : HttpTag) (n : Origins) : Prop where
  cursor : ∀ gen, tag = .pollResult gen →
    ∃ cursor, req.body = .pollReq cursor ∧ (cursor = 0 ∨ (req.url,cursor) ∈ n.cursors)
  token : ∀ header, req.authorization = some header → ∃ url token,
    req.url = url ++ tag.path ∧ header = bearer token ∧ (url ++ "/auth/verify",token) ∈ n.tokens

/-- An event leaves the relay alone while it is being read: it is no second identity, and it neither
switches nor connects, unless a read has failed. -/
def Event.sparesRelay (x : Crates) (c : Running) : Event → Bool
  | .identityLoaded sk => !(Crypto.fromSecretBytes x sk).isOk || c.model.secretKey.isNone
  | .setServerUrl url => (normalizeServerUrl x url).isNone || c.model.kvLoadFailed || !readsRelay c
  | .connect => c.model.kvLoadFailed || !readsRelay c
  | _ => true

/-- The reset of the cursor is next, and there is something to reset. -/
def resetDue (d : Phone) : Bool :=
  (d.oldest kvStore).any fun p => p.2.isReset && cursorOf (d.disk .cursor) ≠ 0

/-- The write of another address is next. -/
def moveDue (x : Crates) (d : Phone) : Bool := (d.oldest kvStore).any fun p => p.2.moves x d.disk

/-- A switch gets to the store as a whole: the write of another address does not fail, and over a cursor
that is not 0 the reset neither fails nor is cut off. -/
def Undivided (x : Crates) (d : Phone) : Happening Ambient Event Answer → Prop
  | .kill => resetDue d = false
  | .perform false => resetDue d = false ∧ moveDue x d = false
  | h => ∀ l ∈ d.label kvStore h, ∀ e ∈ d.core.event? (app x) l.2, e.sparesRelay x d.core = true

instance (x : Crates) (d : Phone) : ∀ h, Decidable (Undivided x d h)
  | .kill => inferInstanceAs (Decidable (_ = _))
  | .perform false => inferInstanceAs (Decidable (_ ∧ _))
  | .perform true | .act _ _ | .deliver _ _ =>
    inferInstanceAs (Decidable (∀ l ∈ d.label kvStore _, ∀ e ∈ d.core.event? (app x) l.2,
      e.sparesRelay x d.core = true))

/-- The client has yet to connect: the address that it names is the one in the store, unless a read has
failed or the address is still to be read. -/
structure Loading (n : Origins) (url : String) (c : Running) : Prop where
  idle : Idle c
  cursor : Adopted n url c.model.cursor
  address : c.model.kvLoadFailed = true ∨ c.model.settings.serverUrl = url ∨
    c.model.settings.serverUrl = defaultServerUrl ∧
      (c.model.secretKey = none ∨ ∃ t, (t,.kv (.get .settings) .loadedSettings) ∈ c.pending)

/-- The client has read what is stored about its relay. -/
structure Active (n : Origins) (url : String) (c : Running) : Prop where
  identity : c.model.secretKey ≠ none
  unread : readsRelay c = false
  cursor : Adopted n c.model.settings.serverUrl c.model.cursor
  address : c.model.kvLoadFailed = true ∨ c.model.settings.serverUrl = url

/-- What holds of a device and of what its relays gave it, after a number of steps. -/
structure Isolated (x : Crates) (k : ℕ) (d : Phone) (n : Origins) : Prop where
  wf : d.Wf
  known : Known d.core
  counted : Counted (2*k) d.core
  addressed : Addressed d.core
  reading : Reading d
  token : ∀ token, d.core.model.token = some token →
    (d.core.model.settings.serverUrl ++ "/auth/verify",token) ∈ n.tokens
  pending : ∀ t req tag, (t,.http req tag) ∈ d.core.pending → req.Belongs tag n
  stored : ∃ url, Consistent x (Adopted n) d.disk (d.awaiting kvStore) url ∧
    (Loading n url d.core ∨ Active n url d.core)

section
variable {x : Crates} {d d' : Phone} {h : Happening Ambient Event Answer} {l : Label} {n : Origins}

theorem answered_eq (hwf : d.core.Wf) (hl : d.label kvStore h = some l) {t : ℕ} {res : HttpResult}
    {req : HttpRequest} {tag : HttpTag} (hact : l.2 = .answer t (.http res))
    (hf : (t,.http req tag) ∈ d.core.pending) : answered d h = some (req,tag,res) := by
  obtain ⟨amb,act⟩ := l
  obtain rfl : act = .answer t (.http res) := hact
  simp [answered, hl, Core.lookup_of_mem hwf hf]

theorem noteOrigins_mono : n.cursors ⊆ (noteOrigins x d h d' n).cursors ∧
    n.tokens ⊆ (noteOrigins x d h d' n).tokens := by
  simp only [noteOrigins]
  repeat' split
  all_goals simp

theorem Adopted.mono {n' : Origins} (hsub : n.cursors ⊆ n'.cursors) {url : String} {cursor : ℤ}
    (h : Adopted n url cursor) : Adopted n' url cursor := h.imp_right fun h => hsub h

theorem HttpRequest.Belongs.mono {n' : Origins} {req : HttpRequest} {tag : HttpTag}
    (hcursors : n.cursors ⊆ n'.cursors) (htokens : n.tokens ⊆ n'.tokens) (h : req.Belongs tag n) :
    req.Belongs tag n' where
  cursor gen htag := by
    obtain ⟨cursor,hbody,hcursor⟩ := h.cursor gen htag
    exact ⟨cursor,hbody,hcursor.imp_right fun h => hcursors h⟩
  token header hheader := by
    obtain ⟨url,token,hurl,hbearer,htoken⟩ := h.token header hheader
    exact ⟨url,token,hurl,hbearer,htokens htoken⟩

/-- The cursor after a page is one of the relay that the model names. -/
theorem adopted_page (hwf : d.core.Wf) (hk : Known d.core) (hhomed : Homed pollRound d.core)
    (hl : d.label kvStore h = some l) {c₁ : Running} {res : HttpResult}
    (ht : Core.Takes (app x) d.core l.2 (.pollResult d.core.model.pollGen res) c₁)
    (hold : Adopted n d.core.model.settings.serverUrl d.core.model.cursor) :
    Adopted (noteOrigins x d h d' n) d.core.model.settings.serverUrl d'.core.model.cursor := by
  obtain ⟨-,t,req,r,hact,hf,-⟩ := takes_http (.pollResult d.core.model.pollGen) hk ht
  have hurl : req.url = d.core.model.settings.serverUrl ++ "/poll" := hhomed t req _ hf rfl
  by_cases hcursor : d'.core.model.cursor = d.core.model.cursor
  · rw [hcursor]
    exact hold.mono noteOrigins_mono.1
  · right
    simp [noteOrigins, answered_eq hwf hl hact hf, hcursor, hurl]

/-- A token was issued by the relay that the model names. -/
theorem token_issued (hwf : d.core.Wf) (hk : Known d.core) (haddressed : Addressed d.core)
    (hl : d.label kvStore h = some l) {c₁ : Running} {res : HttpResult} {token : String}
    (ht : Core.Takes (app x) d.core l.2 (.verifyResult d.core.model.authGen res) c₁)
    (hread : readToken x res = some token) :
    (d.core.model.settings.serverUrl ++ "/auth/verify",token) ∈ (noteOrigins x d h d' n).tokens := by
  obtain ⟨hq,t,req,r,hact,hf,rfl⟩ := takes_http (.verifyResult d.core.model.authGen) hk ht
  have hhomed : Homed authRound d.core := haddressed.auth.resolve_left (by simp [hq])
  have hurl : req.url = d.core.model.settings.serverUrl ++ "/auth/verify" := hhomed t req _ hf rfl
  simp [noteOrigins, answered_eq hwf hl hact hf, hread, hurl]

end

section
variable {x : Crates} {c d : Running} {l : Label} {e : Event} {n n' : Origins} {url : String}

theorem Loading.mono (hsub : n.cursors ⊆ n'.cursors) (h : Loading n url c) : Loading n' url c :=
  ⟨h.idle,h.cursor.mono hsub,h.address⟩

theorem Active.mono (hsub : n.cursors ⊆ n'.cursors) (h : Active n url c) : Active n' url c :=
  ⟨h.identity,h.unread,h.cursor.mono hsub,h.address⟩

/-- An event that leaves the relay alone is a valid identity only before there is one. -/
theorem invalid_of_spares (hspares : e.sparesRelay x c = true) (hsecret : c.model.secretKey ≠ none) :
    ∀ sk, e = .identityLoaded sk → (Crypto.fromSecretBytes x sk).isOk = false := by
  rintro sk rfl
  simpa [Event.sparesRelay, hsecret] using hspares

/-- Connecting with the relay read makes the client active. -/
theorem Loading.connects (h : Loading n url c) (hstep : Client.step x c l = some d)
    (he : c.event? (app x) l.2 = some .connect) (hopen : c.model.kvLoadFailed = false)
    (hsecret : c.model.secretKey ≠ none) (hunread : readsRelay c = false) : Active n url d := by
  have hmodel : d.model = c.model.abandonAuth := (step_model hstep he).trans (connect_fst c.model)
  have hurl : c.model.settings.serverUrl = url := by
    obtain hlatch | hurl | ⟨-,hnone | ⟨t,hf⟩⟩ := h.address
    · simp [hopen] at hlatch
    · exact hurl
    · exact absurd hnone hsecret
    · have := readsRelay_eq_false.mp hunread _ hf
      simp [Effect.readsRelay] at this
  have hsame : d.model.secretKey = c.model.secretKey ∧ d.model.cursor = c.model.cursor ∧
      d.model.settings = c.model.settings := by
    rw [hmodel]
    exact ⟨rfl,rfl,rfl⟩
  obtain ⟨hkey,hcursor,hsettings⟩ := hsame
  refine ⟨hkey ▸ hsecret,unread_step hunread hstep he (by simp),?_,.inr ?_⟩
  · rw [hcursor, hsettings, hurl]
    exact h.cursor
  · rw [hsettings, hurl]

/-- The latch stays on while the client has yet to connect. -/
theorem Loading.latched (h : Loading n url c) (hstep : Client.step x c l = some d)
    (he : c.event? (app x) l.2 = some e) (hspares : e.sparesRelay x c = true)
    (hlatch : c.model.kvLoadFailed = true) : d.model.kvLoadFailed = true := by
  rw [step_model hstep he]
  refine latched_step hlatch (invalid_of_spares hspares fun hnone => ?_)
  simp [(h.idle.early hnone).1] at hlatch

theorem Loading.address_step (h : Loading n url c) (hwf : c.Wf) (hstep : Client.step x c l = some d)
    (he : c.event? (app x) l.2 = some e) (hspares : e.sparesRelay x c = true)
    (hsettings : ∀ value, e = .loadedSettings (.ok value) → addressOf x value = url)
    (hswitch : e.switches x = true → c.model.kvLoadFailed = true) :
    d.model.kvLoadFailed = true ∨ d.model.settings.serverUrl = url ∨
      d.model.settings.serverUrl = defaultServerUrl ∧
        (d.model.secretKey = none ∨ ∃ t, (t,.kv (.get .settings) .loadedSettings) ∈ d.pending) := by
  have hmodel := step_model hstep he
  by_cases hlatch : c.model.kvLoadFailed = true
  · exact .inl (h.latched hstep he hspares hlatch)
  by_cases hload : ∃ res, e = .loadedSettings res
  · obtain ⟨res,rfl⟩ := hload
    rw [hmodel]
    obtain hfail | ⟨value,rfl,hvalue⟩ := loadedSettings_address x l.1 c.model res
    · exact .inl hfail
    have hurl := hsettings value rfl
    obtain hvalue | ⟨rfl,hsame⟩ := hvalue
    · exact .inr (.inl (hvalue.trans hurl))
    · refine .inr (.inl ?_)
      rw [hsame]
      obtain hno | hold | ⟨hdefault,-⟩ := h.address
      · exact absurd hno hlatch
      · exact hold
      · exact hdefault.trans hurl
  have hsame : d.model.settings = c.model.settings := by
    rw [hmodel]
    refine update_settings (by simpa using fun hs => hlatch (hswitch hs)) fun hl => ?_
    cases e <;> simp [Event.load?] at hl
    exact hload ⟨_,rfl⟩
  rw [hsame]
  obtain hno | hold | ⟨hdefault,hdue⟩ := h.address
  · exact absurd hno hlatch
  · exact .inr (.inl hold)
  refine .inr (.inr ⟨hdefault,?_⟩)
  obtain ⟨c₁,ht,rfl⟩ := Core.step_event hstep he
  obtain hnone | ⟨t,hf⟩ := hdue
  · -- A valid identity reads the address.
    by_cases hid : ∃ sk, e = .identityLoaded sk ∧ (Crypto.fromSecretBytes x sk).isOk = true
    · obtain ⟨sk,rfl,hok⟩ := hid
      obtain ⟨pk,hup⟩ := @identityLoaded_ok l.1 _ _ hok c₁.model
      refine .inr (Core.exists_mem_process l.1 (Event.identityLoaded sk) ?_)
      change _ ∈ Cmd.requests (update x l.1 (.identityLoaded sk) c₁.model).2
      rw [hup]
      simp [load]
    · left
      rw [hmodel, ← hnone]
      exact (counts_loads x l.1 c.model fun sk hsk => by
        simpa using fun hok => hid ⟨sk,hsk,hok⟩).1
  · refine .inr ⟨t,Core.mem_process_of_mem _ _ (ht.mem_of_ne hwf hf fun r hr => ?_)⟩
    cases r <;> simp [app, answer, KvTag.event] at hr
    exact hload ⟨_,hr.symm⟩

theorem Loading.step (h : Loading n url c) (hwf : c.Wf) (hidle : Idle d) (hstep : Client.step x c l = some d)
    (he : c.event? (app x) l.2 = some e) (hspares : e.sparesRelay x c = true)
    (hsettings : ∀ value, e = .loadedSettings (.ok value) → addressOf x value = url)
    (hcursor : ∀ value, e = .loadedCursor (.ok value) → Adopted n url (cursorOf value))
    (hswitch : e.switches x = true → c.model.kvLoadFailed = true)
    (hpage : ∀ gen res, e ≠ .pollResult gen res) : Loading n url d := by
  refine ⟨hidle,?_,h.address_step hwf hstep he hspares hsettings hswitch⟩
  rw [step_model hstep he]
  by_cases hs : ∃ u url', e = .setServerUrl u ∧ normalizeServerUrl x u = some url'
  · obtain ⟨u,url',rfl,hurl⟩ := hs
    rw [(update_switched l.1 c.model hurl).2]
    exact .inl rfl
  · have hno : ∀ u, e = .setServerUrl u → normalizeServerUrl x u = none := fun u hu => by
      by_contra hsome
      obtain ⟨url',hurl⟩ := Option.ne_none_iff_exists'.mp hsome
      exact hs ⟨u,url',hu,hurl⟩
    rw [update_cursor x l.1 hpage hno]
    obtain hsame | ⟨value,rfl,hvalue⟩ := cursorAt_cases (e := e) (m := c.model)
    · rw [hsame]
      exact h.cursor
    · rw [hvalue]
      exact hcursor value rfl

/-- A switch before the client connects. -/
theorem Loading.switched {u url' : String} (hidle : Idle d) (hstep : Client.step x c l = some d)
    (he : c.event? (app x) l.2 = some (.setServerUrl u)) (hurl : normalizeServerUrl x u = some url') :
    Loading n url' d := by
  obtain ⟨haddress,hcursor⟩ := update_switched l.1 c.model hurl
  rw [← step_model hstep he] at haddress hcursor
  exact ⟨hidle,.inl hcursor,.inr (.inl haddress)⟩

/-- An active client has no load of its relay to come. -/
theorem Active.unloaded (h : Active n url c) (hk : Known c) (hpaired : Paired c) {act : Action Event Answer}
    {c₁ : Running} (ht : Core.Takes (app x) c act e c₁) (tag : KvTag) (res : KvData)
    (htag : tag = .loadedSettings ∨ tag = .loadedCursor) : e ≠ tag.event res := by
  rintro rfl
  obtain ⟨t,key,-,hf,hreads⟩ := takes_read hk hpaired htag ht
  simp [readsRelay_eq_false.mp h.unread _ hf] at hreads

/-- What an active client names as its relay and as its cursor changes with a switch and with a page. -/
theorem Active.step (h : Active n url c) (hk : Known c) (hpaired : Paired c)
    (hstep : Client.step x c l = some d) (he : c.event? (app x) l.2 = some e)
    (hspares : e.sparesRelay x c = true) (hno : e.switches x = false)
    (hcursor : ∀ gen res, e = .pollResult gen res →
      Adopted n c.model.settings.serverUrl d.model.cursor) : Active n url d := by
  have hmodel := step_model hstep he
  have hid := invalid_of_spares hspares h.identity
  obtain ⟨c₁,ht,-⟩ := Core.step_event hstep he
  have hsame : d.model.settings = c.model.settings := by
    rw [hmodel]
    refine update_settings hno fun hl => ?_
    cases e <;> simp [Event.load?] at hl
    exact h.unloaded hk hpaired ht .loadedSettings _ (.inl rfl) rfl
  refine ⟨?_,unread_step h.unread hstep he hid,?_,?_⟩
  · rw [hmodel, (counts_loads x l.1 c.model hid).1]
    exact h.identity
  · rw [hsame]
    by_cases hpage : ∃ gen res, e = .pollResult gen res
    · obtain ⟨gen,res,hpage⟩ := hpage
      exact hcursor gen res hpage
    · have hcur : d.model.cursor = e.cursorAt c.model := by
        rw [hmodel]
        refine update_cursor x l.1 (fun gen res hp => hpage ⟨gen,res,hp⟩) fun u hu => ?_
        subst hu
        simpa [Event.switches] using hno
      rw [hcur]
      obtain hkeep | ⟨value,rfl,-⟩ := cursorAt_cases (e := e) (m := c.model)
      · rw [hkeep]
        exact h.cursor
      · exact absurd rfl (h.unloaded hk hpaired ht .loadedCursor _ (.inr rfl))
  · rw [hsame]
    exact h.address.imp_left fun hlatch => hmodel ▸ latched_step hlatch hid

/-- A switch of an active client. -/
theorem Active.switched {u url' : String} (h : Active n url c) (hstep : Client.step x c l = some d)
    (he : c.event? (app x) l.2 = some (.setServerUrl u)) (hurl : normalizeServerUrl x u = some url')
    {stored : String} (haddress : c.model.kvLoadFailed = true ∨ stored = url') : Active n stored d := by
  obtain ⟨hto,hcursor⟩ := update_switched l.1 c.model hurl
  have hmodel := step_model hstep he
  rw [← hmodel] at hto hcursor
  refine ⟨?_,unread_step h.unread hstep he (by simp),.inl hcursor,?_⟩
  · rw [hmodel, (counts_loads x l.1 c.model (by simp)).1]
    exact h.identity
  · obtain hlatch | rfl := haddress
    · exact .inl (hmodel ▸ latched_step hlatch (by simp))
    · exact .inr hto

end

section
variable {x : Crates} {d d' : Phone} {hap : Happening Ambient Event Answer} {l : Label} {e : Event}
  {n : Origins} {k : ℕ}

/-- The address lands in an idle client. -/
theorem Isolated.idle (h : Isolated x k d n) (he : d.core.event? (app x) l.2 = some e)
    (hcore : Client.step x d.core l = some d'.core) (hload : e.load? = some .loadedSettings) : Idle d.core := by
  obtain ⟨c₁,ht,-⟩ := Core.step_event hcore he
  obtain ⟨url,-,hloading | hactive⟩ := h.stored
  · exact hloading.idle
  · cases e <;> simp [Event.load?] at hload
    exact absurd rfl (hactive.unloaded h.known h.reading.paired ht .loadedSettings _ (.inl rfl))

theorem Isolated.addressed_step (h : Isolated x k d n) (hk : 2*k+2 < UInt64.size)
    (he : d.core.event? (app x) l.2 = some e) (hcore : Client.step x d.core l = some d'.core) :
    Addressed d'.core := by
  refine h.addressed.step h.counted hk hcore he fun hload => Idle.silent ?_
  exact (h.idle he hcore hload).step hcore he fun hc => by simp [hc, Event.load?] at hload

theorem Isolated.token_step (h : Isolated x k d n) (hl : d.label kvStore hap = some l)
    (he : d.core.event? (app x) l.2 = some e) (hcore : Client.step x d.core l = some d'.core) :
    ∀ token, d'.core.model.token = some token → (d'.core.model.settings.serverUrl ++ "/auth/verify",token) ∈
      (noteOrigins x d hap d' n).tokens := by
  intro token htoken
  have hmodel := step_model hcore he
  obtain ⟨c₁,ht,-⟩ := Core.step_event hcore he
  rw [hmodel, update_token] at htoken
  cases hgrants : e.grants x d.core.model with
  | some token' =>
    rw [hgrants, Option.some_or, Option.some.injEq] at htoken
    subst htoken
    cases e <;> simp only [Event.grants, reduceCtorEq, Option.ite_none_right_eq_some] at hgrants
    obtain ⟨rfl,hread⟩ := hgrants
    rw [hmodel, update_settings (by simp [Event.switches]) (by simp [Event.load?])]
    exact token_issued h.wf.core h.known h.addressed hl ht hread
  | none =>
    rw [hgrants, Option.none_or, Option.ite_none_left_eq_some] at htoken
    obtain ⟨hkeeps,htoken⟩ := htoken
    simp only [Bool.or_eq_true, not_or, Bool.not_eq_true] at hkeeps
    rw [hmodel, update_settings hkeeps.2 fun hload => ?_]
    · exact noteOrigins_mono.2 (h.token token htoken)
    · simp [(h.idle he hcore hload).token] at htoken

theorem Isolated.store_step (hx : x.Reparses) (h : Isolated x k d n) (hl : d.label kvStore hap = some l)
    (he : d.core.event? (app x) l.2 = some e) (hspares : e.sparesRelay x d.core = true)
    (hstep : Phone.step x d hap = some d') :
    ∃ url, Consistent x (Adopted (noteOrigins x d hap d' n)) d'.disk (d'.awaiting kvStore) url ∧
      (Loading (noteOrigins x d hap d' n) url d'.core ∨ Active (noteOrigins x d hap d' n) url d'.core) := by
  obtain ⟨hcore,hdisk,-⟩ := Device.step_core hl hstep
  obtain ⟨c₁,ht,-⟩ := Core.step_event hcore he
  have hmodel := step_model hcore he
  have hawaiting : d'.awaiting kvStore =
      d.awaiting kvStore ++ storeOps (update x l.1 e d.core.model).2 := h.wf.awaiting_step hl he hstep
  have hmono := (@noteOrigins_mono x d d' hap n).1
  obtain ⟨url,hstored,hstate⟩ := h.stored
  replace hstored := hstored.mono fun _ _ => Adopted.mono hmono
  rw [hdisk, hawaiting]
  have hops := @update_ops x l.1 d.core.model e
  generalize storeOps (update x l.1 e d.core.model).2 = ops at hops
  obtain hloading | hactive := hstate
  · replace hloading := hloading.mono hmono
    have hpage : ∀ gen res, e ≠ .pollResult gen res := by
      rintro gen res rfl
      simpa [Event.isCalm, fromShell, Event.isStartupLoad] using (hloading.idle.calm ht).1
    by_cases hconnects : e = .connect ∧ d.core.model.kvLoadFailed = false ∧ d.core.model.secretKey ≠ none
    · obtain ⟨rfl,hopen,hsecret⟩ := hconnects
      have hunread : readsRelay d.core = false := by simpa [Event.sparesRelay, hopen] using hspares
      cases hops with
      | spared hf => exact ⟨url,hstored.append (.of_spared hf),
          .inr (hloading.connects hcore he hopen hsecret hunread)⟩
      | switched hswitch | paged hswitch => cases hswitch
    have hidle : Idle d'.core := hloading.idle.step hcore he fun hc => by
      by_contra hno
      simp only [not_or, Bool.not_eq_true] at hno
      exact hconnects ⟨hc,hno⟩
    cases hops with
    | spared hf hswitch =>
      refine ⟨url,hstored.append (.of_spared hf),.inl (hloading.step h.wf.core hidle hcore he hspares
        (fun value hv => ?_) (fun value hv => ?_) (fun hs => ?_) hpage)⟩
      · subst hv
        obtain ⟨hquiet,hvalue⟩ := h.reading.landed h.known hl .loadedSettings (.inl rfl) ht
        rw [hvalue value rfl]
        exact (hstored.settled hquiet).1.symm
      · subst hv
        obtain ⟨hquiet,hvalue⟩ := h.reading.landed h.known hl .loadedCursor (.inr rfl) ht
        rw [hvalue value rfl]
        exact (hstored.settled hquiet).2
      · cases e <;> simp [Event.switches] at hs
        obtain ⟨url',hurl⟩ := Option.isSome_iff_exists.mp hs
        exact hswitch _ url' rfl hurl
    | switched hswitch hurl =>
      subst hswitch
      refine ⟨_,hstored.append (.switch (.nil _)),.inl ?_⟩
      rw [addressOf_normalized hx hurl]
      exact .switched hidle hcore he hurl
    | paged hp => exact absurd hp (hpage _ _)
  · have hpage : ∀ res, e = .pollResult d.core.model.pollGen res → Adopted (noteOrigins x d hap d' n)
        d.core.model.settings.serverUrl d'.core.model.cursor := by
      rintro res rfl
      exact adopted_page h.wf.core h.known h.addressed.poll hl ht hactive.cursor
    replace hactive := hactive.mono hmono
    cases hops with
    | spared hf hswitch hsame =>
      refine ⟨url,hstored.append (.of_spared hf),.inr ?_⟩
      by_cases hs : e.switches x = true
      · cases e <;> simp [Event.switches] at hs
        obtain ⟨url',hurl⟩ := Option.isSome_iff_exists.mp hs
        exact hactive.switched hcore he hurl (.inl (hswitch _ url' rfl hurl))
      · refine hactive.step h.known h.reading.paired hcore he hspares (by simpa using hs) fun gen res hp => ?_
        rw [hmodel, hsame gen res hp]
        exact hactive.cursor
    | switched hswitch hurl =>
      subst hswitch
      refine ⟨_,hstored.append (.switch (.nil _)),.inr ?_⟩
      rw [addressOf_normalized hx hurl]
      exact hactive.switched hcore he hurl (.inr rfl)
    | paged hp hgen hopen hf =>
      subst hp hgen
      have hurl := hactive.address.resolve_left (by simp [hopen])
      refine ⟨url,hstored.append ((Shifts.of_spared hf).append (.cursor ?_ (.nil _))),.inr ?_⟩
      · rw [← hmodel, ← hurl]
        exact hpage _ rfl
      · exact hactive.step h.known h.reading.paired hcore he hspares rfl fun _ _ _ => hpage _ rfl

theorem Isolated.reading_step (h : Isolated x k d n) (hl : d.label kvStore hap = some l)
    (he : d.core.event? (app x) l.2 = some e) (hspares : e.sparesRelay x d.core = true)
    (hstep : Phone.step x d hap = some d') : Reading d' := by
  refine h.reading.step h.wf hl he hstep ?_
  obtain ⟨c₁,ht,-⟩ := Core.step_event (Device.step_core hl hstep).1 he
  have hops := @update_ops x l.1 d.core.model e
  generalize storeOps (update x l.1 e d.core.model).2 = ops at hops
  cases hops with
  | spared hf => exact .inr hf
  | switched hswitch hurl hopen =>
    subst hswitch
    exact .inl ⟨by simpa [Event.sparesRelay, hurl, hopen] using hspares,by simp⟩
  | paged hp =>
    subst hp
    obtain ⟨url,-,hloading | hactive⟩ := h.stored
    · exact absurd (hloading.idle.calm ht).1 (by simp [Event.isCalm, fromShell, Event.isStartupLoad])
    · exact .inl ⟨hactive.unread,by simp⟩

/-- What a request carries comes from the model that it leaves behind. -/
theorem belongs_of_from {req : HttpRequest} {tag : HttpTag} {m : Model} (h : req.From tag m)
    (htoken : ∀ token, m.token = some token → (m.settings.serverUrl ++ "/auth/verify",token) ∈ n.tokens)
    (hcursor : Adopted n m.settings.serverUrl m.cursor) : req.Belongs tag n where
  cursor gen htag := by
    refine ⟨m.cursor,h.cursor gen htag,?_⟩
    rw [h.url, htag]
    exact hcursor
  token header hheader := by
    by_cases hauth : tag.Authorized
    · obtain ⟨token,htok,hbearer⟩ := h.token hauth
      obtain rfl := Option.some.inj (hheader.symm.trans hbearer)
      exact ⟨_,token,h.url,rfl,htoken token htok⟩
    · simp [h.unsigned hauth] at hheader

/-- One step of the client. -/
theorem Isolated.act (hx : x.Reparses) (h : Isolated x k d n) (hk : 2*k+2 < UInt64.size)
    (hl : d.label kvStore hap = some l)
    (hspares : ∀ e ∈ d.core.event? (app x) l.2, e.sparesRelay x d.core = true)
    (hstep : Phone.step x d hap = some d') : Isolated x (k+1) d' (noteOrigins x d hap d' n) := by
  obtain ⟨hcore,-,-⟩ := Device.step_core hl hstep
  obtain ⟨⟨e,c₁⟩,htake,-⟩ := Option.map_eq_some_iff.mp hcore
  have he : d.core.event? (app x) l.2 = some e := by simp [Core.event?, htake]
  replace hspares := hspares e he
  have htoken := h.token_step hl he hcore
  have hstored := h.store_step hx hl he hspares hstep
  refine ⟨h.wf.step hstep,h.known.step hcore,h.counted.step hk hcore,h.addressed_step hk he hcore,
    h.reading_step hl he hspares hstep,htoken,fun t req tag hf => ?_,hstored⟩
  obtain ⟨c₂,ht,hprocess⟩ := Core.step_event hcore he
  have hmem := hf
  rw [hprocess] at hmem
  obtain hold | ⟨hnew,-⟩ := Core.mem_process_pending hmem
  · exact (h.pending t req tag (ht.mem_pending hold)).mono noteOrigins_mono.1 noteOrigins_mono.2
  rw [ht.model_eq] at hnew
  have hfrom : req.From tag d'.core.model := step_model hcore he ▸ update_issuing e req tag hnew
  obtain ⟨url,-,hloading | hactive⟩ := hstored
  · exact absurd hf (hloading.idle.silent t req tag)
  · exact belongs_of_from hfrom htoken hactive.cursor

/-- One operation of the store. -/
theorem Isolated.perform {ok : Bool} (h : Isolated x k d n) (hwhole : Undivided x d (.perform ok))
    (hstep : Phone.step x d (.perform ok) = some d') : Isolated x (k+1) d' n := by
  have hreading := h.reading.perform h.wf hstep
  have hwf := h.wf.step hstep
  obtain ⟨p,hp,rfl⟩ := Option.map_eq_some_iff.mp hstep
  refine ⟨hwf,h.known,h.counted.mono (by omega),h.addressed,hreading,h.token,h.pending,?_⟩
  obtain ⟨url,hstored,hstate⟩ := h.stored
  refine ⟨url,?_,hstate⟩
  have hzero : ∀ url, Adopted n url 0 := fun _ => .inl rfl
  cases ok with
  | true =>
    rw [h.wf.awaiting_perform hp _ (kvStore.perform p.2 d.disk).2] at hstored
    exact hstored.perform hzero
  | false =>
    obtain ⟨hreset,hmove⟩ := hwhole
    simp only [resetDue, moveDue, hp, Option.any_some] at hreset hmove
    rw [h.wf.awaiting_perform hp _ kvStore.failed] at hstored
    exact hstored.fail hzero hmove fun hr => by simpa [hr] using hreset

theorem isolated_boot (disk : Disk) {url : String} (hstored : Consistent x (Adopted n) disk [] url) :
    Isolated x k (Device.fresh (app x) disk) n where
  wf := ⟨Core.boot_wf (app x),by simp [Device.fresh]⟩
  known := ⟨by simp [Device.fresh, Core.boot],by simp [Device.fresh, Core.boot]⟩
  counted := (counted_boot x).mono (Nat.zero_le _)
  addressed := by
    have hsilent : ∀ t req tag, (t,.http req tag) ∉ (boot x).pending := by simp [boot, Core.boot]
    exact ⟨homed_of_silent hsilent,homed_of_silent hsilent,.inr (homed_of_silent hsilent)⟩
  reading := reading_fresh x disk
  token := by simp [Device.fresh, Core.boot, app]
  pending := by simp [Device.fresh, Core.boot]
  stored := ⟨url,hstored,.inl ⟨idle_boot x,.inl rfl,.inr (.inr ⟨rfl,.inl rfl⟩)⟩⟩

/-- A client that is killed starts over from what is stored. -/
theorem Isolated.kill (h : Isolated x k d n) (hwhole : Undivided x d .kill) :
    Isolated x (k+1) (Device.fresh (app x) d.disk) n := by
  obtain ⟨url,hstored,-⟩ := h.stored
  refine isolated_boot d.disk (hstored.restart (fun _ => .inl rfl) fun rest hrest => ?_)
  have hhead := Device.awaiting_head? (S := kvStore) d
  rw [hrest, List.head?_cons] at hhead
  obtain ⟨p,hp,hreset⟩ := Option.map_eq_some_iff.mp hhead.symm
  have hnone : resetDue d = false := hwhole
  simpa [resetDue, hp, hreset, resetCursor, Effect.isReset] using hnone

end

/-- The result of a request to another relay does nothing. -/
theorem Isolated.foreign {x : Crates} {k : ℕ} {d d' : Phone} {n : Origins} (h : Isolated x k d n)
    {amb : Ambient} {t : ℕ} {r : Answer} {req : HttpRequest} {tag : HttpTag}
    (hf : (t,.http req tag) ∈ d.core.pending) (hurl : req.url ≠ d.core.model.settings.serverUrl ++ tag.path)
    (hstep : Phone.step x d (.act amb (.answer t r)) = some d') : d'.core.model = d.core.model := by
  obtain ⟨l,hl,-⟩ := Option.bind_eq_some_iff.mp hstep
  obtain ⟨hcore,-,-⟩ := Device.step_core hl hstep
  simp only [Device.label, Option.ite_none_right_eq_some, Option.some.injEq] at hl
  obtain ⟨-,rfl⟩ := hl
  obtain ⟨e,c₁,ht,hprocess⟩ := Core.step_cases hcore
  rw [hprocess, process_model ht]
  generalize hact : (amb,Action.answer t r).2 = act at ht
  cases ht with
  | drain | shell => cases hact
  | @answer t' r' f _ hq hf' ha =>
    obtain ⟨rfl,rfl⟩ := Action.answer.inj hact
    obtain rfl := Core.pending_unique h.wf.core hf hf'
    have hauth : Homed authRound d.core := h.addressed.auth.resolve_left (by simp [hq])
    obtain ⟨hpoll,hsend,hchallenge,hverify,-⟩ := update_stale x amb d.core.model
    cases r with
    | kv | elapsed => simp [app, answer] at ha
    | http res =>
      obtain rfl := Option.some.inj ha
      cases tag with
      | challengeResult gen =>
        exact congrArg Prod.fst (hchallenge gen _ fun hgen => hurl (hauth t req _ hf (hgen ▸ rfl)))
      | verifyResult gen =>
        exact congrArg Prod.fst (hverify gen _ fun hgen => hurl (hauth t req _ hf (hgen ▸ rfl)))
      | pollResult gen =>
        exact congrArg Prod.fst (hpoll gen _ fun hgen => hurl (h.addressed.poll t req _ hf (hgen ▸ rfl)))
      | sendResult gen =>
        exact congrArg Prod.fst (hsend gen _ fun hgen => hurl (h.addressed.send t req _ hf (hgen ▸ rfl)))

/-- What the steps of a run that meet the condition preserve. -/
theorem isolated_run {x : Crates} (hx : x.Reparses) {hs : List (Happening Ambient Event Answer)} {d : Phone}
    {n : Origins} (hwhole : Lts.Along (Phone.step x) (Undivided x) (freshInstall x) hs)
    (hlen : 2*hs.length < UInt64.size)
    (hrun : Lts.run (Lts.watch (Phone.step x) (noteOrigins x)) (freshInstall x,⟨[],[]⟩) hs = some (d,n)) :
    Isolated x hs.length d n := by
  refine @Lts.run_invariant_past _ _ (Lts.watch (Phone.step x) (noteOrigins x)) (fun s h => Undivided x s.1 h)
    (fun ls s => 2*ls.length < UInt64.size → Isolated x ls.length s.1 s.2) ?_ _ (d,n) [] hs (fun _ => ?_)
    (Lts.Along.watch (Phone.step x) hwhole) hrun hlen
  · rintro ls ⟨d,n⟩ hap ⟨d',n'⟩ hd hw hwatch hlen
    obtain ⟨hstep,hnote⟩ := Lts.watch_eq_some _ hwatch
    rw [List.length_append, List.length_singleton] at hlen ⊢
    replace hd := hd (by omega)
    simp only at hd hw hstep hnote ⊢
    subst hnote
    cases hap with
    | act amb action | deliver amb t =>
      obtain ⟨l,hl,-⟩ := Option.bind_eq_some_iff.mp hstep
      exact hd.act hx (by omega) hl (hw l hl) hstep
    | perform ok => exact hd.perform hw hstep
    | kill =>
      obtain rfl := Option.some.inj hstep
      exact hd.kill hw
  · exact isolated_boot _ (.inl ⟨.inl rfl,.nil _⟩)

/-- Relay isolation: as long as a switch gets to the store as a whole and the relay is left alone while it
is being read, every poll carries 0 or a cursor from a page of the relay that it goes to, every token goes
to the relay that issued it, and the result of a request to another relay does nothing. -/
theorem relays_isolated {x : Crates} (hx : x.Reparses) {hs : List (Happening Ambient Event Answer)} {d : Phone}
    {n : Origins} (hwhole : Lts.Along (Phone.step x) (Undivided x) (freshInstall x) hs)
    (hlen : 2*hs.length < UInt64.size)
    (hrun : Lts.run (Lts.watch (Phone.step x) (noteOrigins x)) (freshInstall x,⟨[],[]⟩) hs = some (d,n)) :
    (∀ t req gen, (t,.http req (.pollResult gen)) ∈ d.core.pending →
      ∃ cursor, req.body = .pollReq cursor ∧ (cursor = 0 ∨ (req.url,cursor) ∈ n.cursors)) ∧
    (∀ t req tag header, (t,.http req tag) ∈ d.core.pending → req.authorization = some header →
      ∃ url token, req.url = url ++ tag.path ∧ header = bearer token ∧
        (url ++ "/auth/verify",token) ∈ n.tokens) ∧
    ∀ t req tag amb r d', (t,.http req tag) ∈ d.core.pending →
      req.url ≠ d.core.model.settings.serverUrl ++ tag.path →
      Phone.step x d (.act amb (.answer t r)) = some d' → d'.core.model = d.core.model := by
  have hisolated := isolated_run hx hwhole hlen hrun
  refine ⟨fun t req gen hf => ?_,fun t req tag header hf hheader => ?_,?_⟩
  · exact (hisolated.pending t req _ hf).cursor gen rfl
  · exact (hisolated.pending t req tag hf).token header hheader
  · intro t req tag amb r d' hf hurl hstep
    exact hisolated.foreign hf hurl hstep

/-- The identity, with the six reads performed. -/
def sampleOpening : List (Happening Ambient Event Answer) :=
  sampleActs [.shell (.identityLoaded sampleSecret)] ++ performs 6

def sampleLands (ts : List ℕ) : List (Happening Ambient Event Answer) := ts.map (.deliver .sample)

/-- The legs of an auth attempt, and the first poll. -/
def sampleLogin (t : ℕ) : List (Happening Ambient Event Answer) :=
  sampleActs [.answer t (sampleOk challengeText),.answer (t+2) (sampleOk tokenText),.drain,.drain]

/-- A launch up to the first poll. -/
def sampleSession : List (Happening Ambient Event Answer) :=
  sampleOpening ++ sampleLands (List.range 6) ++ sampleActs [.drain,.drain] ++ sampleLogin 6

/-- A page that moves the cursor to 5, which is written. -/
def samplePoll (t : ℕ) : List (Happening Ambient Event Answer) :=
  sampleActs [.answer t (sampleOk junkPageText),.drain] ++ performs 1

/-- A switch up to the auth attempt with the new relay. -/
def sampleMove : List (Happening Ambient Event Answer) :=
  sampleActs [.shell (.setServerUrl "http://localhost:9090"),.drain,.drain]

/-- The effect is a poll of a relay. -/
def Effect.polls (url : String) (cursor : ℤ) : Effect → Bool
  | .http req (.pollResult _) => req.url = url && req.body = .pollReq cursor
  | _ => false

theorem exists_of_polls {url : String} {cursor : ℤ} {t : ℕ} {f : Effect} (h : f.polls url cursor = true)
    {ps : List (ℕ × Effect)} (hf : (t,f) ∈ ps) :
    ∃ req gen, (t,.http req (.pollResult gen)) ∈ ps ∧ req.url = url ∧ req.body = .pollReq cursor := by
  rcases f with ⟨req,_ | _ | gen | _⟩ | _ | _ <;> simp [Effect.polls] at h
  exact ⟨req,gen,hf,h⟩

/-- A page, a second launch, and a switch while a poll is out. -/
def sampleSwitched : List (Happening Ambient Event Answer) :=
  sampleSession ++ samplePoll 9 ++ [.kill] ++ sampleSession ++ sampleMove ++ sampleLogin 13 ++ performs 2

/-- The poll of the new relay carries 0, and the page that the old one answers with by then is ignored. -/
theorem relays_isolated_switched : ∃ d n req gen late gen' d',
    Lts.run (Lts.watch (Phone.step .sample) (noteOrigins .sample)) (freshInstall .sample,⟨[],[]⟩)
      sampleSwitched = some (d,n) ∧
    n.cursors = [("http://localhost:8080/poll",5)] ∧
    (16,.http req (.pollResult gen)) ∈ d.core.pending ∧ req.url = "http://localhost:9090/poll" ∧
    (∃ cursor, req.body = .pollReq cursor ∧ (cursor = 0 ∨ (req.url,cursor) ∈ n.cursors)) ∧
    (9,.http late (.pollResult gen')) ∈ d.core.pending ∧ late.body = .pollReq 5 ∧
    Phone.step .sample d (.act .sample (.answer 9 (sampleOk junkPageText))) = some d' ∧
    d'.core.model = d.core.model := by
  have hrun : (Lts.run (Lts.watch (Phone.step .sample) (noteOrigins .sample)) (freshInstall .sample,⟨[],[]⟩)
      sampleSwitched).any (fun s => s.2.cursors = [("http://localhost:8080/poll",5)] &&
        s.1.core.model.settings.serverUrl = "http://localhost:9090" &&
        s.1.core.pending.any (fun p => p.1 = 16 && p.2.polls "http://localhost:9090/poll" 0) &&
        s.1.core.pending.any (fun p => p.1 = 9 && p.2.polls "http://localhost:8080/poll" 5) &&
        (Phone.step .sample s.1 (.act .sample (.answer 9 (sampleOk junkPageText)))).isSome) = true := by
    decide +kernel
  have hwhole : Lts.Along (Phone.step .sample) (Undivided .sample) (freshInstall .sample) sampleSwitched := by
    decide +kernel
  simp only [Option.any_eq_true, Bool.and_eq_true, decide_eq_true_eq, List.any_eq_true,
    Option.isSome_iff_exists] at hrun
  obtain ⟨⟨d,n⟩,hd,⟨⟨⟨hcursors,haddress⟩,⟨t,f⟩,hp,rfl,hpolls⟩,⟨t',f'⟩,hp',rfl,hpolls'⟩,d',hd'⟩ := hrun
  obtain ⟨req,gen,hreq,hurl,-⟩ := exists_of_polls hpolls hp
  obtain ⟨late,gen',hlate,hurl',hbody⟩ := exists_of_polls hpolls' hp'
  obtain ⟨hpoll,-,hforeign⟩ := relays_isolated sample_reparses hwhole (by decide) hd
  refine ⟨d,n,req,gen,late,gen',d',hd,hcursors,hreq,hurl,hpoll _ _ _ hreq,hlate,hbody,hd',?_⟩
  refine hforeign 9 late _ .sample _ d' hlate ?_ hd'
  simp only at haddress
  rw [haddress, hurl']
  simp [HttpTag.path]

/-- After a run, a poll carries a cursor that is not 0 and not from a page of the relay that it goes to. -/
def Crosses (hs : List (Happening Ambient Event Answer)) : Prop :=
  ∃ d n t req gen,
    Lts.run (Lts.watch (Phone.step .sample) (noteOrigins .sample)) (freshInstall .sample,⟨[],[]⟩) hs = some (d,n) ∧
    (t,.http req (.pollResult gen)) ∈ d.core.pending ∧
    ¬ ∃ cursor, req.body = .pollReq cursor ∧ (cursor = 0 ∨ (req.url,cursor) ∈ n.cursors)

theorem crosses_of_run {hs : List (Happening Ambient Event Answer)} {url : String} {cursor : ℤ} (hzero : cursor ≠ 0)
    (hrun : (Lts.run (Lts.watch (Phone.step .sample) (noteOrigins .sample)) (freshInstall .sample,⟨[],[]⟩) hs).any
      (fun s => (url,cursor) ∉ s.2.cursors && s.1.core.pending.any fun p => p.2.polls url cursor) = true) :
    Crosses hs := by
  simp only [Option.any_eq_true, Bool.and_eq_true, decide_eq_true_eq, List.any_eq_true] at hrun
  obtain ⟨⟨d,n⟩,hd,hforeign,⟨t,f⟩,hp,hpolls⟩ := hrun
  obtain ⟨req,gen,hreq,rfl,hbody⟩ := exists_of_polls hpolls hp
  refine ⟨d,n,t,req,gen,hd,hreq,?_⟩
  rintro ⟨cursor',hcursor,h⟩
  obtain rfl := RequestBody.pollReq.inj (hbody.symm.trans hcursor)
  exact h.elim hzero hforeign

/-- A kill between the two writes of a switch. -/
def sampleCut : List (Happening Ambient Event Answer) :=
  sampleSession ++ samplePoll 9 ++ sampleMove ++ performs 1 ++ [.kill] ++ sampleSession

/-- A cursor that lands after a switch. -/
def sampleLate : List (Happening Ambient Event Answer) :=
  sampleSession ++ samplePoll 9 ++ [.kill] ++ sampleOpening ++ sampleLands [0,1,2] ++ sampleMove ++
    sampleLands [3] ++ sampleLogin 8

/-- A connection before the address has landed, which is to the relay of the defaults. -/
def sampleEarly : List (Happening Ambient Event Answer) :=
  sampleSession ++ sampleMove ++ sampleLogin 13 ++ performs 2 ++ samplePoll 16 ++ [.kill] ++
    sampleOpening ++ sampleLands [3] ++ sampleActs [.shell .connect,.drain] ++ sampleLogin 6

/-- After each of these, the client polls a relay with the cursor of another one. -/
theorem cursor_crosses_relays : Crosses sampleCut ∧ Crosses sampleLate ∧ Crosses sampleEarly := by
  refine ⟨@crosses_of_run _ "http://localhost:9090/poll" 5 (by decide) ?_,
    @crosses_of_run _ "http://localhost:9090/poll" 5 (by decide) ?_,
    @crosses_of_run _ "http://localhost:8080/poll" 5 (by decide) ?_⟩
  all_goals decide +kernel

end Skrepka.Client
