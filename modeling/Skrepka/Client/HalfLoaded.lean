import Skrepka.Client.Asks
import Skrepka.Client.Latch

/-! Startup: six loads fill six fields in any order while the interface is already usable. What
the user does then is safe as long as the code refuses it, or has nothing left to load there. -/
namespace Skrepka.Client
open Rust Mvu

/-- What the user asks for, unless the code refuses it. -/
def Event.accepted (x : Crates) (m : Model) : Event → Bool
  | .sendText => m.activePeer.any fun peer => !m.isBlocked peer && trim m.compose ≠ "" &&
      len (trim m.compose) ≤ Protocol.maxBodyLen &&
      (m.contacts.contains peer || m.contacts.size < maxContacts)
  | .addContact input nickname => len nickname ≤ Protocol.maxDisplayNameLen &&
      (Phonemic.tryParsePubkey x.verifyingKey input).any (fun hex => hex ≠ m.myPubkey)
  -- With writes refused, blocking somebody unknown changes nothing.
  | .setBlocked peer blocked => !m.kvLoadFailed || m.contacts.contains peer ||
      (blocked && m.outbox.any (fun i => i.recipient = peer))
  | .deleteContact _ => true
  | .saveProfile displayName bio photo => displayName.length ≤ Protocol.maxDisplayNameLen &&
      bio.length ≤ Protocol.maxBioLen && !photo.any (fun p => len p > Protocol.maxPhotoLen) &&
      !photo.any (fun p => ¬ x.base64Decodes p)
  | .setServerUrl url => (normalizeServerUrl x url).isSome
  | _ => false

/-- The actions of the user that the code may refuse. -/
def Event.isUser : Event → Bool
  | .sendText | .addContact _ _ | .setBlocked _ _ | .deleteContact _ | .saveProfile _ _ _
  | .setServerUrl _ => true
  | _ => false

/-- Before a write that is refused nothing is asked for. -/
theorem guarded_and_latched (ops : Model → List KvOp) (g : Handler) {m : Model}
    (hk : m.kvLoadFailed = true) : (guarded ops).and g m = g m.refused := by
  refine Prod.ext ?_ ?_ <;> simp [guarded_snd, hk]

theorem refused_latched {m : Model} (hk : m.kvLoadFailed = true) :
    m.refused.kvLoadFailed = true := by
  rw [m.refused_eq]
  exact hk

theorem setBlocked_unknown {peer : String} {blocked : Bool} {m : Model}
    (hk : m.kvLoadFailed = true) (hc : m.contacts.contains peer = false)
    (ho : (blocked && m.outbox.any (fun i => i.recipient = peer)) = false) :
    ∃ inFlight error, setBlocked peer blocked m = ({ m with inFlight, error },[.render]) := by
  have hpeer : m.contacts[peer]? = none :=
    Std.TreeMap.getElem?_eq_none_of_contains_eq_false hc
  have hcontacts : blockContact peer blocked m.contacts = m.contacts := by
    simp [blockContact, hpeer]
  simp only [setBlocked, hcontacts]
  cases blocked with
  | false =>
    simp only [Bool.false_eq_true, if_false, persistContacts]
    rw [guarded_and_latched _ _ (by exact hk), Model.refused_eq]
    exact ⟨_,_,rfl⟩
  | true =>
    have hitems : m.outbox.filter (fun i => i.recipient ≠ peer) = m.outbox := by
      refine List.filter_eq_self.mpr fun i hi => ?_
      simp only [Bool.true_and, List.any_eq_false, decide_eq_true_eq] at ho
      simpa using ho i hi
    obtain ⟨inFlight,hr⟩ := removeItems_eq { m with error := none } peer
    simp only [hitems] at hr
    simp only [if_true, hr, persistContacts, persistOutbox]
    rw [guarded_and_latched _ _ (by exact hk),
      guarded_and_latched _ _ (refused_latched (by exact hk)), Model.refused_refused,
      Model.refused_eq]
    exact ⟨_,_,rfl⟩

/-- A refused action shows why, and that is all. -/
theorem update_refused {x : Crates} (amb : Ambient) {e : Event} {m : Model}
    (hu : e.isUser = true) (h : e.accepted x m = false) :
    ∃ inFlight error, update x amb e m = ({ m with inFlight, error },[.render]) := by
  cases e with
  | sendText =>
    simp only [update, sendText]
    split
    · exact ⟨_,_,rfl⟩
    rename_i peer ha
    simp only [Event.accepted, ha, Option.any_some] at h
    split
    · exact ⟨_,_,rfl⟩
    split
    · exact ⟨_,_,rfl⟩
    split
    · exact ⟨_,_,rfl⟩
    split
    · exact ⟨_,_,rfl⟩
    · simp_all [Model.isBlocked]
  | addContact input nickname =>
    simp only [update, addContact]
    split
    · exact ⟨_,_,rfl⟩
    split
    · exact ⟨_,_,rfl⟩
    split
    · exact ⟨_,_,rfl⟩
    · simp_all [Event.accepted]
  | setBlocked peer blocked =>
    simp only [Event.accepted, Bool.or_eq_false_iff, Bool.not_eq_false'] at h
    exact setBlocked_unknown h.1.1 h.1.2 h.2
  | deleteContact peer => simp [Event.accepted] at h
  | saveProfile displayName bio photo =>
    simp only [update, saveProfile]
    split
    · exact ⟨_,_,rfl⟩
    split
    · exact ⟨_,_,rfl⟩
    split
    · exact ⟨_,_,rfl⟩
    split
    · exact ⟨_,_,rfl⟩
    · simp_all [Event.accepted]
  | setServerUrl url =>
    simp only [Event.accepted, Option.isSome_eq_false_iff, Option.isNone_iff_eq_none] at h
    simp only [update, setServerUrl, h]
    exact ⟨_,_,rfl⟩
  | _ => cases hu

/-- The read whose result fills a field. -/
def Field.load? : Field → Option KvTag
  | .settings => some .loadedSettings
  | .profile => some .loadedProfile
  | .contacts => some .loadedContacts
  | .cursor => some .loadedCursor
  | .outbox => some .loadedOutbox
  | .seenIds => some .loadedSeenIds
  | _ => none

/-- The startup read that an event is the result of. -/
def Event.load? : Event → Option KvTag
  | .loadedSettings _ => some .loadedSettings
  | .loadedProfile _ => some .loadedProfile
  | .loadedContacts _ => some .loadedContacts
  | .loadedCursor _ => some .loadedCursor
  | .loadedOutbox _ => some .loadedOutbox
  | .loadedSeenIds _ => some .loadedSeenIds
  | _ => none

/-- The startup read that an effect is. -/
def Effect.startup? : Effect → Option KvTag
  | .kv (.get _) (.loadedMessages _) | .kv (.get _) .saved | .kv (.get _) .savedCursor => none
  | .kv (.get _) tag => some tag
  | _ => none

/-- The startup reads still unanswered. -/
def loadsOut (c : Running) : List KvTag := c.pending.filterMap (fun p => p.2.startup?)

/-- What fills a field has yet to be read. -/
def due (c : Running) (f : Field) : Bool :=
  f.load?.any fun tag => c.model.secretKey.isNone || tag ∈ loadsOut c

/-- There is no identity yet, or not all of its loads have landed. -/
def Model.unloaded (m : Model) : Bool := m.secretKey.isNone || 0 < m.loadsPending

/-- An event does not act on a half-loaded model: it is no second identity, it does not connect
before the last load, and an action of the user is refused, or touches nothing that is due and
finds all writes refused. -/
def waits (x : Crates) (c : Running) : Event → Bool
  | .identityLoaded sk => !(Crypto.fromSecretBytes x sk).isOk || c.model.secretKey.isNone
  | .connect => c.model.loadsPending = 0 || c.model.kvLoadFailed
  | e => !e.accepted x c.model ||
    ((c.model.loadsPending = 0 || (c.model.kvLoadFailed && !e.isDelete)) &&
      e.writes.all (fun f => !due c f))

/-- A step delivers an event that waits for the loads. -/
def WaitsFor (x : Crates) (c : Running) (l : Label) : Prop :=
  (c.event? (app x) l.2).all (waits x c) = true

instance (x : Crates) (c : Running) (l : Label) : Decidable (WaitsFor x c l) :=
  inferInstanceAs (Decidable (_ = _))

theorem Event.load?_isSome (e : Event) : e.load?.isSome = e.isStartupLoad := by cases e <;> rfl

/-- Only a read in flight delivers a load. -/
theorem takes_loads {x : Crates} {c d : Running} {act : Action Event Answer} {e : Event}
    (hc : c.Wf) (hk : Known c) (ht : Core.Takes (app x) c act e d) :
    (e.load? = none ∧ loadsOut d = loadsOut c) ∨
    ∃ tag ps qs, e.load? = some tag ∧ loadsOut c = ps ++ tag :: qs ∧ loadsOut d = ps ++ qs := by
  cases ht with
  | drain hq =>
    refine .inl ⟨?_,rfl⟩
    have := hk.queue e (hq ▸ List.mem_cons_self)
    cases e <;> simp_all [ask, Event.load?]
  | shell _ hs =>
    refine .inl ⟨?_,rfl⟩
    change fromShell e = true at hs
    cases e <;> simp_all [fromShell, Event.load?]
  | @answer t r f _ _ hf he =>
    obtain ⟨ps,qs,hp,hs⟩ := Core.settle_split hc hf
    have hkind := hk.pending _ hf
    have hload : e.load? = f.startup? := by
      change answer x f r = some e at he
      rcases f with ⟨req,tag⟩ | ⟨op,tag⟩ | ⟨ms,tag⟩ <;> cases r <;>
        simp only [answer, Option.some.injEq, reduceCtorEq] at he <;> subst he
      · cases tag <;> rfl
      · cases op <;> cases tag <;> first | rfl | exact absurd rfl hkind
      · cases tag <;> rfl
    simp only [loadsOut, hp, hs, List.filterMap_append, List.filterMap_cons, hload]
    cases f.startup? with
    | none => exact .inl ⟨rfl,rfl⟩
    | some tag => exact .inr ⟨tag,_,_,rfl,rfl,rfl⟩

theorem loadsOut_process (x : Crates) (amb : Ambient) (e : Event) (c : Running) :
    loadsOut (c.process (app x) amb e) =
      loadsOut c ++ (Cmd.requests (update x amb e c.model).2).filterMap Effect.startup? := by
  have h := congrArg (List.filterMap Effect.startup?)
    (number_map_snd c.next (Cmd.requests (update x amb e c.model).2))
  rw [List.filterMap_map] at h
  simp only [loadsOut, Core.process, List.filterMap_append]
  exact congrArg _ h

/-- Only an identity asks for startup reads. -/
theorem startups_eq_nil (x : Crates) (amb : Ambient) {e : Event} (m : Model)
    (he : ∀ sk, e = .identityLoaded sk → (Crypto.fromSecretBytes x sk).isOk = false) :
    (Cmd.requests (update x amb e m).2).filterMap Effect.startup? = [] := by
  have hno : Asks (e.asks.erase .startup) (update x amb e m).2 := by
    cases e with
    | identityLoaded sk =>
      have hsk := he sk rfl
      simp only [update, identityLoaded]
      cases hid : Crypto.fromSecretBytes x sk with
      | error => simp [ask, Event.asks]
      | ok id => simp [hid, Except.isOk, Except.toBool] at hsk
    | _ => exact update_asks x amb _ m
  refine List.filterMap_eq_nil_iff.mpr fun f hf => ?_
  have hf := hno.request hf
  by_contra h
  have hstartup : ask (.request f) = .startup := by
    rcases f with _ | ⟨op,tag⟩ | _
    · exact absurd rfl h
    · cases op <;> cases tag <;> first | rfl | exact absurd rfl h
    · exact absurd rfl h
  rw [hstartup] at hf
  cases e <;> simp [Event.asks] at hf

/-- While the client is unloaded, what is outstanding are reads, and what is queued is harmless;
a field that is due is as it was at launch. -/
structure LoadsFirst (c : Running) : Prop where
  nodup : (loadsOut c).Nodup
  length : (loadsOut c).length = c.model.loadsPending
  unset : c.model.secretKey = none → c.model.loadsPending = 0
  fresh : ∀ f, due c f = true → f.get c.model = f.get {}
  queue : c.model.unloaded = true → ∀ e ∈ c.queue,
    c.model.kvLoadFailed = true ∧ ask (.event e) ∈ [.connect,.startFlush]
  pending : c.model.unloaded = true → ∀ p ∈ c.pending, ask (.request p.2) ∈ [.startup,.history]

/-- Commands that are no harm to a half-loaded model. -/
def Mild (r : Model × Commands) : Prop :=
  ∀ k ∈ r.2, ask k ∈ [.startup,.history,.render] ∨
    ask k ∈ [.connect,.startFlush] ∧ (r.1.kvLoadFailed = true ∨ r.1.unloaded = false)

theorem Asks.mild {r : Model × Commands} {as : List Ask} (h : Asks as r.2)
    (hs : as ⊆ [.startup,.history,.render]) : Mild r := fun k hk => .inl (hs (h k hk))

theorem Mild.request {r : Model × Commands} (h : Mild r) {f : Effect}
    (hf : f ∈ Cmd.requests r.2) : ask (.request f) ∈ [.startup,.history] := by
  obtain ⟨k,hk,hf⟩ := List.mem_filterMap.mp hf
  cases k with
  | request g =>
    cases hf
    rcases h _ hk with h | ⟨h,-⟩
    all_goals
      rcases f with ⟨_,tag⟩ | ⟨op,tag⟩ | _
      · cases tag <;> simp [ask] at h
      · cases op <;> cases tag <;> simp [ask] at h ⊢
      · simp [ask] at h
  | event | render => simp at hf

theorem connect_mild {m : Model} (h : m.kvLoadFailed = true ∨ m.secretKey = none) :
    Mild (connect m) := by
  suffices h : Asks [.render] (connect m).2 from h.mild (by simp)
  simp only [connect, Model.abandonAuth]
  rcases h with h | h
  · simp [h, ask]
  · by_cases hk : m.kvLoadFailed = true <;> simp [h, hk, ask]

/-- With a read failed, an action of the user writes nothing. -/
theorem user_mild (x : Crates) (amb : Ambient) {e : Event} {m : Model} (hu : e.isUser = true)
    (hk : m.kvLoadFailed = true) (hd : e.isDelete = false) : Mild (update x amb e m) := by
  obtain ⟨hf,hr⟩ := update_latched x amb (e := e) hk fun sk h => by simp [h, Event.isUser] at hu
  have huser : e.asks ⊆ [.write,.startFlush,.connect,.render] := by
    cases e <;> simp_all [Event.isUser, Event.asks]
  intro k hk
  have hread := hr hd k hk
  have hwrite : ask k ≠ .write := by
    intro hw
    rcases k with k | ⟨⟨_,tag⟩ | ⟨op,tag⟩ | _⟩ | _
    · cases k <;> simp [ask] at hw
    · cases tag <;> simp [ask] at hw
    · cases op <;> cases tag <;> simp_all [ask, isRead, KvOp.isGet]
    · simp [ask] at hw
    · simp [ask] at hw
  have hask := huser (update_asks x amb e m k hk)
  simp only [List.mem_cons, List.not_mem_nil, or_false] at hask
  rcases hask with h | h | h | h
  · exact absurd h hwrite
  · exact .inr ⟨by simp [h],.inl hf⟩
  · exact .inr ⟨by simp [h],.inl hf⟩
  · exact .inl (by simp [h])

theorem load_mild (x : Crates) (amb : Ambient) {e : Event} {m : Model}
    (he : e.isStartupLoad = true) (hs : m.secretKey.isSome = true) : Mild (update x amb e m) := by
  have hspec := startupLoad_spec x amb he m
  have hload : e.asks ⊆ [.connect,.history,.render] := by
    cases e <;> simp_all [Event.isStartupLoad, Event.asks]
  intro k hk
  have hask := hload (update_asks x amb e m k hk)
  simp only [List.mem_cons, List.not_mem_nil, or_false] at hask
  rcases hask with h | h | h
  · have hk' : k = .event .connect := by
      rcases k with k | ⟨⟨_,tag⟩ | ⟨op,tag⟩ | _⟩ | _
      · cases k <;> simp [ask] at h ⊢
      · cases tag <;> simp [ask] at h
      · cases op <;> cases tag <;> simp [ask] at h
      · simp [ask] at h
      · simp [ask] at h
    have hp : (update x amb e m).1.loadsPending = 0 := by
      rw [hspec.loadsPending, hspec.connects (hk' ▸ hk)]
    refine .inr ⟨by simp [h],.inr ?_⟩
    rw [← hspec.secretKey] at hs
    simp [Model.unloaded, hp, Option.isNone_eq_false_iff, hs]
  · exact .inl (by simp [h])
  · exact .inl (by simp [h])

/-- Before the identity, every action of the user touches something that is due. -/
theorem writes_due {c : Running} {e : Event} (hu : e.isUser = true)
    (hs : c.model.secretKey = none) : e.writes.all (fun f => !due c f) = false := by
  have h : ∀ f : Field, f.load?.isSome = true → f ∈ e.writes →
      e.writes.all (fun f => !due c f) = false := by
    intro f hf hm
    obtain ⟨tag,htag⟩ := Option.isSome_iff_exists.mp hf
    rw [List.all_eq_false]
    exact ⟨f,hm,by simp [due, htag, hs]⟩
  cases e with
  | sendText | addContact | setBlocked | deleteContact =>
    exact h .contacts rfl (by simp [Event.writes])
  | saveProfile => exact h .profile rfl (by simp [Event.writes])
  | setServerUrl => exact h .settings rfl (by simp [Event.writes])
  | _ => cases hu

/-- What reaches an unloaded client. -/
inductive Early (c : Running) : Event → Prop
  | queued {e} (hf : c.model.kvLoadFailed = true) (he : e = .connect ∨ e = .startFlush) : Early c e
  | shell {e} (hs : fromShell e = true) : Early c e
  | load {e} (hl : e.isStartupLoad = true) (hs : c.model.secretKey.isSome = true) : Early c e
  | history {peer res} : Early c (.loadedMessages peer res)

theorem LoadsFirst.early {x : Crates} {c d : Running} {act : Action Event Answer} {e : Event}
    (h : LoadsFirst c) (hwf : c.Wf) (hk : Known c) (hu : c.model.unloaded = true)
    (ht : Core.Takes (app x) c act e d) : Early c e := by
  have hloads := takes_loads hwf hk ht
  cases ht with
  | drain hq =>
    obtain ⟨hf,he⟩ := h.queue hu e (hq ▸ List.mem_cons_self)
    refine .queued hf ?_
    cases e <;> simp [ask] at he ⊢
  | shell _ hs => exact .shell hs
  | @answer t r f _ _ hf he =>
    have hkind := h.pending hu _ hf
    have hfrom : e.isStartupLoad = true ∨ ∃ peer res, e = .loadedMessages peer res := by
      change answer x f r = some e at he
      rcases f with ⟨req,tag⟩ | ⟨op,tag⟩ | ⟨ms,tag⟩ <;> cases r <;>
        simp only [answer, Option.some.injEq, reduceCtorEq] at he <;> subst he
      · cases tag <;> simp [ask] at hkind
      · cases op <;> cases tag <;> simp [ask] at hkind <;> simp [KvTag.event, Event.isStartupLoad]
      · cases tag <;> simp [ask] at hkind
    rcases hfrom with hload | ⟨peer,res,rfl⟩
    · refine .load hload ?_
      rw [← Event.load?_isSome] at hload
      rcases hloads with ⟨hnone,-⟩ | ⟨tag,ps,qs,-,hout,-⟩
      · simp [hnone] at hload
      · by_contra hs
        have hlength := h.length
        rw [h.unset (by simpa using hs), hout] at hlength
        simp at hlength
    · exact .history

/-- An accepted action that waits for the loads. -/
theorem waits_accepted {x : Crates} {c : Running} {e : Event} (hu : e.isUser = true)
    (hacc : e.accepted x c.model = true) (hw : waits x c e = true) :
    (c.model.loadsPending = 0 ∨ c.model.kvLoadFailed = true ∧ e.isDelete = false) ∧
      e.writes.all (fun f => !due c f) = true := by
  cases e <;> first | (simp [Event.isUser] at hu; done) | simpa [waits, hacc] using hw

theorem startFlush_latched {x : Crates} {amb : Ambient} {m : Model} (hf : m.kvLoadFailed = true) :
    flushNext x amb m = (m,[]) := by
  simp only [flushNext, hf]
  split <;> rfl

/-- Nothing that waits for the loads does harm to an unloaded client. -/
theorem Early.mild {x : Crates} {amb : Ambient} {c : Running} {e : Event} (h : Early c e)
    (hu : c.model.unloaded = true) (hw : waits x c e = true) : Mild (update x amb e c.model) := by
  cases h with
  | queued hf he =>
    rcases he with rfl | rfl
    · exact connect_mild (.inl hf)
    · intro k hk
      simp [update, startFlush_latched hf] at hk
  | shell hs =>
    by_cases huser : e.isUser = true
    · cases hacc : e.accepted x c.model with
      | false =>
        obtain ⟨_,_,h⟩ := update_refused amb huser hacc
        rw [h]
        have hrender : Asks [.render] [.render] := by simp [ask]
        exact hrender.mild (by simp)
      | true =>
        obtain ⟨hp | ⟨hf,hd⟩,hdue⟩ := waits_accepted huser hacc hw
        · have hnone : c.model.secretKey = none := by
            simpa [Model.unloaded, hp] using hu
          simp [writes_due huser hnone] at hdue
        · exact user_mild x amb huser hf hd
    · cases e with
      | connect =>
        refine connect_mild ?_
        simp only [waits, Bool.or_eq_true, decide_eq_true_eq] at hw
        rcases hw with hp | hf
        · exact .inr (by simpa [Model.unloaded, hp] using hu)
        · exact .inl hf
      | identityLoaded | showConversations | showSettings | showAddContact | showEditProfile
      | openChat | back | composeChanged =>
        exact (update_asks x amb _ c.model).mild (by simp [Event.asks])
      | sendText | addContact | setBlocked | deleteContact | saveProfile | setServerUrl =>
        exact absurd rfl huser
      | _ => simp [fromShell] at hs
  | load hl hs => exact load_mild x amb hl hs
  | history => exact (update_asks x amb _ c.model).mild (by simp [Event.asks])

/-- A load fills its own field. -/
theorem load_writes {e : Event} {f : Field} (hf : f.load?.isSome = true) (h : f ∈ e.writes)
    (he : e.isStartupLoad = true) : f.load? = e.load? := by
  cases e <;> first | (simp [Event.isStartupLoad] at he; done) | skip
  all_goals
    simp only [Event.writes, List.mem_cons, List.not_mem_nil, or_false] at h
    rcases h with rfl | rfl | rfl | rfl <;> first | rfl | simp [Field.load?] at hf

/-- What is still due when the update is done has not changed. -/
theorem Early.keeps {x : Crates} {amb : Ambient} {c : Running} {e : Event} {f : Field}
    (h : Early c e) (hi : LoadsFirst c) (hw : waits x c e = true) (hf : due c f = true)
    (hl : e.isStartupLoad = true → f.load? ≠ e.load?) :
    f.get (update x amb e c.model).1 = f.get c.model := by
  have hload : f.load?.isSome = true := by
    cases hf' : f.load? <;> simp [due, hf'] at hf ⊢
  have hag := update_agrees x amb e c.model f
  cases h with
  | queued hk he =>
    rcases he with rfl | rfl
    · exact hag (by cases f <;> simp_all [Field.load?, Event.writes])
    · simp [update, startFlush_latched hk]
  | shell hs =>
    by_cases huser : e.isUser = true
    · cases hacc : e.accepted x c.model with
      | false =>
        obtain ⟨_,_,h⟩ := update_refused amb huser hacc
        rw [h]
        cases f <;> first | rfl | simp [Field.load?] at hload
      | true =>
        refine hag fun hm => ?_
        have hdue := List.all_eq_true.mp (waits_accepted huser hacc hw).2 f hm
        simp [hf] at hdue
    · refine hag fun hm => ?_
      cases e <;> first
        | (simp [fromShell] at hs; done)
        | exact absurd rfl huser
        | (simp only [Event.writes, List.mem_cons, List.not_mem_nil, or_false] at hm
           rcases hm with rfl | rfl | rfl | rfl | rfl | rfl <;> simp [Field.load?] at hload)
  | load he _ => exact hag fun hm => hl he (load_writes hload hm he)
  | @history peer res =>
    by_cases hs : f = .seenIds
    · subst hs
      have hempty : c.model.seenIds[peer]? = none := by
        rw [show c.model.seenIds = ∅ from hi.fresh .seenIds hf]
        simp
      change (loadedMessages peer res c.model).1.seenIds = c.model.seenIds
      simp only [loadedMessages, hempty]
      split <;> rfl
    · refine hag fun hm => ?_
      simp only [Event.writes, List.mem_cons, List.not_mem_nil, or_false] at hm
      rcases hm with rfl | rfl | rfl | rfl <;> simp [Field.load?] at hload hs

theorem identityLoaded_ok {x : Crates} {sk : Bytes} (h : (Crypto.fromSecretBytes x sk).isOk = true)
    (m : Model) : ∃ pk, update x amb (.identityLoaded sk) m = ({ m with
      secretKey := some sk, myPubkey := pk, page := .conversations, loadsPending := startupLoads
      kvLoadFailed := false },[load .settings .loadedSettings,load .profile .loadedProfile,
      load .contacts .loadedContacts,load .cursor .loadedCursor,load .outbox .loadedOutbox,
      load .seenIds .loadedSeenIds,.render]) := by
  simp only [update, identityLoaded]
  cases hid : Crypto.fromSecretBytes x sk with
  | error => simp [hid, Except.isOk, Except.toBool] at h
  | ok id => exact ⟨_,rfl⟩

/-- An event that is no valid identity keeps the identity, and ticks off a load if it is one. -/
theorem counts_loads (x : Crates) (amb : Ambient) {e : Event} (m : Model)
    (he : ∀ sk, e = .identityLoaded sk → (Crypto.fromSecretBytes x sk).isOk = false) :
    (update x amb e m).1.secretKey = m.secretKey ∧
      (update x amb e m).1.loadsPending = m.loadsPending-e.load?.toList.length := by
  by_cases hl : e.isStartupLoad = true
  · have hspec := startupLoad_spec x amb hl m
    rw [← Event.load?_isSome] at hl
    obtain ⟨tag,htag⟩ := Option.isSome_iff_exists.mp hl
    exact ⟨hspec.secretKey,by simp [htag, hspec.loadsPending]⟩
  · have hnone : e.load? = none := by
      rw [← Event.load?_isSome] at hl
      simpa using hl
    by_cases hid : ∃ sk, e = .identityLoaded sk
    · obtain ⟨sk,rfl⟩ := hid
      have hbad := he sk rfl
      simp only [update, identityLoaded]
      cases hsk : Crypto.fromSecretBytes x sk with
      | error => exact ⟨rfl,rfl⟩
      | ok id => simp [hsk, Except.isOk, Except.toBool] at hbad
    · have h := update_agrees x amb e m
      refine ⟨h .secretKey ?_,(h .loadsPending ?_).trans (by simp [hnone]; rfl)⟩
      · cases e <;> simp_all [Event.writes]
      · cases e <;> simp_all [Event.writes, Event.isStartupLoad]

theorem due_iff {c : Running} {f : Field} :
    due c f = true ↔ ∃ tag, f.load? = some tag ∧
      (c.model.secretKey = none ∨ tag ∈ loadsOut c) := by
  cases h : f.load? <;> simp [due, h]

theorem LoadsFirst.unloaded {c : Running} {f : Field} (h : LoadsFirst c) (hf : due c f = true) :
    c.model.unloaded = true := by
  obtain ⟨tag,-,hs | hout⟩ := due_iff.mp hf
  · simp [Model.unloaded, hs]
  · have hpos : 0 < c.model.loadsPending := h.length ▸ List.length_pos_of_mem hout
    simp [Model.unloaded, hpos]

/-- What is queued and outstanding after a step from an unloaded client. -/
theorem LoadsFirst.calm {x : Crates} {amb : Ambient} {c c₁ : Running} {act : Action Event Answer}
    {e : Event} (h : LoadsFirst c) (hwf : c.Wf) (hk : Known c) (hu : c.model.unloaded = true)
    (ht : Core.Takes (app x) c act e c₁) (hw : waits x c e = true)
    (hu' : (update x amb e c.model).1.unloaded = true) :
    (∀ e' ∈ (c₁.process (app x) amb e).queue, (update x amb e c.model).1.kvLoadFailed = true ∧
      ask (.event e') ∈ [.connect,.startFlush]) ∧
    ∀ p ∈ (c₁.process (app x) amb e).pending, ask (.request p.2) ∈ [.startup,.history] := by
  have hmild : Mild (update x amb e c.model) := (h.early hwf hk hu ht).mild hu hw
  have hm := ht.model_eq
  constructor
  · intro e' he'
    rcases Core.mem_process_queue.mp he' with hold | hnew
    · -- Only draining leaves something in the queue.
      obtain ⟨hf,hask⟩ := h.queue hu e' (ht.mem_queue hold)
      refine ⟨(update_latched x amb hf ?_).1,hask⟩
      rintro sk rfl
      cases ht with
      | drain hq =>
        have := (h.queue hu _ (hq ▸ List.mem_cons_self)).2
        simp [ask] at this
      | shell hq => simp [hq] at hold
      | answer hq => simp [Core.settle, hq] at hold
    · obtain ⟨k,hk',hnew⟩ := List.mem_filterMap.mp hnew
      cases k with
      | event g =>
        cases hnew
        rcases hmild _ (hm ▸ hk') with h | ⟨h,hf | hf⟩
        · cases e' <;> simp [ask] at h
        · exact ⟨hf,h⟩
        · simp [hu'] at hf
      | request | render => simp at hnew
  · rintro ⟨t,f⟩ hp
    rcases Core.mem_process_pending hp with hp | ⟨hp,-⟩
    · exact h.pending hu _ (ht.mem_pending hp)
    · exact hmild.request (hm ▸ hp)

/-- A valid identity starts the loads. -/
theorem LoadsFirst.identity {x : Crates} {amb : Ambient} {c c₁ : Running}
    {act : Action Event Answer} {sk : Bytes} (h : LoadsFirst c) (hwf : c.Wf) (hk : Known c)
    (ht : Core.Takes (app x) c act (.identityLoaded sk) c₁)
    (hw : waits x c (.identityLoaded sk) = true)
    (hok : (Crypto.fromSecretBytes x sk).isOk = true) :
    LoadsFirst (c₁.process (app x) amb (.identityLoaded sk)) := by
  have hs : c.model.secretKey = none := by simpa [waits, hok] using hw
  have hu : c.model.unloaded = true := by simp [Model.unloaded, hs]
  have hm := ht.model_eq
  obtain ⟨pk,hup⟩ := identityLoaded_ok hok c.model
  have hmodel : (c₁.process (app x) amb (.identityLoaded sk)).model =
      (update x amb (.identityLoaded sk) c.model).1 := by rw [← hm]; rfl
  have hnone : loadsOut c₁ = [] := by
    rcases takes_loads hwf hk ht with ⟨-,hout⟩ | ⟨_,_,_,he,-⟩
    · rw [hout]
      exact List.eq_nil_of_length_eq_zero (h.length.trans (h.unset hs))
    · simp [Event.load?] at he
  have hout : loadsOut (c₁.process (app x) amb (.identityLoaded sk)) =
      [.loadedSettings,.loadedProfile,.loadedContacts,.loadedCursor,.loadedOutbox,
        .loadedSeenIds] := by
    rw [loadsOut_process, hnone, hm, hup]
    rfl
  constructor
  · rw [hout]
    decide
  · rw [hout, hmodel, hup]
    rfl
  · rw [hmodel, hup]
    simp
  · intro f hf
    obtain ⟨tag,htag,-⟩ := due_iff.mp hf
    rw [hmodel, hup, ← h.fresh f (due_iff.mpr ⟨tag,htag,.inl hs⟩)]
    cases f <;> first | rfl | simp [Field.load?] at htag
  · rw [hmodel]
    exact fun hu' => (h.calm hwf hk hu ht hw hu').1
  · rw [hmodel]
    exact fun hu' => (h.calm hwf hk hu ht hw hu').2

theorem LoadsFirst.step {x : Crates} {c d : Running} {l : Label} (h : LoadsFirst c) (hwf : c.Wf)
    (hk : Known c) (hw : WaitsFor x c l) (hs : step x c l = some d) : LoadsFirst d := by
  obtain ⟨amb,act⟩ := l
  obtain ⟨⟨e,c₁⟩,htake,rfl⟩ := Option.map_eq_some_iff.mp hs
  have ht := Core.takes_of_take htake
  have hw : waits x c e = true := by simpa [WaitsFor, Core.event?, htake] using hw
  by_cases hid : ∃ sk, e = .identityLoaded sk ∧ (Crypto.fromSecretBytes x sk).isOk = true
  · obtain ⟨sk,rfl,hok⟩ := hid
    exact h.identity hwf hk ht hw hok
  have hid : ∀ sk, e = .identityLoaded sk → (Crypto.fromSecretBytes x sk).isOk = false :=
    fun sk he => by simpa using fun hok => hid ⟨sk,he,hok⟩
  have hmodel : (c₁.process (app x) amb e).model = (update x amb e c.model).1 := by
    rw [← ht.model_eq]; rfl
  obtain ⟨hsk,hlp⟩ := counts_loads x amb c.model hid
  have hout : loadsOut (c₁.process (app x) amb e) = loadsOut c₁ := by
    rw [loadsOut_process, startups_eq_nil x amb c₁.model hid, List.append_nil]
  have hsub : (loadsOut c₁).Sublist (loadsOut c) := by
    rcases takes_loads hwf hk ht with ⟨-,h⟩ | ⟨tag,ps,qs,-,hc,hd⟩
    · rw [h]
    · rw [hc, hd]
      exact (List.sublist_cons_self _ _).append_left ps
  have hback : (update x amb e c.model).1.unloaded = true → c.model.unloaded = true := by
    simp only [Model.unloaded, hsk, hlp, Bool.or_eq_true, decide_eq_true_eq]
    exact Or.imp_right fun h => by omega
  constructor
  · rw [hout]
    exact h.nodup.sublist hsub
  · rw [hout, hmodel, hlp]
    rcases takes_loads hwf hk ht with ⟨hl,hc⟩ | ⟨tag,ps,qs,hl,hc,hd⟩
    · rw [hc, hl]
      exact h.length
    · have := h.length
      simp only [hc, hd, hl, List.length_append, List.length_cons, Option.toList_some,
        List.length_nil] at this ⊢
      omega
  · rw [hmodel, hsk, hlp]
    intro hn
    rw [h.unset hn, Nat.zero_sub]
  · intro f hf
    obtain ⟨tag,htag,hdue⟩ := due_iff.mp hf
    rw [hmodel, hsk, hout] at hdue
    have hdue' : due c f = true := due_iff.mpr ⟨tag,htag,hdue.imp_right fun h => hsub.subset h⟩
    have hu := h.unloaded hdue'
    rw [hmodel, (h.early hwf hk hu ht).keeps h hw hdue' ?_, h.fresh f hdue']
    -- The load that has just landed is out no more.
    intro hl heq
    rcases takes_loads hwf hk ht with ⟨hnone,-⟩ | ⟨tag',ps,qs,hl',hc,hd⟩
    · rw [← Event.load?_isSome, hnone] at hl
      simp at hl
    · obtain rfl : tag = tag' := by
        rw [htag, hl'] at heq
        exact Option.some.inj heq
      have hnodup := h.nodup
      rw [hc] at hnodup
      rcases hdue with hs | hout
      · have := h.length
        simp [h.unset hs, hc] at this
      · rw [hd] at hout
        exact (List.nodup_middle.mp hnodup).notMem hout
  · rw [hmodel]
    exact fun hu' => (h.calm hwf hk (hback hu') ht hw hu').1
  · rw [hmodel]
    exact fun hu' => (h.calm hwf hk (hback hu') ht hw hu').2

theorem loadsFirst_boot (x : Crates) : LoadsFirst (boot x) where
  nodup := List.nodup_nil
  length := rfl
  unset _ := rfl
  fresh _ _ := rfl
  queue _ _ h := by simp [boot, Core.boot] at h
  pending _ _ h := by simp [boot, Core.boot] at h

theorem loadsFirst_run {x : Crates} {ls : List Label} {c : Running}
    (hrun : runFromBoot x ls = some c) (hw : Lts.Along (step x) (WaitsFor x) (boot x) ls) :
    c.Wf ∧ Known c ∧ LoadsFirst c := by
  refine Lts.run_invariant_along (step x) (I := fun c => c.Wf ∧ Known c ∧ LoadsFirst c) ?_
    ⟨Core.boot_wf _,?_,loadsFirst_boot x⟩ hw hrun
  · rintro c l d ⟨hwf,hk,h⟩ hl hs
    exact ⟨Core.step_wf hwf hs,hk.step hs,h.step hwf hk hl hs⟩
  · exact known_run (Lts.run_nil (step x) (boot x))

/-- In a run in which everything waits for the loads, an unloaded client asks for nothing but
reads, and a load that lands replaces what was there at launch. -/
theorem nothing_acts_half_loaded {x : Crates} {ls : List Label} {l : Label} {c d : Running}
    (hrun : runFromBoot x ls = some c) (hw : Lts.Along (step x) (WaitsFor x) (boot x) ls)
    (hl : WaitsFor x c l) (hs : step x c l = some d) :
    (c.model.unloaded = true → ∀ p ∈ d.pending, p ∈ c.pending ∨ ∃ key tag, p.2 = .kv (.get key) tag) ∧
    ∀ e f, c.event? (app x) l.2 = some e → e.isStartupLoad = true → f.load?.isSome = true →
      f ∈ e.writes → f.get c.model = f.get {} := by
  obtain ⟨hwf,hk,h⟩ := loadsFirst_run hrun hw
  obtain ⟨amb,act⟩ := l
  constructor
  · intro hu
    obtain ⟨⟨e,c₁⟩,htake,rfl⟩ := Option.map_eq_some_iff.mp hs
    have ht := Core.takes_of_take htake
    have hw : waits x c e = true := by simpa [WaitsFor, Core.event?, htake] using hl
    have hmild : Mild (update x amb e c.model) := (h.early hwf hk hu ht).mild hu hw
    rintro ⟨t,f⟩ hp
    rcases Core.mem_process_pending hp with hp | ⟨hp,-⟩
    · exact .inl (ht.mem_pending hp)
    · refine .inr ?_
      have hask := hmild.request (ht.model_eq ▸ hp)
      rcases f with ⟨_,tag⟩ | ⟨op,tag⟩ | _
      · cases tag <;> simp [ask] at hask
      · cases op <;> cases tag <;> first | exact ⟨_,_,rfl⟩ | simp [ask] at hask
      · simp [ask] at hask
  · intro e f he hload hf hm
    obtain ⟨c₁,ht,-⟩ := Core.step_event hs he
    rcases takes_loads hwf hk ht with ⟨hnone,-⟩ | ⟨tag,ps,qs,htag,hc,-⟩
    · rw [← Event.load?_isSome, hnone] at hload
      simp at hload
    · refine h.fresh f (due_iff.mpr ⟨tag,(load_writes hf hm hload).trans htag,.inr ?_⟩)
      simp [hc]

/-- A launch on which the user types a bad key and looks around while the loads come in. -/
def sampleWaiting : List (Action Event Answer) :=
  [.shell (.identityLoaded sampleSecret),.shell .showAddContact,.shell (.addContact "x" ""),
    .answer 3 (.kv (.ok (some (.cursor 9)))),.shell (.openChat "p"),.shell .sendText]

/-- The contacts land in such a launch. -/
theorem nothing_acts_half_loaded_waiting :
    ∃ c d, runFromBoot .sample (sampleLabels sampleWaiting) = some c ∧
      step .sample c (.sample,.answer 2 (.kv (.ok none))) = some d ∧
      c.model.loadsPending = 5 ∧ c.model.cursor = 9 ∧
      (∀ p ∈ d.pending, p ∈ c.pending ∨ ∃ key tag, p.2 = .kv (.get key) tag) ∧
      c.model.contacts = ∅ := by
  have h : (runFromBoot .sample (sampleLabels sampleWaiting)).any (fun c =>
      decide (WaitsFor .sample c (.sample,.answer 2 (.kv (.ok none)))) &&
      (step .sample c (.sample,.answer 2 (.kv (.ok none)))).isSome &&
      decide (c.model.loadsPending = 5) && decide (c.model.cursor = 9) && c.model.unloaded &&
      (c.event? (app .sample) (.answer 2 (.kv (.ok none)))).any
        (fun e => e matches .loadedContacts _)) = true := by decide
  simp only [Option.any_eq_true, Bool.and_eq_true, decide_eq_true_eq,
    Option.isSome_iff_exists] at h
  obtain ⟨c,hc,⟨⟨⟨⟨hl,d,hd⟩,hp⟩,hcur⟩,hu⟩,e,he,hload⟩ := h
  have hmain := nothing_acts_half_loaded hc (by decide) hl hd
  cases e with
  | loadedContacts res =>
    exact ⟨c,d,hc,hd,hp,hcur,hmain.1 hu,hmain.2 _ .contacts he rfl rfl (by simp [Event.writes])⟩
  | _ => simp at hload

/-- A contact added before the contacts land is written, and then lost; and `connect` starts to
authenticate under the settings that were there at launch. -/
theorem contact_lost_half_loaded :
    (runFromBoot .sample (sampleLabels [.shell (.identityLoaded sampleSecret)])).any (fun c =>
      decide (c.model.loadsPending = 6) && !c.pending.any (fun p => p.2.isWrite) &&
      (Lts.run (step .sample) c (sampleLabels [.shell (.addContact (samplePeer 7) "")])).any
        (fun d => decide (d.model.loadsPending = 6) && d.pending.any (fun p => p.2.isWrite) &&
          d.model.contacts.contains (samplePeer 7) &&
          (Lts.run (step .sample) d (sampleLabels [.answer 2 (.kv (.ok (some (.contacts []))))])).any
            (fun d => !d.model.contacts.contains (samplePeer 7))) &&
      (Lts.run (step .sample) c (sampleLabels [.shell .connect,.drain])).any
        (fun d => decide (d.model.loadsPending = 6) &&
          d.pending.any (fun p => p.2 matches .http _ _))) = true := by decide +kernel

end Skrepka.Client
