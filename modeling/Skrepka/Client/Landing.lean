import Skrepka.Client.Origins
import Skrepka.Client.Switch

/-! What a client reads about its relay at startup: the answer that lands is what is stored by then. -/
namespace Skrepka.Client
open Rust Mvu

/-- The read of the address of the relay, or of the cursor. -/
def Effect.readsRelay : Effect → Bool
  | .kv (.get .settings) .loadedSettings | .kv (.get .cursor) .loadedCursor => true
  | _ => false

/-- The relay has yet to be read from the store. -/
def readsRelay (c : Running) : Bool := c.pending.any fun p => p.2.readsRelay

section
variable {x : Crates} {amb : Ambient} {c d : Running} {l : Label} {e : Event} {m : Model}

theorem readsRelay_eq_false : readsRelay c = false ↔ ∀ p ∈ c.pending, p.2.readsRelay = false := by
  simp [readsRelay]

/-- The address and the cursor are loaded from their own keys, for a valid identity. -/
theorem update_reads {key : KvKey} {tag : KvTag} (htag : tag = .loadedSettings ∨ tag = .loadedCursor)
    (hf : .kv (.get key) tag ∈ Cmd.requests (update x amb e m).2) :
    (∃ sk, e = .identityLoaded sk ∧ (Crypto.fromSecretBytes x sk).isOk = true) ∧
      Effect.readsRelay (.kv (.get key) tag) = true := by
  have hid : ∃ sk, e = .identityLoaded sk ∧ (Crypto.fromSecretBytes x sk).isOk = true := by
    by_contra hno
    have hnil := startups_eq_nil x amb (e := e) m fun sk hsk => by
      simpa using fun hok => hno ⟨sk,hsk,hok⟩
    have := List.filterMap_eq_nil_iff.mp hnil _ hf
    obtain rfl | rfl := htag <;> simp [Effect.startup?] at this
  refine ⟨hid,?_⟩
  obtain ⟨sk,rfl,hok⟩ := hid
  obtain ⟨pk,hup⟩ := @identityLoaded_ok amb _ _ hok m
  rw [hup] at hf
  obtain rfl | rfl := htag <;> simp [load] at hf <;> subst hf <;> rfl

/-- Whoever waits for the address or the cursor has asked for that key. -/
def Paired (c : Running) : Prop :=
  ∀ p ∈ c.pending, ∀ key tag, tag = .loadedSettings ∨ tag = .loadedCursor → p.2 = .kv (.get key) tag →
    p.2.readsRelay = true

theorem Paired.step (h : Paired c) (hstep : Client.step x c l = some d) : Paired d := by
  obtain ⟨e,c₁,ht,rfl⟩ := Core.step_cases hstep
  rintro ⟨t,f⟩ hp key tag htag rfl
  obtain hold | ⟨hnew,-⟩ := Core.mem_process_pending hp
  · exact h _ (ht.mem_pending hold) key tag htag rfl
  · exact (update_reads htag hnew).2

/-- Only a valid identity has the relay read. -/
theorem readsRelay_step (hstep : Client.step x c l = some d) (he : c.event? (app x) l.2 = some e)
    (hid : ∀ sk, e = .identityLoaded sk → (Crypto.fromSecretBytes x sk).isOk = false) {p : ℕ × Effect}
    (hp : p ∈ d.pending) (hreads : p.2.readsRelay = true) : p ∈ c.pending := by
  obtain ⟨c₁,ht,rfl⟩ := Core.step_event hstep he
  obtain ⟨t,f⟩ := p
  obtain hold | ⟨hnew,-⟩ := Core.mem_process_pending hp
  · exact ht.mem_pending hold
  have hbad : ∀ key tag, (tag = .loadedSettings ∨ tag = .loadedCursor) → f ≠ .kv (.get key) tag := by
    rintro key tag htag rfl
    obtain ⟨⟨sk,rfl,hok⟩,-⟩ := update_reads htag hnew
    simp [hid sk rfl] at hok
  simp only [Effect.readsRelay] at hreads
  split at hreads
  · exact absurd rfl (hbad _ _ (.inl rfl))
  · exact absurd rfl (hbad _ _ (.inr rfl))
  · simp at hreads

/-- A client with nothing about its relay to read has nothing to read until there is an identity. -/
theorem unread_step (hno : readsRelay c = false) (hstep : Client.step x c l = some d)
    (he : c.event? (app x) l.2 = some e)
    (hid : ∀ sk, e = .identityLoaded sk → (Crypto.fromSecretBytes x sk).isOk = false) :
    readsRelay d = false := by
  refine readsRelay_eq_false.mpr fun p hp => ?_
  by_contra hreads
  rw [Bool.not_eq_false] at hreads
  simp [readsRelay_eq_false.mp hno p (readsRelay_step hstep he hid hp hreads)] at hreads

theorem KvTag.event_inj {tag tag' : KvTag} {res res' : KvData} (h : tag.event res = tag'.event res') :
    tag = tag' ∧ res = res' := by
  cases tag <;> cases tag' <;> simp [KvTag.event] at h ⊢ <;> exact h

/-- The result of a read or a write is the answer to one that is out. -/
theorem takes_kv (hk : Known c) {tag : KvTag} {res : KvData} {act : Action Event Answer} {c₁ : Running}
    (ht : Core.Takes (app x) c act (tag.event res) c₁) :
    ∃ t op, act = .answer t (.kv res) ∧ (t,.kv op tag) ∈ c.pending := by
  generalize he : tag.event res = e at ht
  cases ht with
  | drain hq =>
    have hother := hk.queue e (hq ▸ List.mem_cons_self)
    subst he
    cases tag <;> exact absurd rfl hother
  | shell _ hs =>
    change fromShell e = true at hs
    subst he
    cases tag <;> simp [KvTag.event, fromShell] at hs
  | @answer t r f _ _ hf ha =>
    change answer x f r = some e at ha
    subst he
    rcases f with ⟨req,tag'⟩ | ⟨op,tag'⟩ | ⟨ms,tag'⟩ <;> cases r <;>
      simp only [answer, Option.some.injEq, reduceCtorEq] at ha
    · cases tag <;> cases tag' <;> simp [HttpTag.event, KvTag.event] at ha
    · obtain ⟨rfl,rfl⟩ := KvTag.event_inj ha
      exact ⟨t,op,rfl,hf⟩
    · cases tag <;> cases tag' <;> simp [TimeTag.event, KvTag.event] at ha

/-- The address comes from a read that is out, and so does the cursor. -/
theorem takes_read (hk : Known c) (hpaired : Paired c) {tag : KvTag} {res : KvData}
    (htag : tag = .loadedSettings ∨ tag = .loadedCursor) {act : Action Event Answer} {c₁ : Running}
    (ht : Core.Takes (app x) c act (tag.event res) c₁) :
    ∃ t key, act = .answer t (.kv res) ∧ (t,.kv (.get key) tag) ∈ c.pending ∧
      Effect.readsRelay (.kv (.get key) tag) = true := by
  obtain ⟨t,op,hact,hf⟩ := takes_kv hk ht
  have hknown := hk.pending _ hf
  cases op with
  | get key => exact ⟨t,key,hact,hf,hpaired _ hf key tag htag rfl⟩
  | set | delete => obtain rfl | rfl := htag <;> exact absurd rfl hknown

/-- What is loaded as the address is what is stored, unless the read fails. -/
theorem loadedSettings_address (x : Crates) (amb : Ambient) (m : Model) (res : KvData) :
    (update x amb (.loadedSettings res) m).1.kvLoadFailed = true ∨
    ∃ value, res = .ok value ∧
      ((update x amb (.loadedSettings res) m).1.settings.serverUrl = addressOf x value ∨
        value = none ∧ (update x amb (.loadedSettings res) m).1.settings = m.settings) := by
  simp only [update, loadedSettings, loaded_eq, Upd.and_fst, Upd.emit_fst]
  obtain ⟨_,hdone⟩ := startupDone_fst (loadedModel KvValue.settings?
    (fun s m => { m with settings := ⟨(normalizeServerUrl x s.serverUrl).getD defaultServerUrl⟩ })
    (Model.loadFailed "settings") res m)
  rw [hdone]
  rcases res with _ | _ | value
  · exact .inl rfl
  · exact .inr ⟨none,rfl,.inr ⟨rfl,rfl⟩⟩
  · cases value with
    | settings s => exact .inr ⟨_,rfl,.inl rfl⟩
    | _ => exact .inl rfl

/-- What is loaded as the cursor is what is stored. -/
theorem cursorAt_cases : e.cursorAt m = m.cursor ∨
    ∃ value, e = .loadedCursor (.ok value) ∧ e.cursorAt m = cursorOf value := by
  cases e with
  | loadedCursor res =>
    rcases res with _ | _ | value
    · exact .inl rfl
    · exact .inl rfl
    · cases value with
      | cursor c => exact .inr ⟨_,rfl,rfl⟩
      | _ => exact .inl rfl
  | _ => exact .inl rfl

/-- Only a valid identity takes the latch off. -/
theorem latched_step (hk : m.kvLoadFailed = true)
    (hid : ∀ sk, e = .identityLoaded sk → (Crypto.fromSecretBytes x sk).isOk = false) :
    (update x amb e m).1.kvLoadFailed = true := by
  by_cases he : ∃ sk, e = .identityLoaded sk
  · obtain ⟨sk,rfl⟩ := he
    have hbad := hid sk rfl
    simp only [update, identityLoaded]
    cases hsk : Crypto.fromSecretBytes x sk with
    | error => exact hk
    | ok id => simp [hsk, Except.isOk, Except.toBool] at hbad
  · exact (update_latched x amb hk fun sk h => he ⟨sk,h⟩).1

end

/-- What is stored about the relay stays as it is from the read to the time at which the answer lands. -/
structure Reading (d : Phone) : Prop where
  paired : Paired d.core
  before : (d.awaiting kvStore).Pairwise fun f g => f.readsRelay = true → g.touches = false
  read : ∀ t f r, (t,f) ∈ d.core.pending → f.readsRelay = true → (t,r) ∈ d.answers →
    (∀ g ∈ d.awaiting kvStore, g.touches = false) ∧
      (r = kvStore.failed ∨ r = (kvStore.perform f d.disk).2)

theorem reading_fresh (x : Crates) (disk : Disk) : Reading (Device.fresh (app x) disk) where
  paired := by simp [Paired, Device.fresh, Core.boot]
  before := by simp [Device.awaiting, Device.fresh, Core.boot]
  read := by simp [Device.fresh]

/-- A read leaves the store alone, and depends on no more than its key. -/
theorem perform_read {f : Effect} (h : f.readsRelay = true) (disk : Disk) :
    (kvStore.perform f disk).1 = disk ∧ ∃ key, key.isRelay = true ∧
      ∀ disk' : Disk, (kvStore.perform f disk').2 = .kv (.ok (disk' key)) := by
  simp only [Effect.readsRelay] at h
  split at h
  · exact ⟨rfl,.settings,rfl,fun _ => rfl⟩
  · exact ⟨rfl,.cursor,rfl,fun _ => rfl⟩
  · simp at h

section
variable {x : Crates} {d d' : Phone} {h : Happening Ambient Event Answer} {l : Label} {e : Event}

/-- With nothing about the relay to read. -/
theorem reading_unread (hpaired : Paired d.core) (hno : readsRelay d.core = false) : Reading d := by
  have hnone := readsRelay_eq_false.mp hno
  refine ⟨hpaired,List.pairwise_of_forall_mem_list fun f hf g _ hreads => ?_,fun t f r hf hreads => ?_⟩
  · obtain ⟨t,hp,-⟩ := Device.mem_awaiting.mp hf
    simp [hnone _ hp] at hreads
  · simp [hnone _ hf] at hreads

/-- A step of the client asks for nothing that changes what is being read. -/
theorem Reading.step (hreading : Reading d) (hwf : d.Wf) (hl : d.label kvStore h = some l)
    (he : d.core.event? (app x) l.2 = some e) (hstep : Phone.step x d h = some d')
    (hquiet : readsRelay d.core = false ∧
        (∀ sk, e = .identityLoaded sk → (Crypto.fromSecretBytes x sk).isOk = false) ∨
      ∀ f ∈ storeOps (update x l.1 e d.core.model).2, f.touches = false) : Reading d' := by
  obtain ⟨hcore,hdisk,hsub⟩ := Device.step_core hl hstep
  have hpaired := hreading.paired.step hcore
  obtain ⟨hno,hid⟩ | hspared := hquiet
  · exact reading_unread hpaired (unread_step hno hcore he hid)
  have hawaiting : d'.awaiting kvStore = d.awaiting kvStore ++ storeOps (update x l.1 e d.core.model).2 :=
    hwf.awaiting_step hl he hstep
  refine ⟨hpaired,?_,fun t f r hf hreads hr => ?_⟩
  · rw [hawaiting]
    refine List.pairwise_append.mpr ⟨hreading.before,?_,fun f _ g hg _ => hspared g hg⟩
    exact List.pairwise_of_forall_mem_list fun f _ g hg _ => hspared g hg
  · obtain ⟨c₁,ht,hproc⟩ := Core.step_event hcore he
    rw [hproc] at hf
    obtain hold | ⟨-,hnew⟩ := Core.mem_process_pending hf
    · obtain ⟨hquiet,hanswer⟩ := hreading.read t f r (ht.mem_pending hold) hreads (hsub hr)
      refine ⟨fun g hg => ?_,hdisk ▸ hanswer⟩
      rw [hawaiting] at hg
      obtain hg | hg := List.mem_append.mp hg
      · exact hquiet g hg
      · exact hspared g hg
    · have hlt := hwf.issued _ (hsub hr)
      rw [ht.next_eq] at hnew
      simp only at hlt
      omega

theorem Reading.perform (hreading : Reading d) (hwf : d.Wf) {ok : Bool}
    (hstep : Phone.step x d (.perform ok) = some d') : Reading d' := by
  obtain ⟨⟨t₀,f₀⟩,hp,rfl⟩ := Option.map_eq_some_iff.mp hstep
  have hf₀ := List.mem_of_find?_eq_some hp
  have hbefore := hreading.before
  rw [hwf.awaiting_perform hp] at hbefore
  obtain ⟨hhead,htail⟩ := List.pairwise_cons.mp hbefore
  refine ⟨hreading.paired,htail,fun t f r hf hreads hr => ?_⟩
  obtain hr | hr := List.mem_append.mp hr
  · obtain ⟨hquiet,hanswer⟩ := hreading.read t f r hf hreads hr
    rw [hwf.awaiting_perform hp] at hquiet
    refine ⟨fun g hg => hquiet g (List.mem_cons_of_mem _ hg),hanswer.imp_right fun hanswer => ?_⟩
    -- The operation that is performed before the answer lands leaves what was read.
    obtain ⟨-,key,hkey,hperform⟩ := perform_read hreads d.disk
    rw [hanswer, hperform, hperform]
    cases ok with
    | true => simp only [if_true, perform_spared (hquiet f₀ List.mem_cons_self) hkey]
    | false => rfl
  · obtain ⟨rfl,rfl⟩ := Prod.mk.inj (List.mem_singleton.mp hr)
    obtain rfl := Core.pending_unique hwf.core hf₀ hf
    refine ⟨fun g hg => hhead g hg hreads,?_⟩
    cases ok with
    | true => exact .inr (by simp only [if_true, (perform_read hreads d.disk).1])
    | false => exact .inl rfl

/-- A load that lands brings what is stored by then, or has failed. -/
theorem Reading.landed (hreading : Reading d) (hk : Known d.core) (hl : d.label kvStore h = some l)
    {c₁ : Running} (tag : KvTag) {res : KvData} (htag : tag = .loadedSettings ∨ tag = .loadedCursor)
    (ht : Core.Takes (app x) d.core l.2 (tag.event res) c₁) :
    (∀ g ∈ d.awaiting kvStore, g.touches = false) ∧ ∀ value, res = .ok value →
      value = d.disk (if tag = .loadedSettings then .settings else .cursor) := by
  obtain ⟨t,key,hact,hf,hreads⟩ := takes_read hk hreading.paired htag ht
  obtain ⟨hquiet,hanswer⟩ := hreading.read t _ _ hf hreads (Device.mem_answers hl hact hf rfl)
  refine ⟨hquiet,fun value hvalue => ?_⟩
  subst hvalue
  obtain hfailed | hperform := hanswer
  · simp [kvStore] at hfailed
  · obtain rfl : value = d.disk key := by simpa [kvStore, performKv] using hperform
    obtain rfl | rfl := htag <;> cases key <;> simp [Effect.readsRelay] at hreads ⊢

end
end Skrepka.Client
