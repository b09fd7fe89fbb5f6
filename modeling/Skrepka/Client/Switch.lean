import Skrepka.Client.Filing
import Skrepka.Client.Phone

/-! What the store holds about the relay, its address and the cursor: a switch writes both, the cursor is
also written after a page, and nothing else touches them. -/
namespace Skrepka.Client
open Rust Mvu

/-- The keys whose values are about one relay. -/
def KvKey.isRelay : KvKey → Bool
  | .settings | .cursor => true
  | _ => false

/-- An operation changes what is stored about the relay. -/
def Effect.touches : Effect → Bool
  | .kv (.set key _) _ | .kv (.delete key) _ => key.isRelay
  | _ => false

def CmdLeaves : Cmd Event Effect → Prop
  | .request f => f.touches = false
  | _ => True

/-- A handler leaves what is stored about the relay alone. -/
abbrev LeavesRelay (f : Handler) : Prop := Upd.Keeps (fun _ => True) CmdLeaves f

section
variable {x : Crates} {amb : Ambient} {m : Model}

theorem LeavesRelay.cmds {f : Handler} (h : LeavesRelay f) (m : Model) : ∀ c ∈ (f m).2, CmdLeaves c :=
  (h m trivial).2

theorem guarded_leaves {ops : Model → List KvOp} (h : ∀ m, ∀ op ∈ ops m, op.key.isRelay = false) :
    LeavesRelay (guarded ops) := by
  refine fun m _ => ⟨trivial,fun c hc => ?_⟩
  rw [guarded_snd] at hc
  split at hc
  · simp at hc
  · obtain ⟨op,hop,rfl⟩ := List.mem_map.mp hc
    have hkey := h m op hop
    cases op with
    | get => rfl
    | set | delete => exact hkey

theorem persistContacts_leaves : LeavesRelay persistContacts :=
  guarded_leaves fun _ _ hop => List.mem_singleton.mp hop ▸ rfl

theorem persistProfile_leaves : LeavesRelay persistProfile :=
  guarded_leaves fun _ _ hop => List.mem_singleton.mp hop ▸ rfl

theorem persistOutbox_leaves : LeavesRelay persistOutbox :=
  guarded_leaves fun _ _ hop => List.mem_singleton.mp hop ▸ rfl

theorem persistMessages_leaves (peer : String) : LeavesRelay (persistMessages peer) :=
  guarded_leaves fun _ _ hop => List.mem_singleton.mp hop ▸ rfl

theorem persistSeenIds_leaves : LeavesRelay persistSeenIds :=
  guarded_leaves fun _ _ hop => List.mem_singleton.mp hop ▸ rfl

theorem render_leaves : LeavesRelay (.emit [.render]) := .emit (by simp [CmdLeaves])

theorem startFlush_leaves : LeavesRelay (.emit [.event .startFlush,.render]) := .emit (by simp [CmdLeaves])

/-- Commands that ask for no write. -/
theorem Asks.leaves {as : List Ask} {cs : Commands} (h : Asks as cs)
    (hq : ∀ a ∈ as, a ∉ [.write,.writeCursor,.other]) : ∀ c ∈ cs, CmdLeaves c := by
  intro c hc
  have hask := hq _ (h c hc)
  cases c with
  | event | render => trivial
  | request f =>
    cases f with
    | http | time => rfl
    | kv op tag =>
      cases op with
      | get => rfl
      | set | delete => cases tag <;> simp [ask] at hask

theorem sendBatch_leaves {token recipient : String} {b : Batch} {persist : Handler} (h : LeavesRelay persist) :
    LeavesRelay (sendBatch x token recipient b persist) := by
  refine fun m _ => ⟨trivial,fun c hc => ?_⟩
  simp only [sendBatch] at hc
  split at hc
  · obtain hc | hc := List.mem_append.mp hc
    · exact h.cmds m c hc
    · simp only [List.mem_cons, List.not_mem_nil, or_false] at hc
      obtain rfl | rfl := hc <;> rfl
  · obtain hc | hc := List.mem_append.mp hc
    · exact h.cmds m c hc
    · exact List.mem_singleton.mp hc ▸ trivial

theorem flushNext_leaves (amb : Ambient) : LeavesRelay (flushNext x amb) := by
  refine fun m _ => ⟨trivial,fun c hc => ?_⟩
  unfold flushNext at hc
  split at hc
  · simp at hc
  split at hc
  · simp at hc
  split at hc
  · simp at hc
  split at hc
  · simp only [flushBatch] at hc
    split at hc
    · split at hc
      · exact LeavesRelay.cmds (persistOutbox_leaves.and render_leaves) _ c hc
      · simp at hc
    · refine LeavesRelay.cmds (sendBatch_leaves ?_) _ c hc
      split
      · exact persistOutbox_leaves
      · exact .done
  · simp at hc

theorem retryBatch_leaves (batch : Option InFlight) : ∀ c ∈ (retryBatch x amb batch m).2, CmdLeaves c := by
  cases batch with
  | none => exact render_leaves.cmds m
  | some batch =>
    simp only [retryBatch]
    split
    · exact LeavesRelay.cmds (persistOutbox_leaves.and render_leaves) _
    · exact LeavesRelay.cmds ((persistOutbox_leaves.and (flushNext_leaves _)).and render_leaves) _

theorem sendResult_leaves (gen : UInt64) (res : HttpResult) :
    ∀ c ∈ (sendResult x amb gen res m).2, CmdLeaves c := by
  have hanswered := sendResult_answered x amb gen res m
  generalize sendResult x amb gen res m = r at hanswered
  cases hanswered with
  | stale => simp
  | unauthorized => simp [CmdLeaves]
  | limited => simp [rateLimited, CmdLeaves, Effect.touches]
  | split => exact (flushNext_leaves amb).cmds _
  | settled => exact LeavesRelay.cmds (persistOutbox_leaves.and (flushNext_leaves amb)) _
  | failed => exact retryBatch_leaves _

theorem sendText_leaves : ∀ c ∈ (sendText x amb m).2, CmdLeaves c := by
  obtain ⟨_,hsend⟩ | ⟨peer,-,hsend⟩ := sendText_cases x amb m
  · rw [hsend]
    simp [CmdLeaves]
  · rw [hsend]
    exact LeavesRelay.cmds ((persistMessages_leaves peer).and (persistContacts_leaves.and
      (persistOutbox_leaves.and startFlush_leaves))) _

theorem ingestPoll_leaves (page : PollResp) : ∀ c ∈ (ingestPoll x amb page m).2, CmdLeaves c := by
  intro c hc
  cases hk : m.kvLoadFailed with
  | true => simp [ingestPoll, hk] at hc
  | false =>
    cases hid : m.identity x with
    | none =>
      have hnone : (adoptCursor (amb.now 0) page m).identity x = none := by
        obtain ⟨_,hcursor⟩ := adoptCursor_eq (amb.now 0) page m
        rw [hcursor]
        exact hid
      simp [ingestPoll, hk, hnone] at hc
    | some id =>
      rw [ingestPoll_eq hk hid] at hc
      obtain hc | hc := List.mem_append.mp hc
      · refine LeavesRelay.cmds (Upd.Keeps.and (.all fun f hf => ?_) (.and (.when _ persistSeenIds_leaves)
          (.and (.when _ persistContacts_leaves) (.when _ persistOutbox_leaves)))) _ c hc
        obtain ⟨peer,-,rfl⟩ := List.mem_map.mp hf
        exact persistMessages_leaves peer
      · exact List.mem_singleton.mp hc ▸ trivial

end

/-- The operations among some commands. -/
def storeOps (cs : Commands) : List Effect := (Cmd.requests cs).filter kvStore.isOp

@[simp] theorem storeOps_append (cs ds : Commands) : storeOps (cs ++ ds) = storeOps cs ++ storeOps ds := by
  simp [storeOps]

theorem storeOps_spare {cs : Commands} (h : ∀ c ∈ cs, CmdLeaves c) : ∀ f ∈ storeOps cs, f.touches = false := by
  intro f hf
  obtain ⟨c,hc,hreq⟩ := List.mem_filterMap.mp (List.mem_of_mem_filter hf)
  cases c with
  | request g =>
    obtain rfl : g = f := by simpa using hreq
    exact h _ hc
  | event | render => simp at hreq

def writeAddress (url : String) : Effect := .kv (.set .settings (.settings ⟨url⟩)) .saved
def resetCursor : Effect := .kv (.set .cursor (.cursor 0)) .saved
def writeCursor (cursor : ℤ) : Effect := .kv (.set .cursor (.cursor cursor)) .savedCursor

/-- What an event asks of the store about the relay: nothing, the two writes of a switch, or that of the
cursor of a page. -/
inductive RelayOps (x : Crates) (amb : Ambient) (e : Event) (m : Model) : List Effect → Prop
  | spared {ops} (h : ∀ f ∈ ops, f.touches = false)
      (hswitch : ∀ url url', e = .setServerUrl url → normalizeServerUrl x url = some url' →
        m.kvLoadFailed = true)
      (hpage : ∀ gen res, e = .pollResult gen res → (update x amb e m).1.cursor = m.cursor) :
      RelayOps x amb e m ops
  | switched {url url'} (he : e = .setServerUrl url) (hurl : normalizeServerUrl x url = some url')
      (hk : m.kvLoadFailed = false) : RelayOps x amb e m [writeAddress url',resetCursor]
  | paged {gen res ops} (he : e = .pollResult gen res) (hgen : gen = m.pollGen)
      (hk : m.kvLoadFailed = false) (h : ∀ f ∈ ops, f.touches = false) :
      RelayOps x amb e m (ops ++ [writeCursor (update x amb e m).1.cursor])

section
variable {x : Crates} {amb : Ambient} {m : Model}

theorem setServerUrl_ops (url : String) :
    RelayOps x amb (.setServerUrl url) m (storeOps (setServerUrl x url m).2) := by
  have hpage : ∀ gen res, Event.setServerUrl url = .pollResult gen res →
      (update x amb (.setServerUrl url) m).1.cursor = m.cursor := by simp
  cases hurl : normalizeServerUrl x url with
  | none =>
    refine .spared ?_ (fun url'' url' he hurl' => ?_) hpage
    · simp [setServerUrl, hurl, refuse, storeOps]
    · obtain rfl := Event.setServerUrl.inj he
      simp [hurl] at hurl'
  | some url' =>
    have hk : (m.switchRelay url').kvLoadFailed = m.kvLoadFailed := rfl
    cases hm : m.kvLoadFailed with
    | true =>
      refine .spared ?_ (fun _ _ _ _ => hm) hpage
      simp [setServerUrl, hurl, storeOps, guarded_snd, hk, hm]
    | false =>
      have hops : storeOps (setServerUrl x url m).2 = [writeAddress url',resetCursor] := by
        simp only [setServerUrl, hurl, storeOps, Upd.and_snd, guarded_snd, guarded_fst, hk, hm]
        rfl
      rw [hops]
      exact .switched rfl hurl hm

theorem pollPage_ops (page : PollResp) :
    (∀ f ∈ storeOps (pollPage x amb page m).2, f.touches = false) ∧
        (pollPage x amb page m).1.cursor = m.cursor ∨
      ∃ ops, storeOps (pollPage x amb page m).2 = ops ++ [writeCursor (pollPage x amb page m).1.cursor] ∧
        ∀ f ∈ ops, f.touches = false := by
  have hspare := storeOps_spare (@ingestPoll_leaves x amb m page)
  simp only [pollPage]
  generalize ingestPoll x amb page m = r at hspare ⊢
  obtain ⟨next,cmds⟩ := r
  simp only at hspare ⊢
  by_cases hc : next.cursor = m.cursor
  · refine .inl ⟨?_,hc⟩
    simpa [hc, storeOps, kvStore] using hspare
  · refine .inr ⟨storeOps cmds,?_,hspare⟩
    simp [hc, storeOps, kvStore, writeCursor]

theorem pollResult_ops (gen : UInt64) (res : HttpResult) :
    RelayOps x amb (.pollResult gen res) m (storeOps (pollResult x amb gen res m).2) := by
  have hspared : (∀ f ∈ storeOps (pollResult x amb gen res m).2, f.touches = false) →
      (pollResult x amb gen res m).1.cursor = m.cursor →
      RelayOps x amb (.pollResult gen res) m (storeOps (pollResult x amb gen res m).2) :=
    fun h hc => .spared h (by simp) fun _ _ _ => hc
  by_cases hno : gen ≠ m.pollGen ∨ m.kvLoadFailed = true ∨ readPage x res = none
  · obtain ⟨hcursor,hasks⟩ := @pollResult_pageless x amb gen res m hno
    exact hspared (storeOps_spare (hasks.leaves (by simp))) hcursor
  · simp only [not_or, ne_eq, not_not, Bool.not_eq_true] at hno
    obtain ⟨rfl,hk,hpage⟩ := hno
    obtain ⟨page,hpage⟩ := Option.ne_none_iff_exists'.mp hpage
    have heq := @pollResult_page x amb _ _ _ hk hpage
    obtain ⟨h,hcursor⟩ | ⟨ops,hops,h⟩ :=
      @pollPage_ops x amb { m with polling := false, pollRetries := 0 } page
    · rw [heq] at hspared ⊢
      exact hspared h hcursor
    · rw [heq, hops, ← heq]
      exact .paged rfl rfl hk h

/-- What an update asks of the store about the relay. -/
theorem update_ops (e : Event) : RelayOps x amb e m (storeOps (update x amb e m).2) := by
  have hspared : (∀ url, e ≠ .setServerUrl url) → (∀ gen res, e ≠ .pollResult gen res) →
      (∀ c ∈ (update x amb e m).2, CmdLeaves c) → RelayOps x amb e m (storeOps (update x amb e m).2) :=
    fun hs hp h => .spared (storeOps_spare h) (fun url _ he => absurd he (hs url))
      fun gen res he => absurd he (hp gen res)
  have hquiet : (∀ a ∈ e.asks, a ∉ [.write,.writeCursor,.other]) →
      ∀ c ∈ (update x amb e m).2, CmdLeaves c := (update_asks x amb e m).leaves
  cases e with
  | setServerUrl url => exact setServerUrl_ops url
  | pollResult gen res => exact pollResult_ops gen res
  | sendText => exact hspared (by simp) (by simp) sendText_leaves
  | addContact input nickname =>
    refine hspared (by simp) (by simp) fun c hc => ?_
    simp only [update, addContact] at hc
    repeat' split at hc
    iterate 3 exact List.mem_singleton.mp (by simpa [refuse] using hc) ▸ trivial
    all_goals exact LeavesRelay.cmds (persistContacts_leaves.and render_leaves) _ c hc
  | setBlocked peer blocked =>
    refine hspared (by simp) (by simp) fun c hc => ?_
    simp only [update, setBlocked] at hc
    split at hc
    · exact LeavesRelay.cmds (persistContacts_leaves.and (persistOutbox_leaves.and render_leaves)) _ c hc
    · exact LeavesRelay.cmds (persistContacts_leaves.and render_leaves) _ c hc
  | deleteContact peer =>
    have hemit : LeavesRelay (.emit [.request (.kv (.delete (.messages peer)) .saved)]) :=
      .emit fun c hc => List.mem_singleton.mp hc ▸ rfl
    exact hspared (by simp) (by simp) (LeavesRelay.cmds (persistContacts_leaves.and (hemit.and
      (persistOutbox_leaves.and (persistSeenIds_leaves.and render_leaves)))) (m.forgetPeer peer))
  | saveProfile displayName bio photo =>
    refine hspared (by simp) (by simp) fun c hc => ?_
    simp only [update, saveProfile] at hc
    repeat' split at hc
    iterate 4 exact List.mem_singleton.mp (by simpa [refuse] using hc) ▸ trivial
    exact LeavesRelay.cmds (persistProfile_leaves.and (persistOutbox_leaves.and startFlush_leaves)) _ c hc
  | startFlush => exact hspared (by simp) (by simp) ((flushNext_leaves amb).cmds m)
  | flushWatchdog gen =>
    refine hspared (by simp) (by simp) fun c hc => ?_
    simp only [update, flushWatchdog] at hc
    split at hc
    · simp at hc
    · exact (flushNext_leaves amb).cmds _ c hc
  | sendResult gen res => exact hspared (by simp) (by simp) (sendResult_leaves gen res)
  | _ => exact hspared (by simp) (by simp) (hquiet (by simp [Event.asks]))

end

/-- The relay that a client takes from what is stored as its settings. -/
def addressOf (x : Crates) : Option KvValue → String
  | some (.settings s) => (normalizeServerUrl x s.serverUrl).getD defaultServerUrl
  | _ => defaultServerUrl

theorem normalizeServerUrl_eq_some {x : Crates} {input text : String} :
    normalizeServerUrl x input = some text ↔ ∃ url, x.parseUrl (trim input) = some url ∧
      (url.scheme = "http" ∨ url.scheme = "https") ∧ url.hostStr.all (fun h => h = "") = false ∧
      url.query = none ∧ url.fragment = none ∧ trimEndMatches (· == '/') url.asStr = text := by
  simp only [normalizeServerUrl, Option.bind_eq_bind, Option.bind_eq_some_iff]
  refine exists_congr fun url => and_congr_right fun _ => ?_
  by_cases hs : url.scheme = "http" ∨ url.scheme = "https"
  · have hs' : ¬ (url.scheme ≠ "http" ∧ url.scheme ≠ "https") := by tauto
    cases hh : url.hostStr.all (fun h => h = "") with
    | true => simp [hs', hs]
    | false =>
      cases hq : url.query with
      | some => simp [hs', hs]
      | none => cases hf : url.fragment <;> simp [hs', hs]
  · have hs' : url.scheme ≠ "http" ∧ url.scheme ≠ "https" := not_or.mp hs
    simp [hs']

/-- The `url` crate takes what it printed of an `http` address with a host and neither query nor fragment,
less the slashes at its end, for the same address. -/
structure Crates.Reparses (x : Crates) : Prop where
  again : ∀ input url, x.parseUrl input = some url → (url.scheme = "http" ∨ url.scheme = "https") →
    url.hostStr.all (fun h => h = "") = false → url.query = none → url.fragment = none →
    ∃ url', x.parseUrl (trim (trimEndMatches (· == '/') url.asStr)) = some url' ∧
      url'.scheme = url.scheme ∧ url'.hostStr = url.hostStr ∧ url'.query = none ∧ url'.fragment = none ∧
      trimEndMatches (· == '/') url'.asStr = trimEndMatches (· == '/') url.asStr

/-- What is written as the address of a relay is read as that address. -/
theorem addressOf_normalized {x : Crates} (hx : x.Reparses) {input url : String}
    (h : normalizeServerUrl x input = some url) : addressOf x (some (.settings ⟨url⟩)) = url := by
  obtain ⟨u,hparse,hscheme,hhost,hquery,hfragment,rfl⟩ := normalizeServerUrl_eq_some.mp h
  obtain ⟨u',hparse',hscheme',hhost',hquery',hfragment',htext⟩ :=
    hx.again _ u hparse hscheme hhost hquery hfragment
  have hagain := normalizeServerUrl_eq_some.mpr
    ⟨u',hparse',hscheme' ▸ hscheme,hhost' ▸ hhost,hquery',hfragment',htext⟩
  simp [addressOf, hagain]

theorem sample_reparses : Crates.sample.Reparses where
  again input url h _ _ _ _ := by
    obtain ⟨port,hport,hurl⟩ := List.exists_of_findSome?_eq_some h
    simp only [Option.ite_none_right_eq_some, Option.some.injEq] at hurl
    obtain ⟨-,rfl⟩ := hurl
    simp only [List.mem_cons, List.not_mem_nil, or_false] at hport
    have htrim : trim (trimEndMatches (· == '/') (sampleUrl port).asStr) = "http://localhost:" ++ port := by
      obtain rfl | rfl := hport <;> decide
    refine ⟨sampleUrl port,?_,rfl,rfl,rfl,rfl,rfl⟩
    rw [htrim]
    obtain rfl | rfl := hport <;> rfl

def cursorOf : Option KvValue → ℤ
  | some (.cursor cursor) => cursor
  | _ => 0

/-- An operation writes another address. -/
def Effect.moves (x : Crates) (disk : Disk) : Effect → Bool
  | .kv (.set .settings value) _ => addressOf x (some value) ≠ addressOf x (disk .settings)
  | _ => false

/-- An operation resets the cursor. -/
def Effect.isReset : Effect → Bool
  | .kv (.set .cursor _) .saved => true
  | _ => false

/-- Operations that take the address in the store from one relay to another: both writes of a switch
come together, and a cursor is written under the address that it belongs to. -/
inductive Shifts (x : Crates) (P : String → ℤ → Prop) : String → List Effect → String → Prop
  | nil (url : String) : Shifts x P url [] url
  | spared {url f fs url'} (hf : f.touches = false) (h : Shifts x P url fs url') : Shifts x P url (f :: fs) url'
  | switch {url new fs url'} (h : Shifts x P (addressOf x (some (.settings ⟨new⟩))) fs url') :
      Shifts x P url (writeAddress new :: resetCursor :: fs) url'
  | cursor {url c fs url'} (hc : P url c) (h : Shifts x P url fs url') :
      Shifts x P url (writeCursor c :: fs) url'

/-- The cursor in the store belongs to the address there and stays so, unless the second write of a switch
is the next operation. -/
def Consistent (x : Crates) (P : String → ℤ → Prop) (disk : Disk) (fs : List Effect) (url : String) : Prop :=
  (P (addressOf x (disk .settings)) (cursorOf (disk .cursor)) ∧
    Shifts x P (addressOf x (disk .settings)) fs url) ∨
  ∃ rest, fs = resetCursor :: rest ∧ Shifts x P (addressOf x (disk .settings)) rest url

section
variable {x : Crates} {P Q : String → ℤ → Prop} {url url' : String} {fs gs : List Effect} {disk : Disk}
  {f : Effect}

namespace Shifts

theorem mono (hPQ : ∀ url c, P url c → Q url c) (h : Shifts x P url fs url') : Shifts x Q url fs url' := by
  induction h with
  | nil => exact .nil _
  | spared hf _ ih => exact .spared hf ih
  | switch _ ih => exact .switch ih
  | cursor hc _ ih => exact .cursor (hPQ _ _ hc) ih

theorem append {url'' : String} (h : Shifts x P url fs url') (h' : Shifts x P url' gs url'') :
    Shifts x P url (fs ++ gs) url'' := by
  induction h with
  | nil => exact h'
  | spared hf _ ih => exact .spared hf (ih h')
  | switch _ ih => exact .switch (ih h')
  | cursor hc _ ih => exact .cursor hc (ih h')

theorem of_spared (h : ∀ f ∈ fs, f.touches = false) : Shifts x P url fs url := by
  induction fs with
  | nil => exact .nil url
  | cons f fs ih => exact .spared (h f List.mem_cons_self) (ih fun g hg => h g (List.mem_cons_of_mem f hg))

theorem eq_of_spared (h : Shifts x P url fs url') (hfs : ∀ f ∈ fs, f.touches = false) : url' = url := by
  induction h with
  | nil => rfl
  | spared _ _ ih => exact ih fun g hg => hfs g (List.mem_cons_of_mem _ hg)
  | switch => simpa [writeAddress, Effect.touches, KvKey.isRelay] using hfs _ List.mem_cons_self
  | cursor => simpa [writeCursor, Effect.touches, KvKey.isRelay] using hfs _ List.mem_cons_self

end Shifts

/-- An operation that does not touch the keys of the relay leaves them. -/
theorem perform_spared (h : f.touches = false) {key : KvKey} (hkey : key.isRelay = true) :
    (kvStore.perform f disk).1 key = disk key := by
  rcases f with ⟨_,_⟩ | ⟨op,_⟩ | ⟨_,_⟩
  · rfl
  · cases op with
    | get => rfl
    | set k | delete k =>
      have hne : key ≠ k := by
        rintro rfl
        simp [Effect.touches, hkey] at h
      simp [kvStore, performKv, hne]
  · rfl

namespace Consistent

theorem mono (hPQ : ∀ url c, P url c → Q url c) (h : Consistent x P disk fs url) : Consistent x Q disk fs url := by
  obtain ⟨hc,h⟩ | ⟨rest,hrest,h⟩ := h
  · exact .inl ⟨hPQ _ _ hc,h.mono hPQ⟩
  · exact .inr ⟨rest,hrest,h.mono hPQ⟩

theorem append (h : Consistent x P disk fs url) (h' : Shifts x P url gs url') :
    Consistent x P disk (fs ++ gs) url' := by
  obtain ⟨hc,h⟩ | ⟨rest,rfl,h⟩ := h
  · exact .inl ⟨hc,h.append h'⟩
  · exact .inr ⟨rest ++ gs,rfl,h.append h'⟩

theorem perform (hzero : ∀ url, P url 0) (h : Consistent x P disk (f :: fs) url) :
    Consistent x P (kvStore.perform f disk).1 fs url := by
  obtain ⟨hc,h⟩ | ⟨rest,hrest,h⟩ := h
  · cases h with
    | spared hf h =>
      left
      rw [perform_spared hf rfl, perform_spared hf rfl]
      exact ⟨hc,h⟩
    | switch h => exact .inr ⟨_,rfl,h⟩
    | cursor hcursor h => exact .inl ⟨hcursor,h⟩
  · obtain ⟨rfl,rfl⟩ := List.cons.inj hrest
    exact .inl ⟨hzero _,h⟩

/-- An operation fails that writes no other address, and is no reset that is needed. -/
theorem fail (hzero : ∀ url, P url 0) (hmove : f.moves x disk = false)
    (hreset : f.isReset = true → cursorOf (disk .cursor) = 0) (h : Consistent x P disk (f :: fs) url) :
    Consistent x P disk fs url := by
  obtain ⟨hc,h⟩ | ⟨rest,hrest,h⟩ := h
  · cases h with
    | spared _ h | cursor _ h => exact .inl ⟨hc,h⟩
    | @switch _ new _ _ h =>
      have hsame : addressOf x (some (.settings ⟨new⟩)) = addressOf x (disk .settings) := by
        simpa [writeAddress, Effect.moves] using hmove
      exact .inr ⟨_,rfl,hsame ▸ h⟩
  · obtain ⟨rfl,rfl⟩ := List.cons.inj hrest
    refine .inl ⟨?_,h⟩
    rw [hreset rfl]
    exact hzero _

/-- What a client finds in the store when it is started again. -/
theorem restart (hzero : ∀ url, P url 0) (h : Consistent x P disk fs url)
    (hreset : ∀ rest, fs = resetCursor :: rest → cursorOf (disk .cursor) = 0) :
    Consistent x P disk [] (addressOf x (disk .settings)) := by
  refine .inl ⟨?_,.nil _⟩
  obtain ⟨hc,-⟩ | ⟨rest,hrest,-⟩ := h
  · exact hc
  · rw [hreset rest hrest]
    exact hzero _

/-- With nothing to come for the keys of the relay, what is stored there is settled. -/
theorem settled (h : Consistent x P disk fs url) (hfs : ∀ f ∈ fs, f.touches = false) :
    url = addressOf x (disk .settings) ∧ P url (cursorOf (disk .cursor)) := by
  obtain ⟨hc,h⟩ | ⟨rest,rfl,-⟩ := h
  · obtain rfl := h.eq_of_spared hfs
    exact ⟨rfl,hc⟩
  · simpa [resetCursor, Effect.touches, KvKey.isRelay] using hfs _ List.mem_cons_self

end Consistent
end
end Skrepka.Client
