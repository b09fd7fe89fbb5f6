import Mathlib.Data.Prod.Lex
import Skrepka.Client.History
import Skrepka.Client.Ordered

/-! What the screens show: every contact once, by the newest message of its conversation, and the
conversation with the active peer in the order of its times. -/
namespace Skrepka.Client
open Rust Mvu

structure ProfileVM where
  displayName : String
  bio : String
  photo : String
  deriving DecidableEq

structure ContactVM where
  pubkey : String
  name : String
  ob : String
  photo : String
  blocked : Bool
  lastMessage : String
  lastTs : ℤ
  deriving DecidableEq

structure MessageVM where
  id : String
  body : String
  ts : ℤ
  outgoing : Bool
  delivered : Bool
  deriving DecidableEq

structure ViewModel where
  page : String
  hasIdentity : Bool
  myPubkeyHex : String
  myPubkeyOb : String
  connStatus : String
  serverUrl : String
  profile : ProfileVM
  contacts : List ContactVM
  activePeer : String
  activePeerName : String
  activePeerOb : String
  activePeerBlocked : Bool
  messages : List MessageVM
  error : String
  deriving DecidableEq

/-- The nickname, else the name that the contact shares, else its truncated key. -/
def Contact.label (c : Contact) : String :=
  if c.nickname ≠ "" then c.nickname
  else if c.displayName ≠ "" then c.displayName
  else Phonemic.truncOb c.pubkey

def Page.name : Page → String
  | .conversations => "conversations"
  | .chat => "chat"
  | .addContact => "add_contact"
  | .settings => "settings"
  | .editProfile => "edit_profile"

def ConnStatus.name : ConnStatus → String
  | .offline => "offline"
  | .connecting => "connecting"
  | .online => "online"

def OwnProfile.vm (p : OwnProfile) : ProfileVM := ⟨p.displayName,p.bio,p.photo.getD ""⟩

/-- In an open chat the photos of all other contacts are withheld. -/
def contactVM (m : Model) (c : Contact) : ContactVM :=
  let last := m.messages[c.pubkey]?.bind List.getLast?
  { pubkey := c.pubkey
    name := c.label
    ob := Phonemic.hexToOb c.pubkey
    photo := if m.page = .chat ∧ c.pubkey ≠ m.activePeer.getD "" then "" else c.photo.getD ""
    blocked := c.blocked
    lastMessage := (last.map StoredMessage.body).getD ""
    lastTs := (last.map StoredMessage.ts).getD 0 }

def messageVM (msg : StoredMessage) : MessageVM :=
  ⟨msg.id,msg.body,msg.ts,msg.outgoing,msg.delivered⟩

/-- The later one comes first, and of two of one time the one whose name does. -/
def ContactVM.cmp (a b : ContactVM) : Ordering :=
  (compare b.lastTs a.lastTs).then (compare a.name b.name)

def view (m : Model) : ViewModel :=
  let activePeer := m.activePeer.getD ""
  let activeContact := m.contacts[activePeer]?
  { page := m.page.name
    hasIdentity := m.secretKey.isSome
    myPubkeyHex := m.myPubkey
    myPubkeyOb := Phonemic.hexToOb m.myPubkey
    connStatus := m.conn.name
    serverUrl := m.settings.serverUrl
    profile := m.profile.vm
    contacts := (m.contacts.values.map (contactVM m)).mergeSort fun a b => (a.cmp b).isLE
    activePeer
    activePeerName := activeContact.elim (Phonemic.truncOb activePeer) Contact.label
    activePeerOb := Phonemic.hexToOb activePeer
    activePeerBlocked := activeContact.any Contact.blocked
    messages := ((m.messages[activePeer]?).getD []).map messageVM
    error := m.error.getD "" }

/-- Contacts are in the order of this rank. -/
def ContactVM.rank (c : ContactVM) : ℤᵒᵈ ×ₗ String := toLex (OrderDual.toDual c.lastTs,c.name)

theorem ContactVM.cmp_isLE (a b : ContactVM) : (a.cmp b).isLE = decide (a.rank ≤ b.rank) := by
  rw [Bool.eq_iff_iff, decide_eq_true_eq, rank, rank, Prod.Lex.toLex_le_toLex, cmp,
    Ordering.isLE_then_iff_or, compare_lt_iff_lt, compare_eq_iff_eq, ← Ordering.ne_gt_iff_isLE,
    ← ne_eq, compare_le_iff_le]
  exact or_congr_right (and_congr_left' eq_comm)

/-- An entry of the list shows its contact and the newest message with it. -/
structure ContactVM.Shows (vm : ContactVM) (m : Model) (c : Contact) : Prop where
  label : vm.name = c.label
  blocked : vm.blocked = c.blocked
  photo : vm.photo = c.photo.getD "" ∨ vm.photo = "" ∧ m.page = .chat ∧ m.activePeer ≠ some c.pubkey
  newest : ∀ msg ∈ m.convo c.pubkey, msg.ts ≤ vm.lastTs
  last : m.convo c.pubkey = [] ∧ vm.lastMessage = "" ∧ vm.lastTs = 0 ∨
    ∃ msg ∈ m.convo c.pubkey, vm.lastMessage = msg.body ∧ vm.lastTs = msg.ts

/-- The list holds every contact once and nobody else, in one possible order, and an open chat shows its
conversation under the name that the list has for the peer. -/
structure ViewModel.Shows (v : ViewModel) (m : Model) : Prop where
  once : (v.contacts.map ContactVM.pubkey).Nodup
  everyone : ∀ (key : String) (c : Contact), m.contacts[key]? = some c → key ∈ v.contacts.map ContactVM.pubkey
  known : ∀ vm ∈ v.contacts, ∃ c, m.contacts[vm.pubkey]? = some c ∧ c.pubkey = vm.pubkey ∧ vm.Shows m c
  ordered : v.contacts.Pairwise fun a b => b.lastTs < a.lastTs ∨ a.lastTs = b.lastTs ∧
    (a.name < b.name ∨ a.name = b.name ∧ a.pubkey < b.pubkey)
  messages : v.messages.Pairwise (fun a b => a.ts ≤ b.ts) ∧ v.messages.length ≤ maxMessagesPerPeer
  chat : ∀ vm ∈ v.contacts, vm.pubkey = v.activePeer → v.activePeerName = vm.name ∧
    v.activePeerBlocked = vm.blocked ∧ vm.lastMessage = (v.messages.getLast?.map MessageVM.body).getD ""

section
variable {m : Model}

theorem mem_view_contacts {vm : ContactVM} :
    vm ∈ (view m).contacts ↔ ∃ (key : String) (c : Contact), m.contacts[key]? = some c ∧ contactVM m c = vm := by
  simp only [view, List.mem_mergeSort, List.mem_map, Maps.mem_values]
  constructor
  · rintro ⟨c,⟨key,hc⟩,rfl⟩
    exact ⟨key,c,hc,rfl⟩
  · rintro ⟨key,c,hc,rfl⟩
    exact ⟨c,⟨key,hc⟩,rfl⟩

/-- The last message of a conversation in order is its newest. -/
theorem getLast?_newest {convo : List StoredMessage} (h : convo.Pairwise fun a b => a.ts ≤ b.ts)
    {last : StoredMessage} (hlast : convo.getLast? = some last) : ∀ msg ∈ convo, msg.ts ≤ last.ts := by
  obtain ⟨init,rfl⟩ := List.getLast?_eq_some_iff.mp hlast
  intro msg hmsg
  obtain hmsg | hmsg := List.mem_append.mp hmsg
  · exact (List.pairwise_append.mp h).2.2 msg hmsg last List.mem_cons_self
  · rw [List.mem_singleton.mp hmsg]

theorem contactVM_shows (ho : m.Ordered) (c : Contact) : (contactVM m c).Shows m c := by
  have hlast : m.messages[c.pubkey]?.bind List.getLast? = (m.convo c.pubkey).getLast? := by
    rw [Model.convo]
    cases m.messages[c.pubkey]? <;> rfl
  have hconvo := (ho c.pubkey).1
  refine ⟨rfl,rfl,?_,?_,?_⟩
  · simp only [contactVM]
    split
    · rename_i h
      refine .inr ⟨rfl,h.1,fun hactive => h.2 ?_⟩
      rw [hactive, Option.getD_some]
    · exact .inl rfl
  · intro msg hmsg
    simp only [contactVM, hlast]
    cases hl : (m.convo c.pubkey).getLast? with
    | none =>
      rw [List.getLast?_eq_none_iff.mp hl] at hmsg
      simp at hmsg
    | some last => exact getLast?_newest hconvo hl msg hmsg
  · simp only [contactVM, hlast]
    cases hl : (m.convo c.pubkey).getLast? with
    | none => exact .inl ⟨List.getLast?_eq_none_iff.mp hl,rfl,rfl⟩
    | some last => exact .inr ⟨last,List.mem_of_getLast? hl,rfl,rfl⟩

/-- The values of the contacts come in the order of their keys. -/
theorem pairwise_contacts (hk : WellKeyed m.contacts) :
    (m.contacts.values.map (contactVM m)).Pairwise fun a b => a.pubkey < b.pubkey := by
  rw [List.pairwise_map, Maps.values_eq, List.pairwise_map]
  refine (Std.TreeMap.ordered_keys_toList (t := m.contacts)).imp_of_mem fun {a b} ha hb hab => ?_
  have hkey : ∀ p ∈ m.contacts.toList, p.2.pubkey = p.1 := fun p hp => hk p.1 p.2 (Maps.mem_toList.mp hp)
  simp only [contactVM, hkey a ha, hkey b hb]
  exact compare_lt_iff_lt.mp hab

/-- Equal times and names leave the contacts in the order of their keys. -/
theorem view_ordered (hk : WellKeyed m.contacts) :
    (view m).contacts.Pairwise fun a b => b.lastTs < a.lastTs ∨ a.lastTs = b.lastTs ∧
      (a.name < b.name ∨ a.name = b.name ∧ a.pubkey < b.pubkey) := by
  have hsort := StableSort.sorts_mergeSort ContactVM.rank (m.contacts.values.map (contactVM m))
  simp only [← ContactVM.cmp_isLE] at hsort
  refine (hsort.pairwise_lex (pairwise_contacts hk)).imp fun {a b} hab => ?_
  simp only [ContactVM.rank, Prod.Lex.toLex_lt_toLex, toLex_inj, Prod.mk.injEq, OrderDual.toDual_lt_toDual,
    OrderDual.toDual_inj] at hab
  obtain (hts | ⟨hts,hname⟩) | ⟨⟨hts,hname⟩,hkey⟩ := hab
  · exact .inl hts
  · exact .inr ⟨hts,.inl hname⟩
  · exact .inr ⟨hts,.inr ⟨hname,hkey⟩⟩

theorem view_shows (hk : WellKeyed m.contacts) (ho : m.Ordered) : (view m).Shows m := by
  have hmessages : (view m).messages = (m.convo (view m).activePeer).map messageVM := rfl
  refine ⟨?_,?_,?_,view_ordered hk,?_,?_⟩
  · have hperm : (view m).contacts.Perm (m.contacts.values.map (contactVM m)) := List.mergeSort_perm _ _
    refine (hperm.map ContactVM.pubkey).nodup_iff.mpr ?_
    rw [List.nodup_iff_pairwise_ne, List.pairwise_map]
    exact (pairwise_contacts hk).imp fun hlt => hlt.ne
  · intro key c hc
    refine List.mem_map.mpr ⟨contactVM m c,mem_view_contacts.mpr ⟨key,c,hc,rfl⟩,?_⟩
    exact hk key c hc
  · intro vm hvm
    obtain ⟨key,c,hc,rfl⟩ := mem_view_contacts.mp hvm
    obtain rfl := hk key c hc
    exact ⟨c,hc,rfl,contactVM_shows ho c⟩
  · rw [hmessages, List.pairwise_map, List.length_map]
    exact ho _
  · intro vm hvm hpeer
    obtain ⟨key,c,hc,rfl⟩ := mem_view_contacts.mp hvm
    obtain rfl := hk key c hc
    have hpeer : c.pubkey = m.activePeer.getD "" := hpeer
    rw [hmessages]
    simp only [view, contactVM, ← hpeer, hc, Option.elim_some, Option.any_some, List.getLast?_map, Model.convo]
    refine ⟨trivial,trivial,?_⟩
    cases m.messages[c.pubkey]? with
    | none => rfl
    | some convo =>
      simp only [Option.bind_some, Option.getD_some, Option.map_map]
      rfl

end

section
variable {x : Crates}

/-- A stored conversation is in the order of its times, and within the cap. -/
def Chronicled (value : Option KvValue) : Prop := ∀ list, value = some (.messages list) → Ordered list

theorem chronicled_some {list : List StoredMessage} (h : Ordered list) :
    Chronicled (some (.messages list)) := by
  intro list' heq
  obtain rfl := KvValue.messages.inj (Option.some.inj heq)
  exact h

theorem readsOrdered_of_reads {e : Event} {m : Model} (h : ∀ peer, e.Reads peer Ordered) :
    e.readsOrdered m = true := by
  unfold Event.readsOrdered
  split
  · rename_i peer list
    simp [h peer list rfl]
  · rfl

/-- An update writes conversations in order. -/
theorem update_chronicles {amb : Ambient} {e : Event} {m : Model} (h : m.Ordered) (peer : String) :
    ∀ c ∈ (update x amb e m).2, CmdFiles (fun p value => p = peer → Chronicled value) c := by
  refine update_files (fun _ p _ _ => ?_) (fun p _ _ => ?_) fun page id _ p _ _ => ?_
  · exact chronicled_some (sendText_ordered h p)
  · intro list heq
    cases heq
  · have hm : Model.Ordered { m with polling := false, pollRetries := 0 } := h
    exact chronicled_some (ingested_ordered hm p)

/-- A device keeps conversations in order, in memory and on disk. -/
theorem ordered_keeps : Device.Keeps (app x) kvStore (fun _ _ _ => True)
    (fun m => WellKeyed m.contacts ∧ m.Ordered) (fun e => ∀ peer, e.Reads peer Ordered)
    (fun f => ∀ peer, f.Careful peer Chronicled) (fun disk => ∀ peer, Chronicled (disk (.messages peer))) := by
  -- All but the updates concerns one conversation at a time.
  have hpeer : ∀ peer, Device.Keeps (app x) kvStore (fun _ _ m => m.Ordered) (fun _ => True)
      (Event.Reads peer Ordered) (Effect.Careful peer Chronicled)
      (fun disk => Chronicled (disk (.messages peer))) := fun peer =>
    conversation_keeps (fun list h => h list rfl) trivial fun amb e m hm _ _ =>
      ⟨trivial,update_chronicles hm peer⟩
  refine ⟨⟨fun k c hc => ?_,fun peer => ?_⟩,?_,?_,?_,?_,?_⟩
  · simp [app] at hc
  · simpa [app, Model.convo] using ordered_nil
  · rintro amb e m - ⟨hk,ho⟩ he
    have hkept := fun peer => (hpeer peer).update amb e m ho trivial (he peer)
    refine ⟨⟨update_keyed hk,(update_ordered_iff ho).mpr (readsOrdered_of_reads he)⟩,?_,?_⟩
    · exact fun f hf peer => (hkept peer).2.1 f hf
    · exact fun e' he' peer => (hkept peer).2.2 e' he'
  · exact fun e he peer => (hpeer peer).shell e he
  · exact fun f r e hf hop he peer => (hpeer peer).answer f r e (hf peer) hop he
  · intro f disk hf hd
    exact ⟨fun peer => ((hpeer peer).perform f disk (hf peer) (hd peer)).1,
      fun e he peer => ((hpeer peer).perform f disk (hf peer) (hd peer)).2 e he⟩
  · exact fun f e hf he peer => (hpeer peer).failed f e (hf peer) he

/-- On a phone from its first start on, whatever fails there and wherever the client is killed, the
screens show every contact once, in the order of the newest messages with them, which they show, and the
open conversation in the order of its times. -/
theorem screens_truthful {hs : List (Happening Ambient Event Answer)} {d : Phone}
    (hrun : Lts.run (Phone.step x) (freshInstall x) hs = some d) :
    (view d.core.model).Shows d.core.model := by
  have hmeets : Device.Meets (app x) kvStore (fun _ _ _ => True) (freshInstall x) hs :=
    Device.meets_of_reads (app x) kvStore fun _ _ _ _ => trivial
  have hsound := ordered_keeps.run (fun peer list h => by simp at h) hmeets hrun
  exact view_shows hsound.good.1 hsound.good.2

end

/-- Two contacts are added, and a text goes to the first. -/
def sampleScreens : List (Happening Ambient Event Answer) :=
  sampleActs [.shell (.identityLoaded sampleSecret),.shell (.addContact (samplePeer 7) "b"),
    .shell (.addContact (samplePeer 8) "a")] ++ sampleSaying

theorem screens_truthful_two : ∃ d,
    Lts.run (Phone.step .sample) (freshInstall .sample) sampleScreens = some d ∧
    d.core.model.contacts.size = 2 ∧ (view d.core.model).messages.length = 1 ∧
    (view d.core.model).Shows d.core.model := by
  have hrun : (Lts.run (Phone.step .sample) (freshInstall .sample) sampleScreens).any (fun d =>
      d.core.model.contacts.size = 2 ∧ (view d.core.model).messages.length = 1) = true := by decide +kernel
  obtain ⟨d,hd,hshown⟩ := Option.any_eq_true _ _ |>.mp hrun
  obtain ⟨hsize,hlength⟩ := of_decide_eq_true hshown
  exact ⟨d,hd,hsize,hlength,screens_truthful hd⟩

end Skrepka.Client
