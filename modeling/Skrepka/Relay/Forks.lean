import Skrepka.Relay.Rows

/-! Forwards are staged by two handlers: a send stages those to the peers that hold live presence of
its recipient, and gossip forks a task that stages those of the mail that waits for the keys that come
online. Each decides by its own reading of the clock. -/
namespace Skrepka.Relay
open Sequenced

variable (cfg : Config)

/-- A relay with the tasks that its gossip handlers have forked. -/
structure Forking where
  relay : State := {}
  forked : List (List Text × Text) := []

inductive ForkAct
  | commit (txn : Txn)
  | task (n : ℕ)

/-- What a handler forks after its transaction. -/
def forks (s : State) : Txn → List (List Text × Text)
  | .recvGossip events fromServer t =>
    if refusesGossip cfg events fromServer then []
    else [(newlyOnline events fromServer t s.presence,fromServer)]
  | _ => []

def forkingStep (s : Forking) : ForkAct → Option Forking
  | .commit txn => some ⟨commit cfg s.relay txn,s.forked ++ forks cfg s.relay txn⟩
  | .task n => s.forked[n]?.map fun task =>
    ⟨forwardQueuedToAll cfg task.1 task.2 s.relay,s.forked.eraseIdx n⟩

/-- A row that a send has filed or found, and the clock reading of the send. -/
structure Sent where
  toKey : Text
  encryptedBlob : Text
  receivedAt : ℤ
  t : ℤ
  deriving DecidableEq

/-- The rows of a recipient and a blob, as sent at some time. -/
def sentRows (toKey blob : Text) (t : ℤ) (msgs : List Message) : List Sent :=
  (msgs.filter fun m => m.toKey = toKey && m.encryptedBlob = blob).map fun m =>
    ⟨m.toKey,m.encryptedBlob,m.receivedAt,t⟩

def sentAll (pres : List PresenceEntry) (t : ℤ) : List Envelope → State → List Sent
  | [], _ => []
  | m :: messages, s =>
    let s := sendOne cfg pres t s m
    sentRows m.toKey m.encryptedBlob t s.mail.messages ++ sentAll pres t messages s

def sends (s : State) : ForkAct → List Sent
  | .commit (.sendMessages messages senderKey t) =>
    if validateBatch cfg messages senderKey = none then sentAll cfg s.presence t messages s else []
  | _ => []

/-- What an observer has seen sent, and what it has seen queued. -/
structure Journal where
  sent : List Sent := []
  queued : List ForwardEntry := []

def noteForwards (s : Forking) (act : ForkAct) (s' : Forking) (log : Journal) : Journal :=
  ⟨log.sent ++ sends cfg s.relay act,log.queued ++ s'.relay.forwards⟩

abbrev stepForking : Forking × Journal → ForkAct → Option (Forking × Journal) :=
  Lts.watch (forkingStep cfg) (noteForwards cfg)

/-- No cap on forwards is reached. -/
structure Uncapped (s : State) : Prop where
  total : (s.forwards.length : ℤ) < cfg.maxForwardsTotal
  perServer : ∀ server, (s.forwards.countP (fun f => f.toServer = server) : ℤ) <
    cfg.maxForwardsPerServer
  remote : ∀ pk, ((collectPeers cfg (s.presence.filter fun p => p.pubkey = pk)
    PresenceEntry.server).length : ℤ) < cfg.maxRemoteServersPerMessage

/-- Gossip that finds an older row still live by its clock finds that every send to its key before
found it live too. -/
def InOrder (s : Forking × Journal) : ForkAct → Prop
  | .commit (.recvGossip events fromServer t) =>
    ∀ p ∈ s.1.relay.presence, p.pubkey ∈ announced "online" events → p.server = fromServer →
      t < p.expiresAt → ∀ r ∈ s.2.sent, r.toKey = p.pubkey → r.t < p.expiresAt
  | _ => True

/-- A row that was sent, as it is in the mailbox now. -/
def Sent.names (r : Sent) (m : Message) : Prop :=
  m.toKey = r.toKey ∧ m.encryptedBlob = r.encryptedBlob ∧ m.receivedAt = r.receivedAt

/-- Whatever was sent and is in the mailbox is taken care of for every peer with presence of its
recipient: a forward was queued, or the peer has got it, or a task will see to it, or the presence was
not live when it was sent. -/
def Handled (s : State) (forked : List (List Text × Text)) (sent : List Sent)
    (queued : List ForwardEntry) : Prop :=
  ∀ r ∈ sent, ∀ m ∈ s.mail.messages, r.names m →
    ∀ p ∈ s.presence, p.pubkey = r.toKey → isLocalServer cfg p.server = false →
      queued.any (forwardMatches r.toKey r.encryptedBlob p.server) = true ∨
      p.server ∈ m.deliveredTo ∨
      (∃ task ∈ forked, r.toKey ∈ task.1 ∧ task.2 = p.server) ∨ p.expiresAt ≤ r.t

namespace Mailbox

/-- A later mailbox: its rows are new, or were there before and have only been delivered since. -/
def Ages (s s' : Mailbox) : Prop :=
  currentSeq s.seqCounter ≤ currentSeq s'.seqCounter ∧
    ∀ m ∈ s'.messages, m.receivedAt ≤ currentSeq s.seqCounter →
      ∃ m' ∈ s.messages, SameRow m' m ∧ m'.deliveredTo ⊆ m.deliveredTo

theorem ages_of_subset {s s' : Mailbox} (hseq : s'.seqCounter = s.seqCounter)
    (h : s'.messages ⊆ s.messages) : Ages s s' :=
  ⟨by rw [hseq],fun m hm _ => ⟨m,h hm,⟨rfl,rfl,rfl⟩,fun _ h => h⟩⟩

theorem Ages.refl (s : Mailbox) : Ages s s := ages_of_subset rfl fun _ h => h

theorem Ages.trans {s₁ s₂ s₃ : Mailbox} (h₁ : Ages s₁ s₂) (h₂ : Ages s₂ s₃) : Ages s₁ s₃ := by
  refine ⟨h₁.1.trans h₂.1,fun m hm hle => ?_⟩
  obtain ⟨m₂,hm₂,hsame₂,hsub₂⟩ := h₂.2 m hm (hle.trans h₁.1)
  obtain ⟨m₁,hm₁,hsame₁,hsub₁⟩ := h₁.2 m₂ hm₂ (hsame₂.2.2 ▸ hle)
  exact ⟨m₁,hm₁,hsame₁.trans hsame₂,fun _ h => hsub₂ (hsub₁ h)⟩

theorem apply_ages {s : Mailbox} (h : s.Wf) (op : Op) : Ages s (s.apply cfg op) := by
  refine ⟨(added_seq cfg s op).2,fun m hm hle => ?_⟩
  cases op with
  | append toKey blob t =>
    cases hstored : stored toKey blob s.messages with
    | true =>
      rw [apply, appendMessage_of_stored cfg t hstored] at hm
      exact ⟨m,hm,⟨rfl,rfl,rfl⟩,fun _ h => h⟩
    | false =>
      rw [apply, appendMessage_messages cfg h hstored] at hm
      obtain hm | hm := List.mem_append.mp hm
      · exact ⟨m,(survivors_subperm cfg toKey s.messages).subset hm,⟨rfl,rfl,rfl⟩,fun _ h => h⟩
      · rw [List.mem_singleton.mp hm] at hle
        have := newRow_fresh toKey blob t s
        omega
  | ack | prune => exact ⟨m,List.mem_of_mem_filter hm,⟨rfl,rfl,rfl⟩,fun _ h => h⟩
  | mark toKey blob server =>
    obtain ⟨m',hm',rfl⟩ := List.mem_map.mp hm
    obtain ⟨hkey,hblob⟩ := mark_blob toKey blob server m'
    refine ⟨m',hm',⟨hkey.symm,hblob.symm,(mark_receivedAt toKey blob server m').symm⟩,?_⟩
    unfold Mailbox.mark
    split
    · exact List.subset_append_left _ _
    · exact fun _ h => h

theorem foldl_ages {s : Mailbox} (h : s.Wf) (ops : List Op) :
    Ages s (ops.foldl (Mailbox.apply cfg) s) := by
  induction ops generalizing s with
  | nil => exact .refl s
  | cons op ops ih => exact (apply_ages cfg h op).trans (ih (h.apply cfg op))

end Mailbox

variable {cfg}

theorem mem_union {α : Type} [DecidableEq α] {rows more : List α} {a : α} :
    a ∈ union rows more ↔ a ∈ rows ∨ a ∈ more := by
  by_cases ha : a ∈ rows <;> simp [union, ha]

theorem refreshed_presence {pubkey : Text} {expiry : ℤ} {s : State} {p : PresenceEntry}
    (hp : p ∈ (refreshLocalPresence cfg pubkey expiry s).presence)
    (hremote : isLocalServer cfg p.server = false) : p ∈ s.presence := by
  obtain hp | hp := mem_union.mp hp
  · exact List.mem_of_mem_filter hp
  · rw [List.mem_singleton.mp hp] at hremote
    simp [isLocalServer] at hremote

theorem sendAll_presence (pres : List PresenceEntry) (t : ℤ) (messages : List Envelope) (s : State) :
    (messages.foldl (sendOne cfg pres t) s).presence = s.presence := by
  induction messages generalizing s with
  | nil => rfl
  | cons m messages ih => exact ih (sendOne cfg pres t s m)

/-- Only gossip brings presence at other servers. -/
theorem commit_presence {s : State} {txn : Txn}
    (h : ∀ events server t, txn ≠ .recvGossip events server t) {p : PresenceEntry} (hp : p ∈ (commit cfg s txn).presence)
    (hremote : isLocalServer cfg p.server = false) : p ∈ s.presence := by
  cases txn with
  | recvGossip events server t => exact absurd rfl (h events server t)
  | sendMessages messages senderKey t =>
    simp only [commit, handleSendMessages] at hp
    split at hp
    · exact hp
    · rwa [sendAll_presence] at hp
  | forwardMessage toKey blob t =>
    simp only [commit, handleForwardMessage] at hp
    split at hp
    · exact hp
    split at hp <;> exact hp
  | verifyAuth pubkey t => exact refreshed_presence hp hremote
  | setupPoll pubkey cursor t =>
    simp only [commit, setupPoll] at hp
    split at hp <;> split at hp
    · exact refreshed_presence hp hremote
    · exact hp
    · exact refreshed_presence hp hremote
    · exact hp
  | prune t => exact List.mem_of_mem_filter hp
  | forwardQueued | forwardAccepted | forwardRetried | dropServer => exact hp

theorem commit_ages {s : State} (h : s.mail.Wf) (txn : Txn) :
    Mailbox.Ages s.mail (commit cfg s txn).mail := by
  rw [commit_mail]
  exact Mailbox.foldl_ages cfg h _

/-- What was handled stays so while the mailbox ages and no presence comes up. -/
theorem Handled.ages {s s' : State} {forked forked' : List (List Text × Text)} {sent : List Sent}
    {queued queued' : List ForwardEntry} (h : Handled cfg s forked sent queued)
    (hsent : ∀ r ∈ sent, r.receivedAt ≤ currentSeq s.mail.seqCounter)
    (hmail : Mailbox.Ages s.mail s'.mail)
    (hpresence : ∀ p ∈ s'.presence, isLocalServer cfg p.server = false → p ∈ s.presence)
    (hforked : ∀ task ∈ forked, task ∈ forked') (hqueued : queued ⊆ queued') :
    Handled cfg s' forked' sent queued' := by
  intro r hr m hm hnames p hp hkey hremote
  obtain ⟨m',hm',⟨hkey',hblob',hnumber⟩,hsub⟩ := hmail.2 m hm (hnames.2.2 ▸ hsent r hr)
  have hnames' : r.names m' :=
    ⟨hkey'.trans hnames.1,hblob'.trans hnames.2.1,hnumber.trans hnames.2.2⟩
  obtain hq | hd | ⟨task,htask,htask'⟩ | hlate :=
    h r hr m' hm' hnames' p (hpresence p hp hremote) hkey hremote
  · left
    obtain ⟨f,hf,hmatch⟩ := List.any_eq_true.mp hq
    exact List.any_eq_true.mpr ⟨f,hqueued hf,hmatch⟩
  · exact .inr (.inl (hsub hd))
  · exact .inr (.inr (.inl ⟨task,hforked task htask,htask'⟩))
  · exact .inr (.inr (.inr hlate))

/-- Room for one more forward at least, of each peer's and of all. -/
structure Spare (cfg : Config) (fwds : List ForwardEntry) : Prop where
  total : (fwds.length : ℤ) < cfg.maxForwardsTotal
  perServer : ∀ server, (fwds.countP (fun f => f.toServer = server) : ℤ) < cfg.maxForwardsPerServer

/-- When the cap leaves room it has cut nothing. -/
theorem capForwards_perm {fwds : List ForwardEntry}
    (h : ((capForwards cfg fwds).length : ℤ) < cfg.maxForwardsTotal) :
    (capForwards cfg fwds).Perm fwds := by
  have hperm := List.perm_insertionSort (fun a b : ForwardEntry => a.retries < b.retries ∨
    a.retries = b.retries ∧ a.encryptedBlob ≤ b.encryptedBlob) fwds
  have hlen := hperm.length_eq
  simp only [capForwards, List.length_take] at h ⊢
  rw [List.take_of_length_le (by omega)]
  exact hperm

/-- Rows that were added within the caps are there, and so is what was there before. -/
theorem spare_of_capped {fwds new : List ForwardEntry}
    (h : Spare cfg (capForwards cfg (union fwds new))) :
    Spare cfg fwds ∧ ∀ f, f ∈ capForwards cfg (union fwds new) ↔ f ∈ fwds ∨ f ∈ new := by
  have hperm := capForwards_perm h.total
  have hsub : fwds.Sublist (union fwds new) := List.sublist_append_left _ _
  have htotal := h.total
  rw [hperm.length_eq] at htotal
  refine ⟨⟨?_,fun server => ?_⟩,fun f => ?_⟩
  · have := hsub.length_le
    omega
  · have hper := h.perServer server
    rw [hperm.countP_eq] at hper
    have := hsub.countP_le (p := fun f => f.toServer = server)
    omega
  · rw [hperm.mem_iff, mem_union]

/-- A send goes to every peer with live presence of its recipient. -/
theorem mem_remoteServers {pres : List PresenceEntry} {p : PresenceEntry} {t : ℤ}
    (hroom : ((collectPeers cfg (pres.filter fun q => q.pubkey = p.pubkey)
      PresenceEntry.server).length : ℤ) < cfg.maxRemoteServersPerMessage)
    (hp : p ∈ pres) (hremote : isLocalServer cfg p.server = false) (hlive : t < p.expiresAt) :
    p.server ∈ remoteServers cfg pres p.pubkey t := by
  have hmem : p.server ∈ collectPeers cfg
      (pres.filter fun q => q.pubkey = p.pubkey && q.expiresAt > t) PresenceEntry.server := by
    refine List.mem_dedup.mpr (List.mem_filter.mpr ⟨List.mem_map.mpr ⟨p,?_,rfl⟩,by simp [hremote]⟩)
    exact List.mem_filter.mpr ⟨hp,by simpa using hlive⟩
  have hless : (collectPeers cfg (pres.filter fun q => q.pubkey = p.pubkey && q.expiresAt > t)
      PresenceEntry.server).length ≤
        (collectPeers cfg (pres.filter fun q => q.pubkey = p.pubkey) PresenceEntry.server).length := by
    refine (List.subperm_of_subset (List.nodup_dedup _) fun server hserver => ?_).length_le
    simp only [collectPeers, List.mem_dedup, List.mem_filter, List.mem_map, Bool.and_eq_true] at hserver ⊢
    obtain ⟨⟨q,⟨hq,hkey,-⟩,rfl⟩,hq'⟩ := hserver
    exact ⟨⟨q,⟨hq,hkey⟩,rfl⟩,hq'⟩
  rw [remoteServers, List.take_of_length_le (by omega)]
  exact hmem

/-- What the relay finds that the peers have of a stored blob is what its row says. -/
theorem Mailbox.Wf.delivered_eq {mail : Mailbox} (hwf : mail.Wf) {m : Message} (hm : m ∈ mail.messages) :
    delivered m.toKey m.encryptedBlob mail.messages = m.deliveredTo := by
  cases hfind : mail.messages.find? fun r => r.toKey = m.toKey && r.encryptedBlob = m.encryptedBlob with
  | none =>
    have := List.find?_eq_none.mp hfind m hm
    simp at this
  | some m₀ =>
    obtain ⟨hkey,hblob⟩ : m₀.toKey = m.toKey ∧ m₀.encryptedBlob = m.encryptedBlob := by
      simpa using List.find?_some hfind
    obtain rfl : m₀ = m := List.inj_on_of_nodup_map hwf.blobs (List.mem_of_find?_eq_some hfind) hm
      (Prod.ext hkey hblob)
    simp [delivered, hfind]

theorem stored_of_delivered {toKey blob : Text} {msgs : List Message} {server : Text}
    (h : server ∈ delivered toKey blob msgs) : Mailbox.stored toKey blob msgs = true := by
  cases hfind : msgs.find? fun m => m.toKey = toKey && m.encryptedBlob = blob with
  | none => simp [delivered, hfind] at h
  | some m =>
    have hmatch := List.find?_some hfind
    exact List.any_eq_true.mpr ⟨m,List.mem_of_find?_eq_some hfind,hmatch⟩

/-- What a peer has been found to have is what the stored row says. -/
theorem delivered_of_stored {toKey blob : Text} {t : ℤ} {mail : Mailbox} {server : Text}
    (hwf : mail.Wf) (h : server ∈ delivered toKey blob mail.messages) {m : Message}
    (hm : m ∈ (mail.appendMessage cfg toKey blob t).messages) (hkey : m.toKey = toKey)
    (hblob : m.encryptedBlob = blob) : server ∈ m.deliveredTo := by
  rw [Mailbox.appendMessage_of_stored cfg t (stored_of_delivered h)] at hm
  subst hkey hblob
  rwa [hwf.delivered_eq hm] at h

theorem queued_any_append {queued fwds : List ForwardEntry} {p : ForwardEntry → Bool} :
    (queued ++ fwds).any p = true ↔ queued.any p = true ∨ fwds.any p = true := by
  simp [List.any_append]

/-- One message of a batch is handled once it is filed. -/
theorem Handled.sendOne {pres : List PresenceEntry} {t : ℤ} {s : State} {m : Envelope}
    {forked : List (List Text × Text)} {sent : List Sent} {queued : List ForwardEntry}
    (h : Handled cfg s forked sent (queued ++ s.forwards)) (hfed : cfg.federationEnabled = true)
    (hwf : s.mail.Wf) (hpres : s.presence = pres)
    (hroom : ∀ pk, ((collectPeers cfg (pres.filter fun q => q.pubkey = pk)
      PresenceEntry.server).length : ℤ) < cfg.maxRemoteServersPerMessage)
    (hspare : Spare cfg (Relay.sendOne cfg pres t s m).forwards)
    (hsent : ∀ r ∈ sent, r.receivedAt ≤ currentSeq s.mail.seqCounter) :
    Handled cfg (Relay.sendOne cfg pres t s m) forked
      (sent ++ sentRows m.toKey m.encryptedBlob t (Relay.sendOne cfg pres t s m).mail.messages)
      (queued ++ (Relay.sendOne cfg pres t s m).forwards) := by
  have hmail : (Relay.sendOne cfg pres t s m).mail =
      s.mail.appendMessage cfg m.toKey m.encryptedBlob t := rfl
  have hforwards : (Relay.sendOne cfg pres t s m).forwards =
      stageForwards cfg m.toKey m.encryptedBlob (remoteServers cfg pres m.toKey t)
        (delivered m.toKey m.encryptedBlob s.mail.messages) s.forwards := by
    simp only [Relay.sendOne, hfed, if_true]
  have hspare' := hspare
  rw [hforwards, stageForwards] at hspare'
  obtain ⟨hspare₀,hmem⟩ := spare_of_capped hspare'
  have hgrows : s.forwards ⊆ (Relay.sendOne cfg pres t s m).forwards := by
    intro f hf
    rw [hforwards]
    exact (hmem f).mpr (.inl hf)
  intro r hr m' hm' hnames p hp hkey hremote
  obtain hr | hr := List.mem_append.mp hr
  · refine h.ages hsent (Mailbox.apply_ages cfg hwf (.append m.toKey m.encryptedBlob t)) ?_
      (fun _ h => h) ?_ r hr m' hm' hnames p hp hkey hremote
    · exact fun p hp _ => hp
    · exact fun f hf => List.mem_append.mpr ((List.mem_append.mp hf).imp id fun hf => hgrows hf)
  · obtain ⟨m₁,hm₁,rfl⟩ := List.mem_map.mp hr
    obtain ⟨hkey₁,hblob₁⟩ : m₁.toKey = m.toKey ∧ m₁.encryptedBlob = m.encryptedBlob := by
      simpa using (List.mem_filter.mp hm₁).2
    simp only [hkey₁, hblob₁] at hnames hkey ⊢
    by_cases hlive : p.expiresAt ≤ t
    · exact .inr (.inr (.inr hlive))
    have hserver : p.server ∈ remoteServers cfg pres m.toKey t :=
      hkey ▸ mem_remoteServers (hroom _) (hpres ▸ hp) hremote (by omega)
    by_cases hqueued : s.forwards.any (forwardMatches m.toKey m.encryptedBlob p.server) = true
    · obtain ⟨f,hf,hmatch⟩ := List.any_eq_true.mp hqueued
      exact .inl (queued_any_append.mpr (.inr (List.any_eq_true.mpr ⟨f,hgrows hf,hmatch⟩)))
    by_cases hhad : p.server ∈ delivered m.toKey m.encryptedBlob s.mail.messages
    · exact .inr (.inl (delivered_of_stored (t := t) hwf hhad hm' hnames.1 hnames.2.1))
    · left
      refine queued_any_append.mpr (.inr (List.any_eq_true.mpr
        ⟨⟨p.server,m.toKey,m.encryptedBlob,0⟩,?_,by simp [forwardMatches]⟩))
      rw [hforwards]
      refine (hmem _).mpr (.inr (List.mem_map.mpr ⟨p.server,List.mem_filter.mpr ⟨hserver,?_⟩,rfl⟩))
      have hroom := hspare₀.perServer p.server
      simp [hqueued, hhad, hroom]

theorem sendAll_spare {pres : List PresenceEntry} {t : ℤ} {messages : List Envelope} {s : State}
    (hfed : cfg.federationEnabled = true)
    (h : Spare cfg (messages.foldl (sendOne cfg pres t) s).forwards) : Spare cfg s.forwards := by
  induction messages generalizing s with
  | nil => exact h
  | cons m messages ih =>
    have hnext := ih h
    simp only [sendOne, hfed, if_true, stageForwards] at hnext
    exact (spare_of_capped hnext).1

/-- And so is a whole batch. -/
theorem Handled.sendAll {pres : List PresenceEntry} {t : ℤ} {messages : List Envelope} {s : State}
    {forked : List (List Text × Text)} {sent : List Sent} {queued : List ForwardEntry}
    (h : Handled cfg s forked sent (queued ++ s.forwards)) (hfed : cfg.federationEnabled = true)
    (hwf : s.mail.Wf) (hpres : s.presence = pres)
    (hroom : ∀ pk, ((collectPeers cfg (pres.filter fun q => q.pubkey = pk)
      PresenceEntry.server).length : ℤ) < cfg.maxRemoteServersPerMessage)
    (hspare : Spare cfg (messages.foldl (Relay.sendOne cfg pres t) s).forwards)
    (hsent : ∀ r ∈ sent, r.receivedAt ≤ currentSeq s.mail.seqCounter) :
    Handled cfg (messages.foldl (Relay.sendOne cfg pres t) s) forked
        (sent ++ Relay.sentAll cfg pres t messages s)
        (queued ++ (messages.foldl (Relay.sendOne cfg pres t) s).forwards) ∧
      ∀ r ∈ sent ++ Relay.sentAll cfg pres t messages s,
        r.receivedAt ≤ currentSeq (messages.foldl (Relay.sendOne cfg pres t) s).mail.seqCounter := by
  induction messages generalizing s sent with
  | nil => simpa [Relay.sentAll] using ⟨h,hsent⟩
  | cons m messages ih =>
    have hmail : (Relay.sendOne cfg pres t s m).mail =
        s.mail.apply cfg (.append m.toKey m.encryptedBlob t) := rfl
    have hwf' : (Relay.sendOne cfg pres t s m).mail.Wf := hmail ▸ hwf.apply cfg _
    have hnext := h.sendOne hfed hwf hpres hroom (sendAll_spare hfed hspare) hsent
    have hall := ih hnext hwf' hpres hspare fun r hr => ?_
    · rwa [List.append_assoc] at hall
    · obtain hr | hr := List.mem_append.mp hr
      · exact (hsent r hr).trans (hmail ▸ (Mailbox.apply_ages cfg hwf _).1)
      · obtain ⟨m',hm',rfl⟩ := List.mem_map.mp hr
        exact hwf'.issued m' (List.mem_of_mem_filter hm')

/-- What a task is to see to. -/
def unforwarded (pubkeys : List Text) (server : Text) (s : State) : List Message :=
  s.mail.messages.filter fun m => pubkeys.contains m.toKey &&
    !(s.forwards.any (forwardMatches m.toKey m.encryptedBlob server)) && !m.deliveredTo.contains server

/-- A task that leaves room has queued a forward of all of it. -/
theorem forwardQueuedToAll_queues {pubkeys : List Text} {server : Text} {s : State}
    (hspare : Spare cfg (forwardQueuedToAll cfg pubkeys server s).forwards) {m : Message}
    (hm : m ∈ s.mail.messages) (hkey : m.toKey ∈ pubkeys) (hnot : server ∉ m.deliveredTo) :
    (forwardQueuedToAll cfg pubkeys server s).forwards.any
      (forwardMatches m.toKey m.encryptedBlob server) = true := by
  let existing := s.forwards.countP fun f => f.toServer = server
  let budget := (max 0 (cfg.maxForwardsPerServer-existing)).toNat
  let new := ((sortBy Message.receivedAt (unforwarded pubkeys server s)).take budget).map fun m =>
    (⟨server,m.toKey,m.encryptedBlob,0⟩ : ForwardEntry)
  have hforwards : (forwardQueuedToAll cfg pubkeys server s).forwards =
      capForwards cfg (union s.forwards new) := rfl
  rw [hforwards] at hspare ⊢
  obtain ⟨hspare₀,hmem⟩ := spare_of_capped hspare
  by_cases hqueued : s.forwards.any (forwardMatches m.toKey m.encryptedBlob server) = true
  · obtain ⟨f,hf,hmatch⟩ := List.any_eq_true.mp hqueued
    exact List.any_eq_true.mpr ⟨f,(hmem f).mpr (.inl hf),hmatch⟩
  have hcandidate : m ∈ unforwarded pubkeys server s :=
    List.mem_filter.mpr ⟨hm,by simp [hkey, hnot, hqueued]⟩
  have hfresh : ∀ f ∈ new, f.toServer = server ∧ f ∉ s.forwards := by
    intro f hf
    obtain ⟨m',hm',rfl⟩ := List.mem_map.mp hf
    refine ⟨rfl,fun hold => ?_⟩
    have hm' := (List.mem_filter.mp ((mem_sortBy _).mp (List.mem_of_mem_take hm'))).2
    have hmatch : s.forwards.any (forwardMatches m'.toKey m'.encryptedBlob server) = true :=
      List.any_eq_true.mpr ⟨_,hold,by simp [forwardMatches]⟩
    simp [hmatch] at hm'
  have hcount : (existing+new.length : ℤ) < cfg.maxForwardsPerServer := by
    have hper := hspare.perServer server
    have hunion : union s.forwards new = s.forwards ++ new := by
      rw [union, List.filter_eq_self.mpr fun f hf => by simp [(hfresh f hf).2]]
    rw [(capForwards_perm hspare.total).countP_eq, hunion, List.countP_append,
      (List.countP_eq_length (l := new)).mpr fun f hf => by simp [(hfresh f hf).1]] at hper
    push_cast at hper
    exact hper
  have hlen : new.length = min budget (unforwarded pubkeys server s).length := by
    rw [List.length_map, List.length_take, length_sortBy]
  refine List.any_eq_true.mpr ⟨⟨server,m.toKey,m.encryptedBlob,0⟩,(hmem _).mpr (.inr ?_),
    by simp [forwardMatches]⟩
  refine List.mem_map.mpr ⟨m,?_,rfl⟩
  rw [List.take_of_length_le (by rw [length_sortBy]; omega)]
  exact (mem_sortBy _).mpr hcandidate

theorem Handled.task {n : ℕ} {pubkeys : List Text} {server : Text} {s : State}
    {forked : List (List Text × Text)} {sent : List Sent} {queued : List ForwardEntry}
    (h : Handled cfg s forked sent queued)
    (hspare : Spare cfg (forwardQueuedToAll cfg pubkeys server s).forwards)
    (hn : forked[n]? = some (pubkeys,server)) :
    Handled cfg (forwardQueuedToAll cfg pubkeys server s) (forked.eraseIdx n) sent
      (queued ++ (forwardQueuedToAll cfg pubkeys server s).forwards) := by
  intro r hr m hm hnames p hp hkey hremote
  by_cases hd : p.server ∈ m.deliveredTo
  · exact .inr (.inl hd)
  obtain hq | hd | ⟨task,htask,hkeys,hserver⟩ | hlate := h r hr m hm hnames p hp hkey hremote
  · exact .inl (queued_any_append.mpr (.inl hq))
  · exact .inr (.inl hd)
  · by_cases hthis : task = (pubkeys,server)
    · subst hthis
      obtain rfl : server = p.server := hserver
      left
      refine queued_any_append.mpr (.inr ?_)
      have := forwardQueuedToAll_queues hspare hm (hnames.1 ▸ hkeys) hd
      rwa [hnames.1, hnames.2.1] at this
    · obtain ⟨k,hk⟩ := List.mem_iff_getElem?.mp htask
      refine .inr (.inr (.inl ⟨task,?_,hkeys,hserver⟩))
      refine List.mem_eraseIdx_iff_getElem?.mpr ⟨k,?_,hk⟩
      rintro rfl
      exact hthis (Option.some.inj (hk.symm.trans hn))
  · exact .inr (.inr (.inr hlate))

theorem mem_capList {items : List PresenceEntry} {n : ℤ} {p : PresenceEntry}
    (hp : p ∈ capList items n) : p ∈ items :=
  (mem_sortBy PresenceEntry.expiresAt).mp (List.mem_of_mem_drop hp)

/-- Presence after gossip was there before, or is what the gossip announces. -/
theorem mem_mergePresence {events : List GossipEvent} {server : Text} {t : ℤ}
    {pres : List PresenceEntry} {p : PresenceEntry} (hp : p ∈ mergePresence cfg events server t pres) :
    p ∈ pres ∨ p.pubkey ∈ announced "online" events ∧ p.server = server := by
  have hmerged : ∀ q : PresenceEntry, q ∈ union (pres.filter fun p => p.server ≠ server ||
      !(announced "online" events ++ announced "offline" events).contains p.pubkey)
      ((announced "online" events).dedup.map fun pk =>
        (⟨pk,server,t+cfg.onlineGossipTtl⟩ : PresenceEntry)) →
      q ∈ pres ∨ q.pubkey ∈ announced "online" events ∧ q.server = server := by
    intro q hq
    obtain hq | hq := mem_union.mp hq
    · exact .inl (List.mem_of_mem_filter hq)
    · obtain ⟨pk,hpk,rfl⟩ := List.mem_map.mp hq
      exact .inr ⟨List.mem_dedup.mp hpk,rfl⟩
  refine hmerged p ?_
  obtain hp | hp := mem_union.mp hp
  · exact List.mem_of_mem_filter hp
  · obtain hp | hp := mem_union.mp (mem_capList hp)
    · exact List.mem_of_mem_filter (List.mem_of_mem_filter hp)
    · exact List.mem_of_mem_filter (List.mem_of_mem_filter (mem_capList hp))

/-- Gossip in order leaves nothing unhandled: the keys that it brings up are left to its task, or were
live at every send. -/
theorem Handled.gossip {events : List GossipEvent} {server : Text} {t : ℤ} {s : State}
    {forked : List (List Text × Text)} {sent : List Sent} {queued queued' : List ForwardEntry}
    (h : Handled cfg s forked sent queued)
    (horder : ∀ p ∈ s.presence, p.pubkey ∈ announced "online" events → p.server = server →
      t < p.expiresAt → ∀ r ∈ sent, r.toKey = p.pubkey → r.t < p.expiresAt)
    (hqueued : queued ⊆ queued') :
    Handled cfg (commit cfg s (.recvGossip events server t))
      (forked ++ forks cfg s (.recvGossip events server t)) sent queued' := by
  have hmail : (commit cfg s (.recvGossip events server t)).mail = s.mail := by
    simp only [commit, handleRecvGossip]
    split <;> rfl
  intro r hr m hm hnames p hp hkey hremote
  rw [hmail] at hm
  have hold : ∀ q ∈ s.presence, q.pubkey = r.toKey → q.server = p.server →
      queued'.any (forwardMatches r.toKey r.encryptedBlob p.server) = true ∨
      p.server ∈ m.deliveredTo ∨
      (∃ task ∈ forked ++ forks cfg s (.recvGossip events server t),
        r.toKey ∈ task.1 ∧ task.2 = p.server) ∨ q.expiresAt ≤ r.t := by
    intro q hq hqkey hqserver
    have hcase := h r hr m hm hnames q hq hqkey (hqserver ▸ hremote)
    rw [hqserver] at hcase
    refine hcase.imp (fun hany => ?_) (Or.imp_right (Or.imp_left ?_))
    · obtain ⟨f,hf,hmatch⟩ := List.any_eq_true.mp hany
      exact List.any_eq_true.mpr ⟨f,hqueued hf,hmatch⟩
    · rintro ⟨task,htask,hrest⟩
      exact ⟨task,List.mem_append_left _ htask,hrest⟩
  cases hrefused : refusesGossip cfg events server with
  | true =>
    simp only [commit, handleRecvGossip, hrefused, if_true] at hp
    exact hold p hp hkey rfl
  | false =>
    simp only [commit, handleRecvGossip, hrefused, Bool.false_eq_true, if_false] at hp
    obtain hp | ⟨honline,rfl⟩ := mem_mergePresence hp
    · exact hold p hp hkey rfl
    by_cases hnew : p.pubkey ∈ newlyOnline events p.server t s.presence
    · refine .inr (.inr (.inl ⟨(newlyOnline events p.server t s.presence,p.server),?_,
        hkey ▸ hnew,rfl⟩))
      simp [forks, hrefused]
    · obtain ⟨q,hq,⟨hqkey,hqserver⟩,hlive⟩ : ∃ q ∈ s.presence,
          (q.pubkey = p.pubkey ∧ q.server = p.server) ∧ t < q.expiresAt := by
        simpa [newlyOnline, List.mem_dedup, honline, and_assoc] using hnew
      have hbefore := horder q hq (hqkey ▸ honline) hqserver hlive r hr (hkey.symm.trans hqkey.symm)
      obtain hcase | hcase | hcase | hlate := hold q hq (hqkey.trans hkey) hqserver
      · exact .inl hcase
      · exact .inr (.inl hcase)
      · exact .inr (.inr (.inl hcase))
      · omega

/-- What every step in order and within the caps preserves. -/
structure ForksOk (cfg : Config) (s : Forking × Journal) : Prop where
  wf : s.1.relay.mail.Wf
  issued : ∀ r ∈ s.2.sent, r.receivedAt ≤ currentSeq s.1.relay.mail.seqCounter
  handled : Handled cfg s.1.relay s.1.forked s.2.sent s.2.queued

theorem ForksOk.step {s s' : Forking × Journal} {act : ForkAct} (h : ForksOk cfg s)
    (hfed : cfg.federationEnabled = true) (horder : InOrder s act)
    (hcaps : Uncapped cfg s'.1.relay) (hstep : stepForking cfg s act = some s') : ForksOk cfg s' := by
  obtain ⟨hs,hnote⟩ := Lts.watch_eq_some _ hstep
  obtain ⟨⟨relay',forked'⟩,log'⟩ := s'
  simp only at hcaps hnote hs
  subst hnote
  have hspare : Spare cfg relay'.forwards := ⟨hcaps.total,hcaps.perServer⟩
  cases act with
  | task n =>
    obtain ⟨⟨pubkeys,server⟩,hn,heq⟩ := Option.map_eq_some_iff.mp hs
    obtain ⟨rfl,rfl⟩ := Forking.mk.inj heq
    have hissued : ∀ r ∈ s.2.sent ++ [], r.receivedAt ≤ currentSeq s.1.relay.mail.seqCounter := by
      simpa using h.issued
    refine ⟨h.wf,hissued,?_⟩
    · simpa [noteForwards, sends] using h.handled.task hspare hn
  | commit txn =>
    obtain ⟨rfl,rfl⟩ := Forking.mk.inj (Option.some.inj hs)
    have hwf : (commit cfg s.1.relay txn).mail.Wf := by
      rw [commit_mail]
      exact h.wf.foldl cfg _
    have hages : Mailbox.Ages s.1.relay.mail (commit cfg s.1.relay txn).mail := commit_ages h.wf txn
    have hqueued : s.2.queued ⊆ s.2.queued ++ (commit cfg s.1.relay txn).forwards :=
      List.subset_append_left _ _
    have hother : sends cfg s.1.relay (.commit txn) = [] →
        (∀ events server t, txn ≠ .recvGossip events server t) →
        ForksOk cfg (⟨commit cfg s.1.relay txn,s.1.forked ++ forks cfg s.1.relay txn⟩,
          noteForwards cfg s.1 (.commit txn)
            ⟨commit cfg s.1.relay txn,s.1.forked ++ forks cfg s.1.relay txn⟩ s.2) := by
      intro hsends hne
      refine ⟨hwf,?_,?_⟩
      · simp only [noteForwards, hsends, List.append_nil]
        exact fun r hr => (h.issued r hr).trans hages.1
      · simp only [noteForwards, hsends, List.append_nil]
        exact h.handled.ages h.issued hages (fun p hp => commit_presence hne hp)
          (fun task htask => List.mem_append_left _ htask) hqueued
    cases txn with
    | sendMessages messages senderKey t =>
      by_cases hvalid : validateBatch cfg messages senderKey = none
      · have hrelay : commit cfg s.1.relay (.sendMessages messages senderKey t) =
            messages.foldl (sendOne cfg s.1.relay.presence t) s.1.relay := by
          simp only [commit, handleSendMessages, hvalid]
        have hroom := hcaps.remote
        rw [hrelay, sendAll_presence] at hroom
        rw [hrelay] at hspare
        have hstart : Handled cfg s.1.relay s.1.forked s.2.sent (s.2.queued ++ s.1.relay.forwards) :=
          h.handled.ages h.issued (.refl _) (fun _ hp _ => hp) (fun _ htask => htask)
            (List.subset_append_left _ _)
        obtain ⟨hhandled,hissued⟩ := hstart.sendAll hfed h.wf rfl hroom hspare h.issued
        have hsends : sends cfg s.1.relay (.commit (.sendMessages messages senderKey t)) =
            sentAll cfg s.1.relay.presence t messages s.1.relay := if_pos hvalid
        refine ⟨hwf,?_,?_⟩
        · simpa only [noteForwards, hsends, hrelay] using hissued
        · simpa only [noteForwards, hsends, hrelay, forks, List.append_nil] using hhandled
      · exact hother (by simp [sends, hvalid]) (by simp)
    | recvGossip events server t =>
      refine ⟨hwf,?_,?_⟩
      · simpa [noteForwards, sends] using fun r hr => (h.issued r hr).trans hages.1
      · simpa [noteForwards, sends] using h.handled.gossip horder hqueued
    | _ => exact hother rfl (by simp)

instance (s : State) : Decidable (Uncapped cfg s) :=
  decidable_of_iff ((s.forwards.length : ℤ) < cfg.maxForwardsTotal ∧
    (0 < cfg.maxForwardsPerServer ∧ ∀ f ∈ s.forwards,
      (s.forwards.countP (fun g => g.toServer = f.toServer) : ℤ) < cfg.maxForwardsPerServer) ∧
    (0 < cfg.maxRemoteServersPerMessage ∧ ∀ p ∈ s.presence,
      ((collectPeers cfg (s.presence.filter fun q => q.pubkey = p.pubkey)
        PresenceEntry.server).length : ℤ) < cfg.maxRemoteServersPerMessage)) <| by
    constructor
    · rintro ⟨htotal,⟨hpos,hper⟩,hpos',hremote⟩
      refine ⟨htotal,fun server => ?_,fun pk => ?_⟩
      · obtain hnone | hsome := Nat.eq_zero_or_pos (s.forwards.countP fun f => f.toServer = server)
        · omega
        · obtain ⟨f,hf,hserver⟩ := List.countP_pos_iff.mp hsome
          obtain rfl : f.toServer = server := of_decide_eq_true hserver
          exact hper f hf
      · by_cases hany : ∃ p ∈ s.presence, p.pubkey = pk
        · obtain ⟨p,hp,rfl⟩ := hany
          exact hremote p hp
        · have hnil : s.presence.filter (fun p => p.pubkey = pk) = [] :=
            List.filter_eq_nil_iff.mpr fun p hp hkey => hany ⟨p,hp,of_decide_eq_true hkey⟩
          rw [hnil]
          exact hpos'
    · intro h
      have hper := h.perServer []
      have hremote := h.remote []
      exact ⟨h.total,⟨by omega,fun f _ => h.perServer _⟩,by omega,fun p _ => h.remote _⟩

instance (s : Forking × Journal) : (act : ForkAct) → Decidable (InOrder s act)
  | .commit (.recvGossip _ _ _) => inferInstanceAs (Decidable (∀ _ ∈ _, _))
  | .commit (.sendMessages _ _ _) | .commit (.forwardMessage _ _ _) | .commit (.verifyAuth _ _)
  | .commit (.setupPoll _ _ _) | .commit (.forwardQueued _ _) | .commit (.forwardAccepted _ _ _)
  | .commit (.forwardRetried _ _ _ _) | .commit (.dropServer _) | .commit (.prune _)
  | .task _ => inferInstanceAs (Decidable True)

/-- In every run within the caps in which gossip is in order, whatever was sent and is in the mailbox
has had a forward queued to every peer that holds live presence of its recipient and for which no task
is left, or that peer has got it. -/
theorem forward_queued_or_delivered (hfed : cfg.federationEnabled = true) {acts : List ForkAct}
    {s : Forking} {log : Journal} (hrun : Lts.run (stepForking cfg) ({},{}) acts = some (s,log))
    (hcaps : Lts.Along (stepForking cfg)
      (fun s act => ∀ s' ∈ forkingStep cfg s.1 act, Uncapped cfg s'.relay) ({},{}) acts)
    (horder : Lts.Along (stepForking cfg) InOrder ({},{}) acts) :
    ∀ r ∈ log.sent, ∀ m ∈ s.relay.mail.messages, r.names m →
      ∀ p ∈ s.relay.presence, p.pubkey = r.toKey → isLocalServer cfg p.server = false →
        (∀ task ∈ s.forked, task.2 = p.server → r.toKey ∉ task.1) →
        ∀ t, r.t ≤ t → t < p.expiresAt →
          log.queued.any (forwardMatches r.toKey r.encryptedBlob p.server) = true ∨
            p.server ∈ m.deliveredTo := by
  have h : ForksOk cfg (s,log) := by
    refine Lts.run_invariant_along (stepForking cfg) (I := ForksOk cfg) ?_
      ⟨Mailbox.wf_empty,by simp,fun r hr => by simp at hr⟩ (hcaps.and _ horder) hrun
    exact fun s act s' h hg hstep =>
      h.step hfed hg.2 (hg.1 s'.1 (Lts.watch_eq_some _ hstep).1) hstep
  intro r hr m hm hnames p hp hkey hremote hdone t hsent hlive
  obtain hq | hd | ⟨task,htask,hkeys,hserver⟩ | hlate := h.handled r hr m hm hnames p hp hkey hremote
  · exact .inl hq
  · exact .inr hd
  · exact absurd hkeys (hdone task htask hserver)
  · omega

def sampleMesh : Config := { federationEnabled := true }

def sampleOnlineAt (t : ℤ) : ForkAct :=
  .commit (.recvGossip [⟨"online".toList,some (sampleKey 'b')⟩] "peer.example".toList t)

def sampleSend (t : ℤ) : ForkAct :=
  .commit (.sendMessages [⟨sampleKey 'b',sampleBlob '1'⟩] (sampleKey 'a') t)

/-- A key that comes online after a message is sent. -/
theorem forward_queued_or_delivered_gossip : ∃ s log,
    Lts.run (stepForking sampleMesh) ({},{}) [sampleSend 1,sampleOnlineAt 2,.task 0] = some (s,log) ∧
    log.sent = [⟨sampleKey 'b',sampleBlob '1',1,1⟩] ∧ s.relay.presence.length = 1 ∧
    ∀ r ∈ log.sent, ∀ m ∈ s.relay.mail.messages, r.names m →
      ∀ p ∈ s.relay.presence, p.pubkey = r.toKey → isLocalServer sampleMesh p.server = false →
        (∀ task ∈ s.forked, task.2 = p.server → r.toKey ∉ task.1) →
        ∀ t, r.t ≤ t → t < p.expiresAt →
          log.queued.any (forwardMatches r.toKey r.encryptedBlob p.server) = true ∨
            p.server ∈ m.deliveredTo := by
  have hrun : (Lts.run (stepForking sampleMesh) ({},{}) [sampleSend 1,sampleOnlineAt 2,.task 0]).any
      (fun s => s.2.sent = [⟨sampleKey 'b',sampleBlob '1',1,1⟩] && s.1.relay.presence.length = 1) =
        true := by decide +kernel
  simp only [Option.any_eq_true, Bool.and_eq_true, decide_eq_true_eq, Prod.exists] at hrun
  obtain ⟨s,log,hs,hsent,hpresence⟩ := hrun
  exact ⟨s,log,hs,hsent,hpresence,
    forward_queued_or_delivered rfl hs (by decide +kernel) (by decide +kernel)⟩

/-- Gossip reads its clock just before the presence that it renews expires, and commits after a send
that has found it expired. -/
theorem forward_lost : ∃ s log,
    Lts.run (stepForking sampleMesh) ({},{}) [sampleOnlineAt 0,.task 0,sampleSend 5400000,
      sampleOnlineAt 5399999,.task 0] = some (s,log) ∧ s.forked = [] ∧
    log.sent = [⟨sampleKey 'b',sampleBlob '1',5400000,5400000⟩] ∧ log.queued = [] ∧
    s.relay.mail.messages = [⟨sampleKey 'b',sampleBlob '1',5400000,[]⟩] ∧
    s.relay.presence = [⟨sampleKey 'b',"peer.example".toList,10799999⟩] := by
  have hrun : (Lts.run (stepForking sampleMesh) ({},{}) [sampleOnlineAt 0,.task 0,sampleSend 5400000,
      sampleOnlineAt 5399999,.task 0]).any (fun s => s.1.forked = [] &&
        s.2.sent = [⟨sampleKey 'b',sampleBlob '1',5400000,5400000⟩] && s.2.queued = [] &&
        s.1.relay.mail.messages = [⟨sampleKey 'b',sampleBlob '1',5400000,[]⟩] &&
        s.1.relay.presence = [⟨sampleKey 'b',"peer.example".toList,10799999⟩]) = true := by
    decide +kernel
  simp only [Option.any_eq_true, Bool.and_eq_true, decide_eq_true_eq, Prod.exists] at hrun
  obtain ⟨s,log,hs,⟨⟨⟨hforked,hsent⟩,hqueued⟩,hmail⟩,hpresence⟩ := hrun
  exact ⟨s,log,hs,hforked,hsent,hqueued,hmail,hpresence⟩

end Skrepka.Relay
