import Skrepka.Lib.Hex
import Skrepka.Relay.Auth

/-! The relay as its callers see it: requests with what their headers say, and the answers. A handler
commits its transactions one after another, and those of others may come between them. -/
namespace Skrepka.Relay
open Sequenced

def afterComma : Text → Text
  | [] => []
  | a :: s => if a = ',' then s else afterComma s

theorem afterComma_shorter {s : Text} (h : s ≠ []) : (afterComma s).length < s.length := by
  induction s with
  | nil => exact absurd rfl h
  | cons a s ih =>
    rw [afterComma, List.length_cons]
    split
    · omega
    · by_cases hs : s = []
      · subst hs
        simp [afterComma]
      · have := ih hs
        omega

/-- Drop the white space at both ends. -/
def trim (s : Text) : Text :=
  ((s.dropWhile Rust.isWhitespace).reverse.dropWhile Rust.isWhitespace).reverse

def lastForwardedHop (s : Text) : Text :=
  if _h : ',' ∈ s then lastForwardedHop (afterComma s) else trim s
termination_by s.length
decreasing_by exact afterComma_shorter (List.ne_nil_of_mem ‹_›)

structure ServiceConfig extends AuthConfig where
  trustForwardedFor : Bool := true
  maxServerNameLen : ℤ := 128

inductive Request
  | reqChallenge (pubkey : Text) (xForwardedFor : Option Text)
  | verifyAuth (pubkey challenge signature : Text) (revokeOthers : Bool) (xForwardedFor : Option Text)
  | poll (cursor : ℤ) (authorization : Text) (xForwardedFor : Option Text)
  | sendMessages (messages : List Envelope) (authorization : Text) (xForwardedFor : Option Text)
  | recvGossip (events : List GossipEvent) (fromServer : Text)
  | forwardMessage (toKey blob : Text)

inductive Answer
  | challenge (challenge : Text) (expiresAt : ℤ)
  | session (token : Text) (expiresAt : ℤ)
  | page (page : Page)
  | done
  | refused (error : HttpError)
  deriving DecidableEq

/-- A poll has yet to look for mail, waits for some, or was woken to look again. -/
inductive PollPhase
  | asked
  | waiting
  | woken
  deriving DecidableEq

/-- A poll that has been let in, with the headers that let it in. -/
structure OpenPoll where
  pubkey : Text
  clampedCursor : ℤ
  t : ℤ
  authorization : Text
  clientIp : Text
  phase : PollPhase := .asked

/-- A batch that has been let in and not committed. -/
structure OpenSend where
  messages : List Envelope
  senderKey : Text
  t : ℤ
  authorization : Text
  clientIp : Text

structure Service where
  auth : Auth := {}
  polls : List OpenPoll := []
  sends : List OpenSend := []

inductive ServiceAct
  /-- A handler starts: it reads the clock, and draws a random text if it needs one. -/
  | request (r : Request) (t : ℤ) (fresh : Text)
  | verify (n : ℕ)
  | install (n : ℕ)
  | collect (n : ℕ) (tnow : ℤ)
  /-- A waiting poll sees mail, or has waited for too long. -/
  | wake (n : ℕ) (tw : ℤ)
  | timeout (n : ℕ)
  | commitSend (n : ℕ)
  | prune (t : ℤ)
  /-- A task or a sweep commits. -/
  | task (txn : Txn)

/-- The transactions of forwards to peers. -/
def Txn.isTask : Txn → Bool
  | .forwardQueued _ _ | .forwardAccepted _ _ _ | .forwardRetried _ _ _ _ | .dropServer _ => true
  | _ => false

section
variable (cfg : ServiceConfig) (rt : Runtime)

/-- The address that a challenge or a session is bound to. -/
def clientIpOf (h : Option Text) : Text :=
  match h with
  | some ips => if cfg.trustForwardedFor then lastForwardedHop ips else []
  | none => []

def toLower (s : Text) : Text := (Rust.toLowercase (String.ofList s)).toList

def isValidServerName (s : Text) : Bool :=
  s.length ≤ cfg.maxServerNameLen && s = toLower (stripTrailingDot s)

/-- What the types of the routes demand of the fields of a request, but not of those inside its lists. -/
def Request.refined : Request → Bool
  | .reqChallenge pubkey _ => isValidExactHex 64 pubkey
  | .verifyAuth pubkey _ signature _ _ => isValidExactHex 64 pubkey && isValidExactHex 128 signature
  | .poll _ _ _ | .sendMessages _ _ _ => true
  | .recvGossip _ fromServer => isValidServerName cfg fromServer
  | .forwardMessage toKey blob => isValidExactHex 64 toKey && isValidBlobHex cfg.toConfig blob

namespace Service

def commit (txn : Txn) (s : Service) : Service :=
  { s with auth := { s.auth with relay := Relay.commit cfg.toConfig s.auth.relay txn } }

/-- The first transaction of a handler, and the answer if it has one already. -/
def arrive (t : ℤ) (fresh : Text) (s : Service) : Request → Service × Option Answer
  | .reqChallenge pubkey xForwardedFor =>
    let clientIp := clientIpOf cfg xForwardedFor
    ({ s with auth := s.auth.handleChallenge cfg.toAuthConfig pubkey clientIp t fresh },
      some (.challenge fresh (t+cfg.challengeExpiry)))
  | .verifyAuth pubkey challenge signature revokeOthers xForwardedFor =>
    let v : VerifyAuth := ⟨pubkey,challenge,signature,revokeOthers,clientIpOf cfg xForwardedFor,t,fresh⟩
    if (v.redeems s.auth.challenges).isSome then
      ({ s with auth := { s.auth with checked := s.auth.checked ++ [v] } },none)
    else (s,some (.refused ⟨401,"invalid"⟩))
  | .poll cursor authorization xForwardedFor =>
    let clientIp := clientIpOf cfg xForwardedFor
    match authedPubkey authorization t clientIp s.auth.sessions with
    | none => (s,some (.refused ⟨401,"unauthorized"⟩))
    | some pubkey =>
      let clampedCursor := clampCursor cursor t s.auth.relay.mail
      let s := s.commit cfg (.setupPoll pubkey cursor t)
      ({ s with polls := s.polls ++ [⟨pubkey,clampedCursor,t,authorization,clientIp,.asked⟩] },none)
  | .sendMessages messages authorization xForwardedFor =>
    let clientIp := clientIpOf cfg xForwardedFor
    match authedPubkey authorization t clientIp s.auth.sessions with
    | none => (s,some (.refused ⟨401,"unauthorized"⟩))
    | some senderKey =>
      match validateBatch cfg.toConfig messages senderKey with
      | some err => (s,some (.refused err))
      | none => ({ s with sends := s.sends ++ [⟨messages,senderKey,t,authorization,clientIp⟩] },none)
  | .recvGossip events fromServer =>
    if !cfg.federationEnabled then (s,some (.refused ⟨403,"federation_disabled"⟩))
    else if refusesGossip cfg.toConfig events fromServer then (s,some (.refused ⟨400,"invalid_request"⟩))
    else (s.commit cfg (.recvGossip events fromServer t),some .done)
  | .forwardMessage toKey blob =>
    if !cfg.federationEnabled then (s,some (.refused ⟨403,"federation_disabled"⟩))
    else if !hasLocalPresence cfg.toConfig s.auth.relay.presence toKey t then
      (s,some (.refused ⟨404,"no_presence"⟩))
    else (s.commit cfg (.forwardMessage toKey blob t),some .done)

/-- One transaction, and the answer that its handler gives after it. -/
def handle (s : Service) : ServiceAct → Option (Service × Option Answer)
  | .request r t fresh => if r.refined cfg then some (s.arrive cfg t fresh r) else none
  | .verify n => s.auth.checked[n]?.map fun v =>
    let valid := sigValid rt cfg.toAuthConfig v.pubkey v.challenge v.signature
    ({ s with
      auth := { s.auth with
        checked := s.auth.checked.eraseIdx n
        verified := if valid then s.auth.verified ++ [v] else s.auth.verified } },
      if valid then none else some (.refused ⟨401,"invalid"⟩))
  | .install n => s.auth.verified[n]?.map fun v =>
    ({ s with
      auth := Auth.install cfg.toAuthConfig v { s.auth with verified := s.auth.verified.eraseIdx n } },
      some (if (v.redeems s.auth.challenges).isSome then .session v.token (v.t+cfg.sessionExpiry)
        else .refused ⟨401,"invalid"⟩))
  | .collect n tnow => s.polls[n]?.bind fun p =>
    match p.phase with
    | .asked =>
      let initial := collectAt cfg.toConfig p.pubkey p.clampedCursor p.t s.auth.relay.mail.messages
      if initial.events.length > 0 then some ({ s with polls := s.polls.eraseIdx n },some (.page initial))
      else some ({ s with polls := s.polls.set n { p with phase := .waiting } },none)
    | .waiting => none
    | .woken =>
      let page := collectAt cfg.toConfig p.pubkey p.clampedCursor tnow s.auth.relay.mail.messages
      some ({ s with polls := s.polls.eraseIdx n },some (.page page))
  | .wake n tw => s.polls[n]?.bind fun p =>
    if p.phase = .waiting ∧
        (freshFor cfg.toConfig p.pubkey p.clampedCursor tw s.auth.relay.mail.messages).length > 0 then
      some ({ s with polls := s.polls.set n { p with phase := .woken } },none)
    else none
  | .timeout n => s.polls[n]?.bind fun p =>
    if p.phase = .waiting then some ({ s with polls := s.polls.set n { p with phase := .woken } },none)
    else none
  | .commitSend n => s.sends[n]?.map fun x =>
    ({ s.commit cfg (.sendMessages x.messages x.senderKey x.t) with sends := s.sends.eraseIdx n },
      some .done)
  | .prune t => some ({ s with auth := s.auth.prune cfg.toAuthConfig t },none)
  | .task txn => if txn.isTask then some (s.commit cfg txn,none) else none

def step (s : Service) (act : ServiceAct) : Option Service := (s.handle cfg rt act).map Prod.fst

/-- What a transaction is to challenges, sessions and the state of the relay. -/
def authAct (s : Service) : ServiceAct → Option Auth.Act
  | .request r t fresh =>
    match r with
    | .reqChallenge pubkey xForwardedFor => some (.challenge pubkey (clientIpOf cfg xForwardedFor) t fresh)
    | .verifyAuth pubkey challenge signature revokeOthers xForwardedFor =>
      some (.check ⟨pubkey,challenge,signature,revokeOthers,clientIpOf cfg xForwardedFor,t,fresh⟩)
    | .poll cursor authorization xForwardedFor =>
      (authedPubkey authorization t (clientIpOf cfg xForwardedFor) s.auth.sessions).map fun pubkey =>
        .commit (.setupPoll pubkey cursor t)
    | .sendMessages _ _ _ => none
    | .recvGossip events fromServer => some (.commit (.recvGossip events fromServer t))
    | .forwardMessage toKey blob => some (.commit (.forwardMessage toKey blob t))
  | .verify n => some (.verify n)
  | .install n => some (.install n)
  | .commitSend n => s.sends[n]?.map fun x => .commit (.sendMessages x.messages x.senderKey x.t)
  | .prune t => some (.prune t)
  | .task txn => some (.commit txn)
  | .collect _ _ | .wake _ _ | .timeout _ => none

variable {rt cfg}

theorem arrive_auth (r : Request) (t : ℤ) (fresh : Text) (s : Service) :
    (s.authAct cfg (.request r t fresh)).elim (some s.auth) (Auth.step rt cfg.toAuthConfig s.auth) =
      some (s.arrive cfg t fresh r).1.auth := by
  cases r with
  | reqChallenge pubkey xForwardedFor => rfl
  | verifyAuth pubkey challenge signature revokeOthers xForwardedFor =>
    simp only [authAct, arrive, Option.elim_some, Auth.step]
    split <;> rfl
  | poll cursor authorization xForwardedFor =>
    simp only [authAct, arrive]
    cases authedPubkey authorization t (clientIpOf cfg xForwardedFor) s.auth.sessions <;> rfl
  | sendMessages messages authorization xForwardedFor =>
    simp only [authAct, arrive, Option.elim_none]
    split
    · rfl
    · split <;> rfl
  | recvGossip events fromServer =>
    simp only [authAct, arrive, Option.elim_some, Auth.step, Relay.commit, handleRecvGossip]
    cases hfed : cfg.federationEnabled with
    | false => simp [refusesGossip, hfed]
    | true =>
      cases hrefuses : refusesGossip cfg.toConfig events fromServer with
      | true => simp
      | false => simp [commit, Relay.commit, handleRecvGossip, hrefuses]
  | forwardMessage toKey blob =>
    simp only [authAct, arrive, Option.elim_some, Auth.step, Relay.commit, handleForwardMessage]
    cases hfed : cfg.federationEnabled with
    | false => simp
    | true =>
      cases hpresence : hasLocalPresence cfg.toConfig s.auth.relay.presence toKey t with
      | false => simp
      | true => simp [commit, Relay.commit, handleForwardMessage, hfed, hpresence]

/-- A relay that answers requests does to its challenges, sessions and mail what a relay does that is
told its transactions. -/
theorem handle_auth {s s' : Service} {act : ServiceAct} {answer : Option Answer}
    (h : s.handle cfg rt act = some (s',answer)) :
    (s.authAct cfg act).elim (some s.auth) (Auth.step rt cfg.toAuthConfig s.auth) = some s'.auth := by
  cases act with
  | request r t fresh =>
    simp only [handle, Option.ite_none_right_eq_some, Option.some.injEq] at h
    rw [arrive_auth, h.2]
  | verify n =>
    obtain ⟨v,hv,h⟩ := Option.map_eq_some_iff.mp h
    obtain ⟨rfl,-⟩ := Prod.mk.inj h
    simp [authAct, Auth.step, hv]
  | install n =>
    obtain ⟨v,hv,h⟩ := Option.map_eq_some_iff.mp h
    obtain ⟨rfl,-⟩ := Prod.mk.inj h
    simp [authAct, Auth.step, hv]
  | collect n tnow =>
    obtain ⟨p,-,h⟩ := Option.bind_eq_some_iff.mp h
    split at h
    · simp only at h
      split at h <;> obtain ⟨rfl,-⟩ := Prod.mk.inj (Option.some.inj h) <;> rfl
    · cases h
    · obtain ⟨rfl,-⟩ := Prod.mk.inj (Option.some.inj h)
      rfl
  | wake n tw | timeout n =>
    obtain ⟨p,-,h⟩ := Option.bind_eq_some_iff.mp h
    rw [Option.ite_none_right_eq_some, Option.some.injEq] at h
    obtain ⟨rfl,-⟩ := Prod.mk.inj h.2
    rfl
  | commitSend n =>
    obtain ⟨x,hx,h⟩ := Option.map_eq_some_iff.mp h
    obtain ⟨rfl,-⟩ := Prod.mk.inj h
    simp [authAct, Auth.step, hx, commit]
  | prune t =>
    obtain ⟨rfl,-⟩ := Prod.mk.inj (Option.some.inj h)
    rfl
  | task txn =>
    simp only [handle, Option.ite_none_right_eq_some, Option.some.injEq] at h
    obtain ⟨rfl,-⟩ := Prod.mk.inj h.2
    rfl

end Service

/-- What an observer has seen: the challenges issued and redeemed, the pages handed out and the polls
that got them, the batches committed, and the forwards taken in. -/
structure ServiceLog where
  auth : Auth.Log := {}
  pages : List (OpenPoll × Page) := []
  sent : List OpenSend := []
  forwarded : List Envelope := []

namespace Service

/-- The page that a step hands out. -/
def handed (s : Service) (act : ServiceAct) : Option (OpenPoll × Page) :=
  match act, (s.handle cfg rt act).bind Prod.snd with
  | .collect n _, some (.page page) => s.polls[n]?.map fun p => (p,page)
  | _, _ => none

/-- The forward that a step takes in. -/
def takenIn (s : Service) (act : ServiceAct) : Option Envelope :=
  match act, (s.handle cfg rt act).bind Prod.snd with
  | .request (.forwardMessage toKey blob) _ _, some .done => some ⟨toKey,blob⟩
  | _, _ => none

def note (s : Service) (act : ServiceAct) (s' : Service) (log : ServiceLog) : ServiceLog where
  auth := (s.authAct cfg act).elim log.auth fun a => Auth.noteAuth cfg.toAuthConfig s.auth a s'.auth log.auth
  pages := log.pages ++ (s.handed cfg rt act).toList
  sent := log.sent ++ (match act with
    | .commitSend n => s.sends[n]?.toList
    | _ => [])
  forwarded := log.forwarded ++ (s.takenIn cfg rt act).toList

/-- A header holds the token of a session that is still live and not bound to another address, which
its key has bought with the signature of a challenge. -/
def Entitled (log : Auth.Log) (authorization clientIp : Text) (t : ℤ) (pubkey : Text) : Prop :=
  ∃ r ∈ log.redeemed, Auth.Redemption.Sound rt cfg.toAuthConfig r ∧ r.request.pubkey = pubkey ∧
    authorization = "Bearer ".toList ++ r.request.token ∧ t < r.request.t+cfg.sessionExpiry ∧
    matchIp clientIp r.request.clientIp = true

/-- A batch is valid and comes from somebody who was let in. -/
def Admitted (log : Auth.Log) (x : OpenSend) : Prop :=
  Entitled cfg rt log x.authorization x.clientIp x.t x.senderKey ∧
    validateBatch cfg.toConfig x.messages x.senderKey = none

/-- A blob was sent to a key by somebody who was let in, or forwarded by a peer. -/
def Filed (log : ServiceLog) (toKey blob : Text) : Prop :=
  (∃ x ∈ log.sent, ⟨toKey,blob⟩ ∈ x.messages) ∨ ⟨toKey,blob⟩ ∈ log.forwarded

/-- Whoever reads or sends was let in, and every row was sent or forwarded to its key. -/
structure Guarded (s : Service) (log : ServiceLog) : Prop where
  once : Auth.Once cfg.toAuthConfig {} s.auth log.auth
  signed : Auth.Signed rt cfg.toAuthConfig s.auth log.auth
  wf : s.auth.relay.mail.Wf
  polls : ∀ p ∈ s.polls, Entitled cfg rt log.auth p.authorization p.clientIp p.t p.pubkey
  sends : ∀ x ∈ s.sends, Admitted cfg rt log.auth x
  pages : ∀ e ∈ log.pages, Entitled cfg rt log.auth e.1.authorization e.1.clientIp e.1.t e.1.pubkey ∧
    ∀ blob ∈ e.2.events, Filed log e.1.pubkey blob
  sent : ∀ x ∈ log.sent, Admitted cfg rt log.auth x
  forwarded : log.forwarded ≠ [] → cfg.federationEnabled = true
  rows : ∀ m ∈ s.auth.relay.mail.messages, Filed log m.toKey m.encryptedBlob

variable {cfg rt}

theorem Entitled.mono {log log' : Auth.Log} {authorization clientIp pubkey : Text} {t : ℤ}
    (hsub : log.redeemed ⊆ log'.redeemed) (h : Entitled cfg rt log authorization clientIp t pubkey) :
    Entitled cfg rt log' authorization clientIp t pubkey := by
  obtain ⟨r,hr,hsound⟩ := h
  exact ⟨r,hsub hr,hsound⟩

theorem Filed.mono {log log' : ServiceLog} {toKey blob : Text} (hsent : log.sent ⊆ log'.sent)
    (hforwarded : log.forwarded ⊆ log'.forwarded) (h : Filed log toKey blob) : Filed log' toKey blob := by
  obtain ⟨x,hx,hin⟩ | hin := h
  · exact .inl ⟨x,hsent hx,hin⟩
  · exact .inr (hforwarded hin)

/-- Who is let in has the token of a session that was paid for. -/
theorem Guarded.entitled {s : Service} {log : ServiceLog} (h : Guarded cfg rt s log)
    {authorization clientIp pubkey : Text} {t : ℤ}
    (hauthed : authedPubkey authorization t clientIp s.auth.sessions = some pubkey) :
    Entitled cfg rt log.auth authorization clientIp t pubkey := by
  have hbearer : authorization = "Bearer ".toList ++ authorization.drop 7 := by
    by_cases hpre : hasPrefix "Bearer " authorization = true
    · have htake : authorization.take 7 = "Bearer ".toList := of_decide_eq_true hpre
      exact (List.take_append_drop 7 authorization).symm.trans (by rw [htake])
    · simp [authedPubkey, hpre] at hauthed
  obtain ⟨x,hx,htoken,hlive,hip⟩ := Auth.authedPubkey_session hauthed
  obtain ⟨hx,hkey⟩ := List.mem_filter.mp hx
  have hbought := h.once.sessions.subset hx
  rw [List.append_nil] at hbought
  obtain ⟨r,hr,rfl⟩ := List.mem_map.mp hbought
  refine ⟨r,hr,h.signed.redeemed r hr,of_decide_eq_true hkey,?_,hlive,hip⟩
  rw [hbearer, ← htoken]
  rfl

theorem mem_events {pk blob : Text} {cursor tnow : ℤ} {msgs : List Message}
    (h : blob ∈ (collectAt cfg.toConfig pk cursor tnow msgs).events) :
    ∃ m ∈ msgs, m.toKey = pk ∧ m.encryptedBlob = blob := by
  obtain ⟨m,hm,rfl⟩ := List.mem_map.mp h
  have hfresh := (mem_sortBy _).mp (List.mem_of_mem_take hm)
  obtain ⟨hm,hfits⟩ := List.mem_filter.mp hfresh
  simp only [Bool.and_eq_true, decide_eq_true_eq] at hfits
  exact ⟨m,hm,hfits.1.1,rfl⟩

theorem mem_allAdded {mail : Mailbox} {ops : List Mailbox.Op} {m : Message}
    (h : m ∈ Mailbox.allAdded cfg.toConfig mail ops) :
    ∃ t, Mailbox.Op.append m.toKey m.encryptedBlob t ∈ ops := by
  induction ops generalizing mail with
  | nil => simp [Mailbox.allAdded] at h
  | cons op ops ih =>
    obtain h | h := List.mem_append.mp h
    · cases op with
      | append toKey blob t =>
        simp only [Mailbox.added, Option.mem_toList, Option.ite_none_left_eq_some, Option.some.injEq] at h
        obtain ⟨-,rfl⟩ := h
        exact ⟨t,List.mem_cons_self⟩
      | ack | prune | mark => simp [Mailbox.added] at h
    · obtain ⟨t,ht⟩ := ih h
      exact ⟨t,List.mem_cons_of_mem _ ht⟩

/-- A row after a step of the relay was there before, or a transaction has appended it. -/
theorem auth_rows {s s' : Auth} {act : Auth.Act} (hwf : s.relay.mail.Wf)
    (h : Auth.step rt cfg.toAuthConfig s act = some s') {m : Message} (hm : m ∈ s'.relay.mail.messages) :
    (∃ m' ∈ s.relay.mail.messages, Mailbox.SameRow m' m) ∨
      ∃ txn t, act = .commit txn ∧
        Mailbox.Op.append m.toKey m.encryptedBlob t ∈ mailOps cfg.toConfig s.relay txn := by
  have hquiet : s'.relay.mail.messages ⊆ s.relay.mail.messages →
      (∃ m' ∈ s.relay.mail.messages, Mailbox.SameRow m' m) ∨ ∃ txn t, act = .commit txn ∧
        Mailbox.Op.append m.toKey m.encryptedBlob t ∈ mailOps cfg.toConfig s.relay txn :=
    fun hsub => .inl ⟨m,hsub hm,rfl,rfl,rfl⟩
  cases act with
  | challenge pubkey clientIp t challenge =>
    obtain rfl := Option.some.inj h
    exact hquiet (List.Subset.refl _)
  | check v =>
    obtain rfl := Option.some.inj h
    refine hquiet ?_
    split <;> exact List.Subset.refl _
  | verify n =>
    obtain ⟨v,-,rfl⟩ := Option.map_eq_some_iff.mp h
    exact hquiet (List.Subset.refl _)
  | install n =>
    obtain ⟨v,-,rfl⟩ := Option.map_eq_some_iff.mp h
    refine hquiet ?_
    unfold Auth.install
    split <;> exact List.Subset.refl _
  | prune t =>
    obtain rfl := Option.some.inj h
    exact hquiet List.filter_sublist.subset
  | commit txn =>
    obtain rfl := Option.some.inj h
    simp only [commit_mail] at hm
    obtain hold | ⟨m',hm',hkey,hblob,-⟩ := Mailbox.foldl_rows cfg.toConfig hwf _ hm
    · exact .inl hold
    · obtain ⟨t,ht⟩ := mem_allAdded hm'
      exact .inr ⟨txn,t,rfl,hkey ▸ hblob ▸ ht⟩

theorem auth_wf {s s' : Auth} {act : Auth.Act} (hwf : s.relay.mail.Wf)
    (h : Auth.step rt cfg.toAuthConfig s act = some s') : s'.relay.mail.Wf := by
  cases act with
  | challenge pubkey clientIp t challenge =>
    obtain rfl := Option.some.inj h
    exact hwf
  | check v =>
    obtain rfl := Option.some.inj h
    split <;> exact hwf
  | verify n =>
    obtain ⟨v,-,rfl⟩ := Option.map_eq_some_iff.mp h
    exact hwf
  | install n =>
    obtain ⟨v,-,rfl⟩ := Option.map_eq_some_iff.mp h
    unfold Auth.install
    split <;> exact hwf
  | prune t =>
    obtain rfl := Option.some.inj h
    exact hwf.apply cfg.toConfig (.prune t)
  | commit txn =>
    obtain rfl := Option.some.inj h
    rw [commit_mail]
    exact hwf.foldl cfg.toConfig _

/-- A transaction that appends is the commit of a batch or takes in a forward. -/
theorem appends {s : Service} {act : ServiceAct} {txn : Txn} {toKey blob : Text} {t : ℤ}
    {s' : Service} {answer : Option Answer} (h : s.handle cfg rt act = some (s',answer))
    (hact : s.authAct cfg act = some (.commit txn))
    (hop : Mailbox.Op.append toKey blob t ∈ mailOps cfg.toConfig s.auth.relay txn) :
    (∃ n x, act = .commitSend n ∧ s.sends[n]? = some x ∧ ⟨toKey,blob⟩ ∈ x.messages) ∨
      s.takenIn cfg rt act = some ⟨toKey,blob⟩ ∧ cfg.federationEnabled = true := by
  cases act with
  | request r t' fresh =>
    cases r with
    | reqChallenge | verifyAuth | sendMessages => cases hact
    | poll cursor authorization xForwardedFor =>
      obtain ⟨pubkey,-,hact⟩ := Option.map_eq_some_iff.mp hact
      obtain rfl := Auth.Act.commit.inj hact
      simp only [mailOps] at hop
      split at hop <;> simp at hop
    | recvGossip events fromServer =>
      obtain rfl := Auth.Act.commit.inj (Option.some.inj hact)
      simp [mailOps] at hop
    | forwardMessage toKey' blob' =>
      obtain rfl := Auth.Act.commit.inj (Option.some.inj hact)
      simp only [mailOps] at hop
      split at hop
      · rename_i hcond
        simp only [List.mem_singleton, Mailbox.Op.append.injEq] at hop
        obtain ⟨rfl,rfl,rfl⟩ := hop
        obtain ⟨hfed,hpresence⟩ := Bool.and_eq_true_iff.mp hcond
        have hrefined : (Request.forwardMessage toKey blob).refined cfg = true := by
          by_contra hnot
          simp [handle, hnot] at h
        refine .inr ⟨?_,hfed⟩
        simp [takenIn, handle, hrefined, arrive, hfed, hpresence]
      · simp at hop
  | commitSend n =>
    obtain ⟨x,hx,hact⟩ := Option.map_eq_some_iff.mp hact
    obtain rfl := Auth.Act.commit.inj hact
    simp only [mailOps] at hop
    split at hop
    · obtain ⟨e,he,heq⟩ := List.mem_map.mp hop
      obtain ⟨rfl,rfl,-⟩ := Mailbox.Op.append.inj heq
      exact .inl ⟨n,x,rfl,hx,he⟩
    · simp at hop
  | task txn' =>
    obtain rfl := Auth.Act.commit.inj (Option.some.inj hact)
    simp only [handle, Option.ite_none_right_eq_some] at h
    cases txn' with
    | forwardRetried toKey' blob' server success => cases success <;> simp [mailOps] at hop
    | forwardQueued | forwardAccepted | dropServer => simp [mailOps] at hop
    | sendMessages | forwardMessage | verifyAuth | setupPoll | recvGossip | prune =>
      simp [Txn.isTask] at h
  | verify | install | prune | collect | wake | timeout => cases hact

/-- The polls and the batches after a step were let in before, or are let in by it. -/
theorem let_in {s s' : Service} {act : ServiceAct} {answer : Option Answer}
    (h : s.handle cfg rt act = some (s',answer)) :
    (∀ p ∈ s'.polls, (∃ p' ∈ s.polls, ∃ phase, p = { p' with phase }) ∨
      authedPubkey p.authorization p.t p.clientIp s.auth.sessions = some p.pubkey) ∧
    ∀ x ∈ s'.sends, x ∈ s.sends ∨
      authedPubkey x.authorization x.t x.clientIp s.auth.sessions = some x.senderKey ∧
        validateBatch cfg.toConfig x.messages x.senderKey = none := by
  have hold : ∀ p ∈ s.polls, (∃ p' ∈ s.polls, ∃ phase, p = { p' with phase }) ∨
      authedPubkey p.authorization p.t p.clientIp s.auth.sessions = some p.pubkey :=
    fun p hp => .inl ⟨p,hp,p.phase,rfl⟩
  have hset : ∀ {n : ℕ} {p₀ : OpenPoll} {phase : PollPhase}, s.polls[n]? = some p₀ →
      ∀ p ∈ s.polls.set n { p₀ with phase }, (∃ p' ∈ s.polls, ∃ phase, p = { p' with phase }) ∨
        authedPubkey p.authorization p.t p.clientIp s.auth.sessions = some p.pubkey := by
    intro n p₀ phase hp₀ p hp
    obtain hp | rfl := List.mem_or_eq_of_mem_set hp
    · exact hold p hp
    · exact .inl ⟨p₀,List.mem_of_getElem? hp₀,phase,rfl⟩
  cases act with
  | request r t fresh =>
    simp only [handle, Option.ite_none_right_eq_some, Option.some.injEq] at h
    obtain ⟨-,h⟩ := h
    cases r with
    | reqChallenge =>
      obtain ⟨rfl,-⟩ := Prod.mk.inj h
      exact ⟨hold,fun x hx => .inl hx⟩
    | verifyAuth =>
      simp only [arrive] at h
      split at h <;> obtain ⟨rfl,-⟩ := Prod.mk.inj h <;> exact ⟨hold,fun x hx => .inl hx⟩
    | poll cursor authorization xForwardedFor =>
      simp only [arrive] at h
      split at h
      · obtain ⟨rfl,-⟩ := Prod.mk.inj h
        exact ⟨hold,fun x hx => .inl hx⟩
      · rename_i pubkey hauthed
        obtain ⟨rfl,-⟩ := Prod.mk.inj h
        refine ⟨fun p hp => ?_,fun x hx => .inl hx⟩
        obtain hp | hp := List.mem_append.mp hp
        · exact hold p hp
        · rw [List.mem_singleton.mp hp]
          exact .inr hauthed
    | sendMessages messages authorization xForwardedFor =>
      simp only [arrive] at h
      split at h
      · obtain ⟨rfl,-⟩ := Prod.mk.inj h
        exact ⟨hold,fun x hx => .inl hx⟩
      · rename_i senderKey hauthed
        split at h
        · obtain ⟨rfl,-⟩ := Prod.mk.inj h
          exact ⟨hold,fun x hx => .inl hx⟩
        · rename_i hvalid
          obtain ⟨rfl,-⟩ := Prod.mk.inj h
          refine ⟨hold,fun x hx => ?_⟩
          obtain hx | hx := List.mem_append.mp hx
          · exact .inl hx
          · rw [List.mem_singleton.mp hx]
            exact .inr ⟨hauthed,hvalid⟩
    | recvGossip =>
      simp only [arrive] at h
      split at h
      · obtain ⟨rfl,-⟩ := Prod.mk.inj h
        exact ⟨hold,fun x hx => .inl hx⟩
      · split at h <;> obtain ⟨rfl,-⟩ := Prod.mk.inj h <;> exact ⟨hold,fun x hx => .inl hx⟩
    | forwardMessage =>
      simp only [arrive] at h
      split at h
      · obtain ⟨rfl,-⟩ := Prod.mk.inj h
        exact ⟨hold,fun x hx => .inl hx⟩
      · split at h <;> obtain ⟨rfl,-⟩ := Prod.mk.inj h <;> exact ⟨hold,fun x hx => .inl hx⟩
  | verify n | install n =>
    obtain ⟨v,-,h⟩ := Option.map_eq_some_iff.mp h
    obtain ⟨rfl,-⟩ := Prod.mk.inj h
    exact ⟨hold,fun x hx => .inl hx⟩
  | collect n tnow =>
    obtain ⟨p,hp,h⟩ := Option.bind_eq_some_iff.mp h
    have hleft : ∀ p ∈ s.polls.eraseIdx n, (∃ p' ∈ s.polls, ∃ phase, p = { p' with phase }) ∨
        authedPubkey p.authorization p.t p.clientIp s.auth.sessions = some p.pubkey :=
      fun p hp => hold p ((List.eraseIdx_sublist _ _).subset hp)
    split at h
    · simp only at h
      split at h <;> obtain ⟨rfl,-⟩ := Prod.mk.inj (Option.some.inj h)
      · exact ⟨hleft,fun x hx => .inl hx⟩
      · exact ⟨hset hp,fun x hx => .inl hx⟩
    · cases h
    · obtain ⟨rfl,-⟩ := Prod.mk.inj (Option.some.inj h)
      exact ⟨hleft,fun x hx => .inl hx⟩
  | wake n tw | timeout n =>
    obtain ⟨p,hp,h⟩ := Option.bind_eq_some_iff.mp h
    rw [Option.ite_none_right_eq_some, Option.some.injEq] at h
    obtain ⟨rfl,-⟩ := Prod.mk.inj h.2
    exact ⟨hset hp,fun x hx => .inl hx⟩
  | commitSend n =>
    obtain ⟨x,-,h⟩ := Option.map_eq_some_iff.mp h
    obtain ⟨rfl,-⟩ := Prod.mk.inj h
    exact ⟨hold,fun x hx => .inl ((List.eraseIdx_sublist _ _).subset hx)⟩
  | prune t =>
    obtain ⟨rfl,-⟩ := Prod.mk.inj (Option.some.inj h)
    exact ⟨hold,fun x hx => .inl hx⟩
  | task txn =>
    simp only [handle, Option.ite_none_right_eq_some, Option.some.injEq] at h
    obtain ⟨rfl,-⟩ := Prod.mk.inj h.2
    exact ⟨hold,fun x hx => .inl hx⟩

/-- A page is handed out to an open poll, and shows what the mailbox holds for its key. -/
theorem handed_collects {s : Service} {act : ServiceAct} {p : OpenPoll} {page : Page}
    (h : s.handed cfg rt act = some (p,page)) : p ∈ s.polls ∧
      ∃ tnow, page = collectAt cfg.toConfig p.pubkey p.clampedCursor tnow s.auth.relay.mail.messages := by
  unfold handed at h
  split at h
  · rename_i n tnow page' hanswer
    obtain ⟨p',hp,heq⟩ := Option.map_eq_some_iff.mp h
    obtain ⟨rfl,rfl⟩ := Prod.mk.inj heq
    refine ⟨List.mem_of_getElem? hp,?_⟩
    simp only [handle, hp, Option.bind_some] at hanswer
    split at hanswer
    · split at hanswer
      · exact ⟨p'.t,(Answer.page.inj (Option.some.inj hanswer)).symm⟩
      · cases hanswer
    · cases hanswer
    · exact ⟨tnow,(Answer.page.inj (Option.some.inj hanswer)).symm⟩
  · cases h

theorem takenIn_federated {s : Service} {act : ServiceAct} {e : Envelope}
    (h : s.takenIn cfg rt act = some e) : cfg.federationEnabled = true := by
  unfold takenIn at h
  split at h
  · rename_i hanswer
    obtain ⟨⟨s',answer⟩,hhandle,rfl⟩ := Option.bind_eq_some_iff.mp hanswer
    simp only [handle, Option.ite_none_right_eq_some, Option.some.injEq, arrive] at hhandle
    obtain ⟨-,hhandle⟩ := hhandle
    split at hhandle
    · simp at hhandle
    · rename_i hfed
      simpa using hfed
  · cases h

variable (cfg rt) in
theorem redeemed_grows (s : Service) (act : ServiceAct) (s' : Service) (log : ServiceLog) :
    log.auth.redeemed ⊆ (s.note cfg rt act s' log).auth.redeemed := by
  simp only [note]
  cases s.authAct cfg act with
  | none => exact List.Subset.refl _
  | some a => exact List.subset_append_left _ _

/-- Every step keeps the relay guarded. -/
theorem Guarded.step {s s' : Service} {log : ServiceLog} {act : ServiceAct} {answer : Option Answer}
    (h : Guarded cfg rt s log) (hstep : s.handle cfg rt act = some (s',answer)) :
    Guarded cfg rt s' (s.note cfg rt act s' log) := by
  have hauth := handle_auth hstep
  have hredeemed := redeemed_grows cfg rt s act s' log
  have hsent : log.sent ⊆ (s.note cfg rt act s' log).sent := List.subset_append_left _ _
  have hforwarded : log.forwarded ⊆ (s.note cfg rt act s' log).forwarded := List.subset_append_left _ _
  obtain ⟨hpolls,hsends⟩ := let_in hstep
  have hadmitted : ∀ x ∈ s.sends, Admitted cfg rt (s.note cfg rt act s' log).auth x :=
    fun x hx => ⟨(h.sends x hx).1.mono hredeemed,(h.sends x hx).2⟩
  refine ⟨?_,?_,?_,fun p hp => ?_,fun x hx => ?_,fun e he => ?_,fun x hx => ?_,fun hne => ?_,
    fun m hm => ?_⟩
  · cases ha : s.authAct cfg act with
    | none =>
      rw [ha, Option.elim_none, Option.some.injEq] at hauth
      simpa [note, ha, hauth] using h.once
    | some a =>
      rw [ha, Option.elim_some] at hauth
      simpa [note, ha] using h.once.step hauth
  · cases ha : s.authAct cfg act with
    | none =>
      rw [ha, Option.elim_none, Option.some.injEq] at hauth
      simpa [note, ha, hauth] using h.signed
    | some a =>
      rw [ha, Option.elim_some] at hauth
      simpa [note, ha] using h.signed.step hauth
  · cases ha : s.authAct cfg act with
    | none =>
      rw [ha, Option.elim_none, Option.some.injEq] at hauth
      exact hauth ▸ h.wf
    | some a =>
      rw [ha, Option.elim_some] at hauth
      exact auth_wf h.wf hauth
  · obtain ⟨p',hp',phase,rfl⟩ | hauthed := hpolls p hp
    · exact (h.polls p' hp').mono hredeemed
    · exact (h.entitled hauthed).mono hredeemed
  · obtain hx | ⟨hauthed,hvalid⟩ := hsends x hx
    · exact hadmitted x hx
    · exact ⟨(h.entitled hauthed).mono hredeemed,hvalid⟩
  · obtain he | he := List.mem_append.mp he
    · obtain ⟨hentitled,hevents⟩ := h.pages e he
      exact ⟨hentitled.mono hredeemed,fun blob hblob => (hevents blob hblob).mono hsent hforwarded⟩
    · obtain ⟨hp,tnow,hpage⟩ := handed_collects (Option.mem_toList.mp he)
      refine ⟨(h.polls _ hp).mono hredeemed,fun blob hblob => ?_⟩
      rw [hpage] at hblob
      obtain ⟨m,hm,hkey,rfl⟩ := mem_events hblob
      exact hkey ▸ (h.rows m hm).mono hsent hforwarded
  · obtain hx | hx := List.mem_append.mp hx
    · exact ⟨(h.sent x hx).1.mono hredeemed,(h.sent x hx).2⟩
    · cases act with
      | commitSend n => exact hadmitted x (List.mem_of_getElem? (Option.mem_toList.mp hx))
      | request | verify | install | collect | wake | timeout | prune | task => simp at hx
  · cases htaken : s.takenIn cfg rt act with
    | none => exact h.forwarded (by simpa [note, htaken] using hne)
    | some e => exact takenIn_federated htaken
  · cases ha : s.authAct cfg act with
    | none =>
      rw [ha, Option.elim_none, Option.some.injEq] at hauth
      exact (h.rows m (hauth ▸ hm)).mono hsent hforwarded
    | some a =>
      rw [ha, Option.elim_some] at hauth
      obtain ⟨m',hm',hkey,hblob,-⟩ | ⟨txn,t,rfl,hop⟩ := auth_rows h.wf hauth hm
      · exact hkey ▸ hblob ▸ (h.rows m' hm').mono hsent hforwarded
      · obtain ⟨n,x,rfl,hx,hin⟩ | ⟨htaken,-⟩ := appends hstep ha hop
        · exact .inl ⟨x,List.mem_append_right _ (by simp [hx]),hin⟩
        · exact .inr (List.mem_append_right _ (by simp [htaken]))

theorem guarded_run {acts : List ServiceAct} {s : Service} {log : ServiceLog}
    (hrun : Lts.run (Lts.watch (step cfg rt) (note cfg rt)) ({},{}) acts = some (s,log)) :
    Guarded cfg rt s log := by
  refine Lts.run_invariant _ (I := fun sl : Service × ServiceLog => Guarded cfg rt sl.1 sl.2)
    (fun sl act sl' hI hstep => ?_) ?_ hrun
  · obtain ⟨hact,hnote⟩ := Lts.watch_eq_some _ hstep
    obtain ⟨⟨s',answer⟩,hhandle,rfl⟩ := Option.map_eq_some_iff.mp hact
    rw [hnote]
    exact hI.step hhandle
  · exact ⟨Auth.once_start {},⟨by simp,by simp⟩,Mailbox.wf_empty,by simp,by simp,by simp,by simp,
      by simp,by simp⟩

/-- In every run, a page goes only to a poll with the token of a live session, which was bought with the
signature of the key whose mail is in the page; and all that mail was sent to the key in a valid batch of
somebody else who was let in likewise, or was forwarded by a peer while there were any. -/
theorem mail_only_for_signers {acts : List ServiceAct} {s : Service} {log : ServiceLog}
    (hrun : Lts.run (Lts.watch (step cfg rt) (note cfg rt)) ({},{}) acts = some (s,log)) :
    ∀ e ∈ log.pages, Entitled cfg rt log.auth e.1.authorization e.1.clientIp e.1.t e.1.pubkey ∧
      ∀ blob ∈ e.2.events,
        (∃ x ∈ log.sent, ⟨e.1.pubkey,blob⟩ ∈ x.messages ∧ x.senderKey ≠ e.1.pubkey ∧
          Admitted cfg rt log.auth x) ∨
        ⟨e.1.pubkey,blob⟩ ∈ log.forwarded ∧ cfg.federationEnabled = true := by
  have h := guarded_run hrun
  intro e he
  obtain ⟨hentitled,hevents⟩ := h.pages e he
  refine ⟨hentitled,fun blob hblob => ?_⟩
  obtain ⟨x,hx,hin⟩ | hin := hevents blob hblob
  · refine .inl ⟨x,hx,hin,fun hself => ?_,h.sent x hx⟩
    have hvalid := (h.sent x hx).2
    simp only [validateBatch] at hvalid
    split at hvalid
    · cases hvalid
    split at hvalid
    · cases hvalid
    split at hvalid
    · cases hvalid
    rename_i hother
    exact hother (List.any_eq_true.mpr ⟨_,hin,by simp [hself]⟩)
  · exact .inr ⟨hin,h.forwarded (List.ne_nil_of_mem hin)⟩

/-- A runtime in which a signature is the first byte of its key and what it signs, in 64 bytes. -/
def toyRuntime : Runtime where
  bytesFromHex := Hex.decodeChars
  textToBytes s := s.map fun c => c.toNat.toUInt8
  verify pk text sig := sig = (pk.take 1 ++ text ++ List.replicate 64 0).take 64

/-- A key `dd…` logs in with a token. -/
def sampleLogin (digit : Char) (token : String) : List ServiceAct :=
  let text := (signedText {} ['c']).map fun c => c.toNat.toUInt8
  let sig := (((Hex.decodeChars (sampleKey digit)).getD []).take 1 ++ text ++ List.replicate 64 0).take 64
  [.request (.reqChallenge (sampleKey digit) none) 0 ['c'],
    .request (.verifyAuth (sampleKey digit) ['c'] (sig.flatMap Hex.encodeByte) false none) 0 token.toList,
    .verify 0,.install 0]

/-- Two keys log in, and one polls down what the other has sent. -/
def sampleService : List ServiceAct :=
  sampleLogin 'a' "t" ++ sampleLogin 'b' "u" ++
    [.request (.sendMessages [⟨sampleKey 'b',sampleBlob '1'⟩] "Bearer t".toList none) 1 [],.commitSend 0,
      .request (.poll 0 "Bearer u".toList none) 2 [],.collect 0 2]

theorem mail_only_for_signers_polled : ∃ s log p,
    Lts.run (Lts.watch (step {} toyRuntime) (note {} toyRuntime)) ({},{}) sampleService = some (s,log) ∧
    (p,⟨[sampleBlob '1'],1⟩) ∈ log.pages ∧ p.pubkey = sampleKey 'b' ∧
    Entitled {} toyRuntime log.auth p.authorization p.clientIp p.t p.pubkey := by
  have hrun : (Lts.run (Lts.watch (step {} toyRuntime) (note {} toyRuntime)) ({},{}) sampleService).any
      (fun s => s.2.pages.any fun e => e.1.pubkey = sampleKey 'b' && e.2 = ⟨[sampleBlob '1'],1⟩) = true := by
    decide +kernel
  simp only [Option.any_eq_true, List.any_eq_true, Bool.and_eq_true, decide_eq_true_eq, Prod.exists] at hrun
  obtain ⟨s,log,hs,p,page,hmem,hkey,rfl⟩ := hrun
  exact ⟨s,log,p,hs,hmem,hkey,(mail_only_for_signers hs _ hmem).1⟩

end Service
end
end Skrepka.Relay
