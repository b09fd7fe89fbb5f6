import Skrepka.Client.Asks
import Skrepka.Client.Fields
import Skrepka.Client.Phone

/-! The identity key of the apple shell: it is loaded from the keychain at every start, or made where the
keychain says that there is none, and handed to the client. -/
namespace Skrepka.Apple
open Rust Mvu Client

abbrev OSStatus := ℤ

def errSecSuccess : OSStatus := 0
def errSecItemNotFound : OSStatus := -25300
def errSecDuplicateItem : OSStatus := -25299

/-- The calls of the keychain. Each answers with a status and with what it has found, or has left in the
keychain, from what the keychain holds and the circumstances of the call. -/
structure SecItem (κ : Type) where
  secItemCopyMatching (item : Option Bytes) (circumstances : κ) : OSStatus × Option Bytes
  secItemUpdate (data : Bytes) (item : Option Bytes) (circumstances : κ) : OSStatus × Option Bytes
  secItemAdd (data : Bytes) (item : Option Bytes) (circumstances : κ) : OSStatus × Option Bytes
  copied {item c} (h : (secItemCopyMatching item c).1 = errSecSuccess) :
    item.isSome ∧ (secItemCopyMatching item c).2 = item
  missing {item c} (h : (secItemCopyMatching item c).1 = errSecItemNotFound) : item = none
  updated {data item c} (h : (secItemUpdate data item c).1 = errSecSuccess) :
    item.isSome ∧ (secItemUpdate data item c).2 = some data
  notUpdated {data item c} (h : (secItemUpdate data item c).1 ≠ errSecSuccess) :
    (secItemUpdate data item c).2 = item
  added {data item c} (h : (secItemAdd data item c).1 = errSecSuccess) :
    item = none ∧ (secItemAdd data item c).2 = some data
  notAdded {data item c} (h : (secItemAdd data item c).1 ≠ errSecSuccess) :
    (secItemAdd data item c).2 = item

inductive IdentityError
  | unreadable (status : OSStatus)
  | corrupt (count : ℕ)
  | notStored (status : OSStatus)

def IdentityError.message : IdentityError → String
  | unreadable status => "Could not read the identity key from the Keychain (" ++ toString status ++ "). " ++
    "Unlock the device and try again."
  | corrupt count => "The stored identity key is " ++ toString count ++ " bytes, not 64. " ++
    "Reinstalling the app will create a new identity — the old one is unrecoverable."
  | notStored status => "Could not save the new identity key to the Keychain (" ++ toString status ++ ")."

variable {κ : Type}

/-- Only one status means that there is no identity yet. -/
def load (k : SecItem κ) (item : Option Bytes) (c : κ) : Except OSStatus (Option Bytes) :=
  match k.secItemCopyMatching item c with
  | (status,data) =>
    if status = errSecSuccess then .ok data
    else if status = errSecItemNotFound then .ok none
    else .error status

/-- How far a start has come: a key was made because none was found, or it was not there to update. -/
inductive Boot
  | idle
  | made (key : Bytes)
  | unlisted (key : Bytes)
  deriving DecidableEq

/-- The client and the keychain of a phone. -/
structure Shell where
  phone : Phone
  item : Option Bytes
  boot : Boot := .idle
  identityError : Option String := none

/-- What the calls of `loadOrCreateIdentity` answer, what happens to the client meanwhile, and kills. -/
inductive ShellAct (κ : Type)
  | bootIdentity (amb : Ambient) (c : κ) (seed : { seed : Bytes // seed.length = 32 })
  | update (amb : Ambient) (c : κ)
  | add (amb : Ambient) (c : κ)
  | client (hap : Happening Ambient Event Answer)
  | kill

/-- What the shell does itself: hand over an identity, and go down with its client. -/
def isShells : Happening Ambient Event Answer → Bool
  | .act _ (.shell (.identityLoaded _)) | .kill => true
  | _ => false

namespace Shell
variable (x : Crates) (k : SecItem κ)

def fresh (disk : Disk) (item : Option Bytes) : Shell := { phone := Device.fresh (app x) disk, item }

def handOver (amb : Ambient) (key : Bytes) (s : Shell) : Option Shell :=
  (s.phone.step x (.act amb (.shell (.identityLoaded key)))).map fun phone =>
    { s with phone, boot := .idle, identityError := none }

def fail (error : IdentityError) (s : Shell) : Shell :=
  { s with boot := .idle, identityError := some error.message }

def step (s : Shell) : ShellAct κ → Option Shell
  | .bootIdentity amb c seed =>
    match s.boot with
    | .idle =>
      match load k s.item c with
      | .error status => some (s.fail (.unreadable status))
      | .ok (some existing) =>
        if existing.length = 64 then s.handOver x amb existing else some (s.fail (.corrupt existing.length))
      | .ok none => some { s with boot := .made (seed.val ++ x.ed25519Public seed.val) }
    | _ => none
  | .update amb c =>
    match s.boot with
    | .made key =>
      match k.secItemUpdate key s.item c with
      | (status,item) =>
        let s := { s with item }
        if status = errSecSuccess then s.handOver x amb key
        else if status = errSecItemNotFound then some { s with boot := .unlisted key }
        else some (s.fail (.notStored status))
    | _ => none
  | .add amb c =>
    match s.boot with
    | .unlisted key =>
      match k.secItemAdd key s.item c with
      | (status,item) =>
        let s := { s with item }
        if status = errSecSuccess then s.handOver x amb key else some (s.fail (.notStored status))
    | _ => none
  | .client hap =>
    if isShells hap then none else (s.phone.step x hap).map fun phone => { s with phone }
  | .kill => (s.phone.step x .kill).map fun phone => { s with phone, boot := .idle, identityError := none }

end Shell

/-- The client has no identity, or that of the keychain. -/
def Holds (item : Option Bytes) (m : Model) : Prop :=
  ∀ key, m.secretKey = some key → item = some key ∧ m.myPubkey = Hex.encode (key.drop 32)

section
variable {x : Crates} {item : Option Bytes}

theorem Holds.of_eq {m m' : Model} (h : Holds item m) (hkey : m'.secretKey = m.secretKey)
    (hpub : m'.myPubkey = m.myPubkey) : Holds item m' := by
  unfold Holds
  rw [hkey, hpub]
  exact h

/-- An event brings an identity only from the keychain. -/
def Brings (item : Option Bytes) (e : Event) : Prop := ∀ key, e = .identityLoaded key → item = some key

theorem fromSecretBytes_secretKey {key : Bytes} {id : Crypto.Identity}
    (h : Crypto.fromSecretBytes x key = .ok id) : id.secretKey = key := by
  unfold Crypto.fromSecretBytes Crypto.withX25519 at h
  split at h
  · cases h
  split at h
  · cases h
  dsimp only at h
  split at h
  · cases h
  · cases h
    rfl

theorem update_holds {amb : Ambient} {e : Event} {m : Model} (h : Holds item m) (he : Brings item e) :
    Holds item (update x amb e m).1 := by
  cases e with
  | identityLoaded key =>
    simp only [update, identityLoaded]
    cases hid : Crypto.fromSecretBytes x key with
    | error => exact h.of_eq rfl rfl
    | ok id =>
      intro key' hkey
      obtain rfl : key = key' := by simpa using hkey
      refine ⟨he key rfl,?_⟩
      change Hex.encode (id.secretKey.drop 32) = _
      rw [fromSecretBytes_secretKey hid]
  | _ =>
    exact h.of_eq (update_agrees x amb _ m .secretKey (by simp [Event.writes]))
      (update_agrees x amb _ m .myPubkey (by simp [Event.writes]))

theorem answer_brings {x : Crates} {f : Effect} {r : Answer} {e : Event} (h : answer x f r = some e) : Brings item e := by
  rintro key rfl
  cases f with
  | http req tag => cases r <;> cases tag <;> simp [answer, HttpTag.event] at h
  | kv op tag => cases r <;> cases tag <;> simp [answer, KvTag.event] at h
  | time ms tag => cases r <;> cases tag <;> simp [answer, TimeTag.event] at h

/-- No event that the client sends to itself brings an identity. -/
theorem queued_brings {amb : Ambient} {e e' : Event} {m : Model}
    (h : e' ∈ Cmd.events (update x amb e m).2) : Brings item e' := by
  rintro key rfl
  have hother : Ask.other ∉ e.asks := by cases e <;> simp [Event.asks]
  exact absurd ((update_asks x amb e m).event h) hother

/-- The client runs under the key in the keychain, or under none. -/
structure Keyed (item : Option Bytes) (c : Running) : Prop where
  holds : Holds item c.model
  queue : ∀ e ∈ c.queue, Brings item e

/-- A client that runs under no key may be given any. -/
theorem Keyed.fill {c : Running} (h : Keyed none c) : Keyed item c := by
  refine ⟨fun key hkey => ?_,fun e he key hkey => ?_⟩
  · cases (h.holds key hkey).1
  · cases h.queue e he key hkey

theorem Keyed.core_step {c d : Running} {l : Label} (h : Keyed item c) (hstep : c.step (app x) l = some d)
    (hshell : ∀ key, l.2 = .shell (.identityLoaded key) → item = some key) : Keyed item d := by
  obtain ⟨e,c₁,htake,rfl⟩ := Core.step_cases hstep
  have hbrings : Brings item e := by
    generalize hl : l.2 = action at htake
    cases htake with
    | drain hq => exact h.queue e (hq ▸ List.mem_cons_self)
    | shell => exact fun key he => hshell key (he ▸ hl)
    | answer _ _ he => exact answer_brings he
  refine ⟨update_holds (htake.model_eq ▸ h.holds) hbrings,fun e' he' => ?_⟩
  obtain he' | he' := List.mem_append.mp he'
  · exact h.queue e' (htake.mem_queue he')
  · exact queued_brings he'

theorem Keyed.phone_step {d d' : Phone} {hap : Happening Ambient Event Answer} (h : Keyed item d.core)
    (hstep : d.step x hap = some d')
    (hshell : ∀ amb key, hap = .act amb (.shell (.identityLoaded key)) → item = some key) :
    Keyed item d'.core := by
  cases hap with
  | act amb action =>
    obtain ⟨l,hl,hstep⟩ := Option.bind_eq_some_iff.mp hstep
    obtain ⟨core,hcore,rfl⟩ := Option.map_eq_some_iff.mp hstep
    obtain rfl := Option.some.inj (Option.ite_none_right_eq_some.mp hl).2
    refine h.core_step hcore fun key hkey => hshell amb key ?_
    obtain rfl : action = .shell (.identityLoaded key) := hkey
    rfl
  | deliver amb t =>
    obtain ⟨l,hl,hstep⟩ := Option.bind_eq_some_iff.mp hstep
    obtain ⟨core,hcore,rfl⟩ := Option.map_eq_some_iff.mp hstep
    obtain ⟨r,-,rfl⟩ := Option.map_eq_some_iff.mp hl
    exact h.core_step hcore fun key hkey => by simp at hkey
  | perform ok =>
    obtain ⟨p,-,rfl⟩ := Option.map_eq_some_iff.mp hstep
    exact h
  | kill =>
    obtain rfl := Option.some.inj hstep
    exact ⟨fun key hkey => by simp [Core.boot, app] at hkey,by simp [Core.boot]⟩

end

namespace Shell
variable {x : Crates} {k : SecItem κ}

/-- A key that is on its way into the keychain replaces none. -/
structure Sound (s : Shell) : Prop where
  keyed : Keyed s.item s.phone.core
  vacant : s.boot ≠ .idle → s.item = none

theorem Sound.fail {s : Shell} (h : s.Sound) (error : IdentityError) : (s.fail error).Sound :=
  ⟨h.keyed,fun hboot => absurd rfl hboot⟩

theorem Sound.handOver {s t : Shell} {amb : Ambient} {key : Bytes} (h : Keyed s.item s.phone.core)
    (hitem : s.item = some key) (hstep : s.handOver x amb key = some t) : t.Sound ∧ t.item = s.item := by
  obtain ⟨phone,hphone,rfl⟩ := Option.map_eq_some_iff.mp hstep
  refine ⟨⟨h.phone_step hphone fun amb' key' heq => ?_,fun hboot => absurd rfl hboot⟩,rfl⟩
  simp only [Happening.act.injEq, Action.shell.injEq, Event.identityLoaded.injEq] at heq
  exact heq.2 ▸ hitem

theorem load_eq {item data : Option Bytes} {c : κ} (h : load k item c = .ok data) : data = item := by
  simp only [load] at h
  split at h
  · rename_i hsuccess
    obtain rfl := Except.ok.inj h
    exact (k.copied hsuccess).2
  split at h
  · rename_i hmissing
    obtain rfl := Except.ok.inj h
    exact (k.missing hmissing).symm
  · cases h

/-- Where nothing is, nothing is updated. -/
theorem update_none (k : SecItem κ) (key : Bytes) (c : κ) :
    (k.secItemUpdate key none c).1 ≠ errSecSuccess ∧ (k.secItemUpdate key none c).2 = none := by
  have hstatus : (k.secItemUpdate key none c).1 ≠ errSecSuccess := fun h =>
    absurd (k.updated h).1 Bool.false_ne_true
  exact ⟨hstatus,k.notUpdated hstatus⟩

/-- A key in the keychain stays as it is, and the client runs under no other. -/
theorem Sound.step {s t : Shell} {a : ShellAct κ} (h : s.Sound) (hstep : s.step x k a = some t) :
    t.Sound ∧ ∀ data, s.item = some data → t.item = some data := by
  cases a with
  | bootIdentity amb c seed =>
    simp only [Shell.step] at hstep
    cases hboot : s.boot with
    | made | unlisted => simp [hboot] at hstep
    | idle =>
      simp only [hboot] at hstep
      cases hload : load k s.item c with
      | error status =>
        obtain rfl : s.fail (.unreadable status) = t := by simpa [hload] using hstep
        exact ⟨h.fail _,fun _ hitem => hitem⟩
      | ok data =>
        have hdata := load_eq hload
        cases data with
        | none =>
          obtain rfl : { s with boot := .made (seed.val ++ x.ed25519Public seed.val) } = t := by
            simpa [hload] using hstep
          exact ⟨⟨h.keyed,fun _ => hdata.symm⟩,fun _ hitem => hitem⟩
        | some existing =>
          simp only [hload] at hstep
          split at hstep
          · obtain ⟨ht,hitem⟩ := Sound.handOver h.keyed hdata.symm hstep
            exact ⟨ht,fun _ hs => hitem ▸ hs⟩
          · obtain rfl := Option.some.inj hstep
            exact ⟨h.fail _,fun _ hitem => hitem⟩
  | update amb c =>
    simp only [Shell.step] at hstep
    cases hboot : s.boot with
    | idle | unlisted => simp [hboot] at hstep
    | made key =>
      have hnone := h.vacant (by simp [hboot])
      obtain ⟨hstatus,hitem⟩ := update_none k key c
      simp only [hboot, hnone, hstatus, hitem, if_false] at hstep
      have hkeyed : Keyed none s.phone.core := hnone ▸ h.keyed
      refine ⟨?_,fun data hdata => by simp [hnone] at hdata⟩
      split at hstep
      · obtain rfl := Option.some.inj hstep
        exact ⟨hkeyed,fun _ => rfl⟩
      · obtain rfl := Option.some.inj hstep
        exact ⟨hkeyed,fun hidle => absurd rfl hidle⟩
  | add amb c =>
    simp only [Shell.step] at hstep
    cases hboot : s.boot with
    | idle | made => simp [hboot] at hstep
    | unlisted key =>
      have hnone := h.vacant (by simp [hboot])
      have hkeyed : Keyed none s.phone.core := hnone ▸ h.keyed
      refine ⟨?_,fun data hdata => by simp [hnone] at hdata⟩
      by_cases hstatus : (k.secItemAdd key none c).1 = errSecSuccess
      · simp only [hboot, hnone, hstatus, if_true] at hstep
        refine (Sound.handOver ?_ (k.added hstatus).2 hstep).1
        exact hkeyed.fill
      · simp only [hboot, hnone, hstatus, k.notAdded hstatus, if_false] at hstep
        obtain rfl := Option.some.inj hstep
        exact ⟨hkeyed,fun hidle => absurd rfl hidle⟩
  | client hap =>
    obtain ⟨hown,hstep⟩ := Option.ite_none_left_eq_some.mp hstep
    obtain ⟨phone,hphone,rfl⟩ := Option.map_eq_some_iff.mp hstep
    refine ⟨⟨h.keyed.phone_step hphone fun amb key heq => ?_,h.vacant⟩,fun _ hitem => hitem⟩
    simp [heq, isShells] at hown
  | kill =>
    simp only [Shell.step] at hstep
    obtain ⟨phone,hphone,rfl⟩ := Option.map_eq_some_iff.mp hstep
    exact ⟨⟨h.keyed.phone_step hphone (by simp),fun hidle => absurd rfl hidle⟩,fun _ hitem => hitem⟩

theorem sound_run {s t : Shell} {acts : List (ShellAct κ)} (h : s.Sound)
    (hrun : Lts.run (Shell.step x k) s acts = some t) :
    t.Sound ∧ ∀ data, s.item = some data → t.item = some data := by
  induction acts generalizing s with
  | nil =>
    obtain rfl := Option.some.inj hrun
    exact ⟨h,fun _ hitem => hitem⟩
  | cons a acts ih =>
    obtain ⟨u,hu,hrest⟩ := (Lts.run_cons_eq_some _).mp hrun
    obtain ⟨hsound,hkept⟩ := h.step hu
    obtain ⟨ht,hlater⟩ := ih hsound hrest
    exact ⟨ht,fun data hitem => hlater data (hkept data hitem)⟩

/-- Through all starts, kills and failures of the keychain, what is in the keychain stays, and a client
that has run under a key runs under that one whenever it runs. -/
theorem identity_lasts {disk : Disk} {item : Option Bytes} {acts later : List (ShellAct κ)} {s t : Shell}
    (hs : Lts.run (Shell.step x k) (fresh x disk item) acts = some s)
    (ht : Lts.run (Shell.step x k) s later = some t) :
    (∀ data, s.item = some data → t.item = some data) ∧
    ∀ key, s.phone.core.model.secretKey = some key → t.item = some key ∧
      ∀ key', t.phone.core.model.secretKey = some key' → key' = key ∧
        t.phone.core.model.myPubkey = s.phone.core.model.myPubkey := by
  have hfresh : (fresh x disk item).Sound :=
    ⟨⟨fun key hkey => by simp [fresh, Device.fresh, Core.boot, app] at hkey,
      by simp [fresh, Device.fresh, Core.boot]⟩,fun hboot => absurd rfl hboot⟩
  obtain ⟨hsound,-⟩ := sound_run hfresh hs
  obtain ⟨hsound',hkept⟩ := sound_run hsound ht
  refine ⟨hkept,fun key hkey => ?_⟩
  obtain ⟨hitem,hpub⟩ := hsound.keyed.holds key hkey
  refine ⟨hkept key hitem,fun key' hkey' => ?_⟩
  obtain ⟨hitem',hpub'⟩ := hsound'.keyed.holds key' hkey'
  obtain rfl := Option.some.inj (hitem'.symm.trans (hkept key hitem))
  exact ⟨rfl,hpub'.trans hpub.symm⟩

end Shell

/-- A failure of the keychain, which says nothing about what it holds. -/
structure Fault where
  code : OSStatus
  notSuccess : code ≠ errSecSuccess
  notMissing : code ≠ errSecItemNotFound

/-- A keychain for one item, of which any call may fail. -/
def sampleKeychain : SecItem (Option Fault) where
  secItemCopyMatching item fault := match fault, item with
    | some fault, _ => (fault.code,none)
    | none, some data => (errSecSuccess,some data)
    | none, none => (errSecItemNotFound,none)
  secItemUpdate data item fault := match fault, item with
    | some fault, _ => (fault.code,item)
    | none, some _ => (errSecSuccess,some data)
    | none, none => (errSecItemNotFound,none)
  secItemAdd data item fault := match fault, item with
    | some fault, _ => (fault.code,item)
    | none, some old => (errSecDuplicateItem,some old)
    | none, none => (errSecSuccess,some data)
  copied {item fault} h := by
    cases fault with
    | some fault => exact absurd h fault.notSuccess
    | none => cases item <;> simp_all [errSecSuccess, errSecItemNotFound]
  missing {item fault} h := by
    cases fault with
    | some fault => exact absurd h fault.notMissing
    | none => cases item <;> simp_all [errSecSuccess, errSecItemNotFound]
  updated {data item fault} h := by
    cases fault with
    | some fault => exact absurd h fault.notSuccess
    | none => cases item <;> simp_all [errSecSuccess, errSecItemNotFound]
  notUpdated {data item fault} h := by
    cases fault with
    | some fault => rfl
    | none => cases item <;> simp_all [errSecSuccess, errSecItemNotFound]
  added {data item fault} h := by
    cases fault with
    | some fault => exact absurd h fault.notSuccess
    | none => cases item <;> simp_all [errSecSuccess, errSecDuplicateItem]
  notAdded {data item fault} h := by
    cases fault with
    | some fault => rfl
    | none => cases item <;> simp_all [errSecSuccess, errSecDuplicateItem]

namespace Shell

/-- The first start cannot store its key, and the next one makes another. -/
def sampleStarts : List (ShellAct (Option Fault)) :=
  [.bootIdentity .sample none ⟨List.replicate 32 7,rfl⟩,
    .update .sample (some ⟨-25308,by decide,by decide⟩),
    .bootIdentity .sample none ⟨List.replicate 32 3,rfl⟩,.update .sample none,.add .sample none]

def sampleRestart : List (ShellAct (Option Fault)) :=
  [.kill,.bootIdentity .sample none ⟨List.replicate 32 8,rfl⟩]

theorem identity_lasts_killed : ∃ s t,
    Lts.run (Shell.step .sample sampleKeychain) (fresh .sample (fun _ => none) none) sampleStarts =
      some s ∧
    Lts.run (Shell.step .sample sampleKeychain) s sampleRestart = some t ∧
    s.phone.core.model.secretKey = some sampleSecret ∧ t.phone.core.model.secretKey = some sampleSecret ∧
    t.item = some sampleSecret := by
  have hrun : (Lts.run (Shell.step .sample sampleKeychain) (fresh .sample (fun _ => none) none)
      sampleStarts).any (fun s => s.phone.core.model.secretKey = some sampleSecret &&
        (Lts.run (Shell.step .sample sampleKeychain) s sampleRestart).any fun t =>
          t.phone.core.model.secretKey = some sampleSecret) = true := by decide
  simp only [Option.any_eq_true, Bool.and_eq_true, decide_eq_true_eq] at hrun
  obtain ⟨s,hs,hkey,t,ht,hkey'⟩ := hrun
  exact ⟨s,t,hs,ht,hkey,hkey',((identity_lasts hs ht).2 _ hkey).1⟩

end Shell
end Skrepka.Apple
