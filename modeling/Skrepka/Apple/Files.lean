import Skrepka.Lib.Percent
import Skrepka.Lib.Rehost
import Skrepka.Client.Asks
import Skrepka.Client.History

/-! The key-value store of the apple shell, one file for each key, and its renaming of the files of older
builds. The client runs on the files as on a store of keys. -/
namespace Skrepka.Apple
open Rust Mvu Client

/-- The key as the core writes it. -/
def keyText : KvKey → String
  | .settings => "settings"
  | .profile => "profile"
  | .contacts => "contacts"
  | .cursor => "cursor"
  | .outbox => "outbox"
  | .seenIds => "seen_ids"
  | .messages peer => "messages:" ++ peer

def fileURL (key : KvKey) : String := Percent.encode (keyText key)

/-- What the files of the directory hold. -/
abbrev Files := String → Option KvValue

def Files.put (files : Files) (name : String) (value : Option KvValue) : Files :=
  fun n => if n = name then value else files n

/-- The store that the files make up. -/
def Files.view (files : Files) : Disk := fun key => files (fileURL key)

def performFiles (files : Files) : KvOp → Files × Answer
  | .get key => (files,.kv (.ok (files (fileURL key))))
  | .set key value => (files.put (fileURL key) (some value),.kv (.ok none))
  | .delete key => (files.put (fileURL key) none,.kv (.ok (files (fileURL key))))

def fileStore : Store Effect Answer Files where
  isOp
    | .kv _ _ => true
    | _ => false
  perform
    | .kv op _, files => performFiles files op
    | _, files => (files,.kv (.ok none))
  failed := .kv (.error "store")

/-- The name under which older builds kept a conversation. -/
def legacyName (peer : String) : String := "messages_" ++ peer

def legacyPeer (name : String) : Option String :=
  if "messages_".toList <+: name.toList then some (String.ofList (name.toList.drop 9)) else none

/-- Rename a file, unless that fails. -/
def moveItem (fails : String → Bool) (name destination : String) (files : Files) : Files :=
  match files name with
  | none => files
  | some value =>
    if (files destination).isSome || fails name then files
    else (files.put name none).put destination (some value)

def migrateName (fails : String → Bool) (files : Files) (name : String) : Files :=
  match legacyPeer name with
  | none => files
  | some peer =>
    let destination := fileURL (.messages peer)
    if (files destination).isSome then files else moveItem fails name destination files

/-- Every start of the app goes through the names that the directory lists. -/
def migrateLegacyNames (names : List String) (fails : String → Bool) (files : Files) : Files :=
  names.foldl (migrateName fails) files

theorem keyText_injective : Function.Injective keyText := by
  intro k l h
  have hfirst (peer : String) : (keyText (.messages peer)).toList.head? = some 'm' := by
    simp [keyText]
  cases k with
  | messages peer =>
    cases l with
    | messages peer' => simpa [keyText] using h
    | _ => exact absurd ((congrArg (fun s => s.toList.head?) h).symm.trans (hfirst peer)) (by decide)
  | _ =>
    cases l with
    | messages peer =>
      exact absurd ((congrArg (fun s => s.toList.head?) h).trans (hfirst peer)) (by decide)
    | _ => first | rfl | exact absurd h (by decide)

theorem fileURL_injective : Function.Injective fileURL :=
  Percent.encode_injective.comp keyText_injective

/-- No key is kept under an old name. -/
theorem fileURL_ne_legacyName (key : KvKey) (peer : String) : fileURL key ≠ legacyName peer := by
  intro h
  have hin : '_' ∈ (legacyName peer).toList := by simp [legacyName]
  rw [← h] at hin
  exact Percent.underscore_not_mem (keyText key) hin

theorem legacyName_injective : Function.Injective legacyName := by
  intro p q h
  simpa [legacyName] using h

theorem legacyPeer_eq_some {name peer : String} : legacyPeer name = some peer ↔ name = legacyName peer := by
  unfold legacyPeer
  constructor
  · intro h
    obtain ⟨hinit,h⟩ := Option.ite_none_right_eq_some.mp h
    obtain ⟨rest,hrest⟩ := hinit
    rw [← hrest, show (9 : ℕ) = "messages_".toList.length from rfl, List.drop_left, Option.some.injEq] at h
    rw [← String.toList_inj, ← hrest, ← h]
    simp [legacyName]
  · rintro rfl
    rw [if_pos (by simp [legacyName])]
    simp [legacyName]

theorem Files.put_self (files : Files) (name : String) (value : Option KvValue) :
    files.put name value name = value := if_pos rfl

theorem Files.put_of_ne (files : Files) {name n : String} (h : n ≠ name) (value : Option KvValue) :
    files.put name value n = files n := if_neg h

/-- Writing the file of a key is writing the key. -/
theorem Files.view_put (files : Files) (key : KvKey) (value : Option KvValue) :
    (files.put (fileURL key) value).view = fun k => if k = key then value else files.view k := by
  funext k
  simp only [view, put, fileURL_injective.eq_iff]

/-- The client does not look at what its writes replace. -/
theorem write_alike (x : Crates) {op : KvOp} {tag : KvTag} (hknown : ask (.request (.kv op tag)) ≠ .other)
    (hwrite : ∀ key, op ≠ .get key) (value value' : Option KvValue) :
    (app x).Alike (.kv op tag) (.kv (.ok value)) (.kv (.ok value')) := by
  have htag : tag = .saved ∨ tag = .savedCursor := by
    cases op with
    | get key => exact absurd rfl (hwrite key)
    | set | delete => cases tag <;> simp [ask] at hknown ⊢
  obtain rfl | rfl := htag <;> rfl

theorem files_refines (x : Crates) :
    fileStore.Refines (app x) (fun f => ask (.request f) ≠ .other) kvStore Files.view where
  isOp := rfl
  disk f files := by
    cases f with
    | http | time => rfl
    | kv op tag =>
      cases op with
      | get => rfl
      | set | delete => exact files.view_put _ _
  answer f files hknown := by
    cases f with
    | http | time => rfl
    | kv op tag =>
      cases op with
      | get | delete => rfl
      | set => exact write_alike x hknown (by simp) _ _
  failed _ _ := rfl

/-- Whatever happens to the client over the files happens to it over a store of keys, and there is in the
files what there is in the store. -/
theorem files_refine_store (x : Crates) {files : Files} {haps : List (Happening Ambient Event Answer)}
    {d : Device Model Event Effect Answer Files}
    (hrun : Lts.run (Device.step (app x) fileStore) (Device.fresh (app x) files) haps = some d) :
    ∃ p : Phone, Lts.run (Phone.step x) (Device.fresh (app x) files.view) haps = some p ∧
      p.core = d.core ∧ p.disk = d.disk.view := by
  have hknown : ∀ amb e m, ∀ f ∈ Cmd.requests (update x amb e m).2, ask (.request f) ≠ .other := by
    intro amb e m f hf ho
    have hother : Ask.other ∉ e.asks := by cases e <;> simp [Event.asks]
    exact hother (ho ▸ (update_asks x amb e m).request hf)
  obtain ⟨p,hp,hmatch⟩ := Device.matches_run (files_refines x) hknown hrun
  exact ⟨p,hp,hmatch.core,hmatch.disk⟩

/-- Over an empty directory: a text to a new contact, whose conversation and contact are written. -/
def sampleFiling : List (Happening Ambient Event Answer) :=
  sampleActs [.shell (.identityLoaded sampleSecret)] ++ performs 6 ++ (List.range 6).map (.deliver .sample) ++
    sampleActs (.drain :: .drain :: sampleText (samplePeer 7)) ++ performs 2

/-- The write of the outbox fails, the contact and its conversation are deleted, and the client is
killed. -/
def sampleUnfiling : List (Happening Ambient Event Answer) :=
  [.perform false] ++ sampleActs [.shell (.deleteContact (samplePeer 7))] ++ performs 2 ++ [.kill]

theorem files_refine_store_killed : ∃ d : Device Model Event Effect Answer Files, ∃ p : Phone,
    (Lts.run (Device.step (app .sample) fileStore) (Device.fresh (app .sample) fun _ => none)
      sampleFiling).any (fun d => (d.disk (fileURL (.messages (samplePeer 7)))).isSome) = true ∧
    Lts.run (Device.step (app .sample) fileStore) (Device.fresh (app .sample) fun _ => none)
      (sampleFiling ++ sampleUnfiling) = some d ∧
    Lts.run (Phone.step .sample) (Device.fresh (app .sample) (Files.view fun _ => none))
      (sampleFiling ++ sampleUnfiling) = some p ∧
    p.core = d.core ∧ p.disk = d.disk.view ∧ p.disk (.messages (samplePeer 7)) = none ∧
    p.disk .outbox = none ∧ p.disk .contacts ≠ none := by
  have hrun : (Lts.run (Device.step (app .sample) fileStore) (Device.fresh (app .sample) fun _ => none)
      (sampleFiling ++ sampleUnfiling)).any (fun d => d.disk (fileURL (.messages (samplePeer 7))) = none &&
        d.disk (fileURL .outbox) = none && d.disk (fileURL .contacts) ≠ none) = true := by decide +kernel
  simp only [Option.any_eq_true, Bool.and_eq_true, decide_eq_true_eq] at hrun
  obtain ⟨d,hd,⟨hmessages,houtbox⟩,hcontacts⟩ := hrun
  obtain ⟨p,hp,hcore,hdisk⟩ := files_refine_store .sample hd
  refine ⟨d,p,by decide +kernel,hd,hp,hcore,hdisk,?_⟩
  rw [hdisk]
  exact ⟨hmessages,houtbox,hcontacts⟩

/-- What a migration may change: an old conversation takes the place of one that is not there. -/
structure Adopts (files files' : Files) : Prop where
  others : ∀ n, (∀ peer, n ≠ legacyName peer ∧ n ≠ fileURL (.messages peer)) → files' n = files n
  pair : ∀ peer,
    files' (legacyName peer) = files (legacyName peer) ∧
      files' (fileURL (.messages peer)) = files (fileURL (.messages peer)) ∨
    files (fileURL (.messages peer)) = none ∧
      files' (fileURL (.messages peer)) = files (legacyName peer) ∧ files' (legacyName peer) = none

theorem Adopts.refl (files : Files) : Adopts files files := ⟨fun _ _ => rfl,fun _ => .inl ⟨rfl,rfl⟩⟩

theorem Adopts.trans {files files₁ files₂ : Files} (h₁ : Adopts files files₁) (h₂ : Adopts files₁ files₂) :
    Adopts files files₂ := by
  refine ⟨fun n hn => (h₂.others n hn).trans (h₁.others n hn),fun peer => ?_⟩
  obtain ⟨hold,hnew⟩ | ⟨hfree,hmoved,hgone⟩ := h₁.pair peer
  · rw [← hold, ← hnew]
    exact h₂.pair peer
  · right
    obtain ⟨hold,hnew⟩ | ⟨hfree',hmoved',hgone'⟩ := h₂.pair peer
    · exact ⟨hfree,hnew.trans hmoved,hold.trans hgone⟩
    · exact ⟨hfree,by rw [hmoved', hgone, ← hmoved, hfree'],hgone'⟩

theorem migrateName_cases (fails : String → Bool) (files : Files) (name : String) :
    migrateName fails files name = files ∨ ∃ peer value, name = legacyName peer ∧ files name = some value ∧
      files (fileURL (.messages peer)) = none ∧
      migrateName fails files name = (files.put name none).put (fileURL (.messages peer)) (some value) := by
  unfold migrateName
  cases hpeer : legacyPeer name with
  | none => exact .inl rfl
  | some peer =>
    simp only [moveItem]
    split
    · exact .inl rfl
    · rename_i hfree
      cases hfile : files name with
      | none => exact .inl rfl
      | some value =>
        simp only [hfree, Bool.false_or]
        split
        · exact .inl rfl
        · exact .inr ⟨peer,value,legacyPeer_eq_some.mp hpeer,rfl,by simpa using hfree,rfl⟩

theorem migrateName_adopts (fails : String → Bool) (files : Files) (name : String) :
    Adopts files (migrateName fails files name) := by
  obtain heq | ⟨peer,value,rfl,hfile,hfree,heq⟩ := migrateName_cases fails files name
  · rw [heq]
    exact .refl files
  · rw [heq]
    refine ⟨fun n hn => ?_,fun other => ?_⟩
    · rw [Files.put_of_ne _ (hn peer).2, Files.put_of_ne _ (hn peer).1]
    · have hold : legacyName other ≠ fileURL (.messages peer) := (fileURL_ne_legacyName _ _).symm
      by_cases hsame : other = peer
      · subst hsame
        right
        rw [Files.put_self, Files.put_of_ne _ hold, Files.put_self, hfile]
        exact ⟨hfree,rfl,rfl⟩
      · left
        have hother : legacyName other ≠ legacyName peer := fun h => hsame (legacyName_injective h)
        have hnew : fileURL (.messages other) ≠ fileURL (.messages peer) :=
          fun h => hsame (KvKey.messages.inj (fileURL_injective h))
        rw [Files.put_of_ne _ hold, Files.put_of_ne _ hother, Files.put_of_ne _ hnew,
          Files.put_of_ne _ (fileURL_ne_legacyName _ _)]
        exact ⟨rfl,rfl⟩

theorem migrate_adopts (names : List String) (fails : String → Bool) (files : Files) :
    Adopts files (migrateLegacyNames names fails files) := by
  induction names generalizing files with
  | nil => exact .refl files
  | cons name names ih => exact (migrateName_adopts fails files name).trans (ih _)

/-- An old conversation is gone, or there is a new one. -/
def Settled (peer : String) (files : Files) : Prop :=
  files (legacyName peer) = none ∨ files (fileURL (.messages peer)) ≠ none

theorem Settled.adopts {peer : String} {files files' : Files} (h : Settled peer files)
    (ha : Adopts files files') : Settled peer files' := by
  obtain ⟨hold,hnew⟩ | ⟨-,-,hgone⟩ := ha.pair peer
  · unfold Settled
    rwa [hold, hnew]
  · exact .inl hgone

theorem migrateName_settles (files : Files) (peer : String) (fails : String → Bool)
    (hok : fails (legacyName peer) = false) : Settled peer (migrateName fails files (legacyName peer)) := by
  unfold migrateName
  rw [legacyPeer_eq_some.mpr rfl]
  simp only [moveItem]
  split
  · rename_i htaken
    exact .inr fun hnone => by simp [hnone] at htaken
  · rename_i hfree
    cases hfile : files (legacyName peer) with
    | none => exact .inl hfile
    | some value =>
      simp only [hfree, hok, Bool.or_self]
      exact .inr (by simp [Files.put_self])

theorem migrate_settles {names : List String} {fails : String → Bool} {peer : String} (files : Files)
    (hlisted : legacyName peer ∈ names) (hok : fails (legacyName peer) = false) :
    Settled peer (migrateLegacyNames names fails files) := by
  induction names generalizing files with
  | nil => simp at hlisted
  | cons name names ih =>
    obtain rfl | hlisted := List.mem_cons.mp hlisted
    · exact (migrateName_settles files peer fails hok).adopts (migrate_adopts names fails _)
    · exact ih _ hlisted

/-- A complete migration puts each old conversation where there is none. -/
theorem migrate_complete {names : List String} {fails : String → Bool} {files : Files} (peer : String)
    (hlisted : files (legacyName peer) ≠ none → legacyName peer ∈ names)
    (hok : fails (legacyName peer) = false) :
    migrateLegacyNames names fails files (fileURL (.messages peer)) =
      (files (fileURL (.messages peer))).or (files (legacyName peer)) := by
  have hpair := (migrate_adopts names fails files).pair peer
  by_cases hnone : files (legacyName peer) = none
  · rw [hnone, Option.or_none]
    obtain ⟨-,hnew⟩ | ⟨hfree,hmoved,-⟩ := hpair
    · exact hnew
    · rw [hmoved, hnone, hfree]
  · have hsettled := migrate_settles files (hlisted hnone) hok
    obtain ⟨hold,hnew⟩ | ⟨hfree,hmoved,-⟩ := hpair
    · obtain hgone | htaken := hsettled
      · exact absurd (hold.symm.trans hgone) hnone
      · rw [hnew] at htaken
        rw [hnew, Option.or_of_isSome (Option.isSome_iff_ne_none.mpr htaken)]
    · rw [hmoved, hfree, Option.none_or]

abbrev Installed := Device Model Event Effect Answer Files

/-- What happens to the client, and starts of the app, with the names that the directory lists and the
renamings that fail. -/
inductive LaunchAct
  | client (hap : Happening Ambient Event Answer)
  | launch (names : List String) (fails : String → Bool)

def launchStep (x : Crates) (d : Installed) : LaunchAct → Option Installed
  | .client hap => Device.step (app x) fileStore d hap
  | .launch names fails => some (Device.fresh (app x) (migrateLegacyNames names fails d.disk))

/-- The client does not know the old names. -/
theorem perform_legacy (f : Effect) (files : Files) (peer : String) :
    (fileStore.perform f files).1 (legacyName peer) = files (legacyName peer) := by
  cases f with
  | http | time => rfl
  | kv op =>
    cases op with
    | get => rfl
    | set | delete => exact Files.put_of_ne _ (fileURL_ne_legacyName _ _).symm _

/-- A start that hands over the old conversation of a peer. -/
structure HandsOver (peer : String) (value : Option KvValue) (names : List String) (fails : String → Bool)
    (before : Files) : Prop where
  old : before (legacyName peer) = value
  free : before.view (.messages peer) = none
  new : (migrateLegacyNames names fails before).view (.messages peer) = value

theorem launchStep_legacy {x : Crates} {c d : Installed} {a : LaunchAct} (peer : String)
    (hstep : launchStep x c a = some d) : d.disk (legacyName peer) = c.disk (legacyName peer) ∨
      d.disk (legacyName peer) = none ∧ ∃ names fails, a = .launch names fails ∧
        HandsOver peer (c.disk (legacyName peer)) names fails c.disk := by
  cases a with
  | client hap =>
    left
    obtain hsame | ⟨f,hdisk⟩ := Device.step_disk hstep
    · rw [hsame]
    · rw [hdisk, perform_legacy]
  | launch names fails =>
    obtain rfl := Option.some.inj hstep
    obtain ⟨hold,-⟩ | ⟨hfree,hmoved,hgone⟩ := (migrate_adopts names fails c.disk).pair peer
    · exact .inl hold
    · exact .inr ⟨hgone,names,fails,rfl,rfl,hfree,hmoved⟩

theorem legacy_run {x : Crates} {c d : Installed} {acts : List LaunchAct} (peer : String)
    (hrun : Lts.run (launchStep x) c acts = some d) : d.disk (legacyName peer) = c.disk (legacyName peer) ∨
      d.disk (legacyName peer) = none ∧
        ∃ earlier names fails later before, acts = earlier ++ .launch names fails :: later ∧
          Lts.run (launchStep x) c earlier = some before ∧
          HandsOver peer (c.disk (legacyName peer)) names fails before.disk := by
  induction acts generalizing c with
  | nil =>
    obtain rfl := Option.some.inj hrun
    exact .inl rfl
  | cons a acts ih =>
    obtain ⟨t,ht,hrest⟩ := (Lts.run_cons_eq_some _).mp hrun
    obtain hsame | ⟨hgone,names,fails,rfl,hover⟩ := launchStep_legacy peer ht
    · obtain hkept | ⟨hnone,earlier,names,fails,later,before,rfl,hearlier,hover⟩ := ih hrest
      · exact .inl (hkept.trans hsame)
      · exact .inr ⟨hnone,a :: earlier,names,fails,later,before,rfl,
          (Lts.run_cons_eq_some _).mpr ⟨t,ht,hearlier⟩,hsame ▸ hover⟩
    · right
      refine ⟨?_,[],names,fails,acts,c,rfl,rfl,hover⟩
      obtain hkept | ⟨hnone,-⟩ := ih hrest
      · exact hkept.trans hgone
      · exact hnone

/-- Through all starts and runs, whichever renamings fail, the old conversation of a peer is where it was,
or one start has put it in a free place; and a start that can rename all makes it the one that is read,
unless there is a newer one. -/
theorem legacy_kept (x : Crates) {files : Files} {acts : List LaunchAct} {d : Installed} (peer : String)
    (hrun : Lts.run (launchStep x) (Device.fresh (app x) files) acts = some d) :
    (d.disk (legacyName peer) = files (legacyName peer) ∨ d.disk (legacyName peer) = none ∧
      ∃ earlier names fails later before, acts = earlier ++ .launch names fails :: later ∧
        Lts.run (launchStep x) (Device.fresh (app x) files) earlier = some before ∧
        HandsOver peer (files (legacyName peer)) names fails before.disk) ∧
    ∀ names fails, (∀ n, d.disk n ≠ none → n ∈ names) → (∀ n, fails n = false) →
      (migrateLegacyNames names fails d.disk).view (.messages peer) =
        (d.disk.view (.messages peer)).or (d.disk (legacyName peer)) := by
  refine ⟨?_,fun names fails hlisted hok => migrate_complete peer (hlisted _) (hok _)⟩
  exact legacy_run peer hrun

def sampleLegacy : Files := fun n => if n = legacyName "ab" then some (.messages []) else none

/-- A renaming fails, and succeeds at the next start. -/
theorem legacy_kept_renamed : ∃ d : Installed,
    Lts.run (launchStep .sample) (Device.fresh (app .sample) sampleLegacy)
      [.launch [legacyName "ab"] fun _ => true] = some d ∧ d.disk (legacyName "ab") ≠ none ∧
    (migrateLegacyNames [legacyName "ab"] (fun _ => false) d.disk).view (.messages "ab") =
      some (.messages []) := by
  obtain ⟨d,hd⟩ : ∃ d, Lts.run (launchStep .sample) (Device.fresh (app .sample) sampleLegacy)
      [.launch [legacyName "ab"] fun _ => true] = some d := ⟨_,rfl⟩
  have hsame : d.disk = sampleLegacy := by
    obtain rfl := Option.some.inj hd
    rfl
  obtain ⟨-,hread⟩ := legacy_kept .sample "ab" hd
  have hlisted : ∀ n, d.disk n ≠ none → n ∈ [legacyName "ab"] := by
    intro n hn
    by_contra hne
    rw [hsame] at hn
    simp [sampleLegacy, show n ≠ legacyName "ab" by simpa using hne] at hn
  refine ⟨d,hd,by simp [hsame, sampleLegacy],?_⟩
  rw [hread _ _ hlisted fun _ => rfl, hsame]
  rfl

end Skrepka.Apple
