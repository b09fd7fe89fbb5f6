import Skrepka.Client.Footprint

/-! Which event can change which field of the model, as one table. -/
namespace Skrepka.Client
open Rust Mvu

/-- The fields of the model. -/
inductive Field
  | secretKey | myPubkey | settings | profile | contacts | messages | seenIds | outbox | cursor
  | token | conn | pollRetries | sendRetries | polling | pollGen | authenticating | authGen
  | flushing | flushGen | inFlight | sendBatchBudget | loadsPending | kvLoadFailed
  | flushPausedUntil | page | activePeer | compose | error
  deriving DecidableEq

namespace Field

def type : Field → Type
  | secretKey => Option Bytes
  | myPubkey | compose => String
  | settings => Settings
  | profile => OwnProfile
  | contacts => PeerMap Contact
  | messages => PeerMap (List StoredMessage)
  | seenIds => PeerMap (Finset String)
  | outbox => List OutboxItem
  | cursor | flushPausedUntil => ℤ
  | token | activePeer | error => Option String
  | conn => ConnStatus
  | pollRetries | sendRetries | loadsPending => ℕ
  | polling | authenticating | flushing | kvLoadFailed => Bool
  | pollGen | authGen | flushGen => UInt64
  | inFlight => Option InFlight
  | sendBatchBudget => Option ℕ
  | page => Page

def get : (f : Field) → Model → f.type
  | secretKey, m => m.secretKey
  | myPubkey, m => m.myPubkey
  | settings, m => m.settings
  | profile, m => m.profile
  | contacts, m => m.contacts
  | messages, m => m.messages
  | seenIds, m => m.seenIds
  | outbox, m => m.outbox
  | cursor, m => m.cursor
  | token, m => m.token
  | conn, m => m.conn
  | pollRetries, m => m.pollRetries
  | sendRetries, m => m.sendRetries
  | polling, m => m.polling
  | pollGen, m => m.pollGen
  | authenticating, m => m.authenticating
  | authGen, m => m.authGen
  | flushing, m => m.flushing
  | flushGen, m => m.flushGen
  | inFlight, m => m.inFlight
  | sendBatchBudget, m => m.sendBatchBudget
  | loadsPending, m => m.loadsPending
  | kvLoadFailed, m => m.kvLoadFailed
  | flushPausedUntil, m => m.flushPausedUntil
  | page, m => m.page
  | activePeer, m => m.activePeer
  | compose, m => m.compose
  | error, m => m.error

end Field

open Skrepka.Client.Field in
/-- The fields that an event can change. -/
def Event.writes : Event → List Field
  | .identityLoaded _ => [secretKey,myPubkey,page,loadsPending,kvLoadFailed,error]
  | .showConversations | .back | .openChat _ => [page,activePeer,error]
  | .showSettings | .showAddContact | .showEditProfile => [page,error]
  | .composeChanged _ => [compose]
  | .sendText => [contacts,messages,outbox,compose,error]
  | .addContact _ _ => [contacts,page,error]
  | .setBlocked _ _ => [contacts,outbox,inFlight,error]
  | .deleteContact _ => [contacts,messages,seenIds,outbox,inFlight,activePeer,page,error]
  | .saveProfile _ _ _ => [profile,outbox,page,error]
  | .setServerUrl _ => [settings,cursor,token,conn,pollRetries,sendRetries,polling,pollGen,
      flushing,flushGen,inFlight,sendBatchBudget,flushPausedUntil,error]
  | .connect | .authWatchdog _ => [authenticating,authGen]
  | .loadedSettings _ => [loadsPending,error,settings,kvLoadFailed]
  | .loadedProfile _ => [loadsPending,error,profile,kvLoadFailed]
  | .loadedContacts _ => [loadsPending,error,contacts,kvLoadFailed]
  | .loadedCursor _ => [loadsPending,error,cursor,kvLoadFailed]
  | .loadedOutbox _ => [loadsPending,error,outbox,kvLoadFailed]
  | .loadedSeenIds _ => [loadsPending,error,seenIds]
  | .loadedMessages _ _ => [messages,seenIds,kvLoadFailed,error]
  | .saved _ => [error]
  | .savedCursor _ => [conn,pollRetries,error]
  | .authenticate => [conn,pollRetries,authenticating,authGen,error]
  | .challengeResult _ _ => [conn,pollRetries,authenticating,error]
  | .verifyResult _ _ => [token,conn,pollRetries,authenticating,error]
  | .poll => [conn,pollRetries,polling,pollGen,error]
  | .pollWatchdog _ => [polling,pollGen]
  | .pollResult _ _ =>
    [contacts,messages,seenIds,outbox,cursor,token,conn,pollRetries,polling,error]
  | .startFlush | .flushWatchdog _ => [outbox,flushing,flushGen,inFlight,error]
  | .sendResult _ _ => [outbox,token,sendRetries,flushing,flushGen,inFlight,sendBatchBudget,
      flushPausedUntil,error]

/-- Two models agree on all fields but some. -/
def AgreesOff (fs : List Field) (m m' : Model) : Prop := ∀ f ∉ fs, f.get m' = f.get m

theorem AgreesOff.trans {fs : List Field} {m₁ m₂ m₃ : Model} (h₁ : AgreesOff fs m₁ m₂)
    (h₂ : AgreesOff fs m₂ m₃) : AgreesOff fs m₁ m₃ := fun f hf => (h₂ f hf).trans (h₁ f hf)

theorem loaded_agrees {fs : List Field} {α : Type} {decode : KvValue → Option α}
    {install : α → Model → Model} {failed : Model → Model}
    (hi : ∀ a m, AgreesOff (.loadsPending :: .error :: fs) m (install a m))
    (hf : ∀ m, AgreesOff (.loadsPending :: .error :: fs) m (failed m)) (res : KvData) (m : Model) :
    AgreesOff (.loadsPending :: .error :: fs) m (loaded decode install failed res m).1 := by
  rw [loaded_eq]
  have hm : AgreesOff (.loadsPending :: .error :: fs) m
      (loadedModel decode install failed res m) := by
    unfold loadedModel
    cases parseKv decode res with
    | error => exact hf m
    | ok a =>
      cases a with
      | none => exact fun _ _ => rfl
      | some a => exact hi a m
  refine hm.trans ?_
  obtain ⟨_,h⟩ := startupDone_fst (loadedModel decode install failed res m)
  change AgreesOff _ _ (startupDone _).1
  rw [h]
  intro f hf
  cases f <;> first | rfl | exact absurd (by simp) hf

/-- No event changes a field that is not in its list. -/
theorem update_agrees (x : Crates) (amb : Ambient) (e : Event) (m : Model) :
    AgreesOff e.writes m (update x amb e m).1 := by
  have of_eq : ∀ {fs : List Field} {m' m'' : Model}, m' = m'' →
      (∀ f ∉ fs, f.get m'' = f.get m) → AgreesOff fs m m' := fun h hf => h ▸ hf
  cases e with
  | showConversations | showSettings | showAddContact | showEditProfile | back | openChat
  | composeChanged =>
    refine of_eq rfl fun f hf => ?_
    cases f <;> first | rfl | exact absurd (by simp [Event.writes]) hf
  | identityLoaded sk =>
    rcases identityLoaded_fst x sk m with ⟨_,h⟩ | ⟨_,-,h⟩
    all_goals
      refine of_eq h fun f hf => ?_
      cases f <;> first | rfl | exact absurd (by simp [Event.writes]) hf
  | setServerUrl url =>
    rcases setServerUrl_fst x url m with ⟨-,_,h⟩ | ⟨_,-,_,h⟩
    all_goals
      refine of_eq h fun f hf => ?_
      cases f <;> first | rfl | exact absurd (by simp [Event.writes]) hf
  | loadedSettings res | loadedProfile res | loadedCursor res | loadedOutbox res
  | loadedSeenIds res =>
    refine loaded_agrees ?_ ?_ res m
    all_goals
      intros
      intro f hf
      cases f <;> first | rfl | exact absurd (by simp) hf
  | deleteContact peer =>
    obtain ⟨_,_,_,_,h⟩ := forgetPeer_eq m peer
    have hm := (deleteContact_fst peer m).trans (Model.refused_eq _)
    rw [h] at hm
    refine of_eq hm fun f hf => ?_
    cases f <;> first | rfl | exact absurd (by simp [Event.writes]) hf
  | sendText =>
    obtain ⟨_,_,_,_,_,h⟩ := sendText_fst x amb m
    refine of_eq h fun f hf => ?_
    cases f <;> first | rfl | exact absurd (by simp [Event.writes]) hf
  | addContact input nickname =>
    obtain ⟨_,_,_,h⟩ := addContact_fst x amb input nickname m
    refine of_eq h fun f hf => ?_
    cases f <;> first | rfl | exact absurd (by simp [Event.writes]) hf
  | setBlocked peer blocked =>
    obtain ⟨_,_,_,_,h⟩ := setBlocked_fst peer blocked m
    refine of_eq h fun f hf => ?_
    cases f <;> first | rfl | exact absurd (by simp [Event.writes]) hf
  | saveProfile displayName bio photo =>
    obtain ⟨_,_,_,_,h⟩ := saveProfile_fst x amb displayName bio photo m
    refine of_eq h fun f hf => ?_
    cases f <;> first | rfl | exact absurd (by simp [Event.writes]) hf
  | loadedContacts res =>
    obtain ⟨_,_,_,h,-⟩ := loadedContacts_fst res m
    refine of_eq h fun f hf => ?_
    cases f <;> first | rfl | exact absurd (by simp [Event.writes]) hf
  | loadedMessages peer res =>
    obtain ⟨_,_,_,_,h,-⟩ := loadedMessages_fst peer res m
    refine of_eq h fun f hf => ?_
    cases f <;> first | rfl | exact absurd (by simp [Event.writes]) hf
  | saved res =>
    obtain ⟨_,h⟩ := saved_fst res m
    refine of_eq h fun f hf => ?_
    cases f <;> first | rfl | exact absurd (by simp [Event.writes]) hf
  | savedCursor res =>
    obtain ⟨_,_,_,h⟩ := savedCursor_fst res m
    refine of_eq h fun f hf => ?_
    cases f <;> first | rfl | exact absurd (by simp [Event.writes]) hf
  | authenticate =>
    obtain ⟨_,_,_,_,_,h⟩ := authenticate_fst x m
    refine of_eq h fun f hf => ?_
    cases f <;> first | rfl | exact absurd (by simp [Event.writes]) hf
  | authWatchdog gen =>
    obtain ⟨_,_,h⟩ := authWatchdog_fst gen m
    refine of_eq h fun f hf => ?_
    cases f <;> first | rfl | exact absurd (by simp [Event.writes]) hf
  | challengeResult gen res =>
    obtain ⟨_,_,_,_,h⟩ := challengeResult_fst x gen res m
    refine of_eq h fun f hf => ?_
    cases f <;> first | rfl | exact absurd (by simp [Event.writes]) hf
  | verifyResult gen res =>
    obtain ⟨_,_,_,_,_,h⟩ := verifyResult_fst x gen res m
    refine of_eq h fun f hf => ?_
    cases f <;> first | rfl | exact absurd (by simp [Event.writes]) hf
  | poll =>
    obtain ⟨_,_,_,_,_,h⟩ := poll_fst x m
    refine of_eq h fun f hf => ?_
    cases f <;> first | rfl | exact absurd (by simp [Event.writes]) hf
  | pollWatchdog gen =>
    obtain ⟨_,_,h⟩ := pollWatchdog_fst gen m
    refine of_eq h fun f hf => ?_
    cases f <;> first | rfl | exact absurd (by simp [Event.writes]) hf
  | pollResult gen res =>
    obtain ⟨_,_,_,_,_,_,_,_,_,_,_,h,-⟩ := pollResult_fst x amb gen res m
    refine of_eq h fun f hf => ?_
    cases f <;> first | rfl | exact absurd (by simp [Event.writes]) hf
  | startFlush =>
    obtain ⟨_,_,_,_,_,h⟩ := flushNext_fst x amb m
    refine of_eq h fun f hf => ?_
    cases f <;> first | rfl | exact absurd (by simp [Event.writes]) hf
  | flushWatchdog gen =>
    obtain ⟨_,_,_,_,_,h⟩ := flushWatchdog_fst x amb gen m
    refine of_eq h fun f hf => ?_
    cases f <;> first | rfl | exact absurd (by simp [Event.writes]) hf
  | sendResult gen res =>
    obtain ⟨_,_,_,_,_,_,_,_,_,h,-⟩ := sendResult_fst x amb gen res m
    refine of_eq h fun f hf => ?_
    cases f <;> first | rfl | exact absurd (by simp [Event.writes]) hf
  | connect =>
    refine of_eq (connect_fst m) fun f hf => ?_
    cases f <;> first | rfl | exact absurd (by simp [Event.writes]) hf

end Skrepka.Client
