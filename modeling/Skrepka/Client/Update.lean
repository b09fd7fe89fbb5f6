import Skrepka.Client.Loads
import Skrepka.Client.Actions
import Skrepka.Client.Session

/-! The update function of the client, and the client as an application. -/
namespace Skrepka.Client
open Rust Mvu

def update (x : Crates) (amb : Ambient) : Event → Handler
  | .identityLoaded sk => identityLoaded x sk
  | .showConversations => showConversations
  | .showSettings => showPage .settings
  | .showAddContact => showPage .addContact
  | .showEditProfile => showPage .editProfile
  | .openChat peer => openChat peer
  | .back => showConversations
  | .composeChanged s => composeChanged s
  | .sendText => sendText x amb
  | .addContact input nickname => addContact x amb input nickname
  | .setBlocked peer blocked => setBlocked peer blocked
  | .deleteContact peer => deleteContact peer
  | .saveProfile displayName bio photo => saveProfile x amb displayName bio photo
  | .setServerUrl url => setServerUrl x url
  | .connect => connect
  | .loadedSettings res => loadedSettings x res
  | .loadedProfile res => loadedProfile res
  | .loadedContacts res => loadedContacts res
  | .loadedCursor res => loadedCursor res
  | .loadedOutbox res => loadedOutbox res
  | .loadedSeenIds res => loadedSeenIds res
  | .loadedMessages peer res => loadedMessages peer res
  | .saved res => saved res
  | .savedCursor res => savedCursor res
  | .authenticate => authenticate x
  | .poll => poll x
  | .pollWatchdog gen => pollWatchdog gen
  | .startFlush => flushNext x amb
  | .flushWatchdog gen => flushWatchdog x amb gen
  | .authWatchdog gen => authWatchdog gen
  | .challengeResult gen res => challengeResult x gen res
  | .verifyResult gen res => verifyResult x gen res
  | .pollResult gen res => pollResult x amb gen res
  | .sendResult gen res => sendResult x amb gen res

/-- What a shell answers: an HTTP result, a key-value result, or that a timer fired. -/
inductive Answer
  | http (res : HttpResult)
  | kv (res : KvData)
  | elapsed

def answer (x : Crates) : Effect → Answer → Option Event
  | .http _ tag, .http res => some (tag.event (x.deliver res))
  | .kv _ tag, .kv res => some (tag.event res)
  | .time _ tag, .elapsed => some tag.event
  | _, _ => none

/-- An event once `crux_http` is through with what the relay answered. -/
def Event.received (x : Crates) : Event → Event
  | .challengeResult gen res => .challengeResult gen (x.deliver res)
  | .verifyResult gen res => .verifyResult gen (x.deliver res)
  | .pollResult gen res => .pollResult gen (x.deliver res)
  | .sendResult gen res => .sendResult gen (x.deliver res)
  | e => e

theorem answer_received (x : Crates) (req : HttpRequest) (tag : HttpTag) (res : HttpResult) :
    answer x (.http req tag) (.http res) = some ((tag.event res).received x) := by
  cases tag <;> rfl

/-- The events that cross the FFI: the identity, navigation, user actions and `connect`. -/
def fromShell : Event → Bool
  | .identityLoaded _ | .showConversations | .showSettings | .showAddContact | .showEditProfile
  | .openChat _ | .back | .composeChanged _ | .sendText | .addContact _ _ | .setBlocked _ _
  | .deleteContact _ | .saveProfile _ _ _ | .setServerUrl _ | .connect => true
  | _ => false

def app (x : Crates) : App Model Event Effect Ambient Answer where
  init := {}
  update := update x
  answer := answer x
  shell := fromShell

/-- The client's core with its event queue and the effects still unanswered. -/
abbrev Running := Core Model Event Effect

/-- One thing that happens to a running client. -/
abbrev Label := Ambient × Action Event Answer

abbrev step (x : Crates) : Running → Label → Option Running := Core.step (app x)

abbrev boot (x : Crates) : Running := Core.boot (app x)

/-- Follow a list of labels from a freshly started client. -/
abbrev runFromBoot (x : Crates) : List Label → Option Running := Lts.run (step x) (boot x)

/-- Actions taken in the sample surroundings. -/
def sampleLabels (acts : List (Action Event Answer)) : List Label :=
  acts.map fun act => (Ambient.sample,act)

/-- An HTTP answer with a body. -/
def sampleOk (body : String) : Answer := .http (.ok ⟨200,none,asBytes body⟩)

/-- A launch with an empty store: the identity, the six loads, an auth attempt that its watchdog
gives up, a second one that succeeds, and the first poll. -/
def sampleOnline : List (Action Event Answer) :=
  .shell (.identityLoaded sampleSecret) ::
    (List.range 6).map (fun t => .answer t (.kv (.ok none))) ++
    [.drain,.drain,.answer 7 .elapsed,.drain,.answer 8 (sampleOk challengeText),
      .answer 10 (sampleOk tokenText),.drain,.drain]

end Skrepka.Client
