import Skrepka.Client.State

/-! Writes to the key-value store, and the two backoff timers. -/
namespace Skrepka.Client
open Rust Mvu

/-- A model that failed to read a key must never write one. -/
def refuseWrite (m : Model) : Model × Bool :=
  if m.kvLoadFailed then
    ({ m with error := some "storage read failed — changes will not be saved" },true)
  else (m,false)

/-- Issue some writes, unless they are refused. -/
def guarded (ops : Model → List KvOp) : Handler := fun m =>
  match refuseWrite m with
  | (m,true) => (m,[])
  | (m,false) => (m,(ops m).map (fun op => .request (.kv op .saved)))

def persistContacts : Handler := guarded fun m => [.set .contacts (.contacts m.contacts.values)]
def persistProfile : Handler := guarded fun m => [.set .profile (.profile m.profile)]
def persistOutbox : Handler := guarded fun m => [.set .outbox (.outbox m.outbox)]

def persistMessages (peer : String) : Handler :=
  guarded fun m => [.set (.messages peer) (.messages (m.messages[peer]?.getD []))]

def persistSeenIds : Handler := guarded fun m => [.set .seenIds (.seenIds m.seenIds)]

def scheduleReconnect : Handler := fun m =>
  ({ m with pollRetries := u32SaturatingAdd m.pollRetries 1 },
    [.request (.time (backoffMs m.pollRetries) .authenticate),.render])

/-- Retry the poll after a backoff, and stop claiming to be online. -/
def backoffPoll : Handler := fun m =>
  ({ m with conn := .offline, pollRetries := u32SaturatingAdd m.pollRetries 1 },
    [.request (.time (backoffMs m.pollRetries) .poll),.render])

/-- The model after a write was asked for. -/
def Model.refused (m : Model) : Model := (refuseWrite m).1

theorem Model.refused_eq (m : Model) : m.refused = { m with error := m.refused.error } := by
  unfold Model.refused refuseWrite
  split <;> rfl

@[simp] theorem refused_outbox (m : Model) : m.refused.outbox = m.outbox := by
  rw [m.refused_eq]

@[simp] theorem Model.refused_of_failed {m : Model} (h : m.kvLoadFailed = false) :
    m.refused = m := by simp [Model.refused, refuseWrite, h]

@[simp] theorem Model.refused_refused (m : Model) : m.refused.refused = m.refused := by
  cases h : m.kvLoadFailed <;> simp [Model.refused, refuseWrite, h]

@[simp] theorem guarded_fst (ops : Model → List KvOp) (m : Model) :
    (guarded ops m).1 = m.refused := by
  cases h : m.kvLoadFailed <;> simp [guarded, Model.refused, refuseWrite, h]

theorem guarded_snd (ops : Model → List KvOp) (m : Model) :
    (guarded ops m).2 =
      if m.kvLoadFailed then [] else (ops m).map (fun op => .request (.kv op .saved)) := by
  cases h : m.kvLoadFailed <;> simp [guarded, refuseWrite, h]

end Skrepka.Client
