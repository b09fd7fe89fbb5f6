import Skrepka.Client.Stored

/-! Whatever is queued can be read: its print is short enough to be encrypted, and its recipient
accepts it. -/
namespace Skrepka.Client
open Rust Mvu
open Protocol

namespace Json

mutual

/-- The most bytes that a value prints to, where a byte of a string is escaped to at most six and
an integer is an `i64`. -/
def maxPrinted : Json → ℕ
  | null => 4
  | bool _ => 5
  | int _ => 20
  | float text => len text
  | str s => 6*len s+2
  | arr xs => elementsPrinted xs+2
  | obj fields => fieldsPrinted fields+2

/-- With a comma each. -/
def elementsPrinted : List Json → ℕ
  | [] => 0
  | v :: vs => maxPrinted v+1+elementsPrinted vs

/-- With a quoted key, a colon and a comma each. -/
def fieldsPrinted : List (String × Json) → ℕ
  | [] => 0
  | (key,v) :: fields => 6*len key+2+1+maxPrinted v+1+fieldsPrinted fields

end

end Json

/-- A value prints to no more than that. -/
def Crates.PrintsWithin (x : Crates) (v : Json) : Prop := (asBytes (x.toJson v)).length ≤ v.maxPrinted

theorem elementsPrinted_ids {n : ℕ} {ids : List String} (h : ∀ id ∈ ids, len id ≤ n) :
    Json.elementsPrinted (ids.map .str) ≤ ids.length*(6*n+3) := by
  induction ids with
  | nil => simp [Json.elementsPrinted]
  | cons id ids ih =>
    have hid := h id List.mem_cons_self
    have hids := ih fun id hid => h id (List.mem_cons_of_mem _ hid)
    simp only [List.map_cons, Json.elementsPrinted, Json.maxPrinted, List.length_cons, Nat.add_mul]
    omega

/-- A character takes at most four bytes. -/
theorem len_le (s : String) : len s ≤ 4*s.length := by
  have hchars : ∀ cs : List Char, len (String.ofList cs) ≤ 4*cs.length := by
    intro cs
    induction cs with
    | nil => simp [len]
    | cons c cs ih =>
      have hc := c.utf8Size_le_four
      simp only [len, String.ofList_cons, String.utf8ByteSize_append, String.utf8ByteSize_singleton,
        List.length_cons] at ih ⊢
      omega
  have h := hchars s.toList
  rwa [String.ofList_toList, String.length_toList] at h

variable {x : Crates}

/-- Payloads within the caps are short enough to be encrypted. -/
theorem maxPrinted_payload {p : Payload} (h : p.withinCaps x = true) (ts : ℤ) :
    (payloadJson p ts).maxPrinted ≤ Crypto.maxPlaintextLen := by
  cases p with
  | text id body =>
    simp only [Payload.withinCaps, Bool.and_eq_true, decide_eq_true_eq] at h
    simp only [maxIdLen, maxBodyLen] at h
    have hkeys : len "type" = 4 ∧ len "text" = 4 ∧ len "id" = 2 ∧ len "body" = 4 ∧ len "ts" = 2 := by decide
    obtain ⟨h₁,h₂,h₃,h₄,h₅⟩ := hkeys
    simp only [payloadJson, Json.maxPrinted, Json.fieldsPrinted, h₁, h₂, h₃, h₄, h₅, Crypto.maxPlaintextLen]
    omega
  | deliveryAck ids =>
    simp only [Payload.withinCaps, Bool.and_eq_true, decide_eq_true_eq, List.all_eq_true] at h
    simp only [maxAckIds, maxIdLen] at h
    have hids := elementsPrinted_ids h.2
    have hcount : ids.length*(6*128+3) ≤ 1024*(6*128+3) := Nat.mul_le_mul_right _ h.1
    have hkeys : len "type" = 4 ∧ len "delivery.ack" = 12 ∧ len "ack_ids" = 7 ∧ len "ts" = 2 := by decide
    obtain ⟨h₁,h₂,h₃,h₄⟩ := hkeys
    simp only [payloadJson, Json.maxPrinted, Json.fieldsPrinted, h₁, h₂, h₃, h₄, Crypto.maxPlaintextLen]
    omega
  | profile displayName bio photo =>
    simp only [Payload.withinCaps, Bool.and_eq_true] at h
    have hname : ∀ d ∈ displayName, len d ≤ 4*128 := by
      rintro d rfl
      have hcap : d.length ≤ maxDisplayNameLen := by simpa using h.1.1
      exact (len_le d).trans (Nat.mul_le_mul_left 4 hcap)
    have hbio : ∀ b ∈ bio, len b ≤ 4*1024 := by
      rintro b rfl
      have hcap : b.length ≤ maxBioLen := by simpa using h.1.2
      exact (len_le b).trans (Nat.mul_le_mul_left 4 hcap)
    have hphoto : ∀ p ∈ photo, len p ≤ 65536 := by
      rintro p rfl
      have hcap : len p ≤ maxPhotoLen ∧ x.base64Decodes p = true := by simpa using h.2
      exact hcap.1
    have hkeys : len "type" = 4 ∧ len "profile" = 7 ∧ len "ts" = 2 ∧ len "display_name" = 12 ∧
      len "bio" = 3 ∧ len "photo" = 5 := by decide
    obtain ⟨h₁,h₂,h₃,h₄,h₅,h₆⟩ := hkeys
    cases displayName <;> cases bio <;> cases photo <;>
      simp [payloadJson, Json.maxPrinted, Json.fieldsPrinted, h₁, h₂, h₃, h₄, h₅, h₆,
        Crypto.maxPlaintextLen] at hname hbio hphoto ⊢ <;> omega

theorem len_sanitizeText (s : String) : len (sanitizeText s) ≤ len s := by
  have hchars : ∀ cs : List Char, len (String.ofList (cs.filter keepsChar)) ≤ len (String.ofList cs) := by
    intro cs
    induction cs with
    | nil => simp
    | cons c cs ih =>
      simp only [len] at ih
      cases hc : keepsChar c with
      | true =>
        simp only [List.filter_cons_of_pos hc, len, String.ofList_cons, String.utf8ByteSize_append]
        omega
      | false =>
        simp only [List.filter_cons, hc, len, String.ofList_cons, String.utf8ByteSize_append]
        exact le_trans ih (Nat.le_add_left _ _)
  have h := hchars s.toList
  rwa [String.ofList_toList] at h

/-- A recipient accepts what is within the caps. -/
theorem withinCaps_sanitized {p : Payload} (h : p.withinCaps x = true) : p.sanitized.withinCaps x = true := by
  cases p with
  | text id body =>
    simp only [Payload.sanitized, Payload.withinCaps, Bool.and_eq_true, decide_eq_true_eq] at h ⊢
    exact ⟨h.1,(len_sanitizeText body).trans h.2⟩
  | deliveryAck ids => exact h
  | profile displayName bio photo => exact withinCaps_sanitized_profile h

/-- A text is the print of a payload within the caps: short enough to be encrypted if it is printed
within bounds, and accepted by its recipient if it is read back. -/
def Readable (x : Crates) (json : String) : Prop :=
  ∃ p ts, p.withinCaps x = true ∧ json = serializePayload x p ts ∧
    (x.PrintsWithin (payloadJson p ts) → (asBytes json).length ≤ Crypto.maxPlaintextLen) ∧
    (x.ReadsBack (payloadJson p ts) → parsePayload x (asBytes json) = some ⟨ts,p.sanitized⟩)

theorem Printed.readable {json : String} (h : Printed x json) : Readable x json := by
  obtain ⟨p,ts,hmin,hmax,hcaps,rfl⟩ := h
  refine ⟨p,ts,hcaps,rfl,fun hprints => le_trans hprints (maxPrinted_payload hcaps ts),fun hback => ?_⟩
  rw [parsePayload_serialize hmin hmax hback, if_pos (withinCaps_sanitized hcaps)]

/-- Every key will do. -/
def anyTerms : Terms := ⟨fun _ => True,fun _ => True⟩

/-- Every item of the outbox of a client that was started from a fresh install can be encrypted and
is accepted by its recipient, where values print within bounds and are read back. -/
theorem outbox_readable {hs : List (Happening Ambient Event Answer)} {d : Phone}
    (hsane : ∀ h ∈ hs, ∀ amb ∈ h.reads, amb.Sane)
    (hrun : Lts.run (Phone.step x) (freshInstall x) hs = some d) :
    ∀ i ∈ d.core.model.outbox, Readable x i.envelopeJson := by
  have hkeeps : Device.Keeps (app x) kvStore (fun amb _ _ => amb.Sane)
      (fun m => m.Meets x anyTerms ∧ True) (Event.Meets x anyTerms)
      (fun f => CmdMeets x anyTerms (.request f)) (DiskMeets x anyTerms) :=
    phone_keeps (fun _ _ _ _ _ _ _ => trivial) trivial
      (fun _ _ _ ha _ _ => ⟨ha,fun _ _ => trivial⟩) (fun _ _ _ _ _ => trivial)
  have hempty : DiskMeets x anyTerms fun _ => none := by simp [DiskMeets]
  have hsound := hkeeps.run hempty (Device.meets_of_reads (app x) kvStore hsane) hrun
  exact fun i hi => (hsound.good.1.outbox i hi).printed.readable

/-- A text is typed to a stranger. -/
def sampleTyping : List (Happening Ambient Event Answer) :=
  [.openChat (samplePeer 7),.composeChanged "hi",.sendText].map fun e => .act .sample (.shell e)

theorem sample_sane : Ambient.sample.Sane := ⟨fun _ => (by decide : i64Min ≤ 1000 ∧ 1000 ≤ i64Max),by decide⟩

theorem outbox_readable_typed : ∃ d,
    Lts.run (Phone.step .printing) (freshInstall .printing) sampleTyping = some d ∧
      d.core.model.outbox.length = 2 ∧ ∀ i ∈ d.core.model.outbox, Readable .printing i.envelopeJson := by
  obtain ⟨d,hrun,hlen⟩ : ∃ d, Lts.run (Phone.step .printing) (freshInstall .printing) sampleTyping = some d ∧
      d.core.model.outbox.length = 2 := ⟨_,rfl,by decide⟩
  refine ⟨d,hrun,hlen,outbox_readable (fun h hh amb hamb => ?_) hrun⟩
  obtain ⟨e,-,rfl⟩ := List.mem_map.mp hh
  obtain rfl := Option.some.inj hamb
  exact sample_sane

end Skrepka.Client
