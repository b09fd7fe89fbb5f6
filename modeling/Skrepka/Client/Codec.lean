import Skrepka.Client.Protocol

/-! The payload codec: what a recipient reads back from what a sender has printed. -/
namespace Skrepka.Client
open Rust
open Protocol

/-- What is parsed from the printed value has its fields. -/
def Crates.ReadsBack (x : Crates) (v : Json) : Prop :=
  ∃ v', x.fromSlice (asBytes (x.toJson v)) = some v' ∧ ∀ key, v'.get? key = v.get? key

namespace Payload

/-- A payload as its recipient gets to see it. -/
def sanitized : Payload → Payload
  | text id body => .text id (sanitizeText body)
  | deliveryAck ackIds => .deliveryAck ackIds
  | profile displayName bio photo =>
    .profile (displayName.map sanitizeText) (bio.map sanitizeText) photo

/-- The documented caps: characters for names and bios, bytes for the rest. -/
def withinCaps (x : Crates) : Payload → Bool
  | text id body => len id ≤ maxIdLen && len body ≤ maxBodyLen
  | deliveryAck ackIds => ackIds.length ≤ maxAckIds && ackIds.all fun id => len id ≤ maxIdLen
  | profile displayName bio photo =>
    displayName.all (fun d => d.length ≤ maxDisplayNameLen) &&
      bio.all (fun b => b.length ≤ maxBioLen) &&
      photo.all (fun p => len p ≤ maxPhotoLen && x.base64Decodes p)

end Payload

theorem sanitizeText_sanitizeText (s : String) : sanitizeText (sanitizeText s) = sanitizeText s := by
  simp [sanitizeText, List.filter_filter]

theorem sanitized_sanitized (p : Payload) : p.sanitized.sanitized = p.sanitized := by
  have hfield (o : Option String) :
      (o.map sanitizeText).map sanitizeText = o.map sanitizeText := by
    cases o with
    | none => rfl
    | some s => simp [sanitizeText_sanitizeText]
  cases p with
  | text id body => simp [Payload.sanitized, sanitizeText_sanitizeText]
  | deliveryAck ackIds => rfl
  | profile displayName bio photo => simp only [Payload.sanitized, hfield]

variable {x : Crates}

/-- Reading looks at nothing but the fields. -/
theorem payloadOfJson_congr {v v' : Json} (h : ∀ key, v'.get? key = v.get? key) :
    payloadOfJson x v' = payloadOfJson x v := by
  simp only [payloadOfJson, h]

theorem filterMap_asStr (ids : List String) : (ids.map Json.str).filterMap Json.asStr? = ids := by
  induction ids with
  | nil => rfl
  | cons id ids ih => simp [Json.asStr?, ih]

/-- The checks of a reader fail outside the caps, and nowhere else. -/
theorem text_exceeds (id body : String) :
    (len id > maxIdLen ∨ len body > maxBodyLen) ↔
      ¬ (Payload.text id body).withinCaps x := by
  simp only [Payload.withinCaps, Bool.and_eq_true, decide_eq_true_eq]
  omega

theorem ack_exceeds (ids : List String) :
    (ids.length > maxAckIds ∨ ids.any (fun id => len id > maxIdLen)) ↔
      ¬ (Payload.deliveryAck ids).withinCaps x := by
  simp only [Payload.withinCaps, Bool.and_eq_true, decide_eq_true_eq, List.any_eq_true,
    List.all_eq_true, not_and_or, not_forall, Nat.not_le, exists_prop, gt_iff_lt]

/-- An optional field is over a cap. -/
theorem any_over {α : Type} (o : Option α) (p q : α → Bool) (h : ∀ a, p a = !q a) :
    o.any p = !o.all q := by
  cases o with
  | none => rfl
  | some a => exact h a

theorem profile_exceeds (displayName bio photo : Option String) :
    (displayName.any (fun d => d.length > maxDisplayNameLen) ∨
      bio.any (fun b => b.length > maxBioLen) ∨ photo.any (fun p => len p > maxPhotoLen) ∨
      photo.any (fun p => ¬ x.base64Decodes p)) ↔
      ¬ (Payload.profile displayName bio photo).withinCaps x := by
  have hover {α : Type} (f : α → ℕ) (n : ℕ) (a : α) : decide (f a > n) = !decide (f a ≤ n) := by
    rw [← decide_not, decide_eq_decide]
    omega
  have hphoto : photo.all (fun p => len p ≤ maxPhotoLen && x.base64Decodes p) =
      (photo.all (fun p => len p ≤ maxPhotoLen) && photo.all x.base64Decodes) := by
    cases photo <;> rfl
  rw [any_over displayName _ _ (hover String.length maxDisplayNameLen),
    any_over bio _ _ (hover String.length maxBioLen), any_over photo _ _ (hover len maxPhotoLen),
    any_over photo _ x.base64Decodes (fun p => by simp)]
  simp only [Payload.withinCaps, hphoto, Bool.and_eq_true, Bool.not_eq_true', not_and_or,
    Bool.not_eq_true, or_assoc]

theorem ts_payloadJson (p : Payload) {ts : ℤ} (hmin : i64Min ≤ ts) (hmax : ts ≤ i64Max) :
    ((payloadJson p ts).get? "ts").bind Json.asI64? = some ts := by
  have hts : (payloadJson p ts).get? "ts" = some (.int ts) := by
    cases p with
    | text id body => simp [payloadJson, Json.get?]
    | deliveryAck ackIds => simp [payloadJson, Json.get?]
    | profile displayName bio photo =>
      cases displayName <;> cases bio <;> cases photo <;>
        simp [payloadJson, Json.get?, List.lookup_cons]
  simp [hts, Json.asI64?, hmin, hmax]

/-- The object of a payload is read as the sanitized payload, if that is within the caps. -/
theorem payloadOfJson_payloadJson (p : Payload) {ts : ℤ} (hmin : i64Min ≤ ts) (hmax : ts ≤ i64Max) :
    payloadOfJson x (payloadJson p ts) =
      if p.sanitized.withinCaps x then some ⟨ts,p.sanitized⟩ else none := by
  have hts := ts_payloadJson p hmin hmax
  cases p with
  | text id body =>
    let v := payloadJson (.text id body) ts
    have hty : v.get? "type" = some (.str "text") := by
      simp [v, payloadJson, Json.get?, List.lookup_cons]
    have hid : v.get? "id" = some (.str id) := by simp [v, payloadJson, Json.get?, List.lookup_cons]
    have hbody : v.get? "body" = some (.str body) := by
      simp [v, payloadJson, Json.get?, List.lookup_cons]
    have hexceeds := text_exceeds (x := x) id (sanitizeText body)
    by_cases hcaps : (Payload.text id (sanitizeText body)).withinCaps x <;>
      simp [payloadOfJson, hty, hts, hid, hbody, v, Json.asStr?, Payload.sanitized, hcaps, hexceeds]
  | deliveryAck ackIds =>
    let v := payloadJson (.deliveryAck ackIds) ts
    have hty : v.get? "type" = some (.str "delivery.ack") := by
      simp [v, payloadJson, Json.get?, List.lookup_cons]
    have hids : v.get? "ack_ids" = some (.arr (ackIds.map .str)) := by
      simp [v, payloadJson, Json.get?, List.lookup_cons]
    have hexceeds := ack_exceeds (x := x) ackIds
    have hcount : maxAckIds < ackIds.length → ¬ (Payload.deliveryAck ackIds).withinCaps x :=
      fun h => hexceeds.mp (.inl h)
    by_cases hcaps : (Payload.deliveryAck ackIds).withinCaps x
    · simp only [payloadOfJson, hty, hts, hids, v, Json.asStr?, Json.asArray?, filterMap_asStr,
        Payload.sanitized,
        Option.bind_some, Option.bind_eq_bind, List.length_map, hexceeds]
      rw [if_neg fun h => hcount h hcaps]
      simp [hcaps]
    · simp only [payloadOfJson, hty, hts, hids, v, Json.asStr?, Json.asArray?, filterMap_asStr,
        Payload.sanitized,
        Option.bind_some, Option.bind_eq_bind, List.length_map, hexceeds]
      split <;> simp [hcaps]
  | profile displayName bio photo =>
    let v := payloadJson (.profile displayName bio photo) ts
    have hty : v.get? "type" = some (.str "profile") := by
      cases displayName <;> cases bio <;> cases photo <;>
        simp [v, payloadJson, Json.get?, List.lookup_cons]
    have hname : (v.get? "display_name").bind Json.asStr? = displayName := by
      cases displayName <;> cases bio <;> cases photo <;>
        simp [v, payloadJson, Json.get?, List.lookup_cons, Json.asStr?]
    have hbio : (v.get? "bio").bind Json.asStr? = bio := by
      cases displayName <;> cases bio <;> cases photo <;>
        simp [v, payloadJson, Json.get?, List.lookup_cons, Json.asStr?]
    have hphoto : (v.get? "photo").bind Json.asStr? = photo := by
      cases displayName <;> cases bio <;> cases photo <;>
        simp [v, payloadJson, Json.get?, List.lookup_cons, Json.asStr?]
    have hexceeds := profile_exceeds (x := x) (displayName.map sanitizeText) (bio.map sanitizeText) photo
    by_cases hcaps : (Payload.profile (displayName.map sanitizeText) (bio.map sanitizeText)
        photo).withinCaps x <;>
      simp only [payloadOfJson, hty, hts, hname, hbio, hphoto, v, Json.asStr?, Payload.sanitized,
        Option.bind_some, Option.bind_eq_bind, hexceeds] <;> simp [hcaps]

theorem asI64_bounds {v : Json} {n : ℤ} (h : v.asI64? = some n) : i64Min ≤ n ∧ n ≤ i64Max := by
  cases v with
  | int m =>
    simp only [Json.asI64?, Option.ite_none_right_eq_some, Option.some.injEq] at h
    exact h.2 ▸ h.1
  | null | bool | float | str | arr | obj => simp [Json.asI64?] at h

/-- What is read is sanitized and within the caps. -/
theorem payloadOfJson_some {v : Json} {parsed : ParsedPayload} (h : payloadOfJson x v = some parsed) :
    i64Min ≤ parsed.ts ∧ parsed.ts ≤ i64Max ∧ parsed.payload.sanitized = parsed.payload ∧
      parsed.payload.withinCaps x := by
  have hts : ∀ p : Payload, p.sanitized = p → p.withinCaps x →
      some (⟨((v.get? "ts").bind Json.asI64?).getD 0,p⟩ : ParsedPayload) = some parsed →
      i64Min ≤ parsed.ts ∧ parsed.ts ≤ i64Max ∧ parsed.payload.sanitized = parsed.payload ∧
        parsed.payload.withinCaps x := by
    intro p hp hcaps heq
    obtain rfl := Option.some.inj heq
    have hbounds : ∀ n, (v.get? "ts").bind Json.asI64? = some n → i64Min ≤ n ∧ n ≤ i64Max := by
      intro n hn
      obtain ⟨t,-,ht⟩ := Option.bind_eq_some_iff.mp hn
      exact asI64_bounds ht
    cases hn : (v.get? "ts").bind Json.asI64? with
    | none => exact ⟨show i64Min ≤ 0 by decide,show 0 ≤ i64Max by decide,hp,hcaps⟩
    | some n => exact ⟨(hbounds n hn).1,(hbounds n hn).2,hp,hcaps⟩
  simp only [payloadOfJson, Option.bind_eq_bind, Option.bind_eq_some_iff] at h
  obtain ⟨ty,-,h⟩ := h
  split at h
  · simp only [Option.bind_eq_some_iff] at h
    obtain ⟨id,-,body,-,h⟩ := h
    split at h
    · simp at h
    · rename_i hcaps
      rw [text_exceeds (x := x), not_not] at hcaps
      exact hts _ (by simp [Payload.sanitized, sanitizeText_sanitizeText]) hcaps h
  · simp only [Option.bind_eq_some_iff] at h
    obtain ⟨raw,-,h⟩ := h
    split at h
    · simp at h
    · split at h
      · simp at h
      · rename_i hcaps
        rw [ack_exceeds (x := x), not_not] at hcaps
        exact hts _ rfl hcaps h
  · split at h
    · simp at h
    · rename_i hcaps
      rw [profile_exceeds (x := x), not_not] at hcaps
      exact hts _ (sanitized_sanitized (.profile _ _ _)) hcaps h
  · simp at h

/-- A printed payload is parsed to the sanitized payload, if that is within the caps. -/
theorem parsePayload_serialize {p : Payload} {ts : ℤ} (hmin : i64Min ≤ ts) (hmax : ts ≤ i64Max)
    (hback : x.ReadsBack (payloadJson p ts)) :
    parsePayload x (asBytes (serializePayload x p ts)) =
      if p.sanitized.withinCaps x then some ⟨ts,p.sanitized⟩ else none := by
  obtain ⟨v,hv,hfields⟩ := hback
  rw [parsePayload, serializePayload, hv, Option.bind_some, payloadOfJson_congr hfields]
  exact payloadOfJson_payloadJson p hmin hmax

/-- A profile whose raw texts are within the caps is so when they are sanitized. -/
theorem withinCaps_sanitized_profile {displayName bio photo : Option String}
    (h : (Payload.profile displayName bio photo).withinCaps x) :
    (Payload.profile displayName bio photo).sanitized.withinCaps x := by
  have hshort (o : Option String) (n : ℕ) (ho : o.all (fun s => s.length ≤ n) = true) :
      (o.map sanitizeText).all (fun s => s.length ≤ n) = true := by
    cases o with
    | none => rfl
    | some s =>
      have hfilter := List.length_filter_le keepsChar s.toList
      simp only [Option.all_some, decide_eq_true_eq] at ho
      simp only [Option.map_some, Option.all_some, decide_eq_true_eq, sanitizeText,
        String.length_ofList]
      rw [String.length_toList] at hfilter
      omega
  simp only [Payload.withinCaps, Bool.and_eq_true] at h
  simp only [Payload.sanitized, Payload.withinCaps, Bool.and_eq_true]
  exact ⟨⟨hshort _ _ h.1.1,hshort _ _ h.1.2⟩,h.2⟩

variable (x) in
/-- Where printed JSON is read back, a payload arrives sanitized if it is then within the caps and
not at all otherwise, and what was read once is read again as it is. -/
theorem payload_codec :
    (∀ (p : Payload) (ts : ℤ), i64Min ≤ ts → ts ≤ i64Max → x.ReadsBack (payloadJson p ts) →
      parsePayload x (asBytes (serializePayload x p ts)) =
        if p.sanitized.withinCaps x then some ⟨ts,p.sanitized⟩ else none) ∧
    ∀ (b : Bytes) (parsed : ParsedPayload), parsePayload x b = some parsed →
      x.ReadsBack (payloadJson parsed.payload parsed.ts) →
      parsePayload x (asBytes (serializePayload x parsed.payload parsed.ts)) = some parsed := by
  refine ⟨fun p ts => parsePayload_serialize,fun b parsed hb hback => ?_⟩
  obtain ⟨v,-,hv⟩ := Option.bind_eq_some_iff.mp hb
  obtain ⟨hmin,hmax,hsanitized,hcaps⟩ := payloadOfJson_some hv
  rw [parsePayload_serialize hmin hmax hback, hsanitized, if_pos hcaps]

/-- A printed text of one field. -/
def bodyText (body : String) : String :=
  "\x7b\"body\":\"" ++ body ++ "\",\"id\":\"m\",\"ts\":5,\"type\":\"text\"\x7d"

def bodyJson (body : String) : Json :=
  .obj [("body",.str body),("id",.str "m"),("ts",.int 5),("type",.str "text")]

/-- The crates that print and parse such texts of two bodies. -/
def Crates.printing : Crates :=
  { Crates.sample with
    toJson := fun v => bodyText (((v.get? "body").bind Json.asStr?).getD "")
    fromSlice := fun bytes =>
      (["h\u200bi","hi"].find? fun body => asBytes (bodyText body) = bytes).map bodyJson }

theorem printing_readsBack {body : String} (h : body ∈ ["h\u200bi","hi"]) :
    Crates.printing.ReadsBack (payloadJson (.text "m" body) 5) := by
  have hprints : Crates.printing.toJson (payloadJson (.text "m" body) 5) = bodyText body := rfl
  have hdistinct : asBytes (bodyText "h\u200bi") ≠ asBytes (bodyText "hi") := by decide
  refine ⟨bodyJson body,?_,fun key => ?_⟩
  · rw [hprints]
    simp only [List.mem_cons, List.not_mem_nil, or_false] at h
    obtain rfl | rfl := h
    · simp [Crates.printing]
    · simp [Crates.printing, hdistinct]
  · simp only [bodyJson, payloadJson, Json.get?, List.reverse_cons, List.reverse_nil,
      List.nil_append, List.cons_append, List.lookup_cons, List.lookup_nil]
    by_cases hty : key = "type" <;> by_cases hid : key = "id" <;> by_cases hts : key = "ts" <;>
      simp_all [beq_eq_false_iff_ne.mpr]

theorem payload_codec_text :
    parsePayload .printing (asBytes (serializePayload .printing (.text "m" "h\u200bi") 5)) =
      some ⟨5,.text "m" "hi"⟩ ∧
    parsePayload .printing (asBytes (serializePayload .printing (.text "m" "hi") 5)) =
      some ⟨5,.text "m" "hi"⟩ := by
  have hraw := (payload_codec .printing).1 (.text "m" "h\u200bi") 5 (by decide) (by decide)
    (printing_readsBack (by simp))
  have hsanitized : (Payload.text "m" "h\u200bi").sanitized = .text "m" "hi" := by decide
  have hcaps : (Payload.text "m" "hi").withinCaps .printing = true := by decide
  rw [hsanitized, if_pos hcaps] at hraw
  exact ⟨hraw,(payload_codec .printing).2 _ ⟨5,.text "m" "hi"⟩ hraw (printing_readsBack (by simp))⟩

end Skrepka.Client
