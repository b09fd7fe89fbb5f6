import Skrepka.Lib.Upsert
import Skrepka.Client.Blocked
import Skrepka.Client.Codec
import Skrepka.Client.Profiles

/-! What a saved profile puts into the queue, and what its recipients then show. -/
namespace Skrepka.Client
open Rust Mvu Queue

/-- A profile for a peer. -/
def OutboxItem.profileFor (peer : String) (i : OutboxItem) : Bool :=
  i.isProfile && i.recipient = peer

def OutboxItem.withText (json : String) (i : OutboxItem) : OutboxItem :=
  { i with envelopeJson := json }

theorem supersede_eq (json peer : String) (queue : List OutboxItem) :
    supersede json peer queue =
      upsert (OutboxItem.profileFor peer) (OutboxItem.withText json) (.profile peer json) queue := rfl

theorem profileFor_profile (peer json : String) :
    (OutboxItem.profile peer json).profileFor peer = true := by
  simp [OutboxItem.profileFor, OutboxItem.isProfile, OutboxItem.profile, OutboxItem.new]

theorem profileFor_withText {peer json : String} (i : OutboxItem) (h : i.profileFor peer = true) :
    (i.withText json).profileFor peer = true := h

/-- The profiles for a peer after one was superseded, or queued. -/
def refreshed (json peer : String) : List OutboxItem → List OutboxItem
  | [] => [.profile peer json]
  | i :: rest => i.withText json :: rest

theorem refreshed_refreshed (json peer : String) (items : List OutboxItem) :
    refreshed json peer (refreshed json peer items) = refreshed json peer items := by
  cases items <;> rfl

theorem supersede_profiles (json peer : String) (queue : List OutboxItem) :
    (supersede json peer queue).filter (OutboxItem.profileFor peer) =
      refreshed json peer (queue.filter (OutboxItem.profileFor peer)) := by
  rw [supersede_eq, filter_upsert profileFor_withText (profileFor_profile peer json)]
  cases queue.filter (OutboxItem.profileFor peer) <;> rfl

theorem supersede_others {peer other : String} (h : peer ≠ other) (json : String)
    (queue : List OutboxItem) :
    (supersede json peer queue).filter (OutboxItem.profileFor other) =
      queue.filter (OutboxItem.profileFor other) := by
  rw [supersede_eq]
  refine filter_upsert_other (fun i hi => ?_) profileFor_withText (profileFor_profile peer json) queue
  simp only [OutboxItem.profileFor, Bool.and_eq_true, decide_eq_true_eq] at hi
  simp [OutboxItem.profileFor, hi.2, h]

/-- After a broadcast the first profile for each recipient has its text. -/
theorem foldl_supersede_profiles (json peer : String) (peers : List String)
    (queue : List OutboxItem) :
    (peers.foldl (fun queue peer => supersede json peer queue) queue).filter
        (OutboxItem.profileFor peer) =
      if peer ∈ peers then refreshed json peer (queue.filter (OutboxItem.profileFor peer))
      else queue.filter (OutboxItem.profileFor peer) := by
  induction peers generalizing queue with
  | nil => rfl
  | cons p peers ih =>
    rw [List.foldl_cons, ih]
    by_cases hp : p = peer
    · subst hp
      rw [supersede_profiles, refreshed_refreshed]
      simp
    · rw [supersede_others hp]
      simp [Ne.symm hp]

/-- Those that a broadcast goes to. -/
def Model.audience (m : Model) : List String :=
  (m.contacts.values.filter fun c => !c.blocked).map Contact.pubkey

theorem broadcastProfile_eq (json : String) (m : Model) :
    broadcastProfile json m = m.outbox.take m.inFlightCount ++
      m.audience.foldl (fun queue peer => supersede json peer queue)
        (m.outbox.drop m.inFlightCount) := rfl

/-- The model after a profile was accepted, before it is written down. -/
def Model.withProfile (x : Crates) (amb : Ambient) (p : OwnProfile) (m : Model) : Model :=
  let m := { m with error := none, profile := p, page := .conversations }
  { m with
    outbox := broadcastProfile (Protocol.serializePayload x (ownProfile m) (amb.now 0)) m }

section
variable {x : Crates} (amb : Ambient)

/-- A profile within the caps is accepted. -/
theorem saveProfile_accepted {displayName bio : String} {photo : Option String}
    (h : (Payload.profile (some displayName) (some bio) photo).withinCaps x) (m : Model) :
    (saveProfile x amb displayName bio photo m).1 =
      (m.withProfile x amb ⟨displayName,bio,photo⟩).refused := by
  have hchecks := not_imp_not.mpr (profile_exceeds (x := x) (some displayName) (some bio) photo).mp
    (not_not.mpr h)
  simp only [Option.any_some, decide_eq_true_eq, not_or] at hchecks
  obtain ⟨hname,hbio,hlen,hdecodes⟩ := hchecks
  simp only [saveProfile]
  rw [if_neg hname, if_neg hbio, if_neg hlen, if_neg hdecodes]
  simp only [Upd.and_fst, Upd.emit_fst, persistProfile_fst, persistOutbox_fst,
    Model.refused_refused]
  rfl

/-- A saved profile is queued for everyone in its audience. -/
theorem saveProfile_queues {displayName bio : String} {photo : Option String}
    (h : (Payload.profile (some displayName) (some bio) photo).withinCaps x) {m : Model}
    {peer : String} (hpeer : peer ∈ m.audience) :
    ∃ item ∈ (saveProfile x amb displayName bio photo m).1.outbox, item.profileFor peer = true ∧
      item.envelopeJson = Protocol.serializePayload x
        (.profile (some displayName) (some bio) photo) (amb.now 0) := by
  let json := Protocol.serializePayload x (.profile (some displayName) (some bio) photo) (amb.now 0)
  let pending := m.audience.foldl (fun queue peer => supersede json peer queue)
    (m.outbox.drop m.inFlightCount)
  have hprofiles : pending.filter (OutboxItem.profileFor peer) = refreshed json peer
      ((m.outbox.drop m.inFlightCount).filter (OutboxItem.profileFor peer)) := by
    rw [foldl_supersede_profiles, if_pos hpeer]
  have houtbox : (saveProfile x amb displayName bio photo m).1.outbox =
      m.outbox.take m.inFlightCount ++ pending := by
    rw [saveProfile_accepted amb h, refused_outbox]
    rfl
  have hfirst : ∃ item ∈ pending.filter (OutboxItem.profileFor peer), item.envelopeJson = json := by
    rw [hprofiles]
    cases (m.outbox.drop m.inFlightCount).filter (OutboxItem.profileFor peer) with
    | nil => exact ⟨_,List.mem_singleton_self _,rfl⟩
    | cons i rest => exact ⟨_,List.mem_cons_self,rfl⟩
  obtain ⟨item,hitem,hjson⟩ := hfirst
  obtain ⟨hmem,hfor⟩ := List.mem_filter.mp hitem
  exact ⟨item,houtbox ▸ List.mem_append_right _ hmem,hfor,hjson⟩

end

/-- The loop over the page gets to a blob that opens to a text of a sender, and to no other profile
of theirs. -/
def PollResp.Brings (x : Crates) (id : Crypto.Identity) (page : PollResp) (sender json : String) :
    Prop :=
  ∃ before blob after bytes dec,
    Ingest.taken 0 maxPollTotalBytes page.events = before ++ blob :: after ∧
    Hex.decode blob = some bytes ∧ Crypto.decrypt x id bytes = .ok dec ∧ dec.senderHex = sender ∧
    dec.plaintext = asBytes json ∧ ∀ other ∈ before ++ after, ∀ p,
      Ingest.openBlob x id other = some (sender,p) → ∀ name bio photo,
        p.payload ≠ .profile name bio photo

section
variable {x : Crates} {id : Crypto.Identity} {page : PollResp} {sender json : String}
  {parsed : ParsedPayload}

theorem Contact.receive_other {now : ℤ} (c : Contact) {p : String × ParsedPayload}
    (h : p.1 = sender → ∀ name bio photo, p.2.payload ≠ .profile name bio photo) :
    c.receive sender now p = c := by
  unfold Contact.receive
  split
  · rename_i name bio photo hp
    rw [if_neg fun hs => h hs.1 name bio photo hp]
  · rfl

theorem foldl_receive_other {now : ℤ} (c : Contact) {ps : List (String × ParsedPayload)}
    (h : ∀ p ∈ ps, p.1 = sender → ∀ name bio photo, p.2.payload ≠ .profile name bio photo) :
    ps.foldl (Contact.receive sender now) c = c := by
  induction ps with
  | nil => rfl
  | cons p ps ih =>
    rw [List.foldl_cons, Contact.receive_other c (h p List.mem_cons_self)]
    exact ih fun q hq => h q (List.mem_cons_of_mem p hq)

/-- A contact takes one profile from such a page. -/
theorem PollResp.Brings.receives (h : page.Brings x id sender json)
    (hjson : Protocol.parsePayload x (asBytes json) = some parsed) (now : ℤ) (c : Contact) :
    (page.opened x id).foldl (Contact.receive sender now) c =
      c.receive sender now (sender,parsed) := by
  obtain ⟨before,blob,after,bytes,dec,htaken,hbytes,hdec,rfl,hplain,hothers⟩ := h
  have hblob : Ingest.openBlob x id blob = some (dec.senderHex,parsed) := by
    simp [Ingest.openBlob, hbytes, hdec, hplain, hjson, Except.toOption]
  have hother : ∀ blobs, blobs ⊆ before ++ after → ∀ p ∈ blobs.filterMap (Ingest.openBlob x id),
      p.1 = dec.senderHex → ∀ name bio photo, p.2.payload ≠ .profile name bio photo := by
    intro blobs hsub p hp hsender
    obtain ⟨other,hmem,hopen⟩ := List.mem_filterMap.mp hp
    refine hothers other (hsub hmem) p.2 ?_
    rw [hopen, ← hsender]
  rw [PollResp.opened, htaken, List.filterMap_append, List.filterMap_cons_some hblob,
    List.foldl_append, List.foldl_cons,
    foldl_receive_other c (hother before (List.subset_append_left ..)),
    foldl_receive_other _ (hother after (List.subset_append_right ..))]

/-- What a contact shows after a page with a complete profile of its own. -/
theorem ingestPoll_brings {m : Model} (hr : Receives x id m) (amb : Ambient) {c : Contact}
    (hc : m.contacts[sender]? = some c) (hb : c.blocked = false) (hme : sender ≠ m.myPubkey)
    {ts : ℤ} {name bio : String} {photo : Option String}
    (hts : c.lastProfileTs ≤ Ingest.clampTs (amb.now 1) ts) (h : page.Brings x id sender json)
    (hjson : Protocol.parsePayload x (asBytes json) =
      some ⟨ts,.profile (some name) (some bio) photo⟩) :
    ∃ c', (ingestPoll x amb page m).1.contacts[sender]? = some c' ∧ c'.displayName = name ∧
      c'.bio = bio ∧ c'.photo = photo.orElse fun _ => c.photo := by
  obtain ⟨convo,-,hpage⟩ := ingestPoll_correspondence hr amb page hc hb hme
  have hcontact := congrArg Prod.fst hpage
  change (ingestPoll x amb page m).1.contacts[sender]? = _ at hcontact
  rw [h.receives hjson] at hcontact
  simp only [Contact.receive, true_and] at hcontact
  rw [if_pos hts] at hcontact
  rw [hcontact]
  cases pendingFrom sender (amb.now 1) (page.opened x id) with
  | none => exact ⟨_,rfl,rfl,rfl,rfl⟩
  | some pending =>
    simp only [Option.elim_some, Ingest.settleAcks]
    split <;> exact ⟨_,rfl,rfl,rfl,rfl⟩

end

/-- A contact shows a saved profile. -/
def Contact.ShowsProfile (c : Contact) (displayName bio : String) (photo : Option String) : Prop :=
  c.displayName = Protocol.sanitizeText displayName ∧ c.bio = Protocol.sanitizeText bio ∧
    c.photo = photo

/-- Every profile that is accepted is queued for everyone in its audience. Its recipient shows it
after any page that brings it and that finds us unblocked with a watermark that is not past it,
exactly when it has a photo or the recipient had none of ours. -/
theorem saved_profile_shows_iff {x : Crates} (amb : Ambient) (m : Model) {displayName bio : String}
    {photo : Option String} {peer : String}
    (haccepted : (Payload.profile (some displayName) (some bio) photo).withinCaps x)
    (hpeer : peer ∈ m.audience) (hmin : i64Min ≤ amb.now 0) (hmax : amb.now 0 ≤ i64Max)
    (hjson : x.ReadsBack (Protocol.payloadJson (.profile (some displayName) (some bio) photo)
      (amb.now 0))) :
    ∃ item ∈ (saveProfile x amb displayName bio photo m).1.outbox, item.profileFor peer = true ∧
      item.envelopeJson = Protocol.serializePayload x
        (.profile (some displayName) (some bio) photo) (amb.now 0) ∧
      ∀ (amb' : Ambient) (page : PollResp) (id : Crypto.Identity) (n : Model) (c : Contact),
        Receives x id n → n.contacts[m.myPubkey]? = some c → c.blocked = false →
        m.myPubkey ≠ n.myPubkey → c.lastProfileTs ≤ Ingest.clampTs (amb'.now 1) (amb.now 0) →
        page.Brings x id m.myPubkey item.envelopeJson →
        ((∃ c', (ingestPoll x amb' page n).1.contacts[m.myPubkey]? = some c' ∧
          c'.ShowsProfile displayName bio photo) ↔ photo.isSome ∨ c.photo = none) := by
  obtain ⟨item,hitem,hfor,htext⟩ := saveProfile_queues amb haccepted hpeer
  refine ⟨item,hitem,hfor,htext,?_⟩
  intro amb' page id n c hr hc hb hme hts hbrings
  have hparsed : Protocol.parsePayload x (asBytes item.envelopeJson) =
      some ⟨amb.now 0,.profile (some (Protocol.sanitizeText displayName))
        (some (Protocol.sanitizeText bio)) photo⟩ := by
    rw [htext, parsePayload_serialize hmin hmax hjson,
      if_pos (withinCaps_sanitized_profile haccepted)]
    rfl
  obtain ⟨c',hc',hname,hbio,hphoto⟩ := ingestPoll_brings hr amb' hc hb hme hts hbrings hparsed
  simp only [hc', Option.some.injEq, exists_eq_left', Contact.ShowsProfile, hname, hbio, hphoto,
    true_and]
  cases photo with
  | none => simp
  | some p => simp

/-- The text that is sent of a profile without a photo. -/
def photolessText : String :=
  "\x7b\"bio\":\"b\",\"display_name\":\"new\",\"ts\":3000,\"type\":\"profile\"\x7d"

/-- The crates that print it. -/
def Crates.photoless : Crates := { Crates.posted with toJson := fun _ => photolessText }

/-- Its sender, with the recipient for a contact. -/
def photolessSender : Model :=
  { myPubkey := samplePeer 7
    contacts := (∅ : PeerMap Contact).insert (samplePeer 3) (Contact.new (samplePeer 3) "" 0) }

/-- The recipient of the sample mail, who has a photo of its sender, or none. -/
def remembering (photo : Option String) : Model :=
  { acquainted with
    contacts := (∅ : PeerMap Contact).insert (samplePeer 7)
      { Contact.new (samplePeer 7) "" 0 with photo } }

theorem photoless_audience : samplePeer 3 ∈ photolessSender.audience := by decide

theorem posted_fromSlice {body : Bytes} {mail : SampleMail}
    (h : sampleMail.find? (fun mail => asBytes mail.text = body) = some mail) :
    Crates.posted.fromSlice body = some mail.json := by
  simp only [Crates.posted, h]

theorem photoless_readsBack : Crates.photoless.ReadsBack
    (Protocol.payloadJson (.profile (some "new") (some "b") none) 3000) := by
  refine ⟨.obj [("bio",.str "b"),("display_name",.str "new"),("ts",.int 3000),
    ("type",.str "profile")],?_,fun key => ?_⟩
  · have hothers : ((sampleMail.take 6).all fun mail =>
        asBytes mail.text ≠ asBytes photolessText) = true := by decide
    have hfind : sampleMail.find? (fun mail => asBytes mail.text = asBytes photolessText) =
        sampleMail[6]? := by
      rw [← List.take_append_drop 6 sampleMail, List.find?_append, List.find?_eq_none.mpr ?_]
      · simp only [Option.none_or]
        change List.find? _ [_,_] = some _
        exact List.find?_cons_of_pos (decide_eq_true rfl)
      · simpa using hothers
    exact posted_fromSlice hfind
  · simp only [Protocol.payloadJson, Json.get?, Option.map_some, Option.map_none, Option.toList_some,
      Option.toList_none, List.append_nil, List.cons_append, List.nil_append, List.reverse_cons,
      List.reverse_nil, List.lookup_cons, List.lookup_nil]
    by_cases hty : key = "type" <;> by_cases hts : key = "ts" <;>
      by_cases hname : key = "display_name" <;> simp_all [beq_eq_false_iff_ne.mpr]

theorem photoless_brings : (postedPage [7]).Brings .photoless postedIdentity (samplePeer 7)
    photolessText := by
  have hsize : ((mailed [7]).all fun blob => blob.length ≤ Crypto.maxBlobLen) = true ∧
      (mailed [7]).length ≤ maxPollEvents ∧
      ((mailed [7]).map List.length).sum ≤ maxPollTotalBytes := by decide +kernel
  have htaken : Ingest.taken 0 maxPollTotalBytes (postedPage [7]).events =
      (mailed [7]).map Hex.encode :=
    Ingest.taken_encode (by simpa using hsize.1) (by omega) hsize.2.2
  have hopen : (mailed [7]).map (fun blob => ((Crypto.decrypt .photoless postedIdentity blob).toOption.map
      fun dec => (dec.senderHex,dec.plaintext))) = [some (samplePeer 7,asBytes photolessText)] := by
    decide +kernel
  obtain ⟨blob,hblob⟩ : ∃ blob, mailed [7] = [blob] := by
    cases hm : mailed [7] with
    | nil => simp [hm] at hopen
    | cons blob blobs => 
      cases blobs with
      | nil => exact ⟨blob,rfl⟩
      | cons => simp [hm] at hopen
  rw [hblob, List.map_singleton, List.singleton_inj] at hopen
  obtain ⟨dec,hdec,heq⟩ := Option.map_eq_some_iff.mp hopen
  obtain ⟨hsender,hplain⟩ := Prod.mk.inj heq
  refine ⟨[],Hex.encode blob,[],blob,dec,by rw [htaken, hblob]; rfl,Hex.decode_encode blob,?_,hsender,
    hplain,by simp⟩
  cases hd : Crypto.decrypt .photoless postedIdentity blob with
  | error e => simp [hd, Except.toOption] at hdec
  | ok d => simpa [hd, Except.toOption] using hdec

theorem remembering_receives (photo : Option String) :
    Receives .photoless postedIdentity (remembering photo) :=
  ⟨rfl,acquainted_receives.identity⟩

/-- The surroundings in which it is saved. -/
def photolessAmbient : Ambient := { Ambient.sample with now := fun _ => 3000 }

theorem photoless_accepted :
    (Payload.profile (some "new") (some "b") none).withinCaps .photoless = true := by decide

/-- The recipient goes on showing a photo that its sender has removed. -/
theorem removed_photo_stays :
    (Payload.profile (some "new") (some "b") none).withinCaps .photoless = true ∧
    ∃ item ∈ (saveProfile .photoless photolessAmbient "new" "b" none photolessSender).1.outbox,
      item.profileFor (samplePeer 3) = true ∧
      (postedPage [7]).Brings .photoless postedIdentity (samplePeer 7) item.envelopeJson ∧
      ∃ c, (ingestPoll .photoless .sample (postedPage [7]) (remembering (some "aGk="))).1.contacts[
          samplePeer 7]? = some c ∧ c.displayName = "new" ∧ c.photo = some "aGk=" := by
  obtain ⟨item,hitem,hfor,htext⟩ :=
    saveProfile_queues photolessAmbient photoless_accepted photoless_audience
  have hparsed : Protocol.parsePayload .photoless (asBytes photolessText) =
      some ⟨3000,.profile (some "new") (some "b") none⟩ := by
    have hprinted : Protocol.serializePayload .photoless
        (.profile (some "new") (some "b") none) 3000 = photolessText := rfl
    have hclean : (Payload.profile (some "new") (some "b") none).sanitized =
        .profile (some "new") (some "b") none := by decide
    have hread := parsePayload_serialize (by decide) (by decide) photoless_readsBack
    rwa [hprinted, hclean, if_pos photoless_accepted] at hread
  let known : Contact := { Contact.new (samplePeer 7) "" 0 with photo := some "aGk=" }
  have hknown : (remembering (some "aGk=")).contacts[samplePeer 7]? = some known := by
    simp [remembering, known]
  obtain ⟨c,hc,hname,-,hphoto⟩ := ingestPoll_brings (remembering_receives _) .sample hknown rfl
    acquainted_stranger (by decide) photoless_brings hparsed
  refine ⟨photoless_accepted,item,hitem,hfor,?_,c,hc,hname,hphoto⟩
  rw [htext]
  exact photoless_brings

/-- A recipient without a photo of its sender shows the profile. -/
theorem saved_profile_shows_iff_photoless :
    ∃ c, (ingestPoll .photoless .sample (postedPage [7]) (remembering none)).1.contacts[
      samplePeer 7]? = some c ∧ c.ShowsProfile "new" "b" none := by
  obtain ⟨item,-,-,htext,hshows⟩ := saved_profile_shows_iff photolessAmbient photolessSender
    photoless_accepted photoless_audience (by decide) (by decide) photoless_readsBack
  refine (hshows .sample (postedPage [7]) postedIdentity (remembering none)
    (Contact.new (samplePeer 7) "" 0) (remembering_receives none)
    (by simp [remembering, photolessSender, Contact.new]) rfl acquainted_stranger (by decide)
    ?_).mpr (.inr rfl)
  rw [htext]
  exact photoless_brings

end Skrepka.Client
