import Skrepka.Client.Deliveries
import Skrepka.Lib.Watermark

/-! Which of a contact's profiles is left when they have all arrived, in whatever order and on
whatever pages. -/
namespace Skrepka.Client
open Rust Mvu

/-- A profile with both name and bio, and the clock when it arrives. -/
structure ProfileArrival where
  now : ℤ
  ts : ℤ
  displayName : String
  bio : String
  deriving DecidableEq

namespace ProfileArrival

/-- The time that the staleness test goes by. -/
def clamped (a : ProfileArrival) : ℤ := Ingest.clampTs a.now a.ts

/-- The watermark that it leaves when it is accepted. -/
def stamp (a : ProfileArrival) : ℤ := min a.clamped a.now

/-- Neither the contact's first watermark nor the stamp of an earlier arrival is past it. -/
def Passes (w : ℤ) (before : List ProfileArrival) (a : ProfileArrival) : Prop :=
  w ≤ a.clamped ∧ ∀ e ∈ before, e.stamp ≤ a.clamped

/-- The two show the same name and bio. -/
def Agrees (a b : ProfileArrival) : Prop := a.displayName = b.displayName ∧ a.bio = b.bio

def mark (a : ProfileArrival) : Watermark.Mark ℤ := ⟨a.clamped,a.now⟩

theorem passes_iff {w : ℤ} {before : List ProfileArrival} {a : ProfileArrival}
    (h : Watermark.Forward mark w before) : Watermark.Passes mark w before a ↔ a.Passes w before :=
  Watermark.level_le_iff h

end ProfileArrival

/-- A profile that comes from a peer, if it is complete. -/
def profileFrom (peer : String) (now : ℤ) (p : String × ParsedPayload) : Option ProfileArrival :=
  match p.2.payload with
  | .profile (some displayName) (some bio) _ =>
    if p.1 = peer then some ⟨now,p.2.ts,displayName,bio⟩ else none
  | _ => none

/-- Profiles that come from a peer have both a name and a bio. -/
def Complete (peer : String) (p : String × ParsedPayload) : Prop :=
  p.1 = peer → ∀ displayName bio photo, p.2.payload = .profile displayName bio photo →
    displayName.isSome ∧ bio.isSome

/-- The complete profiles that come from a peer, in the order in which pages deliver them. -/
def profileArrivals (x : Crates) (id : Crypto.Identity) (peer : String)
    (pages : List (Ambient × PollResp)) : List ProfileArrival :=
  pages.flatMap fun page => (page.2.opened x id).filterMap (profileFrom peer (page.1.now 1))

/-- The clock does not run backwards from one page to the next, nor from the contact's watermark,
which it once stamped. -/
def ClockForward (w : ℤ) (pages : List (Ambient × PollResp)) : Prop :=
  (w :: pages.map fun page => page.1.now 1).Pairwise (· ≤ ·)

/-- What a contact shows after arrivals is that of the last one let through, or its own. -/
structure Contact.Shows (before : Contact) (arrivals : List ProfileArrival) (after : Contact) :
    Prop where
  unblocked : after.blocked = before.blocked
  watermark : after.lastProfileTs =
    Watermark.level ProfileArrival.mark before.lastProfileTs arrivals
  displayName : after.displayName =
    (Watermark.latest ProfileArrival.mark before.lastProfileTs arrivals).elim before.displayName
      ProfileArrival.displayName
  bio : after.bio =
    (Watermark.latest ProfileArrival.mark before.lastProfileTs arrivals).elim before.bio
      ProfileArrival.bio

namespace Contact.Shows

theorem refl (c : Contact) : c.Shows [] c := ⟨rfl,rfl,rfl,rfl⟩

theorem trans {c₁ c₂ c₃ : Contact} {as bs : List ProfileArrival} (h₁ : c₁.Shows as c₂)
    (h₂ : c₂.Shows bs c₃) : c₁.Shows (as ++ bs) c₃ where
  unblocked := h₂.unblocked.trans h₁.unblocked
  watermark := by rw [h₂.watermark, h₁.watermark, Watermark.level_append]
  displayName := by
    rw [h₂.displayName, h₁.displayName, h₁.watermark, Watermark.latest_append]
    cases Watermark.latest ProfileArrival.mark _ bs <;> rfl
  bio := by
    rw [h₂.bio, h₁.bio, h₁.watermark, Watermark.latest_append]
    cases Watermark.latest ProfileArrival.mark _ bs <;> rfl

/-- One payload shows the profile in it. -/
theorem receive {peer : String} {p : String × ParsedPayload} (now : ℤ) (c : Contact)
    (hp : Complete peer p) :
    c.Shows (profileFrom peer now p).toList (c.receive peer now p) := by
  obtain ⟨sender,ts,pl⟩ := p
  cases pl with
  | text id body => exact refl c
  | deliveryAck ackIds => exact refl c
  | profile displayName bio photo =>
    by_cases hpeer : sender = peer
    · obtain ⟨hn,hb⟩ := hp hpeer displayName bio photo rfl
      obtain ⟨name,rfl⟩ := Option.isSome_iff_exists.mp hn
      obtain ⟨bio,rfl⟩ := Option.isSome_iff_exists.mp hb
      simp only [Contact.receive, profileFrom, hpeer, true_and, if_true, Option.toList_some]
      split
      · rename_i hpass
        have hpass' : c.lastProfileTs ≤ Ingest.clampTs now ts := hpass
        constructor <;> simp [Watermark.latest, Watermark.advance, Watermark.Mark.stamp,
          ProfileArrival.mark, ProfileArrival.clamped, hpass']
      · rename_i hpass
        have hpass' : ¬c.lastProfileTs ≤ Ingest.clampTs now ts := hpass
        constructor <;> simp [Watermark.latest, Watermark.advance, ProfileArrival.mark,
          ProfileArrival.clamped, hpass']
    · have hnone : profileFrom peer now (sender,⟨ts,.profile displayName bio photo⟩) = none := by
        unfold profileFrom
        split <;> simp [hpeer]
      simp only [hnone, Contact.receive, hpeer, false_and, if_false]
      exact refl c

theorem receives {peer : String} (now : ℤ) (c : Contact) (ps : List (String × ParsedPayload))
    (hps : ∀ p ∈ ps, Complete peer p) :
    c.Shows (ps.filterMap (profileFrom peer now)) (ps.foldl (Contact.receive peer now) c) := by
  induction ps generalizing c with
  | nil => exact refl c
  | cons p ps ih =>
    have hfirst := receive now c (hps p List.mem_cons_self)
    have hrest := ih (c.receive peer now p) fun q hq => hps q (List.mem_cons_of_mem _ hq)
    have hsplit : (p :: ps).filterMap (profileFrom peer now) =
        (profileFrom peer now p).toList ++ ps.filterMap (profileFrom peer now) := by
      cases hp : profileFrom peer now p <;> simp [hp]
    rw [hsplit]
    exact hfirst.trans hrest

end Contact.Shows

/-- What a page makes of a contact's profile. -/
theorem ingestPoll_shows {x : Crates} {id : Crypto.Identity} {m : Model} (h : Receives x id m)
    (amb : Ambient) (page : PollResp) {peer : String} {c : Contact}
    (hc : m.contacts[peer]? = some c) (hb : c.blocked = false) (hme : peer ≠ m.myPubkey)
    (hps : ∀ p ∈ page.opened x id, Complete peer p) :
    ∃ c', (ingestPoll x amb page m).1.contacts[peer]? = some c' ∧
      c.Shows ((page.opened x id).filterMap (profileFrom peer (amb.now 1))) c' := by
  have hshows := Contact.Shows.receives (amb.now 1) c (page.opened x id) hps
  obtain ⟨convo,-,hpage⟩ := ingestPoll_correspondence h amb page hc hb hme
  have hcontact := congrArg Prod.fst hpage
  change (ingestPoll x amb page m).1.contacts[peer]? = _ at hcontact
  rw [hcontact]
  cases pendingFrom peer (amb.now 1) (page.opened x id) with
  | none => exact ⟨_,rfl,hshows⟩
  | some pending =>
    simp only [Option.elim_some, Ingest.settleAcks]
    split
    · exact ⟨_,rfl,hshows⟩
    · exact ⟨_,rfl,hshows.unblocked,hshows.watermark,hshows.displayName,hshows.bio⟩

/-- What pages make of a contact's profile. -/
theorem ingestAll_shows {x : Crates} {id : Crypto.Identity} {m : Model} (h : Receives x id m)
    {peer : String} {c : Contact} (pages : List (Ambient × PollResp))
    (hc : m.contacts[peer]? = some c) (hb : c.blocked = false) (hme : peer ≠ m.myPubkey)
    (hps : ∀ page ∈ pages, ∀ p ∈ page.2.opened x id, Complete peer p) :
    ∃ c', (ingestAll x pages m).contacts[peer]? = some c' ∧
      c.Shows (profileArrivals x id peer pages) c' := by
  induction pages generalizing m c with
  | nil => exact ⟨c,hc,.refl c⟩
  | cons page pages ih =>
    obtain ⟨c₁,hc₁,hshows₁⟩ :=
      ingestPoll_shows h page.1 page.2 hc hb hme (hps page List.mem_cons_self)
    obtain ⟨h',hme'⟩ := h.ingestPoll page.1 page.2
    obtain ⟨c₂,hc₂,hshows₂⟩ := ih h' hc₁ (hshows₁.unblocked.trans hb) (hme'.symm ▸ hme)
      fun q hq => hps q (List.mem_cons_of_mem _ hq)
    exact ⟨c₂,hc₂,hshows₁.trans hshows₂⟩

theorem ClockForward.arrivals {x : Crates} {id : Crypto.Identity} {peer : String} {w : ℤ}
    {pages : List (Ambient × PollResp)} (h : ClockForward w pages) :
    Watermark.Forward ProfileArrival.mark w (profileArrivals x id peer pages) := by
  have hnow : ∀ page : Ambient × PollResp, ∀ a ∈
      (page.2.opened x id).filterMap (profileFrom peer (page.1.now 1)), a.now = page.1.now 1 := by
    intro page a ha
    obtain ⟨p,-,hp⟩ := List.mem_filterMap.mp ha
    unfold profileFrom at hp
    split at hp
    · split at hp
      · rw [← Option.some.inj hp]
      · simp at hp
    · simp at hp
  rw [ClockForward, List.pairwise_cons, List.pairwise_map] at h
  obtain ⟨hw,hpages⟩ := h
  refine List.pairwise_cons.mpr ⟨?_,?_⟩
  · intro t ht
    obtain ⟨a,ha,rfl⟩ := List.mem_map.mp ht
    obtain ⟨page,hpage,ha⟩ := List.mem_flatMap.mp ha
    exact (hw _ (List.mem_map.mpr ⟨page,hpage,rfl⟩)).trans (hnow page a ha).ge
  · rw [List.pairwise_map, profileArrivals, List.pairwise_flatMap]
    refine ⟨fun page _ => ?_,hpages.imp fun hle a ha b hb => ?_⟩
    · exact List.pairwise_of_forall_mem_list fun a ha b hb =>
        ((hnow page a ha).trans (hnow page b hb).symm).le
    · exact (hnow _ a ha).le.trans (hle.trans (hnow _ b hb).ge)

theorem clampTs_mono {now now' ts ts' : ℤ} (hnow : now ≤ now') (hts : ts ≤ ts') :
    Ingest.clampTs now ts ≤ Ingest.clampTs now' ts' := by
  simp only [Ingest.clampTs, i64SaturatingAdd, i64Clamp]
  omega

/-- The newest profile passes wherever it stands, unless the contact's first watermark is past
it, and then no profile passes. -/
theorem newest_passes {w : ℤ} {before after : List ProfileArrival} {newest : ProfileArrival}
    (hclock : Watermark.Forward ProfileArrival.mark w (before ++ newest :: after))
    (hnewest : ∀ a ∈ before ++ newest :: after, a.ts ≤ newest.ts) :
    (w ≤ newest.clamped → newest.Passes w before) ∧
      (newest.clamped < w → ∀ a ∈ before ++ newest :: after, a.clamped < w) := by
  rw [Watermark.Forward, List.pairwise_cons] at hclock
  obtain ⟨hw,hsorted⟩ := hclock
  refine ⟨fun hle => ⟨hle,fun e he => ?_⟩,fun hlt a ha => ?_⟩
  · rw [List.map_append, List.pairwise_append] at hsorted
    have hnow : e.now ≤ newest.now :=
      hsorted.2.2 _ (List.mem_map_of_mem he) newest.now (by simp [ProfileArrival.mark])
    exact (min_le_left _ _).trans
      (clampTs_mono hnow (hnewest e (List.mem_append_left _ he)))
  · have hts := hnewest a ha
    have ha' : w ≤ a.now := hw _ (List.mem_map.mpr ⟨a,ha,rfl⟩)
    have hn' : w ≤ newest.now := hw _ (List.mem_map.mpr ⟨newest,by simp,rfl⟩)
    simp only [ProfileArrival.clamped, Ingest.clampTs, i64SaturatingAdd, i64Clamp, i64Min, i64Max,
      maxFutureSkewMs] at hlt ⊢
    omega

/-- The newest profile of a contact stays: the contact's watermark is not past it, or the contact
shows the same already; and once it has arrived, no other name or bio passes for good. -/
structure KeepsNewest (c : Contact) (newest : ProfileArrival) (arrivals : List ProfileArrival) :
    Prop where
  admitted : c.lastProfileTs ≤ newest.clamped ∨
    (c.displayName = newest.displayName ∧ c.bio = newest.bio)
  settled : ∀ before a after, arrivals = before ++ a :: after → newest ∈ before →
    a.Passes c.lastProfileTs before → ¬a.Agrees newest →
    ∃ mid b rest, after = mid ++ b :: rest ∧
      b.Passes c.lastProfileTs (before ++ a :: mid) ∧ b.Agrees newest

/-- A contact ends up showing its newest profile exactly when that profile stays. -/
theorem Contact.Shows.newest_iff {c c' : Contact} {newest : ProfileArrival}
    {arrivals : List ProfileArrival} (h : c.Shows arrivals c')
    (hclock : Watermark.Forward ProfileArrival.mark c.lastProfileTs arrivals)
    (hmem : newest ∈ arrivals) (hnewest : ∀ a ∈ arrivals, a.ts ≤ newest.ts) :
    (c'.displayName = newest.displayName ∧ c'.bio = newest.bio) ↔
      KeepsNewest c newest arrivals := by
  obtain ⟨before,after,rfl,hfirst⟩ := List.eq_append_cons_of_mem hmem
  obtain ⟨hpasses,hshut⟩ := newest_passes hclock hnewest
  -- the closed form of the test holds at every place of the list
  have hplace : ∀ as a bs, before ++ newest :: after = as ++ a :: bs →
      (Watermark.Passes ProfileArrival.mark c.lastProfileTs as a ↔ a.Passes c.lastProfileTs as) :=
    fun _ _ _ hsplit => ProfileArrival.passes_iff (hsplit ▸ hclock).left
  obtain ⟨as,l,bs,hsplit,hl,hlatest,-⟩ | ⟨hlatest,hnone⟩ := Watermark.latest_cases
    ProfileArrival.mark c.lastProfileTs (before ++ newest :: after)
  · have hw : c.lastProfileTs ≤ newest.clamped := by
      by_contra hlt
      have hl' := ((hplace as l bs hsplit).mp hl).1
      have := hshut (by omega) l (by simp [hsplit])
      omega
    have hshown : (c'.displayName = newest.displayName ∧ c'.bio = newest.bio) ↔
        ∃ l, Watermark.latest ProfileArrival.mark c.lastProfileTs (before ++ newest :: after) =
          some l ∧ l.Agrees newest := by
      rw [h.displayName, h.bio, hlatest]
      simp [ProfileArrival.Agrees]
    rw [hshown, Watermark.latest_iff ((hplace before newest after rfl).mpr (hpasses hw)) ⟨rfl,rfl⟩]
    constructor
    · intro hsettles
      refine ⟨.inl hw,fun as a bs hsplit hbefore hpass hdiff => ?_⟩
      obtain ⟨mid,rfl,rfl⟩ | rfl | ⟨mid,-,rfl⟩ := Watermark.split_cases hsplit
      · obtain ⟨mid',b,rest,rfl,hb,hagree⟩ :=
          hsettles mid a bs rfl ((hplace _ a bs hsplit).mpr hpass) hdiff
        exact ⟨mid',b,rest,rfl,(hplace _ b rest (by simp)).mp hb,hagree⟩
      · exact absurd ⟨rfl,rfl⟩ hdiff
      · exact absurd (List.mem_append_left _ hbefore) hfirst
    · rintro hkeeps mid a rest rfl hpass hdiff
      have hsplit : before ++ newest :: (mid ++ a :: rest) =
          (before ++ newest :: mid) ++ a :: rest := by simp
      obtain ⟨mid',b,rest',rfl,hb,hagree⟩ := hkeeps.settled _ a rest hsplit (by simp)
        ((hplace _ a rest hsplit).mp hpass) hdiff
      exact ⟨mid',b,rest',rfl,(hplace _ b rest' (by simp)).mpr hb,hagree⟩
  · have hlt : ¬c.lastProfileTs ≤ newest.clamped := fun hw =>
      hnone before newest after rfl ((hplace before newest after rfl).mpr (hpasses hw))
    have hown : c'.displayName = c.displayName ∧ c'.bio = c.bio := by
      rw [h.displayName, h.bio, hlatest]
      exact ⟨rfl,rfl⟩
    rw [hown.1, hown.2]
    exact ⟨fun heq => ⟨.inr heq,fun as a bs hsplit _ hpass _ =>
      absurd ((hplace as a bs hsplit).mpr hpass) (hnone as a bs hsplit)⟩,
      fun hkeeps => hkeeps.admitted.resolve_left hlt⟩

/-- The newest of the complete profiles that pages deliver from a contact is the one that the
contact ends up showing exactly when it stays: no other profile that arrives after it, whose time
is no earlier than the clamped times of all the profiles before, has the last word. -/
theorem newest_profile_wins_iff {x : Crates} {id : Crypto.Identity} {m : Model}
    (h : Receives x id m) {peer : String} {c : Contact} (pages : List (Ambient × PollResp))
    (hc : m.contacts[peer]? = some c) (hb : c.blocked = false) (hme : peer ≠ m.myPubkey)
    (hps : ∀ page ∈ pages, ∀ p ∈ page.2.opened x id, Complete peer p)
    (hclock : ClockForward c.lastProfileTs pages) {newest : ProfileArrival}
    (hmem : newest ∈ profileArrivals x id peer pages)
    (hnewest : ∀ a ∈ profileArrivals x id peer pages, a.ts ≤ newest.ts) :
    (∃ c', (ingestAll x pages m).contacts[peer]? = some c' ∧
      c'.displayName = newest.displayName ∧ c'.bio = newest.bio) ↔
      KeepsNewest c newest (profileArrivals x id peer pages) := by
  obtain ⟨c',hc',hshows⟩ := ingestAll_shows h pages hc hb hme hps
  rw [← hshows.newest_iff hclock.arrivals hmem hnewest]
  simp [hc']

/-- The recipient of the sample mail, with its sender for a contact. -/
def acquainted : Model :=
  { secretKey := some sampleSecret
    myPubkey := samplePeer 3
    contacts := (∅ : PeerMap Contact).insert (samplePeer 7) (Contact.new (samplePeer 7) "" 0) }

theorem acquainted_receives : Receives .posted postedIdentity acquainted :=
  ⟨rfl,by simp [Model.identity, acquainted, posted_secret, Except.toOption]⟩

theorem acquainted_contact :
    acquainted.contacts[samplePeer 7]? = some (Contact.new (samplePeer 7) "" 0) := by
  simp [acquainted]

theorem acquainted_stranger : samplePeer 7 ≠ acquainted.myPubkey := by decide

def newName : String × ParsedPayload := (samplePeer 7,⟨3000,.profile (some "new") (some "b") none⟩)
def oldName : String × ParsedPayload := (samplePeer 7,⟨2000,.profile (some "old") (some "a") none⟩)

theorem newName_complete : Complete (samplePeer 7) newName := by
  rintro - displayName bio photo h
  cases h
  exact ⟨rfl,rfl⟩

theorem oldName_complete : Complete (samplePeer 7) oldName := by
  rintro - displayName bio photo h
  cases h
  exact ⟨rfl,rfl⟩

theorem posted_newOld : (postedPage [3,4]).opened .posted postedIdentity = [newName,oldName] :=
  postedPage_opened (by decide +kernel) (by decide +kernel)

theorem posted_oldNew : (postedPage [4,3]).opened .posted postedIdentity = [oldName,newName] :=
  postedPage_opened (by decide +kernel) (by decide +kernel)

/-- Two profiles a second and two ahead of the local clock: the older of them, which arrives last,
is the one that the contact shows. -/
theorem older_profile_wins :
    profileArrivals .posted postedIdentity (samplePeer 7) [(.sample,postedPage [3,4])] =
      [⟨1000,3000,"new","b"⟩,⟨1000,2000,"old","a"⟩] ∧
    ∃ c, (ingestAll .posted [(.sample,postedPage [3,4])] acquainted).contacts[samplePeer 7]? =
      some c ∧ c.displayName = "old" ∧ c.bio = "a" := by
  have harrivals : profileArrivals .posted postedIdentity (samplePeer 7)
      [(.sample,postedPage [3,4])] = [⟨1000,3000,"new","b"⟩,⟨1000,2000,"old","a"⟩] := by
    simp [profileArrivals, posted_newOld, profileFrom, newName, oldName, Ambient.sample]
  have hcomplete : ∀ page ∈ [(Ambient.sample,postedPage [3,4])],
      ∀ p ∈ page.2.opened .posted postedIdentity, Complete (samplePeer 7) p := by
    simp only [List.forall_mem_singleton, posted_newOld, List.forall_mem_cons]
    exact ⟨newName_complete,oldName_complete⟩
  obtain ⟨c,hc,hshows⟩ := ingestAll_shows acquainted_receives _ acquainted_contact rfl
    acquainted_stranger hcomplete
  refine ⟨harrivals,c,hc,?_,?_⟩
  · rw [hshows.displayName, harrivals]
    rfl
  · rw [hshows.bio, harrivals]
    rfl

/-- The same two in the other order. -/
theorem newest_profile_wins_iff_last :
    ∃ c, (ingestAll .posted [(.sample,postedPage [4,3])] acquainted).contacts[samplePeer 7]? =
      some c ∧ c.displayName = "new" ∧ c.bio = "b" := by
  have harrivals : profileArrivals .posted postedIdentity (samplePeer 7)
      [(.sample,postedPage [4,3])] = [⟨1000,2000,"old","a"⟩,⟨1000,3000,"new","b"⟩] := by
    simp [profileArrivals, posted_oldNew, profileFrom, newName, oldName, Ambient.sample]
  refine (@newest_profile_wins_iff _ _ _ acquainted_receives _ _ [(.sample,postedPage [4,3])]
    acquainted_contact rfl acquainted_stranger ?_ ?_ ⟨1000,3000,"new","b"⟩ ?_ ?_).mpr ?_
  · simp only [List.forall_mem_singleton, posted_oldNew, List.forall_mem_cons]
    exact ⟨oldName_complete,newName_complete⟩
  · simp [ClockForward, Contact.new, Ambient.sample]
  · simp [harrivals]
  · simp [harrivals]
  · rw [harrivals]
    refine ⟨.inl (by decide),fun before a after hsplit hbefore _ hdiff => ?_⟩
    obtain _ | ⟨b,_ | ⟨d,before⟩⟩ := before
    · simp at hbefore
    · obtain ⟨-,rfl,-⟩ : _ ∧ _ ∧ _ := by simpa using hsplit
      exact absurd ⟨rfl,rfl⟩ hdiff
    · simp at hsplit

end Skrepka.Client
