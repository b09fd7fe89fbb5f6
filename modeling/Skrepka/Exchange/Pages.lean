import Skrepka.Exchange.Walk

/-! The size of the pages that a relay serves, against the cap that the client puts on a body. -/
namespace Skrepka.Exchange
open Rust Sequenced Mvu

/-- An event of a page as JSON without blanks. -/
def eventText (blob : Relay.Text) : Relay.Text :=
  "\x7b\"encryptedBlob\":\"".toList ++ (blob ++ "\"\x7d".toList)

/-- A page as JSON without blanks. -/
def pageText (page : Relay.Page) : Relay.Text :=
  "\x7b\"cursor\":".toList ++ ((toString page.cursor).toList ++ (",\"events\":[".toList ++
    (((page.events.map eventText).intersperse [',']).flatten ++ "]\x7d".toList)))

/-- The body of a response is as long as the page is printed, and is read as the page. -/
structure BodyOf (x : Client.Crates) (page : Relay.Page) (body : Bytes) : Prop where
  length : body.length = (pageText page).length
  read : (x.fromSlice body).bind Client.PollResp.ofJson = some (received page)

/-- The events of a page when they are printed, with the commas between them. -/
def eventsSize : List Relay.Text → ℕ
  | [] => 0
  | [blob] => blob.length+20
  | blob :: blob' :: blobs => blob.length+21+eventsSize (blob' :: blobs)

theorem eventsSize_eq (blobs : List Relay.Text) :
    eventsSize blobs = (blobs.map fun blob => blob.length+20).sum+(blobs.length-1) := by
  induction blobs with
  | nil => rfl
  | cons blob blobs ih =>
    cases blobs with
    | nil => simp [eventsSize]
    | cons blob' blobs =>
      simp only [List.map_cons, List.sum_cons, List.length_cons, Nat.add_sub_cancel] at ih ⊢
      rw [eventsSize, ih]
      omega

theorem length_event {a b : List Char} (ha : a.length = 18) (hb : b.length = 2) (s : List Char) :
    (a ++ (s ++ b)).length = s.length+20 := by
  simp only [List.length_append, ha, hb]
  omega

theorem length_page {a b c : List Char} (ha : a.length = 10) (hb : b.length = 11) (hc : c.length = 2)
    (s t : List Char) : (a ++ (s ++ (b ++ (t ++ c)))).length = t.length+s.length+23 := by
  simp only [List.length_append, ha, hb, hc]
  omega

theorem eventText_length (blob : Relay.Text) : (eventText blob).length = blob.length+20 :=
  length_event (by decide) (by decide) blob

theorem eventsText_length (blobs : List Relay.Text) :
    (((blobs.map eventText).intersperse [',']).flatten).length = eventsSize blobs := by
  induction blobs with
  | nil => rfl
  | cons blob blobs ih =>
    cases blobs with
    | nil => simp [eventsSize, eventText_length]
    | cons blob' blobs =>
      simp only [List.map_cons, List.intersperse_cons_cons, List.flatten_cons, List.length_append,
        List.length_singleton, eventText_length] at ih ⊢
      rw [ih, eventsSize]
      omega

theorem pageText_length (page : Relay.Page) :
    (pageText page).length = eventsSize page.events+(toString page.cursor).length+23 := by
  refine (length_page ?_ ?_ ?_ (toString page.cursor).toList
    ((page.events.map eventText).intersperse [',']).flatten).trans ?_
  · decide
  · decide
  · decide
  · rw [eventsText_length, String.length_toList]

/-- A row waits for a key that polls. -/
def waits (pk : Relay.Text) (cursor t : ℤ) (m : Relay.Message) : Bool :=
  m.toKey = pk && cursor < m.receivedAt && t-m.receivedAt < 2592000000

/-- The rows that wait with fewer than fifty before them. -/
def oldest (pk : Relay.Text) (cursor t : ℤ) (msgs : List Relay.Message) : List Relay.Message :=
  msgs.filter fun m => waits pk cursor t m &&
    msgs.countP (fun m' => waits pk cursor t m' && m'.receivedAt < m.receivedAt) < 50

/-- The oldest fifty blobs that wait are short enough together, with twenty characters around each, the
commas, and the digits of the last number. -/
def Short (pk : Relay.Text) (cursor t : ℤ) (msgs : List Relay.Message) : Prop :=
  let rows := oldest pk cursor t msgs
  (rows.map fun m => m.encryptedBlob.length+20).sum+(rows.length-1)+
    (toString ((rows.map Relay.Message.receivedAt).max?.getD cursor)).length+23 ≤ 67108864

/-- The body of a page is within the client's cap, and the client takes the page in and moves its
cursor to it. -/
structure TakesIn (x : Client.Crates) (amb : Client.Ambient) (m : Client.Model) (page : Relay.Page)
    (body : Bytes) : Prop where
  short : body.length ≤ Client.maxPollResponseBytes
  ingested : m.kvLoadFailed = false → Client.pollResult x amb m.pollGen (.ok ⟨200,none,body⟩) m =
    Client.pollPage x amb (received page) { m with polling := false, pollRetries := 0 }
  moved : m.kvLoadFailed = false → page.events ≠ [] → m.cursor < page.cursor →
    page.cursor ≤ i64SaturatingAdd (amb.now 0) 60000 →
      (Client.pollResult x amb m.pollGen (.ok ⟨200,none,body⟩) m).1.cursor = page.cursor

theorem utf8Size_hex {c : Char} (h : Relay.contains c "0123456789abcdef" = true) : c.utf8Size = 1 := by
  have hdigits : "0123456789abcdef".toList =
      ['0','1','2','3','4','5','6','7','8','9','a','b','c','d','e','f'] := by decide
  simp only [Relay.contains, hdigits, List.contains_iff_mem, List.mem_cons, List.not_mem_nil, or_false] at h
  obtain rfl | rfl | rfl | rfl | rfl | rfl | rfl | rfl | rfl | rfl | rfl | rfl | rfl | rfl | rfl | rfl := h <;> rfl

/-- A blob takes as many bytes as it has digits. -/
theorem len_of_hex {s : Relay.Text} (h : Relay.isValidHex s = true) : len (String.ofList s) = s.length := by
  simp only [Relay.isValidHex, Bool.and_eq_true, List.all_eq_true] at h
  have hdigits := h.2
  clear h
  induction s with
  | nil => rfl
  | cons c s ih =>
    have hc := utf8Size_hex (hdigits c List.mem_cons_self)
    have hs := ih fun d hd => hdigits d (List.mem_cons_of_mem c hd)
    simp only [len, String.ofList_cons, String.utf8ByteSize_append, String.utf8ByteSize_singleton, hc,
      List.length_cons] at hs ⊢
    omega

/-- What the blobs of a page weigh, against the length of their text. -/
theorem weight_le {blobs : List Relay.Text} (h : ∀ blob ∈ blobs, Relay.isValidHex blob = true) :
    Client.Ingest.weight (Client.Ingest.sized (blobs.map String.ofList)) ≤ eventsSize blobs := by
  induction blobs with
  | nil => rfl
  | cons blob blobs ih =>
    have hblob := len_of_hex (h blob List.mem_cons_self)
    have hrest := ih fun b hb => h b (List.mem_cons_of_mem blob hb)
    have hsize : blob.length+eventsSize blobs ≤ eventsSize (blob :: blobs) := by
      cases blobs with
      | nil => simp [eventsSize]
      | cons => simp only [eventsSize]; omega
    have hone : Client.Ingest.weight (Client.Ingest.sized ((blob :: blobs).map String.ofList)) ≤
        len (String.ofList blob)/2+Client.Ingest.weight (Client.Ingest.sized (blobs.map String.ofList)) := by
      simp only [Client.Ingest.weight, Client.Ingest.sized, List.map_cons, List.filter_cons]
      split
      · simp
      · exact Nat.le_add_left _ _
    omega

/-- A page whose text is short enough is taken in. -/
theorem takesIn_of_short {x : Client.Crates} {page : Relay.Page} {body : Bytes} (hbody : BodyOf x page body)
    (hfits : eventsSize page.events+(toString page.cursor).length+23 ≤ 67108864) (hhex : ∀ blob ∈ page.events, Relay.isValidHex blob = true)
    (hcount : page.events.length ≤ Client.maxPollEvents) (amb : Client.Ambient) (m : Client.Model) :
    TakesIn x amb m page body := by
  have hshort : body.length ≤ Client.maxPollResponseBytes := by
    rw [hbody.length, pageText_length]
    exact hfits
  have hread : Client.readPage x (.ok ⟨200,none,body⟩) = some (received page) := by
    simp only [Client.readPage, hshort, decide_true, Bool.and_true]
    exact hbody.read
  refine ⟨hshort,fun hk => Client.pollResult_page hk hread,fun hk hevents hnext hclock => ?_⟩
  have hbudgets : (received page).WithinBudgets := by
    constructor
    · refine (List.length_filter_le _ _).trans ?_
      rw [received, List.length_map]
      exact hcount
    · have hweight := weight_le hhex
      have hsize : eventsSize page.events ≤ 67108864 := by
        omega
      exact hweight.trans hsize
  rw [Client.pollResult_cursor amb hk hread hbudgets]
  exact (Client.adoptCursor_iff (by simpa [received] using hevents) hnext).mpr hclock

/-- A page as the bytes of its text. -/
def pageBody (page : Relay.Page) : Bytes := (pageText page).map fun c => UInt8.ofNat c.toNat

theorem pageBody_of (page : Relay.Page) (h : i64Min ≤ page.cursor ∧ page.cursor ≤ i64Max) :
    BodyOf (serving (received page)) page (pageBody page) := by
  refine ⟨List.length_map _,?_⟩
  exact ofJson_pageJson h

/-- The page of a poll has the oldest rows that wait. -/
theorem limited_perm {pk : Relay.Text} {cursor t : ℤ} {msgs : List Relay.Message}
    (h : (msgs.map Relay.Message.receivedAt).Nodup) :
    (Relay.limited {} pk cursor t msgs).Perm (oldest pk cursor t msgs) := by
  have hfresh : Relay.freshFor {} pk cursor t msgs = msgs.filter (waits pk cursor t) := by
    refine List.filter_congr fun m _ => ?_
    simp only [waits, gt_iff_lt, Bool.and_assoc, Bool.and_comm (decide (cursor < m.receivedAt))]
  have hnodup := h.of_map
  have hnumbers : ((Relay.freshFor {} pk cursor t msgs).map Relay.Message.receivedAt).Nodup :=
    h.sublist (List.filter_sublist.map _)
  have hpage : (Relay.limited {} pk cursor t msgs).Nodup :=
    ((sortBy_perm _ _).nodup_iff.mpr hnumbers.of_map).sublist (List.take_sublist _ _)
  refine (List.perm_ext_iff_of_nodup hpage (hnodup.filter _)).mpr fun m => ?_
  have hsorted : m ∈ Relay.limited {} pk cursor t msgs → m ∈ Relay.freshFor {} pk cursor t msgs :=
    fun hm => (mem_sortBy _).mp (List.mem_of_mem_take hm)
  simp only [List.mem_filter, Bool.and_eq_true, decide_eq_true_eq]
  have hrank : ∀ hm : m ∈ Relay.freshFor {} pk cursor t msgs, m ∈ Relay.limited {} pk cursor t msgs ↔
      msgs.countP (fun m' => waits pk cursor t m' && m'.receivedAt < m.receivedAt) < 50 := by
    intro hm
    rw [Relay.limited, mem_take_sortBy_iff hnumbers hm, hfresh, List.countP_filter]
    simp only [Bool.and_comm]
    rfl
  constructor
  · intro hm
    have hwaits := hsorted hm
    have hcount := (hrank hwaits).mp hm
    rw [hfresh, List.mem_filter] at hwaits
    exact ⟨hwaits.1,hwaits.2,hcount⟩
  · rintro ⟨hm,hwaits,hcount⟩
    exact (hrank (hfresh ▸ List.mem_filter.mpr ⟨hm,hwaits⟩)).mpr hcount

/-- The cursor of a page is the last number on it. -/
theorem foldl_cursor {rows rows' : List Relay.Message} {cursor : ℤ} (hperm : rows.Perm rows')
    (h : ∀ m ∈ rows, cursor ≤ m.receivedAt) :
    rows.foldl (fun acc m => max acc m.receivedAt) cursor =
      (rows'.map Relay.Message.receivedAt).max?.getD cursor := by
  obtain ⟨hle,hrows,hleast⟩ := Relay.le_foldl_cursor rows cursor
  cases hmax : (rows'.map Relay.Message.receivedAt).max? with
  | none =>
    have hnil : rows' = [] := by simpa using hmax
    rw [hnil] at hperm
    rw [hperm.eq_nil]
    rfl
  | some n =>
    obtain ⟨hn,hall⟩ := List.max?_eq_some_iff.mp hmax
    obtain ⟨m,hm,rfl⟩ := List.mem_map.mp hn
    have hm := hperm.mem_iff.mpr hm
    exact le_antisymm (hleast _ (h m hm) fun a ha => hall _ (List.mem_map_of_mem (hperm.mem_iff.mp ha)))
      (hrows m hm)

/-- The text of a page is as long as the mailbox makes it. -/
theorem short_iff {pk : Relay.Text} {cursor t : ℤ} {msgs : List Relay.Message}
    (h : (msgs.map Relay.Message.receivedAt).Nodup) : Short pk cursor t msgs ↔
      eventsSize (Relay.collectAt {} pk cursor t msgs).events+
        (toString (Relay.collectAt {} pk cursor t msgs).cursor).length+23 ≤ 67108864 := by
  have hperm := @limited_perm pk cursor t msgs h
  have habove : ∀ m ∈ Relay.limited {} pk cursor t msgs, cursor ≤ m.receivedAt := by
    intro m hm
    have hmem := (List.mem_filter.mp (hperm.mem_iff.mp hm)).2
    simp only [waits, Bool.and_eq_true, decide_eq_true_eq] at hmem
    exact hmem.1.1.2.le
  simp only [Short, Relay.collectAt, eventsSize_eq, foldl_cursor hperm habove, List.map_map,
    List.length_map, hperm.length_eq]
  rw [← (hperm.map fun m => m.encryptedBlob.length+20).sum_eq]
  rfl

/-- A page of a relay is taken in just if the blobs that wait are short enough. -/
theorem page_taken_in_iff {x : Client.Crates} {txns : List Relay.Txn} {s : Relay.State}
    (hrun : Lts.run (Relay.step {}) {} txns = some s)
    (hvalid : ∀ r ∈ s.mail.messages, Relay.isValidBlobHex {} r.encryptedBlob = true)
    {pk : Relay.Text} {cursor t : ℤ} {body : Bytes}
    (hbody : BodyOf x (Relay.collectAt {} pk cursor t s.mail.messages) body)
    (amb : Client.Ambient) (m : Client.Model) :
    TakesIn x amb m (Relay.collectAt {} pk cursor t s.mail.messages) body ↔
      Short pk cursor t s.mail.messages := by
  rw [short_iff (Relay.mail_run hrun).numbers]
  constructor
  · intro h
    have hshort := h.short
    rw [hbody.length, pageText_length] at hshort
    exact hshort
  · intro hshort
    refine takesIn_of_short hbody hshort (fun blob hblob => ?_) ?_ amb m
    · obtain ⟨r,hr,rfl⟩ := List.mem_map.mp hblob
      have hmem := List.mem_of_mem_filter ((mem_sortBy _).mp (List.mem_of_mem_take hr))
      have hblob := hvalid r hmem
      simp only [Relay.isValidBlobHex, Bool.and_eq_true] at hblob
      exact hblob.2
    · have htaken : (Relay.limited {} pk cursor t s.mail.messages).length ≤ 50 := List.length_take_le _ _
      change ((Relay.limited {} pk cursor t s.mail.messages).map Relay.Message.encryptedBlob).length ≤ _
      rw [List.length_map]
      exact htaken.trans (by decide)

/-- One message is sent to the key that polls. -/
def sendFirst : Relay.Txn := .sendMessages (Relay.sampleBatch.take 1) (Relay.sampleKey 'a') 5

/-- It is on the page, and the page is taken in. -/
theorem page_taken_in_iff_one :
    TakesIn (serving (received ⟨[Relay.sampleBlob '1'],5⟩)) .sample {}
      (Relay.collectAt {} (Relay.sampleKey 'b') 0 1000 (Relay.commit {} {} sendFirst).mail.messages)
      (pageBody ⟨[Relay.sampleBlob '1'],5⟩) := by
  have hrun : Lts.run (Relay.step {}) {} [sendFirst] = some (Relay.commit {} {} sendFirst) := rfl
  have hvalid : ∀ r ∈ (Relay.commit {} {} sendFirst).mail.messages,
      Relay.isValidBlobHex {} r.encryptedBlob = true := by decide +kernel
  have hpage : Relay.collectAt {} (Relay.sampleKey 'b') 0 1000
      (Relay.commit {} {} sendFirst).mail.messages = ⟨[Relay.sampleBlob '1'],5⟩ := by
    decide +kernel
  have hbody : BodyOf (serving (received ⟨[Relay.sampleBlob '1'],5⟩))
      (Relay.collectAt {} (Relay.sampleKey 'b') 0 1000 (Relay.commit {} {} sendFirst).mail.messages)
      (pageBody ⟨[Relay.sampleBlob '1'],5⟩) := by
    rw [hpage]
    exact pageBody_of ⟨[Relay.sampleBlob '1'],5⟩ (by decide : i64Min ≤ 5 ∧ 5 ≤ i64Max)
  refine (page_taken_in_iff hrun hvalid hbody .sample {}).mpr ?_
  unfold Short
  decide +kernel

/-- A blob of one digit, repeated. -/
theorem isValidHex_replicate {n : ℕ} {c : Char} (hn : 0 < n) (heven : n%2 = 0)
    (hc : Relay.contains c "0123456789abcdef" = true) : Relay.isValidHex (List.replicate n c) = true := by
  simp only [Relay.isValidHex, List.length_replicate, Bool.and_eq_true, decide_eq_true_eq, List.all_eq_true,
    List.mem_replicate]
  refine ⟨⟨hn,by omega⟩,?_⟩
  rintro d ⟨-,rfl⟩
  exact hc

theorem pollResult_oversized (x : Client.Crates) (amb : Client.Ambient) {m : Client.Model} {body : Bytes}
    (hk : m.kvLoadFailed = false) (hlong : Client.maxPollResponseBytes < body.length) :
    (Client.pollResult x amb m.pollGen (.ok ⟨200,none,body⟩) m).1.error =
        some "relay sent an oversized poll response" ∧
      (Client.pollResult x amb m.pollGen (.ok ⟨200,none,body⟩) m).1.cursor = m.cursor := by
  simp [Client.pollResult, Client.isSuccess, Client.backoffPoll, hk, hlong]

/-- A blob is sent, in a request of its own. -/
def sendOne (blob : Relay.Text) (t : ℤ) : Relay.Txn :=
  .sendMessages [⟨Relay.sampleKey 'b',blob⟩] (Relay.sampleKey 'a') t

/-- Two blobs are sent to one recipient, one after the other. -/
def sendTwo (a b : Relay.Text) : List Relay.Txn := [sendOne a 1000,sendOne b 1001]

theorem sendOne_mail {cfg : Relay.Config} (hbatch : cfg.maxBatchSize = 100) {blob : Relay.Text}
    (hblob : Relay.isValidBlobHex cfg blob = true) (t : ℤ) (s : Relay.State) :
    (Relay.commit cfg s (sendOne blob t)).mail = s.mail.appendMessage cfg (Relay.sampleKey 'b') blob t := by
  have hkeys : Relay.isValidExactHex 64 (Relay.sampleKey 'b') = true ∧
      Relay.sampleKey 'b' ≠ Relay.sampleKey 'a' := by decide
  have hvalid : Relay.validateBatch cfg [⟨Relay.sampleKey 'b',blob⟩] (Relay.sampleKey 'a') = none := by
    simp [Relay.validateBatch, hblob, hkeys, hbatch]
  rw [Relay.commit_mail]
  simp only [sendOne, Relay.mailOps, hvalid, if_true, List.map_cons, List.map_nil, List.foldl_cons,
    List.foldl_nil, Relay.Mailbox.apply]

theorem sendTwo_mail {cfg : Relay.Config} (hbatch : cfg.maxBatchSize = 100)
    (hrecipient : cfg.maxMessagesPerRecipient = 10000) (htotal : cfg.maxMessagesTotal = 1000000)
    {a b : Relay.Text} (hne : a ≠ b) (ha : Relay.isValidBlobHex cfg a = true)
    (hb : Relay.isValidBlobHex cfg b = true) : ∃ s, Lts.run (Relay.step cfg) {} (sendTwo a b) = some s ∧
      s.mail.messages = [⟨Relay.sampleKey 'b',a,1000,[]⟩,⟨Relay.sampleKey 'b',b,1001,[]⟩] := by
  refine ⟨_,rfl,?_⟩
  rw [sendOne_mail hbatch hb, sendOne_mail hbatch ha]
  generalize Relay.sampleKey 'b' = key
  simp [Relay.Mailbox.appendMessage, Relay.Mailbox.stored, Relay.Mailbox.kept, Relay.Mailbox.excess,
    Relay.Mailbox.globallyCapped, Relay.Mailbox.newRow, Relay.union, Relay.currentSeq, hrecipient, htotal, hne]

/-- Both are on the page that the recipient polls for. -/
theorem sendTwo_page {cfg : Relay.Config} (hevents : cfg.maxPollEvents = 50)
    (hage : cfg.messageMaxAge = 2592000000) (a b : Relay.Text) :
    Relay.collectAt cfg (Relay.sampleKey 'b') 0 1002
      [⟨Relay.sampleKey 'b',a,1000,[]⟩,⟨Relay.sampleKey 'b',b,1001,[]⟩] = ⟨[a,b],1001⟩ := by
  generalize Relay.sampleKey 'b' = key
  simp [Relay.collectAt, Relay.limited, Relay.freshFor, sortBy, hevents, hage]

/-- Two blobs of the longest kind, each in a request of its own, make a page that is too long. -/
theorem longest_blobs_refused : ∃ (a b : Relay.Text) (s : Relay.State) (body : Bytes) (x : Client.Crates)
    (m : Client.Model) (amb : Client.Ambient), Lts.run (Relay.step {}) {} (sendTwo a b) = some s ∧
    (∀ r ∈ s.mail.messages, Relay.isValidBlobHex {} r.encryptedBlob = true) ∧
    BodyOf x (Relay.collectAt {} (Relay.sampleKey 'b') 0 1002 s.mail.messages) body ∧
    m.kvLoadFailed = false ∧
    Client.maxPollResponseBytes < body.length ∧
    (Client.pollResult x amb m.pollGen (.ok ⟨200,none,body⟩) m).1.error =
      some "relay sent an oversized poll response" ∧
    (Client.pollResult x amb m.pollGen (.ok ⟨200,none,body⟩) m).1.cursor = m.cursor := by
  obtain ⟨a,b,hne,hlen,hvalid⟩ : ∃ a b : Relay.Text, a ≠ b ∧ a.length+b.length = 83886080 ∧
      ∀ s ∈ [a,b], Relay.isValidBlobHex {} s = true := by
    obtain ⟨n,hn⟩ : ∃ n, n = 41943040 := ⟨_,rfl⟩
    have hblob : ∀ c, Relay.contains c "0123456789abcdef" = true →
        Relay.isValidBlobHex {} (List.replicate n c) = true := by
      intro c hc
      have hpos : 0 < n := by omega
      have heven : n%2 = 0 := by omega
      have hbounds : (346 : ℤ) ≤ n ∧ (n : ℤ) ≤ 41943040 := by omega
      rw [Relay.isValidBlobHex, isValidHex_replicate hpos heven hc, Bool.and_true, Bool.and_eq_true,
        decide_eq_true_eq, decide_eq_true_eq, List.length_replicate]
      exact hbounds
    refine ⟨List.replicate n '1',List.replicate n '2',fun heq => ?_,?_,fun s hs => ?_⟩
    · have hmem : '1' ∈ List.replicate n '2' := heq ▸ List.mem_replicate.mpr ⟨by omega,rfl⟩
      exact absurd (List.mem_replicate.mp hmem).2 (by decide)
    · rw [List.length_replicate, List.length_replicate]
      omega
    · simp only [List.mem_cons, List.not_mem_nil, or_false] at hs
      obtain rfl | rfl := hs
      · exact hblob '1' (by decide)
      · exact hblob '2' (by decide)
  have ha := hvalid a (by simp)
  have hb := hvalid b (by simp)
  obtain ⟨s,hrun,hmail⟩ := @sendTwo_mail {} rfl rfl rfl a b hne ha hb
  have hpage := @sendTwo_page {} rfl rfl a b
  let page : Relay.Page := ⟨[a,b],1001⟩
  have hlong : Client.maxPollResponseBytes < (pageBody page).length := by
    rw [pageBody, List.length_map, pageText_length]
    change 67108864 < a.length+21+(b.length+20)+_+23
    omega
  have hrefused := @pollResult_oversized (serving (received page)) .sample {} (pageBody page) rfl hlong
  refine ⟨a,b,s,pageBody page,serving (received page),{},.sample,hrun,?_,?_,rfl,hlong,hrefused⟩
  · rw [hmail]
    intro r hr
    simp only [List.mem_cons, List.not_mem_nil, or_false] at hr
    obtain rfl | rfl := hr
    · exact ha
    · exact hb
  · rw [hmail, hpage]
    exact pageBody_of page (by decide : i64Min ≤ 1001 ∧ 1001 ≤ i64Max)

end Skrepka.Exchange
