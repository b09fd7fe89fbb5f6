import Skrepka.Client.Frame

/-! What a flush sends: the longest run at the head of the outbox that one request may carry, without the
items that cannot be encrypted. -/
namespace Skrepka.Client
open Rust Mvu

/-- An item, with what encrypting it yields. -/
abbrev Tried := OutboxItem × Option Bytes

namespace Tried

def usable (p : Tried) : Bool := p.2.isSome

/-- What the item adds to the size of a request. -/
def weight (p : Tried) : ℕ := p.2.elim 0 fun blob => len (Hex.encode blob)

def envelope (p : Tried) : Envelope := ⟨p.1.recipient,Hex.encode (p.2.getD [])⟩

def weigh : List Tried → ℕ
  | [] => 0
  | p :: ps => p.weight+weigh ps

theorem weigh_append (ps qs : List Tried) : weigh (ps ++ qs) = weigh ps+weigh qs := by
  induction ps with
  | nil => exact (Nat.zero_add _).symm
  | cons p ps ih =>
    simp only [List.cons_append, weigh, ih]
    omega

end Tried

open Tried

/-- The items of a queue, tried one after the other, each with a random stream of its own. -/
def tried (x : Crates) (rng : ℕ → Crypto.Rng) (id : Crypto.Identity) : ℕ → List OutboxItem → List Tried
  | _, [] => []
  | k, item :: items => (item,encryptFor x (rng k) id item) :: tried x rng id (k+1) items

theorem tried_items (x : Crates) (rng : ℕ → Crypto.Rng) (id : Crypto.Identity) (k : ℕ)
    (items : List OutboxItem) : (tried x rng id k items).map Prod.fst = items := by
  induction items generalizing k with
  | nil => rfl
  | cons item items ih => rw [tried, List.map_cons, ih]

/-- What one request may carry: items for one recipient, no more than the cap, and no more bytes than the
budget unless there is but one. -/
def Batchable (budget : ℕ) (ps : List Tried) : Prop :=
  (∀ p ∈ ps, ∀ q ∈ ps, p.1.recipient = q.1.recipient) ∧ ps.length ≤ maxSendBatch ∧
    (ps.length = 1 ∨ weigh ps ≤ budget)

instance (budget : ℕ) (ps : List Tried) : Decidable (Batchable budget ps) :=
  inferInstanceAs (Decidable (_ ∧ _ ∧ _))

/-- Where the loop stops that has met some items: the batch is full, the next item is for another
recipient, or it is too much. -/
def Stops (budget : ℕ) (met : List Tried) (p : Tried) : Prop :=
  maxSendBatch ≤ (met.filter usable).length ∨
    (∃ q ∈ met.filter usable, q.1.recipient ≠ p.1.recipient) ∨
    (met.filter usable ≠ [] ∧ p.usable = true ∧ budget < weigh (met.filter usable)+p.weight)

/-- What the loop has built when it has met some items. -/
structure Batch.Built (budget : ℕ) (met : List Tried) (b : Batch) : Prop where
  taken : b.taken = (met.filter usable).map Prod.fst
  messages : b.messages = (met.filter usable).map envelope
  bytes : b.bytes = weigh (met.filter usable)
  idle : b.recipient = none → met.filter usable = []
  recipient : ∀ r, b.recipient = some r →
    met.filter usable ≠ [] ∧ ∀ p ∈ met.filter usable, p.1.recipient = r
  fits : (met.filter usable).length ≤ maxSendBatch ∧
    ((met.filter usable).length ≤ 1 ∨ weigh (met.filter usable) ≤ budget)
  unstopped : ∀ a p, a ++ [p] <+: met → ¬ Stops budget a p

namespace Batch.Built
variable {budget : ℕ} {met : List Tried} {b : Batch} {p : Tried}

theorem unstopped_snoc (h : b.Built budget met) (hp : ¬ Stops budget met p) :
    ∀ a q, a ++ [q] <+: met ++ [p] → ¬ Stops budget a q := by
  intro a q hpre
  obtain heq | hpre := List.prefix_concat_iff.mp hpre
  · obtain ⟨rfl,hq⟩ := List.append_inj' heq rfl
    obtain rfl := List.singleton_inj.mp hq
    exact hp
  · exact h.unstopped a q hpre

/-- An item that cannot be encrypted goes, whatever is said of it. -/
theorem drop (h : b.Built budget met) (hp : ¬ Stops budget met p) (hu : p.usable = false) {c : Batch}
    (hc : c.taken = b.taken ∧ c.messages = b.messages ∧ c.bytes = b.bytes ∧ c.recipient = b.recipient) :
    c.Built budget (met ++ [p]) := by
  have hsame : (met ++ [p]).filter usable = met.filter usable := by
    rw [List.filter_append, List.filter_singleton, hu, cond_false, List.append_nil]
  obtain ⟨htaken,hmessages,hbytes,hrecipient⟩ := hc
  constructor
  · rw [htaken, hsame, h.taken]
  · rw [hmessages, hsame, h.messages]
  · rw [hbytes, hsame, h.bytes]
  · rw [hrecipient, hsame]
    exact h.idle
  · rw [hrecipient, hsame]
    exact h.recipient
  · rw [hsame]
    exact h.fits
  · exact h.unstopped_snoc hp

/-- An item at which the loop does not stop, and that can be encrypted, goes into the batch. -/
theorem push (h : b.Built budget met) (hp : ¬ Stops budget met p) (hu : p.usable = true) {c : Batch}
    (hc : c.taken = b.taken ++ [p.1] ∧ c.messages = b.messages ++ [p.envelope] ∧
      c.bytes = b.bytes+p.weight ∧ c.recipient = some p.1.recipient) :
    c.Built budget (met ++ [p]) := by
  have hsnoc : (met ++ [p]).filter usable = met.filter usable ++ [p] := by
    rw [List.filter_append, List.filter_singleton, hu, cond_true]
  obtain ⟨htaken,hmessages,hbytes,hrecipient⟩ := hc
  simp only [Stops, not_or, not_and, not_exists, not_le, not_lt] at hp
  obtain ⟨hcount,hsame,hbudget⟩ := hp
  have hweigh : weigh (met.filter usable ++ [p]) = weigh (met.filter usable)+p.weight := by
    rw [weigh_append]
    rfl
  constructor
  · rw [htaken, hsnoc, h.taken, List.map_append, List.map_singleton]
  · rw [hmessages, hsnoc, h.messages, List.map_append, List.map_singleton]
  · rw [hbytes, hsnoc, h.bytes, hweigh]
  · intro hnone
    rw [hrecipient] at hnone
    exact absurd hnone (Option.some_ne_none _)
  · intro r hr
    obtain rfl := Option.some.inj (hrecipient.symm.trans hr)
    rw [hsnoc]
    refine ⟨List.append_ne_nil_of_right_ne_nil _ (List.cons_ne_nil _ _),fun q hq => ?_⟩
    obtain hq | hq := List.mem_append.mp hq
    · by_contra hne
      exact hsame q hq hne
    · rw [List.mem_singleton.mp hq]
  · rw [hsnoc, hweigh, List.length_append, List.length_singleton]
    refine ⟨hcount,?_⟩
    by_cases hnil : met.filter usable = []
    · left
      rw [hnil]
      exact le_rfl
    · right
      exact hbudget hnil hu
  · apply h.unstopped_snoc
    simp only [Stops, not_or, not_and, not_exists, not_le, not_lt]
    exact ⟨hcount,hsame,hbudget⟩

end Batch.Built

theorem flushLoop_built {x : Crates} {rng : ℕ → Crypto.Rng} {id : Crypto.Identity} {budget : ℕ}
    (items : List OutboxItem) {met : List Tried} {b : Batch} (hb : b.Built budget met) :
    ∃ more rest, tried x rng id b.tried items = more ++ rest ∧
      (flushLoop x rng id budget b items).2 = rest.map Prod.fst ∧
      (flushLoop x rng id budget b items).1.Built budget (met ++ more) ∧
      ∀ p, rest.head? = some p → Stops budget (met ++ more) p := by
  induction items generalizing met b with
  | nil =>
    refine ⟨[],[],rfl,rfl,?_,fun p hp => absurd hp.symm (Option.some_ne_none p)⟩
    rw [List.append_nil]
    exact hb
  | cons item items ih =>
    -- Nothing more is met when the loop stops at this item.
    have hstop : Stops budget met (item,encryptFor x (rng b.tried) id item) →
        ∃ more rest, tried x rng id b.tried (item :: items) = more ++ rest ∧
          item :: items = rest.map Prod.fst ∧ b.Built budget (met ++ more) ∧
          ∀ p, rest.head? = some p → Stops budget (met ++ more) p := by
      intro hstops
      refine ⟨[],_,rfl,(tried_items x rng id b.tried (item :: items)).symm,?_,fun p hp => ?_⟩
      · rwa [List.append_nil]
      · obtain rfl := Option.some.inj hp
        rwa [List.append_nil]
    simp only [flushLoop]
    split
    · rename_i hcount
      rw [hb.messages, List.length_map] at hcount
      exact hstop (.inl hcount)
    rename_i hcount
    rw [hb.messages, List.length_map] at hcount
    split
    · rename_i hother
      obtain ⟨r,hr,hne⟩ := Option.any_eq_true _ _ |>.mp hother
      obtain ⟨hnil,hall⟩ := hb.recipient r hr
      obtain ⟨q,hq⟩ := List.exists_mem_of_ne_nil _ hnil
      refine hstop (.inr (.inl ⟨q,hq,?_⟩))
      rw [hall q hq]
      simpa using hne
    rename_i hother
    have hsame : ∀ q ∈ met.filter usable, q.1.recipient = item.recipient := by
      intro q hq
      cases hr : b.recipient with
      | none => exact absurd (hb.idle hr ▸ hq) List.not_mem_nil
      | some r =>
        rw [(hb.recipient r hr).2 q hq]
        simpa [hr] using hother
    cases hblob : encryptFor x (rng b.tried) id item with
    | none =>
      simp only
      have hgo : ¬ Stops budget met (item,none) := by
        rintro (hfull | ⟨q,hq,hne⟩ | ⟨-,hu,-⟩)
        · exact hcount hfull
        · exact hne (hsame q hq)
        · cases hu
      obtain ⟨more,rest,htried,hrest,hbuilt,hhead⟩ := ih (hb.drop hgo rfl (c := { b with
        dirty := true
        error := some ("cannot send to " ++ Phonemic.truncOb item.recipient ++ ": invalid key")
        tried := b.tried+1 }) ⟨rfl,rfl,rfl,rfl⟩)
      refine ⟨(item,none) :: more,rest,?_,hrest,?_,?_⟩
      · rw [tried, hblob, htried, List.cons_append]
      · simpa using hbuilt
      · simpa using hhead
    | some blob =>
      simp only
      split
      · rename_i hheavy
        rw [hb.messages, hb.bytes] at hheavy
        refine hstop (.inr (.inr ⟨?_,?_,?_⟩))
        · rintro hnil
          simp [hnil] at hheavy
        · rw [usable, hblob]
          rfl
        · rw [weight, hblob]
          exact hheavy.2
      · rename_i hlight
        rw [hb.messages, hb.bytes] at hlight
        have hgo : ¬ Stops budget met (item,some blob) := by
          rintro (hfull | ⟨q,hq,hne⟩ | ⟨hnil,-,hheavy⟩)
          · exact hcount hfull
          · exact hne (hsame q hq)
          · exact hlight ⟨by simpa using hnil,hheavy⟩
        obtain ⟨more,rest,htried,hrest,hbuilt,hhead⟩ := ih (hb.push hgo rfl (c := { b with
          taken := b.taken ++ [item]
          messages := b.messages ++ [⟨item.recipient,Hex.encode blob⟩]
          bytes := b.bytes+len (Hex.encode blob)
          recipient := some item.recipient
          tried := b.tried+1 }) ⟨rfl,rfl,rfl,rfl⟩)
        refine ⟨(item,some blob) :: more,rest,?_,hrest,?_,?_⟩
        · rw [tried, hblob, htried, List.cons_append]
        · simpa using hbuilt
        · simpa using hhead

theorem built_nil {budget : ℕ} {error : Option String} : Batch.Built budget [] { error } where
  taken := rfl
  messages := rfl
  bytes := rfl
  idle _ := rfl
  recipient _ h := absurd h.symm (Option.some_ne_none _)
  fits := ⟨Nat.zero_le _,.inl (Nat.zero_le _)⟩
  unstopped a p h := by simp at h

/-- What a flush builds, and what it leaves. -/
theorem batch_built {x : Crates} {amb : Ambient} {m : Model} {id : Crypto.Identity} {b : Batch}
    {rest : List OutboxItem} (h : m.batch x amb id = (b,rest)) :
    ∃ met after, tried x amb.rng id 0 m.outbox = met ++ after ∧ rest = after.map Prod.fst ∧
      b.Built (m.sendBatchBudget.getD maxSendBatchBytes) met ∧
      ∀ p, after.head? = some p → Stops (m.sendBatchBudget.getD maxSendBatchBytes) met p := by
  obtain ⟨met,after,htried,hrest,hbuilt,hstops⟩ := @flushLoop_built x amb.rng id
    (m.sendBatchBudget.getD maxSendBatchBytes) m.outbox [] { error := m.error } built_nil
  rw [Model.batch] at h
  rw [h] at hrest hbuilt
  rw [List.nil_append] at hbuilt hstops
  exact ⟨met,after,htried,hrest,hbuilt,hstops⟩

theorem Batch.Built.batchable {budget : ℕ} {met : List Tried} {b : Batch} (h : b.Built budget met)
    (hne : met.filter usable ≠ []) : Batchable budget (met.filter usable) := by
  refine ⟨fun p hp q hq => ?_,h.fits.1,?_⟩
  · cases hr : b.recipient with
    | none => exact absurd (h.idle hr) hne
    | some r => rw [(h.recipient r hr).2 p hp, (h.recipient r hr).2 q hq]
  · obtain hone | hlight := h.fits.2
    · left
      have := List.length_pos_iff.mpr hne
      omega
    · exact .inr hlight

/-- No longer run can be carried than what was met, when the next item stops the loop. -/
theorem longest_of_stops {budget : ℕ} {met rest ps : List Tried} (hne : met.filter usable ≠ [])
    (hstops : ∀ p, rest.head? = some p → Stops budget met p)
    (hpre : ps <+: met.filter usable ++ rest) (hps : Batchable budget ps) :
    ps.length ≤ (met.filter usable).length := by
  by_contra hlonger
  -- A longer run holds the item at which the loop stopped.
  obtain ⟨ext,rfl⟩ : met.filter usable <+: ps :=
    List.prefix_of_prefix_length_le (List.prefix_append _ _) hpre (by omega)
  rw [List.length_append] at hlonger
  obtain ⟨after,rfl⟩ := (List.prefix_append_right_inj _).mp hpre
  cases ext with
  | nil => exact absurd (Nat.add_zero _).le hlonger
  | cons p ext =>
    obtain ⟨hsame,hcount,hfits⟩ := hps
    rw [List.length_append, List.length_cons] at hcount hfits
    obtain hfull | ⟨q,hq,hother⟩ | ⟨-,-,hheavy⟩ := hstops p rfl
    · omega
    · apply hother
      apply hsame
      · exact List.mem_append_left _ hq
      · exact List.mem_append_right _ List.mem_cons_self
    · have hpos := List.length_pos_iff.mpr hne
      have hweigh : weigh (met.filter usable ++ p :: ext) = weigh (met.filter usable)+(p.weight+weigh ext) := by
        rw [weigh_append]
        rfl
      omega

/-- The variables of the loop as the source has it: the index is the number of messages, and what cannot
be encrypted is removed at it. -/
structure SendLoop where
  outbox : List OutboxItem
  recipient : Option String := none
  messages : List Envelope := []
  bytes : ℕ := 0
  dirty : Bool := false
  error : Option String
  tried : ℕ := 0

namespace SendLoop
variable (x : Crates) (rng : ℕ → Crypto.Rng) (id : Crypto.Identity) (batchBudget : ℕ)

/-- One turn of the loop; `none` when it is left. -/
def turn (l : SendLoop) : Option SendLoop :=
  if maxSendBatch ≤ l.messages.length then none
  else match l.outbox[l.messages.length]? with
    | none => none
    | some item =>
      if l.recipient.any (fun r => r ≠ item.recipient) then none
      else match encryptFor x (rng l.tried) id item with
        | none => some { l with
            error := some ("cannot send to " ++ Phonemic.truncOb item.recipient ++ ": invalid key")
            outbox := l.outbox.eraseIdx l.messages.length
            dirty := true
            tried := l.tried+1 }
        | some blob =>
          let hexBlob := Hex.encode blob
          if l.messages ≠ [] ∧ l.bytes+len hexBlob > batchBudget then none
          else some { l with
            bytes := l.bytes+len hexBlob
            recipient := some item.recipient
            messages := l.messages ++ [⟨item.recipient,hexBlob⟩]
            tried := l.tried+1 }

/-- So many turns at most; `none` when the loop is not left by then. -/
def run : ℕ → SendLoop → Option SendLoop
  | 0, _ => none
  | fuel+1, l => match l.turn x rng id batchBudget with
    | none => some l
    | some l' => run fuel l'

end SendLoop

/-- What the loop has built, in its own variables. -/
abbrev Batch.variables (b : Batch) (rest : List OutboxItem) : SendLoop where
  outbox := b.taken ++ rest
  recipient := b.recipient
  messages := b.messages
  bytes := b.bytes
  dirty := b.dirty
  error := b.error
  tried := b.tried

/-- The loop is left after one turn for each item at most, and leaves what the recursion does. -/
theorem run_flushLoop {x : Crates} {rng : ℕ → Crypto.Rng} {id : Crypto.Identity} {budget : ℕ}
    (items : List OutboxItem) {b : Batch} (hb : b.taken.length = b.messages.length) {fuel : ℕ}
    (hfuel : items.length < fuel) :
    SendLoop.run x rng id budget fuel (b.variables items) =
      some ((flushLoop x rng id budget b items).1.variables (flushLoop x rng id budget b items).2) := by
  induction items generalizing b fuel with
  | nil =>
    obtain ⟨fuel,rfl⟩ := Nat.exists_eq_succ_of_ne_zero (by omega : fuel ≠ 0)
    have hturn : (b.variables []).turn x rng id budget = none := by
      simp [SendLoop.turn, hb]
    simp only [SendLoop.run, hturn, flushLoop]
  | cons item items ih =>
    obtain ⟨fuel,rfl⟩ := Nat.exists_eq_succ_of_ne_zero (by omega : fuel ≠ 0)
    have hat : (b.taken ++ item :: items)[b.messages.length]? = some item := by
      rw [← hb, List.getElem?_append_right le_rfl, Nat.sub_self]
      rfl
    have herase : (b.taken ++ item :: items).eraseIdx b.messages.length = b.taken ++ items := by
      rw [← hb, List.eraseIdx_append_of_length_le le_rfl, Nat.sub_self]
      rfl
    have hfuel : items.length < fuel := by
      rw [List.length_cons] at hfuel
      omega
    simp only [SendLoop.run, SendLoop.turn, Batch.variables, hat, herase, flushLoop]
    by_cases hfull : maxSendBatch ≤ b.messages.length
    · simp only [hfull, if_true]
    by_cases hother : b.recipient.any (fun r => r ≠ item.recipient) = true
    · simp only [hfull, if_false, hother, if_true]
    cases hblob : encryptFor x (rng b.tried) id item with
    | none =>
      simp only [hfull, if_false, hother, Bool.false_eq_true]
      exact ih (b := { b with
        dirty := true
        error := some ("cannot send to " ++ Phonemic.truncOb item.recipient ++ ": invalid key")
        tried := b.tried+1 }) hb hfuel
    | some blob =>
      by_cases hheavy : b.messages ≠ [] ∧ b.bytes+len (Hex.encode blob) > budget
      · simp only [hfull, if_false, hother, Bool.false_eq_true]
        rw [if_pos hheavy, if_pos hheavy]
      · simp only [hfull, if_false, hother, Bool.false_eq_true]
        rw [if_neg hheavy, if_neg hheavy]
        have hnext := ih (b := { b with
          taken := b.taken ++ [item]
          messages := b.messages ++ [⟨item.recipient,Hex.encode blob⟩]
          bytes := b.bytes+len (Hex.encode blob)
          recipient := some item.recipient
          tried := b.tried+1 }) (by simp only [List.length_append, hb, List.length_singleton]) hfuel
        simpa only [Batch.variables, List.append_assoc, List.singleton_append] using hnext

/-- The batch that an effect sends. -/
def Effect.batch? : Effect → Option (List Envelope)
  | .http ⟨_,_,.sendBatch msgs⟩ _ => some msgs
  | _ => none

def sentBatches (cs : Commands) : List (List Envelope) := (Cmd.requests cs).filterMap Effect.batch?

theorem Writes.sentBatches {cs : Commands} (h : Writes cs) : sentBatches cs = [] := by
  refine List.filterMap_eq_nil_iff.mpr fun f hf => ?_
  obtain ⟨c,hc,hreq⟩ := List.mem_filterMap.mp hf
  obtain ⟨key,value,rfl⟩ := h c hc
  obtain rfl := Option.some.inj hreq
  rfl

theorem sentBatches_append (cs ds : Commands) : sentBatches (cs ++ ds) = sentBatches cs ++ sentBatches ds := by
  simp only [sentBatches, Cmd.requests_append, List.filterMap_append]

/-- A batch that a flush sends is the one that it has built. -/
theorem Flushed.of_sent {x : Crates} {amb : Ambient} {m : Model} {r : Model × Commands}
    (h : Flushed x amb m r) {msgs : List Envelope} (hmsgs : msgs ∈ sentBatches r.2) :
    ∃ id b rest recipient, m.batch x amb id = (b,rest) ∧ b.recipient = some recipient ∧
      msgs = b.messages ∧ r.1 = m.sending amb recipient b rest := by
  cases h with
  | gated => simp [Client.sentBatches, Cmd.requests] at hmsgs
  | emptied _ _ _ _ hw he =>
    rw [sentBatches_append, hw.sentBatches] at hmsgs
    obtain rfl | rfl := he <;> simp [Client.sentBatches, Cmd.requests] at hmsgs
  | @sent id token b rest recipient ws _ _ _ hb hr hw =>
    rw [sentBatches_append, hw.sentBatches] at hmsgs
    exact ⟨id,b,rest,recipient,hb,hr,List.mem_singleton.mp hmsgs,rfl⟩
  | unsent _ _ _ _ hw =>
    rw [sentBatches_append, hw.sentBatches] at hmsgs
    simp [Client.sentBatches, Cmd.requests] at hmsgs

/-- The guards of a flush let it run. -/
def Model.mayFlush (x : Crates) (amb : Ambient) (m : Model) : Bool :=
  !m.flushing && !m.kvLoadFailed && !decide (amb.now 0 < m.flushPausedUntil) && (m.identity x).isSome &&
    m.token.isSome

theorem flushNext_gated {x : Crates} {amb : Ambient} {m : Model} (h : m.mayFlush x amb = false) :
    flushNext x amb m = (m,[]) := by
  simp only [flushNext]
  split
  · rfl
  rename_i hf
  split
  · rfl
  rename_i hk
  split
  · rfl
  rename_i hp
  split
  · rename_i id token hid htoken
    simp [Model.mayFlush, hf, hk, hp, hid, htoken] at h
  · rfl

theorem flushNext_open {x : Crates} {amb : Ambient} {m : Model} (h : m.mayFlush x amb = true) :
    ∃ id token, m.identity x = some id ∧ m.kvLoadFailed = false ∧
      flushNext x amb m = flushBatch x amb id token m := by
  simp only [Model.mayFlush, Bool.and_eq_true, Bool.not_eq_true', decide_eq_false_iff_not] at h
  obtain ⟨⟨⟨⟨hf,hk⟩,hp⟩,hid⟩,htoken⟩ := h
  obtain ⟨id,hid⟩ := Option.isSome_iff_exists.mp hid
  obtain ⟨token,htoken⟩ := Option.isSome_iff_exists.mp htoken
  refine ⟨id,token,hid,hk,?_⟩
  simp only [flushNext, hf, hk, hp, hid, htoken, Bool.false_eq_true, if_false]

/-- What a flush that may run leaves: the items that it has met and that can be encrypted, which are then
on the wire with their clocks started, and the rest behind them. -/
theorem flushNext_built {x : Crates} (hserializes : ∀ body, x.serializes body = true) {amb : Ambient}
    {m : Model} (hmay : m.mayFlush x amb = true) :
    ∃ id b met rest, m.identity x = some id ∧ m.batch x amb id = (b,rest.map Prod.fst) ∧
      tried x amb.rng id 0 m.outbox = met ++ rest ∧
      b.Built (m.sendBatchBudget.getD maxSendBatchBytes) met ∧
      (∀ p, rest.head? = some p → Stops (m.sendBatchBudget.getD maxSendBatchBytes) met p) ∧
      (flushNext x amb m).1.outbox =
        (met.filter usable).map (fun p => p.1.stamp (amb.now 1)) ++ rest.map Prod.fst ∧
      (met.filter usable = [] ∧ rest = [] ∧ sentBatches (flushNext x amb m).2 = [] ∨
        met.filter usable ≠ [] ∧ sentBatches (flushNext x amb m).2 = [(met.filter usable).map envelope] ∧
          (flushNext x amb m).1.inFlightCount = (met.filter usable).length) := by
  obtain ⟨id,token,hid,hk,hflush⟩ := flushNext_open hmay
  obtain ⟨b,after,hb⟩ : ∃ b after, m.batch x amb id = (b,after) := ⟨_,_,rfl⟩
  obtain ⟨met,rest,htried,rfl,hbuilt,hstops⟩ := batch_built hb
  refine ⟨id,b,met,rest,hid,hb,htried,hbuilt,hstops,?_⟩
  rw [Model.batch] at hb
  rw [hflush]
  simp only [flushBatch, hb]
  cases hr : b.recipient with
  | none =>
    have hnil := hbuilt.idle hr
    have hnone : rest = [] := by
      cases rest with
      | nil => rfl
      | cons p rest =>
        obtain hfull | ⟨q,hq,-⟩ | ⟨hne,-⟩ := hstops p rfl
        · rw [hnil] at hfull
          exact absurd hfull (by decide)
        · rw [hnil] at hq
          exact absurd hq List.not_mem_nil
        · exact absurd hnil hne
    have htaken : b.taken = [] := by rw [hbuilt.taken, hnil, List.map_nil]
    rw [htaken, hnil, hnone]
    cases b.dirty with
    | true =>
      refine ⟨?_,.inl ⟨rfl,rfl,?_⟩⟩
      · simp only [if_true, Upd.and_fst, Upd.emit_fst, persistOutbox_fst, refused_outbox]
        rfl
      · simp only [if_true, Upd.and_snd]
        rw [sentBatches_append, (persistOutbox_writes _).sentBatches]
        rfl
    | false => exact ⟨rfl,.inl ⟨rfl,rfl,rfl⟩⟩
  | some recipient =>
    obtain ⟨hne,-⟩ := hbuilt.recipient recipient hr
    obtain ⟨hfst,hw⟩ := persistIf_spec (b.dirty || b.taken.any (fun i => i.firstAttempt = 0))
      (m := { m with
        outbox := b.taken.map (OutboxItem.stamp (amb.now 1)) ++ rest.map Prod.fst
        error := b.error }) hk
    simp only [sendBatch, hfst, hserializes, if_true]
    refine ⟨?_,.inr ⟨hne,?_,?_⟩⟩
    · rw [hbuilt.taken, List.map_map]
      rfl
    · rw [sentBatches_append, hw.sentBatches, hbuilt.messages]
      rfl
    · simp only [Model.inFlightCount, Option.elim_some, hbuilt.messages, List.length_map]

/-- A flush that may run goes over the items at the front of the outbox, up to the first at which it
stops. Of these it removes the ones that cannot be encrypted and sends the others, which are the longest
run at the front of what then remains that one request may carry; the rest stays as it is. With none to
send, all have been found unusable and the outbox is empty. The loop is left after a turn for each item at
most. -/
theorem flushNext_sends (x : Crates) (hserializes : ∀ body, x.serializes body = true) (amb : Ambient)
    (m : Model) :
    m.mayFlush x amb = false ∧ flushNext x amb m = (m,[]) ∨
    m.mayFlush x amb = true ∧ ∃ id met rest, m.identity x = some id ∧
      tried x amb.rng id 0 m.outbox = met ++ rest ∧
      (∀ a p, a ++ [p] <+: met → ¬ Stops (m.sendBatchBudget.getD maxSendBatchBytes) a p) ∧
      (∀ p, rest.head? = some p → Stops (m.sendBatchBudget.getD maxSendBatchBytes) met p) ∧
      (∃ final, SendLoop.run x amb.rng id (m.sendBatchBudget.getD maxSendBatchBytes) (m.outbox.length+1)
          { outbox := m.outbox, error := m.error } = some final ∧
        final.outbox = (met.filter usable ++ rest).map Prod.fst ∧
        final.messages = (met.filter usable).map envelope) ∧
      (flushNext x amb m).1.outbox =
        (met.filter usable).map (fun p => p.1.stamp (amb.now 1)) ++ rest.map Prod.fst ∧
      (met.filter usable = [] ∧ rest = [] ∧ (flushNext x amb m).1.outbox = [] ∧
          sentBatches (flushNext x amb m).2 = [] ∨
        met.filter usable ≠ [] ∧
          sentBatches (flushNext x amb m).2 = [(met.filter usable).map envelope] ∧
          Batchable (m.sendBatchBudget.getD maxSendBatchBytes) (met.filter usable) ∧
          ∀ ps, ps <+: met.filter usable ++ rest →
            Batchable (m.sendBatchBudget.getD maxSendBatchBytes) ps →
            ps.length ≤ (met.filter usable).length) := by
  cases hmay : m.mayFlush x amb with
  | false => exact .inl ⟨rfl,flushNext_gated hmay⟩
  | true =>
    right
    obtain ⟨id,b,met,rest,hid,hb,htried,hbuilt,hstops,hout,hsent⟩ := flushNext_built hserializes hmay
    have hrun := @run_flushLoop x amb.rng id (m.sendBatchBudget.getD maxSendBatchBytes) m.outbox
      { error := m.error } rfl (m.outbox.length+1) (Nat.lt_succ_self _)
    rw [Model.batch] at hb
    rw [hb] at hrun
    refine ⟨rfl,id,met,rest,hid,htried,hbuilt.unstopped,hstops,⟨_,hrun,?_,hbuilt.messages⟩,hout,?_⟩
    · rw [List.map_append, ← hbuilt.taken]
    · obtain ⟨hnil,hnone,hbatches⟩ | ⟨hne,hbatches,-⟩ := hsent
      · exact .inl ⟨hnil,hnone,by rw [hout, hnil, hnone]; rfl,hbatches⟩
      · exact .inr ⟨hne,hbatches,hbuilt.batchable hne,fun ps => longest_of_stops hne hstops⟩

/-- An item that cannot be encrypted, two for one contact and one for another. -/
def sampleQueue : Model :=
  { secretKey := some sampleSecret
    token := some "t"
    outbox := ["",samplePeer 7,samplePeer 7,samplePeer 8].map fun peer => .new peer "hi" }

theorem flushNext_sends_two : ∃ sent : List Tried,
    sentBatches (flushNext .sample .sample sampleQueue).2 = [sent.map envelope] ∧ sent.length = 2 ∧
      Batchable maxSendBatchBytes sent := by
  have hsent : (sentBatches (flushNext .sample .sample sampleQueue).2).map List.length = [2] := by
    decide +kernel
  obtain ⟨-,hgated⟩ | ⟨-,id,met,rest,-,-,-,-,-,-,⟨-,-,-,hnone⟩ | ⟨-,hbatch,hbatchable,-⟩⟩ :=
    flushNext_sends .sample (fun _ => rfl) .sample sampleQueue
  · rw [hgated] at hsent
    exact absurd hsent (by decide)
  · rw [hnone] at hsent
    exact absurd hsent (by decide)
  · refine ⟨_,hbatch,?_,hbatchable⟩
    rw [hbatch, List.map_singleton, List.length_map] at hsent
    exact List.singleton_inj.mp hsent

end Skrepka.Client
