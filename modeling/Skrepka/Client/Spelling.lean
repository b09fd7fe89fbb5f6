import Mathlib.Data.List.GetD
import Mathlib.Data.List.Nodup
import Skrepka.Client.Phonemic

/-! The two spellings of a key, as words and as digits: what is read back is what was spelled. -/
namespace Skrepka.Client.Phonemic
open Rust

def isLetter (c : Char) : Bool := 97 ≤ c.toNat && c.toNat ≤ 122

/-- A word as a number. -/
def wordCode (s : String) : ℕ := s.toList.foldl (fun n c => 26*n+(c.toNat-97)) 0

/-- No number occurs twice, and none is a bit of `seen`. -/
def distinct : ℕ → List ℕ → Bool
  | _, [] => true
  | seen, n :: ns => !seen.testBit n && distinct (seen ||| 1 <<< n) ns

theorem nodup_of_distinct {seen : ℕ} {ns : List ℕ} (h : distinct seen ns = true) :
    ns.Nodup ∧ ∀ n ∈ ns, seen.testBit n = false := by
  induction ns generalizing seen with
  | nil => exact ⟨List.nodup_nil,fun n hn => absurd hn List.not_mem_nil⟩
  | cons n ns ih =>
    simp only [distinct, Bool.and_eq_true, Bool.not_eq_true'] at h
    obtain ⟨hn,hrest⟩ := h
    obtain ⟨hnodup,hunseen⟩ := ih hrest
    refine ⟨List.nodup_cons.mpr ⟨fun hmem => ?_,hnodup⟩,fun k hk => ?_⟩
    · have := hunseen n hmem
      simp [Nat.testBit_or, Nat.testBit_shiftLeft] at this
    · obtain rfl | hk := List.mem_cons.mp hk
      · exact hn
      · have := hunseen k hk
        simp only [Nat.testBit_or, Bool.or_eq_false_iff] at this
        exact this.1

/-- A table of words of three letters, one for each byte. -/
structure Table (table : List String) : Prop where
  full : table.length = 256
  nodup : table.Nodup
  word : ∀ s ∈ table, s.toList.length = 3 ∧ ∀ c ∈ s.toList, isLetter c = true

theorem nodup_of_codes {table : List String} (h : distinct 0 (table.map wordCode) = true) : table.Nodup :=
  List.Nodup.of_map wordCode (nodup_of_distinct h).1

def isWord (s : String) : Bool := s.toList.length == 3 && s.toList.all isLetter

theorem isWord_iff {s : String} :
    isWord s = true ↔ s.toList.length = 3 ∧ ∀ c ∈ s.toList, isLetter c = true := by
  rw [isWord, Bool.and_eq_true, beq_iff_eq, List.all_eq_true]

theorem prefixes_table : Table prefixes := by
  have hfull : prefixes.length = 256 := by decide +kernel
  have hcodes : distinct 0 (prefixes.map wordCode) = true := by decide +kernel
  have hword : prefixes.all isWord = true := by decide +kernel
  exact ⟨hfull,nodup_of_codes hcodes,fun s hs => isWord_iff.mp (List.all_eq_true.mp hword s hs)⟩

theorem suffixes_table : Table suffixes := by
  have hfull : suffixes.length = 256 := by decide +kernel
  have hcodes : distinct 0 (suffixes.map wordCode) = true := by decide +kernel
  have hword : suffixes.all isWord = true := by decide +kernel
  exact ⟨hfull,nodup_of_codes hcodes,fun s hs => isWord_iff.mp (List.all_eq_true.mp hword s hs)⟩

namespace Table
variable {table : List String}

theorem getD_mem (h : Table table) (b : UInt8) : table.getD b.toNat "" ∈ table := by
  have hb : b.toNat < table.length := h.full ▸ b.toNat_lt
  rw [List.getD_eq_getElem _ _ hb]
  exact List.getElem_mem hb

/-- A word is found at the byte that it stands for. -/
theorem index_getD (h : Table table) (b : UInt8) :
    (table.findIdx? (· == table.getD b.toNat "")).map UInt8.ofNat = some b := by
  have hb : b.toNat < table.length := h.full ▸ b.toNat_lt
  have hfind : table.findIdx? (· == table.getD b.toNat "") = some b.toNat := by
    rw [List.getD_eq_getElem _ _ hb, List.findIdx?_eq_some_iff_getElem]
    refine ⟨hb,beq_self_eq_true _,fun j hj heq => ?_⟩
    have hsame := (List.Nodup.getElem_inj_iff h.nodup).mp (eq_of_beq heq)
    omega
  rw [hfind, Option.map_some, UInt8.ofNat_toNat]

/-- A word that is found is the one of the byte it is found at. -/
theorem getD_index (h : Table table) {s : String} {b : UInt8}
    (hs : (table.findIdx? (· == s)).map UInt8.ofNat = some b) : table.getD b.toNat "" = s := by
  obtain ⟨i,hi,rfl⟩ := Option.map_eq_some_iff.mp hs
  obtain ⟨hlt,heq,-⟩ := List.findIdx?_eq_some_iff_getElem.mp hi
  have hi : (UInt8.ofNat i).toNat = i := by
    rw [UInt8.toNat_ofNat']
    have := h.full
    omega
  rw [hi, List.getD_eq_getElem _ _ hlt]
  exact eq_of_beq heq

end Table

theorem len_of_ascii {s : String} (h : ∀ c ∈ s.toList, c.toNat < 128) : len s = s.toList.length := by
  have hchars : ∀ cs : List Char, (∀ c ∈ cs, c.toNat < 128) → len (String.ofList cs) = cs.length := by
    intro cs hcs
    induction cs with
    | nil => rfl
    | cons c cs ih =>
      obtain ⟨hc,hcs⟩ := List.forall_mem_cons.mp hcs
      have hsize : c.utf8Size = 1 := by
        apply Char.utf8Size_eq_one_iff.mpr
        rw [UInt32.le_iff_toNat_le]
        exact Nat.le_of_lt_succ hc
      have := ih hcs
      simp only [len, String.ofList_cons, String.utf8ByteSize_append, String.utf8ByteSize_singleton, hsize,
        List.length_cons] at this ⊢
      omega
  simpa using hchars s.toList h

/-- What holds of the 26 letters holds of every letter. -/
theorem isLetter_induction {P : Char → Prop} (hall : ∀ n : Fin 26, P (Char.ofNat (97+n.val))) {c : Char}
    (h : isLetter c = true) : P c := by
  simp only [isLetter, Bool.and_eq_true, decide_eq_true_eq] at h
  have hc : Char.ofNat (97+(c.toNat-97)) = c := by
    rw [Nat.add_sub_cancel' h.1, Char.ofNat_toNat]
  exact hc ▸ hall ⟨c.toNat-97,by omega⟩

/-- Letters and hyphens. -/
def Spelled (s : String) : Prop := ∀ c ∈ s.toList, isLetter c = true ∨ c = '-'

theorem spelled_facts {c : Char} (h : isLetter c = true ∨ c = '-') :
    c.toNat < 128 ∧ c.toLower = c ∧ isWhitespace c = false := by
  obtain h | rfl := h
  · exact isLetter_induction (P := fun c => c.toNat < 128 ∧ c.toLower = c ∧ isWhitespace c = false)
      (by decide) h
  · decide

/-- A syllable of the encoding: six letters, of which the first three are the prefix. -/
theorem syllable_facts (hi lo : UInt8) :
    let p := prefixes.getD hi.toNat ""
    let s := suffixes.getD lo.toNat ""
    (p ++ s).toList.length = 6 ∧ (∀ c ∈ (p ++ s).toList, isLetter c = true) ∧
      String.ofList ((p ++ s).toList.take 3) = p ∧ String.ofList ((p ++ s).toList.drop 3) = s := by
  intro p s
  obtain ⟨hp,hpl⟩ := prefixes_table.word p (prefixes_table.getD_mem hi)
  obtain ⟨hs,hsl⟩ := suffixes_table.word s (suffixes_table.getD_mem lo)
  refine ⟨by rw [String.toList_append, List.length_append, hp, hs],fun c hc => ?_,?_,?_⟩
  · rw [String.toList_append] at hc
    obtain hc | hc := List.mem_append.mp hc
    · exact hpl c hc
    · exact hsl c hc
  · rw [String.toList_append, List.take_left' hp, String.ofList_toList]
  · rw [String.toList_append, List.drop_left' hp, String.ofList_toList]

theorem syllables_letters {bs : Bytes} {part : String} (h : part ∈ syllables bs) :
    part.toList.length = 6 ∧ ∀ c ∈ part.toList, isLetter c = true := by
  induction bs using syllables.induct with
  | case1 hi lo bs ih =>
    simp only [syllables] at h
    obtain rfl | h := List.mem_cons.mp h
    · exact ⟨(syllable_facts hi lo).1,(syllable_facts hi lo).2.1⟩
    · exact ih h
  | case2 bs hshort =>
    rw [syllables] at h
    · exact absurd h List.not_mem_nil
    · exact hshort

theorem decodeParts_syllables {bs : Bytes} (h : bs.length%2 = 0) : decodeParts (syllables bs) = some bs := by
  induction bs using syllables.induct with
  | case1 hi lo bs ih =>
    obtain ⟨hlength,hletters,hpre,hsuffix⟩ := syllable_facts hi lo
    have hascii : ∀ c ∈ (prefixes.getD hi.toNat "" ++ suffixes.getD lo.toNat "").toList, c.toNat < 128 :=
      fun c hc => (spelled_facts (.inl (hletters c hc))).1
    have hlen : len (prefixes.getD hi.toNat "" ++ suffixes.getD lo.toNat "") = 6 :=
      (len_of_ascii hascii).trans hlength
    have hhi : prefixIndex (prefixes.getD hi.toNat "") = some hi := prefixes_table.index_getD hi
    have hlo : suffixIndex (suffixes.getD lo.toNat "") = some lo := suffixes_table.index_getD lo
    have hrest := ih (by simp only [List.length_cons] at h; omega)
    rw [syllables, decodeParts, if_neg, hpre, hsuffix, hhi, hlo, hrest]
    · rfl
    · rintro (hne | hnot)
      · exact hne hlen
      · exact hnot (List.all_eq_true.mpr fun c hc => decide_eq_true (hascii c hc))
  | case2 bs hshort =>
    obtain _ | ⟨b,_ | ⟨b',bs⟩⟩ := bs
    · rfl
    · simp at h
    · exact absurd rfl (hshort b b' bs)

/-- Parts that are read are the syllables of what is read from them. -/
theorem syllables_decodeParts {parts : List String} {bs : Bytes} (h : decodeParts parts = some bs) :
    syllables bs = parts ∧ bs.length = 2*parts.length := by
  induction parts generalizing bs with
  | nil =>
    obtain rfl := Option.some.inj h
    exact ⟨rfl,rfl⟩
  | cons part parts ih =>
    simp only [decodeParts, Option.bind_eq_bind] at h
    split at h
    · simp at h
    simp only [Option.bind_eq_some_iff, Option.pure_def, Option.some.injEq] at h
    obtain ⟨hi,hhi,lo,hlo,rest,hrest,rfl⟩ := h
    obtain ⟨hparts,hcount⟩ := ih hrest
    have hpre := prefixes_table.getD_index hhi
    have hsuffix := suffixes_table.getD_index hlo
    refine ⟨?_,by simp only [List.length_cons, hcount]; omega⟩
    rw [syllables, hparts, hpre, hsuffix, ← String.ofList_append, List.take_append_drop,
      String.ofList_toList]

/-- The parts of a text that are read. -/
def partsOf (s : String) : List String := (splitHyphen (toLowercase s)).filter fun p => p ≠ ""

theorem fromOb_eq_some {s : String} {bs : Bytes} (h : fromOb s = some bs) :
    partsOf s ≠ [] ∧ syllables bs = partsOf s ∧ bs.length = 2*(partsOf s).length := by
  change (if (partsOf s).isEmpty then none else decodeParts (partsOf s)) = some bs at h
  split at h
  · simp at h
  · rename_i hparts
    exact ⟨fun hnil => hparts (List.isEmpty_iff.mpr hnil),syllables_decodeParts h⟩

/-- What is read from a text is spelled as the text's own parts. -/
theorem toOb_of_fromOb {s : String} {bs : Bytes} (h : fromOb s = some bs) :
    toOb bs = some ("-".intercalate (partsOf s)) := by
  obtain ⟨hne,hparts,hlength⟩ := fromOb_eq_some h
  have hpos := List.length_pos_iff.mpr hne
  have hsome : bs.isEmpty = false := by
    cases bs with
    | nil =>
      rw [List.length_nil] at hlength
      omega
    | cons b bs => rfl
  simp only [toOb, hsome, Bool.false_eq_true, if_false]
  rw [if_neg (by omega), hparts]

/-- Two texts that differ at most in the case of letters. -/
def SameButCase (s t : String) : Prop := s.toList.map Char.toLower = t.toList.map Char.toLower

/-- A text of small letters and hyphens is what every variant of it in case is lowered to. -/
theorem toLowercase_sameButCase {s t : String} (hs : Spelled s) (h : SameButCase t s) :
    toLowercase t = s := by
  have hlower : s.toList.map Char.toLower = s.toList := by
    have hid : s.toList.map Char.toLower = s.toList.map id :=
      List.map_congr_left fun c hc => (spelled_facts (hs c hc)).2.1
    rw [hid, List.map_id]
  have hchars : (t.toList.flatMap fun c =>
      if c.toNat = 0x212A then ['k'] else if c.toNat = 0x130 then ['i',Char.ofNat 0x307]
      else [c.toLower]) = t.toList.map Char.toLower := by
    rw [List.map_eq_flatMap]
    refine List.flatMap_congr fun c hc => ?_
    have hmem : c.toLower ∈ s.toList := by
      rw [← hlower, ← h]
      exact List.mem_map_of_mem hc
    have hsmall : c.toLower.toNat < 128 := (spelled_facts (hs _ hmem)).1
    have hno : ∀ n, 128 ≤ n → (Char.ofNat n).toLower.toNat = n → c.toNat ≠ n := by
      rintro n hn hlow rfl
      rw [Char.ofNat_toNat] at hlow
      omega
    rw [if_neg (hno 0x212A (by decide) (by decide)), if_neg (hno 0x130 (by decide) (by decide))]
  rw [toLowercase, hchars, h, hlower, String.ofList_toList]

theorem toOb_eq {bs : Bytes} (hne : bs ≠ []) (heven : bs.length%2 = 0) :
    toOb bs = some ("-".intercalate (syllables bs)) := by
  have hsome : bs.isEmpty = false := by simpa using hne
  simp only [toOb, hsome, Bool.false_eq_true, if_false]
  rw [if_neg (by omega)]

theorem syllables_ne_nil {bs : Bytes} (hne : bs ≠ []) (heven : bs.length%2 = 0) : syllables bs ≠ [] := by
  obtain _ | ⟨b,_ | ⟨b',bs⟩⟩ := bs
  · exact absurd rfl hne
  · simp at heven
  · simp [syllables]

/-- A spelling is made of letters and hyphens. -/
theorem intercalate_spelled {parts : List String}
    (h : ∀ part ∈ parts, ∀ c ∈ part.toList, isLetter c = true) : Spelled ("-".intercalate parts) := by
  induction parts with
  | nil =>
    intro c hc
    simp at hc
  | cons part parts ih =>
    obtain ⟨hpart,hparts⟩ := List.forall_mem_cons.mp h
    by_cases hnil : parts = []
    · subst hnil
      rw [String.intercalate_singleton]
      exact fun c hc => .inl (hpart c hc)
    · rw [String.intercalate_cons_of_ne_nil hnil]
      intro c hc
      simp only [String.toList_append, List.mem_append] at hc
      obtain (hc | hc) | hc := hc
      · exact .inl (hpart c hc)
      · exact .inr (by simpa using hc)
      · exact ih hparts c hc

/-- A spelling falls into its syllables again. -/
theorem splitHyphen_intercalate {parts : List String} (hne : parts ≠ [])
    (h : ∀ part ∈ parts, ∀ c ∈ part.toList, isLetter c = true) :
    splitHyphen ("-".intercalate parts) = parts := by
  have hchars : ("-".intercalate parts).toList = ['-'].intercalate (parts.map String.toList) := by
    rw [String.toList_intercalate]
    rfl
  rw [splitHyphen, hchars, List.splitOn_intercalate, List.map_map]
  · simp
  · intro cs hcs hmem
    obtain ⟨part,hpart,rfl⟩ := List.mem_map.mp hcs
    exact absurd (h part hpart _ hmem) (by decide)
  · simpa using hne

/-- Bytes are read back from their spelling, whatever the case of its letters. -/
theorem fromOb_toOb {bs : Bytes} {s t : String} (h : toOb bs = some s) (ht : SameButCase t s) :
    Spelled s ∧ fromOb t = some bs := by
  have hbs : bs ≠ [] ∧ bs.length%2 = 0 := by
    simp only [toOb] at h
    split at h
    · simp at h
    · rename_i hne
      split at h
      · simp at h
      · rename_i heven
        exact ⟨by simpa using hne,by omega⟩
  obtain ⟨hne,heven⟩ := hbs
  obtain rfl := Option.some.inj ((toOb_eq hne heven).symm.trans h)
  have hletters : ∀ part ∈ syllables bs, ∀ c ∈ part.toList, isLetter c = true :=
    fun part hpart => (syllables_letters hpart).2
  have hspelled := intercalate_spelled hletters
  have hnil := syllables_ne_nil hne heven
  have hparts : partsOf t = syllables bs := by
    rw [partsOf, toLowercase_sameButCase hspelled ht, splitHyphen_intercalate hnil hletters]
    refine List.filter_eq_self.mpr fun part hpart => ?_
    have hlength := (syllables_letters hpart).1
    simp only [decide_eq_true_eq]
    rintro rfl
    simp at hlength
  refine ⟨hspelled,?_⟩
  change (if (partsOf t).isEmpty then none else decodeParts (partsOf t)) = some bs
  rw [hparts, if_neg (by simpa using hnil), decodeParts_syllables heven]

theorem hyphen_of_toLower {c : Char} (h : c.toLower = '-') : c = '-' := by
  unfold Char.toLower at h
  split at h
  · rename_i hupper
    have hval : (c.val+32).toNat = 45 := congrArg (fun d : Char => d.val.toNat) h
    have hlower : 65 ≤ c.val.toNat := UInt32.le_iff_toNat_le.mp hupper.1
    have hupper : c.val.toNat ≤ 90 := UInt32.le_iff_toNat_le.mp hupper.2
    rw [UInt32.toNat_add] at hval
    change (c.val.toNat+32)%2^32 = 45 at hval
    omega
  · exact h

/-- What no hyphen divides is one syllable at most. -/
theorem fromOb_unhyphened {s : String} {bs : Bytes} (hno : '-' ∉ s.toList) (h : fromOb s = some bs) :
    bs.length = 2 := by
  obtain ⟨hne,-,hlength⟩ := fromOb_eq_some h
  have hlower : '-' ∉ (toLowercase s).toList := by
    intro hmem
    simp only [toLowercase, String.toList_ofList, List.mem_flatMap] at hmem
    obtain ⟨c,hc,hmem⟩ := hmem
    split at hmem
    · simp at hmem
    split at hmem
    · exact absurd hmem (by decide)
    · rw [List.mem_singleton] at hmem
      exact hno (hyphen_of_toLower hmem.symm ▸ hc)
  have hsingle : (partsOf s).length ≤ 1 := by
    rw [partsOf, splitHyphen, List.splitOn_eq_singleton hlower]
    exact List.length_filter_le _ _
  have hpos := List.length_pos_iff.mpr hne
  omega

theorem trim_of_no_whitespace {s : String} (h : ∀ c ∈ s.toList, isWhitespace c = false) : trim s = s := by
  have hkept : ∀ cs : List Char, (∀ c ∈ cs, isWhitespace c = false) → cs.dropWhile isWhitespace = cs := by
    intro cs hcs
    cases cs with
    | nil => rfl
    | cons c cs => rw [List.dropWhile_cons, hcs c List.mem_cons_self, if_neg Bool.false_ne_true]
  rw [trim, trimEndMatches, hkept _ h, String.toList_ofList,
    hkept _ fun c hc => h c (List.mem_reverse.mp hc), List.reverse_reverse, String.ofList_toList]

/-- The digits of an encoding are 0 to 9 and a to f: no white space, and no hyphen. -/
theorem encode_facts {bs : Bytes} {c : Char} (h : c ∈ (Hex.encode bs).toList) :
    c ∈ "0123456789abcdef".toList ∧ isWhitespace c = false ∧ c ≠ '-' := by
  obtain ⟨n,hn,rfl⟩ := Hex.mem_encode h
  have hall : ∀ k : Fin 16, Hex.digit k ∈ "0123456789abcdef".toList ∧
      isWhitespace (Hex.digit k) = false ∧ Hex.digit k ≠ '-' := by decide
  exact hall ⟨n,hn⟩

theorem mem_of_decodeChars {cs : List Char} {bs : Bytes} (h : Hex.decodeChars cs = some bs) {c : Char}
    (hc : c ∈ cs) : (Hex.value c).isSome = true := by
  induction cs using Hex.decodeChars.induct generalizing bs with
  | case1 => exact absurd hc List.not_mem_nil
  | case2 => simp [Hex.decodeChars] at h
  | case3 hi lo cs ih =>
    simp only [Hex.decodeChars, Option.bind_eq_bind, Option.bind_eq_some_iff] at h
    obtain ⟨m,hm,n,hn,tail,htail,-⟩ := h
    simp only [List.mem_cons] at hc
    obtain rfl | rfl | hc := hc
    · rw [hm]
      rfl
    · rw [hn]
      rfl
    · exact ih htail hc

/-- The name of a key of 32 bytes is not made of digits. -/
theorem decode_of_fromOb {s : String} {bs : Bytes} (h : fromOb s = some bs) (hlength : bs.length = 32) :
    Hex.decode s = none := by
  cases hhex : Hex.decode s with
  | none => rfl
  | some digits =>
    have hno : '-' ∉ s.toList := by
      intro hmem
      exact absurd (mem_of_decodeChars hhex hmem) (by decide)
    have := fromOb_unhyphened hno h
    omega

variable {verifyingKey : Bytes → Bool}

theorem validPubkeyHex_eq_some {bs : Bytes} {h : String} :
    validPubkeyHex verifyingKey bs = some h ↔ (bs.length = 32 ∧ verifyingKey bs = true) ∧ Hex.encode bs = h := by
  simp only [validPubkeyHex, Option.ite_none_right_eq_some, Option.some.injEq]

/-- Words first, then digits. -/
theorem tryParsePubkey_eq (s : String) : tryParsePubkey verifyingKey s =
    ((fromOb (trim s)).bind (validPubkeyHex verifyingKey)).or
      ((Hex.decode (trim s)).bind (validPubkeyHex verifyingKey)) := by
  unfold tryParsePubkey
  cases hname : (fromOb (trim s)).bind (validPubkeyHex verifyingKey) with
  | some hex => simp only [hname, Option.some_or]
  | none =>
    cases hhex : Hex.decode (trim s) with
    | some bs => simp only [hname, hhex, Option.none_or, Option.bind_some]
    | none => simp only [hname, hhex, Option.none_or, Option.bind_none]

theorem tryParsePubkey_eq_some {s h : String} (hs : tryParsePubkey verifyingKey s = some h) :
    ∃ bs, bs.length = 32 ∧ verifyingKey bs = true ∧ h = Hex.encode bs := by
  have hvalid : ∃ bs, validPubkeyHex verifyingKey bs = some h := by
    rw [tryParsePubkey_eq, Option.or_eq_some_iff] at hs
    obtain hs | ⟨-,hs⟩ := hs
    · obtain ⟨bs,-,hbs⟩ := Option.bind_eq_some_iff.mp hs
      exact ⟨bs,hbs⟩
    · obtain ⟨bs,-,hbs⟩ := Option.bind_eq_some_iff.mp hs
      exact ⟨bs,hbs⟩
  obtain ⟨bs,hbs⟩ := hvalid
  obtain ⟨⟨hlength,hkey⟩,hhex⟩ := validPubkeyHex_eq_some.mp hbs
  exact ⟨bs,hlength,hkey,hhex.symm⟩

/-- The digits of a key are parsed to themselves. -/
theorem tryParsePubkey_encode {bs : Bytes} (hlength : bs.length = 32) (hkey : verifyingKey bs = true) :
    tryParsePubkey verifyingKey (Hex.encode bs) = some (Hex.encode bs) := by
  have htrim : trim (Hex.encode bs) = Hex.encode bs :=
    trim_of_no_whitespace fun c hc => (encode_facts hc).2.1
  have hname : (fromOb (Hex.encode bs)).bind (validPubkeyHex verifyingKey) = none := by
    cases hob : fromOb (Hex.encode bs) with
    | none => rfl
    | some other =>
      have hshort := fromOb_unhyphened (fun hmem => (encode_facts hmem).2.2 rfl) hob
      rw [Option.bind_some, validPubkeyHex, if_neg (by omega)]
  rw [tryParsePubkey_eq, htrim, hname, Option.none_or, Hex.decode_encode, Option.bind_some]
  exact validPubkeyHex_eq_some.mpr ⟨⟨hlength,hkey⟩,rfl⟩

/-- The name of a key is parsed to its digits. -/
theorem tryParsePubkey_hexToOb {bs : Bytes} (hlength : bs.length = 32) (hkey : verifyingKey bs = true) :
    tryParsePubkey verifyingKey (hexToOb (Hex.encode bs)) = some (Hex.encode bs) := by
  have hne : bs ≠ [] := by
    rintro rfl
    simp at hlength
  have hob := toOb_eq hne (by omega)
  have hname : hexToOb (Hex.encode bs) = "-".intercalate (syllables bs) := by
    rw [hexToOb, Hex.decode_encode, Option.bind_some, hob, Option.getD_some]
  obtain ⟨hspelled,hback⟩ := fromOb_toOb hob rfl
  have htrim := trim_of_no_whitespace fun c hc => (spelled_facts (hspelled c hc)).2.2
  rw [hname, tryParsePubkey_eq, htrim, hback, Option.bind_some,
    validPubkeyHex_eq_some.mpr ⟨⟨hlength,hkey⟩,rfl⟩, Option.some_or]

/-- The two spellings of a key agree: words are read back as what they spell, in any case, and only
from the text of a spelling; a text that parses names a valid key, which its digits and its words parse
to as well; and no name of a key is read as digits. -/
theorem spellings_agree (verifyingKey : Bytes → Bool) :
    (∀ bs : Bytes, bs ≠ [] → bs.length%2 = 0 → ∃ s, toOb bs = some s ∧ fromOb s = some bs ∧
      ∀ t, SameButCase t s → fromOb t = some bs) ∧
    (∀ s bs, fromOb s = some bs →
      toOb bs = some ("-".intercalate ((splitHyphen (toLowercase s)).filter fun p => p ≠ ""))) ∧
    (∀ s h, tryParsePubkey verifyingKey s = some h →
      (∃ bs, bs.length = 32 ∧ verifyingKey bs = true ∧ h = Hex.encode bs) ∧
      h.toList.length = 64 ∧ (∀ c ∈ h.toList, c ∈ "0123456789abcdef".toList) ∧
      tryParsePubkey verifyingKey h = some h ∧ tryParsePubkey verifyingKey (hexToOb h) = some h) ∧
    ∀ s bs, fromOb s = some bs → bs.length = 32 → Hex.decode s = none := by
  refine ⟨fun bs hne heven => ?_,fun s bs => toOb_of_fromOb,fun s h hs => ?_,fun s bs => decode_of_fromOb⟩
  · have hob := toOb_eq hne heven
    exact ⟨_,hob,(fromOb_toOb hob rfl).2,fun t ht => (fromOb_toOb hob ht).2⟩
  · obtain ⟨bs,hlength,hkey,rfl⟩ := tryParsePubkey_eq_some hs
    refine ⟨⟨bs,hlength,hkey,rfl⟩,?_,fun c hc => (encode_facts hc).1,tryParsePubkey_encode hlength hkey,
      tryParsePubkey_hexToOb hlength hkey⟩
    rw [Hex.length_encode, hlength]

/-- A name in mixed case, with empty parts, and the digits of the same key. -/
example : fromOb "-DozNec--marBUD" = some [0,1,1,2] ∧ Hex.decode "00010102" = some [0,1,1,2] := by
  decide

end Skrepka.Client.Phonemic
