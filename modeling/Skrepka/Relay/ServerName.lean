import Skrepka.Lib.InetAton

/-! The names of other relays: the lexical deny-list that keeps a relay from being sent to hosts
inside its own network. -/
namespace Skrepka.Relay

/-- A text, as its characters in order. -/
abbrev Text := List Char

def contains (c : Char) (s : String) : Bool := s.toList.contains c

def hasPrefix (pre : String) (s : Text) : Bool := s.take pre.length = pre.toList

def hasSuffix (suffix : String) (s : Text) : Bool :=
  s.drop (s.length-suffix.length) = suffix.toList

/-- Strip every trailing dot. -/
def stripTrailingDot (s : Text) : Text :=
  if h : hasSuffix "." s then stripTrailingDot (s.take (s.length-1)) else s
termination_by s.length
decreasing_by
  have hne : s ≠ [] := by
    rintro rfl
    simp [hasSuffix] at h
  have := List.length_pos_iff.mpr hne
  rw [List.length_take]
  omega

def countChar (c : Char) : Text → ℕ
  | [] => 0
  | a :: s => (if a = c then 1 else 0)+countChar c s

/-- What comes before the first colon. -/
def beforeColon : Text → Text
  | [] => []
  | a :: s => if a = ':' then [] else a :: beforeColon s

def isNumericHost (host : Text) : Bool :=
  host ≠ [] && host.all fun c => contains c "0123456789"

def digitValue (c : Char) : ℤ :=
  if c = '0' then 0 else if c = '1' then 1 else if c = '2' then 2 else if c = '3' then 3
  else if c = '4' then 4 else if c = '5' then 5 else if c = '6' then 6 else if c = '7' then 7
  else if c = '8' then 8 else 9

/-- The accumulator saturates. -/
def decimalValueGo (acc : ℤ) : Text → ℤ
  | [] => acc
  | a :: s => decimalValueGo (min 4294967296 (acc*10+digitValue a)) s

/-- The value of a text of digits, -1 for any other. -/
def decimalValue (s : Text) : ℤ :=
  if s = [] || !s.all (fun c => contains c "0123456789") then -1 else decimalValueGo 0 s

def beforeDot : Text → Text
  | [] => []
  | a :: s => if a = '.' then [] else a :: beforeDot s

def afterDot : Text → Text
  | [] => []
  | a :: s => if a = '.' then s else afterDot s

def isDottedNumeric (host : Text) : Bool :=
  host ≠ [] && host.contains '.' && host.all fun c => contains c "0123456789."

/-- The reserved ranges that are denied to IPv4 literals only. -/
def isReservedIPv4 (host : Text) : Bool :=
  let o1 := decimalValue (beforeDot host)
  let o2 := decimalValue (beforeDot (afterDot host))
  isDottedNumeric host &&
    (o1 ≥ 224 || (o1 = 100 && o2 ≥ 64 && o2 ≤ 127) || (o1 = 198 && (o2 = 18 || o2 = 19)))

theorem afterDot_length_le (s : Text) : (afterDot s).length ≤ s.length := by
  induction s with
  | nil => rfl
  | cons a s ih =>
    simp only [afterDot, List.length_cons]
    split <;> omega

theorem afterDot_length_lt {s : Text} (h : s ≠ []) : (afterDot s).length < s.length := by
  obtain ⟨a,s,rfl⟩ := List.exists_cons_of_ne_nil h
  have := afterDot_length_le s
  simp only [afterDot, List.length_cons]
  split <;> omega

/-- Some octet, but not the last, has a redundant zero in front. -/
def hasLeadingZeroOctet (host : Text) : Bool :=
  if isDottedNumeric host then
    let octet := beforeDot host
    let rest := afterDot host
    (octet.length > 1 && octet.take 1 = ['0']) || (rest ≠ [] && hasLeadingZeroOctet rest)
  else false
termination_by host.length
decreasing_by
  rename_i h
  refine afterDot_length_lt ?_
  rintro rfl
  simp [isDottedNumeric] at h

/-- The reserved ranges that are denied to any name that starts like them. -/
def isReservedOctetPrefix (host : Text) : Bool :=
  let o1 := decimalValue (beforeDot host)
  let o2 := decimalValue (beforeDot (afterDot host))
  o1 = 0 || o1 = 10 || o1 = 127 || (o1 = 172 && o2 ≥ 16 && o2 ≤ 31) || (o1 = 192 && o2 = 168) ||
    (o1 = 169 && o2 = 254)

/-- A name that no request is sent to. -/
def isBadServerName (raw : Text) : Bool :=
  let sn := stripTrailingDot raw
  let host := beforeColon sn
  sn = [] || sn = "localhost".toList || hasPrefix "localhost:" sn || isNumericHost host ||
    isReservedOctetPrefix host || isReservedIPv4 host || hasLeadingZeroOctet host ||
    hasPrefix "0x" sn ||
    sn.any (fun c => !contains c "0123456789abcdefghijklmnopqrstuvwxyz-.:") ||
    countChar ':' sn > 1 ||
    [".",":","192.0.2.","198.51.100.","203.0.113."].any (fun p => hasPrefix p sn) ||
    [".localhost",".local",".internal",".arpa",".onion"].any fun s => hasSuffix s sn

/-- The host of a name: its port and trailing dots removed. -/
def hostOf (raw : Text) : Text := stripTrailingDot (beforeColon (stripTrailingDot raw))

/-- The IPv4 ranges to which no request may go. -/
def deniedRanges : List InetAton.Cidr :=
  [⟨InetAton.bytes 0 0 0 0,8⟩,⟨InetAton.bytes 10 0 0 0,8⟩,⟨InetAton.bytes 100 64 0 0,10⟩,
    ⟨InetAton.bytes 127 0 0 0,8⟩,⟨InetAton.bytes 169 254 0 0,16⟩,⟨InetAton.bytes 172 16 0 0,12⟩,
    ⟨InetAton.bytes 192 0 2 0,24⟩,⟨InetAton.bytes 203 0 113 0,24⟩,⟨InetAton.bytes 192 168 0 0,16⟩,
    ⟨InetAton.bytes 198 18 0 0,15⟩,⟨InetAton.bytes 224 0 0 0,4⟩,⟨InetAton.bytes 240 0 0 0,4⟩]

def Denied (addr : ℕ) : Prop := ∃ net ∈ deniedRanges, net.Contains addr

instance (addr : ℕ) : Decidable (Denied addr) := inferInstanceAs (Decidable (∃ _ ∈ _, _))

/-- A spelling of a denied address with fewer than four numerals, or with a hexadecimal one. -/
def Evades (host : Text) : Prop :=
  ∃ addr, InetAton.inetAton host = some addr ∧ Denied addr ∧
    ((InetAton.split host).length < 4 ∨ ∃ l ∈ InetAton.split host, (InetAton.radix l).1 = .hex)

theorem stripTrailingDot_split (s : Text) : ∃ k, s = stripTrailingDot s ++ List.replicate k '.' := by
  induction s using stripTrailingDot.induct with
  | case1 s h ih =>
    obtain ⟨k,hk⟩ := ih
    rw [stripTrailingDot, dif_pos h]
    have hlast : s = s.take (s.length-1) ++ ['.'] := by
      have hdrop : s.drop (s.length-1) = ['.'] := of_decide_eq_true h
      rw [← hdrop, List.take_append_drop]
    refine ⟨k+1,?_⟩
    rw [List.replicate_succ', ← List.append_assoc, ← hk]
    exact hlast
  | case2 s h =>
    rw [stripTrailingDot, dif_neg h]
    exact ⟨0,by simp⟩

theorem beforeColon_prefix (s : Text) : beforeColon s <+: s := by
  induction s with
  | nil => exact List.prefix_rfl
  | cons a s ih =>
    rw [beforeColon]
    split
    · exact List.nil_prefix
    · exact (List.prefix_cons_inj a).mpr ih

theorem beforeDot_append {l : Text} (h : '.' ∉ l) (rest : Text) :
    beforeDot (l ++ '.' :: rest) = l ∧ afterDot (l ++ '.' :: rest) = rest := by
  induction l with
  | nil => simp [beforeDot, afterDot]
  | cons a l ih =>
    simp only [List.mem_cons, not_or] at h
    obtain ⟨hbefore,hafter⟩ := ih h.2
    simp [beforeDot, afterDot, Ne.symm h.1, hbefore, hafter]

theorem contains_digit {c : Char} (h : InetAton.digit c < 10) :
    contains c "0123456789" = true ∧ digitValue c = InetAton.digit c := by
  have hall : ∀ d < 10, contains (Char.ofNat (48+d)) "0123456789" = true ∧
      digitValue (Char.ofNat (48+d)) = d := by decide
  have hc := hall _ h
  rwa [InetAton.char_of_digit h] at hc

theorem decimalValueGo_eq {s : Text} (h : ∀ c ∈ s, InetAton.digit c < 10) (n : ℕ) :
    decimalValueGo (min 4294967296 n) s =
      min 4294967296 (s.foldl (fun n c => 10*n+InetAton.digit c) n : ℕ) := by
  induction s generalizing n with
  | nil =>
    rw [decimalValueGo, List.foldl_nil]
    push_cast
    rfl
  | cons a s ih =>
    rw [decimalValueGo, List.foldl_cons, ← ih (fun c hc => h c (List.mem_cons_of_mem _ hc)),
      (contains_digit (h a List.mem_cons_self)).2]
    congr 1
    push_cast
    omega

theorem decimalValue_plain {s : Text} {v : ℕ} (h : InetAton.Plain s v) (hv : v < 256) :
    decimalValue s = v := by
  have hdigits : s.all (fun c => contains c "0123456789") = true :=
    List.all_eq_true.mpr fun c hc => (contains_digit (h.digits c hc)).1
  have hgo := decimalValueGo_eq h.digits 0
  rw [h.value] at hgo
  rw [decimalValue, if_neg (by simp [h.nonempty, hdigits])]
  simp only [Nat.cast_zero] at hgo
  change decimalValueGo 0 s = _ at hgo
  omega

/-- Four numerals, none of them hexadecimal, and whatever dots follow. -/
theorem isDottedNumeric_of {l rest : Text} (hl : ∀ c ∈ l, InetAton.digit c < 10)
    (hrest : ∀ c ∈ rest, InetAton.digit c < 10 ∨ c = '.') :
    isDottedNumeric (l ++ '.' :: rest) = true := by
  have hdigit : ∀ c, InetAton.digit c < 10 → contains c "0123456789." = true := by
    intro c hc
    have := (contains_digit hc).1
    simp only [contains, List.contains_iff_mem] at this ⊢
    exact List.mem_append_left ['.'] this
  have hall : (l ++ '.' :: rest).all (fun c => contains c "0123456789.") = true := by
    simp only [List.all_append, List.all_cons, Bool.and_eq_true, List.all_eq_true]
    refine ⟨fun c hc => hdigit c (hl c hc),by decide,fun c hc => ?_⟩
    obtain hc | rfl := hrest c hc
    · exact hdigit c hc
    · decide
  simp [isDottedNumeric, hall]

theorem hasLeadingZeroOctet_step {l rest : Text} (hdot : '.' ∉ l) (hrest : rest ≠ [])
    (hnum : isDottedNumeric (l ++ '.' :: rest) = true)
    (h : hasLeadingZeroOctet (l ++ '.' :: rest) = false) :
    (l.length > 1 → l.head? ≠ some '0') ∧ hasLeadingZeroOctet rest = false := by
  obtain ⟨hbefore,hafter⟩ := beforeDot_append hdot rest
  rw [hasLeadingZeroOctet, if_pos hnum, hbefore, hafter] at h
  simp only [Bool.or_eq_false_iff, Bool.and_eq_false_iff, decide_eq_false_iff_not] at h
  refine ⟨fun hlen hhead => ?_,by simpa [hrest] using h.2⟩
  obtain ⟨a,l,rfl⟩ := List.exists_cons_of_ne_nil (List.ne_nil_of_length_pos (by omega : 0 < l.length))
  obtain rfl : a = '0' := by simpa using hhead
  exact h.1.elim (fun hshort => hshort hlen) fun htake => htake rfl

/-- Four numerals, none of them hexadecimal, and whatever dots follow: what the deny-list reads
of them. -/
theorem four_numerals {l₁ l₂ l₃ l₄ : Text} {v₁ v₂ v₃ v₄ k : ℕ}
    (h₁ : InetAton.numeral l₁ = some v₁) (h₂ : InetAton.numeral l₂ = some v₂)
    (h₃ : InetAton.numeral l₃ = some v₃) (h₄ : InetAton.numeral l₄ = some v₄)
    (hdot : ∀ l ∈ [l₁,l₂,l₃], '.' ∉ l)
    (hhex : ∀ l ∈ [l₁,l₂,l₃,l₄], (InetAton.radix l).1 ≠ .hex)
    (hz : hasLeadingZeroOctet
      (l₁ ++ '.' :: (l₂ ++ '.' :: (l₃ ++ '.' :: (l₄ ++ List.replicate k '.')))) = false) :
    InetAton.Plain l₁ v₁ ∧ InetAton.Plain l₂ v₂ ∧ InetAton.Plain l₃ v₃ ∧ isDottedNumeric
      (l₁ ++ '.' :: (l₂ ++ '.' :: (l₃ ++ '.' :: (l₄ ++ List.replicate k '.')))) = true := by
  obtain ⟨hdot₁,hdot₂,hdot₃⟩ : '.' ∉ l₁ ∧ '.' ∉ l₂ ∧ '.' ∉ l₃ := by simpa using hdot
  obtain ⟨hhex₁,hhex₂,hhex₃,hhex₄⟩ : (InetAton.radix l₁).1 ≠ .hex ∧ (InetAton.radix l₂).1 ≠ .hex ∧
    (InetAton.radix l₃).1 ≠ .hex ∧ (InetAton.radix l₄).1 ≠ .hex := by simpa using hhex
  obtain ⟨-,hd₁⟩ := InetAton.digits_of_numeral h₁ hhex₁
  obtain ⟨-,hd₂⟩ := InetAton.digits_of_numeral h₂ hhex₂
  obtain ⟨-,hd₃⟩ := InetAton.digits_of_numeral h₃ hhex₃
  obtain ⟨hne₄,hd₄⟩ := InetAton.digits_of_numeral h₄ hhex₄
  have hr₄ : ∀ c ∈ l₄ ++ List.replicate k '.', InetAton.digit c < 10 ∨ c = '.' := by
    intro c hc
    obtain hc | hc := List.mem_append.mp hc
    · exact .inl (hd₄ c hc)
    · exact .inr (List.eq_of_mem_replicate hc)
  have hr : ∀ {l r : Text}, (∀ c ∈ l, InetAton.digit c < 10) →
      (∀ c ∈ r, InetAton.digit c < 10 ∨ c = '.') →
      ∀ c ∈ l ++ '.' :: r, InetAton.digit c < 10 ∨ c = '.' := by
    intro l r hl hr c hc
    obtain hc | hc := List.mem_append.mp hc
    · exact .inl (hl c hc)
    · obtain rfl | hc := List.mem_cons.mp hc
      · exact .inr rfl
      · exact hr c hc
  have hnum₁ := isDottedNumeric_of hd₁ (hr hd₂ (hr hd₃ hr₄))
  obtain ⟨hf₁,hz₂⟩ := hasLeadingZeroOctet_step hdot₁ (by simp) hnum₁ hz
  obtain ⟨hf₂,hz₃⟩ := hasLeadingZeroOctet_step hdot₂ (by simp)
    (isDottedNumeric_of hd₂ (hr hd₃ hr₄)) hz₂
  obtain ⟨hf₃,-⟩ := hasLeadingZeroOctet_step hdot₃ (by simp [hne₄])
    (isDottedNumeric_of hd₃ hr₄) hz₃
  exact ⟨InetAton.plain_of_numeral h₁ hhex₁ hf₁,InetAton.plain_of_numeral h₂ hhex₂ hf₂,
    InetAton.plain_of_numeral h₃ hhex₃ hf₃,hnum₁⟩

theorem hasPrefix_append (pre : String) (rest : Text) :
    hasPrefix pre (pre.toList ++ rest) = true := by
  have hlen : pre.toList.length = pre.length := rfl
  rw [hasPrefix, ← hlen, List.take_left]
  exact decide_eq_true rfl

/-- What the deny-list lets through of plain numerals. -/
theorem octets_let_through {l₁ l₂ rest : Text} {v₁ v₂ : ℕ} (h₁ : InetAton.Plain l₁ v₁)
    (h₂ : InetAton.Plain l₂ v₂) (hv₁ : v₁ < 256) (hv₂ : v₂ < 256) (hd₁ : '.' ∉ l₁) (hd₂ : '.' ∉ l₂)
    (hnum : isDottedNumeric (l₁ ++ '.' :: (l₂ ++ '.' :: rest)) = true)
    (hoctet : isReservedOctetPrefix (l₁ ++ '.' :: (l₂ ++ '.' :: rest)) = false)
    (hipv4 : isReservedIPv4 (l₁ ++ '.' :: (l₂ ++ '.' :: rest)) = false) :
    v₁ ≠ 0 ∧ v₁ ≠ 10 ∧ v₁ ≠ 127 ∧ v₁ < 224 ∧ (v₁ = 100 → v₂ < 64 ∨ 127 < v₂) ∧
      (v₁ = 172 → v₂ < 16 ∨ 31 < v₂) ∧ (v₁ = 192 → v₂ ≠ 168) ∧ (v₁ = 169 → v₂ ≠ 254) ∧
      (v₁ = 198 → v₂ ≠ 18 ∧ v₂ ≠ 19) := by
  obtain ⟨hbefore,hafter⟩ := beforeDot_append hd₁ (l₂ ++ '.' :: rest)
  have hsecond := (beforeDot_append hd₂ rest).1
  simp only [isReservedOctetPrefix, isReservedIPv4, hbefore, hafter, hsecond, hnum,
    decimalValue_plain h₁ hv₁, decimalValue_plain h₂ hv₂, Bool.or_eq_false_iff, Bool.and_eq_false_iff,
    Bool.true_and, decide_eq_false_iff_not] at hoctet hipv4
  omega

/-- The denied ranges by the bytes of an address. -/
theorem denied_bytes {a b c d : ℕ} (ha : a < 256) (hb : b < 256) (hc : c < 256) (hd : d < 256)
    (h : Denied (InetAton.bytes a b c d)) :
    a = 0 ∨ a = 10 ∨ a = 127 ∨ 224 ≤ a ∨ (a = 100 ∧ 64 ≤ b ∧ b ≤ 127) ∨ (a = 169 ∧ b = 254) ∨
      (a = 172 ∧ 16 ≤ b ∧ b ≤ 31) ∨ (a = 192 ∧ b = 168) ∨ (a = 192 ∧ b = 0 ∧ c = 2) ∨
      (a = 203 ∧ b = 0 ∧ c = 113) ∨ (a = 198 ∧ (b = 18 ∨ b = 19)) := by
  obtain ⟨net,hnet,h⟩ := h
  have h4 : InetAton.bytes a b c d/268435456 = a/16 := by
    rw [InetAton.bytes]
    omega
  have h8 : InetAton.bytes a b c d/16777216 = a := by
    rw [InetAton.bytes]
    omega
  have h10 : InetAton.bytes a b c d/4194304 = 4*a+b/64 := by
    rw [InetAton.bytes]
    omega
  have h12 : InetAton.bytes a b c d/1048576 = 16*a+b/16 := by
    rw [InetAton.bytes]
    omega
  have h15 : InetAton.bytes a b c d/131072 = 128*a+b/2 := by
    rw [InetAton.bytes]
    omega
  have h16 : InetAton.bytes a b c d/65536 = 256*a+b := by
    rw [InetAton.bytes]
    omega
  have h24 : InetAton.bytes a b c d/256 = 65536*a+256*b+c := by
    rw [InetAton.bytes]
    omega
  generalize InetAton.bytes a b c d = addr at *
  simp only [deniedRanges, List.mem_cons, List.not_mem_nil, or_false] at hnet
  obtain rfl | rfl | rfl | rfl | rfl | rfl | rfl | rfl | rfl | rfl | rfl | rfl := hnet <;>
    simp only [InetAton.Cidr.Contains, InetAton.bytes, Nat.reduceSub, Nat.reducePow, Nat.reduceMul,
      Nat.reduceAdd, Nat.reduceDiv, h4, h8, h10, h12, h15, h16, h24] at h
  · exact .inl h
  · exact .inr (.inl h)
  · exact .inr (.inr (.inr (.inr (.inl (by omega)))))
  · exact .inr (.inr (.inl h))
  · exact .inr (.inr (.inr (.inr (.inr (.inl (by omega))))))
  · exact .inr (.inr (.inr (.inr (.inr (.inr (.inl (by omega)))))))
  · exact .inr (.inr (.inr (.inr (.inr (.inr (.inr (.inr (.inl (by omega)))))))))
  · exact .inr (.inr (.inr (.inr (.inr (.inr (.inr (.inr (.inr (.inl (by omega))))))))))
  · exact .inr (.inr (.inr (.inr (.inr (.inr (.inr (.inl (by omega))))))))
  · exact .inr (.inr (.inr (.inr (.inr (.inr (.inr (.inr (.inr (.inr (by omega))))))))))
  · exact .inr (.inr (.inr (.inl (by omega))))
  · exact .inr (.inr (.inr (.inl (by omega))))

/-- An address in four numerals. -/
theorem address_four {ls : List Text} {addr : ℕ} (hlen : 4 ≤ ls.length)
    (h : (do InetAton.address (← ls.mapM InetAton.numeral)) = some addr) :
    ∃ l₁ l₂ l₃ l₄ v₁ v₂ v₃ v₄, ls = [l₁,l₂,l₃,l₄] ∧ InetAton.numeral l₁ = some v₁ ∧
      InetAton.numeral l₂ = some v₂ ∧ InetAton.numeral l₃ = some v₃ ∧
      InetAton.numeral l₄ = some v₄ ∧ v₁ < 256 ∧ v₂ < 256 ∧ v₃ < 256 ∧ v₄ < 256 ∧
      addr = InetAton.bytes v₁ v₂ v₃ v₄ := by
  match ls with
  | l₁ :: l₂ :: l₃ :: l₄ :: rest =>
    simp only [List.mapM_cons, Option.bind_eq_bind, Option.bind_eq_some_iff, Option.pure_def,
      Option.some.injEq] at h
    obtain ⟨_,⟨v₁,h₁,_,⟨v₂,h₂,_,⟨v₃,h₃,_,⟨v₄,h₄,vs,hvs,rfl⟩,rfl⟩,rfl⟩,rfl⟩,haddr⟩ := h
    cases vs with
    | cons => simp [InetAton.address] at haddr
    | nil =>
      have hrest : rest = [] := by
        cases rest with
        | nil => rfl
        | cons l rest => simp [List.mapM_cons, Option.bind_eq_some_iff] at hvs
      subst hrest
      simp only [InetAton.address, Option.ite_none_right_eq_some, Option.some.injEq] at haddr
      obtain ⟨⟨hv₁,hv₂,hv₃,hv₄⟩,rfl⟩ := haddr
      exact ⟨l₁,l₂,l₃,l₄,v₁,v₂,v₃,v₄,rfl,h₁,h₂,h₃,h₄,hv₁,hv₂,hv₃,hv₄,rfl⟩
  | [] | [_] | [_,_] | [_,_,_] => simp at hlen

/-- The networks for documentation are denied by the text that they start with. -/
theorem test_nets_let_through {l₁ l₂ l₃ rest port sn : Text} {v₁ v₂ v₃ : ℕ}
    (h₁ : InetAton.Plain l₁ v₁) (h₂ : InetAton.Plain l₂ v₂) (h₃ : InetAton.Plain l₃ v₃)
    (hsn : l₁ ++ '.' :: (l₂ ++ '.' :: (l₃ ++ '.' :: rest)) ++ port = sn)
    (h : [".",":","192.0.2.","198.51.100.","203.0.113."].any (fun p => hasPrefix p sn) = false) :
    ¬ (v₁ = 192 ∧ v₂ = 0 ∧ v₃ = 2) ∧ ¬ (v₁ = 203 ∧ v₂ = 0 ∧ v₃ = 113) := by
  simp only [List.any_cons, List.any_nil, Bool.or_false, Bool.or_eq_false_iff] at h
  obtain ⟨-,-,htest₁,-,htest₃⟩ := h
  subst hsn
  -- The digits are tested as a Boolean: no instance may run through all characters.
  have hplain : ∀ {s : Text} {v : ℕ}, (s ≠ [] ∧ s.all (fun c => InetAton.digit c < 10) = true ∧
      (s.length > 1 → s.head? ≠ some '0') ∧ s.foldl (fun n c => 10*n+InetAton.digit c) 0 = v) →
      InetAton.Plain s v :=
    fun h => ⟨h.1,fun c hc => of_decide_eq_true (List.all_eq_true.mp h.2.1 c hc),h.2.2.1,h.2.2.2⟩
  constructor
  · rintro ⟨rfl,rfl,rfl⟩
    obtain rfl := h₁.unique (hplain (s := "192".toList) (by decide))
    obtain rfl := h₂.unique (hplain (s := "0".toList) (by decide))
    obtain rfl := h₃.unique (hplain (s := "2".toList) (by decide))
    exact Bool.false_ne_true (htest₁.symm.trans (hasPrefix_append "192.0.2." (rest ++ port)))
  · rintro ⟨rfl,rfl,rfl⟩
    obtain rfl := h₁.unique (hplain (s := "203".toList) (by decide))
    obtain rfl := h₂.unique (hplain (s := "0".toList) (by decide))
    obtain rfl := h₃.unique (hplain (s := "113".toList) (by decide))
    exact Bool.false_ne_true (htest₃.symm.trans (hasPrefix_append "203.0.113." (rest ++ port)))

/-- Four numerals that are not hexadecimal spell no denied address if the name passes. -/
theorem evades_of_denied {s : Text} {addr : ℕ} (h : isBadServerName s = false)
    (haddr : InetAton.inetAton (hostOf s) = some addr) (hdenied : Denied addr) :
    (InetAton.split (hostOf s)).length < 4 ∨
      ∃ l ∈ InetAton.split (hostOf s), (InetAton.radix l).1 = .hex := by
  by_contra hplain
  simp only [not_or, not_lt, not_exists, not_and] at hplain
  obtain ⟨hlen,hhex⟩ := hplain
  obtain ⟨k,hk⟩ := stripTrailingDot_split (beforeColon (stripTrailingDot s))
  change beforeColon (stripTrailingDot s) = hostOf s ++ _ at hk
  obtain ⟨port,hport⟩ := beforeColon_prefix (stripTrailingDot s)
  simp only [isBadServerName, Bool.or_eq_false_iff] at h
  obtain ⟨⟨⟨⟨⟨⟨⟨⟨-,hoctet⟩,hipv4⟩,hzero⟩,-⟩,-⟩,-⟩,hnets⟩,-⟩ := h
  generalize hostOf s = host at *
  obtain ⟨l₁,l₂,l₃,l₄,v₁,v₂,v₃,v₄,hsplit,h₁,h₂,h₃,h₄,hv₁,hv₂,hv₃,hv₄,rfl⟩ :=
    address_four hlen haddr
  rw [hsplit] at hhex
  obtain ⟨hd₁,⟨⟨⟩,-⟩ | ⟨_,rfl,hsplit₁⟩⟩ := InetAton.split_eq_cons hsplit
  obtain ⟨hd₂,⟨⟨⟩,-⟩ | ⟨_,rfl,hsplit₂⟩⟩ := InetAton.split_eq_cons hsplit₁
  obtain ⟨hd₃,⟨⟨⟩,-⟩ | ⟨_,rfl,hsplit₃⟩⟩ := InetAton.split_eq_cons hsplit₂
  obtain ⟨-,⟨-,rfl⟩ | ⟨_,-,hsplit₄⟩⟩ := InetAton.split_eq_cons hsplit₃
  · rw [List.append_assoc, List.cons_append, List.append_assoc, List.cons_append,
      List.append_assoc, List.cons_append] at hk
    rw [hk] at hoctet hipv4 hzero
    obtain ⟨hp₁,hp₂,hp₃,hnum⟩ := four_numerals h₁ h₂ h₃ h₄ (by simp [hd₁, hd₂, hd₃]) hhex hzero
    have hthrough := octets_let_through hp₁ hp₂ hv₁ hv₂ hd₁ hd₂ hnum hoctet hipv4
    rw [hk] at hport
    have htest := test_nets_let_through hp₁ hp₂ hp₃ hport hnets
    obtain ⟨t0,t10,t127,t224,t100,t172,t192,t169,t198⟩ := hthrough
    obtain d | d | d | d | ⟨d,d'⟩ | ⟨d,d'⟩ | ⟨d,d'⟩ | ⟨d,d'⟩ | d | d | ⟨d,d'⟩ :=
      denied_bytes hv₁ hv₂ hv₃ hv₄ hdenied
    · exact t0 d
    · exact t10 d
    · exact t127 d
    · omega
    · have := t100 d
      omega
    · exact t169 d d'
    · have := t172 d
      omega
    · exact t192 d d'
    · exact htest.1 d
    · exact htest.2 d
    · have := t198 d
      omega
  · exact InetAton.split_ne_nil _ hsplit₄

/-- A name that passes leads to a denied address in exactly two spellings: in fewer than four
numerals, or with a hexadecimal one. -/
theorem denied_spellings_let_through {s : Text} (h : isBadServerName s = false) :
    (∀ addr, InetAton.inetAton (hostOf s) = some addr → ¬ Denied addr) ↔ ¬ Evades (hostOf s) := by
  constructor
  · rintro hsafe ⟨addr,haddr,hdenied,-⟩
    exact hsafe addr haddr hdenied
  · intro hplain addr haddr hdenied
    exact hplain ⟨addr,haddr,hdenied,evades_of_denied h haddr hdenied⟩

theorem denied_spellings_let_through_port :
    (∀ addr, InetAton.inetAton (hostOf "203.0.112.7:443".toList) = some addr → ¬ Denied addr) ↔
      ¬ Evades (hostOf "203.0.112.7:443".toList) :=
  denied_spellings_let_through (by decide +kernel)

/-- The deny-list sees a hexadecimal numeral in front only, and no address in two numerals. -/
theorem metadata_service_let_through :
    isBadServerName "169.0xfe.169.254".toList = false ∧
      InetAton.inetAton (hostOf "169.0xfe.169.254".toList) = some (InetAton.bytes 169 254 169 254) ∧
      isBadServerName "169.16689662:80".toList = false ∧
      InetAton.inetAton (hostOf "169.16689662:80".toList) = some (InetAton.bytes 169 254 169 254) ∧
      Denied (InetAton.bytes 169 254 169 254) := by
  decide +kernel

theorem split_of_dot {s : Text} (h : '.' ∈ s) :
    InetAton.split s = beforeDot s :: InetAton.split (afterDot s) := by
  induction s with
  | nil => simp at h
  | cons a s ih =>
    by_cases ha : a = '.'
    · simp [InetAton.split, beforeDot, afterDot, ha]
    · have hs : '.' ∈ s := (List.mem_cons.mp h).resolve_left fun h => ha h.symm
      simp [InetAton.split, beforeDot, afterDot, ha, ih hs]

theorem split_of_no_dot {s : Text} (h : '.' ∉ s) : InetAton.split s = [s] := by
  induction s with
  | nil => rfl
  | cons a s ih =>
    obtain ⟨ha,hs⟩ : '.' ≠ a ∧ '.' ∉ s := by simpa using h
    simp [InetAton.split, Ne.symm ha, ih hs]

/-- A label that some resolvers would read as octal. -/
def redundantZero (label : Text) : Bool := label.length > 1 && label.take 1 = ['0']

theorem afterDot_suffix (s : Text) : afterDot s <:+ s := by
  induction s with
  | nil => exact List.suffix_rfl
  | cons a s ih =>
    rw [afterDot]
    split
    · exact List.suffix_cons a s
    · exact ih.trans (List.suffix_cons a s)

theorem isDottedNumeric_iff {host : Text} : isDottedNumeric host = true ↔
    '.' ∈ host ∧ ∀ c ∈ host, contains c "0123456789." = true := by
  simp only [isDottedNumeric, Bool.and_eq_true, decide_eq_true_eq, List.contains_iff_mem, List.all_eq_true]
  exact ⟨fun h => ⟨h.1.2,h.2⟩,fun h => ⟨⟨List.ne_nil_of_mem h.1,h.1⟩,h.2⟩⟩

/-- The labels that are looked at are all but the last. -/
theorem hasLeadingZeroOctet_eq {host : Text} (h : isDottedNumeric host = true) :
    hasLeadingZeroOctet host = (InetAton.split host).dropLast.any redundantZero := by
  induction host using hasLeadingZeroOctet.induct with
  | case1 host hnum rest ih =>
    obtain ⟨hdot,hchars⟩ := isDottedNumeric_iff.mp h
    rw [hasLeadingZeroOctet, if_pos h, split_of_dot hdot,
      List.dropLast_cons_of_ne_nil (InetAton.split_ne_nil _), List.any_cons]
    change (redundantZero (beforeDot host) || (decide (rest ≠ []) && hasLeadingZeroOctet rest)) = _
    congr 1
    by_cases hrest : '.' ∈ rest
    · have hnum : isDottedNumeric rest = true :=
        isDottedNumeric_iff.mpr ⟨hrest,fun c hc => hchars c ((afterDot_suffix host).subset hc)⟩
      rw [ih hnum, decide_eq_true (List.ne_nil_of_mem hrest), Bool.true_and]
    · have hlast : hasLeadingZeroOctet rest = false := by
        rw [hasLeadingZeroOctet, if_neg fun h => hrest (isDottedNumeric_iff.mp h).1]
      rw [hlast, Bool.and_false, split_of_no_dot hrest]
      rfl
  | case2 host hnum => exact absurd h hnum

/-- For a host of digits and dots: a label that some resolvers would read as octal is found exactly
if the last label is not one, or another is. -/
theorem octal_labels_caught {host : Text} (hchars : ∀ c ∈ host, contains c "0123456789." = true)
    (hdot : '.' ∈ host) :
    (hasLeadingZeroOctet host = true ↔ ∃ label ∈ InetAton.split host, label.length > 1 ∧ label.take 1 = ['0']) ↔
      (redundantZero ((InetAton.split host).getLast (InetAton.split_ne_nil host)) = true →
        ∃ label ∈ (InetAton.split host).dropLast, redundantZero label = true) := by
  have hsplit := List.dropLast_append_getLast (InetAton.split_ne_nil host)
  have hlabels : (∃ label ∈ InetAton.split host, label.length > 1 ∧ label.take 1 = ['0']) ↔
      (InetAton.split host).any redundantZero = true := by
    simp [List.any_eq_true, redundantZero]
  have hany : (InetAton.split host).any redundantZero = ((InetAton.split host).dropLast.any redundantZero ||
      redundantZero ((InetAton.split host).getLast (InetAton.split_ne_nil host))) := by
    conv_lhs => rw [← hsplit]
    rw [List.any_append, List.any_cons, List.any_nil, Bool.or_false]
  rw [hlabels, hasLeadingZeroOctet_eq (isDottedNumeric_iff.mpr ⟨hdot,hchars⟩), hany, ← List.any_eq_true,
    Bool.or_eq_true]
  tauto

theorem octal_labels_caught_middle :
    hasLeadingZeroOctet "1.08.3".toList = true ↔
      ∃ label ∈ InetAton.split "1.08.3".toList, label.length > 1 ∧ label.take 1 = ['0'] :=
  (octal_labels_caught (List.all_eq_true.mp (by decide)) (by decide)).mpr (by decide)

/-- The last label is not looked at. -/
theorem octal_label_missed : (∀ c ∈ "10.0.0.010".toList, contains c "0123456789." = true) ∧
    '.' ∈ "10.0.0.010".toList ∧ hasLeadingZeroOctet "10.0.0.010".toList = false ∧
    ∃ label ∈ InetAton.split "10.0.0.010".toList, label.length > 1 ∧ label.take 1 = ['0'] :=
  ⟨List.all_eq_true.mp (by decide),by decide,by decide +kernel,by decide⟩

end Skrepka.Relay
