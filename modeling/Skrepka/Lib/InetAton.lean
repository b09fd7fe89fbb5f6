import Mathlib.Data.List.Basic
import Mathlib.Data.Nat.Digits.Defs

/-! The dotted spellings of IPv4 addresses that `inet_aton` reads: one to four numerals, each
decimal, octal or hexadecimal, of which the last fills all remaining bytes. -/
namespace InetAton

inductive Radix
  | decimal
  | octal
  | hex
  deriving DecidableEq

def Radix.base : Radix → ℕ
  | decimal => 10
  | octal => 8
  | hex => 16

def digit (c : Char) : ℕ :=
  if '0' ≤ c ∧ c ≤ '9' then c.toNat-48
  else if 'a' ≤ c ∧ c ≤ 'f' then c.toNat-87
  else if 'A' ≤ c ∧ c ≤ 'F' then c.toNat-55
  else 16

/-- The value of a nonempty string of digits. -/
def number (radix : Radix) (cs : List Char) : Option ℕ :=
  if cs ≠ [] ∧ cs.all (fun c => digit c < radix.base) then
    some (cs.foldl (fun n c => radix.base*n+digit c) 0)
  else none

/-- The radix of a numeral, and its digits. -/
def radix : List Char → Radix × List Char
  | '0' :: 'x' :: cs => (.hex,cs)
  | '0' :: 'X' :: cs => (.hex,cs)
  | '0' :: cs => (.octal,'0' :: cs)
  | cs => (.decimal,cs)

def numeral (cs : List Char) : Option ℕ := number (radix cs).1 (radix cs).2

/-- The pieces between the dots. -/
def split : List Char → List (List Char)
  | [] => [[]]
  | c :: cs =>
    if c = '.' then [] :: split cs else (c :: (split cs).headD []) :: (split cs).tail

/-- The address that some numerals stand for. -/
def address : List ℕ → Option ℕ
  | [a] => if a < 4294967296 then some a else none
  | [a,b] => if a < 256 ∧ b < 16777216 then some (16777216*a+b) else none
  | [a,b,c] => if a < 256 ∧ b < 256 ∧ c < 65536 then some (16777216*a+65536*b+c) else none
  | [a,b,c,d] => if a < 256 ∧ b < 256 ∧ c < 256 ∧ d < 256 then
      some (16777216*a+65536*b+256*c+d) else none
  | _ => none

def inetAton (host : List Char) : Option ℕ := do address (← (split host).mapM numeral)

example : inetAton "0x7f.1".toList = some 2130706433 := by decide

/-- The addresses that share the leading bits of some address. -/
structure Cidr where
  base : ℕ
  bits : ℕ

def Cidr.Contains (net : Cidr) (addr : ℕ) : Prop :=
  addr/2^(32-net.bits) = net.base/2^(32-net.bits)

instance (net : Cidr) (addr : ℕ) : Decidable (net.Contains addr) :=
  inferInstanceAs (Decidable (_ = _))

/-- The address with some four bytes. -/
def bytes (a b c d : ℕ) : ℕ := 16777216*a+65536*b+256*c+d

theorem split_ne_nil (cs : List Char) : split cs ≠ [] := by
  cases cs with
  | nil => simp [split]
  | cons c cs =>
    rw [split]
    split <;> simp

/-- The first piece, and the others. -/
theorem split_eq_cons {cs l : List Char} {ls : List (List Char)} (h : split cs = l :: ls) :
    '.' ∉ l ∧ (ls = [] ∧ cs = l ∨ ∃ rest, cs = l ++ '.' :: rest ∧ split rest = ls) := by
  induction cs generalizing l ls with
  | nil =>
    obtain ⟨rfl,rfl⟩ := List.cons.inj h
    exact ⟨by simp,.inl ⟨rfl,rfl⟩⟩
  | cons c cs ih =>
    rw [split] at h
    split at h
    · rename_i hc
      obtain ⟨rfl,rfl⟩ := List.cons.inj h
      exact ⟨by simp,.inr ⟨cs,by simp [hc],rfl⟩⟩
    · rename_i hc
      obtain ⟨rfl,rfl⟩ := List.cons.inj h
      cases hs : split cs with
      | nil => exact absurd hs (split_ne_nil cs)
      | cons l ls =>
        obtain ⟨hdot,hrest⟩ := ih hs
        refine ⟨by simpa [Ne.symm hc] using hdot,?_⟩
        obtain ⟨rfl,rfl⟩ | ⟨rest,rfl,hrest⟩ := hrest
        · exact .inl ⟨rfl,rfl⟩
        · exact .inr ⟨rest,by simp,by simpa using hrest⟩

/-- What is no hexadecimal numeral has decimal digits only. -/
theorem digits_of_numeral {cs : List Char} {v : ℕ} (h : numeral cs = some v)
    (hr : (radix cs).1 ≠ .hex) : cs ≠ [] ∧ ∀ c ∈ cs, digit c < 10 := by
  have hcs : (radix cs).2 = cs ∧ (radix cs).1.base ≤ 10 := by
    unfold radix at hr ⊢
    split at hr <;> simp_all [Radix.base]
  rw [numeral, number, Option.ite_none_right_eq_some, hcs.1] at h
  refine ⟨h.1.1,fun c hc => ?_⟩
  have := List.all_eq_true.mp h.1.2 c hc
  simp only [decide_eq_true_eq] at this
  omega

/-- A decimal numeral without a redundant zero in front. -/
structure Plain (cs : List Char) (v : ℕ) : Prop where
  nonempty : cs ≠ []
  digits : ∀ c ∈ cs, digit c < 10
  front : cs.length > 1 → cs.head? ≠ some '0'
  value : cs.foldl (fun n c => 10*n+digit c) 0 = v

theorem plain_of_numeral {cs : List Char} {v : ℕ} (h : numeral cs = some v)
    (hr : (radix cs).1 ≠ .hex) (hfront : cs.length > 1 → cs.head? ≠ some '0') : Plain cs v := by
  obtain ⟨hne,hdigits⟩ := digits_of_numeral h hr
  refine ⟨hne,hdigits,hfront,?_⟩
  rw [numeral, number, Option.ite_none_right_eq_some, Option.some.injEq] at h
  obtain ⟨-,rfl⟩ := h
  unfold radix at hr ⊢
  split
  · simp at hr
  · simp at hr
  · rename_i ds _ _
    cases ds with
    | nil => rfl
    | cons d ds => simp at hfront
  · rfl

theorem char_of_digit {c : Char} (h : digit c < 10) : Char.ofNat (48+digit c) = c := by
  have h0 : 'a'.toNat = 97 := rfl
  have hA : 'A'.toNat = 65 := rfl
  have h9 : '0'.toNat = 48 := rfl
  unfold digit at h ⊢
  simp only [Char.le_def, UInt32.le_iff_toNat_le, Char.toNat_val] at h ⊢
  split_ifs at h ⊢ with hc
  · rw [Nat.add_sub_cancel' (by omega), Char.ofNat_toNat]
  all_goals omega

theorem Plain.digits_eq {cs : List Char} {v : ℕ} (h : Plain cs v) (hzero : cs ≠ ['0']) :
    (cs.map digit).reverse = Nat.digits 10 v := by
  have hvalue : Nat.ofDigits 10 (cs.map digit).reverse = v := by
    rw [Nat.ofDigits_eq_foldr, List.foldr_reverse, List.foldl_map, ← h.value]
    simp only [Nat.cast_id, Nat.add_comm]
  rw [← hvalue]
  refine (Nat.digits_ofDigits 10 (by omega) _ ?_ ?_).symm
  · intro d hd
    obtain ⟨c,hc,rfl⟩ := List.mem_map.mp (List.mem_reverse.mp hd)
    exact h.digits c hc
  · intro hne hlast
    obtain ⟨c,cs,rfl⟩ := List.exists_cons_of_ne_nil h.nonempty
    have hc : '0' = c := by
      have := char_of_digit (h.digits c List.mem_cons_self)
      rwa [show digit c = 0 by simpa using hlast] at this
    subst hc
    have hcs : cs ≠ [] := fun hnil => hzero (by rw [hnil])
    exact h.front (by simpa [List.length_pos_iff] using hcs) rfl

/-- A number has one plain numeral. -/
theorem Plain.unique {cs ds : List Char} {v : ℕ} (h : Plain cs v) (h' : Plain ds v) : cs = ds := by
  have hread : ∀ {cs : List Char}, Plain cs v →
      cs = (cs.map digit).map fun d => Char.ofNat (48+d) := by
    intro cs h
    rw [List.map_map]
    exact (List.map_id cs).symm.trans
      (List.map_congr_left fun c hc => (char_of_digit (h.digits c hc)).symm)
  have hzero : ∀ {cs : List Char}, Plain cs v → ∀ ds, Plain ds v → cs = ['0'] → ds = ['0'] := by
    rintro cs h ds h' rfl
    by_contra hds
    have hdigits := h'.digits_eq hds
    obtain rfl : 0 = v := h.value
    exact h'.nonempty (by simpa using hdigits)
  by_cases hcs : cs = ['0']
  · rw [hcs, hzero h ds h' hcs]
  · have hds : ds ≠ ['0'] := fun hds => hcs (hzero h' cs h hds)
    rw [hread h, hread h', List.reverse_injective ((h.digits_eq hcs).trans (h'.digits_eq hds).symm)]

end InetAton
