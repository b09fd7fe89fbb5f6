import Skrepka.Lib.Rust

/-! Hexadecimal text of byte strings: lowercase on the way out, either case on the way in. -/
namespace Hex
open Rust

def digit (n : ℕ) : Char := if n < 10 then Char.ofNat (48+n) else Char.ofNat (87+n)

def encodeByte (b : UInt8) : List Char := [digit (b.toNat/16),digit (b.toNat%16)]

/-- `hex::encode`. -/
def encode (bs : Bytes) : String := String.ofList (bs.flatMap encodeByte)

def value (c : Char) : Option ℕ :=
  if '0' ≤ c ∧ c ≤ '9' then some (c.toNat-48)
  else if 'a' ≤ c ∧ c ≤ 'f' then some (c.toNat-87)
  else if 'A' ≤ c ∧ c ≤ 'F' then some (c.toNat-55)
  else none

def decodeChars : List Char → Option Bytes
  | [] => some []
  | [_] => none
  | h :: l :: cs => do
    let hi ← value h
    let lo ← value l
    let bs ← decodeChars cs
    return UInt8.ofNat (16*hi+lo) :: bs

/-- `hex::decode`: an even number of hex digits of either case. -/
def decode (s : String) : Option Bytes := decodeChars s.toList

example : decode "0aFf" = some [10,255] := by decide

theorem value_digit {n : ℕ} (h : n < 16) : value (digit n) = some n := by
  have hall : ∀ k : Fin 16, value (digit k) = some k.val := by decide
  exact hall ⟨n,h⟩

theorem ofNat_halves (b : UInt8) : UInt8.ofNat (16*(b.toNat/16)+b.toNat%16) = b := by
  rw [Nat.div_add_mod, UInt8.ofNat_toNat]

theorem decodeChars_encode (bs : Bytes) : decodeChars (bs.flatMap encodeByte) = some bs := by
  induction bs with
  | nil => rfl
  | cons b bs ih =>
    have hhi : value (digit (b.toNat/16)) = some (b.toNat/16) :=
      value_digit (Nat.div_lt_of_lt_mul b.toNat_lt)
    have hlo : value (digit (b.toNat%16)) = some (b.toNat%16) :=
      value_digit (Nat.mod_lt _ (by decide))
    simp only [List.flatMap_cons, encodeByte, List.cons_append, List.nil_append, decodeChars, hhi,
      hlo, ih, Option.bind_eq_bind, Option.bind_some, ofNat_halves, Option.pure_def]

theorem decode_encode (bs : Bytes) : decode (encode bs) = some bs := by
  simpa [decode, encode] using decodeChars_encode bs

theorem encode_injective : Function.Injective encode := by
  intro as bs h
  have ha := decode_encode as
  rw [h, decode_encode] at ha
  exact (Option.some.inj ha).symm

/-- The digits are ASCII. -/
theorem utf8Size_of_value {c : Char} {n : ℕ} (h : value c = some n) : c.utf8Size = 1 := by
  have hle : ∀ d : Char, d.val ≤ 127 → c ≤ d → c.utf8Size = 1 := fun d hd hc =>
    Char.utf8Size_eq_one_iff.mpr (UInt32.le_trans hc hd)
  unfold value at h
  split at h
  · rename_i hc
    exact hle '9' (by decide) hc.2
  split at h
  · rename_i hc
    exact hle 'f' (by decide) hc.2
  split at h
  · rename_i hc
    exact hle 'F' (by decide) hc.2
  · simp at h

theorem len_of_decodeChars {cs : List Char} {bs : Bytes} (h : decodeChars cs = some bs) :
    len (String.ofList cs) = 2*bs.length := by
  induction cs using decodeChars.induct generalizing bs with
  | case1 => simp [decodeChars] at h; simp [h]
  | case2 => simp [decodeChars] at h
  | case3 hi lo cs ih =>
    simp only [decodeChars, Option.bind_eq_bind, Option.bind_eq_some_iff, Option.pure_def,
      Option.some.injEq] at h
    obtain ⟨m,hm,n,hn,tail,ht,rfl⟩ := h
    simp only [len, String.ofList_cons, String.utf8ByteSize_append, String.utf8ByteSize_singleton,
      utf8Size_of_value hm, utf8Size_of_value hn, List.length_cons]
    have := ih ht
    simp only [len] at this
    omega

/-- Two characters, of one byte each, for a byte. -/
theorem len_of_decode {s : String} {bs : Bytes} (h : decode s = some bs) :
    len s = 2*bs.length := by
  simpa using len_of_decodeChars h

theorem toList_encode (bs : Bytes) : (encode bs).toList = bs.flatMap encodeByte := by
  simp [encode]

theorem length_encode (bs : Bytes) : (encode bs).toList.length = 2*bs.length := by
  rw [toList_encode]
  induction bs with
  | nil => rfl
  | cons b bs ih =>
    simp only [List.flatMap_cons, List.length_append, List.length_cons, ih, encodeByte, List.length_nil]
    omega

/-- What is printed is made of lowercase digits. -/
theorem mem_encode {bs : Bytes} {c : Char} (h : c ∈ (encode bs).toList) : ∃ n < 16, c = digit n := by
  rw [toList_encode] at h
  obtain ⟨b,-,hc⟩ := List.mem_flatMap.mp h
  simp only [encodeByte, List.mem_cons, List.not_mem_nil, or_false] at hc
  have hb := b.toNat_lt
  obtain rfl | rfl := hc
  · exact ⟨_,by omega,rfl⟩
  · exact ⟨_,by omega,rfl⟩

end Hex
