import Skrepka.Lib.Hex

/-! Percent-encoding of texts: of their UTF-8, letters and digits stand for themselves, and any other
byte is written as a percent sign and two digits. -/
namespace Percent
open Rust

def upperDigit (n : ℕ) : Char := if n < 10 then Char.ofNat (48+n) else Char.ofNat (55+n)

/-- The letters and digits of ASCII. -/
def isAlphanumeric (b : UInt8) : Bool :=
  (48 ≤ b && b ≤ 57) || (65 ≤ b && b ≤ 90) || (97 ≤ b && b ≤ 122)

def encodeByte (b : UInt8) : List Char :=
  if isAlphanumeric b then [Char.ofNat b.toNat] else ['%',upperDigit (b.toNat/16),upperDigit (b.toNat%16)]

def encode (s : String) : String := String.ofList ((asBytes s).flatMap encodeByte)

/-- The bytes that an encoded text stands for. -/
def decodeChars : List Char → Option Bytes
  | [] => some []
  | c :: cs =>
    if c = '%' then
      match cs with
      | h :: l :: cs => do
        let hi ← Hex.value h
        let lo ← Hex.value l
        let bs ← decodeChars cs
        return UInt8.ofNat (16*hi+lo) :: bs
      | _ => none
    else (decodeChars cs).map (UInt8.ofNat c.toNat :: ·)

example : encode "messages:ab_1" = "messages%3Aab%5F1" := by decide

theorem value_upperDigit {n : ℕ} (h : n < 16) : Hex.value (upperDigit n) = some n := by
  have hall : ∀ k : Fin 16, Hex.value (upperDigit k) = some k.val := by decide
  exact hall ⟨n,h⟩

theorem high_lt (b : UInt8) : b.toNat/16 < 16 := by
  have hlt := b.toNat_lt
  omega

/-- A byte that stands for itself is neither a percent sign nor an underscore. -/
theorem isAlphanumeric_toNat {b : UInt8} (h : isAlphanumeric b = true) :
    b.toNat ≤ 122 ∧ b.toNat ≠ 37 ∧ b.toNat ≠ 95 := by
  simp only [isAlphanumeric, Bool.or_eq_true, Bool.and_eq_true, decide_eq_true_eq, UInt8.le_iff_toNat_le] at h
  have hbounds : (48 : UInt8).toNat = 48 ∧ (57 : UInt8).toNat = 57 ∧ (65 : UInt8).toNat = 65 ∧
      (90 : UInt8).toNat = 90 ∧ (97 : UInt8).toNat = 97 ∧ (122 : UInt8).toNat = 122 := by decide
  omega

theorem toNat_ofNat_small {n : ℕ} (h : n ≤ 122) : (Char.ofNat n).toNat = n := by
  have hvalid : n.isValidChar := .inl (by omega)
  rw [Char.ofNat, dif_pos hvalid]
  rfl

theorem decodeChars_plain {c : Char} (hne : c ≠ '%') (cs : List Char) :
    decodeChars (c :: cs) = (decodeChars cs).map (UInt8.ofNat c.toNat :: ·) := by
  cases cs with
  | nil => simp [decodeChars, hne]
  | cons h cs => cases cs <;> simp [decodeChars, hne]

theorem decodeChars_encode (bs : Bytes) : decodeChars (bs.flatMap encodeByte) = some bs := by
  induction bs with
  | nil => simp [decodeChars]
  | cons b bs ih =>
    rw [List.flatMap_cons, encodeByte]
    split
    · rename_i halnum
      obtain ⟨hsmall,hpercent,-⟩ := isAlphanumeric_toNat halnum
      have hne : Char.ofNat b.toNat ≠ '%' := by
        intro heq
        have hval := congrArg Char.toNat heq
        rw [toNat_ofNat_small hsmall] at hval
        exact hpercent hval
      rw [List.singleton_append, decodeChars_plain hne, ih, toNat_ofNat_small hsmall, Option.map_some,
        UInt8.ofNat_toNat]
    · have hhi := value_upperDigit (high_lt b)
      have hlo := value_upperDigit (Nat.mod_lt b.toNat (show 0 < 16 by decide))
      simp only [List.cons_append, List.nil_append, decodeChars, if_true, hhi, hlo, ih, Option.bind_eq_bind,
        Option.bind_some, Hex.ofNat_halves, Option.pure_def]

theorem encode_injective : Function.Injective encode := by
  intro s t h
  have hs := decodeChars_encode (asBytes s)
  rw [String.ofList_injective h, decodeChars_encode] at hs
  exact (asBytes_injective (Option.some.inj hs)).symm

theorem underscore_not_mem (s : String) : '_' ∉ (encode s).toList := by
  intro hin
  rw [encode, String.toList_ofList] at hin
  obtain ⟨b,-,hin⟩ := List.mem_flatMap.mp hin
  rw [encodeByte] at hin
  split at hin
  · rename_i halnum
    obtain ⟨hsmall,-,hunderscore⟩ := isAlphanumeric_toNat halnum
    have hval := congrArg Char.toNat (List.mem_singleton.mp hin)
    rw [toNat_ofNat_small hsmall] at hval
    exact hunderscore hval.symm
  · have hdigit : ∀ k : Fin 16, upperDigit k ≠ '_' := by decide
    have hhi := hdigit ⟨b.toNat/16,high_lt b⟩
    have hlo := hdigit ⟨b.toNat%16,Nat.mod_lt _ (by decide)⟩
    simp only [List.mem_cons, List.not_mem_nil, or_false] at hin
    obtain hin | hin | hin := hin
    · exact absurd hin (by decide)
    · exact hhi hin.symm
    · exact hlo hin.symm

end Percent
