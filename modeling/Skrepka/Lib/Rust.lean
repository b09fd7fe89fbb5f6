import Mathlib.Data.Int.Notation
import Mathlib.Data.List.Basic

/-! The parts of Rust's standard library that the client's text and number handling uses:
saturating machine integers, byte lengths, trimming and number parsing. -/
namespace Rust

def i64Min : ℤ := -9223372036854775808
def i64Max : ℤ := 9223372036854775807

/-- Clamp an exact result into the range of `i64`. -/
def i64Clamp (x : ℤ) : ℤ := max i64Min (min i64Max x)

def i64SaturatingAdd (a b : ℤ) : ℤ := i64Clamp (a+b)
def i64SaturatingSub (a b : ℤ) : ℤ := i64Clamp (a-b)

def u32SaturatingAdd (a b : ℕ) : ℕ := min (a+b) 4294967295
def u64SaturatingMul (a b : ℕ) : ℕ := min (a*b) 18446744073709551615

/-- `str::len`: the number of UTF-8 bytes. -/
abbrev len (s : String) : ℕ := s.utf8ByteSize

abbrev Bytes := List UInt8

/-- `str::as_bytes`. -/
def asBytes (s : String) : Bytes := s.toUTF8.data.toList

theorem asBytes_append (s t : String) : asBytes (s ++ t) = asBytes s ++ asBytes t := by
  unfold asBytes
  rw [String.toUTF8_eq_toByteArray, String.toUTF8_eq_toByteArray, String.toUTF8_eq_toByteArray,
    String.toByteArray_append]
  exact ByteArray.toList_data_append

theorem asBytes_injective : Function.Injective asBytes := by
  intro s t h
  unfold asBytes at h
  rw [String.toUTF8_eq_toByteArray, String.toUTF8_eq_toByteArray] at h
  exact String.toByteArray_inj.mp (ByteArray.ext (Array.ext' h))

/-- `char::is_whitespace`, the Unicode `White_Space` property. -/
def isWhitespace (c : Char) : Bool :=
  let n := c.toNat
  (0x9 ≤ n && n ≤ 0xD) || n = 0x20 || n = 0x85 || n = 0xA0 || n = 0x1680 ||
    (0x2000 ≤ n && n ≤ 0x200A) || n = 0x2028 || n = 0x2029 || n = 0x202F || n = 0x205F ||
    n = 0x3000

/-- `str::trim_end_matches` for one character. -/
def trimEndMatches (p : Char → Bool) (s : String) : String :=
  String.ofList (s.toList.reverse.dropWhile p).reverse

/-- `str::trim`. -/
def trim (s : String) : String :=
  trimEndMatches isWhitespace (String.ofList (s.toList.dropWhile isWhitespace))

/-- `str::to_lowercase`, up to characters that are outside ASCII both before and after.
The Kelvin sign and the dotted capital I are the two that lower-case into ASCII. -/
def toLowercase (s : String) : String :=
  String.ofList (s.toList.flatMap fun c =>
    if c.toNat = 0x212A then ['k']
    else if c.toNat = 0x130 then ['i',Char.ofNat 0x307]
    else [c.toLower])

def digitsValue : ℕ → List Char → Option ℕ
  | acc, [] => some acc
  | acc, c :: cs => if c.isDigit then digitsValue (10*acc+(c.toNat-48)) cs else none

/-- `str::parse::<u64>`: an optional plus sign and decimal digits, below 2^64. -/
def parseU64 (s : String) : Option ℕ :=
  let digits := match s.toList with
    | '+' :: cs => cs
    | cs => cs
  match digits with
  | [] => none
  | _ => (digitsValue 0 digits).filter (fun n => n < 18446744073709551616)

/-- `x?`, when all goes well. -/
theorem bind_eq_ok {ε α β : Type} {x : Except ε α} {f : α → Except ε β} {b : β} :
    (x >>= f) = .ok b ↔ ∃ a, x = .ok a ∧ f a = .ok b := by
  cases x with
  | error e => simp [bind, Except.bind]
  | ok a => simp [bind, Except.bind]

/-- An early return of an error, when all goes well. -/
theorem ite_throw_eq_ok {ε β : Type} {c : Prop} [Decidable c] {e : ε}
    {f : PUnit → Except ε β} {b : β} :
    (if c then (throw e >>= f : Except ε β) else f ⟨⟩) = .ok b ↔ ¬ c ∧ f ⟨⟩ = .ok b := by
  by_cases h : c
  · exact ⟨fun he => by simp [h, throw, throwThe, MonadExceptOf.throw, bind, Except.bind] at he,
      fun he => absurd h he.1⟩
  · simp [h]

example : parseU64 (trim " 120\n") = some 120 := by decide

end Rust
