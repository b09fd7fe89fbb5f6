import Mathlib.Algebra.GroupWithZero.Nat
import Skrepka.Lib.Rust

/-! Rust code with its run-time checks: an index, a slice or a copy out of bounds panics, and so does
arithmetic that overflows. A panic is `none`; a run that does not panic returns a value or an error. -/
namespace Rust.Checked
variable {ε α β : Type}

/-- A run that may panic, or return early with an error. -/
abbrev Run (ε α : Type) := ExceptT ε Option α

/-- A step that panics when its check fails. -/
def check (o : Option α) : Run ε α := ExceptT.lift o

/-- A step that may return an error. -/
def attempt (r : Except ε α) : Run ε α := ExceptT.mk (some r)

/-- `xs[i]` -/
def index (xs : List α) (i : ℕ) : Option α := xs[i]?

/-- `&xs[lo..hi]` -/
def slice (xs : List α) (lo hi : ℕ) : Option (List α) :=
  if lo ≤ hi ∧ hi ≤ xs.length then some ((xs.drop lo).take (hi-lo)) else none

/-- `&xs[lo..]` -/
def sliceFrom (xs : List α) (lo : ℕ) : Option (List α) := slice xs lo xs.length

/-- `copy_from_slice` into an array of `n` elements. -/
def copyFromSlice (n : ℕ) (src : List α) : Option (List α) := if src.length = n then some src else none

/-- Addition in a `usize` of so many bits. -/
def usizeAdd (bits a b : ℕ) : Option ℕ := if a+b < 2^bits then some (a+b) else none

def usizeSub (a b : ℕ) : Option ℕ := if b ≤ a then some (a-b) else none

/-- `Vec::with_capacity` for a vector of bytes. -/
def withCapacity (bits n : ℕ) : Option PUnit := if n < 2^(bits-1) then some ⟨⟩ else none

/-- `n as usize` -/
def asUsize (bits n : ℕ) : ℕ := n%2^bits

theorem slice_eq {xs : List α} {lo hi : ℕ} (hlo : lo ≤ hi) (hhi : hi ≤ xs.length) :
    slice xs lo hi = some ((xs.drop lo).take (hi-lo)) := if_pos ⟨hlo,hhi⟩

theorem sliceFrom_eq {xs : List α} {lo : ℕ} (h : lo ≤ xs.length) : sliceFrom xs lo = some (xs.drop lo) := by
  rw [sliceFrom, slice_eq h (Nat.le_refl _), List.take_of_length_le (by simp)]

/-- A slice of the right length is copied. -/
theorem slice_copy {xs : List α} {lo hi n : ℕ} (hlo : lo+n = hi) (hhi : hi ≤ xs.length) :
    (slice xs lo hi >>= copyFromSlice n) = some ((xs.drop lo).take n) := by
  rw [slice_eq (by omega) hhi, show hi-lo = n by omega]
  exact if_pos (by rw [List.length_take, List.length_drop]; omega)

theorem usizeAdd_eq {bits a b : ℕ} (h : a+b < 2^bits) : usizeAdd bits a b = some (a+b) := if_pos h

theorem usizeSub_eq {a b : ℕ} (h : b ≤ a) : usizeSub a b = some (a-b) := if_pos h

theorem withCapacity_eq {bits n : ℕ} (h : n < 2^(bits-1)) : withCapacity bits n = some ⟨⟩ := if_pos h

theorem asUsize_eq {bits n : ℕ} (h : n < 2^bits) : asUsize bits n = n := Nat.mod_eq_of_lt h

/-- A check that does not fail. -/
theorem check_bind {o : Option α} {a : α} (h : o = some a) (f : α → Run ε β) :
    (check o >>= f) = f a := by
  subst h
  rfl

theorem attempt_ok {r : Except ε α} {a : α} (h : r = .ok a) (f : α → Run ε β) :
    (attempt r >>= f) = f a := by
  subst h
  rfl

end Rust.Checked
