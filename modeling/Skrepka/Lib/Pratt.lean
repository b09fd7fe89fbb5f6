import Mathlib.NumberTheory.LucasPrimality
import Mathlib.Data.Nat.ModEq
import Mathlib.Data.List.Prime
import Mathlib.Tactic.NormNum.Prime

/-! Primes that are certified by the factors of their predecessors. -/
namespace Skrepka.Pratt

/-- A power under a modulus, from the bits of its exponent up. -/
def powMod (m : ℕ) : ℕ → ℕ → ℕ → ℕ → ℕ
  | 0, acc, _, _ => acc
  | bits+1, acc, b, n => powMod m bits (if n%2 = 1 then acc*b%m else acc) (b*b%m) (n/2)

theorem powMod_modEq (m : ℕ) {bits n : ℕ} (acc b : ℕ) (hn : n < 2^bits) :
    powMod m bits acc b n ≡ acc*b^n [MOD m] := by
  induction bits generalizing acc b n with
  | zero =>
    obtain rfl : n = 0 := by simpa using hn
    simp [powMod, Nat.ModEq.refl]
  | succ bits ih =>
    have hhalf : n/2 < 2^bits := by
      rw [pow_succ] at hn
      omega
    have hsquare : (b*b%m)^(n/2) ≡ b^(2*(n/2)) [MOD m] := by
      rw [pow_mul, sq]
      exact (Nat.mod_modEq _ _).pow _
    refine (ih _ _ hhalf).trans ?_
    split
    · rename_i hodd
      calc
        acc*b%m*(b*b%m)^(n/2) ≡ acc*b*b^(2*(n/2)) [MOD m] := (Nat.mod_modEq _ _).mul hsquare
        _ = acc*b^(2*(n/2)+1) := by rw [pow_succ]; ring
        _ = acc*b^n := by rw [show 2*(n/2)+1 = n by omega]
    · rename_i heven
      have hn : 2*(n/2) = n := by omega
      rw [hn] at hsquare
      exact hsquare.mul_left acc

/-- A number has an element of the order of its predecessor: the power of it to that is one, and to no
proper part of that which leaves out a factor. -/
def certifies (bits p a : ℕ) (factors : List ℕ) : Bool :=
  1 < p && p < 2^bits && factors.prod = p-1 && powMod p bits 1 a (p-1) = 1 &&
    factors.all fun q => powMod p bits 1 a ((p-1)/q)%p ≠ 1

theorem prime_of_certifies {bits p a : ℕ} {factors : List ℕ} (h : certifies bits p a factors = true)
    (hfactors : ∀ q ∈ factors, q.Prime) : p.Prime := by
  simp only [certifies, Bool.and_eq_true, decide_eq_true_eq, List.all_eq_true] at h
  obtain ⟨⟨⟨⟨hp,hbits⟩,hprod⟩,hpow⟩,hproper⟩ := h
  have hmod : ∀ n < 2^bits, (a : ZMod p)^n = ((powMod p bits 1 a n : ℕ) : ZMod p) := by
    intro n hn
    have h := powMod_modEq p 1 a hn
    rw [one_mul] at h
    rw [← Nat.cast_pow]
    exact ((ZMod.natCast_eq_natCast_iff _ _ _).mpr h).symm
  refine lucas_primality p a ?_ ?_
  · rw [hmod _ (by omega), hpow, Nat.cast_one]
  · intro q hq hdvd
    have hmem : q ∈ factors := by
      rw [← hprod, (Nat.prime_iff.mp hq).dvd_prod_iff] at hdvd
      obtain ⟨r,hr,hqr⟩ := hdvd
      exact (Nat.prime_dvd_prime_iff_eq hq (hfactors r hr)).mp hqr ▸ hr
    have hlt : (p-1)/q < 2^bits := (Nat.div_le_self _ _).trans_lt (by omega)
    intro hone
    have hone' : ((powMod p bits 1 a ((p-1)/q) : ℕ) : ZMod p) = ((1 : ℕ) : ZMod p) := by
      rw [← hmod _ hlt, hone, Nat.cast_one]
    rw [ZMod.natCast_eq_natCast_iff', Nat.mod_eq_of_lt hp] at hone'
    exact hproper q hmem hone'

/-- Each entry is certified by primes that are known, or that entries below it certify. -/
def certified (bits : ℕ) (known : List ℕ) : List (ℕ × ℕ × List ℕ) → Bool
  | [] => true
  | (p,a,factors) :: below => certifies bits p a factors &&
      factors.all (fun q => q ∈ known || q ∈ below.map Prod.fst) && certified bits known below

theorem prime_of_certified {bits : ℕ} {known : List ℕ} (hknown : ∀ q ∈ known, q.Prime)
    {table : List (ℕ × ℕ × List ℕ)} (h : certified bits known table = true) :
    ∀ p ∈ table.map Prod.fst, p.Prime := by
  induction table with
  | nil => simp
  | cons entry below ih =>
    obtain ⟨p,a,factors⟩ := entry
    simp only [certified, Bool.and_eq_true, List.all_eq_true, Bool.or_eq_true, decide_eq_true_eq] at h
    obtain ⟨⟨hp,hfactors⟩,hbelow⟩ := h
    rw [List.map_cons, List.forall_mem_cons]
    refine ⟨prime_of_certifies hp fun q hq => ?_,ih hbelow⟩
    obtain hq | hq := hfactors q hq
    · exact hknown q hq
    · exact ih hbelow q hq

end Skrepka.Pratt
