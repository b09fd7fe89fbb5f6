import Skrepka.Client.Sealing
import Skrepka.Client.Spelling
import Skrepka.Lib.Pratt
import Mathlib.GroupTheory.OrderOfElement
import Mathlib.Data.ZMod.Basic

/-! Which of the keys that are accepted for a contact can be written to. -/
namespace Skrepka.Client
open Rust

namespace Crypto

/-- The order of the base point of the curve. -/
def basepointOrder : ℕ := 2^252+27742317777372353535851937790883648493

def smallPrimes : List ℕ :=
  [2,3,5,7,11,23,41,43,73,269,307,1361,2551,2851,5879,30703,82163,132667,137849,409477,531581]

theorem smallPrimes_prime : ∀ q ∈ smallPrimes, q.Prime := by
  simp only [smallPrimes, List.forall_mem_cons]
  norm_num

/-- The primes under that order, each with a generator and the factors of its predecessor. -/
def orderTable : List (ℕ × ℕ × List ℕ) :=
  [(basepointOrder,2,
      [2,2,3,11,198211423230930754013084525763697,276602624281642239937218680557139826668747]),
   (276602624281642239937218680557139826668747,2,[2,7,19757330305831588566944191468367130476339]),
   (19757330305831588566944191468367130476339,2,[2,269,213441916511,172054593956031949258510691]),
   (198211423230930754013084525763697,5,[2,2,2,2,3,23,58964693,3044861653679985063343]),
   (172054593956031949258510691,2,[2,5,1361,2851,4434155615661930479]),
   (3044861653679985063343,5,[2,3,11,30703,82163,132667,137849]),
   (4434155615661930479,17,[2,41,43,1257559732178653]),
   (1257559732178653,2,[2,2,3,7,23,531581,1224481]),
   (213441916511,13,[2,5,73,292386187]),
   (292386187,2,[2,3,3,3,3,307,5879]),
   (58964693,2,[2,2,14741173]),
   (14741173,2,[2,2,3,3,409477]),
   (1224481,13,[2,2,2,2,2,3,5,2551])]

theorem basepointOrder_prime : basepointOrder.Prime := by
  have hcertified : Pratt.certified 256 smallPrimes orderTable = true := by decide +kernel
  exact Pratt.prime_of_certified smallPrimes_prime hcertified _ (List.mem_map_of_mem List.mem_cons_self)

def leNat (bs : Bytes) : ℕ := bs.foldr (fun b n => b.toNat+256*n) 0

/-- A scalar with its three low bits and its highest one cleared, and the next to highest set. -/
def clamp (scalar : Bytes) : ℕ := 2^254+8*(leNat scalar%2^254/8)

/-- The group of points that the key crates compute in: they accept the encodings of its points, take a
point to a coordinate that is zero for two points only, and multiply points given by theirs. -/
structure Curve (x : Crates) (G : Type*) [AddCommGroup G] where
  decompress : Bytes → Option G
  u : G → Bytes
  verifyingKey : ∀ key, x.verifyingKey key = true ↔ key.length = 32 ∧ (decompress key).isSome = true
  toMontgomery : ∀ key, x.toMontgomery key = (decompress key).map u
  x25519 : ∀ scalar P, scalar.length = 32 → x.x25519 scalar (u P) = u (clamp scalar • P)
  allZero_u : ∀ P, allZero (u P) = true ↔ 2 • P = 0
  order : ∀ P : G, (8*basepointOrder) • P = 0

theorem clamp_eq (scalar : Bytes) : ∃ m, clamp scalar = 8*m ∧ 0 < m ∧ m < basepointOrder := by
  refine ⟨2^251+leNat scalar%2^254/8,?_,?_,?_⟩
  · simp only [clamp]
    omega
  · omega
  · have := Nat.mod_lt (leNat scalar) (show 0 < 2^254 by decide)
    simp only [basepointOrder]
    omega

variable {x : Crates} {G : Type*} [AddCommGroup G]

/-- A clamped multiple of a point is only of low order if the point is. -/
theorem Curve.clamp_nsmul (c : Curve x G) (scalar : Bytes) (P : G) :
    2 • (clamp scalar • P) = 0 ↔ 8 • P = 0 := by
  obtain ⟨m,hm,hpos,hlt⟩ := clamp_eq scalar
  have hmul : 2 • (clamp scalar • P) = (8*(2*m)) • P := by
    rw [hm, ← mul_nsmul, Nat.mul_left_comm, Nat.mul_comm]
  rw [hmul]
  constructor
  · intro hzero
    have hcoprime : (2*m).Coprime basepointOrder := by
      refine (basepointOrder_prime.coprime_iff_not_dvd.mpr fun hdvd => ?_).symm
      obtain h | h := basepointOrder_prime.dvd_mul.mp hdvd
      · exact absurd (Nat.le_of_dvd (by decide) h) (by decide)
      · exact absurd (Nat.le_of_dvd hpos h) (by omega)
    have hdvd : addOrderOf P ∣ (8*(2*m)).gcd (8*basepointOrder) :=
      Nat.dvd_gcd (addOrderOf_dvd_of_nsmul_eq_zero hzero) (addOrderOf_dvd_of_nsmul_eq_zero (c.order P))
    rw [Nat.gcd_mul_left, hcoprime.gcd_eq_one, Nat.mul_one] at hdvd
    exact addOrderOf_dvd_iff_nsmul_eq_zero.mp hdvd
  · intro hzero
    rw [mul_nsmul, hzero, nsmul_zero]

/-- What `encrypt` makes of the key that it is given. -/
theorem encrypt_refuses {rng : Rng} {sender : Identity} {key plaintext : Bytes}
    (hshort : plaintext.length ≤ maxPlaintextLen) :
    (encrypt x rng sender key plaintext = .error .invalidPublicKey ∨
      encrypt x rng sender key plaintext = .error .invalidEphemeralKey) ↔
    ∀ recipX, ed25519PkToX25519 x key = .ok recipX → allZero (x.x25519 (rng.fill 32) recipX) = true := by
  have hlong : ¬ plaintext.length > maxPlaintextLen := by omega
  cases hkey : ed25519PkToX25519 x key with
  | error e =>
    have he : e = .invalidPublicKey := by
      unfold ed25519PkToX25519 at hkey
      split at hkey
      · exact (Except.error.inj hkey).symm
      split at hkey
      · exact (Except.error.inj hkey).symm
      · simp at hkey
    subst he
    simp [encrypt, hlong, hkey, bind, Except.bind]
  | ok recipX =>
    cases hzero : allZero (x.x25519 (rng.fill 32) recipX) with
    | true => simp [encrypt, hlong, hkey, bind, Except.bind, x25519, hzero]
    | false =>
      refine iff_of_false ?_ fun h => ?_
      · simp only [encrypt, hlong, hkey, bind, Except.bind, x25519, hzero, pure, Except.pure, if_false,
          Bool.false_eq_true]
        split <;> simp [throw, throwThe, MonadExceptOf.throw]
      · rw [h recipX rfl] at hzero
        exact absurd hzero (by simp)

/-- A key on the curve is refused just if its point is of low order, whatever is encrypted. -/
theorem Curve.encrypt_refuses_iff (c : Curve x G) {key : Bytes} {P : G} (hP : c.decompress key = some P)
    (rng : Rng) (sender : Identity) {plaintext : Bytes} (hshort : plaintext.length ≤ maxPlaintextLen) :
    (encrypt x rng sender key plaintext = .error .invalidPublicKey ∨
      encrypt x rng sender key plaintext = .error .invalidEphemeralKey) ↔ 8 • P = 0 := by
  have hmontgomery : x.toMontgomery key = some (c.u P) := by rw [c.toMontgomery, hP, Option.map_some]
  have hladder : allZero (x.x25519 (rng.fill 32) (c.u P)) = true ↔ 8 • P = 0 := by
    rw [c.x25519 _ _ (by simp [Rng.fill]), c.allZero_u, c.clamp_nsmul]
  rw [encrypt_refuses hshort]
  cases hzero : allZero (c.u P) with
  | true =>
    have hrefused : ∀ recipX, ed25519PkToX25519 x key ≠ .ok recipX := by
      simp [ed25519PkToX25519, hmontgomery, hzero]
    have horder : 8 • P = 0 := by
      rw [show 8 = 2*4 by rfl, mul_nsmul, (c.allZero_u P).mp hzero, nsmul_zero]
    exact iff_of_true (fun recipX hrecip => absurd hrecip (hrefused recipX)) horder
  | false =>
    have haccepted : ed25519PkToX25519 x key = .ok (c.u P) := by
      simp [ed25519PkToX25519, hmontgomery, hzero]
    rw [haccepted, ← hladder]
    constructor
    · exact fun h => h _ rfl
    · intro h recipX hrecip
      rw [← Except.ok.inj hrecip]
      exact h

end Crypto

/-- A key that is accepted for a contact is refused whenever something is encrypted to it if it encodes
a point of low order, and never otherwise. -/
theorem accepted_writable_iff {x : Crates} {G : Type*} [AddCommGroup G] (c : Crypto.Curve x G)
    {input pubkey : String} (h : Phonemic.tryParsePubkey x.verifyingKey input = some pubkey) :
    ∃ key P, Hex.decode pubkey = some key ∧ key.length = 32 ∧ c.decompress key = some P ∧
      ∀ rng sender plaintext, plaintext.length ≤ Crypto.maxPlaintextLen →
        ((Crypto.encrypt x rng sender key plaintext ≠ .error .invalidPublicKey ∧
            Crypto.encrypt x rng sender key plaintext ≠ .error .invalidEphemeralKey) ↔
          8 • P ≠ 0) := by
  obtain ⟨key,hlength,hkey,rfl⟩ := Phonemic.tryParsePubkey_eq_some h
  obtain ⟨P,hP⟩ := Option.isSome_iff_exists.mp ((c.verifyingKey key).mp hkey).2
  refine ⟨key,P,Hex.decode_encode key,hlength,hP,fun rng sender plaintext hshort => ?_⟩
  rw [← not_or, not_iff_not]
  exact c.encrypt_refuses_iff hP rng sender hshort

/-- The encodings of the points of low order, as multiples of one of them. -/
def lowOrderKeys : List (Bytes × ZMod 8) :=
  [(bytes32 0x0100000000000000000000000000000000000000000000000000000000000000,0),
   (bytes32 0x26e8958fc2b227b045c3f489f2ef98f0d5dfac05d3c63339b13802886d53fc05,1),
   (bytes32 0x0000000000000000000000000000000000000000000000000000000000000000,2),
   (bytes32 0xc7176a703d4dd84fba3c0b760d10670f2a2053fa2c39ccc64ec7fd7792ac037a,3),
   (bytes32 0xecffffffffffffffffffffffffffffffffffffffffffffffffffffffffffff7f,4),
   (bytes32 0xc7176a703d4dd84fba3c0b760d10670f2a2053fa2c39ccc64ec7fd7792ac03fa,5),
   (bytes32 0x0000000000000000000000000000000000000000000000000000000000000080,6),
   (bytes32 0x26e8958fc2b227b045c3f489f2ef98f0d5dfac05d3c63339b13802886d53fc85,7)]

def decompressLowOrder (key : Bytes) : Option (ZMod 8) := lowOrderKeys.lookup key

/-- Their coordinates. -/
def lowOrderU (P : ZMod 8) : Bytes :=
  bytes32 <| [0,
    0x5f9c95bca3508c24b1d0b1559c83ef5b04445cc4581c8e86d8224eddd09f1157,
    0x0100000000000000000000000000000000000000000000000000000000000000,
    0xe0eb7a7c3b41b8ae1656e3faf19fc46ada098deb9c32b1fd866205165f49b800,
    0,
    0xe0eb7a7c3b41b8ae1656e3faf19fc46ada098deb9c32b1fd866205165f49b800,
    0x0100000000000000000000000000000000000000000000000000000000000000,
    0x5f9c95bca3508c24b1d0b1559c83ef5b04445cc4581c8e86d8224eddd09f1157].getD P.val 0

/-- The sample instance, with the points of low order for the curve. -/
def Crates.lowOrder : Crates :=
  { Crates.sample with
    verifyingKey := fun key => key.length = 32 && (decompressLowOrder key).isSome
    toMontgomery := fun key => (decompressLowOrder key).map lowOrderU
    x25519 := fun _ point =>
      if lowOrderKeys.any (fun k => point = lowOrderU k.2) then bytes32 0 else List.replicate 32 1 }

def lowOrderCurve : Crypto.Curve .lowOrder (ZMod 8) where
  decompress := decompressLowOrder
  u := lowOrderU
  verifyingKey key := by simp [Crates.lowOrder]
  toMontgomery _ := rfl
  x25519 scalar P _ := by
    obtain ⟨m,hm,-,-⟩ := Crypto.clamp_eq scalar
    have hzero : Crypto.clamp scalar • P = 0 := by
      have height : ∀ P : ZMod 8, 8 • P = 0 := by decide
      rw [hm, mul_nsmul, height, nsmul_zero]
    have hany : ∀ P : ZMod 8, lowOrderKeys.any (fun k => lowOrderU P = lowOrderU k.2) = true := by
      decide
    rw [hzero]
    exact if_pos (hany P)
  allZero_u := by decide
  order P := by
    have height : ∀ P : ZMod 8, 8 • P = 0 := by decide
    rw [mul_nsmul, height, nsmul_zero]

theorem lowOrder_accepted {key : Bytes} (hlength : key.length = 32)
    (hkey : Crates.lowOrder.verifyingKey key = true) :
    Phonemic.tryParsePubkey Crates.lowOrder.verifyingKey (Hex.encode key) = some (Hex.encode key) :=
  Phonemic.tryParsePubkey_encode hlength hkey

def identityKey : Bytes := bytes32 0x0100000000000000000000000000000000000000000000000000000000000000

/-- Two keys of low order that are accepted, and to which nothing can be encrypted. -/
theorem lowOrder_refused :
    (Phonemic.tryParsePubkey Crates.lowOrder.verifyingKey (Hex.encode identityKey) =
        some (Hex.encode identityKey) ∧
      Crypto.encrypt .lowOrder (fun _ => 1) ⟨sampleSecret,[],[]⟩ identityKey [] =
        .error .invalidPublicKey) ∧
    Phonemic.tryParsePubkey Crates.lowOrder.verifyingKey (Hex.encode (bytes32 0)) =
        some (Hex.encode (bytes32 0)) ∧
      Crypto.encrypt .lowOrder (fun _ => 1) ⟨sampleSecret,[],[]⟩ (bytes32 0) [] =
        .error .invalidEphemeralKey :=
  ⟨⟨lowOrder_accepted (by decide) (by decide),by decide⟩,
    lowOrder_accepted (by decide) (by decide),by decide⟩

/-- The identity is among the keys that are accepted. -/
theorem accepted_writable_iff_identity :
    ∃ key P, Hex.decode (Hex.encode identityKey) = some key ∧ key.length = 32 ∧
      lowOrderCurve.decompress key = some P ∧
      ∀ rng sender plaintext, plaintext.length ≤ Crypto.maxPlaintextLen →
        ((Crypto.encrypt .lowOrder rng sender key plaintext ≠ .error .invalidPublicKey ∧
            Crypto.encrypt .lowOrder rng sender key plaintext ≠ .error .invalidEphemeralKey) ↔
          8 • P ≠ 0) :=
  accepted_writable_iff lowOrderCurve (lowOrder_accepted (by decide) (by decide))

end Skrepka.Client
