import Skrepka.Exchange.Accepts

/-! The classes of lengths that blobs are padded to, which the limits of client and relay all admit. -/
namespace Skrepka.Client.Crypto
open Rust

/-- Up to the last bucket, a length gets the least bucket that holds it. -/
theorem paddedLen_bucket {n : ℕ} (h : n ≤ 65536) :
    paddedLen n ∈ paddingBuckets ∧ ∀ bucket ∈ paddingBuckets, n ≤ bucket → paddedLen n ≤ bucket := by
  have hsorted : paddingBuckets.Pairwise (· ≤ ·) := by decide
  cases hfind : paddingBuckets.find? (fun bucket => n ≤ bucket) with
  | none =>
    have hnone := List.find?_eq_none.mp hfind 65536 (by decide)
    exact absurd h (by simpa using hnone)
  | some b =>
    have heq : paddedLen n = b := by rw [paddedLen, hfind]
    obtain ⟨-,before,after,hsplit,hbefore⟩ := List.find?_eq_some_iff_append.mp hfind
    rw [heq]
    refine ⟨List.mem_of_find?_eq_some hfind,fun bucket hbucket hn => ?_⟩
    rw [hsplit] at hsorted hbucket
    obtain hbucket | hbucket := List.mem_append.mp hbucket
    · exact absurd hn (by simpa using hbefore bucket hbucket)
    · obtain rfl | hbucket := List.mem_cons.mp hbucket
      · exact le_rfl
      · exact (List.pairwise_cons.mp (List.pairwise_append.mp hsorted).2.1).1 bucket hbucket

/-- Above it, the next multiple of the last bucket. -/
theorem paddedLen_multiple {n : ℕ} (h : 65536 < n) : paddedLen n = 65536*(n/65536+1) := by
  have hnone : paddingBuckets.find? (fun bucket => n ≤ bucket) = none := by
    apply List.find?_eq_none.mpr
    intro bucket hbucket
    have hlast : ∀ b ∈ paddingBuckets, b ≤ 65536 := by decide
    have := hlast bucket hbucket
    simp only [decide_eq_true_eq]
    omega
  simp only [paddedLen, hnone]
  split <;> omega

theorem paddedLen_class (n : ℕ) : paddedLen n ∈ paddingBuckets ∨ 65536 ∣ paddedLen n := by
  by_cases h : n ≤ 65536
  · exact .inl (paddedLen_bucket h).1
  · rw [paddedLen_multiple (by omega)]
    exact .inr (Nat.dvd_mul_right _ _)

theorem paddedLen_mono {n m : ℕ} (h : n ≤ m) : paddedLen n ≤ paddedLen m := by
  by_cases hm : m ≤ 65536
  · exact (paddedLen_bucket (h.trans hm)).2 _ (paddedLen_bucket hm).1 (h.trans (le_paddedLen m))
  · by_cases hn : n ≤ 65536
    · have hlast := (paddedLen_bucket hn).2 65536 (by decide) hn
      have hlower := le_paddedLen m
      omega
    · rw [paddedLen_multiple (by omega), paddedLen_multiple (by omega)]
      exact Nat.mul_le_mul_left _ (Nat.succ_le_succ (Nat.div_le_div_right h))

/-- The same rounding in the machine's words. -/
def paddedLenUsize (actual : UInt64) : UInt64 :=
  match [256,512,1024,2048,4096,8192,16384,32768,65536].find? (fun bucket => actual ≤ bucket) with
  | some bucket => bucket
  | none =>
    let remainder := actual%65536
    if remainder = 0 then actual+65536 else actual+65536-remainder

/-- Nothing wraps for the length of a vector, which is at most `isize::MAX`. -/
theorem paddedLenUsize_toNat {n : UInt64} (h : n.toNat < 2^63) :
    (paddedLenUsize n).toNat = paddedLen n.toNat := by
  have hbuckets : paddingBuckets =
      ([256,512,1024,2048,4096,8192,16384,32768,65536] : List UInt64).map UInt64.toNat := by decide
  have hfind : paddingBuckets.find? (fun bucket => n.toNat ≤ bucket) =
      (([256,512,1024,2048,4096,8192,16384,32768,65536] : List UInt64).find?
        (fun bucket => n ≤ bucket)).map UInt64.toNat := by
    rw [hbuckets, List.find?_map]
    rfl
  rw [paddedLenUsize, paddedLen, hfind]
  cases ([256,512,1024,2048,4096,8192,16384,32768,65536] : List UInt64).find?
      (fun bucket => n ≤ bucket) with
  | some bucket => rfl
  | none =>
    have hremainder : (n%65536).toNat = n.toNat%65536 := UInt64.toNat_mod n 65536
    have hsum : (n+65536).toNat = n.toNat+65536 := by
      rw [UInt64.toNat_add]
      change (n.toNat+65536)%2^64 = n.toNat+65536
      omega
    have hzero : n%65536 = 0 ↔ n.toNat%65536 = 0 := by
      rw [← UInt64.toNat_inj, hremainder]
      rfl
    simp only [Option.map_none, hzero]
    split
    · exact hsum
    · rw [UInt64.toNat_sub_of_le, hsum, hremainder]
      rw [UInt64.le_iff_toNat_le, hsum, hremainder]
      omega

end Skrepka.Client.Crypto

namespace Skrepka.Exchange
open Rust Client.Crypto

/-- Every length, in the machine's words as well, is rounded up to the least class that holds it, within 65536 of it; and a blob is
exactly as long as the class of its frame, which both the client and the relay accept. -/
theorem padding_fits :
    (∀ n, n ≤ paddedLen n ∧ (paddedLen n ∈ paddingBuckets ∨ 65536 ∣ paddedLen n) ∧
      paddedLen n ≤ n+65536 ∧ ∀ m, n ≤ m → paddedLen n ≤ paddedLen m) ∧
    (∀ n : UInt64, n.toNat < 2^63 → (paddedLenUsize n).toNat = paddedLen n.toNat) ∧
    ∀ x : Client.Crates, x.Measured → ∀ rng sender recipientEdPub plaintext blob, sender.Valid x →
      encrypt x rng sender recipientEdPub plaintext = .ok blob →
      1+32+nonceLen+32+64+4+(x.zstdEncode plaintext).length+16 ≤
        paddedLen (1+32+nonceLen+32+64+4+(x.zstdEncode plaintext).length+16) ∧
      (x.zstdEncode plaintext).length < 2^32 ∧
      blob.length = paddedLen (173+(x.zstdEncode plaintext).length) ∧
      (∀ rng' sender' recipientEdPub' plaintext' blob', sender'.Valid x →
        encrypt x rng' sender' recipientEdPub' plaintext' = .ok blob' →
        paddedLen (173+(x.zstdEncode plaintext').length) = paddedLen (173+(x.zstdEncode plaintext).length) →
        blob'.length = blob.length) ∧
      minBlobLen ≤ blob.length ∧ blob.length ≤ maxBlobLen ∧
      Relay.isValidBlobHex {} (Hex.encode blob).toList = true := by
  refine ⟨fun n => ⟨le_paddedLen n,paddedLen_class n,paddedLen_le n,fun m => paddedLen_mono⟩,
    fun n => paddedLenUsize_toNat,?_⟩
  intro x hx rng sender recipientEdPub plaintext blob hs h
  have hlength := encrypt_length_eq hx hs h
  have hframe := encode_le hx h
  obtain ⟨hlong,hshort⟩ := encrypt_length hx hs h
  refine ⟨le_paddedLen _,?_,hlength,?_,hlong,?_,?_⟩
  · simp only [maxPlaintextLen] at hframe
    omega
  · intro rng' sender' recipientEdPub' plaintext' blob' hs' h' hclass
    exact (encrypt_length_eq hx hs' h').trans (hclass.trans hlength.symm)
  · simp only [maxPlaintextLen, minBlobLen, nonceLen] at hshort
    simp only [maxBlobLen]
    omega
  · apply blobHex_accepted hlong
    simp only [maxPlaintextLen, minBlobLen, nonceLen] at hshort
    omega

/-- The identity of the first sample seed. -/
def sealingSender : Identity :=
  ⟨Client.sampleSecret,ed25519SkToX25519 sealing Client.sampleSecret,List.replicate 32 1⟩

theorem padding_fits_short : ∃ blob,
    encrypt sealing (fun _ => 9) sealingSender (sealing.ed25519Public (List.replicate 32 7)) (asBytes "hi") =
      .ok blob ∧ blob.length = 256 := by
  have hsender : fromSecretBytes sealing Client.sampleSecret = .ok sealingSender := by decide
  have hsent : (encrypt sealing (fun _ => 9) sealingSender
      (sealing.ed25519Public (List.replicate 32 7)) (asBytes "hi")).toOption.isSome = true := by
    decide
  cases hblob : encrypt sealing (fun _ => 9) sealingSender
      (sealing.ed25519Public (List.replicate 32 7)) (asBytes "hi") with
  | error e =>
    rw [hblob] at hsent
    cases hsent
  | ok blob =>
    obtain ⟨-,-,hlength,-⟩ :=
      padding_fits.2.2 sealing sealing_measured _ _ _ _ blob (fromSecretBytes_valid hsender) hblob
    have hclass : paddedLen (173+(sealing.zstdEncode (asBytes "hi")).length) = 256 := by decide
    exact ⟨blob,rfl,hlength.trans hclass⟩

end Skrepka.Exchange
