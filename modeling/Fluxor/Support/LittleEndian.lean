import Mathlib.Data.Nat.Digits.Lemmas

/-!
# Little-endian integers

Fixed-width unsigned integers as byte strings, least significant byte first.
-/

namespace Fluxor.Support

abbrev Bytes := List UInt8

def putUint : ℕ → ℕ → Bytes
  | 0, _ => []
  | k + 1, n => UInt8.ofNat n :: putUint k (n / 256)

def getUint (bs : Bytes) : ℕ := Nat.ofDigits 256 (bs.map UInt8.toNat)

@[simp] theorem length_putUint (k n : ℕ) : (putUint k n).length = k := by
  induction k generalizing n with
  | zero => rfl
  | succ k ih => simp [putUint, ih]

theorem getUint_cons (b : UInt8) (bs : Bytes) : getUint (b :: bs) = b.toNat + 256 * getUint bs := by
  simp [getUint, Nat.ofDigits_cons]

theorem getUint_putUint {k n : ℕ} (h : n < 256 ^ k) : getUint (putUint k n) = n := by
  induction k generalizing n with
  | zero =>
    have hn : n = 0 := by simpa using h
    simp [putUint, getUint, hn]
  | succ k ih =>
    have hdiv : n / 256 < 256 ^ k := by
      rw [Nat.div_lt_iff_lt_mul (by omega)]
      rwa [← pow_succ]
    have hlow : (UInt8.ofNat n).toNat = n % 256 := by simp
    rw [putUint, getUint_cons, ih hdiv, hlow]
    omega

theorem getUint_lt (bs : Bytes) : getUint bs < 256 ^ bs.length := by
  induction bs with
  | nil => simp [getUint]
  | cons b =>
    have hb := b.toNat_lt
    rw [getUint_cons, List.length_cons, pow_succ]
    omega

theorem putUint_getUint (bs : Bytes) : putUint bs.length (getUint bs) = bs := by
  induction bs with
  | nil => rfl
  | cons b bs ih =>
    have hb := b.toNat_lt
    have hhead : UInt8.ofNat (b.toNat + 256 * getUint bs) = b := by
      apply UInt8.toNat_inj.mp
      rw [UInt8.toNat_ofNat']
      omega
    have htail : (b.toNat + 256 * getUint bs) / 256 = getUint bs := by omega
    rw [List.length_cons, putUint, getUint_cons, hhead, htail, ih]

end Fluxor.Support
