import Mathlib.Algebra.Order.Ring.Nat

/-!
# Little-endian bytes

A number written as its bytes, the lowest one first.
-/

namespace Tempr.Support.LittleEndian

/-- The lowest `k` bytes of a number. -/
def toBytes : ℕ → ℕ → List UInt8
  | 0, _ => []
  | k + 1, n => UInt8.ofNat n :: toBytes k (n / 256)

/-- The number that the bytes are written for. -/
def ofBytes : List UInt8 → ℕ
  | [] => 0
  | b :: bs => b.toNat + 256 * ofBytes bs

@[simp] theorem length_toBytes (k n : ℕ) : (toBytes k n).length = k := by
  induction k generalizing n with
  | zero => rfl
  | succ k ih => rw [toBytes, List.length_cons, ih]

theorem ofBytes_toBytes (k n : ℕ) : ofBytes (toBytes k n) = n % 256 ^ k := by
  induction k generalizing n with
  | zero => rw [toBytes, ofBytes, Nat.pow_zero, Nat.mod_one]
  | succ k ih =>
      rw [toBytes, ofBytes, ih, Nat.pow_succ', Nat.mod_mul,
        UInt8.toNat_ofNat']

theorem ofBytes_toBytes_of_lt {k n : ℕ} (h : n < 256 ^ k) :
    ofBytes (toBytes k n) = n := by
  rw [ofBytes_toBytes, Nat.mod_eq_of_lt h]

/-- Bytes of one length are told apart by their number. -/
theorem eq_of_ofBytes_eq {bs bs' : List UInt8} (hlength : bs.length = bs'.length)
    (h : ofBytes bs = ofBytes bs') : bs = bs' := by
  induction bs generalizing bs' with
  | nil => exact (List.length_eq_zero_iff.mp hlength.symm).symm
  | cons b bs ih =>
      obtain ⟨b', bs', rfl⟩ := List.exists_cons_of_length_eq_add_one hlength.symm
      have hb := b.toNat_lt
      have hb' := b'.toNat_lt
      rw [ofBytes, ofBytes] at h
      have hlow : b.toNat = b'.toNat := by omega
      have hhigh : ofBytes bs = ofBytes bs' := by omega
      rw [UInt8.toNat_inj.mp hlow, ih (Nat.succ.inj hlength) hhigh]

theorem ofBytes_lt (bs : List UInt8) : ofBytes bs < 256 ^ bs.length := by
  induction bs with
  | nil => exact Nat.one_pos
  | cons b bs ih =>
      have hb := b.toNat_lt
      rw [ofBytes, List.length_cons, Nat.pow_succ]
      omega

/-- Bytes are told apart by their number modulo what their length can hold. -/
theorem eq_of_ofBytes_mod_eq {k : ℕ} {bs bs' : List UInt8} (hk : bs.length = k)
    (hk' : bs'.length = k) (h : ofBytes bs % 256 ^ k = ofBytes bs' % 256 ^ k) :
    bs = bs' := by
  have hlt := ofBytes_lt bs
  have hlt' := ofBytes_lt bs'
  rw [hk] at hlt
  rw [hk'] at hlt'
  rw [Nat.mod_eq_of_lt hlt, Nat.mod_eq_of_lt hlt'] at h
  exact eq_of_ofBytes_eq (hk.trans hk'.symm) h

end Tempr.Support.LittleEndian
