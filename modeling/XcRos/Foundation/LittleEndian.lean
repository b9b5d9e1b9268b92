import Mathlib.Data.List.Basic
import Mathlib.Data.UInt

/-! # Little-endian numbers

`le width n` is the number `n` in `width` bytes, `ofLe` reads any bytes as a number.
-/

namespace XcRos.Foundation

def le : Nat → Nat → List UInt8
  | 0, _ => []
  | width + 1, n => UInt8.ofNat n :: le width (n / 256)

def ofLe : List UInt8 → Nat
  | [] => 0
  | b :: rest => b.toNat + 256 * ofLe rest

@[simp] theorem length_le (width n : Nat) : (le width n).length = width := by
  induction width generalizing n with
  | zero => rfl
  | succ width ih => rw [le, List.length_cons, ih]

theorem ofLe_le {width n : Nat} (h : n < 256 ^ width) : ofLe (le width n) = n := by
  induction width generalizing n with
  | zero =>
    have hZero : n = 0 := by omega
    rw [hZero]
    rfl
  | succ width ih =>
    have hRest : n / 256 < 256 ^ width := Nat.div_lt_of_lt_mul (by rwa [Nat.pow_succ'] at h)
    rw [le, ofLe, ih hRest, UInt8.toNat_ofNat']
    omega

theorem le_ofLe (bs : List UInt8) : le bs.length (ofLe bs) = bs := by
  induction bs with
  | nil => rfl
  | cons b rest ih =>
    have hByte := b.toNat_lt
    have hHead : UInt8.ofNat (b.toNat + 256 * ofLe rest) = b := by
      apply UInt8.toNat_inj.mp
      rw [UInt8.toNat_ofNat']
      omega
    have hTail : (b.toNat + 256 * ofLe rest) / 256 = ofLe rest := by omega
    rw [List.length_cons, le, ofLe, hHead, hTail, ih]

theorem le_mod (width n : Nat) : le width (n % 256 ^ width) = le width n := by
  induction width generalizing n with
  | zero => rfl
  | succ width ih =>
    have hByte : UInt8.ofNat (n % 256 ^ (width + 1)) = UInt8.ofNat n := by
      apply UInt8.toNat_inj.mp
      rw [UInt8.toNat_ofNat', UInt8.toNat_ofNat', Nat.pow_succ']
      exact Nat.mod_mod_of_dvd n (Nat.dvd_mul_right 256 _)
    have hRest : n % 256 ^ (width + 1) / 256 = n / 256 % 256 ^ width := by
      rw [Nat.pow_succ', Nat.mod_mul_right_div_self]
    rw [le, le, hByte, hRest, ih]

end XcRos.Foundation
