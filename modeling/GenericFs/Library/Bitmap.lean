import Mathlib.Data.Nat.Bitwise
import GenericFs.Library.Store

namespace GenericFs.Library.Bitmap

open Function Store

/-- Bit `n` of a store of bytes, the lowest bit of each byte first. -/
def bit (s : ℕ → UInt8) (n : ℕ) : Bool := (s (n / 8)).toNat.testBit (n % 8)

def ofBits (p : ℕ → Bool) :
    ℕ → UInt8 := fun k ↦ UInt8.ofNat (Nat.ofBits fun j : Fin 8 ↦ p (8 * k + j))

def setBit (s : ℕ → UInt8) (n : ℕ) : ℕ → UInt8 :=
  update s (n / 8) (s (n / 8) ||| UInt8.ofNat (1 <<< (n % 8)))

variable {s s' : ℕ → UInt8} {n k : ℕ}

theorem toNat_mask {j : ℕ} (hj : j < 8) : (UInt8.ofNat (1 <<< j)).toNat = 2 ^ j := by
  have hlt : 2 ^ j < 2 ^ 8 := Nat.pow_lt_pow_right (by decide) hj
  rw [Nat.one_shiftLeft, UInt8.toNat_ofNat', Nat.mod_eq_of_lt hlt]

theorem bit_ofBits {p : ℕ → Bool} : bit (ofBits p) n = p n := by
  have hlt : n % 8 < 8 := Nat.mod_lt _ (by decide)
  rw [bit, ofBits, UInt8.toNat_ofNat', Nat.mod_eq_of_lt (Nat.ofBits_lt_two_pow _),
    Nat.testBit_ofBits_lt _ _ hlt]
  exact congrArg p (Nat.div_add_mod n 8)

theorem bit_setBit : bit (setBit s n) k = (bit s k || decide (k = n)) := by
  rw [bit, setBit]
  by_cases hbyte : k / 8 = n / 8
  · have hbits : n % 8 = k % 8 ↔ k = n := by omega
    rw [hbyte, update_self, UInt8.toNat_or, Nat.testBit_or, toNat_mask (Nat.mod_lt _ (by decide)),
      Nat.testBit_two_pow, bit, hbyte]
    simp only [hbits]
  · have hne : k ≠ n := by
      intro h
      exact hbyte (by rw [h])
    rw [update_of_ne hbyte, decide_eq_false hne, Bool.or_false, bit]

theorem setBit_of_ne (h : k ≠ n / 8) : setBit s n k = s k := update_of_ne h _ _

theorem setBit_splice {off m : ℕ} {f : ℕ → UInt8} (h : n / 8 < off ∨ off + m ≤ n / 8) :
    setBit (splice s off m f) n = splice (setBit s n) off m f := by
  funext i
  by_cases hi : off ≤ i ∧ i < off + m
  · have hne : i ≠ n / 8 := by omega
    rw [setBit_of_ne hne, splice_inside hi.1 hi.2, splice_inside hi.1 hi.2]
  · rw [setBit, splice_outside h, splice_outside (by omega), setBit, update_apply, update_apply,
      splice_outside (by omega)]

theorem bit_congr (h : s (k / 8) = s' (n / 8)) (hmod : k % 8 = n % 8) : bit s k = bit s' n := by
  rw [bit, bit, h, hmod]

theorem bit_shift {off : ℕ} : bit (fun i ↦ s (off + i)) n = bit s (8 * off + n) := by
  have hdiv : off + n / 8 = (8 * off + n) / 8 := by omega
  exact bit_congr (congrArg s hdiv) (by omega)

theorem bit_of_zero (h : s (n / 8) = 0) : bit s n = false := by
  rw [bit, h]
  simp

theorem bit_of_full (h : s (n / 8) = 0xFF) : bit s n = true := by
  have hlt : n % 8 < 8 := Nat.mod_lt _ (by decide)
  have hmask : (255 : ℕ) = 2 ^ 8 - 1 := by decide
  rw [bit, h]
  show Nat.testBit 255 (n % 8) = true
  rw [hmask, Nat.testBit_two_pow_sub_one]
  exact decide_eq_true hlt

theorem and_mask_ne_zero {b : UInt8} {j : ℕ} (hj : j < 8) :
    b &&& UInt8.ofNat (1 <<< j) ≠ 0 ↔ b.toNat.testBit j = true := by
  have hzero : b &&& UInt8.ofNat (1 <<< j) = 0 ↔ b.toNat &&& 2 ^ j = 0 := by
    rw [← UInt8.toNat_inj, UInt8.toNat_and, toNat_mask hj]
    rfl
  rw [Ne, hzero, Nat.and_two_pow]
  cases b.toNat.testBit j with
  | true => simp
  | false => simp

end GenericFs.Library.Bitmap
