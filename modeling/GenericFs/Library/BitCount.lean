import Mathlib.Data.Nat.Count
import GenericFs.Library.Bitmap

namespace GenericFs.Library.Bitmap

/-- How many of the `n` bits from number `off` on are set. -/
def setBits (s : ℕ → UInt8) (off n : ℕ) : ℕ := Nat.count (fun k ↦ bit s (off + k) = true) n

/-- How many of the `n` bits from number `off` on are clear. -/
def clearBits (s : ℕ → UInt8) (off n : ℕ) : ℕ := Nat.count (fun k ↦ bit s (off + k) = false) n

variable {s s' : ℕ → UInt8} {off off' m n k j : ℕ}

theorem byte_congr (h : ∀ j < 8, bit s (8 * n + j) = bit s' (8 * k + j)) : s n = s' k := by
  rw [← UInt8.toNat_inj]
  apply Nat.eq_of_testBit_eq
  intro j
  by_cases hj : j < 8
  · have hdiv : ∀ i, (8 * i + j) / 8 = i := fun i ↦ by omega
    have hmod : ∀ i, (8 * i + j) % 8 = j := fun i ↦ by omega
    have hbit := h j hj
    rwa [bit, bit, hdiv, hmod, hdiv, hmod] at hbit
  · have hlarge : 2 ^ 8 ≤ 2 ^ j := Nat.pow_le_pow_right (by decide) (not_lt.mp hj)
    rw [Nat.testBit_lt_two_pow ((s n).toNat_lt.trans_le hlarge),
      Nat.testBit_lt_two_pow ((s' k).toNat_lt.trans_le hlarge)]

/-- The bits of a store of bytes are all that there is in it. -/
theorem ext_bits (h : ∀ j, bit s j = bit s' j) : s = s' :=
  funext fun i ↦ byte_congr fun j _ ↦ h (8 * i + j)

theorem setBits_add : setBits s off (m + n) = setBits s off m + setBits s (off + m) n := by
  simp only [setBits, Nat.count_add, Nat.add_assoc]

theorem setBits_add_clearBits : setBits s off n + clearBits s off n = n := by
  induction n with
  | zero => rfl
  | succ n ih =>
    rw [setBits, clearBits] at ih ⊢
    rw [Nat.count_succ, Nat.count_succ]
    cases bit s (off + n) with
    | true =>
      simp only [↓reduceIte, Bool.true_eq_false]
      omega
    | false =>
      simp only [↓reduceIte, Bool.false_eq_true]
      omega

theorem setBits_congr (h : ∀ k < n, bit s (off + k) = bit s' (off' + k)) :
    setBits s off n = setBits s' off' n := by
  induction n with
  | zero => rfl
  | succ n ih =>
    have hrest := ih fun k hk ↦ h k (by omega)
    rw [setBits, setBits] at hrest ⊢
    rw [Nat.count_succ, Nat.count_succ, hrest, h n (by omega)]

theorem setBits_eq_zero (h : ∀ k < n, bit s (off + k) = false) : setBits s off n = 0 := by
  rw [setBits, Nat.count_iff_forall_not]
  intro k hk hset
  rw [h k hk] at hset
  contradiction

theorem setBits_below (hm : m ≤ n) (h : ∀ k < n, bit s (off + k) = decide (k < m)) :
    setBits s off n = m := by
  obtain ⟨d, rfl⟩ := Nat.exists_eq_add_of_le hm
  have hclear : clearBits s off m = 0 := by
    rw [clearBits, Nat.count_iff_forall_not]
    intro k hk hclear
    rw [h k (by omega), decide_eq_true hk] at hclear
    contradiction
  have hrest : setBits s (off + m) d = 0 := by
    apply setBits_eq_zero
    intro k hk
    rw [Nat.add_assoc, h _ (by omega)]
    exact decide_eq_false (by omega)
  have hsum := @setBits_add_clearBits s off m
  rw [setBits_add, hrest]
  omega

theorem exists_clear_bit (h : 0 < clearBits s off n) : ∃ k < n, bit s (off + k) = false :=
  Nat.count_ne_iff_exists.mp h.ne'

theorem setBits_setBit_outside (h : j < off ∨ off + n ≤ j) :
    setBits (setBit s j) off n = setBits s off n := by
  apply setBits_congr
  intro k hk
  have hne : off + k ≠ j := by omega
  rw [bit_setBit, decide_eq_false hne, Bool.or_false]

/-- Setting a clear bit makes one more that is set. -/
theorem setBits_setBit (hk : k < n) (h : bit s (off + k) = false) :
    setBits (setBit s (off + k)) off n = setBits s off n + 1 := by
  obtain ⟨d, rfl⟩ := Nat.exists_eq_add_of_lt hk
  have hone : ∀ s' : ℕ → UInt8, setBits s' (off + k) 1 = if bit s' (off + k) = true then 1 else 0 :=
    fun _ ↦ Nat.count_one _
  have hset : bit (setBit s (off + k)) (off + k) = true := by
    rw [bit_setBit, decide_eq_true rfl, Bool.or_true]
  have hbefore : setBits (setBit s (off + k)) off k = setBits s off k :=
    setBits_setBit_outside (.inr le_rfl)
  have hbehind : setBits (setBit s (off + k)) (off + k + 1) d = setBits s (off + k + 1) d :=
    setBits_setBit_outside (.inl (by omega))
  have hparts : k + d + 1 = k + (1 + d) := by omega
  rw [hparts]
  simp only [setBits_add, hone, hset, h, hbefore, hbehind, ↓reduceIte, Bool.false_eq_true]
  omega

theorem clearBits_setBit (hk : k < n) (h : bit s (off + k) = false) :
    clearBits (setBit s (off + k)) off n + 1 = clearBits s off n := by
  have hset := setBits_setBit hk h
  have hsum := @setBits_add_clearBits s off n
  have hsum' := @setBits_add_clearBits (setBit s (off + k)) off n
  omega

/-- The set bits of the bytes that follow each other. -/
theorem setBits_byte :
    setBits s (8 * k) 8 = Nat.count (fun j ↦ (s k).toNat.testBit j = true) 8 := by
  have hbit : ∀ j < 8, bit s (8 * k + j) = (s k).toNat.testBit j := by
    intro j hj
    have hdiv : (8 * k + j) / 8 = k := by omega
    have hmod : (8 * k + j) % 8 = j := by omega
    rw [bit, hdiv, hmod]
  rw [setBits, Nat.count_eq_card_filter_range, Nat.count_eq_card_filter_range]
  congr 1
  apply Finset.filter_congr
  intro j hj
  rw [hbit j (Finset.mem_range.mp hj)]

end GenericFs.Library.Bitmap
