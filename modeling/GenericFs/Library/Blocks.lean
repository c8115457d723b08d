import Mathlib.Tactic
import Mathlib.Data.List.GetD

namespace GenericFs.Library.Blocks

variable {α : Type} {l p : List α} {off k : ℕ} {d : α}

/-- The list with `p` written over it from `off` on. -/
def patch (l : List α) (off : ℕ) (p : List α) : List α := l.take off ++ p ++ l.drop (off + p.length)

theorem length_patch (h : off + p.length ≤ l.length) : (patch l off p).length = l.length := by
  simp only [patch, List.length_append, List.length_take, List.length_drop]
  omega

theorem getD_patch_inside (h : off ≤ l.length) (hk : k < p.length) :
    (patch l off p).getD (off + k) d = p.getD k d := by
  have hlen : (l.take off).length = off := List.length_take_of_le h
  rw [patch, List.append_assoc, List.getD_append_right _ _ _ _ (by omega), hlen,
    Nat.add_sub_cancel_left, List.getD_append _ _ _ _ hk]

theorem getD_patch_outside (h : off + p.length ≤ l.length) (hk : k < off ∨ off + p.length ≤ k) :
    (patch l off p).getD k d = l.getD k d := by
  have hlen : (l.take off).length = off := List.length_take_of_le (by omega)
  rw [patch, List.append_assoc]
  rcases hk with hk | hk
  · rw [List.getD_append _ _ _ _ (by omega), List.getD_eq_getElem?_getD, List.getD_eq_getElem?_getD,
      List.getElem?_take_of_lt hk]
  · rw [List.getD_append_right _ _ _ _ (by omega), List.getD_append_right _ _ _ _ (by omega), hlen,
      List.getD_eq_getElem?_getD, List.getD_eq_getElem?_getD, List.getElem?_drop]
    congr 2
    omega

/-- Blocks of `n` that lie behind each other do not overlap. -/
theorem block_apart {n b c i : ℕ} (hi : i < n) (hbc : c ≠ b) :
    c * n + i < b * n ∨ b * n + n ≤ c * n + i := by
  rcases Nat.lt_or_gt_of_ne hbc with h | h
  · left
    calc c * n + i < c * n + n := by omega
      _ = (c + 1) * n := by rw [Nat.add_mul, Nat.one_mul]
      _ ≤ b * n := Nat.mul_le_mul_right n h
  · right
    calc b * n + n = (b + 1) * n := by rw [Nat.add_mul, Nat.one_mul]
      _ ≤ c * n := Nat.mul_le_mul_right n h
      _ ≤ c * n + i := Nat.le_add_right _ _

theorem block_end_le {n b count : ℕ} (hb : b < count) : b * n + n ≤ n * count := by
  calc b * n + n = (b + 1) * n := by rw [Nat.add_mul, Nat.one_mul]
    _ ≤ count * n := Nat.mul_le_mul_right n hb
    _ = n * count := Nat.mul_comm _ _

end GenericFs.Library.Blocks
