import Mathlib.Tactic

namespace GenericFs.Library

/-- The elements of an allocated array of characters; what was not written yet
is `none`. -/
abbrev Cells (α : Type) := List (Option α)

namespace Cells

variable {α : Type}

def fresh (n : ℕ) : Cells α := List.replicate n none

/-- The array after characters were stored in a row from index `k` on; `none`
when they do not lie inside it. -/
def write (a : Cells α) (k : ℕ) (t : List α) : Option (Cells α) :=
  if k + t.length ≤ a.length then some (a.take k ++ t.map some ++ a.drop (k + t.length)) else none

/-- The first `n` characters of the array; `none` when it has not got them all. -/
def read : Cells α → ℕ → Option (List α)
  | _, 0 => some []
  | some c :: a, n + 1 => (read a n).map (c :: ·)
  | _, _ => none

theorem read_append {t : List α} {a : Cells α} {n : ℕ} (h : n ≤ t.length) :
    read (t.map some ++ a) n = some (t.take n) := by
  induction t generalizing n with
  | nil =>
    obtain rfl : n = 0 := by simpa using h
    simp [read]
  | cons c t ih =>
    cases n with
    | zero => simp [read]
    | succ n => simp [read, ih (Nat.le_of_succ_le_succ h)]

section Terminated

variable [Zero α]

/-- The array that just holds the text and the zero behind it. -/
def image (t : List α) : Cells α := t.map some ++ [some 0]

variable [DecidableEq α]

/-- The characters before the first zero; `none` when the array ends, or holds
something that was not written, before there is one. -/
def cstring : Cells α → Option (List α)
  | some c :: a => if c = 0 then some [] else (cstring a).map (c :: ·)
  | _ => none

variable {t : List α} {a b : Cells α} {n k : ℕ}

theorem cstring_append (h : 0 ∉ t) : cstring (t.map some ++ some 0 :: a) = some t := by
  induction t with
  | nil => simp [cstring]
  | cons c t ih =>
    rw [List.mem_cons, not_or] at h
    simp [cstring, ih h.2, Ne.symm h.1]

@[simp] theorem cstring_image (h : 0 ∉ t) : cstring (image t) = some t := cstring_append h

omit [DecidableEq α] in
@[simp] theorem length_image : (image t).length = t.length + 1 := by simp [image]

omit [DecidableEq α] in
theorem drop_image (h : k ≤ t.length) : (image t).drop k = image (t.drop k) := by
  rw [image, image, List.drop_append_of_le_length (by simpa using h), List.map_drop]

omit [DecidableEq α] in
theorem read_image (h : n ≤ t.length) : read (image t) n = some (t.take n) := read_append h

end Terminated

section Filled

variable {t u : List α} {k n : ℕ}

/-- The array that holds the text and room behind it that was not written yet. -/
def filled (t : List α) (n : ℕ) : Cells α := t.map some ++ fresh n

theorem fresh_eq : (fresh n : Cells α) = filled [] n := rfl

theorem image_eq [Zero α] : image t = filled (t ++ [0]) 0 := by simp [image, filled, fresh]

@[simp] theorem length_filled : (filled t n).length = t.length + n := by simp [filled, fresh]

theorem drop_filled : (filled t n).drop k = filled (t.drop k) (n - (k - t.length)) := by
  simp [filled, fresh, List.drop_append, List.map_drop]

theorem take_filled (hk : k ≤ t.length) : (filled t n).take k = (t.take k).map some := by
  rw [filled, List.take_append_of_le_length (by simpa using hk), List.map_take]

theorem write_filled (hk : k ≤ t.length) (hn : k + u.length ≤ t.length + n) :
    write (filled t n) k u =
      some (filled (t.take k ++ u ++ t.drop (k + u.length)) (n - (k + u.length - t.length))) := by
  rw [write, if_pos (by simpa using hn), take_filled hk, drop_filled]
  simp [filled]

theorem write_behind {d : ℕ} (hn : u.length + d = n) :
    write (filled t n) t.length u = some (filled (t ++ u) d) := by
  rw [write_filled le_rfl (by omega), List.take_length, List.drop_eq_nil_of_le (by omega),
    List.append_nil, Nat.add_sub_cancel_left, ← hn, Nat.add_sub_cancel_left]

/-- Storing goes on over the zero behind the text. -/
theorem write_over [Zero α] {d : ℕ} (hu : u ≠ []) (hn : u.length + d = n + 1) :
    write (filled (t ++ [0]) n) t.length u = some (filled (t ++ u) d) := by
  have hlen : 0 < u.length := List.length_pos_iff.mpr hu
  rw [write_filled (by simp) (by simp; omega)]
  have hdrop : (t ++ [0]).drop (t.length + u.length) = [] := List.drop_eq_nil_of_le (by simp; omega)
  rw [hdrop, List.take_left, List.append_nil]
  congr 2
  simp only [List.length_cons, List.length_append, List.length_nil]
  omega

theorem cstring_filled [Zero α] [DecidableEq α] (ht : 0 ∉ t) :
    cstring (filled (t ++ [0]) n) = some t := by
  simpa [filled] using cstring_append ht

theorem write_nil {a : Cells α} (hk : k ≤ a.length) : write a k [] = some a := by
  simp [write, hk]

end Filled

end Cells

end GenericFs.Library
