import Mathlib.Tactic

namespace GenericFs.Library.Store

open Function

variable {α : Type}

/-- The store `s` with the `n` cells from `off` on replaced by `f 0, f 1, ...`. -/
def splice (s : ℕ → α) (off n : ℕ) (f : ℕ → α) : ℕ → α :=
  fun k ↦ if off ≤ k ∧ k < off + n then f (k - off) else s k

variable {s : ℕ → α} {off off' n n' k : ℕ} {f g : ℕ → α}

theorem splice_inside (h : off ≤ k) (h' : k < off + n) : splice s off n f k = f (k - off) :=
  if_pos ⟨h, h'⟩

@[simp] theorem splice_add (h : k < n) : splice s off n f (off + k) = f k := by
  rw [splice_inside (by omega) (by omega), Nat.add_sub_cancel_left]

theorem splice_outside (h : k < off ∨ off + n ≤ k) : splice s off n f k = s k :=
  if_neg (by omega)

theorem splice_congr (h : ∀ k < n, f k = g k) : splice s off n f = splice s off n g := by
  funext k
  simp only [splice]
  split
  · exact h _ (by omega)
  · rfl

theorem splice_update {b : α} {s' : ℕ → α} (h : k < n) :
    splice s off n (update (splice s' 0 n fun i ↦ s (off + i)) k b) = update s (off + k) b := by
  funext i
  by_cases hi : off ≤ i ∧ i < off + n
  · rw [splice_inside hi.1 hi.2]
    by_cases hk : i = off + k
    · subst hk
      rw [Nat.add_sub_cancel_left, update_self, update_self]
    · have hne : i - off ≠ k := by omega
      have hin : i - off < 0 + n := by omega
      rw [update_of_ne hne, update_of_ne hk, splice_inside (Nat.zero_le _) hin]
      congr 1
      omega
  · have hne : i ≠ off + k := by omega
    rw [splice_outside (by omega), update_of_ne hne]

def ofList [Inhabited α] (l : List α) : ℕ → α := fun k ↦ l.getD k default

def slice (s : ℕ → α) (off n : ℕ) : List α := (List.range n).map fun k ↦ s (off + k)

@[simp] theorem length_slice : (slice s off n).length = n := by simp [slice]

@[simp] theorem slice_zero : slice s off 0 = [] := rfl

theorem slice_succ : slice s off (n + 1) = slice s off n ++ [s (off + n)] := by
  simp [slice, List.range_succ]

theorem slice_succ_left : slice s off (n + 1) = s off :: slice s (off + 1) n := by
  simp only [slice, List.range_succ_eq_map, List.map_cons, List.map_map, Nat.add_zero]
  congr 1
  refine List.map_congr_left fun k _ ↦ ?_
  simp only [Function.comp_apply]
  congr 1
  omega

@[simp] theorem getElem_slice (h : k < (slice s off n).length) :
    (slice s off n)[k] = s (off + k) := by simp [slice]

theorem slice_congr {s' : ℕ → α} (h : ∀ k < n, s (off + k) = s' (off' + k)) :
    slice s off n = slice s' off' n :=
  List.map_congr_left fun k hk ↦ h k (List.mem_range.mp hk)

theorem take_slice : (slice s off n).take k = slice s off (min k n) := by
  apply List.ext_getElem <;> simp

theorem drop_slice : (slice s off n).drop k = slice s (off + k) (n - k) := by
  apply List.ext_getElem <;> simp [Nat.add_assoc]

/-- A natural number kept in `w` cells, least significant byte first. -/
def word (w : ℕ) (s : ℕ → UInt8) (off : ℕ) : ℕ :=
  match w with
  | 0 => 0
  | w + 1 => (s off).toNat + 256 * word w s (off + 1)

def wordBytes (v : ℕ) : ℕ → UInt8 := fun k ↦ UInt8.ofNat (v / 256 ^ k)

theorem word_congr {w : ℕ} {s s' : ℕ → UInt8} {off off' : ℕ}
    (h : ∀ k < w, s (off + k) = s' (off' + k)) : word w s off = word w s' off' := by
  induction w generalizing off off' with
  | zero => rfl
  | succ w ih =>
    have h0 := h 0 (by omega)
    simp only [Nat.add_zero] at h0
    have ht : word w s (off + 1) = word w s' (off' + 1) := ih fun k hk ↦ by
      simpa only [Nat.add_assoc, Nat.add_comm 1] using h (k + 1) (by omega)
    simp only [word, h0, ht]

theorem word_wordBytes_shift (w v i : ℕ) : word w (wordBytes v) i = v / 256 ^ i % 256 ^ w := by
  induction w generalizing i with
  | zero => simp [word, Nat.mod_one]
  | succ w ih =>
    have hb : (UInt8.ofNat (v / 256 ^ i)).toNat = v / 256 ^ i % 256 := by simp
    rw [word, ih, wordBytes, hb, pow_succ' 256 w, Nat.mod_mul, pow_succ, Nat.div_div_eq_div_mul]

theorem word_wordBytes {w v : ℕ} (h : v < 256 ^ w) : word w (wordBytes v) 0 = v := by
  rw [word_wordBytes_shift, pow_zero, Nat.div_one, Nat.mod_eq_of_lt h]

theorem word_lt (w : ℕ) (s : ℕ → UInt8) (off : ℕ) : word w s off < 256 ^ w := by
  induction w generalizing off with
  | zero => exact Nat.one_pos
  | succ w ih =>
    have hbyte := (s off).toNat_lt
    have hrest := ih (off + 1)
    rw [word, pow_succ]
    omega

theorem wordBytes_word {w k : ℕ} {s : ℕ → UInt8} {off : ℕ} (h : k < w) :
    wordBytes (word w s off) k = s (off + k) := by
  induction w generalizing off k with
  | zero => omega
  | succ w ih =>
    have hbyte := (s off).toNat_lt
    rw [word]
    cases k with
    | zero =>
      have hlow : UInt8.ofNat ((s off).toNat + 256 * word w s (off + 1)) = s off := by
        apply UInt8.toNat_inj.mp
        rw [UInt8.toNat_ofNat']
        omega
      rwa [wordBytes, pow_zero, Nat.div_one]
    | succ k =>
      have hhigh : ((s off).toNat + 256 * word w s (off + 1)) / 256 ^ (k + 1) =
          word w s (off + 1) / 256 ^ k := by
        rw [pow_succ', ← Nat.div_div_eq_div_mul]
        congr 1
        omega
      rw [wordBytes, hhigh, ← wordBytes, ih (by omega), Nat.add_assoc, Nat.add_comm 1]

theorem word_splice_wordBytes {w v : ℕ} {s : ℕ → UInt8} {off : ℕ} (h : v < 256 ^ w) :
    word w (splice s off w (wordBytes v)) off = v := by
  have hbytes : word w (splice s off w (wordBytes v)) off = word w (wordBytes v) 0 :=
    word_congr fun k hk ↦ by rw [splice_add hk, Nat.zero_add]
  rw [hbytes, word_wordBytes h]

end GenericFs.Library.Store
