import GenericFs.Spica.Extents
import GenericFs.Spica.Results

namespace GenericFs.Spica

open GenericFs.Library Cells Ensuring Workspace

namespace Text

variable {t : Text} {length : ℤ} {pad : UInt8} {n : ℕ}

@[simp] theorem length_left : (t.left length pad).length = length.toNat := by
  rw [left, List.length_append, List.length_take, List.length_replicate]
  omega

@[simp] theorem length_right : (t.right length pad).length = length.toNat := by
  rw [right, List.length_append, List.length_drop, List.length_replicate]
  omega

@[simp] theorem length_center : (t.center length pad).length = length.toNat := by
  simp only [center, List.length_append, List.length_take, List.length_replicate]
  omega

theorem left_append_right (h : n ≤ t.length) :
    t.left n pad ++ t.right (t.length - n : ℕ) pad = t := by
  rw [left, right, Int.toNat_natCast, Int.toNat_natCast, Nat.sub_eq_zero_of_le h,
    Nat.sub_eq_zero_of_le (Nat.sub_le _ _), List.replicate_zero, List.append_nil, List.nil_append,
    Nat.sub_sub_self h, List.take_append_drop]

theorem left_eq_append (h : t.length ≤ length) :
    t.left length pad = t ++ List.replicate (length.toNat - t.length) pad := by
  rw [left, List.take_of_length_le (by omega)]

theorem right_eq_append (h : t.length ≤ length) :
    t.right length pad = List.replicate (length.toNat - t.length) pad ++ t := by
  have hzero : t.length - length.toNat = 0 := by omega
  rw [right, hzero, List.drop_zero]

theorem center_eq_append (h : t.length ≤ length) : t.center length pad =
    List.replicate ((length.toNat - t.length) / 2) pad ++ t ++
      List.replicate (length.toNat - t.length - (length.toNat - t.length) / 2) pad := by
  rw [center, List.take_of_length_le (by omega)]

theorem rdropWhile_append_replicate :
    (t ++ List.replicate n pad).rdropWhile (· = pad) = t.rdropWhile (· = pad) := by
  induction n with
  | zero => rw [List.replicate_zero, List.append_nil]
  | succ n ih =>
    rw [List.replicate_succ', ← List.append_assoc, List.rdropWhile_concat_pos _ _ _ (by simp), ih]

theorem dropWhile_replicate_append :
    (List.replicate n pad ++ t).dropWhile (· = pad) = t.dropWhile (· = pad) := by
  induction n with
  | zero => rw [List.replicate_zero, List.nil_append]
  | succ n ih =>
    rw [List.replicate_succ, List.cons_append, List.dropWhile_cons_of_pos (by simp), ih]

theorem rdropWhile_eq_self (h : t.getLast? ≠ some pad) : t.rdropWhile (· = pad) = t := by
  rw [List.rdropWhile_eq_self_iff]
  intro hne
  rw [List.getLast?_eq_some_getLast hne, Ne, Option.some_inj] at h
  simpa using h

theorem dropWhile_eq_self (h : t.head? ≠ some pad) : t.dropWhile (· = pad) = t := by
  cases t with
  | nil => rfl
  | cons c t =>
    rw [List.head?_cons, Ne, Option.some_inj] at h
    exact List.dropWhile_cons_of_neg (by simpa using h)

theorem strip_append_replicate (h : t.getLast? ≠ some pad) :
    strip (t ++ List.replicate n pad) modeT pad = t := by
  rw [strip, if_neg (by decide), if_pos (.inl rfl), rdropWhile_append_replicate,
    rdropWhile_eq_self h]

theorem strip_replicate_append (h : t.head? ≠ some pad) :
    strip (List.replicate n pad ++ t) modeL pad = t := by
  rw [strip, if_pos (.inl rfl), if_neg (by decide), dropWhile_replicate_append, dropWhile_eq_self h]

theorem strip_both {i j : ℕ} (hlast : t.getLast? ≠ some pad) (hhead : t.head? ≠ some pad) :
    strip (List.replicate i pad ++ t ++ List.replicate j pad) modeB pad = t := by
  rw [strip, if_pos (.inr rfl), if_pos (.inr rfl), rdropWhile_append_replicate]
  rcases List.eq_nil_or_concat' t with rfl | ⟨u, c, rfl⟩
  · rw [List.append_nil, ← List.nil_append (List.replicate i pad), rdropWhile_append_replicate]
    rfl
  · have hkeep : (List.replicate i pad ++ (u ++ [c])).getLast? ≠ some pad := by
      rw [← List.append_assoc, List.getLast?_concat]
      rwa [List.getLast?_concat] at hlast
    rw [rdropWhile_eq_self hkeep, dropWhile_replicate_append, dropWhile_eq_self hhead]

end Text

/-- The new string has `max n 0` characters, and its buffer just holds them. -/
def Fills (e : Except Fault Produced) (s : Text) (n : ℤ) : Prop :=
  ∃ u, Makes e s False u ∧ 0 ∉ u ∧ (u.length : ℤ) = max n 0

/-- Stripping undoes padding. -/
structure Unpads (s : Text) (pad : UInt8) (n : ℤ) : Prop where
  left : Fills (left (image s) n pad) s n
  right : Fills (right (image s) n pad) s n
  center : Fills (Workspace.center (image s) n pad) s n
  parts : 0 ≤ n → n ≤ s.length → ∃ u v, Makes (Workspace.left (image s) n pad) s False u ∧
    Makes (Workspace.right (image s) (narrow (s.length - n.toNat)) pad) s False v ∧ u ++ v = s
  stripLeft : s.length ≤ n → s.getLast? ≠ some pad → ∃ u,
    Makes (Workspace.left (image s) n pad) s False u ∧ Makes (strip (image u) modeT pad) u False s
  stripRight : s.length ≤ n → s.head? ≠ some pad → ∃ u,
    Makes (Workspace.right (image s) n pad) s False u ∧ Makes (strip (image u) modeL pad) u False s
  stripCenter : s.length ≤ n → s.getLast? ≠ some pad → s.head? ≠ some pad → ∃ i j u,
    Makes (Workspace.center (image s) n pad) s False u ∧ i ≤ j + 1 ∧ j ≤ i + 1 ∧
      u = List.replicate i pad ++ s ++ List.replicate j pad ∧
        Makes (strip (image u) modeB pad) u False s

/-- An `int` counts the characters of the string, and the buffers of its parts and of the result. -/
def Paddable (s : Text) (n : ℤ) : Prop :=
  n < 0 ∨ s.length ≤ intMax ∧ n < intMax ∧ (n = 0 → s.length < intMax)

section Padding

variable {s : Text} {pad : UInt8} {n : ℤ}

theorem center_makes (hs : 0 ∉ s) (hn : 0 < n → s.length ≤ intMax ∧ n < intMax) :
    Makes (Workspace.center (image s) n pad) s False (s.center n pad) := by
  rcases le_or_gt n 0 with hle | hpos
  · exact .inl ⟨if_pos hle, by simp [Text.center, Int.toNat_of_nonpos hle]⟩
  obtain ⟨hlen, hmax⟩ := hn hpos
  rw [Workspace.center, if_neg (by omega), strlen_image hs, ok_bind, narrow_eq hlen]
  dsimp only
  split
  case isTrue hle =>
    rw [Text.center_eq_left hle]
    exact left_makes hs hn
  case isFalse hgt => exact .inr (.inl (centerWide_image hs (by omega) hmax))

theorem ensures_right (hs : 0 ∉ s) (hpos : 0 < n) :
    Ensures (right (image s) n pad) fun _ ↦ s.length ≤ intMax ∧ n < intMax := by
  have hmax : intMax = 2147483647 := rfl
  have hnarrow := narrow_le (m := s.length)
  have hint := narrow_isInt (m := s.length)
  intro p h
  rw [right, if_neg (by omega), strlen_image hs, ok_bind] at h
  dsimp only at h
  split at h
  case isTrue hlt =>
    obtain ⟨k, hk⟩ := Int.eq_ofNat_of_zero_le (by omega : 0 ≤ narrow s.length - n)
    have hdrop : 0 ∉ s.drop k := fun h ↦ hs (List.mem_of_mem_drop h)
    obtain ⟨size, hsize, h⟩ := exists_of_bind_ok h
    obtain ⟨temp, htemp, h⟩ := exists_of_bind_ok h
    rw [hk, int_natCast (by rw [IsInt] at hint; omega), ok_bind, pointer_image (by omega), ok_bind,
      strcpy_image hdrop] at h
    obtain ⟨temp₁, htemp₁, -⟩ := exists_of_bind_ok h
    obtain ⟨hsize, -, hfits⟩ := ensures_int size hsize
    have hlength := ensures_newChars temp htemp
    obtain ⟨-, -, hroom⟩ := ensures_put temp₁ htemp₁
    rw [List.length_append, List.length_drop, List.length_singleton] at hroom
    rw [IsInt] at hint
    omega
  case isFalse hge =>
    obtain ⟨size, hsize, h⟩ := exists_of_bind_ok h
    obtain ⟨temp, htemp, h⟩ := exists_of_bind_ok h
    obtain ⟨padding, -, h⟩ := exists_of_bind_ok h
    obtain ⟨temp₁, htemp₁, h⟩ := exists_of_bind_ok h
    obtain ⟨start, hstart, h⟩ := exists_of_bind_ok h
    rw [strcpy_image hs] at h
    obtain ⟨temp₂, htemp₂, -⟩ := exists_of_bind_ok h
    obtain ⟨hsize, -, hfits⟩ := ensures_int size hsize
    obtain ⟨hstart, -⟩ := ensures_int start hstart
    have hlength := ensures_newChars temp htemp
    have hlength₁ := ensures_memset temp₁ htemp₁
    obtain ⟨-, -, hroom⟩ := ensures_put temp₂ htemp₂
    rw [List.length_append, List.length_singleton] at hroom
    rw [IsInt] at hint
    omega

theorem Unpads.paddable (hs : 0 ∉ s) (h : Unpads s pad n) : Paddable s n := by
  have hmax : intMax = 2147483647 := rfl
  rcases lt_trichotomy n 0 with hneg | rfl | hpos
  · exact .inl hneg
  · obtain ⟨u, v, hleft, hright, happend⟩ := h.parts le_rfl (Int.natCast_nonneg _)
    have hempty : Workspace.left (image s) 0 pad = .ok .empty := if_pos le_rfl
    rw [hempty] at hleft
    rw [hleft.eq_nil, List.nil_append] at happend
    rw [happend, Int.toNat_zero, Nat.sub_zero] at hright
    rcases le_or_gt (narrow s.length) 0 with hle | hgt
    · have hempty : Workspace.right (image s) (narrow s.length) pad = .ok .empty := if_pos hle
      rw [hempty] at hright
      rw [hright.eq_nil]
      exact .inr ⟨by decide, by decide, fun _ ↦ by decide⟩
    · obtain ⟨p, hp, -⟩ := hright.exists_workspace
      obtain ⟨hlen, hlt⟩ := ensures_right hs hgt p hp
      rw [narrow_eq hlen] at hlt
      exact .inr ⟨hlen, by decide, fun _ ↦ by omega⟩
  · obtain ⟨u, hright, -⟩ := h.right
    obtain ⟨p, hp, -⟩ := hright.exists_workspace
    obtain ⟨hlen, hlt⟩ := ensures_right hs hpos p hp
    exact .inr ⟨hlen, hlt, fun hzero ↦ absurd hzero hpos.ne'⟩

theorem strip_makes_text {u : Text} {mode : UInt8} (hu : 0 ∉ u) (hstrip : u.strip mode pad = s)
    (hs : s.length < intMax) : Makes (strip (image u) mode pad) u False s := by
  rw [← hstrip] at hs ⊢
  exact strip_makes hu hs

/-- The padded string is as long as asked for, and stripping gives the string back, where
an `int` counts the characters and those of the buffers. -/
theorem unpads_iff (hs : 0 ∉ s) (hpad : pad ≠ 0) : Unpads s pad n ↔ Paddable s n := by
  refine ⟨Unpads.paddable hs, fun h ↦ ?_⟩
  have hn : 0 < n → s.length ≤ intMax ∧ n < intMax := fun hpos ↦ by
    obtain hneg | ⟨hlen, hlt, -⟩ := h
    · omega
    · exact ⟨hlen, hlt⟩
  have hshort : s.length ≤ n → s.length < intMax := fun hle ↦ by
    obtain hneg | ⟨hlen, hlt, hzero⟩ := h <;> omega
  have hleft : Makes (left (image s) n pad) s False (s.left n pad) := left_makes hs hn
  have hright : Makes (right (image s) n pad) s False (s.right n pad) := right_makes hs hn
  have hcenter : Makes (Workspace.center (image s) n pad) s False (s.center n pad) :=
    center_makes hs hn
  constructor
  · refine ⟨_, hleft, Text.left_clean hs hpad, ?_⟩
    rw [Text.length_left]
    omega
  · refine ⟨_, hright, Text.right_clean hs hpad, ?_⟩
    rw [Text.length_right]
    omega
  · refine ⟨_, hcenter, Text.center_clean hs hpad, ?_⟩
    rw [Text.length_center]
    omega
  · intro hzero hle
    obtain ⟨k, rfl⟩ := Int.eq_ofNat_of_zero_le hzero
    obtain hneg | ⟨hlen, hlt, hempty⟩ := h
    · omega
    rw [Int.toNat_natCast, narrow_eq (by omega)]
    exact ⟨_, _, hleft, right_makes hs fun hpos ↦ ⟨hlen, by omega⟩,
      Text.left_append_right (by omega)⟩
  · intro hle hlast
    have hstrip : (s.left n pad).strip modeT pad = s := by
      rw [Text.left_eq_append hle, Text.strip_append_replicate hlast]
    exact ⟨_, hleft, strip_makes_text (Text.left_clean hs hpad) hstrip (hshort hle)⟩
  · intro hle hhead
    have hstrip : (s.right n pad).strip modeL pad = s := by
      rw [Text.right_eq_append hle, Text.strip_replicate_append hhead]
    exact ⟨_, hright, strip_makes_text (Text.right_clean hs hpad) hstrip (hshort hle)⟩
  · intro hle hlast hhead
    have hstrip : (s.center n pad).strip modeB pad = s := by
      rw [Text.center_eq_append hle, Text.strip_both hlast hhead]
    exact ⟨_, _, _, hcenter, by omega, by omega, Text.center_eq_append hle,
      strip_makes_text (Text.center_clean hs hpad) hstrip (hshort hle)⟩

theorem unpads_iff_two : Unpads [72, 105] 32 5 :=
  (unpads_iff (by decide) (by decide)).mpr
    (.inr ⟨by decide, by decide, fun h ↦ absurd h (by decide)⟩)

/-- The buffer of a result of as many characters as an `int` counts has no place for its end. -/
theorem not_unpads : ¬∀ (s : Text) (pad : UInt8) (n : ℤ), 0 ∉ s → pad ≠ 0 → IsInt n →
    Unpads s pad n := by
  intro hclaim
  have h := hclaim [] 32 intMax List.not_mem_nil (by decide) (by decide)
  obtain hneg | ⟨-, hlt, -⟩ := h.paddable List.not_mem_nil
  · exact absurd hneg (by decide)
  · exact lt_irrefl _ hlt

end Padding

end GenericFs.Spica
