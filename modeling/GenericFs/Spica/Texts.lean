import GenericFs.Spica.Workspace

namespace GenericFs.Spica

open GenericFs.Library Cells Workspace

/-- What a string is a value of: characters other than the null character. -/
abbrev Text := List UInt8

namespace Text

def left (t : Text) (length : ℤ) (pad : UInt8) : Text :=
  t.take length.toNat ++ List.replicate (length.toNat - t.length) pad

def right (t : Text) (length : ℤ) (pad : UInt8) : Text :=
  List.replicate (length.toNat - t.length) pad ++ t.drop (t.length - length.toNat)

def center (t : Text) (length : ℤ) (pad : UInt8) : Text :=
  let padding := length.toNat - t.length
  List.replicate (padding / 2) pad ++ t.take length.toNat ++
    List.replicate (padding - padding / 2) pad

def copy (t : Text) (count : ℤ) : Text := (List.replicate count.toNat t).flatten

def erase (t : Text) (offset count : ℤ) : Text :=
  if offset < 1 then t
  else t.take (offset - 1).toNat ++ t.drop ((offset - 1).toNat + count.toNat)

/-- There are no characters to erase, and the string itself is the result. -/
def EraseNone (t : Text) (offset count : ℤ) : Prop :=
  offset < 1 ∨ count ≤ 0 ∨ t.length < offset

def insert (t incoming : Text) (offset count : ℤ) : Text :=
  if offset < 1 ∨ t.length < offset - 1 then t
  else t.take (offset - 1).toNat ++ incoming.take count.toNat ++ t.drop (offset - 1).toNat

/-- There is no place or nothing to insert, and the string itself is the result. -/
def InsertNone (t : Text) (offset count : ℤ) : Prop :=
  offset < 1 ∨ count ≤ 0 ∨ t.length < offset - 1

def substr (t : Text) (offset count : ℤ) : Text :=
  if offset < 1 then [] else (t.drop (offset - 1).toNat).take count.toNat

section Clean

variable {t incoming : Text} {pad : UInt8} {length count offset : ℤ}

theorem left_clean (ht : 0 ∉ t) (hpad : pad ≠ 0) : 0 ∉ t.left length pad := by
  simp only [left, List.mem_append, List.mem_replicate, not_or, not_and]
  exact ⟨fun h ↦ ht (List.mem_of_mem_take h), fun _ ↦ hpad.symm⟩

theorem right_clean (ht : 0 ∉ t) (hpad : pad ≠ 0) : 0 ∉ t.right length pad := by
  simp only [right, List.mem_append, List.mem_replicate, not_or, not_and]
  exact ⟨fun _ ↦ hpad.symm, fun h ↦ ht (List.mem_of_mem_drop h)⟩

theorem center_clean (ht : 0 ∉ t) (hpad : pad ≠ 0) : 0 ∉ t.center length pad := by
  simp only [center, List.mem_append, List.mem_replicate, not_or, not_and]
  exact ⟨⟨fun _ ↦ hpad.symm, fun h ↦ ht (List.mem_of_mem_take h)⟩, fun _ ↦ hpad.symm⟩

theorem center_eq_left (h : length ≤ t.length) : t.center length pad = t.left length pad := by
  have hzero : length.toNat - t.length = 0 := by omega
  simp [center, left, hzero]

theorem copy_clean (ht : 0 ∉ t) : 0 ∉ t.copy count := by
  simp only [copy, List.mem_flatten, List.mem_replicate, not_exists, not_and, and_imp]
  rintro _ _ rfl
  exact ht

theorem erase_clean (ht : 0 ∉ t) : 0 ∉ t.erase offset count := by
  rw [erase]
  split
  · exact ht
  · rw [List.mem_append, not_or]
    exact ⟨fun h ↦ ht (List.mem_of_mem_take h), fun h ↦ ht (List.mem_of_mem_drop h)⟩

theorem insert_clean (ht : 0 ∉ t) (hincoming : 0 ∉ incoming) :
    0 ∉ t.insert incoming offset count := by
  rw [insert]
  split
  · exact ht
  · simp only [List.mem_append, not_or]
    exact ⟨⟨fun h ↦ ht (List.mem_of_mem_take h), fun h ↦ hincoming (List.mem_of_mem_take h)⟩,
      fun h ↦ ht (List.mem_of_mem_drop h)⟩

theorem substr_clean (ht : 0 ∉ t) : 0 ∉ t.substr offset count := by
  rw [substr]
  split
  · exact List.not_mem_nil
  · exact fun h ↦ ht (List.mem_of_mem_drop (List.mem_of_mem_take h))

end Clean

end Text

section Arithmetic

variable {x : ℤ} {m n : ℕ}

theorem int_eq (h : IsInt x) : int x = .ok x := if_pos h

theorem int_natCast (h : n ≤ intMax) : int n = .ok (n : ℤ) := by
  have hmax : intMax = 2147483647 := rfl
  exact int_eq ⟨by omega, by omega⟩

theorem int_add (h : m + n ≤ intMax) : int ((m : ℤ) + n) = .ok ((m + n : ℕ) : ℤ) := by
  rw [← Nat.cast_add, int_natCast h]

theorem int_succ (h : n < intMax) : int ((n : ℤ) + 1) = .ok ((n + 1 : ℕ) : ℤ) := int_add h

theorem int_sub (h : n ≤ m) (hm : m ≤ intMax) : int ((m : ℤ) - n) = .ok ((m - n : ℕ) : ℤ) := by
  rw [← Nat.cast_sub h, int_natCast (by omega)]

theorem narrow_eq (h : n ≤ intMax) : narrow n = n := by
  have hmax : intMax = 2147483647 := rfl
  rw [narrow]
  omega

theorem clip : (if (m : ℤ) < n then (m : ℤ) else n) = (min n m : ℕ) := by
  split
  · rw [min_eq_right (by omega)]
  · rw [min_eq_left (by omega)]

end Arithmetic

section Access

variable {t u : Text} {w : Workspace} {c : UInt8} {k n d : ℕ}

@[simp] theorem ok_bind {α β : Type} (a : α) (f : α → Except Fault β) : (Except.ok a >>= f) = f a :=
  rfl

@[simp] theorem newChars_natCast : newChars (n : ℤ) = .ok (filled [] n) := by
  simp [newChars, fresh_eq]

@[simp] theorem strlen_image (ht : 0 ∉ t) : strlen (image t) = .ok t.length := by
  simp [strlen, inside, ht, pure, Except.pure]

theorem pointer_image (h : k ≤ t.length) : pointer (image t) k = .ok (image (t.drop k)) := by
  rw [pointer, if_neg (by simp; omega), Int.toNat_natCast, drop_image h]

theorem put_natCast : put w k t = inside (write w k t) := by
  simp [put]

theorem put_behind (h : u.length + d = n) :
    put (filled t n) (t.length : ℕ) u = .ok (filled (t ++ u) d) := by
  rw [put_natCast, write_behind h, inside]

theorem put_fresh (h : t.length + d = n) : put (filled [] n) 0 t = .ok (filled t d) :=
  put_behind (t := []) h

theorem put_over (hu : u ≠ []) (h : u.length + d = n + 1) :
    put (filled (t ++ [0]) n) (t.length : ℕ) u = .ok (filled (t ++ u) d) := by
  rw [put_natCast, write_over hu h, inside]

theorem put_terminator : put (filled t 1) (t.length : ℕ) [0] = .ok (image t) := by
  rw [image_eq]
  exact put_behind rfl

theorem strcpy_image (ht : 0 ∉ t) {d : ℤ} : strcpy w d (image t) = put w d (t ++ [0]) := by
  rw [strcpy, cstring_image ht, inside, ok_bind]

theorem strncpy_image (ht : 0 ∉ t) (h : n ≤ t.length) :
    strncpy w (image t) n = put w 0 (t.take n) := by
  rw [strncpy, cstring_image ht, inside, ok_bind, Int.toNat_natCast, Nat.sub_eq_zero_of_le h,
    List.replicate_zero, List.append_nil]

theorem memset_natCast {d : ℤ} : memset w d c n = put w d (List.replicate n c) := by
  simp [memset]

theorem put_padded {e : ℕ} (h : u.length + e = n) :
    put (filled (List.replicate d c) n) d u = .ok (filled (List.replicate d c ++ u) e) := by
  have hput := put_behind (t := List.replicate d c) h
  rwa [List.length_replicate] at hput

theorem memset_over : ∃ w, memset (filled (t ++ [0]) d) t.length c d = .ok w ∧
    put w (t.length + d : ℕ) [0] = .ok (image (t ++ List.replicate d c)) := by
  rw [memset_natCast]
  cases d with
  | zero =>
    refine ⟨_, by rw [List.replicate_zero, put_natCast, write_nil (by simp), inside], ?_⟩
    rw [Nat.add_zero, List.replicate_zero, List.append_nil, image_eq]
    exact put_over (by simp) rfl
  | succ d =>
    refine ⟨_, put_over (d := 1) (by simp [List.replicate_succ]) (by simp), ?_⟩
    rw [← put_terminator]
    simp

theorem memcpy_image {d : ℤ} (h : n ≤ t.length) : memcpy w d (image t) n = put w d (t.take n) := by
  simp [memcpy, read_image h, inside]

end Access

/-- What a non-mutating operation on a string with the text `t` comes to: the new
text is `r`, and the string itself is what it returns in the case `self` alone. -/
def Makes (e : Except Fault Produced) (t : Text) (self : Prop) (r : Text) : Prop :=
  e = .ok .empty ∧ r = [] ∨ e = .ok (.made (image r)) ∨ self ∧ e = .ok .same ∧ r = t

namespace Workspace

variable {t u : Text} {c pad : UInt8} {n offset count : ℤ}

theorem left_makes (ht : 0 ∉ t) (hn : 0 < n → t.length ≤ intMax ∧ n < intMax) :
    Makes (left (image t) n pad) t False (t.left n pad) := by
  rcases le_or_gt n 0 with hle | hpos
  · exact .inl ⟨if_pos hle, by simp [Text.left, Int.toNat_of_nonpos hle]⟩
  obtain ⟨m, rfl⟩ := Int.eq_ofNat_of_zero_le hpos.le
  obtain ⟨hlen, hm⟩ := hn hpos
  refine .inr (.inl ?_)
  rw [left, if_neg (by omega), strlen_image ht, ok_bind, narrow_eq hlen, int_succ (by omega)]
  rcases lt_or_ge m t.length with hlt | hge
  · have hput : put (filled [] (m + 1)) 0 (t.take m) = .ok (filled (t.take m) 1) :=
      put_fresh (by rw [List.length_take_of_le hlt.le])
    have hend := put_terminator (t := t.take m)
    rw [List.length_take_of_le hlt.le] at hend
    simp only [Nat.cast_lt, hlt, if_true, newChars_natCast, strncpy_image ht hlt.le, hput, hend,
      ok_bind]
    simp [Text.left, pure, Except.pure, Nat.sub_eq_zero_of_le hlt.le]
  · obtain ⟨d, rfl⟩ := Nat.exists_eq_add_of_le hge
    have hput : put (filled [] (t.length + d + 1)) 0 (t ++ [0]) = .ok (filled (t ++ [0]) d) :=
      put_fresh (by simp; omega)
    obtain ⟨w, hpad, hend⟩ := memset_over (t := t) (c := pad) (d := d)
    simp only [Nat.cast_lt, hge.not_gt, if_false, newChars_natCast, strcpy_image ht, hput,
      int_sub hge (by omega), Nat.add_sub_cancel_left, hpad, hend, ok_bind]
    rw [Text.left, Int.toNat_natCast, List.take_of_length_le hge, Nat.add_sub_cancel_left]
    rfl

theorem right_makes (ht : 0 ∉ t) (hn : 0 < n → t.length ≤ intMax ∧ n < intMax) :
    Makes (right (image t) n pad) t False (t.right n pad) := by
  rcases le_or_gt n 0 with hle | hpos
  · exact .inl ⟨if_pos hle, by simp [Text.right, Int.toNat_of_nonpos hle]⟩
  obtain ⟨m, rfl⟩ := Int.eq_ofNat_of_zero_le hpos.le
  obtain ⟨hlen, hm⟩ := hn hpos
  refine .inr (.inl ?_)
  rw [right, if_neg (by omega), strlen_image ht, ok_bind, narrow_eq hlen, int_succ (by omega)]
  rcases lt_or_ge m t.length with hlt | hge
  · have hdrop : 0 ∉ t.drop (t.length - m) := fun h ↦ ht (List.mem_of_mem_drop h)
    have hput : put (filled [] (m + 1)) 0 (t.drop (t.length - m) ++ [0]) =
        .ok (image (t.drop (t.length - m))) := by
      rw [image_eq]
      exact put_fresh (by simp; omega)
    simp only [Nat.cast_lt, hlt, if_true, newChars_natCast, int_sub hlt.le hlen,
      pointer_image (Nat.sub_le _ _), strcpy_image hdrop, hput, ok_bind]
    simp [Text.right, pure, Except.pure, Nat.sub_eq_zero_of_le hlt.le]
  · obtain ⟨d, rfl⟩ := Nat.exists_eq_add_of_le hge
    have hpad : put (filled [] (t.length + d + 1)) 0 (List.replicate d pad) =
        .ok (filled (List.replicate d pad) (t.length + 1)) :=
      put_fresh (by simp; omega)
    have htext : put (filled (List.replicate d pad) (t.length + 1)) d (t ++ [0]) =
        .ok (image (List.replicate d pad ++ t)) := by
      rw [image_eq, List.append_assoc]
      exact put_padded (by simp)
    simp only [Nat.cast_lt, hge.not_gt, if_false, newChars_natCast, strcpy_image ht,
      int_sub hge (by omega), Nat.add_sub_cancel_left, memset_natCast, hpad, htext, ok_bind]
    rw [Text.right, Int.toNat_natCast, Nat.sub_eq_zero_of_le hge, List.drop_zero,
      Nat.add_sub_cancel_left]
    rfl

theorem centerWide_image (ht : 0 ∉ t) (hlen : t.length < n) (hn : n < intMax) :
    centerWide (image t) n t.length pad = .ok (.made (image (t.center n pad))) := by
  obtain ⟨m, rfl⟩ := Int.eq_ofNat_of_zero_le (by omega : 0 ≤ n)
  obtain ⟨d, rfl⟩ := Nat.exists_eq_add_of_le (by omega : t.length ≤ m)
  have hhalf : ((d : ℤ)).tdiv 2 = (d / 2 : ℕ) := by
    rw [Int.tdiv_eq_ediv_of_nonneg (by omega)]
    rfl
  have hrest : d / 2 ≤ d := Nat.div_le_self d 2
  have hleft : put (filled [] (t.length + d + 1)) 0 (List.replicate (d / 2) pad) =
      .ok (filled (List.replicate (d / 2) pad) (t.length + 1 + (d - d / 2))) :=
    put_fresh (by simp; omega)
  have htext : put (filled (List.replicate (d / 2) pad) (t.length + 1 + (d - d / 2))) (d / 2 : ℕ)
      (t ++ [0]) = .ok (filled ((List.replicate (d / 2) pad ++ t) ++ [0]) (d - d / 2)) := by
    rw [List.append_assoc]
    exact put_padded (by simp)
  obtain ⟨w, hpad, hend⟩ := memset_over (t := List.replicate (d / 2) pad ++ t) (c := pad)
    (d := d - d / 2)
  rw [List.length_append, List.length_replicate] at hpad hend
  rw [show d / 2 + t.length + (d - d / 2) = t.length + d by omega] at hend
  simp only [centerWide, int_sub (Nat.le_add_right _ _) (by omega : t.length + d ≤ intMax),
    Nat.add_sub_cancel_left, hhalf, int_sub hrest (by omega),
    int_succ (by omega : t.length + d < intMax), newChars_natCast, memset_natCast, hleft,
    strcpy_image ht, htext, int_add (by omega : d / 2 + t.length ≤ intMax), ok_bind]
  rw [← memset_natCast, hpad, ok_bind, hend, ok_bind, Text.center, Int.toNat_natCast,
    Nat.add_sub_cancel_left, List.take_of_length_le (Nat.le_add_right _ _)]
  rfl

theorem strcat_filled (ht : 0 ∉ t) (hu : 0 ∉ u) {d e : ℕ} (h : t.length + e = d) :
    strcat (filled (u ++ [0]) d) (image t) = .ok (filled (u ++ t ++ [0]) e) := by
  rw [strcat, cstring_filled hu, inside, ok_bind, strcpy_image ht, List.append_assoc]
  exact put_over (by simp) (by simp; omega)

theorem copyLoop_image (ht : 0 ∉ t) (k : ℕ) {u : Text} (hu : 0 ∉ u) :
    copyLoop (image t) k (filled (u ++ [0]) (k * t.length)) =
      .ok (image (u ++ (List.replicate k t).flatten)) := by
  induction k generalizing u with
  | zero => simp [copyLoop, image_eq]
  | succ k ih =>
    have hut : 0 ∉ u ++ t := by simp [hu, ht]
    rw [copyLoop, strcat_filled ht hu (e := k * t.length) (by rw [Nat.succ_mul, Nat.add_comm]),
      ok_bind, ih hut, List.replicate_succ, List.flatten_cons, List.append_assoc]

theorem copy_makes (ht : 0 ∉ t) (hn : n.toNat * t.length + 1 < 2 ^ 64) :
    Makes (copy (image t) n) t False (t.copy n) := by
  rcases lt_or_ge n 0 with hneg | hpos
  · exact .inl ⟨if_pos hneg, by simp [Text.copy, Int.toNat_of_nonpos hneg.le]⟩
  refine .inr (.inl ?_)
  have hput : put (filled [] (n.toNat * t.length + 1)) 0 [0] =
      .ok (filled ([] ++ [0]) (n.toNat * t.length)) := put_fresh (Nat.add_comm _ _)
  rw [copy, if_neg (by omega), strlen_image ht, ok_bind, Nat.mod_eq_of_lt hn, newChars_natCast,
    ok_bind, hput, ok_bind, copyLoop_image ht _ (by simp), ok_bind]
  rfl

theorem erase_none (h : t.EraseNone offset count) : t.erase offset count = t := by
  rw [Text.erase]
  split
  · rfl
  · obtain h | h | h := h
    · omega
    · rw [Int.toNat_of_nonpos h, Nat.add_zero, List.take_append_drop]
    · rw [List.take_of_length_le (by omega), List.drop_eq_nil_of_le (by omega), List.append_nil]

theorem erase_makes (ht : 0 ∉ t) (ho : IsInt (offset - 1))
    (hlen : 1 ≤ offset → 0 ≤ count → t.length ≤ intMax) :
    Makes (erase (image t) offset count) t (t.EraseNone offset count) (t.erase offset count) := by
  by_cases hnone : t.EraseNone offset count
  · refine .inr (.inr ⟨hnone, ?_, erase_none hnone⟩)
    rw [erase, int_eq ho, ok_bind]
    split
    · rfl
    · have hlen := hlen (by omega) (by omega)
      have hwork : (t.length : ℤ) ≤ offset - 1 ∨ count = 0 := by
        rw [Text.EraseNone] at hnone
        omega
      rw [strlen_image ht, ok_bind, narrow_eq hlen, if_pos hwork]
      rfl
  simp only [Text.EraseNone, not_or, not_lt, not_le] at hnone
  obtain ⟨hfirst, hcount, hlast⟩ := hnone
  obtain ⟨o, ho'⟩ := Int.eq_ofNat_of_zero_le (by omega : 0 ≤ offset - 1)
  obtain ⟨c, rfl⟩ := Int.eq_ofNat_of_zero_le hcount.le
  have hlen := hlen hfirst (by omega)
  refine .inr (.inl ?_)
  have hspec : t.erase offset c = t.take o ++ t.drop (o + min c (t.length - o)) := by
    rw [Text.erase, if_neg (by omega), ho', Int.toNat_natCast, Int.toNat_natCast]
    rcases le_total c (t.length - o) with hle | hge
    · rw [min_eq_left hle]
    · rw [min_eq_right hge, List.drop_eq_nil_of_le (by omega), List.drop_eq_nil_of_le (by omega)]
  rw [erase, int_eq ho, ok_bind, if_neg (by omega), strlen_image ht, ok_bind, narrow_eq hlen,
    if_neg (by omega), ho', int_sub (by omega : o ≤ t.length) hlen, ok_bind, hspec]
  dsimp only
  rw [clip]
  generalize hk : min c (t.length - o) = k
  have hcopy : put (filled [] (t.length - k + 1)) 0 (t.take o) =
      .ok (filled (t.take o) (t.length - k + 1 - o)) :=
    put_fresh (by rw [List.length_take_of_le (by omega)]; omega)
  have hrest : put (filled (t.take o) (t.length - k + 1 - o)) o (t.drop (o + k) ++ [0]) =
      .ok (image (t.take o ++ t.drop (o + k))) := by
    have h := put_behind (t := t.take o) (u := t.drop (o + k) ++ [0]) (n := t.length - k + 1 - o)
      (d := 0) (by simp; omega)
    rw [List.length_take_of_le (by omega)] at h
    rw [h, image_eq, List.append_assoc]
  have hdrop : 0 ∉ t.drop (o + k) := fun h ↦ ht (List.mem_of_mem_drop h)
  rw [int_sub (by omega : k ≤ t.length) hlen, ok_bind, int_succ (by omega), ok_bind,
    newChars_natCast, ok_bind, memcpy_image (by omega), hcopy, ok_bind, int_add (by omega), ok_bind,
    pointer_image (by omega), ok_bind, strcpy_image hdrop, hrest, ok_bind]
  rfl

theorem insert_none (h : t.InsertNone offset count) : t.insert u offset count = t := by
  rw [Text.insert]
  split
  · rfl
  · rw [Text.InsertNone] at h
    rw [Int.toNat_of_nonpos (by omega : count ≤ 0), List.take_zero, List.append_nil,
      List.take_append_drop]

/-- The characters that are inserted are as many as the shortened count says. -/
theorem insert_copies (ht : 0 ∉ t) (hu : 0 ∉ u) (ho : IsInt (offset - 1)) (hfirst : 1 ≤ offset)
    (hlast : offset - 1 ≤ t.length) (hcount : 0 < count) (hlen : t.length ≤ intMax) {k : ℕ}
    (hk : (if narrow u.length < count then narrow u.length else count) = k) (hle : k ≤ u.length)
    (hsum : t.length + k < intMax) : insert (image t) (image u) offset count =
      .ok (.made (image (t.take (offset - 1).toNat ++ u.take k ++ t.drop (offset - 1).toNat))) := by
  obtain ⟨o, ho'⟩ := Int.eq_ofNat_of_zero_le (by omega : 0 ≤ offset - 1)
  rw [insert, int_eq ho, ok_bind, if_neg (by omega), strlen_image ht, ok_bind, narrow_eq hlen,
    if_neg (by omega), ho', strlen_image hu, ok_bind, Int.toNat_natCast]
  dsimp only
  rw [hk]
  have hfirst : put (filled [] (t.length + k + 1)) 0 (t.take o) =
      .ok (filled (t.take o) (k + (t.length - o + 1))) :=
    put_fresh (by rw [List.length_take_of_le (by omega)]; omega)
  have hsecond : put (filled (t.take o) (k + (t.length - o + 1))) o (u.take k) =
      .ok (filled (t.take o ++ u.take k) (t.length - o + 1)) := by
    have h := put_behind (t := t.take o) (u := u.take k) (n := k + (t.length - o + 1))
      (d := t.length - o + 1) (by rw [List.length_take_of_le (by omega)])
    rwa [List.length_take_of_le (by omega)] at h
  have hthird : put (filled (t.take o ++ u.take k) (t.length - o + 1)) (o + k : ℕ)
      (t.drop o ++ [0]) = .ok (image (t.take o ++ u.take k ++ t.drop o)) := by
    have h := put_behind (t := t.take o ++ u.take k) (u := t.drop o ++ [0])
      (n := t.length - o + 1) (d := 0) (by simp)
    rw [List.length_append, List.length_take_of_le (by omega), List.length_take_of_le
      (by omega)] at h
    rw [h, image_eq, List.append_assoc (t.take o ++ u.take k)]
  have hdrop : 0 ∉ t.drop o := fun h ↦ ht (List.mem_of_mem_drop h)
  rw [int_add hsum.le, ok_bind, int_succ hsum, ok_bind, newChars_natCast, ok_bind,
    memcpy_image (by omega), hfirst, ok_bind, memcpy_image (by omega), hsecond, ok_bind,
    int_add (by omega), ok_bind, pointer_image (by omega), ok_bind, strcpy_image hdrop, hthird,
    ok_bind]
  rfl

theorem insert_makes (ht : 0 ∉ t) (hu : 0 ∉ u) (ho : IsInt (offset - 1))
    (hlen : 1 ≤ offset → 0 ≤ count → t.length ≤ intMax)
    (hfit : ¬t.InsertNone offset count →
      u.length ≤ intMax ∧ t.length + min count.toNat u.length < intMax) :
    Makes (insert (image t) (image u) offset count) t (t.InsertNone offset count)
      (t.insert u offset count) := by
  by_cases hnone : t.InsertNone offset count
  · refine .inr (.inr ⟨hnone, ?_, insert_none hnone⟩)
    rw [insert, int_eq ho, ok_bind]
    split
    · rfl
    · have hlen := hlen (by omega) (by omega)
      have hwork : (t.length : ℤ) < offset - 1 ∨ count = 0 := by
        rw [Text.InsertNone] at hnone
        omega
      rw [strlen_image ht, ok_bind, narrow_eq hlen, if_pos hwork]
      rfl
  obtain ⟨hincoming, hsum⟩ := hfit hnone
  simp only [Text.InsertNone, not_or, not_lt, not_le] at hnone
  obtain ⟨hfirst, hcount, hlast⟩ := hnone
  obtain ⟨c, rfl⟩ := Int.eq_ofNat_of_zero_le hcount.le
  rw [Int.toNat_natCast] at hsum
  have hspec : t.insert u offset c = t.take (offset - 1).toNat ++ u.take (min c u.length) ++
      t.drop (offset - 1).toNat := by
    rw [Text.insert, if_neg (by omega), Int.toNat_natCast]
    rcases le_total c u.length with hle | hge
    · rw [min_eq_left hle]
    · rw [min_eq_right hge, List.take_of_length_le hge, List.take_length]
  refine .inr (.inl ?_)
  rw [hspec]
  apply insert_copies ht hu ho hfirst hlast hcount (hlen hfirst (by omega))
  · rw [narrow_eq hincoming, clip]
  · exact min_le_right _ _
  · exact hsum

theorem memcpy_whole {k : ℕ} (hk : k ≤ t.length) :
    (do let temp ← memcpy (filled [] (k + 1)) 0 (image t) k
        put temp k [0]) = .ok (image (t.take k)) := by
  have hend := put_terminator (t := t.take k)
  rw [List.length_take_of_le hk] at hend
  rw [memcpy_image hk, put_fresh (d := 1) (by rw [List.length_take_of_le hk]), ok_bind, hend]

theorem substr_makes (ht : 0 ∉ t) (ho : IsInt (offset - 1))
    (hlen : 1 ≤ offset → 0 ≤ count → t.length ≤ intMax ∧ (t.substr offset count).length < intMax) :
    Makes (substr (image t) offset count) t False (t.substr offset count) := by
  rw [substr, int_eq ho, ok_bind]
  split
  case isTrue h =>
    refine .inl ⟨rfl, ?_⟩
    rw [Text.substr]
    split
    · rfl
    · rw [Int.toNat_of_nonpos (by omega : count ≤ 0), List.take_zero]
  case isFalse h =>
    obtain ⟨o, ho'⟩ := Int.eq_ofNat_of_zero_le (by omega : 0 ≤ offset - 1)
    obtain ⟨c, rfl⟩ := Int.eq_ofNat_of_zero_le (by omega : 0 ≤ count)
    obtain ⟨hlen, hfit⟩ := hlen (by omega) (by omega)
    have hspec : t.substr offset c = (t.drop o).take (min c (t.length - o)) := by
      rw [Text.substr, if_neg (by omega), ho', Int.toNat_natCast, Int.toNat_natCast,
        ← List.length_drop, List.take_eq_take_min]
    rw [hspec, List.length_take_of_le (by simp)] at hfit
    rw [strlen_image ht, ok_bind, narrow_eq hlen, ho', hspec]
    dsimp only
    split
    case isTrue h =>
      refine .inl ⟨rfl, ?_⟩
      rw [List.drop_eq_nil_of_le (by omega), List.take_nil]
    case isFalse h =>
      refine .inr (.inl ?_)
      rw [int_sub (by omega) hlen, ok_bind]
      rw [clip]
      generalize hk : min c (t.length - o) = k at hfit
      rw [int_succ hfit, ok_bind, newChars_natCast, ok_bind, pointer_image (by omega), ok_bind,
        ← bind_assoc, memcpy_whole (by rw [List.length_drop]; omega), ok_bind]
      rfl

end Workspace

end GenericFs.Spica
