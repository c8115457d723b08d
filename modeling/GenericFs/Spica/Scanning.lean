import Mathlib.Data.List.DropRight
import GenericFs.Spica.Texts

namespace GenericFs.Spica

open GenericFs.Library Cells Workspace

namespace Text

def strip (t : Text) (mode killChar : UInt8) : Text :=
  let t := if mode = modeT ∨ mode = modeB then t.rdropWhile (· = killChar) else t
  if mode = modeL ∨ mode = modeB then t.dropWhile (· = killChar) else t

section Words

variable (white : UInt8 → Bool)

def wordStarts : Bool → Text → ℕ
  | _, [] => 0
  | inWord, c :: t => (if white c = false ∧ inWord = false then 1 else 0) + wordStarts (!white c) t

def words (t : Text) : ℕ := wordStarts white false t

def dropWord (t : Text) : Text := (t.dropWhile white).dropWhile (!white ·)

def takeWords : ℕ → Text → Text
  | 0, _ => []
  | n + 1, t =>
    t.takeWhile white ++ (t.dropWhile white).takeWhile (!white ·) ++ takeWords n (dropWord white t)

def subword (t : Text) (offset count : ℤ) : Text :=
  if offset < 1 then []
  else
    let start := ((dropWord white)^[(offset - 1).toNat] t).dropWhile white
    takeWords white (min count.toNat (words white t - (offset - 1).toNat)) start

variable {white} {t : Text} {n : ℕ}

theorem mem_of_mem_dropWord {c : UInt8} (h : c ∈ dropWord white t) : c ∈ t :=
  ((List.dropWhile_sublist _).trans (List.dropWhile_sublist _)).mem h

theorem mem_of_mem_iterate {c : UInt8} (h : c ∈ (dropWord white)^[n] t) : c ∈ t := by
  induction n generalizing t with
  | zero => exact h
  | succ n ih => exact mem_of_mem_dropWord (ih h)

theorem wordStarts_true : wordStarts white true t = words white (t.dropWhile (!white ·)) := by
  rw [words]
  induction t with
  | nil => rfl
  | cons c t ih =>
    cases hc : white c with
    | false => simp [wordStarts, hc, ih]
    | true => simp [wordStarts, hc]

theorem words_dropWhile : words white (t.dropWhile white) = words white t := by
  induction t with
  | nil => rfl
  | cons c t ih =>
    cases hc : white c with
    | false => rw [List.dropWhile_cons_of_neg (by simp [hc])]
    | true =>
      rw [List.dropWhile_cons_of_pos hc, ih]
      simp [words, wordStarts, hc]

theorem exists_of_words (h : 0 < words white t) : ∃ c u, t.dropWhile white = c :: u ∧
    white c = false ∧ words white t = words white (dropWord white t) + 1 := by
  cases hu : t.dropWhile white with
  | nil =>
    rw [← words_dropWhile, hu] at h
    exact absurd h (lt_irrefl 0)
  | cons c u =>
    have hc : white c = false := by
      have hhead := List.head_dropWhile_not white (l := t) (by simp [hu])
      simpa [hu] using hhead
    refine ⟨c, u, rfl, hc, ?_⟩
    have hrest : (c :: u).dropWhile (!white ·) = u.dropWhile (!white ·) :=
      List.dropWhile_cons_of_pos (by simp [hc])
    rw [← words_dropWhile, dropWord, hu, hrest, ← wordStarts_true]
    simp [words, wordStarts, hc, Nat.add_comm]

theorem exists_not_white (h : 0 < words white t) : ∃ c ∈ t, white c = false := by
  obtain ⟨c, u, hu, hc, -⟩ := exists_of_words h
  exact ⟨c, (List.dropWhile_sublist _).mem (hu ▸ List.mem_cons_self), hc⟩

theorem exists_white (h : 1 < words white t) : ∃ c ∈ t.dropWhile white, white c = true := by
  obtain ⟨-, -, -, -, hwords⟩ := exists_of_words (by omega : 0 < words white t)
  obtain ⟨c, hc, -⟩ := exists_not_white (by omega : 0 < words white (dropWord white t))
  have hne : dropWord white t ≠ [] := List.ne_nil_of_mem hc
  refine ⟨_, (List.dropWhile_sublist _).mem (List.head_mem hne), ?_⟩
  have hhead := List.head_dropWhile_not (!white ·) (l := t.dropWhile white) hne
  rwa [Bool.not_eq_false'] at hhead

theorem words_iterate (h : n ≤ words white t) :
    words white ((dropWord white)^[n] t) = words white t - n := by
  induction n generalizing t with
  | zero => rfl
  | succ n ih =>
    obtain ⟨-, -, -, -, hwords⟩ := exists_of_words (by omega : 0 < words white t)
    rw [Function.iterate_succ_apply, ih (by omega)]
    omega

theorem takeWhile_eq_nil (h : t.dropWhile white = t) : t.takeWhile white = [] := by
  have happend := List.takeWhile_append_dropWhile (p := white) (l := t)
  rw [h] at happend
  exact List.append_left_eq_self.mp happend

theorem takeWords_dropWhile : takeWords white (n + 1) t =
    t.takeWhile white ++ takeWords white (n + 1) (t.dropWhile white) := by
  have hidem := List.dropWhile_idempotent white t
  rw [takeWords, takeWords, takeWhile_eq_nil hidem, dropWord, dropWord, hidem, List.nil_append,
    List.append_assoc]

theorem takeWords_word (h : t.dropWhile white = t) : takeWords white (n + 1) t =
    t.takeWhile (!white ·) ++ takeWords white n (t.dropWhile (!white ·)) := by
  rw [takeWords, takeWhile_eq_nil h, dropWord, h, List.nil_append]

end Words

section Clean

variable {t : Text} {white : UInt8 → Bool} {offset count : ℤ} {mode killChar : UInt8}

theorem mem_of_mem_takeWords {c : UInt8} {n : ℕ} (h : c ∈ takeWords white n t) : c ∈ t := by
  induction n generalizing t with
  | zero => exact absurd h List.not_mem_nil
  | succ n ih =>
    rw [takeWords, List.mem_append, List.mem_append] at h
    obtain (h | h) | h := h
    · exact (List.takeWhile_sublist _).mem h
    · exact (List.dropWhile_sublist _).mem ((List.takeWhile_sublist _).mem h)
    · exact mem_of_mem_dropWord (ih h)

theorem subword_clean (ht : 0 ∉ t) : 0 ∉ t.subword white offset count := by
  rw [subword]
  split
  · exact List.not_mem_nil
  · exact fun h ↦ ht (mem_of_mem_iterate ((List.dropWhile_sublist _).mem (mem_of_mem_takeWords h)))

theorem strip_clean (ht : 0 ∉ t) : 0 ∉ t.strip mode killChar := by
  have htrail : 0 ∉ if mode = modeT ∨ mode = modeB then t.rdropWhile (· = killChar) else t := by
    split
    · exact fun h ↦ ht ((List.rdropWhile_prefix _ _).sublist.mem h)
    · exact ht
  rw [strip]
  split
  · exact fun h ↦ htrail ((List.dropWhile_sublist _).mem h)
  · exact htrail

end Clean

end Text

namespace Workspace

variable {t : Text} {mode killChar : UInt8} {p q : UInt8 → Bool} {n : ℕ}

/-- The loop ends at the terminating zero at the latest, if not before it. -/
theorem skipWhile_image (hp : p 0 = false ∨ ∃ c ∈ t, p c = false) :
    skipWhile p (image t) = .ok (image (t.dropWhile p)) := by
  induction t with
  | nil =>
    have hp : p 0 = false := by simpa using hp
    simp [image, skipWhile, hp]
  | cons c t ih =>
    rw [image, List.map_cons, List.cons_append, skipWhile]
    split
    case isTrue h =>
      have hrest : p 0 = false ∨ ∃ c ∈ t, p c = false := by simpa [h] using hp
      rw [List.dropWhile_cons_of_pos h, ← ih hrest, image]
    case isFalse h => rw [List.dropWhile_cons_of_neg h, image, List.map_cons, List.cons_append]

theorem dropWhile_congr (h : ∀ c ∈ t, p c = q c) : t.dropWhile p = t.dropWhile q := by
  induction t with
  | nil => rfl
  | cons c t ih =>
    rw [List.forall_mem_cons] at h
    rw [List.dropWhile_cons, List.dropWhile_cons, h.1, ih h.2]

theorem backUp_image (h : n ≤ t.length) :
    backUp (image t) killChar n = .ok ((t.take n).rdropWhile (· = killChar)).length := by
  induction n with
  | zero => simp [backUp]
  | succ n ih =>
    have hn : n < t.length := h
    have hget : (image t).getD n none = some t[n] := by
      simp [image, List.getD_eq_getElem?_getD, List.getElem?_append_left, hn]
    rw [backUp, hget, inside, ok_bind, List.take_succ_eq_append_getElem h]
    split
    case isTrue hc =>
      rw [List.rdropWhile_concat_neg _ _ _ (by simpa using hc), List.length_append,
        List.length_take_of_le hn.le]
      rfl
    case isFalse hc =>
      rw [List.rdropWhile_concat_pos _ _ _ (by simpa using hc), ih hn.le]

def stripFirst (t : Text) (mode killChar : UInt8) : ℕ :=
  if mode = modeL ∨ mode = modeB then t.findIdx (fun c ↦ !decide (c = killChar)) else 0

def stripLast (t : Text) (mode killChar : UInt8) : ℕ :=
  if mode = modeT ∨ mode = modeB then (t.rdropWhile (· = killChar)).length else t.length

theorem stripFirst_le : stripFirst t mode killChar ≤ t.length := by
  rw [stripFirst]
  split
  · exact List.findIdx_le_length
  · exact Nat.zero_le _

theorem stripLast_le : stripLast t mode killChar ≤ t.length := by
  rw [stripLast]
  split
  · exact (List.rdropWhile_prefix _ _).length_le
  · exact le_rfl

theorem strip_eq : t.strip mode killChar =
    (t.take (stripLast t mode killChar)).drop (stripFirst t mode killChar) := by
  have hlast : (if mode = modeT ∨ mode = modeB then t.rdropWhile (· = killChar) else t) =
      t.take (stripLast t mode killChar) := by
    rw [stripLast]
    split
    · exact List.prefix_iff_eq_take.mp (List.rdropWhile_prefix _ _)
    · rw [List.take_length]
  rw [Text.strip, hlast, stripFirst]
  split
  · rw [List.dropWhile_eq_drop_findIdx_not, List.findIdx_take]
    rcases le_total (stripLast t mode killChar) (t.findIdx (fun c ↦ !decide (c = killChar)))
      with hle | hge
    · rw [min_eq_left hle, List.drop_eq_nil_of_le (by simp), List.drop_eq_nil_of_le (by simp [hle])]
    · rw [min_eq_right hge]
  · rw [List.drop_zero]

theorem strip_makes (ht : 0 ∉ t) (hfit : (t.strip mode killChar).length < intMax) :
    Makes (strip (image t) mode killChar) t False (t.strip mode killChar) := by
  have hfirst : stripStart (image t) mode killChar =
      .ok (image (t.drop (stripFirst t mode killChar))) := by
    rw [stripStart, stripFirst]
    split
    · have hcongr : ∀ c ∈ t, decide (c ≠ 0 ∧ c = killChar) = decide (c = killChar) := by
        intro c hc
        have hc0 : c ≠ 0 := fun h ↦ ht (h ▸ hc)
        simp [hc0]
      rw [skipWhile_image (.inl (by simp)), dropWhile_congr hcongr,
        List.dropWhile_eq_drop_findIdx_not]
    · rfl
  have hlast : stripEnd (image t) mode killChar t.length = .ok (stripLast t mode killChar) := by
    rw [stripEnd, stripLast]
    split
    · rw [backUp_image le_rfl, List.take_length]
    · rfl
  rw [strip_eq] at hfit ⊢
  rw [strip, strlen_image ht, ok_bind]
  split
  case isTrue h => exact .inl ⟨rfl, by simp [List.length_eq_zero_iff.mp h]⟩
  case isFalse h =>
    have hle : stripFirst t mode killChar ≤ t.length := stripFirst_le
    have hge : stripLast t mode killChar ≤ t.length := stripLast_le
    rw [hfirst, ok_bind, hlast, ok_bind]
    generalize stripFirst t mode killChar = first at hfit hle ⊢
    generalize stripLast t mode killChar = last at hfit hge ⊢
    have hback : (image t).length - (image (t.drop first)).length = first := by
      rw [length_image, length_image, List.length_drop]
      omega
    rw [hback]
    dsimp only
    split
    case isTrue h =>
      refine .inl ⟨rfl, List.drop_eq_nil_of_le ?_⟩
      rwa [List.length_take_of_le hge]
    case isFalse h =>
      refine .inr (.inl ?_)
      rw [List.length_drop, List.length_take_of_le hge] at hfit
      have hlength : int (narrow (last - 1 - first) + 1) = .ok ((last - first : ℕ) : ℤ) := by
        rw [narrow_eq (by omega), int_succ (by omega),
          (by omega : last - 1 - first + 1 = last - first)]
      rw [hlength, ok_bind, int_succ hfit, ok_bind, newChars_natCast, ok_bind, ← bind_assoc,
        memcpy_whole (by rw [List.length_drop]; omega), ok_bind, List.drop_take]
      rfl

section Words

variable {white : UInt8 → Bool}

open Text (dropWord takeWords wordStarts)

theorem wordsLoop_image (ht : 0 ∉ t) {inWord : Bool} (h : n + wordStarts white inWord t ≤ intMax) :
    wordsLoop white (image t) n inWord = .ok ((n + wordStarts white inWord t : ℕ) : ℤ) := by
  induction t generalizing n inWord with
  | nil => simp [image, wordsLoop, wordStarts]
  | cons c t ih =>
    rw [List.mem_cons, not_or] at ht
    have hc : c ≠ 0 := Ne.symm ht.1
    rw [wordStarts] at h ⊢
    rw [image, List.map_cons, List.cons_append, wordsLoop, if_neg hc, ← image]
    cases hwhite : white c with
    | true =>
      simp only [hwhite, Bool.true_eq_false, false_and, if_false, Nat.zero_add] at h ⊢
      cases inWord with
      | true => simpa using ih ht.2 h
      | false => simpa using ih ht.2 h
    | false =>
      cases inWord with
      | true =>
        simp only [hwhite, Bool.true_eq_false, and_false, if_false, Nat.zero_add] at h ⊢
        simpa using ih ht.2 h
      | false =>
        simp only [hwhite, and_self, if_true, ← Nat.add_assoc] at h ⊢
        simpa [int_succ (by omega : n < intMax)] using ih ht.2 h

theorem words_image (ht : 0 ∉ t) (h : Text.words white t ≤ intMax) :
    words (image t) white = .ok (Text.words white t : ℤ) := by
  have hsum : 0 + wordStarts white false t ≤ intMax := by rwa [Nat.zero_add]
  have hloop := wordsLoop_image ht hsum
  rwa [Nat.zero_add] at hloop

theorem findStart_image (h : n < Text.words white t) :
    findStart white n (image t) = .ok (image (((dropWord white)^[n] t).dropWhile white)) := by
  induction n generalizing t with
  | zero => rw [findStart, skipWhile_image (.inr (Text.exists_not_white h)),
    Function.iterate_zero_apply]
  | succ n ih =>
    obtain ⟨-, -, -, -, hwords⟩ := Text.exists_of_words (by omega : 0 < Text.words white t)
    obtain ⟨c, hc, hwhite⟩ := Text.exists_white (by omega : 1 < Text.words white t)
    rw [findStart, skipWhile_image (.inr (Text.exists_not_white (by omega))), ok_bind,
      skipWhile_image (.inr ⟨c, hc, by simp [hwhite]⟩), ok_bind]
    have hrest : (t.dropWhile white).dropWhile (fun c ↦ decide ¬white c = true) =
        dropWord white t :=
      dropWhile_congr (by simp)
    rw [hrest, ih (by omega), Function.iterate_succ_apply]

theorem skipWord_image (ht : 0 ∉ t) :
    skipWhile (fun c ↦ ¬(white c = true ∨ c = 0)) (image t) =
      .ok (image (t.dropWhile (!white ·))) := by
  rw [skipWhile_image (.inl (by simp))]
  congr 2
  refine dropWhile_congr (fun c hc ↦ ?_)
  have hc0 : c ≠ 0 := fun h ↦ ht (h ▸ hc)
  simp [hc0]

/-- From the first character of a word to the last one of the words asked for. -/
theorem findEnd_image (ht : 0 ∉ t) (hn : n < Text.words white t) (hword : t.dropWhile white = t) :
    ∃ r, findEnd white (n + 1) (image t) = .ok (image r) ∧ t = takeWords white (n + 1) t ++ r := by
  induction n generalizing t with
  | zero =>
    refine ⟨t.dropWhile (!white ·), ?_, ?_⟩
    · rw [findEnd, skipWord_image ht]
      rfl
    · rw [Text.takeWords_word hword, takeWords, List.append_nil, List.takeWhile_append_dropWhile]
  | succ n ih =>
    obtain ⟨-, -, -, -, hwords⟩ := Text.exists_of_words (by omega : 0 < Text.words white t)
    rw [dropWord, hword] at hwords
    have hmem : 0 ∉ (t.dropWhile (!white ·)).dropWhile white := fun h ↦
      ht ((List.dropWhile_sublist _).mem ((List.dropWhile_sublist _).mem h))
    obtain ⟨r, hfind, hr⟩ := ih hmem (by rw [Text.words_dropWhile]; omega)
      (List.dropWhile_idempotent _ _)
    refine ⟨r, ?_, ?_⟩
    · have hskip := skipWhile_image (p := white) (t := t.dropWhile (!white ·))
        (.inr (Text.exists_not_white (by omega)))
      rw [findEnd, skipWord_image ht, ok_bind, if_neg (Nat.succ_ne_zero n), hskip, ok_bind, hfind]
    · calc t = t.takeWhile (!white ·) ++ t.dropWhile (!white ·) :=
            List.takeWhile_append_dropWhile.symm
        _ = t.takeWhile (!white ·) ++ ((t.dropWhile (!white ·)).takeWhile white ++
              (t.dropWhile (!white ·)).dropWhile white) := by
            rw [List.takeWhile_append_dropWhile (p := white)]
        _ = takeWords white (n + 1 + 1) t ++ r := by
            conv_lhs => rw [hr]
            rw [Text.takeWords_word hword,
              Text.takeWords_dropWhile (t := t.dropWhile (!white ·))]
            simp only [List.append_assoc]

theorem subword_makes (ht : 0 ∉ t) {offset count : ℤ} (ho : IsInt (offset - 1))
    (hfit : 1 ≤ offset → 0 ≤ count → Text.words white t ≤ intMax ∧
      (t.subword white offset count).length < intMax) :
    Makes (subword (image t) offset count white) t False (t.subword white offset count) := by
  rw [subword, int_eq ho, ok_bind]
  split
  case isTrue h =>
    refine .inl ⟨rfl, ?_⟩
    rw [Text.subword]
    split
    · rfl
    · rw [Int.toNat_of_nonpos (by omega : count ≤ 0), Nat.zero_min, takeWords]
  case isFalse h =>
    obtain ⟨o, ho'⟩ := Int.eq_ofNat_of_zero_le (by omega : 0 ≤ offset - 1)
    obtain ⟨c, rfl⟩ := Int.eq_ofNat_of_zero_le (by omega : 0 ≤ count)
    obtain ⟨hwords, hfit⟩ := hfit (by omega) (by omega)
    have hspec : t.subword white offset c = takeWords white (min c (Text.words white t - o))
        (((dropWord white)^[o] t).dropWhile white) := by
      rw [Text.subword, if_neg (by omega), ho', Int.toNat_natCast, Int.toNat_natCast]
    rw [hspec] at hfit ⊢
    rw [words_image ht hwords, ok_bind, ho']
    dsimp only
    split
    case isTrue h =>
      refine .inl ⟨rfl, ?_⟩
      rw [Nat.sub_eq_zero_of_le (by omega), Nat.min_zero, takeWords]
    case isFalse h =>
      rw [int_sub (by omega) hwords, ok_bind, clip]
      have hcount := Text.words_iterate (by omega : o ≤ Text.words white t)
      rw [← Text.words_dropWhile] at hcount
      generalize hk : min c (Text.words white t - o) = k at hfit ⊢
      cases k with
      | zero => exact .inl ⟨if_pos rfl, rfl⟩
      | succ k =>
        have hmem : 0 ∉ ((dropWord white)^[o] t).dropWhile white := fun h ↦
          ht (Text.mem_of_mem_iterate ((List.dropWhile_sublist _).mem h))
        have hleft : k < Text.words white (((dropWord white)^[o] t).dropWhile white) := by
          rw [hcount]
          omega
        obtain ⟨r, hfind, hr⟩ := findEnd_image hmem hleft (List.dropWhile_idempotent _ _)
        refine .inr (.inl ?_)
        rw [if_neg (by omega), Int.toNat_natCast, findStart_image (by omega), ok_bind,
          Int.toNat_natCast, hfind, ok_bind]
        generalize ((dropWord white)^[o] t).dropWhile white = s at hfit hr ⊢
        generalize takeWords white (k + 1) s = u at hfit hr ⊢
        subst hr
        have hlength : narrow ((image (u ++ r)).length - (image r).length) = u.length := by
          rw [length_image, length_image, List.length_append, ← narrow_eq hfit.le]
          congr 1
          omega
        rw [hlength, int_succ hfit, ok_bind, newChars_natCast, ok_bind, ← bind_assoc,
          memcpy_whole (by simp), ok_bind, List.take_left]
        rfl

end Words

end Workspace

end GenericFs.Spica
