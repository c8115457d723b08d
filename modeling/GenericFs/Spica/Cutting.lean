import GenericFs.Spica.Extents
import GenericFs.Spica.Results

namespace GenericFs.Spica

open GenericFs.Library Cells Ensuring Workspace

namespace Text

variable {t u : Text} {offset count : ℤ} {k : ℕ}

theorem length_erase_add_length_substr (ho : 1 ≤ offset) :
    (t.erase offset count).length + (t.substr offset count).length = t.length := by
  rw [erase, substr, if_neg (by omega), if_neg (by omega)]
  simp only [List.length_append, List.length_take, List.length_drop]
  omega

/-- What is cut out and pasted in at the same place makes the text whole again. -/
theorem insert_erase (ht : 1 ≤ offset → t.length ≤ intMax) :
    (t.erase offset count).insert (t.substr offset count) offset intMax = t := by
  by_cases hfirst : offset < 1
  · rw [insert, if_pos (.inl hfirst), erase, if_pos hfirst]
  have ht := ht (by omega)
  have hlen := @length_erase_add_length_substr t offset count (not_lt.mp hfirst)
  have hwhole : (t.substr offset count).take intMax = t.substr offset count :=
    List.take_of_length_le (by omega)
  rw [insert, Int.toNat_natCast, hwhole]
  rw [erase, substr, if_neg hfirst, if_neg hfirst] at hlen ⊢
  generalize hm : (offset - 1).toNat = m at hlen ⊢
  split
  case isTrue hbehind =>
    rw [List.length_append, List.length_take, List.length_drop] at hbehind
    rw [List.take_of_length_le (by omega), List.drop_eq_nil_of_le (by omega), List.append_nil]
  case isFalse hbehind =>
    have hm' : (t.take m).length = m := by
      rw [List.length_append, List.length_take, List.length_drop] at hbehind
      rw [List.length_take]
      omega
    rw [List.take_left' hm', List.drop_left' hm', ← List.drop_drop, List.append_assoc,
      List.take_append_drop, List.take_append_drop]

def pasted (t u : Text) (offset : ℤ) (k : ℕ) : Text :=
  t.take (offset - 1).toNat ++ u.take k ++ t.drop (offset - 1).toNat

theorem length_pasted (hk : k ≤ u.length) : (t.pasted u offset k).length = t.length + k := by
  simp only [pasted, List.length_append, List.length_take, List.length_drop]
  omega

theorem pasted_clean (ht : 0 ∉ t) (hu : 0 ∉ u) : 0 ∉ t.pasted u offset k := by
  simp only [pasted, List.mem_append, not_or]
  exact ⟨⟨fun h ↦ ht (List.mem_of_mem_take h), fun h ↦ hu (List.mem_of_mem_take h)⟩,
    fun h ↦ ht (List.mem_of_mem_drop h)⟩

section Pasted

variable (ho : 1 ≤ offset) (hlast : offset - 1 ≤ t.length) (hk : k ≤ u.length)

include ho hlast hk

theorem erase_pasted : (t.pasted u offset k).erase offset k = t := by
  have hleft : (t.take (offset - 1).toNat).length = (offset - 1).toNat :=
    List.length_take_of_le (by omega)
  have hboth : (t.take (offset - 1).toNat ++ u.take k).length = (offset - 1).toNat + k := by
    rw [List.length_append, hleft, List.length_take_of_le hk]
  rw [erase, if_neg (by omega), Int.toNat_natCast, pasted, List.drop_left' hboth, List.append_assoc,
    List.take_left' hleft, List.take_append_drop]

theorem substr_pasted : (t.pasted u offset k).substr offset k = u.take k := by
  have hleft : (t.take (offset - 1).toNat).length = (offset - 1).toNat :=
    List.length_take_of_le (by omega)
  rw [substr, if_neg (by omega), Int.toNat_natCast, pasted, List.append_assoc,
    List.drop_left' hleft, List.take_left' (List.length_take_of_le hk)]

end Pasted

end Text

/-- `s.erase(offset, count).insert(s.substr(offset, count), offset)`, where `own` is the
workspace of `s`. -/
def cutAndPaste (own : Workspace) (offset count : ℤ) : Except Fault Workspace := do
  let rest := (← erase own offset count).workspace own
  let part := (← substr own offset count).workspace own
  return (← insert rest part offset intMax).workspace rest

/-- `r.erase(offset, length)` and `r.substr(offset, length)` for the result `r` of
`s.insert(t, offset, count)`. -/
def pasteAndCut (own incoming : Workspace) (offset count length : ℤ) :
    Except Fault (Workspace × Workspace) := do
  let pasted := (← insert own incoming offset count).workspace own
  let rest := (← erase pasted offset length).workspace pasted
  let part := (← substr pasted offset length).workspace pasted
  return (rest, part)

namespace Workspace

variable {s t : Text} {w own : Workspace} {offset count : ℤ} {k : ℕ}

section Guards

variable (hs : 0 ∉ s) (ho : IsInt (offset - 1))

include hs ho

theorem erase_same (h : narrow s.length ≤ offset - 1 ∨ count = 0) :
    erase (image s) offset count = .ok .same := by
  rw [erase, int_eq ho, ok_bind]
  split
  · rfl
  · rw [strlen_image hs, ok_bind, if_pos h]
    rfl

theorem insert_same (h : narrow s.length < offset - 1 ∨ count = 0) :
    insert (image s) w offset count = .ok .same := by
  rw [insert, int_eq ho, ok_bind]
  split
  · rfl
  · rw [strlen_image hs, ok_bind, if_pos h]
    rfl

theorem substr_empty (h : narrow s.length ≤ offset - 1) :
    substr (image s) offset count = .ok .empty := by
  rw [substr, int_eq ho, ok_bind]
  split
  · rfl
  · rw [strlen_image hs, ok_bind, if_pos h]
    rfl

/-- Without characters to copy, the length of the string does not matter. -/
theorem substr_zero (hlast : offset - 1 ≤ s.length) :
    Makes (substr (image s) offset 0) s False [] := by
  rcases le_or_gt (narrow s.length) (offset - 1) with hle | hgt
  · exact .inl ⟨substr_empty hs ho hle, rfl⟩
  rw [substr, int_eq ho, ok_bind]
  split
  case isTrue => exact .inl ⟨rfl, rfl⟩
  case isFalse hneg =>
    refine .inr (.inl ?_)
    obtain ⟨o, ho'⟩ := Int.eq_ofNat_of_zero_le (by omega : 0 ≤ offset - 1)
    have hint : IsInt (narrow s.length - (offset - 1)) := by
      have hnarrow := narrow_isInt (m := s.length)
      rw [IsInt] at ho hnarrow ⊢
      omega
    have hclip :
        (if narrow s.length - (offset - 1) < 0 then narrow s.length - (offset - 1) else 0) =
        ((0 : ℕ) : ℤ) := if_neg (by omega)
    rw [strlen_image hs, ok_bind, if_neg (by omega), int_eq hint, ok_bind]
    dsimp only
    rw [hclip, int_succ (by decide), ok_bind, newChars_natCast, ok_bind, ho',
      pointer_image (by omega), ok_bind, ← bind_assoc, memcpy_whole (Nat.zero_le _), ok_bind,
      List.take_zero]
    rfl

end Guards

/-- Where there is a place and something to insert, the sum of the lengths is taken. -/
theorem exists_of_insert (hs : 0 ∉ s) (ht : 0 ∉ t) (ho : IsInt (offset - 1)) (hfirst : 1 ≤ offset)
    (hcount : 0 < count) (hlast : offset - 1 ≤ narrow s.length) {p : Produced}
    (h : insert (image s) (image t) offset count = .ok p) : ∃ k : ℕ,
      (if narrow t.length < count then narrow t.length else count) = k ∧ k ≤ t.length ∧
        s.length + k < intMax := by
  have hmax : intMax = 2147483647 := rfl
  have hnarrow := narrow_le (m := s.length)
  have hnarrow' := narrow_le (m := t.length)
  obtain ⟨o, ho'⟩ := Int.eq_ofNat_of_zero_le (by omega : 0 ≤ offset - 1)
  have hdrop : 0 ∉ s.drop o := fun h ↦ hs (List.mem_of_mem_drop h)
  rw [insert, int_eq ho, ok_bind, if_neg (by omega), strlen_image hs, ok_bind, if_neg (by omega),
    strlen_image ht, ok_bind, ho'] at h
  dsimp only at h
  have hclip : (if narrow t.length < count then narrow t.length else count) ≤ t.length := by
    split <;> omega
  generalize (if narrow t.length < count then narrow t.length else count) = c at h hclip ⊢
  obtain ⟨sum, hsum, h⟩ := exists_of_bind_ok h
  obtain ⟨size, hsize, h⟩ := exists_of_bind_ok h
  obtain ⟨temp, htemp, h⟩ := exists_of_bind_ok h
  obtain ⟨temp₁, htemp₁, h⟩ := exists_of_bind_ok h
  obtain ⟨temp₂, htemp₂, h⟩ := exists_of_bind_ok h
  obtain ⟨last, hend, h⟩ := exists_of_bind_ok h
  rw [pointer_image (by omega), ok_bind, strcpy_image hdrop] at h
  obtain ⟨temp₃, htemp₃, -⟩ := exists_of_bind_ok h
  obtain ⟨hsum, -⟩ := ensures_int sum hsum
  obtain ⟨hsize, -, hfits⟩ := ensures_int size hsize
  obtain ⟨hend, -⟩ := ensures_int last hend
  have hlength := ensures_newChars _ htemp
  obtain ⟨hlength₁, -⟩ := ensures_memcpy _ htemp₁
  obtain ⟨hlength₂, hc⟩ := ensures_memcpy _ htemp₂
  obtain ⟨-, -, hroom⟩ := ensures_put _ htemp₃
  rw [List.length_append, List.length_drop, List.length_singleton] at hroom
  obtain ⟨k, rfl⟩ := Int.eq_ofNat_of_zero_le hc
  exact ⟨k, rfl, by omega, by omega⟩

/-- `insert` returns the string itself for a place outside it alone. -/
theorem insert_ne_same (hs : 0 ∉ s) (ho : IsInt (offset - 1)) (hfirst : 1 ≤ offset)
    (hcount : 0 < count) (hlast : offset - 1 ≤ narrow s.length) :
    insert (image s) w offset count ≠ .ok .same := by
  intro h
  rw [insert, int_eq ho, ok_bind, if_neg (by omega), strlen_image hs, ok_bind,
    if_neg (by omega)] at h
  obtain ⟨incomingLength, -, h⟩ := exists_of_bind_ok h
  obtain ⟨sum, -, h⟩ := exists_of_bind_ok h
  obtain ⟨size, -, h⟩ := exists_of_bind_ok h
  obtain ⟨temp, -, h⟩ := exists_of_bind_ok h
  obtain ⟨temp₁, -, h⟩ := exists_of_bind_ok h
  obtain ⟨temp₂, -, h⟩ := exists_of_bind_ok h
  obtain ⟨last, -, h⟩ := exists_of_bind_ok h
  obtain ⟨rest, -, h⟩ := exists_of_bind_ok h
  obtain ⟨temp₃, -, h⟩ := exists_of_bind_ok h
  cases h

end Workspace

/-- Where the characters that `insert` is given have room in the result, or there are none. -/
def Pastable (s t : Text) (offset count : ℤ) : Prop :=
  s.length + min count t.length < intMax ∧ (t.length ≤ intMax ∨ count ≤ narrow t.length) ∨
    t = [] ∧ narrow s.length < offset - 1

/-- Cutting and pasting undo each other. -/
structure Inverse (s t : Text) (offset count : ℤ) : Prop where
  cut : cutAndPaste (image s) offset count = .ok (image s)
  paste : 1 ≤ offset → offset ≤ s.length + 1 → 0 ≤ count →
    pasteAndCut (image s) (image t) offset count (min count t.length) =
      .ok (image s, image (t.take count.toNat))

section Inverses

variable {s t : Text} {offset count : ℤ}

theorem image_injective {t u : Text} (ht : 0 ∉ t) (hu : 0 ∉ u) (h : image t = image u) : t = u := by
  have hstring := congrArg cstring h
  rwa [cstring_image ht, cstring_image hu, Option.some_inj] at hstring

theorem cutAndPaste_eq (hs : 0 ∉ s) (ho : IsInt (offset - 1))
    (h : offset < 1 ∨ s.length < intMax ∨ narrow s.length < offset - 1) :
    cutAndPaste (image s) offset count = .ok (image s) := by
  by_cases hbehind : narrow s.length < offset - 1
  · rw [cutAndPaste, erase_same hs ho (.inl hbehind.le), ok_bind, substr_empty hs ho hbehind.le,
      ok_bind]
    simp only [Produced.workspace_same, insert_same hs ho (.inl hbehind)]
    rfl
  have hparts : 1 ≤ offset → s.length < intMax ∧
      (s.erase offset count).length + (s.substr offset count).length = s.length := fun hfirst ↦
    ⟨by omega, Text.length_erase_add_length_substr hfirst⟩
  have hsubstr : Makes (substr (image s) offset count) s False (s.substr offset count) := by
    apply substr_makes hs ho
    intro hfirst _
    have hparts := hparts hfirst
    omega
  have hinsert :
      Makes (insert (image (s.erase offset count)) (image (s.substr offset count)) offset intMax)
      (s.erase offset count) ((s.erase offset count).InsertNone offset intMax)
      ((s.erase offset count).insert (s.substr offset count) offset intMax) := by
    apply insert_makes (Text.erase_clean hs) (Text.substr_clean hs) ho
    · intro hfirst _
      have hparts := hparts hfirst
      omega
    · intro hplace
      rw [Text.InsertNone, not_or] at hplace
      have hparts := hparts (by omega)
      omega
  have herase : Makes (erase (image s) offset count) s (s.EraseNone offset count)
      (s.erase offset count) := erase_makes hs ho fun hfirst _ ↦ (hparts hfirst).1.le
  obtain ⟨p, hp, hrest⟩ := herase.exists_workspace
  obtain ⟨q, hq, hpart⟩ := hsubstr.exists_workspace
  obtain ⟨r, hr, hwhole⟩ := hinsert.exists_workspace
  rw [cutAndPaste, hp, ok_bind, hq, ok_bind, hrest, hpart]
  dsimp only
  rw [hr, ok_bind, hwhole, Text.insert_erase fun hfirst ↦ (hparts hfirst).1.le]
  rfl

theorem pasteAndCut_nothing {w : Workspace} (hs : 0 ∉ s) (ho : IsInt (offset - 1))
    (hlast : offset - 1 ≤ s.length) (h : narrow s.length < offset - 1 ∨ count = 0) :
    pasteAndCut (image s) w offset count 0 = .ok (image s, image []) := by
  obtain ⟨p, hp, hpart⟩ := (substr_zero hs ho hlast).exists_workspace
  rw [pasteAndCut, insert_same hs ho h, ok_bind]
  simp only [Produced.workspace_same, erase_same hs ho (.inr rfl), hp, ok_bind, hpart]
  rfl

section Pasted

variable {k : ℕ} (hs : 0 ∉ s) (ht : 0 ∉ t) (ho : IsInt (offset - 1)) (hfirst : 1 ≤ offset)
  (hk : k ≤ t.length) (hsum : s.length + k < intMax)

include hs ht ho hk hsum

theorem erase_pasted_makes {length : ℤ} : Makes (erase (image (s.pasted t offset k)) offset length)
    (s.pasted t offset k) ((s.pasted t offset k).EraseNone offset length)
    ((s.pasted t offset k).erase offset length) := by
  apply erase_makes (Text.pasted_clean hs ht) ho
  intro _ _
  rw [Text.length_pasted hk]
  exact hsum.le

include hfirst

theorem substr_pasted_makes {length : ℤ} :
    Makes (substr (image (s.pasted t offset k)) offset length)
    (s.pasted t offset k) False ((s.pasted t offset k).substr offset length) := by
  apply substr_makes (Text.pasted_clean hs ht) ho
  intro _ _
  have hparts := @Text.length_erase_add_length_substr (s.pasted t offset k) offset length hfirst
  rw [Text.length_pasted hk] at hparts ⊢
  omega

end Pasted

/-- Where the lengths of the two strings together are counted, `r` has the inserted characters. -/
theorem pasteAndCut_eq (hs : 0 ∉ s) (ht : 0 ∉ t) (ho : IsInt (offset - 1)) (hfirst : 1 ≤ offset)
    (hlast : offset ≤ s.length + 1) (hcount : 0 ≤ count)
    (h : 0 < count → Pastable s t offset count) :
    pasteAndCut (image s) (image t) offset count (min count t.length) =
      .ok (image s, image (t.take count.toNat)) := by
  have hplace : offset - 1 ≤ s.length := by omega
  rcases hcount.eq_or_lt with rfl | hpos
  · rw [min_eq_left (Int.natCast_nonneg _), pasteAndCut_nothing hs ho hplace (.inr rfl)]
    rfl
  obtain ⟨hsum, htext⟩ | ⟨rfl, hbehind⟩ := h hpos
  · obtain ⟨k, hk⟩ := Int.eq_ofNat_of_zero_le (le_min hcount (Int.natCast_nonneg t.length))
    rw [hk] at hsum ⊢
    have hroom : s.length + k < intMax := by omega
    have hlen : s.length ≤ intMax := (Nat.le_add_right _ k).trans hroom.le
    have hmin : min count.toNat t.length = k := by omega
    have hle : k ≤ t.length := hmin ▸ min_le_right _ _
    have hclip : (if narrow t.length < count then narrow t.length else count) = k := by
      obtain hshort | hlong := htext
      · rw [narrow_eq hshort]
        split <;> omega
      · have hnarrow := narrow_le (m := t.length)
        rw [if_neg (not_lt.mpr hlong)]
        omega
    have hinsert :
        insert (image s) (image t) offset count = .ok (.made (image (s.pasted t offset k))) :=
      insert_copies hs ht ho hfirst hplace hpos hlen hclip hle hroom
    obtain ⟨p, hp, hrest⟩ := (erase_pasted_makes hs ht ho hle hroom).exists_workspace
    obtain ⟨q, hq, hpart⟩ := (substr_pasted_makes hs ht ho hfirst hle hroom).exists_workspace
    rw [Text.erase_pasted hfirst hplace hle] at hrest
    rw [Text.substr_pasted hfirst hplace hle] at hpart
    rw [List.take_eq_take_min, hmin, pasteAndCut, hinsert, ok_bind]
    simp only [Produced.workspace_made, hp, hq, ok_bind, hrest, hpart]
    rfl
  · rw [List.length_nil, Nat.cast_zero, min_eq_right hcount, List.take_nil]
    exact pasteAndCut_nothing hs ho hplace (.inl hbehind)

theorem lt_of_cutAndPaste (hs : 0 ∉ s) (ho : IsInt (offset - 1))
    (h : cutAndPaste (image s) offset count = .ok (image s)) :
    offset < 1 ∨ s.length < intMax ∨ narrow s.length < offset - 1 := by
  obtain ⟨p, -, h⟩ := exists_of_bind_ok h
  obtain ⟨q, -, h⟩ := exists_of_bind_ok h
  obtain ⟨r, hr, h⟩ := exists_of_bind_ok h
  generalize p.workspace (image s) = rest at hr h
  generalize q.workspace (image s) = part at hr
  have h : r.workspace rest = image s := Except.ok.inj h
  have hmax : intMax = 2147483647 := rfl
  cases r with
  | empty =>
    have hnil : [] = s := image_injective List.not_mem_nil hs h
    rw [← hnil, List.length_nil]
    omega
  | made temp =>
    have hshort : temp.length ≤ intMax := insert_short _ hr
    rw [Produced.workspace_made] at h
    rw [h, length_image] at hshort
    exact .inr (.inl hshort)
  | same =>
    rw [Produced.workspace_same] at h
    rw [h] at hr
    by_contra hnot
    rw [not_or, not_or] at hnot
    exact insert_ne_same hs ho (by omega) (by omega) (by omega) hr

theorem pastable_of_pasteAndCut (hs : 0 ∉ s) (ht : 0 ∉ t) (ho : IsInt (offset - 1))
    (hfirst : 1 ≤ offset) (hpos : 0 < count) (hcount : IsInt count) (h : pasteAndCut (image s)
      (image t) offset count (min count t.length) = .ok (image s, image (t.take count.toNat))) :
    Pastable s t offset count := by
  have htake : 0 ∉ t.take count.toNat := fun h ↦ ht (List.mem_of_mem_take h)
  obtain ⟨r, hr, h⟩ := exists_of_bind_ok h
  dsimp only at h
  obtain ⟨p, hp, h⟩ := exists_of_bind_ok h
  obtain ⟨q, hq, h⟩ := exists_of_bind_ok h
  obtain ⟨hrest, hpart⟩ := Prod.mk.inj (Except.ok.inj h)
  rcases lt_or_ge (narrow s.length) (offset - 1) with hbehind | hplace
  · rw [insert_same hs ho (.inl hbehind)] at hr
    cases hr
    rw [Produced.workspace_same, substr_empty hs ho hbehind.le] at hq
    cases hq
    have hnil := image_injective List.not_mem_nil htake hpart
    refine .inr ⟨?_, hbehind⟩
    obtain hzero | hnil := List.take_eq_nil_iff.mp hnil.symm
    · omega
    · exact hnil
  · obtain ⟨k, hclip, hle, hroom⟩ := exists_of_insert hs ht ho hfirst hpos hplace hr
    have hinsert :
        insert (image s) (image t) offset count = .ok (.made (image (s.pasted t offset k))) :=
      insert_copies hs ht ho hfirst (hplace.trans narrow_le) hpos
      ((Nat.le_add_right _ k).trans hroom.le)
        hclip hle hroom
    cases hinsert.symm.trans hr
    rw [Produced.workspace_made] at hp hq hrest hpart
    rw [(erase_pasted_makes hs ht ho hle hroom).workspace_eq hp] at hrest
    rw [(substr_pasted_makes hs ht ho hfirst hle hroom).workspace_eq hq] at hpart
    have hclean : 0 ∉ s.pasted t offset k := Text.pasted_clean hs ht
    have hrest := congrArg List.length (image_injective (Text.erase_clean hclean) hs hrest)
    have hpart := congrArg List.length (image_injective (Text.substr_clean hclean) htake hpart)
    have hparts := @Text.length_erase_add_length_substr (s.pasted t offset k) offset
      (min count t.length) hfirst
    rw [Text.length_pasted hle, hrest, hpart, List.length_take] at hparts
    have hmax : intMax = 2147483647 := rfl
    refine .inl ⟨by omega, ?_⟩
    by_contra hnot
    rw [not_or, not_le, not_le] at hnot
    rw [if_pos hnot.2] at hclip
    have hlt := hcount.2
    omega

/-- What is cut out can be pasted in again where an `int` counts the characters of the
string, and what is pasted in can be cut out where one counts those of both. -/
theorem inverse_iff (hs : 0 ∉ s) (ht : 0 ∉ t) (ho : IsInt (offset - 1)) (hcount : IsInt count) :
    Inverse s t offset count ↔
      (offset < 1 ∨ s.length < intMax ∨ narrow s.length < offset - 1) ∧
        (1 ≤ offset → offset ≤ s.length + 1 → 0 < count → Pastable s t offset count) := by
  constructor
  · intro h
    exact ⟨lt_of_cutAndPaste hs ho h.cut, fun hfirst hlast hpos ↦
      pastable_of_pasteAndCut hs ht ho hfirst hpos hcount (h.paste hfirst hlast hpos.le)⟩
  · rintro ⟨hcut, hpaste⟩
    exact ⟨cutAndPaste_eq hs ho hcut, fun hfirst hlast hcount ↦
      pasteAndCut_eq hs ht ho hfirst hlast hcount (hpaste hfirst hlast)⟩

/-- `!` behind the first character of `Hi`. -/
theorem inverse_iff_behindFirst : Inverse [72, 105] [33] 2 1 :=
  (inverse_iff (by decide) (by decide) (by decide) (by decide)).mpr
    ⟨.inr (.inl (by decide)), fun _ _ _ ↦ .inl ⟨by decide, .inl (by decide)⟩⟩

/-- Not even an empty part is pasted into a string of as many characters as an `int` counts. -/
theorem not_inverse : ¬∀ (s t : Text) (offset count : ℤ), 0 ∉ s → 0 ∉ t → IsInt offset →
    -2 ^ 31 < offset → IsInt count → Inverse s t offset count := by
  intro hclaim
  have hclean : 0 ∉ List.replicate intMax (97 : UInt8) := by
    rw [List.mem_replicate, not_and]
    exact fun _ ↦ by decide
  have h := hclaim _ [] 1 0 hclean List.not_mem_nil (by decide) (by decide) (by decide)
  have hlen := lt_of_cutAndPaste hclean (by decide) h.cut
  rw [List.length_replicate, narrow_eq le_rfl] at hlen
  omega

end Inverses

end GenericFs.Spica
