import GenericFs.Library.Segments
import GenericFs.Spica.Extents

namespace GenericFs.Spica

open GenericFs.Library Cells Ensuring Segments Workspace

namespace Text

variable {white : UInt8 → Bool} {t : Text} {n o : ℕ}

theorem words_eq_zero (h : words white t = 0) : ∀ c ∈ t, white c = true := by
  rw [words] at h
  induction t with
  | nil => exact List.forall_mem_nil _
  | cons c t ih =>
    rw [wordStarts] at h
    cases hc : white c with
    | false =>
      rw [hc, if_pos ⟨rfl, rfl⟩] at h
      omega
    | true =>
      rw [hc, if_neg (by simp), Nat.zero_add] at h
      exact List.forall_mem_cons.mpr ⟨hc, ih h⟩

theorem wordStarts_le_length {inWord : Bool} : wordStarts white inWord t ≤ t.length := by
  induction t generalizing inWord with
  | nil => exact le_rfl
  | cons c t ih =>
    have hrest := @ih (!white c)
    rw [wordStarts, List.length_cons]
    split_ifs <;> omega

theorem words_le_length : words white t ≤ t.length := wordStarts_le_length

theorem dropWord_dropWhile : dropWord white (t.dropWhile white) = dropWord white t := by
  rw [dropWord, dropWord, List.dropWhile_idempotent]

/-- A text is delimiters, its first word, and the rest. -/
theorem eq_append_dropWord :
    t = t.takeWhile white ++ (t.dropWhile white).takeWhile (!white ·) ++ dropWord white t := by
  rw [List.append_assoc, dropWord, List.takeWhile_append_dropWhile (p := (!white ·)),
    List.takeWhile_append_dropWhile]

theorem iterate_suffix : (dropWord white)^[n] t <:+ t := by
  induction n generalizing t with
  | zero => exact List.suffix_rfl
  | succ n ih =>
    rw [Function.iterate_succ_apply]
    exact ih.trans ((List.dropWhile_suffix _).trans (List.dropWhile_suffix _))

theorem start_suffix : ((dropWord white)^[n] t).dropWhile white <:+ t :=
  (List.dropWhile_suffix _).trans iterate_suffix

def wordRun (white : UInt8 → Bool) (t : Text) (n : ℕ) : ℕ × ℕ :=
  (t.length - (((dropWord white)^[n] t).dropWhile white).length,
    t.length - ((dropWord white)^[n + 1] t).length)

def wordRuns (white : UInt8 → Bool) (t : Text) : List (ℕ × ℕ) :=
  (List.range (words white t)).map (wordRun white t)

theorem getElem?_wordRuns (h : n < words white t) :
    (wordRuns white t)[n]? = some (wordRun white t n) := by
  rw [wordRuns, List.getElem?_map, List.getElem?_range h, Option.map_some]

@[simp] theorem length_wordRuns : (wordRuns white t).length = words white t := by simp [wordRuns]

theorem wordRuns_of_words (h : words white t = words white (dropWord white t) + 1) :
    let first := (t.takeWhile white).length
    let last := first + ((t.dropWhile white).takeWhile (!white ·)).length
    wordRuns white t =
      (first, last) :: (wordRuns white (dropWord white t)).map fun s ↦
      (last + s.1, last + s.2) := by
  intro first last
  have hlen : t.length = last + (dropWord white t).length := by
    conv_lhs => rw [@eq_append_dropWord white t]
    simp only [List.length_append, first, last]
  have hfirst : t.length = first + (t.dropWhile white).length := by
    conv_lhs => rw [← List.takeWhile_append_dropWhile (p := white) (l := t)]
    rw [List.length_append]
  rw [wordRuns, h, List.range_succ_eq_map, List.map_cons, List.map_map, wordRuns, List.map_map]
  congr 1
  · rw [wordRun, Function.iterate_zero_apply, Function.iterate_one, Prod.mk.injEq]
    omega
  · refine List.map_congr_left fun n _ ↦ ?_
    have hstart := (@start_suffix white (dropWord white t) n).length_le
    have hend := (@iterate_suffix white (dropWord white t) (n + 1)).length_le
    simp only [Function.comp_apply, wordRun, Function.iterate_succ_apply, Prod.mk.injEq] at hend ⊢
    omega

/-- The words are the maximal runs of characters that delimit nothing. -/
theorem segmentation_wordRuns : Segmentation (fun c ↦ white c = false) t (wordRuns white t) := by
  generalize hn : words white t = n
  induction n generalizing t with
  | zero =>
    have hnil : wordRuns white t = [] := by
      rw [wordRuns, hn]
      rfl
    rw [hnil]
    exact .nil fun c hc ↦ by simp [words_eq_zero hn c hc]
  | succ n ih =>
    obtain ⟨c, u, hu, hc, hwords⟩ := exists_of_words (by omega : 0 < words white t)
    have hword : (t.dropWhile white).takeWhile (!white ·) ≠ [] := by
      rw [hu, List.takeWhile_cons_of_pos (by simp [hc])]
      exact List.cons_ne_nil _ _
    have hrest : ∀ x ∈ (dropWord white t).head?, ¬white x = false := by
      intro x hx
      have hhead := List.head?_dropWhile_not (!white ·) (t.dropWhile white)
      rw [dropWord] at hx
      rw [Option.mem_def.mp hx] at hhead
      simpa using hhead
    have hdelimiter : ∀ x ∈ t.takeWhile white, ¬white x = false := fun x hx ↦ by
      simpa using List.mem_takeWhile_imp hx
    have hcons := Segmentation.cons hdelimiter hword
      (fun x hx ↦ by simpa using List.mem_takeWhile_imp hx) hrest (ih (by omega))
    rw [← eq_append_dropWord, ← wordRuns_of_words hwords] at hcons
    exact hcons

theorem takeWords_eq :
    takeWords white n t = t.take (t.length - ((dropWord white)^[n] t).length) := by
  induction n generalizing t with
  | zero => rw [takeWords, Function.iterate_zero_apply, Nat.sub_self, List.take_zero]
  | succ n ih =>
    have hsuffix : ((dropWord white)^[n] (dropWord white t)).length ≤ (dropWord white t).length :=
      iterate_suffix.length_le
    have hparts := @eq_append_dropWord white t
    rw [Function.iterate_succ_apply, takeWords, ih]
    generalize (dropWord white)^[n] (dropWord white t) = u at hsuffix ⊢
    generalize dropWord white t = r at hsuffix hparts ⊢
    generalize t.takeWhile white ++ (t.dropWhile white).takeWhile (!white ·) = a at hparts ⊢
    rw [hparts, List.length_append, Nat.add_sub_assoc hsuffix, List.take_length_add_append]

theorem eq_drop_start : ((dropWord white)^[o] t).dropWhile white = t.drop (wordRun white t o).1 :=
  List.suffix_iff_eq_drop.mp start_suffix

/-- From the beginning of a word to the end of the same or a later one. -/
theorem takeWords_start : takeWords white (n + 1) (((dropWord white)^[o] t).dropWhile white) =
    (t.take (wordRun white t (o + n)).2).drop (wordRun white t o).1 := by
  have hend : (dropWord white)^[n + 1] (((dropWord white)^[o] t).dropWhile white) =
      (dropWord white)^[o + n + 1] t := by
    have hsum : o + n + 1 = n + (1 + o) := by omega
    rw [Function.iterate_succ_apply, dropWord_dropWhile, hsum, Function.iterate_add_apply,
      Function.iterate_add_apply, Function.iterate_one]
  rw [takeWords_eq, hend, eq_drop_start, List.length_drop, List.drop_take, wordRun, wordRun]
  congr 1
  omega

variable {offset count : ℤ}

theorem subword_nothing (h : offset < 1 ∨ count ≤ 0 ∨ words white t < offset) :
    t.subword white offset count = [] := by
  rw [subword]
  split
  · rfl
  · have hzero : min count.toNat (words white t - (offset - 1).toNat) = 0 := by omega
    rw [hzero, takeWords]

theorem subword_something (ho : 1 ≤ offset) (hc : 0 < count) (h : offset ≤ words white t) :
    t.subword white offset count =
      (t.take (wordRun white t (min (offset + count - 1) (words white t) - 1).toNat).2).drop
        (wordRun white t (offset - 1).toNat).1 := by
  obtain ⟨n, hn⟩ := Nat.exists_eq_add_of_le'
    (by omega : 1 ≤ min count.toNat (words white t - (offset - 1).toNat))
  have hlast : (min (offset + count - 1) (words white t) - 1).toNat = (offset - 1).toNat + n := by
    omega
  rw [subword, if_neg (by omega), hn, hlast]
  exact takeWords_start

end Text

/-- What is extracted, where the runs without delimiters are those of the list. -/
structure Extracted (white : UInt8 → Bool) (t : Text) (offset count : ℤ) (R : List (ℕ × ℕ)) :
    Prop where
  runs : Segmentation (fun c ↦ white c = false) t R
  words : words (image t) white = .ok (R.length : ℤ)
  nothing : offset < 1 ∨ count ≤ 0 ∨ R.length < offset →
    Makes (subword (image t) offset count white) t False []
  something : 1 ≤ offset → 0 < count → offset ≤ R.length → ∃ first last,
    R[(offset - 1).toNat]? = some first ∧
      R[(min (offset + count - 1) R.length - 1).toNat]? = some last ∧
        Makes (subword (image t) offset count white) t False ((t.take last.2).drop first.1)

/-- There are no more runs, and from the first to the last one asked for no more
characters, than an `int` counts. -/
def FewRuns (white : UInt8 → Bool) (t : Text) (offset count : ℤ) : Prop :=
  ∀ R, Segmentation (fun c ↦ white c = false) t R → R.length ≤ intMax ∧
    ∀ first last, 1 ≤ offset → 0 < count → R[(offset - 1).toNat]? = some first →
      R[(min (offset + count - 1) R.length - 1).toNat]? = some last → last.2 - first.1 < intMax

section Extraction

variable {white : UInt8 → Bool} {t : Text} {offset count : ℤ} {R : List (ℕ × ℕ)}

theorem ensures_wordsLoop {w : Workspace} {n : ℤ} {inWord : Bool} (hn : n ≤ intMax) :
    Ensures (wordsLoop white w n inWord) fun m ↦ m ≤ intMax := by
  have hmax : intMax = 2147483647 := rfl
  induction w generalizing n inWord with
  | nil => exact .error
  | cons c w ih =>
    cases c with
    | none => exact .error
    | some c =>
      rw [wordsLoop]
      split_ifs
      · exact .ok hn
      · refine ensures_int.bind ?_
        rintro m ⟨rfl, hint⟩
        have hlt := hint.2
        exact ih (by omega)
      · exact ih hn
      · exact ih hn

theorem Produced.Short.of_makes {e : Except Fault Produced} {u : Text}
    (h : Ensures e Produced.Short) (hmakes : Makes e t False u) : u.length < intMax := by
  obtain ⟨-, rfl⟩ | hmade | ⟨hfalse, -⟩ := hmakes
  · decide
  · have hlen : (image u).length ≤ intMax := h _ hmade
    rwa [length_image] at hlen
  · exact hfalse.elim

theorem Extracted.fewRuns (h : Extracted white t offset count R) :
    FewRuns white t offset count := by
  intro R' hR'
  obtain rfl := h.runs.unique hR'
  have hwords : (R.length : ℤ) ≤ intMax := ensures_wordsLoop (Int.natCast_nonneg intMax) _ h.words
  refine ⟨by omega, fun first last ho hc hfirst hlast ↦ ?_⟩
  have hin : (offset - 1).toNat < R.length := (List.getElem?_eq_some_iff.mp hfirst).1
  obtain ⟨first', last', hfirst', hlast', hmakes⟩ := h.something ho hc (by omega)
  cases hfirst.symm.trans hfirst'
  cases hlast.symm.trans hlast'
  have hshort := Produced.Short.of_makes subword_short hmakes
  have hbound := ((h.runs.mem_iff _ _).mp (List.mem_of_getElem? hlast)).bound
  rwa [List.length_drop, List.length_take_of_le hbound] at hshort

theorem FewRuns.of_length (h : t.length < intMax) : FewRuns white t offset count := by
  intro R hR
  obtain rfl := hR.unique Text.segmentation_wordRuns
  rw [Text.length_wordRuns]
  refine ⟨Text.words_le_length.trans h.le, fun first last _ _ _ hlast ↦ ?_⟩
  have hbound := ((hR.mem_iff _ _).mp (List.mem_of_getElem? hlast)).bound
  omega

/-- The two scanners find the same words in every string, as long as an `int` counts
these words and the characters that are copied. -/
theorem exists_extracted_iff {delimiters : Option (List UInt8)} (ht : 0 ∉ t)
    (ho : IsInt (offset - 1)) : (∃ R, Extracted (isWhite delimiters) t offset count R) ↔
      FewRuns (isWhite delimiters) t offset count := by
  refine ⟨fun ⟨R, h⟩ ↦ h.fewRuns, fun h ↦ ⟨Text.wordRuns (isWhite delimiters) t, ?_⟩⟩
  obtain ⟨hwords, hslice⟩ := h _ Text.segmentation_wordRuns
  rw [Text.length_wordRuns] at hwords hslice
  have hmakes : (t.subword (isWhite delimiters) offset count).length < intMax →
      Makes (subword (image t) offset count (isWhite delimiters)) t False
        (t.subword (isWhite delimiters) offset count) :=
    fun hlen ↦ subword_makes ht ho fun _ _ ↦ ⟨hwords, hlen⟩
  constructor
  · exact Text.segmentation_wordRuns
  · rw [words_image ht hwords, Text.length_wordRuns]
  · intro hnothing
    rw [Text.length_wordRuns] at hnothing
    rw [Text.subword_nothing hnothing] at hmakes
    exact hmakes (by decide)
  · intro hfirst hcount hin
    rw [Text.length_wordRuns] at hin ⊢
    generalize isWhite delimiters = white at hin hslice hmakes ⊢
    have hstart := Text.getElem?_wordRuns (by omega : (offset - 1).toNat < Text.words white t)
    have hend := Text.getElem?_wordRuns
      (by omega : (min (offset + count - 1) (Text.words white t) - 1).toNat < Text.words white t)
    have hlen := hslice _ _ hfirst hcount hstart hend
    rw [Text.subword_something hfirst hcount hin] at hmakes
    refine ⟨_, _, hstart, hend, hmakes ?_⟩
    rw [List.length_drop, List.length_take]
    omega

/-- The second word of `Hi You`. -/
theorem exists_extracted_iff_second :
    ∃ R, Extracted (isWhite none) [72, 105, 32, 89, 111, 117] 2 1 R :=
  (exists_extracted_iff (by decide) (by decide)).mpr (.of_length (by decide))

/-- A word of as many characters as an `int` counts is not extracted. -/
theorem not_exists_extracted : ¬∀ (delimiters : Option (List UInt8)) (t : Text) (offset count : ℤ),
    0 ∉ t → IsInt offset → -2 ^ 31 < offset → IsInt count →
      ∃ R, Extracted (isWhite delimiters) t offset count R := by
  intro hclaim
  have hclean : 0 ∉ List.replicate intMax (97 : UInt8) := by
    rw [List.mem_replicate, not_and]
    exact fun _ ↦ by decide
  have hletter : ∀ x ∈ List.replicate intMax (97 : UInt8), isWhite none x = false := by
    intro x hx
    rw [List.eq_of_mem_replicate hx]
    rfl
  have hne : List.replicate intMax (97 : UInt8) ≠ [] := by
    rw [Ne, List.replicate_eq_nil_iff]
    decide
  have hseg := Segmentation.cons (a := []) nofun hne hletter (r := []) nofun (.nil nofun)
  rw [List.nil_append, List.append_nil, List.length_replicate] at hseg
  obtain ⟨R, h⟩ := hclaim none _ 1 1 hclean (by decide) (by decide) (by decide)
  exact absurd ((h.fewRuns _ hseg).2 _ _ le_rfl one_pos rfl rfl) (by simp)

end Extraction

end GenericFs.Spica
