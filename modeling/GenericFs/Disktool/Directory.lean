import GenericFs.Disktool.CreateFile

namespace GenericFs.Disktool

open Function GenericFs.Library Store

/-- What a directory entry says: a name and the number of an inode. -/
structure Entry where
  name : List UInt8
  inode : ℕ
  deriving DecidableEq

def Entry.length (e : Entry) : ℕ := 9 + e.name.length

structure Entry.At (e : Entry) (w : ℕ → UInt8) (off : ℕ) : Prop where
  inode : word 4 w (off + 4) = e.inode
  size : (w (off + 8)).toNat = e.name.length
  name : slice w (off + 9) e.name.length = e.name

def extent (es : List Entry) : ℕ := (es.map Entry.length).sum

def offsetOf (es : List Entry) (k : ℕ) : ℕ := extent (es.take k)

/-- A directory block holds a list of entries, packed one behind the other. -/
structure Listed (w : ℕ → UInt8) (es : List Entry) : Prop where
  nonempty : es ≠ []
  entry : ∀ k (h : k < es.length), (es[k]).At w (offsetOf es k)
  next : ∀ k, k + 1 < es.length → word 4 w (offsetOf es k) = offsetOf es (k + 1)
  last : word 4 w (offsetOf es (es.length - 1)) = 0

variable {w w' : ℕ → UInt8} {es : List Entry} {e : Entry} {k n off : ℕ} {t : Tool}

theorem Entry.At.congr (h : e.At w off) (hw : ∀ k < e.length, 4 ≤ k → w' (off + k) = w (off + k)) :
    e.At w' off := by
  have hlen : e.length = 9 + e.name.length := rfl
  constructor
  · rw [← h.inode]
    apply word_congr
    intro k hk
    rw [Nat.add_assoc]
    exact hw _ (by omega) (by omega)
  · rw [hw 8 (by omega) (by omega), h.size]
  · rw [← h.name]
    simp only [length_slice]
    apply slice_congr
    intro k hk
    rw [Nat.add_assoc]
    exact hw _ (by omega) (by omega)

theorem extent_append (e : Entry) : extent (es ++ [e]) = extent es + e.length := by
  simp [extent]

theorem length_append_sub_one : (es ++ [e]).length - 1 = es.length := by simp

theorem offsetOf_length : offsetOf es es.length = extent es := by
  rw [offsetOf, List.take_length]

theorem offsetOf_succ (h : k < es.length) :
    offsetOf es (k + 1) = offsetOf es k + (es[k]).length := by
  rw [offsetOf, List.take_succ_eq_append_getElem h, extent_append]
  rfl

theorem offsetOf_append (h : k ≤ es.length) : offsetOf (es ++ [e]) k = offsetOf es k := by
  rw [offsetOf, List.take_append_of_le_length h]
  rfl

theorem offsetOf_mono {m : ℕ} (h : k ≤ m) (hm : m ≤ es.length) : offsetOf es k ≤ offsetOf es m := by
  induction m, h using Nat.le_induction with
  | base => exact le_rfl
  | succ m _ ih =>
    rw [offsetOf_succ hm]
    have := ih (by omega)
    omega

theorem offsetOf_lt {m : ℕ} (h : k < m) (hm : m ≤ es.length) :
    offsetOf es k + 9 ≤ offsetOf es m := by
  have hmono := offsetOf_mono h hm
  rw [offsetOf_succ (by omega), Entry.length] at hmono
  omega

theorem le_offsetOf (h : k ≤ es.length) : 9 * k ≤ offsetOf es k := by
  induction k with
  | zero => exact Nat.zero_le _
  | succ k ih =>
    have := ih (by omega)
    rw [offsetOf_succ (by omega), Entry.length]
    omega

namespace Listed

theorem length_pos (L : Listed w es) : 0 < es.length := List.length_pos_iff.mpr L.nonempty

theorem last_add_nine_le (L : Listed w es) : offsetOf es (es.length - 1) + 9 ≤ extent es := by
  rw [← offsetOf_length]
  have := L.length_pos
  exact offsetOf_lt (by omega) le_rfl

theorem congr (L : Listed w es) (hw : ∀ k < extent es, w' k = w k) : Listed w' es := by
  have hend : ∀ k (hk : k < es.length), offsetOf es k + (es[k]).length ≤ extent es := by
    intro k hk
    rw [← offsetOf_succ hk, ← offsetOf_length]
    exact offsetOf_mono hk le_rfl
  have hword : ∀ k < es.length, word 4 w' (offsetOf es k) = word 4 w (offsetOf es k) := by
    intro k hk
    have hle := hend k hk
    rw [Entry.length] at hle
    apply word_congr
    intro j hj
    exact hw _ (by omega)
  refine ⟨L.nonempty, fun k hk ↦ ?_, fun k hk ↦ ?_, ?_⟩
  · apply (L.entry k hk).congr
    intro j hj _
    have hle := hend k hk
    exact hw _ (by omega)
  · rw [hword k (by omega)]
    exact L.next k hk
  · rw [hword _ (by have := L.length_pos; omega)]
    exact L.last

/-- A directory with one more entry: the link of the last entry changes, and the
new entry follows. -/
theorem append (L : Listed w es)
    (hkeep : ∀ k < extent es, k < offsetOf es (es.length - 1) ∨
    offsetOf es (es.length - 1) + 4 ≤ k →
      w' k = w k)
    (hlink : word 4 w' (offsetOf es (es.length - 1)) = extent es) (he : e.At w' (extent es))
    (hlast : word 4 w' (extent es) = 0) : Listed w' (es ++ [e]) := by
  have hpos := L.length_pos
  refine ⟨by simp, fun k hk ↦ ?_, fun k hk ↦ ?_, ?_⟩
  · rw [List.length_append, List.length_singleton] at hk
    rw [offsetOf_append (by omega)]
    by_cases hlt : k < es.length
    · rw [List.getElem_append_left hlt]
      apply (L.entry k hlt).congr
      intro j hj hfour
      have hend : offsetOf es k + (es[k]).length ≤ extent es := by
        rw [← offsetOf_succ hlt, ← offsetOf_length]
        exact offsetOf_mono hlt le_rfl
      apply hkeep _ (by omega)
      rcases Nat.lt_or_ge (k + 1) es.length with hnext | hnext
      · left
        have hle : offsetOf es (k + 1) ≤ offsetOf es (es.length - 1) :=
          offsetOf_mono (by omega) (by omega)
        rw [offsetOf_succ hlt] at hle
        omega
      · right
        have hsame : es.length - 1 = k := by omega
        rw [hsame]
        omega
    · have hsame : k = es.length := by omega
      subst hsame
      rw [List.getElem_concat_length rfl, offsetOf_length]
      exact he
  · rw [List.length_append, List.length_singleton] at hk
    rw [offsetOf_append (by omega), offsetOf_append (by omega)]
    rcases Nat.lt_or_ge (k + 1) es.length with hnext | hnext
    · rw [← L.next k hnext]
      have hlt : offsetOf es k + 9 ≤ offsetOf es (es.length - 1) :=
        offsetOf_lt (by omega) (by omega)
      have hend := L.last_add_nine_le
      apply word_congr
      intro j hj
      exact hkeep _ (by omega) (.inl (by omega))
    · have hsame : k = es.length - 1 := by omega
      have hend : k + 1 = es.length := by omega
      rw [hend, hsame, hlink, offsetOf_length]
  · rw [length_append_sub_one, offsetOf_append le_rfl, offsetOf_length, hlast]

/-- The links say where the walk along a directory goes. -/
theorem next_eq_zero_iff (L : Listed w es) (hk : k < es.length) :
    word 4 w (offsetOf es k) = 0 ↔ k = es.length - 1 := by
  constructor
  · intro hzero
    by_contra hne
    have hpos : 9 * (k + 1) ≤ offsetOf es (k + 1) := le_offsetOf (by omega)
    rw [← L.next k (by omega), hzero] at hpos
    omega
  · rintro rfl
    exact L.last

theorem unique {es' : List Entry} (L : Listed w es) (L' : Listed w es') : es = es' := by
  have htakes : ∀ k, k ≤ es.length → k ≤ es'.length → es.take k = es'.take k := by
    intro k
    induction k with
    | zero =>
      intro _ _
      rw [List.take_zero, List.take_zero]
    | succ k ih =>
      intro hk hk'
      have htake := ih (by omega) (by omega)
      have hoff : offsetOf es k = offsetOf es' k := by rw [offsetOf, htake, offsetOf]
      have h := L.entry k hk
      have h' := L'.entry k hk'
      rw [hoff] at h
      have hlen : (es[k]).name.length = (es'[k]).name.length := h.size.symm.trans h'.size
      have hname : (es[k]).name = (es'[k]).name := by rw [← h.name, hlen, h'.name]
      have hinode : (es[k]).inode = (es'[k]).inode := h.inode.symm.trans h'.inode
      have hentry : es[k] = es'[k] := by
        cases hes : es[k]
        cases hes' : es'[k]
        simp_all
      rw [List.take_succ_eq_append_getElem hk, List.take_succ_eq_append_getElem hk', htake, hentry]
  have hlast : ∀ {es es' : List Entry}, Listed w es → Listed w es' →
      (∀ k, k ≤ es.length → k ≤ es'.length → es.take k = es'.take k) → es'.length ≤ es.length := by
    intro es es' L L' htakes
    by_contra hlt
    have hpos := L.length_pos
    have hoff : offsetOf es (es.length - 1) = offsetOf es' (es.length - 1) := by
      rw [offsetOf, htakes _ (by omega) (by omega), offsetOf]
    have hzero := L.last
    rw [hoff, L'.next_eq_zero_iff (by omega)] at hzero
    omega
  have hle := hlast L L' htakes
  have hge := hlast L' L fun k h h' ↦ (htakes k h' h).symm
  have h := htakes es.length le_rfl hge
  rwa [List.take_length, Nat.le_antisymm hge hle, List.take_length] at h

theorem end_eq (L : Listed w es) : offsetOf es (es.length - 1) + 4 + 4 +
    ((w (offsetOf es (es.length - 1) + 4 + 4)).toNat + 1) = extent es := by
  have hpos := L.length_pos
  have hlast := offsetOf_succ (show es.length - 1 < es.length by omega)
  have hentry := (L.entry (es.length - 1) (by omega)).size
  rw [Nat.sub_add_cancel hpos, offsetOf_length, Entry.length] at hlast
  rw [Nat.add_assoc _ 4 4, hentry, hlast]
  omega

theorem lastEntry_run (L : Listed w es) (hext : extent es ≤ 4096) (hk : k < es.length)
    (hn : es.length - k ≤ n) :
    (lastEntry w n (offsetOf es k)).run t = .ok (offsetOf es (es.length - 1)) t := by
  induction n generalizing k with
  | zero => omega
  | succ n ih =>
    have hend := offsetOf_lt hk le_rfl
    rw [offsetOf_length] at hend
    rw [lastEntry, EStateM.run_bind, loadWord_run (by simp only [blockSize]; omega)]
    by_cases hlast : k = es.length - 1
    · have hzero := (L.next_eq_zero_iff hk).mpr hlast
      rw [← hlast]
      simp only [hzero, ne_eq, not_true_eq_false, ↓reduceIte, EStateM.run_pure]
    · have hnext := (L.next_eq_zero_iff hk).not.mpr hlast
      simp only [hnext, ne_eq, not_false_eq_true, ↓reduceIte]
      rw [L.next k (by omega)]
      exact ih (by omega) (by omega)

end Listed

def rowOf (es : List Entry) (k : ℕ) (h : k < es.length) : Row where
  offset := offsetOf es k
  next := if k + 1 < es.length then offsetOf es (k + 1) else 0
  inode := (es[k]).inode
  name := (es[k]).name

theorem showName_run {size : UInt8} (hsize : size.toNat = n) (hn : n < 128)
    (hfit : off + n ≤ 4096) : (showName w off size).run t = .ok (slice w off n) t := by
  subst hsize
  rw [showName]
  by_cases hzero : size = 0
  · subst hzero
    rfl
  · have hsigned : ¬(128 ≤ size.toNat ∨ size = 0) := by
      rintro (h | h)
      · omega
      · exact hzero h
    rw [if_neg hsigned, if_pos hfit, EStateM.run_pure]

namespace Listed

theorem showRows_run (L : Listed w es) (hext : extent es ≤ 4096)
    (hnames : ∀ e ∈ es, e.name.length < 128) (hk : k < es.length) (hn : es.length - k ≤ n) :
    ∃ rows, (showRows w n (offsetOf es k)).run t = .ok rows t ∧ rows.length = es.length - k ∧
      ∀ j (hj : k + j < es.length), rows[j]? = some (rowOf es (k + j) hj) := by
  induction n generalizing k with
  | zero => omega
  | succ n ih =>
    have hend : offsetOf es k + (es[k]).length ≤ extent es := by
      rw [← offsetOf_succ hk, ← offsetOf_length]
      exact offsetOf_mono hk le_rfl
    have hlen : (es[k]).length = 9 + (es[k]).name.length := rfl
    have hentry := L.entry k hk
    have hname := showName_run (t := t) (w := w) hentry.size (hnames _ (List.getElem_mem hk))
      (show offsetOf es k + 9 + (es[k]).name.length ≤ 4096 by omega)
    rw [hentry.name] at hname
    have hload : (loadWord w (offsetOf es k)).run t = .ok (word 4 w (offsetOf es k)) t :=
      loadWord_run (by simp only [blockSize]; omega)
    have hinode : (loadWord w (offsetOf es k + 4)).run t = .ok (es[k]).inode t := by
      rw [loadWord_run (by simp only [blockSize]; omega), hentry.inode]
    have hsize : (loadByte w (offsetOf es k + 8)).run t = .ok (w (offsetOf es k + 8)) t :=
      loadByte_run (by simp only [blockSize]; omega)
    by_cases hlast : k = es.length - 1
    · have hzero := (L.next_eq_zero_iff hk).mpr hlast
      have hnot : ¬k + 1 < es.length := by omega
      refine ⟨[rowOf es k hk], ?_, ?_, fun j hj ↦ ?_⟩
      · simp only [showRows, EStateM.run_bind, hload, hinode, hsize, hname, hzero, ↓reduceIte,
          EStateM.run_pure, rowOf, hnot]
      · rw [List.length_singleton]
        omega
      · obtain rfl : j = 0 := by omega
        rfl
    · have hnext := (L.next_eq_zero_iff hk).not.mpr hlast
      have hlt : k + 1 < es.length := by omega
      rw [L.next k hlt] at hload hnext
      obtain ⟨rows, hrows, hcount, hrow⟩ := ih hlt (by omega)
      refine ⟨rowOf es k hk :: rows, ?_, ?_, fun j hj ↦ ?_⟩
      · simp only [showRows, EStateM.run_bind, hload, hinode, hsize, hname, hnext, ↓reduceIte,
          hrows, EStateM.run_pure, rowOf, hlt]
      · rw [List.length_cons, hcount]
        omega
      · cases j with
        | zero => rfl
        | succ j =>
          rw [List.getElem?_cons_succ, hrow j (by omega)]
          congr 2
          omega

end Listed

end GenericFs.Disktool
