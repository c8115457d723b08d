import GenericFs.Library.Walks
import GenericFs.Library.Returning
import GenericFs.Driver.Dir

namespace GenericFs.Driver

open GenericFs.Library Store Walks Returning GenericFs.Disktool

def nextEntry (w : Workspace) (off : ℕ) : Option ℕ :=
  if word 4 w off = 0 then none else some (word 4 w off)

/-- The characters of a name that `show_root_dir` reads, its length being a signed `char`. -/
def shownSize (size : UInt8) : ℕ := if 128 ≤ size.toNat then 0 else size.toNat

def EntryInside (w : Workspace) (off : ℕ) : Prop := off + 9 + shownSize (w (off + 8)) ≤ 4096

/-- The three walks over a block come to an end, and all that they read is in the block. -/
structure WalksEnd (w : Workspace) : Prop where
  createFile : ∃ turns last, ∀ t, (lastEntry w turns 0).run t = .ok last t
  showRootDir : ∃ turns rows, (∀ t, (showRows w turns 0).run t = .ok rows t) ∧
    ∀ row ∈ rows, row.offset < 4096
  readdir : ∃ turns emitted, readCalls (onePage w) turns 0 = some emitted

variable {w : Workspace} {l : List ℕ} {n off : ℕ} {t t' : Tool}

theorem nextEntry_eq_none : nextEntry w off = none ↔ word 4 w off = 0 := by
  simp [nextEntry]

theorem nextEntry_eq_some {next : ℕ} :
    nextEntry w off = some next ↔ word 4 w off = next ∧ next ≠ 0 := by
  rw [nextEntry]
  split_ifs with hzero
  · simp only [false_iff, not_and, not_not]
    intro hnext
    rw [← hnext, hzero]
  · rw [Option.some_inj]
    exact ⟨fun h ↦ ⟨h, h ▸ hzero⟩, And.left⟩

theorem EntryInside.header (h : EntryInside w off) :
    off + 9 ≤ 4096 := (Nat.le_add_right _ _).trans h

theorem lastEntry_succ (h : EntryInside w off) : (lastEntry w (n + 1) off).run t =
    (if word 4 w off ≠ 0 then lastEntry w n (word 4 w off) else pure off).run t := by
  have hheader := h.header
  rw [lastEntry, run_bind_ok (loadWord_run (by simp only [blockSize]; omega))]

theorem lastEntry_of_trail (h : Trail (nextEntry w) off l) (hin : ∀ c ∈ l, EntryInside w c)
    (hn : l.length ≤ n) : ∃ last, ∀ t, (lastEntry w n off).run t = .ok last t := by
  induction h generalizing n with
  | @last a hend =>
    rw [List.length_singleton] at hn
    obtain ⟨n, rfl⟩ : ∃ m, n = m + 1 := ⟨n - 1, by omega⟩
    refine ⟨a, fun t ↦ ?_⟩
    rw [lastEntry_succ (hin a (List.mem_singleton_self a)), nextEntry_eq_none.mp hend]
    rfl
  | @cons a b l hnext _ ih =>
    rw [List.length_cons] at hn
    obtain ⟨n, rfl⟩ : ∃ m, n = m + 1 := ⟨n - 1, by omega⟩
    obtain ⟨hword, hne⟩ := nextEntry_eq_some.mp hnext
    obtain ⟨last, hlast⟩ :=
      ih (fun c hc ↦ hin c (List.mem_cons_of_mem _ hc)) (Nat.le_of_succ_le_succ hn)
    refine ⟨last, fun t ↦ ?_⟩
    rw [lastEntry_succ (hin a List.mem_cons_self), hword, if_pos hne]
    exact hlast t

theorem showName_returns {size : UInt8} (h : off + shownSize size ≤ 4096) :
    ∃ name, ∀ t, (showName w off size).run t = .ok name t := by
  by_cases hsigned : 128 ≤ size.toNat ∨ size = 0
  · exact ⟨[], fun t ↦ by rw [showName, if_pos hsigned]; rfl⟩
  · rw [shownSize, if_neg fun hlarge ↦ hsigned (.inl hlarge)] at h
    exact ⟨slice w off size.toNat, fun t ↦ by rw [showName, if_neg hsigned, if_pos h]; rfl⟩

theorem shownSize_le_of_showName {size : UInt8} {name : List UInt8} (hoff : off ≤ 4096)
    (h : (showName w off size).run t = .ok name t') : off + shownSize size ≤ 4096 := by
  by_cases hsigned : 128 ≤ size.toNat ∨ size = 0
  · have hzero : shownSize size = 0 := by
      rcases hsigned with hlarge | rfl
      · exact if_pos hlarge
      · rfl
    rwa [hzero]
  · rw [showName, if_neg hsigned] at h
    split_ifs at h with hfit
    · rwa [shownSize, if_neg fun hlarge ↦ hsigned (.inl hlarge)]
    · cases h

/-- The line of an entry, and the lines behind it. -/
theorem showRows_succ (h : EntryInside w off) : ∃ row : Row, row.offset = off ∧ ∀ n t,
    (showRows w (n + 1) off).run t = (if word 4 w off = 0 then pure [row] else do
      let rows ← showRows w n (word 4 w off)
      pure (row :: rows) : Action (List Row)).run t := by
  have hheader := h.header
  obtain ⟨name, hname⟩ := showName_returns (w := w) h
  refine ⟨⟨off, word 4 w off, word 4 w (off + 4), name⟩, rfl, fun n t ↦ ?_⟩
  rw [showRows, run_bind_ok (loadWord_run (by simp only [blockSize]; omega)),
    run_bind_ok (loadWord_run (by simp only [blockSize]; omega)),
    run_bind_ok (loadByte_run (by simp only [blockSize]; omega)), run_bind_ok (hname t)]

theorem showRows_of_trail (h : Trail (nextEntry w) off l) (hin : ∀ c ∈ l, EntryInside w c)
    (hn : l.length ≤ n) :
    ∃ rows, rows.map Row.offset = l ∧ ∀ t, (showRows w n off).run t = .ok rows t := by
  induction h generalizing n with
  | @last a hend =>
    rw [List.length_singleton] at hn
    obtain ⟨n, rfl⟩ : ∃ m, n = m + 1 := ⟨n - 1, by omega⟩
    obtain ⟨row, hoffset, hrow⟩ := showRows_succ (hin a (List.mem_singleton_self a))
    refine ⟨[row], by rw [List.map_singleton, hoffset], fun t ↦ ?_⟩
    rw [hrow, if_pos (nextEntry_eq_none.mp hend)]
    rfl
  | @cons a b l hnext _ ih =>
    rw [List.length_cons] at hn
    obtain ⟨n, rfl⟩ : ∃ m, n = m + 1 := ⟨n - 1, by omega⟩
    obtain ⟨hword, hne⟩ := nextEntry_eq_some.mp hnext
    obtain ⟨row, hoffset, hrow⟩ := showRows_succ (hin a List.mem_cons_self)
    obtain ⟨rows, hoffsets, hrows⟩ :=
      ih (fun c hc ↦ hin c (List.mem_cons_of_mem _ hc)) (Nat.le_of_succ_le_succ hn)
    refine ⟨row :: rows, by rw [List.map_cons, hoffset, hoffsets], fun t ↦ ?_⟩
    rw [hrow, hword, if_neg hne, run_bind_ok (hrows t)]
    rfl

theorem trail_of_showRows {rows : List Row} (h : (showRows w n off).run t = .ok rows t') :
    ∃ l, Trail (nextEntry w) off l ∧ ∀ c ∈ l, EntryInside w c := by
  induction n generalizing off rows t t' with
  | zero => cases h
  | succ n ih =>
    by_cases hheader : off + 8 < 4096
    · rw [showRows, run_bind_ok (loadWord_run (by simp only [blockSize]; omega)),
        run_bind_ok (loadWord_run (by simp only [blockSize]; omega)),
        run_bind_ok (loadByte_run hheader)] at h
      obtain ⟨name, u, hname, h⟩ := exists_of_run_bind h
      have hinside : EntryInside w off := shownSize_le_of_showName (by omega) hname
      by_cases hlast : word 4 w off = 0
      · exact ⟨[off], .last (nextEntry_eq_none.mpr hlast), by simpa using hinside⟩
      · rw [if_neg hlast] at h
        obtain ⟨rows', u', hrows, -⟩ := exists_of_run_bind h
        obtain ⟨l, hl, hin⟩ := ih hrows
        exact ⟨off :: l, .cons (nextEntry_eq_some.mpr ⟨rfl, hlast⟩) hl,
          List.forall_mem_cons.mpr ⟨hinside, hin⟩⟩
    · rw [showRows] at h
      obtain ⟨_, _, -, h⟩ := exists_of_run_bind h
      obtain ⟨_, _, -, h⟩ := exists_of_run_bind h
      rw [run_bind_error (loadByte_undefined hheader)] at h
      cases h

/-- The driver makes no more calls than there are entries, and one that finds the end. -/
theorem readCalls_of_trail (h : Trail (nextEntry w) off l) (hn : l.length < n) :
    ∃ emitted, readCalls (onePage w) n off = some emitted := by
  induction h generalizing n with
  | @last a hend =>
    rw [List.length_singleton] at hn
    obtain ⟨n, rfl⟩ : ∃ m, n = m + 1 + 1 := ⟨n - 2, by omega⟩
    rcases Nat.lt_or_ge 4083 a with hlate | hle
    · exact ⟨[], readCalls_none hlate⟩
    · rw [readCalls, gfsReaddir_some hle, if_pos (nextEntry_eq_none.mp hend)]
      simp only [readCalls_none (by decide : 4083 < 4096), Option.map_some, Option.some.injEq,
        exists_eq']
  | @cons a b l hnext _ ih =>
    rw [List.length_cons] at hn
    obtain ⟨n, rfl⟩ : ∃ m, n = m + 1 := ⟨n - 1, by omega⟩
    obtain ⟨hword, hne⟩ := nextEntry_eq_some.mp hnext
    rcases Nat.lt_or_ge 4083 a with hlate | hle
    · exact ⟨[], readCalls_none hlate⟩
    · obtain ⟨emitted, hemitted⟩ := ih (n := n) (by omega)
      rw [readCalls, gfsReaddir_some hle, hword, if_neg hne]
      simp only [hemitted, Option.map_some, Option.some.injEq, exists_eq']

theorem WalksEnd.trail (h : WalksEnd w) :
    ∃ l, Trail (nextEntry w) 0 l ∧ ∀ c ∈ l, EntryInside w c := by
  obtain ⟨_, _, hrows, -⟩ := h.showRootDir
  exact trail_of_showRows (hrows ⟨0, fun _ ↦ 0, 0, []⟩)

end GenericFs.Driver
