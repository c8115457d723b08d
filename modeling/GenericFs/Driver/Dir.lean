import GenericFs.Disktool.Directory

namespace GenericFs.Driver

open GenericFs.Library Store GenericFs.Disktool

abbrev pageSize : ℕ := 4096

/-- The size of `struct gfs_direntry` with its padding; the name is at offset 9. -/
abbrev direntrySize : ℕ := 12

/-- The inode of a directory: its size, and the bytes of its pages from the address
on where each is mapped, if the page can be read. -/
structure Directory where
  iSize : ℕ
  page : ℕ → Option (ℕ → UInt8)

/-- The last position that is read; the size of the structure makes the difference an
`unsigned long`. -/
def Directory.bound (inode : Directory) : ℕ := (2 ^ 64 - direntrySize - 1 + inode.iSize) % 2 ^ 64

/-- One call of `gfs_readdir` at a position: what `dir_emit` is given, if it is
called, and the new position. -/
def gfsReaddir (inode : Directory) (pos : ℕ) : Option (List UInt8 × ℕ) × ℕ :=
  let n := pos / pageSize
  let offset := pos % pageSize
  if inode.bound < pos then (none, pos)
  else
    match inode.page n with
    | none => (none, pos)
    | some kaddr =>
      if offset ≤ pageSize - direntrySize - 1 then
        let nextOffset := word 4 kaddr offset
        let name := slice kaddr (offset + 9) (kaddr (offset + 8)).toNat
        (some (name, word 4 kaddr (offset + 4)), if nextOffset = 0 then inode.iSize else nextOffset)
      else (none, pos)

/-- The calls from a position on until one of them emits nothing, with a bound on
their number. -/
def readCalls (inode : Directory) : ℕ → ℕ → Option (List (List UInt8 × ℕ))
  | 0, _ => none
  | turns + 1, pos =>
    match gfsReaddir inode pos with
    | (none, _) => some []
    | (some entry, pos) => (readCalls inode turns pos).map (entry :: ·)

/-- The calls from the start of the directory emit the entries of the list, one after
the other, and then nothing. -/
def Directory.Lists (inode : Directory) (es : List Entry) : Prop :=
  ∃ turns, readCalls inode turns 0 = some (es.map fun e ↦ (e.name, e.inode))

def onePage (w : ℕ → UInt8) : Directory where
  iSize := 4096
  page _ := some w

variable {w : ℕ → UInt8} {es : List Entry} {n m k pos : ℕ}

theorem bound_onePage : (onePage w).bound = 4083 := by
  simp only [Directory.bound, onePage, direntrySize]
  norm_num

theorem gfsReaddir_none (h : 4083 < pos) : gfsReaddir (onePage w) pos = (none, pos) := by
  simp only [gfsReaddir, bound_onePage, h, ↓reduceIte]

theorem gfsReaddir_some (h : pos ≤ 4083) : gfsReaddir (onePage w) pos =
    (some (slice w (pos + 9) (w (pos + 8)).toNat, word 4 w (pos + 4)),
      if word 4 w pos = 0 then 4096 else word 4 w pos) := by
  have hoffset : pos % 4096 = pos := Nat.mod_eq_of_lt (by omega)
  have hbound : ¬4083 < pos := not_lt.mpr h
  have hlimit : pos ≤ 4096 - 12 - 1 := h
  simp only [gfsReaddir, bound_onePage, hbound, ↓reduceIte]
  simp only [onePage, pageSize, direntrySize, hoffset, hlimit, ↓reduceIte]

theorem readCalls_none (h : 4083 < pos) : readCalls (onePage w) (n + 1) pos = some [] := by
  rw [readCalls, gfsReaddir_none h]

theorem readCalls_entry (L : Listed w es) (hk : k < es.length) (h : offsetOf es k ≤ 4083) :
    readCalls (onePage w) (n + 1) (offsetOf es k) =
      (readCalls (onePage w) n (if k + 1 < es.length then offsetOf es (k + 1) else 4096)).map
        ((es[k].name, es[k].inode) :: ·) := by
  have hentry := L.entry k hk
  have hnext : (if word 4 w (offsetOf es k) = 0 then 4096 else word 4 w (offsetOf es k)) =
      if k + 1 < es.length then offsetOf es (k + 1) else 4096 := by
    by_cases hlast : k + 1 < es.length
    · have hne := (L.next_eq_zero_iff hk).not.mpr (by omega)
      rw [if_neg hne, if_pos hlast, L.next k hlast]
    · have hzero := (L.next_eq_zero_iff hk).mpr (by omega)
      rw [if_pos hzero, if_neg hlast]
  rw [readCalls, gfsReaddir_some h, hnext, hentry.size, hentry.name, hentry.inode]

/-- Of the entries the first `m` are listed, if the others start too late. -/
theorem readCalls_listed (L : Listed w es) (hm : m ≤ es.length)
    (hearly : offsetOf es (m - 1) ≤ 4083)
    (hlate : m < es.length → 4083 < offsetOf es m) (hk : k < m) (hn : m - k < n) :
    readCalls (onePage w) n (offsetOf es k) =
      some (((es.take m).drop k).map fun e ↦ (e.name, e.inode)) := by
  induction n generalizing k with
  | zero => omega
  | succ n ih =>
    have hoffset : offsetOf es k ≤ offsetOf es (m - 1) := offsetOf_mono (by omega) (by omega)
    have hlength : k < (es.take m).length := by
      rw [List.length_take]
      omega
    rw [readCalls_entry L (hk.trans_le hm) (hoffset.trans hearly),
      List.drop_eq_getElem_cons hlength, List.map_cons, List.getElem_take]
    by_cases hlast : k + 1 < m
    · rw [if_pos (hlast.trans_le hm), ih hlast (by omega)]
      rfl
    · obtain ⟨n, rfl⟩ : ∃ n', n = n' + 1 := ⟨n - 1, by omega⟩
      obtain rfl : m = k + 1 := by omega
      rw [List.drop_eq_nil_of_le (by rw [List.length_take]; omega)]
      split_ifs with hmore
      · rw [readCalls_none (hlate hmore)]
        rfl
      · rw [readCalls_none (by decide)]
        rfl

theorem length_lt_of_readCalls (L : Listed w es) (h : 4083 < offsetOf es (es.length - 1))
    (hk : k < es.length) {l : List (List UInt8 × ℕ)}
    (hl : readCalls (onePage w) n (offsetOf es k) = some l) : l.length < es.length - k := by
  induction n generalizing k l with
  | zero => cases hl
  | succ n ih =>
    by_cases hoffset : offsetOf es k ≤ 4083
    · have hlast : k + 1 < es.length := by
        by_contra hend
        obtain rfl : k = es.length - 1 := by omega
        omega
      rw [readCalls_entry L hk hoffset, if_pos hlast] at hl
      obtain ⟨l', hl', rfl⟩ := Option.map_eq_some_iff.mp hl
      have hless := ih hlast hl'
      rw [List.length_cons]
      omega
    · rw [readCalls_none (not_le.mp hoffset)] at hl
      cases hl
      rw [List.length_nil]
      omega

/-- The two bounds that `gfs_readdir` checks cut off an entry that starts in the
last twelve bytes of the page. -/
theorem lists_iff (L : Listed w es) :
    (onePage w).Lists es ↔ offsetOf es (es.length - 1) ≤ 4083 := by
  have hpos := L.length_pos
  constructor
  · rintro ⟨n, hn⟩
    by_contra hlate
    have hless := length_lt_of_readCalls (k := 0) L (not_le.mp hlate) hpos hn
    rw [List.length_map] at hless
    omega
  · intro h
    have hcalls := readCalls_listed (k := 0) (n := es.length + 1) L le_rfl h
      (fun hlt ↦ absurd hlt (lt_irrefl _)) hpos (by omega)
    rw [List.take_length] at hcalls
    exact ⟨_, hcalls⟩

/-- The entries that `gfs_readdir` emits: all but one that starts in the last twelve bytes. -/
def emitted (es : List Entry) : List Entry :=
  if offsetOf es (es.length - 1) ≤ 4083 then es else es.dropLast

/-- Where the entries are inside the page, it is only the last that can start too late. -/
theorem lists_emitted (L : Listed w es) (hextent : extent es ≤ 4096) :
    (onePage w).Lists (emitted es) := by
  rw [emitted]
  split_ifs with h
  · exact (lists_iff L).mpr h
  · have hpos := L.length_pos
    have hlast : offsetOf es (es.length - 1) + 9 ≤ extent es := by
      rw [← offsetOf_length]
      exact offsetOf_lt (by omega) le_rfl
    have htwo : 1 < es.length := by
      by_contra hone
      have hzero : es.length - 1 = 0 := by omega
      simp [hzero, offsetOf, extent] at h
    have hbefore : offsetOf es (es.length - 1 - 1) + 9 ≤ offsetOf es (es.length - 1) :=
      offsetOf_lt (by omega) (by omega)
    refine ⟨es.length + 1, ?_⟩
    rw [List.dropLast_eq_take]
    exact readCalls_listed (k := 0) L (Nat.sub_le _ _) (by omega) (fun _ ↦ not_le.mp h) (by omega)
      (by omega)

end GenericFs.Driver
