import GenericFs.Library.BitCount
import GenericFs.Library.Ensuring
import GenericFs.Disktool.Allocation
import GenericFs.Driver.Kernel

namespace GenericFs.Driver

open Function GenericFs.Library Store Bitmap Ensuring Returning GenericFs.Disktool

def int (n : ℕ) : Except Oops ℕ := if n < 2 ^ 31 then .ok n else .error .undefined

/-- A mounted file system: its magic number and block size, the super block that `gsb`
points at, and what `sb_bread` gives of each block. -/
structure Mounted where
  sMagic : ℕ
  sBlocksize : ℕ
  gsb : SuperBlock
  sbBread : ℕ → Option Buffer

def bitcountLoop (n count : ℕ) : ℕ :=
  if n = 0 then count else bitcountLoop (n >>> 1) (count + (n &&& 1))
termination_by n
decreasing_by
  rw [Nat.shiftRight_eq_div_pow]
  omega

def gfsBitcount (n : ℕ) : ℕ := bitcountLoop n 0

def countBytes (bh : Buffer) : ℕ → ℕ → ℕ → Except Oops ℕ
  | 0, _, counter => .ok counter
  | turns + 1, m, counter => do
    let counter ← int (counter + gfsBitcount (bh m).toNat)
    countBytes bh turns (m + 1) counter

def countBlocks (sb : Mounted) (first : ℕ) : ℕ → ℕ → ℕ → Except Oops ℕ
  | 0, _, counter => .ok counter
  | turns + 1, x, counter =>
    match sb.sbBread ((first + x) % 2 ^ 32) with
    | none => .ok 0
    | some bh => do
      let counter ← countBytes bh 4096 0 counter
      let x ← int (x + 1)
      countBlocks sb first turns x counter

def gfsFreespace (sb : Mounted) : Except Oops ℕ :=
  countBlocks sb (1 + sb.gsb.inodefreemapBlocks) sb.gsb.blockfreemapBlocks 0 0

def gfsInodefreespace (sb : Mounted) : Except Oops ℕ :=
  countBlocks sb 1 sb.gsb.blockfreemapBlocks 0 0

structure Kstatfs where
  fType : ℕ
  fBsize : ℕ
  fBfree : ℕ
  fBavail : ℕ
  fBlocks : ℕ
  fNamelen : ℕ
  fFfree : ℕ

def gfsStatfs (sb : Mounted) : Except Oops Kstatfs := do
  let free := (sb.gsb.totalBlocks + 2 ^ 32 - (← gfsFreespace sb)) % 2 ^ 32
  return {
    fType := sb.sMagic
    fBsize := sb.sBlocksize
    fBfree := free
    fBavail := free
    fBlocks := sb.gsb.totalBlocks
    fNamelen := 64
    fFfree := ← gfsInodefreespace sb }

def mounted (bytes : ℕ → UInt8) : Mounted where
  sMagic := (SuperBlock.decode bytes 0).magicNumber
  sBlocksize := (SuperBlock.decode bytes 0).blockSize
  gsb := SuperBlock.decode bytes 0
  sbBread n := some fun k ↦ bytes (4096 * n + k)

/-- The number that is said to be free of what a map is about. -/
def Kstatfs.free (buf : Kstatfs) : FreeMap → ℕ
  | .inodes => buf.fFfree
  | .blocks => buf.fBfree

/-- How the report differs when one more block or inode is in use. -/
def Kstatfs.Recounts (buf buf' : Kstatfs) : FreeMap → Prop
  | .inodes => buf'.fFfree = buf.fFfree + 1
  | .blocks => buf'.fBfree + 1 = buf.fBfree

section Counting

variable {bytes bh : ℕ → UInt8} {sb : Mounted} {first turns m x n b counter c : ℕ}

theorem int_bind {α : Type} {f : ℕ → Except Oops α} (h : n < 2 ^ 31) : (int n >>= f) = f n := by
  rw [int, if_pos h]
  rfl

theorem int_bind_of_le {α : Type} {f : ℕ → Except Oops α} (h : 2 ^ 31 ≤ n) :
    (int n >>= f) = .error .undefined := by
  rw [int, if_neg (not_lt.mpr h)]
  rfl

theorem of_int_eq_ok (h : int n = .ok m) : m = n ∧ n < 2 ^ 31 := by
  rw [int] at h
  split_ifs at h with hlt
  cases h
  exact ⟨rfl, hlt⟩

theorem bitcountLoop_eq (h : n < 2 ^ b) :
    bitcountLoop n c = c + Nat.count (fun j ↦ n.testBit j = true) b := by
  induction b generalizing n c with
  | zero =>
    obtain rfl : n = 0 := by omega
    rw [bitcountLoop]
    rfl
  | succ b ih =>
    rw [bitcountLoop]
    split_ifs with hzero
    · subst hzero
      simp [Nat.zero_testBit]
    · have hhalf : n >>> 1 < 2 ^ b := by
        rw [Nat.shiftRight_eq_div_pow]
        rw [pow_succ] at h
        omega
      rw [ih hhalf, Nat.count_succ', Nat.and_one_is_mod]
      simp only [Nat.testBit_succ, Nat.testBit_zero, Nat.shiftRight_eq_div_pow, pow_one,
        decide_eq_true_eq]
      rcases Nat.mod_two_eq_zero_or_one n with hmod | hmod
      · simp [hmod]
      · simp [hmod]
        omega

theorem gfsBitcount_eq : gfsBitcount (bh m).toNat = setBits bh (8 * m) 8 := by
  rw [gfsBitcount, bitcountLoop_eq (b := 8) (bh m).toNat_lt, setBits_byte, Nat.zero_add]

theorem countBytes_eq (hc : counter < 2 ^ 31) :
    countBytes bh turns m counter = int (counter + setBits bh (8 * m) (8 * turns)) := by
  induction turns generalizing m counter with
  | zero => exact (if_pos hc).symm
  | succ turns ih =>
    have hturns : 8 * (turns + 1) = 8 + 8 * turns := by omega
    have hnext : 8 * m + 8 = 8 * (m + 1) := by omega
    rw [countBytes, gfsBitcount_eq, hturns, setBits_add, hnext, ← Nat.add_assoc]
    by_cases hsum : counter + setBits bh (8 * m) 8 < 2 ^ 31
    · rw [int_bind hsum, ih hsum]
    · rw [int_bind_of_le (not_lt.mp hsum), int, if_neg (by omega)]

theorem setBits_block :
    setBits (fun k ↦ bytes (4096 * n + k)) 0 32768 = setBits bytes (32768 * n) 32768 := by
  apply setBits_congr
  intro k _
  rw [bit_shift]
  congr 1
  omega

/-- All blocks being read, the sum is that of the set bits, as far as an `int` goes. -/
theorem countBlocks_mounted (hx : x + turns < 2 ^ 31) (hfirst : first + x + turns ≤ 2 ^ 32)
    (hc : counter < 2 ^ 31) : countBlocks (mounted bytes) first turns x counter =
      int (counter + setBits bytes (32768 * (first + x)) (32768 * turns)) := by
  induction turns generalizing x counter with
  | zero => exact (if_pos hc).symm
  | succ turns ih =>
    have hblock : (first + x) % 2 ^ 32 = first + x := Nat.mod_eq_of_lt (by omega)
    have hturns : 32768 * (turns + 1) = 32768 + 32768 * turns := by omega
    have hnext : 32768 * (first + x) + 32768 = 32768 * (first + (x + 1)) := by omega
    rw [countBlocks, hblock]
    simp only [mounted]
    rw [countBytes_eq hc, Nat.mul_zero, setBits_block, hturns, setBits_add, hnext, ← Nat.add_assoc]
    by_cases hsum : counter + setBits bytes (32768 * (first + x)) 32768 < 2 ^ 31
    · rw [int_bind hsum, int_bind (by omega)]
      exact ih (by omega) (by omega) hsum
    · rw [int_bind_of_le (not_lt.mp hsum), int, if_neg (by omega)]

/-- The loop does not come to the end of a map of `2 ^ 31` blocks. -/
theorem countBlocks_long (hx : x < 2 ^ 31)
    (h : countBlocks (mounted bytes) first turns x counter = .ok n) :
    x + turns < 2 ^ 31 := by
  induction turns generalizing x counter with
  | zero => exact hx
  | succ turns ih =>
    rw [countBlocks] at h
    obtain ⟨counter', -, h⟩ := exists_of_bind_ok h
    obtain ⟨x', hx', h⟩ := exists_of_bind_ok h
    obtain ⟨rfl, hlt⟩ := of_int_eq_ok hx'
    have hbound := ih hlt h
    omega

end Counting

/-- The two maps of the partition have one size, with a bit for each block, and no bit
behind these is set. -/
structure Mapped (g : Sizes) (bytes : ℕ → UInt8) : Prop where
  inodefreemap : (SuperBlock.decode bytes 0).inodefreemapBlocks = g.freemapBlocksize
  blockfreemap : (SuperBlock.decode bytes 0).blockfreemapBlocks = g.freemapBlocksize
  room : (SuperBlock.decode bytes 0).totalBlocks ≤ 32768 * g.freemapBlocksize
  behind : ∀ (m : FreeMap) (k : ℕ), (SuperBlock.decode bytes 0).totalBlocks ≤ k →
    k < 32768 * g.freemapBlocksize → bit bytes (m.place g k) = false

/-- What `gfs_statfs` reports are the numbers of clear bits, and each allocation makes its
number one less. -/
structure TrueCounts (g : Sizes) (bytes : ℕ → UInt8) : Prop where
  reports : ∃ buf, gfsStatfs (mounted bytes) = .ok buf ∧ buf.fBavail = buf.fBfree ∧
    ∀ m : FreeMap, buf.free m =
      clearBits bytes (m.place g 0) (SuperBlock.decode bytes 0).totalBlocks
  lowers : ∀ (m : FreeMap) (t t' : Tool) (k : ℕ), t.bytes = bytes →
    (m.allocate g).run t = .ok k t' →
    ∃ buf buf', gfsStatfs (mounted bytes) = .ok buf ∧ gfsStatfs (mounted t'.bytes) = .ok buf' ∧
      buf'.free m + 1 = buf.free m

section Mapped

variable {g : Sizes} {bytes : ℕ → UInt8} {m : FreeMap} {k : ℕ} {buf : Kstatfs}

theorem place_zero_add : m.place g 0 + k = m.place g k := by
  rw [FreeMap.place, FreeMap.place, Nat.add_zero]

theorem decode_setBit :
    SuperBlock.decode (Bitmap.setBit bytes (m.place g k)) 0 = SuperBlock.decode bytes 0 := by
  have hstart : 1 ≤ m.start g := by cases m <;> simp [FreeMap.start]
  apply SuperBlock.decode_congr
  intro i hi
  apply setBit_of_ne
  rw [FreeMap.place]
  omega

theorem totalBlocks_lt : (SuperBlock.decode bytes 0).totalBlocks < 2 ^ 32 := word_lt 4 bytes 8

/-- Where an inode is free, `allocate_inode` takes one. -/
theorem exists_allocation {j : ℕ} (hmapped : j < 32768 * g.freemapBlocksize) (hj : j < 2 ^ 32)
    (hclear : bit bytes (FreeMap.inodes.place g j) = false) : ∃ (t t' : Tool) (k : ℕ),
      t.bytes = bytes ∧ (FreeMap.inodes.allocate g).run t = .ok k t' ∧
      t'.bytes = Bitmap.setBit bytes (FreeMap.inodes.place g k) ∧ k ≤ j ∧
      bit bytes (FreeMap.inodes.place g k) = false := by
  have hex : ∃ i, bit bytes (FreeMap.inodes.place g i) = false := ⟨j, hclear⟩
  have hle := Nat.find_min' hex hclear
  let t : Tool := ⟨4096 * (1 + g.freemapBlocksize), bytes, 0, []⟩
  obtain ⟨p, hrun⟩ := @allocate_run t _ 1 g.freemapBlocksize (by omega) le_rfl
    (Nat.find_spec hex) (by omega) (fun i hi ↦ eq_true_of_ne_false (Nat.find_min hex hi)) (by omega)
  exact ⟨t, _, _, rfl, hrun, rfl, hle, Nat.find_spec hex⟩

namespace Mapped

variable (M : Mapped g bytes)

include M

theorem setBits_eq : setBits bytes (m.place g 0) (32768 * g.freemapBlocksize) =
    setBits bytes (m.place g 0) (SuperBlock.decode bytes 0).totalBlocks := by
  obtain ⟨d, hd⟩ := Nat.exists_eq_add_of_le M.room
  have hrest : setBits bytes (m.place g 0 + (SuperBlock.decode bytes 0).totalBlocks) d = 0 := by
    apply setBits_eq_zero
    intro k hk
    rw [Nat.add_assoc, place_zero_add]
    exact M.behind m _ (by omega) (by omega)
  rw [hd, setBits_add, hrest, Nat.add_zero]

theorem freespace_eq (hf : g.freemapBlocksize < 2 ^ 31) : gfsFreespace (mounted bytes) =
    int (setBits bytes (FreeMap.blocks.place g 0) (SuperBlock.decode bytes 0).totalBlocks) := by
  have hcount := @countBlocks_mounted bytes (1 + g.freemapBlocksize) g.freemapBlocksize
    0 0 (by omega) (by omega) (by decide)
  rw [← M.setBits_eq]
  rw [Nat.zero_add] at hcount
  rw [gfsFreespace]
  simp only [mounted, M.inodefreemap, M.blockfreemap]
  exact hcount

theorem inodefreespace_eq (hf : g.freemapBlocksize < 2 ^ 31) : gfsInodefreespace (mounted bytes) =
    int (setBits bytes (FreeMap.inodes.place g 0) (SuperBlock.decode bytes 0).totalBlocks) := by
  have hcount := @countBlocks_mounted bytes 1 g.freemapBlocksize 0 0 (by omega) (by omega)
    (by decide)
  rw [← M.setBits_eq]
  rw [Nat.zero_add] at hcount
  rw [gfsInodefreespace]
  simp only [mounted, M.blockfreemap]
  exact hcount

theorem statfs (hf : g.freemapBlocksize < 2 ^ 31)
    (hset : ∀ m : FreeMap,
      setBits bytes (m.place g 0) (SuperBlock.decode bytes 0).totalBlocks < 2 ^ 31) :
    ∃ buf, gfsStatfs (mounted bytes) = .ok buf := by
  have hblocks := M.freespace_eq hf
  have hinodes := M.inodefreespace_eq hf
  rw [int, if_pos (hset _)] at hblocks hinodes
  rw [gfsStatfs, hblocks, hinodes]
  exact ⟨_, rfl⟩

/-- What is reported, if anything is: the blocks that are free, and the inodes that are not. -/
theorem reported (h : gfsStatfs (mounted bytes) = .ok buf) : g.freemapBlocksize < 2 ^ 31 ∧
    buf.fBavail = buf.fBfree ∧
    buf.fBfree = clearBits bytes (FreeMap.blocks.place g 0)
    (SuperBlock.decode bytes 0).totalBlocks ∧
    buf.fFfree = setBits bytes (FreeMap.inodes.place g 0)
      (SuperBlock.decode bytes 0).totalBlocks := by
  rw [gfsStatfs] at h
  obtain ⟨used, hused, h⟩ := exists_of_bind_ok h
  obtain ⟨inodes, hinodes, h⟩ := exists_of_bind_ok h
  cases h
  have hf : g.freemapBlocksize < 2 ^ 31 := by
    have hlong := countBlocks_long (by decide) hinodes
    rwa [Nat.zero_add, mounted, M.blockfreemap] at hlong
  rw [M.freespace_eq hf] at hused
  rw [M.inodefreespace_eq hf] at hinodes
  obtain ⟨rfl, -⟩ := of_int_eq_ok hused
  obtain ⟨rfl, -⟩ := of_int_eq_ok hinodes
  have htotal := @totalBlocks_lt bytes
  have hsum := @setBits_add_clearBits bytes (FreeMap.blocks.place g 0)
    ((SuperBlock.decode bytes 0).totalBlocks)
  refine ⟨hf, rfl, ?_, rfl⟩
  simp only [mounted]
  omega

theorem setBit (hk : k < (SuperBlock.decode bytes 0).totalBlocks) :
    Mapped g (Bitmap.setBit bytes (m.place g k)) := by
  have hroom := M.room
  constructor
  · rw [decode_setBit, M.inodefreemap]
  · rw [decode_setBit, M.blockfreemap]
  · rw [decode_setBit]
    exact hroom
  · intro m' k' hlow hhigh
    rw [decode_setBit] at hlow
    have hne : m'.place g k' ≠ m.place g k := by
      cases m <;> cases m' <;> simp only [FreeMap.place, FreeMap.start] <;> omega
    rw [bit_setBit, M.behind m' k' hlow hhigh, decide_eq_false hne]
    rfl

/-- A block that is taken is reported, and so is an inode, but the wrong way. -/
theorem reported_setBit {buf' : Kstatfs} (hk : k < (SuperBlock.decode bytes 0).totalBlocks)
    (hclear : bit bytes (m.place g k) = false) (h : gfsStatfs (mounted bytes) = .ok buf)
    (h' : gfsStatfs (mounted (Bitmap.setBit bytes (m.place g k))) = .ok buf') :
    buf.Recounts buf' m := by
  obtain ⟨-, -, hbfree, hffree⟩ := M.reported h
  obtain ⟨-, -, hbfree', hffree'⟩ := (M.setBit hk).reported h'
  rw [decode_setBit, ← place_zero_add] at hbfree' hffree'
  rw [← place_zero_add] at hclear
  cases m with
  | blocks =>
    rw [Kstatfs.Recounts, hbfree, hbfree']
    exact clearBits_setBit hk hclear
  | inodes =>
    rw [Kstatfs.Recounts, hffree, hffree']
    exact setBits_setBit hk hclear

end Mapped

/-- `gfs_statfs` calls the inodes free that are in use; were these as many as the free
ones, one more allocation would tell. -/
theorem TrueCounts.totalBlocks_eq_zero (M : Mapped g bytes) (T : TrueCounts g bytes) :
    (SuperBlock.decode bytes 0).totalBlocks = 0 := by
  obtain ⟨buf, hbuf, -, hfree⟩ := T.reports
  obtain ⟨-, -, -, hffree⟩ := M.reported hbuf
  have hsame : buf.fFfree = clearBits bytes (FreeMap.inodes.place g 0) _ := hfree .inodes
  have hsum := @setBits_add_clearBits bytes (FreeMap.inodes.place g 0)
    ((SuperBlock.decode bytes 0).totalBlocks)
  by_contra hne
  have hpos : 0 < clearBits bytes (FreeMap.inodes.place g 0)
      (SuperBlock.decode bytes 0).totalBlocks := by
    omega
  obtain ⟨j, hj, hclear⟩ := exists_clear_bit hpos
  have hroom := M.room
  have htotal := @totalBlocks_lt bytes
  rw [place_zero_add] at hclear
  obtain ⟨t, t', k, ht, hrun, ht', hk, hclear⟩ := exists_allocation (by omega) (by omega) hclear
  obtain ⟨buf₁, buf₂, hbuf₁, hbuf₂, hless⟩ := T.lowers .inodes t t' k ht hrun
  rw [ht'] at hbuf₂
  have hmore : buf₂.fFfree = buf₁.fFfree + 1 :=
    M.reported_setBit (hk.trans_lt hj) hclear hbuf₁ hbuf₂
  rw [Kstatfs.free, Kstatfs.free] at hless
  omega

/-- In the map of a partition without a block `allocate_inode` still finds a clear bit, and
there is no free inode to take away. -/
theorem TrueCounts.freemapBlocksize_eq_zero (M : Mapped g bytes) (T : TrueCounts g bytes) :
    g.freemapBlocksize = 0 := by
  have hzero := T.totalBlocks_eq_zero M
  by_contra hne
  have hfree : bit bytes (FreeMap.inodes.place g 0) = false :=
    M.behind .inodes 0 (by omega) (by omega)
  obtain ⟨t, t', k, ht, hrun, -⟩ := exists_allocation (by omega) (by decide) hfree
  obtain ⟨buf₁, buf₂, hbuf₁, -, hless⟩ := T.lowers .inodes t t' k ht hrun
  obtain ⟨-, -, -, hffree⟩ := M.reported hbuf₁
  have hnone : buf₁.fFfree = 0 := by
    rw [hffree, hzero]
    rfl
  rw [Kstatfs.free, Kstatfs.free] at hless
  omega

/-- The counts are true of no partition whose maps have a block. -/
theorem trueCounts_iff (M : Mapped g bytes) : TrueCounts g bytes ↔ g.freemapBlocksize = 0 := by
  constructor
  · exact TrueCounts.freemapBlocksize_eq_zero M
  · intro hf
    have hzero : (SuperBlock.decode bytes 0).totalBlocks = 0 := by
      have hroom := M.room
      omega
    obtain ⟨buf, hbuf⟩ := M.statfs (by omega) fun m ↦ by
      rw [hzero]
      exact Nat.two_pow_pos 31
    obtain ⟨-, havail, hbfree, hffree⟩ := M.reported hbuf
    refine ⟨⟨buf, hbuf, havail, fun m ↦ ?_⟩, fun m t t' k _ hrun ↦ ?_⟩
    · cases m with
      | blocks => exact hbfree
      | inodes =>
        rw [Kstatfs.free, hffree, hzero]
        rfl
    · exact absurd hrun (FreeMap.allocate_ne_ok hf)

end Mapped

section Images

variable {n : ℕ} {files : List NewFile} {t : Tool}

/-- The partitions that the tool makes have such maps. -/
theorem Mapped.of_image (I : Image (computeSizes n) files t) (hfiles : files.length < n)
    (hblocks : freshBlock (computeSizes n) files ≤ n) : Mapped (computeSizes n) t.bytes := by
  have hroom := freemap_le (n := n)
  constructor
  · rw [I.super]
    rfl
  · rw [I.super]
    rfl
  · rw [I.super]
    simp only [mySuper, computeSizes] at hroom ⊢
    omega
  · intro m k hlow hhigh
    rw [I.super] at hlow
    simp only [mySuper, computeSizes] at hlow
    cases m with
    | inodes => exact (I.inodeMap k hhigh).trans (decide_eq_false (by omega))
    | blocks => exact (I.blockMap k hhigh).trans (decide_eq_false (by rw [freshBlock] at hblocks; omega))

/-- Each call that takes a block makes the reported number of free blocks one less; one that
takes an inode makes that of free inodes one more. -/
theorem reported_of_allocate {t' : Tool} {m : FreeMap} {k : ℕ} (h : 5 ≤ n) (hn : n ≤ 2 ^ 20)
    (hsize : 4096 * n ≤ t.size) (M : Mapped (computeSizes n) t.bytes)
    (hrun : (m.allocate (computeSizes n)).run t = .ok k t')
    (hk : k < (SuperBlock.decode t.bytes 0).totalBlocks) :
    ∃ buf buf', gfsStatfs (mounted t.bytes) = .ok buf ∧ gfsStatfs (mounted t'.bytes) = .ok buf' ∧
      buf.Recounts buf' m := by
  have hroom := M.room
  have hsmall := freemap_lt (n := n)
  have hreturn : ∀ s, Mapped (computeSizes n) s →
      SuperBlock.decode s 0 = SuperBlock.decode t.bytes 0 →
      ∃ buf, gfsStatfs (mounted s) = .ok buf := by
    intro s M' hsuper
    refine M'.statfs (by omega) fun m ↦ ?_
    have hsum := @setBits_add_clearBits s (m.place (computeSizes n) 0)
      ((SuperBlock.decode s 0).totalBlocks)
    rw [hsuper] at hsum ⊢
    omega
  rcases FreeMap.allocate_cases (m := m) h hn hsize with ⟨_, _, hok, htakes, -⟩ | ⟨-, _, hfail⟩
  · cases hok.symm.trans hrun
    have hbytes : t'.bytes = Bitmap.setBit t.bytes (m.place (computeSizes n) k) :=
      ext_bits fun j ↦ by rw [htakes.bits, bit_setBit]
    obtain ⟨buf, hbuf⟩ := hreturn _ M rfl
    obtain ⟨buf', hbuf'⟩ := hreturn _ (M.setBit hk) decode_setBit
    rw [hbytes]
    exact ⟨buf, buf', hbuf, hbuf', M.reported_setBit hk htakes.clear.clear hbuf hbuf'⟩
  · cases hfail.symm.trans hrun

/-- The smallest partition that the tool can initialize. -/
theorem exists_mapped_fiveBlocks :
    ∃ t, (initializePartition (computeSizes 5) 0).run (zeroBlocks 5) = .ok () t ∧
      Mapped (computeSizes 5) t.bytes ∧ (SuperBlock.decode t.bytes 0).totalBlocks = 5 := by
  obtain ⟨t, hrun, I⟩ := initializePartition_run ((zeroBlocks 5).sound (by decide) (by decide))
    (zeroBlocks 5).size_le 0
  refine ⟨t, hrun, .of_image I (by decide) (by decide), ?_⟩
  rw [I.super]
  rfl

theorem trueCounts_iff_fiveBlocks :
    ∃ t, (initializePartition (computeSizes 5) 0).run (zeroBlocks 5) = .ok () t ∧
      ¬TrueCounts (computeSizes 5) t.bytes := by
  obtain ⟨t, hrun, M, htotal⟩ := exists_mapped_fiveBlocks
  refine ⟨t, hrun, fun T ↦ ?_⟩
  have hzero : (computeSizes 5).freemapBlocksize = 0 := (trueCounts_iff M).mp T
  contradiction

/-- Of five blocks that were just initialized one inode is said to be free, the one in use. -/
theorem not_trueCounts :
    ¬∀ (g : Sizes) (bytes : ℕ → UInt8), Mapped g bytes → TrueCounts g bytes := by
  intro hclaim
  obtain ⟨t, -, M, htotal⟩ := exists_mapped_fiveBlocks
  have hzero := (hclaim _ _ M).totalBlocks_eq_zero M
  rw [htotal] at hzero
  contradiction

end Images

end GenericFs.Driver
