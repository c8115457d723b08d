import GenericFs.Disktool.Readback
import GenericFs.Driver.Statfs

namespace GenericFs.Driver

open GenericFs.Library Store Bitmap Ensuring Machine GenericFs.Disktool

/-- What `gfs_statfs` reports of a partition with the files: the blocks are counted right, and
in place of the free inodes those in use, one for each file and one for the root directory. -/
structure Reports (g : Sizes) (files : List NewFile) (buf : Kstatfs) : Prop where
  fType : buf.fType = 0xDEADBEEF
  fBsize : buf.fBsize = 4096
  fBlocks : buf.fBlocks = g.blockCount
  fBfree : buf.fBfree + freshBlock g files = g.blockCount
  fBavail : buf.fBavail = buf.fBfree
  fFfree : buf.fFfree = files.length + 1

variable {n : ℕ} {files : List NewFile} {t : Tool}

theorem reports_image (hn : n ≤ 2 ^ 20) (H : Held (computeSizes n) files t) :
    ∃ buf, gfsStatfs (mounted t.bytes) = .ok buf ∧ Reports (computeSizes n) files buf := by
  have I := H.image
  have hinodes : files.length < n := H.inodes
  have hblocks : freshBlock (computeSizes n) files ≤ n := H.blocks
  have hroom := freemap_le (n := n)
  have hsmall := freemap_lt (n := n)
  have M := Mapped.of_image I hinodes hblocks
  have htotal : (SuperBlock.decode t.bytes 0).totalBlocks = n := by
    rw [I.super]
    rfl
  have hset : setBits t.bytes (FreeMap.inodes.place (computeSizes n) 0) n = files.length + 1 := by
    apply setBits_below (Nat.succ_le_of_lt hinodes)
    intro k hk
    rw [place_zero_add]
    exact (I.inodeMap k (by omega)).trans (decide_eq_decide.mpr Nat.lt_succ_iff.symm)
  have hused : setBits t.bytes (FreeMap.blocks.place (computeSizes n) 0) n =
      freshBlock (computeSizes n) files := by
    apply setBits_below hblocks
    intro k hk
    rw [place_zero_add]
    exact I.blockMap k (by omega)
  obtain ⟨buf, hbuf⟩ := M.statfs (by omega) fun m ↦ by
    rw [htotal]
    cases m with
    | inodes =>
      rw [hset]
      omega
    | blocks =>
      rw [hused]
      omega
  refine ⟨buf, hbuf, ?_⟩
  obtain ⟨-, havail, hbfree, hffree⟩ := M.reported hbuf
  rw [htotal] at hbfree hffree
  have hsum := @setBits_add_clearBits t.bytes (FreeMap.blocks.place (computeSizes n) 0) n
  have hcopied : buf.fType = (SuperBlock.decode t.bytes 0).magicNumber ∧
      buf.fBsize = (SuperBlock.decode t.bytes 0).blockSize ∧
      buf.fBlocks = (SuperBlock.decode t.bytes 0).totalBlocks := by
    rw [gfsStatfs] at hbuf
    obtain ⟨used, -, hbuf⟩ := exists_of_bind_ok hbuf
    obtain ⟨inodes, -, hbuf⟩ := exists_of_bind_ok hbuf
    cases hbuf
    exact ⟨rfl, rfl, rfl⟩
  rw [I.super] at hcopied
  obtain ⟨htype, hbsize, hcount⟩ := hcopied
  constructor
  · exact htype
  · exact hbsize
  · exact hcount
  · change buf.fBfree + freshBlock (computeSizes n) files = n
    omega
  · exact havail
  · rw [hffree, hset]

/-- After every run of the tool the report is right about the blocks, and its number of free
inodes is that of the inodes in use. -/
theorem statfs_reports_of_run {now : ℕ} {t₁ t₂ : Tool} (h : 5 ≤ t.sizes.blockCount)
    (hcount : t.sizes.blockCount ≤ 2 ^ 20)
    (hinit : (initializePartition t.sizes now).run t = .ok () t₁)
    (hr : Run (CreateStep t.sizes) t₁ files t₂) :
    ∃ buf, gfsStatfs (mounted t₂.bytes) = .ok buf ∧ Reports t.sizes files buf := by
  have S := t.sound h hcount
  have L := t.laid h hcount
  obtain ⟨H, -⟩ := held_of_run S L (.nil S (image_of_return S t.size_le hinit)) hr
  exact reports_image hcount H

theorem statfs_reports_of_run_sixBlocks : ∃ t₁ t₂ buf,
    (initializePartition (zeroBlocks 6).sizes 0).run (zeroBlocks 6) = .ok () t₁ ∧
      (createFile (zeroBlocks 6).sizes ⟨[0x61], 1, 0⟩).run t₁ = .ok () t₂ ∧
      gfsStatfs (mounted t₂.bytes) = .ok buf ∧ buf.fBfree = 0 ∧ buf.fFfree = 2 := by
  have S := (zeroBlocks 6).sound (by decide) (by decide)
  obtain ⟨t₁, hinit, I⟩ := initializePartition_run S (zeroBlocks 6).size_le 0
  have A := admissible_sixBlocks hinit
  obtain ⟨t₂, hrun, -⟩ :=
    (Held.nil S I).create S (computeSizes_laid (by decide) (by decide)) A (by decide)
  obtain ⟨buf, hbuf, R⟩ := statfs_reports_of_run (t := zeroBlocks 6) (by decide) (by decide) hinit
    (.cons ⟨A, hrun⟩ (.nil _))
  have hfree := R.fBfree
  have hfresh : freshBlock (zeroBlocks 6).sizes [⟨[0x61], 1, 0⟩] = 6 := by decide
  rw [hfresh] at hfree
  exact ⟨t₁, t₂, buf, hinit, hrun, hbuf, Nat.add_right_cancel
    (hfree.trans (Nat.zero_add 6).symm), R.fFfree⟩

end GenericFs.Driver
