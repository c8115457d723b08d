import GenericFs.Disktool.Directory
import GenericFs.Disktool.Accounting

namespace GenericFs.Disktool

open Function GenericFs.Library Store Bitmap Returning

def Sizes.metadata (g : Sizes) : ℕ := 1 + 2 * g.freemapBlocksize + g.inodetableBlocksize

/-- A partition whose metadata and root directory are inside it and inside the first
block of the block free map. -/
structure Sound (g : Sizes) : Prop where
  small : g.blockCount < 2 ^ 31
  freemap : 1 ≤ g.freemapBlocksize
  preallocated : g.metadata + 1 ≤ 32768
  inside : g.metadata + 1 ≤ g.blockCount
  mapped : g.metadata + 512 ≤ 32768 * g.freemapBlocksize

def stored (files : List NewFile) : ℕ := files.countP fun f ↦ 0 < f.size

/-- The data block of the file number `k`, or no block. -/
def blockNumber (g : Sizes) (files : List NewFile) (k : ℕ) (h : k < files.length) : ℕ :=
  if 0 < (files[k]).size then g.metadata + 1 + stored (files.take k) else 0

def entries (files : List NewFile) : List Entry :=
  ⟨[0x2E], 0⟩ :: ⟨[0x2E, 0x2E], 0⟩ :: files.mapIdx fun k f ↦ ⟨f.name, k + 1⟩

/-- The inode has no other block than the given one. -/
structure Inode.Points (n : Inode) (block : ℕ) : Prop where
  blocks : ∀ i, n.blocks i = if i = 0 then block else 0
  firstIndirect : n.firstIndirect = 0
  secondIndirect : n.secondIndirect = 0

/-- The bytes of a file of the given size: the letters from A to Z over and over. -/
def letters (size j : ℕ) : UInt8 := if j < size then UInt8.ofNat (0x41 + j % 26) else 0

/-- What the partition holds after the files were created in turn. -/
structure Image (g : Sizes) (files : List NewFile) (t : Tool) : Prop where
  size : 4096 * g.blockCount ≤ t.size
  super : SuperBlock.decode t.bytes 0 = mySuper g
  inodeMap : ∀ i < 32768 * g.freemapBlocksize, inodeBit t.bytes i = decide (i ≤ files.length)
  blockMap : ∀ b < 32768 * g.freemapBlocksize,
    blockBit t.bytes g b = decide (b < g.metadata + 1 + stored files)
  root : 1 ≤ g.inodetableBlocksize → (inodeAt t.bytes g 0).Points g.metadata
  slot : ∀ k (h : k < files.length), (inodeAt t.bytes g (k + 1)).Points (blockNumber g files k h) ∧
    (inodeAt t.bytes g (k + 1)).fileSize = (files[k]).size
  listing : Listed (fun k ↦ t.bytes (4096 * g.metadata + k)) (entries files)
  extent : extent (entries files) ≤ 4096
  data : ∀ k (h : k < files.length), 0 < (files[k]).size → blockNumber g files k h < g.blockCount →
    ∀ j < 4096, t.bytes (4096 * blockNumber g files k h + j) = letters (files[k]).size j

/-- What is not in use has the bytes that `clear_partition` writes. -/
structure Unused (g : Sizes) (files : List NewFile) (s : ℕ → UInt8) : Prop where
  super : ∀ k, 24 ≤ k → k < 4096 → s k = unusedSpace
  inodetable : ∀ k, 64 * (files.length + 1) ≤ k → k < 4096 * g.inodetableBlocksize →
    s (4096 * (1 + 2 * g.freemapBlocksize) + k) = unusedSpace
  directory : ∀ k, extent (entries files) ≤ k → k < 4096 → s (4096 * g.metadata + k) = unusedSpace
  blocks : ∀ k, 4096 * (g.metadata + 1 + stored files) ≤ k → k < 4096 * g.blockCount →
    s k = unusedSpace

variable {g : Sizes} {t : Tool} {w : Workspace} {n k : ℕ}

theorem Sound.of_le (h : 5 ≤ n) (hn : n < 2 ^ 31) (hmeta : (computeSizes n).metadata + 1 ≤ 32768) :
    Sound (computeSizes n) := by
  simp only [Sizes.metadata, computeSizes, blockSize] at hmeta
  constructor
  · exact hn
  · simp only [computeSizes, blockSize]
    split_ifs <;> omega
  · exact hmeta
  · simp only [Sizes.metadata, computeSizes, blockSize]
    split_ifs at hmeta ⊢ <;> omega
  · simp only [Sizes.metadata, computeSizes, blockSize]
    split_ifs at hmeta ⊢ <;> omega

section Initializing

theorem writeBlocks_run (h : t.position + 4096 * n ≤ t.size) {b : UInt8}
    (hw : ∀ k < 4096, w k = b) : (writeBlocks w n).run t = .ok ()
      { t with
        bytes := splice t.bytes t.position (4096 * n) fun _ ↦ b
        position := t.position + 4096 * n } := by
  induction n generalizing t with
  | zero =>
    have hnone : splice t.bytes t.position 0 (fun _ ↦ b) = t.bytes := by
      funext k
      exact splice_outside (Nat.lt_or_ge k t.position)
    rw [writeBlocks, Nat.mul_zero, hnone]
    rfl
  | succ n ih =>
    rw [Nat.mul_succ] at h ⊢
    rw [← Nat.add_assoc] at h
    have hfit : t.position + 4096 ≤ t.size := by omega
    rw [writeBlocks, EStateM.run_bind, write_run hfit]
    simp only
    rw [ih (by simp only; omega)]
    congr 2
    · funext k
      simp only [splice]
      split_ifs <;> first | rfl | omega | exact hw _ (by omega)
    · simp only
      omega

theorem markLeftovers_returns {byte j : ℕ} (hj : j + n ≤ 8) (hbyte : n ≠ 0 → byte < 4096) :
    Returns (markLeftovers byte n (1 <<< j) w) t fun w' t' ↦ t' = t ∧
      ∀ k, bit w' k = (bit w k || decide (8 * byte + j ≤ k ∧ k < 8 * byte + j + n)) := by
  induction n generalizing j w with
  | zero =>
    apply Returns.pure
    refine ⟨rfl, fun k ↦ ?_⟩
    have hnone : ¬(8 * byte + j ≤ k ∧ k < 8 * byte + j + 0) := by omega
    rw [decide_eq_false hnone, Bool.or_false]
  | succ n ih =>
    have hin : byte < blockSize := hbyte (Nat.succ_ne_zero n)
    have hdiv : (8 * byte + j) / 8 = byte := by omega
    have hmod : (8 * byte + j) % 8 = j := by omega
    have hset : update w byte (w byte ||| UInt8.ofNat (1 <<< j)) = setBit w (8 * byte + j) := by
      rw [setBit, hdiv, hmod]
    have hmask : 1 <<< j <<< 1 = 1 <<< (j + 1) := (Nat.shiftLeft_add 1 j 1).symm
    obtain ⟨w', t', hrun, rfl, hbits⟩ := ih (j := j + 1) (w := setBit w (8 * byte + j))
      (by omega) fun _ ↦ hin
    refine ⟨w', t', ?_, rfl, fun k ↦ ?_⟩
    · rw [markLeftovers, EStateM.run_bind, loadByte_run hin]
      simp only [EStateM.run_bind, storeByte_run hin, hset, hmask, hrun]
    · rw [hbits, bit_setBit, Bool.or_assoc, ← Bool.decide_or]
      congr 2
      apply propext
      omega

theorem bit_zeros {k : ℕ} (hk : k < 32768) : bit (memset w 0 blockSize) k = false := by
  apply bit_of_zero
  exact splice_inside (Nat.zero_le _) (by simp only [blockSize]; omega)

theorem clearPartition_run (hsmall : g.blockCount < 2 ^ 31) (hsize : 4096 * g.blockCount ≤ t.size) :
    (clearPartition g).run t = .ok ()
      { t with
        bytes := splice t.bytes 0 (4096 * g.blockCount) fun _ ↦ unusedSpace
        position := 0 + 4096 * g.blockCount } := by
  have hwrite := writeBlocks_run (t := { t with position := 0 })
    (w := memset (fun _ ↦ 0) unusedSpace blockSize) (n := g.blockCount) (b := unusedSpace)
    (by simpa only [Nat.zero_add] using hsize) fun k hk ↦ splice_inside (Nat.zero_le _)
      (by simp only [blockSize]; omega)
  simp only [clearPartition, EStateM.run_bind, lseek_run, not_le.mpr hsmall, ↓reduceIte]
  exact hwrite

def writeBlockMap (g : Sizes) (workspace : Workspace) : Action Unit := do
  let totalPreallocated := (1 + 2 * g.freemapBlocksize + g.inodetableBlocksize + 1) % 2 ^ 32
  if blockSize * 8 < totalPreallocated then throw .exited
  let workspace := memset workspace 0xFF (totalPreallocated / 8)
  let workspace ← markLeftovers (totalPreallocated / 8) (totalPreallocated % 8) 0x01 workspace
  write workspace blockSize
  let workspace := memset workspace 0 blockSize
  writeBlocks workspace ((g.freemapBlocksize + 2 ^ 32 - 1) % 2 ^ 32)

def rootMarked : Workspace := setBit (memset (fun _ ↦ 0) 0 blockSize) 0

def inodeMapped (g : Sizes) (s : ℕ → UInt8) : ℕ → UInt8 :=
  splice (splice s 4096 4096 rootMarked) 8192 (4096 * (g.freemapBlocksize - 1)) fun _ ↦ 0

theorem memset_zero : ∀ k < 4096, memset w 0 blockSize k = 0 := by
  intro k hk
  exact splice_inside (Nat.zero_le _) (by simp only [blockSize]; omega)

theorem rootMarked_apply (hk : k < 4096) : rootMarked k = if k = 0 then 1 else 0 := by
  rw [rootMarked]
  by_cases hzero : k = 0
  · rw [if_pos hzero, hzero]
    decide
  · rw [if_neg hzero, setBit_of_ne hzero]
    exact memset_zero k hk

theorem writeFreemaps_inodeMap (hmap : 1 ≤ g.freemapBlocksize) (hword : g.freemapBlocksize < 2 ^ 32)
    (hsize : 4096 * (1 + g.freemapBlocksize) ≤ t.size) :
    (writeFreemaps g).run t = (writeBlockMap g (memset rootMarked 0 blockSize)).run
      { t with bytes := inodeMapped g t.bytes, position := 4096 * (1 + g.freemapBlocksize) } := by
  have hturns : (g.freemapBlocksize + 2 ^ 32 - 1) % 2 ^ 32 = g.freemapBlocksize - 1 := by omega
  let t₁ : Tool := { t with position := 4096 }
  let t₂ : Tool := { t with bytes := splice t.bytes 4096 4096 rootMarked, position := 8192 }
  have hstart : (lseek (1 * blockSize)).run t = .ok () t₁ := rfl
  have hload : (loadByte (memset (fun _ ↦ 0) 0 blockSize) 0).run t₁ =
      .ok (memset (fun _ ↦ 0) 0 blockSize 0) t₁ := loadByte_run (by decide)
  have hstore : (storeByte (memset (fun _ ↦ 0) 0 blockSize) 0
      (memset (fun _ ↦ 0) 0 blockSize 0 ||| 0x01)).run t₁ = .ok rootMarked t₁ :=
    storeByte_run (by decide)
  have hfirst : (write rootMarked blockSize).run t₁ = .ok () t₂ :=
    write_run (show 4096 + 4096 ≤ t.size by omega)
  have hrest :
      (writeBlocks (memset rootMarked 0 blockSize) (g.freemapBlocksize - 1)).run t₂ = .ok ()
      { t with bytes := inodeMapped g t.bytes, position := 4096 * (1 + g.freemapBlocksize) } := by
    have hpos : 4096 * (1 + g.freemapBlocksize) = 8192 + 4096 * (g.freemapBlocksize - 1) := by omega
    rw [hpos]
    exact writeBlocks_run
      (show 8192 + 4096 * (g.freemapBlocksize - 1) ≤ t.size by omega) memset_zero
  rw [writeFreemaps, run_bind_ok hstart, run_bind_ok hload, run_bind_ok hstore, run_bind_ok hfirst]
  simp only [hturns]
  rw [run_bind_ok hrest, writeBlockMap]
  simp only [hturns]

variable (S : Sound g) (hsize : 4096 * g.blockCount ≤ t.size)

include S hsize

omit hsize in
theorem markPreallocated_returns :
    Returns (markLeftovers ((g.metadata + 1) / 8) ((g.metadata + 1) % 8) 1
    (memset (memset w 0 blockSize) 0xFF ((g.metadata + 1) / 8))) t fun w' t' ↦ t' = t ∧
      ∀ k < 32768, bit w' k = decide (k < g.metadata + 1) := by
  have hpre := S.preallocated
  apply (markLeftovers_returns (j := 0) (by omega) (by omega)).mono
  rintro w' t' ⟨rfl, hbits⟩
  refine ⟨rfl, fun k hk ↦ ?_⟩
  rw [hbits]
  by_cases hlow : k / 8 < (g.metadata + 1) / 8
  · have hin : k < g.metadata + 1 := by omega
    have hfull : bit (memset (memset w 0 blockSize) 0xFF ((g.metadata + 1) / 8)) k = true := by
      apply bit_of_full
      exact splice_inside (Nat.zero_le _) (by omega)
    rw [hfull, Bool.true_or, decide_eq_true hin]
  · have hclear : bit (memset (memset w 0 blockSize) 0xFF ((g.metadata + 1) / 8)) k = false := by
      rw [← bit_zeros (w := w) hk]
      apply bit_congr _ rfl
      exact splice_outside (by omega)
    rw [hclear, Bool.false_or]
    congr 1
    apply propext
    omega

def mapped (g : Sizes) (s : ℕ → UInt8) (inodes blocks : Workspace) : ℕ → UInt8 :=
  let s := splice (splice s 4096 4096 inodes) 8192 (4096 * (g.freemapBlocksize - 1)) fun _ ↦ 0
  splice (splice s (4096 * (1 + g.freemapBlocksize)) 4096 blocks) (4096 * (2 + g.freemapBlocksize))
    (4096 * (g.freemapBlocksize - 1)) fun _ ↦ 0

omit hsize in
theorem mapped_inodeBit {s : ℕ → UInt8} {w w' : Workspace}
    (hw : ∀ k < 32768, bit w k = decide (k = 0)) {i : ℕ} (hi : i < 32768 * g.freemapBlocksize) :
    inodeBit (mapped g s w w') i = decide (i = 0) := by
  have hmap := S.freemap
  by_cases hlow : i < 32768
  · rw [← hw i hlow, inodeBit]
    apply bit_congr
    · simp only [mapped]
      rw [splice_outside (by omega), splice_outside (by omega), splice_outside (by omega),
        splice_inside (by omega) (by omega)]
      exact congrArg w (by omega)
    · omega
  · have hne : i ≠ 0 := by omega
    rw [decide_eq_false hne, inodeBit]
    apply bit_of_zero
    simp only [mapped]
    rw [splice_outside (by omega), splice_outside (by omega), splice_inside (by omega) (by omega)]

omit hsize in
theorem mapped_blockBit {s : ℕ → UInt8} {w w' : Workspace}
    (hw : ∀ k < 32768, bit w' k = decide (k < g.metadata + 1)) {b : ℕ}
    (hb : b < 32768 * g.freemapBlocksize) :
    blockBit (mapped g s w w') g b = decide (b < g.metadata + 1) := by
  have hmap := S.freemap
  have hpre := S.preallocated
  by_cases hlow : b < 32768
  · rw [← hw b hlow, blockBit]
    apply bit_congr
    · simp only [mapped]
      rw [splice_outside (by omega), splice_inside (by omega) (by omega)]
      exact congrArg w' (by omega)
    · omega
  · have hge : ¬b < g.metadata + 1 := by omega
    rw [decide_eq_false hge, blockBit]
    apply bit_of_zero
    simp only [mapped]
    rw [splice_inside (by omega) (by omega)]

theorem writeFreemaps_run : ∃ w w' p, (writeFreemaps g).run t =
      .ok () { t with bytes := mapped g t.bytes w w', position := p } ∧
    (∀ k < 32768, bit w k = decide (k = 0)) ∧ ∀ k < 32768, bit w' k =
    decide (k < g.metadata + 1) := by
  have hmap := S.freemap
  have hpre := S.preallocated
  have hin := S.inside
  simp only [Sizes.metadata] at hpre hin
  have hturns : (g.freemapBlocksize + 2 ^ 32 - 1) % 2 ^ 32 = g.freemapBlocksize - 1 := by omega
  have htotal :
      (1 + 2 * g.freemapBlocksize + g.inodetableBlocksize + 1) % 2 ^ 32 = g.metadata + 1 := by
    rw [Sizes.metadata]
    omega
  have hfits : ¬blockSize * 8 < g.metadata + 1 := by
    simp only [blockSize, Sizes.metadata]
    omega
  have hw : ∀ k < 32768, bit rootMarked k = decide (k = 0) := by
    intro k hk
    rw [rootMarked, bit_setBit, bit_zeros hk, Bool.false_or]
  -- the states before and after the write of the first block of the second map
  let t₁ : Tool := { t with
    bytes := inodeMapped g t.bytes
    position := 4096 * (1 + g.freemapBlocksize) }
  obtain ⟨w', t', hleft, rfl, hw'⟩ := markPreallocated_returns (w := rootMarked) S (t := t₁)
  let t₂ : Tool := { t with
    bytes := splice (inodeMapped g t.bytes) (4096 * (1 + g.freemapBlocksize)) 4096 w'
    position := 4096 * (2 + g.freemapBlocksize) }
  have hfirst : (write w' blockSize).run t₁ = .ok () t₂ := by
    have hpos : 4096 * (2 + g.freemapBlocksize) = 4096 * (1 + g.freemapBlocksize) + 4096 := by omega
    simp only [t₂, hpos]
    exact write_run (show 4096 * (1 + g.freemapBlocksize) + 4096 ≤ t.size by omega)
  have hrest := writeBlocks_run (t := t₂) (n := g.freemapBlocksize - 1) (w := memset w' 0 blockSize)
    (show 4096 * (2 + g.freemapBlocksize) + 4096 * (g.freemapBlocksize - 1) ≤ t.size by omega)
    memset_zero
  refine ⟨rootMarked, w', 4096 * (2 + g.freemapBlocksize) + 4096 *
    (g.freemapBlocksize - 1), ?_, hw, hw'⟩
  rw [writeFreemaps_inodeMap hmap (by omega) (by omega), writeBlockMap]
  simp only [hturns, htotal]
  rw [if_neg hfits, run_bind_ok hleft, run_bind_ok hfirst]
  exact hrest

def rootBytes : List UInt8 :=
  [10, 0, 0, 0, 0, 0, 0, 0, 1, 0x2E, 0, 0, 0, 0, 0, 0, 0, 0, 2, 0x2E, 0x2E]

omit S hsize in
theorem listed_rootBytes (hw : ∀ k < 21, w k = rootBytes.getD k 0) : Listed w (entries []) := by
  have hword : ∀ off, off + 4 ≤ 21 → word 4 w off = word 4 (rootBytes.getD · 0) off := by
    intro off hoff
    apply word_congr
    intro k hk
    exact hw _ (by omega)
  have hslice : ∀ off n, off + n ≤ 21 → slice w off n = slice (rootBytes.getD · 0) off n := by
    intro off n hoff
    apply slice_congr
    intro k hk
    exact hw _ (by omega)
  refine ⟨by decide, fun k hk ↦ ?_, fun k hk ↦ ?_, ?_⟩
  · have hlt : k < 2 := hk
    interval_cases k
    · exact ⟨hword 4 (by decide), congrArg UInt8.toNat (hw 8 (by decide)), hslice 9 1 (by decide)⟩
    · exact ⟨hword 14 (by decide), congrArg UInt8.toNat (hw 18 (by decide)),
        hslice 19 2 (by decide)⟩
  · have hlt : k + 1 < 2 := hk
    obtain rfl : k = 0 := by omega
    exact hword 0 (by decide)
  · exact hword 10 (by decide)

theorem createRoot_run (now : ℕ) : ∃ w w' p, (createRoot g now).run t = .ok ()
      { t with
        bytes := splice (splice t.bytes (4096 * (1 + 2 * g.freemapBlocksize)) 4096 w)
          (4096 * g.metadata) 4096 w'
        position := p } ∧
    (∀ k < 64, w k = (rootNode g now).encode k) ∧ (∀ k < 21, w' k = rootBytes.getD k 0) ∧
    (∀ k, 64 ≤ k → k < 4096 → w k = unusedSpace) ∧ ∀ k, 21 ≤ k → k < 4096 → w' k = unusedSpace := by
  have hpre := S.preallocated
  have hin := S.inside
  have htable : address (1 + 2 * g.freemapBlocksize) = 4096 * (1 + 2 * g.freemapBlocksize) := by
    simp only [Sizes.metadata] at hpre
    exact address_eq (by omega)
  have hroot : address (1 + 2 * g.freemapBlocksize + g.inodetableBlocksize) = 4096 * g.metadata :=
    address_eq (show g.metadata < 2 ^ 20 by omega)
  have hlt : 1 + 2 * g.freemapBlocksize < g.blockCount := by
    simp only [Sizes.metadata] at hin
    omega
  let w : Workspace := splice (memset (fun _ ↦ 0) unusedSpace blockSize) 0 inodeSize
    (rootNode g now).encode
  let w' : Workspace :=
    update (update (update (splice (splice (update (update (splice (splice
      (memset w unusedSpace blockSize) 0 4 (wordBytes 10)) 4 4 (wordBytes 0)) 8 1) 9 0x2E)
      10 4 (wordBytes 0)) 14 4 (wordBytes 0)) 18 2) 19 0x2E) 20 0x2E
  have hfirst :=
    write_run (t := { t with position := 4096 * (1 + 2 * g.freemapBlocksize) }) (w := w)
      (show 4096 * (1 + 2 * g.freemapBlocksize) + 4096 ≤ t.size by omega)
  have hsecond := write_run (t := { t with
    bytes := splice t.bytes (4096 * (1 + 2 * g.freemapBlocksize)) 4096 w
    position := 4096 * g.metadata }) (w := w') (show 4096 * g.metadata + 4096 ≤ t.size by omega)
  refine ⟨w, w', 4096 * g.metadata + 4096, ?_, fun k hk ↦ ?_, fun k hk ↦ ?_, fun k hlow hhigh ↦ ?_,
    fun k hlow hhigh ↦ ?_⟩
  · simp only [createRoot, EStateM.run_bind, lseek_run, htable, hroot]
    rw [hfirst]
    simp (disch := decide) only [storeWord_run, storeByte_run]
    exact hsecond
  · exact splice_inside (Nat.zero_le _) (by simp only [inodeSize]; omega)
  · interval_cases k <;> rfl
  · simp only [w]
    rw [splice_outside (by simp only [inodeSize]; omega)]
    exact splice_inside (Nat.zero_le _) (by simp only [blockSize]; omega)
  · simp only [w']
    rw [update_of_ne (by omega), update_of_ne (by omega), update_of_ne (by omega),
      splice_outside (by omega), splice_outside (by omega), update_of_ne (by omega),
      update_of_ne (by omega), splice_outside (by omega), splice_outside (by omega)]
    exact splice_inside (Nat.zero_le _) (by simp only [blockSize]; omega)

theorem writeSuper_run : ∃ w p, (writeSuper g).run t = .ok ()
      { t with bytes := splice t.bytes 0 4096 w, position := p } ∧
    (∀ k < 24, w k = (mySuper g).encode k) ∧ ∀ k, 24 ≤ k → k < 4096 → w k = unusedSpace := by
  have hin := S.inside
  let w : Workspace := splice (memset (fun _ ↦ 0) unusedSpace blockSize) 0 24 (mySuper g).encode
  have hwrite := write_run (t := { t with position := 0 }) (w := w)
    (show 0 + 4096 ≤ t.size by omega)
  refine ⟨w, 0 + 4096, ?_, fun k hk ↦ ?_, fun k hlow hhigh ↦ ?_⟩
  · simp only [writeSuper, EStateM.run_bind, lseek_run]
    exact hwrite
  · exact splice_inside (Nat.zero_le _) (by omega)
  · simp only [w]
    rw [splice_outside (by omega)]
    exact splice_inside (Nat.zero_le _) (by simp only [blockSize]; omega)

def initialized (g : Sizes) (s : ℕ → UInt8) (wi wb wn wr ws : Workspace) : ℕ → UInt8 :=
  splice (splice (splice (mapped g s wi wb) (4096 * (1 + 2 * g.freemapBlocksize)) 4096 wn)
    (4096 * g.metadata) 4096 wr) 0 4096 ws

/-- The blocks that `initialize` writes: the first ones of the two maps and of the inode table,
the root directory, the super block. -/
structure Written (g : Sizes) (now : ℕ) (wi wb wn wr ws : Workspace) : Prop where
  inodes : ∀ k < 32768, bit wi k = decide (k = 0)
  blocks : ∀ k < 32768, bit wb k = decide (k < g.metadata + 1)
  node : ∀ k < 64, wn k = (rootNode g now).encode k
  root : ∀ k < 21, wr k = rootBytes.getD k 0
  super : ∀ k < 24, ws k = (mySuper g).encode k
  behindNode : ∀ k, 64 ≤ k → k < 4096 → wn k = unusedSpace
  behindRoot : ∀ k, 21 ≤ k → k < 4096 → wr k = unusedSpace
  behindSuper : ∀ k, 24 ≤ k → k < 4096 → ws k = unusedSpace

theorem initializePartition_written (now : ℕ) :
    ∃ wi wb wn wr ws p, (initializePartition g now).run t =
      .ok () { t with
        bytes := initialized g (splice t.bytes 0 (4096 * g.blockCount) fun _ ↦ unusedSpace) wi wb wn wr ws
        position := p } ∧ Written g now wi wb wn wr ws := by
  have hclear := clearPartition_run S.small hsize
  obtain ⟨wi, wb, p₂, hmaps, hwi, hwb⟩ := writeFreemaps_run S (t := { t with
    bytes := splice t.bytes 0 (4096 * g.blockCount) fun _ ↦ unusedSpace
    position := 0 + 4096 * g.blockCount }) hsize
  obtain ⟨wn, wr, p₃, hroot, hwn, hwr, hwn', hwr'⟩ := createRoot_run S (t := { t with
    bytes := mapped g (splice t.bytes 0 (4096 * g.blockCount) fun _ ↦ unusedSpace) wi wb
    position := p₂ }) hsize now
  obtain ⟨ws, p₄, hsuper, hws, hws'⟩ := writeSuper_run S (t := { t with
    bytes := splice (splice (mapped g (splice t.bytes 0 (4096 * g.blockCount) fun _ ↦ unusedSpace) wi wb)
      (4096 * (1 + 2 * g.freemapBlocksize)) 4096 wn) (4096 * g.metadata) 4096 wr
    position := p₃ }) hsize
  refine ⟨wi, wb, wn, wr, ws, p₄, ?_, ⟨hwi, hwb, hwn, hwr, hws, hwn', hwr', hws'⟩⟩
  rw [initializePartition, run_bind_ok hclear, run_bind_ok hmaps, run_bind_ok hroot]
  exact hsuper

section Written

variable {s : ℕ → UInt8} {now p : ℕ} {wi wb wn wr ws : Workspace} (W : Written g now wi wb wn wr ws)

omit S hsize in
theorem initialized_maps (hlow : 4096 ≤ k) (hhigh : k < 4096 * (1 + 2 * g.freemapBlocksize)) :
    initialized g s wi wb wn wr ws k = mapped g s wi wb k := by
  rw [initialized, Sizes.metadata, splice_outside (by omega), splice_outside (by omega),
    splice_outside (by omega)]

omit hsize in
theorem initialized_inodetable (hk : k < 4096 * g.inodetableBlocksize) :
    initialized g s wi wb wn wr ws (4096 * (1 + 2 * g.freemapBlocksize) + k) =
      if k < 4096 then wn k else s (4096 * (1 + 2 * g.freemapBlocksize) + k) := by
  have hmap := S.freemap
  rw [initialized, Sizes.metadata, splice_outside (by omega), splice_outside (by omega)]
  split_ifs with hfirst
  · exact splice_add hfirst
  · rw [splice_outside (by omega), mapped, splice_outside (by omega), splice_outside (by omega),
      splice_outside (by omega), splice_outside (by omega)]

omit S hsize in
theorem initialized_root (hk : k < 4096) :
    initialized g s wi wb wn wr ws (4096 * g.metadata + k) = wr k := by
  have hpos : 1 ≤ g.metadata := by
    rw [Sizes.metadata]
    omega
  rw [initialized, splice_outside (by omega)]
  exact splice_add hk

omit hsize in
theorem initialized_blocks (hk : 4096 * (g.metadata + 1) ≤ k) :
    initialized g s wi wb wn wr ws k = s k := by
  have hmap := S.freemap
  rw [Sizes.metadata] at hk
  rw [initialized, Sizes.metadata, splice_outside (by omega), splice_outside (by omega),
    splice_outside (by omega), mapped, splice_outside (by omega), splice_outside (by omega),
    splice_outside (by omega), splice_outside (by omega)]

include W

omit hsize in
theorem Written.inodeAt_zero (htable : 1 ≤ g.inodetableBlocksize) :
    inodeAt (initialized g s wi wb wn wr ws) g 0 = Inode.decode (rootNode g now).encode 0 := by
  apply Inode.decode_congr
  intro k hk
  have hfirst : k < 4096 := by omega
  rw [Nat.mul_zero, Nat.add_zero, initialized_inodetable S (by omega), if_pos hfirst, Nat.zero_add]
  exact W.node k hk

theorem Written.image :
    Image g [] { t with bytes := initialized g s wi wb wn wr ws, position := p } := by
  have hpre := S.preallocated
  have hmap := S.freemap
  simp only [Sizes.metadata] at hpre
  refine ⟨hsize, ?_, fun i hi ↦ ?_, fun b hb ↦ ?_, fun htable ↦ ?_, fun k hk ↦
    absurd hk (Nat.not_lt_zero k),
    ?_, by decide, fun k hk ↦ absurd hk (Nat.not_lt_zero k)⟩
  · have hbytes : SuperBlock.decode (initialized g s wi wb wn wr ws) 0 =
        SuperBlock.decode (mySuper g).encode 0 := by
      apply SuperBlock.decode_congr
      intro k hk
      rw [initialized, splice_inside (Nat.zero_le _) (by omega), Nat.zero_add,
        Nat.sub_zero, W.super k hk]
    have hwords : ∀ v ∈ (mySuper g).words, v < 2 ^ 32 := by
      have hsmall := S.small
      have hmapped := S.mapped
      simp only [SuperBlock.words, mySuper, List.forall_mem_cons, blockSize, List.not_mem_nil,
        IsEmpty.forall_iff, implies_true, and_true]
      omega
    rw [hbytes, SuperBlock.decode_encode hwords]
  · have hi' : inodeBit (initialized g s wi wb wn wr ws) i = inodeBit (mapped g s wi wb) i :=
      bit_congr (initialized_maps (by omega) (by omega)) rfl
    have hzero : i = 0 ↔ i ≤ ([] : List NewFile).length := Nat.le_zero.symm
    exact hi'.trans ((mapped_inodeBit S W.inodes hi).trans (decide_eq_decide.mpr hzero))
  · have hb' : blockBit (initialized g s wi wb wn wr ws) g b = blockBit (mapped g s wi wb) g b :=
      bit_congr (initialized_maps (by omega) (by omega)) rfl
    exact hb'.trans (mapped_blockBit S W.blocks hb)
  · rw [W.inodeAt_zero S htable]
    have hlt : g.metadata < 2 ^ 32 := by
      simp only [Sizes.metadata]
      omega
    refine ⟨fun j ↦ ?_, ?_, ?_⟩
    · rw [Inode.decode_encode_blocks]
      fin_cases j
      · exact Nat.mod_eq_of_lt hlt
      · rfl
      · rfl
      · rfl
    · rw [Inode.decode_encode_firstIndirect]
      rfl
    · rw [Inode.decode_encode_secondIndirect]
      rfl
  · apply listed_rootBytes
    intro k hk
    rw [← W.root k hk]
    exact initialized_root (by omega)

omit hsize in
theorem Written.unused (hs : ∀ k < 4096 * g.blockCount, s k = unusedSpace) :
    Unused g [] (initialized g s wi wb wn wr ws) := by
  have hin := S.inside
  have hmeta : g.metadata = 1 + 2 * g.freemapBlocksize + g.inodetableBlocksize := rfl
  constructor
  · intro k hlow hhigh
    rw [initialized, splice_inside (Nat.zero_le _) (by omega)]
    exact W.behindSuper k hlow hhigh
  · intro k hlow hhigh
    rw [List.length_nil] at hlow
    rw [initialized_inodetable S hhigh]
    split_ifs with hfirst
    · exact W.behindNode k hlow hfirst
    · exact hs _ (by omega)
  · intro k hlow hhigh
    rw [initialized_root hhigh]
    exact W.behindRoot k hlow hhigh
  · intro k hlow hhigh
    rw [initialized_blocks S (by exact hlow)]
    exact hs k hhigh

end Written

theorem initializePartition_run (now : ℕ) :
    ∃ t', (initializePartition g now).run t = .ok () t' ∧ Image g [] t' := by
  obtain ⟨wi, wb, wn, wr, ws, p, hrun, W⟩ := initializePartition_written S hsize now
  exact ⟨_, hrun, W.image S hsize⟩

theorem image_of_return {now : ℕ} {t' : Tool}
    (hrun : (initializePartition g now).run t = .ok () t') :
    Image g [] t' := by
  obtain ⟨_, hrun', I⟩ := initializePartition_run S hsize now
  rw [hrun] at hrun'
  cases hrun'
  exact I

end Initializing

section Returning

variable {t' : Tool}

/-- `initialize` returns only on partitions that the tool can deal with. -/
theorem clearPartition_small (h : (clearPartition g).run t = .ok () t') :
    g.blockCount < 2 ^ 31 := by
  by_contra hlarge
  obtain ⟨_, u, -, h⟩ := exists_of_run_bind h
  simp only [not_lt.mp hlarge, ↓reduceIte] at h
  obtain ⟨_, _, h, -⟩ := exists_of_run_bind h
  cases h

theorem writeFreemaps_small (h : (writeFreemaps g).run t = .ok () t') :
    (g.metadata + 1) % 2 ^ 32 ≤ 32768 := by
  by_contra hlarge
  have hlarge' :
      blockSize * 8 < (1 + 2 * g.freemapBlocksize + g.inodetableBlocksize + 1) % 2 ^ 32 :=
    not_le.mp hlarge
  obtain ⟨_, _, -, h⟩ := exists_of_run_bind h
  obtain ⟨_, _, -, h⟩ := exists_of_run_bind h
  obtain ⟨_, _, -, h⟩ := exists_of_run_bind h
  obtain ⟨_, _, -, h⟩ := exists_of_run_bind h
  obtain ⟨_, _, -, h⟩ := exists_of_run_bind h
  simp only [hlarge', ↓reduceIte] at h
  obtain ⟨_, _, h, -⟩ := exists_of_run_bind h
  cases h

theorem sound_of_return {now : ℕ} (h : 5 ≤ n) (hn : n < 2 ^ 32)
    (hrun : (initializePartition (computeSizes n) now).run t = .ok () t') :
    Sound (computeSizes n) := by
  obtain ⟨_, u, hclear, hrun⟩ := exists_of_run_bind hrun
  obtain ⟨_, u', hmaps, -⟩ := exists_of_run_bind hrun
  have hsmall : n < 2 ^ 31 := clearPartition_small hclear
  have hmeta := writeFreemaps_small hmaps
  apply Sound.of_le h hsmall
  have hlt : (computeSizes n).metadata + 1 < 2 ^ 32 := by
    simp only [Sizes.metadata, computeSizes, blockSize]
    split_ifs <;> omega
  rwa [Nat.mod_eq_of_lt hlt] at hmeta

end Returning

end GenericFs.Disktool
