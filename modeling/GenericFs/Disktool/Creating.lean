import GenericFs.Disktool.Image

namespace GenericFs.Disktool

open Function GenericFs.Library Store Bitmap Returning

def linked (w : Workspace) (last off inode : ℕ) (name : List UInt8) : Workspace :=
  splice (update (splice (splice (splice w last 4 (wordBytes off)) off 4 (wordBytes 0)) (off + 4) 4
    (wordBytes inode)) (off + 8) (UInt8.ofNat name.length)) (off + 9) name.length (ofList name)

variable {g : Sizes} {files : List NewFile} {f : NewFile} {t : Tool} {w : Workspace}
  {last off inode k n : ℕ} {name : List UInt8}

section Linking

theorem linked_keep (hk : k < off) (hlink : k < last ∨ last + 4 ≤ k) :
    linked w last off inode name k = w k := by
  have hne : k ≠ off + 8 := by omega
  rw [linked, splice_outside (by omega), update_of_ne hne, splice_outside (by omega),
    splice_outside (by omega), splice_outside hlink]

theorem word_linked_last (hlast : last + 4 ≤ off) (hoff : off < 2 ^ 32) :
    word 4 (linked w last off inode name) last = off := by
  have hword : word 4 (linked w last off inode name) last =
      word 4 (splice w last 4 (wordBytes off)) last := by
    apply word_congr
    intro j hj
    have hne : last + j ≠ off + 8 := by omega
    rw [linked, splice_outside (by omega), update_of_ne hne, splice_outside (by omega),
      splice_outside (by omega)]
  rw [hword]
  exact word_splice_wordBytes hoff

theorem word_linked_off : word 4 (linked w last off inode name) off = 0 := by
  have hword : word 4 (linked w last off inode name) off =
      word 4 (splice (splice w last 4 (wordBytes off)) off 4 (wordBytes 0)) off := by
    apply word_congr
    intro j hj
    have hne : off + j ≠ off + 8 := by omega
    rw [linked, splice_outside (by omega), update_of_ne hne, splice_outside (by omega)]
  rw [hword]
  exact word_splice_wordBytes (by decide)

theorem linked_entry (hname : name.length < 256) (hinode : inode < 2 ^ 32) :
    (⟨name, inode⟩ : Entry).At (linked w last off inode name) off := by
  refine ⟨?_, ?_, ?_⟩
  · have hword : word 4 (linked w last off inode name) (off + 4) =
        word 4 (splice (splice (splice w last 4 (wordBytes off)) off 4 (wordBytes 0)) (off + 4) 4
          (wordBytes inode)) (off + 4) := by
      apply word_congr
      intro j hj
      have hne : off + 4 + j ≠ off + 8 := by omega
      rw [linked, splice_outside (by omega), update_of_ne hne]
    rw [hword]
    exact word_splice_wordBytes hinode
  · rw [linked, splice_outside (by omega), update_self, UInt8.toNat_ofNat', Nat.mod_eq_of_lt hname]
  · apply List.ext_getElem
    · exact length_slice
    · intro j hj hj'
      rw [getElem_slice, linked, splice_add hj', ofList, List.getD_eq_getElem _ _ hj']

end Linking

section Filling

theorem fillData_apply {i : ℕ} {c : UInt8} (hc : c = UInt8.ofNat (0x41 + i % 26)) :
    fillData n i c w k = if i ≤ k ∧ k < i + n then UInt8.ofNat (0x41 + k % 26) else w k := by
  induction n generalizing i c w with
  | zero =>
    have hnone : ¬(i ≤ k ∧ k < i + 0) := by omega
    rw [fillData, if_neg hnone]
  | succ n ih =>
    have hnext : (if 0x5A < c + 1 then 0x41 else c + 1) = UInt8.ofNat (0x41 + (i + 1) % 26) := by
      have hall : ∀ r : Fin 26, (if (0x5A : UInt8) < UInt8.ofNat (0x41 + r) + 1 then 0x41
          else UInt8.ofNat (0x41 + r) + 1) = UInt8.ofNat (0x41 + (r + 1) % 26) := by decide
      have hmod : (i + 1) % 26 = (i % 26 + 1) % 26 := by omega
      rw [hc, hmod]
      exact hall ⟨i % 26, Nat.mod_lt _ (by decide)⟩
    rw [fillData, ih hnext]
    by_cases hki : k = i
    · have hout : ¬(i + 1 ≤ k ∧ k < i + 1 + n) := by omega
      have hin : i ≤ k ∧ k < i + (n + 1) := by omega
      rw [if_neg hout, if_pos hin, hki, update_self, hc]
    · have hiff : (i + 1 ≤ k ∧ k < i + 1 + n) ↔ (i ≤ k ∧ k < i + (n + 1)) := by omega
      simp only [hiff, update_of_ne hki]

theorem fillData_letters (hk : k < 4096) :
    fillData n 0 0x41 (memset w 0 blockSize) k = letters n k := by
  have hzero :
      memset w 0 blockSize k = 0 := splice_inside (Nat.zero_le _) (by simp only [blockSize]; omega)
  have hiff : (0 ≤ k ∧ k < 0 + n) ↔ k < n := by omega
  have hstart : (0x41 : UInt8) = UInt8.ofNat (0x41 + 0 % 26) := rfl
  rw [fillData_apply hstart, hzero]
  simp only [hiff, letters]

end Filling

def freshBlock (g : Sizes) (files : List NewFile) : ℕ := g.metadata + 1 + stored files

def dataBlock (g : Sizes) (files : List NewFile) (f : NewFile) : ℕ :=
  if 0 < f.size then freshBlock g files else 0

/-- The maps after the inode of a new file and its data block are allocated. -/
def marked (g : Sizes) (files : List NewFile) (f : NewFile) (s : ℕ → UInt8) : ℕ → UInt8 :=
  let s := setBit s (32768 * 1 + (files.length + 1))
  if 0 < f.size then setBit s (32768 * (1 + g.freemapBlocksize) + freshBlock g files) else s

def rootLinked (g : Sizes) (files : List NewFile) (f : NewFile) (s : ℕ → UInt8) : ℕ → UInt8 :=
  linked (fun k ↦ s (4096 * g.metadata + k)) (offsetOf (entries files) ((entries files).length - 1))
    (extent (entries files)) (files.length + 1) f.name

def slotOf (g : Sizes) (files : List NewFile) : ℕ :=
  4096 * (1 + 2 * g.freemapBlocksize) + 64 * (files.length + 1)

/-- The bytes of the partition after a file is created. What would be behind the
end of the device is lost. -/
def created (g : Sizes) (files : List NewFile) (f : NewFile) (size : ℕ) (s : ℕ → UInt8) :
    ℕ → UInt8 :=
  let s := splice (marked g files f s) (4096 * g.metadata) 4096 (rootLinked g files f s)
  let s := splice s (slotOf g files) (min 64 (size - slotOf g files))
    (currentNode f (dataBlock g files f)).encode
  if 0 < f.size then
    splice s (4096 * freshBlock g files) (min 4096 (size - 4096 * freshBlock g files))
    (letters f.size)
  else s

section Running

variable (S : Sound g) (I : Image g files t)

include I

theorem Image.length_le : 9 * (files.length + 2) ≤ 4096 := by
  have hlen : (entries files).length = files.length + 2 := by simp [entries]
  have hext := I.extent
  have hle : 9 * (entries files).length ≤ offsetOf (entries files) (entries files).length :=
    le_offsetOf le_rfl
  rw [offsetOf_length, hlen] at hle
  omega

include S

theorem Image.freshBlock_lt : freshBlock g files < 32768 * g.freemapBlocksize := by
  have hmap := S.mapped
  have hlen := I.length_le
  have hstored : stored files ≤ files.length := List.countP_le_length
  rw [freshBlock]
  omega

theorem Image.freshBlock_small : freshBlock g files < 2 ^ 20 := by
  have hpre := S.preallocated
  have hlen := I.length_le
  have hstored : stored files ≤ files.length := List.countP_le_length
  rw [freshBlock]
  omega

theorem allocateInode_image {p : ℕ} : ∃ q, (allocateInode g).run { t with position := p } =
    .ok (files.length + 1)
      { t with bytes := setBit t.bytes (32768 * 1 + (files.length + 1)), position := q } := by
  have hpre := S.preallocated
  have hin := S.inside
  have hmap := S.freemap
  have hsize := I.size
  have hlen := I.length_le
  simp only [Sizes.metadata] at hpre hin
  have hbit : ∀ i < 32768 * g.freemapBlocksize, bit t.bytes (32768 * 1 + i) =
      decide (i ≤ files.length) :=
    I.inodeMap
  have hclear : bit t.bytes (32768 * 1 + (files.length + 1)) = false :=
    (hbit _ (by omega)).trans (decide_eq_false (by omega))
  have hset : ∀ j < files.length + 1, bit t.bytes (32768 * 1 + j) = true := by
    intro j hj
    exact (hbit j (by omega)).trans (decide_eq_true (by omega))
  have hfit : 4096 * (1 + g.freemapBlocksize) ≤ t.size := by omega
  exact @allocate_run { t with position := p } (files.length + 1) 1 g.freemapBlocksize
    (by omega) hfit hclear (by omega) hset (by omega)

theorem allocateBlock_image {p : ℕ} {w : Workspace} :
    let s := splice (setBit t.bytes (32768 * 1 + (files.length + 1))) (4096 * g.metadata) 4096 w
    ∃ q, (allocateBlock g).run { t with bytes := s, position := p } = .ok (freshBlock g files)
      { t with
        bytes := setBit s (32768 * (1 + g.freemapBlocksize) + freshBlock g files)
        position := q } := by
  intro s
  have hpre := S.preallocated
  have hin := S.inside
  have hmap := S.mapped
  have hsize := I.size
  have hlen := I.length_le
  have hbit : ∀ b < 32768 * g.freemapBlocksize, bit s (32768 * (1 + g.freemapBlocksize) + b) =
      decide (b < freshBlock g files) := by
    intro b hb
    apply Eq.trans _ (I.blockMap b hb)
    apply bit_congr _ rfl
    simp only [Sizes.metadata] at hin hpre
    simp only [s, Sizes.metadata]
    rw [splice_outside (by omega), setBit_of_ne (by omega)]
  have hhigh := I.freshBlock_lt S
  have hclear : bit s (32768 * (1 + g.freemapBlocksize) + freshBlock g files) = false :=
    (hbit _ hhigh).trans (decide_eq_false (lt_irrefl _))
  have hset : ∀ j < freshBlock g files, bit s (32768 * (1 + g.freemapBlocksize) + j) = true := by
    intro j hj
    exact (hbit j (hj.trans hhigh)).trans (decide_eq_true hj)
  have hfresh := I.freshBlock_small S
  have hend : 1 + 2 * g.freemapBlocksize = 1 + g.freemapBlocksize + g.freemapBlocksize := by omega
  simp only [Sizes.metadata] at hin hpre
  have hfit : 4096 * (1 + g.freemapBlocksize + g.freemapBlocksize) ≤ t.size := by omega
  rw [allocateBlock, hend]
  exact @allocate_run { t with bytes := s, position := p } (freshBlock g files)
    (1 + g.freemapBlocksize) g.freemapBlocksize (by omega) hfit hclear hhigh hset (by omega)

omit I S in
theorem write_run_min : (write w n).run t = .ok ()
    { t with
      bytes := splice t.bytes t.position (min n (t.size - t.position)) w
      position := t.position + min n (t.size - t.position) } := rfl

omit I S in
theorem linked_congr {w' : Workspace} (h : w k = w' k) :
    linked w last off inode name k = linked w' last off inode name k := by
  simp only [linked, splice, update_apply, h]

/-- What `create_file` reads first: the inode of the root directory, its block, and the
place of the last entry. -/
theorem Image.walk (htable : 1 ≤ g.inodetableBlocksize) : ∃ w₁ w₂ : Workspace,
    (read (fun _ ↦ 0) inodeSize).run
        { t with position := 4096 * (1 + 2 * g.freemapBlocksize) + inodeSize * 0 } =
      .ok w₁ { t with position := 4096 * (1 + 2 * g.freemapBlocksize) + inodeSize *
      0 + inodeSize } ∧
    (Inode.decode w₁ 0).blocks 0 = g.metadata ∧
    (read w₁ blockSize).run { t with position := 4096 * g.metadata } =
      .ok w₂ { t with position := 4096 * g.metadata + 4096 } ∧
    (∀ k < 4096, w₂ k = t.bytes (4096 * g.metadata + k)) ∧ Listed w₂ (entries files) ∧
    (lastEntry w₂ loopBound 0).run { t with position := 4096 * g.metadata + 4096 } =
      .ok (offsetOf (entries files) ((entries files).length - 1))
        { t with position := 4096 * g.metadata + 4096 } := by
  have hin := S.inside
  have hsize := I.size
  -- the inode of the root directory
  let w₁ : Workspace := splice (fun _ ↦ 0) 0 inodeSize fun k ↦
    t.bytes (4096 * (1 + 2 * g.freemapBlocksize) + inodeSize * 0 + k)
  have hread₁ : (read (fun _ ↦ 0) inodeSize).run
      { t with position := 4096 * (1 + 2 * g.freemapBlocksize) + inodeSize * 0 } = .ok w₁
      { t with position := 4096 * (1 + 2 * g.freemapBlocksize) + inodeSize * 0 + inodeSize } := by
    apply read_run
    simp only [Sizes.metadata, inodeSize] at hin ⊢
    omega
  have hpblock : (Inode.decode w₁ 0).blocks 0 = g.metadata := by
    have hnode : Inode.decode w₁ 0 = inodeAt t.bytes g 0 := by
      apply Inode.decode_congr
      intro k hk
      exact splice_add hk
    rw [hnode]
    exact (I.root htable).blocks 0
  -- the root directory block
  let w₂ : Workspace := splice w₁ 0 blockSize fun k ↦ t.bytes (4096 * g.metadata + k)
  have hread₂ : (read w₁ blockSize).run { t with position := 4096 * g.metadata } = .ok w₂
      { t with position := 4096 * g.metadata + 4096 } := read_run (by simp only [blockSize]; omega)
  have hw₂ : ∀ k < 4096, w₂ k = t.bytes (4096 * g.metadata + k) := by
    intro k hk
    exact splice_inside (Nat.zero_le _) (by simp only [blockSize]; omega)
  have hext := I.extent
  have hlisted : Listed w₂ (entries files) := by
    apply I.listing.congr
    intro k hk
    exact hw₂ k (by omega)
  refine ⟨w₁, w₂, hread₁, hpblock, hread₂, hw₂, hlisted, ?_⟩
  have hbound : 9 * (entries files).length ≤ offsetOf (entries files) (entries files).length :=
    le_offsetOf le_rfl
  rw [offsetOf_length] at hbound
  exact hlisted.lastEntry_run (k := 0) hext hlisted.length_pos
    (by simp only [loopBound, blockSize]; omega)

omit I in
theorem address_inodetable :
    address (1 + 2 * g.freemapBlocksize) = 4096 * (1 + 2 * g.freemapBlocksize) := by
  have hpre := S.preallocated
  simp only [Sizes.metadata] at hpre
  exact address_eq (by omega)

omit I in
theorem address_root : address g.metadata = 4096 * g.metadata := by
  have hpre := S.preallocated
  exact address_eq (by omega)

/-- What `create_file` does on a partition that holds the given files, whatever
fits on the device. -/
theorem createFile_run (htable : 1 ≤ g.inodetableBlocksize) (hsmall : f.size ≤ 4096)
    (hfit : extent (entries files) + 9 + f.name.length ≤ 4096) : ∃ p, (createFile g f).run t =
      .ok () { t with bytes := created g files f t.size t.bytes, position := p } := by
  have hpre := S.preallocated
  have hin := S.inside
  have hsize := I.size
  have hnodes := address_inodetable S
  have hroot := address_root S
  obtain ⟨w₁, w₂, hread₁, hpblock, hread₂, hw₂, hlisted, hwalk⟩ := I.walk S htable
  obtain ⟨p, hinode⟩ := allocateInode_image S I (p := 4096 * g.metadata + 4096)
  have hlinked : splice (setBit t.bytes (32768 * 1 + (files.length + 1))) (4096 * g.metadata) 4096
      (linked w₂ (offsetOf (entries files) ((entries files).length - 1)) (extent (entries files))
        (files.length + 1) f.name) =
      splice (setBit t.bytes (32768 * 1 + (files.length + 1))) (4096 * g.metadata) 4096
        (rootLinked g files f t.bytes) := by
    apply splice_congr
    intro k hk
    exact linked_congr (hw₂ k hk)
  have hnode : ∀ {w u : Workspace} {k}, k < inodeSize → splice w 0 inodeSize u k = u k := by
    intro w u k hk
    exact splice_inside (Nat.zero_le _) (by omega)
  rw [createFile, if_neg (not_lt.mpr hsmall), run_bind_ok lseek_run, hnodes, run_bind_ok hread₁]
  simp only [hpblock]
  rw [run_bind_ok lseek_run, hroot, run_bind_ok hread₂, run_bind_ok hwalk]
  have hlast := hlisted.last_add_nine_le
  have hend := hlisted.end_eq
  rw [run_bind_ok (loadByte_run (by simp only [blockSize]; omega)), hend,
    run_bind_ok (storeWord_run (by simp only [blockSize]; omega)),
    run_bind_ok (storeWord_run (by simp only [blockSize]; omega)), run_bind_ok hinode,
    run_bind_ok (storeWord_run (by simp only [blockSize]; omega)),
    run_bind_ok (storeByte_run (by simp only [blockSize]; omega)),
    run_bind_ok (storeBytes_run (by simp only [blockSize]; omega)), run_bind_ok lseek_run, ← linked,
    run_bind_ok (write_run (show 4096 * g.metadata + 4096 ≤ t.size by omega))]
  simp only [blockSize]
  rw [hlinked]
  by_cases hdata : 0 < f.size
  · obtain ⟨q, hblock⟩ := allocateBlock_image S I (p := 4096 * g.metadata + 4096)
      (w := rootLinked g files f t.bytes)
    have hhigh := I.freshBlock_lt S
    have hfresh := address_eq (I.freshBlock_small S)
    have hbit : (32768 * (1 + g.freemapBlocksize) + freshBlock g files) / 8 < 4096 * g.metadata ∨
        4096 * g.metadata + 4096 ≤ (32768 * (1 + g.freemapBlocksize) + freshBlock g files) / 8 := by
      left
      simp only [Sizes.metadata]
      omega
    simp only [hdata, ↓reduceIte]
    rw [run_bind_ok hblock, run_bind_ok lseek_run, run_bind_ok write_run_min, run_bind_ok lseek_run,
      write_run_min, hfresh]
    simp only [EStateM.Result.ok.injEq, Tool.mk.injEq, true_and, and_true]
    refine ⟨_, ?_, rfl⟩
    simp only [created, marked, dataBlock, hdata, ↓reduceIte]
    rw [setBit_splice hbit, splice_congr fun k hk ↦ fillData_letters (by omega),
      splice_congr fun k hk ↦ hnode (hk.trans_le (min_le_left _ _))]
    rfl
  · simp only [hdata, ↓reduceIte]
    rw [pure_bind, run_bind_ok lseek_run, run_bind_ok write_run_min, EStateM.run_pure]
    simp only [EStateM.Result.ok.injEq, Tool.mk.injEq, true_and, and_true]
    refine ⟨_, ?_, rfl⟩
    simp only [created, marked, dataBlock, hdata, ↓reduceIte]
    rw [splice_congr fun k hk ↦ hnode (hk.trans_le (min_le_left _ _))]
    rfl

/-- An entry that does not fit behind the others is written past the end of the local
array. -/
theorem createFile_overflow (htable : 1 ≤ g.inodetableBlocksize) (hsmall : f.size ≤ 4096)
    (hover : 4096 < extent (entries files) + 9 + f.name.length) :
    ∃ t', (createFile g f).run t = .error .undefined t' := by
  have hext := I.extent
  obtain ⟨w₁, w₂, hread₁, hpblock, hread₂, -, hlisted, hwalk⟩ := I.walk S htable
  obtain ⟨p, hinode⟩ := allocateInode_image S I (p := 4096 * g.metadata + 4096)
  have hlast := hlisted.last_add_nine_le
  rw [createFile, if_neg (not_lt.mpr hsmall), run_bind_ok lseek_run, address_inodetable S,
    run_bind_ok hread₁]
  simp only [hpblock]
  rw [run_bind_ok lseek_run, address_root S, run_bind_ok hread₂, run_bind_ok hwalk,
    run_bind_ok (loadByte_run (by simp only [blockSize]; omega)), hlisted.end_eq,
    run_bind_ok (storeWord_run (by simp only [blockSize]; omega))]
  by_cases hlink : extent (entries files) + 4 ≤ blockSize
  · rw [run_bind_ok (storeWord_run hlink), run_bind_ok hinode]
    by_cases hnumber : extent (entries files) + 4 + 4 ≤ blockSize
    · rw [run_bind_ok (storeWord_run hnumber)]
      by_cases hlength : extent (entries files) + 8 < blockSize
      · rw [run_bind_ok (storeByte_run hlength)]
        exact ⟨_, run_bind_error (storeBytes_undefined (not_le.mpr hover))⟩
      · exact ⟨_, run_bind_error (storeByte_undefined hlength)⟩
    · exact ⟨_, run_bind_error (storeWord_undefined hnumber)⟩
  · exact ⟨_, run_bind_error (storeWord_undefined hlink)⟩

end Running

end GenericFs.Disktool
