import GenericFs.Disktool.Regions
import GenericFs.Library.Machine

namespace GenericFs.Disktool

open Function GenericFs.Library Store Bitmap Returning Machine

/-- The bytes of the files are as they were: their entries, but for the link of the
last one, their inodes and their data. -/
structure Untouched (g : Sizes) (files : List NewFile) (t t' : Tool) : Prop where
  entry : ∀ k < extent (entries files), k < offsetOf (entries files) ((entries files).length - 1) ∨
    offsetOf (entries files) ((entries files).length - 1) + 4 ≤ k →
      t'.bytes (4096 * g.metadata + k) = t.bytes (4096 * g.metadata + k)
  slot : ∀ i ≤ files.length, ∀ k < 64, t'.bytes (4096 * (1 + 2 * g.freemapBlocksize) + 64 * i + k) =
    t.bytes (4096 * (1 + 2 * g.freemapBlocksize) + 64 * i + k)
  data : ∀ k, 4096 * (g.metadata + 1) ≤ k → k < 4096 * freshBlock g files → t'.bytes k = t.bytes k

variable {g : Sizes} {files : List NewFile} {f : NewFile} {t t' t'' : Tool} {k p : ℕ}

section Lists

theorem entries_length : (entries files).length = files.length + 2 := by simp [entries]

theorem entries_append :
    entries (files ++ [f]) = entries files ++ [⟨f.name, files.length + 1⟩] := by
  rw [entries, List.mapIdx_concat]
  rfl

theorem stored_append : stored (files ++ [f]) = stored files + if 0 < f.size then 1 else 0 := by
  simp [stored, List.countP_append, List.countP_singleton]

theorem blockNumber_append (h : k < files.length) (h' : k < (files ++ [f]).length) :
    blockNumber g (files ++ [f]) k h' = blockNumber g files k h := by
  rw [blockNumber, blockNumber, List.getElem_append_left h, List.take_append_of_le_length h.le]

theorem blockNumber_last (h : files.length < (files ++ [f]).length) :
    blockNumber g (files ++ [f]) files.length h = dataBlock g files f := by
  rw [blockNumber, dataBlock, List.getElem_concat_length rfl, List.take_left' rfl, freshBlock]

theorem stored_take_le : stored (files.take k) ≤ stored files :=
  List.Sublist.countP_le (List.take_sublist k files)

theorem blockNumber_eq (h : k < files.length) (hdata : 0 < (files[k]).size) :
    blockNumber g files k h = g.metadata + 1 + stored (files.take k) := if_pos hdata

theorem stored_take_lt (h : k < files.length) (hdata : 0 < (files[k]).size) :
    stored (files.take k) < stored files := by
  have hnext : stored (files.take (k + 1)) = stored (files.take k) + 1 := by
    rw [List.take_succ_eq_append_getElem h, stored_append, if_pos hdata]
  have hle : stored (files.take (k + 1)) ≤ stored files := stored_take_le
  omega

theorem currentNode_points {block : ℕ} (h : block < 2 ^ 32) (hsize : f.size < 2 ^ 32) :
    (Inode.decode (currentNode f block).encode 0).Points block ∧
      (Inode.decode (currentNode f block).encode 0).fileSize = f.size := by
  refine ⟨⟨fun i ↦ ?_, ?_, ?_⟩, ?_⟩
  · rw [Inode.decode_encode_blocks]
    fin_cases i
    · exact Nat.mod_eq_of_lt h
    · rfl
    · rfl
    · rfl
  · rw [Inode.decode_encode_firstIndirect]
    rfl
  · rw [Inode.decode_encode_secondIndirect]
    rfl
  · rw [Inode.decode_encode_fileSize]
    exact Nat.mod_eq_of_lt hsize

end Lists

section Creating

variable (S : Sound g) (I : Image g files t)
    (htable : files.length + 1 < 64 * g.inodetableBlocksize)

include S I htable

theorem Image.untouched : Untouched g files t
    { t with bytes := created g files f t.size t.bytes, position := p } := by
  have hpre := S.preallocated
  have hmap := S.freemap
  have hlen := I.length_le
  have hinode : files.length + 1 < 32768 * g.freemapBlocksize := by omega
  have hblock := I.freshBlock_lt S
  refine ⟨fun k hk hlink ↦ ?_, fun i hi k hk ↦ ?_, fun k hlow hhigh ↦ ?_⟩
  · have hext := I.extent
    simp only
    rw [created_root htable (by omega), rootLinked, linked_keep hk hlink]
  · apply created_table hinode hblock
    · omega
    · simp only [Sizes.metadata]
      omega
    · left
      simp only [slotOf]
      omega
  · exact created_data hinode hblock htable hlow hhigh

theorem Image.inodeAt_created {i : ℕ} (hi : i ≤ files.length) :
    inodeAt (created g files f t.size t.bytes) g i = inodeAt t.bytes g i := by
  apply Inode.decode_congr
  exact (I.untouched S htable (p := 0)).slot i hi

theorem Image.inodeAt_created_last :
    inodeAt (created g files f t.size t.bytes) g (files.length + 1) =
    Inode.decode (currentNode f (dataBlock g files f)).encode 0 := by
  have hin := S.inside
  have hsize := I.size
  apply Inode.decode_congr
  intro k hk
  rw [Nat.zero_add]
  exact created_slot htable (by omega) hk

theorem Image.create (hname : f.name.length < 256) (hsmall : f.size ≤ 4096)
    (hfit : Disktool.extent (entries files) + 9 + f.name.length ≤ 4096) : Image g (files ++ [f])
      { t with bytes := created g files f t.size t.bytes, position := p } := by
  have hpre := S.preallocated
  have hin := S.inside
  have hmap := S.mapped
  have hsize := I.size
  have hlen := I.length_le
  have hinode : files.length + 1 < 32768 * g.freemapBlocksize := by omega
  have hblock := I.freshBlock_lt S
  constructor
  · exact hsize
  · rw [← I.super]
    apply SuperBlock.decode_congr
    intro k hk
    exact created_head (by omega)
  · intro i hi
    simp only
    rw [created_inodeBit hi, I.inodeMap i hi, ← Bool.decide_or, List.length_append,
      List.length_singleton]
    exact decide_eq_decide.mpr (by omega)
  · intro b hb
    simp only
    rw [created_blockBit hinode hb, I.blockMap b hb, ← Bool.decide_or, stored_append, freshBlock]
    apply decide_eq_decide.mpr
    split_ifs <;> omega
  · intro htab
    rw [I.inodeAt_created S htable (Nat.zero_le _)]
    exact I.root htab
  · intro k hk
    rw [List.length_append, List.length_singleton] at hk
    rcases Nat.lt_succ_iff_lt_or_eq.mp hk with hlt | rfl
    · rw [blockNumber_append hlt, List.getElem_append_left hlt]
      simp only
      rw [I.inodeAt_created S htable (by omega)]
      exact I.slot k hlt
    · rw [blockNumber_last, List.getElem_concat_length rfl]
      simp only
      rw [I.inodeAt_created_last S htable]
      apply currentNode_points _ (by omega)
      have hsmall := I.freshBlock_small S
      rw [dataBlock]
      split_ifs <;> omega
  · rw [entries_append]
    have hroot : Listed (rootLinked g files f t.bytes)
        (entries files ++ [⟨f.name, files.length + 1⟩]) := by
      have hlast := I.listing.last_add_nine_le
      apply I.listing.append
      · intro k hk hlink
        exact linked_keep hk hlink
      · exact word_linked_last (by omega) (by omega)
      · exact linked_entry hname (by omega)
      · exact word_linked_off
    apply hroot.congr
    intro k hk
    rw [extent_append, Entry.length] at hk
    simp only at hk
    exact created_root htable (by omega)
  · rw [entries_append, extent_append, Entry.length]
    simp only
    omega
  · intro k hk hdata hcount j hj
    rw [List.length_append, List.length_singleton] at hk
    rcases Nat.lt_succ_iff_lt_or_eq.mp hk with hlt | rfl
    · simp only [List.getElem_append_left hlt, blockNumber_append hlt] at hdata hcount ⊢
      rw [← I.data k hlt hdata hcount j hj]
      have hless := stored_take_lt hlt hdata
      rw [blockNumber_eq hlt hdata]
      apply (I.untouched S htable (p := 0)).data
      · omega
      · rw [freshBlock]
        omega
    · simp only [List.getElem_concat_length, blockNumber_last, dataBlock] at hdata hcount ⊢
      simp only [hdata, ↓reduceIte] at hcount ⊢
      exact created_fresh hdata (by omega) hj

end Creating

section Histories

/-- A call of `create_file` that finds a clear bit in each map that it needs. -/
structure Admissible (g : Sizes) (t : Tool) (f : NewFile) : Prop where
  name : 1 ≤ f.name.length ∧ f.name.length ≤ 127
  small : f.size ≤ 4096
  inode : ∃ i < g.blockCount, inodeBit t.bytes i = false
  block : 0 < f.size → ∃ b < g.blockCount, blockBit t.bytes g b = false

structure CreateStep (g : Sizes) (t : Tool) (f : NewFile) (t' : Tool) : Prop where
  admissible : Admissible g t f
  run : (createFile g f).run t = .ok () t'

/-- The files are on the partition, with all their inodes and blocks. -/
structure Held (g : Sizes) (files : List NewFile) (t : Tool) : Prop where
  image : Image g files t
  inodes : files.length < g.blockCount
  blocks : freshBlock g files ≤ g.blockCount
  names : ∀ f ∈ files, 1 ≤ f.name.length ∧ f.name.length ≤ 127

theorem Held.nil (S : Sound g) (I : Image g [] t) : Held g [] t := by
  have hin := S.inside
  refine ⟨I, ?_, ?_, fun f hf ↦ absurd hf List.not_mem_nil⟩
  · rw [List.length_nil]
    omega
  · exact hin

theorem Held.create (S : Sound g) (L : Laid g) (H : Held g files t) (A : Admissible g t f)
    (hfit : extent (entries files) + 9 + f.name.length ≤ 4096) :
    ∃ t', (createFile g f).run t = .ok () t' ∧ Held g (files ++ [f]) t' ∧
      Untouched g files t t' := by
  have I := H.image
  have hslots := L.slots
  have hmap := L.mapped
  obtain ⟨i, hi, hclear⟩ := A.inode
  rw [I.inodeMap i (by omega)] at hclear
  have hfree := of_decide_eq_false hclear
  have htable : files.length + 1 < 64 * g.inodetableBlocksize := by omega
  obtain ⟨p, hrun⟩ := createFile_run S I (by omega) A.small hfit
  have hname := A.name.2
  refine ⟨_, hrun, ⟨I.create S htable (by omega) A.small hfit, ?_, ?_, ?_⟩, I.untouched S htable⟩
  · rw [List.length_append, List.length_singleton]
    omega
  · have hblocks := H.blocks
    rw [freshBlock, stored_append] at *
    by_cases hdata : 0 < f.size
    · obtain ⟨b, hb, hclear⟩ := A.block hdata
      rw [I.blockMap b (by omega)] at hclear
      have hfree := of_decide_eq_false hclear
      rw [if_pos hdata]
      omega
    · rwa [if_neg hdata]
  · intro a ha
    rcases List.mem_append.mp ha with ha | ha
    · exact H.names a ha
    · rw [List.mem_singleton.mp ha]
      exact A.name

theorem Untouched.refl :
    Untouched g files t t := ⟨fun _ _ _ ↦ rfl, fun _ _ _ _ ↦ rfl, fun _ _ _ ↦ rfl⟩

theorem Untouched.trans (U : Untouched g files t t') (U' : Untouched g files t' t'') :
    Untouched g files t t'' :=
  ⟨fun k hk hlink ↦ (U'.entry k hk hlink).trans (U.entry k hk hlink),
    fun i hi k hk ↦ (U'.slot i hi k hk).trans (U.slot i hi k hk),
    fun k hlow hhigh ↦ (U'.data k hlow hhigh).trans (U.data k hlow hhigh)⟩

theorem Untouched.of_append {more : List NewFile} (U : Untouched g (files ++ more) t t') :
    Untouched g files t t' := by
  induction more using List.reverseRecOn with
  | nil => rwa [List.append_nil] at U
  | append_singleton more f ih =>
    rw [← List.append_assoc] at U
    apply ih
    refine ⟨fun k hk _ ↦ U.entry k ?_ (.inl ?_), fun i hi ↦ U.slot i ?_, fun k hlow hhigh ↦
      U.data k hlow ?_⟩
    · rw [entries_append, extent_append]
      omega
    · rw [entries_append, length_append_sub_one, offsetOf_append le_rfl, offsetOf_length]
      exact hk
    · rw [List.length_append]
      omega
    · rw [freshBlock] at hhigh ⊢
      rw [stored_append]
      omega

end Histories

end GenericFs.Disktool
