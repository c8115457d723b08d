import GenericFs.Disktool.Histories

namespace GenericFs.Disktool

open Function GenericFs.Library Store Bitmap Returning Machine

/-- The lines of the root directory: the two entries that every directory has,
then the files in the order of their creation. -/
structure Shows (files : List NewFile) (rows : List Row) : Prop where
  names : rows.map Row.name = [0x2E] :: [0x2E, 0x2E] :: files.map NewFile.name
  first : ∀ row ∈ rows.head?, row.offset = 0
  increasing : rows.Pairwise fun a b ↦ a.offset < b.offset
  linked : rows.IsChain fun a b ↦ a.next = b.offset
  last : ∀ row ∈ rows.getLast?, row.next = 0
  distinct : ((rows.drop 2).map Row.inode).Nodup

/-- The inode says the size of the file and leads to its bytes. -/
structure Keeps (g : Sizes) (t : Tool) (f : NewFile) (inode : ℕ) : Prop where
  size : (inodeAt t.bytes g inode).fileSize = f.size
  data : 0 < f.size → ∀ j < 4096,
    t.bytes (4096 * (inodeAt t.bytes g inode).blocks 0 + j) = letters f.size j

def listingSize (files : List NewFile) : ℕ := 21 + (files.map fun f ↦ 9 + f.name.length).sum

variable {g : Sizes} {files : List NewFile} {f : NewFile} {t t' : Tool} {k : ℕ}

theorem listingSize_append :
    listingSize (files ++ [f]) = listingSize files + (9 + f.name.length) := by
  simp [listingSize, Nat.add_assoc]

theorem extent_entries : extent (entries files) = listingSize files := by
  induction files using List.reverseRecOn with
  | nil => rfl
  | append_singleton files f ih =>
    rw [entries_append, extent_append, ih, listingSize_append]
    rfl

theorem extent_add_le : extent (entries files) + 9 + f.name.length ≤ 4096 ↔
    listingSize (files ++ [f]) ≤ 4096 := by
  rw [listingSize_append, extent_entries, Nat.add_assoc]

theorem map_name_entries : (entries files).map Entry.name =
    [0x2E] :: [0x2E, 0x2E] :: files.map NewFile.name := by
  simp only [entries, List.map_cons, List.cons.injEq, true_and]
  apply List.ext_getElem
  · simp
  · intro k hk hk'
    simp

theorem drop_inode_entries :
    ((entries files).drop 2).map Entry.inode = List.range' 1 files.length := by
  apply List.ext_getElem
  · simp [entries]
  · intro k hk hk'
    simp [entries, Nat.add_comm]

theorem getElem_entries (h : k < files.length) (h' : k + 2 < (entries files).length) :
    (entries files)[k + 2] = ⟨(files[k]).name, k + 1⟩ := by
  simp [entries]

section Showing

variable {es : List Entry} {rows : List Row} (hlen : rows.length = es.length)
  (hrow : ∀ j (hj : j < es.length), rows[j]? = some (rowOf es j hj))

include hlen hrow

theorem getElem_rows {j : ℕ} (hj : j < rows.length) : rows[j] = rowOf es j (hlen ▸ hj) := by
  have h := hrow j (hlen ▸ hj)
  rw [List.getElem?_eq_getElem hj] at h
  exact Option.some.inj h

theorem map_name_rows : rows.map Row.name = es.map Entry.name := by
  apply List.ext_getElem
  · rw [List.length_map, List.length_map, hlen]
  · intro j hj hj'
    rw [List.getElem_map, List.getElem_map, getElem_rows hlen hrow]
    rfl

theorem map_inode_rows : rows.map Row.inode = es.map Entry.inode := by
  apply List.ext_getElem
  · rw [List.length_map, List.length_map, hlen]
  · intro j hj hj'
    rw [List.getElem_map, List.getElem_map, getElem_rows hlen hrow]
    rfl

end Showing

theorem shows_of_rows {rows : List Row} (hlen : rows.length = (entries files).length)
    (hrow : ∀ j (hj : j < (entries files).length), rows[j]? = some (rowOf (entries files) j hj)) :
    Shows files rows := by
  constructor
  · rw [map_name_rows hlen hrow, map_name_entries]
  · intro row hmem
    rw [List.head?_eq_getElem?, hrow 0 (by rw [entries_length]; omega)] at hmem
    rw [← Option.some.inj hmem]
    rfl
  · rw [List.pairwise_iff_getElem]
    intro i j hi hj hij
    rw [getElem_rows hlen hrow hi, getElem_rows hlen hrow hj]
    have hlt : offsetOf (entries files) i + 9 ≤ offsetOf (entries files) j :=
      offsetOf_lt hij (by omega)
    simp only [rowOf]
    omega
  · rw [List.isChain_iff_getElem]
    intro i hi
    rw [getElem_rows hlen hrow, getElem_rows hlen hrow]
    exact if_pos (by omega)
  · intro row hmem
    rw [List.getLast?_eq_getElem?, hlen, hrow _ (by rw [entries_length]; omega)] at hmem
    rw [← Option.some.inj hmem]
    exact if_neg (by omega)
  · rw [List.map_drop, map_inode_rows hlen hrow, ← List.map_drop, drop_inode_entries]
    exact List.nodup_range'

theorem showRootDir_kept (S : Sound g) (H : Held g files t) :
    ∃ rows t', showRootDir.run t = .ok rows t' ∧ Kept t t' ∧ rows.length = (entries files).length ∧
      ∀ j (hj : j < (entries files).length), rows[j]? = some (rowOf (entries files) j hj) := by
  have I := H.image
  have hpre := S.preallocated
  have hin := S.inside
  have hsize := I.size
  let w₁ : Workspace := splice (fun _ ↦ 0) 0 blockSize fun k ↦ t.bytes (0 + k)
  have hread₁ : (read (fun _ ↦ 0) blockSize).run { t with position := 0 } =
      .ok w₁ { t with position := 0 + 4096 } := read_run (by simp only [blockSize]; omega)
  have hsuper : SuperBlock.decode w₁ 0 = mySuper g := by
    rw [← I.super]
    apply SuperBlock.decode_congr
    intro k hk
    have hword : 0 + k < 0 + blockSize := by
      simp only [blockSize]
      omega
    simp only [w₁]
    rw [splice_inside (Nat.zero_le _) hword, Nat.sub_zero, ← Nat.add_assoc]
  have hroot : address (1 + 2 * g.freemapBlocksize + g.inodetableBlocksize) = 4096 * g.metadata :=
    address_eq (show g.metadata < 2 ^ 20 by omega)
  let w₂ : Workspace := splice w₁ 0 blockSize fun k ↦ t.bytes (4096 * g.metadata + k)
  have hread₂ : (read w₁ blockSize).run { t with position := 4096 * g.metadata } =
      .ok w₂ { t with position := 4096 * g.metadata + 4096 } :=
      read_run (by simp only [blockSize]; omega)
  have hlisted : Listed w₂ (entries files) := by
    apply I.listing.congr
    intro k hk
    have hext := I.extent
    exact splice_inside (Nat.zero_le _) (by simp only [blockSize]; omega)
  have hnames : ∀ e ∈ entries files, e.name.length < 128 := by
    intro e he
    have hmem := List.mem_map_of_mem (f := Entry.name) he
    rw [map_name_entries, List.mem_cons, List.mem_cons, List.mem_map] at hmem
    rcases hmem with h | h | ⟨f, hf, h⟩
    · rw [h]
      decide
    · rw [h]
      decide
    · have hle := (H.names f hf).2
      rw [← h]
      omega
  have hbound : 9 * (entries files).length ≤ offsetOf (entries files) (entries files).length :=
    le_offsetOf le_rfl
  rw [offsetOf_length] at hbound
  have hext := I.extent
  obtain ⟨rows, hrows, hlen, hrow⟩ :=
    hlisted.showRows_run (t := { t with position := 4096 * g.metadata + 4096 })
      (n := loopBound) hext hnames hlisted.length_pos (by simp only [loopBound, blockSize]; omega)
  refine ⟨rows, { t with position := 4096 * g.metadata + 4096 }, ?_, ⟨rfl, rfl⟩, by omega,
    fun j hj ↦ ?_⟩
  · rw [showRootDir, run_bind_ok lseek_run, run_bind_ok hread₁]
    simp only [hsuper, mySuper]
    rw [run_bind_ok lseek_run, hroot, run_bind_ok hread₂]
    exact hrows
  · have h := hrow j (by omega)
    simp only [Nat.zero_add] at h
    exact h

theorem showRootDir_run (S : Sound g) (H : Held g files t) :
    ∃ rows t', showRootDir.run t = .ok rows t' ∧ rows.length = (entries files).length ∧
      ∀ j (hj : j < (entries files).length), rows[j]? = some (rowOf (entries files) j hj) := by
  obtain ⟨rows, t', hrun, -, hrows⟩ := showRootDir_kept S H
  exact ⟨rows, t', hrun, hrows⟩

theorem Held.blockNumber_lt (H : Held g files t) (h : k < files.length)
    (hdata : 0 < (files[k]).size) :
    blockNumber g files k h < g.blockCount := by
  have hless := stored_take_lt h hdata
  have hblocks := H.blocks
  rw [blockNumber_eq h hdata]
  rw [freshBlock] at hblocks
  omega

theorem Held.keeps (H : Held g files t) (h : k < files.length) : Keeps g t files[k] (k + 1) := by
  obtain ⟨hpoints, hsize⟩ := H.image.slot k h
  refine ⟨hsize, fun hdata ↦ ?_⟩
  have hnumber := hpoints.blocks 0
  rw [if_pos rfl] at hnumber
  rw [hnumber]
  exact H.image.data k h hdata (H.blockNumber_lt h hdata)

theorem Held.listingSize_le (H : Held g files t) : listingSize files ≤ 4096 :=
  extent_entries.symm.trans_le H.image.extent

/-- A call that returns has found its room in the root directory block. -/
theorem Held.create_of_step (S : Sound g) (L : Laid g) (H : Held g files t)
    (hstep : CreateStep g t f t') :
    Held g (files ++ [f]) t' ∧ Untouched g files t t' := by
  have A := hstep.admissible
  have hslots := L.slots
  have hpos := L.positive
  have hroom : extent (entries files) + 9 + f.name.length ≤ 4096 := by
    by_contra hover
    obtain ⟨u, hrun⟩ := createFile_overflow S H.image (by omega) A.small (not_le.mp hover)
    cases hstep.run.symm.trans hrun
  obtain ⟨u, hrun, Hu, U⟩ := H.create S L A hroom
  rw [hstep.run] at hrun
  cases hrun
  exact ⟨Hu, U⟩

theorem held_of_run {ls : List NewFile} (S : Sound g) (L : Laid g) (H : Held g files t)
    (hr : Run (CreateStep g) t ls t') : Held g (files ++ ls) t' ∧ Untouched g files t t' := by
  refine (hr.history (P := fun ks s ↦
    Held g ks s ∧ ∃ ms, ks = files ++ ms ∧ Untouched g files t s) ?_ ?_).imp_right ?_
  · rintro ks s f u ⟨Hs, ms, rfl, U⟩ hstep
    obtain ⟨Hu, U'⟩ := Hs.create_of_step S L hstep
    exact ⟨Hu, ms ++ [f], List.append_assoc .., U.trans U'.of_append⟩
  · exact ⟨H, [], (List.append_nil _).symm, .refl⟩
  · rintro ⟨_, _, U⟩
    exact U

theorem Tool.sound (h : 5 ≤ t.sizes.blockCount) (hcount : t.sizes.blockCount ≤ 2 ^ 20) :
    Sound t.sizes := by
  apply Sound.of_le h (hcount.trans_lt (by decide : 2 ^ 20 < 2 ^ 31))
  have hcount' : t.size / blockSize % 2 ^ 32 ≤ 2 ^ 20 := hcount
  simp only [Sizes.metadata, computeSizes]
  simp only [blockSize] at hcount' ⊢
  split_ifs <;> omega

/-- What `create_file` writes is what `show_root_dir` shows and what the inodes lead
to, after every run of calls; no call changes what an earlier one wrote, and each
call that is admissible and finds room returns. -/
theorem readback_of_run (h : 5 ≤ t.sizes.blockCount)
    (hcount : t.sizes.blockCount ≤ 2 ^ 20) (now : ℕ) :
    ∃ t₁, (initializePartition t.sizes now).run t = .ok () t₁ ∧
      ∀ files t₂, Run (CreateStep t.sizes) t₁ files t₂ → listingSize files ≤ 4096 →
        (∃ rows t', showRootDir.run t₂ = .ok rows t' ∧ Shows files rows ∧
          ∀ k (hk : k < files.length), ∃ row, rows[k + 2]? = some row ∧
            Keeps t.sizes t₂ files[k] row.inode) ∧
        (∀ more t₃, Run (CreateStep t.sizes) t₂ more t₃ → listingSize (files ++ more) ≤ 4096 →
          Untouched t.sizes files t₂ t₃) ∧
        ∀ f, Admissible t.sizes t₂ f → listingSize (files ++ [f]) ≤ 4096 →
          ∃ t₃, (createFile t.sizes f).run t₂ = .ok () t₃ := by
  have S := t.sound h hcount
  have L := t.laid h hcount
  obtain ⟨t₁, hrun₁, I⟩ := initializePartition_run S t.size_le now
  refine ⟨t₁, hrun₁, fun files t₂ hr _ ↦ ?_⟩
  obtain ⟨H, -⟩ := held_of_run S L (.nil S I) hr
  rw [List.nil_append] at H
  refine ⟨?_, fun more t₃ hr' _ ↦ ?_, fun f A hfit' ↦ ?_⟩
  · obtain ⟨rows, t', hrows, hlen, hrow⟩ := showRootDir_run S H
    refine ⟨rows, t', hrows, shows_of_rows hlen hrow, fun k hk ↦ ?_⟩
    have hentry : k + 2 < (entries files).length := by
      rw [entries_length]
      omega
    have hinode : (rowOf (entries files) (k + 2) hentry).inode = k + 1 := by
      simp only [rowOf, getElem_entries hk hentry]
    refine ⟨_, hrow _ hentry, ?_⟩
    rw [hinode]
    exact H.keeps hk
  · exact (held_of_run S L H hr').2
  · obtain ⟨t₃, hrun, -⟩ := H.create S L A (extent_add_le.mpr hfit')
    exact ⟨t₃, hrun⟩

/-- A call on the smallest partition that has a block for the data of a file. -/
theorem admissible_sixBlocks
    (hrun : (initializePartition (zeroBlocks 6).sizes 0).run (zeroBlocks 6) =
    .ok () t) : Admissible (zeroBlocks 6).sizes t ⟨[0x61], 1, 0⟩ := by
  have I := image_of_return ((zeroBlocks 6).sound (by decide) (by decide)) Tool.size_le hrun
  refine ⟨by decide, by decide, ⟨1, by decide, I.inodeMap 1 (by decide)⟩, fun _ ↦ ?_⟩
  exact ⟨5, by decide, I.blockMap 5 (by decide)⟩

theorem readback_of_run_sixBlocks : ∃ t₁ t₂ rows t',
    (initializePartition (zeroBlocks 6).sizes 0).run (zeroBlocks 6) = .ok () t₁ ∧
      (createFile (zeroBlocks 6).sizes ⟨[0x61], 1, 0⟩).run t₁ = .ok () t₂ ∧
      showRootDir.run t₂ = .ok rows t' ∧ Shows [⟨[0x61], 1, 0⟩] rows := by
  obtain ⟨t₁, hrun₁, hall⟩ := readback_of_run (t := zeroBlocks 6) (by decide) (by decide) 0
  have A := admissible_sixBlocks hrun₁
  obtain ⟨-, -, hnext⟩ := hall [] t₁ (.nil t₁) (by decide)
  obtain ⟨t₂, hrun₂⟩ := hnext _ A (by decide)
  obtain ⟨⟨rows, t', hrows, hshows, -⟩, -⟩ := hall _ t₂ (.cons ⟨A, hrun₂⟩ (.nil t₂)) (by decide)
  exact ⟨t₁, t₂, rows, t', hrun₁, hrun₂, hrows, hshows⟩

end GenericFs.Disktool
