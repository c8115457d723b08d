import GenericFs.Fat.Creation
import GenericFs.Fat.Filling
import GenericFs.Fat.Overlong
import GenericFs.Fat.Receiving

namespace GenericFs.Fat

open GenericFs.Library Chain Function Returning FileSystem

def writeAll (handle : ℤ) : List (List UInt8 × ℤ) → Member Unit
  | [] => pure ()
  | (buffer, count) :: writes => do
    let _ ← FileSystem.write handle buffer count
    writeAll handle writes

def createAndRemove (name : CString) (writes : List (List UInt8 × ℤ)) : Member Unit := do
  let handle ← FileSystem.open name .WRITE
  writeAll handle writes
  FileSystem.close handle
  FileSystem.remove name

/-- Both functions free the chain of the file that the name finds, and `truncate`
then takes its first block again. -/
structure Frees (name : CString) : Prop where
  removed : ∀ (fs : FileSystem) (chain : Fin dirSize → List ℕ) (i : Fin dirSize),
    Consistent fs chain → fs.rootDirectory.Finds name i → (fs.rootDirectory i).inUse = 1 →
    ∃ fs', (FileSystem.remove name).run fs = .ok () fs' ∧
      ∀ b : Fin fatSize, fs'.fat b = if b.val ∈ chain i then freeFatEntry else fs.fat b
  truncated : ∀ (fs : FileSystem) (chain : Fin dirSize → List ℕ) (i : Fin dirSize),
    Consistent fs chain → fs.rootDirectory.Finds name i → (fs.rootDirectory i).inUse = 1 →
    ∃ fs', (FileSystem.truncate name).run fs = .ok () fs' ∧
      ∀ b : Fin fatSize, fs'.fat b =
        if b.val = (fs.rootDirectory i).startingBlock then eofFatEntry
        else if b.val ∈ chain i then freeFatEntry else fs.fat b

/-- To remove a file undoes its creation and all writes to it, as far as the FAT
is concerned. -/
def Undoes (name : CString) : Prop :=
  ∀ (fs : FileSystem) (chain : Fin dirSize → List ℕ) (writes : List (List UInt8 × ℤ)),
    Consistent fs chain → Creatable fs → fs.rootDirectory.Lacks name →
    (∀ w ∈ writes, w.2 ≤ w.1.length) →
    ∃ fs', (createAndRemove name writes).run fs = .ok () fs' ∧ fs'.fat = fs.fat

variable {fs fs₀ : FileSystem} {chain : Fin dirSize → List ℕ} {name : CString} {i : Fin dirSize}
  {h : Fin handleTableSize} {buffer : List UInt8} {count : ℤ} {d d' : Directory}

theorem frees (name : CString) : Frees name where
  removed _ _ _ C hf hu := ⟨_, remove_finds C hf hu, fun _ ↦ rfl⟩
  truncated _ _ _ C hf hu := ⟨_, truncate_finds C hf hu, fun _ ↦ rfl⟩

/-- A new file while it is written to: it is built of blocks that were free, and
the rest of the FAT is as it was. -/
structure Grown (fs₀ : FileSystem) (name : CString) (h : Fin handleTableSize) (i : Fin dirSize)
    (fs : FileSystem) (chain : Fin dirSize → List ℕ) : Prop where
  consistent : Consistent fs chain
  inUse : (fs.handleTable h).inUse = true
  mode : (fs.handleTable h).mode = .WRITE
  index : (fs.handleTable h).directoryIndex = i
  atEnd : (fs.handleTable h).offset = (fs.rootDirectory i).size
  found : fs.rootDirectory.lookup name = some i
  taken : ∀ b : Fin fatSize, b.val ∈ chain i → fs₀.fat b = freeFatEntry
  kept : ∀ b : Fin fatSize, b.val ∉ chain i → fs.fat b = fs₀.fat b

theorem grown_of_creatable (C : Consistent fs chain) (A : Creatable fs)
    (hl : fs.rootDirectory.Lacks name)
    (hn : name.Fits) : ∃ (h : Fin handleTableSize) (i : Fin dirSize) (fs' : FileSystem)
      (chain' : Fin dirSize → List ℕ),
      (FileSystem.open name .WRITE).run fs = .ok (h : ℤ) fs' ∧ Grown fs name h i fs' chain' := by
  rcases open_lacks hl with ⟨hno, -⟩ | ⟨h, i, j, hh, hi, hj, hrun⟩
  · exact absurd A hno
  · have hempty := Directory.empty_of_find hi
    have hj0 := (FatTable.firstFree_eq_some hj).1
    have E := created_emptied (h := h) C hn hh (hl.lookup hn) hempty hj0
    rw [run_bind_ok (createFile_run hn hi hj), EStateM.run_pure] at hrun
    refine ⟨h, i, _, _, hrun, E.consistent, by rw [E.handle], by rw [E.handle],
      by rw [E.handle], ?_, E.found, fun b hb ↦ ?_, fun b hb ↦ ?_⟩
    · rw [E.handle, E.size]
    · rw [update_self, List.mem_singleton] at hb
      rw [Fin.ext hb, hj0]
    · rw [update_self, List.mem_singleton] at hb
      simp only [withHandle_fields, created, FatTable.set, if_neg hb]

/-- A write with a negative count puts the last block back as it is. -/
theorem write_negative (C : Consistent fs chain) (hu : (fs.handleTable h).inUse = true)
    (hm : (fs.handleTable h).mode = .WRITE) (hcount : count < 0) :
    (FileSystem.write h buffer count).run fs =
    .ok count (fs.wrote [(fs.handleTable h).currentBlock]) := by
  have H := C.handles h hu
  have A := Appendable.of_consistent C hu
  have hspace : ¬(freeCount fs.fat : ℤ) * 1024 +
      (1024 - (fs.rootDirectory (fs.handleTable h).directoryIndex).size.tmod 1024) - 1 < count := by
    have h0 := H.nonneg.trans H.le_size
    have ht := Int.tmod_eq_emod_of_nonneg (b := 1024) h0
    omega
  have hlt := A.lt.trans_le A.device
  have hself : fs.withBlock (fs.handleTable h).currentBlock
      (fs.theDisk.block (fs.handleTable h).currentBlock) = fs := settle_self
  rw [FileSystem.write, dif_pos ⟨by simp, by exact_mod_cast h.isLt⟩]
  simp only [EStateM.run_bind, EStateM.run_get, handle_eq, hu, hm, ne_eq, not_true_eq_false,
    Bool.true_eq_false, or_self, ↓reduceIte, freeSpace_run C.formatted, blockSize, Nat.cast_ofNat,
    if_neg hspace, hcount.ne, Int.toNat_of_nonpos hcount.le, diskRead_run hlt, writeLoop,
    EStateM.run_pure, diskWrite_run hlt, hself]

theorem Grown.wrote (G : Grown fs₀ name h i fs chain) {ws : List ℕ} :
    Grown fs₀ name h i (fs.wrote ws) chain :=
  ⟨G.consistent.wrote, G.inUse, G.mode, G.index, G.atEnd, G.found, G.taken, G.kept⟩

theorem Grown.write (G : Grown fs₀ name h i fs chain) (hcount : count ≤ buffer.length) :
    ∃ r fs' chain', (FileSystem.write h buffer count).run fs = .ok r fs' ∧
      Grown fs₀ name h i fs' chain' := by
  obtain hneg | hpos := lt_or_ge count 0
  · exact ⟨_, _, chain, write_negative G.consistent G.inUse G.mode hneg, G.wrote⟩
  · have hlen : count.toNat ≤ buffer.length := by omega
    have heof : (fs.handleTable h).offset =
        (fs.rootDirectory (fs.handleTable h).directoryIndex).size := by rw [G.index, G.atEnd]
    obtain ⟨r, hr⟩ :
        ∃ r, r = min count.toNat (room fs (fs.handleTable h).directoryIndex) := ⟨_, rfl⟩
    have hfree : ((fs.handleTable h).offset.toNat + r) / 1024 ≤
        (fs.handleTable h).offset.toNat / 1024 + freeCount fs.fat := by
      have h0 := (G.consistent.handles h G.inUse).nonneg
      rw [room] at hr
      omega
    obtain ⟨ws, hrun, -⟩ := write_bytes_run G.consistent G.inUse G.mode hpos hlen hr hfree
    obtain ⟨chain', A, T⟩ := appendBytes_takes (buffer.take r) G.consistent G.inUse heof
      (by rw [List.length_take]; omega)
    obtain ⟨fs', hfs'⟩ : ∃ fs', fs' = appendBytes h fs (buffer.take r) := ⟨_, rfl⟩
    rw [← hfs'] at hrun A T
    have hd := A.directory
    have hblocks := T.blocks
    have hothers := T.others
    rw [G.index] at hd hblocks hothers
    refine ⟨r, fs'.wrote ws, chain', hrun, Grown.wrote ⟨A.consistent, ?_, ?_, ?_, ?_, ?_,
      fun b hb ↦ ?_, fun b hb ↦ ?_⟩⟩
    · rw [A.handle]
      exact G.inUse
    · rw [A.handle]
      exact G.mode
    · rw [A.handle]
      exact G.index
    · rw [A.handle, hd, update_self, G.atEnd]
    · rw [hd]
      exact Directory.lookup_resize.trans G.found
    · -- a block of the longer chain is an old one or was still free
      rw [hblocks, List.mem_append] at hb
      rcases hb with hb | hb
      · exact G.taken b hb
      · obtain ⟨c, hc, hcb⟩ := List.mem_map.mp hb
        obtain rfl : c = b := Fin.ext hcb
        have hfree :
            fs.fat c = freeFatEntry := FatTable.mem_freeEntries.mp (List.mem_of_mem_take hc)
        by_cases hold : c.val ∈ chain i
        · exact G.taken c hold
        · rw [← G.kept c hold, hfree]
    · rw [hblocks, List.mem_append, not_or] at hb
      have hnew : b ∉ fs.fat.freeEntries.take _ := fun hc ↦ hb.2 (List.mem_map_of_mem hc)
      have hlast : (chain i).getLast? ≠ some b.val := fun hc ↦ hb.1 (List.mem_of_getLast? hc)
      rw [hothers b hnew hlast, G.kept b hb.1]

theorem Grown.writeAll {writes : List (List UInt8 × ℤ)} (G : Grown fs₀ name h i fs chain)
    (hw : ∀ w ∈ writes, w.2 ≤ w.1.length) : ∃ fs' chain',
      (writeAll h writes).run fs = .ok () fs' ∧ Grown fs₀ name h i fs' chain' := by
  induction writes generalizing fs chain with
  | nil => exact ⟨fs, chain, rfl, G⟩
  | cons w writes ih =>
    obtain ⟨buffer, count⟩ := w
    obtain ⟨r, fs₁, chain₁, hrun, G₁⟩ := G.write (hw (buffer, count) List.mem_cons_self)
    obtain ⟨fs', chain', hrest, G'⟩ := ih G₁ fun w hmem ↦ hw w (List.mem_cons_of_mem _ hmem)
    exact ⟨fs', chain', by rw [Fat.writeAll, run_bind_ok hrun, hrest], G'⟩

theorem Grown.removed (G : Grown fs₀ name h i fs chain) (hn : name.Fits) :
    ∃ fs', (do FileSystem.close h; FileSystem.remove name : Member Unit).run fs = .ok () fs' ∧
      fs'.fat = fs₀.fat := by
  have C : Consistent (shut fs h) chain := G.consistent.shut
  refine ⟨_, (run_bind_ok (close_run G.consistent.formatted G.inUse)).trans
    (remove_run C hn (show (shut fs h).rootDirectory.lookup name = some i from G.found)), ?_⟩
  funext b
  show (if b.val ∈ chain i then freeFatEntry else fs.fat b) = fs₀.fat b
  by_cases hb : b.val ∈ chain i
  · rw [if_pos hb, G.taken b hb]
  · rw [if_neg hb, G.kept b hb]

theorem undoes_of_fits (hn : name.Fits) : Undoes name := by
  intro fs chain writes C A hl hw
  obtain ⟨h, i, fs₁, chain₁, hopen, G⟩ := grown_of_creatable C A hl hn
  obtain ⟨fs₂, chain₂, hwrites, G'⟩ := G.writeAll hw
  obtain ⟨fs₃, hremove, hfat⟩ := G'.removed hn
  refine ⟨fs₃, ?_, hfat⟩
  rw [createAndRemove, run_bind_ok hopen, run_bind_ok hwrites, hremove]

section Long

theorem Directory.peek_record {k : ℕ} (hk : k < 32) :
    d.peek (32 * i + k) = some ((d i).peek k) := by
  have hi := i.isLt
  have hdiv : (32 * i.val + k) / 32 = i := by omega
  have hmod : (32 * i.val + k) % 32 = k := by omega
  simp only [dirSize] at hi
  simp only [Directory.peek, show 32 * i.val + k < 1024 by omega, ↓reduceDIte, hdiv, hmod, Fin.eta]

theorem Directory.peek_inUse : d.peek (32 * i + 30) = some (d i).inUse :=
  Directory.peek_record (by decide)

/-- The lowest byte of a number is another one for the next number. -/
theorem DirectoryEntry.peek_longer {e : DirectoryEntry} :
    DirectoryEntry.peek { e with size := e.size + 1 } 24 ≠ e.peek 24 := by
  intro h
  have hbyte : Store.wordBytes ((e.size + 1) % 2 ^ 32).toNat 0 =
      Store.wordBytes (e.size % 2 ^ 32).toNat 0 := h
  have hnat := congrArg UInt8.toNat hbyte
  simp only [Store.wordBytes, pow_zero, Nat.div_one, UInt8.toNat_ofNat'] at hnat
  omega

theorem Directory.peek_longer {m : ℕ} (hm : m < 32 * i + 24 ∨ 32 * i + 28 ≤ m) :
    Directory.peek (update d i { d i with size := (d i).size + 1 }) m = d.peek m := by
  by_cases hlt : m < 1024
  · simp only [Directory.peek, dif_pos hlt]
    by_cases hk : (⟨m / 32, Nat.div_lt_of_lt_mul hlt⟩ : Fin dirSize) = i
    · have hdiv : m / 32 = i := congrArg Fin.val hk
      rw [hk, update_self]
      by_cases h24 : m % 32 < 24
      · simp only [DirectoryEntry.peek, dif_pos h24]
      · have h28 : ¬m % 32 < 28 := by omega
        simp only [DirectoryEntry.peek, dif_neg h24, if_neg h28]
    · rw [update_of_ne hk]
  · simp only [Directory.peek, dif_neg hlt]

/-- A name that does not fit reaches at least the size of the new file. Once the
size changes the name is not found any more, in this record or in a later one. -/
theorem lacks_longer (hempty : ∀ k, k ≠ i → (d k).inUse = 0) (hn : ¬name.Fits)
    (hcpy : d.strcpy (32 * i) name.bytes = some d') :
    Directory.Lacks (update d' i { d' i with size := (d' i).size + 1 }) name := by
  obtain ⟨hlt, hinside, houtside⟩ := Directory.peek_strcpy hcpy
  have hlen : 24 ≤ name.bytes.length := not_le.mp hn
  have hi := i.isLt
  intro k hk
  rcases eq_or_ne k i with rfl | hki
  · refine Directory.strcmp_of_ne hlen ?_ (by omega)
    rw [← hinside 24 hlen, Directory.peek_record (by decide), Directory.peek_record (by decide),
      update_self]
    exact fun he ↦ DirectoryEntry.peek_longer (Option.some.inj he)
  · have hne : k.val ≠ i.val := fun he ↦ hki (Fin.ext he)
    by_cases hspilled : i.val < k.val ∧ 32 * k.val ≤ 32 * i.val + name.bytes.length
    · -- the name ends in memory before it ends here
      obtain ⟨m, hm⟩ : ∃ m, 32 * k.val + m = 32 * i.val + name.bytes.length :=
        ⟨_, Nat.add_sub_of_le hspilled.2⟩
      have hmlt : m < name.bytes.length := by omega
      refine Directory.strcmp_of_ne hmlt.le ?_ (by omega)
      rw [hm, Directory.peek_longer (.inr (by omega)), hinside _ le_rfl,
        List.getD_append_right _ _ _ _ le_rfl, Nat.sub_self, List.getD_append _ _ _ _ hmlt,
        List.getD_eq_getElem _ _ hmlt]
      intro he
      have hzero : (0 : UInt8) = name.bytes[m] := Option.some.inj he
      exact name.noNul (hzero ▸ List.getElem_mem hmlt)
    · refine absurd ?_ hk
      have hsame : d'.peek (32 * k + 30) = d.peek (32 * k + 30) := houtside _ (by omega)
      rw [Directory.peek_inUse, Directory.peek_inUse] at hsame
      rw [update_of_ne hki, Option.some.inj hsame, hempty k hki]

/-- One byte is written at the start of a file whatever size its record has, as
long as there is a free block. -/
theorem write_one_run {b : UInt8} (hf : fs.formattedFlag = true)
    (hu : (fs.handleTable h).inUse = true)
    (hm : (fs.handleTable h).mode = .WRITE) (ho : (fs.handleTable h).offset = 0)
    (hblock : (fs.handleTable h).currentBlock < fs.theDisk.blockCount)
    (hfree : 0 < freeCount fs.fat) : ∃ blockBuffer,
      (FileSystem.write h [b] 1).run fs =
        .ok 1 (((fs.advance h).settle h blockBuffer).wrote [(fs.handleTable h).currentBlock]) := by
  have hspace : ¬(freeCount fs.fat : ℤ) * 1024 +
      (1024 - (fs.rootDirectory (fs.handleTable h).directoryIndex).size.tmod 1024) - 1 < 1 := by
    have hmod := Int.tmod_lt_of_pos (fs.rootDirectory (fs.handleTable h).directoryIndex).size
      (show (0 : ℤ) < 1024 by decide)
    omega
  have hcur : ((fs.advance h).handleTable h).currentBlock = (fs.handleTable h).currentBlock := by
    simp [advance]
  have hblock' : (fs.handleTable h).currentBlock < (fs.advance h).theDisk.blockCount := hblock
  refine ⟨update (fs.theDisk.block (fs.handleTable h).currentBlock) ⟨0, by decide⟩ b, ?_⟩
  have hloop :
      (writeLoop h 1 [b] (fs.theDisk.block (fs.handleTable h).currentBlock) 0 1024).run fs =
      .ok (update (fs.theDisk.block (fs.handleTable h).currentBlock) ⟨0, by decide⟩ b)
        (fs.advance h) :=
    (writeLoop_succ (k := 0) (by decide)).trans rfl
  rw [FileSystem.write, dif_pos ⟨by simp, by exact_mod_cast h.isLt⟩]
  simp only [EStateM.run_bind, EStateM.run_get, handle_eq, hu, hm, ne_eq, not_true_eq_false,
    Bool.true_eq_false, or_self, ↓reduceIte, freeSpace_run hf, blockSize, Nat.cast_ofNat,
    if_neg hspace, one_ne_zero, Int.toNat_one, diskRead_run hblock, ho, Int.zero_tmod, sub_zero,
    hloop, diskWrite_run hblock', EStateM.run_pure, settle, hcur]

theorem freeCount_opened {j : Fin fatSize} :
    0 < freeCount (blankFormatted.fat.set j eofFatEntry) := by
  obtain ⟨k, hne, hfree⟩ : ∃ k : Fin fatSize, k.val ≠ j ∧ blankFormatted.fat k = freeFatEntry := by
    rw [blankFormatted_eq]
    by_cases hj : j.val = 3
    · exact ⟨4, by rw [hj]; decide, by decide⟩
    · exact ⟨3, fun h ↦ hj h.symm, by decide⟩
  refine Finset.card_pos.mpr ⟨k, Finset.mem_filter.mpr ⟨Finset.mem_univ k, ?_⟩⟩
  rw [FatTable.set, if_neg hne, hfree]

/-- After one byte is written to the record of a name that is not found then, the
file is closed but not removed. -/
theorem remove_lost (name : CString) {j : Fin fatSize} (hf : fs.formattedFlag = true)
    (hdev : 512 ≤ fs.theDisk.blockCount) (hfree : 0 < freeCount fs.fat)
    (he : fs.handleTable h =
      { offset := 0, directoryIndex := i, currentBlock := j, inUse := true, mode := .WRITE })
    (hl : Directory.Lacks (update fs.rootDirectory i
      { fs.rootDirectory i with size := (fs.rootDirectory i).size + 1 }) name) :
    ∃ fs', (do writeAll h [([0], 1)]; FileSystem.close h; FileSystem.remove name : Member Unit).run
      fs = .ok () fs' ∧ fs'.fat = fs.fat := by
  obtain ⟨blockBuffer, hwrite⟩ := write_one_run (h := h) (b := 0) hf (by rw [he])
    (by rw [he]) (by rw [he]) (by rw [he]; exact j.isLt.trans_le hdev) hfree
  obtain ⟨fs₁, hfs₁⟩ : ∃ fs₁, fs₁ = ((fs.advance h).settle h blockBuffer).wrote
    [(fs.handleTable h).currentBlock] := ⟨_, rfl⟩
  rw [← hfs₁] at hwrite
  have hwrites : (writeAll h [([0], 1)]).run fs = .ok () fs₁ := by
    rw [writeAll, run_bind_ok hwrite]
    rfl
  have hclose : (FileSystem.close h).run fs₁ = .ok () (shut fs₁ h) := by
    refine close_run ?_ ?_
    · rw [hfs₁]
      exact hf
    · rw [hfs₁]
      simp [advance, settle, he]
  have hlacks : (shut fs₁ h).rootDirectory.Lacks name := by
    have hroot : (shut fs₁ h).rootDirectory = update fs.rootDirectory i
        { fs.rootDirectory i with size := (fs.rootDirectory i).size + 1 } := by
      rw [hfs₁]
      simp [shut, advance, settle, he]
    rwa [hroot]
  have hremove : (FileSystem.remove name).run (shut fs₁ h) = .ok () (shut fs₁ h) := by
    rw [FileSystem.remove, run_bind_ok (findEntry_lacks hlacks), EStateM.run_pure]
  refine ⟨shut fs₁ h, by rw [run_bind_ok hwrites, run_bind_ok hclose, hremove], ?_⟩
  rw [hfs₁]
  rfl

theorem not_undoes_of_long (hn : ¬name.Fits) : ¬Undoes name := by
  intro hundoes
  obtain ⟨fs', hrun, hfat⟩ := hundoes blankFormatted _ [([0], 1)] begins_blank.fresh.1.1
    creatable_blank (lacks_blank name) (by simp)
  have hempty : ∀ k, (blankFormatted.rootDirectory k).inUse = 0 := fun k ↦ by
    rw [blankFormatted_eq]
    rfl
  rcases open_lacks (lacks_blank name) with ⟨hno, -⟩ | ⟨h, i, j, -, hi, hj, hopen⟩
  · exact absurd creatable_blank hno
  · rcases createFile_ends name (h := h) hi hj with ⟨s, hend⟩ | ⟨d, hcpy, hend⟩
    · rw [EStateM.run_bind, hend] at hopen
      rw [createAndRemove, EStateM.run_bind, hopen] at hrun
      cases hrun
    · have hlacks := lacks_longer (d := update blankFormatted.rootDirectory i _)
        (fun k hk ↦ by rw [update_of_ne hk, hempty k]) hn hcpy
      obtain ⟨fs₁, hfs₁⟩ : ∃ fs₁, fs₁ = { blankFormatted with
          fat := blankFormatted.fat.set j eofFatEntry, rootDirectory := d }.withHandle h
        { offset := 0, directoryIndex := i, currentBlock := j, inUse := true, mode := .WRITE } :=
        ⟨_, rfl⟩
      have hopened : fs₁.formattedFlag = true := by
        rw [hfs₁]
        exact congrArg FileSystem.formattedFlag blankFormatted_eq
      rw [run_bind_ok hend, EStateM.run_pure, ← hfs₁] at hopen
      obtain ⟨fs₂, hlost, hkept⟩ := remove_lost name (h := h) (i := i) (j := j) hopened
        (by rw [hfs₁]; exact blankFormatted_blockCount.ge)
        (by rw [hfs₁]; exact freeCount_opened) (by simp [hfs₁]) (by rw [hfs₁]; exact hlacks)
      rw [createAndRemove, run_bind_ok hopen, hlost] at hrun
      injection hrun with _ hfs'
      rw [← hfs', hkept, hfs₁] at hfat
      -- the block of the file was free and stays taken
      have hold : blankFormatted.fat j = freeFatEntry := (FatTable.firstFree_eq_some hj).1
      rw [← hfat] at hold
      simp [FatTable.set] at hold

/-- Files are always freed as they should be, and that undoes what was done to a
new file exactly if its name fits its record. -/
theorem undoes_iff (name : CString) : Frees name ∧ (Undoes name ↔ name.Fits) := by
  refine ⟨frees name, fun hundoes ↦ ?_, undoes_of_fits⟩
  by_contra hn
  exact not_undoes_of_long hn hundoes

/-- A name of 24 bytes is not found any more once its file has one byte. -/
theorem not_undoes : ¬∀ name : CString, Frees name ∧ Undoes name := by
  intro hclaim
  exact not_undoes_of_long (by decide) (hclaim fullName).2

end Long

end GenericFs.Fat
