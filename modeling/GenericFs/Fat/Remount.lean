import GenericFs.Fat.Intact

namespace GenericFs.Fat

open GenericFs.Library Chain Machine Function FileSystem

variable {fs fs' : FileSystem} {chain : Fin dirSize → List ℕ} {fat : FatTable} {d : Directory}
  {i : Fin dirSize} {name : CString}

section Codec

theorem Buffer.cells_of_lt {n k : ℕ} {b : Buffer n} (h : k < n) : b.cells k = b ⟨k, h⟩ := dif_pos h

theorem decodeFat_encodeFat (h : ∀ j, fat j < 2 ^ 16) : decodeFat (encodeFat fat) = fat := by
  funext j
  have hj := j.isLt
  simp only [fatSize] at hj
  have hcell : ∀ k < 2, (encodeFat fat).cells (2 * j + k) = Store.wordBytes (fat j) (0 + k) :=
    fun k hk ↦ by
      have hdiv : (2 * j.val + k) / 2 = j := by omega
      have hmod : (2 * j.val + k) % 2 = 0 + k := by omega
      rw [Buffer.cells_of_lt (by simp only [blockSize]; omega)]
      simp only [encodeFat, hdiv, hmod, Fin.eta]
  rw [decodeFat, Store.word_congr hcell, Store.word_wordBytes (h j)]

theorem DirectoryEntry.decode_of_peek {e : DirectoryEntry} {memory : ℕ → UInt8} {off : ℕ}
    (h : ∀ k < 32, memory (off + k) = e.peek k)
    (hs : 0 ≤ e.size ∧ e.size < 2 ^ 31 ∧ e.startingBlock < 2 ^ 16) :
    DirectoryEntry.decode memory off = e := by
  have hname : ∀ k : Fin nameSize, memory (off + k) = e.name k := fun k ↦ by
    have hk := k.isLt
    simp only [nameSize] at hk
    rw [h k (by omega), DirectoryEntry.peek, dif_pos hk]
  have hsize : Store.word 4 memory (off + 24) = (e.size % 2 ^ 32).toNat := by
    rw [show Store.word 4 memory (off + 24) =
      Store.word 4 (Store.wordBytes (e.size % 2 ^ 32).toNat) 0
      from Store.word_congr fun k hk ↦ ?_, Store.word_wordBytes (by omega)]
    rw [Nat.add_assoc, h (24 + k) (by omega), DirectoryEntry.peek, dif_neg (by omega),
      if_pos (by omega), Nat.add_sub_cancel_left, Nat.zero_add]
  have hblock : Store.word 2 memory (off + 28) = e.startingBlock := by
    rw [show Store.word 2 memory (off + 28) = Store.word 2 (Store.wordBytes e.startingBlock) 0
      from Store.word_congr fun k hk ↦ ?_, Store.word_wordBytes hs.2.2]
    rw [Nat.add_assoc, h (28 + k) (by omega), DirectoryEntry.peek, dif_neg (by omega),
      if_neg (by omega), if_pos (by omega), Nat.add_sub_cancel_left, Nat.zero_add]
  have hbmod : Int.bmod ((e.size % 2 ^ 32).toNat : ℤ) (2 ^ 32) = e.size := by
    rw [Int.toNat_of_nonneg (by omega), Int.bmod_def]
    omega
  simp only [DirectoryEntry.decode, hname, hsize, hblock, hbmod, h 30 (by decide), h 31 (by decide)]
  rfl

theorem decodeDirectory_encodeDirectory (h : ∀ i, 0 ≤ (d i).size ∧ (d i).size < 2 ^ 31 ∧
    (d i).startingBlock < 2 ^ 16) : decodeDirectory (encodeDirectory d) = d := by
  funext i
  have hi := i.isLt
  simp only [dirSize] at hi
  refine DirectoryEntry.decode_of_peek (fun k hk ↦ ?_) (h i)
  have hdiv : (32 * i.val + k) / 32 = i := by omega
  have hmod : (32 * i.val + k) % 32 = k := by omega
  rw [Buffer.cells_of_lt (by simp only [blockSize]; omega)]
  simp only [encodeDirectory, hdiv, hmod, Fin.eta]

theorem checksum_succ (f : ℕ → UInt8) (n : ℕ) : checksum f (n + 1) = checksum f n + f n := by
  simp [checksum, List.range_succ]

theorem checksum_congr {f g : ℕ → UInt8} {n : ℕ} (h : ∀ k < n, f k = g k) :
    checksum f n = checksum g n := by
  induction n with
  | zero => rfl
  | succ n ih => rw [checksum_succ, checksum_succ, ih fun k hk ↦ h k (by omega), h n (by omega)]

/-- The boot block that `format` writes is one that the constructor takes for
formatted: its last byte is the negated sum of the others. -/
theorem bootImage_formatted :
    bootImage.cells 0 = formatted ∧ checksum bootImage.cells blockSize = 0 := by
  refine ⟨rfl, (checksum_succ bootImage.cells 1023).trans ?_⟩
  rw [checksum_congr (g := Buffer.cells (n := blockSize) fun k ↦ if k.val = 0 then formatted else 0)
    fun k hk ↦ ?_, Buffer.cells_of_lt (by decide)]
  · simp only [bootImage, show (⟨1023, by decide⟩ : Fin blockSize) =
      ⟨blockSize - 1, by decide⟩ from rfl,
      update_self, show blockSize - 1 = 1023 from rfl]
    exact UInt8.add_right_neg _
  · rw [Buffer.cells_of_lt (by simp only [blockSize]; omega),
      Buffer.cells_of_lt (by simp only [blockSize]; omega), bootImage, update_of_ne]
    simp only [blockSize, ne_eq, Fin.mk.injEq]
    omega

end Codec

theorem Layout.entry_lt (L : Layout fat d chain) (j : Fin fatSize) : fat j < 2 ^ 16 := by
  by_cases hmark : fat j = 0 ∨ fat j = 1
  · omega
  · push Not at hmark
    obtain ⟨i, hi⟩ := L.allotment.covered j _ (FatTable.entry_val j) (by simpa using hmark)
    rcases (L.links (L.inUse_of_mem hi)).entry_eq hi with h | ⟨c, hc, -, h⟩
    · rw [FatTable.entry_val, Option.some.injEq] at h
      rw [h]
      decide
    · rw [FatTable.entry_val, Option.some.injEq] at h
      have := L.lt_of_mem hc
      omega

/-- A fresh handle on the file reads the bytes from the start. -/
def Reads (fs : FileSystem) (name : CString) (bytes : List UInt8) : Prop :=
  ∃ (h : ℤ) (fs₁ : FileSystem), (FileSystem.open name .READ).run fs = .ok h fs₁ ∧ ∀ n : ℤ, 0 ≤ n →
    ∃ fs₂, (FileSystem.read h n).run fs₁ = .ok ((bytes.take n.toNat).length, bytes.take n.toNat) fs₂

theorem reads_content (C : Consistent fs chain) (hn : name.Fits)
    (hl : fs.rootDirectory.lookup name = some i) (hfree : ∃ h, (fs.handleTable h).inUse = false) :
    Reads fs name (content fs chain i) := by
  unfold Reads
  obtain ⟨h, -, hopen⟩ := open_found C hn hl hfree .READ
  obtain ⟨hu, hs⟩ := C.of_lookup hn hl
  have C₁ := C.withHandle (h := h) fun _ ↦ newHandle_ok hu hs .READ
  refine ⟨h, _, hopen, fun n hn ↦ ?_⟩
  have hlen : ((content fs chain i).take n.toNat).length =
      min n.toNat ((fs.rootDirectory i).size.toNat - 0) := by
    rw [List.length_take, length_content, Nat.sub_zero]
  have hread := read_run (h := h) (i := i) (o := 0) C₁ (by simp [newHandle]) (by simp [newHandle])
    (by simp [newHandle]) hn (by simp [newHandle, startOffset]) hlen
  exact ⟨_, hread⟩

def flushed (fs : FileSystem) : FileSystem :=
  (((fs.withBlock fatBlock (encodeFat fs.fat)).wrote [fatBlock]).withBlock rootBlock
    (encodeDirectory fs.rootDirectory)).wrote [rootBlock]

theorem flush_run (C : Consistent fs chain) : flush.run fs = .ok () (flushed fs) := by
  have h1 : fatBlock < fs.theDisk.blockCount := lt_of_lt_of_le (by decide) C.device
  have h2 : rootBlock < fs.theDisk.blockCount := lt_of_lt_of_le (by decide) C.device
  simp only [flush, EStateM.run_bind, EStateM.run_get, C.formatted, ↓reduceIte, diskWrite_run h1]
  rw [diskWrite_run (by simpa using h2)]
  rfl

theorem flushed_block {b : ℕ} (h1 : b ≠ 1) (h2 : b ≠ 2) :
    (flushed fs).theDisk.block b = fs.theDisk.block b := by
  simp [flushed, fatBlock, rootBlock, update_of_ne h1, update_of_ne h2]

def reloaded (fs raw : FileSystem) : FileSystem where
  theDisk := (flushed fs).theDisk
  formattedFlag := true
  fat := fs.fat
  rootDirectory := fs.rootDirectory
  handleTable h := { raw.handleTable h with inUse := false }
  scanIndex := raw.scanIndex

variable (fs) in
theorem construct_flushed (hdev : 512 ≤ fs.theDisk.blockCount)
    (hboot : fs.theDisk.block 0 = bootImage) (hfat : ∀ j, fs.fat j < 2 ^ 16)
    (hd : ∀ i, 0 ≤ (fs.rootDirectory i).size ∧ (fs.rootDirectory i).size < 2 ^ 31 ∧
      (fs.rootDirectory i).startingBlock < 2 ^ 16) (raw : FileSystem) :
    construct (flushed fs).theDisk raw = .ok (reloaded fs raw) := by
  have hboot : (flushed fs).theDisk.block 0 = bootImage := by
    rw [flushed_block (by decide) (by decide), hboot]
  have hfatBlock : (flushed fs).theDisk.block 1 = encodeFat fs.fat := by
    simp [flushed, fatBlock, rootBlock]
  have hroot : (flushed fs).theDisk.block 2 = encodeDirectory fs.rootDirectory := by
    simp [flushed, rootBlock]
  have hdev : 4 ≤ (flushed fs).theDisk.blockCount := by
    have h : 512 ≤ (flushed fs).theDisk.blockCount := hdev
    omega
  rw [construct_eq hdev, hboot, if_pos bootImage_formatted, hfatBlock, hroot,
    decodeFat_encodeFat hfat, decodeDirectory_encodeDirectory hd]
  rfl

theorem Consistent.reloaded (C : Consistent fs chain) (raw : FileSystem) :
    Consistent (reloaded fs raw) chain :=
  ⟨rfl, C.device, C.layout, fun h hu ↦ by simp [Fat.reloaded] at hu⟩

/-- What a new file system on the device of an old one has in common with it. -/
structure Remounted (fs : FileSystem) (chain : Fin dirSize → List ℕ) (fs' : FileSystem) : Prop where
  formatted : fs'.formattedFlag = true
  fat : fs'.fat = fs.fat
  directory : fs'.rootDirectory = fs.rootDirectory
  closed : ∀ h, (fs'.handleTable h).inUse = false
  reads : ∀ name i, name.Fits → fs.rootDirectory.lookup name = some i →
    Reads fs' name (content fs chain i)
  before : ∀ name i, name.Fits → fs.rootDirectory.lookup name = some i →
    (∃ h, (fs.handleTable h).inUse = false) → Reads fs name (content fs chain i)

theorem remounted_reloaded (C : Consistent fs chain) (raw : FileSystem) :
    Remounted fs chain (reloaded fs raw) := by
  refine ⟨rfl, rfl, rfl, fun _ ↦ rfl, fun name i hn hl ↦ ?_, fun name i hn hl ↦
    reads_content C hn hl⟩
  have hcontent : content (reloaded fs raw) chain i = content fs chain i := by
    refine Store.slice_congr fun k _ ↦ byteAt_congr (flushed_block (by decide) (by decide))
      fun c hc ↦ ?_
    have hc3 := C.layout.three_le_of_mem hc
    exact flushed_block (by omega) (by omega)
  rw [← hcontent]
  exact reads_content (C.reloaded raw) hn hl ⟨0, rfl⟩

/-- Wherever a run that starts with `format` stops, the destructor leaves a
device from which the constructor gets the same file system back. No step of the
run but `format` wrote to a metadata block, so the boot block is still valid. -/
theorem remount_of_run {disk : BlockDevice blockSize} {raw fs₀ : FileSystem}
    {ls : List (Call × Outcome)} (B : Begins disk raw fs₀ fs) (hr : Run PoliteStep fs ls fs')
    (raw' : FileSystem) :
    (∃ fs₂ fs₃ chain, flush.run fs' = .ok () fs₂ ∧ construct fs₂.theDisk raw' = .ok fs₃ ∧
      Consistent fs' chain ∧ Remounted fs' chain fs₃ ∧
      (fs₂.theDisk.block bootBlock).cells 0 = Fat.formatted ∧
      checksum (fs₂.theDisk.block bootBlock).cells blockSize = 0) ∧
    Run (fun s l t ↦ PoliteStep s l t ∧ (l.1 ≠ .format → ∃ ws,
      t.theDisk.written = ws ++ s.theDisk.written ∧ ∀ b ∈ ws, 3 ≤ b)) fs ls fs' := by
  obtain ⟨chain, C, S, O⟩ := B.run_regular hr
  refine ⟨⟨flushed fs', _, chain, flush_run C, construct_flushed _ C.device O.boot
    C.layout.entry_lt O.storable raw', C,
    remounted_reloaded C raw', ?_⟩, ?_⟩
  · rw [flushed_block (by decide) (by decide), O.boot]
    exact bootImage_formatted
  · refine hr.strengthen (P := Regular) (fun _ _ _ ↦ Regular.step)
      (fun s l t R hs hl ↦ ?_) B.regular
    obtain ⟨chain, chain', C, E⟩ := R.effect hs.1 hs.2
    exact (E.device hl).1

section Blank

def createdA : FileSystem := (created blankFormatted 0 3 nameA).withHandle 0
  { offset := 0, directoryIndex := 0, currentBlock := 3, inUse := true, mode := .WRITE }

theorem open_createdA :
    (Call.open nameA .WRITE).reply blankFormatted = (.ok (.handle 0), createdA) := by
  have hhandle : (Fin.find? fun h ↦ (blankFormatted.handleTable h).inUse = false) = some 0 := by
    decide +kernel
  have hentry : (Fin.find? fun i ↦ (blankFormatted.rootDirectory i).inUse = 0) = some 0 := by
    decide +kernel
  have hblock : blankFormatted.fat.firstFree = some 3 := by decide +kernel
  have hlookup : blankFormatted.rootDirectory.lookup nameA = none := by decide +kernel
  have hfits : nameA.Fits := by decide
  simp only [Call.reply, Call.exec, FileSystem.open, EStateM.run_bind, EStateM.run_get, hhandle,
    findEntry_run hfits, hlookup, reduceCtorEq, ↓reduceIte, createFile_run hfits hentry hblock,
    EStateM.run_pure]
  rfl

theorem createdA_consistent : Consistent createdA (update (fun _ ↦ []) 0 [3]) := by
  have hi : (blankFormatted.rootDirectory 0).inUse = 0 := by decide +kernel
  have hj : blankFormatted.fat 3 = 0 := by decide +kernel
  exact (begins_blank.fresh.1.1.created hi hj).withHandle fun _ ↦ ⟨rfl, le_rfl, le_rfl, rfl⟩

/-- A run that gives the file more bytes than a block has. -/
theorem createdA_run {bytes : List UInt8} (hlen : bytes.length = 1025) : ∃ ls fs' chain,
    Run PoliteStep blankFormatted ls fs' ∧ Consistent fs' chain ∧
      fs'.rootDirectory.lookup nameA = some 0 ∧ (fs'.rootDirectory 0).inUse = 1 ∧
      content fs' chain 0 = bytes := by
  have C := createdA_consistent
  have hcount : freeCount createdA.fat = 508 := by decide +kernel
  have hsize : (createdA.rootDirectory (createdA.handleTable 0).directoryIndex).size = 0 := rfl
  have hoffset : (createdA.handleTable 0).offset = 0 := rfl
  have hroom : 1025 = min (1025 : ℤ).toNat
      (room createdA (createdA.handleTable 0).directoryIndex) := by
    rw [room, hcount, hsize]
    rfl
  have hfree : ((createdA.handleTable 0).offset.toNat + 1025) / 1024 ≤
      (createdA.handleTable 0).offset.toNat / 1024 + freeCount createdA.fat := by
    rw [hcount, hoffset]
    decide
  have hbytes : (1025 : ℤ).toNat ≤ bytes.length := hlen.ge
  obtain ⟨ws, hrun, -⟩ := write_bytes_run C rfl rfl (by decide) hbytes hroom hfree
  obtain ⟨chain, A⟩ := appendBytes_appended bytes C rfl rfl (by rw [hlen]; exact hfree)
  rw [List.take_of_length_le hlen.le] at hrun
  have hwrite : PoliteStep createdA (.write 0 bytes 1025, .ok (.count 1025))
      ((appendBytes 0 createdA bytes).wrote ws) := by
    have hrun' : (FileSystem.write 0 bytes 1025).run createdA = _ := hrun
    refine ⟨⟨by decide, by rw [hlen]; decide⟩, ?_⟩
    simp only [Step, Call.reply, Call.exec, EStateM.run_bind, hrun', EStateM.run_pure]
    rfl
  have hdirectory := A.directory
  have hindex : (createdA.handleTable 0).directoryIndex = 0 := rfl
  rw [hindex] at hsize hdirectory
  have hcontent : content (appendBytes 0 createdA bytes) chain 0 = bytes := by
    have hnil : content createdA (update (fun _ ↦ []) 0 [3]) 0 = [] := content_eq_nil hsize
    rw [A.content, hindex, update_self, hnil, List.nil_append]
  have hopen : PoliteStep blankFormatted (.open nameA .WRITE, .ok (.handle 0)) createdA :=
    ⟨polite_open_blank .WRITE, open_createdA⟩
  refine ⟨_, _, chain, .cons hopen (.cons hwrite (.nil _)), A.consistent.wrote, ?_, ?_, hcontent⟩
  · rw [wrote_fields.2.2.2.2.2.1, hdirectory, Directory.lookup_resize]
    decide +kernel
  · rw [wrote_fields.2.2.2.2.2.1, hdirectory]
    rfl

theorem remount_of_run_blank : ∃ ls fs' fs₂ fs₃, Run PoliteStep blankFormatted ls fs' ∧
    flush.run fs' = .ok () fs₂ ∧ construct fs₂.theDisk blankObject = .ok fs₃ ∧
      Reads fs₃ nameA (List.replicate 1025 65) := by
  obtain ⟨ls, fs', chain, hr, C, hl, hu, hcontent⟩ := createdA_run (List.length_replicate (a := 65))
  obtain ⟨⟨fs₂, fs₃, chain', hflush, hconstruct, C', hremounted, -⟩, -⟩ :=
    remount_of_run begins_blank hr blankObject
  refine ⟨ls, fs', fs₂, fs₃, hr, hflush, hconstruct, ?_⟩
  rw [← hcontent, content, ← (C'.layout.links hu).unique (C.layout.links hu)]
  exact hremounted.reads nameA 0 (by decide) hl

end Blank

end GenericFs.Fat
