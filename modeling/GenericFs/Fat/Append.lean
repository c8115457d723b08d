import GenericFs.Fat.Transfer

namespace GenericFs.Fat

open GenericFs.Library Chain Function Returning

namespace FileSystem

variable {fs : FileSystem} {h : Fin handleTableSize} {b : UInt8} {bytes : List UInt8} {ws : List ℕ}
  {buffer : Block} {o n : ℕ}

/-- The state of a write in progress, as if the block buffer were on disk. -/
def settle (fs : FileSystem) (h : Fin handleTableSize) (buffer : Block) : FileSystem :=
  fs.withBlock (fs.handleTable h).currentBlock buffer

/-- One byte appended through a handle, straight to the disk. Filling a block
hangs the first free block behind it, which starts as a copy. -/
def appendByte (h : Fin handleTableSize) (fs : FileSystem) (b : UInt8) : FileSystem :=
  let e := fs.handleTable h
  let o := e.offset.toNat
  let d := fs.rootDirectory e.directoryIndex
  let buffer := update (fs.theDisk.block e.currentBlock) ⟨o % 1024, Nat.mod_lt _ (by decide)⟩ b
  let fs' := (fs.withEntry e.directoryIndex { d with size := d.size + 1 }).withBlock
    e.currentBlock buffer
  match if (o + 1) % 1024 = 0 then fs.fat.firstFree else none with
  | none => fs'.withHandle h { e with offset := e.offset + 1 }
  | some j => (((fs'.withBlock j buffer).setFat e.currentBlock j).setFat j eofFatEntry).withHandle h
      { e with offset := e.offset + 1, currentBlock := j }

def appendBytes (h : Fin handleTableSize) (fs : FileSystem) (bytes : List UInt8) : FileSystem :=
  bytes.foldl (appendByte h) fs

theorem wrote_wrote {ws' : List ℕ} : (fs.wrote ws).wrote ws' = fs.wrote (ws' ++ ws) := by
  simp [wrote]

theorem appendByte_wrote : appendByte h (fs.wrote ws) b = (appendByte h fs b).wrote ws := by
  simp only [appendByte, wrote_fields]
  split <;> rfl

theorem appendBytes_wrote :
    appendBytes h (fs.wrote ws) bytes = (appendBytes h fs bytes).wrote ws := by
  induction bytes generalizing fs with
  | nil => rfl
  | cons b bytes ih => exact (congrArg (fun s ↦ appendBytes h s bytes) appendByte_wrote).trans ih

/-- What the loop of `write` needs of the FAT: reserved metadata blocks and a
block of the file in the handle. -/
structure Appendable (fs : FileSystem) (h : Fin handleTableSize) : Prop where
  reserved : ∀ b < 3, fs.fat.entry b = some reservedFatEntry
  three_le : 3 ≤ (fs.handleTable h).currentBlock
  lt : (fs.handleTable h).currentBlock < 512
  busy : fs.fat.entry (fs.handleTable h).currentBlock ≠ some freeFatEntry
  device : 512 ≤ fs.theDisk.blockCount

def advance (fs : FileSystem) (h : Fin handleTableSize) : FileSystem :=
  let e := fs.handleTable h
  let d := fs.rootDirectory e.directoryIndex
  (fs.withHandle h { e with offset := e.offset + 1 }).withEntry e.directoryIndex
    { d with size := d.size + 1 }

def hang (fs : FileSystem) (h : Fin handleTableSize) (buffer : Block) (j : ℕ) : FileSystem :=
  let e := fs.handleTable h
  ((((fs.withBlock e.currentBlock buffer).wrote [e.currentBlock]).setFat e.currentBlock j).setFat j
    eofFatEntry).withHandle h { e with currentBlock := j }

variable (buffer) in
theorem nextBlock_run (hlt : (fs.handleTable h).currentBlock < 512)
    (hdev : 512 ≤ fs.theDisk.blockCount) {j : Fin fatSize} (hj : fs.fat.firstFree = some j) :
    (nextBlock h buffer).run fs = .ok () (fs.hang h buffer j) := by
  simp only [nextBlock, EStateM.run_bind, EStateM.run_get, diskWrite_run (hlt.trans_le hdev),
    wrote_fields, withBlock_fields, hj, fatSet_run hlt, fatSet_run j.isLt, setHandle_run, hang]

theorem settle_advance (hb : ((fs.handleTable h).offset.toNat + 1) % 1024 ≠ 0) {k : Fin blockSize}
    (hk : k.val = (fs.handleTable h).offset.toNat % 1024) :
    (fs.advance h).settle h (update buffer k b) = appendByte h (fs.settle h buffer) b := by
  obtain rfl : k = ⟨_, Nat.mod_lt _ (by decide)⟩ := Fin.ext hk
  simp [appendByte, settle, advance, hb, withBlock, withHandle, withEntry]

variable (buffer) in
theorem settle_hang (hb : ((fs.handleTable h).offset.toNat + 1) % 1024 = 0) {k : Fin blockSize}
    (hk : k.val = (fs.handleTable h).offset.toNat % 1024) {j : Fin fatSize}
    (hj : fs.fat.firstFree = some j) :
    ((fs.advance h).hang h (update buffer k b) j).settle h (update buffer k b) =
      (appendByte h (fs.settle h buffer) b).wrote [(fs.handleTable h).currentBlock] := by
  obtain rfl : k = ⟨_, Nat.mod_lt _ (by decide)⟩ := Fin.ext hk
  simp [appendByte, settle, advance, hang, hb, hj, withBlock, withHandle, withEntry, setFat, wrote]

theorem Appendable.advance (A : Appendable fs h) : Appendable (fs.advance h) h where
  reserved := A.reserved
  three_le := by simpa [FileSystem.advance] using A.three_le
  lt := by simpa [FileSystem.advance] using A.lt
  busy := by simpa [FileSystem.advance] using A.busy
  device := A.device

variable (buffer) in
theorem Appendable.hang (A : Appendable fs h) {j : Fin fatSize} (hj : fs.fat j = 0) :
    Appendable (fs.hang h buffer j) h ∧
      freeCount fs.fat = freeCount (fs.hang h buffer j).fat + 1 := by
  have hj3 : 3 ≤ j.val := by
    by_contra hlt
    have h := A.reserved j (by omega)
    rw [FatTable.entry_val, hj] at h
    simp at h
  have hc := A.three_le
  have hfat : (fs.hang h buffer j).fat = (fs.fat.set (fs.handleTable h).currentBlock j).set j
      eofFatEntry := by simp [FileSystem.hang]
  refine ⟨⟨fun b hb ↦ ?_, ?_, ?_, ?_, A.device⟩, ?_⟩
  · rw [hfat, FatTable.entry_set j.isLt, FatTable.entry_set A.lt, update_of_ne (by omega),
      update_of_ne (by omega), A.reserved b hb]
  · simpa [FileSystem.hang] using hj3
  · simp [FileSystem.hang]
  · rw [hfat]
    simp [FileSystem.hang, FatTable.entry_set j.isLt]
  · rw [hfat]
    exact FatTable.freeCount_hang hj (by omega) A.busy

theorem writeLoop_succ {k : ℕ} (hk : k < 1024) {bc : ℤ} :
    (writeLoop h (n + 1) (b :: bytes) buffer k bc).run fs =
      (if bc - 1 = 0 then do
        nextBlock h (update buffer ⟨k, hk⟩ b)
        writeLoop h n bytes (update buffer ⟨k, hk⟩ b) 0 blockSize
      else writeLoop h n bytes (update buffer ⟨k, hk⟩ b) (k + 1) (bc - 1)).run (fs.advance h) := by
  rw [writeLoop]
  simp only [EStateM.run_bind, bufferSet_run hk, EStateM.run_get, setHandle_run, setEntry_run,
    withHandle_fields]
  rfl

variable (buffer) in
/-- One turn of the loop of `write` appends one byte; on the disk this is seen
once the block buffer is there too. -/
theorem writeLoop_run (A : Appendable fs h) (ho : (fs.handleTable h).offset = o)
    (hn : n ≤ bytes.length) (hfree : (o % 1024 + n) / 1024 ≤ freeCount fs.fat) {bo bc : ℤ}
    (hbo : bo = (o % 1024 : ℕ)) (hbc : bc = 1024 - bo) :
    ∃ fs' buffer' ws, (writeLoop h n bytes buffer bo bc).run fs = .ok buffer' fs' ∧
      fs'.settle h buffer' = (appendBytes h (fs.settle h buffer) (bytes.take n)).wrote ws ∧
      (∀ b ∈ ws, 3 ≤ b) ∧ Appendable fs' h := by
  induction n generalizing fs bytes buffer o bo bc with
  | zero => exact ⟨fs, buffer, [], by rw [writeLoop]; rfl, by simp [appendBytes, wrote], by simp, A⟩
  | succ n ih =>
    obtain ⟨b, bytes, rfl⟩ : ∃ b bs, bytes = b :: bs := by
      cases bytes with
      | nil => simp at hn
      | cons b bs => exact ⟨b, bs, rfl⟩
    have hn' : n ≤ bytes.length := by simpa using hn
    have hot : (fs.handleTable h).offset.toNat = o := by rw [ho]; rfl
    have hk : o % 1024 < 1024 := Nat.mod_lt _ (by decide)
    have ho' : ((fs.advance h).handleTable h).offset = (o + 1 : ℕ) := by simp [advance, ho]
    subst hbo
    rw [writeLoop_succ hk]
    by_cases hb : (o + 1) % 1024 = 0
    · -- the block is full: it goes to disk and the first free block follows it
      obtain ⟨j, hj⟩ := FatTable.firstFree_isSome (show 0 < freeCount fs.fat by omega)
      obtain ⟨A', hcount⟩ := A.advance.hang (update buffer ⟨o % 1024, hk⟩ b)
        (FatTable.firstFree_eq_some hj).1
      have hrun := nextBlock_run (update buffer ⟨o % 1024, hk⟩ b) A.advance.lt A.advance.device hj
      have hs := settle_hang (b := b) buffer (k := ⟨o % 1024, hk⟩)
        (by rw [hot]; exact hb) (by rw [hot]) hj
      obtain ⟨fs', buffer', ws, hloop, hset, hws, A'⟩ := @ih _ bytes
        (update buffer ⟨o % 1024, hk⟩ b) (o + 1) A' (by rw [← ho']; simp [hang]) hn'
        (by have : freeCount (fs.advance h).fat = freeCount fs.fat := rfl
            omega) 0 1024 (by simp [hb]) (by simp)
      rw [if_pos (by omega), run_bind_ok hrun]
      refine ⟨fs', buffer', ws ++ [(fs.handleTable h).currentBlock], hloop, ?_, ?_, A'⟩
      · rw [hset, hs, appendBytes_wrote, wrote_wrote]
        rfl
      · simpa [or_imp, forall_and] using ⟨hws, A.three_le⟩
    · obtain ⟨fs', buffer', ws, hloop, hset, hws, A'⟩ := @ih _ bytes
        (update buffer ⟨o % 1024, hk⟩ b) (o + 1) A.advance ho' hn'
        (by have : freeCount (fs.advance h).fat = freeCount fs.fat := rfl
            omega) ((o % 1024 : ℕ) + 1) (bc - 1) (by omega) (by omega)
      rw [if_neg (by omega)]
      refine ⟨fs', buffer', ws, hloop, ?_, hws, A'⟩
      rw [hset, settle_advance (by rw [hot]; exact hb) (by rw [hot])]
      rfl

end FileSystem

end GenericFs.Fat
