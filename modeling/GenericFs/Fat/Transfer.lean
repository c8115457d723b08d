import Mathlib.Data.List.GetD
import GenericFs.Fat.Layout
import GenericFs.Library.Returning

namespace GenericFs.Fat

open GenericFs.Library Chain Function Returning

/-- The `k`-th byte of the blocks of a list taken one after the other. -/
def byteAt (blocks : ℕ → Block) (l : List ℕ) (k : ℕ) : UInt8 :=
  blocks (l.getD (k / 1024) 0) ⟨k % 1024, Nat.mod_lt _ (by decide)⟩

section Primitives

variable {fs : FileSystem} {b v k : ℕ} {buffer : Block}

@[simp] theorem throw_run {α : Type} {e : Fault} : (throw e : Member α).run fs = .error e fs := rfl

@[simp] theorem modify_run {f : FileSystem → FileSystem} :
    (modify f : Member Unit).run fs = .ok () (f fs) := rfl

theorem fatGet_run : (fatGet b).run fs =
    match fs.fat.entry b with
    | some v => .ok v fs
    | none => .error .undefined fs := by
  cases h : fs.fat.entry b <;> simp [fatGet, h]

theorem fatSet_run (h : b < 512) : (fatSet b v).run fs = .ok () (fs.setFat b v) := by
  simp [fatSet, h]

theorem diskRead_run (h : b < fs.theDisk.blockCount) :
    (diskRead b).run fs = .ok (fs.theDisk.block b) fs := by
  simp [diskRead, BlockDevice.read, Nat.not_le.mpr h]

theorem diskWrite_run (h : b < fs.theDisk.blockCount) :
    (diskWrite b buffer).run fs = .ok () ((fs.withBlock b buffer).wrote [b]) := by
  simp [diskWrite, BlockDevice.write, Nat.not_le.mpr h, FileSystem.withBlock, FileSystem.wrote]

theorem bufferGet_run (h : k < 1024) : (bufferGet buffer k).run fs = .ok (buffer ⟨k, h⟩) fs := by
  simp only [bufferGet]
  rw [dif_pos (by simp only [blockSize]; omega)]
  rfl

theorem bufferSet_run (h : k < 1024) {c : UInt8} :
    (bufferSet buffer k c).run fs = .ok (update buffer ⟨k, h⟩ c) fs := by
  simp only [bufferSet]
  rw [dif_pos (by simp only [blockSize]; omega)]
  rfl

@[simp] theorem setHandle_run {h : Fin handleTableSize} {e : HandleTableEntry} :
    (setHandle h e).run fs = .ok () (fs.withHandle h e) := rfl

@[simp] theorem setEntry_run {i : Fin dirSize} {d : DirectoryEntry} :
    (setEntry i d).run fs = .ok () (fs.withEntry i d) := rfl

end Primitives

namespace FileSystem

variable {fs : FileSystem} {h : Fin handleTableSize} {l : List ℕ} {a o n : ℕ}

theorem withHandle_withHandle {e e' : HandleTableEntry} :
    (fs.withHandle h e).withHandle h e' = fs.withHandle h e' := by
  simp [withHandle]

/-- The offset of a handle moved on to `o`, with the block that `o` lies in. -/
def seek (fs : FileSystem) (h : Fin handleTableSize) (l : List ℕ) (o : ℕ) : FileSystem :=
  fs.withHandle h { fs.handleTable h with offset := o, currentBlock := l.getD (o / 1024) 0 }

theorem seek_handle : (fs.seek h l o).handleTable h =
    { fs.handleTable h with offset := o, currentBlock := l.getD (o / 1024) 0 } := by
  simp [seek]

theorem seek_seek : (fs.seek h l o).seek h l n = fs.seek h l n := by
  rw [seek, seek_handle, seek, withHandle_withHandle, seek]

theorem seek_self (ho : (fs.handleTable h).offset = o)
    (hcur : l.getD (o / 1024) 0 = (fs.handleTable h).currentBlock) : fs.seek h l o = fs := by
  rw [seek, hcur, ← ho]
  simp [withHandle]

/-- One turn of the loop of `read` hands out the byte at the handle's offset and
moves the offset on, to the next block of the chain where this one ends. -/
theorem readLoop_run (hl : fs.fat.Chain a l) (hdev : ∀ b ∈ l, b < fs.theDisk.blockCount)
    (ho : (fs.handleTable h).offset = o)
    (hcur : l.getD (o / 1024) 0 = (fs.handleTable h).currentBlock) (hn : (o + n) / 1024 < l.length)
    {bo bc : ℤ} (hbo : bo = (o % 1024 : ℕ)) (hbc : bc = 1024 - bo) :
    (readLoop h n (fs.theDisk.block (fs.handleTable h).currentBlock) bo bc).run fs =
      .ok (Store.slice (byteAt fs.theDisk.block l) o n) (fs.seek h l (o + n)) := by
  induction n generalizing fs o bo bc with
  | zero => simp only [readLoop, EStateM.run_pure, Store.slice_zero, Nat.add_zero,
    seek_self ho hcur]
  | succ n ih =>
    have hbyte :
        fs.theDisk.block (fs.handleTable h).currentBlock ⟨o % 1024, Nat.mod_lt _ (by decide)⟩ =
        byteAt fs.theDisk.block l o := by rw [byteAt, hcur]
    have hrest := fun (bo bc : ℤ) (hbo : bo = ((o + 1) % 1024 : ℕ)) (hbc : bc = 1024 - bo) ↦
      @ih (fs.seek h l (o + 1)) (o + 1) hl hdev (by simp [seek_handle])
        (by simp [seek_handle]) (by rwa [Nat.add_assoc, Nat.add_comm 1]) bo bc hbo hbc
    simp only [seek_seek, Nat.add_assoc, Nat.add_comm 1 n, seek_handle] at hrest
    subst hbo
    simp only [readLoop, EStateM.run_bind, bufferGet_run (Nat.mod_lt o (by decide : 0 < 1024)),
      EStateM.run_get, setHandle_run, hbyte, Store.slice_succ_left]
    by_cases hb : (o + 1) % 1024 = 0
    · -- the last byte of the block: the FAT gives the next one
      have hi : (o + 1) / 1024 = o / 1024 + 1 := by omega
      have hlt : (o + 1) / 1024 < l.length := (Nat.div_le_div_right (by omega)).trans_lt hn
      have hnext := (hl.getElem_succ (i := o / 1024) (by omega)).1
      have hd : l.getD ((o + 1) / 1024) 0 = l[o / 1024 + 1] := by
        rw [List.getD_eq_getElem l 0 hlt]; simp only [hi]
      have hcur' : l[o / 1024] = (fs.handleTable h).currentBlock := by
        rw [← hcur, List.getD_eq_getElem l 0 (by omega)]
      have hseek : fs.seek h l (o + 1) = fs.withHandle h { fs.handleTable h with
          offset := (fs.handleTable h).offset + 1, currentBlock := l[o / 1024 + 1] } := by
        rw [seek, hd, ho]; push_cast; rfl
      rw [hcur'] at hnext
      have hread := hrest 0 1024 (by simp [hb]) (by simp)
      rw [hd] at hread
      rw [if_pos (by omega)]
      simp only [EStateM.run_bind, fatGet_run, withHandle_fields, hnext, EStateM.run_get,
        setHandle_run, update_self, withHandle_withHandle, ← hseek]
      rw [diskRead_run (by exact hdev _ (List.getElem_mem _))]
      exact run_bind_ok hread
    · have hi : (o + 1) / 1024 = o / 1024 := by omega
      have hseek : fs.seek h l (o + 1) = fs.withHandle h { fs.handleTable h with
          offset := (fs.handleTable h).offset + 1 } := by
        rw [seek, hi, hcur, ho]; push_cast; rfl
      have hread := hrest ((o % 1024 : ℕ) + 1) (bc - 1) (by omega) (by omega)
      rw [hi, hcur] at hread
      rw [if_neg (by omega), ← hseek]
      exact run_bind_ok hread

end FileSystem

end GenericFs.Fat
