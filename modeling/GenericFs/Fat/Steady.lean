import GenericFs.Fat.Check
import GenericFs.Library.Returning

namespace GenericFs.Fat

open GenericFs.Library Function Returning FileSystem

/-- A property of the object that does not depend on its tables. -/
def TableBlind (I : FileSystem → Prop) : Prop :=
  ∀ fs fat directory table scan, I fs → I { fs with
    fat := fat, rootDirectory := directory, handleTable := table, scanIndex := scan }

/-- A property that does not depend on the blocks of the device either. -/
def BlockBlind (I : FileSystem → Prop) : Prop :=
  ∀ fs disk, disk.blockCount = fs.theDisk.blockCount → I fs → I { fs with theDisk := disk }

variable {I : FileSystem → Prop}

section Tables

variable (T : TableBlind I)

include T

theorem stable_fatSet (b v : ℕ) : Stable I (fatSet b v) :=
  .ite (.modify fun fs h ↦ T fs (fs.fat.set b v) _ _ _ h) (.throw _)

theorem stable_setHandle (h : Fin handleTableSize) (e : HandleTableEntry) :
    Stable I (setHandle h e) :=
  .modify fun fs hs ↦ T fs _ _ (update fs.handleTable h e) _ hs

theorem stable_setEntry (i : Fin dirSize) (e : DirectoryEntry) : Stable I (setEntry i e) :=
  .modify fun fs hs ↦ T fs _ (update fs.rootDirectory i e) _ _ hs

omit T in
theorem stable_fatGet (b : ℕ) : Stable I (fatGet b) := by
  refine .get_bind fun fs _ ↦ ?_
  cases fs.fat.entry b with
  | some v => exact .pure v
  | none => exact .throw _

omit T in
theorem stable_diskRead (b : ℕ) : Stable I (diskRead b) := by
  refine .get_bind fun fs _ ↦ ?_
  cases fs.theDisk.read b with
  | ok buffer => exact .pure buffer
  | error e => exact .throw e

omit T in
theorem stable_findEntry (name : CString) : Stable I (findEntry name) := by
  refine .get_bind fun fs _ ↦ ?_
  cases findName fs.rootDirectory name (List.finRange dirSize) with
  | ok i => exact .pure i
  | error e => exact .throw e

omit T in
theorem stable_lastBlock (fuel current : ℕ) : Stable I (lastBlock fuel current) := by
  induction fuel generalizing current with
  | zero => exact .throw _
  | succ fuel ih => exact (stable_fatGet _).bind fun next ↦ .ite (.pure _) (ih next)

omit T in
theorem stable_freeSpace : Stable I freeSpace :=
  .get_bind fun _ _ ↦ .ite (.throw _) (.pure _)

theorem stable_readLoop (h : Fin handleTableSize) (n : ℕ) (blockBuffer : Block)
    (blockOffset blockCount : ℤ) : Stable I (readLoop h n blockBuffer blockOffset blockCount) := by
  induction n generalizing blockBuffer blockOffset blockCount with
  | zero => exact .pure _
  | succ n ih =>
    refine .bind (.dite (fun _ ↦ .pure _) fun _ ↦ .throw _) fun b ↦ ?_
    refine .get_bind fun fs _ ↦ (stable_setHandle T _ _).bind fun _ ↦ .ite ?_ ?_
    · refine (stable_fatGet _).bind fun next ↦ .get_bind fun fs _ ↦ ?_
      exact (stable_setHandle T _ _).bind fun _ ↦ (stable_diskRead _).bind fun _ ↦
        (ih _ _ _).bind fun _ ↦ .pure _
    · exact (ih _ _ _).bind fun _ ↦ .pure _

theorem stable_read (handle count : ℤ) : Stable I (FileSystem.read handle count) := by
  refine .dite (fun hh ↦ .get_bind fun fs _ ↦ .ite (.throw _) (.ite (.pure _) ?_)) fun _ ↦ .throw _
  exact (stable_diskRead _).bind fun _ ↦ (stable_readLoop T _ _ _ _ _).bind fun _ ↦ .pure _

theorem stable_createFile (handle : Fin handleTableSize) (name : CString) (mode : OpenMode) :
    Stable I (createFile handle name mode) := by
  refine .get_bind fun fs _ ↦ ?_
  cases Fin.find? fun i ↦ (fs.rootDirectory i).inUse = 0 with
  | none => exact .throw _
  | some dirIndex =>
    cases fs.fat.firstFree with
    | none => exact .throw _
    | some fatIndex =>
      refine (stable_fatSet T _ _).bind fun _ ↦ (stable_setEntry T _ _).bind fun _ ↦
        .get_bind fun fs' _ ↦ ?_
      cases fs'.rootDirectory.strcpy (32 * dirIndex) name.bytes with
      | none => exact (Stable.throw _).bind fun _ ↦ stable_setHandle T _ _
      | some d =>
        exact (Stable.modify fun fs h ↦ T fs _ d _ _ h).bind fun _ ↦ stable_setHandle T _ _

theorem stable_openEntry (handle : Fin handleTableSize) (dirIndex : Fin dirSize) (mode : OpenMode) :
    Stable I (openEntry handle dirIndex mode) := by
  refine .get_bind fun fs _ ↦ ?_
  cases mode with
  | READ => exact stable_setHandle T _ _
  | WRITE =>
    exact (stable_setHandle T _ _).bind fun _ ↦ (stable_lastBlock _ _).bind fun _ ↦
      .get_bind fun _ _ ↦ stable_setHandle T _ _

theorem stable_open (name : CString) (mode : OpenMode) : Stable I (FileSystem.open name mode) := by
  refine .get_bind fun fs _ ↦ ?_
  cases Fin.find? fun h ↦ (fs.handleTable h).inUse = false with
  | none => exact .throw _
  | some handle =>
    refine (stable_findEntry name).bind fun found ↦ ?_
    cases found with
    | none => exact .ite (.bind (.throw _) fun _ ↦ .pure _) ((stable_createFile T _ _ _).bind fun _ ↦ .pure _)
    | some dirIndex => exact (stable_openEntry T _ _ _).bind fun _ ↦ .pure _

theorem stable_freeChain (fuel currentBlock : ℕ) : Stable I (freeChain fuel currentBlock) := by
  induction fuel generalizing currentBlock with
  | zero => exact .throw _
  | succ fuel ih =>
    exact (stable_fatGet _).bind fun next ↦ (stable_fatSet T _ _).bind fun _ ↦
      .ite (.pure _) (ih next)

theorem stable_truncate (name : CString) : Stable I (FileSystem.truncate name) := by
  refine (stable_findEntry name).bind fun found ↦ ?_
  cases found with
  | none => exact .pure _
  | some index =>
    exact .get_bind fun _ _ ↦ (stable_freeChain T _ _).bind fun _ ↦
        (stable_fatSet T _ _).bind fun _ ↦
      stable_setEntry T _ _

theorem stable_remove (name : CString) : Stable I (FileSystem.remove name) := by
  refine (stable_findEntry name).bind fun found ↦ ?_
  cases found with
  | none => exact .pure _
  | some index =>
    exact .get_bind fun _ _ ↦ (stable_freeChain T _ _).bind fun _ ↦ stable_setEntry T _ _

theorem stable_openDir : Stable I openDir := .modify fun fs h ↦ T fs _ _ _ 0 h

theorem stable_nextDirLoop (turns : ℕ) : Stable I (nextDirLoop turns) := by
  induction turns with
  | zero => exact .pure _
  | succ turns ih =>
    refine .get_bind fun fs _ ↦ .dite (fun h ↦ .ite ?_ ?_) fun _ ↦ .pure _
    · exact (Stable.modify fun fs h ↦ T fs _ _ _ (fs.scanIndex + 1) h).bind fun _ ↦ ih
    · cases copyName fs.rootDirectory nameSize (32 * fs.scanIndex) with
      | none => exact .throw _
      | some name =>
        exact (Stable.modify fun fs h ↦ T fs _ _ _ (fs.scanIndex + 1) h).bind fun _ ↦ .pure _

theorem stable_close (handle : ℤ) : Stable I (close handle) := by
  refine .get_bind fun fs _ ↦
    .ite (.throw _) (.ite (.throw _) (.ite (.throw _) (.dite (fun h ↦ ?_) fun _ ↦ .throw _)))
  exact .ite (.throw _) (stable_setHandle T _ _)

omit T in
theorem stable_check : Stable I FileSystem.check := by
  refine .get_bind fun fs _ ↦ ?_
  cases checkWith loopBound fs with
  | ok _ => exact .pure _
  | error e => exact .throw e

end Tables

section Blocks

variable (T : TableBlind I) (B : BlockBlind I)

include B

theorem stable_diskWrite (b : ℕ) (buffer : Block) : Stable I (diskWrite b buffer) := by
  intro s hs
  rw [diskWrite, EStateM.run_bind, EStateM.run_get]
  simp only [BlockDevice.write]
  split_ifs
  · exact Stable.throw _ s hs
  · refine ⟨fun a t hrun ↦ ?_, nofun⟩
    injection hrun with _ ht
    rw [← ht]
    exact B s _ rfl hs

include T

theorem stable_nextBlock (h : Fin handleTableSize) (blockBuffer : Block) :
    Stable I (nextBlock h blockBuffer) := by
  refine .get_bind fun fs _ ↦ (stable_diskWrite B _ _).bind fun _ ↦ .get_bind fun fs' _ ↦ ?_
  cases fs'.fat.firstFree with
  | none => exact .throw _
  | some j =>
    exact (stable_fatSet T _ _).bind fun _ ↦ (stable_fatSet T _ _).bind fun _ ↦
      stable_setHandle T _ _

theorem stable_writeLoop (h : Fin handleTableSize) (n : ℕ) (buffer : List UInt8)
    (blockBuffer : Block)
    (blockOffset blockCount : ℤ) :
    Stable I (writeLoop h n buffer blockBuffer blockOffset blockCount) := by
  induction n generalizing buffer blockBuffer blockOffset blockCount with
  | zero => exact .pure _
  | succ n ih =>
    cases buffer with
    | nil => exact .throw _
    | cons b buffer =>
      refine .bind (.dite (fun _ ↦ .pure _) fun _ ↦ .throw _) fun blockBuffer ↦
        .get_bind fun fs _ ↦ ?_
      refine (stable_setHandle T _ _).bind fun _ ↦ .get_bind fun fs _ ↦
        (stable_setEntry T _ _).bind fun _ ↦ ?_
      exact .ite ((stable_nextBlock T B _ _).bind fun _ ↦ ih _ _ _ _) (ih _ _ _ _)

theorem stable_write (handle : ℤ) (buffer : List UInt8) (count : ℤ) :
    Stable I (FileSystem.write handle buffer count) := by
  refine .dite (fun hh ↦ .get_bind fun fs _ ↦ .ite (.throw _) ?_) fun _ ↦ .throw _
  refine stable_freeSpace.bind fun space ↦ .ite (.pure _) ?_
  exact (stable_diskRead _).bind fun _ ↦ (stable_writeLoop T B _ _ _ _ _ _).bind fun _ ↦
    .get_bind fun _ _ ↦ (stable_diskWrite B _ _).bind fun _ ↦ .pure _

end Blocks

/-- No member changes the number of the blocks. -/
theorem tableBlind_blockCount (n : ℕ) : TableBlind fun fs ↦ fs.theDisk.blockCount = n :=
  fun _ _ _ _ _ h ↦ h

theorem blockBlind_blockCount (n : ℕ) : BlockBlind fun fs ↦ fs.theDisk.blockCount = n :=
  fun _ _ hd h ↦ hd.trans h

theorem stable_format_blockCount (n : ℕ) : Stable (fun fs ↦ fs.theDisk.blockCount = n) format :=
  (stable_diskWrite (blockBlind_blockCount n) _ _).bind fun _ ↦ .modify fun _ h ↦ h

/-- Without a formatted file system `write` comes to no block. -/
theorem stable_write_unformatted (hI : ∀ fs, I fs → fs.formattedFlag = false) (handle : ℤ)
    (buffer : List UInt8) (count : ℤ) : Stable I (FileSystem.write handle buffer count) := by
  refine .dite (fun hh ↦ .get_bind fun fs hfs ↦ .ite (.throw _) ?_) fun _ ↦ .throw _
  refine .bind_error
    (e := .thrown "Attempted to ask for free space on an unformatted file system.") ?_
  intro s hs
  rw [freeSpace, EStateM.run_bind, EStateM.run_get]
  simp only [hI s hs, ↓reduceIte]
  rfl

end GenericFs.Fat
