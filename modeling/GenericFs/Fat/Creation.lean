import GenericFs.Fat.Runs

namespace GenericFs.Fat

open GenericFs.Library Chain Function Returning FileSystem

def Directory.Lacks (d : Directory) (name : CString) : Prop :=
  ∀ i, (d i).inUse ≠ 0 → d.strcmp (32 * i) name.bytes = some false

/-- The entry of an empty file with the given name and first block. -/
structure DirectoryEntry.Fresh (e : DirectoryEntry) (name : CString)
    (startingBlock : ℕ) : Prop where
  named : e.Named
  name : e.nameBytes = name.bytes
  size : e.size = 0
  inUse : e.inUse = 1
  startingBlock : e.startingBlock = startingBlock

/-- How the creation of a file should end: it is refused, or a free record becomes
that of the new file and no other record changes. -/
inductive Creates (fs : FileSystem) (name : CString) : EStateM.Result Fault FileSystem ℤ → Prop
  | refused (m : String) : Creates fs name (.error (.thrown m) fs)
  | created (h : ℤ) (i : Fin dirSize) (j : Fin fatSize) (fs' : FileSystem)
      (hi : (fs.rootDirectory i).inUse = 0) (hj : fs.fat j = freeFatEntry)
      (hfat : fs'.fat = fs.fat.set j eofFatEntry)
      (hothers : ∀ k, k ≠ i → fs'.rootDirectory k = fs.rootDirectory k)
      (hnew : (fs'.rootDirectory i).Fresh name j) : Creates fs name (.ok h fs')

/-- What is needed to create a file: a handle, a record and a block. -/
structure Creatable (fs : FileSystem) : Prop where
  handle : ∃ h, (fs.handleTable h).inUse = false
  slot : ∃ i, (fs.rootDirectory i).inUse = 0
  block : ∃ j, fs.fat j = freeFatEntry

variable {fs fs' : FileSystem} {chain : Fin dirSize → List ℕ} {name : CString} {d : Directory}

theorem Directory.Lacks.findName (hl : d.Lacks name) (is : List (Fin dirSize)) :
    findName d name is = .ok none := by
  induction is with
  | nil => rfl
  | cons i is ih =>
    by_cases hu : (d i).inUse = 0
    · simp only [FileSystem.findName, hu, ↓reduceIte, ih]
    · simp only [FileSystem.findName, hu, ↓reduceIte, hl i hu, ih]

theorem Directory.Lacks.lookup (hl : d.Lacks name) (hn : name.Fits) : d.lookup name = none := by
  have hfind := (findName_eq hn (List.finRange dirSize)).symm.trans (hl.findName _)
  exact Except.ok.inj hfind

theorem findEntry_lacks (hl : fs.rootDirectory.Lacks name) :
    (findEntry name).run fs = .ok none fs := by
  simp only [findEntry, EStateM.run_bind, EStateM.run_get, hl.findName, EStateM.run_pure]

/-- A name that the directory lacks is refused, or given to `createFile` with the
first free handle. -/
theorem open_lacks (hl : fs.rootDirectory.Lacks name) :
    (¬Creatable fs ∧ ∃ m, (FileSystem.open name .WRITE).run fs = .error (.thrown m) fs) ∨
      ∃ h i j, (fs.handleTable h).inUse = false ∧
        (Fin.find? fun i ↦ (fs.rootDirectory i).inUse = 0) = some i ∧ fs.fat.firstFree = some j ∧
        (FileSystem.open name .WRITE).run fs =
          (createFile h name .WRITE >>= fun _ ↦ pure (h.val : ℤ)).run fs := by
  simp only [FileSystem.open, EStateM.run_bind, EStateM.run_get]
  cases hh : Fin.find? fun h ↦ (fs.handleTable h).inUse = false with
  | none =>
    refine .inl ⟨fun A ↦ ?_, _, rfl⟩
    obtain ⟨h, hfree⟩ := A.handle
    have hnone := Fin.find?_eq_none_iff.mp hh h
    simp [hfree] at hnone
  | some h =>
    have hfree := handle_of_find hh
    simp only [EStateM.run_bind, findEntry_lacks hl, reduceCtorEq, ↓reduceIte]
    cases hi : Fin.find? fun i ↦ (fs.rootDirectory i).inUse = 0 with
    | none =>
      simp only [createFile, EStateM.run_bind, EStateM.run_get, hi]
      refine .inl ⟨fun A ↦ ?_, _, rfl⟩
      obtain ⟨i, hempty⟩ := A.slot
      have hnone := Fin.find?_eq_none_iff.mp hi i
      simp [hempty] at hnone
    | some i =>
      cases hj : fs.fat.firstFree with
      | none =>
        simp only [createFile, EStateM.run_bind, EStateM.run_get, hi, hj]
        refine .inl ⟨fun A ↦ ?_, _, rfl⟩
        obtain ⟨j, hempty⟩ := A.block
        have hnone := Fin.find?_eq_none_iff.mp hj j
        simp [hempty] at hnone
      | some j => exact .inr ⟨h, i, j, hfree, rfl, rfl, rfl⟩

/-- Once everything is there, a creation ends with the new file or with a copy of
the name that leaves the directory. -/
theorem createFile_ends (name : CString) {h : Fin handleTableSize} {i : Fin dirSize}
    {j : Fin fatSize}
    (hi : (Fin.find? fun i ↦ (fs.rootDirectory i).inUse = 0) = some i)
    (hj : fs.fat.firstFree = some j) :
    (∃ s, (createFile h name .WRITE).run fs = .error .undefined s) ∨
      ∃ d, Directory.strcpy (update fs.rootDirectory i { fs.rootDirectory i with
          inUse := 1, startingBlock := j, size := 0 }) (32 * i) name.bytes = some d ∧
        (createFile h name .WRITE).run fs = .ok ()
          ({ fs with fat := fs.fat.set j eofFatEntry, rootDirectory := d }.withHandle h
            { offset := 0, directoryIndex := i, currentBlock := j, inUse := true, mode := .WRITE }) := by
  simp only [createFile, EStateM.run_bind, EStateM.run_get, hi, hj, fatSet_run j.isLt, setEntry_run,
    withEntry_fields, setFat_fields]
  cases hcpy : Directory.strcpy (update fs.rootDirectory i { fs.rootDirectory i with
      inUse := 1, startingBlock := j, size := 0 }) (32 * i) name.bytes with
  | none => exact .inl ⟨_, rfl⟩
  | some d => exact .inr ⟨d, rfl, rfl⟩

theorem DirectoryEntry.Fresh.fits {e : DirectoryEntry} {j : ℕ} (F : e.Fresh name j) :
    name.Fits := by
  have hlen := DirectoryEntry.named_iff.mp F.named
  rwa [F.name] at hlen

theorem creates_of_fits (hl : fs.rootDirectory.Lacks name) (hn : name.Fits) :
    Creates fs name ((FileSystem.open name .WRITE).run fs) := by
  rcases open_lacks hl with ⟨-, m, hrun⟩ | ⟨h, i, j, -, hi, hj, hrun⟩
  · rw [hrun]
    exact .refused m
  · have hempty := Directory.empty_of_find hi
    have G := created_gains (j := j) hn (hl.lookup hn) hempty
    rw [hrun, run_bind_ok (createFile_run hn hi hj), EStateM.run_pure]
    refine .created h i j _ hempty (FatTable.firstFree_eq_some hj).1 rfl G.others
      ⟨?_, G.name, ?_, ?_, ?_⟩
    · exact DirectoryEntry.named_iff.mpr (G.name ▸ hn)
    · simp [created]
    · simp [created]
    · simp [created]

theorem not_creates_of_long (A : Creatable fs) (hl : fs.rootDirectory.Lacks name)
    (hn : ¬name.Fits) : ¬Creates fs name ((FileSystem.open name .WRITE).run fs) := by
  rcases open_lacks hl with ⟨hno, -⟩ | ⟨h, i, j, -, hi, hj, hrun⟩
  · exact absurd A hno
  · rw [hrun, EStateM.run_bind]
    intro hc
    rcases createFile_ends name (h := h) hi hj with ⟨s, hend⟩ | ⟨d, -, hend⟩
    · rw [hend] at hc
      cases hc
    · rw [hend] at hc
      cases hc with
      | created h i j fs' hi hj hfat hothers hnew => exact hn hnew.fits

/-- The directory stays sound when a file is created exactly if its name fits its
record, or if nothing is created because a handle, a record or a block is missing. -/
theorem open_creates_iff (hl : fs.rootDirectory.Lacks name) :
    Creates fs name ((FileSystem.open name .WRITE).run fs) ↔ name.Fits ∨ ¬Creatable fs := by
  constructor
  · intro hc
    by_contra hno
    rw [not_or, not_not] at hno
    exact not_creates_of_long hno.2 hl hno.1 hc
  · rintro (hn | hno)
    · exact creates_of_fits hl hn
    · rcases open_lacks hl with ⟨-, m, hrun⟩ | ⟨h, i, j, hh, hi, hj, -⟩
      · rw [hrun]
        exact .refused m
      · have hempty := Directory.empty_of_find hi
        exact absurd ⟨⟨h, hh⟩, ⟨i, hempty⟩, ⟨j, (FatTable.firstFree_eq_some hj).1⟩⟩ hno

section Blank

theorem lacks_blank (name : CString) : blankFormatted.rootDirectory.Lacks name := by
  intro i hi
  rw [blankFormatted_eq] at hi
  exact absurd rfl hi

theorem creatable_blank : Creatable blankFormatted := by
  rw [blankFormatted_eq]
  exact ⟨⟨0, rfl⟩, ⟨0, rfl⟩, ⟨3, by decide⟩⟩

theorem open_creates_iff_blank :
    Creates blankFormatted nameA ((FileSystem.open nameA .WRITE).run blankFormatted) :=
  (open_creates_iff (lacks_blank nameA)).mpr (.inl (by decide))

def fullName : CString := ⟨List.replicate 24 97, by decide⟩

/-- The record of a new file with such a name has no NUL in its name field. -/
theorem not_open_creates : ¬∀ (fs : FileSystem) (chain : Fin dirSize → List ℕ) (name : CString),
    Consistent fs chain → fs.rootDirectory.Lacks name →
    Creates fs name ((FileSystem.open name .WRITE).run fs) := by
  intro hclaim
  have hc := hclaim blankFormatted _ fullName begins_blank.fresh.1.1 (lacks_blank _)
  exact not_creates_of_long creatable_blank (lacks_blank _) (by decide) hc

end Blank

end GenericFs.Fat
