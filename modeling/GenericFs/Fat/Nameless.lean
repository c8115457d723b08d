import GenericFs.Library.Agreeing
import GenericFs.Fat.Runs

namespace GenericFs.Fat

open GenericFs.Library Agreeing Chain Machine Function FileSystem

/-- A disk that `check` accepts. Its files without a NUL in the name field are found by no call. -/
structure Veil where
  fat : FatTable
  directory : Directory
  chain : Fin dirSize → List ℕ
  accounted : Accounted fat directory chain

namespace Veil

section Definitions

variable (V : Veil)

def Nameless (i : Fin dirSize) : Prop := (V.directory i).inUse = 1 ∧ ¬(V.directory i).Named

instance : DecidablePred V.Nameless := fun i ↦
  inferInstanceAs (Decidable ((V.directory i).inUse = 1 ∧ ¬∃ k, (V.directory i).name k = 0))

def Hides (b : ℕ) : Prop := ∃ i, V.Nameless i ∧ b ∈ V.chain i

instance : DecidablePred V.Hides := fun _ ↦ inferInstanceAs (Decidable (∃ _, _))

def lift (gs : FileSystem) : FileSystem :=
  { gs with
    fat := fun j ↦ if V.Hides j then V.fat j else gs.fat j
    rootDirectory := fun i ↦ if V.Nameless i then V.directory i else gs.rootDirectory i }

/-- An object in which the blocks of the hidden files are reserved, and their entries are not
those of files. -/
structure Covers (gs : FileSystem) : Prop where
  reserved : ∀ j : Fin fatSize, V.Hides j → gs.fat j = reservedFatEntry
  marked : ∀ i, V.Nameless i → gs.rootDirectory i = { V.directory i with inUse := 2 }

structure Lifts (gs fs : FileSystem) : Prop where
  covers : V.Covers gs
  eq : fs = V.lift gs

end Definitions

variable {V : Veil} {gs fs : FileSystem} {chain : Fin dirSize → List ℕ} {h : Fin handleTableSize}
  {i : Fin dirSize} {j : Fin fatSize} {a b v n : ℕ} {name : CString} {mode : OpenMode}
  {e : HandleTableEntry} {d : DirectoryEntry} {buffer : Block} {l : List ℕ}

theorem lift_nameless (hi : V.Nameless i) : (V.lift gs).rootDirectory i = V.directory i := if_pos hi

theorem lift_other (hi : ¬V.Nameless i) :
    (V.lift gs).rootDirectory i = gs.rootDirectory i := if_neg hi

section Views

variable (K : V.Covers gs)

include K

theorem Covers.not_hides (hj : gs.fat j ≠ reservedFatEntry) :
    ¬V.Hides j := fun h ↦ hj (K.reserved j h)

theorem Covers.not_hides_entry (hb : gs.fat.entry b ≠ some reservedFatEntry) : ¬V.Hides b := by
  rintro ⟨i, hi, hmem⟩
  have hlt := (V.accounted.links i hi.1).lt b hmem
  rw [FatTable.entry_of_lt hlt] at hb
  exact hb (congrArg some (K.reserved ⟨b, hlt⟩ ⟨i, hi, hmem⟩))

theorem Covers.not_nameless (hu : (gs.rootDirectory i).inUse ≠ 2) : ¬V.Nameless i := fun h ↦ by
  simp [K.marked i h] at hu

theorem Covers.lift_entry (hb : gs.fat.entry b ≠ some reservedFatEntry) :
    (V.lift gs).fat.entry b = gs.fat.entry b := by
  by_cases hlt : b < 512
  · rw [FatTable.entry_of_lt hlt] at hb
    have hfat : (V.lift gs).fat ⟨b, hlt⟩ = gs.fat ⟨b, hlt⟩ :=
      if_neg (K.not_hides fun h ↦ hb (congrArg some h))
    rw [FatTable.entry_of_lt hlt, FatTable.entry_of_lt hlt, hfat]
  · simp only [FatTable.entry, fatSize, hlt, ↓reduceDIte]

theorem Covers.free_iff (j : Fin fatSize) :
    (V.lift gs).fat j = freeFatEntry ↔ gs.fat j = freeFatEntry := by
  by_cases hj : V.Hides j
  · have hlift : (V.lift gs).fat j = V.fat j := if_pos hj
    have hreserved := K.reserved j hj
    obtain ⟨i, ⟨hu, -⟩, hmem⟩ := hj
    have hbusy := (V.accounted.busy i hu j hmem).1
    rw [FatTable.entry_val] at hbusy
    rw [hlift, hreserved]
    simpa using hbusy
  · rw [show (V.lift gs).fat j = gs.fat j from if_neg hj]

theorem Covers.firstFree : (V.lift gs).fat.firstFree = gs.fat.firstFree := by
  simp only [FatTable.firstFree, K.free_iff]

theorem Covers.freeCount : FileSystem.freeCount (V.lift gs).fat = FileSystem.freeCount gs.fat := by
  simp only [FileSystem.freeCount, K.free_iff]

theorem Covers.empty_iff (i : Fin dirSize) :
    ((V.lift gs).rootDirectory i).inUse = 0 ↔ (gs.rootDirectory i).inUse = 0 := by
  by_cases hi : V.Nameless i
  · rw [lift_nameless hi, K.marked i hi, hi.1]
    exact iff_of_false (by decide) (show ¬(2 : UInt8) = 0 by decide)
  · rw [lift_other hi]

/-- No name that fits is that of a hidden file. -/
theorem Covers.lookup (hn : name.Fits) :
    (V.lift gs).rootDirectory.lookup name = gs.rootDirectory.lookup name := by
  have hholds (i : Fin dirSize) :
      (V.lift gs).rootDirectory.Holds i name ↔ gs.rootDirectory.Holds i name := by
    by_cases hi : V.Nameless i
    · have hnamed {d : Directory} (hname : (d i).name = (V.directory i).name)
          (H : d.Holds i name) : False := by
        obtain ⟨k, hk⟩ := H.named hn
        exact hi.2 ⟨k, hname ▸ hk⟩
      exact iff_of_false (hnamed (by rw [lift_nameless hi])) (hnamed (by rw [K.marked i hi]))
    · simp only [Directory.Holds, lift_other hi]
  simp only [Directory.lookup, hholds]

theorem Covers.links (hl : gs.fat.Chain a l)
    (hbusy : ∀ b ∈ l, gs.fat.entry b ≠ some reservedFatEntry) :
    (V.lift gs).fat.Chain a l :=
  Links.congr hl fun b hb ↦ K.lift_entry (hbusy b hb)

/-- A file that a name finds has the same chain with the hidden files and without them. -/
theorem Covers.file (C : Consistent gs chain) (hu : (gs.rootDirectory i).inUse = 1) :
    gs.fat.Chain (gs.rootDirectory i).startingBlock (chain i) ∧
      (V.lift gs).fat.Chain (gs.rootDirectory i).startingBlock (chain i) ∧
      (∀ b ∈ chain i, ¬V.Hides b) ∧ ¬V.Nameless i := by
  have hl := C.layout.links hu
  have hbusy : ∀ b ∈ chain i, gs.fat.entry b ≠ some reservedFatEntry := fun b hb ↦
    (C.layout.entry_ne_idle hb).2
  exact ⟨hl, K.links hl hbusy, fun b hb ↦ K.not_hides_entry (hbusy b hb),
    K.not_nameless (by simp [hu])⟩

end Views

section Updates

variable (L : V.Lifts gs fs)

include L

theorem Lifts.withHandle : V.Lifts (gs.withHandle h e) (fs.withHandle h e) :=
  ⟨⟨L.covers.reserved, L.covers.marked⟩, by rw [L.eq]; rfl⟩

theorem Lifts.setFat (hb : ¬V.Hides b) : V.Lifts (gs.setFat b v) (fs.setFat b v) := by
  obtain ⟨K, rfl⟩ := L
  refine ⟨⟨fun j hj ↦ ?_, K.marked⟩, ?_⟩
  · have hne : j.val ≠ b := fun h ↦ hb (h ▸ hj)
    show (if j.val = b then v else gs.fat j) = _
    rw [if_neg hne, K.reserved j hj]
  · have hfat : (V.lift gs).fat.set b v = (V.lift (gs.setFat b v)).fat := by
      funext j
      show (if j.val = b then v else if V.Hides j then V.fat j else gs.fat j) =
        if V.Hides j then V.fat j else if j.val = b then v else gs.fat j
      split_ifs with h₁ h₂
      · exact absurd (h₁ ▸ h₂) hb
      all_goals rfl
    rw [FileSystem.setFat, hfat]
    rfl

theorem Lifts.withEntry (hi : ¬V.Nameless i) : V.Lifts (gs.withEntry i d) (fs.withEntry i d) := by
  obtain ⟨K, rfl⟩ := L
  refine ⟨⟨K.reserved, fun k hk ↦ ?_⟩, ?_⟩
  · have hne : k ≠ i := fun h ↦ hi (h ▸ hk)
    exact (update_of_ne hne _ _).trans (K.marked k hk)
  · have hdirectory :
        update (V.lift gs).rootDirectory i d = (V.lift (gs.withEntry i d)).rootDirectory := by
      funext k
      show _ = if V.Nameless k then V.directory k else update gs.rootDirectory i d k
      rcases eq_or_ne k i with rfl | hk
      · rw [update_self, if_neg hi, update_self]
      · rw [update_of_ne hk, update_of_ne hk]
        rfl
    rw [FileSystem.withEntry, hdirectory]
    rfl

theorem Lifts.clear (hl : ∀ b ∈ l, ¬V.Hides b) :
    V.Lifts { gs with fat := gs.fat.clear l } { fs with fat := fs.fat.clear l } := by
  obtain ⟨K, rfl⟩ := L
  refine ⟨⟨fun j hj ↦ ?_, K.marked⟩, ?_⟩
  · have hmem : j.val ∉ l := fun h ↦ hl _ h hj
    show (if j.val ∈ l then freeFatEntry else gs.fat j) = _
    rw [if_neg hmem, K.reserved j hj]
  · have hfat : (V.lift gs).fat.clear l = (V.lift { gs with fat := gs.fat.clear l }).fat := by
      funext j
      show (if j.val ∈ l then freeFatEntry else if V.Hides j then V.fat j else gs.fat j) =
        if V.Hides j then V.fat j else if j.val ∈ l then freeFatEntry else gs.fat j
      split_ifs with h₁ h₂
      · exact absurd h₂ (hl _ h₁)
      all_goals rfl
    rw [hfat]
    rfl

end Updates

section Calls

theorem agree_createFile (L : V.Lifts gs fs) (hn : name.Fits) : Agree (fun _ ↦ False) V.Lifts
    ((createFile h name mode).run gs) ((createFile h name mode).run fs) := by
  obtain ⟨K, rfl⟩ := L
  have hempty : (Fin.find? fun i ↦ ((V.lift gs).rootDirectory i).inUse = 0) =
      Fin.find? fun i ↦ (gs.rootDirectory i).inUse = 0 := by simp only [K.empty_iff]
  cases hi : Fin.find? fun i ↦ (gs.rootDirectory i).inUse = 0 with
  | none =>
    simp only [createFile, EStateM.run_bind, EStateM.run_get, hempty, hi]
    exact .throw fun _ ↦ ⟨K, rfl⟩
  | some i =>
    cases hj : gs.fat.firstFree with
    | none =>
      simp only [createFile, EStateM.run_bind, EStateM.run_get, hempty, hi, K.firstFree, hj]
      exact .throw fun _ ↦ ⟨K, rfl⟩
    | some j =>
      have hi0 := Directory.empty_of_find hi
      have hj0 := (FatTable.firstFree_eq_some hj).1
      have hnameless : ¬V.Nameless i := K.not_nameless (by simp [hi0])
      have hhides : ¬V.Hides j := K.not_hides (by simp [hj0])
      rw [createFile_run hn hi hj, createFile_run hn (hempty.trans hi) (K.firstFree.trans hj)]
      have hcreated (fs : FileSystem) (he : fs.rootDirectory i = gs.rootDirectory i) :
        created fs i j name =
          (fs.setFat j eofFatEntry).withEntry i ((created gs i j name).rootDirectory i) := by
        simp only [created, he, update_self]
        rfl
      rw [hcreated gs rfl, hcreated (V.lift gs) (if_neg hnameless)]
      exact .ok () (Lifts.withEntry (Lifts.setFat ⟨K, rfl⟩ hhides) hnameless).withHandle

theorem agree_openEntry (L : V.Lifts gs fs) (C : Consistent gs chain)
    (hu : (gs.rootDirectory i).inUse = 1) :
    Agree (fun _ ↦ False) V.Lifts ((openEntry h i mode).run gs) ((openEntry h i mode).run fs) := by
  obtain ⟨K, rfl⟩ := L
  obtain ⟨hl, hl', -, hi⟩ := K.file C hu
  have hentry : (V.lift gs).rootDirectory i = gs.rootDirectory i := lift_other hi
  have hfuel : (chain i).length ≤ loopBound := hl.length_le.trans (by decide)
  unfold openEntry
  apply Agree.get
  rw [hentry]
  cases mode with
  | READ => exact .ok () (Lifts.withHandle ⟨K, rfl⟩)
  | WRITE =>
    have hlast :
        ∀ e, (lastBlock loopBound (gs.rootDirectory i).startingBlock).run (gs.withHandle h e) =
        .ok _ _ := fun e ↦ lastBlock_run (show (gs.withHandle h e).fat.Chain _ _ from hl) hfuel
    have hlast' : ∀ e, (lastBlock loopBound (gs.rootDirectory i).startingBlock).run
        ((V.lift gs).withHandle h e) = .ok _ _ := fun e ↦
      lastBlock_run (show ((V.lift gs).withHandle h e).fat.Chain _ _ from hl') hfuel
    simp only [EStateM.run_bind, setHandle_run, hlast, hlast', EStateM.run_get]
    exact .ok () (Lifts.withHandle (Lifts.withHandle ⟨K, rfl⟩))

theorem agree_open (L : V.Lifts gs fs) (C : Consistent gs chain) (hn : name.Fits) :
    Agree (fun _ ↦ False) V.Lifts ((FileSystem.open name mode).run gs)
      ((FileSystem.open name mode).run fs) := by
  have hhandles : fs.handleTable = gs.handleTable := by rw [L.eq]; rfl
  have hlookup : fs.rootDirectory.lookup name = gs.rootDirectory.lookup name := by
    rw [L.eq, L.covers.lookup hn]
  unfold FileSystem.open
  apply Agree.get
  rw [hhandles]
  cases Fin.find? fun h ↦ (gs.handleTable h).inUse = false with
  | none => exact .throw fun _ ↦ L
  | some h =>
    simp only [EStateM.run_bind, findEntry_run hn, hlookup]
    cases hl : gs.rootDirectory.lookup name with
    | none =>
      by_cases hm : mode = .READ
      · simp only [hm, ↓reduceIte]
        exact .throw fun _ ↦ L
      · simp only [hm, ↓reduceIte]
        exact (agree_createFile L hn).seq fun _ _ _ L ↦ .pure L
    | some i => exact (agree_openEntry L C (C.of_lookup hn hl).1).seq fun _ _ _ L ↦ .pure L

theorem agree_truncate (L : V.Lifts gs fs) (C : Consistent gs chain) (hn : name.Fits) :
    Agree (fun _ ↦ False) V.Lifts ((truncate name).run gs) ((truncate name).run fs) := by
  obtain ⟨K, rfl⟩ := L
  cases hl : gs.rootDirectory.lookup name with
  | none =>
    rw [truncate_run_absent hn hl, truncate_run_absent hn ((K.lookup hn).trans hl)]
    exact .ok () ⟨K, rfl⟩
  | some i =>
    obtain ⟨hchain, hchain', hhides, hi⟩ := K.file C (C.of_lookup hn hl).1
    have hentry : (V.lift gs).rootDirectory i = gs.rootDirectory i := lift_other hi
    have hstart := hchain.start_mem
    simp only [truncate, EStateM.run_bind, findEntry_run hn, K.lookup hn, hl, EStateM.run_get,
      hentry, freeChain_links hchain, freeChain_links hchain', fatSet_run (hchain.lt _ hstart),
      setEntry_run]
    exact .ok () (((Lifts.clear ⟨K, rfl⟩ hhides).setFat (hhides _ hstart)).withEntry hi)

theorem agree_remove (L : V.Lifts gs fs) (C : Consistent gs chain) (hn : name.Fits) :
    Agree (fun _ ↦ False) V.Lifts ((remove name).run gs) ((remove name).run fs) := by
  obtain ⟨K, rfl⟩ := L
  cases hl : gs.rootDirectory.lookup name with
  | none =>
    rw [remove_run_absent hn hl, remove_run_absent hn ((K.lookup hn).trans hl)]
    exact .ok () ⟨K, rfl⟩
  | some i =>
    obtain ⟨hchain, hchain', hhides, hi⟩ := K.file C (C.of_lookup hn hl).1
    have hentry : (V.lift gs).rootDirectory i = gs.rootDirectory i := lift_other hi
    simp only [remove, EStateM.run_bind, findEntry_run hn, K.lookup hn, hl, EStateM.run_get, hentry,
      freeChain_links hchain, freeChain_links hchain', setEntry_run]
    exact .ok () ((Lifts.clear ⟨K, rfl⟩ hhides).withEntry hi)

theorem agree_close {handle : ℤ} (L : V.Lifts gs fs) :
    Agree (fun _ ↦ False) V.Lifts ((close handle).run gs) ((close handle).run fs) := by
  have hhandles : fs.handleTable = gs.handleTable := by rw [L.eq]; rfl
  have hflag : fs.formattedFlag = gs.formattedFlag := by rw [L.eq]; rfl
  unfold close
  apply Agree.get
  rw [hhandles, hflag]
  refine .ite (fun _ ↦ .throw fun _ ↦ L) fun _ ↦ .ite (fun _ ↦ .throw fun _ ↦ L) fun _ ↦ ?_
  refine .ite (fun _ ↦ .throw fun _ ↦ L) fun _ ↦ ?_
  split
  · exact .ite (fun _ ↦ .throw fun _ ↦ L) fun _ ↦ .ok () L.withHandle
  · exact .throw fun _ ↦ L

theorem agree_read {handle count : ℤ} (L : V.Lifts gs fs) (C : Consistent gs chain)
    (hcount : 0 ≤ count) : Agree (fun _ ↦ False) V.Lifts ((FileSystem.read handle count).run gs)
      ((FileSystem.read handle count).run fs) := by
  by_cases hrange : 0 ≤ handle ∧ handle < handleTableSize
  · obtain ⟨h, rfl⟩ := held_of_range hrange
    by_cases hno : (gs.handleTable h).inUse = false ∨ (gs.handleTable h).mode ≠ .READ
    · have hthrows (fs : FileSystem) (hh : fs.handleTable = gs.handleTable) :
          (FileSystem.read h count).run fs =
            .error (.thrown "FileSystem::read() -- Handle not opened for reading") fs := by
        simp only [FileSystem.read, dif_pos hrange, EStateM.run_bind, EStateM.run_get,
          handle_eq, hh, if_pos hno, throw_run]
      rw [hthrows gs rfl, hthrows fs (by rw [L.eq]; rfl)]
      exact .error _ fun _ ↦ L
    · obtain ⟨K, rfl⟩ := L
      obtain ⟨hu, hm⟩ : (gs.handleTable h).inUse = true ∧ (gs.handleTable h).mode = .READ := by
        simpa using hno
      have H := C.handles h hu
      have hsize := H.le_size
      have ho := (Int.toNat_of_nonneg H.nonneg).symm
      obtain ⟨hl, hl', -, hindex⟩ := K.file C H.inUse
      have hentry : (V.lift gs).rootDirectory (gs.handleTable h).directoryIndex =
          gs.rootDirectory (gs.handleTable h).directoryIndex := if_neg hindex
      have hdev : ∀ b ∈ chain (gs.handleTable h).directoryIndex, b < gs.theDisk.blockCount :=
          fun b hb ↦
        (C.layout.lt_of_mem hb).trans_le C.device
      have hlength : ∀ k : ℕ, (k : ℤ) ≤ (gs.rootDirectory (gs.handleTable h).directoryIndex).size →
          k / 1024 < (chain (gs.handleTable h).directoryIndex).length := fun k hk ↦
        C.layout.index_lt H.inUse hk
      have hread := read_links hl hu hm rfl hcount ho rfl (by omega) hdev H.block hlength
      have hread' := read_links hl' hu hm rfl hcount ho rfl
        (by rw [show (V.lift gs).handleTable = gs.handleTable from rfl, hentry]; omega) hdev H.block
        (by rw [show (V.lift gs).handleTable = gs.handleTable from rfl, hentry]; exact hlength)
      rw [show (V.lift gs).handleTable = gs.handleTable from rfl, hentry] at hread'
      rw [hread, hread']
      exact .ok _ (Lifts.withHandle ⟨K, rfl⟩)
  · have hthrows (fs : FileSystem) : (FileSystem.read handle count).run fs =
        .error (.thrown "FileSystem::read() -- Invalid handle") fs := by
      simp only [FileSystem.read, dif_neg hrange, throw_run]
    rw [hthrows, hthrows]
    exact .error _ fun _ ↦ L

/-- A writer stays in a file that is not hidden. -/
structure Writes (V : Veil) (h : Fin handleTableSize) (gs fs : FileSystem) : Prop where
  lifts : V.Lifts gs fs
  current : ¬V.Hides (gs.handleTable h).currentBlock
  index : ¬V.Nameless (gs.handleTable h).directoryIndex

theorem Writes.handle (W : V.Writes h gs fs) : fs.handleTable = gs.handleTable := by
  rw [W.lifts.eq]
  rfl

section Writing

variable (W : V.Writes h gs fs)

include W

theorem Writes.withHandle (hcurrent : ¬V.Hides e.currentBlock)
    (hindex : ¬V.Nameless e.directoryIndex) :
    V.Writes h (gs.withHandle h e) (fs.withHandle h e) :=
  ⟨W.lifts.withHandle, by simpa using hcurrent, by simpa using hindex⟩

theorem agree_freeSpace :
    Agree (fun _ ↦ False) (V.Writes h) (freeSpace.run gs) (freeSpace.run fs) := by
  have hflag : fs.formattedFlag = gs.formattedFlag := by rw [W.lifts.eq]; rfl
  have hcount : FileSystem.freeCount fs.fat = FileSystem.freeCount gs.fat := by
    rw [W.lifts.eq, W.lifts.covers.freeCount]
  unfold freeSpace
  apply Agree.get
  rw [hflag, hcount]
  exact .ite (fun _ ↦ .throw fun _ ↦ W) fun _ ↦ .pure W

theorem agree_diskRead :
    Agree (fun _ ↦ False) (V.Writes h) ((diskRead b).run gs) ((diskRead b).run fs) := by
  have hdisk : fs.theDisk = gs.theDisk := by rw [W.lifts.eq]; rfl
  unfold diskRead
  apply Agree.get
  rw [hdisk]
  cases gs.theDisk.read b with
  | ok buffer => exact .ok buffer W
  | error e => exact .error e fun _ ↦ W

theorem agree_diskWrite :
    Agree (fun _ ↦ False) (V.Writes h) ((diskWrite b buffer).run gs)
      ((diskWrite b buffer).run fs) := by
  have hdisk : fs.theDisk = gs.theDisk := by rw [W.lifts.eq]; rfl
  unfold diskWrite
  apply Agree.get
  rw [hdisk]
  cases gs.theDisk.write b buffer with
  | error e => exact .error e fun _ ↦ W
  | ok disk =>
    refine .modify ⟨⟨⟨W.lifts.covers.reserved, W.lifts.covers.marked⟩, ?_⟩, W.current, W.index⟩
    rw [W.lifts.eq]
    rfl

theorem agree_fatSet (hb : ¬V.Hides b) :
    Agree (fun _ ↦ False) (V.Writes h) ((fatSet b v).run gs) ((fatSet b v).run fs) := by
  unfold fatSet
  exact .ite (fun _ ↦ .modify ⟨W.lifts.setFat hb, W.current, W.index⟩) fun _ ↦ .throw fun _ ↦ W

theorem agree_nextBlock :
    Agree (fun _ ↦ False) (V.Writes h) ((nextBlock h buffer).run gs)
      ((nextBlock h buffer).run fs) := by
  unfold nextBlock
  apply Agree.get
  have hcurrent := W.current
  have hindex := W.index
  rw [W.handle]
  generalize gs.handleTable h = e at hcurrent hindex
  refine (agree_diskWrite W).seq fun _ gs fs W ↦ ?_
  apply Agree.get
  have hfirst : fs.fat.firstFree = gs.fat.firstFree := by rw [W.lifts.eq, W.lifts.covers.firstFree]
  rw [hfirst]
  cases hj : gs.fat.firstFree with
  | none => exact .throw fun _ ↦ W
  | some j =>
    have hj0 := (FatTable.firstFree_eq_some hj).1
    have hhides : ¬V.Hides j := W.lifts.covers.not_hides (by simp [hj0])
    refine (agree_fatSet W hcurrent).seq fun _ gs fs W ↦
      (agree_fatSet W hhides).seq fun _ gs fs W ↦ ?_
    exact .ok () (W.withHandle hhides hindex)

theorem agree_writeLoop {bytes : List UInt8} {bo bc : ℤ} :
    Agree (fun _ ↦ False) (V.Writes h) ((writeLoop h n bytes buffer bo bc).run gs)
      ((writeLoop h n bytes buffer bo bc).run fs) := by
  induction n generalizing gs fs bytes buffer bo bc with
  | zero =>
    simp only [writeLoop]
    exact .pure W
  | succ n ih =>
    cases bytes with
    | nil => exact .throw fun _ ↦ W
    | cons c bytes =>
      simp only [writeLoop]
      have hset : Agree (fun _ ↦ False) (V.Writes h) ((bufferSet buffer bo c).run gs)
          ((bufferSet buffer bo c).run fs) := by
        unfold bufferSet
        split
        · exact .pure W
        · exact .throw fun _ ↦ W
      refine hset.seq fun block gs fs W ↦ ?_
      apply Agree.get
      have hcurrent := W.current
      have hindex := W.index
      rw [W.handle]
      generalize gs.handleTable h = e at hcurrent hindex
      refine Agree.seq (.ok () (W.withHandle hcurrent hindex)) fun _ gs fs W ↦ ?_
      apply Agree.get
      have hentry : fs.rootDirectory e.directoryIndex = gs.rootDirectory e.directoryIndex := by
        rw [W.lifts.eq]
        exact if_neg hindex
      rw [hentry]
      refine Agree.seq (.ok () ⟨W.lifts.withEntry hindex, W.current, W.index⟩) fun _ gs fs W ↦ ?_
      exact .ite (fun _ ↦ (agree_nextBlock W).seq fun _ gs fs W ↦ ih W) fun _ ↦ ih W

end Writing

theorem agree_write {handle count : ℤ} {bytes : List UInt8} (L : V.Lifts gs fs)
    (C : Consistent gs chain) :
    Agree (fun _ ↦ False) V.Lifts ((FileSystem.write handle bytes count).run gs)
      ((FileSystem.write handle bytes count).run fs) := by
  have hhandles : fs.handleTable = gs.handleTable := by rw [L.eq]; rfl
  unfold FileSystem.write
  split
  · next hrange =>
    apply Agree.get
    generalize (⟨handle.toNat, (Int.toNat_lt hrange.1).mpr hrange.2⟩ : Fin handleTableSize) = h
    simp only [hhandles]
    by_cases hno : (gs.handleTable h).inUse = false ∨ (gs.handleTable h).mode ≠ .WRITE
    · rw [if_pos hno, if_pos hno]
      exact .throw fun _ ↦ L
    · have hu : (gs.handleTable h).inUse = true := by simp_all
      have H := C.handles h hu
      obtain ⟨-, -, hhides, hindex⟩ := L.covers.file C H.inUse
      have hmem : (gs.handleTable h).currentBlock ∈ chain (gs.handleTable h).directoryIndex := by
        have hlt := C.layout.index_lt H.inUse (o := (gs.handleTable h).offset.toNat) (by
          have hle := H.le_size
          have hnonneg := H.nonneg
          omega)
        rw [← H.block, List.getD_eq_getElem _ 0 hlt]
        exact List.getElem_mem hlt
      have W : V.Writes h gs fs := ⟨L, hhides _ hmem, hindex⟩
      have hentry : fs.rootDirectory (gs.handleTable h).directoryIndex =
          gs.rootDirectory (gs.handleTable h).directoryIndex := by
        rw [L.eq]
        exact if_neg hindex
      rw [if_neg hno, if_neg hno, hentry]
      have hlifts : ∀ s t, V.Writes h s t → V.Lifts s t := fun _ _ W ↦ W.lifts
      refine (agree_freeSpace W).bind hlifts fun space gs fs W ↦
        .ite (fun _ ↦ .pure W.lifts) fun _ ↦ ?_
      refine (agree_diskRead W).bind hlifts fun block gs fs W ↦ ?_
      refine (agree_writeLoop W).bind hlifts fun block gs fs W ↦ ?_
      apply Agree.get
      rw [W.handle]
      exact (agree_diskWrite W).bind hlifts fun _ gs fs W ↦ .pure W.lifts
  · exact .throw fun _ ↦ L

end Calls

section Accepted

theorem lift_hidden (hi : V.Nameless i) (hb : b ∈ V.chain i) :
    (V.lift gs).fat.entry b = V.fat.entry b := by
  have hlt := (V.accounted.links i hi.1).lt b hb
  rw [FatTable.entry_of_lt hlt, FatTable.entry_of_lt hlt]
  exact congrArg some (if_pos ⟨i, hi, hb⟩)

/-- With the hidden files the blocks are accounted for if they are without them. -/
theorem Covers.accounted (K : V.Covers gs) (A : Accounted gs.fat gs.rootDirectory chain) :
    Accounted (V.lift gs).fat (V.lift gs).rootDirectory
      fun i ↦ if V.Nameless i then V.chain i else chain i := by
  have happart :
      ∀ i j, V.Nameless i → (gs.rootDirectory j).inUse = 1 → (V.chain i).Disjoint (chain j) :=
    fun i j hi hj b hbi hbj ↦ K.not_hides_entry (A.busy j hj b hbj).2 ⟨i, hi, hbi⟩
  refine ⟨fun i hu ↦ ?_, fun i hu ↦ ?_, fun i hu ↦ ?_, fun i j hui huj hij ↦ ?_, fun i hu b hb ↦ ?_,
    fun b v hb h0 h1 ↦ ?_⟩
  · by_cases hi : V.Nameless i
    · rw [lift_nameless hi, if_pos hi]
      exact Links.congr (V.accounted.links i hi.1) fun b hb ↦ lift_hidden hi hb
    · rw [lift_other hi] at hu ⊢
      rw [if_neg hi]
      exact K.links (A.links i hu) fun b hb ↦ (A.busy i hu b hb).2
  · by_cases hi : V.Nameless i
    · rw [lift_nameless hi, if_pos hi]
      exact V.accounted.length i hi.1
    · rw [lift_other hi] at hu ⊢
      rw [if_neg hi]
      exact A.length i hu
  · by_cases hi : V.Nameless i
    · rw [if_pos hi]
      exact V.accounted.nodup i hi.1
    · rw [lift_other hi] at hu
      rw [if_neg hi]
      exact A.nodup i hu
  · by_cases hi : V.Nameless i <;> by_cases hj : V.Nameless j
    · rw [if_pos hi, if_pos hj]
      exact V.accounted.disjoint i j hi.1 hj.1 hij
    · rw [lift_other hj] at huj
      rw [if_pos hi, if_neg hj]
      exact happart i j hi huj
    · rw [lift_other hi] at hui
      rw [if_neg hi, if_pos hj]
      exact (happart j i hj hui).symm
    · rw [lift_other hi] at hui
      rw [lift_other hj] at huj
      rw [if_neg hi, if_neg hj]
      exact A.disjoint i j hui huj hij
  · by_cases hi : V.Nameless i
    · rw [if_pos hi] at hb
      rw [lift_hidden hi hb]
      exact V.accounted.busy i hi.1 b hb
    · rw [lift_other hi] at hu
      rw [if_neg hi] at hb
      have hbusy := A.busy i hu b hb
      rwa [K.lift_entry hbusy.2]
  · by_cases hhides : V.Hides b
    · obtain ⟨i, hi, hmem⟩ := hhides
      exact ⟨i, by rw [lift_nameless hi, hi.1], by rwa [if_pos hi]⟩
    · have hlt := FatTable.entry_lt hb
      have hfat : (V.lift gs).fat ⟨b, hlt⟩ = gs.fat ⟨b, hlt⟩ := if_neg hhides
      rw [FatTable.entry_of_lt hlt, hfat, ← FatTable.entry_of_lt hlt] at hb
      obtain ⟨i, hu, hmem⟩ := A.covered b v hb h0 h1
      have hi : ¬V.Nameless i := K.not_nameless (by rw [hu]; decide)
      exact ⟨i, by rw [lift_other hi, hu], by rwa [if_neg hi]⟩

end Accepted

end Veil

end GenericFs.Fat
