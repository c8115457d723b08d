import GenericFs.Fat.Names

namespace GenericFs.Fat

open GenericFs.Library Chain Function FileSystem

def FatTable.clear (fat : FatTable) (l : List ℕ) : FatTable :=
  fun k ↦ if k.val ∈ l then freeFatEntry else fat k

variable {fs : FileSystem} {chain : Fin dirSize → List ℕ} {fat : FatTable} {d : Directory}
  {i : Fin dirSize} {a b fuel : ℕ} {l : List ℕ} {name : CString}

theorem FatTable.entry_clear_of_mem (hb : b ∈ l) (hlt : b < 512) :
    (fat.clear l).entry b = some 0 := by
  simp [FatTable.entry_of_lt hlt, FatTable.clear, hb]

theorem FatTable.entry_clear_of_notMem (hb : b ∉ l) : (fat.clear l).entry b = fat.entry b := by
  simp only [FatTable.entry, FatTable.clear, hb, ↓reduceIte]

theorem FatTable.clear_cons : fat.clear (a :: l) = (fat.set a freeFatEntry).clear l := by
  funext k
  by_cases hl : k.val ∈ l <;> by_cases ha :
    k.val = a <;> simp [FatTable.clear, FatTable.set, hl, ha]

theorem lastBlock_run (h : fs.fat.Chain a l) (hfuel : l.length ≤ fuel) :
    (lastBlock fuel a).run fs = .ok (l.getLast h.ne_nil) fs := by
  induction h generalizing fuel with
  | @last a ha =>
    obtain ⟨fuel, rfl⟩ : ∃ m, fuel = m + 1 := ⟨fuel - 1, by simp at hfuel; omega⟩
    simp [lastBlock, EStateM.run_bind, fatGet_run, ha]
  | @cons a c l hc hne ht ih =>
    obtain ⟨fuel, rfl⟩ : ∃ m, fuel = m + 1 := ⟨fuel - 1, by simp at hfuel; omega⟩
    have ht' := ih (by simpa using hfuel)
    simp only [lastBlock, EStateM.run_bind, fatGet_run, hc, hne, ↓reduceIte, ht',
      List.getLast_cons ht.ne_nil]

/-- The blocks of a chain are marked free one after the other. The entries
that are still to be followed lie ahead of the cleared ones. -/
theorem freeChain_run {entry : ℕ → Option ℕ} (h : Links entry eofFatEntry a l)
    (hentry : ∀ b ∈ l, fs.fat.entry b = entry b) (hfuel : l.length ≤ fuel) :
    (freeChain fuel a).run fs = .ok () { fs with fat := fs.fat.clear l } := by
  induction h generalizing fs fuel with
  | @last a ha =>
    obtain ⟨fuel, rfl⟩ : ∃ m, fuel = m + 1 := ⟨fuel - 1, by simp at hfuel; omega⟩
    have he := (hentry a (by simp)).trans ha
    have hclear : fs.fat.clear [a] = fs.fat.set a freeFatEntry := by
      funext k
      simp [FatTable.clear, FatTable.set]
    simp only [freeChain, EStateM.run_bind, fatGet_run, he, fatSet_run (FatTable.entry_lt he),
      ↓reduceIte, EStateM.run_pure, hclear]
    rfl
  | @cons a c l hc hne ht ih =>
    obtain ⟨fuel, rfl⟩ : ∃ m, fuel = m + 1 := ⟨fuel - 1, by simp at hfuel; omega⟩
    have ha : a ∉ l := (List.nodup_cons.mp (Links.cons hc hne ht).nodup).1
    have he := (hentry a (by simp)).trans hc
    have hkeep : ∀ b ∈ l, (fs.setFat a freeFatEntry).fat.entry b = entry b := fun b hb ↦ by
      rw [setFat_fields.2.2.1, FatTable.entry_set (FatTable.entry_lt he),
        update_of_ne (fun h : b = a ↦ ha (h ▸ hb)), hentry b (by simp [hb])]
    have ht' := ih hkeep (show l.length ≤ fuel by simpa using hfuel)
    simp only [freeChain, EStateM.run_bind, fatGet_run, he, fatSet_run (FatTable.entry_lt he), hne,
      ↓reduceIte, ht', FatTable.clear_cons]
    rfl

def startOffset (d : Directory) (i : Fin dirSize) : OpenMode → ℤ
  | .READ => 0
  | .WRITE => (d i).size

def newHandle (d : Directory) (chain : Fin dirSize → List ℕ) (i : Fin dirSize) (mode : OpenMode) :
    HandleTableEntry where
  offset := startOffset d i mode
  directoryIndex := i
  currentBlock := (chain i).getD ((startOffset d i mode).toNat / 1024) 0
  inUse := true
  mode := mode

def created (fs : FileSystem) (i : Fin dirSize) (j : Fin fatSize) (name : CString) : FileSystem :=
  { fs with
    fat := fs.fat.set j eofFatEntry
    rootDirectory := update fs.rootDirectory i
      { fs.rootDirectory i with
        name := copied (fs.rootDirectory i).name 0 name.bytes
        size := 0
        startingBlock := j
        inUse := 1 } }

theorem openEntry_run (C : Consistent fs chain) {h : Fin handleTableSize} {mode : OpenMode}
    (hu : (fs.rootDirectory i).inUse = 1) (hs : 0 ≤ (fs.rootDirectory i).size) :
    (openEntry h i mode).run fs =
      .ok () (fs.withHandle h (newHandle fs.rootDirectory chain i mode)) := by
  have L := C.layout.links hu
  cases mode with
  | READ =>
    have hstart : (chain i).getD 0 0 = (fs.rootDirectory i).startingBlock := by
      rw [List.getD_eq_getElem _ 0 L.length_pos, L.getElem_zero L.length_pos]
    simp only [openEntry, EStateM.run_bind, EStateM.run_get, setHandle_run, newHandle, startOffset,
      Int.toNat_zero, Nat.zero_div, hstart]
  | WRITE =>
    have hlast : (chain i).getLast L.ne_nil =
        (chain i).getD ((fs.rootDirectory i).size.toNat / 1024) 0 := by
      rw [List.getLast_eq_getElem, List.getD_eq_getElem _ 0 (C.layout.index_lt hu (by omega))]
      simp only [C.layout.length hu hs, Nat.add_sub_cancel]
    have hrun :
        ∀ e, (lastBlock loopBound (fs.rootDirectory i).startingBlock).run (fs.withHandle h e) =
        .ok ((chain i).getLast L.ne_nil) (fs.withHandle h e) := fun e ↦
      lastBlock_run (show (fs.withHandle h e).fat.Chain _ _ from L)
        (L.length_le.trans (show 512 ≤ loopBound by decide))
    simp [openEntry, EStateM.run_bind, hrun, newHandle, startOffset, hlast, withHandle_withHandle]

theorem createFile_run {h : Fin handleTableSize} {mode : OpenMode} (hn : name.Fits)
    {j : Fin fatSize} (hi : (Fin.find? fun i ↦ (fs.rootDirectory i).inUse = 0) = some i)
    (hj : fs.fat.firstFree = some j) : (createFile h name mode).run fs =
      .ok () ((created fs i j name).withHandle h
        { offset := 0, directoryIndex := i, currentBlock := j, inUse := true, mode }) := by
  have hcpy : ∀ d : Directory, d.strcpy (32 * i) name.bytes =
      some (update d i { d i with name := copied (d i).name 0 name.bytes }) := fun d ↦
    Directory.strcpy_eq (k := 0) (by omega)
  simp only [createFile, EStateM.run_bind, EStateM.run_get, hi, hj, fatSet_run j.isLt, setEntry_run,
    withEntry_fields, setFat_fields, hcpy, modify_run, setHandle_run, update_idem, update_self]
  rfl

theorem Directory.empty_of_find (hi : (Fin.find? fun i ↦ (d i).inUse = 0) = some i) :
    (d i).inUse = 0 := by
  simpa using (Fin.find?_eq_some_iff.mp hi).1

theorem handle_of_find {h : Fin handleTableSize}
    (hh : (Fin.find? fun h ↦ (fs.handleTable h).inUse = false) = some h) :
    (fs.handleTable h).inUse = false := by
  simpa using (Fin.find?_eq_some_iff.mp hh).1

/-- How `open` ends: it throws and leaves the object as it was, or it finds the
file, or it creates one in a free slot and the first free block. -/
inductive Opening (fs : FileSystem) (chain : Fin dirSize → List ℕ) (name : CString)
    (mode : OpenMode) : EStateM.Result Fault FileSystem ℤ → Prop
  | noHandle (m : String) (hh : ∀ h, (fs.handleTable h).inUse = true) :
      Opening fs chain name mode (.error (.thrown m) fs)
  | absent (m : String) (hl : fs.rootDirectory.lookup name = none)
      (hno : mode = .READ ∨ (∀ i, (fs.rootDirectory i).inUse ≠ 0) ∨ freeCount fs.fat = 0) :
      Opening fs chain name mode (.error (.thrown m) fs)
  | found (h : Fin handleTableSize) (i : Fin dirSize) (hh : (fs.handleTable h).inUse = false)
      (hl : fs.rootDirectory.lookup name = some i) :
      Opening fs chain name mode (.ok h (fs.withHandle h (newHandle fs.rootDirectory chain i mode)))
  | created (h : Fin handleTableSize) (i : Fin dirSize) (j : Fin fatSize)
      (hh : (fs.handleTable h).inUse = false) (hl : fs.rootDirectory.lookup name = none)
      (hm : mode = .WRITE) (hi : (fs.rootDirectory i).inUse = 0) (hj : fs.fat j = 0) :
      Opening fs chain name mode (.ok h ((created fs i j name).withHandle h
        { offset := 0, directoryIndex := i, currentBlock := j, inUse := true, mode }))

theorem Consistent.of_lookup (C : Consistent fs chain) (hn : name.Fits)
    (h : fs.rootDirectory.lookup name = some i) :
    (fs.rootDirectory i).inUse = 1 ∧ 0 ≤ (fs.rootDirectory i).size := by
  have H := Directory.holds_of_lookup h
  exact (C.layout.usable i (H.named hn)).resolve_left H.1

theorem open_run (C : Consistent fs chain) (hn : name.Fits) (mode : OpenMode) :
    Opening fs chain name mode ((FileSystem.open name mode).run fs) := by
  simp only [FileSystem.open, EStateM.run_bind, EStateM.run_get]
  cases hh : Fin.find? fun h ↦ (fs.handleTable h).inUse = false with
  | none => exact .noHandle _ (by simpa using Fin.find?_eq_none_iff.mp hh)
  | some h =>
    have hfree := handle_of_find hh
    simp only [EStateM.run_bind, findEntry_run hn]
    cases hl : fs.rootDirectory.lookup name with
    | some i =>
      obtain ⟨hu, hs⟩ := C.of_lookup hn hl
      simp only [EStateM.run_bind, openEntry_run C hu hs]
      exact .found h i hfree hl
    | none =>
      cases mode with
      | READ => exact .absent _ hl (.inl rfl)
      | WRITE =>
        simp only [reduceCtorEq, ↓reduceIte]
        cases hi : Fin.find? fun i ↦ (fs.rootDirectory i).inUse = 0 with
        | none =>
          simp only [createFile, EStateM.run_bind, EStateM.run_get, hi]
          exact .absent _ hl (.inr (.inl (by simpa using Fin.find?_eq_none_iff.mp hi)))
        | some i =>
          cases hj : fs.fat.firstFree with
          | none =>
            simp only [createFile, EStateM.run_bind, EStateM.run_get, hi, hj]
            exact .absent _ hl (.inr (.inr (FatTable.freeCount_eq_zero hj)))
          | some j =>
            simp only [EStateM.run_bind, createFile_run hn hi hj]
            exact .created h i j hfree hl rfl (Directory.empty_of_find hi)
              (FatTable.firstFree_eq_some hj).1

theorem open_found (C : Consistent fs chain) (hn : name.Fits)
    (hl : fs.rootDirectory.lookup name = some i) (hfree : ∃ h, (fs.handleTable h).inUse = false)
    (mode : OpenMode) : ∃ h, (fs.handleTable h).inUse = false ∧
      (FileSystem.open name mode).run fs =
        .ok h (fs.withHandle h (newHandle fs.rootDirectory chain i mode)) := by
  obtain ⟨h₀, hh₀⟩ := hfree
  have hopen := open_run C hn mode
  generalize (FileSystem.open name mode).run fs = res at hopen
  cases hopen with
  | noHandle m hh => simp [hh h₀] at hh₀
  | absent m hl' hno => simp [hl] at hl'
  | created h i j hh hl' hm hi hj => simp [hl] at hl'
  | found h k hh hl' =>
    obtain rfl := Option.some.inj (hl.symm.trans hl')
    exact ⟨h, hh, .refl _⟩

def released (fs : FileSystem) (chain : Fin dirSize → List ℕ) (i : Fin dirSize)
    (e : DirectoryEntry) : FileSystem :=
  { fs with fat := fs.fat.clear (chain i), rootDirectory := update fs.rootDirectory i e }

/-- The search for the name, which may be one of any length, ends at the entry `i`. -/
def Directory.Finds (d : Directory) (name : CString) (i : Fin dirSize) : Prop :=
  findName d name (List.finRange dirSize) = .ok (some i)

theorem Directory.finds_of_lookup (hn : name.Fits) (h : d.lookup name = some i) :
    d.Finds name i :=
  (findName_eq hn _).trans (congrArg Except.ok h)

theorem findEntry_finds (h : fs.rootDirectory.Finds name i) :
    (findEntry name).run fs = .ok (some i) fs := by
  rw [Directory.Finds] at h
  simp only [findEntry, EStateM.run_bind, EStateM.run_get, h, EStateM.run_pure]

theorem freeChain_links (L : fs.fat.Chain a l) :
    (freeChain loopBound a).run fs = .ok () { fs with fat := fs.fat.clear l } :=
  freeChain_run L (fun _ _ ↦ rfl) (show l.length ≤ loopBound from L.length_le.trans (by decide))

theorem remove_finds (C : Consistent fs chain) (h : fs.rootDirectory.Finds name i)
    (hu : (fs.rootDirectory i).inUse = 1) : (remove name).run fs =
      .ok () (released fs chain i { fs.rootDirectory i with inUse := 0 }) := by
  simp only [remove, EStateM.run_bind, findEntry_finds h, EStateM.run_get,
    freeChain_links (C.layout.links hu), setEntry_run]
  rfl

theorem truncate_finds (C : Consistent fs chain) (h : fs.rootDirectory.Finds name i)
    (hu : (fs.rootDirectory i).inUse = 1) : (truncate name).run fs =
      .ok () ((released fs chain i { fs.rootDirectory i with size := 0 }).setFat
        (fs.rootDirectory i).startingBlock eofFatEntry) := by
  have L := C.layout.links hu
  have hlt := L.lt _ L.start_mem
  simp only [truncate, EStateM.run_bind, findEntry_finds h, EStateM.run_get, freeChain_links L,
    fatSet_run hlt, setEntry_run]
  rfl

theorem remove_run (C : Consistent fs chain) (hn : name.Fits)
    (h : fs.rootDirectory.lookup name = some i) : (remove name).run fs =
      .ok () (released fs chain i { fs.rootDirectory i with inUse := 0 }) :=
  remove_finds C (Directory.finds_of_lookup hn h) (C.of_lookup hn h).1

theorem truncate_run (C : Consistent fs chain) (hn : name.Fits)
    (h : fs.rootDirectory.lookup name = some i) : (truncate name).run fs =
      .ok () ((released fs chain i { fs.rootDirectory i with size := 0 }).setFat
        (fs.rootDirectory i).startingBlock eofFatEntry) :=
  truncate_finds C (Directory.finds_of_lookup hn h) (C.of_lookup hn h).1

theorem remove_run_absent (hn : name.Fits) (h : fs.rootDirectory.lookup name = none) :
    (remove name).run fs = .ok () fs := by
  simp only [remove, EStateM.run_bind, findEntry_run hn, h, EStateM.run_pure]

theorem truncate_run_absent (hn : name.Fits) (h : fs.rootDirectory.lookup name = none) :
    (truncate name).run fs = .ok () fs := by
  simp only [truncate, EStateM.run_bind, findEntry_run hn, h, EStateM.run_pure]

section Layout

variable {chain : Fin dirSize → List ℕ} {e : DirectoryEntry} {j : ℕ}

theorem Directory.start_update : Directory.start (update d i e) =
    update d.start i (if e.inUse = 1 then some e.startingBlock else none) := by
  funext k
  rcases eq_or_ne k i with rfl | hk
  · simp [Directory.start]
  · simp [Directory.start, hk]

theorem Layout.release (L : Layout fat d chain) (he : e.inUse = 0) :
    Layout (fat.clear (chain i)) (update d i e) (update chain i []) where
  allotment := by
    rw [Directory.start_update, if_neg (by simp [he])]
    exact L.allotment.release i (f := freeFatEntry) (by simp)
      (fun b hb ↦ FatTable.entry_clear_of_mem hb (L.lt_of_mem hb))
      fun b hb ↦ FatTable.entry_clear_of_notMem hb
  reserved b hb := by
    rw [FatTable.entry_clear_of_notMem fun h ↦ (by have := L.three_le_of_mem h; omega),
      L.reserved b hb]
  usable k := by
    rcases eq_or_ne k i with rfl | hk
    · rw [update_self]
      exact fun _ ↦ .inl he
    · rw [update_of_ne hk]
      exact L.usable k
  blocks k hk := by
    have hki : k ≠ i := by rintro rfl; simp [he] at hk
    rw [update_of_ne hki] at hk ⊢
    rw [update_of_ne hki]
    exact L.blocks k hk

theorem Layout.create (L : Layout fat d chain) (hi : (d i).inUse ≠ 1) (hj : fat.entry j = some 0)
    (he : e.inUse = 1) (hs : e.size = 0) (hb : e.startingBlock = j) :
    Layout (fat.set j eofFatEntry) (update d i e) (update chain i [j]) where
  allotment := by
    rw [Directory.start_update, if_pos he, hb, FatTable.entry_set (FatTable.entry_lt hj)]
    exact L.allotment.create (by simp) hj (by simp) (by simp [Directory.start, hi])
  reserved b hb := by
    have hj3 := L.three_le_of_free hj
    rw [FatTable.entry_set (FatTable.entry_lt hj), update_of_ne (by omega), L.reserved b hb]
  usable k := by
    rcases eq_or_ne k i with rfl | hk
    · rw [update_self]
      exact fun _ ↦ .inr ⟨he, hs.ge⟩
    · rw [update_of_ne hk]
      exact L.usable k
  blocks k hk := by
    rcases eq_or_ne k i with rfl | hki
    · simp [hs]
    · rw [update_of_ne hki] at hk ⊢
      rw [update_of_ne hki]
      exact L.blocks k hk

end Layout

def Closed (fs : FileSystem) (i : Fin dirSize) : Prop :=
  ∀ h, (fs.handleTable h).inUse = true → (fs.handleTable h).directoryIndex ≠ i

theorem Consistent.closed (C : Consistent fs chain) (hi : (fs.rootDirectory i).inUse = 0) :
    Closed fs i := by
  rintro h hu rfl
  simp [(C.handles h hu).inUse] at hi

/-- Changing an entry that no handle belongs to, and with it the layout. -/
theorem Consistent.rewrite (C : Consistent fs chain) (hc : Closed fs i) {e : DirectoryEntry}
    {m : List ℕ} (L : Layout fat (update fs.rootDirectory i e) (update chain i m)) :
    Consistent { fs with fat := fat, rootDirectory := update fs.rootDirectory i e }
      (update chain i m) where
  formatted := C.formatted
  device := C.device
  layout := L
  handles h hu := (C.handles h hu).frame (hc h hu)

theorem Consistent.created (C : Consistent fs chain) (hi : (fs.rootDirectory i).inUse = 0)
    {j : Fin fatSize} (hj : fs.fat j = 0) :
    Consistent (created fs i j name) (update chain i [j.val]) :=
  C.rewrite (C.closed hi)
  (C.layout.create (by simp [hi]) (by rw [FatTable.entry_val, hj]) rfl rfl rfl)

theorem Consistent.removed (C : Consistent fs chain) (hc : Closed fs i) :
    Consistent (released fs chain i { fs.rootDirectory i with inUse := 0 }) (update chain i []) :=
  C.rewrite hc (C.layout.release rfl)

theorem Consistent.truncated (C : Consistent fs chain) (hc : Closed fs i)
    (hu : (fs.rootDirectory i).inUse = 1) :
    Consistent ((released fs chain i { fs.rootDirectory i with size := 0 }).setFat
      (fs.rootDirectory i).startingBlock eofFatEntry)
      (update chain i [(fs.rootDirectory i).startingBlock]) := by
  have L := C.layout.links hu
  have hfree : (fs.fat.clear (chain i)).entry (fs.rootDirectory i).startingBlock = some 0 :=
    FatTable.entry_clear_of_mem L.start_mem (L.lt _ L.start_mem)
  -- the entry is released and created again in its old first block
  have L' := (C.layout.release (i := i) (e := { fs.rootDirectory i with inUse := 0 }) rfl).create
    (i := i) (e := { fs.rootDirectory i with size := 0 }) (by simp) hfree hu rfl rfl
  rw [update_idem, update_idem] at L'
  exact C.rewrite hc L'

theorem newHandle_ok (hu : (fs.rootDirectory i).inUse = 1)
    (hs : 0 ≤ (fs.rootDirectory i).size) (mode : OpenMode) :
    HandleOk fs.rootDirectory chain (newHandle fs.rootDirectory chain i mode) :=
  ⟨hu, by cases mode <;> simp [Fat.newHandle, startOffset, hs],
    by cases mode <;> simp [Fat.newHandle, startOffset, hs], rfl⟩

end GenericFs.Fat
