import GenericFs.Fat.Volume

namespace GenericFs.Fat

open GenericFs.Library Chain Machine Function FileSystem

theorem DirectoryEntry.zero_notMem_nameBytes (e : DirectoryEntry) : 0 ∉ e.nameBytes := fun h ↦ by
  have h := List.mem_takeWhile_imp h
  simp at h

def DirectoryEntry.cname (e : DirectoryEntry) : CString := ⟨e.nameBytes, e.zero_notMem_nameBytes⟩

def Directory.names (d : Directory) : Finset CString :=
  (Finset.univ.filter fun i ↦ (d i).inUse ≠ 0).image fun i ↦ (d i).cname

def Directory.openFile (d : Directory) (e : HandleTableEntry) : Option OpenFile :=
  if e.inUse then some
    { name := (d e.directoryIndex).cname, mode := e.mode, position := e.offset.toNat }
  else none

/-- A volume is what the client sees of the object. A scan has passed the
entries of the files that it listed, and not those of the files still due. -/
structure Represents (fs : FileSystem) (chain : Fin dirSize → List ℕ) (v : Volume) : Prop where
  names : v.names = fs.rootDirectory.names
  content : ∀ i, (fs.rootDirectory i).inUse ≠ 0 →
    v.content (fs.rootDirectory i).cname = content fs chain i
  handle : ∀ h, v.handle h = fs.rootDirectory.openFile (fs.handleTable h)
  due : ∀ s, v.scan = some s → ∀ n ∈ s.due, ∃ i : Fin dirSize, fs.scanIndex ≤ i ∧
    (fs.rootDirectory i).inUse ≠ 0 ∧ (fs.rootDirectory i).cname = n
  listed : ∀ s, v.scan = some s → ∀ n ∈ s.listed, ∃ i : Fin dirSize, i < fs.scanIndex ∧
    (fs.rootDirectory i).inUse ≠ 0 ∧ (fs.rootDirectory i).cname = n

variable {fs fs' : FileSystem} {chain chain' : Fin dirSize → List ℕ} {c : Call} {o : Outcome}
  {v : Volume} {d : Directory} {i j : Fin dirSize} {name : CString} {h : Fin handleTableSize}

theorem Directory.mem_names : name ∈ d.names ↔ ∃ i, (d i).inUse ≠ 0 ∧ (d i).cname = name := by
  simp [Directory.names]

theorem Directory.holds_iff : d.Holds i name ↔ (d i).inUse ≠ 0 ∧ (d i).cname = name :=
  and_congr_right fun _ ↦ ⟨fun h ↦ CString.ext_bytes h, fun h ↦ by rw [← h]; rfl⟩

theorem Directory.notMem_names_of_lookup (h : d.lookup name = none) : name ∉ d.names := fun hn ↦ by
  obtain ⟨i, hi⟩ := Directory.mem_names.mp hn
  exact Directory.not_holds_of_lookup h i (Directory.holds_iff.mpr hi)

section Counting

variable (C : Consistent fs chain) (O : Ordinary fs) (R : Represents fs chain v)

include O in
theorem cname_injOn : Set.InjOn (fun i ↦ (fs.rootDirectory i).cname)
    (Finset.univ.filter fun i ↦ (fs.rootDirectory i).inUse ≠ 0) := fun i hi j hj he ↦ by
  exact O.distinct i j (Finset.mem_filter.mp hi).2 (Finset.mem_filter.mp hj).2
    (congrArg CString.bytes he)

include O R

theorem Represents.card_names :
    v.names.card = (Finset.univ.filter fun i ↦ (fs.rootDirectory i).inUse ≠ 0).card := by
  rw [R.names, Directory.names, Finset.card_image_of_injOn (cname_injOn O)]

include C

/-- The free blocks of the FAT are those that the files of the volume leave. -/
theorem Represents.freeCount_add_used : freeCount fs.fat + v.used = 509 := by
  have hused : v.used = ∑ i with (fs.rootDirectory i).inUse ≠ 0,
      blocksOf (fs.rootDirectory i).size.toNat := by
    rw [Volume.used, R.names, Directory.names, Finset.sum_image (cname_injOn O)]
    refine Finset.sum_congr rfl fun i hi ↦ ?_
    rw [R.content i (Finset.mem_filter.mp hi).2, length_content]
  rw [hused]
  exact freeCount_eq C O

theorem Represents.room_eq (hu : (fs.rootDirectory i).inUse ≠ 0) :
    v.room (fs.rootDirectory i).cname = room fs i := by
  have hfree := R.freeCount_add_used C O
  rw [Volume.room, room, R.content i hu, length_content]
  omega

end Counting

section Handles

variable {e : HandleTableEntry}

theorem Directory.openFile_eq_none : d.openFile e = none ↔ e.inUse = false := by
  cases h : e.inUse <;> simp [Directory.openFile, h]

theorem Directory.openFile_of_inUse (h : e.inUse = true) : d.openFile e = some
    { name := (d e.directoryIndex).cname, mode := e.mode, position := e.offset.toNat } := by
  simp [Directory.openFile, h]

theorem Directory.openFile_congr {d' : Directory}
    (h : e.inUse = true → (d' e.directoryIndex).cname = (d e.directoryIndex).cname) :
    d'.openFile e = d.openFile e := by
  cases hu : e.inUse with
  | false => simp [Directory.openFile, hu]
  | true => simp [Directory.openFile, hu, h hu]

theorem Represents.withHandle (R : Represents fs chain v) :
    Represents (fs.withHandle h e) chain
      { v with handle := update v.handle h (fs.rootDirectory.openFile e) } where
  names := R.names
  content := R.content
  handle k := by
    rcases eq_or_ne k h with rfl | hk
    · simp
    · simp [hk, R.handle k]
  due := R.due
  listed := R.listed

theorem Represents.not_open (R : Represents fs chain v) {handle : ℤ} {mode : OpenMode}
    (hno : ∀ h, Held fs handle h → (fs.handleTable h).mode ≠ mode) :
    ∀ (h : Fin handleTableSize) f, handle = h → v.handle h = some f → f.mode ≠ mode := by
  rintro h f rfl hf
  rw [R.handle] at hf
  cases hu : (fs.handleTable h).inUse with
  | false => simp [Directory.openFile, hu] at hf
  | true =>
    rw [Directory.openFile_of_inUse hu] at hf
    obtain rfl := Option.some.inj hf
    exact hno h ⟨rfl, hu⟩

theorem Represents.writing_iff (R : Represents fs chain v) : v.Writing ↔
    ∃ h, (fs.handleTable h).inUse = true ∧ (fs.handleTable h).mode = .WRITE := by
  constructor
  · rintro ⟨h, f, hf, hm⟩
    by_contra hno
    push Not at hno
    have hclosed : ∀ k, Held fs h k → (fs.handleTable k).mode ≠ .WRITE := fun k hk ↦ hno k hk.2
    exact R.not_open hclosed h f rfl hf hm
  · rintro ⟨h, hu, hm⟩
    exact ⟨h, _, (R.handle h).trans (Directory.openFile_of_inUse hu), hm⟩

end Handles

section Entries

def SameNames (d d' : Directory) : Prop :=
  ∀ k, ((d' k).inUse ≠ 0 ↔ (d k).inUse ≠ 0) ∧ (d' k).cname = (d k).cname

theorem SameNames.resize {s : ℤ} : SameNames d (update d i { d i with size := s }) := fun k ↦ by
  rcases eq_or_ne k i with rfl | hk
  · rw [update_self]
    exact ⟨Iff.rfl, rfl⟩
  · rw [update_of_ne hk]
    exact ⟨Iff.rfl, rfl⟩

theorem SameNames.names_eq {d' : Directory} (h : SameNames d d') : d'.names = d.names := by
  ext n
  simp only [Directory.mem_names, (h _).1, (h _).2]

theorem Represents.put (R : Represents fs chain v)
    (hd : SameNames fs.rootDirectory fs'.rootDirectory)
    (O : Ordinary fs) (hi : (fs.rootDirectory i).inUse ≠ 0) {bytes : List UInt8}
    (hcontent : ∀ k, (fs.rootDirectory k).inUse ≠ 0 →
      Fat.content fs' chain' k = update (Fat.content fs chain) i bytes k)
    {handle : Fin handleTableSize → Option OpenFile}
    (hhandle : ∀ h, handle h = fs'.rootDirectory.openFile (fs'.handleTable h))
    (hscan : fs'.scanIndex = fs.scanIndex) : Represents fs' chain'
      { v with content := update v.content (fs.rootDirectory i).cname bytes, handle := handle } where
  names := R.names.trans hd.names_eq.symm
  content k hk := by
    have hk := (hd k).1.mp hk
    rw [(hd k).2, hcontent k hk]
    rcases eq_or_ne k i with rfl | hki
    · simp
    · have hne : (fs.rootDirectory k).cname ≠ (fs.rootDirectory i).cname := fun he ↦
        hki (O.distinct k i hk hi (congrArg CString.bytes he))
      rw [update_of_ne hki]
      simp [hne, R.content k hk]
  handle := hhandle
  due s hs n hn := by
    obtain ⟨k, hk, hu, hname⟩ := R.due s hs n hn
    exact ⟨k, hscan ▸ hk, (hd k).1.mpr hu, (hd k).2.trans hname⟩
  listed s hs n hn := by
    obtain ⟨k, hk, hu, hname⟩ := R.listed s hs n hn
    exact ⟨k, hscan ▸ hk, (hd k).1.mpr hu, (hd k).2.trans hname⟩

theorem Represents.appended {bytes : List UInt8} (ws : List ℕ) (R : Represents fs chain v)
    (O : Ordinary fs) (hi : (fs.rootDirectory (fs.handleTable h).directoryIndex).inUse ≠ 0)
    (hu : (fs.handleTable h).inUse = true) (h0 : 0 ≤ (fs.handleTable h).offset)
    (A : Appended h fs chain bytes fs' chain') {f : OpenFile} (hf : v.handle h = some f) :
    Represents (fs'.wrote ws) chain' { v with
      content := update v.content f.name (v.content f.name ++ bytes)
      handle := update v.handle h (some { f with position := f.position + bytes.length }) } := by
  rw [R.handle, Directory.openFile_of_inUse hu] at hf
  obtain rfl := Option.some.inj hf
  have hd : SameNames fs.rootDirectory fs'.rootDirectory := by
    rw [A.directory]
    exact .resize
  rw [R.content _ hi]
  refine R.put (show SameNames _ (fs'.wrote ws).rootDirectory from hd) O hi
    (fun k _ ↦ congrFun A.content k) (fun k ↦ ?_) A.scan
  have hcongr : ∀ e, fs'.rootDirectory.openFile e = fs.rootDirectory.openFile e := fun e ↦
    Directory.openFile_congr fun _ ↦ (hd _).2
  simp only [wrote_fields]
  rw [hcongr]
  rcases eq_or_ne k h with rfl | hk
  · rw [update_self, A.handle]
    simp only [Directory.openFile, hu, ↓reduceIte, Option.some.injEq, OpenFile.mk.injEq, true_and]
    omega
  · rw [update_of_ne hk, A.others k hk, R.handle]

theorem Represents.truncated (R : Represents fs chain v) (O : Ordinary fs)
    (hi : (fs.rootDirectory i).inUse ≠ 0) : Represents
      ((released fs chain i { fs.rootDirectory i with size := 0 }).setFat
        (fs.rootDirectory i).startingBlock eofFatEntry)
      (update chain i [(fs.rootDirectory i).startingBlock])
      { v with content := update v.content (fs.rootDirectory i).cname [] } := by
  refine R.put .resize O hi (fun k _ ↦ ?_) (fun k ↦ ?_) rfl
  · rcases eq_or_ne k i with rfl | hk
    · rw [update_self]
      exact content_eq_nil (by simp [released])
    · rw [update_of_ne hk]
      exact content_congr rfl (by simp [released, hk]) (update_of_ne hk _ _)
  · exact (R.handle k).trans (Directory.openFile_congr fun _ ↦ (SameNames.resize _).2).symm

theorem Represents.created (R : Represents fs chain v) (hn : name.Fits)
    (hl : fs.rootDirectory.lookup name = none) (hi : (fs.rootDirectory i).inUse = 0)
    (hc : Closed fs i) {j : Fin fatSize} : Represents (created fs i j name) (update chain i [j.val])
      { v with names := insert name v.names, content := update v.content name [] } := by
  have hnew : ((Fat.created fs i j name).rootDirectory i).cname = name := CString.ext_bytes
    (DirectoryEntry.nameBytes_copied (d := fs.rootDirectory) (i := i) (by simp [Fat.created]) hn)
  have hold : ∀ k, k ≠ i → (Fat.created fs i j name).rootDirectory k = fs.rootDirectory k :=
    fun k hk ↦ by simp [Fat.created, hk]
  have hne : ∀ k, (fs.rootDirectory k).inUse ≠ 0 → k ≠ i := fun k hk he ↦ hk (he ▸ hi)
  have hu : ((Fat.created fs i j name).rootDirectory i).inUse ≠ 0 := by simp [Fat.created]
  refine ⟨?_, fun k hk ↦ ?_, fun k ↦ ?_, fun s hs n hn ↦ ?_, fun s hs n hn ↦ ?_⟩
  · ext n
    rw [Finset.mem_insert, R.names, Directory.mem_names, Directory.mem_names]
    constructor
    · rintro (rfl | ⟨k, hk, hname⟩)
      · exact ⟨i, hu, hnew⟩
      · exact ⟨k, by rwa [hold k (hne k hk)], by rwa [hold k (hne k hk)]⟩
    · rintro ⟨k, hk, hname⟩
      rcases eq_or_ne k i with rfl | hki
      · exact .inl (hname.symm.trans hnew)
      · rw [hold k hki] at hk hname
        exact .inr ⟨k, hk, hname⟩
  · rcases eq_or_ne k i with rfl | hki
    · simp only [hnew, update_self]
      exact (content_eq_nil (by simp [Fat.created])).symm
    · rw [hold k hki] at hk ⊢
      have hname : (fs.rootDirectory k).cname ≠ name := fun he ↦
        Directory.not_holds_of_lookup hl k (Directory.holds_iff.mpr ⟨hk, he⟩)
      simp only [update_of_ne hname]
      refine (R.content k hk).trans (Eq.symm ?_)
      exact content_congr rfl (by rw [hold k hki]) (update_of_ne hki _ _)
  · refine (R.handle k).trans (Directory.openFile_congr fun hku ↦ ?_).symm
    rw [hold _ (hc k hku)]
  · obtain ⟨k, hk, hku, hname⟩ := R.due s hs n hn
    exact ⟨k, hk, by rwa [hold k (hne k hku)], by rwa [hold k (hne k hku)]⟩
  · obtain ⟨k, hk, hku, hname⟩ := R.listed s hs n hn
    exact ⟨k, hk, by rwa [hold k (hne k hku)], by rwa [hold k (hne k hku)]⟩

theorem Represents.removed (R : Represents fs chain v) (O : Ordinary fs)
    (hi : (fs.rootDirectory i).inUse ≠ 0) (hc : Closed fs i) :
    Represents (released fs chain i { fs.rootDirectory i with inUse := 0 }) (update chain i [])
      { v with
        names := v.names.erase (fs.rootDirectory i).cname
        scan := v.scan.map (·.drop (fs.rootDirectory i).cname) } := by
  have hold : ∀ k, k ≠ i → (released fs chain i
      { fs.rootDirectory i with inUse := 0 }).rootDirectory k = fs.rootDirectory k :=
    fun k hk ↦ by simp [released, hk]
  have hgone : ((released fs chain i { fs.rootDirectory i with inUse := 0 }).rootDirectory
      i).inUse = 0 := by
    simp [released]
  have hne : ∀ k, ((released fs chain i
      { fs.rootDirectory i with inUse := 0 }).rootDirectory k).inUse ≠ 0 → k ≠ i :=
    fun k hk he ↦ hk (he ▸ hgone)
  have hkept : ∀ n k, (fs.rootDirectory k).inUse ≠ 0 → (fs.rootDirectory k).cname = n →
      n ≠ (fs.rootDirectory i).cname → k ≠ i := fun n k _ hname hn he ↦ hn (by rw [← hname, he])
  refine ⟨?_, fun k hk ↦ ?_, fun k ↦ ?_, fun s hs n hn ↦ ?_, fun s hs n hn ↦ ?_⟩
  · ext n
    rw [Finset.mem_erase, R.names, Directory.mem_names, Directory.mem_names]
    constructor
    · rintro ⟨hn, k, hk, hname⟩
      have hki := hkept n k hk hname hn
      exact ⟨k, by rwa [hold k hki], by rwa [hold k hki]⟩
    · rintro ⟨k, hk, hname⟩
      have hki := hne k hk
      rw [hold k hki] at hk hname
      refine ⟨fun he ↦ hki ?_, k, hk, hname⟩
      exact O.distinct k i hk hi (congrArg CString.bytes (hname.trans he))
  · have hki := hne k hk
    rw [hold k hki] at hk ⊢
    refine (R.content k hk).trans (Eq.symm ?_)
    exact content_congr rfl (by rw [hold k hki]) (update_of_ne hki _ _)
  · refine (R.handle k).trans (Directory.openFile_congr fun hku ↦ ?_).symm
    rw [hold _ (hc k hku)]
  · obtain ⟨t, ht, rfl⟩ := Option.map_eq_some_iff.mp hs
    obtain ⟨hn, hmem⟩ := Finset.mem_erase.mp hn
    obtain ⟨k, hk, hku, hname⟩ := R.due t ht n hmem
    have hki := hkept n k hku hname hn
    exact ⟨k, hk, by rwa [hold k hki], by rwa [hold k hki]⟩
  · obtain ⟨t, ht, rfl⟩ := Option.map_eq_some_iff.mp hs
    obtain ⟨hn, hmem⟩ := Finset.mem_erase.mp hn
    obtain ⟨k, hk, hku, hname⟩ := R.listed t ht n hmem
    have hki := hkept n k hku hname hn
    exact ⟨k, hk, by rwa [hold k hki], by rwa [hold k hki]⟩

end Entries

section Simulation

variable (C : Consistent fs chain) (O : Ordinary fs) (R : Represents fs chain v)

include R in
theorem Represents.rescan {k : ℕ} {s : Option Scan}
    (hdue : ∀ t, s = some t → ∀ n ∈ t.due, ∃ i : Fin dirSize, k ≤ i ∧
      (fs.rootDirectory i).inUse ≠ 0 ∧ (fs.rootDirectory i).cname = n)
    (hlisted : ∀ t, s = some t → ∀ n ∈ t.listed, ∃ i : Fin dirSize, i < k ∧
      (fs.rootDirectory i).inUse ≠ 0 ∧ (fs.rootDirectory i).cname = n) :
    Represents { fs with scanIndex := k } chain { v with scan := s } :=
  ⟨R.names, R.content, R.handle, hdue, hlisted⟩

include R in
theorem Represents.held (hu : (fs.handleTable h).inUse = true) : v.handle h = some
    { name := (fs.rootDirectory (fs.handleTable h).directoryIndex).cname
      mode := (fs.handleTable h).mode
      position := (fs.handleTable h).offset.toNat } :=
  (R.handle h).trans (Directory.openFile_of_inUse hu)

include R in
theorem Represents.mem_names (hu : (fs.rootDirectory i).inUse ≠ 0) :
    (fs.rootDirectory i).cname ∈ v.names := by
  rw [R.names]
  exact Directory.mem_names.mpr ⟨i, hu, rfl⟩

include R in
theorem simulate_found {mode : OpenMode} (hh : (fs.handleTable h).inUse = false)
    (hl : fs.rootDirectory.lookup name = some i) : ∃ v',
      v.Step (.open name mode, .ok (.handle h)) v' ∧
      Represents (fs.withHandle h (newHandle fs.rootDirectory chain i mode)) chain v' := by
  obtain ⟨hu, rfl⟩ := Directory.holds_iff.mp (Directory.holds_of_lookup hl)
  have hfile : fs.rootDirectory.openFile (newHandle fs.rootDirectory chain i mode) = some
      { name := (fs.rootDirectory i).cname
        mode := mode
        position :=
          if mode = .READ then 0 else (v.content (fs.rootDirectory i).cname).length } := by
    rw [Directory.openFile_of_inUse rfl, R.content i hu, length_content]
    cases mode <;> rfl
  have hR := R.withHandle (h := h) (e := newHandle fs.rootDirectory chain i mode)
  rw [hfile] at hR
  exact ⟨_, .openFile _ mode h ((R.handle h).trans (Directory.openFile_eq_none.mpr hh))
    (R.mem_names hu), hR⟩

include R in
theorem simulate_dirEnd
    (hskip : ∀ j : Fin dirSize, fs.scanIndex ≤ j → (fs.rootDirectory j).inUse = 0) :
    ∃ v', v.Step (.nextDir, .ok (.entry none)) v' ∧
      Represents { fs with scanIndex := max fs.scanIndex dirSize } chain v' := by
  have hnone : ∀ s, v.scan = some s → s.due = ∅ := fun s hs ↦
    Finset.eq_empty_of_forall_notMem fun n hn ↦ by
      obtain ⟨k, hk, hku, -⟩ := R.due s hs n hn
      exact hku (hskip k hk)
  refine ⟨v, ?_, R.rescan (fun s hs n hn ↦ by simp [hnone s hs] at hn) fun s hs n hn ↦ ?_⟩
  · cases hs : v.scan with
    | none => exact .nextDirUndefined _ hs
    | some s => exact .nextDirEnd s hs (hnone s hs)
  · obtain ⟨k, hk, hku, hname⟩ := R.listed s hs n hn
    exact ⟨k, by omega, hku, hname⟩

include C O R

theorem simulate_open_refused {mode : OpenMode} {m : String}
    (hno : (∀ h, (fs.handleTable h).inUse = true) ∨ fs.rootDirectory.lookup name = none ∧
      (mode = .READ ∨ (∀ i, (fs.rootDirectory i).inUse ≠ 0) ∨ freeCount fs.fat = 0)) :
    v.Step (.open name mode, .error (.thrown m)) v := by
  refine .openFails _ _ _ (hno.imp (fun hall h ↦ ?_) fun ⟨hl, hwhy⟩ ↦ ⟨?_, ?_⟩)
  · rw [R.held (hall h)]
    simp
  · rw [R.names]
    exact Directory.notMem_names_of_lookup hl
  · refine hwhy.imp_right (Or.imp (fun hall ↦ ?_) fun hzero ↦ ?_)
    · rw [R.card_names O, Finset.filter_true_of_mem fun i _ ↦ hall i]
      simp
    · have hfree := R.freeCount_add_used C O
      omega

theorem simulate_created {j : Fin fatSize} (hn : name.Fits) (hh : (fs.handleTable h).inUse = false)
    (hl : fs.rootDirectory.lookup name = none) (hi : (fs.rootDirectory i).inUse = 0)
    (hj : fs.fat j = 0) : ∃ v', v.Step (.open name .WRITE, .ok (.handle h)) v' ∧
      Represents ((created fs i j name).withHandle h
        { offset := 0, directoryIndex := i, currentBlock := j, inUse := true, mode := .WRITE })
        (update chain i [j.val]) v' := by
  have hslot : v.names.card < dirSize := by
    rw [R.card_names O]
    refine (Finset.card_lt_univ_of_notMem (x := i) (by simp [hi])).trans_eq (by simp)
  have hblock : v.used < 509 := by
    have hfree := R.freeCount_add_used C O
    have hpos : 0 < freeCount fs.fat := Finset.card_pos.mpr ⟨j, by simp [hj]⟩
    omega
  have hname : ((created fs i j name).rootDirectory i).cname = name := CString.ext_bytes
    (DirectoryEntry.nameBytes_copied (d := fs.rootDirectory) (i := i) (by simp [created]) hn)
  have hR := (R.created hn hl hi (C.closed hi) (j := j)).withHandle (h := h)
    (e := { offset := 0, directoryIndex := i, currentBlock := j, inUse := true, mode := .WRITE })
  rw [Directory.openFile_of_inUse rfl, hname] at hR
  exact ⟨_, .create _ h ((R.handle h).trans (Directory.openFile_eq_none.mpr hh))
    (R.names ▸ Directory.notMem_names_of_lookup hl) hslot hblock, hR⟩

theorem simulate_read {count : ℤ} {k n : ℕ} (hu : (fs.handleTable h).inUse = true)
    (hm : (fs.handleTable h).mode = .READ) (ho : (fs.handleTable h).offset = k)
    (hn : n = min count.toNat
      ((fs.rootDirectory (fs.handleTable h).directoryIndex).size.toNat - k)) : ∃ v',
    v.Step (.read h count, .ok (.bytes n
      (((content fs chain (fs.handleTable h).directoryIndex).drop k).take count.toNat))) v' ∧
    Represents (fs.seek h (chain (fs.handleTable h).directoryIndex) (k + n)) chain v' := by
  have hi := (inUse_iff C O).mpr (C.handles h hu).inUse
  have hf := R.held hu
  rw [ho, Int.toNat_natCast] at hf
  have hlen : (((content fs chain (fs.handleTable h).directoryIndex).drop k).take
      count.toNat).length = n := by
    rw [List.length_take, List.length_drop, length_content, hn]
  have hstep := Volume.Step.read h count _ _ hf hm rfl
  rw [R.content _ hi, hlen] at hstep
  have hfile : fs.rootDirectory.openFile ((fs.seek h (chain (fs.handleTable h).directoryIndex)
      (k + n)).handleTable h) = some
      { name := (fs.rootDirectory (fs.handleTable h).directoryIndex).cname
        mode := (fs.handleTable h).mode
        position := k + n } := by
    rw [seek_handle]
    simp only [Directory.openFile, hu, ↓reduceIte, Int.toNat_natCast]
  have hR := R.withHandle (h := h)
    (e := (fs.seek h (chain (fs.handleTable h).directoryIndex) (k + n)).handleTable h)
  rw [hfile, seek_handle] at hR
  exact ⟨_, hstep, hR⟩

theorem simulate_write {count : ℤ} {buffer : List UInt8} {r : ℕ} {ws : List ℕ}
    (hu : (fs.handleTable h).inUse = true) (hm : (fs.handleTable h).mode = .WRITE)
    (hcount : count ≤ buffer.length)
    (hr : r = min count.toNat (room fs (fs.handleTable h).directoryIndex))
    (A : Appended h fs chain (buffer.take r) fs' chain') : ∃ v',
    v.Step (.write h buffer count, .ok (.count r)) v' ∧ Represents (fs'.wrote ws) chain' v' := by
  have hi := (inUse_iff C O).mpr (C.handles h hu).inUse
  have hlen : (buffer.take r).length = r := by
    rw [List.length_take]
    omega
  have hstep := Volume.Step.write h buffer count _ r (R.held hu) hm
    (hr.trans (congrArg _ (R.room_eq C O hi).symm))
  have hR := R.appended ws O hi hu (C.handles h hu).nonneg A (R.held hu)
  rw [hlen] at hR
  exact ⟨_, hstep, hR⟩

theorem simulate_dirEntry (hi : fs.scanIndex ≤ i) (hu : (fs.rootDirectory i).inUse ≠ 0)
    (hskip : ∀ j : Fin dirSize, fs.scanIndex ≤ j → j < i → (fs.rootDirectory j).inUse = 0) :
    ∃ v', v.Step (.nextDir, .ok (.entry (some
      { name := (fs.rootDirectory i).nameBytes, size := (fs.rootDirectory i).size }))) v' ∧
      Represents { fs with scanIndex := i + 1 } chain v' := by
  cases hs : v.scan with
  | none =>
    have hR := R.rescan (k := i + 1) (s := none) (by simp) (by simp)
    exact ⟨v, .nextDirUndefined _ hs, by rwa [← hs] at hR⟩
  | some s =>
    have hsize : ((v.content (fs.rootDirectory i).cname).length : ℤ) =
        (fs.rootDirectory i).size := by
      rw [R.content i hu, length_content, Int.toNat_of_nonneg (size_nonneg C O hu)]
    have hstep := Volume.Step.nextDir (v := v) (fs.rootDirectory i).cname s hs (R.mem_names hu)
      fun hmem ↦ by
        obtain ⟨k, hk, hku, hname⟩ := R.listed s hs _ hmem
        obtain rfl := O.distinct k i hku hu (congrArg CString.bytes hname)
        omega
    rw [hsize] at hstep
    refine ⟨_, hstep, R.rescan ?_ ?_⟩
    · rintro t ht n hn
      obtain rfl := Option.some.inj ht
      obtain ⟨hne, hmem⟩ := Finset.mem_erase.mp hn
      obtain ⟨k, hk, hku, rfl⟩ := R.due s hs n hmem
      refine ⟨k, ?_, hku, rfl⟩
      by_contra hlt
      rcases lt_or_eq_of_le (show k.val ≤ i.val by omega) with hki | hki
      · exact hku (hskip k hk hki)
      · exact hne (by rw [Fin.ext hki])
    · rintro t ht n hn
      obtain rfl := Option.some.inj ht
      rcases Finset.mem_insert.mp hn with rfl | hmem
      · exact ⟨i, Nat.lt_succ_self _, hu, rfl⟩
      · obtain ⟨k, hk, hku, hname⟩ := R.listed s hs n hmem
        exact ⟨k, by omega, hku, hname⟩

end Simulation

/-- Every effect of a call on the object is a step of the volume with the same
outcome. -/
theorem Effect.simulated (E : Effect fs chain c o fs' chain') (C : Consistent fs chain)
    (O : Ordinary fs) (R : Represents fs chain v) :
    ∃ v', v.Step (c, o) v' ∧ Represents fs' chain' v' := by
  cases E with
  | formatted hh =>
    refine ⟨_, .format, ?_, fun i hi ↦ ?_, fun h ↦ ?_, fun s hs n hn ↦ ?_, fun s hs n hn ↦ ?_⟩
    · simp [Directory.names, emptyDirectory]
    · simp [emptyDirectory] at hi
    · have hclosed := Directory.openFile_eq_none (d := fs.rootDirectory).mpr (hh h)
      exact ((R.handle h).trans hclosed).trans (Directory.openFile_eq_none.mpr (hh h)).symm
    · obtain ⟨t, -, rfl⟩ := Option.map_eq_some_iff.mp hs
      simp at hn
    · obtain ⟨t, -, rfl⟩ := Option.map_eq_some_iff.mp hs
      simp at hn
  | openRefused m hno => exact ⟨v, simulate_open_refused C O R hno, R⟩
  | found h i hh hl hu hs hw => exact simulate_found R hh hl
  | created h i j hn hh hl hm hi hj =>
    subst hm
    exact simulate_created C O R hn hh hl hi hj
  | readRefused m hno => exact ⟨v, .readFails _ _ m (R.not_open hno), R⟩
  | read h k n hh hm ho hn =>
    obtain ⟨rfl, hu⟩ := hh
    exact simulate_read C O R hu hm ho hn
  | writeRefused m hno => exact ⟨v, .writeFails _ _ _ m (R.not_open hno), R⟩
  | write h r fs' ws hh hm hcount hr A hws =>
    obtain ⟨rfl, hu⟩ := hh
    exact simulate_write C O R hu hm hcount hr A
  | closeRefused m hno =>
    refine ⟨v, .closeFails _ m fun h hh ↦ (R.handle h).trans (Directory.openFile_eq_none.mpr ?_), R⟩
    by_contra hu
    exact hno h ⟨hh, by simpa using hu⟩
  | close h hh =>
    obtain ⟨rfl, hu⟩ := hh
    have hR := R.withHandle (h := h) (e := { fs.handleTable h with inUse := false })
    rw [Directory.openFile_eq_none.mpr rfl] at hR
    exact ⟨_, .close h (by simp [R.held hu]), hR⟩
  | notThere hc hl =>
    have hn := R.names ▸ Directory.notMem_names_of_lookup hl
    rcases hc with rfl | rfl
    · exact ⟨v, .truncateNothing _ hn, R⟩
    · exact ⟨v, .removeNothing _ hn, R⟩
  | truncated i hl hu hc =>
    obtain ⟨hu, rfl⟩ := Directory.holds_iff.mp (Directory.holds_of_lookup hl)
    exact ⟨_, .truncate _ (R.mem_names hu), R.truncated O hu⟩
  | removed i hl hc =>
    obtain ⟨hu, rfl⟩ := Directory.holds_iff.mp (Directory.holds_of_lookup hl)
    exact ⟨_, .remove _ (R.mem_names hu), R.removed O hu hc⟩
  | dirOpened =>
    refine ⟨_, .openDir, R.rescan (fun s hs n hn ↦ ?_) fun s hs n hn ↦ ?_⟩
    · obtain rfl := Option.some.inj hs
      obtain ⟨i, hu, hname⟩ := Directory.mem_names.mp (R.names ▸ hn)
      exact ⟨i, Nat.zero_le _, hu, hname⟩
    · obtain rfl := Option.some.inj hs
      simp at hn
  | dirEntry i hi hu hskip => exact simulate_dirEntry C O R hi hu hskip
  | dirEnd hskip => exact simulate_dirEnd R hskip
  | freeSpace =>
    have hfree := R.freeCount_add_used C O
    have hspace : (freeCount fs.fat : ℤ) * 1024 = 1024 * (509 - v.used) := by omega
    rw [hspace]
    exact ⟨v, .freeSpace, R⟩
  | checkRefused m hw => exact ⟨v, .checkFails m (R.writing_iff.mpr hw), R⟩
  | checked hw =>
    refine ⟨v, .check fun hwriting ↦ ?_, R⟩
    obtain ⟨h, hu, hm⟩ := R.writing_iff.mp hwriting
    exact hw h hu hm

def Refines (fs : FileSystem) (v : Volume) : Prop :=
  ∃ chain, Consistent fs chain ∧ Solo fs ∧ Ordinary fs ∧ Represents fs chain v

theorem Refines.step {l : Call × Outcome} (hR : Refines fs v) (hs : PoliteStep fs l fs') :
    ∃ v', v.Step l v' ∧ Refines fs' v' := by
  obtain ⟨chain, C, S, O, R⟩ := hR
  obtain ⟨chain', E⟩ := step_effect C S hs.1 (fun _ ↦ O.named) hs.2
  obtain ⟨v', hv, R'⟩ := E.simulated C O R
  exact ⟨v', hv, chain', E.consistent C, E.solo C S, E.ordinary C O, R'⟩

theorem Begins.refines {disk : BlockDevice blockSize} {raw fs₀ : FileSystem}
    (B : Begins disk raw fs₀ fs) : Refines fs .blank := by
  obtain ⟨⟨C, S, O⟩, hdir, hclosed⟩ := B.fresh
  have hempty : ∀ i, (fs.rootDirectory i).inUse = 0 := fun i ↦ by rw [hdir]; rfl
  refine ⟨fun _ ↦ [], C, S, O, ?_, fun i hi ↦ absurd (hempty i) hi, fun h ↦ ?_, ?_, ?_⟩
  · simp [Directory.names, hempty, Volume.blank]
  · exact (Directory.openFile_eq_none.mpr (hclosed h)).symm
  · simp [Volume.blank]
  · simp [Volume.blank]

/-- The file system refines a map from names to byte strings: every run that
starts with `format` on a freshly constructed object is, call by call and
outcome by outcome, a run of the volume that starts blank. -/
theorem run_refines {disk : BlockDevice blockSize} {raw fs₀ : FileSystem}
    {ls : List (Call × Outcome)} (B : Begins disk raw fs₀ fs) (hr : Run PoliteStep fs ls fs') :
    ∃ v, Run Volume.Step .blank ls v ∧ Refines fs' v :=
  hr.simulation (fun _ _ _ _ ↦ Refines.step) B.refines

theorem run_refines_blank : ∃ v, Run Volume.Step .blank
    [(.open nameA .WRITE, ((Call.open nameA .WRITE).reply blankFormatted).1),
      (.write 0 [65] 1,
        ((Call.write 0 [65] 1).reply ((Call.open nameA .WRITE).reply blankFormatted).2).1)] v ∧
      Refines ((Call.write 0 [65] 1).reply
      ((Call.open nameA .WRITE).reply blankFormatted).2).2 v := by
  have hwrite : Polite ((Call.open nameA .WRITE).reply blankFormatted).2 (.write 0 [65] 1) :=
    ⟨by decide, by decide⟩
  exact run_refines begins_blank
    (.cons (.of_polite (polite_open_blank .WRITE)) (.cons (.of_polite hwrite) (.nil _)))

end GenericFs.Fat
