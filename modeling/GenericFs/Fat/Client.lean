import GenericFs.Fat.Files

namespace GenericFs.Fat

open GenericFs.Library Chain Function FileSystem

inductive Call
  | format
  | open (name : CString) (mode : OpenMode)
  | read (handle count : ℤ)
  | write (handle : ℤ) (buffer : List UInt8) (count : ℤ)
  | close (handle : ℤ)
  | truncate (name : CString)
  | remove (name : CString)
  | openDir
  | nextDir
  | freeSpace
  | check

inductive Reply
  | unit
  | handle (h : ℤ)
  | bytes (count : ℤ) (buffer : List UInt8)
  | count (n : ℤ)
  | entry (info : Option DirectoryInfo)

abbrev Outcome := Except Fault Reply

def Call.exec : Call → Member Reply
  | format => do FileSystem.format; return .unit
  | .open name mode => return .handle (← FileSystem.open name mode)
  | read handle count => do
    let (n, buffer) ← FileSystem.read handle count
    return .bytes n buffer
  | write handle buffer count => return .count (← FileSystem.write handle buffer count)
  | close handle => do FileSystem.close handle; return .unit
  | truncate name => do FileSystem.truncate name; return .unit
  | remove name => do FileSystem.remove name; return .unit
  | openDir => do FileSystem.openDir; return .unit
  | nextDir => return .entry (← FileSystem.nextDir)
  | freeSpace => return .count (← FileSystem.freeSpace)
  | check => do FileSystem.check; return .unit

def Call.reply (c : Call) (fs : FileSystem) : Outcome × FileSystem :=
  match c.exec.run fs with
  | .ok r s => (.ok r, s)
  | .error e s => (.error e, s)

def Step (fs : FileSystem) (l : Call × Outcome) (fs' : FileSystem) : Prop :=
  l.1.reply fs = (l.2, fs')

/-- What an ordinary client keeps to: names fit, counts are not negative and
covered by the buffer, a file has one writer at most, and no file is truncated,
removed or formatted away while it is open. -/
def Polite (fs : FileSystem) : Call → Prop
  | .format => ∀ h, (fs.handleTable h).inUse = false
  | .open name mode => name.Fits ∧ (mode = .WRITE → ∀ i, fs.rootDirectory.lookup name = some i →
      ∀ h, (fs.handleTable h).inUse = true → (fs.handleTable h).mode = .WRITE →
        (fs.handleTable h).directoryIndex ≠ i)
  | .read _ count => 0 ≤ count
  | .write _ buffer count => 0 ≤ count ∧ count ≤ buffer.length
  | .close handle => 0 ≤ handle
  | .truncate name | .remove name =>
    name.Fits ∧ ∀ i, fs.rootDirectory.lookup name = some i → Closed fs i
  | _ => True

def Held (fs : FileSystem) (handle : ℤ) (h : Fin handleTableSize) : Prop :=
  handle = h ∧ (fs.handleTable h).inUse = true

/-- Every way in which a call of an ordinary client ends. -/
inductive Effect (fs : FileSystem) (chain : Fin dirSize → List ℕ) :
    Call → Outcome → FileSystem → (Fin dirSize → List ℕ) → Prop
  | formatted (hh : ∀ h, (fs.handleTable h).inUse = false) :
      Effect fs chain .format (.ok .unit)
        ({ fs with fat := emptyFat, rootDirectory := emptyDirectory, formattedFlag := true }.withBlock
          bootBlock bootImage |>.wrote [bootBlock]) fun _ ↦ []
  | openRefused {name : CString} {mode : OpenMode} (m : String)
      (hno : (∀ h, (fs.handleTable h).inUse = true) ∨ fs.rootDirectory.lookup name = none ∧
        (mode = .READ ∨ (∀ i, (fs.rootDirectory i).inUse ≠ 0) ∨ freeCount fs.fat = 0)) :
      Effect fs chain (.open name mode) (.error (.thrown m)) fs chain
  | found {name : CString} {mode : OpenMode} (h : Fin handleTableSize) (i : Fin dirSize)
      (hh : (fs.handleTable h).inUse = false) (hl : fs.rootDirectory.lookup name = some i)
      (hu : (fs.rootDirectory i).inUse = 1) (hs : 0 ≤ (fs.rootDirectory i).size)
      (hw : mode = .WRITE → ∀ k, (fs.handleTable k).inUse = true →
        (fs.handleTable k).mode = .WRITE → (fs.handleTable k).directoryIndex ≠ i) :
      Effect fs chain (.open name mode) (.ok (.handle h))
        (fs.withHandle h (newHandle fs.rootDirectory chain i mode)) chain
  | created {name : CString} {mode : OpenMode} (h : Fin handleTableSize) (i : Fin dirSize)
      (j : Fin fatSize) (hn : name.Fits) (hh : (fs.handleTable h).inUse = false)
      (hl : fs.rootDirectory.lookup name = none) (hm : mode = .WRITE)
      (hi : (fs.rootDirectory i).inUse = 0) (hj : fs.fat j = 0) :
      Effect fs chain (.open name mode) (.ok (.handle h)) ((created fs i j name).withHandle h
        { offset := 0, directoryIndex := i, currentBlock := j, inUse := true, mode })
        (update chain i [j.val])
  | readRefused {handle count : ℤ} (m : String)
      (hno : ∀ h, Held fs handle h → (fs.handleTable h).mode ≠ .READ) :
      Effect fs chain (.read handle count) (.error (.thrown m)) fs chain
  | read {handle count : ℤ} (h : Fin handleTableSize) (o n : ℕ) (hh : Held fs handle h)
      (hm : (fs.handleTable h).mode = .READ) (ho : (fs.handleTable h).offset = o)
      (hn : n = min count.toNat
        ((fs.rootDirectory (fs.handleTable h).directoryIndex).size.toNat - o)) :
      Effect fs chain (.read handle count) (.ok (.bytes n
        (((content fs chain (fs.handleTable h).directoryIndex).drop o).take count.toNat)))
        (fs.seek h (chain (fs.handleTable h).directoryIndex) (o + n)) chain
  | writeRefused {handle count : ℤ} {buffer : List UInt8} (m : String)
      (hno : ∀ h, Held fs handle h → (fs.handleTable h).mode ≠ .WRITE) :
      Effect fs chain (.write handle buffer count) (.error (.thrown m)) fs chain
  | write {handle count : ℤ} {buffer : List UInt8} {chain' : Fin dirSize → List ℕ}
      (h : Fin handleTableSize) (r : ℕ) (fs' : FileSystem) (ws : List ℕ) (hh : Held fs handle h)
      (hm : (fs.handleTable h).mode = .WRITE) (hcount : count ≤ buffer.length)
      (hr : r = min count.toNat (room fs (fs.handleTable h).directoryIndex))
      (A : Appended h fs chain (buffer.take r) fs' chain') (hws : ∀ b ∈ ws, 3 ≤ b) :
      Effect fs chain (.write handle buffer count) (.ok (.count r)) (fs'.wrote ws) chain'
  | closeRefused {handle : ℤ} (m : String) (hno : ∀ h, ¬Held fs handle h) :
      Effect fs chain (.close handle) (.error (.thrown m)) fs chain
  | close {handle : ℤ} (h : Fin handleTableSize) (hh : Held fs handle h) :
      Effect fs chain (.close handle) (.ok .unit)
        (fs.withHandle h { fs.handleTable h with inUse := false }) chain
  | notThere {name : CString} {c : Call} (hc : c = .truncate name ∨ c = .remove name)
      (hl : fs.rootDirectory.lookup name = none) : Effect fs chain c (.ok .unit) fs chain
  | truncated {name : CString} (i : Fin dirSize) (hl : fs.rootDirectory.lookup name = some i)
      (hu : (fs.rootDirectory i).inUse = 1) (hc : Closed fs i) :
      Effect fs chain (.truncate name) (.ok .unit)
        ((released fs chain i { fs.rootDirectory i with size := 0 }).setFat
          (fs.rootDirectory i).startingBlock eofFatEntry)
        (update chain i [(fs.rootDirectory i).startingBlock])
  | removed {name : CString} (i : Fin dirSize) (hl : fs.rootDirectory.lookup name = some i)
      (hc : Closed fs i) :
      Effect fs chain (.remove name) (.ok .unit)
        (released fs chain i { fs.rootDirectory i with inUse := 0 }) (update chain i [])
  | dirOpened : Effect fs chain .openDir (.ok .unit) { fs with scanIndex := 0 } chain
  | dirEntry (i : Fin dirSize) (hi : fs.scanIndex ≤ i) (hu : (fs.rootDirectory i).inUse ≠ 0)
      (hskip : ∀ j : Fin dirSize, fs.scanIndex ≤ j → j < i → (fs.rootDirectory j).inUse = 0) :
      Effect fs chain .nextDir (.ok (.entry (some
        { name := (fs.rootDirectory i).nameBytes, size := (fs.rootDirectory i).size })))
        { fs with scanIndex := i + 1 } chain
  | dirEnd (hskip : ∀ j : Fin dirSize, fs.scanIndex ≤ j → (fs.rootDirectory j).inUse = 0) :
      Effect fs chain .nextDir (.ok (.entry none))
        { fs with scanIndex := max fs.scanIndex dirSize } chain
  | freeSpace : Effect fs chain .freeSpace (.ok (.count (freeCount fs.fat * 1024))) fs chain
  | checkRefused (m : String)
      (hw : ∃ h, (fs.handleTable h).inUse = true ∧ (fs.handleTable h).mode = .WRITE) :
      Effect fs chain .check (.error (.thrown m)) fs chain
  | checked (hw : ∀ h, (fs.handleTable h).inUse = true → (fs.handleTable h).mode ≠ .WRITE) :
      Effect fs chain .check (.ok .unit) fs chain

def Ends (fs : FileSystem) (chain : Fin dirSize → List ℕ) (c : Call) :
    EStateM.Result Fault FileSystem Reply → Prop
  | .ok r s => ∃ chain', Effect fs chain c (.ok r) s chain'
  | .error e s => ∃ chain', Effect fs chain c (.error e) s chain'

variable {fs fs' : FileSystem} {chain : Fin dirSize → List ℕ} {c : Call} {handle count : ℤ}
  {name : CString}

variable (fs) in
theorem format_run (hdev : 512 ≤ fs.theDisk.blockCount) : format.run fs = .ok ()
    ({ fs with fat := emptyFat, rootDirectory := emptyDirectory, formattedFlag := true }.withBlock
      bootBlock bootImage |>.wrote [bootBlock]) := by
  have hlt : bootBlock < fs.theDisk.blockCount := by simp only [bootBlock]; omega
  simp only [format, EStateM.run_bind, diskWrite_run hlt, modify_run]
  rfl

theorem held_of_range (h : 0 ≤ handle ∧ handle < handleTableSize) :
    ∃ h : Fin handleTableSize, handle = h :=
  ⟨⟨handle.toNat, (Int.toNat_lt h.1).mpr h.2⟩, by simp [h.1]⟩

theorem closed_or_mode {mode : OpenMode} {h : Fin handleTableSize}
    (hno : ∀ k, Held fs h k → (fs.handleTable k).mode ≠ mode) :
    (fs.handleTable h).inUse = false ∨ (fs.handleTable h).mode ≠ mode := by
  cases hu : (fs.handleTable h).inUse with
  | false => exact .inl rfl
  | true => exact .inr (hno h ⟨rfl, hu⟩)

theorem read_throws (count : ℤ) (hno : ∀ h, Held fs handle h → (fs.handleTable h).mode ≠ .READ) :
    ∃ m, (m = "FileSystem::read() -- Invalid handle" ∨
        m = "FileSystem::read() -- Handle not opened for reading") ∧
      (FileSystem.read handle count).run fs = .error (.thrown m) fs := by
  by_cases hrange : 0 ≤ handle ∧ handle < handleTableSize
  · obtain ⟨h, rfl⟩ := held_of_range hrange
    refine ⟨_, .inr rfl, ?_⟩
    simp only [FileSystem.read, dif_pos hrange, EStateM.run_bind, EStateM.run_get, handle_eq,
      if_pos (closed_or_mode hno), throw_run]
  · refine ⟨_, .inl rfl, ?_⟩
    simp only [FileSystem.read, dif_neg hrange, throw_run]

theorem write_throws (buffer : List UInt8) (count : ℤ)
    (hno : ∀ h, Held fs handle h → (fs.handleTable h).mode ≠ .WRITE) :
    ∃ m, (m = "FileSystem::write() -- Invalid handle" ∨
        m = "FileSystem::write() -- Handle not opened for writing") ∧
      (FileSystem.write handle buffer count).run fs = .error (.thrown m) fs := by
  by_cases hrange : 0 ≤ handle ∧ handle < handleTableSize
  · obtain ⟨h, rfl⟩ := held_of_range hrange
    refine ⟨_, .inr rfl, ?_⟩
    simp only [FileSystem.write, dif_pos hrange, EStateM.run_bind, EStateM.run_get, handle_eq,
      if_pos (closed_or_mode hno), throw_run]
  · refine ⟨_, .inl rfl, ?_⟩
    simp only [FileSystem.write, dif_neg hrange, throw_run]

theorem close_throws (hf : fs.formattedFlag = true) (hhandle : 0 ≤ handle)
    (hno : ∀ h, ¬Held fs handle h) :
    ∃ m, (m = "Invalid handle used during close(). Handle out of range." ∨
        m = "Invalid handle used during close(). Handle not open.") ∧
      (FileSystem.close handle).run fs = .error (.thrown m) fs := by
  by_cases hrange : handleTableSize ≤ handle
  · refine ⟨_, .inl rfl, ?_⟩
    simp only [FileSystem.close, EStateM.run_bind, EStateM.run_get, hf, Bool.true_eq_false,
      ↓reduceIte, if_pos hrange, throw_run]
  · obtain ⟨h, rfl⟩ := held_of_range ⟨hhandle, not_le.mp hrange⟩
    have hlt : (h.val : ℤ).toNat < handleTableSize := by simp
    have hu : (fs.handleTable h).inUse = false := Bool.eq_false_iff.mpr fun hu ↦ hno h ⟨rfl, hu⟩
    refine ⟨_, .inr rfl, ?_⟩
    simp only [FileSystem.close, EStateM.run_bind, EStateM.run_get, hf, Bool.true_eq_false,
      ↓reduceIte, if_neg hrange, if_neg (not_lt.mpr hhandle), dif_pos hlt, handle_eq, hu, throw_run]

theorem close_run {h : Fin handleTableSize} (hf : fs.formattedFlag = true)
    (hu : (fs.handleTable h).inUse = true) : (FileSystem.close h).run fs =
      .ok () (fs.withHandle h { fs.handleTable h with inUse := false }) := by
  have hlt : (h.val : ℤ).toNat < handleTableSize := by simp
  have hrange : ¬(handleTableSize : ℤ) ≤ (h.val : ℤ) := by exact_mod_cast not_le.mpr h.isLt
  simp only [FileSystem.close, EStateM.run_bind, EStateM.run_get, hf, Bool.true_eq_false,
    ↓reduceIte, if_neg hrange, if_neg (not_lt.mpr (Int.natCast_nonneg h.val)), dif_pos hlt,
    handle_eq, hu, setHandle_run]

theorem read_ends (C : Consistent fs chain) (hcount : 0 ≤ count) :
    Ends fs chain (.read handle count) ((Call.read handle count).exec.run fs) := by
  by_cases hok : ∃ h, Held fs handle h ∧ (fs.handleTable h).mode = .READ
  · obtain ⟨h, ⟨rfl, hu⟩, hm⟩ := hok
    have ho := (Int.toNat_of_nonneg (C.handles h hu).nonneg).symm
    simp only [Call.exec, EStateM.run_bind, read_run C hu hm rfl hcount ho rfl]
    exact ⟨_, .read h _ _ ⟨rfl, hu⟩ hm ho rfl⟩
  · have hno : ∀ h, Held fs handle h → (fs.handleTable h).mode ≠ .READ := by simpa using hok
    obtain ⟨m, -, hrun⟩ := read_throws count hno
    simp only [Call.exec, EStateM.run_bind, hrun]
    exact ⟨_, .readRefused m hno⟩

theorem write_ends (C : Consistent fs chain) {buffer : List UInt8} (hcount : 0 ≤ count)
    (hbuffer : count ≤ buffer.length)
    (heof : ∀ h, Held fs handle h → (fs.handleTable h).mode = .WRITE →
      (fs.handleTable h).offset = (fs.rootDirectory (fs.handleTable h).directoryIndex).size) :
    Ends fs chain (.write handle buffer count) ((Call.write handle buffer count).exec.run fs) := by
  by_cases hok : ∃ h, Held fs handle h ∧ (fs.handleTable h).mode = .WRITE
  · obtain ⟨h, ⟨rfl, hu⟩, hm⟩ := hok
    have hlen : count.toNat ≤ buffer.length := by omega
    obtain ⟨fs', chain', ws, hrun, A, hws⟩ := write_run C hu hm hcount hlen rfl
      fun hr ↦ heof h ⟨rfl, hu⟩ hm
    simp only [Call.exec, EStateM.run_bind, hrun]
    exact ⟨_, .write h _ fs' ws ⟨rfl, hu⟩ hm hbuffer rfl A hws⟩
  · have hno : ∀ h, Held fs handle h → (fs.handleTable h).mode ≠ .WRITE := by simpa using hok
    obtain ⟨m, -, hrun⟩ := write_throws buffer count hno
    simp only [Call.exec, EStateM.run_bind, hrun]
    exact ⟨_, .writeRefused m hno⟩

theorem close_ends (C : Consistent fs chain) (hhandle : 0 ≤ handle) :
    Ends fs chain (.close handle) ((Call.close handle).exec.run fs) := by
  by_cases hok : ∃ h, Held fs handle h
  · obtain ⟨h, rfl, hu⟩ := hok
    simp only [Call.exec, EStateM.run_bind, close_run C.formatted hu]
    exact ⟨_, .close h ⟨rfl, hu⟩⟩
  · have hno : ∀ h, ¬Held fs handle h := by simpa using hok
    obtain ⟨m, -, hrun⟩ := close_throws C.formatted hhandle hno
    simp only [Call.exec, EStateM.run_bind, hrun]
    exact ⟨_, .closeRefused m hno⟩

theorem open_ends (C : Consistent fs chain) {mode : OpenMode} (hp : Polite fs (.open name mode)) :
    Ends fs chain (.open name mode) ((Call.open name mode).exec.run fs) := by
  have hrun := open_run C hp.1 mode
  simp only [Call.exec, EStateM.run_bind]
  generalize (FileSystem.open name mode).run fs = res at hrun
  cases hrun with
  | noHandle m hh => exact ⟨_, .openRefused m (.inl hh)⟩
  | absent m hl hno => exact ⟨_, .openRefused m (.inr ⟨hl, hno⟩)⟩
  | found h i hh hl =>
    obtain ⟨hu, hs⟩ := C.of_lookup hp.1 hl
    exact ⟨_, .found h i hh hl hu hs fun hm ↦ hp.2 hm i hl⟩
  | created h i j hh hl hm hi hj => exact ⟨_, .created h i j hp.1 hh hl hm hi hj⟩

theorem truncate_ends (C : Consistent fs chain) (hp : Polite fs (.truncate name)) :
    Ends fs chain (.truncate name) ((Call.truncate name).exec.run fs) := by
  cases hl : fs.rootDirectory.lookup name with
  | none =>
    simp only [Call.exec, EStateM.run_bind, truncate_run_absent hp.1 hl]
    exact ⟨_, .notThere (.inl rfl) hl⟩
  | some i =>
    simp only [Call.exec, EStateM.run_bind, truncate_run C hp.1 hl]
    exact ⟨_, .truncated i hl (C.of_lookup hp.1 hl).1 (hp.2 i hl)⟩

theorem remove_ends (C : Consistent fs chain) (hp : Polite fs (.remove name)) :
    Ends fs chain (.remove name) ((Call.remove name).exec.run fs) := by
  cases hl : fs.rootDirectory.lookup name with
  | none =>
    simp only [Call.exec, EStateM.run_bind, remove_run_absent hp.1 hl]
    exact ⟨_, .notThere (.inr rfl) hl⟩
  | some i =>
    simp only [Call.exec, EStateM.run_bind, remove_run C hp.1 hl]
    exact ⟨_, .removed i hl (hp.2 i hl)⟩

theorem nextDirLoop_run (hn : ∀ i, (fs.rootDirectory i).inUse ≠ 0 → (fs.rootDirectory i).Named)
    {turns : ℕ} (hturns : dirSize ≤ turns + fs.scanIndex) :
    (∃ i : Fin dirSize, fs.scanIndex ≤ i ∧ (fs.rootDirectory i).inUse ≠ 0 ∧
      (∀ j : Fin dirSize, fs.scanIndex ≤ j → j < i → (fs.rootDirectory j).inUse = 0) ∧
      (nextDirLoop turns).run fs = .ok (some
        { name := (fs.rootDirectory i).nameBytes, size := (fs.rootDirectory i).size })
        { fs with scanIndex := i + 1 }) ∨
    (∀ j : Fin dirSize, fs.scanIndex ≤ j → (fs.rootDirectory j).inUse = 0) ∧
      (nextDirLoop turns).run fs = .ok none { fs with scanIndex := max fs.scanIndex dirSize } := by
  induction turns generalizing fs with
  | zero =>
    refine .inr ⟨fun j hj ↦ absurd j.isLt (by omega), ?_⟩
    have hmax : max fs.scanIndex dirSize = fs.scanIndex := by omega
    simp only [nextDirLoop, EStateM.run_pure, hmax]
  | succ turns ih =>
    by_cases hlt : fs.scanIndex < dirSize
    · by_cases hu : (fs.rootDirectory ⟨fs.scanIndex, hlt⟩).inUse = 0
      · have hrun : (nextDirLoop (turns + 1)).run fs =
            (nextDirLoop turns).run { fs with scanIndex := fs.scanIndex + 1 } := by
          simp only [nextDirLoop, EStateM.run_bind, EStateM.run_get, dif_pos hlt, hu, ↓reduceIte,
            modify_run]
        have hfirst : ∀ j : Fin dirSize, fs.scanIndex ≤ j → (fs.rootDirectory j).inUse ≠ 0 →
            fs.scanIndex + 1 ≤ j := fun j hj hju ↦ by
          refine lt_of_le_of_ne hj fun he ↦ hju ?_
          obtain rfl : j = ⟨fs.scanIndex, hlt⟩ := Fin.ext he.symm
          exact hu
        rw [hrun]
        have hrest := @ih { fs with scanIndex := fs.scanIndex + 1 } hn
          (show dirSize ≤ turns + (fs.scanIndex + 1) by omega)
        rcases hrest with
          ⟨i, hi, hiu, hskip, hres⟩ | ⟨hskip, hres⟩
        · refine .inl ⟨i, Nat.le_of_succ_le hi, hiu, fun j hj hji ↦ ?_, hres⟩
          by_contra hju
          exact hju (hskip j (hfirst j hj hju) hji)
        · refine .inr ⟨fun j hj ↦ ?_, ?_⟩
          · by_contra hju
            exact hju (hskip j (hfirst j hj hju))
          · rw [hres, show max (fs.scanIndex + 1) dirSize = max fs.scanIndex dirSize by omega]
      · refine .inl ⟨⟨fs.scanIndex, hlt⟩, le_rfl, hu, fun j hj hji ↦ absurd hji (not_lt.mpr hj), ?_⟩
        have hcopy := copyName_of_named (hn _ hu)
        simp only at hcopy
        simp only [nextDirLoop, EStateM.run_bind, EStateM.run_get, dif_pos hlt, if_neg hu, hcopy,
          modify_run, EStateM.run_pure]
    · refine .inr ⟨fun j hj ↦ absurd j.isLt (by omega), ?_⟩
      have hmax : max fs.scanIndex dirSize = fs.scanIndex := by omega
      simp only [nextDirLoop, EStateM.run_bind, EStateM.run_get, dif_neg hlt,
        EStateM.run_pure, hmax]

theorem nextDir_ends (hn : ∀ i, (fs.rootDirectory i).inUse ≠ 0 → (fs.rootDirectory i).Named) :
    Ends fs chain .nextDir (Call.nextDir.exec.run fs) := by
  rcases nextDirLoop_run hn (show dirSize ≤ dirSize + fs.scanIndex by omega) with ⟨i, hi, hu, hskip,
    hrun⟩ | ⟨hskip, hrun⟩
  · simp only [Call.exec, nextDir, EStateM.run_bind, hrun]
    exact ⟨_, .dirEntry i hi hu hskip⟩
  · simp only [Call.exec, nextDir, EStateM.run_bind, hrun]
    exact ⟨_, .dirEnd hskip⟩

theorem check_run (C : Consistent fs chain)
    (hw : ∀ h, (fs.handleTable h).inUse = true → (fs.handleTable h).mode ≠ .WRITE) :
    check.run fs = .ok () fs :=
  check_run_eq_ok.mpr (checkWith_of_accounted C.formatted hw C.layout.accounted (by decide))

theorem check_ends (C : Consistent fs chain) : Ends fs chain .check (Call.check.exec.run fs) := by
  by_cases hw : ∃ h, (fs.handleTable h).inUse = true ∧ (fs.handleTable h).mode = .WRITE
  · have hrefuse : checkWith loopBound fs =
        .error (.thrown "file_system::check() -- Files open for writing") := by
      rw [checkWith, if_neg (by simp [C.formatted]), if_pos hw]
    simp only [Call.exec, check, EStateM.run_bind, EStateM.run_get, hrefuse, throw_run]
    exact ⟨_, .checkRefused _ hw⟩
  · push Not at hw
    simp only [Call.exec, EStateM.run_bind, check_run C hw]
    exact ⟨_, .checked hw⟩

/-- A file has at most one handle open for writing, and it stands at the end. -/
structure Solo (fs : FileSystem) : Prop where
  atEnd : ∀ h, (fs.handleTable h).inUse = true → (fs.handleTable h).mode = .WRITE →
    (fs.handleTable h).offset = (fs.rootDirectory (fs.handleTable h).directoryIndex).size
  single : ∀ h k, (fs.handleTable h).inUse = true → (fs.handleTable h).mode = .WRITE →
    (fs.handleTable k).inUse = true → (fs.handleTable k).mode = .WRITE →
    (fs.handleTable h).directoryIndex = (fs.handleTable k).directoryIndex → h = k

/-- Every call of an ordinary client returns or throws, and has the effect it
should have. Only `next_dir` depends on NULs at the end of names. -/
theorem step_effect (C : Consistent fs chain) (S : Solo fs) (hp : Polite fs c)
    (hn : c = .nextDir → ∀ i, (fs.rootDirectory i).inUse ≠ 0 → (fs.rootDirectory i).Named)
    {o : Outcome} (h : Step fs (c, o) fs') : ∃ chain', Effect fs chain c o fs' chain' := by
  have hends : Ends fs chain c (c.exec.run fs) := by
    cases c with
    | format =>
      simp only [Call.exec, EStateM.run_bind, format_run fs C.device]
      exact ⟨_, .formatted hp⟩
    | «open» name mode => exact open_ends C hp
    | read handle count => exact read_ends C hp
    | write handle buffer count =>
      exact write_ends C hp.1 hp.2 fun h hh hm ↦ S.atEnd h hh.2 hm
    | close handle => exact close_ends C hp
    | truncate name => exact truncate_ends C hp
    | remove name => exact remove_ends C hp
    | openDir => exact ⟨_, .dirOpened⟩
    | nextDir => exact nextDir_ends (hn rfl)
    | freeSpace =>
      simp only [Call.exec, EStateM.run_bind, freeSpace_run C.formatted]
      exact ⟨_, .freeSpace⟩
    | check => exact check_ends C
  unfold Step Call.reply at h
  generalize c.exec.run fs = res at h hends
  cases res with
  | ok r s =>
    obtain ⟨rfl, rfl⟩ := Prod.mk.inj h
    exact hends
  | error e s =>
    obtain ⟨rfl, rfl⟩ := Prod.mk.inj h
    exact hends

end GenericFs.Fat
