import GenericFs.Shell.Copying

namespace GenericFs.Shell

open GenericFs.Fat GenericFs.Library Function Returning FileSystem

variable {s s' : Session} {fs : FileSystem} {chain chain' : Fin dirSize → List ℕ}
  {h m : Fin handleTableSize} {i k : Fin dirSize} {bytes bytes' : List UInt8} {line : CommandLine}
  {name : CString}

theorem reads_unique (hr : Reads fs name bytes) (hr' : Reads fs name bytes') : bytes = bytes' := by
  obtain ⟨h, fs₁, hopen, hread⟩ := hr
  obtain ⟨h', fs₁', hopen', hread'⟩ := hr'
  rw [hopen] at hopen'
  injection hopen' with hh hfs
  subst hh hfs
  obtain ⟨fs₂, hget⟩ := hread (bytes.length + bytes'.length : ℕ) (Int.natCast_nonneg _)
  obtain ⟨fs₂', hget'⟩ := hread' (bytes.length + bytes'.length : ℕ) (Int.natCast_nonneg _)
  rw [hget] at hget'
  injection hget' with hpair _
  have hbytes := congrArg Prod.snd hpair
  simp only [Int.toNat_natCast] at hbytes
  rwa [List.take_of_length_le (by omega), List.take_of_length_le (by omega)] at hbytes

theorem reads_of_file (C : Consistent fs chain) (hn : name.Fits)
    (hclosed : ∀ h, (fs.handleTable h).inUse = false) (hfile : file fs chain name = some bytes) :
    Reads fs name bytes := by
  obtain ⟨i, hl, rfl⟩ := file_eq_some.mp hfile
  exact reads_content C hn hl ⟨0, hclosed 0⟩

theorem newHandle_read {fat : FatTable} {d d' : Directory} (L : Layout fat d chain)
    (hu : (d i).inUse = 1) : newHandle d' (update chain i [(d i).startingBlock]) i .READ =
      newHandle d chain i .READ := by
  have hlinks := L.links hu
  have hstart : (chain i).getD 0 0 = (d i).startingBlock := by
    rw [List.getD_eq_getElem _ 0 hlinks.length_pos, hlinks.getElem_zero hlinks.length_pos]
  simp only [newHandle, startOffset, Int.toNat_zero, Nat.zero_div, hstart, update_self]
  rfl

/-- A file may be truncated under the handle of a reader that has read nothing yet. -/
theorem opened_truncated (C : Consistent fs chain) (hn : name.Fits)
    (hclosed : ∀ h, (fs.handleTable h).inUse = false) (hl : fs.rootDirectory.lookup name = some i)
    {fs₁ : FileSystem} (hfs₁ : fs₁ = fs.withHandle m (newHandle fs.rootDirectory chain i .READ)) :
    ∃ fs₂ chain₂, (truncate name).run fs₁ = .ok () fs₂ ∧ Consistent fs₂ chain₂ ∧
      Sending m i 0 [] fs₂ chain₂ ∧ fs₂.rootDirectory.lookup name = some i ∧
      fs₂.handleTable = fs₁.handleTable ∧ Elsewhere name fs chain fs₂ chain₂ := by
  obtain ⟨hu, -⟩ := C.of_lookup hn hl
  obtain ⟨C₁, -⟩ := Sending.of_found (m := m) C hn hl
  have C₂ := C.truncated (fun h hh ↦ by simp [hclosed h] at hh) hu
  obtain ⟨T, hT⟩ : ∃ T, T = (released fs chain i { fs.rootDirectory i with size := 0 }).setFat
    (fs.rootDirectory i).startingBlock eofFatEntry := ⟨_, rfl⟩
  have hl₂ : T.rootDirectory.lookup name = some i := by
    rw [hT]
    exact Directory.lookup_resize.trans hl
  have hsize : (T.rootDirectory i).size = 0 := by
    rw [hT]
    exact congrArg DirectoryEntry.size (update_self i _ fs.rootDirectory)
  have E : Elsewhere name fs chain T (update chain i [(fs.rootDirectory i).startingBlock]) := by
    rw [hT]
    exact truncated_elsewhere hl
  rw [← hT] at C₂
  obtain ⟨C₃, S₃⟩ := Sending.of_found (m := m) C₂ hn hl₂
  rw [newHandle_read C.layout hu] at C₃ S₃
  rw [content_eq_nil hsize] at S₃
  refine ⟨_, _, ?_, C₃, S₃, hl₂, ?_, ⟨E.lookup, E.content⟩⟩
  · rw [hfs₁, truncate_run C₁ hn hl, hT]
    rfl
  · rw [hT, hfs₁]
    rfl

theorem vcopyOp_self (C : Consistent s.files chain)
    (hclosed : ∀ h, (s.files.handleTable h).inUse = false) (hline : line.length = 3)
    (hn : (word line 2).Fits) (hself : word line 2 = word line 3)
    (hfile : file s.files chain (word line 2) = some bytes) :
    ∃ s' chain', (vcopyOp line).run s = .ok false s' ∧ Consistent s'.files chain' ∧
      (∀ h, (s'.files.handleTable h).inUse = false) ∧
      file s'.files chain' (word line 2) = some [] ∧
      Elsewhere (word line 2) s.files chain s'.files chain' ∧
      s' = { s with files := s'.files } := by
  obtain ⟨i, hl, -⟩ := file_eq_some.mp hfile
  obtain ⟨m, -, hopen⟩ := open_found C hn hl ⟨0, hclosed 0⟩ .READ
  obtain ⟨fs₂, chain₂, htruncate, C₂, S₂, hl₂, htable, E⟩ :=
    opened_truncated (m := m) C hn hclosed hl rfl
  have hfree : ∀ h, h ≠ m → (fs₂.handleTable h).inUse = false := fun h hm ↦ by
    rw [htable]
    simp [hm, hclosed h]
  obtain ⟨h₀, hh₀⟩ := exists_ne m
  obtain ⟨h, hh, hopen'⟩ := open_found C₂ hn hl₂ ⟨h₀, hfree h₀ hh₀⟩ .WRITE
  have hmh : m ≠ h := by
    rintro rfl
    simp [S₂.inUse] at hh
  -- the reader finds nothing, and both handles are closed
  obtain ⟨hu, hs⟩ := C₂.of_lookup hn hl₂
  have C₃ := C₂.withHandle (h := h) fun _ ↦ newHandle_ok hu hs .WRITE
  have S₃ : Sending m i 0 []
      (fs₂.withHandle h (newHandle fs₂.rootDirectory chain₂ i .WRITE)) chain₂ :=
    S₂.congr (by simp [hmh]) rfl
  have hu₃ : ((fs₂.withHandle h (newHandle fs₂.rootDirectory chain₂ i .WRITE)).handleTable
      h).inUse = true := by simp [newHandle]
  have hothers : ∀ j, j ≠ h → j ≠ m →
      ((fs₂.withHandle h (newHandle fs₂.rootDirectory chain₂ i .WRITE)).handleTable j).inUse =
        false := fun j hjh hjm ↦ by simp [hjh, hfree j hjm]
  have hl₃ : (fs₂.withHandle h (newHandle fs₂.rootDirectory chain₂ i .WRITE)).rootDirectory.lookup
      (word line 2) = some i := hl₂
  have E₃ : Elsewhere (word line 2) s.files chain
      (fs₂.withHandle h (newHandle fs₂.rootDirectory chain₂ i .WRITE)) chain₂ :=
    ⟨E.lookup, E.content⟩
  generalize fs₂.withHandle h (newHandle fs₂.rootDirectory chain₂ i .WRITE) = fs₃ at *
  have hinUse := (C₃.handles m S₃.inUse).inUse
  rw [S₃.index] at hinUse
  have C₄ := C₃.seek S₃.index hinUse (o := 0) (by simpa using (C₃.of_lookup hn hl₃).2)
  have hseek : ((fs₃.seek m (chain₂ i) 0).handleTable h).inUse = true := by
    simpa [FileSystem.seek, hmh.symm] using hu₃
  have hloop : (vcopyLoop m h transferBound).run { s with files := fs₃ } = _ :=
    vcopyLoop_end S₃ C₃ le_rfl (by decide)
  have hseek' : ((fs₃.seek m (chain₂ i) 0).handleTable m).inUse = true := by
    rw [seek_handle]
    exact S₃.inUse
  refine ⟨{ s with files := shut (shut (fs₃.seek m (chain₂ i) 0) m) h }, chain₂, ?_, C₄.shut.shut,
    fun j ↦ shut_closed fun hjh ↦ shut_closed fun hjm ↦ ?_, file_eq_some.mpr ⟨i, hl₃, S₃.content⟩,
    ⟨E₃.lookup, E₃.content⟩, rfl⟩
  · rw [vcopyOp_run hline, ← hself, run_bind_ok (member_run hopen),
      run_bind_ok (member_run htruncate), run_bind_ok (member_run hopen'),
      run_bind_ok hloop,
      close_members (s := { s with files := fs₃.seek m (chain₂ i) 0 }) C₄ hmh hseek' hseek]
    rfl
  · simpa [FileSystem.seek, hjm] using hothers j hjh hjm

theorem vcopyOp_keeps_iff (C : Consistent s.files chain)
    (hclosed : ∀ h, (s.files.handleTable h).inUse = false) (hline : line.length = 3)
    (hsrc : (word line 2).Fits) (hdst : (word line 3).Fits) :
    (∀ b s' bytes, file s.files chain (word line 2) = some bytes →
      (vcopyOp line).run s = .ok b s' → Reads s'.files (word line 2) bytes) ↔
      (word line 2 = word line 3 → ∀ bytes, file s.files chain (word line 2) = some bytes →
        bytes = []) := by
  constructor
  · intro hkeeps hself bytes hfile
    obtain ⟨s', chain', hrun, C', hclosed', hempty, -⟩ :=
      vcopyOp_self C hclosed hline hsrc hself hfile
    exact reads_unique (hkeeps _ _ _ hfile hrun) (reads_of_file C' hsrc hclosed' hempty)
  · intro hempty b s' bytes hfile hrun
    by_cases hself : word line 2 = word line 3
    · obtain ⟨s₁, chain₁, hrun₁, C₁, hclosed₁, hfile₁, -⟩ :=
        vcopyOp_self C hclosed hline hsrc hself hfile
      rw [hrun] at hrun₁
      injection hrun₁ with _ hs
      subst hs
      rw [hempty hself bytes hfile]
      exact reads_of_file C₁ hsrc hclosed₁ hfile₁
    · obtain ⟨_, chain', K⟩ :=
        vcopyOp_copies C hclosed hline hsrc hdst hself hfile hrun
      exact reads_of_file K.consistent hsrc K.closed ((K.others _ hself).trans hfile)

theorem vcopyOp_keeps_iff_oneByte : ¬∀ b s' bytes,
    file oneByte.files oneByteChain nameA = some bytes →
      (vcopyOp [nameA, nameA, nameA]).run oneByte = .ok b s' → Reads s'.files nameA bytes := by
  intro hkeeps
  have hempty := (vcopyOp_keeps_iff oneByte_consistent oneByte_closed
    (show [nameA, nameA, nameA].length = 3 from rfl) (by decide) (by decide)).mp hkeeps rfl
    _ oneByte_file
  cases hempty

/-- The command empties a file that it is told to copy to itself. -/
theorem not_vcopyOp_keeps : ¬∀ (s s' : Session) (chain : Fin dirSize → List ℕ) (line : CommandLine)
    (b : Bool) (bytes : List UInt8), Consistent s.files chain →
    (∀ h, (s.files.handleTable h).inUse = false) → line.length = 3 → (word line 2).Fits →
    (word line 3).Fits → file s.files chain (word line 2) = some bytes →
    (vcopyOp line).run s = .ok b s' → Reads s'.files (word line 2) bytes := by
  intro hclaim
  have hn : (word [nameA, nameA, nameA] 2).Fits := by decide
  obtain ⟨s', chain', hrun, C', hclosed', hempty, -⟩ := vcopyOp_self oneByte_consistent
    oneByte_closed (show [nameA, nameA, nameA].length = 3 from rfl) hn rfl oneByte_file
  have hreads := hclaim oneByte s' oneByteChain [nameA, nameA, nameA] false [0] oneByte_consistent
    oneByte_closed rfl hn hn oneByte_file hrun
  cases reads_unique hreads (reads_of_file C' hn hclosed' hempty)

end GenericFs.Shell
