import GenericFs.Library.Machine
import GenericFs.Shell.Damage

namespace GenericFs.Shell

open GenericFs.Fat GenericFs.Library Machine Function Returning FileSystem

variable {s s' : Session} {fs fs' : FileSystem} {chain chain' : Fin dirSize → List ℕ}
  {h m : Fin handleTableSize} {i k : Fin dirSize} {bytes input : List UInt8} {line : CommandLine}
  {name : CString} {b : Bool} {turns o : ℕ}

/-- The file system between two commands. -/
structure Resting (fs : FileSystem) (chain : Fin dirSize → List ℕ) : Prop where
  consistent : Consistent fs chain
  closed : ∀ h, (fs.handleTable h).inUse = false

def Spared (name : CString) (fs : FileSystem) (chain : Fin dirSize → List ℕ) (fs' : FileSystem) :
    Prop :=
  ∃ chain', Resting fs' chain' ∧ ∀ x, x ≠ name → file fs' chain' x = file fs chain x

section Operations

variable (R : Resting s.files chain)

include R

theorem vcopyOp_spared (hsrc : (word line 2).Fits) (hdst : (word line 3).Fits)
    (hrun : (vcopyOp line).run s = .ok b s') : Spared (word line 3) s.files chain s'.files := by
  by_cases hline : line.length = 3
  · cases hl : s.files.rootDirectory.lookup (word line 2) with
    | none =>
      rw [vcopyOp_run hline] at hrun
      obtain ⟨input, fs₁, hopen, -⟩ := exists_of_member_bind hrun
      have hends := open_run R.consistent hsrc .READ
      rw [hopen] at hends
      cases hends with
      | found m i hh hl' => simp [hl] at hl'
      | created h i j hh hl' hm hi hj => cases hm
    | some i =>
      have hfile : file s.files chain (word line 2) = some (content s.files chain i) :=
        file_eq_some.mpr ⟨i, hl, rfl⟩
      by_cases hself : word line 2 = word line 3
      · obtain ⟨s₁, chain₁, hrun₁, C₁, hclosed₁, -, E, -⟩ :=
          vcopyOp_self R.consistent R.closed hline hsrc hself hfile
        rw [hrun] at hrun₁
        injection hrun₁ with _ hs
        subst hs
        rw [hself] at E
        exact ⟨chain₁, ⟨C₁, hclosed₁⟩, fun x hx ↦ E.file hx⟩
      · obtain ⟨_, chain', K⟩ :=
          vcopyOp_copies R.consistent R.closed hline hsrc hdst hself hfile hrun
        exact ⟨chain', ⟨K.consistent, K.closed⟩, K.others⟩
  · unfold vcopyOp at hrun
    simp only [hline, ne_eq, not_false_eq_true, ↓reduceIte] at hrun
    injection hrun with _ hs
    subst hs
    exact ⟨chain, R, fun _ _ ↦ rfl⟩

omit R in
theorem vcopyinOp_run (hline : line.length = 3) (hhost : s.host (word line 2) = some input) :
    (vcopyinOp line).run s = (do
      member (truncate (word line 3))
      let out ← member (FileSystem.open (word line 3) .WRITE)
      vcopyinLoop out (input.length + 1) input
      member (close out)
      return false).run s := by
  unfold vcopyinOp
  simp only [hline, ne_eq, not_true_eq_false, ↓reduceIte, EStateM.run_bind, EStateM.run_get, hhost]

/-- Once its two calls have opened the file, `vcopyin` comes to its end. -/
theorem vcopyinOp_opened {out : ℤ} {fs₁ fs₂ : FileSystem} (hline : line.length = 3)
    (hdst : (word line 3).Fits) (hhost : s.host (word line 2) = some input)
    (htruncate : (truncate (word line 3)).run s.files = .ok () fs₁)
    (hcreate : (FileSystem.open (word line 3) .WRITE).run fs₁ = .ok out fs₂) :
    ∃ s' chain', (vcopyinOp line).run s = .ok false s' ∧
      Copied (word line 3) input (freeCount fs₂.fat) s chain s' chain' := by
  obtain ⟨h, k, chain₂, rfl, E⟩ := open_emptied R.consistent hdst
    (fun k _ h hu ↦ by simp [R.closed h] at hu) htruncate hcreate
  obtain ⟨s₃, chain₃, hloop, R₃, A, F⟩ := vcopyinLoop_run
    (s := { s with files := fs₂ }) E.receiving (Nat.lt_succ_self input.length)
  have hfound : s₃.files.rootDirectory.lookup (word line 3) = some k := by
    obtain ⟨z, hz⟩ := A.directory
    rw [hz]
    exact Directory.lookup_resize.trans E.found
  refine ⟨{ s₃ with files := shut s₃.files h }, chain₃, ?_, R₃.consistent.shut,
    file_eq_some.mpr ⟨k, hfound, ?_⟩, ?_, fun x hx ↦ ?_, fun j ↦ shut_closed fun hj ↦ ?_⟩
  · rw [vcopyinOp_run hline hhost, run_bind_ok (member_run htruncate),
      run_bind_ok (member_run hcreate), run_bind_ok hloop,
      run_bind_ok (close_member R₃.consistent R₃.inUse)]
    rfl
  · refine R₃.content.trans (List.take_eq_take_iff.mpr ?_)
    rw [List.nil_append]
    omega
  · have hiff : input ≠ [] ∧ 1024 * freeCount fs₂.fat + 1023 < ([] ++ input).length ↔
        1024 * freeCount fs₂.fat + 1023 < input.length := by
      rw [List.nil_append, ne_eq, ← List.length_eq_zero_iff]
      omega
    have F' := F.congr hiff
    exact ⟨F'.console, F'.host, F'.writable⟩
  · exact (E.elsewhere.trans (A.elsewhere E.found)).file hx
  · rw [A.inUse j, E.handles j hj]
    exact R.closed j

theorem vcopyinOp_copied (hline : line.length = 3) (hdst : (word line 3).Fits)
    (hhost : s.host (word line 2) = some input) (hrun : (vcopyinOp line).run s = .ok b s') :
    ∃ free chain', Copied (word line 3) input free s chain s' chain' := by
  have hsteps := hrun
  rw [vcopyinOp_run hline hhost] at hsteps
  obtain ⟨_, fs₁, htruncate, hsteps⟩ := exists_of_member_bind hsteps
  obtain ⟨out, fs₂, hcreate, -⟩ := exists_of_member_bind hsteps
  obtain ⟨s₁, chain', hrun₁, K⟩ := vcopyinOp_opened R hline hdst hhost htruncate hcreate
  rw [hrun] at hrun₁
  injection hrun₁ with _ hs
  rw [hs]
  exact ⟨_, chain', K⟩

theorem vcopyinOp_spared (hdst : (word line 3).Fits) (hrun : (vcopyinOp line).run s = .ok b s') :
    Spared (word line 3) s.files chain s'.files := by
  by_cases hline : line.length = 3
  · cases hhost : s.host (word line 2) with
    | none =>
      unfold vcopyinOp at hrun
      simp only [hline, ne_eq, not_true_eq_false, ↓reduceIte, EStateM.run_bind, EStateM.run_get,
        hhost] at hrun
      injection hrun with _ hs
      subst hs
      exact ⟨chain, R, fun _ _ ↦ rfl⟩
    | some input =>
      obtain ⟨free, chain', K⟩ := vcopyinOp_copied R hline hdst hhost hrun
      exact ⟨chain', ⟨K.consistent, K.closed⟩, K.others⟩
  · unfold vcopyinOp at hrun
    simp only [hline, ne_eq, not_false_eq_true, ↓reduceIte] at hrun
    injection hrun with _ hs
    subst hs
    exact ⟨chain, R, fun _ _ ↦ rfl⟩

theorem vdelOp_spared (hname : (word line 2).Fits) (hrun : (vdelOp line).run s = .ok b s') :
    Spared (word line 2) s.files chain s'.files := by
  unfold vdelOp at hrun
  by_cases hline : line.length = 2
  · simp only [hline, ne_eq, not_true_eq_false, ↓reduceIte] at hrun
    obtain ⟨_, fs₁, hremove, hrun⟩ := exists_of_member_bind hrun
    injection hrun with _ hs
    subst hs
    cases hl : s.files.rootDirectory.lookup (word line 2) with
    | none =>
      rw [remove_run_absent hname hl] at hremove
      injection hremove with _ hfs
      subst hfs
      exact ⟨chain, R, fun _ _ ↦ rfl⟩
    | some k =>
      rw [remove_run R.consistent hname hl] at hremove
      injection hremove with _ hfs
      subst hfs
      have C := R.consistent.removed (i := k) fun h hu ↦ by simp [R.closed h] at hu
      exact ⟨_, ⟨C, R.closed⟩, fun x hx ↦ (removed_elsewhere hl).file hx⟩
  · simp only [hline, ne_eq, not_false_eq_true, ↓reduceIte] at hrun
    injection hrun with _ hs
    subst hs
    exact ⟨chain, R, fun _ _ ↦ rfl⟩

end Operations

section Scanning

theorem nextDirLoop_scan {r : Option DirectoryInfo} (h : (nextDirLoop turns).run fs = .ok r fs') :
    ∃ k, fs' = { fs with scanIndex := k } := by
  induction turns generalizing fs with
  | zero =>
    injection h with _ hs
    exact ⟨fs.scanIndex, hs.symm⟩
  | succ turns ih =>
    by_cases hlt : fs.scanIndex < dirSize
    · by_cases hu : (fs.rootDirectory ⟨fs.scanIndex, hlt⟩).inUse = 0
      · simp only [nextDirLoop, EStateM.run_bind, EStateM.run_get, dif_pos hlt, hu, ↓reduceIte,
          modify_run] at h
        obtain ⟨k, hk⟩ := ih h
        exact ⟨k, hk⟩
      · cases hcopy : copyName fs.rootDirectory nameSize (32 * fs.scanIndex) with
        | none =>
          simp only [nextDirLoop, EStateM.run_bind, EStateM.run_get, dif_pos hlt, if_neg hu, hcopy,
            throw_run] at h
          cases h
        | some bytes =>
          simp only [nextDirLoop, EStateM.run_bind, EStateM.run_get, dif_pos hlt, if_neg hu, hcopy,
            modify_run, EStateM.run_pure] at h
          injection h with _ hs
          exact ⟨_, hs.symm⟩
    · simp only [nextDirLoop, EStateM.run_bind, EStateM.run_get, dif_neg hlt, EStateM.run_pure] at h
      injection h with _ hs
      exact ⟨fs.scanIndex, hs.symm⟩

theorem vdirLoop_scan (h : (vdirLoop turns).run s = .ok () s') :
    ∃ k, s'.files = { s.files with scanIndex := k } := by
  induction turns generalizing s with
  | zero => cases h
  | succ turns ih =>
    rw [vdirLoop] at h
    obtain ⟨r, fs₁, hnext, h⟩ := exists_of_member_bind h
    obtain ⟨k, rfl⟩ := nextDirLoop_scan hnext
    cases r with
    | none =>
      injection h with _ hs
      exact ⟨k, by rw [← hs]⟩
    | some info =>
      obtain ⟨k', hk'⟩ := ih h
      exact ⟨k', hk'⟩

theorem vdirOp_scan (h : (vdirOp line).run s = .ok b s') :
    ∃ k, s'.files = { s.files with scanIndex := k } := by
  unfold vdirOp at h
  obtain ⟨_, fs₁, hopen, h⟩ := exists_of_member_bind h
  injection hopen with _ hfs
  subst hfs
  obtain ⟨_, s₁, hloop, h⟩ := exists_of_run_bind h
  injection h with _ hs
  subst hs
  obtain ⟨k, hk⟩ := vdirLoop_scan hloop
  exact ⟨k, hk⟩

theorem Resting.rescan {k : ℕ} (R : Resting fs chain) :
    Resting { fs with scanIndex := k } chain where
  consistent :=
    ⟨R.consistent.formatted, R.consistent.device, R.consistent.layout, R.consistent.handles⟩
  closed := R.closed

end Scanning

def Commands (line : CommandLine) (command : String) : Prop := (word line 1).bytes = ascii command

/-- The commands that do not have the file as their target. -/
inductive Spares (name : CString) (line : CommandLine) : Prop
  | vcopy (hc : Commands line "vcopy") (hsrc : (word line 2).Fits) (hdst : (word line 3).Fits)
      (hne : name ≠ word line 3)
  | vcopyin (hc : Commands line "vcopyin") (hdst : (word line 3).Fits) (hne : name ≠ word line 3)
  | vdel (hc : Commands line "vdel") (hname : (word line 2).Fits) (hne : name ≠ word line 2)
  | vdir (hc : Commands line "vdir")

def Turn (s : Session) (line : CommandLine) (s' : Session) : Prop :=
  ∃ done, (interact line).run s = .ok done s'

def prompted (s : Session) : Session :=
  { s with console := s.console ++ [Line.available (freeCount s.files.fat * 1024)] }

theorem interact_run {command : String} {operation : CommandLine → Command Bool}
    (hf : s.files.formattedFlag = true) (hc : Commands line command)
    (hop : (jumpTable.find? fun c ↦ ascii c.1 = ascii command) = some (command, operation)) :
    (interact line).run s = (do
      let done ← operation line
      member check
      return done).run (prompted s) := by
  have hfree : (member freeSpace).run s = .ok (freeCount s.files.fat * 1024) s :=
    member_run (freeSpace_run hf)
  have hc : (word line 1).bytes = ascii command := hc
  unfold interact
  simp only [EStateM.run_bind, EStateM.run_get, hf, ↓reduceIte, hfree, hc, hop]
  rfl

theorem check_pure (h : check.run fs = .ok () fs') : fs' = fs := by
  simp only [check, EStateM.run_bind, EStateM.run_get] at h
  cases hcheck : checkWith loopBound fs with
  | ok _ =>
    rw [hcheck] at h
    injection h with _ hs
    exact hs.symm
  | error e =>
    rw [hcheck] at h
    cases h

theorem Turn.operation {command : String} {operation : CommandLine → Command Bool}
    (h : Turn s line s') (hf : s.files.formattedFlag = true) (hc : Commands line command)
    (hop : (jumpTable.find? fun c ↦ ascii c.1 = ascii command) = some (command, operation)) :
    ∃ b, (operation line).run (prompted s) = .ok b s' := by
  obtain ⟨done, hrun⟩ := h
  rw [interact_run hf hc hop] at hrun
  obtain ⟨b, s₁, hop, hrun⟩ := exists_of_run_bind hrun
  obtain ⟨_, fs₁, hcheck, hrun⟩ := exists_of_member_bind hrun
  obtain rfl := check_pure hcheck
  injection hrun with _ hs
  exact ⟨b, by rw [hop, ← hs]⟩

theorem Spared.kept {x : CString} (h : Spared x fs chain fs') (hne : name ≠ x) :
    ∃ chain', Resting fs' chain' ∧ file fs' chain' name = file fs chain name := by
  obtain ⟨chain', R', hothers⟩ := h
  exact ⟨chain', R', hothers name hne⟩

theorem Spares.kept (hs : Spares name line) (R : Resting s.files chain) (h : Turn s line s') :
    ∃ chain', Resting s'.files chain' ∧ file s'.files chain' name = file s.files chain name := by
  have hf := R.consistent.formatted
  have R' : Resting (prompted s).files chain := R
  cases hs with
  | vcopy hc hsrc hdst hne =>
    obtain ⟨b, hrun⟩ := h.operation hf hc rfl
    exact (vcopyOp_spared R' hsrc hdst hrun).kept hne
  | vcopyin hc hdst hne =>
    obtain ⟨b, hrun⟩ := h.operation hf hc rfl
    exact (vcopyinOp_spared R' hdst hrun).kept hne
  | vdel hc hname hne =>
    obtain ⟨b, hrun⟩ := h.operation hf hc rfl
    exact (vdelOp_spared R' hname hrun).kept hne
  | vdir hc =>
    obtain ⟨b, hrun⟩ := h.operation hf hc rfl
    obtain ⟨k, hk⟩ := vdirOp_scan hrun
    rw [hk]
    exact ⟨chain, R.rescan, rfl⟩

section Export

/-- The loop of `vcopyout` from a file at offset `o` puts the rest of the file
behind what the host file has. -/
theorem vcopyoutLoop_run {out : CString} {written : List UInt8}
    (S : Sending m i o bytes s.files chain)
    (C : Consistent s.files chain) (hhost : s.host out = some written)
    (hturns : bytes.length - o < turns) :
    (vcopyoutLoop m out turns).run s = .ok () { s with
      files := s.files.seek m (chain i) bytes.length
      host := update s.host out (some (written ++ bytes.drop o)) } := by
  induction turns generalizing s o written with
  | zero => exact absurd hturns (Nat.not_lt_zero _)
  | succ turns ih =>
    obtain ⟨n, hn⟩ : ∃ n, n = ((bytes.drop o).take 1000).length := ⟨_, rfl⟩
    have hread := S.read C hn
    have hlen := hn
    rw [List.length_take, List.length_drop] at hlen
    have hle := S.le_size C
    have hturn : (vcopyoutLoop m out (turns + 1)).run s = (if (n : ℤ) = 0 then pure () else do
        hostWrite out ((bytes.drop o).take 1000)
        vcopyoutLoop m out turns).run { s with files := s.files.seek m (chain i) (o + n) } :=
      run_bind_ok (member_run hread)
    rw [hturn]
    by_cases hend : n = 0
    · have hall : o + n = bytes.length := by omega
      have hself : update s.host out (some (written ++ bytes.drop o)) = s.host := by
        rw [List.drop_eq_nil_of_le (by omega), List.append_nil, ← hhost, update_eq_self]
      rw [if_pos (by exact_mod_cast hend), hall, hself]
      rfl
    · have hinUse := (C.handles m S.inUse).inUse
      rw [S.index] at hinUse
      have C₁ := C.seek S.index hinUse (o := o + n) (by omega)
      have hhost₁ : update s.host out ((s.host out).map (· ++ (bytes.drop o).take 1000)) out =
          some (written ++ (bytes.drop o).take 1000) := by
        rw [update_self, hhost]
        rfl
      have hrest := ih (s := { s with
          files := s.files.seek m (chain i) (o + n)
          host := update s.host out ((s.host out).map (· ++ (bytes.drop o).take 1000)) })
        S.seek C₁ hhost₁ (by omega)
      have hbytes : (bytes.drop o).take 1000 ++ bytes.drop (o + n) = bytes.drop o := by
        have hdrop : bytes.drop (o + n) = (bytes.drop o).drop 1000 := by
          rw [List.drop_drop]
          exact List.drop_eq_drop_iff.mpr (by omega)
        rw [hdrop, List.take_append_drop]
      rw [if_neg (by exact_mod_cast hend)]
      refine hrest.trans ?_
      rw [List.append_assoc, hbytes]
      simp only [seek_seek, update_idem]

/-- What `vcopyout` makes of a session when it has opened the output file. -/
structure Sent (out : CString) (bytes : List UInt8) (s : Session) (chain : Fin dirSize → List ℕ)
    (s' : Session) : Prop where
  resting : Resting s'.files chain
  directory : s'.files.rootDirectory = s.files.rootDirectory
  fat : s'.files.fat = s.files.fat
  disk : s'.files.theDisk = s.files.theDisk
  content : ∀ i, content s'.files chain i = content s.files chain i
  console : s'.console = s.console
  host : s'.host = update s.host out (some bytes)
  writable : s'.writable = s.writable

theorem vcopyoutOp_sent (R : Resting s.files chain) (hline : line.length = 3)
    (hsrc : (word line 2).Fits) (hfile : file s.files chain (word line 2) = some bytes)
    (hout : s.writable (word line 3) = true) (hdevice : word line 3 ≠ blockDev) :
    ∃ s', (vcopyoutOp line).run s = .ok false s' ∧ Sent (word line 3) bytes s chain s' := by
  obtain ⟨i, hl, hbytes⟩ := file_eq_some.mp hfile
  obtain ⟨m, -, hopen⟩ := open_found R.consistent hsrc hl ⟨0, R.closed 0⟩ .READ
  obtain ⟨C₁, S₁⟩ := Sending.of_found (m := m) R.consistent hsrc hl
  rw [hbytes] at S₁
  have hothers : ∀ j, j ≠ m → ((s.files.withHandle m
      (newHandle s.files.rootDirectory chain i .READ)).handleTable j).inUse = false := fun j hj ↦ by
    simp [hj, R.closed j]
  have hdirectory : (s.files.withHandle m
      (newHandle s.files.rootDirectory chain i .READ)).rootDirectory = s.files.rootDirectory := rfl
  have hfat : (s.files.withHandle m
      (newHandle s.files.rootDirectory chain i .READ)).fat = s.files.fat := rfl
  have hdisk : (s.files.withHandle m
      (newHandle s.files.rootDirectory chain i .READ)).theDisk = s.files.theDisk := rfl
  have hcontent : ∀ j, Fat.content (s.files.withHandle m
      (newHandle s.files.rootDirectory chain i .READ)) chain j = Fat.content s.files chain j :=
      fun _ ↦ rfl
  generalize s.files.withHandle m (newHandle s.files.rootDirectory chain i .READ) = fs₁ at *
  have hinUse := (C₁.handles m S₁.inUse).inUse
  rw [S₁.index] at hinUse
  have C₂ := C₁.seek S₁.index hinUse (o := bytes.length) (S₁.le_size C₁).2.le
  have hloop := vcopyoutLoop_run
    (s := { s with files := fs₁, host := update s.host (word line 3) (some []) })
    S₁ C₁ (update_self _ _ _) (show bytes.length - 0 < transferBound from S₁.length_lt C₁)
  rw [List.nil_append, List.drop_zero, update_idem] at hloop
  have hseek : ((fs₁.seek m (chain i) bytes.length).handleTable m).inUse = true := by
    rw [seek_handle]
    exact S₁.inUse
  have hclose := close_member (s := { s with
    files := fs₁.seek m (chain i) bytes.length
    host := update s.host (word line 3) (some bytes) }) C₂ hseek
  refine ⟨{ s with
    files := shut (fs₁.seek m (chain i) bytes.length) m
    host := update s.host (word line 3) (some bytes) }, ?_,
    ⟨C₂.shut, fun j ↦ shut_closed fun hj ↦ ?_⟩,
    hdirectory, hfat, hdisk, hcontent, rfl, rfl, rfl⟩
  · unfold vcopyoutOp
    simp only [hline, ne_eq, not_true_eq_false, ↓reduceIte]
    rw [run_bind_ok (member_run hopen)]
    have hget : (get : Command Session).run { s with files := fs₁ } = .ok _ _ := rfl
    have hmodify :
        (modify fun t : Session ↦ { t with host := update t.host (word line 3) (some []) } :
      Command Unit).run { s with files := fs₁ } = .ok _ _ := rfl
    rw [run_bind_ok hget]
    simp only [hout, Bool.true_eq_false, ↓reduceIte]
    rw [run_bind_ok hmodify]
    simp only [hdevice, ↓reduceIte]
    rw [run_bind_ok hloop, run_bind_ok hclose]
    rfl
  · simpa [FileSystem.seek, hj] using hothers j hj

theorem vcopyoutOp_written (R : Resting s.files chain) (hline : line.length = 3)
    (hsrc : (word line 2).Fits) (hfile : file s.files chain (word line 2) = some bytes)
    (hout : s.writable (word line 3) = true) (hdevice : word line 3 ≠ blockDev) :
    ∃ s', (vcopyoutOp line).run s = .ok false s' ∧ Resting s'.files chain ∧
      s'.host = update s.host (word line 3) (some bytes) := by
  obtain ⟨s', hrun, T⟩ := vcopyoutOp_sent R hline hsrc hfile hout hdevice
  exact ⟨s', hrun, T.resting, T.host⟩

end Export

/-- What `vcopyin` put into a file without a complaint, `vcopyout` gives back, whatever other
commands came between that do not have the file as their target. Between two commands the files
of the host may change. -/
theorem vcopyout_of_vcopyin {s₁ s₂ : Session} {line' : CommandLine} {lines : List CommandLine}
    (R : Resting s.files chain) (hn : name.Fits) (hc : Commands line "vcopyin")
    (hline : line.length = 3) (hname : word line 3 = name)
    (hhost : s.host (word line 2) = some input)
    (hin : Turn s line s₁)
    (hquiet : ∃ printed, s₁.console = s.console ++ printed ∧ ∀ text, Line.error text ∉ printed)
    (hrun : Run (fun s line s' ↦ Spares name line ∧ ∃ host, Turn { s with host } line s') s₁ lines
      s₂)
    (hc' : Commands line' "vcopyout") (hline' : line'.length = 3) (hname' : word line' 2 = name)
    (hout : s₂.writable (word line' 3) = true) (hdevice : word line' 3 ≠ blockDev) :
    ∃ s₃, Turn s₂ line' s₃ ∧ s₃.host = update s₂.host (word line' 3) (some input) := by
  subst hname
  -- the import: nothing was left over
  obtain ⟨b, hop⟩ := hin.operation R.consistent.formatted hc rfl
  have R' : Resting (prompted s).files chain := R
  obtain ⟨free, chain₁, K⟩ := vcopyinOp_copied R' hline hn hhost hop
  obtain ⟨n, hconsole, hn0⟩ := K.filled.console
  obtain ⟨printed, hprinted, hno⟩ := hquiet
  have hfits : input.length ≤ 1024 * free + 1023 := by
    by_contra hlong
    have hpos := hn0.mpr (not_le.mp hlong)
    refine hno "problem writing destination" ?_
    rw [hprinted, prompted, List.append_assoc] at hconsole
    rw [List.append_cancel_left hconsole]
    exact List.mem_append_right _ (List.mem_replicate.mpr ⟨hpos.ne', rfl⟩)
  have hfile := K.destination
  rw [List.take_of_length_le (by omega)] at hfile
  -- the other commands keep the file
  obtain ⟨chain₂, R₂, hfile₂⟩ := hrun.invariant
    (P := fun t ↦ ∃ chain, Resting t.files chain ∧ file t.files chain (word line 3) = some input)
    (fun t l u ⟨c, Rt, hft⟩ ⟨hs, host, hturn⟩ ↦ by
      obtain ⟨c', Ru, hfu⟩ := hs.kept (s := { t with host }) Rt hturn
      exact ⟨c', Ru, hfu.trans hft⟩)
    ⟨chain₁, ⟨K.consistent, K.closed⟩, hfile⟩
  -- the export
  have R₂' : Resting (prompted s₂).files chain₂ := R₂
  rw [← hname'] at hfile₂ hn
  obtain ⟨s₃, hexport, R₃, hhost₃⟩ := vcopyoutOp_written R₂' hline' hn hfile₂ hout hdevice
  have hcheck : (member check).run s₃ = .ok () s₃ :=
    member_run (check_run R₃.consistent fun h hu ↦ by simp [R₃.closed h] at hu)
  refine ⟨s₃, ⟨false, ?_⟩, hhost₃⟩
  rw [interact_run R₂.consistent.formatted hc' rfl, run_bind_ok hexport,
    run_bind_ok hcheck]
  rfl

section Blank

def blankSession : Session where
  files := blankFormatted
  console := []
  host := update (fun _ ↦ none) nameA (some [7])
  writable _ := true

def importLine : CommandLine := [⟨ascii "vcopyin", by decide⟩, nameA, nameA]

def listLine : CommandLine := [⟨ascii "vdir", by decide⟩]

def exportLine : CommandLine := [⟨ascii "vcopyout", by decide⟩, nameA, nameA]

theorem blankSession_resting : ∃ chain, Resting blankSession.files chain := by
  obtain ⟨⟨C, -, -⟩, -, hclosed⟩ := begins_blank.fresh
  exact ⟨_, C, hclosed⟩

theorem turn_of_ok (s : Session) (line : CommandLine) {p : Session → Bool}
    (h : (match (interact line).run s with
    | .ok _ s' => p s'
    | .error _ _ => false) = true) : ∃ s', Turn s line s' ∧ p s' = true := by
  cases hrun : (interact line).run s with
  | error e s' =>
    rw [hrun] at h
    cases h
  | ok done s' =>
    rw [hrun] at h
    exact ⟨s', ⟨done, hrun⟩, h⟩

theorem vcopyout_of_vcopyin_blank : ∃ s₁ s₂ s₃, Turn blankSession importLine s₁ ∧
    Turn s₁ listLine s₂ ∧ Turn s₂ exportLine s₃ ∧ s₃.host nameA = some [7] := by
  obtain ⟨chain, R⟩ := blankSession_resting
  have hspares : Spares nameA listLine := .vdir rfl
  have hhost : blankSession.host nameA = some [7] := by simp [blankSession]
  obtain ⟨s₁, hin, hok⟩ := turn_of_ok blankSession importLine (p := fun s₁ ↦
    decide (s₁.console = [Line.available (509 * 1024)]) && match (interact listLine).run s₁ with
      | .ok _ s₂ => s₂.writable nameA
      | .error _ _ => false) (by decide +kernel)
  obtain ⟨hconsole, hok⟩ := (Bool.and_eq_true _ _).mp hok
  obtain ⟨s₂, hlist, hok⟩ := turn_of_ok s₁ listLine (p := fun s₂ ↦ s₂.writable nameA) hok
  obtain ⟨s₃, hexport, hhost⟩ := vcopyout_of_vcopyin R (show nameA.Fits by decide)
    (show Commands importLine "vcopyin" from rfl) rfl rfl hhost hin
    ⟨_, of_decide_eq_true hconsole, by simp⟩ (.cons ⟨hspares, s₁.host, hlist⟩ (.nil s₂))
    (show Commands exportLine "vcopyout" from rfl) rfl rfl hok (by decide)
  exact ⟨s₁, s₂, s₃, hin, hlist, hexport, by rw [hhost]; exact update_self _ _ _⟩

def deviceLine : CommandLine := [⟨ascii "vcopyout", by decide⟩, nameA, blockDev]

/-- The file of the device does not hold what is exported to it. -/
theorem not_vcopyout_of_vcopyin :
    ¬∀ (s s₁ s₂ : Session) (chain : Fin dirSize → List ℕ) (line line' : CommandLine)
    (lines : List CommandLine) (name : CString) (input : List UInt8),
    Resting s.files chain → name.Fits →
    Commands line "vcopyin" → line.length = 3 → word line 3 = name →
    s.host (word line 2) = some input →
    Turn s line s₁ →
    (∃ printed, s₁.console = s.console ++ printed ∧ ∀ text, Line.error text ∉ printed) →
    Run (fun s line s' ↦ Spares name line ∧ ∃ host, Turn { s with host } line s') s₁ lines s₂ →
    Commands line' "vcopyout" → line'.length = 3 → word line' 2 = name →
    s₂.writable (word line' 3) = true →
    ∃ s₃, Turn s₂ line' s₃ ∧ s₃.host = update s₂.host (word line' 3) (some input) := by
  intro hclaim
  obtain ⟨chain, R⟩ := blankSession_resting
  have hhost : blankSession.host nameA = some [7] := by simp [blankSession]
  obtain ⟨s₁, hin, hok⟩ := turn_of_ok blankSession importLine (p := fun s₁ ↦
    decide (s₁.console = [Line.available (509 * 1024)]) && (s₁.writable blockDev &&
      match (interact deviceLine).run s₁ with
      | .ok _ _ => false
      | .error _ _ => true)) (by decide +kernel)
  obtain ⟨hconsole, hok⟩ := (Bool.and_eq_true _ _).mp hok
  obtain ⟨hout, hfails⟩ := (Bool.and_eq_true _ _).mp hok
  obtain ⟨s₃, ⟨done, hexport⟩, -⟩ := hclaim blankSession s₁ s₁ chain importLine deviceLine [] nameA
    [7] R (by decide)
    rfl rfl rfl hhost hin ⟨_, of_decide_eq_true hconsole, by simp⟩ (.nil s₁) rfl rfl rfl hout
  rw [hexport] at hfails
  cases hfails

end Blank

end GenericFs.Shell
