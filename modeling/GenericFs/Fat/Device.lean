import GenericFs.Fat.Forgetting
import GenericFs.Fat.Loaded

namespace GenericFs.Fat

open GenericFs.Library Chain Machine Function FileSystem

def DeviceException (e : Fault) : Prop :=
  e = .thrown "Attempt to read an invalid block by a block device" ∨
    e = .thrown "Attempt to write an invalid block by a block device"

instance (e : Fault) : Decidable (DeviceException e) := inferInstanceAs (Decidable (_ ∨ _))

def refusals : Call → List Fault
  | .open _ _ =>
    [.thrown "FileSystem::open() -- Out of available handles",
      .thrown "FileSystem::open() -- File does not exist",
      .thrown "FileSystem::open() -- Unable to create file. No space in root directory",
      .thrown "FileSystem::open() -- Unable to create file. Not enough disk space"]
  | .read _ _ =>
    [.thrown "FileSystem::read() -- Invalid handle",
      .thrown "FileSystem::read() -- Handle not opened for reading"]
  | .write _ _ _ =>
    [.thrown "FileSystem::write() -- Invalid handle",
      .thrown "FileSystem::write() -- Handle not opened for writing"]
  | .close _ =>
    [.thrown "Invalid handle used during close(). Handle out of range.",
      .thrown "Invalid handle used during close(). Handle not open."]
  | _ => []

theorem not_deviceException_of_refusal {c : Call} {e : Fault} (h : e ∈ refusals c) :
    ¬DeviceException e := by
  cases c <;> simp only [refusals, List.mem_cons, List.not_mem_nil, or_false] at h
  case «open» => rcases h with rfl | rfl | rfl | rfl <;> decide
  case read | write | close => rcases h with rfl | rfl <;> decide

variable {fs fs' : FileSystem} {chain : Fin dirSize → List ℕ} {c : Call} {e : Fault}
  {handle count : ℤ} {name : CString}

/-- How a call ends that returns, or that the file system refuses. -/
def Refused (c : Call) (r : EStateM.Result Fault FileSystem Reply) : Prop :=
  ∀ e s, r = .error e s → e ∈ refusals c

theorem Refused.ok {r : Reply} : Refused c (.ok r fs) := nofun

theorem Refused.error (h : e ∈ refusals c) : Refused c (.error e fs) := by
  intro e' s hr
  injection hr with he
  rwa [← he]

section Calls

variable (C : Consistent fs chain)

include C

theorem open_refused {mode : OpenMode} (hn : name.Fits) :
    Refused (.open name mode) ((Call.open name mode).exec.run fs) := by
  simp only [Call.exec, FileSystem.open, EStateM.run_bind, EStateM.run_get]
  cases Fin.find? fun h ↦ (fs.handleTable h).inUse = false with
  | none => exact .error (by simp [refusals])
  | some h =>
    simp only [EStateM.run_bind, findEntry_run hn]
    cases hl : fs.rootDirectory.lookup name with
    | some i =>
      obtain ⟨hu, hs⟩ := C.of_lookup hn hl
      simp only [EStateM.run_bind, openEntry_run C hu hs]
      exact .ok
    | none =>
      cases mode with
      | READ => exact .error (by simp [refusals])
      | WRITE =>
        simp only [reduceCtorEq, ↓reduceIte]
        cases hi : Fin.find? fun i ↦ (fs.rootDirectory i).inUse = 0 with
        | none =>
          simp only [createFile, EStateM.run_bind, EStateM.run_get, hi]
          exact .error (by simp [refusals])
        | some i =>
          cases hj : fs.fat.firstFree with
          | none =>
            simp only [createFile, EStateM.run_bind, EStateM.run_get, hi, hj]
            exact .error (by simp [refusals])
          | some j =>
            simp only [EStateM.run_bind, createFile_run hn hi hj]
            exact .ok

theorem read_refused (hcount : 0 ≤ count) :
    Refused (.read handle count) ((Call.read handle count).exec.run fs) := by
  by_cases hok : ∃ h, Held fs handle h ∧ (fs.handleTable h).mode = .READ
  · obtain ⟨h, ⟨rfl, hu⟩, hm⟩ := hok
    have ho := (Int.toNat_of_nonneg (C.handles h hu).nonneg).symm
    simp only [Call.exec, EStateM.run_bind, read_run C hu hm rfl hcount ho rfl]
    exact .ok
  · obtain ⟨m, hmsg, hrun⟩ := read_throws count (by simpa using hok)
    simp only [Call.exec, EStateM.run_bind, hrun]
    exact .error (by simpa [refusals] using hmsg)

theorem write_refused {buffer : List UInt8} (S : Solo fs) (hcount : 0 ≤ count)
    (hbuffer : count ≤ buffer.length) :
    Refused (.write handle buffer count) ((Call.write handle buffer count).exec.run fs) := by
  by_cases hok : ∃ h, Held fs handle h ∧ (fs.handleTable h).mode = .WRITE
  · obtain ⟨h, ⟨rfl, hu⟩, hm⟩ := hok
    have hlen : count.toNat ≤ buffer.length := by omega
    obtain ⟨fs', chain', ws, hrun, -⟩ := write_run C hu hm hcount hlen rfl fun _ ↦ S.atEnd h hu hm
    simp only [Call.exec, EStateM.run_bind, hrun]
    exact .ok
  · obtain ⟨m, hmsg, hrun⟩ := write_throws buffer count (by simpa using hok)
    simp only [Call.exec, EStateM.run_bind, hrun]
    exact .error (by simpa [refusals] using hmsg)

theorem close_refused (hhandle : 0 ≤ handle) :
    Refused (.close handle) ((Call.close handle).exec.run fs) := by
  by_cases hok : ∃ h, Held fs handle h
  · obtain ⟨h, rfl, hu⟩ := hok
    simp only [Call.exec, EStateM.run_bind, close_run C.formatted hu]
    exact .ok
  · obtain ⟨m, hmsg, hrun⟩ := close_throws C.formatted hhandle (by simpa using hok)
    simp only [Call.exec, EStateM.run_bind, hrun]
    exact .error (by simpa [refusals] using hmsg)

/-- A call of an ordinary client returns, or the file system refuses it. -/
theorem exec_refused (S : Solo fs) (hc : FileCall c) (hp : Polite fs c) :
    Refused c (c.exec.run fs) := by
  cases c with
  | «open» name mode => exact open_refused C hp.1
  | read handle count => exact read_refused C hp
  | write handle buffer count => exact write_refused C S hp.1 hp.2
  | close handle => exact close_refused C hp
  | truncate name =>
    cases hl : fs.rootDirectory.lookup name with
    | none =>
      simp only [Call.exec, EStateM.run_bind, truncate_run_absent hp.1 hl]
      exact .ok
    | some i =>
      simp only [Call.exec, EStateM.run_bind, truncate_run C hp.1 hl]
      exact .ok
  | remove name =>
    cases hl : fs.rootDirectory.lookup name with
    | none =>
      simp only [Call.exec, EStateM.run_bind, remove_run_absent hp.1 hl]
      exact .ok
    | some i =>
      simp only [Call.exec, EStateM.run_bind, remove_run C hp.1 hl]
      exact .ok
  | format | openDir | nextDir | freeSpace | check => exact hc.elim

end Calls

/-- What a run needs from its device. The device refuses every block number from
`blk_count()` on with an exception, so that a run without such an exception has
read and written only blocks below it. -/
structure Served (blockCount : ℕ) (ls : List (Call × Outcome)) (fs' : FileSystem) : Prop where
  quiet : ∀ l ∈ ls, ∀ e, l.2 = .error e → ¬DeviceException e
  space : ∃ n, freeSpace.run fs' = .ok n fs' ∧ n ≤ 1024 * ((blockCount : ℤ) - 3)

variable {disk : BlockDevice blockSize} {raw fs₀ : FileSystem} {ls : List (Call × Outcome)}

theorem FileStep.quiet {l : Call × Outcome} (R : Regular fs) (h : FileStep fs l fs') :
    ∀ e, l.2 = .error e → ¬DeviceException e := by
  obtain ⟨chain, C, S, -⟩ := R
  obtain ⟨c, o⟩ := l
  obtain ⟨hfile, hp, hstep⟩ := h
  intro e he
  have hrefused := exec_refused C S hfile hp
  simp only [Step, Call.reply] at hstep
  cases hr : c.exec.run fs with
  | ok r s =>
    rw [hr] at hstep
    injection hstep with ho
    rw [← ho] at he
    cases he
  | error e' s =>
    rw [hr] at hstep hrefused
    injection hstep with ho
    rw [← ho] at he
    injection he with he
    subst he
    exact not_deviceException_of_refusal (hrefused e' s rfl)

theorem Begins.served (B : Begins disk raw fs₀ fs) (hr : Run FileStep fs ls fs') :
    Served disk.blockCount ls fs' := by
  have hlabels := (hr.strengthen (P := Regular) (fun s l t R h ↦ R.step h.2)
    (fun s l t R h ↦ FileStep.quiet R h) B.regular).labels fun _ _ _ h ↦ h.2
  obtain ⟨chain, C, -, O⟩ := hr.invariant (P := Regular) (fun s l t R h ↦ R.step h.2) B.regular
  refine ⟨hlabels, _, freeSpace_run C.formatted, ?_⟩
  have hfree := freeCount_eq C O
  have hdev := B.device
  omega

/-- The device serves every run exactly when it has a block for every entry of
the FAT. -/
theorem device_suffices_iff (hfresh : construct disk raw = .ok fs₀)
    (hformat : format.run fs₀ = .ok () fs) :
    (∀ ls fs', Run FileStep fs ls fs' → Served disk.blockCount ls fs') ↔
      512 ≤ disk.blockCount := by
  constructor
  · intro h
    obtain ⟨n, hn, hle⟩ := (h [] fs (.nil fs)).space
    obtain ⟨hdisk, -⟩ := construct_fields (four_le_of_construct hfresh) hfresh
    rw [format_reformatted (by rw [hdisk]; exact four_le_of_construct hfresh)] at hformat
    injection hformat with _ hfs
    subst hfs
    rw [freeSpace_run rfl] at hn
    injection hn with hn _
    have O : Ordinary (reformatted fs₀) := .formatted rfl rfl (by simp [reformatted])
    have hfree := layout_empty.freeCount_add O.reservedOnly
    have hfat : (reformatted fs₀).fat = emptyFat := rfl
    rw [hfat] at hn
    simp only [List.length_nil, Finset.sum_const_zero, Nat.add_zero] at hfree
    omega
  · intro hdev ls fs' hr
    exact Begins.served ⟨hdev, hfresh, hformat⟩ hr

def reopenedA : FileSystem :=
  ((Call.open nameA .READ).reply
  ((Call.close 0).reply ((Call.write 0 [65, 66] 2).reply createdA).2).2).2

set_option maxRecDepth 20000 in
theorem read_reopenedA : ((Call.read 0 2).reply reopenedA).1 = .ok (.bytes 2 [65, 66]) := rfl

theorem device_suffices_iff_blank :
    ∃ ls fs', (.read 0 2, .ok (.bytes 2 [65, 66])) ∈ ls ∧ Served 512 ls fs' := by
  have hopen : FileStep blankFormatted (.open nameA .WRITE, .ok (.handle 0)) createdA :=
    ⟨trivial, polite_open_blank .WRITE, open_createdA⟩
  have hwrite : FileStep createdA (.write 0 [65, 66] 2, _) _ :=
    ⟨trivial, .of_polite ⟨by decide, by decide⟩⟩
  have hclose : FileStep ((Call.write 0 [65, 66] 2).reply createdA).2 (.close 0, _) _ :=
    ⟨trivial, .of_polite (show (0 : ℤ) ≤ 0 by decide)⟩
  have hreopen : FileStep ((Call.close 0).reply ((Call.write 0 [65, 66] 2).reply createdA).2).2
      (.open nameA .READ, _) reopenedA := ⟨trivial, .of_polite ⟨by decide, nofun⟩⟩
  have hread : FileStep reopenedA (.read 0 2, .ok (.bytes 2 [65, 66])) _ :=
    ⟨trivial, .of_reply (show (0 : ℤ) ≤ 2 by decide) read_reopenedA⟩
  have hserved :=
    (device_suffices_iff begins_blank.constructed begins_blank.formatted).mpr le_rfl _ _
      (.cons hopen (.cons hwrite (.cons hclose (.cons hreopen (.cons hread (.nil _))))))
  exact ⟨_, _, by simp, hserved⟩

section Small

theorem Step.of_outcome {o : Outcome} (h : (c.reply fs).1 = o) : Step fs (c, o) (c.reply fs).2 := by
  rw [← h]
  rfl

def smallDisk : BlockDevice blockSize := { blankDisk with blockCount := 4 }

def smallFormatted : FileSystem := (Call.format.reply { blankObject with theDisk := smallDisk }).2

def smallCreated : FileSystem := ((Call.open nameA .WRITE).reply smallFormatted).2

def smallOpened : FileSystem := ((Call.open nameB .WRITE).reply smallCreated).2

set_option maxRecDepth 20000 in
theorem write_smallOpened : ((Call.write 1 [7] 1).reply smallOpened).1 =
    .error (.thrown "Attempt to read an invalid block by a block device") := rfl

theorem not_device_suffices : ¬∀ (disk : BlockDevice blockSize) (raw fs₀ fs : FileSystem),
    4 ≤ disk.blockCount → construct disk raw = .ok fs₀ → format.run fs₀ = .ok () fs →
      ∀ ls fs', Run FileStep fs ls fs' → Served disk.blockCount ls fs' := by
  intro h
  have hfresh : construct smallDisk { blankObject with theDisk := smallDisk } =
      .ok { blankObject with theDisk := smallDisk } := by
    have hcell : (smallDisk.block 0).cells 0 ≠ formatted := by decide
    rw [construct_eq (by decide), if_neg fun h ↦ hcell h.1]
    rfl
  have hformat : format.run { blankObject with theDisk := smallDisk } = .ok () smallFormatted := by
    rw [smallFormatted, Call.reply, Call.exec, EStateM.run_bind,
      format_reformatted (show 4 ≤ smallDisk.blockCount by decide)]
    rfl
  have hopenA : FileStep smallFormatted
      (.open nameA .WRITE, ((Call.open nameA .WRITE).reply smallFormatted).1) smallCreated := by
    refine ⟨trivial, .of_polite ⟨by decide, fun _ i hi ↦ ?_⟩⟩
    have hnone : smallFormatted.rootDirectory.lookup nameA = none := by decide +kernel
    rw [hnone] at hi
    cases hi
  have hopenB : FileStep smallCreated
      (.open nameB .WRITE, ((Call.open nameB .WRITE).reply smallCreated).1) smallOpened := by
    refine ⟨trivial, .of_polite ⟨by decide, fun _ i hi ↦ ?_⟩⟩
    have hnone : smallCreated.rootDirectory.lookup nameB = none := by decide +kernel
    rw [hnone] at hi
    cases hi
  have hpolite : Polite smallOpened (.write 1 [7] 1) := ⟨by decide, by decide⟩
  have hwrite : FileStep smallOpened
      (.write 1 [7] 1, .error (.thrown "Attempt to read an invalid block by a block device"))
      ((Call.write 1 [7] 1).reply smallOpened).2 :=
    ⟨trivial, hpolite, Step.of_outcome write_smallOpened⟩
  have hserved := h _ _ _ _ (by decide) hfresh hformat _ _
    (.cons hopenA (.cons hopenB (.cons hwrite (.nil _))))
  exact hserved.quiet _ (.tail _ (.tail _ (.head _))) _ rfl (.inl rfl)

end Small

end GenericFs.Fat
