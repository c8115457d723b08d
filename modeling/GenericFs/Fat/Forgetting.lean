import GenericFs.Library.Agreeing
import GenericFs.Fat.Runs

namespace GenericFs.Fat

open GenericFs.Library Agreeing Machine Function FileSystem

/-- A failure behind which the program shows nothing any more. -/
def Fatal : Fault → Prop
  | .thrown _ => False
  | .undefined | .endless => True

instance (e : Fault) : Decidable (Fatal e) := by
  cases e <;> simp only [Fatal] <;> infer_instance

/-- Two objects that differ at most in the entries of closed handles, and in the
scan index unless `scan` holds. The handles in `H` are known to be open. -/
structure Same (scan : Prop) (H : Set (Fin handleTableSize)) (fs fs' : FileSystem) : Prop where
  theDisk : fs.theDisk = fs'.theDisk
  formattedFlag : fs.formattedFlag = fs'.formattedFlag
  fat : fs.fat = fs'.fat
  rootDirectory : fs.rootDirectory = fs'.rootDirectory
  inUse : ∀ h, (fs.handleTable h).inUse = (fs'.handleTable h).inUse
  entry : ∀ h, (fs.handleTable h).inUse = true → fs.handleTable h = fs'.handleTable h
  held : ∀ h ∈ H, (fs.handleTable h).inUse = true
  scanIndex : scan → fs.scanIndex = fs'.scanIndex

variable {scan : Prop} {H : Set (Fin handleTableSize)} {fs fs' : FileSystem}
  {h : Fin handleTableSize} {e : HandleTableEntry} {i : Fin dirSize} {d : DirectoryEntry}
  {b v n : ℕ} {buffer : Block} {name : CString}

theorem Same.at (S : Same scan {h} fs fs') : fs.handleTable h = fs'.handleTable h :=
  S.entry h (S.held h rfl)

theorem Same.open (S : Same scan {h} fs fs') : (fs'.handleTable h).inUse = true := by
  rw [← S.at]
  exact S.held h rfl

theorem Same.hold (S : Same scan H fs fs') (hu : (fs.handleTable h).inUse = true) :
    Same scan {h} fs fs' :=
  { S with held := fun k hk ↦ by rw [Set.mem_singleton_iff.mp hk]; exact hu }

theorem Same.drop (S : Same scan H fs fs') : Same scan ∅ fs fs' :=
  { S with held := fun _ hk ↦ hk.elim }

theorem Same.withHandle (S : Same scan H fs fs') (he : h ∈ H → e.inUse = true) :
    Same scan H (fs.withHandle h e) (fs'.withHandle h e) where
  theDisk := S.theDisk
  formattedFlag := S.formattedFlag
  fat := S.fat
  rootDirectory := S.rootDirectory
  inUse k := by
    simp only [withHandle_fields, update_apply]
    split
    · rfl
    · exact S.inUse k
  entry k hk := by
    simp only [withHandle_fields, update_apply] at hk ⊢
    split at hk
    · simp [*]
    · simp only [*, ↓reduceIte]
      exact S.entry k hk
  held k hk := by
    simp only [withHandle_fields, update_apply]
    split
    · next heq => exact he (heq ▸ hk)
    · exact S.held k hk
  scanIndex := S.scanIndex

section Primitives

variable (S : Same scan H fs fs')

include S

theorem agree_fatGet : Agree Fatal (Same scan H) ((fatGet b).run fs) ((fatGet b).run fs') := by
  rw [fatGet_run, fatGet_run, ← S.fat]
  cases fs.fat.entry b with
  | some v => exact .ok v S
  | none => exact .error _ fun _ ↦ S

theorem agree_fatSet : Agree Fatal (Same scan H) ((fatSet b v).run fs) ((fatSet b v).run fs') := by
  unfold fatSet
  split
  · refine .modify { S with fat := ?_ }
    simp only [setFat_fields, S.fat]
  · exact .throw fun _ ↦ S

theorem agree_diskRead :
    Agree Fatal (Same scan H) ((diskRead b).run fs) ((diskRead b).run fs') := by
  unfold diskRead
  apply Agree.get
  rw [← S.theDisk]
  cases fs.theDisk.read b with
  | ok buffer => exact .ok buffer S
  | error e => exact .error e fun _ ↦ S

theorem agree_diskWrite :
    Agree Fatal (Same scan H) ((diskWrite b buffer).run fs) ((diskWrite b buffer).run fs') := by
  unfold diskWrite
  apply Agree.get
  rw [← S.theDisk]
  cases fs.theDisk.write b buffer with
  | ok disk => exact .modify { S with theDisk := rfl }
  | error e => exact .error e fun _ ↦ S

theorem agree_bufferGet {k : ℤ} :
    Agree Fatal (Same scan H) ((bufferGet buffer k).run fs) ((bufferGet buffer k).run fs') := by
  unfold bufferGet
  split
  · exact .pure S
  · exact .throw fun _ ↦ S

theorem agree_bufferSet {k : ℤ} {c : UInt8} :
    Agree Fatal (Same scan H) ((bufferSet buffer k c).run fs) ((bufferSet buffer k c).run fs') := by
  unfold bufferSet
  split
  · exact .pure S
  · exact .throw fun _ ↦ S

theorem agree_setHandle (he : h ∈ H → e.inUse = true) :
    Agree Fatal (Same scan H) ((setHandle h e).run fs) ((setHandle h e).run fs') :=
  .ok () (S.withHandle he)

theorem agree_setEntry :
    Agree Fatal (Same scan H) ((setEntry i d).run fs) ((setEntry i d).run fs') := by
  refine .ok () { S with rootDirectory := ?_ }
  simp only [withEntry_fields, S.rootDirectory]

end Primitives

section Transfers

theorem agree_readLoop {bo bc : ℤ} (S : Same scan {h} fs fs') :
    Agree Fatal (Same scan {h}) ((readLoop h n buffer bo bc).run fs)
      ((readLoop h n buffer bo bc).run fs') := by
  induction n generalizing fs fs' buffer bo bc with
  | zero => exact .pure S
  | succ n ih =>
    simp only [readLoop]
    refine (agree_bufferGet S).seq fun c fs fs' S ↦ ?_
    apply Agree.get
    rw [S.at]
    refine (agree_setHandle S fun _ ↦ by exact S.open).seq fun _ s t S ↦ ?_
    apply Agree.ite
    · intro _
      refine (agree_fatGet S).seq fun next s t S ↦ ?_
      apply Agree.get
      rw [S.at]
      refine (agree_setHandle S fun _ ↦ by exact S.open).seq fun _ s t S ↦ ?_
      refine (agree_diskRead S).seq fun block s t S ↦ ?_
      exact (ih S).seq fun _ s t S ↦ .pure S
    · intro _
      exact (ih S).seq fun _ s t S ↦ .pure S

theorem agree_read {handle count : ℤ} (S : Same scan ∅ fs fs') :
    Agree Fatal (Same scan ∅) ((FileSystem.read handle count).run fs)
      ((FileSystem.read handle count).run fs') := by
  unfold FileSystem.read
  split
  · next hrange =>
    apply Agree.get
    obtain ⟨h, hh⟩ :
        ∃ h : Fin handleTableSize, h = ⟨handle.toNat, (Int.toNat_lt hrange.1).mpr hrange.2⟩ :=
      ⟨_, rfl⟩
    simp only [← hh, ← S.rootDirectory]
    by_cases hu : (fs.handleTable h).inUse = false
    · rw [if_pos (.inl hu), if_pos (.inl ((S.inUse h).symm.trans hu))]
      exact .throw fun _ ↦ S
    · have S₁ := S.hold (Bool.not_eq_false _ ▸ hu)
      rw [S₁.at]
      refine .ite (fun _ ↦ .throw fun _ ↦ S) fun _ ↦ .ite (fun _ ↦ .pure S) fun _ ↦ ?_
      refine (agree_diskRead S₁).bind (fun _ _ ↦ Same.drop) fun block s t S ↦ ?_
      exact (agree_readLoop S).bind (fun _ _ ↦ Same.drop) fun bytes s t S ↦ .pure S.drop
  · exact .throw fun _ ↦ S

theorem agree_nextBlock (S : Same scan {h} fs fs') :
    Agree Fatal (Same scan {h}) ((nextBlock h buffer).run fs) ((nextBlock h buffer).run fs') := by
  unfold nextBlock
  apply Agree.get
  have hopen := S.open
  rw [S.at]
  refine (agree_diskWrite S).seq fun _ s t S ↦ ?_
  apply Agree.get
  rw [S.fat]
  cases t.fat.firstFree with
  | none => exact .throw fun _ ↦ S
  | some j =>
    refine (agree_fatSet S).seq fun _ s t S ↦ ?_
    refine (agree_fatSet S).seq fun _ s t S ↦ ?_
    exact agree_setHandle S fun _ ↦ by exact hopen

theorem agree_writeLoop {bytes : List UInt8} {bo bc : ℤ} (S : Same scan {h} fs fs') :
    Agree Fatal (Same scan {h}) ((writeLoop h n bytes buffer bo bc).run fs)
      ((writeLoop h n bytes buffer bo bc).run fs') := by
  induction n generalizing fs fs' bytes buffer bo bc with
  | zero =>
    simp only [writeLoop]
    exact .pure S
  | succ n ih =>
    cases bytes with
    | nil => exact .throw fun _ ↦ S
    | cons c bytes =>
      simp only [writeLoop]
      refine (agree_bufferSet S).seq fun block fs fs' S ↦ ?_
      apply Agree.get
      rw [S.at]
      refine (agree_setHandle S fun _ ↦ by exact S.open).seq fun _ s t S ↦ ?_
      apply Agree.get
      rw [S.rootDirectory]
      refine (agree_setEntry S).seq fun _ s t S ↦ ?_
      exact .ite (fun _ ↦ (agree_nextBlock S).seq fun _ s t S ↦ ih S) fun _ ↦ ih S

theorem agree_freeSpace (S : Same scan H fs fs') :
    Agree Fatal (Same scan H) (freeSpace.run fs) (freeSpace.run fs') := by
  unfold freeSpace
  apply Agree.get
  rw [S.formattedFlag, S.fat]
  exact .ite (fun _ ↦ .throw fun _ ↦ S) fun _ ↦ .pure S

theorem agree_write {handle count : ℤ} {bytes : List UInt8} (S : Same scan ∅ fs fs') :
    Agree Fatal (Same scan ∅) ((FileSystem.write handle bytes count).run fs)
      ((FileSystem.write handle bytes count).run fs') := by
  unfold FileSystem.write
  split
  · next hrange =>
    apply Agree.get
    obtain ⟨h, hh⟩ :
        ∃ h : Fin handleTableSize, h = ⟨handle.toNat, (Int.toNat_lt hrange.1).mpr hrange.2⟩ :=
      ⟨_, rfl⟩
    simp only [← hh, ← S.rootDirectory]
    by_cases hu : (fs.handleTable h).inUse = false
    · rw [if_pos (.inl hu), if_pos (.inl ((S.inUse h).symm.trans hu))]
      exact .throw fun _ ↦ S
    · have S₁ := S.hold (Bool.not_eq_false _ ▸ hu)
      rw [S₁.at]
      refine .ite (fun _ ↦ .throw fun _ ↦ S) fun _ ↦ ?_
      refine (agree_freeSpace S₁).bind (fun _ _ ↦ Same.drop) fun space s t S ↦ ?_
      refine .ite (fun _ ↦ .pure S.drop) fun _ ↦ ?_
      refine (agree_diskRead S).bind (fun _ _ ↦ Same.drop) fun block s t S ↦ ?_
      refine (agree_writeLoop S).bind (fun _ _ ↦ Same.drop) fun block s t S ↦ ?_
      apply Agree.get
      rw [S.at]
      exact (agree_diskWrite S).bind (fun _ _ ↦ Same.drop) fun _ s t S ↦ .pure S.drop
  · exact .throw fun _ ↦ S

end Transfers

section Names

theorem agree_findEntry (S : Same scan H fs fs') :
    Agree Fatal (Same scan H) ((findEntry name).run fs) ((findEntry name).run fs') := by
  unfold findEntry
  apply Agree.get
  rw [S.rootDirectory]
  cases findName fs'.rootDirectory name (List.finRange dirSize) with
  | ok i => exact .pure S
  | error e => exact .throw fun _ ↦ S

theorem lastBlock_cases {a : ℕ} (hfat : fs.fat = fs'.fat) :
    (∃ c, (lastBlock n a).run fs = .ok c fs ∧ (lastBlock n a).run fs' = .ok c fs') ∨
      ∃ f, Fatal f ∧ (lastBlock n a).run fs = .error f fs ∧ (lastBlock n a).run fs' =
      .error f fs' := by
  induction n generalizing a with
  | zero => exact .inr ⟨.endless, trivial, rfl, rfl⟩
  | succ n ih =>
    simp only [lastBlock, EStateM.run_bind, fatGet_run, ← hfat]
    cases fs.fat.entry a with
    | none => exact .inr ⟨.undefined, trivial, rfl, rfl⟩
    | some next =>
      by_cases heof : next = eofFatEntry
      · simp only [heof, ↓reduceIte]
        exact .inl ⟨a, rfl, rfl⟩
      · simp only [heof, ↓reduceIte]
        exact ih

theorem agree_openEntry {mode : OpenMode} (S : Same scan ∅ fs fs') :
    Agree Fatal (Same scan ∅) ((openEntry h i mode).run fs) ((openEntry h i mode).run fs') := by
  unfold openEntry
  apply Agree.get
  rw [S.rootDirectory]
  cases mode with
  | READ => exact agree_setHandle S fun hk ↦ hk.elim
  | WRITE =>
    -- the entry keeps an old block until the last one of the file is found
    simp only [EStateM.run_bind, setHandle_run]
    have hfat : (fs.withHandle h { fs.handleTable h with
          offset := (fs'.rootDirectory i).size, directoryIndex := i, inUse := true,
          mode := .WRITE }).fat =
        (fs'.withHandle h { fs'.handleTable h with
          offset := (fs'.rootDirectory i).size, directoryIndex := i, inUse := true,
          mode := .WRITE }).fat := S.fat
    rcases lastBlock_cases (n := loopBound) (a := (fs'.rootDirectory i).startingBlock) hfat
      with ⟨c, hrun, hrun'⟩ | ⟨f, hf, hrun, hrun'⟩
    · simp only [hrun, hrun', EStateM.run_get, withHandle_fields, update_self,
        withHandle_withHandle]
      exact .ok () (S.withHandle fun hk ↦ hk.elim)
    · simp only [hrun, hrun']
      exact .error f fun hno ↦ absurd hf hno

theorem agree_createFile {mode : OpenMode} (S : Same scan ∅ fs fs') :
    Agree Fatal (Same scan ∅) ((createFile h name mode).run fs)
      ((createFile h name mode).run fs') := by
  unfold createFile
  apply Agree.get
  rw [S.rootDirectory, S.fat]
  cases Fin.find? fun i ↦ (fs'.rootDirectory i).inUse = 0 with
  | none => exact .throw fun _ ↦ S
  | some i =>
    cases fs'.fat.firstFree with
    | none => exact .throw fun _ ↦ S
    | some j =>
      refine (agree_fatSet S).seq fun _ s t S ↦ ?_
      refine (agree_setEntry S).seq fun _ s t S ↦ ?_
      apply Agree.get
      rw [S.rootDirectory]
      cases t.rootDirectory.strcpy (32 * i) name.bytes with
      | none => exact (Agree.throw fun _ ↦ S).seq fun _ s t S ↦ agree_setHandle S fun hk ↦ hk.elim
      | some d =>
        refine (Agree.modify { S with rootDirectory := rfl }).seq fun _ s t S ↦ ?_
        exact agree_setHandle S fun hk ↦ hk.elim

theorem agree_open {mode : OpenMode} (S : Same scan ∅ fs fs') :
    Agree Fatal (Same scan ∅) ((FileSystem.open name mode).run fs)
      ((FileSystem.open name mode).run fs') := by
  unfold FileSystem.open
  apply Agree.get
  simp only [S.inUse]
  cases Fin.find? fun h ↦ (fs'.handleTable h).inUse = false with
  | none => exact .throw fun _ ↦ S
  | some h =>
    refine (agree_findEntry S).seq fun i s t S ↦ ?_
    cases i with
    | none =>
      by_cases hm : mode = .READ
      · rw [if_pos hm]
        exact (Agree.throw fun _ ↦ S).seq fun _ s t S ↦ .pure S
      · rw [if_neg hm]
        exact (agree_createFile S).seq fun _ s t S ↦ .pure S
    | some i => exact (agree_openEntry S).seq fun _ s t S ↦ .pure S

theorem agree_freeChain {a : ℕ} (S : Same scan H fs fs') :
    Agree Fatal (Same scan H) ((freeChain n a).run fs) ((freeChain n a).run fs') := by
  induction n generalizing fs fs' a with
  | zero => exact .throw fun _ ↦ S
  | succ n ih =>
    simp only [freeChain]
    refine (agree_fatGet S).seq fun next s t S ↦ ?_
    refine (agree_fatSet S).seq fun _ s t S ↦ ?_
    exact .ite (fun _ ↦ .pure S) fun _ ↦ ih S

theorem agree_truncate (S : Same scan H fs fs') :
    Agree Fatal (Same scan H) ((truncate name).run fs) ((truncate name).run fs') := by
  unfold truncate
  refine (agree_findEntry S).seq fun i s t S ↦ ?_
  cases i with
  | none => exact .pure S
  | some i =>
    apply Agree.get
    rw [S.rootDirectory]
    refine (agree_freeChain S).seq fun _ s t S ↦ ?_
    exact (agree_fatSet S).seq fun _ s t S ↦ agree_setEntry S

theorem agree_remove (S : Same scan H fs fs') :
    Agree Fatal (Same scan H) ((remove name).run fs) ((remove name).run fs') := by
  unfold remove
  refine (agree_findEntry S).seq fun i s t S ↦ ?_
  cases i with
  | none => exact .pure S
  | some i =>
    apply Agree.get
    rw [S.rootDirectory]
    exact (agree_freeChain S).seq fun _ s t S ↦ agree_setEntry S

theorem agree_close {handle : ℤ} (S : Same scan ∅ fs fs') :
    Agree Fatal (Same scan ∅) ((close handle).run fs) ((close handle).run fs') := by
  unfold close
  apply Agree.get
  rw [S.formattedFlag]
  refine .ite (fun _ ↦ .throw fun _ ↦ S) fun _ ↦ .ite (fun _ ↦ .throw fun _ ↦ S) fun _ ↦
    .ite (fun _ ↦ .throw fun _ ↦ S) fun _ ↦ ?_
  split
  · next hlt =>
    obtain ⟨h, hh⟩ : ∃ h : Fin handleTableSize, h = ⟨handle.toNat, hlt⟩ := ⟨_, rfl⟩
    simp only [← hh]
    by_cases hu : (fs.handleTable h).inUse = false
    · rw [if_pos hu, if_pos ((S.inUse h).symm.trans hu)]
      exact .throw fun _ ↦ S
    · rw [S.entry h (Bool.not_eq_false _ ▸ hu)]
      exact .ite (fun _ ↦ .throw fun _ ↦ S) fun _ ↦ agree_setHandle S fun hk ↦ hk.elim
  · exact .throw fun _ ↦ S

end Names

theorem Same.writing (S : Same scan H fs fs') :
    (∃ h, (fs.handleTable h).inUse = true ∧ (fs.handleTable h).mode = .WRITE) ↔
      ∃ h, (fs'.handleTable h).inUse = true ∧ (fs'.handleTable h).mode = .WRITE := by
  constructor
  · rintro ⟨h, hu, hm⟩
    exact ⟨h, by rw [← S.inUse, hu], by rw [← S.entry h hu, hm]⟩
  · rintro ⟨h, hu, hm⟩
    have hu' := (S.inUse h).trans hu
    exact ⟨h, hu', by rw [S.entry h hu', hm]⟩

theorem agree_check (S : Same scan H fs fs') :
    Agree Fatal (Same scan H) (check.run fs) (check.run fs') := by
  have hcheck : checkWith loopBound fs = checkWith loopBound fs' := by
    simp only [checkWith, S.formattedFlag, S.fat, S.rootDirectory, S.writing]
  unfold check
  apply Agree.get
  rw [hcheck]
  cases checkWith loopBound fs' with
  | ok _ => exact .pure S
  | error e => exact .throw fun _ ↦ S

theorem agree_nextDirLoop (hscan : scan) (S : Same scan H fs fs') :
    Agree Fatal (Same scan H) ((nextDirLoop n).run fs) ((nextDirLoop n).run fs') := by
  induction n generalizing fs fs' with
  | zero => exact .pure S
  | succ n ih =>
    have hnext : Same scan H { fs with scanIndex := fs.scanIndex + 1 }
        { fs' with scanIndex := fs'.scanIndex + 1 } :=
      { S with scanIndex := fun _ ↦ congrArg (· + 1) (S.scanIndex hscan) }
    simp only [nextDirLoop]
    apply Agree.get
    simp only [S.scanIndex hscan, S.rootDirectory]
    split
    · refine .ite (fun _ ↦ (Agree.modify hnext).seq fun _ s t S ↦ ih S) fun _ ↦ ?_
      cases copyName fs'.rootDirectory nameSize (32 * fs'.scanIndex) with
      | none => exact .throw fun _ ↦ S
      | some name => exact (Agree.modify hnext).seq fun _ s t S ↦ .pure S
    · exact .pure S

theorem agree_format (S : Same scan H fs fs') :
    Agree Fatal (Same scan H) (format.run fs) (format.run fs') := by
  unfold format
  refine (agree_diskWrite S).seq fun _ s t S ↦ ?_
  exact .modify { S with formattedFlag := rfl, fat := rfl, rootDirectory := rfl }

/-- Calls end alike on objects that no caller can tell apart, and leave such
objects. A scan of the directory needs the same scan index. -/
theorem agree_exec {c : Call} (S : Same scan ∅ fs fs') (hc : c = .nextDir → scan) :
    Agree Fatal (Same scan ∅) (c.exec.run fs) (c.exec.run fs') := by
  cases c with
  | format => exact (agree_format S).seq fun _ s t S ↦ .pure S
  | «open» name mode => exact (agree_open S).seq fun _ s t S ↦ .pure S
  | read handle count => exact (agree_read S).seq fun _ s t S ↦ .pure S
  | write handle buffer count => exact (agree_write S).seq fun _ s t S ↦ .pure S
  | close handle => exact (agree_close S).seq fun _ s t S ↦ .pure S
  | truncate name => exact (agree_truncate S).seq fun _ s t S ↦ .pure S
  | remove name => exact (agree_remove S).seq fun _ s t S ↦ .pure S
  | openDir =>
    have S' : Same scan ∅ { fs with scanIndex := 0 } { fs' with scanIndex := 0 } :=
      { S with scanIndex := fun _ ↦ rfl }
    exact .ok Reply.unit S'
  | nextDir => exact (agree_nextDirLoop (hc rfl) S).seq fun _ s t S ↦ .pure S
  | freeSpace => exact (agree_freeSpace S).seq fun _ s t S ↦ .pure S
  | check => exact (agree_check S).seq fun _ s t S ↦ .pure S

section Observing

/-- What a caller sees of a list of calls: before each what `is_formatted` says,
and what comes of it. A fatal failure is the last thing to be seen. -/
def observe : List Call → FileSystem → List (Bool × Outcome)
  | [], _ => []
  | c :: cs, fs =>
    match c.exec.run fs with
    | .ok r fs' => (fs.formattedFlag, .ok r) :: observe cs fs'
    | .error e fs' => (fs.formattedFlag, .error e) :: if Fatal e then [] else observe cs fs'

/-- No `next_dir` comes before the first `open_dir`. -/
def ScansOpened (cs : List Call) : Prop :=
  ∀ l r, cs = l ++ .nextDir :: r → .openDir ∈ l

/-- Whether the calls begin after an `open_dir` or hold one before each scan. -/
def ScansOpenedFrom (opened : Prop) (cs : List Call) : Prop :=
  ∀ l r, cs = l ++ .nextDir :: r → opened ∨ .openDir ∈ l

variable {c : Call} {cs : List Call}

theorem ScansOpenedFrom.tail (h : ScansOpenedFrom scan (c :: cs)) :
    ScansOpenedFrom (scan ∨ c = .openDir) cs := by
  intro l r hcs
  have hmem := h (c :: l) r (by rw [hcs, List.cons_append])
  rw [List.mem_cons, eq_comm (a := Call.openDir)] at hmem
  tauto

theorem ScansOpenedFrom.head (h : ScansOpenedFrom scan (c :: cs)) (hc : c = .nextDir) : scan :=
  (h [] cs (by rw [hc, List.nil_append])).resolve_right List.not_mem_nil

theorem observe_congr (S : Same scan ∅ fs fs') (hcs : ScansOpenedFrom scan cs) :
    observe cs fs = observe cs fs' := by
  induction cs generalizing fs fs' scan with
  | nil => rfl
  | cons c cs ih =>
    by_cases hdir : c = .openDir
    · subst hdir
      have S' : Same True ∅ { fs with scanIndex := 0 } { fs' with scanIndex := 0 } :=
        { S with scanIndex := fun _ ↦ rfl }
      have hrun :
          ∀ fs, Call.openDir.exec.run fs = .ok .unit { fs with scanIndex := 0 } := fun _ ↦ rfl
      have hrest := ih S' fun l r _ ↦ .inl trivial
      simp only [observe, hrun, hrest]
      rw [S.formattedFlag]
    · have hrun := agree_exec S hcs.head
      have hrest : ScansOpenedFrom scan cs := by
        have htail := hcs.tail
        simpa only [hdir, or_false] using htail
      simp only [observe, S.formattedFlag]
      revert hrun
      generalize c.exec.run fs = r
      generalize c.exec.run fs' = r'
      intro hrun
      cases hrun with
      | ok a S' => simp only [ih S' hrest]
      | error e S' =>
        by_cases he : Fatal e
        · simp only [if_pos he]
        · simp only [if_neg he, ih (S' he) hrest]

end Observing

section Format

variable {raw fresh : FileSystem}

def reformatted (fs : FileSystem) : FileSystem :=
  ({ fs with fat := emptyFat, rootDirectory := emptyDirectory, formattedFlag := true }.withBlock
    bootBlock bootImage).wrote [bootBlock]

theorem format_reformatted (hdev : 4 ≤ fs.theDisk.blockCount) :
    format.run fs = .ok () (reformatted fs) := by
  have hlt : bootBlock < fs.theDisk.blockCount := lt_of_lt_of_le (by decide) hdev
  simp only [format, EStateM.run_bind, diskWrite_run hlt, modify_run]
  rfl

theorem four_le_of_construct {disk : BlockDevice blockSize} (h : construct disk raw = .ok fresh) :
    4 ≤ disk.blockCount := by
  by_contra hlt
  rw [construct, dif_pos rfl] at h
  simp only [if_pos (not_le.mp hlt)] at h
  cases h

theorem same_reformatted (hdisk : fresh.theDisk = fs.theDisk)
    (hnew : ∀ h, (fresh.handleTable h).inUse = false)
    (hclosed : ∀ h, (fs.handleTable h).inUse = false) :
    Same False ∅ (reformatted fs) (reformatted fresh) where
  theDisk := by simp only [reformatted, withBlock, wrote, hdisk]
  formattedFlag := rfl
  fat := rfl
  rootDirectory := rfl
  inUse h := (hclosed h).trans (hnew h).symm
  entry h hu := absurd ((hclosed h).symm.trans hu) (by decide)
  held h hh := hh.elim
  scanIndex := False.elim

theorem close_seen {h : Fin handleTableSize} (hf : fs.formattedFlag = true) :
    observe [.close h] fs = [(true, if (fs.handleTable h).inUse = true then .ok .unit
      else .error (.thrown "Invalid handle used during close(). Handle not open."))] := by
  have hrange : ¬(handleTableSize : ℤ) ≤ h := by
    have hlt := h.isLt
    omega
  have hlt : (h.val : ℤ).toNat < handleTableSize := by simp
  simp only [observe, Call.exec, close, EStateM.run_bind, EStateM.run_get, hf, Bool.true_eq_false,
    ↓reduceIte, if_neg hrange, if_neg (not_lt.mpr (Int.natCast_nonneg h.val)), dif_pos hlt,
    handle_eq]
  cases hu : (fs.handleTable h).inUse with
  | true => rfl
  | false => rfl

theorem closed_of_observe (hnew : ∀ h, (fresh.handleTable h).inUse = false)
    (h : ∀ cs, ScansOpened cs → observe cs (reformatted fs) = observe cs (reformatted fresh))
    (k : Fin handleTableSize) : (fs.handleTable k).inUse = false := by
  have hscan : ScansOpened [.close k] := by
    intro l r hl
    have hmem : Call.nextDir ∈ [Call.close k] := by
      rw [hl]
      simp
    simp at hmem
  have hseen := h [.close k] hscan
  rw [close_seen rfl, close_seen rfl] at hseen
  have hfresh : ((reformatted fresh).handleTable k).inUse = false := hnew k
  simp only [hfresh, Bool.false_eq_true, ↓reduceIte] at hseen
  by_contra hopen
  have hold : ((reformatted fs).handleTable k).inUse = true := Bool.not_eq_false _ ▸ hopen
  simp [hold] at hseen

/-- `format` makes an object behave like one just constructed on its device and
formatted, in every later sequence of calls, exactly when no handle is open. -/
theorem format_forgets_iff (hfresh : construct fs.theDisk raw = .ok fresh) :
    ∃ fs' fresh', format.run fs = .ok () fs' ∧ format.run fresh = .ok () fresh' ∧
      ((∀ cs, ScansOpened cs → observe cs fs' = observe cs fresh') ↔
        ∀ h, (fs.handleTable h).inUse = false) := by
  have hdev := four_le_of_construct hfresh
  obtain ⟨hdisk, hnew⟩ := construct_fields hdev hfresh
  refine ⟨_, _, format_reformatted hdev, format_reformatted (hdisk ▸ hdev), ?_⟩
  constructor
  · exact closed_of_observe hnew
  · intro hclosed cs hcs
    exact observe_congr (same_reformatted hdisk hnew hclosed) fun l r hl ↦ .inr (hcs l r hl)

theorem format_forgets_iff_twoFiles :
    ∃ fresh fs' fresh', construct twoFiles.theDisk blankObject = .ok fresh ∧
    format.run twoFiles = .ok () fs' ∧ format.run fresh = .ok () fresh' ∧
      ∀ cs, ScansOpened cs → observe cs fs' = observe cs fresh' := by
  have hfresh : construct twoFiles.theDisk blankObject = _ := construct_eq (by decide)
  obtain ⟨fs', fresh', hformat, hformat', hforgets⟩ := format_forgets_iff hfresh
  exact ⟨_, fs', fresh', hfresh, hformat, hformat', hforgets.mpr twoFiles_closed⟩

theorem open_blank : ∃ o fs, Call.reply (.open nameA .WRITE) blankFormatted = (o, fs) ∧
    fs.theDisk = blankFormatted.theDisk ∧ ∃ h, (fs.handleTable h).inUse = true := by
  obtain ⟨⟨C, -, -⟩, hempty, hclosed⟩ := begins_blank.fresh
  have hopen : Opening blankFormatted _ nameA .WRITE _ := open_run C (by decide) .WRITE
  simp only [Call.reply, Call.exec, EStateM.run_bind]
  generalize (FileSystem.open nameA .WRITE).run blankFormatted = res at hopen
  cases hopen with
  | noHandle m hh =>
    have hopen := hh 0
    rw [hclosed 0] at hopen
    cases hopen
  | absent m hl hno =>
    have hfull : ∀ i, (blankFormatted.rootDirectory i).inUse = 0 := fun i ↦ by rw [hempty]; rfl
    have hfree : (3 : Fin fatSize) ∈
        Finset.univ.filter fun j : Fin fatSize ↦ blankFormatted.fat j = freeFatEntry := by
      rw [blankFormatted_eq]
      exact Finset.mem_filter.mpr ⟨Finset.mem_univ _, rfl⟩
    rcases hno with hno | hno | hno
    · cases hno
    · exact absurd (hfull 0) (hno 0)
    · exact absurd (Finset.card_pos.mpr ⟨_, hfree⟩) (by rw [← freeCount, hno]; decide)
  | found h i hh hl => exact ⟨_, _, rfl, rfl, h, by simp [newHandle]⟩
  | created h i j hh hl hm hi hj => exact ⟨_, _, rfl, rfl, h, by simp⟩

/-- The handle of a file opened before `format` is still open behind it. -/
theorem not_format_forgets : ¬∀ (disk : BlockDevice blockSize) (raw fs₀ fs raw' fresh : FileSystem)
    (ls : List (Call × Outcome)), disk.blockCount = 512 → construct disk raw = .ok fs₀ →
    Run Step fs₀ ls fs → construct fs.theDisk raw' = .ok fresh →
    ∃ fs' fresh', format.run fs = .ok () fs' ∧ format.run fresh = .ok () fresh' ∧
      ∀ cs, ScansOpened cs → observe cs fs' = observe cs fresh' := by
  intro hclaim
  obtain ⟨o, fs, hopen, hdisk, h, hu⟩ := open_blank
  have hcount : 4 ≤ fs.theDisk.blockCount := by
    rw [hdisk, blankFormatted_blockCount]
    decide
  have hrun : Run Step blankObject [(.format, _), (.open nameA .WRITE, o)] fs :=
    .cons rfl (.cons hopen (.nil fs))
  have hconstruct : construct fs.theDisk blankObject = _ := construct_eq hcount
  obtain ⟨hdisk', hnew⟩ := construct_fields hcount hconstruct
  obtain ⟨fs', fresh', hformat, hformat', hsame⟩ := hclaim blankDisk blankObject blankObject fs
    blankObject _ _ rfl construct_blank hrun hconstruct
  rw [format_reformatted hcount] at hformat
  rw [format_reformatted (by rw [hdisk']; exact hcount)] at hformat'
  injection hformat with _ hfs
  injection hformat' with _ hfresh
  subst hfs hfresh
  exact absurd (closed_of_observe hnew hsame h) (by simp [hu])

end Format

end GenericFs.Fat
