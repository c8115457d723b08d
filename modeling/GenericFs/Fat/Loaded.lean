import GenericFs.Fat.Nameless
import GenericFs.Fat.Remount

namespace GenericFs.Fat

open GenericFs.Library Agreeing Chain Machine Function FileSystem

variable {fs fs' gs : FileSystem} {chain chain' : Fin dirSize → List ℕ} {c : Call} {o : Outcome}
  {ls : List (Call × Outcome)} {d : Directory} {name : CString} {V : Veil}

def FileCall : Call → Prop
  | .open _ _ | .read _ _ | .write _ _ _ | .close _ | .truncate _ | .remove _ => True
  | _ => False

def FileStep (fs : FileSystem) (l : Call × Outcome) (fs' : FileSystem) : Prop :=
  FileCall l.1 ∧ PoliteStep fs l fs'

/-- What a run has done to the device: nothing was written to a metadata block,
and `check` accepts the state when no writer is open. -/
def KeepsMetadata (fs fs' : FileSystem) : Prop :=
  (∃ ws, fs'.theDisk.written = ws ++ fs.theDisk.written ∧ ∀ b ∈ ws, 3 ≤ b) ∧
    ((∀ h, (fs'.handleTable h).inUse = true → (fs'.handleTable h).mode ≠ .WRITE) →
      check.run fs' = .ok () fs')

/-- Every call of a run returns or throws, and no run damages the disk. -/
def SafeToUse (fs : FileSystem) : Prop := ∀ ls fs', Run FileStep fs ls fs' →
  KeepsMetadata fs fs' ∧ ∀ l ∈ ls, ∀ e, l.2 = .error e → ∃ m, e = .thrown m

/-- No name finds an entry, and no entry is free for a new file. -/
def Sealed (d : Directory) : Prop := ∀ i, (d i).inUse ≠ 0 ∧ ¬(d i).Named

/-- What `check` does not look at: an entry that a name can find is free or a file with a size,
and a metadata block is reserved or the first one of a file that no name finds. -/
structure Sturdy (fat : FatTable) (d : Directory) : Prop where
  usable : ∀ i, (d i).Usable
  metadata : ∀ b < 3, fat.entry b = some reservedFatEntry ∨
    ∃ i, (d i).inUse = 1 ∧ ¬(d i).Named ∧ (d i).startingBlock = b

/-- A file system as the constructor loads it, with blocks that `check` accepts. -/
structure Accepted (fs : FileSystem) (chain : Fin dirSize → List ℕ) : Prop where
  formatted : fs.formattedFlag = true
  device : 512 ≤ fs.theDisk.blockCount
  closed : ∀ h, (fs.handleTable h).inUse = false
  accounted : Accounted fs.fat fs.rootDirectory chain

theorem Accepted.of_construct {disk : BlockDevice blockSize} {raw : FileSystem}
    (hdev : disk.blockCount = 512) (hload : construct disk raw = .ok fs)
    (haccept : check.run fs = .ok () fs) : ∃ chain, Accepted fs chain := by
  obtain ⟨hdisk, hhandles⟩ := construct_fields (by omega) hload
  obtain ⟨hf, -⟩ := checkWith_eq_ok.mp (check_run_eq_ok.mp haccept)
  obtain ⟨chain, A⟩ := accounted_of_checkWith (check_run_eq_ok.mp haccept)
  exact ⟨chain, hf, by rw [hdisk, hdev], hhandles, A⟩

theorem check_of_accounted (hf : fs.formattedFlag = true)
    (A : Accounted fs.fat fs.rootDirectory chain)
    (hw : ∀ h, (fs.handleTable h).inUse = true → (fs.handleTable h).mode ≠ .WRITE) :
    check.run fs = .ok () fs :=
  check_run_eq_ok.mpr (checkWith_of_accounted hf hw A (by decide))

theorem Accepted.check (A : Accepted fs chain) : check.run fs = .ok () fs :=
  check_of_accounted A.formatted A.accounted fun h hu ↦ by simp [A.closed h] at hu

theorem Effect.thrown (E : Effect fs chain c o fs' chain') {e : Fault} (he : o = .error e) :
    ∃ m, e = .thrown m := by
  cases E <;> cases he <;> exact ⟨_, rfl⟩

section Sealed

theorem Sealed.lookup (H : Sealed d) (hn : name.Fits) : d.lookup name = none :=
  List.find?_eq_none.mpr fun i _ ↦ by simpa using fun hholds ↦ (H i).2 (hholds.named hn)

/-- Without files that a name finds and without room for new ones every call fails or does
nothing. -/
theorem Sealed.exec (H : Sealed fs.rootDirectory) (A : Accepted fs chain) (hfile : FileCall c)
    (hp : Polite fs c) :
    (∃ m, c.exec.run fs = .error (.thrown m) fs) ∨ ∃ r, c.exec.run fs = .ok r fs := by
  have hno : ∀ handle h, ¬Held fs handle h := fun _ h hh ↦ by simpa [A.closed h] using hh.2
  cases c with
  | «open» name mode =>
    have hfull : (Fin.find? fun i ↦ (fs.rootDirectory i).inUse = 0) = none :=
      Fin.find?_eq_none_iff.mpr fun i ↦ by simpa using (H i).1
    left
    simp only [Call.exec, FileSystem.open, EStateM.run_bind, EStateM.run_get]
    cases Fin.find? fun h ↦ (fs.handleTable h).inUse = false with
    | none => exact ⟨_, rfl⟩
    | some h =>
      simp only [EStateM.run_bind, findEntry_run hp.1, H.lookup hp.1]
      cases mode with
      | READ => exact ⟨_, rfl⟩
      | WRITE =>
        simp only [reduceCtorEq, ↓reduceIte, createFile, EStateM.run_bind, EStateM.run_get, hfull]
        exact ⟨_, rfl⟩
  | read handle count =>
    obtain ⟨m, -, hrun⟩ := read_throws count fun h hh ↦ (hno handle h hh).elim
    simp only [Call.exec, EStateM.run_bind, hrun]
    exact .inl ⟨m, rfl⟩
  | write handle buffer count =>
    obtain ⟨m, -, hrun⟩ := write_throws buffer count fun h hh ↦ (hno handle h hh).elim
    simp only [Call.exec, EStateM.run_bind, hrun]
    exact .inl ⟨m, rfl⟩
  | close handle =>
    obtain ⟨m, -, hrun⟩ := close_throws A.formatted hp fun h hh ↦ hno handle h hh
    simp only [Call.exec, EStateM.run_bind, hrun]
    exact .inl ⟨m, rfl⟩
  | truncate name =>
    simp only [Call.exec, EStateM.run_bind, truncate_run_absent hp.1 (H.lookup hp.1)]
    exact .inr ⟨_, rfl⟩
  | remove name =>
    simp only [Call.exec, EStateM.run_bind, remove_run_absent hp.1 (H.lookup hp.1)]
    exact .inr ⟨_, rfl⟩
  | _ => exact hfile.elim

theorem Sealed.step {l : Call × Outcome} (H : Sealed fs.rootDirectory) (A : Accepted fs chain)
    (hs : FileStep fs l fs') : fs' = fs ∧ ∀ e, l.2 = .error e → ∃ m, e = .thrown m := by
  obtain ⟨hfile, hp, hstep⟩ := hs
  unfold Step Call.reply at hstep
  rcases H.exec A hfile hp with ⟨m, hrun⟩ | ⟨r, hrun⟩
  · rw [hrun] at hstep
    obtain ⟨ho, rfl⟩ := Prod.mk.inj hstep
    exact ⟨rfl, fun e he ↦ ⟨m, Except.error.inj (he.symm.trans ho.symm)⟩⟩
  · rw [hrun] at hstep
    obtain ⟨ho, rfl⟩ := Prod.mk.inj hstep
    exact ⟨rfl, fun e he ↦ by cases ho.trans he⟩

theorem Sealed.safeToUse (H : Sealed fs.rootDirectory) (A : Accepted fs chain) : SafeToUse fs := by
  intro ls fs' hr
  obtain rfl : fs' = fs := hr.invariant (P := (· = fs)) (fun s l t hs hst ↦ by
    subst hs
    exact (H.step A hst).1) rfl
  refine ⟨⟨⟨[], rfl, by simp⟩, fun _ ↦ A.check⟩, ?_⟩
  exact (hr.strengthen (P := (· = fs')) (fun s l t hs hst ↦ by subst hs; exact (H.step A hst).1)
    (fun s l t hs hst ↦ by subst hs; exact (H.step A hst).2) rfl).labels fun _ _ _ hst ↦ hst.2

end Sealed

section Sturdy

theorem Veil.Lifts.closed {i : Fin dirSize} (L : V.Lifts gs fs) : Closed fs i ↔ Closed gs i := by
  rw [L.eq]
  rfl

theorem Veil.Lifts.polite (L : V.Lifts gs fs) (hfile : FileCall c) (hp : Polite fs c) :
    Polite gs c := by
  have hhandles : fs.handleTable = gs.handleTable := by rw [L.eq]; rfl
  have hlookup :
      ∀ name : CString, name.Fits → fs.rootDirectory.lookup name = gs.rootDirectory.lookup name :=
    fun name hn ↦ by rw [L.eq, L.covers.lookup hn]
  cases c with
  | «open» name mode =>
    refine ⟨hp.1, ?_⟩
    rw [← hlookup name hp.1, ← hhandles]
    exact hp.2
  | read _ _ | write _ _ _ | close _ => exact hp
  | truncate name | remove name =>
    refine ⟨hp.1, fun i hi ↦ L.closed.mp (hp.2 i ?_)⟩
    rw [hlookup name hp.1, hi]
  | _ => exact hfile.elim

/-- A call does the same with the hidden files and without them. -/
theorem Veil.Lifts.exec (L : V.Lifts gs fs) (C : Consistent gs chain) (hfile : FileCall c)
    (hp : Polite gs c) : Agree (fun _ ↦ False) V.Lifts (c.exec.run gs) (c.exec.run fs) := by
  cases c with
  | «open» name mode => exact (Veil.agree_open L C hp.1).seq fun _ _ _ L ↦ .pure L
  | read handle count => exact (Veil.agree_read L C hp).seq fun _ _ _ L ↦ .pure L
  | write handle buffer count => exact (Veil.agree_write L C).seq fun _ _ _ L ↦ .pure L
  | close handle => exact (Veil.agree_close L).seq fun _ _ _ L ↦ .pure L
  | truncate name => exact (Veil.agree_truncate L C hp.1).seq fun _ _ _ L ↦ .pure L
  | remove name => exact (Veil.agree_remove L C hp.1).seq fun _ _ _ L ↦ .pure L
  | _ => exact hfile.elim

theorem Veil.Lifts.step {l : Call × Outcome} (L : V.Lifts gs fs) (C : Consistent gs chain)
    (hs : FileStep fs l fs') : ∃ gs', FileStep gs l gs' ∧ V.Lifts gs' fs' := by
  obtain ⟨hfile, hp, hstep⟩ := hs
  have hp' := L.polite hfile hp
  have hexec := L.exec C hfile hp'
  suffices ∃ gs', Step gs l gs' ∧ V.Lifts gs' fs' by
    obtain ⟨gs', hs', L'⟩ := this
    exact ⟨gs', ⟨hfile, hp', hs'⟩, L'⟩
  obtain ⟨c, o⟩ := l
  unfold Step Call.reply at hstep ⊢
  generalize c.exec.run gs = res at hexec
  generalize c.exec.run fs = res' at hexec hstep
  cases hexec with
  | ok r L' =>
    obtain ⟨rfl, rfl⟩ := Prod.mk.inj hstep
    exact ⟨_, rfl, L'⟩
  | error e L' =>
    obtain ⟨rfl, rfl⟩ := Prod.mk.inj hstep
    exact ⟨_, rfl, L' id⟩

def Accepted.veil (A : Accepted fs chain) : Veil := ⟨fs.fat, fs.rootDirectory, chain, A.accounted⟩

def Accepted.covered (A : Accepted fs chain) : FileSystem :=
  { fs with
    fat := fun j ↦ if A.veil.Hides j then reservedFatEntry else fs.fat j
    rootDirectory := fun i ↦ if A.veil.Nameless i then { fs.rootDirectory i with inUse := 2 }
      else fs.rootDirectory i }

theorem Accepted.lifts (A : Accepted fs chain) : A.veil.Lifts A.covered fs := by
  refine ⟨⟨fun j hj ↦ if_pos hj, fun i hi ↦ if_pos hi⟩, ?_⟩
  have hfat : (A.veil.lift A.covered).fat = fs.fat := by
    funext j
    by_cases hj : A.veil.Hides j
    · exact if_pos hj
    · exact (if_neg hj).trans (if_neg hj)
  have hdirectory : (A.veil.lift A.covered).rootDirectory = fs.rootDirectory := by
    funext i
    by_cases hi : A.veil.Nameless i
    · exact if_pos hi
    · exact (if_neg hi).trans (if_neg hi)
  show fs = { fs with
    fat := (A.veil.lift A.covered).fat, rootDirectory := (A.veil.lift A.covered).rootDirectory }
  rw [hfat, hdirectory]

theorem Accepted.covered_file {i : Fin dirSize} (A : Accepted fs chain)
    (hu : (A.covered.rootDirectory i).inUse = 1) :
    A.covered.rootDirectory i = fs.rootDirectory i ∧ ∀ b ∈ chain i, ¬A.veil.Hides b := by
  have hi : ¬A.veil.Nameless i := A.lifts.covers.not_nameless (by rw [hu]; decide)
  have hentry : A.covered.rootDirectory i = fs.rootDirectory i := if_neg hi
  rw [hentry] at hu
  refine ⟨hentry, fun b hb ⟨k, hk, hmem⟩ ↦ ?_⟩
  have hne : k ≠ i := fun h ↦ hi (h ▸ hk)
  exact A.accounted.disjoint k i hk.1 hu hne hmem hb

theorem Accepted.covered_entry {b : ℕ} (A : Accepted fs chain) (hb : ¬A.veil.Hides b) :
    A.covered.fat.entry b = fs.fat.entry b := by
  by_cases hlt : b < 512
  · rw [FatTable.entry_of_lt hlt, FatTable.entry_of_lt hlt]
    exact congrArg some (if_neg hb)
  · simp only [FatTable.entry, fatSize, hlt, ↓reduceDIte]

theorem Accepted.covered_accounted (A : Accepted fs chain) :
    Accounted A.covered.fat A.covered.rootDirectory chain := by
  refine ⟨fun i hu ↦ ?_, fun i hu ↦ ?_, fun i hu ↦ ?_, fun i j hui huj hij ↦ ?_, fun i hu b hb ↦ ?_,
    fun b v hb h0 h1 ↦ ?_⟩
  · obtain ⟨hentry, hopen⟩ := A.covered_file hu
    rw [hentry] at hu ⊢
    exact Links.congr (A.accounted.links i hu) fun b hb ↦ A.covered_entry (hopen b hb)
  · obtain ⟨hentry, -⟩ := A.covered_file hu
    rw [hentry] at hu ⊢
    exact A.accounted.length i hu
  · rw [(A.covered_file hu).1] at hu
    exact A.accounted.nodup i hu
  · rw [(A.covered_file hui).1] at hui
    rw [(A.covered_file huj).1] at huj
    exact A.accounted.disjoint i j hui huj hij
  · obtain ⟨hentry, hopen⟩ := A.covered_file hu
    rw [hentry] at hu
    rw [A.covered_entry (hopen b hb)]
    exact A.accounted.busy i hu b hb
  · have hhides : ¬A.veil.Hides b := fun h ↦ by
      have hlt := FatTable.entry_lt hb
      rw [FatTable.entry_of_lt hlt, A.lifts.covers.reserved ⟨b, hlt⟩ h] at hb
      exact h1 (Option.some.inj hb).symm
    rw [A.covered_entry hhides] at hb
    obtain ⟨i, hu, hmem⟩ := A.accounted.covered b v hb h0 h1
    have hi : ¬A.veil.Nameless i := fun hi ↦ hhides ⟨i, hi, hmem⟩
    have hentry : A.covered.rootDirectory i = fs.rootDirectory i := if_neg hi
    exact ⟨i, by rw [hentry, hu], hmem⟩

theorem Accepted.covered_consistent (A : Accepted fs chain) (H : Sturdy fs.fat fs.rootDirectory) :
    ∃ chain', Consistent A.covered chain' := by
  refine ⟨_, A.formatted, A.device, Layout.of_accounted A.covered_accounted
    (fun b hb ↦ ?_) fun i ↦ ?_, fun h hu ↦ ?_⟩
  · by_cases hhides : A.veil.Hides b
    · have hlt : b < 512 := by omega
      rw [FatTable.entry_of_lt hlt, A.lifts.covers.reserved ⟨b, hlt⟩ hhides]
    · rw [A.covered_entry hhides]
      refine (H.metadata b hb).resolve_right fun ⟨i, hu, hnamed, hstart⟩ ↦
        hhides ⟨i, ⟨hu, hnamed⟩, ?_⟩
      rw [← hstart]
      exact (A.accounted.links i hu).start_mem
  · by_cases hi : A.veil.Nameless i
    · rw [A.lifts.covers.marked i hi]
      exact fun hnamed ↦ (hi.2 hnamed).elim
    · rw [show A.covered.rootDirectory i = fs.rootDirectory i from if_neg hi]
      exact H.usable i
  · have hclosed : (A.covered.handleTable h).inUse = false := A.closed h
    simp [hclosed] at hu

/-- A file system whose hidden files, were they not there, would leave a regular one. -/
structure Veiled (V : Veil) (fs₀ fs : FileSystem) : Prop where
  regular : ∃ gs chain, Consistent gs chain ∧ Solo gs ∧ V.Lifts gs fs
  written : ∃ ws, fs.theDisk.written = ws ++ fs₀.theDisk.written ∧ ∀ b ∈ ws, 3 ≤ b

theorem Veiled.step {fs₀ : FileSystem} {l : Call × Outcome} (W : Veiled V fs₀ fs)
    (hs : FileStep fs l fs') : Veiled V fs₀ fs' ∧ ∀ e, l.2 = .error e → ∃ m, e = .thrown m := by
  obtain ⟨⟨gs, chain, C, S, L⟩, ws, hws, h3⟩ := W
  obtain ⟨c, o⟩ := l
  obtain ⟨gs', ⟨hfile, hp, hstep⟩, L'⟩ := L.step C hs
  obtain ⟨chain', E⟩ := step_effect C S hp (by rintro rfl; exact hfile.elim) hstep
  obtain ⟨⟨ws', hws', h3'⟩, -⟩ := E.device (by rintro rfl; exact hfile)
  have hdisk : fs.theDisk = gs.theDisk := by rw [L.eq]; rfl
  have hdisk' : fs'.theDisk = gs'.theDisk := by rw [L'.eq]; rfl
  refine ⟨⟨⟨gs', chain', E.consistent C, E.solo C S, L'⟩, ws' ++ ws, ?_, fun b hb ↦ ?_⟩,
    fun _ ↦ E.thrown⟩
  · rw [hdisk', hws', ← hdisk, hws, List.append_assoc]
  · exact (List.mem_append.mp hb).elim (h3' b) (h3 b)

theorem Veiled.keepsMetadata {fs₀ : FileSystem} (W : Veiled V fs₀ fs) : KeepsMetadata fs₀ fs := by
  obtain ⟨⟨gs, chain, C, -, L⟩, hwritten⟩ := W
  refine ⟨hwritten, check_of_accounted ?_ (L.eq ▸ L.covers.accounted C.layout.accounted)⟩
  rw [L.eq]
  exact C.formatted

theorem Sturdy.safeToUse (H : Sturdy fs.fat fs.rootDirectory) (A : Accepted fs chain) :
    SafeToUse fs := by
  intro ls fs' hr
  obtain ⟨chain', C⟩ := A.covered_consistent H
  have hclosed : ∀ h, (A.covered.handleTable h).inUse ≠ true := fun h hu ↦ by
    have hh : (A.covered.handleTable h).inUse = false := A.closed h
    simp [hh] at hu
  have S : Solo A.covered := ⟨fun h hu ↦ absurd hu (hclosed h), fun h _ hu ↦ absurd hu (hclosed h)⟩
  have W : Veiled A.veil fs fs := ⟨⟨_, _, C, S, A.lifts⟩, [], rfl, by simp⟩
  have hkeep : ∀ s l t, Veiled A.veil fs s → FileStep s l t → Veiled A.veil fs t :=
      fun _ _ _ W hst ↦
    (W.step hst).1
  have W' : Veiled A.veil fs fs' := hr.invariant hkeep W
  exact ⟨W'.keepsMetadata, (hr.strengthen hkeep (fun _ _ _ W hst ↦ (W.step hst).2) W).labels
    fun _ _ _ hst ↦ hst.2⟩

end Sturdy

end GenericFs.Fat
