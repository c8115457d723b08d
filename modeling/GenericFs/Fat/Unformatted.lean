import GenericFs.Fat.Creation

namespace GenericFs.Fat

open GenericFs.Library Function Returning FileSystem

/-- A member function that throws no exception, whatever else becomes of it. -/
abbrev Silent {α : Type} (x : Member α) : Prop := Never (fun e ↦ ∃ m, e = .thrown m) x

section Silent

theorem silent_fatGet (b : ℕ) : Silent (fatGet b) := by
  refine Never.get.bind fun fs ↦ ?_
  cases fs.fat.entry b with
  | none => exact .throw nofun
  | some v => exact .pure v

theorem silent_fatSet (b v : ℕ) : Silent (fatSet b v) := by
  rw [fatSet]
  split_ifs
  · exact .modify _
  · exact .throw (by simp)

theorem findName_error {d : Directory} {name : CString} {is : List (Fin dirSize)} {e : Fault}
    (h : findName d name is = .error e) : e = .undefined := by
  induction is with
  | nil => cases h
  | cons i is ih =>
    rw [findName] at h
    split_ifs at h
    · exact ih h
    · cases hcmp : d.strcmp (32 * i) name.bytes with
      | none =>
        rw [hcmp] at h
        injection h with h
        exact h.symm
      | some equal => cases equal <;> simp only [hcmp, reduceCtorEq] at h; exact ih h

theorem silent_findEntry (name : CString) : Silent (findEntry name) := by
  refine Never.get.bind fun fs ↦ ?_
  cases h : findName fs.rootDirectory name (List.finRange dirSize) with
  | ok i => exact .pure i
  | error e =>
    rw [findName_error h]
    exact .throw nofun

theorem silent_lastBlock (fuel current : ℕ) : Silent (lastBlock fuel current) := by
  induction fuel generalizing current with
  | zero => exact .throw nofun
  | succ fuel ih =>
    refine (silent_fatGet current).bind fun next ↦ ?_
    split_ifs
    · exact .pure _
    · exact ih next

theorem silent_freeChain (fuel currentBlock : ℕ) : Silent (freeChain fuel currentBlock) := by
  induction fuel generalizing currentBlock with
  | zero => exact .throw nofun
  | succ fuel ih =>
    refine (silent_fatGet currentBlock).bind fun next ↦ (silent_fatSet _ _).bind fun _ ↦ ?_
    split_ifs
    · exact .pure _
    · exact ih next

theorem silent_openEntry (h : Fin handleTableSize) (i : Fin dirSize) (mode : OpenMode) :
    Silent (openEntry h i mode) := by
  refine Never.get.bind fun fs ↦ ?_
  cases mode with
  | READ => exact .modify _
  | WRITE =>
    exact (Never.modify _).bind fun _ ↦ (silent_lastBlock _ _).bind fun _ ↦
      Never.get.bind fun _ ↦ .modify _

theorem silent_truncate (name : CString) : Silent (FileSystem.truncate name) := by
  refine (silent_findEntry name).bind fun found ↦ ?_
  cases found with
  | none => exact .pure _
  | some index =>
    exact Never.get.bind fun _ ↦ (silent_freeChain _ _).bind fun _ ↦
      (silent_fatSet _ _).bind fun _ ↦ .modify _

theorem silent_remove (name : CString) : Silent (FileSystem.remove name) := by
  refine (silent_findEntry name).bind fun found ↦ ?_
  cases found with
  | none => exact .pure _
  | some index =>
    exact Never.get.bind fun _ ↦ (silent_freeChain _ _).bind fun _ ↦ .modify _

theorem silent_nextDirLoop (turns : ℕ) : Silent (nextDirLoop turns) := by
  induction turns with
  | zero => exact .pure _
  | succ turns ih =>
    refine Never.get.bind fun fs ↦ ?_
    by_cases hscan : fs.scanIndex < dirSize
    · rw [dif_pos hscan]
      show Silent (if (fs.rootDirectory ⟨fs.scanIndex, hscan⟩).inUse = 0 then _ else _)
      split_ifs
      · exact (Never.modify _).bind fun _ ↦ ih
      · cases copyName fs.rootDirectory nameSize (32 * fs.scanIndex) with
        | none => exact .throw nofun
        | some name => exact (Never.modify _).bind fun _ ↦ .pure _
    · rw [dif_neg hscan]
      exact .pure _

end Silent

/-- A call that throws and leaves everything but the place of a scan as it was. -/
structure Refuses (c : Call) (fs : FileSystem) : Prop where
  thrown : ∃ m, (c.reply fs).1 = .error (.thrown m)
  fat : (c.reply fs).2.fat = fs.fat
  rootDirectory : (c.reply fs).2.rootDirectory = fs.rootDirectory
  handleTable : (c.reply fs).2.handleTable = fs.handleTable
  theDisk : (c.reply fs).2.theDisk = fs.theDisk

def RefusesAll : List Call → FileSystem → Prop
  | [], _ => True
  | c :: cs, fs => Refuses c fs ∧ RefusesAll cs (c.reply fs).2

/-- What must hold in the memory of the object, as the constructor found it, for a
call to be refused. -/
def RefusedOn (d : Directory) (fat : FatTable) : Call → Prop
  | .open name mode => d.Lacks name ∧
    (mode = .READ ∨ (∀ i, (d i).inUse ≠ 0) ∨ ∀ j, fat j ≠ freeFatEntry)
  | .truncate _ | .remove _ | .nextDir => False
  | _ => True

variable {fs fs' : FileSystem} {c : Call} {cs : List Call} {name : CString} {mode : OpenMode}

theorem refuses_of_run {α : Type} {x : Member α} {r : α → Reply} {m : String}
    (hx : x.run fs = .error (.thrown m) fs) (hc : c.exec = (do return r (← x))) :
    Refuses c fs ∧ (c.reply fs).2 = fs := by
  have hreply : c.reply fs = (.error (.thrown m), fs) := by
    rw [Call.reply, hc, EStateM.run_bind, hx]
  refine ⟨⟨⟨m, by rw [hreply]⟩, ?_, ?_, ?_, ?_⟩, by rw [hreply]⟩ <;> rw [hreply]

theorem Refuses.run (R : Refuses c fs) : ∃ m s, c.exec.run fs = .error (.thrown m) s := by
  obtain ⟨m, hm⟩ := R.thrown
  rw [Call.reply] at hm
  cases hrun : c.exec.run fs with
  | ok r s => rw [hrun] at hm; cases hm
  | error e s =>
    rw [hrun] at hm
    injection hm with he
    exact ⟨m, s, by rw [he]⟩

theorem not_refuses_of_silent {α : Type} {x : Member α} {r : α → Reply} (hx : Silent x)
    (hc : c.exec = (do return r (← x))) : ¬Refuses c fs := by
  intro R
  obtain ⟨m, s, hrun⟩ := R.run
  rw [hc] at hrun
  exact (hx.bind fun _ ↦ .pure _) fs _ s hrun ⟨m, rfl⟩

theorem lacks_of_findName {d : Directory} {is : List (Fin dirSize)}
    (h : findName d name is = .ok none) :
    ∀ i ∈ is, (d i).inUse ≠ 0 → d.strcmp (32 * i) name.bytes = some false := by
  induction is with
  | nil => simp
  | cons i is ih =>
    rw [findName] at h
    by_cases hu : (d i).inUse = 0
    · rw [if_pos hu] at h
      exact List.forall_mem_cons.mpr ⟨fun hne ↦ absurd hu hne, ih h⟩
    · rw [if_neg hu] at h
      cases hcmp : d.strcmp (32 * i) name.bytes with
      | none => rw [hcmp] at h; cases h
      | some equal =>
        cases equal with
        | true => simp only [hcmp] at h; cases h
        | false =>
          simp only [hcmp] at h
          exact List.forall_mem_cons.mpr ⟨fun _ ↦ hcmp, ih h⟩

section Closed

variable (hclosed : ∀ h, (fs.handleTable h).inUse = false)

include hclosed

theorem find_handle : ∃ h, (Fin.find? fun h ↦ (fs.handleTable h).inUse = false) = some h := by
  cases hh : Fin.find? fun h ↦ (fs.handleTable h).inUse = false with
  | none =>
    have hnone := Fin.find?_eq_none_iff.mp hh 0
    simp [hclosed 0] at hnone
  | some h => exact ⟨h, rfl⟩

theorem open_refuses (h : RefusedOn fs.rootDirectory fs.fat (.open name mode)) :
    Refuses (.open name mode) fs ∧ (Call.reply (.open name mode) fs).2 = fs := by
  obtain ⟨hl, hno⟩ := h
  suffices ∃ m, (FileSystem.open name mode).run fs = .error (.thrown m) fs by
    obtain ⟨m, hrun⟩ := this
    exact refuses_of_run hrun rfl
  cases mode with
  | READ =>
    obtain ⟨h, hh⟩ := find_handle hclosed
    simp only [FileSystem.open, EStateM.run_bind, EStateM.run_get, hh,
      findEntry_lacks hl, ↓reduceIte]
    exact ⟨_, rfl⟩
  | WRITE =>
    rcases open_lacks hl with ⟨-, hrun⟩ | ⟨h, i, j, -, hi, hj, -⟩
    · exact hrun
    · have hempty := Directory.empty_of_find hi
      rcases hno with hm | hslots | hblocks
      · cases hm
      · exact absurd hempty (hslots i)
      · exact absurd (FatTable.firstFree_eq_some hj).1 (hblocks j)

theorem refusedOn_of_open (R : Refuses (.open name mode) fs) :
    RefusedOn fs.rootDirectory fs.fat (.open name mode) := by
  obtain ⟨m, s, hrun⟩ := R.run
  obtain ⟨h, hh⟩ := find_handle hclosed
  cases hfind : findName fs.rootDirectory name (List.finRange dirSize) with
  | error e =>
    rw [findName_error hfind] at hfind
    simp only [Call.exec, FileSystem.open, findEntry, EStateM.run_bind, EStateM.run_get, hh,
      hfind] at hrun
    cases hrun
  | ok found =>
    have hentry : (findEntry name).run fs = .ok found fs := by
      simp only [findEntry, EStateM.run_bind, EStateM.run_get, hfind, EStateM.run_pure]
    cases found with
    | some i =>
      have hopened : Silent ((openEntry h i mode >>= fun _ ↦ pure (h.val : ℤ)) >>= fun x ↦
          pure (Reply.handle x)) :=
        ((silent_openEntry h i mode).bind fun _ ↦ .pure _).bind fun _ ↦ .pure _
      refine absurd ⟨m, rfl⟩ (hopened fs (.thrown m) s ?_)
      simpa only [Call.exec, FileSystem.open, EStateM.run_bind, EStateM.run_get, hh,
        hentry] using hrun
    | none =>
      have hl : fs.rootDirectory.Lacks name :=
        fun i ↦ lacks_of_findName hfind i (List.mem_finRange i)
      refine ⟨hl, ?_⟩
      cases mode with
      | READ => exact .inl rfl
      | WRITE =>
        by_contra hno
        simp only [reduceCtorEq, false_or, not_or, not_forall, not_not] at hno
        rcases open_lacks hl with ⟨hnot, -⟩ | ⟨h, i, j, -, hi, hj, hopen⟩
        · exact hnot ⟨⟨0, hclosed 0⟩, hno.1, hno.2⟩
        · rw [Call.exec, EStateM.run_bind, hopen, EStateM.run_bind] at hrun
          rcases createFile_ends name (h := h) hi hj with ⟨t, hend⟩ | ⟨d, -, hend⟩
          · rw [hend] at hrun
            cases hrun
          · rw [hend] at hrun
            cases hrun

/-- On an object without open handles whose flag says unformatted. -/
theorem refuses_iff (hf : fs.formattedFlag = false) (hc : c ≠ .format ∧ c ≠ .openDir) :
    (Refuses c fs ↔ RefusedOn fs.rootDirectory fs.fat c) ∧
      (RefusedOn fs.rootDirectory fs.fat c → (c.reply fs).2 = fs) := by
  cases c with
  | format => exact absurd rfl hc.1
  | openDir => exact absurd rfl hc.2
  | «open» name mode =>
    exact ⟨⟨refusedOn_of_open hclosed, fun h ↦ (open_refuses hclosed h).1⟩,
      fun h ↦ (open_refuses hclosed h).2⟩
  | truncate name =>
    exact ⟨iff_of_false (not_refuses_of_silent (r := fun _ ↦ .unit) (silent_truncate name) rfl)
      id, False.elim⟩
  | remove name =>
    exact ⟨iff_of_false (not_refuses_of_silent (r := fun _ ↦ .unit) (silent_remove name) rfl)
      id, False.elim⟩
  | nextDir =>
    exact ⟨iff_of_false (not_refuses_of_silent (silent_nextDirLoop dirSize) rfl) id, False.elim⟩
  | read handle count =>
    have hno : ∀ h, Held fs handle h → (fs.handleTable h).mode ≠ .READ := by
      intro h hheld
      simp [hclosed h, Held] at hheld
    obtain ⟨m, -, hrun⟩ := read_throws count hno
    obtain ⟨R, hsame⟩ := refuses_of_run (c := .read handle count)
      (r := fun x : ℤ × List UInt8 ↦ .bytes x.1 x.2) hrun rfl
    exact ⟨iff_of_true R trivial, fun _ ↦ hsame⟩
  | write handle buffer count =>
    have hno : ∀ h, Held fs handle h → (fs.handleTable h).mode ≠ .WRITE := by
      intro h hheld
      simp [hclosed h, Held] at hheld
    obtain ⟨m, -, hrun⟩ := write_throws buffer count hno
    obtain ⟨R, hsame⟩ := refuses_of_run (c := .write handle buffer count) hrun rfl
    exact ⟨iff_of_true R trivial, fun _ ↦ hsame⟩
  | close handle =>
    have hrun : (FileSystem.close handle).run fs =
        .error (.thrown "Attempted to close a file on an unformatted file system.") fs := by
      simp only [FileSystem.close, EStateM.run_bind, EStateM.run_get, hf, ↓reduceIte]
      rfl
    obtain ⟨R, hsame⟩ := refuses_of_run (c := .close handle) (r := fun _ ↦ .unit) hrun rfl
    exact ⟨iff_of_true R trivial, fun _ ↦ hsame⟩
  | freeSpace =>
    have hrun : FileSystem.freeSpace.run fs =
        .error (.thrown "Attempted to ask for free space on an unformatted file system.") fs := by
      simp only [FileSystem.freeSpace, EStateM.run_bind, EStateM.run_get, hf, ↓reduceIte]
      rfl
    obtain ⟨R, hsame⟩ := refuses_of_run (c := .freeSpace) hrun rfl
    exact ⟨iff_of_true R trivial, fun _ ↦ hsame⟩
  | check =>
    have hrun : FileSystem.check.run fs =
        .error (.thrown "file_system::check() -- Unformatted file system") fs := by
      simp only [FileSystem.check, EStateM.run_bind, EStateM.run_get, checkWith, hf, ↓reduceIte]
      rfl
    obtain ⟨R, hsame⟩ := refuses_of_run (c := .check) (r := fun _ ↦ .unit) hrun rfl
    exact ⟨iff_of_true R trivial, fun _ ↦ hsame⟩

end Closed

theorem construct_closed {n : ℕ} {disk : BlockDevice n} {raw : FileSystem}
    (h : construct disk raw = .ok fs) : ∀ k, (fs.handleTable k).inUse = false := by
  by_cases hn : n = blockSize
  · subst hn
    by_cases hdev : disk.blockCount < 4
    · simp only [construct, ↓reduceDIte, if_pos hdev] at h
      cases h
    · exact (construct_fields (not_lt.mp hdev) h).2
  · rw [construct, dif_neg hn] at h
    cases h

/-- Before it is formatted the object refuses a sequence of calls exactly if every
one of them is one that it refuses on the memory it was constructed in: `open` must
not find the name there and must not create it, and `truncate`, `remove` and
`next_dir` refuse nothing. -/
theorem refusesAll_iff {n : ℕ} {disk : BlockDevice n} {raw : FileSystem}
    (hc : construct disk raw = .ok fs) (hf : fs.formattedFlag = false)
    (hcs : ∀ c ∈ cs, c ≠ .format ∧ c ≠ .openDir) :
    RefusesAll cs fs ↔ ∀ c ∈ cs, RefusedOn fs.rootDirectory fs.fat c := by
  have hclosed := construct_closed hc
  clear hc
  induction cs with
  | nil => simp [RefusesAll]
  | cons c cs ih =>
    have hone := refuses_iff hclosed hf (hcs c List.mem_cons_self)
    have ih := ih fun x hx ↦ hcs x (List.mem_cons_of_mem _ hx)
    rw [RefusesAll, List.forall_mem_cons, hone.1]
    refine and_congr_right fun hr ↦ ?_
    rw [hone.2 hr]
    exact ih

section Blank

theorem refusesAll_iff_blank : RefusesAll [.open nameA .READ, .freeSpace] blankObject := by
  refine (refusesAll_iff construct_blank rfl (by simp)).mpr ?_
  rintro c (_ | ⟨_, _ | ⟨_, ⟨⟩⟩⟩)
  · exact ⟨fun i hi ↦ absurd rfl hi, .inl rfl⟩
  · trivial

/-- `remove` does not look at the flag. -/
theorem not_refusesAll : ¬∀ (disk : BlockDevice blockSize) (raw fs : FileSystem) (cs : List Call),
    construct disk raw = .ok fs → fs.formattedFlag = false →
    (∀ c ∈ cs, c ≠ .format ∧ c ≠ .openDir) → RefusesAll cs fs := by
  intro hclaim
  have hall :=
    hclaim blankDisk blankObject blankObject [.remove nameA] construct_blank rfl (by simp)
  exact not_refuses_of_silent (r := fun _ ↦ .unit) (silent_remove nameA) rfl hall.1

end Blank

end GenericFs.Fat
