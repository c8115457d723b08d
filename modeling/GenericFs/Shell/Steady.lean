import GenericFs.Fat.Steady
import GenericFs.Shell.Sessions

namespace GenericFs.Shell

open GenericFs.Fat GenericFs.Library Function Returning FileSystem

variable {I : FileSystem → Prop} {J : (CString → Option (List UInt8)) → (CString → Bool) →
    Prop} {α : Type}

/-- A property of the file system, and one of the files of the host. -/
structure Inside (I : FileSystem → Prop)
    (J : (CString → Option (List UInt8)) → (CString → Bool) → Prop)
    (s : Session) : Prop where
  files : I s.files
  host : J s.host s.writable

theorem stable_member {m : Member α} (h : Stable I m) : Stable (Inside I J) (member m) := by
  intro s hs
  have hm := h s.files hs.files
  cases hrun : m.run s.files with
  | ok a fs =>
    rw [member_run hrun]
    refine ⟨fun b t ht ↦ ?_, fun e t ht ↦ (by cases ht)⟩
    injection ht with _ ht
    exact ht ▸ ⟨hm.1 a fs hrun, hs.host⟩
  | error e fs =>
    rw [member_error hrun]
    refine ⟨fun b t ht ↦ (by cases ht), fun b t ht ↦ ?_⟩
    injection ht with _ ht
    exact ht ▸ ⟨hm.2 e fs hrun, hs.host⟩

theorem stable_error (message : String) : Stable (Inside I J) (error message) :=
  .modify fun _ h ↦ ⟨h.files, h.host⟩

theorem stable_print (l : Line) :
    Stable (Inside I J) (print l) := .modify fun _ h ↦ ⟨h.files, h.host⟩

variable (T : TableBlind I)

include T

theorem stable_vcopyoutLoop (input : ℤ) {out : CString}
    (H : ∀ host w bytes, J host w → J (update host out bytes) w)
    (turns : ℕ) : Stable (Inside I J) (vcopyoutLoop input out turns) := by
  induction turns with
  | zero => exact .throw _
  | succ turns ih =>
    refine (stable_member (stable_read T _ _)).bind fun p ↦ ?_
    exact .ite (.pure _) ((Stable.modify fun _ h ↦ ⟨h.files, H _ _ _ h.host⟩).bind fun _ ↦ ih)

theorem stable_vcopyoutOp {line : CommandLine}
    (H : ∀ host w bytes, J host w → J (update host (word line 3) bytes) w) :
    Stable (Inside I J) (vcopyoutOp line) := by
  refine .ite ((stable_error _).bind fun _ ↦ .pure _) ?_
  refine (stable_member (stable_open T _ _)).bind fun input ↦ .get_bind fun s _ ↦ .ite ?_ ?_
  · exact (stable_error _).bind fun _ ↦ (stable_member (stable_close T _)).bind fun _ ↦ .pure _
  · refine (Stable.modify fun _ h ↦ ⟨h.files, H _ _ _ h.host⟩).bind fun _ ↦ .ite (.throw _) ?_
    exact (stable_vcopyoutLoop T _ H _).bind fun _ ↦
      (stable_member (stable_close T _)).bind fun _ ↦ .pure _

theorem stable_vdelOp (line : CommandLine) : Stable (Inside I J) (vdelOp line) :=
  .ite ((stable_error _).bind fun _ ↦ .pure _)
    ((stable_member (stable_remove T _)).bind fun _ ↦ .pure _)

theorem stable_vdirLoop (turns : ℕ) : Stable (Inside I J) (vdirLoop turns) := by
  induction turns with
  | zero => exact .throw _
  | succ turns ih =>
    refine (stable_member (stable_nextDirLoop T _)).bind fun found ↦ ?_
    cases found with
    | none => exact .pure _
    | some info => exact (stable_print _).bind fun _ ↦ ih

theorem stable_vdirOp (line : CommandLine) : Stable (Inside I J) (vdirOp line) :=
  (stable_member (stable_openDir T)).bind fun _ ↦ (stable_vdirLoop T _).bind fun _ ↦ .pure _

variable (W : ∀ handle buffer count, Stable I (FileSystem.write handle buffer count))

include W

omit T in
theorem stable_put (out : ℤ) (buffer : List UInt8) (count : ℤ) :
    Stable (Inside I J) (put out buffer count) :=
  (stable_member (W _ _ _)).bind fun _ ↦ .ite (stable_error _) (.pure _)

theorem stable_vcopyLoop (input out : ℤ) (turns : ℕ) :
    Stable (Inside I J) (vcopyLoop input out turns) := by
  induction turns with
  | zero => exact .throw _
  | succ turns ih =>
    refine (stable_member (stable_read T _ _)).bind fun p ↦ ?_
    exact .ite (.pure _) ((stable_put W _ _ _).bind fun _ ↦ ih)

theorem stable_vcopyOp (line : CommandLine) : Stable (Inside I J) (vcopyOp line) := by
  refine .ite ((stable_error _).bind fun _ ↦ .pure _) ?_
  refine (stable_member (stable_open T _ _)).bind fun input ↦
    (stable_member (stable_truncate T _)).bind fun _ ↦
      (stable_member (stable_open T _ _)).bind fun out ↦
      (stable_vcopyLoop T W _ _ _).bind fun _ ↦ ?_
  exact (stable_member (stable_close T _)).bind fun _ ↦
    (stable_member (stable_close T _)).bind fun _ ↦ .pure _

omit T in
theorem stable_vcopyinLoop (out : ℤ) (turns : ℕ) (input : List UInt8) :
    Stable (Inside I J) (vcopyinLoop out turns input) := by
  induction turns generalizing input with
  | zero => exact .throw _
  | succ turns ih => exact .ite (.pure _) ((stable_put W _ _ _).bind fun _ ↦ ih _)

theorem stable_vcopyinOp (line : CommandLine) : Stable (Inside I J) (vcopyinOp line) := by
  refine .ite ((stable_error _).bind fun _ ↦ .pure _) (.get_bind fun s _ ↦ ?_)
  cases s.host (word line 2) with
  | none => exact (stable_error _).bind fun _ ↦ .pure _
  | some input =>
    exact (stable_member (stable_truncate T _)).bind fun _ ↦
      (stable_member (stable_open T _ _)).bind fun out ↦ (stable_vcopyinLoop W _ _ _).bind fun _ ↦
        (stable_member (stable_close T _)).bind fun _ ↦ .pure _

/-- Only `format` makes a disk formatted, and only `vcopyout` writes a file of the host. -/
theorem stable_operation {c : String × (CommandLine → Command Bool)} (hmem : c ∈ jumpTable)
    {line : CommandLine} (hf : c.1 = "format" → Stable I format)
    (H : c.1 = "vcopyout" → ∀ host w bytes, J host w → J (update host (word line 3) bytes) w) :
    Stable (Inside I J) (c.2 line) := by
  simp only [jumpTable, List.mem_cons, List.not_mem_nil, or_false] at hmem
  rcases hmem with rfl | rfl | rfl | rfl | rfl | rfl | rfl | rfl
  · exact .pure _
  · exact .pure _
  · exact (stable_member (hf rfl)).bind fun _ ↦ .pure _
  · exact stable_vcopyOp T W line
  · exact stable_vcopyinOp T W line
  · exact stable_vcopyoutOp T (H rfl)
  · exact stable_vdelOp T line
  · exact stable_vdirOp T line

section Turns

variable {line : CommandLine} (hf : Commands line "format" → Stable I format)
  (H : Commands line "vcopyout" → ∀ host w bytes, J host w → J (update host (word line 3) bytes) w)

include hf H

theorem stable_perform : Stable (Inside I J) (perform line) := by
  unfold perform
  cases hfind : jumpTable.find? fun c ↦ ascii c.1 = (word line 1).bytes with
  | none => exact (stable_error _).bind fun _ ↦ .pure _
  | some c =>
    have hfound := List.find?_some hfind
    have hc : Commands line c.1 := (of_decide_eq_true hfound).symm
    have hmem := List.mem_of_find?_eq_some hfind
    exact stable_operation T W hmem (fun h ↦ hf (h ▸ hc)) fun h ↦ H (h ▸ hc)

theorem stable_interact : Stable (Inside I J) (interact line) := by
  have hrest : Stable (Inside I J) (do
      let done ← perform line
      member FileSystem.check
      return done) :=
    (stable_perform T W hf H).bind fun _ ↦ (stable_member stable_check).bind fun _ ↦ .pure _
  rw [interact_eq]
  exact .get_bind fun s _ ↦ .ite ((stable_member stable_freeSpace).bind fun _ ↦
    (stable_print _).bind fun _ ↦ hrest) hrest

end Turns

end GenericFs.Shell
