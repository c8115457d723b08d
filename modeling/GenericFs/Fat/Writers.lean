import GenericFs.Fat.Intact

namespace GenericFs.Fat

open GenericFs.Library Chain Machine Function FileSystem

variable {fs fs' : FileSystem} {chain : Fin dirSize → List ℕ} {i : Fin dirSize}
  {l : Call × Outcome} {ls : List (Call × Outcome)}

/-- A call of `write` through any of the handles that are open for writing on a
file; nothing limits how many there are. -/
inductive WriterStep (i : Fin dirSize) (fs : FileSystem) : Call × Outcome → FileSystem → Prop
  | write (h : Fin handleTableSize) (buffer : List UInt8) (count : ℤ) (o : Outcome)
      (fs' : FileSystem) (hu : (fs.handleTable h).inUse = true)
      (hm : (fs.handleTable h).mode = .WRITE) (hi : (fs.handleTable h).directoryIndex = i)
      (hcount : 0 ≤ count) (hbuffer : count ≤ buffer.length)
      (hs : Step fs (.write h buffer count, o) fs') :
      WriterStep i fs (.write h buffer count, o) fs'

def accepted : Call × Outcome → List UInt8
  | (.write _ buffer _, .ok (.count r)) => buffer.take r.toNat
  | _ => []

/-- A write finds its handle at the end of the file, unless it puts no byte. -/
def UpToDate (fs : FileSystem) : Call → Prop
  | .write handle _ count => ∀ h, Held fs handle h →
    min count.toNat (room fs (fs.handleTable h).directoryIndex) ≠ 0 →
    (fs.handleTable h).offset = (fs.rootDirectory (fs.handleTable h).directoryIndex).size
  | _ => True

/-- What several writers leave of a file: its old chain and its old content,
both lengthened, and its number of blocks. -/
structure Lengthened (fs : FileSystem) (chain : Fin dirSize → List ℕ) (i : Fin dirSize)
    (bytes : List UInt8) (fs' : FileSystem) (chain' : Fin dirSize → List ℕ) : Prop where
  consistent : Consistent fs' chain'
  content : content fs' chain' i = content fs chain i ++ bytes
  extended : chain i <+: chain' i
  links : fs'.fat.Chain (fs'.rootDirectory i).startingBlock (chain' i)
  blocks : ((chain' i).length : ℤ) = (fs'.rootDirectory i).size.tdiv 1024 + 1

theorem Lengthened.nil (C : Consistent fs chain) (hu : (fs.rootDirectory i).inUse = 1) :
    Lengthened fs chain i [] fs chain :=
  ⟨C, by simp, List.prefix_rfl, C.layout.links hu, C.layout.blocks i hu⟩

theorem WriterStep.lengthened (W : WriterStep i fs l fs') (C : Consistent fs chain)
    (hd : UpToDate fs l.1) : (fs'.rootDirectory i).inUse = 1 ∧
      ∃ chain', Lengthened fs chain i (accepted l) fs' chain' := by
  cases W with
  | write h buffer count o fs' hu hm hi hcount hbuffer hs =>
    subst hi
    have H := C.handles h hu
    have hlen : count.toNat ≤ buffer.length := by omega
    obtain ⟨fs₁, chain', ws, hrun, A, hws⟩ := write_run C hu hm hcount hlen rfl (hd h ⟨rfl, hu⟩)
    have hreply : Call.reply (.write h buffer count) fs = (.ok (.count
        (min count.toNat (room fs (fs.handleTable h).directoryIndex) : ℕ)), fs₁.wrote ws) := by
      simp only [Call.reply, Call.exec, EStateM.run_bind, hrun, EStateM.run_pure]
    obtain ⟨rfl, rfl⟩ := Prod.mk.inj (hreply.symm.trans hs)
    have hu' : (fs₁.rootDirectory (fs.handleTable h).directoryIndex).inUse = 1 := by
      rw [A.directory, update_self]
      exact H.inUse
    refine ⟨hu', chain', A.consistent.wrote, ?_, A.extended _, A.consistent.layout.links hu',
      A.consistent.layout.blocks _ hu'⟩
    have hcontent := congrFun A.content (fs.handleTable h).directoryIndex
    rw [update_self] at hcontent
    exact hcontent

/-- In every run of writes through any number of handles in which each write
finds its handle at the end of the file, the file grows by the accepted bytes in
the order of the calls, and keeps its chain. -/
theorem lengthened_of_run (C : Consistent fs chain) (hu : (fs.rootDirectory i).inUse = 1)
    (hr : Run (fun fs l fs' ↦ WriterStep i fs l fs' ∧ UpToDate fs l.1) fs ls fs') :
    ∃ chain', Lengthened fs chain i (ls.flatMap accepted) fs' chain' := by
  induction hr generalizing chain with
  | nil fs => exact ⟨chain, .nil C hu⟩
  | cons hs _ ih =>
    obtain ⟨hu₁, chain₁, hone⟩ := hs.1.lengthened C hs.2
    obtain ⟨chain', hrest⟩ := ih hone.consistent hu₁
    refine ⟨chain', hrest.consistent, ?_, hone.extended.trans hrest.extended, hrest.links,
      hrest.blocks⟩
    rw [hrest.content, hone.content, List.flatMap_cons, List.append_assoc]

section TwoWriters

/-- The blank disk with an empty file in slot 0 and two handles on it, both
opened for writing. -/
def twoWriters : FileSystem :=
  let fs := created { blankObject with formattedFlag := true, fat := emptyFat } 0 3 nameA
  let e : HandleTableEntry :=
    { offset := 0, directoryIndex := 0, currentBlock := 3, inUse := true, mode := .WRITE }
  (fs.withHandle 0 e).withHandle 1 e

def twoWritersChain : Fin dirSize → List ℕ := update (fun _ ↦ []) 0 [3]

theorem twoWriters_consistent : Consistent twoWriters twoWritersChain := by
  have C : Consistent { blankObject with formattedFlag := true, fat := emptyFat } fun _ ↦ [] :=
    ⟨rfl, le_rfl, layout_empty, fun h hu ↦ by simp [blankObject] at hu⟩
  have C' : Consistent
    (created { blankObject with formattedFlag := true, fat := emptyFat } 0 3 nameA)
      twoWritersChain := C.created rfl rfl
  have H : HandleOk (created { blankObject with formattedFlag := true, fat := emptyFat } 0 3
      nameA).rootDirectory twoWritersChain
      { offset := 0, directoryIndex := 0, currentBlock := 3, inUse := true, mode := .WRITE } :=
    ⟨rfl, le_rfl, le_rfl, rfl⟩
  exact (C'.withHandle fun _ ↦ H).withHandle fun _ ↦ H

theorem writeOne_step {h : Fin handleTableSize} {b : UInt8} (C : Consistent fs chain)
    (hu : (fs.handleTable h).inUse = true) (hm : (fs.handleTable h).mode = .WRITE)
    (hi : (fs.handleTable h).directoryIndex = i)
    (hroom : (fs.rootDirectory i).size.toNat < 1023)
    (hinside : ((fs.handleTable h).offset.toNat + 1) / 1024 = 0) :
    ∃ ws, WriterStep i fs (.write h [b] 1, .ok (.count 1)) ((appendByte h fs b).wrote ws) := by
  subst hi
  have hr : 1 = min (1 : ℤ).toNat (room fs (fs.handleTable h).directoryIndex) := by
    rw [room]
    omega
  have hlen : (1 : ℤ).toNat ≤ [b].length := by simp
  obtain ⟨ws, hrun, -⟩ := write_bytes_run C hu hm (by decide) hlen hr (by omega)
  refine ⟨ws, .write h [b] 1 _ _ hu hm rfl (by decide) (by simp) ?_⟩
  simp only [Step, Call.reply, Call.exec, EStateM.run_bind, hrun, EStateM.run_pure]
  rfl

theorem lengthened_of_run_twoWriters :
    ∃ fs' chain', Lengthened twoWriters twoWritersChain 0 [65] fs' chain' := by
  obtain ⟨ws, hone⟩ := writeOne_step (i := 0) (h := 0) (b := 65) twoWriters_consistent rfl rfl rfl
    (by decide) rfl
  have hfresh : UpToDate twoWriters (.write (0 : Fin handleTableSize) [65] 1) := by
    rintro h ⟨hh, -⟩ -
    obtain rfl : 0 = h := Fin.ext (by exact_mod_cast hh)
    rfl
  obtain ⟨chain', hlong⟩ :=
    lengthened_of_run twoWriters_consistent rfl (.cons ⟨hone, hfresh⟩ (.nil _))
  exact ⟨_, chain', hlong⟩

theorem twoWriters_run : ∃ ws, Run (WriterStep 0) twoWriters
    [(.write 0 [65] 1, .ok (.count 1)), (.write 1 [66] 1, .ok (.count 1))]
    ((appendByte 1 (appendByte 0 twoWriters 65) 66).wrote ws) := by
  have C := twoWriters_consistent
  obtain ⟨chain₁, A⟩ := appendBytes_appended (h := 0) [65] C rfl rfl (Nat.zero_le _)
  obtain ⟨ws, hone⟩ := writeOne_step (i := 0) (h := 0) (b := 65) C rfl rfl rfl (by decide) rfl
  have C' : Consistent ((appendByte 0 twoWriters 65).wrote ws) chain₁ := A.consistent.wrote
  obtain ⟨ws', htwo⟩ := writeOne_step (i := 0) (h := 1) (b := 66) C' rfl rfl rfl
    (show (1 : ℤ).toNat < 1023 by decide) (show ((0 : ℤ).toNat + 1) / 1024 = 0 by decide)
  refine ⟨ws' ++ ws, .cons hone (.cons ?_ (.nil _))⟩
  rw [← wrote_wrote, ← appendByte_wrote]
  exact htwo

/-- The second of two writers overwrites what the first one wrote: its offset is
the one it had when it was opened. -/
theorem not_lengthened_of_writers : ¬∀ (fs fs' : FileSystem) (chain : Fin dirSize → List ℕ)
    (i : Fin dirSize) (ls : List (Call × Outcome)), Consistent fs chain →
    (fs.rootDirectory i).inUse = 1 → Run (WriterStep i) fs ls fs' →
    (∀ l ∈ ls, ∃ handle buffer, l = (.write handle buffer buffer.length,
      .ok (.count buffer.length))) →
    ∃ chain', Lengthened fs chain i (ls.flatMap accepted) fs' chain' := by
  intro hclaim
  obtain ⟨ws, hrun⟩ := twoWriters_run
  obtain ⟨chain', hlong⟩ := hclaim _ _ _ 0 _ twoWriters_consistent rfl hrun fun l hl ↦ by
    rcases List.mem_cons.mp hl with rfl | hl
    · exact ⟨0, [65], rfl⟩
    · exact ⟨1, [66], List.mem_singleton.mp hl⟩
  have hfirst : chain' 0 = [3] := hlong.links.unique (.last rfl)
  have hcontent := hlong.content
  have hsize :
      ((((appendByte 1 (appendByte 0 twoWriters 65) 66).wrote ws).rootDirectory 0).size.toNat) =
      1 + 1 := rfl
  have hbyte :
      byteAt ((appendByte 1 (appendByte 0 twoWriters 65) 66).wrote ws).theDisk.block [3] 0 =
      66 := rfl
  rw [content, hfirst, hsize, Store.slice_succ_left, hbyte] at hcontent
  have hhead : some (66 : UInt8) = some 65 := congrArg List.head? hcontent
  simp at hhead

end TwoWriters

end GenericFs.Fat
