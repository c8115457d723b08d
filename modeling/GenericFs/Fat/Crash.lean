import GenericFs.Fat.Receiving
import GenericFs.Fat.Remount

namespace GenericFs.Fat

open GenericFs.Library Chain Machine Function FileSystem

def Call.Hits (name : CString) : Call → Prop
  | .format => True
  | .truncate n | .remove n => n = name
  | _ => False

def Untouched (name : CString) (ls : List (Call × Outcome)) : Prop := ∀ l ∈ ls, ¬l.1.Hits name

/-- A device on which each block is as it was at some time of the run: of the blocks that
were written since the file system was constructed, any may be missing. -/
structure Torn (fs : FileSystem) (ls : List (Call × Outcome))
    (d : BlockDevice blockSize) : Prop where
  blockCount : d.blockCount = fs.theDisk.blockCount
  block : ∀ b < d.blockCount, ∃ ms t, ms <+: ls ∧ Run PoliteStep fs ms t ∧
    d.block b = t.theDisk.block b

/-- The file at `i` is in its place, with more bytes behind the old ones if anything. -/
structure Keeps (name : CString) (i : Fin dirSize) (fs : FileSystem) (chain : Fin dirSize → List ℕ)
    (fs' : FileSystem) (chain' : Fin dirSize → List ℕ) : Prop where
  lookup : fs'.rootDirectory.lookup name = some i
  extended : chain i <+: chain' i
  content : content fs chain i <+: content fs' chain' i

variable {fs fs' fs₁ : FileSystem} {chain chain' chain₁ : Fin dirSize → List ℕ} {c : Call}
  {o : Outcome} {i : Fin dirSize} {name : CString} {ls ms : List (Call × Outcome)}
  {disk d d' : BlockDevice blockSize} {raw : FileSystem} {k : ℕ} {bytes : List UInt8}

theorem Keeps.rfl (hl : fs.rootDirectory.lookup name = some i) : Keeps name i fs chain fs chain :=
  ⟨hl, List.prefix_rfl, List.prefix_rfl⟩

theorem Keeps.trans (K : Keeps name i fs chain fs₁ chain₁)
    (K' : Keeps name i fs₁ chain₁ fs' chain') :
    Keeps name i fs chain fs' chain' :=
  ⟨K'.lookup, K.extended.trans K'.extended, K.content.trans K'.content⟩

theorem Elsewhere.keeps {other : CString} (E : Elsewhere other fs chain fs' chain')
    (hne : name ≠ other)
    (hl : fs.rootDirectory.lookup name = some i) (hchain : chain' i = chain i) :
    Keeps name i fs chain fs' chain' := by
  refine ⟨(E.lookup name hne).trans hl, ?_, ?_⟩
  · rw [hchain]
  · rw [E.content name i hne hl]

theorem Effect.keeps (E : Effect fs chain c o fs' chain') (C : Consistent fs chain)
    (hl : fs.rootDirectory.lookup name = some i) (hc : ¬c.Hits name) :
    Keeps name i fs chain fs' chain' := by
  cases E with
  | formatted => exact absurd trivial hc
  | @created other mode h m j hn hh hl' hm hi hj =>
    subst hm
    have hne : name ≠ other := by
      rintro rfl
      rw [hl] at hl'
      cases hl'
    have him : i ≠ m := by
      rintro rfl
      exact (Directory.holds_of_lookup hl).1 hi
    exact (created_emptied C hn hh hl' hi hj).elsewhere.keeps hne hl (update_of_ne him _ _)
  | @write handle count buffer chain' h r fs' ws hh hm hcount hr A hws =>
    refine ⟨?_, A.extended i, ?_⟩
    · rw [wrote_fields.2.2.2.2.2.1, A.directory]
      exact Directory.lookup_resize.trans hl
    · show content fs chain i <+: content fs' chain' i
      rw [A.content]
      rcases eq_or_ne i (fs.handleTable h).directoryIndex with rfl | hi
      · rw [update_self]
        exact List.prefix_append _ _
      · rw [update_of_ne hi]
  | @truncated other m hl' hu hclosed =>
    have hne : name ≠ other := fun h ↦ hc h.symm
    exact (truncated_elsewhere hl').keeps hne hl (update_of_ne (Directory.lookup_ne hl' hl hne) _ _)
  | @removed other m hl' hclosed =>
    have hne : name ≠ other := fun h ↦ hc h.symm
    exact (removed_elsewhere hl').keeps hne hl (update_of_ne (Directory.lookup_ne hl' hl hne) _ _)
  | _ => exact ⟨hl, List.prefix_rfl, List.prefix_rfl⟩

/-- What holds of every state of a run, seen from the state it began in. -/
structure Since (fs : FileSystem) (chain : Fin dirSize → List ℕ) (ls : List (Call × Outcome))
    (fs' : FileSystem) (chain' : Fin dirSize → List ℕ) : Prop where
  consistent : Consistent fs' chain'
  solo : Solo fs'
  ordinary : Ordinary fs'
  metadata : ∀ b < 3, fs'.theDisk.block b = fs.theDisk.block b
  keeps : ∀ name i, fs.rootDirectory.lookup name = some i → Untouched name ls →
    Keeps name i fs chain fs' chain'

theorem Since.nil (C : Consistent fs chain) (S : Solo fs) (O : Ordinary fs) :
    Since fs chain [] fs chain :=
  ⟨C, S, O, fun _ _ ↦ rfl, fun _ _ hl _ ↦ .rfl hl⟩

theorem Effect.metadata (E : Effect fs chain c o fs' chain') (O : Ordinary fs) {b : ℕ}
    (hb : b < 3) : fs'.theDisk.block b = fs.theDisk.block b := by
  by_cases hc : c = .format
  · subst hc
    cases E with
    | notThere => rfl
    | formatted =>
      rcases eq_or_ne b bootBlock with rfl | hne
      · simp [O.boot]
      · simp [update_of_ne hne]
  · exact (E.device hc).2 b hb

theorem Since.step {l : Call × Outcome} (S : Since fs chain ls fs₁ chain₁)
    (hs : PoliteStep fs₁ l fs') : ∃ chain', Since fs chain (ls ++ [l]) fs' chain' := by
  obtain ⟨chain', E⟩ := step_effect S.consistent S.solo hs.1 (fun _ ↦ S.ordinary.named) hs.2
  refine ⟨chain', E.consistent S.consistent, E.solo S.consistent S.solo,
    E.ordinary S.consistent S.ordinary, fun b hb ↦ ?_, fun name i hl hu ↦ ?_⟩
  · exact (E.metadata S.ordinary hb).trans (S.metadata b hb)
  · have K := S.keeps name i hl fun m hm ↦ hu m (List.mem_append_left _ hm)
    exact K.trans (E.keeps S.consistent K.lookup (hu l (by simp)))

theorem since_of_run (C : Consistent fs chain) (S : Solo fs) (O : Ordinary fs)
    (hr : Run PoliteStep fs ls fs') : ∃ chain', Since fs chain ls fs' chain' := by
  have hnil : ∃ chain', Since fs chain [] fs chain' := ⟨chain, .nil C S O⟩
  have h := hr.history (P := fun ks t ↦ ∃ chain', Since fs chain ks t chain')
    (fun ks s l t ⟨_, hs⟩ hst ↦ hs.step hst) hnil
  rwa [List.nil_append] at h

/-- A file system constructed on the device finds the layout that this program keeps. -/
structure Mounts (disk : BlockDevice blockSize) (raw fs : FileSystem)
    (chain : Fin dirSize → List ℕ) :
    Prop where
  constructed : construct disk raw = .ok fs
  consistent : Consistent fs chain
  ordinary : Ordinary fs
  closed : ∀ h, (fs.handleTable h).inUse = false

theorem Mounts.solo (M : Mounts disk raw fs chain) : Solo fs :=
  ⟨fun h hu ↦ by simp [M.closed h] at hu, fun h _ hu ↦ by simp [M.closed h] at hu⟩

def remount (fs : FileSystem) (d : BlockDevice blockSize) (raw : FileSystem) : FileSystem where
  theDisk := d
  formattedFlag := true
  fat := fs.fat
  rootDirectory := fs.rootDirectory
  handleTable h := { raw.handleTable h with inUse := false }
  scanIndex := raw.scanIndex

theorem Mounts.fields (M : Mounts disk raw fs chain) : fs = remount fs disk raw ∧
    fs.fat = decodeFat (disk.block 1) ∧ fs.rootDirectory = decodeDirectory (disk.block 2) := by
  have h := M.constructed
  have hformatted := M.consistent.formatted
  have hdev : 4 ≤ disk.blockCount := by
    by_contra hlt
    simp only [construct, ↓reduceDIte, if_pos (not_le.mp hlt)] at h
    cases h
  rw [construct_eq hdev] at h
  obtain rfl := Except.ok.inj h
  split_ifs at hformatted ⊢ with hboot
  exact ⟨rfl, rfl, rfl⟩

theorem Torn.remount (M : Mounts disk raw fs chain) (T : Torn fs ls d) (raw' : FileSystem) :
    Mounts d raw' (remount fs d raw') chain := by
  obtain ⟨hfs, hfat, hdirectory⟩ := M.fields
  have hdisk : fs.theDisk = disk := by rw [hfs]; rfl
  have hdev : 512 ≤ d.blockCount := by
    rw [T.blockCount]
    exact M.consistent.device
  have hmetadata : ∀ b < 3, d.block b = disk.block b := by
    intro b hb
    obtain ⟨ms, t, -, hr, hblock⟩ := T.block b (by omega)
    obtain ⟨chain', S⟩ := since_of_run M.consistent M.solo M.ordinary hr
    rw [hblock, S.metadata b hb, hdisk]
  have hboot : d.block 0 = bootImage := by
    rw [hmetadata 0 (by decide), ← hdisk, M.ordinary.boot]
  refine ⟨?_, ⟨rfl, hdev, M.consistent.layout, fun h hu ↦ by simp [Fat.remount] at hu⟩,
    M.ordinary.congr rfl rfl (hboot.trans M.ordinary.boot.symm), fun h ↦ rfl⟩
  rw [construct_eq (by omega), hboot, if_pos bootImage_formatted, hmetadata 1 (by decide),
    hmetadata 2 (by decide), ← hfat, ← hdirectory]
  rfl

theorem byteAt_getD {blocks blocks' : ℕ → Block} {l : List ℕ}
    (h : blocks' (l.getD (k / 1024) 0) = blocks (l.getD (k / 1024) 0)) :
    byteAt blocks' l k = byteAt blocks l k := by
  rw [byteAt, byteAt, h]

/-- A state of the run has the old bytes in the old blocks. -/
theorem Keeps.byteAt (K : Keeps name i fs chain fs' chain') (C : Consistent fs chain)
    (hu : (fs.rootDirectory i).inUse = 1) (hk : k < (fs.rootDirectory i).size.toNat) :
    byteAt fs'.theDisk.block (chain i) k = byteAt fs.theDisk.block (chain i) k := by
  have hlt : k / 1024 < (chain i).length := C.layout.index_lt hu (by omega)
  obtain ⟨l, hl⟩ := K.extended
  have hcontent := K.content
  have hk₁ : k < (Fat.content fs chain i).length := by
    rw [length_content]
    exact hk
  have hbyte := List.IsPrefix.getElem hcontent hk₁
  simp only [Fat.content, Store.getElem_slice, Nat.zero_add] at hbyte
  rw [hbyte, ← hl, byteAt_append hlt]

theorem Torn.content (M : Mounts disk raw fs chain) (T : Torn fs ls d) (hn : name.Fits)
    (hl : fs.rootDirectory.lookup name = some i) (hu : Untouched name ls) (raw' : FileSystem) :
    Fat.content (Fat.remount fs d raw') chain i = Fat.content fs chain i := by
  obtain ⟨hinUse, -⟩ := M.consistent.of_lookup hn hl
  refine Store.slice_congr fun k (hk : k < (fs.rootDirectory i).size.toNat) ↦ ?_
  rw [Nat.zero_add]
  have hlt : (chain i).getD (k / 1024) 0 < d.blockCount := by
    have hindex : k / 1024 < (chain i).length := M.consistent.layout.index_lt hinUse (by omega)
    have hentry := (M.consistent.layout.links hinUse).lt _ (List.getElem_mem hindex)
    have hdev := M.consistent.device
    rw [List.getD_eq_getElem _ 0 hindex, T.blockCount]
    exact hentry.trans_le hdev
  obtain ⟨ms, t, hms, hr, hblock⟩ := T.block _ hlt
  obtain ⟨chain', S⟩ := since_of_run M.consistent M.solo M.ordinary hr
  have K := S.keeps name i hl fun l hl ↦ hu l (hms.subset hl)
  exact (byteAt_getD hblock).trans (K.byteAt M.consistent hinUse hk)

theorem Ordinary.fits (O : Ordinary fs) (hl : fs.rootDirectory.lookup name = some i) :
    name.Fits := by
  obtain ⟨hi, hname⟩ := Directory.holds_of_lookup hl
  rw [CString.Fits, ← hname]
  exact DirectoryEntry.named_iff.mp (O.named i hi)

/-- A device that was only read has the files that it had. -/
theorem Torn.file (M : Mounts disk raw fs chain) (T : Torn fs [] d) (raw' : FileSystem)
    (name : CString) : Fat.file (Fat.remount fs d raw') chain name = Fat.file fs chain name := by
  rw [Fat.file, Fat.file]
  show (fs.rootDirectory.lookup name).map _ = _
  cases hl : fs.rootDirectory.lookup name with
  | none => rfl
  | some i =>
    have hn := M.ordinary.fits hl
    exact congrArg some (T.content M hn hl (by simp [Untouched]) raw')

/-- If the program ends without the destructor, what was written since the file system was
constructed is lost, and with it the files that were truncated or removed, or all of them if
the disk was formatted. The others are as they were found. -/
theorem recovers_of_run (M : Mounts disk raw fs chain) (T : Torn fs ls d) (raw' : FileSystem) :
    ∃ fs₃, Mounts d raw' fs₃ chain ∧ fs₃.fat = fs.fat ∧ fs₃.rootDirectory = fs.rootDirectory ∧
      ∀ name i, name.Fits → fs.rootDirectory.lookup name = some i → Untouched name ls →
        Reads fs₃ name (content fs chain i) := by
  have M₃ := T.remount M raw'
  refine ⟨remount fs d raw', M₃, rfl, rfl, fun name i hn hl hu ↦ ?_⟩
  rw [← T.content M hn hl hu raw']
  exact reads_content M₃.consistent hn hl ⟨0, rfl⟩

theorem content_reloaded (C : Consistent fs chain) :
    content (reloaded fs raw) chain i = content fs chain i := by
  refine Store.slice_congr fun k _ ↦ byteAt_congr (flushed_block (by decide) (by decide)) fun c hc ↦
    ?_
  have hc3 := C.layout.three_le_of_mem hc
  exact flushed_block (by omega) (by omega)

theorem Mounts.reloaded (C : Consistent fs chain) (O : Ordinary fs) (raw : FileSystem) :
    Mounts (flushed fs).theDisk raw (reloaded fs raw) chain := by
  refine ⟨construct_flushed _ C.device O.boot C.layout.entry_lt O.storable raw, C.reloaded raw, ?_,
    fun _ ↦ rfl⟩
  exact O.congr rfl rfl (flushed_block (by decide) (by decide))

section TwoFiles

/-- Of the blocks that a run wrote just one has reached the device. -/
theorem Torn.one (hr : Run PoliteStep fs ls fs') (b : ℕ) :
    Torn fs ls { fs.theDisk with block := update fs.theDisk.block b (fs'.theDisk.block b) } where
  blockCount := rfl
  block c _ := by
    rcases eq_or_ne c b with rfl | hc
    · exact ⟨ls, fs', List.prefix_rfl, hr, update_self _ _ _⟩
    · exact ⟨[], fs, List.nil_prefix, .nil fs, update_of_ne hc _ _⟩

theorem lookup_reloaded :
    (reloaded fs raw).rootDirectory.lookup name = fs.rootDirectory.lookup name := rfl

theorem twoFiles_mounts (raw : FileSystem) :
    Mounts (flushed twoFiles).theDisk raw (reloaded twoFiles raw) twoFilesChain :=
  .reloaded twoFiles_consistent twoFiles_ordinary raw

def lengthening : FileSystem :=
  ((Call.write 0 [65, 66] 2).reply
  ((Call.open nameA .WRITE).reply (reloaded twoFiles blankObject)).2).2

theorem lengthens (hclosed : ∀ h, (fs.handleTable h).inUse = false) : ∃ o o', Run PoliteStep fs
    [(.open nameA .WRITE, o), (.write 0 [65, 66] 2, o')]
    ((Call.write 0 [65, 66] 2).reply ((Call.open nameA .WRITE).reply fs).2).2 := by
  have hopen :
      Polite fs (.open nameA .WRITE) := ⟨by decide, fun _ _ _ h hu ↦ by simp [hclosed h] at hu⟩
  have hwrite : Polite ((Call.open nameA .WRITE).reply fs).2 (.write 0 [65, 66] 2) :=
    ⟨by decide, by decide⟩
  exact ⟨_, _, .cons (.of_polite hopen) (.cons (.of_polite hwrite) (.nil _))⟩

theorem untouched_lengthens {o o' : Outcome} :
    Untouched nameA [(.open nameA .WRITE, o), (.write 0 [65, 66] 2, o')] := by
  simp [Untouched, Call.Hits]

/-- The full last block of `a` has reached the device, and the block behind it has not. -/
def tornDevice : BlockDevice blockSize :=
  { (reloaded twoFiles blankObject).theDisk with
    block := update (reloaded twoFiles blankObject).theDisk.block 4 (lengthening.theDisk.block 4) }

theorem recovers_of_run_twoFiles : tornDevice.block 4 1023 = 65 ∧ ∃ fs₃,
    Mounts tornDevice blankObject fs₃ twoFilesChain ∧
      Reads fs₃ nameA (content twoFiles twoFilesChain 0) := by
  have M := twoFiles_mounts blankObject
  obtain ⟨o, o', hr⟩ : ∃ o o', Run PoliteStep (reloaded twoFiles blankObject)
    [(.open nameA .WRITE, o), (.write 0 [65, 66] 2, o')] lengthening := lengthens M.closed
  have T : Torn (reloaded twoFiles blankObject) _ tornDevice := .one hr 4
  obtain ⟨fs₃, M₃, -, -, hreads⟩ := recovers_of_run M T blankObject
  refine ⟨by decide +kernel, fs₃, M₃, ?_⟩
  rw [← content_reloaded twoFiles_consistent]
  exact hreads nameA 0 (by decide) rfl untouched_lengthens

end TwoFiles

section Lives

/-- The program runs on the device once, and leaves it: after the destructor, or without. -/
inductive Life (disk : BlockDevice blockSize) (ls : List (Call × Outcome)) :
    BlockDevice blockSize → Prop
  | destroyed {raw fs fs' fs'' : FileSystem} :
    construct disk raw = .ok fs → Run PoliteStep fs ls fs' →
      flush.run fs' = .ok () fs'' → Life disk ls fs''.theDisk
  | crashed {raw fs : FileSystem} {d : BlockDevice blockSize} : construct disk raw = .ok fs →
      Torn fs ls d → Life disk ls d

/-- Every file system constructed on the device is sound and has the file. -/
def Stores (disk : BlockDevice blockSize) (name : CString) (bytes : List UInt8) : Prop :=
  ∀ raw, ∃ fs chain, Mounts disk raw fs chain ∧ file fs chain name = some bytes

def Mountable (disk : BlockDevice blockSize) : Prop := ∀ raw, ∃ fs chain, Mounts disk raw fs chain

theorem Mounts.unique (M : Mounts disk raw fs chain) (h : construct disk raw = .ok fs₁) :
    fs₁ = fs :=
  Except.ok.inj (h.symm.trans M.constructed)

theorem Life.mountable (L : Life disk ls d') (M : Mountable disk) : Mountable d' := by
  cases L with
  | @destroyed raw fs fs' fs'' hconstruct hr hflush =>
    obtain ⟨_, chain, M⟩ := M raw
    cases M.unique hconstruct
    obtain ⟨chain', S⟩ := since_of_run M.consistent M.solo M.ordinary hr
    rw [flush_run S.consistent] at hflush
    cases hflush
    exact fun raw' ↦ ⟨_, chain', .reloaded S.consistent S.ordinary raw'⟩
  | @crashed raw fs _ hconstruct T =>
    obtain ⟨_, chain, M⟩ := M raw
    cases M.unique hconstruct
    exact fun raw' ↦ ⟨_, chain, T.remount M raw'⟩

theorem Life.stores (L : Life disk ls d') (hn : name.Fits) (hs : Stores disk name bytes)
    (hu : Untouched name ls) : ∃ bytes', bytes <+: bytes' ∧ Stores d' name bytes' := by
  cases L with
  | @destroyed raw fs fs' fs'' hconstruct hr hflush =>
    obtain ⟨_, chain, M, hfile⟩ := hs raw
    cases M.unique hconstruct
    obtain ⟨i, hl, rfl⟩ := file_eq_some.mp hfile
    obtain ⟨chain', S⟩ := since_of_run M.consistent M.solo M.ordinary hr
    have K := S.keeps name i hl hu
    rw [flush_run S.consistent] at hflush
    cases hflush
    refine ⟨content fs' chain' i, K.content, fun raw' ↦
      ⟨_, chain', .reloaded S.consistent S.ordinary raw',
      file_eq_some.mpr ⟨i, K.lookup, content_reloaded S.consistent⟩⟩⟩
  | @crashed raw fs _ hconstruct T =>
    obtain ⟨_, chain, M, hfile⟩ := hs raw
    cases M.unique hconstruct
    obtain ⟨i, hl, rfl⟩ := file_eq_some.mp hfile
    exact ⟨_, List.prefix_rfl, fun raw' ↦ ⟨_, chain, T.remount M raw',
      file_eq_some.mpr ⟨i, hl, T.content M hn hl hu raw'⟩⟩⟩

/-- Over any number of lives of the program, however each of them ends, the device stays
sound, and no file that is never truncated or removed, on a disk that is never formatted,
loses a byte. -/
theorem stores_of_lives {lss : List (List (Call × Outcome))} (hr : Run Life disk lss d')
    (M : Mountable disk) : Mountable d' ∧ ∀ (name : CString) (bytes : List UInt8), name.Fits →
      Stores disk name bytes → (∀ ls ∈ lss, Untouched name ls) →
        ∃ bytes', bytes <+: bytes' ∧ Stores d' name bytes' := by
  refine ⟨hr.invariant (fun _ _ _ hm hl ↦ hl.mountable hm) M, fun name bytes hn hs hu ↦ ?_⟩
  have hnil : (∀ ls ∈ ([] : List (List (Call × Outcome))), Untouched name ls) →
      ∃ bytes', bytes <+: bytes' ∧ Stores disk name bytes' := fun _ ↦ ⟨bytes, List.prefix_rfl, hs⟩
  have h := hr.history (P := fun kss d ↦ (∀ ls ∈ kss, Untouched name ls) →
      ∃ bytes', bytes <+: bytes' ∧ Stores d name bytes')
    (fun kss d ls d' ih hlife hu ↦ by
      obtain ⟨bytes₁, hprefix, hs₁⟩ := ih fun ks hks ↦ hu ks (List.mem_append_left _ hks)
      obtain ⟨bytes₂, hprefix', hs₂⟩ := hlife.stores hn hs₁ (hu ls (by simp))
      exact ⟨bytes₂, hprefix.trans hprefix', hs₂⟩)
    hnil
  rw [List.nil_append] at h
  exact h hu

/-- Two bytes are written to `a`, first in a life that ends with the destructor, and then in one
that does not. -/
theorem stores_of_lives_twoFiles :
    ∃ d d' ls ls', Life (flushed twoFiles).theDisk ls d ∧ Life d ls' d' ∧
    Mountable d' ∧ ∃ bytes, content twoFiles twoFilesChain 0 <+: bytes ∧ Stores d' nameA bytes := by
  have M : Mountable (flushed twoFiles).theDisk := fun raw ↦ ⟨_, _, twoFiles_mounts raw⟩
  have hstores :
      Stores (flushed twoFiles).theDisk nameA (content twoFiles twoFilesChain 0) := fun raw ↦
    ⟨_, _, twoFiles_mounts raw, file_eq_some.mpr ⟨0, rfl, content_reloaded twoFiles_consistent⟩⟩
  have M₁ := twoFiles_mounts blankObject
  obtain ⟨o, o', hr⟩ := lengthens M₁.closed
  obtain ⟨chain, S⟩ := since_of_run M₁.consistent M₁.solo M₁.ordinary hr
  have hlife : Life _ _ _ := .destroyed M₁.constructed hr (flush_run S.consistent)
  obtain ⟨fs₂, chain₂, M₂⟩ := hlife.mountable M blankObject
  obtain ⟨u, u', hr'⟩ := lengthens M₂.closed
  have hlife' : Life _ _ _ := .crashed M₂.constructed (.one hr' 6)
  obtain ⟨hmountable, hkept⟩ := stores_of_lives (.cons hlife (.cons hlife' (.nil _))) M
  exact ⟨_, _, _, _, hlife, hlife', hmountable, hkept nameA _ (by decide) hstores
    (List.forall_mem_cons.mpr
    ⟨untouched_lengthens, List.forall_mem_singleton.mpr untouched_lengthens⟩)⟩

end Lives

end GenericFs.Fat
