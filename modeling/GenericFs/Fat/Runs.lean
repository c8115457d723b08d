import GenericFs.Library.Machine
import GenericFs.Fat.Client

namespace GenericFs.Fat

open GenericFs.Library Chain Machine Function FileSystem

variable {fs fs' : FileSystem} {chain chain' : Fin dirSize → List ℕ} {c : Call} {o : Outcome}
  {h : Fin handleTableSize} {i : Fin dirSize}

theorem layout_empty : Layout emptyFat emptyDirectory fun _ ↦ [] where
  allotment := by
    refine ⟨fun i a ha ↦ ?_, fun _ _ ↦ rfl, fun _ _ _ ↦ by simp, fun _ b hb ↦ by simp at hb,
      fun b v hb hv ↦ ?_⟩
    · simp [Directory.start, emptyDirectory] at ha
    · rw [FatTable.entry_of_lt (FatTable.entry_lt hb)] at hb
      simp only [emptyFat, Option.some.injEq] at hb
      split_ifs at hb <;> simp [← hb] at hv
  reserved b hb := by
    rw [FatTable.entry_of_lt (by omega)]
    simp only [emptyFat]
    rw [if_pos (by simp only [bootBlock, fatBlock, rootBlock]; omega)]
  usable _ := fun _ ↦ .inl rfl
  blocks i hi := by simp [emptyDirectory] at hi

theorem Effect.consistent (E : Effect fs chain c o fs' chain') (C : Consistent fs chain) :
    Consistent fs' chain' := by
  cases E with
  | formatted hh =>
    exact ⟨rfl, C.device, layout_empty, fun h hu ↦ absurd hu (by simp [hh h])⟩
  | found h i hh hl hu hs hw => exact C.withHandle fun _ ↦ newHandle_ok hu hs _
  | created h i j hn hh hl hm hi hj =>
    exact (C.created hi hj).withHandle fun _ ↦
      ⟨by simp [Fat.created], le_rfl, by simp [Fat.created], by simp⟩
  | read h o n hh hm ho hn =>
    have H := C.handles h hh.2
    have hsize := H.le_size
    exact C.seek rfl H.inUse (by push_cast; omega)
  | write h r fs' ws hh hm hcount hr A hws => exact A.consistent.wrote
  | close h hh => exact C.withHandle fun hu ↦ by simp at hu
  | truncated i hl hu hc => exact C.truncated hc hu
  | removed i hl hc => exact C.removed hc
  | dirOpened | dirEntry | dirEnd => exact ⟨C.formatted, C.device, C.layout, C.handles⟩
  | openRefused | readRefused | writeRefused | closeRefused | notThere | freeSpace | checkRefused
  | checked => exact C

theorem Solo.of_kept (S : Solo fs) (hkeep : ∀ k, (fs'.handleTable k).inUse = true →
    (fs'.handleTable k).mode = .WRITE → fs'.handleTable k = fs.handleTable k ∧
      (fs'.rootDirectory (fs.handleTable k).directoryIndex).size =
        (fs.rootDirectory (fs.handleTable k).directoryIndex).size) : Solo fs' where
  atEnd k hu hm := by
    obtain ⟨he, hs⟩ := hkeep k hu hm
    rw [he] at hu hm ⊢
    rw [hs]
    exact S.atEnd k hu hm
  single k m hku hkm hmu hmm hi := by
    obtain ⟨hk, -⟩ := hkeep k hku hkm
    obtain ⟨hm, -⟩ := hkeep m hmu hmm
    rw [hk] at hku hkm hi
    rw [hm] at hmu hmm hi
    exact S.single k m hku hkm hmu hmm hi

theorem Solo.of_joined (S : Solo fs) (hend : (fs'.handleTable h).offset =
      (fs'.rootDirectory (fs'.handleTable h).directoryIndex).size)
    (hkeep : ∀ k, k ≠ h → (fs'.handleTable k).inUse = true → (fs'.handleTable k).mode = .WRITE →
      fs'.handleTable k = fs.handleTable k ∧
      (fs.handleTable k).directoryIndex ≠ (fs'.handleTable h).directoryIndex ∧
      (fs'.rootDirectory (fs.handleTable k).directoryIndex).size =
        (fs.rootDirectory (fs.handleTable k).directoryIndex).size) : Solo fs' where
  atEnd k hu hm := by
    rcases eq_or_ne k h with rfl | hk
    · exact hend
    · obtain ⟨he, -, hs⟩ := hkeep k hk hu hm
      rw [he] at hu hm ⊢
      rw [hs]
      exact S.atEnd k hu hm
  single k m hku hkm hmu hmm hi := by
    by_cases hk : k = h
    · by_contra hne
      obtain ⟨he, hd, -⟩ := hkeep m (fun hm ↦ hne (hk.trans hm.symm)) hmu hmm
      rw [hk, he] at hi
      exact hd hi.symm
    · by_cases hm : m = h
      · obtain ⟨he, hd, -⟩ := hkeep k hk hku hkm
        rw [hm, he] at hi
        exact absurd hi hd
      · obtain ⟨hke, -⟩ := hkeep k hk hku hkm
        obtain ⟨hme, -⟩ := hkeep m hm hmu hmm
        rw [hke] at hku hkm hi
        rw [hme] at hmu hmm hi
        exact S.single k m hku hkm hmu hmm hi

theorem Effect.solo (E : Effect fs chain c o fs' chain') (C : Consistent fs chain) (S : Solo fs) :
    Solo fs' := by
  cases E with
  | formatted hh => exact S.of_kept fun k hu _ ↦ absurd hu (by simp [hh k])
  | @found name mode h i hh hl hu hs hw =>
    cases mode with
    | READ =>
      refine S.of_kept fun k _ hm ↦ ⟨?_, rfl⟩
      have hk : k ≠ h := by rintro rfl; simp [newHandle] at hm
      simp [hk]
    | WRITE =>
      refine S.of_joined (h := h) (by simp [newHandle, startOffset]) fun k hk hku hkm ↦ ?_
      simp only [withHandle_fields, update_of_ne hk] at hku hkm
      exact ⟨by simp [hk], by simpa [newHandle] using hw rfl k hku hkm, rfl⟩
  | created h i j hn hh hl hm hi hj =>
    refine S.of_joined (h := h) (by simp [Fat.created]) fun k hk hku hkm ↦ ?_
    simp only [withHandle_fields, update_of_ne hk] at hku hkm
    have hne : (fs.handleTable k).directoryIndex ≠ i := C.closed hi k hku
    exact ⟨by simp [hk, Fat.created], by simpa using hne, by simp [Fat.created, hne]⟩
  | read h o n hh hm ho hn =>
    refine S.of_kept fun k _ hkm ↦ ⟨?_, rfl⟩
    have hk : k ≠ h := by rintro rfl; simp [seek, hm] at hkm
    simp [seek, hk]
  | @write handle count buffer chain' h r fs' ws hh hm hcount hr A hws =>
    have hi : (fs'.handleTable h).directoryIndex = (fs.handleTable h).directoryIndex := by
      rw [A.handle]
    refine S.of_joined (h := h) ?_ fun k hk hku hkm ↦ ?_
    · simp only [wrote_fields]
      rw [hi, A.handle, A.directory, update_self, S.atEnd h hh.2 hm]
    · simp only [wrote_fields, A.others k hk] at hku hkm
      have hne : (fs.handleTable k).directoryIndex ≠ (fs.handleTable h).directoryIndex :=
        fun he ↦ hk (S.single k h hku hkm hh.2 hm he)
      refine ⟨A.others k hk, fun he ↦ hne (he.trans hi), ?_⟩
      simp only [wrote_fields]
      rw [A.directory, update_of_ne hne]
  | close h hh =>
    refine S.of_kept fun k hku _ ↦ ⟨?_, rfl⟩
    have hk : k ≠ h := by rintro rfl; simp at hku
    simp [hk]
  | truncated i hl hu hc | removed i hl hc =>
    refine S.of_kept fun k hku _ ↦ ⟨rfl, ?_⟩
    have hne := hc k hku
    simp [released, hne]
  | dirOpened | dirEntry | dirEnd => exact ⟨S.atEnd, S.single⟩
  | openRefused | readRefused | writeRefused | closeRefused | notThere | freeSpace | checkRefused
  | checked => exact S

/-- The device as a call leaves it: what was written, and the metadata blocks,
which only `format` writes. -/
theorem Effect.device (E : Effect fs chain c o fs' chain') (hc : c ≠ .format) :
    (∃ ws, fs'.theDisk.written = ws ++ fs.theDisk.written ∧ ∀ b ∈ ws, 3 ≤ b) ∧
      ∀ b < 3, fs'.theDisk.block b = fs.theDisk.block b := by
  cases E with
  | formatted => exact absurd rfl hc
  | @write handle count buffer chain' h r fs' ws hh hm hcount hr A hws =>
    refine ⟨⟨ws, ?_, hws⟩, A.metadata⟩
    simp only [wrote_fields, A.written]
  | _ => exact ⟨⟨[], rfl, by simp⟩, fun _ _ ↦ rfl⟩

/-- Every name in use is one that was in use before, in the same place. -/
def Directory.Inherits (d d' : Directory) : Prop :=
  ∀ k, (d' k).inUse ≠ 0 → (d k).inUse ≠ 0 ∧ (d' k).name = (d k).name

def Directory.NamesEnd (d : Directory) : Prop := ∀ i, (d i).inUse ≠ 0 → (d i).Named

def Directory.NamesDiffer (d : Directory) : Prop :=
  ∀ i j, (d i).inUse ≠ 0 → (d j).inUse ≠ 0 → (d i).nameBytes = (d j).nameBytes → i = j

/-- A free place gets a name that the directory did not have. -/
structure Directory.Gains (d d' : Directory) (i : Fin dirSize) (name : CString) : Prop where
  fits : name.Fits
  absent : d.lookup name = none
  free : (d i).inUse = 0
  name : (d' i).nameBytes = name.bytes
  others : ∀ k, k ≠ i → d' k = d k

section Names

variable {d d' : Directory}

theorem Directory.Inherits.refl : d.Inherits d := fun _ hk ↦ ⟨hk, rfl⟩

theorem Directory.Inherits.update {e : DirectoryEntry}
    (he : e.inUse ≠ 0 → (d i).inUse ≠ 0 ∧ e.name = (d i).name) : d.Inherits (update d i e) := by
  intro k hk
  rcases eq_or_ne k i with rfl | hki
  · rw [update_self] at hk ⊢
    exact he hk
  · rw [update_of_ne hki] at hk ⊢
    exact ⟨hk, rfl⟩

theorem Directory.Inherits.nameBytes (I : d.Inherits d') {k : Fin dirSize} (hk : (d' k).inUse ≠ 0) :
    (d' k).nameBytes = (d k).nameBytes := by
  simp only [DirectoryEntry.nameBytes, DirectoryEntry.nameFrom, (I k hk).2]

theorem Directory.Inherits.namesEnd (I : d.Inherits d') (N : d.NamesEnd) : d'.NamesEnd := by
  intro k hk
  rw [DirectoryEntry.Named, (I k hk).2]
  exact N k (I k hk).1

theorem Directory.Inherits.namesDiffer (I : d.Inherits d') (N : d.NamesDiffer) :
    d'.NamesDiffer := by
  intro k m hk hm he
  rw [I.nameBytes hk, I.nameBytes hm] at he
  exact N k m (I k hk).1 (I m hm).1 he

theorem Directory.Gains.namesEnd {name : CString} (G : d.Gains d' i name) (N : d.NamesEnd) :
    d'.NamesEnd := by
  intro k hk
  rcases eq_or_ne k i with rfl | hki
  · exact DirectoryEntry.named_iff.mpr (by rw [G.name]; exact G.fits)
  · rw [G.others k hki] at hk ⊢
    exact N k hk

theorem Directory.Gains.namesDiffer {name : CString} (G : d.Gains d' i name) (N : d.NamesDiffer) :
    d'.NamesDiffer := by
  have hfresh : ∀ k, k ≠ i → (d' k).inUse ≠ 0 → (d' k).nameBytes ≠ name.bytes :=
      fun k hk hu hname ↦ by
    rw [G.others k hk] at hu hname
    exact Directory.not_holds_of_lookup G.absent k ⟨hu, hname⟩
  intro k m hk hm he
  by_cases hki : k = i
  · by_contra hne
    have hmi : m ≠ i := fun h ↦ hne (hki.trans h.symm)
    rw [hki, G.name] at he
    exact hfresh m hmi hm he.symm
  · by_cases hmi : m = i
    · rw [hmi, G.name] at he
      exact absurd he (hfresh k hki hk)
    · rw [G.others k hki] at hk he
      rw [G.others m hmi] at hm he
      exact N k m hk hm he

theorem created_gains {name : CString} {j : Fin fatSize} (hn : name.Fits)
    (hl : fs.rootDirectory.lookup name = none) (hi : (fs.rootDirectory i).inUse = 0) :
    fs.rootDirectory.Gains (created fs i j name).rootDirectory i name where
  fits := hn
  absent := hl
  free := hi
  name := DirectoryEntry.nameBytes_copied (d := fs.rootDirectory) (i := i) (by simp [created]) hn
  others k hk := by simp [created, hk]

/-- What a call makes of the names of the directory. -/
theorem Effect.names (E : Effect fs chain c o fs' chain') (hc : c ≠ .format) :
    fs.rootDirectory.Inherits fs'.rootDirectory ∨
      ∃ i name, fs.rootDirectory.Gains fs'.rootDirectory i name := by
  cases E with
  | formatted => exact absurd rfl hc
  | @created name mode h i j hn hh hl hm hi hj => exact .inr ⟨i, name, created_gains hn hl hi⟩
  | write h r fs' ws hh hm hcount hr A hws =>
    refine .inl ?_
    rw [wrote_fields.2.2.2.2.2.1, A.directory]
    exact .update fun hu ↦ ⟨hu, rfl⟩
  | truncated i => exact .inl (.update fun hu ↦ ⟨hu, rfl⟩)
  | removed i => exact .inl (.update fun hu ↦ absurd rfl hu)
  | _ => exact .inl .refl

end Names

/-- What a disk formatted by this program keeps besides its layout: names that
end, one file for a name, reserved blocks only for metadata, fields that their
bytes on disk can hold, and the boot block. -/
structure Ordinary (fs : FileSystem) : Prop where
  named : ∀ i, (fs.rootDirectory i).inUse ≠ 0 → (fs.rootDirectory i).Named
  distinct : ∀ i j, (fs.rootDirectory i).inUse ≠ 0 → (fs.rootDirectory j).inUse ≠ 0 →
    (fs.rootDirectory i).nameBytes = (fs.rootDirectory j).nameBytes → i = j
  reservedOnly : ∀ b, fs.fat.entry b = some reservedFatEntry → b < 3
  storable : ∀ i, 0 ≤ (fs.rootDirectory i).size ∧ (fs.rootDirectory i).size < 2 ^ 31 ∧
    (fs.rootDirectory i).startingBlock < 2 ^ 16
  boot : fs.theDisk.block 0 = bootImage

theorem Layout.size_lt {fat : FatTable} {d : Directory} (L : Layout fat d chain)
    (hu : (d i).inUse = 1) (hs : 0 ≤ (d i).size) : (d i).size < 2 ^ 31 := by
  have hlen := L.length hu hs
  have hle := (L.links hu).length_le
  omega

theorem Ordinary.rewrite (O : Ordinary fs) {e : DirectoryEntry}
    (hd : fs'.rootDirectory = update fs.rootDirectory i e)
    (hname : e.inUse ≠ 0 → (fs.rootDirectory i).inUse ≠ 0 ∧ e.name = (fs.rootDirectory i).name)
    (hfat : ∀ b, fs'.fat.entry b = some reservedFatEntry → fs.fat.entry b = some reservedFatEntry)
    (hs : 0 ≤ e.size ∧ e.size < 2 ^ 31)
    (hb : e.startingBlock = (fs.rootDirectory i).startingBlock)
    (hboot : fs'.theDisk.block 0 = fs.theDisk.block 0) : Ordinary fs' := by
  have I : fs.rootDirectory.Inherits fs'.rootDirectory := by
    rw [hd]
    exact .update hname
  refine ⟨I.namesEnd O.named, I.namesDiffer O.distinct, fun b hb ↦ O.reservedOnly b (hfat b hb),
    fun k ↦ ?_, hboot.trans O.boot⟩
  rw [hd]
  rcases eq_or_ne k i with rfl | hki
  · rw [update_self, hb]
    exact ⟨hs.1, hs.2, (O.storable k).2.2⟩
  · rw [update_of_ne hki]
    exact O.storable k

theorem Ordinary.congr (O : Ordinary fs) (hd : fs'.rootDirectory = fs.rootDirectory)
    (hfat : fs'.fat = fs.fat) (hboot : fs'.theDisk.block 0 = fs.theDisk.block 0) :
    Ordinary fs' := by
  refine ⟨?_, ?_, ?_, ?_, hboot.trans O.boot⟩
  · rw [hd]; exact O.named
  · rw [hd]; exact O.distinct
  · rw [hfat]; exact O.reservedOnly
  · rw [hd]; exact O.storable

theorem Ordinary.formatted (hf : fs.fat = emptyFat) (hd : fs.rootDirectory = emptyDirectory)
    (hboot : fs.theDisk.block 0 = bootImage) : Ordinary fs := by
  refine ⟨fun i hi ↦ ?_, fun i _ hi ↦ ?_, fun b hb ↦ ?_, fun i ↦ ?_, hboot⟩
  · simp [hd, emptyDirectory] at hi
  · simp [hd, emptyDirectory] at hi
  · rw [hf, FatTable.entry_of_lt (FatTable.entry_lt hb), emptyFat] at hb
    simp only [bootBlock, fatBlock, rootBlock, reservedFatEntry, freeFatEntry,
      Option.some.injEq] at hb
    split_ifs at hb with h
    omega
  · simp [hd, emptyDirectory]

theorem Ordinary.created (O : Ordinary fs) {name : CString} {j : Fin fatSize} (hn : name.Fits)
    (hl : fs.rootDirectory.lookup name = none) (hi : (fs.rootDirectory i).inUse = 0) :
    Ordinary (created fs i j name) := by
  have G : fs.rootDirectory.Gains (Fat.created fs i j name).rootDirectory i name :=
    created_gains hn hl hi
  refine ⟨G.namesEnd O.named, G.namesDiffer O.distinct, fun b hb ↦ ?_, fun k ↦ ?_, O.boot⟩
  · simp only [Fat.created] at hb
    rw [FatTable.entry_set j.isLt] at hb
    by_cases hbj : b = j
    · simp [hbj] at hb
    · rw [update_of_ne hbj] at hb
      exact O.reservedOnly b hb
  · rcases eq_or_ne k i with rfl | hki
    · have hj := j.isLt
      simp only [fatSize] at hj
      refine ⟨?_, ?_, ?_⟩ <;> simp [Fat.created]
      omega
    · rw [G.others k hki]
      exact O.storable k

theorem FatTable.reserved_of_clear {fat : FatTable} {l : List ℕ} {b : ℕ}
    (hb : (fat.clear l).entry b = some reservedFatEntry) : fat.entry b = some reservedFatEntry := by
  by_cases hl : b ∈ l
  · rw [FatTable.entry_clear_of_mem hl (FatTable.entry_lt hb)] at hb
    simp at hb
  · rwa [FatTable.entry_clear_of_notMem hl] at hb

theorem Effect.ordinary (E : Effect fs chain c o fs' chain') (C : Consistent fs chain)
    (O : Ordinary fs) : Ordinary fs' := by
  cases E with
  | formatted hh => exact .formatted rfl rfl (by simp)
  | created h i j hn hh hl hm hi hj => exact (O.created hn hl hi).congr rfl rfl rfl
  | @write handle count buffer chain' h r fs' ws hh hm hcount hr A hws =>
    have H := C.handles h hh.2
    have hs := H.nonneg.trans H.le_size
    suffices Ordinary fs' from this.congr rfl rfl rfl
    have hu' : (fs'.rootDirectory (fs.handleTable h).directoryIndex).inUse = 1 := by
      rw [A.directory, update_self]
      exact H.inUse
    have hs' : (fs'.rootDirectory (fs.handleTable h).directoryIndex).size =
        (fs.rootDirectory (fs.handleTable h).directoryIndex).size + (buffer.take r).length := by
      rw [A.directory, update_self]
    have hlt := A.consistent.layout.size_lt hu' (by omega)
    exact O.rewrite A.directory (fun _ ↦ ⟨by simp [H.inUse], rfl⟩) A.reserved
      ⟨by simp only; omega, by simp only; omega⟩ rfl (A.metadata 0 (by decide))
  | truncated i hl hu hc =>
    refine O.rewrite (i := i) (e := { fs.rootDirectory i with size := 0 }) rfl
      (fun _ ↦ ⟨by simp [hu], rfl⟩) (fun b hb ↦ ?_) ⟨by simp, by simp⟩ rfl rfl
    simp only [setFat_fields, released] at hb
    have hlt := (C.layout.links hu).lt _ (C.layout.links hu).start_mem
    rw [FatTable.entry_set hlt] at hb
    by_cases hbs : b = (fs.rootDirectory i).startingBlock
    · simp [hbs] at hb
    · rw [update_of_ne hbs] at hb
      exact FatTable.reserved_of_clear hb
  | removed i hl hc =>
    refine O.rewrite (i := i) (e := { fs.rootDirectory i with inUse := 0 }) rfl
      (fun h ↦ by simp at h) (fun b hb ↦ FatTable.reserved_of_clear hb) ?_ rfl rfl
    exact ⟨(O.storable i).1, (O.storable i).2.1⟩
  | _ => exact O.congr rfl rfl rfl

def Regular (fs : FileSystem) : Prop := ∃ chain, Consistent fs chain ∧ Solo fs ∧ Ordinary fs

def PoliteStep (fs : FileSystem) (l : Call × Outcome) (fs' : FileSystem) : Prop :=
  Polite fs l.1 ∧ Step fs l fs'

/-- A file system constructed on a device that has every block of the FAT, and
then formatted. -/
structure Begins (disk : BlockDevice blockSize) (raw fs fs' : FileSystem) : Prop where
  device : 512 ≤ disk.blockCount
  constructed : construct disk raw = .ok fs
  formatted : format.run fs = .ok () fs'

theorem construct_eq {disk : BlockDevice blockSize} {raw : FileSystem}
    (hdev : 4 ≤ disk.blockCount) :
    construct disk raw = .ok
      (if (disk.block 0).cells 0 = formatted ∧ checksum (disk.block 0).cells blockSize = 0 then
        { fat := decodeFat (disk.block 1), rootDirectory := decodeDirectory (disk.block 2),
          handleTable := fun h ↦ { raw.handleTable h with inUse := false },
          scanIndex := raw.scanIndex, theDisk := disk, formattedFlag := true }
      else
        { raw with
          handleTable := fun h ↦ { raw.handleTable h with inUse := false }
          theDisk := disk
          formattedFlag := false }) := by
  have hread : ∀ b < 4, disk.read b = .ok (disk.block b) := fun b hb ↦ by
    rw [BlockDevice.read, if_neg (by omega)]
  simp only [construct, ↓reduceDIte, if_neg (not_lt.mpr hdev), hread 0 (by decide),
    hread 1 (by decide), hread 2 (by decide), bind, Except.bind, pure, Except.pure]
  split_ifs <;> rfl

theorem construct_fields {disk : BlockDevice blockSize} {raw : FileSystem}
    (hdev : 4 ≤ disk.blockCount) (h : construct disk raw = .ok fs) :
    fs.theDisk = disk ∧ ∀ k, (fs.handleTable k).inUse = false := by
  rw [construct_eq hdev] at h
  obtain rfl := Except.ok.inj h
  split_ifs <;> exact ⟨rfl, fun _ ↦ rfl⟩

theorem Begins.fresh {disk : BlockDevice blockSize} {raw : FileSystem}
    (B : Begins disk raw fs fs') :
    (Consistent fs' (fun _ ↦ []) ∧ Solo fs' ∧ Ordinary fs') ∧
      fs'.rootDirectory = emptyDirectory ∧ ∀ h, (fs'.handleTable h).inUse = false := by
  obtain ⟨hdisk, hhandles⟩ := construct_fields (le_trans (by decide) B.device) B.constructed
  have hdev : 512 ≤ fs.theDisk.blockCount := by rw [hdisk]; exact B.device
  have hrun := B.formatted
  rw [format_run _ hdev] at hrun
  injection hrun with _ hfs
  subst hfs
  exact ⟨⟨⟨rfl, hdev, layout_empty, fun h hu ↦ absurd hu (by simp [hhandles h])⟩,
    ⟨fun h hu ↦ absurd hu (by simp [hhandles h]), fun h _ hu ↦ absurd hu (by simp [hhandles h])⟩,
    .formatted rfl rfl (by simp)⟩, rfl, hhandles⟩

theorem Begins.regular {disk : BlockDevice blockSize} {raw : FileSystem}
    (B : Begins disk raw fs fs') : Regular fs' :=
  ⟨fun _ ↦ [], B.fresh.1⟩

theorem Regular.effect (R : Regular fs) (hp : Polite fs c) (hs : Step fs (c, o) fs') :
    ∃ chain chain', Consistent fs chain ∧ Effect fs chain c o fs' chain' := by
  obtain ⟨chain, C, S, O⟩ := R
  obtain ⟨chain', E⟩ := step_effect C S hp (fun _ ↦ O.named) hs
  exact ⟨chain, chain', C, E⟩

theorem Regular.step {l : Call × Outcome} (R : Regular fs) (hs : PoliteStep fs l fs') :
    Regular fs' := by
  obtain ⟨chain, C, S, O⟩ := R
  obtain ⟨chain', E⟩ := step_effect C S hs.1 (fun _ ↦ O.named) hs.2
  exact ⟨chain', E.consistent C, E.solo C S, E.ordinary C O⟩

theorem Begins.run_regular {disk : BlockDevice blockSize} {raw fs₀ : FileSystem}
    {ls : List (Call × Outcome)} (B : Begins disk raw fs₀ fs) (hr : Run PoliteStep fs ls fs') :
    Regular fs' :=
  hr.invariant (fun _ _ _ ↦ Regular.step) B.regular

section Blank

theorem construct_blank : construct blankDisk blankObject = .ok blankObject := by
  have hcell : (blankDisk.block 0).cells 0 ≠ formatted := by decide
  rw [construct_eq (by decide), if_neg fun h ↦ hcell h.1]
  rfl

def blankFormatted : FileSystem := (Call.format.reply blankObject).2

theorem blankFormatted_eq : blankFormatted =
    ({ blankObject with
      fat := emptyFat
      rootDirectory := emptyDirectory
      formattedFlag := true }.withBlock bootBlock bootImage).wrote [bootBlock] := by
  rw [blankFormatted, Call.reply, Call.exec, EStateM.run_bind, format_run blankObject le_rfl]
  rfl

theorem blankFormatted_blockCount : blankFormatted.theDisk.blockCount = 512 := by
  rw [blankFormatted_eq]
  rfl

theorem begins_blank : Begins blankDisk blankObject blankObject blankFormatted where
  device := le_rfl
  constructed := construct_blank
  formatted := by rw [format_run blankObject le_rfl, blankFormatted_eq]

def nameA : CString := ⟨[97], by decide⟩

theorem PoliteStep.of_polite (hp : Polite fs c) :
    PoliteStep fs (c, (c.reply fs).1) (c.reply fs).2 :=
  ⟨hp, rfl⟩

theorem PoliteStep.of_reply (hp : Polite fs c) (ho : (c.reply fs).1 = o) :
    PoliteStep fs (c, o) (c.reply fs).2 :=
  ⟨hp, by rw [← ho]; rfl⟩

theorem polite_open_blank (mode : OpenMode) : Polite blankFormatted (.open nameA mode) :=
  ⟨by decide, fun _ _ _ h hu ↦ by simp [blankFormatted_eq, blankObject] at hu⟩

end Blank

section TwoFiles

def nameB : CString := ⟨[98], by decide⟩

def nameC : CString := ⟨[99], by decide⟩

theorem twoFiles_closed (h : Fin handleTableSize) : (twoFiles.handleTable h).inUse = false := rfl

theorem twoFiles_consistent : Consistent twoFiles twoFilesChain :=
  ⟨rfl, le_rfl, twoFiles_layout, fun h hu ↦ by cases hu⟩

theorem twoFiles_solo : Solo twoFiles where
  atEnd h hu := by cases hu
  single h _ hu := by cases hu

theorem twoFiles_ordinary : Ordinary twoFiles where
  named i hi := by
    obtain rfl | rfl := twoFiles_inUse hi <;> exact ⟨1, rfl⟩
  distinct i j hi hj := by
    obtain rfl | rfl := twoFiles_inUse hi <;> obtain rfl | rfl := twoFiles_inUse hj <;> decide
  reservedOnly b hb := by
    by_contra hlarge
    have hmeta : ¬(b = bootBlock ∨ b = fatBlock ∨ b = rootBlock) := by
      simp only [bootBlock, fatBlock, rootBlock]
      omega
    rw [FatTable.entry_of_lt (FatTable.entry_lt hb), Option.some.injEq] at hb
    simp only [twoFiles, update_apply, emptyFat, if_neg hmeta] at hb
    split_ifs at hb <;> cases hb
  storable := by decide
  boot := rfl

end TwoFiles

end GenericFs.Fat
