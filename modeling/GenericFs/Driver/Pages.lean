import GenericFs.Disktool.Format
import GenericFs.Driver.Dir
import GenericFs.Driver.Mounting

namespace GenericFs.Driver

open GenericFs.Library Store Machine GenericFs.Disktool

/-- What `mpage_readpage` makes of a page of a file and of the method that maps its blocks,
if nothing fails. -/
abbrev ReadPage := VfsInode → ℕ → (VfsInode → ℕ → ℕ) → Option Buffer

/-- The number that the block has on the partition: always that of the first one. -/
def gfsGetBlock (inode : VfsInode) (_iblock : ℕ) : ℕ := inode.blocks 0

def gfsReadpage (mpageReadpage : ReadPage) (inode : VfsInode) (page : ℕ) : Option Buffer :=
  mpageReadpage inode page gfsGetBlock

/-- The pages of a directory are not checked. -/
def gfsGetPage (mpageReadpage : ReadPage) (dir : VfsInode) (n : ℕ) : Option Buffer :=
  gfsReadpage mpageReadpage dir n

def VfsInode.directory (dir : VfsInode) (mpageReadpage : ReadPage) : Directory where
  iSize := dir.iSize
  page := gfsGetPage mpageReadpage dir

/-- What a read of a whole file gives, byte after byte from its pages. -/
def VfsInode.contents (inode : VfsInode) (mpageReadpage : ReadPage) : Option (List UInt8) :=
  (List.range inode.iSize).mapM fun pos ↦
    (gfsReadpage mpageReadpage inode (pos / pageSize)).map (· (pos % pageSize))

/-- Nothing fails in the kernel, and the blocks are those of the partition. -/
structure Serving (env : Environment) (mpageReadpage : ReadPage) (blockCount : ℕ)
    (bytes : ℕ → UInt8) : Prop where
  setBlocksize : env.setBlocksize = none
  kmalloc : env.kmalloc = true
  sbBread : ∀ n < blockCount, env.sbBread n = some fun i ↦ bytes (4096 * n + i)
  igetLocked : ∀ ino, env.igetLocked ino = .new
  dMakeRoot : ∀ inode, env.dMakeRoot (.inode inode) = .ok (some inode)
  mpageReadpage : ∀ inode page getBlock, 4096 * page < inode.iSize →
    mpageReadpage inode page getBlock = env.sbBread (getBlock inode page)

variable {env : Environment} {mpageReadpage : ReadPage} {k : Kernel} {g : Sizes}
    {files : List NewFile}
  {t : Tool} {dir inode : VfsInode} {n ino made : ℕ} {bytes : ℕ → UInt8}
  {buffer : Buffer} {f : NewFile}

theorem mapM_eq_some {α β : Type} {l : List α} {f : α → Option β} {h : α → β}
    (hf : ∀ a ∈ l, f a = some (h a)) :
    l.mapM f = some (l.map h) := by
  induction l with
  | nil => rfl
  | cons a l ih =>
    rw [List.mapM_cons, hf a List.mem_cons_self, ih fun b hb ↦ hf b (List.mem_cons_of_mem _ hb)]
    rfl

/-- Where a file is no longer than a page, a read gives the start of its page. -/
theorem contents_eq (hsize : inode.iSize ≤ 4096)
    (hpage : 0 < inode.iSize → gfsReadpage mpageReadpage inode 0 = some buffer) :
    inode.contents mpageReadpage = some ((List.range inode.iSize).map buffer) := by
  refine mapM_eq_some fun pos hpos ↦ ?_
  have hlt := List.mem_range.mp hpos
  have hin : pos < pageSize := lt_of_lt_of_le hlt hsize
  rw [Nat.div_eq_of_lt hin, Nat.mod_eq_of_lt hin, hpage (by omega), Option.map_some]

/-- Of a directory of one page no other page is asked for. -/
theorem gfsReaddir_onePage {d : Directory} (hsize : d.iSize = 4096)
    (hpage : d.page 0 = some buffer) (pos : ℕ) :
    gfsReaddir d pos = gfsReaddir (onePage buffer) pos := by
  have hbound : d.bound = (onePage buffer).bound := by
    rw [Directory.bound, Directory.bound, hsize]
    rfl
  simp only [gfsReaddir, hbound]
  by_cases hpos : (onePage buffer).bound < pos
  · rw [if_pos hpos, if_pos hpos]
  · rw [if_neg hpos, if_neg hpos]
    rw [bound_onePage] at hpos
    have hfirst : pos / pageSize = 0 := Nat.div_eq_of_lt (by simp only [pageSize]; omega)
    rw [hfirst, hpage, hsize]
    rfl

theorem lists_onePage {d : Directory} {es : List Entry} (hsize : d.iSize = 4096)
    (hpage : d.page 0 = some buffer) : d.Lists es ↔ (onePage buffer).Lists es := by
  have hcalls : ∀ turns pos, readCalls d turns pos = readCalls (onePage buffer) turns pos := by
    intro turns
    induction turns with
    | zero => exact fun _ ↦ rfl
    | succ turns ih =>
      intro pos
      rw [readCalls, readCalls, gfsReaddir_onePage hsize hpage]
      cases gfsReaddir (onePage buffer) pos with
      | mk entry pos => cases entry <;> simp only [ih]
  simp only [Directory.Lists, hcalls]

section Image

variable (S : Sound g) (L : Laid g) (H : Held g files t) (N : Noted g made files t)
  (D : Serving env mpageReadpage g.blockCount t.bytes)

include S L H D

/-- An inode is read from the block that the tool put it in. -/
theorem gfsIget_image (hino : ino ≤ files.length) (hinfo : k.sFsInfo = some (mySuper g)) : ∃ k',
    (gfsIget env ino).run k = .ok (.inode (readInode ino (inodeAt t.bytes g ino))) k' := by
  have hpre := S.preallocated
  have hsmall := L.small
  have hslots := L.slots
  have hmeta := L.metadata
  have hinodes := H.inodes
  simp only [Sizes.metadata] at hpre
  have htable : 1 + 2 * g.freemapBlocksize < 2 ^ 20 := by omega
  have hplace : 4096 * inodeBlockNumber (mySuper g) ino + inodeBlockOffset (mySuper g) ino =
      4096 * (1 + 2 * g.freemapBlocksize) + 64 * ino := by
    have haddress : 4096 * inodeBlockNumber (mySuper g) ino + inodeBlockOffset (mySuper g) ino =
        inodeAddress g.freemapBlocksize ino :=
      (inodeAddress_eq_iff rfl rfl (by omega)).mpr
      (show (1 + 2 * g.freemapBlocksize) % 2 ^ 32 < 2 ^ 20 by omega)
    exact haddress.trans (congrArg (· + 64 * ino) (address_eq htable))
  have hoffset : inodeBlockOffset (mySuper g) ino < 4096 :=
    Nat.mod_lt _ (show 0 < blockSize by decide)
  have hbread := D.sbBread (inodeBlockNumber (mySuper g) ino) (by omega)
  have hnode : Inode.decode (fun i ↦ t.bytes (4096 * inodeBlockNumber (mySuper g) ino + i))
      (inodeBlockOffset (mySuper g) ino) = inodeAt t.bytes g ino := by
    apply Inode.decode_congr
    intro j _
    rw [← Nat.add_assoc, hplace]
  have hrun := gfsIget_run (D.igetLocked ino) hinfo rfl hbread
  rw [hnode] at hrun
  exact ⟨_, hrun⟩

/-- The partition is mounted, and its root directory is the one that the tool made. -/
theorem gfsFillSuper_image : ∃ k', (gfsFillSuper env).run k = .ok 0 k' ∧
    k'.sRoot = some (readInode 0 (inodeAt t.bytes g 0)) ∧ k'.sFsInfo = some (mySuper g) := by
  have hpos := L.positive
  have hbread := D.sbBread 0 hpos
  have hsuper : SuperBlock.decode (fun i ↦ t.bytes (4096 * 0 + i)) 0 = mySuper g := by
    rw [← H.image.super]
    apply SuperBlock.decode_congr
    intro j _
    exact congrArg t.bytes (by omega)
  have hmount := gfsFillSuper_run_prepared (k := k) D.setBlocksize D.kmalloc hbread
    (by rw [hsuper]; rfl)
  rw [hsuper] at hmount
  obtain ⟨k₁, higet⟩ := gfsIget_image (k := prepared k (mySuper g)) S L H D (Nat.zero_le _) rfl
  have hmake : ∃ events, (makeRoot env 0).run (prepared k (mySuper g)) = .ok 0 _ :=
    makeRoot_run rfl (.of_gfsIget rfl higet) (D.dMakeRoot _)
  obtain ⟨events, hroot⟩ := hmake
  exact ⟨_, hmount.trans hroot, rfl, rfl⟩

include N

omit S L H D in
theorem root_directory : (readInode 0 (inodeAt t.bytes g 0)).type = .directory := by
  have hroot := N.root
  rw [hroot]
  show fileType (le16ToCpu (Inode.decode _ 0).mode) = _
  rw [Inode.decode_encode_mode]
  show fileType (le16ToCpu (0o40755 % 2 ^ 32)) = _
  decide

theorem root_lists :
    ((readInode 0 (inodeAt t.bytes g 0)).directory mpageReadpage).Lists
    (emitted (entries files)) := by
  have hroot := N.root
  have hin := S.inside
  have hsize : (readInode 0 (inodeAt t.bytes g 0)).iSize = 4096 := by
    rw [hroot]
    exact Inode.decode_encode_fileSize
  have htable : 1 ≤ g.inodetableBlocksize := by
    have hslots := L.slots
    omega
  have hblock : (readInode 0 (inodeAt t.bytes g 0)).blocks 0 = g.metadata :=
    (H.image.root htable).blocks 0
  have hpage : ((readInode 0 (inodeAt t.bytes g 0)).directory mpageReadpage).page 0 =
      some fun k ↦ t.bytes (4096 * g.metadata + k) := by
    show mpageReadpage _ 0 gfsGetBlock = _
    rw [D.mpageReadpage _ 0 _ (by rw [hsize]; decide), gfsGetBlock, hblock]
    exact D.sbBread _ (by omega)
  rw [lists_onePage hsize hpage]
  exact lists_emitted H.image.listing H.image.extent

omit S L in
/-- A file is read as the tool filled it. -/
theorem file_contents {i : ℕ} (hi : i < files.length) :
    (readInode (i + 1) (inodeAt t.bytes g (i + 1))).type = .regular ∧
      (readInode (i + 1) (inodeAt t.bytes g (i + 1))).contents mpageReadpage =
        some ((List.range files[i].size).map (letters files[i].size)) := by
  have hnode := N.file i hi
  have hsmall := N.small _ (List.getElem_mem hi)
  obtain ⟨hsize, hdata⟩ := H.keeps hi
  constructor
  · rw [hnode]
    show fileType (le16ToCpu (Inode.decode _ 0).mode) = _
    rw [Inode.decode_encode_mode]
    show fileType (le16ToCpu (0o100755 % 2 ^ 32)) = _
    decide
  · have hiSize : (readInode (i + 1) (inodeAt t.bytes g (i + 1))).iSize = files[i].size := hsize
    have hpage : 0 < (readInode (i + 1) (inodeAt t.bytes g (i + 1))).iSize →
        gfsReadpage mpageReadpage (readInode (i + 1) (inodeAt t.bytes g (i + 1))) 0 =
          some fun j ↦ t.bytes (4096 * (inodeAt t.bytes g (i + 1)).blocks 0 + j) := by
      intro hpos
      have hblock := (H.image.slot i hi).1.blocks 0
      rw [if_pos rfl] at hblock
      have hlt := H.blockNumber_lt hi (hiSize ▸ hpos)
      rw [← hblock] at hlt
      rw [gfsReadpage, D.mpageReadpage _ 0 _ hpos, gfsGetBlock]
      exact D.sbBread _ hlt
    rw [contents_eq (hiSize ▸ hsmall) hpage, hiSize]
    refine congrArg some (List.map_congr_left fun j hj ↦ ?_)
    have hlt := List.mem_range.mp hj
    exact hdata (by omega) j (by omega)

end Image

/-- The driver mounts the partition, lists the files in the order of their creation, and
reads of the inode of each one the bytes that the tool gave it. -/
structure Reads (env : Environment) (mpageReadpage : ReadPage) (k k' : Kernel) (root : VfsInode)
    (files : List NewFile) : Prop where
  mounts : (gfsFillSuper env).run k = .ok 0 k'
  sRoot : k'.sRoot = some root
  type : root.type = .directory
  lists : (root.directory mpageReadpage).Lists (emitted (entries files))
  file : ∀ i (h : i < files.length), ∃ inode k'', (gfsIget env (i + 1)).run k' =
    .ok (.inode inode) k'' ∧ inode.type = .regular ∧
    inode.contents mpageReadpage = some ((List.range files[i].size).map (letters files[i].size))

theorem reads_image (S : Sound g) (L : Laid g) (H : Held g files t) (N : Noted g made files t)
    (D : Serving env mpageReadpage g.blockCount t.bytes) (k : Kernel) :
    ∃ k' root, Reads env mpageReadpage k k' root files := by
  obtain ⟨k', hmount, hroot, hinfo⟩ := gfsFillSuper_image (k := k) S L H D
  refine ⟨k', _, hmount, hroot, root_directory N, root_lists S L H N D, fun i hi ↦ ?_⟩
  obtain ⟨k'', higet⟩ := gfsIget_image S L H D (Nat.succ_le_of_lt hi) hinfo
  exact ⟨_, k'', higet, file_contents H N D hi⟩

def serving (bytes : ℕ → UInt8) : Environment :=
  ⟨none, true, fun n ↦ some fun i ↦ bytes (4096 * n + i), fun _ ↦ .new, makeDentry⟩

def readBlock (bytes : ℕ → UInt8) : ReadPage := fun inode page getBlock ↦
  if 4096 * page < inode.iSize then some fun i ↦ bytes (4096 * getBlock inode page + i) else none

theorem serving_serving (n : ℕ) : Serving (serving bytes) (readBlock bytes) n bytes :=
  ⟨rfl, rfl, fun _ _ ↦ rfl, fun _ ↦ rfl, fun _ ↦ rfl, fun _ _ _ h ↦ if_pos h⟩

end GenericFs.Driver
