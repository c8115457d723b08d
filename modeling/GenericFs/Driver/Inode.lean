import GenericFs.Driver.Kernel

namespace GenericFs.Driver

open GenericFs.Library Store GenericFs.Disktool

abbrev EINVAL : ℕ := 22
abbrev ENOMEM : ℕ := 12

def le16ToCpu (v : ℕ) : ℕ := v % 2 ^ 16

def le32ToCpu (v : ℕ) : ℕ := v

def fileType (mode : ℕ) : FileType :=
  if mode &&& 0o170000 = 0o100000 then .regular
  else if mode &&& 0o170000 = 0o40000 then .directory
  else if mode &&& 0o170000 = 0o120000 then .symlink
  else .special

def inodeBlockNumber (gsb : SuperBlock) (ino : ℕ) : ℕ :=
  let blockNumber := (1 + gsb.inodefreemapBlocks + gsb.blockfreemapBlocks) % 2 ^ 32
  (blockNumber + inodeSize * ino % 2 ^ 64 / gsb.blockSize) % 2 ^ 32

def inodeBlockOffset (gsb : SuperBlock) (ino : ℕ) : ℕ := inodeSize * ino % 2 ^ 64 % gsb.blockSize

def readInode (ino : ℕ) (gin : Inode) : VfsInode where
  iIno := ino
  iMode := le16ToCpu gin.mode
  iUid := le16ToCpu gin.ownerId
  iGid := le16ToCpu gin.groupId
  iNlink := le16ToCpu gin.nlinks
  iSize := le32ToCpu gin.fileSize
  iAtime := le32ToCpu gin.atime
  iMtime := le32ToCpu gin.mtime
  iCtime := le32ToCpu gin.ctime
  iBlocks := le32ToCpu gin.fileSize / 4096 + if le32ToCpu gin.fileSize % 4096 ≠ 0 then 1 else 0
  type := fileType (le16ToCpu gin.mode)
  blocks i := le32ToCpu (gin.blocks i)
  firstIndirect := le32ToCpu gin.firstIndirect
  secondIndirect := le32ToCpu gin.secondIndirect

def gfsIget (env : Environment) (ino : ℕ) : Method InodePointer := do
  match env.igetLocked ino with
  | .null => return .err ENOMEM
  | .old inode => return .inode inode
  | .new =>
    match (← get).sFsInfo with
    | none => throw .undefined
    | some gsb =>
      if gsb.blockSize = 0 then throw .undefined
      match ← sbBread env (inodeBlockNumber gsb ino) with
      | none =>
        printk "GenericFS: can't read inode block!"
        return .err EINVAL
      | some bh =>
        if inodeBlockOffset gsb ino + inodeSize ≤ 4096 then
          return .inode (readInode ino (Inode.decode bh (inodeBlockOffset gsb ino)))
        else throw .undefined

/-- The members of the inode in memory are the words of the one on the disk. -/
structure VfsInode.Holds (inode : VfsInode) (node : Inode) : Prop where
  mode : inode.iMode = node.mode
  ownerId : inode.iUid = node.ownerId
  groupId : inode.iGid = node.groupId
  nlinks : inode.iNlink = node.nlinks
  fileSize : inode.iSize = node.fileSize
  atime : inode.iAtime = node.atime
  mtime : inode.iMtime = node.mtime
  ctime : inode.iCtime = node.ctime
  blocks : ∀ i, inode.blocks i = node.blocks i
  firstIndirect : inode.firstIndirect = node.firstIndirect
  secondIndirect : inode.secondIndirect = node.secondIndirect

/-- The members that `gfs_iget` takes for 16 bits wide have no more. -/
structure Narrow (node : Inode) : Prop where
  mode : node.mode < 2 ^ 16
  ownerId : node.ownerId < 2 ^ 16
  groupId : node.groupId < 2 ^ 16
  nlinks : node.nlinks < 2 ^ 16

def inodeAddress (freemapBlocksize ino : ℕ) : ℕ :=
  address (1 + 2 * freemapBlocksize) + inodeSize * ino

/-- The partition is mounted and its blocks can be read. -/
structure OnImage (env : Environment) (k : Kernel) (bytes : ℕ → UInt8) : Prop where
  sbBread : ∀ n, env.sbBread n = some fun i ↦ bytes (4096 * n + i)
  sFsInfo : k.sFsInfo = some (SuperBlock.decode bytes 0)

/-- The place that `gfs_iget` reads is the one that `create_file` writes, and it returns
what is there. -/
structure ReadsSlot (env : Environment) (k : Kernel) (bytes : ℕ → UInt8) (ino : ℕ) : Prop where
  address : 4096 * inodeBlockNumber (SuperBlock.decode bytes 0) ino +
      inodeBlockOffset (SuperBlock.decode bytes 0) ino =
    inodeAddress (SuperBlock.decode bytes 0).inodefreemapBlocks ino
  holds : ∃ inode k', (gfsIget env ino).run k = .ok (.inode inode) k' ∧ inode.Holds
    (Inode.decode bytes (inodeAddress (SuperBlock.decode bytes 0).inodefreemapBlocks ino))

variable {env : Environment} {k : Kernel} {bytes : ℕ → UInt8} {gsb : SuperBlock}
    {node : Inode} {ino : ℕ}

theorem readInode_holds_iff : (readInode ino node).Holds node ↔ Narrow node := by
  constructor
  · intro h
    have hlt : ∀ v, le16ToCpu v = v → v < 2 ^ 16 := fun v hv ↦ hv ▸ Nat.mod_lt v (by decide)
    exact ⟨hlt _ h.mode, hlt _ h.ownerId, hlt _ h.groupId, hlt _ h.nlinks⟩
  · intro h
    exact ⟨Nat.mod_eq_of_lt h.mode, Nat.mod_eq_of_lt h.ownerId, Nat.mod_eq_of_lt h.groupId,
      Nat.mod_eq_of_lt h.nlinks, rfl, rfl, rfl, rfl, fun _ ↦ rfl, rfl, rfl⟩

theorem gfsIget_run (hnew : env.igetLocked ino = .new) (hinfo : k.sFsInfo = some gsb)
    (hsize : gsb.blockSize = 4096) {bh : Buffer}
    (hbh : env.sbBread (inodeBlockNumber gsb ino) = some bh) :
    (gfsIget env ino).run k =
    .ok (.inode (readInode ino (Inode.decode bh (inodeBlockOffset gsb ino))))
      { k with events := k.events ++ [.acquired (.buffer (inodeBlockNumber gsb ino))] } := by
  have hne : gsb.blockSize ≠ 0 := by omega
  have hoffset : inodeBlockOffset gsb ino + inodeSize ≤ 4096 := by
    rw [inodeBlockOffset, hsize]
    simp only [inodeSize]
    omega
  simp only [gfsIget, hnew, EStateM.run_bind, EStateM.run_get, hinfo, hne, ↓reduceIte, sbBread, hbh,
    acquire, EStateM.run_modify, EStateM.run_pure, hoffset]

/-- The two programs find an inode in the same place as long as the inode table begins in
the first `2 ^ 20` blocks. -/
theorem inodeAddress_eq_iff (hsize : gsb.blockSize = 4096)
    (hmaps : gsb.blockfreemapBlocks = gsb.inodefreemapBlocks) (hino : ino < 2 ^ 32) :
    4096 * inodeBlockNumber gsb ino + inodeBlockOffset gsb ino =
      inodeAddress gsb.inodefreemapBlocks ino ↔
      (1 + 2 * gsb.inodefreemapBlocks) % 2 ^ 32 < 2 ^ 20 := by
  simp only [inodeBlockNumber, inodeBlockOffset, inodeAddress, address, inodeSize,
    blockSize, hsize, hmaps]
  omega

section Image

variable (O : OnImage env k bytes) (hnew : env.igetLocked ino = .new)
  (hsize : (SuperBlock.decode bytes 0).blockSize = 4096)

include O hnew hsize

theorem OnImage.gfsIget : (gfsIget env ino).run k =
    .ok (.inode (readInode ino (Inode.decode bytes
      (4096 * inodeBlockNumber (SuperBlock.decode bytes 0) ino +
        inodeBlockOffset (SuperBlock.decode bytes 0) ino))))
      { k with
        events := k.events ++
        [.acquired (.buffer (inodeBlockNumber (SuperBlock.decode bytes 0) ino))] } := by
  rw [gfsIget_run hnew O.sFsInfo hsize (O.sbBread _)]
  congr 3
  apply Inode.decode_congr
  intro j _
  rw [Nat.add_assoc]

theorem ReadsSlot.narrow (R : ReadsSlot env k bytes ino) :
    Narrow (Inode.decode bytes
      (inodeAddress (SuperBlock.decode bytes 0).inodefreemapBlocks ino)) := by
  obtain ⟨inode, k', hrun, hholds⟩ := R.holds
  rw [O.gfsIget hnew hsize, R.address] at hrun
  cases hrun
  exact readInode_holds_iff.mp hholds

/-- An inode is read as it is on the disk just when its mode, owner, group and link count
have 16 bits. -/
theorem readsSlot_iff (hmaps : (SuperBlock.decode bytes 0).blockfreemapBlocks =
      (SuperBlock.decode bytes 0).inodefreemapBlocks)
    (hino : ino < (SuperBlock.decode bytes 0).totalBlocks) : ReadsSlot env k bytes ino ↔
      (1 + 2 * (SuperBlock.decode bytes 0).inodefreemapBlocks) % 2 ^ 32 < 2 ^ 20 ∧
      Narrow (Inode.decode bytes
        (inodeAddress (SuperBlock.decode bytes 0).inodefreemapBlocks ino)) := by
  have haddress := inodeAddress_eq_iff hsize hmaps (hino.trans (word_lt 4 bytes 8))
  constructor
  · intro R
    exact ⟨haddress.mp R.address, R.narrow O hnew hsize⟩
  · rintro ⟨htable, hnarrow⟩
    have hslot := haddress.mpr htable
    refine ⟨hslot, _, _, O.gfsIget hnew hsize, ?_⟩
    rw [hslot]
    exact readInode_holds_iff.mpr hnarrow

end Image

section Owner

/-- A partition of five blocks with maps of one block each. The owner of the first inode is
the number 65536 times a factor, and the rest of the inode table is zero. -/
def oneInode (factor : UInt8) : ℕ → UInt8 := fun n ↦
  if n < 24 then
    [0xEF, 0xBE, 0xAD, 0xDE, 0, 16, 0, 0, 5, 0, 0, 0, 1, 0, 0, 0, 1, 0, 0, 0, 1, 0, 0, 0].getD n 0
  else if n = 12294 then factor else 0

/-- A dentry is made of any pointer that is not null, and the inode is looked at. -/
def makeDentry : InodePointer → Except Oops (Option Dentry)
  | .err _ => .error .undefined
  | .inode i => .ok (some i)

def onlyImage (bytes : ℕ → UInt8) : Environment × Kernel :=
  (⟨none, true, fun n ↦ some fun i ↦ bytes (4096 * n + i), fun _ ↦ .new, makeDentry⟩,
    ⟨0, true, 0, 4096, 12, some (SuperBlock.decode bytes 0), none, [], []⟩)

theorem onImage_onlyImage : OnImage (onlyImage bytes).1 (onlyImage bytes).2 bytes :=
  ⟨fun _ ↦ rfl, rfl⟩

/-- The inode of a file of 70000 bytes, whose last blocks are behind an indirect one. -/
def longFile : Inode where
  nlinks := 1
  ownerId := 1000
  groupId := 100
  mode := 0o100644
  fileSize := 70000
  atime := 1000000000
  mtime := 1000000001
  ctime := 1000000002
  blocks i := 5 + i
  firstIndirect := 9
  secondIndirect := 0
  unused _ := 0

def withLongFile : ℕ → UInt8 := Store.splice (oneInode 0) (12288 + 128) 64 longFile.encode

theorem readsSlot_iff_longFile :
    (Inode.decode withLongFile
    (inodeAddress (SuperBlock.decode withLongFile 0).inodefreemapBlocks 2)).fileSize =
      70000 ∧ ReadsSlot (onlyImage withLongFile).1 (onlyImage withLongFile).2 withLongFile 2 :=
  ⟨by decide, (readsSlot_iff onImage_onlyImage rfl (by decide) (by decide) (by decide)).mpr
    ⟨by decide, by decide, by decide, by decide, by decide⟩⟩

/-- The owner 65536 becomes the owner 0. -/
theorem not_readsSlot : ¬∀ (env : Environment) (k : Kernel) (bytes : ℕ → UInt8) (ino : ℕ),
    OnImage env k bytes → env.igetLocked ino = .new → (SuperBlock.decode bytes 0).blockSize = 4096 →
    (SuperBlock.decode bytes 0).blockfreemapBlocks =
    (SuperBlock.decode bytes 0).inodefreemapBlocks →
    ino < (SuperBlock.decode bytes 0).totalBlocks → ReadsSlot env k bytes ino := by
  intro hclaim
  have hreads := hclaim _ _ (oneInode 1) 0 onImage_onlyImage rfl (by decide) (by decide) (by decide)
  have howner := (hreads.narrow onImage_onlyImage rfl (by decide)).ownerId
  exact absurd howner (by decide)

end Owner

end GenericFs.Driver
