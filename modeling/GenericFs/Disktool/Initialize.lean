import GenericFs.Disktool.Freemap

namespace GenericFs.Disktool

open Function GenericFs.Library Store Bitmap

abbrev unusedSpace : UInt8 := 0x55

def writeBlocks (workspace : Workspace) : ℕ → Action Unit
  | 0 => return ()
  | turns + 1 => do
    write workspace blockSize
    writeBlocks workspace turns

def clearPartition (g : Sizes) : Action Unit := do
  lseek 0
  let workspace := memset (fun _ ↦ 0) unusedSpace blockSize
  -- the counter of the loop is an `int`, and is counted up behind the last block too
  if 2 ^ 31 ≤ g.blockCount then throw .undefined
  writeBlocks workspace g.blockCount

def markLeftovers (byte : ℕ) : ℕ → ℕ → Workspace → Action Workspace
  | 0, _, workspace => return workspace
  | leftovers + 1, mask, workspace => do
    let b ← loadByte workspace byte
    let workspace ← storeByte workspace byte (b ||| UInt8.ofNat mask)
    markLeftovers byte leftovers (mask <<< 1) workspace

def writeFreemaps (g : Sizes) : Action Unit := do
  lseek (1 * blockSize)
  let workspace := memset (fun _ ↦ 0) 0 blockSize
  let b ← loadByte workspace 0
  let workspace ← storeByte workspace 0 (b ||| 0x01)
  write workspace blockSize
  let workspace := memset workspace 0 blockSize
  writeBlocks workspace ((g.freemapBlocksize + 2 ^ 32 - 1) % 2 ^ 32)
  let totalPreallocated := (1 + 2 * g.freemapBlocksize + g.inodetableBlocksize + 1) % 2 ^ 32
  if blockSize * 8 < totalPreallocated then throw .exited
  let workspace := memset workspace 0xFF (totalPreallocated / 8)
  let workspace ← markLeftovers (totalPreallocated / 8) (totalPreallocated % 8) 0x01 workspace
  write workspace blockSize
  let workspace := memset workspace 0 blockSize
  writeBlocks workspace ((g.freemapBlocksize + 2 ^ 32 - 1) % 2 ^ 32)

def rootNode (g : Sizes) (now : ℕ) : Inode where
  nlinks := 2
  ownerId := 0
  groupId := 0
  mode := 0o40755
  fileSize := blockSize
  atime := now
  mtime := now
  ctime := now
  blocks i := if i = 0 then 1 + 2 * g.freemapBlocksize + g.inodetableBlocksize else 0
  firstIndirect := 0
  secondIndirect := 0
  unused _ := 0

def createRoot (g : Sizes) (now : ℕ) : Action Unit := do
  let workspace := memset (fun _ ↦ 0) unusedSpace blockSize
  let workspace := splice workspace 0 inodeSize (rootNode g now).encode
  lseek (address (1 + 2 * g.freemapBlocksize))
  write workspace blockSize
  let workspace := memset workspace unusedSpace blockSize
  let workspace ← storeWord workspace 0 10
  let workspace ← storeWord workspace 4 0
  let workspace ← storeByte workspace 8 1
  let workspace ← storeByte workspace 9 0x2E
  let workspace ← storeWord workspace 10 0
  let workspace ← storeWord workspace 14 0
  let workspace ← storeByte workspace 18 2
  let workspace ← storeByte workspace 19 0x2E
  let workspace ← storeByte workspace 20 0x2E
  lseek (address (1 + 2 * g.freemapBlocksize + g.inodetableBlocksize))
  write workspace blockSize

def mySuper (g : Sizes) : SuperBlock where
  magicNumber := 0xDEADBEEF
  blockSize := blockSize
  totalBlocks := g.blockCount
  inodefreemapBlocks := g.freemapBlocksize
  blockfreemapBlocks := g.freemapBlocksize
  inodetableBlocks := g.inodetableBlocksize

def writeSuper (g : Sizes) : Action Unit := do
  let workspace := memset (fun _ ↦ 0) unusedSpace blockSize
  let workspace := splice workspace 0 24 (mySuper g).encode
  lseek 0
  write workspace blockSize

def initializePartition (g : Sizes) (now : ℕ) : Action Unit := do
  clearPartition g
  writeFreemaps g
  createRoot g now
  writeSuper g

end GenericFs.Disktool
