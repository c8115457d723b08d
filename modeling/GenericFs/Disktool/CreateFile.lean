import GenericFs.Disktool.Initialize

namespace GenericFs.Disktool

open Function GenericFs.Library Store Bitmap

/-- The inputs of `create_file`: the name that is typed in, without its NUL,
the size, and the time of the call. -/
structure NewFile where
  name : List UInt8
  size : ℕ
  now : ℕ

/-- A walk along a list inside a block that makes more steps than the block
has bytes goes round for ever. -/
abbrev loopBound : ℕ := blockSize + 1

def lastEntry (workspace : Workspace) : ℕ → ℕ → Action ℕ
  | 0, _ => throw .endless
  | turns + 1, parentBlock => do
    let next ← loadWord workspace parentBlock
    if next ≠ 0 then lastEntry workspace turns next else return parentBlock

def fillData : ℕ → ℕ → UInt8 → Workspace → Workspace
  | 0, _, _, workspace => workspace
  | turns + 1, i, data, workspace =>
    fillData turns (i + 1) (if 0x5A < data + 1 then 0x41 else data + 1) (update workspace i data)

def currentNode (f : NewFile) (currentBlock : ℕ) : Inode where
  nlinks := 1
  ownerId := 0
  groupId := 0
  mode := 0o100755
  fileSize := f.size
  atime := f.now
  mtime := f.now
  ctime := f.now
  blocks i := if i = 0 then currentBlock else 0
  firstIndirect := 0
  secondIndirect := 0
  unused _ := 0

def createFile (g : Sizes) (f : NewFile) : Action Unit := do
  if 4096 < f.size then return ()
  lseek (address (1 + 2 * g.freemapBlocksize) + inodeSize * 0)
  let workspace ← read (fun _ ↦ 0) inodeSize
  let pblock := (Inode.decode workspace 0).blocks 0
  lseek (address pblock)
  let workspace ← read workspace blockSize
  let parentBlock ← lastEntry workspace loopBound 0
  let offset := parentBlock + 4 + 4
  let length ← loadByte workspace offset
  let offset := offset + (length.toNat + 1)
  let workspace ← storeWord workspace parentBlock offset
  let workspace ← storeWord workspace offset 0
  let currentInode ← allocateInode g
  let workspace ← storeWord workspace (offset + 4) currentInode
  let workspace ← storeByte workspace (offset + 8) (UInt8.ofNat f.name.length)
  let workspace ← storeBytes workspace (offset + 9) f.name
  lseek (address pblock)
  write workspace blockSize
  let currentBlock ← (if 0 < f.size then allocateBlock g else return 0)
  let workspace := splice workspace 0 inodeSize (currentNode f currentBlock).encode
  lseek (address (1 + 2 * g.freemapBlocksize) + inodeSize * currentInode)
  write workspace inodeSize
  if 0 < f.size then
    let workspace := fillData f.size 0 0x41 (memset workspace 0 blockSize)
    lseek (address currentBlock)
    write workspace blockSize

structure Row where
  offset : ℕ
  next : ℕ
  inode : ℕ
  name : List UInt8
  deriving DecidableEq

/-- The loop over the characters of a name; its bound is a signed `char`. -/
def showName (workspace : Workspace) (off : ℕ) (size : UInt8) : Action (List UInt8) :=
  if 128 ≤ size.toNat ∨ size = 0 then return []
  else if off + size.toNat ≤ blockSize then return slice workspace off size.toNat
  else throw .undefined

def showRows (workspace : Workspace) : ℕ → ℕ → Action (List Row)
  | 0, _ => throw .endless
  | turns + 1, rootBlock => do
    let next ← loadWord workspace rootBlock
    let inode ← loadWord workspace (rootBlock + 4)
    let size ← loadByte workspace (rootBlock + 8)
    let name ← showName workspace (rootBlock + 9) size
    let row := { offset := rootBlock, next, inode, name }
    if next = 0 then return [row]
    else
      let rows ← showRows workspace turns next
      return row :: rows

def showRootDir : Action (List Row) := do
  lseek 0
  let workspace ← read (fun _ ↦ 0) blockSize
  let mySuper := SuperBlock.decode workspace 0
  lseek (address (1 + 2 * mySuper.blockfreemapBlocks + mySuper.inodetableBlocks))
  let workspace ← read workspace blockSize
  showRows workspace loopBound 0

end GenericFs.Disktool
