import GenericFs.Disktool.Partition

namespace GenericFs.Driver

open GenericFs.Disktool

/-- What the language does not define: the overflow of an `int`, a division by zero,
an access through a pointer to nothing. -/
inductive Oops
  | undefined
  deriving DecidableEq

/-- The block of 4096 bytes that a buffer head has. -/
abbrev Buffer := ℕ → UInt8

/-- What the driver takes from the kernel and has to give back. -/
inductive Resource
  | module
  | supplementary
  | buffer (block : ℕ)
  deriving DecidableEq

inductive Event
  | acquired (r : Resource)
  | released (r : Resource)
  deriving DecidableEq

/-- The types of files that `gfs_iget` tells apart, each with its own operations. -/
inductive FileType
  | regular
  | directory
  | symlink
  | special
  deriving DecidableEq

/-- An inode in memory with the fields of `gfs_inode_info`. -/
structure VfsInode where
  iIno : ℕ
  iMode : ℕ
  iUid : ℕ
  iGid : ℕ
  iNlink : ℕ
  iSize : ℕ
  iAtime : ℕ
  iMtime : ℕ
  iCtime : ℕ
  iBlocks : ℕ
  type : FileType
  blocks : Fin 4 → ℕ
  firstIndirect : ℕ
  secondIndirect : ℕ

/-- A pointer to an inode, or one that is an error number. -/
inductive InodePointer
  | err (e : ℕ)
  | inode (i : VfsInode)

/-- What `iget_locked` finds: no memory, an inode that was read before, or a new one. -/
inductive Locked
  | null
  | old (i : VfsInode)
  | new

abbrev Dentry := VfsInode

/-- How the functions of the kernel end that the driver calls. -/
structure Environment where
  setBlocksize : Option ℕ+
  kmalloc : Bool
  sbBread : ℕ → Option Buffer
  igetLocked : ℕ → Locked
  dMakeRoot : InodePointer → Except Oops (Option Dentry)

/-- The super block object `sb`, what was acquired and released, and the log. -/
structure Kernel where
  sDev : ℕ
  sOp : Bool
  sMagic : ℕ
  sBlocksize : ℕ
  sBlocksizeBits : ℕ
  sFsInfo : Option SuperBlock
  sRoot : Option Dentry
  events : List Event
  log : List String

abbrev Method := EStateM Oops Kernel

def printk (message : String) : Method Unit := modify fun k ↦ { k with log := k.log ++ [message] }

def acquire (r : Resource) : Method Unit :=
  modify fun k ↦ { k with events := k.events ++ [.acquired r] }

def release (r : Resource) : Method Unit :=
  modify fun k ↦ { k with events := k.events ++ [.released r] }

def sbBread (env : Environment) (block : ℕ) : Method (Option Buffer) := do
  match env.sbBread block with
  | none => return none
  | some bh =>
    acquire (.buffer block)
    return some bh

end GenericFs.Driver
