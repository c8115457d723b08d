import GenericFs.Disktool.Partition
import GenericFs.Library.Returning

namespace GenericFs.Disktool

open Function GenericFs.Library Store Bitmap Returning

/-- The counters are an array of `block_count` words. -/
abbrev Counters := ℕ → ℕ

variable (g : Sizes)

def increment (blockCounters : Counters) (block : ℕ) : Action Counters :=
  if block < g.blockCount then
    return update blockCounters block ((blockCounters block + 1) % 2 ^ 32)
  else throw .undefined

def preallocate : ℕ → ℕ → Counters → Action Counters
  | 0, _, blockCounters => return blockCounters
  | turns + 1, i, blockCounters =>
    if i < g.blockCount then preallocate turns (i + 1) (update blockCounters i 1)
    else throw .undefined

def initializeCounters : Action Counters :=
  preallocate g ((1 + 2 * g.freemapBlocksize + g.inodetableBlocksize) % 2 ^ 32) 0 fun _ ↦ 0

def forEntries (workspace : Workspace) (body : ℕ → Counters → Action Counters) :
    ℕ → ℕ → Counters → Action Counters
  | 0, _, blockCounters => return blockCounters
  | turns + 1, i, blockCounters => do
    let blockNumber ← loadWord workspace (4 * i)
    if blockNumber = 0 then return blockCounters
    let blockCounters ← body blockNumber blockCounters
    forEntries workspace body turns (i + 1) blockCounters

def findFirstIndirectionBlocks (firstIndirect : ℕ) (blockCounters : Counters) :
    Action Counters := do
  let blockCounters ← increment g blockCounters firstIndirect
  lseek (address firstIndirect)
  let workspace ← read (fun _ ↦ 0) blockSize
  forEntries workspace (fun block blockCounters ↦ increment g blockCounters block) (blockSize / 4) 0
    blockCounters

def findSecondIndirectionBlocks (secondIndirect : ℕ) (blockCounters : Counters) :
    Action Counters := do
  let blockCounters ← increment g blockCounters secondIndirect
  lseek (address secondIndirect)
  let workspace ← read (fun _ ↦ 0) blockSize
  forEntries workspace (findFirstIndirectionBlocks g) (blockSize / 4) 0 blockCounters

def findDirectBlocks (currentInode : Inode) : List (Fin 4) → Counters → Action Counters
  | [], blockCounters => return blockCounters
  | i :: is, blockCounters => do
    let blockCounters ← (if currentInode.blocks i ≠ 0 then
      increment g blockCounters (currentInode.blocks i) else return blockCounters)
    findDirectBlocks currentInode is blockCounters

def findInodeBlocks (inodeNumber : ℕ) (blockCounters : Counters) : Action Counters := do
  let relativeBlock := inodeNumber / 64
  let inodeOffset := inodeNumber % 64
  lseek (address (1 + 2 * g.freemapBlocksize + relativeBlock))
  let workspace ← read (fun _ ↦ 0) blockSize
  let currentInode := Inode.decode workspace (64 * inodeOffset)
  let blockCounters ← findDirectBlocks g currentInode (List.finRange 4) blockCounters
  let blockCounters ← (if currentInode.firstIndirect ≠ 0 then
    findFirstIndirectionBlocks g currentInode.firstIndirect blockCounters else return blockCounters)
  if currentInode.secondIndirect ≠ 0 then
    findSecondIndirectionBlocks g currentInode.secondIndirect blockCounters
  else return blockCounters

def scanInodes (blockCounters : Counters) : Action Counters :=
  forBlocks g.blockCount
    (fun inodeNumber allocated blockCounters ↦ do
      if allocated then
        print (.inode inodeNumber)
        findInodeBlocks g inodeNumber blockCounters
      else return blockCounters)
    blockSize
    (fun blockIndex ↦ do
      lseek (address (1 + blockIndex))
      read (fun _ ↦ 0) blockSize)
    g.freemapBlocksize 0 0 blockCounters

def checkCounters (blockCounters : Counters) : ℕ → ℕ → Action Unit
  | 0, _ => return ()
  | turns + 1, i => do
    if blockCounters i ≠ 0 ∧ blockCounters i ≠ 1 then
      print (.usedMultipleTimes i (blockCounters i))
    checkCounters blockCounters turns (i + 1)

def checkBlockFreemap (blockCounters : Counters) : Action Unit := do
  lseek (address (1 + g.freemapBlocksize))
  forBlocks g.blockCount
    (fun blockNumber allocated _ ↦ do
      if allocated then
        if blockCounters blockNumber ≠ 1 then print (.allocatedNotUsed blockNumber)
      else
        if blockCounters blockNumber ≠ 0 then print (.unallocatedInUse blockNumber))
    blockSize (fun _ ↦ read (fun _ ↦ 0) blockSize) g.freemapBlocksize 0 0 ()

/-- `allocated` tells whether `malloc` finds the memory for the counters. -/
def verifyFileSystem (allocated : Bool) : Action Unit := do
  clear
  if allocated then
    let blockCounters ← initializeCounters g
    let blockCounters ← scanInodes g blockCounters
    checkCounters blockCounters g.blockCount 0
    checkBlockFreemap g blockCounters
  else print .noMemory

end GenericFs.Disktool
