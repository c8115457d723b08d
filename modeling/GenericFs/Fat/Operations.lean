import GenericFs.Fat.FileSystem

namespace GenericFs.Fat

open GenericFs.Library Function

/-- A member function acts on the object and returns a value or a fault. After
an exception the object is as the function left it. -/
abbrev Member := EStateM Fault FileSystem

def fatGet (b : ℕ) : Member ℕ := do
  match (← get).fat.entry b with
  | some v => pure v
  | none => throw .undefined

def fatSet (b v : ℕ) : Member Unit := do
  if b < fatSize then modify fun fs ↦ fs.setFat b v else throw .undefined

def diskRead (b : ℕ) : Member Block := do
  match (← get).theDisk.read b with
  | .ok buffer => pure buffer
  | .error e => throw e

def diskWrite (b : ℕ) (buffer : Block) : Member Unit := do
  match (← get).theDisk.write b buffer with
  | .ok disk => modify fun fs ↦ { fs with theDisk := disk }
  | .error e => throw e

def bufferGet (buffer : Block) (k : ℤ) : Member UInt8 :=
  if h : 0 ≤ k ∧ k < blockSize then pure (buffer ⟨k.toNat, (Int.toNat_lt h.1).mpr h.2⟩)
  else throw .undefined

def bufferSet (buffer : Block) (k : ℤ) (b : UInt8) : Member Block :=
  if h : 0 ≤ k ∧ k < blockSize then
    pure (update buffer ⟨k.toNat, (Int.toNat_lt h.1).mpr h.2⟩ b)
  else throw .undefined

def setHandle (h : Fin handleTableSize) (e : HandleTableEntry) : Member Unit :=
  modify fun fs ↦ fs.withHandle h e

def setEntry (i : Fin dirSize) (e : DirectoryEntry) : Member Unit :=
  modify fun fs ↦ fs.withEntry i e

/-- An upper bound for the turns of a loop that follows FAT entries, also when
it clears them on its way. A loop that takes more turns never ends. -/
abbrev loopBound : ℕ := 2 * fatSize

def checksum (buffer : ℕ → UInt8) (n : ℕ) : UInt8 :=
  (List.range n).foldl (fun sum i ↦ sum + buffer i) 0

namespace FileSystem

def flush : Member Unit := do
  let fs ← get
  if fs.formattedFlag then
    diskWrite fatBlock (encodeFat fs.fat)
    diskWrite rootBlock (encodeDirectory fs.rootDirectory)

/-- The constructor. `raw` is what the memory of the object holds before; only
some of it is initialised. -/
def construct {n : ℕ} (disk : BlockDevice n) (raw : FileSystem) : Except Fault FileSystem :=
  if h : n = blockSize then
    let disk : BlockDevice blockSize := h ▸ disk
    if disk.blockCount < 4 then
      .error (.thrown "Can't manage a file system on this disk. Not enough blocks!")
    else do
      let buffer ← disk.read bootBlock
      let formattedFlag := buffer.cells 0 = formatted ∧ checksum buffer.cells blockSize = 0
      let handleTable := fun h ↦ { raw.handleTable h with inUse := false }
      if formattedFlag then do
        let fat ← disk.read fatBlock
        let root ← disk.read rootBlock
        pure { fat := decodeFat fat, rootDirectory := decodeDirectory root, handleTable,
               scanIndex := raw.scanIndex, theDisk := disk, formattedFlag := true }
      else
        pure { raw with handleTable, theDisk := disk, formattedFlag := false }
  else .error (.thrown "Can't manage a file system on this disk. The block size is wrong!")

def bootImage : Block :=
  let buffer : Block := fun k ↦ if k.val = 0 then formatted else 0
  update buffer ⟨blockSize - 1, by decide⟩ (-checksum buffer.cells (blockSize - 1))

def emptyFat : FatTable :=
  fun j ↦ if j.val = bootBlock ∨ j.val = fatBlock ∨ j.val = rootBlock then reservedFatEntry
    else freeFatEntry

def emptyDirectory : Directory :=
  fun _ ↦ { name := fun _ ↦ 0, size := 0, startingBlock := 0, inUse := 0, pad := 0 }

def format : Member Unit := do
  diskWrite bootBlock bootImage
  modify fun fs ↦
    { fs with fat := emptyFat, rootDirectory := emptyDirectory, formattedFlag := true }

def close (handle : ℤ) : Member Unit := do
  let fs ← get
  if fs.formattedFlag = false then
    throw (.thrown "Attempted to close a file on an unformatted file system.")
  else if handleTableSize ≤ handle then
    throw (.thrown "Invalid handle used during close(). Handle out of range.")
  else if handle < 0 then throw .undefined
  else if hlt : handle.toNat < handleTableSize then
    let h : Fin handleTableSize := ⟨handle.toNat, hlt⟩
    if (fs.handleTable h).inUse = false then
      throw (.thrown "Invalid handle used during close(). Handle not open.")
    else setHandle h { fs.handleTable h with inUse := false }
  else throw .undefined

def freeCount (fat : FatTable) : ℕ := (Finset.univ.filter fun j ↦ fat j = freeFatEntry).card

def freeSpace : Member ℤ := do
  let fs ← get
  if fs.formattedFlag = false then
    throw (.thrown "Attempted to ask for free space on an unformatted file system.")
  else pure (freeCount fs.fat * blockSize)

/-- The loop of `read`: `n` bytes still to get, the block buffer, the offset
into it and the number of bytes left in it. -/
def readLoop (h : Fin handleTableSize) : ℕ → Block → ℤ → ℤ → Member (List UInt8)
  | 0, _, _, _ => pure []
  | n + 1, blockBuffer, blockOffset, blockCount => do
    let b ← bufferGet blockBuffer blockOffset
    let e := (← get).handleTable h
    setHandle h { e with offset := e.offset + 1 }
    if blockCount - 1 = 0 then
      let next ← fatGet e.currentBlock
      setHandle h { (← get).handleTable h with currentBlock := next }
      let blockBuffer ← diskRead next
      return b :: (← readLoop h n blockBuffer 0 blockSize)
    else
      return b :: (← readLoop h n blockBuffer (blockOffset + 1) (blockCount - 1))

def read (handle : ℤ) (count : ℤ) : Member (ℤ × List UInt8) := do
  if hh : 0 ≤ handle ∧ handle < handleTableSize then
    let fs ← get
    let h : Fin handleTableSize := ⟨handle.toNat, (Int.toNat_lt hh.1).mpr hh.2⟩
    let e := fs.handleTable h
    if e.inUse = false ∨ e.mode ≠ .READ then
      throw (.thrown "FileSystem::read() -- Handle not opened for reading")
    else
      let fileSize := (fs.rootDirectory e.directoryIndex).size
      let count := if fileSize - e.offset < count then fileSize - e.offset else count
      if count = 0 then return (0, [])
      else
        let blockOffset := e.offset.tmod blockSize
        let blockBuffer ← diskRead e.currentBlock
        let bytes ← readLoop h count.toNat blockBuffer blockOffset (blockSize - blockOffset)
        return (count, bytes)
  else throw (.thrown "FileSystem::read() -- Invalid handle")

/-- What `write` does with a full block: it goes to disk, and the first free
block is hung behind it and becomes the block of the handle. -/
def nextBlock (h : Fin handleTableSize) (blockBuffer : Block) : Member Unit := do
  let e := (← get).handleTable h
  diskWrite e.currentBlock blockBuffer
  match (← get).fat.firstFree with
  | none => throw (.thrown "FileSystem::write() -- Can't locate a free block, but one expected")
  | some j =>
    fatSet e.currentBlock j
    fatSet j eofFatEntry
    setHandle h { e with currentBlock := j }

/-- The loop of `write`: `n` bytes still to put, the bytes of the caller's
buffer, and the block buffer as in `readLoop`. It returns the block buffer. -/
def writeLoop (h : Fin handleTableSize) : ℕ → List UInt8 → Block → ℤ → ℤ → Member Block
  | 0, _, blockBuffer, _, _ => pure blockBuffer
  | _ + 1, [], _, _, _ => throw .undefined
  | n + 1, b :: buffer, blockBuffer, blockOffset, blockCount => do
    let blockBuffer ← bufferSet blockBuffer blockOffset b
    let e := (← get).handleTable h
    setHandle h { e with offset := e.offset + 1 }
    let d := (← get).rootDirectory e.directoryIndex
    setEntry e.directoryIndex { d with size := d.size + 1 }
    if blockCount - 1 = 0 then
      nextBlock h blockBuffer
      writeLoop h n buffer blockBuffer 0 blockSize
    else writeLoop h n buffer blockBuffer (blockOffset + 1) (blockCount - 1)

def write (handle : ℤ) (buffer : List UInt8) (count : ℤ) : Member ℤ := do
  if hh : 0 ≤ handle ∧ handle < handleTableSize then
    let fs ← get
    let h : Fin handleTableSize := ⟨handle.toNat, (Int.toNat_lt hh.1).mpr hh.2⟩
    let e := fs.handleTable h
    if e.inUse = false ∨ e.mode ≠ .WRITE then
      throw (.thrown "FileSystem::write() -- Handle not opened for writing")
    else
      let fileSize := (fs.rootDirectory e.directoryIndex).size
      let slackSpace := blockSize - fileSize.tmod blockSize
      let openSpace := (← freeSpace) + slackSpace - 1
      let count := if openSpace < count then openSpace else count
      if count = 0 then return 0
      else
        let blockOffset := e.offset.tmod blockSize
        let blockBuffer ← diskRead e.currentBlock
        let blockBuffer ←
          writeLoop h count.toNat buffer blockBuffer blockOffset (blockSize - blockOffset)
        diskWrite ((← get).handleTable h).currentBlock blockBuffer
        return count
  else throw (.thrown "FileSystem::write() -- Invalid handle")

/-- The search for a name that `open`, `truncate` and `remove` share: the first
entry in use whose name compares equal. -/
def findName (d : Directory) (name : CString) :
    List (Fin dirSize) → Except Fault (Option (Fin dirSize))
  | [] => .ok none
  | i :: is =>
    if (d i).inUse = 0 then findName d name is
    else
      match d.strcmp (32 * i) name.bytes with
      | none => .error .undefined
      | some true => .ok (some i)
      | some false => findName d name is

def findEntry (name : CString) : Member (Option (Fin dirSize)) := do
  match findName (← get).rootDirectory name (List.finRange dirSize) with
  | .ok i => pure i
  | .error e => throw e

def lastBlock : ℕ → ℕ → Member ℕ
  | 0, _ => throw .endless
  | fuel + 1, current => do
    let next ← fatGet current
    if next = eofFatEntry then return current else lastBlock fuel next

def createFile (handle : Fin handleTableSize) (name : CString) (mode : OpenMode) : Member Unit := do
  let fs ← get
  match Fin.find? fun i ↦ (fs.rootDirectory i).inUse = 0 with
  | none =>
    throw (.thrown "FileSystem::open() -- Unable to create file. No space in root directory")
  | some dirIndex =>
    match fs.fat.firstFree with
    | none =>
      throw (.thrown "FileSystem::open() -- Unable to create file. Not enough disk space")
    | some fatIndex =>
      fatSet fatIndex eofFatEntry
      setEntry dirIndex
        { fs.rootDirectory dirIndex with inUse := 1, startingBlock := fatIndex, size := 0 }
      match (← get).rootDirectory.strcpy (32 * dirIndex) name.bytes with
      | none => throw .undefined
      | some d => modify fun fs ↦ { fs with rootDirectory := d }
      setHandle handle
        { offset := 0, directoryIndex := dirIndex, currentBlock := fatIndex, inUse := true, mode }

def openEntry (handle : Fin handleTableSize) (dirIndex : Fin dirSize) (mode : OpenMode) :
    Member Unit := do
  let fs ← get
  let d := fs.rootDirectory dirIndex
  match mode with
  | .READ =>
    setHandle handle
      { offset := 0, directoryIndex := dirIndex, currentBlock := d.startingBlock, inUse := true,
        mode := .READ }
  | .WRITE =>
    setHandle handle
      { fs.handleTable handle with
        offset := d.size, directoryIndex := dirIndex, inUse := true, mode := .WRITE }
    let current ← lastBlock loopBound d.startingBlock
    setHandle handle { (← get).handleTable handle with currentBlock := current }

def «open» (name : CString) (mode : OpenMode) : Member ℤ := do
  let fs ← get
  match Fin.find? fun h ↦ (fs.handleTable h).inUse = false with
  | none => throw (.thrown "FileSystem::open() -- Out of available handles")
  | some handle =>
    match ← findEntry name with
    | none =>
      if mode = .READ then throw (.thrown "FileSystem::open() -- File does not exist")
      else createFile handle name mode
    | some dirIndex => openEntry handle dirIndex mode
    return handle

/-- The loop of `truncate` and `remove` that marks the blocks of a chain free,
the last one included. -/
def freeChain : ℕ → ℕ → Member Unit
  | 0, _ => throw .endless
  | fuel + 1, currentBlock => do
    let next ← fatGet currentBlock
    fatSet currentBlock freeFatEntry
    if next = eofFatEntry then return else freeChain fuel next

def truncate (name : CString) : Member Unit := do
  match ← findEntry name with
  | none => return
  | some index =>
    let d := (← get).rootDirectory index
    freeChain loopBound d.startingBlock
    fatSet d.startingBlock eofFatEntry
    setEntry index { d with size := 0 }

def remove (name : CString) : Member Unit := do
  match ← findEntry name with
  | none => return
  | some index =>
    let d := (← get).rootDirectory index
    freeChain loopBound d.startingBlock
    setEntry index { d with inUse := 0 }

def openDir : Member Unit := modify fun fs ↦ { fs with scanIndex := 0 }

/-- `strcpy` of the name at offset `off` to the 24 bytes of a `directory_info`;
`none` when they do not hold its NUL. -/
def copyName (d : Directory) : ℕ → ℕ → Option (List UInt8)
  | 0, _ => none
  | n + 1, off =>
    match d.peek off with
    | none => none
    | some b => if b = 0 then some [] else (copyName d n (off + 1)).map (b :: ·)

/-- The loop of `next_dir`, which takes at most one turn for each slot. -/
def nextDirLoop : ℕ → Member (Option DirectoryInfo)
  | 0 => pure none
  | turns + 1 => do
    let fs ← get
    if h : fs.scanIndex < dirSize then
      let d := fs.rootDirectory ⟨fs.scanIndex, h⟩
      if d.inUse = 0 then
        modify fun fs ↦ { fs with scanIndex := fs.scanIndex + 1 }
        nextDirLoop turns
      else
        match copyName fs.rootDirectory nameSize (32 * fs.scanIndex) with
        | none => throw .undefined
        | some name =>
          modify fun fs ↦ { fs with scanIndex := fs.scanIndex + 1 }
          return some { name, size := d.size }
    else return none

def nextDir : Member (Option DirectoryInfo) := nextDirLoop dirSize

end FileSystem

end GenericFs.Fat
