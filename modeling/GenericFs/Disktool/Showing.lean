import GenericFs.Disktool.CreateFile
import GenericFs.Disktool.Terminal
import GenericFs.Disktool.Verify

namespace GenericFs.Disktool

open GenericFs.Library Store Refining

/-- The tool on its partition and its terminal. -/
structure Station where
  tool : Tool
  terminal : Terminal

abbrev Interaction := EStateM Stop Station

def onTool {α : Type} (m : Action α) : Interaction α :=
  part Station.tool (fun t s ↦ { s with tool := t }) Stop.fault m

def onTerminal {α : Type} (m : Dialog α) : Interaction α :=
  part Station.terminal (fun t s ↦ { s with terminal := t }) id m

/-- A read into a local array that has values already; what is not read stays as it is. -/
def reread (workspace : Workspace) (n : ℕ) : Action Workspace := do
  let t ← get
  let m := min n (t.size - t.position)
  set { t with position := t.position + m }
  return splice workspace 0 m fun k ↦ t.bytes (t.position + k)

def superLines (mySuper : SuperBlock) : List Call :=
  mvprintw 2 1 s!"Magic Number:       0x{hexadecimal mySuper.magicNumber}" ++
  mvprintw 3 1 s!"Total Blocks:       {decimal mySuper.totalBlocks}" ++
  mvprintw 4 1 s!"Block Size:         {decimal mySuper.blockSize} bytes" ++
  mvprintw 5 1 s!"Inode Freemap Size: {decimal mySuper.inodefreemapBlocks} blocks" ++
  mvprintw 6 1 s!"Block Freemap Size: {decimal mySuper.blockfreemapBlocks} blocks" ++
  mvprintw 7 1 s!"Inode Table Size:   {decimal mySuper.inodetableBlocks} blocks"

def showSuper (w : World) : Interaction Unit := do
  onTerminal (send [.clear])
  onTool (lseek 0)
  let workspace ← onTool (read (fun _ ↦ 0) blockSize)
  onTerminal (do
    send (superLines (SuperBlock.decode workspace 0))
    continueMessage w)

section Freemaps

variable (w : World) (total : ℕ) (workspace : Workspace)

/-- The loop over the bits of a byte; it has no result when it has shown the last one. -/
def showBits (byte : UInt8) : ℕ → ℕ → ℕ → Dialog (Option ℕ)
  | 0, _, counter => return some counter
  | turns + 1, i, counter => do
    send [.text (if byte &&& UInt8.ofNat (1 <<< i) ≠ 0 then "X" else "-")]
    let counter := (counter + 1) % 2 ^ 32
    if counter = total then return none else showBits byte turns (i + 1) counter

def showBytes : ℕ → ℕ → ℕ → ℕ → Dialog (Option (ℕ × ℕ))
  | 0, _, row, counter => return some (row, counter)
  | turns + 1, blockOffset, row, counter => do
    let turned := counter % period w 32 = 0
    let quits ← pause w 32 counter
    if quits then return none
    else
      let row := if turned then 1 else row
      let header := blockOffset % 4 = 0
      send (if header then mvprintw row 1 s!"  {zeroPadded 9 counter}: " else [.text "  "])
      match ← showBits total (workspace blockOffset) 8 0 counter with
      | none => return none
      | some counter => showBytes turns (blockOffset + 1) (if header then row + 1 else row) counter

def showBlocks : ℕ → ℕ → ℕ → Workspace → Interaction Unit
  | 0, _, _, _ => return ()
  | turns + 1, row, counter, workspace => do
    let workspace ← onTool (reread workspace blockSize)
    match ← onTerminal (showBytes w total workspace blockSize 0 row counter) with
    | none => return ()
    | some (row, counter) => showBlocks turns row counter workspace

/-- The body that `show_inode_freemap` and `show_block_freemap` share. -/
def showFreemap (start mapBlocks : SuperBlock → ℕ) : Interaction Unit := do
  onTerminal (send [.clear])
  onTool (lseek 0)
  let workspace ← onTool (read (fun _ ↦ 0) blockSize)
  let mySuper := SuperBlock.decode workspace 0
  onTool (lseek (start mySuper))
  showBlocks w mySuper.totalBlocks (mapBlocks mySuper) 1 0 workspace
  onTerminal (continueMessage w)

def showInodeFreemap : Interaction Unit :=
  showFreemap w (fun _ ↦ blockSize) SuperBlock.inodefreemapBlocks

def showBlockFreemap : Interaction Unit :=
  showFreemap w (fun mySuper ↦ address (1 + mySuper.inodefreemapBlocks))
  SuperBlock.blockfreemapBlocks

end Freemaps

section Inodes

def checked (z : ℤ) : Action ℤ := if -2 ^ 31 ≤ z ∧ z < 2 ^ 31 then return z else throw .undefined

/-- A seek before the start of the partition fails. -/
def lseekInt (offset : ℤ) : Action Unit := if offset < 0 then return () else lseek offset.toNat

def modeKind (mode : ℕ) : String :=
  match mode &&& 0o170000 with
  | 0o140000 => "socket"
  | 0o120000 => "link"
  | 0o100000 => "regular"
  | 0o040000 => "directory"
  | 0o020000 => "character device"
  | 0o060000 => "block device"
  | 0o010000 => "fifo"
  | _ => ""

def modeBits (mode : ℕ) : String :=
  (if mode &&& 0o4000 ≠ 0 then ", UID bit set" else "") ++
  (if mode &&& 0o2000 ≠ 0 then ", GID bit set" else "") ++
  if mode &&& 0o1000 ≠ 0 then ", sticky bit set" else ""

def inodeLines (w : World) (myInode : Inode) : List Call :=
  mvprintw 1 1 s!"nlinks        : {decimal myInode.nlinks}\n" ++
  mvprintw 2 1 s!"Owner Id      : {decimal myInode.ownerId}\n" ++
  mvprintw 3 1 s!"Group Id      : {decimal myInode.groupId}\n" ++
  mvprintw 4 1 s!"Mode          : {octal myInode.mode}: " ++
  [.text (modeKind myInode.mode), .text (modeBits myInode.mode)] ++
  mvprintw 5 1 s!"File Size     : {decimal myInode.fileSize}\n" ++
  mvprintw 6 1 s!"Access Time   : {w.ctime myInode.atime}" ++
  mvprintw 7 1 s!"Modified Time : {w.ctime myInode.mtime}" ++
  mvprintw 8 1 s!"Meta Mod Time : {w.ctime myInode.ctime}" ++
  mvprintw 9 1 (s!"First Blocks  : {decimal (myInode.blocks 0)}, {decimal (myInode.blocks 1)}, " ++
    s!"{decimal (myInode.blocks 2)}, {decimal (myInode.blocks 3)}\n") ++
  mvprintw 10 1 s!"First Indirection Pointer : {decimal myInode.firstIndirect}\n" ++
  mvprintw 11 1 s!"Second Indirection Pointer: {decimal myInode.secondIndirect}\n"

/-- The number that the user gives; none is read where the line has none. -/
def askInode (w : World) (total : ℕ) : Dialog ℤ := do
  send (mvprintw 1 1 s!"Enter inode (0 - {decimal ((total + 2 ^ 32 - 1) % 2 ^ 32)}): ")
  let some choice ← scanInt w | throw (.fault .undefined)
  send [.clear]
  return choice

def showInode (w : World) : Interaction Unit := do
  onTerminal (send [.clear])
  onTool (lseek 0)
  let workspace ← onTool (read (fun _ ↦ 0) blockSize)
  let mySuper := SuperBlock.decode workspace 0
  let freemapSize := Int.bmod mySuper.inodefreemapBlocks (2 ^ 32)
  let choice ← onTerminal (askInode w mySuper.totalBlocks)
  let offset := choice.tmod 64 * 64
  let maps ← onTool (checked (freemapSize * 2))
  let blocknum ← onTool (checked (choice.tdiv 64 + 1 + maps))
  let place ← onTool (checked (blocknum * blockSize))
  onTool (lseekInt place)
  let workspace ← onTool (reread workspace blockSize)
  if offset < 0 then throw (.fault .undefined)
  else
    onTerminal (do
      send (inodeLines w (Inode.decode workspace offset.toNat))
      continueMessage w)

end Inodes

section Dumps

def isprint (b : UInt8) : Bool := 0x20 ≤ b ∧ b ≤ 0x7E

def printable (b : UInt8) : UInt8 := if isprint b then b else 0x2E

def dumpLine (row offset : ℕ) (workspace : Workspace) : List Call :=
  mvprintw row 1 (padded '0' 3 (hexadecimal offset) ++ ":") ++
  ((List.range 16).flatMap fun i ↦ (if i % 8 = 0 then [.text " "] else []) ++
    [.text (padded '0' 2 (hexadecimal (workspace (offset + i)).toNat) ++ " ")]) ++
  [.text s!"|{characters ((slice workspace offset 16).map printable)}|\n"]

def showLines (w : World) (workspace : Workspace) : ℕ → ℕ → ℕ → Dialog Unit
  | 0, _, _ => return ()
  | turns + 1, offset, row => do
    let turned := offset % period w 16 = 0
    let quits ← pause w 16 offset
    if quits then return ()
    else
      let row := if turned then 1 else row
      send (dumpLine row offset workspace)
      showLines w workspace turns (offset + 16) (row + 1)

def askBlock (w : World) (total : ℕ) : Dialog ℕ := do
  send (mvprintw 1 1 s!"Enter block number (0 - {unsigned ((total + 2 ^ 32 - 1) % 2 ^ 32)}): ")
  let some choice ← scanUnsigned w | throw (.fault .undefined)
  send [.clear]
  if (total + 2 ^ 32 - 1) % 2 ^ 32 < choice then
    send (mvprintw 1 1
      s!"Error: Block {unsigned choice} out of range. Maximum = {unsigned total}\n")
    continueMessage w
  return choice

/-- A block out of range is read after the message all the same. -/
def showBlock (w : World) : Interaction Unit := do
  onTerminal (send [.clear])
  onTool (lseek 0)
  let workspace ← onTool (read (fun _ ↦ 0) blockSize)
  let choice ← onTerminal (askBlock w (SuperBlock.decode workspace 0).totalBlocks)
  onTool (lseek (address choice))
  let workspace ← onTool (reread workspace blockSize)
  onTerminal (do
    showLines w workspace (blockSize / 16) 0 1
    continueMessage w)

end Dumps

section Directories

def rowLines (row : ℕ) (r : Row) : List Call :=
  mvprintw row 1 (padded ' ' 10 (decimal r.offset) ++ " ") ++
  [.text (padded ' ' 10 (decimal r.next) ++ " "), .text (padded ' ' 10 (decimal r.inode) ++ " "),
    .text (characters r.name)]

def directoryLines (mySuper : SuperBlock) (rows : List Row) : List Call :=
  mvprintw 1 1 (s!"Root directory in block #" ++
    decimal ((1 + 2 * mySuper.blockfreemapBlocks + mySuper.inodetableBlocks) % 2 ^ 32)) ++
  mvprintw 2 1 "    Offset       Next      Inode   Filename\n" ++
  mvprintw 3 1 "========== ========== ========== ==========" ++
  (rows.mapIdx fun i r ↦ rowLines (4 + i) r).flatten

def showRootDirOption (w : World) : Interaction Unit := do
  onTerminal (send [.clear])
  let rows ← onTool showRootDir
  let t ← onTool get
  onTerminal (do
    send (directoryLines (SuperBlock.decode t.bytes 0) rows)
    continueMessage w)

def notImplemented (w : World) : Dialog Unit := do
  send (.clear :: mvprintw 1 1 "Not implemented")
  continueMessage w

/-- The body of `create_dir` as far as it is reached. -/
def refuseDir (w : World) : Dialog Unit := do
  -- the time is asked for before the refusal
  let _ ← time w
  notImplemented w

def showFile (w : World) : Interaction Unit := onTerminal (notImplemented w)

def createDir (w : World) : Interaction Unit := onTerminal (refuseDir w)

end Directories

end GenericFs.Disktool
