import GenericFs.Disktool.Accounting
import GenericFs.Disktool.Showing

namespace GenericFs.Disktool

open GenericFs.Library Refining

variable (w : World) (g : Sizes)

def initializeOption : Interaction Unit := do
  onTerminal (send (.clear :: mvprintw 1 1 "Clearing partition..."))
  onTool (clearPartition g)
  onTerminal (send (mvprintw 2 1 "Writing free maps..."))
  tryCatch (onTool (writeFreemaps g)) fun
    | .fault .exited => do
      onTerminal (do
        send (mvprintw 2 1 "There are more preallocated blocks than I can handle!")
        continueMessage w)
      throw (.fault .exited)
    | e => throw e
  let now ← onTerminal (time w)
  onTerminal (send (mvprintw 3 1 "Creating root directory..."))
  onTool (createRoot g now)
  onTerminal (send (mvprintw 4 1 "Writing super block..."))
  onTool (writeSuper g)
  onTerminal (continueMessage w)

/-- The inputs of `create_file`; there is nothing to do where the size is refused. -/
def askFile : Dialog (Option NewFile) := do
  let now ← time w
  send (.clear :: mvprintw 1 1 "File name: ")
  let name ← scanString w
  -- a longer name leaves the local array
  if 127 < (name.getD []).length then throw (.fault .undefined)
  else
    send (mvprintw 2 1 "File size: ")
    let size ← scanUnsigned w
    if 4096 < size.getD 0 then
      send (mvprintw 3 1 "Creating files larger than 4096 bytes is not supported")
      continueMessage w
      return none
    else
      send [.clear]
      match name with
      | none => throw (.fault .undefined)
      | some name => return some { name, size := size.getD 0, now }

def createdLines (f : NewFile) : List Call :=
  mvprintw 1 1 s!"Created file '{characters f.name}' in the root directory.\n"

def createFileOption : Interaction Unit := do
  match ← onTerminal (askFile w) with
  | none => return ()
  | some f =>
    onTool (createFile g f)
    onTerminal (do
      send (createdLines f)
      continueMessage w)

def verdictLines (screen : List Message) : List Call :=
  .move 1 1 :: screen.map fun m ↦ .text m.text

def verifyOption : Interaction Unit := do
  onTerminal (send [.clear])
  let allocated ← onTerminal (malloc w)
  onTool (verifyFileSystem g allocated)
  let t ← onTool get
  onTerminal (do
    send (verdictLines t.screen)
    continueMessage w)

def menuOptions : List String := ["0: Exit", "1: Initialize partition", "2: Show superblock",
  "3: Show inode map", "4: Show block map", "5: Show inode", "6: Show block",
  "7: Show root directory",
  "8: Show file", "9: Create file", "A: Create directory", "B: Verify file system"]

def availableBlocks : ℕ :=
  ((g.blockCount - 2 * g.freemapBlocksize - g.inodetableBlocksize : ℤ) % 2 ^ 32).toNat

def menuLines : List Call :=
  .clear ::
  mvprintw 2 1
    s!"Partition  : {unsigned (address g.blockCount)} bytes ({unsigned g.blockCount} blocks)" ++
  mvprintw 3 1
    s!"Free Map   : {unsigned g.freemapBytesize} bytes ({unsigned g.freemapBlocksize} blocks)" ++
  mvprintw 4 1 (s!"Inode Table: {unsigned g.inodetableBytesize} bytes " ++
    s!"({unsigned g.inodetableBlocksize} blocks)") ++
  mvprintw 5 1 (s!"Available  : {unsigned (address (availableBlocks g))} bytes " ++
    s!"({unsigned (availableBlocks g)} blocks)") ++
  (menuOptions.mapIdx fun i option ↦ mvprintw (7 + i) 1 option).flatten ++
  mvprintw 21 1 "Enter choice: "

def toupper (c : UInt8) : UInt8 := if 0x61 ≤ c ∧ c ≤ 0x7A then c - 0x20 else c

def choiceOf (key : UInt8) : Option ℕ :=
  let choice := toupper key
  if isdigit choice then some (choice.toNat - 0x30)
  else if choice = 0x41 then some 10
  else if choice = 0x42 then some 11
  else none

def choose : List UInt8 → Dialog ℕ
  | [] => do
    modify fun t ↦ { t with keys := [] }
    throw .waiting
  | key :: keys =>
    match choiceOf key with
    | some choice => do
      modify fun t ↦ { t with keys }
      return choice
    | none => do
      send (mvprintw 22 1 "Invalid choice. Select again!")
      choose keys

def menu : Dialog ℕ := do
  send (menuLines g)
  let t ← get
  choose t.keys

def jumpTable : ℕ → Interaction Unit
  | 1 => initializeOption w g
  | 2 => showSuper w
  | 3 => showInodeFreemap w
  | 4 => showBlockFreemap w
  | 5 => showInode w
  | 6 => showBlock w
  | 7 => showRootDirOption w
  | 8 => showFile w
  | 9 => createFileOption w g
  | 10 => createDir w
  | 11 => verifyOption w g
  | _ => throw (.fault .undefined)

/-- The loop of `main`; each turn takes a key at least. -/
def mainLoop : ℕ → Interaction Unit
  | 0 => throw .waiting
  | turns + 1 => do
    let choice ← onTerminal (menu g)
    if choice = 0 then return ()
    else
      jumpTable w g choice
      mainLoop turns

def checkSuper : Action Bool := do
  lseek 0
  let workspace ← read (fun _ ↦ 0) blockSize
  return (SuperBlock.decode workspace 0).magicNumber = 0xDEADBEEF

/-- How the tool is called: the arguments, whether the partition can be opened, and whether its
size can be told. -/
structure Start where
  argc : ℕ
  partition : String
  opens : Bool
  sized : Bool
  compiled : String

def askSignature (partition : String) : Dialog Bool := do
  send [.text s!"Warning: {partition} does not have a valid GenericFS signature, continue? "]
  let key ← getch
  if key ≠ 0x79 then
    send [.text "Exiting\n"]
    return false
  else
    await 0x0A
    return true

/-- The result is the exit status. -/
def main (start : Start) : Interaction ℕ := do
  onTerminal (send [.text s!"GenericFS Disk Tool, v0.2, Compiled: {start.compiled}\n\n"])
  if start.argc ≠ 2 then
    onTerminal (send [.text "Expected a partition name on the command line.\n"])
    return 1
  else if ¬start.opens then
    onTerminal (send [.text s!"Can't open {start.partition} for read/write.\n"])
    return 1
  else
    let signed ← onTool checkSuper
    let goesOn ← onTerminal (if signed then pure true else askSignature start.partition)
    if ¬goesOn then return 1
    else if ¬start.sized then
      onTerminal (send [.text "Can't figure out partition size!\n"])
      return 1
    else
      let s ← get
      mainLoop w s.tool.sizes (s.terminal.keys.length + 1)
      return 0

end GenericFs.Disktool
