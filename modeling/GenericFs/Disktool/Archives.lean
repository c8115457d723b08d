import GenericFs.Disktool.Displays

namespace GenericFs.Disktool

open Function GenericFs.Library Store Bitmap Returning Refining

deriving instance DecidableEq for NewFile, Archive

/-- What is known of a partition: the archive that it holds, or only whether it has the
signature. -/
inductive Content
  | other (signed : Bool)
  | archive (A : Archive)
  deriving DecidableEq

def Content.signed : Content → Bool
  | .other signed => signed
  | .archive _ => true

structure Reading where
  content : Content
  terminal : Terminal

/-- What a session of the tool is to its user, said without the bytes of the partition; some
things are left open. -/
abbrev Account := EStateM (Option Stop) Reading

def atTerminal {α : Type} (m : Dialog α) : Account α :=
  part Reading.terminal (fun t r ↦ { r with terminal := t }) (fun e ↦ some (id e)) m

def rowsOf (es : List Entry) : List Row := List.ofFn fun k : Fin es.length ↦ rowOf es k k.isLt

namespace Archive

variable (w : World) (g : Sizes) (A : Archive)

def showSuper : Account Unit := do
  atTerminal (send [.clear])
  atTerminal (do
    send (superLines (mySuper g))
    continueMessage w)

def showMap (cells : ℕ → Bool) : Account Unit := do
  atTerminal (send [.clear])
  let _ ← atTerminal (mapDisplay w g.blockCount cells)
  atTerminal (continueMessage w)

def showInode : Account Unit := do
  atTerminal (send [.clear])
  let choice ← atTerminal (askInode w g.blockCount)
  if 0 ≤ choice ∧ choice < g.blockCount then
    atTerminal (do
      send (inodeLines w (Inode.decode (A.slotByte g choice.toNat) 0))
      continueMessage w)
  else throw none

def showBlock : Account Unit := do
  atTerminal (send [.clear])
  let choice ← atTerminal (askBlock w g.blockCount)
  if choice < g.blockCount then
    let _ ← atTerminal (dumpDisplay w fun k ↦ A.bytes g (4096 * choice + k))
    atTerminal (continueMessage w)
  else throw none

def showRootDir : Account Unit := do
  atTerminal (send [.clear])
  atTerminal (do
    send (directoryLines (mySuper g) (rowsOf (entries A.files)))
    continueMessage w)

/-- There is an inode, a block if one is needed, and room in the directory for the file. -/
def Takes (f : NewFile) : Prop := A.files.length + 1 < g.blockCount ∧
  (0 < f.size → freshBlock g A.files < g.blockCount) ∧ listingSize (A.files ++ [f]) ≤ 4096

instance (f : NewFile) : Decidable (A.Takes g f) := inferInstanceAs (Decidable (_ ∧ _ ∧ _))

def createFile : Account Unit := do
  match ← atTerminal (askFile w) with
  | none => return ()
  | some f =>
    if A.Takes g f then
      modify fun r ↦ { r with content := .archive ⟨A.made, A.files ++ [f]⟩ }
      atTerminal (do
        send (createdLines f)
        continueMessage w)
    else throw none

def verify : Account Unit := do
  atTerminal (send [.clear])
  let allocated ← atTerminal (malloc w)
  let screen := if allocated then (List.range (A.files.length + 1)).map .inode else [.noMemory]
  atTerminal (do
    send (verdictLines screen)
    continueMessage w)

end Archive

namespace Account

variable (w : World) (g : Sizes)

/-- `initialize`, which needs nothing of what the partition holds. -/
def makeArchive : Account Unit := do
  let now ← atTerminal (do
    send (.clear :: mvprintw 1 1 "Clearing partition...")
    send (mvprintw 2 1 "Writing free maps...")
    let now ← time w
    send (mvprintw 3 1 "Creating root directory...")
    send (mvprintw 4 1 "Writing super block...")
    return now)
  modify fun r ↦ { r with content := .archive ⟨now, []⟩ }
  atTerminal (continueMessage w)

def options (A : Archive) : ℕ → Account Unit
  | 2 => Archive.showSuper w g
  | 3 => Archive.showMap w g fun i ↦ i ≤ A.files.length
  | 4 => Archive.showMap w g fun b ↦ b < freshBlock g A.files
  | 5 => A.showInode w g
  | 6 => A.showBlock w g
  | 7 => A.showRootDir w g
  | 8 => atTerminal (notImplemented w)
  | 9 => A.createFile w g
  | 10 => atTerminal (refuseDir w)
  | 11 => A.verify w
  | _ => throw none

def option (choice : ℕ) : Account Unit := do
  if choice = 1 then makeArchive w
  else
    let r ← get
    match r.content with
    | .other _ => throw none
    | .archive A => options w g A choice

def mainLoop : ℕ → Account Unit
  | 0 => throw (some .waiting)
  | turns + 1 => do
    let choice ← atTerminal (menu g)
    if choice = 0 then return ()
    else
      option w g choice
      mainLoop turns

def main (start : Start) : Account ℕ := do
  atTerminal (send [.text s!"GenericFS Disk Tool, v0.2, Compiled: {start.compiled}\n\n"])
  if start.argc ≠ 2 then
    atTerminal (send [.text "Expected a partition name on the command line.\n"])
    return 1
  else if ¬start.opens then
    atTerminal (send [.text s!"Can't open {start.partition} for read/write.\n"])
    return 1
  else
    let r ← get
    let goesOn : Bool ←
      atTerminal (if r.content.signed then pure true else askSignature start.partition)
    if ¬goesOn then return 1
    else if ¬start.sized then
      atTerminal (send [.text "Can't figure out partition size!\n"])
      return 1
    else
      let r ← get
      mainLoop w g (r.terminal.keys.length + 1)
      return 0

end Account

end GenericFs.Disktool
