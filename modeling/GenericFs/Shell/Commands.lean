import GenericFs.Fat.Chunking
import GenericFs.Fat.Remount

namespace GenericFs.Shell

open GenericFs.Fat Function FileSystem

def ascii (s : String) : List UInt8 := s.toList.map fun c ↦ c.toNat.toUInt8

/-- The file of the host that the device of `my_main` lives in. -/
def blockDev : CString := ⟨ascii "block.dev", by decide⟩

inductive Line
  | error (message : String)
  | entry (info : DirectoryInfo)
  | available (bytes : ℤ)
  deriving DecidableEq

/-- The program while it runs: its file system, its console, and the files of
the host with their contents and with the names that can be opened for output. -/
structure Session where
  files : FileSystem
  console : List Line
  host : CString → Option (List UInt8)
  writable : CString → Bool

abbrev Command := EStateM Fault Session

abbrev CommandLine := List CString

def word (line : CommandLine) (n : ℕ) : CString := line.getD (n - 1) ⟨[], by simp⟩

def member {α : Type} (m : Member α) : Command α := fun s ↦
  match m.run s.files with
  | .ok a fs => .ok a { s with files := fs }
  | .error e fs => .error e { s with files := fs }

def print (l : Line) : Command Unit := modify fun s ↦ { s with console := s.console ++ [l] }

def error (message : String) : Command Unit := print (.error message)

/-- Every loop of a command that reads a file ends within as many turns as an
`int` can count bytes. -/
abbrev transferBound : ℕ := 2 ^ 31

def put (out : ℤ) (buffer : List UInt8) (count : ℤ) : Command Unit := do
  if (← member (write out buffer count)) ≠ count then error "problem writing destination"

def vcopyLoop (input out : ℤ) : ℕ → Command Unit
  | 0 => throw .endless
  | turns + 1 => do
    let (count, buffer) ← member (read input 1000)
    if count = 0 then return
    else
      put out buffer count
      vcopyLoop input out turns

def vcopyOp (line : CommandLine) : Command Bool := do
  if line.length ≠ 3 then error "usage: vcopy source destination"
  else
    let input ← member (FileSystem.open (word line 2) .READ)
    member (truncate (word line 3))
    let out ← member (FileSystem.open (word line 3) .WRITE)
    vcopyLoop input out transferBound
    member (close input)
    member (close out)
  return false

def vcopyinLoop (out : ℤ) : ℕ → List UInt8 → Command Unit
  | 0, _ => throw .endless
  | turns + 1, input => do
    let buffer := input.take 1000
    if buffer.length = 0 then return
    else
      put out buffer buffer.length
      vcopyinLoop out turns (input.drop 1000)

def vcopyinOp (line : CommandLine) : Command Bool := do
  if line.length ≠ 3 then error "usage: vcopyin source destination"
  else
    match (← get).host (word line 2) with
    | none => error "can't open input file in host file system"
    | some input =>
      member (truncate (word line 3))
      let out ← member (FileSystem.open (word line 3) .WRITE)
      vcopyinLoop out (input.length + 1) input
      member (close out)
  return false

def hostWrite (name : CString) (buffer : List UInt8) : Command Unit :=
  modify fun s ↦ { s with host := update s.host name ((s.host name).map (· ++ buffer)) }

def vcopyoutLoop (input : ℤ) (out : CString) : ℕ → Command Unit
  | 0 => throw .endless
  | turns + 1 => do
    let (count, buffer) ← member (read input 1000)
    if count = 0 then return
    else
      hostWrite out buffer
      vcopyoutLoop input out turns

def vcopyoutOp (line : CommandLine) : Command Bool := do
  if line.length ≠ 3 then error "usage: vcopy source destination"
  else
    let input ← member (FileSystem.open (word line 2) .READ)
    if (← get).writable (word line 3) = false then
      error "can't open output file in host file system"
      member (close input)
    else
      modify fun s ↦ { s with host := update s.host (word line 3) (some []) }
      -- opening the file of the device for output takes all its blocks away
      if word line 3 = blockDev then throw .undefined
      else
        vcopyoutLoop input (word line 3) transferBound
        member (close input)
  return false

def vdelOp (line : CommandLine) : Command Bool := do
  if line.length ≠ 2 then error "usage: vdel filename"
  else member (remove (word line 2))
  return false

def vdirLoop : ℕ → Command Unit
  | 0 => throw .endless
  | turns + 1 => do
    match ← member nextDir with
    | none => return
    | some info =>
      print (.entry info)
      vdirLoop turns

def vdirOp (_ : CommandLine) : Command Bool := do
  member openDir
  vdirLoop (dirSize + 1)
  return false

def formatOp (_ : CommandLine) : Command Bool := do
  member format
  return false

def quitOp (_ : CommandLine) : Command Bool := return true

/-- The listing of the host's own directory, which leaves the session alone. -/
def dirOp (_ : CommandLine) : Command Bool := return false

def jumpTable : List (String × (CommandLine → Command Bool)) :=
  [("dir", dirOp), ("exit", quitOp), ("format", formatOp), ("vcopy", vcopyOp),
    ("vcopyin", vcopyinOp), ("vcopyout", vcopyoutOp), ("vdel", vdelOp), ("vdir", vdirOp)]

/-- One turn of the loop of `my_main`: the prompt, the command, and the check of
the file system. It returns whether the user is done. -/
def interact (line : CommandLine) : Command Bool := do
  if (← get).files.formattedFlag = true then print (.available (← member freeSpace))
  let done ←
    match jumpTable.find? fun c ↦ ascii c.1 = (word line 1).bytes with
    | some c => c.2 line
    | none => do
      error "command unknown"
      pure false
  member check
  return done

end GenericFs.Shell
