import Mathlib.Tactic
import Mathlib.Data.Fintype.Basic
import Mathlib.Data.Finset.Card
import Mathlib.Logic.Function.Basic
import GenericFs.Library.Store

namespace GenericFs.Fat

open GenericFs.Library Function

/-- How a member function ends when it does not return: with a `char *`
exception, with an access outside an array, or never. -/
inductive Fault
  | thrown (message : String)
  | undefined
  | endless
  deriving DecidableEq, Repr

abbrev Buffer (n : ℕ) := Fin n → UInt8

def Buffer.cells {n : ℕ} (b : Buffer n) : ℕ → UInt8 := fun k ↦ if h : k < n then b ⟨k, h⟩ else 0

/-- The backing file block by block. `written` remembers which blocks were
written; nothing that runs reads it. -/
structure BlockDevice (blockSize : ℕ) where
  blockCount : ℕ
  block : ℕ → Buffer blockSize
  written : List ℕ

namespace BlockDevice

variable {n : ℕ}

def read (d : BlockDevice n) (blockNumber : ℕ) : Except Fault (Buffer n) :=
  if d.blockCount ≤ blockNumber then
    .error (.thrown "Attempt to read an invalid block by a block device")
  else .ok (d.block blockNumber)

def write (d : BlockDevice n) (blockNumber : ℕ) (b : Buffer n) : Except Fault (BlockDevice n) :=
  if d.blockCount ≤ blockNumber then
    .error (.thrown "Attempt to write an invalid block by a block device")
  else .ok { d with block := update d.block blockNumber b, written := blockNumber :: d.written }

end BlockDevice

abbrev blockSize : ℕ := 1024
abbrev bootBlock : ℕ := 0
abbrev fatBlock : ℕ := 1
abbrev rootBlock : ℕ := 2

abbrev freeFatEntry : ℕ := 0
abbrev reservedFatEntry : ℕ := 1
abbrev eofFatEntry : ℕ := 2

abbrev formatted : UInt8 := 0x6E

abbrev handleTableSize : ℕ := 16
abbrev fatSize : ℕ := 512
abbrev dirSize : ℕ := 32
abbrev nameSize : ℕ := 24

instance : NeZero handleTableSize := ⟨by decide⟩

instance : NeZero fatSize := ⟨by decide⟩

instance : NeZero dirSize := ⟨by decide⟩

abbrev Block := Buffer blockSize
abbrev FatTable := Fin fatSize → ℕ

inductive OpenMode
  | READ
  | WRITE
  deriving DecidableEq, Repr

/-- The `char *` argument of a member function: the bytes before its NUL. -/
structure CString where
  bytes : List UInt8
  noNul : 0 ∉ bytes
  deriving DecidableEq

theorem CString.ext_bytes {a b : CString} (h : a.bytes = b.bytes) : a = b := by
  cases a; cases b; simp_all

structure DirectoryInfo where
  name : List UInt8
  size : ℤ
  deriving DecidableEq

structure DirectoryEntry where
  name : Buffer nameSize
  size : ℤ
  startingBlock : ℕ
  inUse : UInt8
  pad : UInt8

structure HandleTableEntry where
  offset : ℤ
  directoryIndex : Fin dirSize
  currentBlock : ℕ
  inUse : Bool
  mode : OpenMode

abbrev Directory := Fin dirSize → DirectoryEntry
abbrev HandleTable := Fin handleTableSize → HandleTableEntry

structure FileSystem where
  theDisk : BlockDevice blockSize
  formattedFlag : Bool
  fat : FatTable
  rootDirectory : Directory
  handleTable : HandleTable
  scanIndex : ℕ

/-- The 32 bytes of a directory entry in memory and on disk: the name, the
size and the starting block least significant byte first, and two bytes. -/
def DirectoryEntry.peek (e : DirectoryEntry) (k : ℕ) : UInt8 :=
  if h : k < 24 then e.name ⟨k, h⟩
  else if k < 28 then Store.wordBytes (e.size % 2 ^ 32).toNat (k - 24)
  else if k < 30 then Store.wordBytes e.startingBlock (k - 28)
  else if k = 30 then e.inUse else e.pad

def DirectoryEntry.decode (memory : ℕ → UInt8) (off : ℕ) : DirectoryEntry where
  name k := memory (off + k)
  size := Int.bmod (Store.word 4 memory (off + 24)) (2 ^ 32)
  startingBlock := Store.word 2 memory (off + 28)
  inUse := memory (off + 30)
  pad := memory (off + 31)

/-- One byte stored into a directory entry. A byte of the name changes the
name; any other byte changes the field that it is a part of. -/
def DirectoryEntry.poke (e : DirectoryEntry) (k : ℕ) (b : UInt8) : DirectoryEntry :=
  if h : k < 24 then { e with name := update e.name ⟨k, h⟩ b }
  else DirectoryEntry.decode (Store.splice e.peek k 1 fun _ ↦ b) 0

def Directory.peek (d : Directory) (k : ℕ) : Option UInt8 :=
  if h : k < 1024 then some ((d ⟨k / 32, Nat.div_lt_of_lt_mul h⟩).peek (k % 32)) else none

def Directory.poke (d : Directory) (k : ℕ) (b : UInt8) : Option Directory :=
  if h : k < 1024 then
    let i : Fin dirSize := ⟨k / 32, Nat.div_lt_of_lt_mul h⟩
    some (update d i ((d i).poke (k % 32) b))
  else none

/-- `strcmp` of the C string at offset `off` of the directory with another one;
`none` when the comparison would leave the array. -/
def Directory.strcmp (d : Directory) (off : ℕ) : List UInt8 → Option Bool
  | [] => (d.peek off).map (· == 0)
  | c :: cs =>
    match d.peek off with
    | none => none
    | some a => if a = c then d.strcmp (off + 1) cs else some false

/-- `strcpy` to offset `off` of the directory, the closing NUL included; `none`
when the copy would leave the array. -/
def Directory.strcpy (d : Directory) (off : ℕ) : List UInt8 → Option Directory
  | [] => d.poke off 0
  | c :: cs =>
    match d.poke off c with
    | none => none
    | some d => d.strcpy (off + 1) cs

def encodeFat (fat : FatTable) : Block :=
  fun k ↦ Store.wordBytes (fat ⟨k / 2, Nat.div_lt_of_lt_mul k.isLt⟩) (k % 2)

def decodeFat (b : Block) : FatTable := fun j ↦ Store.word 2 b.cells (2 * j)

def encodeDirectory (d : Directory) : Block :=
  fun k ↦ (d ⟨k / 32, Nat.div_lt_of_lt_mul k.isLt⟩).peek (k % 32)

def decodeDirectory (b : Block) : Directory := fun i ↦ DirectoryEntry.decode b.cells (32 * i)

namespace FatTable

/-- The value of `FAT[b]`, where the index may be any 16-bit number. -/
def entry (fat : FatTable) (b : ℕ) : Option ℕ := if h : b < fatSize then some (fat ⟨b, h⟩) else none

def set (fat : FatTable) (b v : ℕ) : FatTable := fun k ↦ if k.val = b then v else fat k

def firstFree (fat : FatTable) : Option (Fin fatSize) := Fin.find? fun j ↦ fat j = freeFatEntry

end FatTable

namespace FileSystem

variable (fs : FileSystem)

def setFat (b v : ℕ) : FileSystem := { fs with fat := fs.fat.set b v }

def withHandle (h : Fin handleTableSize) (e : HandleTableEntry) : FileSystem :=
  { fs with handleTable := update fs.handleTable h e }

def withEntry (i : Fin dirSize) (d : DirectoryEntry) : FileSystem :=
  { fs with rootDirectory := update fs.rootDirectory i d }

def withBlock (b : ℕ) (buffer : Block) : FileSystem :=
  { fs with theDisk := { fs.theDisk with block := update fs.theDisk.block b buffer } }

def wrote (ws : List ℕ) : FileSystem :=
  { fs with theDisk := { fs.theDisk with written := ws ++ fs.theDisk.written } }

variable {fs} {b v : ℕ} {h : Fin handleTableSize} {e : HandleTableEntry} {i : Fin dirSize}
  {d : DirectoryEntry} {buffer : Block} {ws : List ℕ}

@[simp] theorem setFat_fields : (fs.setFat b v).theDisk = fs.theDisk ∧
    (fs.setFat b v).formattedFlag = fs.formattedFlag ∧ (fs.setFat b v).fat = fs.fat.set b v ∧
    (fs.setFat b v).rootDirectory = fs.rootDirectory ∧
    (fs.setFat b v).handleTable = fs.handleTable ∧ (fs.setFat b v).scanIndex = fs.scanIndex :=
  ⟨rfl, rfl, rfl, rfl, rfl, rfl⟩

@[simp] theorem withHandle_fields : (fs.withHandle h e).theDisk = fs.theDisk ∧
    (fs.withHandle h e).formattedFlag = fs.formattedFlag ∧ (fs.withHandle h e).fat = fs.fat ∧
    (fs.withHandle h e).rootDirectory = fs.rootDirectory ∧
    (fs.withHandle h e).handleTable = update fs.handleTable h e ∧
    (fs.withHandle h e).scanIndex = fs.scanIndex :=
  ⟨rfl, rfl, rfl, rfl, rfl, rfl⟩

@[simp] theorem withEntry_fields : (fs.withEntry i d).theDisk = fs.theDisk ∧
    (fs.withEntry i d).formattedFlag = fs.formattedFlag ∧ (fs.withEntry i d).fat = fs.fat ∧
    (fs.withEntry i d).rootDirectory = update fs.rootDirectory i d ∧
    (fs.withEntry i d).handleTable = fs.handleTable ∧
    (fs.withEntry i d).scanIndex = fs.scanIndex :=
  ⟨rfl, rfl, rfl, rfl, rfl, rfl⟩

@[simp] theorem withBlock_fields :
    (fs.withBlock b buffer).theDisk.block = update fs.theDisk.block b buffer ∧
    (fs.withBlock b buffer).theDisk.blockCount = fs.theDisk.blockCount ∧
    (fs.withBlock b buffer).theDisk.written = fs.theDisk.written ∧
    (fs.withBlock b buffer).formattedFlag = fs.formattedFlag ∧
    (fs.withBlock b buffer).fat = fs.fat ∧
    (fs.withBlock b buffer).rootDirectory = fs.rootDirectory ∧
    (fs.withBlock b buffer).handleTable = fs.handleTable ∧
    (fs.withBlock b buffer).scanIndex = fs.scanIndex :=
  ⟨rfl, rfl, rfl, rfl, rfl, rfl, rfl, rfl⟩

@[simp] theorem wrote_fields : (fs.wrote ws).theDisk.block = fs.theDisk.block ∧
    (fs.wrote ws).theDisk.blockCount = fs.theDisk.blockCount ∧
    (fs.wrote ws).theDisk.written = ws ++ fs.theDisk.written ∧
    (fs.wrote ws).formattedFlag = fs.formattedFlag ∧ (fs.wrote ws).fat = fs.fat ∧
    (fs.wrote ws).rootDirectory = fs.rootDirectory ∧
    (fs.wrote ws).handleTable = fs.handleTable ∧ (fs.wrote ws).scanIndex = fs.scanIndex :=
  ⟨rfl, rfl, rfl, rfl, rfl, rfl, rfl, rfl⟩

end FileSystem

end GenericFs.Fat
