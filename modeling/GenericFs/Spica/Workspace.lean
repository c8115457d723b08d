import Mathlib.Data.UInt
import GenericFs.Library.Cells

namespace GenericFs.Spica

open GenericFs.Library Cells

inductive Fault
  | badAlloc
  | undefined
  deriving DecidableEq

abbrev Workspace := Cells UInt8

def intMax : ℕ := 2 ^ 31 - 1

def IsInt (x : ℤ) : Prop := -2 ^ 31 ≤ x ∧ x < 2 ^ 31

instance (x : ℤ) : Decidable (IsInt x) := inferInstanceAs (Decidable (_ ∧ _))

def int (x : ℤ) : Except Fault ℤ := if IsInt x then .ok x else .error .undefined

def narrow (n : ℕ) : ℤ := ((n : ℤ) + 2 ^ 31) % 2 ^ 32 - 2 ^ 31

/-- `new char[n]`, where a size below zero is one that no allocation can have. -/
def newChars (n : ℤ) : Except Fault Workspace :=
  if n < 0 then .error .badAlloc else .ok (fresh n.toNat)

def inside {α : Type} : Option α → Except Fault α
  | some a => .ok a
  | none => .error .undefined

def pointer (w : Workspace) (k : ℤ) : Except Fault Workspace :=
  if k < 0 ∨ w.length < k then .error .undefined else .ok (w.drop k.toNat)

def strlen (w : Workspace) : Except Fault ℕ := do return (← inside (cstring w)).length

def put (w : Workspace) (k : ℤ) (t : List UInt8) : Except Fault Workspace :=
  if k < 0 then .error .undefined else inside (write w k.toNat t)

def strcpy (w : Workspace) (k : ℤ) (source : Workspace) : Except Fault Workspace := do
  put w k ((← inside (cstring source)) ++ [0])

def strncpy (w : Workspace) (source : Workspace) (n : ℤ) : Except Fault Workspace := do
  let t ← inside (cstring source)
  put w 0 (t.take n.toNat ++ List.replicate (n.toNat - t.length) 0)

def strcat (w source : Workspace) : Except Fault Workspace := do
  let t ← inside (cstring w)
  strcpy w t.length source

def memset (w : Workspace) (k : ℤ) (c : UInt8) (n : ℤ) : Except Fault Workspace :=
  if n < 0 then .error .undefined else put w k (List.replicate n.toNat c)

def memcpy (w : Workspace) (k : ℤ) (source : Workspace) (n : ℤ) : Except Fault Workspace := do
  if n < 0 then .error .undefined else put w k (← inside (read source n.toNat))

/-- What a non-mutating operation makes of its result: it leaves it empty, gives
it a workspace of its own, or assigns the string itself to it. -/
inductive Produced
  | empty
  | made (temp : Workspace)
  | same

namespace Workspace

def right (w : Workspace) (length : ℤ) (pad : UInt8) : Except Fault Produced := do
  if length ≤ 0 then return .empty
  else
    let currentLength := narrow (← strlen w)
    if length < currentLength then
      let temp ← newChars (← int (length + 1))
      let temp ← strcpy temp 0 (← pointer w (← int (currentLength - length)))
      return .made temp
    else
      let temp ← newChars (← int (length + 1))
      let temp ← memset temp 0 pad (← int (length - currentLength))
      let temp ← strcpy temp (← int (length - currentLength)) w
      return .made temp

def left (w : Workspace) (length : ℤ) (pad : UInt8) : Except Fault Produced := do
  if length ≤ 0 then return .empty
  else
    let currentLength := narrow (← strlen w)
    if length < currentLength then
      let temp ← newChars (← int (length + 1))
      let temp ← strncpy temp w length
      let temp ← put temp length [0]
      return .made temp
    else
      let temp ← newChars (← int (length + 1))
      let temp ← strcpy temp 0 w
      let temp ← memset temp currentLength pad (← int (length - currentLength))
      let temp ← put temp length [0]
      return .made temp

def centerWide (w : Workspace) (length currentLength : ℤ) (pad : UInt8) :
    Except Fault Produced := do
  let leftSide := (← int (length - currentLength)).tdiv 2
  let rightSide ← int ((← int (length - currentLength)) - leftSide)
  let temp ← newChars (← int (length + 1))
  let temp ← memset temp 0 pad leftSide
  let temp ← strcpy temp leftSide w
  let temp ← memset temp (← int (leftSide + currentLength)) pad rightSide
  let temp ← put temp length [0]
  return .made temp

def copyLoop (w : Workspace) : ℕ → Workspace → Except Fault Workspace
  | 0, temp => .ok temp
  | n + 1, temp => do copyLoop w n (← strcat temp w)

/-- The size of the new array is a `size_t`. -/
def copy (w : Workspace) (count : ℤ) : Except Fault Produced := do
  if count < 0 then return .empty
  else
    let temp ← newChars ((count.toNat * (← strlen w) + 1) % 2 ^ 64 : ℕ)
    let temp ← put temp 0 [0]
    return .made (← copyLoop w count.toNat temp)

def erase (w : Workspace) (offset count : ℤ) : Except Fault Produced := do
  let offset ← int (offset - 1)
  if offset < 0 ∨ count < 0 then return .same
  else
    let currentLength := narrow (← strlen w)
    if currentLength ≤ offset ∨ count = 0 then return .same
    else
      let maxCount ← int (currentLength - offset)
      let count := if maxCount < count then maxCount else count
      let temp ← newChars (← int ((← int (currentLength - count)) + 1))
      let temp ← memcpy temp 0 w offset
      let temp ← strcpy temp offset (← pointer w (← int (offset + count)))
      return .made temp

def insert (w incoming : Workspace) (offset count : ℤ) : Except Fault Produced := do
  let offset ← int (offset - 1)
  if offset < 0 ∨ count < 0 then return .same
  else
    let currentLength := narrow (← strlen w)
    if currentLength < offset ∨ count = 0 then return .same
    else
      let incomingLength := narrow (← strlen incoming)
      let count := if incomingLength < count then incomingLength else count
      let temp ← newChars (← int ((← int (currentLength + count)) + 1))
      let temp ← memcpy temp 0 w offset
      let temp ← memcpy temp offset incoming count
      let temp ← strcpy temp (← int (offset + count)) (← pointer w offset)
      return .made temp

def substr (w : Workspace) (offset count : ℤ) : Except Fault Produced := do
  let offset ← int (offset - 1)
  if offset < 0 ∨ count < 0 then return .empty
  else
    let currentLength := narrow (← strlen w)
    if currentLength ≤ offset then return .empty
    else
      let available ← int (currentLength - offset)
      let count := if available < count then available else count
      let temp ← newChars (← int (count + 1))
      let temp ← memcpy temp 0 (← pointer w offset) count
      let temp ← put temp count [0]
      return .made temp

/-- A `while` loop that moves a pointer over characters of an array. The pointer
is what the array holds from there on. -/
def skipWhile (p : UInt8 → Bool) : Workspace → Except Fault Workspace
  | some c :: w => if p c then skipWhile p w else .ok (some c :: w)
  | _ => .error .undefined

/-- The loop of `strip` that moves `end` back, given by the number of characters
up to and with `*end`. -/
def backUp (w : Workspace) (killChar : UInt8) : ℕ → Except Fault ℕ
  | 0 => .ok 0
  | n + 1 => do
    if (← inside (w.getD n none)) ≠ killChar then return n + 1
    else backUp w killChar n

abbrev modeL : UInt8 := 76
abbrev modeT : UInt8 := 84
abbrev modeB : UInt8 := 66

def stripEnd (w : Workspace) (mode killChar : UInt8) (last : ℕ) : Except Fault ℕ :=
  if mode = modeT ∨ mode = modeB then backUp w killChar last else .ok last

def stripStart (w : Workspace) (mode killChar : UInt8) : Except Fault Workspace :=
  if mode = modeL ∨ mode = modeB then skipWhile (fun c ↦ c ≠ 0 ∧ c = killChar) w else .ok w

def strip (w : Workspace) (mode killChar : UInt8) : Except Fault Produced := do
  let last ← strlen w
  if last = 0 then return .empty
  else
    let start ← stripStart w mode killChar
    let last ← stripEnd w mode killChar last
    let first := w.length - start.length
    if last ≤ first then return .empty
    else
      let length ← int (narrow (last - 1 - first) + 1)
      let temp ← newChars (← int (length + 1))
      let temp ← memcpy temp 0 start length
      let temp ← put temp length [0]
      return .made temp

/-- Any character of the string `white`, and its terminating zero as well; the
white space of C when there is none. -/
def isWhite (white : Option (List UInt8)) (c : UInt8) : Bool :=
  match white with
  | some delimiters => c = 0 ∨ c ∈ delimiters
  | none => c ∈ [32, 9, 11, 13, 10, 12]

def wordsLoop (white : UInt8 → Bool) : Workspace → ℤ → Bool → Except Fault ℤ
  | some c :: w, wordCount, inWord =>
    if c = 0 then .ok wordCount
    else if ¬white c ∧ inWord = false then do
      wordsLoop white w (← int (wordCount + 1)) true
    else if white c ∧ inWord = true then wordsLoop white w wordCount false
    else wordsLoop white w wordCount inWord
  | _, _, _ => .error .undefined

def words (w : Workspace) (white : UInt8 → Bool) : Except Fault ℤ := wordsLoop white w 0 false

def findStart (white : UInt8 → Bool) : ℕ → Workspace → Except Fault Workspace
  | 0, start => skipWhile white start
  | offset + 1, start => do
    let start ← skipWhile white start
    let start ← skipWhile (fun c ↦ ¬white c) start
    findStart white offset start

def findEnd (white : UInt8 → Bool) : ℕ → Workspace → Except Fault Workspace
  | 0, final => .ok final
  | count + 1, final => do
    let final ← skipWhile (fun c ↦ ¬(white c ∨ c = 0)) final
    if count = 0 then return final
    else
      let final ← skipWhile white final
      findEnd white count final

def subword (w : Workspace) (offset count : ℤ) (white : UInt8 → Bool) : Except Fault Produced := do
  let offset ← int (offset - 1)
  if offset < 0 ∨ count < 0 then return .empty
  else
    let currentLength ← words w white
    if currentLength ≤ offset then return .empty
    else
      let available ← int (currentLength - offset)
      let count := if available < count then available else count
      if count = 0 then return .empty
      else
        let start ← findStart white offset.toNat w
        let final ← findEnd white count.toNat start
        let length := narrow (start.length - final.length)
        let temp ← newChars (← int (length + 1))
        let temp ← memcpy temp 0 start length
        let temp ← put temp length [0]
        return .made temp

end Workspace

end GenericFs.Spica
