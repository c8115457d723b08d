import GenericFs.Library.Refining
import GenericFs.Disktool.Partition

namespace GenericFs.Disktool

open GenericFs.Library

/-- What a function of curses does to the screen. -/
inductive Call
  | clear
  | move (row col : ℕ)
  | text (s : String)
  | echo (keys : List UInt8)
  deriving DecidableEq

/-- How the tool stops inside a function: by a fault, or because nothing more is typed. -/
inductive Stop
  | fault (f : Fault)
  | waiting

/-- What is still to be typed, what was written, and how often the tool asked for the time or
for memory. -/
structure Terminal where
  keys : List UInt8
  calls : List Call
  asked : ℕ

abbrev Dialog := EStateM Stop Terminal

/-- The window and the functions of the libraries. `lineInput` is what curses makes of the keys
when it reads a line: the line, and the number of keys that it took, if a key ended the line. -/
structure World where
  lines : ℕ
  time : ℕ → ℕ
  ctime : ℕ → String
  malloc : ℕ → Bool
  lineInput : List UInt8 → Option (List UInt8 × ℕ)

section Printing

def unsigned (v : ℕ) : String := toString v

/-- `%d` of a word. -/
def decimal (v : ℕ) : String := toString (Int.bmod v (2 ^ 32))

def padded (c : Char) (width : ℕ) (s : String) : String := "".pushn c (width - s.length) ++ s

/-- `%09d` of a word. -/
def zeroPadded (width v : ℕ) : String :=
  let z := Int.bmod v (2 ^ 32)
  if z < 0 then "-" ++ padded '0' (width - 1) (toString z.natAbs) else padded '0' width (toString z)

def hexadecimal (v : ℕ) : String := String.ofList ((Nat.toDigits 16 v).map Char.toUpper)

def octal (v : ℕ) : String := String.ofList (Nat.toDigits 8 v)

def characters (bytes : List UInt8) : String := String.ofList (bytes.map fun b ↦ Char.ofNat b.toNat)

def mvprintw (row col : ℕ) (s : String) : List Call := [.move row col, .text s]

def send (calls : List Call) : Dialog Unit := modify fun t ↦ { t with calls := t.calls ++ calls }

end Printing

section Typing

def getch : Dialog UInt8 := do
  let t ← get
  match t.keys with
  | [] => throw .waiting
  | key :: keys =>
    set { t with keys }
    return key

def after (key : UInt8) : List UInt8 → Option (List UInt8)
  | [] => none
  | k :: keys => if k = key then some keys else after key keys

def await (key : UInt8) : Dialog Unit := do
  let t ← get
  match after key t.keys with
  | none =>
    set { t with keys := [] }
    throw .waiting
  | some keys => set { t with keys }

def continueMessage (w : World) : Dialog Unit := do
  send (mvprintw (w.lines - 1) 1 "Hit RETURN to continue...")
  await 0x0D

/-- The line that `scanw` reads; curses shows the keys as it takes them. -/
def getLine (w : World) : Dialog (List UInt8) := do
  let t ← get
  match w.lineInput t.keys with
  | none =>
    set { t with keys := [], calls := t.calls ++ [Call.echo t.keys] }
    throw .waiting
  | some (line, taken) =>
    set { t with keys := t.keys.drop taken, calls := t.calls ++ [Call.echo (t.keys.take taken)] }
    return line

def isspace (c : UInt8) : Bool := 0x09 ≤ c ∧ c ≤ 0x0D ∨ c = 0x20

def isdigit (c : UInt8) : Bool := 0x30 ≤ c ∧ c ≤ 0x39

def digitsValue (digits : List UInt8) : ℕ := digits.foldl (fun n c ↦ 10 * n + (c.toNat - 0x30)) 0

def scanNumber (line : List UInt8) : Option ℤ :=
  let line := (line.takeWhile (· ≠ 0)).dropWhile isspace
  let signed := line.head? = some 0x2D ∨ line.head? = some 0x2B
  let digits := (if signed then line.tail else line).takeWhile isdigit
  if digits.isEmpty then none
  else if line.head? = some 0x2D then some (-digitsValue digits) else some (digitsValue digits)

def scanString (w : World) : Dialog (Option (List UInt8)) := do
  let line ← getLine w
  let s := ((line.takeWhile (· ≠ 0)).dropWhile isspace).takeWhile fun c ↦ !isspace c
  return if s.isEmpty then none else some s

/-- `scanw("%u", ..)`; a number that has no `unsigned int` is not defined. -/
def scanUnsigned (w : World) : Dialog (Option ℕ) := do
  let line ← getLine w
  match scanNumber line with
  | none => return none
  | some z => if z.natAbs < 2 ^ 32 then return some (z % 2 ^ 32).toNat else throw (.fault .undefined)

def scanInt (w : World) : Dialog (Option ℤ) := do
  let line ← getLine w
  match scanNumber line with
  | none => return none
  | some z => if -2 ^ 31 ≤ z ∧ z < 2 ^ 31 then return some z else throw (.fault .undefined)

def time (w : World) : Dialog ℕ := do
  let t ← get
  set { t with asked := t.asked + 1 }
  return w.time t.asked

def malloc (w : World) : Dialog Bool := do
  let t ← get
  set { t with asked := t.asked + 1 }
  return w.malloc t.asked

/-- The prompt between two pages; the result tells whether the user has enough. -/
def turnPage (w : World) : Dialog Bool := do
  send (mvprintw (w.lines - 1) 1 "Press Enter to continue; 'q' to quit... ")
  let key ← getch
  send [.clear]
  return key = 0x71

/-- `n * (LINES - 2)` where it meets an `unsigned int`. -/
def period (w : World) (n : ℕ) : ℕ := (n * ((w.lines : ℤ) - 2) % 2 ^ 32).toNat

def pause (w : World) (n counter : ℕ) : Dialog Bool :=
  if period w n = 0 then throw (.fault .undefined)
  else if counter % period w n = 0 then turnPage w
  else return false

end Typing

end GenericFs.Disktool
