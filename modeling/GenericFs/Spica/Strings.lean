import GenericFs.Spica.Memory

namespace GenericFs.Spica

open GenericFs.Library Function Workspace

/-- A C string argument: one from elsewhere, or what a string converts to. -/
inductive Chars
  | literal (t : Text)
  | of (s : ℕ)

inductive Operand
  | string (s : ℕ)
  | chars (p : Chars)
  | char (c : UInt8)

inductive Operation
  | right (length : ℤ) (pad : UInt8)
  | left (length : ℤ) (pad : UInt8)
  | center (length : ℤ) (pad : UInt8)
  | copy (count : ℤ)
  | erase (offset count : ℤ)
  | insert (incoming : ℕ) (offset count : ℤ)
  | strip (mode killChar : UInt8)
  | substr (offset count : ℤ)
  | subword (offset count : ℤ) (white : Option Chars)

inductive Op
  | construct (x : ℕ)
  | constructFrom (x : ℕ) (existing : Operand)
  | assign (x other : ℕ)
  | assignChars (x : ℕ) (other : Option Chars)
  | append (x : ℕ) (other : Operand)
  | erase (x : ℕ)
  | result (x s : ℕ) (f : Operation)
  | plus (x : ℕ) (left right : Operand)
  | destroy (x : ℕ)

/-- The strings that are alive and the nodes they refer to. -/
structure World where
  memory : Memory
  live : Finset ℕ
  rep : ℕ → ℕ

namespace World

def empty : World := ⟨Heap.empty, ∅, fun _ ↦ 0⟩

def find (w : World) (x : ℕ) : Except Fault ℕ :=
  if x ∈ w.live then .ok (w.rep x) else .error .undefined

def pointer (w : World) : Chars → Except Fault Pointer
  | .literal t => .ok (.literal t)
  | .of s => do return .workspace (← w.find s)

def white (w : World) : Option Chars → Except Fault (Option Pointer)
  | none => .ok none
  | some p => do return some (← w.pointer p)

def give (w : World) (x : ℕ) (made : ℕ × Memory) : World :=
  ⟨made.2, insert x w.live, update w.rep x made.1⟩

def constructFrom (w : World) : Operand → Except Fault (ℕ × Memory)
  | .string s => do w.memory.constructCopy (← w.find s)
  | .chars p => do w.memory.constructChars (← w.pointer p)
  | .char c => w.memory.constructChar c

def append (w : World) (m : Memory) (rep : ℕ) : Operand → Except Fault (ℕ × Memory)
  | .string s => do m.append rep (← w.find s)
  | .chars p => do m.appendChars rep (← w.pointer p)
  | .char c => m.appendChar rep c

def operate (w : World) (rep : ℕ) : Operation → Except Fault (ℕ × Memory)
  | .right length pad => w.memory.right rep length pad
  | .left length pad => w.memory.left rep length pad
  | .center length pad => w.memory.center rep length pad
  | .copy count => w.memory.copy rep count
  | .erase offset count => w.memory.eraseRange rep offset count
  | .insert incoming offset count => do w.memory.insert rep (← w.find incoming) offset count
  | .strip mode killChar => w.memory.strip rep mode killChar
  | .substr offset count => w.memory.substr rep offset count
  | .subword offset count white => do w.memory.subword rep offset count (← w.white white)

def exec (w : World) : Op → Except Fault World
  | .construct x => do return w.give x (← w.memory.construct)
  | .constructFrom x existing => do return w.give x (← w.constructFrom existing)
  | .assign x other => do
    if x = other then return w
    else return w.give x (← w.memory.assign (← w.find x) (← w.find other))
  | .assignChars _ none => .ok w
  | .assignChars x (some other) => do
    return w.give x (← w.memory.assignChars (← w.find x) (← w.pointer other))
  | .append x other => do return w.give x (← w.append w.memory (← w.find x) other)
  | .erase x => do return w.give x (← w.memory.erase (← w.find x))
  | .result x s f => do return w.give x (← w.operate (← w.find s) f)
  | .plus x left right => do
    let temp ← w.constructFrom left
    return w.give x (← w.append temp.2 temp.1 right)
  | .destroy x => do
    let m ← w.memory.release (← w.find x)
    return ⟨m, w.live.erase x, w.rep⟩

/-- How many strings other than `x` refer to the node of the string `y`. -/
def sharers (w : World) (x y : ℕ) : ℕ := ((w.live.erase x).filter (w.rep · = w.rep y)).card

end World

abbrev Values := ℕ → Option Text

section Values

variable (S : Values)

def Chars.value : Chars → Option Text
  | .literal t => some t
  | .of s => S s

def Chars.delimiters : Option Chars → Option (Option (List UInt8))
  | none => some none
  | some white => do return some (← white.value S)

def Operand.value : Operand → Option Text
  | .string s => S s
  | .chars p => p.value S
  | .char c => some [c]

def Operation.value (t : Text) : Operation → Option Text
  | .right length pad => some (t.right length pad)
  | .left length pad => some (t.left length pad)
  | .center length pad => some (t.center length pad)
  | .copy count => some (t.copy count)
  | .erase offset count => some (t.erase offset count)
  | .insert incoming offset count => do return t.insert (← S incoming) offset count
  | .strip mode killChar => some (t.strip mode killChar)
  | .substr offset count => some (t.substr offset count)
  | .subword offset count white => do
    return t.subword (isWhite (← Chars.delimiters S white)) offset count

def Op.value : Op → Values
  | .construct x => update S x (some [])
  | .constructFrom x existing => update S x (existing.value S)
  | .assign x other => update S x (S other)
  | .assignChars _ none => S
  | .assignChars x (some other) => update S x (other.value S)
  | .append x other => update S x do return (← S x) ++ (← other.value S)
  | .erase x => update S x (some [])
  | .result x s f => update S x do f.value S (← S s)
  | .plus x left right => update S x do return (← left.value S) ++ (← right.value S)
  | .destroy x => update S x none

end Values

end GenericFs.Spica
