import GenericFs.Fat.Intact

namespace GenericFs.Fat

open GenericFs.Library Chain Machine Function FileSystem

/-- An open file of a volume: the name, the mode and the place in its bytes. -/
structure OpenFile where
  name : CString
  mode : OpenMode
  position : ℕ

/-- A directory scan: the files that are still due to be listed, and those that
were listed already. -/
structure Scan where
  due : Finset CString
  listed : Finset CString

def Scan.drop (s : Scan) (n : CString) : Scan := ⟨s.due.erase n, s.listed.erase n⟩

/-- The purpose of the file system: a map from names to byte strings, with
handles into it. No scan means that none was begun. -/
structure Volume where
  names : Finset CString
  content : CString → List UInt8
  handle : Fin handleTableSize → Option OpenFile
  scan : Option Scan

namespace Volume

def used (v : Volume) : ℕ := ∑ n ∈ v.names, blocksOf (v.content n).length

def room (v : Volume) (n : CString) : ℕ :=
  1024 * (509 - v.used) + 1023 - (v.content n).length % 1024

def Writing (v : Volume) : Prop := ∃ h f, v.handle h = some f ∧ f.mode = .WRITE

/-- What a call gives on a volume, and the volume after it. Which handle `open`
takes and the order in which a scan lists the files are left open. -/
inductive Step (v : Volume) : Call × Outcome → Volume → Prop
  | format : Step v (.format, .ok .unit)
      { v with names := ∅, content := fun _ ↦ [], scan := v.scan.map fun _ ↦ ⟨∅, ∅⟩ }
  | openFails (name mode m) (h : (∀ h, v.handle h ≠ none) ∨ name ∉ v.names ∧
      (mode = .READ ∨ v.names.card = dirSize ∨ v.used = 509)) :
      Step v (.open name mode, .error (.thrown m)) v
  | openFile (name mode) (h : Fin handleTableSize) (hh : v.handle h = none) (hn : name ∈ v.names) :
      Step v (.open name mode, .ok (.handle h)) { v with handle := update v.handle h (some
        { name, mode, position := if mode = .READ then 0 else (v.content name).length }) }
  | create (name) (h : Fin handleTableSize) (hh : v.handle h = none) (hn : name ∉ v.names)
      (hslot : v.names.card < dirSize) (hblock : v.used < 509) :
      Step v (.open name .WRITE, .ok (.handle h)) { v with
        names := insert name v.names
        content := update v.content name []
        handle := update v.handle h (some { name, mode := .WRITE, position := 0 }) }
  | readFails (handle count : ℤ) (m) (hno : ∀ (h : Fin handleTableSize) f, handle = h →
      v.handle h = some f → f.mode ≠ .READ) : Step v (.read handle count, .error (.thrown m)) v
  | read (h : Fin handleTableSize) (count : ℤ) (f bytes) (hf : v.handle h = some f)
      (hm : f.mode = .READ) (hb : bytes = ((v.content f.name).drop f.position).take count.toNat) :
      Step v (.read h count, .ok (.bytes bytes.length bytes))
        { v with handle := update v.handle h (some { f with position := f.position + bytes.length }) }
  | writeFails (handle : ℤ) (buffer) (count : ℤ) (m) (hno : ∀ (h : Fin handleTableSize) f,
      handle = h → v.handle h = some f → f.mode ≠ .WRITE) :
      Step v (.write handle buffer count, .error (.thrown m)) v
  | write (h : Fin handleTableSize) (buffer : List UInt8) (count : ℤ) (f) (r : ℕ)
      (hf : v.handle h = some f) (hm : f.mode = .WRITE) (hr : r = min count.toNat (v.room f.name)) :
      Step v (.write h buffer count, .ok (.count r)) { v with
        content := update v.content f.name (v.content f.name ++ buffer.take r)
        handle := update v.handle h (some { f with position := f.position + r }) }
  | closeFails (handle : ℤ) (m) (hno : ∀ h : Fin handleTableSize, handle = h → v.handle h = none) :
      Step v (.close handle, .error (.thrown m)) v
  | close (h : Fin handleTableSize) (hh : v.handle h ≠ none) :
      Step v (.close h, .ok .unit) { v with handle := update v.handle h none }
  | truncateNothing (name) (hn : name ∉ v.names) : Step v (.truncate name, .ok .unit) v
  | truncate (name) (hn : name ∈ v.names) :
      Step v (.truncate name, .ok .unit) { v with content := update v.content name [] }
  | removeNothing (name) (hn : name ∉ v.names) : Step v (.remove name, .ok .unit) v
  | remove (name) (hn : name ∈ v.names) : Step v (.remove name, .ok .unit)
      { v with names := v.names.erase name, scan := v.scan.map (·.drop name) }
  | openDir : Step v (.openDir, .ok .unit) { v with scan := some ⟨v.names, ∅⟩ }
  | nextDir (name s) (hs : v.scan = some s) (hn : name ∈ v.names) (hl : name ∉ s.listed) :
      Step v (.nextDir, .ok (.entry (some { name := name.bytes, size := (v.content name).length })))
        { v with scan := some ⟨s.due.erase name, insert name s.listed⟩ }
  | nextDirEnd (s) (hs : v.scan = some s) (hd : s.due = ∅) : Step v (.nextDir, .ok (.entry none)) v
  | nextDirUndefined (info) (hs : v.scan = none) : Step v (.nextDir, .ok (.entry info)) v
  | freeSpace : Step v (.freeSpace, .ok (.count (1024 * (509 - v.used)))) v
  | checkFails (m) (hw : v.Writing) : Step v (.check, .error (.thrown m)) v
  | check (hw : ¬v.Writing) : Step v (.check, .ok .unit) v

def blank : Volume := ⟨∅, fun _ ↦ [], fun _ ↦ none, none⟩

end Volume

end GenericFs.Fat
