import GenericFs.Fat.Refinement
import GenericFs.Shell.RoundTrip

namespace GenericFs.Shell

open GenericFs.Fat GenericFs.Library Machine Function Returning FileSystem

/-- What the program is for: byte strings by name, on the disk and on the host. -/
structure Desk where
  names : Finset CString
  content : CString → List UInt8
  host : CString → Option (List UInt8)
  writable : CString → Bool

namespace Desk

variable (d : Desk)

def file (name : CString) : Option (List UInt8) :=
  if name ∈ d.names then some (d.content name) else none

def used : ℕ := ∑ n ∈ d.names, blocksOf (d.content n).length

def store (name : CString) (bytes : List UInt8) : Desk :=
  { d with names := insert name d.names, content := update d.content name bytes }

def erase (name : CString) : Desk := { d with names := d.names.erase name }

def format : Desk := { d with names := ∅, content := fun _ ↦ [] }

/-- There is a file of the name, or a slot and a block for a new one. -/
def Takes (name : CString) : Prop := name ∈ d.names ∨ d.names.card < dirSize ∧ d.used < 509

/-- The number of bytes that a file of the name can hold when it is written anew. -/
def capacity (name : CString) : ℕ := 1024 * (509 - (d.store name []).used) + 1023

/-- The file takes as many of the bytes as it can hold. -/
def fill (name : CString) (bytes : List UInt8) : Desk := d.store name (bytes.take (d.capacity name))

def deliver (name : CString) (bytes : List UInt8) : Desk :=
  { d with host := update d.host name (some bytes) }

end Desk

/-- What becomes of the program after a command. -/
inductive Fate
  | goesOn
  | quits
  | throws (message : String)

def Complaints (short : Prop) (printed : List Line) : Prop :=
  ∃ n, printed = List.replicate n problem ∧ (0 < n ↔ short)

def entryOf (d : Desk) (name : CString) : Line := .entry ⟨name.bytes, (d.content name).length⟩

/-- What a command line makes of a desk, and what it prints. The order of a listing, the
number of complaints and the text of an exception are left open. -/
inductive Does (d : Desk) (line : CommandLine) : List Line → Fate → Desk → Prop
  | unknown (hc : ∀ c ∈ jumpTable, ¬Commands line c.1) :
      Does d line [.error "command unknown"] .goesOn d
  | dir (hc : Commands line "dir") : Does d line [] .goesOn d
  | exit (hc : Commands line "exit") : Does d line [] .quits d
  | format (hc : Commands line "format") : Does d line [] .goesOn d.format
  | vcopyUsage (hc : Commands line "vcopy") (hl : line.length ≠ 3) :
      Does d line [.error "usage: vcopy source destination"] .goesOn d
  | vcopyAbsent (m : String) (hc : Commands line "vcopy") (hl : line.length = 3)
      (hsrc : word line 2 ∉ d.names) : Does d line [] (.throws m) d
  | vcopyFull (m : String) (hc : Commands line "vcopy") (hl : line.length = 3)
      (hsrc : word line 2 ∈ d.names) (hdst : ¬d.Takes (word line 3)) : Does d line [] (.throws m) d
  | vcopySelf (hc : Commands line "vcopy") (hl : line.length = 3) (hsrc : word line 2 ∈ d.names)
      (hself : word line 2 = word line 3) : Does d line [] .goesOn (d.store (word line 3) [])
  | vcopy (printed : List Line) (hc : Commands line "vcopy") (hl : line.length = 3)
      (hsrc : word line 2 ∈ d.names) (hne : word line 2 ≠ word line 3)
      (hdst : d.Takes (word line 3))
      (hp : Complaints (d.capacity (word line 3) < (d.content (word line 2)).length) printed) :
      Does d line printed .goesOn (d.fill (word line 3) (d.content (word line 2)))
  | vcopyinUsage (hc : Commands line "vcopyin") (hl : line.length ≠ 3) :
      Does d line [.error "usage: vcopyin source destination"] .goesOn d
  | vcopyinAbsent (hc : Commands line "vcopyin") (hl : line.length = 3)
      (hsrc : d.host (word line 2) = none) :
      Does d line [.error "can't open input file in host file system"] .goesOn d
  | vcopyinFull (m : String) (input : List UInt8) (hc : Commands line "vcopyin")
      (hl : line.length = 3) (hsrc : d.host (word line 2) = some input)
      (hdst : ¬d.Takes (word line 3)) : Does d line [] (.throws m) d
  | vcopyin (printed : List Line) (input : List UInt8) (hc : Commands line "vcopyin")
      (hl : line.length = 3) (hsrc : d.host (word line 2) = some input)
      (hdst : d.Takes (word line 3))
      (hp : Complaints (d.capacity (word line 3) < input.length) printed) :
      Does d line printed .goesOn (d.fill (word line 3) input)
  | vcopyoutUsage (hc : Commands line "vcopyout") (hl : line.length ≠ 3) :
      Does d line [.error "usage: vcopy source destination"] .goesOn d
  | vcopyoutAbsent (m : String) (hc : Commands line "vcopyout") (hl : line.length = 3)
      (hsrc : word line 2 ∉ d.names) : Does d line [] (.throws m) d
  | vcopyoutRefused (hc : Commands line "vcopyout") (hl : line.length = 3)
      (hsrc : word line 2 ∈ d.names) (hdst : d.writable (word line 3) = false) :
      Does d line [.error "can't open output file in host file system"] .goesOn d
  | vcopyout (hc : Commands line "vcopyout") (hl : line.length = 3) (hsrc : word line 2 ∈ d.names)
      (hdst : d.writable (word line 3) = true) :
      Does d line [] .goesOn (d.deliver (word line 3) (d.content (word line 2)))
  | vdelUsage (hc : Commands line "vdel") (hl : line.length ≠ 2) :
      Does d line [.error "usage: vdel filename"] .goesOn d
  | vdel (hc : Commands line "vdel") (hl : line.length = 2) :
    Does d line [] .goesOn (d.erase (word line 2))
  | vdir (order : List CString) (hc : Commands line "vdir") (ho : order.Nodup)
      (hall : order.toFinset = d.names) : Does d line (order.map (entryOf d)) .goesOn d

/-- The session has the files of the desk. -/
structure Shows (s : Session) (d : Desk) : Prop where
  sound : ∃ chain, Consistent s.files chain ∧ Ordinary s.files ∧
    ∀ x, file s.files chain x = d.file x
  host : s.host = d.host
  writable : s.writable = d.writable

section Counting

variable {fs : FileSystem} {chain : Fin dirSize → List ℕ} {d : Desk} {i : Fin dirSize}
  {name : CString} {bytes : List UInt8}

theorem Desk.mem_names : name ∈ d.names ↔ d.file name ≠ none := by
  simp [Desk.file]

theorem Desk.content_of_file (h : d.file name = some bytes) :
    name ∈ d.names ∧ d.content name = bytes := by
  simpa [Desk.file] using h

theorem Desk.file_of_mem (h : name ∈ d.names) : d.file name = some (d.content name) := if_pos h

theorem lookup_cname (O : Ordinary fs) (hi : (fs.rootDirectory i).inUse ≠ 0) :
    fs.rootDirectory.lookup (fs.rootDirectory i).cname = some i := by
  have H : fs.rootDirectory.Holds i (fs.rootDirectory i).cname := Directory.holds_iff.mpr ⟨hi, rfl⟩
  cases hl : fs.rootDirectory.lookup (fs.rootDirectory i).cname with
  | none => exact absurd H (Directory.not_holds_of_lookup hl i)
  | some j =>
    obtain ⟨hj, hname⟩ := Directory.holds_iff.mp (Directory.holds_of_lookup hl)
    rw [O.distinct j i hj hi (congrArg CString.bytes hname)]

variable (O : Ordinary fs) (hfile : ∀ x, file fs chain x = d.file x)

include O hfile

theorem names_of_file : d.names = fs.rootDirectory.names := by
  ext x
  rw [Desk.mem_names, ← hfile, Directory.mem_names, Fat.file, ne_eq, Option.map_eq_none_iff]
  constructor
  · intro hl
    obtain ⟨i, hl⟩ := Option.ne_none_iff_exists'.mp hl
    exact ⟨i, Directory.holds_iff.mp (Directory.holds_of_lookup hl)⟩
  · rintro ⟨i, hi, rfl⟩
    rw [lookup_cname O hi]
    simp

theorem content_of_file (hi : (fs.rootDirectory i).inUse ≠ 0) :
    d.content (fs.rootDirectory i).cname = content fs chain i := by
  have h := hfile (fs.rootDirectory i).cname
  rw [Fat.file, lookup_cname O hi] at h
  exact (Desk.content_of_file h.symm).2

/-- The volume that the desk is. -/
theorem represents_of_file : Represents fs chain
    ⟨d.names, d.content, fun h ↦ fs.rootDirectory.openFile (fs.handleTable h), none⟩ where
  names := names_of_file O hfile
  content _ hi := content_of_file O hfile hi
  handle _ := rfl
  due := by simp
  listed := by simp

theorem freeCount_add_used_of_file (C : Consistent fs chain) : freeCount fs.fat + d.used = 509 :=
  (represents_of_file O hfile).freeCount_add_used C O

theorem takes_iff (C : Consistent fs chain) : d.Takes name ↔ fs.rootDirectory.lookup name ≠ none ∨
    (∃ i, (fs.rootDirectory i).inUse = 0) ∧ freeCount fs.fat ≠ 0 := by
  have hcard := (represents_of_file O hfile).card_names O
  have hfree := freeCount_add_used_of_file O hfile C
  have hmem : name ∈ d.names ↔ fs.rootDirectory.lookup name ≠ none := by
    rw [Desk.mem_names, ← hfile, Fat.file, ne_eq, Option.map_eq_none_iff]
  have hslot : d.names.card < dirSize ↔ ∃ i, (fs.rootDirectory i).inUse = 0 := by
    rw [hcard]
    constructor
    · intro hlt
      by_contra hall
      push Not at hall
      rw [Finset.filter_true_of_mem fun i _ ↦ hall i, Finset.card_univ, Fintype.card_fin] at hlt
      exact lt_irrefl _ hlt
    · rintro ⟨i, hi⟩
      have hlt := Finset.card_lt_univ_of_notMem (s := Finset.univ.filter fun i ↦
        (fs.rootDirectory i).inUse ≠ 0) (x := i) (by simp [hi])
      rwa [Fintype.card_fin] at hlt
  have hblock : d.used < 509 ↔ freeCount fs.fat ≠ 0 := by omega
  rw [Desk.Takes, hmem, hslot, hblock]

end Counting

end GenericFs.Shell
