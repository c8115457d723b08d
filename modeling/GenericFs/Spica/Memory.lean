import GenericFs.Library.Counted
import GenericFs.Spica.Scanning

namespace GenericFs.Spica

open GenericFs.Library Cells Function Workspace

abbrev Memory := Heap Workspace

/-- A C string outside of all strings, or the workspace of a string. -/
inductive Pointer
  | literal (t : Text)
  | workspace (rep : ℕ)

namespace Memory

def node (m : Memory) (rep : ℕ) : Except Fault (Counted Workspace) := inside (m.cell rep)

def chars (m : Memory) : Pointer → Except Fault Workspace
  | .literal t => .ok (image t)
  | .workspace rep => do return (← m.node rep).value

def construct (m : Memory) : Except Fault (ℕ × Memory) := do
  let workspace ← newChars 1
  let workspace ← put workspace 0 [0]
  return m.alloc workspace

def constructCopy (m : Memory) (existing : ℕ) : Except Fault (ℕ × Memory) := do
  let node ← m.node existing
  let count ← int (node.count + 1)
  return (existing, m.set existing { node with count := count })

def constructChars (m : Memory) (existing : Pointer) : Except Fault (ℕ × Memory) := do
  let existing ← m.chars existing
  let workspace ← newChars ((← strlen existing) + 1 : ℕ)
  let workspace ← strcpy workspace 0 existing
  return m.alloc workspace

def constructChar (m : Memory) (existing : UInt8) : Except Fault (ℕ × Memory) := do
  let workspace ← newChars 2
  let workspace ← put workspace 0 [existing]
  let workspace ← put workspace 1 [0]
  return m.alloc workspace

/-- What the destructor does, and every operation that gives up a node. -/
def release (m : Memory) (rep : ℕ) : Except Fault Memory := do
  let node ← m.node rep
  if 1 < node.count then return m.set rep { node with count := node.count - 1 }
  else return m.free rep

def exchange (rep : ℕ) (made : ℕ × Memory) : Except Fault (ℕ × Memory) := do
  return (made.1, ← made.2.release rep)

def assign (m : Memory) (rep other : ℕ) : Except Fault (ℕ × Memory) := do
  let m ← m.release rep
  m.constructCopy other

def assignChars (m : Memory) (rep : ℕ) (other : Pointer) : Except Fault (ℕ × Memory) := do
  exchange rep (← m.constructChars other)

def appendChars (m : Memory) (rep : ℕ) (other : Pointer) : Except Fault (ℕ × Memory) := do
  let own ← m.chars (.workspace rep)
  let other ← m.chars other
  let count := narrow ((← strlen own) + (← strlen other))
  let workspace ← newChars (← int (count + 1))
  let workspace ← strcpy workspace 0 own
  let workspace ← strcat workspace other
  exchange rep (m.alloc workspace)

def append (m : Memory) (rep other : ℕ) : Except Fault (ℕ × Memory) :=
  m.appendChars rep (.workspace other)

def appendChar (m : Memory) (rep : ℕ) (other : UInt8) : Except Fault (ℕ × Memory) := do
  let own ← m.chars (.workspace rep)
  let count := narrow ((← strlen own) + 1)
  let workspace ← newChars (← int (count + 1))
  let workspace ← strcpy workspace 0 own
  let workspace ← put workspace (← int (count - 1)) [other]
  let workspace ← put workspace count [0]
  exchange rep (m.alloc workspace)

def erase (m : Memory) (rep : ℕ) : Except Fault (ℕ × Memory) := do
  exchange rep (← m.construct)

def finish (m : Memory) (result rep : ℕ) : Produced → Except Fault (ℕ × Memory)
  | .empty => .ok (result, m)
  | .made temp => do
    let node ← m.node result
    return (result, m.set result { node with value := temp })
  | .same => m.assign result rep

/-- A non-mutating operation, given by what it makes of the workspace. -/
def produce (m : Memory) (rep : ℕ) (f : Workspace → Except Fault Produced) :
    Except Fault (ℕ × Memory) := do
  let (result, m) ← m.construct
  let own ← m.chars (.workspace rep)
  m.finish result rep (← f own)

def right (m : Memory) (rep : ℕ) (length : ℤ) (pad : UInt8) : Except Fault (ℕ × Memory) :=
  m.produce rep (Workspace.right · length pad)

def left (m : Memory) (rep : ℕ) (length : ℤ) (pad : UInt8) : Except Fault (ℕ × Memory) :=
  m.produce rep (Workspace.left · length pad)

def center (m : Memory) (rep : ℕ) (length : ℤ) (pad : UInt8) : Except Fault (ℕ × Memory) := do
  let (result, m) ← m.construct
  if length ≤ 0 then return (result, m)
  else
    let own ← m.chars (.workspace rep)
    let currentLength := narrow (← strlen own)
    if length ≤ currentLength then
      exchange result (← m.left rep length pad)
    else
      m.finish result rep (← centerWide own length currentLength pad)

def copy (m : Memory) (rep : ℕ) (count : ℤ) : Except Fault (ℕ × Memory) :=
  m.produce rep (Workspace.copy · count)

def eraseRange (m : Memory) (rep : ℕ) (offset count : ℤ) : Except Fault (ℕ × Memory) :=
  m.produce rep (Workspace.erase · offset count)

def insert (m : Memory) (rep incoming : ℕ) (offset count : ℤ) : Except Fault (ℕ × Memory) := do
  let incoming ← m.chars (.workspace incoming)
  m.produce rep (Workspace.insert · incoming offset count)

def strip (m : Memory) (rep : ℕ) (mode killChar : UInt8) : Except Fault (ℕ × Memory) :=
  m.produce rep (Workspace.strip · mode killChar)

def substr (m : Memory) (rep : ℕ) (offset count : ℤ) : Except Fault (ℕ × Memory) :=
  m.produce rep (Workspace.substr · offset count)

def delimiters (m : Memory) : Option Pointer → Except Fault (Option (List UInt8))
  | none => .ok none
  | some white => do return some (← inside (cstring (← m.chars white)))

def subword (m : Memory) (rep : ℕ) (offset count : ℤ) (white : Option Pointer) :
    Except Fault (ℕ × Memory) := do
  let white ← m.delimiters white
  m.produce rep (Workspace.subword · offset count (isWhite white))

end Memory

/-- What holds the nodes of the strings with the addresses `R` as the texts `T`. -/
structure Sharing (m : Memory) (R : Multiset ℕ) (T : ℕ → Text) : Prop where
  holds : m.Holds R (fun a ↦ image (T a))
  clean : ∀ a ∈ R, 0 ∉ T a

/-- The call returns a node with the text `t`, and the others keep theirs. -/
def Gives (e : Except Fault (ℕ × Memory)) (R : Multiset ℕ) (T : ℕ → Text) (t : Text) : Prop :=
  ∃ a m T', e = .ok (a, m) ∧ Sharing m (a ::ₘ R) T' ∧ T' a = t ∧ ∀ b ∈ R, T' b = T b

namespace Sharing

variable {m : Memory} {R : Multiset ℕ} {T : ℕ → Text} {t : Text} {a b : ℕ}

theorem node (h : Sharing m R T) (ha : a ∈ R) : m.node a = .ok ⟨R.count a, image (T a)⟩ := by
  rw [Memory.node, h.holds.owned a ha, inside]

theorem chars (h : Sharing m R T) (ha : a ∈ R) : m.chars (.workspace a) = .ok (image (T a)) := by
  rw [Memory.chars, h.node ha, ok_bind]
  rfl

theorem alloc (h : Sharing m R T) (ht : 0 ∉ t) : Gives (.ok (m.alloc (image t))) R T t := by
  have hne : ∀ b ∈ R, b ≠ m.next := fun b hb he ↦ h.holds.next_notMem (he ▸ hb)
  refine ⟨m.next, _, update T m.next t, rfl, ⟨?_, ?_⟩, update_self .., ?_⟩
  · refine h.holds.alloc.congr (fun b _ ↦ ?_)
    rcases eq_or_ne b m.next with rfl | hb
    · rw [update_self, update_self]
    · rw [update_of_ne hb, update_of_ne hb]
  · intro b hb
    rcases eq_or_ne b m.next with rfl | hb'
    · rwa [update_self]
    · rw [update_of_ne hb']
      exact h.clean b ((Multiset.mem_cons.mp hb).resolve_left hb')
  · intro b hb
    exact update_of_ne (hne b hb) _ _

theorem construct_eq : m.construct = .ok (m.alloc (image [])) := by
  have hput : put (filled [] 1) 0 [0] = .ok (image []) := put_terminator (t := [])
  have hnew : newChars 1 = .ok (filled [] 1) := newChars_natCast (n := 1)
  rw [Memory.construct, hnew, ok_bind, hput, ok_bind]
  rfl

theorem construct (h : Sharing m R T) : Gives m.construct R T [] := by
  rw [construct_eq]
  exact h.alloc List.not_mem_nil

theorem constructCopy (h : Sharing m R T) (ha : a ∈ R) (hcount : R.count a < intMax) :
    Gives (m.constructCopy a) R T (T a) := by
  refine ⟨a, _, T, ?_, ⟨h.holds.share ha, ?_⟩, rfl, fun _ _ ↦ rfl⟩
  · rw [Memory.constructCopy, h.node ha, ok_bind, int_succ hcount, ok_bind, Nat.cast_succ]
    rfl
  · intro b hb
    exact h.clean b ((Heap.Holds.mem_cons_iff ha).mp hb)

theorem strcpy_fresh (ht : 0 ∉ t) :
    strcpy (filled [] (t.length + 1)) 0 (image t) = .ok (image t) := by
  rw [strcpy_image ht, image_eq]
  exact put_fresh (by simp)

theorem constructChars (h : Sharing m R T) {p : Pointer} (hp : m.chars p = .ok (image t))
    (ht : 0 ∉ t) : Gives (m.constructChars p) R T t := by
  rw [Memory.constructChars, hp, ok_bind, strlen_image ht, ok_bind, newChars_natCast, ok_bind,
    strcpy_fresh ht, ok_bind]
  exact h.alloc ht

theorem constructChar (h : Sharing m R T) {c : UInt8} (hc : c ≠ 0) :
    Gives (m.constructChar c) R T [c] := by
  have hnew : newChars 2 = .ok (filled [] 2) := newChars_natCast (n := 2)
  have hput : put (filled [] 2) 0 [c] = .ok (filled [c] 1) := put_fresh (t := [c]) rfl
  have hend : put (filled [c] 1) 1 [0] = .ok (image [c]) := put_terminator (t := [c])
  rw [Memory.constructChar, hnew, ok_bind, hput, ok_bind, hend, ok_bind]
  exact h.alloc (by simpa using hc.symm)

theorem release (h : Sharing m (a ::ₘ R) T) : ∃ m', m.release a = .ok m' ∧ Sharing m' R T := by
  have hclean : ∀ b ∈ R, 0 ∉ T b := fun b hb ↦ h.clean b (Multiset.mem_cons_of_mem hb)
  rw [Memory.release, h.node (Multiset.mem_cons_self a R), ok_bind]
  by_cases ha : a ∈ R
  · have hcount : (1 : ℤ) < (a ::ₘ R).count a := by
      have hpos := Multiset.count_pos.mpr ha
      rw [Multiset.count_cons_self]
      omega
    have hunshare := h.holds.unshare ha
    rw [if_pos hcount]
    refine ⟨_, rfl, ?_, hclean⟩
    simpa using hunshare
  · have hcount : ¬(1 : ℤ) < (a ::ₘ R).count a := by
      rw [Multiset.count_cons_self, Multiset.count_eq_zero_of_notMem ha]
      decide
    rw [if_neg hcount]
    exact ⟨_, rfl, h.holds.free ha, hclean⟩

end Sharing

namespace Gives

variable {m : Memory} {R : Multiset ℕ} {T : ℕ → Text} {t : Text} {a b : ℕ}
  {e : Except Fault (ℕ × Memory)}

theorem exchange (h : Gives e (a ::ₘ R) T t) : Gives (e >>= Memory.exchange a) R T t := by
  obtain ⟨b, m, T', rfl, hshare, htext, hkeep⟩ := h
  rw [Multiset.cons_swap] at hshare
  obtain ⟨m', hrelease, hshare'⟩ := hshare.release
  refine ⟨b, m', T', ?_, hshare', htext, fun c hc ↦ hkeep c (Multiset.mem_cons_of_mem hc)⟩
  rw [ok_bind, Memory.exchange, hrelease, ok_bind]
  rfl

end Gives

namespace Sharing

variable {m : Memory} {R : Multiset ℕ} {T : ℕ → Text} {t : Text} {a b : ℕ}

theorem assign (h : Sharing m (a ::ₘ R) T) (hb : b ∈ R) (hcount : R.count b < intMax) :
    Gives (m.assign a b) R T (T b) := by
  obtain ⟨m', hrelease, h'⟩ := h.release
  rw [Memory.assign, hrelease, ok_bind]
  exact h'.constructCopy hb hcount

theorem assignChars (h : Sharing m (a ::ₘ R) T) {p : Pointer} (hp : m.chars p = .ok (image t))
    (ht : 0 ∉ t) : Gives (m.assignChars a p) R T t :=
  (h.constructChars hp ht).exchange

theorem appendChars (h : Sharing m (a ::ₘ R) T) {p : Pointer} (hp : m.chars p = .ok (image t))
    (ht : 0 ∉ t) (hfit : (T a).length + t.length < intMax) :
    Gives (m.appendChars a p) R T (T a ++ t) := by
  have ha : 0 ∉ T a := h.clean a (Multiset.mem_cons_self a R)
  have hcopy : strcpy (filled [] ((T a).length + t.length + 1)) 0 (image (T a)) =
      .ok (filled (T a ++ [0]) t.length) := by
    rw [strcpy_image ha]
    exact put_fresh (by simp; omega)
  have hcat : strcat (filled (T a ++ [0]) t.length) (image t) = .ok (image (T a ++ t)) := by
    rw [image_eq (t := T a ++ t)]
    exact strcat_filled ht ha rfl
  rw [Memory.appendChars, h.chars (Multiset.mem_cons_self a R), ok_bind, hp, ok_bind,
    strlen_image ha, ok_bind, strlen_image ht, ok_bind, narrow_eq hfit.le]
  dsimp only
  rw [int_succ hfit, ok_bind, newChars_natCast, ok_bind, hcopy, ok_bind, hcat, ok_bind]
  exact (h.alloc (by simp [ha, ht])).exchange

theorem append (h : Sharing m (a ::ₘ R) T) (hb : b ∈ a ::ₘ R)
    (hfit : (T a).length + (T b).length < intMax) : Gives (m.append a b) R T (T a ++ T b) :=
  h.appendChars (h.chars hb) (h.clean b hb) hfit

theorem appendChar (h : Sharing m (a ::ₘ R) T) {c : UInt8} (hc : c ≠ 0)
    (hfit : (T a).length + 1 < intMax) : Gives (m.appendChar a c) R T (T a ++ [c]) := by
  have ha : 0 ∉ T a := h.clean a (Multiset.mem_cons_self a R)
  have hcopy : strcpy (filled [] ((T a).length + 1 + 1)) 0 (image (T a)) =
      .ok (filled (T a ++ [0]) 1) := by
    rw [strcpy_image ha]
    exact put_fresh (by simp)
  have hlast : int (((T a).length + 1 : ℕ) - 1 : ℤ) = .ok ((T a).length : ℤ) := by
    rw [Nat.cast_succ, add_sub_cancel_right, int_natCast (by omega)]
  have hput : put (filled (T a ++ [0]) 1) (T a).length [c] = .ok (filled (T a ++ [c]) 1) :=
    put_over (by simp) rfl
  have hend : put (filled (T a ++ [c]) 1) ((T a).length + 1 : ℕ) [0] =
      .ok (image (T a ++ [c])) := by
    have hput := put_terminator (t := T a ++ [c])
    rwa [List.length_append, List.length_singleton] at hput
  rw [Memory.appendChar, h.chars (Multiset.mem_cons_self a R), ok_bind, strlen_image ha, ok_bind,
    narrow_eq hfit.le]
  dsimp only
  rw [int_succ hfit, ok_bind, newChars_natCast, ok_bind, hcopy, ok_bind, hlast, ok_bind, hput,
    ok_bind, hend, ok_bind]
  exact (h.alloc (by simp [ha, hc.symm])).exchange

theorem erase (h : Sharing m (a ::ₘ R) T) : Gives (m.erase a) R T [] :=
  h.construct.exchange

theorem store (h : Sharing m (a ::ₘ R) T) (ha : a ∉ R) (ht : 0 ∉ t) :
    Gives (.ok (a, m.set a ⟨1, image t⟩)) R T t := by
  have hne : ∀ b ∈ R, b ≠ a := fun b hb he ↦ ha (he ▸ hb)
  refine ⟨a, _, update T a t, rfl, ⟨?_, ?_⟩, update_self .., fun b hb ↦ update_of_ne (hne b hb) _ _⟩
  · refine (h.holds.store ha).congr (fun b _ ↦ ?_)
    rcases eq_or_ne b a with rfl | hb
    · rw [update_self, update_self]
    · rw [update_of_ne hb, update_of_ne hb]
  · intro b hb
    rcases eq_or_ne b a with rfl | hb'
    · rwa [update_self]
    · rw [update_of_ne hb']
      exact h.clean b hb

theorem finish {self : Prop} {p : Except Fault Produced} (h : Sharing m (b ::ₘ R) T)
    (hb : b ∉ R) (hb0 : T b = []) (ha : a ∈ R) (hp : Makes p (T a) self t) (ht : 0 ∉ t)
    (hself : self → R.count a < intMax) : Gives (p >>= m.finish b a) R T t := by
  obtain ⟨rfl, rfl⟩ | rfl | ⟨hsame, rfl, rfl⟩ := hp
  · exact ⟨b, m, T, rfl, h, hb0, fun _ _ ↦ rfl⟩
  · have hnode := h.node (Multiset.mem_cons_self b R)
    rw [Multiset.count_cons_self, Multiset.count_eq_zero_of_notMem hb] at hnode
    rw [ok_bind, Memory.finish, hnode, ok_bind]
    exact h.store hb ht
  · exact h.assign ha (hself hsame)

end Sharing

theorem Sharing.result {m : Memory} {R : Multiset ℕ} {T : ℕ → Text} (h : Sharing m R T) :
    ∃ b m' T', m.construct = .ok (b, m') ∧ Sharing m' (b ::ₘ R) T' ∧ b ∉ R ∧ T' b = [] ∧
      ∀ c ∈ R, T' c = T c := by
  obtain ⟨b, m', T', he, hshare, htext, hkeep⟩ := h.construct
  refine ⟨b, m', T', he, hshare, ?_, htext, hkeep⟩
  rw [construct_eq] at he
  cases he
  exact h.holds.next_notMem

section Produce

variable {m : Memory} {R : Multiset ℕ} {T : ℕ → Text} {t : Text} {a b : ℕ} {self : Prop}
  {length : ℤ} {pad : UInt8}

theorem Gives.congr {T' : ℕ → Text} {e : Except Fault (ℕ × Memory)} (h : Gives e R T' t)
    (hkeep : ∀ c ∈ R, T' c = T c) : Gives e R T t := by
  obtain ⟨b, m', T'', he, hshare, htext, hkeep'⟩ := h
  exact ⟨b, m', T'', he, hshare, htext, fun c hc ↦ (hkeep' c hc).trans (hkeep c hc)⟩

theorem Sharing.produce {f : Workspace → Except Fault Produced} (h : Sharing m R T) (ha : a ∈ R)
    (hf : Makes (f (image (T a))) (T a) self t) (ht : 0 ∉ t) (hself : self → R.count a < intMax) :
    Gives (m.produce a f) R T t := by
  obtain ⟨b, m', T', hconstruct, h', hb, hb0, hkeep⟩ := h.result
  have hchars := h'.chars (Multiset.mem_cons_of_mem ha)
  rw [hkeep a ha] at hchars
  rw [Memory.produce, hconstruct, ok_bind]
  dsimp only
  rw [hchars, ok_bind]
  rw [← hkeep a ha] at hf
  rw [← hkeep a ha]
  exact (h'.finish hb hb0 ha hf ht hself).congr hkeep

theorem Sharing.center (h : Sharing m R T) (ha : a ∈ R) (ht : 0 ∉ (T a).center length pad)
    (hfit : 0 < length → (T a).length ≤ intMax ∧ length < intMax) :
    Gives (m.center a length pad) R T ((T a).center length pad) := by
  obtain ⟨b, m', T', hconstruct, h', hb, hb0, hkeep⟩ := h.result
  rw [Memory.center, hconstruct, ok_bind]
  dsimp only
  split
  case isTrue hle =>
    refine ⟨b, m', T', rfl, h', ?_, hkeep⟩
    simp [hb0, Text.center, Int.toNat_of_nonpos hle]
  case isFalse hpos =>
    obtain ⟨hlen, hmax⟩ := hfit (not_le.mp hpos)
    have ha' : a ∈ b ::ₘ R := Multiset.mem_cons_of_mem ha
    have hclean : 0 ∉ T' a := h'.clean a ha'
    rw [← hkeep a ha] at ht hlen ⊢
    rw [h'.chars ha', ok_bind, strlen_image hclean, ok_bind, narrow_eq hlen]
    split
    case isTrue hle =>
      rw [Text.center_eq_left hle] at ht ⊢
      have hleft : Gives (m'.left a length pad) (b ::ₘ R) T' ((T' a).left length pad) :=
        h'.produce ha' (left_makes hclean (fun _ ↦ ⟨hlen, hmax⟩)) ht False.elim
      exact hleft.exchange.congr hkeep
    case isFalse hlt =>
      have hwide : centerWide (image (T' a)) length (T' a).length pad = _ :=
        centerWide_image hclean (by omega) hmax
      exact (h'.finish hb hb0 ha (.inr (.inl hwide)) ht False.elim).congr hkeep

end Produce

end GenericFs.Spica
