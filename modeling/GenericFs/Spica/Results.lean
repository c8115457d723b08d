import GenericFs.Library.Ensuring
import GenericFs.Spica.Memory

namespace GenericFs.Spica

open GenericFs.Library Cells Ensuring Function Workspace

/-- The workspace of the `String` that a non-mutating operation returns. -/
def Produced.workspace (own : Workspace) : Produced → Workspace
  | .empty => image []
  | .made temp => temp
  | .same => own

@[simp] theorem Produced.workspace_empty {own : Workspace} :
    Produced.empty.workspace own = image [] :=
  rfl

@[simp] theorem Produced.workspace_made {own temp : Workspace} :
    (Produced.made temp).workspace own = temp := rfl

@[simp] theorem Produced.workspace_same {own : Workspace} : Produced.same.workspace own = own := rfl

theorem Makes.exists_workspace {e : Except Fault Produced} {t r : Text} {self : Prop}
    (h : Makes e t self r) : ∃ p, e = .ok p ∧ p.workspace (image t) = image r := by
  obtain ⟨hempty, rfl⟩ | hmade | ⟨-, hsame, rfl⟩ := h
  · exact ⟨_, hempty, rfl⟩
  · exact ⟨_, hmade, rfl⟩
  · exact ⟨_, hsame, rfl⟩

theorem Makes.workspace_eq {e : Except Fault Produced} {t r : Text} {self : Prop} {p : Produced}
    (h : Makes e t self r) (hp : e = .ok p) : p.workspace (image t) = image r := by
  obtain ⟨p', hp', hr⟩ := h.exists_workspace
  cases hp.symm.trans hp'
  exact hr

theorem Makes.eq_nil {t u : Text} {self : Prop} (h : Makes (.ok .empty) t self u) : u = [] := by
  obtain ⟨-, hnil⟩ | hmade | ⟨-, hsame, -⟩ := h
  · exact hnil
  · cases hmade
  · cases hsame

def Workspace.center (w : Workspace) (length : ℤ) (pad : UInt8) : Except Fault Produced := do
  if length ≤ 0 then return .empty
  else
    let currentLength := narrow (← strlen w)
    if length ≤ currentLength then left w length pad
    else centerWide w length currentLength pad

section Made

variable {w : Workspace} {length currentLength : ℤ} {pad : UInt8}

theorem left_made (h : 0 < length) :
    Ensures (left w length pad) fun p ↦ ∃ temp, p = .made temp := by
  rw [left, if_neg (not_le.mpr h)]
  refine .always fun currentLength ↦ ?_
  dsimp only
  split
  · exact .always fun _ ↦ .always fun _ ↦ .always fun _ ↦ .always fun temp ↦ .ok ⟨temp, rfl⟩
  · exact .always fun _ ↦ .always fun _ ↦ .always fun _ ↦ .always fun _ ↦ .always fun _ ↦
      .always fun temp ↦ .ok ⟨temp, rfl⟩

theorem centerWide_made : Ensures (centerWide w length currentLength pad)
    fun p ↦ ∃ temp, p = .made temp := by
  refine .always fun _ ↦ .always fun _ ↦ .always fun _ ↦ .always fun _ ↦ .always fun _ ↦ ?_
  exact .always fun _ ↦ .always fun _ ↦ .always fun _ ↦ .always fun _ ↦ .always fun temp ↦
    .ok ⟨temp, rfl⟩

end Made

/-- The call returns a `String` exactly if the operation makes something of the workspace
`own`, and then this is what the `String` has. -/
def Carries (e : Except Fault (ℕ × Memory)) (p : Except Fault Produced) (own : Workspace) : Prop :=
  ∀ u, (∃ rep m, e = .ok (rep, m) ∧ m.chars (.workspace rep) = .ok u) ↔
    ∃ q, p = .ok q ∧ q.workspace own = u

section Carrying

variable {m : Memory} {rep result : ℕ} {node : Counted Workspace} {q : Produced}
  {own temp : Workspace} {f : Workspace → Except Fault Produced} {length : ℤ} {pad : UInt8}

theorem Carries.of_ok (h : m.chars (.workspace rep) = .ok (q.workspace own)) :
    Carries (.ok (rep, m)) (.ok q) own := by
  intro u
  constructor
  · rintro ⟨_, _, ⟨⟩, hu⟩
    exact ⟨q, rfl, Except.ok.inj (h.symm.trans hu)⟩
  · rintro ⟨_, ⟨⟩, rfl⟩
    exact ⟨rep, m, rfl, h⟩

theorem Carries.of_error {x y : Fault} : Carries (.error x) (.error y) own := by
  intro u
  constructor
  · rintro ⟨_, _, h, -⟩
    cases h
  · rintro ⟨_, h, -⟩
    cases h

theorem chars_of_cell (h : m.cell rep = some node) : m.chars (.workspace rep) = .ok node.value := by
  rw [Memory.chars, Memory.node, h]
  rfl

theorem chars_set : Memory.chars (m.set rep node) (.workspace rep) = .ok node.value :=
  chars_of_cell (update_self ..)

theorem cell_alloc (hrep : rep < m.next) (h : m.cell rep = some node) :
    (m.alloc temp).2.cell rep = some node :=
  (update_of_ne hrep.ne _ _).trans h

theorem cell_alloc_next : (m.alloc temp).2.cell m.next = some ⟨1, temp⟩ := update_self ..

theorem finish_made (h : m.cell result = some node) : m.finish result rep (.made temp) =
    .ok (result, m.set result { node with value := temp }) := by
  rw [Memory.finish, Memory.node, h]
  rfl

theorem release_single {v : Workspace} (h : m.cell rep = some ⟨1, v⟩) :
    m.release rep = .ok (m.free rep) := by
  rw [Memory.release, Memory.node, h]
  rfl

/-- The end of an operation, with the new node `result` that nobody else has. -/
theorem finish_carries {v : Workspace} (hcell : m.cell rep = some node)
    (hresult : m.cell result = some ⟨1, image []⟩) (hne : rep ≠ result)
    (hcount : IsInt (node.count + 1)) (hv : node.value = v) :
    Carries (m.finish result rep q) (.ok q) v := by
  subst hv
  cases q with
  | empty => exact .of_ok (chars_of_cell hresult)
  | made temp =>
    rw [finish_made hresult]
    exact .of_ok chars_set
  | same =>
    have hkeep : (m.free result).cell rep = some node := (update_of_ne hne _ _).trans hcell
    have hassign : m.finish result rep .same =
        .ok (rep, (m.free result).set rep { node with count := node.count + 1 }) := by
      rw [Memory.finish, Memory.assign, release_single hresult, ok_bind, Memory.constructCopy,
        Memory.node, hkeep, inside, ok_bind, int_eq hcount, ok_bind]
      rfl
    rw [hassign]
    exact .of_ok chars_set

theorem construct_run : m.construct = .ok (m.next, (m.alloc (image [])).2) := Sharing.construct_eq

theorem produce_eq (hcell : m.cell rep = some node) (hrep : rep < m.next) : m.produce rep f =
    f node.value >>= Memory.finish (m.alloc (image [])).2 m.next rep := by
  have hkeep : (m.alloc (image [])).2.cell rep = some node := cell_alloc hrep hcell
  rw [Memory.produce, construct_run, ok_bind]
  dsimp only
  rw [chars_of_cell hkeep, ok_bind]

/-- A call of a non-mutating operation does what the operation does with the workspace. -/
theorem produce_carries (hcell : m.cell rep = some node) (hrep : rep < m.next)
    (hcount : IsInt (node.count + 1)) : Carries (m.produce rep f) (f node.value) node.value := by
  rw [produce_eq hcell hrep]
  cases f node.value with
  | error x => exact .of_error
  | ok q => exact finish_carries (cell_alloc hrep hcell) cell_alloc_next hrep.ne hcount rfl

/-- Where `center` calls `left`, the node it made first is not the one that it returns. -/
theorem center_carries (hcell : m.cell rep = some node) (hrep : rep < m.next) :
    Carries (m.center rep length pad) (Workspace.center node.value length pad) node.value := by
  have hkeep : (m.alloc (image [])).2.cell rep = some node := cell_alloc hrep hcell
  have hnew : (m.alloc (image [])).2.cell m.next = some ⟨1, image []⟩ := cell_alloc_next
  have hnext : (m.alloc (image [])).2.next = m.next + 1 := rfl
  rw [Memory.center, construct_run, ok_bind, Workspace.center]
  dsimp only
  generalize (m.alloc (image [])).2 = m₁ at hkeep hnew hnext ⊢
  split
  case isTrue => exact .of_ok (chars_of_cell hnew)
  case isFalse hpos =>
    rw [chars_of_cell hkeep, ok_bind]
    cases strlen node.value with
    | error x => exact .of_error
    | ok currentLength =>
      rw [ok_bind, ok_bind]
      generalize narrow currentLength = currentLength
      split
      case isTrue hle =>
        have hproduce : Memory.left m₁ rep length pad =
            left node.value length pad >>= Memory.finish (m₁.alloc (image [])).2 m₁.next rep :=
          produce_eq hkeep (by omega)
        rw [hproduce]
        cases hleft : left node.value length pad with
        | error x => exact .of_error
        | ok q =>
          obtain ⟨temp, rfl⟩ := left_made (not_le.mp hpos) q hleft
          have hne : m.next ≠ m₁.next := by omega
          have hfirst : (Heap.set (m₁.alloc (image [])).2 m₁.next ⟨1, temp⟩).cell m.next =
              some ⟨1, image []⟩ :=
            (update_of_ne hne _ _).trans (cell_alloc (by omega) hnew)
          have hlast : (Heap.free (Heap.set (m₁.alloc (image [])).2 m₁.next ⟨1, temp⟩) m.next).cell
              m₁.next = some ⟨1, temp⟩ :=
            (update_of_ne hne.symm _ _).trans (update_self ..)
          rw [ok_bind, finish_made cell_alloc_next, ok_bind, Memory.exchange, release_single hfirst,
            ok_bind]
          refine .of_ok ?_
          exact chars_of_cell hlast
      case isFalse hgt =>
        cases hwide : centerWide node.value length currentLength pad with
        | error x => exact .of_error
        | ok q =>
          obtain ⟨temp, rfl⟩ := centerWide_made q hwide
          rw [ok_bind, finish_made hnew]
          exact .of_ok chars_set

end Carrying

end GenericFs.Spica
