import Mathlib.Data.List.Sort
import Mathlib.Tactic

namespace GenericFs.Library.Segments

variable {α : Type}

/-- The elements from `i` on and before `j` have the property, and neither neighbour has it. -/
structure MaximalRun (p : α → Prop) (l : List α) (i j : ℕ) : Prop where
  nonempty : i < j
  bound : j ≤ l.length
  inside : ∀ k, i ≤ k → k < j → ∀ a ∈ l[k]?, p a
  before : ∀ k, k + 1 = i → ∀ a ∈ l[k]?, ¬p a
  behind : ∀ a ∈ l[j]?, ¬p a

/-- The list of all maximal runs, from left to right. -/
structure Segmentation (p : α → Prop) (l : List α) (R : List (ℕ × ℕ)) : Prop where
  ordered : R.Pairwise fun r s ↦ r.1 < s.1
  mem_iff : ∀ i j, (i, j) ∈ R ↔ MaximalRun p l i j

variable {p : α → Prop} {l a b r : List α} {R R' : List (ℕ × ℕ)} {i j n : ℕ}

theorem Segmentation.unique (h : Segmentation p l R) (h' : Segmentation p l R') : R = R' := by
  have : Std.Irrefl fun r s : ℕ × ℕ ↦ r.1 < s.1 := ⟨fun r ↦ lt_irrefl r.1⟩
  exact h.ordered.eq_of_mem_iff h'.ordered fun s ↦
    (h.mem_iff s.1 s.2).trans (h'.mem_iff s.1 s.2).symm

theorem MaximalRun.exists_inside (h : MaximalRun p l i j) (hn : i ≤ n) (hj : n < j) :
    ∃ a ∈ l[n]?, p a := by
  have hlen : n < l.length := hj.trans_le h.bound
  have hget := List.getElem?_eq_getElem hlen
  exact ⟨l[n], hget, h.inside n hn hj _ hget⟩

theorem Segmentation.nil (h : ∀ x ∈ l, ¬p x) : Segmentation p l [] := by
  refine ⟨.nil, fun i j ↦ ⟨nofun, fun hrun ↦ ?_⟩⟩
  obtain ⟨x, hx, hp⟩ := hrun.exists_inside le_rfl hrun.nonempty
  exact absurd hp (h x (List.mem_of_getElem? hx))

section Parts

variable (ha : ∀ x ∈ a, ¬p x) (hne : b ≠ []) (hb : ∀ x ∈ b, p x) (hr : ∀ x ∈ r.head?, ¬p x)

theorem getElem?_rest (k : ℕ) : (a ++ b ++ r)[a.length + b.length + k]? = r[k]? := by
  rw [← List.length_append, List.getElem?_append_right (Nat.le_add_right _ _),
    Nat.add_sub_cancel_left]

theorem getElem?_middle (hj : a.length ≤ j) (hj' : j < a.length + b.length) :
    (a ++ b ++ r)[j]? = b[j - a.length]? := by
  rw [List.append_assoc, List.getElem?_append_right hj, List.getElem?_append_left (by omega)]

include hr

/-- A run of the rest is one of the whole list. -/
theorem MaximalRun.shift (h : MaximalRun p r i j) :
    MaximalRun p (a ++ b ++ r) (a.length + b.length + i) (a.length + b.length + j) := by
  have hpos : 0 < i := by
    by_contra hzero
    obtain rfl : i = 0 := by omega
    obtain ⟨x, hx, hp⟩ := h.exists_inside le_rfl h.nonempty
    exact hr x (by rwa [List.head?_eq_getElem?]) hp
  have hnonempty := h.nonempty
  have hbound := h.bound
  constructor
  · omega
  · simp only [List.length_append]
    omega
  · intro k hk hj x hx
    obtain ⟨k, rfl⟩ := Nat.exists_eq_add_of_le (by omega : a.length + b.length ≤ k)
    rw [getElem?_rest] at hx
    exact h.inside k (by omega) (by omega) x hx
  · intro k hk x hx
    obtain ⟨k, rfl⟩ := Nat.exists_eq_add_of_le (by omega : a.length + b.length ≤ k)
    rw [getElem?_rest] at hx
    exact h.before k (by omega) x hx
  · intro x hx
    rw [getElem?_rest] at hx
    exact h.behind x hx

include ha hne hb

theorem MaximalRun.first : MaximalRun p (a ++ b ++ r) a.length (a.length + b.length) := by
  have hlen := List.length_pos_iff.mpr hne
  constructor
  · omega
  · simp only [List.length_append]
    omega
  · intro k hk hj x hx
    rw [getElem?_middle hk hj] at hx
    exact hb x (List.mem_of_getElem? hx)
  · intro k hk x hx
    rw [List.append_assoc, List.getElem?_append_left (by omega)] at hx
    exact ha x (List.mem_of_getElem? hx)
  · intro x hx
    rw [← Nat.add_zero (a.length + b.length), getElem?_rest, ← List.head?_eq_getElem?] at hx
    exact hr x hx

/-- A run begins with the first part that has the property, or behind it. -/
theorem MaximalRun.cases (h : MaximalRun p (a ++ b ++ r) i j) :
    i = a.length ∧ j = a.length + b.length ∨
      ∃ i' j', i = a.length + b.length + i' ∧ j = a.length + b.length + j' ∧
        MaximalRun p r i' j' := by
  have hlen := List.length_pos_iff.mpr hne
  have hnonempty := h.nonempty
  rcases lt_trichotomy i a.length with hlt | rfl | hgt
  · obtain ⟨x, hx, hp⟩ := h.exists_inside le_rfl hnonempty
    rw [List.append_assoc, List.getElem?_append_left hlt] at hx
    exact absurd hp (ha x (List.mem_of_getElem? hx))
  · refine .inl ⟨rfl, ?_⟩
    rcases lt_trichotomy j (a.length + b.length) with hlt | heq | hgt
    · have hin : j - a.length < b.length := by omega
      have hget : (a ++ b ++ r)[j]? = some b[j - a.length] := by
        rw [getElem?_middle hnonempty.le hlt, List.getElem?_eq_getElem hin]
      exact absurd (hb _ (List.getElem_mem hin)) (h.behind _ hget)
    · exact heq
    · obtain ⟨x, hx, hp⟩ := h.exists_inside (by omega) hgt
      rw [← Nat.add_zero (a.length + b.length), getElem?_rest, ← List.head?_eq_getElem?] at hx
      exact absurd hp (hr x hx)
  · rcases lt_or_ge i (a.length + b.length + 1) with hlt | hge
    · have hin : i - 1 - a.length < b.length := by omega
      have hget : (a ++ b ++ r)[i - 1]? = some b[i - 1 - a.length] := by
        rw [getElem?_middle (by omega) (by omega), List.getElem?_eq_getElem hin]
      exact absurd (hb _ (List.getElem_mem hin)) (h.before _ (by omega) _ hget)
    · refine .inr ?_
      obtain ⟨i', rfl⟩ := Nat.exists_eq_add_of_le (by omega : a.length + b.length ≤ i)
      obtain ⟨j', rfl⟩ := Nat.exists_eq_add_of_le (by omega : a.length + b.length ≤ j)
      have hbound := h.bound
      simp only [List.length_append] at hbound
      refine ⟨i', j', rfl, rfl, by omega, by omega, fun k hk hj x hx ↦ ?_, fun k hk x hx ↦ ?_, ?_⟩
      · exact h.inside (a.length + b.length + k) (by omega) (by omega) x
          (by rwa [getElem?_rest])
      · exact h.before (a.length + b.length + k) (by omega) x (by rwa [getElem?_rest])
      · intro x hx
        exact h.behind x (by rwa [getElem?_rest])

theorem Segmentation.cons (h : Segmentation p r R) : Segmentation p (a ++ b ++ r)
    ((a.length, a.length + b.length) ::
      R.map fun s ↦ (a.length + b.length + s.1, a.length + b.length + s.2)) := by
  have hlen := List.length_pos_iff.mpr hne
  constructor
  · refine .cons ?_ (h.ordered.map _ fun r s hrs ↦ by dsimp only; omega)
    rintro s hs
    obtain ⟨s', -, rfl⟩ := List.mem_map.mp hs
    dsimp only
    omega
  · intro i j
    rw [List.mem_cons, List.mem_map, Prod.mk.injEq]
    constructor
    · rintro (⟨rfl, rfl⟩ | ⟨⟨i', j'⟩, hmem, heq⟩)
      · exact .first ha hne hb hr
      · cases heq
        exact ((h.mem_iff i' j').mp hmem).shift hr
    · intro hrun
      obtain hfirst | ⟨i', j', rfl, rfl, hrest⟩ := hrun.cases ha hne hb hr
      · exact .inl hfirst
      · exact .inr ⟨(i', j'), (h.mem_iff i' j').mpr hrest, rfl⟩

end Parts

end GenericFs.Library.Segments
