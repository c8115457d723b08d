import Mathlib.Tactic

namespace GenericFs.Library

open Function

/-- A value in dynamic memory with the number of its owners. -/
structure Counted (α : Type) where
  count : ℤ
  value : α

/-- Dynamic memory in which no address is used twice. -/
structure Heap (α : Type) where
  cell : ℕ → Option (Counted α)
  next : ℕ
  freed : List ℕ

namespace Heap

variable {α : Type}

def empty : Heap α := ⟨fun _ ↦ none, 0, []⟩

def alloc (h : Heap α) (x : α) : ℕ × Heap α :=
  (h.next, ⟨update h.cell h.next (some ⟨1, x⟩), h.next + 1, h.freed⟩)

def set (h : Heap α) (a : ℕ) (c : Counted α) : Heap α := { h with cell := update h.cell a (some c) }

def free (h : Heap α) (a : ℕ) : Heap α :=
  { h with cell := update h.cell a none, freed := h.freed ++ [a] }

/-- The owners hold the addresses `R`, each as often as it has owners, and `v` is
what they find there. -/
structure Holds (h : Heap α) (R : Multiset ℕ) (v : ℕ → α) : Prop where
  owned : ∀ a ∈ R, h.cell a = some ⟨R.count a, v a⟩
  bound : ∀ a ∈ R, a < h.next
  freedOnce : ∀ a < h.next, a ∉ R → h.freed.count a = 1
  gone : ∀ a ∈ h.freed, a < h.next ∧ a ∉ R

variable {h : Heap α} {R : Multiset ℕ} {v : ℕ → α} {a : ℕ} {x : α}

theorem holds_empty : Holds (empty : Heap α) 0 v where
  owned := by simp
  bound := by simp
  freedOnce := by simp [empty]
  gone := by simp [empty]

namespace Holds

theorem congr {v' : ℕ → α} (hh : Holds h R v) (hv : ∀ a ∈ R, v a = v' a) : Holds h R v' where
  owned a ha := by rw [hh.owned a ha, hv a ha]
  bound := hh.bound
  freedOnce := hh.freedOnce
  gone := hh.gone

theorem next_notMem (hh : Holds h R v) : h.next ∉ R := fun hmem ↦ lt_irrefl _ (hh.bound _ hmem)

theorem alloc (hh : Holds h R v) :
    Holds (h.alloc x).2 (h.next ::ₘ R) (update v h.next x) where
  owned a ha := by
    rcases eq_or_ne a h.next with rfl | hne
    · simp [Heap.alloc, Multiset.count_eq_zero_of_notMem hh.next_notMem]
    · have hmem : a ∈ R := (Multiset.mem_cons.mp ha).resolve_left hne
      simp only [Heap.alloc, update_of_ne hne, Multiset.count_cons_of_ne hne]
      exact hh.owned a hmem
  bound a ha := by
    rcases Multiset.mem_cons.mp ha with rfl | hmem
    · exact Nat.lt_succ_self _
    · exact (hh.bound a hmem).trans (Nat.lt_succ_self _)
  freedOnce a hlt ha := by
    rw [Multiset.mem_cons, not_or] at ha
    exact hh.freedOnce a (lt_of_le_of_ne (Nat.le_of_lt_succ hlt) ha.1) ha.2
  gone a ha := by
    obtain ⟨hlt, hmem⟩ := hh.gone a ha
    refine ⟨hlt.trans (Nat.lt_succ_self _), ?_⟩
    rw [Multiset.mem_cons, not_or]
    exact ⟨hlt.ne, hmem⟩

theorem mem_cons_iff (ha : a ∈ R) {b : ℕ} : b ∈ a ::ₘ R ↔ b ∈ R := by
  rw [Multiset.mem_cons]
  exact ⟨fun hb ↦ hb.elim (fun he ↦ he ▸ ha) id, .inr⟩

theorem share (hh : Holds h R v) (ha : a ∈ R) :
    Holds (h.set a ⟨R.count a + 1, v a⟩) (a ::ₘ R) v where
  owned b hb := by
    rcases eq_or_ne b a with rfl | hne
    · simp [Heap.set]
    · simp only [Heap.set, update_of_ne hne, Multiset.count_cons_of_ne hne]
      exact hh.owned b ((mem_cons_iff ha).mp hb)
  bound b hb := hh.bound b ((mem_cons_iff ha).mp hb)
  freedOnce b hlt hb := hh.freedOnce b hlt (fun hmem ↦ hb (Multiset.mem_cons_of_mem hmem))
  gone b hb := ⟨(hh.gone b hb).1, fun hmem ↦ (hh.gone b hb).2 ((mem_cons_iff ha).mp hmem)⟩

theorem unshare (hh : Holds h (a ::ₘ R) v) (ha : a ∈ R) : Holds (h.set a ⟨R.count a, v a⟩) R v where
  owned b hb := by
    rcases eq_or_ne b a with rfl | hne
    · simp [Heap.set]
    · simp only [Heap.set, update_of_ne hne]
      rw [hh.owned b (Multiset.mem_cons_of_mem hb), Multiset.count_cons_of_ne hne]
  bound b hb := hh.bound b (Multiset.mem_cons_of_mem hb)
  freedOnce b hlt hb := hh.freedOnce b hlt (fun hmem ↦ hb ((mem_cons_iff ha).mp hmem))
  gone b hb := ⟨(hh.gone b hb).1, fun hmem ↦ (hh.gone b hb).2 (Multiset.mem_cons_of_mem hmem)⟩

theorem free (hh : Holds h (a ::ₘ R) v) (ha : a ∉ R) : Holds (h.free a) R v where
  owned b hb := by
    have hne : b ≠ a := fun he ↦ ha (he ▸ hb)
    simp only [Heap.free, update_of_ne hne]
    rw [hh.owned b (Multiset.mem_cons_of_mem hb), Multiset.count_cons_of_ne hne]
  bound b hb := hh.bound b (Multiset.mem_cons_of_mem hb)
  freedOnce b hlt hb := by
    simp only [Heap.free, List.count_append]
    rcases eq_or_ne b a with rfl | hne
    · have hnew : b ∉ h.freed := fun hmem ↦ (hh.gone b hmem).2 (Multiset.mem_cons_self b R)
      simp [List.count_eq_zero_of_not_mem hnew]
    · have hold : h.freed.count b = 1 :=
        hh.freedOnce b hlt (fun hmem ↦ hb ((Multiset.mem_cons.mp hmem).resolve_left hne))
      simp [hold, hne.symm]
  gone b hb := by
    rcases List.mem_append.mp hb with hmem | hmem
    · exact ⟨(hh.gone b hmem).1, fun hR ↦ (hh.gone b hmem).2 (Multiset.mem_cons_of_mem hR)⟩
    · obtain rfl := List.mem_singleton.mp hmem
      exact ⟨hh.bound b (Multiset.mem_cons_self b R), ha⟩

theorem store (hh : Holds h (a ::ₘ R) v) (ha : a ∉ R) :
    Holds (h.set a ⟨1, x⟩) (a ::ₘ R) (update v a x) where
  owned b hb := by
    rcases eq_or_ne b a with rfl | hne
    · simp [Heap.set, Multiset.count_eq_zero_of_notMem ha]
    · simp only [Heap.set, update_of_ne hne]
      exact hh.owned b hb
  bound := hh.bound
  freedOnce := hh.freedOnce
  gone := hh.gone

end Holds

end Heap

end GenericFs.Library
