import Mathlib.Data.List.TakeWhile
import GenericFs.Fat.Growth

namespace GenericFs.Fat

open GenericFs.Library Function FileSystem

def DirectoryEntry.nameFrom (e : DirectoryEntry) (k : ℕ) : List UInt8 :=
  ((List.ofFn e.name).drop k).takeWhile (· ≠ 0)

/-- The C string in the name field of an entry; all 24 bytes where no NUL ends it. -/
def DirectoryEntry.nameBytes (e : DirectoryEntry) : List UInt8 := e.nameFrom 0

/-- A name that fits the field together with its NUL. -/
abbrev CString.Fits (name : CString) : Prop := name.bytes.length ≤ 23

/-- The name field after the bytes and a NUL are stored from place `k` on. -/
def copied (name : Buffer nameSize) (k : ℕ) (bytes : List UInt8) : Buffer nameSize :=
  fun m ↦ if m.val < k then name m else (bytes ++ [0]).getD (m - k) (name m)

variable {d : Directory} {e : DirectoryEntry} {i : Fin dirSize} {k : ℕ} {bytes : List UInt8}
  {name : CString}

theorem Directory.peek_name (hk : k < 24) : d.peek (32 * i + k) = some ((d i).name ⟨k, hk⟩) := by
  have hi := i.isLt
  have hdiv : (32 * i.val + k) / 32 = i := by omega
  have hmod : (32 * i.val + k) % 32 = k := by omega
  simp only [dirSize] at hi
  simp only [Directory.peek, show 32 * i.val + k < 1024 by omega, ↓reduceDIte, hdiv, hmod,
    DirectoryEntry.peek, hk, Fin.eta]

theorem Directory.poke_name {b : UInt8} (hk : k < 24) : d.poke (32 * i + k) b =
    some (update d i { d i with name := update (d i).name ⟨k, hk⟩ b }) := by
  have hi := i.isLt
  have hdiv : (32 * i.val + k) / 32 = i := by omega
  have hmod : (32 * i.val + k) % 32 = k := by omega
  simp only [dirSize] at hi
  simp only [Directory.poke, show 32 * i.val + k < 1024 by omega, ↓reduceDIte, hdiv, hmod,
    DirectoryEntry.poke, hk, Fin.eta]

theorem drop_name (hk : k < 24) :
    (List.ofFn e.name).drop k = e.name ⟨k, hk⟩ :: (List.ofFn e.name).drop (k + 1) := by
  rw [List.drop_eq_getElem_cons (by rw [List.length_ofFn]; exact hk), List.getElem_ofFn]

theorem DirectoryEntry.nameFrom_eq (hk : k < 24) : e.nameFrom k =
    if e.name ⟨k, hk⟩ = 0 then [] else e.name ⟨k, hk⟩ :: e.nameFrom (k + 1) := by
  rw [nameFrom, drop_name hk, List.takeWhile_cons]
  by_cases hz : e.name ⟨k, hk⟩ = 0
  · rw [if_pos hz, if_neg (by simp [hz])]
  · rw [if_neg hz, if_pos (by simp [hz]), nameFrom]

/-- A comparison with a name that fits stays inside the name field. -/
theorem Directory.strcmp_eq (h0 : 0 ∉ bytes) (hlen : k + bytes.length ≤ 23) :
    d.strcmp (32 * i + k) bytes = some (decide ((d i).nameFrom k = bytes)) := by
  induction bytes generalizing k with
  | nil =>
    have hk : k < 24 := by simp at hlen; omega
    by_cases hz : (d i).name ⟨k, hk⟩ = 0 <;>
      simp [Directory.strcmp, peek_name hk, DirectoryEntry.nameFrom_eq hk, hz]
  | cons c cs ih =>
    rw [List.length_cons] at hlen
    have hk : k < 24 := by omega
    simp only [List.mem_cons, not_or] at h0
    have ih := ih (k := k + 1) h0.2 (by omega)
    rw [← Nat.add_assoc] at ih
    by_cases hc : (d i).name ⟨k, hk⟩ = c
    · simp [Directory.strcmp, peek_name hk, DirectoryEntry.nameFrom_eq hk, ih, hc, Ne.symm h0.1]
    · by_cases hz : (d i).name ⟨k, hk⟩ = 0
      · have hc0 : ¬(0 = c) := h0.1
        simp [Directory.strcmp, peek_name hk, DirectoryEntry.nameFrom_eq hk, hz, hc0]
      · simp [Directory.strcmp, peek_name hk, DirectoryEntry.nameFrom_eq hk, hc, hz]

theorem Directory.strcpy_eq (hlen : k + bytes.length ≤ 23) : d.strcpy (32 * i + k) bytes =
    some (update d i { d i with name := copied (d i).name k bytes }) := by
  induction bytes generalizing d k with
  | nil =>
    have hk : k < 24 := by simp at hlen; omega
    have hcopied : copied (d i).name k [] = update (d i).name ⟨k, hk⟩ 0 := by
      funext m
      simp only [copied, List.nil_append, update_apply, Fin.ext_iff]
      by_cases hm : m.val = k
      · simp [hm]
      · by_cases hlt : m.val < k
        · simp [hm, hlt]
        · rw [if_neg hlt, if_neg hm]
          exact List.getD_eq_default _ _ (by simp; omega)
    rw [Directory.strcpy, poke_name hk, hcopied]
  | cons c cs ih =>
    rw [List.length_cons] at hlen
    have hk : k < 24 := by omega
    have ih := fun d' ↦ ih (d := d') (k := k + 1) (by omega)
    have hcopied :
        copied (update (d i).name ⟨k, hk⟩ c) (k + 1) cs = copied (d i).name k (c :: cs) := by
      funext m
      simp only [copied, update_apply, Fin.ext_iff]
      by_cases hm : m.val = k
      · simp [hm]
      · by_cases hlt : m.val < k
        · simp [hm, hlt, hlt.trans_le (Nat.le_succ k)]
        · rw [if_neg (by omega), if_neg hlt, if_neg hm, List.cons_append,
            show m.val - k = m.val - (k + 1) + 1 by omega, List.getD_cons_succ]
    simp only [Directory.strcpy, poke_name hk, Nat.add_assoc, ih, update_self, update_idem, hcopied]

theorem DirectoryEntry.nameBytes_copied (hname : e.name = copied (d i).name 0 name.bytes)
    (h : name.Fits) : e.nameBytes = name.bytes := by
  have htake : (List.ofFn e.name).take name.bytes.length = name.bytes := by
    refine List.ext_getElem ?_ fun m h₁ h₂ ↦ ?_
    · rw [List.length_take, List.length_ofFn]
      exact Nat.min_eq_left (h.trans (by decide))
    · rw [List.getElem_take, List.getElem_ofFn, congrFun hname]
      simp [copied, List.getElem?_append_left h₂, List.getElem?_eq_getElem h₂]
  have hnul : e.name ⟨name.bytes.length, Nat.lt_succ_of_le h⟩ = 0 := by
    simp [hname, copied]
  rw [nameBytes, nameFrom, List.drop_zero, ← List.take_append_drop name.bytes.length
    (List.ofFn e.name), htake, drop_name (Nat.lt_succ_of_le h), List.takeWhile_append_of_pos, hnul]
  · simp
  · intro b hb
    simpa using fun h0 : b = 0 ↦ name.noNul (h0 ▸ hb)

theorem DirectoryEntry.named_iff : e.Named ↔ e.nameBytes.length ≤ 23 := by
  have hlen : (List.ofFn e.name).length = 24 := List.length_ofFn
  rw [nameBytes, nameFrom, List.drop_zero]
  constructor
  · rintro ⟨m, hm⟩
    by_contra hgt
    have hsub := List.takeWhile_sublist (fun b : UInt8 ↦ decide (b ≠ 0)) (l := List.ofFn e.name)
    have heq := hsub.eq_of_length (by have := hsub.length_le; omega)
    have hne := List.takeWhile_eq_self_iff.mp heq (e.name m) (List.mem_ofFn.mpr ⟨m, rfl⟩)
    simp [hm] at hne
  · intro h
    by_contra hno
    have heq : (List.ofFn e.name).takeWhile (fun b ↦ decide (b ≠ 0)) = List.ofFn e.name :=
      List.takeWhile_eq_self_iff.mpr fun b hb ↦ by
        obtain ⟨m, rfl⟩ := List.mem_ofFn.mp hb
        simpa using fun h0 ↦ hno ⟨m, h0⟩
    rw [heq] at h
    omega

def Directory.Holds (d : Directory) (i : Fin dirSize) (name : CString) : Prop :=
  (d i).inUse ≠ 0 ∧ (d i).nameBytes = name.bytes

instance : Decidable (d.Holds i name) := inferInstanceAs (Decidable (_ ∧ _))

def Directory.lookup (d : Directory) (name : CString) : Option (Fin dirSize) :=
  (List.finRange dirSize).find? fun i ↦ decide (d.Holds i name)

theorem findName_eq (h : name.Fits) (is : List (Fin dirSize)) :
    findName d name is = .ok (is.find? fun i ↦ decide (d.Holds i name)) := by
  induction is with
  | nil => rfl
  | cons i is ih =>
    have hcmp := Directory.strcmp_eq (d := d) (i := i) (k := 0) name.noNul (by omega)
    rw [Nat.add_zero] at hcmp
    by_cases hu : (d i).inUse = 0
    · simp [findName, hu, ih, Directory.Holds]
    · by_cases hn : (d i).nameFrom 0 = name.bytes <;>
        simp [findName, hu, hcmp, hn, ih, Directory.Holds, DirectoryEntry.nameBytes]

theorem findEntry_run {fs : FileSystem} (h : name.Fits) :
    (findEntry name).run fs = .ok (fs.rootDirectory.lookup name) fs := by
  unfold findEntry
  simp only [EStateM.run_bind, EStateM.run_get, findName_eq h, EStateM.run_pure, Directory.lookup]

theorem Directory.holds_of_lookup (h : d.lookup name = some i) : d.Holds i name := by
  simpa using List.find?_some h

theorem Directory.not_holds_of_lookup (h : d.lookup name = none) (i : Fin dirSize) :
    ¬ d.Holds i name := by
  simpa using List.find?_eq_none.mp h i (List.mem_finRange i)

theorem Directory.Holds.named (H : d.Holds i name) (h : name.Fits) : (d i).Named :=
  DirectoryEntry.named_iff.mpr (by rw [H.2]; exact h)

theorem Directory.lookup_congr {d' : Directory} (hd : ∀ i, d'.Holds i name ↔ d.Holds i name) :
    d'.lookup name = d.lookup name := by
  simp only [Directory.lookup, hd]

theorem Directory.lookup_update (hd : ¬d.Holds i name)
    (he : ¬(e.inUse ≠ 0 ∧ e.nameBytes = name.bytes)) :
    Directory.lookup (update d i e) name = d.lookup name := by
  refine Directory.lookup_congr fun k ↦ ?_
  rcases eq_or_ne k i with rfl | hk
  · simp only [Directory.Holds, update_self] at hd ⊢
    simp [hd, he]
  · simp only [Directory.Holds, update_of_ne hk]

theorem Directory.lookup_resize {s : ℤ} :
    Directory.lookup (update d i { d i with size := s }) name = d.lookup name := by
  refine Directory.lookup_congr fun m ↦ ?_
  rcases eq_or_ne m i with rfl | hm
  · simp only [Directory.Holds, update_self]
    exact Iff.rfl
  · simp only [Directory.Holds, update_of_ne hm]

theorem Directory.lookup_update_self (hl : d.lookup name = none)
    (he : e.inUse ≠ 0 ∧ e.nameBytes = name.bytes) :
    Directory.lookup (update d i e) name = some i := by
  have hi : Directory.Holds (update d i e) i name := by
    simp only [Directory.Holds, update_self]
    exact he
  cases hlook : Directory.lookup (update d i e) name with
  | none => exact absurd hi (Directory.not_holds_of_lookup hlook i)
  | some k =>
    by_contra hne
    have hk : k ≠ i := fun h ↦ hne (by rw [h])
    have H := Directory.holds_of_lookup hlook
    simp only [Directory.Holds, update_of_ne hk] at H
    exact Directory.not_holds_of_lookup hl k H

theorem Directory.lookup_ne {j : Fin dirSize} {x : CString} (hl : d.lookup name = some i)
    (hl' : d.lookup x = some j) (hne : x ≠ name) : j ≠ i := by
  rintro rfl
  have hx := (Directory.holds_of_lookup hl').2
  rw [(Directory.holds_of_lookup hl).2] at hx
  exact hne (CString.ext_bytes hx.symm)

theorem copyName_eq {n : ℕ} (hn : n + k = 24) (h : ∃ m, k ≤ m.val ∧ (d i).name m = 0) :
    copyName d n (32 * i + k) = some ((d i).nameFrom k) := by
  induction n generalizing k with
  | zero =>
    obtain ⟨m, hm, _⟩ := h
    have := m.isLt
    simp only [nameSize] at this
    omega
  | succ n ih =>
    have hk : k < 24 := by omega
    by_cases hz : (d i).name ⟨k, hk⟩ = 0
    · simp [copyName, Directory.peek_name hk, DirectoryEntry.nameFrom_eq hk, hz]
    · have hnext : ∃ m, k + 1 ≤ m.val ∧ (d i).name m = 0 := by
        obtain ⟨m, hm, hm0⟩ := h
        refine ⟨m, lt_of_le_of_ne hm ?_, hm0⟩
        rintro rfl
        exact hz hm0
      have ih := ih (k := k + 1) (by omega) hnext
      rw [← Nat.add_assoc] at ih
      simp [copyName, Directory.peek_name hk, DirectoryEntry.nameFrom_eq hk, hz, ih]

theorem copyName_of_named (h : (d i).Named) :
    copyName d nameSize (32 * i) = some (d i).nameBytes := by
  obtain ⟨m, hm⟩ := h
  exact copyName_eq (d := d) (i := i) (k := 0) rfl ⟨m, Nat.zero_le _, hm⟩

end GenericFs.Fat
