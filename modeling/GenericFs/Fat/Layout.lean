import GenericFs.Fat.Check

namespace GenericFs.Fat

open GenericFs.Library Chain Function

namespace FatTable

variable {fat : FatTable} {b : ℕ}

theorem entry_of_lt (h : b < 512) : fat.entry b = some (fat ⟨b, h⟩) := by
  simp [entry, fatSize, h]

theorem entry_val (j : Fin fatSize) : fat.entry j = some (fat j) := entry_of_lt j.isLt

theorem entry_set (h : b < 512) (v : ℕ) : (fat.set b v).entry = update fat.entry b (some v) := by
  funext c
  by_cases hc : c = b
  · rw [hc, entry_of_lt h, update_self, set, if_pos rfl]
  · rw [update_of_ne hc]
    simp only [entry, set, hc, ↓reduceIte]

theorem firstFree_eq_some {j : Fin fatSize} (h : fat.firstFree = some j) :
    fat j = 0 ∧ ∀ k < j, fat k ≠ 0 := by
  have h := Fin.find?_eq_some_iff.mp h
  simpa using h

theorem firstFree_isSome (h : 0 < FileSystem.freeCount fat) : ∃ j, fat.firstFree = some j := by
  obtain ⟨j, hj⟩ := Finset.card_pos.mp h
  cases hf : fat.firstFree with
  | some j => exact ⟨j, rfl⟩
  | none =>
    have := Fin.find?_eq_none_iff.mp hf j
    simp_all

theorem freeCount_eq_zero (h : fat.firstFree = none) : FileSystem.freeCount fat = 0 := by
  have h := Fin.find?_eq_none_iff.mp h
  simpa [FileSystem.freeCount, Finset.filter_eq_empty_iff] using h

theorem freeCount_update {fat' : FatTable} {j : Fin fatSize} (hj : fat j = 0) (hj' : fat' j ≠ 0)
    (h : ∀ k, k ≠ j → (fat' k = 0 ↔ fat k = 0)) :
    FileSystem.freeCount fat = FileSystem.freeCount fat' + 1 := by
  have he : (Finset.univ.filter fun k ↦ fat k = freeFatEntry) =
      insert j (Finset.univ.filter fun k ↦ fat' k = freeFatEntry) := by
    ext k
    by_cases hk : k = j
    · simp [hk, hj]
    · simp [hk, h k hk]
  rw [FileSystem.freeCount, he, Finset.card_insert_of_notMem (by simp [hj'])]
  rfl

theorem freeCount_hang {c : ℕ} {j : Fin fatSize} (hj : fat j = 0)
    (hj0 : j.val ≠ 0) (hc : fat.entry c ≠ some 0) :
    FileSystem.freeCount fat = FileSystem.freeCount ((fat.set c j).set j eofFatEntry) + 1 := by
  refine freeCount_update hj (by simp [set]) fun k hk ↦ ?_
  have hkj : k.val ≠ j.val := fun h ↦ hk (Fin.ext h)
  by_cases hkc : k.val = c
  · subst hkc
    have hk0 : fat k ≠ 0 := fun h0 ↦ hc (by rw [entry_val, h0])
    simp [set, hkj, hj0, hk0]
  · simp [set, hkc, hkj]

end FatTable

def Directory.start (d : Directory) (i : Fin dirSize) : Option ℕ :=
  if (d i).inUse = 1 then some (d i).startingBlock else none

/-- The name ends within its 24 bytes, so that a name can compare equal to it. -/
def DirectoryEntry.Named (e : DirectoryEntry) : Prop := ∃ k, e.name k = 0

/-- Whatever a name can find is either free or a file that `check` looks at
and that has a size. -/
def DirectoryEntry.Usable (e : DirectoryEntry) : Prop :=
  e.Named → e.inUse = 0 ∨ e.inUse = 1 ∧ 0 ≤ e.size

/-- The division of the disk that every operation relies on: the metadata
blocks are reserved, the files own disjoint chains, nothing is lost, and a file
has one block more than it has full blocks. -/
structure Layout (fat : FatTable) (d : Directory) (chain : Fin dirSize → List ℕ) : Prop where
  allotment : Allotment fat.entry eofFatEntry {freeFatEntry, reservedFatEntry} d.start chain
  reserved : ∀ b < 3, fat.entry b = some reservedFatEntry
  usable : ∀ i, (d i).Usable
  blocks : ∀ i, (d i).inUse = 1 → ((chain i).length : ℤ) = (d i).size.tdiv 1024 + 1

namespace Layout

variable {fat : FatTable} {d : Directory} {chain : Fin dirSize → List ℕ} {i : Fin dirSize} {b : ℕ}

theorem start_eq (hu : (d i).inUse = 1) : d.start i = some (d i).startingBlock := by
  simp [Directory.start, hu]

theorem links (L : Layout fat d chain) (hu : (d i).inUse = 1) :
    fat.Chain (d i).startingBlock (chain i) :=
  L.allotment.links i _ (start_eq hu)

theorem inUse_of_mem (L : Layout fat d chain) (hb : b ∈ chain i) : (d i).inUse = 1 := by
  obtain ⟨a, ha⟩ := L.allotment.start_of_mem hb
  by_contra hu
  simp [Directory.start, hu] at ha

theorem length (L : Layout fat d chain) (hu : (d i).inUse = 1) (hs : 0 ≤ (d i).size) :
    (chain i).length = (d i).size.toNat / 1024 + 1 := by
  have h := L.blocks i hu
  have ht : (d i).size.tdiv 1024 = (d i).size / 1024 := Int.tdiv_eq_ediv_of_nonneg hs
  omega

theorem lt_of_mem (L : Layout fat d chain) (hb : b ∈ chain i) : b < 512 :=
  (L.links (L.inUse_of_mem hb)).lt b hb

theorem entry_ne_idle (L : Layout fat d chain) (hb : b ∈ chain i) :
    fat.entry b ≠ some 0 ∧ fat.entry b ≠ some 1 :=
  ⟨fun h ↦ L.allotment.busy i b hb _ h (by simp), fun h ↦ L.allotment.busy i b hb _ h (by simp)⟩

theorem three_le_of_mem (L : Layout fat d chain) (hb : b ∈ chain i) : 3 ≤ b := by
  by_contra hlt
  exact (L.entry_ne_idle hb).2 (L.reserved b (by omega))

theorem three_le_of_free (L : Layout fat d chain) (hb : fat.entry b = some 0) : 3 ≤ b := by
  by_contra hlt
  simp [L.reserved b (by omega)] at hb

theorem not_mem_of_free (L : Layout fat d chain) (hb : fat.entry b = some 0) (i : Fin dirSize) :
    b ∉ chain i :=
  fun h ↦ (L.entry_ne_idle h).1 hb

theorem accounted (L : Layout fat d chain) : Accounted fat d chain where
  links _ hu := L.links hu
  length := L.blocks
  nodup i _ := L.allotment.nodup i
  disjoint i j _ _ hij := L.allotment.disjoint i j hij
  busy _ _ _ hb := L.entry_ne_idle hb
  covered b v hv h0 h1 := by
    obtain ⟨i, hi⟩ := L.allotment.covered b v hv (by simp [h0, h1])
    exact ⟨i, L.inUse_of_mem hi, hi⟩

/-- Conversely the accounting is a layout once the metadata blocks are reserved
and every entry that a name can find is usable. -/
theorem of_accounted (A : Accounted fat d chain) (hr : ∀ b < 3, fat.entry b = some reservedFatEntry)
    (hu : ∀ i, (d i).Usable) : Layout fat d (fun i ↦ if (d i).inUse = 1 then chain i else []) := by
  have hmem : ∀ i b, b ∈ (if (d i).inUse = 1 then chain i else []) ↔
      (d i).inUse = 1 ∧ b ∈ chain i := fun i b ↦ by split <;> simp [*]
  refine ⟨⟨fun i a ha ↦ ?_, fun i hi ↦ ?_, fun i j hij b hbi hbj ↦ ?_, fun i b hb v hv ↦ ?_,
    fun b v hb hv ↦ ?_⟩, hr, hu, fun i hi ↦ ?_⟩
  · by_cases h : (d i).inUse = 1
    · obtain rfl : (d i).startingBlock = a := by simpa [Directory.start, h] using ha
      rw [if_pos h]
      exact A.links i h
    · simp [Directory.start, h] at ha
  · by_cases h : (d i).inUse = 1
    · simp [Directory.start, h] at hi
    · rw [if_neg h]
  · obtain ⟨hui, hbi⟩ := (hmem i b).mp hbi
    obtain ⟨huj, hbj⟩ := (hmem j b).mp hbj
    exact A.disjoint i j hui huj hij hbi hbj
  · obtain ⟨hui, hbi⟩ := (hmem i b).mp hb
    have h := A.busy i hui b hbi
    rw [hv] at h
    simpa using h
  · obtain ⟨i, hui, hbi⟩ := A.covered b v hb (by rintro rfl; simp at hv) (by rintro rfl; simp at hv)
    exact ⟨i, (hmem i b).mpr ⟨hui, hbi⟩⟩
  · rw [if_pos hi]
    exact A.length i hi

end Layout

theorem twoFiles_layout : Layout FileSystem.twoFiles.fat FileSystem.twoFiles.rootDirectory
    FileSystem.twoFilesChain := by
  have hchain :
      (fun i ↦ if (FileSystem.twoFiles.rootDirectory i).inUse = 1 then FileSystem.twoFilesChain i
      else []) = FileSystem.twoFilesChain := by
    funext i
    revert i
    decide
  have husable : ∀ i, (FileSystem.twoFiles.rootDirectory i).inUse = 0 ∨
      (FileSystem.twoFiles.rootDirectory i).inUse = 1 ∧
      0 ≤ (FileSystem.twoFiles.rootDirectory i).size := by
    decide
  rw [← hchain]
  refine .of_accounted FileSystem.twoFiles_accounted (fun b hb ↦ ?_) fun i _ ↦ husable i
  obtain rfl | rfl | rfl : b = 0 ∨ b = 1 ∨ b = 2 := by omega
  all_goals rfl

end GenericFs.Fat
