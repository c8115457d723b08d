import Mathlib.Algebra.Order.BigOperators.Group.Finset
import GenericFs.Fat.Runs

namespace GenericFs.Fat

open GenericFs.Library Chain Machine Function FileSystem

variable {fs fs' : FileSystem} {chain : Fin dirSize → List ℕ} {fat : FatTable} {d : Directory}

theorem Layout.card_busy (L : Layout fat d chain) :
    (Finset.univ.filter fun j : Fin fatSize ↦ fat j ≠ 0 ∧ fat j ≠ 1).card =
      ∑ i, (chain i).length := by
  have himage : ((Finset.univ.filter fun j : Fin fatSize ↦ fat j ≠ 0 ∧ fat j ≠ 1).map
      Fin.valEmbedding) = Finset.univ.biUnion fun i ↦ (chain i).toFinset := by
    ext b
    simp only [Finset.mem_map, Finset.mem_filter, Finset.mem_univ, true_and, Fin.valEmbedding_apply,
      Finset.mem_biUnion, List.mem_toFinset]
    constructor
    · rintro ⟨j, ⟨h0, h1⟩, rfl⟩
      exact L.allotment.covered j (fat j) (FatTable.entry_val j) (by simp [h0, h1])
    · rintro ⟨i, hb⟩
      have hlt := L.lt_of_mem hb
      have hne := L.entry_ne_idle hb
      simp only [FatTable.entry_of_lt hlt, ne_eq, Option.some.injEq] at hne
      exact ⟨⟨b, hlt⟩, hne, rfl⟩
  rw [← Finset.card_map Fin.valEmbedding, himage, Finset.card_biUnion]
  · exact Finset.sum_congr rfl fun i _ ↦ List.toFinset_card_of_nodup (L.allotment.nodup i)
  · exact fun i _ j _ hij ↦ List.disjoint_toFinset_iff_disjoint.mpr (L.allotment.disjoint i j hij)

/-- Every block but the three metadata blocks is free or on one chain. -/
theorem Layout.freeCount_add (L : Layout fat d chain)
    (hr : ∀ b, fat.entry b = some reservedFatEntry → b < 3) :
    freeCount fat + ∑ i, (chain i).length = 509 := by
  have hreserved : (Finset.univ.filter fun j : Fin fatSize ↦ fat j = 1) =
      Finset.univ.filter fun j : Fin fatSize ↦ j.val < 3 := by
    refine Finset.filter_congr fun j _ ↦ ⟨fun h ↦ hr j (by rw [FatTable.entry_val, h]), fun h ↦ ?_⟩
    have h := L.reserved j h
    rwa [FatTable.entry_val, Option.some.injEq] at h
  have hthree : (Finset.univ.filter fun j : Fin fatSize ↦ j.val < 3).card = 3 :=
    Fin.card_filter_val_lt.trans rfl
  have hbusy : (Finset.univ.filter fun j : Fin fatSize ↦ ¬fat j = 0).card =
      (Finset.univ.filter fun j : Fin fatSize ↦ fat j = 1).card +
        (Finset.univ.filter fun j : Fin fatSize ↦ fat j ≠ 0 ∧ fat j ≠ 1).card := by
    rw [← Finset.card_union_of_disjoint]
    · refine congrArg Finset.card (Finset.ext fun j ↦ ?_)
      simp only [Finset.mem_filter, Finset.mem_univ, true_and, Finset.mem_union]
      omega
    · rw [Finset.disjoint_filter]
      intro j _ h1 h
      exact h.2 h1
  have htotal := Finset.card_filter_add_card_filter_not (s := Finset.univ)
    (fun j : Fin fatSize ↦ fat j = 0)
  have huniv : (Finset.univ : Finset (Fin fatSize)).card = 512 := by simp
  rw [hbusy, hreserved, hthree, L.card_busy, huniv] at htotal
  have hfree : freeCount fat = (Finset.univ.filter fun j : Fin fatSize ↦ fat j = 0).card := rfl
  omega

def blocksOf (size : ℕ) : ℕ := size / 1024 + 1

section

variable (C : Consistent fs chain) (O : Ordinary fs)

include C O

theorem inUse_iff {i : Fin dirSize} : (fs.rootDirectory i).inUse ≠ 0 ↔
    (fs.rootDirectory i).inUse = 1 := by
  constructor
  · exact fun hu ↦ ((C.layout.usable i (O.named i hu)).resolve_left hu).1
  · intro hu
    simp [hu]

theorem size_nonneg {i : Fin dirSize} (hu : (fs.rootDirectory i).inUse ≠ 0) :
    0 ≤ (fs.rootDirectory i).size :=
  ((C.layout.usable i (O.named i hu)).resolve_left hu).2

theorem length_chain {i : Fin dirSize} (hu : (fs.rootDirectory i).inUse ≠ 0) :
    (chain i).length = blocksOf (fs.rootDirectory i).size.toNat :=
  C.layout.length ((inUse_iff C O).mp hu) (size_nonneg C O hu)

theorem sum_length : ∑ i, (chain i).length =
    ∑ i with (fs.rootDirectory i).inUse ≠ 0, blocksOf (fs.rootDirectory i).size.toNat := by
  rw [Finset.sum_filter]
  refine Finset.sum_congr rfl fun i _ ↦ ?_
  by_cases hu : (fs.rootDirectory i).inUse = 0
  · rw [if_neg (not_not.mpr hu), C.layout.allotment.unused i (by simp [Directory.start, hu]),
      List.length_nil]
  · rw [if_pos hu, length_chain C O hu]

theorem freeCount_eq : freeCount fs.fat +
    ∑ i with (fs.rootDirectory i).inUse ≠ 0, blocksOf (fs.rootDirectory i).size.toNat = 509 := by
  rw [← sum_length C O]
  exact C.layout.freeCount_add O.reservedOnly

end

structure Intact (fs : FileSystem) (chain : Fin dirSize → List ℕ) : Prop where
  metadata : ∀ b < 3, fs.fat.entry b = some reservedFatEntry
  links : ∀ i, (fs.rootDirectory i).inUse ≠ 0 →
    fs.fat.Chain (fs.rootDirectory i).startingBlock (chain i)
  nodup : ∀ i, (fs.rootDirectory i).inUse ≠ 0 → (chain i).Nodup
  length : ∀ i, (fs.rootDirectory i).inUse ≠ 0 → 0 ≤ (fs.rootDirectory i).size ∧
    (chain i).length = blocksOf (fs.rootDirectory i).size.toNat
  range : ∀ i, (fs.rootDirectory i).inUse ≠ 0 → ∀ b ∈ chain i, 3 ≤ b ∧ b ≤ 511
  disjoint : ∀ i j, (fs.rootDirectory i).inUse ≠ 0 → (fs.rootDirectory j).inUse ≠ 0 → i ≠ j →
    (chain i).Disjoint (chain j)
  covered : ∀ b v, fs.fat.entry b = some v → v ≠ freeFatEntry → v ≠ reservedFatEntry →
    ∃! i, (fs.rootDirectory i).inUse ≠ 0 ∧ b ∈ chain i
  space : freeSpace.run fs = .ok (1024 * (509 - ∑ i with (fs.rootDirectory i).inUse ≠ 0,
    (blocksOf (fs.rootDirectory i).size.toNat : ℤ))) fs
  distinct : ∀ i j, (fs.rootDirectory i).inUse ≠ 0 → (fs.rootDirectory j).inUse ≠ 0 →
    (fs.rootDirectory i).nameBytes = (fs.rootDirectory j).nameBytes → i = j
  writers : ∀ h, (fs.handleTable h).inUse = true → (fs.handleTable h).mode = .WRITE →
    (fs.rootDirectory (fs.handleTable h).directoryIndex).inUse ≠ 0 ∧
    (fs.handleTable h).offset = (fs.rootDirectory (fs.handleTable h).directoryIndex).size ∧
    (chain (fs.handleTable h).directoryIndex).getLast? = some (fs.handleTable h).currentBlock
  readers : ∀ h, (fs.handleTable h).inUse = true → (fs.handleTable h).mode = .READ →
    (fs.rootDirectory (fs.handleTable h).directoryIndex).inUse ≠ 0 ∧
    0 ≤ (fs.handleTable h).offset ∧
    (fs.handleTable h).offset ≤ (fs.rootDirectory (fs.handleTable h).directoryIndex).size ∧
    (chain (fs.handleTable h).directoryIndex)[(fs.handleTable h).offset.toNat / 1024]? =
      some (fs.handleTable h).currentBlock
  checks : (∀ h, (fs.handleTable h).inUse = true → (fs.handleTable h).mode ≠ .WRITE) →
    check.run fs = .ok () fs

theorem Regular.intact (R : Regular fs) : ∃ chain, Intact fs chain := by
  obtain ⟨chain, C, S, O⟩ := R
  have L := C.layout
  refine ⟨chain, L.reserved, fun i hu ↦ L.links ((inUse_iff C O).mp hu),
    fun i _ ↦ L.allotment.nodup i, fun i hu ↦ ⟨size_nonneg C O hu, length_chain C O hu⟩,
    fun i _ b hb ↦ ⟨L.three_le_of_mem hb, Nat.le_of_lt_succ (L.lt_of_mem hb)⟩,
    fun i j _ _ hij ↦ L.allotment.disjoint i j hij, fun b v hb h0 h1 ↦ ?_, ?_, O.distinct,
    fun h hu hm ↦ ?_, fun h hu _ ↦ ?_, check_run C⟩
  · obtain ⟨i, hi⟩ := L.allotment.covered b v hb (by simp [h0, h1])
    exact ⟨i, ⟨(inUse_iff C O).mpr (L.inUse_of_mem hi), hi⟩,
      fun j hj ↦ L.allotment.owner_unique hj.2 hi⟩
  · have hfree := freeCount_eq C O
    have hspace : (freeCount fs.fat : ℤ) * 1024 = 1024 * (509 -
        ((∑ i with (fs.rootDirectory i).inUse ≠ 0,
        blocksOf (fs.rootDirectory i).size.toNat : ℕ) : ℤ)) := by
      omega
    rw [freeSpace_run C.formatted, hspace, Nat.cast_sum]
  · have H := C.handles h hu
    have hlen := L.length H.inUse (H.nonneg.trans H.le_size)
    have heof := S.atEnd h hu hm
    refine ⟨(inUse_iff C O).mpr H.inUse, heof, getLast?_of_getD hlen ?_⟩
    rw [← heof]
    exact H.block
  · have H := C.handles h hu
    have h0 := H.nonneg
    have hlt := L.index_lt H.inUse (o := (fs.handleTable h).offset.toNat)
      (by have := H.le_size; omega)
    refine ⟨(inUse_iff C O).mpr H.inUse, h0, H.le_size, ?_⟩
    rw [← H.block, List.getD_eq_getElem _ 0 hlt, List.getElem?_eq_getElem hlt]

/-- The invariant holds after every run of an ordinary client that starts with
`format`. -/
theorem intact_of_run {disk : BlockDevice blockSize} {raw fs₀ : FileSystem}
    {ls : List (Call × Outcome)} (B : Begins disk raw fs₀ fs) (hr : Run PoliteStep fs ls fs') :
    ∃ chain, Intact fs' chain :=
  (B.run_regular hr).intact

theorem intact_of_run_blank : ∃ chain, Intact ((Call.write 0 [65] 1).reply
    ((Call.open nameA .WRITE).reply blankFormatted).2).2 chain := by
  have hwrite : Polite ((Call.open nameA .WRITE).reply blankFormatted).2 (.write 0 [65] 1) :=
    ⟨by decide, by decide⟩
  exact intact_of_run begins_blank
    (.cons (.of_polite (polite_open_blank .WRITE)) (.cons (.of_polite hwrite) (.nil _)))

end GenericFs.Fat
