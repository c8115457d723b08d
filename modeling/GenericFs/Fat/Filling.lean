import GenericFs.Fat.Writers

namespace GenericFs.Fat

open GenericFs.Library Chain Function FileSystem

def FatTable.freeEntries (fat : FatTable) : List (Fin fatSize) :=
  (List.finRange fatSize).filter fun j ↦ fat j = freeFatEntry

namespace FatTable

variable {fat fat' : FatTable} {j : Fin fatSize}

theorem mem_freeEntries : j ∈ fat.freeEntries ↔ fat j = 0 := by
  simp [freeEntries]

theorem nodup_freeEntries (fat : FatTable) : fat.freeEntries.Nodup :=
  (List.nodup_finRange fatSize).filter _

theorem length_freeEntries (fat : FatTable) : fat.freeEntries.length = freeCount fat := by
  have hset : fat.freeEntries.toFinset = Finset.univ.filter fun j ↦ fat j = freeFatEntry := by
    ext j
    simp [freeEntries]
  rw [freeCount, ← hset, List.toFinset_card_of_nodup fat.nodup_freeEntries]

theorem freeEntries_eq_cons (h : fat.firstFree = some j) : ∃ l, fat.freeEntries = j :: l := by
  obtain ⟨hj, hmin⟩ := firstFree_eq_some h
  have hsorted : fat.freeEntries.Pairwise (· < ·) := (List.pairwise_lt_finRange fatSize).filter _
  have hmem := mem_freeEntries.mpr hj
  cases hl : fat.freeEntries with
  | nil =>
    rw [hl] at hmem
    simp at hmem
  | cons k l =>
    rw [hl] at hmem hsorted
    have hk : fat k = 0 := mem_freeEntries.mp (by rw [hl]; exact List.mem_cons_self)
    obtain rfl : k = j := by
      rcases List.mem_cons.mp hmem with h | h
      · exact h.symm
      · exact absurd hk (hmin k ((List.pairwise_cons.mp hsorted).1 j h))
    exact ⟨l, rfl⟩

theorem freeEntries_erase (hfree : ∀ k, fat' k = 0 ↔ fat k = 0 ∧ k ≠ j) {l : List (Fin fatSize)}
    (hl : fat.freeEntries = j :: l) : fat'.freeEntries = l := by
  have hfilter : fat'.freeEntries = fat.freeEntries.filter (· ≠ j) := by
    rw [freeEntries, freeEntries, List.filter_filter]
    refine List.filter_congr fun k _ ↦ ?_
    rw [Bool.eq_iff_iff, decide_eq_true_iff, Bool.and_eq_true, decide_eq_true_iff,
      decide_eq_true_iff, hfree k, and_comm]
  have hj : j ∉ l := (List.nodup_cons.mp (hl ▸ fat.nodup_freeEntries)).1
  rw [hfilter, hl, List.filter_cons_of_neg (by simp), List.filter_eq_self]
  intro k hk
  exact decide_eq_true (ne_of_mem_of_not_mem hk hj)

end FatTable

variable {fs fs' fs'' : FileSystem} {chain chain' chain'' : Fin dirSize → List ℕ}
  {h : Fin handleTableSize} {i : Fin dirSize} {b : UInt8} {bytes : List UInt8} {n m : ℕ}

/-- The file takes the `n` lowest free entries, in increasing order, behind its
last block; no other entry of the FAT changes. -/
structure Takes (i : Fin dirSize) (fs : FileSystem) (chain : Fin dirSize → List ℕ) (n : ℕ)
    (fs' : FileSystem) (chain' : Fin dirSize → List ℕ) : Prop where
  blocks : chain' i = chain i ++ (fs.fat.freeEntries.take n).map Fin.val
  free : fs'.fat.freeEntries = fs.fat.freeEntries.drop n
  others : ∀ k, k ∉ fs.fat.freeEntries.take n → (chain i).getLast? ≠ some k.val →
    fs'.fat k = fs.fat k

theorem Takes.zero (hfat : fs'.fat = fs.fat) : Takes i fs chain 0 fs' chain where
  blocks := by simp
  free := by rw [hfat, List.drop_zero]
  others k _ _ := by rw [hfat]

theorem Takes.trans (T : Takes i fs chain n fs' chain') (T' : Takes i fs' chain' m fs'' chain'') :
    Takes i fs chain (n + m) fs'' chain'' where
  blocks := by
    rw [T'.blocks, T.blocks, T.free, List.take_add, List.map_append, List.append_assoc]
  free := by rw [T'.free, T.free, List.drop_drop]
  others k hk hlast := by
    rw [List.take_add, List.mem_append, not_or] at hk
    rw [T'.others k (by rw [T.free]; exact hk.2) ?_, T.others k hk.1 hlast]
    rw [T.blocks, List.getLast?_append]
    cases hl : ((fs.fat.freeEntries.take n).map Fin.val).getLast? with
    | none => exact hlast
    | some c =>
      intro hc
      obtain rfl : c = k.val := by simpa using hc
      obtain ⟨j, hj, hjk⟩ := List.mem_map.mp (List.mem_of_getLast? hl)
      exact hk.1 (Fin.ext hjk ▸ hj)

theorem Takes.freeCount (T : Takes i fs chain n fs' chain') :
    freeCount fs'.fat = freeCount fs.fat - n := by
  rw [← FatTable.length_freeEntries, ← FatTable.length_freeEntries, T.free, List.length_drop]

theorem appendByte_takes_none (hb : ((fs.handleTable h).offset.toNat + 1) % 1024 ≠ 0) :
    Takes (fs.handleTable h).directoryIndex fs chain 0 (appendByte h fs b) chain := by
  apply Takes.zero
  simp [appendByte, hb]

section Step

variable (C : Consistent fs chain) (hu : (fs.handleTable h).inUse = true)
  (heof : (fs.handleTable h).offset = (fs.rootDirectory (fs.handleTable h).directoryIndex).size)

include C hu heof

theorem appendByte_takes_one (hb : ((fs.handleTable h).offset.toNat + 1) % 1024 = 0)
    {j : Fin fatSize} (hj : fs.fat.firstFree = some j) :
    Takes (fs.handleTable h).directoryIndex fs chain 1 (appendByte h fs b)
      (update chain (fs.handleTable h).directoryIndex
        (chain (fs.handleTable h).directoryIndex ++ [j.val])) := by
  have H := C.handles h hu
  have hmem := currentBlock_mem C hu
  have hlast : (chain (fs.handleTable h).directoryIndex).getLast? =
      some (fs.handleTable h).currentBlock := by
    have h0 := H.nonneg
    have hlen := C.layout.length H.inUse (by omega)
    exact getLast?_of_getD (by omega) H.block
  have hj0 := (FatTable.firstFree_eq_some hj).1
  have hj3 := C.layout.three_le_of_free (by rw [FatTable.entry_val, hj0] : fs.fat.entry j = some 0)
  have hfat : (appendByte h fs b).fat =
      (fs.fat.set (fs.handleTable h).currentBlock j).set j eofFatEntry := by
    simp [appendByte, hb, hj]
  have hbusy : ∀ k : Fin fatSize, k.val = (fs.handleTable h).currentBlock → fs.fat k ≠ 0 := by
    intro k hk h0
    apply (C.layout.entry_ne_idle hmem).1
    rw [← hk, FatTable.entry_val, h0]
  obtain ⟨l, hl⟩ := FatTable.freeEntries_eq_cons hj
  refine ⟨by simp [hl], ?_, fun k hk hkl ↦ ?_⟩
  · rw [hl, List.drop_one, List.tail_cons]
    refine FatTable.freeEntries_erase (fun k ↦ ?_) hl
    rw [hfat]
    by_cases hkj : k = j
    · simp [hkj, FatTable.set]
    · have hkj' : k.val ≠ j.val := fun h ↦ hkj (Fin.ext h)
      by_cases hkc : k.val = (fs.handleTable h).currentBlock
      · have hne := hbusy k hkc
        have hset : ((fs.fat.set (fs.handleTable h).currentBlock j).set j eofFatEntry) k = j := by
          rw [FatTable.set, if_neg hkj', FatTable.set, if_pos hkc]
        rw [hset]
        exact iff_of_false (by omega) fun h ↦ hne h.1
      · simp [FatTable.set, hkj', hkc, hkj]
  · have hkj : k.val ≠ j.val := by
      intro he
      apply hk
      rw [hl]
      simpa using Fin.ext he
    have hkc : k.val ≠ (fs.handleTable h).currentBlock := by
      intro he
      exact hkl (by rw [hlast, he])
    rw [hfat]
    simp only [FatTable.set, hkj, hkc, ↓reduceIte]

variable (bytes) in
/-- Each byte that fills a block takes the lowest free entry that is left. -/
theorem appendBytes_takes (hfree : ((fs.handleTable h).offset.toNat + bytes.length) / 1024 ≤
    (fs.handleTable h).offset.toNat / 1024 + freeCount fs.fat) :
    ∃ chain', Appended h fs chain bytes (appendBytes h fs bytes) chain' ∧
      Takes (fs.handleTable h).directoryIndex fs chain
        (((fs.handleTable h).offset.toNat + bytes.length) / 1024 -
          (fs.handleTable h).offset.toNat / 1024) (appendBytes h fs bytes) chain' := by
  induction bytes generalizing fs chain with
  | nil =>
    refine ⟨chain, .nil C, ?_⟩
    rw [List.length_nil, Nat.add_zero, Nat.sub_self]
    exact Takes.zero rfl
  | cons b bytes ih =>
    have h0 := (C.handles h hu).nonneg
    rw [List.length_cons] at hfree
    obtain ⟨chain₁, A, T⟩ : ∃ chain₁, Appended h fs chain [b] (appendByte h fs b) chain₁ ∧
        Takes (fs.handleTable h).directoryIndex fs chain
          (((fs.handleTable h).offset.toNat + 1) / 1024 - (fs.handleTable h).offset.toNat / 1024)
          (appendByte h fs b) chain₁ := by
      by_cases hb : ((fs.handleTable h).offset.toNat + 1) % 1024 = 0
      · obtain ⟨j, hj⟩ := FatTable.firstFree_isSome (show 0 < freeCount fs.fat by omega)
        have hone : ((fs.handleTable h).offset.toNat + 1) / 1024 -
            (fs.handleTable h).offset.toNat / 1024 = 1 := by omega
        rw [hone]
        exact ⟨_, (appendByte_taken C hu heof hb hj).1, appendByte_takes_one C hu heof hb hj⟩
      · have hnone : ((fs.handleTable h).offset.toNat + 1) / 1024 -
            (fs.handleTable h).offset.toNat / 1024 = 0 := by omega
        rw [hnone]
        exact ⟨_, (appendByte_inside C hu heof hb).1, appendByte_takes_none hb⟩
    have hi : ((appendByte h fs b).handleTable h).directoryIndex =
        (fs.handleTable h).directoryIndex := by rw [A.handle]
    have hoff : ((appendByte h fs b).handleTable h).offset = (fs.handleTable h).offset + 1 := by
      rw [A.handle]
      rfl
    have hcount := T.freeCount
    obtain ⟨chain', A', T'⟩ := ih A.consistent (by rw [A.handle]; exact hu)
      (by rw [hoff, A.handle, A.directory, heof]; simp) (by rw [hoff]; omega)
    rw [hi] at T'
    refine ⟨chain', A.trans A', ?_⟩
    have hsum : ((fs.handleTable h).offset.toNat + (b :: bytes).length) / 1024 -
        (fs.handleTable h).offset.toNat / 1024 =
        ((fs.handleTable h).offset.toNat + 1) / 1024 - (fs.handleTable h).offset.toNat / 1024 +
          ((((appendByte h fs b).handleTable h).offset.toNat + bytes.length) / 1024 -
            ((appendByte h fs b).handleTable h).offset.toNat / 1024) := by
      rw [hoff, List.length_cons]
      omega
    rw [hsum]
    exact T.trans T'

end Step

/-- A write at the end of a file never throws. It puts as many bytes as the slack
of the last block and the free blocks hold but for one, and takes a free block,
the lowest one left, for each block that it fills. -/
theorem write_fills (C : Consistent fs chain) (hu : (fs.handleTable h).inUse = true)
    (hm : (fs.handleTable h).mode = .WRITE) (hi : (fs.handleTable h).directoryIndex = i) {s : ℕ}
    (hs : (fs.rootDirectory i).size = s) (heof : (fs.handleTable h).offset = s)
    (hn : n ≤ bytes.length) {r : ℕ} (hr : r = min n (1024 * freeCount fs.fat + 1023 - s % 1024)) :
    ∃ fs' chain' ws, (FileSystem.write h bytes n).run fs = .ok r (fs'.wrote ws) ∧
      Appended h fs chain (bytes.take r) fs' chain' ∧
      (fs'.rootDirectory i).size = s + r ∧
      (fs.fat.freeEntries.take ((s % 1024 + r) / 1024)).length = (s % 1024 + r) / 1024 ∧
      Takes i fs chain ((s % 1024 + r) / 1024) fs' chain' ∧
      fs'.fat.Chain (fs'.rootDirectory i).startingBlock (chain' i) := by
  subst hi
  have hoff : (fs.handleTable h).offset.toNat = s := by rw [heof, Int.toNat_natCast]
  have hsize : (fs.rootDirectory (fs.handleTable h).directoryIndex).size.toNat = s := by
    rw [hs, Int.toNat_natCast]
  have hroom : r = min (n : ℤ).toNat (room fs (fs.handleTable h).directoryIndex) := by
    rw [hr, room, hsize, Int.toNat_natCast]
  have hlen : (bytes.take r).length = r := by
    rw [List.length_take]
    omega
  have hfree : ((fs.handleTable h).offset.toNat + r) / 1024 ≤
      (fs.handleTable h).offset.toNat / 1024 + freeCount fs.fat := by
    rw [hoff]
    omega
  obtain ⟨ws, hrun, -⟩ :=
    write_bytes_run C hu hm (Int.natCast_nonneg n) (by simpa using hn) hroom hfree
  obtain ⟨chain', A, T⟩ := appendBytes_takes (bytes.take r) C hu (by rw [heof, hs])
    (by rw [hlen]; exact hfree)
  have hblocks : ((fs.handleTable h).offset.toNat + (bytes.take r).length) / 1024 -
      (fs.handleTable h).offset.toNat / 1024 = (s % 1024 + r) / 1024 := by
    rw [hoff, hlen]
    omega
  rw [hblocks] at T
  refine ⟨_, chain', ws, hrun, A, ?_, ?_, T, A.consistent.layout.links ?_⟩
  · rw [A.directory, update_self, hs, hlen]
  · rw [List.length_take, FatTable.length_freeEntries]
    omega
  · rw [A.directory, update_self]
    exact (C.handles h hu).inUse

section TwoFiles

/-- A handle at the end of the file `a`, which one byte more makes full to its last block. -/
def appending : FileSystem := twoFiles.withHandle 0
  { offset := 2047, directoryIndex := 0, currentBlock := 4, inUse := true, mode := .WRITE }

theorem appending_consistent : Consistent appending twoFilesChain :=
  twoFiles_consistent.withHandle fun _ ↦ ⟨rfl, by decide, le_rfl, rfl⟩

theorem write_fills_twoFiles : appending.fat.freeEntries.take 1 = [6] ∧ ∃ fs' chain' ws,
    (FileSystem.write (0 : Fin handleTableSize) [65, 66] (2 : ℕ)).run appending =
    .ok 2 (fs'.wrote ws) ∧
      (fs'.rootDirectory 0).size = 2047 + 2 ∧ Takes 0 appending twoFilesChain 1 fs' chain' := by
  have hcount : freeCount appending.fat = 506 := by decide +kernel
  obtain ⟨fs', chain', ws, hrun, -, hsize, -, T, -⟩ :=
    write_fills (h := 0) (i := 0) (s := 2047) (n := 2)
      (r := 2) appending_consistent rfl rfl rfl rfl rfl (show 2 ≤ [65, 66].length from le_rfl)
      (by rw [hcount]; decide)
  exact ⟨by decide +kernel, fs', chain', ws, hrun, hsize, T⟩

end TwoFiles

end GenericFs.Fat
