import GenericFs.Fat.Consistent

namespace GenericFs.Fat

open GenericFs.Library Chain Function FileSystem

variable {fs fs' : FileSystem} {chain chain' : Fin dirSize → List ℕ} {h : Fin handleTableSize}
  {b : UInt8} {bytes : List UInt8}

/-- What an append through a handle does: the file grows by the bytes, its
handle moves on, and everything else of the object is as before. -/
structure Appended (h : Fin handleTableSize) (fs : FileSystem) (chain : Fin dirSize → List ℕ)
    (bytes : List UInt8) (fs' : FileSystem) (chain' : Fin dirSize → List ℕ) : Prop where
  consistent : Consistent fs' chain'
  content : content fs' chain' = update (content fs chain) (fs.handleTable h).directoryIndex
    (content fs chain (fs.handleTable h).directoryIndex ++ bytes)
  directory : fs'.rootDirectory = update fs.rootDirectory (fs.handleTable h).directoryIndex
    { fs.rootDirectory (fs.handleTable h).directoryIndex with
      size := (fs.rootDirectory (fs.handleTable h).directoryIndex).size + bytes.length }
  handle : fs'.handleTable h = { fs.handleTable h with
    offset := (fs.handleTable h).offset + bytes.length
    currentBlock := (fs'.handleTable h).currentBlock }
  others : ∀ k, k ≠ h → fs'.handleTable k = fs.handleTable k
  extended : ∀ k, chain k <+: chain' k
  scan : fs'.scanIndex = fs.scanIndex
  metadata : ∀ b < 3, fs'.theDisk.block b = fs.theDisk.block b
  written : fs'.theDisk.written = fs.theDisk.written
  reserved : ∀ b, fs'.fat.entry b = some reservedFatEntry → fs.fat.entry b = some reservedFatEntry

theorem Appended.nil (C : Consistent fs chain) : Appended h fs chain [] fs chain where
  consistent := C
  content := by simp
  directory := by simp
  handle := by simp
  others _ _ := rfl
  extended _ := List.prefix_rfl
  scan := rfl
  metadata _ _ := rfl
  written := rfl
  reserved _ h := h

theorem Appended.trans {fs'' : FileSystem} {chain'' : Fin dirSize → List ℕ} {bs bs' : List UInt8}
    (A : Appended h fs chain bs fs' chain') (A' : Appended h fs' chain' bs' fs'' chain'') :
    Appended h fs chain (bs ++ bs') fs'' chain'' := by
  have hi : (fs'.handleTable h).directoryIndex = (fs.handleTable h).directoryIndex := by
    rw [A.handle]
  refine ⟨A'.consistent, ?_, ?_, ?_, fun k hk ↦ (A'.others k hk).trans (A.others k hk),
    fun k ↦ (A.extended k).trans (A'.extended k), A'.scan.trans A.scan, fun b hb ↦
    (A'.metadata b hb).trans (A.metadata b hb),
    A'.written.trans A.written, fun b hb ↦ A.reserved b (A'.reserved b hb)⟩
  · rw [A'.content, A.content, hi]
    simp
  · rw [A'.directory, A.directory, hi]
    simp [add_assoc]
  · rw [A'.handle, A.handle]
    simp [add_assoc]

/-- The content after one more byte, when the blocks and the chain of the file
hold it behind the old bytes and the blocks of the others are as before. -/
theorem content_succ {i : Fin dirSize} {s : ℤ} (hs : 0 ≤ s)
    (hd : fs'.rootDirectory = update fs.rootDirectory i { fs.rootDirectory i with size := s + 1 })
    (hsize : (fs.rootDirectory i).size = s)
    (hown : ∀ k ≤ s.toNat, byteAt fs'.theDisk.block (chain' i) k =
      if k = s.toNat then b else byteAt fs.theDisk.block (chain i) k)
    (hothers : ∀ j, j ≠ i → ∀ k, byteAt fs'.theDisk.block (chain' j) k =
      byteAt fs.theDisk.block (chain j) k) :
    content fs' chain' = update (content fs chain) i (content fs chain i ++ [b]) := by
  funext j
  rcases eq_or_ne j i with rfl | hj
  · have hsz : (fs'.rootDirectory j).size.toNat = s.toNat + 1 := by
      rw [hd, update_self]
      show (s + 1).toNat = s.toNat + 1
      omega
    rw [update_self, content, hsz, Store.slice_succ, content, hsize]
    refine congrArg₂ (· ++ ·) (Store.slice_congr fun k hk ↦ ?_) ?_
    · rw [Nat.zero_add, hown k (by omega), if_neg (by omega)]
    · rw [Nat.zero_add, hown s.toNat le_rfl, if_pos rfl]
  · rw [update_of_ne hj, content, content, hd, update_of_ne hj]
    exact Store.slice_congr fun k _ ↦ hothers j hj _

theorem HandleOk.grow {d : Directory} {e : HandleTableEntry} {i : Fin dirSize} {s : ℤ}
    {l : List ℕ} (H : HandleOk d chain e) (L : Layout fs.fat d chain) (hs : (d i).size ≤ s) :
    HandleOk (update d i { d i with size := s }) (update chain i (chain i ++ l)) e := by
  rcases eq_or_ne e.directoryIndex i with hi | hi
  · subst hi
    refine ⟨by simpa using H.inUse, H.nonneg, by simpa using H.le_size.trans hs, ?_⟩
    have hlt :=
      L.index_lt H.inUse (o := e.offset.toNat) (by have := H.nonneg; have := H.le_size; omega)
    rw [update_self, List.getD_append _ _ _ _ hlt, H.block]
  · exact H.frame hi

theorem getLast?_of_getD {l : List ℕ} {n c : ℕ} (hl : l.length = n + 1) (hc : l.getD n 0 = c) :
    l.getLast? = some c := by
  rw [List.getLast?_eq_getElem?, hl, Nat.add_sub_cancel, ← hc, List.getD_eq_getElem?_getD]
  obtain ⟨x, hx⟩ : ∃ x, l[n]? = some x := ⟨l[n], by simp [hl]⟩
  simp [hx]

section Step

variable (C : Consistent fs chain) (hu : (fs.handleTable h).inUse = true)

include C hu

theorem currentBlock_mem :
    (fs.handleTable h).currentBlock ∈ chain (fs.handleTable h).directoryIndex := by
  have H := C.handles h hu
  have h0 := H.nonneg
  have hsize := H.le_size
  have hlt := C.layout.index_lt H.inUse (o := (fs.handleTable h).offset.toNat) (by omega)
  rw [← H.block, List.getD_eq_getElem _ 0 hlt]
  exact List.getElem_mem hlt

theorem Appendable.of_consistent : Appendable fs h where
  reserved := C.layout.reserved
  three_le := C.layout.three_le_of_mem (currentBlock_mem C hu)
  lt := C.layout.lt_of_mem (currentBlock_mem C hu)
  busy := (C.layout.entry_ne_idle (currentBlock_mem C hu)).1
  device := C.device

variable (heof : (fs.handleTable h).offset =
  (fs.rootDirectory (fs.handleTable h).directoryIndex).size)

include heof

theorem byteAt_put_eof {k : ℕ} (hk : k ≤ (fs.handleTable h).offset.toNat) :
    byteAt (update fs.theDisk.block (fs.handleTable h).currentBlock
      (update (fs.theDisk.block (fs.handleTable h).currentBlock)
        ⟨(fs.handleTable h).offset.toNat % 1024, Nat.mod_lt _ (by decide)⟩ b))
      (chain (fs.handleTable h).directoryIndex) k =
    if k = (fs.handleTable h).offset.toNat then b
      else byteAt fs.theDisk.block (chain (fs.handleTable h).directoryIndex) k := by
  have H := C.handles h hu
  have h0 := H.nonneg
  exact byteAt_put (C.layout.allotment.nodup _) (C.layout.index_lt H.inUse (by omega))
    (C.layout.index_lt H.inUse (by omega)) H.block

theorem appendByte_inside (hb : ((fs.handleTable h).offset.toNat + 1) % 1024 ≠ 0) :
    Appended h fs chain [b] (appendByte h fs b) chain ∧
      freeCount (appendByte h fs b).fat = freeCount fs.fat := by
  have H := C.handles h hu
  have h0 := H.nonneg
  have hlen := C.layout.length H.inUse (by omega)
  have hmem := currentBlock_mem C hu
  have hc3 := C.layout.three_le_of_mem hmem
  have hstep : appendByte h fs b = ((fs.withEntry (fs.handleTable h).directoryIndex
      { fs.rootDirectory (fs.handleTable h).directoryIndex with
        size := (fs.rootDirectory (fs.handleTable h).directoryIndex).size + 1 }).withBlock
      (fs.handleTable h).currentBlock (update (fs.theDisk.block (fs.handleTable h).currentBlock)
        ⟨(fs.handleTable h).offset.toNat % 1024, Nat.mod_lt _ (by decide)⟩ b)).withHandle h
      { fs.handleTable h with offset := (fs.handleTable h).offset + 1 } := by
    simp [appendByte, hb]
  rw [hstep]
  refine ⟨⟨⟨C.formatted, C.device, C.layout.resize H.inUse (by omega) (by omega), fun k hk ↦ ?_⟩,
    ?_, by simp, by simp, fun k hk ↦ by simp [hk], fun _ ↦ List.prefix_rfl, rfl, fun c hc ↦ ?_, rfl,
    fun _ hc ↦ hc⟩, rfl⟩
  · rcases eq_or_ne k h with rfl | hkh
    · simp only [withHandle_fields, withBlock_fields, withEntry_fields, update_self]
      refine ⟨by simpa using H.inUse, by simp; omega, by simp; omega, ?_⟩
      have hdiv : ((fs.handleTable k).offset + 1).toNat / 1024 =
          (fs.handleTable k).offset.toNat / 1024 := by
        omega
      simpa only [hdiv] using H.block
    · simp only [withHandle_fields, withBlock_fields, withEntry_fields, update_of_ne hkh] at hk ⊢
      simpa using (C.handles k hk).grow (l := []) C.layout (i := (fs.handleTable h).directoryIndex)
        (by omega)
  · refine content_succ (by omega) rfl rfl (fun k hk ↦ ?_) fun j hj k ↦ ?_
    · rw [← heof] at hk ⊢
      exact byteAt_put_eof C hu heof hk
    · refine byteAt_congr (update_of_ne (by omega) _ _) fun c hc ↦ update_of_ne ?_ _ _
      rintro rfl
      exact hj (C.layout.allotment.owner_unique hc hmem)
  · exact update_of_ne (by omega) _ _

theorem appendByte_taken (hb : ((fs.handleTable h).offset.toNat + 1) % 1024 = 0) {j : Fin fatSize}
    (hj : fs.fat.firstFree = some j) :
    Appended h fs chain [b] (appendByte h fs b) (update chain (fs.handleTable h).directoryIndex
      (chain (fs.handleTable h).directoryIndex ++ [j.val])) ∧
      freeCount fs.fat = freeCount (appendByte h fs b).fat + 1 := by
  have H := C.handles h hu
  have h0 := H.nonneg
  have hlen := C.layout.length H.inUse (by omega)
  have hmem := currentBlock_mem C hu
  have hc3 := C.layout.three_le_of_mem hmem
  have hj0 : fs.fat.entry j = some 0 := by
    rw [FatTable.entry_val, (FatTable.firstFree_eq_some hj).1]
  have hj3 := C.layout.three_le_of_free hj0
  have hfresh := C.layout.not_mem_of_free hj0
  have hlast : (chain (fs.handleTable h).directoryIndex).getLast? =
      some (fs.handleTable h).currentBlock :=
    getLast?_of_getD (by omega) H.block
  have hstep : appendByte h fs b = (((((fs.withEntry (fs.handleTable h).directoryIndex
      { fs.rootDirectory (fs.handleTable h).directoryIndex with
        size := (fs.rootDirectory (fs.handleTable h).directoryIndex).size + 1 }).withBlock
      (fs.handleTable h).currentBlock (update (fs.theDisk.block (fs.handleTable h).currentBlock)
        ⟨(fs.handleTable h).offset.toNat % 1024, Nat.mod_lt _ (by decide)⟩ b)).withBlock j
      (update (fs.theDisk.block (fs.handleTable h).currentBlock)
        ⟨(fs.handleTable h).offset.toNat % 1024, Nat.mod_lt _ (by decide)⟩ b)).setFat
      (fs.handleTable h).currentBlock j).setFat j eofFatEntry).withHandle h { fs.handleTable h with
        offset := (fs.handleTable h).offset + 1, currentBlock := j } := by
    simp [appendByte, hb, hj]
  rw [hstep]
  refine ⟨⟨⟨C.formatted, C.device, C.layout.extend H.inUse (by omega) hlast hj0 (by omega),
    fun k hk ↦ ?_⟩, ?_, by simp, by simp, fun k hk ↦ by simp [hk], fun k ↦ ?_, rfl, fun c hc ↦ ?_,
    rfl, fun c hc ↦ ?_⟩, FatTable.freeCount_hang (FatTable.firstFree_eq_some hj).1 (by omega)
    (C.layout.entry_ne_idle hmem).1⟩
  · rcases eq_or_ne k h with rfl | hkh
    · simp only [withHandle_fields, withBlock_fields, withEntry_fields, setFat_fields, update_self]
      refine ⟨by simpa using H.inUse, by simp; omega, by simp; omega, ?_⟩
      simp only [update_self]
      rw [List.getD_append_right _ _ _ _ (by omega), hlen]
      have hdiv : ((fs.handleTable k).offset + 1).toNat / 1024 -
          ((fs.rootDirectory (fs.handleTable k).directoryIndex).size.toNat / 1024 + 1) = 0 := by
        omega
      simp [hdiv]
    · simp only [withHandle_fields, withBlock_fields, withEntry_fields, setFat_fields,
        update_of_ne hkh] at hk ⊢
      exact (C.handles k hk).grow C.layout (by omega)
  · have hblock : ∀ {x y : Block} c, c ≠ j.val → c ≠ (fs.handleTable h).currentBlock →
        update (update fs.theDisk.block (fs.handleTable h).currentBlock x) j y c =
          fs.theDisk.block c :=
      fun c hcj hcc ↦ (update_of_ne hcj _ _).trans (update_of_ne hcc _ _)
    refine content_succ (by omega) rfl rfl (fun k hk ↦ ?_) fun i hi k ↦ ?_
    · rw [← heof] at hk ⊢
      rw [update_self, byteAt_append (by omega), ← byteAt_put_eof C hu heof hk]
      refine byteAt_congr (update_of_ne (by omega) _ _) fun c hc ↦ update_of_ne ?_ _ _
      rintro rfl
      exact hfresh _ hc
    · rw [update_of_ne hi]
      refine byteAt_congr (hblock 0 (by omega) (by omega)) fun c hc ↦ hblock c ?_ ?_
      · rintro rfl
        exact hfresh _ hc
      · rintro rfl
        exact hi (C.layout.allotment.owner_unique hc hmem)
  · rcases eq_or_ne k (fs.handleTable h).directoryIndex with rfl | hk
    · simp
    · rw [update_of_ne hk]
  · exact (update_of_ne (by omega) _ _).trans (update_of_ne (by omega) _ _)
  · simp only [withHandle_fields, withBlock_fields, withEntry_fields, setFat_fields] at hc
    rw [FatTable.entry_set j.isLt, FatTable.entry_set (C.layout.lt_of_mem hmem)] at hc
    simp only [update_apply] at hc
    split_ifs at hc with h1 h2
    · simp at hc
    · simp only [Option.some.injEq, reservedFatEntry] at hc
      omega
    · exact hc

theorem appendByte_cross (hb : ((fs.handleTable h).offset.toNat + 1) % 1024 = 0)
    (hfree : 0 < freeCount fs.fat) : ∃ j : Fin fatSize,
    Appended h fs chain [b] (appendByte h fs b) (update chain (fs.handleTable h).directoryIndex
      (chain (fs.handleTable h).directoryIndex ++ [j.val])) ∧
      freeCount fs.fat = freeCount (appendByte h fs b).fat + 1 := by
  obtain ⟨j, hj⟩ := FatTable.firstFree_isSome hfree
  exact ⟨j, appendByte_taken C hu heof hb hj⟩

variable (bytes) in
theorem appendBytes_appended (hfree :
    ((fs.handleTable h).offset.toNat + bytes.length) / 1024 ≤
      (fs.handleTable h).offset.toNat / 1024 + freeCount fs.fat) :
    ∃ chain', Appended h fs chain bytes (appendBytes h fs bytes) chain' := by
  induction bytes generalizing fs chain with
  | nil => exact ⟨chain, .nil C⟩
  | cons b bytes ih =>
    have h0 := (C.handles h hu).nonneg
    rw [List.length_cons] at hfree
    obtain ⟨chain₁, A, hcount⟩ : ∃ chain₁, Appended h fs chain [b] (appendByte h fs b) chain₁ ∧
        freeCount fs.fat + (fs.handleTable h).offset.toNat / 1024 =
          freeCount (appendByte h fs b).fat + ((fs.handleTable h).offset.toNat + 1) / 1024 := by
      by_cases hb : ((fs.handleTable h).offset.toNat + 1) % 1024 = 0
      · obtain ⟨j, A, hcount⟩ := appendByte_cross (b := b) C hu heof hb (by omega)
        exact ⟨_, A, by omega⟩
      · obtain ⟨A, hcount⟩ := appendByte_inside (b := b) C hu heof hb
        exact ⟨_, A, by omega⟩
    have hoff : ((appendByte h fs b).handleTable h).offset = (fs.handleTable h).offset + 1 := by
      rw [A.handle]; rfl
    obtain ⟨chain', A'⟩ := ih A.consistent (by rw [A.handle]; exact hu)
      (by rw [hoff, A.handle, A.directory, heof]; simp) (by rw [hoff]; omega)
    exact ⟨chain', A.trans A'⟩

end Step

theorem freeSpace_run (hf : fs.formattedFlag = true) :
    freeSpace.run fs = .ok (freeCount fs.fat * 1024) fs := by
  unfold freeSpace
  simp only [EStateM.run_bind, EStateM.run_get, hf, Bool.true_eq_false, ↓reduceIte,
    EStateM.run_pure, blockSize, Nat.cast_ofNat]

theorem wrote_nil : fs.wrote [] = fs := rfl

theorem settle_self : fs.settle h (fs.theDisk.block (fs.handleTable h).currentBlock) = fs := by
  simp [settle, withBlock]

/-- How many bytes a file can still grow by: what is left of its last block and
all free blocks but for the last byte, which would need one more block. -/
def room (fs : FileSystem) (i : Fin dirSize) : ℕ :=
  1024 * freeCount fs.fat + 1023 - (fs.rootDirectory i).size.toNat % 1024

theorem write_start (hf : fs.formattedFlag = true) (hu : (fs.handleTable h).inUse = true)
    (hm : (fs.handleTable h).mode = .WRITE)
    (hsize : 0 ≤ (fs.rootDirectory (fs.handleTable h).directoryIndex).size) {count : ℤ}
    (hcount : 0 ≤ count) {r : ℕ}
    (hr : r = min count.toNat (room fs (fs.handleTable h).directoryIndex)) :
    (write h bytes count).run fs = (do
      if (r : ℤ) = 0 then return 0
      else
        let blockBuffer ← diskRead (fs.handleTable h).currentBlock
        let blockBuffer ← writeLoop h r bytes blockBuffer ((fs.handleTable h).offset.tmod 1024)
          (1024 - (fs.handleTable h).offset.tmod 1024)
        diskWrite ((← get).handleTable h).currentBlock blockBuffer
        return (r : ℤ)).run fs := by
  have hr' : (if (freeCount fs.fat : ℤ) * 1024 +
      (1024 - (fs.rootDirectory (fs.handleTable h).directoryIndex).size.tmod 1024) - 1 < count
      then (freeCount fs.fat : ℤ) * 1024 +
        (1024 - (fs.rootDirectory (fs.handleTable h).directoryIndex).size.tmod 1024) - 1
      else count) = r := by
    have ht := Int.tmod_eq_emod_of_nonneg (b := 1024) hsize
    rw [hr, room]
    split_ifs <;> omega
  rw [write, dif_pos ⟨by simp, by exact_mod_cast h.isLt⟩]
  simp only [EStateM.run_bind, EStateM.run_get, handle_eq, hu, hm, ne_eq, not_true_eq_false,
    Bool.true_eq_false, or_self, ↓reduceIte, freeSpace_run hf, blockSize, Nat.cast_ofNat]
  rw [hr', Int.toNat_natCast]

/-- A write puts as many of the bytes as there is room for, one after the other
from the handle's offset on, and touches none of the metadata blocks. -/
theorem write_bytes_run (C : Consistent fs chain) (hu : (fs.handleTable h).inUse = true)
    (hm : (fs.handleTable h).mode = .WRITE) {count : ℤ} (hcount : 0 ≤ count)
    (hbytes : count.toNat ≤ bytes.length) {r : ℕ}
    (hr : r = min count.toNat (room fs (fs.handleTable h).directoryIndex))
    (hfree : ((fs.handleTable h).offset.toNat + r) / 1024 ≤
      (fs.handleTable h).offset.toNat / 1024 + freeCount fs.fat) :
    ∃ ws, (write h bytes count).run fs = .ok r ((appendBytes h fs (bytes.take r)).wrote ws) ∧
      ∀ b ∈ ws, 3 ≤ b := by
  have H := C.handles h hu
  have h0 := H.nonneg
  rw [write_start C.formatted hu hm (h0.trans H.le_size) hcount hr]
  by_cases hz : r = 0
  · exact ⟨[], by simp [hz, wrote_nil, appendBytes], by simp⟩
  · have A := Appendable.of_consistent C hu
    have ho : (fs.handleTable h).offset = ((fs.handleTable h).offset.toNat : ℤ) := by omega
    have ht : (fs.handleTable h).offset.tmod 1024 =
        ((fs.handleTable h).offset.toNat % 1024 : ℕ) := by
      rw [Int.tmod_eq_emod_of_nonneg h0]
      omega
    have hlen : r ≤ bytes.length := by omega
    obtain ⟨fs', buffer', ws, hrun, hset, hws, A'⟩ := writeLoop_run
      (fs.theDisk.block (fs.handleTable h).currentBlock) A ho hlen (by omega) ht rfl
    refine ⟨(fs'.handleTable h).currentBlock :: ws, ?_, by simpa using ⟨A'.three_le, hws⟩⟩
    rw [settle_self] at hset
    rw [if_neg (by exact_mod_cast hz)]
    simp only [EStateM.run_bind, diskRead_run (A.lt.trans_le A.device), hrun, EStateM.run_get,
      diskWrite_run (A'.lt.trans_le A'.device), EStateM.run_pure]
    have hlast :
        fs'.withBlock (fs'.handleTable h).currentBlock buffer' = fs'.settle h buffer' := rfl
    rw [hlast, hset, wrote_wrote]
    rfl

theorem write_run (C : Consistent fs chain) (hu : (fs.handleTable h).inUse = true)
    (hm : (fs.handleTable h).mode = .WRITE) {count : ℤ} (hcount : 0 ≤ count)
    (hbytes : count.toNat ≤ bytes.length) {r : ℕ}
    (hr : r = min count.toNat (room fs (fs.handleTable h).directoryIndex))
    (heof : r ≠ 0 → (fs.handleTable h).offset =
      (fs.rootDirectory (fs.handleTable h).directoryIndex).size) :
    ∃ fs' chain' ws, (write h bytes count).run fs = .ok r (fs'.wrote ws) ∧
      Appended h fs chain (bytes.take r) fs' chain' ∧ ∀ b ∈ ws, 3 ≤ b := by
  have hfree : ((fs.handleTable h).offset.toNat + r) / 1024 ≤
      (fs.handleTable h).offset.toNat / 1024 + freeCount fs.fat := by
    rcases eq_or_ne r 0 with hz | hz
    · omega
    · have h0 := (C.handles h hu).nonneg
      have heof := heof hz
      rw [room] at hr
      omega
  obtain ⟨ws, hrun, hws⟩ := write_bytes_run C hu hm hcount hbytes hr hfree
  rcases eq_or_ne r 0 with rfl | hz
  · exact ⟨fs, chain, ws, hrun, Appended.nil C, hws⟩
  · obtain ⟨chain', A⟩ := appendBytes_appended (bytes.take r) C hu (heof hz)
      (by rw [List.length_take]; omega)
    exact ⟨_, chain', ws, hrun, A, hws⟩

end GenericFs.Fat
