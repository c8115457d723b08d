import GenericFs.Fat.Append

namespace GenericFs.Fat

open GenericFs.Library Chain Function

section Bytes

variable {blocks blocks' : ℕ → Block} {l m : List ℕ} {k o : ℕ} {b : UInt8}

theorem byteAt_congr (h0 : blocks' 0 = blocks 0) (h : ∀ c ∈ l, blocks' c = blocks c) :
    byteAt blocks' l k = byteAt blocks l k := by
  have hc : blocks' (l.getD (k / 1024) 0) = blocks (l.getD (k / 1024) 0) := by
    by_cases hk : k / 1024 < l.length
    · rw [List.getD_eq_getElem l 0 hk]
      exact h _ (List.getElem_mem hk)
    · rwa [List.getD_eq_default l 0 (by omega)]
  simp only [byteAt, hc]

theorem byteAt_append (hk : k / 1024 < l.length) :
    byteAt blocks (l ++ m) k = byteAt blocks l k := by
  simp only [byteAt, List.getD_append _ _ _ _ hk]

/-- A byte put into the block that offset `o` lies in is the byte at `o`, and at
no other offset. -/
theorem byteAt_put (hl : l.Nodup) (ho : o / 1024 < l.length) (hk : k / 1024 < l.length) {c : ℕ}
    (hc : l.getD (o / 1024) 0 = c) :
    byteAt (update blocks c (update (blocks c) ⟨o % 1024, Nat.mod_lt _ (by decide)⟩ b)) l k =
      if k = o then b else byteAt blocks l k := by
  subst hc
  simp only [byteAt, List.getD_eq_getElem l 0 ho, List.getD_eq_getElem l 0 hk]
  by_cases hdiv : k / 1024 = o / 1024
  · simp only [hdiv, update_self, update_apply, Fin.mk.injEq]
    exact if_congr ⟨fun h ↦ by omega, fun h ↦ by rw [h]⟩ rfl rfl
  · have hne : l[k / 1024] ≠ l[o / 1024] := fun h ↦ hdiv (hl.getElem_inj_iff.mp h)
    rw [update_of_ne hne, if_neg (by rintro rfl; exact hdiv rfl)]

end Bytes

/-- An open handle points into its file, and its block is the one that its
offset lies in. -/
structure HandleOk (d : Directory) (chain : Fin dirSize → List ℕ)
    (e : HandleTableEntry) : Prop where
  inUse : (d e.directoryIndex).inUse = 1
  nonneg : 0 ≤ e.offset
  le_size : e.offset ≤ (d e.directoryIndex).size
  block : (chain e.directoryIndex).getD (e.offset.toNat / 1024) 0 = e.currentBlock

/-- A formatted file system, on a device that has every block of the FAT, whose
layout is intact and whose open handles point into their files. -/
structure Consistent (fs : FileSystem) (chain : Fin dirSize → List ℕ) : Prop where
  formatted : fs.formattedFlag = true
  device : 512 ≤ fs.theDisk.blockCount
  layout : Layout fs.fat fs.rootDirectory chain
  handles : ∀ h, (fs.handleTable h).inUse = true →
    HandleOk fs.rootDirectory chain (fs.handleTable h)

def content (fs : FileSystem) (chain : Fin dirSize → List ℕ) (i : Fin dirSize) : List UInt8 :=
  Store.slice (byteAt fs.theDisk.block (chain i)) 0 (fs.rootDirectory i).size.toNat

variable {fs fs' : FileSystem} {chain chain' : Fin dirSize → List ℕ} {h : Fin handleTableSize}
  {e : HandleTableEntry} {i : Fin dirSize} {b : UInt8}

theorem Layout.index_lt {fat : FatTable} {d : Directory} (L : Layout fat d chain)
    (hu : (d i).inUse = 1) {o : ℕ} (ho : (o : ℤ) ≤ (d i).size) : o / 1024 < (chain i).length := by
  have hlen := L.length hu (by omega)
  have hdiv : o / 1024 ≤ (d i).size.toNat / 1024 := Nat.div_le_div_right (by omega)
  omega

theorem HandleOk.frame {d : Directory} {x : DirectoryEntry} {l : List ℕ} (H : HandleOk d chain e)
    (hi : e.directoryIndex ≠ i) : HandleOk (update d i x) (update chain i l) e := by
  refine ⟨?_, H.nonneg, ?_, ?_⟩
  · rw [update_of_ne hi]
    exact H.inUse
  · rw [update_of_ne hi]
    exact H.le_size
  · rw [update_of_ne hi]
    exact H.block

theorem length_content : (content fs chain i).length = (fs.rootDirectory i).size.toNat := by
  simp [content]

theorem content_congr (hb : fs'.theDisk.block = fs.theDisk.block)
    (hs : (fs'.rootDirectory i).size = (fs.rootDirectory i).size) (hc : chain' i = chain i) :
    content fs' chain' i = content fs chain i := by
  rw [content, content, hb, hs, hc]

theorem content_eq_nil (hs : (fs.rootDirectory i).size = 0) : content fs chain i = [] := by
  simp [content, hs]

theorem Consistent.withHandle (C : Consistent fs chain)
    (he : e.inUse = true → HandleOk fs.rootDirectory chain e) :
    Consistent (fs.withHandle h e) chain where
  formatted := C.formatted
  device := C.device
  layout := C.layout
  handles k hk := by
    rcases eq_or_ne k h with rfl | hkh
    · simpa using he (by simpa using hk)
    · simpa [hkh] using C.handles k (by simpa [hkh] using hk)

theorem Consistent.seek (C : Consistent fs chain) (hi : (fs.handleTable h).directoryIndex = i)
    (hu : (fs.rootDirectory i).inUse = 1) {o : ℕ} (ho : (o : ℤ) ≤ (fs.rootDirectory i).size) :
    Consistent (fs.seek h (chain i) o) chain := by
  subst hi
  exact C.withHandle fun _ ↦ ⟨hu, by simp, ho, by simp⟩

theorem Consistent.wrote (C : Consistent fs chain) {ws : List ℕ} : Consistent (fs.wrote ws) chain :=
  ⟨C.formatted, C.device, C.layout, C.handles⟩

theorem handle_eq (h : Fin handleTableSize) {hlt : (h.val : ℤ).toNat < handleTableSize} :
    (⟨(h.val : ℤ).toNat, hlt⟩ : Fin handleTableSize) = h := Fin.ext (by simp)

/-- A read along a chain of blocks that is long enough for the file. -/
theorem read_links {l : List ℕ} {a : ℕ} (hl : fs.fat.Chain a l)
    (hu : (fs.handleTable h).inUse = true)
    (hm : (fs.handleTable h).mode = .READ) (hi : (fs.handleTable h).directoryIndex = i) {count : ℤ}
    (hcount : 0 ≤ count) {o n : ℕ} (ho : (fs.handleTable h).offset = o)
    (hn : n = min count.toNat ((fs.rootDirectory i).size.toNat - o))
    (hle : (o : ℤ) ≤ (fs.rootDirectory i).size) (hdev : ∀ b ∈ l, b < fs.theDisk.blockCount)
    (hblock : l.getD (o / 1024) 0 = (fs.handleTable h).currentBlock)
    (hlength : ∀ k : ℕ, (k : ℤ) ≤ (fs.rootDirectory i).size → k / 1024 < l.length) :
    (FileSystem.read h count).run fs =
      .ok (n, Store.slice (byteAt fs.theDisk.block l) o n) (fs.seek h l (o + n)) := by
  subst hi
  have hstart : (FileSystem.read h count).run fs = (do
      if (n : ℤ) = 0 then return (0, [])
      else
        let blockBuffer ← diskRead (fs.handleTable h).currentBlock
        let bytes ← FileSystem.readLoop h n blockBuffer ((fs.handleTable h).offset.tmod 1024)
          (1024 - (fs.handleTable h).offset.tmod 1024)
        return ((n : ℤ), bytes)).run fs := by
    have hn' : (if (fs.rootDirectory (fs.handleTable h).directoryIndex).size -
        (fs.handleTable h).offset < count
        then (fs.rootDirectory (fs.handleTable h).directoryIndex).size - (fs.handleTable h).offset
        else count) = n := by
      split_ifs <;> omega
    rw [FileSystem.read, dif_pos ⟨by simp, by exact_mod_cast h.isLt⟩]
    simp only [EStateM.run_bind, EStateM.run_get, handle_eq, hu, hm, ne_eq, not_true_eq_false,
      Bool.true_eq_false, or_self, ↓reduceIte, blockSize, Nat.cast_ofNat]
    rw [hn', Int.toNat_natCast]
  rw [hstart]
  by_cases hz : n = 0
  · simp [hz, FileSystem.seek_self ho hblock]
  · have ht : (fs.handleTable h).offset.tmod 1024 = (o % 1024 : ℕ) := by
      rw [ho]
      exact (Int.natCast_mod o 1024).symm
    have hcur : (fs.handleTable h).currentBlock < fs.theDisk.blockCount := by
      have hlt := hlength o hle
      rw [List.getD_eq_getElem _ 0 hlt] at hblock
      exact hdev _ (hblock ▸ List.getElem_mem hlt)
    rw [if_neg (by exact_mod_cast hz)]
    simp only [EStateM.run_bind, diskRead_run hcur]
    rw [FileSystem.readLoop_run hl hdev ho hblock (hlength _ (by push_cast; omega)) ht rfl]
    rfl

/-- A read hands out the bytes of the file behind the handle's offset, up to
the number asked for, and moves the offset behind them. -/
theorem read_run (C : Consistent fs chain) (hu : (fs.handleTable h).inUse = true)
    (hm : (fs.handleTable h).mode = .READ) (hi : (fs.handleTable h).directoryIndex = i) {count : ℤ}
    (hcount : 0 ≤ count) {o n : ℕ} (ho : (fs.handleTable h).offset = o)
    (hn : n = min count.toNat ((fs.rootDirectory i).size.toNat - o)) :
    (FileSystem.read h count).run fs =
      .ok (n, ((content fs chain i).drop o).take count.toNat) (fs.seek h (chain i) (o + n)) := by
  subst hi
  have H := C.handles h hu
  have hsize := H.le_size
  have hbytes : ((content fs chain (fs.handleTable h).directoryIndex).drop o).take count.toNat =
      Store.slice (byteAt fs.theDisk.block (chain (fs.handleTable h).directoryIndex)) o n := by
    rw [content, Store.drop_slice, Store.take_slice, Nat.zero_add, ← hn]
  have hblock : (chain (fs.handleTable h).directoryIndex).getD (o / 1024) 0 =
      (fs.handleTable h).currentBlock := by
    rw [← H.block, ho, Int.toNat_natCast]
  rw [hbytes]
  exact read_links (C.layout.links H.inUse) hu hm rfl hcount ho hn (by omega)
    (fun b hb ↦ (C.layout.lt_of_mem hb).trans_le C.device) hblock
    fun k hk ↦ C.layout.index_lt H.inUse hk

section Resize

variable {fat : FatTable} {d : Directory} {s : ℤ}

theorem Directory.start_resize : Directory.start (update d i { d i with size := s }) = d.start := by
  funext k
  rcases eq_or_ne k i with rfl | hk
  · simp [Directory.start]
  · simp [Directory.start, hk]

theorem Layout.usable_resize (L : Layout fat d chain) (hs : 0 ≤ s) (hu : (d i).inUse = 1)
    (k : Fin dirSize) : (update d i { d i with size := s } k).Usable := by
  rcases eq_or_ne k i with rfl | hk
  · rw [update_self]
    exact fun _ ↦ .inr ⟨hu, hs⟩
  · rw [update_of_ne hk]
    exact L.usable k

theorem Layout.resize (L : Layout fat d chain) (hu : (d i).inUse = 1) (hs : 0 ≤ s)
    (hlen : (chain i).length = s.toNat / 1024 + 1) :
    Layout fat (update d i { d i with size := s }) chain where
  allotment := by rw [Directory.start_resize]; exact L.allotment
  reserved := L.reserved
  usable := L.usable_resize hs hu
  blocks k hk := by
    have ht : s.tdiv 1024 = s / 1024 := Int.tdiv_eq_ediv_of_nonneg hs
    rcases eq_or_ne k i with rfl | hki
    · rw [update_self]
      show ((chain k).length : ℤ) = s.tdiv 1024 + 1
      omega
    · rw [update_of_ne hki] at hk ⊢
      exact L.blocks k hk

theorem Layout.extend (L : Layout fat d chain) (hu : (d i).inUse = 1) (hs : 0 ≤ s) {c j : ℕ}
    (hc : (chain i).getLast? = some c) (hj : fat.entry j = some 0)
    (hlen : (chain i).length = s.toNat / 1024) :
    Layout ((fat.set c j).set j eofFatEntry) (update d i { d i with size := s })
      (update chain i (chain i ++ [j])) := by
  obtain ⟨l, hl⟩ := List.getLast?_eq_some_iff.mp hc
  have hj3 := L.three_le_of_free hj
  have hc3 : 3 ≤ c := L.three_le_of_mem (i := i) (by simp [hl])
  have hc512 : c < 512 := L.lt_of_mem (i := i) (by simp [hl])
  have hj512 := FatTable.entry_lt hj
  refine ⟨?_, fun b hb ↦ ?_, L.usable_resize hs hu, fun k hk ↦ ?_⟩
  · rw [Directory.start_resize, FatTable.entry_set hj512, FatTable.entry_set hc512]
    refine L.allotment.extend (by simp) ⟨l, hl⟩ hj (by simp) ?_ ?_
    · simp only [eofFatEntry]
      omega
    · simp only [freeFatEntry, reservedFatEntry, Set.mem_insert_iff, Set.mem_singleton_iff]
      omega
  · rw [FatTable.entry_set hj512, FatTable.entry_set hc512, update_of_ne (by omega),
      update_of_ne (by omega), L.reserved b hb]
  · have ht : s.tdiv 1024 = s / 1024 := Int.tdiv_eq_ediv_of_nonneg hs
    rcases eq_or_ne k i with rfl | hki
    · rw [update_self, update_self, List.length_append, List.length_singleton]
      show (((chain k).length + 1 : ℕ) : ℤ) = s.tdiv 1024 + 1
      omega
    · rw [update_of_ne hki] at hk ⊢
      rw [update_of_ne hki]
      exact L.blocks k hk

end Resize

end GenericFs.Fat
