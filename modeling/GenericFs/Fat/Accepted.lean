import GenericFs.Fat.Crash
import GenericFs.Fat.Loaded
import GenericFs.Fat.Refinement
import GenericFs.Fat.Unformatted

namespace GenericFs.Fat

open GenericFs.Library Chain Machine Function FileSystem

variable {fs fs' : FileSystem} {chain chain' : Fin dirSize → List ℕ} {c : Call} {d d' : Directory}
  {fat fat' : FatTable} {name : CString} {i : Fin dirSize} {a b fuel : ℕ}

section Freeing

/-- Entries are only freed, and the last one of some chain is. -/
structure Clears (fat fat' : FatTable) : Prop where
  kept : ∀ b, fat'.entry b = fat.entry b ∨ fat'.entry b = some freeFatEntry
  freed : ∃ b, fat.entry b = some eofFatEntry ∧ fat'.entry b = some freeFatEntry

/-- A loop of `remove` that ends has met an end mark, wherever it began. -/
theorem freeChain_clears (h : (freeChain fuel a).run fs = .ok () fs') :
    fs' = { fs with fat := fs'.fat } ∧ Clears fs.fat fs'.fat := by
  induction fuel generalizing fs a with
  | zero => cases h
  | succ fuel ih =>
    cases ha : fs.fat.entry a with
    | none => simp [freeChain, EStateM.run_bind, fatGet_run, ha] at h
    | some next =>
      have hlt := FatTable.entry_lt ha
      have hset : (fs.setFat a freeFatEntry).fat.entry = update fs.fat.entry a
          (some freeFatEntry) :=
        FatTable.entry_set hlt _
      simp only [freeChain, EStateM.run_bind, fatGet_run, ha, fatSet_run hlt] at h
      by_cases heof : next = eofFatEntry
      · simp only [heof, ↓reduceIte, EStateM.run_pure] at h
        cases h
        refine ⟨rfl, fun b ↦ ?_, a, by rw [ha, heof], by rw [hset, update_self]⟩
        rcases eq_or_ne b a with rfl | hb
        · exact .inr (by rw [hset, update_self])
        · exact .inl (by rw [hset, update_of_ne hb])
      · simp only [heof, ↓reduceIte] at h
        obtain ⟨heq, hkept, b, hb, hfreed⟩ := ih h
        rw [hset] at hkept hb
        have hba : b ≠ a := by
          rintro rfl
          simp at hb
        refine ⟨heq, fun c ↦ ?_, b, by rwa [update_of_ne hba] at hb, hfreed⟩
        rcases eq_or_ne c a with rfl | hc
        · exact .inr (by simpa using hkept c)
        · simpa only [update_of_ne hc] using hkept c

/-- The chain of a file that stays does not change when entries are only freed. -/
theorem Accounted.chain_eq (A : Accounted fat d chain) (A' : Accounted fat' d' chain')
    (F : Clears fat fat') (hu : (d i).inUse = 1) (hi : d' i = d i) : chain' i = chain i := by
  have hu' : (d' i).inUse = 1 := by rw [hi, hu]
  have hl := A'.links i hu'
  rw [hi] at hl
  refine Links.unique (Links.congr hl fun b hb ↦ ?_) (A.links i hu)
  exact ((F.kept b).resolve_right (A'.busy i hu' b hb).1).symm

/-- The end mark that is lost belonged to a file that is gone. -/
theorem Accounted.exists_gone (A : Accounted fat d chain) (A' : Accounted fat' d' chain')
    (F : Clears fat fat') : ∃ i, (d i).inUse = 1 ∧ d' i ≠ d i := by
  obtain ⟨b, hb, hfreed⟩ := F.freed
  obtain ⟨i, hu, hmem⟩ := A.covered b eofFatEntry hb (by decide) (by decide)
  refine ⟨i, hu, fun hi ↦ ?_⟩
  rw [← A.chain_eq A' F hu hi] at hmem
  exact (A'.busy i (by rw [hi, hu]) b hmem).1 hfreed

end Freeing

section Removing

theorem SafeToUse.reply (U : SafeToUse fs) (hfile : FileCall c) (hp : Polite fs c) :
    KeepsMetadata fs (c.reply fs).2 ∧ ∀ e, (c.reply fs).1 = .error e → ∃ m, e = .thrown m := by
  obtain ⟨hkeep, hthrown⟩ := U _ _ (.cons ⟨hfile, .of_polite hp⟩ (.nil _))
  exact ⟨hkeep, hthrown _ (List.mem_singleton_self _)⟩

theorem SafeToUse.after {l : Call × Outcome} (U : SafeToUse fs) (hs : FileStep fs l fs')
    (hw : fs'.theDisk.written = fs.theDisk.written) : SafeToUse fs' := by
  intro ls fs'' hr
  obtain ⟨⟨hwritten, hcheck⟩, hthrown⟩ := U _ _ (.cons hs hr)
  rw [← hw] at hwritten
  exact ⟨⟨hwritten, hcheck⟩, fun l hl ↦ hthrown l (List.mem_cons_of_mem _ hl)⟩

theorem Accepted.polite_open (A : Accepted fs chain) (hn : name.Fits) (mode : OpenMode) :
    Polite fs (.open name mode) :=
  ⟨hn, fun _ _ _ h hu ↦ by simp [A.closed h] at hu⟩

/-- From a safe disk a file can be removed, and the disk is as safe without it. -/
theorem SafeToUse.remove (U : SafeToUse fs) (A : Accepted fs chain) (hn : name.Fits)
    (hl : fs.rootDirectory.lookup name = some i) :
    ∃ fs' chain', SafeToUse fs' ∧ Accepted fs' chain' ∧
      Clears fs.fat fs'.fat ∧
      fs'.rootDirectory = update fs.rootDirectory i { fs.rootDirectory i with inUse := 0 } := by
  have hp : Polite fs (.remove name) := ⟨hn, fun _ _ h hu ↦ by simp [A.closed h] at hu⟩
  obtain ⟨⟨-, hcheck⟩, hthrown⟩ := U.reply (c := .remove name) trivial hp
  have hs : FileStep fs (.remove name, _) _ := ⟨trivial, .of_polite hp⟩
  have hrun : (FileSystem.remove name).run fs = (do
      freeChain loopBound (fs.rootDirectory i).startingBlock
      setEntry i { fs.rootDirectory i with inUse := 0 }).run fs := by
    simp only [FileSystem.remove, EStateM.run_bind, findEntry_run hn, hl, EStateM.run_get]
  cases hfree : (freeChain loopBound (fs.rootDirectory i).startingBlock).run fs with
  | error e s =>
    have hreply : (Call.remove name).reply fs = (.error e, s) := by
      simp only [Call.reply, Call.exec, EStateM.run_bind, hrun, hfree]
    rw [hreply] at hthrown
    exact (silent_freeChain _ _ _ _ _ hfree (hthrown e rfl)).elim
  | ok u s =>
    obtain ⟨heq, F⟩ := freeChain_clears hfree
    have hreply : (Call.remove name).reply fs =
        (.ok .unit, s.withEntry i { fs.rootDirectory i with inUse := 0 }) := by
      simp only [Call.reply, Call.exec, EStateM.run_bind, hrun, hfree, setEntry_run,
        EStateM.run_pure]
    rw [hreply] at hcheck hs
    rw [heq] at hcheck hs
    obtain ⟨chain', A'⟩ := accounted_of_checkWith (check_run_eq_ok.mp
      (hcheck fun h hu ↦ by simp [A.closed h] at hu))
    exact ⟨_, chain', U.after hs rfl, ⟨A.formatted, A.device, A.closed, A'⟩, F, rfl⟩

theorem SafeToUse.inUse_eq_one (U : SafeToUse fs) (A : Accepted fs chain) (hn : name.Fits)
    (hl : fs.rootDirectory.lookup name = some i) : (fs.rootDirectory i).inUse = 1 := by
  obtain ⟨fs', chain', -, A', F, hdirectory⟩ := U.remove A hn hl
  obtain ⟨k, hu, hgone⟩ := A.accounted.exists_gone A'.accounted F
  rcases eq_or_ne k i with rfl | hk
  · exact hu
  · rw [hdirectory, update_of_ne hk] at hgone
    exact absurd rfl hgone

end Removing

section Writing

theorem open_links {h : Fin handleTableSize} {l : List ℕ} (hn : name.Fits)
    (hh : (Fin.find? fun h ↦ (fs.handleTable h).inUse = false) = some h)
    (hl : fs.rootDirectory.lookup name = some i)
    (L : fs.fat.Chain (fs.rootDirectory i).startingBlock l) :
    ∃ e : HandleTableEntry, (FileSystem.open name .WRITE).run fs = .ok h (fs.withHandle h e) ∧
      e.inUse = true ∧ e.mode = .WRITE ∧ e.directoryIndex = i ∧
      e.offset = (fs.rootDirectory i).size ∧ e.currentBlock ∈ l := by
  have hlast :
      ∀ e, (lastBlock loopBound (fs.rootDirectory i).startingBlock).run (fs.withHandle h e) =
      .ok (l.getLast L.ne_nil) (fs.withHandle h e) := fun e ↦
    lastBlock_run (show (fs.withHandle h e).fat.Chain _ _ from L)
      (L.length_le.trans (show 512 ≤ loopBound by decide))
  simp only [FileSystem.open, EStateM.run_bind, EStateM.run_get, hh, findEntry_run hn, hl]
  refine ⟨⟨(fs.rootDirectory i).size, i, l.getLast L.ne_nil, true, .WRITE⟩, ?_, rfl, rfl, rfl, rfl,
    List.getLast_mem L.ne_nil⟩
  simp [openEntry, EStateM.run_bind, hlast, withHandle_withHandle]

/-- A write at a negative offset stores before the start of the block buffer. -/
theorem write_before {h : Fin handleTableSize} (hf : fs.formattedFlag = true)
    (hu : (fs.handleTable h).inUse = true) (hm : (fs.handleTable h).mode = .WRITE)
    (hcur : (fs.handleTable h).currentBlock < fs.theDisk.blockCount)
    (hsize : (fs.handleTable h).offset = (fs.rootDirectory (fs.handleTable h).directoryIndex).size)
    (hlt : -1024 < (fs.handleTable h).offset) (hneg : (fs.handleTable h).offset < 0) :
    (FileSystem.write h [0] 1).run fs = .error .undefined fs := by
  have ht : (fs.handleTable h).offset.tmod 1024 = (fs.handleTable h).offset := by
    obtain ⟨n, hn⟩ : ∃ n : ℕ, (fs.handleTable h).offset = -n :=
      ⟨(fs.handleTable h).offset.natAbs, by omega⟩
    rw [hn] at hlt ⊢
    rw [Int.neg_tmod, Int.tmod_eq_of_lt (by omega) (by omega)]
  have hcount : (if (freeCount fs.fat : ℤ) * 1024 + (1024 - (fs.handleTable h).offset) - 1 < 1
      then (freeCount fs.fat : ℤ) * 1024 + (1024 - (fs.handleTable h).offset) - 1 else 1) = 1 :=
    if_neg (by omega)
  have hset : ∀ buffer : Block, (bufferSet buffer (fs.handleTable h).offset 0).run fs =
      .error .undefined fs := fun buffer ↦ by
    rw [bufferSet, dif_neg (by omega), throw_run]
  rw [FileSystem.write, dif_pos ⟨by simp, by exact_mod_cast h.isLt⟩]
  simp only [EStateM.run_bind, EStateM.run_get, handle_eq, hu, hm, ne_eq, not_true_eq_false,
    Bool.true_eq_false, or_self, ↓reduceIte, freeSpace_run hf, blockSize, Nat.cast_ofNat, ← hsize,
    ht, hcount, one_ne_zero, diskRead_run hcur, Int.toNat_one, writeLoop, hset]

/-- A file with a negative size is written to before the start of the block buffer. -/
theorem SafeToUse.size_nonneg (U : SafeToUse fs) (A : Accepted fs chain) (hn : name.Fits)
    (hl : fs.rootDirectory.lookup name = some i) : 0 ≤ (fs.rootDirectory i).size := by
  have hu := U.inUse_eq_one A hn hl
  have L := A.accounted.links i hu
  have hlength := A.accounted.length i hu
  have hpos := L.length_pos
  by_contra hneg
  have hlt : -1024 < (fs.rootDirectory i).size := by
    by_contra hle
    obtain ⟨n, hn⟩ : ∃ n : ℕ, (fs.rootDirectory i).size = -n :=
      ⟨(fs.rootDirectory i).size.natAbs, by omega⟩
    rw [hn, Int.neg_tdiv, Int.tdiv_eq_ediv_of_nonneg (by omega)] at hlength
    omega
  obtain ⟨h, hh⟩ := find_handle A.closed
  obtain ⟨e, hopen, hu', hm, hi, ho, hcur⟩ := open_links hn hh hl L
  have hs : FileStep fs (.open name .WRITE, .ok (.handle h)) (fs.withHandle h e) :=
    ⟨trivial, A.polite_open hn .WRITE, by
      simp only [Step, Call.reply, Call.exec, EStateM.run_bind, hopen, EStateM.run_pure]⟩
  have hhandle : (fs.withHandle h e).handleTable h = e := update_self _ _ _
  have hwrite : (FileSystem.write h [0] 1).run (fs.withHandle h e) = .error .undefined _ :=
    write_before A.formatted (by rw [hhandle, hu']) (by rw [hhandle, hm])
      (by rw [hhandle]; exact (L.lt _ hcur).trans_le A.device) (by rw [hhandle, ho, hi]; rfl)
      (by rw [hhandle, ho]; exact hlt) (by rw [hhandle, ho]; exact not_le.mp hneg)
  obtain ⟨-, hthrown⟩ := (U.after hs rfl).reply (c := .write h [0] 1) trivial ⟨by decide, by decide⟩
  obtain ⟨m, hm⟩ := hthrown .undefined (by
    simp only [Call.reply, Call.exec, EStateM.run_bind, hwrite])
  cases hm

end Writing

section Creating

/-- The first byte of an empty file goes to its first block. -/
theorem write_first {h : Fin handleTableSize} (hf : fs.formattedFlag = true)
    (hu : (fs.handleTable h).inUse = true) (hm : (fs.handleTable h).mode = .WRITE)
    (hsize : (fs.rootDirectory (fs.handleTable h).directoryIndex).size = 0)
    (hoffset : (fs.handleTable h).offset = 0)
    (hdev : (fs.handleTable h).currentBlock < fs.theDisk.blockCount) :
    ((Call.write h [65] 1).reply fs).2.theDisk.written =
      (fs.handleTable h).currentBlock :: fs.theDisk.written := by
  have hroom : 1 = min (1 : ℤ).toNat (room fs (fs.handleTable h).directoryIndex) := by
    rw [room, hsize]
    omega
  have hstart := @write_start fs h [65] hf hu hm (by omega) 1 (by decide) 1 hroom
  rw [if_neg (by decide), hoffset] at hstart
  simp only [EStateM.run_bind, diskRead_run hdev] at hstart
  have hloop := @writeLoop_succ fs h 65 [] (fs.theDisk.block (fs.handleTable h).currentBlock) 0 0
    (by decide) 1024
  rw [if_neg (by decide), writeLoop, EStateM.run_pure] at hloop
  have hadvance :
      ((fs.advance h).handleTable h).currentBlock = (fs.handleTable h).currentBlock := by
    simp [advance]
  have hdev' : ((fs.advance h).handleTable h).currentBlock < (fs.advance h).theDisk.blockCount := by
    rw [hadvance]
    exact hdev
  rw [show (0 : ℤ).tmod 1024 = ((0 : ℕ) : ℤ) from rfl,
    show (1024 : ℤ) - ((0 : ℕ) : ℤ) = 1024 from rfl, hloop] at hstart
  simp only [EStateM.run_get, diskWrite_run hdev', EStateM.run_pure] at hstart
  rw [Call.reply, Call.exec, EStateM.run_bind, hstart]
  show (((fs.advance h).handleTable h).currentBlock :: fs.theDisk.written : List ℕ) = _
  rw [hadvance]

/-- A metadata block that is free goes to the next new file. -/
theorem Accepted.takes_metadata (A : Accepted fs chain)
    (hnames : ∀ i, (fs.rootDirectory i).inUse ≠ 0 → ¬(fs.rootDirectory i).Named)
    (hslot : ∃ i, (fs.rootDirectory i).inUse = 0) {b : Fin fatSize} (hb : b.val < 3)
    (hfree : fs.fat b = 0) :
    ∃ ls fs', Run FileStep fs ls fs' ∧ ∃ j < 3, fs'.theDisk.written = j :: fs.theDisk.written := by
  have hfits : nameA.Fits := by decide
  have hl : fs.rootDirectory.lookup nameA = none :=
    List.find?_eq_none.mpr fun i _ ↦ by simpa using fun H ↦ hnames i H.1 (H.named hfits)
  obtain ⟨h, hh⟩ := find_handle A.closed
  obtain ⟨i, hi⟩ : ∃ i, (Fin.find? fun i ↦ (fs.rootDirectory i).inUse = 0) = some i := by
    obtain ⟨i, hi⟩ := hslot
    cases hfind : Fin.find? fun i ↦ (fs.rootDirectory i).inUse = 0 with
    | some i => exact ⟨i, rfl⟩
    | none =>
      have hnone := Fin.find?_eq_none_iff.mp hfind i
      simp [hi] at hnone
  obtain ⟨j, hj⟩ : ∃ j, fs.fat.firstFree = some j := by
    cases hfind : fs.fat.firstFree with
    | some j => exact ⟨j, rfl⟩
    | none =>
      have hnone := Fin.find?_eq_none_iff.mp hfind b
      simp [hfree] at hnone
  have hjb : j.val < 3 := by
    by_contra hge
    exact (FatTable.firstFree_eq_some hj).2 b (Fin.lt_def.mpr (by omega)) hfree
  have hdev : j.val < fs.theDisk.blockCount := j.isLt.trans_le A.device
  have hopen :
      FileStep fs (.open nameA .WRITE, .ok (.handle h)) ((created fs i j nameA).withHandle h
      { offset := 0, directoryIndex := i, currentBlock := j, inUse := true, mode := .WRITE }) := by
    refine ⟨trivial, A.polite_open hfits .WRITE, ?_⟩
    simp only [Step, Call.reply, Call.exec, FileSystem.open, EStateM.run_bind, EStateM.run_get, hh,
      findEntry_run hfits, hl, reduceCtorEq, ↓reduceIte, createFile_run hfits hi hj,
      EStateM.run_pure]
  have hwrite : FileStep ((created fs i j nameA).withHandle h
      { offset := 0, directoryIndex := i, currentBlock := j, inUse := true, mode := .WRITE })
      (.write h [65] 1, _) _ := ⟨trivial, .of_polite ⟨by decide, by decide⟩⟩
  refine ⟨_, _, .cons hopen (.cons hwrite (.nil _)), j, hjb, ?_⟩
  refine (write_first (by exact A.formatted) (by simp) (by simp) (by simp [created]) (by simp)
    (by simpa [created] using hdev)).trans ?_
  simp [created]

end Creating

section Damaged

def damaged : FileSystem :=
  reloaded { blankFormatted with fat := emptyFat.set 0 freeFatEntry } blankObject

theorem damaged_fat {j : Fin fatSize} : damaged.fat j = 0 ∨ damaged.fat j = 1 := by
  simp only [damaged, reloaded, FatTable.set, emptyFat]
  split_ifs <;> simp

theorem damaged_empty (i : Fin dirSize) : (damaged.rootDirectory i).inUse = 0 := by
  simp [damaged, reloaded, blankFormatted_eq, emptyDirectory]

theorem construct_damaged : ∃ disk : BlockDevice blockSize, disk.blockCount = 512 ∧
    construct disk blankObject = .ok damaged := by
  obtain ⟨chain, C, S, O⟩ := begins_blank.regular
  refine ⟨_, ?_, construct_flushed { blankFormatted with fat := emptyFat.set 0 freeFatEntry }
    C.device O.boot (fun j ↦ ?_) O.storable blankObject⟩
  · exact blankFormatted_blockCount
  · have h := damaged_fat (j := j)
    simp only [damaged, reloaded] at h
    show emptyFat.set 0 freeFatEntry j < 2 ^ 16
    omega

theorem check_damaged : check.run damaged = .ok () damaged := by
  suffices Accounted damaged.fat damaged.rootDirectory fun _ ↦ [] from check_run_eq_ok.mpr
    (checkWith_of_accounted rfl (fun h hu ↦ by simp [damaged, reloaded] at hu) this (by decide))
  have hunused : ∀ i, (damaged.rootDirectory i).inUse ≠ 1 := fun i ↦ by
    rw [damaged_empty i]
    decide
  refine ⟨fun i hu ↦ absurd hu (hunused i), fun i hu ↦ absurd hu (hunused i),
    fun i hu ↦ absurd hu (hunused i), fun i j hu ↦ absurd hu (hunused i),
    fun i hu ↦ absurd hu (hunused i), fun b v hb h0 h1 ↦ ?_⟩
  have hlt := FatTable.entry_lt hb
  rw [FatTable.entry_of_lt hlt, Option.some.injEq] at hb
  subst hb
  exact absurd (damaged_fat (j := ⟨b, hlt⟩)) (by simp [h0, h1])

end Damaged

section Deciding

/-- No number of a metadata block is a link, so such a block comes first in its file. -/
theorem Accounted.start_of_lt (A : Accounted fat d chain) (hu : (d i).inUse = 1)
    (hmem : b ∈ chain i) (hb : b < 3) : (d i).startingBlock = b := by
  obtain rfl | ⟨hne, c, hc, he⟩ := (A.links i hu).eq_start_or hmem
  · rfl
  · obtain ⟨h0, h1⟩ := A.busy i hu c hc
    rw [he] at h0 h1
    simp only [eofFatEntry, ne_eq, Option.some.injEq] at hne h0 h1
    omega

def Directory.found (d : Directory) : Finset (Fin dirSize) :=
  Finset.univ.filter fun i ↦ (d i).inUse ≠ 0 ∧ ∃ k, (d i).name k = 0

theorem Directory.mem_found : i ∈ d.found ↔ (d i).inUse ≠ 0 ∧ (d i).Named := by
  simp [found, DirectoryEntry.Named]

theorem Directory.exists_lookup (hi : i ∈ d.found) : ∃ name : CString, name.Fits ∧
    ∃ k, d.lookup name = some k := by
  obtain ⟨hu, hnamed⟩ := Directory.mem_found.mp hi
  refine ⟨(d i).cname, DirectoryEntry.named_iff.mp hnamed, ?_⟩
  cases hl : d.lookup (d i).cname with
  | some k => exact ⟨k, rfl⟩
  | none => exact absurd ⟨hu, rfl⟩ (Directory.not_holds_of_lookup hl i)

theorem SafeToUse.sturdy_of_none (U : SafeToUse fs) (A : Accepted fs chain)
    (hnone : fs.rootDirectory.found = ∅) (hslot : ¬Sealed fs.rootDirectory) :
    Sturdy fs.fat fs.rootDirectory := by
  have hnames : ∀ i, (fs.rootDirectory i).inUse ≠ 0 → ¬(fs.rootDirectory i).Named :=
      fun i hu hnamed ↦ by
    have hmem := Directory.mem_found.mpr ⟨hu, hnamed⟩
    simp [hnone] at hmem
  refine ⟨fun i hnamed ↦ .inl (by_contra fun hu ↦ hnames i hu hnamed), fun b hb ↦ ?_⟩
  have hlt : b < 512 := by omega
  rw [FatTable.entry_of_lt hlt, Option.some.injEq]
  by_cases h0 : fs.fat ⟨b, hlt⟩ = 0
  · obtain ⟨i, hi⟩ : ∃ i, (fs.rootDirectory i).inUse = 0 := by
      by_contra hall
      exact hslot fun i ↦ ⟨fun hu ↦ hall ⟨i, hu⟩, hnames i fun hu ↦ hall ⟨i, hu⟩⟩
    obtain ⟨ls, fs', hr, j, hj, hwritten⟩ := A.takes_metadata hnames ⟨i, hi⟩ hb h0
    obtain ⟨⟨⟨ws, hws, h3⟩, -⟩, -⟩ := U ls fs' hr
    obtain rfl : [j] = ws := List.append_cancel_right (hwritten.symm.trans hws)
    have hge := h3 j (List.mem_singleton_self j)
    omega
  · refine or_iff_not_imp_left.mpr fun h1 ↦ ?_
    obtain ⟨i, hu, hmem⟩ := A.accounted.covered b _ (FatTable.entry_of_lt hlt) h0 h1
    exact ⟨i, hu, hnames i (by rw [hu]; decide), A.accounted.start_of_lt hu hmem hb⟩

/-- The files of a safe disk can be removed one after the other. A disk without a file that a
name finds is sturdy or sealed, and what makes it so was there before. -/
theorem SafeToUse.sturdy (U : SafeToUse fs) (A : Accepted fs chain)
    (hslot : ¬Sealed fs.rootDirectory) :
    Sturdy fs.fat fs.rootDirectory := by
  induction hs : fs.rootDirectory.found using Finset.strongInductionOn generalizing fs chain with
  | _ s ih =>
    rcases s.eq_empty_or_nonempty with rfl | ⟨k, hk⟩
    · exact U.sturdy_of_none A hs hslot
    · obtain ⟨name, hn, i, hl⟩ := Directory.exists_lookup (hs ▸ hk)
      have hu := U.inUse_eq_one A hn hl
      have hsize := U.size_nonneg A hn hl
      obtain ⟨fs', chain', U', A', F, hdirectory⟩ := U.remove A hn hl
      have hself : fs'.rootDirectory i = { fs.rootDirectory i with inUse := 0 } := by
        rw [hdirectory, update_self]
      have hother : ∀ k, k ≠ i → fs'.rootDirectory k = fs.rootDirectory k := fun k hk ↦ by
        rw [hdirectory, update_of_ne hk]
      have hmem : i ∈ s := by
        have H := Directory.holds_of_lookup hl
        exact hs ▸ Directory.mem_found.mpr ⟨H.1, H.named hn⟩
      have hsub : fs'.rootDirectory.found ⊂ s := by
        refine (Finset.ssubset_iff_of_subset fun k hk ↦ ?_).mpr ⟨i, hmem, fun hi ↦ ?_⟩
        · rcases eq_or_ne k i with rfl | hki
          · exact hmem
          · rw [← hs]
            rw [Directory.mem_found, hother k hki] at hk
            exact Directory.mem_found.mpr hk
        · exact (Directory.mem_found.mp hi).1 (by rw [hself])
      have H := ih _ hsub U' A' (fun hsealed ↦ (hsealed i).1 (by rw [hself])) rfl
      refine ⟨fun k ↦ ?_, fun b hb ↦ ?_⟩
      · rcases eq_or_ne k i with rfl | hki
        · exact fun _ ↦ .inr ⟨hu, hsize⟩
        · rw [← hother k hki]
          exact H.usable k
      · obtain hreserved | ⟨k, hk, hnamed, hstart⟩ := H.metadata b hb
        · have hkept := F.kept b
          rw [hreserved] at hkept
          exact .inl (hkept.resolve_right (by decide)).symm
        · have hki : k ≠ i := fun h ↦ by
            rw [h, hself] at hk
            exact absurd hk (show ¬(0 : UInt8) = 1 by decide)
          rw [hother k hki] at hk hnamed hstart
          exact .inr ⟨k, hk, hnamed, hstart⟩

/-- What `check` accepts is safe to use just if it has what `check` does not look at, or if no
name finds a file on it and no new file has room. -/
theorem safeToUse_iff {disk : BlockDevice blockSize} {raw : FileSystem}
    (hdev : disk.blockCount = 512)
    (hload : construct disk raw = .ok fs) (haccept : check.run fs = .ok () fs) :
    SafeToUse fs ↔ Sturdy fs.fat fs.rootDirectory ∨ Sealed fs.rootDirectory := by
  obtain ⟨chain, A⟩ := Accepted.of_construct hdev hload haccept
  constructor
  · exact fun U ↦ or_iff_not_imp_right.mpr fun hopen ↦ U.sturdy A hopen
  · rintro (H | H)
    · exact H.safeToUse A
    · exact H.safeToUse A

/-- The file `a` with two bytes more, the second of them in a block of its own. -/
def lengthened : FileSystem := ((Call.close 0).reply lengthening).2

theorem safeToUse_iff_twoFiles : (KeepsMetadata (reloaded twoFiles blankObject) lengthened ∧
    lengthened.theDisk.written = [6, 4] ++ (reloaded twoFiles blankObject).theDisk.written ∧
    check.run lengthened = .ok () lengthened) ∧ ¬SafeToUse damaged := by
  have M := twoFiles_mounts blankObject
  have haccept := check_run M.consistent fun h hu ↦ by simp [M.closed h] at hu
  have U := (safeToUse_iff rfl M.constructed haccept).mpr
    (.inl ⟨M.consistent.layout.usable, fun b hb ↦ .inl (M.consistent.layout.reserved b hb)⟩)
  have hopen : FileStep (reloaded twoFiles blankObject) (.open nameA .WRITE, _) _ :=
    ⟨trivial, .of_polite ⟨by decide, fun _ _ _ h hu ↦ by simp [M.closed h] at hu⟩⟩
  have hwrite : FileStep _ (.write 0 [65, 66] 2, _) lengthening :=
    ⟨trivial, .of_polite ⟨by decide, by decide⟩⟩
  have hclose : FileStep lengthening (.close 0, _) lengthened :=
    ⟨trivial, .of_polite (show (0 : ℤ) ≤ 0 by decide)⟩
  obtain ⟨hkeeps, -⟩ := U _ _ (.cons hopen (.cons hwrite (.cons hclose (.nil _))))
  have hshut : ∀ h, (lengthened.handleTable h).inUse = false := by decide +kernel
  refine ⟨⟨hkeeps, by decide +kernel, hkeeps.2 fun h hu ↦ by simp [hshut h] at hu⟩, fun hsafe ↦ ?_⟩
  obtain ⟨disk, hdev, hload⟩ := construct_damaged
  rcases (safeToUse_iff hdev hload check_damaged).mp hsafe with H | H
  · obtain hreserved | ⟨i, hu, -⟩ := H.metadata 0 (by decide)
    · exact absurd hreserved (by decide +kernel)
    · rw [damaged_empty i] at hu
      exact absurd hu (by decide)
  · exact (H 0).1 (damaged_empty 0)

/-- An accepted disk on which a file gets the boot block. -/
theorem not_keepsMetadata_of_accepted : ¬∀ (disk : BlockDevice blockSize) (raw fs fs' : FileSystem)
    (ls : List (Call × Outcome)), disk.blockCount = 512 → construct disk raw = .ok fs →
    (∀ j, fs.fat j < 512) → check.run fs = .ok () fs → Run FileStep fs ls fs' →
    KeepsMetadata fs fs' := by
  intro hclaim
  obtain ⟨disk, hdev, hload⟩ := construct_damaged
  obtain ⟨chain, A⟩ := Accepted.of_construct hdev hload check_damaged
  obtain ⟨ls, fs', hr, j, hj, hwritten⟩ := A.takes_metadata (fun i hu ↦ absurd (damaged_empty i) hu)
    ⟨0, damaged_empty 0⟩ (b := 0) (by decide) rfl
  obtain ⟨⟨ws, hws, h3⟩, -⟩ := hclaim disk _ _ fs' ls hdev hload
    (fun j ↦ by have h := damaged_fat (j := j); omega) check_damaged hr
  obtain rfl : [j] = ws := List.append_cancel_right (hwritten.symm.trans hws)
  have hge := h3 j (List.mem_singleton_self j)
  omega

end Deciding

end GenericFs.Fat
