import GenericFs.Fat.Filling

namespace GenericFs.Fat

open GenericFs.Library Chain Function FileSystem

/-- Two objects that agree in everything but the history of their devices. -/
structure Alike (fs fs' : FileSystem) : Prop where
  fat : fs.fat = fs'.fat
  rootDirectory : fs.rootDirectory = fs'.rootDirectory
  handleTable : fs.handleTable = fs'.handleTable
  image : fs.theDisk.block = fs'.theDisk.block
  device : fs.theDisk.blockCount = fs'.theDisk.blockCount
  formattedFlag : fs.formattedFlag = fs'.formattedFlag
  scanIndex : fs.scanIndex = fs'.scanIndex

variable {fs fs' : FileSystem} {chain chain' : Fin dirSize → List ℕ} {h : Fin handleTableSize}
  {i : Fin dirSize} {bytes bytes' : List UInt8} {ws ws' : List ℕ}

theorem Alike.wrote : Alike (fs.wrote ws) (fs.wrote ws') := ⟨rfl, rfl, rfl, rfl, rfl, rfl, rfl⟩

theorem appendBytes_append :
    appendBytes h fs (bytes ++ bytes') = appendBytes h (appendBytes h fs bytes) bytes' :=
  List.foldl_append

theorem write_whole (C : Consistent fs chain) (hu : (fs.handleTable h).inUse = true)
    (hm : (fs.handleTable h).mode = .WRITE)
    (heof : (fs.handleTable h).offset = (fs.rootDirectory (fs.handleTable h).directoryIndex).size)
    (bytes : List UInt8) {r : ℕ}
    (hr : r = min bytes.length (room fs (fs.handleTable h).directoryIndex)) :
    (∃ ws, (FileSystem.write h bytes bytes.length).run fs =
      .ok r ((appendBytes h fs (bytes.take r)).wrote ws)) ∧
    (∃ chain', Appended h fs chain (bytes.take r) (appendBytes h fs (bytes.take r)) chain') ∧
    room (appendBytes h fs (bytes.take r)) (fs.handleTable h).directoryIndex =
      room fs (fs.handleTable h).directoryIndex - r := by
  have h0 := (C.handles h hu).nonneg
  have hoff : (fs.handleTable h).offset.toNat =
      (fs.rootDirectory (fs.handleTable h).directoryIndex).size.toNat := by rw [heof]
  have hlen : (bytes.take r).length = r := by
    rw [List.length_take]
    omega
  have hfree : ((fs.handleTable h).offset.toNat + r) / 1024 ≤
      (fs.handleTable h).offset.toNat / 1024 + freeCount fs.fat := by
    rw [room, ← hoff] at hr
    omega
  have hwhole : (bytes.length : ℤ).toNat ≤ bytes.length := by simp
  obtain ⟨ws, hrun, -⟩ := write_bytes_run C hu hm (Int.natCast_nonneg bytes.length) hwhole
    (by simpa using hr) hfree
  obtain ⟨chain', A, T⟩ := appendBytes_takes (bytes.take r) C hu heof (by rw [hlen]; exact hfree)
  refine ⟨⟨ws, hrun⟩, ⟨chain', A⟩, ?_⟩
  have hsize : ((appendBytes h fs (bytes.take r)).rootDirectory
      (fs.handleTable h).directoryIndex).size.toNat =
      (fs.rootDirectory (fs.handleTable h).directoryIndex).size.toNat + r := by
    rw [A.directory, update_self, hlen]
    simp only
    omega
  have hcount := T.freeCount
  rw [hlen] at hcount
  rw [room, ← hoff] at hr
  rw [room, room, hcount, hsize, ← hoff]
  omega

/-- A write followed by a second one ends like the write of all bytes at once. -/
theorem write_append (C : Consistent fs chain) (hu : (fs.handleTable h).inUse = true)
    (hm : (fs.handleTable h).mode = .WRITE)
    (heof : (fs.handleTable h).offset = (fs.rootDirectory (fs.handleTable h).directoryIndex).size)
    (a b : List UInt8) :
    ∃ (r r' : ℤ) (fs₁ fs₂ fs' : FileSystem), (FileSystem.write h a a.length).run fs = .ok r fs₁ ∧
      (FileSystem.write h b b.length).run fs₁ = .ok r' fs₂ ∧
      (FileSystem.write h (a ++ b) (a ++ b).length).run fs = .ok (r + r') fs' ∧ Alike fs₂ fs' := by
  obtain ⟨r, hr⟩ : ∃ r, r = min a.length (room fs (fs.handleTable h).directoryIndex) := ⟨_, rfl⟩
  obtain ⟨⟨ws, hrun⟩, ⟨chain', A⟩, hroom⟩ := write_whole C hu hm heof a hr
  -- the second write finds its handle at the end of the file again
  have A' : Consistent ((appendBytes h fs (a.take r)).wrote ws) _ := A.consistent.wrote
  have hhandle : ((appendBytes h fs (a.take r)).wrote ws).handleTable h = _ := A.handle
  have hu' : (((appendBytes h fs (a.take r)).wrote ws).handleTable h).inUse = true := by
    rw [hhandle]
    exact hu
  have hm' : (((appendBytes h fs (a.take r)).wrote ws).handleTable h).mode = .WRITE := by
    rw [hhandle]
    exact hm
  have hi' : (((appendBytes h fs (a.take r)).wrote ws).handleTable h).directoryIndex =
      (fs.handleTable h).directoryIndex := by rw [hhandle]
  have heof' : (((appendBytes h fs (a.take r)).wrote ws).handleTable h).offset =
      (((appendBytes h fs (a.take r)).wrote ws).rootDirectory
        (((appendBytes h fs (a.take r)).wrote ws).handleTable h).directoryIndex).size := by
    rw [hi', hhandle, wrote_fields.2.2.2.2.2.1, A.directory, update_self, heof]
  obtain ⟨r', hr'⟩ : ∃ r', r' = min b.length (room fs (fs.handleTable h).directoryIndex - r) :=
    ⟨_, rfl⟩
  obtain ⟨⟨ws', hrun'⟩, -⟩ :=
    write_whole A' hu' hm' heof' b (r := r') (by rw [hi', hr', ← hroom]; rfl)
  -- the bytes that the two writes accept are those that the single one accepts
  have hsum : r + r' = min (a ++ b).length (room fs (fs.handleTable h).directoryIndex) := by
    rw [List.length_append]
    omega
  have htake : (a ++ b).take (r + r') = a.take r ++ b.take r' := by
    rw [List.take_append]
    by_cases hfull : r = a.length
    · rw [hfull, Nat.add_sub_cancel_left, List.take_of_length_le (Nat.le_add_right _ _),
        List.take_length]
    · have hnone : r' = 0 := by omega
      rw [hnone, Nat.add_zero, Nat.sub_eq_zero_of_le (by omega), List.take_zero]
  obtain ⟨⟨ws'', hrun''⟩, -⟩ := write_whole C hu hm heof (a ++ b) hsum
  rw [Nat.cast_add] at hrun''
  refine ⟨r, r', _, _, _, hrun, hrun', hrun'', ?_⟩
  rw [htake, appendBytes_append, appendBytes_wrote, wrote_wrote]
  exact .wrote

theorem read_append (C : Consistent fs chain) (hu : (fs.handleTable h).inUse = true)
    (hm : (fs.handleTable h).mode = .READ) {m n : ℤ} (hm0 : 0 ≤ m) (hn0 : 0 ≤ n) :
    ∃ (c c' : ℤ) (a b : List UInt8) (fs₁ fs₂ : FileSystem),
      (FileSystem.read h m).run fs = .ok (c, a) fs₁ ∧
      (FileSystem.read h n).run fs₁ = .ok (c', b) fs₂ ∧
      (FileSystem.read h (m + n)).run fs = .ok (c + c', a ++ b) fs₂ := by
  obtain ⟨i, hi⟩ : ∃ i, (fs.handleTable h).directoryIndex = i := ⟨_, rfl⟩
  obtain ⟨o, ho⟩ : ∃ o : ℕ, (fs.handleTable h).offset = o :=
    ⟨_, (Int.toNat_of_nonneg (C.handles h hu).nonneg).symm⟩
  have H := C.handles h hu
  have hsize := H.le_size
  rw [hi, ho] at hsize
  obtain ⟨c, hc⟩ : ∃ c, c = min m.toNat ((fs.rootDirectory i).size.toNat - o) := ⟨_, rfl⟩
  obtain ⟨c', hc'⟩ : ∃ c', c' = min n.toNat ((fs.rootDirectory i).size.toNat - (o + c)) := ⟨_, rfl⟩
  have hfirst := read_run C hu hm hi hm0 ho hc
  -- the second read starts where the first one left the offset
  have C' := C.seek hi (by rw [← hi]; exact H.inUse) (o := o + c) (by push_cast; omega)
  have hsecond := read_run (h := h) (i := i) (o := o + c) C' (by rw [seek_handle]; exact hu)
    (by rw [seek_handle]; exact hm) (by rw [seek_handle]; exact hi) hn0 (by rw [seek_handle]) hc'
  have hwhole := read_run (n := c + c') C hu hm hi (Int.add_nonneg hm0 hn0) ho (by omega)
  refine ⟨c, c', _, _, _, _, hfirst, hsecond, ?_⟩
  have hcontent : content (fs.seek h (chain i) (o + c)) chain i = content fs chain i := rfl
  rw [hwhole, seek_seek, Nat.cast_add, Nat.add_assoc, hcontent]
  have hbytes : ((content fs chain i).drop o).take (m + n).toNat =
      ((content fs chain i).drop o).take m.toNat ++
        ((content fs chain i).drop (o + c)).take n.toNat := by
    rw [Int.toNat_add hm0 hn0, List.take_add, List.drop_drop]
    by_cases hfull : c = m.toNat
    · rw [hfull]
    · have hend : ∀ k, (fs.rootDirectory i).size.toNat ≤ k → (content fs chain i).drop k = [] :=
        fun k hk ↦ List.drop_eq_nil_of_le (by rw [length_content]; exact hk)
      rw [hend (o + m.toNat) (by omega), hend (o + c) (by omega)]
  rw [hbytes]

/-- How a transfer is cut into calls does not matter. A write and a second one
end like the write of all bytes at once, also when the disk fills up in between,
and two reads hand out what one read does. -/
theorem transfer_append (C : Consistent fs chain) :
    (∀ h, (fs.handleTable h).inUse = true → (fs.handleTable h).mode = .WRITE →
      (fs.handleTable h).offset = (fs.rootDirectory (fs.handleTable h).directoryIndex).size →
      ∀ a b : List UInt8, ∃ (r r' : ℤ) (fs₁ fs₂ fs' : FileSystem),
        (FileSystem.write h a a.length).run fs = .ok r fs₁ ∧
        (FileSystem.write h b b.length).run fs₁ = .ok r' fs₂ ∧
        (FileSystem.write h (a ++ b) (a ++ b).length).run fs = .ok (r + r') fs' ∧
        Alike fs₂ fs') ∧
    ∀ h, (fs.handleTable h).inUse = true → (fs.handleTable h).mode = .READ →
      ∀ m n : ℤ, 0 ≤ m → 0 ≤ n → ∃ (c c' : ℤ) (a b : List UInt8) (fs₁ fs₂ : FileSystem),
        (FileSystem.read h m).run fs = .ok (c, a) fs₁ ∧
        (FileSystem.read h n).run fs₁ = .ok (c', b) fs₂ ∧
        (FileSystem.read h (m + n)).run fs = .ok (c + c', a ++ b) fs₂ :=
  ⟨fun _ hu hm heof ↦ write_append C hu hm heof, fun _ hu hm _ _ ↦ read_append C hu hm⟩

/-- Two bytes are written to `a` across the end of a block, and eight read across another one. -/
theorem transfer_append_twoFiles :
    let fs := appending.withHandle 2
      { offset := 1020, directoryIndex := 0, currentBlock := 3, inUse := true, mode := .READ }
    (∃ (r r' : ℤ) (fs₁ fs₂ fs' : FileSystem),
      (FileSystem.write (0 : Fin handleTableSize) [65] 1).run fs = .ok r fs₁ ∧
      (FileSystem.write (0 : Fin handleTableSize) [66] 1).run fs₁ = .ok r' fs₂ ∧
      (FileSystem.write (0 : Fin handleTableSize) [65, 66] 2).run fs = .ok (r + r') fs' ∧
      Alike fs₂ fs') ∧
    ∃ (c c' : ℤ) (a b : List UInt8) (fs₁ fs₂ : FileSystem),
      (FileSystem.read (2 : Fin handleTableSize) 3).run fs = .ok (c, a) fs₁ ∧
      (FileSystem.read (2 : Fin handleTableSize) 5).run fs₁ = .ok (c', b) fs₂ ∧
      (FileSystem.read (2 : Fin handleTableSize) (3 + 5)).run fs = .ok (c + c', a ++ b) fs₂ := by
  intro fs
  have C : Consistent fs twoFilesChain :=
    appending_consistent.withHandle fun _ ↦ ⟨rfl, by decide, by decide, rfl⟩
  obtain ⟨hwrite, hread⟩ := transfer_append C
  exact ⟨hwrite 0 rfl rfl rfl [65] [66], hread 2 rfl rfl 3 5 (by decide) (by decide)⟩

end GenericFs.Fat
