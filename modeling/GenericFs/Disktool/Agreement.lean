import GenericFs.Disktool.Readback

namespace GenericFs.Disktool

open Function GenericFs.Library Store Bitmap Returning Machine

def Room (g : Sizes) (t : Tool) (f : NewFile) : Prop :=
  ∃ es, Listed (fun k ↦ t.bytes (4096 * g.metadata + k)) es ∧ extent es + 9 + f.name.length ≤ 4096

structure RoomyStep (g : Sizes) (t : Tool) (f : NewFile) (t' : Tool) : Prop extends
    CreateStep g t f t' where
  room : Room g t f

variable {g : Sizes} {files : List NewFile} {f : NewFile} {t t' : Tool} {n k b block : ℕ}

theorem Held.fits (H : Held g files t) (R : Room g t f) :
    extent (entries files) + 9 + f.name.length ≤ 4096 := by
  obtain ⟨es, hlisted, hfit⟩ := R
  rwa [hlisted.unique H.image.listing] at hfit

theorem held_of_roomy_run {ls : List NewFile} (S : Sound g) (L : Laid g) (H : Held g files t)
    (hr : Run (RoomyStep g) t ls t') : Held g (files ++ ls) t' := by
  apply hr.history _ H
  intro ks s f u Hs hstep
  obtain ⟨u', hrun, Hu, -⟩ := Hs.create S L hstep.admissible (Hs.fits hstep.room)
  rw [hstep.run] at hrun
  cases hrun
  exact Hu

section References

theorem Inode.Points.references {s : ℕ → UInt8} {node : Inode} (h : node.Points block) :
    node.references s = if block ≠ 0 then [block] else [] := by
  have hblocks : (List.finRange 4).map node.blocks = [block, 0, 0, 0] := by
    simp [List.finRange_succ, h.blocks]
  rw [Inode.references, hblocks]
  by_cases hzero : block = 0
  · simp [hzero, h.firstIndirect, h.secondIndirect]
  · simp [hzero, h.firstIndirect, h.secondIndirect]

theorem Held.references_of_le (L : Laid g) (H : Held g files t) (hn : n ≤ files.length) :
    references t.bytes g (n + 1) = List.range' g.metadata (1 + stored (files.take n)) := by
  have hmap := L.mapped
  have hslots := L.slots
  have hinodes := H.inodes
  have hbit : ∀ i ≤ files.length, inodeBit t.bytes i = true := by
    intro i hi
    rw [H.image.inodeMap i (by omega)]
    exact decide_eq_true hi
  induction n with
  | zero =>
    have hmeta : g.metadata ≠ 0 := by
      rw [Sizes.metadata]
      omega
    have hroot := (H.image.root (by omega)).references (s := t.bytes)
    rw [references_succ, hbit 0 (Nat.zero_le _), if_pos rfl, hroot, if_pos hmeta]
    rfl
  | succ n ih =>
    have hlt : n < files.length := hn
    have hslot := (H.image.slot n hlt).1.references (s := t.bytes)
    rw [references_succ, ih hlt.le, hbit _ hn, if_pos rfl, hslot,
      List.take_succ_eq_append_getElem hlt, stored_append]
    by_cases hdata : 0 < (files[n]).size
    · have hne : blockNumber g files n hlt ≠ 0 := by
        rw [blockNumber_eq hlt hdata]
        omega
      rw [if_pos hne, if_pos hdata, ← Nat.add_assoc, List.range'_1_concat, blockNumber_eq hlt hdata,
        Nat.add_assoc]
    · have hzero : blockNumber g files n hlt = 0 := if_neg hdata
      rw [hzero, if_neg hdata]
      exact List.append_nil _

theorem Held.references_eq (L : Laid g) (H : Held g files t) :
    references t.bytes g g.blockCount = List.range' g.metadata (1 + stored files) := by
  have hmap := L.mapped
  have hinodes := H.inodes
  have hrest : ∀ m, files.length + 1 ≤ m → m ≤ g.blockCount →
      references t.bytes g m = references t.bytes g (files.length + 1) := by
    intro m hm
    induction m, hm using Nat.le_induction with
    | base => exact fun _ ↦ rfl
    | succ m hle ih =>
      intro hm
      have hclear : inodeBit t.bytes m = false := by
        rw [H.image.inodeMap m (by omega)]
        exact decide_eq_false (by omega)
      rw [references_succ, hclear, ih (by omega)]
      exact List.append_nil _
  rw [hrest _ hinodes le_rfl, H.references_of_le L le_rfl, List.take_length]

theorem Held.refs_eq (L : Laid g) (H : Held g files t) :
    refs t.bytes g b = if b < freshBlock g files then 1 else 0 := by
  have hmeta : 1 + 2 * g.freemapBlocksize + g.inodetableBlocksize = g.metadata := rfl
  rw [refs, H.references_eq L, List.count_range_1', freshBlock, hmeta]
  by_cases hlow : b < g.metadata
  · rw [if_pos hlow, if_neg (by omega), if_pos (by omega)]
  · rw [if_neg hlow, Nat.zero_add]
    exact if_congr (by omega) rfl rfl

/-- The block free map marks just the blocks that are used, each of them once. -/
theorem Held.accounted (L : Laid g) (H : Held g files t) : Accounted t.bytes g := by
  intro b hb
  have hmap := L.mapped
  have hbit := H.image.blockMap b (by omega)
  rw [hbit, H.refs_eq L, ← freshBlock]
  by_cases hmarked : b < freshBlock g files
  · simp [hmarked]
  · simp [hmarked]

end References

/-- The checker has nothing to say about what the tool writes, after every run of
calls; and each call that finds all that it needs returns. -/
theorem verify_agrees_of_run (h : 5 ≤ t.sizes.blockCount)
    (hcount : t.sizes.blockCount ≤ 2 ^ 20) (now : ℕ) :
    ∃ t₁, (initializePartition t.sizes now).run t = .ok () t₁ ∧
      ∀ files t₂, Run (RoomyStep t.sizes) t₁ files t₂ →
        Accounted t₂.bytes t.sizes ∧
        (∀ allocated, ∃ t₃, (verifyFileSystem t.sizes allocated).run t₂ = .ok () t₃ ∧ t₃.Quiet) ∧
        ∀ f, Admissible t.sizes t₂ f → Room t.sizes t₂ f →
          ∃ t₃, (createFile t.sizes f).run t₂ = .ok () t₃ := by
  have S := t.sound h hcount
  have L := t.laid h hcount
  obtain ⟨t₁, hrun₁, I⟩ := initializePartition_run S t.size_le now
  refine ⟨t₁, hrun₁, fun files t₂ hr ↦ ?_⟩
  have H := held_of_roomy_run S L (.nil S I) hr
  rw [List.nil_append] at H
  refine ⟨H.accounted L, fun allocated ↦ ?_, fun f A R ↦ ?_⟩
  · cases allocated with
    | false => exact t₂.verifyFileSystem_noMemory t.sizes
    | true =>
      have hmeets :
          ∀ a ∈ references t₂.bytes t.sizes t.sizes.blockCount, a < t.sizes.blockCount := by
        intro a ha
        have hblocks := H.blocks
        rw [H.references_eq L, List.mem_range'_1] at ha
        rw [freshBlock] at hblocks
        omega
      have hrefs : ∀ b, refs t₂.bytes t.sizes b < 2 ^ 32 := by
        intro b
        rw [H.refs_eq L]
        split_ifs <;> decide
      obtain ⟨_, t₃, hrun, -, hquiet⟩ := verifyFileSystem_returns L H.image.size hmeets hrefs
      exact ⟨t₃, hrun, hquiet.mpr (H.accounted L)⟩
  · obtain ⟨t₃, hrun, -⟩ := H.create S L A (H.fits R)
    exact ⟨t₃, hrun⟩

theorem verify_agrees_of_run_sixBlocks : ∃ t₁ t₂ t₃,
    (initializePartition (zeroBlocks 6).sizes 0).run (zeroBlocks 6) = .ok () t₁ ∧
      (createFile (zeroBlocks 6).sizes ⟨[0x61], 1, 0⟩).run t₁ = .ok () t₂ ∧
      (verifyFileSystem (zeroBlocks 6).sizes true).run t₂ = .ok () t₃ ∧ t₃.Quiet := by
  obtain ⟨t₁, hrun₁, hall⟩ := verify_agrees_of_run (t := zeroBlocks 6) (by decide) (by decide) 0
  have I := image_of_return ((zeroBlocks 6).sound (by decide) (by decide)) Tool.size_le hrun₁
  have A := admissible_sixBlocks hrun₁
  have R : Room (zeroBlocks 6).sizes t₁ ⟨[0x61], 1, 0⟩ := ⟨_, I.listing, by decide⟩
  obtain ⟨-, -, hnext⟩ := hall [] t₁ (.nil t₁)
  obtain ⟨t₂, hrun₂⟩ := hnext _ A R
  obtain ⟨-, hverify, -⟩ := hall _ t₂ (.cons ⟨⟨A, hrun₂⟩, R⟩ (.nil t₂))
  obtain ⟨t₃, hrun₃, hquiet⟩ := hverify true
  exact ⟨t₁, t₂, t₃, hrun₁, hrun₂, hrun₃, hquiet⟩

end GenericFs.Disktool
