import GenericFs.Disktool.Readback
import GenericFs.Disktool.Sizing

namespace GenericFs.Disktool

open Function GenericFs.Library Store Bitmap Returning

/-- The bytes that a refusal has written over the partition: those of a cleared one, and an
inode map with the bit of the root directory. -/
def wiped (g : Sizes) (k : ℕ) : UInt8 :=
  if k = 4096 then 1
  else if 4096 ≤ k ∧ k < 4096 * (1 + g.freemapBlocksize) then 0
  else unusedSpace

variable {g : Sizes} {t t' : Tool} {w : Workspace} {n k now off v : ℕ} {b : UInt8}

section Never

theorem storeByte_never : Never (· = .exited) (storeByte w off b) :=
  .ite (.pure _) (.throw (by decide))

theorem storeWord_never : Never (· = .exited) (storeWord w off v) :=
  .ite (.pure _) (.throw (by decide))

theorem writeBlocks_never : Never (· = .exited) (writeBlocks w n) := by
  induction n with
  | zero => exact .pure _
  | succ n ih => exact .bind (.modify _) fun _ ↦ ih

theorem markLeftovers_never {byte mask : ℕ} :
    Never (· = .exited) (markLeftovers byte n mask w) := by
  induction n generalizing mask w with
  | zero => exact .pure _
  | succ n ih =>
    exact .bind (.ite (.pure _) (.throw (by decide))) fun _ ↦ .bind storeByte_never fun _ ↦ ih

theorem clearPartition_never : Never (· = .exited) (clearPartition g) :=
  .bind (.modify _) fun _ ↦
    .ite (.bind (.throw (by decide : Fault.undefined ≠ .exited)) fun _ ↦ writeBlocks_never)
    writeBlocks_never

theorem writeFreemaps_never (h : (g.metadata + 1) % 2 ^ 32 ≤ 32768) :
    Never (· = .exited) (writeFreemaps g) := by
  have hfits : ¬blockSize * 8 < (1 + 2 * g.freemapBlocksize + g.inodetableBlocksize + 1) % 2 ^ 32 :=
    not_lt.mpr h
  refine .bind (.modify _) fun _ ↦ .bind (.ite (.pure _) (.throw (by decide))) fun _ ↦
    .bind storeByte_never fun _ ↦ .bind (.modify _) fun _ ↦ .bind writeBlocks_never fun _ ↦ ?_
  simp only [if_neg hfits]
  exact .bind markLeftovers_never fun _ ↦ .bind (.modify _) fun _ ↦ writeBlocks_never

theorem createRoot_never : Never (· = .exited) (createRoot g now) :=
  .bind (.modify _) fun _ ↦ .bind (.modify _) fun _ ↦ .bind storeWord_never fun _ ↦
  .bind storeWord_never fun _ ↦
    .bind storeByte_never fun _ ↦ .bind storeByte_never fun _ ↦ .bind storeWord_never fun _ ↦
    .bind storeWord_never fun _ ↦ .bind storeByte_never fun _ ↦ .bind storeByte_never fun _ ↦
    .bind storeByte_never fun _ ↦ .bind (.modify _) fun _ ↦ .modify _

theorem writeSuper_never : Never (· = .exited) (writeSuper g) := .bind (.modify _) fun _ ↦ .modify _

theorem initializePartition_never (h : (g.metadata + 1) % 2 ^ 32 ≤ 32768) :
    Never (· = .exited) (initializePartition g now) :=
  .bind clearPartition_never fun _ ↦ .bind (writeFreemaps_never h) fun _ ↦
  .bind createRoot_never fun _ ↦
    writeSuper_never

end Never

theorem inodeMapped_wiped (hmap : 1 ≤ g.freemapBlocksize)
    (hin : 1 + g.freemapBlocksize ≤ g.blockCount)
    {s : ℕ → UInt8} :
    inodeMapped g (splice s 0 (4096 * g.blockCount) fun _ ↦ unusedSpace) k =
      if k < 4096 * g.blockCount then wiped g k else s k := by
  rw [inodeMapped, wiped]
  rcases lt_or_ge k 4096 with hhead | hhead
  · have hne : k ≠ 4096 := by omega
    have hnot : ¬(4096 ≤ k ∧ k < 4096 * (1 + g.freemapBlocksize)) := by omega
    have hlt : k < 4096 * g.blockCount := by omega
    rw [splice_outside (by omega), splice_outside (by omega), splice_inside (by omega) (by omega),
      if_pos hlt, if_neg hne, if_neg hnot]
  · rcases lt_or_ge k 8192 with hfirst | hfirst
    · have hlt : k < 4096 * g.blockCount := by omega
      have hmapped : 4096 ≤ k ∧ k < 4096 * (1 + g.freemapBlocksize) := by omega
      have hiff : k - 4096 = 0 ↔ k = 4096 := by omega
      rw [splice_outside (by omega), splice_inside hhead hfirst, if_pos hlt, if_pos hmapped,
        rootMarked_apply (by omega)]
      simp only [hiff]
    · have hk : k ≠ 4096 := by omega
      rw [if_neg hk]
      rcases lt_or_ge k (4096 * (1 + g.freemapBlocksize)) with hmapped | hmapped
      · have hlt : k < 4096 * g.blockCount := by omega
        rw [splice_inside hfirst (by omega), if_pos hlt, if_pos ⟨hhead, hmapped⟩]
      · have hnot : ¬(4096 ≤ k ∧ k < 4096 * (1 + g.freemapBlocksize)) := by omega
        rw [splice_outside (by omega), splice_outside (by omega), if_neg hnot]
        rcases lt_or_ge k (4096 * g.blockCount) with hlt | hge
        · rw [splice_inside (Nat.zero_le _) (by omega), if_pos hlt]
        · rw [splice_outside (by omega), if_neg (not_lt.mpr hge)]

/-- `initialize` gives up after it has cleared the partition and written the inode map. -/
theorem initializePartition_exits (now : ℕ) (hsmall : n < 2 ^ 31) (hsize : 4096 * n ≤ t.size)
    (hlarge : 32768 < (computeSizes n).metadata + 1) :
    ∃ t', (initializePartition (computeSizes n) now).run t = .error .exited t' ∧
      ∀ k, t'.bytes k = if k < 4096 * n then wiped (computeSizes n) k else t.bytes k := by
  have hfreemap := freemap_lt (n := n)
  have htable := inodetable_lt (n := n)
  have hmeta :
      (1 + 2 * (computeSizes n).freemapBlocksize + (computeSizes n).inodetableBlocksize + 1) %
      2 ^ 32 = (computeSizes n).metadata + 1 := by
    rw [Sizes.metadata]
    omega
  rw [Sizes.metadata] at hlarge
  have hmap : 1 ≤ (computeSizes n).freemapBlocksize := by
    have hle := freemap_le (n := n)
    omega
  have hin : 1 + (computeSizes n).freemapBlocksize ≤ n := by omega
  have hclear := clearPartition_run (g := computeSizes n) hsmall hsize
  have hexit : blockSize * 8 < (computeSizes n).metadata + 1 := hlarge
  refine ⟨{ t with
    bytes := inodeMapped (computeSizes n) (splice t.bytes 0 (4096 * n) fun _ ↦ unusedSpace)
    position := 4096 * (1 + (computeSizes n).freemapBlocksize) }, ?_, fun k ↦
    inodeMapped_wiped hmap hin⟩
  rw [initializePartition, run_bind_ok hclear]
  apply run_bind_error
  refine (writeFreemaps_inodeMap hmap (by omega) ?_).trans ?_
  · simp only
    omega
  · rw [writeBlockMap]
    simp only [hmeta, if_pos hexit]
    rfl

theorem exits_of_run (hrun : (initializePartition (computeSizes n) now).run t = .error .exited t')
    (hn : n < 2 ^ 32) : n < 2 ^ 31 ∧ 32768 < (computeSizes n).metadata + 1 := by
  have hfreemap := freemap_lt (n := n)
  have htable := inodetable_lt (n := n)
  have hword : ((computeSizes n).metadata + 1) % 2 ^ 32 = (computeSizes n).metadata + 1 := by
    rw [Sizes.metadata]
    omega
  constructor
  · by_contra hlarge
    have hclear :
        (clearPartition (computeSizes n)).run t = .error .undefined { t with position := 0 } := by
      have hover : 2 ^ 31 ≤ (computeSizes n).blockCount := not_lt.mp hlarge
      rw [clearPartition, run_bind_ok lseek_run]
      simp only [hover, ↓reduceIte]
      rfl
    have hrun' := run_bind_error (f := fun _ ↦ do
      writeFreemaps (computeSizes n)
      createRoot (computeSizes n) now
      writeSuper (computeSizes n)) hclear
    rw [initializePartition] at hrun
    cases hrun.symm.trans hrun'
  · by_contra hfits
    exact initializePartition_never (by omega) t _ t' hrun rfl

/-- When `initialize` gives up, the partition is as it was before just when it already held
what is written until then. -/
theorem initialize_refuses_iff
    (hrun : (initializePartition t.sizes now).run t = .error .exited t') :
    t'.bytes = t.bytes ↔ ∀ k < 4096 * t.sizes.blockCount, t.bytes k = wiped t.sizes k := by
  obtain ⟨hsmall, hlarge⟩ := exits_of_run hrun (Nat.mod_lt _ (by decide))
  obtain ⟨u, hrun', hbytes⟩ := initializePartition_exits now hsmall t.size_le hlarge
  cases hrun.symm.trans hrun'
  have hcount : t.sizes.blockCount = t.size / blockSize % 2 ^ 32 := rfl
  rw [hcount]
  constructor
  · intro hsame k hk
    rw [← hsame, hbytes, if_pos hk]
    rfl
  · intro hsame
    funext k
    rw [hbytes]
    split_ifs with hk
    · exact (hsame k hk).symm
    · rfl

theorem zeroBlocks_sizes (h : n < 2 ^ 32) : (zeroBlocks n).sizes = computeSizes n := by
  have hcount : 4096 * n / 4096 % 2 ^ 32 = n := by omega
  rw [Tool.sizes]
  exact congrArg computeSizes hcount

theorem initialize_refuses_iff_wiped : ∃ t',
    (initializePartition (computeSizes (2 ^ 21)) 0).run
        { zeroBlocks (2 ^ 21) with bytes := wiped (computeSizes (2 ^ 21)) } = .error .exited t' ∧
      t'.bytes = wiped (computeSizes (2 ^ 21)) := by
  let t : Tool := { zeroBlocks (2 ^ 21) with bytes := wiped (computeSizes (2 ^ 21)) }
  obtain ⟨t', hrun, -⟩ := initializePartition_exits (t := t) (n := 2 ^ 21) 0 (by decide) le_rfl
    (by decide)
  have hsizes : t.sizes = computeSizes (2 ^ 21) := zeroBlocks_sizes (by decide)
  have hrun' : (initializePartition t.sizes 0).run t = .error .exited t' := by
    rw [hsizes]
    exact hrun
  have hiff := initialize_refuses_iff hrun'
  rw [hsizes] at hiff
  exact ⟨t', hrun, hiff.mpr fun _ _ ↦ rfl⟩

/-- A partition of 8 GiB is erased before `initialize` gives up. -/
theorem not_initialize_refuses : ¬∀ (t t' : Tool) (now : ℕ),
    (initializePartition t.sizes now).run t = .error .exited t' → t'.bytes = t.bytes := by
  intro hclaim
  have hsizes := zeroBlocks_sizes (n := 2 ^ 21) (by decide)
  obtain ⟨t', hrun, hbytes⟩ := initializePartition_exits (t := zeroBlocks (2 ^ 21)) (n := 2 ^ 21) 0
    (by decide) le_rfl (by decide)
  have hrun' : (initializePartition (zeroBlocks (2 ^ 21)).sizes 0).run (zeroBlocks (2 ^ 21)) =
      .error .exited t' := by
    rw [hsizes]
    exact hrun
  have hsame := congrFun (hclaim _ _ _ hrun') 0
  rw [hbytes, if_pos (by decide)] at hsame
  exact absurd hsame (by decide)

end GenericFs.Disktool
