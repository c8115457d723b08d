import GenericFs.Disktool.Partition

namespace GenericFs.Disktool

open Function GenericFs.Library Store

def getBlock (blockNumber : ℕ) (block : Workspace) : Action (ℕ × Workspace) := do
  lseek (address blockNumber)
  let block ← read block blockSize
  return (0, block)

def putBlock (blockNumber : ℕ) (block : Workspace) : Action ℕ := do
  lseek (address blockNumber)
  write block blockSize
  return 0

variable {t : Tool} {w d : Workspace} {n b c k : ℕ}

theorem getBlock_run (h : address b + 4096 ≤ t.size) : (getBlock b w).run t =
    .ok (0, splice w 0 4096 fun k ↦ t.bytes (address b + k))
      { t with position := address b + 4096 } := by
  have hread := read_run (t := { t with position := address b }) (w := w) h
  simp only [getBlock, EStateM.run_bind, lseek_run, hread, EStateM.run_pure]

theorem putBlock_run (h : address b + 4096 ≤ t.size) : (putBlock b d).run t =
    .ok 0 { t with
      bytes := splice t.bytes (address b) 4096 d
      position := address b + 4096 } := by
  have hwrite := write_run (t := { t with position := address b }) (w := d) h
  simp only [putBlock, EStateM.run_bind, lseek_run, hwrite, EStateM.run_pure]

/-- The 32-bit product never leads out of the partition, but it may fall short. -/
theorem address_le : address b ≤ 4096 * b := by
  rw [address, Nat.mul_comm]
  exact Nat.mod_le _ _

theorem address_eq_iff : address b = 4096 * b ↔ b < 2 ^ 20 := by
  constructor
  · intro h
    have hlt : address b < 2 ^ 32 := Nat.mod_lt _ (by decide)
    omega
  · exact address_eq

/-- The law of a store of blocks: putting a block changes its own bytes only, and
getting one finds what was put there last. -/
structure StoreLaw (t : Tool) (b c : ℕ) (d w : Workspace) : Prop where
  frame : ∀ t', (putBlock b d).run t = .ok 0 t' → ∀ k, k < 4096 * b ∨ 4096 * b + 4096 ≤ k →
    t'.bytes k = t.bytes k
  got : ∃ t' block t'', (putBlock b d).run t = .ok 0 t' ∧ (getBlock c w).run t' =
    .ok (0, block) t'' ∧ ∀ k < 4096, block k = if c = b then d k else t.bytes (4096 * c + k)

theorem StoreLaw.of_small (hb : b < 2 ^ 20) (hc : c < 2 ^ 20) (hsize : 4096 * b + 4096 ≤ t.size)
    (hsize' : 4096 * c + 4096 ≤ t.size) : StoreLaw t b c d w := by
  have hput := putBlock_run (d := d) (b := b) (t := t) (by rwa [address_eq hb])
  rw [address_eq hb] at hput
  refine ⟨fun t' ht' k hk ↦ ?_, _, _, _, hput, getBlock_run (by rwa [address_eq hc]), fun k hk ↦ ?_⟩
  · injection hput.symm.trans ht' with _ h
    subst h
    exact splice_outside hk
  · rw [address_eq hc, splice_inside (Nat.zero_le _) (by omega), Nat.sub_zero]
    by_cases hcb : c = b
    · rw [if_pos hcb, hcb]
      exact splice_add hk
    · rw [if_neg hcb]
      exact splice_outside (by omega)

def zeros (n : ℕ) : Tool where
  size := 4096 * n
  bytes := fun _ ↦ 0
  position := 0
  screen := []

theorem StoreLaw.lt_of_put (hb : b < n) (h : StoreLaw (zeros n) b c (fun _ ↦ 1) w) :
    b < 2 ^ 20 := by
  have hle := address_le (b := b)
  have hput := putBlock_run (d := fun _ ↦ 1) (b := b) (t := zeros n)
    (show address b + 4096 ≤ 4096 * n by omega)
  by_contra hlarge
  have hne : address b ≠ 4096 * b := fun he ↦ hlarge (address_eq_iff.mp he)
  have hframe := h.frame _ hput (address b) (.inl (by omega))
  have hchanged : splice (zeros n).bytes (address b) 4096 (fun _ ↦ 1) (address b) = 1 :=
    splice_inside le_rfl (by omega)
  have hzero : (zeros n).bytes (address b) = 0 := rfl
  have hone : (1 : UInt8) = 0 := hchanged.symm.trans (hframe.trans hzero)
  exact absurd hone (by decide)

theorem StoreLaw.lt_of_get (hb : b < 2 ^ 20) (hbn : b < n) (hc : c < n)
    (h : ∀ t : Tool, 4096 * n ≤ t.size → StoreLaw t b c (fun _ ↦ 0) w) : c < 2 ^ 20 := by
  have hle := address_le (b := c)
  by_contra hlarge
  have hne : address c ≠ 4096 * c := fun he ↦ hlarge (address_eq_iff.mp he)
  -- only the bytes of block `c` differ from zero
  let t : Tool := { zeros n with bytes := splice (fun _ ↦ 0) (4096 * c) 4096 fun _ ↦ 1 }
  obtain ⟨t', block, t'', hput, hget, hblock⟩ := (h t le_rfl).got
  have hput' := putBlock_run (d := fun _ ↦ 0) (b := b) (t := t)
    (show address b + 4096 ≤ 4096 * n by rw [address_eq hb]; omega)
  injection hput.symm.trans hput' with _ ht'
  subst ht'
  have hget' := getBlock_run (w := w) (b := c) (t := { t with
      bytes := splice t.bytes (address b) 4096 fun _ ↦ 0
      position := address b + 4096 }) (show address c + 4096 ≤ 4096 * n by omega)
  injection hget.symm.trans hget' with hres _
  have hfirst : block 0 = splice t.bytes (address b) 4096 (fun _ ↦ 0) (address c) := by
    rw [(Prod.mk.inj hres).2, splice_inside (Nat.zero_le _) (by decide)]
    rfl
  have hzero : splice t.bytes (address b) 4096 (fun _ ↦ 0) (address c) = 0 := by
    have houtside : splice (fun _ ↦ (0 : UInt8)) (4096 * c) 4096 (fun _ ↦ 1) (address c) = 0 :=
      splice_outside (.inl (by omega))
    by_cases hin : address b ≤ address c ∧ address c < address b + 4096
    · exact splice_inside hin.1 hin.2
    · rw [splice_outside (by omega)]
      exact houtside
  have hone := hblock 0 (by decide)
  have hcontent : splice (fun _ ↦ (0 : UInt8)) (4096 * c) 4096 (fun _ ↦ 1) (4096 * c + 0) = 1 :=
    splice_inside (by omega) (by omega)
  rw [if_neg (by omega), hfirst, hzero] at hone
  have hone := hone.trans hcontent
  exact absurd hone (by decide)

/-- The law holds of two blocks of a partition, whatever it holds and whatever is
put, exactly when the byte offsets of both have 32 bits. -/
theorem storeLaw_iff (hb : b < n) (hc : c < n) :
    (∀ (t : Tool) (d w : Workspace), 4096 * n ≤ t.size → StoreLaw t b c d w) ↔
      b < 2 ^ 20 ∧ c < 2 ^ 20 := by
  constructor
  · intro h
    have hput := StoreLaw.lt_of_put hb (h (zeros n) (fun _ ↦ 1) (fun _ ↦ 0) le_rfl)
    exact ⟨hput, StoreLaw.lt_of_get hput hb hc fun t ht ↦ h t (fun _ ↦ 0) (fun _ ↦ 0) ht⟩
  · rintro ⟨hb', hc'⟩ t d w ht
    exact .of_small hb' hc' (by omega) (by omega)

theorem storeLaw_iff_fiveBlocks : StoreLaw (zeros 5) 1 2 (fun _ ↦ 1) (fun _ ↦ 0) :=
  (storeLaw_iff (n := 5) (by decide) (by decide)).mpr ⟨by decide, by decide⟩ _ _ _ le_rfl

/-- On a partition of 4 GiB and one block, putting the last block overwrites the first one. -/
theorem not_storeLaw_lastBlock : ¬∀ (n b c : ℕ) (t : Tool) (d w : Workspace), n < 2 ^ 32 → b < n →
    c < n → 4096 * n ≤ t.size → StoreLaw t b c d w := by
  intro hclaim
  have hlaw := hclaim (2 ^ 20 + 1) (2 ^ 20) 0 (zeros (2 ^ 20 + 1)) (fun _ ↦ 1)
    (fun _ ↦ 0) (by decide) (by decide) (by decide) le_rfl
  have hframe := hlaw.frame _ (putBlock_run (by decide)) 0 (.inl (by decide))
  exact absurd hframe (by decide)

end GenericFs.Disktool
