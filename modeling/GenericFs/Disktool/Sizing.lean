import GenericFs.Disktool.Image

namespace GenericFs.Disktool

open Function GenericFs.Library Store Returning

/-- The parts of the partition in their order, each with its first block and its
number of blocks: super block, inode map, block map, inode table, root directory. -/
def Sizes.regions (g : Sizes) : List (ℕ × ℕ) :=
  [(0, 1), (1, g.freemapBlocksize), (1 + g.freemapBlocksize, g.freemapBlocksize),
    (1 + 2 * g.freemapBlocksize, g.inodetableBlocksize),
    (1 + 2 * g.freemapBlocksize + g.inodetableBlocksize, 1)]

/-- The parts lie in the partition one behind the other, and the root directory
block is written beside the inode of the root directory. -/
structure Arranged (g : Sizes) : Prop where
  disjoint : g.regions.Pairwise fun r r' ↦ r.1 + r.2 ≤ r'.1
  inside : ∀ r ∈ g.regions, r.1 + r.2 ≤ g.blockCount
  rootKept : ∀ (now : ℕ) (t t' : Tool), 4096 * g.blockCount ≤ t.size →
    (createRoot g now).run t = .ok () t' →
    ∀ k < 64, t'.bytes (4096 * (1 + 2 * g.freemapBlocksize) + k) = (rootNode g now).encode k

structure WellSized (n : ℕ) (g : Sizes) : Prop where
  blocks : g.blockCount = n
  freemap : n ≤ g.freemapBlocksize * 4096 * 8
  inodetable : n ≤ g.inodetableBlocksize * 64
  freemapTight : g.freemapBlocksize * 4096 * 8 < n + 4096 * 8
  inodetableTight : g.inodetableBlocksize * 64 < n + 64
  arranged : (∃ t t', (writeFreemaps g).run t = .ok () t') → Arranged g

variable {g : Sizes} {n : ℕ}

theorem Sizes.regions_disjoint : g.regions.Pairwise fun r r' ↦ r.1 + r.2 ≤ r'.1 := by
  simp only [Sizes.regions, List.pairwise_cons, List.forall_mem_cons, List.not_mem_nil,
    IsEmpty.forall_iff, implies_true, List.Pairwise.nil, and_true]
  omega

theorem Arranged.of_sound (S : Sound g) (htable : 1 ≤ g.inodetableBlocksize) : Arranged g where
  disjoint := Sizes.regions_disjoint
  inside := by
    have hin := S.inside
    simp only [Sizes.metadata] at hin
    simp only [Sizes.regions, List.forall_mem_cons, List.not_mem_nil, IsEmpty.forall_iff,
      implies_true, and_true]
    omega
  rootKept now t t' hsize hrun k hk := by
    obtain ⟨w, w', p, hroot, hw, -⟩ := createRoot_run S hsize now
    injection hrun.symm.trans hroot with _ ht
    subst ht
    have hlast : 4096 * (1 + 2 * g.freemapBlocksize) + k < 4096 * g.metadata := by
      simp only [Sizes.metadata]
      omega
    have hkept : splice (splice t.bytes (4096 * (1 + 2 * g.freemapBlocksize)) 4096 w)
        (4096 * g.metadata) 4096 w' (4096 * (1 + 2 * g.freemapBlocksize) + k) = w k := by
      rw [splice_outside (.inl hlast), splice_add (by omega)]
    exact hkept.trans (hw k hk)

/-- The multiplication by the size of an inode keeps 32 bits, which is 26 bits of
the number of blocks. -/
theorem inodetable_lt : (computeSizes n).inodetableBlocksize * 64 < n % 2 ^ 26 + 64 := by
  have hbytes : n * 64 % 2 ^ 32 = n % 2 ^ 26 * 64 := by omega
  simp only [computeSizes, blockSize, hbytes]
  split_ifs <;> omega

theorem inodetable_le (h : n < 2 ^ 26) : n ≤ (computeSizes n).inodetableBlocksize * 64 := by
  have hbytes : n * 64 % 2 ^ 32 = n * 64 := by omega
  simp only [computeSizes, blockSize, hbytes]
  split_ifs <;> omega

theorem freemap_le : n ≤ (computeSizes n).freemapBlocksize * 4096 * 8 := by
  simp only [computeSizes, blockSize]
  split_ifs <;> omega

theorem freemap_lt : (computeSizes n).freemapBlocksize * 4096 * 8 < n + 4096 * 8 := by
  simp only [computeSizes, blockSize]
  split_ifs <;> omega

theorem sound_of_writeFreemaps {t t' : Tool} (h : 5 ≤ n) (hn : n < 2 ^ 26)
    (hrun : (writeFreemaps (computeSizes n)).run t = .ok () t') : Sound (computeSizes n) := by
  have hmeta := writeFreemaps_small hrun
  have hfreemap := freemap_lt (n := n)
  have htable := inodetable_lt (n := n)
  have hlt : (computeSizes n).metadata + 1 < 2 ^ 32 := by
    rw [Sizes.metadata]
    omega
  rw [Nat.mod_eq_of_lt hlt] at hmeta
  exact Sound.of_le h (by omega) hmeta

/-- The computed sizes suit the partition exactly when the byte size of the inode
table has 32 bits. -/
theorem computeSizes_wellSized_iff (h : 5 ≤ n) (hn : n < 2 ^ 32) :
    WellSized n (computeSizes n) ↔ n < 2 ^ 26 := by
  constructor
  · intro W
    have htable := W.inodetable
    have hlt := inodetable_lt (n := n)
    omega
  · intro hsmall
    have htable := inodetable_le hsmall
    have hlt := inodetable_lt (n := n)
    refine ⟨rfl, freemap_le, htable, freemap_lt, by omega, ?_⟩
    rintro ⟨t, t', hrun⟩
    exact .of_sound (sound_of_writeFreemaps h hsmall hrun) (by omega)

theorem computeSizes_wellSized_fiveBlocks : WellSized 5 (computeSizes 5) :=
  (computeSizes_wellSized_iff (by decide) (by decide)).mpr (by decide)

/-- On a partition of 256 GiB the inode table has no blocks. -/
theorem not_computeSizes_wellSized : ¬∀ n, 5 ≤ n → n < 2 ^ 32 → WellSized n (computeSizes n) := by
  intro hclaim
  exact absurd (hclaim (2 ^ 26) (by decide) (by decide)).inodetable (by decide)

end GenericFs.Disktool
