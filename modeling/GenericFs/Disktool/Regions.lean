import GenericFs.Disktool.Creating

namespace GenericFs.Disktool

open Function GenericFs.Library Store Bitmap Returning

variable {g : Sizes} {files : List NewFile} {f : NewFile} {s : ℕ → UInt8} {size k i b : ℕ}

theorem created_below (hk : k < 4096 * freshBlock g files) : created g files f size s k =
    splice (splice (marked g files f s) (4096 * g.metadata) 4096 (rootLinked g files f s))
      (slotOf g files) (min 64 (size - slotOf g files))
      (currentNode f (dataBlock g files f)).encode k := by
  rw [created]
  split_ifs
  · exact splice_outside (.inl hk)
  · rfl

theorem created_maps (hk : k < 4096 * (1 + 2 * g.freemapBlocksize)) :
    created g files f size s k = marked g files f s k := by
  have hbelow : k < 4096 * freshBlock g files := by
    rw [freshBlock, Sizes.metadata]
    omega
  have hslot : k < slotOf g files := by
    rw [slotOf]
    omega
  rw [created_below hbelow, splice_outside (.inl hslot), Sizes.metadata, splice_outside (by omega)]

theorem marked_of_ne (hinode : k ≠ (32768 * 1 + (files.length + 1)) / 8)
    (hblock : k ≠ (32768 * (1 + g.freemapBlocksize) + freshBlock g files) / 8) :
    marked g files f s k = s k := by
  rw [marked]
  split_ifs
  · rw [setBit_of_ne hblock, setBit_of_ne hinode]
  · exact setBit_of_ne hinode

theorem created_head (hk : k < 4096) : created g files f size s k = s k := by
  rw [created_maps (by omega), marked_of_ne (by omega) (by omega)]

theorem created_inodeBit (hi : i < 32768 * g.freemapBlocksize) :
    inodeBit (created g files f size s) i = (inodeBit s i || decide (i = files.length + 1)) := by
  have hsame : inodeBit (created g files f size s) i =
      bit (setBit s (32768 * 1 + (files.length + 1))) (32768 + i) := by
    apply bit_congr _ rfl
    rw [created_maps (by omega), marked]
    split_ifs
    · exact setBit_of_ne (by omega)
    · rfl
  have hiff : 32768 + i = 32768 * 1 + (files.length + 1) ↔ i = files.length + 1 := by omega
  rw [hsame, bit_setBit]
  simp only [hiff, inodeBit]

section Inside

variable (hinode : files.length + 1 < 32768 * g.freemapBlocksize)
include hinode

theorem created_blockBit (hb : b < 32768 * g.freemapBlocksize) :
    blockBit (created g files f size s) g b =
      (blockBit s g b || decide (0 < f.size ∧ b = freshBlock g files)) := by
  have hsame : blockBit (created g files f size s) g b = blockBit (marked g files f s) g b := by
    apply bit_congr _ rfl
    exact created_maps (by omega)
  have hkeep :
      bit (setBit s (32768 * 1 + (files.length + 1))) (32768 * (1 + g.freemapBlocksize) + b) =
      blockBit s g b := by
    apply bit_congr _ rfl
    exact setBit_of_ne (by omega)
  have hiff : 32768 * (1 + g.freemapBlocksize) + b =
      32768 * (1 + g.freemapBlocksize) + freshBlock g files ↔ b = freshBlock g files := by omega
  rw [hsame, marked, blockBit]
  by_cases hdata : 0 < f.size
  · simp only [hdata, ↓reduceIte, bit_setBit, hkeep, hiff, true_and]
  · simp only [hdata, ↓reduceIte, hkeep, false_and, decide_false, Bool.or_false]

variable (hblock : freshBlock g files < 32768 * g.freemapBlocksize)
include hblock

theorem created_table (hlow : 4096 * (1 + 2 * g.freemapBlocksize) ≤ k)
    (hhigh : k < 4096 * g.metadata)
    (hout : k < slotOf g files ∨ slotOf g files + 64 ≤ k) : created g files f size s k = s k := by
  have hbelow : k < 4096 * freshBlock g files := by
    rw [freshBlock]
    omega
  rw [created_below hbelow, splice_outside (by omega), splice_outside (.inl hhigh),
    marked_of_ne (by omega) (by omega)]

variable (htable : files.length + 1 < 64 * g.inodetableBlocksize)
include htable

omit hinode hblock in
theorem slotOf_le : slotOf g files + 64 ≤ 4096 * g.metadata := by
  rw [slotOf, Sizes.metadata]
  omega

theorem created_data (hlow : 4096 * (g.metadata + 1) ≤ k) (hhigh : k < 4096 * freshBlock g files) :
    created g files f size s k = s k := by
  have hslot := slotOf_le htable
  have hmeta : 1 + 2 * g.freemapBlocksize ≤ g.metadata := Nat.le_add_right _ _
  rw [created_below hhigh, splice_outside (by omega), splice_outside (by omega),
    marked_of_ne (by omega) (by omega)]

omit hinode hblock in
theorem created_root (hk : k < 4096) :
    created g files f size s (4096 * g.metadata + k) = rootLinked g files f s k := by
  have hslot := slotOf_le htable
  have hbelow : 4096 * g.metadata + k < 4096 * freshBlock g files := by
    rw [freshBlock]
    omega
  rw [created_below hbelow, splice_outside (by omega), splice_add hk]

omit hinode hblock in
theorem created_slot (hsize : 4096 * g.metadata ≤ size) (hk : k < 64) :
    created g files f size s (slotOf g files + k) =
      (currentNode f (dataBlock g files f)).encode k := by
  have hslot := slotOf_le htable
  have hbelow : slotOf g files + k < 4096 * freshBlock g files := by
    rw [freshBlock]
    omega
  rw [created_below hbelow]
  exact splice_add (by omega)

end Inside

/-- The first inode behind the table lies over the start of the root directory block. -/
theorem created_lost (hfull : files.length + 1 = 64 * g.inodetableBlocksize)
    (hsize : 4096 * g.metadata + 64 ≤ size) :
    created g files f size s (4096 * g.metadata + 8) = 0 := by
  have hslot : slotOf g files = 4096 * g.metadata := by
    rw [slotOf, hfull, Sizes.metadata]
    omega
  have hbelow : 4096 * g.metadata + 8 < 4096 * freshBlock g files := by
    rw [freshBlock]
    omega
  rw [created_below hbelow, hslot, splice_add (by omega)]
  exact (by decide : wordBytes 0 0 = 0)

theorem created_fresh (hdata : 0 < f.size) (hsize : 4096 * (freshBlock g files + 1) ≤ size)
    (hk : k < 4096) :
    created g files f size s (4096 * freshBlock g files + k) = letters f.size k := by
  simp only [created, hdata, ↓reduceIte]
  exact splice_add (by omega)

end GenericFs.Disktool
