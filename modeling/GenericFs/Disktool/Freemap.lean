import GenericFs.Disktool.Partition

namespace GenericFs.Disktool

open Function GenericFs.Library Store Bitmap

def markFreemap (startBlock block byte : ℕ) (bit : ℤ) : Action Unit := do
  lseek (address (startBlock + block))
  let freemapBlock ← read (fun _ ↦ 0) blockSize
  -- a shift by a negative number has no meaning
  if bit < 0 then throw .undefined
  let b ← loadByte freemapBlock byte
  let freemapBlock ← storeByte freemapBlock byte (b ||| UInt8.ofNat (1 <<< bit.toNat))
  lseek (address (startBlock + block))
  write freemapBlock blockSize

def scanByte (b : UInt8) (currentBit : ℕ) : ℕ :=
  let currentBit := if b &&& 0x80 = 0 then 8 else currentBit
  let currentBit := if b &&& 0x40 = 0 then 7 else currentBit
  let currentBit := if b &&& 0x20 = 0 then 6 else currentBit
  let currentBit := if b &&& 0x10 = 0 then 5 else currentBit
  let currentBit := if b &&& 0x08 = 0 then 4 else currentBit
  let currentBit := if b &&& 0x04 = 0 then 3 else currentBit
  let currentBit := if b &&& 0x02 = 0 then 2 else currentBit
  if b &&& 0x01 = 0 then 1 else currentBit

def scanBytes (freemapBlock : Workspace) : ℕ → ℕ → ℕ × ℕ
  | 0, currentByte => (currentByte, 0)
  | turns + 1, currentByte =>
    let currentBit := scanByte (freemapBlock currentByte) 0
    if currentBit ≠ 0 then (currentByte, currentBit)
    else scanBytes freemapBlock turns (currentByte + 1)

def scanBlocks : ℕ → ℕ → Action (ℕ × ℕ × ℕ)
  | 0, currentBlock => return (currentBlock, blockSize, 0)
  | turns + 1, currentBlock => do
    let freemapBlock ← read (fun _ ↦ 0) blockSize
    let (currentByte, currentBit) := scanBytes freemapBlock blockSize 0
    if currentBit ≠ 0 then return (currentBlock, currentByte, currentBit)
    else scanBlocks turns (currentBlock + 1)

def scanFreemap (startBlock endBlock : ℕ) : Action (ℕ × ℕ × ℤ) := do
  lseek (address startBlock)
  let (currentBlock, currentByte, currentBit) ← scanBlocks (endBlock - startBlock) 0
  return (currentBlock, currentByte, currentBit - 1)

/-- The body that `allocate_block` and `allocate_inode` share. -/
def allocate (startBlock endBlock : ℕ) : Action ℕ := do
  let (block, byte, bit) ← scanFreemap startBlock endBlock
  markFreemap startBlock block byte bit
  return (block * blockSize * 8 + byte * 8 + bit.toNat) % 2 ^ 32

def allocateBlock (g : Sizes) : Action ℕ :=
  allocate (1 + g.freemapBlocksize) (1 + 2 * g.freemapBlocksize)

def allocateInode (g : Sizes) : Action ℕ := allocate 1 (1 + g.freemapBlocksize)

theorem scanByte_cases (b : UInt8) :
    scanByte b 0 = 0 ∧ (∀ j < 8, b.toNat.testBit j = true) ∨
      ∃ j < 8, scanByte b 0 = j + 1 ∧ b.toNat.testBit j = false ∧
      ∀ i < j, b.toNat.testBit i = true := by
  have hall : ∀ n : Fin 256, scanByte (UInt8.ofNat n) 0 = 0 ∧ (∀ j < 8, n.val.testBit j = true) ∨
      ∃ j < 8, scanByte (UInt8.ofNat n) 0 = j + 1 ∧ n.val.testBit j = false ∧
        ∀ i < j, n.val.testBit i = true := by
    decide +kernel
  have h := hall ⟨b.toNat, b.toNat_lt⟩
  simpa only [UInt8.ofNat_toNat] using h

variable {t : Tool} {w : Workspace} {n k byte block start : ℕ}

theorem scanBytes_found (hk : bit w k = false) (hlow : 8 * byte ≤ k) (hhigh : k < 8 * (byte + n))
    (hall : ∀ j, 8 * byte ≤ j → j < k → bit w j = true) :
    scanBytes w n byte = (k / 8, k % 8 + 1) := by
  induction n generalizing byte with
  | zero => omega
  | succ n ih =>
    rw [scanBytes]
    rcases scanByte_cases (w byte) with ⟨hzero, hset⟩ | ⟨j, hj, hscan, hclear, hset⟩
    · have hnext : 8 * (byte + 1) ≤ k := by
        by_contra hlt
        have hbyte : byte = k / 8 := by omega
        have h := hset (k % 8) (Nat.mod_lt _ (by decide))
        rw [hbyte, ← bit, hk] at h
        contradiction
      simp only [hzero, ne_eq, not_true_eq_false, ↓reduceIte]
      apply ih hnext (by omega)
      intro i hi
      exact hall i (by omega)
    · have hsame : k = 8 * byte + j := by
        by_contra hne
        rcases lt_or_gt_of_ne hne with hlt | hgt
        · have h := hset (k % 8) (by omega)
          have hbyte : byte = k / 8 := by omega
          rw [hbyte, ← bit, hk] at h
          contradiction
        · have h := hall (8 * byte + j) (by omega) hgt
          have hbyte : (8 * byte + j) / 8 = byte := by omega
          have hbit : (8 * byte + j) % 8 = j := by omega
          rw [bit, hbyte, hbit, hclear] at h
          contradiction
      have hbyte : k / 8 = byte := by omega
      have hbit : k % 8 = j := by omega
      simp only [hscan, hbyte, hbit, ne_eq, Nat.add_eq_zero_iff, one_ne_zero, and_false,
        not_false_eq_true, ↓reduceIte]

theorem scanBytes_full (hall : ∀ j, 8 * byte ≤ j → j < 8 * (byte + n) → bit w j = true) :
    scanBytes w n byte = (byte + n, 0) := by
  induction n generalizing byte with
  | zero => rfl
  | succ n ih =>
    rw [scanBytes]
    rcases scanByte_cases (w byte) with ⟨hzero, -⟩ | ⟨j, hj, -, hclear, -⟩
    · simp only [hzero, ne_eq, not_true_eq_false, ↓reduceIte]
      have hrest : byte + (n + 1) = byte + 1 + n := by omega
      rw [hrest]
      apply ih
      intro i hi hlt
      exact hall i (by omega) (by omega)
    · have h := hall (8 * byte + j) (by omega) (by omega)
      have hbyte : (8 * byte + j) / 8 = byte := by omega
      have hbit : (8 * byte + j) % 8 = j := by omega
      rw [bit, hbyte, hbit, hclear] at h
      contradiction

theorem scanBlocks_run (hpos : t.position = 4096 * (start + block))
    (hsize : 4096 * (start + block + n) ≤ t.size)
    (hk : bit t.bytes (32768 * start + k) = false) (hlow : 32768 * block ≤ k)
    (hhigh : k < 32768 * (block + n)) (hall : ∀ j < k, bit t.bytes (32768 * start + j) = true) :
    ∃ p, (scanBlocks n block).run t =
      .ok (k / 32768, k % 32768 / 8, k % 8 + 1) { t with position := p } := by
  induction n generalizing t block with
  | zero => omega
  | succ n ih =>
    have hread : t.position + 4096 ≤ t.size := by omega
    have hbits :
        ∀ j < 32768, bit (splice (fun _ ↦ 0) 0 blockSize fun i ↦ t.bytes (t.position + i)) j =
        bit t.bytes (32768 * start + (32768 * block + j)) := by
      intro j hj
      rw [bit_read hj, hpos]
      congr 1
      omega
    rw [scanBlocks, EStateM.run_bind, read_run hread]
    by_cases hhere : k < 32768 * (block + 1)
    · have hfound : scanBytes (splice (fun _ ↦ 0) 0 blockSize fun i ↦ t.bytes (t.position + i))
          4096 0 = ((k - 32768 * block) / 8, (k - 32768 * block) % 8 + 1) := by
        apply scanBytes_found _ (by omega) (by omega)
        · intro j _ hj
          rw [hbits _ (by omega)]
          exact hall _ (by omega)
        · rw [hbits _ (by omega), Nat.add_sub_cancel' hlow, hk]
      have hbyte : (k - 32768 * block) / 8 = k % 32768 / 8 := by omega
      have hbit : (k - 32768 * block) % 8 = k % 8 := by omega
      have hblock : block = k / 32768 := by omega
      rw [hbyte, hbit] at hfound
      refine ⟨t.position + 4096, ?_⟩
      rw [← hblock]
      simp only [blockSize] at hfound ⊢
      simp only [hfound, ne_eq, Nat.add_eq_zero_iff, one_ne_zero, and_false, not_false_eq_true,
        ↓reduceIte, EStateM.run_pure]
    · have hfull : scanBytes (splice (fun _ ↦ 0) 0 blockSize fun i ↦ t.bytes (t.position + i))
          4096 0 = (0 + 4096, 0) := by
        apply scanBytes_full
        intro j _ hj
        rw [hbits _ (by omega)]
        exact hall _ (by omega)
      have hnext : t.position + 4096 = 4096 * (start + (block + 1)) := by omega
      have hrest : 4096 * (start + (block + 1) + n) ≤ t.size := by omega
      obtain ⟨p, hp⟩ := @ih { t with position := t.position + 4096 } (block + 1) hnext hrest hk
        (by omega) (by omega) hall
      refine ⟨p, ?_⟩
      simp only [blockSize] at hfull ⊢
      simpa only [hfull, ne_eq, not_true_eq_false, ↓reduceIte] using hp

theorem scanBlocks_full (hpos : t.position = 4096 * (start + block))
    (hsize : 4096 * (start + block + n) ≤ t.size)
    (hall : ∀ j < 32768 * (block + n), bit t.bytes (32768 * start + j) = true) :
    ∃ p, (scanBlocks n block).run t = .ok (block + n, 4096, 0) { t with position := p } := by
  induction n generalizing t block with
  | zero => exact ⟨t.position, rfl⟩
  | succ n ih =>
    have hread : t.position + 4096 ≤ t.size := by omega
    have hfull : scanBytes (splice (fun _ ↦ 0) 0 blockSize fun i ↦ t.bytes (t.position + i))
        4096 0 = (0 + 4096, 0) := by
      apply scanBytes_full
      intro j _ hj
      have hplace : 8 * t.position + j = 32768 * start + (32768 * block + j) := by omega
      rw [bit_read (by omega), hplace]
      exact hall _ (by omega)
    have hnext : t.position + 4096 = 4096 * (start + (block + 1)) := by omega
    have hrest : block + 1 + n = block + (n + 1) := by omega
    obtain ⟨p, hp⟩ := @ih { t with position := t.position + 4096 } (block + 1) hnext
      (by simp only; omega) (by rwa [hrest])
    refine ⟨p, ?_⟩
    rw [hrest] at hp
    rw [scanBlocks, EStateM.run_bind, read_run hread]
    simp only [blockSize] at hfull ⊢
    simpa only [hfull, ne_eq, not_true_eq_false, ↓reduceIte] using hp

theorem markFreemap_negative {bit : ℤ} (hbit : bit < 0) :
    ∃ t', (markFreemap start block byte bit).run t = .error .undefined t' := by
  by_cases hread : address (start + block) + 4096 ≤ t.size
  · refine ⟨{ t with position := address (start + block) + 4096 }, ?_⟩
    rw [markFreemap, EStateM.run_bind, lseek_run]
    simp only [EStateM.run_bind]
    rw [read_run (t := { t with position := address (start + block) }) hread]
    simp only [hbit, ↓reduceIte]
    rfl
  · refine ⟨{ t with position := address (start + block) }, ?_⟩
    rw [markFreemap, EStateM.run_bind, lseek_run]
    simp only [EStateM.run_bind]
    rw [read_undefined (t := { t with position := address (start + block) }) hread]

/-- When no bit is clear, the search leaves the bit before the lowest one. -/
theorem allocate_full {count : ℕ} (hstart : start + count ≤ 2 ^ 20)
    (hsize : 4096 * (start + count) ≤ t.size)
    (hall : ∀ j < 32768 * count, bit t.bytes (32768 * start + j) = true) (hcount : 1 ≤ count) :
    ∃ t', (allocate start (start + count)).run t = .error .undefined t' := by
  have hturns : start + count - start = count := by omega
  obtain ⟨p, hp⟩ := @scanBlocks_full { t with position := 4096 * start } count 0 start rfl
    (by simp only; omega) (by rwa [Nat.zero_add])
  obtain ⟨t', ht'⟩ := @markFreemap_negative { t with position := p } 4096 (0 + count) start
    (((0 : ℕ) : ℤ) - 1) (by decide)
  refine ⟨t', ?_⟩
  simp only [allocate, scanFreemap, EStateM.run_bind, lseek_run,
    address_eq (by omega : start < 2 ^ 20), hturns, hp, EStateM.run_pure, ht']

theorem markFreemap_run (hstart : start + block < 2 ^ 20)
    (hsize : 4096 * (start + block) + 4096 ≤ t.size) (hbyte : byte < 4096) {j : ℕ} (hj : j < 8) :
    ∃ p, (markFreemap start block byte j).run t = .ok ()
      { t with
        bytes := setBit t.bytes (32768 * (start + block) + (8 * byte + j))
        position := p } := by
  have hdiv : (32768 * (start + block) + (8 * byte + j)) / 8 = 4096 * (start + block) + byte := by
    omega
  have hmod : (32768 * (start + block) + (8 * byte + j)) % 8 = j := by omega
  have hneg : ¬((j : ℤ) < 0) := by omega
  have hin : byte < 0 + 4096 := by omega
  refine ⟨4096 * (start + block) + 4096, ?_⟩
  rw [setBit, hdiv, hmod, ← splice_update hbyte]
  simp only [markFreemap, EStateM.run_bind, lseek_run, address_eq hstart,
    read_run (t := { t with position := 4096 * (start + block) }) hsize, hneg, ↓reduceIte,
    loadByte_run hbyte, storeByte_run hbyte,
    write_run (t := { t with position := 4096 * (start + block) }) hsize]
  rw [splice_inside (Nat.zero_le _) hin, Nat.sub_zero, Int.toNat_natCast]

theorem allocate_run {count : ℕ} (hstart : start + k / 32768 < 2 ^ 20)
    (hsize : 4096 * (start + count) ≤ t.size) (hk : bit t.bytes (32768 * start + k) = false)
    (hhigh : k < 32768 * count) (hall : ∀ j < k, bit t.bytes (32768 * start + j) = true)
    (hword : k < 2 ^ 32) : ∃ p, (allocate start (start + count)).run t =
      .ok k { t with bytes := setBit t.bytes (32768 * start + k), position := p } := by
  have hcount : start + count - start = count := by omega
  have hscan :=
    @scanBlocks_run { t with position := 4096 * start } count k 0 start rfl (by omega) hk
      (by omega) (by omega) hall
  obtain ⟨p, hp⟩ := hscan
  have hbit : ((k % 8 + 1 : ℕ) : ℤ) - 1 = (k % 8 : ℕ) := by omega
  obtain ⟨q, hq⟩ := @markFreemap_run { t with position := p } (k % 32768 / 8) (k / 32768) start
    (by omega) (by simp only; omega) (by omega) (k % 8) (by omega)
  have hplace :
      32768 * (start + k / 32768) + (8 * (k % 32768 / 8) + k % 8) = 32768 * start + k := by
    omega
  have hvalue : (k / 32768 * blockSize * 8 + k % 32768 / 8 * 8 + k % 8) % 2 ^ 32 = k := by
    simp only [blockSize]
    omega
  refine ⟨q, ?_⟩
  rw [hplace] at hq
  simp only [allocate, scanFreemap, EStateM.run_bind, lseek_run,
    address_eq (by omega : start < 2 ^ 20), hcount, hp, EStateM.run_pure, hbit, hq,
    Int.toNat_natCast, hvalue]

end GenericFs.Disktool
