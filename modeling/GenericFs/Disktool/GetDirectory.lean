import GenericFs.Disktool.Blocks
import GenericFs.Library.Returning

namespace GenericFs.Disktool

open GenericFs.Library Store Returning

/-- Memory from `malloc`, with the bytes that it holds. -/
structure Buffer where
  size : ℕ
  bytes : Workspace

/-- A read into such memory. What the image has no bytes for keeps its old value. -/
def readBuffer (buffer : Buffer) (off n : ℕ) : Action Buffer := do
  let t ← get
  let m := min n (t.size - t.position)
  if m = 0 ∨ off + m ≤ buffer.size then
    set { t with position := t.position + m }
    return { buffer with bytes := splice buffer.bytes off m fun k ↦ t.bytes (t.position + k) }
  else throw .undefined

def Inode.dirBlocks (dirInode : Inode) : ℕ :=
  dirInode.fileSize / blockSize + if dirInode.fileSize % blockSize ≠ 0 then 1 else 0

/-- The first indirect block, loaded unless it is there already. The memory that `malloc`
gives is a parameter, `none` for `NULL`. -/
def loadIndirect (dirInode : Inode) (second : Option Workspace) :
    Option Buffer → Action (Option Buffer)
  | some indirect => return some indirect
  | none =>
    match second with
    | none => return none
    | some garbage => do
      lseek (address dirInode.firstIndirect)
      return some (← readBuffer ⟨blockSize, garbage⟩ 0 blockSize)

def copyBlocks (dirInode : Inode) (second : Option Workspace) :
    ℕ → ℕ → Buffer → Option Buffer → Action (Option Buffer)
  | 0, _, raw, _ => return some raw
  | turns + 1, i, raw, indirect => do
    if h : i < 4 then
      lseek (address (dirInode.blocks ⟨i, h⟩))
      let raw ← readBuffer raw (blockSize * i) blockSize
      copyBlocks dirInode second turns (i + 1) raw indirect
    else if i < 4 + 1024 then
      match ← loadIndirect dirInode second indirect with
      | none => return none
      | some indirect =>
        let blockNo ← loadWord indirect.bytes (4 * (i - 4))
        lseek (address blockNo)
        let raw ← readBuffer raw (blockSize * i) blockSize
        copyBlocks dirInode second turns (i + 1) raw (some indirect)
    else return none

def getDirectory (first second : Option Workspace) (dirInode : Inode) : Action (Option Buffer) :=
  match first with
  | none => return none
  | some garbage =>
    copyBlocks dirInode second dirInode.dirBlocks 0
      ⟨dirInode.dirBlocks * blockSize % 2 ^ 32, garbage⟩ none

/-- The number of block `i` of a file of the image. -/
inductive Inode.HasBlock (n : Inode) (t : Tool) : ℕ → ℕ → Prop
  | direct (i : Fin 4) : n.HasBlock t i (n.blocks i)
  | indirect {i : ℕ} (hi : i < 1024) (hfirst : n.firstIndirect < 2 ^ 20)
      (hsize : 4096 * n.firstIndirect + 4 * i + 4 ≤ t.size) :
      n.HasBlock t (4 + i) (word 4 t.bytes (4096 * n.firstIndirect + 4 * i))

/-- The buffer holds the blocks of the file one behind the other. -/
structure Inode.Assembled (n : Inode) (t : Tool) (buffer : Buffer) : Prop where
  size : buffer.size = 4096 * ((n.fileSize + 4095) / 4096)
  content : ∀ i b k, i < (n.fileSize + 4095) / 4096 → n.HasBlock t i b → b < 2 ^ 20 → k < 4096 →
    4096 * b + k < t.size → buffer.bytes (4096 * i + k) = t.bytes (4096 * b + k)

/-- `get_directory` returns, and what it returns is the directory unless this has blocks
behind those of the first indirect block. -/
def Assembles (n : Inode) (t : Tool) (garbage garbage' : Workspace) : Prop :=
  ∃ out t', (getDirectory (some garbage) (some garbage') n).run t = .ok out t' ∧
    (out = none ↔ 4 + 1024 < (n.fileSize + 4095) / 4096) ∧
      ∀ buffer, out = some buffer → n.Assembled t buffer

namespace Buffer

variable {buffer : Buffer} {off p q k : ℕ} {t : Tool}

/-- The block at `p`, as far as the image has it, has its place in the memory. -/
def Fits (buffer : Buffer) (off : ℕ) (t : Tool) (p : ℕ) : Prop :=
  t.size ≤ p ∨ off + min 4096 (t.size - p) ≤ buffer.size

def fill (buffer : Buffer) (off : ℕ) (t : Tool) (p : ℕ) : Buffer where
  size := buffer.size
  bytes := splice buffer.bytes off (min 4096 (t.size - p)) fun k ↦ t.bytes (p + k)

theorem fill_inside (hk : k < 4096) (hp : p + k < t.size) :
    (buffer.fill off t p).bytes (off + k) = t.bytes (p + k) := by
  have hin : k < min 4096 (t.size - p) := by omega
  simp only [fill, splice_add hin]

theorem fill_outside (hk : k < off ∨ off + 4096 ≤ k) :
    (buffer.fill off t p).bytes k = buffer.bytes k := by
  have hout : k < off ∨ off + min 4096 (t.size - p) ≤ k := by omega
  simp only [fill, splice_outside hout]

theorem run_readBuffer (h : buffer.Fits off t p) :
    (readBuffer buffer off blockSize).run { t with position := p } =
      .ok (buffer.fill off t p) { t with position := p + min 4096 (t.size - p) } := by
  have hroom : min blockSize (t.size - p) = 0 ∨ off + min blockSize (t.size - p) ≤ buffer.size := by
    rw [Fits] at h
    simp only [blockSize]
    omega
  simp only [readBuffer, EStateM.run_bind, EStateM.run_get, if_pos hroom, EStateM.run_set,
    EStateM.run_pure]
  rfl

theorem readBuffer_undefined (h : ¬buffer.Fits off t p) :
    (readBuffer buffer off blockSize).run { t with position := p } =
      .error .undefined { t with position := p } := by
  have hroom : ¬(min blockSize (t.size - p) = 0 ∨
      off + min blockSize (t.size - p) ≤ buffer.size) := by
    rw [Fits] at h
    simp only [blockSize]
    omega
  simp only [readBuffer, EStateM.run_bind, EStateM.run_get, if_neg hroom]
  rfl

end Buffer

section Loading

variable {n : Inode} {t : Tool} {garbage : Workspace} {raw : Buffer} {i b j k p turns rest : ℕ}

def Inode.indirectBlock (n : Inode) (t : Tool) (garbage : Workspace) : Buffer :=
  (⟨blockSize, garbage⟩ : Buffer).fill 0 t (address n.firstIndirect)

def Inode.blockNo (n : Inode) (t : Tool) (garbage : Workspace) (i : ℕ) : ℕ :=
  if h : i < 4 then n.blocks ⟨i, h⟩ else word 4 (n.indirectBlock t garbage).bytes (4 * (i - 4))

def Inode.pointer (n : Inode) (t : Tool) (garbage : Workspace) (i : ℕ) : Option Buffer :=
  if i ≤ 4 then none else some (n.indirectBlock t garbage)

theorem Inode.HasBlock.blockNo (h : n.HasBlock t i b) : n.blockNo t garbage i = b := by
  cases h with
  | direct i => exact dif_pos i.isLt
  | @indirect i _ hfirst hsize =>
    have hge : ¬4 + i < 4 := by omega
    rw [Inode.blockNo, dif_neg hge, Nat.add_sub_cancel_left]
    apply word_congr
    intro k hk
    rw [← address_eq hfirst] at hsize ⊢
    rw [← Nat.zero_add (4 * i + k), indirectBlock, Buffer.fill_inside (by omega) (by omega),
      Nat.add_assoc]

theorem loadIndirect_run : ∃ q,
    (loadIndirect n (some garbage) (n.pointer t garbage i)).run { t with position := p } =
      .ok (some (n.indirectBlock t garbage)) { t with position := q } := by
  rw [Inode.pointer]
  split_ifs with h
  · have hfits : (⟨blockSize, garbage⟩ : Buffer).Fits 0 t (address n.firstIndirect) := by
      refine .inr ?_
      simp only [blockSize]
      omega
    exact ⟨_, run_bind_ok (Buffer.run_readBuffer hfits)⟩
  · exact ⟨p, rfl⟩

/-- One turn: the block is found, read, and the loop goes on behind it. -/
theorem copyBlocks_succ (hi : i < 4 + 1024) :
    (copyBlocks n (some garbage) (turns + 1) i raw (n.pointer t garbage i)).run
      { t with position := p } = (readBuffer raw (blockSize * i) blockSize >>= fun raw ↦
        copyBlocks n (some garbage) turns (i + 1) raw (n.pointer t garbage (i + 1))).run
      { t with position := address (n.blockNo t garbage i) } := by
  by_cases h : i < 4
  · have hsame : n.pointer t garbage (i + 1) = n.pointer t garbage i := by
      rw [Inode.pointer, Inode.pointer, if_pos (by omega), if_pos (by omega)]
    rw [copyBlocks, dif_pos h, run_bind_ok lseek_run, Inode.blockNo, dif_pos h, hsame]
  · have hnext : n.pointer t garbage (i + 1) = some (n.indirectBlock t garbage) :=
      if_neg (by omega)
    obtain ⟨q, hload⟩ := @loadIndirect_run n t garbage i p
    have hentry : 4 * (i - 4) + 4 ≤ blockSize := by
      simp only [blockSize]
      omega
    rw [copyBlocks, dif_neg h, if_pos hi, run_bind_ok hload]
    dsimp only
    rw [run_bind_ok (loadWord_run hentry), run_bind_ok lseek_run, Inode.blockNo, dif_neg h, hnext]

def Inode.copied (n : Inode) (t : Tool) (garbage : Workspace) (raw : Buffer) : ℕ → Buffer
  | 0 => raw
  | i + 1 => (n.copied t garbage raw i).fill (4096 * i) t (address (n.blockNo t garbage i))

theorem Inode.size_copied : (n.copied t garbage raw i).size = raw.size := by
  induction i with
  | zero => rfl
  | succ i ih => exact ih

theorem Inode.bytes_copied (hj : j < i) (hk : k < 4096)
    (hp : address (n.blockNo t garbage j) + k < t.size) :
    (n.copied t garbage raw i).bytes (4096 * j + k) =
      t.bytes (address (n.blockNo t garbage j) + k) := by
  induction i with
  | zero => exact absurd hj (Nat.not_lt_zero j)
  | succ i ih =>
    rw [copied]
    by_cases hji : j = i
    · rw [hji] at hp ⊢
      exact Buffer.fill_inside hk hp
    · rw [Buffer.fill_outside (by omega)]
      exact ih (by omega)

/-- The turns whose blocks have their place in the memory. -/
theorem copyBlocks_run (hi : i + turns ≤ 4 + 1024) (hfits : ∀ j, i ≤ j → j < i + turns →
      raw.Fits (4096 * j) t (address (n.blockNo t garbage j))) :
    ∃ q, (copyBlocks n (some garbage) (turns + rest) i (n.copied t garbage raw i)
        (n.pointer t garbage i)).run { t with position := p } =
      (copyBlocks n (some garbage) rest (i + turns) (n.copied t garbage raw (i + turns))
        (n.pointer t garbage (i + turns))).run { t with position := q } := by
  induction turns generalizing i p with
  | zero =>
    rw [Nat.zero_add]
    exact ⟨p, rfl⟩
  | succ turns ih =>
    have hturns : turns + 1 + rest = turns + rest + 1 := by omega
    have hindex : i + (turns + 1) = i + 1 + turns := by omega
    have hplace :
        (n.copied t garbage raw i).Fits (4096 * i) t (address (n.blockNo t garbage i)) := by
      rw [Buffer.Fits, Inode.size_copied]
      exact hfits i le_rfl (by omega)
    rw [hturns, hindex, copyBlocks_succ (by omega), run_bind_ok (Buffer.run_readBuffer hplace)]
    exact ih (by omega) fun j hj hlt ↦ hfits j (by omega) (by omega)

/-- At the first block without a place the loop is lost. -/
theorem copyBlocks_undefined (hi : i < 4 + 1024) (hturns : i < turns)
    (hfits : ∀ j < i, raw.Fits (4096 * j) t (address (n.blockNo t garbage j)))
    (hlost : ¬raw.Fits (4096 * i) t (address (n.blockNo t garbage i))) :
    ∃ t', (copyBlocks n (some garbage) turns 0 raw none).run t = .error .undefined t' := by
  obtain ⟨rest, rfl⟩ := Nat.exists_eq_add_of_lt hturns
  obtain ⟨q, hrun⟩ := @copyBlocks_run n t garbage raw 0 t.position i (rest + 1) (by omega)
    fun j _ hj ↦ hfits j (by omega)
  rw [Nat.zero_add] at hrun
  refine ⟨_, (hrun.trans (copyBlocks_succ hi)).trans
    (run_bind_error (Buffer.readBuffer_undefined ?_))⟩
  rw [Buffer.Fits, Inode.size_copied]
  exact hlost

theorem Inode.dirBlocks_eq : n.dirBlocks = (n.fileSize + 4095) / 4096 := by
  simp only [dirBlocks, blockSize]
  split <;> omega

/-- With a place for each block, what is returned is the directory, or `NULL` where the
directory is too long. -/
theorem Assembles.of_fits {garbage' : Workspace} (hfits : ∀ j < n.dirBlocks, j < 4 + 1024 →
      (⟨n.dirBlocks * blockSize % 2 ^ 32, garbage⟩ : Buffer).Fits (4096 * j) t
        (address (n.blockNo t garbage' j))) : Assembles n t garbage garbage' := by
  rw [Assembles, getDirectory, ← Inode.dirBlocks_eq]
  rcases le_or_gt n.dirBlocks (4 + 1024) with hle | hgt
  · obtain ⟨q, hrun⟩ := @copyBlocks_run n t garbage' ⟨n.dirBlocks * blockSize % 2 ^ 32, garbage⟩ 0
      t.position n.dirBlocks 0 (by omega) fun j _ hj ↦ hfits j (by omega) (by omega)
    refine ⟨_, _, hrun, ⟨nofun, fun h ↦ absurd hle (not_le.mpr h)⟩, ?_⟩
    rintro buffer ⟨⟩
    rw [Nat.zero_add]
    refine ⟨?_, fun i b k hi hb hlt hk hp ↦ ?_⟩
    · rw [Inode.size_copied, ← Inode.dirBlocks_eq]
      simp only [blockSize]
      omega
    · rw [← Inode.dirBlocks_eq] at hi
      have hno : n.blockNo t garbage' i = b := hb.blockNo
      rw [← address_eq hlt, ← hno] at hp ⊢
      exact Inode.bytes_copied hi hk hp
  · obtain ⟨rest, hrest⟩ := Nat.exists_eq_add_of_lt hgt
    obtain ⟨q, hrun⟩ := @copyBlocks_run n t garbage' ⟨n.dirBlocks * blockSize % 2 ^ 32, garbage⟩ 0
      t.position (4 + 1024) (rest + 1) (by omega) fun j _ hj ↦ hfits j (by omega) (by omega)
    rw [← Nat.add_assoc, ← hrest] at hrun
    exact ⟨none, _, hrun, ⟨fun _ ↦ hgt, fun _ ↦ rfl⟩, nofun⟩

/-- The number of bytes to allocate is a 32-bit product. It is zero for the longest files,
and the first block that the image has is copied outside. -/
theorem Assembles.size_le {garbage' : Workspace} (h : Assembles n t garbage garbage')
    (hsize : n.fileSize < 2 ^ 32) (hlong : 2 ^ 32 - 4096 < n.fileSize) :
    ∀ i < 4 + 1024, t.size ≤ address (n.blockNo t garbage' i) := by
  by_contra hfound
  push Not at hfound
  have hmany : n.dirBlocks = 2 ^ 20 := by
    rw [Inode.dirBlocks_eq]
    omega
  have hzero : n.dirBlocks * blockSize % 2 ^ 32 = 0 := by
    rw [hmany]
    rfl
  obtain ⟨hi, hread⟩ := Nat.find_spec hfound
  have hbefore : ∀ j < Nat.find hfound, t.size ≤ address (n.blockNo t garbage' j) := by
    intro j hj
    by_contra hnot
    exact Nat.find_min hfound hj ⟨hj.trans hi, not_le.mp hnot⟩
  have hlost : ¬(⟨n.dirBlocks * blockSize % 2 ^ 32, garbage⟩ : Buffer).Fits
      (4096 * Nat.find hfound) t (address (n.blockNo t garbage' (Nat.find hfound))) := by
    rw [Buffer.Fits, hzero]
    dsimp only
    omega
  have hturns : Nat.find hfound < n.dirBlocks := by omega
  obtain ⟨_, hundefined⟩ := copyBlocks_undefined hi hturns (fun j hj ↦ .inl (hbefore j hj)) hlost
  obtain ⟨out, t', hrun, -⟩ := h
  cases hrun.symm.trans hundefined

theorem assembles_iff {garbage' : Workspace} (hsize : n.fileSize < 2 ^ 32) :
    Assembles n t garbage garbage' ↔ n.fileSize ≤ 2 ^ 32 - 4096 ∨
      ∀ i < 4 + 1024, t.size ≤ address (n.blockNo t garbage' i) := by
  have hblocks := n.dirBlocks_eq
  constructor
  · intro h
    rcases le_or_gt n.fileSize (2 ^ 32 - 4096) with hshort | hlong
    · exact .inl hshort
    · exact .inr (h.size_le hsize hlong)
  · intro h
    apply Assembles.of_fits
    intro j hj hlt
    rcases h with hshort | hnone
    · refine .inr ?_
      simp only [blockSize]
      omega
    · exact .inl (hnone j hlt)

def dirOfSize (fileSize : ℕ) : Inode where
  nlinks := 1
  ownerId := 0
  groupId := 0
  mode := 0o40755
  fileSize := fileSize
  atime := 0
  mtime := 0
  ctime := 0
  blocks := fun i ↦ i
  firstIndirect := 4
  secondIndirect := 0
  unused := fun _ ↦ 0

theorem assembles_iff_sixBlocks : Assembles (dirOfSize 24000) (zeros 5) (fun _ ↦ 1) (fun _ ↦ 1) :=
  (assembles_iff (by decide)).mpr (.inl (by decide))

/-- For a directory of 2³² - 1 bytes nothing is allocated, and block 0 is read all the same. -/
theorem not_assembles : ¬∀ (n : Inode) (t : Tool) (garbage garbage' : Workspace),
    n.fileSize < 2 ^ 32 → Assembles n t garbage garbage' := by
  intro hclaim
  have hsmall : (dirOfSize (2 ^ 32 - 1)).fileSize < 2 ^ 32 := by decide
  have hall := (hclaim _ (zeros 5) (fun _ ↦ 0) (fun _ ↦ 0) hsmall).size_le hsmall (by decide)
  exact absurd (hall 0 (by decide)) (by decide)

end Loading

end GenericFs.Disktool
