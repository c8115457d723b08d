import GenericFs.Library.Bitmap

namespace GenericFs.Disktool

open Function GenericFs.Library Store Bitmap

abbrev blockSize : ℕ := 4096

/-- How a function of the tool ends when it does not return: by a use of memory
that the language does not define, never, or by `exit`. -/
inductive Fault
  | undefined
  | endless
  | exited
  deriving DecidableEq, Repr

structure Sizes where
  blockCount : ℕ
  freemapBytesize : ℕ
  freemapBlocksize : ℕ
  inodetableBytesize : ℕ
  inodetableBlocksize : ℕ

def computeSizes (blockCount : ℕ) : Sizes :=
  let freemapBytesize := blockCount / 8 + if blockCount % 8 ≠ 0 then 1 else 0
  let inodetableBytesize := blockCount * 64 % 2 ^ 32
  { blockCount
    freemapBytesize
    freemapBlocksize :=
      freemapBytesize / blockSize + if freemapBytesize % blockSize ≠ 0 then 1 else 0
    inodetableBytesize
    inodetableBlocksize :=
      inodetableBytesize / blockSize + if inodetableBytesize % blockSize ≠ 0 then 1 else 0 }

/-- What `verify_file_system` prints. -/
inductive Message
  | noMemory
  | inode (number : ℕ)
  | usedMultipleTimes (block count : ℕ)
  | allocatedNotUsed (block : ℕ)
  | unallocatedInUse (block : ℕ)
  deriving DecidableEq

def Message.text : Message → String
  | .noMemory => "Unable to allocate supporting data structures"
  | .inode number => s!"{number}, "
  | .usedMultipleTimes block count => s!"Block used multiple times: block={block}, count={count}\n"
  | .allocatedNotUsed block => s!"Block allocated but not used: block={block}\n"
  | .unallocatedInUse block => s!"Unallocated block in use: block={block}\n"

def Message.Inconsistent : Message → Prop
  | .noMemory | .inode _ => False
  | .usedMultipleTimes _ _ | .allocatedNotUsed _ | .unallocatedInUse _ => True

/-- The open partition with its file position, and the screen. -/
structure Tool where
  size : ℕ
  bytes : ℕ → UInt8
  position : ℕ
  screen : List Message

abbrev Action := EStateM Fault Tool

/-- The local arrays of one block. Each access states its place. -/
abbrev Workspace := ℕ → UInt8

/-- The file offset of a block, in the arithmetic of `uint32_t`. -/
def address (block : ℕ) : ℕ := block * blockSize % 2 ^ 32

def lseek (offset : ℕ) : Action Unit := modify fun t ↦ { t with position := offset }

/-- A read that does not find all its bytes leaves a part of the local array
without a value. -/
def read (workspace : Workspace) (n : ℕ) : Action Workspace := do
  let t ← get
  if t.position + n ≤ t.size then
    set { t with position := t.position + n }
    return splice workspace 0 n fun k ↦ t.bytes (t.position + k)
  else throw .undefined

/-- A write at the end of the device stores what fits; no caller looks at the result. -/
def write (workspace : Workspace) (n : ℕ) : Action Unit := modify fun t ↦
  let m := min n (t.size - t.position)
  { t with bytes := splice t.bytes t.position m workspace, position := t.position + m }

def loadByte (workspace : Workspace) (off : ℕ) : Action UInt8 :=
  if off < blockSize then return workspace off else throw .undefined

def storeByte (workspace : Workspace) (off : ℕ) (b : UInt8) : Action Workspace :=
  if off < blockSize then return update workspace off b else throw .undefined

def loadWord (workspace : Workspace) (off : ℕ) : Action ℕ :=
  if off + 4 ≤ blockSize then return word 4 workspace off else throw .undefined

def storeWord (workspace : Workspace) (off v : ℕ) : Action Workspace :=
  if off + 4 ≤ blockSize then return splice workspace off 4 (wordBytes v) else throw .undefined

def storeBytes (workspace : Workspace) (off : ℕ) (bytes : List UInt8) : Action Workspace :=
  if off + bytes.length ≤ blockSize then return splice workspace off bytes.length (ofList bytes)
  else throw .undefined

def memset (workspace : Workspace) (b : UInt8) (n : ℕ) : Workspace := splice workspace 0 n fun _ ↦ b

def print (m : Message) : Action Unit := modify fun t ↦ { t with screen := t.screen ++ [m] }

def clear : Action Unit := modify fun t ↦ { t with screen := [] }

instance neZero_four : NeZero 4 := ⟨by decide⟩

structure Inode where
  nlinks : ℕ
  ownerId : ℕ
  groupId : ℕ
  mode : ℕ
  fileSize : ℕ
  atime : ℕ
  mtime : ℕ
  ctime : ℕ
  blocks : Fin 4 → ℕ
  firstIndirect : ℕ
  secondIndirect : ℕ
  unused : Fin 2 → ℕ

abbrev inodeSize : ℕ := 64

def Inode.words (n : Inode) : List ℕ :=
  [n.nlinks, n.ownerId, n.groupId, n.mode, n.fileSize, n.atime, n.mtime, n.ctime, n.blocks 0,
    n.blocks 1, n.blocks 2, n.blocks 3, n.firstIndirect, n.secondIndirect, n.unused 0, n.unused 1]

def Inode.encode (n : Inode) : ℕ → UInt8 := fun k ↦ wordBytes (n.words.getD (k / 4) 0) (k % 4)

def Inode.decode (s : ℕ → UInt8) (off : ℕ) : Inode where
  nlinks := word 4 s off
  ownerId := word 4 s (off + 4)
  groupId := word 4 s (off + 8)
  mode := word 4 s (off + 12)
  fileSize := word 4 s (off + 16)
  atime := word 4 s (off + 20)
  mtime := word 4 s (off + 24)
  ctime := word 4 s (off + 28)
  blocks i := word 4 s (off + 32 + 4 * i)
  firstIndirect := word 4 s (off + 48)
  secondIndirect := word 4 s (off + 52)
  unused i := word 4 s (off + 56 + 4 * i)

structure SuperBlock where
  magicNumber : ℕ
  blockSize : ℕ
  totalBlocks : ℕ
  inodefreemapBlocks : ℕ
  blockfreemapBlocks : ℕ
  inodetableBlocks : ℕ

def SuperBlock.words (b : SuperBlock) : List ℕ :=
  [b.magicNumber, b.blockSize, b.totalBlocks, b.inodefreemapBlocks, b.blockfreemapBlocks,
    b.inodetableBlocks]

def SuperBlock.encode (b : SuperBlock) : ℕ → UInt8 :=
  fun k ↦ wordBytes (b.words.getD (k / 4) 0) (k % 4)

def SuperBlock.decode (s : ℕ → UInt8) (off : ℕ) : SuperBlock where
  magicNumber := word 4 s off
  blockSize := word 4 s (off + 4)
  totalBlocks := word 4 s (off + 8)
  inodefreemapBlocks := word 4 s (off + 12)
  blockfreemapBlocks := word 4 s (off + 16)
  inodetableBlocks := word 4 s (off + 20)

theorem Inode.decode_congr {s s' : ℕ → UInt8} {off off' : ℕ}
    (h : ∀ k < 64, s (off + k) = s' (off' + k)) : Inode.decode s off = Inode.decode s' off' := by
  have hword : ∀ k, k + 4 ≤ 64 → word 4 s (off + k) = word 4 s' (off' + k) := by
    intro k hk
    apply word_congr
    intro j hj
    rw [Nat.add_assoc, Nat.add_assoc]
    exact h _ (by omega)
  have hblocks : ∀ i : Fin 4, word 4 s (off + 32 + 4 * i) = word 4 s' (off' + 32 + 4 * i) := by
    intro i
    rw [Nat.add_assoc, Nat.add_assoc]
    exact hword _ (by omega)
  have hunused : ∀ i : Fin 2, word 4 s (off + 56 + 4 * i) = word 4 s' (off' + 56 + 4 * i) := by
    intro i
    rw [Nat.add_assoc, Nat.add_assoc]
    exact hword _ (by omega)
  have hfirst := hword 0 (by decide)
  rw [Nat.add_zero, Nat.add_zero] at hfirst
  simp only [Inode.decode, hfirst, hblocks, hunused, hword 4 (by decide), hword 8 (by decide),
    hword 12 (by decide), hword 16 (by decide), hword 20 (by decide), hword 24 (by decide),
    hword 28 (by decide), hword 48 (by decide), hword 52 (by decide)]

/-- A word of a structure whose members are words. -/
theorem word_members {ws : List ℕ} (i : ℕ) :
    word 4 (fun k ↦ wordBytes (ws.getD (k / 4) 0) (k % 4)) (4 * i) = ws.getD i 0 % 2 ^ 32 := by
  have hbytes : word 4 (fun k ↦ wordBytes (ws.getD (k / 4) 0) (k % 4)) (4 * i) =
      word 4 (wordBytes (ws.getD i 0)) 0 := by
    apply word_congr
    intro k hk
    have hdiv : (4 * i + k) / 4 = i := by omega
    have hmod : (4 * i + k) % 4 = 0 + k := by omega
    rw [hdiv, hmod]
  rw [hbytes, word_wordBytes_shift, pow_zero, Nat.div_one]
  rfl

namespace Inode

variable {n : Inode}

theorem decode_encode_blocks (i : Fin 4) :
    (Inode.decode n.encode 0).blocks i = n.blocks i % 2 ^ 32 := by
  have hword : (Inode.decode n.encode 0).blocks i = word 4 n.encode (4 * (8 + i)) := by
    rw [Nat.mul_add]
    rfl
  rw [hword]
  apply (word_members _).trans
  fin_cases i <;> rfl

theorem decode_encode_firstIndirect :
    (Inode.decode n.encode 0).firstIndirect = n.firstIndirect % 2 ^ 32 := word_members 12

theorem decode_encode_secondIndirect :
    (Inode.decode n.encode 0).secondIndirect = n.secondIndirect % 2 ^ 32 := word_members 13

theorem decode_encode_fileSize : (Inode.decode n.encode 0).fileSize = n.fileSize % 2 ^ 32 :=
  word_members 4

end Inode

theorem SuperBlock.decode_congr {s s' : ℕ → UInt8} {off off' : ℕ}
    (h : ∀ k < 24, s (off + k) = s' (off' + k)) :
    SuperBlock.decode s off = SuperBlock.decode s' off' := by
  have hword : ∀ k, k + 4 ≤ 24 → word 4 s (off + k) = word 4 s' (off' + k) := by
    intro k hk
    apply word_congr
    intro j hj
    rw [Nat.add_assoc, Nat.add_assoc]
    exact h _ (by omega)
  have hfirst := hword 0 (by decide)
  rw [Nat.add_zero, Nat.add_zero] at hfirst
  simp only [SuperBlock.decode, hfirst, hword 4 (by decide), hword 8 (by decide),
    hword 12 (by decide), hword 16 (by decide), hword 20 (by decide)]

theorem SuperBlock.decode_encode {b : SuperBlock} (h : ∀ v ∈ b.words, v < 2 ^ 32) :
    SuperBlock.decode b.encode 0 = b := by
  have hword : ∀ i v, b.words[i]? = some v → word 4 b.encode (4 * i) = v := by
    intro i v hv
    apply (word_members i).trans
    rw [List.getD_eq_getElem?_getD, hv, Option.getD_some,
      Nat.mod_eq_of_lt (h v (List.mem_of_getElem? hv))]
  rw [decode]
  simp only [Nat.zero_add, hword 0 b.magicNumber rfl, hword 1 b.blockSize rfl,
    hword 2 b.totalBlocks rfl, hword 3 b.inodefreemapBlocks rfl, hword 4 b.blockfreemapBlocks rfl,
    hword 5 b.inodetableBlocks rfl]

section Running

variable {t : Tool} {w : Workspace} {n off v : ℕ} {b : UInt8}

theorem lseek_run : (lseek off).run t = .ok () { t with position := off } := rfl

theorem read_run (h : t.position + n ≤ t.size) : (read w n).run t =
    .ok (splice w 0 n fun k ↦ t.bytes (t.position + k)) { t with position := t.position + n } := by
  simp only [read, EStateM.run_bind, EStateM.run_get, if_pos h, EStateM.run_set, EStateM.run_pure]

theorem write_run (h : t.position + n ≤ t.size) : (write w n).run t =
    .ok () { t with bytes := splice t.bytes t.position n w, position := t.position + n } := by
  have hmin : min n (t.size - t.position) = n := by omega
  rw [write, EStateM.run_modify, hmin]

theorem loadByte_run (h : off < blockSize) : (loadByte w off).run t = .ok (w off) t := by
  rw [loadByte, if_pos h, EStateM.run_pure]

theorem storeByte_run (h : off < blockSize) :
    (storeByte w off b).run t = .ok (update w off b) t := by
  rw [storeByte, if_pos h, EStateM.run_pure]

theorem loadWord_run (h : off + 4 ≤ blockSize) : (loadWord w off).run t = .ok (word 4 w off) t := by
  rw [loadWord, if_pos h, EStateM.run_pure]

theorem storeWord_run (h : off + 4 ≤ blockSize) :
    (storeWord w off v).run t = .ok (splice w off 4 (wordBytes v)) t := by
  rw [storeWord, if_pos h, EStateM.run_pure]

theorem storeBytes_run {bytes : List UInt8} (h : off + bytes.length ≤ blockSize) :
    (storeBytes w off bytes).run t = .ok (splice w off bytes.length (ofList bytes)) t := by
  rw [storeBytes, if_pos h, EStateM.run_pure]

theorem read_undefined (h : ¬t.position + n ≤ t.size) : (read w n).run t = .error .undefined t := by
  simp only [read, EStateM.run_bind, EStateM.run_get, if_neg h]
  rfl

theorem loadByte_undefined (h : ¬off < blockSize) :
    (loadByte w off).run t = .error .undefined t := by
  rw [loadByte, if_neg h]
  rfl

theorem storeByte_undefined (h : ¬off < blockSize) :
    (storeByte w off b).run t = .error .undefined t := by
  rw [storeByte, if_neg h]
  rfl

theorem storeWord_undefined (h : ¬off + 4 ≤ blockSize) :
    (storeWord w off v).run t = .error .undefined t := by
  rw [storeWord, if_neg h]
  rfl

theorem storeBytes_undefined {bytes : List UInt8} (h : ¬off + bytes.length ≤ blockSize) :
    (storeBytes w off bytes).run t = .error .undefined t := by
  rw [storeBytes, if_neg h]
  rfl

theorem bit_read {p k : ℕ} (hk : k < 32768) :
    bit (splice w 0 blockSize fun i ↦ t.bytes (p + i)) k = bit t.bytes (8 * p + k) := by
  have hbyte : k / 8 < 0 + blockSize := by
    simp only [blockSize]
    omega
  rw [← bit_shift]
  apply bit_congr _ rfl
  rw [splice_inside (Nat.zero_le _) hbyte, Nat.sub_zero]

theorem address_eq (h : n < 2 ^ 20) : address n = 4096 * n := by
  have hlt : 4096 * n < 2 ^ 32 := by omega
  rw [address, Nat.mul_comm, Nat.mod_eq_of_lt hlt]

end Running

end GenericFs.Disktool
