import GenericFs.Library.Blocks
import GenericFs.Library.Machine
import GenericFs.Library.Returning
import GenericFs.Fat.FileSystem

namespace GenericFs.Fat

open GenericFs.Library Blocks Machine Returning Function

/-- The file system of the host: the files with their bytes, the names that can be
opened for output, and the number of bytes that can still be stored. -/
structure Host where
  file : CString → Option (List UInt8)
  writable : CString → Bool
  room : ℕ

/-- The size as a `long` of 32 bits, or -1. -/
def checkFile (host : Host) (name : CString) : ℤ :=
  match host.file name with
  | none => -1
  | some bytes => Int.bmod bytes.length (2 ^ 32)

/-- An output stream on a new file. -/
structure Stream where
  bytes : List UInt8
  room : ℕ
  failed : Bool

/-- A stream that has failed takes no more bytes. -/
def Stream.put (s : Stream) (b : UInt8) : Stream :=
  if s.failed ∨ s.room = 0 then { s with failed := true }
  else { s with bytes := s.bytes ++ [b], room := s.room - 1 }

def Stream.zeros (s : Stream) : ℕ → Stream
  | 0 => s
  | turns + 1 => (s.put 0).zeros turns

/-- A device with its open backing file, which has a byte for every byte of a block,
at an offset that an `int` can hold. -/
structure BackingFile (blockSize : ℕ) where
  name : CString
  blockCount : ℕ
  bytes : List UInt8
  size : blockSize * blockCount ≤ bytes.length
  small : blockSize * blockCount < 2 ^ 31

theorem le_length_of_checkFile {host : Host} {name : CString} {v : ℕ}
    (h : checkFile host name = v) :
    v ≤ ((host.file name).getD []).length := by
  rw [checkFile] at h
  cases hfile : host.file name with
  | none =>
    rw [hfile] at h
    simp at h
  | some bytes =>
    rw [hfile] at h
    simp only [Option.getD_some] at h ⊢
    rw [Int.bmod_def] at h
    omega

theorem zeros_spec (s : Stream) (turns : ℕ) (h : (s.zeros turns).failed = false) :
    (s.zeros turns).bytes = s.bytes ++ List.replicate turns 0 ∧ s.failed = false := by
  induction turns generalizing s with
  | zero => exact ⟨by simp [Stream.zeros], h⟩
  | succ turns ih =>
    obtain ⟨hbytes, hput⟩ := ih (s.put 0) h
    rw [Stream.put] at hput
    split_ifs at hput with hfull
    push Not at hfull
    refine ⟨?_, hput⟩
    rw [Stream.zeros, hbytes, Stream.put, if_neg (by simpa using hfull), List.append_assoc,
      List.replicate_succ, List.singleton_append]

namespace BackingFile

variable {n : ℕ}

def construct (name : CString) (size count : ℕ) : EStateM Fault Host (BackingFile size) := do
  let host ← get
  if hsmall : size * count < 2 ^ 31 then
    if checkFile host name ≠ -1 then
      if hsize : checkFile host name = (size * count : ℕ) then
        if host.writable name then
          return ⟨name, count, (host.file name).getD [], le_length_of_checkFile hsize, hsmall⟩
        else throw (.thrown "Unable to open the backing file. Cause unknown")
      else throw (.thrown "Bad backing file selected. Size of file is wrong")
    else if host.writable name then
      let s := Stream.zeros ⟨[], host.room, false⟩ (size * count)
      set { host with file := update host.file name (some s.bytes), room := s.room }
      if hfailed : s.failed = false then
        return ⟨name, count, s.bytes, by simp [s, (zeros_spec _ _ hfailed).1], hsmall⟩
      else throw (.thrown "Unable to create the backing file. Insufficient disk space?")
    else throw (.thrown "Unable to create the backing file. Cause unknown")
  else throw .undefined

variable (f : BackingFile n)

def read (blockNumber : ℤ) : Except Fault (Buffer n) :=
  if blockNumber < 0 ∨ f.blockCount ≤ blockNumber then
    .error (.thrown "Attempt to read an invalid block by a block device")
  else if 2 ^ 31 ≤ blockNumber * n then .error .undefined
  else .ok fun k ↦ f.bytes.getD ((blockNumber * n).toNat + k) 0

/-- `seekp` and `write`, which leave the size of the file. -/
def write (blockNumber : ℤ) (buffer : Buffer n) : Except Fault (BackingFile n) :=
  if h : blockNumber < 0 ∨ f.blockCount ≤ blockNumber then
    .error (.thrown "Attempt to write an invalid block by a block device")
  else if 2 ^ 31 ≤ blockNumber * n then .error .undefined
  else .ok { f with
    bytes := patch f.bytes (blockNumber * n).toNat (List.ofFn buffer)
    size := f.size.trans_eq (length_patch (by
      obtain ⟨b, rfl⟩ := Int.eq_ofNat_of_zero_le (not_lt.mp (not_or.mp h).1)
      have hb : b < f.blockCount := by omega
      have hend := (block_end_le (n := n) hb).trans f.size
      rw [List.length_ofFn]
      exact_mod_cast hend)).symm }

def device : BlockDevice n where
  blockCount := f.blockCount
  block b k := f.bytes.getD (b * n + k) 0
  written := []

def holding (d : BlockDevice n) : List UInt8 :=
  (List.range f.bytes.length).map fun k ↦
    if k < n * f.blockCount then (d.block (k / n)).cells (k % n) else f.bytes.getD k 0

theorem length_holding (d : BlockDevice n) : (f.holding d).length = f.bytes.length := by
  simp [holding]

def hold (d : BlockDevice n) : BackingFile n :=
  { f with bytes := f.holding d, size := by rw [length_holding]; exact f.size }

def close (host : Host) : Host := { host with file := update host.file f.name (some f.bytes) }

end BackingFile

/-- The only two operations on a device. -/
inductive Access (n : ℕ)
  | read (blockNumber : ℤ)
  | write (blockNumber : ℤ) (buffer : Buffer n)

def BackingFile.reply {n : ℕ} (f : BackingFile n) :
    Access n → Except Fault (Option (Buffer n)) × BackingFile n
  | .read b =>
    match f.read b with
    | .ok buffer => (.ok (some buffer), f)
    | .error e => (.error e, f)
  | .write b buffer =>
    match f.write b buffer with
    | .ok f => (.ok none, f)
    | .error e => (.error e, f)

def BlockDevice.reply {n : ℕ} (d : BlockDevice n) :
    Access n → Except Fault (Option (Buffer n)) × BlockDevice n
  | .read (.ofNat b) =>
    match d.read b with
    | .ok buffer => (.ok (some buffer), d)
    | .error e => (.error e, d)
  | .read (.negSucc _) =>
    (.error (.thrown "Attempt to read an invalid block by a block device"), d)
  | .write (.ofNat b) buffer =>
    match d.write b buffer with
    | .ok d => (.ok none, d)
    | .error e => (.error e, d)
  | .write (.negSucc _) _ =>
    (.error (.thrown "Attempt to write an invalid block by a block device"), d)

/-- The file holds the blocks of the device. -/
structure Backs {n : ℕ} (f : BackingFile n) (d : BlockDevice n) : Prop where
  blockCount : d.blockCount = f.blockCount
  block : ∀ b < f.blockCount, d.block b = f.device.block b

section Backs

variable {n : ℕ} {f f' : BackingFile n} {d : BlockDevice n} {b : ℕ} {buffer : Buffer n}
  {host host' : Host} {name : CString} {count : ℕ}

theorem Backs.self (f : BackingFile n) : Backs f f.device := ⟨rfl, fun _ _ ↦ rfl⟩

/-- No offset in the file exceeds an `int`. -/
theorem BackingFile.offset_lt (f : BackingFile n) (hb : b < f.blockCount) : b * n < 2 ^ 31 := by
  have hend := block_end_le (n := n) hb
  have hsmall := f.small
  omega

theorem BackingFile.read_eq (f : BackingFile n) (b : ℕ) : f.read b = f.device.read b := by
  rw [BackingFile.read, BlockDevice.read]
  by_cases hb : f.blockCount ≤ b
  · rw [if_pos (by omega), if_pos (show f.device.blockCount ≤ b from hb)]
  · have hlt := BackingFile.offset_lt f (not_le.mp hb)
    rw [if_neg (by omega), if_neg (by exact_mod_cast not_le.mpr hlt),
      if_neg (show ¬f.device.blockCount ≤ b from hb)]
    rfl

theorem BackingFile.write_refused {b : ℤ} (hb : b < 0 ∨ f.blockCount ≤ b) : f.write b buffer =
    .error (.thrown "Attempt to write an invalid block by a block device") :=
  dif_pos hb

/-- What no operation changes of the file. -/
structure SameShape (f f' : BackingFile n) : Prop where
  name : f'.name = f.name
  blockCount : f'.blockCount = f.blockCount
  length : f'.bytes.length = f.bytes.length
  rest : ∀ k, n * f.blockCount ≤ k → f'.bytes.getD k 0 = f.bytes.getD k 0

theorem SameShape.rfl : SameShape f f := ⟨.refl _, .refl _, .refl _, fun _ _ ↦ .refl _⟩

theorem SameShape.trans {f'' : BackingFile n} (A : SameShape f f') (A' : SameShape f' f'') :
    SameShape f f'' where
  name := A'.name.trans A.name
  blockCount := A'.blockCount.trans A.blockCount
  length := A'.length.trans A.length
  rest k hk := (A'.rest k (by rwa [A.blockCount])).trans (A.rest k hk)

theorem BackingFile.write_ok (hb : b < f.blockCount) (buffer : Buffer n) :
    ∃ f', f.write b buffer = .ok f' ∧ SameShape f f' ∧
      f'.device.block = update f.device.block b buffer := by
  have hlt := BackingFile.offset_lt f hb
  have hend := (block_end_le (n := n) hb).trans f.size
  have hlen : b * n + (List.ofFn buffer).length ≤ f.bytes.length := by rwa [List.length_ofFn]
  rw [BackingFile.write, dif_neg (by omega), if_neg (by exact_mod_cast not_le.mpr hlt)]
  refine ⟨_, rfl, ⟨rfl, rfl, length_patch hlen, fun k hk ↦ ?_⟩, ?_⟩
  · have hout := (block_end_le (n := n) hb).trans hk
    exact getD_patch_outside hlen (.inr (by rwa [List.length_ofFn]))
  funext c k
  show (patch f.bytes (b * n) (List.ofFn buffer)).getD (c * n + k) 0 = _
  rcases eq_or_ne c b with rfl | hne
  · rw [getD_patch_inside (by omega) (by rw [List.length_ofFn]; exact k.isLt), update_self,
      List.getD_eq_getElem _ _ (by rw [List.length_ofFn]; exact k.isLt), List.getElem_ofFn]
  · have hout := block_apart k.isLt hne
    rw [getD_patch_outside hlen (by rwa [List.length_ofFn]), update_of_ne hne]
    rfl

/-- The file and the device give the same answer, and are in step afterwards. -/
theorem Backs.reply (B : Backs f d) (a : Access n) :
    (f.reply a).1 = (d.reply a).1 ∧ Backs (f.reply a).2 (d.reply a).2 := by
  rcases a with (b | b) | ⟨b | b, buffer⟩
  · -- a read
    have hread : f.read (.ofNat b) = d.read b := by
      refine (BackingFile.read_eq f b).trans ?_
      rw [BlockDevice.read, BlockDevice.read, B.blockCount]
      by_cases hb : f.blockCount ≤ b
      · rw [if_pos hb, if_pos (show f.device.blockCount ≤ b from hb)]
      · rw [if_neg hb, if_neg (show ¬f.device.blockCount ≤ b from hb), B.block b (not_le.mp hb)]
    simp only [BackingFile.reply, BlockDevice.reply, hread]
    cases d.read b with
    | ok buffer => exact ⟨rfl, B⟩
    | error e => exact ⟨rfl, B⟩
  · -- a read in front of the first block
    have hread : f.read (.negSucc b) = .error _ := if_pos (.inl (Int.negSucc_lt_zero b))
    simp only [BackingFile.reply, BlockDevice.reply, hread]
    exact ⟨trivial, B⟩
  · -- a write
    by_cases hb : f.blockCount ≤ b
    · have hf : f.write (.ofNat b) buffer = .error _ :=
        BackingFile.write_refused (.inr (Int.ofNat_le.mpr hb))
      have hd : d.write b buffer = .error _ := if_pos (B.blockCount ▸ hb)
      simp only [BackingFile.reply, BlockDevice.reply, hf, hd]
      exact ⟨trivial, B⟩
    · obtain ⟨f', hwrite, A, hblock⟩ := BackingFile.write_ok (not_le.mp hb) buffer
      have hcount := A.blockCount
      have hf : f.write (.ofNat b) buffer = .ok f' := hwrite
      have hd : d.write b buffer = .ok _ := if_neg (B.blockCount ▸ hb)
      simp only [BackingFile.reply, BlockDevice.reply, hf, hd]
      refine ⟨trivial, B.blockCount.trans hcount.symm, fun c hc ↦ ?_⟩
      rw [hblock]
      show update d.block b buffer c = _
      rcases eq_or_ne c b with rfl | hne
      · rw [update_self, update_self]
      · rw [update_of_ne hne, update_of_ne hne, B.block c (hcount ▸ hc)]
  · -- a write in front of the first block
    have hf : f.write (.negSucc b) buffer = .error _ :=
      BackingFile.write_refused (.inl (Int.negSucc_lt_zero b))
    simp only [BackingFile.reply, BlockDevice.reply, hf]
    exact ⟨trivial, B⟩

def BackingFile.Step (f : BackingFile n) (l : Access n × Except Fault (Option (Buffer n)))
    (f' : BackingFile n) : Prop :=
  f.reply l.1 = (l.2, f')

def BlockDevice.Step (d : BlockDevice n) (l : Access n × Except Fault (Option (Buffer n)))
    (d' : BlockDevice n) : Prop :=
  d.reply l.1 = (l.2, d')

theorem Backs.step {l : Access n × Except Fault (Option (Buffer n))} (B : Backs f d)
    (h : f.Step l f') : ∃ d', d.Step l d' ∧ Backs f' d' := by
  obtain ⟨hreply, B'⟩ := B.reply l.1
  rw [BackingFile.Step] at h
  rw [h] at hreply B'
  exact ⟨_, Prod.ext hreply.symm rfl, B'⟩

theorem BackingFile.step_sameShape {l : Access n × Except Fault (Option (Buffer n))}
    (h : f.Step l f') : SameShape f f' := by
  obtain ⟨a, o⟩ := l
  have hf' : (f.reply a).2 = f' := congrArg Prod.snd h
  rw [← hf']
  cases a with
  | read b =>
    rw [BackingFile.reply]
    cases f.read b <;> exact .rfl
  | write b buffer =>
    rw [BackingFile.reply]
    by_cases hb : b < 0 ∨ f.blockCount ≤ b
    · rw [BackingFile.write_refused hb]
      exact .rfl
    · obtain ⟨b, rfl⟩ := Int.eq_ofNat_of_zero_le (not_lt.mp (not_or.mp hb).1)
      obtain ⟨f₁, hwrite, A, -⟩ := BackingFile.write_ok (f := f) (b := b) (by omega) buffer
      rw [hwrite]
      exact A

theorem BackingFile.sameShape_hold (f : BackingFile n) (d : BlockDevice n) :
    SameShape f (f.hold d) := by
  refine ⟨rfl, rfl, f.length_holding d, fun k hk ↦ ?_⟩
  show (f.holding d).getD k 0 = _
  by_cases hlt : k < f.bytes.length
  · rw [List.getD_eq_getElem _ _ (by rwa [f.length_holding])]
    simp only [holding, List.getElem_map, List.getElem_range, if_neg (not_lt.mpr hk)]
  · rw [List.getD_eq_default _ _ (not_lt.mp hlt),
      List.getD_eq_default _ _ ((f.length_holding d).trans_le (not_lt.mp hlt))]

theorem BackingFile.backs_hold (hd : d.blockCount = f.blockCount) : Backs (f.hold d) d := by
  refine ⟨hd, fun b (hb : b < f.blockCount) ↦ funext fun k ↦ ?_⟩
  have hend := (block_end_le (n := n) hb).trans f.size
  have hk := k.isLt
  have hlt : b * n + k < n * f.blockCount := by
    have hle := block_end_le (n := n) hb
    omega
  have hdiv : (b * n + k) / n = b := by
    rw [Nat.mul_comm, Nat.mul_add_div (by omega), Nat.div_eq_of_lt hk, Nat.add_zero]
  have hmod : (b * n + k) % n = k := by
    rw [Nat.mul_comm, Nat.mul_add_mod, Nat.mod_eq_of_lt hk]
  show _ = (f.holding d).getD (b * n + k) 0
  rw [List.getD_eq_getElem _ _ (by rw [f.length_holding]; omega)]
  simp only [holding, List.getElem_map, List.getElem_range, if_pos hlt, hdiv, hmod, Buffer.cells,
    dif_pos hk]

/-- Byte for byte, the file has the blocks of the device. -/
theorem Backs.bytes (B : Backs f' d) (A : SameShape f f') : f'.bytes = f.holding d := by
  refine List.ext_getElem (by simp [BackingFile.holding, A.length]) fun k hk _ ↦ ?_
  rw [← List.getD_eq_getElem _ 0 hk]
  simp only [BackingFile.holding, List.getElem_map, List.getElem_range]
  split_ifs with hlt
  · have hn : 0 < n := Nat.pos_of_ne_zero fun h ↦ by simp [h] at hlt
    have hmod := Nat.mod_lt k hn
    have hb : k / n < f'.blockCount := by
      rw [A.blockCount]
      exact Nat.div_lt_of_lt_mul hlt
    rw [B.block _ hb, Buffer.cells, dif_pos hmod]
    show f'.bytes.getD k 0 = f'.bytes.getD (k / n * n + k % n) 0
    rw [Nat.div_add_mod']
  · exact A.rest k (not_lt.mp hlt)

end Backs

section Opening

variable {n : ℕ} {f f' : BackingFile n} {host host' host₁ : Host} {name : CString} {count : ℕ}

/-- What the constructor makes of the host: it has the file, which its own check accepts. -/
structure Opened (f : BackingFile n) (name : CString) (count : ℕ) (host : Host) : Prop where
  named : f.name = name
  blockCount : f.blockCount = count
  file : host.file name = some f.bytes
  writable : host.writable name = true
  length : Int.bmod f.bytes.length (2 ^ 32) = (n * count : ℕ)

theorem construct_opened (h : (BackingFile.construct name n count).run host = .ok f host') :
    Opened f name count host' := by
  simp only [BackingFile.construct, EStateM.run_bind, EStateM.run_get] at h
  split_ifs at h with hsmall hthere hsize hwritable hwritable hfailed
  case pos =>
    -- the file was there
    obtain ⟨bytes, hfile⟩ : ∃ bytes, host.file name = some bytes := by
      rw [← Option.ne_none_iff_exists']
      intro hnone
      simp [checkFile, hnone] at hthere
    have hlen : checkFile host name = Int.bmod bytes.length (2 ^ 32) := by rw [checkFile, hfile]
    injection h with hf hhost
    subst hf hhost
    refine ⟨rfl, rfl, ?_, hwritable, ?_⟩
    · simp [hfile]
    · simpa [hfile] using hlen.symm.trans hsize
  case pos =>
    -- it was made
    injection h with hf hhost
    have hlen := congrArg List.length (zeros_spec _ _ hfailed).1
    rw [List.nil_append, List.length_replicate] at hlen
    subst hf hhost
    refine ⟨rfl, rfl, update_self _ _ _, hwritable, ?_⟩
    show Int.bmod (Stream.zeros _ _).bytes.length _ = _
    rw [hlen, Int.bmod_def]
    omega
  all_goals cases h

/-- No other file of the host is touched. -/
theorem construct_elsewhere (h : (BackingFile.construct name n count).run host = .ok f host') :
    host'.writable = host.writable ∧ ∀ x, x ≠ name → host'.file x = host.file x := by
  simp only [BackingFile.construct, EStateM.run_bind, EStateM.run_get] at h
  split_ifs at h
  case pos =>
    injection h with _ hhost
    exact hhost ▸ ⟨rfl, fun _ _ ↦ rfl⟩
  case pos =>
    injection h with _ hhost
    exact hhost ▸ ⟨rfl, fun x hx ↦ update_of_ne hx _ _⟩
  all_goals cases h

theorem Opened.construct (O : Opened f name count host) :
    (BackingFile.construct name n count).run host = .ok f host := by
  have hcheck : checkFile host name = (n * count : ℕ) := by
    rw [checkFile, O.file]
    exact O.length
  have hsmall : n * count < 2 ^ 31 := by
    rw [← O.blockCount]
    exact f.small
  have hthere : checkFile host name ≠ -1 := by omega
  have hf : (⟨name, count, (host.file name).getD [], le_length_of_checkFile hcheck, hsmall⟩ :
      BackingFile n) = f := by
    obtain ⟨rfl, rfl, hfile, -, -⟩ := O
    simp [hfile]
  simp only [BackingFile.construct, EStateM.run_bind, EStateM.run_get, dif_pos hsmall,
    if_pos hthere, dif_pos hcheck, O.writable, ↓reduceIte, hf]
  rfl

theorem Opened.close (O : Opened f name count host) (A : SameShape f f') :
    Opened f' name count (f'.close host) where
  named := A.name.trans O.named
  blockCount := A.blockCount.trans O.blockCount
  file := by rw [← O.named, ← A.name]; exact update_self _ _ _
  writable := O.writable
  length := by rw [A.length]; exact O.length

/-- A device on a file of the host is, operation by operation, an array of blocks. A later
device on the same file has the blocks as they were left. -/
theorem backs_of_run {ls : List (Access n × Except Fault (Option (Buffer n)))}
    (hnew : (BackingFile.construct name n count).run host = .ok f host₁)
    (hr : Run BackingFile.Step f ls f') :
    ∃ d, Run BlockDevice.Step f.device ls d ∧ d.blockCount = count ∧ f'.bytes = f.holding d ∧
      ∃ f₂, (BackingFile.construct name n count).run (f'.close host₁) = .ok f₂ (f'.close host₁) ∧
        ∀ b < count, f₂.device.block b = d.block b := by
  have hstep : ∀ (g : BackingFile n) d l g', Backs g d → g.Step l g' → ∃ d', d.Step l d' ∧
      Backs g' d' :=
    fun _ _ _ _ ↦ Backs.step
  obtain ⟨d, hd, B⟩ := hr.simulation hstep (Backs.self f)
  have O := construct_opened hnew
  have A : SameShape f f' := hr.invariant (P := SameShape f)
    (fun _ _ _ A h ↦ A.trans (BackingFile.step_sameShape h)) .rfl
  have hsame : f'.blockCount = count := A.blockCount.trans O.blockCount
  refine ⟨d, hd, B.blockCount.trans hsame, B.bytes A, f', (O.close A).construct, fun b hb ↦ ?_⟩
  rw [B.block b (hsame ▸ hb)]

def emptyHost : Host := ⟨fun _ ↦ none, fun _ ↦ true, 6⟩

/-- A file is made, a block in front of the first one is refused, and block 1 is written. -/
theorem backs_of_run_emptyHost : ∃ (f f₂ : BackingFile 2) (host₁ host : Host),
    (BackingFile.construct ⟨[100], by decide⟩ 2 3).run emptyHost = .ok f host₁ ∧
      (BackingFile.construct ⟨[100], by decide⟩ 2 3).run host = .ok f₂ host ∧
        f₂.device.block 1 = fun _ ↦ 7 := by
  have hok : (match (BackingFile.construct ⟨[100], by decide⟩ 2 3).run emptyHost with
      | .ok _ _ => true
      | .error _ _ => false) = true := by decide
  cases hnew : (BackingFile.construct ⟨[100], by decide⟩ 2 3).run emptyHost with
  | error e host =>
    rw [hnew] at hok
    cases hok
  | ok f host =>
    have hrefused : f.Step (.write (-1) fun _ ↦ 7,
        .error (.thrown "Attempt to write an invalid block by a block device")) f := rfl
    have hwritten : f.Step (.write 1 fun _ ↦ 7, (f.reply (.write 1 fun _ ↦ 7)).1) _ := rfl
    obtain ⟨d, hd, -, -, f₂, hreopen, hblocks⟩ :=
      backs_of_run hnew (.cons hrefused (.cons hwritten (.nil _)))
    refine ⟨f, f₂, _, _, rfl, hreopen, ?_⟩
    rw [hblocks 1 (by decide)]
    rcases hd with _ | ⟨hfirst, _ | ⟨hsecond, ⟨⟩⟩⟩
    have hcount : f.device.blockCount = 3 := (construct_opened hnew).blockCount
    have hok : f.device.write 1 (fun _ ↦ 7) = .ok _ := if_neg (by omega)
    obtain rfl : f.device = _ := congrArg Prod.snd hfirst
    have hd : (f.device.reply (.write (.ofNat 1) fun _ ↦ 7)).2 = d := congrArg Prod.snd hsecond
    simp only [BlockDevice.reply, hok] at hd
    subst hd
    show update f.device.block 1 (fun _ ↦ 7) 1 = _
    rw [update_self]

end Opening

end GenericFs.Fat
