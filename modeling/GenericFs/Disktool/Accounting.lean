import GenericFs.Disktool.Verify

namespace GenericFs.Disktool

open Function GenericFs.Library Store Bitmap Returning

section References

variable (s : ℕ → UInt8) (g : Sizes)

/-- The block numbers in an indirection block before the first zero. -/
def indirectEntries (block : ℕ) : List ℕ :=
  ((List.range' 0 1024).map fun i ↦ word 4 s (4096 * block + 4 * i)).takeWhile (· ≠ 0)

def firstIndirection (block : ℕ) : List ℕ := block :: indirectEntries s block

def secondIndirection (block : ℕ) : List ℕ :=
  block :: (indirectEntries s block).flatMap (firstIndirection s)

def Inode.references (n : Inode) : List ℕ :=
  ((List.finRange 4).map n.blocks).filter (· ≠ 0) ++
    ((if n.firstIndirect ≠ 0 then firstIndirection s n.firstIndirect else []) ++
      if n.secondIndirect ≠ 0 then secondIndirection s n.secondIndirect else [])

def inodeAt (i : ℕ) : Inode := Inode.decode s (4096 * (1 + 2 * g.freemapBlocksize) + 64 * i)

def inodeBit (i : ℕ) : Bool := bit s (32768 + i)

def blockBit (b : ℕ) : Bool := bit s (32768 * (1 + g.freemapBlocksize) + b)

/-- The block numbers that the allocated inodes below `n` meet, in the order of the scan. -/
def references (n : ℕ) : List ℕ :=
  ((List.range n).filter (inodeBit s)).flatMap fun i ↦ (inodeAt s g i).references s

/-- How often a block is used: by the metadata, and by the files. -/
def refs (b : ℕ) : ℕ :=
  (if b < 1 + 2 * g.freemapBlocksize + g.inodetableBlocksize then 1 else 0) +
    (references s g g.blockCount).count b

/-- The block free map agrees with the use of the blocks. -/
def Accounted : Prop := ∀ b < g.blockCount,
  (blockBit s g b = true ↔ refs s g b = 1) ∧ (blockBit s g b = false ↔ refs s g b = 0)

end References

def countAll : Counters → List ℕ → Counters :=
  List.foldl fun c b ↦ update c b ((c b + 1) % 2 ^ 32)

def Tool.Quiet (t : Tool) : Prop := ∀ m ∈ t.screen, ¬m.Inconsistent

variable {g : Sizes} {t : Tool} {c : Counters} {l l' : List ℕ} {b n i : ℕ}

theorem countAll_append : countAll c (l ++ l') = countAll (countAll c l) l' := List.foldl_append

theorem countAll_apply (hc : ∀ b, c b < 2 ^ 32) : countAll c l b = (c b + l.count b) % 2 ^ 32 := by
  induction l generalizing c with
  | nil =>
    have h := hc b
    simp only [countAll, List.foldl_nil, List.count_nil]
    omega
  | cons a l ih =>
    have hnext : ∀ k, update c a ((c a + 1) % 2 ^ 32) k < 2 ^ 32 := by
      intro k
      by_cases hk : k = a
      · rw [hk, update_self]
        omega
      · rw [update_of_ne hk]
        exact hc k
    have hrest : countAll c (a :: l) = countAll (update c a ((c a + 1) % 2 ^ 32)) l := rfl
    rw [hrest, ih hnext, List.count_cons]
    by_cases hb : a = b
    · subst hb
      simp only [update_self, beq_self_eq_true, ↓reduceIte]
      omega
    · simp only [update_of_ne (Ne.symm hb), beq_iff_eq, hb, ↓reduceIte]
      omega

section Counting

/-- What a counting function of the checker does: it counts the blocks of a list
and moves the file position. -/
def Counts (act : Action Counters) (t : Tool) (c : Counters) (l : List ℕ) : Prop :=
  Returns act t fun c' t' ↦ c' = countAll c l ∧ ∃ p, t' = { t with position := p }

theorem Counts.nil : Counts (pure c) t c [] := .pure ⟨rfl, t.position, rfl⟩

theorem Counts.append {act : Action Counters} {f : Counters → Action Counters}
    (h : Counts act t c l)
    (hf : ∀ p, Counts (f (countAll c l)) { t with position := p } (countAll c l) l') :
    Counts (act >>= f) t c (l ++ l') := by
  apply h.bind
  rintro c' t' ⟨rfl, p, rfl⟩
  apply (hf p).mono
  rintro c'' t'' ⟨rfl, q, rfl⟩
  exact ⟨countAll_append.symm, q, rfl⟩

theorem increment_counts (hb : b < g.blockCount) : Counts (increment g c b) t c [b] := by
  rw [increment, if_pos hb]
  exact .pure ⟨rfl, t.position, rfl⟩

variable {w : Workspace} {body : ℕ → Counters → Action Counters} {R : ℕ → List ℕ}

theorem forEntries_counts (hn : 4 * (i + n) ≤ blockSize)
    (hbody : ∀ b ∈ ((List.range' i n).map fun j ↦ word 4 w (4 * j)).takeWhile (· ≠ 0),
      ∀ p c, Counts (body b c) { t with position := p } c (R b)) (p : ℕ) :
    Counts (forEntries w body n i c) { t with position := p } c
      ((((List.range' i n).map fun j ↦ word 4 w (4 * j)).takeWhile (· ≠ 0)).flatMap R) := by
  induction n generalizing i c p with
  | zero => exact .nil
  | succ n ih =>
    rw [List.range'_succ, List.map_cons] at hbody ⊢
    have hload : (loadWord w (4 * i)).run { t with position := p } =
        .ok (word 4 w (4 * i)) { t with position := p } := loadWord_run (by omega)
    rw [forEntries]
    by_cases hzero : word 4 w (4 * i) = 0
    · rw [List.takeWhile_cons_of_neg (by simpa using hzero)]
      refine ⟨c, { t with position := p }, ?_, rfl, p, rfl⟩
      rw [EStateM.run_bind, hload]
      simp only [hzero, ↓reduceIte, EStateM.run_pure]
    · rw [List.takeWhile_cons_of_pos (by simpa using hzero)] at hbody ⊢
      have hrest : ∀ p c, Counts (forEntries w body n (i + 1) c) { t with position := p } c
          ((((List.range' (i + 1) n).map fun j ↦ word 4 w (4 * j)).takeWhile
          (· ≠ 0)).flatMap R) := by
        intro p c
        apply ih (by omega)
        intro b hb
        exact hbody b (List.mem_cons_of_mem _ hb)
      have hfirst := hbody _ List.mem_cons_self p c
      apply (Returns.of_run hload (Q := fun v t' ↦ v = word 4 w (4 * i) ∧
        t' = { t with position := p }) ⟨rfl, rfl⟩).bind
      rintro v t' ⟨rfl, rfl⟩
      simp only [hzero, ↓reduceIte, List.flatMap_cons]
      exact hfirst.append fun q ↦ hrest q _

def blockOf (t : Tool) (block : ℕ) : Workspace :=
  splice (fun _ ↦ 0) 0 blockSize fun k ↦ t.bytes (4096 * block + k)

theorem word_blockOf {off : ℕ} (h : off + 4 ≤ 4096) :
    word 4 (blockOf t b) off = word 4 t.bytes (4096 * b + off) := by
  apply word_congr
  intro k hk
  rw [blockOf, splice_inside (Nat.zero_le _) (by simp only [blockSize]; omega), Nat.sub_zero,
    Nat.add_assoc]

theorem entries_blockOf : ((List.range' 0 1024).map fun j ↦ word 4 (blockOf t b) (4 * j)) =
    (List.range' 0 1024).map fun j ↦ word 4 t.bytes (4096 * b + 4 * j) := by
  apply List.map_congr_left
  intro j hj
  have hlt := (List.mem_range'_1.mp hj).2
  exact word_blockOf (by omega)

theorem indirectEntries_counts
    (hbody : ∀ a ∈ indirectEntries t.bytes b, ∀ p c, Counts (body a c)
    { t with position := p } c (R a))
    (p : ℕ) (c : Counters) :
    Counts (forEntries (blockOf t b) body (blockSize / 4) 0 c) { t with position := p } c
      ((indirectEntries t.bytes b).flatMap R) := by
  rw [indirectEntries, ← entries_blockOf] at hbody ⊢
  exact forEntries_counts (by decide) hbody p

theorem bit_blockOf (h : n < 32768) : bit (blockOf t b) n = bit t.bytes (8 * (4096 * b) + n) :=
  bit_read h

theorem readBlock_run (hb : b < 2 ^ 20) (hfit : 4096 * b + 4096 ≤ t.size) :
    (do lseek (address b); Disktool.read (fun _ ↦ 0) blockSize).run t =
      .ok (blockOf t b) { t with position := 4096 * b + 4096 } := by
  rw [EStateM.run_bind, lseek_run, address_eq hb]
  exact read_run hfit

variable (hcount : g.blockCount ≤ 2 ^ 20) (hsize : 4096 * g.blockCount ≤ t.size)

include hcount hsize

theorem Counts.read {act : Workspace → Action Counters} (hb : b < g.blockCount)
    (h : ∀ p, Counts (act (blockOf t b)) { t with position := p } c l) (p : ℕ) :
    Counts (do lseek (address b); act (← Disktool.read (fun _ ↦ 0) blockSize))
      { t with position := p } c l := by
  obtain ⟨c', t', hrun, hc, q, ht⟩ := h (4096 * b + 4096)
  refine ⟨c', t', ?_, hc, q, ht⟩
  rw [← bind_assoc, EStateM.run_bind, readBlock_run (by omega) (by simp only; omega)]
  exact hrun

theorem findFirstIndirectionBlocks_counts (hb : ∀ a ∈ firstIndirection t.bytes b, a < g.blockCount)
    (p : ℕ) (c : Counters) : Counts (findFirstIndirectionBlocks g b c) { t with position := p } c
      (firstIndirection t.bytes b) := by
  have hfirst := hb b List.mem_cons_self
  apply (increment_counts hfirst).append
  intro q
  apply Counts.read hcount hsize hfirst
  intro r
  have hentries := indirectEntries_counts (R := fun a ↦ [a]) (t := t) (b := b)
    (fun a ha _ _ ↦ increment_counts (hb a (List.mem_cons_of_mem _ ha))) r (countAll c [b])
  rwa [List.flatMap_singleton'] at hentries

theorem findSecondIndirectionBlocks_counts
    (hb : ∀ a ∈ secondIndirection t.bytes b, a < g.blockCount) (p : ℕ) (c : Counters) :
    Counts (findSecondIndirectionBlocks g b c) { t with position := p } c
      (secondIndirection t.bytes b) := by
  have hfirst := hb b List.mem_cons_self
  apply (increment_counts hfirst).append
  intro q
  apply Counts.read hcount hsize hfirst
  intro r
  apply indirectEntries_counts
  intro a ha
  apply findFirstIndirectionBlocks_counts hcount hsize
  intro d hd
  exact hb d (List.mem_cons_of_mem _ (List.mem_flatMap.mpr ⟨a, ha, hd⟩))

omit hcount hsize in
theorem findDirectBlocks_counts {node : Inode} {is : List (Fin 4)}
    (hb : ∀ a ∈ (is.map node.blocks).filter (· ≠ 0), a < g.blockCount) (p : ℕ) (c : Counters) :
    Counts (findDirectBlocks g node is c) { t with position := p } c
      ((is.map node.blocks).filter (· ≠ 0)) := by
  induction is generalizing p c with
  | nil => exact .nil
  | cons i is ih =>
    rw [findDirectBlocks]
    rw [List.map_cons] at hb ⊢
    by_cases hzero : node.blocks i = 0
    · rw [List.filter_cons_of_neg (by simpa using hzero)] at hb ⊢
      simp only [hzero, ne_eq, not_true_eq_false, ↓reduceIte, pure_bind]
      exact ih hb p c
    · rw [List.filter_cons_of_pos (by simpa using hzero)] at hb ⊢
      simp only [ne_eq, hzero, not_false_eq_true, ↓reduceIte]
      have hrest := ih fun a ha ↦ hb a (List.mem_cons_of_mem _ ha)
      exact (increment_counts (hb _ List.mem_cons_self)).append fun q ↦ hrest q _

theorem findInodeBlocks_counts (hin : 1 + 2 * g.freemapBlocksize + i / 64 < g.blockCount)
    (hb : ∀ a ∈ (inodeAt t.bytes g i).references t.bytes, a < g.blockCount) (p : ℕ) (c : Counters) :
    Counts (findInodeBlocks g i c) { t with position := p } c
      ((inodeAt t.bytes g i).references t.bytes) := by
  apply Counts.read hcount hsize hin
  intro q
  have hnode : Inode.decode (blockOf t (1 + 2 * g.freemapBlocksize + i / 64)) (64 * (i % 64)) =
      inodeAt t.bytes g i := by
    apply Inode.decode_congr
    intro k hk
    rw [blockOf, splice_inside (Nat.zero_le _) (by simp only [blockSize]; omega), Nat.sub_zero]
    congr 1
    omega
  rw [hnode]
  simp only [Inode.references, List.mem_append] at hb
  apply (findDirectBlocks_counts (fun a ha ↦ hb a (.inl ha)) q c).append
  intro r
  apply Counts.append
  · by_cases hzero : (inodeAt t.bytes g i).firstIndirect = 0
    · simp only [hzero, ne_eq, not_true_eq_false, ↓reduceIte]
      exact .nil
    · simp only [hzero, ne_eq, not_false_eq_true, ↓reduceIte] at hb ⊢
      exact findFirstIndirectionBlocks_counts hcount hsize (fun a ha ↦ hb a (.inr (.inl ha))) r _
  · intro r
    by_cases hzero : (inodeAt t.bytes g i).secondIndirect = 0
    · simp only [hzero, ne_eq, not_true_eq_false, ↓reduceIte]
      exact .nil
    · simp only [hzero, ne_eq, not_false_eq_true, ↓reduceIte] at hb ⊢
      exact findSecondIndirectionBlocks_counts hcount hsize (fun a ha ↦ hb a (.inr (.inr ha))) r _

end Counting

section Checking

/-- The layout as the checker relies on it: the metadata is inside the partition and
the maps and the table have room for every number. -/
structure Laid (g : Sizes) : Prop where
  small : g.blockCount ≤ 2 ^ 20
  positive : 0 < g.blockCount
  metadata : 1 + 2 * g.freemapBlocksize + g.inodetableBlocksize ≤ g.blockCount
  mapped : g.blockCount ≤ 32768 * g.freemapBlocksize
  slots : g.blockCount ≤ 64 * g.inodetableBlocksize

/-- The partition and its size are as they were, whatever moved or was printed. -/
structure Kept (t t' : Tool) : Prop where
  size : t'.size = t.size
  bytes : t'.bytes = t.bytes

theorem references_succ {s : ℕ → UInt8} : references s g (n + 1) =
    references s g n ++ if inodeBit s n then (inodeAt s g n).references s else [] := by
  rw [references, List.range_succ, List.filter_append, List.flatMap_append, ← references]
  cases h : inodeBit s n with
  | true => simp [h]
  | false => simp [h]

theorem mem_references_of_le {s : ℕ → UInt8} {m a : ℕ} (hnm : n ≤ m) (h : a ∈ references s g n) :
    a ∈ references s g m := by
  induction m, hnm using Nat.le_induction with
  | base => exact h
  | succ m _ ih =>
    rw [references_succ]
    exact List.mem_append_left _ ih

theorem Tool.Quiet.print {m : Message} :
    (({ t with screen := t.screen ++ [m] } : Tool).Quiet) ↔ t.Quiet ∧ ¬m.Inconsistent := by
  simp only [Tool.Quiet, List.mem_append, List.mem_singleton]
  constructor
  · intro h
    exact ⟨fun a ha ↦ h a (.inl ha), h m (.inr rfl)⟩
  · rintro ⟨h, hm⟩ a (ha | rfl)
    · exact h a ha
    · exact hm

def inodeMessages (s : ℕ → UInt8) (n : ℕ) : List Message :=
  ((List.range n).filter (inodeBit s)).map .inode

theorem inodeMessages_succ {s : ℕ → UInt8} :
    inodeMessages s (n + 1) = inodeMessages s n ++ if inodeBit s n then [.inode n] else [] := by
  rw [inodeMessages, List.range_succ, List.filter_append, List.map_append, ← inodeMessages]
  cases h : inodeBit s n with
  | true => simp [h]
  | false => simp [h]

theorem not_inconsistent_of_mem {s : ℕ → UInt8} {m : Message} (h : m ∈ inodeMessages s n) :
    ¬m.Inconsistent := by
  obtain ⟨i, -, rfl⟩ := List.mem_map.mp h
  exact id

theorem scanInodes_returns (L : Laid g) (hsize : 4096 * g.blockCount ≤ t.size)
    (hmeets : ∀ a ∈ references t.bytes g g.blockCount, a < g.blockCount) :
    Returns (scanInodes g c) t fun c' t' ↦
      c' = countAll c (references t.bytes g g.blockCount) ∧ Kept t t' ∧
        t'.screen = t.screen ++ inodeMessages t.bytes g.blockCount := by
  have hpos := L.positive
  have hmeta := L.metadata
  have hmap := L.mapped
  have hslots := L.slots
  have hsmall := L.small
  let I : ℕ → ℕ → Counters → Tool → Prop := fun _ n c' t' ↦
    c' = countAll c (references t.bytes g n) ∧ Kept t t' ∧
    t'.screen = t.screen ++ inodeMessages t.bytes n
  have hload : ∀ j a t', 0 ≤ j → j < 0 + g.freemapBlocksize → 8 * blockSize * j < g.blockCount →
      I j (8 * blockSize * j) a t' →
      Returns (do lseek (address (1 + j)); Disktool.read (fun _ ↦ 0) blockSize)
        t' fun w t'' ↦ (∀ k < 8 * blockSize, bit w k = inodeBit t.bytes (8 * blockSize * j + k)) ∧
          I (j + 1) (8 * blockSize * j) a t'' := by
    intro j a t' _ hj hlt hI
    obtain ⟨ha, hkept, hq⟩ := hI
    have hfit : 4096 * (1 + j) + 4096 ≤ t'.size := by
      rw [hkept.size]
      omega
    apply Returns.of_run (readBlock_run (show 1 + j < 2 ^ 20 by omega) hfit)
    refine ⟨fun k hk ↦ ?_, ha, ⟨hkept.size, hkept.bytes⟩, hq⟩
    simp only [blockSize] at hk ⊢
    rw [bit_blockOf (by omega), hkept.bytes, inodeBit]
    congr 1
    omega
  have hbody : ∀ j n a t', n < g.blockCount → I j n a t' → Returns (do
      if inodeBit t.bytes n then
        print (.inode n)
        findInodeBlocks g n a
      else return a) t' (I j (n + 1)) := by
    rintro j n a t' hn ⟨rfl, hkept, hq⟩
    cases hbit : inodeBit t.bytes n with
    | false =>
      apply Returns.pure
      refine ⟨?_, hkept, ?_⟩
      · rw [references_succ, hbit]
        simp
      · rw [inodeMessages_succ, hbit, hq]
        simp
    | true =>
      have hall : ∀ a ∈ (inodeAt t.bytes g n).references t.bytes, a < g.blockCount := by
        intro a ha
        apply hmeets a
        apply mem_references_of_le (show n + 1 ≤ g.blockCount from hn)
        rw [references_succ, hbit]
        exact List.mem_append_right _ ha
      rw [← hkept.bytes] at hall
      obtain ⟨c', t'', hrun, rfl, p, rfl⟩ := findInodeBlocks_counts
        (t := { t' with screen := t'.screen ++ [.inode n] }) hsmall (hkept.size ▸ hsize)
        (show 1 + 2 * g.freemapBlocksize + n / 64 < g.blockCount by omega) hall t'.position
        (countAll c (references t.bytes g n))
      refine ⟨_, _, hrun, ?_, ⟨hkept.size, hkept.bytes⟩, ?_⟩
      · rw [references_succ, hbit, countAll_append, hkept.bytes]
        rfl
      · rw [inodeMessages_succ, hbit, ← List.append_assoc, ← hq]
        rfl
  apply (forBlocks_returns hload hbody hpos (by simp only [blockSize]; omega)
    ⟨rfl, ⟨rfl, rfl⟩, (List.append_nil _).symm⟩).mono
  rintro c' t' ⟨_, h⟩
  exact h

theorem preallocate_run (h : i + n ≤ g.blockCount) : (preallocate g n i c).run t =
    .ok (fun k ↦ if i ≤ k ∧ k < i + n then 1 else c k) t := by
  induction n generalizing i c with
  | zero =>
    have hnone : ∀ k, ¬(i ≤ k ∧ k < i + 0) := by
      intro k
      omega
    simp only [preallocate, EStateM.run_pure, hnone, ↓reduceIte]
  | succ n ih =>
    rw [preallocate, if_pos (by omega), ih (by omega)]
    congr 1
    funext k
    by_cases hk : k = i
    · have hin : i ≤ k ∧ k < i + (n + 1) := by omega
      have hout : ¬(i + 1 ≤ k ∧ k < i + 1 + n) := by omega
      rw [if_pos hin, if_neg hout, hk, update_self]
    · have hiff : (i + 1 ≤ k ∧ k < i + 1 + n) ↔ (i ≤ k ∧ k < i + (n + 1)) := by omega
      simp only [hiff, update_of_ne hk]

theorem preallocate_fails (h : g.blockCount < i + n) (hi : i ≤ g.blockCount) :
    (preallocate g n i c).run t = .error .undefined t := by
  induction n generalizing i c with
  | zero => omega
  | succ n ih =>
    rw [preallocate]
    by_cases hlt : i < g.blockCount
    · rw [if_pos hlt]
      exact ih (by omega) hlt
    · rw [if_neg hlt]
      rfl

theorem checkCounters_returns (hq : t.Quiet ↔ ∀ b < i, c b = 0 ∨ c b = 1) :
    Returns (checkCounters c n i) t fun _ t' ↦
      Kept t t' ∧ (t'.Quiet ↔ ∀ b < i + n, c b = 0 ∨ c b = 1) := by
  induction n generalizing i t with
  | zero => exact .pure ⟨⟨rfl, rfl⟩, hq⟩
  | succ n ih =>
    have hsucc : i + (n + 1) = i + 1 + n := by omega
    have hsplit : (∀ b < i + 1, c b = 0 ∨ c b = 1) ↔
        (∀ b < i, c b = 0 ∨ c b = 1) ∧ (c i = 0 ∨ c i = 1) := by
      simp only [Nat.lt_succ_iff_lt_or_eq, or_imp, forall_and, forall_eq]
    rw [checkCounters, hsucc]
    by_cases hbad : c i ≠ 0 ∧ c i ≠ 1
    · rw [if_pos hbad]
      have hprinted : ({ t with screen := t.screen ++ [.usedMultipleTimes i (c i)] } : Tool).Quiet ↔
          ∀ b < i + 1, c b = 0 ∨ c b = 1 := by
        rw [Tool.Quiet.print, hsplit, hq]
        simp only [Message.Inconsistent, not_true_eq_false, and_false, false_iff, not_and]
        intro _ h
        exact h.elim hbad.1 hbad.2
      obtain ⟨u, t', hrun, hkept, hquiet⟩ := ih hprinted
      exact ⟨u, t', hrun, ⟨hkept.size, hkept.bytes⟩, hquiet⟩
    · rw [if_neg hbad]
      apply ih
      rw [hsplit, hq]
      have hgood : c i = 0 ∨ c i = 1 := by omega
      exact (and_iff_left hgood).symm

def Agree (g : Sizes) (s : ℕ → UInt8) (c : Counters) (b : ℕ) : Prop :=
  if blockBit s g b then c b = 1 else c b = 0

theorem checkBlockFreemap_returns (L : Laid g) (hsize : 4096 * g.blockCount ≤ t.size) {P : Prop}
    (hq : t.Quiet ↔ P) : Returns (checkBlockFreemap g c) t fun _ t' ↦
      Kept t t' ∧ (t'.Quiet ↔ P ∧ ∀ b < g.blockCount, Agree g t.bytes c b) := by
  have hpos := L.positive
  have hmeta := L.metadata
  have hmap := L.mapped
  have hsmall := L.small
  let I : ℕ → ℕ → Unit → Tool → Prop :=
    fun j n _ t' ↦ t'.position = 4096 * (1 + g.freemapBlocksize + j) ∧
    Kept t t' ∧ (t'.Quiet ↔ P ∧ ∀ b < n, Agree g t.bytes c b)
  have hload : ∀ j a t', 0 ≤ j → j < 0 + g.freemapBlocksize → 8 * blockSize * j < g.blockCount →
      I j (8 * blockSize * j) a t' → Returns (Disktool.read (fun _ ↦ 0) blockSize) t' fun w t'' ↦
        (∀ k < 8 * blockSize, bit w k = blockBit t.bytes g (8 * blockSize * j + k)) ∧
          I (j + 1) (8 * blockSize * j) a t'' := by
    rintro j a t' _ hj hlt ⟨hat, hkept, hquiet⟩
    have hfit : t'.position + 4096 ≤ t'.size := by
      rw [hat, hkept.size]
      omega
    apply Returns.of_run (read_run hfit)
    refine ⟨fun k hk ↦ ?_, ?_, ⟨hkept.size, hkept.bytes⟩, hquiet⟩
    · simp only [blockSize] at hk ⊢
      rw [bit_read (by omega), hkept.bytes, hat, blockBit]
      congr 1
      omega
    · show t'.position + 4096 = _
      omega
  have hbody : ∀ j n a t', n < g.blockCount → I j n a t' → Returns (do
      if blockBit t.bytes g n then
        if c n ≠ 1 then print (.allocatedNotUsed n)
      else
        if c n ≠ 0 then print (.unallocatedInUse n)) t' (I j (n + 1)) := by
    rintro j n a t' hn ⟨hat, hkept, hquiet⟩
    have hsplit : (P ∧ ∀ b < n + 1, Agree g t.bytes c b) ↔
        (P ∧ ∀ b < n, Agree g t.bytes c b) ∧ Agree g t.bytes c n := by
      simp only [Nat.lt_succ_iff_lt_or_eq, or_imp, forall_and, forall_eq, and_assoc]
    have hsilent : Agree g t.bytes c n → Returns (pure () : Action Unit) t' (I j (n + 1)) := by
      intro h
      apply Returns.pure
      refine ⟨hat, hkept, ?_⟩
      rw [hsplit, hquiet]
      exact (and_iff_left h).symm
    have hprinted : ∀ m : Message, m.Inconsistent → ¬Agree g t.bytes c n →
        Returns (print m) t' (I j (n + 1)) := by
      intro m hm h
      refine ⟨(), _, rfl, hat, ⟨hkept.size, hkept.bytes⟩, ?_⟩
      rw [Tool.Quiet.print, hsplit]
      simp only [hm, h, not_true_eq_false, and_false]
    cases hbit : blockBit t.bytes g n with
    | true =>
      simp only [Agree, hbit, ↓reduceIte] at hsilent hprinted ⊢
      by_cases hone : c n = 1
      · simpa only [hone, ne_eq, not_true_eq_false, ↓reduceIte] using hsilent hone
      · simpa only [hone, ne_eq, not_false_eq_true, ↓reduceIte] using hprinted
          (.allocatedNotUsed n) trivial hone
    | false =>
      simp only [Agree, hbit, Bool.false_eq_true, ↓reduceIte] at hsilent hprinted ⊢
      by_cases hzero : c n = 0
      · simpa only [hzero, ne_eq, not_true_eq_false, ↓reduceIte] using hsilent hzero
      · simpa only [hzero, ne_eq, not_false_eq_true, ↓reduceIte] using hprinted
          (.unallocatedInUse n) trivial hzero
  apply Returns.bind (.of_run lseek_run (Q := fun _ t' ↦
    t' = { t with position := 4096 * (1 + g.freemapBlocksize) }) ?_)
  · rintro _ _ rfl
    have hI : I 0 (8 * blockSize * 0) () { t with position := 4096 * (1 + g.freemapBlocksize) } :=
      ⟨rfl, ⟨rfl, rfl⟩, hq.trans (and_iff_left fun b hb ↦ absurd hb (Nat.not_lt_zero b)).symm⟩
    apply (forBlocks_returns hload hbody hpos (by simp only [blockSize]; omega) hI).mono
    rintro _ t' ⟨_, h⟩
    exact h.2
  · rw [address_eq (by omega)]

theorem verifyFileSystem_returns (L : Laid g) (hsize : 4096 * g.blockCount ≤ t.size)
    (hmeets : ∀ a ∈ references t.bytes g g.blockCount, a < g.blockCount)
    (hrefs : ∀ b, refs t.bytes g b < 2 ^ 32) : Returns (verifyFileSystem g true) t fun _ t' ↦
      Kept t t' ∧ (t'.Quiet ↔ Accounted t.bytes g) := by
  have hmeta := L.metadata
  have hsmall := L.small
  let c₀ : Counters := fun k ↦
    if 0 ≤ k ∧ k < 0 + (1 + 2 * g.freemapBlocksize + g.inodetableBlocksize) then 1 else 0
  have hinit : (initializeCounters g).run { t with screen := [] } =
      .ok c₀ { t with screen := [] } := by
    have hword : (1 + 2 * g.freemapBlocksize + g.inodetableBlocksize) % 2 ^ 32 =
        1 + 2 * g.freemapBlocksize + g.inodetableBlocksize := by omega
    rw [initializeCounters, hword]
    exact preallocate_run (by omega)
  have hcount : ∀ b, countAll c₀ (references t.bytes g g.blockCount) b = refs t.bytes g b := by
    intro b
    have hlt : ∀ b, c₀ b < 2 ^ 32 := by
      intro b
      simp only [c₀]
      split_ifs <;> decide
    have hvalue :
        c₀ b = if b < 1 + 2 * g.freemapBlocksize + g.inodetableBlocksize then 1 else 0 := by
      simp only [c₀, Nat.zero_le, true_and, Nat.zero_add]
    rw [countAll_apply hlt, hvalue, ← refs, Nat.mod_eq_of_lt (hrefs b)]
  rw [verifyFileSystem]
  apply Returns.bind (.of_run rfl (Q := fun _ t' ↦ t' = { t with screen := [] }) rfl)
  rintro _ _ rfl
  simp only [↓reduceIte]
  apply Returns.bind
    (.of_run hinit (Q := fun c t' ↦ c = c₀ ∧ t' = { t with screen := [] }) ⟨rfl, rfl⟩)
  rintro _ _ ⟨rfl, rfl⟩
  apply (scanInodes_returns (t := { t with screen := [] }) L hsize hmeets).bind
  rintro c t₁ ⟨rfl, hkept₁, hscreen⟩
  have hquiet₁ : t₁.Quiet := by
    intro m hm
    rw [hscreen, List.nil_append] at hm
    exact not_inconsistent_of_mem hm
  have hnone : t₁.Quiet ↔ ∀ b < 0, countAll c₀ (references t.bytes g g.blockCount) b = 0 ∨
      countAll c₀ (references t.bytes g g.blockCount) b = 1 :=
    iff_of_true hquiet₁ fun b hb ↦ absurd hb (Nat.not_lt_zero b)
  apply (checkCounters_returns hnone).bind
  rintro _ t₂ ⟨hkept₂, hquiet₂⟩
  have hsize₂ : 4096 * g.blockCount ≤ t₂.size := by
    rw [hkept₂.size, hkept₁.size]
    exact hsize
  apply (checkBlockFreemap_returns L hsize₂ hquiet₂).mono
  rintro _ t₃ ⟨hkept₃, hquiet₃⟩
  refine ⟨⟨?_, ?_⟩, ?_⟩
  · rw [hkept₃.size, hkept₂.size, hkept₁.size]
  · rw [hkept₃.bytes, hkept₂.bytes, hkept₁.bytes]
  · rw [hquiet₃, hkept₂.bytes, hkept₁.bytes]
    simp only [Nat.zero_add, hcount, ← forall_and, Agree, Accounted]
    apply forall₂_congr
    intro b _
    cases blockBit t.bytes g b with
    | true =>
      simp only [↓reduceIte, true_iff, Bool.true_eq_false, false_iff]
      omega
    | false =>
      simp only [Bool.false_eq_true, ↓reduceIte, true_iff, false_iff]
      omega

end Checking

/-- The sizes as `main` finds them for a partition. -/
def Tool.sizes (t : Tool) : Sizes := computeSizes (t.size / blockSize % 2 ^ 32)

theorem computeSizes_laid (h : 4 ≤ n) (hn : n ≤ 2 ^ 20) : Laid (computeSizes n) := by
  have hword : n * 64 % 2 ^ 32 = n * 64 := by omega
  constructor
  · exact hn
  · show 0 < n
    omega
  · simp only [computeSizes, blockSize, hword]
    split_ifs <;> omega
  · simp only [computeSizes, blockSize]
    split_ifs <;> omega
  · simp only [computeSizes, blockSize, hword]
    split_ifs <;> omega

theorem Tool.laid (t : Tool) (h : 5 ≤ t.sizes.blockCount) (hcount : t.sizes.blockCount ≤ 2 ^ 20) :
    Laid t.sizes :=
  computeSizes_laid (by exact (by decide : 4 ≤ 5).trans h) hcount

theorem Tool.size_le : 4096 * t.sizes.blockCount ≤ t.size :=
  (Nat.mul_le_mul_left 4096 (Nat.mod_le _ _)).trans (Nat.mul_div_le t.size 4096)

theorem verifyFileSystem_fails (h : t.sizes.blockCount < 4) :
    ∃ t', (verifyFileSystem t.sizes true).run t = .error .undefined t' := by
  have hmeta : t.sizes.blockCount < 0 +
      (1 + 2 * t.sizes.freemapBlocksize + t.sizes.inodetableBlocksize) % 2 ^ 32 := by
    have hcount : t.sizes.blockCount = t.size / blockSize % 2 ^ 32 := rfl
    rw [hcount] at h ⊢
    simp only [Tool.sizes, computeSizes]
    generalize t.size / blockSize % 2 ^ 32 = n at h
    interval_cases n <;> decide
  have hinit : (initializeCounters t.sizes).run { t with screen := [] } =
      .error .undefined { t with screen := [] } := preallocate_fails hmeta (Nat.zero_le _)
  have hclear : clear.run t = .ok () { t with screen := [] } := rfl
  refine ⟨{ t with screen := [] }, ?_⟩
  simp only [verifyFileSystem, EStateM.run_bind, hclear, ↓reduceIte, hinit]

theorem Tool.verifyFileSystem_noMemory (t : Tool) (g : Sizes) :
    ∃ t', (verifyFileSystem g false).run t = .ok () t' ∧ t'.Quiet := by
  refine ⟨{ t with screen := [.noMemory] }, rfl, fun m hm ↦ ?_⟩
  rw [List.mem_singleton.mp hm]
  exact not_false

/-- The checker decides the accounting of the blocks on every partition that has room for the
metadata, and on no other. Without memory for its counters it reports nothing. -/
theorem verify_decides_iff (allocated : Bool) (hcount : t.sizes.blockCount ≤ 2 ^ 20)
    (hmeets : ∀ a ∈ references t.bytes t.sizes t.sizes.blockCount, a < t.sizes.blockCount)
    (hrefs : ∀ b, refs t.bytes t.sizes b < 2 ^ 32) :
    (∃ t', (verifyFileSystem t.sizes allocated).run t = .ok () t' ∧
      (t'.Quiet ↔ Accounted t.bytes t.sizes)) ↔
      if allocated then 4 ≤ t.sizes.blockCount else Accounted t.bytes t.sizes := by
  cases allocated with
  | true =>
    constructor
    · rintro ⟨t', hrun, -⟩
      by_contra hsmall
      obtain ⟨t'', hfails⟩ := verifyFileSystem_fails (not_le.mp hsmall)
      rw [hfails] at hrun
      contradiction
    · intro hlarge
      obtain ⟨_, t', hrun, -, hquiet⟩ := verifyFileSystem_returns
        (computeSizes_laid hlarge hcount) t.size_le hmeets hrefs
      exact ⟨t', hrun, hquiet⟩
  | false =>
    obtain ⟨t', hrun, hquiet⟩ := t.verifyFileSystem_noMemory t.sizes
    constructor
    · rintro ⟨t'', hrun', hiff⟩
      rw [hrun] at hrun'
      cases hrun'
      exact hiff.mp hquiet
    · exact fun h ↦ ⟨t', hrun, iff_of_true hquiet h⟩

def zeroBlocks (n : ℕ) : Tool where
  size := 4096 * n
  bytes _ := 0
  position := 0
  screen := []

theorem references_zeroBlocks {m : ℕ} : references (zeroBlocks n).bytes g m = [] := by
  have hnone : ∀ i ∈ List.range m, ¬inodeBit (zeroBlocks n).bytes i = true := by
    intro i _
    rw [inodeBit, bit_of_zero rfl]
    decide
  rw [references, List.filter_eq_nil_iff.mpr hnone]
  rfl

theorem refs_zeroBlocks_lt : refs (zeroBlocks n).bytes g b < 2 ^ 32 := by
  rw [refs, references_zeroBlocks, List.count_nil]
  split_ifs <;> decide

/-- Seven blocks with two inodes, which share block 4: one of them has it as its direct block, the
other one through the indirection block 5. -/
def sharedBlock : Tool where
  size := 4096 * 7
  bytes k :=
    if k = 4096 then 0x03 else if k = 8192 then 0x7F
    else if k = 12320 ∨ k = 20480 then 4 else if k = 12400 then 5 else if k = 20484 then 6 else 0
  position := 0
  screen := []

theorem references_sharedBlock :
    references sharedBlock.bytes sharedBlock.sizes 7 = [4, 5, 4, 6] := by
  decide

theorem verify_decides_sharedBlock :
    (∃ t', (verifyFileSystem sharedBlock.sizes true).run sharedBlock = .ok () t' ∧ ¬t'.Quiet) ∧
      ¬∃ t', (verifyFileSystem sharedBlock.sizes false).run sharedBlock = .ok () t' ∧
        (t'.Quiet ↔ Accounted sharedBlock.bytes sharedBlock.sizes) := by
  have hmeets : ∀ a ∈ references sharedBlock.bytes sharedBlock.sizes 7, a < 7 := by
    rw [references_sharedBlock]
    decide
  have hrefs : ∀ b, refs sharedBlock.bytes sharedBlock.sizes b < 2 ^ 32 := by
    intro b
    have hcount : [4, 5, 4, 6].count b ≤ 4 := List.count_le_length
    rw [refs, show sharedBlock.sizes.blockCount = 7 from rfl, references_sharedBlock]
    split_ifs <;> omega
  have hshared : ¬Accounted sharedBlock.bytes sharedBlock.sizes := by
    intro h
    have hone := (h 4 (by decide)).1.mp (by decide)
    rw [refs, show sharedBlock.sizes.blockCount = 7 from rfl, references_sharedBlock] at hone
    exact absurd hone (by decide)
  obtain ⟨t', hrun, hquiet⟩ :=
    (verify_decides_iff true (by decide) hmeets hrefs).mpr
      (by decide : 4 ≤ sharedBlock.sizes.blockCount)
  refine ⟨⟨t', hrun, hquiet.not.mpr hshared⟩, fun h ↦ hshared ?_⟩
  exact (verify_decides_iff false (by decide) hmeets hrefs).mp h

/-- On three blocks the checker writes behind the end of its counters. -/
theorem not_verify_decides_threeBlocks : (zeroBlocks 3).sizes.blockCount = 3 ∧
    (∀ a ∈ references (zeroBlocks 3).bytes (zeroBlocks 3).sizes 3, a < 3) ∧
    (∀ b, refs (zeroBlocks 3).bytes (zeroBlocks 3).sizes b < 2 ^ 32) ∧
    ¬∃ t', (verifyFileSystem (zeroBlocks 3).sizes true).run (zeroBlocks 3) = .ok () t' ∧
      (t'.Quiet ↔ Accounted (zeroBlocks 3).bytes (zeroBlocks 3).sizes) := by
  refine ⟨by decide, by simp [references_zeroBlocks], fun _ ↦ refs_zeroBlocks_lt, ?_⟩
  rintro ⟨t', hrun, -⟩
  obtain ⟨t'', hfails⟩ := verifyFileSystem_fails (t := zeroBlocks 3) (by decide)
  rw [hfails] at hrun
  contradiction

end GenericFs.Disktool
