import GenericFs.Disktool.Readback
import GenericFs.Disktool.Sizing

namespace GenericFs.Disktool

open Function GenericFs.Library Store Bitmap Machine

inductive FreeMap
  | inodes
  | blocks
  deriving DecidableEq

namespace FreeMap

def start (g : Sizes) : FreeMap → ℕ
  | .inodes => 1
  | .blocks => 1 + g.freemapBlocksize

def allocate (g : Sizes) : FreeMap → Action ℕ
  | .inodes => allocateInode g
  | .blocks => allocateBlock g

/-- The bit of the partition that stands for the number `k`: the bit `k % 8` of the byte
`k / 8` of the map. -/
def place (g : Sizes) (m : FreeMap) (k : ℕ) : ℕ := 32768 * m.start g + k

/-- The map has a bit for the number, and the bit is clear. -/
structure Clear (g : Sizes) (t : Tool) (m : FreeMap) (k : ℕ) : Prop where
  mapped : k < 32768 * g.freemapBlocksize
  inside : m.place g k < 32768 * g.blockCount
  clear : bit t.bytes (m.place g k) = false

/-- The number was clear, and its bit is all that changes in the partition. -/
structure Takes (g : Sizes) (m : FreeMap) (k : ℕ) (t t' : Tool) : Prop where
  clear : m.Clear g t k
  size : t'.size = t.size
  bits : ∀ j, bit t'.bytes j = (bit t.bytes j || decide (j = m.place g k))

end FreeMap

def outcome {α : Type} : EStateM.Result Fault Tool α → Except Fault α × Tool
  | .ok a t => (.ok a, t)
  | .error e t => (.error e, t)

structure Allocation where
  map : FreeMap
  result : Except Fault ℕ

structure AllocateStep (g : Sizes) (t : Tool) (l : Allocation) (t' : Tool) : Prop where
  clear : ∃ k, l.map.Clear g t k
  run : outcome ((l.map.allocate g).run t) = (l.result, t')

def TakesLeast (g : Sizes) (t : Tool) (l : Allocation) (t' : Tool) : Prop :=
  ∃ k, l.result = .ok k ∧ l.map.Takes g k t t' ∧ ∀ j < k, bit t.bytes (l.map.place g j) = true

def ReturnStep (g : Sizes) (t : Tool) (l : FreeMap × ℕ) (t' : Tool) : Prop :=
  (l.1.allocate g).run t = .ok l.2 t'

/-- The call takes a block or an inode of the partition, or it says that there is none and
leaves the partition as it was. -/
def Contained (g : Sizes) (t : Tool) (m : FreeMap) : Prop :=
  match (m.allocate g).run t with
  | .ok k t' => k < g.blockCount ∧ m.Takes g k t t' ∨ g.blockCount ≤ k ∧ t'.bytes = t.bytes
  | .error .exited t' => t'.bytes = t.bytes
  | .error _ _ => False

def numbers (m : FreeMap) (ls : List Allocation) : List ℕ :=
  ls.filterMap fun l ↦ if l.map = m then l.result.toOption else none

variable {g : Sizes} {t t' : Tool} {m : FreeMap} {l : Allocation} {ls : List Allocation} {n k : ℕ}

theorem FreeMap.allocate_eq :
    m.allocate g = Disktool.allocate (m.start g) (m.start g + g.freemapBlocksize) := by
  cases m with
  | inodes => rfl
  | blocks =>
    have hend : 1 + 2 * g.freemapBlocksize = 1 + g.freemapBlocksize + g.freemapBlocksize := by omega
    rw [FreeMap.allocate, allocateBlock, hend]
    rfl

/-- A map without a block has no bit that could be clear. -/
theorem FreeMap.allocate_ne_ok (h : g.freemapBlocksize = 0) : (m.allocate g).run t ≠ .ok k t' := by
  obtain ⟨t₁, hmark⟩ := @markFreemap_negative { t with position := address (m.start g) } blockSize 0
    (m.start g) (((0 : ℕ) : ℤ) - 1) (by decide)
  rw [FreeMap.allocate_eq, h, Nat.add_zero]
  simp only [Disktool.allocate, scanFreemap, EStateM.run_bind, lseek_run, Nat.sub_self, scanBlocks,
    EStateM.run_pure, hmark]
  intro hok
  cases hok

/-- The maps of the two kinds are as large as each other, and a map that begins in the
partition ends in it. -/
theorem FreeMap.start_add_le (hn : n ≤ 2 ^ 20) (h : m.start (computeSizes n) < n) :
    m.start (computeSizes n) + (computeSizes n).freemapBlocksize ≤ n := by
  cases m with
  | inodes =>
    simp only [FreeMap.start, computeSizes, blockSize] at h ⊢
    split_ifs <;> omega
  | blocks =>
    simp only [FreeMap.start, computeSizes, blockSize] at h ⊢
    split_ifs at h ⊢ <;> omega

theorem FreeMap.Clear.least (h : m.Clear g t k) :
    ∃ i ≤ k, m.Clear g t i ∧ ∀ j < i, bit t.bytes (m.place g j) = true := by
  have hex : ∃ i, bit t.bytes (m.place g i) = false := ⟨k, h.clear⟩
  have hle := Nat.find_min' hex h.clear
  have hinside := h.inside
  have hplace : m.place g (Nat.find hex) ≤ m.place g k := Nat.add_le_add_left hle _
  refine ⟨Nat.find hex, hle, ⟨hle.trans_lt h.mapped, by omega, Nat.find_spec hex⟩, fun j hj ↦ ?_⟩
  exact eq_true_of_ne_false (Nat.find_min hex hj)

theorem FreeMap.Clear.allocate (hn : n ≤ 2 ^ 20) (hsize : 4096 * n ≤ t.size)
    (h : m.Clear (computeSizes n) t k)
    (hall : ∀ j < k, bit t.bytes (m.place (computeSizes n) j) = true) :
    ∃ t', (m.allocate (computeSizes n)).run t = .ok k t' ∧ m.Takes (computeSizes n) k t t' := by
  have hmapped := h.mapped
  have hinside : m.place (computeSizes n) k < 32768 * n := h.inside
  rw [FreeMap.place] at hinside
  have hend := FreeMap.start_add_le (m := m) hn (by omega)
  have hbits := freemap_lt (n := n)
  obtain ⟨p, hrun⟩ := allocate_run (by omega) (by omega) h.clear hmapped hall (by omega)
  rw [← FreeMap.allocate_eq] at hrun
  exact ⟨_, hrun, h, rfl, fun j ↦ bit_setBit⟩

theorem AllocateStep.takesLeast (hn : n ≤ 2 ^ 20) (hsize : 4096 * n ≤ t.size)
    (h : AllocateStep (computeSizes n) t l t') : TakesLeast (computeSizes n) t l t' := by
  obtain ⟨⟨_, hclear⟩, hout⟩ := h
  obtain ⟨k, -, hk, hall⟩ := hclear.least
  obtain ⟨u, hrun, htakes⟩ := hk.allocate hn hsize hall
  obtain ⟨hresult, ht⟩ := Prod.mk.inj ((congrArg outcome hrun).symm.trans hout)
  exact ⟨k, hresult.symm, ht ▸ htakes, hall⟩

/-- The numbers that a run returns for one map grow, beginning at any number that has all
smaller ones taken. -/
theorem numbers_increasing (hr : Run (TakesLeast g) t ls t') {b : ℕ}
    (hb : ∀ j < b, bit t.bytes (m.place g j) = true) :
    (numbers m ls).Pairwise (· < ·) ∧ ∀ i ∈ numbers m ls, b ≤ i := by
  induction hr generalizing b with
  | nil => exact ⟨.nil, by simp [numbers]⟩
  | @cons s _ _ l ls hstep _ ih =>
    obtain ⟨k, hresult, htakes, hleast⟩ := hstep
    by_cases hmap : l.map = m
    · subst hmap
      have hcons : numbers l.map (l :: ls) = k :: numbers l.map ls := by
        simp [numbers, hresult, Except.toOption]
      have hbk : b ≤ k := by
        by_contra hlt
        have hset := hb k (by omega)
        rw [htakes.clear.clear] at hset
        contradiction
      obtain ⟨hrest, hmin⟩ := ih (b := k + 1) fun j hj ↦ by
        rw [htakes.bits]
        rcases Nat.lt_succ_iff_lt_or_eq.mp hj with hlt | rfl
        · rw [hleast j hlt, Bool.true_or]
        · rw [decide_eq_true rfl, Bool.or_true]
      rw [hcons, List.pairwise_cons, List.forall_mem_cons]
      exact ⟨⟨hmin, hrest⟩, hbk, fun i hi ↦ hbk.trans (Nat.le_of_succ_le (hmin i hi))⟩
    · have hskip : numbers m (l :: ls) = numbers m ls := by
        simp [numbers, hmap]
      rw [hskip]
      apply ih
      intro j hj
      rw [htakes.bits, hb j hj, Bool.true_or]

/-- Allocation takes the smallest number that its own map has left, and nothing else
changes; so no number comes twice, in whatever order the two maps are asked. -/
theorem takesLeast_of_run (hcount : t.sizes.blockCount ≤ 2 ^ 20)
    (hr : Run (AllocateStep t.sizes) t ls t') :
    Run (fun s l s' ↦ AllocateStep t.sizes s l s' ∧ TakesLeast t.sizes s l s') t ls t' ∧
      ∀ m, (numbers m ls).Pairwise (· < ·) := by
  have hall := hr.strengthen (P := fun s ↦ 4096 * t.sizes.blockCount ≤ s.size)
    (Q := TakesLeast t.sizes) (fun s l u hs h ↦ by
      obtain ⟨_, -, htakes, -⟩ := h.takesLeast hcount hs
      rwa [htakes.size]) (fun s l u hs h ↦ h.takesLeast hcount hs) t.size_le
  refine ⟨hall, fun m ↦ ?_⟩
  have hleast := hall.mono fun _ _ _ h ↦ h.2
  exact (numbers_increasing hleast (b := 0) fun j hj ↦ absurd hj (Nat.not_lt_zero j)).1

/-- Five blocks, with a hole in the inode map and four bits set in the block map. -/
def holes : Tool :=
  { zeroBlocks 5 with bytes := fun k ↦ if k = 4096 then 11 else if k = 8192 then 15 else 0 }

def FreeMap.after (m : FreeMap) (t : Tool) : Tool := (outcome ((m.allocate holes.sizes).run t)).2

theorem takesLeast_of_run_holes :
    Run (fun s l s' ↦ AllocateStep holes.sizes s l s' ∧ TakesLeast holes.sizes s l s') holes
      [⟨.inodes, .ok 2⟩, ⟨.blocks, .ok 4⟩, ⟨.inodes, .ok 4⟩]
      (FreeMap.inodes.after (FreeMap.blocks.after (FreeMap.inodes.after holes))) ∧
    [2, 4].Pairwise (· < ·) := by
  have hfirst : AllocateStep holes.sizes holes ⟨.inodes, .ok 2⟩ (FreeMap.inodes.after holes) :=
    ⟨⟨2, by decide, by decide, by decide +kernel⟩, rfl⟩
  have hsecond : AllocateStep holes.sizes (FreeMap.inodes.after holes) ⟨.blocks, .ok 4⟩
      (FreeMap.blocks.after (FreeMap.inodes.after holes)) :=
    ⟨⟨4, by decide, by decide, by decide +kernel⟩, rfl⟩
  have hthird : AllocateStep holes.sizes (FreeMap.blocks.after (FreeMap.inodes.after holes))
      ⟨.inodes, .ok 4⟩ (FreeMap.inodes.after (FreeMap.blocks.after (FreeMap.inodes.after holes))) :=
    ⟨⟨4, by decide, by decide, by decide +kernel⟩, rfl⟩
  obtain ⟨hall, hincreasing⟩ := takesLeast_of_run (t := holes) (by decide)
    (.cons hfirst (.cons hsecond (.cons hthird (.nil _))))
  exact ⟨hall, hincreasing .inodes⟩

section Full

/-- A map with a clear bit gives the first one; a full map leads to a shift by a negative
number. -/
theorem FreeMap.allocate_cases (h : 5 ≤ n) (hn : n ≤ 2 ^ 20) (hsize : 4096 * n ≤ t.size) :
    (∃ k t', (m.allocate (computeSizes n)).run t = .ok k t' ∧ m.Takes (computeSizes n) k t t' ∧
      ∀ j < k, bit t.bytes (m.place (computeSizes n) j) = true) ∨
    ((∀ j < 32768 * (computeSizes n).freemapBlocksize,
        bit t.bytes (m.place (computeSizes n) j) = true) ∧
      ∃ t', (m.allocate (computeSizes n)).run t = .error .undefined t') := by
  have hbits := freemap_le (n := n)
  have hstart : m.start (computeSizes n) < n := by
    cases m with
    | inodes => exact (by decide : 1 < 5).trans_le h
    | blocks =>
      simp only [FreeMap.start, computeSizes, blockSize]
      split_ifs <;> omega
  have hend := FreeMap.start_add_le hn hstart
  by_cases hall : ∀ j < 32768 * (computeSizes n).freemapBlocksize,
      bit t.bytes (m.place (computeSizes n) j) = true
  · right
    refine ⟨hall, ?_⟩
    rw [FreeMap.allocate_eq]
    exact allocate_full (by omega) (by omega) hall (by omega)
  · left
    push Not at hall
    obtain ⟨j, hj, hclear⟩ := hall
    have hinside : m.place (computeSizes n) j < 32768 * n := by
      rw [FreeMap.place]
      omega
    obtain ⟨k, -, hk, hleast⟩ :=
      FreeMap.Clear.least ⟨hj, hinside, Bool.eq_false_iff.mpr hclear⟩
    obtain ⟨t', hrun, htakes⟩ := hk.allocate hn hsize hleast
    exact ⟨k, t', hrun, htakes, hleast⟩

theorem FreeMap.contained_iff (h : 5 ≤ n) (hn : n ≤ 2 ^ 20) (hsize : 4096 * n ≤ t.size) :
    Contained (computeSizes n) t m ↔ ∃ k < n, bit t.bytes (m.place (computeSizes n) k) = false := by
  have hbits := freemap_le (n := n)
  rw [Contained]
  rcases FreeMap.allocate_cases (m := m) h hn hsize with ⟨k, t', hrun, htakes, hleast⟩
    | ⟨hall, t', hrun⟩
  · simp only [hrun]
    constructor
    · rintro (⟨hlt, -⟩ | ⟨-, hsame⟩)
      · exact ⟨k, hlt, htakes.clear.clear⟩
      · have hset := htakes.bits (m.place (computeSizes n) k)
        rw [hsame, htakes.clear.clear, decide_eq_true rfl] at hset
        contradiction
    · rintro ⟨j, hj, hclear⟩
      left
      refine ⟨?_, htakes⟩
      by_contra hge
      have hblocks : (computeSizes n).blockCount = n := rfl
      rw [hleast j (by omega)] at hclear
      contradiction
  · simp only [hrun, false_iff, not_exists, not_and, Bool.not_eq_false]
    intro k hk
    exact hall k (by omega)

/-- After `initialize`, however often the maps were asked, a call stays inside the partition
just when its map has a block or an inode of the partition left. -/
theorem contained_iff_of_run (h : 5 ≤ t.sizes.blockCount) (hcount : t.sizes.blockCount ≤ 2 ^ 20)
    (now : ℕ) :
    ∃ t₁, (initializePartition t.sizes now).run t = .ok () t₁ ∧
      ∀ ls t₂, Run (ReturnStep t.sizes) t₁ ls t₂ → ∀ m, Contained t.sizes t₂ m ↔
        ∃ k < t.sizes.blockCount, bit t₂.bytes (m.place t.sizes k) = false := by
  obtain ⟨t₁, hrun, I⟩ := initializePartition_run (t.sound h hcount) t.size_le now
  refine ⟨t₁, hrun, fun ls t₂ hr m ↦ FreeMap.contained_iff h hcount ?_⟩
  apply hr.invariant (P := fun s ↦ 4096 * t.sizes.blockCount ≤ s.size) _ I.size
  intro s l u hs hstep
  rw [ReturnStep] at hstep
  rcases FreeMap.allocate_cases (m := l.1) h hcount hs with ⟨_, _, hok, htakes, -⟩ | ⟨-, _, hfail⟩
  · cases hok.symm.trans hstep
    rwa [htakes.size]
  · cases hfail.symm.trans hstep

theorem contained_iff_of_run_fiveBlocks : ∃ t₁ t₂,
    (initializePartition (zeroBlocks 5).sizes 0).run (zeroBlocks 5) = .ok () t₁ ∧
      Run (ReturnStep (zeroBlocks 5).sizes) t₁ [(.inodes, 1)] t₂ ∧
      Contained (zeroBlocks 5).sizes t₂ .inodes ∧ ¬Contained (zeroBlocks 5).sizes t₂ .blocks := by
  obtain ⟨t₁, hrun, hall⟩ := contained_iff_of_run (t := zeroBlocks 5) (by decide) (by decide) 0
  have I := image_of_return ((zeroBlocks 5).sound (by decide) (by decide)) Tool.size_le hrun
  have hfree : bit t₁.bytes (FreeMap.inodes.place (computeSizes 5) 1) = false :=
    I.inodeMap 1 (by decide)
  have hfree' : bit t₁.bytes (FreeMap.inodes.place (zeroBlocks 5).sizes 2) = false :=
    I.inodeMap 2 (by decide)
  have hset : bit t₁.bytes (FreeMap.inodes.place (computeSizes 5) 0) = true :=
    I.inodeMap 0 (by decide)
  rcases FreeMap.allocate_cases (m := .inodes) (n := 5) le_rfl (by decide) I.size with
    ⟨k, t₂, hstep, htakes, hleast⟩ | ⟨hfull, -⟩
  · obtain rfl : k = 1 := by
      have hle : k ≤ 1 := by
        by_contra hlt
        rw [hleast 1 (by omega)] at hfree
        contradiction
      have hne : k ≠ 0 := by
        rintro rfl
        rw [htakes.clear.clear] at hset
        contradiction
      omega
    have hr : Run (ReturnStep (zeroBlocks 5).sizes) t₁ [(.inodes, 1)] t₂ := .cons hstep (.nil t₂)
    refine ⟨t₁, t₂, hrun, hr, (hall _ t₂ hr .inodes).mpr ⟨2, by decide, ?_⟩, fun hcontained ↦ ?_⟩
    · exact (htakes.bits _).trans (by rw [hfree']; decide)
    · obtain ⟨b, hb, hclear⟩ := (hall _ t₂ hr .blocks).mp hcontained
      have hused := I.blockMap b (lt_trans hb (by decide))
      rw [decide_eq_true (hb.trans_eq (by decide))] at hused
      have hkept := htakes.bits (FreeMap.blocks.place (computeSizes 5) b)
      rw [show bit t₁.bytes (FreeMap.blocks.place (computeSizes 5) b) = true from hused,
        Bool.true_or] at hkept
      exact absurd (hkept.symm.trans hclear) (by decide)
  · rw [hfull 1 (by decide)] at hfree
    contradiction

/-- The root directory takes the last of five blocks, and `allocate_block` gives a sixth. -/
theorem not_contained_of_run : ¬∀ t : Tool, 5 ≤ t.sizes.blockCount → t.sizes.blockCount ≤ 2 ^ 20 →
    ∀ now t₁, (initializePartition t.sizes now).run t = .ok () t₁ →
      ∀ ls t₂, Run (ReturnStep t.sizes) t₁ ls t₂ → ∀ m, Contained t.sizes t₂ m := by
  intro hclaim
  have S := (zeroBlocks 5).sound (by decide) (by decide)
  obtain ⟨t₁, hrun, I⟩ := initializePartition_run S Tool.size_le 0
  have hcontained := hclaim (zeroBlocks 5) (by decide) (by decide) 0 t₁ hrun [] t₁ (.nil t₁) .blocks
  obtain ⟨k, hk, hclear⟩ :=
    (FreeMap.contained_iff (n := 5) (by decide) (by decide) I.size).mp hcontained
  have hset := I.blockMap k (hk.trans (by decide))
  rw [decide_eq_true (hk.trans_eq (by decide))] at hset
  exact absurd (hset.symm.trans hclear) (by decide)

end Full

end GenericFs.Disktool
