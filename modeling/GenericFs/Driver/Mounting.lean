import GenericFs.Library.Returning
import GenericFs.Driver.Inode

namespace GenericFs.Driver

open GenericFs.Library Store Returning GenericFs.Disktool

def makeRoot (env : Environment) (rc : ℤ) : Method ℤ := do
  match env.dMakeRoot (← gfsIget env 0) with
  | .error e => throw e
  | .ok dentry =>
    modify fun k ↦ { k with sRoot := dentry }
    if dentry.isNone then
      modify fun k ↦ { k with sDev := 0 }
      printk "GenericFS: unable to read root inode.\n"
      release (.buffer 0)
      release .supplementary
      release .module
      return rc
    else return 0

def gfsFillSuper (env : Environment) : Method ℤ := do
  acquire .module
  let rc : ℤ := match env.setBlocksize with
    | none => 0
    | some e => -(e : ℤ)
  if rc < 0 then
    modify fun k ↦ { k with sDev := 0 }
    printk "GenericFS: Unable to set block size on device.\n"
    release .module
    return rc
  else if env.kmalloc = false then
    modify fun k ↦ { k with sDev := 0 }
    printk "GenericFS: Out of memory during mount operation.\n"
    release .module
    return rc
  else
    acquire .supplementary
    match ← sbBread env 0 with
    | none =>
      modify fun k ↦ { k with sDev := 0 }
      printk "GenericFS: unable to read superblock.\n"
      release .supplementary
      release .module
      return rc
    | some superBuffer =>
      let gsb := SuperBlock.decode superBuffer 0
      if le32ToCpu gsb.magicNumber ≠ 0xDEADBEEF then
        modify fun k ↦ { k with sDev := 0 }
        release (.buffer 0)
        release .supplementary
        release .module
        return rc
      else
        modify fun k ↦ { k with
          sOp := true
          sMagic := le32ToCpu gsb.magicNumber
          sBlocksize := le32ToCpu gsb.blockSize
          sBlocksizeBits := 12
          sFsInfo := some gsb }
        makeRoot env rc

/-- Everything that was acquired was released as often, and not before. -/
structure Settled (events : List Event) : Prop where
  balanced : ∀ r : Resource, events.count (.released r) = events.count (.acquired r)
  ordered : ∀ (r : Resource) (n : ℕ),
    (events.take n).count (.released r) ≤ (events.take n).count (.acquired r)

/-- A mount returns 0 with a root directory of a real file system, or it returns an error
number and has nothing left. -/
def MountsReal (env : Environment) (k : Kernel) : Prop :=
  ∃ rc k' events, (gfsFillSuper env).run k = .ok rc k' ∧ k'.events = k.events ++ events ∧
    (rc = 0 → (∃ superBuffer, env.sbBread 0 = some superBuffer ∧ .acquired (.buffer 0) ∈ events ∧
      (SuperBlock.decode superBuffer 0).magicNumber = 0xDEADBEEF) ∧ k'.sRoot.isSome) ∧
    (rc ≠ 0 → rc < 0 ∧ Settled events)

/-- The inode of the root directory is in memory, or it can be read. -/
inductive RootInode (env : Environment) (gsb : SuperBlock) : VfsInode → Prop
  | old {inode : VfsInode} : env.igetLocked 0 = .old inode → RootInode env gsb inode
  | read {bh : Buffer} : env.igetLocked 0 = .new → gsb.blockSize ≠ 0 →
      env.sbBread (inodeBlockNumber gsb 0) = some bh →
      RootInode env gsb (readInode 0 (Inode.decode bh 0))

/-- Nothing fails from the allocation on, and the magic number is right. -/
structure Environment.Serves (env : Environment) (superBuffer : Buffer) (root : Dentry) : Prop where
  kmalloc : env.kmalloc = true
  sbBread : env.sbBread 0 = some superBuffer
  magic : (SuperBlock.decode superBuffer 0).magicNumber = 0xDEADBEEF
  root : ∃ inode, RootInode env (SuperBlock.decode superBuffer 0) inode ∧
    env.dMakeRoot (.inode inode) = .ok (some root)

variable {env : Environment} {k k' : Kernel} {gsb : SuperBlock} {inode : VfsInode} {rc : ℤ}
  {superBuffer : Buffer} {root : Dentry}

theorem inodeBlockOffset_zero : inodeBlockOffset gsb 0 = 0 := by
  rw [inodeBlockOffset, Nat.mul_zero, Nat.zero_mod, Nat.zero_mod]

theorem gfsIget_root (hinfo : k.sFsInfo = some gsb) (h : RootInode env gsb inode) :
    ∃ events, (gfsIget env 0).run k =
      .ok (.inode inode) { k with events := k.events ++ events } := by
  cases h with
  | old hold =>
    refine ⟨[], ?_⟩
    simp only [gfsIget, hold, EStateM.run_pure, List.append_nil]
  | @read bh hnew hsize hbh =>
    refine ⟨[.acquired (.buffer (inodeBlockNumber gsb 0))], ?_⟩
    simp only [gfsIget, hnew, EStateM.run_bind, EStateM.run_get, hinfo, hsize, ↓reduceIte, sbBread,
      hbh, acquire, EStateM.run_modify, EStateM.run_pure, inodeBlockOffset_zero]
    rfl

theorem RootInode.of_gfsIget (hinfo : k.sFsInfo = some gsb)
    (h : (gfsIget env 0).run k = .ok (.inode inode) k') : RootInode env gsb inode := by
  rw [gfsIget] at h
  cases hlocked : env.igetLocked 0 with
  | null =>
    rw [hlocked] at h
    cases h
  | old i =>
    rw [hlocked] at h
    cases h
    exact .old hlocked
  | new =>
    simp only [hlocked, EStateM.run_bind, EStateM.run_get, hinfo] at h
    by_cases hsize : gsb.blockSize = 0
    · rw [if_pos hsize] at h
      cases h
    · rw [if_neg hsize] at h
      cases hbh : env.sbBread (inodeBlockNumber gsb 0) with
      | none =>
        simp only [sbBread, hbh] at h
        cases h
      | some bh =>
        simp only [sbBread, hbh, inodeBlockOffset_zero] at h
        cases h
        exact .read hlocked hsize hbh

theorem makeRoot_run (hinfo : k.sFsInfo = some gsb) (h : RootInode env gsb inode)
    (hroot : env.dMakeRoot (.inode inode) = .ok (some root)) : ∃ events, (makeRoot env rc).run k =
      .ok 0 { k with sRoot := some root, events := k.events ++ events } := by
  obtain ⟨events, hrun⟩ := gfsIget_root hinfo h
  refine ⟨events, ?_⟩
  rw [makeRoot, run_bind_ok hrun, hroot]
  rfl

/-- Without a root directory, what is returned is the result of `set_blocksize`. -/
theorem exists_of_makeRoot (hinfo : k.sFsInfo = some gsb)
    (hnone : ∀ e root, env.dMakeRoot (.err e) ≠ .ok (some root)) {out : ℤ}
    (h : (makeRoot env rc).run k = .ok out k') :
    out = rc ∧ k'.sRoot = none ∨ ∃ inode root, RootInode env gsb inode ∧
      env.dMakeRoot (.inode inode) = .ok (some root) := by
  rw [makeRoot] at h
  obtain ⟨pointer, k₁, higet, h⟩ := exists_of_run_bind h
  cases hmake : env.dMakeRoot pointer with
  | error e =>
    rw [hmake] at h
    cases h
  | ok dentry =>
    rw [hmake] at h
    cases dentry with
    | none =>
      cases h
      exact .inl ⟨rfl, rfl⟩
    | some root =>
      cases pointer with
      | err e => exact absurd hmake (hnone e root)
      | inode i => exact .inr ⟨i, root, .of_gfsIget hinfo higet, hmake⟩

theorem Settled.nil : Settled [] := by
  constructor
  · intro r
    rfl
  · intro r n
    rw [List.take_nil]
    exact le_rfl

/-- What is acquired before events that are settled can be released behind them. -/
theorem Settled.nest {r : Resource} {events : List Event} (h : Settled events) :
    Settled (.acquired r :: (events ++ [.released r])) := by
  have hreleased : ∀ (s : Resource) (l : List Event),
      (Event.acquired r :: l).count (.released s) = l.count (.released s) := by
    intro s l
    simp
  have hacquired : ∀ (s : Resource) (l : List Event),
      (Event.acquired r :: l).count (.acquired s) = l.count (.acquired s) +
        if r = s then 1 else 0 := by
    intro s l
    simp [List.count_cons]
  have hwhole : ∀ s : Resource, (events ++ [Event.released r]).count (.released s) =
      (events ++ [Event.released r]).count (.acquired s) + if r = s then 1 else 0 := by
    intro s
    simp [List.count_append, List.count_cons, h.balanced s]
  constructor
  · intro s
    rw [hreleased, hacquired]
    exact hwhole s
  · intro s n
    cases n with
    | zero => exact le_rfl
    | succ n =>
      rw [List.take_succ_cons, hreleased, hacquired]
      rcases le_or_gt n events.length with hle | hgt
      · rw [List.take_append_of_le_length hle]
        exact (h.ordered s n).trans (Nat.le_add_right _ _)
      · have hall : (events ++ [Event.released r]).take n = events ++ [.released r] := by
          apply List.take_of_length_le
          rw [List.length_append, List.length_singleton]
          exact hgt
        rw [hall]
        exact (hwhole s).le

/-- The mount gives up before the lookup of the root directory, and has nothing left. -/
def Abandons (env : Environment) (k : Kernel) (rc : ℤ) : Prop :=
  ∃ k' events, (gfsFillSuper env).run k = .ok rc k' ∧ k'.events = k.events ++ events ∧
    Settled events ∧ k'.sRoot = k.sRoot

def prepared (k : Kernel) (gsb : SuperBlock) : Kernel := { k with
  sOp := true
  sMagic := le32ToCpu gsb.magicNumber
  sBlocksize := le32ToCpu gsb.blockSize
  sBlocksizeBits := 12
  sFsInfo := some gsb
  events := k.events ++ [.acquired .module, .acquired .supplementary, .acquired (.buffer 0)] }

theorem errno_neg (e : ℕ+) : -((e : ℕ) : ℤ) < 0 := neg_lt_zero.mpr (by exact_mod_cast e.pos)

theorem abandons_setBlocksize {e : ℕ+} (h : env.setBlocksize = some e) :
    Abandons env k (-(e : ℤ)) := by
  have hneg := errno_neg e
  have hrun : (gfsFillSuper env).run k = .ok (-(e : ℤ)) { k with
      sDev := 0
      log := k.log ++ ["GenericFS: Unable to set block size on device.\n"]
      events := k.events ++ [.acquired .module, .released .module] } := by
    simp only [gfsFillSuper, EStateM.run_bind, acquire, EStateM.run_modify, h, hneg, ↓reduceIte,
      printk, release, EStateM.run_pure, List.append_assoc, List.cons_append, List.nil_append]
  exact ⟨_, _, hrun, rfl, .nest .nil, rfl⟩

section Sized

variable (hblocks : env.setBlocksize = none)

include hblocks

theorem abandons_kmalloc (hkmalloc : env.kmalloc = false) : Abandons env k 0 := by
  have hrun : (gfsFillSuper env).run k = .ok 0 { k with
      sDev := 0
      log := k.log ++ ["GenericFS: Out of memory during mount operation.\n"]
      events := k.events ++ [.acquired .module, .released .module] } := by
    simp only [gfsFillSuper, EStateM.run_bind, acquire, EStateM.run_modify, hblocks,
      lt_self_iff_false, hkmalloc, ↓reduceIte, printk, release, EStateM.run_pure, List.append_assoc,
      List.cons_append, List.nil_append]
  exact ⟨_, _, hrun, rfl, .nest .nil, rfl⟩

theorem abandons_sbBread (hkmalloc : env.kmalloc = true) (hbread : env.sbBread 0 = none) :
    Abandons env k 0 := by
  have hrun : (gfsFillSuper env).run k = .ok 0 { k with
      sDev := 0
      log := k.log ++ ["GenericFS: unable to read superblock.\n"]
      events := k.events ++ [.acquired .module, .acquired .supplementary, .released .supplementary,
        .released .module] } := by
    simp only [gfsFillSuper, EStateM.run_bind, acquire, EStateM.run_modify, hblocks,
      lt_self_iff_false, hkmalloc, Bool.true_eq_false, ↓reduceIte, sbBread, hbread,
      EStateM.run_pure, printk, release, List.append_assoc, List.cons_append, List.nil_append]
  exact ⟨_, _, hrun, rfl, .nest (.nest .nil), rfl⟩

theorem abandons_magicNumber (hkmalloc : env.kmalloc = true)
    (hbread : env.sbBread 0 = some superBuffer)
    (hmagic : (SuperBlock.decode superBuffer 0).magicNumber ≠ 0xDEADBEEF) : Abandons env k 0 := by
  have hrun : (gfsFillSuper env).run k = .ok 0 { k with
      sDev := 0
      events := k.events ++ [.acquired .module, .acquired .supplementary, .acquired (.buffer 0),
        .released (.buffer 0), .released .supplementary, .released .module] } := by
    simp only [gfsFillSuper, EStateM.run_bind, acquire, EStateM.run_modify, hblocks,
      lt_self_iff_false, hkmalloc, Bool.true_eq_false, ↓reduceIte, sbBread, hbread,
      EStateM.run_pure, le32ToCpu, ne_eq, hmagic, not_false_eq_true, release, List.append_assoc,
      List.cons_append, List.nil_append]
  exact ⟨_, _, hrun, rfl, .nest (.nest (.nest .nil)), rfl⟩

theorem gfsFillSuper_run_prepared (hkmalloc : env.kmalloc = true)
    (hbread : env.sbBread 0 = some superBuffer)
    (hmagic : (SuperBlock.decode superBuffer 0).magicNumber = 0xDEADBEEF) :
    (gfsFillSuper env).run k =
      (makeRoot env 0).run (prepared k (SuperBlock.decode superBuffer 0)) := by
  have hmagic' : ¬le32ToCpu (SuperBlock.decode superBuffer 0).magicNumber ≠ 0xDEADBEEF :=
    not_not.mpr hmagic
  simp only [gfsFillSuper, EStateM.run_bind, acquire, EStateM.run_modify, hblocks,
    lt_self_iff_false, hkmalloc, Bool.true_eq_false, sbBread, hbread, EStateM.run_pure, hmagic',
    ↓reduceIte, prepared, List.append_assoc, List.cons_append, List.nil_append]

/-- Where `set_blocksize` succeeds, its result 0 is all that is returned. -/
theorem exists_of_gfsFillSuper (hroot : k.sRoot = none)
    (hnone : ∀ e root, env.dMakeRoot (.err e) ≠ .ok (some root))
    (h : (gfsFillSuper env).run k = .ok rc k') :
    rc = 0 ∧ k'.sRoot = none ∨ ∃ superBuffer root, env.Serves superBuffer root := by
  have habandoned : Abandons env k 0 → rc = 0 ∧ k'.sRoot = none := by
    rintro ⟨_, _, hrun, -, -, hsame⟩
    cases hrun.symm.trans h
    exact ⟨rfl, hsame.trans hroot⟩
  cases hkmalloc : env.kmalloc with
  | false => exact .inl (habandoned (abandons_kmalloc hblocks hkmalloc))
  | true =>
    cases hbread : env.sbBread 0 with
    | none => exact .inl (habandoned (abandons_sbBread hblocks hkmalloc hbread))
    | some superBuffer =>
      by_cases hmagic : (SuperBlock.decode superBuffer 0).magicNumber = 0xDEADBEEF
      · rw [gfsFillSuper_run_prepared hblocks hkmalloc hbread hmagic] at h
        obtain ⟨hrc, hsRoot⟩ | ⟨inode, root, hinode, hmake⟩ := exists_of_makeRoot rfl hnone h
        · exact .inl ⟨hrc, hsRoot⟩
        · exact .inr ⟨superBuffer, root, hkmalloc, hbread, hmagic, inode, hinode, hmake⟩
      · exact .inl (habandoned (abandons_magicNumber hblocks hkmalloc hbread hmagic))

theorem mountsReal_of_serves (h : env.Serves superBuffer root) : MountsReal env k := by
  obtain ⟨inode, hinode, hmake⟩ := h.root
  obtain ⟨events, hrun⟩ := @makeRoot_run _ (prepared k (SuperBlock.decode superBuffer 0)) _ _ 0 _
    rfl hinode hmake
  rw [← gfsFillSuper_run_prepared hblocks h.kmalloc h.sbBread h.magic] at hrun
  refine ⟨0, _, _, hrun, List.append_assoc .., fun _ ↦ ⟨⟨superBuffer, h.sbBread, ?_, h.magic⟩, rfl⟩,
    fun hne ↦ absurd rfl hne⟩
  simp

theorem MountsReal.serves (hroot : k.sRoot = none)
    (hnone : ∀ e root, env.dMakeRoot (.err e) ≠ .ok (some root)) (h : MountsReal env k) :
    ∃ superBuffer root, env.Serves superBuffer root := by
  obtain ⟨rc, k', events, hrun, -, hzero, -⟩ := h
  obtain ⟨hrc, hsRoot⟩ | hserves := exists_of_gfsFillSuper hblocks hroot hnone hrun
  · have hsome := (hzero hrc).2
    rw [hsRoot] at hsome
    cases hsome
  · exact hserves

end Sized

/-- A mount ends well just when nothing fails, or the first call already does. -/
theorem mountsReal_iff (hroot : k.sRoot = none)
    (hnone : ∀ e root, env.dMakeRoot (.err e) ≠ .ok (some root)) : MountsReal env k ↔
      env.setBlocksize ≠ none ∨ ∃ superBuffer root, env.Serves superBuffer root := by
  cases hblocks : env.setBlocksize with
  | none =>
    simp only [ne_eq, not_true_eq_false, false_or]
    constructor
    · exact MountsReal.serves hblocks hroot hnone
    · rintro ⟨superBuffer, root, h⟩
      exact mountsReal_of_serves hblocks h
  | some e =>
    have hneg := errno_neg e
    obtain ⟨k', events, hrun, hevents, hsettled, -⟩ := abandons_setBlocksize (k := k) hblocks
    simp only [ne_eq, reduceCtorEq, not_false_eq_true, true_or, iff_true]
    exact ⟨_, k', events, hrun, hevents, fun hzero ↦ absurd hzero hneg.ne, fun _ ↦ ⟨hneg, hsettled⟩⟩

theorem makeDentry_err (e : ℕ) (root : Dentry) : makeDentry (.err e) ≠ .ok (some root) := nofun

theorem mountsReal_iff_oneInode :
    MountsReal (onlyImage (oneInode 0)).1 (onlyImage (oneInode 0)).2 :=
  (mountsReal_iff rfl makeDentry_err).mpr
    (.inr ⟨_, _, rfl, rfl, by decide, _, .read rfl (by decide) rfl, rfl⟩)

/-- Without memory for the supplementary structure the result is 0. -/
theorem not_mountsReal : ¬∀ (env : Environment) (k : Kernel), k.sRoot = none →
    (∀ e root, env.dMakeRoot (.err e) ≠ .ok (some root)) → MountsReal env k := by
  intro hclaim
  let env : Environment := { (onlyImage (oneInode 0)).1 with kmalloc := false }
  have hmounts := hclaim env (onlyImage (oneInode 0)).2 rfl makeDentry_err
  obtain ⟨_, _, hserves⟩ := hmounts.serves rfl rfl makeDentry_err
  cases hserves.kmalloc

end GenericFs.Driver
