import GenericFs.Fat.Operations
import GenericFs.Library.Chain

namespace GenericFs.Fat

open GenericFs.Library Chain Function

namespace FileSystem

def checkSizeLoop (fat : FatTable) : ℕ → ℕ → ℤ → Except Fault ℤ
  | 0, _, _ => .error .endless
  | fuel + 1, currentBlock, blockCount =>
    match fat.entry currentBlock with
    | none => .error .undefined
    | some next =>
      if next = eofFatEntry then .ok blockCount
      else if next = freeFatEntry then
        .error (.thrown "file_system::check() -- Unreserved FAT block in a file's chain")
      else checkSizeLoop fat fuel next (blockCount + 1)

def checkSizes (fat : FatTable) (d : Directory) (fuel : ℕ) : List (Fin dirSize) → Except Fault Unit
  | [] => .ok ()
  | i :: is =>
    if (d i).inUse = 1 then
      match checkSizeLoop fat fuel (d i).startingBlock 0 with
      | .error e => .error e
      | .ok blockCount =>
        if (d i).size.tdiv blockSize ≠ blockCount then
          .error (.thrown "file_system::check() -- A file has an invalid size")
        else checkSizes fat d fuel is
    else checkSizes fat d fuel is

def checkOffLoop (fat : FatTable) : ℕ → ℕ → (ℕ → Bool) → Except Fault (ℕ → Bool)
  | 0, _, _ => .error .endless
  | fuel + 1, currentBlock, checkOff =>
    match fat.entry currentBlock with
    | none => .error .undefined
    | some next =>
      if next ≠ eofFatEntry then
        if checkOff currentBlock then
          .error (.thrown "file_system::check() -- Cross linked files detected")
        else checkOffLoop fat fuel next (update checkOff currentBlock true)
      else if checkOff currentBlock then
        .error (.thrown "file_system::check() -- Cross linked files detected on a file EOF")
      else .ok (update checkOff currentBlock true)

def checkOffFiles (fat : FatTable) (d : Directory) (fuel : ℕ) :
    List (Fin dirSize) → (ℕ → Bool) → Except Fault (ℕ → Bool)
  | [], checkOff => .ok checkOff
  | i :: is, checkOff =>
    if (d i).inUse = 1 then
      match checkOffLoop fat fuel (d i).startingBlock checkOff with
      | .error e => .error e
      | .ok checkOff => checkOffFiles fat d fuel is checkOff
    else checkOffFiles fat d fuel is checkOff

def checkedOff (fat : FatTable) : ℕ → Bool := fun b ↦
  fat.entry b = some reservedFatEntry ∨ fat.entry b = some freeFatEntry

/-- `check` with `fuel` turns for each of its loops along a chain. -/
def checkWith (fuel : ℕ) (fs : FileSystem) : Except Fault Unit :=
  if fs.formattedFlag = false then
    .error (.thrown "file_system::check() -- Unformatted file system")
  else if ∃ h, (fs.handleTable h).inUse = true ∧ (fs.handleTable h).mode = .WRITE then
    .error (.thrown "file_system::check() -- Files open for writing")
  else do
    checkSizes fs.fat fs.rootDirectory fuel (List.finRange dirSize)
    let checkOff ←
      checkOffFiles fs.fat fs.rootDirectory fuel (List.finRange dirSize) (checkedOff fs.fat)
    if ∃ b : Fin fatSize, checkOff b = false then
      .error (.thrown "file_system::check() -- Lost chain detected")
    else .ok ()

def check : Member Unit := do
  match checkWith loopBound (← get) with
  | .ok _ => pure ()
  | .error e => throw e

end FileSystem

/-- The chain of a directory entry, as the FAT gives it. -/
abbrev FatTable.Chain (fat : FatTable) (b : ℕ) (l : List ℕ) : Prop :=
  Links fat.entry eofFatEntry b l

/-- What `check` is about: the files with `in_use = 1` own chains of the right
length, nothing is shared, free or reserved on them, and no block is lost. -/
structure Accounted (fat : FatTable) (d : Directory) (chain : Fin dirSize → List ℕ) : Prop where
  links : ∀ i, (d i).inUse = 1 → fat.Chain (d i).startingBlock (chain i)
  length : ∀ i, (d i).inUse = 1 → ((chain i).length : ℤ) = (d i).size.tdiv 1024 + 1
  nodup : ∀ i, (d i).inUse = 1 → (chain i).Nodup
  disjoint : ∀ i j, (d i).inUse = 1 → (d j).inUse = 1 → i ≠ j → (chain i).Disjoint (chain j)
  busy : ∀ i, (d i).inUse = 1 → ∀ b ∈ chain i, fat.entry b ≠ some 0 ∧ fat.entry b ≠ some 1
  covered : ∀ b v, fat.entry b = some v → v ≠ 0 → v ≠ 1 → ∃ i, (d i).inUse = 1 ∧ b ∈ chain i

theorem FatTable.entry_lt {fat : FatTable} {b v : ℕ} (h : fat.entry b = some v) : b < 512 := by
  by_contra hb
  simp [FatTable.entry, fatSize, hb] at h

theorem FatTable.Chain.lt {fat : FatTable} {b : ℕ} {l : List ℕ} (h : fat.Chain b l) :
    ∀ c ∈ l, c < 512 := fun c hc ↦ by
  rcases h.entry_eq hc with he | ⟨_, _, _, he⟩ <;> exact FatTable.entry_lt he

theorem length_le_of_lt {l : List ℕ} {n : ℕ} (h : l.Nodup) (hlt : ∀ b ∈ l, b < n) :
    l.length ≤ n := by
  have hsub : l.toFinset ⊆ Finset.range n := fun b hb ↦
    Finset.mem_range.mpr (hlt b (List.mem_toFinset.mp hb))
  have hcard := Finset.card_le_card hsub
  rwa [List.toFinset_card_of_nodup h, Finset.card_range] at hcard

theorem FatTable.Chain.length_le {fat : FatTable} {b : ℕ} {l : List ℕ} (h : fat.Chain b l) :
    l.length ≤ 512 := length_le_of_lt h.nodup h.lt

namespace FileSystem

variable {fat : FatTable} {d : Directory} {fuel b : ℕ} {l : List ℕ}

theorem checkSizeLoop_sound {n m : ℤ} (h : checkSizeLoop fat fuel b n = .ok m) :
    ∃ l, fat.Chain b l ∧ m + 1 = n + l.length ∧ l.length ≤ fuel := by
  induction fuel generalizing b n with
  | zero => simp [checkSizeLoop] at h
  | succ fuel ih =>
    simp only [checkSizeLoop] at h
    cases he : fat.entry b with
    | none => simp [he] at h
    | some next =>
      simp only [he] at h
      split_ifs at h with heof hfree
      · exact ⟨[b], .last (by rw [he, heof]), by simpa using (Except.ok.inj h).symm, by simp⟩
      · obtain ⟨l, hl, hm, hlen⟩ := ih h
        exact ⟨b :: l, .cons he heof hl, by rw [List.length_cons]; push_cast; omega, by simpa⟩

theorem checkSizeLoop_complete {n : ℤ} (h : fat.Chain b l) (hfuel : l.length ≤ fuel)
    (hfree : ∀ c ∈ l, fat.entry c ≠ some 0) :
    checkSizeLoop fat fuel b n = .ok (n + l.length - 1) := by
  induction h generalizing fuel n with
  | @last a ha =>
    obtain ⟨fuel, rfl⟩ : ∃ m, fuel = m + 1 := ⟨fuel - 1, by simp at hfuel; omega⟩
    simp [checkSizeLoop, ha]
  | @cons a c l hc hne ht ih =>
    obtain ⟨fuel, rfl⟩ : ∃ m, fuel = m + 1 := ⟨fuel - 1, by simp at hfuel; omega⟩
    have hc0 : c ≠ 0 := fun h0 ↦ hfree a (by simp) (by rw [hc, h0])
    have ht := ih (n := n + 1) (by simpa using hfuel) fun x hx ↦ hfree x (List.mem_cons_of_mem _ hx)
    simp only [checkSizeLoop, hc, hne, hc0, freeFatEntry, ↓reduceIte, ht, List.length_cons]
    push_cast
    congr 1
    ring

theorem checkSizes_eq_ok {is : List (Fin dirSize)} :
    checkSizes fat d fuel is = .ok () ↔ ∀ i ∈ is, (d i).inUse = 1 →
      checkSizeLoop fat fuel (d i).startingBlock 0 = .ok ((d i).size.tdiv 1024) := by
  induction is with
  | nil => simp [checkSizes]
  | cons i is ih =>
    by_cases hu : (d i).inUse = 1
    · cases hl : checkSizeLoop fat fuel (d i).startingBlock 0 with
      | error e => simp [checkSizes, hu, hl]
      | ok m =>
        by_cases hm : (d i).size.tdiv 1024 = m
        · simp [checkSizes, hu, hl, ih, hm]
        · simp [checkSizes, hu, hl, hm, Ne.symm hm]
    · simp [checkSizes, hu, ih]

/-- One file's turn of the second pass: it succeeds exactly when no block of
the chain was checked off before, and then checks off these blocks. -/
theorem checkOffLoop_eq_ok (h : fat.Chain b l) (hfuel : l.length ≤ fuel) (off off' : ℕ → Bool) :
    checkOffLoop fat fuel b off = .ok off' ↔
      (∀ c ∈ l, off c = false) ∧ off' = fun c ↦ off c || decide (c ∈ l) := by
  induction h generalizing fuel off with
  | @last a ha =>
    obtain ⟨fuel, rfl⟩ : ∃ m, fuel = m + 1 := ⟨fuel - 1, by simp at hfuel; omega⟩
    have he : update off a true = fun c ↦ off c || decide (c ∈ [a]) := by
      funext c
      by_cases hc : c = a <;> simp [hc]
    cases ho : off a with
    | true => simp [checkOffLoop, ha, ho]
    | false =>
      simp only [checkOffLoop, ha, ne_eq, not_true_eq_false, ↓reduceIte, ho, Bool.false_eq_true, he,
        Except.ok.injEq, List.mem_singleton, forall_eq, true_and]
      exact eq_comm
  | @cons a c l hc hne ht ih =>
    obtain ⟨fuel, rfl⟩ : ∃ m, fuel = m + 1 := ⟨fuel - 1, by simp at hfuel; omega⟩
    have ha : a ∉ l := (List.nodup_cons.mp (Links.cons hc hne ht).nodup).1
    cases ho : off a with
    | true => simp [checkOffLoop, hc, hne, ho]
    | false =>
      have hl : (∀ x ∈ l, update off a true x = false) ↔ ∀ x ∈ l, off x = false :=
        forall₂_congr fun x hx ↦ by rw [update_of_ne (fun h : x = a ↦ ha (h ▸ hx))]
      have he : (fun x ↦ update off a true x || decide (x ∈ l)) =
          fun x ↦ off x || decide (x ∈ a :: l) := by
        funext x
        by_cases hx : x = a <;> simp [hx]
      simp [checkOffLoop, hc, hne, ho, ih (by simpa using hfuel), hl, he]

theorem checkOffFiles_eq_ok (chain : Fin dirSize → List ℕ) {is : List (Fin dirSize)}
    {off off' : ℕ → Bool}
    (hchain : ∀ i ∈ is, (d i).inUse = 1 →
      fat.Chain (d i).startingBlock (chain i) ∧ (chain i).length ≤ fuel) :
    checkOffFiles fat d fuel is off = .ok off' ↔
      (∀ i ∈ is, (d i).inUse = 1 → ∀ b ∈ chain i, off b = false) ∧
      is.Pairwise (fun i j ↦ (d i).inUse = 1 → (d j).inUse = 1 → (chain i).Disjoint (chain j)) ∧
      off' = fun b ↦ off b || decide (∃ i ∈ is, (d i).inUse = 1 ∧ b ∈ chain i) := by
  induction is generalizing off with
  | nil =>
    simp only [checkOffFiles, Except.ok.injEq, List.not_mem_nil, false_and, exists_false,
      decide_false, Bool.or_false, IsEmpty.forall_iff, implies_true, List.Pairwise.nil, true_and]
    exact eq_comm
  | cons i is ih =>
    have ih := fun off ↦ @ih off fun j hj ↦ hchain j (List.mem_cons_of_mem _ hj)
    by_cases hu : (d i).inUse = 1
    · obtain ⟨hl, hlen⟩ := hchain i (by simp) hu
      have hloop := fun off₁ ↦ checkOffLoop_eq_ok hl hlen off off₁
      cases hr : checkOffLoop fat fuel (d i).startingBlock off with
      | error e =>
        have hno : ¬ ∀ c ∈ chain i, off c = false := fun hall ↦ by
          have := (hloop _).mpr ⟨hall, rfl⟩
          simp [hr] at this
        simp only [checkOffFiles, hu, ↓reduceIte, hr, reduceCtorEq, List.mem_cons, forall_eq_or_imp,
          forall_const, false_iff]
        exact fun h ↦ hno h.1.1
      | ok off₁ =>
        obtain ⟨hall, rfl⟩ := (hloop off₁).mp hr
        simp only [checkOffFiles, hu, ↓reduceIte, hr, ih, List.mem_cons, forall_eq_or_imp,
          forall_const, List.pairwise_cons, Bool.or_eq_false_iff, decide_eq_false_iff_not,
          exists_eq_or_imp, true_and]
        have hoff : (fun b ↦ off b || decide (b ∈ chain i) ||
              decide (∃ j ∈ is, (d j).inUse = 1 ∧ b ∈ chain j)) =
            fun b ↦ off b || decide (b ∈ chain i ∨ ∃ j ∈ is, (d j).inUse = 1 ∧ b ∈ chain j) := by
          funext b
          by_cases h₁ : b ∈ chain i <;> simp [h₁]
        rw [hoff]
        constructor
        · rintro ⟨h₁, h₂, h₃⟩
          exact ⟨⟨hall, fun j hj hju b hb ↦ (h₁ j hj hju b hb).1⟩,
            ⟨fun j hj hju b hbi hbj ↦ (h₁ j hj hju b hbj).2 hbi, h₂⟩, h₃⟩
        · rintro ⟨⟨_, h₁⟩, ⟨h₂, h₃⟩, h₄⟩
          exact ⟨fun j hj hju b hb ↦ ⟨h₁ j hj hju b hb, fun hbi ↦ h₂ j hj hju hbi hb⟩, h₃, h₄⟩
    · simp [checkOffFiles, hu, ih]

variable {fs : FileSystem}

theorem checkedOff_eq_false : checkedOff fat b = false ↔
    fat.entry b ≠ some reservedFatEntry ∧ fat.entry b ≠ some freeFatEntry := by
  simp [checkedOff]

theorem checkWith_eq_ok : checkWith fuel fs = .ok () ↔ fs.formattedFlag = true ∧
    (∀ h, (fs.handleTable h).inUse = true → (fs.handleTable h).mode ≠ .WRITE) ∧
    checkSizes fs.fat fs.rootDirectory fuel (List.finRange dirSize) = .ok () ∧
    ∃ off, checkOffFiles fs.fat fs.rootDirectory fuel (List.finRange dirSize)
      (checkedOff fs.fat) = .ok off ∧ ∀ b < 512, off b = true := by
  unfold checkWith
  by_cases hf : fs.formattedFlag = false
  · simp [hf]
  by_cases hw : ∃ h, (fs.handleTable h).inUse = true ∧ (fs.handleTable h).mode = .WRITE
  · obtain ⟨h, hu, hm⟩ := hw
    rw [if_neg hf, if_pos ⟨h, hu, hm⟩]
    simp only [reduceCtorEq, false_iff, not_and]
    exact fun _ hno ↦ absurd hm (hno h hu)
  rw [if_neg hf, if_neg hw]
  push Not at hw
  have hf' : fs.formattedFlag = true := by simpa using hf
  cases hs : checkSizes fs.fat fs.rootDirectory fuel (List.finRange dirSize) with
  | error e => simp [bind, Except.bind]
  | ok u =>
    cases hc : checkOffFiles fs.fat fs.rootDirectory fuel (List.finRange dirSize)
        (checkedOff fs.fat) with
    | error e => simp [bind, Except.bind]
    | ok off =>
      by_cases hl : ∃ b : Fin fatSize, off b = false
      · obtain ⟨b, hb⟩ := hl
        simp only [bind, Except.bind, Except.ok.injEq, exists_eq_left']
        rw [if_pos ⟨b, hb⟩]
        simp only [reduceCtorEq, false_iff]
        exact fun h ↦ by simp [h.2.2.2 b b.isLt] at hb
      · simp only [bind, Except.bind, Except.ok.injEq, exists_eq_left', if_neg hl, true_iff]
        push Not at hl
        exact ⟨hf', hw, trivial, fun b hb ↦ by simpa using hl ⟨b, hb⟩⟩

/-- The first pass finds the chains; the second one, run along them, leaves
every block checked off only when nothing is shared and nothing lost. -/
theorem accounted_of_checkWith (h : checkWith fuel fs = .ok ()) :
    ∃ chain, Accounted fs.fat fs.rootDirectory chain := by
  obtain ⟨-, -, hs, off, hc, hall⟩ := checkWith_eq_ok.mp h
  have hsize := checkSizes_eq_ok.mp hs
  have hex : ∀ i, ∃ l, (fs.rootDirectory i).inUse = 1 →
      fs.fat.Chain (fs.rootDirectory i).startingBlock l ∧
        (l.length : ℤ) = (fs.rootDirectory i).size.tdiv 1024 + 1 ∧ l.length ≤ fuel := by
    intro i
    by_cases hu : (fs.rootDirectory i).inUse = 1
    · obtain ⟨l, hl, hm, hlen⟩ := checkSizeLoop_sound (hsize i (List.mem_finRange i) hu)
      exact ⟨l, fun _ ↦ ⟨hl, by omega, hlen⟩⟩
    · exact ⟨[], fun hu' ↦ absurd hu' hu⟩
  choose chain hchain using hex
  obtain ⟨hoff, hpair, rfl⟩ := (checkOffFiles_eq_ok chain fun i _ hu ↦
    ⟨(hchain i hu).1, (hchain i hu).2.2⟩).mp hc
  refine ⟨chain, fun i hu ↦ (hchain i hu).1, fun i hu ↦ (hchain i hu).2.1,
    fun i hu ↦ (hchain i hu).1.nodup, fun i j hui huj hij ↦ ?_, fun i hu b hb ↦
    ?_, fun b v hv h0 h1 ↦ ?_⟩
  · have : Std.Symm fun i j ↦ (fs.rootDirectory i).inUse = 1 → (fs.rootDirectory j).inUse = 1 →
        (chain i).Disjoint (chain j) := ⟨fun i j h hj hi ↦ (h hi hj).symm⟩
    exact hpair.forall (List.mem_finRange i) (List.mem_finRange j) hij hui huj
  · have h := checkedOff_eq_false.mp (hoff i (List.mem_finRange i) hu b hb)
    exact ⟨h.2, h.1⟩
  · have h := hall b (FatTable.entry_lt hv)
    simp only [Bool.or_eq_true, decide_eq_true_eq, List.mem_finRange, true_and] at h
    refine h.resolve_left fun hm ↦ ?_
    simp only [checkedOff, hv, Option.some.injEq, decide_eq_true_eq] at hm
    exact hm.elim h1 h0

theorem checkWith_of_accounted {chain : Fin dirSize → List ℕ}
    (hf : fs.formattedFlag = true)
    (hw : ∀ h, (fs.handleTable h).inUse = true → (fs.handleTable h).mode ≠ .WRITE)
    (A : Accounted fs.fat fs.rootDirectory chain) (hfuel : 512 ≤ fuel) :
    checkWith fuel fs = .ok () := by
  refine checkWith_eq_ok.mpr ⟨hf, hw, checkSizes_eq_ok.mpr fun i _ hu ↦ ?_, _,
    (checkOffFiles_eq_ok chain fun i _ hu ↦
      ⟨A.links i hu, (A.links i hu).length_le.trans hfuel⟩).mpr ⟨?_, ?_, rfl⟩, fun b hb ↦ ?_⟩
  · rw [checkSizeLoop_complete (A.links i hu) ((A.links i hu).length_le.trans hfuel)
      fun c hc ↦ (A.busy i hu c hc).1, A.length i hu]
    congr 1
    omega
  · exact fun i _ hu b hb ↦ checkedOff_eq_false.mpr (A.busy i hu b hb).symm
  · exact (List.nodup_finRange _).pairwise_of_forall_ne fun i _ j _ hij hui huj ↦
      A.disjoint i j hui huj hij
  · simp only [Bool.or_eq_true, decide_eq_true_eq, List.mem_finRange, true_and, checkedOff]
    have hv : fs.fat.entry b = some (fs.fat ⟨b, hb⟩) := by simp [FatTable.entry, fatSize, hb]
    by_contra hno
    push Not at hno
    obtain ⟨i, hu, hi⟩ := A.covered b _ hv (fun h ↦ hno.1.2 (by rw [hv, h])) fun h ↦
      hno.1.1 (by rw [hv, h])
    exact hno.2 i hu hi

theorem check_run_eq_ok : check.run fs = .ok () fs ↔ checkWith loopBound fs = .ok () := by
  unfold check
  simp only [EStateM.run_bind, EStateM.run_get]
  cases checkWith loopBound fs <;> simp

/-- On a formatted file system without open writers `check` decides whether the
blocks are accounted for, and no more turns of its loops would change that. -/
theorem check_iff_accounted (hf : fs.formattedFlag = true)
    (hw : ∀ h, (fs.handleTable h).inUse = true → (fs.handleTable h).mode ≠ .WRITE) :
    (check.run fs = .ok () fs ↔ ∃ chain, Accounted fs.fat fs.rootDirectory chain) ∧
      ((∃ fuel, checkWith fuel fs = .ok ()) ↔
      ∃ chain, Accounted fs.fat fs.rootDirectory chain) := by
  have hok : ∀ {chain}, Accounted fs.fat fs.rootDirectory chain → checkWith loopBound fs = .ok () :=
    fun A ↦ checkWith_of_accounted hf hw A (by decide)
  rw [check_run_eq_ok]
  exact ⟨⟨accounted_of_checkWith, fun ⟨_, A⟩ ↦ hok A⟩,
    ⟨fun ⟨_, h⟩ ↦ accounted_of_checkWith h, fun ⟨_, A⟩ ↦ ⟨_, hok A⟩⟩⟩

def blankDisk : BlockDevice blockSize where
  blockCount := 512
  block _ _ := 0
  written := []

def blankObject : FileSystem where
  theDisk := blankDisk
  formattedFlag := false
  fat _ := 0
  rootDirectory := emptyDirectory
  handleTable _ :=
    { offset := 0, directoryIndex := 0, currentBlock := 0, inUse := false, mode := .READ }
  scanIndex := 0

def fileEntry (letter : UInt8) (size : ℤ) (startingBlock : ℕ) : DirectoryEntry where
  name k := if k.val = 0 then letter else 0
  size := size
  startingBlock := startingBlock
  inUse := 1
  pad := 0

/-- A disk with the file `a` of 2047 bytes in the blocks 3 and 4, and the file `b` of 5 bytes in
the block 5. -/
def twoFiles : FileSystem where
  theDisk := { blankDisk with block := update (fun b _ ↦ UInt8.ofNat b) bootBlock bootImage }
  formattedFlag := true
  fat := update (update (update emptyFat 3 4) 4 eofFatEntry) 5 eofFatEntry
  rootDirectory := update (update emptyDirectory 0 (fileEntry 97 2047 3)) 1 (fileEntry 98 5 5)
  handleTable := blankObject.handleTable
  scanIndex := 0

def twoFilesChain : Fin dirSize → List ℕ := update (update (fun _ ↦ []) 0 [3, 4]) 1 [5]

theorem twoFiles_inUse {i : Fin dirSize} (h : (twoFiles.rootDirectory i).inUse ≠ 0) :
    i = 0 ∨ i = 1 := by
  revert i
  decide

theorem twoFiles_idle {b : Fin fatSize} (h3 : b ≠ 3) (h4 : b ≠ 4) (h5 : b ≠ 5) :
    twoFiles.fat b = 0 ∨ twoFiles.fat b = 1 := by
  simp only [twoFiles, update_of_ne h3, update_of_ne h4, update_of_ne h5, emptyFat]
  split_ifs <;> simp

theorem twoFiles_accounted : Accounted twoFiles.fat twoFiles.rootDirectory twoFilesChain := by
  have hfiles : ∀ i, (twoFiles.rootDirectory i).inUse = 1 → i = 0 ∨ i = 1 :=
    fun i hi ↦ twoFiles_inUse (by rw [hi]; decide)
  have hdisjoint : (twoFilesChain 0).Disjoint (twoFilesChain 1) :=
    List.disjoint_left.mpr (by decide)
  refine ⟨fun i hi ↦ ?_, fun i hi ↦ ?_, fun i hi ↦ ?_, fun i j hi hj hij ↦ ?_, fun i hi ↦ ?_,
    fun b v hb h0 h1 ↦ ?_⟩
  · obtain rfl | rfl := hfiles i hi
    · exact .cons rfl (by decide) (.last rfl)
    · exact .last rfl
  · obtain rfl | rfl := hfiles i hi <;> rfl
  · obtain rfl | rfl := hfiles i hi <;> decide
  · obtain rfl | rfl := hfiles i hi <;> obtain rfl | rfl := hfiles j hj
    · contradiction
    · exact hdisjoint
    · exact hdisjoint.symm
    · contradiction
  · obtain rfl | rfl := hfiles i hi <;> decide
  · have hlt := FatTable.entry_lt hb
    rw [FatTable.entry, dif_pos hlt, Option.some.injEq] at hb
    by_cases h3 : (⟨b, hlt⟩ : Fin fatSize) = 3
    · exact ⟨0, rfl, by rw [show b = 3 from congrArg Fin.val h3]; decide⟩
    by_cases h4 : (⟨b, hlt⟩ : Fin fatSize) = 4
    · exact ⟨0, rfl, by rw [show b = 4 from congrArg Fin.val h4]; decide⟩
    by_cases h5 : (⟨b, hlt⟩ : Fin fatSize) = 5
    · exact ⟨1, rfl, by rw [show b = 5 from congrArg Fin.val h5]; decide⟩
    have hidle := twoFiles_idle h3 h4 h5
    omega

theorem check_iff_accounted_twoFiles : check.run twoFiles = .ok () twoFiles :=
  ((check_iff_accounted rfl fun _ hu ↦ by cases hu).1).mpr ⟨_, twoFiles_accounted⟩

end FileSystem

end GenericFs.Fat
