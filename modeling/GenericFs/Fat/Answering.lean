import GenericFs.Library.Walks
import GenericFs.Fat.Runs

namespace GenericFs.Fat

open GenericFs.Library Chain Walks Function

/-- The block after a block, for a walk that ends at an end mark and at a free
block. -/
def FatTable.next (fat : FatTable) (b : ℕ) : Option ℕ :=
  match fat.entry b with
  | none => none
  | some v => if v = eofFatEntry ∨ v = freeFatEntry then none else some v

theorem FatTable.next_of_lt {fat : FatTable} {b : ℕ} (h : b < 512) : fat.next b =
    if fat ⟨b, h⟩ = eofFatEntry ∨ fat ⟨b, h⟩ = freeFatEntry then none else some (fat ⟨b, h⟩) := by
  rw [next, entry_of_lt h]

namespace FileSystem

def Answered {α : Type} (r : Except Fault α) : Prop := ∀ e, r = .error e → ∃ m, e = .thrown m

/-- A file whose chain ends, has no free block and is as long as its size says. -/
def RightSized (fat : FatTable) (d : Directory) (i : Fin dirSize) : Prop :=
  ∃ l, fat.Chain (d i).startingBlock l ∧ (∀ c ∈ l, fat.entry c ≠ some freeFatEntry) ∧
    (l.length : ℤ) = (d i).size.tdiv blockSize + 1

/-- Every file up to the first one that has a wrong size starts a walk without a
cycle. -/
def Walkable (fat : FatTable) (d : Directory) (is : List (Fin dirSize)) : Prop :=
  ∀ i ∈ is, (d i).inUse = 1 → (∀ j ∈ is, j < i → (d j).inUse = 1 → RightSized fat d j) →
    Acyclic fat.next (d i).startingBlock

variable {fs : FileSystem} {fat : FatTable} {d : Directory} {fuel fuel' b : ℕ} {l : List ℕ} {n : ℤ}
  {is : List (Fin dirSize)}

theorem Answered.ok {α : Type} {x : α} : Answered (.ok x : Except Fault α) := nofun

theorem Answered.thrown {α : Type} {m : String} :
    Answered (.error (.thrown m) : Except Fault α) := by
  rintro e ⟨⟩
  exact ⟨m, rfl⟩

theorem not_answered_endless {α : Type} : ¬Answered (.error .endless : Except Fault α) := by
  intro h
  obtain ⟨m, hm⟩ := h _ rfl
  cases hm

theorem reaches_lt (hfat : ∀ j, fat j < 512) (hb : b < 512) {c : ℕ} (hr : Reaches fat.next b c) :
    c < 512 := by
  induction hr with
  | refl => exact hb
  | @tail c c' _ hstep ih =>
    rw [FatTable.next_of_lt ih] at hstep
    split_ifs at hstep
    obtain rfl := Option.some.inj hstep
    exact hfat _

theorem exists_trail (hfat : ∀ j, fat j < 512) (hb : b < 512) :
    (∃ l, Trail fat.next b l) ↔ Acyclic fat.next b :=
  exists_trail_iff (finite_of_lt fun _ ↦ reaches_lt hfat hb)

/-- The turns of the first pass on a file are the places of a walk. -/
theorem checkSizeLoop_answers (h : Trail fat.next b l) (hlt : ∀ c ∈ l, c < 512)
    (hfuel : l.length ≤ fuel) : Answered (checkSizeLoop fat fuel b n) := by
  induction h generalizing fuel n with
  | @last a ha =>
    obtain ⟨fuel, rfl⟩ : ∃ m, fuel = m + 1 := ⟨fuel - 1, by simp at hfuel; omega⟩
    rw [FatTable.next_of_lt (hlt a (by simp))] at ha
    simp only [checkSizeLoop, FatTable.entry_of_lt (hlt a (by simp))]
    split_ifs at ha with hstop
    rcases hstop with heof | hfree
    · rw [if_pos heof]
      exact .ok
    · rw [hfree]
      exact .thrown
  | @cons a c l hc _ ih =>
    obtain ⟨fuel, rfl⟩ : ∃ m, fuel = m + 1 := ⟨fuel - 1, by simp at hfuel; omega⟩
    rw [FatTable.next_of_lt (hlt a (by simp))] at hc
    simp only [checkSizeLoop, FatTable.entry_of_lt (hlt a (by simp))]
    split_ifs at hc with hstop
    rw [not_or] at hstop
    rw [if_neg hstop.1, if_neg hstop.2, Option.some.inj hc]
    exact ih (fun x hx ↦ hlt x (List.mem_cons_of_mem _ hx)) (by simpa using hfuel)

theorem trail_of_checkSizeLoop (hfat : ∀ j, fat j < 512) (hb : b < 512)
    (h : Answered (checkSizeLoop fat fuel b n)) : ∃ l, Trail fat.next b l := by
  induction fuel generalizing b n with
  | zero => exact absurd h not_answered_endless
  | succ fuel ih =>
    have hnext := fat.next_of_lt hb
    by_cases hstop : fat ⟨b, hb⟩ = eofFatEntry ∨ fat ⟨b, hb⟩ = freeFatEntry
    · rw [if_pos hstop] at hnext
      exact ⟨_, .last hnext⟩
    · rw [if_neg hstop] at hnext
      rw [not_or] at hstop
      simp only [checkSizeLoop, FatTable.entry_of_lt hb, if_neg hstop.1, if_neg hstop.2] at h
      obtain ⟨l, hl⟩ := ih (hfat _) h
      exact ⟨_, .cons hnext hl⟩

theorem checkSizeLoop_mono (h : checkSizeLoop fat fuel b n ≠ .error .endless) (hle : fuel ≤ fuel') :
    checkSizeLoop fat fuel' b n = checkSizeLoop fat fuel b n := by
  induction fuel generalizing fuel' b n with
  | zero => exact absurd rfl h
  | succ fuel ih =>
    obtain ⟨fuel', rfl⟩ : ∃ m, fuel' = m + 1 := ⟨fuel' - 1, by omega⟩
    simp only [checkSizeLoop] at h ⊢
    cases he : fat.entry b with
    | none => rfl
    | some next =>
      simp only [he] at h ⊢
      split_ifs at h ⊢
      · rfl
      · rfl
      · exact ih h (by omega)

/-- What the first pass finds for a file of the right size, unless it has too few
turns. -/
theorem RightSized.checkSizeLoop {i : Fin dirSize} (R : RightSized fat d i)
    (h : checkSizeLoop fat fuel (d i).startingBlock 0 ≠ .error .endless) :
    checkSizeLoop fat fuel (d i).startingBlock 0 = .ok ((d i).size.tdiv blockSize) := by
  obtain ⟨l, hl, hfree, hlen⟩ := R
  rw [← checkSizeLoop_mono h (le_max_left fuel l.length),
    checkSizeLoop_complete hl (le_max_right _ _) hfree]
  congr 1
  omega

theorem busy_of_checkSizeLoop {m : ℤ} (hl : fat.Chain b l)
    (h : FileSystem.checkSizeLoop fat fuel b n = .ok m) :
    ∀ c ∈ l, fat.entry c ≠ some freeFatEntry := by
  induction hl generalizing fuel n with
  | last ha => simp [ha]
  | @cons a c l hc hne _ ih =>
    cases fuel with
    | zero => cases h
    | succ fuel =>
      simp only [FileSystem.checkSizeLoop, hc, if_neg hne] at h
      split_ifs at h with hfree
      exact List.forall_mem_cons.mpr ⟨by rw [hc]; simpa using hfree, ih h⟩

theorem rightSized_of_checkSizeLoop {i : Fin dirSize}
    (h : FileSystem.checkSizeLoop fat fuel (d i).startingBlock 0 =
    .ok ((d i).size.tdiv blockSize)) :
    RightSized fat d i := by
  obtain ⟨l, hl, hm, -⟩ := checkSizeLoop_sound h
  exact ⟨l, hl, busy_of_checkSizeLoop hl h, by omega⟩

theorem walkable_cons_of_unused {i : Fin dirSize} (hu : (d i).inUse ≠ 1) :
    Walkable fat d (i :: is) ↔ Walkable fat d is := by
  simp only [Walkable, List.mem_cons, forall_eq_or_imp, hu, false_implies, implies_true, true_and]

section Passes

variable (hfat : ∀ j, fat j < 512) (hstart : ∀ i, (d i).startingBlock < 512)
  (hsorted : is.Pairwise (· < ·))

include hfat hstart hsorted

theorem walkable_of_checkSizes (h : Answered (checkSizes fat d fuel is)) : Walkable fat d is := by
  induction is with
  | nil => simp [Walkable]
  | cons i is ih =>
    obtain ⟨hlt, hsorted⟩ := List.pairwise_cons.mp hsorted
    by_cases hu : (d i).inUse = 1
    · simp only [checkSizes, hu, ↓reduceIte] at h
      have hloop : Answered (checkSizeLoop fat fuel (d i).startingBlock 0) := by
        cases hl : checkSizeLoop fat fuel (d i).startingBlock 0 with
        | ok m => exact .ok
        | error e =>
          rw [hl] at h
          rintro e' ⟨⟩
          exact h e rfl
      have hne : checkSizeLoop fat fuel (d i).startingBlock 0 ≠ .error .endless := fun he ↦ by
        rw [he] at hloop
        exact not_answered_endless hloop
      intro k hk huk hbefore
      rcases List.mem_cons.mp hk with rfl | hk
      · exact (exists_trail hfat (hstart k)).mp (trail_of_checkSizeLoop hfat (hstart k) hloop)
      · -- the files behind are only looked at once this one has the right size
        have R := (hbefore i List.mem_cons_self (hlt k hk) hu).checkSizeLoop hne
        simp only [R, ne_eq, not_true_eq_false, ↓reduceIte] at h
        exact ih hsorted h k hk huk fun j hj ↦ hbefore j (List.mem_cons_of_mem _ hj)
    · rw [checkSizes, if_neg hu] at h
      exact (walkable_cons_of_unused hu).mpr (ih hsorted h)

theorem checkSizes_answers (hfuel : 512 ≤ fuel) (h : Walkable fat d is) :
    Answered (checkSizes fat d fuel is) := by
  induction is with
  | nil => exact .ok
  | cons i is ih =>
    obtain ⟨hlt, hsorted⟩ := List.pairwise_cons.mp hsorted
    by_cases hu : (d i).inUse = 1
    · have hac : Acyclic fat.next (d i).startingBlock := by
        refine h i List.mem_cons_self hu fun j hj hji _ ↦ ?_
        rcases List.mem_cons.mp hj with rfl | hj
        · exact absurd hji (lt_irrefl j)
        · exact absurd hji (hlt j hj).asymm
      obtain ⟨l, hl⟩ := (exists_trail hfat (hstart i)).mpr hac
      have hreach : ∀ c, Reaches fat.next (d i).startingBlock c → c < 512 := fun _ ↦
        reaches_lt hfat (hstart i)
      have hloop := checkSizeLoop_answers (n := 0) hl (fun c hc ↦ hreach c (hl.mem_iff.mp hc))
        ((hl.length_le hreach).trans hfuel)
      cases hrun : checkSizeLoop fat fuel (d i).startingBlock 0 with
      | error e =>
        obtain ⟨m, rfl⟩ := hloop e hrun
        simp only [checkSizes, hu, ↓reduceIte, hrun]
        exact .thrown
      | ok m =>
        simp only [checkSizes, hu, ↓reduceIte, hrun]
        split_ifs with hm
        · exact .thrown
        · rw [ne_eq, not_not] at hm
          rw [← hm] at hrun
          refine ih hsorted fun k hk huk hbefore ↦
            h k (List.mem_cons_of_mem _ hk) huk fun j hj hjk huj ↦ ?_
          rcases List.mem_cons.mp hj with rfl | hj
          · exact rightSized_of_checkSizeLoop hrun
          · exact hbefore j hj hjk huj
    · rw [checkSizes, if_neg hu]
      exact ih hsorted ((walkable_cons_of_unused hu).mp h)

end Passes

theorem checkOffLoop_answers (h : fat.Chain b l) (hfuel : l.length ≤ fuel) (off : ℕ → Bool) :
    Answered (checkOffLoop fat fuel b off) := by
  induction h generalizing fuel off with
  | @last a ha =>
    obtain ⟨fuel, rfl⟩ : ∃ m, fuel = m + 1 := ⟨fuel - 1, by simp at hfuel; omega⟩
    simp only [checkOffLoop, ha, ne_eq, not_true_eq_false, ↓reduceIte]
    split_ifs
    · exact .thrown
    · exact .ok
  | @cons a c l hc hne _ ih =>
    obtain ⟨fuel, rfl⟩ : ∃ m, fuel = m + 1 := ⟨fuel - 1, by simp at hfuel; omega⟩
    simp only [checkOffLoop, hc, ne_eq, hne, not_false_eq_true, ↓reduceIte]
    split_ifs
    · exact .thrown
    · exact ih (by simpa using hfuel) _

/-- The second pass follows the chains that the first one followed to their ends. -/
theorem checkOffFiles_answers (hsizes : ∀ i ∈ is, (d i).inUse = 1 →
      checkSizeLoop fat fuel (d i).startingBlock 0 = .ok ((d i).size.tdiv 1024)) (off : ℕ → Bool) :
    Answered (checkOffFiles fat d fuel is off) := by
  induction is generalizing off with
  | nil => exact .ok
  | cons i is ih =>
    have ih := ih fun j hj ↦ hsizes j (List.mem_cons_of_mem _ hj)
    by_cases hu : (d i).inUse = 1
    · obtain ⟨l, hl, -, hlen⟩ := checkSizeLoop_sound (hsizes i List.mem_cons_self hu)
      have hloop := checkOffLoop_answers hl hlen off
      cases hrun : checkOffLoop fat fuel (d i).startingBlock off with
      | error e =>
        obtain ⟨m, rfl⟩ := hloop e hrun
        simp only [checkOffFiles, hu, ↓reduceIte, hrun]
        exact .thrown
      | ok off' =>
        simp only [checkOffFiles, hu, ↓reduceIte, hrun]
        exact ih off'
    · rw [checkOffFiles, if_neg hu]
      exact ih off

theorem checkWith_answered_iff (hf : fs.formattedFlag = true)
    (hw : ¬∃ h, (fs.handleTable h).inUse = true ∧ (fs.handleTable h).mode = .WRITE) :
    Answered (checkWith fuel fs) ↔
      Answered (checkSizes fs.fat fs.rootDirectory fuel (List.finRange dirSize)) := by
  rw [checkWith, if_neg (by simp [hf]), if_neg hw]
  cases hs : checkSizes fs.fat fs.rootDirectory fuel (List.finRange dirSize) with
  | error e => exact Iff.rfl
  | ok u =>
    refine iff_of_true ?_ .ok
    have hoff := checkOffFiles_answers (checkSizes_eq_ok.mp hs) (checkedOff fs.fat)
    cases hc : checkOffFiles fs.fat fs.rootDirectory fuel (List.finRange dirSize)
        (checkedOff fs.fat) with
    | error e =>
      obtain ⟨m, rfl⟩ := hoff e hc
      simp only [bind, Except.bind]
      exact .thrown
    | ok off =>
      simp only [bind, Except.bind]
      split_ifs
      · exact .thrown
      · exact .ok

/-- `check` gives an answer exactly if it is over before the first pass, or if this
pass meets no cycle before it meets a file of the wrong size. More turns for its
loops would change nothing. -/
theorem check_answers_iff (hf : fs.formattedFlag = true) (hfat : ∀ j, fs.fat j < 512)
    (hstart : ∀ i, (fs.rootDirectory i).startingBlock < 512) :
    (Answered (checkWith loopBound fs) ↔
      (∃ h, (fs.handleTable h).inUse = true ∧ (fs.handleTable h).mode = .WRITE) ∨
        Walkable fs.fat fs.rootDirectory (List.finRange dirSize)) ∧
    ((∃ fuel, Answered (checkWith fuel fs)) ↔ Answered (checkWith loopBound fs)) := by
  by_cases hw : ∃ h, (fs.handleTable h).inUse = true ∧ (fs.handleTable h).mode = .WRITE
  · have hopen : ∀ fuel, Answered (checkWith fuel fs) := fun fuel ↦ by
      rw [checkWith, if_neg (by simp [hf]), if_pos hw]
      exact .thrown
    exact ⟨iff_of_true (hopen _) (.inl hw), iff_of_true ⟨0, hopen 0⟩ (hopen _)⟩
  · have hsorted := List.pairwise_lt_finRange dirSize
    have hof : ∀ fuel, Answered (checkWith fuel fs) →
        Walkable fs.fat fs.rootDirectory (List.finRange dirSize) := fun fuel h ↦
      walkable_of_checkSizes hfat hstart hsorted ((checkWith_answered_iff hf hw).mp h)
    have hto : Walkable fs.fat fs.rootDirectory (List.finRange dirSize) →
        Answered (checkWith loopBound fs) := fun h ↦
      (checkWith_answered_iff hf hw).mpr
        (checkSizes_answers hfat hstart hsorted (show 512 ≤ loopBound by decide) h)
    rw [or_iff_right hw]
    exact ⟨⟨hof _, hto⟩, ⟨fun h ↦ h.elim fun fuel h ↦ hto (hof fuel h), fun h ↦ ⟨_, h⟩⟩⟩

section Damaged

def selfLinked : FileSystem :=
  { blankObject with
    formattedFlag := true
    fat := emptyFat.set 5 5
    rootDirectory :=
      update emptyDirectory 0 { emptyDirectory 0 with startingBlock := 5, inUse := 1 } }

theorem selfLinked_lt : (∀ j, selfLinked.fat j < 512) ∧
    ∀ i, (selfLinked.rootDirectory i).startingBlock < 512 := by
  constructor
  · intro j
    simp only [selfLinked, FatTable.set, emptyFat, reservedFatEntry, freeFatEntry]
    split_ifs <;> decide
  · intro i
    rcases eq_or_ne i 0 with rfl | hi
    · decide
    · simp [selfLinked, update_of_ne hi, emptyDirectory]

def brokenChain : FileSystem := { twoFiles with fat := update twoFiles.fat 4 freeFatEntry }

theorem check_answers_iff_brokenChain : Answered (checkWith loopBound brokenChain) := by
  refine ((check_answers_iff rfl (fun j ↦ ?_) fun i ↦ ?_).1).mpr (.inr fun i _ hu _ ↦ ?_)
  · simp only [brokenChain, twoFiles, update_apply, emptyFat]
    split_ifs <;> decide
  · revert i
    decide
  · obtain rfl | rfl :=
      twoFiles_inUse (i := i) (by rw [show (twoFiles.rootDirectory i).inUse = 1 from hu]; decide)
    · have hwalk : Trail brokenChain.fat.next 3 [3, 4] := .cons rfl (.last rfl)
      exact hwalk.acyclic
    · have hwalk : Trail brokenChain.fat.next 5 [5] := .last rfl
      exact hwalk.acyclic

/-- On a file whose chain is a circle the first pass goes around for ever. -/
theorem not_check_answers : ¬∀ fs : FileSystem, fs.formattedFlag = true → (∀ j, fs.fat j < 512) →
    (∀ i, (fs.rootDirectory i).startingBlock < 512) → ∃ fuel, Answered (checkWith fuel fs) := by
  intro hclaim
  obtain ⟨fuel, h⟩ := hclaim selfLinked rfl selfLinked_lt.1 selfLinked_lt.2
  have hw : ¬∃ h, (selfLinked.handleTable h).inUse = true ∧
      (selfLinked.handleTable h).mode = .WRITE := by
    rintro ⟨h, hu, -⟩
    cases hu
  have hwalk :=
    walkable_of_checkSizes selfLinked_lt.1 selfLinked_lt.2 (List.pairwise_lt_finRange dirSize)
      ((checkWith_answered_iff rfl hw).mp h)
  have hac := hwalk 0 (List.mem_finRange 0) rfl fun j _ hj _ ↦ absurd hj (Fin.not_lt_zero j)
  exact hac 5 .refl (.single rfl)

end Damaged

end FileSystem

end GenericFs.Fat
