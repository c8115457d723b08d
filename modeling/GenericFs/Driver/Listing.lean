import GenericFs.Driver.Dir
import GenericFs.Disktool.Appending

namespace GenericFs.Driver

open Function GenericFs.Library Store Returning Machine GenericFs.Disktool

def made (calls : List NewFile) : List NewFile := calls.filter fun f ↦ f.size ≤ 4096

structure NamedStep (g : Sizes) (t : Tool) (f : NewFile) (t' : Tool) : Prop where
  name : 1 ≤ f.name.length ∧ f.name.length ≤ 127
  run : (createFile g f).run t = .ok () t'

def rootDirectory (g : Sizes) (t : Tool) : Directory :=
  onePage fun k ↦ t.bytes (4096 * g.metadata + k)

def InTable (g : Sizes) (files : List NewFile) : Prop :=
  files = [] ∨ files.length < 64 * g.inodetableBlocksize

/-- What calls leave while their inodes are in the table, and when the inode of the
last one is the first behind it. -/
structure Recorded (g : Sizes) (files : List NewFile) (t : Tool) : Prop where
  held : InTable g files → Image g files t
  lost : files ≠ [] → files.length = 64 * g.inodetableBlocksize →
    t.bytes (4096 * g.metadata + 8) = 0

variable {g : Sizes} {files calls : List NewFile} {f : NewFile} {t t' : Tool}

theorem made_append (h : f.size ≤ 4096) : made (calls ++ [f]) = made calls ++ [f] := by
  simp [made, List.filter_append, h]

theorem made_append_of_lt (h : 4096 < f.size) : made (calls ++ [f]) = made calls := by
  simp [made, List.filter_append, h]

theorem made_eq_self (h : ∀ f ∈ calls, f.size ≤ 4096) : made calls = calls :=
  List.filter_eq_self.mpr fun f hf ↦ decide_eq_true (h f hf)

theorem createFile_run_of_lt (h : 4096 < f.size) : (createFile g f).run t = .ok () t := by
  rw [createFile, if_pos h, EStateM.run_pure]

theorem Recorded.create (S : Sound g) (R : Recorded g files t) (hstep : NamedStep g t f t')
    (hsmall : f.size ≤ 4096) (hfit : listingSize (files ++ [f]) ≤ 4096) :
    Recorded g (files ++ [f]) t' := by
  have hname := hstep.name.2
  have hroom := extent_add_le.mpr hfit
  -- as long as there is room in the table, the call works as it should
  have hcreate : files.length < 64 * g.inodetableBlocksize → Image g files t ∧
      ∃ p, t' = { t with bytes := created g files f t.size t.bytes, position := p } := by
    intro htable
    have I := R.held (.inr htable)
    obtain ⟨p, hrun⟩ := createFile_run S I (by omega) hsmall hroom
    rw [hstep.run] at hrun
    cases hrun
    exact ⟨I, p, rfl⟩
  constructor
  · rintro (hnil | htable)
    · exact absurd hnil (by simp)
    · rw [List.length_append, List.length_singleton] at htable
      obtain ⟨I, p, rfl⟩ := hcreate (by omega)
      exact I.create S htable (by omega) hsmall hroom
  · intro _ hfull
    rw [List.length_append, List.length_singleton] at hfull
    obtain ⟨I, p, rfl⟩ := hcreate (by omega)
    have hsize := I.size
    have hin := S.inside
    exact created_lost hfull (by omega)

theorem recorded_of_run (S : Sound g) (I : Image g [] t) (hr : Run (NamedStep g) t calls t')
    (hfit : listingSize (made calls) ≤ 4096) : Recorded g (made calls) t' := by
  have hstart : Recorded g (made []) t := ⟨fun _ ↦ I, fun h ↦ absurd rfl h⟩
  refine hr.history (P := fun ks s ↦ listingSize (made ks) ≤ 4096 → Recorded g (made ks) s) ?_
    (fun _ ↦ hstart) hfit
  intro ks s f u hP hstep hle
  rcases Nat.lt_or_ge 4096 f.size with hlarge | hsmall
  · have hrun := createFile_run_of_lt (g := g) (t := s) hlarge
    rw [hstep.run] at hrun
    cases hrun
    rw [made_append_of_lt hlarge] at hle ⊢
    exact hP hle
  · rw [made_append hsmall] at hle ⊢
    have hroom := hle
    rw [listingSize_append] at hroom
    exact (hP (by omega)).create S hstep hsmall hle

theorem Recorded.listed (R : Recorded g files t) (h : InTable g files) :
    (rootDirectory g t).Lists (entries files) ↔
      offsetOf (entries files) ((entries files).length - 1) ≤ 4083 := lists_iff (R.held h).listing

/-- The first byte of an inode over the start of the directory takes the name of the
first entry away. -/
theorem not_lists_of_zero {w : ℕ → UInt8} (h : w 8 = 0) : ¬(onePage w).Lists (entries files) := by
  rintro ⟨n, hn⟩
  cases n with
  | zero => cases hn
  | succ n =>
    rw [readCalls, gfsReaddir_some (by decide), Nat.zero_add, h] at hn
    obtain ⟨l, -, hl⟩ := Option.map_eq_some_iff.mp hn
    have hname := congrArg Prod.fst (List.cons.inj hl).1
    contradiction

/-- What the driver lists after a run of calls on an initialized partition: all that
the tool wrote, if the inodes are in their table and the last entry does not start
in the last twelve bytes of the block; and otherwise not. -/
theorem readdir_lists_of_run (h : 5 ≤ t.sizes.blockCount) {now : ℕ} {t₁ t₂ : Tool}
    (hinit : (initializePartition t.sizes now).run t = .ok () t₁)
    (hr : Run (NamedStep t.sizes) t₁ calls t₂) (hfit : listingSize (made calls) ≤ 4096) :
    (InTable t.sizes (made calls) →
      ((rootDirectory t.sizes t₂).Lists (entries (made calls)) ↔
        offsetOf (entries (made calls)) ((entries (made calls)).length - 1) ≤ 4083)) ∧
    (made calls ≠ [] → (made calls).length = 64 * t.sizes.inodetableBlocksize →
      ¬(rootDirectory t.sizes t₂).Lists (entries (made calls))) := by
  have hword : t.size / blockSize % 2 ^ 32 < 2 ^ 32 := Nat.mod_lt _ (by decide)
  have S : Sound t.sizes := sound_of_return h hword hinit
  have R := recorded_of_run S (image_of_return S t.size_le hinit) hr hfit
  exact ⟨R.listed, fun hne hfull ↦ not_lists_of_zero (R.lost hne hfull)⟩

theorem readdir_lists_of_run_fiveBlocks : ∃ t₁ t₂,
    (initializePartition (zeroBlocks 5).sizes 0).run (zeroBlocks 5) = .ok () t₁ ∧
      (createFile (zeroBlocks 5).sizes ⟨[0x61], 0, 0⟩).run t₁ = .ok () t₂ ∧
      (rootDirectory (zeroBlocks 5).sizes t₂).Lists (entries [⟨[0x61], 0, 0⟩]) := by
  have S := (zeroBlocks 5).sound (by decide) (by decide)
  obtain ⟨t₁, hinit, I⟩ := initializePartition_run (t := zeroBlocks 5) S Tool.size_le 0
  obtain ⟨p, hrun⟩ := createFile_run (f := ⟨[0x61], 0, 0⟩) S I (by decide) (by decide) (by decide)
  have hstep : NamedStep (zeroBlocks 5).sizes t₁ ⟨[0x61], 0, 0⟩ _ := ⟨by decide, hrun⟩
  have hr := Run.cons hstep (.nil _)
  have hlists := (readdir_lists_of_run (t := zeroBlocks 5) (by decide) hinit hr (by decide)).1
  exact ⟨t₁, _, hinit, hrun, (hlists (.inr (by decide))).mpr (by decide)⟩

/-- Files with long names, then one with the shortest name that starts in the last
twelve bytes of the block. -/
def packed : List NewFile :=
  List.replicate 29 ⟨List.replicate 127 0x61, 0, 0⟩ ++ [⟨List.replicate 110 0x61, 0, 0⟩,
  ⟨[0x61], 0, 0⟩]

theorem not_readdir_lists_packed : ∃ t₁ t₂,
    (initializePartition (zeroBlocks 5).sizes 0).run (zeroBlocks 5) = .ok () t₁ ∧
      Run (NamedStep (zeroBlocks 5).sizes) t₁ packed t₂ ∧ listingSize (made packed) ≤ 4096 ∧
      ¬(rootDirectory (zeroBlocks 5).sizes t₂).Lists (entries (made packed)) := by
  have S := (zeroBlocks 5).sound (by decide) (by decide)
  obtain ⟨t₁, hinit, I⟩ := initializePartition_run (t := zeroBlocks 5) S Tool.size_le 0
  have hcalls : ∀ f ∈ packed, (1 ≤ f.name.length ∧ f.name.length ≤ 127) ∧ f.size ≤ 4096 := by
    decide +kernel
  have hmade : made packed = packed := made_eq_self fun f hf ↦ (hcalls f hf).2
  have hfit : listingSize packed ≤ 4096 := by decide +kernel
  obtain ⟨t₂, hr, -⟩ : ∃ t₂, Run (NamedStep (zeroBlocks 5).sizes) t₁ packed t₂ ∧
      Image (zeroBlocks 5).sizes packed t₂ := by
    refine exists_run_of_fitting S I (fun f hf ↦ ?_) ⟨by decide, hfit, by decide⟩
      fun ks f s s' hle _ hrun ↦ ?_
    · obtain ⟨hname, hsmall⟩ := hcalls f hf
      exact ⟨hname.2, hsmall⟩
    · obtain ⟨hname, -⟩ := hcalls f (hle.subset (List.mem_append_right _ List.mem_cons_self))
      exact ⟨hname, hrun⟩
  have R := recorded_of_run S I hr (by rw [hmade]; exact hfit)
  have hlate : ¬offsetOf (entries packed) ((entries packed).length - 1) ≤ 4083 := by
    decide +kernel
  rw [hmade] at R ⊢
  refine ⟨t₁, t₂, hinit, hr, hfit, fun hlists ↦ hlate ?_⟩
  exact (R.listed (.inr (by decide))).mp hlists

end GenericFs.Driver
