import GenericFs.Disktool.Readback

namespace GenericFs.Disktool

open Function GenericFs.Library Store Returning Machine

def rootBlock (g : Sizes) (t : Tool) : ℕ → UInt8 := fun k ↦ t.bytes (4096 * g.metadata + k)

/-- The block holds one entry more than before, behind the others, and all of them are
inside the block. -/
def Extends (w w' : ℕ → UInt8) (name : List UInt8) : Prop :=
  ∃ es inode, Listed w es ∧ Listed w' (es ++ [⟨name, inode⟩]) ∧
  extent (es ++ [⟨name, inode⟩]) ≤ 4096

/-- The call leaves the partition as it was, or it returns with the new entry in the root
directory block. A use of memory outside the local array is neither. -/
def Appends (g : Sizes) (t : Tool) (f : NewFile) : Prop :=
  match (createFile g f).run t with
  | .ok () t' => t'.bytes = t.bytes ∨ Extends (rootBlock g t) (rootBlock g t') f.name
  | .error .exited t' => t'.bytes = t.bytes
  | .error _ _ => False

/-- The root directory lies in the partition, the entries of the files in one block, and
their inodes in the table. -/
structure Fitting (g : Sizes) (files : List NewFile) : Prop where
  root : 5 ≤ g.blockCount
  room : listingSize files ≤ 4096
  slots : files.length < 64 * g.inodetableBlocksize

variable {g : Sizes} {files : List NewFile} {f : NewFile} {t t' : Tool}

theorem Fitting.of_append (F : Fitting g (files ++ [f])) : Fitting g files := by
  have hroom := F.room
  have hslots := F.slots
  rw [listingSize_append] at hroom
  rw [List.length_append] at hslots
  exact ⟨F.root, by omega, by omega⟩

theorem Image.extends (I : Image g files t) (I' : Image g (files ++ [f]) t') :
    Extends (rootBlock g t) (rootBlock g t') f.name := by
  have hlisting := I'.listing
  have hext := I'.extent
  rw [entries_append] at hlisting hext
  exact ⟨entries files, files.length + 1, I.listing, hlisting, hext⟩

theorem Image.admissible_empty (I : Image g files t)
    (hmap : g.blockCount ≤ 32768 * g.freemapBlocksize)
    (hname : 1 ≤ f.name.length ∧ f.name.length ≤ 127) (hempty : f.size = 0)
    (hinodes : files.length + 1 < g.blockCount) : Admissible g t f := by
  refine ⟨hname, by omega, ⟨files.length + 1, hinodes, ?_⟩, fun hdata ↦ ?_⟩
  · rw [I.inodeMap _ (by omega)]
    exact decide_eq_false (by omega)
  · omega

section Calls

variable (S : Sound g)

include S

theorem Image.append (I : Image g files t) (hname : f.name.length ≤ 127) (hsmall : f.size ≤ 4096)
    (F : Fitting g (files ++ [f])) :
    ∃ t', (createFile g f).run t = .ok () t' ∧ Image g (files ++ [f]) t' := by
  have hfit := extent_add_le.mpr F.room
  have hslots := F.slots
  rw [List.length_append, List.length_singleton] at hslots
  obtain ⟨p, hrun⟩ := createFile_run S I (by omega) hsmall hfit
  exact ⟨_, hrun, I.create S hslots (by omega) hsmall hfit⟩

theorem image_of_fitting_run (I : Image g [] t) (hr : Run (CreateStep g) t files t')
    (F : Fitting g files) : Image g files t' := by
  refine hr.history (P := fun ks s ↦ Fitting g ks → Image g ks s) ?_ (fun _ ↦ I) F
  intro ks s f u hP hstep F'
  have A := hstep.admissible
  obtain ⟨u', hrun, I'⟩ := (hP F'.of_append).append S A.name.2 A.small F'
  rw [hstep.run] at hrun
  cases hrun
  exact I'

/-- Calls that find their room can be made one after the other. -/
theorem exists_run_of_fitting {step : Tool → NewFile → Tool → Prop} (I : Image g [] t)
    (hfiles : ∀ f ∈ files, f.name.length ≤ 127 ∧ f.size ≤ 4096) (F : Fitting g files)
    (hstep : ∀ ks f s s', ks ++ [f] <+: files → Image g ks s → (createFile g f).run s = .ok () s' →
      step s f s') :
    ∃ t', Run step t files t' ∧ Image g files t' := by
  induction files using List.reverseRecOn with
  | nil => exact ⟨t, .nil t, I⟩
  | append_singleton files f ih =>
    obtain ⟨hname, hsmall⟩ := hfiles f (List.mem_append_right _ List.mem_cons_self)
    obtain ⟨u, hr, Iu⟩ := ih (fun f hf ↦ hfiles f (List.mem_append_left _ hf)) F.of_append
      fun ks f s s' hle ↦ hstep ks f s s' (hle.trans (List.prefix_append _ _))
    obtain ⟨t', hrun, I'⟩ := Iu.append S hname hsmall F
    exact ⟨t', hr.concat (hstep _ _ _ _ List.prefix_rfl Iu hrun), I'⟩

/-- The new inode takes away the length of the first name. -/
theorem Image.not_appends_of_full (I : Image g files t) (A : Admissible g t f)
    (hroom : listingSize (files ++ [f]) ≤ 4096)
    (hfull : files.length + 1 = 64 * g.inodetableBlocksize) : ¬Appends g t f := by
  have hsize := I.size
  have hin := S.inside
  obtain ⟨p, hrun⟩ := createFile_run S I (by omega) A.small (extent_add_le.mpr hroom)
  have hlost :=
    created_lost (f := f) (s := t.bytes) hfull (show 4096 * g.metadata + 64 ≤ t.size by omega)
  have hone : (t.bytes (4096 * g.metadata + 8)).toNat = 1 :=
    (I.listing.entry 0 I.listing.length_pos).size
  simp only [Appends, hrun]
  rintro (hsame | ⟨es, inode, hlisted, hlisted', -⟩)
  · rw [← congrFun hsame, hlost] at hone
    contradiction
  · obtain rfl := hlisted.unique I.listing
    have hfirst := (hlisted'.entry 0 hlisted'.length_pos).size
    have hzero : (0 : UInt8).toNat = 1 := (congrArg UInt8.toNat hlost).symm.trans hfirst
    contradiction

theorem Image.appends_iff (I : Image g files t) (F : Fitting g files) (A : Admissible g t f) :
    Appends g t f ↔ Fitting g (files ++ [f]) := by
  have hslots := F.slots
  constructor
  · intro happends
    have hroom : listingSize (files ++ [f]) ≤ 4096 := by
      by_contra hover
      rw [← extent_add_le] at hover
      obtain ⟨t', hrun⟩ := createFile_overflow S I (by omega) A.small (not_le.mp hover)
      rw [Appends, hrun] at happends
      exact happends
    refine ⟨F.root, hroom, ?_⟩
    by_contra hfull
    rw [List.length_append, List.length_singleton] at hfull
    exact I.not_appends_of_full S A hroom (by omega) happends
  · intro F'
    obtain ⟨t', hrun, I'⟩ := I.append S A.name.2 A.small F'
    rw [Appends, hrun]
    exact .inr (I.extends I')

end Calls

/-- After every run of calls that all found the room that they need, the next call keeps the
root directory block in order just when it finds it too. -/
theorem appends_iff_of_run {now : ℕ} {t₁ t₂ : Tool}
    (hinit : (initializePartition t.sizes now).run t = .ok () t₁)
    (hr : Run (CreateStep t.sizes) t₁ files t₂) (F : Fitting t.sizes files)
    (A : Admissible t.sizes t₂ f) : Appends t.sizes t₂ f ↔ Fitting t.sizes (files ++ [f]) := by
  have hword : t.size / blockSize % 2 ^ 32 < 2 ^ 32 := Nat.mod_lt _ (by decide)
  have S : Sound t.sizes := sound_of_return F.root hword hinit
  have I := image_of_fitting_run S (image_of_return S t.size_le hinit) hr F
  exact I.appends_iff S F A

theorem appends_iff_of_run_sixBlocks : ∃ t₁,
    (initializePartition (zeroBlocks 6).sizes 0).run (zeroBlocks 6) = .ok () t₁ ∧
      Appends (zeroBlocks 6).sizes t₁ ⟨[0x61], 1, 0⟩ := by
  obtain ⟨t₁, hinit, I⟩ := initializePartition_run ((zeroBlocks 6).sound (by decide) (by decide))
    Tool.size_le 0
  have A := admissible_sixBlocks hinit
  have hiff :=
    appends_iff_of_run (t := zeroBlocks 6) hinit (.nil t₁) ⟨by decide, by decide, by decide⟩ A
  exact ⟨t₁, hinit, hiff.mpr ⟨by decide, by decide, by decide⟩⟩

def longNamed : NewFile := ⟨List.replicate 127 0x61, 0, 0⟩

/-- Thirty entries with the longest name are five bytes too many for the block. -/
theorem not_appends_of_run :
    ¬∀ (t : Tool) (now : ℕ) (t₁ t₂ : Tool) (files : List NewFile) (f : NewFile),
    (initializePartition t.sizes now).run t = .ok () t₁ → Run (CreateStep t.sizes) t₁ files t₂ →
      Admissible t.sizes t₂ f → Appends t.sizes t₂ f := by
  intro hclaim
  have S := (zeroBlocks 32).sound (by decide) (by decide)
  obtain ⟨t₁, hinit, I⟩ := initializePartition_run (t := zeroBlocks 32) S Tool.size_le 0
  have hname : 1 ≤ longNamed.name.length ∧ longNamed.name.length ≤ 127 := by decide +kernel
  have F : Fitting (zeroBlocks 32).sizes (List.replicate 29 longNamed) :=
    ⟨by decide, by decide +kernel, by decide⟩
  obtain ⟨t₂, hr, I₂⟩ :
      ∃ t₂, Run (CreateStep (zeroBlocks 32).sizes) t₁ (List.replicate 29 longNamed) t₂ ∧
      Image (zeroBlocks 32).sizes (List.replicate 29 longNamed) t₂ := by
    refine exists_run_of_fitting S I (fun f hf ↦ ?_) F fun ks f s s' hle Is hrun ↦ ?_
    · rw [List.eq_of_mem_replicate hf]
      exact ⟨hname.2, by decide⟩
    · have hlen := hle.length_le
      rw [List.length_append, List.length_singleton, List.length_replicate] at hlen
      obtain rfl :=
        List.eq_of_mem_replicate (hle.subset (List.mem_append_right _ List.mem_cons_self))
      have hinodes : ks.length + 1 < 32 := by omega
      exact ⟨Is.admissible_empty (by decide) hname rfl hinodes, hrun⟩
  have A : Admissible (zeroBlocks 32).sizes t₂ longNamed :=
    I₂.admissible_empty (by decide) hname rfl (by decide)
  have happends := hclaim (zeroBlocks 32) 0 t₁ t₂ _ _ hinit hr A
  have hroom := ((I₂.appends_iff S F A).mp happends).room
  exact absurd hroom (by decide +kernel)

end GenericFs.Disktool
