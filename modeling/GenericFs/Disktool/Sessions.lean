import GenericFs.Disktool.Archives

namespace GenericFs.Disktool

open Function GenericFs.Library Store Bitmap Returning Refining

/-- The tool has the archive before it, and the user sees the same terminal. -/
structure Reads (g : Sizes) (A : Archive) (s : Station) (r : Reading) : Prop where
  terminal : s.terminal = r.terminal
  content : r.content = .archive A
  sizes : s.tool.sizes = g
  formatted : Formatted g A s.tool

def Content.Fits (g : Sizes) (t : Tool) : Content → Prop
  | .other signed => signed = decide ((SuperBlock.decode t.bytes 0).magicNumber = 0xDEADBEEF)
  | .archive A => Formatted g A t

/-- The tool stands on a partition of which the reading tells. -/
structure Stands (g : Sizes) (s : Station) (r : Reading) : Prop where
  terminal : s.terminal = r.terminal
  sizes : s.tool.sizes = g
  fits : r.content.Fits g s.tool

variable {w : World} {g : Sizes} {A : Archive} {t t' : Tool} {s : Station}
  {r : Reading} {α β : Type} {ws : Workspace} {n k : ℕ}

theorem Formatted.keep (F : Formatted g A t) (K : Kept t t') : Formatted g A t' := by
  obtain ⟨size, bytes, position, screen⟩ := t'
  obtain ⟨rfl, rfl⟩ := K
  obtain ⟨⟨I, hinodes, hblocks, hnames⟩, ⟨hroot, hfile, hsmall⟩, U⟩ := F
  exact ⟨⟨⟨I.size, I.super, I.inodeMap, I.blockMap, I.root, I.slot, I.listing, I.extent,
    I.data⟩, hinodes, hblocks, hnames⟩, ⟨hroot, hfile, hsmall⟩, U⟩

theorem sizes_congr (h : t'.size = t.size) : t'.sizes = t.sizes := by rw [Tool.sizes, Tool.sizes, h]

theorem onTool_ok {m : Action α} {f : α → Interaction β} {a : α} (h : m.run s.tool = .ok a t') :
    (onTool m >>= f).run s = (f a).run { s with tool := t' } := run_bind_ok (part_ok h)

theorem onTerminal_bind {m : Dialog α} {f : α → Dialog β} :
    (onTerminal (m >>= f)).run s = (onTerminal m >>= fun a ↦ onTerminal (f a)).run s := by
  apply part_bind
  · exact fun _ _ ↦ rfl
  · exact fun _ _ _ ↦ rfl

theorem atTerminal_bind {m : Dialog α} {f : α → Dialog β} :
    (atTerminal (m >>= f)).run r = (atTerminal m >>= fun a ↦ atTerminal (f a)).run r := by
  apply part_bind
  · exact fun _ _ ↦ rfl
  · exact fun _ _ _ ↦ rfl

theorem atTerminal_forget {m : Dialog α} : (atTerminal m >>= fun _ ↦ pure ()).run r =
    (atTerminal (m >>= fun _ ↦ pure ())).run r := (atTerminal_bind (f := fun _ ↦ pure ())).symm

theorem onTerminal_pure {a : α} : (onTerminal (pure a)).run s = .ok a s := rfl

theorem atTerminal_pure {a : α} : (atTerminal (pure a)).run r = .ok a r := rfl

theorem atTerminal_paged_add {perPage m i : ℕ} {item : ℕ → List Call} {f : Bool → Account β} :
    (atTerminal (paged w perPage item (m + n) i) >>= f).run r = (do
      let quits ← atTerminal (paged w perPage item m i)
      let quits ← atTerminal (if quits then return true else paged w perPage item n (i + m))
      f quits).run r := by
  have hsplit : (atTerminal (paged w perPage item (m + n) i)).run r = _ :=
    (part_congr paged_add).trans atTerminal_bind
  rw [EStateM.run_bind, hsplit, ← EStateM.run_bind, bind_assoc]

theorem onTerminal_send {u : Terminal} {calls : List Call} : (onTerminal (send calls)).run ⟨t, u⟩ =
    .ok () ⟨t, { u with calls := u.calls ++ calls }⟩ := rfl

theorem onTerminal_time {u : Terminal} : (onTerminal (time w)).run ⟨t, u⟩ =
    .ok (w.time u.asked) ⟨t, { u with asked := u.asked + 1 }⟩ := rfl

theorem onTool_run {u : Terminal} {m : Action α} {f : α → Interaction β} {a : α}
    (h : m.run t = .ok a t') :
    (onTool m >>= f).run ⟨t, u⟩ = (f a).run ⟨t', u⟩ := onTool_ok (s := ⟨t, u⟩) h

theorem reread_run (h : t.position + n ≤ t.size) : (reread ws n).run t =
    .ok (splice ws 0 n fun k ↦ t.bytes (t.position + k)) { t with position := t.position + n } := by
  have hmin : min n (t.size - t.position) = n := by omega
  simp only [reread, EStateM.run_bind, EStateM.run_get, hmin, EStateM.run_set, EStateM.run_pure]

theorem read_super (h : 4096 ≤ t.size) :
    ∃ ws, (read (fun _ ↦ 0) blockSize).run { t with position := 0 } =
    .ok ws { t with position := 0 + blockSize } ∧ SuperBlock.decode ws 0 =
      SuperBlock.decode t.bytes 0 := by
  refine ⟨_, read_run (by simp only [blockSize]; omega), ?_⟩
  apply SuperBlock.decode_congr
  intro k hk
  have hword : 0 + k < 0 + blockSize := by
    simp only [blockSize]
    omega
  rw [splice_inside (Nat.zero_le _) hword, Nat.sub_zero, ← Nat.add_assoc]

theorem checked_run {z : ℤ} (h : -2 ^ 31 ≤ z ∧ z < 2 ^ 31) : (checked z).run t = .ok z t := by
  rw [checked, if_pos h]
  rfl

theorem lseekInt_natCast : lseekInt n = lseek n := by
  have hpos : ¬(n : ℤ) < 0 := by omega
  rw [lseekInt, if_neg hpos, Int.toNat_natCast]

theorem Stands.dialog (h : Stands g s r) (m : Dialog α) :
    Refines (Stands g) ((onTerminal m).run s) ((atTerminal m).run r) :=
  .part h.terminal fun _ ↦ ⟨rfl, h.sizes, h.fits⟩

theorem Stands.signed (h : Stands g s r) :
    decide ((SuperBlock.decode s.tool.bytes 0).magicNumber = 0xDEADBEEF) =
    r.content.signed := by
  have hfits := h.fits
  cases hcontent : r.content with
  | other signed =>
    rw [hcontent] at hfits
    exact hfits.symm
  | archive A =>
    rw [hcontent] at hfits
    rw [hfits.held.image.super]
    rfl

theorem Stands.keep (h : Stands g s r) (K : Kept s.tool t') : Stands g { s with tool := t' } r := by
  refine ⟨h.terminal, ?_, ?_⟩
  · exact (sizes_congr K.size).trans h.sizes
  · have hfits := h.fits
    cases hcontent : r.content with
    | other signed =>
      rw [hcontent, Content.Fits] at hfits
      rw [hfits, ← K.bytes]
      rfl
    | archive A =>
      rw [hcontent] at hfits
      exact Formatted.keep hfits K

namespace Reads

theorem dialog (h : Reads g A s r) (m : Dialog α) :
    Refines (Reads g A) ((onTerminal m).run s) ((atTerminal m).run r) :=
  .part h.terminal fun _ ↦ ⟨rfl, h.content, h.sizes, h.formatted⟩

theorem dialog_tool (h : Reads g A s r) (m : Dialog α) :
    Refines (fun s' r' ↦ Reads g A s' r' ∧ s'.tool = s.tool)
    ((onTerminal m).run s) ((atTerminal m).run r) :=
  .part h.terminal fun _ ↦ ⟨⟨rfl, h.content, h.sizes, h.formatted⟩, rfl⟩

theorem stands (h : Reads g A s r) : Stands g s r := by
  refine ⟨h.terminal, h.sizes, ?_⟩
  rw [h.content]
  exact h.formatted

theorem tool (h : Reads g A s r) (K : Kept s.tool t') : Reads g A { s with tool := t' } r :=
  ⟨h.terminal, h.content, (sizes_congr K.size).trans h.sizes, h.formatted.keep K⟩

/-- What each display reads first. -/
theorem readSuper {f : Workspace → Interaction α} {x : EStateM.Result (Option Stop) Reading α}
    {R : Station → Reading → Prop} (S : Sound g) (h : Reads g A s r)
    (hf : ∀ ws s', Reads g A s' r → SuperBlock.decode ws 0 = mySuper g →
    Refines R ((f ws).run s') x) :
    Refines R ((do
      onTool (lseek 0)
      let ws ← onTool (read (fun _ ↦ 0) blockSize)
      f ws).run s) x := by
  have hin := S.inside
  have hsize := h.formatted.held.image.size
  obtain ⟨ws, hread, hsuper⟩ := read_super (t := s.tool) (by omega)
  rw [onTool_ok lseek_run, onTool_ok hread]
  exact hf _ _ (h.tool ⟨rfl, rfl⟩) (hsuper.trans h.formatted.held.image.super)

/-- A block that is read into an array with values. -/
theorem readAt {f : Workspace → Interaction α} {x : EStateM.Result (Option Stop) Reading α}
    {R : Station → Reading → Prop} (h : Reads g A s r) (hn : n + 4096 ≤ 4096 * g.blockCount)
    (hf : ∀ ws s', Reads g A s' r → (∀ k < 4096, ws k = s'.tool.bytes (n + k)) →
    Refines R ((f ws).run s') x) :
    Refines R ((do
      onTool (lseek n)
      let ws ← onTool (reread ws blockSize)
      f ws).run s) x := by
  have hsize := h.formatted.held.image.size
  have hread : (reread ws blockSize).run { s.tool with position := n } =
      .ok (splice ws 0 blockSize fun k ↦ s.tool.bytes (n + k))
      { s.tool with position := n + blockSize } :=
    reread_run (by simp only [blockSize]; omega)
  have hkept : Kept s.tool { s.tool with position := n + blockSize } := ⟨rfl, rfl⟩
  rw [onTool_ok lseek_run, onTool_ok hread]
  apply hf _ _ (h.tool hkept)
  intro k hk
  rw [splice_inside (Nat.zero_le _) (by simp only [blockSize]; omega), Nat.sub_zero]

end Reads

section Asking

theorem scanString_maintains :
    Maintains (fun _ ↦ True) (scanString w) fun name ↦ ∀ s ∈ name, 1 ≤ s.length := by
  refine Maintains.trivial.bind fun line _ ↦ .pure fun s hs ↦ ?_
  split_ifs at hs with hempty
  · contradiction
  · rw [← Option.some.inj hs]
    exact List.length_pos_iff.mpr fun hnil ↦ hempty (List.isEmpty_iff.mpr hnil)

theorem askFile_maintains : Maintains (fun _ ↦ True) (askFile w) fun asked ↦
    ∀ f ∈ asked, (1 ≤ f.name.length ∧ f.name.length ≤ 127) ∧ f.size ≤ 4096 := by
  refine Maintains.trivial.bind fun now _ ↦ Maintains.trivial.bind fun _ _ ↦ ?_
  refine scanString_maintains.bind fun name hname ↦ ?_
  split_ifs with hlong
  · exact .throw _
  · refine Maintains.trivial.bind fun _ _ ↦ Maintains.trivial.bind fun size _ ↦ ?_
    split_ifs with hlarge
    · exact Maintains.trivial.bind fun _ _ ↦ Maintains.trivial.bind fun _ _ ↦ .pure fun f hf ↦
        absurd hf (by simp)
    · refine Maintains.trivial.bind fun _ _ ↦ ?_
      cases name with
      | none => exact .throw _
      | some name =>
        apply Maintains.pure
        intro f hf
        rw [← Option.some.inj hf]
        exact ⟨⟨hname name rfl, Nat.le_of_not_lt hlong⟩, Nat.le_of_not_lt hlarge⟩

end Asking

section Maps

variable {total start b row turns : ℕ} {cells : ℕ → Bool}

/-- The blocks of a map that lies on the partition are shown as pages. -/
theorem showBlocks_refines (W : w.Usable) (htotal : total < 2 ^ 32) (h : Reads g A s r)
    (hpos : s.tool.position = 4096 * (start + b)) (hsize : 4096 * (start + b + turns) ≤ s.tool.size)
    (hbits : ∀ k < 32768 * (b + turns), bit s.tool.bytes (32768 * start + k) = cells k)
    (hlow : 32768 * b < total) (hhigh : total ≤ 32768 * (b + turns))
    (hrow : RowAt w (4096 * b) row) :
    Refines (Reads g A) ((showBlocks w total turns row (8 * (4096 * b)) ws).run s) ((do
      let _ ← atTerminal (paged w (4 * (w.lines - 2)) (mapItem w total cells)
        ((total + 7) / 8 - 4096 * b) (4096 * b))
      return ()).run r) := by
  induction turns generalizing b row s r ws with
  | zero => omega
  | succ turns ih =>
    have hread : (reread ws blockSize).run s.tool = .ok
        (splice ws 0 blockSize fun k ↦ s.tool.bytes (s.tool.position + k))
        { s.tool with position := s.tool.position + blockSize } :=
        reread_run (by simp only [blockSize]; omega)
    have hkept : Kept s.tool { s.tool with position := s.tool.position + blockSize } := ⟨rfl, rfl⟩
    have hblock :
        ∀ a < 8 * 4096, bit (splice ws 0 blockSize fun k ↦
        s.tool.bytes (s.tool.position + k)) (8 * 0 + a) =
        cells (8 * (4096 * b) + a) := by
      intro a ha
      rw [Nat.mul_zero, Nat.zero_add, ← hbits _ (by omega), bit_read (by omega), hpos]
      congr 1
      omega
    obtain ⟨row', hrow', hshow⟩ :=
      showBytes_run W htotal (j := 4096 * b) (n := 0) (m := 4096) (by omega)
        (by omega) hrow hblock
    have hnext : 4096 * b + 4096 = 4096 * (b + 1) := by omega
    have hhigh' : total ≤ 32768 * (b + 1 + turns) := by omega
    rw [hnext] at hrow'
    have hshown : ∀ s', (onTerminal (showBytes w total (splice ws 0 blockSize fun k ↦
        s.tool.bytes (s.tool.position + k)) blockSize 0 row (8 * (4096 * b)))).run s' = _ :=
      fun s' ↦ (part_congr (hshow s'.terminal)).trans onTerminal_bind
    have h' := h.tool hkept
    rw [showBlocks, onTool_ok hread, EStateM.run_bind, hshown, ← EStateM.run_bind, bind_assoc]
    by_cases hlast : total ≤ 32768 * (b + 1)
    · have hmin : min 4096 ((total + 7) / 8 - 4096 * b) = (total + 7) / 8 - 4096 * b := by omega
      have hend : ¬8 * (4096 * b + 4096) < total := by omega
      rw [hmin]
      refine (h'.dialog _).seq fun quits s r h ↦ ?_
      rw [if_neg hend, ite_self, run_bind_ok onTerminal_pure]
      exact .pure h
    · have hmin : min 4096 ((total + 7) / 8 - 4096 * b) = 4096 := by omega
      have hend : 8 * (4096 * b + 4096) < total := by omega
      have hrest :
          (total + 7) / 8 - 4096 * b = 4096 + ((total + 7) / 8 - 4096 * (b + 1)) := by omega
      rw [hmin, hrest, atTerminal_paged_add]
      refine (h'.dialog_tool _).bind (fun _ _ h ↦ h.1) fun quits s' r h ↦ ?_
      obtain ⟨h, htool⟩ := h
      cases quits with
      | true =>
        simp only [↓reduceIte]
        rw [run_bind_ok onTerminal_pure, run_bind_ok atTerminal_pure]
        exact .pure h
      | false =>
        simp only [Bool.false_eq_true, ↓reduceIte]
        rw [hnext] at hend ⊢
        rw [if_pos hend, run_bind_ok onTerminal_pure]
        have hposition : s'.tool.position = s.tool.position + blockSize := by rw [htool]
        have hbytes : s'.tool.bytes = s.tool.bytes := by rw [htool]
        have hends : s'.tool.size = s.tool.size := by rw [htool]
        have hpos' : s'.tool.position = 4096 * (start + (b + 1)) := by
          rw [hposition, hpos, blockSize]
          omega
        have hsize' : 4096 * (start + (b + 1) + turns) ≤ s'.tool.size := by
          rw [hends]
          omega
        have hbits' :
            ∀ k < 32768 * (b + 1 + turns), bit s'.tool.bytes (32768 * start + k) = cells k := by
          intro k hk
          rw [hbytes]
          exact hbits k (by omega)
        exact ih h hpos' hsize' hbits' (Nat.lt_of_not_le hlast) hhigh' hrow'

end Maps

section Options

variable (S : Sound g) (L : Laid g) (W : w.Usable) (h : Reads g A s r)

include S h

theorem showSuper_refines :
    Refines (Reads g A) ((showSuper w).run s) ((Archive.showSuper w g).run r) := by
  rw [showSuper, Archive.showSuper]
  refine (h.dialog _).seq fun _ s r h ↦ ?_
  refine h.readSuper S fun ws s h hsuper ↦ ?_
  rw [hsuper]
  exact h.dialog _

include L W

theorem showFreemap_refines {start mapBlocks : SuperBlock → ℕ} {cells : ℕ → Bool}
    (hstart : start (mySuper g) = 4096 * n) (hblocks : mapBlocks (mySuper g) = g.freemapBlocksize)
    (hn : n + g.freemapBlocksize ≤ g.blockCount)
    (hbits : ∀ s, Formatted g A s → ∀ k < 32768 * g.freemapBlocksize,
    bit s.bytes (32768 * n + k) = cells k) :
    Refines (Reads g A) ((showFreemap w start mapBlocks).run s)
      ((Archive.showMap w g cells).run r) := by
  have hpositive := L.positive
  have hsmall := L.small
  have hmap := L.mapped
  rw [showFreemap, Archive.showMap]
  refine (h.dialog _).seq fun _ s r h ↦ ?_
  refine h.readSuper S fun ws s h hsuper ↦ ?_
  have hsize := h.formatted.held.image.size
  have hkept : Kept s.tool { s.tool with position := 4096 * n } := ⟨rfl, rfl⟩
  have hrow : RowAt w (4096 * 0) 1 := fun hpage ↦ absurd (Nat.zero_mod _) hpage
  have hbits' :
      ∀ k < 32768 * (0 + g.freemapBlocksize), bit s.tool.bytes (32768 * n + k) = cells k := by
    intro k hk
    exact hbits s.tool h.formatted k (by omega)
  have hends : 4096 * (n + 0 + g.freemapBlocksize) ≤ s.tool.size := by omega
  have htotal : (mySuper g).totalBlocks = g.blockCount := rfl
  simp only [hsuper, hstart, hblocks, htotal]
  rw [onTool_ok lseek_run]
  refine Refines.seq_forget ?_ fun s r h ↦ h.dialog _
  exact showBlocks_refines (b := 0) W (by omega) (h.tool hkept) rfl hends hbits' (by omega)
    (by omega) hrow

theorem showInodeFreemap_refines : Refines (Reads g A) ((showInodeFreemap w).run s)
    ((Archive.showMap w g fun i ↦ i ≤ A.files.length).run r) := by
  have hmeta := L.metadata
  refine showFreemap_refines S L W h (n := 1) rfl rfl (by omega) fun s F k hk ↦ ?_
  exact F.held.image.inodeMap k hk

theorem showBlockFreemap_refines : Refines (Reads g A) ((showBlockFreemap w).run s)
    ((Archive.showMap w g fun b ↦ b < freshBlock g A.files).run r) := by
  have hmeta := L.metadata
  have hsmall := L.small
  have hfreemap := S.freemap
  refine showFreemap_refines S L W h (n := 1 + g.freemapBlocksize) (address_eq ?_) rfl ?_
    fun s F k hk ↦ ?_
  · have hsuper : (mySuper g).inodefreemapBlocks = g.freemapBlocksize := rfl
    omega
  · omega
  · exact F.held.image.blockMap k hk

omit W in
theorem showInode_refines :
    Refines (Reads g A) ((showInode w).run s) ((A.showInode w g).run r) := by
  have hslots := L.slots
  have hmeta := L.metadata
  have hpre := S.preallocated
  have hmetadata : g.metadata = 1 + 2 * g.freemapBlocksize + g.inodetableBlocksize := rfl
  rw [showInode, Archive.showInode]
  refine (h.dialog _).seq fun _ s r h ↦ ?_
  refine h.readSuper S fun ws s h hsuper ↦ ?_
  have hfreemap : Int.bmod (mySuper g).inodefreemapBlocks (2 ^ 32) = g.freemapBlocksize := by
    apply Int.bmod_eq_of_le <;> simp only [mySuper] <;> omega
  have htotal : (mySuper g).totalBlocks = g.blockCount := rfl
  simp only [hsuper, hfreemap, htotal]
  refine (h.dialog _).seq fun choice s r h ↦ ?_
  by_cases hchoice : 0 ≤ choice ∧ choice < g.blockCount
  · obtain ⟨c, rfl⟩ := Int.eq_ofNat_of_zero_le hchoice.1
    have hc : c < g.blockCount := Int.ofNat_lt.mp hchoice.2
    have hdiv : (c : ℤ).tdiv 64 = ((c / 64 : ℕ) : ℤ) := rfl
    have hmod : (c : ℤ).tmod 64 = ((c % 64 : ℕ) : ℤ) := rfl
    have hplace : ((c / 64 : ℕ) + 1 + (g.freemapBlocksize : ℤ) * 2) * (blockSize : ℕ) =
        ((4096 * (1 + 2 * g.freemapBlocksize + c / 64) : ℕ) : ℤ) := by
      simp only [blockSize]
      omega
    rw [if_pos hchoice, hdiv, hmod, onTool_ok (checked_run (by omega)),
      onTool_ok (checked_run (by omega)), hplace, onTool_ok (checked_run (by omega)),
      lseekInt_natCast]
    refine h.readAt (by omega) fun ws s h hblock ↦ ?_
    have hoffset : ¬(((c % 64 : ℕ) : ℤ) * 64 < 0) := by omega
    have hnode : Inode.decode ws (((c % 64 : ℕ) : ℤ) * 64).toNat =
        Inode.decode (A.slotByte g c) 0 := by
      apply Inode.decode_congr
      intro k hk
      have hplace :
          4096 * (1 + 2 * g.freemapBlocksize + c / 64) + ((((c % 64 : ℕ) : ℤ) * 64).toNat + k) =
          4096 * (1 + 2 * g.freemapBlocksize) + 64 * c + k := by omega
      rw [hblock _ (by omega), hplace, Nat.zero_add]
      exact h.formatted.slot hk (by omega)
    rw [if_neg hoffset, hnode]
    exact h.dialog _
  · rw [if_neg hchoice]
    exact .leftOpen _ _

theorem showBlock_refines :
    Refines (Reads g A) ((showBlock w).run s) ((A.showBlock w g).run r) := by
  have hsmall := L.small
  rw [showBlock, Archive.showBlock]
  refine (h.dialog _).seq fun _ s r h ↦ ?_
  refine h.readSuper S fun ws s h hsuper ↦ ?_
  have htotal : (mySuper g).totalBlocks = g.blockCount := rfl
  simp only [hsuper, htotal]
  refine (h.dialog _).seq fun choice s r h ↦ ?_
  by_cases hchoice : choice < g.blockCount
  · rw [if_pos hchoice, address_eq (hchoice.trans_le hsmall)]
    refine h.readAt (by omega) fun ws s h hblock ↦ ?_
    have hitems :
        ∀ k < 256, dumpItem w ws (0 + k) =
        dumpItem w (fun k ↦ A.bytes g (4096 * choice + k)) (0 + k) := by
      intro k hk
      apply dumpItem_congr
      intro a ha
      rw [hblock _ (by omega)]
      exact h.formatted.bytes_eq (by omega)
    have hlines : ∀ u, (showLines w ws (blockSize / 16) 0 1).run u = (do
        let _ ← dumpDisplay w fun k ↦ A.bytes g (4096 * choice + k)
        return ()).run u := by
      intro u
      refine (showLines_run (m := 256) (i := 0) W fun hpage ↦
        absurd (Nat.zero_mod _) hpage).trans ?_
      rw [EStateM.run_bind, paged_congr hitems, ← EStateM.run_bind, dumpDisplay]
    rw [onTerminal_bind]
    refine Refines.seq_forget ?_ fun s r h ↦ h.dialog _
    rw [onTerminal, part_congr (hlines _), ← onTerminal, atTerminal_forget]
    exact h.dialog _
  · rw [if_neg hchoice]
    exact .leftOpen _ _

omit S h W in
theorem Archive.Takes.admissible {f : NewFile} (F : Formatted g A t) (h : A.Takes g f)
    (hname : 1 ≤ f.name.length ∧ f.name.length ≤ 127) (hsmall : f.size ≤ 4096) :
    Admissible g t f := by
  have hmap := L.mapped
  obtain ⟨hinode, hblock, -⟩ := h
  refine ⟨hname, hsmall, ⟨A.files.length + 1, hinode, ?_⟩, fun hpos ↦
    ⟨freshBlock g A.files, hblock hpos, ?_⟩⟩
  · rw [F.held.image.inodeMap _ (by omega)]
    exact decide_eq_false (by omega)
  · have hfresh := hblock hpos
    rw [F.held.image.blockMap _ (by omega)]
    exact decide_eq_false (by rw [freshBlock]; omega)

omit W in
theorem createFile_refines :
    Refines (Stands g) ((createFileOption w g).run s) ((A.createFile w g).run r) := by
  rw [createFileOption, Archive.createFile]
  refine (h.dialog _).bind_run (fun _ _ h ↦ h.stands) fun asked s r hasked h ↦ ?_
  obtain ⟨u, hasked, -⟩ := exists_of_part_ok hasked
  have hchecked := (askFile_maintains _ _ _ trivial hasked).2
  cases asked with
  | none => exact .pure h.stands
  | some f =>
    obtain ⟨hname, hsmall⟩ := hchecked f rfl
    by_cases htakes : A.Takes g f
    · obtain ⟨t', hrun, hsize, F⟩ :=
        h.formatted.create S L (htakes.admissible L h.formatted hname hsmall) htakes.2.2
      have hsizes : t'.sizes = g := (sizes_congr hsize).trans h.sizes
      simp only [htakes, ↓reduceIte]
      rw [onTool_ok hrun]
      have hrecord :
        (modify fun r ↦ { r with content := .archive ⟨A.made, A.files ++ [f]⟩ } : Account Unit).run
          r = .ok () { r with content := .archive ⟨A.made, A.files ++ [f]⟩ } := rfl
      rw [run_bind_ok hrecord]
      have hstands :
          Stands g { s with tool := t' } { r with content := .archive ⟨A.made, A.files ++ [f]⟩ } :=
        ⟨h.terminal, hsizes, F⟩
      exact hstands.dialog _
    · simp only [htakes, ↓reduceIte]
      exact .leftOpen _ _

omit W L in
theorem showRootDir_refines :
    Refines (Reads g A) ((showRootDirOption w).run s) ((A.showRootDir w g).run r) := by
  rw [showRootDirOption, Archive.showRootDir]
  refine (h.dialog _).seq fun _ s r h ↦ ?_
  obtain ⟨rows, t', hrun, K, hlength, hrows⟩ := showRootDir_kept S h.formatted.held
  have hrowsOf : rows = rowsOf (entries A.files) := by
    apply List.ext_getElem?
    intro j
    by_cases hj : j < (entries A.files).length
    · rw [hrows j hj, rowsOf, List.getElem?_ofFn, dif_pos hj]
    · rw [List.getElem?_eq_none (by omega), List.getElem?_eq_none
        (by rw [rowsOf, List.length_ofFn]; omega)]
  have h' := h.tool K
  rw [onTool_ok hrun, onTool_ok (EStateM.run_get ..), hrowsOf, h'.formatted.held.image.super]
  exact h'.dialog _

omit S W in
theorem verify_refines : Refines (Reads g A) ((verifyOption w g).run s) ((A.verify w).run r) := by
  rw [verifyOption, Archive.verify]
  refine (h.dialog _).seq fun _ s r h ↦ ?_
  refine (h.dialog _).seq fun allocated s r h ↦ ?_
  obtain ⟨t', hrun, K, hscreen⟩ : ∃ t', (verifyFileSystem g allocated).run s.tool = .ok () t' ∧
    Kept s.tool t' ∧
      t'.screen = if allocated then (List.range (A.files.length + 1)).map
      .inode else [.noMemory] := by
    cases allocated with
    | true => exact verify_screen L h.formatted.held
    | false => exact ⟨{ s.tool with screen := [.noMemory] }, rfl, ⟨rfl, rfl⟩, rfl⟩
  rw [onTool_ok hrun, onTool_ok (EStateM.run_get ..)]
  simp only [hscreen]
  exact (h.tool K).dialog _

end Options

section Sessions

/-- A partition that was just initialized is that of an archive without files, whatever it was
before. -/
theorem initialize_refines (S : Sound g) (L : Laid g) (h : Stands g s r) :
    Refines (Stands g) ((initializeOption w g).run s) ((Account.makeArchive w).run r) := by
  have hpositive := L.positive
  have hslots := L.slots
  obtain ⟨t, u⟩ := s
  obtain ⟨c, u'⟩ := r
  obtain ⟨rfl, hsizes, -⟩ := h
  simp only at hsizes
  have hsize : 4096 * g.blockCount ≤ t.size := by
    rw [← hsizes]
    exact t.size_le
  obtain ⟨t', hrun, hends⟩ : ∃ t', (initializePartition g (w.time u.asked)).run t = .ok () t' ∧
      t'.size = t.size := by
    obtain ⟨wi, wb, wn, wr, ws, p, hrun, -⟩ := initializePartition_written S hsize (w.time u.asked)
    exact ⟨_, hrun, rfl⟩
  have F := formatted_of_return S hsize (by omega) hrun
  obtain ⟨_, t₁, hclear, hrest⟩ := exists_of_run_bind hrun
  obtain ⟨_, t₂, hmaps, hrest⟩ := exists_of_run_bind hrest
  obtain ⟨_, t₃, hroot, hsuper⟩ := exists_of_run_bind hrest
  have hcaught :
      ∀ u handle, (tryCatch (onTool (writeFreemaps g)) handle : Interaction Unit).run ⟨t₁, u⟩ =
      .ok () ⟨t₂, u⟩ := fun u handle ↦ run_tryCatch_ok (part_ok hmaps)
  rw [initializeOption, run_bind_ok onTerminal_send, onTool_run hclear, run_bind_ok onTerminal_send,
    run_bind_ok (hcaught _ _), run_bind_ok onTerminal_time, run_bind_ok onTerminal_send,
    onTool_run hroot, run_bind_ok onTerminal_send, onTool_run hsuper]
  have hsizes' : t'.sizes = g := (sizes_congr hends).trans hsizes
  let calls := u.calls ++ .clear :: mvprintw 1 1 "Clearing partition..." ++ mvprintw 2 1
    "Writing free maps..." ++
    mvprintw 3 1 "Creating root directory..." ++ mvprintw 4 1 "Writing super block..."
  have hstands : Stands g ⟨t', { keys := u.keys, calls, asked := u.asked + 1 }⟩
      ⟨.archive ⟨w.time u.asked, []⟩, { keys := u.keys, calls, asked := u.asked + 1 }⟩ :=
      ⟨rfl, hsizes', F⟩
  exact hstands.dialog (continueMessage w)

theorem option_refines (S : Sound g) (L : Laid g) (W : w.Usable) (h : Stands g s r) (n : ℕ) :
    Refines (Stands g) ((jumpTable w g n).run s) ((Account.option w g n).run r) := by
  rw [Account.option]
  by_cases hmake : n = 1
  · rw [if_pos hmake, hmake]
    exact initialize_refines S L h
  · rw [if_neg hmake, run_bind_ok (EStateM.run_get ..)]
    cases hcontent : r.content with
    | other signed => exact .leftOpen _ _
    | archive A =>
      have hfits := h.fits
      rw [hcontent] at hfits
      have hreads : Reads g A s r := ⟨h.terminal, hcontent, h.sizes, hfits⟩
      have hshown :
          ∀ {m : Interaction Unit} {m' : Account Unit}, Refines (Reads g A) (m.run s) (m'.run r) →
          Refines (Stands g) (m.run s) (m'.run r) :=
          fun hrefines ↦ hrefines.mono fun _ _ h ↦ h.stands
      change Refines (Stands g) ((jumpTable w g n).run s) ((Account.options w g A n).run r)
      unfold jumpTable
      split
      · contradiction
      · exact hshown (showSuper_refines S hreads)
      · exact hshown (showInodeFreemap_refines S L W hreads)
      · exact hshown (showBlockFreemap_refines S L W hreads)
      · exact hshown (showInode_refines S L hreads)
      · exact hshown (showBlock_refines S L W hreads)
      · exact hshown (showRootDir_refines S hreads)
      · exact h.dialog _
      · exact createFile_refines S L hreads
      · exact h.dialog _
      · exact hshown (verify_refines L hreads)
      · unfold Account.options
        split
        all_goals first
          | contradiction
          | exact .leftOpen _ _

theorem mainLoop_refines (S : Sound g) (L : Laid g) (W : w.Usable) (h : Stands g s r) :
    Refines (Stands g) ((mainLoop w g n).run s) ((Account.mainLoop w g n).run r) := by
  induction n generalizing s r with
  | zero => exact .error _ h
  | succ n ih =>
    rw [mainLoop, Account.mainLoop]
    refine (h.dialog _).seq fun choice s r h ↦ .ite (fun _ ↦ .pure h) fun _ ↦ ?_
    exact (option_refines S L W h choice).seq fun _ s r h ↦ ih h

end Sessions

theorem exists_of_ending {m : Account α} {a : α} {c : Content}
    (h : (do
      let a ← m
      let r ← get
      return (a, r.content)).run' r = some (a, c)) : ∃ r', m.run r = .ok a r' ∧ r'.content = c := by
  cases hm : m.run r with
  | ok b r' =>
    delta EStateM.run' at h
    rw [run_bind_ok hm] at h
    cases h
    exact ⟨r', rfl, rfl⟩
  | error e r' =>
    delta EStateM.run' at h
    rw [run_bind_error hm] at h
    contradiction

/-- Every session of the tool is to its user what it is on an archive, whichever keys are typed:
what is shown, what is asked, how it ends, and which archive is on the partition then. -/
theorem main_refines {start : Start} (W : w.Usable) (hlow : 5 ≤ s.tool.sizes.blockCount)
    (hhigh : s.tool.sizes.blockCount ≤ 2 ^ 20) (h : Stands s.tool.sizes s r) :
    Refines (Stands s.tool.sizes) ((main w start).run s)
      ((Account.main w s.tool.sizes start).run r) := by
  have S := s.tool.sound hlow hhigh
  have L := s.tool.laid hlow hhigh
  generalize hsizes : s.tool.sizes = g at h S L hlow hhigh ⊢
  rw [main, Account.main]
  refine (h.dialog _).seq fun _ s r h ↦ ?_
  refine .ite (fun _ ↦ (h.dialog _).seq fun _ s r h ↦ .pure h) fun _ ↦ ?_
  refine .ite (fun _ ↦ (h.dialog _).seq fun _ s r h ↦ .pure h) fun _ ↦ ?_
  have hsize := s.tool.size_le
  rw [h.sizes] at hsize
  obtain ⟨ws, hread, hsuper⟩ := read_super (t := s.tool) (by omega)
  have hcheck :
      checkSuper.run s.tool =
      .ok (decide ((SuperBlock.decode s.tool.bytes 0).magicNumber = 0xDEADBEEF))
      { s.tool with position := 0 + blockSize } := by
    rw [checkSuper, run_bind_ok lseek_run, run_bind_ok hread, hsuper]
    rfl
  have hkept : Kept s.tool { s.tool with position := 0 + blockSize } := ⟨rfl, rfl⟩
  rw [onTool_ok hcheck, run_bind_ok (EStateM.run_get ..), h.signed]
  refine ((h.keep hkept).dialog _).seq fun goesOn s r h ↦ ?_
  refine .ite (fun _ ↦ .pure h) fun _ ↦ ?_
  refine .ite (fun _ ↦ (h.dialog _).seq fun _ s r h ↦ .pure h) fun _ ↦ ?_
  rw [run_bind_ok (EStateM.run_get ..), run_bind_ok (EStateM.run_get ..), h.sizes, h.terminal]
  exact (mainLoop_refines S L W h).seq fun _ s r h ↦ .pure h

/-- A line that curses reads, with the keys for its end, to erase a character and to erase the
line. `taken` keys have given `line` before. -/
def editLine (line : List UInt8) (taken : ℕ) : List UInt8 → Option (List UInt8 × ℕ)
  | [] => none
  | key :: keys =>
    if key = 0x0D ∨ key = 0x0A then some (line, taken + 1)
    else if key = 0x7F then editLine line.dropLast (taken + 1) keys
    else if key = 0x15 then editLine [] (taken + 1) keys
    else editLine (line ++ [key]) (taken + 1) keys

def desktop : World := ⟨24, fun _ ↦ 0, fun _ ↦ "", fun _ ↦ true, editLine [] 0⟩

/-- The partition is initialized, and a file is made. Its name is corrected while it is typed. -/
def creatingKeys : List UInt8 :=
  [0x79, 0x0A, 0x31, 0x0D, 0x39, 0x62, 0x7F, 0x61, 0x0D, 0x31, 0x0D, 0x0D, 0x30]

theorem main_refines_sixBlocks : ∃ s', (main desktop ⟨2, "", true, true, ""⟩).run
    ⟨zeroBlocks 6, ⟨creatingKeys, [], 0⟩⟩ = .ok 0 s' ∧
      Formatted (zeroBlocks 6).sizes ⟨0, [⟨[0x61], 1, 0⟩]⟩ s'.tool := by
  have W : desktop.Usable := ⟨by decide, by decide⟩
  have h : Refines (Stands (zeroBlocks 6).sizes) ((main desktop ⟨2, "", true, true, ""⟩).run
      ⟨zeroBlocks 6, _⟩) _ := main_refines (s := ⟨zeroBlocks 6, ⟨creatingKeys, [], 0⟩⟩)
    (r := ⟨.other false, ⟨creatingKeys, [], 0⟩⟩) W (by decide) (by decide) ⟨rfl, rfl, rfl⟩
  obtain ⟨r', hrun, hcontent⟩ := exists_of_ending
    (m := Account.main desktop (zeroBlocks 6).sizes ⟨2, "", true, true, ""⟩)
    (r := ⟨.other false, ⟨creatingKeys, [], 0⟩⟩) (a := 0) (c := .archive ⟨0, [⟨[0x61], 1, 0⟩]⟩)
    (by decide +kernel)
  rw [hrun] at h
  obtain ⟨s', hmain, hstands⟩ := h.exists_ok
  have hfits := hstands.fits
  rw [hcontent] at hfits
  exact ⟨s', hmain, hfits⟩

end GenericFs.Disktool
