import GenericFs.Library.BitCount
import GenericFs.Disktool.Readback

namespace GenericFs.Disktool

open Function GenericFs.Library Store Bitmap Returning Machine

/-- What a partition is for: the files in the order of their creation. -/
structure Archive where
  made : ℕ
  files : List NewFile

def writeEntry (next : ℕ) (e : Entry) : List UInt8 :=
  slice (wordBytes next) 0 4 ++ slice (wordBytes e.inode) 0 4 ++
  [UInt8.ofNat e.name.length] ++ e.name

def writeEntries : ℕ → List Entry → List UInt8
  | _, [] => []
  | off, e :: es =>
    writeEntry (if es.isEmpty then 0 else off + e.length) e ++ writeEntries (off + e.length) es

namespace Archive

variable (g : Sizes) (A : Archive)

def node (i : ℕ) : Option Inode :=
  if i = 0 then some (rootNode g A.made)
  else if h : i - 1 < A.files.length then
    some (currentNode A.files[i - 1] (blockNumber g A.files (i - 1) h))
  else none

def slotByte (i k : ℕ) : UInt8 :=
  match A.node g i with
  | some n => n.encode k
  | none => unusedSpace

def blockByte (d k : ℕ) : UInt8 :=
  match (A.files.filter fun f ↦ 0 < f.size)[d]? with
  | some f => letters f.size k
  | none => unusedSpace

/-- The format of a partition: super block, inode map, block map, inode table, root directory
and the blocks of the files. -/
def bytes (k : ℕ) : UInt8 :=
  if k < 4096 then if k < 24 then (mySuper g).encode k else unusedSpace
  else if k < 4096 * (1 + g.freemapBlocksize) then ofBits (fun i ↦ i ≤ A.files.length) (k - 4096)
  else if k < 4096 * (1 + 2 * g.freemapBlocksize) then
    ofBits (fun b ↦ b < freshBlock g A.files) (k - 4096 * (1 + g.freemapBlocksize))
  else if k < 4096 * g.metadata then
    A.slotByte g ((k - 4096 * (1 + 2 * g.freemapBlocksize)) / 64)
      ((k - 4096 * (1 + 2 * g.freemapBlocksize)) % 64)
  else if k < 4096 * (g.metadata + 1) then
    (writeEntries 0 (entries A.files)).getD (k - 4096 * g.metadata) unusedSpace
  else A.blockByte ((k - 4096 * (g.metadata + 1)) / 4096) ((k - 4096 * (g.metadata + 1)) % 4096)

end Archive

structure Noted (g : Sizes) (made : ℕ) (files : List NewFile) (t : Tool) : Prop where
  root : inodeAt t.bytes g 0 = Inode.decode (rootNode g made).encode 0
  file : ∀ k (h : k < files.length), inodeAt t.bytes g (k + 1) =
    Inode.decode (currentNode files[k] (blockNumber g files k h)).encode 0
  small : ∀ f ∈ files, f.size ≤ 4096

structure Formatted (g : Sizes) (A : Archive) (t : Tool) : Prop where
  held : Held g A.files t
  noted : Noted g A.made A.files t
  unused : Unused g A.files t.bytes

namespace Inode

variable {n : Inode}

theorem decode_encode_mode : (Inode.decode n.encode 0).mode = n.mode % 2 ^ 32 := word_members 3

end Inode

variable {g : Sizes} {A : Archive} {files : List NewFile} {f : NewFile} {t t' : Tool}
  {s w : ℕ → UInt8} {es : List Entry} {size off k n d p made : ℕ}

section Parts

theorem Inode.encode_decode (hk : k < 64) : (Inode.decode s off).encode k = s (off + k) := by
  have hword : ∀ i < 16, (Inode.decode s off).words.getD i 0 = word 4 s (off + 4 * i) := by
    intro i hi
    interval_cases i <;> rfl
  have hsum : off + 4 * (k / 4) + k % 4 = off + k := by omega
  rw [Inode.encode, hword _ (by omega), wordBytes_word (Nat.mod_lt _ (by decide)), hsum]

theorem SuperBlock.encode_decode (hk : k < 24) :
    (SuperBlock.decode s off).encode k = s (off + k) := by
  have hword : ∀ i < 6, (SuperBlock.decode s off).words.getD i 0 = word 4 s (off + 4 * i) := by
    intro i hi
    interval_cases i <;> rfl
  have hsum : off + 4 * (k / 4) + k % 4 = off + k := by omega
  rw [SuperBlock.encode, hword _ (by omega), wordBytes_word (Nat.mod_lt _ (by decide)), hsum]

theorem slice_wordBytes_word : slice (wordBytes (word 4 w off)) 0 4 = slice w off 4 := by
  apply slice_congr
  intro k hk
  rw [Nat.zero_add, wordBytes_word hk]

theorem slice_append {m : ℕ} : slice w off m ++ slice w (off + m) n = slice w off (m + n) := by
  induction n with
  | zero => rw [slice_zero, List.append_nil, Nat.add_zero]
  | succ n ih => rw [slice_succ, ← List.append_assoc, ih, ← Nat.add_assoc, slice_succ,
    Nat.add_assoc]

theorem Entry.At.write {e : Entry} (h : e.At w off) :
    writeEntry (word 4 w off) e = slice w off e.length := by
  have hnumber : slice (wordBytes e.inode) 0 4 = slice w (off + 4) 4 := by
    rw [← h.inode, slice_wordBytes_word]
  have hlength : [UInt8.ofNat e.name.length] = slice w (off + 8) 1 := by
    rw [← h.size, UInt8.ofNat_toNat, slice_succ_left, slice_zero]
  have hname : e.name = slice w (off + 9) e.name.length := h.name.symm
  rw [writeEntry, slice_wordBytes_word, hnumber, hlength, slice_append, slice_append]
  conv_lhs => rw [hname]
  rw [slice_append]
  rfl

/-- The bytes of a directory block are those that its entries are written in. -/
theorem Listed.write (L : Listed w es) (h : k + n = es.length) :
    writeEntries (offsetOf es k) (es.drop k) = slice w (offsetOf es k) (extent (es.drop k)) := by
  induction n generalizing k with
  | zero =>
    have hnil : es.drop k = [] := List.drop_eq_nil_of_le (by omega)
    rw [hnil]
    rfl
  | succ n ih =>
    have hk : k < es.length := by omega
    have hext : extent (es[k] :: es.drop (k + 1)) = (es[k]).length + extent (es.drop (k + 1)) := by
      rw [extent, extent, List.map_cons, List.sum_cons]
    have hlink : (if (es.drop (k + 1)).isEmpty then 0 else offsetOf es k + (es[k]).length) =
        word 4 w (offsetOf es k) := by
      by_cases hlast : k + 1 < es.length
      · have hsome : (es.drop (k + 1)).isEmpty = false := by
          rw [List.isEmpty_eq_false_iff, ne_eq, List.drop_eq_nil_iff]
          omega
        rw [hsome, L.next k hlast, offsetOf_succ hk]
        rfl
      · have hnone : (es.drop (k + 1)).isEmpty = true := by
          rw [List.isEmpty_iff, List.drop_eq_nil_iff]
          omega
        have hlink := L.last
        rw [← (by omega : k = es.length - 1)] at hlink
        rw [hnone, hlink]
        rfl
    rw [List.drop_eq_getElem_cons hk, writeEntries, hlink, (L.entry k hk).write, ← offsetOf_succ hk,
      ih (by omega), hext, offsetOf_succ hk, slice_append]

/-- Which of the kept elements of a list is where in it. -/
theorem exists_of_getElem?_filter {α : Type} {q : α → Bool} {l : List α} {a : α}
    (h : (l.filter q)[d]? = some a) :
    ∃ k, ∃ hk : k < l.length, l[k] = a ∧ q a = true ∧ (l.take k).countP q = d := by
  induction l generalizing d with
  | nil => contradiction
  | cons b l ih =>
    by_cases hb : q b = true
    · rw [List.filter_cons_of_pos hb] at h
      cases d with
      | zero =>
        rw [List.getElem?_cons_zero] at h
        obtain rfl := Option.some.inj h
        exact ⟨0, Nat.succ_pos _, rfl, hb, rfl⟩
      | succ d =>
        obtain ⟨k, hk, hget, hq, hcount⟩ := ih h
        refine ⟨k + 1, Nat.succ_lt_succ hk, hget, hq, ?_⟩
        rw [List.take_succ_cons, List.countP_cons_of_pos hb, hcount]
    · rw [List.filter_cons_of_neg hb] at h
      obtain ⟨k, hk, hget, hq, hcount⟩ := ih h
      refine ⟨k + 1, Nat.succ_lt_succ hk, hget, hq, ?_⟩
      rw [List.take_succ_cons, List.countP_cons_of_neg hb, hcount]

end Parts

namespace Formatted

variable (F : Formatted g A t)

include F

theorem slot (hk : k < 64) (hn : 64 * n + k < 4096 * g.inodetableBlocksize) :
    t.bytes (4096 * (1 + 2 * g.freemapBlocksize) + 64 * n + k) = A.slotByte g n k := by
  have hbyte : t.bytes (4096 * (1 + 2 * g.freemapBlocksize) + 64 * n + k) =
      (inodeAt t.bytes g n).encode k :=
    (Inode.encode_decode hk).symm
  rw [Archive.slotByte, Archive.node]
  by_cases hroot : n = 0
  · subst hroot
    simp only [↓reduceIte]
    rw [hbyte, F.noted.root, Inode.encode_decode hk, Nat.zero_add]
  · by_cases hused : n - 1 < A.files.length
    · have hnode := F.noted.file (n - 1) hused
      rw [Nat.sub_add_cancel (Nat.one_le_iff_ne_zero.mpr hroot)] at hnode
      simp only [hroot, hused, ↓reduceIte, ↓reduceDIte]
      rw [hbyte, hnode, Inode.encode_decode hk, Nat.zero_add]
    · simp only [hroot, hused, ↓reduceIte, ↓reduceDIte]
      rw [Nat.add_assoc]
      exact F.unused.inodetable _ (by omega) hn

theorem directory (hk : k < 4096) :
    t.bytes (4096 * g.metadata + k) = (writeEntries 0 (entries A.files)).getD k unusedSpace := by
  have hwrite := F.held.image.listing.write (k := 0) (Nat.zero_add _)
  rw [List.drop_zero] at hwrite
  have hzero : offsetOf (entries A.files) 0 = 0 := rfl
  rw [hzero] at hwrite
  rw [hwrite]
  by_cases hlt : k < extent (entries A.files)
  · rw [List.getD_eq_getElem _ _ (by rwa [length_slice]), getElem_slice, Nat.zero_add]
  · rw [List.getD_eq_default _ _ (by rw [length_slice]; omega)]
    exact F.unused.directory k (by omega) hk

theorem block (hk : k < 4096) (hd : g.metadata + 1 + d < g.blockCount) :
    t.bytes (4096 * (g.metadata + 1 + d) + k) = A.blockByte d k := by
  rw [Archive.blockByte]
  cases hfile : (A.files.filter fun f ↦ 0 < f.size)[d]? with
  | none =>
    rw [List.getElem?_eq_none_iff, ← List.countP_eq_length_filter] at hfile
    have hfree : stored A.files ≤ d := hfile
    exact F.unused.blocks _ (by omega) (by omega)
  | some f =>
    obtain ⟨i, hi, rfl, hdata, rfl⟩ := exists_of_getElem?_filter hfile
    have hdata := of_decide_eq_true hdata
    have hnumber := blockNumber_eq (g := g) hi hdata
    rw [stored] at hnumber
    rw [← hnumber]
    exact F.held.image.data i hi hdata (F.held.blockNumber_lt hi hdata) k hk

/-- Every byte of the partition is given by the archive. -/
theorem bytes_eq (hk : k < 4096 * g.blockCount) : t.bytes k = A.bytes g k := by
  have I := F.held.image
  have hmeta : g.metadata = 1 + 2 * g.freemapBlocksize + g.inodetableBlocksize := rfl
  rw [Archive.bytes]
  by_cases hsuper : k < 4096
  · rw [if_pos hsuper]
    split_ifs with hwords
    · rw [← I.super, SuperBlock.encode_decode hwords, Nat.zero_add]
    · exact F.unused.super k (by omega) hsuper
  · rw [if_neg hsuper]
    by_cases hinodes : k < 4096 * (1 + g.freemapBlocksize)
    · rw [if_pos hinodes]
      apply byte_congr
      intro j hj
      have hplace : 8 * k + j = 32768 + (8 * (k - 4096) + j) := by omega
      rw [bit_ofBits, hplace]
      exact I.inodeMap _ (by omega)
    · rw [if_neg hinodes]
      by_cases hblocks : k < 4096 * (1 + 2 * g.freemapBlocksize)
      · rw [if_pos hblocks]
        apply byte_congr
        intro j hj
        have hplace : 8 * k + j =
            32768 * (1 + g.freemapBlocksize) +
            (8 * (k - 4096 * (1 + g.freemapBlocksize)) + j) := by omega
        rw [bit_ofBits, hplace]
        exact I.blockMap _ (by omega)
      · rw [if_neg hblocks]
        by_cases htable : k < 4096 * g.metadata
        · rw [if_pos htable, ← F.slot (Nat.mod_lt _ (by decide)) (by omega)]
          exact congrArg t.bytes (by omega)
        · rw [if_neg htable]
          by_cases hroot : k < 4096 * (g.metadata + 1)
          · rw [if_pos hroot, ← F.directory (by omega)]
            exact congrArg t.bytes (by omega)
          · rw [if_neg hroot, ← F.block (Nat.mod_lt _ (by decide)) (by omega)]
            exact congrArg t.bytes (by omega)

end Formatted

section Creating

variable (S : Sound g)

theorem linked_behind {last inode : ℕ} {name : List UInt8} (hlast : last + 4 ≤ off)
    (hk : off + 9 + name.length ≤ k) : linked w last off inode name k = w k := by
  have hne : k ≠ off + 8 := by omega
  rw [linked, splice_outside (by omega), update_of_ne hne, splice_outside (by omega),
    splice_outside (by omega), splice_outside (by omega)]

theorem created_behind (hinode : files.length + 1 < 32768 * g.freemapBlocksize)
    (hblock : freshBlock g files < 32768 * g.freemapBlocksize)
    (htable : files.length + 1 < 64 * g.inodetableBlocksize)
    (hk : 4096 * freshBlock g (files ++ [f]) ≤ k) :
    created g files f size s k = s k := by
  have hslot := slotOf_le htable
  have hmeta : 1 + 2 * g.freemapBlocksize ≤ g.metadata := Nat.le_add_right _ _
  rw [freshBlock, stored_append, ← Nat.add_assoc, ← freshBlock] at hk
  have hfresh : g.metadata + 1 ≤ freshBlock g files := Nat.le_add_right _ _
  rw [created]
  by_cases hdata : 0 < f.size
  · rw [if_pos hdata] at hk
    simp only [hdata, ↓reduceIte]
    rw [splice_outside (by omega), splice_outside (by omega), splice_outside (by omega),
      marked_of_ne (by omega) (by omega)]
  · rw [if_neg hdata] at hk
    simp only [hdata, ↓reduceIte]
    rw [splice_outside (by omega), splice_outside (by omega), marked_of_ne (by omega) (by omega)]

include S

theorem Noted.create (I : Image g files t) (htable : files.length + 1 < 64 * g.inodetableBlocksize)
    (N : Noted g made files t) (hsmall : f.size ≤ 4096) :
    Noted g made (files ++ [f])
      { t with bytes := created g files f t.size t.bytes, position := p } := by
  refine ⟨(I.inodeAt_created S htable (Nat.zero_le _)).trans N.root, fun k hk ↦ ?_, ?_⟩
  · rw [List.length_append, List.length_singleton] at hk
    rcases Nat.lt_succ_iff_lt_or_eq.mp hk with hlt | rfl
    · rw [blockNumber_append hlt, List.getElem_append_left hlt, ← N.file k hlt]
      exact I.inodeAt_created S htable (by omega)
    · rw [blockNumber_last, List.getElem_concat_length rfl]
      exact I.inodeAt_created_last S htable
  · intro a ha
    rcases List.mem_append.mp ha with ha | ha
    · exact N.small a ha
    · rwa [List.mem_singleton.mp ha]

theorem Unused.create (I : Image g files t) (htable : files.length + 1 < 64 * g.inodetableBlocksize)
    (U : Unused g files t.bytes) : Unused g (files ++ [f]) (created g files f t.size t.bytes) := by
  have hmap := S.mapped
  have hlen := I.length_le
  have hinode : files.length + 1 < 32768 * g.freemapBlocksize := by omega
  have hblock := I.freshBlock_lt S
  have hmeta : g.metadata = 1 + 2 * g.freemapBlocksize + g.inodetableBlocksize := rfl
  constructor
  · intro k hlow hhigh
    rw [created_head hhigh]
    exact U.super k hlow hhigh
  · intro k hlow hhigh
    rw [List.length_append, List.length_singleton] at hlow
    rw [created_table hinode hblock (by omega) (by omega) (by rw [slotOf]; omega)]
    exact U.inodetable k (by omega) hhigh
  · intro k hlow hhigh
    have hlast := I.listing.last_add_nine_le
    rw [entries_append, extent_append, Entry.length] at hlow
    simp only at hlow
    rw [created_root htable hhigh, rootLinked, linked_behind (by omega) (by omega)]
    exact U.directory k (by omega) hhigh
  · intro k hlow hhigh
    rw [← freshBlock] at hlow
    rw [created_behind hinode hblock htable hlow]
    apply U.blocks k _ hhigh
    rw [freshBlock, stored_append] at hlow
    omega

theorem noted_of_return (hsize : 4096 * g.blockCount ≤ t.size)
    (htable : 1 ≤ g.inodetableBlocksize) (hrun : (initializePartition g made).run t = .ok () t') :
    Noted g made [] t' := by
  obtain ⟨wi, wb, wn, wr, ws, p, hrun', W⟩ := initializePartition_written S hsize made
  rw [hrun] at hrun'
  cases hrun'
  exact ⟨W.inodeAt_zero S htable, fun k hk ↦ absurd hk (Nat.not_lt_zero k), fun f hf ↦
    absurd hf List.not_mem_nil⟩

theorem formatted_of_return (hsize : 4096 * g.blockCount ≤ t.size)
    (htable : 1 ≤ g.inodetableBlocksize)
    (hrun : (initializePartition g made).run t = .ok () t') : Formatted g ⟨made, []⟩ t' := by
  refine ⟨.nil S (image_of_return S hsize hrun), noted_of_return S hsize htable hrun, ?_⟩
  obtain ⟨wi, wb, wn, wr, ws, p, hrun', W⟩ := initializePartition_written S hsize made
  rw [hrun] at hrun'
  cases hrun'
  apply W.unused S
  intro k hk
  exact splice_inside (Nat.zero_le _) (by omega)

theorem Formatted.create (L : Laid g) (F : Formatted g A t) (D : Admissible g t f)
    (hfit : listingSize (A.files ++ [f]) ≤ 4096) :
    ∃ t', (createFile g f).run t = .ok () t' ∧ t'.size = t.size ∧
      Formatted g ⟨A.made, A.files ++ [f]⟩ t' := by
  have I := F.held.image
  have hslots := L.slots
  obtain ⟨t', hrun, H, -⟩ := F.held.create S L D (extent_add_le.mpr hfit)
  have hinodes := H.inodes
  rw [List.length_append, List.length_singleton] at hinodes
  obtain ⟨p, hrun'⟩ := createFile_run S I (by omega) D.small (extent_add_le.mpr hfit)
  rw [hrun] at hrun'
  cases hrun'
  exact ⟨_, hrun, rfl, H, F.noted.create S I (by omega) D.small, F.unused.create S I (by omega)⟩

theorem formatted_of_run {ls : List NewFile} (L : Laid g) (F : Formatted g A t)
    (hr : Run (CreateStep g) t ls t') : Formatted g ⟨A.made, A.files ++ ls⟩ t' := by
  refine hr.history (P := fun ks s ↦ Formatted g ⟨A.made, A.files ++ ks⟩ s) ?_
    (by rwa [List.append_nil])
  intro ks s f u Fs hstep
  rw [← List.append_assoc]
  obtain ⟨Hu, -⟩ := Fs.held.create_of_step S L hstep
  obtain ⟨u', hrun, -, Fu⟩ := Fs.create S L hstep.admissible Hu.listingSize_le
  rw [hstep.run] at hrun
  cases hrun
  exact Fu

end Creating

/-- After every run of the tool the archive gives every byte of the partition. -/
theorem bytes_of_run {t₁ t₂ : Tool} (h : 5 ≤ t.sizes.blockCount)
    (hcount : t.sizes.blockCount ≤ 2 ^ 20)
    (hinit : (initializePartition t.sizes made).run t = .ok () t₁)
    (hr : Run (CreateStep t.sizes) t₁ files t₂) (hk : k < 4096 * t.sizes.blockCount) :
    t₂.bytes k = (⟨made, files⟩ : Archive).bytes t.sizes k := by
  have S := t.sound h hcount
  have L := t.laid h hcount
  have hslots := L.slots
  have F := formatted_of_return S t.size_le (by omega) hinit
  exact (formatted_of_run S L F hr).bytes_eq hk

theorem bytes_of_run_sixBlocks : ∃ t₁ t₂,
    (initializePartition (zeroBlocks 6).sizes 0).run (zeroBlocks 6) = .ok () t₁ ∧
      (createFile (zeroBlocks 6).sizes ⟨[0x61], 1, 0⟩).run t₁ = .ok () t₂ ∧
      t₂.bytes (4096 * 5) = 0x41 := by
  have S := (zeroBlocks 6).sound (by decide) (by decide)
  obtain ⟨t₁, hinit, I⟩ := initializePartition_run S (zeroBlocks 6).size_le 0
  have D := admissible_sixBlocks hinit
  obtain ⟨t₂, hrun, -⟩ :=
    (Held.nil S I).create S (computeSizes_laid (by decide) (by decide)) D (by decide)
  have hbyte := bytes_of_run (t := zeroBlocks 6) (k := 4096 * 5) (by decide) (by decide) hinit
    (.cons ⟨D, hrun⟩ (.nil _)) (by decide)
  exact ⟨t₁, t₂, hinit, hrun, hbyte.trans (by decide)⟩

end GenericFs.Disktool
