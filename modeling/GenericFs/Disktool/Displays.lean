import GenericFs.Disktool.Agreement
import GenericFs.Disktool.Format
import GenericFs.Disktool.Menu

namespace GenericFs.Disktool

open Function GenericFs.Library Store Bitmap Returning Refining

def endPage (w : World) (perPage i : ℕ) : Dialog Bool :=
  if i % perPage = 0 then turnPage w else return false

/-- Items that are shown page by page, with `perPage` of them on a page, until the user has
enough; the result tells whether that is so. -/
def paged (w : World) (perPage : ℕ) (item : ℕ → List Call) : ℕ → ℕ → Dialog Bool
  | 0, _ => return false
  | turns + 1, i => do
    let quits ← endPage w perPage i
    if quits then return true
    else
      send (item i)
      paged w perPage item turns (i + 1)

/-- A window that has room for the pages. -/
structure World.Usable (w : World) : Prop where
  room : 3 ≤ w.lines
  short : w.lines < 2 ^ 15

def cellCalls (total : ℕ) (cells : ℕ → Bool) (n m : ℕ) : List Call :=
  (List.range (min m (total - n))).map fun i ↦ .text (if cells (n + i) then "X" else "-")

/-- The display of the eight cells from number `8 * j` on, with a header at each fourth time. -/
def mapItem (w : World) (total : ℕ) (cells : ℕ → Bool) (j : ℕ) : List Call :=
  (if j % 4 = 0 then mvprintw (1 + j % (4 * (w.lines - 2)) / 4) 1 s!"  {zeroPadded 9 (8 * j)}: "
    else [.text "  "]) ++ cellCalls total cells (8 * j) 8

def mapDisplay (w : World) (total : ℕ) (cells : ℕ → Bool) : Dialog Bool :=
  paged w (4 * (w.lines - 2)) (mapItem w total cells) ((total + 7) / 8) 0

def dumpItem (w : World) (workspace : Workspace) (i : ℕ) : List Call :=
  dumpLine (1 + i % (w.lines - 2)) (16 * i) workspace

def dumpDisplay (w : World) (workspace : Workspace) : Dialog Bool :=
  paged w (w.lines - 2) (dumpItem w workspace) 256 0

variable {w : World} {g : Sizes} {A : Archive} {t : Tool} {u : Terminal}
    {perPage m n i j k total row : ℕ}
  {item : ℕ → List Call} {cells : ℕ → Bool} {ws : Workspace}

section Paging

theorem send_run {calls : List Call} :
    (send calls).run u = .ok () { u with calls := u.calls ++ calls } := rfl

theorem paged_add : (paged w perPage item (m + n) i).run u = (do
    let quits ← paged w perPage item m i
    if quits then return true else paged w perPage item n (i + m)).run u := by
  induction m generalizing i u with
  | zero =>
    rw [Nat.zero_add, paged, pure_bind, Nat.add_zero]
    rfl
  | succ m ih =>
    have hsum : m + 1 + n = m + n + 1 := by omega
    have hnext : i + (m + 1) = i + 1 + m := by omega
    rw [hsum, hnext, paged, paged, EStateM.run_bind, bind_assoc, EStateM.run_bind]
    cases hq : (endPage w perPage i).run u with
    | error e u' => rfl
    | ok quits u' =>
      cases quits with
      | true => rfl
      | false =>
        simp only [Bool.false_eq_true, ↓reduceIte]
        rw [EStateM.run_bind, bind_assoc, EStateM.run_bind]
        cases hs : (send (item i)).run u' with
        | error e u'' => rfl
        | ok _ u'' => exact ih

theorem paged_congr {item' : ℕ → List Call} (h : ∀ k < n, item (i + k) = item' (i + k)) :
    (paged w perPage item n i).run u = (paged w perPage item' n i).run u := by
  induction n generalizing i u with
  | zero => rfl
  | succ n ih =>
    have hrest : ∀ k < n, item (i + 1 + k) = item' (i + 1 + k) := by
      intro k hk
      rw [Nat.add_assoc, Nat.add_comm 1 k]
      exact h (k + 1) (Nat.succ_lt_succ hk)
    have hitem : item i = item' i := h 0 (Nat.succ_pos n)
    rw [paged, paged, EStateM.run_bind, EStateM.run_bind]
    cases hq : (endPage w perPage i).run u with
    | error e u' => rfl
    | ok quits u' =>
      cases quits with
      | true => rfl
      | false =>
        simp only [Bool.false_eq_true, ↓reduceIte]
        rw [hitem, run_bind_ok send_run, run_bind_ok send_run]
        exact ih hrest

theorem period_eq (W : w.Usable) (hn : n ≤ 32) : period w n = n * (w.lines - 2) := by
  have hroom := W.room
  have hshort := W.short
  have hcast : (n : ℤ) * ((w.lines : ℤ) - 2) = ((n * (w.lines - 2) : ℕ) : ℤ) := by
    rw [Nat.cast_mul, Nat.cast_sub (by omega)]
    rfl
  have hlt : n * (w.lines - 2) < 2 ^ 32 := by
    calc n * (w.lines - 2) ≤ 32 * (w.lines - 2) := Nat.mul_le_mul_right _ hn
      _ < 2 ^ 32 := by omega
  rw [period, hcast]
  generalize n * (w.lines - 2) = x at hlt ⊢
  omega

theorem mod_period (W : w.Usable) (hm : 0 < m) (hn : m * n ≤ 32) :
    m * i % period w (m * n) = 0 ↔ i % (n * (w.lines - 2)) = 0 := by
  rw [period_eq W hn, Nat.mul_assoc, Nat.mul_mod_mul_left]
  simp only [Nat.mul_eq_zero, hm.ne', false_or]

theorem pause_eq (W : w.Usable) (hm : 0 < m) (hn : 0 < n) (hmn : m * n ≤ 32) :
    pause w (m * n) (m * i) = endPage w (n * (w.lines - 2)) i := by
  have hroom := W.room
  have hpos : period w (m * n) ≠ 0 := by
    rw [period_eq W hmn]
    exact Nat.mul_ne_zero (Nat.mul_ne_zero hm.ne' hn.ne') (by omega)
  rw [pause, if_neg hpos, endPage]
  simp only [mod_period W hm hmn]

end Paging

section Cells

theorem cellCalls_succ (hn : n < total) : cellCalls total cells n (m + 1) =
    .text (if cells n then "X" else "-") :: cellCalls total cells (n + 1) m := by
  have hmin : min (m + 1) (total - n) = min m (total - (n + 1)) + 1 := by omega
  rw [cellCalls, hmin, List.range_succ_eq_map, List.map_cons, List.map_map, cellCalls]
  congr 1
  apply List.map_congr_left
  intro a _
  simp only [comp_apply, Nat.succ_eq_add_one, Nat.add_assoc, Nat.add_comm 1 a]

/-- The bits of a byte are shown as cells. -/
theorem showBits_run {byte : UInt8} (hi : i + m = 8) (hn : n < total) (htotal : total < 2 ^ 32)
    (hbits : ∀ a < m, byte.toNat.testBit (i + a) = cells (n + a)) :
    (showBits total byte m i n).run u = .ok (if n + m < total then some (n + m) else none)
      { u with calls := u.calls ++ cellCalls total cells n m } := by
  induction m generalizing i n u with
  | zero =>
    rw [showBits, Nat.add_zero, if_pos hn]
    simp [cellCalls, EStateM.run_pure]
  | succ m ih =>
    have hbit : byte &&& UInt8.ofNat (1 <<< i) ≠ 0 ↔ cells n = true := by
      have hfirst := hbits 0 (by omega)
      rw [Nat.add_zero, Nat.add_zero] at hfirst
      rw [← hfirst]
      exact and_mask_ne_zero (by omega)
    have hword : (n + 1) % 2 ^ 32 = n + 1 := Nat.mod_eq_of_lt (by omega)
    have hsend :
        (send [.text (if byte &&& UInt8.ofNat (1 <<< i) ≠ 0 then "X" else "-")]).run u = .ok ()
        { u with calls := u.calls ++ [.text (if cells n then "X" else "-")] } := by
      simp only [hbit]
      rfl
    rw [showBits, run_bind_ok hsend, hword, cellCalls_succ hn]
    by_cases hend : n + 1 = total
    · have hlast : ¬n + (m + 1) < total := by omega
      have hnone : cellCalls total cells (n + 1) m = [] := by
        rw [cellCalls, hend, Nat.sub_self, Nat.min_zero]
        rfl
      rw [if_pos hend, if_neg hlast, hnone]
      rfl
    · have hsum : n + (m + 1) = n + 1 + m := by omega
      have hrest := ih (u := { u with calls := u.calls ++ [.text (if cells n then "X" else "-")] })
        (i := i + 1) (n := n + 1) (by omega) (by omega) (fun a ha ↦ by
          have h := hbits (a + 1) (by omega)
          rwa [← Nat.add_assoc, Nat.add_right_comm, ← Nat.add_assoc, Nat.add_right_comm n] at h)
      rw [if_neg hend, hrest, hsum]
      simp only [List.append_assoc, List.cons_append, List.nil_append]

theorem succ_mod {d : ℕ} (h : (j + 1) % d ≠ 0) : (j + 1) % d = j % d + 1 := by
  have hdiv : j + 1 = d * (j / d) + (j % d + 1) := by rw [← Nat.add_assoc, Nat.div_add_mod]
  rcases Nat.eq_zero_or_pos d with rfl | hd
  · rw [Nat.mod_zero, Nat.mod_zero]
  · have hle : j % d + 1 ≤ d := Nat.mod_lt j hd
    rw [hdiv, Nat.mul_add_mod] at h ⊢
    rcases hle.lt_or_eq with hlt | heq
    · exact Nat.mod_eq_of_lt hlt
    · rw [heq, Nat.mod_self] at h
      contradiction

/-- The row behind the first `j` bytes of a map, unless a page ends there. -/
def RowAt (w : World) (j row : ℕ) : Prop :=
  j % (4 * (w.lines - 2)) ≠ 0 → row = 1 + (j % (4 * (w.lines - 2)) + 3) / 4

theorem RowAt.header (h : RowAt w j row) (hj : j % 4 = 0) :
    (if j % (4 * (w.lines - 2)) = 0 then 1 else row) = 1 + j % (4 * (w.lines - 2)) / 4 := by
  have hfour : j % (4 * (w.lines - 2)) % 4 = 0 := by rw [Nat.mod_mul_right_mod, hj]
  split_ifs with hpage
  · rw [hpage]
  · rw [h hpage]
    omega

theorem RowAt.next (h : RowAt w j row) :
    RowAt w (j + 1) (if j % 4 = 0 then (if j % (4 * (w.lines - 2)) = 0 then 1 else row) + 1
      else if j % (4 * (w.lines - 2)) = 0 then 1 else row) := by
  intro hnext
  have hfour : j % (4 * (w.lines - 2)) % 4 = j % 4 := Nat.mod_mul_right_mod ..
  rw [succ_mod hnext]
  by_cases hj : j % 4 = 0
  · rw [if_pos hj, h.header hj]
    omega
  · have hpage : j % (4 * (w.lines - 2)) ≠ 0 := by omega
    rw [if_neg hj, if_neg hpage, h hpage]
    omega

/-- The bytes of a block are shown as a part of the pages of the map. -/
theorem showBytes_run (W : w.Usable) (htotal : total < 2 ^ 32) (hj : 8 * j < total)
    (hoff : n % 4 = j % 4)
    (hrow : RowAt w j row) (hbits : ∀ a < 8 * m, bit ws (8 * n + a) = cells (8 * j + a)) :
    ∃ row', RowAt w (j + m) row' ∧ ∀ u, (showBytes w total ws m n row (8 * j)).run u = (do
      let quits ← paged w (4 * (w.lines - 2)) (mapItem w total cells)
        (min m ((total + 7) / 8 - j)) j
      return if quits then none
        else if 8 * (j + m) < total then some (row', 8 * (j + m)) else none).run u := by
  induction m generalizing j n row with
  | zero =>
    refine ⟨row, hrow, fun u ↦ ?_⟩
    rw [showBytes, Nat.zero_min, paged, pure_bind, Nat.add_zero, if_pos hj]
    rfl
  | succ m ih =>
    have hmin :
        min (m + 1) ((total + 7) / 8 - j) = min m ((total + 7) / 8 - (j + 1)) + 1 := by omega
    have hsum : j + (m + 1) = j + 1 + m := by omega
    have hpause : pause w 32 (8 * j) = endPage w (4 * (w.lines - 2)) j :=
      pause_eq (m := 8) (n := 4) W (by decide) (by decide) (by decide)
    have hturned : 8 * j % period w 32 = 0 ↔ j % (4 * (w.lines - 2)) = 0 :=
      mod_period (m := 8) (n := 4) W (by decide) (by decide)
    have hshow :
        ∀ u, (showBits total (ws n) 8 0 (8 * j)).run u = .ok
        (if 8 * j + 8 < total then some (8 * j + 8) else none)
        { u with calls := u.calls ++ cellCalls total cells (8 * j) 8 } := by
      intro u
      apply showBits_run rfl hj htotal
      intro a ha
      have hdiv : (8 * n + a) / 8 = n := by omega
      have hmod : (8 * n + a) % 8 = a := by omega
      rw [← hbits a (by omega), bit, hdiv, hmod, Nat.zero_add]
    -- what both sides do with the byte, unless the user has enough
    have hstep : ∀ {β : Type} (f : Option ℕ → Dialog β) u, (do
        send (if n % 4 = 0 then mvprintw (if j % (4 * (w.lines - 2)) = 0 then 1 else row) 1
          s!"  {zeroPadded 9 (8 * j)}: " else [.text "  "])
        let counter ← showBits total (ws n) 8 0 (8 * j)
        f counter).run u = (do
        send (mapItem w total cells j)
        f (if 8 * j + 8 < total then some (8 * j + 8) else none)).run u := by
      intro β f u
      rw [run_bind_ok send_run, run_bind_ok (hshow _), run_bind_ok send_run, mapItem, hoff]
      by_cases hheader : j % 4 = 0
      · simp only [hheader, ↓reduceIte, hrow.header hheader, List.append_assoc]
      · simp only [hheader, ↓reduceIte, List.append_assoc]
    by_cases hend : 8 * (j + 1) < total
    · have hbits' : ∀ a < 8 * m, bit ws (8 * (n + 1) + a) = cells (8 * (j + 1) + a) := by
        intro a ha
        have h := hbits (8 + a) (by omega)
        rwa [← Nat.add_assoc, ← Nat.add_assoc, ← Nat.mul_succ, ← Nat.mul_succ] at h
      obtain ⟨row', hrow', hrest⟩ := ih (n := n + 1) hend (by omega) hrow.next hbits'
      refine ⟨row', hsum ▸ hrow', fun u ↦ ?_⟩
      rw [showBytes, hmin, paged, hpause, bind_assoc, EStateM.run_bind, EStateM.run_bind]
      cases hq : (endPage w (4 * (w.lines - 2)) j).run u with
      | error e u' => rfl
      | ok quits u' =>
        cases quits with
        | true => rfl
        | false =>
          simp only [hturned, Bool.false_eq_true, ↓reduceIte]
          have hcounter : 8 * j + 8 < total := by omega
          rw [hstep, if_pos hcounter, bind_assoc, run_bind_ok send_run, run_bind_ok send_run, hsum]
          simp only [hoff]
          exact hrest _
    · have hrest : (total + 7) / 8 - (j + 1) = 0 := by omega
      refine ⟨_, fun _ ↦ rfl, fun u ↦ ?_⟩
      rw [showBytes, hmin, hrest, Nat.min_zero, paged, hpause, bind_assoc, EStateM.run_bind,
        EStateM.run_bind]
      cases hq : (endPage w (4 * (w.lines - 2)) j).run u with
      | error e u' => rfl
      | ok quits u' =>
        cases quits with
        | true => rfl
        | false =>
          simp only [hturned, Bool.false_eq_true, ↓reduceIte]
          have hcounter : ¬8 * j + 8 < total := by omega
          have hcounter' : ¬8 * (j + (m + 1)) < total := by omega
          rw [hstep, if_neg hcounter, bind_assoc, run_bind_ok send_run, run_bind_ok send_run, paged,
            if_neg hcounter']
          rfl

end Cells

/-- The lines of a block are shown as pages. -/
theorem showLines_run (W : w.Usable) (hrow : i % (w.lines - 2) ≠ 0 → row = 1 + i % (w.lines - 2)) :
    (showLines w ws m (16 * i) row).run u = (do
      let _ ← paged w (w.lines - 2) (dumpItem w ws) m i
      return ()).run u := by
  induction m generalizing i row u with
  | zero => rfl
  | succ m ih =>
    have hpause := pause_eq (m := 16) (n := 1) (i := i) W (by decide) (by decide) (by decide)
    have hturned := mod_period (m := 16) (n := 1) (i := i) W (by decide) (by decide)
    rw [Nat.mul_one, Nat.one_mul] at hpause hturned
    have hline : (if i % (w.lines - 2) = 0 then 1 else row) = 1 + i % (w.lines - 2) := by
      split_ifs with hpage
      · rw [hpage]
      · exact hrow hpage
    rw [showLines, paged, hpause, bind_assoc, EStateM.run_bind, EStateM.run_bind]
    cases hq : (endPage w (w.lines - 2) i).run u with
    | error e u' => rfl
    | ok quits u' =>
      cases quits with
      | true => rfl
      | false =>
        simp only [hturned, Bool.false_eq_true, ↓reduceIte]
        rw [hline, ← dumpItem, bind_assoc, run_bind_ok send_run, run_bind_ok send_run,
          ← Nat.mul_succ]
        apply ih
        intro hnext
        rw [succ_mod hnext, Nat.add_assoc]

theorem dumpItem_congr {ws' : Workspace} (h : ∀ a < 16, ws (16 * i + a) = ws' (16 * i + a)) :
    dumpItem w ws i = dumpItem w ws' i := by
  have hhex : ((List.range 16).flatMap fun a ↦ (if a % 8 = 0 then [Call.text " "] else []) ++
      [.text (padded '0' 2 (hexadecimal (ws (16 * i + a)).toNat) ++ " ")]) =
      (List.range 16).flatMap fun a ↦
        (if a % 8 = 0 then [Call.text " "] else []) ++
          [.text (padded '0' 2 (hexadecimal (ws' (16 * i + a)).toNat) ++ " ")] := by
    apply List.flatMap_congr
    intro a ha
    rw [h a (List.mem_range.mp ha)]
  rw [dumpItem, dumpItem, dumpLine, dumpLine, hhex, slice_congr h]

section Verdicts

variable {files : List NewFile} {c : Counters} {t₀ t' : Tool}

/-- Nothing was printed but reports of inconsistencies. -/
def OnlyReports (t₀ t : Tool) : Prop := ∃ ms, t.screen = t₀.screen ++ ms ∧ ∀ m ∈ ms, m.Inconsistent

theorem OnlyReports.stable_print {m : Message} (hm : m.Inconsistent) :
    Stable (OnlyReports t₀) (print m) := by
  apply Stable.modify
  rintro t ⟨ms, hscreen, hms⟩
  refine ⟨ms ++ [m], ?_, fun a ha ↦ ?_⟩
  · rw [hscreen, List.append_assoc]
  · rcases List.mem_append.mp ha with ha | ha
    · exact hms a ha
    · rwa [List.mem_singleton.mp ha]

theorem OnlyReports.stable_read : Stable (OnlyReports t₀) (read ws n) := by
  apply Stable.get_bind
  intro t ht
  apply Stable.ite
  · exact Stable.bind (.modify fun _ _ ↦ ht) fun _ ↦ .pure _
  · exact .throw _

theorem OnlyReports.stable_checkCounters : Stable (OnlyReports t₀) (checkCounters c m i) := by
  induction m generalizing i with
  | zero => exact .pure _
  | succ m ih =>
    apply Stable.ite
    · exact (OnlyReports.stable_print (m := .usedMultipleTimes i (c i)) trivial).bind fun _ ↦ ih
    · exact ih

theorem OnlyReports.stable_checkBlockFreemap : Stable (OnlyReports t₀) (checkBlockFreemap g c) := by
  refine Stable.bind (m := lseek (address (1 + g.freemapBlocksize)))
    (.modify fun _ h ↦ h) fun _ ↦ ?_
  apply Stable.forBlocks
  · intro n b _
    have hallocated : Stable (OnlyReports t₀) (print (.allocatedNotUsed n)) :=
      OnlyReports.stable_print trivial
    have hunallocated : Stable (OnlyReports t₀) (print (.unallocatedInUse n)) :=
      OnlyReports.stable_print trivial
    exact .ite (.ite hallocated (.pure _)) (.ite hunallocated (.pure _))
  · exact fun _ ↦ OnlyReports.stable_read

theorem inodeMessages_eq (L : Laid g) (H : Held g files t) :
    inodeMessages t.bytes g.blockCount = (List.range (files.length + 1)).map .inode := by
  have hmap := L.mapped
  have hinodes := H.inodes
  have hused : ∀ n, n ≤ files.length + 1 → inodeMessages t.bytes n = (List.range n).map .inode := by
    intro n hn
    induction n with
    | zero => rfl
    | succ n ih =>
      have hbit : inodeBit t.bytes n = true := by
        rw [H.image.inodeMap n (by omega)]
        exact decide_eq_true (by omega)
      rw [inodeMessages_succ, hbit, ih (by omega), List.range_succ, List.map_append]
      rfl
  have hfree : ∀ n, files.length + 1 ≤ n → n ≤ g.blockCount →
      inodeMessages t.bytes n = inodeMessages t.bytes (files.length + 1) := by
    intro n hn
    induction n, hn using Nat.le_induction with
    | base => exact fun _ ↦ rfl
    | succ n hle ih =>
      intro hlt
      have hbit : inodeBit t.bytes n = false := by
        rw [H.image.inodeMap n (by omega)]
        exact decide_eq_false (by omega)
      rw [inodeMessages_succ, hbit, ih (by omega)]
      exact List.append_nil _
  rw [hfree _ hinodes le_rfl, hused _ le_rfl]

/-- The checker lists the inodes in use and reports nothing else. -/
theorem verify_screen (L : Laid g) (H : Held g files t) :
    ∃ t', (verifyFileSystem g true).run t = .ok () t' ∧
    Kept t t' ∧ t'.screen = (List.range (files.length + 1)).map .inode := by
  have hmeets : ∀ a ∈ references t.bytes g g.blockCount, a < g.blockCount := by
    intro a ha
    have hblocks := H.blocks
    rw [H.references_eq L, List.mem_range'_1] at ha
    rw [freshBlock] at hblocks
    omega
  have hrefs : ∀ b, refs t.bytes g b < 2 ^ 32 := by
    intro b
    rw [H.refs_eq L]
    split_ifs <;> decide
  obtain ⟨_, t₃, hrun, hkept, hquiet⟩ := verifyFileSystem_returns L H.image.size hmeets hrefs
  refine ⟨t₃, hrun, hkept, ?_⟩
  have hquiet := hquiet.mpr (H.accounted L)
  rw [verifyFileSystem] at hrun
  obtain ⟨_, t₀, hclear, hrun⟩ := exists_of_run_bind hrun
  cases hclear
  simp only [↓reduceIte] at hrun
  obtain ⟨c, t₀, hinit, hrun⟩ := exists_of_run_bind hrun
  have hmeta := L.metadata
  have hsmall := L.small
  have hword : (1 + 2 * g.freemapBlocksize + g.inodetableBlocksize) % 2 ^ 32 =
      1 + 2 * g.freemapBlocksize + g.inodetableBlocksize := by omega
  rw [initializeCounters, hword, preallocate_run (by omega)] at hinit
  cases hinit
  obtain ⟨c, t₁, hscan, hrun⟩ := exists_of_run_bind hrun
  obtain ⟨_, _, hscan', -, -, hscreen⟩ :=
    scanInodes_returns (t := { t with screen := [] }) L H.image.size hmeets
  rw [hscan] at hscan'
  cases hscan'
  obtain ⟨_, t₂, hcounters, hmap⟩ := exists_of_run_bind hrun
  have hnone :
      OnlyReports t₁ t₁ := ⟨[], (List.append_nil _).symm, fun m hm ↦ absurd hm List.not_mem_nil⟩
  have hreports := (OnlyReports.stable_checkCounters t₁ hnone).1 _ _ hcounters
  obtain ⟨ms, hms, hall⟩ := (OnlyReports.stable_checkBlockFreemap t₂ hreports).1 _ _ hmap
  have hsilent : ms = [] := by
    apply List.eq_nil_iff_forall_not_mem.mpr
    intro m hm
    exact hquiet m (hms ▸ List.mem_append_right _ hm) (hall m hm)
  rw [hms, hsilent, List.append_nil, hscreen]
  exact inodeMessages_eq (t := t) L H

end Verdicts

end GenericFs.Disktool
