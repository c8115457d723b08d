import GenericFs.Fat.Receiving
import GenericFs.Fat.Runs

namespace GenericFs.Fat

open GenericFs.Library Machine Function FileSystem

def visited : FileSystem → List (Call × Outcome) → List FileSystem
  | fs, [] => [fs]
  | fs, l :: ls => fs :: visited (l.1.reply fs).2 ls

def reportOf : Call × Outcome → Option DirectoryInfo
  | (.nextDir, .ok (.entry info)) => info
  | _ => none

def reports : FileSystem → List (Call × Outcome) → List (FileSystem × DirectoryInfo)
  | _, [] => []
  | fs, l :: ls =>
    match reportOf l with
    | some info => (fs, info) :: reports (l.1.reply fs).2 ls
    | none => reports (l.1.reply fs).2 ls

/-- A report of the file in a slot: its name and its size at that moment. -/
structure Reports (i : Fin dirSize) (r : FileSystem × DirectoryInfo) : Prop where
  inUse : (r.1.rootDirectory i).inUse ≠ 0
  name : r.2.name = (r.1.rootDirectory i).nameBytes
  size : r.2.size = (r.1.rootDirectory i).size

/-- The slots of a scan in the order of its reports: no slot comes twice, and every
slot comes that is in use in every state. -/
structure Scanned (fs : FileSystem) (ls : List (Call × Outcome))
    (slots : List (Fin dirSize)) : Prop where
  reports : List.Forall₂ Reports slots (reports fs ls)
  increasing : slots.Pairwise (· < ·)
  all : ∀ i, (∀ s ∈ visited fs ls, (s.rootDirectory i).inUse ≠ 0) → slots.count i = 1

/-- What a scan relies on in every state. -/
structure Scannable (fs : FileSystem) (chain : Fin dirSize → List ℕ) : Prop where
  consistent : Consistent fs chain
  solo : Solo fs
  named : fs.rootDirectory.NamesEnd

variable {fs fs' : FileSystem} {chain chain' : Fin dirSize → List ℕ} {c : Call} {o : Outcome}
  {l : Call × Outcome} {ls : List (Call × Outcome)} {i j : Fin dirSize} {name : CString}
  {slots : List (Fin dirSize)} {r : FileSystem × DirectoryInfo} {info : DirectoryInfo}

theorem Effect.named (E : Effect fs chain c o fs' chain') (hc : c ≠ .format)
    (N : fs.rootDirectory.NamesEnd) : fs'.rootDirectory.NamesEnd := by
  rcases E.names hc with I | ⟨i, name, G⟩
  · exact I.namesEnd N
  · exact G.namesEnd N

theorem Effect.differ (E : Effect fs chain c o fs' chain') (hc : c ≠ .format)
    (N : fs.rootDirectory.NamesDiffer) : fs'.rootDirectory.NamesDiffer := by
  rcases E.names hc with I | ⟨i, name, G⟩
  · exact I.namesDiffer N
  · exact G.namesDiffer N

theorem Effect.scanIndex (E : Effect fs chain c o fs' chain') (hc : c ≠ .openDir ∧ c ≠ .nextDir) :
    fs'.scanIndex = fs.scanIndex := by
  cases E with
  | dirOpened => exact absurd rfl hc.1
  | dirEntry | dirEnd => exact absurd rfl hc.2
  | write h r fs' ws hh hm hcount hr A hws => exact A.scan
  | _ => rfl

theorem Scannable.step (A : Scannable fs chain) (hs : PoliteStep fs l fs') (hc : l.1 ≠ .format) :
    ∃ chain', Effect fs chain l.1 l.2 fs' chain' ∧ Scannable fs' chain' := by
  obtain ⟨chain', E⟩ := step_effect A.consistent A.solo hs.1 (fun _ ↦ A.named) hs.2
  exact ⟨chain', E, E.consistent A.consistent, E.solo A.consistent A.solo, E.named hc A.named⟩

theorem PoliteStep.next (hs : PoliteStep fs l fs') : (l.1.reply fs).2 = fs' := by
  rw [hs.2]

theorem visited_cons (hs : PoliteStep fs l fs') : visited fs (l :: ls) = fs :: visited fs' ls := by
  rw [visited, hs.next]

theorem reports_some (hs : PoliteStep fs l fs') (hl : reportOf l = some info) :
    reports fs (l :: ls) = (fs, info) :: reports fs' ls := by
  simp only [reports, hl, hs.next]

theorem reports_none (hs : PoliteStep fs l fs') (hl : reportOf l = none) :
    reports fs (l :: ls) = reports fs' ls := by
  simp only [reports, hl, hs.next]

theorem reportOf_eq_none (hl : l.1 ≠ .nextDir) : reportOf l = none := by
  obtain ⟨c, o⟩ := l
  cases c with
  | nextDir => exact absurd rfl hl
  | _ => rfl

/-- From a state on the scan reports slots from its place on, in order, and all of
them that stay in use until it finds nothing more. -/
theorem scan_rest (A : Scannable fs chain)
    (hr : Run PoliteStep fs (ls ++ [(.nextDir, .ok (.entry none))]) fs')
    (hls : ∀ l ∈ ls, l.1 ≠ .format ∧ l.1 ≠ .openDir) : ∃ slots : List (Fin dirSize),
    List.Forall₂ Reports slots (reports fs (ls ++ [(.nextDir, .ok (.entry none))])) ∧
      slots.Pairwise (· < ·) ∧ (∀ i ∈ slots, fs.scanIndex ≤ i) ∧
      ∀ i : Fin dirSize, fs.scanIndex ≤ i →
        (∀ s ∈ visited fs (ls ++ [(.nextDir, .ok (.entry none))]), (s.rootDirectory i).inUse ≠ 0) →
        i ∈ slots := by
  induction ls generalizing fs chain with
  | nil =>
    cases hr with
    | cons hs _ =>
      obtain ⟨chain', E, -⟩ := A.step hs nofun
      refine ⟨[], by rw [List.nil_append, reports_none hs rfl]; exact .nil, .nil, by simp, ?_⟩
      intro i hi huse
      cases E with
      | dirEnd hskip => exact absurd (hskip i hi) (huse _ (by rw [List.nil_append, visited]; simp))
  | cons l ls ih =>
    rw [List.cons_append] at hr ⊢
    cases hr with
    | cons hs hrest =>
      have hl := hls l List.mem_cons_self
      obtain ⟨chain', E, A'⟩ := A.step hs hl.1
      obtain ⟨slots, hreports, hlt, hfrom, hall⟩ :=
        ih A' hrest fun x hx ↦ hls x (List.mem_cons_of_mem _ hx)
      rw [visited_cons hs]
      by_cases hnext : l.1 = .nextDir
      · obtain ⟨c, o⟩ := l
        obtain rfl : c = .nextDir := hnext
        cases E with
        | dirEntry i hi hu hskip =>
          have hafter : ∀ k ∈ slots, i < k := fun k hk ↦ hfrom k hk
          refine ⟨i :: slots, ?_, List.pairwise_cons.mpr ⟨hafter, hlt⟩, ?_, fun k hk huse ↦ ?_⟩
          · rw [reports_some hs rfl]
            exact .cons ⟨hu, rfl, rfl⟩ hreports
          · exact List.forall_mem_cons.mpr ⟨hi, fun k hk ↦ hi.trans (hafter k hk).le⟩
          · rw [List.forall_mem_cons] at huse
            rcases lt_trichotomy k i with hki | rfl | hik
            · exact absurd (hskip k hk hki) huse.1
            · exact List.mem_cons_self
            · exact List.mem_cons_of_mem _ (hall k hik huse.2)
        | notThere hc => rcases hc with hc | hc <;> cases hc
        | dirEnd hskip =>
          refine ⟨slots, by rw [reports_none hs rfl]; exact hreports, hlt, fun k hk ↦
            ?_, fun k hk huse ↦ ?_⟩
          · exact (le_max_left _ _).trans (hfrom k hk)
          · exact absurd (hskip k hk) (huse _ List.mem_cons_self)
      · rw [E.scanIndex ⟨hl.2, hnext⟩] at hfrom hall
        rw [reports_none hs (reportOf_eq_none hnext)]
        exact ⟨slots, hreports, hlt, hfrom, fun k hk huse ↦
          hall k hk (List.forall_mem_cons.mp huse).2⟩

def scanLabels (ls : List (Call × Outcome)) : List (Call × Outcome) :=
  (.openDir, .ok .unit) :: (ls ++ [(.nextDir, .ok (.entry none))])

theorem scanLabels_ne_format (hls : ∀ l ∈ ls, l.1 ≠ .format ∧ l.1 ≠ .openDir) :
    ∀ l ∈ scanLabels ls, l.1 ≠ .format := by
  intro l hl
  simp only [scanLabels, List.mem_cons, List.mem_append, List.not_mem_nil, or_false] at hl
  rcases hl with rfl | hl | rfl
  · nofun
  · exact (hls l hl).1
  · nofun

theorem scan_all (A : Scannable fs chain) (hr : Run PoliteStep fs (scanLabels ls) fs')
    (hls : ∀ l ∈ ls, l.1 ≠ .format ∧ l.1 ≠ .openDir) :
    ∃ slots, Scanned fs (scanLabels ls) slots := by
  rw [scanLabels] at hr ⊢
  cases hr with
  | cons hs hrest =>
    obtain ⟨chain', E, A'⟩ := A.step hs nofun
    obtain ⟨slots, hreports, hlt, -, hall⟩ := scan_rest A' hrest hls
    have hstart : ∀ i : Fin dirSize, (Call.reply .openDir fs).2.scanIndex ≤ i.val :=
      fun i ↦ Nat.zero_le i
    rw [hs.next] at hstart
    refine ⟨slots, by rw [reports_none hs rfl]; exact hreports, hlt, fun i huse ↦ ?_⟩
    rw [visited_cons hs] at huse
    exact List.count_eq_one_of_mem hlt.nodup (hall i (hstart i) (List.forall_mem_cons.mp huse).2)

section Names

theorem visited_differ (A : Scannable fs chain) (N : fs.rootDirectory.NamesDiffer)
    (hr : Run PoliteStep fs ls fs') (hls : ∀ l ∈ ls, l.1 ≠ .format) :
    ∀ s ∈ visited fs ls, s.rootDirectory.NamesDiffer := by
  induction hr generalizing chain with
  | nil fs =>
    rw [visited]
    exact List.forall_mem_singleton.mpr N
  | cons hs _ ih =>
    obtain ⟨chain', E, A'⟩ := A.step hs (hls _ List.mem_cons_self)
    rw [visited_cons hs]
    exact List.forall_mem_cons.mpr ⟨N, ih A' (E.differ (hls _ List.mem_cons_self) N)
      fun x hx ↦ hls x (List.mem_cons_of_mem _ hx)⟩

/-- A name that is still there is still in the same slot. -/
theorem Effect.holds (E : Effect fs chain c o fs' chain') (hc : c ≠ .format)
    (N : fs.rootDirectory.NamesDiffer) (hi : fs.rootDirectory.Holds i name)
    (hl : fs'.rootDirectory.lookup name ≠ none) : fs'.rootDirectory.Holds i name := by
  rcases E.names hc with I | ⟨k, x, G⟩
  · obtain ⟨j, hj⟩ := Option.ne_none_iff_exists'.mp hl
    have H := Directory.holds_of_lookup hj
    have hname : (fs.rootDirectory j).nameBytes = name.bytes := (I.nameBytes H.1).symm.trans H.2
    obtain rfl := N i j hi.1 (I j H.1).1 (hi.2.trans hname.symm)
    exact H
  · have hik : i ≠ k := by
      rintro rfl
      exact hi.1 G.free
    rw [Directory.Holds, G.others i hik]
    exact hi

theorem visited_holds (A : Scannable fs chain) (N : fs.rootDirectory.NamesDiffer)
    (hr : Run PoliteStep fs ls fs') (hls : ∀ l ∈ ls, l.1 ≠ .format)
    (hi : fs.rootDirectory.Holds i name)
    (hl : ∀ s ∈ visited fs ls, s.rootDirectory.lookup name ≠ none) :
    ∀ s ∈ visited fs ls, s.rootDirectory.Holds i name := by
  induction hr generalizing chain with
  | nil fs =>
    rw [visited]
    exact List.forall_mem_singleton.mpr hi
  | @cons s t u l ls hs hr ih =>
    have hne := hls l List.mem_cons_self
    obtain ⟨chain', E, A'⟩ := A.step hs hne
    rw [visited_cons hs] at hl ⊢
    have hlt := (List.forall_mem_cons.mp hl).2
    have ht : t ∈ visited t ls := by
      cases ls <;> exact List.mem_cons_self
    exact List.forall_mem_cons.mpr ⟨hi, ih A' (E.differ hne N)
      (fun x hx ↦ hls x (List.mem_cons_of_mem _ hx)) (E.holds hne N hi (hlt t ht)) hlt⟩

theorem mem_visited_of_reports (hr : r ∈ reports fs ls) : r.1 ∈ visited fs ls := by
  induction ls generalizing fs with
  | nil => simp [reports] at hr
  | cons l ls ih =>
    rw [visited]
    rw [reports] at hr
    cases hl : reportOf l with
    | none =>
      rw [hl] at hr
      exact List.mem_cons_of_mem _ (ih hr)
    | some info =>
      rw [hl] at hr
      rcases List.mem_cons.mp hr with rfl | hr
      · exact List.mem_cons_self
      · exact List.mem_cons_of_mem _ (ih hr)

theorem count_reports {rs : List (FileSystem × DirectoryInfo)} (h : List.Forall₂ Reports slots rs)
    (hs : ∀ r ∈ rs, r.1.rootDirectory.Holds i name ∧ r.1.rootDirectory.NamesDiffer) :
    (rs.map fun r ↦ r.2.name).count name.bytes = slots.count i := by
  induction h with
  | nil => rfl
  | @cons k r slots rs hk _ ih =>
    obtain ⟨⟨H, N⟩, hrest⟩ := List.forall_mem_cons.mp hs
    have hiff : r.2.name = name.bytes ↔ k = i := by
      rw [hk.name, ← H.2]
      exact ⟨N k i hk.inUse H.1, fun h ↦ by rw [h]⟩
    simp only [List.map_cons, List.count_cons, ih hrest, beq_iff_eq, hiff]

theorem count_of_present (A : Scannable fs chain) (N : fs.rootDirectory.NamesDiffer)
    (hr : Run PoliteStep fs ls fs') (hls : ∀ l ∈ ls, l.1 ≠ .format) (hscan : Scanned fs ls slots)
    (hl : ∀ s ∈ visited fs ls, s.rootDirectory.lookup name ≠ none) :
    ((reports fs ls).map fun r ↦ r.2.name).count name.bytes = 1 := by
  have hstart : fs ∈ visited fs ls := by
    cases ls <;> exact List.mem_cons_self
  obtain ⟨i, hi⟩ := Option.ne_none_iff_exists'.mp (hl fs hstart)
  have hheld := visited_holds A N hr hls (Directory.holds_of_lookup hi) hl
  have hdiffer := visited_differ A N hr hls
  rw [count_reports hscan.reports fun r hmem ↦
    ⟨hheld _ (mem_visited_of_reports hmem), hdiffer _ (mem_visited_of_reports hmem)⟩]
  exact hscan.all i fun s hs ↦ (hheld s hs).1

end Names

/-- Whatever happens to the files during a scan, it reports no slot twice, at most 32
files in all, each of them with its size at that moment, and every file exactly once
that is there all the time. -/
theorem scan_of_run (C : Consistent fs chain) (S : Solo fs) (N : fs.rootDirectory.NamesEnd)
    (hr : Run PoliteStep fs (scanLabels ls) fs')
    (hls : ∀ l ∈ ls, l.1 ≠ .format ∧ l.1 ≠ .openDir) :
    ∃ slots, Scanned fs (scanLabels ls) slots ∧ (reports fs (scanLabels ls)).length ≤ dirSize ∧
      (fs.rootDirectory.NamesDiffer → ∀ name : CString,
        (∀ s ∈ visited fs (scanLabels ls), s.rootDirectory.lookup name ≠ none) →
        ((reports fs (scanLabels ls)).map fun r ↦ r.2.name).count name.bytes = 1) := by
  have A : Scannable fs chain := ⟨C, S, N⟩
  obtain ⟨slots, hscan⟩ := scan_all A hr hls
  refine ⟨slots, hscan, ?_, fun hdiffer name hl ↦
    count_of_present A hdiffer hr (scanLabels_ne_format hls) hscan hl⟩
  have hcard := List.Nodup.length_le_card hscan.increasing.nodup
  rwa [hscan.reports.length_eq, Fintype.card_fin] at hcard

/-- A scan that reports `a`, and then a file that is created in the place of `b`. -/
def scanTwoFiles : List (Call × Outcome) :=
  [(.nextDir, .ok (.entry (some ⟨[97], 2047⟩))), (.remove nameB, .ok .unit),
    (.open nameC .WRITE, .ok (.handle 0)), (.nextDir, .ok (.entry (some ⟨[99], 0⟩)))]

def scanned : FileSystem := (Call.nextDir.reply (Call.openDir.reply twoFiles).2).2

set_option maxRecDepth 20000 in
theorem scan_of_run_twoFiles : ∃ slots, Scanned twoFiles (scanLabels scanTwoFiles) slots ∧
    (reports twoFiles (scanLabels scanTwoFiles)).length = 2 ∧
      ((reports twoFiles (scanLabels scanTwoFiles)).map fun r ↦ r.2.name).count
      nameA.bytes = 1 := by
  have hremove : Polite scanned (.remove nameB) := ⟨by decide, fun _ _ h hu ↦ by cases hu⟩
  have hopen : Polite ((Call.remove nameB).reply scanned).2 (.open nameC .WRITE) :=
    ⟨by decide, fun _ _ _ h hu ↦ by cases hu⟩
  have hr : Run PoliteStep twoFiles (scanLabels scanTwoFiles) _ :=
    .cons (.of_reply trivial rfl) (.cons (.of_reply trivial rfl) (.cons (.of_reply hremove rfl)
      (.cons (.of_reply hopen rfl)
      (.cons (.of_reply trivial rfl) (.cons (.of_reply trivial rfl) (.nil _))))))
  have hpresent :
      ∀ s ∈ visited twoFiles (scanLabels scanTwoFiles), s.rootDirectory.lookup nameA ≠ none := by
    simp only [scanLabels, scanTwoFiles, List.cons_append, List.nil_append, visited,
      List.forall_mem_cons]
    refine ⟨nofun, nofun, nofun, nofun, nofun, nofun, nofun, nofun⟩
  obtain ⟨slots, hscan, -, hcount⟩ := scan_of_run twoFiles_consistent twoFiles_solo
    twoFiles_ordinary.named hr (by simp [scanTwoFiles])
  exact ⟨slots, hscan, rfl, hcount twoFiles_ordinary.distinct nameA hpresent⟩

end GenericFs.Fat
