import GenericFs.Fat.Backing
import GenericFs.Fat.Crash
import GenericFs.Shell.Steady

namespace GenericFs.Shell

open GenericFs.Fat GenericFs.Library Machine Function Returning FileSystem

/-- What a run of the program shows: its status, whether the disk appeared to be formatted,
the lines of the loop, and the message of an exception that reached `main`. -/
structure Screen where
  status : ℤ
  appears : Option Bool
  console : List Line
  message : Option String

/-- The destructors, on the way out of `my_main`. Nothing is known of a backing file that
was written by a command as well. -/
def leave (f : BackingFile blockSize) (room : ℕ) (status : ℤ) (appears : Bool)
    (message : Option String) (s : Session) : Except Fault (Screen × Host) :=
  match flush.run s.files with
  | .ok () fs =>
    if s.host blockDev = some f.bytes then
      .ok (⟨status, some appears, s.console, message⟩,
        (f.hold fs.theDisk).close ⟨s.host, s.writable, room⟩)
    else .error .undefined
  | .error e _ => .error e

def finish (f : BackingFile blockSize) (room : ℕ) (appears : Bool) :
    EStateM.Result Fault Session Unit → Except Fault (Screen × Host)
  | .ok () s => leave f room 0 appears none s
  | .error (.thrown m) s => leave f room 1 appears (some m) s
  | .error e _ => .error e

/-- `main` with the lines that are entered. `raw` is what the memory of the file system object
holds before. -/
def main (raw : FileSystem) (lines : List CommandLine) (host : Host) :
    Except Fault (Screen × Host) :=
  match (BackingFile.construct blockDev 1024 512).run host with
  | .error (.thrown m) host => .ok (⟨1, none, [], some m⟩, host)
  | .error e _ => .error e
  | .ok f host =>
    match construct f.device raw with
    | .error (.thrown m) => .ok (⟨1, none, [], some m⟩, host)
    | .error e => .error e
    | .ok files =>
      finish f host.room files.formattedFlag
      ((mainLoop lines).run ⟨files, [], host.file, host.writable⟩)

/-- Every file system constructed on the device is sound, and has the files of the desk. -/
def Holds (disk : BlockDevice blockSize) (d : Desk) : Prop :=
  ∀ raw, ∃ fs chain, Mounts disk raw fs chain ∧ ∀ x, file fs chain x = d.file x

/-- Between two runs of the program, the host has the desk. -/
structure Stored (h : Host) (d : Desk) : Prop where
  backing : ∃ f : BackingFile 1024, Opened f blockDev 512 h ∧ Holds f.device d
  host : d.host = h.file
  writable : d.writable = h.writable

/-- Between two runs of the program, the host has a backing file that is not formatted, or
has the place for one. `bytes` is what the next run finds in it. -/
structure Blank (h : Host) (bytes : List UInt8) : Prop where
  backing : ∃ (f : BackingFile 1024) (h' : Host),
    (BackingFile.construct blockDev 1024 512).run h = .ok f h' ∧ f.bytes = bytes ∧
      ¬((f.device.block 0).cells 0 = formatted ∧ checksum (f.device.block 0).cells blockSize = 0)

def Fate.status : Fate → ℤ
  | .throws _ => 1
  | _ => 0

def Fate.message : Fate → Option String
  | .throws m => some m
  | _ => none

/-- The desk for the next run: of the host's files only the backing file has changed behind
the back of the dialogue. -/
structure Desk.Next (d d' : Desk) : Prop where
  names : d'.names = d.names
  content : d'.content = d.content
  host : ∀ x, x ≠ blockDev → d'.host x = d.host x
  writable : d'.writable = d.writable

section Steps

variable {d d' : Desk} {line : CommandLine} {lines : List CommandLine} {printed : List Line}
  {fate : Fate} {s s' : Session} {host host' : Host} {raw fs fs' : FileSystem}
  {chain : Fin dirSize → List ℕ} {f : BackingFile blockSize} {disk : BlockDevice blockSize}

theorem Does.host_blockDev (hd : Does d line printed fate d') (A : Apart line) :
    d'.host blockDev = d.host blockDev := by
  cases hd with
  | vcopyout hc => exact update_of_ne (A.vcopyout hc).symm _ _
  | _ => rfl

theorem Dialogue.host_blockDev (D : Dialogue d lines printed fate d')
    (A : ∀ line ∈ lines, Apart line) :
    d'.host blockDev = d.host blockDev := by
  induction D with
  | waits => rfl
  | quits lines hd => exact hd.host_blockDev (A _ List.mem_cons_self)
  | throws lines hd => exact hd.host_blockDev (A _ List.mem_cons_self)
  | goesOn hd _ ih =>
    exact (ih fun l hl ↦ A l (List.mem_cons_of_mem _ hl)).trans
      (hd.host_blockDev (A _ List.mem_cons_self))

theorem Does.writable (hd : Does d line printed fate d') : d'.writable = d.writable := by
  cases hd <;> rfl

theorem Dialogue.writable (D : Dialogue d lines printed fate d') : d'.writable = d.writable := by
  induction D with
  | waits => rfl
  | quits lines hd => exact hd.writable
  | throws lines hd => exact hd.writable
  | goesOn hd _ ih => exact ih.trans hd.writable

theorem shows_of_mounts (M : Mounts disk raw fs chain) (hfile : ∀ x, file fs chain x = d.file x) :
    Shows ⟨fs, [], d.host, d.writable⟩ d ∧ Idle fs :=
  ⟨⟨⟨chain, M.consistent, M.ordinary, hfile⟩, rfl, rfl⟩, M.closed⟩

theorem stable_mainLoop_blockCount (n : ℕ) (lines : List CommandLine) :
    Stable (Inside (fun fs ↦ fs.theDisk.blockCount = n) fun _ _ ↦ True) (mainLoop lines) := by
  have T := tableBlind_blockCount n
  have hinteract (line : CommandLine) :
      Stable (Inside (fun fs ↦ fs.theDisk.blockCount = n) fun _ _ ↦ True) (interact line) :=
    stable_interact T (stable_write T (blockBlind_blockCount n))
    (fun _ ↦ stable_format_blockCount n)
      fun _ _ _ _ h ↦ h
  induction lines with
  | nil => exact (hinteract []).bind fun _ ↦ .throw _
  | cons line lines ih => exact (hinteract line).bind fun _ ↦ .ite (.pure _) ih

theorem file_reloaded (C : Consistent fs chain) (x : CString) :
    file (reloaded fs raw) chain x = file fs chain x := by
  rw [Fat.file, Fat.file, lookup_reloaded]
  exact congrArg (Option.map · _) (funext fun i ↦ content_reloaded C)

/-- What the destructors leave is read back by the next run. -/
theorem leave_stored {room : ℕ} {status : ℤ} {appears : Bool} {message : Option String}
    (O : Opened f blockDev 512 ⟨s.host, s.writable, room⟩) (S : Shows s d)
    (hcount : s.files.theDisk.blockCount = 512) :
    ∃ host' d', leave f room status appears message s =
        .ok (⟨status, some appears, s.console, message⟩, host') ∧
      d.Next d' ∧ Stored host' d' := by
  obtain ⟨chain, C, W, hfile⟩ := S.sound
  have hheld : (f.hold (flushed s.files).theDisk).name = blockDev := O.named
  have hdisk : (flushed s.files).theDisk.blockCount = f.blockCount := hcount.trans O.blockCount.symm
  have B := BackingFile.backs_hold hdisk
  have O' := O.close (f.sameShape_hold (flushed s.files).theDisk)
  have hhost : s.host blockDev = some f.bytes := O.file
  let host' := (f.hold (flushed s.files).theDisk).close ⟨s.host, s.writable, room⟩
  refine ⟨host', ⟨d.names, d.content, host'.file, d.writable⟩, ?_, ⟨rfl, rfl, fun x hx ↦ ?_, rfl⟩,
    ⟨_, O', fun raw ↦ ?_⟩, rfl, S.writable.symm⟩
  · rw [leave, flush_run C]
    exact if_pos hhost
  · rw [← S.host]
    show update s.host (f.hold _).name _ x = _
    rw [hheld, update_of_ne hx]
  · have M : Mounts _ raw _ chain := .reloaded C W raw
    have T : Torn (reloaded s.files raw) [] (f.hold (flushed s.files).theDisk).device :=
      ⟨B.blockCount.symm, fun b hb ↦ ⟨[], _, List.nil_prefix, .nil _, (B.block b hb).symm⟩⟩
    refine ⟨_, chain, T.remount M raw, fun x ↦ ?_⟩
    show Fat.file (remount (reloaded s.files raw) _ raw) chain x = d.file x
    rw [← hfile, ← file_reloaded C]
    exact T.file M raw x

/-- The first `format` of a disk. -/
theorem interact_format {raw : FileSystem} (B : Begins disk raw s.files fs)
    (hu : s.files.formattedFlag = false)
    (hc : Commands line "format") :
    (interact line).run s = .ok false { s with files := fs } ∧
      Shows { s with files := fs } ⟨∅, fun _ ↦ [], s.host, s.writable⟩ ∧ Idle fs := by
  obtain ⟨⟨C, -, O⟩, hdirectory, hclosed⟩ := B.fresh
  have hperform : perform line = formatOp line := by
    have hc : (word line 1).bytes = ascii "format" := hc
    unfold perform
    simp only [hc]
    rfl
  have hformat : (member format).run s = .ok () { s with files := fs } := member_run B.formatted
  have hcheck :
      (member FileSystem.check).run { s with files := fs } = .ok () { s with files := fs } :=
    member_run (check_run C fun h hu ↦ by simp [hclosed h] at hu)
  refine ⟨?_, ⟨⟨_, C, O, fun x ↦ ?_⟩, rfl, rfl⟩, hclosed⟩
  · rw [interact_eq, hperform]
    simp only [formatOp, EStateM.run_bind, EStateM.run_get, hu, Bool.false_eq_true, ↓reduceIte,
      hformat, hcheck, EStateM.run_pure]
  · rw [file_of_empty hdirectory]
    simp [Desk.file]

/-- Without a formatted file system, whatever the tables of the object hold, every command but
`format` ends the program. No block is written. -/
theorem interact_unformatted (hu : s.files.formattedFlag = false) (hc : ¬Commands line "format") :
    ∃ e s', (interact line).run s = .error e s' ∧
      (s'.files.formattedFlag = false ∧ s'.files.theDisk = s.files.theDisk) ∧
      s'.writable = s.writable ∧ ∀ x, (Commands line "vcopyout" → x ≠ word line 3) →
      s'.host x = s.host x := by
  let I (fs : FileSystem) : Prop := fs.formattedFlag = false ∧ fs.theDisk = s.files.theDisk
  let J (host : CString → Option (List UInt8)) (w : CString → Bool) : Prop :=
    w = s.writable ∧ ∀ x, (Commands line "vcopyout" → x ≠ word line 3) → host x = s.host x
  have hperform : Stable (Inside I J) (perform line) := by
    refine stable_perform (fun _ _ _ _ _ h ↦ h) (stable_write_unformatted fun _ h ↦ h.1)
      (fun hf ↦ absurd hf hc) fun hout host w bytes h ↦ ⟨h.1, fun x hx ↦ ?_⟩
    rw [update_of_ne (hx hout)]
    exact h.2 x hx
  have hs : Inside I J s := ⟨⟨hu, rfl⟩, rfl, fun _ _ ↦ rfl⟩
  rw [interact_eq]
  simp only [EStateM.run_bind, EStateM.run_get, hu, Bool.false_eq_true, ↓reduceIte]
  cases hrun : (perform line).run s with
  | error e s' =>
    have hs' := (hperform s hs).2 e s' hrun
    exact ⟨e, s', rfl, hs'.files, hs'.host⟩
  | ok done s' =>
    have hs' := (hperform s hs).1 done s' hrun
    have hcheck : FileSystem.check.run s'.files =
        .error (.thrown "file_system::check() -- Unformatted file system") s'.files := by
      simp only [FileSystem.check, EStateM.run_bind, EStateM.run_get, checkWith,
        hs'.files.1, ↓reduceIte]
      rfl
    have hmember : (member FileSystem.check).run s' = .error _ s' := member_error hcheck
    refine ⟨.thrown "file_system::check() -- Unformatted file system", s', ?_, hs'.files, hs'.host⟩
    simp only [hmember]

end Steps

section Launches

/-- What the program has on the host between two runs, in its own terms. -/
inductive Medium
  | blank (bytes : List UInt8) (host : CString → Option (List UInt8)) (writable : CString → Bool)
  | desk (d : Desk)

def Kept (host : Host) : Medium → Prop
  | .blank bytes h w =>
    Blank host bytes ∧ (∀ x, x ≠ blockDev → host.file x = h x) ∧ host.writable = w
  | .desk d => Stored host d

/-- One run of the program, from its start to its end. -/
inductive Launches : Medium → List CommandLine × Screen → Medium → Prop
  | again {d d' d'' : Desk} {lines : List CommandLine} {printed : List Line} {fate : Fate}
      (D : Dialogue d lines printed fate d') (N : d'.Next d'') :
      Launches (.desk d) (lines, ⟨fate.status, some true, printed, fate.message⟩) (.desk d'')
  | formatted {bytes : List UInt8} {h : CString → Option (List UInt8)} {w : CString → Bool}
      {d d' d'' : Desk} {line : CommandLine} {lines : List CommandLine}
      {printed : List Line} {fate : Fate}
      (hc : Commands line "format") (hd : d.names = ∅) (hhost : ∀ x, x ≠ blockDev → d.host x = h x)
      (hw : d.writable = w) (D : Dialogue d lines printed fate d') (N : d'.Next d'') :
      Launches (.blank bytes h w)
        (line :: lines, ⟨fate.status, some false, printed, fate.message⟩) (.desk d'')
  | refused {bytes : List UInt8} {h h' : CString → Option (List UInt8)} {w : CString → Bool}
      {lines : List CommandLine} {console : List Line} {m : String}
      (hc : ¬Commands (lines.headD []) "format")
      (hhost : ∀ x, x ≠ blockDev →
        (Commands (lines.headD []) "vcopyout" → x ≠ word (lines.headD []) 3) → h' x = h x) :
      Launches (.blank bytes h w) (lines, ⟨1, some false, console, some m⟩) (.blank bytes h' w)

/-- A run of the program that comes to an end. -/
structure Launch (host : Host) (l : List CommandLine × Screen) (host' : Host) : Prop where
  ends : ∃ raw, main raw l.1 host = .ok (l.2, host')
  fitting : ∀ line ∈ l.1, Fitting line
  apart : ∀ line ∈ l.1, Apart line

variable {d : Desk} {lines : List CommandLine} {s : Session} {host host' : Host}
    {raw fs fs' : FileSystem}
  {f : BackingFile blockSize} {appears : Bool} {m : Medium} {l : List CommandLine × Screen}

def Finishes (d : Desk) (lines : List CommandLine) (appears : Bool) :
    Except Fault (Screen × Host) → Prop
  | .ok (screen, host') => ∃ printed fate d' d'', Dialogue d lines printed fate d' ∧ d'.Next d'' ∧
      Stored host' d'' ∧ screen = ⟨fate.status, some appears, printed, fate.message⟩
  | .error e => e = .endless ∧ ∃ printed d', Dialogue d lines printed .goesOn d'

theorem finish_stored {room : ℕ} (O : Opened f blockDev 512 ⟨s.host, s.writable, room⟩)
    (S : Shows s d)
    (I : Idle s.files) (hcount : s.files.theDisk.blockCount = 512) (hconsole : s.console = [])
    (F : ∀ line ∈ lines, Fitting line) (A : ∀ line ∈ lines, Apart line) :
    Finishes d lines appears (finish f room appears ((mainLoop lines).run s)) := by
  have hconverses := mainLoop_converses S I F A
  have hstable := stable_mainLoop_blockCount 512 lines s ⟨hcount, trivial⟩
  have hleave {s' : Session} {printed : List Line} {fate : Fate} {d' : Desk}
      (D : Dialogue d lines printed fate d') (S' : Shows s' d')
      (hprinted : s'.console = s.console ++ printed)
      (hcount' : s'.files.theDisk.blockCount = 512) :
      Finishes d lines appears (leave f room fate.status appears fate.message s') := by
    have O' : Opened f blockDev 512 ⟨s'.host, s'.writable, room⟩ := by
      refine ⟨O.named, O.blockCount, ?_, ?_, O.length⟩
      · show s'.host blockDev = _
        rw [S'.host, D.host_blockDev A, ← S.host]
        exact O.file
      · show s'.writable blockDev = _
        rw [S'.writable, D.writable, ← S.writable]
        exact O.writable
    obtain ⟨host', d'', hrun, N, St⟩ := leave_stored O' S' hcount'
    rw [hrun]
    refine ⟨printed, fate, d', d'', D, N, St, ?_⟩
    rw [hprinted, hconsole, List.nil_append]
  cases hrun : (mainLoop lines).run s with
  | ok u s' =>
    rw [hrun] at hconverses
    obtain ⟨printed, d', D, hprinted, S', -⟩ := hconverses
    exact hleave D S' hprinted (hstable.1 u s' hrun).files
  | error e s' =>
    rw [hrun] at hconverses
    cases e with
    | thrown m =>
      obtain ⟨printed, d', D, hprinted, S'⟩ := hconverses
      exact hleave D S' hprinted (hstable.2 _ s' hrun).files
    | undefined => exact hconverses.elim
    | endless => exact ⟨rfl, hconverses⟩

/-- On a host that has a desk, no run of the program is undefined. -/
theorem main_stored (St : Stored host d) (F : ∀ line ∈ lines, Fitting line)
    (A : ∀ line ∈ lines, Apart line)
    (raw : FileSystem) : Finishes d lines true (main raw lines host) := by
  obtain ⟨⟨f, O, hf⟩, hhost, hwritable⟩ := St
  obtain ⟨fs, chain, M, hfile⟩ := hf raw
  obtain ⟨S, I⟩ := shows_of_mounts M hfile
  rw [hhost, hwritable] at S
  obtain ⟨hfs, -⟩ := M.fields
  have hcount : fs.theDisk.blockCount = 512 := by
    rw [hfs]
    exact O.blockCount
  have hformatted := M.consistent.formatted
  simp only [main, O.construct, M.constructed, hformatted]
  exact finish_stored O S I hcount rfl F A

/-- What the constructor of a file system makes of a disk that is not formatted. -/
theorem construct_blank (hcount : 512 ≤ disk.blockCount)
    (hu : ¬((disk.block 0).cells 0 = formatted ∧ checksum (disk.block 0).cells blockSize = 0))
    (raw : FileSystem) :
    ∃ fs, construct disk raw = .ok fs ∧ fs.formattedFlag = false ∧ fs.theDisk = disk := by
  refine ⟨_, construct_eq (by omega), ?_, ?_⟩
  · rw [if_neg hu]
  · rw [if_neg hu]

theorem holding_device (f : BackingFile blockSize) : f.hold f.device = f := by
  have hbytes := (Backs.self f).bytes .rfl
  rw [BackingFile.hold]
  congr
  exact hbytes.symm

theorem main_blank {bytes : List UInt8} {h : CString → Option (List UInt8)} {w : CString → Bool}
    {screen : Screen} (K : Kept host (.blank bytes h w)) (F : ∀ line ∈ lines, Fitting line)
    (A : ∀ line ∈ lines, Apart line)
    (hmain : main raw lines host = .ok (screen, host')) :
    ∃ m, Launches (.blank bytes h w) (lines, screen) m ∧ Kept host' m := by
  obtain ⟨⟨f, h₁, hnew, rfl, hu⟩, hhost, hwritable⟩ := K
  obtain ⟨hw₁, hhost₁⟩ := construct_elsewhere hnew
  have O := construct_opened hnew
  have hcount : f.device.blockCount = 512 := O.blockCount
  obtain ⟨fs, hconstruct, hflag, hdisk⟩ := construct_blank hcount.ge hu raw
  let s : Session := ⟨fs, [], h₁.file, h₁.writable⟩
  have hmain' : finish f h₁.room false ((mainLoop lines).run s) = .ok (screen, host') := by
    simpa only [main, hnew, hconstruct, hflag] using hmain
  by_cases hc : Commands (lines.headD []) "format"
  · -- the disk becomes formatted, and the rest is a run on an empty desk
    cases lines with
    | nil => exact absurd hc (by unfold Commands; decide)
    | cons line lines =>
      have hdev : 512 ≤ fs.theDisk.blockCount := by rw [hdisk]; exact hcount.ge
      have B : Begins f.device raw s.files _ := ⟨hcount.ge, hconstruct, format_run fs hdev⟩
      obtain ⟨hturn, S, I⟩ := interact_format B hflag hc
      have hloop : (mainLoop (line :: lines)).run s = (mainLoop lines).run _ := run_bind_ok hturn
      have hfinishes : Finishes _ lines false (finish f h₁.room false ((mainLoop lines).run _)) :=
        finish_stored O S I (by simpa [hdisk] using hcount) rfl
          (fun l hl ↦ F l (List.mem_cons_of_mem _ hl)) fun l hl ↦ A l (List.mem_cons_of_mem _ hl)
      rw [← hloop, hmain'] at hfinishes
      obtain ⟨printed, fate, d', d'', D, N, St, rfl⟩ := hfinishes
      exact ⟨.desk d'', .formatted hc rfl (fun x hx ↦ (hhost₁ x hx).trans (hhost x hx))
        (hw₁.trans hwritable) D N, St⟩
  · -- the first command ends the program
    obtain ⟨e, s', hturn, ⟨hu', hd'⟩, hw', hh'⟩ := interact_unformatted (s := s) hflag hc
    have hloop : (mainLoop lines).run s = .error e s' := by
      cases lines <;> exact run_bind_error hturn
    rw [hloop] at hmain'
    cases e with
    | undefined => cases hmain'
    | endless => cases hmain'
    | thrown m =>
      have hflush : flush.run s'.files = .ok () s'.files := by
        simp only [flush, EStateM.run_bind, EStateM.run_get, hu', Bool.false_eq_true, ↓reduceIte]
        rfl
      simp only [finish, leave, hflush] at hmain'
      split_ifs at hmain' with hfile
      rw [hd'.trans hdisk, holding_device] at hmain'
      injection hmain' with hmain'
      injection hmain' with hscreen hhost'
      have O' : Opened f blockDev 512 ⟨s'.host, s'.writable, h₁.room⟩ :=
        ⟨O.named, O.blockCount, hfile, (congrFun hw' _).trans O.writable, O.length⟩
      have O'' := O'.close .rfl
      rw [hhost'] at O''
      subst hscreen hhost'
      refine ⟨.blank _ _ w, .refused hc fun x hx hout ↦ ?_,
        ⟨⟨f, _, O''.construct, rfl, hu⟩, fun _ _ ↦ rfl, hw'.trans (hw₁.trans hwritable)⟩⟩
      show update s'.host f.name (some f.bytes) x = h x
      rw [O.named, update_of_ne hx, hh' x hout]
      exact (hhost₁ x hx).trans (hhost x hx)

theorem Launch.launches (L : Launch host l host') (K : Kept host m) :
    ∃ m', Launches m l m' ∧ Kept host' m' := by
  obtain ⟨⟨raw, hmain⟩, F, A⟩ := L
  cases m with
  | blank bytes h w => exact main_blank K F A hmain
  | desk d =>
    have hfinishes := main_stored K F A raw
    rw [hmain] at hfinishes
    obtain ⟨printed, fate, d', d'', D, N, St, hscreen⟩ := hfinishes
    obtain ⟨lines, screen⟩ := l
    obtain rfl : screen = _ := hscreen
    exact ⟨.desk d'', .again D N, St⟩

/-- Over any number of runs of the program on a host, the files on the disk are what the
dialogues of the runs make of them, one after the other. Once the disk is formatted, the
behaviour of a further run is not undefined. -/
theorem launches_of_runs {ls : List (List CommandLine × Screen)} (hr : Run Launch host ls host')
    (K : Kept host m) : ∃ m', Run Launches m ls m' ∧ Kept host' m' ∧ ∀ d, m' = .desk d →
      ∀ lines raw, (∀ line ∈ lines, Fitting line ∧ Apart line) →
        Finishes d lines true (main raw lines host') := by
  obtain ⟨m', hr', K'⟩ := hr.simulation (fun _ _ _ _ K L ↦ L.launches K) K
  refine ⟨m', hr', K', fun d hd lines raw hlines ↦ ?_⟩
  rw [hd] at K'
  exact main_stored K' (fun l hl ↦ (hlines l hl).1) (fun l hl ↦ (hlines l hl).2) raw

section Blank

def exitLine : CommandLine := [⟨ascii "exit", by decide⟩]

def zeroFile : BackingFile blockSize :=
  ⟨blockDev, 512, List.replicate (blockSize * 512) 0, by rw [List.length_replicate], by decide⟩

def blankShell : Session :=
  { blankSession with host := update blankSession.host blockDev (some zeroFile.bytes) }

def blankDesk : Desk := ⟨∅, fun _ ↦ [], blankShell.host, blankShell.writable⟩

theorem zeroFile_opened :
    Opened zeroFile blockDev 512 ⟨blankShell.host, blankShell.writable, 0⟩ := by
  refine ⟨rfl, rfl, ?_, rfl, ?_⟩
  · show update blankSession.host blockDev (some zeroFile.bytes) blockDev = _
    rw [update_self]
  show Int.bmod (List.replicate _ _).length _ = _
  rw [List.length_replicate]
  decide

theorem blankShell_shows : Shows blankShell blankDesk := by
  obtain ⟨⟨C, -, O⟩, hdirectory, -⟩ := begins_blank.fresh
  refine ⟨⟨_, C, O, fun x ↦ ?_⟩, rfl, rfl⟩
  rw [show blankShell.files = blankFormatted from rfl, file_of_empty hdirectory]
  simp [Desk.file, blankDesk]

theorem does_exit {d' : Desk} {printed : List Line} {fate : Fate}
    (hd : Does d exitLine printed fate d') :
    fate = .quits ∧ d' = d := by
  cases hd with
  | exit => exact ⟨rfl, rfl⟩
  | unknown hc => exact absurd rfl (hc ("exit", quitOp) (by simp [jumpTable]))
  | _ => exact absurd ‹Commands exitLine _› (by unfold Commands; decide)

theorem does_import {d' : Desk} {printed : List Line} {fate : Fate}
    (hd : Does d importLine printed fate d')
    (hn : d.names = ∅) (hhost : d.host nameA = some [7]) :
    fate = .goesOn ∧ d'.file nameA = some [7] := by
  cases hd with
  | vcopyin printed input hc hl hsrc hdst hp =>
    obtain rfl := Option.some.inj (hsrc.symm.trans hhost)
    refine ⟨rfl, ?_⟩
    rw [Desk.fill, Desk.file_store, if_pos (by rfl), List.take_of_length_le]
    rw [Desk.capacity, List.length_singleton]
    omega
  | vcopyinUsage hc hl => exact absurd rfl hl
  | vcopyinAbsent hc hl hsrc => cases hsrc.symm.trans hhost
  | vcopyinFull m input hc hl hsrc hdst =>
    exact absurd (.inr ⟨by simp [hn], by simp [Desk.used, hn]⟩) hdst
  | unknown hc => exact absurd rfl (hc ("vcopyin", vcopyinOp) (by simp [jumpTable]))
  | _ => exact absurd ‹Commands importLine _› (by unfold Commands; decide)

theorem dialogue_import {d' : Desk} {printed : List Line} {fate : Fate}
    (D : Dialogue d [importLine, exitLine] printed fate d') (hn : d.names = ∅)
    (hhost : d.host nameA = some [7]) : fate = .quits ∧ d'.file nameA = some [7] := by
  cases D with
  | quits _ hd => cases (does_import hd hn hhost).1
  | throws _ hd => cases (does_import hd hn hhost).1
  | goesOn hd hrest =>
    obtain ⟨-, hfile⟩ := does_import hd hn hhost
    cases hrest with
    | quits _ hd' =>
      obtain ⟨-, rfl⟩ := does_exit hd'
      exact ⟨rfl, hfile⟩
    | throws _ hd' => cases (does_exit hd').1
    | goesOn hd' => cases (does_exit hd').1

theorem importLines : (∀ line ∈ [importLine, exitLine], Fitting line) ∧
    ∀ line ∈ [importLine, exitLine], Apart line := by
  simp only [List.forall_mem_cons, List.not_mem_nil, false_imp_iff, implies_true, and_true]
  refine ⟨⟨⟨?_, ?_, ?_, ?_⟩, ?_, ?_, ?_, ?_⟩, ⟨?_, ?_⟩, ?_, ?_⟩
  all_goals
    unfold Commands
    decide

theorem launches_of_runs_import :
    ∃ host host' screen d, Launch host ([importLine, exitLine], screen) host' ∧
    screen.status = 0 ∧ Kept host' (.desk d) ∧ d.file nameA = some [7] := by
  have hleave : ∃ host d, leave zeroFile 0 0 true none blankShell = .ok (_, host) ∧
      blankDesk.Next d ∧ Stored host d := leave_stored zeroFile_opened blankShell_shows rfl
  obtain ⟨host, d, -, N, St⟩ := hleave
  have hn : d.names = ∅ := N.names
  have hhost : d.host nameA = some [7] := by
    rw [N.host nameA (by decide)]
    rfl
  obtain ⟨F, A⟩ := importLines
  have hfinishes := main_stored St F A blankObject
  cases hmain : main blankObject [importLine, exitLine] host with
  | error e =>
    rw [hmain] at hfinishes
    obtain ⟨-, printed, d', D⟩ := hfinishes
    cases (dialogue_import D hn hhost).1
  | ok r =>
    obtain ⟨screen, host'⟩ := r
    have L : Launch host ([importLine, exitLine], screen) host' := ⟨⟨blankObject, hmain⟩, F, A⟩
    obtain ⟨m', hr, K, -⟩ := launches_of_runs (.cons L (.nil _)) (m := .desk d) St
    cases hr with
    | cons hl hnil =>
      cases hnil
      cases hl with
      | again D N' =>
        obtain ⟨rfl, hfile⟩ := dialogue_import D hn hhost
        refine ⟨host, host', _, _, L, rfl, K, ?_⟩
        rw [Desk.file, N'.names, N'.content]
        exact hfile

end Blank

end Launches

end GenericFs.Shell
