import GenericFs.Shell.Desk

namespace GenericFs.Fat

open FileSystem

variable {fs fs' : FileSystem} {chain : Fin dirSize → List ℕ}

def Idle (fs : FileSystem) : Prop := ∀ h, (fs.handleTable h).inUse = false

theorem Regular.call {α : Type} {x : Member α} {a : α} {r : α → Reply} {c : Call} (R : Regular fs)
    (hc : c.exec = (do return r (← x))) (hp : Polite fs c) (hx : x.run fs = .ok a fs') :
    Regular fs' ∧ ∃ chain chain', Effect fs chain c (.ok (r a)) fs' chain' := by
  have hstep : Step fs (c, .ok (r a)) fs' := by
    rw [Step, Call.reply, hc, EStateM.run_bind, hx]
    rfl
  obtain ⟨chain, chain', -, E⟩ := R.effect hp hstep
  exact ⟨R.step ⟨hp, hstep⟩, chain, chain', E⟩

theorem Regular.ordinary (R : Regular fs) : Ordinary fs := by
  obtain ⟨-, -, -, O⟩ := R
  exact O

theorem regular_of_idle (C : Consistent fs chain) (O : Ordinary fs) (hi : Idle fs) : Regular fs :=
  ⟨chain, C, ⟨fun h hu ↦ by simp [hi h] at hu, fun h _ hu ↦ by simp [hi h] at hu⟩, O⟩

theorem Ordinary.truncated {i : Fin dirSize} {name : CString} (O : Ordinary fs)
    (C : Consistent fs chain) (hn : name.Fits) (hl : fs.rootDirectory.lookup name = some i) :
    Ordinary ((released fs chain i { fs.rootDirectory i with size := 0 }).setFat
      (fs.rootDirectory i).startingBlock eofFatEntry) := by
  obtain ⟨hu, -⟩ := C.of_lookup hn hl
  let idle : FileSystem :=
    { fs with handleTable := fun h ↦ { fs.handleTable h with inUse := false } }
  have C' : Consistent idle chain :=
    ⟨C.formatted, C.device, C.layout, fun h hu ↦ Bool.noConfusion hu⟩
  have E : Effect idle chain (.truncate name) (.ok .unit) _ _ :=
    .truncated i hl hu fun h hh ↦ Bool.noConfusion hh
  exact (E.ordinary C' (O.congr rfl rfl rfl)).congr rfl rfl rfl

theorem Ordinary.lookup_removed {i : Fin dirSize} {name : CString} (O : Ordinary fs)
    (hl : fs.rootDirectory.lookup name = some i) :
    (released fs chain i { fs.rootDirectory i with inUse := 0 }).rootDirectory.lookup
    name = none := by
  have hd : (released fs chain i { fs.rootDirectory i with inUse := 0 }).rootDirectory =
    Function.update fs.rootDirectory i { fs.rootDirectory i with inUse := 0 } := rfl
  rw [hd]
  by_contra hne
  obtain ⟨k, hk⟩ := Option.ne_none_iff_exists'.mp hne
  obtain ⟨hu, hname⟩ := Directory.holds_of_lookup hk
  obtain ⟨hu', hname'⟩ := Directory.holds_of_lookup hl
  rcases eq_or_ne k i with rfl | hki
  · rw [Function.update_self] at hu
    exact hu rfl
  · rw [Function.update_of_ne hki] at hu hname
    exact hki (O.distinct k i hu hu' (hname.trans hname'.symm))

end GenericFs.Fat

namespace GenericFs.Shell

open GenericFs.Fat GenericFs.Library Machine Function Returning FileSystem

variable {s s' : Session} {fs fs' fs₁ : FileSystem}
    {chain chain' : Fin dirSize → List ℕ} {d d' : Desk}
  {line : CommandLine} {name : CString} {bytes : List UInt8} {done : Bool}

section Regular

abbrev Sound (s : Session) : Prop := Regular s.files

theorem maintains_member {α : Type} {x : Member α} {r : α → Reply} {Q : α → Prop} (c : Call)
    (hc : c.exec = (do return r (← x))) (hp : ∀ fs, Polite fs c)
    (hQ : ∀ fs chain fs' chain' a, Effect fs chain c (.ok (r a)) fs' chain' → Q a) :
    Maintains Sound (member x) Q := by
  intro s a t hs hrun
  obtain ⟨fs, hx, rfl⟩ := exists_of_member_run hrun
  obtain ⟨hR, chain, chain', E⟩ := Regular.call hs hc (hp _) hx
  exact ⟨hR, hQ _ _ _ _ _ E⟩

def Covered (p : ℤ × List UInt8) : Prop := 0 ≤ p.1 ∧ p.1 ≤ p.2.length

theorem maintains_read (handle : ℤ) : Maintains Sound (member (read handle 1000)) Covered := by
  refine maintains_member (r := fun p ↦ .bytes p.1 p.2) (.read handle 1000) rfl
    (fun _ ↦ show (0 : ℤ) ≤ 1000 by decide) ?_
  rintro fs chain fs' chain' ⟨n, buffer⟩ E
  cases E with
  | read h o n hh hm ho hn =>
    refine ⟨Int.natCast_nonneg _, ?_⟩
    show (n : ℤ) ≤ _
    rw [List.length_take, List.length_drop, length_content]
    exact_mod_cast hn.le

theorem maintains_put {out count : ℤ} {buffer : List UInt8} (hb : Covered (count, buffer)) :
    Maintains Sound (put out buffer count) fun _ ↦ True := by
  refine (maintains_member (r := .count) (Q := fun _ ↦ True) (.write out buffer count) rfl
    (fun _ ↦ hb) fun _ _ _ _ _ _ ↦ trivial).bind fun r _ ↦ ?_
  exact .ite (.modify fun _ h ↦ h) (.pure trivial)

theorem maintains_close {handle : ℤ} (h0 : 0 ≤ handle) :
    Maintains Sound (member (close handle)) fun _ ↦ True :=
  maintains_member (r := fun _ ↦ .unit) (.close handle) rfl (fun _ ↦ h0) fun _ _ _ _ _ _ ↦ trivial

theorem maintains_vcopyLoop (input out : ℤ) (turns : ℕ) :
    Maintains Sound (vcopyLoop input out turns) fun _ ↦ True := by
  induction turns with
  | zero => exact .throw _
  | succ turns ih =>
    refine (maintains_read input).bind fun p hp ↦ ?_
    exact .ite (.pure trivial) ((maintains_put hp).bind fun _ _ ↦ ih)

theorem maintains_vcopyinLoop (out : ℤ) (turns : ℕ) (bytes : List UInt8) :
    Maintains Sound (vcopyinLoop out turns bytes) fun _ ↦ True := by
  induction turns generalizing bytes with
  | zero => exact .throw _
  | succ turns ih =>
    refine .ite (.pure trivial) ((maintains_put ⟨Int.natCast_nonneg _, le_rfl⟩).bind fun _ _ ↦ ih _)

end Regular

section Opening

theorem Desk.file_store {x : CString} :
    (d.store name bytes).file x = if x = name then some bytes else d.file x := by
  rcases eq_or_ne x name with rfl | hx
  · simp [Desk.file, Desk.store]
  · simp [Desk.file, Desk.store, hx]

theorem Desk.file_erase {x : CString} :
    (d.erase name).file x = if x = name then none else d.file x := by
  rcases eq_or_ne x name with rfl | hx
  · simp [Desk.file, Desk.erase]
  · simp [Desk.file, Desk.erase, hx]

/-- A file system on which the file of the name is to be written anew. -/
structure Ready (name : CString) (fs : FileSystem) (chain : Fin dirSize → List ℕ)
    (d : Desk) : Prop where
  consistent : Consistent fs chain
  regular : Regular fs
  file : ∀ x, file fs chain x = d.file x
  unwritten : ∀ h, (fs.handleTable h).inUse = true → (fs.handleTable h).mode ≠ .WRITE
  closed : ∀ k, fs.rootDirectory.lookup name = some k → Closed fs k
  spare : ∃ h, (fs.handleTable h).inUse = false

theorem emptied_file {h : Fin handleTableSize} {k : Fin dirSize}
    (E : Emptied name fs chain h k fs' chain')
    (hfile : ∀ x, Fat.file fs chain x = d.file x) (x : CString) :
    Fat.file fs' chain' x = (d.store name []).file x := by
  rw [Desk.file_store]
  split_ifs with hx
  · rw [hx]
    exact file_eq_some.mpr ⟨k, E.found, content_eq_nil E.size⟩
  · exact (E.elsewhere.file hx).trans (hfile x)

theorem Ready.truncate (A : Ready name fs chain d) (hn : name.Fits) : ∃ fs₂,
    (truncate name).run fs = .ok () fs₂ ∧ Regular fs₂ ∧ fs₂.handleTable = fs.handleTable ∧
      fs₂.rootDirectory.lookup name = fs.rootDirectory.lookup name ∧
      (fs.rootDirectory.lookup name = none → fs₂ = fs) := by
  have hp : Polite fs (.truncate name) := ⟨hn, A.closed⟩
  cases hl : fs.rootDirectory.lookup name with
  | none =>
    have hrun := truncate_run_absent hn hl
    exact ⟨fs, hrun, A.regular, rfl, hl, fun _ ↦ rfl⟩
  | some k =>
    have hrun := truncate_run A.consistent hn hl
    obtain ⟨hR, -⟩ := Regular.call (r := fun _ ↦ .unit) A.regular rfl hp hrun
    exact ⟨_, hrun, hR, rfl, Directory.lookup_resize.trans hl, nofun⟩

/-- A file is emptied or made, unless there is no place for it. -/
theorem Ready.reopen (A : Ready name fs chain d) (hn : name.Fits) : ∃ fs₂,
    (FileSystem.truncate name).run fs = .ok () fs₂ ∧
      ((fs₂ = fs ∧ ¬d.Takes name ∧ ∃ m, (FileSystem.open name .WRITE).run fs₂ =
      .error (.thrown m) fs₂) ∨
        d.Takes name ∧ ∃ out fs₃, (FileSystem.open name .WRITE).run fs₂ = .ok out fs₃ ∧ 0 ≤ out ∧
          Regular fs₃ ∧ 1024 * freeCount fs₃.fat + 1023 = d.capacity name) := by
  obtain ⟨fs₂, ht, R₂, htable, hlookup, hsame⟩ := A.truncate hn
  refine ⟨fs₂, ht, ?_⟩
  have htakes : d.Takes name ↔ _ := takes_iff A.regular.ordinary A.file A.consistent
  have hp : Polite fs₂ (.open name .WRITE) := ⟨hn, fun _ i _ h hu hm ↦ by
    rw [htable] at hu hm
    exact absurd hm (A.unwritten h hu)⟩
  have ⟨chain₂, C₂, _⟩ := R₂
  have hends := open_run C₂ hn .WRITE
  cases ho : (FileSystem.open name .WRITE).run fs₂ with
  | error e s =>
    left
    rw [ho] at hends
    cases hends with
    | noHandle m hh =>
      obtain ⟨h, hu⟩ := A.spare
      rw [← htable, hh h] at hu
      cases hu
    | absent m hl hno =>
      have habsent := hlookup.symm.trans hl
      obtain rfl := hsame habsent
      refine ⟨rfl, ?_, m, rfl⟩
      rw [htakes]
      rintro (hsome | ⟨⟨i, hi⟩, hfree⟩)
      · exact hsome habsent
      · rcases hno with hno | hno | hno
        · cases hno
        · exact hno i hi
        · exact hfree hno
  | ok out fs₃ =>
    right
    obtain ⟨hR, -⟩ := Regular.call (r := .handle) R₂ rfl hp ho
    refine ⟨?_, out, fs₃, rfl, ?_⟩
    · rw [htakes, ← hlookup]
      rw [ho] at hends
      cases hends with
      | found h i hh hl =>
        left
        simp [hl]
      | created h i j hh hl hm hi hj =>
        obtain rfl := hsame (hlookup.symm.trans hl)
        exact .inr ⟨⟨i, hi⟩, (Finset.card_pos.mpr ⟨j, by simp [hj]⟩).ne'⟩
    · obtain ⟨h, k, chain₃, rfl, E⟩ := open_emptied A.consistent hn A.closed ht ho
      have hfree := freeCount_add_used_of_file hR.ordinary (emptied_file E A.file) E.consistent
      refine ⟨Int.natCast_nonneg _, hR, ?_⟩
      rw [Desk.capacity]
      omega

end Opening

section Commands

theorem member_error {α : Type} {x : Member α} {e : Fault} (hx : x.run s.files = .error e fs) :
    (member x).run s = .error e { s with files := fs } := by
  simp only [member, EStateM.run] at hx ⊢
  rw [hx]

def Simulated (d : Desk) (line : CommandLine) (s : Session) :
    EStateM.Result Fault Session Bool → Prop
  | .ok done s' => ∃ printed d', Does d line printed (if done then .quits else .goesOn) d' ∧
      s'.console = s.console ++ printed ∧ Shows s' d' ∧ Idle s'.files
  | .error e s' => ∃ m, e = .thrown m ∧ Does d line [] (.throws m) d ∧
    s'.console = s.console ∧ Shows s' d

theorem vcopyOp_sound {input out : ℤ} {fs₁ fs₂ fs₃ : FileSystem} (hl : line.length = 3)
    (hopen : (FileSystem.open (word line 2) .READ).run s.files = .ok input fs₁)
    (htruncate : (FileSystem.truncate (word line 3)).run fs₁ = .ok () fs₂)
    (hcreate : (FileSystem.open (word line 3) .WRITE).run fs₂ = .ok out fs₃)
    (h0 : 0 ≤ input) (h0' : 0 ≤ out) (R : Regular fs₃) (hrun : (vcopyOp line).run s = .ok done s') :
    Regular s'.files := by
  rw [vcopyOp_run hl, run_bind_ok (member_run hopen), run_bind_ok (member_run htruncate),
    run_bind_ok (member_run hcreate)] at hrun
  have hrest : Maintains Sound (do
      vcopyLoop input out transferBound
      member (close input)
      member (close out)
      return false) fun _ ↦ True :=
    (maintains_vcopyLoop _ _ _).bind fun _ _ ↦ (maintains_close h0).bind fun _ _ ↦
      (maintains_close h0').bind fun _ _ ↦ .pure trivial
  exact (hrest _ _ _ R hrun).1

theorem open_nonneg {mode : OpenMode} {h : ℤ} (C : Consistent fs chain) (hn : name.Fits)
    (ho : (FileSystem.open name mode).run fs = .ok h fs') : 0 ≤ h := by
  have hends := open_run C hn mode
  rw [ho] at hends
  cases hends with
  | found h i hh hl => exact Int.natCast_nonneg _
  | created h i j hh hl hm hi hj => exact Int.natCast_nonneg _

/-- A file may be truncated under the handle of a reader. -/
theorem vcopyOp_self_sound {i : Fin dirSize} (S : Shows s d) (I : Idle s.files)
    (hl : line.length = 3) (hn : (word line 2).Fits) (hself : word line 2 = word line 3)
    (hi : s.files.rootDirectory.lookup (word line 2) = some i)
    (hrun : (vcopyOp line).run s = .ok done s') : Regular s'.files := by
  obtain ⟨chain, C, O, -⟩ := S.sound
  obtain ⟨m, -, hfound⟩ := open_found C hn hi ⟨0, I 0⟩ .READ
  obtain ⟨C₁, -⟩ := Sending.of_found (m := m) C hn hi
  obtain ⟨fs₂, chain₂, htruncate, C₂, S₂, -, htable, -⟩ := opened_truncated (m := m) C hn I hi rfl
  have hexplicit := truncate_run C₁ hn hi
  rw [htruncate] at hexplicit
  injection hexplicit with _ hfs₂
  have O₁ : Ordinary (s.files.withHandle m (newHandle s.files.rootDirectory chain i .READ)) :=
    O.congr rfl rfl rfl
  have O₂ : Ordinary fs₂ := by
    rw [hfs₂]
    exact O₁.truncated C₁ hn hi
  have hreading : ∀ h, (fs₂.handleTable h).inUse = true → (fs₂.handleTable h).mode ≠ .WRITE := by
    intro h hu
    rcases eq_or_ne h m with rfl | hm
    · simp [S₂.mode]
    · rw [htable] at hu
      simp [hm, I h] at hu
  have R₂ : Regular fs₂ := ⟨chain₂, C₂, ⟨fun h hu hm ↦ absurd hm (hreading h hu),
    fun h _ hu hm ↦ absurd hm (hreading h hu)⟩, O₂⟩
  obtain ⟨input, out, fs₁, fs₂', fs₃, hopen, ht, hcreate⟩ := vcopyOp_opens hl hrun
  have hsame := hopen
  rw [hfound] at hsame
  injection hsame with hinput hfs₁
  have hsame' := ht
  rw [← hfs₁, ← hself, htruncate] at hsame'
  injection hsame' with _ hfs₂'
  subst hfs₂'
  rw [← hself] at ht hcreate
  have hp : Polite fs₂ (.open (word line 2) .WRITE) :=
    ⟨hn, fun _ _ _ h hu hm ↦ absurd hm (hreading h hu)⟩
  obtain ⟨R₃, -⟩ := Regular.call (r := .handle) R₂ rfl hp hcreate
  refine vcopyOp_sound hl hopen (hself ▸ ht) (hself ▸ hcreate) ?_
    (open_nonneg C₂ hn hcreate) R₃ hrun
  rw [← hinput]
  exact Int.natCast_nonneg _

theorem complained {m : String} (S : Shows s d) (I : Idle s.files)
    (hd : Does d line [.error m] .goesOn d) :
    Simulated d line s ((do error m; return false : Command Bool).run s) :=
  ⟨_, d, hd, rfl, ⟨S.sound, S.host, S.writable⟩, I⟩

theorem Shows.mem_names (S : Shows s d) :
    name ∈ d.names ↔ s.files.rootDirectory.lookup name ≠ none := by
  obtain ⟨chain, -, -, hfile⟩ := S.sound
  rw [Desk.mem_names, ← hfile, Fat.file, ne_eq, Option.map_eq_none_iff]

theorem open_absent (S : Shows s d) (I : Idle s.files) (hn : name.Fits) (habsent : name ∉ d.names) :
    ∃ m, (FileSystem.open name .READ).run s.files = .error (.thrown m) s.files := by
  obtain ⟨chain, C, -, -⟩ := S.sound
  rw [S.mem_names, not_ne_iff] at habsent
  have hends := open_run C hn .READ
  cases ho : (FileSystem.open name .READ).run s.files with
  | error e s' =>
    rw [ho] at hends
    cases hends with
    | noHandle m hh => exact absurd (hh 0) (by simp [I 0])
    | absent m hl hno => exact ⟨m, rfl⟩
  | ok h s' =>
    rw [ho] at hends
    cases hends with
    | found h i hh hl => simp [habsent] at hl
    | created h i j hh hl hm hi hj => cases hm

/-- The file system once the source of a transfer is open. -/
theorem ready_of_opened {m : Fin handleTableSize} {i : Fin dirSize} (S : Shows s d)
    (I : Idle s.files)
    (hsrc : (word line 2).Fits) (hl : s.files.rootDirectory.lookup (word line 2) = some i)
    (hfs₁ : fs₁ = s.files.withHandle m (newHandle s.files.rootDirectory chain i .READ))
    (C : Consistent s.files chain) (hfile : ∀ x, file s.files chain x = d.file x)
    (hopen : (FileSystem.open (word line 2) .READ).run s.files = .ok (m : ℤ) fs₁)
    (hne : name ≠ word line 2) : Ready name fs₁ chain d := by
  have hp : Polite s.files (.open (word line 2) .READ) := ⟨hsrc, nofun⟩
  have ⟨_, C', O, _⟩ := S.sound
  obtain ⟨C₁, S₁⟩ := Sending.of_found (m := m) C hsrc hl
  rw [← hfs₁] at C₁ S₁
  have hothers : ∀ h, h ≠ m → (fs₁.handleTable h).inUse = false := fun h hm ↦ by
    rw [hfs₁]
    simp [hm, I h]
  refine ⟨C₁, (Regular.call (r := .handle) (regular_of_idle C O I) rfl hp hopen).1, fun x ↦ ?_,
    fun h hu ↦ ?_, fun k hk h hu ↦ ?_, ?_⟩
  · rw [hfs₁]
    exact hfile x
  · rcases eq_or_ne h m with rfl | hm
    · simp [S₁.mode]
    · simp [hothers h hm] at hu
  · rcases eq_or_ne h m with rfl | hm
    · rw [hfs₁] at hk
      rw [S₁.index]
      exact Directory.lookup_ne hk hl hne.symm
    · simp [hothers h hm] at hu
  · obtain ⟨h, hm⟩ := exists_ne m
    exact ⟨h, hothers h hm⟩

/-- A transfer that came to its end has filled its destination. -/
theorem copied_simulated {dst : CString} {free : ℕ} (S : Shows s d)
    (hfile : ∀ x, file s.files chain x = d.file x) (K : Copied dst bytes free s chain s' chain')
    (R : Regular s'.files) (hfree : 1024 * free + 1023 = d.capacity dst)
    (hd : ∀ printed, Complaints (d.capacity dst < bytes.length) printed →
      Does d line printed .goesOn (d.fill dst bytes)) : Simulated d line s (.ok false s') := by
  obtain ⟨n, hconsole, hn⟩ := K.filled.console
  rw [hfree] at hn
  refine ⟨_, _, hd _ ⟨n, rfl, hn⟩, hconsole, ⟨⟨chain', K.consistent, R.ordinary, fun x ↦ ?_⟩,
    K.filled.host.trans S.host, K.filled.writable.trans S.writable⟩, K.closed⟩
  rw [Desk.fill, Desk.file_store]
  split_ifs with hx
  · rw [hx, K.destination, hfree]
    congr 1
    exact List.take_eq_take_iff.mpr (by omega)
  · exact (K.others x hx).trans (hfile x)

theorem vcopyOp_simulated (S : Shows s d) (I : Idle s.files) (hc : Commands line "vcopy")
    (hsrc : (word line 2).Fits) (hdst : (word line 3).Fits) :
    Simulated d line s ((vcopyOp line).run s) := by
  have ⟨chain, C, O, hfile⟩ := S.sound
  by_cases hl : line.length = 3
  · by_cases hmem : word line 2 ∈ d.names
    · obtain ⟨i, hi⟩ := Option.ne_none_iff_exists'.mp (S.mem_names.mp hmem)
      obtain ⟨m, -, hopen⟩ := open_found C hsrc hi ⟨0, I 0⟩ .READ
      have hsource : file s.files chain (word line 2) = some (d.content (word line 2)) :=
        (hfile _).trans (Desk.file_of_mem hmem)
      by_cases hself : word line 2 = word line 3
      · obtain ⟨s', chain', hrun, C', hclosed, hempty, E, hs'⟩ :=
          vcopyOp_self C I hl hsrc hself hsource
        have R' := vcopyOp_self_sound S I hl hsrc hself hi hrun
        rw [hrun]
        refine ⟨[], _, .vcopySelf hc hl hmem hself, by rw [hs', List.append_nil],
          ⟨⟨chain', C', R'.ordinary, fun x ↦ ?_⟩, by rw [hs']; exact S.host,
            by rw [hs']; exact S.writable⟩, hclosed⟩
        rw [Desk.file_store, ← hself]
        split_ifs with hx
        · rw [hx, hempty]
        · exact (E.file hx).trans (hfile x)
      · have A := ready_of_opened S I hsrc hi rfl C hfile hopen (Ne.symm hself)
        obtain ⟨fs₂, ht, ⟨rfl, hno, msg, hfails⟩ | ⟨htakes, out, fs₃, hcreate, h0, R₃, hcap⟩⟩ :=
          A.reopen hdst
        · rw [vcopyOp_run hl, run_bind_ok (member_run hopen), run_bind_ok (member_run ht),
            run_bind_error (member_error hfails)]
          exact ⟨msg, rfl, .vcopyFull msg hc hl hmem hno, rfl,
            ⟨⟨chain, A.consistent, A.regular.ordinary, A.file⟩, S.host, S.writable⟩⟩
        · obtain ⟨s', chain', hrun, K⟩ :=
            vcopyOp_opened C I hl hsrc hdst hself hsource hopen ht hcreate
          have R' := vcopyOp_sound hl hopen ht hcreate (Int.natCast_nonneg _) h0 R₃ hrun
          rw [hrun]
          exact copied_simulated S hfile K R' hcap fun printed hp ↦
            .vcopy printed hc hl hmem hself htakes hp
    · obtain ⟨m, hopen⟩ := open_absent S I hsrc hmem
      rw [vcopyOp_run hl, run_bind_error (member_error hopen)]
      exact ⟨m, rfl, .vcopyAbsent m hc hl hmem, rfl, ⟨S.sound, S.host, S.writable⟩⟩
  · unfold vcopyOp
    simp only [hl, ne_eq, not_false_eq_true, ↓reduceIte]
    exact complained S I (.vcopyUsage hc hl)

theorem ready_of_idle (S : Shows s d) (I : Idle s.files) (C : Consistent s.files chain)
    (hfile : ∀ x, file s.files chain x = d.file x) : Ready name s.files chain d := by
  have ⟨_, C', O, _⟩ := S.sound
  exact ⟨C, regular_of_idle C' O I, hfile, fun h hu ↦ absurd hu (by simp [I h]),
    fun _ _ h hu ↦ absurd hu (by simp [I h]), 0, I 0⟩

theorem vcopyinOp_sound {input : List UInt8} {out : ℤ} {fs₁ fs₂ : FileSystem} (hl : line.length = 3)
    (hhost : s.host (word line 2) = some input)
    (htruncate : (FileSystem.truncate (word line 3)).run s.files = .ok () fs₁)
    (hcreate : (FileSystem.open (word line 3) .WRITE).run fs₁ = .ok out fs₂)
    (h0 : 0 ≤ out) (R : Regular fs₂) (hrun : (vcopyinOp line).run s = .ok done s') :
    Regular s'.files := by
  rw [vcopyinOp_run hl hhost, run_bind_ok (member_run htruncate),
    run_bind_ok (member_run hcreate)] at hrun
  have hrest : Maintains Sound (do
      vcopyinLoop out (input.length + 1) input
      member (close out)
      return false) fun _ ↦ True :=
    (maintains_vcopyinLoop _ _ _).bind fun _ _ ↦ (maintains_close h0).bind fun _ _ ↦ .pure trivial
  exact (hrest _ _ _ R hrun).1

theorem vcopyinOp_simulated (S : Shows s d) (I : Idle s.files) (hc : Commands line "vcopyin")
    (hdst : (word line 3).Fits) : Simulated d line s ((vcopyinOp line).run s) := by
  have ⟨chain, C, O, hfile⟩ := S.sound
  by_cases hl : line.length = 3
  · cases hhost : s.host (word line 2) with
    | none =>
      unfold vcopyinOp
      simp only [hl, ne_eq, not_true_eq_false, ↓reduceIte, EStateM.run_bind, EStateM.run_get, hhost]
      exact complained S I (.vcopyinAbsent hc hl (S.host ▸ hhost))
    | some input =>
      have hsrc : d.host (word line 2) = some input := S.host ▸ hhost
      have A : Ready (word line 3) s.files chain d := ready_of_idle S I C hfile
      obtain ⟨fs₁, ht, ⟨rfl, hno, msg, hfails⟩ | ⟨htakes, out, fs₂, hcreate, h0, R₂, hcap⟩⟩ :=
        A.reopen hdst
      · rw [vcopyinOp_run hl hhost, run_bind_ok (member_run ht),
          run_bind_error (member_error hfails)]
        exact ⟨msg, rfl, .vcopyinFull msg input hc hl hsrc hno, rfl, ⟨S.sound, S.host, S.writable⟩⟩
      · obtain ⟨s', chain', hrun, K⟩ := vcopyinOp_opened ⟨C, I⟩ hl hdst hhost ht hcreate
        have R' := vcopyinOp_sound hl hhost ht hcreate h0 R₂ hrun
        rw [hrun]
        exact copied_simulated S hfile K R' hcap fun printed hp ↦
          .vcopyin printed input hc hl hsrc htakes hp
  · unfold vcopyinOp
    simp only [hl, ne_eq, not_false_eq_true, ↓reduceIte]
    exact complained S I (.vcopyinUsage hc hl)

theorem vcopyoutOp_simulated (S : Shows s d) (I : Idle s.files) (hc : Commands line "vcopyout")
    (hsrc : (word line 2).Fits) (hdevice : word line 3 ≠ blockDev) :
    Simulated d line s ((vcopyoutOp line).run s) := by
  have ⟨chain, C, O, hfile⟩ := S.sound
  by_cases hl : line.length = 3
  · by_cases hmem : word line 2 ∈ d.names
    · have hsource : file s.files chain (word line 2) = some (d.content (word line 2)) :=
        (hfile _).trans (Desk.file_of_mem hmem)
      cases hout : s.writable (word line 3) with
      | true =>
        obtain ⟨s', hrun, T⟩ := vcopyoutOp_sent ⟨C, I⟩ hl hsrc hsource hout hdevice
        have hfile' : ∀ x, file s'.files chain x = d.file x := fun x ↦ by
          rw [Fat.file, T.directory, funext T.content]
          exact hfile x
        have O' : Ordinary s'.files := O.congr T.directory T.fat (by rw [T.disk])
        rw [hrun]
        refine ⟨[], _, .vcopyout hc hl hmem (S.writable ▸ hout), by rw [T.console, List.append_nil],
          ⟨⟨chain, T.resting.consistent, O', hfile'⟩, ?_, T.writable.trans S.writable⟩,
          T.resting.closed⟩
        rw [T.host, S.host]
        rfl
      | false =>
        obtain ⟨i, hi⟩ := Option.ne_none_iff_exists'.mp (S.mem_names.mp hmem)
        obtain ⟨m, -, hopen⟩ := open_found C hsrc hi ⟨0, I 0⟩ .READ
        obtain ⟨C₁, S₁⟩ := Sending.of_found (m := m) C hsrc hi
        have hclose := close_member (s := { s with
          files := s.files.withHandle m (newHandle s.files.rootDirectory chain i .READ)
          console := s.console ++ [.error "can't open output file in host file system"] }) C₁
          S₁.inUse
        unfold vcopyoutOp
        simp only [hl, ne_eq, not_true_eq_false, ↓reduceIte]
        rw [run_bind_ok (member_run hopen)]
        simp only [EStateM.run_bind, EStateM.run_get, hout, ↓reduceIte]
        rw [show (error "can't open output file in host file system").run { s with
          files := s.files.withHandle m (newHandle s.files.rootDirectory chain i .READ) } =
          .ok () _ from rfl]
        simp only [hclose]
        refine ⟨_, d, .vcopyoutRefused hc hl hmem (S.writable ▸ hout), rfl,
          ⟨⟨chain, C₁.shut, O.congr rfl rfl rfl, hfile⟩, S.host, S.writable⟩, fun h ↦ ?_⟩
        exact shut_closed fun hm ↦ by simp [hm, I h]
    · obtain ⟨m, hopen⟩ := open_absent S I hsrc hmem
      unfold vcopyoutOp
      simp only [hl, ne_eq, not_true_eq_false, ↓reduceIte]
      rw [run_bind_error (member_error hopen)]
      exact ⟨m, rfl, .vcopyoutAbsent m hc hl hmem, rfl, ⟨S.sound, S.host, S.writable⟩⟩
  · unfold vcopyoutOp
    simp only [hl, ne_eq, not_false_eq_true, ↓reduceIte]
    exact complained S I (.vcopyoutUsage hc hl)

theorem vdelOp_simulated (S : Shows s d) (I : Idle s.files) (hc : Commands line "vdel")
    (hname : (word line 2).Fits) : Simulated d line s ((vdelOp line).run s) := by
  have ⟨chain, C, O, hfile⟩ := S.sound
  unfold vdelOp
  by_cases hl : line.length = 2
  · simp only [hl, ne_eq, not_true_eq_false, ↓reduceIte]
    cases hlook : s.files.rootDirectory.lookup (word line 2) with
    | none =>
      rw [run_bind_ok (member_run (remove_run_absent hname hlook))]
      refine ⟨[], _, .vdel hc hl, (List.append_nil _).symm,
        ⟨⟨chain, C, O, fun x ↦ ?_⟩, S.host, S.writable⟩, I⟩
      rw [Desk.file_erase]
      split_ifs with hx
      · rw [hx, Fat.file, hlook]
        rfl
      · exact hfile x
    | some i =>
      have hclosed : Closed s.files i := fun h hu ↦ absurd hu (by simp [I h])
      have hremove := remove_run C hname hlook
      have E : Effect s.files chain (.remove (word line 2)) (.ok .unit) _ _ :=
        .removed i hlook hclosed
      rw [run_bind_ok (member_run hremove)]
      refine ⟨[], _, .vdel hc hl, (List.append_nil _).symm,
        ⟨⟨_, E.consistent C, E.ordinary C O, fun x ↦ ?_⟩,
        S.host, S.writable⟩, I⟩
      rw [Desk.file_erase]
      split_ifs with hx
      · rw [hx, Fat.file, O.lookup_removed hlook]
        rfl
      · exact ((removed_elsewhere hlook).file hx).trans (hfile x)
  · simp only [hl, ne_eq, not_false_eq_true, ↓reduceIte]
    exact complained S I (.vdelUsage hc hl)

/-- A listing from the place of the scan on names the slots in use, in their order. -/
theorem vdirLoop_lists {turns : ℕ} (N : s.files.rootDirectory.NamesEnd)
    (hturns : dirSize < turns + s.files.scanIndex) (hle : s.files.scanIndex ≤ dirSize) :
    ∃ k, ∃ slots : List (Fin dirSize),
      (vdirLoop turns).run s = .ok () { s with
        files := { s.files with scanIndex := k }
        console := s.console ++ slots.map fun i ↦ .entry
          ⟨(s.files.rootDirectory i).nameBytes, (s.files.rootDirectory i).size⟩ } ∧
      slots.Pairwise (· < ·) ∧
      (∀ i ∈ slots, s.files.scanIndex ≤ i ∧ (s.files.rootDirectory i).inUse ≠ 0) ∧
      ∀ i : Fin dirSize, s.files.scanIndex ≤ i → (s.files.rootDirectory i).inUse ≠ 0 →
      i ∈ slots := by
  induction turns generalizing s with
  | zero => exact absurd hturns (by omega)
  | succ turns ih =>
    rcases nextDirLoop_run N (show dirSize ≤ dirSize + s.files.scanIndex by omega) with
      ⟨i, hi, hu, hskip, hnext⟩ | ⟨hskip, hnext⟩
    · have hrest := ih (s := { s with
        files := { s.files with scanIndex := i + 1 }
        console := s.console ++ [.entry
          ⟨(s.files.rootDirectory i).nameBytes, (s.files.rootDirectory i).size⟩] }) N
        (show dirSize < turns + (i + 1) by omega) (Nat.succ_le_of_lt i.isLt)
      obtain ⟨k, slots, hrun, hlt, hfrom, hall⟩ := hrest
      refine ⟨k, i :: slots, ?_, List.pairwise_cons.mpr ⟨fun j hj ↦ (hfrom j hj).1, hlt⟩,
        fun j hj ↦ ?_, fun j hj hju ↦ ?_⟩
      · have hturn : (vdirLoop (turns + 1)).run s = _ :=
          run_bind_ok (member_run (x := nextDir) hnext)
        refine hturn.trans (hrun.trans ?_)
        rw [List.append_assoc]
        rfl
      · rcases List.mem_cons.mp hj with rfl | hj
        · exact ⟨hi, hu⟩
        · exact ⟨hi.trans (Nat.le_of_succ_le (hfrom j hj).1), (hfrom j hj).2⟩
      · rcases lt_trichotomy j i with hji | rfl | hij
        · exact absurd (hskip j hj hji) hju
        · exact List.mem_cons_self
        · exact List.mem_cons_of_mem _ (hall j hij hju)
    · refine ⟨max s.files.scanIndex dirSize, [], ?_, .nil, by simp, fun j hj hju ↦
        absurd (hskip j hj) hju⟩
      have hturn : (vdirLoop (turns + 1)).run s = _ :=
        run_bind_ok (member_run (x := nextDir) hnext)
      refine hturn.trans ?_
      rw [List.map_nil, List.append_nil]
      rfl

theorem vdirOp_simulated (S : Shows s d) (I : Idle s.files) (hc : Commands line "vdir") :
    Simulated d line s ((vdirOp line).run s) := by
  obtain ⟨chain, C, O, hfile⟩ := S.sound
  have hopen : (member openDir).run s =
      .ok () { s with files := { s.files with scanIndex := 0 } } :=
    member_run rfl
  obtain ⟨k, slots, hrun, hlt, hfrom, hall⟩ := vdirLoop_lists
    (s := { s with files := { s.files with scanIndex := 0 } }) O.named
    (show dirSize < dirSize + 1 + 0 by omega) (Nat.zero_le _)
  have hinj : ∀ i ∈ slots, ∀ j ∈ slots, (s.files.rootDirectory i).cname =
      (s.files.rootDirectory j).cname → i = j :=
    fun i hi j hj h ↦ O.distinct i j (hfrom i hi).2 (hfrom j hj).2 (congrArg CString.bytes h)
  unfold vdirOp
  rw [run_bind_ok hopen, run_bind_ok hrun]
  refine ⟨_, d, .vdir (slots.map fun i ↦ (s.files.rootDirectory i).cname) hc
    (List.Nodup.map_on hinj (hlt.imp fun h ↦ h.ne)) ?_, ?_,
    ⟨⟨chain, ⟨C.formatted, C.device, C.layout, C.handles⟩, O.congr rfl rfl rfl, hfile⟩, S.host,
    S.writable⟩, I⟩
  · rw [names_of_file O hfile]
    ext x
    rw [List.mem_toFinset, List.mem_map, Directory.mem_names]
    constructor
    · rintro ⟨i, hi, hx⟩
      exact ⟨i, (hfrom i hi).2, hx⟩
    · rintro ⟨i, hi, hx⟩
      exact ⟨i, hall i (Nat.zero_le _) hi, hx⟩
  · show s.console ++ _ = s.console ++ _
    rw [List.map_map]
    congr 1
    refine List.map_congr_left fun i hi ↦ ?_
    have hu := (hfrom i hi).2
    have hs := (O.storable i).1
    rw [Function.comp, entryOf, content_of_file O hfile hu, length_content, Int.toNat_of_nonneg hs]
    rfl

theorem file_of_empty (h : fs.rootDirectory = emptyDirectory) (x : CString) :
    file fs chain x = none := by
  rw [Fat.file, Option.map_eq_none_iff]
  by_contra hne
  obtain ⟨k, hk⟩ := Option.ne_none_iff_exists'.mp hne
  refine (Directory.holds_of_lookup hk).1 ?_
  rw [h]
  rfl

theorem formatOp_simulated (S : Shows s d) (I : Idle s.files) (hc : Commands line "format") :
    Simulated d line s ((formatOp line).run s) := by
  obtain ⟨chain, C, O, -⟩ := S.sound
  have E : Effect s.files chain .format (.ok .unit) _ _ := .formatted I
  have O' := E.ordinary C O
  have hrun : (member format).run s = .ok () _ := member_run (format_run s.files C.device)
  unfold formatOp
  rw [run_bind_ok hrun]
  refine ⟨[], _, .format hc, (List.append_nil _).symm, ⟨⟨_, E.consistent C, O', fun x ↦ ?_⟩, S.host,
    S.writable⟩, I⟩
  rw [file_of_empty (by rfl)]
  simp [Desk.file, Desk.format]

end Commands

section Turns

/-- The names of a line that come into a directory entry are not too long for it. -/
structure Fitting (line : CommandLine) : Prop where
  vcopy : Commands line "vcopy" → (word line 2).Fits ∧ (word line 3).Fits
  vcopyin : Commands line "vcopyin" → (word line 3).Fits
  vcopyout : Commands line "vcopyout" → (word line 2).Fits
  vdel : Commands line "vdel" → (word line 2).Fits

/-- The command of the line leaves the file of the device alone. -/
structure Apart (line : CommandLine) : Prop where
  vcopyin : Commands line "vcopyin" → word line 2 ≠ blockDev
  vcopyout : Commands line "vcopyout" → word line 3 ≠ blockDev

theorem operation_simulated {c : String × (CommandLine → Command Bool)} (S : Shows s d)
    (I : Idle s.files) (F : Fitting line) (A : Apart line) (hmem : c ∈ jumpTable)
    (hc : Commands line c.1) :
    Simulated d line s ((c.2 line).run s) := by
  simp only [jumpTable, List.mem_cons, List.not_mem_nil, or_false] at hmem
  rcases hmem with rfl | rfl | rfl | rfl | rfl | rfl | rfl | rfl
  · exact ⟨[], d, .dir hc, (List.append_nil _).symm, S, I⟩
  · exact ⟨[], d, .exit hc, (List.append_nil _).symm, S, I⟩
  · exact formatOp_simulated S I hc
  · exact vcopyOp_simulated S I hc (F.vcopy hc).1 (F.vcopy hc).2
  · exact vcopyinOp_simulated S I hc (F.vcopyin hc)
  · exact vcopyoutOp_simulated S I hc (F.vcopyout hc) (A.vcopyout hc)
  · exact vdelOp_simulated S I hc (F.vdel hc)
  · exact vdirOp_simulated S I hc

def Desk.prompt (d : Desk) : Line := .available (1024 * (509 - d.used))

theorem Simulated.check {x : Command Bool} (h : Simulated d line s (x.run s)) :
    Simulated d line s ((do let done ← x; member check; return done : Command Bool).run s) := by
  rw [EStateM.run_bind]
  cases hx : x.run s with
  | error e s' =>
    rw [hx] at h
    exact h
  | ok done s' =>
    rw [hx] at h
    obtain ⟨printed, d', hd, hconsole, S', I'⟩ := h
    obtain ⟨chain, C, -, -⟩ := S'.sound
    have hcheck : (member FileSystem.check).run s' = .ok () s' :=
      member_run (check_run C fun h hu ↦ by simp [I' h] at hu)
    simp only [run_bind_ok hcheck]
    exact ⟨printed, d', hd, hconsole, S', I'⟩

def perform (line : CommandLine) : Command Bool :=
  match jumpTable.find? fun c ↦ ascii c.1 = (word line 1).bytes with
  | some c => c.2 line
  | none => do
    error "command unknown"
    return false

theorem interact_eq (line : CommandLine) : interact line = (do
    if (← get).files.formattedFlag = true then print (.available (← member freeSpace))
    let done ← perform line
    member FileSystem.check
    return done) := by
  unfold interact perform
  cases jumpTable.find? fun c ↦ ascii c.1 = (word line 1).bytes with
  | none => simp only [bind_assoc]
  | some c => rfl

/-- One turn of the loop of `my_main`: after the prompt comes what the desk allows, and the
check finds nothing. -/
theorem interact_simulated (S : Shows s d) (I : Idle s.files) (F : Fitting line) (A : Apart line) :
    Simulated d line { s with console := s.console ++ [d.prompt] } ((interact line).run s) := by
  obtain ⟨chain, C, O, hfile⟩ := S.sound
  have hfree := freeCount_add_used_of_file O hfile C
  have hspace : (freeCount s.files.fat : ℤ) * 1024 = 1024 * (509 - d.used) := by omega
  have hprompt : (member freeSpace).run s = .ok (1024 * (509 - d.used)) s := by
    rw [← hspace]
    exact member_run (freeSpace_run C.formatted)
  have S' : Shows { s with console := s.console ++ [d.prompt] } d := ⟨S.sound, S.host, S.writable⟩
  have hturn : (interact line).run s = (do
      let done ← perform line
      member FileSystem.check
      return done : Command Bool).run { s with console := s.console ++ [d.prompt] } := by
    rw [interact_eq]
    simp only [EStateM.run_bind, EStateM.run_get, C.formatted, ↓reduceIte, hprompt]
    rfl
  rw [hturn]
  refine Simulated.check ?_
  unfold perform
  cases hfind : jumpTable.find? fun c ↦ ascii c.1 = (word line 1).bytes with
  | none =>
    refine complained S' I (.unknown fun c hc hcommand ↦ ?_)
    have hne := List.find?_eq_none.mp hfind c hc
    exact hne (decide_eq_true (Eq.symm hcommand))
  | some c =>
    have hc := List.find?_some hfind
    exact operation_simulated S' I F A (List.mem_of_find?_eq_some hfind) (of_decide_eq_true hc).symm

/-- The loop of `my_main` over the lines that are entered. Behind the last one the input
gives empty lines, and the loop goes on with these. -/
def mainLoop : List CommandLine → Command Unit
  | [] => do
    let _ ← interact []
    throw .endless
  | line :: lines => do
    if (← interact line) = true then return
    else mainLoop lines

/-- A dialogue at a desk, from prompt to prompt. -/
inductive Dialogue : Desk → List CommandLine → List Line → Fate → Desk → Prop
  | waits (d : Desk) : Dialogue d [] [] .goesOn d
  | quits {d d' : Desk} {line : CommandLine} {printed : List Line} (lines : List CommandLine)
      (hd : Does d line printed .quits d') :
      Dialogue d (line :: lines) (d.prompt :: printed) .quits d'
  | throws {d d' : Desk} {line : CommandLine} {printed : List Line} {m : String}
      (lines : List CommandLine) (hd : Does d line printed (.throws m) d') :
      Dialogue d (line :: lines) (d.prompt :: printed) (.throws m) d'
  | goesOn {d d₁ d' : Desk} {line : CommandLine} {lines : List CommandLine}
    {printed rest : List Line}
      {fate : Fate} (hd : Does d line printed .goesOn d₁) (hrest : Dialogue d₁ lines rest fate d') :
      Dialogue d (line :: lines) (d.prompt :: printed ++ rest) fate d'

/-- The end of the loop: the fate of the dialogue, with what it printed. -/
def Converses (d : Desk) (lines : List CommandLine) (s : Session) :
    EStateM.Result Fault Session Unit → Prop
  | .ok () s' => ∃ printed d', Dialogue d lines printed .quits d' ∧
      s'.console = s.console ++ printed ∧ Shows s' d' ∧ Idle s'.files
  | .error (.thrown m) s' => ∃ printed d', Dialogue d lines printed (.throws m) d' ∧
      s'.console = s.console ++ printed ∧ Shows s' d'
  | .error .endless _ => ∃ printed d', Dialogue d lines printed .goesOn d'
  | .error .undefined _ => False

theorem Converses.cons {s₁ : Session} {printed : List Line} {lines : List CommandLine}
    {r : EStateM.Result Fault Session Unit} (h : Converses d' lines s₁ r)
    (hd : Does d line printed .goesOn d') (hs : s₁.console = s.console ++ [d.prompt] ++ printed) :
    Converses d (line :: lines) s r := by
  have hconsole :
      ∀ rest, s₁.console ++ rest = s.console ++ (d.prompt :: printed ++ rest) := fun rest ↦ by
    rw [hs]
    simp
  cases r with
  | ok u s' =>
    obtain ⟨rest, d₂, hrest, hprinted, S', I'⟩ := h
    exact ⟨_, d₂, .goesOn hd hrest, hprinted.trans (hconsole rest), S', I'⟩
  | error e s' =>
    cases e with
    | thrown m =>
      obtain ⟨rest, d₂, hrest, hprinted, S'⟩ := h
      exact ⟨_, d₂, .goesOn hd hrest, hprinted.trans (hconsole rest), S'⟩
    | undefined => exact h
    | endless =>
      obtain ⟨rest, d₂, hrest⟩ := h
      exact ⟨_, d₂, .goesOn hd hrest⟩

theorem not_does_throw_nil {printed : List Line} {m : String} :
    ¬Does d [] printed (.throws m) d' := by
  intro hd
  cases hd with
  | vcopyAbsent m hc => cases hc
  | vcopyFull m hc => cases hc
  | vcopyinFull m input hc => cases hc
  | vcopyoutAbsent m hc => cases hc

/-- Whatever is entered that leaves the file of the device alone, the program does what the desk
allows, line after line. -/
theorem mainLoop_converses {lines : List CommandLine} (S : Shows s d) (I : Idle s.files)
    (F : ∀ line ∈ lines, Fitting line) (A : ∀ line ∈ lines, Apart line) :
    Converses d lines s ((mainLoop lines).run s) := by
  induction lines generalizing s d with
  | nil =>
    have hempty : Fitting [] := ⟨nofun, nofun, nofun, nofun⟩
    have hturn := interact_simulated S I hempty ⟨nofun, nofun⟩
    rw [mainLoop, EStateM.run_bind]
    cases hrun : (interact []).run s with
    | error e s₁ =>
      rw [hrun] at hturn
      obtain ⟨m, -, hd, -⟩ := hturn
      exact absurd hd not_does_throw_nil
    | ok done s₁ => exact ⟨[], d, .waits d⟩
  | cons line lines ih =>
    have hturn := interact_simulated S I (F line List.mem_cons_self) (A line List.mem_cons_self)
    rw [mainLoop, EStateM.run_bind]
    cases hrun : (interact line).run s with
    | error e s₁ =>
      rw [hrun] at hturn
      obtain ⟨m, rfl, hd, hconsole, S₁⟩ := hturn
      exact ⟨[d.prompt], d, .throws lines hd, hconsole, S₁⟩
    | ok done s₁ =>
      rw [hrun] at hturn
      obtain ⟨printed, d₁, hd, hconsole, S₁, I₁⟩ := hturn
      cases done with
      | true => exact ⟨d.prompt :: printed, d₁, .quits lines hd, by simpa using hconsole, S₁, I₁⟩
      | false =>
        exact (ih S₁ I₁ (fun l hl ↦ F l (List.mem_cons_of_mem _ hl)) fun l hl ↦
          A l (List.mem_cons_of_mem _ hl)).cons hd hconsole

end Turns

end GenericFs.Shell
