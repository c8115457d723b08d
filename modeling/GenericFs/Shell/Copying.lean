import GenericFs.Fat.Receiving
import GenericFs.Library.Returning
import GenericFs.Shell.Commands

namespace GenericFs.Shell

open GenericFs.Fat GenericFs.Library Function Returning FileSystem

variable {s s' : Session} {fs : FileSystem} {chain chain' : Fin dirSize → List ℕ}
  {h m : Fin handleTableSize} {i k : Fin dirSize} {cap turns o : ℕ} {bytes input : List UInt8}

theorem member_run {α : Type} {x : Member α} {a : α} (hx : x.run s.files = .ok a fs) :
    (member x).run s = .ok a { s with files := fs } := by
  simp only [member, EStateM.run] at hx ⊢
  rw [hx]

theorem exists_of_member_run {α : Type} {x : Member α} {a : α} (hx : (member x).run s = .ok a s') :
    ∃ fs, x.run s.files = .ok a fs ∧ s' = { s with files := fs } := by
  cases hr : x.run s.files with
  | ok b fs =>
    rw [member_run hr] at hx
    injection hx with ha hs
    exact ⟨fs, by rw [ha], hs.symm⟩
  | error e fs =>
    have herror : (member x).run s = .error e { s with files := fs } := by
      simp only [member, EStateM.run] at hr ⊢
      rw [hr]
    rw [herror] at hx
    contradiction

theorem exists_of_member_bind {α β : Type} {x : Member α} {f : α → Command β} {b : β}
    (h : (member x >>= f).run s = .ok b s') :
    ∃ a fs, x.run s.files = .ok a fs ∧ (f a).run { s with files := fs } = .ok b s' := by
  obtain ⟨a, s₁, hmember, hf⟩ := exists_of_run_bind h
  obtain ⟨fs, hx, rfl⟩ := exists_of_member_run hmember
  exact ⟨a, fs, hx, hf⟩

theorem close_member (C : Consistent s.files chain) (hu : (s.files.handleTable h).inUse = true) :
    (member (close h)).run s = .ok () { s with files := shut s.files h } :=
  member_run (close_run C.formatted hu)

/-- The end of a copy. -/
theorem close_members {α : Type} {f : Command α} (C : Consistent s.files chain) (hmh : m ≠ h)
    (hm : (s.files.handleTable m).inUse = true) (hh : (s.files.handleTable h).inUse = true) :
    (do member (close m); member (close h); f).run s =
      f.run { s with files := shut (shut s.files m) h } := by
  have hother : ((shut s.files m).handleTable h).inUse = true := by
    rw [shut_of_ne hmh.symm]
    exact hh
  have hclose := close_member C hm
  have hclose' := close_member (s := { s with files := shut s.files m }) C.shut hother
  rw [run_bind_ok hclose, run_bind_ok hclose']

/-- The complaint about a destination that does not take all bytes. -/
abbrev problem : Line := .error "problem writing destination"

/-- What a loop that fills a file does to the session: complaints are printed if
and only if bytes were left over, and the host does not change. -/
structure Filled (s : Session) (short : Prop) (s' : Session) : Prop where
  console : ∃ n, s'.console = s.console ++ List.replicate n problem ∧ (0 < n ↔ short)
  host : s'.host = s.host
  writable : s'.writable = s.writable

theorem put_run (R : Receiving h k cap bytes s.files chain) {chunk : List UInt8} (hc : chunk ≠ []) :
    ∃ s' chain', (put h chunk chunk.length).run s = .ok () s' ∧
      Receiving h k cap (bytes ++ chunk) s'.files chain' ∧
      Around {h} k s.files chain s'.files chain' ∧
      Filled s (cap < (bytes ++ chunk).length) s' := by
  obtain ⟨r, fs', chain', hrun, R', A, hr⟩ := R.write chunk
  have hlen := List.length_pos_iff.mpr hc
  by_cases hfits : (bytes ++ chunk).length ≤ cap
  · have hall : r = chunk.length := by
      rw [List.length_append] at hfits
      omega
    refine ⟨{ s with files := fs' }, chain', ?_, R', A,
      ⟨⟨0, by simp, by simpa using hfits⟩, rfl, rfl⟩⟩
    rw [put, run_bind_ok (member_run hrun), hall, if_neg (by simp)]
    rfl
  · have hshort : (r : ℤ) ≠ chunk.length := by
      rw [List.length_append] at hfits
      omega
    refine ⟨{ s with files := fs', console := s.console ++ [problem] }, chain', ?_, R', A,
      ⟨⟨1, rfl, by simpa using hfits⟩, rfl, rfl⟩⟩
    rw [put, run_bind_ok (member_run hrun), if_pos hshort]
    rfl

theorem Filled.trans {a b : Prop} {s₁ s₂ : Session} (F : Filled s a s₁) (F' : Filled s₁ b s₂) :
    Filled s (a ∨ b) s₂ := by
  obtain ⟨n, hn, ha⟩ := F.console
  obtain ⟨n', hn', hb⟩ := F'.console
  refine ⟨⟨n + n', ?_, ?_⟩, F'.host.trans F.host, F'.writable.trans F.writable⟩
  · rw [hn', hn, List.append_assoc, List.replicate_add]
  · rw [← ha, ← hb]
    omega

theorem Filled.congr {a b : Prop} (F : Filled s a s') (hab : a ↔ b) : Filled s b s' := by
  obtain ⟨n, hn, ha⟩ := F.console
  exact ⟨⟨n, hn, ha.trans hab⟩, F.host, F.writable⟩

theorem vcopyinLoop_run (R : Receiving h k cap bytes s.files chain)
    (hturns : input.length < turns) :
    ∃ s' chain', (vcopyinLoop h turns input).run s = .ok () s' ∧
      Receiving h k cap (bytes ++ input) s'.files chain' ∧
      Around {h} k s.files chain s'.files chain' ∧
      Filled s (input ≠ [] ∧ cap < (bytes ++ input).length) s' := by
  induction turns generalizing s chain bytes input with
  | zero => exact absurd hturns (Nat.not_lt_zero _)
  | succ turns ih =>
    rw [vcopyinLoop]
    cases input with
    | nil =>
      refine ⟨s, chain, ?_, by rwa [List.append_nil], .rfl, ⟨⟨0, by simp, by simp⟩, rfl, rfl⟩⟩
      rw [List.take_nil, List.length_nil, if_pos rfl]
      rfl
    | cons b input =>
      have hchunk : (b :: input).take 1000 ≠ [] := by simp
      obtain ⟨s₁, chain₁, hput, R₁, A₁, F₁⟩ := put_run R hchunk
      have hrest : ((b :: input).drop 1000).length < turns := by
        rw [List.length_drop]
        rw [List.length_cons] at hturns ⊢
        omega
      obtain ⟨s₂, chain₂, hloop, R₂, A₂, F₂⟩ := ih R₁ hrest
      rw [List.append_assoc, List.take_append_drop] at R₂ F₂
      refine ⟨s₂, chain₂, ?_, R₂, A₁.trans A₂, (F₁.trans F₂).congr ?_⟩
      · rw [if_neg (by simp), run_bind_ok hput]
        exact hloop
      · have hlen := congrArg List.length (List.take_append_drop 1000 (b :: input))
        have hnil : (b :: input).drop 1000 = [] ↔ ((b :: input).drop 1000).length = 0 :=
          List.length_eq_zero_iff.symm
        rw [List.length_append] at hlen
        rw [ne_eq, hnil, List.length_append, List.length_append]
        simp only [ne_eq, reduceCtorEq, not_false_eq_true, true_and]
        omega

theorem vcopyLoop_end {out : ℤ} (S : Sending m i o bytes s.files chain)
    (C : Consistent s.files chain)
    (ho : bytes.length ≤ o) (hturns : 0 < turns) : (vcopyLoop m out turns).run s =
      .ok () { s with files := s.files.seek m (chain i) o } := by
  obtain ⟨turns, rfl⟩ := Nat.exists_eq_add_one.mpr hturns
  have hnone : (bytes.drop o).take 1000 = [] := by
    rw [List.drop_eq_nil_of_le ho, List.take_nil]
  have hread := S.read C (n := 0) (by rw [hnone, List.length_nil])
  exact run_bind_ok (member_run hread)

/-- The loop of `vcopy` from a file at offset `o`, whose first `o` bytes the other
file was offered already. -/
theorem vcopyLoop_run (S : Sending m i o bytes s.files chain)
    (R : Receiving h k cap (bytes.take o) s.files chain) (hm : m ≠ h) (hi : i ≠ k)
    (hturns : bytes.length - o < turns) :
    ∃ s' chain', (vcopyLoop m h turns).run s = .ok () s' ∧ Receiving h k cap bytes s'.files chain' ∧
      Around {m, h} k s.files chain s'.files chain' ∧
      Filled s (o < bytes.length ∧ cap < bytes.length) s' := by
  induction turns generalizing s chain o with
  | zero => exact absurd hturns (Nat.not_lt_zero _)
  | succ turns ih =>
    obtain ⟨n, hn⟩ : ∃ n, n = ((bytes.drop o).take 1000).length := ⟨_, rfl⟩
    have hread := S.read R.consistent hn
    have hlen := hn
    rw [List.length_take, List.length_drop] at hlen
    have hle := S.le_size R.consistent
    by_cases hend : n = 0
    · have hall : bytes.take o = bytes := List.take_of_length_le (by omega)
      rw [hall] at R
      refine ⟨_, chain, vcopyLoop_end S R.consistent (by omega) (by omega), R.seek S hm (by omega),
        Around.seek.mono (by simp), ⟨⟨0, by simp, ?_⟩, rfl, rfl⟩⟩
      omega
    · have hturn : (vcopyLoop m h (turns + 1)).run s = (if (n : ℤ) = 0 then pure () else do
          put h ((bytes.drop o).take 1000) n
          vcopyLoop m h turns).run { s with files := s.files.seek m (chain i) (o + n) } :=
        run_bind_ok (member_run hread)
      rw [hturn, if_neg (by exact_mod_cast hend)]
      have hchunk : (bytes.drop o).take 1000 ≠ [] := by
        rw [ne_eq, ← List.length_eq_zero_iff, ← hn]
        exact hend
      have R₀ := R.seek S hm (n := o + n) (by omega)
      obtain ⟨s₁, chain₁, hput, R₁, A₁, F₁⟩ :=
        put_run (s := { s with files := s.files.seek m (chain i) (o + n) }) R₀ hchunk
      rw [← hn] at hput
      rw [run_bind_ok hput]
      have htake : bytes.take o ++ (bytes.drop o).take 1000 = bytes.take (o + n) := by
        rw [← List.take_add]
        exact List.take_eq_take_iff.mpr (by omega)
      rw [htake] at R₁ F₁
      obtain ⟨s₂, chain₂, hloop, R₂, A₂, F₂⟩ :=
        ih (S.seek.congr (A₁.handles m hm) (A₁.content i hi)) R₁ (by omega)
      refine ⟨s₂, chain₂, hloop, R₂, ((Around.seek.mono (by simp)).trans
        (A₁.mono (by simp))).trans A₂, ?_⟩
      have F := (F₁.trans F₂).congr (b := o < bytes.length ∧ cap < bytes.length) (by
        rw [List.length_take]
        omega)
      exact ⟨F.console, F.host, F.writable⟩

theorem vcopyOp_run {line : CommandLine} (hline : line.length = 3) : vcopyOp line = (do
    let input ← member (FileSystem.open (word line 2) .READ)
    member (truncate (word line 3))
    let out ← member (FileSystem.open (word line 3) .WRITE)
    vcopyLoop input out transferBound
    member (close input)
    member (close out)
    return false) := by
  unfold vcopyOp
  simp only [hline, ne_eq, not_true_eq_false, ↓reduceIte]

/-- What `vcopy` makes of its destination when `free` blocks are left for it. -/
structure Copied (dst : CString) (bytes : List UInt8) (free : ℕ) (s : Session)
    (chain : Fin dirSize → List ℕ) (s' : Session) (chain' : Fin dirSize → List ℕ) : Prop where
  consistent : Consistent s'.files chain'
  destination : file s'.files chain' dst = some (bytes.take (min bytes.length (1024 * free + 1023)))
  filled : Filled s (1024 * free + 1023 < bytes.length) s'
  others : ∀ name, name ≠ dst → file s'.files chain' name = file s.files chain name
  closed : ∀ h, (s'.files.handleTable h).inUse = false

/-- Once its three calls have opened the two files, `vcopy` comes to its end. -/
theorem vcopyOp_opened {line : CommandLine} {input out : ℤ} {fs₁ fs₂ fs₃ : FileSystem}
    (C : Consistent s.files chain) (hclosed : ∀ h, (s.files.handleTable h).inUse = false)
    (hline : line.length = 3) (hsrc : (word line 2).Fits) (hdst : (word line 3).Fits)
    (hne : word line 2 ≠ word line 3) (hfile : file s.files chain (word line 2) = some bytes)
    (hopen : (FileSystem.open (word line 2) .READ).run s.files = .ok input fs₁)
    (htruncate : (truncate (word line 3)).run fs₁ = .ok () fs₂)
    (hcreate : (FileSystem.open (word line 3) .WRITE).run fs₂ = .ok out fs₃) :
    ∃ s' chain', (vcopyOp line).run s = .ok false s' ∧
      Copied (word line 3) bytes (freeCount fs₃.fat) s chain s' chain' := by
  obtain ⟨i, hl, hbytes⟩ := file_eq_some.mp hfile
  have hends := open_run C hsrc .READ
  rw [hopen] at hends
  cases hends with
  | created h i j hh hl' hm hi hj => cases hm
  | found m i' hh hl' =>
    obtain rfl := Option.some.inj (hl.symm.trans hl')
    obtain ⟨C₁, S₁⟩ := Sending.of_found (m := m) C hsrc hl
    have hc : ∀ k, s.files.rootDirectory.lookup (word line 3) = some k →
        Closed (s.files.withHandle m (newHandle s.files.rootDirectory chain i .READ)) k := by
      intro k hk h hu
      rcases eq_or_ne h m with rfl | hm
      · rw [S₁.index]
        exact Directory.lookup_ne hk hl hne
      · simp [hm, hclosed h] at hu
    obtain ⟨h, k, chain₃, rfl, E⟩ := open_emptied C₁ hdst hc htruncate hcreate
    have hmh : m ≠ h := by
      rintro rfl
      simpa [newHandle] using E.idle
    have hik : i ≠ k := Directory.lookup_ne E.found ((E.elsewhere.lookup _ hne).trans hl) hne
    have S₃ : Sending m i 0 bytes fs₃ chain₃ := by
      rw [← hbytes]
      exact S₁.congr (E.handles m hmh) (E.elsewhere.content _ i hne hl)
    have hsize : bytes.length - 0 < transferBound := S₃.length_lt E.consistent
    obtain ⟨s₄, chain₄, hloop, R, A, F⟩ := vcopyLoop_run
      (s := { s with files := fs₃ }) S₃ E.receiving hmh hik hsize
    have hfound : s₄.files.rootDirectory.lookup (word line 3) = some k := by
      obtain ⟨z, hz⟩ := A.directory
      rw [hz]
      exact Directory.lookup_resize.trans E.found
    refine ⟨{ s₄ with files := shut (shut s₄.files m) h }, chain₄, ?_, R.consistent.shut.shut,
      file_eq_some.mpr ⟨k, hfound, ?_⟩, ?_, fun x hx ↦ ?_,
      fun j ↦ shut_closed fun hjh ↦ shut_closed fun hjm ↦ ?_⟩
    · rw [vcopyOp_run hline, run_bind_ok (member_run hopen), run_bind_ok (member_run htruncate),
        run_bind_ok (member_run hcreate), run_bind_ok hloop,
        close_members R.consistent hmh ((A.inUse m).trans S₃.inUse) R.inUse]
      rfl
    · refine R.content.trans (List.take_eq_take_iff.mpr ?_)
      omega
    · have hiff : 0 < bytes.length ∧ 1024 * freeCount fs₃.fat + 1023 < bytes.length ↔
          1024 * freeCount fs₃.fat + 1023 < bytes.length := by omega
      have F' := F.congr hiff
      exact ⟨F'.console, F'.host, F'.writable⟩
    · exact (E.elsewhere.trans (A.elsewhere E.found)).file hx
    · rw [A.inUse j, E.handles j hjh]
      simp [hjm, hclosed j]

theorem vcopyOp_opens {line : CommandLine} {b : Bool} (hline : line.length = 3)
    (hrun : (vcopyOp line).run s = .ok b s') : ∃ (input out : ℤ) (fs₁ fs₂ fs₃ : FileSystem),
      (FileSystem.open (word line 2) .READ).run s.files = .ok input fs₁ ∧
      (truncate (word line 3)).run fs₁ = .ok () fs₂ ∧
      (FileSystem.open (word line 3) .WRITE).run fs₂ = .ok out fs₃ := by
  rw [vcopyOp_run hline] at hrun
  obtain ⟨input, fs₁, hopen, hrun⟩ := exists_of_member_bind hrun
  obtain ⟨_, fs₂, htruncate, hrun⟩ := exists_of_member_bind hrun
  obtain ⟨out, fs₃, hcreate, -⟩ := exists_of_member_bind hrun
  exact ⟨input, out, fs₁, fs₂, fs₃, hopen, htruncate, hcreate⟩

section Copies

variable {line : CommandLine} {b : Bool} (C : Consistent s.files chain)
  (hclosed : ∀ h, (s.files.handleTable h).inUse = false) (hline : line.length = 3)
  (hsrc : (word line 2).Fits) (hdst : (word line 3).Fits) (hne : word line 2 ≠ word line 3)
  (hfile : file s.files chain (word line 2) = some bytes) (hrun : (vcopyOp line).run s = .ok b s')

include C hclosed hline hsrc hdst hne hfile hrun

theorem vcopyOp_copies : ∃ free chain', Copied (word line 3) bytes free s chain s' chain' := by
  obtain ⟨input, out, fs₁, fs₂, fs₃, hopen, htruncate, hcreate⟩ := vcopyOp_opens hline hrun
  obtain ⟨s₁, chain', hrun₁, K⟩ :=
    vcopyOp_opened C hclosed hline hsrc hdst hne hfile hopen htruncate hcreate
  rw [hrun] at hrun₁
  injection hrun₁ with _ hs
  rw [hs]
  exact ⟨_, chain', K⟩

end Copies

theorem vcopyOp_copied {line : CommandLine} {b : Bool} (C : Consistent s.files chain)
    (hclosed : ∀ h, (s.files.handleTable h).inUse = false) (hline : line.length = 3)
    (hsrc : (word line 2).Fits) (hdst : (word line 3).Fits) (hne : word line 2 ≠ word line 3)
    (hfile : file s.files chain (word line 2) = some bytes)
    (hrun : (vcopyOp line).run s = .ok b s') :
    ∃ (input out : ℤ) (fs₁ fs₂ fs₃ : FileSystem),
      (FileSystem.open (word line 2) .READ).run s.files = .ok input fs₁ ∧
      (truncate (word line 3)).run fs₁ = .ok () fs₂ ∧
      (FileSystem.open (word line 3) .WRITE).run fs₂ = .ok out fs₃ ∧
      ∃ chain', Copied (word line 3) bytes (freeCount fs₃.fat) s chain s' chain' := by
  obtain ⟨input, out, fs₁, fs₂, fs₃, hopen, htruncate, hcreate⟩ := vcopyOp_opens hline hrun
  refine ⟨input, out, fs₁, fs₂, fs₃, hopen, htruncate, hcreate, ?_⟩
  obtain ⟨s₁, chain', hrun₁, K⟩ :=
    vcopyOp_opened C hclosed hline hsrc hdst hne hfile hopen htruncate hcreate
  rw [hrun] at hrun₁
  injection hrun₁ with _ hs
  rw [hs]
  exact ⟨chain', K⟩

section OneByte

def oneByteFiles : FileSystem :=
  let fs := created { blankObject with formattedFlag := true, fat := emptyFat } 0 3 nameA
  { fs with rootDirectory := update fs.rootDirectory 0 { fs.rootDirectory 0 with size := 1 } }

def oneByteChain : Fin dirSize → List ℕ := update (fun _ ↦ []) 0 [3]

def oneByte : Session where
  files := oneByteFiles
  console := []
  host _ := none
  writable _ := true

theorem oneByte_closed (h : Fin handleTableSize) :
    (oneByte.files.handleTable h).inUse = false := rfl

theorem oneByte_consistent : Consistent oneByte.files oneByteChain := by
  have L : Layout (emptyFat.set 3 eofFatEntry) _ oneByteChain :=
    layout_empty.create (i := 0) (e := { (emptyDirectory 0) with
      name := copied (emptyDirectory 0).name 0 nameA.bytes, size := 0, startingBlock :=
      3, inUse := 1 })
      (by decide) (by decide) rfl rfl rfl
  exact ⟨rfl, le_rfl, L.resize rfl (by decide) rfl, fun h hu ↦ by simp [oneByte_closed h] at hu⟩

theorem oneByte_file : file oneByte.files oneByteChain nameA = some [0] := by
  refine file_eq_some.mpr ⟨0, by decide, ?_⟩
  rfl

theorem vcopyOp_copied_oneByte : ∃ free s' chain',
    Copied ⟨[98], by decide⟩ [0] free oneByte oneByteChain s' chain' := by
  have hok : (match (vcopyOp [nameA, nameA, ⟨[98], by decide⟩]).run oneByte with
      | .ok _ _ => true
      | .error _ _ => false) = true := by decide +kernel
  cases hrun : (vcopyOp [nameA, nameA, ⟨[98], by decide⟩]).run oneByte with
  | ok b s' =>
    obtain ⟨_, _, _, _, fs₃, _, _, _, chain', K⟩ := vcopyOp_copied oneByte_consistent oneByte_closed
      (show [nameA, nameA, ⟨[98], by decide⟩].length = 3 from rfl) (by decide)
      (by decide) (by decide)
      oneByte_file hrun
    exact ⟨freeCount fs₃.fat, s', chain', K⟩
  | error e s' =>
    rw [hrun] at hok
    cases hok

end OneByte

end GenericFs.Shell
