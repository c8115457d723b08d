import GenericFs.Fat.Chunking

namespace GenericFs.Fat

open GenericFs.Library Chain Function FileSystem

variable {fs fs' fs'' : FileSystem} {chain chain' chain'' : Fin dirSize → List ℕ}
  {h : Fin handleTableSize} {i k : Fin dirSize} {name x : CString} {d d' : Directory}
  {e : DirectoryEntry} {bytes chunk : List UInt8} {cap : ℕ}

def file (fs : FileSystem) (chain : Fin dirSize → List ℕ) (name : CString) : Option (List UInt8) :=
  (fs.rootDirectory.lookup name).map (content fs chain)

theorem file_eq_some : file fs chain name = some bytes ↔
    ∃ i, fs.rootDirectory.lookup name = some i ∧ content fs chain i = bytes :=
  Option.map_eq_some_iff

/-- The files under other names are kept, at their places in the directory. -/
structure Elsewhere (name : CString) (fs : FileSystem) (chain : Fin dirSize → List ℕ)
    (fs' : FileSystem) (chain' : Fin dirSize → List ℕ) : Prop where
  lookup : ∀ x, x ≠ name → fs'.rootDirectory.lookup x = fs.rootDirectory.lookup x
  content : ∀ x i, x ≠ name → fs.rootDirectory.lookup x = some i →
    content fs' chain' i = content fs chain i

theorem Elsewhere.trans (E : Elsewhere name fs chain fs' chain')
    (E' : Elsewhere name fs' chain' fs'' chain'') : Elsewhere name fs chain fs'' chain'' where
  lookup x hx := (E'.lookup x hx).trans (E.lookup x hx)
  content x i hx hl :=
    (E'.content x i hx ((E.lookup x hx).trans hl)).trans (E.content x i hx hl)

theorem Elsewhere.file (E : Elsewhere name fs chain fs' chain') (hx : x ≠ name) :
    file fs' chain' x = file fs chain x := by
  rw [Fat.file, Fat.file, E.lookup x hx]
  cases hl : fs.rootDirectory.lookup x with
  | none => rfl
  | some i => rw [Option.map_some, Option.map_some, E.content x i hx hl]

/-- What `truncate` and then `open` for writing make of a name: an empty file with
a new handle, and all else as it was. -/
structure Emptied (name : CString) (fs : FileSystem) (chain : Fin dirSize → List ℕ)
    (h : Fin handleTableSize) (k : Fin dirSize) (fs' : FileSystem)
    (chain' : Fin dirSize → List ℕ) : Prop where
  consistent : Consistent fs' chain'
  idle : (fs.handleTable h).inUse = false
  handle : fs'.handleTable h = { fs'.handleTable h with
    offset := 0, directoryIndex := k, inUse := true, mode := .WRITE }
  handles : ∀ m, m ≠ h → fs'.handleTable m = fs.handleTable m
  found : fs'.rootDirectory.lookup name = some k
  size : (fs'.rootDirectory k).size = 0
  elsewhere : Elsewhere name fs chain fs' chain'

section Emptying

variable (C : Consistent fs chain) (hn : name.Fits)

include C hn

theorem created_emptied {j : Fin fatSize} (hh : (fs.handleTable h).inUse = false)
    (hl : fs.rootDirectory.lookup name = none) (hi : (fs.rootDirectory i).inUse = 0)
    (hj : fs.fat j = 0) : Emptied name fs chain h i ((created fs i j name).withHandle h
      { offset := 0, directoryIndex := i, currentBlock := j, inUse := true, mode := .WRITE })
      (update chain i [j.val]) := by
  have hname : ((created fs i j name).rootDirectory i).nameBytes = name.bytes :=
    DirectoryEntry.nameBytes_copied (d := fs.rootDirectory) (i := i) (by simp [created]) hn
  have hd : (created fs i j name).rootDirectory = update fs.rootDirectory i _ := rfl
  rw [hd, update_self] at hname
  refine ⟨(Effect.created h i j hn hh hl rfl hi hj).consistent C, hh, ?_, fun m hm ↦ ?_,
    Directory.lookup_update_self hl ⟨by simp, hname⟩, ?_, fun x hx ↦ ?_, fun x m _ hm ↦ ?_⟩
  · simp
  · simp [hm, created]
  · simp [created]
  · exact Directory.lookup_update (fun H ↦ H.1 hi) fun H ↦
      hx (CString.ext_bytes (H.2.symm.trans hname))
  · have hmi : m ≠ i := by
      rintro rfl
      exact (Directory.holds_of_lookup hm).1 hi
    exact content_congr rfl (by simp [created, hmi]) (update_of_ne hmi _ _)

omit C hn in
theorem truncated_elsewhere (hl : fs.rootDirectory.lookup name = some k) : Elsewhere name fs chain
    ((released fs chain k { fs.rootDirectory k with size := 0 }).setFat
      (fs.rootDirectory k).startingBlock eofFatEntry)
    (update chain k [(fs.rootDirectory k).startingBlock]) where
  lookup x _ := Directory.lookup_resize
  content x m hx hm := by
    have hmk := Directory.lookup_ne hl hm hx
    exact content_congr rfl (congrArg DirectoryEntry.size (update_of_ne hmk _ fs.rootDirectory))
      (update_of_ne hmk _ _)

omit C hn in
theorem removed_elsewhere (hl : fs.rootDirectory.lookup name = some k) : Elsewhere name fs chain
    (released fs chain k { fs.rootDirectory k with inUse := 0 }) (update chain k []) where
  lookup x hx := Directory.lookup_update
    (fun H ↦ hx (CString.ext_bytes (H.2.symm.trans (Directory.holds_of_lookup hl).2)))
    fun H ↦ H.1 rfl
  content x m hx hm := by
    have hmk := Directory.lookup_ne hl hm hx
    exact content_congr rfl (congrArg DirectoryEntry.size (update_of_ne hmk _ fs.rootDirectory))
      (update_of_ne hmk _ _)

theorem truncated_emptied (hc : Closed fs k) (hl : fs.rootDirectory.lookup name = some k)
    {fs₁ : FileSystem}
    (hfs₁ : fs₁ = (released fs chain k { fs.rootDirectory k with size := 0 }).setFat
      (fs.rootDirectory k).startingBlock eofFatEntry)
    (hh : (fs₁.handleTable h).inUse = false) :
    Emptied name fs chain h k (fs₁.withHandle h
      (newHandle fs₁.rootDirectory (update chain k [(fs.rootDirectory k).startingBlock]) k .WRITE))
      (update chain k [(fs.rootDirectory k).startingBlock]) := by
  obtain ⟨hu, hs⟩ := C.of_lookup hn hl
  have C₁ := C.truncated hc hu
  have E : Elsewhere name fs chain _ _ := truncated_elsewhere hl
  rw [← hfs₁] at C₁ E
  have hd : fs₁.rootDirectory = update fs.rootDirectory k
      { fs.rootDirectory k with size := 0 } := by
    rw [hfs₁]
    rfl
  have hl₁ : fs₁.rootDirectory.lookup name = some k := by
    rw [hd]
    exact Directory.lookup_resize.trans hl
  have hu₁ : (fs₁.rootDirectory k).inUse = 1 := by rw [hd, update_self]; exact hu
  have hs₁ : (fs₁.rootDirectory k).size = 0 := by rw [hd, update_self]
  refine ⟨C₁.withHandle fun _ ↦ newHandle_ok hu₁ hs₁.ge .WRITE, ?_, ?_, fun m hm ↦ ?_, hl₁, hs₁,
    ⟨E.lookup, E.content⟩⟩
  · rw [hfs₁] at hh
    exact hh
  · simp [newHandle, startOffset, hs₁]
  · simp [hm, hfs₁, released, setFat]

theorem open_emptied (hc : ∀ k, fs.rootDirectory.lookup name = some k → Closed fs k) {out : ℤ}
    {fs₁ : FileSystem} (ht : (truncate name).run fs = .ok () fs₁)
    (ho : (FileSystem.open name .WRITE).run fs₁ = .ok out fs') :
    ∃ h k chain', out = (h.val : ℤ) ∧ Emptied name fs chain h k fs' chain' := by
  cases hl : fs.rootDirectory.lookup name with
  | none =>
    rw [truncate_run_absent hn hl] at ht
    injection ht with _ hfs
    subst hfs
    have hopen := open_run C hn .WRITE
    rw [ho] at hopen
    cases hopen with
    | found h k hh hl' => simp [hl] at hl'
    | created h i j hh _ _ hi hj => exact ⟨h, i, _, rfl, created_emptied C hn hh hl hi hj⟩
  | some k =>
    rw [truncate_run C hn hl] at ht
    injection ht with _ hfs
    have C₁ := C.truncated (hc k hl) (C.of_lookup hn hl).1
    rw [hfs] at C₁
    have hfound : fs₁.rootDirectory.lookup name = some k := by
      rw [← hfs]
      exact Directory.lookup_resize.trans hl
    have hopen := open_run C₁ hn .WRITE
    rw [ho] at hopen
    cases hopen with
    | found h m hh hl' =>
      obtain rfl := Option.some.inj (hfound.symm.trans hl')
      exact ⟨h, k, _, rfl, truncated_emptied C hn (hc k hl) hl hfs.symm hh⟩
    | created h i j hh hl' _ _ _ => simp [hfound] at hl'

end Emptying

/-- A file that takes what is written through its handle as long as there is room
for it: it holds the first `cap` bytes of those that were offered so far. -/
structure Receiving (h : Fin handleTableSize) (k : Fin dirSize) (cap : ℕ) (bytes : List UInt8)
    (fs : FileSystem) (chain : Fin dirSize → List ℕ) : Prop where
  consistent : Consistent fs chain
  inUse : (fs.handleTable h).inUse = true
  mode : (fs.handleTable h).mode = .WRITE
  index : (fs.handleTable h).directoryIndex = k
  atEnd : (fs.handleTable h).offset = (fs.rootDirectory k).size
  content : content fs chain k = bytes.take cap
  room : room fs k = cap - bytes.length

/-- What a transfer into the file `k` through some handles leaves alone. -/
structure Around (H : Set (Fin handleTableSize)) (k : Fin dirSize) (fs : FileSystem)
    (chain : Fin dirSize → List ℕ) (fs' : FileSystem) (chain' : Fin dirSize → List ℕ) : Prop where
  directory :
    ∃ s, fs'.rootDirectory = update fs.rootDirectory k { fs.rootDirectory k with size := s }
  handles : ∀ m, m ∉ H → fs'.handleTable m = fs.handleTable m
  inUse : ∀ m, (fs'.handleTable m).inUse = (fs.handleTable m).inUse
  content : ∀ m, m ≠ k → content fs' chain' m = content fs chain m

variable {H H' : Set (Fin handleTableSize)}

theorem Around.rfl : Around H k fs chain fs chain :=
  ⟨⟨(fs.rootDirectory k).size, by simp⟩, fun _ _ ↦ .refl _, fun _ ↦ .refl _, fun _ _ ↦ .refl _⟩

theorem Around.mono (A : Around H k fs chain fs' chain') (hH : H ⊆ H') :
    Around H' k fs chain fs' chain' :=
  ⟨A.directory, fun m hm ↦ A.handles m fun h ↦ hm (hH h), A.inUse, A.content⟩

theorem Around.trans (A : Around H k fs chain fs' chain')
    (A' : Around H k fs' chain' fs'' chain'') : Around H k fs chain fs'' chain'' where
  directory := by
    obtain ⟨s, hs⟩ := A.directory
    obtain ⟨s', hs'⟩ := A'.directory
    exact ⟨s', by rw [hs', hs, update_idem, update_self]⟩
  handles m hm := (A'.handles m hm).trans (A.handles m hm)
  inUse m := (A'.inUse m).trans (A.inUse m)
  content m hm := (A'.content m hm).trans (A.content m hm)

theorem Around.seek {l : List ℕ} {o : ℕ} :
    Around {h} k fs chain (fs.seek h l o) chain where
  directory := ⟨(fs.rootDirectory k).size, by simp [FileSystem.seek]⟩
  handles m hm := by simp [FileSystem.seek, show m ≠ h from hm]
  inUse m := by
    rcases eq_or_ne m h with rfl | hm
    · rw [seek_handle]
    · simp [FileSystem.seek, hm]
  content _ _ := .refl _

theorem Around.elsewhere (A : Around H k fs chain fs' chain')
    (hl : fs.rootDirectory.lookup name = some k) : Elsewhere name fs chain fs' chain' := by
  obtain ⟨s, hs⟩ := A.directory
  refine ⟨fun x _ ↦ ?_, fun x m hx hm ↦ A.content m (Directory.lookup_ne hl hm hx)⟩
  rw [hs]
  exact Directory.lookup_resize

theorem Emptied.receiving (E : Emptied name fs chain h k fs' chain') :
    Receiving h k (1024 * freeCount fs'.fat + 1023) [] fs' chain' where
  consistent := E.consistent
  inUse := by rw [E.handle]
  mode := by rw [E.handle]
  index := by rw [E.handle]
  atEnd := by rw [E.handle, E.size]
  content := by rw [content_eq_nil E.size, List.take_nil]
  room := by
    rw [Fat.room, E.size]
    rfl

/-- One write to a file that receives bytes. It returns the number asked for if
and only if nothing was left out so far. -/
theorem Receiving.write (R : Receiving h k cap bytes fs chain) (chunk : List UInt8) :
    ∃ (r : ℕ) (fs' : FileSystem) (chain' : Fin dirSize → List ℕ),
      (FileSystem.write h chunk chunk.length).run fs = .ok r fs' ∧
      Receiving h k cap (bytes ++ chunk) fs' chain' ∧ Around {h} k fs chain fs' chain' ∧
      r = min chunk.length (cap - bytes.length) := by
  have heof : (fs.handleTable h).offset =
      (fs.rootDirectory (fs.handleTable h).directoryIndex).size := by rw [R.index, R.atEnd]
  have hroom : Fat.room fs (fs.handleTable h).directoryIndex = cap - bytes.length := by
    rw [R.index, R.room]
  obtain ⟨r, hr⟩ : ∃ r, r = min chunk.length (cap - bytes.length) := ⟨_, .refl _⟩
  obtain ⟨⟨ws, hrun⟩, ⟨chain', A⟩, hleft⟩ :=
    write_whole R.consistent R.inUse R.mode heof chunk (hr.trans (by rw [hroom]))
  obtain ⟨fs', hfs'⟩ : ∃ fs', fs' = appendBytes h fs (chunk.take r) := ⟨_, .refl _⟩
  rw [← hfs'] at hrun A hleft
  have hdirectory := A.directory
  have hcontent := A.content
  rw [R.index] at hdirectory hcontent
  rw [hroom, R.index] at hleft
  have hlen : (chunk.take r).length = r := by
    rw [List.length_take]
    omega
  -- the bytes accepted are those of the first `cap` that come after the old ones
  have htake : bytes.take cap ++ chunk.take r = (bytes ++ chunk).take cap := by
    have hleft : chunk.take r = chunk.take (cap - bytes.length) :=
      List.take_eq_take_iff.mpr (by omega)
    rw [List.take_append, hleft]
  refine ⟨r, fs'.wrote ws, chain', hrun, ⟨A.consistent.wrote, ?_, ?_, ?_, ?_, ?_, ?_⟩,
    ⟨⟨_, hdirectory⟩, fun m hm ↦ A.others m hm, fun m ↦ ?_, fun m hm ↦ ?_⟩, hr⟩
  · rw [wrote_fields.2.2.2.2.2.2.1, A.handle]
    exact R.inUse
  · rw [wrote_fields.2.2.2.2.2.2.1, A.handle]
    exact R.mode
  · rw [wrote_fields.2.2.2.2.2.2.1, A.handle]
    exact R.index
  · rw [wrote_fields.2.2.2.2.2.2.1, wrote_fields.2.2.2.2.2.1, A.handle, hdirectory, update_self,
      R.atEnd]
  · show Fat.content fs' chain' k = _
    rw [hcontent, update_self, R.content, htake]
  · show Fat.room fs' k = _
    rw [hleft, List.length_append]
    omega
  · rw [wrote_fields.2.2.2.2.2.2.1]
    rcases eq_or_ne m h with rfl | hm
    · rw [A.handle]
    · rw [A.others m hm]
  · show Fat.content fs' chain' m = _
    rw [hcontent, update_of_ne hm]

/-- A file that is read through a handle, `o` bytes of it so far. -/
structure Sending (m : Fin handleTableSize) (i : Fin dirSize) (o : ℕ) (bytes : List UInt8)
    (fs : FileSystem) (chain : Fin dirSize → List ℕ) : Prop where
  inUse : (fs.handleTable m).inUse = true
  mode : (fs.handleTable m).mode = .READ
  index : (fs.handleTable m).directoryIndex = i
  offset : (fs.handleTable m).offset = o
  content : content fs chain i = bytes

variable {m : Fin handleTableSize} {o n : ℕ}

theorem Sending.of_found (C : Consistent fs chain) (hn : name.Fits)
    (hl : fs.rootDirectory.lookup name = some i) :
    Consistent (fs.withHandle m (newHandle fs.rootDirectory chain i .READ)) chain ∧
      Sending m i 0 (Fat.content fs chain i)
        (fs.withHandle m (newHandle fs.rootDirectory chain i .READ)) chain := by
  obtain ⟨hu, hs⟩ := C.of_lookup hn hl
  refine ⟨C.withHandle fun _ ↦ newHandle_ok hu hs .READ, ?_, ?_, ?_, ?_, .refl _⟩
  · simp [newHandle]
  · simp [newHandle]
  · simp [newHandle]
  · simp [newHandle, startOffset]

theorem Sending.read (S : Sending m i o bytes fs chain) (C : Consistent fs chain)
    (hn : n = ((bytes.drop o).take 1000).length) :
    (FileSystem.read m 1000).run fs = .ok (n, (bytes.drop o).take 1000)
    (fs.seek m (chain i) (o + n)) := by
  have hsize : (Fat.content fs chain i).length = (fs.rootDirectory i).size.toNat := length_content
  rw [S.content] at hsize
  have hcount : n = min (1000 : ℤ).toNat ((fs.rootDirectory i).size.toNat - o) := by
    rw [hn, List.length_take, List.length_drop, hsize]
    rfl
  rw [read_run C S.inUse S.mode S.index (by decide) S.offset hcount, S.content]
  rfl

theorem Sending.le_size (S : Sending m i o bytes fs chain) (C : Consistent fs chain) :
    o ≤ bytes.length ∧ (bytes.length : ℤ) = (fs.rootDirectory i).size := by
  have H := C.handles m S.inUse
  have hle := H.le_size
  have h0 := H.nonneg
  rw [S.index, S.offset] at hle
  rw [← S.content, length_content]
  omega

theorem Sending.seek (S : Sending m i o bytes fs chain) :
    Sending m i n bytes (fs.seek m (chain i) n) chain where
  inUse := by rw [seek_handle]; exact S.inUse
  mode := by rw [seek_handle]; exact S.mode
  index := by rw [seek_handle]; exact S.index
  offset := by rw [seek_handle]
  content := S.content

theorem Sending.congr (S : Sending m i o bytes fs chain) (hm : fs'.handleTable m = fs.handleTable m)
    (hc : Fat.content fs' chain' i = Fat.content fs chain i) : Sending m i o bytes fs' chain' where
  inUse := by rw [hm]; exact S.inUse
  mode := by rw [hm]; exact S.mode
  index := by rw [hm]; exact S.index
  offset := by rw [hm]; exact S.offset
  content := by rw [hc]; exact S.content

theorem Sending.length_lt (S : Sending m i o bytes fs chain) (C : Consistent fs chain) :
    bytes.length < 2 ^ 31 := by
  have hsize := (S.le_size C).2
  have H := C.handles m S.inUse
  have hinUse := H.inUse
  rw [S.index] at hinUse
  have hlt := C.layout.size_lt hinUse (by omega)
  omega

theorem Receiving.seek {sent : List UInt8} (R : Receiving h k cap bytes fs chain)
    (S : Sending m i o sent fs chain) (hm : m ≠ h) (hn : n ≤ sent.length) :
    Receiving h k cap bytes (fs.seek m (chain i) n) chain := by
  have hh : (fs.seek m (chain i) n).handleTable h = fs.handleTable h :=
    (Around.seek : Around {m} k fs chain _ chain).handles h hm.symm
  have hinUse := (R.consistent.handles m S.inUse).inUse
  have hsize := S.le_size R.consistent
  rw [S.index] at hinUse
  exact ⟨R.consistent.seek S.index hinUse (by omega), by rw [hh]; exact R.inUse,
    by rw [hh]; exact R.mode, by rw [hh]; exact R.index, by rw [hh]; exact R.atEnd,
    R.content, R.room⟩

def shut (fs : FileSystem) (h : Fin handleTableSize) : FileSystem :=
  fs.withHandle h { fs.handleTable h with inUse := false }

theorem Consistent.shut (C : Consistent fs chain) : Consistent (shut fs h) chain :=
  C.withHandle fun hu ↦ Bool.noConfusion hu

theorem shut_of_ne (hm : m ≠ h) : (shut fs h).handleTable m = fs.handleTable m := by
  simp [Fat.shut, hm]

theorem shut_closed (hm : m ≠ h → (fs.handleTable m).inUse = false) :
    ((shut fs h).handleTable m).inUse = false := by
  rcases eq_or_ne m h with rfl | hne
  · simp [Fat.shut]
  · rw [shut_of_ne hne]
    exact hm hne

end GenericFs.Fat
