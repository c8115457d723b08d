import GenericFs.Library.Ensuring
import GenericFs.Spica.Runs
import GenericFs.Spica.Values

namespace GenericFs.Spica

open GenericFs.Library Cells Function Workspace Ensuring

/-- The loop of `operator>>`: a newline is taken from the stream and is not added. -/
def World.extractLoop (temp : ℕ) : World → List UInt8 → Except Fault (World × List UInt8)
  | w, [] => .ok (w, [])
  | w, ch :: is =>
    if ch = 0x0A then .ok (w, is)
    else do World.extractLoop temp (← w.exec (.append temp (.char ch))) is

/-- `operator>>`, with the number of its local string. -/
def World.extract (w : World) (right temp : ℕ) (is : List UInt8) :
    Except Fault (World × List UInt8) := do
  let w ← w.exec (.construct temp)
  let (w, is) ← w.extractLoop temp is
  let w ← w.exec (.assign right temp)
  return (← w.exec (.destroy temp), is)

def World.readLine (w : World) (line temp : ℕ) (is : List UInt8) :
    Except Fault (World × List UInt8) := do
  (← w.exec (.construct line)).extract line temp is

def World.words (w : World) (x : ℕ) : Except Fault ℤ := do
  Workspace.words (← w.memory.node (← w.find x)).value (isWhite none)

def World.text (w : World) (x : ℕ) : Except Fault Text := do
  inside (cstring (← w.memory.node (← w.find x)).value)

/-- The call of `word` on a string, whose result lives as the string `y` until it is read. -/
def World.word (w : World) (y x : ℕ) (n : ℤ) : Except Fault (World × Text) := do
  let w ← w.exec (.result y x (.subword n 1 none))
  let t ← w.text y
  return (← w.exec (.destroy y), t)

def World.wordsAsked (y x : ℕ) : List ℕ → World → Except Fault (World × List Text)
  | [], w => .ok (w, [])
  | n :: ns, w => do
    let (w, t) ← w.word y x n
    let (w, ts) ← World.wordsAsked y x ns w
    return (w, t :: ts)

/-- What one turn of the loop in `my_main` does with its strings: the line is read, its first
word is compared with the names of the commands, and the command counts the words and asks
for some of them. -/
def World.turn (w : World) (line command temp : ℕ) (asked : List ℕ) (is : List UInt8) :
    Except Fault (World × (ℤ × List Text) × List UInt8) := do
  let (w, is) ← w.readLine line temp is
  let w ← w.exec (.result command line (.subword 1 1 none))
  let name ← w.text command
  let count ← w.words line
  let (w, texts) ← World.wordsAsked temp line asked w
  -- The last string of the block is destroyed first.
  let w ← w.exec (.destroy command)
  return (← w.exec (.destroy line), (count, name :: texts), is)

def World.turns (line command temp : ℕ) :
    List (List ℕ) → World → List UInt8 → Except Fault (World × List (ℤ × List Text))
  | [], w, _ => .ok (w, [])
  | asked :: turns, w, is => do
    let (w, answer, is) ← w.turn line command temp asked is
    let (w, answers) ← World.turns line command temp turns w is
    return (w, answer :: answers)

def typedLine (is : List UInt8) : Text := is.takeWhile (· ≠ 0x0A)

def behindLine (is : List UInt8) : List UInt8 := (is.dropWhile (· ≠ 0x0A)).tail

variable {w w' : World} {S : Values} {line temp x : ℕ} {is : List UInt8} {t : Text}

theorem Represents.live_update (h : Represents w S) (h' : Represents w' (update S x (some t))) :
    w'.live = insert x w.live := by
  ext y
  rw [h'.sound.alive, Finset.mem_insert, h.sound.alive]
  by_cases hy : y = x
  · rw [hy, update_self]
    simp
  · rw [update_of_ne hy]
    simp [hy]

theorem update_append_nil (hx : S temp = some t) : update S temp (some (t ++ [])) = S := by
  rw [List.append_nil, ← hx, update_eq_self]

/-- The loop appends what stands before the newline. -/
theorem extractLoop_spec (h : Represents w S) (hx : S temp = some t) (hclean : 0 ∉ typedLine is)
    (hlen : t.length + (typedLine is).length < intMax) :
    ∃ w', w.extractLoop temp is = .ok (w', behindLine is) ∧
      Represents w' (update S temp (some (t ++ typedLine is))) := by
  induction is generalizing w S t with
  | nil =>
    refine ⟨w, rfl, ?_⟩
    rwa [typedLine, List.takeWhile_nil, update_append_nil hx]
  | cons ch is ih =>
    by_cases hch : ch = 0x0A
    · refine ⟨w, ?_, ?_⟩
      · subst hch
        rfl
      · rwa [typedLine, List.takeWhile_cons_of_neg (by simpa using hch), update_append_nil hx]
    · have hline : typedLine (ch :: is) = ch :: typedLine is :=
        List.takeWhile_cons_of_pos (by simpa using hch)
      have hbehind : behindLine (ch :: is) = behindLine is := by
        rw [behindLine, List.dropWhile_cons_of_pos (by simpa using hch), behindLine]
      rw [hline, List.mem_cons, not_or] at hclean
      rw [hline, List.length_cons] at hlen
      have hlegal : (Op.append temp (.char ch)).Legal S :=
        ⟨by rw [hx]; rfl, fun he ↦ hclean.1 he.symm⟩
      have hfits : (Op.append temp (.char ch)).Fits w S := by
        intro a ha u hu
        rw [hx] at ha
        cases ha
        cases hu
        simp only [List.length_singleton]
        omega
      obtain ⟨w₁, hexec, h₁⟩ := h.exec hlegal hfits
      have hvalue : (Op.append temp (.char ch)).value S = update S temp (some (t ++ [ch])) := by
        rw [Op.value, hx]
        rfl
      rw [hvalue] at h₁
      obtain ⟨w', hloop, h'⟩ := ih h₁ (update_self ..) hclean.2 (by
        rw [List.length_append, List.length_singleton]
        omega)
      refine ⟨w', ?_, ?_⟩
      · rw [World.extractLoop, if_neg hch, hexec, ok_bind, hloop, hbehind]
      · rwa [hline, ← List.append_cons, update_idem] at *

theorem sharers_le {y : ℕ} : w.sharers x y ≤ w.live.card :=
  (Finset.card_filter_le _ _).trans (Finset.card_le_card (Finset.erase_subset _ _))

theorem destroy_spec (h : Represents w (update S x (some t))) (hx : S x = none) :
    ∃ w', w.exec (.destroy x) = .ok w' ∧ Represents w' S := by
  have hlegal : (Op.destroy x).Legal (update S x (some t)) := by
    simp only [Op.Legal]
    rw [update_self]
    rfl
  obtain ⟨w', hexec, h'⟩ := h.exec hlegal trivial
  have hsame : (Op.destroy x).value (update S x (some t)) = S := by
    rw [Op.value, update_idem, ← hx, update_eq_self]
  exact ⟨w', hexec, by rwa [hsame] at h'⟩

theorem extract_spec {right : ℕ} (h : Represents w S) (hright : (S right).isSome)
    (htemp : S temp = none)
    (hlive : w.live.card + 1 < intMax) (hclean : 0 ∉ typedLine is)
    (hlen : (typedLine is).length < intMax) :
    ∃ w', w.extract right temp is = .ok (w', behindLine is) ∧
      Represents w' (update S right (some (typedLine is))) := by
  have hne : right ≠ temp := by
    rintro rfl
    rw [htemp] at hright
    contradiction
  have hlegal₁ : (Op.construct temp).Legal S := htemp
  obtain ⟨w₁, hconstruct, h₁⟩ := h.exec hlegal₁ trivial
  have hempty : (Op.construct temp).value S temp = some [] := update_self ..
  obtain ⟨w₂, hloop, h₂⟩ :=
    extractLoop_spec h₁ hempty hclean (by rwa [List.length_nil, Nat.zero_add])
  rw [List.nil_append] at h₂
  have hvalue : update ((Op.construct temp).value S) temp (some (typedLine is)) =
      update S temp (some (typedLine is)) := update_idem ..
  rw [hvalue] at h₂
  have hcard : w₂.live.card ≤ w.live.card + 1 := by
    rw [h.live_update h₂]
    exact Finset.card_insert_le _ _
  have hlegal₂ : (Op.assign right temp).Legal (update S temp (some (typedLine is))) :=
    ⟨by rwa [update_of_ne hne], by rw [update_self]; rfl⟩
  obtain ⟨w₃, hassign, h₃⟩ := h₂.exec hlegal₂ (.inr ((sharers_le.trans hcard).trans_lt hlive))
  have hvalue' : (Op.assign right temp).value (update S temp (some (typedLine is))) =
      update (update S right (some (typedLine is))) temp (some (typedLine is)) := by
    rw [Op.value, update_self, update_comm hne]
  rw [hvalue'] at h₃
  obtain ⟨w₄, hdestroy, h₄⟩ := destroy_spec h₃ ((update_of_ne hne.symm _ _).trans htemp)
  refine ⟨w₄, ?_, h₄⟩
  rw [World.extract, hconstruct, ok_bind, hloop, ok_bind]
  simp only [hassign, ok_bind, hdestroy]
  rfl

theorem Represents.node (h : Represents w S) (hx : S x = some t) :
    w.find x = .ok (w.rep x) ∧
      (∃ count, w.memory.node (w.rep x) = .ok ⟨count, image t⟩) ∧ 0 ∉ t := by
  have hsome : (S x).isSome := by rw [hx]; rfl
  obtain ⟨T, -, hfind, htext, hreads⟩ := h.alive hsome
  rw [hx] at htext
  have hmem : w.rep x ∈ w.rep x ::ₘ w.others x := Multiset.mem_cons_self _ _
  have hcell := hreads.sharing.holds.owned _ hmem
  have hclean := hreads.sharing.clean _ hmem
  rw [← Option.some.inj htext] at hcell hclean
  refine ⟨hfind, ⟨((w.rep x ::ₘ w.others x).count (w.rep x) : ℕ), ?_⟩, hclean⟩
  rw [Memory.node, hcell]
  rfl

theorem Represents.words (h : Represents w S) (hx : S x = some t) (hlen : t.length ≤ intMax) :
    w.words x = .ok (Text.words (isWhite none) t : ℤ) := by
  obtain ⟨hfind, ⟨count, hnode⟩, hclean⟩ := h.node hx
  rw [World.words, hfind, ok_bind, hnode, ok_bind]
  exact words_image hclean (Text.words_le_length.trans hlen)

theorem Represents.text (h : Represents w S) (hx : S x = some t) : w.text x = .ok t := by
  obtain ⟨hfind, ⟨count, hnode⟩, hclean⟩ := h.node hx
  rw [World.text, hfind, ok_bind, hnode, ok_bind, cstring_image hclean]
  rfl

theorem length_subword_le {white : UInt8 → Bool} {n : ℤ} :
    (t.subword white n 1).length ≤ t.length := by
  by_cases h : n < 1 ∨ (1 : ℤ) ≤ 0 ∨ Text.words white t < n
  · rw [Text.subword_nothing h]
    exact Nat.zero_le _
  · rw [Text.subword_something (by omega) (by omega) (by omega), List.length_drop, List.length_take]
    omega

theorem result_spec {y n : ℕ} (h : Represents w S) (hx : S x = some t)
    (hy : S y = none) (hn : 1 ≤ n)
    (hint : n ≤ intMax) (hlen : t.length < intMax) :
    ∃ w', w.exec (.result y x (.subword n 1 none)) = .ok w' ∧
      Represents w' (update S y (some (t.subword (isWhite none) n 1))) := by
  have hmax : intMax = 2 ^ 31 - 1 := rfl
  have hlegal : (Op.result y x (.subword n 1 none)).Legal S :=
    ⟨hy, by rw [hx]; rfl, ⟨by omega, by omega⟩, by decide, fun p hp ↦ absurd hp (by simp)⟩
  have hfits : (Op.result y x (.subword n 1 none)).Fits w S := by
    intro a ha
    rw [hx] at ha
    cases ha
    refine ⟨⟨by omega, by omega⟩, fun d hd _ _ ↦ ?_⟩
    cases hd
    exact ⟨Text.words_le_length.trans hlen.le, length_subword_le.trans_lt hlen⟩
  obtain ⟨w', hresult, h'⟩ := h.exec hlegal hfits
  have hvalue : (Op.result y x (.subword n 1 none)).value S =
      update S y (some (t.subword (isWhite none) n 1)) := by
    rw [Op.value, hx]
    rfl
  exact ⟨w', hresult, by rwa [hvalue] at h'⟩

theorem word_spec {y n : ℕ} (h : Represents w S) (hx : S x = some t) (hy : S y = none) (hn : 1 ≤ n)
    (hint : n ≤ intMax) (hlen : t.length < intMax) :
    ∃ w', w.word y x n = .ok (w', t.subword (isWhite none) n 1) ∧ Represents w' S := by
  obtain ⟨w₁, hresult, h₁⟩ := result_spec h hx hy hn hint hlen
  obtain ⟨w₂, hdestroy, h₂⟩ := destroy_spec h₁ hy
  refine ⟨w₂, ?_, h₂⟩
  rw [World.word, hresult, ok_bind, h₁.text (update_self ..), ok_bind, hdestroy]
  rfl

theorem wordsAsked_spec {y : ℕ} {asked : List ℕ} (h : Represents w S) (hx : S x = some t)
    (hy : S y = none) (hasked : ∀ n ∈ asked, 1 ≤ n ∧ n ≤ intMax) (hlen : t.length < intMax) :
    ∃ w', World.wordsAsked y x asked w =
    .ok (w', asked.map fun n : ℕ ↦ t.subword (isWhite none) n 1) ∧
      Represents w' S := by
  induction asked generalizing w with
  | nil => exact ⟨w, rfl, h⟩
  | cons n asked ih =>
    obtain ⟨hn, hint⟩ := hasked n List.mem_cons_self
    obtain ⟨w₁, hword, h₁⟩ := word_spec h hx hy hn hint hlen
    obtain ⟨w', hrest, h'⟩ := ih h₁ fun m hm ↦ hasked m (List.mem_cons_of_mem _ hm)
    refine ⟨w', ?_, h'⟩
    rw [World.wordsAsked, hword, ok_bind]
    simp only [hrest, ok_bind]
    rfl

theorem turn_spec {command : ℕ} {asked : List ℕ} (h : Represents w S) (hline : S line = none)
    (hcommand : S command = none) (htemp : S temp = none) (hdistinct : [line, command, temp].Nodup)
    (hlive : w.live.card + 2 < intMax) (hclean : 0 ∉ typedLine is)
    (hlen : (typedLine is).length < intMax)
    (hasked : ∀ n ∈ asked, 1 ≤ n ∧ n ≤ intMax) :
    ∃ w', w.turn line command temp asked is =
    .ok (w', ((Text.words (isWhite none) (typedLine is) : ℕ),
      (1 :: asked).map fun n : ℕ ↦ (typedLine is).subword (isWhite none) n 1), behindLine is) ∧
      Represents w' S := by
  obtain ⟨hcommand', hne, hne'⟩ : line ≠ command ∧ line ≠ temp ∧ command ≠ temp := by
    simpa [and_assoc] using hdistinct
  have hlegal : (Op.construct line).Legal S := hline
  obtain ⟨w₁, hconstruct, h₁⟩ := h.exec hlegal trivial
  have hcard : w₁.live.card ≤ w.live.card + 1 := by
    rw [h.live_update (x := line) (t := []) h₁]
    exact Finset.card_insert_le _ _
  have htemp₁ : (Op.construct line).value S temp = none := (update_of_ne hne.symm _ _).trans htemp
  have hline₁ : ((Op.construct line).value S line).isSome := by rw [Op.value, update_self]; rfl
  obtain ⟨w₂, hextract, h₂⟩ := extract_spec h₁ hline₁ htemp₁ (by omega) hclean hlen
  have hvalue : update ((Op.construct line).value S) line (some (typedLine is)) =
      update S line (some (typedLine is)) := update_idem ..
  rw [hvalue] at h₂
  have hself : update S line (some (typedLine is)) line = some (typedLine is) := update_self ..
  have hother : update S line (some (typedLine is)) command = none :=
    (update_of_ne hcommand'.symm _ _).trans hcommand
  obtain ⟨w₃, hresult, h₃⟩ := result_spec h₂ hself hother le_rfl (by decide) hlen
  have hname := h₃.text (update_self ..)
  set name := (typedLine is).subword (isWhite none) (1 : ℕ) 1
  have hline₃ :
      update (update S line (some (typedLine is))) command (some name) line = some (typedLine is) :=
    (update_of_ne hcommand' _ _).trans hself
  have htemp₃ : update (update S line (some (typedLine is))) command (some name) temp = none :=
    (update_of_ne hne'.symm _ _).trans ((update_of_ne hne.symm _ _).trans htemp)
  obtain ⟨w₄, hwords, h₄⟩ := wordsAsked_spec h₃ hline₃ htemp₃ hasked hlen
  obtain ⟨w₅, hdestroy, h₅⟩ := destroy_spec h₄ hother
  obtain ⟨w₆, hdestroy', h₆⟩ := destroy_spec h₅ hline
  refine ⟨w₆, ?_, h₆⟩
  rw [World.turn, World.readLine, hconstruct, ok_bind, hextract, ok_bind]
  rw [Nat.cast_one] at hresult
  simp only [hresult, hname, h₃.words hline₃ hlen.le, hwords, hdestroy, hdestroy', ok_bind]
  rfl

end GenericFs.Spica
