import GenericFs.Shell.Program
import GenericFs.Spica.Typing

namespace GenericFs.Shell

open GenericFs.Fat GenericFs.Spica GenericFs.Library Function Workspace

/-- The words of a line, as its maximal runs of characters that are no white space. -/
def commandLine (line : CString) : CommandLine :=
  (Text.wordRuns (isWhite none) line.bytes).map fun r ↦ ⟨(line.bytes.take r.2).drop r.1,
    fun h ↦ line.noNul (List.mem_of_mem_take (List.mem_of_mem_drop h))⟩

variable {line : CString} {n : ℕ}

theorem length_commandLine : (commandLine line).length = Text.words (isWhite none) line.bytes := by
  rw [commandLine, List.length_map, Text.length_wordRuns]

/-- The word that the shell takes from a line is the one that `word` makes. -/
theorem word_commandLine (hn : 1 ≤ n) :
    (word (commandLine line) n).bytes = Text.subword (isWhite none) line.bytes n 1 := by
  by_cases h : n ≤ Text.words (isWhite none) line.bytes
  · have hlt : n - 1 < Text.words (isWhite none) line.bytes := by omega
    have hrun := Text.getElem?_wordRuns hlt
    have hlast : (min ((n : ℤ) + 1 - 1) (Text.words (isWhite none) line.bytes) - 1).toNat =
      n - 1 := by omega
    have hfirst : ((n : ℤ) - 1).toNat = n - 1 := by omega
    rw [Text.subword_something (by omega) (by omega) (by omega), hlast, hfirst, word, commandLine,
      List.getD_eq_getElem?_getD, List.getElem?_map, hrun]
    rfl
  · rw [Text.subword_nothing (by omega), word, List.getD_eq_default]
    rw [length_commandLine]
    omega

theorem typedLine_clean {is : List UInt8} (h : 0 ∉ is) : 0 ∉ typedLine is :=
  fun hmem ↦ h ((List.takeWhile_sublist _).mem hmem)

theorem behindLine_clean {is : List UInt8} (h : 0 ∉ is) : 0 ∉ behindLine is :=
  fun hmem ↦ h ((List.dropWhile_sublist _).mem (List.mem_of_mem_tail hmem))

theorem iterate_clean {is : List UInt8} (h : 0 ∉ is) (k : ℕ) : 0 ∉ behindLine^[k] is := by
  induction k generalizing is with
  | zero => exact h
  | succ k ih => exact ih (behindLine_clean h)

def lineAt (is : List UInt8) (h : 0 ∉ is) (k : ℕ) : CString :=
  ⟨typedLine (behindLine^[k] is), typedLine_clean (iterate_clean h k)⟩

theorem length_lineAt_le {is : List UInt8} {h : 0 ∉ is} {k : ℕ} :
    (lineAt is h k).bytes.length ≤ is.length := by
  have hbehind : (behindLine^[k] is).length ≤ is.length := by
    clear h
    induction k generalizing is with
    | zero => exact le_rfl
    | succ k ih =>
      refine ih.trans ((List.tail_sublist _).length_le.trans ?_)
      exact (List.dropWhile_sublist _).length_le
  exact (List.takeWhile_sublist _).length_le.trans hbehind

/-- What a turn is told of a line: the number of its words, the first one, and those that the
command asks for. -/
def answer (line : CommandLine) (asked : List ℕ) : ℤ × List Text :=
  (line.length, (1 :: asked).map fun n ↦ (word line n).bytes)

section Turns

variable {w : World} {S : Values} {x command temp : ℕ} {turns : List (List ℕ)} {is : List UInt8}

theorem turns_spec (h : Represents w S) (hx : S x = none) (hcommand : S command = none)
    (htemp : S temp = none)
    (hdistinct : [x, command, temp].Nodup) (hlive : w.live.card + 2 < intMax) (hclean : 0 ∉ is)
    (hlen : ∀ k, (lineAt is hclean k).bytes.length < intMax)
    (hasked : ∀ asked ∈ turns, ∀ n ∈ asked, 1 ≤ n ∧ n ≤ intMax) :
    ∃ w', World.turns x command temp turns w is =
      .ok (w', turns.mapIdx fun k asked ↦ answer (commandLine (lineAt is hclean k)) asked) ∧
      Represents w' S := by
  induction turns generalizing w is with
  | nil => exact ⟨w, rfl, h⟩
  | cons asked turns ih =>
    have hfirst := hasked asked List.mem_cons_self
    obtain ⟨w₁, hturn, h₁⟩ := turn_spec h hx hcommand htemp hdistinct hlive (typedLine_clean hclean)
      (hlen 0) hfirst
    have hsame : w₁.live = w.live := by
      ext y
      rw [h₁.sound.alive, h.sound.alive]
    obtain ⟨w', hrest, h'⟩ := ih h₁ (hsame ▸ hlive) (behindLine_clean hclean) (fun k ↦ hlen (k + 1))
      fun asked' hmem ↦ hasked asked' (List.mem_cons_of_mem _ hmem)
    have hanswer : answer (commandLine (lineAt is hclean 0)) asked =
        (((Text.words (isWhite none) (typedLine is) : ℕ) : ℤ),
          (1 :: asked).map fun n : ℕ ↦ (typedLine is).subword (isWhite none) n 1) := by
      rw [answer, length_commandLine]
      congr 1
      refine List.map_congr_left fun n hn ↦ word_commandLine ?_
      obtain rfl | hn := List.mem_cons.1 hn
      · exact le_rfl
      · exact (hfirst n hn).1
    refine ⟨w', ?_, h'⟩
    rw [World.turns, hturn, ok_bind, List.mapIdx_cons, hanswer]
    simp only [hrest, ok_bind]
    rfl

end Turns

/-- Whatever is typed and whichever words the commands ask for, the strings of the program give
the words of the lines, and leave the other strings as they were. -/
theorem answers_of_turns {ops : List Op} {w : World} {S : Values} {x command temp : ℕ}
    {turns : List (List ℕ)} {is : List UInt8}
    (h : Machine.Run (fun p op q ↦ Spica.Step p op q ∧ op.Fits p.1 p.2) noStrings ops (w, S))
    (hx : S x = none) (hcommand : S command = none) (htemp : S temp = none)
    (hdistinct : [x, command, temp].Nodup)
    (hlive : w.live.card + 2 < intMax) (hclean : 0 ∉ is)
    (hlen : ∀ k, (lineAt is hclean k).bytes.length < intMax)
    (hasked : ∀ asked ∈ turns, ∀ n ∈ asked, 1 ≤ n ∧ n ≤ intMax) :
    ∃ w', World.turns x command temp turns w is =
      .ok (w', turns.mapIdx fun k asked ↦ answer (commandLine (lineAt is hclean k)) asked) ∧
      Spica.Sound w' S := by
  obtain ⟨w', hturns, h'⟩ :=
    turns_spec (represents_of_run h) hx hcommand htemp hdistinct hlive hclean hlen hasked
  exact ⟨w', hturns, h'.sound⟩

theorem answers_of_turns_vdel :
    ∃ w', World.turns 0 1 2 [[2]] .empty [0x76, 0x64, 0x65, 0x6C, 0x20, 0x61, 0x0A] =
    .ok (w', [(2, [[0x76, 0x64, 0x65, 0x6C], [0x61]])]) ∧ Spica.Sound w' fun _ ↦ none := by
  have hclean : 0 ∉ [(0x76 : UInt8), 0x64, 0x65, 0x6C, 0x20, 0x61, 0x0A] := by decide
  have hasked : ∀ asked ∈ [[2]], ∀ n ∈ asked, 1 ≤ n ∧ n ≤ intMax := by decide
  have hdistinct : [0, 1, 2].Nodup := by decide
  obtain ⟨w', hturns, hsound⟩ := answers_of_turns (.nil _) rfl rfl rfl hdistinct (by decide) hclean
    (fun k ↦ length_lineAt_le.trans_lt (by decide)) hasked
  have hanswers : ([[2]].mapIdx fun k asked ↦
      answer (commandLine (lineAt [0x76, 0x64, 0x65, 0x6C, 0x20, 0x61, 0x0A] hclean k)) asked) =
      [(2, [[0x76, 0x64, 0x65, 0x6C], [0x61]])] := rfl
  exact ⟨w', by rw [hturns, hanswers], hsound⟩

end GenericFs.Shell
