import GenericFs.Library.Ensuring
import GenericFs.Spica.Scanning

namespace GenericFs.Spica

open GenericFs.Library Cells Ensuring

/-- A workspace that was made for the result has no more characters than an `int` counts. -/
def Produced.Short : Produced → Prop
  | .made temp => temp.length ≤ intMax
  | _ => True

section Primitives

variable {x k n : ℤ} {m : ℕ} {t : Text} {w source : Workspace} {c : UInt8}

theorem narrow_isInt : IsInt (narrow m) := by
  rw [narrow]
  constructor <;> omega

theorem narrow_le : narrow m ≤ m := by
  rw [narrow]
  omega

theorem ensures_int : Ensures (int x) fun y ↦ y = x ∧ IsInt x := by
  rw [int]
  split_ifs with h
  · exact .ok ⟨rfl, h⟩
  · exact .error

theorem ensures_newChars : Ensures (newChars x) fun w ↦ (w.length : ℤ) = x := by
  rw [newChars]
  split_ifs with h
  · exact .error
  · refine .ok ?_
    rw [fresh_eq, length_filled, List.length_nil, Nat.zero_add, Int.toNat_of_nonneg (not_lt.mp h)]

theorem ensures_put : Ensures (put w k t) fun w' ↦
    w'.length = w.length ∧ 0 ≤ k ∧ k + t.length ≤ w.length := by
  rw [put]
  split_ifs with h
  · exact .error
  · rw [write]
    split_ifs with hfit
    · refine .ok ⟨?_, not_lt.mp h, by omega⟩
      simp only [List.length_append, List.length_take, List.length_map, List.length_drop]
      omega
    · exact .error

theorem ensures_memcpy : Ensures (memcpy w k source n) fun w' ↦ w'.length = w.length ∧ 0 ≤ n := by
  rw [memcpy]
  split_ifs with h
  · exact .error
  · exact .always fun t ↦ ensures_put.mono fun w' hw' ↦ ⟨hw'.1, not_lt.mp h⟩

theorem ensures_memset : Ensures (memset w k c n) fun w' ↦ w'.length = w.length := by
  rw [memset]
  split_ifs with h
  · exact .error
  · exact ensures_put.mono fun w' hw' ↦ hw'.1

theorem ensures_strcpy : Ensures (strcpy w k source) fun w' ↦ w'.length = w.length :=
  .always fun _ ↦ ensures_put.mono fun _ hw' ↦ hw'.1

/-- The size of every new array is the result of a sum of `int` values. -/
theorem ensures_newChars_int {f : Workspace → Except Fault Produced}
    (hf : ∀ w : Workspace, w.length ≤ intMax → Ensures (f w) Produced.Short) :
    Ensures (do f (← newChars (← int x))) Produced.Short := by
  have hmax : intMax = 2147483647 := rfl
  refine ensures_int.bind ?_
  rintro y ⟨rfl, hint⟩
  refine ensures_newChars.bind fun w hw ↦ hf w ?_
  have hlt := hint.2
  omega

end Primitives

namespace Workspace

variable {w incoming : Workspace} {length offset count : ℤ} {pad : UInt8} {white : UInt8 → Bool}

theorem subword_short : Ensures (subword w offset count white) Produced.Short := by
  refine .always fun offset ↦ ?_
  split
  · exact .ok trivial
  refine .always fun currentLength ↦ ?_
  split
  · exact .ok trivial
  refine .always fun available ↦ ?_
  generalize (if available < count then available else count) = count
  dsimp only
  split
  · exact .ok trivial
  refine .always fun start ↦ .always fun final ↦ ensures_newChars_int fun temp htemp ↦ ?_
  refine ensures_memcpy.bind fun temp' htemp' ↦ ensures_put.bind fun temp'' htemp'' ↦ .ok ?_
  rw [Produced.Short]
  omega

theorem insert_short : Ensures (insert w incoming offset count) Produced.Short := by
  refine .always fun offset ↦ ?_
  split
  · exact .ok trivial
  refine .always fun currentLength ↦ ?_
  dsimp only
  split
  · exact .ok trivial
  refine .always fun incomingLength ↦ .always fun sum ↦ ensures_newChars_int fun temp htemp ↦ ?_
  refine ensures_memcpy.bind fun temp₁ htemp₁ ↦ ensures_memcpy.bind fun temp₂ htemp₂ ↦ ?_
  refine .always fun last ↦ .always fun rest ↦ ensures_strcpy.bind fun temp₃ htemp₃ ↦ .ok ?_
  rw [Produced.Short]
  omega

end Workspace

end GenericFs.Spica
