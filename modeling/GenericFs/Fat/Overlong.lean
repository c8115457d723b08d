import GenericFs.Fat.Files

namespace GenericFs.Fat

open GenericFs.Library Function FileSystem

variable {d d' : Directory} {e : DirectoryEntry} {i : Fin dirSize} {k m off : ℕ} {b : UInt8}
  {bytes : List UInt8} {name : CString}

theorem DirectoryEntry.peek_decode {memory : ℕ → UInt8} (hm : m < 32) :
    (DirectoryEntry.decode memory off).peek m = memory (off + m) := by
  have hsize : ((Int.bmod (Store.word 4 memory (off + 24)) (2 ^ 32)) % 2 ^ 32).toNat =
      Store.word 4 memory (off + 24) := by
    have hlt := Store.word_lt 4 memory (off + 24)
    rw [Int.bmod_def]
    omega
  simp only [peek, decode, hsize]
  split_ifs with h24 h28 h30 hlast
  · rfl
  · have hk : off + 24 + (m - 24) = off + m := by omega
    rw [Store.wordBytes_word (k := m - 24) (by omega), hk]
  · have hk : off + 28 + (m - 28) = off + m := by omega
    rw [Store.wordBytes_word (k := m - 28) (by omega), hk]
  · rw [hlast]
  · obtain rfl : m = 31 := by omega
    rfl

theorem DirectoryEntry.peek_poke (hk : k < 32) (hm : m < 32) :
    (e.poke k b).peek m = if m = k then b else e.peek m := by
  by_cases h24 : k < 24
  · rw [poke, dif_pos h24]
    by_cases hmk : m = k
    · subst hmk
      simp [peek, h24]
    · by_cases hm24 : m < 24
      · have hne : (⟨m, hm24⟩ : Fin nameSize) ≠ ⟨k, h24⟩ := fun h ↦ hmk (Fin.mk.inj h)
        simp only [peek, dif_pos hm24, update_of_ne hne, if_neg hmk]
      · simp only [peek, dif_neg hm24, if_neg hmk]
  · rw [poke, dif_neg h24, peek_decode hm, Nat.zero_add]
    by_cases hmk : m = k
    · rw [if_pos hmk, hmk]
      exact Store.splice_inside le_rfl (by omega)
    · rw [if_neg hmk]
      exact Store.splice_outside (by omega)

theorem Directory.lt_of_poke (h : d.poke k b = some d') : k < 1024 := by
  by_contra hk
  rw [poke, dif_neg hk] at h
  contradiction

/-- A store to the directory changes the byte it is made to, whatever field of
whatever record that byte belongs to. -/
theorem Directory.peek_poke (h : d.poke k b = some d') :
    d'.peek m = if m = k then some b else d.peek m := by
  have hk := lt_of_poke h
  rw [poke, dif_pos hk] at h
  obtain rfl := Option.some.inj h
  by_cases hm : m < 1024
  · simp only [peek, dif_pos hm]
    by_cases hrecord : m / 32 = k / 32
    · have hfin : (⟨m / 32, Nat.div_lt_of_lt_mul hm⟩ : Fin dirSize) =
          ⟨k / 32, Nat.div_lt_of_lt_mul hk⟩ := Fin.ext hrecord
      have hiff : m % 32 = k % 32 ↔ m = k := by omega
      rw [hfin, update_self, DirectoryEntry.peek_poke (Nat.mod_lt _ (by decide))
        (Nat.mod_lt _ (by decide))]
      simp only [hiff, apply_ite some]
    · have hfin : (⟨m / 32, Nat.div_lt_of_lt_mul hm⟩ : Fin dirSize) ≠
          ⟨k / 32, Nat.div_lt_of_lt_mul hk⟩ := fun h ↦ hrecord (Fin.mk.inj h)
      have hne : m ≠ k := fun h ↦ hrecord (by rw [h])
      rw [update_of_ne hfin, if_neg hne]
  · have hne : m ≠ k := by omega
    simp only [peek, dif_neg hm, if_neg hne]

/-- A copied string is found in memory from its first byte to its NUL, and
everything else is as before. -/
theorem Directory.peek_strcpy (h : d.strcpy off bytes = some d') : off + bytes.length < 1024 ∧
    (∀ m ≤ bytes.length, d'.peek (off + m) = some ((bytes ++ [0]).getD m 0)) ∧
      ∀ m, m < off ∨ off + bytes.length < m → d'.peek m = d.peek m := by
  induction bytes generalizing d off with
  | nil =>
    refine ⟨lt_of_poke h, fun m hm ↦ ?_, fun m hm ↦ ?_⟩
    · obtain rfl : m = 0 := Nat.le_zero.mp hm
      rw [peek_poke h, if_pos (Nat.add_zero off)]
      rfl
    · rw [List.length_nil] at hm
      rw [peek_poke h, if_neg (by omega)]
  | cons c cs ih =>
    rw [strcpy] at h
    cases hpoke : d.poke off c with
    | none =>
      rw [hpoke] at h
      contradiction
    | some d₁ =>
      rw [hpoke] at h
      obtain ⟨hlt, hinside, houtside⟩ := ih h
      rw [List.length_cons]
      refine ⟨by omega, fun m hm ↦ ?_, fun m hm ↦ ?_⟩
      · cases m with
        | zero =>
          rw [houtside _ (.inl (by omega)), peek_poke hpoke, if_pos (Nat.add_zero off)]
          rfl
        | succ m =>
          have hnext : off + (m + 1) = off + 1 + m := by omega
          rw [hnext, hinside m (by omega)]
          rfl
      · rw [houtside m (by omega), peek_poke hpoke, if_neg (by omega)]

/-- A comparison that meets a different byte before the end of the array is over
there at the latest. -/
theorem Directory.strcmp_of_ne (hm : m ≤ bytes.length)
    (hne : d.peek (off + m) ≠ some ((bytes ++ [0]).getD m 0)) (hin : off + m < 1024) :
    d.strcmp off bytes = some false := by
  induction bytes generalizing off m with
  | nil =>
    obtain rfl : m = 0 := Nat.le_zero.mp hm
    rw [Nat.add_zero] at hne hin
    rw [strcmp]
    rw [peek, dif_pos hin] at hne ⊢
    simpa using hne
  | cons c cs ih =>
    rw [strcmp]
    have hoff : off < 1024 := by omega
    rw [peek, dif_pos hoff]
    simp only
    split_ifs with hc
    · cases m with
      | zero =>
        rw [Nat.add_zero, peek, dif_pos hoff, hc] at hne
        exact absurd rfl hne
      | succ m =>
        have hnext : off + (m + 1) = off + 1 + m := by omega
        rw [hnext] at hne hin
        exact ih (by simpa using hm) hne hin
    · rfl

end GenericFs.Fat
