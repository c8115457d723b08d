import GenericFs.Library.Bitmap

namespace GenericFs.Library.Returning

open Bitmap

variable {ε σ α β : Type}

/-- The program returns from the state, with a value and a state that satisfy
the condition. -/
def Returns (m : EStateM ε σ α) (s : σ) (Q : α → σ → Prop) : Prop :=
  ∃ a t, m.run s = .ok a t ∧ Q a t

variable {m : EStateM ε σ α} {s t : σ} {P Q : α → σ → Prop} {a : α}

theorem run_bind_ok {f : α → EStateM ε σ β} (h : m.run s = .ok a t) :
    (m >>= f).run s = (f a).run t := by
  rw [EStateM.run_bind, h]

theorem run_bind_error {f : α → EStateM ε σ β} {e : ε} (h : m.run s = .error e t) :
    (m >>= f).run s = .error e t := by
  rw [EStateM.run_bind, h]

theorem exists_of_run_bind {f : α → EStateM ε σ β} {b : β} (h : (m >>= f).run s = .ok b t) :
    ∃ a u, m.run s = .ok a u ∧ (f a).run u = .ok b t := by
  rw [EStateM.run_bind] at h
  cases hm : m.run s with
  | ok a u =>
    rw [hm] at h
    exact ⟨a, u, rfl, h⟩
  | error e u =>
    rw [hm] at h
    contradiction

theorem Returns.of_run (h : m.run s = .ok a t) (hQ : Q a t) : Returns m s Q := ⟨a, t, h, hQ⟩

theorem Returns.pure (h : Q a s) : Returns (pure a : EStateM ε σ α) s Q := ⟨a, s, rfl, h⟩

theorem Returns.mono (h : Returns m s P) (hPQ : ∀ a t, P a t → Q a t) : Returns m s Q := by
  obtain ⟨a, t, hrun, hP⟩ := h
  exact ⟨a, t, hrun, hPQ a t hP⟩

theorem Returns.bind {f : α → EStateM ε σ β} {R : β → σ → Prop} (h : Returns m s Q)
    (hf : ∀ a t, Q a t → Returns (f a) t R) : Returns (m >>= f) s R := by
  obtain ⟨a, t, hrun, hQ⟩ := h
  obtain ⟨b, u, hrest, hR⟩ := hf a t hQ
  refine ⟨b, u, ?_, hR⟩
  rw [EStateM.run_bind, hrun]
  exact hrest

/-- The program throws an exception of the kind from no state. -/
def Never (K : ε → Prop) (m : EStateM ε σ α) : Prop := ∀ s e t, m.run s = .error e t → ¬K e

section Never

variable {K : ε → Prop} {e : ε}

theorem Never.pure (a : α) : Never K (pure a : EStateM ε σ α) := nofun

theorem Never.modify (f : σ → σ) : Never K (modify f : EStateM ε σ PUnit) := nofun

theorem Never.get : Never K (get : EStateM ε σ σ) := nofun

theorem Never.throw (h : ¬K e) : Never K (throw e : EStateM ε σ α) := by
  intro s e' t hrun
  injection hrun with he _
  exact he ▸ h

theorem Never.bind {f : α → EStateM ε σ β} (hm : Never K m) (hf : ∀ a, Never K (f a)) :
    Never K (m >>= f) := by
  intro s e t hrun
  rw [EStateM.run_bind] at hrun
  cases h : m.run s with
  | ok a u =>
    rw [h] at hrun
    exact hf a u e t hrun
  | error e' u =>
    rw [h] at hrun
    injection hrun with he _
    exact he ▸ hm s e' u h

theorem Never.ite {c : Prop} [Decidable c] {m' : EStateM ε σ α} (hm : Never K m)
    (hm' : Never K m') : Never K (if c then m else m') := by
  split_ifs
  · exact hm
  · exact hm'

end Never

/-- Every run that returns from a state with the property ends in one, and its value
satisfies the condition. -/
def Maintains (I : σ → Prop) (m : EStateM ε σ α) (Q : α → Prop) : Prop :=
  ∀ s a t, I s → m.run s = .ok a t → I t ∧ Q a

section Maintains

variable {I : σ → Prop} {C : α → Prop} {D : β → Prop}

theorem Maintains.pure (h : C a) : Maintains I (pure a : EStateM ε σ α) C := by
  intro s b t hs hrun
  injection hrun with ha ht
  exact ⟨ht ▸ hs, ha ▸ h⟩

theorem Maintains.throw (e : ε) : Maintains I (throw e : EStateM ε σ α) C := by
  intro s a t _ hrun
  cases hrun

theorem Maintains.modify {f : σ → σ} (h : ∀ s, I s → I (f s)) :
    Maintains I (modify f : EStateM ε σ PUnit) fun _ ↦ True := by
  intro s a t hs hrun
  injection hrun with _ ht
  exact ⟨ht ▸ h s hs, trivial⟩

theorem Maintains.trivial : Maintains (fun _ ↦ True) m fun _ ↦ True :=
  fun _ _ _ _ _ ↦ ⟨True.intro, True.intro⟩

theorem Maintains.bind {f : α → EStateM ε σ β} (hm : Maintains I m C)
    (hf : ∀ a, C a → Maintains I (f a) D) : Maintains I (m >>= f) D := by
  intro s b t hs hrun
  obtain ⟨a, u, hm', hf'⟩ := exists_of_run_bind hrun
  obtain ⟨hu, hC⟩ := hm s a u hs hm'
  exact hf a hC u b t hu hf'

theorem Maintains.ite {c : Prop} [Decidable c] {m' : EStateM ε σ α} (hm : Maintains I m C)
    (hm' : Maintains I m' C) : Maintains I (if c then m else m') C := by
  split_ifs
  · exact hm
  · exact hm'

end Maintains

/-- Wherever the program stops, with a value or with an exception, the property holds again. -/
def Stable (I : σ → Prop) (m : EStateM ε σ α) : Prop :=
  ∀ s, I s → (∀ a t, m.run s = .ok a t → I t) ∧ ∀ e t, m.run s = .error e t → I t

section Stable

variable {I : σ → Prop}

theorem Stable.pure (a : α) : Stable I (pure a : EStateM ε σ α) := by
  refine fun s hs ↦ ⟨fun b t hrun ↦ ?_, nofun⟩
  injection hrun with _ ht
  exact ht ▸ hs

theorem Stable.throw (e : ε) : Stable I (throw e : EStateM ε σ α) := by
  refine fun s hs ↦ ⟨nofun, fun e t hrun ↦ ?_⟩
  injection hrun with _ ht
  exact ht ▸ hs

theorem Stable.modify {f : σ → σ} (h : ∀ s, I s → I (f s)) :
    Stable I (modify f : EStateM ε σ PUnit) := by
  refine fun s hs ↦ ⟨fun b t hrun ↦ ?_, nofun⟩
  injection hrun with _ ht
  exact ht ▸ h s hs

theorem Stable.bind {f : α → EStateM ε σ β} (hm : Stable I m) (hf : ∀ a, Stable I (f a)) :
    Stable I (m >>= f) := by
  intro s hs
  rw [EStateM.run_bind]
  cases hrun : m.run s with
  | ok a u => exact hf a u ((hm s hs).1 a u hrun)
  | error e u =>
    refine ⟨nofun, fun e' t h ↦ ?_⟩
    injection h with _ ht
    exact ht ▸ (hm s hs).2 e u hrun

theorem Stable.bind_error {f : α → EStateM ε σ β} {e : ε} (h : ∀ s, I s → m.run s = .error e s) :
    Stable I (m >>= f) := by
  intro s hs
  rw [run_bind_error (h s hs)]
  refine ⟨nofun, fun e' t hrun ↦ ?_⟩
  injection hrun with _ ht
  exact ht ▸ hs

/-- What is read of the state may be used. -/
theorem Stable.get_bind {f : σ → EStateM ε σ β} (hf : ∀ s, I s → Stable I (f s)) :
    Stable I (get >>= f) :=
  fun s hs ↦ hf s hs s hs

theorem Stable.ite {c : Prop} [Decidable c] {m' : EStateM ε σ α} (hm : Stable I m)
    (hm' : Stable I m') : Stable I (if c then m else m') := by
  split_ifs
  · exact hm
  · exact hm'

theorem run_tryCatch_ok {handle : ε → EStateM ε σ α} (h : m.run s = .ok a t) :
    (tryCatch m handle).run s = .ok a t := by
  simp only [EStateM.run, tryCatch, tryCatchThe, MonadExceptOf.tryCatch, EStateM.tryCatch] at h ⊢
  rw [h]

theorem run_tryCatch_error {handle : ε → EStateM ε σ α} {e : ε} (h : m.run s = .error e t) :
    (tryCatch m handle).run s = (handle e).run t := by
  simp only [EStateM.run, tryCatch, tryCatchThe, MonadExceptOf.tryCatch, EStateM.tryCatch] at h ⊢
  rw [h]
  rfl

theorem Stable.tryCatch {handle : ε → EStateM ε σ α} (hm : Stable I m)
    (hhandle : ∀ e, Stable I (handle e)) :
    Stable I (tryCatch m handle) := by
  intro s hs
  cases hrun : m.run s with
  | ok a u =>
    rw [run_tryCatch_ok hrun, ← hrun]
    exact hm s hs
  | error e u =>
    rw [run_tryCatch_error hrun]
    exact hhandle e u ((hm s hs).2 e u hrun)

theorem Stable.dite {c : Prop} [Decidable c] {m : c → EStateM ε σ α} {m' : ¬c → EStateM ε σ α}
    (hm : ∀ h, Stable I (m h)) (hm' : ∀ h, Stable I (m' h)) : Stable I (dite c m m') := by
  split_ifs with h
  · exact hm h
  · exact hm' h

end Stable

section Scanning

variable (limit : ℕ) (body : ℕ → Bool → α → EStateM ε σ α)

/-- The loop over the bits of one byte of a map. The numbers of the bits run on
from byte to byte; all loops end when the limit is reached. -/
def forBits (byte : UInt8) : ℕ → ℕ → ℕ → α → EStateM ε σ (Bool × ℕ × α)
  | 0, _, number, a => return (false, number, a)
  | turns + 1, bitNumber, number, a => do
    let a ← body number (byte &&& UInt8.ofNat (1 <<< bitNumber) ≠ 0) a
    if number + 1 = limit then return (true, number + 1, a)
    else forBits byte turns (bitNumber + 1) (number + 1) a

def forBytes (workspace : ℕ → UInt8) : ℕ → ℕ → ℕ → α → EStateM ε σ (Bool × ℕ × α)
  | 0, _, number, a => return (false, number, a)
  | turns + 1, blockOffset, number, a => do
    let (done, number, a) ← forBits limit body (workspace blockOffset) 8 0 number a
    if done then return (true, number, a)
    else forBytes workspace turns (blockOffset + 1) number a

/-- The three nested loops over the blocks of a map, their bytes and their bits. -/
def forBlocks (size : ℕ) (load : ℕ → EStateM ε σ (ℕ → UInt8)) : ℕ → ℕ → ℕ → α → EStateM ε σ α
  | 0, _, _, a => return a
  | turns + 1, blockIndex, number, a => do
    let workspace ← load blockIndex
    let (done, number, a) ← forBytes limit body workspace size 0 number a
    if done then return a else forBlocks size load turns (blockIndex + 1) number a

variable {limit body} {bits : ℕ → Bool} {I : ℕ → α → σ → Prop}

/-- How a loop ends: at the limit, or with its last turn before it. -/
def Ended (limit last : ℕ) (I : ℕ → α → σ → Prop) (r : Bool × ℕ × α) (t : σ) : Prop :=
  r.1 = true ∧ I limit r.2.2 t ∨ r.1 = false ∧ r.2.1 = last ∧ last < limit ∧ I last r.2.2 t

variable (hbody : ∀ n a t, n < limit → I n a t → Returns (body n (bits n) a) t (I (n + 1)))

include hbody

theorem forBits_returns {byte : UInt8} {turns b number : ℕ} (hb : b + turns = 8)
    (hbits : ∀ j < turns, byte.toNat.testBit (b + j) = bits (number + j))
    (hlimit : number < limit) (hI : I number a s) :
    Returns (forBits limit body byte turns b number a) s (Ended limit (number + turns) I) := by
  induction turns generalizing b number a s with
  | zero => exact .pure (.inr ⟨rfl, rfl, hlimit, hI⟩)
  | succ turns ih =>
    have hbit : decide (byte &&& UInt8.ofNat (1 <<< b) ≠ 0) = bits number := by
      rw [← Nat.add_zero number, ← hbits 0 (by omega), Nat.add_zero]
      exact Bool.eq_iff_iff.mpr (decide_eq_true_iff.trans (and_mask_ne_zero (by omega)))
    rw [forBits, hbit]
    apply (hbody number a s hlimit hI).bind
    intro a' t ht
    by_cases hend : number + 1 = limit
    · rw [if_pos hend]
      exact .pure (.inl ⟨rfl, hend ▸ ht⟩)
    · rw [if_neg hend]
      have hrest : number + (turns + 1) = number + 1 + turns := by omega
      rw [hrest]
      apply ih (by omega) _ (by omega) ht
      intro j hj
      have h := hbits (j + 1) (by omega)
      rwa [← Nat.add_assoc, Nat.add_right_comm, Nat.add_comm j 1, ← Nat.add_assoc] at h

theorem forBytes_returns {w : ℕ → UInt8} {turns offset : ℕ} {start : ℕ}
    (hbits : ∀ k < 8 * (offset + turns), bit w k = bits (start + k))
    (hlimit : start + 8 * offset < limit)
    (hI : I (start + 8 * offset) a s) :
    Returns (forBytes limit body w turns offset (start + 8 * offset) a) s
      (Ended limit (start + 8 * (offset + turns)) I) := by
  induction turns generalizing offset a s with
  | zero => exact .pure (.inr ⟨rfl, rfl, hlimit, hI⟩)
  | succ turns ih =>
    have hbyte : ∀ j < 8, (w offset).toNat.testBit (0 + j) = bits (start + 8 * offset + j) := by
      intro j hj
      have hdiv : (8 * offset + j) / 8 = offset := by omega
      have hmod : (8 * offset + j) % 8 = j := by omega
      rw [Nat.add_assoc, ← hbits _ (by omega), bit, hdiv, hmod, Nat.zero_add]
    have hnext : start + 8 * offset + 8 = start + 8 * (offset + 1) := by omega
    rw [forBytes]
    apply (forBits_returns hbody rfl hbyte hlimit hI).bind
    rintro ⟨done, number, a'⟩ t hended
    rcases hended with ⟨hdone, hlast⟩ | ⟨hdone, hnumber, hless, hlast⟩
    · subst hdone
      exact .pure (.inl ⟨rfl, hlast⟩)
    · simp only at hdone hnumber hlast
      subst hdone hnumber
      rw [hnext] at hless hlast ⊢
      have hrest : offset + (turns + 1) = offset + 1 + turns := by omega
      rw [hrest]
      rw [hrest] at hbits
      exact ih hbits hless hlast

end Scanning

section Blocks

variable {limit size : ℕ} {body : ℕ → Bool → α → EStateM ε σ α} {bits : ℕ → Bool}
  {load : ℕ → EStateM ε σ (ℕ → UInt8)} {I : ℕ → ℕ → α → σ → Prop}

/-- The rule for the three loops. The first index of the invariant counts the
blocks that were loaded, the second one the bits that were passed. -/
theorem forBlocks_returns {turns block : ℕ}
    (hload : ∀ i a t, block ≤ i → i < block + turns → 8 * size * i < limit →
      I i (8 * size * i) a t → Returns (load i) t fun w t' ↦
        (∀ k < 8 * size, bit w k = bits (8 * size * i + k)) ∧ I (i + 1) (8 * size * i) a t')
    (hbody : ∀ i n a t, n < limit → I i n a t → Returns (body n (bits n) a) t (I i (n + 1)))
    (hlow : 8 * size * block < limit) (hhigh : limit ≤ 8 * size * (block + turns))
    (hI : I block (8 * size * block) a s) :
    Returns (forBlocks limit body size load turns block (8 * size * block) a) s fun a' t ↦
      ∃ i, I i limit a' t := by
  induction turns generalizing block a s with
  | zero =>
    rw [Nat.add_zero] at hhigh
    omega
  | succ turns ih =>
    rw [forBlocks]
    apply (hload block a s le_rfl (by omega) hlow hI).bind
    intro w t hw
    obtain ⟨hbits, ht⟩ := hw
    have hbytes : ∀ k < 8 * (0 + size), bit w k = bits (8 * size * block + k) := by
      rwa [Nat.zero_add]
    apply (forBytes_returns (hbody (block + 1)) hbytes hlow ht).bind
    rintro ⟨done, number, a'⟩ t' hended
    rcases hended with ⟨hdone, hlast⟩ | ⟨hdone, hnumber, hless, hlast⟩
    · subst hdone
      exact .pure ⟨block + 1, hlast⟩
    · simp only at hdone hnumber hlast
      subst hdone hnumber
      have hnext : 8 * size * block + 8 * (0 + size) = 8 * size * (block + 1) := by
        rw [Nat.zero_add, Nat.mul_add, Nat.mul_one]
      rw [hnext] at hless hlast ⊢
      have hrest : block + (turns + 1) = block + 1 + turns := by omega
      rw [hrest] at hhigh
      apply ih _ hless hhigh hlast
      intro i a t hi hlt hnot h
      exact hload i a t (by omega) (by omega) hnot h

end Blocks

section Stable

variable {limit size : ℕ} {body : ℕ → Bool → α → EStateM ε σ α} {I : σ → Prop}
  (hbody : ∀ n b a, Stable I (body n b a))

include hbody

theorem Stable.forBits {byte : UInt8} {turns i number : ℕ} :
    Stable I (forBits limit body byte turns i number a) := by
  induction turns generalizing i number a with
  | zero => exact .pure _
  | succ turns ih => exact (hbody _ _ _).bind fun _ ↦ .ite (.pure _) ih

theorem Stable.forBytes {w : ℕ → UInt8} {turns offset number : ℕ} :
    Stable I (forBytes limit body w turns offset number a) := by
  induction turns generalizing offset number a with
  | zero => exact .pure _
  | succ turns ih => exact (Stable.forBits hbody).bind fun _ ↦ .ite (.pure _) ih

theorem Stable.forBlocks {load : ℕ → EStateM ε σ (ℕ → UInt8)} {turns block number : ℕ}
    (hload : ∀ i, Stable I (load i)) :
    Stable I (forBlocks limit body size load turns block number a) := by
  induction turns generalizing block number a with
  | zero => exact .pure _
  | succ turns ih => exact (hload _).bind fun _ ↦ (Stable.forBytes hbody).bind fun _ ↦ .ite (.pure _) ih

end Stable

end GenericFs.Library.Returning
