import Mathlib.Tactic

namespace GenericFs.Library.Machine

variable {σ τ L : Type}

/-- The labels of the list lead, in order, from one state to another. -/
inductive Run (step : σ → L → σ → Prop) : σ → List L → σ → Prop
  | nil (s : σ) : Run step s [] s
  | cons {s t u : σ} {l : L} {ls : List L} :
      step s l t → Run step t ls u → Run step s (l :: ls) u

variable {step : σ → L → σ → Prop} {step' : τ → L → τ → Prop} {s t u : σ} {ls ms : List L}

theorem Run.concat {l : L} (h : Run step s ls t) (hst : step t l u) : Run step s (ls ++ [l]) u := by
  induction h with
  | nil => exact .cons hst (.nil _)
  | cons hfirst _ ih => exact .cons hfirst (ih hst)

theorem Run.invariant {P : σ → Prop} (hstep : ∀ s l t, P s → step s l t → P t)
    (h : Run step s ls t) (hs : P s) : P t := by
  induction h with
  | nil => exact hs
  | cons hst _ ih => exact ih (hstep _ _ _ hs hst)

theorem Run.history {P : List L → σ → Prop} {ks : List L}
    (hstep : ∀ ks s l t, P ks s → step s l t → P (ks ++ [l]) t) (h : Run step s ls t)
    (hs : P ks s) :
    P (ks ++ ls) t := by
  induction h generalizing ks with
  | nil => rwa [List.append_nil]
  | cons hst _ ih =>
    rw [List.append_cons]
    exact ih (hstep _ _ _ _ hs hst)

/-- What holds of every step taken from the invariant's states holds of every
step of a run that starts in one. -/
theorem Run.strengthen {P : σ → Prop} {Q : σ → L → σ → Prop}
    (hstep : ∀ s l t, P s → step s l t → P t) (hQ : ∀ s l t, P s → step s l t → Q s l t)
    (h : Run step s ls t) (hs : P s) : Run (fun s l t ↦ step s l t ∧ Q s l t) s ls t := by
  induction h with
  | nil s => exact .nil s
  | cons hst _ ih => exact .cons ⟨hst, hQ _ _ _ hs hst⟩ (ih (hstep _ _ _ hs hst))

theorem Run.labels {Q : L → Prop} (hQ : ∀ s l t, step s l t → Q l) (h : Run step s ls t) :
    ∀ l ∈ ls, Q l := by
  induction h with
  | nil => simp
  | cons hst _ ih => simpa using ⟨hQ _ _ _ hst, ih⟩

theorem Run.mono {Q : σ → L → σ → Prop} (hQ : ∀ s l t, step s l t → Q s l t) (h : Run step s ls t) :
    Run Q s ls t := by
  induction h with
  | nil s => exact .nil s
  | cons hst _ ih => exact .cons (hQ _ _ _ hst) ih

/-- A relation that every step of the first machine carries over to a step of
the second with the same label carries over whole runs. -/
theorem Run.simulation {R : σ → τ → Prop}
    (hstep : ∀ s a l t, R s a → step s l t → ∃ b, step' a l b ∧ R t b)
    (h : Run step s ls t) {a : τ} (hs : R s a) : ∃ b, Run step' a ls b ∧ R t b := by
  induction h generalizing a with
  | nil => exact ⟨a, .nil a, hs⟩
  | cons hst _ ih =>
    obtain ⟨b, hb, hR⟩ := hstep _ _ _ _ hs hst
    obtain ⟨c, hc, hR'⟩ := ih hR
    exact ⟨c, .cons hb hc, hR'⟩

end GenericFs.Library.Machine
