import GenericFs.Library.Returning

namespace GenericFs.Library.Refining

open Returning

variable {ε ε' σ τ υ α β : Type}

/-- A program on a part of a state. -/
def part (get : τ → σ) (put : σ → τ → τ) (fault : ε → ε') (m : EStateM ε σ α) :
    EStateM ε' τ α := fun t ↦
  match m.run (get t) with
  | .ok a s => .ok a (put s t)
  | .error e s => .error (fault e) (put s t)

section Part

variable {get : τ → σ} {put : σ → τ → τ} {fault : ε → ε'} {m : EStateM ε σ α} {s : σ} {t : τ}
    {a : α} {e : ε}

theorem part_ok (h : m.run (get t) = .ok a s) : (part get put fault m).run t = .ok a (put s t) := by
  simp only [part, EStateM.run] at h ⊢
  rw [h]

theorem part_error (h : m.run (get t) = .error e s) :
    (part get put fault m).run t = .error (fault e) (put s t) := by
  simp only [part, EStateM.run] at h ⊢
  rw [h]

theorem exists_of_part_ok {t' : τ} (h : (part get put fault m).run t = .ok a t') :
    ∃ u, m.run (get t) = .ok a u ∧ t' = put u t := by
  cases hm : m.run (get t) with
  | ok b u =>
    rw [part_ok hm] at h
    cases h
    exact ⟨u, rfl, rfl⟩
  | error e u =>
    rw [part_error hm] at h
    contradiction

theorem part_congr {m' : EStateM ε σ α} (h : m.run (get t) = m'.run (get t)) :
    (part get put fault m).run t = (part get put fault m').run t := by
  simp only [part, EStateM.run] at h ⊢
  rw [h]

/-- The parts of a program follow each other on the part of the state. -/
theorem part_bind (hget : ∀ s t, get (put s t) = s) (hput : ∀ s s' t, put s' (put s t) = put s' t)
    {f : α → EStateM ε σ β} :
    (part get put fault (m >>= f)).run t =
      (part get put fault m >>= fun a ↦ part get put fault (f a)).run t := by
  cases hm : m.run (get t) with
  | ok a s =>
    rw [run_bind_ok (part_ok hm)]
    have hbind : (m >>= f).run (get t) = (f a).run s := run_bind_ok hm
    cases hf : (f a).run s with
    | ok b s' =>
      rw [part_ok (hbind.trans hf), part_ok (by rw [hget, hf]), hput]
    | error e s' =>
      rw [part_error (hbind.trans hf), part_error (by rw [hget, hf]), hput]
  | error e s =>
    rw [part_error (run_bind_error hm), run_bind_error (part_error hm)]

theorem stable_part {I : σ → Prop} (hget : ∀ s t, get (put s t) = s) (h : Stable I m) :
    Stable (fun t ↦ I (get t)) (part get put fault m) := by
  intro t ht
  cases hm : m.run (get t) with
  | ok a s =>
    rw [part_ok hm]
    refine ⟨fun b u hrun ↦ ?_, nofun⟩
    cases hrun
    rw [hget]
    exact (h _ ht).1 a s hm
  | error e s =>
    rw [part_error hm]
    refine ⟨nofun, fun e' u hrun ↦ ?_⟩
    cases hrun
    rw [hget]
    exact (h _ ht).2 e s hm

/-- A property of what the part does not have. -/
theorem stable_part_of {I : τ → Prop} (hput : ∀ s t, I t → I (put s t)) :
    Stable I (part get put fault m) := by
  intro t ht
  cases hm : m.run (get t) with
  | ok a s =>
    rw [part_ok hm]
    refine ⟨fun b u hrun ↦ ?_, nofun⟩
    cases hrun
    exact hput s t ht
  | error e s =>
    rw [part_error hm]
    refine ⟨nofun, fun e' u hrun ↦ ?_⟩
    cases hrun
    exact hput s t ht

end Part

/-- A run ends as one on other states does, in related states, unless the other one leaves
open how. -/
inductive Refines (R : σ → τ → Prop) : EStateM.Result ε σ α → EStateM.Result (Option ε) τ α → Prop
  | ok (a : α) {s : σ} {t : τ} (h : R s t) : Refines R (.ok a s) (.ok a t)
  | error (e : ε) {s : σ} {t : τ} (h : R s t) : Refines R (.error e s) (.error (some e) t)
  | leftOpen (r : EStateM.Result ε σ α) (t : τ) : Refines R r (.error none t)

section Refines

variable {R Q : σ → τ → Prop} {m : EStateM ε σ α} {m' : EStateM (Option ε) τ α}
  {f : α → EStateM ε σ β} {f' : α → EStateM (Option ε) τ β} {s : σ} {t : τ} {a : α}

theorem Refines.pure (h : R s t) :
    Refines R ((pure a : EStateM ε σ α).run s) ((pure a : EStateM (Option ε) τ α).run t) := .ok a h

theorem Refines.exists_ok {x : EStateM.Result ε σ α} (h : Refines R x (.ok a t)) :
    ∃ s, x = .ok a s ∧ R s t := by
  cases h with
  | ok a h => exact ⟨_, rfl, h⟩

theorem Refines.mono (h : Refines Q (m.run s) (m'.run t)) (hQ : ∀ s t, Q s t → R s t) :
    Refines R (m.run s) (m'.run t) := by
  revert h
  generalize m.run s = r
  generalize m'.run t = r'
  intro h
  cases h with
  | ok a h => exact .ok a (hQ _ _ h)
  | error e h => exact .error e (hQ _ _ h)
  | leftOpen r t => exact .leftOpen r t

/-- The rest of two programs may rely on how the first one got there, and on a relation of its
own, from which the one that is kept follows. -/
theorem Refines.bind_run (h : Refines Q (m.run s) (m'.run t)) (hQ : ∀ s t, Q s t → R s t)
    (hf : ∀ a s' t', m.run s = .ok a s' → Q s' t' → Refines R ((f a).run s') ((f' a).run t')) :
    Refines R ((m >>= f).run s) ((m' >>= f').run t) := by
  rw [EStateM.run_bind, EStateM.run_bind]
  revert h hf
  generalize m.run s = r
  generalize m'.run t = r'
  intro h hf
  cases h with
  | ok a h => exact hf a _ _ rfl h
  | error e h => exact .error e (hQ _ _ h)
  | leftOpen r t => exact .leftOpen _ t

theorem Refines.bind (h : Refines Q (m.run s) (m'.run t)) (hQ : ∀ s t, Q s t → R s t)
    (hf : ∀ a s t, Q s t → Refines R ((f a).run s) ((f' a).run t)) :
    Refines R ((m >>= f).run s) ((m' >>= f').run t) := h.bind_run hQ fun a s t _ ↦ hf a s t

theorem Refines.seq (h : Refines R (m.run s) (m'.run t))
    (hf : ∀ a s t, R s t → Refines R ((f a).run s) ((f' a).run t)) :
    Refines R ((m >>= f).run s) ((m' >>= f').run t) := h.bind (fun _ _ h ↦ h) hf

/-- A result that no one needs. -/
theorem Refines.seq_forget {m : EStateM ε σ Unit} {m' : EStateM (Option ε) τ α} {x : EStateM ε σ β}
    {x' : EStateM (Option ε) τ β} (h : Refines R (m.run s) ((m' >>= fun _ ↦ Pure.pure ()).run t))
    (hx : ∀ s t, R s t → Refines R (x.run s) (x'.run t)) :
    Refines R ((m >>= fun _ ↦ x).run s) ((m' >>= fun _ ↦ x').run t) := by
  have hassoc : (m' >>= fun _ ↦ x') = (m' >>= fun _ ↦ Pure.pure ()) >>= fun _ ↦ x' := by
    rw [bind_assoc]
    rfl
  rw [hassoc]
  exact h.seq fun _ ↦ hx

theorem Refines.ite {c : Prop} [Decidable c] {x : EStateM ε σ α} {x' : EStateM (Option ε) τ α}
    (h : c → Refines R (m.run s) (m'.run t)) (h' : ¬c → Refines R (x.run s) (x'.run t)) :
    Refines R ((if c then m else x).run s) ((if c then m' else x').run t) := by
  by_cases hc : c
  · rw [if_pos hc, if_pos hc]
    exact h hc
  · rw [if_neg hc, if_neg hc]
    exact h' hc

/-- A program on a part that the states have in common. -/
theorem Refines.part {get : σ → υ} {put : υ → σ → σ} {get' : τ → υ} {put' : υ → τ → τ}
    {fault : ε' → ε}
    {x : EStateM ε' υ α} (hget : get s = get' t) (hput : ∀ u, R (put u s) (put' u t)) :
    Refines R ((part get put fault x).run s)
      ((Refining.part get' put' (fun e ↦ some (fault e)) x).run t) := by
  cases hx : x.run (get s) with
  | ok a u =>
    rw [part_ok hx, part_ok (hget ▸ hx)]
    exact .ok a (hput u)
  | error e u =>
    rw [part_error hx, part_error (hget ▸ hx)]
    exact .error (fault e) (hput u)

end Refines

end GenericFs.Library.Refining
