import Mathlib.Tactic

namespace GenericFs.Library.Agreeing

variable {ε σ α β : Type} {fatal : ε → Prop} {R Q : σ → σ → Prop}

/-- Two runs end alike: they return the same value, or fail in the same way, in
related states. Nothing is said of the states after a fatal failure. -/
inductive Agree (fatal : ε → Prop) (R : σ → σ → Prop) :
    EStateM.Result ε σ α → EStateM.Result ε σ α → Prop
  | ok (a : α) {s t : σ} (h : R s t) : Agree fatal R (.ok a s) (.ok a t)
  | error (e : ε) {s t : σ} (h : ¬fatal e → R s t) : Agree fatal R (.error e s) (.error e t)

variable {s t : σ} {x y : EStateM ε σ α} {f g : α → EStateM ε σ β}

theorem Agree.pure {a : α} (h : R s t) :
    Agree fatal R ((pure a : EStateM ε σ α).run s) ((pure a : EStateM ε σ α).run t) :=
  .ok a h

theorem Agree.throw {e : ε} (h : ¬fatal e → R s t) :
    Agree fatal R ((throw e : EStateM ε σ α).run s) ((throw e : EStateM ε σ α).run t) :=
  .error e h

theorem Agree.modify {f g : σ → σ} (h : R (f s) (g t)) : Agree fatal R
    ((modify f : EStateM ε σ Unit).run s) ((modify g : EStateM ε σ Unit).run t) :=
  .ok () h

/-- The rest of two runs may rely on a relation of its own, which a failure of
the first part has to establish too. -/
theorem Agree.bind (h : Agree fatal R (x.run s) (y.run t)) (hR : ∀ s t, R s t → Q s t)
    (hf : ∀ a s t, R s t → Agree fatal Q ((f a).run s) ((g a).run t)) :
    Agree fatal Q ((x >>= f).run s) ((y >>= g).run t) := by
  rw [EStateM.run_bind, EStateM.run_bind]
  revert h
  generalize x.run s = r
  generalize y.run t = r'
  intro h
  cases h with
  | ok a h => exact hf a _ _ h
  | error e h => exact .error e fun he ↦ hR _ _ (h he)

theorem Agree.seq (h : Agree fatal R (x.run s) (y.run t))
    (hf : ∀ a s t, R s t → Agree fatal R ((f a).run s) ((g a).run t)) :
    Agree fatal R ((x >>= f).run s) ((y >>= g).run t) :=
  h.bind (fun _ _ h ↦ h) hf

theorem Agree.ite {c : Prop} {_ : Decidable c} {x' y' : EStateM ε σ α}
    (h : c → Agree fatal R (x.run s) (y.run t)) (h' : ¬c → Agree fatal R (x'.run s) (y'.run t)) :
    Agree fatal R ((if c then x else x').run s) ((if c then y else y').run t) := by
  by_cases hc : c
  · rw [if_pos hc, if_pos hc]
    exact h hc
  · rw [if_neg hc, if_neg hc]
    exact h' hc

theorem Agree.get {f g : σ → EStateM ε σ β} (h : Agree fatal R ((f s).run s) ((g t).run t)) :
    Agree fatal R ((get >>= f : EStateM ε σ β).run s) ((get >>= g : EStateM ε σ β).run t) := by
  rw [EStateM.run_bind, EStateM.run_bind]
  exact h

end GenericFs.Library.Agreeing
