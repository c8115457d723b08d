import Mathlib.Tactic

namespace GenericFs.Library.Ensuring

variable {ε α β : Type}

/-- Whatever the program returns satisfies the condition. It may fail. -/
def Ensures (e : Except ε α) (Q : α → Prop) : Prop := ∀ a, e = .ok a → Q a

variable {e : Except ε α} {f : α → Except ε β} {P Q : α → Prop} {R : β → Prop} {a : α} {b : β}

theorem exists_of_bind_ok (h : (e >>= f) = .ok b) : ∃ a, e = .ok a ∧ f a = .ok b := by
  cases e with
  | ok a => exact ⟨a, rfl, h⟩
  | error e => cases h

theorem Ensures.ok (h : Q a) : Ensures (.ok a : Except ε α) Q := by
  rintro _ ⟨⟩
  exact h

theorem Ensures.error {x : ε} : Ensures (.error x : Except ε α) Q := nofun

theorem Ensures.mono (h : Ensures e P) (hPQ : ∀ a, P a → Q a) : Ensures e Q :=
  fun a ha ↦ hPQ a (h a ha)

theorem Ensures.bind (he : Ensures e P) (hf : ∀ a, P a → Ensures (f a) R) :
    Ensures (e >>= f) R := by
  intro b h
  obtain ⟨a, ha, hb⟩ := exists_of_bind_ok h
  exact hf a (he a ha) b hb

theorem Ensures.always (hf : ∀ a, Ensures (f a) R) : Ensures (e >>= f) R :=
  Ensures.bind (P := fun _ ↦ True) (fun _ _ ↦ trivial) fun a _ ↦ hf a

end GenericFs.Library.Ensuring
