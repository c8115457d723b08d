import Mathlib.Tactic
import Mathlib.Data.Fintype.Card
import Mathlib.Logic.Relation

namespace GenericFs.Library.Walks

open Relation

variable {α : Type} {step : α → Option α} {a b c : α} {l l' : List α}

/-- What a walk passes that goes on as long as there is a next place: all places
in order, the last one being without a next place. -/
inductive Trail (step : α → Option α) : α → List α → Prop
  | last {a : α} : step a = none → Trail step a [a]
  | cons {a b : α} {l : List α} : step a = some b → Trail step b l → Trail step a (a :: l)

def Reaches (step : α → Option α) : α → α → Prop := ReflTransGen fun a b ↦ step a = some b

def Returns (step : α → Option α) (a : α) : Prop := TransGen (fun a b ↦ step a = some b) a a

def Acyclic (step : α → Option α) (a : α) : Prop := ∀ c, Reaches step a c → ¬Returns step c

theorem Trail.start_mem (h : Trail step a l) : a ∈ l := by
  cases h <;> simp

theorem Trail.unique (h : Trail step a l) (h' : Trail step a l') : l = l' := by
  induction h generalizing l' with
  | last ha =>
    cases h' with
    | last _ => rfl
    | cons hb _ => rw [ha] at hb; contradiction
  | cons hb ht ih =>
    cases h' with
    | last ha => rw [hb] at ha; contradiction
    | cons hb' ht' =>
      obtain rfl := Option.some.inj (hb.symm.trans hb')
      rw [ih ht']

theorem Trail.tail (h : Trail step a l) (hb : step a = some b) :
    ∃ s, Trail step b s ∧ l = a :: s := by
  cases h with
  | last ha => rw [hb] at ha; contradiction
  | cons hb' ht =>
    obtain rfl := Option.some.inj (hb.symm.trans hb')
    exact ⟨_, ht, rfl⟩

theorem Trail.of_reaches (h : Trail step a l) (hr : Reaches step a c) :
    ∃ s, Trail step c s ∧ s <:+ l := by
  induction hr with
  | refl => exact ⟨l, h, List.suffix_rfl⟩
  | tail _ hbc ih =>
    obtain ⟨s, hs, hsl⟩ := ih
    obtain ⟨s', hs', rfl⟩ := hs.tail hbc
    exact ⟨s', hs', (List.suffix_cons _ _).trans hsl⟩

/-- From a place that is come back to the rest of the walk would be longer than
itself. -/
theorem Trail.acyclic (h : Trail step a l) : Acyclic step a := by
  intro c hc hret
  obtain ⟨s, hs, -⟩ := h.of_reaches hc
  obtain ⟨b, hcb, hbc⟩ := TransGen.head'_iff.mp hret
  obtain ⟨s', hs', rfl⟩ := hs.tail hcb
  obtain ⟨s'', hs'', hsuffix⟩ := hs'.of_reaches hbc
  have hlen := hsuffix.length_le
  rw [hs''.unique hs, List.length_cons] at hlen
  omega

theorem Trail.mem_iff (h : Trail step a l) : c ∈ l ↔ Reaches step a c := by
  constructor
  · intro hc
    induction h with
    | last _ =>
      obtain rfl := List.mem_singleton.mp hc
      exact .refl
    | cons hb _ ih =>
      rcases List.mem_cons.mp hc with rfl | hc
      · exact .refl
      · exact .head hb (ih hc)
  · intro hc
    obtain ⟨s, hs, hsl⟩ := h.of_reaches hc
    exact hsl.subset hs.start_mem

theorem Trail.nodup (h : Trail step a l) : l.Nodup := by
  induction h with
  | last _ => exact List.nodup_singleton _
  | @cons a b l hb ht ih =>
    refine List.nodup_cons.mpr ⟨fun ha ↦ ?_, ih⟩
    exact (Trail.cons hb ht).acyclic a .refl (.head' hb (ht.mem_iff.mp ha))

/-- A walk through finitely many places ends exactly if it meets no cycle. -/
theorem exists_trail_iff (hfin : {c | Reaches step a c}.Finite) :
    (∃ l, Trail step a l) ↔ Acyclic step a := by
  refine ⟨fun ⟨l, h⟩ ↦ h.acyclic, fun hac ↦ ?_⟩
  have : Finite {c // Reaches step a c} := hfin.to_subtype
  let after : {c // Reaches step a c} → {c // Reaches step a c} → Prop := fun c d ↦
    TransGen (fun a b ↦ step a = some b) d c
  have htrans : IsTrans _ after := ⟨fun c d e hcd hde ↦ hde.trans hcd⟩
  have hirrefl : Std.Irrefl after := ⟨fun c ↦ hac c c.2⟩
  -- along the walk, since no place comes after itself
  have hwf : WellFounded after := Finite.wellFounded_of_trans_of_irrefl after
  suffices ∀ c : {c // Reaches step a c}, ∃ l, Trail step c l from this ⟨a, .refl⟩
  intro c
  induction c using hwf.induction with
  | h c ih =>
    cases hc : step c with
    | none => exact ⟨_, .last hc⟩
    | some d =>
      obtain ⟨l, hl⟩ := ih ⟨d, c.2.tail hc⟩ (.single hc)
      exact ⟨_, .cons hc hl⟩

theorem Trail.length_le {a n : ℕ} {l : List ℕ} {step : ℕ → Option ℕ} (h : Trail step a l)
    (hlt : ∀ c, Reaches step a c → c < n) : l.length ≤ n := by
  have hsub : l.toFinset ⊆ Finset.range n := fun c hc ↦
    Finset.mem_range.mpr (hlt c (h.mem_iff.mp (List.mem_toFinset.mp hc)))
  have hcard := Finset.card_le_card hsub
  rwa [List.toFinset_card_of_nodup h.nodup, Finset.card_range] at hcard

theorem finite_of_lt {a n : ℕ} {step : ℕ → Option ℕ} (hlt : ∀ c, Reaches step a c → c < n) :
    {c | Reaches step a c}.Finite :=
  (Set.finite_Iio n).subset hlt

end GenericFs.Library.Walks
