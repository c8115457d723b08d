import Mathlib.Tactic
import Mathlib.Data.Fintype.Basic
import Mathlib.Logic.Function.Basic

namespace GenericFs.Library.Chain

variable {α ι : Type}

/-- Following the table `entry` from `a`, the blocks of the list are met in
order and the entry of the last one is the end mark. -/
inductive Links (entry : α → Option α) (eof : α) : α → List α → Prop
  | last {a : α} : entry a = some eof → Links entry eof a [a]
  | cons {a b : α} {l : List α} :
      entry a = some b → b ≠ eof → Links entry eof b l → Links entry eof a (a :: l)

variable {entry entry' : α → Option α} {eof a b : α} {l l' : List α}

theorem Links.ne_nil (h : Links entry eof a l) : l ≠ [] := by
  cases h <;> simp

theorem Links.start_mem (h : Links entry eof a l) : a ∈ l := by
  cases h <;> simp

theorem Links.length_pos (h : Links entry eof a l) : 0 < l.length := by
  cases h <;> simp

theorem Links.unique (h : Links entry eof a l) (h' : Links entry eof a l') : l = l' := by
  induction h generalizing l' with
  | last ha =>
    cases h' with
    | last _ => rfl
    | cons hb hne _ => exact absurd (Option.some.inj (hb.symm.trans ha)) hne
  | cons hb hne _ ih =>
    cases h' with
    | last ha => exact absurd (Option.some.inj (hb.symm.trans ha)) hne
    | cons hb' _ ht =>
      obtain rfl := Option.some.inj (hb.symm.trans hb')
      rw [ih ht]

/-- A chain is determined by the entries of its own blocks. -/
theorem Links.congr (h : Links entry eof a l) (he : ∀ b ∈ l, entry' b = entry b) :
    Links entry' eof a l := by
  induction h with
  | last ha => exact .last ((he _ (by simp)).trans ha)
  | cons hb hne _ ih =>
    refine .cons ((he _ (by simp)).trans hb) hne (ih fun c hc ↦ he c (by simp [hc]))

theorem Links.exists_suffix (h : Links entry eof a l) (hb : b ∈ l) :
    ∃ s, Links entry eof b s ∧ s <:+ l := by
  induction h with
  | last ha =>
    obtain rfl := List.mem_singleton.mp hb
    exact ⟨_, .last ha, List.suffix_rfl⟩
  | cons hc hne ht ih =>
    rcases List.mem_cons.mp hb with rfl | hb
    · exact ⟨_, .cons hc hne ht, List.suffix_rfl⟩
    · obtain ⟨s, hs, hsl⟩ := ih hb
      exact ⟨s, hs, hsl.trans (List.suffix_cons _ _)⟩

/-- A chain that reaches its end mark repeats no block: from a repeated block
the rest of the chain would be longer than itself. -/
theorem Links.nodup (h : Links entry eof a l) : l.Nodup := by
  induction h with
  | last _ => simp
  | @cons a b l hb hne ht ih =>
    refine List.nodup_cons.mpr ⟨fun ha ↦ ?_, ih⟩
    obtain ⟨s, hs, hsl⟩ := ht.exists_suffix ha
    have he := hs.unique (.cons hb hne ht)
    have hlen := hsl.length_le
    rw [he, List.length_cons] at hlen
    omega

theorem Links.entry_eq (h : Links entry eof a l) (hb : b ∈ l) :
    entry b = some eof ∨ ∃ c ∈ l, c ≠ eof ∧ entry b = some c := by
  induction h with
  | last ha =>
    obtain rfl := List.mem_singleton.mp hb
    exact .inl ha
  | cons hc hne ht ih =>
    rcases List.mem_cons.mp hb with rfl | hb
    · exact .inr ⟨_, List.mem_cons_of_mem _ ht.start_mem, hne, hc⟩
    · exact (ih hb).imp_right fun ⟨d, hd, h⟩ ↦ ⟨d, List.mem_cons_of_mem _ hd, h⟩

theorem Links.eq_start_or (h : Links entry eof a l) (hb : b ∈ l) :
    b = a ∨ b ≠ eof ∧ ∃ c ∈ l, entry c = some b := by
  induction h with
  | last _ => exact .inl (List.mem_singleton.mp hb)
  | @cons a c l hc hne ht ih =>
    rcases List.mem_cons.mp hb with rfl | hb
    · exact .inl rfl
    · obtain rfl | ⟨hb0, x, hx, he⟩ := ih hb
      · exact .inr ⟨hne, a, by simp, hc⟩
      · exact .inr ⟨hb0, x, List.mem_cons_of_mem _ hx, he⟩

theorem Links.getElem_zero (h : Links entry eof a l) (hl : 0 < l.length) : l[0] = a := by
  cases h <;> rfl

theorem Links.getElem_succ (h : Links entry eof a l) {i : ℕ} (hi : i + 1 < l.length) :
    entry l[i] = some l[i + 1] ∧ l[i + 1] ≠ eof := by
  induction h generalizing i with
  | last _ => simp at hi
  | cons hc hne ht ih =>
    cases i with
    | zero => simpa [ht.getElem_zero ht.length_pos] using ⟨hc, hne⟩
    | succ i => simpa using ih (by simpa using hi)

section Update

variable [DecidableEq α]

open Function

theorem Links.extend {z j : α} (h : Links entry eof a (l ++ [z])) (hj : j ∉ l ++ [z])
    (hne : j ≠ eof) :
    Links (update (update entry z (some j)) j (some eof)) eof a (l ++ [z] ++ [j]) := by
  have hz : z ≠ j := fun he ↦ hj (by simp [he])
  generalize hm : l ++ [z] = m at h hj
  induction h generalizing l with
  | @last a ha =>
    obtain ⟨rfl, rfl⟩ : l = [] ∧ z = a := by cases l <;> simp_all
    exact .cons (by simp [update_of_ne hz]) hne (.last (by simp))
  | @cons a b m hc hne' ht ih =>
    cases l with
    | nil =>
      simp only [List.nil_append, List.cons.injEq] at hm
      exact absurd hm.2.symm ht.ne_nil
    | cons x l =>
      simp only [List.cons_append, List.cons.injEq] at hm
      obtain ⟨rfl, rfl⟩ := hm
      have hxj : x ≠ j := fun he ↦ hj (by simp [he])
      have hxz : x ≠ z := fun he ↦ (List.nodup_cons.mp (Links.cons hc hne' ht).nodup).1
        (by simp [he])
      refine .cons ?_ hne' (ih rfl (fun hm ↦ hj (List.mem_cons_of_mem _ hm)))
      rw [update_of_ne hxj, update_of_ne hxz, hc]

end Update

/-- A division of a table's blocks among owners: `start i` is the first block
of owner `i`, `chain i` all of its blocks, and the marks in `idle` are the
entries of the blocks that belong to nobody. -/
structure Allotment (entry : α → Option α) (eof : α) (idle : Set α) (start : ι → Option α)
    (chain : ι → List α) : Prop where
  links : ∀ i a, start i = some a → Links entry eof a (chain i)
  unused : ∀ i, start i = none → chain i = []
  disjoint : ∀ i j, i ≠ j → (chain i).Disjoint (chain j)
  busy : ∀ i, ∀ b ∈ chain i, ∀ v, entry b = some v → v ∉ idle
  covered : ∀ b v, entry b = some v → v ∉ idle → ∃ i, b ∈ chain i

variable {idle : Set α} {start : ι → Option α} {chain : ι → List α} {i j : ι}

theorem Allotment.start_of_mem (A : Allotment entry eof idle start chain) (hb : b ∈ chain i) :
    ∃ a, start i = some a := by
  cases h : start i with
  | none => simp [A.unused i h] at hb
  | some a => exact ⟨a, rfl⟩

theorem Allotment.nodup (A : Allotment entry eof idle start chain) (i : ι) : (chain i).Nodup := by
  cases h : start i with
  | none => simp [A.unused i h]
  | some a => exact (A.links i a h).nodup

theorem Allotment.owner_unique (A : Allotment entry eof idle start chain) (hi : b ∈ chain i)
    (hj : b ∈ chain j) : i = j := by
  by_contra hne
  exact A.disjoint i j hne hi hj

theorem Allotment.not_mem_of_idle (A : Allotment entry eof idle start chain) {v : α}
    (hb : entry b = some v) (hv : v ∈ idle) (i : ι) : b ∉ chain i :=
  fun h ↦ A.busy i b h v hb hv

section Update

variable [DecidableEq ι]

open Function

theorem Allotment.release (A : Allotment entry eof idle start chain) (i : ι) {f : α} (hf : f ∈ idle)
    (hfree : ∀ b ∈ chain i, entry' b = some f) (hkeep : ∀ b, b ∉ chain i → entry' b = entry b) :
    Allotment entry' eof idle (update start i none) (update chain i []) := by
  have hkeep' : ∀ k, k ≠ i → ∀ b ∈ chain k, entry' b = entry b := fun k hk b hb ↦
    hkeep b fun hbi ↦ hk (A.owner_unique hb hbi)
  refine ⟨fun k a ha ↦ ?_, fun k hk ↦ ?_, fun k m hkm ↦ ?_, fun k b hb v hv ↦
    ?_, fun b v hb hv ↦ ?_⟩
  · have hne : k ≠ i := by rintro rfl; simp at ha
    rw [update_of_ne hne] at ha ⊢
    exact (A.links k a ha).congr (hkeep' k hne)
  · by_cases hki : k = i
    · simp [hki]
    · rw [update_of_ne hki] at hk ⊢
      exact A.unused k hk
  · intro b hbk hbm
    have hk : k ≠ i := by rintro rfl; simp at hbk
    have hm : m ≠ i := by rintro rfl; simp at hbm
    rw [update_of_ne hk] at hbk
    rw [update_of_ne hm] at hbm
    exact A.disjoint k m hkm hbk hbm
  · have hk : k ≠ i := by rintro rfl; simp at hb
    rw [update_of_ne hk] at hb
    rw [hkeep' k hk b hb] at hv
    exact A.busy k b hb v hv
  · have hbi : b ∉ chain i := fun hbi ↦ hv (by
      obtain rfl : f = v := by simpa [hfree b hbi] using hb
      exact hf)
    rw [hkeep b hbi] at hb
    obtain ⟨k, hk⟩ := A.covered b v hb hv
    have hne : k ≠ i := by rintro rfl; exact hbi hk
    exact ⟨k, by rwa [update_of_ne hne]⟩

variable [DecidableEq α]

theorem Allotment.create (A : Allotment entry eof idle start chain) (heof : eof ∉ idle) {j : α}
    {f : α} (hj : entry j = some f) (hf : f ∈ idle) (hi : start i = none) :
    Allotment (update entry j (some eof)) eof idle (update start i (some j))
      (update chain i [j]) := by
  have hfresh := A.not_mem_of_idle hj hf
  have hkeep : ∀ k, ∀ b ∈ chain k, update entry j (some eof) b = entry b := fun k b hb ↦
    update_of_ne (fun he : b = j ↦ hfresh k (he ▸ hb)) _ _
  refine ⟨fun k a ha ↦ ?_, fun k hk ↦ ?_, fun k m hkm ↦ ?_, fun k b hb v hv ↦
    ?_, fun b v hb hv ↦ ?_⟩
  · by_cases hk : k = i
    · subst hk
      obtain rfl : j = a := by simpa using ha
      have hlast : update entry j (some eof) j = some eof := update_self ..
      simpa using Links.last hlast
    · rw [update_of_ne hk] at ha ⊢
      exact (A.links k a ha).congr (hkeep k)
  · have hne : k ≠ i := by rintro rfl; simp at hk
    rw [update_of_ne hne] at hk ⊢
    exact A.unused k hk
  · intro b hbk hbm
    by_cases hk : k = i
    · subst hk
      rw [update_self, List.mem_singleton] at hbk
      rw [update_of_ne hkm.symm] at hbm
      exact hfresh m (hbk ▸ hbm)
    · rw [update_of_ne hk] at hbk
      by_cases hm : m = i
      · subst hm
        rw [update_self, List.mem_singleton] at hbm
        exact hfresh k (hbm ▸ hbk)
      · rw [update_of_ne hm] at hbm
        exact A.disjoint k m hkm hbk hbm
  · by_cases hk : k = i
    · subst hk
      rw [update_self, List.mem_singleton] at hb
      obtain rfl : eof = v := by simpa [hb] using hv
      exact heof
    · rw [update_of_ne hk] at hb
      rw [hkeep k b hb] at hv
      exact A.busy k b hb v hv
  · by_cases hbj : b = j
    · exact ⟨i, by simp [hbj]⟩
    · rw [update_of_ne hbj] at hb
      obtain ⟨k, hk⟩ := A.covered b v hb hv
      have hne : k ≠ i := by rintro rfl; simp [A.unused k hi] at hk
      exact ⟨k, by rwa [update_of_ne hne]⟩

/-- Hanging an idle block behind the last block of an owner. The new block's
number becomes an entry, so it must be none of the marks. -/
theorem Allotment.extend (A : Allotment entry eof idle start chain) (heof : eof ∉ idle) {z j f : α}
    (hz : ∃ l, chain i = l ++ [z]) (hj : entry j = some f) (hf : f ∈ idle) (hje : j ≠ eof)
    (hji : j ∉ idle) :
    Allotment (update (update entry z (some j)) j (some eof)) eof idle start
      (update chain i (chain i ++ [j])) := by
  obtain ⟨l, hl⟩ := hz
  have hfresh := A.not_mem_of_idle hj hf
  have hzi : z ∈ chain i := by simp [hl]
  have hkeep : ∀ k, k ≠ i → ∀ b ∈ chain k,
      update (update entry z (some j)) j (some eof) b = entry b := by
    intro k hk b hb
    rw [update_of_ne (fun he : b = j ↦ hfresh k (he ▸ hb)),
      update_of_ne (fun he : b = z ↦ hk (A.owner_unique (he ▸ hb) hzi))]
  refine ⟨fun k a ha ↦ ?_, fun k hk ↦ ?_, fun k m hkm ↦ ?_, fun k b hb v hv ↦
    ?_, fun b v hb hv ↦ ?_⟩
  · by_cases hk : k = i
    · subst hk
      have h := A.links k a ha
      rw [hl] at h
      rw [update_self, hl]
      exact h.extend (by rw [← hl]; exact hfresh k) hje
    · rw [update_of_ne hk]
      exact (A.links k a ha).congr (hkeep k hk)
  · have hne : k ≠ i := by rintro rfl; simp [A.unused k hk] at hzi
    rw [update_of_ne hne]
    exact A.unused k hk
  · intro b hbk hbm
    by_cases hk : k = i
    · subst hk
      rw [update_self, List.mem_append, List.mem_singleton] at hbk
      rw [update_of_ne hkm.symm] at hbm
      rcases hbk with hbk | rfl
      · exact A.disjoint k m hkm hbk hbm
      · exact hfresh m hbm
    · rw [update_of_ne hk] at hbk
      by_cases hm : m = i
      · subst hm
        rw [update_self, List.mem_append, List.mem_singleton] at hbm
        rcases hbm with hbm | rfl
        · exact A.disjoint k m hkm hbk hbm
        · exact hfresh k hbk
      · rw [update_of_ne hm] at hbm
        exact A.disjoint k m hkm hbk hbm
  · by_cases hbj : b = j
    · obtain rfl : eof = v := by simpa [hbj] using hv
      exact heof
    rw [update_of_ne hbj] at hv
    by_cases hbz : b = z
    · obtain rfl : j = v := by simpa [hbz] using hv
      exact hji
    rw [update_of_ne hbz] at hv
    by_cases hk : k = i
    · subst hk
      rw [update_self, List.mem_append, List.mem_singleton] at hb
      exact A.busy k b (hb.resolve_right hbj) v hv
    · rw [update_of_ne hk] at hb
      exact A.busy k b hb v hv
  · by_cases hbj : b = j
    · exact ⟨i, by simp [hbj]⟩
    rw [update_of_ne hbj] at hb
    by_cases hbz : b = z
    · exact ⟨i, by simp [hbz, hl]⟩
    rw [update_of_ne hbz] at hb
    obtain ⟨k, hk⟩ := A.covered b v hb hv
    by_cases hki : k = i
    · exact ⟨i, by simp [← hki, hk]⟩
    · exact ⟨k, by rwa [update_of_ne hki]⟩

end Update

end GenericFs.Library.Chain
