import GenericFs.Library.Machine
import GenericFs.Spica.Strings

namespace GenericFs.Spica

open GenericFs.Library Cells Function Workspace

section Conditions

variable (w : World) (S : Values)

def Chars.Legal : Chars → Prop
  | .literal t => 0 ∉ t
  | .of s => (S s).isSome

def Operand.Legal : Operand → Prop
  | .string s => (S s).isSome
  | .chars p => p.Legal S
  | .char c => c ≠ 0

def Operation.Legal : Operation → Prop
  | .right length pad | .left length pad | .center length pad => IsInt length ∧ pad ≠ 0
  | .copy count => IsInt count
  | .erase offset count | .substr offset count => IsInt offset ∧ IsInt count
  | .insert incoming offset count => (S incoming).isSome ∧ IsInt offset ∧ IsInt count
  | .strip _ _ => True
  | .subword offset count white => IsInt offset ∧ IsInt count ∧ ∀ p ∈ white, p.Legal S

/-- What a program can ask for: strings that are alive, characters that are not
null, and numbers that an `int` can have. -/
def Op.Legal : Op → Prop
  | .construct x => S x = none
  | .constructFrom x existing => S x = none ∧ existing.Legal S
  | .assign x other => (S x).isSome ∧ (S other).isSome
  | .assignChars x other => (S x).isSome ∧ ∀ p ∈ other, p.Legal S
  | .append x other => (S x).isSome ∧ other.Legal S
  | .erase x | .destroy x => (S x).isSome
  | .result x s f => S x = none ∧ (S s).isSome ∧ f.Legal S
  | .plus x left right => S x = none ∧ left.Legal S ∧ right.Legal S

/-- The numbers of characters that the operation counts in an `int` are numbers an
`int` can have; `shared` is how many strings refer to the node that it reads. -/
def Operation.Fits (shared : ℕ) (t : Text) : Operation → Prop
  | .right length _ | .left length _ | .center length _ =>
    0 < length → t.length ≤ intMax ∧ length < intMax
  | .copy count => count.toNat * t.length + 1 < 2 ^ 64
  | .erase offset count =>
    IsInt (offset - 1) ∧ (1 ≤ offset → 0 ≤ count → t.length ≤ intMax) ∧
      (t.EraseNone offset count → shared < intMax)
  | .insert incoming offset count =>
    IsInt (offset - 1) ∧ (1 ≤ offset → 0 ≤ count → t.length ≤ intMax) ∧
      (t.InsertNone offset count → shared < intMax) ∧
      ∀ u ∈ S incoming, ¬t.InsertNone offset count →
        u.length ≤ intMax ∧ t.length + min count.toNat u.length < intMax
  | .strip mode killChar => (t.strip mode killChar).length < intMax
  | .substr offset count =>
    IsInt (offset - 1) ∧ (1 ≤ offset → 0 ≤ count →
      t.length ≤ intMax ∧ (t.substr offset count).length < intMax)
  | .subword offset count white =>
    IsInt (offset - 1) ∧ ∀ d ∈ Chars.delimiters S white, 1 ≤ offset → 0 ≤ count →
      t.words (isWhite d) ≤ intMax ∧ (t.subword (isWhite d) offset count).length < intMax

def Op.Fits : Op → Prop
  | .constructFrom x (.string s) => w.sharers x s < intMax
  | .assign x other => x = other ∨ w.sharers x other < intMax
  | .append x other => ∀ t ∈ S x, ∀ u ∈ other.value S, t.length + u.length < intMax
  | .result x s f => ∀ t ∈ S s, f.Fits S (w.sharers x s) t
  | .plus x left right => (∀ s, left = .string s → w.sharers x s < intMax) ∧
      ∀ t ∈ left.value S, ∀ u ∈ right.value S, t.length + u.length < intMax
  | _ => True

/-- Every node that a string refers to has the number of these strings as its
count and was not freed, the other ones were freed once, and the strings have the
texts that the values say. -/
structure Sound : Prop where
  counted : ∀ x ∈ w.live, ∃ node, w.memory.cell (w.rep x) = some node ∧
    node.count = (w.live.filter (w.rep · = w.rep x)).card ∧ cstring node.value = S x
  kept : ∀ x ∈ w.live, w.rep x ∉ w.memory.freed
  freed : ∀ a < w.memory.next, (∀ x ∈ w.live, w.rep x ≠ a) → w.memory.freed.count a = 1
  alive : ∀ x, x ∈ w.live ↔ (S x).isSome

def Represents : Prop :=
  ∃ T, Sharing w.memory (w.live.val.map w.rep) T ∧
    ∀ x, S x = if x ∈ w.live then some (T (w.rep x)) else none

end Conditions

namespace World

def others (w : World) (x : ℕ) : Multiset ℕ := (w.live.erase x).val.map w.rep

variable {w : World} {x y : ℕ}

theorem count_others : (w.others x).count (w.rep y) = w.sharers x y := by
  rw [others, sharers, Multiset.count_map]
  simp only [Finset.card, Finset.filter_val, eq_comm]

theorem roots_of_mem (hx : x ∈ w.live) : w.live.val.map w.rep = w.rep x ::ₘ w.others x := by
  rw [others, ← Multiset.map_cons, Finset.erase_val, Multiset.cons_erase hx]

theorem roots_of_notMem (hx : x ∉ w.live) : w.live.val.map w.rep = w.others x := by
  rw [others, Finset.erase_eq_of_notMem hx]

theorem roots_give {made : ℕ × Memory} :
    (w.give x made).live.val.map (w.give x made).rep = made.1 ::ₘ w.others x := by
  have hinsert : insert x w.live = insert x (w.live.erase x) := by
    ext y
    rcases eq_or_ne y x with rfl | hne
    · simp
    · simp [hne]
  have hothers : (w.live.erase x).val.map (update w.rep x made.1) = w.others x :=
    Multiset.map_congr rfl (fun y hy ↦ update_of_ne (Finset.ne_of_mem_erase hy) _ _)
  rw [give, hinsert, Finset.insert_val_of_notMem (Finset.notMem_erase x _), Multiset.map_cons]
  dsimp only
  rw [update_self, hothers]

end World

section Represents

variable {w : World} {S : Values} {T : ℕ → Text} {x y : ℕ} {t : Text}
  {e : Except Fault (ℕ × Memory)}

theorem World.mem_others (hy : y ∈ w.live) (hne : y ≠ x) : w.rep y ∈ w.others x :=
  Multiset.mem_map_of_mem _ (Finset.mem_erase.mpr ⟨hne, hy⟩)

theorem represents_empty : Represents .empty (fun _ ↦ none) :=
  ⟨fun _ ↦ [], ⟨Heap.holds_empty, by simp [World.empty]⟩, by simp [World.empty]⟩

theorem Gives.represents (h : Gives e (w.others x) T t)
    (hS : ∀ y ≠ x, S y = if y ∈ w.live then some (T (w.rep y)) else none) :
    ∃ w', (do return w.give x (← e) : Except Fault World) = .ok w' ∧
      Represents w' (update S x (some t)) := by
  obtain ⟨a, m, T', rfl, hshare, rfl, hkeep⟩ := h
  refine ⟨w.give x (a, m), rfl, T', ?_, ?_⟩
  · rw [World.roots_give]
    exact hshare
  · intro y
    rcases eq_or_ne y x with rfl | hne
    · simp [World.give]
    · rw [update_of_ne hne, hS y hne]
      by_cases hy : y ∈ w.live
      · simp [World.give, hy, hne, hkeep _ (World.mem_others hy hne)]
      · simp [World.give, hy, hne]

theorem Represents.sound (h : Represents w S) : Sound w S := by
  obtain ⟨T, hshare, hS⟩ := h
  have hmem : ∀ x ∈ w.live, w.rep x ∈ w.live.val.map w.rep := fun x hx ↦
    Multiset.mem_map_of_mem _ hx
  refine ⟨fun x hx ↦ ⟨_, hshare.holds.owned _ (hmem x hx), ?_, ?_⟩, fun x hx hfreed ↦ ?_,
    fun a hlt ha ↦ ?_, fun x ↦ ?_⟩
  · rw [Multiset.count_map]
    simp only [Finset.card, Finset.filter_val, eq_comm]
  · rw [cstring_image (hshare.clean _ (hmem x hx)), hS, if_pos hx]
  · exact (hshare.holds.gone _ hfreed).2 (hmem x hx)
  · refine hshare.holds.freedOnce a hlt (fun hroot ↦ ?_)
    obtain ⟨x, hx, rfl⟩ := Multiset.mem_map.mp hroot
    exact ha x hx rfl
  · rw [hS]
    split
    case isTrue hx => simp [hx]
    case isFalse hx => simp [hx]

end Represents

/-- The memory `m` in a call that began in the world `w`. -/
structure Reads (w : World) (S : Values) (m : Memory) (R : Multiset ℕ) (T : ℕ → Text) : Prop where
  sharing : Sharing m R T
  texts : ∀ x, S x = if x ∈ w.live then some (T (w.rep x)) else none
  owned : ∀ x ∈ w.live, w.rep x ∈ R

namespace Reads

variable {w : World} {S : Values} {m : Memory} {R : Multiset ℕ} {T : ℕ → Text} {s a : ℕ}
  {p : Chars} {o : Operand} {f : Operation}

theorem mem_live (h : Reads w S m R T) (hs : (S s).isSome) : s ∈ w.live := by
  rw [h.texts] at hs
  by_contra hnot
  rw [if_neg hnot] at hs
  exact Bool.false_ne_true hs

theorem value (h : Reads w S m R T) (hs : s ∈ w.live) : S s = some (T (w.rep s)) := by
  rw [h.texts, if_pos hs]

theorem clean (h : Reads w S m R T) (hs : s ∈ w.live) : 0 ∉ T (w.rep s) :=
  h.sharing.clean _ (h.owned s hs)

theorem pointer (h : Reads w S m R T) (hp : p.Legal S) :
    ∃ q t, w.pointer p = .ok q ∧ m.chars q = .ok (image t) ∧ 0 ∉ t ∧ p.value S = some t := by
  cases p with
  | literal t => exact ⟨.literal t, t, rfl, rfl, hp, rfl⟩
  | of s =>
    have hs := h.mem_live hp
    refine ⟨.workspace (w.rep s), _, ?_, h.sharing.chars (h.owned s hs), h.clean hs, h.value hs⟩
    rw [World.pointer, World.find, if_pos hs, ok_bind]
    rfl

theorem constructFrom (h : Reads w S w.memory R T) (ho : o.Legal S)
    (hfit : ∀ s, o = .string s → R.count (w.rep s) < intMax) :
    ∃ t, o.value S = some t ∧ Gives (w.constructFrom o) R T t := by
  cases o with
  | string s =>
    have hs := h.mem_live ho
    refine ⟨_, h.value hs, ?_⟩
    rw [World.constructFrom, World.find, if_pos hs, ok_bind]
    exact h.sharing.constructCopy (h.owned s hs) (hfit s rfl)
  | chars p =>
    obtain ⟨q, t, hq, hchars, ht, hvalue⟩ := h.pointer ho
    refine ⟨t, hvalue, ?_⟩
    rw [World.constructFrom, hq, ok_bind]
    exact h.sharing.constructChars hchars ht
  | char c => exact ⟨[c], rfl, h.sharing.constructChar ho⟩

theorem append (h : Reads w S m (a ::ₘ R) T) (ho : o.Legal S)
    (hfit : ∀ t ∈ o.value S, (T a).length + t.length < intMax) :
    ∃ t, o.value S = some t ∧ Gives (w.append m a o) R T (T a ++ t) := by
  cases o with
  | string s =>
    have hs := h.mem_live ho
    refine ⟨_, h.value hs, ?_⟩
    rw [World.append, World.find, if_pos hs, ok_bind]
    exact h.sharing.append (h.owned s hs) (hfit _ (h.value hs))
  | chars p =>
    obtain ⟨q, t, hq, hchars, ht, hvalue⟩ := h.pointer ho
    refine ⟨t, hvalue, ?_⟩
    rw [World.append, hq, ok_bind]
    exact h.sharing.appendChars hchars ht (hfit t hvalue)
  | char c => exact ⟨[c], rfl, h.sharing.appendChar ho (hfit [c] rfl)⟩

theorem subword (h : Reads w S w.memory R T) (hs : s ∈ w.live) {offset count : ℤ}
    {white : Option Chars} (hf : (Operation.subword offset count white).Legal S)
    (hfit : (Operation.subword offset count white).Fits S (R.count (w.rep s)) (T (w.rep s))) :
    ∃ t, (Operation.subword offset count white).value S (T (w.rep s)) = some t ∧
      Gives (w.operate (w.rep s) (.subword offset count white)) R T t := by
  obtain ⟨-, -, hwhite⟩ := hf
  obtain ⟨ho, hfit⟩ := hfit
  obtain ⟨q, d, hq, hd, hvalue⟩ : ∃ q d, w.white white = .ok q ∧ w.memory.delimiters q = .ok d ∧
      Chars.delimiters S white = some d := by
    cases white with
    | none => exact ⟨none, none, rfl, rfl, rfl⟩
    | some p =>
      obtain ⟨q, t, hq, hchars, ht, hvalue⟩ := h.pointer (hwhite p rfl)
      refine ⟨some q, some t, ?_, ?_, ?_⟩
      · rw [World.white, hq]
        rfl
      · rw [Memory.delimiters, hchars, ok_bind, cstring_image ht]
        rfl
      · rw [Chars.delimiters, hvalue]
        rfl
  refine ⟨(T (w.rep s)).subword (isWhite d) offset count, ?_, ?_⟩
  · rw [Operation.value, hvalue]
    rfl
  · rw [World.operate, hq, ok_bind, Memory.subword, hd, ok_bind]
    exact h.sharing.produce (h.owned s hs) (subword_makes (h.clean hs) ho (hfit d hvalue))
      (Text.subword_clean (h.clean hs)) False.elim

theorem operate (h : Reads w S w.memory R T) (hs : s ∈ w.live) (hf : f.Legal S)
    (hfit : f.Fits S (R.count (w.rep s)) (T (w.rep s))) :
    ∃ t, f.value S (T (w.rep s)) = some t ∧ Gives (w.operate (w.rep s) f) R T t := by
  have hclean := h.clean hs
  have hmem := h.owned s hs
  cases f with
  | right length pad =>
    exact ⟨_, rfl, h.sharing.produce hmem (right_makes hclean hfit)
      (Text.right_clean hclean hf.2) False.elim⟩
  | left length pad =>
    exact ⟨_, rfl, h.sharing.produce hmem (left_makes hclean hfit)
      (Text.left_clean hclean hf.2) False.elim⟩
  | center length pad =>
    exact ⟨_, rfl, h.sharing.center hmem (Text.center_clean hclean hf.2) hfit⟩
  | copy count =>
    exact ⟨_, rfl, h.sharing.produce hmem (copy_makes hclean hfit) (Text.copy_clean hclean)
      False.elim⟩
  | erase offset count =>
    exact ⟨_, rfl, h.sharing.produce hmem (erase_makes hclean hfit.1 hfit.2.1)
      (Text.erase_clean hclean) hfit.2.2⟩
  | insert incoming offset count =>
    have hincoming := h.mem_live hf.1
    refine ⟨(T (w.rep s)).insert (T (w.rep incoming)) offset count, ?_, ?_⟩
    · rw [Operation.value, h.value hincoming]
      rfl
    · rw [World.operate, World.find, if_pos hincoming, ok_bind, Memory.insert,
        h.sharing.chars (h.owned _ hincoming), ok_bind]
      exact h.sharing.produce hmem
        (insert_makes hclean (h.clean hincoming) hfit.1 hfit.2.1
          (hfit.2.2.2 _ (h.value hincoming)))
        (Text.insert_clean hclean (h.clean hincoming)) hfit.2.2.1
  | strip mode killChar =>
    exact ⟨_, rfl, h.sharing.produce hmem (strip_makes hclean hfit) (Text.strip_clean hclean)
      False.elim⟩
  | substr offset count =>
    exact ⟨_, rfl, h.sharing.produce hmem (substr_makes hclean hfit.1 hfit.2)
      (Text.substr_clean hclean) False.elim⟩
  | subword offset count white => exact h.subword hs hf hfit

end Reads

section Steps

variable {w : World} {S : Values} {x : ℕ} {op : Op}

theorem Represents.fresh (h : Represents w S) (hx : S x = none) :
    ∃ T, Reads w S w.memory (w.others x) T := by
  obtain ⟨T, hshare, hS⟩ := h
  have hlive : x ∉ w.live := by
    intro hmem
    rw [hS, if_pos hmem] at hx
    exact Option.some_ne_none _ hx
  rw [World.roots_of_notMem hlive] at hshare
  exact ⟨T, hshare, hS, fun y hy ↦ World.mem_others hy (fun he ↦ hlive (he ▸ hy))⟩

theorem Represents.alive (h : Represents w S) (hx : (S x).isSome) :
    ∃ T, x ∈ w.live ∧ w.find x = .ok (w.rep x) ∧ S x = some (T (w.rep x)) ∧
      Reads w S w.memory (w.rep x ::ₘ w.others x) T := by
  obtain ⟨T, hshare, hS⟩ := h
  have hlive : x ∈ w.live := by
    by_contra hnot
    rw [hS, if_neg hnot] at hx
    exact Bool.false_ne_true hx
  have hmem : ∀ y ∈ w.live, w.rep y ∈ w.rep x ::ₘ w.others x := by
    intro y hy
    rw [← World.roots_of_mem hlive]
    exact Multiset.mem_map_of_mem _ hy
  rw [World.roots_of_mem hlive] at hshare
  exact ⟨T, hlive, if_pos hlive, by rw [hS, if_pos hlive], hshare, hS, hmem⟩

theorem Reads.given {m : Memory} {R : Multiset ℕ} {T : ℕ → Text} {t : Text}
    {e : Except Fault (ℕ × Memory)} (h : Reads w S m R T) (he : Gives e (w.others x) T t) :
    ∃ w', (do return w.give x (← e) : Except Fault World) = .ok w' ∧
      Represents w' (update S x (some t)) :=
  he.represents (fun y _ ↦ h.texts y)

/-- Every operation within its bounds is carried out, and leaves the strings with
the values that it gives them. -/
theorem Represents.exec (h : Represents w S) (hop : op.Legal S) (hfit : op.Fits w S) :
    ∃ w', w.exec op = .ok w' ∧ Represents w' (op.value S) := by
  cases op with
  | construct x =>
    obtain ⟨T, hreads⟩ := h.fresh hop
    exact hreads.given hreads.sharing.construct
  | constructFrom x existing =>
    obtain ⟨T, hreads⟩ := h.fresh hop.1
    have hcount : ∀ s, existing = .string s → (w.others x).count (w.rep s) < intMax := by
      rintro s rfl
      rw [World.count_others]
      exact hfit
    obtain ⟨t, hvalue, hgives⟩ := hreads.constructFrom hop.2 hcount
    rw [Op.value, hvalue]
    exact hreads.given hgives
  | assign x other =>
    rcases eq_or_ne x other with rfl | hne
    · refine ⟨w, by rw [World.exec, if_pos rfl]; rfl, ?_⟩
      rwa [Op.value, update_eq_self]
    · obtain ⟨T, -, hfind, -, hreads⟩ := h.alive hop.1
      have hother := hreads.mem_live hop.2
      have hcount : (w.others x).count (w.rep other) < intMax := by
        rw [World.count_others]
        exact hfit.resolve_left hne
      rw [Op.value, hreads.value hother, World.exec, if_neg hne, hfind, ok_bind, World.find,
        if_pos hother, ok_bind]
      exact hreads.given
        (hreads.sharing.assign (World.mem_others hother hne.symm) hcount)
  | assignChars x other =>
    cases other with
    | none => exact ⟨w, rfl, h⟩
    | some p =>
      obtain ⟨T, -, hfind, -, hreads⟩ := h.alive hop.1
      obtain ⟨q, t, hq, hchars, ht, hvalue⟩ := hreads.pointer (hop.2 p rfl)
      rw [Op.value, hvalue, World.exec, hfind, ok_bind, hq, ok_bind]
      exact hreads.given (hreads.sharing.assignChars hchars ht)
  | append x other =>
    obtain ⟨T, -, hfind, hx, hreads⟩ := h.alive hop.1
    obtain ⟨t, hvalue, hgives⟩ := hreads.append hop.2 (fun t ht ↦ hfit _ hx t ht)
    rw [Op.value, hx, hvalue, World.exec, hfind, ok_bind]
    exact hreads.given hgives
  | erase x =>
    obtain ⟨T, hlive, hfind, -, hreads⟩ := h.alive hop
    rw [World.exec, hfind, ok_bind]
    exact hreads.given hreads.sharing.erase
  | result x s f =>
    obtain ⟨T, hreads⟩ := h.fresh hop.1
    have hs := hreads.mem_live hop.2.1
    have hfit := hfit _ (hreads.value hs)
    rw [← World.count_others] at hfit
    obtain ⟨t, hvalue, hgives⟩ := hreads.operate hs hop.2.2 hfit
    rw [Op.value, hreads.value hs, Option.bind_eq_bind, Option.bind_some, hvalue, World.exec,
      World.find, if_pos hs, ok_bind]
    exact hreads.given hgives
  | plus x left right =>
    obtain ⟨T, hreads⟩ := h.fresh hop.1
    have hcount : ∀ s, left = .string s → (w.others x).count (w.rep s) < intMax := by
      intro s hs
      rw [World.count_others]
      exact hfit.1 s hs
    obtain ⟨t, hleft, rep, m, T', htemp, hshare, rfl, hkeep⟩ := hreads.constructFrom hop.2.1 hcount
    have htemp' : Reads w S m (rep ::ₘ w.others x) T' := by
      refine ⟨hshare, fun y ↦ ?_, fun y hy ↦ Multiset.mem_cons_of_mem (hreads.owned y hy)⟩
      rw [hreads.texts]
      split
      case isTrue hy => rw [hkeep _ (hreads.owned y hy)]
      case isFalse hy => rfl
    obtain ⟨u, hright, hgives⟩ := htemp'.append hop.2.2 (fun u hu ↦ hfit.2 _ hleft u hu)
    rw [Op.value, hleft, hright, World.exec, htemp, ok_bind]
    exact htemp'.given hgives
  | destroy x =>
    obtain ⟨T, hlive, hfind, -, hreads⟩ := h.alive hop
    obtain ⟨m, hrelease, hshare⟩ := hreads.sharing.release
    rw [Op.value, World.exec, hfind, ok_bind, hrelease, ok_bind]
    refine ⟨_, rfl, T, hshare, fun y ↦ ?_⟩
    rcases eq_or_ne y x with rfl | hne
    · simp
    · rw [update_of_ne hne, hreads.texts]
      simp [hne]

structure Step (p : World × Values) (op : Op) (q : World × Values) : Prop where
  legal : op.Legal p.2
  exec : p.1.exec op = .ok q.1
  value : q.2 = op.value p.2

abbrev noStrings : World × Values := (.empty, fun _ ↦ none)

theorem represents_of_run {ops : List Op}
    (h : Machine.Run (fun p op q ↦ Step p op q ∧ op.Fits p.1 p.2) noStrings ops (w, S)) :
    Represents w S := by
  refine h.invariant (P := fun p ↦ Represents p.1 p.2) (fun p op q hp hstep ↦ ?_) represents_empty
  obtain ⟨⟨hlegal, hexec, hvalue⟩, hfits⟩ := hstep
  obtain ⟨w', hw', hrep⟩ := hp.exec hlegal hfits
  rw [hexec] at hw'
  cases hw'
  rwa [hvalue]

/-- The strings are values after any operations within their bounds, and so they
are after the next one. -/
theorem sound_of_run {ops : List Op}
    (h : Machine.Run (fun p op q ↦ Step p op q ∧ op.Fits p.1 p.2) noStrings ops (w, S)) :
    Sound w S ∧ ∀ op : Op, op.Legal S → op.Fits w S →
      ∃ w', w.exec op = .ok w' ∧ Sound w' (op.value S) := by
  have hrep := represents_of_run h
  refine ⟨hrep.sound, fun op hlegal hfits ↦ ?_⟩
  obtain ⟨w', hexec, hrep'⟩ := hrep.exec hlegal hfits
  exact ⟨w', hexec, hrep'.sound⟩

theorem sound_of_run_shared : ∃ w, Sound w (update (update (update (fun _ ↦ none) 0 (some [97])) 1
    (some [97])) 0 (some [97, 97])) := by
  let w₁ := World.give .empty 0 (Heap.empty.alloc (image [97]))
  let w₂ := w₁.give 1 (0, w₁.memory.set 0 ⟨2, image [97]⟩)
  have hfirst : Step noStrings (.constructFrom 0 (.chars (.literal [97])))
      (w₁, update (fun _ ↦ none) 0 (some [97])) :=
    ⟨⟨rfl, by simp [Operand.Legal, Chars.Legal]⟩, rfl, rfl⟩
  have hsecond : Step (w₁, update (fun _ ↦ none) 0 (some [97])) (.constructFrom 1 (.string 0))
      (w₂, update (update (fun _ ↦ none) 0 (some [97])) 1 (some [97])) :=
    ⟨⟨rfl, rfl⟩, rfl, rfl⟩
  have hsum : (Op.append 0 (.chars (.of 0))).Fits w₂
      (update (update (fun _ ↦ none) 0 (some [97])) 1 (some [97])) := by
    rintro t ⟨⟩ u ⟨⟩
    decide
  obtain ⟨w, -, hsound⟩ := (sound_of_run (.cons ⟨hfirst, trivial⟩
    (.cons ⟨hsecond, (by decide : 1 < intMax)⟩ (.nil _)))).2 (.append 0 (.chars (.of 0)))
    ⟨rfl, rfl⟩ hsum
  exact ⟨w, hsound⟩

/-- A result of as many characters as an `int` can count has no array. -/
theorem not_sound_of_run : ¬∀ (ops : List Op) (w : World) (S : Values),
    Machine.Run Step noStrings ops (w, S) →
      Sound w S ∧ ∀ op : Op, op.Legal S → ∃ w', w.exec op = .ok w' ∧ Sound w' (op.value S) := by
  intro hall
  have hrun : Machine.Run Step noStrings [.construct 0]
      (World.give .empty 0 (Heap.empty.alloc (image [])), (Op.construct 0).value _) :=
    .cons ⟨rfl, rfl, rfl⟩ (.nil _)
  obtain ⟨w', hexec, -⟩ := (hall _ _ _ hrun).2 (.result 1 0 (.left intMax 32))
    ⟨rfl, rfl, by decide, by decide⟩
  have herror : World.exec (World.give .empty 0 (Heap.empty.alloc (image [])))
      (.result 1 0 (.left intMax 32)) = .error .undefined := rfl
  rw [herror] at hexec
  cases hexec

end Steps

end GenericFs.Spica
