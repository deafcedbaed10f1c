-- Items with a first and a last key. In a list in key order every item ends
-- before the next one starts.
import Mathlib.Data.List.Pairwise
import Mathlib.Data.List.Sort

namespace Lib

variable {α κ : Type*} [LinearOrder κ] {lo hi : α → κ} {l : List α} {x y : α} {b e : κ}

/-- Every item ends before the next one starts. -/
def InKeyOrder (lo hi : α → κ) (l : List α) : Prop := l.Pairwise fun x y => hi x < lo y

/-- The item has no key of the range. -/
def Clear (lo hi : α → κ) (b e : κ) (x : α) : Prop := hi x < b ∨ e < lo x

/-- An item that is clear of all others is put where it belongs. -/
theorem InKeyOrder.orderedInsert (hle : ∀ x, lo x ≤ hi x) (h : InKeyOrder lo hi l)
    (hx : ∀ y ∈ l, Clear lo hi (lo x) (hi x) y) :
    InKeyOrder lo hi (l.orderedInsert (fun x y => lo x ≤ lo y) x) := by
  induction l with
  | nil => exact List.pairwise_singleton _ _
  | cons y l ih =>
    obtain ⟨hfirst, hrest⟩ := List.pairwise_cons.mp h
    unfold List.orderedInsert
    split
    · rename_i hxy
      refine List.pairwise_cons.mpr ⟨fun z hz => ?_, h⟩
      have hyz : lo y ≤ lo z := by
        rcases List.mem_cons.mp hz with rfl | hz
        · exact le_refl _
        · exact le_trans (hle y) (le_of_lt (hfirst z hz))
      rcases hx z hz with hlt | hlt
      · exact absurd (le_trans hxy hyz) (not_le.mpr (lt_of_le_of_lt (hle z) hlt))
      · exact hlt
    · rename_i hxy
      have hothers := ih hrest fun z hz => hx z (List.mem_cons_of_mem _ hz)
      refine List.pairwise_cons.mpr ⟨fun z hz => ?_, hothers⟩
      rcases (List.mem_orderedInsert _).mp hz with rfl | hz
      · rcases hx y List.mem_cons_self with hlt | hlt
        · exact hlt
        · exact absurd (le_trans (hle _) (le_of_lt hlt)) hxy
      · exact hfirst z hz

/-- A range is widened to the items of a list that meet it. An item that has no key in common with
the others, and is clear of the range, is clear of the wider range. -/
theorem clear_hull {c d : κ} (hle : ∀ x, lo x ≤ hi x)
    (hapart : ∀ y ∈ l, x ≠ y → Clear lo hi (lo y) (hi y) x) (hclear : Clear lo hi b e x)
    (hc : b ≤ c ∨ ∃ y ∈ l, ¬ Clear lo hi b e y ∧ lo y = c)
    (hd : d ≤ e ∨ ∃ y ∈ l, ¬ Clear lo hi b e y ∧ hi y = d) : Clear lo hi c d x := by
  -- Against an item that meets the range, `x` is on its own side.
  have hside : ∀ y ∈ l, ¬ Clear lo hi b e y →
      (hi x < b → hi x < lo y) ∧ (e < lo x → hi y < lo x) := by
    intro y hy hmeets
    have hne : x ≠ y := fun heq => hmeets (heq ▸ hclear)
    obtain ⟨hby, hye⟩ := not_or.mp hmeets
    constructor
    · intro hxb
      rcases hapart y hy hne with hlt | hlt
      · exact hlt
      · exact absurd (lt_of_lt_of_le hlt (hle x))
          (not_lt.mpr (le_trans (le_of_lt hxb) (not_lt.mp hby)))
    · intro hex
      rcases hapart y hy hne with hlt | hlt
      · exact absurd (lt_of_le_of_lt (hle x) hlt)
          (not_lt.mpr (le_trans (not_lt.mp hye) (le_of_lt hex)))
      · exact hlt
  rcases hclear with hxb | hex
  · rcases hc with hbc | ⟨y, hy, hmeets, rfl⟩
    · exact Or.inl (lt_of_lt_of_le hxb hbc)
    · exact Or.inl ((hside y hy hmeets).1 hxb)
  · rcases hd with hde | ⟨y, hy, hmeets, rfl⟩
    · exact Or.inr (lt_of_le_of_lt hde hex)
    · exact Or.inr ((hside y hy hmeets).2 hex)

/-! ## Ranges that are made of items -/

/-- Every key of the range `[c, d]` is one of `[b, e]` or of an item in `S`. -/
def CoveredBy (lo hi : α → κ) (S : α → Prop) (b e c d : κ) : Prop :=
  ∀ k, c ≤ k → k ≤ d → b ≤ k ∧ k ≤ e ∨ ∃ y, S y ∧ lo y ≤ k ∧ k ≤ hi y

/-- What `S` has to hold: the items that meet the range, and the items that meet one of its own. -/
structure ClosedUnder (lo hi : α → κ) (l : List α) (b e : κ) (S : α → Prop) : Prop where
  range : ∀ x ∈ l, ¬ Clear lo hi b e x → S x
  items : ∀ x ∈ l, ∀ y, S y → ¬ Clear lo hi (lo y) (hi y) x → S x

variable {S : α → Prop} {c d : κ}

theorem coveredBy_self : CoveredBy lo hi S b e b e := fun _ h h' => Or.inl ⟨h, h'⟩

/-- An item that meets a covered range is in `S`. -/
theorem CoveredBy.mem (h : CoveredBy lo hi S b e c d) (hS : ClosedUnder lo hi l b e S)
    (hle : ∀ x, lo x ≤ hi x) (hcd : c ≤ d) (hx : x ∈ l) (hmeets : ¬ Clear lo hi c d x) : S x := by
  obtain ⟨hcx, hxd⟩ := not_or.mp hmeets
  -- The greater of the two first keys is a common key.
  have hk : ∃ k, c ≤ k ∧ k ≤ d ∧ lo x ≤ k ∧ k ≤ hi x := by
    rcases le_total c (lo x) with hlow | hlow
    · exact ⟨lo x, hlow, not_lt.mp hxd, le_refl _, hle x⟩
    · exact ⟨c, le_refl _, hcd, hlow, not_lt.mp hcx⟩
  obtain ⟨k, hck, hkd, hxk, hkx⟩ := hk
  obtain ⟨hbk, hke⟩ | ⟨y, hy, hyk, hky⟩ := h k hck hkd
  · refine hS.range x hx fun hclear => ?_
    rcases hclear with hlt | hlt
    · exact absurd (le_trans hbk hkx) (not_le.mpr hlt)
    · exact absurd (le_trans hxk hke) (not_le.mpr hlt)
  · refine hS.items x hx y hy fun hclear => ?_
    rcases hclear with hlt | hlt
    · exact absurd (le_trans hyk hkx) (not_le.mpr hlt)
    · exact absurd (le_trans hxk hky) (not_le.mpr hlt)

/-- The range may be widened to the keys of an item of `S` that meets it. -/
theorem CoveredBy.widen {c' d' : κ} (h : CoveredBy lo hi S b e c d) (hx : S x)
    (hmeets : ¬ Clear lo hi c d x) (hc' : c' = c ∨ c' = lo x) (hd' : d' = d ∨ d' = hi x) :
    CoveredBy lo hi S b e c' d' := by
  obtain ⟨hcx, hxd⟩ := not_or.mp hmeets
  intro k hck hkd
  by_cases hin : c ≤ k ∧ k ≤ d
  · exact h k hin.1 hin.2
  · refine Or.inr ⟨x, hx, ?_, ?_⟩
    · rcases hc' with rfl | rfl
      · have hdk : d < k := not_le.mp fun hle => hin ⟨hck, hle⟩
        exact le_trans (not_lt.mp hxd) (le_of_lt hdk)
      · exact hck
    · rcases hd' with rfl | rfl
      · have hkc : k < c := not_le.mp fun hle => hin ⟨hle, hkd⟩
        exact le_trans (le_of_lt hkc) (not_lt.mp hcx)
      · exact hkd

end Lib
