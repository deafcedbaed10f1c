-- Lookups that stop at the first hit. Entries have a key and a version, and
-- stand in layers that are asked in order. The first layer that holds a key
-- gives the right answer when it holds the newest entry of the key.
import Mathlib.Data.List.Perm.Basic

namespace Lib

variable {E K S : Type*} (key : E → K) (ver : E → Nat)

def Holds (es : List E) (k : K) : Prop := ∃ e ∈ es, key e = k

/-- `o` is the newest entry of `k` in `es`, or says that there is none. -/
def Newest (es : List E) (k : K) : Option E → Prop
  | none => ∀ e ∈ es, key e ≠ k
  | some e => e ∈ es ∧ key e = k ∧ ∀ e' ∈ es, key e' = k → ver e' ≤ ver e

/-- For every entry of `k` in `es'`, `es` has one that is as new. -/
def Covers (es es' : List E) (k : K) : Prop :=
  ∀ e' ∈ es', key e' = k → ∃ e ∈ es, key e = k ∧ ver e' ≤ ver e

/-- The first layer that holds `k` covers the layers after it. -/
def FirstLeads (k : K) : List (List E) → Prop
  | [] => True
  | l :: ls => (Holds key l k → Covers key ver l ls.flatten k) ∧
      (¬ Holds key l k → FirstLeads k ls)

/-- No entry of `k` in `es'` is newer than one in `es`. -/
def Newer (es es' : List E) (k : K) : Prop :=
  ∀ e ∈ es, ∀ e' ∈ es', key e = k → key e' = k → ver e' ≤ ver e

/-- Of the layers below `n`, an earlier one is newer than a later one. -/
def Layered (n : Nat) (layers : Nat → List E) (k : K) : Prop :=
  ∀ i j, i < j → j < n → Newer key ver (layers i) (layers j) k

/-- Of the layers below `n`, at most one has been emptied into the layer after it. -/
def Shifted (n : Nat) (layers layers' : Nat → List E) : Prop :=
  (∀ i < n, (layers' i).Perm (layers i)) ∨
    ∃ m, m + 1 < n ∧ layers' m = [] ∧ (layers' (m + 1)).Perm (layers m ++ layers (m + 1)) ∧
      ∀ i < n, i ≠ m → i ≠ m + 1 → layers' i = layers i

section

variable {key ver} {es es' es'' : List E} {k : K} {o o' : Option E}

theorem Newest.none_iff (h : Newest key ver es k o) : o = none ↔ ¬ Holds key es k := by
  cases o with
  | none =>
    simp only [true_iff]
    rintro ⟨e, he, hk⟩
    exact h e he hk
  | some e =>
    simp only [reduceCtorEq, false_iff, not_not]
    exact ⟨e, h.1, h.2.1⟩

theorem Newest.mem {e : E} (h : Newest key ver es k o) (ho : o = some e) : e ∈ es := by
  subst ho
  exact h.1

theorem Newest.append (h : Newest key ver es k o) (h' : Newest key ver es' k o')
    (hc : Holds key es k → Covers key ver es es' k) :
    Newest key ver (es ++ es') k (o.or o') := by
  cases o with
  | some e =>
    obtain ⟨he, hk, hmax⟩ := h
    refine ⟨List.mem_append_left _ he, hk, ?_⟩
    intro e' he' hk'
    rcases List.mem_append.mp he' with he' | he'
    · exact hmax e' he' hk'
    · obtain ⟨a, ha, hak, hle⟩ := hc ⟨e, he, hk⟩ e' he' hk'
      exact Nat.le_trans hle (hmax a ha hak)
  | none =>
    rw [Option.none_or]
    cases o' with
    | none =>
      intro e he
      rcases List.mem_append.mp he with he | he
      · exact h e he
      · exact h' e he
    | some e =>
      obtain ⟨he, hk, hmax⟩ := h'
      refine ⟨List.mem_append_right _ he, hk, ?_⟩
      intro e' he' hk'
      rcases List.mem_append.mp he' with he' | he'
      · exact absurd hk' (h e' he')
      · exact hmax e' he' hk'

/-- Asking the layers in order gives the newest entry of all of them. -/
theorem newest_findSome? {find : S → Option E} {content : S → List E} {ss : List S}
    (h : ∀ s ∈ ss, Newest key ver (content s) k (find s))
    (hl : FirstLeads key ver k (ss.map content)) :
    Newest key ver (ss.flatMap content) k (ss.findSome? find) := by
  induction ss with
  | nil => simp [Newest]
  | cons s ss ih =>
    have hs := h s (by simp)
    have hor : (s :: ss).findSome? find = (find s).or (ss.findSome? find) := by
      cases hf : find s <;> simp [hf]
    rw [hor, List.flatMap_cons]
    by_cases hold : Holds key (content s) k
    · have hsome : find s ≠ none := fun hn => (hs.none_iff.mp hn) hold
      obtain ⟨e, he⟩ := Option.ne_none_iff_exists'.mp hsome
      rw [he] at hs ⊢
      obtain ⟨hm, hk, hmax⟩ := hs
      refine ⟨List.mem_append_left _ hm, hk, ?_⟩
      intro e' he' hk'
      rcases List.mem_append.mp he' with he' | he'
      · exact hmax e' he' hk'
      · obtain ⟨a, ha, hak, hle⟩ := hl.1 hold e' (by simpa [List.flatMap] using he') hk'
        exact Nat.le_trans hle (hmax a ha hak)
    · have hrest := ih (fun t ht => h t (by simp [ht])) (hl.2 hold)
      exact hs.append hrest fun h => absurd h hold

/-- With one entry for each version of the key, there is one newest entry. -/
theorem Newest.unique {e : E} (h : Newest key ver es k o) (he : e ∈ es) (hk : key e = k)
    (hmax : ∀ e' ∈ es, key e' = k → ver e' ≤ ver e)
    (hinj : ∀ e₁ ∈ es, ∀ e₂ ∈ es, key e₁ = k → key e₂ = k → ver e₁ = ver e₂ → e₁ = e₂) :
    o = some e := by
  cases o with
  | none => exact absurd hk (h e he)
  | some a =>
    obtain ⟨ha, hak, hamax⟩ := h
    have hver : ver a = ver e := Nat.le_antisymm (hmax a ha hak) (hamax e he hk)
    rw [hinj a ha e he hak hk hver]

/-- Only which entries there are matters, not their order. -/
theorem Newest.congr (h : Newest key ver es k o) (hmem : ∀ e, e ∈ es ↔ e ∈ es') :
    Newest key ver es' k o := by
  cases o with
  | none => exact fun e he => h e ((hmem e).mpr he)
  | some e =>
    obtain ⟨he, hk, hmax⟩ := h
    exact ⟨(hmem e).mp he, hk, fun e' he' hk' => hmax e' ((hmem e').mpr he') hk'⟩

theorem Newest.map {E' : Type*} {f : E' → E} {es : List E'} {o : Option E'}
    (h : Newest (fun e => key (f e)) (fun e => ver (f e)) es k o) :
    Newest key ver (es.map f) k (o.map f) := by
  cases o with
  | none =>
    intro e he
    obtain ⟨a, ha, rfl⟩ := List.mem_map.mp he
    exact h a ha
  | some e =>
    obtain ⟨he, hk, hmax⟩ := h
    refine ⟨List.mem_map_of_mem he, hk, ?_⟩
    intro e' he' hk'
    obtain ⟨a, ha, rfl⟩ := List.mem_map.mp he'
    exact hmax a ha hk'

/-- Entries of other keys do not matter. -/
theorem Newest.append_left (h : Newest key ver es' k o) (hes : ∀ e ∈ es, key e ≠ k) :
    Newest key ver (es ++ es') k o := by
  have hnone : Newest key ver es k none := hes
  have := hnone.append h fun ⟨e, he, hk⟩ => absurd hk (hes e he)
  rwa [Option.none_or] at this

/-- A scan that stops at the first entry of the key, where entries of one key stand from new
to old. -/
theorem newest_find? {q : E → Bool} (hkey : ∀ e ∈ es, key e = k ↔ q e = true)
    (hs : es.Pairwise fun a b => key a = k → key b = k → ver b ≤ ver a) :
    Newest key ver es k (es.find? q) := by
  induction es with
  | nil => simp [Newest]
  | cons e es ih =>
    rw [List.pairwise_cons] at hs
    have hself := hkey e List.mem_cons_self
    cases hq : q e with
    | true =>
      rw [List.find?_cons_of_pos hq]
      have hk := hself.mpr hq
      refine ⟨List.mem_cons_self, hk, ?_⟩
      intro e' he' hk'
      rcases List.mem_cons.mp he' with rfl | he'
      · exact Nat.le_refl _
      · exact hs.1 e' he' hk hk'
    | false =>
      rw [List.find?_cons_of_neg (by simp [hq])]
      have hne : ∀ e' ∈ [e], key e' ≠ k := by
        intro e' he' hk'
        rw [List.mem_singleton.mp he'] at hk'
        rw [hself.mp hk'] at hq
        cases hq
      exact (ih (fun e' he' => hkey e' (List.mem_cons_of_mem _ he')) hs.2).append_left hne

/-! ## Newer layers -/

theorem Newer.of_not_holds (h : ¬ Holds key es k) : Newer key ver es es' k :=
  fun e he _ _ hk _ => absurd ⟨e, he, hk⟩ h

theorem Newer.of_not_holds_right (h : ¬ Holds key es' k) : Newer key ver es es' k :=
  fun _ _ e' he' _ hk' => absurd ⟨e', he', hk'⟩ h

theorem Newer.mono {fs fs' : List E} (h : Newer key ver es es' k) (h₁ : ∀ e ∈ fs, e ∈ es)
    (h₂ : ∀ e ∈ fs', e ∈ es') : Newer key ver fs fs' k :=
  fun e he e' he' => h e (h₁ e he) e' (h₂ e' he')

theorem Newer.covers (h : Newer key ver es es' k) (hold : Holds key es k) :
    Covers key ver es es' k := by
  obtain ⟨e, he, hk⟩ := hold
  exact fun e' he' hk' => ⟨e, he, hk, h e he e' he' hk hk'⟩

/-- Where every layer is newer than those after it, the first one that holds the key leads. -/
theorem firstLeads_of_pairwise {ls : List (List E)}
    (h : ls.Pairwise fun a b => Newer key ver a b k) : FirstLeads key ver k ls := by
  induction ls with
  | nil => trivial
  | cons l ls ih =>
    rw [List.pairwise_cons] at h
    refine ⟨fun hold => ?_, fun _ => ih h.2⟩
    have hall : Newer key ver l ls.flatten k := by
      intro e he e' he'
      obtain ⟨l', hl', he'⟩ := List.mem_flatten.mp he'
      exact h.1 l' hl' e he e' he'
    exact hall.covers hold

section layered

variable {n : Nat} {layers layers' : Nat → List E}

omit key ver in
/-- Nothing is lost when layers shift. -/
theorem Shifted.flatMap_perm (h : Shifted n layers layers') :
    ((List.range n).flatMap layers').Perm ((List.range n).flatMap layers) := by
  rcases h with h | ⟨m, hm, hleft, hmove, hother⟩
  · exact List.Perm.flatMap_left _ fun i hi => h i (List.mem_range.mp hi)
  obtain ⟨d, rfl⟩ := Nat.exists_eq_add_of_le (Nat.succ_le_of_lt hm)
  rw [List.range_add, List.flatMap_append, List.flatMap_append]
  refine List.Perm.append ?_ (List.Perm.of_eq ?_)
  · rw [List.range_succ, List.range_succ]
    simp only [List.flatMap_append, List.flatMap_singleton, hleft, List.append_assoc]
    refine List.Perm.append (List.Perm.of_eq ?_) hmove
    apply List.flatMap_congr
    intro i hi
    have := List.mem_range.mp hi
    exact hother i (by omega) (by omega) (by omega)
  · apply List.flatMap_congr
    intro i hi
    obtain ⟨x, hx, rfl⟩ := List.mem_map.mp hi
    have := List.mem_range.mp hx
    exact hother _ (by omega) (by omega) (by omega)

omit key ver in
theorem Shifted.exists_mem (h : Shifted n layers layers') (e : E) :
    (∃ i < n, e ∈ layers' i) ↔ ∃ i < n, e ∈ layers i := by
  have := h.flatMap_perm.mem_iff (a := e)
  simpa only [List.mem_flatMap, List.mem_range] using this

theorem Layered.congr (h : Layered key ver n layers k)
    (heq : ∀ i < n, ∀ e, e ∈ layers' i → e ∈ layers i) : Layered key ver n layers' k :=
  fun i j hij hj => (h i j hij hj).mono (heq i (by omega)) (heq j hj)

theorem Layered.shifted (h : Layered key ver n layers k) (hs : Shifted n layers layers') :
    Layered key ver n layers' k := by
  rcases hs with hs | ⟨m, -, hleft, hperm, hother⟩
  · exact h.congr fun i hi e => (hs i hi).mem_iff.mp
  have hmove : ∀ e, e ∈ layers' (m + 1) → e ∈ layers m ∨ e ∈ layers (m + 1) :=
    fun e he => List.mem_append.mp (hperm.mem_iff.mp he)
  intro i j hij hj
  by_cases hi : i = m
  · subst hi
    rw [hleft]
    exact Newer.of_not_holds fun ⟨e, he, _⟩ => by cases he
  by_cases hjm : j = m
  · subst hjm
    rw [hleft]
    exact Newer.of_not_holds_right fun ⟨e, he, _⟩ => by cases he
  intro e he e' he' hk hk'
  by_cases hi' : i = m + 1
  · subst hi'
    rw [hother j hj hjm (by omega)] at he'
    rcases hmove e he with he | he
    · exact h m j (by omega) hj e he e' he' hk hk'
    · exact h (m + 1) j hij hj e he e' he' hk hk'
  · rw [hother i (by omega) hi hi'] at he
    by_cases hj' : j = m + 1
    · subst hj'
      rcases hmove e' he' with he' | he'
      · exact h i m (by omega) (by omega) e he e' he' hk hk'
      · exact h i (m + 1) hij hj e he e' he' hk hk'
    · rw [hother j hj hjm hj'] at he'
      exact h i j hij hj e he e' he' hk hk'

/-- Entries that are newer than every layer may be put into the first. -/
theorem Layered.putFirst (h : Layered key ver n layers k)
    (hnew : ∀ j, 0 < j → j < n → Newer key ver es (layers j) k)
    (hput : ∀ e ∈ layers' 0, e ∈ es ∨ e ∈ layers 0)
    (hother : ∀ i < n, i ≠ 0 → layers' i = layers i) : Layered key ver n layers' k := by
  intro i j hij hj e he e' he' hk hk'
  rw [hother j hj (by omega)] at he'
  by_cases hi : i = 0
  · subst hi
    rcases hput e he with he | he
    · exact hnew j hij hj e he e' he' hk hk'
    · exact h 0 j hij hj e he e' he' hk hk'
  · rw [hother i (by omega) hi] at he
    exact h i j hij hj e he e' he' hk hk'

theorem Layered.firstLeads (h : Layered key ver n layers k) :
    FirstLeads key ver k ((List.range n).map layers) := by
  apply firstLeads_of_pairwise
  rw [List.pairwise_map]
  refine List.pairwise_lt_range.imp_of_mem ?_
  intro i j _ hj hij
  exact h i j hij (List.mem_range.mp hj)

end layered

end

end Lib
