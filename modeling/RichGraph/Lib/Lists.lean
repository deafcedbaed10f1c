-- List facts for states that keep their parts in lists.
import Mathlib.Algebra.BigOperators.Group.List.Basic
import Mathlib.Data.List.Basic
import Mathlib.Data.List.Flatten
import Mathlib.Data.List.Sort
import Mathlib.Data.List.TakeWhile
import Mathlib.Tactic.Ring

namespace Lib

variable {α : Type*}

/-- A predicate that holds less often, and fails for a member where the other holds. -/
theorem countP_lt_countP {α : Type*} {p q : α → Bool} {l : List α} {a : α} (ha : a ∈ l)
    (hp : p a = false) (hq : q a = true) (hpq : ∀ x, p x = true → q x = true) :
    l.countP p < l.countP q := by
  induction l with
  | nil => cases ha
  | cons x l ih =>
    have hle : l.countP p ≤ l.countP q := List.countP_mono_left fun y _ => hpq y
    rcases List.mem_cons.mp ha with rfl | ha
    · rw [List.countP_cons_of_neg (by simp [hp]), List.countP_cons_of_pos hq]
      omega
    · have := ih ha
      rw [List.countP_cons, List.countP_cons]
      by_cases hx : p x = true
      · simp only [hx, hpq x hx, if_true]
        omega
      · simp only [hx, Bool.false_eq_true, if_false]
        omega

/-- With different labels, a part of a list is found again by its labels. -/
theorem filter_contains_of_sublist {α β : Type*} [BEq β] [LawfulBEq β] {f : α → β} {l' l : List α}
    (hsub : l'.Sublist l) (hnd : (l.map f).Nodup) :
    l.filter (fun a => (l'.map f).contains (f a)) = l' := by
  induction hsub with
  | slnil => rfl
  | @cons l₁ l₂ a hsub ih =>
    rw [List.map_cons, List.nodup_cons] at hnd
    have hnot : (l₁.map f).contains (f a) = false := by
      rw [Bool.eq_false_iff, ne_eq, List.contains_iff_mem]
      exact fun h => hnd.1 ((hsub.map f).mem h)
    rw [List.filter_cons, hnot, ih hnd.2]
    rfl
  | @cons_cons l₁ l₂ a hsub ih =>
    rw [List.map_cons, List.nodup_cons] at hnd
    have htail : l₂.filter (fun x => ((a :: l₁).map f).contains (f x)) = l₁ := by
      refine Eq.trans (List.filter_congr ?_) (ih hnd.2)
      intro x hx
      have hne : f x ≠ f a := fun h => hnd.1 (h ▸ List.mem_map_of_mem hx)
      rw [List.map_cons, List.contains_cons, beq_eq_false_iff_ne.mpr hne, Bool.false_or]
    rw [List.filter_cons, htail]
    simp

/-- A list is the part with the given labels and the rest. -/
theorem perm_filter_not_contains_append {α β : Type*} [BEq β] [LawfulBEq β] {f : α → β}
    {l' l : List α} (hsub : l'.Sublist l) (hnd : (l.map f).Nodup) :
    l.Perm (l.filter (fun a => !(l'.map f).contains (f a)) ++ l') := by
  have h := List.filter_append_perm (fun a => !(l'.map f).contains (f a)) l
  simp only [Bool.not_not] at h
  rw [filter_contains_of_sublist hsub hnd] at h
  exact h.symm

/-- With keys that do not repeat, a key selects one entry. -/
theorem filter_key_eq_singleton {α κ : Type*} [DecidableEq κ] {key : α → κ} {l : List α}
    (hnd : (l.map key).Nodup) {a : α} (ha : a ∈ l) : l.filter (fun b => key b == key a) = [a] := by
  induction l with
  | nil => cases ha
  | cons b l ih =>
    rw [List.map_cons, List.nodup_cons] at hnd
    rcases List.mem_cons.mp ha with rfl | ha
    · rw [List.filter_cons_of_pos (by simp), List.filter_eq_nil_iff.mpr]
      intro c hc
      simp only [beq_iff_eq]
      exact fun he => hnd.1 (he ▸ List.mem_map_of_mem hc)
    · have hne : key b ≠ key a := fun he => hnd.1 (he ▸ List.mem_map_of_mem ha)
      rw [List.filter_cons_of_neg (by simpa using hne), ih hnd.2 ha]

theorem findIdx?_congr {p q : α → Bool} {xs : List α} (h : ∀ x ∈ xs, p x = q x) :
    xs.findIdx? p = xs.findIdx? q := by
  induction xs with
  | nil => rfl
  | cons a xs ih =>
    rw [List.findIdx?_cons, List.findIdx?_cons, h a List.mem_cons_self,
      ih fun x hx => h x (List.mem_cons_of_mem _ hx)]

/-- Of a list that is put together key by key, the entries of one key are what was put in for
it. -/
theorem filter_flatMap_of_key {α κ : Type*} [DecidableEq κ] {key : α → κ} {f : κ → List α}
    {vs : List κ} (hnd : vs.Nodup) (hkey : ∀ v, ∀ a ∈ f v, key a = v) (v : κ) :
    (vs.flatMap f).filter (fun a => key a = v) = if v ∈ vs then f v else [] := by
  induction vs with
  | nil => simp
  | cons w vs ih =>
    obtain ⟨hw, hnd⟩ := List.nodup_cons.mp hnd
    rw [List.flatMap_cons, List.filter_append, ih hnd]
    by_cases hv : v = w
    · subst hv
      rw [List.filter_eq_self.mpr (by simpa using hkey v), if_neg hw, if_pos List.mem_cons_self,
        List.append_nil]
    · rw [List.filter_eq_nil_iff.mpr, List.nil_append]
      · simp [hv]
      · intro a ha
        simpa [hkey w a ha] using fun h => hv h.symm

/-- The entries of a list, counted key by key. -/
theorem sum_length_filter {α κ : Type*} [DecidableEq κ] {key : α → κ} {l : List α} {ks : List κ}
    (hks : ks.Nodup) (hkey : ∀ a ∈ l, key a ∈ ks) :
    (ks.map fun k => (l.filter (key · = k)).length).sum = l.length := by
  induction ks generalizing l with
  | nil =>
    cases l with
    | nil => rfl
    | cons a l => cases hkey a List.mem_cons_self
  | cons k ks ih =>
    obtain ⟨hk, hks⟩ := List.nodup_cons.mp hks
    have hrest : ∀ a ∈ l.filter (fun a => !decide (key a = k)), key a ∈ ks := by
      intro a ha
      obtain ⟨ha, hne⟩ := List.mem_filter.mp ha
      exact (List.mem_cons.mp (hkey a ha)).resolve_left (by simpa using hne)
    have hsame : ∀ k' ∈ ks, (l.filter (key · = k')).length =
        ((l.filter fun a => !decide (key a = k)).filter (key · = k')).length := by
      intro k' hk'
      rw [List.filter_filter]
      congr 1
      apply List.filter_congr
      intro a _
      have hne : k' ≠ k := fun h => hk (h ▸ hk')
      by_cases ha : key a = k' <;> simp [ha, hne]
    rw [List.map_cons, List.sum_cons, List.map_congr_left hsame, ih hks hrest,
      ← List.length_eq_length_filter_add]

theorem findSome?_filter_of_none {α β : Type*} {p : α → Bool} {f : α → Option β} {l : List α}
    (h : ∀ x ∈ l, p x = false → f x = none) : (l.filter p).findSome? f = l.findSome? f := by
  induction l with
  | nil => rfl
  | cons x l ih =>
    have ih := ih fun y hy => h y (List.mem_cons_of_mem _ hy)
    cases hp : p x with
    | true => rw [List.filter_cons_of_pos hp, List.findSome?_cons, List.findSome?_cons, ih]
    | false =>
      rw [List.filter_cons_of_neg (by simp [hp]), ih, List.findSome?_cons,
        h x List.mem_cons_self hp]

/-- A list can be sorted so that a given entry comes before all that are not before it. -/
theorem exists_sorted_first {r : α → α → Prop} [DecidableRel r] [Std.Total r] [IsTrans α r]
    {y : α} {l : List α} (hy : y ∈ l) :
    ∃ pre post, (pre ++ y :: post).Perm l ∧ (pre ++ y :: post).Pairwise r ∧ ∀ z ∈ pre, ¬ r y z := by
  classical
  have hperm := (List.perm_insertionSort r (y :: l.erase y)).trans (List.perm_cons_erase hy).symm
  have hsorted := List.pairwise_insertionSort r (y :: l.erase y)
  rw [List.insertionSort_cons_eq_take_drop] at hperm hsorted
  refine ⟨_, _, hperm, hsorted, ?_⟩
  · intro z hz
    simpa using List.mem_takeWhile_imp hz

theorem mem_of_lookup {α β : Type*} [BEq α] [LawfulBEq α] {l : List (α × β)} {a : α} {b : β}
    (h : l.lookup a = some b) : (a, b) ∈ l := by
  induction l with
  | nil => cases h
  | cons p l ih =>
    obtain ⟨a', b'⟩ := p
    by_cases ha : a = a'
    · subst ha
      rw [List.lookup_cons_self, Option.some.injEq] at h
      subst h
      exact List.mem_cons_self
    · rw [List.lookup_cons, beq_false_of_ne ha] at h
      exact List.mem_cons_of_mem _ (ih h)

/-- A list is cut at the same place by tests that agree on its entries. -/
theorem takeWhile_dropWhile_congr {α : Type*} {p q : α → Bool} {xs : List α}
    (h : ∀ x ∈ xs, p x = q x) :
    xs.takeWhile p = xs.takeWhile q ∧ xs.dropWhile p = xs.dropWhile q := by
  induction xs with
  | nil => exact ⟨rfl, rfl⟩
  | cons x xs ih =>
    obtain ⟨hx, hxs⟩ := List.forall_mem_cons.mp h
    simp only [List.takeWhile_cons, List.dropWhile_cons, hx, ih hxs, and_self]

/-- In a list of blocks of one length a block is found by its number. -/
theorem take_drop_flatMap {α β : Type*} {f : α → List β} {len : Nat} {xs : List α}
    (hf : ∀ x ∈ xs, (f x).length = len) {n : Nat} {x : α} (hx : xs[n]? = some x) :
    ((xs.flatMap f).drop (n * len)).take len = f x := by
  induction xs generalizing n with
  | nil => cases hx
  | cons y ys ih =>
    obtain ⟨hy, hys⟩ := List.forall_mem_cons.mp hf
    rw [List.flatMap_cons]
    cases n with
    | zero =>
      cases hx
      rw [Nat.zero_mul, List.drop_zero, ← hy, List.take_left]
    | succ n =>
      rw [Nat.succ_mul, Nat.add_comm, ← List.drop_drop]
      nth_rewrite 3 [← hy]
      rw [List.drop_left]
      exact ih hys hx

/-- Entries that give nothing may be left out. -/
theorem flatMap_filter_of_nil {α β : Type*} {p : α → Bool} {g : α → List β} {xs : List α}
    (h : ∀ x ∈ xs, p x = false → g x = []) : (xs.filter p).flatMap g = xs.flatMap g := by
  induction xs with
  | nil => rfl
  | cons x xs ih =>
    obtain ⟨hx, hxs⟩ := List.forall_mem_cons.mp h
    rw [List.flatMap_cons, ← ih hxs]
    cases hp : p x with
    | true => rw [List.filter_cons_of_pos hp, List.flatMap_cons]
    | false => rw [List.filter_cons_of_neg (by simp [hp]), hx hp, List.nil_append]

/-- Leaving entries out leaves nothing out just when those entries give nothing. -/
theorem flatMap_sublist_filter_iff {α β : Type*} {p : α → Bool} {g : α → List β} {xs : List α} :
    (xs.flatMap g).Sublist ((xs.filter p).flatMap g) ↔ ∀ x ∈ xs, p x = false → g x = [] := by
  constructor
  · intro h
    induction xs with
    | nil => simp
    | cons x xs ih =>
      cases hx : p x with
      | true =>
        rw [List.filter_cons_of_pos hx, List.flatMap_cons, List.flatMap_cons,
          List.append_sublist_append_left] at h
        refine List.forall_mem_cons.mpr ⟨fun hx' => ?_, ih h⟩
        rw [hx] at hx'
        cases hx'
      | false =>
        rw [List.filter_cons_of_neg (by simp [hx]), List.flatMap_cons] at h
        have hlen := h.length_le
        have hle := (List.filter_sublist (p := p) (l := xs)).flatMap g |>.length_le
        rw [List.length_append] at hlen
        have hnil : g x = [] := List.eq_nil_of_length_eq_zero (by omega)
        rw [hnil, List.nil_append] at h
        exact List.forall_mem_cons.mpr ⟨fun _ => hnil, ih h⟩
  · intro h
    rw [flatMap_filter_of_nil h]

theorem exists_mem_of_mapM {α β : Type*} {f : α → Option β} {xs : List α} {ys : List β}
    (h : xs.mapM f = some ys) {x : α} (hx : x ∈ xs) : ∃ y ∈ ys, f x = some y := by
  induction xs generalizing ys with
  | nil => cases hx
  | cons x' xs ih =>
    simp only [List.mapM_cons, Option.bind_eq_bind, Option.bind_eq_some_iff, Option.pure_def,
      Option.some.injEq] at h
    obtain ⟨b, hb, bs, hbs, rfl⟩ := h
    rcases List.mem_cons.mp hx with rfl | hx
    · exact ⟨b, List.mem_cons_self, hb⟩
    · obtain ⟨y, hy, hf⟩ := ih hbs hx
      exact ⟨y, List.mem_cons_of_mem _ hy, hf⟩

/-! ### Loops that stop at an error -/

section

variable {β ε : Type*} {f : α → Except ε β} {xs : List α}

/-- A loop that ends well has a result for every entry. -/
theorem mapM_ok {ys : List β} (h : xs.mapM f = .ok ys) :
    (∀ x ∈ xs, ∃ y ∈ ys, f x = .ok y) ∧ ∀ y ∈ ys, ∃ x ∈ xs, f x = .ok y := by
  induction xs generalizing ys with
  | nil =>
    cases h
    simp
  | cons x xs ih =>
    rw [List.mapM_cons] at h
    cases hx : f x with
    | error _ =>
      rw [hx] at h
      cases h
    | ok y =>
      cases hxs : xs.mapM f with
      | error _ =>
        rw [hx, hxs] at h
        cases h
      | ok rest =>
        rw [hx, hxs] at h
        cases h
        obtain ⟨hall, hvalues⟩ := ih hxs
        constructor
        · intro x' hx'
          rcases List.mem_cons.mp hx' with rfl | hx'
          · exact ⟨y, List.mem_cons_self, hx⟩
          · obtain ⟨y', hy', hf⟩ := hall x' hx'
            exact ⟨y', List.mem_cons_of_mem _ hy', hf⟩
        · intro y' hy'
          rcases List.mem_cons.mp hy' with rfl | hy'
          · exact ⟨x, List.mem_cons_self, hx⟩
          · obtain ⟨x', hx', hf⟩ := hvalues y' hy'
            exact ⟨x', List.mem_cons_of_mem _ hx', hf⟩

theorem mapM_eq_ok_map {g : α → β} (h : ∀ x ∈ xs, f x = .ok (g x)) :
    xs.mapM f = .ok (xs.map g) := by
  induction xs with
  | nil => rfl
  | cons x xs ih =>
    obtain ⟨hx, hxs⟩ := List.forall_mem_cons.mp h
    rw [List.mapM_cons, hx, ih hxs]
    rfl

end

/-- The largest value of a list is not less than any, nor than the one it starts from. -/
theorem le_foldl_max (g : α → Nat) (xs : List α) (most : Nat) :
    most ≤ xs.foldl (fun most x => max most (g x)) most ∧
      ∀ x ∈ xs, g x ≤ xs.foldl (fun most x => max most (g x)) most := by
  induction xs generalizing most with
  | nil => exact ⟨Nat.le_refl _, fun _ h => nomatch h⟩
  | cons a xs ih =>
    obtain ⟨hmost, hall⟩ := ih (max most (g a))
    rw [List.foldl_cons]
    refine ⟨(Nat.le_max_left _ _).trans hmost, fun x hx => ?_⟩
    rcases List.mem_cons.mp hx with rfl | hx
    · exact (Nat.le_max_right _ _).trans hmost
    · exact hall x hx

theorem foldl_max_attained (g : α → Nat) (xs : List α) (most : Nat) :
    xs.foldl (fun most x => max most (g x)) most = most ∨
      ∃ x ∈ xs, g x = xs.foldl (fun most x => max most (g x)) most := by
  induction xs generalizing most with
  | nil => exact Or.inl rfl
  | cons a xs ih =>
    rw [List.foldl_cons]
    rcases ih (max most (g a)) with heq | ⟨x, hx, heq⟩
    · rcases Nat.le_total most (g a) with hmax | hmax
      · exact Or.inr ⟨a, List.mem_cons_self, (heq.trans (Nat.max_eq_right hmax)).symm⟩
      · exact Or.inl (heq.trans (Nat.max_eq_left hmax))
    · exact Or.inr ⟨x, List.mem_cons_of_mem _ hx, heq⟩

theorem foldl_min_le (g : α → Nat) (xs : List α) (least : Nat) :
    xs.foldl (fun least x => min least (g x)) least ≤ least ∧
      ∀ x ∈ xs, xs.foldl (fun least x => min least (g x)) least ≤ g x := by
  induction xs generalizing least with
  | nil => exact ⟨Nat.le_refl _, fun _ h => nomatch h⟩
  | cons a xs ih =>
    obtain ⟨hleast, hall⟩ := ih (min least (g a))
    rw [List.foldl_cons]
    refine ⟨hleast.trans (Nat.min_le_left _ _), fun x hx => ?_⟩
    rcases List.mem_cons.mp hx with rfl | hx
    · exact hleast.trans (Nat.min_le_right _ _)
    · exact hall x hx

end Lib
