-- The newest version in a list: a scan for the greatest commit, where of two
-- entries with one commit the later one wins. Sorting by key and commit does not
-- change what the scan finds, and neither does leaving out all but the last of
-- neighbours that are one version.
import Mathlib.Data.List.Sort
import Mathlib.Data.List.Induction

namespace Lib

section

variable {α : Type*} (seen : α → Prop) [DecidablePred seen] (commit : α → Nat)

/-- One turn of the scan. -/
def pickNewest (best : Option α) (x : α) : Option α :=
  if seen x ∧ ∀ b ∈ best, commit b ≤ commit x then some x else best

def newestOf (xs : List α) : Option α := xs.foldl (pickNewest seen commit) none

/-- What the scan is for: the last entry of those with the greatest commit. -/
def IsNewest (xs : List α) : Option α → Prop
  | none => ∀ x ∈ xs, ¬ seen x
  | some x => ∃ before after, xs = before ++ x :: after ∧ seen x ∧
      (∀ y ∈ before, seen y → commit y ≤ commit x) ∧ ∀ y ∈ after, seen y → commit y < commit x

variable {seen commit} {xs ys : List α} {best : Option α} {a b : α}

theorem pickNewest_of_not (h : ¬ seen a) : pickNewest seen commit best a = best :=
  if_neg fun hpick => h hpick.1

theorem foldl_pickNewest_of_not (h : ∀ x ∈ xs, ¬ seen x) :
    xs.foldl (pickNewest seen commit) best = best := by
  induction xs generalizing best with
  | nil => rfl
  | cons x xs ih =>
    obtain ⟨hx, hxs⟩ := List.forall_mem_cons.mp h
    rw [List.foldl_cons, pickNewest_of_not hx, ih hxs]

theorem isNewest_newestOf (xs : List α) : IsNewest seen commit xs (newestOf seen commit xs) := by
  unfold newestOf
  induction xs using List.reverseRecOn with
  | nil => exact fun _ h => nomatch h
  | append_singleton xs x ih =>
    rw [List.foldl_append, List.foldl_cons, List.foldl_nil]
    by_cases hx : seen x ∧ ∀ b ∈ xs.foldl (pickNewest seen commit) none, commit b ≤ commit x
    · rw [pickNewest, if_pos hx]
      refine ⟨xs, [], rfl, hx.1, fun y hy hseen => ?_, fun _ h => nomatch h⟩
      cases hbest : xs.foldl (pickNewest seen commit) none with
      | none =>
        rw [hbest] at ih
        exact absurd hseen (ih y hy)
      | some b =>
        rw [hbest] at ih hx
        obtain ⟨before, after, rfl, -, hbefore, hafter⟩ := ih
        have hle := hx.2 b rfl
        rcases List.mem_append.mp hy with hy | hy
        · exact (hbefore y hy hseen).trans hle
        · rcases List.mem_cons.mp hy with rfl | hy
          · exact hle
          · exact (hafter y hy hseen).le.trans hle
    · rw [pickNewest, if_neg hx]
      cases hbest : xs.foldl (pickNewest seen commit) none with
      | none =>
        rw [hbest] at ih hx
        intro y hy hseen
        rcases List.mem_append.mp hy with hy | hy
        · exact ih y hy hseen
        · rw [List.mem_singleton.mp hy] at hseen
          exact hx ⟨hseen, fun _ h => nomatch h⟩
      | some b =>
        rw [hbest] at ih hx
        obtain ⟨before, after, rfl, hb, hbefore, hafter⟩ := ih
        refine ⟨before, after ++ [x], by simp, hb, hbefore, fun y hy hseen => ?_⟩
        rcases List.mem_append.mp hy with hy | hy
        · exact hafter y hy hseen
        · rw [List.mem_singleton.mp hy] at hseen ⊢
          refine Nat.not_le.mp fun hle => hx ⟨hseen, fun b' hb' => ?_⟩
          cases hb'
          exact hle

theorem foldl_pickNewest_of_lt (h : ∀ x ∈ xs, seen x → commit x < commit a) :
    xs.foldl (pickNewest seen commit) (some a) = some a := by
  induction xs with
  | nil => rfl
  | cons x xs ih =>
    obtain ⟨hx, hxs⟩ := List.forall_mem_cons.mp h
    have hskip : pickNewest seen commit (some a) x = some a :=
      if_neg fun hpick => absurd (hpick.2 a rfl) (Nat.not_le.mpr (hx hpick.1))
    rw [List.foldl_cons, hskip, ih hxs]

/-- There is one newest entry, and the scan finds it. -/
theorem newestOf_eq_iff : newestOf seen commit xs = best ↔ IsNewest seen commit xs best := by
  constructor
  · rintro rfl
    exact isNewest_newestOf xs
  · intro h
    cases best with
    | none => exact foldl_pickNewest_of_not h
    | some x =>
      obtain ⟨before, after, rfl, hx, hbefore, hafter⟩ := h
      have htake : pickNewest seen commit (newestOf seen commit before) x = some x := by
        refine if_pos ⟨hx, fun b hb => ?_⟩
        have hnewest : IsNewest seen commit before (newestOf seen commit before) :=
          isNewest_newestOf before
        rw [hb] at hnewest
        obtain ⟨front, back, rfl, hseen, -, -⟩ := hnewest
        exact hbefore b (by simp) hseen
      unfold newestOf at htake ⊢
      rw [List.foldl_append, List.foldl_cons, htake, foldl_pickNewest_of_lt hafter]

/-- A scan of images finds the image of what a scan finds. -/
theorem newestOf_map {β : Type*} (g : β → α) (ys : List β) :
    newestOf seen commit (ys.map g) =
      (newestOf (fun y => seen (g y)) (fun y => commit (g y)) ys).map g := by
  have hturn : ∀ (best : Option β) (y : β), pickNewest seen commit (best.map g) (g y) =
      (pickNewest (fun y => seen (g y)) (fun y => commit (g y)) best y).map g := by
    intro best y
    have hall : (∀ a ∈ best.map g, commit a ≤ commit (g y)) ↔
        ∀ b ∈ best, commit (g b) ≤ commit (g y) := by
      cases best <;> simp
    unfold pickNewest
    by_cases hpick : seen (g y) ∧ ∀ b ∈ best, commit (g b) ≤ commit (g y)
    · rw [if_pos hpick, if_pos ⟨hpick.1, hall.mpr hpick.2⟩]
      rfl
    · rw [if_neg hpick, if_neg fun h => hpick ⟨h.1, hall.mp h.2⟩]
  have hfold : ∀ best : Option β, (ys.map g).foldl (pickNewest seen commit) (best.map g) =
      (ys.foldl (pickNewest (fun y => seen (g y)) (fun y => commit (g y))) best).map g := by
    induction ys with
    | nil => exact fun _ => rfl
    | cons y ys ih =>
      intro best
      rw [List.map_cons, List.foldl_cons, List.foldl_cons, hturn, ih]
  exact hfold none

/-- Where the seen entries stand together by commit, the last of them is found. -/
theorem newestOf_split {low mid high : List α} (hlow : ∀ x ∈ low, ¬ seen x)
    (hmid : ∀ x ∈ mid, seen x) (hsorted : mid.Pairwise fun x y => commit x ≤ commit y)
    (hhigh : ∀ x ∈ high, ¬ seen x) :
    newestOf seen commit (low ++ (mid ++ high)) = mid.getLast? := by
  unfold newestOf
  rw [List.foldl_append, List.foldl_append, foldl_pickNewest_of_not hlow,
    foldl_pickNewest_of_not hhigh]
  induction mid using List.reverseRecOn with
  | nil => rfl
  | append_singleton mid x ih =>
    obtain ⟨hsorted, -, hlast⟩ := List.pairwise_append.mp hsorted
    rw [List.foldl_append, ih (fun y hy => hmid y (List.mem_append_left _ hy)) hsorted,
      List.foldl_cons, List.foldl_nil, List.getLast?_concat]
    refine if_pos ⟨hmid x (by simp), fun b hb => ?_⟩
    exact hlast b (List.mem_of_getLast? hb) x List.mem_cons_self

/-- Where later entries are newer, the scan finds the last entry that is seen. -/
theorem newestOf_eq_find?_reverse
    (h : xs.Pairwise fun x y => seen x → seen y → commit x ≤ commit y) :
    newestOf seen commit xs = xs.reverse.find? fun x => decide (seen x) := by
  induction xs using List.reverseRecOn with
  | nil => rfl
  | append_singleton xs x ih =>
    obtain ⟨hxs, -, hlast⟩ := List.pairwise_append.mp h
    rw [List.reverse_append, List.reverse_singleton, List.singleton_append]
    by_cases hx : seen x
    · rw [List.find?_cons_of_pos (by simpa using hx)]
      refine newestOf_eq_iff.mpr ⟨xs, [], rfl, hx, fun y hy hseen => ?_, fun _ hy => nomatch hy⟩
      exact hlast y hy x List.mem_cons_self hseen hx
    · rw [List.find?_cons_of_neg (by simpa using hx), ← ih hxs]
      unfold newestOf
      rw [List.foldl_append, List.foldl_cons, List.foldl_nil, pickNewest_of_not hx]

/-! ## Sorting -/

/-- Two turns can change places, unless they are for one version. -/
theorem pickNewest_comm (h : seen a → seen b → commit b < commit a) :
    pickNewest seen commit (pickNewest seen commit best b) a =
      pickNewest seen commit (pickNewest seen commit best a) b := by
  by_cases ha : seen a
  · by_cases hb : seen b
    · have hlt := h ha hb
      have hskip : pickNewest seen commit (some a) b = some a :=
        if_neg fun hpick => absurd (hpick.2 a rfl) (Nat.not_le.mpr hlt)
      by_cases hbest : ∀ x ∈ best, commit x ≤ commit a
      · have htake : pickNewest seen commit best a = some a := if_pos ⟨ha, hbest⟩
        rw [htake, hskip]
        refine if_pos ⟨ha, fun x hx => ?_⟩
        unfold pickNewest at hx
        split at hx
        · cases hx
          exact hlt.le
        · exact hbest x hx
      · have hno : ¬ ∀ x ∈ best, commit x ≤ commit b :=
          fun hle => hbest fun x hx => (hle x hx).trans hlt.le
        have hskipa : pickNewest seen commit best a = best := if_neg fun hpick => hbest hpick.2
        have hskipb : pickNewest seen commit best b = best := if_neg fun hpick => hno hpick.2
        rw [hskipa, hskipb, hskipa]
    · rw [pickNewest_of_not hb, pickNewest_of_not hb]
  · rw [pickNewest_of_not ha, pickNewest_of_not ha]

variable {le : α → α → Prop} [DecidableRel le]

theorem foldl_pickNewest_orderedInsert (h : ∀ b, ¬ le a b → seen a → seen b → commit b < commit a) :
    (xs.orderedInsert le a).foldl (pickNewest seen commit) best =
      (a :: xs).foldl (pickNewest seen commit) best := by
  induction xs generalizing best with
  | nil => rfl
  | cons b xs ih =>
    rw [List.orderedInsert_cons]
    split
    · rfl
    · rename_i hle
      rw [List.foldl_cons, ih, List.foldl_cons, List.foldl_cons, List.foldl_cons,
        pickNewest_comm (h b hle)]

/-- A stable sort by key and commit keeps what the scan finds. -/
theorem newestOf_insertionSort (h : ∀ a b, ¬ le a b → seen a → seen b → commit b < commit a) :
    newestOf seen commit (xs.insertionSort le) = newestOf seen commit xs := by
  unfold newestOf
  have hfold : ∀ best, (xs.insertionSort le).foldl (pickNewest seen commit) best =
      xs.foldl (pickNewest seen commit) best := by
    induction xs with
    | nil => exact fun _ => rfl
    | cons a xs ih =>
      intro best
      rw [List.insertionSort_cons, foldl_pickNewest_orderedInsert (h a), List.foldl_cons,
        List.foldl_cons, ih]
  exact hfold none

end

/-! ## One of each version -/

section

variable {α : Type*} (same : α → α → Prop) [DecidableRel same]

/-- Of neighbours that are the same, the last stays. -/
def keepLast : List α → List α
  | [] => []
  | [x] => [x]
  | x :: y :: xs => if same x y then keepLast (y :: xs) else x :: keepLast (y :: xs)

variable {same} {xs : List α}

theorem keepLast_sublist (xs : List α) : (keepLast same xs).Sublist xs := by
  fun_induction keepLast same xs with
  | case1 => exact List.Sublist.refl _
  | case2 x => exact List.Sublist.refl _
  | case3 x y xs hsame ih => exact ih.trans (List.sublist_cons_self _ _)
  | case4 x y xs hne ih => exact ih.cons_cons _

theorem keepLast_ne_nil (h : xs ≠ []) : keepLast same xs ≠ [] := by
  fun_induction keepLast same xs with
  | case1 => exact h
  | case2 x => simp
  | case3 x y xs hsame ih => exact ih (by simp)
  | case4 x y xs hne ih => simp

/-- Of a sorted list no two are left that are the same. -/
theorem pairwise_keepLast {le lt : α → α → Prop} (hlt : ∀ {x y}, le x y → ¬ same x y → lt x y)
    (htrans : ∀ {x y z}, lt x y → le y z → lt x z) (h : xs.Pairwise le) :
    (keepLast same xs).Pairwise lt := by
  fun_induction keepLast same xs with
  | case1 => exact List.Pairwise.nil
  | case2 x => exact List.pairwise_singleton _ _
  | case3 x y xs hsame ih => exact ih h.of_cons
  | case4 x y xs hne ih =>
    rw [List.pairwise_cons] at h ⊢
    refine ⟨fun z hz => ?_, ih h.2⟩
    have hfirst : lt x y := hlt (h.1 y List.mem_cons_self) hne
    rcases List.mem_cons.mp ((keepLast_sublist _).subset hz) with rfl | hz
    · exact hfirst
    · exact htrans hfirst ((List.pairwise_cons.mp h.2).1 z hz)

/-- What the scan finds does not change. -/
theorem newestOf_keepLast {seen : α → Prop} [DecidablePred seen] {commit : α → Nat}
    (h : ∀ x y, same x y → seen x → seen y ∧ commit x ≤ commit y) :
    newestOf seen commit (keepLast same xs) = newestOf seen commit xs := by
  have hskip : ∀ {best : Option α} {x y : α}, same x y →
      pickNewest seen commit (pickNewest seen commit best x) y = pickNewest seen commit best y := by
    intro best x y hsame
    by_cases hx : seen x ∧ ∀ b ∈ best, commit b ≤ commit x
    · obtain ⟨hy, hle⟩ := h x y hsame hx.1
      have hfirst : pickNewest seen commit best x = some x := if_pos hx
      have hsecond : pickNewest seen commit (some x) y = some y := by
        refine if_pos ⟨hy, fun b hb => ?_⟩
        cases hb
        exact hle
      have hdirect : pickNewest seen commit best y = some y :=
        if_pos ⟨hy, fun b hb => (hx.2 b hb).trans hle⟩
      rw [hfirst, hsecond, hdirect]
    · have hfirst : pickNewest seen commit best x = best := if_neg hx
      rw [hfirst]
  have hfold : ∀ best, (keepLast same xs).foldl (pickNewest seen commit) best =
      xs.foldl (pickNewest seen commit) best := by
    fun_induction keepLast same xs with
    | case1 => exact fun _ => rfl
    | case2 x => exact fun _ => rfl
    | case3 x y xs hsame ih =>
      intro best
      rw [ih, List.foldl_cons, List.foldl_cons, List.foldl_cons, hskip hsame]
    | case4 x y xs hne ih =>
      intro best
      rw [List.foldl_cons, List.foldl_cons, ih]
  exact hfold none

end

end Lib
