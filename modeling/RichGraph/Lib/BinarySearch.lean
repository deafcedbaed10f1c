-- The two binary searches of an ordered list: for an equal key, and for the
-- first entry that meets a condition. The fuel is the width of the range.
import RichGraph.Lib.Lists
import Mathlib.Data.List.Find
import Mathlib.Data.List.TakeWhile
import Mathlib.Order.Lattice

namespace Lib

section exact

variable {α : Type*} [LinearOrder α]

/-- The loop over `[start, stop)` that looks for `key`. -/
def exactSearch (keys : List α) (key : α) : Nat → Nat → Nat → Option Nat
  | 0, _, _ => none
  | fuel + 1, start, stop =>
    if start < stop then
      let mid := start + (stop - 1 - start) / 2
      match keys[mid]? with
      | none => none
      | some k =>
        if k = key then some mid
        else if k < key then exactSearch keys key fuel (mid + 1) stop
        else exactSearch keys key fuel start mid
    else none

theorem getElem?_lt_of_pairwise {keys : List α} (h : keys.Pairwise (· < ·)) {i j : Nat} {a b : α}
    (hi : keys[i]? = some a) (hj : keys[j]? = some b) (hij : i < j) : a < b := by
  obtain ⟨hi', rfl⟩ := List.getElem?_eq_some_iff.mp hi
  obtain ⟨hj', rfl⟩ := List.getElem?_eq_some_iff.mp hj
  exact List.pairwise_iff_getElem.mp h i j hi' hj' hij

theorem exactSearch_sound {keys : List α} {key : α} (fuel start stop i : Nat)
    (h : exactSearch keys key fuel start stop = some i) : keys[i]? = some key := by
  induction fuel generalizing start stop with
  | zero => simp [exactSearch] at h
  | succ fuel ih =>
    simp only [exactSearch] at h
    split at h
    · split at h
      · cases h
      · rename_i k hk
        split at h
        · rename_i hkey
          cases h
          rw [hk, hkey]
        · split at h
          · exact ih _ _ h
          · exact ih _ _ h
    · cases h

theorem exactSearch_complete {keys : List α} {key : α} (hs : keys.Pairwise (· < ·))
    (fuel start stop i : Nat) (hi : keys[i]? = some key) (h1 : start ≤ i) (h2 : i < stop)
    (h3 : stop ≤ keys.length) (hfuel : stop - start ≤ fuel) :
    exactSearch keys key fuel start stop = some i := by
  induction fuel generalizing start stop with
  | zero => omega
  | succ fuel ih =>
    simp only [exactSearch]
    rw [if_pos (by omega)]
    have hmid : start + (stop - 1 - start) / 2 < keys.length := by omega
    rw [List.getElem?_eq_getElem hmid]
    have hk := List.getElem?_eq_getElem hmid
    simp only
    generalize hm : start + (stop - 1 - start) / 2 = mid at *
    rcases Nat.lt_trichotomy mid i with hlt | heq | hgt
    · have := getElem?_lt_of_pairwise hs hk hi hlt
      rw [if_neg this.ne, if_pos this]
      exact ih _ _ (by omega) h2 h3 (by omega)
    · subst heq
      rw [hk] at hi
      rw [if_pos (Option.some.inj hi)]
    · have := getElem?_lt_of_pairwise hs hi hk hgt
      rw [if_neg this.ne', if_neg this.not_gt]
      exact ih _ _ h1 hgt (by omega) (by omega)

/-- On increasing keys the search finds the position of the key, and only that. -/
theorem exactSearch_eq_some_iff {keys : List α} (hs : keys.Pairwise (· < ·)) (key : α) (i : Nat) :
    exactSearch keys key keys.length 0 keys.length = some i ↔ keys[i]? = some key := by
  constructor
  · exact exactSearch_sound _ _ _ _
  · intro hi
    have hlt := (List.getElem?_eq_some_iff.mp hi).1
    exact exactSearch_complete hs _ _ _ i hi (Nat.zero_le _) hlt (Nat.le_refl _) (by omega)

end exact

section lower

variable {α : Type*}

/-- The loop over `[left, right)` that looks for the first entry with `p`. -/
def lowerBound (p : α → Bool) (xs : List α) : Nat → Nat → Nat → Nat
  | 0, left, _ => left
  | fuel + 1, left, right =>
    if left < right then
      let mid := left + (right - left) / 2
      if (xs[mid]?).any p then lowerBound p xs fuel left mid
      else lowerBound p xs fuel (mid + 1) right
    else left

theorem lowerBound_range {p : α → Bool} {xs : List α} (fuel left right : Nat) (h : left ≤ right) :
    left ≤ lowerBound p xs fuel left right ∧ lowerBound p xs fuel left right ≤ right := by
  induction fuel generalizing left right with
  | zero => exact ⟨Nat.le_refl _, h⟩
  | succ fuel ih =>
    simp only [lowerBound]
    split
    · split
      · have := ih left (left + (right - left) / 2) (by omega)
        omega
      · have := ih (left + (right - left) / 2 + 1) right (by omega)
        omega
    · exact ⟨Nat.le_refl _, h⟩

/-- When the entries without `p` stand first, the loop ends at the first entry with `p`. -/
theorem lowerBound_eq {p : α → Bool} {as bs : List α} (ha : ∀ x ∈ as, p x = false)
    (hb : ∀ x ∈ bs, p x = true) (fuel left right : Nat) (h1 : left ≤ as.length)
    (h2 : as.length ≤ right) (h3 : right ≤ (as ++ bs).length) (hfuel : right - left ≤ fuel) :
    lowerBound p (as ++ bs) fuel left right = as.length := by
  induction fuel generalizing left right with
  | zero => simp only [lowerBound]; omega
  | succ fuel ih =>
    simp only [lowerBound]
    split
    · have hmid : left + (right - left) / 2 < (as ++ bs).length := by omega
      generalize hm : left + (right - left) / 2 = mid at *
      by_cases hlt : mid < as.length
      · have hp : ((as ++ bs)[mid]?).any p = false := by
          rw [List.getElem?_append_left hlt, List.getElem?_eq_getElem hlt]
          simpa using ha _ (List.getElem_mem hlt)
        rw [hp]
        exact ih _ _ (by omega) h2 h3 (by omega)
      · have hp : ((as ++ bs)[mid]?).any p = true := by
          rw [List.getElem?_append_right (by omega)]
          rw [List.length_append] at hmid
          rw [List.getElem?_eq_getElem (by omega)]
          simpa using hb _ (List.getElem_mem _)
        rw [hp]
        exact ih _ _ h1 (by omega) (by omega) (by omega)
    · omega

variable {xs : List α}

theorem eq_false_of_mem_dropWhile {p : α → Bool}
    (h : xs.Pairwise fun a b => p b = true → p a = true) {x : α} (hx : x ∈ xs.dropWhile p) :
    p x = false := by
  induction xs with
  | nil => cases hx
  | cons a xs ih =>
    obtain ⟨ha, htail⟩ := List.pairwise_cons.mp h
    cases hp : p a with
    | true =>
      rw [List.dropWhile_cons_of_pos hp] at hx
      exact ih htail hx
    | false =>
      rw [List.dropWhile_cons_of_neg (by simp [hp])] at hx
      rcases List.mem_cons.mp hx with rfl | hx
      · exact hp
      · exact Bool.eq_false_iff.mpr fun hpx => Bool.eq_false_iff.mp hp (ha x hx hpx)

/-- Where `p` goes from true to false once, the search ends at that place. -/
theorem lowerBound_not {p : α → Bool} (h : xs.Pairwise fun a b => p b = true → p a = true)
    {fuel : Nat} (hfuel : xs.length ≤ fuel) :
    lowerBound (fun x => !p x) xs fuel 0 xs.length = (xs.takeWhile p).length ∧
      xs.drop (xs.takeWhile p).length = xs.dropWhile p := by
  have hsplit := List.takeWhile_append_dropWhile (p := p) (l := xs)
  have hlow : ∀ x ∈ xs.takeWhile p, (!p x) = false := by
    intro x hx
    simp [List.mem_takeWhile_imp hx]
  have hhigh : ∀ x ∈ xs.dropWhile p, (!p x) = true := by
    intro x hx
    simp [eq_false_of_mem_dropWhile h hx]
  have hfirst := lowerBound_eq hlow hhigh fuel 0 xs.length (Nat.zero_le _)
    (List.takeWhile_sublist _).length_le (by rw [hsplit]) (by omega)
  have hdrop : (xs.takeWhile p ++ xs.dropWhile p).drop (xs.takeWhile p).length =
      xs.dropWhile p := List.drop_left
  rw [hsplit] at hfirst hdrop
  exact ⟨hfirst, hdrop⟩

/-- Where `before` and `upTo` each go from true to false once, two searches cut the list into the
entries with `before`, those with `upTo` only, and the others. -/
theorem exists_split {before upTo : α → Bool} (himp : ∀ x, before x = true → upTo x = true)
    (hbefore : xs.Pairwise fun a b => before b = true → before a = true)
    (hupTo : xs.Pairwise fun a b => upTo b = true → upTo a = true) {fuel : Nat}
    (hfuel : xs.length ≤ fuel) :
    ∃ low mid high, xs = low ++ (mid ++ high) ∧ (∀ x ∈ low, before x = true) ∧
      (∀ x ∈ mid, before x = false ∧ upTo x = true) ∧
      (∀ x ∈ high, before x = false ∧ upTo x = false) ∧
      lowerBound (fun x => !before x) xs fuel 0 xs.length = low.length ∧
      lowerBound (fun x => !upTo x) xs fuel low.length xs.length = (low ++ mid).length := by
  have hfirst := (lowerBound_not hbefore hfuel).1
  have hrest := List.takeWhile_append_dropWhile (p := before) (l := xs)
  have hmid := List.takeWhile_append_dropWhile (p := upTo) (l := xs.dropWhile before)
  have hlow : ∀ x ∈ xs.takeWhile before, before x = true := fun x hx => List.mem_takeWhile_imp hx
  have hnot : ∀ x ∈ xs.dropWhile before, before x = false :=
    fun x hx => eq_false_of_mem_dropWhile hbefore hx
  have hup : ∀ x ∈ (xs.dropWhile before).takeWhile upTo, upTo x = true :=
    fun x hx => List.mem_takeWhile_imp hx
  have hhigh : ∀ x ∈ (xs.dropWhile before).dropWhile upTo, upTo x = false :=
    fun x hx => eq_false_of_mem_dropWhile (hupTo.sublist (List.dropWhile_sublist _)) hx
  generalize xs.takeWhile before = low at hfirst hrest hlow
  generalize (xs.dropWhile before).takeWhile upTo = mid at hmid hup
  generalize (xs.dropWhile before).dropWhile upTo = high at hmid hhigh
  rw [← hmid] at hrest hnot
  refine ⟨low, mid, high, hrest.symm, hlow,
    fun x hx => ⟨hnot x (List.mem_append_left _ hx), hup x hx⟩,
    fun x hx => ⟨hnot x (List.mem_append_right _ hx), hhigh x hx⟩, hfirst, ?_⟩
  rw [← hrest, ← List.append_assoc] at hfuel ⊢
  refine lowerBound_eq (fun x hx => ?_) (fun x hx => by simp [hhigh x hx]) _ _ _ (by simp)
    (by simp) (Nat.le_refl _) (by omega)
  rcases List.mem_append.mp hx with hx | hx
  · simp [himp x (hlow x hx)]
  · simp [hup x hx]

/-- Groups that stand in order: the search ends at the start of group `d`, and a scan from there
goes over the group. -/
theorem exists_group {grp : α → Nat} (d : Nat) (h : xs.Pairwise fun a b => grp a ≤ grp b)
    {fuel : Nat} (hfuel : xs.length ≤ fuel) :
    ∃ low mid high, xs = low ++ (mid ++ high) ∧ (∀ x ∈ low, grp x ≠ d) ∧ (∀ x ∈ mid, grp x = d) ∧
      (∀ x ∈ high, grp x ≠ d) ∧
      lowerBound (fun x => decide (d ≤ grp x)) xs fuel 0 xs.length = low.length ∧
      (xs.drop low.length).takeWhile (fun x => grp x = d) = mid := by
  have himp : ∀ x, decide (grp x < d) = true → decide (grp x ≤ d) = true := by
    intro x hx
    simpa using Nat.le_of_lt (of_decide_eq_true hx)
  have hbefore : xs.Pairwise fun a b => decide (grp b < d) = true → decide (grp a < d) = true :=
    h.imp fun hab hb => by simpa using Nat.lt_of_le_of_lt hab (of_decide_eq_true hb)
  have hupTo : xs.Pairwise fun a b => decide (grp b ≤ d) = true → decide (grp a ≤ d) = true :=
    h.imp fun hab hb => by simpa using Nat.le_trans hab (of_decide_eq_true hb)
  obtain ⟨low, mid, high, hsplit, hlow, hmid, hhigh, hfirst, -⟩ :=
    exists_split himp hbefore hupTo hfuel
  simp only [decide_eq_true_eq, decide_eq_false_iff_not] at hlow hmid hhigh
  have hnot : ∀ x ∈ high, grp x ≠ d := fun x hx heq => (hhigh x hx).2 (Nat.le_of_eq heq)
  have hscan : ∀ x ∈ mid, decide (grp x = d) = true := by
    intro x hx
    have := hmid x hx
    rw [decide_eq_true_eq]
    omega
  refine ⟨low, mid, high, hsplit, fun x hx => Nat.ne_of_lt (hlow x hx),
    fun x hx => of_decide_eq_true (hscan x hx), hnot, ?_, ?_⟩
  · have hle : (fun x => decide (d ≤ grp x)) = fun x => !decide (grp x < d) := by
      funext x
      rw [← decide_not, decide_eq_decide, Nat.not_lt]
    rw [hle, hfirst]
  · rw [hsplit, List.drop_left, List.takeWhile_append_of_pos hscan]
    cases high with
    | nil => simp
    | cons x xs => simp [hnot x List.mem_cons_self]

section

variable {grp : α → Nat} {q : α → Bool} (d : Nat) (h : xs.Pairwise fun a b => grp a ≤ grp b)
  {fuel : Nat} (hfuel : xs.length ≤ fuel)

include h hfuel

/-- The scan finds the place of the first entry of the group with `q`. -/
theorem findIdx?_group :
    (((xs.drop (lowerBound (fun x => decide (d ≤ grp x)) xs fuel 0 xs.length)).takeWhile
      fun x => grp x = d).findIdx? q).map
        (lowerBound (fun x => decide (d ≤ grp x)) xs fuel 0 xs.length + ·) =
      xs.findIdx? fun x => decide (grp x = d) && q x := by
  obtain ⟨low, mid, high, hsplit, hlow, hmid, hhigh, hfirst, hscan⟩ := exists_group d h hfuel
  rw [hfirst, hscan]
  have hbefore : low.findIdx? (fun x => decide (grp x = d) && q x) = none :=
    List.findIdx?_eq_none_iff.mpr fun x hx => by simp [hlow x hx]
  have hafter : high.findIdx? (fun x => decide (grp x = d) && q x) = none :=
    List.findIdx?_eq_none_iff.mpr fun x hx => by simp [hhigh x hx]
  have hgroup : mid.findIdx? (fun x => decide (grp x = d) && q x) = mid.findIdx? q :=
    findIdx?_congr fun x hx => by simp [hmid x hx]
  conv_rhs => rw [hsplit, List.findIdx?_append, List.findIdx?_append, hbefore, hafter, hgroup]
  simp [Nat.add_comm]

/-- The scan finds the first entry of the group with `q`. -/
theorem find?_group :
    ((xs.drop (lowerBound (fun x => decide (d ≤ grp x)) xs fuel 0 xs.length)).takeWhile
      fun x => grp x = d).find? q = xs.find? fun x => decide (grp x = d) && q x := by
  obtain ⟨low, mid, high, hsplit, hlow, hmid, hhigh, hfirst, hscan⟩ := exists_group d h hfuel
  rw [hfirst, hscan]
  have hbefore : low.find? (fun x => decide (grp x = d) && q x) = none :=
    List.find?_eq_none.mpr fun x hx => by simp [hlow x hx]
  have hafter : high.find? (fun x => decide (grp x = d) && q x) = none :=
    List.find?_eq_none.mpr fun x hx => by simp [hhigh x hx]
  have hgroup : mid.find? (fun x => decide (grp x = d) && q x) = mid.find? q :=
    List.find?_congr fun x hx => by simp [hmid x hx]
  conv_rhs => rw [hsplit, List.find?_append, List.find?_append, hbefore, hafter, hgroup]
  rw [Option.none_or, Option.or_none]

end

end lower

end Lib
