-- Merging sorted runs: take the least head again and again, and of equal heads
-- the one of the first run.
import Mathlib.Data.List.Perm.Basic

namespace Lib

variable {α : Type*} (lt : α → α → Prop) [DecidableRel lt]

/-- The least head, and the runs without it. -/
def leastHead : List (List α) → Option (α × List (List α))
  | [] => none
  | [] :: ws => (leastHead ws).map fun p => (p.1, [] :: p.2)
  | (a :: as) :: ws =>
    match leastHead ws with
    | none => some (a, as :: ws)
    | some (x, ws') => if lt x a then some (x, (a :: as) :: ws') else some (a, as :: ws)

/-- The loop of the merge; the fuel is the number of entries. -/
def mergeLoop : Nat → List (List α) → List α
  | 0, _ => []
  | fuel + 1, ws =>
    match leastHead lt ws with
    | none => []
    | some (x, ws') => x :: mergeLoop fuel ws'

def mergeWays (ws : List (List α)) : List α := mergeLoop lt ws.flatten.length ws

variable {lt} {ws ws' : List (List α)} {x : α}

theorem leastHead_eq_none (h : leastHead lt ws = none) : ws.flatten = [] := by
  induction ws with
  | nil => rfl
  | cons w ws ih =>
    cases w with
    | nil => exact ih (by simpa [leastHead] using h)
    | cons a as =>
      simp only [leastHead] at h
      split at h
      · cases h
      · split at h <;> cases h

/-- The least head is that of one of the runs, which goes on without it. -/
theorem exists_of_leastHead (h : leastHead lt ws = some (x, ws')) :
    ∃ pre as post, ws = pre ++ (x :: as) :: post ∧ ws' = pre ++ as :: post := by
  induction ws generalizing x ws' with
  | nil => cases h
  | cons w ws ih =>
    cases w with
    | nil =>
      simp only [leastHead, Option.map_eq_some_iff] at h
      obtain ⟨⟨y, vs⟩, hy, he⟩ := h
      cases he
      obtain ⟨pre, as, post, rfl, rfl⟩ := ih hy
      exact ⟨[] :: pre, as, post, rfl, rfl⟩
    | cons a as =>
      simp only [leastHead] at h
      split at h
      · cases h
        exact ⟨[], as, ws, rfl, rfl⟩
      · rename_i y vs hy
        split at h
        · cases h
          obtain ⟨pre, as', post, rfl, rfl⟩ := ih hy
          exact ⟨(a :: as) :: pre, as', post, rfl, rfl⟩
        · cases h
          exact ⟨[], as, ws, rfl, rfl⟩

theorem leastHead_perm (h : leastHead lt ws = some (x, ws')) :
    ws.flatten.Perm (x :: ws'.flatten) := by
  obtain ⟨pre, as, post, rfl, rfl⟩ := exists_of_leastHead h
  simp only [List.flatten_append, List.flatten_cons, List.cons_append]
  exact List.perm_middle

/-- The runs that remain are as sorted as the runs before. -/
theorem leastHead_sorted {le : α → α → Prop} (h : leastHead lt ws = some (x, ws'))
    (hs : ∀ w ∈ ws, w.Pairwise le) : ∀ w ∈ ws', w.Pairwise le := by
  obtain ⟨pre, as, post, rfl, rfl⟩ := exists_of_leastHead h
  simp only [List.forall_mem_append, List.forall_mem_cons] at hs ⊢
  exact ⟨hs.1, hs.2.1.of_cons, hs.2.2⟩

theorem leastHead_length {fuel : Nat} (h : leastHead lt ws = some (x, ws'))
    (hfuel : ws.flatten.length = fuel + 1) : ws'.flatten.length = fuel := by
  have := (leastHead_perm h).length_eq
  rw [List.length_cons, hfuel] at this
  omega

theorem mergeLoop_perm (fuel : Nat) (hfuel : ws.flatten.length = fuel) :
    (mergeLoop lt fuel ws).Perm ws.flatten := by
  induction fuel generalizing ws with
  | zero =>
    rw [List.length_eq_zero_iff] at hfuel
    rw [hfuel]
    exact List.Perm.refl _
  | succ fuel ih =>
    simp only [mergeLoop]
    split
    · rename_i hnone
      rw [leastHead_eq_none hnone]
    · rename_i x ws' hx
      exact ((ih (leastHead_length hx hfuel)).cons x).trans (leastHead_perm hx).symm

theorem mergeWays_of_none (h : leastHead lt ws = none) : mergeWays lt ws = [] := by
  unfold mergeWays
  rw [leastHead_eq_none h]
  rfl

theorem mergeWays_of_some (h : leastHead lt ws = some (x, ws')) :
    mergeWays lt ws = x :: mergeWays lt ws' := by
  have hlen : ws.flatten.length = ws'.flatten.length + 1 := by
    rw [(leastHead_perm h).length_eq, List.length_cons]
  unfold mergeWays
  rw [hlen, mergeLoop, h]

theorem leastHead_of_nil (h : ∀ w ∈ ws, w = []) : leastHead lt ws = none := by
  induction ws with
  | nil => rfl
  | cons w ws ih =>
    rw [h w List.mem_cons_self, leastHead, ih fun w hw => h w (List.mem_cons_of_mem _ hw)]
    rfl

/-- The head that is less than those before it, and not greater than those after it. -/
theorem leastHead_of_first {i : Nat} {as : List α} (hi : ws[i]? = some (x :: as))
    (hbefore : ∀ (j : Nat) y bs, j < i → ws[j]? = some (y :: bs) → lt x y)
    (hafter : ∀ (j : Nat) y bs, i < j → ws[j]? = some (y :: bs) → ¬ lt y x) :
    leastHead lt ws = some (x, ws.set i as) := by
  induction ws generalizing i with
  | nil => cases hi
  | cons w ws ih =>
    cases i with
    | zero =>
      cases hi
      rw [leastHead]
      cases hleast : leastHead lt ws with
      | none => rfl
      | some p =>
        obtain ⟨pre, bs, post, hws, -⟩ := exists_of_leastHead hleast
        have hnot : ¬ lt p.1 x :=
          hafter (pre.length + 1) p.1 bs (Nat.succ_pos _) (by simp [hws])
        simp only [if_neg hnot]
        rfl
    | succ i =>
      have hrest := ih hi
        (fun j y bs hj hy => hbefore (j + 1) y bs (Nat.succ_lt_succ hj) hy)
        fun j y bs hj hy => hafter (j + 1) y bs (Nat.succ_lt_succ hj) hy
      cases w with
      | nil =>
        rw [leastHead, hrest]
        rfl
      | cons a bs =>
        have hlt : lt x a := hbefore 0 a bs (Nat.succ_pos i) rfl
        rw [leastHead, hrest]
        simp only [if_pos hlt]
        rfl

/-- The merge loses nothing and adds nothing. -/
theorem mergeWays_perm (ws : List (List α)) : (mergeWays lt ws).Perm ws.flatten :=
  mergeLoop_perm _ rfl

section sorted

variable {le : α → α → Prop} (hlt : ∀ a b, ¬ lt a b → le b a) (hle : ∀ a b, lt a b → le a b)
  (htrans : ∀ a b c, le a b → le b c → le a c)

include hlt hle htrans

theorem leastHead_le (h : leastHead lt ws = some (x, ws')) (hs : ∀ w ∈ ws, w.Pairwise le) :
    ∀ y ∈ ws'.flatten, le x y := by
  induction ws generalizing x ws' with
  | nil => cases h
  | cons w ws ih =>
    have hrest : ∀ w ∈ ws, w.Pairwise le := fun w hw => hs w (List.mem_cons_of_mem _ hw)
    cases w with
    | nil =>
      simp only [leastHead, Option.map_eq_some_iff] at h
      obtain ⟨⟨y, vs⟩, hy, he⟩ := h
      cases he
      simpa using ih hy hrest
    | cons a as =>
      have hhead := List.pairwise_cons.mp (hs (a :: as) List.mem_cons_self)
      simp only [leastHead] at h
      split at h
      · rename_i hnone
        cases h
        intro y hy
        rw [List.flatten_cons, leastHead_eq_none hnone, List.append_nil] at hy
        exact hhead.1 y hy
      · rename_i z vs hz
        have hz_le := ih hz hrest
        split at h
        · rename_i hza
          cases h
          intro y hy
          rcases List.mem_append.mp hy with hy | hy
          · rcases List.mem_cons.mp hy with rfl | hy
            · exact hle _ _ hza
            · exact htrans _ _ _ (hle _ _ hza) (hhead.1 y hy)
          · exact hz_le y hy
        · rename_i hza
          cases h
          intro y hy
          rcases List.mem_append.mp hy with hy | hy
          · exact hhead.1 y hy
          · rcases List.mem_cons.mp ((leastHead_perm hz).mem_iff.mp hy) with rfl | hy
            · exact hlt _ _ hza
            · exact htrans _ _ _ (hlt _ _ hza) (hz_le y hy)

theorem mergeLoop_sorted (fuel : Nat) (hs : ∀ w ∈ ws, w.Pairwise le)
    (hfuel : ws.flatten.length = fuel) : (mergeLoop lt fuel ws).Pairwise le := by
  induction fuel generalizing ws with
  | zero => exact List.Pairwise.nil
  | succ fuel ih =>
    simp only [mergeLoop]
    split
    · exact List.Pairwise.nil
    · rename_i x ws' hx
      have hlen := leastHead_length hx hfuel
      refine List.pairwise_cons.mpr ⟨?_, ih (leastHead_sorted hx hs) hlen⟩
      intro y hy
      exact leastHead_le hlt hle htrans hx hs y ((mergeLoop_perm fuel hlen).mem_iff.mp hy)

/-- The merge of sorted runs is sorted. -/
theorem mergeWays_sorted (hs : ∀ w ∈ ws, w.Pairwise le) : (mergeWays lt ws).Pairwise le :=
  mergeLoop_sorted hlt hle htrans _ hs rfl

end sorted

/-! ## One pass for the least entry -/

/-- A pass from the left: an entry that is less than the best one so far takes its place. -/
def scanLeast (lt : α → α → Prop) [DecidableRel lt] :
    Nat → Option (Nat × α) → List (Option α) → Option (Nat × α)
  | _, best, [] => best
  | i, best, none :: es => scanLeast lt (i + 1) best es
  | i, none, some a :: es => scanLeast lt (i + 1) (some (i, a)) es
  | i, some (m, b), some a :: es =>
    scanLeast lt (i + 1) (if lt a b then some (i, a) else some (m, b)) es

/-- `a` is the first of the least entries. -/
structure FirstLeast (lt : α → α → Prop) (es : List (Option α)) (i : Nat) (a : α) : Prop where
  at_ : es[i]? = some (some a)
  before : ∀ (j : Nat) b, j < i → es[j]? = some (some b) → lt a b
  after : ∀ (j : Nat) b, i < j → es[j]? = some (some b) → ¬ lt b a

/-- What the pass has found in the entries so far. -/
def ScannedTo (lt : α → α → Prop) (pre : List (Option α)) : Option (Nat × α) → Prop
  | none => ∀ e ∈ pre, e = none
  | some (m, b) => FirstLeast lt pre m b

section scan

variable {pre : List (Option α)} {e : Option α} {m : Nat} {a b : α}

theorem getElem?_concat_cases {j : Nat} {c : Option α} (h : (pre ++ [e])[j]? = some c) :
    pre[j]? = some c ∨ j = pre.length ∧ c = e := by
  rw [List.getElem?_append] at h
  split at h
  · exact Or.inl h
  · rename_i hj
    have hzero : j - pre.length = 0 := by
      have := (List.getElem?_eq_some_iff.mp h).1
      rw [List.length_singleton] at this
      omega
    rw [hzero] at h
    cases h
    exact Or.inr ⟨by omega, rfl⟩

omit [DecidableRel lt] in
/-- The best entry stays when the next one is not less. -/
theorem FirstLeast.concat (h : FirstLeast lt pre m b) (he : ∀ a ∈ e, ¬ lt a b) :
    FirstLeast lt (pre ++ [e]) m b where
  at_ := by
    rw [List.getElem?_append_left (List.getElem?_eq_some_iff.mp h.at_).1, h.at_]
  before j c hj hc := by
    have hlt := (List.getElem?_eq_some_iff.mp h.at_).1
    rw [List.getElem?_append_left (by omega)] at hc
    exact h.before j c hj hc
  after j c hj hc := by
    obtain hc | ⟨-, hc⟩ := getElem?_concat_cases hc
    · exact h.after j c hj hc
    · exact he c hc.symm

omit [DecidableRel lt] in
theorem firstLeast_concat_first (h : ∀ e ∈ pre, e = none) :
    FirstLeast lt (pre ++ [some a]) pre.length a where
  at_ := List.getElem?_concat_length
  before j c hj hc := by
    obtain hc | ⟨heq, -⟩ := getElem?_concat_cases hc
    · cases h _ (List.mem_of_getElem? hc)
    · omega
  after j c hj hc := by
    obtain hc | ⟨heq, -⟩ := getElem?_concat_cases hc
    · cases h _ (List.mem_of_getElem? hc)
    · omega

variable (hweak : ∀ a b c : α, lt a b → ¬ lt c b → lt a c) (hasymm : ∀ a b : α, lt a b → ¬ lt b a)

include hweak hasymm

omit [DecidableRel lt] in
theorem firstLeast_concat_less (h : FirstLeast lt pre m b) (hlt : lt a b) :
    FirstLeast lt (pre ++ [some a]) pre.length a where
  at_ := List.getElem?_concat_length
  before j c hj hc := by
    obtain hc | ⟨heq, -⟩ := getElem?_concat_cases hc
    · obtain hjm | rfl | hjm := Nat.lt_trichotomy j m
      · exact hweak a b c hlt (hasymm _ _ (h.before j c hjm hc))
      · have hcb := h.at_
        rw [hc] at hcb
        cases hcb
        exact hlt
      · exact hweak a b c hlt (h.after j c hjm hc)
    · omega
  after j c hj hc := by
    obtain hc | ⟨heq, -⟩ := getElem?_concat_cases hc
    · have := (List.getElem?_eq_some_iff.mp hc).1
      omega
    · omega

theorem scannedTo_scanLeast (es : List (Option α)) {best : Option (Nat × α)}
    (h : ScannedTo lt pre best) :
    ScannedTo lt (pre ++ es) (scanLeast lt pre.length best es) := by
  induction es generalizing pre best with
  | nil => simpa [scanLeast] using h
  | cons e es ih =>
    have hstep : ∀ {best'}, ScannedTo lt (pre ++ [e]) best' →
        ScannedTo lt (pre ++ e :: es) (scanLeast lt (pre.length + 1) best' es) := by
      intro best' h'
      have := ih h'
      rwa [List.append_assoc, List.length_append] at this
    cases e with
    | none =>
      refine hstep ?_
      cases best with
      | none =>
        intro e he
        rcases List.mem_append.mp he with he | he
        · exact h e he
        · exact List.mem_singleton.mp he
      | some p => exact FirstLeast.concat h (by simp)
    | some a =>
      cases best with
      | none => exact hstep (firstLeast_concat_first h)
      | some p =>
        rw [scanLeast]
        refine hstep ?_
        split
        · rename_i hlt
          exact firstLeast_concat_less hweak hasymm h hlt
        · rename_i hlt
          exact FirstLeast.concat h (by simpa using hlt)

/-- The pass over all entries finds the first of the least ones. -/
theorem scannedTo_scanLeast_all (es : List (Option α)) :
    ScannedTo lt es (scanLeast lt 0 none es) := by
  have hstart : ScannedTo lt [] none := fun _ h => nomatch h
  exact scannedTo_scanLeast hweak hasymm es hstart

end scan

end Lib
