-- The skip list of a memtable, with its nodes and pointers. An insertion takes the
-- cached predecessors when the new key comes right behind the last one, and searches
-- from the top level otherwise.
import RichGraph.AdjacencyOrder
import RichGraph.Lib.Towers

namespace RichGraph

/-- `EdgeComparator::compare` on destinations and sequences. -/
def EdgeComparator.compare (a b : Nat × Nat) : Int :=
  if a.1 < b.1 then -1
  else if b.1 < a.1 then 1
  else if a.2 < b.2 then 1
  else if b.2 < a.2 then -1
  else 0

def kMaxHeight : Nat := 4

/-- `SkipList`. The nodes have numbers; 0 is `head_`, and its pointers are at every level.
`next i n` is `Next(i)` of the node `n`, `prev` and `prevHeight` are the cached predecessors. -/
structure SkipList where
  size : Nat
  key : Nat → Edge
  next : Nat → Nat → Option Nat
  maxHeight : Nat
  prev : Nat → Nat
  prevHeight : Nat

namespace SkipList

/-- The key of the head is never read. -/
def headKey : Edge := ⟨0, 0, false, [], true, 0⟩

def empty : SkipList :=
  { size := 0, key := fun _ => headKey, next := fun _ _ => none, maxHeight := 1
    prev := fun _ => 0, prevHeight := 1 }

/-- What the comparator reads of an edge. -/
def sortKey (e : Edge) : Nat × Nat := (e.destination, e.sequence)

def keyIsAfterNode (l : SkipList) (key : Nat × Nat) : Option Nat → Bool
  | none => false
  | some n => decide (EdgeComparator.compare (sortKey (l.key n)) key < 0)

/-- The loop of `FindLessThan`, with a bound on its turns. -/
def findLessThanFrom (l : SkipList) (key : Nat × Nat) :
    Nat → Nat → Nat → Option Nat → (Nat → Nat) → Option (Nat → Nat)
  | 0, _, _, _, _ => none
  | fuel + 1, x, level, lastNotAfter, prev =>
    let next := l.next level x
    if next ≠ lastNotAfter ∧ l.keyIsAfterNode key next then
      findLessThanFrom l key fuel (next.getD 0) level lastNotAfter prev
    else
      let prev := Function.update prev level x
      match level with
      | 0 => some prev
      | level + 1 => findLessThanFrom l key fuel x level next prev

/-- The turns that a search needs at most. -/
def turns (l : SkipList) : Nat := l.size + l.maxHeight

def findLessThan (l : SkipList) (key : Nat × Nat) : Option (Nat → Nat) :=
  l.findLessThanFrom key l.turns 0 (l.maxHeight - 1) none l.prev

/-- How the key of the next node compares. A node that was bigger on the level above is not read. -/
def cmpNext (l : SkipList) (key : Nat × Nat) (lastBigger : Option Nat) : Option Nat → Int
  | none => 1
  | some n => if some n = lastBigger then 1 else EdgeComparator.compare (sortKey (l.key n)) key

/-- The loop of `FindGreaterOrEqual`. -/
def findGreaterOrEqualFrom (l : SkipList) (key : Nat × Nat) :
    Nat → Nat → Nat → Option Nat → Option (Option Nat)
  | 0, _, _, _ => none
  | fuel + 1, x, level, lastBigger =>
    let next := l.next level x
    let cmp := l.cmpNext key lastBigger next
    if cmp = 0 ∨ 0 < cmp ∧ level = 0 then some next
    else if cmp < 0 then findGreaterOrEqualFrom l key fuel (next.getD 0) level lastBigger
    else findGreaterOrEqualFrom l key fuel x (level - 1) next

def findGreaterOrEqual (l : SkipList) (key : Nat × Nat) : Option (Option Nat) :=
  l.findGreaterOrEqualFrom key l.turns 0 (l.maxHeight - 1) none

/-- The predecessors of a key: the cached ones when it belongs right behind the last node that was
put, and else those of a search. -/
def predecessors (l : SkipList) (key : Nat × Nat) : Option (Nat → Nat) :=
  if l.keyIsAfterNode key (l.next 0 (l.prev 0)) = false ∧
      (l.prev 0 = 0 ∨ l.keyIsAfterNode key (some (l.prev 0))) then
    some fun i => if 1 ≤ i ∧ i < l.prevHeight then l.prev 0 else l.prev i
  else l.findLessThan key

/-- What `put_edge` does with the predecessors. -/
def link (l : SkipList) (e : Edge) (height : Nat) (prev : Nat → Nat) : SkipList :=
  let prev := fun i => if l.maxHeight ≤ i ∧ i < height then 0 else prev i
  { size := l.size + 1
    key := Function.update l.key (l.size + 1) e
    next := Lib.splice (l.size + 1) height prev l.next
    maxHeight := max l.maxHeight height
    prev := Function.update prev 0 (l.size + 1)
    prevHeight := height }

/-- `put_edge`. The first nodes have one level, and the others the height that `RandomHeight`
gives. -/
def putEdge (reserveNode : Nat) (l : SkipList) (e : Edge) (randomHeight : Nat) : Option SkipList :=
  (l.predecessors (sortKey e)).map
    (l.link e (if l.size < reserveNode then 1 else randomHeight))

def putEdges (reserveNode : Nat) (l : SkipList) : List (Edge × Nat) → Option SkipList
  | [] => some l
  | (e, height) :: es => (l.putEdge reserveNode e height).bind fun l => putEdges reserveNode l es

/-- The loop of `get` from a node on. -/
def getFrom (l : SkipList) (dst : Nat) (isOut : Bool) (edgeType : UInt8) :
    Nat → Option Nat → Option (Option Edge)
  | 0, _ => none
  | _ + 1, none => some none
  | fuel + 1, some n =>
    if (l.key n).destination = dst then
      if (l.key n).isOut = isOut ∧ (l.key n).edgeType = edgeType then some (some (l.key n))
      else getFrom l dst isOut edgeType fuel (l.next 0 n)
    else some none

/-- `get`: the record that decides the status, and its property and sequence. -/
def get (l : SkipList) (dst : Nat) (isOut : Bool) (edgeType : UInt8) : Option (Option Edge) := do
  let x ← l.findGreaterOrEqual (dst, maxSeqId)
  l.getFrom dst isOut edgeType (l.size + 1) x

/-! ## The order of the nodes -/

theorem compare_neg_iff {a b : Nat × Nat} : EdgeComparator.compare a b < 0 ↔
    a.1 < b.1 ∨ a.1 = b.1 ∧ b.2 < a.2 := by
  unfold EdgeComparator.compare
  split_ifs <;> omega

/-- The head and the nodes whose keys are less. -/
def before (l : SkipList) (key : Nat × Nat) (n : Nat) : Bool :=
  n == 0 || l.keyIsAfterNode key (some n)

/-- The nodes in the order of level 0, each with its height: every level links the nodes that
reach it, and the keys are in order. The cached predecessors are those of the last node that was
put. -/
structure Inv (height : Nat → Nat) (order : List Nat) (es : List Edge) (l : SkipList) : Prop where
  head : height 0 = kMaxHeight
  nodup : (0 :: order).Nodup
  nodes : ∀ n ∈ order, n ≤ l.size
  length : order.length = l.size
  high : ∀ n ∈ order, 0 < height n ∧ height n ≤ l.maxHeight
  maxHeight : 0 < l.maxHeight ∧ l.maxHeight ≤ kMaxHeight
  linked : Lib.Linked height (0 :: order) l.next
  keys : order.map l.key = es.reverse.insertionSort Edge.le
  known : ∀ n, l.key n = headKey ∨ l.key n ∈ es
  cached : ∃ A B, 0 :: order = A ++ l.prev 0 :: B ∧ ∀ i, 0 < i → i < l.maxHeight →
    if i < l.prevHeight then i < height (l.prev 0)
    else ¬ i < height (l.prev 0) ∧ Lib.LastAbove height i A (l.prev i)

variable {l : SkipList} {height : Nat → Nat} {order : List Nat} {es : List Edge}
variable {key : Nat × Nat}

theorem inv_empty : Inv (fun _ => kMaxHeight) [] [] empty := by
  refine ⟨rfl, by simp, by simp, rfl, by simp, by decide, ?_, rfl,
    fun _ => Or.inl rfl, [], [], rfl, ?_⟩
  · rintro i A x B horder -
    cases A with
    | nil =>
      obtain ⟨rfl, rfl⟩ := List.cons.inj horder
      rfl
    | cons a A => simp at horder
  · intro i hpos hlt
    exact absurd hlt (Nat.not_lt.mpr hpos)

theorem Inv.pos (h : Inv height order es l) {n : Nat} (hn : n ∈ 0 :: order) : 0 < height n := by
  rcases List.mem_cons.mp hn with rfl | hn
  · rw [h.head]
    decide
  · exact (h.high n hn).1

/-- The head has no node before it. -/
theorem Inv.ne_head (h : Inv height order es l) {A B : List Nat} {x m : Nat}
    (horder : 0 :: order = A ++ x :: B) (hm : m ∈ B) : m ≠ 0 := by
  have hmem : m ∈ order := by
    cases A with
    | nil => rwa [(List.cons.inj horder).2]
    | cons a A =>
      rw [(List.cons.inj horder).2]
      simp [hm]
  exact fun h0 => (List.nodup_cons.mp h.nodup).1 (h0 ▸ hmem)

/-- The node before one whose key is less has a lesser key too. -/
theorem Inv.closed (h : Inv height order es l) {A B : List Nat} {x : Nat}
    (horder : 0 :: order = A ++ x :: B) (hx : l.before key x) : ∀ n ∈ A, l.before key n := by
  have hsorted : (0 :: order).Pairwise fun m n => l.before key n → l.before key m := by
    refine List.pairwise_cons.mpr ⟨fun _ _ _ => by simp [before], ?_⟩
    have hkeys : (order.map l.key).Pairwise Edge.le := h.keys ▸ List.pairwise_insertionSort _ _
    rw [List.pairwise_map] at hkeys
    refine hkeys.imp_of_mem fun {m n} _ hn hle => ?_
    have hn0 : n ≠ 0 := fun h0 => (List.nodup_cons.mp h.nodup).1 (h0 ▸ hn)
    simp only [before, keyIsAfterNode, sortKey, compare_neg_iff, Bool.or_eq_true, beq_iff_eq,
      decide_eq_true_eq]
    unfold Edge.le at hle
    omega
  rw [horder, List.pairwise_append] at hsorted
  exact fun n hn => hsorted.2.2 n hn x List.mem_cons_self hx

/-! ## The search -/

/-- A node from which a level leads to no lesser key is the last lesser one of the level. -/
theorem Inv.lastAbove (h : Inv height order es l) {x i : Nat} {A B : List Nat}
    (horder : 0 :: order = A ++ x :: B) (hx : i < height x) (hbefore : l.before key x)
    (hnext : l.keyIsAfterNode key (l.next i x) = false) :
    Lib.LastAbove height i ((0 :: order).takeWhile (l.before key)) x := by
  refine ⟨A, B.takeWhile (l.before key), ?_, hx, fun n hn hlt => ?_⟩
  · rw [horder, List.takeWhile_append_of_pos (h.closed horder hbefore),
      List.takeWhile_cons_of_pos hbefore]
  · -- the level leads to a node that is not behind `n`, so its key is less
    obtain ⟨m, hm⟩ : ∃ m, (B.takeWhile (l.before key)).find? (fun n => decide (i < height n)) =
        some m := Option.isSome_iff_exists.mp (List.find?_isSome.mpr ⟨n, hn, by simpa using hlt⟩)
    have hfind : l.next i x = some m := by
      rw [h.linked i A x B horder hx,
        ← List.takeWhile_append_dropWhile (p := l.before key) (l := B), List.find?_append, hm]
      rfl
    have hmem := List.mem_of_find?_eq_some hm
    have hbefore' := List.mem_takeWhile_imp hmem
    have hm0 := h.ne_head horder ((List.takeWhile_sublist _).mem hmem)
    rw [hfind] at hnext
    simp [before, hm0, hnext] at hbefore'

/-- The search gives, on every level from its own down, the last node whose key is less. -/
theorem findLessThanFrom_spec (h : Inv height order es l) {x i : Nat} {A B : List Nat}
    (fuel : Nat) (lastNotAfter : Option Nat) (prev : Nat → Nat) (horder : 0 :: order = A ++ x :: B)
    (hx : i < height x) (hbefore : l.before key x) (hfuel : B.length + i < fuel)
    (hlast : l.keyIsAfterNode key lastNotAfter = false) :
    ∃ prev', l.findLessThanFrom key fuel x i lastNotAfter prev = some prev' ∧
      (∀ j ≤ i, Lib.LastAbove height j ((0 :: order).takeWhile (l.before key)) (prev' j)) ∧
      ∀ j, i < j → prev' j = prev j := by
  induction fuel generalizing x i A B lastNotAfter prev with
  | zero => omega
  | succ fuel ih =>
    by_cases hmove : l.next i x ≠ lastNotAfter ∧ l.keyIsAfterNode key (l.next i x)
    · -- the next node of the level has a lesser key
      cases hn : l.next i x with
      | none =>
        rw [hn] at hmove
        exact absurd hmove.2 (by simp [keyIsAfterNode])
      | some n =>
        have hfind := h.linked i A x B horder hx
        rw [hn] at hfind
        obtain ⟨hni, C, D, rfl, -⟩ := List.find?_eq_some_iff_append.mp hfind.symm
        have hafter : l.before key n := by
          rw [hn] at hmove
          simp [before, hmove.2]
        obtain ⟨prev', heq, hprev⟩ := ih (A := A ++ x :: C) (B := D) lastNotAfter prev
          (by simpa using horder) (by simpa using hni) hafter (by simp at hfuel; omega) hlast
        refine ⟨prev', ?_, hprev⟩
        rw [findLessThanFrom, if_pos hmove, hn]
        exact heq
    · have hnot : l.keyIsAfterNode key (l.next i x) = false := by
        by_contra htrue
        refine hmove ⟨fun heq => htrue (heq ▸ hlast), by simpa using htrue⟩
      have hhere := h.lastAbove horder hx hbefore hnot
      cases i with
      | zero =>
        refine ⟨Function.update prev 0 x, ?_, ?_, ?_⟩
        · rw [findLessThanFrom, if_neg hmove]
        · intro j hj
          rw [Nat.le_zero.mp hj, Function.update_self]
          exact hhere
        · intro j hj
          exact Function.update_of_ne (Nat.ne_of_gt hj) _ _
      | succ i =>
        obtain ⟨prev', heq, hprev, hkeep⟩ := ih (i := i) (l.next (i + 1) x)
          (Function.update prev (i + 1) x) horder (by omega) hbefore (by omega) hnot
        refine ⟨prev', ?_, ?_, ?_⟩
        · rw [findLessThanFrom, if_neg hmove]
          exact heq
        · intro j hj
          obtain hj | rfl := Nat.lt_or_eq_of_le hj
          · exact hprev j (Nat.le_of_lt_succ hj)
          · rw [hkeep _ (Nat.lt_succ_self i), Function.update_self]
            exact hhere
        · intro j hj
          rw [hkeep j (by omega), Function.update_of_ne (Nat.ne_of_gt hj)]

theorem Inv.findLessThan (h : Inv height order es l) (key : Nat × Nat) :
    ∃ prev, l.findLessThan key = some prev ∧ ∀ i < l.maxHeight,
      Lib.LastAbove height i ((0 :: order).takeWhile (l.before key)) (prev i) := by
  obtain ⟨hpos, hmax⟩ := h.maxHeight
  have hfuel : order.length + (l.maxHeight - 1) < l.turns := by
    unfold turns
    rw [h.length]
    omega
  obtain ⟨prev, heq, hprev, -⟩ := findLessThanFrom_spec h (A := []) (x := 0) (i := l.maxHeight - 1)
    l.turns none l.prev rfl (by rw [h.head]; omega) rfl hfuel rfl
  exact ⟨prev, heq, fun i hi => hprev i (by omega)⟩

/-- Both ways give the last lesser node of every level. -/
theorem predecessors_spec (h : Inv height order es l) (key : Nat × Nat) :
    ∃ prev, l.predecessors key = some prev ∧ ∀ i < l.maxHeight,
      Lib.LastAbove height i ((0 :: order).takeWhile (l.before key)) (prev i) := by
  unfold predecessors
  split
  · rename_i hfast
    obtain ⟨A, B, horder, hcached⟩ := h.cached
    have hbefore : l.before key (l.prev 0) := by simpa [before] using hfast.2
    have hprev : 0 < height (l.prev 0) := h.pos (horder ▸ by simp)
    -- the node behind the cached one is not less, so the cached one is the last lesser node
    have hB : B.takeWhile (l.before key) = [] := by
      cases B with
      | nil => rfl
      | cons b B =>
        have hb : 0 < height b := h.pos (horder ▸ by simp)
        have hnext := h.linked 0 A (l.prev 0) (b :: B) horder hprev
        rw [List.find?_cons_of_pos (by simpa using hb)] at hnext
        have hb0 := h.ne_head horder List.mem_cons_self
        rw [hnext] at hfast
        exact List.takeWhile_cons_of_neg (by simp [before, hb0, hfast.1])
    have hbefores : (0 :: order).takeWhile (l.before key) = A ++ [l.prev 0] := by
      rw [horder, List.takeWhile_append_of_pos (h.closed horder hbefore),
        List.takeWhile_cons_of_pos hbefore, hB]
    refine ⟨_, rfl, fun i hi => ?_⟩
    rw [hbefores]
    obtain rfl | hi0 := Nat.eq_zero_or_pos i
    · exact Lib.lastAbove_concat hprev
    · have hcache := hcached i hi0 hi
      by_cases hlt : i < l.prevHeight
      · rw [if_pos hlt] at hcache
        rw [if_pos ⟨hi0, hlt⟩]
        exact Lib.lastAbove_concat hcache
      · rw [if_neg hlt] at hcache
        rw [if_neg fun h => hlt h.2]
        exact hcache.2.concat hcache.1
  · exact h.findLessThan key

/-! ## An insertion -/

theorem Inv.ne_size (h : Inv height order es l) {n : Nat} (hn : n ∈ 0 :: order) :
    n ≠ l.size + 1 := by
  rcases List.mem_cons.mp hn with rfl | hn
  · omega
  · have := h.nodes n hn
    omega

/-- The keys with the new one behind the lesser ones. -/
theorem map_key_link (h : Inv height order es l) (e : Edge) (hgt : Nat) (prev : Nat → Nat) :
    (order.takeWhile (l.before (sortKey e)) ++ (l.size + 1) ::
        order.dropWhile (l.before (sortKey e))).map (l.link e hgt prev).key =
      (es ++ [e]).reverse.insertionSort Edge.le := by
  have hkeep : ∀ n ∈ order, (l.link e hgt prev).key n = l.key n := fun n hn =>
    Function.update_of_ne (h.ne_size (List.mem_cons_of_mem _ hn)) _ _
  have hself : (l.link e hgt prev).key (l.size + 1) = e := Function.update_self _ _ _
  have hless : ∀ n ∈ order, l.before (sortKey e) n =
      decide (¬ Edge.le e (l.key n)) := by
    intro n hn
    have hn0 : n ≠ 0 := fun h0 => (List.nodup_cons.mp h.nodup).1 (h0 ▸ hn)
    rw [Bool.eq_iff_iff]
    simp only [before, keyIsAfterNode, sortKey, compare_neg_iff, Bool.or_eq_true, beq_iff_eq,
      decide_eq_true_eq]
    unfold Edge.le
    omega
  rw [List.reverse_append, List.reverse_singleton, List.singleton_append,
    List.insertionSort_cons, ← h.keys, List.orderedInsert_eq_take_drop, List.takeWhile_map,
    List.dropWhile_map, List.map_append, List.map_cons, hself]
  obtain ⟨htake, hdrop⟩ := Lib.takeWhile_dropWhile_congr hless
  rw [htake, hdrop, List.map_congr_left fun n hn => hkeep n ((List.takeWhile_sublist _).mem hn),
    List.map_congr_left fun n hn => hkeep n ((List.dropWhile_sublist _).mem hn)]
  rfl

/-- The node stands behind the lesser ones. -/
theorem inv_link (h : Inv height order es l) (e : Edge) {hgt : Nat} (hpos : 0 < hgt)
    (hmax : hgt ≤ kMaxHeight) {prev : Nat → Nat} (hprev : ∀ i < l.maxHeight,
      Lib.LastAbove height i ((0 :: order).takeWhile (l.before (sortKey e))) (prev i)) :
    Inv (Function.update height (l.size + 1) hgt)
      (order.takeWhile (l.before (sortKey e)) ++ (l.size + 1) ::
        order.dropWhile (l.before (sortKey e))) (es ++ [e]) (l.link e hgt prev) := by
  have hkeys := map_key_link h e hgt prev
  have hsplit := List.takeWhile_append_dropWhile (p := l.before (sortKey e))
    (l := order)
  rw [List.takeWhile_cons_of_pos rfl] at hprev
  generalize order.takeWhile (l.before (sortKey e)) = as at *
  generalize order.dropWhile (l.before (sortKey e)) = bs at *
  have hsize := h.length
  have hnew : l.size + 1 ∉ (0 :: as) ++ bs := fun hmem =>
    h.ne_size (by rwa [List.cons_append, hsplit] at hmem) rfl
  have hheight : ∀ n ∈ 0 :: order, Function.update height (l.size + 1) hgt n = height n :=
    fun n hn => Function.update_of_ne (h.ne_size hn) _ _
  subst hsplit
  refine ⟨?_, ?_, ?_, ?_, ?_, ?_, ?_, hkeys, ?_, 0 :: as, bs, ?_, ?_⟩
  · rw [hheight 0 List.mem_cons_self, h.head]
  · exact List.nodup_middle.mpr (List.nodup_cons.mpr ⟨hnew, h.nodup⟩)
  · intro n hn
    rcases List.mem_cons.mp (List.perm_middle.mem_iff.mp hn) with rfl | hn
    · exact Nat.le_refl _
    · exact Nat.le_succ_of_le (h.nodes n hn)
  · rw [List.perm_middle.length_eq, List.length_cons, hsize]
    rfl
  · intro n hn
    rcases List.mem_cons.mp (List.perm_middle.mem_iff.mp hn) with rfl | hn
    · rw [Function.update_self]
      exact ⟨hpos, Nat.le_max_right _ _⟩
    · rw [hheight n (List.mem_cons_of_mem _ hn)]
      obtain ⟨hn0, hle⟩ := h.high n hn
      exact ⟨hn0, Nat.le_trans hle (Nat.le_max_left _ _)⟩
  · exact ⟨Nat.lt_of_lt_of_le hpos (Nat.le_max_right _ _), Nat.max_le.mpr ⟨h.maxHeight.2, hmax⟩⟩
  · refine h.linked.splice (A := 0 :: as) h.nodup hnew fun i hi => ?_
    by_cases hlevel : l.maxHeight ≤ i
    · -- a new level has only the head
      rw [if_pos ⟨hlevel, hi⟩]
      refine ⟨[], as, rfl, by rw [h.head]; omega, fun n hn => ?_⟩
      have := (h.high n (List.mem_append_left _ hn)).2
      omega
    · rw [if_neg fun h => hlevel h.1]
      exact hprev i (Nat.not_le.mp hlevel)
  · intro n
    by_cases hn : n = l.size + 1
    · exact Or.inr (by simp [link, hn])
    · have hkey : (l.link e hgt prev).key n = l.key n := Function.update_of_ne hn _ _
      rw [hkey]
      exact (h.known n).imp id (List.mem_append_left _)
  · rfl
  · intro i hi0 hi
    show if i < hgt then i < Function.update height (l.size + 1) hgt (l.size + 1) else
      ¬ i < Function.update height (l.size + 1) hgt (l.size + 1) ∧ Lib.LastAbove _ i (0 :: as)
        (Function.update (fun i => if l.maxHeight ≤ i ∧ i < hgt then 0 else prev i) 0 _ i)
    rw [Function.update_self, Function.update_of_ne (Nat.ne_of_gt hi0)]
    split
    · assumption
    · rename_i hlow
      have hlevel : i < l.maxHeight := (lt_max_iff.mp hi).resolve_right hlow
      rw [if_neg fun h => hlow h.2]
      exact ⟨hlow, (hprev i hlevel).congr fun n hn => hheight n (List.mem_append_left _ hn)⟩

theorem inv_putEdge (h : Inv height order es l) (reserveNode : Nat) (e : Edge) {randomHeight : Nat}
    (hpos : 0 < randomHeight) (hmax : randomHeight ≤ kMaxHeight) :
    ∃ l' height' order', l.putEdge reserveNode e randomHeight = some l' ∧
      Inv height' order' (es ++ [e]) l' := by
  obtain ⟨prev, hpred, hprev⟩ := predecessors_spec h (sortKey e)
  have hgt : 0 < (if l.size < reserveNode then 1 else randomHeight) ∧
      (if l.size < reserveNode then 1 else randomHeight) ≤ kMaxHeight := by
    split
    · decide
    · exact ⟨hpos, hmax⟩
  exact ⟨_, _, _, by rw [putEdge, hpred, Option.map_some], inv_link h e hgt.1 hgt.2 hprev⟩

/-- Every sequence of insertions. -/
theorem inv_putEdges (reserveNode : Nat) {puts : List (Edge × Nat)} (h : Inv height order es l)
    (hheights : ∀ p ∈ puts, 0 < p.2 ∧ p.2 ≤ kMaxHeight) :
    ∃ l' height' order', l.putEdges reserveNode puts = some l' ∧
      Inv height' order' (es ++ puts.map Prod.fst) l' := by
  induction puts generalizing l height order es with
  | nil => exact ⟨l, height, order, rfl, by simpa using h⟩
  | cons p puts ih =>
    obtain ⟨hp, hputs⟩ := List.forall_mem_cons.mp hheights
    obtain ⟨l₁, height₁, order₁, hput, h₁⟩ := inv_putEdge h reserveNode p.1 hp.1 hp.2
    obtain ⟨l', height', order', hputs', h'⟩ := ih h₁ hputs
    refine ⟨l', height', order', ?_, by simpa using h'⟩
    rw [putEdges, hput]
    exact hputs'

/-! ## The lookup -/

/-- Where no key is equal, both searches take the same way. -/
theorem findGreaterOrEqualFrom_eq (hne : ∀ n, EdgeComparator.compare (sortKey (l.key n)) key ≠ 0)
    (fuel x i : Nat) {lastBigger : Option Nat} (prev : Nat → Nat)
    (hlast : l.keyIsAfterNode key lastBigger = false) :
    l.findGreaterOrEqualFrom key fuel x i lastBigger =
      (l.findLessThanFrom key fuel x i lastBigger prev).map fun prev => l.next 0 (prev 0) := by
  induction fuel generalizing x i lastBigger prev with
  | zero => rfl
  | succ fuel ih =>
    by_cases hafter : l.keyIsAfterNode key (l.next i x)
    · cases hn : l.next i x with
      | none => simp [hn, keyIsAfterNode] at hafter
      | some n =>
        have hother : some n ≠ lastBigger := by
          rintro rfl
          rw [hn, hlast] at hafter
          cases hafter
        have hcmp : l.cmpNext key lastBigger (some n) < 0 := by
          rw [cmpNext, if_neg hother]
          simpa [hn, keyIsAfterNode] using hafter
        rw [findGreaterOrEqualFrom, hn, if_neg (by omega), if_pos hcmp, findLessThanFrom,
          if_pos ⟨hn ▸ hother, hafter⟩, hn]
        exact ih n i prev hlast
    · -- no lesser node follows on the level
      have hcmp : 0 < l.cmpNext key lastBigger (l.next i x) := by
        cases hn : l.next i x with
        | none => exact Int.one_pos
        | some n =>
          have hge : ¬ EdgeComparator.compare (sortKey (l.key n)) key < 0 := by
            simpa [hn, keyIsAfterNode] using hafter
          have := hne n
          rw [cmpNext]
          split <;> omega
      cases i with
      | zero =>
        rw [findGreaterOrEqualFrom, if_pos (Or.inr ⟨hcmp, rfl⟩), findLessThanFrom,
          if_neg fun h => hafter h.2]
        simp
      | succ i =>
        rw [findGreaterOrEqualFrom, if_neg (by omega), if_neg (by omega), findLessThanFrom,
          if_neg fun h => hafter h.2]
        exact ih x i _ (by simpa using hafter)

/-- On the lowest level every node is linked. -/
theorem Inv.find?_eq_head? (h : Inv height order es l) {A B : List Nat}
    (horder : 0 :: order = A ++ B) : (B.find? fun n => decide (0 < height n)) = B.head? := by
  cases B with
  | nil => rfl
  | cons b B => exact List.find?_cons_of_pos (by simpa using h.pos (horder ▸ by simp))

/-- The search finds the first node that is not less. -/
theorem findGreaterOrEqual_eq (h : Inv height order es l)
    (hne : ∀ n, EdgeComparator.compare (sortKey (l.key n)) key ≠ 0) :
    l.findGreaterOrEqual key = some (order.dropWhile (l.before key)).head? := by
  obtain ⟨prev, heq, hprev⟩ := h.findLessThan key
  have hlast := hprev 0 h.maxHeight.1
  unfold findGreaterOrEqual
  have horder : 0 :: order = (0 :: order).takeWhile (l.before key) ++
      order.dropWhile (l.before key) := by
    rw [List.takeWhile_cons_of_pos rfl, List.cons_append, List.takeWhile_append_dropWhile]
  have hfirst := h.find?_eq_head? horder
  have hnext := hlast.next_eq (horder ▸ h.linked)
  rw [findGreaterOrEqualFrom_eq hne l.turns 0 (l.maxHeight - 1) l.prev rfl, ← hfirst, ← hnext]
  exact congrArg (Option.map fun prev : Nat → Nat => l.next 0 (prev 0)) heq

/-- The loop reads the nodes one after the other. -/
theorem getFrom_eq (h : Inv height order es l) (dst : Nat) (isOut : Bool) (edgeType : UInt8)
    {A B : List Nat} (horder : 0 :: order = A ++ B) {fuel : Nat} (hfuel : B.length < fuel) :
    l.getFrom dst isOut edgeType fuel B.head? = some (((B.map l.key).takeWhile fun e =>
      e.destination = dst).find? fun e => e.isOut == isOut && e.edgeType == edgeType) := by
  induction B generalizing A fuel with
  | nil =>
    obtain ⟨fuel, rfl⟩ := Nat.exists_eq_succ_of_ne_zero (Nat.ne_of_gt hfuel)
    rfl
  | cons b B ih =>
    obtain ⟨fuel, rfl⟩ := Nat.exists_eq_succ_of_ne_zero (Nat.ne_of_gt (Nat.zero_lt_of_lt hfuel))
    have hrest := ih (A := A ++ [b]) (by simpa using horder) (Nat.lt_of_succ_lt_succ hfuel)
    have hnext : l.next 0 b = B.head? := by
      rw [h.linked 0 A b B horder (h.pos (horder ▸ by simp))]
      exact h.find?_eq_head? (A := A ++ [b]) (by simpa using horder)
    rw [List.head?_cons, getFrom, List.map_cons]
    by_cases hdst : (l.key b).destination = dst
    · rw [if_pos hdst, List.takeWhile_cons_of_pos (by simpa using hdst), hnext, hrest]
      by_cases hkey : (l.key b).isOut = isOut ∧ (l.key b).edgeType = edgeType
      · rw [if_pos hkey, List.find?_cons_of_pos (by simpa using hkey)]
      · rw [if_neg hkey, List.find?_cons_of_neg (by simpa using hkey)]
    · rw [if_neg hdst, List.takeWhile_cons_of_neg (by simpa using hdst)]
      rfl

/-- `get` is the lookup in the list of the edges. -/
theorem get_eq (h : Inv height order es l) (hseq : ∀ e ∈ es, e.sequence < maxSeqId) (dst : Nat)
    (isOut : Bool) (edgeType : UInt8) (hs : (order.map l.key).Pairwise Edge.le) :
    l.get dst isOut edgeType =
      some ((NewEdgeSL.list (order.map l.key) hs).get dst isOut edgeType) := by
  have hne : ∀ n, EdgeComparator.compare (sortKey (l.key n)) (dst, maxSeqId) ≠ 0 := by
    intro n
    have hlt : (l.key n).sequence < maxSeqId := by
      rcases h.known n with hn | hn
      · rw [hn]
        decide
      · exact hseq _ hn
    unfold EdgeComparator.compare sortKey
    dsimp only
    split_ifs <;> omega
  have hless : ∀ n ∈ order, l.before (dst, maxSeqId) n = (decide ((l.key n).destination < dst) ||
      (l.key n).destination == dst && decide (maxSeqId < (l.key n).sequence)) := by
    intro n hn
    have hn0 : n ≠ 0 := fun h0 => (List.nodup_cons.mp h.nodup).1 (h0 ▸ hn)
    rw [Bool.eq_iff_iff]
    simp [before, keyIsAfterNode, sortKey, compare_neg_iff, hn0]
  obtain ⟨-, hdrop⟩ := Lib.takeWhile_dropWhile_congr hless
  have hlen := (List.dropWhile_sublist (l.before (dst, maxSeqId)) (l := order)).length_le
  rw [h.length] at hlen
  unfold get
  rw [findGreaterOrEqual_eq h hne, Option.bind_eq_bind, Option.bind_some,
    getFrom_eq h dst isOut edgeType (A := 0 :: order.takeWhile (l.before (dst, maxSeqId)))
      (by rw [List.cons_append, List.takeWhile_append_dropWhile]) (Nat.lt_succ_of_le hlen), hdrop]
  simp only [NewEdgeSL.get, List.dropWhile_map]
  rfl

/-- After any insertions, of equal keys too and with any heights, every level is a sorted part of
the level below, the lowest has the edges that were put, and a lookup gives the newest edge of its
key. -/
theorem levels_are_sorted_and_lookups_give_the_newest (reserveNode : Nat)
    (puts : List (Edge × Nat)) (hheights : ∀ p ∈ puts, 0 < p.2 ∧ p.2 ≤ kMaxHeight) :
    ∃ (l : SkipList) (levels : Nat → List Nat), empty.putEdges reserveNode puts = some l ∧
      (∀ i < kMaxHeight, Lib.Chain (l.next i) 0 (levels i)) ∧
      (∀ i, (levels (i + 1)).Sublist (levels i)) ∧
      (∀ i, ((levels i).map l.key).Pairwise Edge.le) ∧
      ((levels 0).map l.key).Perm (puts.map Prod.fst) ∧
      ((∀ p ∈ puts, p.1.sequence < maxSeqId) → ∀ k : EdgeKey, ∃ o,
        l.get k.dst k.isOut k.edgeType = some o ∧
          Lib.Newest (NewEdgeSL.keyOf k.src) Edge.sequence (puts.map Prod.fst) k o) := by
  obtain ⟨l, height, order, hputs, h⟩ := inv_putEdges reserveNode inv_empty hheights
  rw [List.nil_append] at h
  have hsorted : (order.map l.key).Pairwise Edge.le := h.keys ▸ List.pairwise_insertionSort _ _
  have hperm : (order.map l.key).Perm (puts.map Prod.fst) := by
    rw [h.keys]
    exact (List.perm_insertionSort _ _).trans (List.reverse_perm _)
  refine ⟨l, fun i => order.filter fun n => decide (i < height n), hputs, ?_, ?_, ?_, ?_, ?_⟩
  · intro i hi
    exact h.linked.chain (C := []) (A := []) (by rwa [h.head]) rfl (by simp)
  · intro i
    refine List.monotone_filter_right _ fun n hn => ?_
    simp only [decide_eq_true_eq] at hn ⊢
    omega
  · intro i
    exact hsorted.sublist (List.filter_sublist.map _)
  · have hall : order.filter (fun n => decide (0 < height n)) = order :=
      List.filter_eq_self.mpr fun n hn => by simpa using (h.high n hn).1
    simpa only [hall] using hperm
  · intro hseq k
    have hseq' : ∀ e ∈ puts.map Prod.fst, e.sequence < maxSeqId := by simpa using hseq
    refine ⟨_, get_eq h hseq' k.dst k.isOut k.edgeType hsorted, ?_⟩
    rw [NewEdgeSL.get_list hsorted fun e he => hseq' e (hperm.mem_iff.mp he)]
    exact (NewEdgeSL.newest_first hsorted k).congr fun e => hperm.mem_iff

/-- Two edges with one key and one sequence, and an edge before them. -/
def threePuts : List (Edge × Nat) :=
  [(⟨5, 7, false, [1], true, 0⟩, 2), (⟨5, 7, false, [2], true, 0⟩, 4),
    (⟨3, 1, true, [], true, 0⟩, 1)]

theorem equal_keys_are_put_before_each_other : ∃ (l : SkipList) (levels : Nat → List Nat),
    empty.putEdges 1 threePuts = some l ∧
      ((levels 0).map l.key).Perm (threePuts.map Prod.fst) := by
  obtain ⟨l, levels, hputs, -, -, -, hperm, -⟩ :=
    levels_are_sorted_and_lookups_give_the_newest 1 threePuts (by decide)
  exact ⟨l, levels, hputs, hperm⟩

example : ((empty.putEdges 1 threePuts).bind fun l => l.get 5 true 0) =
    some (some ⟨5, 7, false, [2], true, 0⟩) := by decide

/-! ## The list of the memtable -/

theorem insertAll_list {reserveNode : Nat} {es : List Edge} (h : reserveNode < es.length) :
    NewEdgeSL.insertAll reserveNode es =
      .list (es.reverse.insertionSort Edge.le) (List.pairwise_insertionSort _ _) := by
  induction es using List.reverseRecOn with
  | nil => exact absurd h (Nat.not_lt_zero _)
  | append_singleton es e ih =>
    rw [List.length_append, List.length_singleton] at h
    rw [NewEdgeSL.insertAll_append]
    rcases NewEdgeSL.insertAll_cases reserveNode es with ⟨hle, heq⟩ | ⟨hlt, -⟩
    · rw [heq, NewEdgeSL.putEdge, if_pos (by omega)]
    · simp only [ih hlt, NewEdgeSL.putEdge, List.reverse_append, List.reverse_singleton,
        List.singleton_append, List.insertionSort_cons]

/-- The nodes and pointers hold the list that the memtable's model has after the same insertions,
and both give the same edge for every key. -/
theorem the_skip_list_holds_the_list_of_the_memtable (reserveNode : Nat) (puts : List (Edge × Nat))
    (hheights : ∀ p ∈ puts, 0 < p.2 ∧ p.2 ≤ kMaxHeight) (hfull : reserveNode < puts.length) :
    ∃ (l : SkipList) (order : List Nat), empty.putEdges reserveNode puts = some l ∧
      Lib.Chain (l.next 0) 0 order ∧
      order.map l.key = (NewEdgeSL.insertAll reserveNode (puts.map Prod.fst)).edges ∧
      ((∀ p ∈ puts, p.1.sequence < maxSeqId) → ∀ k : EdgeKey, l.get k.dst k.isOut k.edgeType =
        some ((NewEdgeSL.insertAll reserveNode (puts.map Prod.fst)).get
          k.dst k.isOut k.edgeType)) := by
  obtain ⟨l, height, order, hputs, h⟩ := inv_putEdges reserveNode inv_empty hheights
  rw [List.nil_append] at h
  have hlist : NewEdgeSL.insertAll reserveNode (puts.map Prod.fst) = _ :=
    insertAll_list (by rwa [List.length_map])
  have hsorted : (order.map l.key).Pairwise Edge.le := h.keys ▸ List.pairwise_insertionSort _ _
  have hall : order.filter (fun n => decide (0 < height n)) = order :=
    List.filter_eq_self.mpr fun n hn => by simpa using (h.high n hn).1
  refine ⟨l, order, hputs, ?_, by rw [hlist]; exact h.keys, fun hseq k => ?_⟩
  · have hchain := h.linked.chain (C := []) (A := []) (i := 0)
      (by rw [h.head]; decide) rfl (by simp)
    rwa [hall] at hchain
  · have hseq' : ∀ e ∈ puts.map Prod.fst, e.sequence < maxSeqId := by simpa using hseq
    rw [get_eq h hseq' k.dst k.isOut k.edgeType hsorted, hlist]
    simp only [h.keys]

theorem three_puts_are_the_list_of_the_memtable : ∃ (l : SkipList) (order : List Nat),
    empty.putEdges 1 threePuts = some l ∧
      order.map l.key = (NewEdgeSL.insertAll 1 (threePuts.map Prod.fst)).edges := by
  obtain ⟨l, order, hputs, -, hkeys, -⟩ :=
    the_skip_list_holds_the_list_of_the_memtable 1 threePuts (by decide) (by decide)
  exact ⟨l, order, hputs, hkeys⟩

end SkipList

end RichGraph
