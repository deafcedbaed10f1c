-- The memtable: adjacency lists that start as a small array and become a skip
-- list, the lookup in each form, and the file that a flush writes.
import RichGraph.SSTable
import RichGraph.Lib.Lists
import Mathlib.Data.List.Sort
import Mathlib.Data.List.AList

namespace RichGraph

/-- `NewEdgeSL`: an array in the order of the inserts, or a skip list in key order. -/
inductive NewEdgeSL where
  | array (edges : List Edge)
  | list (edges : List Edge) (sorted : edges.Pairwise Edge.le)

namespace NewEdgeSL

def edges : NewEdgeSL → List Edge
  | array es => es
  | list es _ => es

/-- `put_edge`. A full array moves to a skip list, entry by entry and then the new edge. The
skip list puts an edge before the edges that are not less. -/
def putEdge (reserveNode : Nat) (e : Edge) : NewEdgeSL → NewEdgeSL
  | array es =>
    if es.length = reserveNode then
      .list ((es ++ [e]).reverse.insertionSort Edge.le) (List.pairwise_insertionSort _ _)
    else .array (es ++ [e])
  | list es h => .list (es.orderedInsert Edge.le e) (h.orderedInsert e es)

/-- `get`: the array from its end, the skip list from the first edge that is not before
`MAX_SEQ_ID` of the destination. The skip list may stop at another of several edges that are equal
to that key. -/
def get (dst : Nat) (isOut : Bool) (edgeType : UInt8) : NewEdgeSL → Option Edge
  | array es => es.reverse.find? fun e =>
      e.destination == dst && e.isOut == isOut && e.edgeType == edgeType
  | list es _ =>
    -- `FindGreaterOrEqual(Edge(dst, MAX_SEQ_ID))`
    let from_ := es.dropWhile fun e =>
      e.destination < dst || e.destination == dst && maxSeqId < e.sequence
    (from_.takeWhile fun e => e.destination = dst).find? fun e =>
      e.isOut == isOut && e.edgeType == edgeType

/-- `sort`, which a flush calls before it writes: destinations up, sequences down, in place.
A skip list has that order already. -/
def sort : NewEdgeSL → NewEdgeSL
  | array es => .array (es.insertionSort Edge.le)
  | list es h => .list es h

theorem edges_putEdge_perm (reserveNode : Nat) (e : Edge) (a : NewEdgeSL) :
    (a.putEdge reserveNode e).edges.Perm (e :: a.edges) := by
  cases a with
  | array es =>
    by_cases hfull : es.length = reserveNode
    · simp only [putEdge, if_pos hfull]
      exact (List.perm_insertionSort Edge.le _).trans ((List.reverse_perm _).trans
        (List.perm_append_singleton e es))
    · simp only [putEdge, if_neg hfull]
      exact List.perm_append_singleton e es
  | list es h => exact List.perm_orderedInsert Edge.le e es

theorem mem_edges_putEdge {reserveNode : Nat} {e x : Edge} {a : NewEdgeSL} :
    x ∈ (a.putEdge reserveNode e).edges ↔ x = e ∨ x ∈ a.edges := by
  rw [(edges_putEdge_perm reserveNode e a).mem_iff, List.mem_cons]

theorem edges_sort_perm (a : NewEdgeSL) : a.sort.edges.Perm a.edges := by
  cases a with
  | array es => exact List.perm_insertionSort _ _
  | list es h => exact List.Perm.refl _

theorem sorted_sort (a : NewEdgeSL) : a.sort.edges.Pairwise Edge.le := by
  cases a with
  | array es => exact List.pairwise_insertionSort _ _
  | list es h => exact h

/-! ## The lookup in an adjacency list -/

def SameKey (a b : Edge) : Prop :=
  a.destination = b.destination ∧ a.isOut = b.isOut ∧ a.edgeType = b.edgeType

instance : DecidableRel SameKey := fun _ _ => inferInstanceAs (Decidable (_ ∧ _))

/-- In an array the later of two edges of one key is the newer one, and a skip list starts its
search before every edge of a destination. -/
structure Rising (a : NewEdgeSL) : Prop where
  below : ∀ e ∈ a.edges, e.sequence < maxSeqId
  later : ∀ es, a = .array es → es.Pairwise fun a b => SameKey a b → a.sequence ≤ b.sequence

/-- An array has no two edges of one key. -/
def OneVersionEach : NewEdgeSL → Prop
  | array es => es.Pairwise fun a b => ¬ SameKey a b
  | list _ _ => True

instance (a : NewEdgeSL) : Decidable a.OneVersionEach := by
  cases a <;> unfold OneVersionEach <;> infer_instance

theorem rising_nil : (array []).Rising where
  below := by simp [edges]
  later := by
    rintro es ⟨⟩
    exact List.Pairwise.nil

theorem rising_putEdge {reserveNode : Nat} {e : Edge} {a : NewEdgeSL} (h : a.Rising)
    (he : e.sequence < maxSeqId) (hnew : ∀ x ∈ a.edges, x.sequence ≤ e.sequence) :
    (a.putEdge reserveNode e).Rising where
  below x hx := by
    rcases mem_edges_putEdge.mp hx with rfl | hx
    · exact he
    · exact h.below x hx
  later es' heq := by
    cases a with
    | list es hs => cases heq
    | array es =>
      simp only [putEdge] at heq
      split at heq
      · cases heq
      · cases heq
        refine List.pairwise_append.mpr ⟨h.later es rfl, List.pairwise_singleton _ _, ?_⟩
        intro x hx y hy _
        rw [List.mem_singleton.mp hy]
        exact hnew x hx

theorem rising_sort {a : NewEdgeSL} (hseq : ∀ e ∈ a.edges, e.sequence < maxSeqId)
    (h : a.OneVersionEach) : a.sort.Rising where
  below e he := hseq e ((edges_sort_perm a).mem_iff.mp he)
  later es' heq := by
    cases a with
    | list es hs => cases heq
    | array es =>
      cases heq
      have hsymm : ∀ {x y : Edge}, ¬ SameKey x y → ¬ SameKey y x :=
        fun hxy hyx => hxy ⟨hyx.1.symm, hyx.2.1.symm, hyx.2.2.symm⟩
      have := h.perm (List.perm_insertionSort Edge.le es).symm hsymm
      exact this.imp fun hne hsame => absurd hsame hne

theorem mem_edges_of_get {dst : Nat} {isOut : Bool} {edgeType : UInt8} {a : NewEdgeSL} {e : Edge}
    (h : a.get dst isOut edgeType = some e) : e ∈ a.edges := by
  cases a with
  | array es => exact List.mem_reverse.mp (List.mem_of_find?_eq_some h)
  | list es hs =>
    have := List.mem_of_find?_eq_some h
    exact (List.dropWhile_sublist _).mem ((List.takeWhile_sublist _).mem this)

theorem key_of_get {dst : Nat} {isOut : Bool} {edgeType : UInt8} {a : NewEdgeSL} {e : Edge}
    (h : a.get dst isOut edgeType = some e) :
    e.destination = dst ∧ e.isOut = isOut ∧ e.edgeType = edgeType := by
  cases a with
  | array es =>
    have := List.find?_some h
    simpa [and_assoc] using this
  | list es hs =>
    have hdst := List.mem_takeWhile_imp (List.mem_of_find?_eq_some h)
    have := List.find?_some h
    simp_all

theorem key_eq_iff {lengths : List Nat} {e : Edge} {k : EdgeKey} :
    (e.toRecord lengths k.src).key = k ↔
      e.destination = k.dst ∧ e.isOut = k.isOut ∧ e.edgeType = k.edgeType := by
  obtain ⟨src, dst, isOut, edgeType⟩ := k
  simp [EdgeRecord.key, Edge.toRecord]

/-- The skip list finds the first edge of the key. -/
theorem get_list {es : List Edge} (hs : es.Pairwise Edge.le)
    (hseq : ∀ e ∈ es, e.sequence < maxSeqId) (dst : Nat) (isOut : Bool)
    (edgeType : UInt8) : (list es hs).get dst isOut edgeType = es.find? fun e =>
      decide (e.destination = dst) && (e.isOut == isOut && e.edgeType == edgeType) := by
  have hbefore : ∀ e ∈ es, (decide (e.destination < dst) ||
      e.destination == dst && decide (maxSeqId < e.sequence)) = !decide (dst ≤ e.destination) := by
    intro e he
    have hfit : ¬ maxSeqId < e.sequence := Nat.lt_asymm (hseq e he)
    by_cases hle : dst ≤ e.destination
    · simp [hle, hfit, Nat.not_lt.mpr hle]
    · simp [hle, Nat.lt_of_not_le hle]
  have hdst : es.Pairwise fun a b => a.destination ≤ b.destination := by
    refine hs.imp ?_
    rintro a b (h | ⟨h, -⟩)
    · exact Nat.le_of_lt h
    · exact Nat.le_of_eq h
  have hmono : es.Pairwise fun a b => (!decide (dst ≤ b.destination)) = true →
      (!decide (dst ≤ a.destination)) = true := by
    refine hdst.imp fun hab hb => ?_
    simp only [Bool.not_eq_true', decide_eq_false_iff_not] at hb ⊢
    omega
  obtain ⟨hfirst, hdrop⟩ := Lib.lowerBound_not hmono (Nat.le_refl _)
  simp only [Bool.not_not] at hfirst
  simp only [get, (Lib.takeWhile_dropWhile_congr hbefore).2]
  rw [← hdrop, ← hfirst]
  exact Lib.find?_group dst hdst (Nat.le_refl _)

/-- The key of an edge of `src`. -/
def keyOf (src : Nat) (e : Edge) : EdgeKey := ⟨src, e.destination, e.isOut, e.edgeType⟩

/-- In key order the first edge of a key is the newest. -/
theorem newest_first {es : List Edge} (hs : es.Pairwise Edge.le) (k : EdgeKey) :
    Lib.Newest (keyOf k.src) Edge.sequence es k (es.find? fun e =>
      decide (e.destination = k.dst) && (e.isOut == k.isOut && e.edgeType == k.edgeType)) := by
  obtain ⟨src, dst, isOut, edgeType⟩ := k
  apply Lib.newest_find?
  · simp [keyOf]
  · refine hs.imp ?_
    rintro x y (hlt | ⟨-, hle⟩) hx hy
    · rw [← hy] at hx
      simp only [keyOf, EdgeKey.mk.injEq] at hx
      omega
    · exact hle

/-- The lookup returns the newest edge of the key. -/
theorem newest_get {lengths : List Nat} {a : NewEdgeSL} (k : EdgeKey) (h : a.Rising) :
    Lib.Newest EdgeRecord.key EdgeRecord.seq (a.edges.map (Edge.toRecord lengths k.src)) k
      ((a.get k.dst k.isOut k.edgeType).map (Edge.toRecord lengths k.src)) := by
  apply Lib.Newest.map
  cases a with
  | array es =>
    simp only [get, edges]
    have hrev : Lib.Newest (fun e : Edge => (e.toRecord lengths k.src).key)
        (fun e => (e.toRecord lengths k.src).seq) es.reverse k (es.reverse.find? fun e =>
          e.destination == k.dst && e.isOut == k.isOut && e.edgeType == k.edgeType) := by
      apply Lib.newest_find?
      · intro e _
        rw [key_eq_iff]
        simp [and_assoc]
      · rw [List.pairwise_reverse]
        refine (h.later es rfl).imp ?_
        intro x y hxy hy hx
        rw [key_eq_iff] at hx hy
        apply hxy
        simp only [SameKey, hx, hy, and_self]
    exact hrev.congr fun e => List.mem_reverse
  | list es hs =>
    rw [get_list hs h.below]
    exact newest_first hs k

theorem get_array_eq_none_iff (lengths : List Nat) {es : List Edge} {k : EdgeKey} :
    (array es).get k.dst k.isOut k.edgeType = none ↔
      ∀ e ∈ es, (e.toRecord lengths k.src).key ≠ k := by
  simp only [get, ne_eq, key_eq_iff]
  simp [List.find?_eq_none]

/-- The lookup misses only a key without an edge, in any order of the array. -/
theorem get_eq_none_iff (lengths : List Nat) {a : NewEdgeSL} {k : EdgeKey}
    (hseq : ∀ e ∈ a.edges, e.sequence < maxSeqId) :
    a.get k.dst k.isOut k.edgeType = none ↔
      ∀ e ∈ a.edges, (e.toRecord lengths k.src).key ≠ k := by
  cases a with
  | array es => exact get_array_eq_none_iff lengths
  | list es hs =>
    rw [get_list hs hseq]
    simp only [edges, ne_eq, key_eq_iff]
    simp [List.find?_eq_none]

end NewEdgeSL

/-- A memtable. `vertexAdjs` has no entry where the source has a null pointer. -/
structure MemTable where
  fid : Nat
  remainCapacity : Nat
  listLength : Nat
  vertexAdjs : AList fun _ : Nat => NewEdgeSL

namespace MemTable

/-- The table that `get_newmemTable` hands out, with room for `maxEdgeNum` edges. -/
def fresh (fid maxEdgeNum : Nat) : MemTable := ⟨fid, maxEdgeNum, 0, ∅⟩

/-- The adjacency list of a source; without an entry it answers as an empty one. -/
def adj (t : MemTable) (src : Nat) : NewEdgeSL := (t.vertexAdjs.lookup src).getD (.array [])

/-- `put_edge`, after the store has taken a slot of the table. -/
def putEdge (reserveNode src : Nat) (e : Edge) (t : MemTable) : MemTable :=
  { t with
    remainCapacity := t.remainCapacity - 1
    listLength := t.listLength + 1
    vertexAdjs := t.vertexAdjs.insert src ((t.adj src).putEdge reserveNode e) }

def get (t : MemTable) (k : EdgeKey) : Option Edge := (t.adj k.src).get k.dst k.isOut k.edgeType

/-- The records that the table holds for a source. -/
def recordsOf (lengths : List Nat) (src : Nat) (t : MemTable) : List EdgeRecord :=
  (t.adj src).edges.map (Edge.toRecord lengths src)

/-- The flush sorts the adjacency list of one source in place. -/
def sortAdjacency (src : Nat) (t : MemTable) : MemTable :=
  match t.vertexAdjs.lookup src with
  | none => t
  | some a => { t with vertexAdjs := t.vertexAdjs.insert src a.sort }

/-- The sources that the flush finds, in order. -/
def vertexSet (vertexNum : Nat) (t : MemTable) : List Nat :=
  (List.range vertexNum).filter fun v => (t.vertexAdjs.lookup v).isSome

/-- What the flush writes for one source. -/
def flushed (lengths : List Nat) (src : Nat) (t : MemTable) : List EdgeRecord :=
  (t.adj src).sort.edges.map (Edge.toRecord lengths src)

variable {t : MemTable}

theorem adj_putEdge (reserveNode src v : Nat) (e : Edge) :
    (t.putEdge reserveNode src e).adj v =
      if v = src then (t.adj src).putEdge reserveNode e else t.adj v := by
  unfold putEdge adj
  by_cases h : v = src
  · subst h
    simp [AList.lookup_insert]
  · simp [AList.lookup_insert_ne h, h]

theorem adj_sortAdjacency (src v : Nat) :
    (t.sortAdjacency src).adj v = if v = src then (t.adj src).sort else t.adj v := by
  unfold sortAdjacency
  cases hl : t.vertexAdjs.lookup src with
  | none =>
    by_cases h : v = src
    · subst h
      simp [adj, hl, NewEdgeSL.sort]
    · simp [h]
  | some a =>
    by_cases h : v = src
    · subst h
      simp [adj, AList.lookup_insert, hl]
    · simp [adj, AList.lookup_insert_ne h, h]

theorem fid_sortAdjacency (t : MemTable) (src : Nat) : (t.sortAdjacency src).fid = t.fid := by
  unfold sortAdjacency
  split <;> rfl

theorem isSome_lookup_sortAdjacency {src v : Nat}
    (h : ((t.sortAdjacency src).vertexAdjs.lookup v).isSome) : (t.vertexAdjs.lookup v).isSome := by
  unfold sortAdjacency at h
  split at h
  · exact h
  · rename_i a ha
    by_cases hv : v = src
    · rw [hv, ha]
      rfl
    · rwa [AList.lookup_insert_ne hv] at h

/-- Every adjacency list has an edge: it is made by a put. -/
def Listed (t : MemTable) : Prop := ∀ v, (t.vertexAdjs.lookup v).isSome → (t.adj v).edges ≠ []

theorem listed_fresh (fid maxEdgeNum : Nat) : (fresh fid maxEdgeNum).Listed := by
  intro v hv
  simp [fresh] at hv

theorem listed_putEdge {reserveNode src : Nat} {e : Edge} (h : t.Listed) :
    (t.putEdge reserveNode src e).Listed := by
  intro v hv hnil
  rw [adj_putEdge] at hnil
  split at hnil
  · have hlen := (NewEdgeSL.edges_putEdge_perm reserveNode e (t.adj src)).length_eq
    rw [hnil] at hlen
    cases hlen
  · rename_i hne
    refine h v ?_ hnil
    rwa [putEdge, AList.lookup_insert_ne hne] at hv

theorem recordsOf_putEdge_perm (lengths : List Nat) (reserveNode src : Nat) (e : Edge) :
    ((t.putEdge reserveNode src e).recordsOf lengths src).Perm
      (e.toRecord lengths src :: t.recordsOf lengths src) := by
  unfold recordsOf
  rw [adj_putEdge, if_pos rfl]
  exact (NewEdgeSL.edges_putEdge_perm reserveNode e _).map _

theorem recordsOf_putEdge_of_ne {lengths : List Nat} {reserveNode src v : Nat} {e : Edge}
    (h : v ≠ src) : (t.putEdge reserveNode src e).recordsOf lengths v = t.recordsOf lengths v := by
  unfold recordsOf
  rw [adj_putEdge, if_neg h]

theorem recordsOf_sortAdjacency_perm (lengths : List Nat) (src v : Nat) :
    ((t.sortAdjacency src).recordsOf lengths v).Perm (t.recordsOf lengths v) := by
  unfold recordsOf
  rw [adj_sortAdjacency]
  by_cases h : v = src
  · subst h
    rw [if_pos rfl]
    exact (NewEdgeSL.edges_sort_perm _).map _
  · rw [if_neg h]

/-- The lookup in a table returns the newest record that the table holds for the key. -/
theorem newest_get {lengths : List Nat} (k : EdgeKey) (h : (t.adj k.src).Rising) :
    Lib.Newest EdgeRecord.key EdgeRecord.seq (t.recordsOf lengths k.src) k
      ((t.get k).map (Edge.toRecord lengths k.src)) :=
  NewEdgeSL.newest_get k h

/-! ## The flush -/

theorem flushed_perm (lengths : List Nat) (v : Nat) :
    (t.flushed lengths v).Perm (t.recordsOf lengths v) :=
  (NewEdgeSL.edges_sort_perm _).map _

theorem flushed_src (lengths : List Nat) (v : Nat) : ∀ r ∈ t.flushed lengths v, r.src = v := by
  intro r hr
  obtain ⟨e, -, rfl⟩ := List.mem_map.mp hr
  rfl

theorem pairwise_flushed (lengths : List Nat) (v : Nat) :
    (t.flushed lengths v).Pairwise EdgeRecord.le := by
  unfold flushed
  rw [List.pairwise_map]
  exact (NewEdgeSL.sorted_sort _).imp Edge.toRecord_le

theorem src_lt_of_mem_flushed {lengths : List Nat} {vertexNum : Nat}
    (hv : vertexNum ≤ invalidVertexId) (r : EdgeRecord)
    (hr : r ∈ (t.vertexSet vertexNum).flatMap fun v => t.flushed lengths v) :
    r.src < invalidVertexId := by
  obtain ⟨v, hvs, hr⟩ := List.mem_flatMap.mp hr
  obtain ⟨e, -, rfl⟩ := List.mem_map.mp hr
  have := List.mem_range.mp (List.mem_of_mem_filter hvs)
  exact Nat.lt_of_lt_of_le this hv

theorem pairwise_vertexSet (vertexNum : Nat) : (t.vertexSet vertexNum).Pairwise (· < ·) :=
  List.pairwise_lt_range.filter _

/-- `save2eSSTable_split_property`. The process exits when the sources below `vertexNum` are
not all the sources of the table, or their edges not all its edges. An adjacency list has at
least one edge, so a table without a source has no record. -/
def save2eSSTable (lengths : List Nat) (vertexNum : Nat) (hv : vertexNum ≤ invalidVertexId)
    (t : MemTable) : Option SSTable :=
  let records := (t.vertexSet vertexNum).flatMap fun v => t.flushed lengths v
  if h : (t.vertexSet vertexNum).length = t.vertexAdjs.keys.length ∧
      records.length = t.listLength ∧ records ≠ [] then
    some ⟨t.fid, records, h.2.2,
      EdgeRecord.pairwise_flatMap (pairwise_vertexSet vertexNum) (flushed_src lengths)
        (pairwise_flushed lengths), src_lt_of_mem_flushed hv⟩
  else none

theorem adj_eq_empty_of_lookup {v : Nat} (h : t.vertexAdjs.lookup v = none) :
    t.adj v = .array [] := by
  simp [adj, h]

theorem mem_vertexSet_of_all {vertexNum : Nat}
    (h : (t.vertexSet vertexNum).length = t.vertexAdjs.keys.length) {v : Nat}
    (hv : (t.vertexAdjs.lookup v).isSome) : v ∈ t.vertexSet vertexNum := by
  have hsub : (t.vertexSet vertexNum).Subperm t.vertexAdjs.keys := by
    apply List.subperm_of_subset
    · exact (pairwise_vertexSet vertexNum).imp Nat.ne_of_lt
    · intro w hw
      have := List.of_mem_filter hw
      exact AList.mem_keys.mp (AList.lookup_isSome.mp this)
  have hperm := hsub.perm_of_length_le (Nat.le_of_eq h.symm)
  exact hperm.mem_iff.mpr (AList.mem_keys.mp (AList.lookup_isSome.mp hv))

variable {lengths : List Nat} {vertexNum : Nat} {hv : vertexNum ≤ invalidVertexId} {f : SSTable}

theorem save2eSSTable_cases (h : t.save2eSSTable lengths vertexNum hv = some f) :
    f.timeStamp = t.fid ∧ (t.vertexSet vertexNum).length = t.vertexAdjs.keys.length ∧
      f.records = (t.vertexSet vertexNum).flatMap (fun v => t.flushed lengths v) ∧
      f.records.length = t.listLength := by
  unfold save2eSSTable at h
  simp only at h
  split at h
  · rename_i hall
    cases h
    exact ⟨rfl, hall.1, rfl, hall.2.1⟩
  · cases h

/-- The file has the id of the table and the records of the table. -/
theorem save2eSSTable_spec (h : t.save2eSSTable lengths vertexNum hv = some f) :
    f.timeStamp = t.fid ∧ ∀ v, (f.recordsOf v).Perm (t.recordsOf lengths v) := by
  obtain ⟨hfid, hkeys, hrecords, -⟩ := save2eSSTable_cases h
  refine ⟨hfid, fun v => ?_⟩
  unfold SSTable.recordsOf
  rw [hrecords, Lib.filter_flatMap_of_key ((pairwise_vertexSet vertexNum).imp Nat.ne_of_lt)
    (flushed_src lengths)]
  split
  · exact flushed_perm lengths v
  · rename_i hnot
    have hnone : t.vertexAdjs.lookup v = none := by
      cases hl : t.vertexAdjs.lookup v with
      | none => rfl
      | some a => exact absurd (mem_vertexSet_of_all hkeys (by simp [hl])) hnot
    simp [recordsOf, adj_eq_empty_of_lookup hnone, NewEdgeSL.edges]

end MemTable

end RichGraph
