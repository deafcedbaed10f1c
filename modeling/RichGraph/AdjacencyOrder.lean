-- The lookups of an adjacency list against the order of its edges: an array is
-- searched from its end, and a flush sorts it in place and writes it to a file
-- that is searched from its start.
import RichGraph.MemTable

namespace RichGraph

namespace NewEdgeSL

/-- What the overloads of `get` give back: a status, or the property and the sequence. -/
def result : Option Edge → Except Status (Bytes × Nat)
  | none => .error .kNotFound
  | some e => if e.marker then .error .kDelete else .ok (e.property, e.sequence)

/-- `get` with what the caller sees of it. -/
def lookup (dst : Nat) (isOut : Bool) (edgeType : UInt8) (a : NewEdgeSL) :
    Except Status (Bytes × Nat) :=
  result (a.get dst isOut edgeType)

/-- What `sort` may leave: `std::sort` puts edges that compare equal in any order. -/
def SortsTo : NewEdgeSL → NewEdgeSL → Prop
  | array es, b => ∃ es', b = array es' ∧ es'.Perm es ∧ es'.Pairwise Edge.le
  | list es h, b => b = list es h

/-- `x` is the edge of its key that was inserted last. -/
def LastOf (es : List Edge) (x : Edge) : Prop :=
  ∃ pre post, es = pre ++ x :: post ∧ ∀ z ∈ post, ¬ SameKey z x

/-- `y` has the smallest sequence of its key. -/
def OldestOf (es : List Edge) (y : Edge) : Prop :=
  y ∈ es ∧ ∀ z ∈ es, SameKey z y → y.sequence ≤ z.sequence

/-- A tombstone is read as any other, an edge with a property only as itself. -/
def ReadsAs (y x : Edge) : Prop := y.marker ∧ x.marker ∨ y = x

/-- In an array the oldest edges of a key are read as the edge of the key inserted last. -/
def OldestReadAsLast : NewEdgeSL → Prop
  | array es => ∀ x y, LastOf es x → OldestOf es y → SameKey y x → ReadsAs y x
  | list _ _ => True

theorem sortsTo_sort (a : NewEdgeSL) : a.SortsTo a.sort := by
  cases a with
  | array es => exact ⟨_, rfl, List.perm_insertionSort _ _, List.pairwise_insertionSort _ _⟩
  | list es h => rfl

theorem SortsTo.perm {a b : NewEdgeSL} (h : a.SortsTo b) : b.edges.Perm a.edges := by
  cases a with
  | array es =>
    obtain ⟨es', rfl, hperm, -⟩ := h
    exact hperm
  | list es hs =>
    subst h
    exact List.Perm.refl _

theorem SortsTo.sorted {a b : NewEdgeSL} (h : a.SortsTo b) : b.edges.Pairwise Edge.le := by
  cases a with
  | array es =>
    obtain ⟨es', rfl, -, hsorted⟩ := h
    exact hsorted
  | list es hs =>
    subst h
    exact hs

section

variable {x y : Edge} {es : List Edge}

theorem SameKey.trans {z : Edge} (h : SameKey x y) (h' : SameKey y z) : SameKey x z :=
  ⟨h.1.trans h'.1, h.2.1.trans h'.2.1, h.2.2.trans h'.2.2⟩

theorem result_eq_iff (h : SameKey y x) : result (some y) = result (some x) ↔ ReadsAs y x := by
  obtain ⟨dst, seq, marker, property, isOut, edgeType⟩ := x
  obtain ⟨dst', seq', marker', property', isOut', edgeType'⟩ := y
  obtain ⟨rfl, rfl, rfl⟩ : dst' = dst ∧ isOut' = isOut ∧ edgeType' = edgeType := h
  cases marker <;> cases marker' <;> simp [result, ReadsAs, and_comm]

/-- The array finds an edge for its own key just when it is the last of the key. -/
theorem get_array_iff :
    (array es).get x.destination x.isOut x.edgeType = some x ↔ LastOf es x := by
  have hkey : ∀ z : Edge, (z.destination == x.destination && z.isOut == x.isOut &&
      z.edgeType == x.edgeType) = true ↔ SameKey z x := by
    simp [SameKey, and_assoc]
  simp only [get, List.find?_eq_some_iff_append]
  constructor
  · rintro ⟨-, as, bs, hsplit, hbefore⟩
    refine ⟨bs.reverse, as.reverse, ?_, ?_⟩
    · rw [← List.reverse_reverse es, hsplit]
      simp
    · intro z hz hsame
      have := hbefore z (List.mem_reverse.mp hz)
      rw [(hkey z).mpr hsame] at this
      cases this
  · rintro ⟨pre, post, rfl, hpost⟩
    refine ⟨by simp, post.reverse, pre.reverse, by simp, ?_⟩
    intro z hz
    have := hpost z (List.mem_reverse.mp hz)
    rw [← hkey] at this
    simpa only [Bool.not_eq_true', Bool.not_eq_true] using this

theorem LastOf.mem (h : LastOf es x) : x ∈ es := by
  obtain ⟨pre, post, rfl, -⟩ := h
  simp

/-- What the lookup of a sorted array finds is the oldest edge of its key. -/
theorem LastOf.oldest (h : LastOf es y) (hs : es.Pairwise Edge.le) : OldestOf es y := by
  refine ⟨h.mem, ?_⟩
  obtain ⟨pre, post, rfl, hpost⟩ := h
  intro z hz hsame
  rcases List.mem_append.mp hz with hz | hz
  · have hle : z.le y := (List.pairwise_append.mp hs).2.2 z hz y List.mem_cons_self
    rcases hle with hlt | ⟨-, hle⟩
    · exact absurd hsame.1 (Nat.ne_of_lt hlt)
    · exact hle
  · rcases List.mem_cons.mp hz with rfl | hz
    · exact Nat.le_refl _
    · exact absurd hsame (hpost z hz)

/-- Of the orders that the sort may leave, one has a given oldest edge of a key last. -/
theorem exists_sortsTo_last (h : OldestOf es y) :
    ∃ es', (array es).SortsTo (array es') ∧ LastOf es' y := by
  have htotal : Std.Total fun a b : Edge => b.le a := ⟨fun a b => Std.Total.total b a⟩
  have htrans : IsTrans Edge fun a b => b.le a := ⟨fun a b c hab hbc => IsTrans.trans c b a hbc hab⟩
  obtain ⟨pre, post, hperm, hsorted, hpre⟩ :=
    Lib.exists_sorted_first (r := fun a b : Edge => b.le a) h.1
  refine ⟨(pre ++ y :: post).reverse, ⟨_, rfl, ?_, ?_⟩, post.reverse, pre.reverse, by simp, ?_⟩
  · exact (List.reverse_perm _).trans hperm
  · exact List.pairwise_reverse.mpr hsorted
  · intro z hz hsame
    have hz' := List.mem_reverse.mp hz
    have hmem : z ∈ es := hperm.mem_iff.mp (List.mem_append_left _ hz')
    exact hpre z hz' (Or.inr ⟨hsame.1, h.2 z hmem hsame⟩)

end

/-! ## Sorting in place -/

/-- What a lookup gives is the same before and after the sort just when the oldest edges of every
key are read as the edge of the key that was inserted last. -/
theorem lookup_sortsTo_iff (a : NewEdgeSL) :
    (∀ b, a.SortsTo b → ∀ dst isOut edgeType,
      b.lookup dst isOut edgeType = a.lookup dst isOut edgeType) ↔ a.OldestReadAsLast := by
  cases a with
  | list es hs =>
    refine ⟨fun _ => trivial, ?_⟩
    rintro - b rfl dst isOut edgeType
    rfl
  | array es =>
    constructor
    · intro h x y hx hy hsame
      obtain ⟨es', hsorts, hlast⟩ := exists_sortsTo_last hy
      have heq := h _ hsorts x.destination x.isOut x.edgeType
      rw [lookup, lookup, get_array_iff.mpr hx, ← hsame.1, ← hsame.2.1, ← hsame.2.2,
        get_array_iff.mpr hlast] at heq
      exact (result_eq_iff hsame).mp heq
    · intro h b hb dst isOut edgeType
      obtain ⟨es', rfl, hperm, hsorted⟩ := hb
      have hnone : (array es').get dst isOut edgeType = none ↔
          (array es).get dst isOut edgeType = none := by
        have hiff (l : List Edge) := @get_array_eq_none_iff [] l ⟨0, dst, isOut, edgeType⟩
        exact (hiff es').trans (Iff.trans (by simp only [hperm.mem_iff]) (hiff es).symm)
      cases hx : (array es).get dst isOut edgeType with
      | none => rw [lookup, lookup, hx, hnone.mpr hx]
      | some x =>
        cases hy : (array es').get dst isOut edgeType with
        | none =>
          rw [hnone.mp hy] at hx
          cases hx
        | some y =>
          obtain ⟨rfl, rfl, rfl⟩ := key_of_get hx
          have hsame : SameKey y x := key_of_get hy
          rw [← hsame.1, ← hsame.2.1, ← hsame.2.2] at hy
          obtain ⟨hmem, hleast⟩ := (get_array_iff.mp hy).oldest hsorted
          have hold : OldestOf es y := ⟨hperm.mem_iff.mp hmem,
            fun z hz => hleast z (hperm.mem_iff.mpr hz)⟩
          rw [hsame.1, hsame.2.1, hsame.2.2] at hy
          rw [lookup, lookup, hx, hy]
          exact (result_eq_iff hsame).mpr (h x y (get_array_iff.mp hx) hold hsame)

end NewEdgeSL

namespace MemTable

/-- What a point read of the table sees. -/
def lookup (t : MemTable) (k : EdgeKey) : Except Status (Bytes × Nat) :=
  (t.adj k.src).lookup k.dst k.isOut k.edgeType

/-- The flush has sorted the adjacency lists of some sources of `t`. -/
def Sorting (t t' : MemTable) : Prop :=
  ∀ src, t'.adj src = t.adj src ∨ (t.adj src).SortsTo (t'.adj src)

end MemTable

/-- Point reads see the same before and after an adjacency list is sorted, and while and after the
flush sorts the lists of a table, just when in every array the oldest edges of a key are read as
the edge of the key that was inserted last. -/
theorem lookups_survive_the_sort_iff (a : NewEdgeSL) (t : MemTable) :
    ((∀ b, a.SortsTo b → ∀ dst isOut edgeType,
      b.lookup dst isOut edgeType = a.lookup dst isOut edgeType) ↔ a.OldestReadAsLast) ∧
    ((∀ t', t.Sorting t' → ∀ k, t'.lookup k = t.lookup k) ↔
      ∀ src, (t.adj src).OldestReadAsLast) := by
  refine ⟨NewEdgeSL.lookup_sortsTo_iff a, ?_⟩
  constructor
  · intro h src
    apply (NewEdgeSL.lookup_sortsTo_iff _).mp
    intro b hb dst isOut edgeType
    have hadj : ∀ v, MemTable.adj { t with vertexAdjs := t.vertexAdjs.insert src b } v =
        if v = src then b else t.adj v := by
      intro v
      by_cases hv : v = src
      · subst hv
        simp [MemTable.adj, AList.lookup_insert]
      · simp [MemTable.adj, AList.lookup_insert_ne hv, hv]
    have hsorting : t.Sorting { t with vertexAdjs := t.vertexAdjs.insert src b } := by
      intro v
      rw [hadj]
      split
      · rename_i hv
        subst hv
        exact Or.inr hb
      · exact Or.inl rfl
    have := h _ hsorting ⟨src, dst, isOut, edgeType⟩
    rwa [MemTable.lookup, MemTable.lookup, hadj, if_pos rfl] at this
  · intro h t' ht k
    rcases ht k.src with heq | hsorts
    · rw [MemTable.lookup, MemTable.lookup, heq]
    · exact (NewEdgeSL.lookup_sortsTo_iff _).mpr (h k.src) _ hsorts _ _ _

/-- Two versions of one edge in an array: the flush turns them round, and a read gets the older. -/
theorem the_sort_brings_back_an_old_version :
    let a : NewEdgeSL := .array [⟨3, 1, false, [97], true, 0⟩, ⟨3, 2, false, [98], true, 0⟩]
    a.SortsTo a.sort ∧ a.lookup 3 true 0 = .ok ([98], 2) ∧
      a.sort.lookup 3 true 0 = .ok ([97], 1) := by
  refine ⟨NewEdgeSL.sortsTo_sort _, ?_, ?_⟩ <;> decide

/-! ## The lookups of the three layouts -/

namespace NewEdgeSL

/-- The adjacency list after a sequence of inserts. -/
def insertAll (reserveNode : Nat) (es : List Edge) : NewEdgeSL :=
  es.foldl (fun a e => a.putEdge reserveNode e) (.array [])

/-- The edge of a key inserted last has the greatest sequence, and another edge of the key with
that sequence is written to a file as the same record. -/
def LastIsNewest (lengths : List Nat) (es : List Edge) : Prop :=
  ∀ x y, LastOf es x → y ∈ es → SameKey y x → y.sequence ≤ x.sequence ∧
    (y.sequence = x.sequence → ∀ src, y.toRecord lengths src = x.toRecord lengths src)

variable {reserveNode : Nat} {es : List Edge}

theorem insertAll_append (e : Edge) :
    insertAll reserveNode (es ++ [e]) = (insertAll reserveNode es).putEdge reserveNode e := by
  simp [insertAll]

theorem insertAll_perm (reserveNode : Nat) (es : List Edge) :
    (insertAll reserveNode es).edges.Perm es := by
  induction es using List.reverseRecOn with
  | nil => exact List.Perm.refl _
  | append_singleton es e ih =>
    rw [insertAll_append]
    exact (edges_putEdge_perm reserveNode e _).trans
      ((ih.cons e).trans (List.perm_append_singleton e es).symm)

/-- The list is an array as long as the edges have room there, and a skip list after that. -/
theorem insertAll_cases (reserveNode : Nat) (es : List Edge) :
    es.length ≤ reserveNode ∧ insertAll reserveNode es = array es ∨
      reserveNode < es.length ∧ ∃ l hs, insertAll reserveNode es = list l hs := by
  induction es using List.reverseRecOn with
  | nil => exact Or.inl ⟨Nat.zero_le _, rfl⟩
  | append_singleton es e ih =>
    rw [insertAll_append, List.length_append, List.length_singleton]
    rcases ih with ⟨hle, heq⟩ | ⟨hlt, l, hs, heq⟩
    · by_cases hfull : es.length = reserveNode
      · refine Or.inr ⟨by omega, (es ++ [e]).reverse.insertionSort Edge.le,
          List.pairwise_insertionSort _ _, ?_⟩
        rw [heq, putEdge, if_pos hfull]
      · refine Or.inl ⟨by omega, ?_⟩
        rw [heq, putEdge, if_neg hfull]
    · refine Or.inr ⟨by omega, l.orderedInsert Edge.le e, hs.orderedInsert e l, ?_⟩
      rw [heq, putEdge]

/-- The lookup in the file is a search from the start of the records of the source. -/
theorem find_written {l : List Edge} (hs : l.Pairwise Edge.le) (lengths : List Nat) (src dst : Nat)
    (isOut : Bool) (edgeType : UInt8) :
    findEdgeByDstDirectionAndType (l.map (Edge.toRecord lengths src)) dst isOut edgeType =
      (l.find? fun e => decide (e.destination = dst) &&
        (e.isOut == isOut && e.edgeType == edgeType)).map (Edge.toRecord lengths src) := by
  have hdst : (l.map (Edge.toRecord lengths src)).Pairwise fun a b => a.dst ≤ b.dst := by
    rw [List.pairwise_map]
    refine hs.imp ?_
    rintro a b (h | ⟨h, -⟩)
    · exact Nat.le_of_lt h
    · exact Nat.le_of_eq h
  unfold findEdgeByDstDirectionAndType
  rw [Lib.find?_group dst hdst (Nat.le_refl _), List.find?_map]
  rfl

/-- Of the orders that the sort may leave, one has a given newest edge of a key first. -/
theorem exists_sortsTo_first {y : Edge} (hy : y ∈ es)
    (hmax : ∀ z ∈ es, SameKey z y → z.sequence ≤ y.sequence) :
    ∃ es', (array es).SortsTo (array es') ∧ es'.find? (fun e =>
      decide (e.destination = y.destination) &&
        (e.isOut == y.isOut && e.edgeType == y.edgeType)) = some y := by
  obtain ⟨pre, post, hperm, hsorted, hpre⟩ := Lib.exists_sorted_first (r := Edge.le) hy
  refine ⟨_, ⟨_, rfl, hperm, hsorted⟩, ?_⟩
  rw [List.find?_eq_some_iff_append]
  refine ⟨by simp, pre, post, rfl, ?_⟩
  intro z hz
  have hne : ¬ SameKey z y := by
    intro hsame
    have hmem : z ∈ es := hperm.mem_iff.mp (List.mem_append_left _ hz)
    exact hpre z hz (Or.inr ⟨hsame.1.symm, hmax z hmem hsame⟩)
  have hkey : (decide (z.destination = y.destination) &&
      (z.isOut == y.isOut && z.edgeType == y.edgeType)) = true ↔ SameKey z y := by
    simp [SameKey]
  rw [← hkey] at hne
  simpa only [Bool.not_eq_true', Bool.not_eq_true] using hne

theorem keyOf_eq_iff {x y : Edge} {src : Nat} : keyOf src y = keyOf src x ↔ SameKey y x := by
  simp [keyOf, SameKey]

/-- The record that a lookup finds in the file, when the lookup in memory has found the newest. -/
theorem find_sorted_eq {lengths : List Nat} {k : EdgeKey} {l : List Edge} {o : Option Edge}
    (hs : l.Pairwise Edge.le) (ho : Lib.Newest (keyOf k.src) Edge.sequence l k o)
    (heq : ∀ x y, o = some x → y ∈ l → SameKey y x → y.sequence = x.sequence →
      y.toRecord lengths k.src = x.toRecord lengths k.src) :
    findEdgeByDstDirectionAndType (l.map (Edge.toRecord lengths k.src)) k.dst k.isOut k.edgeType =
      o.map (Edge.toRecord lengths k.src) := by
  rw [find_written hs]
  have hfirst := newest_first hs k
  cases o with
  | none => rw [hfirst.none_iff.mpr (ho.none_iff.mp rfl)]
  | some x =>
    obtain ⟨hx, hxk, hxmax⟩ := ho
    generalize l.find? _ = first at hfirst
    cases first with
    | none => exact absurd hxk (hfirst x hx)
    | some y =>
      obtain ⟨hy, hyk, hymax⟩ := hfirst
      have hseq : y.sequence = x.sequence := Nat.le_antisymm (hxmax y hy hyk) (hymax x hx hxk)
      have hsame : SameKey y x := keyOf_eq_iff.mp (hyk.trans hxk.symm)
      exact congrArg some (heq x y rfl hy hsame hseq)

end NewEdgeSL

end RichGraph
