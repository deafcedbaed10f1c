-- The merge loops of a compaction, as the code runs them: a way reads the records of
-- a range of a file's index, a lane opens its ways one after the other, and a loop
-- writes the least head of all lanes until every lane has ended.
import RichGraph.Compaction

namespace RichGraph

/-! ## The index of a file -/

/-- The last entry of the index stands after the last record. -/
theorem indexFrom_getLast (off : Nat) (prev : Option Nat) (rs : List EdgeRecord) :
    ((indexFrom off prev rs).getLast indexFrom_ne_nil).offset = off + rs.length := by
  induction rs generalizing off prev with
  | nil => rfl
  | cons r rs ih =>
    have hlen : off + (r :: rs).length = off + 1 + rs.length := by
      rw [List.length_cons]
      omega
    rw [hlen]
    by_cases hr : prev = some r.src
    · simp only [indexFrom, if_pos hr]
      exact ih _ _
    · simp only [indexFrom, if_neg hr]
      rw [List.getLast_cons indexFrom_ne_nil]
      exact ih _ _

namespace SSTable

variable {t : SSTable} {k q : Nat}

/-- The offset and the key of an entry of the index. -/
def offsetAt (t : SSTable) (k : Nat) : Nat := (t.indexes[k]?.map Index.offset).getD 0

def keyAt (t : SSTable) (k : Nat) : Nat := (t.indexes[k]?.map Index.key).getD 0

/-- The entries of the index without the one that ends it. -/
def sourceNum (t : SSTable) : Nat := t.indexes.length - 1

theorem length_indexes : t.indexes.length = t.sourceNum + 1 := by
  have hpos : 0 < t.indexes.length := List.length_pos_iff.mpr indexFrom_ne_nil
  unfold sourceNum
  omega

/-- An entry that is not the last one. -/
theorem exists_entry (hk : k ≤ t.sourceNum) :
    ∃ e, t.indexes[k]? = some e ∧ e.offset = t.offsetAt k ∧ e.key = t.keyAt k := by
  have hlen := t.length_indexes
  have hlt : k < t.indexes.length := by omega
  refine ⟨t.indexes[k], List.getElem?_eq_getElem hlt, ?_, ?_⟩
  · simp [offsetAt, List.getElem?_eq_getElem hlt]
  · simp [keyAt, List.getElem?_eq_getElem hlt]

theorem offsetAt_zero : t.offsetAt 0 = 0 := by
  unfold offsetAt indexes
  cases hrs : t.records with
  | nil => exact absurd hrs t.nonempty
  | cons r rs => rfl

theorem offsetAt_sourceNum : t.offsetAt t.sourceNum = t.records.length := by
  have hlast := indexFrom_getLast 0 none t.records
  rw [Nat.zero_add, List.getLast_eq_getElem] at hlast
  rw [← hlast]
  have hlt : t.sourceNum < t.indexes.length := by
    rw [length_indexes]
    exact Nat.lt_succ_self _
  unfold offsetAt
  rw [List.getElem?_eq_getElem hlt]
  rfl

/-- A file has a record, so it has an entry. -/
theorem sourceNum_pos (t : SSTable) : 0 < t.sourceNum := by
  have hlast := t.offsetAt_sourceNum
  have hlen := List.length_pos_iff.mpr t.nonempty
  by_contra hzero
  rw [Nat.eq_zero_of_not_pos hzero, offsetAt_zero] at hlast
  omega

theorem keyAt_lt (hk : k < t.sourceNum) : t.keyAt k < t.keyAt (k + 1) := by
  obtain ⟨e, he, -, hkey⟩ := exists_entry (Nat.le_of_lt hk)
  obtain ⟨n, hn, -, hkey'⟩ := exists_entry (Nat.succ_le_of_lt hk)
  have hkeys := (indexFrom_keys 0 none t.src_sorted (by simp) t.src_lt).1
  rw [List.pairwise_map] at hkeys
  obtain ⟨hlt, rfl⟩ := List.getElem?_eq_some_iff.mp he
  obtain ⟨hlt', rfl⟩ := List.getElem?_eq_some_iff.mp hn
  rw [← hkey, ← hkey']
  exact List.pairwise_iff_getElem.mp hkeys k (k + 1) hlt hlt' (Nat.lt_succ_self k)

theorem keyAt_lt_of_lt {j : Nat} (hjk : j < k) (hk : k ≤ t.sourceNum) :
    t.keyAt j < t.keyAt k := by
  induction k with
  | zero => omega
  | succ k ih =>
    have hstep := keyAt_lt (Nat.lt_of_succ_le hk)
    obtain hjk | rfl := Nat.lt_or_eq_of_le (Nat.le_of_lt_succ hjk)
    · exact Nat.lt_trans (ih hjk (Nat.le_of_succ_le hk)) hstep
    · exact hstep

theorem keyAt_le {j : Nat} (hjk : j ≤ k) (hk : k ≤ t.sourceNum) : t.keyAt j ≤ t.keyAt k := by
  obtain hjk | rfl := Nat.lt_or_eq_of_le hjk
  · exact Nat.le_of_lt (keyAt_lt_of_lt hjk hk)
  · exact Nat.le_refl _

/-- Between an entry and the next one stand the records of its source, and there is one. -/
theorem slice_entry (hk : k < t.sourceNum) :
    t.slice (t.offsetAt k) (t.offsetAt (k + 1)) = t.recordsOf (t.keyAt k) ∧
      t.recordsOf (t.keyAt k) ≠ [] := by
  obtain ⟨e, he, hoff, hkey⟩ := exists_entry (Nat.le_of_lt hk)
  obtain ⟨n, hn, hoff', hkey'⟩ := exists_entry (Nat.succ_le_of_lt hk)
  have hslice := (indexFrom_slice t.src_sorted (by simp) t.src_lt he hn).2
  rw [Nat.sub_zero, hoff, hoff', hkey] at hslice
  refine ⟨hslice, ?_⟩
  have hmem := (indexFrom_keys 0 none t.src_sorted (by simp) t.src_lt).2
  have hin : ∀ j ≤ t.sourceNum,
      t.keyAt j = invalidVertexId ∨ ∃ r ∈ t.records, r.src = t.keyAt j := by
    intro j hj
    obtain ⟨e, he, -, hkey⟩ := exists_entry hj
    rw [← hkey]
    have := (hmem e.key).mp (List.mem_map_of_mem (List.mem_of_getElem? he))
    exact this.imp id fun h => h.2
  -- the entry is not the last one, so its key is below that of no vertex
  have hlt := keyAt_lt hk
  have hle : t.keyAt (k + 1) ≤ invalidVertexId := by
    obtain h | ⟨r, hr, h⟩ := hin (k + 1) (Nat.succ_le_of_lt hk)
    · exact Nat.le_of_eq h
    · rw [← h]
      exact Nat.le_of_lt (t.src_lt r hr)
  obtain h | ⟨r, hr, h⟩ := hin k (Nat.le_of_lt hk)
  · omega
  · exact List.ne_nil_of_mem (mem_recordsOf.mpr ⟨hr, h⟩)

theorem offsetAt_lt (hk : k < t.sourceNum) : t.offsetAt k < t.offsetAt (k + 1) := by
  obtain ⟨hslice, hne⟩ := slice_entry hk
  refine Nat.not_le.mp fun hle => hne ?_
  rw [← hslice]
  unfold slice
  rw [Nat.sub_eq_zero_of_le hle, List.take_zero]

theorem offsetAt_le {j : Nat} (hjk : j ≤ k) (hk : k ≤ t.sourceNum) :
    t.offsetAt j ≤ t.offsetAt k := by
  induction k with
  | zero =>
    rw [Nat.le_zero.mp hjk]
  | succ k ih =>
    obtain hjk | rfl := Nat.lt_or_eq_of_le hjk
    · exact Nat.le_trans (ih (Nat.le_of_lt_succ hjk) (Nat.le_of_succ_le hk))
        (Nat.le_of_lt (offsetAt_lt (Nat.lt_of_succ_le hk)))
    · exact Nat.le_refl _

/-- The entry of a place. -/
theorem exists_entry_of_place {start n : Nat} (hq : t.offsetAt start ≤ q)
    (hq' : q < t.offsetAt (start + n)) :
    ∃ k, start ≤ k ∧ k < start + n ∧ t.offsetAt k ≤ q ∧ q < t.offsetAt (k + 1) := by
  induction n with
  | zero => exact absurd hq' (Nat.not_lt.mpr hq)
  | succ n ih =>
    by_cases hlt : q < t.offsetAt (start + n)
    · obtain ⟨k, hk, hk', hplace⟩ := ih hlt
      exact ⟨k, hk, by omega, hplace⟩
    · exact ⟨start + n, by omega, by omega, Nat.not_lt.mp hlt, hq'⟩

/-- The record at a place, and the entry that gives its source. -/
theorem record_at (hk : k < t.sourceNum) (hq : t.offsetAt k ≤ q) (hq' : q < t.offsetAt (k + 1)) :
    ∃ r, t.records[q]? = some r ∧ r.src = t.keyAt k := by
  obtain ⟨hslice, -⟩ := slice_entry hk
  have hlen : q < t.records.length := by
    rw [← offsetAt_sourceNum]
    exact Nat.lt_of_lt_of_le hq' (offsetAt_le (Nat.succ_le_of_lt hk) (Nat.le_refl _))
  refine ⟨t.records[q], List.getElem?_eq_getElem hlen, ?_⟩
  have hmem : t.records[q] ∈ t.slice (t.offsetAt k) (t.offsetAt (k + 1)) := by
    unfold slice
    rw [List.mem_iff_getElem?]
    refine ⟨q - t.offsetAt k, ?_⟩
    rw [List.getElem?_take_of_lt (by omega), List.getElem?_drop, Nat.add_sub_cancel' hq,
      List.getElem?_eq_getElem hlen]
  rw [hslice] at hmem
  exact (mem_recordsOf.mp hmem).2

theorem slice_cons {r : EdgeRecord} {stop : Nat} (hr : t.records[q]? = some r) (hq : q < stop) :
    t.slice q stop = r :: t.slice (q + 1) stop := by
  obtain ⟨hlt, rfl⟩ := List.getElem?_eq_some_iff.mp hr
  have hsub : stop - q = stop - (q + 1) + 1 := by omega
  unfold slice
  rw [List.drop_eq_getElem_cons hlt, hsub, List.take_succ_cons]

theorem slice_self (t : SSTable) (q : Nat) : t.slice q q = [] := by
  unfold slice
  rw [Nat.sub_self, List.take_zero]

theorem slice_all : t.slice (t.offsetAt 0) (t.offsetAt t.sourceNum) = t.records := by
  unfold slice
  rw [offsetAt_zero, offsetAt_sourceNum, List.drop_zero, Nat.sub_zero, List.take_length]

end SSTable

namespace Compaction

/-! ## A way -/

/-- `Way`: the records of a range of the index entries of a file, read one after the other.
`readCnt` is `total_edge_cnt_ - remain_edge_cnt_`. -/
structure Way where
  file : SSTable
  isInput0 : Bool
  indexStartOffset : Nat
  totalIndexCnt : Nat
  indexPtr : Nat
  edgeStartOffset : Nat
  readCnt : Nat

namespace Way

/-- The way of a whole file. -/
def ofFile (isInput0 : Bool) (f : SSTable) : Way :=
  { file := f, isInput0, indexStartOffset := 0, totalIndexCnt := f.indexes.length
    indexPtr := 0, edgeStartOffset := 0, readCnt := 0 }

def init (w : Way) : Way :=
  { w with
    indexPtr := w.indexStartOffset
    edgeStartOffset := w.file.offsetAt w.indexStartOffset
    readCnt := 0 }

def edgeBodyOffset (w : Way) : Nat := w.edgeStartOffset + w.readCnt

/-- The next record and the way after it. The source of a record comes from the index. -/
def nextEdgeRecord (w : Way) : Option (EdgeRecord × Way) :=
  let changes := w.file.offsetAt (w.indexPtr + 1) ≤ w.edgeBodyOffset
  let indexPtr := if changes then w.indexPtr + 1 else w.indexPtr
  if changes ∧ w.indexStartOffset + w.totalIndexCnt - 1 ≤ indexPtr then none
  else (w.file.records[w.edgeBodyOffset]?).map fun body =>
    ({ body with src := w.file.keyAt indexPtr }, { w with indexPtr, readCnt := w.readCnt + 1 })

/-- The way gives these records, and then it ends. -/
def Gives : Way → List EdgeRecord → Prop
  | w, [] => w.nextEdgeRecord = none
  | w, r :: rs => ∃ w', w.nextEdgeRecord = some (r, w') ∧ w'.Gives rs

/-- An open way over `n` entries from `a` on, at entry `p` and at the place `q`. -/
structure At (t : SSTable) (a n p q : Nat) (w : Way) : Prop where
  file : w.file = t
  start : w.indexStartOffset = a
  total : w.totalIndexCnt = n + 1
  ptr : w.indexPtr = p
  place : w.edgeBodyOffset = q
  lt : p < a + n
  ge : t.offsetAt p ≤ q
  le : q ≤ t.offsetAt (p + 1)

variable {t : SSTable} {a n p q : Nat} {w : Way}

/-- The record at the place, under the entry `p'` to which the way moves. -/
theorem At.next {p' : Nat} (h : At t a n p q w) (hfit : a + n ≤ t.sourceNum) (hp' : p' < a + n)
    (hmove : p' = if t.offsetAt (p + 1) ≤ q then p + 1 else p) :
    ∃ r w', t.records[q]? = some r ∧ w.nextEdgeRecord = some (r, w') ∧
      At t a n p' (q + 1) w' := by
  have hlt : t.offsetAt p' ≤ q ∧ q < t.offsetAt (p' + 1) := by
    split at hmove
    · rename_i hle
      subst hmove
      have := t.offsetAt_lt (k := p + 1) (by omega)
      exact ⟨hle, Nat.lt_of_le_of_lt h.le this⟩
    · rename_i hle
      subst hmove
      exact ⟨h.ge, Nat.not_le.mp hle⟩
  obtain ⟨r, hr, hsrc⟩ := SSTable.record_at (by omega) hlt.1 hlt.2
  refine ⟨r, { w with indexPtr := p', readCnt := w.readCnt + 1 }, hr, ?_, ?_⟩
  · unfold nextEdgeRecord
    simp only [h.file, h.start, h.total, h.ptr, h.place, ← hmove, hr, Option.map_some]
    rw [if_neg (by omega), ← hsrc]
  · have hplace := h.place
    exact ⟨h.file, h.start, h.total, rfl, by unfold edgeBodyOffset at *; dsimp only; omega, hp',
      by omega, hlt.2⟩

theorem At.ends (h : At t a n p q w) (hlast : p + 1 = a + n) (hq : q = t.offsetAt (a + n)) :
    w.nextEdgeRecord = none := by
  unfold nextEdgeRecord
  simp only [h.file, h.start, h.total, h.ptr, h.place]
  rw [hlast, ← hq]
  simp

/-- A law of ways and records that holds where the range ends, and before a record when it holds
after it. -/
theorem At.records_induction {motive : Way → List EdgeRecord → Prop}
    (ends : ∀ {p w}, At t a n p (t.offsetAt (a + n)) w → p + 1 = a + n → motive w [])
    (next : ∀ {p p' q w r w' rs}, At t a n p q w → q < t.offsetAt (a + n) →
      t.records[q]? = some r → w.nextEdgeRecord = some (r, w') → At t a n p' (q + 1) w' →
      motive w' rs → motive w (r :: rs))
    (hfit : a + n ≤ t.sourceNum) (h : At t a n p q w) :
    motive w (t.slice q (t.offsetAt (a + n))) := by
  -- by the number of records that are left
  generalize hm : t.offsetAt (a + n) - q = m
  have hqle : q ≤ t.offsetAt (a + n) := Nat.le_trans h.le (t.offsetAt_le h.lt hfit)
  induction m generalizing p q w with
  | zero =>
    have hq : q = t.offsetAt (a + n) := by omega
    have hlast : p + 1 = a + n := by
      have hlt := h.lt
      by_contra hne
      have hstep := t.offsetAt_lt (k := p + 1) (by omega)
      have hle := t.offsetAt_le (j := p + 1 + 1) (k := a + n) (by omega) hfit
      have := h.le
      omega
    subst hq
    rw [SSTable.slice_self]
    exact ends h hlast
  | succ m ih =>
    have hp' : (if t.offsetAt (p + 1) ≤ q then p + 1 else p) < a + n := by
      have hlt := h.lt
      split
      · rename_i hle
        by_contra hge
        have heq : p + 1 = a + n := by omega
        rw [heq] at hle
        omega
      · exact hlt
    obtain ⟨r, w', hr, hnext, hat⟩ := h.next hfit hp' rfl
    rw [SSTable.slice_cons hr (by omega)]
    exact next h (by omega) hr hnext hat (ih hat (by omega) (by omega))

theorem At.gives (hfit : a + n ≤ t.sourceNum) (h : At t a n p q w) :
    w.Gives (t.slice q (t.offsetAt (a + n))) :=
  h.records_induction (fun hat hlast => hat.ends hlast rfl)
    (fun _ _ _ hnext _ hgives => ⟨_, hnext, hgives⟩) hfit

theorem gives_ofFile (isInput0 : Bool) (f : SSTable) :
    (ofFile isInput0 f).init.Gives f.records := by
  have hat : At f 0 f.sourceNum 0 (f.offsetAt 0) (ofFile isInput0 f).init :=
    ⟨rfl, rfl, f.length_indexes, rfl, rfl, by simpa using f.sourceNum_pos, Nat.le_refl _,
      Nat.le_of_lt (f.offsetAt_lt f.sourceNum_pos)⟩
  have hgives := hat.gives (by omega)
  rwa [Nat.zero_add, SSTable.slice_all] at hgives

end Way

/-! ## A lane -/

/-- What one run of the merge reads: the head that is cached, the way that is open, and the ways
after it. -/
structure Lane where
  edge : EdgeRecord
  opened : Way
  later : List Way

namespace Lane

/-- Opens the next way and caches its first record. -/
def start : List Way → Option Lane
  | [] => none
  | w :: ws => w.init.nextEdgeRecord.map fun p => ⟨p.1, p.2, ws⟩

/-- The way that is open has ended. -/
def ends (l : Lane) : Bool := l.opened.nextEdgeRecord.isNone

/-- Caches the next record; when the way has ended it is freed, and the next one is opened. -/
def advance (l : Lane) : Option Lane :=
  match l.opened.nextEdgeRecord with
  | some p => some ⟨p.1, p.2, l.later⟩
  | none => start l.later

end Lane

/-- The ways give these records, one way after the other, and each gives one at least. -/
inductive WaysGive : List Way → List EdgeRecord → Prop
  | nil : WaysGive [] []
  | cons {w : Way} {ws : List Way} {r : EdgeRecord} {rs rest : List EdgeRecord} :
      w.init.Gives (r :: rs) → WaysGive ws rest → WaysGive (w :: ws) (r :: rs ++ rest)

/-- What is left in a lane. -/
inductive LaneHolds : Option Lane → List EdgeRecord → Prop
  | ended : LaneHolds none []
  | reads {l : Lane} {rs rest : List EdgeRecord} :
      l.opened.Gives rs → WaysGive l.later rest → LaneHolds (some l) (l.edge :: (rs ++ rest))

theorem LaneHolds.start {ws : List Way} {rs : List EdgeRecord} (h : WaysGive ws rs) :
    LaneHolds (Lane.start ws) rs := by
  cases h with
  | nil => exact .ended
  | @cons w ws r rs rest hw hws =>
    obtain ⟨w', hnext, hgives⟩ := hw
    have hstart : Lane.start (w :: ws) = some ⟨r, w', ws⟩ := by
      rw [Lane.start, hnext]
      rfl
    rw [hstart]
    exact LaneHolds.reads hgives hws

theorem LaneHolds.edge {l : Lane} {r : EdgeRecord} {rs : List EdgeRecord}
    (h : LaneHolds (some l) (r :: rs)) : l.edge = r := by
  cases h
  rfl

theorem LaneHolds.advance {l : Lane} {r : EdgeRecord} {rs : List EdgeRecord}
    (h : LaneHolds (some l) (r :: rs)) : LaneHolds l.advance rs := by
  cases h with
  | @reads l front rest hfront hrest =>
    unfold Lane.advance
    cases front with
    | nil =>
      have hnone : l.opened.nextEdgeRecord = none := hfront
      rw [hnone]
      exact .start hrest
    | cons r rs =>
      obtain ⟨w', hnext, hgives⟩ := hfront
      rw [hnext]
      exact LaneHolds.reads hgives hrest

theorem LaneHolds.isSome_iff {l : Option Lane} {rs : List EdgeRecord} (h : LaneHolds l rs) :
    l.isSome ↔ rs ≠ [] := by
  cases h <;> simp

theorem LaneHolds.eq_none {l : Option Lane} (h : LaneHolds l []) : l = none := by
  cases h
  rfl

theorem LaneHolds.exists_lane {l : Option Lane} {r : EdgeRecord} {rs : List EdgeRecord}
    (h : LaneHolds l (r :: rs)) : ∃ l', l = some l' ∧ l'.edge = r := by
  cases h
  exact ⟨_, rfl, rfl⟩

/-! ## The loop over the lanes -/

/-- The variables of the loop. A lane that has ended is `none`. -/
structure Lanes where
  lanes : List (Option Lane)
  workWay : Nat
  minWayIndex : Nat
  written : List EdgeRecord

namespace Lanes

/-- The place of the least head. -/
def findMin (lanes : List (Option Lane)) : Nat :=
  ((Lib.scanLeast EdgeRecord.lt 0 none (lanes.map (·.map Lane.edge))).map Prod.fst).getD 0

/-- Opens the first way of every lane. -/
def start (chains : List (List Way)) : Lanes where
  lanes := chains.map Lane.start
  workWay := chains.length
  minWayIndex := findMin (chains.map Lane.start)
  written := []

/-- One turn of the loop: the least head is written, its lane goes on, and the least head is
looked for again unless all lanes have ended. -/
def turn (s : Lanes) : Option Lanes :=
  match s.lanes[s.minWayIndex]? with
  | some (some l) =>
    let lanes := s.lanes.set s.minWayIndex l.advance
    let workWay := if l.advance.isNone then s.workWay - 1 else s.workWay
    some
      { lanes, workWay
        minWayIndex := if workWay = 0 then s.minWayIndex else findMin lanes
        written := s.written ++ [l.edge] }
  | _ => none

/-- `while (work_way > 0)` -/
def loop : Nat → Lanes → Option (List EdgeRecord)
  | 0, _ => none
  | fuel + 1, s => if s.workWay = 0 then some s.written else s.turn.bind (loop fuel)

/-- The loop has these runs left, in every lane one. -/
structure Runs (s : Lanes) (ws : List (List EdgeRecord)) : Prop where
  holds : List.Forall₂ LaneHolds s.lanes ws
  work : s.workWay = s.lanes.countP Option.isSome
  least : s.workWay ≠ 0 → s.minWayIndex = findMin s.lanes

variable {s : Lanes} {ws : List (List EdgeRecord)} {lanes : List (Option Lane)}

/-- A run that is left is the run of a lane with its head. -/
theorem head_of_holds (h : List.Forall₂ LaneHolds lanes ws) {j : Nat} {y : EdgeRecord}
    {bs : List EdgeRecord} (hj : ws[j]? = some (y :: bs)) :
    ∃ l, lanes[j]? = some (some l) ∧ l.edge = y ∧ LaneHolds (some l) (y :: bs) := by
  obtain ⟨hlt, hget⟩ := List.getElem?_eq_some_iff.mp hj
  have hlt' : j < lanes.length := by rwa [h.length_eq]
  have hlane := h.get hlt' hlt
  simp only [List.get_eq_getElem, hget] at hlane
  cases hl : lanes[j] with
  | none =>
    rw [hl] at hlane
    cases hlane
  | some l =>
    rw [hl] at hlane
    exact ⟨l, by rw [List.getElem?_eq_getElem hlt', hl], hlane.edge, hlane⟩

theorem lt_of_lt_of_not_lt (a b c : EdgeRecord) (h : a.lt b) (h' : ¬ c.lt b) : a.lt c := by
  unfold EdgeRecord.lt at *
  omega

theorem lt_asymm (a b : EdgeRecord) (h : a.lt b) : ¬ b.lt a := by
  unfold EdgeRecord.lt at *
  omega

/-- The place that is found is that of the least head, and of equal ones the first. -/
theorem findMin_spec (h : List.Forall₂ LaneHolds lanes ws) (hsome : ∃ l ∈ lanes, l.isSome) :
    ∃ l rs, lanes[findMin lanes]? = some (some l) ∧ LaneHolds (some l) (l.edge :: rs) ∧
      Lib.leastHead EdgeRecord.lt ws = some (l.edge, ws.set (findMin lanes) rs) := by
  have hscan := Lib.scannedTo_scanLeast_all lt_of_lt_of_not_lt lt_asymm
    (lanes.map (·.map Lane.edge))
  unfold findMin
  cases hfound : Lib.scanLeast EdgeRecord.lt 0 none (lanes.map (·.map Lane.edge)) with
  | none =>
    rw [hfound] at hscan
    obtain ⟨l, hl, hisSome⟩ := hsome
    have hnone : l.map Lane.edge = none := hscan _ (List.mem_map_of_mem hl)
    cases l with
    | none => cases hisSome
    | some l => cases hnone
  | some p =>
    obtain ⟨i, a⟩ := p
    rw [hfound] at hscan
    have hfirst : Lib.FirstLeast EdgeRecord.lt (lanes.map (·.map Lane.edge)) i a := hscan
    have hedge : ∀ {j : Nat} {y : EdgeRecord} {bs : List EdgeRecord}, ws[j]? = some (y :: bs) →
        (lanes.map (·.map Lane.edge))[j]? = some (some y) := by
      intro j y bs hj
      obtain ⟨l, hl, hly, -⟩ := head_of_holds h hj
      rw [List.getElem?_map, hl, Option.map_some, Option.map_some, hly]
    have hat := hfirst.at_
    rw [List.getElem?_map, Option.map_eq_some_iff] at hat
    obtain ⟨l, hl, hla⟩ := hat
    obtain ⟨l, rfl, rfl⟩ := Option.map_eq_some_iff.mp hla
    obtain ⟨hlt, hget⟩ := List.getElem?_eq_some_iff.mp hl
    have hlt' : i < ws.length := by rwa [← h.length_eq]
    have hlane := h.get hlt hlt'
    simp only [List.get_eq_getElem, hget] at hlane
    obtain ⟨rs, hrs⟩ : ∃ rs, ws[i] = l.edge :: rs := by
      generalize hw : ws[i] = w at hlane
      cases hlane
      exact ⟨_, rfl⟩
    rw [hrs] at hlane
    have hws : ws[i]? = some (l.edge :: rs) := by rw [List.getElem?_eq_getElem hlt', hrs]
    refine ⟨l, rs, hl, hlane, ?_⟩
    exact Lib.leastHead_of_first hws (fun j y bs hj hy => hfirst.before j y hj (hedge hy))
      fun j y bs hj hy => hfirst.after j y hj (hedge hy)

theorem Runs.least_none (h : Runs s ws) (hwork : s.workWay = 0) :
    Lib.leastHead EdgeRecord.lt ws = none := by
  refine Lib.leastHead_of_nil fun w hw => ?_
  obtain ⟨j, hj⟩ := List.mem_iff_getElem?.mp hw
  cases w with
  | nil => rfl
  | cons y bs =>
    obtain ⟨l, hl, -, -⟩ := head_of_holds h.holds hj
    have hzero := h.work.symm.trans hwork
    rw [List.countP_eq_zero] at hzero
    exact absurd rfl (hzero _ (List.mem_of_getElem? hl))

theorem forall₂_set (h : List.Forall₂ LaneHolds lanes ws) (i : Nat) {l : Option Lane}
    {rs : List EdgeRecord} (hl : LaneHolds l rs) :
    List.Forall₂ LaneHolds (lanes.set i l) (ws.set i rs) := by
  induction h generalizing i with
  | nil => exact List.Forall₂.nil
  | cons hhead htail ih =>
    cases i with
    | zero => exact List.Forall₂.cons hl htail
    | succ i => exact List.Forall₂.cons hhead (ih i)

/-- One turn writes the least head. -/
theorem Runs.turn (h : Runs s ws) (hwork : s.workWay ≠ 0) :
    ∃ x ws' s', Lib.leastHead EdgeRecord.lt ws = some (x, ws') ∧ s.turn = some s' ∧ Runs s' ws' ∧
      s'.written = s.written ++ [x] := by
  have hsome : ∃ l ∈ s.lanes, l.isSome := by
    rw [h.work] at hwork
    exact List.countP_pos_iff.mp (Nat.pos_of_ne_zero hwork)
  obtain ⟨l, rs, hl, hlane, hleast⟩ := findMin_spec h.holds hsome
  rw [← h.least hwork] at hl hleast
  refine ⟨l.edge, _, _, hleast, by unfold Lanes.turn; rw [hl], ?_, rfl⟩
  have hadvance := hlane.advance
  have hcount : (if l.advance.isNone then s.workWay - 1 else s.workWay) =
      (s.lanes.set s.minWayIndex l.advance).countP Option.isSome := by
    obtain ⟨hlt, hget⟩ := List.getElem?_eq_some_iff.mp hl
    rw [List.countP_set hlt, ← h.work, hget]
    cases l.advance with
    | none => rfl
    | some l' =>
      simp only [Option.isNone_some, Option.isSome_some, if_true, Bool.false_eq_true, if_false]
      omega
  refine ⟨forall₂_set h.holds _ hadvance, hcount, fun hne => if_neg hne⟩

/-- With enough fuel the loop ends, and it has merged the runs. -/
theorem Runs.loop (h : Runs s ws) {fuel : Nat} (hfuel : ws.flatten.length < fuel) :
    Lanes.loop fuel s = some (s.written ++ Lib.mergeWays EdgeRecord.lt ws) := by
  induction fuel generalizing s ws with
  | zero => omega
  | succ fuel ih =>
    rw [Lanes.loop]
    by_cases hwork : s.workWay = 0
    · rw [if_pos hwork, Lib.mergeWays_of_none (h.least_none hwork), List.append_nil]
    · obtain ⟨x, ws', s', hleast, hturn, hruns, hwritten⟩ := h.turn hwork
      have hlen := (Lib.leastHead_perm hleast).length_eq
      rw [List.length_cons] at hlen
      rw [if_neg hwork, hturn, Option.bind_some, ih hruns (by omega), hwritten,
        Lib.mergeWays_of_some hleast, List.append_assoc]
      rfl

/-- The lanes of ways that give records. -/
theorem runs_start {chains : List (List Way)} (h : List.Forall₂ WaysGive chains ws)
    (hne : ∀ w ∈ ws, w ≠ []) : Runs (start chains) ws := by
  have hholds : List.Forall₂ LaneHolds (chains.map Lane.start) ws := by
    rw [List.forall₂_map_left_iff]
    exact h.imp fun _ _ => LaneHolds.start
  refine ⟨hholds, ?_, fun _ => rfl⟩
  have hall : ∀ l ∈ chains.map Lane.start, l.isSome = true := by
    intro l hl
    obtain ⟨i, hi⟩ := List.mem_iff_get.mp hl
    have hlt : i.val < ws.length := by
      rw [← hholds.length_eq]
      exact i.isLt
    have hlane := hholds.get i.isLt hlt
    rw [← hi]
    exact hlane.isSome_iff.mpr (hne _ (List.get_mem _ _))
  have hlen : (start chains).workWay = (chains.map Lane.start).length := by
    rw [List.length_map]
    rfl
  rw [hlen]
  exact (List.countP_eq_length.mpr hall).symm

end Lanes

end Compaction

end RichGraph
