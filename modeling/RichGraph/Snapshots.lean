-- Scans at a snapshot. A source that starts at the snapshot or after it is
-- passed over. The records of the other sources are tested one by one, unless
-- the newest record of the source is older than the snapshot; but that question
-- is put to a field that no iterator sets.
import RichGraph.FlushSources

namespace RichGraph

open Store

/-! ## The iterators -/

/-- The largest of the sequences of a table or of a file. -/
def newestOf (sequences : List Nat) : Nat := sequences.foldr max 0

/-- `EdgeIteratorBase`, with the records from the cursor on. -/
structure EdgeIteratorBase where
  newestEdge : Nat := 0
  records : List Found

/-- `MemEdgeIterator` and `SSTEdgeIterator`. They have a private field with the name of the field
of their base, and their constructors set that one. -/
structure SourceIterator extends EdgeIteratorBase where
  ownNewestEdge : Nat

/-- `check_entry_valid`, for `it->newest_edge` and a record. The pointer is to the base. -/
def checkEntryValid (src seq : Nat) (isOut : Bool) (edgeType : UInt8) (newestEdge : Nat)
    (x : Found) : Bool :=
  if (x.key src).isOut ≠ isOut then false
  else if (x.key src).edgeType ≠ edgeType then false
  else if newestEdge < seq then true
  else decide (x.sequence ≤ seq)

/-- `EdgeIteratorDynamic`: the iterator in use, and those that wait, the next one first. -/
structure EdgeIteratorDynamic where
  it : Option EdgeIteratorBase
  itArray : List EdgeIteratorBase

namespace EdgeIteratorDynamic

variable (check : Nat → Found → Bool)

def findFirstValid : List EdgeIteratorBase → EdgeIteratorDynamic
  | [] => ⟨none, []⟩
  | it :: itArray =>
    match it.records.dropWhile fun x => !check it.newestEdge x with
    | [] => if itArray = [] then ⟨some { it with records := [] }, []⟩ else findFirstValid itArray
    | x :: xs => ⟨some { it with records := x :: xs }, itArray⟩

/-- The loop of `next`, after the cursor has moved. What `findFirstValid` finds is valid, so the
loop ends there. -/
def nextIn (it : EdgeIteratorBase) (itArray : List EdgeIteratorBase) :
    List Found → EdgeIteratorDynamic
  | [] => findFirstValid check itArray
  | x :: xs =>
    if check it.newestEdge x then ⟨some { it with records := x :: xs }, itArray⟩
    else nextIn it itArray xs

def next (d : EdgeIteratorDynamic) : EdgeIteratorDynamic :=
  match d.it with
  | none => d
  | some it =>
    match it.records with
    | [] => d
    | _ :: xs => nextIn check it d.itArray xs

/-- The record at the cursor. -/
def current (d : EdgeIteratorDynamic) : Option Found := d.it.bind fun it => it.records.head?

/-- The loop of a caller, for at most so many records. -/
def collect : Nat → EdgeIteratorDynamic → List Found
  | 0, _ => []
  | fuel + 1, d =>
    match d.current with
    | none => []
    | some x => x :: collect fuel (d.next check)

/-! ### What an iterator has left -/

/-- The valid records of the sources. -/
def validOf (its : List EdgeIteratorBase) : List Found :=
  its.flatMap fun it => it.records.filter (check it.newestEdge)

def remaining (d : EdgeIteratorDynamic) : List Found := validOf check (d.it.toList ++ d.itArray)

/-- The iterator is at a valid record, or at its end. -/
def Ready (d : EdgeIteratorDynamic) : Prop :=
  (∃ it x xs, d.it = some it ∧ it.records = x :: xs ∧ check it.newestEdge x = true) ∨
    d.current = none ∧ d.itArray = []

variable {check} {d : EdgeIteratorDynamic}

theorem filter_dropWhile_not (p : Found → Bool) (xs : List Found) :
    (xs.dropWhile fun x => !p x).filter p = xs.filter p := by
  induction xs with
  | nil => rfl
  | cons x xs ih =>
    cases hx : p x with
    | true => rw [List.dropWhile_cons_of_neg (by simp [hx])]
    | false =>
      rw [List.dropWhile_cons_of_pos (by simp [hx]), ih,
        List.filter_cons_of_neg (by simp [hx])]

theorem findFirstValid_spec (check : Nat → Found → Bool) (its : List EdgeIteratorBase) :
    Ready check (findFirstValid check its) ∧
      remaining check (findFirstValid check its) = validOf check its := by
  induction its with
  | nil => exact ⟨Or.inr ⟨rfl, rfl⟩, rfl⟩
  | cons it itArray ih =>
    have hvalid := filter_dropWhile_not (check it.newestEdge) it.records
    unfold findFirstValid
    split
    · rename_i hdrop
      rw [hdrop] at hvalid
      have hcons : validOf check (it :: itArray) = validOf check itArray := by
        rw [validOf, List.flatMap_cons, ← hvalid]
        rfl
      split
      · rename_i hnil
        rw [hcons, hnil]
        exact ⟨Or.inr ⟨rfl, rfl⟩, rfl⟩
      · rw [hcons]
        exact ih
    · rename_i x xs hdrop
      have hx : check it.newestEdge x = true := by
        have := List.head?_dropWhile_not (fun x => !check it.newestEdge x) it.records
        rw [hdrop] at this
        simpa using this
      refine ⟨Or.inl ⟨_, x, xs, rfl, rfl, hx⟩, ?_⟩
      rw [hdrop] at hvalid
      simp only [remaining, validOf, Option.toList_some, List.cons_append, List.nil_append,
        List.flatMap_cons]
      rw [hvalid]

/-- `next` goes to the next valid record. -/
theorem next_spec (h : Ready check d) {x : Found} (hx : d.current = some x) :
    Ready check (d.next check) ∧ remaining check d = x :: remaining check (d.next check) := by
  obtain ⟨it, y, xs, hit, hrecords, hy⟩ | ⟨hnone, -⟩ := h
  · have hxy : x = y := by
      unfold current at hx
      rw [hit, Option.bind_some, hrecords] at hx
      exact (Option.some.inj hx).symm
    subst hxy
    have hnext : d.next check = nextIn check it d.itArray xs := by
      unfold next
      rw [hit]
      dsimp only
      rw [hrecords]
    have hleft : remaining check d =
        x :: (xs.filter (check it.newestEdge) ++ validOf check d.itArray) := by
      unfold remaining validOf
      rw [hit, Option.toList_some, List.cons_append, List.nil_append, List.flatMap_cons, hrecords,
        List.filter_cons_of_pos hy, List.cons_append]
    rw [hnext, hleft]
    clear hrecords hnext hleft hx
    -- The records of the source that are left, one by one.
    have hin : Ready check (nextIn check it d.itArray xs) ∧
        xs.filter (check it.newestEdge) ++ validOf check d.itArray =
          remaining check (nextIn check it d.itArray xs) := by
      induction xs with
      | nil =>
        obtain ⟨hready, hrest⟩ := findFirstValid_spec check d.itArray
        exact ⟨hready, hrest.symm⟩
      | cons z zs ih =>
        unfold nextIn
        split
        · rename_i hz
          exact ⟨Or.inl ⟨_, z, zs, rfl, rfl, hz⟩, rfl⟩
        · rename_i hz
          rw [List.filter_cons_of_neg hz]
          exact ih
    exact ⟨hin.1, by rw [hin.2]⟩
  · rw [hnone] at hx
    cases hx

/-- A caller that goes on to the end gets the valid records. -/
theorem collect_eq_remaining {fuel : Nat} (h : Ready check d)
    (hfuel : (remaining check d).length ≤ fuel) : collect check fuel d = remaining check d := by
  induction fuel generalizing d with
  | zero =>
    rw [List.eq_nil_of_length_eq_zero (Nat.le_zero.mp hfuel)]
    rfl
  | succ fuel ih =>
    unfold collect
    cases hx : d.current with
    | none =>
      obtain ⟨it, x, xs, hit, hrecords, -⟩ | ⟨-, hnil⟩ := h
      · unfold current at hx
        rw [hit, Option.bind_some, hrecords] at hx
        cases hx
      · unfold remaining
        unfold current at hx
        cases hit : d.it with
        | none =>
          rw [hnil]
          rfl
        | some it =>
          rw [hit, Option.bind_some, List.head?_eq_none_iff] at hx
          simp [hnil, validOf, hx]
    | some x =>
      obtain ⟨hready, hrest⟩ := next_spec h hx
      rw [hrest] at hfuel ⊢
      dsimp only
      rw [ih hready (Nat.le_of_succ_le_succ hfuel)]

end EdgeIteratorDynamic

/-! ## Scans at a snapshot -/

namespace Snapshots

/-- The store with the start times of its tables. The file of a table keeps the start time of the
table. `globalSeq` is where the next table starts. -/
structure State where
  store : Store
  globalSeq : Nat
  startTime : Nat → Nat

/-- A source of a scan. The files of the deeper levels have no start time. -/
structure ScanSource where
  startTime : Option Nat
  iterator : SourceIterator

def ScanSource.records (S : ScanSource) : List Found := S.iterator.records

/-- The source is not passed over at the snapshot. -/
def ScanSource.startsBefore (seq : Nat) (S : ScanSource) : Bool :=
  S.startTime.all fun t => !decide (seq ≤ t)

namespace State

/-- The sources of `Store.scanFound`, with their start times and iterators. -/
def sources (st : State) (src : Nat) : List ScanSource :=
  let s := st.store
  if s.vertexMaxLevel src < 0 then []
  else
    (s.menTables.map fun t =>
      { startTime := some (st.startTime t.fid)
        iterator :=
          { records := (t.adj src).edges.map (Found.inMemtable t.fid)
            ownNewestEdge := newestOf (t.vertexAdjs.entries.flatMap fun a =>
              a.2.edges.map Edge.sequence) } }) ++
    (if 1 ≤ s.vertexMaxLevel src then
      (s.level0.filter fun f => (s.index src).minLevel0Fid ≤ f.timeStamp ∧
        src ≤ f.maxKey ∧ f.minKey ≤ src).map fun f =>
          { startTime := some (st.startTime f.timeStamp)
            iterator :=
              { records := (((f.offsets src).map fun p => f.slice p.1 p.2).getD []).map
                  (Found.inFile f.timeStamp)
                ownNewestEdge := newestOf (f.records.map EdgeRecord.seq) } }
    else []) ++
    (if 2 ≤ s.vertexMaxLevel src then
      (List.range (s.vertexMaxLevel src - 1).toNat).map fun slot =>
        { startTime := none
          iterator :=
            { records := (s.sliceAt src slot).map
                (Found.inFile ((s.index src).levels slot).fileID)
              ownNewestEdge := newestOf (((s.sstData ((s.index src).levels slot).fileID).map
                fun f => f.records.map EdgeRecord.seq).getD []) } }
    else [])

/-- The iterators that the constructor of `EdgeIteratorDynamic` collects. -/
def iterators (st : State) (src seq : Nat) : List EdgeIteratorBase :=
  ((st.sources src).filter fun S => S.startsBefore seq && !S.records.isEmpty).map fun S =>
    S.iterator.toEdgeIteratorBase

/-- `Get_Edges` at a snapshot, to its end. The iterators are taken from the last one on. -/
def getEdges (st : State) (src seq : Nat) (isOut : Bool) (edgeType : UInt8) : List Found :=
  let check := checkEntryValid src seq isOut edgeType
  let its := (st.iterators src seq).reverse
  EdgeIteratorDynamic.collect check (its.flatMap EdgeIteratorBase.records).length
    (EdgeIteratorDynamic.findFirstValid check its)

/-! ## What a scan yields -/

variable {st : State} {src seq : Nat} {isOut : Bool} {edgeType : UInt8}

/-- The test of direction and type. -/
def wanted (src : Nat) (isOut : Bool) (edgeType : UInt8) (x : Found) : Bool :=
  (x.key src).isOut == isOut && (x.key src).edgeType == edgeType

theorem sources_records (st : State) (src : Nat) :
    (st.sources src).map ScanSource.records = st.store.scanFound src := by
  unfold sources scanFound
  dsimp only
  split
  · rfl
  · rw [List.map_append, List.map_append, List.map_map]
    congr 1
    · congr 1
      split
      · rw [List.map_map]
        rfl
      · rfl
    · split
      · rw [List.map_map]
        rfl
      · rfl

/-- No iterator has set the field that the test asks. -/
theorem newestEdge_of_mem {S : ScanSource} (h : S ∈ st.sources src) :
    S.iterator.newestEdge = 0 := by
  unfold sources at h
  dsimp only at h
  split at h
  · cases h
  · rcases List.mem_append.mp h with h | h
    · rcases List.mem_append.mp h with h | h
      · obtain ⟨t, -, rfl⟩ := List.mem_map.mp h
        rfl
      · split at h
        · obtain ⟨f, -, rfl⟩ := List.mem_map.mp h
          rfl
        · cases h
    · split at h
      · obtain ⟨slot, -, rfl⟩ := List.mem_map.mp h
        rfl
      · cases h

/-- So every record passes at every snapshot but the first. -/
theorem checkEntryValid_zero (x : Found) :
    checkEntryValid src seq isOut edgeType 0 x =
      (wanted src isOut edgeType x && (decide (0 < seq) || decide (x.sequence ≤ seq))) := by
  unfold checkEntryValid wanted
  by_cases hout : (x.key src).isOut = isOut
  · by_cases htype : (x.key src).edgeType = edgeType
    · by_cases hseq : 0 < seq
      · simp [hout, htype, hseq]
      · simp [hout, htype, hseq]
    · simp [hout, htype]
  · simp [hout]

/-- A scan yields the records of the sources that are not passed over. -/
theorem getEdges_eq (st : State) (src seq : Nat) (isOut : Bool) (edgeType : UInt8) :
    st.getEdges src seq isOut edgeType =
      ((st.sources src).reverse.filter (ScanSource.startsBefore seq)).flatMap fun S =>
        S.records.filter fun x =>
          wanted src isOut edgeType x && (decide (0 < seq) || decide (x.sequence ≤ seq)) := by
  have hcollect : st.getEdges src seq isOut edgeType =
      EdgeIteratorDynamic.validOf (checkEntryValid src seq isOut edgeType)
        (st.iterators src seq).reverse := by
    obtain ⟨hready, hrest⟩ := EdgeIteratorDynamic.findFirstValid_spec
      (checkEntryValid src seq isOut edgeType) (st.iterators src seq).reverse
    refine (EdgeIteratorDynamic.collect_eq_remaining hready ?_).trans hrest
    rw [hrest]
    exact (List.Sublist.flatMap_right _ fun it _ => List.filter_sublist).length_le
  have hempty : ∀ S ∈ (st.sources src).reverse.filter (ScanSource.startsBefore seq),
      (!S.records.isEmpty) = false →
        S.records.filter (checkEntryValid src seq isOut edgeType S.iterator.newestEdge) = [] := by
    intro S _ hS
    have hnil : S.records = [] := by simpa using hS
    rw [hnil]
    rfl
  rw [hcollect]
  unfold EdgeIteratorDynamic.validOf iterators
  rw [← List.map_reverse, ← List.filter_reverse, List.flatMap_map]
  simp only [Bool.and_comm (ScanSource.startsBefore seq _)]
  rw [← List.filter_filter]
  refine (Lib.flatMap_filter_of_nil hempty).trans ?_
  refine List.flatMap_congr fun S hS => List.filter_congr fun x _ => ?_
  have hmem : S ∈ st.sources src := List.mem_reverse.mp (List.mem_filter.mp hS).1
  rw [newestEdge_of_mem hmem]
  exact checkEntryValid_zero x

/-- A scan at the largest sequence is that of the store. -/
theorem store_getEdges_eq (st : State) (src : Nat) (isOut : Bool) (edgeType : UInt8) :
    st.store.getEdges src isOut edgeType =
      (st.sources src).reverse.flatMap fun S => S.records.filter (wanted src isOut edgeType) := by
  unfold Store.getEdges
  rw [← sources_records, ← List.map_reverse, ← List.flatMap_def, List.filter_flatMap]
  rfl

/-- A scan at a snapshot after the first yields whatever the sources have that it asks. -/
theorem yields_visible_iff (st : State) (src seq : Nat) (isOut : Bool) (edgeType : UInt8) :
    (∀ x ∈ st.getEdges src seq isOut edgeType, x.sequence ≤ seq) ↔
      ∀ S ∈ st.sources src, S.startsBefore seq = true → ∀ x ∈ S.records,
        wanted src isOut edgeType x = true → 0 < seq → x.sequence ≤ seq := by
  rw [getEdges_eq]
  constructor
  · intro h S hS hstart x hx hwanted hpos
    refine h x (List.mem_flatMap.mpr ⟨S, List.mem_filter.mpr ⟨List.mem_reverse.mpr hS, hstart⟩,
      List.mem_filter.mpr ⟨hx, ?_⟩⟩)
    simp [hwanted, hpos]
  · intro h x hx
    obtain ⟨S, hS, hx⟩ := List.mem_flatMap.mp hx
    obtain ⟨hS, hstart⟩ := List.mem_filter.mp hS
    obtain ⟨hx, hpass⟩ := List.mem_filter.mp hx
    rw [Bool.and_eq_true, Bool.or_eq_true, decide_eq_true_eq, decide_eq_true_eq] at hpass
    rcases hpass.2 with hpos | hle
    · exact h S (List.mem_reverse.mp hS) hstart x hx hpass.1 hpos
    · exact hle

/-- A scan skips the smaller records of the sources that it passes over, and no others. -/
theorem skips_nothing_iff (st : State) (src seq : Nat) (isOut : Bool) (edgeType : UInt8) :
    ((st.store.getEdges src isOut edgeType).filter fun x => x.sequence < seq).Sublist
        (st.getEdges src seq isOut edgeType) ↔
      ∀ S ∈ st.sources src, S.startsBefore seq = false → ∀ x ∈ S.records,
        wanted src isOut edgeType x = true → seq ≤ x.sequence := by
  set smaller : Found → Bool := fun x => decide (x.sequence < seq) with hsmaller
  set g : ScanSource → List Found := fun S =>
    S.records.filter fun x => smaller x && wanted src isOut edgeType x with hg
  have hall : (st.store.getEdges src isOut edgeType).filter smaller =
      (st.sources src).reverse.flatMap g := by
    rw [store_getEdges_eq, List.filter_flatMap]
    exact List.flatMap_congr fun S _ => List.filter_filter
  have hyield : (st.getEdges src seq isOut edgeType).filter smaller =
      ((st.sources src).reverse.filter (ScanSource.startsBefore seq)).flatMap g := by
    rw [getEdges_eq, List.filter_flatMap]
    refine List.flatMap_congr fun S _ => ?_
    rw [List.filter_filter]
    refine List.filter_congr fun x _ => ?_
    by_cases hx : x.sequence < seq
    · have hle : x.sequence ≤ seq := Nat.le_of_lt hx
      simp [hsmaller, hx, hle]
    · simp [hsmaller, hx]
  -- What is asked for has only smaller records.
  have hself : ((st.store.getEdges src isOut edgeType).filter smaller).Sublist
      (st.getEdges src seq isOut edgeType) ↔
      ((st.store.getEdges src isOut edgeType).filter smaller).Sublist
        ((st.getEdges src seq isOut edgeType).filter smaller) := by
    constructor
    · intro h
      have := h.filter smaller
      rwa [List.filter_filter, List.filter_congr (q := smaller) (by simp)] at this
    · exact fun h => h.trans List.filter_sublist
  rw [hself, hall, hyield, Lib.flatMap_sublist_filter_iff]
  simp only [List.mem_reverse]
  refine forall₂_congr fun S _ => imp_congr_right fun _ => ?_
  rw [List.filter_eq_nil_iff]
  refine forall₂_congr fun x _ => ?_
  simp only [hsmaller, Bool.and_eq_true, decide_eq_true_eq, not_and]
  constructor
  · intro h hwanted
    by_contra hlt
    exact h (by omega) hwanted
  · intro h hlt hwanted
    have := h hwanted
    omega

end State

/-! ## Runs -/

def initial (o : Options) : State := ⟨Store.initial o, o.maxEdgeNum, fun _ => 0⟩

/-- A put of one record. Without a sequence of the caller it takes the start time of the table plus
the number of its slot. A table that the put opens starts at the global sequence. -/
def put (o : Options) (src dst : Nat) (payload : Bytes) (isOut : Bool) (edgeType : UInt8)
    (explicitSeq : Option Nat) (st : State) : Option State :=
  let s := st.store
  let sequence := explicitSeq.getD
    (st.startTime s.active.fid + (o.maxEdgeNum - s.active.remainCapacity))
  (Store.putEdge o src dst payload .kSingle isOut edgeType { s with nextSequence := sequence }).map
    fun s' =>
      if s'.active.fid = s.active.fid then { st with store := s' }
      else
        { store := s'
          globalSeq := st.globalSeq + o.maxEdgeNum
          startTime := Function.update st.startTime s'.active.fid st.globalSeq }

inductive Action where
  | put (src dst : Nat) (payload : Bytes) (isOut : Bool) (edgeType : UInt8)
      (explicitSeq : Option Nat)
  | background (a : Store.Action)
deriving DecidableEq

def step (o : Options) (st : State) : Action → Option State
  | .put src dst payload isOut edgeType explicitSeq =>
    put o src dst payload isOut edgeType explicitSeq st
  | .background a =>
    if GraphDb.Background a then
      (Store.step o st.store a).map fun s' => { st with store := s' }
    else none

variable {o : Options} {st st' : State}

/-- A memtable takes four edges. -/
def fourEdges : Options := { smallStore with maxEdgeNum := 4, maxEdgeNum_pos := by decide }

end Snapshots

end RichGraph
