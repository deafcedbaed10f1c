-- The merge of property deltas into the column of their base file: where the
-- slot of a record stands, how the records of a batch are written over it, and
-- what a chain shows after the merge.
import RichGraph.PropertyDelta
import RichGraph.SSTable
import RichGraph.Lib.Lists
import Mathlib.Data.List.Find

namespace RichGraph

open Lib

/-! ## Slots -/

/-- The slot of a record in a column. -/
def slotAt (slotLength : Nat) (column : Bytes) (ordinal : Nat) : Bytes :=
  (column.drop (ordinal * slotLength)).take slotLength

/-- `WritePaddedSubPropertySlot` into a column. -/
def writeSlot (slotLength : Nat) (column : Bytes) (ordinal : Nat) (value : Bytes) : Bytes :=
  column.take (ordinal * slotLength) ++ writePaddedSubPropertySlot slotLength value ++
    column.drop (ordinal * slotLength + slotLength)

/-- What a column gives back of a value. -/
def keptValue (slotLength : Nat) (value : Bytes) : Bytes :=
  readSubPropertyFromSlot (writePaddedSubPropertySlot slotLength value)

/-! ## The lookup of a slot -/

/-- The records of a file, what the store keeps of its index, and its columns. -/
structure SstData where
  sst : SSTable
  indexes : List Index
  columns : Nat → Bytes
  indexes_eq : indexes = sst.indexes ∨ indexes = []

/-- `LocateSstEdgeOrdinal`: the newest record of the key, when it is live and the one that the
delta is for. -/
def SstData.locateSstEdgeOrdinal (data : SstData) (r : PropertyDeltaRecord) : Option Nat := do
  let pos ← exactSearch (data.indexes.map Index.key) r.src data.indexes.length 0
    data.indexes.length
  let entry ← data.indexes[pos]?
  let next ← data.indexes[pos + 1]?
  let ordinal ← findEdgeOrdinal (data.sst.slice entry.offset next.offset) r.dst r.isOut r.edgeType
  let found ← data.sst.records[entry.offset + ordinal]?
  if found.marker = false ∧ found.seq = r.baseSequence then some (entry.offset + ordinal) else none

/-! ## The merge -/

inductive MergeError where
  | invalidRequest
  | unavailable
  | emptyBase
  | noMatch (fid src dst : Nat)
  | invalidOffset
deriving DecidableEq

/-- One record of the replay. -/
def mergeRecord (data : SstData) (baseFileId slotLength : Nat) (column : Bytes)
    (r : PropertyDeltaRecord) : Except MergeError Bytes :=
  match data.locateSstEdgeOrdinal r with
  | none => .error (.noMatch baseFileId r.src r.dst)
  | some ordinal =>
    if ordinal * slotLength > column.length ∨
        slotLength > column.length - ordinal * slotLength then .error .invalidOffset
    else .ok (writeSlot slotLength column ordinal r.value)

/-- The replay of the records, file by file. -/
def mergeRecords (data : SstData) (baseFileId slotLength : Nat) :
    Bytes → List PropertyDeltaRecord → Except MergeError Bytes
  | column, [] => .ok column
  | column, r :: rs =>
    match mergeRecord data baseFileId slotLength column r with
    | .error error => .error error
    | .ok column' => mergeRecords data baseFileId slotLength column' rs

/-- The properties of a shard. -/
structure ShardLayout where
  propertyObjectKind : PropertyObjectKind
  propertyShardId : Nat
  subPropertyLengths : List Nat
  lengths_pos : ∀ n ∈ subPropertyLengths, 0 < n

def ShardLayout.slotLength (layout : ShardLayout) (propertyId : Nat) : Nat :=
  layout.subPropertyLengths.getD propertyId 0

/-- The column under the deltas: the one of the last merge, or that of the file. -/
def baseColumn (data : SstData) (propertyId : Nat) (currentBase : Option Bytes) : Bytes :=
  currentBase.getD (data.columns propertyId)

/-- `MergePropertyDeltaColumn`, without its I/O. -/
def mergePropertyDeltaColumn (layout : ShardLayout) (data : Option SstData)
    (target : PropertyDeltaTarget) (currentBase : Option Bytes) (deltas : List PropertyDeltaFile) :
    Except MergeError Bytes :=
  if deltas = [] ∨ target.kind ≠ layout.propertyObjectKind ∨
      target.shardId ≠ layout.propertyShardId ∨
      target.propertyId ≥ layout.subPropertyLengths.length then .error .invalidRequest
  else
    match data with
    | none => .error .unavailable
    | some data =>
      if baseColumn data target.propertyId currentBase = [] then .error .emptyBase
      else
        mergeRecords data target.baseFileId (layout.slotLength target.propertyId)
          (baseColumn data target.propertyId currentBase) (chainRecords deltas)

/-! ## Writing a slot -/

section

variable {slotLength : Nat} {column : Bytes} {ordinal : Nat} {value : Bytes}

theorem length_writeSlot (h : ordinal * slotLength + slotLength ≤ column.length) :
    (writeSlot slotLength column ordinal value).length = column.length := by
  simp only [writeSlot, List.length_append, List.length_take, List.length_drop,
    length_writePaddedSubPropertySlot]
  omega

theorem slotAt_writeSlot_same (h : ordinal * slotLength + slotLength ≤ column.length) :
    slotAt slotLength (writeSlot slotLength column ordinal value) ordinal =
      writePaddedSubPropertySlot slotLength value := by
  have hlen : (column.take (ordinal * slotLength)).length = ordinal * slotLength := by
    rw [List.length_take]
    omega
  unfold slotAt writeSlot
  rw [List.append_assoc, List.drop_left' hlen,
    List.take_left' (length_writePaddedSubPropertySlot _ _)]

/-- The other slots stay as they are. -/
theorem slotAt_writeSlot_other {other : Nat} (hne : other ≠ ordinal)
    (h : ordinal * slotLength + slotLength ≤ column.length) :
    slotAt slotLength (writeSlot slotLength column ordinal value) other =
      slotAt slotLength column other := by
  have hlen : (column.take (ordinal * slotLength)).length = ordinal * slotLength := by
    rw [List.length_take]
    omega
  unfold slotAt writeSlot
  rcases Nat.lt_or_gt_of_ne hne with hlt | hgt
  · -- The slot ends before the one that is written.
    have hend : other * slotLength + slotLength ≤ ordinal * slotLength := by
      have := Nat.mul_le_mul_right slotLength hlt
      rw [Nat.succ_mul] at this
      exact this
    rw [List.append_assoc, List.drop_append_of_le_length (by omega),
      List.take_append_of_le_length (by rw [List.length_drop]; omega), List.drop_take,
      List.take_take, Nat.min_eq_left (by omega)]
  · have hstart : ordinal * slotLength + slotLength ≤ other * slotLength := by
      have := Nat.mul_le_mul_right slotLength hgt
      rw [Nat.succ_mul] at this
      exact this
    rw [List.drop_append, List.drop_eq_nil_of_le (by simp; omega), List.nil_append, List.drop_drop]
    simp only [List.length_append, hlen, length_writePaddedSubPropertySlot]
    rw [show ordinal * slotLength + slotLength + (other * slotLength -
      (ordinal * slotLength + slotLength)) = other * slotLength by omega]

end

/-- What a column gives back is not changed by another round. -/
theorem keptValue_keptValue (slotLength : Nat) (value : Bytes) :
    keptValue slotLength (keptValue slotLength value) = keptValue slotLength value := by
  apply read_of_write_fits
  · unfold keptValue readSubPropertyFromSlot
    have hle := (List.rdropWhile_prefix (· == (0 : UInt8))
      (l := writePaddedSubPropertySlot slotLength value)).length_le
    rwa [length_writePaddedSubPropertySlot] at hle
  · intro b hb
    unfold keptValue readSubPropertyFromSlot at hb
    have hne : (writePaddedSubPropertySlot slotLength value).rdropWhile (· == 0) ≠ [] := by
      intro hnil
      rw [hnil] at hb
      cases hb
    have hlast := List.rdropWhile_last_not (· == (0 : UInt8))
      (writePaddedSubPropertySlot slotLength value) hne
    rw [List.getLast?_eq_some_getLast hne, Option.mem_some_iff] at hb
    subst hb
    simpa using hlast

/-! ## Where a record stands -/

/-- The key of the record that a delta is for. -/
def PropertyDeltaRecord.key (r : PropertyDeltaRecord) : EdgeKey := r.id.key

def EdgeRecord.id (r : EdgeRecord) : RecordId := ⟨r.src, r.dst, r.seq, r.isOut, r.edgeType⟩

/-- The place of the first record of a key, which is the newest one. -/
def SSTable.ordinalOf (t : SSTable) (k : EdgeKey) : Option Nat := t.records.findIdx? (·.key = k)

/-- In the bodies of one source the lookup finds the first record of the key. -/
theorem findEdgeOrdinal_eq {bodies : List EdgeRecord} {k : EdgeKey}
    (hsrc : ∀ r ∈ bodies, r.src = k.src) (hs : bodies.Pairwise EdgeRecord.le) :
    findEdgeOrdinal bodies k.dst k.isOut k.edgeType = bodies.findIdx? (·.key = k) := by
  have hdst : bodies.Pairwise fun a b => a.dst ≤ b.dst := by
    refine hs.imp_of_mem ?_
    intro a b ha hb hab
    have := hsrc a ha
    have := hsrc b hb
    rw [EdgeRecord.le_iff] at hab
    omega
  unfold findEdgeOrdinal
  rw [findIdx?_group k.dst hdst (Nat.le_refl _)]
  refine findIdx?_congr fun r hr => ?_
  have := hsrc r hr
  obtain ⟨src, dst, isOut, edgeType⟩ := k
  rw [Bool.eq_iff_iff]
  simp_all [EdgeRecord.key]

section

variable {t : SSTable} {v offset next : Nat}

/-- No record of a source stands outside its slice. -/
theorem SSTable.src_ne_of_offsets (h : t.offsets v = some (offset, next)) :
    (∀ r ∈ t.records.take offset, r.src ≠ v) ∧
      ∀ r ∈ (t.records.drop offset).drop (next - offset), r.src ≠ v := by
  have hslice := t.slice_of_offsets h
  have hparts : t.records = t.records.take offset ++ (t.slice offset next ++
      (t.records.drop offset).drop (next - offset)) := by
    unfold SSTable.slice
    rw [List.take_append_drop, List.take_append_drop]
  have hcount := congrArg (fun l => (l.filter (·.src = v)).length) hparts
  have hself : (t.slice offset next).filter (·.src = v) = t.slice offset next := by
    rw [hslice]
    exact List.filter_eq_self.mpr fun r hr => by simpa using (SSTable.mem_recordsOf.mp hr).2
  have hrecords : (t.records.filter (·.src = v)).length = (t.slice offset next).length := by
    rw [hslice]
    rfl
  simp only [List.filter_append, List.length_append, hself, hrecords] at hcount
  have hbefore : (t.records.take offset).filter (·.src = v) = [] :=
    List.length_eq_zero_iff.mp (by omega)
  have hafter : ((t.records.drop offset).drop (next - offset)).filter (·.src = v) = [] :=
    List.length_eq_zero_iff.mp (by omega)
  rw [List.filter_eq_nil_iff] at hbefore hafter
  exact ⟨fun r hr => by simpa using hbefore r hr, fun r hr => by simpa using hafter r hr⟩

theorem SSTable.ordinalOf_eq {k : EdgeKey} (h : t.offsets k.src = some (offset, next)) :
    t.ordinalOf k = ((t.recordsOf k.src).findIdx? (·.key = k)).map (offset + ·) := by
  obtain ⟨hbefore, hafter⟩ := SSTable.src_ne_of_offsets h
  have hother : ∀ {r : EdgeRecord}, r.src ≠ k.src → decide (r.key = k) = false := by
    intro r hr
    exact decide_eq_false fun hk => hr (congrArg EdgeKey.src hk)
  have hle : t.slice offset next ≠ [] → offset ≤ t.records.length := by
    intro hne
    by_contra hgt
    apply hne
    unfold SSTable.slice
    rw [List.drop_eq_nil_of_le (by omega), List.take_nil]
  have hparts : t.records = t.records.take offset ++ (t.slice offset next ++
      (t.records.drop offset).drop (next - offset)) := by
    unfold SSTable.slice
    rw [List.take_append_drop, List.take_append_drop]
  rw [← t.slice_of_offsets h]
  unfold SSTable.ordinalOf
  rw [hparts, List.findIdx?_append, List.findIdx?_append,
    List.findIdx?_eq_none_iff.mpr fun r hr => hother (hbefore r hr),
    List.findIdx?_eq_none_iff.mpr fun r hr => hother (hafter r hr), Option.map_none, Option.or_none,
    Option.none_or]
  cases hfind : (t.slice offset next).findIdx? (fun r => decide (r.key = k)) with
  | none => rfl
  | some n =>
    have hne : t.slice offset next ≠ [] := by
      intro hnil
      rw [hnil] at hfind
      cases hfind
    have := hle hne
    simp only [Option.map_some, List.length_take, Nat.min_eq_left this, Nat.add_comm n]

end

section

variable {data : SstData} {r : PropertyDeltaRecord} {n : Nat}

/-- A delta is located at the newest record of its key, when that is live and the one named. -/
theorem locateSstEdgeOrdinal_eq_some_iff (hidx : data.indexes = data.sst.indexes) :
    data.locateSstEdgeOrdinal r = some n ↔ data.sst.ordinalOf r.key = some n ∧
      ∃ x, data.sst.records[n]? = some x ∧ x.marker = false ∧ x.seq = r.baseSequence := by
  have hlocate : data.locateSstEdgeOrdinal r = (data.sst.offsets r.src).bind fun p =>
      (findEdgeOrdinal (data.sst.slice p.1 p.2) r.dst r.isOut r.edgeType).bind fun ordinal =>
        (data.sst.records[p.1 + ordinal]?).bind fun found =>
          if found.marker = false ∧ found.seq = r.baseSequence then some (p.1 + ordinal)
          else none := by
    unfold SstData.locateSstEdgeOrdinal SSTable.offsets SSTable.get
    rw [hidx]
    simp only [Option.bind_eq_bind, Option.bind_assoc, Option.pure_def, Option.bind_some]
  rw [hlocate]
  cases ho : data.sst.offsets r.src with
  | none =>
    have hnone : data.sst.ordinalOf r.key = none := by
      apply List.findIdx?_eq_none_iff.mpr
      intro x hx
      apply decide_eq_false
      intro hk
      have hsome := (data.sst.offsets_isSome_iff (v := r.src)).mpr ⟨x, hx, congrArg EdgeKey.src hk⟩
      rw [ho] at hsome
      cases hsome
    simp [hnone]
  | some p =>
    obtain ⟨offset, next⟩ := p
    have hslice := data.sst.slice_of_offsets ho
    have hsrc : ∀ x ∈ data.sst.slice offset next, x.src = r.key.src := by
      intro x hx
      rw [hslice] at hx
      exact (SSTable.mem_recordsOf.mp hx).2
    have hsorted : (data.sst.slice offset next).Pairwise EdgeRecord.le := by
      rw [hslice]
      exact data.sst.sorted.filter _
    have hfind := findEdgeOrdinal_eq hsrc hsorted
    rw [hslice] at hfind
    have hord : data.sst.ordinalOf r.key =
        ((data.sst.recordsOf r.src).findIdx? (·.key = r.key)).map (offset + ·) :=
      SSTable.ordinalOf_eq ho
    rw [← hfind] at hord
    rw [hord]
    simp only [Option.bind_some, hslice]
    change (findEdgeOrdinal _ r.key.dst r.key.isOut r.key.edgeType).bind _ = _ ↔ _
    cases findEdgeOrdinal (data.sst.recordsOf r.src) r.key.dst r.key.isOut r.key.edgeType with
    | none => simp
    | some ordinal =>
      simp only [Option.bind_some, Option.map_some, Option.some.injEq, Option.bind_eq_some_iff,
        Option.ite_none_right_eq_some]
      constructor
      · rintro ⟨x, hx, ⟨hlive, hseq⟩, rfl⟩
        exact ⟨rfl, x, hx, hlive, hseq⟩
      · rintro ⟨rfl, x, hx, hlive, hseq⟩
        exact ⟨x, hx, ⟨hlive, hseq⟩, rfl⟩

theorem locateSstEdgeOrdinal_of_no_index (hidx : data.indexes = []) :
    data.locateSstEdgeOrdinal r = none := by
  unfold SstData.locateSstEdgeOrdinal
  rw [hidx]
  rfl

/-- A delta that is located is for the first record of its id. -/
theorem findIdx?_of_located (h : data.locateSstEdgeOrdinal r = some n) :
    data.sst.records.findIdx? (·.id = r.id) = some n := by
  have hidx : data.indexes = data.sst.indexes := by
    rcases data.indexes_eq with hidx | hidx
    · exact hidx
    · rw [locateSstEdgeOrdinal_of_no_index hidx] at h
      cases h
  obtain ⟨hord, x, hx, -, hseq⟩ := (locateSstEdgeOrdinal_eq_some_iff hidx).mp h
  unfold SSTable.ordinalOf at hord
  rw [List.findIdx?_eq_some_iff_getElem] at hord ⊢
  obtain ⟨hlt, hkey, hfirst⟩ := hord
  have hx' : data.sst.records[n] = x := by
    rw [List.getElem?_eq_getElem hlt] at hx
    exact Option.some.inj hx
  have hid : ∀ y : EdgeRecord, y.id = r.id → y.key = r.key := by
    intro y hy
    simp only [EdgeRecord.id, PropertyDeltaRecord.id, RecordId.mk.injEq] at hy
    simp only [EdgeRecord.key, PropertyDeltaRecord.key, PropertyDeltaRecord.id, RecordId.key,
      EdgeKey.mk.injEq]
    exact ⟨hy.1, hy.2.1, hy.2.2.2.1, hy.2.2.2.2⟩
  refine ⟨hlt, ?_, ?_⟩
  · rw [hx'] at hkey ⊢
    simp only [decide_eq_true_eq, EdgeRecord.key, PropertyDeltaRecord.key, PropertyDeltaRecord.id,
      RecordId.key, EdgeKey.mk.injEq] at hkey
    simp only [decide_eq_true_eq, EdgeRecord.id, PropertyDeltaRecord.id, RecordId.mk.injEq]
    exact ⟨hkey.1, hkey.2.1, hseq, hkey.2.2.1, hkey.2.2.2⟩
  · intro j hj
    have := hfirst j hj
    simp only [decide_eq_true_eq] at this ⊢
    exact fun heq => this (hid _ heq)

end

/-! ## The replay -/

section

variable {data : SstData} {fid slotLength : Nat} {column column' : Bytes}
  {r : PropertyDeltaRecord} {rs : List PropertyDeltaRecord}

/-- The slot of the record that a delta is for lies in a column of this length. -/
def SstData.Places (data : SstData) (slotLength length : Nat) (r : PropertyDeltaRecord) : Prop :=
  ∃ n, data.locateSstEdgeOrdinal r = some n ∧ n * slotLength + slotLength ≤ length

theorem mergeRecord_cases (data : SstData) (fid slotLength : Nat) (column : Bytes)
    (r : PropertyDeltaRecord) :
    (∃ n, data.locateSstEdgeOrdinal r = some n ∧ n * slotLength + slotLength ≤ column.length ∧
        mergeRecord data fid slotLength column r = .ok (writeSlot slotLength column n r.value)) ∨
      ¬ data.Places slotLength column.length r ∧
        ∃ error, mergeRecord data fid slotLength column r = .error error := by
  unfold mergeRecord
  cases hn : data.locateSstEdgeOrdinal r with
  | none =>
    refine Or.inr ⟨?_, _, rfl⟩
    rintro ⟨n, hsome, -⟩
    rw [hn] at hsome
    cases hsome
  | some n =>
    by_cases hroom : n * slotLength > column.length ∨
        slotLength > column.length - n * slotLength
    · refine Or.inr ⟨?_, _, if_pos hroom⟩
      rintro ⟨n', hsome, hle⟩
      rw [hn] at hsome
      cases hsome
      omega
    · exact Or.inl ⟨n, rfl, by omega, if_neg hroom⟩

/-- The replay succeeds when every record has its slot, and then only. -/
theorem mergeRecords_ok_iff :
    (∃ column', mergeRecords data fid slotLength column rs = .ok column') ↔
    ∀ r ∈ rs, data.Places slotLength column.length r := by
  induction rs generalizing column with
  | nil => simp [mergeRecords]
  | cons r rs ih =>
    simp only [mergeRecords, List.forall_mem_cons]
    rcases mergeRecord_cases data fid slotLength column r with
      ⟨n, hn, hle, hok⟩ | ⟨hnot, error, herror⟩
    · simp only [hok]
      rw [ih, length_writeSlot hle]
      exact (and_iff_right ⟨n, hn, hle⟩).symm
    · simp only [herror, reduceCtorEq, exists_false, false_iff, not_and]
      exact fun hplaces => absurd hplaces hnot

/-- After the replay a slot holds the value of the last record that is for it. -/
theorem slotAt_mergeRecords (h : mergeRecords data fid slotLength column rs = .ok column') :
    column'.length = column.length ∧ ∀ n, slotAt slotLength column' n =
      ((rs.reverse.find? (data.locateSstEdgeOrdinal · = some n)).map fun r =>
        writePaddedSubPropertySlot slotLength r.value).getD (slotAt slotLength column n) := by
  induction rs generalizing column with
  | nil =>
    cases h
    simp
  | cons r rs ih =>
    simp only [mergeRecords] at h
    rcases mergeRecord_cases data fid slotLength column r with
      ⟨n, hn, hle, hok⟩ | ⟨-, error, herror⟩
    · simp only [hok] at h
      obtain ⟨hlen, hslots⟩ := ih h
      refine ⟨hlen.trans (length_writeSlot hle), ?_⟩
      intro m
      rw [hslots m, List.reverse_cons, List.find?_append]
      cases hfind : rs.reverse.find? (data.locateSstEdgeOrdinal · = some m) with
      | some x => rfl
      | none =>
        by_cases hm : m = n
        · subst hm
          simp [hn, slotAt_writeSlot_same hle]
        · have hne : n ≠ m := fun heq => hm heq.symm
          simp [hn, hne, slotAt_writeSlot_other hm hle]
    · simp [herror] at h

end

/-! ## Reads and merges of a chain -/

/-- What is read of the record of this id: the newest delta, or else its slot in the column. -/
def PropertyDeltaReadView.read (v : PropertyDeltaReadView) (layout : ShardLayout) (data : SstData)
    (propertyId : Nat) (id : RecordId) : Option Bytes :=
  (data.sst.records.findIdx? (·.id = id)).map fun n =>
    match v.lookup id kLatestPropertyCommit with
    | some r => r.value
    | none => readSubPropertyFromSlot
        (slotAt (layout.slotLength propertyId) (baseColumn data propertyId v.mergedBase) n)

/-- The deltas of one column. That a second merge of the chain waits for the first
(`merge_scheduled_or_running`) is left out. -/
structure Chain where
  readView : PropertyDeltaReadView
  targetIsPersistent : Bool
deriving DecidableEq

/-- The new view of `Attach`. -/
def Chain.attach (c : Chain) (f : PropertyDeltaFile) : Chain :=
  { c with
    readView :=
      { c.readView with
        deltas := c.readView.deltas ++ [f]
        generation := max c.readView.generation f.metadata.fileGeneration } }

/-- The oldest files of the chain, which `MergeChain` takes; none when there is nothing to do. -/
def Chain.batch (c : Chain) (mergeThreshold : Nat) (mergeAll : Bool) : List PropertyDeltaFile :=
  if ¬ c.targetIsPersistent ∨ c.readView.deltas = [] ∨
      ¬ mergeAll ∧ c.readView.deltas.length < mergeThreshold then []
  else c.readView.deltas.take (if mergeAll then c.readView.deltas.length else mergeThreshold)

inductive MergeChainError where
  | callback (error : MergeError)
  | manifest
  | chainChanged
  | prefixChanged
deriving DecidableEq

/-- The end of `MergeChain`, on the chain as it is by then. -/
def Chain.publish (current : Chain) (batch : List PropertyDeltaFile) (mergedBase : Bytes)
    (outputGeneration : Nat) : Except MergeChainError Chain :=
  if current.readView.deltas.length < batch.length then .error .chainChanged
  else if current.readView.deltas.take batch.length ≠ batch then .error .prefixChanged
  else
    .ok { current with
      readView := ⟨some mergedBase, current.readView.deltas.drop batch.length, outputGeneration⟩ }

/-- `MergeChain`. Between the capture of the batch and its end other calls may attach files;
`removed` is what `AppendRemove` returns. -/
def mergeChain (layout : ShardLayout) (data : Option SstData) (target : PropertyDeltaTarget)
    (mergeThreshold : Nat) (mergeAll : Bool) (captured current : Chain) (outputGeneration : Nat)
    (removed : Bool) : Except MergeChainError Chain :=
  let batch := captured.batch mergeThreshold mergeAll
  if batch = [] then .ok current
  else
    match mergePropertyDeltaColumn layout data target captured.readView.mergedBase batch with
    | .error error => .error (.callback error)
    | .ok mergedBase =>
      if removed then current.publish batch mergedBase outputGeneration else .error .manifest

theorem Chain.attach_all (c : Chain) (fs : List PropertyDeltaFile) :
    (fs.foldl Chain.attach c).readView.deltas = c.readView.deltas ++ fs ∧
      (fs.foldl Chain.attach c).readView.mergedBase = c.readView.mergedBase := by
  induction fs generalizing c with
  | nil => simp
  | cons f fs ih =>
    obtain ⟨hdeltas, hbase⟩ := ih (c.attach f)
    rw [List.foldl_cons, hdeltas, hbase]
    exact ⟨by simp [Chain.attach], rfl⟩

/-- A batch that is the front of the chain is published. -/
theorem Chain.publish_of_append {c : Chain} {batch rest : List PropertyDeltaFile}
    {mergedBase : Bytes} {outputGeneration : Nat} (h : c.readView.deltas = batch ++ rest) :
    c.publish batch mergedBase outputGeneration =
      .ok { c with readView := ⟨some mergedBase, rest, outputGeneration⟩ } := by
  unfold Chain.publish
  rw [h, if_neg (by simp), if_neg (by simp), List.drop_left]

theorem Chain.batch_prefix (c : Chain) (mergeThreshold : Nat) (mergeAll : Bool) :
    c.batch mergeThreshold mergeAll <+: c.readView.deltas := by
  unfold Chain.batch
  split
  · exact List.nil_prefix
  · exact List.take_prefix _ _

theorem chainRecords_append (fs gs : List PropertyDeltaFile) :
    chainRecords (fs ++ gs) = chainRecords fs ++ chainRecords gs := List.flatMap_append

/-- The commits of a file fit its header, so that a read of the latest state sees them all. -/
theorem seen_latest {f : PropertyDeltaFile} {r : PropertyDeltaRecord} (hr : r ∈ f.records)
    (id : RecordId) : Seen id kLatestPropertyCommit r = decide (r.id = id) := by
  have hmax := (f.commits r hr).2
  have hlt := f.metadata.lt.2.2.2.2.1
  have hle : r.commitSequence ≤ kLatestPropertyCommit := by
    unfold kLatestPropertyCommit
    omega
  simp [Seen, hle]

section

variable {layout : ShardLayout} {data : SstData} {target : PropertyDeltaTarget}
  {base merged : Bytes} {batch rest : List PropertyDeltaFile}

/-- Where the records of a merged batch stand. -/
theorem located_iff_of_ok {fid slotLength : Nat} {column column' : Bytes}
    {rs : List PropertyDeltaRecord} (h : mergeRecords data fid slotLength column rs = .ok column')
    {id : RecordId} {n : Nat} (hn : data.sst.records.findIdx? (·.id = id) = some n)
    {r : PropertyDeltaRecord} (hr : r ∈ rs) :
    data.locateSstEdgeOrdinal r = some n ↔ r.id = id := by
  obtain ⟨m, hm, -⟩ := mergeRecords_ok_iff.mp ⟨_, h⟩ r hr
  have hfirst := findIdx?_of_located hm
  constructor
  · intro hloc
    rw [findIdx?_of_located hloc] at hfirst
    cases hfirst
    obtain ⟨_, hid, -⟩ := List.findIdx?_eq_some_iff_getElem.mp hn
    obtain ⟨_, hrid, -⟩ := List.findIdx?_eq_some_iff_getElem.mp (findIdx?_of_located hloc)
    exact (of_decide_eq_true hrid).symm.trans (of_decide_eq_true hid)
  · rintro rfl
    rw [hfirst] at hn
    rw [hm, hn]

/-- A batch that went into the column is read there as it was read in the chain. -/
theorem read_after_merge (horder : InCommitOrder (batch ++ rest))
    (h : mergeRecords data target.baseFileId (layout.slotLength target.propertyId) base
      (chainRecords batch) = .ok merged) {currentBase : Option Bytes}
    (hbase : baseColumn data target.propertyId currentBase = base) (generation generation' : Nat)
    (id : RecordId) :
    ((⟨some merged, rest, generation'⟩ : PropertyDeltaReadView).read layout data target.propertyId
        id).map (keptValue (layout.slotLength target.propertyId)) =
      ((⟨currentBase, batch ++ rest, generation⟩ : PropertyDeltaReadView).read layout data
        target.propertyId id).map (keptValue (layout.slotLength target.propertyId)) := by
  have hrest : InCommitOrder rest := List.Pairwise.sublist (List.sublist_append_right _ _) horder
  unfold PropertyDeltaReadView.read
  cases hn : data.sst.records.findIdx? (·.id = id) with
  | none => rfl
  | some n =>
    simp only [Option.map_some]
    rw [PropertyDeltaReadView.lookup_eq hrest, PropertyDeltaReadView.lookup_eq horder,
      chainRecords_append, List.reverse_append, List.find?_append]
    cases (chainRecords rest).reverse.find? (Seen id kLatestPropertyCommit) with
    | some r => rfl
    | none =>
      -- The files of the batch are searched for the record that the slot now holds.
      have hsame : (chainRecords batch).reverse.find? (Seen id kLatestPropertyCommit) =
          (chainRecords batch).reverse.find? (data.locateSstEdgeOrdinal · = some n) := by
        apply List.find?_congr
        intro r hr
        have hr' := List.mem_reverse.mp hr
        obtain ⟨f, -, hrf⟩ := List.mem_flatMap.mp hr'
        rw [seen_latest hrf, Bool.eq_iff_iff]
        simpa using (located_iff_of_ok h hn hr').symm
      have hslot := (slotAt_mergeRecords h).2 n
      rw [Option.none_or, hsame]
      simp only [baseColumn, Option.getD_some, hslot]
      cases (chainRecords batch).reverse.find? (data.locateSstEdgeOrdinal · = some n) with
      | some r => exact congrArg some (keptValue_keptValue _ _)
      | none =>
        subst hbase
        rfl

/-- A merge into a column takes every record that has its slot there. -/
theorem mergePropertyDeltaColumn_of_request {currentBase : Option Bytes}
    (hne : batch ≠ []) (hkind : target.kind = layout.propertyObjectKind)
    (hshard : target.shardId = layout.propertyShardId)
    (hproperty : target.propertyId < layout.subPropertyLengths.length)
    (hbase : baseColumn data target.propertyId currentBase ≠ []) :
    mergePropertyDeltaColumn layout (some data) target currentBase batch =
      mergeRecords data target.baseFileId (layout.slotLength target.propertyId)
        (baseColumn data target.propertyId currentBase) (chainRecords batch) := by
  unfold mergePropertyDeltaColumn
  rw [if_neg]
  · simp only [if_neg hbase]
  · simp only [not_or, not_le, ge_iff_le, ne_eq, not_not]
    exact ⟨hne, hkind, hshard, hproperty⟩

theorem mergeRecords_of_mergePropertyDeltaColumn {currentBase : Option Bytes}
    (h : mergePropertyDeltaColumn layout (some data) target currentBase batch = .ok merged) :
    mergeRecords data target.baseFileId (layout.slotLength target.propertyId)
      (baseColumn data target.propertyId currentBase) (chainRecords batch) = .ok merged := by
  unfold mergePropertyDeltaColumn at h
  split at h
  · cases h
  · simp only at h
    split at h
    · cases h
    · exact h

end

/-- What a `MergeChain` that succeeds has done, when files were attached meanwhile. -/
theorem mergeChain_cases {layout : ShardLayout} {data : SstData} {target : PropertyDeltaTarget}
    {mergeThreshold outputGeneration : Nat} {mergeAll removed : Bool} {captured c : Chain}
    {attached : List PropertyDeltaFile}
    (h : mergeChain layout (some data) target mergeThreshold mergeAll captured
      (attached.foldl Chain.attach captured) outputGeneration removed = .ok c) :
    (captured.batch mergeThreshold mergeAll = [] ∧ c = attached.foldl Chain.attach captured) ∨
    ∃ merged rest,
      captured.readView.deltas ++ attached = captured.batch mergeThreshold mergeAll ++ rest ∧
      (∃ kept, rest = kept ++ attached) ∧
      mergeRecords data target.baseFileId (layout.slotLength target.propertyId)
        (baseColumn data target.propertyId captured.readView.mergedBase)
        (chainRecords (captured.batch mergeThreshold mergeAll)) = .ok merged ∧
      c.readView = ⟨some merged, rest, outputGeneration⟩ := by
  unfold mergeChain at h
  simp only at h
  split at h
  · rename_i hnil
    cases h
    exact Or.inl ⟨hnil, rfl⟩
  · refine Or.inr ?_
    split at h
    · cases h
    · rename_i merged hmerge
      obtain ⟨kept, hkept⟩ := captured.batch_prefix mergeThreshold mergeAll
      have hdeltas : (attached.foldl Chain.attach captured).readView.deltas =
          captured.batch mergeThreshold mergeAll ++ (kept ++ attached) := by
        rw [(captured.attach_all attached).1, ← List.append_assoc, hkept]
      refine ⟨merged, kept ++ attached, ?_, ⟨kept, rfl⟩,
        mergeRecords_of_mergePropertyDeltaColumn hmerge, ?_⟩
      · rw [← List.append_assoc, hkept]
      · split at h
        · unfold Chain.publish at h
          rw [hdeltas] at h
          rw [if_neg (by simp), if_neg (by simp)] at h
          cases h
          simp
        · cases h

/-- A merge keeps what is read of every edge of the file, up to what a slot keeps of a value.
The files that were attached meanwhile are still read first, and the slots of the edges without a
record in the batch are as they were. -/
theorem merge_keeps_what_is_read {layout : ShardLayout} {data : SstData}
    {target : PropertyDeltaTarget} {mergeThreshold outputGeneration : Nat} {mergeAll removed : Bool}
    {captured c : Chain} {attached : List PropertyDeltaFile}
    (horder : InCommitOrder (captured.readView.deltas ++ attached))
    (h : mergeChain layout (some data) target mergeThreshold mergeAll captured
      (attached.foldl Chain.attach captured) outputGeneration removed = .ok c) :
    (∀ id, (∃ x ∈ data.sst.records, x.id = id) →
      ∃ value value', c.readView.read layout data target.propertyId id = some value ∧
        (attached.foldl Chain.attach captured).readView.read layout data target.propertyId id =
          some value' ∧
        keptValue (layout.slotLength target.propertyId) value =
          keptValue (layout.slotLength target.propertyId) value') ∧
    (∀ id r, (⟨none, attached, 0⟩ : PropertyDeltaReadView).lookup id kLatestPropertyCommit =
      some r → c.readView.lookup id kLatestPropertyCommit = some r) ∧
    (baseColumn data target.propertyId c.readView.mergedBase).length =
      (baseColumn data target.propertyId captured.readView.mergedBase).length ∧
    ∀ n, (∀ r ∈ chainRecords (captured.batch mergeThreshold mergeAll),
        data.sst.records.findIdx? (·.id = r.id) ≠ some n) →
      slotAt (layout.slotLength target.propertyId)
          (baseColumn data target.propertyId c.readView.mergedBase) n =
        slotAt (layout.slotLength target.propertyId)
          (baseColumn data target.propertyId captured.readView.mergedBase) n := by
  obtain ⟨hdeltas, hmergedBase⟩ := captured.attach_all attached
  have hattached : ∀ {rest kept : List PropertyDeltaFile} {base : Option Bytes} {g : Nat},
      rest = kept ++ attached → InCommitOrder rest → ∀ id r,
      (⟨none, attached, 0⟩ : PropertyDeltaReadView).lookup id kLatestPropertyCommit = some r →
        (⟨base, rest, g⟩ : PropertyDeltaReadView).lookup id kLatestPropertyCommit = some r := by
    rintro rest kept base g rfl hrest id r hr
    have hlast : InCommitOrder attached :=
      List.Pairwise.sublist (List.sublist_append_right _ _) hrest
    rw [PropertyDeltaReadView.lookup_eq hlast] at hr
    rw [PropertyDeltaReadView.lookup_eq hrest, chainRecords_append, List.reverse_append,
      List.find?_append, hr, Option.some_or]
  have hsome : ∀ (v : PropertyDeltaReadView) id, (∃ x ∈ data.sst.records, x.id = id) →
      ∃ value, v.read layout data target.propertyId id = some value := by
    rintro v id ⟨x, hx, hid⟩
    unfold PropertyDeltaReadView.read
    cases hn : data.sst.records.findIdx? (·.id = id) with
    | some n => exact ⟨_, rfl⟩
    | none =>
      have := List.findIdx?_eq_none_iff.mp hn x hx
      simp [hid] at this
  rcases mergeChain_cases h with ⟨-, rfl⟩ | ⟨merged, rest, hsplit, ⟨kept, hkept⟩, hmerge, hview⟩
  · refine ⟨?_, ?_, by rw [hmergedBase], fun n _ => by rw [hmergedBase]⟩
    · intro id hid
      obtain ⟨value, hvalue⟩ := hsome (attached.foldl Chain.attach captured).readView id hid
      exact ⟨value, value, hvalue, hvalue, rfl⟩
    · intro id r hr
      exact hattached hdeltas (hdeltas ▸ horder) id r hr
  · rw [hsplit] at horder
    have hbefore : (attached.foldl Chain.attach captured).readView =
        ⟨captured.readView.mergedBase, captured.batch mergeThreshold mergeAll ++ rest,
          (attached.foldl Chain.attach captured).readView.generation⟩ := by
      rw [← hsplit, ← hdeltas, ← hmergedBase]
    rw [hview]
    refine ⟨?_, ?_, ?_, ?_⟩
    · intro id hid
      obtain ⟨value, hvalue⟩ := hsome ⟨some merged, rest, outputGeneration⟩ id hid
      obtain ⟨value', hvalue'⟩ := hsome (attached.foldl Chain.attach captured).readView id hid
      refine ⟨value, value', hvalue, hvalue', ?_⟩
      have hread := read_after_merge horder hmerge rfl
        (attached.foldl Chain.attach captured).readView.generation outputGeneration id
      rw [← hbefore, hvalue, hvalue'] at hread
      exact Option.some.inj hread
    · exact hattached hkept
        (List.Pairwise.sublist (List.sublist_append_right _ _) horder)
    · exact (slotAt_mergeRecords hmerge).1
    · intro n hn
      have hnone : (chainRecords (captured.batch mergeThreshold mergeAll)).reverse.find?
          (data.locateSstEdgeOrdinal · = some n) = none := by
        apply List.find?_eq_none.mpr
        intro r hr hloc
        exact hn r (List.mem_reverse.mp hr) (findIdx?_of_located (of_decide_eq_true hloc))
      simp only [baseColumn, Option.getD_some]
      rw [(slotAt_mergeRecords hmerge).2 n, hnone]
      rfl

def exampleTarget : PropertyDeltaTarget := ⟨.kEdge, 0, 2, 2, 0⟩

/-- An update of an edge of vertex 1. -/
def exampleUpdate (dst baseSequence : Nat) (value : Bytes) : PropertyDeltaRecord :=
  ⟨1, dst, baseSequence, 1, true, 0, value⟩

/-- A delta file of one record. -/
def exampleFile (dst baseSequence : Nat) (value : Bytes) : PropertyDeltaFile where
  metadata :=
    { target := exampleTarget
      fileGeneration := 1
      recordCount := 1
      fileBytes := 169
      minCommitSequence := 1
      maxCommitSequence := 1
      payloadChecksum := 0
      target_lt := by decide
      lt := by decide }
  records := [exampleUpdate dst baseSequence value]
  nonempty := by simp
  sorted := List.pairwise_singleton _ _
  commits := by simp [exampleUpdate]

/-- Two versions of an edge, and another edge. -/
def exampleSst : SSTable where
  timeStamp := 2
  records := [⟨1, 5, 9, [], false, true, 0⟩, ⟨1, 5, 7, [], false, true, 0⟩,
    ⟨1, 6, 8, [], false, true, 0⟩]
  nonempty := by simp
  sorted := by decide
  src_lt := by decide

def exampleLayout : ShardLayout := ⟨.kEdge, 0, [2], by decide⟩

def exampleData : SstData :=
  ⟨exampleSst, exampleSst.indexes, fun _ => [1, 0, 2, 0, 3, 0], Or.inl rfl⟩

/-- A merge of the first of two files while a third is attached. -/
theorem merge_keeps_what_is_read_of_two_edges :
    let captured : Chain :=
      ⟨⟨none, [exampleFile 5 9 [7, 7, 7], exampleFile 6 8 [4]], 1⟩, true⟩
    let attached := [exampleFile 5 9 [8]]
    ∃ c, mergeChain exampleLayout (some exampleData) exampleTarget 1 false captured
        (attached.foldl Chain.attach captured) 2 true = .ok c ∧
      c.readView.mergedBase = some [7, 7, 2, 0, 3, 0] ∧
      ∀ id, (∃ x ∈ exampleData.sst.records, x.id = id) →
        ∃ value value', c.readView.read exampleLayout exampleData 0 id = some value ∧
          (attached.foldl Chain.attach captured).readView.read exampleLayout exampleData 0 id =
            some value' ∧
          keptValue (exampleLayout.slotLength 0) value =
            keptValue (exampleLayout.slotLength 0) value' := by
  intro captured attached
  obtain ⟨c, hc⟩ : ∃ c, mergeChain exampleLayout (some exampleData) exampleTarget 1 false captured
      (attached.foldl Chain.attach captured) 2 true = .ok c := ⟨_, rfl⟩
  refine ⟨c, hc, ?_, (merge_keeps_what_is_read (by decide) hc).1⟩
  cases hc
  decide

/-! ## Merges that fail -/

/-- How a file came into the store. -/
inductive FileOrigin where
  | flushed
  | compacted
  | loaded (level : Nat)
deriving DecidableEq

/-- The recovery takes the index from a file that it loads below level 0. -/
def FileOrigin.keepsIndex : FileOrigin → Bool
  | .flushed => true
  | .compacted => true
  | .loaded level => decide (level = 0)

/-- What the store has in memory of a file. -/
def FileOrigin.data (origin : FileOrigin) (sst : SSTable) (columns : Nat → Bytes) : SstData where
  sst
  indexes := if origin.keepsIndex then sst.indexes else []
  columns
  indexes_eq := by
    split
    · exact Or.inl rfl
    · exact Or.inr rfl

theorem mem_chainRecords_of_ne_nil {fs : List PropertyDeltaFile} (h : fs ≠ []) :
    ∃ r, r ∈ chainRecords fs := by
  obtain ⟨f, fs, rfl⟩ := List.exists_cons_of_ne_nil h
  obtain ⟨r, rs, hr⟩ := List.exists_cons_of_ne_nil f.nonempty
  exact ⟨r, List.mem_flatMap.mpr ⟨f, List.mem_cons_self, hr ▸ List.mem_cons_self⟩⟩

/-- With its index a file places a record that is the newest of its key and live. -/
theorem places_iff {data : SstData} {slotLength : Nat} {r : PropertyDeltaRecord}
    (hidx : data.indexes = data.sst.indexes) :
    data.Places slotLength (data.sst.records.length * slotLength) r ↔
      ∃ x, data.sst.records.find? (·.key = r.key) = some x ∧ x.marker = false ∧
        x.seq = r.baseSequence := by
  have hfind : data.sst.records.find? (·.key = r.key) =
      (data.sst.ordinalOf r.key).bind fun n => data.sst.records[n]? :=
    List.find?_eq_bind_findIdx?_getElem?
  constructor
  · rintro ⟨n, hn, -⟩
    obtain ⟨hord, x, hx, hlive, hseq⟩ := (locateSstEdgeOrdinal_eq_some_iff hidx).mp hn
    exact ⟨x, by rw [hfind, hord]; exact hx, hlive, hseq⟩
  · rintro ⟨x, hx, hlive, hseq⟩
    rw [hfind, Option.bind_eq_some_iff] at hx
    obtain ⟨n, hord, hget⟩ := hx
    refine ⟨n, (locateSstEdgeOrdinal_eq_some_iff hidx).mpr ⟨hord, x, hget, hlive, hseq⟩, ?_⟩
    have hlt : n < data.sst.records.length := (List.getElem?_eq_some_iff.mp hget).1
    have := Nat.mul_le_mul_right slotLength (Nat.succ_le_of_lt hlt)
    rwa [Nat.succ_mul] at this

/-- A merge succeeds when the store has the index of the file, and every record of the deltas is
for the newest version of its key in the file, which is live, and then only. That the records of
the deltas are all in the file is not enough. -/
theorem merge_of_known_records_succeeds_iff {layout : ShardLayout} {target : PropertyDeltaTarget}
    {origin : FileOrigin} {sst : SSTable} {columns : Nat → Bytes} {currentBase : Option Bytes}
    {deltas : List PropertyDeltaFile} (hne : deltas ≠ [])
    (hkind : target.kind = layout.propertyObjectKind)
    (hshard : target.shardId = layout.propertyShardId)
    (hproperty : target.propertyId < layout.subPropertyLengths.length)
    (hlength : (baseColumn (origin.data sst columns) target.propertyId currentBase).length =
      sst.records.length * layout.slotLength target.propertyId) :
    (∃ merged, mergePropertyDeltaColumn layout (some (origin.data sst columns)) target currentBase
      deltas = .ok merged) ↔
    origin.keepsIndex = true ∧ ∀ r ∈ chainRecords deltas,
      ∃ x, sst.records.find? (·.key = r.key) = some x ∧ x.marker = false ∧
        x.seq = r.baseSequence := by
  have hslot : 0 < layout.slotLength target.propertyId := by
    unfold ShardLayout.slotLength
    rw [List.getD_eq_getElem?_getD, List.getElem?_eq_getElem hproperty, Option.getD_some]
    exact layout.lengths_pos _ (List.getElem_mem _)
  have hbase : baseColumn (origin.data sst columns) target.propertyId currentBase ≠ [] := by
    intro hnil
    rw [hnil, List.length_nil] at hlength
    have := Nat.mul_pos (List.length_pos_iff.mpr sst.nonempty) hslot
    omega
  rw [mergePropertyDeltaColumn_of_request hne hkind hshard hproperty hbase, mergeRecords_ok_iff,
    hlength]
  by_cases hkeeps : origin.keepsIndex = true
  · have hidx : (origin.data sst columns).indexes = (origin.data sst columns).sst.indexes :=
      if_pos hkeeps
    rw [and_iff_right hkeeps]
    exact forall₂_congr fun r _ => places_iff hidx
  · have hidx : (origin.data sst columns).indexes = [] := if_neg hkeeps
    refine iff_of_false ?_ fun h => hkeeps h.1
    intro hplaces
    obtain ⟨r, hr⟩ := mem_chainRecords_of_ne_nil hne
    obtain ⟨n, hn, -⟩ := hplaces r hr
    rw [locateSstEdgeOrdinal_of_no_index hidx] at hn
    cases hn

theorem merge_of_a_newest_record_succeeds :
    (∃ merged, mergePropertyDeltaColumn exampleLayout
      (some (FileOrigin.flushed.data exampleSst fun _ => [1, 0, 2, 0, 3, 0])) exampleTarget none
      [exampleFile 5 9 [8], exampleFile 6 8 [4]] = .ok merged) := by
  apply (merge_of_known_records_succeeds_iff (by simp) rfl rfl (by decide) (by decide)).mpr
  exact ⟨rfl, by decide⟩

/-- The merge of a record for the older version of an edge fails, and so does every merge into a
file that the recovery has loaded at level 1. -/
theorem a_merge_of_known_records_fails :
    (∀ dst baseSequence value, (∃ x ∈ exampleSst.records,
        x.id = (exampleUpdate dst baseSequence value).id) →
      mergePropertyDeltaColumn exampleLayout
        (some ((FileOrigin.loaded 1).data exampleSst fun _ => [1, 0, 2, 0, 3, 0])) exampleTarget
        none [exampleFile dst baseSequence value] = .error (.noMatch 2 1 dst)) ∧
    ((∃ x ∈ exampleSst.records, x.id = (exampleUpdate 5 7 [8]).id) ∧
      mergePropertyDeltaColumn exampleLayout
        (some (FileOrigin.flushed.data exampleSst fun _ => [1, 0, 2, 0, 3, 0])) exampleTarget none
        [exampleFile 5 7 [8]] = .error (.noMatch 2 1 5)) := by
  refine ⟨?_, by decide, rfl⟩
  intro dst baseSequence value _
  rfl

end RichGraph
