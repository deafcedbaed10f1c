-- The store of one shard: memtables, the files of level 0, the files of the
-- deeper levels with the index of each vertex, and the running compaction. The
-- steps are the parts of a put, a flush and a compaction that other threads see
-- as one; the reads are `GetEdge`, `LocateEdge` and the scan of a source.
import RichGraph.MemTable
import RichGraph.Compaction
import RichGraph.Lib.Runs

namespace RichGraph

open Compaction

/-! ## The state -/

/-- `LEVEL_INDEX_SIZE` -/
def levelIndexSize : Nat := maxLevel - 1

/-- Where one level keeps the records of a vertex. -/
structure LevelEntry where
  fileID : Nat
  offset : Nat
  nextOffset : Nat
deriving DecidableEq

/-- The index of a vertex. Slot `l` is about level `l + 1`. A level-0 file whose id is below
`minLevel0Fid` has been merged for this vertex. -/
structure MulLevelIndex where
  levels : Nat → LevelEntry
  minLevel0Fid : Nat

def MulLevelIndex.empty : MulLevelIndex := ⟨fun _ => ⟨invalidFileId, 0, 0⟩, 0⟩

/-- A running compaction. `rest` are the merged records that are not yet written; `fid` is the
id of the file that is being written. -/
structure Job where
  level : Nat
  inputs0 : List SSTable
  inputs1 : List SSTable
  minLevel0Fid : Nat
  fid : Nat
  rest : List EdgeRecord
  sorted : rest.Pairwise EdgeRecord.le
  src_lt : ∀ r ∈ rest, r.src < invalidVertexId

/-! ### One vertex of the index -/

/-- `UpdataLevelIndex` for one vertex: its entry moves one level down. -/
def MulLevelIndex.moveDown (level : Nat) (ix : MulLevelIndex) : MulLevelIndex :=
  { ix with levels := fun l =>
      if l = level then ix.levels (level - 1)
      else if l = level - 1 then { ix.levels l with fileID := invalidFileId }
      else ix.levels l }

/-- `WriteEnd` for one vertex of an output file of `j`. -/
def MulLevelIndex.install (j : Job) (fid offset nextOffset : Nat) (ix : MulLevelIndex) :
    MulLevelIndex :=
  { levels := fun l =>
      if l = j.level then ⟨fid, offset, nextOffset⟩
      else if l + 1 = j.level ∧ (j.inputs0.map SSTable.timeStamp).contains (ix.levels l).fileID then
        { ix.levels l with fileID := invalidFileId }
      else ix.levels l
    minLevel0Fid := if j.level = 0 then j.minLevel0Fid + 1 else ix.minLevel0Fid }

/-! ### The files that a compaction writes -/

/-- The next output file of a running compaction, as its writer cuts it off. -/
def Job.output (o : Options) (j : Job) : List EdgeRecord × List EdgeRecord :=
  takeFile o.maxEFileSize 0 0 none j.rest

/-- At the end the writer closes its file only when its buffer of bodies is not empty, so a
last file of just as many records as the buffer holds, or a multiple, is never installed. -/
def Job.lost (o : Options) (j : Job) : Bool :=
  (j.output o).2.isEmpty && (j.output o).1.length % (o.bodyBufferSize - 1) == 0

theorem Job.output_append (o : Options) (j : Job) : (j.output o).1 ++ (j.output o).2 = j.rest :=
  takeFile_append _ _ _ _ _

/-- The output file of a job that has records left. -/
def Job.outputFile (o : Options) (j : Job) (h : j.rest ≠ []) : SSTable :=
  { timeStamp := j.fid
    records := (j.output o).1
    nonempty := takeFile_ne_nil h
    sorted := by
      have := j.sorted
      rw [← j.output_append o, List.pairwise_append] at this
      exact this.1
    src_lt := by
      intro r hr
      apply j.src_lt
      rw [← j.output_append o]
      exact List.mem_append_left _ hr }

/-- The job after its next output file. -/
def Job.next (o : Options) (fid : Nat) (j : Job) : Job :=
  { j with
    fid
    rest := (j.output o).2
    sorted := by
      have := j.sorted
      rw [← j.output_append o, List.pairwise_append] at this
      exact this.2.1
    src_lt := by
      intro r hr
      apply j.src_lt
      rw [← j.output_append o]
      exact List.mem_append_right _ hr }

/-! ### The store -/

/-- `history` is not in the code: the edges that were put, the last one first. -/
structure Store where
  immutables : List MemTable
  active : MemTable
  level0 : List SSTable
  levels : Nat → List SSTable
  index : Nat → MulLevelIndex
  vertexMaxLevel : Nat → Int
  sstData : Nat → Option SSTable
  compactPointer : Nat → Option Nat
  currentTime : Nat
  nextSequence : Nat
  job : Option Job
  history : List (Nat × Edge)

namespace Store

def initial (o : Options) : Store :=
  { immutables := []
    active := .fresh 0 o.maxEdgeNum
    level0 := []
    levels := fun _ => []
    index := fun _ => .empty
    vertexMaxLevel := fun _ => -1
    sstData := fun _ => none
    compactPointer := fun _ => none
    currentTime := 1
    nextSequence := 0
    job := none
    history := [] }

/-- The memtables of the superversion, the oldest first. -/
def menTables (s : Store) : List MemTable := s.immutables ++ [s.active]

/-- The files that a compaction of a level selects from. -/
def filesAt (s : Store) (level : Nat) : List SSTable :=
  if level = 0 then s.level0 else s.levels level

/-! ## Reads -/

/-- The records to which a slot of the index of a vertex points. A retired file has no data. -/
def sliceAt (s : Store) (v slot : Nat) : List EdgeRecord :=
  let e := (s.index v).levels slot
  if e.fileID = invalidFileId then []
  else ((s.sstData e.fileID).map fun f => f.slice e.offset e.nextOffset).getD []

/-- What a lookup finds or a scan visits: where, and in which form. -/
inductive Found where
  | inMemtable (fid : Nat) (edge : Edge)
  | inFile (fid : Nat) (record : EdgeRecord)

/-- The record that was found, in the form of a file. -/
def Found.record (lengths : List Nat) (src : Nat) : Found → EdgeRecord
  | .inMemtable _ e => e.toRecord lengths src
  | .inFile _ r => r

def Found.key (src : Nat) : Found → EdgeKey
  | .inMemtable _ e => ⟨src, e.destination, e.isOut, e.edgeType⟩
  | .inFile _ r => ⟨src, r.dst, r.isOut, r.edgeType⟩

def Found.sequence : Found → Nat
  | .inMemtable _ e => e.sequence
  | .inFile _ r => r.seq

def Found.marker : Found → Bool
  | .inMemtable _ e => e.marker
  | .inFile _ r => r.marker

/-- The file is asked when its range holds the source. -/
def findInFile (k : EdgeKey) (f : SSTable) : Option Found :=
  if k.src ≤ f.maxKey ∧ f.minKey ≤ k.src then
    (f.offsets k.src).bind fun p =>
      (findEdgeByDstDirectionAndType (f.slice p.1 p.2) k.dst k.isOut k.edgeType).map
        (Found.inFile f.timeStamp)
  else none

/-- `find_edge_in_memtable`, up to the property: the tables in the order of the list. -/
def findEdgeInMemtable (s : Store) (k : EdgeKey) : Option Found :=
  s.menTables.findSome? fun t => (t.get k).map (Found.inMemtable t.fid)

/-- `find_edge_by_levelindex`, up to the property. -/
def findEdgeByLevelindex (s : Store) (k : EdgeKey) : Option Found :=
  (List.range levelIndexSize).findSome? fun slot =>
    (findEdgeByDstDirectionAndType (s.sliceAt k.src slot) k.dst k.isOut k.edgeType).map
      (Found.inFile ((s.index k.src).levels slot).fileID)

/-- The record from which `GetEdge` answers. Level 0 is searched without the watermark. -/
def findForGet (s : Store) (k : EdgeKey) : Option Found :=
  (s.findEdgeInMemtable k).or ((s.level0.findSome? (findInFile k)).or (s.findEdgeByLevelindex k))

/-- The record that `LocateEdge` reports. Level 0 is searched from the watermark on. -/
def findForLocate (s : Store) (k : EdgeKey) : Option Found :=
  (s.findEdgeInMemtable k).or
    (((s.level0.filter fun f => (s.index k.src).minLevel0Fid ≤ f.timeStamp).findSome?
      (findInFile k)).or (s.findEdgeByLevelindex k))

/-- The value that a property delta gives for a record of a memtable or file, if there is one. -/
abbrev DeltaLookup := Nat → EdgeKey → Nat → Nat → Option Bytes

def noDeltas : DeltaLookup := fun _ _ _ _ => none

/-- The value of a column: that of a delta, or that of the record. -/
def Found.property (deltas : DeltaLookup) (k : EdgeKey) (propertyId : Nat) : Found → Bytes
  | .inMemtable fid e =>
    (deltas fid k e.sequence propertyId).getD (extractSubProperty e.property propertyId)
  | .inFile fid r =>
    (deltas fid k r.seq propertyId).getD (readSubPropertyFromSlot (r.props.getD propertyId []))

/-- What a lookup answers from what it found: a status, or the value of the column. -/
def answer (deltas : DeltaLookup) (k : EdgeKey) (propertyId : Nat) :
    Option Found → Except Status Bytes
  | none => .error .kNotFound
  | some x => if x.marker then .error .kDelete else .ok (x.property deltas k propertyId)

/-- `LSMStore::GetEdge` -/
def getEdge (s : Store) (deltas : DeltaLookup) (k : EdgeKey) (propertyId : Nat) :
    Except Status Bytes :=
  answer deltas k propertyId (s.findForGet k)

/-- `LSMEdgeLocation` -/
structure Location where
  inMemtable : Bool := false
  targetId : Nat := invalidFileId
  sequence : Nat := maxSeqId
deriving DecidableEq

def Found.location : Found → Location
  | .inMemtable fid e => ⟨true, fid, e.sequence⟩
  | .inFile fid r => ⟨false, fid, r.seq⟩

/-- Status and location of what was found. The lookups give a sequence for a live record only. -/
def locate : Option Found → Status × Location
  | none => (.kNotFound, {})
  | some x =>
    if x.marker then (.kDelete, { x.location with sequence := maxSeqId }) else (.kOk, x.location)

/-- `LSMStore::LocateEdge` -/
def locateEdge (s : Store) (k : EdgeKey) : Status × Location := locate (s.findForLocate k)

/-- The sources of the scan of a vertex, as `EdgeIteratorDynamic` collects them: tables, the
files of level 0 from the watermark on, slots of the index. How far it goes depends on the
deepest level at which the vertex has been. -/
def scanFound (s : Store) (src : Nat) : List (List Found) :=
  if s.vertexMaxLevel src < 0 then []
  else
    (s.menTables.map fun t => (t.adj src).edges.map (Found.inMemtable t.fid)) ++
    (if 1 ≤ s.vertexMaxLevel src then
      (s.level0.filter fun f => (s.index src).minLevel0Fid ≤ f.timeStamp ∧
        src ≤ f.maxKey ∧ f.minKey ≤ src).map fun f =>
          (((f.offsets src).map fun p => f.slice p.1 p.2).getD []).map (Found.inFile f.timeStamp)
    else []) ++
    (if 2 ≤ s.vertexMaxLevel src then
      (List.range (s.vertexMaxLevel src - 1).toNat).map fun slot =>
        (s.sliceAt src slot).map (Found.inFile ((s.index src).levels slot).fileID)
    else [])

/-- The records of the sources. -/
def scanSources (o : Options) (s : Store) (src : Nat) : List (List EdgeRecord) :=
  (s.scanFound src).map fun source => source.map (Found.record o.propertyLengths src)

/-- `Get_Edges`: the sources from the last to the first, with the test of direction and type.
The scan is at `MAX_SEQ_ID`, so no record is too new. -/
def getEdges (s : Store) (src : Nat) (isOut : Bool) (edgeType : UInt8) : List Found :=
  (s.scanFound src).reverse.flatten.filter fun x =>
    (x.key src).isOut == isOut && (x.key src).edgeType == edgeType

/-! ## Puts -/

/-- `put_edge` of one record. The put that takes the last slot switches to a new table: the old
one stays in the superversion until it is flushed, and the new one goes to its end. -/
def putRecord (o : Options) (src : Nat) (e : Edge) (s : Store) : Store :=
  let table := s.active.putEdge o.reserveNode src e
  let s := { s with
    active := table
    vertexMaxLevel := fun v =>
      if v = src ∧ (s.active.vertexAdjs.lookup src).isNone then max (s.vertexMaxLevel v) 0
      else s.vertexMaxLevel v
    history := (src, e) :: s.history }
  if table.remainCapacity = 0 then
    { s with
      immutables := s.immutables ++ [table]
      active := .fresh s.currentTime o.maxEdgeNum
      currentTime := s.currentTime + 1 }
  else s

inductive EdgeInsertMode where
  | kSingle
  | kBidirectional
deriving DecidableEq, Repr

def deletedPayload : Bytes := bytes "~DELETED~"

/-- A put with the next sequence of the database. `kBidirectional` adds the reverse edge with
the same sequence. Edges that do not fit are not put: only an assertion tests them in the code. -/
def putEdge (o : Options) (src dst : Nat) (payload : Bytes) (mode : EdgeInsertMode) (isOut : Bool)
    (edgeType : UInt8) (s : Store) : Option Store :=
  if src ≤ maxSeqId ∧ dst ≤ maxSeqId ∧ s.nextSequence < maxSeqId then
    let marker := decide (payload = deletedPayload)
    let s' := putRecord o src ⟨dst, s.nextSequence, marker, payload, isOut, edgeType⟩
      { s with nextSequence := s.nextSequence + 1 }
    match mode with
    | .kSingle => some s'
    | .kBidirectional =>
      some (putRecord o dst ⟨src, s.nextSequence, marker, payload, !isOut, edgeType⟩ s')
  else none

/-! ## Flushes -/

/-- The flush of a table sorts the adjacency list of one source, which readers still use. -/
def sortAdjacency (fid src : Nat) (s : Store) : Option Store :=
  if s.immutables.any (·.fid == fid) then
    some { s with
      immutables := s.immutables.map fun t => if t.fid = fid then t.sortAdjacency src else t
      vertexMaxLevel := fun v => if v = src then max (s.vertexMaxLevel v) 1
        else s.vertexMaxLevel v }
  else none

/-- The flush publishes the file in level 0, in the order of file ids, and takes the table out
of the superversion. The wait for room in level 0 ends before the publication, so several
flushes may pass it together; it is not part of the step. -/
def publish (o : Options) (fid : Nat) (s : Store) : Option Store := do
  let t ← s.immutables.find? (·.fid == fid)
  let f ← t.save2eSSTable o.propertyLengths o.vertexNum o.vertexNum_le
  return { s with
    immutables := s.immutables.filter (·.fid != fid)
    level0 := s.level0.orderedInsert (fun a b => b.timeStamp ≤ a.timeStamp) f
    sstData := fun i => if i = fid then some f else s.sstData i
    vertexMaxLevel := fun v =>
      if f.records.any (·.src == v) then max (s.vertexMaxLevel v) 1 else s.vertexMaxLevel v }

/-! ## Compactions -/

/-- `RemoveCache`: the files without those of the given ids. -/
def removeCache (inputs files : List SSTable) : List SSTable :=
  files.filter fun f => !(inputs.map SSTable.timeStamp).contains f.timeStamp

/-- The files of a level are kept in the order of their first keys. -/
def insertFile (f : SSTable) (files : List SSTable) : List SSTable :=
  files.orderedInsert (fun a b => a.minKey ≤ b.minKey) f

def setLevel (level : Nat) (files : List SSTable) (levels : Nat → List SSTable) :
    Nat → List SSTable := fun l => if l = level then files else levels l

/-- `DirectAdjustLevel`: no file of the next level is touched, so the inputs move as they are. -/
def directAdjustLevel (level : Nat) (inputs0 : List SSTable) (s : Store) : Store :=
  let moved := fun v => inputs0.any fun f => f.records.any (·.src == v)
  { s with
    levels := setLevel level (removeCache inputs0 (s.levels level))
      (setLevel (level + 1) (inputs0.foldr insertFile (s.levels (level + 1))) s.levels)
    index := fun v => if moved v then MulLevelIndex.moveDown level (s.index v) else s.index v
    vertexMaxLevel := fun v =>
      if moved v then max (s.vertexMaxLevel v) (level + 2) else s.vertexMaxLevel v }

/-- The largest id of the level-0 inputs. -/
def maxInputFid (inputs0 : List SSTable) : Nat := (inputs0.map SSTable.timeStamp).foldl max 0

/-- The state in which the merge of a selection starts: the inputs are taken out of the lists of the
deeper levels. -/
def started (level : Nat) (sel : Selection)
    (h : (mergeInputs level sel.inputs0 sel.inputs1).Pairwise EdgeRecord.le) (s : Store) : Store :=
  { s with
    compactPointer := fun l => if l = level then some sel.largest else s.compactPointer l
    levels := setLevel (level + 1) (removeCache sel.inputs1 (s.levels (level + 1)))
      (if level = 0 then s.levels
      else setLevel level (removeCache sel.inputs0 (s.levels level)) s.levels)
    currentTime := s.currentTime + 1
    job := some
      { level, inputs0 := sel.inputs0, inputs1 := sel.inputs1
        minLevel0Fid := if level = 0 then maxInputFid sel.inputs0 else 0
        fid := s.currentTime
        rest := mergeInputs level sel.inputs0 sel.inputs1
        sorted := h
        src_lt := mergeInputs_src_lt level sel.inputs0 sel.inputs1 } }

/-- `BackgroundCompaction` selects the inputs of a level that is full and starts to merge. Only one
compaction runs at a time. -/
def pick (o : Options) (level : Nat) (s : Store) : Option Store :=
  if s.job.isNone ∧ level + 1 < maxLevel ∧ o.levelMaxSize level ≤ (s.filesAt level).length then
    match pickCompactioFile level true (s.filesAt level) (s.levels (level + 1))
        (s.compactPointer level) with
    | none => none
    | some sel =>
      if level ≠ 0 ∧ sel.inputs1.isEmpty then
        some (directAdjustLevel level sel.inputs0 { s with
          compactPointer := fun l => if l = level then some sel.largest else s.compactPointer l })
      -- The runs of a deeper level are in order, see `exists_pick`.
      else if h : (mergeInputs level sel.inputs0 sel.inputs1).Pairwise EdgeRecord.le then
        some (started level sel h s)
      else none
  else none

/-- The state after an output file has been installed: the index of every source in the file is
updated, and the file is in the next level. A file that follows gets its id at once. -/
def installed (o : Options) (j : Job) (h : j.rest ≠ []) (s : Store) : Store :=
  let f := j.outputFile o h
  let more := !(j.output o).2.isEmpty
  { s with
    sstData := fun i => if i = j.fid then some f else s.sstData i
    index := fun v => match f.offsets v with
      | none => s.index v
      | some p => MulLevelIndex.install j j.fid p.1 p.2 (s.index v)
    vertexMaxLevel := fun v => match f.offsets v with
      | none => s.vertexMaxLevel v
      | some _ => max (s.vertexMaxLevel v) (j.level + 2)
    levels := setLevel (j.level + 1) (insertFile f (s.levels (j.level + 1))) s.levels
    currentTime := if more then s.currentTime + 1 else s.currentTime
    job := some (j.next o (if more then s.currentTime else j.fid)) }

/-- The writer ends a file. -/
def writeEnd (o : Options) (s : Store) : Option Store :=
  match s.job with
  | none => none
  | some j =>
    if h : j.rest = [] then none
    else if j.lost o then some { s with job := some (j.next o j.fid) }
    else some (installed o j h s)

/-- The state after a compaction: at level 0 a version without the inputs is published, and the
inputs are released. -/
def finished (j : Job) (s : Store) : Store :=
  { s with
    level0 := if j.level = 0 then removeCache j.inputs0 s.level0 else s.level0
    sstData := fun i =>
      if ((j.inputs0 ++ j.inputs1).map SSTable.timeStamp).contains i then none else s.sstData i
    job := none }

def finish (s : Store) : Option Store :=
  match s.job with
  | none => none
  | some j => if j.rest = [] then some (finished j s) else none

inductive Action where
  | putEdge (src dst : Nat) (payload : Bytes) (mode : EdgeInsertMode) (isOut : Bool)
      (edgeType : UInt8)
  | sortAdjacency (fid src : Nat)
  | publish (fid : Nat)
  | pick (level : Nat)
  | writeEnd
  | finish
deriving DecidableEq

def step (o : Options) (s : Store) : Action → Option Store
  | .putEdge src dst payload mode isOut edgeType => putEdge o src dst payload mode isOut edgeType s
  | .sortAdjacency fid src => sortAdjacency fid src s
  | .publish fid => publish o fid s
  | .pick level => pick o level s
  | .writeEnd => writeEnd o s
  | .finish => finish s

end Store

end RichGraph
