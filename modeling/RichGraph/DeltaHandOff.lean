-- Property deltas while their base moves from a memtable to a file and on into
-- the output of a compaction. A chain of deltas belongs to a base file id and a
-- column; a compaction drains the chains that are marked persistent and reads the
-- columns of its inputs, so a chain that is marked too late is left behind.
import RichGraph.PropertyDeltaMerge
import RichGraph.Lib.Runs
import RichGraph.Lib.Versions

namespace RichGraph

namespace DeltaHandOff

/-! ## Delta files and chains -/

/-- A delta file as the records it was made of: a lookup gives the record of the greatest
commit. -/
abbrev PropertyDeltaFile := List PropertyDeltaRecord

def lookupFile (file : PropertyDeltaFile) (id : RecordId) : Option PropertyDeltaRecord :=
  Lib.newestOf (fun r => r.id = id) PropertyDeltaRecord.commitSequence file

/-- One file of `PropertyDeltaReadView::Lookup`. -/
def betterOf (id : RecordId) (best : Option PropertyDeltaRecord) (file : PropertyDeltaFile) :
    Option PropertyDeltaRecord :=
  match lookupFile file id with
  | none => best
  | some r => if ∀ b ∈ best, b.commitSequence < r.commitSequence then some r else best

/-- `PropertyDeltaReadView::Lookup`, from the newest file to the oldest. -/
def lookup (deltas : List PropertyDeltaFile) (id : RecordId) : Option PropertyDeltaRecord :=
  deltas.reverse.foldl (betterOf id) none

/-- `deltas` are the files of the chain, the oldest first. -/
structure Chain where
  deltas : List PropertyDeltaFile
  targetIsPersistent : Bool

/-- One file of `MergePropertyDeltaColumn`: the slots of its records are written over. -/
def applyFile (len : Nat) (column : RecordId → Bytes) (file : PropertyDeltaFile) :
    RecordId → Bytes := fun id =>
  match lookupFile file id with
  | none => column id
  | some r => keptValue len r.value

/-- `MergePropertyDeltaColumn` over the files of a batch. -/
def applyFiles (len : Nat) (files : List PropertyDeltaFile) (column : RecordId → Bytes) :
    RecordId → Bytes := files.foldl (applyFile len) column

/-! ## The state -/

/-- What a base file id stands for. -/
inductive Base where
  | absent
  | memtable
  | file
  | retired
deriving DecidableEq

/-- The compaction: in `preparing` the chains that `MergeAllPersistent` has still to look at, in
`merging` the inputs and the columns as they were read. -/
inductive Phase where
  | idle
  | preparing (todo : List (Nat × Nat))
  | merging (inputs : List Nat) (columns : Nat → RecordId → Bytes)

/-- `place` is the memtable or file that holds a record, and `sequence` that of the record which a
read of an edge finds. `acknowledged` is not in the code: the attached records with their columns,
the last one first. -/
structure State where
  base : Nat → Base
  active : Nat
  nextFid : Nat
  place : RecordId → Option Nat
  sequence : EdgeKey → Option Nat
  column : Nat → Nat → RecordId → Bytes
  registry : List (Nat × Nat)
  chains : Nat → Nat → Chain
  persistentBaseFiles : Nat → Bool
  phase : Phase
  acknowledged : List (Nat × PropertyDeltaRecord)

def initial : State :=
  { base := fun fid => if fid = 0 then .memtable else .absent
    active := 0
    nextFid := 1
    place := fun _ => none
    sequence := fun _ => none
    column := fun _ _ _ => []
    registry := []
    chains := fun _ _ => ⟨[], false⟩
    persistentBaseFiles := fun _ => false
    phase := .idle
    acknowledged := [] }

/-- `GetEdge` for a record that a read finds: the chain of its base first, then the column. -/
def getEdge (s : State) (id : RecordId) (propertyId : Nat) : Option Bytes :=
  (s.place id).map fun fid =>
    match lookup (s.chains fid propertyId).deltas id with
    | none => s.column fid propertyId id
    | some r => r.value

/-- The last update of a property that was acknowledged. -/
def lastAcknowledged (s : State) (id : RecordId) (propertyId : Nat) : Option PropertyDeltaRecord :=
  (s.acknowledged.find? fun p => p.1 = propertyId ∧ p.2.id = id).map Prod.snd

def State.setChain (s : State) (fid propertyId : Nat) (c : Chain) : State :=
  { s with chains := fun i p => if i = fid ∧ p = propertyId then c else s.chains i p }

/-! ## The steps -/

/-- A put into the active memtable. -/
def put (id : RecordId) (value : Nat → Bytes) (s : State) : Option State :=
  if s.place id = none then
    some { s with
      place := fun i => if i = id then some s.active else s.place i
      sequence := fun k => if k = id.key then some id.baseSequence else s.sequence k
      column := fun fid p i => if fid = s.active ∧ i = id then value p else s.column fid p i }
  else none

def switch (s : State) : State :=
  { s with
    base := fun fid => if fid = s.nextFid then .memtable else s.base fid
    active := s.nextFid
    nextFid := s.nextFid + 1 }

/-- The flush publishes the file of a memtable. The file keeps the id and, of every value, what
fits its column. -/
def publish (lengths : Nat → Nat) (fid : Nat) (s : State) : Option State :=
  if s.base fid = .memtable ∧ fid ≠ s.active then
    some { s with
      base := fun i => if i = fid then .file else s.base i
      column := fun i p id =>
        if i = fid then keptValue (lengths p) (s.column i p id) else s.column i p id }
  else none

/-- `MarkTargetPersistent` for one column, which the flush job calls after the publication. -/
def markTargetPersistent (fid propertyId : Nat) (s : State) : Option State :=
  if s.base fid = .file ∨ s.base fid = .retired then
    some { s.setChain fid propertyId ⟨(s.chains fid propertyId).deltas, true⟩ with
      persistentBaseFiles := fun i => i == fid || s.persistentBaseFiles i }
  else none

/-- The records that `AttachPropertyDelta` binds to a base: it finds each of them there, and no
later record of its edge. -/
def Attachable (s : State) (fid : Nat) (records : List PropertyDeltaRecord) : Prop :=
  records ≠ [] ∧ (∀ r ∈ records, s.place r.id = some fid) ∧
    ∀ r ∈ records, s.sequence r.id.key = some r.baseSequence

instance (s : State) (fid : Nat) (records : List PropertyDeltaRecord) :
    Decidable (Attachable s fid records) := inferInstanceAs (Decidable (_ ∧ _))

/-- `AttachPropertyDelta` waits while a compaction has its lock. `sawMemtable` is what `LocateEdge`
saw, and the flush may publish the file right after. -/
def attach (fid propertyId : Nat) (sawMemtable : Bool) (records : List PropertyDeltaRecord)
    (s : State) : Option State :=
  match s.phase with
  | .idle =>
    if Attachable s fid records ∧ (s.base fid = .memtable → sawMemtable = true) then
      let c := s.chains fid propertyId
      some { s.setChain fid propertyId ⟨c.deltas ++ [records],
          c.targetIsPersistent || !sawMemtable || s.persistentBaseFiles fid⟩ with
        registry := (fid, propertyId) :: s.registry
        acknowledged := (records.map (Prod.mk propertyId)).reverse ++ s.acknowledged }
    else none
  | _ => none

/-- `MergeChain`: the first files of a persistent chain go into the column of its base. A record
that is not in the base makes it fail. -/
def mergeChain (lengths : Nat → Nat) (fid propertyId count : Nat) (s : State) : Option State :=
  let c := s.chains fid propertyId
  let batch := c.deltas.take count
  if c.targetIsPersistent ∧ s.base fid = .file ∧
      (∀ file ∈ batch, ∀ r ∈ file, s.place r.id = some fid) then
    some { s.setChain fid propertyId ⟨c.deltas.drop count, true⟩ with
      column := fun i p => if i = fid ∧ p = propertyId then
        applyFiles (lengths p) batch (s.column i p) else s.column i p }
  else none

/-- A compaction takes the lock and lists the chains. -/
def lock (s : State) : Option State :=
  match s.phase with
  | .idle => some { s with phase := .preparing s.registry }
  | _ => none

/-- One turn of `MergeAllPersistent`. A chain that is not persistent, or empty, is passed over; a
merge that fails ends the compaction. -/
def drain (lengths : Nat → Nat) (s : State) : Option State :=
  match s.phase with
  | .preparing ((fid, propertyId) :: todo) =>
    let c := s.chains fid propertyId
    if c.targetIsPersistent ∧ c.deltas ≠ [] then
      match mergeChain lengths fid propertyId c.deltas.length s with
      | some s' => some { s' with phase := .preparing todo }
      | none => some { s with phase := .idle }
    else some { s with phase := .preparing todo }
  | _ => none

/-- The prepared compaction selects its inputs and reads them. -/
def pick (inputs : List Nat) (s : State) : Option State :=
  match s.phase with
  | .preparing [] =>
    if ∀ fid ∈ inputs, s.base fid = .file then
      some { s with phase := .merging inputs fun p id =>
        ((s.place id).map fun fid => s.column fid p id).getD [] }
    else none
  | _ => none

/-- The output takes the place of the inputs, and the compaction gives the lock back. -/
def install (s : State) : Option State :=
  match s.phase with
  | .merging inputs columns =>
    some { s with
      base := fun fid => if fid = s.nextFid then .file else if fid ∈ inputs then .retired
        else s.base fid
      nextFid := s.nextFid + 1
      place := fun id => (s.place id).map fun fid => if fid ∈ inputs then s.nextFid else fid
      column := fun fid p => if fid = s.nextFid then columns p else s.column fid p
      phase := .idle }
  | _ => none

inductive Action where
  | put (id : RecordId) (value : Nat → Bytes)
  | switch
  | publish (fid : Nat)
  | markTargetPersistent (fid propertyId : Nat)
  | attach (fid propertyId : Nat) (sawMemtable : Bool) (records : List PropertyDeltaRecord)
  | mergeChain (fid propertyId count : Nat)
  | lock
  | drain
  | pick (inputs : List Nat)
  | install

/-- The steps of a store whose columns have the given widths. -/
def step (lengths : Nat → Nat) (s : State) : Action → Option State
  | .put id value => put id value s
  | .switch => some (switch s)
  | .publish fid => publish lengths fid s
  | .markTargetPersistent fid propertyId => markTargetPersistent fid propertyId s
  | .attach fid propertyId sawMemtable records => attach fid propertyId sawMemtable records s
  | .mergeChain fid propertyId count => mergeChain lengths fid propertyId count s
  | .lock => lock s
  | .drain => drain lengths s
  | .pick inputs => pick inputs s
  | .install => install s

end DeltaHandOff

end RichGraph
