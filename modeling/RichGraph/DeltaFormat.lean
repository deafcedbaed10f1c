-- The bytes of a delta file: a header with its checksum, a table of records and a
-- heap of values. `Create` writes them, `Open` checks them, and the two reads
-- search or visit the table. Numbers are of 64 bits and wrap around; each
-- computation and each access of the mapping is written down.
import RichGraph.ManifestDamage
import RichGraph.Lib.Traced
import RichGraph.Lib.Versions

namespace RichGraph

open Lib Manifest

namespace DeltaFormat

/-! ## Records -/

/-- What a lookup asks for. -/
structure Key where
  src : Nat
  dst : Nat
  baseSequence : Int
  isOut : Bool
  edgeType : UInt8
deriving DecidableEq

/-- The ranges of `VertexId_t`, `SequenceNumber_t` and `PropertyCommitSequence`. -/
def InRange (src dst : Nat) (baseSequence : Int) (commitSequence : Nat) : Prop :=
  src < 256 ^ 8 ∧ dst < 256 ^ 8 ∧ -2 ^ 63 ≤ baseSequence ∧ baseSequence < 2 ^ 63 ∧
    commitSequence < 256 ^ 8

/-- `PropertyDeltaRecord` with the ranges of its types. -/
structure Record where
  src : Nat
  dst : Nat
  baseSequence : Int
  commitSequence : Nat
  isOut : Bool
  edgeType : UInt8
  value : Bytes
  inRange : InRange src dst baseSequence commitSequence
deriving DecidableEq

def Record.key (r : Record) : Key := ⟨r.src, r.dst, r.baseSequence, r.isOut, r.edgeType⟩

/-- `CompareLogicalKey` is negative. -/
def Key.Less (a b : Key) : Prop :=
  a.src < b.src ∨ a.src = b.src ∧ (a.dst < b.dst ∨ a.dst = b.dst ∧
    (a.isOut.toNat < b.isOut.toNat ∨ a.isOut.toNat = b.isOut.toNat ∧
      (a.edgeType.toNat < b.edgeType.toNat ∨ a.edgeType.toNat = b.edgeType.toNat ∧
        a.baseSequence < b.baseSequence)))

instance : DecidableRel Key.Less := fun _ _ => inferInstanceAs (Decidable (_ ∨ _))

/-- `RecordLess`, of the key and the commit of a record. -/
def VersionLess (a b : Key × Nat) : Prop := a.1.Less b.1 ∨ a.1 = b.1 ∧ a.2 < b.2

instance : DecidableRel VersionLess := fun _ _ => inferInstanceAs (Decidable (_ ∨ _))

def Record.version (r : Record) : Key × Nat := (r.key, r.commitSequence)

/-- The order that `std::stable_sort` leaves. -/
def Record.NotAfter (a b : Record) : Prop := ¬ VersionLess b.version a.version

instance : DecidableRel Record.NotAfter := fun _ _ => inferInstanceAs (Decidable (¬ _))

def Record.SameVersion (a b : Record) : Prop := a.version = b.version

instance : DecidableRel Record.SameVersion := fun _ _ => inferInstanceAs (Decidable (_ = _))

/-! ## The disk -/

/-- `DeltaDiskHeader` -/
structure DeltaDiskHeader where
  magic : Bytes
  version : Nat
  headerBytes : Nat
  objectKind : UInt8
  reserved0 : Bytes
  shardId : Nat
  propertyId : Nat
  baseFileId : Nat
  reserved1 : Nat
  baseGeneration : Nat
  fileGeneration : Nat
  recordCount : Nat
  recordsOffset : Nat
  valuesOffset : Nat
  valuesBytes : Nat
  minCommitSequence : Nat
  maxCommitSequence : Nat
  payloadChecksum : Nat
  headerChecksum : Nat
deriving DecidableEq

/-- `sizeof(DeltaDiskHeader)` -/
def headerSize : Nat := 120

/-- `RGDELTA2` -/
def kMagic : Bytes := [82, 71, 68, 69, 76, 84, 65, 50]

def kFormatVersion : Nat := 2

def DeltaDiskHeader.bytes (h : DeltaDiskHeader) : Bytes :=
  h.magic ++ toLe 4 h.version ++ toLe 4 h.headerBytes ++ [h.objectKind] ++ h.reserved0 ++
    toLe 4 h.shardId ++ toLe 4 h.propertyId ++ toLe 4 h.baseFileId ++ toLe 4 h.reserved1 ++
    toLe 8 h.baseGeneration ++ toLe 8 h.fileGeneration ++ toLe 8 h.recordCount ++
    toLe 8 h.recordsOffset ++ toLe 8 h.valuesOffset ++ toLe 8 h.valuesBytes ++
    toLe 8 h.minCommitSequence ++ toLe 8 h.maxCommitSequence ++ toLe 8 h.payloadChecksum ++
    toLe 8 h.headerChecksum

def readHeader (bs : Bytes) : DeltaDiskHeader where
  magic := bs.take 8
  version := field bs 8 4
  headerBytes := field bs 12 4
  objectKind := bs.getD 16 0
  reserved0 := (bs.drop 17).take 7
  shardId := field bs 24 4
  propertyId := field bs 28 4
  baseFileId := field bs 32 4
  reserved1 := field bs 36 4
  baseGeneration := field bs 40 8
  fileGeneration := field bs 48 8
  recordCount := field bs 56 8
  recordsOffset := field bs 64 8
  valuesOffset := field bs 72 8
  valuesBytes := field bs 80 8
  minCommitSequence := field bs 88 8
  maxCommitSequence := field bs 96 8
  payloadChecksum := field bs 104 8
  headerChecksum := field bs 112 8

/-- `HeaderChecksum`: over the header without its checksum. -/
def headerChecksum (h : DeltaDiskHeader) : Nat :=
  (fnv fnvOffset { h with headerChecksum := 0 }.bytes).toNat

/-- `DeltaDiskRecord`. The two reserved bytes are not looked at. -/
structure DeltaDiskRecord where
  src : Nat
  dst : Nat
  baseSequence : Int
  commitSequence : Nat
  valueOffset : Nat
  valueLength : Nat
  edgeType : UInt8
  isOut : UInt8
  inRange : InRange src dst baseSequence commitSequence
deriving DecidableEq

/-- `sizeof(DeltaDiskRecord)` -/
def recordSize : Nat := 48

def DeltaDiskRecord.bytes (d : DeltaDiskRecord) : Bytes :=
  toLe 8 d.src ++ toLe 8 d.dst ++ toLe 8 (toTwos d.baseSequence) ++ toLe 8 d.commitSequence ++
    toLe 8 d.valueOffset ++ toLe 4 d.valueLength ++ [d.edgeType, d.isOut, 0, 0]

def readDiskRecord (bs : Bytes) : DeltaDiskRecord where
  src := field bs 0 8
  dst := field bs 8 8
  baseSequence := ofTwos (field bs 16 8)
  commitSequence := field bs 24 8
  valueOffset := field bs 32 8
  valueLength := field bs 40 4
  edgeType := bs.getD 44 0
  isOut := bs.getD 45 0
  inRange := ⟨field_lt _ _ _, field_lt _ _ _, (ofTwos_range (field_lt _ _ _)).1,
    (ofTwos_range (field_lt _ _ _)).2, field_lt _ _ _⟩

/-- The key and the commit, as the order of the table is checked: any direction byte but 0 is
out. -/
def DeltaDiskRecord.key (d : DeltaDiskRecord) : Key :=
  ⟨d.src, d.dst, d.baseSequence, d.isOut != 0, d.edgeType⟩

def DeltaDiskRecord.version (d : DeltaDiskRecord) : Key × Nat := (d.key, d.commitSequence)

/-- `DiskRecordToRecord` -/
def DeltaDiskRecord.toRecord (d : DeltaDiskRecord) (value : Bytes) : Record :=
  ⟨d.src, d.dst, d.baseSequence, d.commitSequence, d.isOut != 0, d.edgeType, value, d.inRange⟩

/-! ## Create -/

inductive CreateError where
  | empty
  | invalidFileId
  | valueLength
  | valuesLength
  /-- The file system takes no file of this size, or a number is not of its C++ type. -/
  | unwritable
deriving DecidableEq

/-- The records of the file: sorted, and of every version the last. -/
def deduplicated (records : List Record) : List Record :=
  keepLast Record.SameVersion (records.insertionSort Record.NotAfter)

/-- The table; `offset` is the size of the values before. -/
def diskRecords : Nat → List Record → List DeltaDiskRecord
  | _, [] => []
  | offset, r :: rs =>
    { src := r.src, dst := r.dst, baseSequence := r.baseSequence
      commitSequence := r.commitSequence, valueOffset := offset, valueLength := r.value.length
      edgeType := r.edgeType, isOut := if r.isOut then 1 else 0, inRange := r.inRange } ::
      diskRecords (offset + r.value.length) rs

def tableBytes (rs : List Record) : Bytes := (diskRecords 0 rs).flatMap DeltaDiskRecord.bytes

def valueBytes (rs : List Record) : Bytes := rs.flatMap Record.value

def minCommit (rs : List Record) : Nat :=
  rs.foldl (fun least r => min least r.commitSequence) (2 ^ 64 - 1)

def maxCommit (rs : List Record) : Nat := rs.foldl (fun most r => max most r.commitSequence) 0

def makeHeader (target : PropertyDeltaTarget) (fileGeneration : Nat) (rs : List Record) :
    DeltaDiskHeader :=
  let h : DeltaDiskHeader :=
    { magic := kMagic
      version := kFormatVersion
      headerBytes := headerSize
      objectKind := kindByte target.kind
      reserved0 := [0, 0, 0, 0, 0, 0, 0]
      shardId := target.shardId
      propertyId := target.propertyId
      baseFileId := target.baseFileId
      reserved1 := 0
      baseGeneration := target.baseGeneration
      fileGeneration
      recordCount := rs.length
      recordsOffset := headerSize
      valuesOffset := headerSize + rs.length * recordSize
      valuesBytes := (valueBytes rs).length
      minCommitSequence := minCommit rs
      maxCommitSequence := maxCommit rs
      payloadChecksum := (fnv (fnv fnvOffset (tableBytes rs)) (valueBytes rs)).toNat
      headerChecksum := 0 }
  { h with headerChecksum := headerChecksum h }

def fileBytes (target : PropertyDeltaTarget) (fileGeneration : Nat) (rs : List Record) : Bytes :=
  (makeHeader target fileGeneration rs).bytes ++ (tableBytes rs ++ valueBytes rs)

/-- The numbers are of their C++ types. -/
def TargetInRange (target : PropertyDeltaTarget) (fileGeneration : Nat) : Prop :=
  target.shardId < 256 ^ 4 ∧ target.propertyId < 256 ^ 4 ∧ target.baseFileId < 256 ^ 4 ∧
    target.baseGeneration < 256 ^ 8 ∧ fileGeneration < 256 ^ 8

instance (target : PropertyDeltaTarget) (fileGeneration : Nat) :
    Decidable (TargetInRange target fileGeneration) := inferInstanceAs (Decidable (_ ∧ _))

/-- `PropertyDeltaFile::Create`: the bytes of the file. -/
def create (target : PropertyDeltaTarget) (fileGeneration : Nat) (records : List Record) :
    Except CreateError Bytes :=
  if records = [] then .error .empty
  else if target.baseFileId = invalidFileId then .error .invalidFileId
  else
    let rs := deduplicated records
    if ∃ r ∈ rs, r.value.length > maxUInt32 then .error .valueLength
    else if (valueBytes rs).length > 2 ^ 64 - 1 then .error .valuesLength
    else if TargetInRange target fileGeneration ∧
        headerSize + rs.length * recordSize + (valueBytes rs).length < 2 ^ 63 then
      .ok (fileBytes target fileGeneration rs)
    else .error .unwritable

/-! ## Open -/

inductive OpenError where
  /-- No file is of this size. -/
  | fstat
  | shorterThanHeader
  | invalidHeader
  | headerChecksum
  | recordBoundsOverflow
  | valueBoundsOverflow
  | invalidBounds
  | payloadChecksum
  | valueOutOfBounds
  | notSorted
deriving DecidableEq

/-- `PropertyDeltaFile`, open: the mapping and what `OpenAndValidate` keeps of the header. -/
structure OpenFile where
  mapping : Bytes
  metadata : PropertyDeltaFileMetadata
  recordsOffset : Nat
  valuesOffset : Nat
deriving DecidableEq

/-- `LoadDiskRecord` -/
def loadDiskRecord (mapping : Bytes) (recordsOffset index : Nat) : Traced DeltaDiskRecord := do
  let shift ← Traced.mul64 index recordSize
  let offset ← Traced.add64 recordsOffset shift
  let bs ← Traced.load mapping offset recordSize
  return readDiskRecord bs

/-- One turn of the loop over the records. -/
def checkRecord (mapping : Bytes) (h : DeltaDiskHeader) (i : Nat) : Traced (Option OpenError) := do
  let record ← loadDiskRecord mapping h.recordsOffset i
  if record.valueOffset > h.valuesBytes then return some .valueOutOfBounds
  else
    let room ← Traced.sub64 h.valuesBytes record.valueOffset
    if record.valueLength > room then return some .valueOutOfBounds
    else if i = 0 then return none
    else
      let before ← Traced.sub64 i 1
      let previous ← loadDiskRecord mapping h.recordsOffset before
      if VersionLess record.version previous.version then return some .notSorted
      else return none

/-- The loop, with `n` records to go. -/
def checkRecords (mapping : Bytes) (h : DeltaDiskHeader) : Nat → Nat → Traced (Option OpenError)
  | 0, _ => return none
  | n + 1, i => do
    match ← checkRecord mapping h i with
    | some error => return some error
    | none =>
      let next ← Traced.add64 i 1
      checkRecords mapping h n next

/-- The checks of the offsets in the header. -/
def checkBounds (size : Nat) (h : DeltaDiskHeader) : Traced (Option OpenError) := do
  let recordRoom ← Traced.sub64 (2 ^ 64 - 1) h.recordsOffset
  if h.recordCount > recordRoom / recordSize then return some .recordBoundsOverflow
  else
    let recordBytes ← Traced.mul64 h.recordCount recordSize
    let recordsEnd ← Traced.add64 h.recordsOffset recordBytes
    let valueRoom ← Traced.sub64 (2 ^ 64 - 1) h.valuesOffset
    if h.valuesBytes > valueRoom then return some .valueBoundsOverflow
    else
      let valuesEnd ← Traced.add64 h.valuesOffset h.valuesBytes
      if h.recordsOffset ≠ headerSize ∨ h.valuesOffset ≠ recordsEnd ∨ recordsEnd > size ∨
          valuesEnd ≠ size then return some .invalidBounds
      else return none

/-- The sum over the records and the values. -/
def payloadSum (mapping : Bytes) (h : DeltaDiskHeader) : Traced Nat := do
  if mapping.length > h.recordsOffset then
    let count ← Traced.sub64 mapping.length h.recordsOffset
    let bs ← Traced.load mapping h.recordsOffset count
    return (fnv fnvOffset bs).toNat
  else return fnvOffset.toNat

/-- What `OpenAndValidate` keeps. The fields of a header are of the widths of the metadata. -/
def openFile (mapping : Bytes) (h : DeltaDiskHeader) (kind : PropertyObjectKind)
    (htarget : h.shardId < 256 ^ 4 ∧ h.propertyId < 256 ^ 4 ∧ h.baseFileId < 256 ^ 4 ∧
      h.baseGeneration < 256 ^ 8)
    (hlt : h.fileGeneration < 256 ^ 8 ∧ h.recordCount < 256 ^ 8 ∧ mapping.length < 256 ^ 8 ∧
      h.minCommitSequence < 256 ^ 8 ∧ h.maxCommitSequence < 256 ^ 8 ∧
      h.payloadChecksum < 256 ^ 8) : OpenFile where
  mapping
  metadata :=
    { target := ⟨kind, h.shardId, h.baseFileId, h.baseGeneration, h.propertyId⟩
      fileGeneration := h.fileGeneration
      recordCount := h.recordCount
      fileBytes := mapping.length
      minCommitSequence := h.minCommitSequence
      maxCommitSequence := h.maxCommitSequence
      payloadChecksum := h.payloadChecksum
      target_lt := htarget
      lt := hlt }
  recordsOffset := h.recordsOffset
  valuesOffset := h.valuesOffset

/-- `OpenAndValidate` -/
def openAndValidate (file : Bytes) : Traced (Except OpenError OpenFile) :=
  if hsize : file.length < 2 ^ 63 then
    if file.length < headerSize then return .error .shorterThanHeader
    else do
      let bs ← Traced.load file 0 headerSize
      let h := readHeader bs
      match kindOf h.objectKind with
      | none => return .error .invalidHeader
      | some kind =>
        if h.magic ≠ kMagic ∨ h.version ≠ kFormatVersion ∨ h.headerBytes ≠ headerSize then
          return .error .invalidHeader
        else if headerChecksum h ≠ h.headerChecksum then return .error .headerChecksum
        else
          match ← checkBounds file.length h with
          | some error => return .error error
          | none =>
            let sum ← payloadSum file h
            if sum ≠ h.payloadChecksum then return .error .payloadChecksum
            else
              match ← checkRecords file h h.recordCount 0 with
              | some error => return .error error
              | none =>
                return .ok (openFile file h kind
                  ⟨field_lt _ _ _, field_lt _ _ _, field_lt _ _ _, field_lt _ _ _⟩
                  ⟨field_lt _ _ _, field_lt _ _ _, Nat.lt_trans hsize (by decide), field_lt _ _ _,
                    field_lt _ _ _, field_lt _ _ _⟩)
  else return .error .fstat

/-! ## Reads -/

/-- `CompareDiskLogicalKey`. The direction byte is compared as it stands. -/
def compareDiskLogicalKey (d : DeltaDiskRecord) (k : Key) : Ordering :=
  if d.src ≠ k.src then if d.src < k.src then .lt else .gt
  else if d.dst ≠ k.dst then if d.dst < k.dst then .lt else .gt
  else
    let direction : UInt8 := if k.isOut then 1 else 0
    if d.isOut ≠ direction then if d.isOut < direction then .lt else .gt
    else if d.edgeType ≠ k.edgeType then if d.edgeType < k.edgeType then .lt else .gt
    else if d.baseSequence ≠ k.baseSequence then
      if d.baseSequence < k.baseSequence then .lt else .gt
    else .eq

namespace OpenFile

/-- A loop of `Lookup` over `[low, high)`: a record with `goesOn` lies to the left of the result. -/
def search (f : OpenFile) (goesOn : DeltaDiskRecord → Bool) : Nat → Nat → Nat → Traced Nat
  | 0, low, _ => return low
  | fuel + 1, low, high => do
    if low < high then
      let width ← Traced.sub64 high low
      let middle ← Traced.add64 low (width / 2)
      let record ← loadDiskRecord f.mapping f.recordsOffset middle
      if goesOn record then
        let next ← Traced.add64 middle 1
        search f goesOn fuel next high
      else search f goesOn fuel low middle
    else return low

/-- `PropertyDeltaFile::Lookup`: the value and its commit. -/
def lookup (f : OpenFile) (k : Key) (readSequence : Nat) : Traced (Option (Bytes × Nat)) := do
  if f.metadata.recordCount = 0 ∨ f.metadata.minCommitSequence > readSequence then return none
  else
    let first ← f.search (fun d => compareDiskLogicalKey d k = .lt) f.metadata.recordCount 0
      f.metadata.recordCount
    if first = f.metadata.recordCount then return none
    else
      let firstRecord ← loadDiskRecord f.mapping f.recordsOffset first
      if compareDiskLogicalKey firstRecord k ≠ .eq then return none
      else
        let low ← f.search (fun d => compareDiskLogicalKey d k = .lt ∨
          compareDiskLogicalKey d k = .eq ∧ d.commitSequence ≤ readSequence)
          f.metadata.recordCount first f.metadata.recordCount
        if low = first then return none
        else
          let i ← Traced.sub64 low 1
          let selected ← loadDiskRecord f.mapping f.recordsOffset i
          if compareDiskLogicalKey selected k ≠ .eq ∨ selected.commitSequence > readSequence then
            return none
          else
            let start ← Traced.add64 f.valuesOffset selected.valueOffset
            let stop ← Traced.add64 start selected.valueLength
            if stop > f.mapping.length then return none
            else
              let value ← Traced.load f.mapping start selected.valueLength
              return some (value, selected.commitSequence)

/-- One turn of `ForEachRecord`: the record, or none when its value is not in the file. -/
def visit (f : OpenFile) (i : Nat) : Traced (Option Record) := do
  let disk ← loadDiskRecord f.mapping f.recordsOffset i
  let start ← Traced.add64 f.valuesOffset disk.valueOffset
  let stop ← Traced.add64 start disk.valueLength
  if stop > f.mapping.length then return none
  else
    let value ← Traced.load f.mapping start disk.valueLength
    return some (disk.toRecord value)

/-- The loop, with `n` records to go. The visitor has a state and can stop. -/
def forEachFrom {σ : Type} (f : OpenFile) (visitor : σ → Record → σ × Bool) :
    Nat → Nat → σ → Traced (σ × Bool)
  | 0, _, s => return (s, true)
  | n + 1, i, s => do
    match ← f.visit i with
    | none => return (s, false)
    | some r =>
      match visitor s r with
      | (s', false) => return (s', false)
      | (s', true) =>
        let next ← Traced.add64 i 1
        forEachFrom f visitor n next s'

/-- `PropertyDeltaFile::ForEachRecord` -/
def forEachRecord {σ : Type} (f : OpenFile) (visitor : σ → Record → σ × Bool) (s : σ) :
    Traced (σ × Bool) := f.forEachFrom visitor f.metadata.recordCount 0 s

end OpenFile

end DeltaFormat

end RichGraph
