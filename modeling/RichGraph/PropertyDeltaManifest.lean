-- The manifest of the property deltas: a log of records that add a delta file or
-- remove some. A record has a header with a checksum and a payload. The recovery
-- replays the records and cuts off a torn tail.
import RichGraph.Types
import RichGraph.Lib.Bytes

namespace RichGraph

open Lib

/-! ## Entries -/

/-- The fields have the widths of the payload of an add record. -/
structure PropertyDeltaFileMetadata where
  target : PropertyDeltaTarget
  fileGeneration : Nat
  recordCount : Nat
  fileBytes : Nat
  minCommitSequence : Nat
  maxCommitSequence : Nat
  payloadChecksum : Nat
  target_lt : target.shardId < 256 ^ 4 ∧ target.propertyId < 256 ^ 4 ∧
    target.baseFileId < 256 ^ 4 ∧ target.baseGeneration < 256 ^ 8
  lt : fileGeneration < 256 ^ 8 ∧ recordCount < 256 ^ 8 ∧ fileBytes < 256 ^ 8 ∧
    minCommitSequence < 256 ^ 8 ∧ maxCommitSequence < 256 ^ 8 ∧ payloadChecksum < 256 ^ 8
deriving DecidableEq

structure PropertyDeltaManifestEntry where
  fileName : Bytes
  metadata : PropertyDeltaFileMetadata
  targetIsPersistent : Bool
deriving DecidableEq

/-- A name without a separator that is not a directory of its own. -/
def ValidFileName (name : Bytes) : Prop :=
  name ≠ [] ∧ 47 ∉ name ∧ name ≠ [46] ∧ name ≠ [46, 46]

instance (name : Bytes) : Decidable (ValidFileName name) := inferInstanceAs (Decidable (_ ∧ _))

namespace Manifest

/-- What a record of the log does. -/
inductive Edit where
  | add (entry : PropertyDeltaManifestEntry)
  | remove (fileNames : List Bytes)
deriving DecidableEq

/-- `ApplyAdd`: an entry of the same name is replaced where it stands. -/
def applyAdd : List PropertyDeltaManifestEntry → PropertyDeltaManifestEntry →
    List PropertyDeltaManifestEntry
  | [], entry => [entry]
  | item :: active, entry =>
    if item.fileName = entry.fileName then entry :: active else item :: applyAdd active entry

def applyRemove (active : List PropertyDeltaManifestEntry) (fileNames : List Bytes) :
    List PropertyDeltaManifestEntry := active.filter fun entry => entry.fileName ∉ fileNames

def Edit.apply (active : List PropertyDeltaManifestEntry) : Edit → List PropertyDeltaManifestEntry
  | .add entry => applyAdd active entry
  | .remove fileNames => applyRemove active fileNames

/-! ## Payloads -/

/-- The number in `width` bytes at an offset. -/
def field (bs : Bytes) (offset width : Nat) : Nat := ofLe ((bs.drop offset).take width)

theorem field_lt (bs : Bytes) (offset width : Nat) : field bs offset width < 256 ^ width := by
  unfold field
  refine Nat.lt_of_lt_of_le (ofLe_lt _) (Nat.pow_le_pow_right (by decide) ?_)
  simp

def kindByte : PropertyObjectKind → UInt8
  | .kNode => 1
  | .kEdge => 2

def kindOf (b : UInt8) : Option PropertyObjectKind :=
  if b = 1 then some .kNode else if b = 2 then some .kEdge else none

/-- `sizeof(ManifestAddPayload)` -/
def addPayloadBytes : Nat := 76

def encodeAdd (entry : PropertyDeltaManifestEntry) : Bytes :=
  let m := entry.metadata
  [kindByte m.target.kind, if entry.targetIsPersistent then 1 else 0, 0, 0] ++
    toLe 4 m.target.shardId ++ toLe 4 m.target.propertyId ++ toLe 4 m.target.baseFileId ++
    toLe 8 m.target.baseGeneration ++ toLe 8 m.fileGeneration ++ toLe 8 m.recordCount ++
    toLe 8 m.fileBytes ++ toLe 8 m.minCommitSequence ++ toLe 8 m.maxCommitSequence ++
    toLe 8 m.payloadChecksum ++ toLe 4 entry.fileName.length ++ entry.fileName

def decodeAdd (payload : Bytes) : Option PropertyDeltaManifestEntry :=
  if payload.length < addPayloadBytes then none
  else
    match kindOf (payload.getD 0 0) with
    | none => none
    | some kind =>
      let fileName := payload.drop addPayloadBytes
      if payload.getD 1 0 > 1 ∨ field payload 72 4 ≠ payload.length - addPayloadBytes ∨
          ¬ ValidFileName fileName then none
      else
        some
          { fileName
            metadata :=
              { target := ⟨kind, field payload 4 4, field payload 12 4, field payload 16 8,
                  field payload 8 4⟩
                fileGeneration := field payload 24 8
                recordCount := field payload 32 8
                fileBytes := field payload 40 8
                minCommitSequence := field payload 48 8
                maxCommitSequence := field payload 56 8
                payloadChecksum := field payload 64 8
                target_lt := ⟨field_lt _ _ _, field_lt _ _ _, field_lt _ _ _, field_lt _ _ _⟩
                lt := ⟨field_lt _ _ _, field_lt _ _ _, field_lt _ _ _, field_lt _ _ _,
                  field_lt _ _ _, field_lt _ _ _⟩ }
            targetIsPersistent := payload.getD 1 0 != 0 }

def encodeName (name : Bytes) : Bytes := toLe 4 name.length ++ name

def encodeRemove (fileNames : List Bytes) : Bytes :=
  toLe 4 fileNames.length ++ fileNames.flatMap encodeName

/-- The loop of `DecodeRemove`; nothing may be left after the last name. -/
def decodeNames : Nat → Bytes → Option (List Bytes)
  | 0, rest => if rest = [] then some [] else none
  | count + 1, rest =>
    let length := field rest 0 4
    if rest.length < 4 ∨ (rest.drop 4).length < length then none
    else
      let name := (rest.drop 4).take length
      if ValidFileName name then (decodeNames count ((rest.drop 4).drop length)).map (name :: ·)
      else none

def decodeRemove (payload : Bytes) : Option (List Bytes) :=
  if payload.length < 4 then none else decodeNames (field payload 0 4) (payload.drop 4)

/-! ## Records -/

/-- `RGMANIF3` -/
def magic : Bytes := [82, 71, 77, 65, 78, 73, 70, 51]

def version : Nat := 3

def kAddRecord : UInt8 := 1

def kRemoveRecord : UInt8 := 2

/-- The largest payload that the recovery reads. -/
def maxPayloadBytes : Nat := 2 ^ 30

/-- `ManifestDiskHeader` -/
structure Header where
  magic : Bytes
  version : Nat
  type : UInt8
  reserved : Bytes
  payloadBytes : Nat
  editSequence : Nat
  checksum : Nat
deriving DecidableEq

/-- `sizeof(ManifestDiskHeader)` -/
def headerBytes : Nat := 36

def Header.bytes (h : Header) : Bytes :=
  h.magic ++ toLe 4 h.version ++ [h.type] ++ h.reserved ++ toLe 4 h.payloadBytes ++
    toLe 8 h.editSequence ++ toLe 8 h.checksum

def readHeader (bs : Bytes) : Header :=
  ⟨bs.take 8, field bs 8 4, bs.getD 12 0, (bs.drop 13).take 3, field bs 16 4, field bs 20 8,
    field bs 28 8⟩

/-- `RecordChecksum`: over the header without its checksum, and the payload. -/
def recordChecksum (h : Header) (payload : Bytes) : Nat :=
  (fnv (fnv fnvOffset { h with checksum := 0 }.bytes) payload).toNat

def Edit.type : Edit → UInt8
  | .add _ => kAddRecord
  | .remove _ => kRemoveRecord

def Edit.payload : Edit → Bytes
  | .add entry => encodeAdd entry
  | .remove fileNames => encodeRemove fileNames

/-- The header of `AppendRecord`. -/
def makeHeader (sequence : Nat) (type : UInt8) (payload : Bytes) : Header :=
  let h : Header := ⟨magic, version, type, [0, 0, 0], payload.length, sequence, 0⟩
  { h with checksum := recordChecksum h payload }

def recordOf (sequence : Nat) (type : UInt8) (payload : Bytes) : Bytes :=
  (makeHeader sequence type payload).bytes ++ payload

/-! ## Recovery -/

inductive RecoverError where
  | header (offset : Nat)
  | checksum (offset : Nat)
  | sequence
  | addPayload
  | removePayload
deriving DecidableEq

/-- One turn of the loop: the log ends here, it is damaged, or here is a record. -/
inductive ReadResult where
  | torn
  | invalid (error : RecoverError)
  | record (size sequence : Nat) (edit : Edit)
deriving DecidableEq

/-- What the loop does with a record whose checksum is right. -/
def readPayload (lastSequence : Nat) (h : Header) (payload : Bytes) : ReadResult :=
  if h.editSequence ≤ lastSequence then .invalid .sequence
  else if h.type = kAddRecord then
    match decodeAdd payload with
    | none => .invalid .addPayload
    | some entry => .record (headerBytes + h.payloadBytes) h.editSequence (.add entry)
  else
    match decodeRemove payload with
    | none => .invalid .removePayload
    | some fileNames => .record (headerBytes + h.payloadBytes) h.editSequence (.remove fileNames)

/-- The checks that the header has to pass. -/
def Header.Valid (h : Header) : Prop :=
  h.magic = Manifest.magic ∧ h.version = Manifest.version ∧
    (h.type = kAddRecord ∨ h.type = kRemoveRecord) ∧ h.payloadBytes ≤ maxPayloadBytes

instance (h : Header) : Decidable h.Valid := inferInstanceAs (Decidable (_ ∧ _))

def readRecord (offset lastSequence : Nat) (rest : Bytes) : ReadResult :=
  if rest.length < headerBytes then .torn
  else
    let h := readHeader rest
    if ¬ h.Valid then .invalid (.header offset)
    else
      let size := headerBytes + h.payloadBytes
      if rest.length < size then .torn
      else
        let payload := (rest.drop headerBytes).take h.payloadBytes
        if recordChecksum h payload ≠ h.checksum then
          -- A torn final record can have a complete length field.
          if rest.length = size then .torn else .invalid (.checksum offset)
        else readPayload lastSequence h payload

/-- What the loop has read so far. -/
structure Recovered where
  lastSequence : Nat
  activeEntries : List PropertyDeltaManifestEntry
  validEnd : Nat
deriving DecidableEq

/-- The loop of `OpenAndRecover`. A record takes bytes, so as many turns as there are bytes are
enough. -/
def recoverLoop : Nat → Bytes → Recovered → Except RecoverError Recovered
  | 0, _, r => .ok r
  | turns + 1, rest, r =>
    if rest = [] then .ok r
    else
      match readRecord r.validEnd r.lastSequence rest with
      | .torn => .ok r
      | .invalid error => .error error
      | .record size sequence edit =>
        recoverLoop turns (rest.drop size)
          ⟨sequence, edit.apply r.activeEntries, r.validEnd + size⟩

end Manifest

/-- An open manifest. `file` is what the log has on disk. -/
structure PropertyDeltaManifest where
  file : Bytes
  nextEditSequence : Nat
  activeEntries : List PropertyDeltaManifestEntry
deriving DecidableEq

namespace Manifest

/-- `OpenAndRecover`. Nothing fails while the log is read or cut. -/
def openAndRecover (file : Bytes) : Except RecoverError PropertyDeltaManifest :=
  (recoverLoop file.length file ⟨0, [], 0⟩).map fun r =>
    ⟨file.take r.validEnd, r.lastSequence + 1, r.activeEntries⟩

/-- The manifest of a new directory. -/
def empty : PropertyDeltaManifest := ⟨[], 1, []⟩

/-! ## Appends -/

/-- How `WriteAll` and `fdatasync` end. A call that fails may leave any number of bytes, all of
them when it is `fdatasync` that fails. -/
inductive WriteOutcome where
  | succeeds
  | fails (written : Nat)
deriving DecidableEq

/-- The largest `off_t`: no write goes beyond it. -/
def maxFileBytes : Nat := 2 ^ 63 - 1

def writeAll (file record : Bytes) : WriteOutcome → Bytes × Bool
  | .succeeds =>
    if file.length + record.length ≤ maxFileBytes then (file ++ record, true)
    else (file ++ record.take (maxFileBytes - file.length), false)
  | .fails written => (file ++ record.take written, false)

def maxUInt32 : Nat := 2 ^ 32 - 1

def appendRecord (type : UInt8) (payload : Bytes) (outcome : WriteOutcome)
    (m : PropertyDeltaManifest) : PropertyDeltaManifest × Bool :=
  if payload.length > maxUInt32 then (m, false)
  else
    match writeAll m.file (recordOf m.nextEditSequence type payload) outcome with
    | (file, true) => ({ m with file, nextEditSequence := m.nextEditSequence + 1 }, true)
    | (file, false) => ({ m with file }, false)

def appendAdd (entry : PropertyDeltaManifestEntry) (outcome : WriteOutcome)
    (m : PropertyDeltaManifest) : PropertyDeltaManifest × Bool :=
  if ¬ ValidFileName entry.fileName then (m, false)
  else
    match appendRecord kAddRecord (encodeAdd entry) outcome m with
    | (m', true) => ({ m' with activeEntries := applyAdd m'.activeEntries entry }, true)
    | (m', false) => (m', false)

def appendRemove (fileNames : List Bytes) (outcome : WriteOutcome) (m : PropertyDeltaManifest) :
    PropertyDeltaManifest × Bool :=
  if fileNames = [] then (m, true)
  else if fileNames.length > maxUInt32 ∨
      ∃ name ∈ fileNames, ¬ ValidFileName name ∨ name.length > maxUInt32 then (m, false)
  else
    match appendRecord kRemoveRecord (encodeRemove fileNames) outcome m with
    | (m', true) => ({ m' with activeEntries := applyRemove m'.activeEntries fileNames }, true)
    | (m', false) => (m', false)

def append (edit : Edit) (outcome : WriteOutcome) (m : PropertyDeltaManifest) :
    PropertyDeltaManifest × Bool :=
  match edit with
  | .add entry => appendAdd entry outcome m
  | .remove fileNames => appendRemove fileNames outcome m

end Manifest

end RichGraph
