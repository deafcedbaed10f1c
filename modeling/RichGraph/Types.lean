-- The records that the store and the property updates share. Vertex ids, file
-- ids and sequences are plain `Nat`, so that `omega` sees them as numbers; the
-- bytes of a `std::string` are a list of `UInt8`.
import Mathlib.Data.UInt

namespace RichGraph

abbrev Bytes := List UInt8

instance : LawfulBEq Bytes := inferInstance

/-- The bytes of an ASCII text. -/
def bytes (s : String) : Bytes := s.toList.map fun c => UInt8.ofNat c.toNat

/-- `Status`, as far as the calls below give one. -/
inductive Status where
  | kOk
  | kDelete
  | kNotFound
  | kInvalidArgument
deriving DecidableEq

inductive PropertyObjectKind where
  | kNode
  | kEdge
  deriving DecidableEq, Repr

/-- One physical property column. -/
structure PropertyDeltaTarget where
  kind : PropertyObjectKind
  shardId : Nat
  baseFileId : Nat
  baseGeneration : Nat
  propertyId : Nat
  deriving DecidableEq, Repr

/-- A property update of one topology record. `baseSequence` is the sequence
of that record; `commitSequence` orders the updates. -/
structure PropertyDeltaRecord where
  src : Nat
  dst : Nat
  baseSequence : Nat
  commitSequence : Nat
  isOut : Bool
  edgeType : UInt8
  value : Bytes
  deriving DecidableEq, Repr

/-- The topology record that a delta is for. -/
structure RecordId where
  src : Nat
  dst : Nat
  baseSequence : Nat
  isOut : Bool
  edgeType : UInt8
deriving DecidableEq

def PropertyDeltaRecord.id (r : PropertyDeltaRecord) : RecordId :=
  ⟨r.src, r.dst, r.baseSequence, r.isOut, r.edgeType⟩

/-- `INVALID_File_ID` -/
def invalidFileId : Nat := 0x7fffffff

end RichGraph
