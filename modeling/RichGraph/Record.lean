-- The records of the store: an edge in memory, the record of a file, their
-- order, and how the columns of a payload are written and read back.
import RichGraph.Types
import Mathlib.Data.List.DropRight
import Mathlib.Order.Defs.Unbundled

namespace RichGraph

/-- The bodies of a file give a vertex id and a sequence 48 bits each. -/
def maxSeqId : Nat := 2 ^ 48 - 1

def invalidVertexId : Nat := 2 ^ 48 - 1

/-- `Edge_string`, an edge of an adjacency list in memory. Destination and sequence have 64 bits. -/
structure Edge where
  destination : Nat
  sequence : Nat
  marker : Bool
  property : Bytes
  isOut : Bool
  edgeType : UInt8
deriving DecidableEq

/-- The body of a file holds the numbers of the edge, and no edge is equal to the key at which a
skip list starts its searches. Only an assertion tests the first part. -/
def Edge.Fits (e : Edge) : Prop := e.destination ≤ maxSeqId ∧ e.sequence < maxSeqId

instance (e : Edge) : Decidable e.Fits := inferInstanceAs (Decidable (_ ∧ _))

/-- A record of a file. `props` are the slots of the property columns. -/
structure EdgeRecord where
  src : Nat
  dst : Nat
  seq : Nat
  props : List Bytes
  marker : Bool
  isOut : Bool
  edgeType : UInt8
deriving DecidableEq

/-- What a lookup asks for. -/
structure EdgeKey where
  src : Nat
  dst : Nat
  isOut : Bool
  edgeType : UInt8
deriving DecidableEq

def EdgeRecord.key (r : EdgeRecord) : EdgeKey := ⟨r.src, r.dst, r.isOut, r.edgeType⟩

def RecordId.key (id : RecordId) : EdgeKey := ⟨id.src, id.dst, id.isOut, id.edgeType⟩

/-! ## The order of records -/

/-- Not after: `EdgeComparator` on edges, destinations up and then sequences down. -/
def Edge.le (a b : Edge) : Prop :=
  a.destination < b.destination ∨ a.destination = b.destination ∧ b.sequence ≤ a.sequence

instance : DecidableRel Edge.le := fun _ _ => inferInstanceAs (Decidable (_ ∨ _))

instance : Std.Total Edge.le := ⟨fun a b => by unfold Edge.le; omega⟩

instance : IsTrans Edge Edge.le := ⟨fun a b c => by unfold Edge.le; omega⟩

/-- `operator<` of records: sources up, destinations up, then sequences down. -/
def EdgeRecord.lt (a b : EdgeRecord) : Prop :=
  a.src < b.src ∨ a.src = b.src ∧ (a.dst < b.dst ∨ a.dst = b.dst ∧ b.seq < a.seq)

instance : DecidableRel EdgeRecord.lt := fun _ _ => inferInstanceAs (Decidable (_ ∨ _))

def EdgeRecord.le (a b : EdgeRecord) : Prop := ¬ b.lt a

instance : DecidableRel EdgeRecord.le := fun _ _ => inferInstanceAs (Decidable (¬ _))

theorem EdgeRecord.le_iff {a b : EdgeRecord} : a.le b ↔
    a.src < b.src ∨ a.src = b.src ∧ (a.dst < b.dst ∨ a.dst = b.dst ∧ b.seq ≤ a.seq) := by
  unfold EdgeRecord.le EdgeRecord.lt
  omega

theorem EdgeRecord.le_trans {a b c : EdgeRecord} (hab : a.le b) (hbc : b.le c) : a.le c := by
  rw [EdgeRecord.le_iff] at *
  omega

theorem EdgeRecord.le_of_lt {a b : EdgeRecord} (h : a.lt b) : a.le b := by
  unfold EdgeRecord.le EdgeRecord.lt at *
  omega

theorem EdgeRecord.src_le_of_le {a b : EdgeRecord} (h : a.le b) : a.src ≤ b.src := by
  rw [EdgeRecord.le_iff] at h
  omega

/-- Records that are sorted for each source, and put together in the order of the sources. -/
theorem EdgeRecord.pairwise_flatMap {f : Nat → List EdgeRecord} {vs : List Nat}
    (hvs : vs.Pairwise (· < ·)) (hsrc : ∀ v, ∀ r ∈ f v, r.src = v)
    (hf : ∀ v, (f v).Pairwise EdgeRecord.le) : (vs.flatMap f).Pairwise EdgeRecord.le := by
  induction vs with
  | nil => exact List.Pairwise.nil
  | cons v vs ih =>
    obtain ⟨hv, hvs⟩ := List.pairwise_cons.mp hvs
    rw [List.flatMap_cons, List.pairwise_append]
    refine ⟨hf v, ih hvs, ?_⟩
    intro a ha b hb
    obtain ⟨w, hw, hb⟩ := List.mem_flatMap.mp hb
    rw [EdgeRecord.le_iff, hsrc v a ha, hsrc w b hb]
    exact Or.inl (hv w hw)

/-! ## The columns -/

/-- `|`, which separates the columns of a payload. -/
def bar : UInt8 := 124

/-- `ExtractSubProperty`: the segment of a column, empty when the payload has fewer. -/
def extractSubProperty : Bytes → Nat → Bytes
  | payload, 0 => payload.takeWhile (· ≠ bar)
  | payload, propertyId + 1 =>
    extractSubProperty ((payload.dropWhile (· ≠ bar)).drop 1) propertyId

theorem extractSubProperty_nil (propertyId : Nat) : extractSubProperty [] propertyId = [] := by
  induction propertyId with
  | zero => rfl
  | succ propertyId ih => exact ih

/-- `WritePaddedSubPropertySlot`: cut to the width of the slot, or padded with zeros. -/
def writePaddedSubPropertySlot (slotLen : Nat) (value : Bytes) : Bytes :=
  value.take slotLen ++ List.replicate (slotLen - value.length) 0

@[simp] theorem length_writePaddedSubPropertySlot (slotLength : Nat) (value : Bytes) :
    (writePaddedSubPropertySlot slotLength value).length = slotLength := by
  simp only [writePaddedSubPropertySlot, List.length_append, List.length_take,
    List.length_replicate]
  omega

/-- `ReadSubPropertyFromSlot`: the slot without the zeros at its end. -/
def readSubPropertyFromSlot (slot : Bytes) : Bytes := slot.rdropWhile (· == 0)

/-- The slots of a payload, one for each column of the layout. -/
def writeColumns (lengths : List Nat) (payload : Bytes) : List Bytes :=
  lengths.mapIdx fun i len => writePaddedSubPropertySlot len (extractSubProperty payload i)

/-- What a file gives back for a column: the value as far as its slot holds it. -/
def storedSubProperty (lengths : List Nat) (payload : Bytes) (propertyId : Nat) : Bytes :=
  readSubPropertyFromSlot ((writeColumns lengths payload).getD propertyId [])

/-- The record that a flush writes for an edge of `src` that fits. -/
def Edge.toRecord (lengths : List Nat) (src : Nat) (e : Edge) : EdgeRecord :=
  { src, dst := e.destination, seq := e.sequence, props := writeColumns lengths e.property,
    marker := e.marker, isOut := e.isOut, edgeType := e.edgeType }

@[simp] theorem Edge.toRecord_src (lengths : List Nat) (src : Nat) (e : Edge) :
    (e.toRecord lengths src).src = src := rfl

@[simp] theorem Edge.toRecord_seq (lengths : List Nat) (src : Nat) (e : Edge) :
    (e.toRecord lengths src).seq = e.sequence := rfl

theorem Edge.toRecord_le {lengths : List Nat} {src : Nat} {a b : Edge} (h : a.le b) :
    (a.toRecord lengths src).le (b.toRecord lengths src) := by
  rw [EdgeRecord.le_iff]
  exact Or.inr ⟨rfl, h⟩

/-- A value is read back as far as its slot holds it. -/
theorem read_of_write (len : Nat) (value : Bytes) :
    readSubPropertyFromSlot (writePaddedSubPropertySlot len value) =
      (value.take len).rdropWhile (· == 0) := by
  unfold readSubPropertyFromSlot writePaddedSubPropertySlot
  generalize len - value.length = n
  induction n with
  | zero => simp
  | succ n ih =>
    rw [List.replicate_succ', ← List.append_assoc, List.rdropWhile_concat_pos _ _ _ (by simp), ih]

/-- A value that fits its slot and does not end in a zero is read back as it was written. -/
theorem read_of_write_fits {len : Nat} {value : Bytes} (hlen : value.length ≤ len)
    (hend : ∀ b ∈ value.getLast?, b ≠ 0) :
    readSubPropertyFromSlot (writePaddedSubPropertySlot len value) = value := by
  rw [read_of_write, List.take_of_length_le hlen, List.rdropWhile_eq_self_iff]
  intro hne
  have := hend _ (by rw [List.getLast?_eq_some_getLast hne]; rfl)
  simpa using this

end RichGraph
