-- The body of an edge in a file: sixteen bytes with a destination and a sequence of 48 bits each,
-- and one word for the marker, the direction, the type and what is left of the old offset.
import RichGraph.Types
import RichGraph.Lib.Bytes
import RichGraph.Lib.BitFields

namespace RichGraph

open Lib

/-- `EDGEBODY_SIZE` -/
def edgeBodySize : Nat := 16

/-- `EdgeBody_t_Dym` -/
structure EdgeBodyDym where
  propPointer : BitVec 32
  dstLow : BitVec 32
  seqLow : BitVec 32
  dstHigh : BitVec 16
  seqHigh : BitVec 16
deriving DecidableEq

namespace EdgeBodyDym

def kMarkerMask : BitVec 32 := 0x80000000#32
def kIsOutMask : BitVec 32 := 0x40000000#32
def kEdgeTypeShift : Nat := 22
def kEdgeTypeMask : BitVec 32 := 0x3fc00000#32
def kPayloadMask : BitVec 32 := 0x003fffff#32

/-! ## Accessors -/

def setDst (dst : BitVec 64) (b : EdgeBodyDym) : EdgeBodyDym :=
  { b with
    dstHigh := ((dst >>> 32) &&& 0xffff#64).setWidth 16
    dstLow := (dst &&& 0xffffffff#64).setWidth 32 }

def getDst (b : EdgeBodyDym) : BitVec 64 := (b.dstHigh.setWidth 64 <<< 32) + b.dstLow.setWidth 64

def setSeq (seq : BitVec 64) (b : EdgeBodyDym) : EdgeBodyDym :=
  { b with
    seqHigh := ((seq >>> 32) &&& 0xffff#64).setWidth 16
    seqLow := (seq &&& 0xffffffff#64).setWidth 32 }

def getSeq (b : EdgeBodyDym) : BitVec 64 := (b.seqHigh.setWidth 64 <<< 32) + b.seqLow.setWidth 64

def setOffset (offset : BitVec 32) (b : EdgeBodyDym) : EdgeBodyDym :=
  { b with propPointer := (offset &&& kPayloadMask) ||| (b.propPointer &&& ~~~ kPayloadMask) }

def getOffset (b : EdgeBodyDym) : BitVec 32 := b.propPointer &&& kPayloadMask

def setMarker (marker : Bool) (b : EdgeBodyDym) : EdgeBodyDym :=
  { b with
    propPointer := (b.propPointer &&& ~~~ kMarkerMask) |||
      ((BitVec.ofBool marker).setWidth 32 <<< 31) }

def getMarker (b : EdgeBodyDym) : Bool := ((b.propPointer >>> 31) &&& 1#32) != 0#32

def setIsOut (isOut : Bool) (b : EdgeBodyDym) : EdgeBodyDym :=
  { b with
    propPointer := (b.propPointer &&& ~~~ kIsOutMask) |||
      ((BitVec.ofBool isOut).setWidth 32 <<< 30) }

def getIsOut (b : EdgeBodyDym) : Bool := ((b.propPointer >>> 30) &&& 1#32) != 0#32

def setEdgeType (edgeType : UInt8) (b : EdgeBodyDym) : EdgeBodyDym :=
  { b with
    propPointer := (b.propPointer &&& ~~~ kEdgeTypeMask) |||
      ((edgeType.toBitVec.setWidth 32 <<< kEdgeTypeShift) &&& kEdgeTypeMask) }

def getEdgeType (b : EdgeBodyDym) : UInt8 :=
  ⟨((b.propPointer &&& kEdgeTypeMask) >>> kEdgeTypeShift).setWidth 8⟩

/-- The constructor, on the words that were there. -/
def make (dst seq : BitVec 64) (offset : BitVec 32) (marker isOut : Bool) (edgeType : UInt8)
    (old : EdgeBodyDym) : EdgeBodyDym :=
  ((((({ old with propPointer := 0#32 }.setDst dst).setSeq seq).setOffset offset).setMarker
    marker).setIsOut isOut).setEdgeType edgeType

/-! ## Mapped bytes -/

/-- The words in the order of the struct. -/
def bytes (b : EdgeBodyDym) : Bytes :=
  toLe 4 b.propPointer.toNat ++ toLe 4 b.dstLow.toNat ++ toLe 4 b.seqLow.toNat ++
    toLe 2 b.dstHigh.toNat ++ toLe 2 b.seqHigh.toNat

def readUint32 (data : Bytes) : BitVec 32 := BitVec.ofNat 32 (ofLe (data.take 4))

end EdgeBodyDym

namespace Storage

open EdgeBodyDym

/-- `get_dst` on the bytes of a file. -/
def getDst (data : Bytes) : BitVec 64 :=
  let low := readUint32 (data.drop 4)
  let highPart := readUint32 (data.drop 12)
  let high : BitVec 16 := (highPart &&& 0xffff#32).setWidth 16
  low.setWidth 64 ||| (high.setWidth 64 <<< 32)

def getSeq (data : Bytes) : BitVec 64 :=
  let low := readUint32 (data.drop 8)
  let highPart := readUint32 (data.drop 12)
  let high : BitVec 16 := ((highPart >>> 16) &&& 0xffff#32).setWidth 16
  low.setWidth 64 ||| (high.setWidth 64 <<< 32)

def getMarker (data : Bytes) : Bool := ((readUint32 data >>> 31) &&& 1#32) != 0#32

end Storage

namespace EdgeBodyDym

/-! ## The fields -/

/-- What the accessors give. -/
structure Fields where
  dst : BitVec 64
  seq : BitVec 64
  offset : BitVec 32
  marker : Bool
  isOut : Bool
  edgeType : UInt8
deriving DecidableEq

def fields (b : EdgeBodyDym) : Fields :=
  ⟨b.getDst, b.getSeq, b.getOffset, b.getMarker, b.getIsOut, b.getEdgeType⟩

theorem kMarkerMask_eq : kMarkerMask = BitField.mask 32 31 1 := by decide
theorem kIsOutMask_eq : kIsOutMask = BitField.mask 32 30 1 := by decide
theorem kEdgeTypeMask_eq : kEdgeTypeMask = BitField.mask 32 22 8 := by decide
theorem kPayloadMask_eq : kPayloadMask = BitField.mask 32 0 22 := by decide

/-! The word is written and read field by field. -/

theorem setMarker_eq (marker : Bool) (b : EdgeBodyDym) : b.setMarker marker =
    { b with propPointer := BitField.set 31 (BitVec.ofBool marker) b.propPointer } := by
  rw [setMarker, kMarkerMask_eq]
  rfl

theorem setIsOut_eq (isOut : Bool) (b : EdgeBodyDym) : b.setIsOut isOut =
    { b with propPointer := BitField.set 30 (BitVec.ofBool isOut) b.propPointer } := by
  rw [setIsOut, kIsOutMask_eq]
  rfl

theorem setEdgeType_eq (edgeType : UInt8) (b : EdgeBodyDym) : b.setEdgeType edgeType =
    { b with propPointer := BitField.set 22 edgeType.toBitVec b.propPointer } := by
  rw [setEdgeType, kEdgeTypeMask_eq, kEdgeTypeShift, BitField.shiftLeft_and_mask]
  rfl

theorem setOffset_eq (offset : BitVec 32) (b : EdgeBodyDym) : b.setOffset offset =
    { b with propPointer := BitField.set 0 (BitField.get 0 22 offset) b.propPointer } := by
  rw [setOffset, kPayloadMask_eq, BitVec.or_comm, BitField.and_mask_zero, BitField.set,
    BitVec.shiftLeft_zero]

theorem fields_eq (b : EdgeBodyDym) : b.fields =
    ⟨b.getDst, b.getSeq, (BitField.get 0 22 b.propPointer).setWidth 32,
      BitField.get 31 1 b.propPointer == 1#1, BitField.get 30 1 b.propPointer == 1#1,
      ⟨BitField.get 22 8 b.propPointer⟩⟩ := by
  rw [fields, getOffset, getMarker, getIsOut, getEdgeType, kPayloadMask_eq, kEdgeTypeMask_eq,
    kEdgeTypeShift, BitField.and_mask_zero, BitField.get_eq_of_mask,
    BitField.and_one_ne_zero _ _ (by decide), BitField.and_one_ne_zero _ _ (by decide)]

theorem ofBool_beq_one (b : Bool) : (BitVec.ofBool b == 1#1) = b := by cases b <;> rfl

theorem fields_setMarker (marker : Bool) (b : EdgeBodyDym) :
    (b.setMarker marker).fields = { b.fields with marker } := by
  rw [setMarker_eq, fields_eq, fields_eq]
  simp [getDst, getSeq, BitField.get_set, BitField.get_set_of_apart, ofBool_beq_one]

theorem fields_setIsOut (isOut : Bool) (b : EdgeBodyDym) :
    (b.setIsOut isOut).fields = { b.fields with isOut } := by
  rw [setIsOut_eq, fields_eq, fields_eq]
  simp [getDst, getSeq, BitField.get_set, BitField.get_set_of_apart, ofBool_beq_one]

theorem fields_setEdgeType (edgeType : UInt8) (b : EdgeBodyDym) :
    (b.setEdgeType edgeType).fields = { b.fields with edgeType } := by
  rw [setEdgeType_eq, fields_eq, fields_eq]
  simp [getDst, getSeq, BitField.get_set, BitField.get_set_of_apart]

/-- Of an offset the low bits are kept. -/
theorem fields_setOffset (offset : BitVec 32) (b : EdgeBodyDym) :
    (b.setOffset offset).fields = { b.fields with offset := offset &&& kPayloadMask } := by
  rw [setOffset_eq, fields_eq, fields_eq, kPayloadMask_eq, BitField.and_mask_zero]
  simp [getDst, getSeq, BitField.get_set, BitField.get_set_of_apart]

/-! Two words of 32 and 16 bits for a number of 48. -/

/-- A number below `2 ^ 48` is made of its parts. -/
theorem parts_eq {x : BitVec 64} (h : x.toNat < 2 ^ 48) :
    ((((x >>> 32) &&& 0xffff#64).setWidth 16).setWidth 64 <<< 32) +
      (((x &&& 0xffffffff#64).setWidth 32).setWidth 64) = x := by
  apply BitVec.eq_of_toNat_eq
  have hlow : x.toNat &&& 4294967295 = x.toNat % 2 ^ 32 :=
    Nat.and_two_pow_sub_one_eq_mod x.toNat 32
  have hhigh : (x.toNat / 2 ^ 32) &&& 65535 = x.toNat / 2 ^ 32 % 2 ^ 16 :=
    Nat.and_two_pow_sub_one_eq_mod (x.toNat / 2 ^ 32) 16
  simp only [BitVec.toNat_add, BitVec.toNat_shiftLeft, BitVec.toNat_setWidth, BitVec.toNat_and,
    BitVec.toNat_ushiftRight, BitVec.toNat_ofNat, Nat.shiftLeft_eq, Nat.shiftRight_eq_div_pow,
    Nat.reducePow, Nat.reduceMod] at hlow hhigh ⊢
  omega

theorem fields_setDst {dst : BitVec 64} (h : dst.toNat < 2 ^ 48) (b : EdgeBodyDym) :
    (b.setDst dst).fields = { b.fields with dst } := by
  have hdst : (b.setDst dst).getDst = dst := parts_eq h
  rw [fields, hdst]
  rfl

theorem fields_setSeq {seq : BitVec 64} (h : seq.toNat < 2 ^ 48) (b : EdgeBodyDym) :
    (b.setSeq seq).fields = { b.fields with seq } := by
  have hseq : (b.setSeq seq).getSeq = seq := parts_eq h
  rw [fields, hseq]
  rfl

/-! ## The decoders of mapped bytes -/

theorem ofLe_append (bs bs' : Bytes) : ofLe (bs ++ bs') = ofLe bs + 256 ^ bs.length * ofLe bs' := by
  induction bs with
  | nil => simp [ofLe]
  | cons b bs ih =>
    simp only [List.cons_append, ofLe, ih, List.length_cons, Nat.pow_succ]
    ring

theorem readUint32_word (x : BitVec 32) (rest : Bytes) :
    readUint32 (toLe 4 x.toNat ++ rest) = x := by
  rw [readUint32, List.take_left' (length_toLe _ _), ofLe_toLe x.isLt, BitVec.ofNat_toNat]
  simp

/-- The last word of a body has the high parts of the destination and the sequence. -/
theorem toNat_readUint32_halves (x y : BitVec 16) (rest : Bytes) :
    (readUint32 (toLe 2 x.toNat ++ (toLe 2 y.toNat ++ rest))).toNat =
      x.toNat + 2 ^ 16 * y.toNat := by
  have hx := x.isLt
  have hy := y.isLt
  rw [readUint32, ← List.append_assoc, List.take_left' (by simp), ofLe_append, ofLe_toLe hx,
    ofLe_toLe hy, length_toLe, BitVec.toNat_ofNat]
  omega

/-- The words do not overlap, so that the or is a sum. -/
theorem or_eq_add (low : BitVec 32) (high : BitVec 16) :
    low.setWidth 64 ||| (high.setWidth 64 <<< 32) =
      (high.setWidth 64 <<< 32) + low.setWidth 64 := by
  have hlow := low.isLt
  have hhigh := high.isLt
  apply BitVec.eq_of_toNat_eq
  have hor := Nat.shiftLeft_add_eq_or_of_lt hlow high.toNat
  simp only [BitVec.toNat_or, BitVec.toNat_add, BitVec.toNat_shiftLeft, BitVec.toNat_setWidth,
    Nat.shiftLeft_eq, Nat.reducePow] at hor ⊢
  rw [Nat.mod_eq_of_lt (a := low.toNat) (by omega), Nat.mod_eq_of_lt (a := high.toNat) (by omega),
    Nat.mod_eq_of_lt (a := high.toNat * 4294967296) (by omega), Nat.or_comm, ← hor]
  omega

/-- The words of a body stand where the decoders look for them. -/
theorem drop_bytes (b : EdgeBodyDym) (rest : Bytes) :
    readUint32 (b.bytes ++ rest) = b.propPointer ∧
      readUint32 ((b.bytes ++ rest).drop 4) = b.dstLow ∧
      readUint32 ((b.bytes ++ rest).drop 8) = b.seqLow ∧
      (readUint32 ((b.bytes ++ rest).drop 12)).toNat =
        b.dstHigh.toNat + 2 ^ 16 * b.seqHigh.toNat := by
  have h4 : (b.bytes ++ rest).drop 4 = toLe 4 b.dstLow.toNat ++ (toLe 4 b.seqLow.toNat ++
      (toLe 2 b.dstHigh.toNat ++ (toLe 2 b.seqHigh.toNat ++ rest))) := by
    simp only [bytes, List.append_assoc]
    exact List.drop_left' (length_toLe _ _)
  have h8 : (b.bytes ++ rest).drop 8 = toLe 4 b.seqLow.toNat ++
      (toLe 2 b.dstHigh.toNat ++ (toLe 2 b.seqHigh.toNat ++ rest)) := by
    rw [show 8 = 4 + 4 from rfl, ← List.drop_drop, h4]
    exact List.drop_left' (length_toLe _ _)
  have h12 : (b.bytes ++ rest).drop 12 =
      toLe 2 b.dstHigh.toNat ++ (toLe 2 b.seqHigh.toNat ++ rest) := by
    rw [show 12 = 8 + 4 from rfl, ← List.drop_drop, h8]
    exact List.drop_left' (length_toLe _ _)
  refine ⟨?_, ?_, ?_, ?_⟩
  · simp only [bytes, List.append_assoc]
    exact readUint32_word _ _
  · rw [h4]
    exact readUint32_word _ _
  · rw [h8]
    exact readUint32_word _ _
  · rw [h12]
    exact toNat_readUint32_halves _ _ _

theorem halves_eq {x y : BitVec 16} {word : BitVec 32}
    (h : word.toNat = x.toNat + 2 ^ 16 * y.toNat) :
    (word &&& 0xffff#32).setWidth 16 = x ∧ ((word >>> 16) &&& 0xffff#32).setWidth 16 = y := by
  have hx := x.isLt
  have hy := y.isLt
  have hlow : word.toNat &&& 65535 = word.toNat % 2 ^ 16 :=
    Nat.and_two_pow_sub_one_eq_mod word.toNat 16
  have hhigh : (word.toNat / 2 ^ 16) &&& 65535 = word.toNat / 2 ^ 16 % 2 ^ 16 :=
    Nat.and_two_pow_sub_one_eq_mod (word.toNat / 2 ^ 16) 16
  constructor
  · apply BitVec.eq_of_toNat_eq
    simp only [BitVec.toNat_setWidth, BitVec.toNat_and, BitVec.toNat_ofNat, Nat.reducePow,
      Nat.reduceMod] at hlow h hx ⊢
    omega
  · apply BitVec.eq_of_toNat_eq
    simp only [BitVec.toNat_setWidth, BitVec.toNat_and, BitVec.toNat_ofNat,
      BitVec.toNat_ushiftRight, Nat.shiftRight_eq_div_pow, Nat.reducePow,
      Nat.reduceMod] at hhigh h hy hx ⊢
    omega

/-- The decoders of mapped bytes agree with the accessors. -/
theorem decoders_eq (b : EdgeBodyDym) (rest : Bytes) :
    Storage.getDst (b.bytes ++ rest) = b.getDst ∧ Storage.getSeq (b.bytes ++ rest) = b.getSeq ∧
      Storage.getMarker (b.bytes ++ rest) = b.getMarker := by
  obtain ⟨h0, h4, h8, h12⟩ := drop_bytes b rest
  obtain ⟨hdst, hseq⟩ := halves_eq h12
  refine ⟨?_, ?_, ?_⟩
  · rw [Storage.getDst, h4, hdst, or_eq_add]
    rfl
  · rw [Storage.getSeq, h8, hseq, or_eq_add]
    rfl
  · rw [Storage.getMarker, h0]
    rfl

/-- Every field is read back as it was stored, by the accessors and from mapped bytes, and writing
one of them leaves the others as they were. -/
theorem fields_are_stored_apart (dst seq : BitVec 64) (hdst : dst.toNat < 2 ^ 48)
    (hseq : seq.toNat < 2 ^ 48) (offset : BitVec 32) (marker isOut : Bool) (edgeType : UInt8)
    (b : EdgeBodyDym) (rest : Bytes) :
    (b.setDst dst).fields = { b.fields with dst } ∧
    (b.setSeq seq).fields = { b.fields with seq } ∧
    (b.setOffset offset).fields = { b.fields with offset := offset &&& kPayloadMask } ∧
    (b.setMarker marker).fields = { b.fields with marker } ∧
    (b.setIsOut isOut).fields = { b.fields with isOut } ∧
    (b.setEdgeType edgeType).fields = { b.fields with edgeType } ∧
    (make dst seq offset marker isOut edgeType b).fields =
      ⟨dst, seq, offset &&& kPayloadMask, marker, isOut, edgeType⟩ ∧
    Storage.getDst (b.bytes ++ rest) = b.getDst ∧ Storage.getSeq (b.bytes ++ rest) = b.getSeq ∧
    Storage.getMarker (b.bytes ++ rest) = b.getMarker := by
  refine ⟨fields_setDst hdst b, fields_setSeq hseq b, fields_setOffset offset b,
    fields_setMarker marker b, fields_setIsOut isOut b, fields_setEdgeType edgeType b, ?_,
    decoders_eq b rest⟩
  rw [make, fields_setEdgeType, fields_setIsOut, fields_setMarker, fields_setOffset,
    fields_setSeq hseq, fields_setDst hdst]

theorem a_deleted_in_edge_is_stored :
    (make 5#64 9#64 7#32 true false 3 ⟨0, 0, 0, 0, 0⟩).fields =
      ⟨5#64, 9#64, 7#32, true, false, 3⟩ :=
  (fields_are_stored_apart 5#64 9#64 (by decide) (by decide) 7#32 true false 3 ⟨0, 0, 0, 0, 0⟩
    []).2.2.2.2.2.2.1

end EdgeBodyDym

end RichGraph
