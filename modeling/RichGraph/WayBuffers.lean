-- The reader of a compaction with its buffers. `Way` reads the bodies of a range and
-- every property column through a buffer that is filled again when it is used up.
-- Each call gives the record that the way without buffers gives.
import RichGraph.CompactionWays
import RichGraph.SSTableWriter
import RichGraph.Lib.ReadAhead

namespace RichGraph.Compaction

/-! ## A property column -/

/-- What a way keeps of one column: its file, the width of its slots, where the range starts in it,
the bytes read, and the buffer. -/
structure PropertyReader where
  file : Bytes
  len : Nat
  startOffset : Nat
  readCnt : Nat
  buffer : Bytes
  bufferPtr : Nat
deriving DecidableEq

namespace PropertyReader

/-- `FillPropertyBuffer`. Near the end of the file the rest of the buffer stays as it was. -/
def fill (size : Nat) (c : PropertyReader) : PropertyReader :=
  let read := (c.file.drop (c.readCnt + c.startOffset)).take size
  { c with buffer := read ++ c.buffer.drop read.length, bufferPtr := 0 }

/-- The buffer is filled from the first byte of a slot that would cross its end. -/
def ready (size : Nat) (c : PropertyReader) : PropertyReader :=
  if size < c.bufferPtr + c.len then c.fill size else c

/-- The slot of the next record, as the bytes of the buffer are when the call returns. -/
def slot (size : Nat) (c : PropertyReader) : Bytes :=
  let c := c.ready size
  (c.buffer.drop c.bufferPtr).take c.len

def advance (size : Nat) (c : PropertyReader) : PropertyReader :=
  let c := c.ready size
  { c with readCnt := c.readCnt + c.len, bufferPtr := c.bufferPtr + c.len }

/-- The column is read up to the record with this number. -/
structure At (size place : Nat) (c : PropertyReader) : Prop where
  offset : c.readCnt + c.startOffset = place * c.len
  ahead : Lib.ReadAhead size c.buffer c.file c.bufferPtr (place * c.len) c.file.length

variable {size place : Nat} {c : PropertyReader}

theorem at_fill (hplace : c.readCnt + c.startOffset = place * c.len) :
    At size place (c.fill size) := by
  refine ⟨hplace, ?_⟩
  unfold fill
  rw [hplace]
  exact Lib.ReadAhead.refill c.buffer (Or.inl (Nat.le_refl _)) (Nat.le_refl _)

theorem ready_frame (size : Nat) (c : PropertyReader) :
    (c.ready size).file = c.file ∧ (c.ready size).len = c.len := by
  unfold ready
  split <;> exact ⟨rfl, rfl⟩

/-- A slot fits into what is left of a buffer that is ready. -/
theorem At.ready (h : At size place c) (hlen : c.len ≤ size) :
    At size place (c.ready size) ∧ (c.ready size).bufferPtr + c.len ≤ size := by
  unfold PropertyReader.ready
  split
  · refine ⟨at_fill h.offset, ?_⟩
    show 0 + c.len ≤ size
    omega
  · rename_i hfits
    exact ⟨h, Nat.not_lt.mp hfits⟩

theorem At.slot (h : At size place c) (hlen : c.len ≤ size)
    (hfile : (place + 1) * c.len ≤ c.file.length) :
    c.slot size = (c.file.drop (place * c.len)).take c.len := by
  obtain ⟨hready, hfits⟩ := h.ready hlen
  obtain ⟨hfile', hlen'⟩ := ready_frame size c
  have hahead := hready.ahead
  rw [hfile', hlen'] at hahead
  rw [Nat.succ_mul] at hfile
  simp only [PropertyReader.slot, hlen']
  exact hahead.take_drop hfits hfile

theorem At.advance (h : At size place c) (hlen : c.len ≤ size) :
    At size (place + 1) (c.advance size) := by
  obtain ⟨hready, -⟩ := h.ready hlen
  have hoffset := hready.offset
  refine ⟨?_, ?_⟩
  · simp only [PropertyReader.advance, Nat.succ_mul]
    omega
  · have hahead := hready.ahead.advance (c.ready size).len
    rwa [← Nat.succ_mul] at hahead

end PropertyReader

/-! ## The way -/

/-- `BODY_BUFFER_SIZE` in bodies and `PROPERTY_BUFFER_SIZE` in bytes. -/
structure BufferSizes where
  body : Nat
  property : Nat

/-- `Way` with its buffers. Offsets are in bytes, and those of `EdgeOffset_t` have 32 bits. -/
structure BufferedWay where
  file : OutputFile
  totalIndexCnt : Nat
  indexStartOffset : Nat
  totalEdgeCnt : Nat
  remainEdgeCnt : Nat
  indexPtr : Nat
  edgeStartOffset : Nat
  bodyBuffer : List EdgeBody
  bodyPtr : Nat
  columns : List PropertyReader
deriving DecidableEq

namespace BufferedWay

/-- The way of some entries of an index. -/
def ofEntries (f : OutputFile) (indexNum indexOffset edgeNum : Nat) : BufferedWay :=
  { file := f, totalIndexCnt := indexNum, indexStartOffset := indexOffset
    totalEdgeCnt := edgeNum, remainEdgeCnt := edgeNum, indexPtr := 0, edgeStartOffset := 0
    bodyBuffer := [], bodyPtr := 0, columns := [] }

/-- The way of a file. The size in the header counts the closing body. -/
def ofFile (f : OutputFile) : BufferedWay := ofEntries f f.indexes.length 0 f.size

/-- An offset and a key of the index. -/
def offsetAt (w : BufferedWay) (k : Nat) : Nat := (w.file.indexes[k]?.map Index.offset).getD 0

def keyAt (w : BufferedWay) (k : Nat) : Nat := (w.file.indexes[k]?.map Index.key).getD 0

def edgeBodyOffset (w : BufferedWay) : Nat :=
  (w.edgeStartOffset + (w.totalEdgeCnt - w.remainEdgeCnt) * edgeBodySize) % offsetLimit

def fillBodyBuffer (sizes : BufferSizes) (w : BufferedWay) : BufferedWay :=
  let offset := (w.totalEdgeCnt - w.remainEdgeCnt) * edgeBodySize + w.edgeStartOffset
  let read := (w.file.bodies.drop (offset / edgeBodySize)).take (min sizes.body w.remainEdgeCnt)
  { w with bodyBuffer := read ++ w.bodyBuffer.drop read.length, bodyPtr := 0 }

/-- A column as `Init` opens it. -/
def openColumn (sizes : BufferSizes) (edgeStartOffset : Nat) (file : Bytes) (len : Nat) :
    PropertyReader :=
  PropertyReader.fill sizes.property
    { file, len, startOffset := edgeStartOffset / edgeBodySize * len % offsetLimit, readCnt := 0
      buffer := List.replicate sizes.property 0, bufferPtr := 0 }

def init (sizes : BufferSizes) (lengths : List Nat) (w : BufferedWay) : BufferedWay :=
  let edgeStartOffset := w.offsetAt w.indexStartOffset
  let w := fillBodyBuffer sizes { w with indexPtr := w.indexStartOffset, edgeStartOffset }
  { w with
    columns := lengths.mapIdx fun i len =>
      openColumn sizes edgeStartOffset (w.file.properties.getD i []) len }

/-- The body at the pointer has been read. -/
def advanceBody (sizes : BufferSizes) (w : BufferedWay) : BufferedWay :=
  let w' := { w with remainEdgeCnt := w.remainEdgeCnt - 1 }
  if w.bodyPtr = sizes.body - 1 then w'.fillBodyBuffer sizes
  else { w' with bodyPtr := w.bodyPtr + 1 }

/-- `NextEdgeRecord`. -/
def nextEdgeRecord (sizes : BufferSizes) (w : BufferedWay) : Option (EdgeRecord × BufferedWay) :=
  let changes := w.offsetAt (w.indexPtr + 1) ≤ w.edgeBodyOffset
  let indexPtr := if changes then w.indexPtr + 1 else w.indexPtr
  if changes ∧ w.indexStartOffset + w.totalIndexCnt - 1 ≤ indexPtr then none
  else (w.bodyBuffer[w.bodyPtr]?).map fun body =>
    ({ src := w.keyAt indexPtr, dst := body.dst, seq := body.seq
       props := w.columns.map (PropertyReader.slot sizes.property)
       marker := body.marker, isOut := body.isOut, edgeType := body.edgeType },
      { advanceBody sizes { w with indexPtr } with
        columns := w.columns.map (PropertyReader.advance sizes.property) })

/-- The calls return these records, and then the end. -/
def Gives (sizes : BufferSizes) : BufferedWay → List EdgeRecord → Prop
  | w, [] => w.nextEdgeRecord sizes = none
  | w, r :: rs => ∃ w', w.nextEdgeRecord sizes = some (r, w') ∧ w'.Gives sizes rs

end BufferedWay

/-! ## The file of a table -/

/-- The file holds the table: its index with offsets in bytes, one body for each record and the
closing one, and in each column a slot for each record. -/
structure Stores (lengths : List Nat) (t : SSTable) (f : OutputFile) : Prop where
  indexes : f.indexes = t.indexes.map fun e => { e with offset := e.offset * edgeBodySize }
  size : f.size = t.records.length + 1
  bodies : f.bodies.length = t.records.length + 1
  records : ∀ n r, t.records[n]? = some r → f.recordAt lengths r.src n = some r
  columns : ∀ i len, lengths[i]? = some len →
    t.records.length * len ≤ (f.properties.getD i []).length
  offsets : t.records.length * edgeBodySize < offsetLimit

/-- Every column can have its offsets. -/
def ColumnsFit (lengths : List Nat) (t : SSTable) : Prop :=
  ∀ len ∈ lengths, t.records.length * len < offsetLimit

/-- The buffers hold a body and a slot. -/
structure BufferSizes.HoldRecord (sizes : BufferSizes) (lengths : List Nat) : Prop where
  body : 0 < sizes.body
  property : ∀ len ∈ lengths, len ≤ sizes.property

namespace BufferedWay

variable {sizes : BufferSizes} {lengths : List Nat} {t : SSTable} {f : OutputFile}
variable {w : BufferedWay} {v : Way} {a n p q : Nat}

theorem offsetAt_of_stores (h : Stores lengths t f) (hfile : w.file = f) (k : Nat) :
    w.offsetAt k = t.offsetAt k * edgeBodySize := by
  unfold offsetAt SSTable.offsetAt
  rw [hfile, h.indexes, List.getElem?_map]
  cases t.indexes[k]? with
  | none => rfl
  | some e => rfl

theorem keyAt_of_stores (h : Stores lengths t f) (hfile : w.file = f) (k : Nat) :
    w.keyAt k = t.keyAt k := by
  unfold keyAt SSTable.keyAt
  rw [hfile, h.indexes, List.getElem?_map]
  cases t.indexes[k]? with
  | none => rfl
  | some e => rfl

/-! ## Beside the way without buffers -/

/-- Both ways stand at the same record, and the buffers hold what comes next. -/
structure Follows (sizes : BufferSizes) (lengths : List Nat) (f : OutputFile) (v : Way)
    (w : BufferedWay) : Prop where
  file : w.file = f
  start : w.indexStartOffset = v.indexStartOffset
  total : w.totalIndexCnt = v.totalIndexCnt
  ptr : w.indexPtr = v.indexPtr
  edgeStart : w.edgeStartOffset = v.edgeStartOffset * edgeBodySize
  count : w.remainEdgeCnt + v.readCnt = w.totalEdgeCnt
  fits : v.edgeStartOffset + w.totalEdgeCnt ≤ f.bodies.length
  bodyPtr : w.bodyPtr < sizes.body
  bodies : Lib.ReadAhead sizes.body w.bodyBuffer f.bodies w.bodyPtr v.edgeBodyOffset
    (v.edgeStartOffset + w.totalEdgeCnt)
  opened : w.columns.map (fun c => (c.file, c.len)) =
    lengths.mapIdx fun i len => (f.properties.getD i [], len)
  columns : ∀ c ∈ w.columns, c.At sizes.property v.edgeBodyOffset

/-- Where the file is read next. -/
theorem Follows.offset (h : Follows sizes lengths f v w) :
    (w.totalEdgeCnt - w.remainEdgeCnt) * edgeBodySize + w.edgeStartOffset =
      v.edgeBodyOffset * edgeBodySize := by
  have hcount := h.count
  have hread : w.totalEdgeCnt - w.remainEdgeCnt = v.readCnt := by omega
  unfold Way.edgeBodyOffset
  rw [hread, h.edgeStart, Nat.add_mul, Nat.add_comm]

theorem Follows.edgeBodyOffset (h : Follows sizes lengths f v w) (hstores : Stores lengths t f)
    (hq : v.edgeBodyOffset ≤ t.records.length) :
    w.edgeBodyOffset = v.edgeBodyOffset * edgeBodySize := by
  have hle := Nat.mul_le_mul_right edgeBodySize hq
  have hoffset := h.offset
  unfold BufferedWay.edgeBodyOffset
  rw [Nat.add_comm, hoffset]
  exact Nat.mod_eq_of_lt (Nat.lt_of_le_of_lt hle hstores.offsets)

/-- Both ways change the source at the same records. -/
theorem Follows.changes_iff (h : Follows sizes lengths f v w) (hstores : Stores lengths t f)
    (hq : v.edgeBodyOffset ≤ t.records.length) :
    w.offsetAt (w.indexPtr + 1) ≤ w.edgeBodyOffset ↔
      t.offsetAt (v.indexPtr + 1) ≤ v.edgeBodyOffset := by
  rw [h.edgeBodyOffset hstores hq, offsetAt_of_stores hstores h.file, h.ptr]
  exact Nat.mul_le_mul_right_iff SSTableWriter.edgeBodySize_pos

/-- A member of the columns is the column of some number. -/
theorem Follows.mem_columns (h : Follows sizes lengths f v w) {c : PropertyReader}
    (hc : c ∈ w.columns) : ∃ i, lengths[i]? = some c.len ∧ c.file = f.properties.getD i [] := by
  have hmem := List.mem_map_of_mem (f := fun c : PropertyReader => (c.file, c.len)) hc
  rw [h.opened, List.mem_mapIdx] at hmem
  obtain ⟨i, hi, heq⟩ := hmem
  rw [Prod.mk.injEq] at heq
  exact ⟨i, by rw [List.getElem?_eq_getElem hi, heq.2], heq.1.symm⟩

/-- The slots of the columns are those that the file has for the record. -/
theorem Follows.slots (h : Follows sizes lengths f v w) (hstores : Stores lengths t f)
    (hsizes : sizes.HoldRecord lengths) (hq : v.edgeBodyOffset < t.records.length) :
    w.columns.map (PropertyReader.slot sizes.property) = lengths.mapIdx fun i len =>
      ((f.properties.getD i []).drop (v.edgeBodyOffset * len)).take len := by
  have hslots : ∀ c ∈ w.columns, c.slot sizes.property =
      (fun p : Bytes × Nat => (p.1.drop (v.edgeBodyOffset * p.2)).take p.2) (c.file, c.len) := by
    intro c hc
    obtain ⟨i, hlen, hfile⟩ := h.mem_columns hc
    refine (h.columns c hc).slot (hsizes.property _ (List.mem_of_getElem? hlen)) ?_
    rw [hfile]
    exact Nat.le_trans (Nat.mul_le_mul_right _ hq) (hstores.columns i _ hlen)
  rw [List.map_congr_left hslots]
  have hmap := congrArg
    (List.map fun p : Bytes × Nat => (p.1.drop (v.edgeBodyOffset * p.2)).take p.2) h.opened
  rw [List.map_map] at hmap
  refine hmap.trans ?_
  simp only [List.mapIdx_eq_zipIdx_map, List.map_map, Function.comp_def]

theorem advance_frame (size : Nat) (c : PropertyReader) :
    ((c.advance size).file, (c.advance size).len) = (c.file, c.len) := by
  obtain ⟨hfile, hlen⟩ := PropertyReader.ready_frame size c
  exact Prod.ext hfile hlen

theorem fillBodyBuffer_ahead (sizes : BufferSizes)
    (hoffset : (w.totalEdgeCnt - w.remainEdgeCnt) * edgeBodySize +
      w.edgeStartOffset = q * edgeBodySize) (hq : q + w.remainEdgeCnt ≤ w.file.bodies.length) :
    Lib.ReadAhead sizes.body (w.fillBodyBuffer sizes).bodyBuffer w.file.bodies 0 q
      (q + w.remainEdgeCnt) := by
  simp only [fillBodyBuffer, hoffset, Nat.mul_div_cancel _ SSTableWriter.edgeBodySize_pos]
  exact Lib.ReadAhead.refill w.bodyBuffer (by omega) hq

/-- The body buffer after a record has been read from it. -/
theorem Follows.advanceBody (h : Follows sizes lengths f v w) (hsizes : 0 < sizes.body)
    (hremain : 0 < w.remainEdgeCnt) (indexPtr : Nat) :
    let w' := advanceBody sizes { w with indexPtr }
    w'.bodyPtr < sizes.body ∧ Lib.ReadAhead sizes.body w'.bodyBuffer f.bodies w'.bodyPtr
      (v.edgeBodyOffset + 1) (v.edgeStartOffset + w.totalEdgeCnt) := by
  have hptr := h.bodyPtr
  have hcount := h.count
  have hoffset := h.offset
  have hfits := h.fits
  have hfile := h.file
  have hplace : v.edgeBodyOffset = v.edgeStartOffset + v.readCnt := rfl
  unfold BufferedWay.advanceBody
  dsimp only
  split
  · have hahead := fillBodyBuffer_ahead sizes
      (w := { w with indexPtr, remainEdgeCnt := w.remainEdgeCnt - 1 }) (q := v.edgeBodyOffset + 1)
      (by
        have hread : w.totalEdgeCnt - (w.remainEdgeCnt - 1) =
          w.totalEdgeCnt - w.remainEdgeCnt + 1 := by omega
        dsimp only
        rw [hread, Nat.succ_mul, Nat.succ_mul]
        omega)
      (by
        dsimp only
        rw [hfile]
        omega)
    dsimp only at hahead
    have hstop : v.edgeBodyOffset + 1 + (w.remainEdgeCnt - 1) =
        v.edgeStartOffset + w.totalEdgeCnt := by omega
    rw [hstop] at hahead
    rw [← hfile]
    exact ⟨hsizes, hahead⟩
  · exact ⟨by dsimp only; omega, h.bodies.advance 1⟩

theorem advanceBody_frame (sizes : BufferSizes) (w : BufferedWay) :
    let w' := w.advanceBody sizes
    w'.file = w.file ∧ w'.indexStartOffset = w.indexStartOffset ∧
      w'.totalIndexCnt = w.totalIndexCnt ∧ w'.indexPtr = w.indexPtr ∧
      w'.edgeStartOffset = w.edgeStartOffset ∧ w'.totalEdgeCnt = w.totalEdgeCnt ∧
      w'.remainEdgeCnt = w.remainEdgeCnt - 1 := by
  unfold BufferedWay.advanceBody fillBodyBuffer
  split <;> exact ⟨rfl, rfl, rfl, rfl, rfl, rfl, rfl⟩

/-- A call returns the record of the way without buffers, and the ways stand at the next one. -/
theorem Follows.next {r : EdgeRecord} {v' : Way} (h : Follows sizes lengths f v w)
    (hstores : Stores lengths t f) (hsizes : sizes.HoldRecord lengths) (hfile : v.file = t)
    (hr : t.records[v.edgeBodyOffset]? = some r) (hremain : 0 < w.remainEdgeCnt)
    (hnext : v.nextEdgeRecord = some (r, v')) :
    ∃ w', w.nextEdgeRecord sizes = some (r, w') ∧ Follows sizes lengths f v' w' ∧
      v'.edgeStartOffset + w'.totalEdgeCnt = v.edgeStartOffset + w.totalEdgeCnt := by
  obtain ⟨hlt, -⟩ := List.getElem?_eq_some_iff.mp hr
  have hchanges := h.changes_iff hstores (Nat.le_of_lt hlt)
  have hcount := h.count
  unfold Way.nextEdgeRecord at hnext
  simp only [hfile, hr, Option.map_some] at hnext
  rw [Option.ite_none_left_eq_some] at hnext
  obtain ⟨hgoes, heq⟩ := hnext
  rw [Option.some.injEq, Prod.mk.injEq] at heq
  obtain ⟨hrec, rfl⟩ := heq
  set ptr := if t.offsetAt (v.indexPtr + 1) ≤ v.edgeBodyOffset then v.indexPtr + 1 else v.indexPtr
  have hptr : (if w.offsetAt (w.indexPtr + 1) ≤ w.edgeBodyOffset then w.indexPtr + 1
      else w.indexPtr) = ptr := by
    rw [if_congr hchanges rfl rfl, h.ptr]
  -- the body in the buffer is that of the file
  have hbody : w.bodyBuffer[w.bodyPtr]? = f.bodies[v.edgeBodyOffset]? := by
    refine h.bodies 0 h.bodyPtr ?_
    unfold Way.edgeBodyOffset
    omega
  have hslots := h.slots hstores hsizes hlt
  have hstored := hstores.records _ _ hr
  unfold OutputFile.recordAt at hstored
  obtain ⟨body, hbody', hfields⟩ := Option.map_eq_some_iff.mp hstored
  obtain ⟨hbodyPtr, hbodies⟩ := h.advanceBody hsizes.body hremain ptr
  obtain ⟨hf, hst, htot, hip, hes, htec, hrem⟩ := advanceBody_frame sizes { w with indexPtr := ptr }
  refine ⟨{ BufferedWay.advanceBody sizes { w with indexPtr := ptr } with
    columns := w.columns.map (PropertyReader.advance sizes.property) }, ?_, ?_,
    congrArg (v.edgeStartOffset + ·) htec⟩
  · unfold BufferedWay.nextEdgeRecord
    simp only [hptr]
    rw [if_neg (by rwa [hchanges, h.start, h.total]), hbody, hbody', Option.map_some,
      keyAt_of_stores hstores h.file, hslots]
    rw [← hfields] at hrec ⊢
    rw [EdgeRecord.mk.injEq] at hrec
    rw [hrec.1]
  · refine ⟨hf.trans h.file, hst.trans h.start, htot.trans h.total, hip, hes.trans h.edgeStart,
      ?_, ?_, hbodyPtr, ?_, ?_, ?_⟩
    · rw [hrem, htec]
      dsimp only
      omega
    · rw [htec]
      exact h.fits
    · rw [htec]
      exact hbodies
    · rw [List.map_map, ← h.opened]
      exact List.map_congr_left fun c _ => advance_frame _ c
    · intro c' hc'
      obtain ⟨c, hc, rfl⟩ := List.mem_map.mp hc'
      obtain ⟨i, hlen, -⟩ := h.mem_columns hc
      exact (h.columns c hc).advance (hsizes.property _ (List.mem_of_getElem? hlen))

theorem Follows.ends (h : Follows sizes lengths f v w) (hstores : Stores lengths t f)
    (hat : Way.At t a n p (t.offsetAt (a + n)) v) (hfit : a + n ≤ t.sourceNum)
    (hlast : p + 1 = a + n) : w.nextEdgeRecord sizes = none := by
  have hq : v.edgeBodyOffset ≤ t.records.length := by
    rw [hat.place, ← SSTable.offsetAt_sourceNum]
    exact SSTable.offsetAt_le hfit (Nat.le_refl _)
  have hchanges : w.offsetAt (w.indexPtr + 1) ≤ w.edgeBodyOffset := by
    rw [h.changes_iff hstores hq, hat.ptr, hat.place, hlast]
  unfold BufferedWay.nextEdgeRecord
  simp only [hchanges, if_true]
  rw [if_pos]
  rw [h.start, h.total, h.ptr, hat.start, hat.total, hat.ptr]
  exact ⟨trivial, by omega⟩

/-- The ways stand beside each other up to the end of the range. -/
theorem Follows.gives (hstores : Stores lengths t f) (hsizes : sizes.HoldRecord lengths)
    (hfit : a + n ≤ t.sourceNum) (hat : Way.At t a n p q v) (h : Follows sizes lengths f v w)
    (hrange : t.offsetAt (a + n) ≤ v.edgeStartOffset + w.totalEdgeCnt) :
    w.Gives sizes (t.slice q (t.offsetAt (a + n))) := by
  refine hat.records_induction (motive := fun v rs => ∀ w, Follows sizes lengths f v w →
    t.offsetAt (a + n) ≤ v.edgeStartOffset + w.totalEdgeCnt → w.Gives sizes rs) ?_ ?_ hfit w h
    hrange
  · intro p v hat hlast w h _
    exact h.ends hstores hat hfit hlast
  · intro p p' q v r v' rs hat hq hr hnext hat' ih w h hrange
    have hplace := hat.place
    have hcount := h.count
    have hremain : 0 < w.remainEdgeCnt := by
      unfold Way.edgeBodyOffset at hplace
      omega
    rw [← hplace] at hr
    obtain ⟨w', hnext', h', htotal⟩ := h.next hstores hsizes hat.file hr hremain hnext
    exact ⟨w', hnext', ih w' h' (htotal ▸ hrange)⟩

/-! ## The opened way -/

/-- The way of some entries, when it has been opened. -/
theorem follows_init (hstores : Stores lengths t f) (hsizes : sizes.HoldRecord lengths)
    (hcolumns : ColumnsFit lengths t) (indexNum edgeNum : Nat) (ha : a ≤ t.sourceNum)
    (hedges : t.offsetAt a + edgeNum ≤ t.records.length + 1) (isInput0 : Bool) :
    Follows sizes lengths f
      (Way.init { file := t, isInput0, indexStartOffset := a, totalIndexCnt := indexNum
                  indexPtr := 0, edgeStartOffset := 0, readCnt := 0 })
      ((ofEntries f indexNum a edgeNum).init sizes lengths) := by
  have hoff : (ofEntries f indexNum a edgeNum).offsetAt a = t.offsetAt a * edgeBodySize :=
    offsetAt_of_stores hstores rfl a
  have hle : t.offsetAt a ≤ t.records.length := by
    rw [← SSTable.offsetAt_sourceNum]
    exact SSTable.offsetAt_le ha (Nat.le_refl _)
  refine ⟨rfl, rfl, rfl, rfl, hoff, rfl, ?_, hsizes.body, ?_, ?_, ?_⟩
  · rw [hstores.bodies]
    exact hedges
  · refine fillBodyBuffer_ahead sizes (w := { ofEntries f indexNum a edgeNum with
      indexPtr := a, edgeStartOffset := (ofEntries f indexNum a edgeNum).offsetAt a }) ?_ ?_
    · show (edgeNum - edgeNum) * edgeBodySize + _ = (t.offsetAt a + 0) * edgeBodySize
      rw [Nat.sub_self, Nat.zero_mul, Nat.zero_add, Nat.add_zero]
      exact hoff
    · show t.offsetAt a + edgeNum ≤ f.bodies.length
      rw [hstores.bodies]
      exact hedges
  · simp only [init, List.mapIdx_eq_zipIdx_map, List.map_map]
    rfl
  · intro c hc
    simp only [init, List.mem_mapIdx] at hc
    obtain ⟨i, hi, rfl⟩ := hc
    refine PropertyReader.at_fill ?_
    show 0 + _ / edgeBodySize * lengths[i] % offsetLimit = t.offsetAt a * lengths[i]
    have hmul := Nat.mul_le_mul_right lengths[i] hle
    have hcol := hcolumns lengths[i] (List.getElem_mem hi)
    show 0 + (ofEntries f indexNum a edgeNum).offsetAt a / edgeBodySize * lengths[i] % offsetLimit =
      t.offsetAt a * lengths[i]
    rw [hoff, Nat.mul_div_cancel _ SSTableWriter.edgeBodySize_pos, Nat.zero_add,
      Nat.mod_eq_of_lt (by omega)]

/-- A range of entries. The closing body may be counted. -/
theorem gives_ofEntries (hstores : Stores lengths t f) (hsizes : sizes.HoldRecord lengths)
    (hcolumns : ColumnsFit lengths t) (hn : 0 < n) (hfit : a + n ≤ t.sourceNum) (edgeNum : Nat)
    (hrange : t.offsetAt (a + n) ≤ t.offsetAt a + edgeNum)
    (hedges : t.offsetAt a + edgeNum ≤ t.records.length + 1) :
    ((ofEntries f (n + 1) a edgeNum).init sizes lengths).Gives sizes
      (t.slice (t.offsetAt a) (t.offsetAt (a + n))) := by
  have hlt : t.offsetAt a < t.offsetAt (a + 1) := SSTable.offsetAt_lt (by omega)
  have hfollows := follows_init hstores hsizes hcolumns (n + 1) edgeNum (by omega) hedges false
  refine hfollows.gives hstores hsizes hfit
    ⟨rfl, rfl, rfl, rfl, rfl, ?_, Nat.le_refl _, Nat.le_of_lt hlt⟩ hrange
  exact Nat.lt_add_of_pos_right hn

/-- The calls on a file, and on every range of entries of its index, return the records in their
order, each with its source and its slots, and then the end. -/
theorem calls_return_the_records_in_order (sizes : BufferSizes) (lengths : List Nat) (t : SSTable)
    (f : OutputFile) (hstores : Stores lengths t f) (hsizes : sizes.HoldRecord lengths)
    (hcolumns : ColumnsFit lengths t) :
    ((ofFile f).init sizes lengths).Gives sizes t.records ∧
      ∀ a n, 0 < n → a + n ≤ t.sourceNum →
        ((ofEntries f (n + 1) a (t.offsetAt (a + n) - t.offsetAt a)).init sizes lengths).Gives sizes
          (t.slice (t.offsetAt a) (t.offsetAt (a + n))) := by
  have hend := SSTable.offsetAt_sourceNum (t := t)
  refine ⟨?_, fun a n hn hfit => ?_⟩
  · have hgives := gives_ofEntries hstores hsizes hcolumns (a := 0) (n := t.sourceNum)
      t.sourceNum_pos (by omega) f.size
      (by rw [Nat.zero_add, hend, hstores.size]; omega)
      (by rw [SSTable.offsetAt_zero, hstores.size]; omega)
    rw [Nat.zero_add, SSTable.slice_all] at hgives
    unfold ofFile
    rwa [hstores.indexes, List.length_map, SSTable.length_indexes]
  · have hle := SSTable.offsetAt_le (t := t) (Nat.le_add_right a n) hfit
    have hle' := SSTable.offsetAt_le (t := t) hfit (Nat.le_refl _)
    exact gives_ofEntries hstores hsizes hcolumns hn hfit _ (by omega) (by omega)

/-- A table with two sources, and its file. -/
def twoSources : SSTable :=
  { timeStamp := 1
    records := [⟨1, 5, 3, [[7, 0]], false, true, 0⟩, ⟨1, 6, 2, [[8, 0]], false, true, 0⟩,
      ⟨2, 4, 1, [[9, 0]], true, false, 1⟩]
    nonempty := by decide
    sorted := by decide
    src_lt := by decide }

def twoSourcesFile : OutputFile :=
  { timeStamp := 1, size := 4
    bodies := [⟨5, 3, 0, false, true, 0⟩, ⟨6, 2, 2, false, true, 0⟩, ⟨4, 1, 4, true, false, 1⟩,
      ⟨invalidVertexId, 0, 6, false, true, 0⟩]
    indexes := [⟨1, 0⟩, ⟨2, 32⟩, ⟨invalidVertexId, 48⟩]
    properties := [[7, 0, 8, 0, 9, 0]], edgeCalls := [], propertyCalls := [] }

/-- Two bodies and one and a half slots fit into the buffers, so both are filled again. -/
theorem three_records_are_read_through_small_buffers :
    ((ofFile twoSourcesFile).init ⟨2, 3⟩ [2]).Gives ⟨2, 3⟩ twoSources.records := by
  refine (calls_return_the_records_in_order ⟨2, 3⟩ [2] twoSources twoSourcesFile
    ⟨by decide, by decide, by decide, ?_, ?_, by decide⟩ ⟨by decide, by decide⟩
    (by unfold ColumnsFit; decide)).1
  · intro n r hr
    match n with
    | 0 => cases hr; rfl
    | 1 => cases hr; rfl
    | 2 => cases hr; rfl
    | n + 3 => cases hr
  · intro i len hi
    match i with
    | 0 => cases hi; decide
    | i + 1 => cases hi

end BufferedWay

end RichGraph.Compaction
