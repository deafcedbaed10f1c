-- The writer of a compaction. Bodies and columns go through buffers of different
-- sizes, and a file is cut off only where a new source begins. A file holds the
-- records that it was given; but the last file is closed only when its buffer of
-- bodies is not empty, and offsets of more than 32 bits are cut.
import RichGraph.EdgeBody
import RichGraph.Store

namespace RichGraph

open Compaction

/-! ## The files -/

/-- `EdgeBody_t`. `offset` is where the first column of the record starts. -/
structure EdgeBody where
  dst : Nat
  seq : Nat
  offset : Nat
  marker : Bool
  isOut : Bool
  edgeType : UInt8
deriving DecidableEq

/-- The offsets of a file have 32 bits. -/
def offsetLimit : Nat := 2 ^ 32

def indexSize : Nat := 12

def headerSize : Nat := 40

/-- A file that the writer has finalised. The lengths of the calls of `write` on its descriptors
are not in the code. -/
structure OutputFile where
  timeStamp : Nat
  size : Nat
  bodies : List EdgeBody
  indexes : List Index
  properties : List Bytes
  edgeCalls : List Nat
  propertyCalls : List (List Nat)
deriving DecidableEq

namespace OutputFile

/-- The record of a source at a place of the file, with the slots of its columns. -/
def recordAt (lengths : List Nat) (f : OutputFile) (src n : Nat) : Option EdgeRecord :=
  (f.bodies[n]?).map fun b =>
    { src, dst := b.dst, seq := b.seq
      props := lengths.mapIdx fun i len => ((f.properties.getD i []).drop (n * len)).take len
      marker := b.marker, isOut := b.isOut, edgeType := b.edgeType }

/-- Every entry of the index is about the bodies up to the next entry. -/
def readIndexes (recordAt : Nat → Nat → Option EdgeRecord) : List Index → List EdgeRecord
  | a :: b :: rest =>
    (List.range' (a.offset / edgeBodySize) ((b.offset - a.offset) / edgeBodySize)).filterMap
      (recordAt a.key) ++ readIndexes recordAt (b :: rest)
  | _ => []

/-- The records of a file, as its index gives them. -/
def records (lengths : List Nat) (f : OutputFile) : List EdgeRecord :=
  readIndexes (f.recordAt lengths) f.indexes

end OutputFile

/-! ## The writer -/

/-- One property column: what is in its buffer, what went to its file, and its size so far. -/
structure Column where
  len : Nat
  content : Bytes
  file : Bytes
  size : Nat
  calls : List Nat

namespace Column

def empty (len : Nat) : Column := ⟨len, [], [], 0, []⟩

def isFull (propertyBufferSize : Nat) (c : Column) : Bool :=
  decide (propertyBufferSize ≤ c.content.length + c.len)

/-- The buffer goes to the file. What `write` returns is not used. -/
def flush (c : Column) : Column :=
  { c with file := c.file ++ c.content, content := [], calls := c.calls ++ [c.content.length] }

/-- The slot of a record. A buffer without room for it is written first. -/
def put (propertyBufferSize : Nat) (value : Bytes) (c : Column) : Column :=
  let c := if c.isFull propertyBufferSize then c.flush else c
  { c with
    content := c.content ++ writePaddedSubPropertySlot c.len value
    size := (c.size + c.len) % offsetLimit }

/-- The width and the size of a column, and what went to its file with what is in its buffer. -/
def written (c : Column) : Nat × Nat × Bytes := (c.len, c.size, c.file ++ c.content)

theorem written_put (propertyBufferSize : Nat) (value : Bytes) (c : Column) :
    (c.put propertyBufferSize value).written = (c.len, (c.size + c.len) % offsetLimit,
      c.written.2.2 ++ writePaddedSubPropertySlot c.len value) := by
  unfold put written flush
  dsimp only
  split <;> simp

/-! The calls of `write` for a column depend only on how many slots it got. -/

/-- How many slots a buffer takes. -/
def slotsPerBuffer (propertyBufferSize len : Nat) : Nat := (propertyBufferSize - 1) / len

/-- What is in the buffer after `n` slots. -/
def buffered (propertyBufferSize len n : Nat) : Nat :=
  if n = 0 then 0 else ((n - 1) % slotsPerBuffer propertyBufferSize len + 1) * len

/-- The calls before the last one, after `n` slots. -/
def fullCalls (propertyBufferSize len n : Nat) : List Nat :=
  List.replicate ((n - 1) / slotsPerBuffer propertyBufferSize len)
    (slotsPerBuffer propertyBufferSize len * len)

/-- The column got `n` slots. -/
structure Got (propertyBufferSize n : Nat) (c : Column) : Prop where
  content : c.content.length = buffered propertyBufferSize c.len n
  calls : c.calls = fullCalls propertyBufferSize c.len n

theorem got_empty (propertyBufferSize len : Nat) : Got propertyBufferSize 0 (empty len) :=
  ⟨rfl, by simp [empty, fullCalls]⟩

/-- A slot that finds room. -/
theorem put_of_not_full {propertyBufferSize : Nat} {c : Column} (value : Bytes)
    (h : c.isFull propertyBufferSize = false) :
    (c.put propertyBufferSize value).content.length = c.content.length + c.len ∧
      (c.put propertyBufferSize value).calls = c.calls := by
  unfold put
  rw [h]
  exact ⟨by simp, rfl⟩

/-- A slot before which the buffer is written. -/
theorem put_of_full {propertyBufferSize : Nat} {c : Column} (value : Bytes)
    (h : c.isFull propertyBufferSize = true) :
    (c.put propertyBufferSize value).content.length = c.len ∧
      (c.put propertyBufferSize value).calls = c.calls ++ [c.content.length] := by
  unfold put
  rw [h]
  exact ⟨by simp [flush], rfl⟩

theorem succ_div_mod {k : Nat} (hk : 0 < k) (n : Nat) :
    (n % k + 1 = k ∧ (n + 1) / k = n / k + 1 ∧ (n + 1) % k = 0) ∨
      (n % k + 1 < k ∧ (n + 1) / k = n / k ∧ (n + 1) % k = n % k + 1) := by
  have hlt := Nat.mod_lt n hk
  have hdiv := Nat.div_add_mod n k
  rcases Nat.lt_or_ge (n % k + 1) k with hroom | hlast
  · refine Or.inr ⟨hroom, (Nat.div_mod_unique hk).mpr ?_⟩
    omega
  · refine Or.inl ⟨by omega, (Nat.div_mod_unique hk).mpr ?_⟩
    rw [Nat.mul_add]
    omega

theorem got_put {propertyBufferSize n : Nat} {c : Column} (value : Bytes)
    (hlen : c.len < propertyBufferSize) (h : Got propertyBufferSize n c) :
    Got propertyBufferSize (n + 1) (c.put propertyBufferSize value) := by
  obtain ⟨hcontent, hcalls⟩ := h
  have hput : (c.put propertyBufferSize value).len = c.len := by
    unfold put
    dsimp only
    split <;> rfl
  have hfull : c.isFull propertyBufferSize =
      decide (propertyBufferSize ≤ c.content.length + c.len) :=
    rfl
  rcases Nat.eq_zero_or_pos c.len with hzero | hpos
  · -- A column without width never fills its buffer.
    have hempty : c.content.length = 0 := by
      rw [hcontent, buffered, hzero]
      split <;> simp
    have hroom : c.isFull propertyBufferSize = false := by
      rw [hfull, hempty, hzero]
      simp only [decide_eq_false_iff_not]
      omega
    obtain ⟨hcontent', hcalls'⟩ := put_of_not_full value hroom
    refine ⟨?_, ?_⟩
    · rw [hcontent', hput, hempty, buffered, hzero]
      simp
    · rw [hcalls', hput, hcalls, hzero]
      simp [fullCalls, slotsPerBuffer]
  · set k := slotsPerBuffer propertyBufferSize c.len with hk
    have hkpos : 0 < k := Nat.div_pos (by omega) hpos
    have hle : k * c.len ≤ propertyBufferSize - 1 := Nat.div_mul_le_self _ _
    have hlt : propertyBufferSize - 1 < (k + 1) * c.len := by
      rw [Nat.mul_comm]
      exact Nat.lt_mul_div_succ _ hpos
    have hstep : ∀ a, a * c.len + c.len = (a + 1) * c.len := fun a => (Nat.succ_mul a c.len).symm
    cases n with
    | zero =>
      have hroom : c.isFull propertyBufferSize = false := by
        rw [hfull, hcontent]
        simp only [buffered, if_pos, decide_eq_false_iff_not]
        omega
      obtain ⟨hcontent', hcalls'⟩ := put_of_not_full value hroom
      refine ⟨?_, ?_⟩
      · rw [hcontent', hput, hcontent]
        simp [buffered]
      · rw [hcalls', hput, hcalls]
        simp [fullCalls]
    | succ m =>
      have hm : c.content.length = (m % k + 1) * c.len := hcontent
      rcases succ_div_mod hkpos m with ⟨hlast, hdiv, hmod⟩ | ⟨hmore, hdiv, hmod⟩
      · -- The buffer has all the slots that it takes.
        have hfull' : c.isFull propertyBufferSize = true := by
          rw [hfull, hm, hlast, decide_eq_true_iff, hstep]
          omega
        obtain ⟨hcontent', hcalls'⟩ := put_of_full value hfull'
        refine ⟨?_, ?_⟩
        · rw [hcontent', hput, buffered, if_neg (Nat.succ_ne_zero _), Nat.add_sub_cancel, ← hk,
            hmod, Nat.zero_add, Nat.one_mul]
        · rw [hcalls', hput, hcalls, hm, hlast, fullCalls, fullCalls, ← hk, Nat.add_sub_cancel,
            Nat.add_sub_cancel, hdiv, List.replicate_succ']
      · have hroom : c.isFull propertyBufferSize = false := by
          have : (m % k + 1 + 1) * c.len ≤ k * c.len := Nat.mul_le_mul_right _ hmore
          rw [hfull, hm, decide_eq_false_iff_not, hstep]
          omega
        obtain ⟨hcontent', hcalls'⟩ := put_of_not_full value hroom
        refine ⟨?_, ?_⟩
        · rw [hcontent', hput, hm, buffered, if_neg (Nat.succ_ne_zero _), Nat.add_sub_cancel, ← hk,
            hmod, hstep]
        · rw [hcalls', hput, hcalls, fullCalls, fullCalls, ← hk, Nat.add_sub_cancel,
            Nat.add_sub_cancel, hdiv]

end Column

/-- The buffers of a writer. A slot fits the buffer of its column, a body fits the buffer of bodies
beside the closing one, and the size at which a file is cut off can be an offset. -/
structure Buffers (o : Options) where
  propertyBufferSize : Nat
  propertyLengths_lt : ∀ len ∈ o.propertyLengths, len < propertyBufferSize
  bodyBufferSize_ge : 2 ≤ o.bodyBufferSize
  maxEFileSize_le : o.maxEFileSize ≤ offsetLimit

structure SSTableWriter where
  timestamp : Nat
  curSrcVtx : Nat
  /-- `edge_body_buffer_`, up to `edge_ptr_` -/
  bodies : List EdgeBody
  edgeFile : List EdgeBody
  edgeCnt : Nat
  indexes : List Index
  columns : List Column
  edgeCalls : List Nat
  currentTime : Nat
  files : List OutputFile

namespace SSTableWriter

def fresh (o : Options) (currentTime : Nat) : SSTableWriter :=
  { timestamp := 0, curSrcVtx := invalidVertexId, bodies := [], edgeFile := [], edgeCnt := 0
    indexes := [], columns := o.propertyLengths.map Column.empty, edgeCalls := []
    currentTime, files := [] }

/-- `Init`, with the next file id. -/
def init (w : SSTableWriter) : SSTableWriter :=
  { w with
    timestamp := w.currentTime, curSrcVtx := invalidVertexId, bodies := [], edgeFile := []
    edgeCnt := 0, indexes := []
    columns := w.columns.map fun c => Column.empty c.len
    edgeCalls := [], currentTime := w.currentTime + 1 }

/-- `WriteEnd`: the closing body and index, the header, and what is left in the buffers. -/
def writeEnd (w : SSTableWriter) : SSTableWriter :=
  let bodies := w.bodies ++
    [⟨invalidVertexId, 0, ((w.columns.head?).map Column.size).getD 0, false, true, 0⟩]
  let indexes := w.indexes ++ [⟨invalidVertexId, w.edgeCnt * edgeBodySize % offsetLimit⟩]
  let edgeCalls := w.edgeCalls ++
    [bodies.length * edgeBodySize, indexes.length * indexSize, headerSize]
  { w with
    bodies, indexes, edgeCalls
    files := w.files ++
      [{ timeStamp := w.timestamp, size := w.edgeCnt + 1, bodies := w.edgeFile ++ bodies, indexes
         properties := w.columns.map fun c => c.flush.file, edgeCalls
         propertyCalls := w.columns.map fun c => c.flush.calls }] }

/-- A new source begins. -/
def addIndex (src : Nat) (w : SSTableWriter) : SSTableWriter :=
  { w with
    curSrcVtx := src
    indexes := w.indexes ++ [⟨src, w.edgeCnt * edgeBodySize % offsetLimit⟩] }

/-- The slots of a record. -/
def putColumns (propertyBufferSize : Nat) (props : List Bytes) (w : SSTableWriter) :
    SSTableWriter :=
  { w with
    columns := w.columns.mapIdx fun i c => c.put propertyBufferSize (props.getD i []) }

/-- The body of a record. A buffer in which only the closing body has room is written. -/
def putBody (bodyBufferSize : Nat) (body : EdgeBody) (w : SSTableWriter) : SSTableWriter :=
  let bodies := w.bodies ++ [body]
  if bodyBufferSize - 1 ≤ bodies.length then
    { w with
      bodies := [], edgeFile := w.edgeFile ++ bodies, edgeCnt := w.edgeCnt + 1
      edgeCalls := w.edgeCalls ++ [bodies.length * edgeBodySize] }
  else { w with bodies, edgeCnt := w.edgeCnt + 1 }

variable {o : Options}

/-- `Write`, and whether the record was taken. A file of full size is closed when a new source
comes. -/
def write (b : Buffers o) (r : EdgeRecord) (w : SSTableWriter) : Bool × SSTableWriter :=
  if r.src ≠ w.curSrcVtx ∧ o.maxEFileSize ≤ curSize w.edgeCnt w.indexes.length then
    (false, w.writeEnd)
  else
    let body : EdgeBody := ⟨r.dst, r.seq, ((w.columns.head?).map Column.size).getD 0, r.marker,
      r.isOut, r.edgeType⟩
    let w := if r.src ≠ w.curSrcVtx then w.addIndex r.src else w
    (true, (w.putColumns b.propertyBufferSize r.props).putBody o.bodyBufferSize body)

/-- One turn of the merge loop: a record that was not taken goes to a new file. -/
def writeRecord (b : Buffers o) (w : SSTableWriter) (r : EdgeRecord) : SSTableWriter :=
  match w.write b r with
  | (true, w') => w'
  | (false, w') => (w'.init.write b r).2

def isClear (w : SSTableWriter) : Bool := w.bodies.isEmpty

/-- The merge loop over the merged records, with its end. -/
def writeAll (b : Buffers o) (currentTime : Nat) (rs : List EdgeRecord) : SSTableWriter :=
  let w := rs.foldl (writeRecord b) (fresh o currentTime).init
  if w.isClear then w else w.writeEnd

/-! ## How the records are cut into files -/

/-- The source of the last record. -/
def lastSrc (acc : List EdgeRecord) : Nat := (acc.getLast?.map EdgeRecord.src).getD invalidVertexId

/-- Where the sources begin. -/
def starts : Nat → Nat → List EdgeRecord → List (Nat × Nat)
  | _, _, [] => []
  | n, cur, r :: rs =>
    if r.src ≠ cur then (r.src, n) :: starts (n + 1) r.src rs else starts (n + 1) cur rs

/-- The records go to the current file, which has `acc`, until it is full and a source begins. -/
def cutFrom (maxEFileSize : Nat) : List EdgeRecord → List EdgeRecord → List (List EdgeRecord)
  | acc, [] => if acc = [] then [] else [acc]
  | acc, r :: rs =>
    if r.src ≠ lastSrc acc ∧
        maxEFileSize ≤ curSize acc.length (starts 0 invalidVertexId acc).length then
      acc :: cutFrom maxEFileSize [r] rs
    else cutFrom maxEFileSize (acc ++ [r]) rs

def cut (o : Options) (rs : List EdgeRecord) : List (List EdgeRecord) :=
  cutFrom o.maxEFileSize [] rs

theorem cutFrom_flatten (maxEFileSize : Nat) (acc rs : List EdgeRecord) :
    (cutFrom maxEFileSize acc rs).flatten = acc ++ rs := by
  induction rs generalizing acc with
  | nil =>
    unfold cutFrom
    split
    · rename_i h
      rw [h]
      rfl
    · simp
  | cons r rs ih =>
    unfold cutFrom
    split
    · rw [List.flatten_cons, ih]
      rfl
    · rw [ih, List.append_assoc]
      rfl

theorem lastSrc_concat (acc : List EdgeRecord) (r : EdgeRecord) : lastSrc (acc ++ [r]) = r.src := by
  simp [lastSrc]

theorem starts_append (acc : List EdgeRecord) (r : EdgeRecord) (n cur : Nat) :
    starts n cur (acc ++ [r]) = starts n cur acc ++
      if r.src = (acc.getLast?.map EdgeRecord.src).getD cur then []
      else [(r.src, n + acc.length)] := by
  induction acc generalizing n cur with
  | nil => by_cases h : r.src = cur <;> simp [starts, h]
  | cons x xs ih =>
    have hlast : ((x :: xs).getLast?.map EdgeRecord.src).getD cur =
        (xs.getLast?.map EdgeRecord.src).getD x.src := by
      cases xs with
      | nil => rfl
      | cons y ys => simp [List.getLast?_cons]
    have hlen : n + 1 + xs.length = n + (x :: xs).length := by
      rw [List.length_cons]
      omega
    rw [hlast, List.cons_append]
    simp only [starts]
    rw [← hlen]
    by_cases hx : x.src = cur
    · rw [if_neg (not_not.mpr hx), if_neg (not_not.mpr hx), ih, hx]
    · rw [if_pos hx, if_pos hx, ih, List.cons_append]

/-- A record at the end begins a source just when its source is not that of the record before. -/
theorem starts_concat (acc : List EdgeRecord) (r : EdgeRecord) :
    starts 0 invalidVertexId (acc ++ [r]) = starts 0 invalidVertexId acc ++
      if r.src = lastSrc acc then [] else [(r.src, acc.length)] := by
  rw [starts_append, Nat.zero_add]
  rfl

/-! ## What the writer has -/

/-- The record with its slots, one for each column. -/
def slots (lengths : List Nat) (r : EdgeRecord) : EdgeRecord :=
  { r with props := lengths.mapIdx fun i len =>
      writePaddedSubPropertySlot len (r.props.getD i []) }

def bodyOf (firstLen n : Nat) (r : EdgeRecord) : EdgeBody :=
  ⟨r.dst, r.seq, n * firstLen % offsetLimit, r.marker, r.isOut, r.edgeType⟩

def bodiesOf (o : Options) (acc : List EdgeRecord) : List EdgeBody :=
  acc.mapIdx (bodyOf (o.propertyLengths.head?.getD 0))

/-- A column of the records: its width, its size and its bytes. -/
def columnOf (acc : List EdgeRecord) (i len : Nat) : Nat × Nat × Bytes :=
  (len, acc.length * len % offsetLimit,
    acc.flatMap fun r => writePaddedSubPropertySlot len (r.props.getD i []))

def columnsOf (o : Options) (acc : List EdgeRecord) : List (Nat × Nat × Bytes) :=
  o.propertyLengths.mapIdx (columnOf acc)

def toIndex (p : Nat × Nat) : Index := ⟨p.1, p.2 * edgeBodySize % offsetLimit⟩

/-- The calls for full buffers of bodies, after `n` records. -/
def bodyCalls (o : Options) (n : Nat) : List Nat :=
  List.replicate (n / (o.bodyBufferSize - 1)) ((o.bodyBufferSize - 1) * edgeBodySize)

/-- The file that is being written has the records, with its buffers. -/
structure Holds (b : Buffers o) (w : SSTableWriter) (acc : List EdgeRecord) : Prop where
  edgeCnt : w.edgeCnt = acc.length
  cur : w.curSrcVtx = lastSrc acc
  indexes : w.indexes = (starts 0 invalidVertexId acc).map toIndex
  bodies : w.edgeFile ++ w.bodies = bodiesOf o acc
  buffered : w.bodies.length = acc.length % (o.bodyBufferSize - 1)
  columns : w.columns.map Column.written = columnsOf o acc
  early : ∀ p ∈ starts 0 invalidVertexId acc, p.2 * edgeBodySize < offsetLimit
  edgeCalls : w.edgeCalls = bodyCalls o acc.length
  got : ∀ c ∈ w.columns, c.Got b.propertyBufferSize acc.length

theorem bodiesOf_concat (o : Options) (acc : List EdgeRecord) (r : EdgeRecord) :
    bodiesOf o (acc ++ [r]) =
      bodiesOf o acc ++ [bodyOf (o.propertyLengths.head?.getD 0) acc.length r] := by
  unfold bodiesOf
  rw [List.mapIdx_append]
  simp

/-- The slots of a record go to the ends of the columns. -/
theorem columnsOf_concat (o : Options) (acc : List EdgeRecord) (r : EdgeRecord) :
    columnsOf o (acc ++ [r]) = (columnsOf o acc).mapIdx fun i c =>
      (c.1, (c.2.1 + c.1) % offsetLimit,
        c.2.2 ++ writePaddedSubPropertySlot c.1 (r.props.getD i [])) := by
  unfold columnsOf
  rw [List.mapIdx_mapIdx]
  refine List.mapIdx_eq_mapIdx_iff.mpr fun i hi => ?_
  simp only [columnOf, Function.comp_apply, List.length_append, List.length_singleton,
    List.flatMap_append, List.flatMap_singleton, Nat.add_mul, Nat.one_mul, Nat.mod_add_mod]

theorem written_putColumns {w : SSTableWriter} {acc : List EdgeRecord}
    (h : w.columns.map Column.written = columnsOf o acc) (r : EdgeRecord)
    (propertyBufferSize : Nat) :
    (w.putColumns propertyBufferSize r.props).columns.map Column.written =
      columnsOf o (acc ++ [r]) := by
  rw [columnsOf_concat, ← h]
  refine List.ext_getElem? fun i => ?_
  simp only [putColumns, List.getElem?_map, List.getElem?_mapIdx, Option.map_map]
  congr 1
  funext c
  exact Column.written_put _ _ _

/-- The offset that a body has for its first column. -/
theorem head_size {w : SSTableWriter} {acc : List EdgeRecord}
    (h : w.columns.map Column.written = columnsOf o acc) :
    ((w.columns.head?).map Column.size).getD 0 =
      acc.length * (o.propertyLengths.head?.getD 0) % offsetLimit := by
  have hhead := congrArg (fun cs => (cs.head?.map fun c => c.2.1).getD 0) h
  unfold columnsOf at hhead
  cases hl : o.propertyLengths with
  | nil =>
    rw [hl] at hhead
    simpa [Column.written, Function.comp_def] using hhead
  | cons len lens =>
    rw [hl] at hhead
    simpa [Column.written, Function.comp_def, List.mapIdx_cons, columnOf] using hhead

/-! ### One record -/

variable {b : Buffers o} {w : SSTableWriter} {acc : List EdgeRecord} {r : EdgeRecord}

/-- The body of a record goes to the end of the bodies. -/
theorem putBody_bodies (bodyBufferSize : Nat) (body : EdgeBody) (w : SSTableWriter) :
    (w.putBody bodyBufferSize body).edgeFile ++ (w.putBody bodyBufferSize body).bodies =
      w.edgeFile ++ w.bodies ++ [body] := by
  unfold putBody
  dsimp only
  split <;> simp

/-- A buffer that is written has all the bodies that it takes. -/
theorem putBody_counts {n : Nat} (body : EdgeBody) (hb : 2 ≤ o.bodyBufferSize)
    (h : w.bodies.length = n % (o.bodyBufferSize - 1)) (hcalls : w.edgeCalls = bodyCalls o n) :
    (w.putBody o.bodyBufferSize body).bodies.length = (n + 1) % (o.bodyBufferSize - 1) ∧
      (w.putBody o.bodyBufferSize body).edgeCalls = bodyCalls o (n + 1) := by
  have hlen : (w.bodies ++ [body]).length = n % (o.bodyBufferSize - 1) + 1 := by
    rw [List.length_append, List.length_singleton, h]
  unfold putBody bodyCalls
  dsimp only
  rw [hlen]
  rcases Column.succ_div_mod (show 0 < o.bodyBufferSize - 1 by omega) n with
    ⟨hlast, hdiv, hmod⟩ | ⟨hmore, hdiv, hmod⟩
  · rw [if_pos hlast.ge, hdiv, hmod, List.replicate_succ', hlast, hcalls]
    exact ⟨rfl, rfl⟩
  · rw [if_neg (Nat.not_le.mpr hmore), hdiv, hmod]
    exact ⟨hlen, hcalls⟩

theorem putBody_frame (bodyBufferSize : Nat) (body : EdgeBody) (w : SSTableWriter) :
    (w.putBody bodyBufferSize body).edgeCnt = w.edgeCnt + 1 ∧
      (w.putBody bodyBufferSize body).curSrcVtx = w.curSrcVtx ∧
      (w.putBody bodyBufferSize body).indexes = w.indexes ∧
      (w.putBody bodyBufferSize body).columns = w.columns ∧
      (w.putBody bodyBufferSize body).files = w.files := by
  unfold putBody
  dsimp only
  split <;> exact ⟨rfl, rfl, rfl, rfl, rfl⟩

theorem Holds.lengths (h : Holds b w acc) : w.columns.map Column.len = o.propertyLengths := by
  have := congrArg (List.map Prod.fst) h.columns
  unfold columnsOf at this
  rw [List.map_map] at this
  refine Eq.trans this ?_
  refine List.ext_getElem? fun i => ?_
  simp only [List.getElem?_map, List.getElem?_mapIdx, Option.map_map]
  cases o.propertyLengths[i]? <;> rfl

/-- A record that is taken is added to the file. -/
theorem holds_write (h : Holds b w acc)
    (hfit : ¬ (r.src ≠ w.curSrcVtx ∧ o.maxEFileSize ≤ curSize w.edgeCnt w.indexes.length)) :
    ∃ w', w.write b r = (true, w') ∧ Holds b w' (acc ++ [r]) ∧ w'.files = w.files := by
  set w₁ : SSTableWriter := if r.src ≠ w.curSrcVtx then w.addIndex r.src else w with hw₁
  set body : EdgeBody := ⟨r.dst, r.seq, ((w.columns.head?).map Column.size).getD 0, r.marker,
    r.isOut, r.edgeType⟩ with hbody
  have hwrite : w.write b r =
      (true, (w₁.putColumns b.propertyBufferSize r.props).putBody o.bodyBufferSize body) := by
    unfold write
    rw [if_neg hfit]
  -- Only the index depends on the source.
  have hsame : w₁.edgeCnt = w.edgeCnt ∧ w₁.bodies = w.bodies ∧ w₁.edgeFile = w.edgeFile ∧
      w₁.columns = w.columns ∧ w₁.files = w.files ∧ w₁.edgeCalls = w.edgeCalls := by
    rw [hw₁]
    split <;> exact ⟨rfl, rfl, rfl, rfl, rfl, rfl⟩
  obtain ⟨hcnt, hbodies, hfile, hcolumns, hfiles, hcalls⟩ := hsame
  have hindex : w₁.curSrcVtx = r.src ∧
      w₁.indexes = (starts 0 invalidVertexId (acc ++ [r])).map toIndex := by
    rw [starts_concat, hw₁]
    by_cases hr : r.src = w.curSrcVtx
    · rw [if_neg (not_not.mpr hr), ← h.cur, if_pos hr, List.append_nil]
      exact ⟨hr.symm, h.indexes⟩
    · rw [if_pos hr, ← h.cur, if_neg hr, List.map_append]
      refine ⟨rfl, ?_⟩
      unfold addIndex
      dsimp only
      rw [h.indexes, h.edgeCnt]
      rfl
  obtain ⟨hcnt', hcur', hindexes', hcolumns', hfiles'⟩ := putBody_frame o.bodyBufferSize body
    (w₁.putColumns b.propertyBufferSize r.props)
  have hbuffered : (w₁.putColumns b.propertyBufferSize r.props).bodies.length =
      acc.length % (o.bodyBufferSize - 1) := by
    rw [← h.buffered, ← hbodies]
    rfl
  have hcounts := putBody_counts body b.bodyBufferSize_ge hbuffered (hcalls.trans h.edgeCalls)
  have hlens : ∀ c ∈ w.columns, c.len < b.propertyBufferSize := by
    intro c hc
    refine b.propertyLengths_lt c.len ?_
    rw [← h.lengths]
    exact List.mem_map_of_mem hc
  refine ⟨_, hwrite, ⟨?_, ?_, ?_, ?_, ?_, ?_, ?_, ?_, ?_⟩, hfiles'.trans hfiles⟩
  · rw [hcnt', List.length_append, List.length_singleton, ← h.edgeCnt, ← hcnt]
    rfl
  · rw [hcur', lastSrc_concat]
    exact hindex.1
  · rw [hindexes']
    exact hindex.2
  · rw [putBody_bodies, bodiesOf_concat, ← h.bodies, ← hbodies, ← hfile]
    congr 1
    rw [hbody, head_size h.columns]
    rfl
  · rw [List.length_append, List.length_singleton]
    exact hcounts.1
  · rw [hcolumns']
    exact written_putColumns (by rw [hcolumns]; exact h.columns) r _
  · intro p hp
    rw [starts_concat] at hp
    rcases List.mem_append.mp hp with hp | hp
    · exact h.early p hp
    · split at hp
      · cases hp
      · rename_i hnew
        rw [List.mem_singleton.mp hp]
        -- A source begins only in a file that is not full.
        rw [← h.cur] at hnew
        have hsize : curSize w.edgeCnt w.indexes.length < o.maxEFileSize :=
          Nat.lt_of_not_le fun hle => hfit ⟨hnew, hle⟩
        have := b.maxEFileSize_le
        unfold curSize at hsize
        rw [h.edgeCnt] at hsize
        dsimp only
        unfold edgeBodySize
        omega
  · rw [List.length_append, List.length_singleton]
    exact hcounts.2
  · rw [hcolumns', List.length_append, List.length_singleton]
    intro c hc
    obtain ⟨i, hi, rfl⟩ := List.mem_mapIdx.mp hc
    have hmem : w₁.columns[i] ∈ w.columns := hcolumns ▸ List.getElem_mem hi
    exact Column.got_put _ (hlens _ hmem) (h.got _ hmem)

/-! ### The end of a file -/

/-- The calls of `write` for the edges of a file. -/
def edgeCallsOf (o : Options) (acc : List EdgeRecord) : List Nat :=
  bodyCalls o acc.length ++
    [(acc.length % (o.bodyBufferSize - 1) + 1) * edgeBodySize,
      ((starts 0 invalidVertexId acc).length + 1) * indexSize, headerSize]

/-- The calls of `write` for the columns of a file. -/
def propertyCallsOf (b : Buffers o) (acc : List EdgeRecord) : List (List Nat) :=
  o.propertyLengths.map fun len => Column.fullCalls b.propertyBufferSize len acc.length ++
    [Column.buffered b.propertyBufferSize len acc.length]

/-- A finalised file that was given the records. -/
structure IsFile (b : Buffers o) (f : OutputFile) (acc : List EdgeRecord) : Prop where
  indexes : f.indexes = (starts 0 invalidVertexId acc ++ [(invalidVertexId, acc.length)]).map
    toIndex
  bodies : ∃ closing, f.bodies = bodiesOf o acc ++ [closing]
  properties : f.properties = (columnsOf o acc).map fun c => c.2.2
  early : ∀ p ∈ starts 0 invalidVertexId acc, p.2 * edgeBodySize < offsetLimit
  edgeCalls : f.edgeCalls = edgeCallsOf o acc
  propertyCalls : f.propertyCalls = propertyCallsOf b acc

theorem isFile_writeEnd (h : Holds b w acc) :
    ∃ f, w.writeEnd.files = w.files ++ [f] ∧ IsFile b f acc := by
  have hbodies : ∀ closing : EdgeBody, w.edgeFile ++ (w.bodies ++ [closing]) =
      bodiesOf o acc ++ [closing] := by
    intro closing
    rw [← List.append_assoc, h.bodies]
  refine ⟨_, rfl,
    { indexes := ?_, bodies := ⟨_, hbodies _⟩, properties := ?_, early := h.early,
      edgeCalls := ?_, propertyCalls := ?_ }⟩
  · dsimp only
    rw [h.indexes, h.edgeCnt, List.map_append]
    rfl
  · dsimp only
    rw [← h.columns, List.map_map]
    rfl
  · dsimp only
    rw [h.edgeCalls, List.length_append, List.length_append, h.buffered, h.indexes, List.length_map]
    rfl
  · dsimp only
    unfold propertyCallsOf
    rw [← h.lengths, List.map_map]
    refine List.map_congr_left fun c hc => ?_
    obtain ⟨hcontent, hcalls⟩ := h.got c hc
    unfold Column.flush
    dsimp only [Function.comp_apply]
    rw [hcontent, hcalls]

/-- The next file is empty. -/
theorem holds_init (h : w.columns.map Column.len = o.propertyLengths) :
    Holds b w.init [] := by
  refine ⟨rfl, rfl, rfl, rfl, by simp [init], ?_, by simp [starts], by simp [init, bodyCalls], ?_⟩
  · unfold init columnsOf
    dsimp only
    rw [← h, List.map_map]
    refine List.ext_getElem? fun i => ?_
    simp only [List.getElem?_map, List.getElem?_mapIdx, Option.map_map]
    congr 1
    funext c
    simp [Column.written, Column.empty, columnOf]
  · intro c hc
    obtain ⟨c', -, rfl⟩ := List.mem_map.mp hc
    exact Column.got_empty _ _

/-! ## What a file gives back -/

section Reading

variable {recordAt : Nat → Nat → Option EdgeRecord}

theorem edgeBodySize_pos : 0 < edgeBodySize := by decide

/-- From one entry to the next, when both places can be offsets. -/
theorem readIndexes_pair {key key' m n : Nat} (rest : List Index)
    (hm : m * edgeBodySize < offsetLimit) (hn : n * edgeBodySize < offsetLimit) :
    OutputFile.readIndexes recordAt (toIndex (key, m) :: toIndex (key', n) :: rest) =
      (List.range' m (n - m)).filterMap (recordAt key) ++
        OutputFile.readIndexes recordAt (toIndex (key', n) :: rest) := by
  have hm' : (toIndex (key, m)).offset = m * edgeBodySize := Nat.mod_eq_of_lt hm
  have hn' : (toIndex (key', n)).offset = n * edgeBodySize := Nat.mod_eq_of_lt hn
  rw [OutputFile.readIndexes, hm', hn', ← Nat.sub_mul, Nat.mul_div_cancel _ edgeBodySize_pos,
    Nat.mul_div_cancel _ edgeBodySize_pos]
  rfl

/-- The index gives back the sources of the records, one place after the other. The source of the
entry before began at `m`. -/
theorem readIndexes_starts {rs : List EdgeRecord} {m n cur : Nat} (hmn : m ≤ n)
    (hlimit : (n + rs.length) * edgeBodySize < offsetLimit) :
    OutputFile.readIndexes recordAt
        (((cur, m) :: (starts n cur rs ++ [(invalidVertexId, n + rs.length)])).map toIndex) =
      (List.range' m (n - m)).filterMap (recordAt cur) ++
        (rs.mapIdx fun i r => (recordAt r.src (n + i)).toList).flatten := by
  have hle : ∀ i ≤ n + rs.length, i * edgeBodySize < offsetLimit := fun i hi =>
    Nat.lt_of_le_of_lt (Nat.mul_le_mul_right _ hi) hlimit
  induction rs generalizing m n cur with
  | nil =>
    simp only [starts, List.nil_append, List.map_cons, List.map_nil, List.length_nil, Nat.add_zero]
    rw [readIndexes_pair _ (hle m (by omega)) (hle n (by omega))]
    rfl
  | cons r rs ih =>
    have hlen : n + (r :: rs).length = n + 1 + rs.length := by
      rw [List.length_cons]
      omega
    rw [hlen] at hlimit hle ⊢
    have hshift : ((r :: rs).mapIdx fun i r => (recordAt r.src (n + i)).toList).flatten =
        (recordAt r.src n).toList ++
          (rs.mapIdx fun i r => (recordAt r.src (n + 1 + i)).toList).flatten := by
      rw [List.mapIdx_cons, List.flatten_cons]
      congr 3
      funext i r
      rw [Nat.add_assoc, Nat.add_comm 1 i]
    have hone : ∀ key, [n].filterMap (recordAt key) = (recordAt key n).toList := by
      intro key
      cases h : recordAt key n <;> simp [h]
    rw [hshift]
    unfold starts
    by_cases hr : r.src = cur
    · rw [if_neg (not_not.mpr hr), ih (by omega) hlimit hle, hr, ← List.append_assoc,
        Nat.succ_sub hmn, List.range'_1_concat, List.filterMap_append, Nat.add_sub_cancel' hmn,
        hone]
    · rw [if_pos hr, List.cons_append, List.map_cons, List.map_cons,
        readIndexes_pair _ (hle m (by omega)) (hle n (by omega)), ← List.map_cons,
        ih (Nat.le_add_right n 1) hlimit hle, Nat.add_sub_cancel_left, List.range'_one, hone]

/-- When the last offset was cut, places are missing. -/
theorem readIndexes_length {rs : List EdgeRecord} {m n cur last : Nat} (hmn : m ≤ n)
    (hearly : ∀ p ∈ (cur, m) :: starts n cur rs, p.2 * edgeBodySize < offsetLimit) :
    (OutputFile.readIndexes recordAt
        (((cur, m) :: starts n cur rs).map toIndex ++ [⟨invalidVertexId, last⟩])).length + m ≤
      max (max m (n + rs.length - 1)) (last / edgeBodySize) := by
  have hm : m * edgeBodySize < offsetLimit := hearly (cur, m) List.mem_cons_self
  induction rs generalizing m n cur with
  | nil =>
    have hoffset : (toIndex (cur, m)).offset = m * edgeBodySize := Nat.mod_eq_of_lt hm
    have hdiv : (last - m * edgeBodySize) / edgeBodySize = last / edgeBodySize - m := by
      rw [Nat.mul_comm]
      exact Nat.sub_mul_div _ _ _
    have hread : OutputFile.readIndexes recordAt
        (((cur, m) :: starts n cur []).map toIndex ++ [⟨invalidVertexId, last⟩]) =
        (List.range' m (last / edgeBodySize - m)).filterMap (recordAt cur) := by
      simp only [starts, List.map_cons, List.map_nil, List.cons_append, List.nil_append]
      rw [OutputFile.readIndexes, hoffset, Nat.mul_div_cancel _ edgeBodySize_pos, hdiv]
      exact List.append_nil _
    have hlen := List.length_filterMap_le (recordAt cur)
      (List.range' m (last / edgeBodySize - m))
    rw [List.length_range'] at hlen
    rw [hread]
    omega
  | cons r rs ih =>
    rw [List.length_cons]
    unfold starts at hearly ⊢
    by_cases hr : r.src = cur
    · rw [if_neg (not_not.mpr hr)] at hearly ⊢
      have := ih (n := n + 1) (by omega) hearly hm
      omega
    · rw [if_pos hr] at hearly ⊢
      have hn : n * edgeBodySize < offsetLimit :=
        hearly (r.src, n) (List.mem_cons_of_mem _ List.mem_cons_self)
      have hrest := ih (m := n) (n := n + 1) (Nat.le_add_right n 1)
        (fun p hp => hearly p (List.mem_cons_of_mem _ hp)) hn
      have hlen := List.length_filterMap_le (recordAt cur) (List.range' m (n - m))
      rw [List.length_range'] at hlen
      rw [List.map_cons, List.map_cons, List.cons_append, List.cons_append,
        readIndexes_pair _ hm hn, List.length_append]
      rw [List.map_cons, List.cons_append] at hrest
      omega

end Reading

/-- The record at a place of a file. -/
theorem recordAt_of_isFile {f : OutputFile} (h : IsFile b f acc) {n : Nat} {r : EdgeRecord}
    (hr : acc[n]? = some r) : f.recordAt o.propertyLengths r.src n =
      some (slots o.propertyLengths r) := by
  obtain ⟨closing, hbodies⟩ := h.bodies
  have hlt := (List.getElem?_eq_some_iff.mp hr).1
  have hbody : f.bodies[n]? = some (bodyOf (o.propertyLengths.head?.getD 0) n r) := by
    rw [hbodies, List.getElem?_append_left (by simpa [bodiesOf] using hlt)]
    simp [bodiesOf, List.getElem?_mapIdx, hr]
  unfold OutputFile.recordAt
  rw [hbody, Option.map_some, Option.some.injEq]
  unfold slots
  have hprops : (o.propertyLengths.mapIdx fun i len =>
      ((f.properties.getD i []).drop (n * len)).take len) =
      o.propertyLengths.mapIdx fun i len =>
        writePaddedSubPropertySlot len (r.props.getD i []) := by
    refine List.ext_getElem? fun i => ?_
    simp only [List.getElem?_mapIdx]
    cases hi : o.propertyLengths[i]? with
    | none => rfl
    | some len =>
      have hcolumn : f.properties.getD i [] =
          acc.flatMap fun r => writePaddedSubPropertySlot len (r.props.getD i []) := by
        rw [h.properties, List.getD_eq_getElem?_getD, List.getElem?_map, columnsOf,
          List.getElem?_mapIdx, hi]
        rfl
      rw [Option.map_some, Option.map_some, hcolumn,
        Lib.take_drop_flatMap (fun r _ => length_writePaddedSubPropertySlot len _) hr]
  rw [hprops]
  rfl

theorem starts_cons (rs : List EdgeRecord) {r : EdgeRecord} (hr : r.src < invalidVertexId) :
    starts 0 invalidVertexId (r :: rs) = (r.src, 0) :: starts 1 r.src rs := by
  rw [starts, if_pos (Nat.ne_of_lt hr)]

/-- A file gives back the records that it was given. -/
theorem records_of_isFile {f : OutputFile} (h : IsFile b f acc)
    (hsrc : ∀ r ∈ acc, r.src < invalidVertexId) (hlimit : acc.length * edgeBodySize < offsetLimit) :
    f.records o.propertyLengths = acc.map (slots o.propertyLengths) := by
  unfold OutputFile.records
  rw [h.indexes]
  cases acc with
  | nil => rfl
  | cons r rs =>
    have hlen : (r :: rs).length = 1 + rs.length := by
      rw [List.length_cons]
      omega
    rw [hlen] at hlimit ⊢
    rw [starts_cons rs (hsrc r List.mem_cons_self), List.cons_append,
      readIndexes_starts (Nat.zero_le 1) hlimit]
    have hfirst : f.recordAt o.propertyLengths r.src 0 = some (slots o.propertyLengths r) :=
      recordAt_of_isFile h rfl
    have hrest : (rs.mapIdx fun i r => (f.recordAt o.propertyLengths r.src (1 + i)).toList) =
        rs.map fun r => [slots o.propertyLengths r] := by
      refine List.ext_getElem? fun i => ?_
      rw [List.getElem?_mapIdx, List.getElem?_map]
      cases hi : rs[i]? with
      | none => rfl
      | some r' =>
        have hplace : (r :: rs)[1 + i]? = some r' := by
          rw [Nat.add_comm, List.getElem?_cons_succ, hi]
        rw [Option.map_some, Option.map_some, recordAt_of_isFile h hplace]
        rfl
    rw [hrest, ← List.flatMap_def, ← List.map_eq_flatMap, List.map_cons]
    simp [hfirst]

/-- The file of so many records that the last offset is cut does not give all of them back. -/
theorem records_length_of_isFile {f : OutputFile} (h : IsFile b f acc)
    (hsrc : ∀ r ∈ acc, r.src < invalidVertexId) :
    (f.records o.propertyLengths).length ≤ acc.length ∧
      (offsetLimit ≤ acc.length * edgeBodySize →
        (f.records o.propertyLengths).length < acc.length) := by
  by_cases hlimit : acc.length * edgeBodySize < offsetLimit
  · rw [records_of_isFile h hsrc hlimit, List.length_map]
    exact ⟨Nat.le_refl _, fun hle => absurd hlimit (Nat.not_lt.mpr hle)⟩
  · have hlt : (f.records o.propertyLengths).length < acc.length := by
      unfold OutputFile.records
      rw [h.indexes, List.map_append]
      cases acc with
      | nil => exact absurd (by decide) hlimit
      | cons r rs =>
        have hearly := h.early
        rw [starts_cons rs (hsrc r List.mem_cons_self)] at hearly ⊢
        have hlen : (OutputFile.readIndexes (f.recordAt o.propertyLengths)
            (((r.src, 0) :: starts 1 r.src rs).map toIndex ++
              [⟨invalidVertexId, (r :: rs).length * edgeBodySize % offsetLimit⟩])).length + 0 ≤ _ :=
          readIndexes_length (Nat.zero_le 1) hearly
        have hcut : (r :: rs).length * edgeBodySize % offsetLimit / edgeBodySize <
            (r :: rs).length := by
          have := Nat.mod_lt ((r :: rs).length * edgeBodySize) (by decide : 0 < offsetLimit)
          rw [Nat.div_lt_iff_lt_mul edgeBodySize_pos]
          omega
        have hlast : [(invalidVertexId, (r :: rs).length)].map toIndex =
            [⟨invalidVertexId, (r :: rs).length * edgeBodySize % offsetLimit⟩] := rfl
        rw [hlast]
        rw [List.length_cons] at hcut hlen ⊢
        omega
    exact ⟨Nat.le_of_lt hlt, fun _ => hlt⟩

/-! ## The whole loop -/

/-- One turn of the loop: the record goes to the file, or the file is closed and the record goes to
the next one. -/
theorem writeRecord_cases (b : Buffers o) (h : Holds b w acc) (r : EdgeRecord) :
    (¬ (r.src ≠ lastSrc acc ∧
        o.maxEFileSize ≤ curSize acc.length (starts 0 invalidVertexId acc).length) ∧
      Holds b (writeRecord b w r) (acc ++ [r]) ∧ (writeRecord b w r).files = w.files) ∨
    ((r.src ≠ lastSrc acc ∧
        o.maxEFileSize ≤ curSize acc.length (starts 0 invalidVertexId acc).length) ∧
      Holds b (writeRecord b w r) [r] ∧
      ∃ f, (writeRecord b w r).files = w.files ++ [f] ∧ IsFile b f acc) := by
  have hlen : w.indexes.length = (starts 0 invalidVertexId acc).length := by
    rw [h.indexes, List.length_map]
  by_cases hfull : r.src ≠ w.curSrcVtx ∧ o.maxEFileSize ≤ curSize w.edgeCnt w.indexes.length
  · refine Or.inr ⟨by rwa [h.cur, h.edgeCnt, hlen] at hfull, ?_⟩
    have hwrite : w.write b r = (false, w.writeEnd) := by
      unfold write
      rw [if_pos hfull]
    have hinit : Holds b w.writeEnd.init [] := holds_init h.lengths
    obtain ⟨w', hnext, hholds, hfiles⟩ := holds_write (b := b) (r := r) hinit
      (fun hfull => absurd hfull.2 (Nat.not_le.mpr o.maxEFileSize_gt))
    have hrecord : writeRecord b w r = w' := by
      unfold writeRecord
      rw [hwrite]
      dsimp only
      rw [hnext]
    obtain ⟨f, hf, hisFile⟩ := isFile_writeEnd h
    rw [hrecord]
    exact ⟨hholds, f, hfiles.trans hf, hisFile⟩
  · obtain ⟨w', hnext, hholds, hfiles⟩ := holds_write (b := b) h hfull
    have hrecord : writeRecord b w r = w' := by
      unfold writeRecord
      rw [hnext]
    refine Or.inl ⟨by rwa [h.cur, h.edgeCnt, hlen] at hfull, ?_⟩
    rw [hrecord]
    exact ⟨hholds, hfiles⟩

/-- The loop closes the files before the last one, and leaves the last one open. -/
theorem foldl_writeRecord (b : Buffers o) (h : Holds b w acc) (rs : List EdgeRecord) :
    ∃ closed last fs, cutFrom o.maxEFileSize acc rs = closed ++ (if last = [] then [] else [last]) ∧
      (last = [] → closed = []) ∧ Holds b (rs.foldl (writeRecord b) w) last ∧
      (rs.foldl (writeRecord b) w).files = w.files ++ fs ∧ List.Forall₂ (IsFile b) fs closed := by
  induction rs generalizing w acc with
  | nil => exact ⟨[], acc, [], rfl, fun _ => rfl, h, (List.append_nil _).symm, List.Forall₂.nil⟩
  | cons r rs ih =>
    rw [List.foldl_cons]
    unfold cutFrom
    rcases writeRecord_cases b h r with ⟨hfit, hholds, hfiles⟩ | ⟨hfull, hholds, f, hfiles, hf⟩
    · rw [if_neg hfit, ← hfiles]
      exact ih hholds
    · obtain ⟨closed, last, fs, hcut, hlast, hholds, hfiles', hall⟩ := ih hholds
      rw [if_pos hfull, hcut]
      refine ⟨acc :: closed, last, f :: fs, rfl, ?_, hholds, ?_, List.Forall₂.cons hf hall⟩
      · rintro rfl
        -- The file after a closed one has a record.
        have hflat := cutFrom_flatten o.maxEFileSize [r] rs
        rw [hcut, hlast rfl] at hflat
        cases hflat
      · rw [hfiles', hfiles, List.append_assoc]
        rfl

/-- The last file is not closed when its buffer of bodies is just empty. -/
def lastIsLost (o : Options) (rs : List EdgeRecord) : Prop :=
  ∃ last ∈ (cut o rs).getLast?, last.length % (o.bodyBufferSize - 1) = 0

/-- The finalised files were given the parts into which the records are cut, but for a last part
that is lost. -/
theorem files_writeAll (b : Buffers o) (currentTime : Nat) (rs : List EdgeRecord) :
    (lastIsLost o rs ∧
      List.Forall₂ (IsFile b) (writeAll b currentTime rs).files (cut o rs).dropLast) ∨
    (¬ lastIsLost o rs ∧
      List.Forall₂ (IsFile b) (writeAll b currentTime rs).files (cut o rs)) := by
  have hinit : Holds b (fresh o currentTime).init [] := by
    refine holds_init ?_
    simp [fresh, Function.comp_def, Column.empty]
  obtain ⟨closed, last, fs, hcut, hlast, hholds, hfiles, hall⟩ := foldl_writeRecord b hinit rs
  have hfiles : (rs.foldl (writeRecord b) (fresh o currentTime).init).files = fs := hfiles
  have hcut : cut o rs = closed ++ (if last = [] then [] else [last]) := hcut
  have hclear : (rs.foldl (writeRecord b) (fresh o currentTime).init).isClear = true ↔
      last.length % (o.bodyBufferSize - 1) = 0 := by
    rw [isClear, List.isEmpty_iff_length_eq_zero, hholds.buffered]
  unfold writeAll lastIsLost
  dsimp only
  by_cases hnil : last = []
  · rw [if_pos (hclear.mpr (by simp [hnil])), hfiles, hcut, hlast hnil, if_pos hnil]
    rw [hlast hnil] at hall
    exact Or.inr ⟨by simp, hall⟩
  · rw [hcut, if_neg hnil, List.getLast?_concat, List.dropLast_concat]
    by_cases hlost : last.length % (o.bodyBufferSize - 1) = 0
    · rw [if_pos (hclear.mpr hlost), hfiles]
      exact Or.inl ⟨⟨last, rfl, hlost⟩, hall⟩
    · rw [if_neg (fun h => hlost (hclear.mp h))]
      obtain ⟨f, hf, hisFile⟩ := isFile_writeEnd hholds
      rw [hf, hfiles]
      refine Or.inr ⟨?_, List.rel_append hall (List.Forall₂.cons hisFile List.Forall₂.nil)⟩
      rintro ⟨last', hlast', hmod⟩
      cases hlast'
      exact hlost hmod

/-! ## What the files hold together -/

section Together

variable {fs : List OutputFile} {parts : List (List EdgeRecord)}

theorem records_of_forall₂ (h : List.Forall₂ (IsFile b) fs parts)
    (hsrc : ∀ r ∈ parts.flatten, r.src < invalidVertexId)
    (hlimit : ∀ part ∈ parts, part.length * edgeBodySize < offsetLimit) :
    fs.flatMap (OutputFile.records o.propertyLengths) =
      parts.flatten.map (slots o.propertyLengths) := by
  induction h with
  | nil => rfl
  | cons hf _ ih =>
    rw [List.flatten_cons, List.forall_mem_append] at hsrc
    rw [List.forall_mem_cons] at hlimit
    rw [List.flatMap_cons, List.flatten_cons, List.map_append,
      records_of_isFile hf hsrc.1 hlimit.1, ih hsrc.2 hlimit.2]

/-- No file gives back more than it was given, and one whose last offset is cut gives less. -/
theorem records_length_of_forall₂ (h : List.Forall₂ (IsFile b) fs parts)
    (hsrc : ∀ r ∈ parts.flatten, r.src < invalidVertexId) :
    (fs.flatMap (OutputFile.records o.propertyLengths)).length ≤ parts.flatten.length ∧
      ((∃ part ∈ parts, offsetLimit ≤ part.length * edgeBodySize) →
        (fs.flatMap (OutputFile.records o.propertyLengths)).length < parts.flatten.length) := by
  induction h with
  | nil => exact ⟨Nat.le_refl _, fun ⟨_, hpart, _⟩ => nomatch hpart⟩
  | cons hf _ ih =>
    rw [List.flatten_cons, List.forall_mem_append] at hsrc
    obtain ⟨hle, hlt⟩ := records_length_of_isFile hf hsrc.1
    obtain ⟨hle', hlt'⟩ := ih hsrc.2
    rw [List.flatMap_cons, List.flatten_cons, List.length_append, List.length_append]
    refine ⟨Nat.add_le_add hle hle', ?_⟩
    rintro ⟨part, hpart, hlimit⟩
    rcases List.mem_cons.mp hpart with rfl | hpart
    · exact Nat.add_lt_add_of_lt_of_le (hlt hlimit) hle'
    · exact Nat.add_lt_add_of_le_of_lt hle (hlt' ⟨part, hpart, hlimit⟩)

end Together

theorem cut_flatten (o : Options) (rs : List EdgeRecord) : (cut o rs).flatten = rs :=
  cutFrom_flatten o.maxEFileSize [] rs

/-- No part is empty. -/
theorem cutFrom_ne_nil (maxEFileSize : Nat) (hmax : 68 < maxEFileSize) (acc rs : List EdgeRecord) :
    ∀ part ∈ cutFrom maxEFileSize acc rs, part ≠ [] := by
  induction rs generalizing acc with
  | nil =>
    unfold cutFrom
    split
    · exact fun part hpart => nomatch hpart
    · rename_i h
      intro part hpart
      rwa [List.mem_singleton.mp hpart]
  | cons r rs ih =>
    unfold cutFrom
    split
    · rename_i hfull
      intro part hpart
      rcases List.mem_cons.mp hpart with rfl | hpart
      · -- An empty file is not full.
        rintro rfl
        exact absurd hfull.2 (Nat.not_le.mpr hmax)
      · exact ih [r] part hpart
    · exact ih (acc ++ [r])

/-- When the last part is lost, there are fewer records in the files. -/
theorem dropLast_length_lt {rs : List EdgeRecord} (h : lastIsLost o rs) :
    (cut o rs).dropLast.flatten.length < rs.length := by
  obtain ⟨last, hlast, -⟩ := h
  have hcut := List.dropLast_append_getLast? last hlast
  have hne : last ≠ [] :=
    cutFrom_ne_nil o.maxEFileSize o.maxEFileSize_gt [] rs last (List.mem_of_getLast? hlast)
  have hlen := congrArg (fun parts => parts.flatten.length) hcut
  rw [cut_flatten, List.flatten_append, List.length_append, List.flatten_singleton] at hlen
  have := List.length_pos_of_ne_nil hne
  omega

/-- Every part can have its offsets, and the last part leaves something in the buffer of bodies. -/
def Written (o : Options) (rs : List EdgeRecord) : Prop :=
  (∀ part ∈ cut o rs, part.length * edgeBodySize < offsetLimit) ∧ ¬ lastIsLost o rs

/-- The files give back the records that were written, or fewer. -/
theorem records_writeAll (b : Buffers o) (currentTime : Nat) {rs : List EdgeRecord}
    (hsrc : ∀ r ∈ rs, r.src < invalidVertexId) :
    (Written o rs ∧ (writeAll b currentTime rs).files.flatMap
        (OutputFile.records o.propertyLengths) = rs.map (slots o.propertyLengths)) ∨
    (¬ Written o rs ∧ ((writeAll b currentTime rs).files.flatMap
        (OutputFile.records o.propertyLengths)).length < rs.length) := by
  rcases files_writeAll b currentTime rs with ⟨hlost, hfiles⟩ | ⟨hkept, hfiles⟩
  · refine Or.inr ⟨fun h => h.2 hlost, ?_⟩
    have hlt := dropLast_length_lt hlost
    refine Nat.lt_of_le_of_lt (records_length_of_forall₂ hfiles fun r hr => hsrc r ?_).1 hlt
    rw [← cut_flatten o rs]
    exact (List.Sublist.flatten (List.dropLast_sublist _)).subset hr
  · have hsrc : ∀ r ∈ (cut o rs).flatten, r.src < invalidVertexId := by rwa [cut_flatten]
    by_cases hlimit : ∀ part ∈ cut o rs, part.length * edgeBodySize < offsetLimit
    · have hrecords := records_of_forall₂ hfiles hsrc hlimit
      rw [cut_flatten] at hrecords
      exact Or.inl ⟨⟨hlimit, hkept⟩, hrecords⟩
    · have hlt := (records_length_of_forall₂ hfiles hsrc).2 (by simpa using hlimit)
      rw [cut_flatten] at hlt
      exact Or.inr ⟨fun h => hlimit h.1, hlt⟩

/-- The files have the records of a merge in their order, each with its slots, just when every file
can have its offsets and the number of records in the last file is not a multiple of what the buffer
of bodies takes. -/
theorem the_files_have_the_merged_records_iff (b : Buffers o) (currentTime : Nat) (j : Job) :
    (writeAll b currentTime j.rest).files.flatMap (OutputFile.records o.propertyLengths) =
        j.rest.map (slots o.propertyLengths) ↔
      (∀ part ∈ cut o j.rest, part.length * edgeBodySize < offsetLimit) ∧
        ∀ last ∈ (cut o j.rest).getLast?, last.length % (o.bodyBufferSize - 1) ≠ 0 := by
  have hiff : Written o j.rest ↔ (∀ part ∈ cut o j.rest, part.length * edgeBodySize < offsetLimit) ∧
      ∀ last ∈ (cut o j.rest).getLast?, last.length % (o.bodyBufferSize - 1) ≠ 0 := by
    unfold Written lastIsLost
    simp only [not_exists, not_and, ne_eq]
  rw [← hiff]
  rcases records_writeAll b currentTime j.src_lt with ⟨hwritten, heq⟩ | ⟨hlost, hlt⟩
  · exact iff_of_true heq hwritten
  · refine iff_of_false (fun heq => ?_) hlost
    rw [heq, List.length_map] at hlt
    exact Nat.lt_irrefl _ hlt

theorem cutFrom_one_source {maxEFileSize src : Nat} (acc : List EdgeRecord) {rs : List EdgeRecord}
    (hacc : lastSrc acc = src) (hne : acc ≠ []) (hrs : ∀ r ∈ rs, r.src = src) :
    cutFrom maxEFileSize acc rs = [acc ++ rs] := by
  induction rs generalizing acc with
  | nil => rw [cutFrom, if_neg hne, List.append_nil]
  | cons r rs ih =>
    obtain ⟨hr, hrs⟩ := List.forall_mem_cons.mp hrs
    rw [cutFrom, if_neg fun h => h.1 (hr.trans hacc.symm),
      ih _ ((lastSrc_concat acc r).trans hr) (by simp) hrs, List.append_assoc]
    rfl

theorem cut_one_source (src : Nat) {rs : List EdgeRecord} (hne : rs ≠ [])
    (hrs : ∀ r ∈ rs, r.src = src) : cut o rs = [rs] := by
  obtain ⟨r, rs, rfl⟩ := List.exists_cons_of_ne_nil hne
  obtain ⟨hr, hrs⟩ := List.forall_mem_cons.mp hrs
  have hroom : ¬ o.maxEFileSize ≤ curSize 0 0 := Nat.not_le.mpr o.maxEFileSize_gt
  rw [cut, cutFrom, if_neg fun h => hroom h.2]
  exact cutFrom_one_source [r] hr (by simp) hrs

theorem sixteen_le_invalidVertexId : 16 ≤ invalidVertexId := by decide

theorem room_of_64_megabytes : 68 < 64 * 2 ^ 20 := by decide

/-- The sizes of the source, and one column. -/
def sourceSizes : Options :=
  { reserveNode := 2, maxEdgeNum := 1, maxEdgeNum_pos := Nat.one_pos, propertyLengths := [4],
    vertexNum := 16, vertexNum_le := sixteen_le_invalidVertexId, maxEFileSize := 64 * 2 ^ 20
    maxEFileSize_gt := room_of_64_megabytes
    bodyBufferSize := 4 * 2 ^ 20 / edgeBodySize, levelMaxSize := fun _ => 1 }

def sourceBuffers : Buffers sourceSizes :=
  { propertyBufferSize := 4 * 2 ^ 20, propertyLengths_lt := by decide
    bodyBufferSize_ge := by decide, maxEFileSize_le := by decide }

def edgeTo (dst seq : Nat) : EdgeRecord :=
  { src := 1, dst, seq, props := [bytes "p"], marker := false, isOut := true, edgeType := 0 }

/-- After as many records as the buffer of bodies takes it is empty, and the file is not closed. -/
theorem the_last_file_of_a_full_buffer_is_lost :
    (writeAll sourceBuffers 7 ((List.range 262143).map fun i => edgeTo i 1)).files = [] := by
  have hcut : cut sourceSizes ((List.range 262143).map fun i => edgeTo i 1) =
      [(List.range 262143).map fun i => edgeTo i 1] := by
    refine cut_one_source 1 (by simp) fun r hr => ?_
    obtain ⟨i, -, rfl⟩ := List.mem_map.mp hr
    rfl
  have hlost : lastIsLost sourceSizes ((List.range 262143).map fun i => edgeTo i 1) := by
    refine ⟨(List.range 262143).map fun i => edgeTo i 1, by rw [hcut]; rfl, ?_⟩
    rw [List.length_map, List.length_range]
    rfl
  rcases files_writeAll sourceBuffers 7 ((List.range 262143).map fun i => edgeTo i 1) with
    ⟨-, hfiles⟩ | ⟨hkept, -⟩
  · rw [hcut] at hfiles
    exact List.forall₂_nil_right_iff.mp hfiles
  · exact absurd hlost hkept

/-! ## The parts are the output files of a job -/

/-- The part that is being filled goes on as the output file of a job does. -/
theorem cutFrom_takeFile (o : Options) (acc : List EdgeRecord) {rs : List EdgeRecord}
    (hsrc : ∀ r ∈ rs, r.src < invalidVertexId) :
    let out := takeFile o.maxEFileSize acc.length (starts 0 invalidVertexId acc).length
      (acc.getLast?.map EdgeRecord.src) rs
    cutFrom o.maxEFileSize acc rs =
      (if acc ++ out.1 = [] then [] else [acc ++ out.1]) ++ cut o out.2 := by
  induction rs generalizing acc with
  | nil => simp [takeFile, cutFrom, cut]
  | cons r rs ih =>
    obtain ⟨hr, hrs⟩ := List.forall_mem_cons.mp hsrc
    have hroom : ¬ o.maxEFileSize ≤ curSize 0 0 := Nat.not_le.mpr o.maxEFileSize_gt
    have hcur : acc.getLast?.map EdgeRecord.src = some r.src ↔ r.src = lastSrc acc := by
      unfold lastSrc
      cases acc.getLast?.map EdgeRecord.src with
      | none => simpa using Nat.ne_of_lt hr
      | some v => simp [eq_comm]
    simp only [takeFile, cutFrom, ne_eq, hcur]
    by_cases hfull : ¬ r.src = lastSrc acc ∧
        o.maxEFileSize ≤ curSize acc.length (starts 0 invalidVertexId acc).length
    · -- The next file begins with the record, as an empty file takes it.
      have hne : acc ≠ [] := by
        rintro rfl
        exact hroom hfull.2
      rw [if_pos hfull, if_pos hfull, List.append_nil, if_neg hne, cut, cutFrom,
        if_neg fun h => hroom h.2]
      rfl
    · have hnext := ih (acc ++ [r]) hrs
      rw [List.length_append, List.getLast?_concat, starts_concat, List.length_append] at hnext
      rw [if_neg hfull, if_neg hfull, hnext]
      by_cases hsame : r.src = lastSrc acc <;> simp [hsame]

/-- The parts are the next output file and the parts of what is left after it. -/
theorem cut_takeFile {rs : List EdgeRecord} (h : rs ≠ [])
    (hsrc : ∀ r ∈ rs, r.src < invalidVertexId) :
    cut o rs = (takeFile o.maxEFileSize 0 0 none rs).1 ::
      cut o (takeFile o.maxEFileSize 0 0 none rs).2 := by
  have hcut := cutFrom_takeFile o [] hsrc
  dsimp only at hcut
  rw [List.nil_append] at hcut
  exact hcut.trans (congrArg (· ++ _) (if_neg (takeFile_ne_nil h)))

theorem cut_eq_nil_iff {rs : List EdgeRecord} : cut o rs = [] ↔ rs = [] := by
  constructor
  · intro h
    rw [← cut_flatten o rs, h]
    rfl
  · rintro rfl
    rfl

theorem lastIsLost_takeFile {rs : List EdgeRecord} (h : rs ≠ [])
    (hsrc : ∀ r ∈ rs, r.src < invalidVertexId) :
    lastIsLost o rs ↔ ((takeFile o.maxEFileSize 0 0 none rs).2 = [] ∧
        (takeFile o.maxEFileSize 0 0 none rs).1.length % (o.bodyBufferSize - 1) = 0) ∨
      lastIsLost o (takeFile o.maxEFileSize 0 0 none rs).2 := by
  unfold lastIsLost
  rw [cut_takeFile h hsrc, ← cut_eq_nil_iff (o := o)]
  cases cut o (takeFile o.maxEFileSize 0 0 none rs).2 with
  | nil => simp
  | cons part parts => simp [List.getLast?_cons_cons]

/-- The last part is lost just when the last output file of a job is. -/
theorem lastIsLost_job (j : Job) (h : j.rest ≠ []) :
    lastIsLost o j.rest ↔ j.lost o = true ∨ lastIsLost o (j.output o).2 := by
  rw [lastIsLost_takeFile h j.src_lt]
  simp [Job.lost, Job.output]

end SSTableWriter

end RichGraph
