-- What the recovery of the manifest reads back: every record that an append
-- wrote, up to the size that the recovery accepts, and nothing of a record that
-- is not there in full. So a log of records gives the edits in their order.
import RichGraph.PropertyDeltaManifest

namespace RichGraph.Manifest

open Lib

/-! ## Payloads -/

theorem drop_skip {pre post : Bytes} {n : Nat} (h : pre.length ≤ n) :
    (pre ++ post).drop n = post.drop (n - pre.length) := by
  rw [List.drop_append, List.drop_eq_nil_of_le h, List.nil_append]

theorem field_skip {pre post : Bytes} {offset width : Nat} (h : pre.length ≤ offset) :
    field (pre ++ post) offset width = field post (offset - pre.length) width := by
  unfold field
  rw [drop_skip h]

theorem field_cons (b : UInt8) (bs : Bytes) (offset width : Nat) :
    field (b :: bs) (offset + 1) width = field bs offset width := rfl

theorem field_here {post : Bytes} {width n : Nat} (h : n < 256 ^ width) :
    field (toLe width n ++ post) 0 width = n := by
  unfold field
  rw [List.drop_zero, List.take_left' (length_toLe _ _), ofLe_toLe h]

theorem length_encodeAdd (entry : PropertyDeltaManifestEntry) :
    (encodeAdd entry).length = addPayloadBytes + entry.fileName.length := by
  simp [encodeAdd, addPayloadBytes]
  omega

theorem kindOf_kindByte (kind : PropertyObjectKind) : kindOf (kindByte kind) = some kind := by
  cases kind <;> rfl

/-- `DecodeAdd` reads back what `EncodeAdd` wrote. -/
theorem decodeAdd_encodeAdd {entry : PropertyDeltaManifestEntry}
    (hvalid : ValidFileName entry.fileName) (hlen : entry.fileName.length < 256 ^ 4) :
    decodeAdd (encodeAdd entry) = some entry := by
  have hname : (encodeAdd entry).drop addPayloadBytes = entry.fileName := by
    simp [encodeAdd, drop_skip, addPayloadBytes]
  have hkind : kindOf ((encodeAdd entry).getD 0 0) = some entry.metadata.target.kind := by
    simp [encodeAdd, kindOf_kindByte]
  have hflag : (encodeAdd entry).getD 1 0 = if entry.targetIsPersistent then 1 else 0 := by
    simp [encodeAdd]
  have hsize : field (encodeAdd entry) 72 4 = entry.fileName.length := by
    simp [encodeAdd, field_cons, field_skip, field_here hlen]
  have hle : ¬ (encodeAdd entry).length < addPayloadBytes := by
    rw [length_encodeAdd]
    omega
  have hrest : (encodeAdd entry).length - addPayloadBytes = entry.fileName.length := by
    rw [length_encodeAdd]
    omega
  have hflag_le : ¬ (if entry.targetIsPersistent then (1 : UInt8) else 0) > 1 := by
    split <;> decide
  have hflag_ne : ((if entry.targetIsPersistent then (1 : UInt8) else 0) != 0) =
      entry.targetIsPersistent := by
    cases entry.targetIsPersistent <;> rfl
  unfold decodeAdd
  simp only [if_neg hle, hkind, hname, hflag, hsize, hrest, hflag_le, hvalid, not_true_eq_false,
    ne_eq, or_self, if_false, hflag_ne]
  obtain ⟨name, ⟨⟨kind, shard, file, base, property⟩, generation, count, bytes, min, max, sum,
    htarget, ⟨hgeneration, hcount, hbytes, hmin, hmax, hsum⟩⟩, persistent⟩ := entry
  obtain ⟨hshard, hproperty, hfile, hbase⟩ :
    shard < 256 ^ 4 ∧ property < 256 ^ 4 ∧ file < 256 ^ 4 ∧ base < 256 ^ 8 := htarget
  -- Every number stands where `DecodeAdd` looks for it.
  simp [encodeAdd, field_cons, field_skip, field_here hshard, field_here hproperty,
    field_here hfile, field_here hbase, field_here hgeneration, field_here hcount,
    field_here hbytes, field_here hmin, field_here hmax, field_here hsum]

/-- The loop over the names takes one name after the other. -/
theorem decodeNames_encodeName {names : List Bytes}
    (h : ∀ name ∈ names, ValidFileName name ∧ name.length < 256 ^ 4) :
    decodeNames names.length (names.flatMap encodeName) = some names := by
  induction names with
  | nil => rfl
  | cons name names ih =>
    obtain ⟨hvalid, hlen⟩ := h name List.mem_cons_self
    have hdrop : ((name :: names).flatMap encodeName).drop 4 =
        name ++ names.flatMap encodeName := by
      simp [encodeName]
    have hfield : field ((name :: names).flatMap encodeName) 0 4 = name.length := by
      simp [encodeName, field_here hlen]
    have hge : ¬ (((name :: names).flatMap encodeName).length < 4 ∨
        (((name :: names).flatMap encodeName).drop 4).length <
          field ((name :: names).flatMap encodeName) 0 4) := by
      rw [hdrop, hfield]
      simp [encodeName]
    rw [List.length_cons]
    unfold decodeNames
    rw [if_neg hge]
    simp only [hdrop, hfield, List.take_left, List.drop_left, if_pos hvalid]
    rw [ih fun n hn => h n (List.mem_cons_of_mem _ hn)]
    rfl

theorem decodeRemove_encodeRemove {names : List Bytes} (hcount : names.length < 256 ^ 4)
    (h : ∀ name ∈ names, ValidFileName name ∧ name.length < 256 ^ 4) :
    decodeRemove (encodeRemove names) = some names := by
  have hlen : ¬ (encodeRemove names).length < 4 := by simp [encodeRemove]
  have hfield : field (encodeRemove names) 0 4 = names.length := by
    simp [encodeRemove, field_here hcount]
  have hdrop : (encodeRemove names).drop 4 = names.flatMap encodeName := by
    simp [encodeRemove]
  unfold decodeRemove
  rw [if_neg hlen, hfield, hdrop]
  exact decodeNames_encodeName h

theorem toLe_field {bs : Bytes} {offset width : Nat} (h : offset + width ≤ bs.length) :
    toLe width (field bs offset width) = (bs.drop offset).take width := by
  have hlen : ((bs.drop offset).take width).length = width := by
    rw [List.length_take, List.length_drop]
    omega
  have hback := toLe_ofLe ((bs.drop offset).take width)
  rwa [hlen] at hback

/-- The loop leaves nothing over, so its bytes are those of the names that it has taken. -/
theorem encodeName_of_decodeNames {count : Nat} {rest : Bytes} {names : List Bytes}
    (h : decodeNames count rest = some names) :
    names.length = count ∧ rest = names.flatMap encodeName := by
  induction count generalizing rest names with
  | zero =>
    unfold decodeNames at h
    split at h
    · rename_i hnil
      cases h
      exact ⟨rfl, hnil⟩
    · cases h
  | succ count ih =>
    simp only [decodeNames] at h
    split at h
    · cases h
    rename_i hlong
    rw [not_or] at hlong
    split at h
    · obtain ⟨others, hothers, rfl⟩ := Option.map_eq_some_iff.mp h
      obtain ⟨hcount, hrest⟩ := ih hothers
      have hlen : ((rest.drop 4).take (field rest 0 4)).length = field rest 0 4 := by
        rw [List.length_take]
        omega
      refine ⟨by rw [List.length_cons, hcount], ?_⟩
      rw [List.flatMap_cons, ← hrest, encodeName, hlen, toLe_field (by omega), List.drop_zero,
        List.append_assoc, List.take_append_drop, List.take_append_drop]
    · cases h

/-- `DecodeRemove` takes nothing but an encoding. -/
theorem encodeRemove_of_decodeRemove {payload : Bytes} {names : List Bytes}
    (h : decodeRemove payload = some names) : payload = encodeRemove names := by
  unfold decodeRemove at h
  split at h
  · cases h
  rename_i hlong
  obtain ⟨hcount, hrest⟩ := encodeName_of_decodeNames h
  rw [encodeRemove, hcount, ← hrest, toLe_field (by omega), List.drop_zero, List.take_append_drop]

/-- What the append functions check before they write. -/
def Edit.Accepted : Edit → Prop
  | .add entry => ValidFileName entry.fileName
  | .remove fileNames => fileNames.length ≤ maxUInt32 ∧
      ∀ name ∈ fileNames, ValidFileName name ∧ name.length ≤ maxUInt32

instance (e : Edit) : Decidable e.Accepted := by
  cases e <;> unfold Edit.Accepted <;> infer_instance

@[simp] theorem makeHeader_type (sequence : Nat) (type : UInt8) (payload : Bytes) :
    (makeHeader sequence type payload).type = type := rfl

@[simp] theorem makeHeader_payloadBytes (sequence : Nat) (type : UInt8) (payload : Bytes) :
    (makeHeader sequence type payload).payloadBytes = payload.length := rfl

@[simp] theorem makeHeader_editSequence (sequence : Nat) (type : UInt8) (payload : Bytes) :
    (makeHeader sequence type payload).editSequence = sequence := rfl

/-- A payload with a length of four bytes is read back as the edit that it was made from. -/
theorem readPayload_makeHeader {e : Edit} {lastSequence sequence : Nat} (hacc : e.Accepted)
    (hlen : e.payload.length ≤ maxUInt32) (hseq : lastSequence < sequence) :
    readPayload lastSequence (makeHeader sequence e.type e.payload) e.payload =
      .record (headerBytes + e.payload.length) sequence e := by
  have hmax : maxUInt32 < 256 ^ 4 := by decide
  unfold readPayload
  rw [if_neg (by simpa using hseq)]
  cases e with
  | add entry =>
    have hname : entry.fileName.length < 256 ^ 4 := by
      have := length_encodeAdd entry
      simp only [Edit.payload] at hlen
      omega
    simp only [Edit.payload, Edit.type, makeHeader_type, if_true, decodeAdd_encodeAdd hacc hname,
      makeHeader_payloadBytes, makeHeader_editSequence]
  | remove names =>
    have hnames : ∀ name ∈ names, ValidFileName name ∧ name.length < 256 ^ 4 := by
      intro name hname
      obtain ⟨hvalid, hle⟩ := hacc.2 name hname
      exact ⟨hvalid, Nat.lt_of_le_of_lt hle hmax⟩
    have htype : ¬ kRemoveRecord = kAddRecord := by decide
    simp only [Edit.payload, Edit.type, makeHeader_type, if_neg htype,
      decodeRemove_encodeRemove (Nat.lt_of_le_of_lt hacc.1 hmax) hnames, makeHeader_payloadBytes,
      makeHeader_editSequence]

/-! ## One record -/

/-- The fields fit their places in the header. -/
structure Header.InRange (h : Header) : Prop where
  magic : h.magic.length = 8
  reserved : h.reserved.length = 3
  version : h.version < 256 ^ 4
  payloadBytes : h.payloadBytes < 256 ^ 4
  editSequence : h.editSequence < 256 ^ 8
  checksum : h.checksum < 256 ^ 8

theorem Header.InRange.length_bytes {h : Header} (hr : h.InRange) :
    h.bytes.length = headerBytes := by
  simp [Header.bytes, hr.magic, hr.reserved, headerBytes]

theorem readHeader_bytes {h : Header} (hr : h.InRange) (body : Bytes) :
    readHeader (h.bytes ++ body) = h := by
  obtain ⟨magic, version, type, reserved, payloadBytes, editSequence, checksum⟩ := h
  obtain ⟨hmagic, hreserved, hversion, hpayload, hedit, hsum⟩ := hr
  dsimp only at hmagic hreserved hversion hpayload hedit hsum
  simp [readHeader, Header.bytes, List.take_left' hmagic, field_skip, field_cons, hmagic,
    hreserved, field_here hversion, field_here hpayload, field_here hedit, field_here hsum,
    List.getElem?_append_right, drop_skip]

/-- What a turn of the loop does, by the header in front. -/
theorem readRecord_bytes {h : Header} (hr : h.InRange) (offset lastSequence : Nat) (body : Bytes) :
    readRecord offset lastSequence (h.bytes ++ body) =
      if ¬ h.Valid then .invalid (.header offset)
      else if body.length < h.payloadBytes then .torn
      else if recordChecksum h (body.take h.payloadBytes) ≠ h.checksum then
        if body.length = h.payloadBytes then .torn else .invalid (.checksum offset)
      else readPayload lastSequence h (body.take h.payloadBytes) := by
  have hlen : (h.bytes ++ body).length = headerBytes + body.length := by
    rw [List.length_append, hr.length_bytes]
  unfold readRecord
  rw [if_neg (by omega), readHeader_bytes hr, List.drop_left' hr.length_bytes, hlen]
  simp only [Nat.add_lt_add_iff_left, Nat.add_left_cancel_iff]

def Edit.record (sequence : Nat) (e : Edit) : Bytes := recordOf sequence e.type e.payload

section

variable {e : Edit} {offset lastSequence sequence : Nat}

theorem inRange_makeHeader (hseq : sequence < 256 ^ 8) (hlen : e.payload.length ≤ maxUInt32) :
    (makeHeader sequence e.type e.payload).InRange where
  magic := rfl
  reserved := rfl
  version := by simp [makeHeader, version]
  payloadBytes := Nat.lt_of_le_of_lt hlen (by decide)
  editSequence := hseq
  checksum := UInt64.toNat_lt _

theorem valid_makeHeader :
    (makeHeader sequence e.type e.payload).Valid ↔ e.payload.length ≤ maxPayloadBytes := by
  have htype : e.type = kAddRecord ∨ e.type = kRemoveRecord := by
    cases e
    · exact Or.inl rfl
    · exact Or.inr rfl
  constructor
  · exact fun h => h.2.2.2
  · exact fun h => ⟨rfl, rfl, htype, h⟩

/-- The checksum leaves itself out. -/
theorem recordChecksum_makeHeader (sequence : Nat) (type : UInt8) (payload : Bytes) :
    recordChecksum (makeHeader sequence type payload) payload =
      (makeHeader sequence type payload).checksum := rfl

theorem length_record (hseq : sequence < 256 ^ 8) (hlen : e.payload.length ≤ maxUInt32) :
    (e.record sequence).length = headerBytes + e.payload.length := by
  unfold Edit.record recordOf
  rw [List.length_append, (inRange_makeHeader hseq hlen).length_bytes]

theorem maxPayloadBytes_le : maxPayloadBytes ≤ maxUInt32 := by decide

/-- The append functions take the edit, and the recovery takes a payload of this size. -/
def Edit.Readable (e : Edit) : Prop := e.Accepted ∧ e.payload.length ≤ maxPayloadBytes

instance (e : Edit) : Decidable e.Readable := inferInstanceAs (Decidable (_ ∧ _))

theorem Edit.Readable.le (h : e.Readable) : e.payload.length ≤ maxUInt32 :=
  Nat.le_trans h.2 maxPayloadBytes_le

/-- A whole record is read back, whatever follows. -/
theorem readRecord_record (h : e.Readable) (hlast : lastSequence < sequence)
    (hseq : sequence < 256 ^ 8) (tail : Bytes) :
    readRecord offset lastSequence (e.record sequence ++ tail) =
      .record (headerBytes + e.payload.length) sequence e := by
  have htake : (e.payload ++ tail).take (makeHeader sequence e.type e.payload).payloadBytes =
      e.payload := List.take_left
  unfold Edit.record recordOf
  rw [List.append_assoc, readRecord_bytes (inRange_makeHeader hseq h.le), htake,
    if_neg (not_not.mpr (valid_makeHeader.mpr h.2)), if_neg (by simp),
    if_neg (not_not.mpr (recordChecksum_makeHeader _ _ _)),
    readPayload_makeHeader h.1 h.le hlast]

/-- Of a record that is not there in full nothing is read. -/
theorem readRecord_take (h : e.payload.length ≤ maxPayloadBytes) (hseq : sequence < 256 ^ 8)
    {n : Nat}
    (hn : n < (e.record sequence).length) :
    readRecord offset lastSequence ((e.record sequence).take n) = .torn := by
  have hr := inRange_makeHeader hseq (Nat.le_trans h maxPayloadBytes_le)
  rw [length_record hseq (Nat.le_trans h maxPayloadBytes_le)] at hn
  by_cases hshort : n < headerBytes
  · unfold readRecord
    rw [if_pos]
    simp only [List.length_take]
    omega
  · -- The header is whole, and says that more bytes should follow.
    have hsplit : (e.record sequence).take n =
        (makeHeader sequence e.type e.payload).bytes ++ e.payload.take (n - headerBytes) := by
      unfold Edit.record recordOf
      rw [List.take_append, hr.length_bytes, List.take_of_length_le]
      rw [hr.length_bytes]
      omega
    rw [hsplit, readRecord_bytes hr, if_neg (not_not.mpr (valid_makeHeader.mpr h)), if_pos]
    simp only [List.length_take, makeHeader_payloadBytes]
    omega

/-- A payload that is too large for the recovery makes the header invalid. -/
theorem readRecord_of_too_large (hlarge : maxPayloadBytes < e.payload.length)
    (hlen : e.payload.length ≤ maxUInt32) (hseq : sequence < 256 ^ 8) (tail : Bytes) :
    readRecord offset lastSequence (e.record sequence ++ tail) = .invalid (.header offset) := by
  unfold Edit.record recordOf
  rw [List.append_assoc, readRecord_bytes (inRange_makeHeader hseq hlen), if_pos]
  rw [valid_makeHeader]
  omega

end

/-! ## The log -/

/-- The records of the edits, numbered from `sequence` on. -/
def logOf : Nat → List Edit → Bytes
  | _, [] => []
  | sequence, e :: es => e.record sequence ++ logOf (sequence + 1) es

def applyAll (active : List PropertyDeltaManifestEntry) (es : List Edit) :
    List PropertyDeltaManifestEntry := es.foldl Edit.apply active

theorem logOf_append (sequence : Nat) (es es' : List Edit) :
    logOf sequence (es ++ es') = logOf sequence es ++ logOf (sequence + es.length) es' := by
  induction es generalizing sequence with
  | nil => rfl
  | cons e es ih =>
    simp only [List.cons_append, logOf, ih, List.append_assoc, List.length_cons]
    rw [show sequence + 1 + es.length = sequence + (es.length + 1) by omega]

/-- A record has at least the bytes of its header. -/
theorem headerBytes_le_length_record (e : Edit) (sequence : Nat) :
    headerBytes ≤ (e.record sequence).length := by
  simp [Edit.record, recordOf, Header.bytes, makeHeader, magic, headerBytes]
  omega

theorem length_le_logOf (sequence : Nat) (es : List Edit) :
    headerBytes * es.length ≤ (logOf sequence es).length := by
  induction es generalizing sequence with
  | nil => simp
  | cons e es ih =>
    have hrecord := headerBytes_le_length_record e sequence
    have htail := ih (sequence + 1)
    simp only [logOf, List.length_append, List.length_cons, Nat.mul_succ]
    omega

/-- The loop over a log, and what it does with the bytes after it. -/
theorem recoverLoop_logOf {es : List Edit} {r : Recovered} (turns : Nat) (tail : Bytes)
    (hread : ∀ e ∈ es, e.Readable) (hseq : r.lastSequence + es.length < 256 ^ 8)
    (hturns : es.length ≤ turns) :
    recoverLoop turns (logOf (r.lastSequence + 1) es ++ tail) r =
      recoverLoop (turns - es.length) tail
        ⟨r.lastSequence + es.length, applyAll r.activeEntries es,
          r.validEnd + (logOf (r.lastSequence + 1) es).length⟩ := by
  induction es generalizing r turns with
  | nil => rfl
  | cons e es ih =>
    obtain ⟨turns, rfl⟩ : ∃ t, turns = t + 1 := ⟨turns - 1, by simp at hturns; omega⟩
    simp only [List.length_cons] at hseq hturns
    have he := hread e List.mem_cons_self
    have hlen : (e.record (r.lastSequence + 1)).length = headerBytes + e.payload.length :=
      length_record (by omega) he.le
    have hne : e.record (r.lastSequence + 1) ++ logOf (r.lastSequence + 1 + 1) es ++ tail ≠ [] := by
      intro hnil
      have := congrArg List.length hnil
      simp only [List.length_append, hlen, headerBytes, List.length_nil] at this
      omega
    have hrecord : readRecord r.validEnd r.lastSequence
        (e.record (r.lastSequence + 1) ++ logOf (r.lastSequence + 1 + 1) es ++ tail) =
          .record (headerBytes + e.payload.length) (r.lastSequence + 1) e := by
      rw [List.append_assoc]
      exact readRecord_record he (Nat.lt_succ_self _) (by omega) _
    have hdrop : (e.record (r.lastSequence + 1) ++ logOf (r.lastSequence + 1 + 1) es ++ tail).drop
        (headerBytes + e.payload.length) = logOf (r.lastSequence + 1 + 1) es ++ tail := by
      rw [List.append_assoc, List.drop_left' hlen]
    simp only [logOf, recoverLoop, if_neg hne, hrecord, hdrop]
    have hrest := ih (r := ⟨r.lastSequence + 1, e.apply r.activeEntries,
      r.validEnd + (headerBytes + e.payload.length)⟩) turns
      (fun x hx => hread x (List.mem_cons_of_mem _ hx)) (by dsimp only; omega) (by omega)
    rw [hrest]
    simp only [applyAll, List.foldl_cons, List.length_append, hlen, List.length_cons,
      Nat.add_assoc, Nat.add_comm 1, Nat.add_sub_add_right]

/-- The state of a manifest whose file is a log. -/
def ofEdits (es : List Edit) : PropertyDeltaManifest :=
  ⟨logOf 1 es, es.length + 1, applyAll [] es⟩

section

variable {es : List Edit} {tail : Bytes}

theorem length_le_length_logOf (sequence : Nat) (es : List Edit) :
    es.length ≤ (logOf sequence es).length := by
  have := length_le_logOf sequence es
  simp only [headerBytes] at this
  omega

/-- What is not a whole record after the log is cut off. -/
theorem openAndRecover_torn (hread : ∀ e ∈ es, e.Readable) (hseq : es.length < 256 ^ 8)
    (htail : tail = [] ∨ readRecord (logOf 1 es).length es.length tail = .torn) :
    openAndRecover (logOf 1 es ++ tail) = .ok (ofEdits es) := by
  have hloop := recoverLoop_logOf (r := ⟨0, [], 0⟩) (logOf 1 es ++ tail).length tail hread
    (by simpa using hseq) (by
      have := length_le_length_logOf 1 es
      simp only [List.length_append]
      omega)
  simp only [Nat.zero_add] at hloop
  have hend : ∀ turns, recoverLoop turns tail
      ⟨es.length, applyAll [] es, (logOf 1 es).length⟩ =
        .ok ⟨es.length, applyAll [] es, (logOf 1 es).length⟩ := by
    intro turns
    cases turns with
    | zero => rfl
    | succ turns =>
      unfold recoverLoop
      rcases htail with hnil | htorn
      · rw [if_pos hnil]
      · simp only [htorn, ite_self]
  unfold openAndRecover
  rw [hloop, hend]
  simp only [Except.map, List.take_left, ofEdits]

theorem openAndRecover_logOf (hread : ∀ e ∈ es, e.Readable) (hseq : es.length < 256 ^ 8) :
    openAndRecover (logOf 1 es) = .ok (ofEdits es) := by
  simpa using openAndRecover_torn hread hseq (Or.inl (rfl : ([] : Bytes) = []))

/-- A damaged record after the log makes the recovery fail. -/
theorem openAndRecover_invalid {error : RecoverError} (hread : ∀ e ∈ es, e.Readable)
    (hseq : es.length < 256 ^ 8) (hne : tail ≠ [])
    (htail : readRecord (logOf 1 es).length es.length tail = .invalid error) :
    openAndRecover (logOf 1 es ++ tail) = .error error := by
  have hpos : 0 < tail.length := List.length_pos_iff.mpr hne
  have hle := length_le_length_logOf 1 es
  have hlen : (logOf 1 es ++ tail).length = (logOf 1 es).length + tail.length :=
    List.length_append
  have hloop := recoverLoop_logOf (r := ⟨0, [], 0⟩) (logOf 1 es ++ tail).length tail hread
    (by simpa using hseq) (by omega)
  simp only [Nat.zero_add] at hloop
  obtain ⟨turns, hturns⟩ : ∃ t, (logOf 1 es ++ tail).length - es.length = t + 1 :=
    ⟨(logOf 1 es ++ tail).length - es.length - 1, by omega⟩
  rw [hturns] at hloop
  unfold openAndRecover
  rw [hloop]
  unfold recoverLoop
  simp only [if_neg hne, htail]
  rfl

end

/-! ## Appends -/

section

variable {e : Edit} {m m' : PropertyDeltaManifest} {outcome : WriteOutcome} {ok : Bool}

theorem append_eq (hne : e ≠ .remove []) (hacc : e.Accepted) : append e outcome m =
    match appendRecord e.type e.payload outcome m with
    | (m', true) => ({ m' with activeEntries := e.apply m'.activeEntries }, true)
    | (m', false) => (m', false) := by
  cases e with
  | add entry =>
    have hname : ValidFileName entry.fileName := hacc
    rcases hrecord : appendRecord kAddRecord (encodeAdd entry) outcome m with ⟨m', _ | _⟩ <;>
      simp [append, appendAdd, hname, Edit.type, Edit.payload, Edit.apply, hrecord]
  | remove names =>
    have hbad : ¬ (names.length > maxUInt32 ∨
        ∃ name ∈ names, ¬ ValidFileName name ∨ name.length > maxUInt32) := by
      rintro (hcount | ⟨name, hname, hinvalid | hlong⟩)
      · exact absurd hacc.1 (Nat.not_le.mpr hcount)
      · exact hinvalid (hacc.2 name hname).1
      · exact absurd (hacc.2 name hname).2 (Nat.not_le.mpr hlong)
    have hnil : names ≠ [] := by simpa using hne
    rcases hrecord : appendRecord kRemoveRecord (encodeRemove names) outcome m with ⟨m', _ | _⟩ <;>
      simp only [append, appendRemove, if_neg hnil, if_neg hbad, Edit.type, Edit.payload,
        Edit.apply, hrecord]

theorem append_of_not_accepted (hne : e ≠ .remove []) (hacc : ¬ e.Accepted) :
    append e outcome m = (m, false) := by
  cases e with
  | add entry =>
    have hname : ¬ ValidFileName entry.fileName := hacc
    simp only [append, appendAdd]
    rw [if_pos hname]
  | remove names =>
    have hbad : names.length > maxUInt32 ∨
        ∃ name ∈ names, ¬ ValidFileName name ∨ name.length > maxUInt32 := by
      by_contra hgood
      apply hacc
      refine ⟨Nat.le_of_not_lt fun hlt => hgood (Or.inl hlt), fun name hname => ⟨?_, ?_⟩⟩
      · by_contra hinvalid
        exact hgood (Or.inr ⟨name, hname, Or.inl hinvalid⟩)
      · exact Nat.le_of_not_lt fun hlt => hgood (Or.inr ⟨name, hname, Or.inr hlt⟩)
    have hnil : names ≠ [] := by simpa using hne
    simp only [append, appendRemove, if_neg hnil, if_pos hbad]

theorem append_nil : append (.remove []) outcome m = (m, true) := rfl

/-- What `AppendRecord` does with a payload: nothing, a part of the record, or the whole of it. -/
theorem appendRecord_cases {type : UInt8} {payload : Bytes}
    (h : appendRecord type payload outcome m = (m', ok)) :
    (m' = m ∧ ok = false) ∨ payload.length ≤ maxUInt32 ∧
      ((∃ n, ok = false ∧
          m' = { m with file := m.file ++ (recordOf m.nextEditSequence type payload).take n }) ∨
        (ok = true ∧ outcome = .succeeds ∧
          m.file.length + (recordOf m.nextEditSequence type payload).length ≤ maxFileBytes ∧
          m' = { m with
            file := m.file ++ recordOf m.nextEditSequence type payload
            nextEditSequence := m.nextEditSequence + 1 })) := by
  unfold appendRecord at h
  split at h
  · cases h
    exact Or.inl ⟨rfl, rfl⟩
  · rename_i hlen
    refine Or.inr ⟨Nat.le_of_not_lt hlen, ?_⟩
    cases outcome with
    | fails written =>
      cases h
      exact Or.inl ⟨written, rfl, rfl⟩
    | succeeds =>
      by_cases hroom :
          m.file.length + (recordOf m.nextEditSequence type payload).length ≤ maxFileBytes
      · simp only [writeAll, if_pos hroom] at h
        cases h
        exact Or.inr ⟨rfl, rfl, hroom, rfl⟩
      · simp only [writeAll, if_neg hroom] at h
        cases h
        exact Or.inl ⟨_, rfl, rfl⟩

/-- What an append does: nothing, or it writes a part of its record, or the whole of it. -/
theorem append_cases (h : append e outcome m = (m', ok)) :
    (m' = m ∧ (ok = true → e = .remove [])) ∨
    (e ≠ .remove [] ∧ e.Accepted ∧ e.payload.length ≤ maxUInt32 ∧
      ((∃ n, ok = false ∧ m' = { m with file := m.file ++ (e.record m.nextEditSequence).take n }) ∨
        (ok = true ∧ outcome = .succeeds ∧
          m.file.length + (e.record m.nextEditSequence).length ≤ maxFileBytes ∧
          m' = ⟨m.file ++ e.record m.nextEditSequence, m.nextEditSequence + 1,
            e.apply m.activeEntries⟩))) := by
  by_cases hne : e = .remove []
  · rw [hne, append_nil] at h
    cases h
    exact Or.inl ⟨rfl, fun _ => hne⟩
  by_cases hacc : e.Accepted
  · rw [append_eq hne hacc] at h
    split at h <;> rename_i m₁ heq <;> cases h
    · rcases appendRecord_cases heq with ⟨-, hok⟩ | ⟨hlen, ⟨n, hok, -⟩ | ⟨-, hout, hroom, rfl⟩⟩
      · cases hok
      · cases hok
      · exact Or.inr ⟨hne, hacc, hlen, Or.inr ⟨rfl, hout, hroom, rfl⟩⟩
    · rcases appendRecord_cases heq with ⟨rfl, -⟩ | ⟨hlen, ⟨n, -, rfl⟩ | ⟨hok, -⟩⟩
      · exact Or.inl ⟨rfl, by simp⟩
      · exact Or.inr ⟨hne, hacc, hlen, Or.inl ⟨n, rfl, rfl⟩⟩
      · cases hok
  · rw [append_of_not_accepted hne hacc] at h
    cases h
    exact Or.inl ⟨rfl, by simp⟩

/-- An append that fits the log succeeds. -/
theorem append_of_room (hne : e ≠ .remove []) (hacc : e.Accepted)
    (hlen : e.payload.length ≤ maxUInt32)
    (hroom : m.file.length + (e.record m.nextEditSequence).length ≤ maxFileBytes) :
    append e .succeeds m = (⟨m.file ++ e.record m.nextEditSequence, m.nextEditSequence + 1,
      e.apply m.activeEntries⟩, true) := by
  have hrecord : appendRecord e.type e.payload .succeeds m =
      ({ m with
        file := m.file ++ e.record m.nextEditSequence
        nextEditSequence := m.nextEditSequence + 1 }, true) := by
    have hroom' : m.file.length +
        (recordOf m.nextEditSequence e.type e.payload).length ≤ maxFileBytes := hroom
    simp only [appendRecord, if_neg (Nat.not_lt.mpr hlen), writeAll, if_pos hroom']
    rfl
  rw [append_eq hne hacc, hrecord]

end

/-! ## Appends that all return true -/

def appendAll : List Edit → PropertyDeltaManifest → Option PropertyDeltaManifest
  | [], m => some m
  | e :: es, m =>
    match append e .succeeds m with
    | (m', true) => appendAll es m'
    | (_, false) => none

/-- The edit sequences that the appends write. An empty removal writes nothing. -/
def usedSequences : List Edit → PropertyDeltaManifest → List Nat
  | [], _ => []
  | e :: es, m =>
    if e = .remove [] then usedSequences es m
    else m.nextEditSequence :: usedSequences es (append e .succeeds m).1

/-- The edits that have a record in the log. -/
def written (es : List Edit) : List Edit := es.filter (· ≠ .remove [])

theorem written_append (es es' : List Edit) : written (es ++ es') = written es ++ written es' :=
  List.filter_append ..

theorem applyAll_append (active : List PropertyDeltaManifestEntry) (es es' : List Edit) :
    applyAll active (es ++ es') = applyAll (applyAll active es) es' := List.foldl_append

theorem applyAll_written (active : List PropertyDeltaManifestEntry) (es : List Edit) :
    applyAll active (written es) = applyAll active es := by
  induction es generalizing active with
  | nil => rfl
  | cons e es ih =>
    by_cases he : e = .remove []
    · have hid : Edit.apply active (.remove []) = active := by simp [Edit.apply, applyRemove]
      simpa [written, he, applyAll, hid] using ih active
    · simpa [written, he, applyAll] using ih (e.apply active)

section

variable {e : Edit} {es es₀ : List Edit} {m : PropertyDeltaManifest}

theorem ofEdits_concat (es : List Edit) (e : Edit) :
    ofEdits (es ++ [e]) = ⟨logOf 1 es ++ e.record (es.length + 1), es.length + 1 + 1,
      e.apply (applyAll [] es)⟩ := by
  simp only [ofEdits, logOf_append, applyAll_append, List.length_append, Nat.add_comm 1]
  simp [logOf, applyAll]

/-- What holds of every record of a log that the append functions have made. -/
structure Logged (es : List Edit) : Prop where
  accepted : ∀ e ∈ es, e.Accepted
  le : ∀ e ∈ es, e.payload.length ≤ maxUInt32
  room : (logOf 1 es).length ≤ maxFileBytes

theorem Logged.nil : Logged [] := ⟨by simp, by simp, by simp [logOf]⟩

/-- A log of this size has not used up the edit sequences. -/
theorem Logged.length_lt (h : Logged es) : es.length + 1 < 256 ^ 8 := by
  have hle := length_le_logOf 1 es
  have hroom := h.room
  simp only [headerBytes, maxFileBytes] at hle hroom
  omega

theorem Logged.readable (h : Logged es) (hfit : ∀ e ∈ es, e.payload.length ≤ maxPayloadBytes) :
    ∀ e ∈ es, e.Readable := fun e he => ⟨h.accepted e he, hfit e he⟩

theorem Logged.concat (h : Logged es) (hacc : e.Accepted) (hle : e.payload.length ≤ maxUInt32)
    (hroom : (logOf 1 es).length + (e.record (es.length + 1)).length ≤ maxFileBytes) :
    Logged (es ++ [e]) where
  accepted x hx := by
    rcases List.mem_append.mp hx with hx | hx
    · exact h.accepted x hx
    · exact List.mem_singleton.mp hx ▸ hacc
  le x hx := by
    rcases List.mem_append.mp hx with hx | hx
    · exact h.le x hx
    · exact List.mem_singleton.mp hx ▸ hle
  room := by
    simpa [logOf_append, logOf, Nat.add_comm 1] using hroom

/-- An append that returns true adds its record to the log. -/
theorem append_ofEdits {outcome : WriteOutcome} (hlog : Logged es₀)
    (h : append e outcome (ofEdits es₀) = (m, true)) :
    m = ofEdits (es₀ ++ written [e]) ∧ Logged (es₀ ++ written [e]) := by
  rcases append_cases h with ⟨rfl, hnil⟩ | ⟨hne, hacc, hle, ⟨n, hok, -⟩ | ⟨-, -, hroom, rfl⟩⟩
  · simpa [written, hnil rfl] using hlog
  · cases hok
  · have hwritten : written [e] = [e] := by simp [written, hne]
    rw [hwritten, ofEdits_concat]
    exact ⟨rfl, hlog.concat hacc hle hroom⟩

theorem appendAll_ofEdits (hlog : Logged es₀) (h : appendAll es (ofEdits es₀) = some m) :
    m = ofEdits (es₀ ++ written es) ∧ Logged (es₀ ++ written es) := by
  induction es generalizing es₀ with
  | nil =>
    cases h
    simpa [written] using hlog
  | cons e es ih =>
    simp only [appendAll] at h
    split at h
    · rename_i m₁ hm₁
      obtain ⟨rfl, hlog'⟩ := append_ofEdits hlog hm₁
      have hsplit : es₀ ++ written (e :: es) = es₀ ++ written [e] ++ written es := by
        rw [List.append_assoc, ← written_append]
        rfl
      rw [hsplit]
      exact ih hlog' h
    · cases h

/-- The sequences run from the length of the log on. -/
theorem usedSequences_lt (hlog : Logged es₀) (h : appendAll es (ofEdits es₀) = some m) :
    ∀ sequence ∈ usedSequences es (ofEdits es₀),
      sequence < (es₀ ++ written es).length + 1 := by
  induction es generalizing es₀ with
  | nil => simp [usedSequences]
  | cons e es ih =>
    simp only [appendAll] at h
    split at h
    · rename_i m₁ hm₁
      obtain ⟨rfl, hlog'⟩ := append_ofEdits hlog hm₁
      have hrest := ih hlog' h
      intro sequence hs
      unfold usedSequences at hs
      split at hs
      · rename_i hnil
        simpa [written, hnil] using hrest sequence (by simpa [written, hnil] using hs)
      · rename_i hne
        rcases List.mem_cons.mp hs with rfl | hs
        · simp [ofEdits, written, hne]
        · rw [hm₁] at hs
          simpa [written, hne, Nat.add_assoc, Nat.add_comm 1] using hrest sequence hs
    · cases h

/-- The first record that is too large for the recovery. -/
theorem exists_first_too_large (h : ¬ ∀ e ∈ es, e.payload.length ≤ maxPayloadBytes) :
    ∃ before e after, es = before ++ e :: after ∧
      (∀ x ∈ before, x.payload.length ≤ maxPayloadBytes) ∧ maxPayloadBytes < e.payload.length := by
  induction es with
  | nil => simp at h
  | cons e es ih =>
    by_cases he : e.payload.length ≤ maxPayloadBytes
    · obtain ⟨before, x, after, rfl, hbefore, hx⟩ := ih fun hall => h (by simpa [he] using hall)
      exact ⟨e :: before, x, after, rfl, by simpa [he] using hbefore, hx⟩
    · exact ⟨[], e, es, rfl, by simp, Nat.lt_of_not_le he⟩

/-- A log can be opened when no record is too large, and then only. -/
theorem openAndRecover_ofEdits (hlog : Logged es) :
    (∀ e ∈ es, e.payload.length ≤ maxPayloadBytes) ∧
        openAndRecover (ofEdits es).file = .ok (ofEdits es) ∨
      (¬ ∀ e ∈ es, e.payload.length ≤ maxPayloadBytes) ∧
        ∃ offset, openAndRecover (ofEdits es).file = .error (.header offset) := by
  by_cases hfit : ∀ e ∈ es, e.payload.length ≤ maxPayloadBytes
  · have hlen := hlog.length_lt
    exact Or.inl ⟨hfit, openAndRecover_logOf (hlog.readable hfit) (by omega)⟩
  · refine Or.inr ⟨hfit, ?_⟩
    obtain ⟨before, e, after, rfl, hbefore, he⟩ := exists_first_too_large hfit
    have hlen := hlog.length_lt
    simp only [List.length_append, List.length_cons] at hlen
    have hinvalid : readRecord (logOf 1 before).length before.length
        (e.record (1 + before.length) ++ logOf (1 + before.length + 1) after) =
          .invalid (.header (logOf 1 before).length) :=
      readRecord_of_too_large he (hlog.le e (by simp)) (by omega) _
    refine ⟨(logOf 1 before).length, ?_⟩
    have hopen := openAndRecover_invalid
      (fun x hx => ⟨hlog.accepted x (by simp [hx]), hbefore x hx⟩) (by omega)
      (fun hnil => ?_) hinvalid
    · simpa [ofEdits, logOf_append, logOf] using hopen
    · have := headerBytes_le_length_record e (1 + before.length)
      simp only [List.append_eq_nil_iff] at hnil
      simp [hnil.1, headerBytes] at this

theorem written_fit : (∀ e ∈ written es, e.payload.length ≤ maxPayloadBytes) ↔
    ∀ e ∈ es, e.payload.length ≤ maxPayloadBytes := by
  constructor
  · intro h e he
    by_cases hnil : e = .remove []
    · rw [hnil]
      decide
    · exact h e (by simp [written, he, hnil])
  · exact fun h e he => h e (List.mem_of_mem_filter he)

/-- After appends that all returned true the manifest can be opened again, with the same entries
and with a sequence after those used, when every payload has a size that the recovery takes, and
then only. -/
theorem reopened_manifest_is_the_same_iff (h : appendAll es empty = some m) :
    (∃ m', openAndRecover m.file = .ok m' ∧ m'.activeEntries = m.activeEntries ∧
      ∀ sequence ∈ usedSequences es empty, sequence < m'.nextEditSequence) ↔
    ∀ e ∈ es, e.payload.length ≤ maxPayloadBytes := by
  have hstart : empty = ofEdits [] := rfl
  rw [hstart] at h ⊢
  obtain ⟨rfl, hlog⟩ := appendAll_ofEdits Logged.nil h
  have hused := usedSequences_lt Logged.nil h
  rw [List.nil_append] at hlog hused ⊢
  rw [← written_fit]
  rcases openAndRecover_ofEdits hlog with ⟨hfit, hopen⟩ | ⟨hlarge, offset, hopen⟩
  · exact iff_of_true ⟨_, hopen, rfl, hused⟩ hfit
  · refine iff_of_false ?_ hlarge
    rintro ⟨m', hm', -⟩
    rw [hopen] at hm'
    cases hm'

end

/-- An entry for a delta file of the given name. -/
def exampleEntry (fileName : Bytes) : PropertyDeltaManifestEntry :=
  { fileName
    metadata :=
      { target := ⟨.kEdge, 0, 2, 2, 0⟩
        fileGeneration := 1
        recordCount := 1
        fileBytes := 100
        minCommitSequence := 1
        maxCommitSequence := 1
        payloadChecksum := 0
        target_lt := by decide
        lt := by decide }
    targetIsPersistent := true }

theorem reopened_manifest_has_the_added_file :
    ∃ m, appendAll [.add (exampleEntry [97]), .remove [[98]]] empty = some m ∧
      ((∃ m', openAndRecover m.file = .ok m' ∧ m'.activeEntries = m.activeEntries ∧
        ∀ sequence ∈ usedSequences [.add (exampleEntry [97]), .remove [[98]]] empty,
          sequence < m'.nextEditSequence) ↔
      ∀ e ∈ [Edit.add (exampleEntry [97]), .remove [[98]]],
        e.payload.length ≤ maxPayloadBytes) := by
  obtain ⟨m, hm⟩ : ∃ m, appendAll [.add (exampleEntry [97]), .remove [[98]]] empty = some m :=
    Option.isSome_iff_exists.mp (by decide +kernel)
  exact ⟨m, hm, reopened_manifest_is_the_same_iff hm⟩

/-- What the manifest has accepted is decoded to what it was, and no other payload is decoded to a
list of names. -/
theorem payloads_are_decoded_to_what_was_encoded :
    (∀ entry outcome m m', append (.add entry) outcome m = (m', true) →
      decodeAdd (encodeAdd entry) = some entry) ∧
    (∀ names outcome m m', append (.remove names) outcome m = (m', true) →
      decodeRemove (encodeRemove names) = some names) ∧
    ∀ payload names, decodeRemove payload = some names → payload = encodeRemove names := by
  refine ⟨fun entry outcome m m' h => ?_, fun names outcome m m' h => ?_,
    fun payload names => encodeRemove_of_decodeRemove⟩
  · rcases append_cases h with ⟨-, hnil⟩ | ⟨-, hacc, hlen, -⟩
    · exact absurd (hnil rfl) (by simp)
    · refine decodeAdd_encodeAdd hacc ?_
      simp only [Edit.payload, length_encodeAdd, maxUInt32] at hlen
      omega
  · rcases append_cases h with ⟨-, hnil⟩ | ⟨-, hacc, -⟩
    · cases hnil rfl
      decide
    · exact decodeRemove_encodeRemove (Nat.lt_succ_of_le hacc.1)
        fun name hname => ⟨(hacc.2 name hname).1, Nat.lt_succ_of_le (hacc.2 name hname).2⟩

theorem accepted_payloads_are_decoded :
    (∃ m, append (.add (exampleEntry [97])) .succeeds empty = (m, true)) ∧
      decodeAdd (encodeAdd (exampleEntry [97])) = some (exampleEntry [97]) ∧
      decodeRemove (encodeRemove [[97], [98]]) = some [[97], [98]] := by
  obtain ⟨m, hadd⟩ : ∃ m, append (.add (exampleEntry [97])) .succeeds empty = (m, true) :=
    ⟨_, Prod.ext rfl (by decide +kernel)⟩
  obtain ⟨m', hremove⟩ : ∃ m, append (.remove [[97], [98]]) .succeeds empty = (m, true) :=
    ⟨_, Prod.ext rfl (by decide +kernel)⟩
  exact ⟨⟨m, hadd⟩, payloads_are_decoded_to_what_was_encoded.1 _ _ _ _ hadd,
    payloads_are_decoded_to_what_was_encoded.2.1 _ _ _ _ hremove⟩

/-- There are names of every length. -/
theorem exists_payload_length {n : Nat} (h : 3 ≤ n) : ∃ name, ValidFileName name ∧
    (Edit.add (exampleEntry name)).payload.length = addPayloadBytes + n := by
  have hlen : (List.replicate n (97 : UInt8)).length = n := List.length_replicate
  refine ⟨List.replicate n 97, ⟨fun heq => ?_, fun hmem => ?_, fun heq => ?_, fun heq => ?_⟩, ?_⟩
  · rw [heq] at hlen
    simp only [List.length_nil] at hlen
    omega
  · exact absurd (List.eq_of_mem_replicate hmem) (by decide)
  · rw [heq] at hlen
    simp only [List.length_cons, List.length_nil] at hlen
    omega
  · rw [heq] at hlen
    simp only [List.length_cons, List.length_nil] at hlen
    omega
  · simp only [Edit.payload, length_encodeAdd, exampleEntry, hlen]

/-- A file name of this length makes a payload that the append functions take and the recovery
does not. -/
theorem exists_unreadable_append : ∃ entry m, append (.add entry) .succeeds empty = (m, true) ∧
    ∃ error, openAndRecover m.file = .error error := by
  obtain ⟨name, hname, hlen⟩ := exists_payload_length (n := maxPayloadBytes) (by decide)
  have hle : (Edit.add (exampleEntry name)).payload.length ≤ maxUInt32 := by
    rw [hlen]
    decide
  have happend := append_of_room (m := empty) (e := .add (exampleEntry name)) (by simp) hname hle
    (by
      rw [length_record (by decide) hle, hlen]
      decide)
  refine ⟨_, _, happend, ?_⟩
  obtain ⟨hm, hlog⟩ := append_ofEdits Logged.nil happend
  rw [hm]
  rcases openAndRecover_ofEdits hlog with ⟨hfit, -⟩ | ⟨-, offset, hopen⟩
  · have := hfit (.add (exampleEntry name)) (by simp [written])
    rw [hlen] at this
    exact absurd this (by decide)
  · exact ⟨_, hopen⟩

theorem a_long_file_name_makes_the_manifest_unreadable :
    ∃ es m, appendAll es empty = some m ∧ ∃ error, openAndRecover m.file = .error error := by
  obtain ⟨entry, m, hm, hopen⟩ := exists_unreadable_append
  exact ⟨[.add entry], m, by simp only [appendAll, hm], hopen⟩

end RichGraph.Manifest
