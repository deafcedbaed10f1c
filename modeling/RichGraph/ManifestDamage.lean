-- One changed byte in a record of the manifest that is not the last one. The
-- checksum finds every such change but one: a length that now goes beyond the
-- end of the file makes the record, and all after it, look like a torn tail.
import RichGraph.ManifestReplay

namespace RichGraph.Manifest

open Lib

/-! ## Headers and their bytes -/

section

variable {bs : Bytes} {offset width i : Nat} {b b' : UInt8}

theorem field_set_other (h : i < offset ∨ offset + width ≤ i) :
    field (bs.set i b) offset width = field bs offset width := by
  unfold field
  rcases h with h | h
  · rw [List.drop_set_of_lt h]
  · rw [List.drop_set, if_neg (by omega), List.take_set_of_le (by omega)]

/-- A changed byte changes the number that it is a part of. -/
theorem field_set_ne (hlow : offset ≤ i) (hhigh : i < offset + width) (hb : bs[i]? = some b)
    (hne : b' ≠ b) : field (bs.set i b') offset width ≠ field bs offset width := by
  intro heq
  have hslice := ofLe_inj (by simp) heq
  have hget := congrArg (fun l => l[i - offset]?) hslice
  have hi : i < bs.length := (List.getElem?_eq_some_iff.mp hb).1
  simp only [List.getElem?_take_of_lt (show i - offset < width by omega), List.getElem?_drop,
    show offset + (i - offset) = i by omega, List.getElem?_set_self hi, hb,
      Option.some.injEq] at hget
  exact hne hget

theorem inRange_readHeader (h : bs.length = headerBytes) : (readHeader bs).InRange where
  magic := by
    simp only [headerBytes] at h
    simp [readHeader, h]
  reserved := by
    simp only [headerBytes] at h
    simp [readHeader, h]
  version := field_lt _ _ _
  payloadBytes := field_lt _ _ _
  editSequence := field_lt _ _ _
  checksum := field_lt _ _ _

/-- A header read from bytes has these bytes. -/
theorem bytes_readHeader (h : bs.length = headerBytes) : (readHeader bs).bytes = bs := by
  simp only [headerBytes] at h
  have htype : [bs.getD 12 0] = (bs.drop 12).take 1 := by
    rw [List.getD_eq_getElem?_getD, List.getElem?_eq_getElem (by omega)]
    rw [List.drop_eq_getElem_cons (by omega)]
    rfl
  have hend : (bs.drop 28).take 8 = bs.drop 28 := List.take_of_length_le (by simp [h])
  unfold Header.bytes readHeader
  dsimp only
  rw [toLe_field (by omega), toLe_field (by omega), toLe_field (by omega), toLe_field (by omega),
    htype, hend, ← List.take_add, ← List.take_add, ← List.take_add, ← List.take_add,
    ← List.take_add, List.take_append_drop]

/-- The bytes that the checksum is taken of. -/
theorem bytes_without_checksum {h : Header} (hr : h.InRange) :
    { h with checksum := 0 }.bytes = h.bytes.take 28 ++ toLe 8 0 := by
  have hlen : (h.magic ++ toLe 4 h.version ++ [h.type] ++ h.reserved ++ toLe 4 h.payloadBytes ++
      toLe 8 h.editSequence).length = 28 := by
    simp [hr.magic, hr.reserved]
  have htake : h.bytes.take 28 = h.magic ++ toLe 4 h.version ++ [h.type] ++ h.reserved ++
      toLe 4 h.payloadBytes ++ toLe 8 h.editSequence := List.take_left' hlen
  rw [htake]
  rfl

end

/-! ## Payloads say where they end -/

theorem field_append {bs tail : Bytes} {offset width : Nat} (h : offset + width ≤ bs.length) :
    field (bs ++ tail) offset width = field bs offset width := by
  unfold field
  rw [List.drop_append_of_le_length (by omega), List.take_append_of_le_length]
  rw [List.length_drop]
  omega

theorem decodeAdd_append {payload tail : Bytes} {entry : PropertyDeltaManifestEntry}
    (h : decodeAdd payload = some entry) (htail : tail ≠ []) :
    decodeAdd (payload ++ tail) = none := by
  have hpos := List.length_pos_iff.mpr htail
  have hlen : ¬ payload.length < addPayloadBytes := by
    intro hlt
    simp [decodeAdd, hlt] at h
  have hname : field payload 72 4 = payload.length - addPayloadBytes := by
    by_contra hne
    unfold decodeAdd at h
    rw [if_neg hlen] at h
    split at h
    · cases h
    · simp [hne] at h
  have hne : field (payload ++ tail) 72 4 ≠ (payload ++ tail).length - addPayloadBytes := by
    simp only [addPayloadBytes] at hlen hname ⊢
    rw [field_append (by omega), hname, List.length_append]
    omega
  unfold decodeAdd
  rw [if_neg (by rw [List.length_append]; omega)]
  split
  · rfl
  · exact if_pos (Or.inr (Or.inl hne))

theorem decodeNames_append {count : Nat} {rest tail : Bytes} {names : List Bytes}
    (h : decodeNames count rest = some names) (htail : tail ≠ []) :
    decodeNames count (rest ++ tail) = none := by
  induction count generalizing rest names with
  | zero =>
    simp [decodeNames, htail]
  | succ count ih =>
    unfold decodeNames at h
    dsimp only at h
    split at h
    · cases h
    · rename_i hlong
      rw [not_or, Nat.not_lt, Nat.not_lt] at hlong
      obtain ⟨h4, hname⟩ := hlong
      split at h
      · rename_i hvalid
        obtain ⟨names', hnames', -⟩ := Option.map_eq_some_iff.mp h
        have hfield : field (rest ++ tail) 0 4 = field rest 0 4 := field_append (by omega)
        have hdrop : (rest ++ tail).drop 4 = rest.drop 4 ++ tail :=
          List.drop_append_of_le_length h4
        unfold decodeNames
        simp only [hfield, hdrop]
        rw [if_neg (by simp only [List.length_append]; omega),
          List.take_append_of_le_length hname, if_pos hvalid,
          List.drop_append_of_le_length hname, ih hnames']
        rfl
      · cases h

theorem decodeRemove_append {payload tail : Bytes} {names : List Bytes}
    (h : decodeRemove payload = some names) (htail : tail ≠ []) :
    decodeRemove (payload ++ tail) = none := by
  unfold decodeRemove at h ⊢
  split at h
  · cases h
  · rename_i hlen
    rw [if_neg (by rw [List.length_append]; omega), field_append (by omega),
      List.drop_append_of_le_length (by omega)]
    exact decodeNames_append h htail

/-- Of two payloads one of which starts with the other, one cannot be read. -/
theorem readPayload_invalid {lastSequence : Nat} {h : Header} {payload tail : Bytes}
    (htail : tail ≠ []) :
    (∃ error, readPayload lastSequence h payload = .invalid error) ∨
      ∃ error, readPayload lastSequence h (payload ++ tail) = .invalid error := by
  unfold readPayload
  by_cases hseq : h.editSequence ≤ lastSequence
  · simp [hseq]
  by_cases htype : h.type = kAddRecord
  · simp only [if_neg hseq, if_pos htype]
    cases hdecode : decodeAdd payload with
    | none => exact Or.inl ⟨_, rfl⟩
    | some entry =>
      rw [decodeAdd_append hdecode htail]
      exact Or.inr ⟨_, rfl⟩
  · simp only [if_neg hseq, if_neg htype]
    cases hdecode : decodeRemove payload with
    | none => exact Or.inl ⟨_, rfl⟩
    | some names =>
      rw [decodeRemove_append hdecode htail]
      exact Or.inr ⟨_, rfl⟩

/-! ## One changed byte -/

/-- A record with a wrong checksum is reported when something follows it. -/
theorem readRecord_mismatch {h : Header} {payload tail : Bytes} (offset lastSequence : Nat)
    (hr : h.InRange) (hlen : h.payloadBytes = payload.length)
    (hsum : recordChecksum h payload ≠ h.checksum) (htail : tail ≠ []) :
    ∃ error, readRecord offset lastSequence (h.bytes ++ (payload ++ tail)) = .invalid error := by
  have hpos := List.length_pos_iff.mpr htail
  have htake : (payload ++ tail).take h.payloadBytes = payload := by
    rw [hlen, List.take_left]
  rw [readRecord_bytes hr, htake, List.length_append, hlen]
  by_cases hvalid : h.Valid
  · rw [if_neg (not_not.mpr hvalid), if_neg (by omega), if_pos hsum, if_neg (by omega)]
    exact ⟨_, rfl⟩
  · rw [if_pos hvalid]
    exact ⟨_, rfl⟩

/-- By its length field the record goes to the end of the file or beyond it, and looks like one
that was not written in full. -/
def LooksTorn (rest : Bytes) : Prop :=
  (readHeader rest).payloadBytes ≤ maxPayloadBytes ∧
    (rest.length < headerBytes + (readHeader rest).payloadBytes ∨
      rest.length = headerBytes + (readHeader rest).payloadBytes ∧
        recordChecksum (readHeader rest) (rest.drop headerBytes) ≠ (readHeader rest).checksum)

instance (rest : Bytes) : Decidable (LooksTorn rest) := inferInstanceAs (Decidable (_ ∧ _))

theorem fnv_payload_ne {bs bs' payload : Bytes} (h : fnv fnvOffset bs ≠ fnv fnvOffset bs') :
    (fnv (fnv fnvOffset bs) payload).toNat ≠ (fnv (fnv fnvOffset bs') payload).toNat :=
  fun heq => h (fnv_inj_hash (UInt64.toNat_inj.mp heq))

section

variable {h : Header} {payload tail : Bytes} {offset lastSequence i : Nat} {b b₀ : UInt8}

/-- A changed byte of the header, in front of the checksum, makes the checksum wrong. -/
theorem checksum_ne_of_header (hr : h.InRange) (hsum : recordChecksum h payload = h.checksum)
    (hi : i < 28) (hb : h.bytes[i]? = some b₀) (hne : b ≠ b₀) :
    recordChecksum (readHeader (h.bytes.set i b)) payload ≠
      (readHeader (h.bytes.set i b)).checksum := by
  have hlen : (h.bytes.set i b).length = headerBytes := by rw [List.length_set, hr.length_bytes]
  have hstored : (readHeader (h.bytes.set i b)).checksum = h.checksum := by
    have hsame : field (h.bytes.set i b) 28 8 = field h.bytes 28 8 := field_set_other (Or.inl hi)
    have hread := congrArg Header.checksum (readHeader_bytes hr [])
    rw [List.append_nil] at hread
    exact hsame.trans hread
  have htake : (h.bytes.take 28).length = 28 := by
    rw [List.length_take, hr.length_bytes, headerBytes]
    rfl
  rw [hstored, ← hsum]
  unfold recordChecksum
  rw [bytes_without_checksum (inRange_readHeader hlen), bytes_readHeader hlen,
    bytes_without_checksum hr, List.take_set, ← List.set_append_left _ _ (by omega)]
  apply fnv_payload_ne
  apply fnv_set_ne _ hne
  rw [List.getElem?_append_left (by omega), List.getElem?_take_of_lt hi, hb]

/-- A changed checksum is not that of the record. -/
theorem checksum_ne_of_checksum (hr : h.InRange) (hsum : recordChecksum h payload = h.checksum)
    (hi : 28 ≤ i) (hi' : i < headerBytes) (hb : h.bytes[i]? = some b₀) (hne : b ≠ b₀) :
    recordChecksum (readHeader (h.bytes.set i b)) payload ≠
      (readHeader (h.bytes.set i b)).checksum := by
  have hlen : (h.bytes.set i b).length = headerBytes := by rw [List.length_set, hr.length_bytes]
  have hread := congrArg Header.checksum (readHeader_bytes hr [])
  rw [List.append_nil] at hread
  have hsame : recordChecksum (readHeader (h.bytes.set i b)) payload =
      recordChecksum h payload := by
    unfold recordChecksum
    rw [bytes_without_checksum (inRange_readHeader hlen), bytes_readHeader hlen,
      bytes_without_checksum hr, List.take_set_of_le hi]
  have hstored : field (h.bytes.set i b) 28 8 ≠ field h.bytes 28 8 :=
    field_set_ne hi hi' hb hne
  rw [hsame, hsum, ← hread]
  exact fun heq => hstored heq.symm

theorem payloadBytes_set (hr : h.InRange) (hi : i < 16 ∨ 20 ≤ i) :
    (readHeader (h.bytes.set i b)).payloadBytes = h.payloadBytes := by
  have hread := congrArg Header.payloadBytes (readHeader_bytes hr [])
  rw [List.append_nil] at hread
  have hsame : field (h.bytes.set i b) 16 4 = field h.bytes 16 4 := field_set_other hi
  exact hsame.trans hread

/-- A changed length is the only change of the header. -/
theorem readHeader_set_length {bs : Bytes} (hlow : 16 ≤ i) (hhigh : i < 20) :
    readHeader (bs.set i b) = { readHeader bs with payloadBytes := field (bs.set i b) 16 4 } := by
  simp only [readHeader, Header.mk.injEq, List.getD_eq_getElem?_getD]
  refine ⟨List.take_set_of_le (by omega), field_set_other (by omega), ?_, ?_, trivial,
    field_set_other (by omega), field_set_other (by omega)⟩
  · rw [List.getElem?_set_ne (by omega)]
  · rw [List.drop_set, if_neg (by omega), List.take_set_of_le (by omega)]

/-- The length in the header does not decide whether a payload can be read. -/
theorem readPayload_invalid_iff (n : Nat) :
    (∃ error, readPayload lastSequence { h with payloadBytes := n } payload = .invalid error) ↔
      ∃ error, readPayload lastSequence h payload = .invalid error := by
  unfold readPayload
  by_cases hseq : h.editSequence ≤ lastSequence
  · simp [hseq]
  by_cases htype : h.type = kAddRecord
  · simp only [if_neg hseq, if_pos htype]
    cases decodeAdd payload <;> simp
  · simp only [if_neg hseq, if_neg htype]
    cases decodeRemove payload <;> simp

/-- With another length a payload that can be read cannot be read any more. -/
theorem readPayload_other_length {n : Nat}
    (hread : ¬ ∃ error, readPayload lastSequence h payload = .invalid error)
    (hne : n ≠ payload.length) (hle : n ≤ (payload ++ tail).length) :
    ∃ error, readPayload lastSequence h ((payload ++ tail).take n) = .invalid error := by
  rcases Nat.lt_or_gt_of_ne hne with hlt | hgt
  · have hsplit : payload = payload.take n ++ payload.drop n := (List.take_append_drop _ _).symm
    have hdrop : payload.drop n ≠ [] := by
      intro hnil
      have := List.drop_eq_nil_iff.mp hnil
      omega
    rw [List.take_append_of_le_length (Nat.le_of_lt hlt)]
    rw [hsplit] at hread
    exact (readPayload_invalid hdrop).resolve_right hread
  · have htake : (payload ++ tail).take n = payload ++ tail.take (n - payload.length) := by
      rw [List.take_append, List.take_of_length_le (Nat.le_of_lt hgt)]
    have hmore : tail.take (n - payload.length) ≠ [] := by
      intro hnil
      have hlen := congrArg List.length hnil
      simp only [List.length_append, List.length_take, List.length_nil] at hle hlen
      omega
    rw [htake]
    exact (readPayload_invalid hmore).resolve_left hread

/-- A record with a changed length looks torn, or it is reported. -/
theorem readRecord_length (tail : Bytes) (hr : h.InRange) (hvalid : h.Valid)
    (hlen : h.payloadBytes = payload.length)
    (hread : ¬ ∃ error, readPayload lastSequence h payload = .invalid error)
    (hlow : 16 ≤ i) (hhigh : i < 20) (hb : h.bytes[i]? = some b₀) (hne : b ≠ b₀) :
    (LooksTorn (h.bytes.set i b ++ (payload ++ tail)) ∧
        readRecord offset lastSequence (h.bytes.set i b ++ (payload ++ tail)) = .torn) ∨
      (¬ LooksTorn (h.bytes.set i b ++ (payload ++ tail)) ∧ ∃ error,
        readRecord offset lastSequence (h.bytes.set i b ++ (payload ++ tail)) =
          .invalid error) := by
  have hbytes : (h.bytes.set i b).length = headerBytes := by rw [List.length_set, hr.length_bytes]
  have hback := readHeader_bytes hr []
  rw [List.append_nil] at hback
  have hother : field (h.bytes.set i b) 16 4 ≠ payload.length := by
    rw [← hlen, ← congrArg Header.payloadBytes hback]
    exact field_set_ne hlow hhigh hb hne
  have hset : readHeader (h.bytes.set i b) =
      { readHeader h.bytes with payloadBytes := field (h.bytes.set i b) 16 4 } :=
    readHeader_set_length hlow hhigh
  rw [hback] at hset
  -- From here on only the new header counts.
  generalize field (h.bytes.set i b) 16 4 = n at hset hother
  have hr' := inRange_readHeader hbytes
  have hsplit := bytes_readHeader hbytes
  rw [hset] at hr' hsplit
  rw [← hsplit]
  clear hsplit hset hbytes hb
  have hsize : ({ h with payloadBytes := n }.bytes ++ (payload ++ tail)).length =
      headerBytes + (payload ++ tail).length := by
    rw [List.length_append, hr'.length_bytes]
  have hlooks : LooksTorn ({ h with payloadBytes := n }.bytes ++ (payload ++ tail)) ↔
      n ≤ maxPayloadBytes ∧ ((payload ++ tail).length < n ∨ (payload ++ tail).length = n ∧
        recordChecksum { h with payloadBytes := n } (payload ++ tail) ≠ h.checksum) := by
    unfold LooksTorn
    rw [readHeader_bytes hr', List.drop_left' hr'.length_bytes, hsize, Nat.add_lt_add_iff_left,
      Nat.add_left_cancel_iff]
  rw [hlooks, readRecord_bytes hr']
  by_cases hmax : n ≤ maxPayloadBytes
  swap
  · refine Or.inr ⟨fun hl => hmax hl.1, _, if_pos fun hv => hmax hv.2.2.2⟩
  rw [if_neg (not_not.mpr ⟨hvalid.1, hvalid.2.1, hvalid.2.2.1, hmax⟩)]
  by_cases hshort : (payload ++ tail).length < n
  · exact Or.inl ⟨⟨hmax, Or.inl hshort⟩, if_pos hshort⟩
  rw [if_neg hshort]
  have hfull : (payload ++ tail).length = n → (payload ++ tail).take n = payload ++ tail :=
    fun heq => List.take_of_length_le (Nat.le_of_eq heq)
  by_cases hsum : recordChecksum { h with payloadBytes := n } ((payload ++ tail).take n) =
      h.checksum
  · rw [if_neg (not_not.mpr hsum)]
    refine Or.inr ⟨?_, ?_⟩
    · rintro ⟨-, hlt | ⟨heq, hbad⟩⟩
      · exact hshort hlt
      · exact hbad (hfull heq ▸ hsum)
    · refine readPayload_other_length ?_ hother (Nat.le_of_not_lt hshort)
      rw [readPayload_invalid_iff]
      exact hread
  · rw [if_pos hsum]
    by_cases heq : (payload ++ tail).length = n
    · exact Or.inl ⟨⟨hmax, Or.inr ⟨heq, hfull heq ▸ hsum⟩⟩, if_pos heq⟩
    · rw [if_neg heq]
      refine Or.inr ⟨?_, _, rfl⟩
      rintro ⟨-, hlt | ⟨heq', -⟩⟩
      · exact hshort hlt
      · exact heq heq'

end

section

variable {e : Edit} {tail : Bytes} {sequence lastSequence i : Nat} {b : UInt8}

/-- A record with one changed byte, and something after it, looks torn or is reported. It looks
torn only by its length. -/
theorem readRecord_damaged (offset : Nat) (he : e.Readable) (hlast : lastSequence < sequence)
    (hseq : sequence < 256 ^ 8) (hi : i < (e.record sequence).length)
    (hb : (e.record sequence)[i]? ≠ some b) (htail : tail ≠ []) :
    ((16 ≤ i ∧ i < 20 ∧ LooksTorn ((e.record sequence).set i b ++ tail)) ∧
        readRecord offset lastSequence ((e.record sequence).set i b ++ tail) = .torn) ∨
      (¬ (16 ≤ i ∧ i < 20 ∧ LooksTorn ((e.record sequence).set i b ++ tail)) ∧
        ∃ error, readRecord offset lastSequence ((e.record sequence).set i b ++ tail) =
          .invalid error) := by
  obtain ⟨b₀, hb₀⟩ : ∃ b₀, (e.record sequence)[i]? = some b₀ := ⟨_, List.getElem?_eq_getElem hi⟩
  have hne : b ≠ b₀ := fun heq => hb (heq ▸ hb₀)
  have hr : (makeHeader sequence e.type e.payload).InRange := inRange_makeHeader hseq he.le
  have hsum := recordChecksum_makeHeader sequence e.type e.payload
  rw [length_record hseq he.le] at hi
  unfold Edit.record recordOf at hb₀ ⊢
  by_cases hheader : i < headerBytes
  · have hin : i < (makeHeader sequence e.type e.payload).bytes.length := by rwa [hr.length_bytes]
    rw [List.getElem?_append_left hin] at hb₀
    rw [List.set_append_left _ _ hin, List.append_assoc]
    by_cases hlength : 16 ≤ i ∧ i < 20
    · have hread : ¬ ∃ error, readPayload lastSequence (makeHeader sequence e.type e.payload)
          e.payload = .invalid error := by
        rw [readPayload_makeHeader he.1 he.le hlast]
        rintro ⟨error, herror⟩
        cases herror
      rcases readRecord_length tail hr (valid_makeHeader.mpr he.2) rfl hread hlength.1
        hlength.2 hb₀ hne with ⟨hlooks, htorn⟩ | ⟨hlooks, hinvalid⟩
      · exact Or.inl ⟨⟨hlength.1, hlength.2, hlooks⟩, htorn⟩
      · exact Or.inr ⟨fun h => hlooks h.2.2, hinvalid⟩
    · refine Or.inr ⟨fun h => hlength ⟨h.1, h.2.1⟩, ?_⟩
      have hbytes : ((makeHeader sequence e.type e.payload).bytes.set i b).length =
          headerBytes := by
        rw [List.length_set, hr.length_bytes]
      have hbad : recordChecksum (readHeader ((makeHeader sequence e.type e.payload).bytes.set i b))
          e.payload ≠
            (readHeader ((makeHeader sequence e.type e.payload).bytes.set i b)).checksum := by
        rcases Nat.lt_or_ge i 28 with hlt | hge
        · exact checksum_ne_of_header hr hsum hlt hb₀ hne
        · exact checksum_ne_of_checksum hr hsum hge hheader hb₀ hne
      have hsame := payloadBytes_set (b := b) hr (show i < 16 ∨ 20 ≤ i by omega)
      have hreport := readRecord_mismatch offset lastSequence (inRange_readHeader hbytes) hsame hbad
        htail
      rwa [bytes_readHeader hbytes] at hreport
  · -- The byte is in the payload.
    have hout : (makeHeader sequence e.type e.payload).bytes.length ≤ i := by
      rw [hr.length_bytes]
      omega
    rw [List.getElem?_append_right hout] at hb₀
    rw [List.set_append_right _ _ hout, List.append_assoc]
    refine Or.inr ⟨fun h => ?_, ?_⟩
    · simp only [headerBytes] at hheader
      omega
    · refine readRecord_mismatch offset lastSequence hr ?_ ?_ htail
      · rw [makeHeader_payloadBytes, List.length_set]
      · rw [← hsum]
        exact fun heq => fnv_set_ne hb₀ hne (UInt64.toNat_inj.mp heq)

end

/-- A changed byte in a record that is not the last one is reported, but for one case: the byte is
of the length, and by the new length the record goes to the end of the file or beyond. -/
theorem a_changed_byte_is_reported_iff {es before after : List Edit} {e : Edit}
    {m : PropertyDeltaManifest} {i : Nat} {b : UInt8} (h : appendAll es empty = some m)
    (hfit : ∀ e ∈ es, e.payload.length ≤ maxPayloadBytes)
    (hes : written es = before ++ e :: after) (hafter : after ≠ [])
    (hi : i < (e.record (before.length + 1)).length)
    (hb : (e.record (before.length + 1))[i]? ≠ some b) :
    (∃ error, openAndRecover (m.file.set ((logOf 1 before).length + i) b) = .error error) ↔
    ¬ (16 ≤ i ∧ i < 20 ∧ LooksTorn ((e.record (before.length + 1)).set i b ++
      logOf (before.length + 2) after)) := by
  obtain ⟨rfl, hlog⟩ := appendAll_ofEdits Logged.nil h
  have hread := hlog.readable (by simpa using written_fit.mpr hfit)
  have hlen := hlog.length_lt
  rw [List.nil_append, hes] at hlog hread hlen ⊢
  simp only [List.length_append, List.length_cons] at hlen
  have hfile : (ofEdits (before ++ e :: after)).file.set ((logOf 1 before).length + i) b =
      logOf 1 before ++ ((e.record (before.length + 1)).set i b ++
        logOf (before.length + 2) after) := by
    simp only [ofEdits, logOf_append, logOf, Nat.add_comm 1]
    rw [List.set_append_right _ _ (Nat.le_add_right _ _), Nat.add_sub_cancel_left,
      List.set_append_left _ _ hi]
  have hmore : logOf (before.length + 2) after ≠ [] := by
    intro hnil
    have := length_le_length_logOf (before.length + 2) after
    rw [hnil, List.length_nil, Nat.le_zero, List.length_eq_zero_iff] at this
    exact hafter this
  have hbefore : ∀ x ∈ before, x.Readable := fun x hx => hread x (List.mem_append_left _ hx)
  rw [hfile]
  rcases readRecord_damaged (logOf 1 before).length (hread e (by simp))
    (Nat.lt_succ_self before.length) (by omega) hi hb hmore with
    ⟨hlooks, htorn⟩ | ⟨hlooks, error, hinvalid⟩
  · refine iff_of_false ?_ (not_not.mpr hlooks)
    rintro ⟨error, herror⟩
    rw [openAndRecover_torn hbefore (by omega) (Or.inr htorn)] at herror
    cases herror
  · refine iff_of_true ⟨error, ?_⟩ hlooks
    exact openAndRecover_invalid hbefore (by omega) (by simp [hmore]) hinvalid

theorem a_changed_version_is_reported :
    ∃ m, appendAll [.add (exampleEntry [97]), .add (exampleEntry [98])] empty = some m ∧
      ∃ error, openAndRecover (m.file.set 8 255) = .error error := by
  obtain ⟨m, hm⟩ : ∃ m, appendAll [.add (exampleEntry [97]), .add (exampleEntry [98])] empty =
      some m := Option.isSome_iff_exists.mp (by decide +kernel)
  have hes : written [.add (exampleEntry [97]), .add (exampleEntry [98])] =
      [] ++ .add (exampleEntry [97]) :: [.add (exampleEntry [98])] := by decide
  refine ⟨m, hm, ?_⟩
  exact (a_changed_byte_is_reported_iff (i := 8) hm (by decide) hes (by decide)
    (by decide +kernel) (by decide +kernel)).mpr (by decide)

/-- The first length, changed from 77 to 255, goes beyond the end of the file. The recovery takes
both records for a torn tail. -/
theorem a_changed_length_drops_the_records :
    ∃ m, appendAll [.add (exampleEntry [97]), .add (exampleEntry [98])] empty = some m ∧
      openAndRecover (m.file.set 16 255) = .ok empty :=
  ⟨_, rfl, by decide +kernel⟩

end RichGraph.Manifest
