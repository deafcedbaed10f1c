-- A compaction does not look at what its calls of `write` return. It retires its
-- inputs when it is done, whether the output files are complete or not.
import RichGraph.SSTableWriter
import RichGraph.Watermark

namespace RichGraph

open Compaction SSTableWriter

namespace CompactionWrites

/-! ## The calls of `write` -/

/-- The descriptors of an output file. -/
inductive Descriptor where
  | edges
  | property (i : Nat)
deriving DecidableEq

/-- How many bytes the calls of `write` have written: by file id, descriptor and number of the call.
A call that fails writes nothing. -/
abbrev Outcome := Nat → Descriptor → Nat → Nat

/-- Every call for a file wrote all its bytes. -/
def allWritten (edgeCalls : List Nat) (propertyCalls : List (List Nat))
    (done : Descriptor → Nat → Nat) : Bool :=
  edgeCalls.zipIdx.all (fun c => decide (c.1 ≤ done .edges c.2)) &&
    propertyCalls.zipIdx.all fun p => p.1.zipIdx.all fun c =>
      decide (c.1 ≤ done (.property p.2) c.2)

def isComplete (written : Outcome) (f : OutputFile) : Bool :=
  allWritten f.edgeCalls f.propertyCalls (written f.timeStamp)

/-! ## A compaction -/

/-- What a compaction leaves: its output files and the inputs that it has retired. -/
structure Compacted where
  files : List OutputFile
  retired : List SSTable

/-- `BackgroundCompaction` with its inputs. Files of a deeper level that meet no file of the next
level are moved and not retired. -/
def backgroundCompaction {o : Options} (b : Buffers o) (currentTime level : Nat)
    (inputs0 inputs1 : List SSTable) : Compacted :=
  if level ≠ 0 ∧ inputs1.isEmpty then ⟨[], []⟩
  else ⟨(writeAll b currentTime (mergeInputs level inputs0 inputs1)).files, inputs0 ++ inputs1⟩

variable {o : Options} {b : Buffers o}

/-! ## The ids of the output files -/

variable {w : SSTableWriter} {t : Nat}

/-- The files have the ids from `t` on, and the file that is being written the next one. -/
structure Numbered (t : Nat) (w : SSTableWriter) : Prop where
  files : w.files.map OutputFile.timeStamp = List.range' t w.files.length
  timestamp : w.timestamp = t + w.files.length
  currentTime : w.currentTime = w.timestamp + 1

/-- A record that is taken changes no id. -/
theorem numbered_write {r : EdgeRecord} {w' : SSTableWriter} (h : Numbered t w)
    (hwrite : w.write b r = (true, w')) : Numbered t w' := by
  unfold write at hwrite
  split at hwrite
  · cases hwrite
  · cases hwrite
    unfold putBody putColumns
    dsimp only
    split <;> split <;> exact ⟨h.files, h.timestamp, h.currentTime⟩

/-- The next file gets the next id. -/
theorem numbered_next (h : Numbered t w) : Numbered t w.writeEnd.init := by
  have hlen : w.writeEnd.init.files.length = w.files.length + 1 := by
    simp [writeEnd, init]
  refine ⟨?_, ?_, rfl⟩
  · rw [hlen, List.range'_1_concat, ← h.files, ← h.timestamp]
    simp [writeEnd, init]
  · rw [hlen, ← Nat.add_assoc, ← h.timestamp, ← h.currentTime]
    rfl

theorem numbered_writeRecord (b : Buffers o) (r : EdgeRecord) (h : Numbered t w) :
    Numbered t (writeRecord b w r) := by
  unfold writeRecord
  split
  · rename_i w' hwrite
    exact numbered_write h hwrite
  · rename_i w' hwrite
    have hend : w' = w.writeEnd := by
      unfold write at hwrite
      split at hwrite <;> cases hwrite
      rfl
    subst hend
    have hnext := numbered_next h
    cases hagain : w.writeEnd.init.write b r with
    | mk taken w' =>
      cases taken with
      | true => exact numbered_write hnext hagain
      | false =>
        -- An empty file takes every record.
        unfold write at hagain
        split at hagain
        · rename_i hfull
          exact absurd hfull.2 (Nat.not_le.mpr o.maxEFileSize_gt)
        · cases hagain

theorem timeStamps_writeAll (b : Buffers o) (currentTime : Nat) (rs : List EdgeRecord) :
    (writeAll b currentTime rs).files.map OutputFile.timeStamp =
      List.range' currentTime (writeAll b currentTime rs).files.length := by
  have hrun : ∀ (rs : List EdgeRecord) w, Numbered currentTime w →
      Numbered currentTime (rs.foldl (writeRecord b) w) := by
    intro rs
    induction rs with
    | nil => exact fun w h => h
    | cons r rs ih => exact fun w h => ih _ (numbered_writeRecord b r h)
  have h := hrun rs (fresh o currentTime).init ⟨rfl, rfl, rfl⟩
  unfold writeAll
  dsimp only
  split
  · exact h.files
  · exact (numbered_next h).files

/-! ## Which output files are complete -/

/-- Every call for the parts into which the records are cut writes all its bytes. The lengths of the
calls follow from the number of records and sources of a part. -/
def CallsSucceed (b : Buffers o) (written : Outcome) (currentTime : Nat) (rs : List EdgeRecord) :
    Prop :=
  ∀ p part, (cut o rs)[p]? = some part →
    allWritten (edgeCallsOf o part) (propertyCallsOf b part) (written (currentTime + p)) = true

theorem isComplete_iff_callsSucceed (written : Outcome) {currentTime : Nat} {rs : List EdgeRecord}
    (h : List.Forall₂ (IsFile b) (writeAll b currentTime rs).files (cut o rs)) :
    (∀ f ∈ (writeAll b currentTime rs).files, isComplete written f = true) ↔
      CallsSucceed b written currentTime rs := by
  obtain ⟨hlen, hall⟩ := List.forall₂_iff_get.mp h
  have htimes := timeStamps_writeAll b currentTime rs
  -- A file and its part are at the same place.
  have hplace : ∀ p (h₁ : p < (writeAll b currentTime rs).files.length)
      (h₂ : p < (cut o rs).length),
      isComplete written ((writeAll b currentTime rs).files.get ⟨p, h₁⟩) =
        allWritten (edgeCallsOf o ((cut o rs).get ⟨p, h₂⟩))
          (propertyCallsOf b ((cut o rs).get ⟨p, h₂⟩)) (written (currentTime + p)) := by
    intro p h₁ h₂
    have hfile := hall p h₁ h₂
    have htime : ((writeAll b currentTime rs).files.get ⟨p, h₁⟩).timeStamp = currentTime + p := by
      have := congrArg (fun l => l[p]?) htimes
      simpa [h₁] using this
    unfold isComplete
    rw [hfile.edgeCalls, hfile.propertyCalls, htime]
  constructor
  · intro hcomplete p part hpart
    obtain ⟨h₂, rfl⟩ := List.getElem?_eq_some_iff.mp hpart
    have h₁ : p < (writeAll b currentTime rs).files.length := hlen ▸ h₂
    exact (hplace p h₁ h₂).symm.trans (hcomplete _ (List.get_mem _ _))
  · intro hcalls f hf
    obtain ⟨p, h₁, rfl⟩ := List.getElem_of_mem hf
    have h₂ : p < (cut o rs).length := hlen ▸ h₁
    exact (hplace p h₁ h₂).trans (hcalls p _ (List.getElem?_eq_getElem h₂))

/-- A file that was given a part gives back some record. -/
theorem records_ne_nil {rs : List EdgeRecord} {currentTime : Nat} (hwritten : Written o rs)
    (hsrc : ∀ r ∈ rs, r.src < invalidVertexId)
    (h : List.Forall₂ (IsFile b) (writeAll b currentTime rs).files (cut o rs)) :
    ∀ f ∈ (writeAll b currentTime rs).files, f.records o.propertyLengths ≠ [] := by
  intro f hf
  obtain ⟨p, h₁, rfl⟩ := List.getElem_of_mem hf
  have h₂ : p < (cut o rs).length := h.length_eq ▸ h₁
  have hfile := h.get h₁ h₂
  set part := (cut o rs).get ⟨p, h₂⟩
  have hpart : part ∈ cut o rs := List.get_mem _ _
  have hne : part ≠ [] := cutFrom_ne_nil o.maxEFileSize o.maxEFileSize_gt [] rs part hpart
  have hmem : ∀ r ∈ part, r.src < invalidVertexId := by
    intro r hr
    refine hsrc r ?_
    rw [← cut_flatten o rs]
    exact List.mem_flatten.mpr ⟨part, hpart, hr⟩
  intro hnil
  have hrecords := (records_of_isFile hfile hmem (hwritten.1 part hpart)).symm.trans hnil
  exact hne (List.map_eq_nil_iff.mp hrecords)

/-- The records that a merge passes to the writer are all in complete files just when the writer
loses none of them and every call writes all its bytes. -/
theorem subperm_complete_iff (b : Buffers o) (written : Outcome) (currentTime : Nat)
    {rs : List EdgeRecord} (hsrc : ∀ r ∈ rs, r.src < invalidVertexId) :
    (rs.map (slots o.propertyLengths)).Subperm
        (((writeAll b currentTime rs).files.filter (isComplete written)).flatMap
          (OutputFile.records o.propertyLengths)) ↔
      Written o rs ∧ CallsSucceed b written currentTime rs := by
  have hsub : (((writeAll b currentTime rs).files.filter (isComplete written)).flatMap
      (OutputFile.records o.propertyLengths)).Sublist ((writeAll b currentTime rs).files.flatMap
        (OutputFile.records o.propertyLengths)) :=
    List.filter_sublist.flatMap _
  rcases records_writeAll b currentTime hsrc with ⟨hwritten, heq⟩ | ⟨hlost, hlt⟩
  · have hfiles : List.Forall₂ (IsFile b) (writeAll b currentTime rs).files (cut o rs) := by
      rcases files_writeAll b currentTime rs with ⟨hlost, -⟩ | ⟨-, hfiles⟩
      · exact absurd hlost hwritten.2
      · exact hfiles
    rw [← isComplete_iff_callsSucceed written hfiles, ← heq]
    constructor
    · intro hperm
      refine ⟨hwritten, fun f hf => ?_⟩
      have hsame := hsub.eq_of_length_le hperm.length_le
      have hall : ∀ f ∈ (writeAll b currentTime rs).files, isComplete written f = false →
          f.records o.propertyLengths = [] :=
        Lib.flatMap_sublist_filter_iff.mp (by rw [hsame])
      cases hcomplete : isComplete written f with
      | true => rfl
      | false => exact absurd (hall f hf hcomplete) (records_ne_nil hwritten hsrc hfiles f hf)
    · rintro ⟨-, hcomplete⟩
      rw [List.filter_eq_self.mpr hcomplete]
  · refine iff_of_false (fun hperm => ?_) fun h => hlost h.1
    have hle := hperm.length_le
    rw [List.length_map] at hle
    exact Nat.lt_irrefl _ (Nat.lt_of_le_of_lt (Nat.le_trans hle hsub.length_le) hlt)

/-- The records of the inputs that a compaction retires are all in completely written output files
just when the inputs are only moved, or the writer loses no record and every call writes all its
bytes. -/
theorem retired_inputs_are_completely_written_iff (b : Buffers o) (written : Outcome)
    (currentTime level : Nat) (inputs0 inputs1 : List SSTable) :
    (((backgroundCompaction b currentTime level inputs0 inputs1).retired.flatMap
          SSTable.records).map (slots o.propertyLengths)).Subperm
        (((backgroundCompaction b currentTime level inputs0 inputs1).files.filter
          (isComplete written)).flatMap (OutputFile.records o.propertyLengths)) ↔
      (level ≠ 0 ∧ inputs1 = []) ∨
        Written o (mergeInputs level inputs0 inputs1) ∧
          CallsSucceed b written currentTime (mergeInputs level inputs0 inputs1) := by
  unfold backgroundCompaction
  by_cases hmove : level ≠ 0 ∧ inputs1.isEmpty
  · rw [if_pos hmove]
    exact iff_of_true (List.Subperm.refl _) (Or.inl ⟨hmove.1, List.isEmpty_iff.mp hmove.2⟩)
  · rw [if_neg hmove, ← ((mergeInputs_perm level inputs0 inputs1).map _).subperm_right,
      subperm_complete_iff b written currentTime (mergeInputs_src_lt level inputs0 inputs1)]
    exact ⟨Or.inr, fun h => h.resolve_left fun h => hmove ⟨h.1, List.isEmpty_iff.mpr h.2⟩⟩

/-- A file with one record. -/
def oneRecord : SSTable :=
  { timeStamp := 1, records := [edgeTo 2 1], nonempty := by decide, sorted := by simp
    src_lt := by decide }

/-- The bodies of the output file do not get to the disk. -/
def bodiesFail : Outcome := fun _ d k => if d = .edges ∧ k = 0 then 0 else 1000

/-- No call for the bodies succeeds, and the input is retired all the same. -/
theorem an_input_is_retired_without_its_records :
    let c := backgroundCompaction sourceBuffers 7 0 [oneRecord] []
    c.retired.map SSTable.timeStamp = [1] ∧ c.files.map OutputFile.timeStamp = [7] ∧
      c.files.filter (isComplete bodiesFail) = [] := by
  decide +kernel

/-! ## The records that a compaction of level 0 leaves -/

/-- What the writer loses is what `compactLevel0` leaves unwritten. -/
theorem lostAtEnd_ne_nil_iff {n : Nat} {rs : List EdgeRecord} (hn : rs.length ≤ n)
    (hsrc : ∀ r ∈ rs, r.src < invalidVertexId) :
    Store.lostAtEnd o n rs ≠ [] ↔ lastIsLost o rs := by
  induction n generalizing rs with
  | zero =>
    rw [List.length_eq_zero_iff.mp (Nat.le_zero.mp hn)]
    simp [Store.lostAtEnd, lastIsLost, cut, cutFrom]
  | succ n ih =>
    by_cases hne : rs = []
    · simp [hne, Store.lostAtEnd, takeFile, lastIsLost, cut, cutFrom]
    · have happend := takeFile_append o.maxEFileSize 0 0 none rs
      have hfirst : (takeFile o.maxEFileSize 0 0 none rs).1 ≠ [] := takeFile_ne_nil hne
      rw [lastIsLost_takeFile hne hsrc, Store.lostAtEnd]
      generalize takeFile o.maxEFileSize 0 0 none rs = out at *
      have hlen := congrArg List.length happend
      rw [List.length_append] at hlen
      have hpos := List.length_pos_of_ne_nil hfirst
      have hrest : Store.lostAtEnd o n out.2 ≠ [] ↔ lastIsLost o out.2 :=
        ih (by omega) fun r hr => hsrc r (happend ▸ List.mem_append_right _ hr)
      cases hout : out.2 with
      | nil =>
        by_cases hmod : out.1.length % (o.bodyBufferSize - 1) = 0 <;>
          simp [hmod, hfirst, lastIsLost, cut, cutFrom]
      | cons r rest =>
        rw [hout] at hrest
        simpa [hout] using hrest

end CompactionWrites

end RichGraph
