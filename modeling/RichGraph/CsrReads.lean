-- `GetEdge` and `LocateEdge` side by side, with the levels or with the snapshot
-- of the CSR mode behind the memtables. An update is bound to the record that
-- `LocateEdge` names, so it has to be the record from which `GetEdge` answers.
import RichGraph.Csr
import RichGraph.FlushOrder

namespace RichGraph

namespace Store

variable {o : Options} {s : Store} {k : EdgeKey}

/-- What is asked after the memtables. -/
inductive DiskLayout where
  | lsm
  /-- `use_csr_disk_`, of a shard with some property columns -/
  | csr (c : CsrOptions) (propertyNum : Nat) (snapshot : Option CsrReadSnapshot)

/-- A read in the snapshot tests its column. -/
def DiskLayout.Reads : DiskLayout → Nat → Prop
  | .lsm, _ => True
  | .csr _ propertyNum _, propertyId => propertyId < propertyNum

/-- The record from which `GetEdge` answers. -/
def findForGetIn (d : DiskLayout) (s : Store) (k : EdgeKey) : Option Found :=
  match d with
  | .lsm => s.findForGet k
  | .csr c _ snapshot => (s.findEdgeInMemtable k).or (findEdgeInCsrDisk c snapshot k)

/-- The record that `LocateEdge` reports. -/
def findForLocateIn (d : DiskLayout) (s : Store) (k : EdgeKey) : Option Found :=
  match d with
  | .lsm => s.findForLocate k
  | .csr c _ snapshot => (s.findEdgeInMemtable k).or (findEdgeSeqInCsrDisk c snapshot k.src k.dst)

def Found.fid (x : Found) : Nat := x.location.targetId

@[simp] theorem Found.location_sequence (x : Found) : x.location.sequence = x.sequence := by
  cases x <;> rfl

/-- `LSMStore::GetEdge` with a layout. -/
def getEdgeIn (d : DiskLayout) (s : Store) (deltas : DeltaLookup) (k : EdgeKey)
    (propertyId : Nat) : Except Status Bytes :=
  match d, s.findEdgeInMemtable k with
  | .csr c propertyNum snapshot, none => csrAnswer c propertyNum snapshot deltas k propertyId
  | _, _ => answer deltas k propertyId (s.findForGetIn d k)

/-- `LSMStore::LocateEdge` with a layout. -/
def locateEdgeIn (d : DiskLayout) (s : Store) (k : EdgeKey) : Status × Location :=
  locate (s.findForLocateIn d k)

theorem getEdgeIn_eq {d : DiskLayout} {propertyId : Nat} (h : d.Reads propertyId)
    (deltas : DeltaLookup) :
    s.getEdgeIn d deltas k propertyId = answer deltas k propertyId (s.findForGetIn d k) := by
  cases d with
  | lsm => rfl
  | csr c propertyNum snapshot =>
    unfold getEdgeIn
    split
    · rename_i heq hmem
      cases heq
      have h : propertyId < propertyNum := h
      rw [csrAnswer, if_pos h, findForGetIn, hmem, Option.none_or]
    · rfl

/-- `LocateEdge` gives `kOk` just when `GetEdge` does, and then it names the record that
`GetEdge` reads. -/
structure Agree (d : DiskLayout) (s : Store) (k : EdgeKey) : Prop where
  ok : ∀ deltas propertyId, d.Reads propertyId →
    ((∃ value, s.getEdgeIn d deltas k propertyId = .ok value) ↔ (s.locateEdgeIn d k).1 = .kOk)
  same : ∀ loc, s.locateEdgeIn d k = (.kOk, loc) →
    ∀ x, s.findForGetIn d k = some x → x.fid = loc.targetId ∧ x.sequence = loc.sequence

theorem answer_ok_iff {deltas : DeltaLookup} {propertyId : Nat} {found : Option Found} :
    (∃ value, answer deltas k propertyId found = .ok value) ↔
      ∃ x, found = some x ∧ x.marker = false := by
  cases found with
  | none => simp [answer]
  | some x => cases hm : x.marker <;> simp [answer, hm]

theorem locateEdgeIn_iff {d : DiskLayout} {fid sequence : Nat} :
    (∃ loc, s.locateEdgeIn d k = (.kOk, loc) ∧ loc.targetId = fid ∧ loc.sequence = sequence) ↔
      ∃ x, s.findForLocateIn d k = some x ∧ x.marker = false ∧ x.fid = fid ∧
        x.sequence = sequence := by
  unfold locateEdgeIn
  cases s.findForLocateIn d k with
  | none => simp [locate]
  | some x => cases hm : x.marker <;> simp [locate, hm, Found.fid]

/-- The two agree just when they find the same live record, or none. -/
theorem agree_iff {d : DiskLayout} (h0 : d.Reads 0) : Agree d s k ↔
    ∀ fid sequence, (∃ x, s.findForGetIn d k = some x ∧ x.marker = false ∧ x.fid = fid ∧
        x.sequence = sequence) ↔
      ∃ x, s.findForLocateIn d k = some x ∧ x.marker = false ∧ x.fid = fid ∧
        x.sequence = sequence := by
  simp only [← locateEdgeIn_iff]
  constructor
  · intro h fid sequence
    have hok := h.ok noDeltas 0 h0
    rw [getEdgeIn_eq h0, answer_ok_iff] at hok
    constructor
    · rintro ⟨x, hx, hm, rfl, rfl⟩
      have hloc : s.locateEdgeIn d k = (.kOk, (s.locateEdgeIn d k).2) :=
        Prod.ext (hok.mp ⟨x, hx, hm⟩) rfl
      obtain ⟨hfid, hseq⟩ := h.same _ hloc x hx
      exact ⟨_, hloc, hfid.symm, hseq.symm⟩
    · rintro ⟨loc, hloc, rfl, rfl⟩
      obtain ⟨x, hx, hm⟩ := hok.mpr (congrArg Prod.fst hloc)
      exact ⟨x, hx, hm, h.same loc hloc x hx⟩
  · intro h
    refine ⟨fun deltas propertyId hreads => ?_, fun loc hloc x hx => ?_⟩
    · rw [getEdgeIn_eq hreads, answer_ok_iff]
      constructor
      · rintro ⟨x, hx, hm⟩
        obtain ⟨loc, hloc, -⟩ := (h x.fid x.sequence).mp ⟨x, hx, hm, rfl, rfl⟩
        exact congrArg Prod.fst hloc
      · intro hloc
        obtain ⟨x, hx, hm, -⟩ := (h _ _).mpr ⟨(s.locateEdgeIn d k).2, Prod.ext hloc rfl, rfl, rfl⟩
        exact ⟨x, hx, hm⟩
    · obtain ⟨y, hy, -, hsame⟩ := (h loc.targetId loc.sequence).mpr ⟨loc, hloc, rfl, rfl⟩
      rw [hx] at hy
      cases hy
      exact hsame

/-! ## The levels -/

/-- While no compaction runs, and nothing is hidden, the watermark changes nothing. -/
theorem findForLocate_eq (h : Scanned o s) (hj : s.job = none) (k : EdgeKey) :
    s.findForLocate k = s.findForGet k := by
  unfold findForLocate findForGet
  rw [Lib.findSome?_filter_of_none]
  intro f hf hlow
  have hlow : f.timeStamp < (s.index k.src).minLevel0Fid := by simpa using hlow
  by_contra hfound
  have hhas : f.Has k.src := by
    apply has_of_holdsKey (k := k)
    by_contra hnot
    have hnone := (newest_findInFile (o := o) (k := k) f).none_iff.mpr hnot
    exact hfound (Option.map_eq_none_iff.mp hnone)
  have hpicked := ((h.shown.hidden_iff k.src f hf hhas).mp hlow).1
  rw [picked0_of_no_job hj] at hpicked
  cases hpicked

/-! ## The snapshot -/

variable {c : CsrOptions} {snapshot : Option CsrReadSnapshot}

/-- A lookup among the bodies of a source that finds only live records names the file of the
entry and the sequence of the record. -/
theorem found_in_entry_iff (lookup : List EdgeRecord → Option EdgeRecord) {src : Nat}
    (hlive : ∀ r, lookup (csrRecordsOf c snapshot src) = some r → r.marker = false)
    (fid sequence : Nat) :
    (∃ x, ((findCsrIndexEntry c snapshot src).bind fun e =>
          (lookup (e.1.slice e.2.1 e.2.2)).map (Found.inFile e.1.timeStamp)) = some x ∧
        x.marker = false ∧ x.fid = fid ∧ x.sequence = sequence) ↔
      ∃ e, findCsrIndexEntry c snapshot src = some e ∧ e.1.timeStamp = fid ∧
        (lookup (csrRecordsOf c snapshot src)).map EdgeRecord.seq = some sequence := by
  unfold csrRecordsOf at *
  generalize findCsrIndexEntry c snapshot src = entry at *
  cases entry with
  | none => simp
  | some e =>
    simp only [Option.bind_some, Option.map_some, Option.getD_some] at *
    cases hfound : lookup (e.1.slice e.2.1 e.2.2) with
    | none => simp
    | some r => simp [Found.marker, Found.fid, Found.location, Found.sequence, hlive r hfound]

/-- The first record of a destination. -/
def firstOf (dst : Nat) (bodies : List EdgeRecord) : Option EdgeRecord :=
  (bodies.drop (Lib.lowerBound (fun r => decide (dst ≤ r.dst)) bodies bodies.length 0
    bodies.length)).head?.filter fun r => r.dst = dst

/-- The first record of a destination is its newest one, whatever its direction and type. -/
theorem newest_firstOf {bodies : List EdgeRecord} {src dst : Nat}
    (hsrc : ∀ r ∈ bodies, r.src = src) (hs : bodies.Pairwise EdgeRecord.le) :
    Lib.Newest EdgeRecord.dst EdgeRecord.seq bodies dst (firstOf dst bodies) := by
  have hkey : ∀ r ∈ bodies, r.dst = dst ↔ r.dst = dst ∧ (fun _ : EdgeRecord => true) r = true := by
    simp
  have hnewest := newest_from_lowerBound hkey hsrc hs
  have hhead : ∀ l : List EdgeRecord, l.find? (fun _ => true) = l.head? := by
    rintro (_ | _) <;> simp
  unfold firstOf
  rwa [hhead, List.head?_takeWhile] at hnewest

/-- The newest record of a key is as new as the newest of its destination just when no record of
the destination is newer than those of the key. -/
theorem seq_eq_iff {es : List EdgeRecord} {r r' : Option EdgeRecord} (hkey : NewestOf k es r)
    (hdst : Lib.Newest EdgeRecord.dst EdgeRecord.seq es k.dst r') :
    r.map EdgeRecord.seq = r'.map EdgeRecord.seq ↔
      ∀ x ∈ es, x.dst = k.dst → ∃ y ∈ es, y.key = k ∧ x.seq ≤ y.seq := by
  have hof : ∀ y : EdgeRecord, y.key = k → y.dst = k.dst := fun y hy => congrArg EdgeKey.dst hy
  constructor
  · intro heq x hx hxd
    cases r' with
    | none => exact absurd hxd (hdst x hx)
    | some z =>
      obtain ⟨y, rfl, hseq⟩ := Option.map_eq_some_iff.mp heq
      exact ⟨y, hkey.1, hkey.2.1, hseq ▸ hdst.2.2 x hx hxd⟩
  · intro hall
    cases r' with
    | none =>
      have hnone : r = none :=
        hkey.none_iff.mpr fun ⟨y, hy, hyk⟩ => hdst y hy (hof y hyk)
      rw [hnone, Option.map_none]
    | some z =>
      obtain ⟨y, hy, hyk, hle⟩ := hall z hdst.1 hdst.2.1
      cases r with
      | none => exact absurd hyk (hkey y hy)
      | some x =>
        have hxy := hkey.2.2 y hy hyk
        have hzx := hdst.2.2 x hkey.1 (hof x hkey.2.1)
        rw [Option.map_some, Option.map_some, Nat.le_antisymm hzx (hle.trans hxy)]

theorem csrRecordsOf_eq_nil {v : Nat} (hv : ¬ v < c.maxVertexNum) :
    csrRecordsOf c snapshot v = [] := by
  cases snapshot <;> simp [csrRecordsOf, findCsrIndexEntry, CsrReadSnapshot.srcIndex, hv]

/-- The records of a snapshot are live, and in order. -/
theorem csrRecordsOf_spec (c : CsrOptions) (alloc : Nat → Nat) (s : Store) (v : Nat) :
    (∀ r ∈ csrRecordsOf c (rebuildCsrFromVisibleSSTs c alloc s) v, r.src = v ∧ r.marker = false) ∧
      (csrRecordsOf c (rebuildCsrFromVisibleSSTs c alloc s) v).Pairwise EdgeRecord.le := by
  by_cases hv : v < c.maxVertexNum
  · rw [csrRecordsOf_rebuild alloc s hv]
    refine ⟨fun r hr => ⟨collected_src _ v r hr, ?_⟩, collected_sorted _ v⟩
    unfold collectSelectedEdgesForSrc at hr
    rw [List.mem_insertionSort] at hr
    simpa using (List.mem_filter.mp hr).2
  · simp [csrRecordsOf_eq_nil hv]

/-- No record of the destination of a key is newer than those of the key. -/
def NoneNewer (c : CsrOptions) (snapshot : Option CsrReadSnapshot) (k : EdgeKey) : Prop :=
  ∀ r ∈ csrRecordsOf c snapshot k.src, r.dst = k.dst →
    ∃ r' ∈ csrRecordsOf c snapshot k.src, r'.key = k ∧ r.seq ≤ r'.seq

instance (c : CsrOptions) (snapshot : Option CsrReadSnapshot) (k : EdgeKey) :
    Decidable (NoneNewer c snapshot k) :=
  inferInstanceAs (Decidable (∀ r ∈ csrRecordsOf c snapshot k.src, r.dst = k.dst →
    ∃ r' ∈ csrRecordsOf c snapshot k.src, r'.key = k ∧ r.seq ≤ r'.seq))

/-- Without a memtable that has the key, the two agree just when the sequences that they find in
the snapshot are the same. -/
theorem agree_csr_iff_seq_eq (c : CsrOptions) {n : Nat} (hn : 0 < n) (alloc : Nat → Nat)
    (s₀ : Store) (hmem : s.findEdgeInMemtable k = none) :
    Agree (.csr c n (rebuildCsrFromVisibleSSTs c alloc s₀)) s k ↔
      (findEdgeByDstDirectionAndType (csrRecordsOf c (rebuildCsrFromVisibleSSTs c alloc s₀) k.src)
          k.dst k.isOut k.edgeType).map EdgeRecord.seq =
        (firstOf k.dst (csrRecordsOf c (rebuildCsrFromVisibleSSTs c alloc s₀) k.src)).map
          EdgeRecord.seq := by
  obtain ⟨hrec, hsorted⟩ := csrRecordsOf_spec c alloc s₀ k.src
  generalize rebuildCsrFromVisibleSSTs c alloc s₀ = snapshot at *
  have hgetIn : ∀ fid sequence, (∃ x, findEdgeInCsrDisk c snapshot k = some x ∧
      x.marker = false ∧ x.fid = fid ∧ x.sequence = sequence) ↔ _ := found_in_entry_iff
    (fun bodies => findEdgeByDstDirectionAndType bodies k.dst k.isOut k.edgeType)
    fun r hr => (hrec r ((newest_findEdgeByDstDirectionAndType (k := k)
      (fun r hr => (hrec r hr).1) hsorted).mem hr)).2
  have hlocIn : ∀ fid sequence, (∃ x, findEdgeSeqInCsrDisk c snapshot k.src k.dst = some x ∧
      x.marker = false ∧ x.fid = fid ∧ x.sequence = sequence) ↔ _ := found_in_entry_iff
    (firstOf k.dst)
    fun r hr => (hrec r ((newest_firstOf (fun r hr => (hrec r hr).1) hsorted).mem hr)).2
  rw [agree_iff (d := .csr c n snapshot) hn]
  simp only [findForGetIn, findForLocateIn, hmem, Option.none_or, hgetIn, hlocIn]
  constructor
  · intro h
    cases hentry : findCsrIndexEntry c snapshot k.src with
    | none =>
      have hnil : csrRecordsOf c snapshot k.src = [] := by simp [csrRecordsOf, hentry]
      rw [hnil]
      rfl
    | some e =>
      ext sequence
      simpa [hentry] using h e.1.timeStamp sequence
  · intro heq fid sequence
    rw [heq]

/-- `LocateEdge` does not look at the direction and type in a snapshot. So it names the record of
`GetEdge` just when no record of the destination is newer than those of the key. -/
theorem agree_csr_iff (c : CsrOptions) {n : Nat} (hn : 0 < n) (alloc : Nat → Nat) (s₀ s : Store)
    (k : EdgeKey) :
    Agree (.csr c n (rebuildCsrFromVisibleSSTs c alloc s₀)) s k ↔
      (∃ t ∈ s.menTables, (t.get k).isSome) ∨
        NoneNewer c (rebuildCsrFromVisibleSSTs c alloc s₀) k := by
  cases hmem : s.findEdgeInMemtable k with
  | some x =>
    obtain ⟨t, ht, hx⟩ := List.exists_of_findSome?_eq_some hmem
    obtain ⟨e, he, -⟩ := Option.map_eq_some_iff.mp hx
    have htable : ∃ t ∈ s.menTables, (t.get k).isSome := ⟨t, ht, by simp [he]⟩
    rw [agree_iff (d := .csr c n _) hn]
    simp [findForGetIn, findForLocateIn, hmem, htable]
  | none =>
    have htable : ¬ ∃ t ∈ s.menTables, (t.get k).isSome := by
      rintro ⟨t, ht, hsome⟩
      have := List.findSome?_eq_none_iff.mp hmem t ht
      simp_all
    obtain ⟨hrec, hsorted⟩ := csrRecordsOf_spec c alloc s₀ k.src
    rw [agree_csr_iff_seq_eq c hn alloc s₀ hmem, or_iff_right htable]
    exact seq_eq_iff (newest_findEdgeByDstDirectionAndType (fun r hr => (hrec r hr).1) hsorted)
      (newest_firstOf (fun r hr => (hrec r hr).1) hsorted)

/-- Over the levels, in every run whose steps lose no file and hide nothing: while no compaction
runs, `LocateEdge` agrees with `GetEdge` on every key. Over the snapshot of a rebuild it does just
when a memtable has the key, or no record of the destination in the snapshot is newer than those
of the key. -/
theorem locate_edge_names_the_record_of_get_edge (o : Options) :
    (∀ s, Lib.Reach (step o) (HidesNothing o) (initial o) s → s.job = none →
      ∀ k, Agree .lsm s k) ∧
    ∀ (c : CsrOptions) (n : Nat), 0 < n → ∀ (alloc : Nat → Nat) (s₀ s : Store) (k : EdgeKey),
      Agree (.csr c n (rebuildCsrFromVisibleSSTs c alloc s₀)) s k ↔
        (∃ t ∈ s.menTables, (t.get k).isSome) ∨
          NoneNewer c (rebuildCsrFromVisibleSSTs c alloc s₀) k := by
  refine ⟨fun s hs hj k => ?_, fun c _ => agree_csr_iff c⟩
  rw [agree_iff (d := .lsm) trivial]
  have hsame : s.findForLocateIn .lsm k = s.findForGetIn .lsm k :=
    findForLocate_eq (scanned_of_reach hs) hj k
  simp [hsame]

/-- The two edges of a pair of vertices, flushed one after the other. -/
def bothDirections : List Action :=
  [.putEdge 1 2 (bytes "a") .kSingle false 0, .publish 0, putOneTwo (bytes "b"), .publish 1]

theorem locate_edge_names_the_record_of_an_out_edge :
    ∃ s, (Lib.Reach (step smallStore) (HidesNothing smallStore) (initial smallStore) s ∧
        s.job.isNone ∧ s.locateEdge ⟨1, 2, true, 0⟩ = (.kOk, ⟨false, 1, 1⟩)) ∧
      (∀ k, Agree .lsm s k) ∧
      Agree (.csr smallCsr 1 (rebuildCsrFromVisibleSSTs smallCsr (· + 9) s)) s
        ⟨1, 2, true, 0⟩ := by
  obtain ⟨s, hs, hjob, hloc, hnewer⟩ := Lib.exists_reach_of_run (step smallStore)
    (HidesNothing smallStore) (initial smallStore) bothDirections
    (fun s => s.job.isNone ∧ s.locateEdge ⟨1, 2, true, 0⟩ = (.kOk, ⟨false, 1, 1⟩) ∧
      NoneNewer smallCsr (rebuildCsrFromVisibleSSTs smallCsr (· + 9) s) ⟨1, 2, true, 0⟩)
    (by decide +kernel)
  obtain ⟨hlsm, hcsr⟩ := locate_edge_names_the_record_of_get_edge smallStore
  exact ⟨s, ⟨hs, hjob, hloc⟩, hlsm s hs (Option.isNone_iff_eq_none.mp hjob),
    (hcsr smallCsr 1 (by decide) (· + 9) s s ⟨1, 2, true, 0⟩).mpr (Or.inr hnewer)⟩

/-- A file that is published below the watermark is read by `GetEdge` only. And in a snapshot with
the in-edge of a pair, `LocateEdge` finds it for the out-edge that was never put. -/
theorem locate_edge_differs_from_get_edge :
    (∃ s, Lib.Reach (step smallStore) (OrderedStep smallStore) (initial smallStore) s ∧
      s.job.isNone ∧ ¬ Agree .lsm s ⟨1, 2, true, 0⟩) ∧
    ∃ s, Lib.Reach (step smallStore) (ShownStep smallStore) (initial smallStore) s ∧
      s.job.isNone ∧
      ¬ Agree (.csr smallCsr 1 (rebuildCsrFromVisibleSSTs smallCsr (· + 9) s)) s
        ⟨1, 2, true, 0⟩ := by
  constructor
  · obtain ⟨s, hs, hjob, hget, hloc⟩ := Lib.exists_reach_of_run (step smallStore)
      (OrderedStep smallStore) (initial smallStore)
      [putOneTwo (bytes "a"), .putEdge 1 3 (bytes "b") .kSingle true 0, .publish 1, .pick 0,
        .writeEnd, .finish, .publish 0]
      (fun s => s.job.isNone ∧ s.getEdgeIn .lsm noDeltas ⟨1, 2, true, 0⟩ 0 = .ok (bytes "a") ∧
        (s.locateEdgeIn .lsm ⟨1, 2, true, 0⟩).1 ≠ .kOk) (by decide +kernel)
    exact ⟨s, hs, hjob, fun h => hloc ((h.ok noDeltas 0 trivial).mp ⟨_, hget⟩)⟩
  · obtain ⟨s, hs, hjob, hget, hloc⟩ := Lib.exists_reach_of_run (step smallStore)
      (ShownStep smallStore) (initial smallStore)
      [.putEdge 1 2 (bytes "a") .kSingle false 0, .publish 0]
      (fun s => s.job.isNone ∧
        s.getEdgeIn (.csr smallCsr 1 (rebuildCsrFromVisibleSSTs smallCsr (· + 9) s)) noDeltas
          ⟨1, 2, true, 0⟩ 0 = .error .kNotFound ∧
        s.locateEdgeIn (.csr smallCsr 1 (rebuildCsrFromVisibleSSTs smallCsr (· + 9) s))
          ⟨1, 2, true, 0⟩ = (.kOk, ⟨false, 9, 0⟩)) (by decide +kernel)
    refine ⟨s, hs, hjob, fun h => ?_⟩
    obtain ⟨value, hvalue⟩ := (h.ok noDeltas 0 Nat.zero_lt_one).mpr (congrArg Prod.fst hloc)
    rw [hget] at hvalue
    cases hvalue

end Store

end RichGraph
