-- `GetEdge` and `ScanEdges` on several shards. `GetEdge` asks each shard for its
-- newest record; `ScanEdges` joins the shards on destination and sequence. They
-- agree when every put writes all the shards that are read, or none of them.
import RichGraph.ScanJoins
import RichGraph.Lib.Lists

namespace RichGraph

open Store PropertyUpdateManager

/-! ## One store: what a lookup finds is visited by a scan -/

namespace Store

variable {o : Options} {s s' : Store} {v : Nat} {k : EdgeKey} {deltas : DeltaLookup}

theorem mem_scanFound_table (h : LevelsReached s) {t : MemTable} (ht : t ∈ s.menTables) {e : Edge}
    (he : e ∈ (t.adj v).edges) : Found.inMemtable t.fid e ∈ (s.scanFound v).flatten := by
  have hsome : (t.vertexAdjs.lookup v).isSome := by
    by_contra hnone
    rw [MemTable.adj_eq_empty_of_lookup (by simpa using hnone)] at he
    cases he
  have hlevel := h.tables t ht v hsome
  unfold scanFound
  rw [if_neg (by omega), List.flatten_append, List.flatten_append, List.mem_append,
    List.mem_append]
  exact Or.inl (Or.inl (List.mem_flatten.mpr
    ⟨_, List.mem_map_of_mem ht, List.mem_map_of_mem he⟩))

theorem mem_scanFound_level0 (h : LevelsReached s) {f : SSTable} (hf : f ∈ s.level0)
    (hmin : (s.index v).minLevel0Fid ≤ f.timeStamp) {r : EdgeRecord} (hr : r ∈ f.recordsOf v) :
    Found.inFile f.timeStamp r ∈ (s.scanFound v).flatten := by
  have hlevel := h.level0 f hf v (SSTable.mem_recordsOf_has hr)
  obtain ⟨hrec, hsrc⟩ := SSTable.mem_recordsOf.mp hr
  have h1 := SSTable.minKey_le hrec
  have h2 := SSTable.le_maxKey hrec
  have hpass : f ∈ s.level0.filter fun f => (s.index v).minLevel0Fid ≤ f.timeStamp ∧
      v ≤ f.maxKey ∧ f.minKey ≤ v :=
    List.mem_filter.mpr ⟨hf, decide_eq_true ⟨hmin, by omega, by omega⟩⟩
  unfold scanFound
  rw [if_neg (by omega), List.flatten_append, List.flatten_append, List.mem_append,
    List.mem_append, if_pos hlevel]
  refine Or.inl (Or.inr (List.mem_flatten.mpr ⟨_, List.mem_map_of_mem hpass, ?_⟩))
  rw [offsets_slice]
  exact List.mem_map_of_mem hr

theorem mem_scanFound_slot (h : LevelsReached s) {l : Nat} {r : EdgeRecord}
    (hr : r ∈ s.sliceAt v l) :
    Found.inFile ((s.index v).levels l).fileID r ∈ (s.scanFound v).flatten := by
  have hlevel := h.le_of_sliceAt (List.ne_nil_of_mem hr)
  unfold scanFound
  rw [if_neg (by omega), List.flatten_append, List.flatten_append, List.mem_append,
    List.mem_append, if_pos (by omega), if_pos (by omega)]
  have hrange : l ∈ List.range (s.vertexMaxLevel v - 1).toNat := List.mem_range.mpr (by omega)
  exact Or.inr (List.mem_flatten.mpr ⟨_, List.mem_map_of_mem hrange, List.mem_map_of_mem hr⟩)

theorem scanFound_records (h : Scanned o s) :
    ((s.scanFound v).flatten.map (Found.record o.propertyLengths v)).Perm (s.written o v) := by
  rw [List.map_flatten]
  exact (List.Perm.of_eq (scanSources_flatten h.levels)).trans (h.visible v)

theorem written_nodup (h : Tracked o s) (v : Nat) : (s.written o v).Nodup := by
  unfold written
  rw [List.Nodup, List.pairwise_map]
  refine (h.history_newer.filter _).imp_of_mem ?_
  intro p q hp hq hpq heq
  have hp : p.1 = v := of_decide_eq_true (List.mem_filter.mp hp).2
  have hq : q.1 = v := of_decide_eq_true (List.mem_filter.mp hq).2
  simp only [Edge.toRecord, EdgeRecord.mk.injEq] at heq
  obtain ⟨-, hdst, hseq, -, -, hout, htype⟩ := heq
  have := hpq (by unfold putKey; rw [hp, hq, hdst, hout, htype])
  omega

/-- A scan visits a record once. -/
theorem scanFound_inj (h : Scanned o s) {x z : Found} (hx : x ∈ (s.scanFound v).flatten)
    (hz : z ∈ (s.scanFound v).flatten)
    (heq : x.record o.propertyLengths v = z.record o.propertyLengths v) : x = z :=
  List.inj_on_of_nodup_map ((scanFound_records h).nodup_iff.mpr (written_nodup h.tracked v)) hx hz
    heq

/-- A scan visits every record that was put. -/
theorem exists_visit (h : Scanned o s) {e : Edge} (he : (v, e) ∈ s.history) :
    ∃ z ∈ (s.scanFound v).flatten, z.record o.propertyLengths v = e.toRecord o.propertyLengths v :=
  List.mem_map.mp ((scanFound_records h).mem_iff.mpr (mem_written.mpr ⟨e, he, rfl⟩))

/-- A file of level 0 that is merged for a vertex, and the file that took its records, give a
record the same deltas. -/
def CopiesAgree (s : Store) (deltas : DeltaLookup) : Prop :=
  ∀ v, ∀ f ∈ s.level0, f.timeStamp < (s.index v).minLevel0Fid → ∀ r ∈ f.recordsOf v,
    r ∈ s.sliceAt v 0 → ∀ propertyId,
      deltas f.timeStamp r.key r.seq propertyId =
        deltas ((s.index v).levels 0).fileID r.key r.seq propertyId

/-- Without a compaction no file is hidden, so there are no copies. -/
theorem copiesAgree_of_no_job (h : Scanned o s) (hj : s.job = none) (deltas : DeltaLookup) :
    CopiesAgree s deltas := by
  intro v f hf hmin r hr
  exact absurd hmin (shown_of_no_job h.shown hj hf (SSTable.mem_recordsOf_has hr))

/-- A record that `GetEdge` finds in a hidden file is in the first slot too. -/
theorem hidden_in_slot (h : Scanned o s) {f : SSTable} (hf : f ∈ s.level0)
    (hmin : f.timeStamp < (s.index v).minLevel0Fid) {r : EdgeRecord} (hr : r ∈ f.recordsOf v) :
    r ∈ s.sliceAt v 0 := by
  obtain ⟨hpick, hdone⟩ := (h.shown.hidden_iff v f hf (SSTable.mem_recordsOf_has hr)).mp hmin
  obtain ⟨j, hj, h0, hin⟩ := mem_picked0.mp hpick
  exact h.tracked.merged j hj h0 v (fun hp => hdone ⟨j, hj, hp⟩) f hin r hr

theorem findInFile_eq_some (o : Options) {f : SSTable} {x : Found} (h : findInFile k f = some x) :
    ∃ r ∈ f.recordsOf k.src, r.key = k ∧ x = .inFile f.timeStamp r := by
  have hnewest := newest_findInFile (o := o) (k := k) f
  rw [h] at hnewest
  unfold findInFile at h
  split at h
  · obtain ⟨p, -, hp⟩ := Option.bind_eq_some_iff.mp h
    obtain ⟨r, -, rfl⟩ := Option.map_eq_some_iff.mp hp
    exact ⟨r, hnewest.1, hnewest.2.1, rfl⟩
  · cases h

/-- `GetEdge` answers with the value that a scan gives to the record. -/
theorem property_of_findForGet (h : Scanned o s) (hc : CopiesAgree s deltas) {x z : Found}
    (hx : s.findForGet k = some x) (hz : z ∈ (s.scanFound k.src).flatten)
    (heq : x.record o.propertyLengths k.src = z.record o.propertyLengths k.src)
    (propertyId : Nat) : x.property deltas k propertyId = z.property deltas k propertyId := by
  have hsame : x ∈ (s.scanFound k.src).flatten →
      x.property deltas k propertyId = z.property deltas k propertyId :=
    fun hvisit => by rw [scanFound_inj h hvisit hz heq]
  unfold findForGet at hx
  rcases Option.or_eq_some_iff.mp hx with hx | ⟨-, hx⟩
  · obtain ⟨t, ht, hget⟩ := List.exists_of_findSome?_eq_some hx
    obtain ⟨e, he, rfl⟩ := Option.map_eq_some_iff.mp hget
    exact hsame (mem_scanFound_table h.levels ht (NewEdgeSL.mem_edges_of_get he))
  rcases Option.or_eq_some_iff.mp hx with hx | ⟨-, hx⟩
  · obtain ⟨f, hf, hfind⟩ := List.exists_of_findSome?_eq_some hx
    obtain ⟨r, hr, hkey, rfl⟩ := findInFile_eq_some o hfind
    by_cases hmin : (s.index k.src).minLevel0Fid ≤ f.timeStamp
    · exact hsame (mem_scanFound_level0 h.levels hf hmin hr)
    · -- The scan reads the copy in the first slot.
      have hslot := hidden_in_slot h hf (by omega) hr
      have hz' : z = .inFile ((s.index k.src).levels 0).fileID r :=
        (scanFound_inj h (mem_scanFound_slot h.levels hslot) hz heq).symm
      subst hz'
      have hdelta := hc k.src f hf (by omega) r hr hslot propertyId
      rw [hkey] at hdelta
      simp only [Found.property, hdelta]
  · unfold findEdgeByLevelindex at hx
    obtain ⟨l, hl, hfind⟩ := List.exists_of_findSome?_eq_some hx
    obtain ⟨r, hr, rfl⟩ := Option.map_eq_some_iff.mp hfind
    have hl := List.mem_range.mp hl
    have hnewest := newest_sliceAt (k := k) h.wf hl
    rw [hr] at hnewest
    exact hsame (mem_scanFound_slot h.levels hnewest.1)

/-- What `GetEdge` finds is the last put of the key. -/
theorem findForGet_is_lastPut (h : InOrder o s) (k : EdgeKey) :
    (s.findForGet k = none ∧ s.lastPut k = none) ∨ ∃ e, s.lastPut k = some (k.src, e) ∧
      ((∃ fid, s.findForGet k = some (.inMemtable fid e)) ∨
        ∃ fid, s.findForGet k = some (.inFile fid (e.toRecord o.propertyLengths k.src))) :=
  found_is_lastPut h.tracked (fun _ => mem_contents_iff h.tracked)
    (fun _ _ hf => mem_history_of_memtable h.tracked (fun _ _ => disk_ne_inMemtable) hf)
    (newest_findForGet h k)

/-- A value that `GetEdge` answers is the value of the last put, as a scan visits it. -/
theorem visit_of_getEdge (h : AllShown o s) (hc : CopiesAgree s deltas) {propertyId : Nat}
    {value : Bytes} (hget : s.getEdge deltas k propertyId = .ok value) :
    ∃ e, s.lastPut k = some (k.src, e) ∧ e.marker = false ∧
      ∃ z ∈ (s.scanFound k.src).flatten,
        z.record o.propertyLengths k.src = e.toRecord o.propertyLengths k.src ∧
          value = z.property deltas k propertyId := by
  unfold getEdge at hget
  have hfind := findForGet_is_lastPut h.order k
  rcases hfind with ⟨hnone, -⟩ | ⟨e, hlast, hfound⟩
  · rw [hnone] at hget
    cases hget
  have hmem : (k.src, e) ∈ s.history := by
    have := newest_lastPut h.tracked k
    rw [hlast] at this
    exact this.1
  obtain ⟨z, hz, hrec⟩ := exists_visit h.toScanned hmem
  obtain ⟨x, hx, hxrec, hxm⟩ : ∃ x, s.findForGet k = some x ∧
      x.record o.propertyLengths k.src = e.toRecord o.propertyLengths k.src ∧
      x.marker = e.marker := by
    rcases hfound with ⟨fid, hf⟩ | ⟨fid, hf⟩
    · exact ⟨_, hf, rfl, rfl⟩
    · exact ⟨_, hf, rfl, rfl⟩
  rw [hx, answer, hxm] at hget
  cases hm : e.marker
  · rw [hm] at hget
    cases hget
    exact ⟨e, hlast, hm, z, hz, hrec,
      property_of_findForGet h.toScanned hc hx hz (hxrec.trans hrec.symm) propertyId⟩
  · rw [hm] at hget
    cases hget

/-- What a scan keeps of a visited record that is not a tombstone. -/
theorem mem_scannedRecords {src : Nat} {e : Edge} {z : Found} (deltas : DeltaLookup)
    (buffered : BufferedPropertySnapshot) (propertyId : Nat) (hz : z ∈ (s.scanFound src).flatten)
    (hrec : z.record o.propertyLengths src = e.toRecord o.propertyLengths src)
    (hm : e.marker = false) :
    ⟨⟨e.destination, e.sequence⟩, (buffered ⟨e.destination, e.sequence⟩).getD
        (z.property deltas ⟨src, e.destination, e.isOut, e.edgeType⟩ propertyId)⟩ ∈
      scannedRecords s deltas buffered src propertyId e.isOut e.edgeType := by
  have hversion : z.version = ⟨e.destination, e.sequence⟩ := by
    have h1 := congrArg EdgeRecord.dst hrec
    have h2 := congrArg EdgeRecord.seq hrec
    cases z <;> exact EdgeVersionKey.mk.injEq .. ▸ ⟨h1, h2⟩
  have hkey : z.key src = ⟨src, e.destination, e.isOut, e.edgeType⟩ := by
    have h1 := congrArg EdgeRecord.dst hrec
    have h2 := congrArg EdgeRecord.isOut hrec
    have h3 := congrArg EdgeRecord.edgeType hrec
    cases z <;> exact EdgeKey.mk.injEq .. ▸ ⟨rfl, h1, h2, h3⟩
  have hmarker : z.marker = false := by
    have h1 := congrArg EdgeRecord.marker hrec
    rw [show (e.toRecord o.propertyLengths src).marker = e.marker from rfl, hm] at h1
    cases z <;> exact h1
  unfold scannedRecords getEdges
  refine List.mem_map.mpr ⟨z, ?_, by rw [scanned, hversion, hkey]⟩
  rw [List.mem_filter, List.mem_filter, hkey, hmarker]
  exact ⟨⟨((List.reverse_perm _).flatten).mem_iff.mpr hz, by simp⟩, rfl⟩

end Store

namespace GraphDb

variable {schema : Schema} {db db' : GraphDb} {k : EdgeKey} {r : PropertyRoute}

/-! ## One route -/

/-- The shard of a route, as a read needs it. -/
structure Readable (schema : Schema) (db : GraphDb) (i : Nat) : Prop where
  shown : AllShown (schema.options i) (db.stores i)
  copies : CopiesAgree (db.stores i) (db.deltas i)

theorem visit_of_storedProperty (h : Readable schema db r.shardIdx) {value : Bytes}
    (hget : db.storedProperty k r = .ok value) :
    ∃ e, (db.stores r.shardIdx).lastPut k = some (k.src, e) ∧ e.marker = false ∧
      ∃ z ∈ ((db.stores r.shardIdx).scanFound k.src).flatten,
        z.record (schema.options r.shardIdx).propertyLengths k.src =
          e.toRecord (schema.options r.shardIdx).propertyLengths k.src ∧
        value = z.property (db.deltas r.shardIdx) k r.localPropertyId :=
  visit_of_getEdge h.shown h.copies hget

theorem lastPut_spec (h : Readable schema db r.shardIdx) {p : Nat × Edge}
    (hlast : (db.stores r.shardIdx).lastPut k = some p) :
    p ∈ (db.stores r.shardIdx).history ∧ putKey p = k := by
  have hput := newest_lastPut h.shown.tracked k
  rw [hlast] at hput
  exact ⟨hput.1, hput.2.1⟩

/-- The scan of the route keeps the last put, with its buffered value or with that of the
column. -/
theorem mem_routeRecords (h : Readable schema db r.shardIdx) {e : Edge} {z : Found}
    (hlast : (db.stores r.shardIdx).lastPut k = some (k.src, e)) (hm : e.marker = false)
    (hz : z ∈ ((db.stores r.shardIdx).scanFound k.src).flatten)
    (hrec : z.record (schema.options r.shardIdx).propertyLengths k.src =
      e.toRecord (schema.options r.shardIdx).propertyLengths k.src) :
    ⟨⟨k.dst, e.sequence⟩, (db.lookupExact k r e.sequence).getD
        (z.property (db.deltas r.shardIdx) k r.localPropertyId)⟩ ∈
      db.routeRecords k.src k.isOut k.edgeType r := by
  have hkey : (⟨k.src, e.destination, e.isOut, e.edgeType⟩ : EdgeKey) = k :=
    (lastPut_spec h hlast).2
  have hdst : e.destination = k.dst := congrArg EdgeKey.dst hkey
  have hout : e.isOut = k.isOut := congrArg EdgeKey.isOut hkey
  have htype : e.edgeType = k.edgeType := congrArg EdgeKey.edgeType hkey
  have hmem := mem_scannedRecords (db.deltas r.shardIdx)
    (db.captureBufferedProperties k.src k.isOut k.edgeType r) r.localPropertyId hz hrec hm
  rw [hkey, hout, htype, hdst] at hmem
  exact hmem

theorem record_of_storedProperty (h : Readable schema db r.shardIdx) {value : Bytes}
    (hget : db.storedProperty k r = .ok value)
    (hexact : ∀ e, (db.stores r.shardIdx).lastPut k = some (k.src, e) → e.marker = false →
      db.lookupExact k r e.sequence = none) :
    ∃ e, (db.stores r.shardIdx).lastPut k = some (k.src, e) ∧
      ⟨⟨k.dst, e.sequence⟩, value⟩ ∈ db.routeRecords k.src k.isOut k.edgeType r := by
  obtain ⟨e, hlast, hm, z, hz, hrec, rfl⟩ := visit_of_storedProperty h hget
  have hmem := mem_routeRecords h hlast hm hz hrec
  rw [hexact e hlast hm] at hmem
  exact ⟨e, hlast, hmem⟩

theorem locate_iff {i : Nat} {loc : Location} :
    db.locate k i = .ok loc ↔ (db.stores i).locateEdge k = (.kOk, loc) := by
  unfold locate
  rcases (db.stores i).locateEdge k with ⟨status, loc'⟩
  cases status <;> simp

/-- `LocateEdge` succeeds just when the last put is live, with its sequence. -/
theorem locate_eq_ok (h : Readable schema db r.shardIdx) {loc : Location}
    (hloc : db.locate k r.shardIdx = .ok loc) :
    ∃ e, (db.stores r.shardIdx).lastPut k = some (k.src, e) ∧ e.marker = false ∧
      loc.sequence = e.sequence := by
  have hlocates := locates_lastPut h.shown k
  rw [locate_iff.mp hloc] at hlocates
  cases hlast : (db.stores r.shardIdx).lastPut k with
  | none =>
    rw [hlast] at hlocates
    cases hlocates
  | some p =>
    have hsrc : p.1 = k.src := congrArg EdgeKey.src (lastPut_spec h hlast).2
    rw [hlast] at hlocates
    cases hm : p.2.marker
    · simp only [Locates, hm, Bool.false_eq_true, if_false, true_and] at hlocates
      exact ⟨p.2, by rw [← hsrc], hm, hlocates⟩
    · simp [Locates, hm] at hlocates

theorem locate_of_live (h : Readable schema db r.shardIdx) {e : Edge}
    (hlast : (db.stores r.shardIdx).lastPut k = some (k.src, e)) (hm : e.marker = false) :
    ∃ loc, db.locate k r.shardIdx = .ok loc := by
  have hlocates := locates_lastPut h.shown k
  rw [hlast] at hlocates
  simp only [Locates, hm, Bool.false_eq_true, if_false] at hlocates
  exact ⟨_, locate_iff.mpr (Prod.ext hlocates.1 rfl)⟩

/-- A value that `GetEdge` answers for a property is that of the newest record of the shard, and
the scan of the route has that record with the same value. -/
theorem record_of_getProperty (h : Readable schema db r.shardIdx) {value : Bytes}
    (hget : db.getProperty k r = .ok value) :
    ∃ e, (db.stores r.shardIdx).lastPut k = some (k.src, e) ∧
      ⟨⟨k.dst, e.sequence⟩, value⟩ ∈ db.routeRecords k.src k.isOut k.edgeType r := by
  unfold getProperty at hget
  split at hget
  · rename_i hlatest
    exact record_of_storedProperty h hget fun e _ _ => by simp [lookupExact, hlatest]
  · split at hget
    · -- The newest record is a tombstone, or there is none.
      rename_i hfail
      refine record_of_storedProperty h hget fun e hlast hm => ?_
      obtain ⟨loc, hloc⟩ := locate_of_live h hlast hm
      rw [hloc] at hfail
      cases hfail
    · rename_i loc hloc
      obtain ⟨e, hlast, hm, hseq⟩ := locate_eq_ok h hloc
      split at hget
      · rename_i hexact
        refine record_of_storedProperty h hget fun e' hlast' _ => ?_
        rw [hlast] at hlast'
        cases hlast'
        rw [← hseq]
        exact hexact
      · rename_i buffered hexact
        cases hget
        obtain ⟨z, hz, hrec⟩ := exists_visit h.shown.toScanned (lastPut_spec h hlast).1
        have hmem := mem_routeRecords h hlast hm hz hrec
        rw [← hseq, hexact] at hmem
        exact ⟨e, hlast, by rw [← hseq]; exact hmem⟩

/-- A scan of a route has no record of an edge above its last put. -/
theorem sequence_le_lastPut (h : Readable schema db r.shardIdx) {e : Edge}
    (hlast : (db.stores r.shardIdx).lastPut k = some (k.src, e)) {x : SinglePropertyRecord}
    (hx : x ∈ db.routeRecords k.src k.isOut k.edgeType r) (hdst : x.key.dst = k.dst) :
    x.key.seq ≤ e.sequence := by
  have hver := (versions_perm _ _ _ _ h.shown.toScanned (db.deltas r.shardIdx)
    (db.captureBufferedProperties k.src k.isOut k.edgeType r)).mem_iff.mp (List.mem_map_of_mem hx)
  obtain ⟨p, hp, hpx⟩ := List.mem_map.mp hver
  simp only [List.mem_filter, Bool.and_eq_true, decide_eq_true_eq, beq_iff_eq] at hp
  obtain ⟨hp, hsrc, ⟨hout, htype⟩, -⟩ := hp
  have hpd : p.2.destination = k.dst := (congrArg EdgeVersionKey.dst hpx).trans hdst
  have hput := newest_lastPut h.shown.tracked k
  rw [hlast] at hput
  have := hput.2.2 p hp (by unfold putKey; rw [hsrc, hpd, hout, htype])
  rw [← hpx]
  exact this

/-! ## The first record of a destination -/

/-- In a sorted list the first record of a destination is its newest. -/
theorem find_newest {α : Type} (key : α → EdgeVersionKey) {xs : List α} {x : α}
    (hsorted : xs.Pairwise fun a b => (key a).le (key b)) (hx : x ∈ xs)
    (hmax : ∀ y ∈ xs, (key y).dst = (key x).dst → (key y).seq ≤ (key x).seq) :
    ∃ y ∈ xs, xs.find? (fun y => (key y).dst = (key x).dst) = some y ∧ key y = key x := by
  induction xs with
  | nil => cases hx
  | cons a xs ih =>
    rw [List.pairwise_cons] at hsorted
    by_cases ha : (key a).dst = (key x).dst
    · refine ⟨a, List.mem_cons_self, by simp [ha], ?_⟩
      have hle := hmax a List.mem_cons_self ha
      rcases List.mem_cons.mp hx with rfl | hx
      · rfl
      · have := hsorted.1 x hx
        unfold EdgeVersionKey.le at this
        have hseq : (key a).seq = (key x).seq := by omega
        calc key a = ⟨(key a).dst, (key a).seq⟩ := rfl
          _ = ⟨(key x).dst, (key x).seq⟩ := by rw [ha, hseq]
          _ = key x := rfl
    · have hx : x ∈ xs := by
        rcases List.mem_cons.mp hx with rfl | hx
        · exact absurd rfl ha
        · exact hx
      obtain ⟨y, hy, hfind, hkey⟩ := ih hsorted.2 hx fun y hy =>
        hmax y (List.mem_cons_of_mem _ hy)
      refine ⟨y, List.mem_cons_of_mem _ hy, ?_, hkey⟩
      rw [List.find?_cons_of_neg (by simpa using ha), hfind]

/-- What the two reads have to agree on: the first record of the scan for the destination is
there and carries the values. -/
def FirstCarries (dst : Nat) (values : List (String × Bytes))
    (records : List GraphDbEdgeScanRecord) : Prop :=
  ∃ rec, records.find? (fun rec => rec.dst = dst) = some rec ∧ ∀ p ∈ values, p ∈ rec.properties

section

variable {routes : List (String × PropertyRoute)}

theorem lastOf_columnOf (hread : Readable schema db r.shardIdx) {x : EdgeVersionKey} {b : Bytes}
    {src : Nat} {isOut : Bool} {edgeType : UInt8} :
    Lib.Rows.lastOf (columnOf (db.routeRecords src isOut edgeType) r) x = some b ↔
      ⟨x, b⟩ ∈ db.routeRecords src isOut edgeType r := by
  have hone : ((columnOf (db.routeRecords src isOut edgeType) r).map Prod.fst).Nodup := by
    rw [columnOf, List.map_map]
    exact versions_nodup hread.shown.toScanned _ _
  rw [Lib.Rows.lastOf_eq_some_iff hone]
  constructor
  · intro h
    obtain ⟨y, hy, heq⟩ := List.mem_map.mp h
    cases heq
    exact hy
  · intro h
    exact List.mem_map.mpr ⟨_, h, rfl⟩

/-- The last puts of the edge have one sequence in all the shards of the routes. -/
def SameNewest (db : GraphDb) (k : EdgeKey) (routes : List (String × PropertyRoute)) : Prop :=
  ∀ p ∈ routes, ∀ q ∈ routes, ((db.stores p.2.shardIdx).lastPut k).map putSequence =
    ((db.stores q.2.shardIdx).lastPut k).map putSequence

/-- The first record of the scan is the version that is the newest in every shard. -/
theorem first_of_intersects (hread : ∀ p ∈ routes, Readable schema db p.2.shardIdx)
    (hne : routes ≠ []) (hsame : SameNewest db k routes) {values : List (String × Bytes)}
    (hall : ∀ p ∈ routes, ∃ value, db.getProperty k p.2 = .ok value)
    (hvalues : ∀ v ∈ values, ∃ r, (v.1, r) ∈ routes ∧ db.getProperty k r = .ok v.2)
    {records : List GraphDbEdgeScanRecord}
    (hmeets : Intersects (db.routeRecords k.src k.isOut k.edgeType) routes records) :
    FirstCarries k.dst values records := by
  obtain ⟨p₀, hp₀⟩ := List.exists_mem_of_ne_nil _ hne
  obtain ⟨value₀, hget₀⟩ := hall p₀ hp₀
  obtain ⟨e₀, hlast₀, -⟩ := record_of_getProperty (hread p₀ hp₀) hget₀
  -- Every route has the record, with the value that `GetEdge` answers.
  have hlast : ∀ p ∈ routes, ∀ value, db.getProperty k p.2 = .ok value →
      Lib.Rows.lastOf (columnOf (db.routeRecords k.src k.isOut k.edgeType) p.2)
        ⟨k.dst, e₀.sequence⟩ = some value := by
    intro p hp value hget
    obtain ⟨e, hlast, hrec⟩ := record_of_getProperty (hread p hp) hget
    have hseq := hsame p hp p₀ hp₀
    rw [hlast, hlast₀] at hseq
    have hseq : e.sequence = e₀.sequence := Option.some.inj hseq
    rw [hseq] at hrec
    exact (lastOf_columnOf (hread p hp)).mpr hrec
  have hnewest : (⟨k.dst, e₀.sequence⟩ : EdgeVersionKey) ∈ records.map (·.version) :=
    (hmeets.versions _).mpr fun p hp => (hall p hp).imp fun value => hlast p hp value
  obtain ⟨rec, hrec, hversion⟩ := List.mem_map.mp hnewest
  have hmax : ∀ y ∈ records, y.version.dst = rec.version.dst →
      y.version.seq ≤ rec.version.seq := by
    intro y hy hdst
    rw [hversion] at hdst ⊢
    obtain ⟨b, hb⟩ := (hmeets.versions _).mp (List.mem_map_of_mem hy) p₀ hp₀
    exact sequence_le_lastPut (hread p₀ hp₀) hlast₀ ((lastOf_columnOf (hread p₀ hp₀)).mp hb) hdst
  obtain ⟨y, hy, hfind, hkey⟩ := find_newest GraphDbEdgeScanRecord.version
    (List.pairwise_map.mp hmeets.sorted) hrec hmax
  rw [hversion] at hfind hkey
  refine ⟨y, hfind, fun v hv => ?_⟩
  obtain ⟨r, hr, hget⟩ := hvalues v hv
  refine (hmeets.values y hy v.1 v.2).mpr ⟨r, hr, ?_⟩
  rw [hkey]
  exact hlast _ hr _ hget

end

/-! ## The routes -/

theorem route_lt {name : String} (h : schema.route name = some r) :
    r.shardIdx < schema.shardCount := by
  unfold Schema.route at h
  obtain ⟨i, hi, hfind⟩ := List.exists_of_findSome?_eq_some h
  obtain ⟨pid, -, rfl⟩ := Option.map_eq_some_iff.mp hfind
  exact List.mem_range.mp hi

theorem resolve_spec {names seen : List String} {routes : List (String × PropertyRoute)}
    (h : schema.resolve seen names = some routes) :
    (∀ p ∈ routes, p.1 ∉ seen ∧ schema.route p.1 = some p.2) ∧ (routes.map Prod.fst).Nodup := by
  induction names generalizing seen routes with
  | nil =>
    cases h
    simp
  | cons name names ih =>
    unfold Schema.resolve at h
    split at h
    · exact ih h
    · rename_i hnew
      push Not at hnew
      cases hroute : schema.route name with
      | none => simp [hroute] at h
      | some r =>
        simp only [hroute, Option.map_eq_some_iff] at h
        obtain ⟨rest, hrest, rfl⟩ := h
        obtain ⟨hmem, hnodup⟩ := ih hrest
        constructor
        · intro p hp
          rcases List.mem_cons.mp hp with rfl | hp
          · exact ⟨hnew.2, hroute⟩
          · exact ⟨fun hs => (hmem p hp).1 (List.mem_cons_of_mem _ hs), (hmem p hp).2⟩
        · rw [List.map_cons, List.nodup_cons]
          refine ⟨fun hin => ?_, hnodup⟩
          obtain ⟨p, hp, hpn⟩ := List.mem_map.mp hin
          exact (hmem p hp).1 (by rw [hpn]; exact List.mem_cons_self)

theorem resolveEdgePropertyRoutes_spec {names : List String}
    {routes : List (String × PropertyRoute)}
    (h : schema.resolveEdgePropertyRoutes names = some routes) :
    routes ≠ [] ∧ (routes.map Prod.fst).Nodup ∧
      ∀ p ∈ routes, schema.route p.1 = some p.2 ∧ p.2.shardIdx < schema.shardCount := by
  unfold Schema.resolveEdgePropertyRoutes at h
  obtain ⟨routes', hres, hne⟩ := Option.bind_eq_some_iff.mp h
  split at hne
  · cases hne
  · rename_i hnil
    cases hne
    obtain ⟨hmem, hnodup⟩ := resolve_spec hres
    exact ⟨hnil, hnodup, fun p hp => ⟨(hmem p hp).2, route_lt (hmem p hp).2⟩⟩

/-- In a state in which the shards of the properties can be read and have the same newest
sequence, the two reads agree. -/
theorem first_of_scanEdges {names : List String} {routes : List (String × PropertyRoute)}
    (hroutes : schema.resolveEdgePropertyRoutes names = some routes)
    (hread : ∀ p ∈ routes, Readable schema db p.2.shardIdx) (hsame : SameNewest db k routes)
    {values : List (String × Bytes)} (hget : getEdge schema db k names = .ok values) :
    ∃ records, scanEdges schema db k.src names k.isOut k.edgeType = .ok records ∧
      FirstCarries k.dst values records := by
  obtain ⟨hne, hnames, -⟩ := resolveEdgePropertyRoutes_spec hroutes
  unfold getEdge at hget
  rw [hroutes] at hget
  obtain ⟨hall, hvalues⟩ := Lib.mapM_ok hget
  have hall : ∀ p ∈ routes, ∃ value, db.getProperty k p.2 = .ok value := by
    intro p hp
    obtain ⟨y, -, hy⟩ := hall p hp
    cases hv : db.getProperty k p.2 with
    | error _ =>
      rw [hv] at hy
      cases hy
    | ok value => exact ⟨value, rfl⟩
  have hvalues : ∀ v ∈ values, ∃ r, (v.1, r) ∈ routes ∧ db.getProperty k r = .ok v.2 := by
    intro v hv
    obtain ⟨p, hp, hy⟩ := hvalues v hv
    cases hpv : db.getProperty k p.2 with
    | error _ =>
      rw [hpv] at hy
      cases hy
    | ok value =>
      rw [hpv] at hy
      cases hy
      exact ⟨p.2, hp, hpv⟩
  unfold scanEdges scanEdgesOver
  rw [hroutes]
  exact ⟨_, rfl, first_of_intersects hread hne hsame hall hvalues
    (intersects_scanRoutes hne hnames)⟩

end GraphDb

end RichGraph
