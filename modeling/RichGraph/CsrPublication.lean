-- Flushes and rebuilds of the CSR mode. A flush takes its table out of the
-- superversion, and the worker publishes a snapshot with its records later. A
-- reader loads the superversion first and the snapshot after it.
import RichGraph.CsrReads

namespace RichGraph

namespace Store

/-- A store and the worker that rebuilds its snapshot. -/
structure CsrStore where
  store : Store
  /-- `csr_read_snapshot_` -/
  snapshot : Option CsrReadSnapshot
  /-- What the rebuild that runs is going to publish. -/
  building : Option (Option CsrReadSnapshot)

inductive CsrAction where
  | store (a : Action)
  /-- A rebuild collects its files, and takes ids for those that it writes. -/
  | collect
  /-- The rebuild ends: `atomic_store` of the snapshot. -/
  | publishSnapshot

namespace CsrStore

def initial (o : Options) : CsrStore := ⟨Store.initial o, none, none⟩

def collect (c : CsrOptions) (s : CsrStore) : Option CsrStore :=
  if s.building.isNone then
    some
      { s with
        store :=
          { s.store with
            currentTime :=
              s.store.currentTime + (csrFileSources c (csrSourceFiles s.store)).length }
        building := some (rebuildCsrFromVisibleSSTs c (s.store.currentTime + ·) s.store) }
  else none

def step (o : Options) (c : CsrOptions) (s : CsrStore) : CsrAction → Option CsrStore
  | .store a => (Store.step o s.store a).map fun store => { s with store }
  | .collect => s.collect c
  | .publishSnapshot => s.building.map fun snapshot => { s with snapshot, building := none }

/-- `GetEdge` by a reader that searches the memtables in one state and loads the snapshot in a
later one. -/
def found (c : CsrOptions) (s later : CsrStore) (k : EdgeKey) : Option Found :=
  (s.store.findEdgeInMemtable k).or (findEdgeInCsrDisk c later.snapshot k)

/-- No put of the key has deleted it. -/
def NeverDeleted (s : CsrStore) (k : EdgeKey) : Prop :=
  ∀ p ∈ s.store.history, putKey p = k → p.2.marker = false

/-- A flush publishes its file only when every key of its table that was never deleted is in
another table or in the snapshot. -/
def KeepsFound (c : CsrOptions) (s : CsrStore) : Action → Prop
  | .publish fid => ∀ t ∈ s.store.immutables, t.fid = fid → ∀ v ∈ t.vertexAdjs.keys,
      ∀ e ∈ (t.adj v).edges, s.NeverDeleted (putKey (v, e)) →
        (∃ t' ∈ s.store.menTables, t'.fid ≠ fid ∧ (t'.get (putKey (v, e))).isSome) ∨
          (findEdgeInCsrDisk c s.snapshot (putKey (v, e))).isSome
  | _ => True

/-- No file is lost, a flush keeps its keys readable, and a rebuild collects its files while no
compaction runs. -/
def FoundStep (o : Options) (c : CsrOptions) (s : CsrStore) : CsrAction → Prop
  | .store a => NoLoss o s.store a ∧ KeepsFound c s a
  | .collect => s.store.job.isNone ∧
      s.store.currentTime + (csrFileSources c (csrSourceFiles s.store)).length ≤ invalidFileId
  | .publishSnapshot => True

instance (s : CsrStore) (k : EdgeKey) : Decidable (s.NeverDeleted k) :=
  inferInstanceAs (Decidable (∀ p ∈ s.store.history, putKey p = k → p.2.marker = false))

instance (c : CsrOptions) (s : CsrStore) (a : Action) : Decidable (KeepsFound c s a) :=
  match a with
  | .publish fid =>
    inferInstanceAs (Decidable (∀ t ∈ s.store.immutables, t.fid = fid → ∀ v ∈ t.vertexAdjs.keys,
      ∀ e ∈ (t.adj v).edges, s.NeverDeleted (putKey (v, e)) →
        (∃ t' ∈ s.store.menTables, t'.fid ≠ fid ∧ (t'.get (putKey (v, e))).isSome) ∨
          (findEdgeInCsrDisk c s.snapshot (putKey (v, e))).isSome))
  | .putEdge .. | .sortAdjacency .. | .pick _ | .writeEnd | .finish => isTrue trivial

instance (o : Options) (c : CsrOptions) (s : CsrStore) (a : CsrAction) :
    Decidable (FoundStep o c s a) :=
  match a with
  | .store _ => inferInstanceAs (Decidable (_ ∧ _))
  | .collect => inferInstanceAs (Decidable (_ ∧ _))
  | .publishSnapshot => isTrue trivial

end CsrStore

/-! ## Keys in the memtables -/

variable {o : Options} {s s' : Store} {k : EdgeKey}

/-- A table of the superversion has the key. -/
def Held (s : Store) (k : EdgeKey) : Prop :=
  ∃ t ∈ s.menTables, ∃ e ∈ (t.adj k.src).edges, putKey (k.src, e) = k

instance (s : Store) (k : EdgeKey) : Decidable (s.Held k) := inferInstanceAs
  (Decidable (∃ t ∈ s.menTables, ∃ e ∈ (t.adj k.src).edges, putKey (k.src, e) = k))

theorem mem_edges_of_get_isSome {t : MemTable} (h : (t.get k).isSome) :
    ∃ e ∈ (t.adj k.src).edges, putKey (k.src, e) = k := by
  obtain ⟨e, he⟩ := Option.isSome_iff_exists.mp h
  obtain ⟨hdst, hout, htype⟩ := NewEdgeSL.key_of_get he
  exact ⟨e, NewEdgeSL.mem_edges_of_get he, by simp [putKey, hdst, hout, htype]⟩

theorem held_putRecord {src : Nat} {e : Edge} (h : s.Held k ∨ putKey (src, e) = k) :
    (putRecord o src e s).Held k := by
  obtain ⟨himm, hactive⟩ := menTables_putRecord_mem (o := o) (s := s) src e
  rcases h with ⟨t, ht, x, hx, hk⟩ | rfl
  · rcases List.mem_append.mp ht with ht | ht
    · exact ⟨t, himm t ht, x, hx, hk⟩
    · rw [List.mem_singleton.mp ht] at hx
      exact ⟨_, hactive, x, mem_edges_table_putEdge.mpr (Or.inr hx), hk⟩
  · exact ⟨_, hactive, e, mem_edges_table_putEdge.mpr (Or.inl ⟨rfl, rfl⟩), rfl⟩

/-- Only a flush takes a key out of the tables. -/
theorem held_step {a : Action} (hs : step o s a = some s') (hne : ∀ fid, a ≠ .publish fid)
    (h : s.Held k) : s'.Held k := by
  cases a with
  | putEdge src dst payload mode isOut edgeType =>
    obtain ⟨e, -, -, -, -, -, -, rfl | ⟨e', -, -, -, -, -, -, -, rfl⟩⟩ := putEdge_cases hs
    · exact held_putRecord (Or.inl h)
    · exact held_putRecord (Or.inl (held_putRecord (Or.inl h)))
  | sortAdjacency fid src =>
    obtain ⟨t, ht, x, hx, hk⟩ := h
    obtain ⟨t', ht', rfl | rfl⟩ := (tables_sortAdjacency hs).2 t ht
    · exact ⟨t', ht', x, hx, hk⟩
    · exact ⟨_, ht', x, mem_edges_sortAdjacency.mpr hx, hk⟩
  | publish fid => exact absurd rfl (hne fid)
  | pick | writeEnd | finish =>
    obtain ⟨t, ht, hx⟩ := h
    exact ⟨t, (sameTables_step hs rfl).menTables ▸ ht, hx⟩

/-- A put that a step adds is in a table. -/
theorem history_step {a : Action} (hs : step o s a = some s') :
    (∀ p ∈ s.history, p ∈ s'.history) ∧
      ∀ p ∈ s'.history, p ∈ s.history ∨ s'.Held (putKey p) := by
  cases a with
  | putEdge src dst payload mode isOut edgeType =>
    obtain ⟨e, -, -, -, -, -, -, rfl | ⟨e', -, -, -, -, -, -, -, rfl⟩⟩ := putEdge_cases hs
    · simp only [putRecord_history, List.mem_cons]
      refine ⟨fun p hp => Or.inr hp, ?_⟩
      rintro p (rfl | hp)
      · exact Or.inr (held_putRecord (Or.inr rfl))
      · exact Or.inl hp
    · simp only [putRecord_history, List.mem_cons]
      refine ⟨fun p hp => Or.inr (Or.inr hp), ?_⟩
      rintro p (rfl | rfl | hp)
      · exact Or.inr (held_putRecord (Or.inr rfl))
      · exact Or.inr (held_putRecord (Or.inl (held_putRecord (Or.inr rfl))))
      · exact Or.inl hp
  | sortAdjacency fid src =>
    obtain ⟨-, -, -, hh, -⟩ := sortAdjacency_cases hs
    rw [hh]
    exact ⟨fun p hp => hp, fun p hp => Or.inl hp⟩
  | publish fid =>
    obtain ⟨t, f, -, -, -, rfl⟩ := publish_cases hs
    exact ⟨fun p hp => hp, fun p hp => Or.inl hp⟩
  | pick | writeEnd | finish =>
    rw [(sameTables_step hs rfl).history]
    exact ⟨fun p hp => hp, fun p hp => Or.inl hp⟩

/-! ## Keys in a snapshot -/

variable {c : CsrOptions} {snapshot : Option CsrReadSnapshot}

/-- A snapshot of a rebuild whose records are still on disk. -/
structure OnDiskStill (c : CsrOptions) (s : Store) (snapshot : Option CsrReadSnapshot) : Prop where
  rebuilt : ∃ alloc s₀, snapshot = rebuildCsrFromVisibleSSTs c alloc s₀
  disk : ∀ v, ∀ r ∈ csrRecordsOf c snapshot v, r ∈ s.onDisk v

/-- A lookup in a snapshot finds every key that the snapshot has, live. -/
theorem OnDiskStill.lookup (h : OnDiskStill c s snapshot) {r : EdgeRecord}
    (hr : r ∈ csrRecordsOf c snapshot k.src) (hk : r.key = k) :
    ∃ x, findEdgeInCsrDisk c snapshot k = some x ∧ x.marker = false := by
  obtain ⟨alloc, s₀, rfl⟩ := h.rebuilt
  obtain ⟨hrec, hsorted⟩ := csrRecordsOf_spec c alloc s₀ k.src
  have hnewest := newest_findEdgeByDstDirectionAndType (k := k) (fun r hr => (hrec r hr).1) hsorted
  rw [← findEdgeInCsrDisk_record []] at hnewest
  cases hfound : findEdgeInCsrDisk c (rebuildCsrFromVisibleSSTs c alloc s₀) k with
  | none =>
    rw [hfound] at hnewest
    exact absurd hk (hnewest r hr)
  | some x =>
    rw [hfound] at hnewest
    cases x with
    | inMemtable fid e => exact absurd hfound findEdgeInCsrDisk_ne_inMemtable
    | inFile fid r' => exact ⟨_, rfl, (hrec r' hnewest.1).2⟩

theorem OnDiskStill.of_lookup (h : (findEdgeInCsrDisk c snapshot k).isSome)
    (hs : OnDiskStill c s snapshot) : ∃ r ∈ csrRecordsOf c snapshot k.src, r.key = k := by
  obtain ⟨alloc, s₀, rfl⟩ := hs.rebuilt
  obtain ⟨hrec, hsorted⟩ := csrRecordsOf_spec c alloc s₀ k.src
  have hnewest := newest_findEdgeByDstDirectionAndType (k := k) (fun r hr => (hrec r hr).1) hsorted
  by_contra hnot
  have hnone := hnewest.none_iff.mpr hnot
  rw [← findEdgeInCsrDisk_record []] at hnone
  rw [Option.map_eq_none_iff.mp hnone] at h
  cases h

theorem OnDiskStill.mono (h : OnDiskStill c s snapshot)
    (hdisk : ∀ v r, r ∈ s.onDisk v → r ∈ s'.onDisk v) : OnDiskStill c s' snapshot :=
  ⟨h.rebuilt, fun v r hr => hdisk v r (h.disk v r hr)⟩

/-- While no compaction runs, a rebuild gives every live record on disk. -/
theorem mem_csrRecordsOf_rebuild (hwf : Wf s) (hj : s.job = none) (alloc : Nat → Nat) {v : Nat}
    {r : EdgeRecord} : r ∈ csrRecordsOf c (rebuildCsrFromVisibleSSTs c alloc s) v ↔
      v < c.maxVertexNum ∧ r ∈ s.onDisk v ∧ r.marker = false := by
  by_cases hv : v < c.maxVertexNum
  · simp [csrRecordsOf_rebuild alloc s hv, mem_collected hwf hj, hv]
  · simp [csrRecordsOf_eq_nil hv, hv]

/-! ## Runs -/

namespace CsrStore

/-- Every key that was put and never deleted is in a table or in the snapshot, and the snapshot
that is being built has all that the current one has. -/
structure Readable (o : Options) (c : CsrOptions) (s : CsrStore) : Prop where
  wf : Wf s.store
  tracked : Tracked o s.store
  snapshot : OnDiskStill c s.store s.snapshot
  building : ∀ snapshot, s.building = some snapshot → OnDiskStill c s.store snapshot ∧
    ∀ v, ∀ r ∈ csrRecordsOf c s.snapshot v, r ∈ csrRecordsOf c snapshot v
  found : ∀ p ∈ s.store.history, s.NeverDeleted (putKey p) →
    s.store.Held (putKey p) ∨ ∃ r ∈ csrRecordsOf c s.snapshot p.1, r.key = putKey p

variable {s s' : CsrStore}

theorem mem_keys_of_mem_edges {t : MemTable} {v : Nat} {e : Edge} (he : e ∈ (t.adj v).edges) :
    v ∈ t.vertexAdjs.keys := by
  unfold MemTable.adj at he
  cases hl : t.vertexAdjs.lookup v with
  | none =>
    rw [hl] at he
    cases he
  | some a =>
    rw [← AList.mem_keys, ← AList.lookup_isSome, hl]
    rfl

/-- A flush whose keys are all in another table or in the snapshot keeps the others too. -/
theorem found_publish {fid : Nat} {store : Store} (hsnap : OnDiskStill c s.store s.snapshot)
    (hok : KeepsFound c s (.publish fid)) (hs : publish o fid s.store = some store)
    (hdel : s.NeverDeleted k) (h : s.store.Held k) :
    store.Held k ∨ ∃ r ∈ csrRecordsOf c s.snapshot k.src, r.key = k := by
  obtain ⟨_, f, -, -, -, rfl⟩ := publish_cases hs
  have hstay : ∀ t ∈ s.store.menTables, t.fid ≠ fid ∨ t = s.store.active →
      t ∈ s.store.immutables.filter (·.fid != fid) ++ [s.store.active] := by
    rintro t ht (hne | rfl)
    · rcases List.mem_append.mp ht with ht | ht
      · exact List.mem_append_left _ (List.mem_filter.mpr ⟨ht, by simpa using hne⟩)
      · exact List.mem_append_right _ ht
    · simp
  obtain ⟨t, ht, e, he, hkey⟩ := h
  by_cases hflushed : t ∈ s.store.immutables ∧ t.fid = fid
  · have hfree := hok t hflushed.1 hflushed.2 k.src (mem_keys_of_mem_edges he) e he
    rw [hkey] at hfree
    rcases hfree hdel with ⟨t', ht', hne, hget'⟩ | hcsr
    · exact Or.inl ⟨t', hstay t' ht' (Or.inl hne), mem_edges_of_get_isSome hget'⟩
    · exact Or.inr (hsnap.of_lookup hcsr)
  · refine Or.inl ⟨t, hstay t ht ?_, e, he, hkey⟩
    rcases List.mem_append.mp ht with himm | hactive
    · exact Or.inl fun heq => hflushed ⟨himm, heq⟩
    · exact Or.inr (List.mem_singleton.mp hactive)

theorem readable_store {a : Action} {store : Store} (h : Readable o c s)
    (hok : FoundStep o c s (.store a)) (hs : Store.step o s.store a = some store) :
    Readable o c { s with store } := by
  have hdisk : ∀ v r, r ∈ s.store.onDisk v → r ∈ store.onDisk v :=
    fun v r => mem_onDisk_step h.wf hok.1 h.tracked.merged hs
  obtain ⟨hold, hnew⟩ := history_step hs
  refine
    { wf := wf_step h.wf hok.1 hs
      tracked := tracked_step h.wf hok.1 h.tracked hs
      snapshot := h.snapshot.mono hdisk
      building := fun snapshot hb => (h.building snapshot hb).imp_left fun hb => hb.mono hdisk
      found := ?_ }
  intro p hp hdel
  have hdel : s.NeverDeleted (putKey p) := fun q hq => hdel q (hold q hq)
  rcases hnew p hp with hp | hheld
  · rcases h.found p hp hdel with hheld | hsnap
    · by_cases hpub : ∃ fid, a = .publish fid
      · obtain ⟨fid, rfl⟩ := hpub
        exact found_publish (s := s) h.snapshot hok.2 hs hdel hheld
      · exact Or.inl (held_step hs (not_exists.mp hpub) hheld)
    · exact Or.inr hsnap
  · exact Or.inl hheld

theorem readable_collect (h : Readable o c s) (hok : FoundStep o c s .collect)
    (hs : s.collect c = some s') : Readable o c s' ∧ s'.snapshot = s.snapshot := by
  obtain ⟨hjob, htime⟩ := hok
  have hjob := Option.isNone_iff_eq_none.mp hjob
  unfold collect at hs
  split at hs
  · cases hs
    have hmem := fun alloc v r => mem_csrRecordsOf_rebuild (c := c) (v := v) (r := r)
      h.wf hjob alloc
    obtain ⟨hwf, htr⟩ := tracked_currentTime h.wf h.tracked (Nat.le_add_right _ _) htime
    have hdisk := fun v r => (onDisk_of_files h.wf hwf rfl rfl rfl v r).mpr
    refine ⟨⟨hwf, htr, h.snapshot.mono hdisk, ?_, h.found⟩, rfl⟩
    intro snapshot hb
    cases hb
    refine ⟨⟨⟨_, _, rfl⟩, fun v r hr => hdisk v r ((hmem _ v r).mp hr).2.1⟩, ?_⟩
    -- What is in the snapshot is live and on disk, so the rebuild has collected it.
    intro v r hr
    have hv : v < c.maxVertexNum := by
      by_contra hv
      rw [csrRecordsOf_eq_nil hv] at hr
      cases hr
    have hlive : r.marker = false := by
      obtain ⟨alloc, s₀, heq⟩ := h.snapshot.rebuilt
      rw [heq] at hr
      exact ((csrRecordsOf_spec c alloc s₀ v).1 r hr).2
    exact (hmem _ v r).mpr ⟨hv, h.snapshot.disk v r hr, hlive⟩
  · cases hs

theorem readable_step {a : CsrAction} (h : Readable o c s) (hok : FoundStep o c s a)
    (hs : step o c s a = some s') : Readable o c s' ∧
      ∀ v, ∀ r ∈ csrRecordsOf c s.snapshot v, r ∈ csrRecordsOf c s'.snapshot v := by
  cases a with
  | store a =>
    obtain ⟨store, hstore, rfl⟩ := Option.map_eq_some_iff.mp hs
    exact ⟨readable_store h hok hstore, fun v r hr => hr⟩
  | collect =>
    obtain ⟨hread, hsame⟩ := readable_collect h hok hs
    rw [hsame]
    exact ⟨hread, fun v r hr => hr⟩
  | publishSnapshot =>
    obtain ⟨snapshot, hb, rfl⟩ := Option.map_eq_some_iff.mp hs
    obtain ⟨hsnap, hgrows⟩ := h.building snapshot hb
    refine ⟨⟨h.wf, h.tracked, hsnap, (fun _ hb => by cases hb), ?_⟩, hgrows⟩
    intro p hp hdel
    refine (h.found p hp hdel).imp_right ?_
    rintro ⟨r, hr, hk⟩
    exact ⟨r, hgrows _ r hr, hk⟩

theorem readable_initial (o : Options) (c : CsrOptions) : Readable o c (initial o) :=
  { wf := wf_initial o, tracked := tracked_initial o
    snapshot := ⟨⟨id, Store.initial o, rfl⟩, fun v r hr => by cases hr⟩
    building := fun _ hb => by cases hb
    found := fun p hp => by cases hp }

theorem readable_of_reach (h : Lib.Reach (step o c) (FoundStep o c) (initial o) s) :
    Readable o c s :=
  h.invariant (readable_initial o c) fun _ _ _ hinv hok hs => (readable_step hinv hok hs).1

/-- Snapshots only gain records. -/
theorem snapshot_grows (h : Readable o c s) (h' : Lib.Reach (step o c) (FoundStep o c) s s') :
    Readable o c s' ∧ ∀ v, ∀ r ∈ csrRecordsOf c s.snapshot v, r ∈ csrRecordsOf c s'.snapshot v := by
  induction h' with
  | start => exact ⟨h, fun v r hr => hr⟩
  | step _ hok hs ih =>
    obtain ⟨hread, hgrows⟩ := readable_step ih.1 hok hs
    exact ⟨hread, fun v r hr => hgrows v r (ih.2 v r hr)⟩

/-- In every run in which no file is lost, every flush finds its keys in another table or in the
snapshot, and rebuilds collect their files while no compaction runs: a reader finds every edge
that was put and never deleted, whatever happens between its two loads. -/
theorem an_acknowledged_edge_is_always_found {o : Options} {c : CsrOptions} {s later : CsrStore}
    (h : Lib.Reach (step o c) (FoundStep o c) (initial o) s)
    (hlater : Lib.Reach (step o c) (FoundStep o c) s later) (p : Nat × Edge)
    (hp : p ∈ s.store.history) (hdel : s.NeverDeleted (putKey p)) :
    ∃ x, found c s later (putKey p) = some x ∧ x.marker = false := by
  have hread := readable_of_reach h
  obtain ⟨hread', hgrows⟩ := snapshot_grows hread hlater
  unfold found
  cases hmem : s.store.findEdgeInMemtable (putKey p) with
  | some x =>
    refine ⟨x, rfl, ?_⟩
    obtain ⟨t, ht, hx⟩ := List.exists_of_findSome?_eq_some hmem
    obtain ⟨e, he, rfl⟩ := Option.map_eq_some_iff.mp hx
    obtain ⟨hdst, hout, htype⟩ := NewEdgeSL.key_of_get he
    have hput : ((putKey p).src, e) ∈ s.store.history :=
      hread.tracked.tables t ht _ e (NewEdgeSL.mem_edges_of_get he)
    exact hdel _ hput (by simp [putKey, hdst, hout, htype])
  | none =>
    rcases hread.found p hp hdel with ⟨t, ht, hheld⟩ | ⟨r, hr, hk⟩
    · have hnone := Option.map_eq_none_iff.mp (List.findSome?_eq_none_iff.mp hmem t ht)
      have hnot : ¬ HoldsKey (putKey p) (t.recordsOf [] (putKey p).src) :=
        (get_eq_none_iff (hread.tracked.tables_below ht _)).mp hnone
      exact absurd (holdsKey_recordsOf.mpr hheld) hnot
    · exact hread'.snapshot.lookup (hgrows _ r hr) hk

/-- Two puts of an edge in two tables. The first is flushed and is in the snapshot when the second
is flushed, between the two loads of the reader. -/
theorem an_edge_is_found_across_a_flush :
    ∃ s later : CsrStore, ∃ p : Nat × Edge,
      (Lib.Reach (step smallStore smallCsr) (FoundStep smallStore smallCsr) (initial smallStore) s ∧
        Lib.Reach (step smallStore smallCsr) (FoundStep smallStore smallCsr) s later ∧
        p ∈ s.store.history ∧ s.store.Held (putKey p) ∧ ¬ later.store.Held (putKey p)) ∧
      ∃ x, found smallCsr s later (putKey p) = some x ∧ x.marker = false := by
  obtain ⟨s, hs, ⟨p, hp, hkey⟩, hdel, hheld, hnext⟩ := Lib.exists_reach_of_run
    (step smallStore smallCsr) (FoundStep smallStore smallCsr) (initial smallStore)
    [.store (putOneTwo (bytes "a")), .store (putOneTwo (bytes "b")), .store (.publish 0), .collect,
      .publishSnapshot]
    (fun s => (∃ p ∈ s.store.history, putKey p = ⟨1, 2, true, 0⟩) ∧
      s.NeverDeleted ⟨1, 2, true, 0⟩ ∧ s.store.Held ⟨1, 2, true, 0⟩ ∧
      (Lib.run (step smallStore smallCsr) (FoundStep smallStore smallCsr) s
        [.store (.publish 1)]).any (fun s => decide (¬ s.store.Held ⟨1, 2, true, 0⟩)) = true)
    (by decide +kernel)
  obtain ⟨later, hlater, hgone⟩ := Lib.exists_reach_of_run (step smallStore smallCsr)
    (FoundStep smallStore smallCsr) s [.store (.publish 1)]
    (fun s => ¬ s.store.Held ⟨1, 2, true, 0⟩) hnext
  rw [← hkey] at hdel hheld hgone
  exact ⟨s, later, p, ⟨hs, hlater, hp, hheld, hgone⟩,
    an_acknowledged_edge_is_always_found hs hlater p hp hdel⟩

/-- After the flush of its only table, an edge is not found until the rebuild ends. -/
theorem a_flushed_edge_is_not_found :
    ∃ s, Lib.Reach (step smallStore smallCsr) Lib.AnyStep (initial smallStore) s ∧
      ((∃ p ∈ s.store.history, putKey p = ⟨1, 2, true, 0⟩) ∧ s.NeverDeleted ⟨1, 2, true, 0⟩) ∧
      (found smallCsr s s ⟨1, 2, true, 0⟩).isNone ∧
      (Lib.run (step smallStore smallCsr) Lib.AnyStep s [.collect, .publishSnapshot]).any
        (fun s => (found smallCsr s s ⟨1, 2, true, 0⟩).isSome) = true :=
  Lib.exists_reach_of_run (step smallStore smallCsr) Lib.AnyStep (initial smallStore)
    [.store (putOneTwo (bytes "a")), .store (.publish 0)]
    (fun s => ((∃ p ∈ s.store.history, putKey p = ⟨1, 2, true, 0⟩) ∧
        s.NeverDeleted ⟨1, 2, true, 0⟩) ∧ (found smallCsr s s ⟨1, 2, true, 0⟩).isNone ∧
      (Lib.run (step smallStore smallCsr) Lib.AnyStep s [.collect, .publishSnapshot]).any
        (fun s => (found smallCsr s s ⟨1, 2, true, 0⟩).isSome) = true)
    (by decide +kernel)

end CsrStore

end Store

end RichGraph
