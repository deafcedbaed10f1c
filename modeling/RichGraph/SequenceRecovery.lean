-- The sequences after a clean close. Every shard stores the first sequence that it
-- has not seen; a file without it has its SSTs scanned. The database goes on after
-- the largest sequence of its shards and the largest commit of their deltas.
import RichGraph.Contents
import RichGraph.GraphDb
import RichGraph.PropertyDeltaStore

namespace RichGraph

/-! ## Sequences in a store -/

namespace Store

open Compaction

/-- Every record that the store still has is below a sequence. -/
structure SequencesBelow (n : Nat) (s : Store) : Prop where
  tables : ∀ t ∈ s.menTables, ∀ v, ∀ e ∈ (t.adj v).edges, e.sequence < n
  level0 : ∀ f ∈ s.level0, ∀ r ∈ f.records, r.seq < n
  levels : ∀ l, ∀ f ∈ s.levels l, ∀ r ∈ f.records, r.seq < n
  job : ∀ j, s.job = some j → ∀ r ∈ j.rest, r.seq < n

variable {o : Options} {s s' : Store} {n : Nat}

theorem SequencesBelow.mono {m : Nat} (h : SequencesBelow n s) (hm : n ≤ m) :
    SequencesBelow m s where
  tables := fun t ht v e he => Nat.lt_of_lt_of_le (h.tables t ht v e he) hm
  level0 := fun f hf r hr => Nat.lt_of_lt_of_le (h.level0 f hf r hr) hm
  levels := fun l f hf r hr => Nat.lt_of_lt_of_le (h.levels l f hf r hr) hm
  job := fun j hj r hr => Nat.lt_of_lt_of_le (h.job j hj r hr) hm

theorem sequencesBelow_putRecord {src : Nat} {e : Edge} (h : SequencesBelow n s)
    (he : e.sequence < n) : SequencesBelow n (putRecord o src e s) where
  tables := by
    intro t ht v x hx
    rcases mem_menTables_putRecord ht with ht | rfl | rfl
    · exact h.tables t (mem_menTables_of_immutables ht) v x hx
    · rcases mem_edges_table_putEdge.mp hx with ⟨-, rfl⟩ | hx
      · exact he
      · exact h.tables s.active (List.mem_append_right _ List.mem_cons_self) v x hx
    · rw [edges_fresh] at hx
      cases hx
  level0 := by rw [putRecord_level0]; exact h.level0
  levels := by rw [putRecord_levels]; exact h.levels
  job := by rw [putRecord_job]; exact h.job

theorem sequencesBelow_putEdge {src dst q : Nat} {payload : Bytes} {mode : EdgeInsertMode}
    {isOut : Bool} {edgeType : UInt8} (h : SequencesBelow n s) (hq : q < n)
    (hput : putEdge o src dst payload mode isOut edgeType { s with nextSequence := q } = some s') :
    SequencesBelow n s' := by
  have h' : SequencesBelow n { s with nextSequence := q + 1 } :=
    ⟨h.tables, h.level0, h.levels, h.job⟩
  obtain ⟨e, heq, -, -, -, -, -, rfl | ⟨e', heq', -, -, -, -, -, -, rfl⟩⟩ := putEdge_cases hput
  · exact sequencesBelow_putRecord h' (by rw [heq]; exact hq)
  · exact sequencesBelow_putRecord (sequencesBelow_putRecord h' (by rw [heq]; exact hq))
      (by rw [heq']; exact hq)

theorem sequencesBelow_publish {fid : Nat} (h : SequencesBelow n s)
    (hpub : publish o fid s = some s') : SequencesBelow n s' := by
  obtain ⟨t, f, ht, -, hf, rfl⟩ := publish_cases hpub
  have hnew : ∀ r ∈ f.records, r.seq < n := by
    intro r hr
    have hmem : r ∈ f.recordsOf r.src := SSTable.mem_recordsOf.mpr ⟨hr, rfl⟩
    obtain ⟨e, he, heq⟩ := List.mem_map.mp
      (((MemTable.save2eSSTable_spec hf).2 r.src).mem_iff.mp hmem)
    rw [← heq]
    exact h.tables t (mem_menTables_of_immutables ht) r.src e he
  refine ⟨fun t' ht' => ?_, fun g hg => ?_, h.levels, h.job⟩
  · rcases List.mem_append.mp ht' with ht' | ht'
    · exact h.tables t' (mem_menTables_of_immutables (List.mem_of_mem_filter ht'))
    · exact h.tables t' (List.mem_append_right _ ht')
  · rcases (List.mem_orderedInsert _).mp hg with rfl | hg
    · exact hnew
    · exact h.level0 g hg

theorem sequencesBelow_sortAdjacency {fid src : Nat} (h : SequencesBelow n s)
    (hsort : sortAdjacency fid src s = some s') : SequencesBelow n s' := by
  obtain ⟨h0, hl, hj, -⟩ := sortAdjacency_cases hsort
  refine ⟨fun t' ht' v x hx => ?_, by rw [h0]; exact h.level0, by rw [hl]; exact h.levels,
    by rw [hj]; exact h.job⟩
  obtain ⟨t, ht, rfl | ⟨rfl, -⟩⟩ := (tables_sortAdjacency hsort).1 t' ht'
  · exact h.tables t' ht v x hx
  · exact h.tables t ht v x (mem_edges_sortAdjacency.mp hx)

theorem filesAt_below (h : SequencesBelow n s) (level : Nat) :
    ∀ f ∈ s.filesAt level, ∀ r ∈ f.records, r.seq < n := by
  unfold filesAt
  split
  · exact h.level0
  · exact h.levels level

theorem mem_levels_of_moved {level l : Nat} {inputs0 : List SSTable} {f : SSTable}
    (hf : f ∈ (directAdjustLevel level inputs0 s).levels l) : f ∈ inputs0 ∨ f ∈ s.levels l := by
  by_cases h1 : l = level + 1
  · subst h1
    exact mem_moved_levels_next.mp hf
  · by_cases h2 : l = level
    · subst h2
      rw [moved_levels_same] at hf
      exact Or.inr (mem_removeCache.mp hf).1
    · rw [moved_levels_other h1 h2] at hf
      exact Or.inr hf

theorem mem_levels_of_started {level l : Nat} {sel : Selection}
    {hm : (mergeInputs level sel.inputs0 sel.inputs1).Pairwise EdgeRecord.le} {f : SSTable}
    (hf : f ∈ (started level sel hm s).levels l) : f ∈ s.levels l := by
  by_cases h1 : l = level + 1
  · subst h1
    rw [started_levels_next] at hf
    exact (mem_removeCache.mp hf).1
  · by_cases h2 : l ≠ level ∨ level = 0
    · rwa [started_levels_other h1 h2] at hf
    · push Not at h2
      obtain ⟨rfl, h0⟩ := h2
      rw [started_levels_same h0] at hf
      exact (mem_removeCache.mp hf).1

/-- The lists and the merge have files and records that were in the lists before. -/
theorem sequencesBelow_pick {level : Nat} (h : SequencesBelow n s)
    (hpick : pick o level s = some s') : SequencesBelow n s' := by
  obtain ⟨hjob, -, -, sel, -, hsel, ⟨-, -, rfl⟩ | ⟨hm, rfl⟩⟩ := pick_cases hpick
  · refine ⟨h.tables, h.level0, fun l f hf => ?_, fun j hj => by cases hjob.symm.trans hj⟩
    rcases mem_levels_of_moved hf with hf | hf
    · exact filesAt_below h level f (hsel.sub0.mem hf)
    · exact h.levels l f hf
  · refine ⟨h.tables, h.level0, fun l f hf => h.levels l f (mem_levels_of_started hf), ?_⟩
    intro j hj r hr
    cases hj
    obtain ⟨f, hf, hr⟩ := List.mem_flatMap.mp ((mergeInputs_perm level _ _).mem_iff.mp hr)
    rcases List.mem_append.mp hf with hf | hf
    · exact filesAt_below h level f (hsel.sub0.mem hf) r hr
    · exact h.levels (level + 1) f (hsel.sub1.mem hf) r hr

theorem sequencesBelow_writeEnd (h : SequencesBelow n s) (hw : writeEnd o s = some s') :
    SequencesBelow n s' := by
  obtain ⟨j, hj, -, ⟨-, rfl⟩ | ⟨-, hr, rfl⟩⟩ := writeEnd_cases hw
  all_goals
    have hrest : ∀ r ∈ (j.output o).1 ++ (j.output o).2, r.seq < n := by
      rw [j.output_append o]
      exact h.job j hj
  · refine ⟨h.tables, h.level0, h.levels, fun j' hj' r hr => ?_⟩
    cases hj'
    exact hrest r (List.mem_append_right _ hr)
  · refine ⟨h.tables, h.level0, fun l f hf => ?_, fun j' hj' r hr => ?_⟩
    · by_cases hl : l = j.level + 1
      · subst hl
        rcases mem_installed_levels_next.mp hf with rfl | hf
        · exact fun r hr => hrest r (List.mem_append_left _ hr)
        · exact h.levels _ f hf
      · rw [installed_levels_other hl] at hf
        exact h.levels l f hf
    · cases hj'
      exact hrest r (List.mem_append_right _ hr)

theorem sequencesBelow_finish (h : SequencesBelow n s) (hf : finish s = some s') :
    SequencesBelow n s' := by
  obtain ⟨j, -, -, rfl⟩ := finish_cases hf
  exact ⟨h.tables, fun f hf => h.level0 f ((level0_finished j s).mem hf), h.levels,
    fun j' hj' => by cases hj'⟩

theorem sequencesBelow_background {a : Action} (ha : GraphDb.Background a = true)
    (h : SequencesBelow n s) (hs : step o s a = some s') : SequencesBelow n s' := by
  cases a with
  | putEdge src dst payload mode isOut edgeType => cases ha
  | sortAdjacency fid src => exact sequencesBelow_sortAdjacency h hs
  | publish fid => exact sequencesBelow_publish h hs
  | pick level => exact sequencesBelow_pick h hs
  | writeEnd => exact sequencesBelow_writeEnd h hs
  | finish => exact sequencesBelow_finish h hs

/-! ## A close and an open -/

/-- `~LSMStore` saves the active table when it has edges. -/
def saveActive (o : Options) (s : Store) : Option Store :=
  publish o s.active.fid
    { s with
      immutables := s.immutables ++ [s.active]
      active := .fresh s.currentTime o.maxEdgeNum
      currentTime := s.currentTime + 1 }

theorem sequencesBelow_saveActive (h : SequencesBelow n s) (hs : saveActive o s = some s') :
    SequencesBelow n s' := by
  have hmoved : SequencesBelow n { s with
      immutables := s.immutables ++ [s.active]
      active := .fresh s.currentTime o.maxEdgeNum
      currentTime := s.currentTime + 1 } := by
    refine ⟨fun t ht => ?_, h.level0, h.levels, h.job⟩
    rcases List.mem_append.mp ht with ht | ht
    · exact h.tables t ht
    · rw [List.mem_singleton.mp ht]
      exact fun v e he => nomatch he
  exact sequencesBelow_publish hmoved hs

/-- All that is left of a store is in its files. -/
def Closed (s : Store) : Prop :=
  s.immutables.isEmpty = true ∧ s.active.listLength = 0 ∧ s.job.isNone = true

instance (s : Store) : Decidable s.Closed := inferInstanceAs (Decidable (_ ∧ _))

/-- The files that `file.info` names. -/
def listedFiles (s : Store) : List SSTable := s.level0 ++ diskLevels.flatMap s.levels

/-- The slots of the index that the load fills: those of the last file of a level with the
vertex. -/
def loadedIndex (s : Store) (v : Nat) : MulLevelIndex :=
  { levels := fun slot =>
      (((s.levels (slot + 1)).reverse.findSome? fun f =>
        (f.offsets v).map fun p => LevelEntry.mk f.timeStamp p.1 p.2).getD ⟨invalidFileId, 0, 0⟩)
    minLevel0Fid := 0 }

/-- `LSMStore` with `FLAGS_LOAD_OLD_DATA`: the files of the directory, and an empty table with an
id after theirs. -/
def loaded (o : Options) (s : Store) : Store :=
  let fid := (s.listedFiles.map SSTable.timeStamp).foldl max 1 + 1
  { initial o with
    active := .fresh fid o.maxEdgeNum
    level0 := s.level0.insertionSort fun a b => b.timeStamp ≤ a.timeStamp
    levels := fun l =>
      if l ∈ diskLevels then (s.levels l).insertionSort fun a b => a.minKey ≤ b.minKey else []
    index := s.loadedIndex
    vertexMaxLevel := fun v =>
      ((0 :: diskLevels).filter fun l => (s.filesAt l).any fun f => (f.offsets v).isSome).foldl
        (fun most l => max most (l + 1 : Nat)) (-1)
    sstData := fun i => s.listedFiles.find? (·.timeStamp == i)
    currentTime := fid + 1 }

/-- `ScanSstNextTopologySequence`. The sentinel is not a record. -/
def scanSstNextTopologySequence (f : SSTable) : Nat :=
  f.records.foldl (fun next r => max next (r.seq + 1)) 0

/-- The sequence with which a loaded store goes on: that of the trailer of `file.info`, or else
what the files give. -/
def recoveredNextSequence (trailer : Option Nat) (s : Store) : Nat :=
  match trailer with
  | some next => next
  | none => s.listedFiles.foldl (fun next f => max next (scanSstNextTopologySequence f)) 0

theorem seq_lt_scan {f : SSTable} {r : EdgeRecord} (hr : r ∈ f.records) :
    r.seq < scanSstNextTopologySequence f :=
  (Lib.le_foldl_max (fun r : EdgeRecord => r.seq + 1) f.records 0).2 r hr

/-- Both ways give a sequence above every record of the files. -/
theorem seq_lt_recoveredNextSequence {trailer : Option Nat} (h : SequencesBelow n s)
    (htrailer : ∀ next, trailer = some next → n ≤ next) {f : SSTable} (hf : f ∈ s.listedFiles)
    {r : EdgeRecord} (hr : r ∈ f.records) : r.seq < recoveredNextSequence trailer s := by
  cases trailer with
  | some next =>
    refine Nat.lt_of_lt_of_le ?_ (htrailer next rfl)
    rcases List.mem_append.mp hf with hf | hf
    · exact h.level0 f hf r hr
    · obtain ⟨l, -, hf⟩ := List.mem_flatMap.mp hf
      exact h.levels l f hf r hr
  | none => exact Nat.lt_of_lt_of_le (seq_lt_scan hr) ((Lib.le_foldl_max _ s.listedFiles 0).2 f hf)

theorem mem_listedFiles_loaded {f : SSTable} (hf : f ∈ (loaded o s).listedFiles) :
    f ∈ s.listedFiles := by
  rcases List.mem_append.mp hf with hf | hf
  · exact List.mem_append_left _ ((List.mem_insertionSort _).mp hf)
  · obtain ⟨l, hl, hf⟩ := List.mem_flatMap.mp hf
    simp only [loaded, if_pos hl, List.mem_insertionSort] at hf
    exact List.mem_append_right _ (List.mem_flatMap.mpr ⟨l, hl, hf⟩)

theorem sequencesBelow_loaded (h : ∀ f ∈ s.listedFiles, ∀ r ∈ f.records, r.seq < n) :
    SequencesBelow n (loaded o s) where
  tables := by
    intro t ht v e he
    rw [List.mem_singleton.mp ht] at he
    cases he
  level0 := fun f hf => h f (mem_listedFiles_loaded (o := o) (List.mem_append_left _ hf))
  levels := by
    intro l f hf
    by_cases hl : l ∈ diskLevels
    · exact h f (mem_listedFiles_loaded (o := o)
        (List.mem_append_right _ (List.mem_flatMap.mpr ⟨l, hl, hf⟩)))
    · simp only [loaded, if_neg hl, List.not_mem_nil] at hf
  job := fun j hj => nomatch hj

end Store

/-! ## Commits of the deltas -/

namespace PropertyDeltaStore

/-- `maximum_commit_sequence_` after an entry of the recovery. -/
def commitAfterEntry (d : Disk) (most : Nat) (entry : PropertyDeltaManifestEntry) : Nat :=
  if ¬ entry.targetIsPersistent ∧ (d.ssts entry.metadata.target.baseFileId).isNone then most
  else max most entry.metadata.maxCommitSequence

/-- `MaxCommitSequence` of a store that was opened on a disk. -/
def maxCommitSequence (d : Disk) : Nat :=
  match Manifest.openAndRecover d.manifest with
  | .error _ => 0
  | .ok m => m.activeEntries.foldl (commitAfterEntry d) 0

/-- The files that a recovery has put into its chains. -/
def Recovery.Bounded (r : Recovery) (most : Nat) : Prop :=
  ∀ target c, r.chains target = some c → ∀ f ∈ c.readView.deltas,
    f.metadata.maxCommitSequence ≤ most

theorem bounded_recoverEntry {d : Disk} {r r' : Recovery} {entry : PropertyDeltaManifestEntry}
    {most : Nat} (h : r.Bounded most) (hr : recoverEntry d r entry = .ok r') :
    r'.Bounded (commitAfterEntry d most entry) := by
  unfold recoverEntry at hr
  dsimp only at hr
  split at hr
  · rename_i hgone
    cases hr
    rw [commitAfterEntry, if_pos hgone]
    exact h
  · rename_i hkept
    rw [commitAfterEntry, if_neg hkept]
    split at hr
    · cases hr
    · rename_i f _
      split at hr
      · cases hr
      · rename_i hmeta
        cases hr
        intro target c hc g hg
        dsimp only at hc
        split at hc
        · cases hc
          have hmem := (List.mem_insertionSort _).mp hg
          rcases List.mem_append.mp hmem with hold | hnew
          · refine Nat.le_trans ?_ (Nat.le_max_left _ _)
            cases hchain : r.chains entry.metadata.target with
            | none =>
              rw [hchain] at hold
              cases hold
            | some c =>
              rw [hchain] at hold
              exact h _ c hchain g hold
          · rw [List.mem_singleton.mp hnew, not_not.mp hmeta]
            exact Nat.le_max_right _ _
        · exact Nat.le_trans (h target c hc g hg) (Nat.le_max_left _ _)

theorem bounded_recoverEntries {d : Disk} {entries : List PropertyDeltaManifestEntry}
    {r r' : Recovery} {most : Nat} (h : r.Bounded most)
    (hr : recoverEntries d r entries = .ok r') :
    r'.Bounded (entries.foldl (commitAfterEntry d) most) := by
  induction entries generalizing r most with
  | nil =>
    cases hr
    exact h
  | cons entry entries ih =>
    rw [recoverEntries] at hr
    split at hr
    · cases hr
    · rename_i r₁ hentry
      exact ih (bounded_recoverEntry h hentry) hr

theorem commit_le_maxCommitSequence {levels : Nat → Nat} {d : Disk} {s : PropertyDeltaStore}
    (h : openAndRecover levels d = .ok s) {target : PropertyDeltaTarget} {f : PropertyDeltaFile}
    (hf : f ∈ s.memory.deltas target) {r : PropertyDeltaRecord} (hr : r ∈ f.records) :
    r.commitSequence ≤ maxCommitSequence d := by
  refine (f.commits r hr).2.trans ?_
  obtain ⟨m, found, m', hm, hentries, rfl⟩ := recovered_of_open h
  rw [maxCommitSequence, hm]
  have hstart : Recovery.Bounded ⟨fun _ => none, [], [], 0⟩ 0 := fun target c hc => by cases hc
  have hbound := bounded_recoverEntries hstart hentries
  unfold StoreMemory.deltas at hf
  dsimp only [finishRecovery] at hf
  cases hc : found.chains target with
  | none =>
    rw [hc] at hf
    cases hf
  | some c =>
    rw [hc] at hf
    exact hbound target c hc f hf

end PropertyDeltaStore

/-! ## The database -/

/-- The shards of a database, that of the nodes among them, with the directories of their deltas
and the stores that were opened on these. -/
structure SequencedDb where
  stores : Nat → Store
  /-- `next_topology_sequence_` of each shard -/
  nextTopologySequence : Nat → Nat
  disks : Nat → Disk
  deltas : Nat → PropertyDeltaStore
  /-- `next_sequence_` -/
  nextSequence : Nat
  /-- The first commit of the update manager. -/
  initialCommitSequence : Nat

namespace SequencedDb

/-- A put goes to some shards, with a sequence of its own or the next one. Property updates may
leave the delta files of a shard in any state. -/
inductive Action where
  | put (shards : List Nat) (payload : Nat → Bytes) (sequence : Option Nat) (src dst : Nat)
      (mode : Store.EdgeInsertMode) (isOut : Bool) (edgeType : UInt8)
  | background (i : Nat) (a : Store.Action)
  | saveActive (i : Nat)
  | updates (i : Nat) (d : Disk)
  /-- All shards are closed and opened again; `trailer` says where `file.info` has a sequence. -/
  | reopen (trailer : Nat → Bool) (levels : Nat → Nat → Nat)

def initial (o : Nat → Options) : SequencedDb :=
  { stores := fun i => Store.initial (o i)
    nextTopologySequence := fun _ => 0
    disks := fun _ => Disk.empty
    deltas := fun _ => ⟨Disk.empty, ⟨1, [], fun _ => none, 1, [], fun _ => none⟩⟩
    nextSequence := 0
    initialCommitSequence := 1 }

/-- `NextSequence` or `ObserveSequence`: the sequence of a put, and the one after it. -/
def takeSequence (next : Nat) : Option Nat → Nat × Nat
  | none => (next, next + 1)
  | some q => (q, if q = maxSeqId then next else max next (q + 1))

/-- `put_edge` in each of the shards, where `ObserveTopologySequence` comes first. -/
def put (o : Nat → Options) (shards : List Nat) (put : Nat → Store.Action) (sequence : Nat)
    (db : SequencedDb) : Option SequencedDb :=
  let next := fun i => Store.step (o i) { db.stores i with nextSequence := sequence } (put i)
  if shards.all fun i => (next i).isSome then
    some { db with
      stores := fun i => if i ∈ shards then (next i).getD (db.stores i) else db.stores i
      nextTopologySequence := fun i =>
        if i ∈ shards then max (db.nextTopologySequence i) (sequence + 1)
        else db.nextTopologySequence i }
  else none

def setStore (i : Nat) (db : SequencedDb) (s : Store) : SequencedDb :=
  { db with stores := Function.update db.stores i s }

/-- What is read of `file.info` of a shard at the end. -/
def trailerOf (trailer : Nat → Bool) (db : SequencedDb) (i : Nat) : Option Nat :=
  if trailer i then some (db.nextTopologySequence i) else none

/-- `~GraphDb`, and `Init` with `load_existing`. -/
def reopen (n : Nat) (o : Nat → Options) (trailer : Nat → Bool) (levels : Nat → Nat → Nat)
    (db : SequencedDb) : Option SequencedDb :=
  let opened := fun i => (PropertyDeltaStore.openAndRecover (levels i) (db.disks i)).toOption
  let next := fun i => (db.stores i).recoveredNextSequence (db.trailerOf trailer i)
  if ∀ i < n, (db.stores i).Closed ∧ (opened i).isSome then
    some
      { stores := fun i => (db.stores i).loaded (o i)
        nextTopologySequence := next
        disks := db.disks
        deltas := fun i => (opened i).getD (db.deltas i)
        nextSequence := (List.range n).foldl (fun most i => max most (next i)) 0
        initialCommitSequence := (List.range n).foldl
          (fun most i => max most (PropertyDeltaStore.maxCommitSequence (db.disks i) + 1)) 1 }
  else none

def step (n : Nat) (o : Nat → Options) (db : SequencedDb) : Action → Option SequencedDb
  | .put shards payload sequence src dst mode isOut edgeType =>
    let q := takeSequence db.nextSequence sequence
    (put o shards (fun i => .putEdge src dst (payload i) mode isOut edgeType) q.1 db).map
      fun db => { db with nextSequence := q.2 }
  | .background i a =>
    if GraphDb.Background a then (Store.step (o i) (db.stores i) a).map (db.setStore i) else none
  | .saveActive i => ((db.stores i).saveActive (o i)).map (db.setStore i)
  | .updates i d => some { db with disks := Function.update db.disks i d }
  | .reopen trailer levels => db.reopen n o trailer levels

/-- Every shard has only sequences that it has observed. -/
def Inv (db : SequencedDb) : Prop :=
  ∀ i, (db.stores i).SequencesBelow (db.nextTopologySequence i)

variable {n : Nat} {o : Nat → Options} {db db' : SequencedDb}

theorem inv_setStore {i : Nat} {s : Store} (h : Inv db)
    (hs : s.SequencesBelow (db.nextTopologySequence i)) : Inv (db.setStore i s) := by
  intro j
  by_cases hj : j = i
  · subst hj
    simpa [setStore] using hs
  · simpa [setStore, hj] using h j

theorem inv_put {shards : List Nat} {payload : Nat → Bytes} {q src dst : Nat}
    {mode : Store.EdgeInsertMode} {isOut : Bool} {edgeType : UInt8} (h : Inv db)
    (hs : put o shards (fun i => .putEdge src dst (payload i) mode isOut edgeType) q db =
      some db') :
    Inv db' := by
  unfold put at hs
  dsimp only at hs
  split at hs
  · rename_i hall
    cases hs
    intro i
    dsimp only
    split
    · rename_i hi
      obtain ⟨s, hstep⟩ := Option.isSome_iff_exists.mp (List.all_eq_true.mp hall i hi)
      rw [hstep]
      exact Store.sequencesBelow_putEdge ((h i).mono (Nat.le_max_left _ _))
        (Nat.lt_of_lt_of_le (Nat.lt_succ_self q) (Nat.le_max_right _ _)) hstep
    · exact h i
  · cases hs

theorem trailerOf_le (trailer : Nat → Bool) (i : Nat) :
    ∀ next, db.trailerOf trailer i = some next → db.nextTopologySequence i ≤ next := by
  intro next hnext
  unfold trailerOf at hnext
  split at hnext
  · cases hnext
    exact Nat.le_refl _
  · cases hnext

theorem inv_reopen {trailer : Nat → Bool} {levels : Nat → Nat → Nat} (h : Inv db)
    (hs : db.reopen n o trailer levels = some db') : Inv db' := by
  unfold reopen at hs
  dsimp only at hs
  split at hs
  · cases hs
    intro i
    refine Store.sequencesBelow_loaded fun f hf r hr => ?_
    exact Store.seq_lt_recoveredNextSequence (h i) (trailerOf_le trailer i) hf hr
  · cases hs

theorem inv_step {a : Action} (h : Inv db) (hs : step n o db a = some db') : Inv db' := by
  cases a with
  | put shards payload sequence src dst mode isOut edgeType =>
    obtain ⟨db₁, hput, rfl⟩ := Option.map_eq_some_iff.mp hs
    exact (inv_put h hput :)
  | background i a =>
    simp only [step] at hs
    split at hs
    · rename_i ha
      obtain ⟨s, hstep, rfl⟩ := Option.map_eq_some_iff.mp hs
      exact inv_setStore h (Store.sequencesBelow_background ha (h i) hstep)
    · cases hs
  | saveActive i =>
    obtain ⟨s, hsave, rfl⟩ := Option.map_eq_some_iff.mp hs
    exact inv_setStore h (Store.sequencesBelow_saveActive (h i) hsave)
  | updates i d =>
    cases hs
    exact h
  | reopen trailer levels => exact inv_reopen h hs

theorem inv_initial (o : Nat → Options) : Inv (initial o) := fun _ =>
  { tables := by
      intro t ht v e he
      rw [List.mem_singleton.mp ht] at he
      cases he
    level0 := fun _ hf => nomatch hf
    levels := fun _ _ hf => nomatch hf
    job := fun _ hj => nomatch hj }

end SequencedDb

end RichGraph
