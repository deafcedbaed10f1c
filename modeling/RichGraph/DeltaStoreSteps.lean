-- What holds of a delta store between its calls, and what the calls do: the disk
-- has the files of every chain, and the column under a chain is the one on disk.
import RichGraph.StoreRecovery

namespace RichGraph

open Lib Manifest

theorem Sound.congr {d d' : Disk} {es : List Edit} {live : LiveFiles} (h : Sound d es live)
    (hmanifest : d'.manifest = d.manifest)
    (hfiles : ∀ p ∈ live, d'.files p.1.fileName = d.files p.1.fileName) : Sound d' es live :=
  ⟨hmanifest.trans h.manifest, h.logged, h.active, h.rising,
    fun p hp => (hfiles p hp).trans (h.files p hp)⟩

/-! ## Steps -/

section

variable (d : Disk) (file : Bytes)

@[simp] theorem Disk.after_cons (step : DiskStep) (steps : List DiskStep) :
    d.after (step :: steps) = (step.apply d).after steps := rfl

@[simp] theorem manifest_writeManifest :
    ((DiskStep.writeManifest file).apply d).manifest = file := rfl

end

/-! ## Reads -/

/-- What a read gives depends on the records, the column and the deltas only. -/
theorem PropertyDeltaReadView.read_congr {v v' : PropertyDeltaReadView} {layout : ShardLayout}
    {data data' : SstData} {propertyId : Nat} (hdeltas : v.deltas = v'.deltas)
    (hsst : data.sst = data'.sst)
    (hbase : baseColumn data propertyId v.mergedBase = baseColumn data' propertyId v'.mergedBase)
    (id : RecordId) : v.read layout data propertyId id = v'.read layout data' propertyId id := by
  unfold PropertyDeltaReadView.read PropertyDeltaReadView.lookup
  rw [hdeltas, hsst, hbase]

/-- What the disk holds of an edge: the newest of the live deltas, or else its slot. -/
def Disk.read (d : Disk) (o : StoreOptions) (live : LiveFiles) (fid propertyId : Nat)
    (id : RecordId) : Option Bytes :=
  (d.ssts fid).bind fun sst =>
    (⟨none, live.of (o.target fid propertyId), 0⟩ : PropertyDeltaReadView).read o.layout
      (FileOrigin.flushed.data sst (d.columns fid)) propertyId id

theorem Disk.read_congr {d d' : Disk} {o : StoreOptions} {live live' : LiveFiles}
    (hssts : d'.ssts = d.ssts) (hcolumns : d'.columns = d.columns)
    (hlive : ∀ fid propertyId, live'.of (o.target fid propertyId) =
      live.of (o.target fid propertyId)) (fid propertyId : Nat) (id : RecordId) :
    d'.read o live' fid propertyId id = d.read o live fid propertyId id := by
  unfold Disk.read
  rw [hssts, hcolumns, hlive]

/-- A merged batch does not change what is read, as long as its files are live. -/
theorem Disk.read_rename {d : Disk} {o : StoreOptions} {live : LiveFiles} {fid propertyId : Nat}
    {data : SstData} {batch : List PropertyDeltaFile} {column : Bytes} {m : MergeFile}
    (hm : m.baseFileId = fid ∧ m.propertyId = propertyId)
    (hsst : ∀ sst, d.ssts fid = some sst → data.sst = sst)
    (hbatch : ∀ f ∈ batch, f ∈ live.of (o.target fid propertyId))
    (hmerge : mergeRecords data fid (o.layout.slotLength propertyId) (d.columns fid propertyId)
      (chainRecords batch) = .ok column) (fid' propertyId' : Nat) (id : RecordId) :
    ((DiskStep.renameMerge m column).apply d).read o live fid' propertyId' id =
      d.read o live fid' propertyId' id := by
  obtain ⟨rfl, rfl⟩ := hm
  unfold Disk.read
  simp only [DiskStep.apply]
  cases hssts : d.ssts fid' with
  | none => rfl
  | some sst =>
    simp only [Option.bind_some]
    by_cases hcol : fid' = m.baseFileId ∧ propertyId' = m.propertyId
    swap
    · refine PropertyDeltaReadView.read_congr rfl ?_ ?_ id
      · rfl
      · simp [baseColumn, FileOrigin.data, hcol]
    obtain ⟨rfl, rfl⟩ := hcol
    have hdata := hsst sst hssts
    subst hdata
    unfold PropertyDeltaReadView.read
    simp only [FileOrigin.data, baseColumn, Option.getD_none, and_self, if_true]
    cases hn : data.sst.records.findIdx? (·.id = id) with
    | none => rfl
    | some n =>
      simp only [Option.map_some]
      split
      · rfl
      · -- No live delta is for this edge, so that the batch has left its slot alone.
        rename_i hlookup
        rw [PropertyDeltaReadView.lookup_eq_none_iff] at hlookup
        have hnone : (chainRecords batch).reverse.find?
            (data.locateSstEdgeOrdinal · = some n) = none := by
          apply List.find?_eq_none.mpr
          intro r hr hloc
          have hr' := List.mem_reverse.mp hr
          have hid := (located_iff_of_ok hmerge hn hr').mp (of_decide_eq_true hloc)
          obtain ⟨f, hf, hrf⟩ := List.mem_flatMap.mp hr'
          have hlive : r ∈ chainRecords (live.of (o.target m.baseFileId m.propertyId)) :=
            List.mem_flatMap.mpr ⟨f, hbatch f hf, hrf⟩
          have hseen := hlookup r hlive
          rw [seen_latest hrf, hid] at hseen
          simp at hseen
        rw [(slotAt_mergeRecords hmerge).2 n, hnone]
        rfl

/-! ## The invariant -/

namespace PropertyDeltaStore

variable {o : StoreOptions} {s : PropertyDeltaStore} {es : List Edit} {live : LiveFiles}

/-- The store with the edits of its log and its live files. -/
structure Logs (s : PropertyDeltaStore) (es : List Edit) (live : LiveFiles) : Prop where
  sound : Sound s.disk es live
  manifest : s.manifest = ofEdits es
  fit : ∀ e ∈ es, e.payload.length ≤ maxPayloadBytes
  small : s.disk.manifest.length ≤ logLimit

/-- Between calls the chains have the live files, over the columns on disk. -/
structure Inv (o : StoreOptions) (s : PropertyDeltaStore) (es : List Edit) (live : LiveFiles) :
    Prop extends s.Logs es live where
  next : ∀ p ∈ live, p.1.metadata.fileGeneration < s.memory.nextFileGeneration
  deltas : ∀ target, s.memory.deltas target = live.of target
  base : ∀ fid sst, s.disk.ssts fid = some sst → ∃ data, s.memory.sstData fid = some data ∧
    data.sst = sst ∧ ∀ propertyId, baseColumn data propertyId
      (s.memory.mergedBase (o.target fid propertyId)) = s.disk.columns fid propertyId
  noBase : ∀ fid, s.disk.ssts fid = none → s.memory.sstData fid = none ∧
    ∀ propertyId, s.memory.mergedBase (o.target fid propertyId) = none

/-- There is room in the log. -/
theorem Logs.room (h : s.Logs es live) : (logOf 1 es).length ≤ 2 * logLimit := by
  have := h.small
  rw [h.sound.manifest] at this
  omega

/-- The store reads what its disk holds. -/
theorem Inv.read_eq (h : s.Inv o es live) (fid propertyId : Nat) (id : RecordId) :
    s.read o fid propertyId id = s.disk.read o live fid propertyId id := by
  unfold PropertyDeltaStore.read Disk.read
  cases hsst : s.disk.ssts fid with
  | none =>
    rw [(h.noBase fid hsst).1]
    rfl
  | some sst =>
    obtain ⟨data, hdata, hrecords, hcolumn⟩ := h.base fid sst hsst
    rw [hdata]
    apply PropertyDeltaReadView.read_congr (h.deltas _) hrecords
    rw [hcolumn propertyId]
    rfl

/-- The new memory differs in nothing that the invariant is about. -/
structure Keeps (memory memory' : StoreMemory) : Prop where
  manifest : memory'.nextEditSequence = memory.nextEditSequence ∧
    memory'.activeEntries = memory.activeEntries
  next : memory.nextFileGeneration ≤ memory'.nextFileGeneration
  deltas : ∀ target, memory'.deltas target = memory.deltas target
  mergedBase : ∀ target, memory'.mergedBase target = memory.mergedBase target
  sstData : memory'.sstData = memory.sstData

theorem Keeps.refl (memory : StoreMemory) : Keeps memory memory :=
  ⟨⟨rfl, rfl⟩, Nat.le_refl _, fun _ => rfl, fun _ => rfl, rfl⟩

section

variable {s' : PropertyDeltaStore} {es' : List Edit} {live' : LiveFiles}

/-- The bases and their columns are as before. -/
theorem Inv.of_log (h : s.Inv o es live) (hlog : s'.Logs es' live')
    (hnext : ∀ p ∈ live', p.1.metadata.fileGeneration < s'.memory.nextFileGeneration)
    (hdeltas : ∀ target, s'.memory.deltas target = live'.of target)
    (hbase : ∀ target, s'.memory.mergedBase target = s.memory.mergedBase target)
    (hdata : s'.memory.sstData = s.memory.sstData) (hssts : s'.disk.ssts = s.disk.ssts)
    (hcolumns : s'.disk.columns = s.disk.columns) : s'.Inv o es' live' where
  toLogs := hlog
  next := hnext
  deltas := hdeltas
  base fid sst hsst := by
    rw [hssts] at hsst
    rw [hdata, hcolumns]
    simp only [hbase]
    exact h.base fid sst hsst
  noBase fid hsst := by
    rw [hssts] at hsst
    rw [hdata]
    simp only [hbase]
    exact h.noBase fid hsst

/-- A disk that has the log, the live files and the bases as before. -/
theorem Inv.keeps (h : s.Inv o es live) (hmanifest : s'.disk.manifest = s.disk.manifest)
    (hfiles : ∀ p ∈ live, s'.disk.files p.1.fileName = s.disk.files p.1.fileName)
    (hssts : s'.disk.ssts = s.disk.ssts) (hcolumns : s'.disk.columns = s.disk.columns)
    (hkeeps : Keeps s.memory s'.memory) : s'.Inv o es live := by
  refine h.of_log ⟨h.sound.congr hmanifest hfiles, ?_, h.fit, hmanifest ▸ h.small⟩ ?_ ?_
    hkeeps.mergedBase hkeeps.sstData hssts hcolumns
  · rw [← h.manifest]
    unfold PropertyDeltaStore.manifest
    rw [hmanifest, hkeeps.manifest.1, hkeeps.manifest.2]
  · exact fun p hp => Nat.lt_of_lt_of_le (h.next p hp) hkeeps.next
  · exact fun target => (hkeeps.deltas target).trans (h.deltas target)

/-- A call that does nothing on disk. -/
theorem Inv.keeps_apply (h : s.Inv o es live) {e : Effect} (hsteps : e.steps = [])
    (hkeeps : Keeps s.memory e.memory) : (s.apply e).Inv o es live := by
  have hdisk : (s.apply e).disk = s.disk := by
    unfold apply
    rw [hsteps]
    rfl
  refine h.keeps ?_ (fun _ _ => ?_) ?_ ?_ hkeeps <;> rw [hdisk]

end

end PropertyDeltaStore

/-! ## Chains in memory -/

section

variable {memory : StoreMemory} {target t : PropertyDeltaTarget} {c : Chain}

@[simp] theorem StoreMemory.deltas_setChain : (memory.setChain target c).deltas t =
    if t = target then c.readView.deltas else memory.deltas t := by
  unfold StoreMemory.deltas StoreMemory.setChain
  by_cases h : t = target <;> simp [h]

@[simp] theorem StoreMemory.mergedBase_setChain : (memory.setChain target c).mergedBase t =
    if t = target then c.readView.mergedBase else memory.mergedBase t := by
  unfold StoreMemory.mergedBase StoreMemory.setChain
  by_cases h : t = target <;> simp [h]

theorem StoreMemory.getOrCreateChain_readView (memory : StoreMemory) (target : PropertyDeltaTarget)
    (targetIsPersistent : Bool) :
    (memory.getOrCreateChain target targetIsPersistent).readView.deltas = memory.deltas target ∧
      (memory.getOrCreateChain target targetIsPersistent).readView.mergedBase =
        memory.mergedBase target := by
  unfold StoreMemory.getOrCreateChain StoreMemory.deltas StoreMemory.mergedBase
  simp only
  split <;> cases memory.chains target <;> exact ⟨rfl, rfl⟩

end

namespace PropertyDeltaStore

variable {o : StoreOptions} {s : PropertyDeltaStore} {es : List Edit} {live : LiveFiles}

/-! ## Attach -/

theorem keeps_setChain {memory : StoreMemory} {target : PropertyDeltaTarget} {c : Chain}
    (hdeltas : c.readView.deltas = memory.deltas target)
    (hbase : c.readView.mergedBase = memory.mergedBase target) :
    Keeps memory (memory.setChain target c) where
  manifest := ⟨rfl, rfl⟩
  next := Nat.le_refl _
  deltas t := by
    by_cases h : t = target <;> simp [h, hdeltas]
  mergedBase t := by
    by_cases h : t = target <;> simp [h, hbase]
  sstData := rfl

theorem Keeps.trans {a b c : StoreMemory} (hab : Keeps a b) (hbc : Keeps b c) : Keeps a c where
  manifest := ⟨hbc.manifest.1.trans hab.manifest.1, hbc.manifest.2.trans hab.manifest.2⟩
  next := Nat.le_trans hab.next hbc.next
  deltas t := (hbc.deltas t).trans (hab.deltas t)
  mergedBase t := (hbc.mergedBase t).trans (hab.mergedBase t)
  sstData := hbc.sstData.trans hab.sstData

theorem keeps_generation (memory : StoreMemory) :
    Keeps memory { memory with nextFileGeneration := memory.nextFileGeneration + 1 } :=
  ⟨⟨rfl, rfl⟩, Nat.le_succ _, fun _ => rfl, fun _ => rfl, rfl⟩

/-- The records of added files are small. -/
theorem fit_append {es' : List Edit} (hfit : ∀ e ∈ es, e.payload.length ≤ maxPayloadBytes)
    (hadds : ∀ e ∈ es', ∃ p, e = .add (entryOf p)) :
    ∀ e ∈ es ++ es', e.payload.length ≤ maxPayloadBytes := by
  intro e he
  rcases List.mem_append.mp he with he | he
  · exact hfit e he
  · obtain ⟨p, rfl⟩ := hadds e he
    exact Nat.le_trans (length_payload_add_le p) (by decide)

theorem adds_addAgain {fs : List PropertyDeltaFile} :
    ∀ e ∈ addAgain fs, ∃ p, e = .add (entryOf p) := by
  intro e he
  obtain ⟨f, -, rfl⟩ := List.mem_map.mp he
  exact ⟨_, rfl⟩

/-- A file is added to a log that is not too long. -/
theorem append_add (hlog : Logged es) (hsmall : (logOf 1 es).length ≤ 2 * logLimit)
    (p : PropertyDeltaFile × Bool) :
    append (.add (entryOf p)) .succeeds (ofEdits es) =
        (ofEdits (es ++ [.add (entryOf p)]), true) ∧ Logged (es ++ [.add (entryOf p)]) := by
  have hle : (Edit.add (entryOf p)).payload.length ≤ maxUInt32 :=
    Nat.le_trans (length_payload_add_le p) (by decide)
  have hroom : (logOf 1 es).length + ((Edit.add (entryOf p)).record (es.length + 1)).length ≤
      maxFileBytes := by
    have hlarge : 2 * logLimit + headerBytes + 167 ≤ maxFileBytes := by decide
    have := length_payload_add_le p
    rw [length_record_eq]
    omega
  refine ⟨?_, hlog.concat (accepted_add p) hle hroom⟩
  rw [ofEdits_concat]
  exact append_of_room (by simp) (accepted_add p) hle hroom

/-- An `Attach` makes the file and adds it, in a memory that is otherwise as before. -/
structure Attaches (s : PropertyDeltaStore) (es : List Edit) (target : PropertyDeltaTarget)
    (targetIsPersistent : Bool) (e : Effect) (f : PropertyDeltaFile) (flag : Bool)
    (memory : StoreMemory) : Prop where
  onTarget : f.metadata.target = target
  flag_eq : (s.memory.getOrCreateChain target targetIsPersistent).targetIsPersistent = flag
  generation : f.metadata.fileGeneration = s.memory.nextFileGeneration
  logged : Logged (es ++ [.add (entryOf (f, flag))])
  steps : e.steps =
    [.createDelta f.fileName f, .writeManifest (logOf 1 (es ++ [.add (entryOf (f, flag))]))]
  returned : e.returned = true
  keeps : Keeps s.memory memory
  next : memory.nextFileGeneration = s.memory.nextFileGeneration + 1
  memory : e.memory =
    (memory.setManifest (ofEdits (es ++ [.add (entryOf (f, flag))]))).setChain target
      ((s.memory.getOrCreateChain target targetIsPersistent).attach f)

theorem keeps_getOrCreateChain (memory : StoreMemory) (target : PropertyDeltaTarget)
    (targetIsPersistent : Bool) :
    Keeps memory { memory.setChain target (memory.getOrCreateChain target targetIsPersistent) with
      nextFileGeneration := memory.nextFileGeneration + 1 } := by
  obtain ⟨hdeltas, hbase⟩ := memory.getOrCreateChain_readView target targetIsPersistent
  exact (keeps_setChain hdeltas hbase).trans (keeps_generation _)

theorem fileName_of_create {target : PropertyDeltaTarget} {generation : Nat}
    {records : List PropertyDeltaRecord} {f : PropertyDeltaFile}
    (hf : PropertyDeltaFile.create target generation records = some f) :
    f.fileName = deltaFileName target generation := by
  obtain ⟨htarget, hgeneration, -⟩ := PropertyDeltaFile.of_create hf
  rw [PropertyDeltaFile.fileName, htarget, hgeneration]

theorem entryOf_mk (f : PropertyDeltaFile) (flag : Bool) :
    entryOf (f, flag) = ⟨f.fileName, f.metadata, flag⟩ := rfl

theorem attach_of_create (h : s.Inv o es live) {target : PropertyDeltaTarget}
    {records : List PropertyDeltaRecord} {f : PropertyDeltaFile} (targetIsPersistent : Bool)
    (hf : PropertyDeltaFile.create target s.memory.nextFileGeneration records = some f) :
    ∃ flag memory, s.Attaches es target targetIsPersistent
      (s.attach target records targetIsPersistent .succeeds) f flag memory := by
  have hne : records ≠ [] := by
    rintro rfl
    simp [PropertyDeltaFile.create] at hf
  obtain ⟨htarget, hgeneration, -⟩ := PropertyDeltaFile.of_create hf
  have hname := fileName_of_create hf
  obtain ⟨happend, hlog⟩ := append_add h.sound.logged h.room
    (f, (s.memory.getOrCreateChain target targetIsPersistent).targetIsPersistent)
  unfold attach
  rw [if_neg hne]
  simp only [hf, ← hname, ← entryOf_mk]
  rw [h.manifest, happend]
  exact ⟨_, _, htarget, rfl, hgeneration, hlog, rfl, rfl,
    keeps_getOrCreateChain s.memory target targetIsPersistent, rfl, rfl⟩

/-- What an `Attach` does whose writes all succeed: nothing, or it makes a file and adds it. -/
theorem attach_cases (h : s.Inv o es live) (target : PropertyDeltaTarget)
    (records : List PropertyDeltaRecord) (targetIsPersistent : Bool) :
    ((s.attach target records targetIsPersistent .succeeds).steps = [] ∧
        (s.attach target records targetIsPersistent .succeeds).returned = false ∧
        Keeps s.memory (s.attach target records targetIsPersistent .succeeds).memory) ∨
    ∃ f flag memory, s.Attaches es target targetIsPersistent
      (s.attach target records targetIsPersistent .succeeds) f flag memory := by
  cases hf : PropertyDeltaFile.create target s.memory.nextFileGeneration records with
  | some f => exact Or.inr ⟨f, attach_of_create h targetIsPersistent hf⟩
  | none =>
    left
    unfold attach
    split
    · exact ⟨rfl, rfl, Keeps.refl _⟩
    · simp only [hf]
      exact ⟨trivial, trivial, keeps_getOrCreateChain s.memory target targetIsPersistent⟩

/-- A file of a new generation is created, which changes none of the live ones. -/
theorem files_createDelta {d : Disk} {f : PropertyDeltaFile}
    (hfiles : ∀ p ∈ live, d.files p.1.fileName = some p.1)
    (hnew : ∀ p ∈ live, p.1.metadata.fileGeneration < f.metadata.fileGeneration) :
    ∀ p ∈ live, ((DiskStep.createDelta f.fileName f).apply d).files p.1.fileName = some p.1 := by
  intro p hp
  have hne : p.1.fileName ≠ f.fileName := by
    intro hname
    exact absurd (deltaFileName_generation hname) (Nat.ne_of_lt (hnew p hp))
  simp only [DiskStep.apply, if_neg hne]
  exact hfiles p hp

theorem LiveFiles.of_append (live live' : LiveFiles) (target : PropertyDeltaTarget) :
    LiveFiles.of (live ++ live') target = live.of target ++ live'.of target := by
  simp [LiveFiles.of]

theorem sound_createDelta {d : Disk} {f : PropertyDeltaFile} (h : Sound d es live)
    (hnew : ∀ p ∈ live, p.1.metadata.fileGeneration < f.metadata.fileGeneration) :
    Sound ((DiskStep.createDelta f.fileName f).apply d) es live :=
  ⟨h.manifest, h.logged, h.active, h.rising, files_createDelta h.files hnew⟩

/-- A file that was created is added. -/
theorem sound_add {d : Disk} {f : PropertyDeltaFile} {flag : Bool} (h : Sound d es live)
    (hnew : ∀ p ∈ live, p.1.metadata.fileGeneration < f.metadata.fileGeneration)
    (hfile : d.files f.fileName = some f) (hlog : Logged (es ++ [.add (entryOf (f, flag))])) :
    Sound (d.after [.writeManifest (logOf 1 (es ++ [.add (entryOf (f, flag))]))])
      (es ++ [.add (entryOf (f, flag))]) (live ++ [(f, flag)]) where
  manifest := rfl
  logged := hlog
  active := by
    rw [applyAll_append, h.active]
    exact LiveFiles.applyAdd_new hnew
  rising := by
    apply List.pairwise_append.mpr
    refine ⟨h.rising, List.pairwise_singleton _ _, ?_⟩
    intro p hp q hq
    rw [List.mem_singleton.mp hq]
    exact hnew p hp
  files := by
    intro p hp
    rcases List.mem_append.mp hp with hp | hp
    · exact h.files p hp
    · rw [List.mem_singleton.mp hp]
      exact hfile

/-- The disk after an `Attach`. -/
theorem sound_attach {d : Disk} {f : PropertyDeltaFile} {flag : Bool} (h : Sound d es live)
    (hnew : ∀ p ∈ live, p.1.metadata.fileGeneration < f.metadata.fileGeneration)
    (hlog : Logged (es ++ [.add (entryOf (f, flag))])) :
    Sound (d.after [.createDelta f.fileName f,
      .writeManifest (logOf 1 (es ++ [.add (entryOf (f, flag))]))])
      (es ++ [.add (entryOf (f, flag))]) (live ++ [(f, flag)]) := by
  have hfile : ((DiskStep.createDelta f.fileName f).apply d).files f.fileName = some f := by
    simp only [DiskStep.apply, if_true]
  exact sound_add (sound_createDelta h hnew) hnew hfile hlog

theorem inv_attach (h : s.Inv o es live) {target : PropertyDeltaTarget}
    {targetIsPersistent : Bool} {e : Effect} {f : PropertyDeltaFile} {flag : Bool}
    {memory : StoreMemory} (ha : s.Attaches es target targetIsPersistent e f flag memory)
    (hsmall : (logOf 1 (es ++ [.add (entryOf (f, flag))])).length ≤ logLimit) :
    (s.apply e).Inv o (es ++ [.add (entryOf (f, flag))]) (live ++ [(f, flag)]) := by
  obtain ⟨htarget, -, hgeneration, hlog, hsteps, -, hkeeps, hnext, hmemory⟩ := ha
  obtain ⟨hdeltas, hbase⟩ := s.memory.getOrCreateChain_readView target targetIsPersistent
  have hnew : ∀ p ∈ live, p.1.metadata.fileGeneration < f.metadata.fileGeneration := by
    intro p hp
    rw [hgeneration]
    exact h.next p hp
  have hmerged : ∀ t, ((memory.setManifest (ofEdits (es ++ [.add (entryOf (f, flag))]))).setChain
      target ((s.memory.getOrCreateChain target targetIsPersistent).attach f)).mergedBase t =
        s.memory.mergedBase t := by
    intro t
    have hkept : (memory.setManifest (ofEdits (es ++ [.add (entryOf (f, flag))]))).mergedBase t =
        s.memory.mergedBase t := hkeeps.mergedBase t
    by_cases ht : t = target
    · simp [ht, Chain.attach, hbase]
    · simp [ht, hkept]
  unfold apply
  rw [hsteps, hmemory]
  refine h.of_log ⟨sound_attach h.sound hnew hlog, rfl,
    fit_append h.fit fun e he => ⟨_, List.mem_singleton.mp he⟩, hsmall⟩ ?_ ?_ hmerged
    hkeeps.sstData rfl rfl
  · intro p hp
    have hsucc : ((memory.setManifest (ofEdits (es ++ [.add (entryOf (f, flag))]))).setChain
        target ((s.memory.getOrCreateChain target targetIsPersistent).attach
          f)).nextFileGeneration = s.memory.nextFileGeneration + 1 := hnext
    rw [hsucc]
    rcases List.mem_append.mp hp with hp | hp
    · exact Nat.lt_succ_of_lt (h.next p hp)
    · rw [List.mem_singleton.mp hp, hgeneration]
      exact Nat.lt_succ_self _
  · intro t
    have hkept : (memory.setManifest (ofEdits (es ++ [.add (entryOf (f, flag))]))).deltas t =
        s.memory.deltas t := hkeeps.deltas t
    rw [LiveFiles.of_append, ← h.deltas t]
    by_cases ht : t = target
    · simp [ht, Chain.attach, hdeltas, LiveFiles.of, htarget]
    · have ht' : f.metadata.target ≠ t := fun heq => ht (heq ▸ htarget)
      simp [ht, ht', hkept, LiveFiles.of]

/-! ## MarkTargetPersistent -/

/-- The appends that add files again, one by one. -/
def markSteps : List Edit → List PropertyDeltaFile → List DiskStep
  | _, [] => []
  | es, f :: fs =>
    .writeManifest (logOf 1 (es ++ [.add (entryOf (f, true))])) ::
      markSteps (es ++ [.add (entryOf (f, true))]) fs

theorem markFiles_eq {fs : List PropertyDeltaFile} (hlog : Logged es)
    (hroom : (logOf 1 (es ++ addAgain fs)).length ≤ 2 * logLimit) :
    markFiles fs (ofEdits es) = (markSteps es fs, ofEdits (es ++ addAgain fs), true) ∧
      Logged (es ++ addAgain fs) := by
  induction fs generalizing es with
  | nil =>
    have hnil : es ++ addAgain [] = es := List.append_nil es
    rw [hnil]
    exact ⟨rfl, hlog⟩
  | cons f fs ih =>
    have hsplit : es ++ addAgain (f :: fs) = es ++ [.add (entryOf (f, true))] ++ addAgain fs := by
      simp [addAgain]
    have hle : (logOf 1 es).length ≤ 2 * logLimit := by
      rw [logOf_append, List.length_append] at hroom
      omega
    rw [hsplit] at hroom ⊢
    obtain ⟨happend, hlog'⟩ := append_add hlog hle (f, true)
    obtain ⟨hmark, hlogged⟩ := ih hlog' hroom
    refine ⟨?_, hlogged⟩
    have hentry : (⟨f.fileName, f.metadata, true⟩ : PropertyDeltaManifestEntry) =
        entryOf (f, true) := rfl
    rw [markFiles, hentry, happend, markTurn, hmark]
    rfl

theorem length_markSteps (es : List Edit) (fs : List PropertyDeltaFile) :
    (markSteps es fs).length = fs.length := by
  induction fs generalizing es with
  | nil => rfl
  | cons f fs ih => simp [markSteps, ih]

/-- The disk when the process dies between the appends. -/
theorem after_markSteps {d : Disk} {fs : List PropertyDeltaFile} (h : d.manifest = logOf 1 es)
    (k : Nat) : d.after ((markSteps es fs).take k) =
      { d with manifest := logOf 1 (es ++ (addAgain fs).take k) } := by
  induction fs generalizing es d k with
  | nil => simp [Disk.after, markSteps, addAgain, ← h]
  | cons f fs ih =>
    cases k with
    | zero => simp [Disk.after, ← h]
    | succ k =>
      have hsplit : es ++ (addAgain (f :: fs)).take (k + 1) =
          es ++ [.add (entryOf (f, true))] ++ (addAgain fs).take k := by
        simp [addAgain]
      rw [hsplit]
      simp only [markSteps, List.take_succ_cons, Disk.after_cons]
      rw [ih (manifest_writeManifest d _)]
      rfl

theorem after_all_markSteps {d : Disk} (fs : List PropertyDeltaFile)
    (h : d.manifest = logOf 1 es) :
    d.after (markSteps es fs) = { d with manifest := logOf 1 (es ++ addAgain fs) } := by
  have hall : (markSteps es fs).take fs.length = markSteps es fs :=
    List.take_of_length_le (length_markSteps es fs).le
  have hadded : (addAgain fs).take fs.length = addAgain fs :=
    List.take_of_length_le (by simp [addAgain])
  rw [← hall, after_markSteps h, hadded]

/-- The disk after some of the files were added again. -/
theorem sound_mark {d : Disk} {fs : List PropertyDeltaFile} (h : Sound d es live)
    (hfs : ∀ f ∈ fs, ∃ flag, (f, flag) ∈ live) (hlog : Logged (es ++ addAgain fs)) :
    Sound { d with manifest := logOf 1 (es ++ addAgain fs) } (es ++ addAgain fs)
      (fs.foldl LiveFiles.setPersistent live) := by
  obtain ⟨happly, hrising, hmem, -⟩ := LiveFiles.setPersistent_all h.rising fs hfs
  refine ⟨rfl, hlog, ?_, hrising, ?_⟩
  · rw [applyAll_append, h.active]
    exact happly
  · intro p hp
    obtain ⟨flag, hp'⟩ := hmem p hp
    exact h.files (p.1, flag) hp'

/-- There is room to add the files of a chain again. -/
theorem Logs.room_addAgain (h : s.Logs es live) (target : PropertyDeltaTarget) :
    (logOf 1 (es ++ addAgain (live.of target))).length ≤ 2 * logLimit := by
  have := length_logOf_addAgain h.sound
    (List.filter_sublist (p := fun p => decide (p.1.metadata.target = target))) (1 + es.length)
  have := h.small
  rw [logOf_append, List.length_append, ← h.sound.manifest]
  unfold LiveFiles.of
  omega

/-- What a `MarkTargetPersistent` does: nothing on disk, or it adds the files of the chain
again. -/
theorem mark_cases (h : s.Inv o es live) (target : PropertyDeltaTarget) :
    ((s.markTargetPersistent target).steps = [] ∧
        Keeps s.memory (s.markTargetPersistent target).memory) ∨
    (Logged (es ++ addAgain (live.of target)) ∧
      (s.markTargetPersistent target).steps = markSteps es (live.of target) ∧
      ∃ memory c, Keeps s.memory memory ∧ c.readView.deltas = s.memory.deltas target ∧
        c.readView.mergedBase = s.memory.mergedBase target ∧
        (s.markTargetPersistent target).memory =
          (memory.setManifest (ofEdits (es ++ addAgain (live.of target)))).setChain target c) := by
  have hkeeps : Keeps s.memory { s.memory with
      persistentBaseFiles := target.baseFileId :: s.memory.persistentBaseFiles } :=
    ⟨⟨rfl, rfl⟩, Nat.le_refl _, fun _ => rfl, fun _ => rfl, rfl⟩
  unfold markTargetPersistent
  cases hchain : s.memory.chains target with
  | none => exact Or.inl ⟨rfl, hkeeps⟩
  | some c =>
    have hdeltas : c.readView.deltas = s.memory.deltas target := by
      simp [StoreMemory.deltas, hchain]
    have hbase : c.readView.mergedBase = s.memory.mergedBase target := by
      simp [StoreMemory.mergedBase, hchain]
    simp only
    split
    · exact Or.inl ⟨rfl, hkeeps⟩
    · obtain ⟨hmark, hlog⟩ := markFiles_eq h.sound.logged (h.room_addAgain target)
      rw [h.manifest, hdeltas, h.deltas target, hmark]
      exact Or.inr ⟨hlog, rfl, _, { c with targetIsPersistent := true }, hkeeps,
        hdeltas.trans (h.deltas target), hbase, rfl⟩

theorem inv_mark (h : s.Inv o es live) {target : PropertyDeltaTarget} {memory : StoreMemory}
    {c : Chain} (hlog : Logged (es ++ addAgain (live.of target)))
    (hsteps : (s.markTargetPersistent target).steps = markSteps es (live.of target))
    (hkeeps : Keeps s.memory memory) (hdeltas : c.readView.deltas = s.memory.deltas target)
    (hbase : c.readView.mergedBase = s.memory.mergedBase target)
    (hmemory : (s.markTargetPersistent target).memory =
      (memory.setManifest (ofEdits (es ++ addAgain (live.of target)))).setChain target c)
    (hsmall : (logOf 1 (es ++ addAgain (live.of target))).length ≤ logLimit) :
    (s.apply (s.markTargetPersistent target)).Inv o (es ++ addAgain (live.of target))
      ((live.of target).foldl LiveFiles.setPersistent live) := by
  have hfs : ∀ f ∈ live.of target, ∃ flag, (f, flag) ∈ live :=
    fun f hf => (LiveFiles.mem_of.mp hf).1
  obtain ⟨-, -, hmem, hof⟩ := LiveFiles.setPersistent_all h.sound.rising _ hfs
  have hdisk := after_all_markSteps (live.of target) h.sound.manifest
  unfold apply
  rw [hsteps, hmemory, hdisk]
  apply h.of_log ⟨sound_mark h.sound hfs hlog, rfl, fit_append h.fit adds_addAgain, hsmall⟩
  · intro p hp
    obtain ⟨flag, hp'⟩ := hmem p hp
    exact Nat.lt_of_lt_of_le (h.next (p.1, flag) hp') hkeeps.next
  · intro t
    have hkept : (memory.setManifest (ofEdits (es ++ addAgain (live.of target)))).deltas t =
        live.of t := (hkeeps.deltas t).trans (h.deltas t)
    rw [hof]
    by_cases ht : t = target
    · simp [ht, hdeltas, h.deltas]
    · simp [ht, hkept]
  · intro t
    have hkept : (memory.setManifest (ofEdits (es ++ addAgain (live.of target)))).mergedBase t =
        s.memory.mergedBase t := hkeeps.mergedBase t
    by_cases ht : t = target
    · simp [ht, hbase]
    · simp [ht, hkept]
  · exact hkeeps.sstData
  · rfl
  · rfl

/-! ## MergeChain -/

/-- The files that a merge of the target would take. -/
def batchOf (s : PropertyDeltaStore) (o : StoreOptions) (target : PropertyDeltaTarget)
    (mergeAll : Bool) : List PropertyDeltaFile :=
  ((s.memory.chains target).map fun c => c.batch o.mergeThreshold mergeAll).getD []

def batchNames (s : PropertyDeltaStore) (o : StoreOptions) (target : PropertyDeltaTarget)
    (mergeAll : Bool) : List Bytes := (s.batchOf o target mergeAll).map (·.fileName)

theorem validFileName_names {fs : List PropertyDeltaFile} :
    ∀ name ∈ fs.map (·.fileName), ValidFileName name := by
  intro name hname
  obtain ⟨f, -, rfl⟩ := List.mem_map.mp hname
  exact validFileName_deltaFileName

/-- The temporary file of a merge. -/
def temporaryOf (s : PropertyDeltaStore) (target : PropertyDeltaTarget) : MergeFile :=
  ⟨target.baseFileId, target.propertyId, s.memory.nextFileGeneration⟩

/-- The steps of a merge that replaces the column. -/
def mergeSteps (temporary : MergeFile) (column log : Bytes) (unlinked : List Bytes) :
    List DiskStep :=
  .createMerge temporary :: .renameMerge temporary column :: .writeManifest log ::
    unlinked.map .unlinkDelta

/-- A merge that nothing was attached during leaves the rest of the chain. -/
theorem mergeChain_self {layout : ShardLayout} {data : SstData} {target : PropertyDeltaTarget}
    {mergeThreshold : Nat} {mergeAll : Bool} {c : Chain} {rest : List PropertyDeltaFile}
    {column : Bytes} (hnil : c.batch mergeThreshold mergeAll ≠ [])
    (hrest : c.batch mergeThreshold mergeAll ++ rest = c.readView.deltas)
    (hcolumn : mergePropertyDeltaColumn layout (some data) target c.readView.mergedBase
      (c.batch mergeThreshold mergeAll) = .ok column) (generation : Nat) :
    RichGraph.mergeChain layout (some data) target mergeThreshold mergeAll c c generation true =
      .ok { c with readView := ⟨some column, rest, generation⟩ } := by
  unfold RichGraph.mergeChain
  simp only [if_neg hnil, hcolumn, if_true]
  exact Chain.publish_of_append hrest.symm

/-- The records of the batch go into the column, and `rest` stays of the chain. -/
structure Replays (s : PropertyDeltaStore) (o : StoreOptions) (target : PropertyDeltaTarget)
    (mergeAll : Bool) (data : SstData) (column : Bytes) (rest : List PropertyDeltaFile) :
    Prop where
  loaded : s.memory.sstData target.baseFileId = some data
  ne_nil : s.batchOf o target mergeAll ≠ []
  deltas : s.memory.deltas target = s.batchOf o target mergeAll ++ rest
  column : mergeRecords data target.baseFileId (o.layout.slotLength target.propertyId)
    (baseColumn data target.propertyId (s.memory.mergedBase target))
    (chainRecords (s.batchOf o target mergeAll)) = .ok column

/-- The removal of the batch is written, and the chain is shortened. -/
structure Removes (s : PropertyDeltaStore) (o : StoreOptions) (es : List Edit)
    (target : PropertyDeltaTarget) (mergeAll : Bool) (column : Bytes)
    (rest : List PropertyDeltaFile) (e : Effect) (memory : StoreMemory) (c : Chain) : Prop where
  le : removalBytes (s.batchNames o target mergeAll) ≤ maxUInt32
  steps : e.steps = mergeSteps (s.temporaryOf target) column
    (logOf 1 (es ++ [.remove (s.batchNames o target mergeAll)])) (s.batchNames o target mergeAll)
  keeps : Keeps s.memory memory
  view : c.readView = ⟨some column, rest, s.memory.nextFileGeneration⟩
  memory : e.memory = (memory.setManifest
    (ofEdits (es ++ [.remove (s.batchNames o target mergeAll)]))).setChain target c
  returned : e.returned = true

/-- The removal is too large to be written. -/
structure Refused (s : PropertyDeltaStore) (o : StoreOptions) (es : List Edit)
    (target : PropertyDeltaTarget) (mergeAll : Bool) (column : Bytes) (e : Effect) : Prop where
  not_le : ¬ removalBytes (s.batchNames o target mergeAll) ≤ maxUInt32
  steps : e.steps = mergeSteps (s.temporaryOf target) column (logOf 1 es) []
  keeps : Keeps s.memory e.memory
  returned : e.returned = false

theorem exists_data_of_column {layout : ShardLayout} {data : Option SstData}
    {target : PropertyDeltaTarget} {currentBase : Option Bytes} {batch : List PropertyDeltaFile}
    {column : Bytes}
    (h : mergePropertyDeltaColumn layout data target currentBase batch = .ok column) :
    ∃ d, data = some d := by
  cases data with
  | some d => exact ⟨d, rfl⟩
  | none =>
    unfold mergePropertyDeltaColumn at h
    split at h <;> cases h

/-- A merge whose records go into the column, and whose temporary file is not there. -/
theorem merge_of_column (h : s.Inv o es live) {target : PropertyDeltaTarget} {mergeAll : Bool}
    {column : Bytes} (hne : s.batchOf o target mergeAll ≠ [])
    (hcolumn : mergePropertyDeltaColumn o.layout (s.memory.sstData target.baseFileId) target
      (s.memory.mergedBase target) (s.batchOf o target mergeAll) = .ok column)
    (hnew : s.temporaryOf target ∉ s.disk.mergeFiles) :
    ∃ data rest, s.Replays o target mergeAll data column rest ∧
      ((∃ memory c, s.Removes o es target mergeAll column rest
          (s.mergeChain o target mergeAll) memory c) ∨
        s.Refused o es target mergeAll column (s.mergeChain o target mergeAll)) := by
  cases hchain : s.memory.chains target with
  | none =>
    simp [batchOf, hchain] at hne
  | some c =>
    have hdeltas : s.memory.deltas target = c.readView.deltas := by
      simp [StoreMemory.deltas, hchain]
    have hbase : s.memory.mergedBase target = c.readView.mergedBase := by
      simp [StoreMemory.mergedBase, hchain]
    have hbatch : s.batchOf o target mergeAll = c.batch o.mergeThreshold mergeAll := by
      simp [batchOf, hchain]
    obtain ⟨rest, hrest⟩ := c.batch_prefix o.mergeThreshold mergeAll
    obtain ⟨data, hdata⟩ := exists_data_of_column hcolumn
    have hreplay := hcolumn
    rw [hdata] at hreplay
    refine ⟨data, rest, ⟨hdata, hne, by rw [hbatch, hdeltas, hrest],
      mergeRecords_of_mergePropertyDeltaColumn hreplay⟩, ?_⟩
    rw [hbatch] at hne
    rw [hbatch, hbase] at hcolumn
    have hnames : (c.batch o.mergeThreshold mergeAll).map (·.fileName) =
        s.batchNames o target mergeAll := by rw [← hbatch]; rfl
    have hremove : Edit.remove (s.batchNames o target mergeAll) ≠ .remove [] := by
      intro heq
      rw [Edit.remove.injEq, ← hnames, List.map_eq_nil_iff] at heq
      exact hne heq
    have hnew' : (⟨target.baseFileId, target.propertyId, s.memory.nextFileGeneration⟩ :
        MergeFile) ∉ s.disk.mergeFiles := hnew
    simp only [mergeChain, hchain, if_neg hne, hcolumn, if_neg hnew']
    rw [hdata] at hcolumn ⊢
    rw [h.manifest, hnames, append_remove hremove validFileName_names h.room]
    by_cases hle : removalBytes (s.batchNames o target mergeAll) ≤ maxUInt32
    · have hmerged := mergeChain_self hne hrest hcolumn s.memory.nextFileGeneration
      simp only [if_pos hle, hmerged]
      exact Or.inl ⟨_, _, hle, by rw [← hnames]; simp [mergeSteps, temporaryOf, ofEdits],
        keeps_generation s.memory, rfl, rfl, rfl⟩
    · have hmerged : RichGraph.mergeChain o.layout (some data) target o.mergeThreshold mergeAll
          c c s.memory.nextFileGeneration false = .error .manifest := by
        unfold RichGraph.mergeChain
        simp only [if_neg hne, hcolumn, Bool.false_eq_true, if_false]
      simp only [if_neg hle, hmerged]
      refine Or.inr ⟨hle, rfl, ?_, rfl⟩
      rw [← h.manifest]
      exact keeps_generation s.memory

/-- What a `MergeChain` does: nothing on disk, or it makes a temporary file and drops it, or it
replaces the column. -/
theorem merge_cases (h : s.Inv o es live) (target : PropertyDeltaTarget) (mergeAll : Bool) :
    ((s.mergeChain o target mergeAll).steps = [] ∧
        Keeps s.memory (s.mergeChain o target mergeAll).memory) ∨
    ((s.mergeChain o target mergeAll).steps =
        [.createMerge (s.temporaryOf target), .unlinkMerge (s.temporaryOf target)] ∧
        Keeps s.memory (s.mergeChain o target mergeAll).memory) ∨
    ∃ data column rest, s.Replays o target mergeAll data column rest ∧
      ((∃ memory c, s.Removes o es target mergeAll column rest
          (s.mergeChain o target mergeAll) memory c) ∨
        s.Refused o es target mergeAll column (s.mergeChain o target mergeAll)) := by
  have hgeneration := keeps_generation s.memory
  cases hchain : s.memory.chains target with
  | none =>
    left
    simp only [mergeChain, hchain]
    exact ⟨trivial, Keeps.refl _⟩
  | some c =>
    have hbatch : s.batchOf o target mergeAll = c.batch o.mergeThreshold mergeAll := by
      simp [batchOf, hchain]
    have hbase : s.memory.mergedBase target = c.readView.mergedBase := by
      simp [StoreMemory.mergedBase, hchain]
    by_cases hnil : c.batch o.mergeThreshold mergeAll = []
    · left
      simp only [mergeChain, hchain, if_pos hnil]
      exact ⟨trivial, Keeps.refl _⟩
    cases hcolumn : mergePropertyDeltaColumn o.layout (s.memory.sstData target.baseFileId) target
        c.readView.mergedBase (c.batch o.mergeThreshold mergeAll) with
    | error error =>
      simp only [mergeChain, hchain, if_neg hnil, hcolumn]
      split
      · exact Or.inl ⟨rfl, hgeneration⟩
      · exact Or.inl ⟨rfl, hgeneration⟩
      · exact Or.inl ⟨rfl, hgeneration⟩
      · split
        · exact Or.inl ⟨rfl, hgeneration⟩
        · exact Or.inr (Or.inl ⟨rfl, hgeneration⟩)
      · rename_i heq
        cases heq
    | ok column =>
      by_cases hnew : s.temporaryOf target ∈ s.disk.mergeFiles
      · have hnew' : (⟨target.baseFileId, target.propertyId, s.memory.nextFileGeneration⟩ :
            MergeFile) ∈ s.disk.mergeFiles := hnew
        left
        simp only [mergeChain, hchain, if_neg hnil, hcolumn, if_pos hnew']
        exact ⟨trivial, hgeneration⟩
      · rw [← hbase, ← hbatch] at hcolumn
        rw [← hbatch] at hnil
        obtain ⟨data, rest, hreplays, hends⟩ := merge_of_column h hnil hcolumn hnew
        exact Or.inr (Or.inr ⟨data, column, rest, hreplays, hends⟩)

theorem rising_of (hrising : live.Rising) (target : PropertyDeltaTarget) :
    (live.of target).Pairwise
      fun f g => f.metadata.fileGeneration < g.metadata.fileGeneration := by
  rw [LiveFiles.of, List.pairwise_map]
  exact List.Pairwise.filter _ hrising

/-- The name of a file is not that of an older one of its chain, nor of one of another chain. -/
theorem fileName_not_mem {fs : List PropertyDeltaFile} {g : PropertyDeltaFile}
    (h : ∀ f ∈ fs, f.metadata.target = g.metadata.target →
      f.metadata.fileGeneration < g.metadata.fileGeneration) :
    g.fileName ∉ fs.map (·.fileName) := by
  intro hin
  obtain ⟨f, hf, hname⟩ := List.mem_map.mp hin
  obtain ⟨htarget, hgeneration⟩ := deltaFileName_injective hname
  exact Nat.ne_of_lt (h f hf htarget) hgeneration

/-- Without the files of a batch its chain is the rest, and the other chains are as they were. -/
theorem of_without_batch (hrising : live.Rising) {target : PropertyDeltaTarget}
    {batch rest : List PropertyDeltaFile} (hlive : live.of target = batch ++ rest)
    (t : PropertyDeltaTarget) :
    (live.without (batch.map (·.fileName))).of t = if t = target then rest else live.of t := by
  rw [LiveFiles.of_without]
  split
  · rename_i ht
    have hrises := rising_of hrising target
    rw [hlive] at hrises
    rw [ht, hlive, List.filter_append]
    have hbatch : batch.filter (fun f => decide (f.fileName ∉ batch.map (·.fileName))) = [] := by
      apply List.filter_eq_nil_iff.mpr
      intro f hf
      simpa using ⟨f, hf, rfl⟩
    have hrest : rest.filter (fun f => decide (f.fileName ∉ batch.map (·.fileName))) = rest := by
      apply List.filter_eq_self.mpr
      intro f hf
      apply decide_eq_true
      exact fileName_not_mem fun g hg _ => (List.pairwise_append.mp hrises).2.2 g hg f hf
    rw [hbatch, hrest, List.nil_append]
  · rename_i ht
    apply List.filter_eq_self.mpr
    intro f hf
    apply decide_eq_true
    refine fileName_not_mem fun g hg htarget => absurd ?_ ht
    have hg' : g ∈ live.of target := hlive ▸ List.mem_append_left _ hg
    rw [← (LiveFiles.mem_of.mp hf).2, ← htarget, (LiveFiles.mem_of.mp hg').2]

theorem target_inj {fid propertyId fid' propertyId' : Nat}
    (h : o.target fid propertyId = o.target fid' propertyId') :
    fid = fid' ∧ propertyId = propertyId' := by
  simp only [StoreOptions.target, PropertyDeltaTarget.mk.injEq, true_and] at h
  exact ⟨h.1, h.2.2⟩

/-- The disk after the files of a batch were removed from the log, and some of them unlinked. -/
theorem sound_remove {d d' : Disk} {names unlinked : List Bytes} (h : Sound d es live)
    (hlog : Logged (es ++ [.remove names])) (hsub : ∀ name ∈ unlinked, name ∈ names)
    (hmanifest : d'.manifest = logOf 1 (es ++ [.remove names]))
    (hfiles : d'.files = fun name => if name ∈ unlinked then none else d.files name) :
    Sound d' (es ++ [.remove names]) (live.without names) where
  manifest := hmanifest
  logged := hlog
  active := by
    rw [applyAll_append, h.active]
    exact LiveFiles.applyRemove_names _ _
  rising := List.Pairwise.sublist List.filter_sublist h.rising
  files := by
    intro p hp
    obtain ⟨hp, hname⟩ := List.mem_filter.mp hp
    have hkept : p.1.fileName ∉ unlinked := fun hin => of_decide_eq_true hname (hsub _ hin)
    rw [hfiles]
    simp only [if_neg hkept]
    exact h.files p hp

/-- The disk when the process dies among the unlinks of a merge. -/
theorem after_mergeSteps (d : Disk) (m : MergeFile) (column log : Bytes) (names : List Bytes)
    (k : Nat) : d.after ((mergeSteps m column log names).take (k + 3)) =
      { (DiskStep.renameMerge m column).apply ((DiskStep.createMerge m).apply d) with
        manifest := log
        files := fun name => if name ∈ names.take k then none else d.files name } := by
  simp only [mergeSteps, List.take_succ_cons, ← List.map_take, Disk.after_cons]
  rw [Disk.after_unlinks]
  rfl

theorem after_all_mergeSteps (d : Disk) (m : MergeFile) (column log : Bytes)
    (names : List Bytes) : d.after (mergeSteps m column log names) =
      { (DiskStep.renameMerge m column).apply ((DiskStep.createMerge m).apply d) with
        manifest := log
        files := fun name => if name ∈ names then none else d.files name } := by
  have hafter := after_mergeSteps d m column log names names.length
  rwa [List.take_length, List.take_of_length_le (by simp [mergeSteps])] at hafter

theorem Disk.ssts_after (d : Disk) (steps : List DiskStep) : (d.after steps).ssts = d.ssts := by
  induction steps generalizing d with
  | nil => rfl
  | cons step steps ih =>
    rw [Disk.after_cons, ih]
    cases step <;> rfl

/-- The removal of a batch is logged. -/
theorem logged_remove (h : s.Logs es live) {names : List Bytes}
    (hvalid : ∀ name ∈ names, ValidFileName name) (hle : removalBytes names ≤ maxUInt32) :
    Logged (es ++ [.remove names]) := by
  apply h.sound.logged.concat (accepted_remove hvalid hle) hle
  have hle' : (Edit.remove names).payload.length ≤ maxUInt32 := hle
  have hroom := h.room
  have hlarge : 2 * logLimit + headerBytes + maxUInt32 ≤ maxFileBytes := by decide
  rw [length_record_eq]
  omega

theorem inv_merge (h : s.Inv o es live) {fid propertyId : Nat} {mergeAll : Bool} {data : SstData}
    {column : Bytes} {rest : List PropertyDeltaFile} {e : Effect} {memory : StoreMemory} {c : Chain}
    (hreplays : s.Replays o (o.target fid propertyId) mergeAll data column rest)
    (hremoves : s.Removes o es (o.target fid propertyId) mergeAll column rest e memory c)
    (hfit : removalBytes (s.batchNames o (o.target fid propertyId) mergeAll) ≤ maxPayloadBytes)
    (hsmall : (logOf 1 (es ++
      [.remove (s.batchNames o (o.target fid propertyId) mergeAll)])).length ≤ logLimit) :
    (s.apply e).Inv o (es ++ [.remove (s.batchNames o (o.target fid propertyId) mergeAll)])
      (live.without (s.batchNames o (o.target fid propertyId) mergeAll)) := by
  have hlog : Logged (es ++ [.remove (s.batchNames o (o.target fid propertyId) mergeAll)]) :=
    logged_remove h.toLogs validFileName_names hremoves.le
  have hlive := (h.deltas (o.target fid propertyId)).symm.trans hreplays.deltas
  have hof := of_without_batch h.sound.rising hlive
  have hkeeps := hremoves.keeps
  have hview := hremoves.view
  unfold apply
  rw [hremoves.steps, hremoves.memory]
  change ∀ t, (live.without (s.batchNames o (o.target fid propertyId) mergeAll)).of t = _ at hof
  generalize s.batchNames o (o.target fid propertyId) mergeAll = names at *
  rw [after_all_mergeSteps]
  have hother : ∀ fid' propertyId', ¬ (fid' = fid ∧ propertyId' = propertyId) →
      ((memory.setManifest (ofEdits (es ++ [.remove names]))).setChain (o.target fid propertyId)
        c).mergedBase (o.target fid' propertyId') =
          s.memory.mergedBase (o.target fid' propertyId') := by
    intro fid' propertyId' hne
    have hkept : (memory.setManifest (ofEdits (es ++ [.remove names]))).mergedBase
        (o.target fid' propertyId') = s.memory.mergedBase (o.target fid' propertyId') :=
      hkeeps.mergedBase _
    have htarget : o.target fid' propertyId' ≠ o.target fid propertyId :=
      fun heq => hne (target_inj heq)
    simp [htarget, hkept]
  exact
    { sound := sound_remove h.sound hlog (fun name hname => hname) rfl rfl
      manifest := rfl
      fit := by
        intro e he
        rcases List.mem_append.mp he with he | he
        · exact h.fit e he
        · rw [List.mem_singleton.mp he]
          exact hfit
      small := hsmall
      next := by
        intro p hp
        exact Nat.lt_of_lt_of_le (h.next p (List.mem_of_mem_filter hp)) hkeeps.next
      deltas := by
        intro t
        have hkept : (memory.setManifest (ofEdits (es ++ [.remove names]))).deltas t =
            live.of t := (hkeeps.deltas t).trans (h.deltas t)
        rw [hof]
        simp [hview, hkept]
      base := by
        intro fid' sst hsst
        obtain ⟨data', hdata', hrecords, hcolumn⟩ := h.base fid' sst hsst
        refine ⟨data', (congrFun hkeeps.sstData fid').trans hdata', hrecords,
          fun propertyId' => ?_⟩
        by_cases hcol : fid' = fid ∧ propertyId' = propertyId
        · obtain ⟨rfl, rfl⟩ := hcol
          simp [hview, baseColumn, DiskStep.apply, temporaryOf, StoreOptions.target]
        · rw [hother fid' propertyId' hcol, hcolumn]
          simp [DiskStep.apply, temporaryOf, StoreOptions.target, hcol]
      noBase := by
        intro fid' hsst
        obtain ⟨hnone, hbase⟩ := h.noBase fid' hsst
        refine ⟨(congrFun hkeeps.sstData fid').trans hnone, fun propertyId' => ?_⟩
        rw [hother fid' propertyId' ?_, hbase]
        rintro ⟨rfl, -⟩
        have hdata := hreplays.loaded
        rw [show (o.target fid' propertyId).baseFileId = fid' from rfl, hnone] at hdata
        cases hdata }

end PropertyDeltaStore

end RichGraph
