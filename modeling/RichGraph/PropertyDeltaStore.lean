-- The store of the property deltas: attaching files to the chains, marking a
-- target persistent, merging a chain into its column, and opening the directory
-- again. A call is a list of durable steps on disk and a change in memory, so
-- that the process can die between any two steps.
import RichGraph.ManifestReplay
import RichGraph.PropertyDeltaMerge

namespace RichGraph

open Lib

/-! ## The disk -/

/-- The temporary file of a merge, `<column>.merge.<generation>.tmp` in the data directory. -/
structure MergeFile where
  baseFileId : Nat
  propertyId : Nat
  generation : Nat
deriving DecidableEq

/-- What stays when the process dies: the directory of the deltas, and the files and columns in
the data directory above it. A delta file is written under another name first, so that it is
there in full or not at all. -/
structure Disk where
  manifest : Bytes
  files : Bytes → Option PropertyDeltaFile
  ssts : Nat → Option SSTable
  columns : Nat → Nat → Bytes
  mergeFiles : List MergeFile

inductive DiskStep where
  | createDelta (fileName : Bytes) (f : PropertyDeltaFile)
  | writeManifest (file : Bytes)
  | unlinkDelta (fileName : Bytes)
  | createMerge (m : MergeFile)
  | renameMerge (m : MergeFile) (column : Bytes)
  | unlinkMerge (m : MergeFile)

def DiskStep.apply (d : Disk) : DiskStep → Disk
  | .createDelta fileName f =>
    { d with files := fun name => if name = fileName then some f else d.files name }
  | .writeManifest file => { d with manifest := file }
  | .unlinkDelta fileName =>
    { d with files := fun name => if name = fileName then none else d.files name }
  | .createMerge m => { d with mergeFiles := m :: d.mergeFiles }
  | .renameMerge m column =>
    { d with
      mergeFiles := d.mergeFiles.filter (· ≠ m)
      columns := fun fid propertyId =>
        if fid = m.baseFileId ∧ propertyId = m.propertyId then column
        else d.columns fid propertyId }
  | .unlinkMerge m => { d with mergeFiles := d.mergeFiles.filter (· ≠ m) }

def Disk.after (d : Disk) (steps : List DiskStep) : Disk := steps.foldl DiskStep.apply d

/-- The disk of a new database. -/
def Disk.empty : Disk := ⟨[], fun _ => none, fun _ => none, fun _ _ => [], []⟩

/-! ## Names -/

def kindLetter : PropertyObjectKind → Bytes
  | .kNode => bytes "n"
  | .kEdge => bytes "e"

/-- `DeltaFileName` -/
def deltaFileName (target : PropertyDeltaTarget) (generation : Nat) : Bytes :=
  bytes "delta-" ++ kindLetter target.kind ++ bytes "-s" ++ decimal target.shardId ++
    bytes "-f" ++ decimal target.baseFileId ++ bytes "-b" ++ decimal target.baseGeneration ++
    bytes "-p" ++ decimal target.propertyId ++ bytes "-g" ++ decimal generation ++ bytes ".rgd"

/-- The name under which `Attach` has made the file. -/
def PropertyDeltaFile.fileName (f : PropertyDeltaFile) : Bytes :=
  deltaFileName f.metadata.target f.metadata.fileGeneration

/-- `RemoveOrphanFiles` takes the name for that of a delta file. -/
def IsDeltaName (name : Bytes) : Prop := bytes "delta-" <+: name ∧ bytes ".rgd" <:+: name

instance (name : Bytes) : Decidable (IsDeltaName name) := inferInstanceAs (Decidable (_ ∧ _))

/-! ## The store -/

/-- `Open` refuses a threshold of 0. -/
structure StoreOptions where
  layout : ShardLayout
  mergeThreshold : Nat
  mergeThreshold_pos : 0 < mergeThreshold

/-- `MakePropertyDeltaTarget` -/
def StoreOptions.target (o : StoreOptions) (baseFileId propertyId : Nat) : PropertyDeltaTarget where
  kind := o.layout.propertyObjectKind
  shardId := o.layout.propertyShardId
  baseFileId
  -- The file id also serves as the generation of the base.
  baseGeneration := baseFileId
  propertyId

/-- What the process has in memory: the state of the manifest without its file, the chains, and
the data of the files that it has loaded. -/
structure StoreMemory where
  nextEditSequence : Nat
  activeEntries : List PropertyDeltaManifestEntry
  chains : PropertyDeltaTarget → Option Chain
  nextFileGeneration : Nat
  persistentBaseFiles : List Nat
  sstData : Nat → Option SstData

structure PropertyDeltaStore where
  disk : Disk
  memory : StoreMemory

/-- What a call does: its durable steps in their order, what it leaves in memory, and what it
returns. -/
structure Effect where
  steps : List DiskStep
  memory : StoreMemory
  returned : Bool

namespace StoreMemory

def setChain (memory : StoreMemory) (target : PropertyDeltaTarget) (c : Chain) : StoreMemory :=
  { memory with chains := fun t => if t = target then some c else memory.chains t }

/-- `GetOrCreateChain` -/
def getOrCreateChain (memory : StoreMemory) (target : PropertyDeltaTarget)
    (targetIsPersistent : Bool) : Chain :=
  let c := (memory.chains target).getD ⟨⟨none, [], 0⟩, false⟩
  if targetIsPersistent || target.baseFileId ∈ memory.persistentBaseFiles then
    { c with targetIsPersistent := true }
  else c

/-- The files of a chain. -/
def deltas (memory : StoreMemory) (target : PropertyDeltaTarget) : List PropertyDeltaFile :=
  ((memory.chains target).map fun c => c.readView.deltas).getD []

def mergedBase (memory : StoreMemory) (target : PropertyDeltaTarget) : Option Bytes :=
  (memory.chains target).bind fun c => c.readView.mergedBase

def setManifest (memory : StoreMemory) (m : PropertyDeltaManifest) : StoreMemory :=
  { memory with nextEditSequence := m.nextEditSequence, activeEntries := m.activeEntries }

end StoreMemory

namespace PropertyDeltaStore

def manifest (s : PropertyDeltaStore) : PropertyDeltaManifest :=
  ⟨s.disk.manifest, s.memory.nextEditSequence, s.memory.activeEntries⟩

/-- The store after a call. -/
def apply (s : PropertyDeltaStore) (e : Effect) : PropertyDeltaStore :=
  ⟨s.disk.after e.steps, e.memory⟩

/-- The disk when the process dies after the first `k` steps of a call. -/
def crash (s : PropertyDeltaStore) (e : Effect) (k : Nat) : Disk := s.disk.after (e.steps.take k)

/-- `Attach`. When the append fails the file is marked obsolete, and unlinked as nothing else
holds it. -/
def attach (s : PropertyDeltaStore) (target : PropertyDeltaTarget)
    (records : List PropertyDeltaRecord) (targetIsPersistent : Bool)
    (outcome : Manifest.WriteOutcome) : Effect :=
  if records = [] then ⟨[], s.memory, false⟩
  else
    let c := s.memory.getOrCreateChain target targetIsPersistent
    let generation := s.memory.nextFileGeneration
    let memory := { s.memory.setChain target c with nextFileGeneration := generation + 1 }
    match PropertyDeltaFile.create target generation records with
    | none => ⟨[], memory, false⟩
    | some f =>
      let fileName := deltaFileName target generation
      match Manifest.append (.add ⟨fileName, f.metadata, c.targetIsPersistent⟩) outcome
          s.manifest with
      | (m, true) =>
        ⟨[.createDelta fileName f, .writeManifest m.file],
          (memory.setManifest m).setChain target (c.attach f), true⟩
      | (m, false) =>
        ⟨[.createDelta fileName f, .writeManifest m.file, .unlinkDelta fileName],
          memory.setManifest m, false⟩

/-- One turn of the loop of `MarkTargetPersistent`, after its append. -/
def markTurn (next : PropertyDeltaManifest → List DiskStep × PropertyDeltaManifest × Bool) :
    PropertyDeltaManifest × Bool → List DiskStep × PropertyDeltaManifest × Bool
  | (m, true) => (.writeManifest m.file :: (next m).1, (next m).2)
  | (m, false) => ([.writeManifest m.file], m, false)

/-- The loop: every file of the chain is added again. -/
def markFiles : List PropertyDeltaFile → PropertyDeltaManifest →
    List DiskStep × PropertyDeltaManifest × Bool
  | [], m => ([], m, true)
  | f :: fs, m =>
    markTurn (markFiles fs) (Manifest.append (.add ⟨f.fileName, f.metadata, true⟩) .succeeds m)

def markTargetPersistent (s : PropertyDeltaStore) (target : PropertyDeltaTarget) : Effect :=
  let memory :=
    { s.memory with
      persistentBaseFiles := target.baseFileId :: s.memory.persistentBaseFiles }
  match s.memory.chains target with
  | none => ⟨[], memory, true⟩
  | some c =>
    if c.targetIsPersistent then ⟨[], memory, true⟩
    else
      match markFiles c.readView.deltas s.manifest with
      | (steps, m, true) =>
        ⟨steps, (memory.setManifest m).setChain target { c with targetIsPersistent := true }, true⟩
      | (steps, m, false) => ⟨steps, memory.setManifest m, false⟩

/-- `MergeChain` with `MergePropertyDeltaColumn`. The temporary file is opened with `O_EXCL`, after
the request was checked and before the records are replayed. -/
def mergeChain (s : PropertyDeltaStore) (o : StoreOptions) (target : PropertyDeltaTarget)
    (mergeAll : Bool) : Effect :=
  match s.memory.chains target with
  | none => ⟨[], s.memory, false⟩
  | some c =>
    let batch := c.batch o.mergeThreshold mergeAll
    if batch = [] then ⟨[], s.memory, true⟩
    else
      let data := s.memory.sstData target.baseFileId
      let generation := s.memory.nextFileGeneration
      let memory := { s.memory with nextFileGeneration := generation + 1 }
      let temporary : MergeFile := ⟨target.baseFileId, target.propertyId, generation⟩
      match mergePropertyDeltaColumn o.layout data target c.readView.mergedBase batch with
      | .error .invalidRequest => ⟨[], memory, false⟩
      | .error .unavailable => ⟨[], memory, false⟩
      | .error .emptyBase => ⟨[], memory, false⟩
      | .error _ =>
        if temporary ∈ s.disk.mergeFiles then ⟨[], memory, false⟩
        else ⟨[.createMerge temporary, .unlinkMerge temporary], memory, false⟩
      | .ok column =>
        if temporary ∈ s.disk.mergeFiles then ⟨[], memory, false⟩
        else
          match Manifest.append (.remove (batch.map (·.fileName))) .succeeds s.manifest with
          | (m, removed) =>
            let steps := [.createMerge temporary, .renameMerge temporary column,
              .writeManifest m.file]
            match RichGraph.mergeChain o.layout data target o.mergeThreshold mergeAll c c
                generation removed with
            | .ok c' =>
              ⟨steps ++ batch.map fun f => .unlinkDelta f.fileName,
                (memory.setManifest m).setChain target c', true⟩
            | .error _ => ⟨steps, memory.setManifest m, false⟩

/-- What is read of an edge of a file: the newest delta of its chain, or else its slot. -/
def read (s : PropertyDeltaStore) (o : StoreOptions) (baseFileId propertyId : Nat)
    (id : RecordId) : Option Bytes :=
  (s.memory.sstData baseFileId).bind fun data =>
    (⟨s.memory.mergedBase (o.target baseFileId propertyId),
      s.memory.deltas (o.target baseFileId propertyId), 0⟩ : PropertyDeltaReadView).read o.layout
        data propertyId id

/-! ## Opening the directory -/

inductive OpenError where
  | manifest (error : Manifest.RecoverError)
  | recover (fileName : Bytes)
  | metadata (fileName : Bytes)
  | append
deriving DecidableEq

/-- What the loop of `OpenAndRecover` has made of the entries so far. -/
structure Recovery where
  chains : PropertyDeltaTarget → Option Chain
  promoted : List PropertyDeltaManifestEntry
  abandoned : List Bytes
  maximumGeneration : Nat

/-- The recovered files of a chain stand in the order of their generations. -/
def recoverFile (c : Chain) (f : PropertyDeltaFile) : Chain where
  readView :=
    { c.readView with
      deltas := (c.readView.deltas ++ [f]).insertionSort fun a b =>
        a.metadata.fileGeneration ≤ b.metadata.fileGeneration
      generation := max c.readView.generation f.metadata.fileGeneration }
  targetIsPersistent := true

/-- One entry of the loop. A delta of a MemTable is kept only when the file of the MemTable is
there. -/
def recoverEntry (d : Disk) (r : Recovery) (entry : PropertyDeltaManifestEntry) :
    Except OpenError Recovery :=
  let target := entry.metadata.target
  let r := { r with maximumGeneration := max r.maximumGeneration entry.metadata.fileGeneration }
  if ¬ entry.targetIsPersistent ∧ (d.ssts target.baseFileId).isNone then
    .ok { r with abandoned := r.abandoned ++ [entry.fileName] }
  else
    match d.files entry.fileName with
    | none => .error (.recover entry.fileName)
    | some f =>
      if f.metadata ≠ entry.metadata then .error (.metadata entry.fileName)
      else
        let c := recoverFile ((r.chains target).getD ⟨⟨none, [], 0⟩, false⟩) f
        .ok { r with
          chains := fun t => if t = target then some c else r.chains t
          promoted :=
            if entry.targetIsPersistent then r.promoted
            else r.promoted ++ [{ entry with targetIsPersistent := true }] }

def recoverEntries (d : Disk) : Recovery → List PropertyDeltaManifestEntry →
    Except OpenError Recovery
  | r, [] => .ok r
  | r, entry :: entries =>
    match recoverEntry d r entry with
    | .error error => .error error
    | .ok r' => recoverEntries d r' entries

/-- The directory without the orphans. -/
def removeOrphanFiles (d : Disk) (active : List PropertyDeltaManifestEntry) : Disk :=
  { d with
    files := fun name =>
      if IsDeltaName name ∧ name ∉ active.map (·.fileName) ∨ bytes ".tmp." <:+: name then none
      else d.files name }

/-- The end of `OpenAndRecover`, in a process that loads the files of the disk; `levels` are the
levels at which it finds them. -/
def finishRecovery (levels : Nat → Nat) (d : Disk) (r : Recovery) (m : PropertyDeltaManifest) :
    PropertyDeltaStore where
  disk := removeOrphanFiles
    (d.after (.writeManifest m.file :: r.abandoned.map .unlinkDelta)) m.activeEntries
  memory :=
    { nextEditSequence := m.nextEditSequence
      activeEntries := m.activeEntries
      chains := r.chains
      nextFileGeneration := r.maximumGeneration + 1
      persistentBaseFiles := []
      sstData := fun fid => (d.ssts fid).map fun sst =>
        (FileOrigin.loaded (levels fid)).data sst (d.columns fid) }

/-- `OpenAndRecover` -/
def openAndRecover (levels : Nat → Nat) (d : Disk) : Except OpenError PropertyDeltaStore :=
  match Manifest.openAndRecover d.manifest with
  | .error error => .error (.manifest error)
  | .ok m =>
    match recoverEntries d ⟨fun _ => none, [], [], 0⟩ m.activeEntries with
    | .error error => .error error
    | .ok r =>
      match Manifest.appendAll (r.promoted.map .add) m with
      | none => .error .append
      | some m =>
        match Manifest.append (.remove r.abandoned) .succeeds m with
        | (_, false) => .error .append
        | (m, true) => .ok (finishRecovery levels d r m)

/-- An open that succeeds has recovered every entry of the manifest. -/
theorem recovered_of_open {levels : Nat → Nat} {d : Disk} {s : PropertyDeltaStore}
    (h : openAndRecover levels d = .ok s) : ∃ m r m',
      Manifest.openAndRecover d.manifest = .ok m ∧
      recoverEntries d ⟨fun _ => none, [], [], 0⟩ m.activeEntries = .ok r ∧
      s = finishRecovery levels d r m' := by
  unfold openAndRecover at h
  split at h
  · cases h
  · rename_i m hm
    split at h
    · cases h
    · rename_i r hr
      split at h
      · cases h
      · split at h
        · cases h
        · cases h
          exact ⟨m, r, _, hm, hr, rfl⟩

end PropertyDeltaStore

end RichGraph
