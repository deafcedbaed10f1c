-- Delta stores whose process dies inside a call. The directory is opened again,
-- and what is then read is what was read before the call or what would have been
-- read after it, as long as no removal is too large for the manifest.
import RichGraph.DeltaStoreSteps
import RichGraph.ManifestFaults

namespace RichGraph

open Lib Manifest

/-- The names of the files that the recovery abandons. -/
def Disk.abandonedNames (d : Disk) : List Bytes :=
  match Manifest.openAndRecover d.manifest with
  | .error _ => []
  | .ok m => (m.activeEntries.filter fun e =>
      !e.targetIsPersistent && (d.ssts e.metadata.target.baseFileId).isNone).map (·.fileName)

namespace PropertyDeltaStore

/-! ## Calls and crashes -/

inductive Call where
  | attach (fid propertyId : Nat) (records : List PropertyDeltaRecord) (targetIsPersistent : Bool)
  | markTargetPersistent (fid propertyId : Nat)
  | mergeChain (fid propertyId : Nat) (mergeAll : Bool)

/-- A call whose writes all succeed. -/
def effect (s : PropertyDeltaStore) (o : StoreOptions) : Call → Effect
  | .attach fid propertyId records targetIsPersistent =>
    s.attach (o.target fid propertyId) records targetIsPersistent .succeeds
  | .markTargetPersistent fid propertyId => s.markTargetPersistent (o.target fid propertyId)
  | .mergeChain fid propertyId mergeAll => s.mergeChain o (o.target fid propertyId) mergeAll

def DiskStep.isRename : DiskStep → Bool
  | .renameMerge _ _ => true
  | _ => false

def DiskStep.isAppend : DiskStep → Bool
  | .writeManifest _ => true
  | _ => false

/-- The files that the call merges. -/
def batch (s : PropertyDeltaStore) (o : StoreOptions) : Call → List PropertyDeltaFile
  | .mergeChain fid propertyId mergeAll => s.batchOf o (o.target fid propertyId) mergeAll
  | _ => []

/-- The files that are in the column on disk after the first `k` steps of the call. -/
def mergedBy (s : PropertyDeltaStore) (o : StoreOptions) (c : Call) (k : Nat) :
    List PropertyDeltaFile :=
  if ((s.effect o c).steps.take k).any DiskStep.isRename then s.batch o c else []

/-- The size of the removal that the call writes when it merges. -/
def removal (s : PropertyDeltaStore) (o : StoreOptions) (c : Call) : Nat :=
  removalBytes ((s.batch o c).map (·.fileName))

/-- If the process dies after the removal was written, then it is not too large. -/
def RemovalFits (s : PropertyDeltaStore) (o : StoreOptions) (c : Call) (k : Nat) : Prop :=
  ((s.effect o c).steps.take k).any DiskStep.isAppend = true → maxPayloadBytes < s.removal o c →
    maxUInt32 < s.removal o c

variable {o : StoreOptions} {s : PropertyDeltaStore} {es : List Edit} {live : LiveFiles}

/-- The disk is as it was for the reads. -/
structure AsBefore (o : StoreOptions) (s : PropertyDeltaStore) (live : LiveFiles) (d : Disk)
    (es' : List Edit) (live' : LiveFiles) : Prop where
  sound : Sound d es' live'
  fit : ∀ e ∈ es', e.payload.length ≤ maxPayloadBytes
  read : ∀ fid propertyId id,
    d.read o live' fid propertyId id = s.disk.read o live fid propertyId id
  live : ∀ target, live'.of target = live.of target

/-- The disk is for the reads as the call leaves it. -/
structure AsAfter (o : StoreOptions) (s : PropertyDeltaStore) (live : LiveFiles) (c : Call)
    (k : Nat) (d : Disk) (es' : List Edit) (live' : LiveFiles) : Prop where
  sound : Sound d es' live'
  fit : ∀ e ∈ es', e.payload.length ≤ maxPayloadBytes
  inv : (s.apply (s.effect o c)).Inv o es' live'
  read : ∀ fid propertyId id, d.read o live' fid propertyId id =
    (s.apply (s.effect o c)).disk.read o live' fid propertyId id
  live : ∀ target, ∀ f ∈ live.of target, f ∈ live'.of target ∨ f ∈ s.mergedBy o c k

/-- A disk on which only temporary files have changed. -/
theorem AsBefore.of_same (h : s.Inv o es live) {d : Disk}
    (hmanifest : d.manifest = s.disk.manifest) (hfiles : d.files = s.disk.files)
    (hssts : d.ssts = s.disk.ssts) (hcolumns : d.columns = s.disk.columns) :
    AsBefore o s live d es live where
  sound := h.sound.congr hmanifest fun p _ => by rw [hfiles]
  fit := h.fit
  read := Disk.read_congr hssts hcolumns fun _ _ => rfl
  live _ := rfl

theorem AsBefore.refl (h : s.Inv o es live) : AsBefore o s live s.disk es live :=
  .of_same h rfl rfl rfl rfl

/-- A crash inside an `Attach`. -/
theorem crash_attach (h : s.Inv o es live) (fid propertyId : Nat)
    (records : List PropertyDeltaRecord) (targetIsPersistent : Bool) (k : Nat)
    (hsmall : (s.crash (s.effect o (.attach fid propertyId records targetIsPersistent))
      k).manifest.length ≤ logLimit) :
    (∃ es' live', AsBefore o s live
      (s.crash (s.effect o (.attach fid propertyId records targetIsPersistent)) k) es' live') ∨
    ∃ es' live', AsAfter o s live (.attach fid propertyId records targetIsPersistent) k
      (s.crash (s.effect o (.attach fid propertyId records targetIsPersistent)) k) es' live' := by
  rcases attach_cases h (o.target fid propertyId) records targetIsPersistent with
    ⟨hsteps, -, -⟩ | ⟨f, flag, memory, ha⟩
  · left
    refine ⟨es, live, ?_⟩
    simp only [crash, effect, hsteps, List.take_nil, Disk.after, List.foldl_nil]
    exact AsBefore.refl h
  have hnew : ∀ p ∈ live, p.1.metadata.fileGeneration < f.metadata.fileGeneration := by
    intro p hp
    rw [ha.generation]
    exact h.next p hp
  simp only [crash, effect, ha.steps] at hsmall ⊢
  rcases k with _ | _ | k
  · exact Or.inl ⟨es, live, AsBefore.refl h⟩
  · left
    refine ⟨es, live, ?_, h.fit, ?_, fun _ => rfl⟩
    · refine h.sound.congr rfl ?_
      intro p hp
      rw [h.sound.files p hp]
      exact files_createDelta h.sound.files hnew p hp
    · exact Disk.read_congr rfl rfl fun _ _ => rfl
  · right
    simp only [List.take_succ_cons, List.take_nil] at hsmall ⊢
    have hinv := inv_attach h ha hsmall
    refine ⟨_, _, sound_attach h.sound hnew ha.logged, hinv.fit, hinv, ?_, ?_⟩
    · apply Disk.read_congr
      · simp only [apply, effect, ha.steps]
      · simp only [apply, effect, ha.steps]
      · exact fun _ _ => rfl
    · intro target g hg
      rw [LiveFiles.of_append]
      exact Or.inl (List.mem_append_left _ hg)

/-- A crash inside a `MarkTargetPersistent`. -/
theorem crash_mark (h : s.Inv o es live) (fid propertyId k : Nat) :
    ∃ es' live', AsBefore o s live
      (s.crash (s.effect o (.markTargetPersistent fid propertyId)) k) es' live' := by
  rcases mark_cases h (o.target fid propertyId) with ⟨hsteps, -⟩ | ⟨hlog, hsteps, -⟩
  · refine ⟨es, live, ?_⟩
    simp only [crash, effect, hsteps, List.take_nil, Disk.after, List.foldl_nil]
    exact AsBefore.refl h
  have hfs : ∀ f ∈ (live.of (o.target fid propertyId)).take k, ∃ flag, (f, flag) ∈ live :=
    fun f hf => (LiveFiles.mem_of.mp (List.mem_of_mem_take hf)).1
  have htake : (addAgain (live.of (o.target fid propertyId))).take k =
      addAgain ((live.of (o.target fid propertyId)).take k) := by
    simp [addAgain, List.map_take]
  have hlog' : Logged (es ++ addAgain ((live.of (o.target fid propertyId)).take k)) := by
    rw [← List.take_append_drop k (live.of (o.target fid propertyId))] at hlog
    unfold addAgain at hlog ⊢
    rw [List.map_append, ← List.append_assoc] at hlog
    exact hlog.of_append
  obtain ⟨-, -, -, hof⟩ := LiveFiles.setPersistent_all h.sound.rising _ hfs
  refine ⟨es ++ addAgain ((live.of (o.target fid propertyId)).take k),
    ((live.of (o.target fid propertyId)).take k).foldl LiveFiles.setPersistent live, ?_⟩
  simp only [crash, effect, hsteps, after_markSteps h.sound.manifest, htake]
  exact ⟨sound_mark h.sound hfs hlog', fit_append h.fit adds_addAgain,
    Disk.read_congr rfl rfl fun _ _ => hof _, hof⟩

/-- A disk with the column of a batch that is still live. -/
theorem asBefore_rename (h : s.Inv o es live) {fid propertyId : Nat} {mergeAll : Bool}
    {data : SstData} {column : Bytes} {rest : List PropertyDeltaFile} {d : Disk}
    (hreplays : s.Replays o (o.target fid propertyId) mergeAll data column rest)
    (hmanifest : d.manifest = s.disk.manifest) (hfiles : d.files = s.disk.files)
    (hssts : d.ssts = s.disk.ssts)
    (hcolumns : d.columns = ((DiskStep.renameMerge (s.temporaryOf (o.target fid propertyId))
      column).apply s.disk).columns) : AsBefore o s live d es live where
  sound := h.sound.congr hmanifest fun p _ => by rw [hfiles]
  fit := h.fit
  live _ := rfl
  read fid' propertyId' id := by
    have hsst : ∀ sst, s.disk.ssts fid = some sst → data.sst = sst := by
      intro sst hsst
      obtain ⟨data', hdata', hrecords, -⟩ := h.base fid sst hsst
      have hdata := hreplays.loaded
      rw [show (o.target fid propertyId).baseFileId = fid from rfl, hdata'] at hdata
      cases hdata
      exact hrecords
    have hcolumn : baseColumn data propertyId (s.memory.mergedBase (o.target fid propertyId)) =
        s.disk.columns fid propertyId := by
      cases hbase : s.disk.ssts fid with
      | none =>
        have hnone := (h.noBase fid hbase).1
        have hdata := hreplays.loaded
        rw [show (o.target fid propertyId).baseFileId = fid from rfl, hnone] at hdata
        cases hdata
      | some sst =>
        obtain ⟨data', hdata', -, hcol⟩ := h.base fid sst hbase
        have hdata := hreplays.loaded
        rw [show (o.target fid propertyId).baseFileId = fid from rfl, hdata'] at hdata
        cases hdata
        exact hcol propertyId
    have hbatch : ∀ f ∈ s.batchOf o (o.target fid propertyId) mergeAll,
        f ∈ live.of (o.target fid propertyId) := by
      intro f hf
      rw [← h.deltas, hreplays.deltas]
      exact List.mem_append_left _ hf
    have hmerge := hreplays.column
    rw [show (o.target fid propertyId).propertyId = propertyId from rfl, hcolumn] at hmerge
    rw [← Disk.read_rename (m := s.temporaryOf (o.target fid propertyId)) ⟨rfl, rfl⟩ hsst hbatch
      hmerge fid' propertyId' id]
    exact Disk.read_congr (d := (DiskStep.renameMerge (s.temporaryOf (o.target fid propertyId))
      column).apply s.disk) hssts hcolumns (fun _ _ => rfl) fid' propertyId' id

/-- The files of a merged batch are in the column, the others are live. -/
theorem mem_after_merge (h : s.Inv o es live) {target t : PropertyDeltaTarget} {mergeAll : Bool}
    {data : SstData} {column : Bytes} {rest : List PropertyDeltaFile}
    (hreplays : s.Replays o target mergeAll data column rest) {f : PropertyDeltaFile}
    (hf : f ∈ live.of t) : f ∈ (live.without (s.batchNames o target mergeAll)).of t ∨
      f ∈ s.batchOf o target mergeAll := by
  have hlive := (h.deltas target).symm.trans hreplays.deltas
  have hof := of_without_batch h.sound.rising hlive t
  change (live.without (s.batchNames o target mergeAll)).of t = _ at hof
  rw [hof]
  split
  · rename_i ht
    rw [ht, hlive] at hf
    exact (List.mem_append.mp hf).symm
  · exact Or.inl hf

theorem asBefore_dropped (h : s.Inv o es live) (m : MergeFile) (k : Nat) :
    AsBefore o s live (s.disk.after ([.createMerge m, .unlinkMerge m].take k)) es live := by
  rcases k with _ | _ | k
  · exact AsBefore.refl h
  · exact .of_same h rfl rfl rfl rfl
  · rw [List.take_succ_cons, List.take_succ_cons, List.take_nil]
    exact .of_same h rfl rfl rfl rfl

section merge

variable {fid propertyId k : Nat} {mergeAll : Bool} {data : SstData} {column : Bytes}
  {rest : List PropertyDeltaFile}

/-- The process dies before the log of a merge is written. -/
theorem asBefore_mergeSteps (h : s.Inv o es live)
    (hreplays : s.Replays o (o.target fid propertyId) mergeAll data column rest) (log : Bytes)
    (names : List Bytes) (hk : k < 3) : AsBefore o s live (s.disk.after
      ((mergeSteps (s.temporaryOf (o.target fid propertyId)) column log names).take k))
        es live := by
  rcases k with _ | _ | _ | k
  · exact AsBefore.refl h
  · exact .of_same h rfl rfl rfl rfl
  · exact asBefore_rename h hreplays rfl rfl rfl rfl
  · omega

theorem not_isAppend_of_lt (m : MergeFile) (column log : Bytes) (names : List Bytes) (hk : k < 3) :
    ((mergeSteps m column log names).take k).any DiskStep.isAppend = false := by
  rcases k with _ | _ | _ | k
  · rfl
  · rfl
  · rfl
  · omega

/-- The process dies after the removal of a batch was written, and it fits. -/
theorem asAfter_merge (h : s.Inv o es live) {memory : StoreMemory} {c : Chain}
    (hreplays : s.Replays o (o.target fid propertyId) mergeAll data column rest)
    (hremoves : s.Removes o es (o.target fid propertyId) mergeAll column rest
      (s.effect o (.mergeChain fid propertyId mergeAll)) memory c)
    (hsmall : (s.crash (s.effect o (.mergeChain fid propertyId mergeAll))
      (k + 3)).manifest.length ≤ logLimit)
    (hfit : removalBytes (s.batchNames o (o.target fid propertyId) mergeAll) ≤ maxPayloadBytes)
    (hsound : Sound (s.crash (s.effect o (.mergeChain fid propertyId mergeAll)) (k + 3))
      (es ++ [.remove (s.batchNames o (o.target fid propertyId) mergeAll)])
      (live.without (s.batchNames o (o.target fid propertyId) mergeAll))) :
    AsAfter o s live (.mergeChain fid propertyId mergeAll) (k + 3)
      (s.crash (s.effect o (.mergeChain fid propertyId mergeAll)) (k + 3))
      (es ++ [.remove (s.batchNames o (o.target fid propertyId) mergeAll)])
      (live.without (s.batchNames o (o.target fid propertyId) mergeAll)) := by
  unfold crash at hsmall
  rw [hremoves.steps, after_mergeSteps] at hsmall
  have hinv := inv_merge h hreplays hremoves hfit hsmall
  refine ⟨hsound, hinv.fit, hinv, Disk.read_congr ?_ ?_ fun _ _ => rfl, fun target f hf => ?_⟩
  · exact (Disk.ssts_after _ _).trans (Disk.ssts_after _ _).symm
  · unfold crash apply
    rw [hremoves.steps, after_mergeSteps, after_all_mergeSteps]
  · have hmerged : s.mergedBy o (.mergeChain fid propertyId mergeAll) (k + 3) =
        s.batchOf o (o.target fid propertyId) mergeAll := by
      unfold mergedBy
      rw [hremoves.steps]
      simp [mergeSteps, DiskStep.isRename, batch]
    rw [hmerged]
    exact mem_after_merge h hreplays hf

/-- A crash inside a `MergeChain`. -/
theorem crash_merge (h : s.Inv o es live) (fid propertyId : Nat) (mergeAll : Bool) (k : Nat)
    (hsmall : (s.crash (s.effect o (.mergeChain fid propertyId mergeAll)) k).manifest.length ≤
      logLimit) :
    (s.RemovalFits o (.mergeChain fid propertyId mergeAll) k ∧ ∃ es' live', AsBefore o s live
      (s.crash (s.effect o (.mergeChain fid propertyId mergeAll)) k) es' live') ∨
    (s.RemovalFits o (.mergeChain fid propertyId mergeAll) k ∧ ∃ es' live', AsAfter o s live
      (.mergeChain fid propertyId mergeAll) k
      (s.crash (s.effect o (.mergeChain fid propertyId mergeAll)) k) es' live') ∨
    ¬ s.RemovalFits o (.mergeChain fid propertyId mergeAll) k ∧ ∃ es' live',
      Sound (s.crash (s.effect o (.mergeChain fid propertyId mergeAll)) k) es' live' ∧
        ∃ e ∈ es', maxPayloadBytes < e.payload.length := by
  have hremoval : s.removal o (.mergeChain fid propertyId mergeAll) =
      removalBytes (s.batchNames o (o.target fid propertyId) mergeAll) := rfl
  rcases merge_cases h (o.target fid propertyId) mergeAll with
    ⟨hsteps, -⟩ | ⟨hsteps, -⟩ | ⟨data, column, rest, hreplays, ⟨memory, c, hremoves⟩ | hrefused⟩
  · left
    unfold RemovalFits crash effect
    rw [hsteps, List.take_nil]
    exact ⟨fun hany => by simp at hany, es, live, AsBefore.refl h⟩
  · left
    unfold RemovalFits crash effect
    rw [hsteps]
    refine ⟨fun hany => ?_, es, live, asBefore_dropped h _ k⟩
    rcases k with _ | _ | k <;> simp [DiskStep.isAppend] at hany
  · rcases Nat.lt_or_ge k 3 with hk | hk
    · left
      unfold RemovalFits crash effect
      rw [hremoves.steps]
      refine ⟨fun hany => ?_, es, live, asBefore_mergeSteps h hreplays _ _ hk⟩
      rw [not_isAppend_of_lt _ _ _ _ hk] at hany
      cases hany
    obtain ⟨k, rfl⟩ := Nat.exists_eq_add_of_le' hk
    right
    have hsound : Sound (s.crash (s.effect o (.mergeChain fid propertyId mergeAll)) (k + 3))
        (es ++ [.remove (s.batchNames o (o.target fid propertyId) mergeAll)])
        (live.without (s.batchNames o (o.target fid propertyId) mergeAll)) := by
      unfold crash effect
      rw [hremoves.steps, after_mergeSteps]
      exact sound_remove h.sound (logged_remove h.toLogs validFileName_names hremoves.le)
        (fun name hname => List.mem_of_mem_take hname) rfl rfl
    by_cases hfit : removalBytes (s.batchNames o (o.target fid propertyId) mergeAll) ≤
        maxPayloadBytes
    · exact Or.inl ⟨fun _ hlarge => absurd hfit (Nat.not_le.mpr hlarge), _, _,
        asAfter_merge h hreplays hremoves hsmall hfit hsound⟩
    · refine Or.inr ⟨fun hall => ?_, _, _, hsound, .remove (s.batchNames o _ mergeAll),
        by simp, Nat.lt_of_not_le hfit⟩
      have hany : ((s.effect o (.mergeChain fid propertyId mergeAll)).steps.take (k + 3)).any
          DiskStep.isAppend = true := by
        unfold effect
        rw [hremoves.steps]
        rfl
      exact absurd hremoves.le (Nat.not_le.mpr (hall hany (Nat.lt_of_not_le hfit)))
  · left
    refine ⟨fun _ _ => Nat.lt_of_not_le hrefused.not_le, es, live, ?_⟩
    unfold crash effect
    rw [hrefused.steps]
    rcases Nat.lt_or_ge k 3 with hk | hk
    · exact asBefore_mergeSteps h hreplays _ _ hk
    obtain ⟨k, rfl⟩ := Nat.exists_eq_add_of_le' hk
    rw [after_mergeSteps]
    refine asBefore_rename h hreplays h.sound.manifest.symm ?_ rfl rfl
    simp

end merge

/-- The three calls. -/
theorem crash_cases (h : s.Inv o es live) (c : Call) (k : Nat)
    (hsmall : (s.crash (s.effect o c) k).manifest.length ≤ logLimit) :
    (s.RemovalFits o c k ∧ ∃ es' live',
      AsBefore o s live (s.crash (s.effect o c) k) es' live') ∨
    (s.RemovalFits o c k ∧ ∃ es' live',
      AsAfter o s live c k (s.crash (s.effect o c) k) es' live') ∨
    ¬ s.RemovalFits o c k ∧ ∃ es' live', Sound (s.crash (s.effect o c) k) es' live' ∧
      ∃ e ∈ es', maxPayloadBytes < e.payload.length := by
  have hnone : removalBytes [] ≤ maxPayloadBytes := by decide
  cases c with
  | attach fid propertyId records targetIsPersistent =>
    have hfits : s.RemovalFits o (.attach fid propertyId records targetIsPersistent) k :=
      fun _ hlarge => absurd hnone (Nat.not_le.mpr hlarge)
    rcases crash_attach h fid propertyId records targetIsPersistent k hsmall with hb | ha
    · exact Or.inl ⟨hfits, hb⟩
    · exact Or.inr (Or.inl ⟨hfits, ha⟩)
  | markTargetPersistent fid propertyId =>
    exact Or.inl ⟨fun _ hlarge => absurd hnone (Nat.not_le.mpr hlarge),
      crash_mark h fid propertyId k⟩
  | mergeChain fid propertyId mergeAll => exact crash_merge h fid propertyId mergeAll k hsmall

/-! ## The recovered store -/

section

variable {d : Disk} {levels : Nat → Nat}

theorem abandonedNames_eq (h : Sound d es live)
    (hfit : ∀ e ∈ es, e.payload.length ≤ maxPayloadBytes) :
    d.abandonedNames = d.abandoned live := by
  have hlen := h.logged.length_lt
  unfold Disk.abandonedNames
  rw [h.manifest, openAndRecover_logOf (h.logged.readable hfit) (by omega)]
  simp only [ofEdits, h.active]
  unfold Disk.abandoned
  rw [List.filter_map, List.map_map]
  rfl

/-- What the recovery appends is logged. -/
theorem logged_recoveryEdits (h : Sound d es live) (hsmall : d.manifest.length ≤ logLimit)
    (habandoned : removalBytes (d.abandoned live) ≤ maxUInt32) :
    Logged (es ++ recoveryEdits d live) := by
  obtain ⟨hall, hremove⟩ := appends_of_recovery h hsmall
  obtain ⟨-, hlogged⟩ := appendAll_ofEdits h.logged hall
  rw [if_pos habandoned] at hremove
  have hwritten : ∀ fs, written (addAgain fs) = addAgain fs := by
    intro fs
    apply List.filter_eq_self.mpr
    intro e he
    exact decide_eq_true (addAgain_accepted e he).1
  have hlist : ((d.promoted live).map fun p => entryOf (p.1, true)).map Edit.add =
      addAgain ((d.promoted live).map Prod.fst) := by
    simp [addAgain]
  rw [hlist, hwritten] at hlogged
  have hlast := (append_ofEdits hlogged hremove).2
  rwa [List.append_assoc] at hlast

section finish

variable {r : Recovery} {m : PropertyDeltaManifest}

theorem manifest_finishRecovery : (finishRecovery levels d r m).disk.manifest = m.file := by
  simp only [finishRecovery, removeOrphanFiles, Disk.after_cons]
  rw [Disk.after_unlinks]
  rfl

theorem columns_finishRecovery : (finishRecovery levels d r m).disk.columns = d.columns := by
  simp only [finishRecovery, removeOrphanFiles, Disk.after_cons]
  rw [Disk.after_unlinks]
  rfl

/-- The files that stay live are neither abandoned nor orphans. -/
theorem files_finishRecovery (h : Sound d es live) (hr : r.Of d live) {p : PropertyDeltaFile × Bool}
    (hp : p ∈ d.recovered live) :
    (finishRecovery levels d r (ofEdits (es ++ recoveryEdits d live))).disk.files p.1.fileName =
      some p.1 := by
  obtain ⟨⟨flag, hmem⟩, hname⟩ := Disk.mem_recovered h.rising hp
  have hactive : p.1.fileName ∈
      (ofEdits (es ++ recoveryEdits d live)).activeEntries.map (·.fileName) := by
    simp only [ofEdits]
    rw [applyAll_append, h.active, applyAll_recoveryEdits h.rising, List.map_map]
    exact List.mem_map.mpr ⟨p, hp, rfl⟩
  have hkeep : ¬ (IsDeltaName p.1.fileName ∧ p.1.fileName ∉
      (ofEdits (es ++ recoveryEdits d live)).activeEntries.map (·.fileName) ∨
        bytes ".tmp." <:+: p.1.fileName) := by
    rintro (⟨-, hnot⟩ | htemporary)
    · exact hnot hactive
    · exact not_temporary_deltaFileName htemporary
  simp only [finishRecovery, removeOrphanFiles, if_neg hkeep, Disk.after_cons]
  rw [Disk.after_unlinks, hr.abandoned]
  simp only [if_neg hname, DiskStep.apply]
  exact h.files (p.1, flag) hmem

theorem read_finishRecovery (hr : r.Of d live) (fid propertyId : Nat) (id : RecordId) :
    (finishRecovery levels d r m).read o fid propertyId id =
      d.read o live fid propertyId id := by
  unfold PropertyDeltaStore.read Disk.read
  simp only [finishRecovery]
  cases hsst : d.ssts fid with
  | none => rfl
  | some sst =>
    simp only [Option.map_some, Option.bind_some]
    refine PropertyDeltaReadView.read_congr ?_ rfl ?_ id
    · refine (hr.deltas _).trans (Disk.of_kept ?_)
      change (d.ssts fid).isSome = true
      rw [hsst]
      rfl
    · change baseColumn _ propertyId (r.mergedBase _) = _
      rw [hr.mergedBase]

theorem inv_finishRecovery (h : Sound d es live) (hr : r.Of d live)
    (hfit : ∀ e ∈ es, e.payload.length ≤ maxPayloadBytes)
    (hlogged : Logged (es ++ recoveryEdits d live))
    (hremoval : removalBytes (d.abandoned live) ≤ maxPayloadBytes)
    (hlog : (finishRecovery levels d r
      (ofEdits (es ++ recoveryEdits d live))).disk.manifest.length ≤ logLimit) :
    (finishRecovery levels d r (ofEdits (es ++ recoveryEdits d live))).Inv o
      (es ++ recoveryEdits d live) (d.recovered live) where
  sound := ⟨manifest_finishRecovery, hlogged,
    by rw [applyAll_append, h.active, applyAll_recoveryEdits h.rising],
    Disk.recovered_rising h.rising, fun _ hp => files_finishRecovery h hr hp⟩
  manifest := by
    unfold PropertyDeltaStore.manifest
    rw [manifest_finishRecovery]
    rfl
  fit := by
    intro e he
    rw [recoveryEdits, ← List.append_assoc] at he
    rcases List.mem_append.mp he with he | he
    · exact fit_append hfit adds_addAgain e he
    · rw [List.mem_singleton.mp (List.mem_of_mem_filter he)]
      exact hremoval
  small := hlog
  next := by
    intro p hp
    obtain ⟨⟨flag, hmem⟩, -⟩ := Disk.mem_recovered h.rising hp
    have hle : p.1.metadata.fileGeneration ≤ r.maximumGeneration := by
      rw [hr.maximum]
      exact (le_foldl_max (fun p => p.1.metadata.fileGeneration) _ _).2 _ hmem
    exact Nat.lt_succ_of_le hle
  deltas := fun target => (hr.deltas target).trans (Disk.of_recovered h.rising target).symm
  base := by
    intro fid sst hsst
    rw [show (finishRecovery levels d r _).disk.ssts = d.ssts from Disk.ssts_after _ _] at hsst
    refine ⟨(FileOrigin.loaded (levels fid)).data sst (d.columns fid), ?_, rfl, ?_⟩
    · simp only [finishRecovery, hsst, Option.map_some]
    · intro propertyId
      rw [columns_finishRecovery]
      change baseColumn _ propertyId (r.mergedBase _) = _
      rw [hr.mergedBase]
      rfl
  noBase := by
    intro fid hsst
    rw [show (finishRecovery levels d r _).disk.ssts = d.ssts from Disk.ssts_after _ _] at hsst
    refine ⟨?_, fun propertyId => hr.mergedBase _⟩
    simp only [finishRecovery, hsst, Option.map_none]

end finish

/-- From a sound disk the recovery gives a store that reads what the disk holds. -/
theorem exists_recovered (o : StoreOptions) (levels : Nat → Nat) (h : Sound d es live)
    (hfit : ∀ e ∈ es, e.payload.length ≤ maxPayloadBytes)
    (hsmall : d.manifest.length ≤ logLimit)
    (habandoned : removalBytes (d.abandoned live) ≤ maxUInt32) :
    ∃ r, openAndRecover levels d = .ok r ∧
      (∀ fid propertyId id,
        r.read o fid propertyId id = d.read o live fid propertyId id) ∧
      (∀ target, (d.ssts target.baseFileId).isSome → r.memory.deltas target = live.of target) ∧
      r.disk.ssts = d.ssts ∧
      (removalBytes (d.abandoned live) ≤ maxPayloadBytes → r.disk.manifest.length ≤ logLimit →
        r.Inv o (es ++ recoveryEdits d live) (d.recovered live)) := by
  rcases openAndRecover_cases levels h hsmall with ⟨-, -, r, hr, hopen⟩ | ⟨hnot, -⟩
  · exact ⟨_, hopen, read_finishRecovery hr,
      fun target htarget => (hr.deltas target).trans (Disk.of_kept htarget), Disk.ssts_after _ _,
      inv_finishRecovery h hr hfit (logged_recoveryEdits h hsmall habandoned)⟩
  · exact absurd ⟨hfit, habandoned⟩ hnot

end

/-! ## The two together -/

/-- The disk after a crash inside a call: the recovery reads what was read before the call, or
what would have been read after it, and has every live file that is not in its column. -/
structure Recoverable (o : StoreOptions) (s : PropertyDeltaStore) (live : LiveFiles) (c : Call)
    (k : Nat) (es' : List Edit) (live' : LiveFiles) : Prop where
  sound : Sound (s.crash (s.effect o c) k) es' live'
  fit : ∀ e ∈ es', e.payload.length ≤ maxPayloadBytes
  read : (∀ fid propertyId id, (s.crash (s.effect o c) k).read o live' fid propertyId id =
      s.read o fid propertyId id) ∨
    ∀ fid propertyId id, (s.crash (s.effect o c) k).read o live' fid propertyId id =
      (s.apply (s.effect o c)).read o fid propertyId id
  live : ∀ target, ∀ f ∈ live.of target, f ∈ live'.of target ∨ f ∈ s.mergedBy o c k

theorem recoverable_or_too_large (h : s.Inv o es live) (c : Call) (k : Nat)
    (hsmall : (s.crash (s.effect o c) k).manifest.length ≤ logLimit) :
    (s.RemovalFits o c k ∧ ∃ es' live', Recoverable o s live c k es' live') ∨
    ¬ s.RemovalFits o c k ∧ ∃ es' live', Sound (s.crash (s.effect o c) k) es' live' ∧
      ∃ e ∈ es', maxPayloadBytes < e.payload.length := by
  rcases crash_cases h c k hsmall with ⟨hfits, es', live', hb⟩ | ⟨hfits, es', live', ha⟩ | hnot
  · refine Or.inl ⟨hfits, es', live', hb.sound, hb.fit, Or.inl ?_, ?_⟩
    · intro fid propertyId id
      rw [hb.read, h.read_eq]
    · intro target f hf
      rw [hb.live]
      exact Or.inl hf
  · refine Or.inl ⟨hfits, es', live', ha.sound, ha.fit, Or.inr ?_, ha.live⟩
    intro fid propertyId id
    rw [ha.read, ha.inv.read_eq]
  · exact Or.inr hnot

end PropertyDeltaStore

end RichGraph
