-- What an interrupted merge leaves behind. The temporary file of the column stays
-- in the data directory, and a later merge that is given the same generation
-- cannot make its own.
import RichGraph.DeltaStoreRuns

namespace RichGraph

open Lib Manifest

namespace PropertyDeltaStore

variable {o : StoreOptions} {s : PropertyDeltaStore} {target : PropertyDeltaTarget}
  {mergeAll : Bool}

/-! ## Merges that return true -/

/-- The base of the target is there, and every record of the batch has a slot in it. -/
def CanReplay (s : PropertyDeltaStore) (o : StoreOptions) (target : PropertyDeltaTarget)
    (mergeAll : Bool) : Prop :=
  ∃ data, s.memory.sstData target.baseFileId = some data ∧
    target.propertyId < o.layout.subPropertyLengths.length ∧
    baseColumn data target.propertyId (s.memory.mergedBase target) ≠ [] ∧
    ∀ r ∈ chainRecords (s.batchOf o target mergeAll),
      data.Places (o.layout.slotLength target.propertyId)
        (baseColumn data target.propertyId (s.memory.mergedBase target)).length r

/-- The records of a batch go into the column exactly if each of them has a slot. -/
theorem canReplay_iff (hkind : target.kind = o.layout.propertyObjectKind)
    (hshard : target.shardId = o.layout.propertyShardId)
    (hne : s.batchOf o target mergeAll ≠ []) :
    s.CanReplay o target mergeAll ↔ ∃ column, mergePropertyDeltaColumn o.layout
      (s.memory.sstData target.baseFileId) target (s.memory.mergedBase target)
      (s.batchOf o target mergeAll) = .ok column := by
  constructor
  · rintro ⟨data, hdata, hproperty, hbase, hplaces⟩
    rw [hdata, mergePropertyDeltaColumn_of_request hne hkind hshard hproperty hbase]
    exact mergeRecords_ok_iff.mpr hplaces
  · rintro ⟨column, hcolumn⟩
    unfold mergePropertyDeltaColumn at hcolumn
    split at hcolumn
    · cases hcolumn
    · rename_i hrequest
      cases hdata : s.memory.sstData target.baseFileId with
      | none => simp [hdata] at hcolumn
      | some data =>
        simp only [hdata] at hcolumn
        split at hcolumn
        · cases hcolumn
        · rename_i hbase
          refine ⟨data, hdata, ?_, hbase, mergeRecords_ok_iff.mp ⟨column, hcolumn⟩⟩
          simp only [not_or, Nat.not_le] at hrequest
          exact hrequest.2.2.2

/-- A removal of valid names is written exactly if a header can state its size. -/
theorem append_remove_returns {m : PropertyDeltaManifest} {names : List Bytes} (hne : names ≠ [])
    (hvalid : ∀ name ∈ names, ValidFileName name)
    (hroom : m.file.length + headerBytes + removalBytes names ≤ maxFileBytes) :
    (append (.remove names) .succeeds m).2 = true ↔ removalBytes names ≤ maxUInt32 := by
  have hne' : Edit.remove names ≠ .remove [] := fun heq => hne (Edit.remove.inj heq)
  constructor
  · intro hreturned
    rcases happend : append (.remove names) .succeeds m with ⟨m', ok⟩
    rw [happend] at hreturned
    rcases append_cases happend with ⟨-, hok⟩ | ⟨-, -, hle, -⟩
    · exact absurd (hok hreturned) hne'
    · exact hle
  · intro hle
    rw [append_of_room hne' (accepted_remove hvalid hle) hle]
    rw [length_record_eq, ← Nat.add_assoc]
    exact hroom

/-- A merge returns true when there is nothing to merge, and otherwise exactly if the records can
be replayed, the removal can be written and the temporary file is not there. -/
theorem merge_returns_iff (hkind : target.kind = o.layout.propertyObjectKind)
    (hshard : target.shardId = o.layout.propertyShardId)
    (hroom : s.disk.manifest.length + headerBytes +
      removalBytes (s.batchNames o target mergeAll) ≤ maxFileBytes) :
    (s.mergeChain o target mergeAll).returned = true ↔
      (s.memory.chains target).isSome ∧ (s.batchOf o target mergeAll = [] ∨
        s.CanReplay o target mergeAll ∧ removalBytes (s.batchNames o target mergeAll) ≤ maxUInt32 ∧
        s.temporaryOf target ∉ s.disk.mergeFiles) := by
  cases hchain : s.memory.chains target with
  | none => simp [mergeChain, hchain]
  | some c =>
    have hbatch : s.batchOf o target mergeAll = c.batch o.mergeThreshold mergeAll := by
      simp [batchOf, hchain]
    have hbase : s.memory.mergedBase target = c.readView.mergedBase := by
      simp [StoreMemory.mergedBase, hchain]
    have hnames : s.batchNames o target mergeAll =
        (c.batch o.mergeThreshold mergeAll).map (·.fileName) := by
      rw [← hbatch]
      rfl
    rw [and_iff_right (by rfl)]
    by_cases hnil : c.batch o.mergeThreshold mergeAll = []
    · simp [mergeChain, hchain, hnil, hbatch]
    have hne : s.batchOf o target mergeAll ≠ [] := by rwa [hbatch]
    rw [or_iff_right hne, canReplay_iff hkind hshard hne, hbatch, hbase]
    cases hcolumn : mergePropertyDeltaColumn o.layout (s.memory.sstData target.baseFileId) target
        c.readView.mergedBase (c.batch o.mergeThreshold mergeAll) with
    | error error =>
      simp only [mergeChain, hchain, if_neg hnil, hcolumn, reduceCtorEq, exists_false, false_and,
        iff_false, Bool.not_eq_true]
      split
      · rfl
      · rfl
      · rfl
      · split <;> rfl
      · rename_i heq
        cases heq
    | ok column =>
      have hnew : (⟨target.baseFileId, target.propertyId, s.memory.nextFileGeneration⟩ :
          MergeFile) = s.temporaryOf target := rfl
      simp only [mergeChain, hchain, if_neg hnil, hcolumn, hnew, Except.ok.injEq, exists_eq',
        true_and]
      by_cases hthere : s.temporaryOf target ∈ s.disk.mergeFiles
      · simp [hthere]
      simp only [hthere, not_false_iff, and_true]
      rw [hnames] at hroom ⊢
      have happend := append_remove_returns (m := s.manifest) (by simpa using hnil)
        validFileName_names hroom
      rcases hm : append (.remove ((c.batch o.mergeThreshold mergeAll).map (·.fileName))) .succeeds
        s.manifest with ⟨m, removed⟩
      rw [hm] at happend
      rw [← happend]
      cases removed with
      | false =>
        have hmerged : RichGraph.mergeChain o.layout (s.memory.sstData target.baseFileId) target
            o.mergeThreshold mergeAll c c s.memory.nextFileGeneration false =
              .error .manifest := by
          unfold RichGraph.mergeChain
          simp only [if_neg hnil, hcolumn, Bool.false_eq_true, if_false]
        simp [hm, hmerged]
      | true =>
        obtain ⟨rest, hrest⟩ := c.batch_prefix o.mergeThreshold mergeAll
        obtain ⟨data, hdata⟩ := exists_data_of_column hcolumn
        rw [hdata] at hcolumn ⊢
        simp [hm, mergeChain_self hnil hrest hcolumn s.memory.nextFileGeneration]

/-! ## The temporary files -/

/-- The merge gets as far as to make its temporary file. -/
def MakesTemporary (s : PropertyDeltaStore) (o : StoreOptions) (target : PropertyDeltaTarget)
    (mergeAll : Bool) : Prop :=
  (s.mergeChain o target mergeAll).steps.head? = some (.createMerge (s.temporaryOf target))

/-- A merge does nothing on disk, or it makes its temporary file, which was not there, and then
drops it or renames it. -/
theorem mergeChain_steps (s : PropertyDeltaStore) (o : StoreOptions) (target : PropertyDeltaTarget)
    (mergeAll : Bool) :
    (s.mergeChain o target mergeAll).steps = [] ∨
    (∀ m ∈ s.disk.mergeFiles, m ≠ s.temporaryOf target) ∧
      ((s.mergeChain o target mergeAll).steps =
          [.createMerge (s.temporaryOf target), .unlinkMerge (s.temporaryOf target)] ∨
        ∃ column log names, (s.mergeChain o target mergeAll).steps =
          mergeSteps (s.temporaryOf target) column log names) := by
  unfold mergeChain
  split
  · exact Or.inl rfl
  · rename_i c hc
    simp only
    split
    · exact Or.inl rfl
    · split
      · exact Or.inl rfl
      · exact Or.inl rfl
      · exact Or.inl rfl
      · split
        · exact Or.inl rfl
        · rename_i hnew
          refine Or.inr ⟨fun m hm heq => hnew ?_, Or.inl rfl⟩
          rw [heq] at hm
          exact hm
      · rename_i column hcolumn
        split
        · exact Or.inl rfl
        · rename_i hnew
          refine Or.inr ⟨fun m hm heq => hnew ?_, Or.inr ?_⟩
          · rw [heq] at hm
            exact hm
          split
          · refine ⟨column, (append (.remove ((c.batch o.mergeThreshold mergeAll).map
              (·.fileName))) .succeeds s.manifest).1.file,
              (c.batch o.mergeThreshold mergeAll).map (·.fileName), ?_⟩
            simp only [mergeSteps, List.map_map]
            rfl
          · exact ⟨column, _, [], rfl⟩

/-- The temporary files after a crash inside a merge: one more if the process dies right after it
was made. -/
theorem mergeFiles_crash (s : PropertyDeltaStore) (o : StoreOptions) (target : PropertyDeltaTarget)
    (mergeAll : Bool) (k : Nat) (m : MergeFile) :
    m ∈ (s.crash (s.mergeChain o target mergeAll) k).mergeFiles ↔
      m ∈ s.disk.mergeFiles ∨
        k = 1 ∧ s.MakesTemporary o target mergeAll ∧ m = s.temporaryOf target := by
  unfold crash MakesTemporary
  rcases mergeChain_steps s o target mergeAll with
    hsteps | ⟨hnew, hsteps | ⟨column, log, names, hsteps⟩⟩
  · simp [hsteps, Disk.after]
  · rw [hsteps]
    rcases k with _ | _ | k
    · simp [Disk.after]
    · simp [Disk.after, DiskStep.apply, or_comm]
    · simpa [Disk.after, DiskStep.apply] using hnew m
  · rw [hsteps]
    rcases k with _ | _ | _ | k
    · simp [Disk.after]
    · simp [mergeSteps, Disk.after, DiskStep.apply, or_comm]
    · simpa [mergeSteps, Disk.after, DiskStep.apply] using hnew m
    · rw [after_mergeSteps]
      simpa [DiskStep.apply] using hnew m

def DiskStep.ofMerge : DiskStep → Bool
  | .createMerge _ | .renameMerge _ _ | .unlinkMerge _ => true
  | _ => false

theorem mergeFiles_after {steps : List DiskStep} (h : ∀ step ∈ steps, DiskStep.ofMerge step = false)
    (d : Disk) : (d.after steps).mergeFiles = d.mergeFiles := by
  induction steps generalizing d with
  | nil => rfl
  | cons step steps ih =>
    rw [Disk.after_cons, ih fun x hx => h x (List.mem_cons_of_mem _ hx)]
    have hstep := h step List.mem_cons_self
    cases step with
    | createMerge m => cases hstep
    | renameMerge m column => cases hstep
    | unlinkMerge m => cases hstep
    | _ => rfl

theorem markFiles_steps (fs : List PropertyDeltaFile) (m : PropertyDeltaManifest) :
    ∀ step ∈ (markFiles fs m).1, DiskStep.ofMerge step = false := by
  induction fs generalizing m with
  | nil => simp [markFiles]
  | cons f fs ih =>
    rw [markFiles]
    rcases append (.add ⟨f.fileName, f.metadata, true⟩) .succeeds m with ⟨m', ok⟩
    cases ok with
    | false => simp [markTurn, DiskStep.ofMerge]
    | true =>
      intro step hstep
      rcases List.mem_cons.mp hstep with rfl | hstep
      · rfl
      · exact ih m' step hstep

theorem attach_steps (s : PropertyDeltaStore) (target : PropertyDeltaTarget)
    (records : List PropertyDeltaRecord) (targetIsPersistent : Bool) (outcome : WriteOutcome) :
    ∀ step ∈ (s.attach target records targetIsPersistent outcome).steps,
      DiskStep.ofMerge step = false := by
  unfold attach
  split
  · simp
  · simp only
    split
    · simp
    · split <;> simp [DiskStep.ofMerge]

theorem markTargetPersistent_steps (s : PropertyDeltaStore) (target : PropertyDeltaTarget) :
    ∀ step ∈ (s.markTargetPersistent target).steps, DiskStep.ofMerge step = false := by
  unfold markTargetPersistent
  simp only
  split
  · simp
  · rename_i c hc
    split
    · simp
    · have hsteps := markFiles_steps c.readView.deltas s.manifest
      split <;> rename_i hmark <;> rw [hmark] at hsteps <;> exact hsteps

/-- A call that returns leaves no temporary file of its own. -/
theorem mergeFiles_call (s : PropertyDeltaStore) (o : StoreOptions) (c : Call) :
    (s.apply (s.effect o c)).disk.mergeFiles = s.disk.mergeFiles := by
  cases c with
  | attach fid propertyId records targetIsPersistent =>
    exact mergeFiles_after (s.attach_steps (o.target fid propertyId) records targetIsPersistent
      .succeeds) s.disk
  | markTargetPersistent fid propertyId =>
    exact mergeFiles_after (s.markTargetPersistent_steps (o.target fid propertyId)) s.disk
  | mergeChain fid propertyId mergeAll =>
    unfold apply effect
    rcases mergeChain_steps s o (o.target fid propertyId) mergeAll with
      hsteps | ⟨hnew, hsteps | ⟨column, log, names, hsteps⟩⟩
    · rw [hsteps]
      rfl
    · rw [hsteps]
      simpa [Disk.after, DiskStep.apply] using hnew
    · rw [hsteps, after_all_mergeSteps]
      simpa [DiskStep.apply] using hnew

/-- The recovery looks into the directory of the deltas only. -/
theorem mergeFiles_openAndRecover {levels : Nat → Nat} {d : Disk} {r : PropertyDeltaStore}
    (h : openAndRecover levels d = .ok r) : r.disk.mergeFiles = d.mergeFiles := by
  obtain ⟨m, found, m', -, -, rfl⟩ := recovered_of_open h
  simp only [finishRecovery, removeOrphanFiles, Disk.after_cons]
  rw [Disk.after_unlinks]
  rfl

/-! ## Later merges -/

namespace Tracked

/-- The process does not die. -/
def NoCrash (_ : Tracked) : Event → Prop
  | .restart _ _ _ => False
  | _ => True

theorem mergeFiles_of_reach {t t' : Tracked} (h : Reach (step o) NoCrash t t') :
    t'.store.disk.mergeFiles = t.store.disk.mergeFiles := by
  induction h with
  | start => rfl
  | @step s s' e _ hok hs ih =>
    cases e with
    | call c =>
      cases hs
      exact (mergeFiles_call _ _ _).trans ih
    | flush fid sst columns =>
      simp only [step] at hs
      split at hs
      · cases hs
      · cases hs
        exact ih
    | restart c k levels => cases hok

/-- A process dies inside a merge, and the directory is opened again. A later merge of the target
that has work to do, can replay its records and can write its removal succeeds, unless it is given
the generation of a temporary file that is still there: that of the interrupted merge when the
process died right after making it, or one that was there before. -/
theorem later_merge_succeeds_iff (o : StoreOptions) (t t₁ t₂ : Tracked) (fid propertyId : Nat)
    (mergeAll mergeAll' : Bool) (k : Nat) (levels : Nat → Nat)
    (hs : t.step o (.restart (.mergeChain fid propertyId mergeAll) k levels) = some t₁)
    (h : Reach (step o) NoCrash t₁ t₂)
    (hroom : t₂.store.disk.manifest.length + headerBytes +
      t₂.store.removal o (.mergeChain fid propertyId mergeAll') ≤ maxFileBytes) :
    (t₂.store.effect o (.mergeChain fid propertyId mergeAll')).returned = true ↔
      (t₂.store.memory.chains (o.target fid propertyId)).isSome ∧
        (t₂.store.batchOf o (o.target fid propertyId) mergeAll' = [] ∨
          t₂.store.CanReplay o (o.target fid propertyId) mergeAll' ∧
          t₂.store.removal o (.mergeChain fid propertyId mergeAll') ≤ maxUInt32 ∧
          t₂.store.temporaryOf (o.target fid propertyId) ∉ t.store.disk.mergeFiles ∧
          ¬ (k = 1 ∧ t.store.MakesTemporary o (o.target fid propertyId) mergeAll ∧
            t₂.store.memory.nextFileGeneration = t.store.memory.nextFileGeneration)) := by
  have htemporary : t₂.store.temporaryOf (o.target fid propertyId) =
      t.store.temporaryOf (o.target fid propertyId) ↔
        t₂.store.memory.nextFileGeneration = t.store.memory.nextFileGeneration := by
    simp [temporaryOf]
  have hfiles : t₂.store.temporaryOf (o.target fid propertyId) ∈ t₂.store.disk.mergeFiles ↔
      t₂.store.temporaryOf (o.target fid propertyId) ∈ t.store.disk.mergeFiles ∨
        k = 1 ∧ t.store.MakesTemporary o (o.target fid propertyId) mergeAll ∧
          t₂.store.memory.nextFileGeneration = t.store.memory.nextFileGeneration := by
    rw [mergeFiles_of_reach h, ← htemporary]
    simp only [step] at hs
    split at hs
    · cases hs
    · rename_i r hopen
      cases hs
      rw [mergeFiles_openAndRecover hopen]
      exact mergeFiles_crash t.store o (o.target fid propertyId) mergeAll k _
  have htarget : (o.target fid propertyId).kind = o.layout.propertyObjectKind ∧
      (o.target fid propertyId).shardId = o.layout.propertyShardId := ⟨rfl, rfl⟩
  have hreturns := merge_returns_iff htarget.1 htarget.2 hroom
  rw [hfiles, not_or] at hreturns
  exact hreturns

/-- A store with one file in a chain. -/
def exampleTracked : Tracked :=
  (run (step exampleOptions) AnyStep initial [.flush 2 exampleSst fun _ => [1, 0, 2, 0, 3, 0],
    .call (.attach 2 0 [exampleUpdate 5 9 [8]] true)]).getD initial

/-- The process dies before the temporary file is made. -/
theorem a_merge_after_an_early_crash_succeeds :
    ∃ t₁, exampleTracked.step exampleOptions (.restart (.mergeChain 2 0 true) 0 fun _ => 0) =
        some t₁ ∧ t₁.store.batchOf exampleOptions exampleTarget true ≠ [] ∧
      (t₁.store.effect exampleOptions (.mergeChain 2 0 true)).returned = true := by
  have hany : (exampleTracked.step exampleOptions
      (.restart (.mergeChain 2 0 true) 0 fun _ => 0)).any (fun t₁ =>
        (t₁.store.memory.chains exampleTarget).isSome ∧
        t₁.store.batchOf exampleOptions exampleTarget true ≠ [] ∧
        (mergePropertyDeltaColumn exampleLayout (t₁.store.memory.sstData 2) exampleTarget
          (t₁.store.memory.mergedBase exampleTarget)
          (t₁.store.batchOf exampleOptions exampleTarget true)).isOk ∧
        t₁.store.removal exampleOptions (.mergeChain 2 0 true) ≤ maxUInt32 ∧
        t₁.store.disk.manifest.length + headerBytes +
          t₁.store.removal exampleOptions (.mergeChain 2 0 true) ≤ maxFileBytes) = true := by
    decide +kernel
  rw [Option.any_eq_true] at hany
  obtain ⟨t₁, hs, hfacts⟩ := hany
  obtain ⟨hchain, hne, hok, hremoval, hroom⟩ := of_decide_eq_true hfacts
  have hreplay : t₁.store.CanReplay exampleOptions exampleTarget true := by
    refine (canReplay_iff rfl rfl hne).mpr ?_
    cases hcolumn : mergePropertyDeltaColumn exampleLayout (t₁.store.memory.sstData 2)
        exampleTarget (t₁.store.memory.mergedBase exampleTarget)
        (t₁.store.batchOf exampleOptions exampleTarget true) with
    | error error =>
      rw [hcolumn] at hok
      cases hok
    | ok column => exact ⟨column, hcolumn⟩
  refine ⟨t₁, hs, hne, ?_⟩
  refine (later_merge_succeeds_iff exampleOptions _ t₁ t₁ 2 0 true true 0 _ hs Reach.start
    hroom).mpr ⟨hchain, Or.inr ⟨hreplay, hremoval, ?_, ?_⟩⟩
  · have hempty : exampleTracked.store.disk.mergeFiles = [] := by decide +kernel
    rw [hempty]
    exact List.not_mem_nil
  · exact fun hleft => absurd hleft.1 (by decide)

/-- The process dies when the temporary file was made. The recovery gives the same generation to
the next merge, which fails, and would not without the file. -/
theorem a_left_over_file_makes_a_merge_fail :
    ∃ t₁, exampleTracked.step exampleOptions (.restart (.mergeChain 2 0 true) 1 fun _ => 0) =
        some t₁ ∧
      (t₁.store.effect exampleOptions (.mergeChain 2 0 true)).returned = false ∧
      (({ t₁.store with disk := { t₁.store.disk with mergeFiles := [] } } :
        PropertyDeltaStore).effect exampleOptions (.mergeChain 2 0 true)).returned = true := by
  have hany : (exampleTracked.step exampleOptions
      (.restart (.mergeChain 2 0 true) 1 fun _ => 0)).any (fun t₁ =>
        (t₁.store.effect exampleOptions (.mergeChain 2 0 true)).returned = false ∧
        (({ t₁.store with disk := { t₁.store.disk with mergeFiles := [] } } :
          PropertyDeltaStore).effect exampleOptions (.mergeChain 2 0 true)).returned = true) =
      true := by
    decide +kernel
  rw [Option.any_eq_true] at hany
  obtain ⟨t₁, hs, hfacts⟩ := hany
  exact ⟨t₁, hs, of_decide_eq_true hfacts⟩

end Tracked

end PropertyDeltaStore

end RichGraph
