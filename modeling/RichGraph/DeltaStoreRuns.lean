-- Runs of a delta store: calls, new files, and crashes inside a call with the
-- recovery after them. Every crash is survived as long as the manifest never
-- gets a removal that is too large for the recovery.
import RichGraph.DeltaStoreCrashes
import RichGraph.Lib.Runs

namespace RichGraph

open Lib Manifest

namespace PropertyDeltaStore

variable {o : StoreOptions} {es : List Edit} {live : LiveFiles}

/-! ## Runs -/

/-- A store with the files whose `Attach` returned true, and those that are in the column of
their base. -/
structure Tracked where
  store : PropertyDeltaStore
  acknowledged : List PropertyDeltaFile
  merged : List PropertyDeltaFile

/-- The store of a new database. -/
def Tracked.initial : Tracked :=
  ⟨⟨Disk.empty, ⟨1, [], fun _ => none, 1, [], fun _ => none⟩⟩, [], []⟩

inductive Event where
  | call (c : Call)
  | flush (fid : Nat) (sst : SSTable) (columns : Nat → Bytes)
  | restart (c : Call) (k : Nat) (levels : Nat → Nat)

def DiskStep.created : DiskStep → Option PropertyDeltaFile
  | .createDelta _ f => some f
  | _ => none

/-- The files that a call makes. -/
def Effect.created (e : Effect) : List PropertyDeltaFile := e.steps.filterMap DiskStep.created

/-- The file of a MemTable is written, and loaded. -/
def flush (s : PropertyDeltaStore) (fid : Nat) (sst : SSTable) (columns : Nat → Bytes) :
    PropertyDeltaStore where
  disk :=
    { s.disk with
      ssts := fun x => if x = fid then some sst else s.disk.ssts x
      columns := fun x => if x = fid then columns else s.disk.columns x }
  memory :=
    { s.memory with
      sstData := fun x =>
        if x = fid then some (FileOrigin.flushed.data sst columns) else s.memory.sstData x }

/-- The store runs, or its process dies inside a call and the directory is opened again. Of the
acknowledged files the recovery owes only those whose base was on disk. -/
def Tracked.step (o : StoreOptions) (t : Tracked) : Event → Option Tracked
  | .call c =>
    let e := t.store.effect o c
    some ⟨t.store.apply e, t.acknowledged ++ (if e.returned then Effect.created e else []),
      t.merged ++ t.store.mergedBy o c e.steps.length⟩
  | .flush fid sst columns =>
    if (t.store.disk.ssts fid).isSome then none
    else some { t with store := t.store.flush fid sst columns }
  | .restart c k levels =>
    match openAndRecover levels (t.store.crash (t.store.effect o c) k) with
    | .error _ => none
    | .ok r => some ⟨r, t.acknowledged.filter fun f =>
        (t.store.disk.ssts f.metadata.target.baseFileId).isSome,
        t.merged ++ t.store.mergedBy o c k⟩

/-- No removal is too large for the recovery, and the log is not too long to be written to. -/
def Tracked.Within (o : StoreOptions) (t : Tracked) : Event → Prop
  | .call c => t.store.removal o c ≤ maxPayloadBytes ∧
      (t.store.apply (t.store.effect o c)).disk.manifest.length ≤ logLimit
  | .flush _ _ _ => True
  | .restart c k levels => t.store.removal o c ≤ maxPayloadBytes ∧
      (t.store.crash (t.store.effect o c) k).manifest.length ≤ logLimit ∧
      removalBytes (t.store.crash (t.store.effect o c) k).abandonedNames ≤ maxPayloadBytes ∧
      ∀ r, openAndRecover levels (t.store.crash (t.store.effect o c) k) = .ok r →
        r.disk.manifest.length ≤ logLimit

namespace Tracked

variable {t t' : Tracked} {c : Call} {k : Nat} {levels : Nat → Nat}

/-- The invariant of the store, and every acknowledged file is live or in its column. -/
def Inv (o : StoreOptions) (t : Tracked) : Prop :=
  ∃ es live, t.store.Inv o es live ∧
    ∀ f ∈ t.acknowledged, f ∈ live.of f.metadata.target ∨ f ∈ t.merged

theorem inv_initial (o : StoreOptions) : initial.Inv o := by
  refine ⟨[], [], ?_, by simp [initial]⟩
  exact
    { sound := ⟨rfl, Logged.nil, rfl, List.Pairwise.nil, by simp⟩
      manifest := rfl
      fit := by simp
      small := Nat.zero_le _
      next := by simp
      deltas := fun _ => rfl
      base := by
        intro fid sst hsst
        cases hsst
      noBase := fun _ _ => ⟨rfl, fun _ => rfl⟩ }

theorem inv_flush {fid : Nat} {sst : SSTable} {columns : Nat → Bytes} {s : PropertyDeltaStore}
    (h : s.Inv o es live) (hnone : s.disk.ssts fid = none) :
    (s.flush fid sst columns).Inv o es live where
  sound := h.sound.congr rfl fun _ _ => rfl
  manifest := h.manifest
  fit := h.fit
  small := h.small
  next := h.next
  deltas := h.deltas
  base := by
    intro x sst' hsst
    simp only [flush] at hsst ⊢
    by_cases hx : x = fid
    · subst hx
      rw [if_pos rfl, Option.some.injEq] at hsst
      refine ⟨_, if_pos rfl, hsst, fun propertyId => ?_⟩
      have hbase : (s.flush x sst columns).memory.mergedBase (o.target x propertyId) = none :=
        (h.noBase x hnone).2 propertyId
      simp only [flush] at hbase
      rw [hbase, if_pos rfl]
      rfl
    · rw [if_neg hx] at hsst
      simp only [if_neg hx]
      exact h.base x sst' hsst
  noBase := by
    intro x hsst
    simp only [flush] at hsst ⊢
    by_cases hx : x = fid
    · rw [if_pos hx] at hsst
      cases hsst
    · rw [if_neg hx] at hsst
      simp only [if_neg hx]
      exact h.noBase x hsst

theorem created_markSteps (es : List Edit) (fs : List PropertyDeltaFile) :
    (markSteps es fs).filterMap DiskStep.created = [] := by
  induction fs generalizing es with
  | nil => rfl
  | cons f fs ih => exact ih _

/-- A file that was acknowledged stays live or goes into the column. -/
theorem Inv.of_store {s : PropertyDeltaStore} {more more' : List PropertyDeltaFile}
    (hack : ∀ f ∈ t.acknowledged, f ∈ live.of f.metadata.target ∨ f ∈ t.merged)
    {es' : List Edit} {live' : LiveFiles} (hinv : s.Inv o es' live')
    (hlive : ∀ target, ∀ f ∈ live.of target, f ∈ live'.of target ∨ f ∈ more')
    (hmore : ∀ f ∈ more, f ∈ live'.of f.metadata.target) :
    Tracked.Inv o ⟨s, t.acknowledged ++ more, t.merged ++ more'⟩ := by
  refine ⟨es', live', hinv, ?_⟩
  intro f hf
  rcases List.mem_append.mp hf with hf | hf
  · rcases hack f hf with hl | hm
    · exact (hlive _ f hl).imp id (List.mem_append_right _)
    · exact Or.inr (List.mem_append_left _ hm)
  · exact Or.inl (hmore f hf)

/-- A call keeps the invariant. -/
theorem inv_call (h : t.Inv o) (hok : t.Within o (.call c)) (hs : t.step o (.call c) = some t') :
    t'.Inv o := by
  obtain ⟨es, live, hinv, hack⟩ := h
  obtain ⟨hfit, hsmall⟩ := hok
  simp only [step, Option.some.injEq] at hs
  subst hs
  cases c with
  | attach fid propertyId records targetIsPersistent =>
    rcases attach_cases hinv (o.target fid propertyId) records targetIsPersistent with
      ⟨hsteps, hreturned, hkeeps⟩ | ⟨f, flag, memory, ha⟩
    · refine Inv.of_store hack (hinv.keeps_apply hsteps hkeeps) (fun _ f hf => Or.inl hf) ?_
      simp [effect, hreturned]
    · simp only [apply, effect, ha.steps] at hsmall
      refine Inv.of_store hack (inv_attach hinv ha hsmall) ?_ ?_
      · intro target g hg
        rw [LiveFiles.of_append]
        exact Or.inl (List.mem_append_left _ hg)
      · intro g hg
        simp only [effect, ha.returned, ha.steps, Effect.created, DiskStep.created, if_true,
          List.filterMap_cons, List.filterMap_nil, List.mem_singleton] at hg
        subst hg
        exact LiveFiles.mem_of.mpr ⟨⟨flag, by simp⟩, rfl⟩
  | markTargetPersistent fid propertyId =>
    rcases mark_cases hinv (o.target fid propertyId) with
      ⟨hsteps, hkeeps⟩ | ⟨hlog, hsteps, memory, ch, hkeeps, hdeltas, hbase, hmemory⟩
    · refine Inv.of_store hack (hinv.keeps_apply hsteps hkeeps) (fun _ f hf => Or.inl hf) ?_
      simp [effect, hsteps, Effect.created]
    · have hfs : ∀ f ∈ live.of (o.target fid propertyId), ∃ flag, (f, flag) ∈ live :=
        fun f hf => (LiveFiles.mem_of.mp hf).1
      obtain ⟨-, -, -, hof⟩ := LiveFiles.setPersistent_all hinv.sound.rising _ hfs
      simp only [apply, effect, hsteps,
        after_all_markSteps (live.of (o.target fid propertyId)) hinv.sound.manifest] at hsmall
      refine Inv.of_store hack (inv_mark hinv hlog hsteps hkeeps hdeltas hbase hmemory hsmall)
        ?_ ?_
      · intro target f hf
        rw [hof]
        exact Or.inl hf
      · simp [effect, hsteps, Effect.created, created_markSteps]
  | mergeChain fid propertyId mergeAll =>
    have heffect : t.store.effect o (.mergeChain fid propertyId mergeAll) =
        t.store.mergeChain o (o.target fid propertyId) mergeAll := rfl
    have hfit' : removalBytes (t.store.batchNames o (o.target fid propertyId) mergeAll) ≤
        maxPayloadBytes := hfit
    rcases merge_cases hinv (o.target fid propertyId) mergeAll with
      ⟨hsteps, hkeeps⟩ | ⟨hsteps, hkeeps⟩ |
      ⟨data, column, rest, hreplays, ⟨memory, ch, hremoves⟩ | hrefused⟩
    · refine Inv.of_store hack (hinv.keeps_apply hsteps hkeeps) (fun _ f hf => Or.inl hf) ?_
      simp [effect, hsteps, Effect.created]
    · refine Inv.of_store hack (hinv.keeps ?_ (fun _ _ => ?_) ?_ ?_ hkeeps)
        (fun _ f hf => Or.inl hf) ?_
      · simp [apply, effect, hsteps, Disk.after, DiskStep.apply]
      · simp [apply, effect, hsteps, Disk.after, DiskStep.apply]
      · simp [apply, effect, hsteps, Disk.after, DiskStep.apply]
      · simp [apply, effect, hsteps, Disk.after, DiskStep.apply]
      · simp [effect, hsteps, Effect.created, DiskStep.created]
    · have hmanifest : (t.store.apply (t.store.effect o
          (.mergeChain fid propertyId mergeAll))).disk.manifest =
          logOf 1 (es ++ [.remove (t.store.batchNames o (o.target fid propertyId) mergeAll)]) := by
        unfold apply
        rw [heffect, hremoves.steps, after_all_mergeSteps]
      rw [hmanifest] at hsmall
      have hmerged : t.store.mergedBy o (.mergeChain fid propertyId mergeAll)
          (t.store.effect o (.mergeChain fid propertyId mergeAll)).steps.length =
            t.store.batchOf o (o.target fid propertyId) mergeAll := by
        unfold mergedBy
        rw [List.take_length, heffect, hremoves.steps]
        simp [mergeSteps, DiskStep.isRename, batch]
      refine Inv.of_store hack (inv_merge hinv hreplays hremoves hfit' hsmall) ?_ ?_
      · intro target f hf
        rw [hmerged]
        exact mem_after_merge hinv hreplays hf
      · simp [heffect, hremoves.steps, Effect.created, DiskStep.created, mergeSteps]
    · exact absurd (Nat.le_trans hfit' maxPayloadBytes_le) hrefused.not_le

/-- So does a crash inside a call with the recovery after it. -/
theorem inv_restart (h : t.Inv o) (hok : t.Within o (.restart c k levels))
    (hs : t.step o (.restart c k levels) = some t') : t'.Inv o := by
  obtain ⟨es, live, hinv, hack⟩ := h
  obtain ⟨hfit, hsmall, habandoned, hlog⟩ := hok
  rcases recoverable_or_too_large hinv c k hsmall with ⟨-, es', live', hr⟩ | ⟨hnot, -⟩
  swap
  · exact absurd (fun _ hlarge => absurd hfit (Nat.not_le.mpr hlarge)) hnot
  rw [abandonedNames_eq hr.sound hr.fit] at habandoned
  obtain ⟨r, hopen, -, hdeltas, hssts, hinv'⟩ := exists_recovered o levels hr.sound hr.fit hsmall
    (Nat.le_trans habandoned maxPayloadBytes_le)
  have hafter := hinv' habandoned (hlog r hopen)
  simp only [step, hopen, Option.some.injEq] at hs
  subst hs
  refine ⟨_, _, hafter, ?_⟩
  intro f hf
  obtain ⟨hf, hsst⟩ := List.mem_filter.mp hf
  have hcrash : ((t.store.crash (t.store.effect o c) k).ssts
      f.metadata.target.baseFileId).isSome = true := by
    rw [show (t.store.crash (t.store.effect o c) k).ssts = t.store.disk.ssts from
      Disk.ssts_after _ _]
    exact hsst
  rcases hack f hf with hl | hm
  · rcases hr.live _ f hl with hl | hm
    · left
      rw [← hafter.deltas, hdeltas _ hcrash]
      exact hl
    · exact Or.inr (List.mem_append_right _ hm)
  · exact Or.inr (List.mem_append_left _ hm)

theorem inv_step {e : Event} (h : t.Inv o) (hok : t.Within o e) (hs : t.step o e = some t') :
    t'.Inv o := by
  cases e with
  | call c => exact inv_call h hok hs
  | restart c k levels => exact inv_restart h hok hs
  | flush fid sst columns =>
    obtain ⟨es, live, hstore, hack⟩ := h
    simp only [step] at hs
    split at hs
    · cases hs
    · rename_i hnone
      cases hs
      exact ⟨es, live, inv_flush hstore (by simpa using hnone), hack⟩

theorem inv_of_reach (h : Reach (step o) (Within o) initial t) : t.Inv o :=
  h.invariant (inv_initial o) fun _ _ _ => inv_step

/-- After a crash the directory can be opened. What is then read of the edges is what was read
before the call or what is read after it, the same for all of them, and every acknowledged file
whose base is on disk is in its chain or in its column. -/
def Recovers (o : StoreOptions) (t : Tracked) (c : Call) (k : Nat) (levels : Nat → Nat) : Prop :=
  ∃ r, openAndRecover levels (t.store.crash (t.store.effect o c) k) = .ok r ∧
    ((∀ fid propertyId id, r.read o fid propertyId id = t.store.read o fid propertyId id) ∨
      ∀ fid propertyId id, r.read o fid propertyId id =
        (t.store.apply (t.store.effect o c)).read o fid propertyId id) ∧
    ∀ f ∈ t.acknowledged, (t.store.disk.ssts f.metadata.target.baseFileId).isSome →
      f ∈ r.memory.deltas f.metadata.target ∨ f ∈ t.merged ++ t.store.mergedBy o c k

/-- A removal that is too large for the recovery keeps the directory from being opened. -/
theorem error_of_large_removal {s : PropertyDeltaStore} (h : s.Inv o es live) (levels : Nat → Nat)
    (hsmall : (s.crash (s.effect o c) k).manifest.length ≤ logLimit)
    (hnot : ¬ s.RemovalFits o c k) :
    ∃ error, openAndRecover levels (s.crash (s.effect o c) k) = .error error := by
  rcases recoverable_or_too_large h c k hsmall with
    ⟨hfits, -⟩ | ⟨-, es', live', hsound, e, he, hlarge⟩
  · exact absurd hfits hnot
  · rcases openAndRecover_cases levels hsound hsmall with ⟨hfit, -⟩ | ⟨-, herror⟩
    · exact absurd (hfit e he) (Nat.not_le.mpr hlarge)
    · exact herror

/-- Nothing else than a removal that is too large keeps the directory from being opened. -/
theorem recovers_iff (h : t.Inv o) (c : Call) (k : Nat) (levels : Nat → Nat)
    (hsmall : (t.store.crash (t.store.effect o c) k).manifest.length ≤ logLimit) :
    t.Recovers o c k levels ↔ t.store.RemovalFits o c k ∧
      removalBytes (t.store.crash (t.store.effect o c) k).abandonedNames ≤ maxUInt32 := by
  obtain ⟨es, live, hinv, hack⟩ := h
  rcases recoverable_or_too_large hinv c k hsmall with ⟨hfits, es', live', hr⟩ | ⟨hnot, -⟩
  · rw [and_iff_right hfits, abandonedNames_eq hr.sound hr.fit]
    constructor
    · rintro ⟨r, hopen, -⟩
      rcases openAndRecover_cases levels hr.sound hsmall with ⟨-, hle, -⟩ | ⟨-, error, herror⟩
      · exact hle
      · rw [hopen] at herror
        cases herror
    · intro hle
      obtain ⟨r, hopen, hread, hdeltas, -, -⟩ :=
        exists_recovered o levels hr.sound hr.fit hsmall hle
      refine ⟨r, hopen, ?_, ?_⟩
      · refine hr.read.imp ?_ ?_
        · intro hbefore fid propertyId id
          rw [hread, hbefore]
        · intro hafter fid propertyId id
          rw [hread, hafter]
      · intro f hf hsst
        have hcrash : ((t.store.crash (t.store.effect o c) k).ssts
            f.metadata.target.baseFileId).isSome = true := by
          rw [show (t.store.crash (t.store.effect o c) k).ssts = t.store.disk.ssts from
            Disk.ssts_after _ _]
          exact hsst
        rw [hdeltas _ hcrash]
        rcases hack f hf with hl | hm
        · exact (hr.live _ f hl).imp id (List.mem_append_right _)
        · exact Or.inr (List.mem_append_left _ hm)
  · refine iff_of_false ?_ fun hboth => hnot hboth.1
    rintro ⟨r, hopen, -⟩
    obtain ⟨error, herror⟩ := error_of_large_removal hinv levels hsmall hnot
    rw [hopen] at herror
    cases herror

/-- A store that has not yet written a removal that is too large survives a crash inside any of
its calls, at any step, exactly if the call and the recovery do not write one either. -/
theorem crash_is_survived_iff (o : StoreOptions) (t : Tracked)
    (h : Reach (step o) (Within o) initial t) (c : Call) (k : Nat) (levels : Nat → Nat)
    (hsmall : (t.store.crash (t.store.effect o c) k).manifest.length ≤ logLimit) :
    t.Recovers o c k levels ↔ t.store.RemovalFits o c k ∧
      removalBytes (t.store.crash (t.store.effect o c) k).abandonedNames ≤ maxUInt32 :=
  recovers_iff (inv_of_reach h) c k levels hsmall

def exampleOptions : StoreOptions := ⟨exampleLayout, 1, Nat.one_pos⟩

/-- A merge of one file that dies when the column is in place and the removal is not. -/
theorem a_merge_without_its_removal_is_survived :
    ∃ t, Reach (step exampleOptions) (Within exampleOptions) initial t ∧
      t.acknowledged ≠ [] ∧ t.Recovers exampleOptions (.mergeChain 2 0 true) 2 fun _ => 0 := by
  have hreach : Reach (step exampleOptions) (Within exampleOptions) initial _ :=
    (Reach.start.step (a := .flush 2 exampleSst fun _ => [1, 0, 2, 0, 3, 0]) trivial rfl).step
      (a := .call (.attach 2 0 [exampleUpdate 5 9 [8]] true))
      ⟨by decide +kernel, by decide +kernel⟩ rfl
  refine ⟨_, hreach, ?_, (crash_is_survived_iff exampleOptions _ hreach _ _ _ ?_).mpr ⟨?_, ?_⟩⟩
  · decide +kernel
  · decide +kernel
  · intro happend
    exact absurd happend (by decide +kernel)
  · decide +kernel

/-! ## A removal that is too large -/

/-- A store with `n` files in the chain of one target, each an update of the same edge. -/
structure Grown (s : PropertyDeltaStore) (n : Nat) : Prop where
  inv : ∃ es live, s.Inv exampleOptions es live
  next : s.memory.nextFileGeneration = n + 1
  persistent : ∀ c, s.memory.chains exampleTarget = some c → c.targetIsPersistent = true
  length : (s.memory.deltas exampleTarget).length = n
  records : ∀ r ∈ chainRecords (s.memory.deltas exampleTarget), r = exampleUpdate 5 9 [8]
  loaded : s.memory.sstData 2 =
    some (FileOrigin.flushed.data exampleSst fun _ => [1, 0, 2, 0, 3, 0])
  base : s.memory.mergedBase exampleTarget = none
  ssts : s.disk.ssts 2 = some exampleSst
  mergeFiles : s.disk.mergeFiles = []
  manifest : s.disk.manifest.length ≤ n * (headerBytes + 167)

/-- The call that makes one more of them. -/
def exampleAttach : Call := .attach 2 0 [exampleUpdate 5 9 [8]] true

theorem create_of_lt {generation : Nat} (h : generation < 256 ^ 8) :
    ∃ f, PropertyDeltaFile.create exampleTarget generation [exampleUpdate 5 9 [8]] = some f ∧
      f.records = [exampleUpdate 5 9 [8]] := by
  have hkept : deduplicated ([exampleUpdate 5 9 [8]].insertionSort PropertyDeltaRecord.le) =
      [exampleUpdate 5 9 [8]] := rfl
  have hfits : FitsHeader exampleTarget generation
      (deduplicated ([exampleUpdate 5 9 [8]].insertionSort PropertyDeltaRecord.le)) := by
    rw [hkept]
    exact ⟨by decide, h, by decide, by decide, by decide, by decide⟩
  unfold PropertyDeltaFile.create
  rw [dif_neg (by simp), if_neg (by decide)]
  simp only
  rw [if_neg (by rw [hkept]; decide), dif_pos hfits]
  exact ⟨_, rfl, hkept⟩

theorem grown_zero :
    Grown (initial.store.flush 2 exampleSst fun _ => [1, 0, 2, 0, 3, 0]) 0 := by
  obtain ⟨es, live, hinv, -⟩ := inv_initial exampleOptions
  refine ⟨⟨es, live, inv_flush hinv rfl⟩, rfl, ?_, rfl, ?_, rfl, rfl, rfl, rfl, Nat.le_refl 0⟩
  · simp [initial, flush]
  · simp [initial, flush, StoreMemory.deltas, chainRecords]

section

variable {s : PropertyDeltaStore} {n : Nat}

theorem Grown.succ (h : Grown s n) (hn : n < 2 ^ 26) :
    (s.effect exampleOptions exampleAttach).returned = true ∧
      (s.apply (s.effect exampleOptions exampleAttach)).disk.manifest.length ≤ logLimit ∧
      Grown (s.apply (s.effect exampleOptions exampleAttach)) (n + 1) := by
  obtain ⟨es, live, hinv⟩ := h.inv
  have hgeneration : s.memory.nextFileGeneration < 256 ^ 8 := by
    rw [h.next]
    exact Nat.lt_trans (Nat.succ_lt_succ hn) (by decide)
  obtain ⟨f, hf, hrecords⟩ := create_of_lt hgeneration
  obtain ⟨flag, memory, ha⟩ := attach_of_create hinv true hf
  have hsize : (logOf 1 (es ++ [.add (entryOf (f, flag))])).length ≤
      (n + 1) * (headerBytes + 167) := by
    have hrecord := length_payload_add_le (f, flag)
    have hold := h.manifest
    rw [hinv.sound.manifest] at hold
    rw [logOf_append, List.length_append, Nat.succ_mul]
    simp only [logOf, List.append_nil, length_record_eq]
    omega
  have hsmall : (logOf 1 (es ++ [.add (entryOf (f, flag))])).length ≤ logLimit := by
    refine Nat.le_trans hsize (Nat.le_trans (Nat.mul_le_mul_right _ hn) ?_)
    decide
  obtain ⟨hdeltas, hbase⟩ := s.memory.getOrCreateChain_readView exampleTarget true
  have hstore : s.apply (s.effect exampleOptions exampleAttach) =
      ⟨s.disk.after [.createDelta f.fileName f,
          .writeManifest (logOf 1 (es ++ [.add (entryOf (f, flag))]))],
        (memory.setManifest (ofEdits (es ++ [.add (entryOf (f, flag))]))).setChain exampleTarget
          ((s.memory.getOrCreateChain exampleTarget true).attach f)⟩ := by
    rw [← ha.memory, ← ha.steps]
    rfl
  refine ⟨ha.returned, by rw [hstore]; exact hsmall, ⟨_, _, inv_attach hinv ha hsmall⟩, ?_, ?_, ?_,
    ?_, ?_, ?_, ?_, ?_, ?_⟩ <;> rw [hstore]
  · exact ha.next.trans (by rw [h.next])
  · intro c hc
    simp only [StoreMemory.setChain, if_true, Option.some.injEq] at hc
    rw [← hc]
    rfl
  · simp [Chain.attach, hdeltas, h.length]
  · intro r hr
    simp only [StoreMemory.deltas_setChain, if_true, Chain.attach, hdeltas, chainRecords_append,
      List.mem_append] at hr
    rcases hr with hr | hr
    · exact h.records r hr
    · simpa [chainRecords, hrecords] using hr
  · exact (congrFun ha.keeps.sstData 2).trans h.loaded
  · simp [Chain.attach, hbase, h.base]
  · exact h.ssts
  · exact h.mergeFiles
  · exact hsize

theorem exists_grown (hn : n ≤ 2 ^ 26) :
    ∃ t, Reach (step exampleOptions) (Within exampleOptions) initial t ∧ Grown t.store n := by
  induction n with
  | zero =>
    exact ⟨_, Reach.start.step (a := .flush 2 exampleSst fun _ => [1, 0, 2, 0, 3, 0]) trivial rfl,
      grown_zero⟩
  | succ n ih =>
    obtain ⟨t, hreach, ht⟩ := ih (Nat.le_of_succ_le hn)
    obtain ⟨-, hsmall, hgrown⟩ := ht.succ hn
    exact ⟨_, hreach.step (a := .call exampleAttach)
      ⟨show removalBytes [] ≤ maxPayloadBytes by decide, hsmall⟩ rfl, hgrown⟩

/-- The names in the chain of such a store. -/
theorem Grown.length_fileName (h : Grown s n) (hn : n ≤ 2 ^ 26)
    {f : PropertyDeltaFile} (hf : f ∈ s.memory.deltas exampleTarget) :
    26 ≤ f.fileName.length ∧ f.fileName.length ≤ 33 := by
  obtain ⟨es, live, hinv⟩ := h.inv
  rw [hinv.deltas] at hf
  obtain ⟨⟨flag, hmem⟩, htarget⟩ := LiveFiles.mem_of.mp hf
  have hgeneration := hinv.next _ hmem
  rw [h.next] at hgeneration
  have hle := length_decimal_le 8 (by decide)
    (show f.metadata.fileGeneration < 10 ^ 8 from
      Nat.lt_of_lt_of_le hgeneration (Nat.le_trans (Nat.succ_le_succ hn) (by decide)))
  have hpos := length_decimal_pos f.metadata.fileGeneration
  have hstart : (bytes "delta-" ++ kindLetter exampleTarget.kind ++ bytes "-s" ++
      decimal exampleTarget.shardId ++ bytes "-f" ++ decimal exampleTarget.baseFileId ++
      bytes "-b" ++ decimal exampleTarget.baseGeneration ++ bytes "-p" ++
      decimal exampleTarget.propertyId ++ bytes "-g").length = 21 := by decide
  have hend : (bytes ".rgd").length = 4 := by decide
  unfold PropertyDeltaFile.fileName deltaFileName
  rw [htarget, List.length_append, List.length_append, hstart, hend]
  omega

/-- The removal of the whole chain is larger than the recovery accepts, but not too large to be
written. -/
theorem Grown.removal (h : Grown s (2 ^ 26)) :
    maxPayloadBytes < removalBytes ((s.memory.deltas exampleTarget).map (·.fileName)) ∧
      removalBytes ((s.memory.deltas exampleTarget).map (·.fileName)) ≤ maxUInt32 := by
  have hbounds : ∀ fs : List PropertyDeltaFile,
      (∀ f ∈ fs, 26 ≤ f.fileName.length ∧ f.fileName.length ≤ 33) →
      fs.length * 30 ≤ ((fs.map (·.fileName)).map fun name => 4 + name.length).sum ∧
        ((fs.map (·.fileName)).map fun name => 4 + name.length).sum ≤ fs.length * 37 := by
    intro fs hfs
    induction fs with
    | nil => simp
    | cons f fs ih =>
      obtain ⟨hlow, hhigh⟩ := ih fun g hg => hfs g (List.mem_cons_of_mem _ hg)
      have := hfs f List.mem_cons_self
      simp only [List.map_cons, List.sum_cons, List.length_cons]
      omega
  obtain ⟨hlow, hhigh⟩ := hbounds _ fun f hf => h.length_fileName (Nat.le_refl _) hf
  have hmax : maxPayloadBytes = 2 ^ 30 ∧ maxUInt32 = 2 ^ 32 - 1 := by decide
  rw [h.length] at hlow hhigh
  rw [removalBytes_eq, hmax.1, hmax.2]
  omega

/-- A merge of the whole chain goes through. -/
theorem Grown.merge (h : Grown s n) (hn : n ≠ 0) :
    s.batchOf exampleOptions exampleTarget true = s.memory.deltas exampleTarget ∧
    ∃ column, mergePropertyDeltaColumn exampleLayout (s.memory.sstData 2) exampleTarget
      (s.memory.mergedBase exampleTarget)
      (s.batchOf exampleOptions exampleTarget true) = .ok column := by
  have hne : s.memory.deltas exampleTarget ≠ [] := by
    intro hnil
    have hlength := h.length
    rw [hnil] at hlength
    exact hn hlength.symm
  have hbatch : s.batchOf exampleOptions exampleTarget true =
      s.memory.deltas exampleTarget := by
    unfold batchOf StoreMemory.deltas at *
    cases hchain : s.memory.chains exampleTarget with
    | none => rfl
    | some c =>
      rw [hchain] at hne
      have hdeltas : c.readView.deltas ≠ [] := hne
      simp [Chain.batch, h.persistent c hchain, hdeltas]
  refine ⟨hbatch, ?_⟩
  rw [hbatch, h.loaded, h.base, mergePropertyDeltaColumn_of_request hne rfl rfl (by decide)
    (by decide), mergeRecords_ok_iff]
  intro r hr
  rw [h.records r hr]
  exact ⟨0, by decide, by decide⟩

/-- It replaces the column and writes the removal. -/
theorem Grown.removes (h : Grown s (2 ^ 26)) : ∃ es live column, s.Inv exampleOptions es live ∧
    s.batchOf exampleOptions exampleTarget true ≠ [] ∧
    mergePropertyDeltaColumn exampleLayout (s.memory.sstData 2) exampleTarget
      (s.memory.mergedBase exampleTarget) (s.batchOf exampleOptions exampleTarget true) =
        .ok column ∧
    (s.effect exampleOptions (.mergeChain 2 0 true)).steps =
      mergeSteps (s.temporaryOf exampleTarget) column
        (logOf 1 (es ++ [.remove (s.batchNames exampleOptions exampleTarget true)]))
        (s.batchNames exampleOptions exampleTarget true) := by
  obtain ⟨es, live, hinv⟩ := h.inv
  obtain ⟨hbatch, column, hcolumn⟩ := h.merge (by decide)
  have hne : s.batchOf exampleOptions exampleTarget true ≠ [] := by
    intro hnil
    have hlength := h.length
    rw [← hbatch, hnil] at hlength
    cases hlength
  have hnew : s.temporaryOf exampleTarget ∉ s.disk.mergeFiles := by
    simp [h.mergeFiles]
  obtain ⟨data, rest, -, ⟨memory, ch, hremoves⟩ | hrefused⟩ :=
    merge_of_column hinv hne hcolumn hnew
  · exact ⟨es, live, column, hinv, hne, hcolumn, hremoves.steps⟩
  · have hhigh := h.removal.2
    rw [← hbatch] at hhigh
    exact absurd hhigh hrefused.not_le

/-- Once the removal of the whole chain is written, the directory is not opened any more. -/
theorem Grown.not_opened (h : Grown s (2 ^ 26)) {k : Nat} (hk : 3 ≤ k) :
    (s.crash (s.effect exampleOptions (.mergeChain 2 0 true)) k).manifest.length ≤
        logLimit ∧
      ∀ levels, ∃ error, openAndRecover levels
        (s.crash (s.effect exampleOptions (.mergeChain 2 0 true)) k) =
          .error error := by
  obtain ⟨es, live, column, hinv, -, -, hsteps⟩ := h.removes
  obtain ⟨hlow, hhigh⟩ := h.removal
  rw [← (h.merge (by decide)).1] at hlow hhigh
  obtain ⟨m, rfl⟩ := Nat.exists_eq_add_of_le' hk
  have hsmall : (s.crash (s.effect exampleOptions (.mergeChain 2 0 true))
      (m + 3)).manifest.length ≤ logLimit := by
    unfold crash
    rw [hsteps, after_mergeSteps]
    have hold := h.manifest
    rw [hinv.sound.manifest] at hold
    have hrecord : (logOf 1 (es ++
        [.remove (s.batchNames exampleOptions exampleTarget true)])).length ≤
        2 ^ 26 * (headerBytes + 167) + (headerBytes + maxUInt32) := by
      rw [logOf_append, List.length_append]
      simp only [logOf, List.append_nil, length_record_eq]
      exact Nat.add_le_add hold (Nat.add_le_add_left hhigh _)
    exact Nat.le_trans hrecord (by decide)
  refine ⟨hsmall, fun levels => error_of_large_removal hinv levels hsmall fun hfits => ?_⟩
  have hlarge := hfits (by rw [hsteps]; rfl) hlow
  exact absurd hhigh (Nat.not_le.mpr hlarge)

end

/-- The whole chain is merged, and the process dies after the removal was written. -/
theorem a_large_removal_is_not_survived :
    ∃ t, Reach (step exampleOptions) (Within exampleOptions) initial t ∧
      ∃ c k, (t.store.crash (t.store.effect exampleOptions c) k).manifest.length ≤ logLimit ∧
        ∀ levels, ¬ t.Recovers exampleOptions c k levels := by
  obtain ⟨t, hreach, h⟩ := exists_grown (Nat.le_refl (2 ^ 26))
  obtain ⟨hsmall, herror⟩ := h.not_opened (Nat.le_refl 3)
  refine ⟨t, hreach, .mergeChain 2 0 true, 3, hsmall, ?_⟩
  rintro levels ⟨r, hopen, -⟩
  obtain ⟨error, heq⟩ := herror levels
  rw [hopen] at heq
  cases heq

end Tracked

end PropertyDeltaStore

end RichGraph
