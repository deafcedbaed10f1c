-- Attaches whose write to the manifest fails. The file of such an attach is
-- unlinked, but the log keeps what was written of its record: a part of it is cut
-- off by the recovery, the whole of it names a file that is not there.
import RichGraph.DeltaStoreRuns

namespace RichGraph

open Lib Manifest

namespace PropertyDeltaStore

variable {o : StoreOptions} {s : PropertyDeltaStore} {es : List Edit} {live : LiveFiles}

/-! ## An attach that fails -/

theorem append_fails {e : Edit} (hne : e ≠ .remove []) (hacc : e.Accepted)
    (hlen : e.payload.length ≤ maxUInt32) (written : Nat) (m : PropertyDeltaManifest) :
    append e (.fails written) m =
      ({ m with file := m.file ++ (e.record m.nextEditSequence).take written }, false) := by
  have hrecord : appendRecord e.type e.payload (.fails written) m =
      ({ m with file := m.file ++ (e.record m.nextEditSequence).take written }, false) := by
    simp only [appendRecord, if_neg (Nat.not_lt.mpr hlen), writeAll]
    rfl
  rw [append_eq hne hacc, hrecord]

/-- An attach that fails makes no file, or it makes one, writes a part of its record and unlinks
it. -/
theorem attach_fails_cases (h : s.Inv o es live) (target : PropertyDeltaTarget)
    (records : List PropertyDeltaRecord) (targetIsPersistent : Bool) (written : Nat) :
    (s.attach target records targetIsPersistent (.fails written)).returned = false ∧
    Keeps s.memory (s.attach target records targetIsPersistent (.fails written)).memory ∧
    ((s.attach target records targetIsPersistent (.fails written)).steps = [] ∨
      ∃ f flag, f.metadata.target = target ∧
        f.metadata.fileGeneration = s.memory.nextFileGeneration ∧
        (s.attach target records targetIsPersistent (.fails written)).steps =
          [.createDelta f.fileName f,
            .writeManifest (logOf 1 es ++
              ((Edit.add (entryOf (f, flag))).record (es.length + 1)).take written),
            .unlinkDelta f.fileName]) := by
  have hkeeps := keeps_getOrCreateChain s.memory target targetIsPersistent
  unfold attach
  split
  · exact ⟨rfl, Keeps.refl _, Or.inl rfl⟩
  · simp only
    split
    · exact ⟨rfl, hkeeps, Or.inl rfl⟩
    · rename_i f hf
      obtain ⟨htarget, hgeneration, -⟩ := PropertyDeltaFile.of_create hf
      rw [← fileName_of_create hf, ← entryOf_mk, h.manifest, append_fails (by simp) (accepted_add _)
        (Nat.le_trans (length_payload_add_le _) (by decide))]
      refine ⟨rfl, ?_, Or.inr ⟨f, _, htarget, hgeneration, rfl⟩⟩
      have hsequence : s.memory.nextEditSequence = (ofEdits es).nextEditSequence :=
        congrArg PropertyDeltaManifest.nextEditSequence h.manifest
      have hactive : s.memory.activeEntries = (ofEdits es).activeEntries :=
        congrArg PropertyDeltaManifest.activeEntries h.manifest
      exact
        { manifest := ⟨hsequence.symm, hactive.symm⟩
          next := hkeeps.next
          deltas := hkeeps.deltas
          mergedBase := hkeeps.mergedBase
          sstData := hkeeps.sstData }

/-! ## A torn record at the end of the log -/

/-- The recovery of a disk depends on its log only by what the manifest makes of it. -/
theorem openAndRecover_of_manifest (levels : Nat → Nat) (d : Disk) {file : Bytes}
    (h : Manifest.openAndRecover file = Manifest.openAndRecover d.manifest) :
    openAndRecover levels { d with manifest := file } = openAndRecover levels d := by
  have hloop : ∀ (entries : List PropertyDeltaManifestEntry) (r : Recovery),
      recoverEntries { d with manifest := file } r entries = recoverEntries d r entries := by
    intro entries
    induction entries with
    | nil => exact fun r => rfl
    | cons entry entries ih =>
      intro r
      have hentry : recoverEntry { d with manifest := file } r entry = recoverEntry d r entry := rfl
      simp only [recoverEntries, hentry]
      split
      · rfl
      · exact ih _
  unfold openAndRecover
  simp only [h, hloop]
  rfl

/-- The files of a log with a torn record after it. -/
structure Torn (s : PropertyDeltaStore) (es : List Edit) (live : LiveFiles) : Prop where
  sound : Sound { s.disk with manifest := logOf 1 es } es live
  fit : ∀ e ∈ es, e.payload.length ≤ maxPayloadBytes
  small : (logOf 1 es).length ≤ logLimit
  file : Manifest.openAndRecover s.disk.manifest = .ok (ofEdits es)

theorem Torn.of_inv (h : s.Inv o es live) : s.Torn es live where
  sound := h.sound.congr h.sound.manifest.symm fun _ _ => rfl
  fit := h.fit
  small := h.sound.manifest ▸ h.small
  file := by
    have hlen := h.sound.logged.length_lt
    rw [h.sound.manifest]
    exact openAndRecover_logOf (h.sound.logged.readable h.fit) (by omega)

theorem Torn.openAndRecover_eq (h : s.Torn es live) (levels : Nat → Nat) :
    openAndRecover levels s.disk =
      openAndRecover levels { s.disk with manifest := logOf 1 es } := by
  have hlen := h.sound.logged.length_lt
  refine (openAndRecover_of_manifest levels s.disk ?_).symm
  rw [h.file]
  exact openAndRecover_logOf (h.sound.logged.readable h.fit) (by omega)

theorem Torn.abandonedNames (h : s.Torn es live) :
    s.disk.abandonedNames = Disk.abandoned { s.disk with manifest := logOf 1 es } live := by
  rw [← abandonedNames_eq h.sound h.fit]
  have hlen := h.sound.logged.length_lt
  unfold Disk.abandonedNames
  rw [h.file, openAndRecover_logOf (h.sound.logged.readable h.fit) (by omega)]

/-- The files are unlinked again that a failed attach has made. -/
theorem Torn.of_failed (h : s.Inv o es live) {f : PropertyDeltaFile} {flag : Bool} {written : Nat}
    {memory : StoreMemory} (hgeneration : f.metadata.fileGeneration = s.memory.nextFileGeneration)
    (hwritten : written < ((Edit.add (entryOf (f, flag))).record (es.length + 1)).length) :
    Torn ⟨s.disk.after [.createDelta f.fileName f,
      .writeManifest (logOf 1 es ++
        ((Edit.add (entryOf (f, flag))).record (es.length + 1)).take written),
      .unlinkDelta f.fileName], memory⟩ es live where
  sound := by
    refine h.sound.congr h.sound.manifest.symm ?_
    intro p hp
    have hne : p.1.fileName ≠ f.fileName := by
      intro hname
      have := h.next p hp
      rw [← hgeneration, deltaFileName_generation hname] at this
      exact absurd this (Nat.lt_irrefl _)
    simp [Disk.after, DiskStep.apply, hne]
  fit := h.fit
  small := h.sound.manifest ▸ h.small
  file := openAndRecover_append_torn h.sound.logged h.fit
    (Nat.le_trans (length_payload_add_le (f, flag)) (by decide)) hwritten rfl

/-! ## Runs of attaches -/

structure Attempt where
  fid : Nat
  propertyId : Nat
  records : List PropertyDeltaRecord
  targetIsPersistent : Bool
  outcome : WriteOutcome

/-- A store with the files that its attaches have acknowledged, each with the flag of its chain. -/
structure AttachRun where
  store : PropertyDeltaStore
  acknowledged : LiveFiles
  -- The bytes in the log that are from attaches that failed.
  left : Nat

namespace AttachRun

def step (o : StoreOptions) (s : AttachRun) (a : Attempt) : Option AttachRun :=
  let target := o.target a.fid a.propertyId
  let e := s.store.attach target a.records a.targetIsPersistent a.outcome
  let flag := (s.store.memory.getOrCreateChain target a.targetIsPersistent).targetIsPersistent
  if e.returned then
    some ⟨s.store.apply e, s.acknowledged ++ (Effect.created e).map fun f => (f, flag), s.left⟩
  else
    some ⟨s.store.apply e, s.acknowledged,
      s.left + ((s.store.apply e).disk.manifest.length - s.store.disk.manifest.length)⟩

/-- The size of the record of the next file. -/
def recordBytes (o : StoreOptions) (s : AttachRun) (a : Attempt) : Nat :=
  headerBytes + addPayloadBytes +
    (deltaFileName (o.target a.fid a.propertyId) s.store.memory.nextFileGeneration).length

/-- The write does not fail when all of the record is there. -/
def FailsBefore (size : Nat) : WriteOutcome → Prop
  | .succeeds => True
  | .fails written => written < size

instance (size : Nat) : (outcome : WriteOutcome) → Decidable (FailsBefore size outcome)
  | .succeeds => isTrue trivial
  | .fails written => inferInstanceAs (Decidable (written < size))

/-- Nothing of a failed attach is in the log, which has room for a record, and the attach does not
fail when all of its record is written. -/
def Clean (o : StoreOptions) (s : AttachRun) (a : Attempt) : Prop :=
  s.left = 0 ∧ s.store.disk.manifest.length + (headerBytes + 167) ≤ logLimit ∧
    FailsBefore (s.recordBytes o a) a.outcome

instance (o : StoreOptions) (s : AttachRun) (a : Attempt) : Decidable (s.Clean o a) :=
  inferInstanceAs (Decidable (_ ∧ _ ∧ _))

/-- The acknowledged files are live, and the log ends with a record unless a failed attach has
left something. -/
structure Inv (o : StoreOptions) (s : AttachRun) (es : List Edit) (live : LiveFiles) : Prop where
  acknowledged : ∀ p ∈ s.acknowledged, p ∈ live
  torn : s.store.Torn es live
  clean : s.left = 0 → s.store.Inv o es live

variable {s s' : AttachRun} {a : Attempt}

theorem inv_step (h : s.Inv o es live) (hok : s.Clean o a) (hs : s.step o a = some s') :
    ∃ es' live', s'.Inv o es' live' := by
  obtain ⟨hleft, hroom, hpartial⟩ := hok
  have hinv := h.clean hleft
  rcases a with ⟨fid, propertyId, records, targetIsPersistent, outcome⟩
  cases outcome with
  | succeeds =>
    rcases attach_cases hinv (o.target fid propertyId) records targetIsPersistent with
      ⟨hsteps, hreturned, hkeeps⟩ | ⟨f, flag, memory, ha⟩
    · simp only [step, hreturned, Bool.false_eq_true, if_false, Option.some.injEq] at hs
      subst hs
      have hinv' := hinv.keeps_apply hsteps hkeeps
      exact ⟨es, live, h.acknowledged, Torn.of_inv hinv', fun _ => hinv'⟩
    · simp only [step, ha.returned, if_true, Option.some.injEq] at hs
      subst hs
      have hsmall : (logOf 1 (es ++ [.add (entryOf (f, flag))])).length ≤ logLimit := by
        have hrecord := length_payload_add_le (f, flag)
        rw [hinv.sound.manifest] at hroom
        rw [logOf_append, List.length_append]
        simp only [logOf, List.append_nil, length_record_eq]
        omega
      have hinv' := inv_attach hinv ha hsmall
      refine ⟨_, _, ?_, Torn.of_inv hinv', fun _ => hinv'⟩
      intro p hp
      rcases List.mem_append.mp hp with hp | hp
      · exact List.mem_append_left _ (h.acknowledged p hp)
      · simp [Effect.created, ha.steps, DiskStep.created] at hp
        subst hp
        rw [ha.flag_eq]
        exact List.mem_append_right _ (List.mem_singleton.mpr rfl)
  | fails written =>
    obtain ⟨hreturned, hkeeps, hsteps⟩ :=
      attach_fails_cases hinv (o.target fid propertyId) records targetIsPersistent written
    simp only [step, hreturned, Bool.false_eq_true, if_false, Option.some.injEq] at hs
    subst hs
    rcases hsteps with hsteps | ⟨f, flag, htarget, hgeneration, hsteps⟩
    · have hinv' := hinv.keeps_apply hsteps hkeeps
      exact ⟨es, live, h.acknowledged, Torn.of_inv hinv', fun _ => hinv'⟩
    · have hwritten : written <
          ((Edit.add (entryOf (f, flag))).record (es.length + 1)).length := by
        have hname : (entryOf (f, flag)).fileName =
            deltaFileName (o.target fid propertyId) s.store.memory.nextFileGeneration := by
          rw [← htarget, ← hgeneration]
          rfl
        rw [length_record_eq]
        simp only [Edit.payload, length_encodeAdd, hname]
        rw [← Nat.add_assoc]
        exact hpartial
      have htorn : Torn (s.store.apply (s.store.attach (o.target fid propertyId) records
          targetIsPersistent (.fails written))) es live := by
        unfold apply
        rw [hsteps]
        exact Torn.of_failed hinv hgeneration hwritten
      refine ⟨es, live, h.acknowledged, htorn, ?_⟩
      intro hnone
      -- Nothing was written, so that the log is as before.
      have hmanifest : (s.store.apply (s.store.attach (o.target fid propertyId) records
          targetIsPersistent (.fails written))).disk.manifest = logOf 1 es := by
        have hfile : (s.store.apply (s.store.attach (o.target fid propertyId) records
            targetIsPersistent (.fails written))).disk.manifest = logOf 1 es ++
              ((Edit.add (entryOf (f, flag))).record (es.length + 1)).take written := by
          simp only [apply, hsteps, Disk.after, List.foldl_cons, List.foldl_nil]
          rfl
        have hlength := hnone
        rw [hleft, Nat.zero_add] at hlength
        simp only at hlength
        rw [hfile, hinv.sound.manifest, List.length_append] at hlength
        have hnil : ((Edit.add (entryOf (f, flag))).record (es.length + 1)).take written = [] := by
          apply List.length_eq_zero_iff.mp
          omega
        rw [hfile, hnil, List.append_nil]
      refine hinv.keeps ?_ (fun p hp => ?_) ?_ ?_ hkeeps
      · rw [hmanifest, hinv.sound.manifest]
      · exact (htorn.sound.files p hp).trans (hinv.sound.files p hp).symm
      · exact Disk.ssts_after _ _
      · simp only [apply, hsteps, Disk.after, List.foldl_cons, List.foldl_nil]
        rfl

theorem inv_of_reach {t : Tracked}
    (ht : Reach (Tracked.step o) (Tracked.Within o) Tracked.initial t)
    (h : Reach (step o) (Clean o) ⟨t.store, [], 0⟩ s) : ∃ es live, s.Inv o es live := by
  obtain ⟨es, live, hinv, -⟩ := Tracked.inv_of_reach ht
  induction h with
  | start => exact ⟨es, live, by simp, Torn.of_inv hinv, fun _ => hinv⟩
  | step _ hok hstep ih =>
    obtain ⟨es, live, hs⟩ := ih
    exact inv_step hs hok hstep

/-- The directory can be opened, and every acknowledged file whose chain was marked persistent, or
whose base is on disk, is in its chain. -/
def Reopens (s : AttachRun) (levels : Nat → Nat) : Prop :=
  ∃ r, openAndRecover levels s.store.disk = .ok r ∧
    ∀ p ∈ s.acknowledged,
      p.2 = true ∨ (s.store.disk.ssts p.1.metadata.target.baseFileId).isSome →
        p.1 ∈ r.memory.deltas p.1.metadata.target

/-- As long as every attach is made at the end of a record, and none of them fails when all of its
record is written, the store can be opened again with the files that were acknowledged, exactly if
the names that the recovery abandons fit into one removal. -/
theorem acknowledged_files_are_recovered_iff (o : StoreOptions) (t : Tracked)
    (ht : Reach (Tracked.step o) (Tracked.Within o) Tracked.initial t) (s : AttachRun)
    (h : Reach (step o) (Clean o) ⟨t.store, [], 0⟩ s) (levels : Nat → Nat) :
    s.Reopens levels ↔ removalBytes s.store.disk.abandonedNames ≤ maxUInt32 := by
  obtain ⟨es, live, hinv⟩ := inv_of_reach ht h
  have htorn := hinv.torn
  unfold Reopens
  rw [htorn.abandonedNames, htorn.openAndRecover_eq levels]
  rcases openAndRecover_cases levels htorn.sound htorn.small with
    ⟨-, hle, r, hr, hopen⟩ | ⟨hnot, error, hopen⟩
  · refine iff_of_true ⟨_, hopen, ?_⟩ hle
    intro p hp hpersistent
    have hkept : p.1 ∈ (Disk.kept { s.store.disk with manifest := logOf 1 es } live).of
        p.1.metadata.target := by
      refine LiveFiles.mem_of.mpr ⟨⟨p.2, List.mem_filter.mpr ⟨hinv.acknowledged p hp, ?_⟩⟩, rfl⟩
      rcases hpersistent with hflag | hsst
      · simp [Disk.loses, hflag]
      · simp [Disk.loses, hsst]
    rw [← hr.deltas] at hkept
    exact hkept
  · refine iff_of_false ?_ fun hle => hnot ⟨htorn.fit, hle⟩
    rintro ⟨r, hr, -⟩
    rw [hopen] at hr
    cases hr

/-- Two attaches to a file on disk, of which the second fails with ten bytes written. -/
theorem an_attach_survives_a_torn_one :
    ∃ t, Reach (Tracked.step Tracked.exampleOptions) (Tracked.Within Tracked.exampleOptions)
        Tracked.initial t ∧
      ∃ s, Reach (step Tracked.exampleOptions) (Clean Tracked.exampleOptions) ⟨t.store, [], 0⟩ s ∧
        (s.acknowledged.length = 1 ∧ s.left = 10) ∧ s.Reopens fun _ => 0 := by
  have ht : Reach (Tracked.step Tracked.exampleOptions) (Tracked.Within Tracked.exampleOptions)
      Tracked.initial _ :=
    Reach.start.step (a := .flush 2 exampleSst fun _ => [1, 0, 2, 0, 3, 0]) trivial rfl
  obtain ⟨s, hs, ⟨hack, hleft⟩, hle⟩ := exists_reach_of_run (step Tracked.exampleOptions)
    (Clean Tracked.exampleOptions)
    ⟨Tracked.initial.store.flush 2 exampleSst fun _ => [1, 0, 2, 0, 3, 0], [], 0⟩
    [⟨2, 0, [exampleUpdate 5 9 [8]], true, .succeeds⟩,
      ⟨2, 0, [exampleUpdate 6 8 [4]], true, .fails 10⟩]
    (fun s => (s.acknowledged.length = 1 ∧ s.left = 10) ∧
      removalBytes s.store.disk.abandonedNames ≤ maxUInt32) (by decide +kernel)
  exact ⟨_, ht, s, hs, ⟨hack, hleft⟩,
    (acknowledged_files_are_recovered_iff Tracked.exampleOptions _ ht s hs _).mpr hle⟩

/-- An attach is acknowledged, and the next one fails when its record is written, in `fdatasync`.
An attach fails after ten bytes, and the next one is acknowledged. Neither store can be opened
again. -/
theorem a_failed_attach_makes_the_store_unreadable :
    ∃ t, Reach (Tracked.step Tracked.exampleOptions) (Tracked.Within Tracked.exampleOptions)
        Tracked.initial t ∧
      (∃ s, Reach (step Tracked.exampleOptions) AnyStep ⟨t.store, [], 0⟩ s ∧
        s.acknowledged.length = 1 ∧ ¬ s.Reopens fun _ => 0) ∧
      ∃ s, Reach (step Tracked.exampleOptions) AnyStep ⟨t.store, [], 0⟩ s ∧
        s.acknowledged.length = 1 ∧ ¬ s.Reopens fun _ => 0 := by
  have ht : Reach (Tracked.step Tracked.exampleOptions) (Tracked.Within Tracked.exampleOptions)
      Tracked.initial _ :=
    Reach.start.step (a := .flush 2 exampleSst fun _ => [1, 0, 2, 0, 3, 0]) trivial rfl
  have hreopens : ∀ s : AttachRun, (openAndRecover (fun _ => 0) s.store.disk).isOk = false →
      ¬ s.Reopens fun _ => 0 := by
    rintro s hfails ⟨r, hr, -⟩
    rw [hr] at hfails
    cases hfails
  obtain ⟨s, hs, hack, hfails⟩ := exists_reach_of_run (step Tracked.exampleOptions) AnyStep
    ⟨Tracked.initial.store.flush 2 exampleSst fun _ => [1, 0, 2, 0, 3, 0], [], 0⟩
    [⟨2, 0, [exampleUpdate 5 9 [8]], true, .succeeds⟩,
      ⟨2, 0, [exampleUpdate 6 8 [4]], true, .fails 1000⟩]
    (fun s => s.acknowledged.length = 1 ∧
      (openAndRecover (fun _ => 0) s.store.disk).isOk = false) (by decide +kernel)
  obtain ⟨s', hs', hack', hfails'⟩ := exists_reach_of_run (step Tracked.exampleOptions) AnyStep
    ⟨Tracked.initial.store.flush 2 exampleSst fun _ => [1, 0, 2, 0, 3, 0], [], 0⟩
    [⟨2, 0, [exampleUpdate 5 9 [8]], true, .fails 10⟩,
      ⟨2, 0, [exampleUpdate 6 8 [4]], true, .succeeds⟩]
    (fun s => s.acknowledged.length = 1 ∧
      (openAndRecover (fun _ => 0) s.store.disk).isOk = false) (by decide +kernel)
  exact ⟨_, ht, ⟨s, hs, hack, hreopens s hfails⟩, s', hs', hack', hreopens s' hfails'⟩

end AttachRun

end PropertyDeltaStore

end RichGraph
