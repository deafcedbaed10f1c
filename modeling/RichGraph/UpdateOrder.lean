-- Updates of edges on their way from the buffers of the update manager into the
-- chains of the files, while compactions move the edges. A flush hands the groups
-- of a buffer over in any order, and a merge keeps the value that comes last.
import RichGraph.DeltaMoves
import RichGraph.UpdateSections

namespace RichGraph

namespace UpdateOrder

open DeltaHandOff (ByCommit Drained)
open PropertyUpdateManager (bufferedUpdate)

/-- The manager of one edge shard; `lengths` are the widths of its columns. -/
structure Options where
  manager : PropertyUpdateManager.PropertyUpdateOptions
  shardId : Nat
  lengths : Nat → Nat

structure State where
  manager : PropertyUpdateManager.State
  deltas : DeltaHandOff.State

def initial (o : Options) (initialCommitSequence : Nat) : State :=
  ⟨PropertyUpdateManager.initial o.manager initialCommitSequence, DeltaHandOff.initial⟩

/-- `UpdateEdge`. The record may have moved since the call has located it. -/
def updateEdge (o : Options) (located : Nat) (inMemtable : Bool) (id : RecordId)
    (properties : List (Nat × Bytes)) (s : State) : Option State :=
  if s.deltas.place id = none then none
  else
    let batch := properties.map (bufferedUpdate .kEdge o.shardId located inMemtable id)
    some { s with manager := s.manager.submitBatch o.manager batch }

/-- The loop of `AttachPropertyDelta` over `rebound`: each file with the records that are found in
it, and whether the lookup has seen a memtable. -/
def attachFiles (propertyId : Nat) (records : List PropertyDeltaRecord) :
    List (Nat × Bool) → DeltaHandOff.State → Option DeltaHandOff.State
  | [], d => some d
  | (fid, sawMemtable) :: files, d =>
    (DeltaHandOff.attach fid propertyId sawMemtable
      (records.filter fun r => d.place r.id = some fid) d).bind
        (attachFiles propertyId records files)

/-- `AttachPropertyDelta`: the records of a group are located again. The map gives no order. -/
def attachPropertyDelta (files : List (Nat × Bool)) (g : PropertyUpdateManager.Group)
    (d : DeltaHandOff.State) : Option DeltaHandOff.State :=
  if (files.map Prod.fst).Nodup ∧ ∀ r ∈ g.records, ∃ f ∈ files, d.place r.id = some f.1 then
    attachFiles g.target.propertyId g.records files d
  else none

/-- The group that a callback gets. -/
def groupAt (s : State) (k : Nat) : Option PropertyUpdateManager.Group :=
  match s.manager.worker with
  | .calling _ groups => groups[k]?
  | _ => none

inductive Action where
  | updateEdge (located : Nat) (inMemtable : Bool) (id : RecordId) (properties : List (Nat × Bytes))
  | manage (a : PropertyUpdateManager.Action)
  | callBack (k : Nat) (files : List (Nat × Bool))
  | move (a : DeltaHandOff.Action)

/-- Updates are submitted by `updateEdge`, and attached by a callback. -/
def step (o : Options) (s : State) : Action → Option State
  | .updateEdge located inMemtable id properties =>
    updateEdge o located inMemtable id properties s
  | .manage (.submit _) => none
  | .manage (.callBack _ none) => none
  | .manage a => (PropertyUpdateManager.step o.manager s.manager a).map fun m =>
      { s with manager := m }
  | .callBack k files =>
    (groupAt s k).bind fun g => (attachPropertyDelta files g s.deltas).bind fun d =>
      (s.manager.callBack k none).map fun m => ⟨m, d⟩
  | .move (.attach _ _ _ _) => none
  | .move a => (DeltaHandOff.step o.lengths s.deltas a).map fun d => { s with deltas := d }

/-- A group is handed over after the updates with smaller commits of its records, and its values
fit their column. A compaction selects no file whose chains still have deltas. -/
def HandsOverByCommit (o : Options) (s : State) : Action → Prop
  | .callBack k _ => ∀ g ∈ groupAt s k, ByCommit s.deltas g.target.propertyId g.records ∧
      ∀ r ∈ g.records, keptValue (o.lengths g.target.propertyId) r.value = r.value
  | .move (.pick inputs) => Drained s.deltas inputs
  | _ => True

instance (o : Options) (s : State) (a : Action) : Decidable (HandsOverByCommit o s a) :=
  match a with
  | .callBack k _ => inferInstanceAs (Decidable (∀ g ∈ groupAt s k, _ ∧ _))
  | .move (.pick inputs) => inferInstanceAs (Decidable (Drained s.deltas inputs))
  | .updateEdge _ _ _ _ | .manage _ | .move (.put _ _) | .move .switch | .move (.publish _)
  | .move (.markTargetPersistent _ _) | .move (.attach _ _ _ _) | .move (.mergeChain _ _ _)
  | .move .lock | .move .drain | .move .install => isTrue trivial

/-! ## The invariant -/

/-- Among the attached updates of a property of a record the last one has the greatest commit. -/
def NewestFirst (acknowledged : List (Nat × PropertyDeltaRecord)) : Prop :=
  acknowledged.Pairwise fun a b => a.1 = b.1 → a.2.id = b.2.id →
    b.2.commitSequence < a.2.commitSequence

structure Inv (o : Options) (s : State) : Prop where
  deltas : DeltaHandOff.Inv o.lengths s.deltas
  newest : NewestFirst s.deltas.acknowledged
  known : PropertyUpdateManager.Known s.manager
  passed : ∀ x : PropertyUpdateManager.Delta, x ∈ s.manager.passed →
    (x.1.propertyId, x.2) ∈ s.deltas.acknowledged
  attached : ∀ p ∈ s.deltas.acknowledged, ∃ x : PropertyUpdateManager.Delta,
    x ∈ s.manager.passed ∧ x.1.propertyId = p.1 ∧ x.2 = p.2

variable {o : Options} {s s' : State}

/-! ## What a step does -/

theorem updateEdge_cases {located : Nat} {inMemtable : Bool} {id : RecordId}
    {properties : List (Nat × Bytes)}
    (hs : step o s (.updateEdge located inMemtable id properties) = some s') :
    s.deltas.place id ≠ none ∧ s' = { s with
      manager := s.manager.submitBatch o.manager
        (properties.map (bufferedUpdate .kEdge o.shardId located inMemtable id)) } := by
  simp only [step, updateEdge] at hs
  split at hs
  · cases hs
  · rename_i hplace
    cases hs
    exact ⟨hplace, rfl⟩

theorem manage_cases {a : PropertyUpdateManager.Action} (hs : step o s (.manage a) = some s') :
    (∀ batch, a ≠ .submit batch) ∧ (∀ k, a ≠ .callBack k none) ∧
      ∃ m, PropertyUpdateManager.step o.manager s.manager a = some m ∧
        s' = { s with manager := m } := by
  cases a with
  | submit batch => cases hs
  | callBack k error =>
    cases error with
    | none => cases hs
    | some e => exact ⟨by simp, by simp, Lib.exists_of_map hs⟩
  | _ => exact ⟨by simp, by simp, Lib.exists_of_map hs⟩

theorem callBack_cases {k : Nat} {files : List (Nat × Bool)}
    (hs : step o s (.callBack k files) = some s') :
    ∃ g d m, groupAt s k = some g ∧ (files.map Prod.fst).Nodup ∧
      (∀ r ∈ g.records, ∃ f ∈ files, s.deltas.place r.id = some f.1) ∧
      attachFiles g.target.propertyId g.records files s.deltas = some d ∧
      s.manager.callBack k none = some m ∧ m.passed = s.manager.passed ++ g.deltas ∧
      s' = ⟨m, d⟩ := by
  obtain ⟨g, hg, hs⟩ := Option.bind_eq_some_iff.mp hs
  obtain ⟨d, hd, hs⟩ := Option.bind_eq_some_iff.mp hs
  obtain ⟨m, hm, rfl⟩ := Option.map_eq_some_iff.mp hs
  unfold attachPropertyDelta at hd
  split at hd
  · rename_i hfiles
    refine ⟨g, d, m, hg, hfiles.1, hfiles.2, hd, hm, ?_, rfl⟩
    obtain ⟨i, groups, g', hw, hg', rfl⟩ := PropertyUpdateManager.callBack_cases (o := o.manager) hm
    unfold groupAt at hg
    rw [hw] at hg
    rw [Option.some.inj (hg.symm.trans hg')]
  · cases hd

theorem move_cases {a : DeltaHandOff.Action} (hs : step o s (.move a) = some s') :
    (∀ fid p saw records, a ≠ .attach fid p saw records) ∧
      ∃ d, DeltaHandOff.step o.lengths s.deltas a = some d ∧ s' = { s with deltas := d } := by
  cases a with
  | attach fid p saw records => cases hs
  | _ => exact ⟨by simp, Lib.exists_of_map hs⟩

/-! ## Groups are attached -/

/-- One file of a group is attached. -/
theorem attach_acknowledged {fid propertyId : Nat} {sawMemtable : Bool}
    {records : List PropertyDeltaRecord} {d d' : DeltaHandOff.State}
    (h : DeltaHandOff.attach fid propertyId sawMemtable records d = some d') :
    d'.acknowledged = (records.map (Prod.mk propertyId)).reverse ++ d.acknowledged ∧
      d'.place = d.place := by
  unfold DeltaHandOff.attach at h
  split at h
  · split at h
    · cases h
      exact ⟨rfl, rfl⟩
    · cases h
  · cases h

theorem newestFirst_attach {propertyId : Nat} {records : List PropertyDeltaRecord}
    {d : DeltaHandOff.State} (h : NewestFirst d.acknowledged)
    (hc : ByCommit d propertyId records) :
    NewestFirst ((records.map (Prod.mk propertyId)).reverse ++ d.acknowledged) := by
  refine List.pairwise_append.mpr ⟨?_, h, ?_⟩
  · rw [List.pairwise_reverse, List.pairwise_map]
    exact hc.2.imp fun hab _ hid => hab hid.symm
  · intro p hp q hq hproperty hid
    obtain ⟨r, hr, rfl⟩ := List.mem_map.mp (List.mem_reverse.mp hp)
    exact hc.1 r hr q hq hproperty.symm hid.symm

/-- All files of a group are attached. -/
theorem attachFiles_spec {lengths : Nat → Nat} {propertyId : Nat}
    {records : List PropertyDeltaRecord} {files : List (Nat × Bool)} {d d' : DeltaHandOff.State}
    (h : DeltaHandOff.Inv lengths d) (hnewest : NewestFirst d.acknowledged)
    (hnodup : (files.map Prod.fst).Nodup)
    (hc : ∀ r ∈ records, (∃ f ∈ files, d.place r.id = some f.1) → ∀ p ∈ d.acknowledged,
      p.1 = propertyId → p.2.id = r.id → p.2.commitSequence < r.commitSequence)
    (hpairwise : records.Pairwise fun a b => a.id = b.id → a.commitSequence < b.commitSequence)
    (hfits : ∀ r ∈ records, keptValue (lengths propertyId) r.value = r.value)
    (hs : attachFiles propertyId records files d = some d') :
    DeltaHandOff.Inv lengths d' ∧ NewestFirst d'.acknowledged ∧
      ∀ p, p ∈ d'.acknowledged ↔ p ∈ d.acknowledged ∨
        p.1 = propertyId ∧ p.2 ∈ records ∧ ∃ f ∈ files, d.place p.2.id = some f.1 := by
  induction files generalizing d with
  | nil =>
    cases hs
    exact ⟨h, hnewest, by simp⟩
  | cons f files ih =>
    obtain ⟨fid, sawMemtable⟩ := f
    obtain ⟨d₁, hd₁, hrest⟩ := Option.bind_eq_some_iff.mp hs
    obtain ⟨hfid, hnodup⟩ := List.nodup_cons.mp hnodup
    have hby : ByCommit d propertyId (records.filter fun r => d.place r.id = some fid) := by
      refine ⟨?_, List.Pairwise.sublist List.filter_sublist hpairwise⟩
      intro r hr
      obtain ⟨hr, hplace⟩ := List.mem_filter.mp hr
      exact hc r hr ⟨_, List.mem_cons_self, of_decide_eq_true hplace⟩
    obtain ⟨hack, hplace⟩ := attach_acknowledged hd₁
    have hinv := DeltaHandOff.inv_attach h hby
      (fun r hr => hfits r (List.mem_of_mem_filter hr)) hd₁
    have hnewest₁ : NewestFirst d₁.acknowledged := hack ▸ newestFirst_attach hnewest hby
    have hc₁ : ∀ r ∈ records, (∃ f ∈ files, d₁.place r.id = some f.1) → ∀ p ∈ d₁.acknowledged,
        p.1 = propertyId → p.2.id = r.id → p.2.commitSequence < r.commitSequence := by
      intro r hr ⟨f, hf, hrf⟩ p hp hproperty hid
      rw [hplace] at hrf
      rw [hack] at hp
      rcases List.mem_append.mp hp with hp | hp
      · -- What was attached just now is in another file.
        obtain ⟨r', hr', rfl⟩ := List.mem_map.mp (List.mem_reverse.mp hp)
        have hr'' := of_decide_eq_true (List.mem_filter.mp hr').2
        rw [show r'.id = r.id from hid, hrf, Option.some.injEq] at hr''
        exact absurd (List.mem_map.mpr ⟨f, hf, hr''⟩) hfid
      · exact hc r hr ⟨f, List.mem_cons_of_mem _ hf, hrf⟩ p hp hproperty hid
    obtain ⟨hinv', hnewest', hmem⟩ := ih hinv hnewest₁ hnodup hc₁ hrest
    refine ⟨hinv', hnewest', fun p => ?_⟩
    rw [hmem, hack, hplace]
    simp only [List.mem_append, List.mem_reverse, List.mem_map, List.mem_filter,
      decide_eq_true_eq, List.mem_cons, exists_eq_or_imp]
    constructor
    · rintro ((⟨r, ⟨hr, hrf⟩, rfl⟩ | hp) | ⟨hproperty, hr, hf⟩)
      · exact Or.inr ⟨rfl, hr, Or.inl hrf⟩
      · exact Or.inl hp
      · exact Or.inr ⟨hproperty, hr, Or.inr hf⟩
    · rintro (hp | ⟨rfl, hr, hrf | hf⟩)
      · exact Or.inl (Or.inr hp)
      · exact Or.inl (Or.inl ⟨p.2, ⟨hr, hrf⟩, rfl⟩)
      · exact Or.inr ⟨rfl, hr, hf⟩

theorem inv_callBack {k : Nat} {files : List (Nat × Bool)} (h : Inv o s)
    (hok : HandsOverByCommit o s (.callBack k files))
    (hs : step o s (.callBack k files) = some s') :
    Inv o s' := by
  obtain ⟨g, d, m, hg, hnodup, hfiles, hd, hm, hpassed, rfl⟩ := callBack_cases hs
  obtain ⟨⟨hcommits, hpairwise⟩, hfits⟩ := hok g hg
  obtain ⟨hinv, hnewest, hmem⟩ := attachFiles_spec h.deltas h.newest hnodup
    (fun r hr _ => hcommits r hr) hpairwise hfits hd
  refine ⟨hinv, hnewest, h.known.of_worker (PropertyUpdateManager.workerStep_of_step
    (o := o.manager) (a := .callBack k none) id hm), ?_, ?_⟩
  · intro x hx
    rw [hmem]
    rcases List.mem_append.mp (hpassed ▸ hx) with hx | hx
    · exact Or.inl (h.passed x hx)
    · obtain ⟨r, hr, rfl⟩ := List.mem_map.mp hx
      exact Or.inr ⟨rfl, hr, hfiles r hr⟩
  · intro p hp
    dsimp only
    rw [hpassed]
    rcases (hmem p).mp hp with hp | ⟨hproperty, hr, -⟩
    · obtain ⟨x, hx, hxp⟩ := h.attached p hp
      exact ⟨x, List.mem_append_left _ hx, hxp⟩
    · exact ⟨(g.target, p.2), List.mem_append_right _ (List.mem_map.mpr ⟨p.2, hr, rfl⟩),
        hproperty.symm, rfl⟩

/-- A step of the manager that attaches nothing. -/
theorem Inv.of_grows (h : Inv o s) {m : PropertyUpdateManager.State}
    (hg : PropertyUpdateManager.Grows s.manager m) : Inv o { s with manager := m } where
  deltas := h.deltas
  newest := h.newest
  known := h.known.of_grows hg
  passed x hx := h.passed x (hg.passed ▸ hx)
  attached p hp := by
    obtain ⟨x, hx, hxp⟩ := h.attached p hp
    exact ⟨x, hg.passed.symm ▸ hx, hxp⟩

theorem acknowledged_mergeChain {lengths : Nat → Nat} {fid propertyId count : Nat}
    {d d' : DeltaHandOff.State}
    (h : DeltaHandOff.mergeChain lengths fid propertyId count d = some d') :
    d'.acknowledged = d.acknowledged := by
  unfold DeltaHandOff.mergeChain at h
  simp only at h
  split at h
  · cases h
    rfl
  · cases h

/-- Only an attach adds updates. -/
theorem acknowledged_move {lengths : Nat → Nat} {a : DeltaHandOff.Action}
    {d d' : DeltaHandOff.State} (ha : ∀ fid p saw records, a ≠ .attach fid p saw records)
    (h : DeltaHandOff.step lengths d a = some d') : d'.acknowledged = d.acknowledged := by
  cases a with
  | put id value =>
    simp only [DeltaHandOff.step, DeltaHandOff.put] at h
    split at h
    · cases h
      rfl
    · cases h
  | switch =>
    cases h
    rfl
  | publish fid =>
    simp only [DeltaHandOff.step, DeltaHandOff.publish] at h
    split at h
    · cases h
      rfl
    · cases h
  | markTargetPersistent fid p =>
    simp only [DeltaHandOff.step, DeltaHandOff.markTargetPersistent] at h
    split at h
    · cases h
      rfl
    · cases h
  | attach fid p saw records => exact absurd rfl (ha fid p saw records)
  | mergeChain fid p count => exact acknowledged_mergeChain h
  | lock =>
    simp only [DeltaHandOff.step, DeltaHandOff.lock] at h
    split at h
    · cases h
      rfl
    · cases h
  | drain =>
    simp only [DeltaHandOff.step, DeltaHandOff.drain] at h
    split at h
    · split at h
      · split at h
        · rename_i d₁ hmerge
          cases h
          change d₁.acknowledged = _
          exact acknowledged_mergeChain hmerge
        · cases h
          rfl
      · cases h
        rfl
    · cases h
  | pick inputs =>
    simp only [DeltaHandOff.step, DeltaHandOff.pick] at h
    split at h
    · split at h
      · cases h
        rfl
      · cases h
    · cases h
  | install =>
    simp only [DeltaHandOff.step, DeltaHandOff.install] at h
    split at h
    · cases h
      rfl
    · cases h

/-- The edges move, and nothing is attached. -/
theorem Inv.of_move (h : Inv o s) {a : DeltaHandOff.Action} {d : DeltaHandOff.State}
    (ha : ∀ fid p saw records, a ≠ .attach fid p saw records)
    (hok : DeltaHandOff.KeepsUpdates o.lengths s.deltas a)
    (hd : DeltaHandOff.step o.lengths s.deltas a = some d) : Inv o { s with deltas := d } := by
  have hack := acknowledged_move ha hd
  refine ⟨DeltaHandOff.inv_step _ _ _ h.deltas hok hd, ?_, h.known, ?_, ?_⟩
  · change NewestFirst d.acknowledged
    rw [hack]
    exact h.newest
  · intro x hx
    change _ ∈ d.acknowledged
    rw [hack]
    exact h.passed x hx
  · intro p hp
    change p ∈ d.acknowledged at hp
    rw [hack] at hp
    exact h.attached p hp

theorem inv_initial (o : Options) (c : Nat) : Inv o (initial o c) where
  deltas := DeltaHandOff.inv_initial o.lengths
  newest := List.Pairwise.nil
  known := PropertyUpdateManager.known_initial o.manager c
  passed x hx := by cases hx
  attached p hp := by cases hp

theorem inv_step {a : Action} (h : Inv o s) (hok : HandsOverByCommit o s a)
    (hs : step o s a = some s') : Inv o s' := by
  cases a with
  | updateEdge located inMemtable id properties =>
    obtain ⟨-, rfl⟩ := updateEdge_cases hs
    exact h.of_grows ((PropertyUpdateManager.grows_sections _ _).submitBatch trivial
      (PropertyUpdateManager.Grows.refl _))
  | manage a =>
    obtain ⟨-, ha, m, hm, rfl⟩ := manage_cases hs
    exact h.of_grows (PropertyUpdateManager.grows_step ha hm)
  | callBack k files => exact inv_callBack h hok hs
  | move a =>
    obtain ⟨ha, d, hd, rfl⟩ := move_cases hs
    refine h.of_move ha ?_ hd
    cases a with
    | attach fid p saw records => exact absurd rfl (ha fid p saw records)
    | pick inputs => exact hok
    | _ => trivial

/-! ## The last update is read -/

theorem find?_newest {acknowledged : List (Nat × PropertyDeltaRecord)}
    (h : NewestFirst acknowledged)
    {p : Nat} {r : PropertyDeltaRecord} (hr : (p, r) ∈ acknowledged)
    (hmax : ∀ q ∈ acknowledged, q.1 = p → q.2.id = r.id → q.2.commitSequence ≤ r.commitSequence) :
    acknowledged.find? (fun q => q.1 = p ∧ q.2.id = r.id) = some (p, r) := by
  induction acknowledged with
  | nil => cases hr
  | cons q acknowledged ih =>
    obtain ⟨hq, hrest⟩ := List.pairwise_cons.mp h
    rw [List.find?_cons]
    rcases List.mem_cons.mp hr with rfl | hr
    · simp
    by_cases hmatch : q.1 = p ∧ q.2.id = r.id
    · -- The first one that matches would be newer than the newest.
      have hlt := hq _ hr hmatch.1 hmatch.2
      have hle := hmax q List.mem_cons_self hmatch.1 hmatch.2
      exact absurd hlt (Nat.not_lt.mpr hle)
    · simp only [hmatch, decide_false]
      exact ih hrest hr fun q' hq' => hmax q' (List.mem_cons_of_mem _ hq')

theorem le_find?_newest {acknowledged : List (Nat × PropertyDeltaRecord)}
    (h : NewestFirst acknowledged) {p : Nat} {id : RecordId} {q : Nat × PropertyDeltaRecord}
    (hq : acknowledged.find? (fun q => q.1 = p ∧ q.2.id = id) = some q) :
    ∀ q' ∈ acknowledged, q'.1 = p → q'.2.id = id → q'.2.commitSequence ≤ q.2.commitSequence := by
  induction acknowledged with
  | nil => cases hq
  | cons x acknowledged ih =>
    obtain ⟨hx, hrest⟩ := List.pairwise_cons.mp h
    intro q' hq' hp hid
    rw [List.find?_cons] at hq
    by_cases hmatch : x.1 = p ∧ x.2.id = id
    · simp only [hmatch, and_self, decide_true, Option.some.injEq] at hq
      subst hq
      rcases List.mem_cons.mp hq' with rfl | hq'
      · exact Nat.le_refl _
      · exact Nat.le_of_lt (hx q' hq' (hmatch.1.trans hp.symm) (hmatch.2.trans hid.symm))
    · simp only [hmatch, decide_false] at hq
      rcases List.mem_cons.mp hq' with rfl | hq'
      · exact absurd ⟨hp, hid⟩ hmatch
      · exact ih hrest hq q' hq' hp hid

/-- No other acknowledged update of the property of its record has a greater commit. -/
def IsNewest (s : State) (x : PropertyUpdateManager.Delta) : Prop :=
  x ∈ s.manager.acknowledged ∧ ∀ y ∈ s.manager.acknowledged,
    y.1.propertyId = x.1.propertyId → y.2.id = x.2.id → y.2.commitSequence ≤ x.2.commitSequence

/-- All acknowledged updates of the property of a record have been handed over. -/
def Flushed (s : State) (id : RecordId) (propertyId : Nat) : Prop :=
  ∀ x ∈ s.manager.acknowledged, x.1.propertyId = propertyId → x.2.id = id → x ∈ s.manager.passed

/-- The chain of the file in which the record is has been merged into the column. -/
def Merged (s : State) (id : RecordId) (propertyId : Nat) : Prop :=
  ∀ fid ∈ s.deltas.place id, (s.deltas.chains fid propertyId).deltas = []

instance (s : State) (x : PropertyUpdateManager.Delta) : Decidable (IsNewest s x) :=
  inferInstanceAs (Decidable (_ ∧ ∀ _ ∈ _, _))

instance (s : State) (id : RecordId) (propertyId : Nat) : Decidable (Flushed s id propertyId) :=
  inferInstanceAs (Decidable (∀ _ ∈ _, _))

instance (s : State) (id : RecordId) (propertyId : Nat) : Decidable (Merged s id propertyId) :=
  inferInstanceAs (Decidable (∀ _ ∈ _, _))

def exampleOptions : Options := ⟨PropertyUpdateManager.twoBuffers, 0, fun _ => 4⟩

/-- An edge is put and published, updated, moved by a compaction, and updated again before the
buffer is flushed. -/
def updateMoveUpdate : List Action :=
  [.move (.put ⟨1, 2, 0, true, 0⟩ fun _ => [5]), .move .switch, .move (.publish 0),
    .updateEdge 0 false ⟨1, 2, 0, true, 0⟩ [(0, [7])], .move .lock, .move (.pick [0]),
    .move .install, .updateEdge 2 false ⟨1, 2, 0, true, 0⟩ [(0, [8])], .manage .takeQueued]

/-- The end of the flush, and the merge of the chain. -/
def retireAndMerge : List Action :=
  [.manage .retire, .manage .retire, .manage .retire, .manage .finishBuffer,
    .move (.mergeChain 2 0 2)]

/-- The second of the two updates. -/
def secondUpdate : PropertyUpdateManager.Delta :=
  (⟨.kEdge, 0, 2, 2, 0⟩, ⟨1, 2, 0, 2, true, 0, [8]⟩)

end UpdateOrder

end RichGraph
