-- The names of the delta files. A name tells the target and the generation, and the
-- generations go up while a store is open; but a store that is opened again counts on
-- from its active entries, and not from the files that readers still have mapped.
import RichGraph.DeltaStoreRuns

namespace RichGraph.PropertyDeltaStore

open Lib Manifest

/-! ## Generations -/

variable {o : StoreOptions} {s : PropertyDeltaStore} {d : Disk}

/-- No call counts back. -/
theorem next_le_effect (s : PropertyDeltaStore) (o : StoreOptions) (c : Call) :
    s.memory.nextFileGeneration ≤ (s.effect o c).memory.nextFileGeneration := by
  cases c with
  | attach fid propertyId records targetIsPersistent =>
    simp only [effect, attach]
    split
    · exact Nat.le_refl _
    · split
      · exact Nat.le_succ _
      · split <;> exact Nat.le_succ _
  | markTargetPersistent fid propertyId =>
    simp only [effect, markTargetPersistent]
    split
    · exact Nat.le_refl _
    · split
      · exact Nat.le_refl _
      · split <;> exact Nat.le_refl _
  | mergeChain fid propertyId mergeAll =>
    simp only [effect, mergeChain]
    repeat' split
    all_goals first | exact Nat.le_refl _ | exact Nat.le_succ _

theorem createDelta_notMem_markFiles (fs : List PropertyDeltaFile) (m : PropertyDeltaManifest)
    (name : Bytes) (f : PropertyDeltaFile) : .createDelta name f ∉ (markFiles fs m).1 := by
  induction fs generalizing m with
  | nil => simp [markFiles]
  | cons g fs ih =>
    rw [markFiles]
    rcases append (.add ⟨g.fileName, g.metadata, true⟩) .succeeds m with ⟨m', _ | _⟩
    · simp [markTurn]
    · simpa [markTurn] using ih m'

/-- A call that makes a file takes the next generation for its name. -/
theorem name_of_createDelta {c : Call} {name : Bytes} {f : PropertyDeltaFile}
    (h : .createDelta name f ∈ (s.effect o c).steps) :
    ∃ target, name = deltaFileName target s.memory.nextFileGeneration := by
  cases c with
  | attach fid propertyId records targetIsPersistent =>
    refine ⟨o.target fid propertyId, ?_⟩
    simp only [effect, attach] at h
    repeat' split at h
    all_goals simp at h
    all_goals exact h.1
  | markTargetPersistent fid propertyId =>
    simp only [effect, markTargetPersistent] at h
    split at h
    · cases h
    · rename_i c _
      have hmark := createDelta_notMem_markFiles c.readView.deltas s.manifest name f
      split at h
      · cases h
      · split at h
        all_goals
          rename_i heq
          rw [heq] at hmark
          exact absurd h hmark
  | mergeChain fid propertyId mergeAll =>
    simp only [effect, mergeChain] at h
    repeat' split at h
    all_goals simp at h

theorem recoverEntry_generation {r r' : Recovery} {entry : PropertyDeltaManifestEntry}
    (h : recoverEntry d r entry = .ok r') :
    r'.maximumGeneration = max r.maximumGeneration entry.metadata.fileGeneration := by
  unfold recoverEntry at h
  dsimp only at h
  split at h
  · cases h
    rfl
  · split at h
    · cases h
    · split at h
      · cases h
      · cases h
        rfl

/-- The recovery counts on from the entries that it reads. -/
theorem recoverEntries_generation {r r' : Recovery} {entries : List PropertyDeltaManifestEntry}
    (h : recoverEntries d r entries = .ok r') : r.maximumGeneration ≤ r'.maximumGeneration ∧
      ∀ entry ∈ entries, entry.metadata.fileGeneration ≤ r'.maximumGeneration := by
  induction entries generalizing r with
  | nil =>
    cases h
    exact ⟨Nat.le_refl _, by simp⟩
  | cons entry entries ih =>
    rw [recoverEntries] at h
    split at h
    · cases h
    · rename_i r₁ hentry
      obtain ⟨hle, hall⟩ := ih h
      have hmax := recoverEntry_generation hentry
      refine ⟨by omega, List.forall_mem_cons.mpr ⟨by omega, hall⟩⟩

theorem next_of_open {levels : Nat → Nat} {r : PropertyDeltaStore} {m : PropertyDeltaManifest}
    (h : openAndRecover levels d = .ok r) (hm : Manifest.openAndRecover d.manifest = .ok m) :
    ∀ entry ∈ m.activeEntries, entry.metadata.fileGeneration < r.memory.nextFileGeneration := by
  obtain ⟨m', found, _, hm', hentries, rfl⟩ := recovered_of_open h
  cases hm.symm.trans hm'
  intro entry hentry
  exact Nat.lt_succ_of_le ((recoverEntries_generation hentries).2 entry hentry)

/-! ## Views -/

/-- A store with the files of the read views that are held. A view may be held while the store is
closed and its directory opened again. -/
structure Viewed where
  tracked : Tracked
  held : List PropertyDeltaFile

namespace Viewed

inductive Event where
  | store (e : PropertyDeltaStore.Event)
  | readView (fid propertyId : Nat)
  /-- One of the files that are held is let go. -/
  | release (k : Nat)

def initial : Viewed := ⟨Tracked.initial, []⟩

def step (o : StoreOptions) (v : Viewed) : Event → Option Viewed
  | .store e => (v.tracked.step o e).map fun t => { v with tracked := t }
  | .readView fid propertyId =>
    some { v with held := v.held ++ v.tracked.store.memory.deltas (o.target fid propertyId) }
  | .release k => some { v with held := v.held.eraseIdx k }

/-- The name of an active entry, of a file of a chain, or of a file that is still mapped. -/
def Taken (v : Viewed) (name : Bytes) : Prop :=
  name ∈ v.tracked.store.memory.activeEntries.map (·.fileName) ∨
    (∃ target, ∃ f ∈ v.tracked.store.memory.deltas target, f.fileName = name) ∨
    ∃ f ∈ v.held, f.fileName = name

/-- When the directory is opened again, the log has for every file that is still mapped an active
entry whose generation is no smaller. -/
def Counted (o : StoreOptions) (v : Viewed) : PropertyDeltaStore.Event → Prop
  | .restart c k _ => ∀ f ∈ v.held, ∃ m,
      Manifest.openAndRecover (v.tracked.store.crash (v.tracked.store.effect o c) k).manifest =
        .ok m ∧
        ∃ entry ∈ m.activeEntries, f.metadata.fileGeneration ≤ entry.metadata.fileGeneration
  | _ => True

def Within (o : StoreOptions) (v : Viewed) : Event → Prop
  | .store e => v.tracked.Within o e ∧ v.Counted o e
  | _ => True

variable {v v' : Viewed}

/-- Every file that is mapped was made before the next one. -/
structure Inv (o : StoreOptions) (v : Viewed) : Prop where
  tracked : v.tracked.Inv o
  held : ∀ f ∈ v.held, f.metadata.fileGeneration < v.tracked.store.memory.nextFileGeneration

theorem Inv.deltas_lt (h : v.Inv o) {target : PropertyDeltaTarget} :
    ∀ f ∈ v.tracked.store.memory.deltas target,
      f.metadata.fileGeneration < v.tracked.store.memory.nextFileGeneration := by
  obtain ⟨es, live, hinv, -⟩ := h.tracked
  intro f hf
  rw [hinv.deltas, LiveFiles.mem_of] at hf
  obtain ⟨⟨flag, hmem⟩, -⟩ := hf
  exact hinv.next _ hmem

theorem inv_initial (o : StoreOptions) : initial.Inv o := ⟨Tracked.inv_initial o, by simp [initial]⟩

theorem inv_step {e : Event} (h : v.Inv o) (hok : v.Within o e) (hs : v.step o e = some v') :
    v'.Inv o := by
  cases e with
  | readView fid propertyId =>
    cases hs
    exact ⟨h.tracked, List.forall_mem_append.mpr ⟨h.held, h.deltas_lt⟩⟩
  | release k =>
    cases hs
    exact ⟨h.tracked, fun f hf => h.held f (List.mem_of_mem_eraseIdx hf)⟩
  | store e =>
    obtain ⟨t, ht, rfl⟩ := Option.map_eq_some_iff.mp hs
    refine ⟨Tracked.inv_step h.tracked hok.1 ht, fun f hf => ?_⟩
    have hlt := h.held f hf
    cases e with
    | call c =>
      cases ht
      exact Nat.lt_of_lt_of_le hlt (next_le_effect _ _ _)
    | flush fid sst columns =>
      simp only [Tracked.step] at ht
      split at ht
      · cases ht
      · cases ht
        exact hlt
    | restart c k levels =>
      simp only [Tracked.step] at ht
      split at ht
      · cases ht
      · rename_i r hopen
        cases ht
        obtain ⟨m, hm, entry, hentry, hle⟩ := hok.2 f hf
        exact Nat.lt_of_le_of_lt hle (next_of_open hopen hm entry hentry)

/-- The entries of a store carry the names of their files. -/
theorem Inv.entries (h : v.Inv o) : ∀ entry ∈ v.tracked.store.memory.activeEntries,
    entry.fileName = deltaFileName entry.metadata.target entry.metadata.fileGeneration ∧
      entry.metadata.fileGeneration < v.tracked.store.memory.nextFileGeneration := by
  obtain ⟨es, live, hinv, -⟩ := h.tracked
  have hactive : v.tracked.store.memory.activeEntries = live.map entryOf :=
    (congrArg PropertyDeltaManifest.activeEntries hinv.manifest).trans hinv.sound.active
  intro entry hentry
  rw [hactive] at hentry
  obtain ⟨p, hp, rfl⟩ := List.mem_map.mp hentry
  exact ⟨rfl, hinv.next p hp⟩

/-- As long as the files that are mapped when the directory is opened are counted, no two targets
and generations have one name, no file gets a name that is taken, and no file of an active entry is
removed as an orphan. -/
theorem names_are_free_and_orphans_are_not_active (o : StoreOptions) (v : Viewed)
    (h : Reach (step o) (Within o) initial v) :
    (∀ target generation target' generation',
      deltaFileName target generation = deltaFileName target' generation' →
        target = target' ∧ generation = generation') ∧
    (∀ c name f, .createDelta name f ∈ (v.tracked.store.effect o c).steps → ¬ v.Taken name) ∧
    ∀ (d : Disk), ∀ entry ∈ v.tracked.store.memory.activeEntries,
      (removeOrphanFiles d v.tracked.store.memory.activeEntries).files entry.fileName =
        d.files entry.fileName := by
  have hinv : v.Inv o := h.invariant (inv_initial o) fun _ _ _ => inv_step
  refine ⟨fun _ _ _ _ => deltaFileName_injective, ?_, ?_⟩
  · intro c name f hcreate htaken
    obtain ⟨target, rfl⟩ := name_of_createDelta hcreate
    rcases htaken with hactive | ⟨target', f', hf', hname⟩ | ⟨f', hf', hname⟩
    · obtain ⟨entry, hentry, hname⟩ := List.mem_map.mp hactive
      obtain ⟨hcanonical, hlt⟩ := hinv.entries entry hentry
      rw [hcanonical] at hname
      exact absurd (deltaFileName_generation hname) (Nat.ne_of_lt hlt)
    · exact absurd (deltaFileName_generation hname) (Nat.ne_of_lt (hinv.deltas_lt f' hf'))
    · exact absurd (deltaFileName_generation hname) (Nat.ne_of_lt (hinv.held f' hf'))
  · intro d entry hentry
    obtain ⟨hcanonical, -⟩ := hinv.entries entry hentry
    refine if_neg ?_
    rintro (⟨-, hnot⟩ | htemporary)
    · exact hnot (List.mem_map_of_mem hentry)
    · rw [hcanonical] at htemporary
      exact not_temporary_deltaFileName htemporary

/-- The last delta is merged while its view is held, and the directory is opened again. -/
def mergedAndReopened : List Event :=
  [.store (.flush 2 exampleSst fun _ => [1, 0, 2, 0, 3, 0]),
    .store (.call (.attach 2 0 [exampleUpdate 5 9 [8]] true)), .readView 2 0,
    .store (.call (.mergeChain 2 0 true)), .store (.restart (.attach 2 0 [] true) 0 fun _ => 0)]

/-- The step makes a file with the name of a file whose view is held. -/
def Remakes (v : Viewed) : DiskStep → Bool
  | .createDelta name _ => decide (name ∈ v.held.map (·.fileName))
  | _ => false

/-- The next file gets the name of the one that is still mapped. -/
theorem a_mapped_name_is_made_again : ∃ v, Reach (step Tracked.exampleOptions) AnyStep initial v ∧
    ∃ c name f, .createDelta name f ∈ (v.tracked.store.effect Tracked.exampleOptions c).steps ∧
      v.Taken name := by
  obtain ⟨v, hreach, hmade⟩ := exists_reach_of_run (step Tracked.exampleOptions) AnyStep initial
    mergedAndReopened (fun v => ((v.tracked.store.effect Tracked.exampleOptions
      (.attach 2 0 [exampleUpdate 5 9 [7]] true)).steps.any v.Remakes) = true) (by decide +kernel)
  obtain ⟨diskStep, hmem, hname⟩ := List.any_eq_true.mp hmade
  cases diskStep with
  | createDelta name f =>
    obtain ⟨g, hg, rfl⟩ := List.mem_map.mp (of_decide_eq_true hname)
    exact ⟨v, hreach, _, _, f, hmem, Or.inr (Or.inr ⟨g, hg, rfl⟩)⟩
  | _ => cases hname

/-- A store with a delta whose view is held. -/
theorem a_second_delta_has_another_name : ∃ v,
    Reach (step Tracked.exampleOptions) (Within Tracked.exampleOptions) initial v ∧ v.held ≠ [] ∧
      ∀ c name f, .createDelta name f ∈ (v.tracked.store.effect Tracked.exampleOptions c).steps →
        ¬ v.Taken name := by
  have hreach : Reach (step Tracked.exampleOptions) (Within Tracked.exampleOptions) initial _ :=
    (Reach.start.step (a := .store (.call (.attach 2 0 [exampleUpdate 5 9 [8]] true)))
      ⟨⟨by decide +kernel, by decide +kernel⟩, trivial⟩ rfl).step (a := .readView 2 0) trivial rfl
  exact ⟨_, hreach, by decide +kernel,
    (names_are_free_and_orphans_are_not_active Tracked.exampleOptions _ hreach).2.1⟩

end Viewed

end RichGraph.PropertyDeltaStore
