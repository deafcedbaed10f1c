-- A scan of one vertex beside one compaction of level 0. The scan captures the version,
-- then copies the index of the vertex, then loads its deepest level; the compaction writes
-- its files, each with the index of the file's vertices, and then switches the version.
-- What the scan selects is what it would have selected before, or after.
import RichGraph.FlushOrder

namespace RichGraph

open Compaction

namespace ScanInterleavings

/-! ## The model -/

inductive Phase where
  | before
  | running
  | ended
deriving DecidableEq

/-- The store, how far its compaction is, and what the scan has captured. -/
structure State where
  store : Store
  phase : Phase
  version : Option (List SSTable)
  findex : Option MulLevelIndex
  maxLevel : Option Int

inductive Action where
  | pick
  | writeEnd
  | finish
  | captureVersion
  | copyIndex
  | loadMaxLevel
deriving DecidableEq

/-- Another vertex of the same output file may be updated between two steps of the scan. That
makes no difference to the vertex of the scan, so the end of a file is one step. -/
def step (o : Options) (v : Nat) (s : State) : Action → Option State
  | .pick =>
    if s.phase = .before then
      (Store.pick o 0 s.store).map fun store => { s with store, phase := .running }
    else none
  | .writeEnd =>
    if s.phase = .running then (Store.writeEnd o s.store).map fun store => { s with store }
    else none
  | .finish =>
    if s.phase = .running then
      (Store.finish s.store).map fun store => { s with store, phase := .ended }
    else none
  | .captureVersion =>
    if s.version.isNone then some { s with version := some s.store.level0 } else none
  | .copyIndex =>
    if s.version.isSome ∧ s.findex.isNone then some { s with findex := some (s.store.index v) }
    else none
  | .loadMaxLevel =>
    if s.findex.isSome ∧ s.maxLevel.isNone then
      some { s with maxLevel := some (s.store.vertexMaxLevel v) }
    else none

def start (store : Store) : State := ⟨store, .before, none, none, none⟩

/-- The files and ranges that `EdgeIteratorDynamic` takes from the version and the index in a scan
at `MAX_SEQ_ID`, to which no file is too new. -/
def select (v : Nat) (level0 : List SSTable) (findex : MulLevelIndex) (maxLevel : Int) :
    List LevelEntry :=
  (if 1 ≤ maxLevel then
    (level0.filter fun f => findex.minLevel0Fid ≤ f.timeStamp ∧
      v ≤ f.maxKey ∧ f.minKey ≤ v).filterMap
      fun f => (f.offsets v).map fun p => ⟨f.timeStamp, p.1, p.2⟩
  else []) ++
  if 2 ≤ maxLevel then
    ((List.range (maxLevel - 1).toNat).map findex.levels).filter (·.fileID ≠ invalidFileId)
  else []

/-- What a scan selects in a state of the store. -/
def selection (v : Nat) (s : Store) : List LevelEntry :=
  select v s.level0 (s.index v) (s.vertexMaxLevel v)

/-! ## What is selected -/

variable {o : Options} {v : Nat} {s s' : Store}

/-- A level that is loaded later does not add anything. -/
theorem select_of_deeper (h : Store.LevelsReached s) {maxLevel : Int}
    (hle : s.vertexMaxLevel v ≤ maxLevel) :
    select v s.level0 (s.index v) maxLevel = selection v s := by
  have hfiles : s.vertexMaxLevel v < 1 →
      (s.level0.filter fun f => (s.index v).minLevel0Fid ≤ f.timeStamp ∧ v ≤ f.maxKey ∧
        f.minKey ≤ v).filterMap (fun f => (f.offsets v).map fun p =>
          (⟨f.timeStamp, p.1, p.2⟩ : LevelEntry)) = [] := by
    intro hlt
    rw [List.filterMap_eq_nil_iff]
    intro f hf
    cases hoff : f.offsets v with
    | none => rfl
    | some p =>
      have := h.level0 f (List.mem_of_mem_filter hf) v (SSTable.has_of_offsets hoff)
      omega
  -- the slots from the old limit on are empty
  have hslots : ∀ m n : Nat, m ≤ n → s.vertexMaxLevel v ≤ (m : Int) + 1 →
      ((List.range n).map (s.index v).levels).filter (·.fileID ≠ invalidFileId) =
        ((List.range m).map (s.index v).levels).filter (·.fileID ≠ invalidFileId) := by
    intro m n hmn hm
    obtain ⟨d, rfl⟩ := Nat.exists_eq_add_of_le hmn
    have hnil : (((List.range d).map (m + ·)).map (s.index v).levels).filter
        (·.fileID ≠ invalidFileId) = [] := by
      rw [List.filter_eq_nil_iff]
      intro e he
      obtain ⟨l, hl, rfl⟩ := List.mem_map.mp he
      obtain ⟨x, -, rfl⟩ := List.mem_map.mp hl
      simp only [decide_eq_true_eq]
      intro hne
      have := h.slots v _ hne
      push_cast at this
      omega
    rw [List.range_add, List.map_append, List.filter_append, hnil, List.append_nil]
  unfold selection select
  congr 1
  · by_cases h1 : 1 ≤ s.vertexMaxLevel v
    · rw [if_pos h1, if_pos (by omega)]
    · rw [if_neg h1]
      split
      · exact hfiles (by omega)
      · rfl
  · by_cases h2 : 2 ≤ s.vertexMaxLevel v
    · rw [if_pos h2, if_pos (by omega)]
      exact hslots _ _ (by omega) (by omega)
    · rw [if_neg h2]
      split
      · rw [hslots 0 _ (Nat.zero_le _) (by push_cast; omega)]
        rfl
      · rfl

/-- The watermark hides the inputs, so that the switch of the version makes no difference. -/
theorem select_of_watermark {inputs level0 : List SSTable} {findex : MulLevelIndex}
    {maxLevel : Int} (h : ∀ f ∈ inputs, f.timeStamp < findex.minLevel0Fid) :
    select v (Store.removeCache inputs level0) findex maxLevel =
      select v level0 findex maxLevel := by
  have hfilter : (Store.removeCache inputs level0).filter (fun f =>
      findex.minLevel0Fid ≤ f.timeStamp ∧ v ≤ f.maxKey ∧ f.minKey ≤ v) =
      level0.filter fun f => findex.minLevel0Fid ≤ f.timeStamp ∧ v ≤ f.maxKey ∧ f.minKey ≤ v := by
    unfold Store.removeCache
    rw [List.filter_filter]
    refine List.filter_congr fun f _ => ?_
    by_cases hshow : findex.minLevel0Fid ≤ f.timeStamp
    · have hnot : (inputs.map SSTable.timeStamp).contains f.timeStamp = false := by
        rw [Bool.eq_false_iff, ne_eq, List.contains_iff_mem]
        intro hin
        obtain ⟨g, hg, heq⟩ := List.mem_map.mp hin
        have := h g hg
        omega
      simp only [hnot, Bool.not_false, Bool.and_true]
    · simp [hshow]
  unfold select
  rw [hfilter]

/-! ## The compaction -/

/-- The index of the vertex has been updated, and no file that is still to come has the vertex. -/
structure Updated (v : Nat) (inputs : List SSTable) (s : Store) : Prop where
  watermark : ∀ f ∈ inputs, f.timeStamp < (s.index v).minLevel0Fid
  done : ∀ j, s.job = some j → ¬ j.Pending v

/-- The store in the phases of its compaction. -/
structure Progress (v : Nat) (s₀ : Store) (inputs : List SSTable) (t : State) : Prop where
  level_le : s₀.vertexMaxLevel v ≤ t.store.vertexMaxLevel v
  index : t.store.index v = s₀.index v ∨ Updated v inputs t.store
  before : t.phase = .before → t.store = s₀
  running : t.phase = .running → t.store.level0 = s₀.level0 ∧
    ∃ j, t.store.job = some j ∧ j.level = 0 ∧ j.inputs0 = inputs ∧
      ∀ f ∈ inputs, f.timeStamp ≤ j.minLevel0Fid
  ended : t.phase = .ended → t.store.level0 = Store.removeCache inputs s₀.level0

/-- The start of a compaction of level 0 changes nothing that a scan reads. -/
theorem pick_frame (h : Store.pick o 0 s = some s') :
    s'.level0 = s.level0 ∧ s'.index = s.index ∧ s'.vertexMaxLevel = s.vertexMaxLevel ∧
      ∃ j, s'.job = some j ∧ j.level = 0 ∧ ∀ f ∈ j.inputs0, f.timeStamp ≤ j.minLevel0Fid := by
  obtain ⟨-, -, -, sel, -, -, ⟨h0, -⟩ | ⟨hm, rfl⟩⟩ := Store.pick_cases h
  · exact absurd rfl h0
  · exact ⟨rfl, rfl, rfl, _, rfl, rfl, fun f hf => Store.le_maxInputFid hf⟩

theorem pending_of_next {j : Job} {fid : Nat} (h : (j.next o fid).Pending v) : j.Pending v := by
  obtain ⟨r, hr, hsrc⟩ := h
  refine ⟨r, ?_, hsrc⟩
  rw [← j.output_append o]
  exact List.mem_append_right _ hr

/-- The end of a file updates the vertex, or leaves it as it is. -/
theorem writeEnd_frame {j : Job} (h : Store.writeEnd o s = some s') (hj : s.job = some j)
    (hlevel : j.level = 0) :
    s'.level0 = s.level0 ∧ ∃ fid, s'.job = some (j.next o fid) ∧
      (s'.index v = s.index v ∧ s'.vertexMaxLevel v = s.vertexMaxLevel v ∨
        j.Pending v ∧ ¬ (j.next o fid).Pending v ∧
          (s'.index v).minLevel0Fid = j.minLevel0Fid + 1 ∧
          s.vertexMaxLevel v ≤ s'.vertexMaxLevel v) := by
  obtain ⟨j', hj', -, ⟨-, rfl⟩ | ⟨-, hr, rfl⟩⟩ := Store.writeEnd_cases h
  · rw [hj] at hj'
    cases hj'
    exact ⟨rfl, _, rfl, Or.inl ⟨rfl, rfl⟩⟩
  · rw [hj] at hj'
    cases hj'
    refine ⟨rfl, _, rfl, ?_⟩
    unfold Store.installed
    dsimp only
    cases hoff : (j.outputFile o hr).offsets v with
    | none => exact Or.inl ⟨rfl, rfl⟩
    | some p =>
      obtain ⟨r, hrec, hsrc⟩ := SSTable.has_of_offsets hoff
      refine Or.inr ⟨⟨r, ?_, hsrc⟩, ?_, ?_, Int.le_max_left _ _⟩
      · rw [← j.output_append o]
        exact List.mem_append_left _ hrec
      · rintro ⟨q, hq, hqsrc⟩
        have hlt := Store.output_src_lt r hrec q hq
        omega
      · simp only [MulLevelIndex.install, if_pos hlevel]

theorem finish_frame {j : Job} (h : Store.finish s = some s') (hj : s.job = some j)
    (hlevel : j.level = 0) :
    s'.level0 = Store.removeCache j.inputs0 s.level0 ∧ s'.index = s.index ∧
      s'.vertexMaxLevel = s.vertexMaxLevel ∧ s'.job = none := by
  obtain ⟨j', hj', -, rfl⟩ := Store.finish_cases h
  rw [hj] at hj'
  cases hj'
  exact ⟨if_pos hlevel, rfl, rfl, rfl⟩

/-- Once the vertex has been updated, its index stays. -/
structure Settled (v : Nat) (inputs : List SSTable) (s s' : Store) : Prop where
  updated : Updated v inputs s'
  index : s'.index v = s.index v
  level : s'.vertexMaxLevel v = s.vertexMaxLevel v

variable {s₀ : Store} {inputs : List SSTable} {t t' : State}

theorem progress_pick (h : Progress v s₀ inputs t) (hphase : t.phase = .before)
    {store : Store} (hpick : Store.pick o 0 t.store = some store) :
    ∃ inputs', Progress v s₀ inputs' { t with store, phase := .running } := by
  obtain ⟨hlevel0, hindex, hmax, j, hj, hlevel, hfids⟩ := pick_frame hpick
  rw [h.before hphase] at hlevel0 hindex hmax
  refine ⟨j.inputs0, ?_, Or.inl ?_, (fun hc => nomatch hc), fun _ => ?_, (fun hc => nomatch hc)⟩
  · exact Int.le_of_eq (congrFun hmax v).symm
  · exact congrFun hindex v
  · exact ⟨hlevel0, j, hj, hlevel, rfl, hfids⟩

theorem settled_writeEnd {j : Job} {store : Store} (hup : Updated v inputs t.store)
    (hj : t.store.job = some j) (hlevel : j.level = 0)
    (hend : Store.writeEnd o t.store = some store) : Settled v inputs t.store store := by
  obtain ⟨-, fid, hj', ⟨hindex, hmax⟩ | ⟨hpending, -⟩⟩ := writeEnd_frame (v := v) hend hj hlevel
  · refine ⟨⟨hindex ▸ hup.watermark, fun j₁ hj₁ hpending => ?_⟩, hindex, hmax⟩
    rw [hj'] at hj₁
    cases hj₁
    exact hup.done j hj (pending_of_next hpending)
  · exact absurd hpending (hup.done j hj)

theorem progress_writeEnd (h : Progress v s₀ inputs t) (hphase : t.phase = .running)
    {store : Store} (hend : Store.writeEnd o t.store = some store) :
    Progress v s₀ inputs { t with store } := by
  obtain ⟨hlevel0, j, hj, hlevel, hinputs, hfids⟩ := h.running hphase
  obtain ⟨hsame, fid, hj', hcases⟩ := writeEnd_frame (v := v) hend hj hlevel
  have hnot : ∀ {p}, t.phase = p → p ≠ .running → False := fun hp hne =>
    hne (hp.symm.trans hphase)
  refine ⟨?_, ?_, fun hc => (hnot hc (by decide)).elim, fun _ => ?_,
    fun hc => (hnot hc (by decide)).elim⟩
  · obtain ⟨-, hmax⟩ | ⟨-, -, -, hmax⟩ := hcases
    · exact hmax ▸ h.level_le
    · exact Int.le_trans h.level_le hmax
  · obtain hindex | hup := h.index
    · obtain ⟨heq, -⟩ | ⟨-, hdone, hmark, -⟩ := hcases
      · exact Or.inl (heq.trans hindex)
      · refine Or.inr ⟨fun f hf => ?_, fun j₁ hj₁ => ?_⟩
        · rw [hmark]
          exact Nat.lt_succ_of_le (hfids f hf)
        · rw [hj'] at hj₁
          cases hj₁
          exact hdone
    · exact Or.inr (settled_writeEnd hup hj hlevel hend).updated
  · exact ⟨hsame.trans hlevel0, _, hj', hlevel, hinputs, hfids⟩

theorem settled_finish {j : Job} {store : Store} (hup : Updated v inputs t.store)
    (hj : t.store.job = some j) (hlevel : j.level = 0)
    (hend : Store.finish t.store = some store) : Settled v inputs t.store store := by
  obtain ⟨-, hindex, hmax, hnone⟩ := finish_frame hend hj hlevel
  refine ⟨⟨?_, fun j₁ hj₁ => ?_⟩, congrFun hindex v, congrFun hmax v⟩
  · rw [hindex]
    exact hup.watermark
  · rw [hnone] at hj₁
    cases hj₁

theorem progress_finish (h : Progress v s₀ inputs t) (hphase : t.phase = .running)
    {store : Store} (hend : Store.finish t.store = some store) :
    Progress v s₀ inputs { t with store, phase := .ended } := by
  obtain ⟨hlevel0, j, hj, hlevel, hinputs, -⟩ := h.running hphase
  obtain ⟨hremoved, hindex, hmax, -⟩ := finish_frame hend hj hlevel
  refine ⟨?_, ?_, (fun hc => nomatch hc), (fun hc => nomatch hc), fun _ => ?_⟩
  · exact Int.le_trans h.level_le (Int.le_of_eq (congrFun hmax v).symm)
  · obtain hold | hup := h.index
    · exact Or.inl ((congrFun hindex v).trans hold)
    · exact Or.inr (settled_finish hup hj hlevel hend).updated
  · rw [← hinputs, ← hlevel0]
    exact hremoved

/-! ## The scan -/

/-- What the scan has, and of which time it is. -/
inductive Reads (v : Nat) (s₀ : Store) (inputs : List SSTable) (t : State) : Prop
  | nothing (version : t.version = none) (findex : t.findex = none) (level : t.maxLevel = none)
  | old (version : t.version = some s₀.level0) (findex : ∀ ix ∈ t.findex, ix = s₀.index v)
      (level : ∀ m ∈ t.maxLevel, s₀.vertexMaxLevel v ≤ m)
      (order : t.findex = none → t.maxLevel = none)
  | mixed (version : t.version = some s₀.level0) (started : t.phase ≠ .before)
      (updated : Updated v inputs t.store) (findex : t.findex = some (t.store.index v))
      (level : ∀ m ∈ t.maxLevel, m = t.store.vertexMaxLevel v)
  | new (ended : t.phase = .ended) (version : t.version = some t.store.level0)
      (findex : ∀ ix ∈ t.findex, ix = t.store.index v)
      (level : ∀ m ∈ t.maxLevel, m = t.store.vertexMaxLevel v)

/-- What holds in every state. -/
def Inv (v : Nat) (s₀ : Store) (t : State) : Prop :=
  ∃ inputs, Progress v s₀ inputs t ∧ Reads v s₀ inputs t

/-- A step of the compaction leaves what the scan has as it is. -/
theorem reads_of_settled {store : Store} {phase : Phase} (h : Reads v s₀ inputs t)
    (hended : t.phase ≠ .ended) (hstarted : t.phase ≠ .before → phase ≠ .before)
    (hsettled : Updated v inputs t.store → Settled v inputs t.store store) :
    Reads v s₀ inputs { t with store, phase } := by
  cases h with
  | nothing version findex level => exact .nothing version findex level
  | old version findex level order => exact .old version findex level order
  | mixed version started updated findex level =>
    obtain ⟨hup, hindex, hmax⟩ := hsettled updated
    refine .mixed version (hstarted started) hup ?_ ?_
    · exact findex.trans (congrArg some hindex.symm)
    · exact fun m hm => (level m hm).trans hmax.symm
  | new ended => exact absurd ended hended

theorem inv_captureVersion (h : Inv v s₀ t) (hnone : t.version = none) :
    Inv v s₀ { t with version := some t.store.level0 } := by
  obtain ⟨inputs, hprogress, hreads⟩ := h
  refine ⟨inputs, ⟨hprogress.level_le, hprogress.index, hprogress.before, hprogress.running,
    hprogress.ended⟩, ?_⟩
  have hempty : t.findex = none ∧ t.maxLevel = none := by
    cases hreads with
    | nothing _ findex level => exact ⟨findex, level⟩
    | old version => rw [version] at hnone; cases hnone
    | mixed version => rw [version] at hnone; cases hnone
    | new _ version => rw [version] at hnone; cases hnone
  have hfindex : ∀ ix₀, ∀ ix ∈ t.findex, ix = ix₀ := by
    intro ix₀ ix hix
    rw [hempty.1] at hix
    cases hix
  have hlevel : ∀ (p : Int → Prop), ∀ m ∈ t.maxLevel, p m := by
    intro p m hm
    rw [hempty.2] at hm
    cases hm
  by_cases hphase : t.phase = .ended
  · exact .new hphase rfl (hfindex _) (hlevel _)
  · refine .old (congrArg some ?_) (hfindex _) (hlevel _) fun _ => hempty.2
    cases hcase : t.phase with
    | before => rw [hprogress.before hcase]
    | running => exact (hprogress.running hcase).1
    | ended => exact absurd hcase hphase

theorem inv_copyIndex (h : Inv v s₀ t) (hversion : t.version.isSome) (hnone : t.findex = none) :
    Inv v s₀ { t with findex := some (t.store.index v) } := by
  obtain ⟨inputs, hprogress, hreads⟩ := h
  refine ⟨inputs, ⟨hprogress.level_le, hprogress.index, hprogress.before, hprogress.running,
    hprogress.ended⟩, ?_⟩
  have hself : ∀ ix ∈ some (t.store.index v), ix = t.store.index v := fun ix hix =>
    (Option.mem_some_iff.mp hix).symm
  cases hreads with
  | nothing version =>
    rw [version] at hversion
    cases hversion
  | old version findex level order =>
    obtain hindex | hup := hprogress.index
    · exact .old version (fun ix hix => (hself ix hix).trans hindex) level fun hc => nomatch hc
    · by_cases hphase : t.phase = .before
      · have hstore := hprogress.before hphase
        refine .old version (fun ix hix => (hself ix hix).trans ?_) level fun hc => nomatch hc
        rw [hstore]
      · refine .mixed version hphase hup rfl fun m hm => ?_
        change m ∈ t.maxLevel at hm
        rw [order hnone] at hm
        cases hm
  | mixed _ _ _ findex =>
    rw [findex] at hnone
    cases hnone
  | new ended version findex level => exact .new ended version hself level

theorem inv_loadMaxLevel (h : Inv v s₀ t) (hfindex : t.findex.isSome) :
    Inv v s₀ { t with maxLevel := some (t.store.vertexMaxLevel v) } := by
  obtain ⟨inputs, hprogress, hreads⟩ := h
  refine ⟨inputs, ⟨hprogress.level_le, hprogress.index, hprogress.before, hprogress.running,
    hprogress.ended⟩, ?_⟩
  have hself : ∀ m ∈ some (t.store.vertexMaxLevel v), m = t.store.vertexMaxLevel v := fun m hm =>
    (Option.mem_some_iff.mp hm).symm
  cases hreads with
  | nothing _ findex =>
    rw [findex] at hfindex
    cases hfindex
  | old version findex =>
    refine .old version findex (fun m hm => ?_) fun hc => ?_
    · rw [hself m hm]
      exact hprogress.level_le
    · change t.findex = none at hc
      rw [hc] at hfindex
      cases hfindex
  | mixed version started updated findex => exact .mixed version started updated findex hself
  | new ended version findex => exact .new ended version findex hself

theorem inv_step {a : Action} (h : Inv v s₀ t) (hstep : step o v t a = some t') : Inv v s₀ t' := by
  cases a with
  | pick =>
    simp only [step] at hstep
    split at hstep
    · rename_i hphase
      obtain ⟨store, hpick, rfl⟩ := Option.map_eq_some_iff.mp hstep
      obtain ⟨inputs, hprogress, hreads⟩ := h
      obtain ⟨inputs', hprogress'⟩ := progress_pick hprogress hphase hpick
      refine ⟨inputs', hprogress', ?_⟩
      cases hreads with
      | nothing version findex level => exact .nothing version findex level
      | old version findex level order => exact .old version findex level order
      | mixed _ started => exact absurd hphase started
      | new ended =>
        rw [ended] at hphase
        cases hphase
    · cases hstep
  | writeEnd =>
    simp only [step] at hstep
    split at hstep
    · rename_i hphase
      obtain ⟨store, hend, rfl⟩ := Option.map_eq_some_iff.mp hstep
      obtain ⟨inputs, hprogress, hreads⟩ := h
      obtain ⟨-, j, hj, hlevel, -⟩ := hprogress.running hphase
      refine ⟨inputs, progress_writeEnd hprogress hphase hend, ?_⟩
      exact reads_of_settled hreads (by rw [hphase]; decide) id fun hup =>
        settled_writeEnd hup hj hlevel hend
    · cases hstep
  | finish =>
    simp only [step] at hstep
    split at hstep
    · rename_i hphase
      obtain ⟨store, hend, rfl⟩ := Option.map_eq_some_iff.mp hstep
      obtain ⟨inputs, hprogress, hreads⟩ := h
      obtain ⟨-, j, hj, hlevel, -⟩ := hprogress.running hphase
      refine ⟨inputs, progress_finish hprogress hphase hend, ?_⟩
      exact reads_of_settled hreads (by rw [hphase]; decide) (fun _ => by decide) fun hup =>
        settled_finish hup hj hlevel hend
    · cases hstep
  | captureVersion =>
    simp only [step] at hstep
    split at hstep
    · rename_i hnone
      cases hstep
      exact inv_captureVersion h (Option.isNone_iff_eq_none.mp hnone)
    · cases hstep
  | copyIndex =>
    simp only [step] at hstep
    split at hstep
    · rename_i hguard
      cases hstep
      exact inv_copyIndex h hguard.1 (Option.isNone_iff_eq_none.mp hguard.2)
    · cases hstep
  | loadMaxLevel =>
    simp only [step] at hstep
    split at hstep
    · rename_i hguard
      cases hstep
      exact inv_loadMaxLevel h hguard.1
    · cases hstep

theorem inv_start (v : Nat) (s₀ : Store) : Inv v s₀ (start s₀) :=
  ⟨[], ⟨Int.le_refl _, Or.inl rfl, fun _ => rfl, (fun hc => nomatch hc), (fun hc => nomatch hc)⟩,
    .nothing rfl rfl rfl⟩

/-! ## Whole interleavings -/

/-- A scan that has all it reads keeps it. -/
theorem reads_kept {version : List SSTable} {findex : MulLevelIndex} {maxLevel : Int}
    (hversion : t.version = some version) (hfindex : t.findex = some findex)
    (hlevel : t.maxLevel = some maxLevel) (h : Lib.Reach (step o v) Lib.AnyStep t t') :
    t'.version = some version ∧ t'.findex = some findex ∧ t'.maxLevel = some maxLevel := by
  induction h with
  | start => exact ⟨hversion, hfindex, hlevel⟩
  | @step t₁ t₂ a _ _ hstep ih =>
    obtain ⟨h1, h2, h3⟩ := ih
    cases a <;> simp only [step] at hstep <;> split at hstep
    case captureVersion.isTrue hnone =>
      rw [h1] at hnone
      cases hnone
    case copyIndex.isTrue hguard =>
      rw [h2] at hguard
      cases hguard.2
    case loadMaxLevel.isTrue hguard =>
      rw [h3] at hguard
      cases hguard.2
    all_goals first
      | cases hstep
      | obtain ⟨store, -, rfl⟩ := Option.map_eq_some_iff.mp hstep
        exact ⟨h1, h2, h3⟩

theorem exists_writeEnd {j : Job} (hj : s.job = some j) (hrest : j.rest ≠ []) :
    ∃ s', Store.writeEnd o s = some s' := by
  unfold Store.writeEnd
  rw [hj]
  dsimp only
  rw [dif_neg hrest]
  split
  · exact ⟨_, rfl⟩
  · exact ⟨_, rfl⟩

theorem exists_finish {j : Job} (hj : s.job = some j) (hrest : j.rest = []) :
    ∃ s', Store.finish s = some s' := by
  unfold Store.finish
  rw [hj]
  exact ⟨_, if_pos hrest⟩

theorem length_next {j : Job} {fid : Nat} (hrest : j.rest ≠ []) :
    (j.next o fid).rest.length < j.rest.length := by
  have hlen := congrArg List.length (j.output_append o)
  have hne : 0 < (j.output o).1.length := List.length_pos_iff.mpr (takeFile_ne_nil hrest)
  rw [List.length_append] at hlen
  change (j.output o).2.length < _
  omega

/-- A compaction that runs can end. -/
theorem can_end {j : Job} (hphase : t.phase = .running) (hj : t.store.job = some j)
    (hlevel : j.level = 0) : ∃ t', Lib.Reach (step o v) Lib.AnyStep t t' ∧ t'.phase = .ended := by
  -- every file takes records from those that are left
  induction hn : j.rest.length using Nat.strong_induction_on generalizing t j with
  | _ n ih =>
    by_cases hrest : j.rest = []
    · obtain ⟨store, hfinish⟩ := exists_finish hj hrest
      have hstep : step o v t .finish = some { t with store, phase := .ended } := by
        simp only [step, if_pos hphase, hfinish, Option.map_some]
      exact ⟨_, Lib.Reach.start.step trivial hstep, rfl⟩
    · obtain ⟨store, hend⟩ := exists_writeEnd (o := o) hj hrest
      obtain ⟨-, fid, hj', -⟩ := writeEnd_frame (v := v) hend hj hlevel
      have hstep : step o v t .writeEnd = some { t with store } := by
        simp only [step, if_pos hphase, hend, Option.map_some]
      obtain ⟨t', hreach, hended⟩ := ih (j.next o fid).rest.length (hn ▸ length_next hrest)
        (t := { t with store }) hphase hj' hlevel rfl
      exact ⟨t', (Lib.Reach.start.step trivial hstep).trans hreach, hended⟩

/-! ## What a scan selects -/

/-- In any order of the steps of a scan and of a compaction of level 0, the scan takes the files
and the ranges of the state before the compaction, or those of the state that the compaction
ends in. -/
theorem a_scan_selects_before_or_after
    (hstore : Lib.Reach (Store.step o) Lib.AnyStep (Store.initial o) s)
    (h : Lib.Reach (step o v) Lib.AnyStep (start s) t)
    {version : List SSTable} {findex : MulLevelIndex} {maxLevel : Int}
    (hversion : t.version = some version) (hfindex : t.findex = some findex)
    (hlevel : t.maxLevel = some maxLevel) :
    select v version findex maxLevel = selection v s ∨
      ((∃ t', Lib.Reach (step o v) Lib.AnyStep t t' ∧ t'.phase = .ended) ∧
        ∀ t', Lib.Reach (step o v) Lib.AnyStep t t' → t'.phase = .ended →
          select v version findex maxLevel = selection v t'.store) := by
  have hinv : ∀ t', Lib.Reach (step o v) Lib.AnyStep t t' → Inv v s t' := fun t' h' =>
    (h.trans h').invariant (inv_start v s) fun _ _ _ hinv _ hs => inv_step hinv hs
  by_cases hbefore : select v version findex maxLevel = selection v s
  · exact Or.inl hbefore
  -- a scan with the old index selects what was there before, whenever it is looked at
  have hnotold : ∀ t' : State, t'.version = some version → t'.findex = some findex →
      t'.maxLevel = some maxLevel → t'.version = some s.level0 →
      (∀ ix ∈ t'.findex, ix = s.index v) → (∀ m ∈ t'.maxLevel, s.vertexMaxLevel v ≤ m) → False := by
    intro t' h1 h2 h3 hold hix hm
    rw [h1] at hold
    cases hold
    rw [hix findex h2] at hbefore
    exact hbefore (select_of_deeper (Store.levelsReached_of_reach hstore) (hm maxLevel h3))
  refine Or.inr ⟨?_, fun t' h' hended => ?_⟩
  · obtain ⟨inputs, hprogress, hreads⟩ := hinv t .start
    cases hphase : t.phase with
    | before =>
      cases hreads with
      | nothing hnone => rw [hnone] at hversion; cases hversion
      | old hold hix hm => exact (hnotold t hversion hfindex hlevel hold hix hm).elim
      | mixed _ started => exact absurd hphase started
      | new ended => rw [ended] at hphase; cases hphase
    | running =>
      obtain ⟨-, j, hj, hzero, -⟩ := hprogress.running hphase
      exact can_end hphase hj hzero
    | ended => exact ⟨t, .start, hphase⟩
  · obtain ⟨inputs, hprogress, hreads⟩ := hinv t' h'
    obtain ⟨h1, h2, h3⟩ := reads_kept hversion hfindex hlevel h'
    cases hreads with
    | nothing hnone => rw [hnone] at h1; cases h1
    | old hold hix hm => exact (hnotold t' h1 h2 h3 hold hix hm).elim
    | mixed hold _ updated hix hm =>
      rw [h1] at hold
      rw [h2] at hix
      cases hold
      cases hix
      unfold selection
      rw [hm maxLevel h3, hprogress.ended hended, select_of_watermark updated.watermark]
    | new _ hnew hix hm =>
      rw [h1] at hnew
      cases hnew
      rw [hix findex h2, hm maxLevel h3]
      rfl

/-- A scan with the version from before the compaction and the index from after its file. -/
theorem a_scan_beside_a_compaction :
    ∃ s t version findex maxLevel,
      Lib.Reach (Store.step Store.smallStore) Lib.AnyStep (Store.initial Store.smallStore) s ∧
      Lib.Reach (step Store.smallStore 1) Lib.AnyStep (start s) t ∧
      (t.version = some version ∧ t.findex = some findex ∧ t.maxLevel = some maxLevel) ∧
      (select 1 version findex maxLevel = selection 1 s ∨
        ((∃ t', Lib.Reach (step Store.smallStore 1) Lib.AnyStep t t' ∧ t'.phase = .ended) ∧
          ∀ t', Lib.Reach (step Store.smallStore 1) Lib.AnyStep t t' → t'.phase = .ended →
            select 1 version findex maxLevel = selection 1 t'.store)) := by
  obtain ⟨s, hs, hscan⟩ := Lib.exists_reach_of_run (Store.step Store.smallStore) Lib.AnyStep
    (Store.initial Store.smallStore)
    [Store.putOneTwo (bytes "a"), .putEdge 1 3 (bytes "b") .kSingle true 0, .publish 0, .publish 1]
    (fun s => (Lib.run (step Store.smallStore 1) Lib.AnyStep (start s)
      [.captureVersion, .pick, .writeEnd, .copyIndex, .loadMaxLevel]).any
      (fun t => decide (t.version.isSome ∧ t.findex.isSome ∧ t.maxLevel.isSome)) = true)
    (by decide +kernel)
  obtain ⟨t, ht, hversion, hfindex, hlevel⟩ := Lib.exists_reach_of_run (step Store.smallStore 1)
    Lib.AnyStep (start s) _ _ hscan
  obtain ⟨version, hversion⟩ := Option.isSome_iff_exists.mp hversion
  obtain ⟨findex, hfindex⟩ := Option.isSome_iff_exists.mp hfindex
  obtain ⟨maxLevel, hlevel⟩ := Option.isSome_iff_exists.mp hlevel
  exact ⟨s, t, version, findex, maxLevel, hs, ht, ⟨hversion, hfindex, hlevel⟩,
    a_scan_selects_before_or_after hs ht hversion hfindex hlevel⟩

end ScanInterleavings

end RichGraph
