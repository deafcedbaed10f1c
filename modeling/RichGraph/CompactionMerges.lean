-- What the merges of a compaction hand to the writer. Level 0 merges a lane for each
-- file, a deeper level merges two lanes, and a worker of level 0 merges the lanes of
-- its anchors. The last one compares the sources as numbers of 32 bits.
import RichGraph.CompactionWays
import RichGraph.SubCompactions

namespace RichGraph

open SubCompactions

namespace Compaction

/-! ## All files at once -/

/-- The ways that `PreCompaction` makes. -/
def preCompaction (inputs0 inputs1 : List SSTable) : List Way :=
  inputs0.map (Way.ofFile true) ++ inputs1.map (Way.ofFile false)

/-- What `ProcessMultiWaysCompaction` writes, if it ends within the fuel. -/
def processMultiWaysCompaction (fuel : Nat) (ways : List Way) : Option (List EdgeRecord) :=
  (Lanes.start (ways.map fun w => [w])).loop fuel

theorem waysGive_ofFile {w : Way} {f : SSTable} (hw : w.init.Gives f.records) :
    WaysGive [w] f.records := by
  cases hrs : f.records with
  | nil => exact absurd hrs f.nonempty
  | cons r rs =>
    rw [hrs] at hw
    simpa using WaysGive.cons hw WaysGive.nil

theorem waysGive_preCompaction (inputs0 inputs1 : List SSTable) :
    List.Forall₂ WaysGive ((preCompaction inputs0 inputs1).map fun w => [w])
      ((inputs0 ++ inputs1).map SSTable.records) := by
  have hfiles : ∀ (b : Bool) (fs : List SSTable),
      List.Forall₂ WaysGive ((fs.map (Way.ofFile b)).map fun w => [w])
        (fs.map SSTable.records) := by
    intro b fs
    induction fs with
    | nil => exact List.Forall₂.nil
    | cons f fs ih => exact List.Forall₂.cons (waysGive_ofFile (Way.gives_ofFile b f)) ih
  unfold preCompaction
  rw [List.map_append, List.map_append]
  exact List.rel_append (hfiles true inputs0) (hfiles false inputs1)

/-- The loop does what the merge of the model says. -/
theorem processMultiWaysCompaction_eq (inputs0 inputs1 : List SSTable) {fuel : Nat}
    (hfuel : ((inputs0 ++ inputs1).flatMap SSTable.records).length < fuel) :
    processMultiWaysCompaction fuel (preCompaction inputs0 inputs1) =
      some (mergeInputs 0 inputs0 inputs1) := by
  have hne : ∀ w ∈ (inputs0 ++ inputs1).map SSTable.records, w ≠ [] := by
    intro w hw
    obtain ⟨f, -, rfl⟩ := List.mem_map.mp hw
    exact f.nonempty
  have hruns := Lanes.runs_start (waysGive_preCompaction inputs0 inputs1) hne
  rw [List.flatMap_def] at hfuel
  exact hruns.loop hfuel

/-! ## Two levels -/

/-- The variables of `DoCompactionWorkTwoWay`: the ways of the level from `level_way_ptr` on, and
those of the next level, each with its cached record. -/
structure TwoWay where
  level : Option Lane
  nextLevel : Option Lane
  workWay : Nat
  /-- `min_edge_index == 1` -/
  fromNext : Bool
  written : List EdgeRecord

namespace TwoWay

/-- A level that has ended leaves the other one; of equal records the level goes first. -/
def findMin : Option Lane → Option Lane → Bool
  | none, _ => true
  | some _, none => false
  | some l, some l' => decide (l'.edge.lt l.edge)

def start (ways0 ways1 : List Way) : TwoWay where
  level := Lane.start ways0
  nextLevel := Lane.start ways1
  workWay := ways0.length + ways1.length
  fromNext := findMin (Lane.start ways0) (Lane.start ways1)
  written := []

def turn (s : TwoWay) : Option TwoWay :=
  match if s.fromNext then s.nextLevel else s.level with
  | none => none
  | some l =>
    let level := if s.fromNext then s.level else l.advance
    let nextLevel := if s.fromNext then l.advance else s.nextLevel
    some
      { level, nextLevel
        workWay := if l.ends then s.workWay - 1 else s.workWay
        fromNext := findMin level nextLevel
        written := s.written ++ [l.edge] }

/-- `while (work_way > 0)` -/
def loop : Nat → TwoWay → Option (List EdgeRecord)
  | 0, _ => none
  | fuel + 1, s => if s.workWay = 0 then some s.written else s.turn.bind (loop fuel)

end TwoWay

/-- What `DoCompactionWorkTwoWay` writes, if it ends within the fuel. -/
def doCompactionWorkTwoWay (fuel : Nat) (inputs0 inputs1 : List SSTable) :
    Option (List EdgeRecord) :=
  (TwoWay.start (inputs0.map (Way.ofFile true)) (inputs1.map (Way.ofFile false))).loop fuel

namespace TwoWay

/-- The ways of a lane that have not ended. -/
def waysLeft : Option Lane → Nat
  | none => 0
  | some l => l.later.length + 1

/-- The loop has these two runs left. -/
structure Runs (s : TwoWay) (rs rs' : List EdgeRecord) : Prop where
  level : LaneHolds s.level rs
  nextLevel : LaneHolds s.nextLevel rs'
  work : s.workWay = waysLeft s.level + waysLeft s.nextLevel
  least : s.fromNext = findMin s.level s.nextLevel

theorem waysLeft_start {ws : List Way} {rs : List EdgeRecord} (h : WaysGive ws rs) :
    waysLeft (Lane.start ws) = ws.length := by
  cases h with
  | nil => rfl
  | @cons w ws r rs rest hw hws =>
    obtain ⟨w', hnext, -⟩ := hw
    rw [Lane.start, hnext]
    rfl

theorem waysLeft_advance {l : Lane} {rs : List EdgeRecord} (h : LaneHolds (some l) rs) :
    waysLeft l.advance + (if l.ends then 1 else 0) = waysLeft (some l) := by
  cases h with
  | @reads l front rest hfront hrest =>
    unfold Lane.advance Lane.ends
    cases hnext : l.opened.nextEdgeRecord with
    | none =>
      simp only [Option.isNone_none, if_true]
      rw [waysLeft_start hrest]
      rfl
    | some p => rfl

/-- The counter goes down when a way ends. -/
theorem work_advance {l : Lane} {rs : List EdgeRecord} {work others : Nat}
    (h : LaneHolds (some l) rs) (hwork : work = waysLeft (some l) + others) :
    (if l.ends then work - 1 else work) = waysLeft l.advance + others := by
  have hways := waysLeft_advance h
  split at hways
  · rename_i hends
    rw [if_pos hends]
    omega
  · rename_i hends
    rw [if_neg hends]
    omega

variable {s : TwoWay} {rs rs' : List EdgeRecord}

theorem turn_of_some {l : Lane} (h : (if s.fromNext then s.nextLevel else s.level) = some l) :
    ∃ s', s.turn = some s' ∧ s'.written = s.written ++ [l.edge] ∧
      s'.level = (if s.fromNext then s.level else l.advance) ∧
      s'.nextLevel = (if s.fromNext then l.advance else s.nextLevel) ∧
      s'.workWay = (if l.ends then s.workWay - 1 else s.workWay) ∧
      s'.fromNext = findMin s'.level s'.nextLevel := by
  unfold turn
  rw [h]
  exact ⟨_, rfl, rfl, rfl, rfl, rfl, rfl⟩

/-- A turn that takes the head of the level. -/
theorem Runs.turn_level {r : EdgeRecord} (h : Runs s (r :: rs) rs') (hfrom : s.fromNext = false) :
    ∃ s', s.turn = some s' ∧ Runs s' rs rs' ∧ s'.written = s.written ++ [r] := by
  obtain ⟨hlevel, hnext, hwork, hleast⟩ := h
  cases hl : s.level with
  | none =>
    rw [hl] at hlevel
    cases hlevel
  | some l =>
    rw [hl] at hlevel hwork
    have hpick : (if s.fromNext then s.nextLevel else s.level) = some l := by rw [hfrom, ← hl]; rfl
    obtain ⟨s', hturn, hwritten, hlevel', hnext', hwork', hfrom'⟩ := turn_of_some hpick
    rw [hfrom] at hlevel' hnext'
    refine ⟨s', hturn, ⟨?_, ?_, ?_, hfrom'⟩, by rw [hwritten, hlevel.edge]⟩
    · rw [hlevel']
      exact hlevel.advance
    · rw [hnext']
      exact hnext
    · rw [hwork', hlevel', hnext', work_advance hlevel hwork]
      rfl

/-- A turn that takes the head of the next level. -/
theorem Runs.turn_nextLevel {r : EdgeRecord} (h : Runs s rs (r :: rs'))
    (hfrom : s.fromNext = true) :
    ∃ s', s.turn = some s' ∧ Runs s' rs rs' ∧ s'.written = s.written ++ [r] := by
  obtain ⟨hlevel, hnext, hwork, hleast⟩ := h
  cases hl : s.nextLevel with
  | none =>
    rw [hl] at hnext
    cases hnext
  | some l =>
    rw [hl] at hnext hwork
    have hpick : (if s.fromNext then s.nextLevel else s.level) = some l := by rw [hfrom, ← hl]; rfl
    obtain ⟨s', hturn, hwritten, hlevel', hnext', hwork', hfrom'⟩ := turn_of_some hpick
    rw [hfrom] at hlevel' hnext'
    refine ⟨s', hturn, ⟨?_, ?_, ?_, hfrom'⟩, by rw [hwritten, hnext.edge]⟩
    · rw [hlevel']
      exact hlevel
    · rw [hnext']
      exact hnext.advance
    · rw [Nat.add_comm] at hwork
      rw [hwork', hlevel', hnext', work_advance hnext hwork, Nat.add_comm]
      rfl

/-- One turn writes the least head. -/
theorem Runs.turn (h : Runs s rs rs') (hwork : s.workWay ≠ 0) :
    ∃ x ws ws' s', Lib.leastHead EdgeRecord.lt [rs, rs'] = some (x, [ws, ws']) ∧
      s.turn = some s' ∧ Runs s' ws ws' ∧ s'.written = s.written ++ [x] := by
  cases rs with
  | nil =>
    have hlevel := h.level.eq_none
    cases rs' with
    | nil =>
      rw [h.work, hlevel, h.nextLevel.eq_none] at hwork
      exact absurd rfl hwork
    | cons r' rs' =>
      have hfrom : s.fromNext = true := by
        rw [h.least, hlevel]
        rfl
      obtain ⟨s', hturn, hruns, hwritten⟩ := h.turn_nextLevel hfrom
      exact ⟨r', [], rs', s', rfl, hturn, hruns, hwritten⟩
  | cons r rs =>
    obtain ⟨l, hl, hedge⟩ := h.level.exists_lane
    cases rs' with
    | nil =>
      have hfrom : s.fromNext = false := by
        rw [h.least, hl, h.nextLevel.eq_none]
        rfl
      obtain ⟨s', hturn, hruns, hwritten⟩ := h.turn_level hfrom
      exact ⟨r, rs, [], s', rfl, hturn, hruns, hwritten⟩
    | cons r' rs' =>
      obtain ⟨l', hl', hedge'⟩ := h.nextLevel.exists_lane
      have hfrom : s.fromNext = decide (r'.lt r) := by
        rw [h.least, hl, hl', ← hedge, ← hedge']
        rfl
      by_cases hlt : r'.lt r
      · rw [decide_eq_true hlt] at hfrom
        obtain ⟨s', hturn, hruns, hwritten⟩ := h.turn_nextLevel hfrom
        exact ⟨r', r :: rs, rs', s', if_pos hlt, hturn, hruns, hwritten⟩
      · rw [decide_eq_false hlt] at hfrom
        obtain ⟨s', hturn, hruns, hwritten⟩ := h.turn_level hfrom
        exact ⟨r, rs, r' :: rs', s', if_neg hlt, hturn, hruns, hwritten⟩

theorem Runs.least_none (h : Runs s rs rs') (hwork : s.workWay = 0) :
    Lib.leastHead EdgeRecord.lt [rs, rs'] = none := by
  have hzero := h.work.symm.trans hwork
  have hends : ∀ {l : Option Lane} {rs : List EdgeRecord}, LaneHolds l rs → waysLeft l = 0 →
      rs = [] := by
    intro l rs hl hleft
    cases hl with
    | ended => rfl
    | reads _ _ => cases hleft
  rw [hends h.level (by omega), hends h.nextLevel (by omega)]
  rfl

/-- With enough fuel the loop ends, and it has merged both runs. -/
theorem Runs.loop (h : Runs s rs rs') {fuel : Nat} (hfuel : rs.length + rs'.length < fuel) :
    TwoWay.loop fuel s = some (s.written ++ Lib.mergeWays EdgeRecord.lt [rs, rs']) := by
  induction fuel generalizing s rs rs' with
  | zero => omega
  | succ fuel ih =>
    rw [TwoWay.loop]
    by_cases hwork : s.workWay = 0
    · rw [if_pos hwork, Lib.mergeWays_of_none (h.least_none hwork), List.append_nil]
    · obtain ⟨x, ws, ws', s', hleast, hturn, hruns, hwritten⟩ := h.turn hwork
      have hlen := (Lib.leastHead_perm hleast).length_eq
      simp only [List.flatten_cons, List.flatten_nil, List.append_nil, List.length_append,
        List.length_cons] at hlen
      rw [if_neg hwork, hturn, Option.bind_some, ih hruns (by omega), hwritten,
        Lib.mergeWays_of_some hleast, List.append_assoc]
      rfl

end TwoWay

theorem waysGive_files (b : Bool) (fs : List SSTable) :
    WaysGive (fs.map (Way.ofFile b)) (fs.flatMap SSTable.records) := by
  induction fs with
  | nil => exact WaysGive.nil
  | cons f fs ih =>
    have hf := Way.gives_ofFile b f
    rw [List.map_cons, List.flatMap_cons]
    cases hrs : f.records with
    | nil => exact absurd hrs f.nonempty
    | cons r rs =>
      rw [hrs] at hf
      exact WaysGive.cons hf ih

/-- The loop does what the merge of the model says. -/
theorem doCompactionWorkTwoWay_eq {level : Nat} (hlevel : 0 < level)
    (inputs0 inputs1 : List SSTable)
    {fuel : Nat} (hfuel : ((inputs0 ++ inputs1).flatMap SSTable.records).length < fuel) :
    doCompactionWorkTwoWay fuel inputs0 inputs1 = some (mergeInputs level inputs0 inputs1) := by
  have h0 := waysGive_files true inputs0
  have h1 := waysGive_files false inputs1
  have hruns : TwoWay.Runs
      (TwoWay.start (inputs0.map (Way.ofFile true)) (inputs1.map (Way.ofFile false)))
      (inputs0.flatMap SSTable.records) (inputs1.flatMap SSTable.records) := by
    refine ⟨.start h0, .start h1, ?_, rfl⟩
    exact (congrArg₂ (· + ·) (TwoWay.waysLeft_start h0) (TwoWay.waysLeft_start h1)).symm
  rw [List.flatMap_append, List.length_append] at hfuel
  unfold doCompactionWorkTwoWay mergeInputs
  rw [hruns.loop hfuel, if_neg (Nat.pos_iff_ne_zero.mp hlevel)]
  rfl

/-! ## What the writer gets -/

/-- No key lies in the ranges of two of the files. -/
def KeysDisjoint (files : List SSTable) : Prop :=
  files.Pairwise fun f g => f.maxKey < g.minKey ∨ g.maxKey < f.minKey

/-- The list of a level, which is kept in the order of the first keys. -/
def levelList (files : List SSTable) : List SSTable := files.foldr Store.insertFile []

theorem perm_levelList (files : List SSTable) : (levelList files).Perm files := by
  induction files with
  | nil => exact List.Perm.refl _
  | cons f files ih => exact (List.perm_orderedInsert _ f _).trans (ih.cons f)

theorem levelOrder_levelList {files : List SSTable} (h : KeysDisjoint files) :
    LevelOrder (levelList files) := by
  induction files with
  | nil => exact List.Pairwise.nil
  | cons f files ih =>
    obtain ⟨hf, hrest⟩ := List.pairwise_cons.mp h
    refine Lib.InKeyOrder.orderedInsert SSTable.minKey_le_maxKey (ih hrest) fun g hg => ?_
    exact (hf g ((perm_levelList files).mem_iff.mp hg)).symm

end Compaction

end RichGraph
