-- The compaction of level 0 with several workers. The inputs are cut into anchors at
-- common boundary keys, the anchors are dealt out in the order of their first keys,
-- and a worker merges its anchors. It takes the sources as numbers of 32 bits.
import RichGraph.CompactionMerges

namespace RichGraph

namespace Compaction

/-! ## Anchors -/

/-- `WayAnchor`: a range of index entries of a file. Both keys belong to it. -/
structure WayAnchor where
  beginKey : Nat
  endKey : Nat
  offset : Nat
  indexStartOffset : Nat
  indexNum : Nat
  rangeSize : Nat
  file : SSTable
  isInput0 : Bool

namespace WayAnchor

/-- The anchor is about entries of its file. -/
structure Cuts (a : WayAnchor) : Prop where
  pos : 0 < a.indexNum
  fits : a.indexStartOffset + a.indexNum ≤ a.file.sourceNum
  beginKey : a.beginKey = a.file.keyAt a.indexStartOffset
  endKey : a.endKey = a.file.keyAt (a.indexStartOffset + a.indexNum - 1)
  offset : a.offset = a.file.offsetAt a.indexStartOffset
  rangeSize : a.rangeSize = a.file.offsetAt (a.indexStartOffset + a.indexNum) - a.offset

/-- The records of the entries. -/
def records (a : WayAnchor) : List EdgeRecord :=
  a.file.slice (a.file.offsetAt a.indexStartOffset)
    (a.file.offsetAt (a.indexStartOffset + a.indexNum))

/-- The way of an anchor has one entry more, which ends it. -/
def way (a : WayAnchor) : Way :=
  { file := a.file, isInput0 := a.isInput0, indexStartOffset := a.indexStartOffset
    totalIndexCnt := a.indexNum + 1, indexPtr := 0, edgeStartOffset := 0, readCnt := 0 }

variable {a : WayAnchor}

theorem Cuts.offset_lt (h : a.Cuts) : a.file.offsetAt a.indexStartOffset <
    a.file.offsetAt (a.indexStartOffset + a.indexNum) := by
  have hpos := h.pos
  have hfits := h.fits
  exact Nat.lt_of_lt_of_le (SSTable.offsetAt_lt (by omega)) (SSTable.offsetAt_le (by omega) hfits)

theorem Cuts.gives (h : a.Cuts) : a.way.init.Gives a.records := by
  have hpos := h.pos
  have hfits := h.fits
  have hat : Way.At a.file a.indexStartOffset a.indexNum a.indexStartOffset
      (a.file.offsetAt a.indexStartOffset) a.way.init :=
    ⟨rfl, rfl, rfl, rfl, rfl, by omega, Nat.le_refl _,
      Nat.le_of_lt (SSTable.offsetAt_lt (by omega))⟩
  exact hat.gives hfits

/-- A record of an anchor is one of its file, at a place of its range. -/
theorem mem_records {r : EdgeRecord} (hr : r ∈ a.records) :
    ∃ q, a.file.records[q]? = some r ∧ a.file.offsetAt a.indexStartOffset ≤ q ∧
      q < a.file.offsetAt (a.indexStartOffset + a.indexNum) := by
  obtain ⟨i, hi⟩ := List.mem_iff_getElem?.mp hr
  have hlt := (List.getElem?_eq_some_iff.mp hi).1
  unfold records SSTable.slice at hi hlt
  rw [List.length_take] at hlt
  rw [List.getElem?_take_of_lt (by omega), List.getElem?_drop] at hi
  exact ⟨_, hi, by omega, by omega⟩

/-- The sources of an anchor lie between its keys. -/
theorem Cuts.src_between (h : a.Cuts) {r : EdgeRecord} (hr : r ∈ a.records) :
    a.beginKey ≤ r.src ∧ r.src ≤ a.endKey := by
  obtain ⟨q, hget, hq, hq'⟩ := mem_records hr
  obtain ⟨k, hk, hk', hplace, hplace'⟩ := SSTable.exists_entry_of_place hq hq'
  have hfits := h.fits
  obtain ⟨r', hr', hsrc⟩ := SSTable.record_at (by omega) hplace hplace'
  rw [hget] at hr'
  cases hr'
  rw [hsrc, h.beginKey, h.endKey]
  exact ⟨SSTable.keyAt_le hk (by omega), SSTable.keyAt_le (by omega) (by omega)⟩

theorem Cuts.ne_nil (h : a.Cuts) : a.records ≠ [] := by
  have hlt := h.offset_lt
  have hend : a.file.offsetAt (a.indexStartOffset + a.indexNum) ≤ a.file.records.length := by
    rw [← SSTable.offsetAt_sourceNum]
    exact SSTable.offsetAt_le h.fits (Nat.le_refl _)
  refine List.ne_nil_of_length_pos ?_
  unfold records SSTable.slice
  rw [List.length_take, List.length_drop]
  omega

theorem sorted_records (a : WayAnchor) : a.records.Pairwise EdgeRecord.le :=
  a.file.sorted.sublist ((List.take_sublist _ _).trans (List.drop_sublist _ _))

end WayAnchor

/-! ## The worker -/

/-- The anchor goes to the first way that ends before it, or to a new one. `end_per_way` stands
beside the ways. -/
def placeAnchor (anchor : WayAnchor) : List (Nat × List Way) → List (Nat × List Way)
  | [] => [(anchor.endKey, [anchor.way])]
  | (endKey, ways) :: rest =>
    if endKey < anchor.beginKey then (anchor.endKey, ways ++ [anchor.way]) :: rest
    else (endKey, ways) :: placeAnchor anchor rest

def mulways (anchors : List WayAnchor) : List (List Way) :=
  (anchors.foldl (fun ways anchor => placeAnchor anchor ways) []).map Prod.snd

/-- The variables of `ProcessMultiWaysCompactionOpt`; in the inner loop there is a `cur_vertex`. -/
structure Opt where
  lanes : Lanes
  curVertex : Option Nat

/-- `uint32_t cur_vertex` -/
def curVertexLimit : Nat := 2 ^ 32

namespace Opt

/-- The least head, `edge_cache[min_way_index]`. -/
def head (s : Lanes) : Option EdgeRecord :=
  match s.lanes[s.minWayIndex]? with
  | some (some l) => some l.edge
  | _ => none

/-- The two loops; every test of a condition takes fuel. -/
def loop : Nat → Opt → Option (List EdgeRecord)
  | 0, _ => none
  | fuel + 1, ⟨lanes, none⟩ =>
    -- while (work_way > 0)
    if lanes.workWay = 0 then some lanes.written
    else (head lanes).bind fun e => loop fuel ⟨lanes, some (e.src % curVertexLimit)⟩
  | fuel + 1, ⟨lanes, some curVertex⟩ =>
    -- while (work_way > 0 && cur_vertex == edge_cache[min_way_index].src_)
    if lanes.workWay ≠ 0 ∧ (head lanes).map EdgeRecord.src = some curVertex then
      lanes.turn.bind fun lanes' => loop fuel ⟨lanes', some curVertex⟩
    else loop fuel ⟨lanes, none⟩

end Opt

/-- What `ProcessMultiWaysCompactionOpt` writes, if it ends within the fuel. -/
def processMultiWaysCompactionOpt (fuel : Nat) (allWayAnchors : List WayAnchor)
    (anchorBegin anchorEnd : Nat) : Option (List EdgeRecord) :=
  Opt.loop fuel
    ⟨Lanes.start (mulways ((allWayAnchors.drop anchorBegin).take (anchorEnd - anchorBegin))), none⟩

/-! ### The ways of the anchors -/

/-- A way of several anchors with the records that it gives. -/
structure ChainGives (p : Nat × List Way) (rs : List EdgeRecord) : Prop where
  gives : WaysGive p.2 rs
  ne_nil : rs ≠ []
  sorted : rs.Pairwise EdgeRecord.le
  src_le : ∀ r ∈ rs, r.src ≤ p.1

theorem WaysGive.append {ws ws' : List Way} {rs rs' : List EdgeRecord} (h : WaysGive ws rs)
    (h' : WaysGive ws' rs') : WaysGive (ws ++ ws') (rs ++ rs') := by
  induction h with
  | nil => exact h'
  | cons hw _ ih =>
    rw [List.append_assoc]
    exact WaysGive.cons hw ih

theorem waysGive_way {a : WayAnchor} (h : a.Cuts) : WaysGive [a.way] a.records := by
  have hgives := h.gives
  cases hrs : a.records with
  | nil => exact absurd hrs h.ne_nil
  | cons r rs =>
    rw [hrs] at hgives
    simpa using WaysGive.cons hgives WaysGive.nil

theorem chainGives_placeAnchor {anchor : WayAnchor} (h : anchor.Cuts) :
    ∀ {ways : List (Nat × List Way)} {runs : List (List EdgeRecord)},
      List.Forall₂ ChainGives ways runs →
      ∃ runs', List.Forall₂ ChainGives (placeAnchor anchor ways) runs' ∧
        runs'.flatten.Perm (runs.flatten ++ anchor.records) := by
  have hsrc : ∀ r ∈ anchor.records, r.src ≤ anchor.endKey := fun r hr => (h.src_between hr).2
  intro ways runs hways
  induction hways with
  | nil =>
    refine ⟨[anchor.records], List.Forall₂.cons ?_ List.Forall₂.nil, by simp⟩
    exact ⟨waysGive_way h, h.ne_nil, anchor.sorted_records, hsrc⟩
  | @cons p rs ways runs hp hrest ih =>
    obtain ⟨endKey, ws⟩ := p
    rw [placeAnchor]
    split
    · rename_i hlt
      have hle : ∀ r ∈ rs, ∀ r' ∈ anchor.records, r.src < r'.src := by
        intro r hr r' hr'
        have h1 := hp.src_le r hr
        have h2 := (h.src_between hr').1
        dsimp only at h1
        omega
      refine ⟨(rs ++ anchor.records) :: runs, List.Forall₂.cons ?_ hrest, ?_⟩
      · refine ⟨hp.gives.append (waysGive_way h), by simp [h.ne_nil], ?_, ?_⟩
        · refine List.pairwise_append.mpr ⟨hp.sorted, anchor.sorted_records, fun r hr r' hr' => ?_⟩
          rw [EdgeRecord.le_iff]
          exact Or.inl (hle r hr r' hr')
        · intro r hr
          rcases List.mem_append.mp hr with hr | hr
          · obtain ⟨r', hr'⟩ := List.exists_mem_of_ne_nil _ h.ne_nil
            exact Nat.le_trans (Nat.le_of_lt (hle r hr r' hr')) (hsrc r' hr')
          · exact hsrc r hr
      · rw [List.flatten_cons, List.flatten_cons, List.append_assoc, List.append_assoc]
        exact (List.perm_append_comm).append_left rs
    · obtain ⟨runs', hruns', hperm⟩ := ih
      refine ⟨rs :: runs', List.Forall₂.cons hp hruns', ?_⟩
      rw [List.flatten_cons, List.flatten_cons, List.append_assoc]
      exact hperm.append_left rs

theorem chainGives_mulways {anchors : List WayAnchor} (h : ∀ a ∈ anchors, a.Cuts) :
    ∃ runs, List.Forall₂ WaysGive (mulways anchors) runs ∧ (∀ w ∈ runs, w ≠ []) ∧
      (∀ w ∈ runs, w.Pairwise EdgeRecord.le) ∧
      runs.flatten.Perm (anchors.flatMap WayAnchor.records) := by
  have hfold : ∀ (anchors : List WayAnchor) (ways : List (Nat × List Way))
      (runs : List (List EdgeRecord)), (∀ a ∈ anchors, a.Cuts) → List.Forall₂ ChainGives ways runs →
      ∃ runs', List.Forall₂ ChainGives
          (anchors.foldl (fun ways anchor => placeAnchor anchor ways) ways) runs' ∧
        runs'.flatten.Perm (runs.flatten ++ anchors.flatMap WayAnchor.records) := by
    intro anchors
    induction anchors with
    | nil => exact fun ways runs _ hways => ⟨runs, hways, by simp⟩
    | cons a anchors ih =>
      intro ways runs hcuts hways
      obtain ⟨ha, hrest⟩ := List.forall_mem_cons.mp hcuts
      obtain ⟨runs₁, hways₁, hperm₁⟩ := chainGives_placeAnchor ha hways
      obtain ⟨runs₂, hways₂, hperm₂⟩ := ih _ runs₁ hrest hways₁
      refine ⟨runs₂, hways₂, hperm₂.trans ?_⟩
      rw [List.flatMap_cons, ← List.append_assoc]
      exact hperm₁.append_right _
  obtain ⟨runs, hways, hperm⟩ := hfold anchors [] [] h List.Forall₂.nil
  have heach : ∀ w ∈ runs, ∃ p, ChainGives p w := by
    intro w hw
    obtain ⟨i, hi⟩ := List.mem_iff_get.mp hw
    have hlt := i.isLt.trans_eq hways.length_eq.symm
    exact ⟨_, hi ▸ hways.get hlt i.isLt⟩
  refine ⟨runs, ?_, fun w hw => ?_, fun w hw => ?_, hperm⟩
  · unfold mulways
    rw [List.forall₂_map_left_iff]
    exact hways.imp fun _ _ hp => hp.gives
  · obtain ⟨p, hp⟩ := heach w hw
    exact hp.ne_nil
  · obtain ⟨p, hp⟩ := heach w hw
    exact hp.sorted

/-! ### The two loops -/

namespace Opt

variable {s : Lanes} {ws ws' : List (List EdgeRecord)} {x e : EdgeRecord} {fuel c : Nat}

theorem head_of_runs (h : Lanes.Runs s ws) (hwork : s.workWay ≠ 0)
    (hleast : Lib.leastHead EdgeRecord.lt ws = some (x, ws')) : head s = some x := by
  have hsome : ∃ l ∈ s.lanes, l.isSome := by
    rw [h.work] at hwork
    exact List.countP_pos_iff.mp (Nat.pos_of_ne_zero hwork)
  obtain ⟨l, rs, hl, -, hleast'⟩ := Lanes.findMin_spec h.holds hsome
  rw [hleast] at hleast'
  cases hleast'
  rw [head, h.least hwork, hl]

theorem written_turn {s' : Lanes} (hturn : s.turn = some s') (hhead : head s = some e) :
    s'.written = s.written ++ [e] := by
  unfold Lanes.turn at hturn
  unfold head at hhead
  cases hl : s.lanes[s.minWayIndex]? with
  | none =>
    rw [hl] at hhead
    cases hhead
  | some l =>
    cases l with
    | none =>
      rw [hl] at hhead
      cases hhead
    | some l =>
      rw [hl] at hhead hturn
      cases hhead
      cases hturn
      rfl

/-- With sources of 32 bits the loops end, and they have merged the runs. Between two tests of
the outer loop a record is written, so three tests a record are enough. -/
theorem loop_of_runs (n : Nat) (h : Lanes.Runs s ws) (hlen : ws.flatten.length = n)
    (hsrc : ∀ r ∈ ws.flatten, r.src < curVertexLimit) :
    (3 * n + 1 ≤ fuel →
      loop fuel ⟨s, none⟩ = some (s.written ++ Lib.mergeWays EdgeRecord.lt ws)) ∧
    (3 * n + 2 ≤ fuel →
      loop fuel ⟨s, some c⟩ = some (s.written ++ Lib.mergeWays EdgeRecord.lt ws)) := by
  induction n generalizing s ws fuel c with
  | zero =>
    have hwork : s.workWay = 0 := by
      by_contra hne
      obtain ⟨x, ws', s', hleast, -⟩ := h.turn hne
      have := (Lib.leastHead_perm hleast).length_eq
      rw [hlen, List.length_cons] at this
      omega
    have hnone : ∀ fuel, 1 ≤ fuel →
        loop fuel ⟨s, none⟩ = some (s.written ++ Lib.mergeWays EdgeRecord.lt ws) := by
      intro fuel hfuel
      obtain ⟨fuel, rfl⟩ := Nat.exists_eq_add_of_le' hfuel
      rw [loop, if_pos hwork, Lib.mergeWays_of_none (h.least_none hwork), List.append_nil]
    refine ⟨hnone fuel, fun hfuel => ?_⟩
    obtain ⟨fuel, rfl⟩ := Nat.exists_eq_add_of_le' (show 1 ≤ fuel by omega)
    rw [loop, if_neg (fun hc => hc.1 hwork)]
    exact hnone fuel (by omega)
  | succ n ih =>
    have hwork : s.workWay ≠ 0 := by
      intro hzero
      rw [Lib.leastHead_eq_none (h.least_none hzero)] at hlen
      cases hlen
    obtain ⟨x, ws', s', hleast, hturn, hruns, hwritten⟩ := h.turn hwork
    have hperm := Lib.leastHead_perm hleast
    have hhead : head s = some x := head_of_runs h hwork hleast
    have hx : x.src < curVertexLimit := hsrc x (hperm.mem_iff.mpr List.mem_cons_self)
    have hlen' : ws'.flatten.length = n := Lib.leastHead_length hleast hlen
    have hsrc' : ∀ r ∈ ws'.flatten, r.src < curVertexLimit := fun r hr =>
      hsrc r (hperm.mem_iff.mpr (List.mem_cons_of_mem _ hr))
    have hrest : s'.written ++ Lib.mergeWays EdgeRecord.lt ws' =
        s.written ++ Lib.mergeWays EdgeRecord.lt ws := by
      rw [hwritten, Lib.mergeWays_of_some hleast, List.append_assoc]
      rfl
    -- the vertex of the head is in turn
    have hmatch : ∀ fuel, 3 * n + 3 ≤ fuel →
        loop fuel ⟨s, some x.src⟩ = some (s.written ++ Lib.mergeWays EdgeRecord.lt ws) := by
      intro fuel hfuel
      obtain ⟨fuel, rfl⟩ := Nat.exists_eq_add_of_le' (show 1 ≤ fuel by omega)
      rw [loop, if_pos ⟨hwork, by rw [hhead, Option.map_some]⟩, hturn, Option.bind_some,
        (ih hruns hlen' hsrc').2 (by omega), hrest]
    have hnone : ∀ fuel, 3 * n + 4 ≤ fuel →
        loop fuel ⟨s, none⟩ = some (s.written ++ Lib.mergeWays EdgeRecord.lt ws) := by
      intro fuel hfuel
      obtain ⟨fuel, rfl⟩ := Nat.exists_eq_add_of_le' (show 1 ≤ fuel by omega)
      rw [loop, if_neg hwork, hhead, Option.bind_some, Nat.mod_eq_of_lt hx]
      exact hmatch fuel (by omega)
    refine ⟨hnone fuel, fun hfuel => ?_⟩
    obtain ⟨fuel, rfl⟩ := Nat.exists_eq_add_of_le' (show 1 ≤ fuel by omega)
    rw [loop]
    split
    · rw [hturn, Option.bind_some, (ih hruns hlen' hsrc').2 (by omega), hrest]
    · exact hnone fuel (by omega)

/-- Only records of a source of 32 bits are written. -/
theorem src_lt_of_loop {opt : Opt} {out : List EdgeRecord} (h : loop fuel opt = some out)
    (hcur : ∀ c ∈ opt.curVertex, c < curVertexLimit) :
    ∀ r ∈ out, r ∈ opt.lanes.written ∨ r.src < curVertexLimit := by
  induction fuel generalizing opt with
  | zero => cases h
  | succ fuel ih =>
    obtain ⟨s, cur⟩ := opt
    cases cur with
    | none =>
      rw [loop] at h
      split at h
      · cases h
        exact fun r hr => Or.inl hr
      · obtain ⟨e, -, h⟩ := Option.bind_eq_some_iff.mp h
        have hrest := ih h fun c hc => by
          cases hc
          exact Nat.mod_lt _ (by decide)
        exact hrest
    | some c =>
      have hc : c < curVertexLimit := hcur c rfl
      rw [loop] at h
      split at h
      · rename_i hif
        obtain ⟨e, hhead, hsrc⟩ := Option.map_eq_some_iff.mp hif.2
        obtain ⟨s', hturn, h⟩ := Option.bind_eq_some_iff.mp h
        intro r hr
        have hcases := ih h (fun c' hc' => by cases hc'; exact hc) r hr
        rw [written_turn hturn hhead, List.mem_append, List.mem_singleton] at hcases
        obtain (hmem | rfl) | hlt := hcases
        · exact Or.inl hmem
        · exact Or.inr (hsrc ▸ hc)
        · exact Or.inr hlt
      · have hrest := ih h fun c' hc' => nomatch hc'
        exact hrest

/-- At a source that does not fit, the outer loop goes round without a record. -/
theorem loop_spins (hhead : head s = some e) (hwork : s.workWay ≠ 0)
    (hsrc : e.src % curVertexLimit ≠ e.src) :
    loop fuel ⟨s, none⟩ = none ∧ loop fuel ⟨s, some (e.src % curVertexLimit)⟩ = none := by
  induction fuel with
  | zero => exact ⟨rfl, rfl⟩
  | succ fuel ih =>
    constructor
    · rw [loop, if_neg hwork, hhead, Option.bind_some]
      exact ih.2
    · rw [loop, if_neg]
      · exact ih.1
      · rintro ⟨-, hmap⟩
        rw [hhead, Option.map_some] at hmap
        exact hsrc (Option.some.inj hmap).symm

end Opt

/-- All entries of a file. -/
def wholeFile (file : SSTable) (isInput0 : Bool) : WayAnchor :=
  { beginKey := file.keyAt 0, endKey := file.keyAt (file.sourceNum - 1), offset := file.offsetAt 0
    indexStartOffset := 0, indexNum := file.sourceNum
    rangeSize := file.offsetAt file.sourceNum - file.offsetAt 0, file, isInput0 }

theorem cuts_wholeFile {file : SSTable} (h : 0 < file.sourceNum) (isInput0 : Bool) :
    (wholeFile file isInput0).Cuts where
  pos := h
  fits := Nat.le_of_eq (Nat.zero_add _)
  beginKey := rfl
  endKey := by simp [wholeFile]
  offset := rfl
  rangeSize := by simp [wholeFile]

end Compaction

end RichGraph
