-- Every acknowledged update stays readable while its base moves: through the
-- publication of the memtable, merges of its chain and compactions. A compaction
-- must find the chains of its inputs empty.
import RichGraph.DeltaHandOff

namespace RichGraph.DeltaHandOff

/-! ## Lookups in a chain -/

section

variable {file : PropertyDeltaFile} {id : RecordId} {r : PropertyDeltaRecord}

theorem mem_of_lookupFile (h : lookupFile file id = some r) : r ∈ file ∧ r.id = id := by
  obtain ⟨before, after, rfl, hid, -⟩ := Lib.newestOf_eq_iff.mp h
  exact ⟨by simp, hid⟩

/-- In the order of commits the last record of a key is the newest. -/
theorem lookupFile_eq_find? (h : file.Pairwise fun a b => a.id = b.id →
    a.commitSequence < b.commitSequence) (id : RecordId) :
    lookupFile file id = file.reverse.find? fun r => r.id = id :=
  Lib.newestOf_eq_find?_reverse (h.imp fun hab ha hb => Nat.le_of_lt (hab (ha.trans hb.symm)))

/-- The files of a chain come in the order of the commits of every record. -/
def InOrder (deltas : List PropertyDeltaFile) : Prop :=
  deltas.Pairwise fun f g => ∀ r ∈ f, ∀ r' ∈ g, r.id = r'.id → r.commitSequence < r'.commitSequence

variable {deltas pre post : List PropertyDeltaFile}

theorem mem_of_foldl_betterOf {best : Option PropertyDeltaRecord}
    (h : deltas.foldl (betterOf id) best = some r) :
    best = some r ∨ ∃ f ∈ deltas, r ∈ f ∧ r.id = id := by
  induction deltas generalizing best with
  | nil => exact Or.inl h
  | cons f deltas ih =>
    rw [List.foldl_cons] at h
    rcases ih h with hbest | ⟨g, hg, hr⟩
    · unfold betterOf at hbest
      split at hbest
      · exact Or.inl hbest
      · rename_i x hx
        split at hbest
        · cases hbest
          exact Or.inr ⟨f, List.mem_cons_self, mem_of_lookupFile hx⟩
        · exact Or.inl hbest
    · exact Or.inr ⟨g, List.mem_cons_of_mem _ hg, hr⟩

theorem mem_of_lookup (h : lookup deltas id = some r) : ∃ f ∈ deltas, r ∈ f ∧ r.id = id := by
  rcases mem_of_foldl_betterOf h with hnone | ⟨f, hf, hr⟩
  · cases hnone
  · exact ⟨f, List.mem_reverse.mp hf, hr⟩

/-- Older files do not replace a newer record. -/
theorem foldl_betterOf_of_older {best : PropertyDeltaRecord}
    (h : ∀ f ∈ deltas, ∀ x ∈ f, x.id = id → x.commitSequence < best.commitSequence) :
    deltas.foldl (betterOf id) (some best) = some best := by
  induction deltas with
  | nil => rfl
  | cons f deltas ih =>
    rw [List.foldl_cons]
    have hsame : betterOf id (some best) f = some best := by
      unfold betterOf
      split
      · rfl
      · rename_i x hx
        obtain ⟨hmem, hid⟩ := mem_of_lookupFile hx
        have := h f List.mem_cons_self x hmem hid
        rw [if_neg]
        intro hall
        have := hall best rfl
        omega
    rw [hsame]
    exact ih fun g hg => h g (List.mem_cons_of_mem _ hg)

/-- The later files of a chain are asked first. -/
theorem lookup_append (h : InOrder (pre ++ post)) (id : RecordId) :
    lookup (pre ++ post) id = (lookup post id).or (lookup pre id) := by
  obtain ⟨-, -, hcross⟩ := List.pairwise_append.mp h
  unfold lookup
  rw [List.reverse_append, List.foldl_append]
  cases hpost : post.reverse.foldl (betterOf id) none with
  | none => rfl
  | some best =>
    obtain ⟨g, hg, hbest, hid⟩ := mem_of_lookup hpost
    rw [foldl_betterOf_of_older, Option.some_or]
    intro f hf x hx hxid
    exact hcross f (List.mem_reverse.mp hf) g hg x hx best hbest (hxid.trans hid.symm)

theorem lookup_singleton (file : PropertyDeltaFile) (id : RecordId) :
    lookup [file] id = lookupFile file id := by
  unfold lookup
  rw [List.reverse_singleton, List.foldl_cons, List.foldl_nil, betterOf]
  cases lookupFile file id <;> simp

/-- A merge writes what a lookup in the merged files gives. -/
theorem applyFiles_eq (len : Nat) (h : InOrder deltas) (column : RecordId → Bytes) (id : RecordId) :
    applyFiles len deltas column id =
      ((lookup deltas id).map fun r => keptValue len r.value).getD (column id) := by
  induction deltas using List.reverseRecOn with
  | nil => rfl
  | append_singleton deltas f ih =>
    have hpre : InOrder deltas := (List.pairwise_append.mp h).1
    rw [lookup_append h, lookup_singleton]
    unfold applyFiles
    rw [List.foldl_append, List.foldl_cons, List.foldl_nil]
    unfold applyFile
    cases hf : lookupFile f id with
    | none => exact ih hpre
    | some r => rfl

end

/-! ## The chains of the store -/

section

variable {layout : ShardLayout} {data : SstData} {propertyId : Nat} {column : RecordId → Bytes}
  {v : PropertyDeltaReadView} {deltas : List PropertyDeltaFile} {id : RecordId}

/-- What the store shows of a column is a chain of records over the values of its base. -/
structure Models (layout : ShardLayout) (data : SstData) (propertyId : Nat)
    (column : RecordId → Bytes) (v : PropertyDeltaReadView) (deltas : List PropertyDeltaFile) :
    Prop where
  files : List.Forall₂ (fun f records => ∀ id,
    f.lookup id kLatestPropertyCommit = lookupFile records id) v.deltas deltas
  slots : ∀ id n, data.sst.records.findIdx? (·.id = id) = some n →
    readSubPropertyFromSlot (slotAt (layout.slotLength propertyId)
      (baseColumn data propertyId v.mergedBase) n) = column id

/-- A file is looked up as the records it was made of: neither the sort nor the choice of one
record of each version changes the newest record of a key. -/
theorem lookup_created {target : PropertyDeltaTarget} {generation : Nat}
    {records : List PropertyDeltaRecord} {f : RichGraph.PropertyDeltaFile}
    (h : RichGraph.PropertyDeltaFile.create target generation records = some f) (id : RecordId) :
    f.lookup id kLatestPropertyCommit = lookupFile records id := by
  have hseen : f.records.reverse.find? (Seen id kLatestPropertyCommit) =
      f.records.reverse.find? fun r => r.id = id :=
    List.find?_congr fun r hr => seen_latest (List.mem_reverse.mp hr) id
  have hsorted : f.records.Pairwise fun a b => a.id = id → b.id = id →
      a.commitSequence ≤ b.commitSequence := by
    refine f.sorted.imp ?_
    rintro a b (hlt | ⟨-, hc⟩) ha hb
    · exact absurd (ha ▸ hb ▸ hlt) (RecordId.lt_irrefl _)
    · exact Nat.le_of_lt hc
  rw [f.lookup_eq, hseen, ← Lib.newestOf_eq_find?_reverse hsorted,
    (RichGraph.PropertyDeltaFile.of_create h).2.2]
  unfold lookupFile deduplicated
  rw [Lib.newestOf_keepLast, Lib.newestOf_insertionSort]
  · intro a b hle ha hb
    rw [PropertyDeltaRecord.le_iff, not_or, not_and, ha, hb] at hle
    exact Nat.not_le.mp (hle.2 rfl)
  · rintro a b ⟨hid, hc⟩ ha
    exact ⟨hid ▸ ha, Nat.le_of_eq hc⟩

/-- One file: what the header says of its commits only saves a search. -/
theorem lookupIn_eq_betterOf {f : RichGraph.PropertyDeltaFile} {records : List PropertyDeltaRecord}
    (h : f.lookup id kLatestPropertyCommit = lookupFile records id)
    (best : Option PropertyDeltaRecord) :
    lookupIn id kLatestPropertyCommit best f = betterOf id best records := by
  unfold lookupIn betterOf
  rw [← h]
  cases hfound : f.lookup id kLatestPropertyCommit with
  | none => simp
  | some r =>
    rw [f.lookup_eq] at hfound
    obtain ⟨hmin, hmax⟩ := f.commits r (List.mem_reverse.mp (List.mem_of_find?_eq_some hfound))
    have hseen := List.find?_some hfound
    simp only [Seen, Bool.and_eq_true, decide_eq_true_eq] at hseen
    split
    · rename_i hskip
      rcases hskip with hlate | hany
      · omega
      · cases best with
        | none => cases hany
        | some b =>
          have hle := of_decide_eq_true hany
          refine (if_neg fun hall => ?_).symm
          have := hall b rfl
          omega
    · cases best <;> simp

/-- A lookup in the chain of the store. -/
theorem lookup_of_models (h : Models layout data propertyId column v deltas) (id : RecordId) :
    v.lookup id kLatestPropertyCommit = lookup deltas id := by
  have hfold : ∀ {fs : List RichGraph.PropertyDeltaFile} {rss : List PropertyDeltaFile},
      List.Forall₂ (fun f records => ∀ id,
        f.lookup id kLatestPropertyCommit = lookupFile records id) fs rss → ∀ best,
      fs.foldl (lookupIn id kLatestPropertyCommit) best = rss.foldl (betterOf id) best := by
    intro fs rss hfiles
    induction hfiles with
    | nil => exact fun _ => rfl
    | cons hf _ ih =>
      intro best
      rw [List.foldl_cons, List.foldl_cons, lookupIn_eq_betterOf (hf id), ih]
  exact hfold (List.forall₂_reverse_iff.mpr h.files) none

/-- A read of an edge of the base gives what `getEdge` does. -/
theorem read_of_models (h : Models layout data propertyId column v deltas) (id : RecordId) :
    v.read layout data propertyId id = (data.sst.records.findIdx? (·.id = id)).map fun _ =>
      match lookup deltas id with
      | none => column id
      | some r => r.value := by
  unfold PropertyDeltaReadView.read
  cases hn : data.sst.records.findIdx? (·.id = id) with
  | none => rfl
  | some n =>
    rw [Option.map_some, Option.map_some, lookup_of_models h]
    cases lookup deltas id with
    | some r => rfl
    | none => exact congrArg some (h.slots id n hn)

/-- `Attach` puts the records at the end of the chain. -/
theorem models_attach (h : Models layout data propertyId column v deltas)
    {target : PropertyDeltaTarget} {generation : Nat} {records : List PropertyDeltaRecord}
    {f : RichGraph.PropertyDeltaFile}
    (hf : RichGraph.PropertyDeltaFile.create target generation records = some f) (p : Bool) :
    Models layout data propertyId column (RichGraph.Chain.attach ⟨v, p⟩ f).readView
      (deltas ++ [records]) where
  files := List.rel_append h.files (List.Forall₂.cons (lookup_created hf) List.Forall₂.nil)
  slots := h.slots

/-- The replay of the files into the slot of an edge. -/
theorem applyFiles_of_files {fs : List RichGraph.PropertyDeltaFile} {rss : List PropertyDeltaFile}
    (h : List.Forall₂ (fun f records => ∀ id,
      f.lookup id kLatestPropertyCommit = lookupFile records id) fs rss) (len : Nat)
    (column : RecordId → Bytes) (id : RecordId) :
    applyFiles len rss column id =
      (((chainRecords fs).reverse.find? fun r => r.id = id).map fun r =>
        keptValue len r.value).getD (column id) := by
  induction h generalizing column with
  | nil => rfl
  | @cons f records fs rss hf _ ih =>
    have hfile : f.records.reverse.find? (fun r => r.id = id) = lookupFile records id := by
      rw [← hf id, f.lookup_eq]
      exact List.find?_congr fun r hr => (seen_latest (List.mem_reverse.mp hr) id).symm
    have happly : applyFile len column records id =
        ((lookupFile records id).map fun r => keptValue len r.value).getD (column id) := by
      unfold applyFile
      cases lookupFile records id <;> rfl
    have hrecords : chainRecords (f :: fs) = f.records ++ chainRecords fs := List.flatMap_cons
    unfold applyFiles at ih ⊢
    rw [List.foldl_cons, ih, happly, hrecords, List.reverse_append, List.find?_append, hfile]
    cases (chainRecords fs).reverse.find? fun r => r.id = id <;> rfl

/-- `MergeChain` writes the first files of the chain over the column. -/
theorem models_mergeChain {target : PropertyDeltaTarget} {captured c : RichGraph.Chain}
    {mergeThreshold outputGeneration : Nat} {mergeAll removed : Bool}
    (h : Models layout data target.propertyId column captured.readView deltas)
    (hmerge : RichGraph.mergeChain layout (some data) target mergeThreshold mergeAll captured
      captured outputGeneration removed = .ok c) :
    ∃ count, Models layout data target.propertyId
      (applyFiles (layout.slotLength target.propertyId) (deltas.take count) column) c.readView
      (deltas.drop count) := by
  have hcases := @mergeChain_cases layout data target mergeThreshold outputGeneration mergeAll
    removed captured c [] hmerge
  rcases hcases with ⟨-, rfl⟩ | ⟨merged, rest, hsplit, -, hmerged, hview⟩
  · exact ⟨0, h⟩
  · refine ⟨(captured.batch mergeThreshold mergeAll).length, ?_⟩
    have hfiles := h.files
    rw [List.append_nil] at hsplit
    rw [hsplit, ← List.take_append_drop (captured.batch mergeThreshold mergeAll).length deltas]
      at hfiles
    have hbatch := List.forall₂_take (captured.batch mergeThreshold mergeAll).length hfiles
    have hrest := List.forall₂_drop (captured.batch mergeThreshold mergeAll).length hfiles
    rw [List.take_left, List.take_append_drop] at hbatch
    rw [List.drop_left, List.take_append_drop] at hrest
    refine ⟨by rw [hview]; exact hrest, fun id n hn => ?_⟩
    have hfind : (chainRecords (captured.batch mergeThreshold mergeAll)).reverse.find?
        (data.locateSstEdgeOrdinal · = some n) =
          (chainRecords (captured.batch mergeThreshold mergeAll)).reverse.find? (·.id = id) := by
      refine List.find?_congr fun r hr => ?_
      rw [Bool.eq_iff_iff]
      simpa using located_iff_of_ok hmerged hn (List.mem_reverse.mp hr)
    rw [hview, applyFiles_of_files hbatch]
    simp only [baseColumn, Option.getD_some]
    rw [(slotAt_mergeRecords hmerged).2 n, hfind]
    cases (chainRecords (captured.batch mergeThreshold mergeAll)).reverse.find? (·.id = id) with
    | some r => rfl
    | none => exact h.slots id n hn

end

/-! ## The invariant -/

variable {lengths : Nat → Nat} {s s' : State}

/-- A read of the record in the base gives the update: from the chain, or else from the column. -/
def Reads (s : State) (fid propertyId : Nat) (id : RecordId) (r : PropertyDeltaRecord) : Prop :=
  lookup (s.chains fid propertyId).deltas id = some r ∨
    lookup (s.chains fid propertyId).deltas id = none ∧ s.column fid propertyId id = r.value

/-- A compaction that has read its inputs: their chains are empty, and it holds their columns. -/
structure Merging (s : State) (inputs : List Nat) (columns : Nat → RecordId → Bytes) : Prop where
  file : ∀ fid ∈ inputs, s.base fid = .file
  drained : ∀ fid ∈ inputs, ∀ p, (s.chains fid p).deltas = []
  columns : ∀ id fid, s.place id = some fid → fid ∈ inputs → ∀ p, columns p id = s.column fid p id

structure Inv (lengths : Nat → Nat) (s : State) : Prop where
  active : s.base s.active = .memtable
  placed : ∀ id fid, s.place id = some fid → s.base fid = .memtable ∨ s.base fid = .file
  fresh : ∀ fid, s.nextFid ≤ fid → s.base fid = .absent ∧ ∀ p, (s.chains fid p).deltas = []
  acknowledged_placed : ∀ p ∈ s.acknowledged, s.place p.2.id ≠ none
  acknowledged_fits : ∀ p ∈ s.acknowledged, keptValue (lengths p.1) p.2.value = p.2.value
  chain_acknowledged : ∀ fid p, ∀ f ∈ (s.chains fid p).deltas, ∀ r ∈ f, (p, r) ∈ s.acknowledged
  registered : ∀ fid p, (s.chains fid p).deltas ≠ [] → (fid, p) ∈ s.registry
  order : ∀ fid p, InOrder (s.chains fid p).deltas
  reads : ∀ id fid, s.place id = some fid → ∀ p r, lastAcknowledged s id p = some r →
    Reads s fid p id r
  merging : ∀ inputs columns, s.phase = .merging inputs columns → Merging s inputs columns

theorem mem_of_lastAcknowledged {id : RecordId} {p : Nat} {r : PropertyDeltaRecord}
    (h : lastAcknowledged s id p = some r) : (p, r) ∈ s.acknowledged ∧ r.id = id := by
  unfold lastAcknowledged at h
  obtain ⟨q, hq, rfl⟩ := Option.map_eq_some_iff.mp h
  have hmem := List.mem_of_find?_eq_some hq
  have hcond : q.1 = p ∧ q.2.id = id := by simpa using List.find?_some hq
  exact ⟨by rw [← hcond.1]; exact hmem, hcond.2⟩

/-- In a state with the invariant every acknowledged update is what `GetEdge` answers. -/
theorem getEdge_of_inv (h : Inv lengths s) {id : RecordId} {p : Nat} {r : PropertyDeltaRecord}
    (hlast : lastAcknowledged s id p = some r) : getEdge s id p = some r.value := by
  obtain ⟨hmem, hid⟩ := mem_of_lastAcknowledged hlast
  have hplaced := h.acknowledged_placed _ hmem
  rw [hid] at hplaced
  obtain ⟨fid, hfid⟩ := Option.ne_none_iff_exists'.mp hplaced
  unfold getEdge
  rw [hfid, Option.map_some]
  rcases h.reads id fid hfid p r hlast with hl | ⟨hl, hc⟩
  · rw [hl]
  · rw [hl, hc]

theorem inv_initial (lengths : Nat → Nat) : Inv lengths initial := by
  refine ⟨rfl, ?_, ?_, ?_, ?_, ?_, ?_, ?_, ?_, ?_⟩
  · intro id fid h
    cases h
  · intro fid hfid
    refine ⟨?_, fun p => rfl⟩
    simp only [initial] at hfid ⊢
    rw [if_neg (by omega)]
  · intro p hp
    cases hp
  · intro p hp
    cases hp
  · intro fid p f hf
    cases hf
  · intro fid p hne
    exact absurd rfl hne
  · intro fid p
    exact List.Pairwise.nil
  · intro id fid h
    cases h
  · intro inputs columns h
    cases h

/-! ## Steps that leave the chains as they are -/

theorem inv_put {id : RecordId} {value : Nat → Bytes} (h : Inv lengths s)
    (hs : put id value s = some s') : Inv lengths s' := by
  unfold put at hs
  split at hs
  · rename_i hnew
    cases hs
    -- A new record has no update.
    have hnone : ∀ p ∈ s.acknowledged, p.2.id ≠ id := by
      intro p hmem hid
      exact h.acknowledged_placed _ hmem (by rw [hid]; exact hnew)
    refine ⟨h.active, ?_, h.fresh, ?_, h.acknowledged_fits, h.chain_acknowledged, h.registered,
      h.order, ?_, ?_⟩
    · intro i fid hfid
      dsimp only at hfid ⊢
      split at hfid
      · cases hfid
        exact Or.inl h.active
      · exact h.placed i fid hfid
    · intro p hp
      dsimp only
      rw [if_neg (hnone p hp)]
      exact h.acknowledged_placed p hp
    · intro i fid hfid p r hlast
      obtain ⟨hmem, hid⟩ := mem_of_lastAcknowledged hlast
      have hi : i ≠ id := by
        rw [← hid]
        exact hnone _ hmem
      dsimp only at hfid
      rw [if_neg hi] at hfid
      unfold Reads
      dsimp only
      rw [if_neg (fun hc => hi hc.2)]
      exact h.reads i fid hfid p r hlast
    · intro inputs columns hphase
      have hm := h.merging inputs columns hphase
      refine ⟨hm.file, hm.drained, ?_⟩
      intro i fid hfid hin p
      -- An input is a file, the new record is in the active memtable.
      have hne : fid ≠ s.active := by
        intro heq
        have hfile := hm.file fid hin
        rw [heq, h.active] at hfile
        cases hfile
      dsimp only at hfid ⊢
      rw [if_neg (fun hc => hne hc.1)]
      split at hfid
      · exact absurd (Option.some.inj hfid).symm hne
      · exact hm.columns i fid hfid hin p
  · cases hs

theorem inv_switch (h : Inv lengths s) : Inv lengths (switch s) := by
  have hold : ∀ fid, s.base fid ≠ .absent → fid ≠ s.nextFid := by
    intro fid hb heq
    exact hb (h.fresh fid (Nat.le_of_eq heq.symm)).1
  refine ⟨by simp [switch], ?_, ?_, h.acknowledged_placed, h.acknowledged_fits,
    h.chain_acknowledged, h.registered, h.order, h.reads, ?_⟩
  · intro id fid hfid
    dsimp only [switch]
    split
    · exact Or.inl rfl
    · exact h.placed id fid hfid
  · intro fid hfid
    dsimp only [switch] at hfid ⊢
    rw [if_neg (by omega)]
    exact h.fresh fid (by omega)
  · intro inputs columns hphase
    have hm := h.merging inputs columns hphase
    refine ⟨?_, hm.drained, hm.columns⟩
    intro fid hin
    have hfile := hm.file fid hin
    dsimp only [switch]
    rw [if_neg (hold fid (by rw [hfile]; decide))]
    exact hfile

theorem inv_publish {fid : Nat} (h : Inv lengths s) (hs : publish lengths fid s = some s') :
    Inv lengths s' := by
  unfold publish at hs
  split at hs
  · rename_i hmem
    cases hs
    refine ⟨?_, ?_, ?_, h.acknowledged_placed, h.acknowledged_fits, h.chain_acknowledged,
      h.registered, h.order, ?_, ?_⟩
    · dsimp only
      rw [if_neg (Ne.symm hmem.2)]
      exact h.active
    · intro id i hi
      dsimp only
      split
      · exact Or.inr rfl
      · exact h.placed id i hi
    · intro i hi
      have hfresh := h.fresh i hi
      refine ⟨?_, hfresh.2⟩
      dsimp only
      split
      · rename_i heq
        rw [heq, hmem.1] at hfresh
        exact absurd hfresh.1 (by decide)
      · exact hfresh.1
    · intro id i hi p r hlast
      rcases h.reads id i hi p r hlast with hl | ⟨hl, hc⟩
      · exact Or.inl hl
      · -- The update was in the column, and fits it.
        refine Or.inr ⟨hl, ?_⟩
        dsimp only
        rw [hc]
        split
        · exact h.acknowledged_fits _ (mem_of_lastAcknowledged hlast).1
        · rfl
    · intro inputs columns hphase
      have hm := h.merging inputs columns hphase
      have hne : ∀ i ∈ inputs, i ≠ fid := by
        intro i hin heq
        have hfile := hm.file i hin
        rw [heq, hmem.1] at hfile
        cases hfile
      refine ⟨?_, hm.drained, ?_⟩
      · intro i hin
        dsimp only
        rw [if_neg (hne i hin)]
        exact hm.file i hin
      · intro id i hi hin p
        dsimp only
        rw [if_neg (hne i hin)]
        exact hm.columns id i hi hin p
  · cases hs

/-- The phases before the merge carry nothing. -/
theorem inv_of_phase {phase : Phase} (h : Inv lengths s)
    (hphase : ∀ inputs columns, phase = .merging inputs columns → Merging s inputs columns) :
    Inv lengths { s with phase := phase } :=
  ⟨h.active, h.placed, h.fresh, h.acknowledged_placed, h.acknowledged_fits, h.chain_acknowledged,
    h.registered, h.order, h.reads, fun inputs columns heq =>
      have hm := hphase inputs columns heq
      ⟨hm.file, hm.drained, hm.columns⟩⟩

theorem inv_markTargetPersistent {fid propertyId : Nat} (h : Inv lengths s)
    (hs : markTargetPersistent fid propertyId s = some s') : Inv lengths s' := by
  unfold markTargetPersistent at hs
  split at hs
  · cases hs
    have hdeltas : ∀ i p, (if i = fid ∧ p = propertyId then
        ⟨(s.chains fid propertyId).deltas, true⟩ else s.chains i p).deltas =
          (s.chains i p).deltas := by
      intro i p
      split
      · rename_i heq
        rw [heq.1, heq.2]
      · rfl
    refine ⟨h.active, h.placed, ?_, h.acknowledged_placed, h.acknowledged_fits, ?_, ?_, ?_, ?_, ?_⟩
    · intro i hi
      exact ⟨(h.fresh i hi).1, fun p => (hdeltas i p).trans ((h.fresh i hi).2 p)⟩
    · intro i p
      dsimp only [State.setChain]
      rw [hdeltas]
      exact h.chain_acknowledged i p
    · intro i p
      dsimp only [State.setChain]
      rw [hdeltas]
      exact h.registered i p
    · intro i p
      dsimp only [State.setChain]
      rw [hdeltas]
      exact h.order i p
    · intro id i hi p r hlast
      unfold Reads
      dsimp only [State.setChain]
      rw [hdeltas]
      exact h.reads id i hi p r hlast
    · intro inputs columns hphase
      have hm := h.merging inputs columns hphase
      exact ⟨hm.file, fun i hin p => (hdeltas i p).trans (hm.drained i hin p), hm.columns⟩
  · cases hs

/-! ## An update is attached -/

/-- The last update of a record after a batch: the last one of the batch, or else the one
before. -/
theorem lastAcknowledged_append (acknowledged : List (Nat × PropertyDeltaRecord))
    (records : List PropertyDeltaRecord) (id : RecordId) (propertyId p : Nat) :
    (((records.map (Prod.mk propertyId)).reverse ++ acknowledged).find? fun q =>
        q.1 = p ∧ q.2.id = id).map Prod.snd =
      (if propertyId = p then records.reverse.find? (fun r => r.id = id) else none).or
        ((acknowledged.find? fun q => q.1 = p ∧ q.2.id = id).map Prod.snd) := by
  rw [List.find?_append, ← List.map_reverse, List.find?_map, Option.map_or]
  by_cases hp : propertyId = p
  · simp [hp, Function.comp_def]
  · have hnone : records.reverse.find? (fun _ => false) = none := List.find?_eq_none.mpr (by simp)
    simp [hp, hnone]

section

variable {fid propertyId : Nat} {records : List PropertyDeltaRecord}

/-- The updates of a record come in the order of their commits, after those that were attached
before. -/
def ByCommit (s : State) (propertyId : Nat) (records : List PropertyDeltaRecord) : Prop :=
  (∀ r ∈ records, ∀ p ∈ s.acknowledged, p.1 = propertyId → p.2.id = r.id →
      p.2.commitSequence < r.commitSequence) ∧
    records.Pairwise fun a b => a.id = b.id → a.commitSequence < b.commitSequence

instance (s : State) (propertyId : Nat) (records : List PropertyDeltaRecord) :
    Decidable (ByCommit s propertyId records) := inferInstanceAs (Decidable (_ ∧ _))

theorem order_attach (h : Inv lengths s) (hc : ByCommit s propertyId records) :
    InOrder ((s.chains fid propertyId).deltas ++ [records]) := by
  refine List.pairwise_append.mpr ⟨h.order fid propertyId, List.pairwise_singleton _ _, ?_⟩
  intro f hf g hg r hr r' hr' hid
  rw [List.mem_singleton.mp hg] at hr'
  exact hc.1 r' hr' _ (h.chain_acknowledged fid propertyId f hf r hr) rfl hid

/-- A record of another base is not in the batch. -/
theorem find?_of_attachable (ha : Attachable s fid records) {id : RecordId} {i : Nat}
    (hi : s.place id = some i) (hne : i ≠ fid) :
    records.reverse.find? (fun r => r.id = id) = none := by
  rw [List.find?_eq_none]
  intro r hr hid
  have hplace := ha.2.1 r (List.mem_reverse.mp hr)
  rw [of_decide_eq_true hid, hi] at hplace
  exact hne (Option.some.inj hplace)

theorem reads_attach (h : Inv lengths s) (hc : ByCommit s propertyId records)
    {id : RecordId} {r : PropertyDeltaRecord} (hi : s.place id = some fid)
    (hlast : (records.reverse.find? (fun r => r.id = id)).or (lastAcknowledged s id propertyId) =
      some r) :
    lookup ((s.chains fid propertyId).deltas ++ [records]) id = some r ∨
      lookup ((s.chains fid propertyId).deltas ++ [records]) id = none ∧
        s.column fid propertyId id = r.value := by
  rw [lookup_append (order_attach h hc), lookup_singleton, lookupFile_eq_find? hc.2]
  cases hfind : records.reverse.find? (fun r => r.id = id) with
  | none =>
    rw [hfind, Option.none_or] at hlast
    exact h.reads id fid hi propertyId r hlast
  | some r' =>
    rw [hfind] at hlast
    exact Or.inl hlast

theorem inv_attach {sawMemtable : Bool} (h : Inv lengths s) (hc : ByCommit s propertyId records)
    (hfits : ∀ r ∈ records, keptValue (lengths propertyId) r.value = r.value)
    (hs : attach fid propertyId sawMemtable records s = some s') : Inv lengths s' := by
  unfold attach at hs
  split at hs
  · rename_i hphase
    split at hs
    · rename_i hcond
      obtain ⟨ha, -⟩ := hcond
      cases hs
      have hnew : ∀ q, q ∈ (records.map (Prod.mk propertyId)).reverse ++ s.acknowledged →
          (∃ r ∈ records, (propertyId, r) = q) ∨ q ∈ s.acknowledged := by
        intro q hq
        simpa using hq
      refine ⟨h.active, h.placed, ?_, ?_, ?_, ?_, ?_, ?_, ?_, ?_⟩
      · intro i hi
        refine ⟨(h.fresh i hi).1, fun p => ?_⟩
        dsimp only [State.setChain]
        split
        · -- The base of a chain is in use.
          rename_i heq
          obtain ⟨r, hr⟩ := List.exists_mem_of_ne_nil _ ha.1
          have hb := h.placed r.id fid (ha.2.1 r hr)
          rw [← heq.1, (h.fresh i hi).1] at hb
          rcases hb with hb | hb <;> cases hb
        · exact (h.fresh i hi).2 p
      · intro q hq
        rcases hnew q hq with ⟨r, hr, rfl⟩ | hold
        · dsimp only [State.setChain]
          rw [ha.2.1 r hr]
          exact Option.some_ne_none _
        · exact h.acknowledged_placed q hold
      · intro q hq
        rcases hnew q hq with ⟨r, hr, rfl⟩ | hold
        · exact hfits r hr
        · exact h.acknowledged_fits q hold
      · intro i p f hf r hr
        dsimp only [State.setChain] at hf ⊢
        refine List.mem_append.mpr ?_
        split at hf
        · rename_i heq
          rcases List.mem_append.mp hf with hf | hf
          · rw [heq.2]
            exact Or.inr (h.chain_acknowledged fid propertyId f hf r hr)
          · rw [List.mem_singleton.mp hf] at hr
            rw [heq.2]
            exact Or.inl (List.mem_reverse.mpr (List.mem_map_of_mem hr))
        · exact Or.inr (h.chain_acknowledged i p f hf r hr)
      · intro i p hne
        dsimp only [State.setChain] at hne ⊢
        split at hne
        · rename_i heq
          rw [heq.1, heq.2]
          exact List.mem_cons_self
        · exact List.mem_cons_of_mem _ (h.registered i p hne)
      · intro i p
        dsimp only [State.setChain]
        split
        · exact order_attach h hc
        · exact h.order i p
      · intro id i hi p r hlast
        unfold lastAcknowledged at hlast
        dsimp only at hlast
        rw [lastAcknowledged_append] at hlast
        unfold Reads
        dsimp only [State.setChain] at hi ⊢
        split
        · rename_i heq
          obtain ⟨rfl, rfl⟩ := heq
          rw [if_pos rfl] at hlast
          exact reads_attach h hc hi hlast
        · rename_i hne
          have hnone : (if propertyId = p then records.reverse.find? (fun r => r.id = id)
              else none) = none := by
            split
            · rename_i hp
              exact find?_of_attachable ha hi (fun hi' => hne ⟨hi', hp.symm⟩)
            · rfl
          rw [hnone, Option.none_or] at hlast
          exact h.reads id i hi p r hlast
      · intro inputs columns hmerging
        dsimp only [State.setChain] at hmerging
        rw [hphase] at hmerging
        cases hmerging
    · cases hs
  · cases hs

/-! ## A chain is merged into its column -/

theorem reads_mergeChain (h : Inv lengths s) (count : Nat) {id : RecordId}
    {r : PropertyDeltaRecord} (hi : s.place id = some fid)
    (hlast : lastAcknowledged s id propertyId = some r) :
    lookup ((s.chains fid propertyId).deltas.drop count) id = some r ∨
      lookup ((s.chains fid propertyId).deltas.drop count) id = none ∧
        applyFiles (lengths propertyId) ((s.chains fid propertyId).deltas.take count)
          (s.column fid propertyId) id = r.value := by
  have horder := h.order fid propertyId
  rw [← List.take_append_drop count (s.chains fid propertyId).deltas] at horder
  have hreads := h.reads id fid hi propertyId r hlast
  unfold Reads at hreads
  rw [← List.take_append_drop count (s.chains fid propertyId).deltas,
    lookup_append horder] at hreads
  rw [applyFiles_eq _ (List.pairwise_append.mp horder).1]
  cases hlate : lookup ((s.chains fid propertyId).deltas.drop count) id with
  | some r' =>
    rw [hlate] at hreads
    rcases hreads with hreads | ⟨hreads, -⟩
    · exact Or.inl hreads
    · cases hreads
  | none =>
    rw [hlate, Option.none_or] at hreads
    refine Or.inr ⟨rfl, ?_⟩
    rcases hreads with hearly | ⟨hearly, hcolumn⟩
    · rw [hearly]
      exact h.acknowledged_fits _ (mem_of_lastAcknowledged hlast).1
    · rw [hearly]
      exact hcolumn

/-- The state after a merge of the first files of a chain. -/
def merged (lengths : Nat → Nat) (fid propertyId count : Nat) (s : State) : State :=
  { s.setChain fid propertyId ⟨(s.chains fid propertyId).deltas.drop count, true⟩ with
    column := fun i p => if i = fid ∧ p = propertyId then
      applyFiles (lengths p) ((s.chains fid propertyId).deltas.take count) (s.column i p)
      else s.column i p }

theorem inv_merged {count : Nat} (h : Inv lengths s) :
    Inv lengths (merged lengths fid propertyId count s) := by
  unfold merged
  refine ⟨h.active, h.placed, ?_, h.acknowledged_placed, h.acknowledged_fits, ?_, ?_, ?_, ?_, ?_⟩
  · intro i hi
    refine ⟨(h.fresh i hi).1, fun p => ?_⟩
    dsimp only [State.setChain]
    split
    · rename_i heq
      rw [← heq.1, ← heq.2, (h.fresh i hi).2 p, List.drop_nil]
    · exact (h.fresh i hi).2 p
  · intro i p f hf r hr
    dsimp only [State.setChain] at hf
    split at hf
    · rename_i heq
      rw [heq.2]
      exact h.chain_acknowledged fid propertyId f (List.mem_of_mem_drop hf) r hr
    · exact h.chain_acknowledged i p f hf r hr
  · intro i p hne
    dsimp only [State.setChain] at hne ⊢
    split at hne
    · rename_i heq
      rw [heq.1, heq.2]
      refine h.registered fid propertyId fun hnil => hne ?_
      rw [hnil, List.drop_nil]
    · exact h.registered i p hne
  · intro i p
    dsimp only [State.setChain]
    split
    · exact List.Pairwise.sublist (List.drop_sublist _ _) (h.order fid propertyId)
    · exact h.order i p
  · intro id i hi p r hlast
    unfold Reads
    dsimp only [State.setChain] at hi ⊢
    split
    · rename_i heq
      obtain ⟨rfl, rfl⟩ := heq
      exact reads_mergeChain h count hi hlast
    · exact h.reads id i hi p r hlast
  · intro inputs columns hphase
    have hm := h.merging inputs columns hphase
    refine ⟨hm.file, ?_, ?_⟩
    · intro i hin p
      dsimp only [State.setChain]
      split
      · rename_i heq
        rw [← heq.1, ← heq.2, hm.drained i hin p, List.drop_nil]
      · exact hm.drained i hin p
    · intro id i hi hin p
      dsimp only [State.setChain]
      split
      · -- The chain of an input is empty, so its column stays.
        rename_i heq
        rw [← heq.1, ← heq.2, hm.drained i hin p, List.take_nil]
        exact hm.columns id i hi hin p
      · exact hm.columns id i hi hin p

theorem inv_mergeChain {count : Nat} (h : Inv lengths s)
    (hs : mergeChain lengths fid propertyId count s = some s') :
    Inv lengths s' := by
  unfold mergeChain at hs
  dsimp only at hs
  split at hs
  · cases hs
    exact inv_merged h
  · cases hs

end

/-! ## The compaction -/

theorem inv_lock (h : Inv lengths s) (hs : lock s = some s') : Inv lengths s' := by
  unfold lock at hs
  split at hs
  · cases hs
    exact inv_of_phase h fun _ _ heq => by cases heq
  · cases hs

theorem inv_drain (h : Inv lengths s) (hs : drain lengths s = some s') : Inv lengths s' := by
  unfold drain at hs
  split at hs
  · dsimp only at hs
    split at hs
    · split at hs
      · rename_i hmerge
        cases hs
        exact inv_of_phase (inv_mergeChain h hmerge) fun _ _ heq => by cases heq
      · cases hs
        exact inv_of_phase h fun _ _ heq => by cases heq
    · cases hs
      exact inv_of_phase h fun _ _ heq => by cases heq
  · cases hs

/-- No chain of an input has deltas left. -/
def Drained (s : State) (inputs : List Nat) : Prop :=
  ∀ t ∈ s.registry, t.1 ∈ inputs → (s.chains t.1 t.2).deltas = []

instance (s : State) (inputs : List Nat) : Decidable (Drained s inputs) :=
  inferInstanceAs (Decidable (∀ _ ∈ _, _))

theorem inv_pick {inputs : List Nat} (h : Inv lengths s) (hdrained : Drained s inputs)
    (hs : pick inputs s = some s') : Inv lengths s' := by
  unfold pick at hs
  split at hs
  · split at hs
    · rename_i hfile
      cases hs
      refine inv_of_phase h fun _ _ heq => ?_
      cases heq
      refine ⟨hfile, ?_, ?_⟩
      · intro fid hin p
        by_contra hne
        exact hne (hdrained (fid, p) (h.registered fid p hne) hin)
      · intro id fid hfid _ p
        rw [hfid]
        rfl
    · cases hs
  · cases hs

theorem inv_install (h : Inv lengths s) (hs : install s = some s') : Inv lengths s' := by
  unfold install at hs
  split at hs
  · rename_i inputs columns hphase
    cases hs
    have hm := h.merging inputs columns hphase
    have hold : ∀ fid, s.base fid ≠ .absent → fid ≠ s.nextFid := by
      intro fid hb heq
      exact hb (h.fresh fid (Nat.le_of_eq heq.symm)).1
    refine ⟨?_, ?_, ?_, ?_, h.acknowledged_fits, h.chain_acknowledged, h.registered,
      h.order, ?_, ?_⟩
    · dsimp only
      rw [if_neg (hold _ (by rw [h.active]; decide)), if_neg]
      · exact h.active
      · intro hin
        have hfile := hm.file _ hin
        rw [h.active] at hfile
        cases hfile
    · intro id fid hfid
      obtain ⟨i, hi, rfl⟩ := Option.map_eq_some_iff.mp hfid
      dsimp only
      by_cases hin : i ∈ inputs
      · rw [if_pos hin, if_pos rfl]
        exact Or.inr rfl
      · have hb := h.placed id i hi
        rw [if_neg hin, if_neg (hold i (by rcases hb with hb | hb <;> rw [hb] <;> decide)),
          if_neg hin]
        exact hb
    · intro fid hfid
      dsimp only at hfid ⊢
      have hfresh := h.fresh fid (by omega)
      refine ⟨?_, hfresh.2⟩
      rw [if_neg (by omega), if_neg]
      · exact hfresh.1
      · intro hin
        have hfile := hm.file fid hin
        rw [hfresh.1] at hfile
        cases hfile
    · intro q hq hnone
      exact h.acknowledged_placed q hq (Option.map_eq_none_iff.mp hnone)
    · intro id fid hfid p r hlast
      obtain ⟨i, hi, rfl⟩ := Option.map_eq_some_iff.mp hfid
      have hreads := h.reads id i hi p r hlast
      unfold Reads at hreads ⊢
      dsimp only
      by_cases hin : i ∈ inputs
      · -- The output has no chain yet, and the column of the drained input.
        rw [if_pos hin, if_pos rfl, (h.fresh s.nextFid (Nat.le_refl _)).2 p]
        rw [hm.drained i hin p] at hreads
        rcases hreads with hreads | ⟨-, hcolumn⟩
        · cases hreads
        · exact Or.inr ⟨rfl, (hm.columns id i hi hin p).trans hcolumn⟩
      · have hb := h.placed id i hi
        rw [if_neg hin, if_neg (hold i (by rcases hb with hb | hb <;> rw [hb] <;> decide))]
        exact hreads
    · intro _ _ heq
      cases heq
  · cases hs

/-! ## Every run -/

/-- The updates of a record are attached in the order of their commits, their values fit their
column, and a compaction selects no file whose chains still have deltas. -/
def KeepsUpdates (lengths : Nat → Nat) (s : State) : Action → Prop
  | .attach _ propertyId _ records => ByCommit s propertyId records ∧
      ∀ r ∈ records, keptValue (lengths propertyId) r.value = r.value
  | .pick inputs => Drained s inputs
  | _ => True

instance (lengths : Nat → Nat) (s : State) (a : Action) : Decidable (KeepsUpdates lengths s a) := by
  cases a <;> unfold KeepsUpdates <;> infer_instance

theorem inv_step (s : State) (a : Action) (s' : State) (h : Inv lengths s)
    (hok : KeepsUpdates lengths s a) (hs : step lengths s a = some s') : Inv lengths s' := by
  cases a with
  | put id value => exact inv_put h hs
  | switch =>
    cases hs
    exact inv_switch h
  | publish fid => exact inv_publish h hs
  | markTargetPersistent fid propertyId => exact inv_markTargetPersistent h hs
  | attach fid propertyId sawMemtable records => exact inv_attach h hok.1 hok.2 hs
  | mergeChain fid propertyId count => exact inv_mergeChain h hs
  | lock => exact inv_lock h hs
  | drain => exact inv_drain h hs
  | pick inputs => exact inv_pick h hok hs
  | install => exact inv_install h hs

/-- One update of the edge from 1 to 2. -/
def anUpdate : PropertyDeltaRecord := ⟨1, 2, 0, 1, true, 0, [7]⟩

end RichGraph.DeltaHandOff
