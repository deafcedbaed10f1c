-- What the recovery of the delta store finds. The live files of a store are the
-- files of its manifest; from a disk that has them all, the recovery gives chains
-- of the same files over the columns that are there.
import RichGraph.PropertyDeltaStore
import Mathlib.Algebra.Order.BigOperators.Group.List

namespace RichGraph

open Lib Manifest

/-! ## Names of files -/

section

variable {target target' : PropertyDeltaTarget} {generation generation' : Nat}

theorem kindLetter_injective {kind kind' : PropertyObjectKind}
    (h : kindLetter kind = kindLetter kind') : kind = kind' := by
  revert h
  cases kind <;> cases kind' <;> decide

/-- The name tells the target and the generation: the digits stand between letters. -/
theorem deltaFileName_injective
    (h : deltaFileName target generation = deltaFileName target' generation') :
    target = target' ∧ generation = generation' := by
  have hs : bytes "-s" = [45] ++ [115] := by decide
  have hf : bytes "-f" = [45] ++ [102] := by decide
  have hb : bytes "-b" = [45] ++ [98] := by decide
  have hp : bytes "-p" = [45] ++ [112] := by decide
  have hg : bytes "-g" = [45] ++ [103] := by decide
  unfold deltaFileName at h
  have h := List.append_cancel_right h
  rw [hs, hf, hb, hp, hg] at h
  obtain ⟨h, hgeneration⟩ := append_decimal_injective (by decide) h
  obtain ⟨h, hproperty⟩ := append_decimal_injective (by decide) h
  obtain ⟨h, hbase⟩ := append_decimal_injective (by decide) h
  obtain ⟨h, hfile⟩ := append_decimal_injective (by decide) h
  obtain ⟨h, hshard⟩ := append_decimal_injective (by decide) h
  have hkind := kindLetter_injective (List.append_cancel_left h)
  refine ⟨?_, hgeneration⟩
  obtain ⟨kind, shard, file, base, property⟩ := target
  obtain ⟨kind', shard', file', base', property'⟩ := target'
  dsimp only at hkind hshard hfile hbase hproperty
  rw [hkind, hshard, hfile, hbase, hproperty]

theorem deltaFileName_generation
    (h : deltaFileName target generation = deltaFileName target' generation') :
    generation = generation' := (deltaFileName_injective h).2

theorem mem_bytes_of_all {text alphabet : String}
    (hall : (bytes text).all (fun c => (bytes alphabet).contains c) = true) {b : UInt8}
    (h : b ∈ bytes text) : b ∈ bytes alphabet :=
  List.contains_iff_mem.mp (List.all_eq_true.mp hall b h)

/-- The bytes of a name are digits and a few others. -/
theorem mem_deltaFileName {b : UInt8} (h : b ∈ deltaFileName target generation) :
    48 ≤ b.toNat ∧ b.toNat < 58 ∨ b ∈ bytes "delta-nesfbpg.r" := by
  unfold deltaFileName at h
  have hkind : b ∈ kindLetter target.kind → b ∈ bytes "delta-nesfbpg.r" := by
    cases target.kind with
    | kNode => exact mem_bytes_of_all (by decide)
    | kEdge => exact mem_bytes_of_all (by decide)
  simp only [List.mem_append] at h
  rcases h with (((((((((((h | h) | h) | h) | h) | h) | h) | h) | h) | h) | h) | h) | h
  · exact Or.inr (mem_bytes_of_all (by decide) h)
  · exact Or.inr (hkind h)
  · exact Or.inr (mem_bytes_of_all (by decide) h)
  · exact Or.inl (mem_decimal h)
  · exact Or.inr (mem_bytes_of_all (by decide) h)
  · exact Or.inl (mem_decimal h)
  · exact Or.inr (mem_bytes_of_all (by decide) h)
  · exact Or.inl (mem_decimal h)
  · exact Or.inr (mem_bytes_of_all (by decide) h)
  · exact Or.inl (mem_decimal h)
  · exact Or.inr (mem_bytes_of_all (by decide) h)
  · exact Or.inl (mem_decimal h)
  · exact Or.inr (mem_bytes_of_all (by decide) h)

theorem validFileName_deltaFileName : ValidFileName (deltaFileName target generation) := by
  have hhead : ∃ rest, deltaFileName target generation = 100 :: 101 :: 108 :: rest := by
    have hdelta : bytes "delta-" = [100, 101, 108, 116, 97, 45] := by decide
    unfold deltaFileName
    rw [hdelta]
    simp only [List.append_assoc, List.cons_append]
    exact ⟨_, rfl⟩
  obtain ⟨rest, hrest⟩ := hhead
  refine ⟨by simp [hrest], fun h => ?_, by simp [hrest], by simp [hrest]⟩
  rcases mem_deltaFileName h with ⟨hlow, -⟩ | hmem
  · exact absurd hlow (by decide)
  · revert hmem
    decide

/-- A name of a delta file is not that of a temporary file. -/
theorem not_temporary_deltaFileName : ¬ bytes ".tmp." <:+: deltaFileName target generation := by
  intro h
  have hm : (109 : UInt8) ∈ deltaFileName target generation := h.subset (by decide)
  rcases mem_deltaFileName hm with ⟨-, hhigh⟩ | hmem
  · exact absurd hhigh (by decide)
  · revert hmem
    decide

theorem length_deltaFileName_le (hshard : target.shardId < 256 ^ 4)
    (hproperty : target.propertyId < 256 ^ 4) (hfile : target.baseFileId < 256 ^ 4)
    (hbase : target.baseGeneration < 256 ^ 8) (hgeneration : generation < 256 ^ 8) :
    (deltaFileName target generation).length ≤ 91 := by
  have h1 := length_decimal_le 10 (by decide) (Nat.lt_trans hshard (by decide))
  have h2 := length_decimal_le 10 (by decide) (Nat.lt_trans hproperty (by decide))
  have h3 := length_decimal_le 10 (by decide) (Nat.lt_trans hfile (by decide))
  have h4 := length_decimal_le 20 (by decide) (Nat.lt_trans hbase (by decide))
  have h5 := length_decimal_le 20 (by decide) (Nat.lt_trans hgeneration (by decide))
  have hkind : (kindLetter target.kind).length = 1 := by
    cases target.kind <;> decide
  have hconst : (bytes "delta-").length = 6 ∧ (bytes "-s").length = 2 ∧ (bytes "-f").length = 2 ∧
      (bytes "-b").length = 2 ∧ (bytes "-p").length = 2 ∧ (bytes "-g").length = 2 ∧
      (bytes ".rgd").length = 4 := by decide
  unfold deltaFileName
  simp only [List.length_append, hkind]
  omega

end

/-! ## Live files -/

/-- The files that a manifest names, each with its flag in the manifest. -/
abbrev LiveFiles := List (PropertyDeltaFile × Bool)

def entryOf (p : PropertyDeltaFile × Bool) : PropertyDeltaManifestEntry :=
  ⟨p.1.fileName, p.1.metadata, p.2⟩

namespace LiveFiles

/-- The files of a chain, oldest first. -/
def of (live : LiveFiles) (target : PropertyDeltaTarget) : List PropertyDeltaFile :=
  (live.filter (·.1.metadata.target = target)).map Prod.fst

/-- The generations go up. -/
def Rising (live : LiveFiles) : Prop :=
  live.Pairwise fun p q => p.1.metadata.fileGeneration < q.1.metadata.fileGeneration

/-- The entry of a file is marked persistent. -/
def setPersistent (live : LiveFiles) (f : PropertyDeltaFile) : LiveFiles :=
  live.map fun p => if p.1 = f then (f, true) else p

def without (live : LiveFiles) (names : List Bytes) : LiveFiles :=
  live.filter fun p => p.1.fileName ∉ names

variable {live : LiveFiles} {f : PropertyDeltaFile} {b : Bool} {target : PropertyDeltaTarget}

theorem mem_of {g : PropertyDeltaFile} :
    g ∈ live.of target ↔ (∃ flag, (g, flag) ∈ live) ∧ g.metadata.target = target := by
  unfold of
  constructor
  · intro h
    obtain ⟨⟨g', flag⟩, hp, rfl⟩ := List.mem_map.mp h
    obtain ⟨hmem, htarget⟩ := List.mem_filter.mp hp
    exact ⟨⟨flag, hmem⟩, of_decide_eq_true htarget⟩
  · rintro ⟨⟨flag, hmem⟩, htarget⟩
    exact List.mem_map.mpr ⟨(g, flag), List.mem_filter.mpr ⟨hmem, by simpa using htarget⟩, rfl⟩

/-- The generation of a live file tells which it is. -/
theorem Rising.eq_of_generation (h : live.Rising) {p q : PropertyDeltaFile × Bool} (hp : p ∈ live)
    (hq : q ∈ live) (hg : p.1.metadata.fileGeneration = q.1.metadata.fileGeneration) : p = q := by
  have hnodup : (live.map fun p => p.1.metadata.fileGeneration).Nodup := by
    apply List.pairwise_map.mpr
    exact List.Pairwise.imp (fun hlt => Nat.ne_of_lt hlt) h
  exact List.inj_on_of_nodup_map hnodup hp hq hg

theorem Rising.eq_of_fileName (h : live.Rising) {p q : PropertyDeltaFile × Bool} (hp : p ∈ live)
    (hq : q ∈ live) (hname : p.1.fileName = q.1.fileName) : p = q :=
  h.eq_of_generation hp hq (deltaFileName_generation hname)

theorem fst_setPersistent (p : PropertyDeltaFile × Bool) (f : PropertyDeltaFile) :
    (if p.1 = f then (f, true) else p).1 = p.1 := by
  split
  · rename_i heq
    exact heq.symm
  · rfl

theorem of_setPersistent (live : LiveFiles) (f : PropertyDeltaFile) (target : PropertyDeltaTarget) :
    (live.setPersistent f).of target = live.of target := by
  unfold of setPersistent
  induction live with
  | nil => rfl
  | cons p live ih =>
    by_cases ht : p.1.metadata.target = target
    · simp only [List.map_cons, List.filter_cons, fst_setPersistent, ht, decide_true, if_true]
      rw [ih]
    · simp only [List.map_cons, List.filter_cons, fst_setPersistent, ht, decide_false,
        Bool.false_eq_true, if_false]
      exact ih

theorem mem_setPersistent {p : PropertyDeltaFile × Bool} (h : p ∈ live.setPersistent f) :
    ∃ flag, (p.1, flag) ∈ live := by
  obtain ⟨q, hq, rfl⟩ := List.mem_map.mp h
  split
  · rename_i heq
    exact ⟨q.2, heq ▸ hq⟩
  · exact ⟨q.2, hq⟩

theorem Rising.setPersistent (h : live.Rising) (f : PropertyDeltaFile) :
    (live.setPersistent f).Rising := by
  refine List.pairwise_map.mpr (h.imp ?_)
  intro p q hlt
  rw [fst_setPersistent, fst_setPersistent]
  exact hlt

theorem of_without (live : LiveFiles) (names : List Bytes) (target : PropertyDeltaTarget) :
    (live.without names).of target = (live.of target).filter fun f => f.fileName ∉ names := by
  unfold of without
  rw [List.filter_map, List.filter_filter, List.filter_filter]
  congr 1
  apply List.filter_congr
  intro p _
  simp [Bool.and_comm]

/-- A file with a new generation is added at the end. -/
theorem applyAdd_new (h : ∀ p ∈ live, p.1.metadata.fileGeneration < f.metadata.fileGeneration) :
    applyAdd (live.map entryOf) (entryOf (f, b)) = (live ++ [(f, b)]).map entryOf := by
  induction live with
  | nil => rfl
  | cons p live ih =>
    have hne : (entryOf p).fileName ≠ (entryOf (f, b)).fileName := by
      intro hname
      have hlt := h p List.mem_cons_self
      exact absurd (deltaFileName_generation hname) (Nat.ne_of_lt hlt)
    simp only [List.map_cons, List.cons_append, applyAdd, if_neg hne]
    rw [ih fun q hq => h q (List.mem_cons_of_mem _ hq)]

/-- A file that is live is added again where it stands. -/
theorem applyAdd_again (h : live.Rising) (hf : ∃ flag, (f, flag) ∈ live) :
    applyAdd (live.map entryOf) (entryOf (f, true)) = (live.setPersistent f).map entryOf := by
  obtain ⟨flag, hf⟩ := hf
  induction live with
  | nil => cases hf
  | cons p live ih =>
    obtain ⟨hp, hlive⟩ := List.pairwise_cons.mp h
    unfold setPersistent
    rw [List.map_cons, List.map_cons, List.map_cons]
    rcases List.mem_cons.mp hf with rfl | hf
    · -- The others have other generations, and so are not this file.
      have hrest : live.map (fun p => if p.1 = f then (f, true) else p) = live := by
        refine (List.map_congr_left fun q hq => ?_).trans (List.map_id _)
        have hlt := hp q hq
        have hne : q.1 ≠ f := by
          rintro rfl
          exact absurd hlt (Nat.lt_irrefl _)
        simp [hne]
      simp only [applyAdd, entryOf, if_true, hrest]
    · have hlt := hp (f, flag) hf
      have hne : p.1 ≠ f := by
        rintro rfl
        exact absurd hlt (Nat.lt_irrefl _)
      have hname : (entryOf p).fileName ≠ (entryOf (f, true)).fileName := by
        intro hname
        exact absurd (deltaFileName_generation hname) (Nat.ne_of_lt hlt)
      simp only [applyAdd, if_neg hname, if_neg hne]
      rw [ih hlive hf]
      rfl

theorem applyRemove_names (live : LiveFiles) (names : List Bytes) :
    applyRemove (live.map entryOf) names = (live.without names).map entryOf := by
  unfold applyRemove without
  rw [List.filter_map]
  rfl

end LiveFiles

/-! ## The size of the log -/

/-- The bytes of the records that would add the entries again. -/
def entriesBytes (active : List PropertyDeltaManifestEntry) : Nat :=
  (active.map fun e => headerBytes + addPayloadBytes + e.fileName.length).sum

theorem length_record_eq (e : Edit) (sequence : Nat) :
    (e.record sequence).length = headerBytes + e.payload.length := by
  simp [Edit.record, recordOf, Header.bytes, makeHeader, magic, headerBytes]
  omega

theorem entriesBytes_applyAdd (active : List PropertyDeltaManifestEntry)
    (entry : PropertyDeltaManifestEntry) :
    entriesBytes (applyAdd active entry) ≤
      entriesBytes active + (headerBytes + addPayloadBytes + entry.fileName.length) := by
  induction active with
  | nil => simp [applyAdd, entriesBytes]
  | cons item active ih =>
    unfold entriesBytes at ih ⊢
    unfold applyAdd
    split
    · simp only [List.map_cons, List.sum_cons]
      omega
    · simp only [List.map_cons, List.sum_cons]
      omega

theorem entriesBytes_sublist {active active' : List PropertyDeltaManifestEntry}
    (h : active.Sublist active') : entriesBytes active ≤ entriesBytes active' := by
  unfold entriesBytes
  induction h with
  | slnil => exact Nat.le_refl _
  | cons e _ ih =>
    simp only [List.map_cons, List.sum_cons]
    omega
  | cons_cons e _ ih =>
    simp only [List.map_cons, List.sum_cons]
    omega

/-- The log has a record for every active entry. -/
theorem entriesBytes_applyAll (active : List PropertyDeltaManifestEntry) (es : List Edit)
    (sequence : Nat) :
    entriesBytes (applyAll active es) ≤ entriesBytes active + (logOf sequence es).length := by
  induction es generalizing active sequence with
  | nil => simp [applyAll, logOf]
  | cons e es ih =>
    have hrest := ih (e.apply active) (sequence + 1)
    have hstep : entriesBytes (e.apply active) ≤
        entriesBytes active + (e.record sequence).length := by
      rw [length_record_eq]
      cases e with
      | add entry =>
        have := entriesBytes_applyAdd active entry
        simp only [Edit.apply, Edit.payload, length_encodeAdd]
        omega
      | remove names =>
        have := entriesBytes_sublist (List.filter_sublist (l := active)
          (p := fun entry => decide (entry.fileName ∉ names)))
        simp only [Edit.apply, applyRemove]
        omega
    simp only [applyAll, List.foldl_cons, logOf, List.length_append] at hrest ⊢
    omega

/-- Appends that fit the log all succeed. -/
theorem appendAll_of_room {es es' : List Edit}
    (hes : ∀ e ∈ es', e ≠ .remove [] ∧ e.Accepted ∧ e.payload.length ≤ maxUInt32)
    (hroom : (logOf 1 (es ++ es')).length ≤ maxFileBytes) :
    appendAll es' (ofEdits es) = some (ofEdits (es ++ es')) := by
  induction es' generalizing es with
  | nil => simp [appendAll]
  | cons e es' ih =>
    obtain ⟨hne, hacc, hle⟩ := hes e List.mem_cons_self
    have hsplit : es ++ e :: es' = es ++ [e] ++ es' := by simp
    have happend : append e .succeeds (ofEdits es) = (ofEdits (es ++ [e]), true) := by
      rw [ofEdits_concat]
      apply append_of_room hne hacc hle
      rw [hsplit, logOf_append, logOf_append] at hroom
      simp only [logOf, List.append_nil, List.length_append, Nat.add_comm 1] at hroom
      simp only [ofEdits]
      omega
    simp only [appendAll, happend]
    rw [hsplit] at hroom ⊢
    exact ih (fun x hx => hes x (List.mem_cons_of_mem _ hx)) hroom

/-! ## The loop over the entries -/

/-- A disk whose log is that of the edits, and that has the live files. -/
structure Sound (d : Disk) (es : List Edit) (live : LiveFiles) : Prop where
  manifest : d.manifest = logOf 1 es
  logged : Logged es
  active : applyAll [] es = live.map entryOf
  rising : live.Rising
  files : ∀ p ∈ live, d.files p.1.fileName = some p.1

/-- A delta of a MemTable whose file is not there. -/
def Disk.loses (d : Disk) (p : PropertyDeltaFile × Bool) : Bool :=
  !p.2 && (d.ssts p.1.metadata.target.baseFileId).isNone

/-- The entries that the recovery drops, and those that it marks persistent. -/
def Disk.abandoned (d : Disk) (live : LiveFiles) : List Bytes :=
  (live.filter d.loses).map (·.1.fileName)

def Disk.promoted (d : Disk) (live : LiveFiles) : LiveFiles :=
  live.filter fun p => !p.2 && !d.loses p

def Disk.kept (d : Disk) (live : LiveFiles) : LiveFiles := live.filter fun p => !d.loses p

namespace PropertyDeltaStore

namespace Recovery

def deltas (r : Recovery) (target : PropertyDeltaTarget) : List PropertyDeltaFile :=
  ((r.chains target).map fun c => c.readView.deltas).getD []

def mergedBase (r : Recovery) (target : PropertyDeltaTarget) : Option Bytes :=
  (r.chains target).bind fun c => c.readView.mergedBase

end Recovery

variable {d : Disk} {r : Recovery} {p : PropertyDeltaFile × Bool} {live : LiveFiles}

theorem recoverEntry_loses (h : d.loses p = true) :
    recoverEntry d r (entryOf p) = .ok { r with
      maximumGeneration := max r.maximumGeneration p.1.metadata.fileGeneration
      abandoned := r.abandoned ++ [p.1.fileName] } := by
  unfold recoverEntry
  apply if_pos
  simpa [Disk.loses, entryOf] using h

theorem recoverEntry_keeps (h : d.loses p = false) (hfile : d.files p.1.fileName = some p.1) :
    ∃ r', recoverEntry d r (entryOf p) = .ok r' ∧
      r'.maximumGeneration = max r.maximumGeneration p.1.metadata.fileGeneration ∧
      r'.abandoned = r.abandoned ∧
      r'.promoted = r.promoted ++ (if p.2 then [] else [entryOf (p.1, true)]) ∧
      r'.chains = fun t => if t = p.1.metadata.target then
        some (recoverFile ((r.chains p.1.metadata.target).getD ⟨⟨none, [], 0⟩, false⟩) p.1)
        else r.chains t := by
  have hkeep : ¬ (¬ (entryOf p).targetIsPersistent = true ∧
      (d.ssts (entryOf p).metadata.target.baseFileId).isNone = true) := by
    simpa [Disk.loses, entryOf, Option.isSome_iff_ne_none] using h
  have hfile' : d.files (entryOf p).fileName = some p.1 := hfile
  have hmeta : ¬ p.1.metadata ≠ (entryOf p).metadata := by simp [entryOf]
  unfold recoverEntry
  simp only [if_neg hkeep, hfile', if_neg hmeta]
  refine ⟨_, rfl, rfl, rfl, ?_, rfl⟩
  cases hp : p.2 <;> simp [entryOf, hp]

/-- The file goes to the end of its chain, as its generation is the latest. -/
theorem deltas_recoverFile {c : Chain} {f : PropertyDeltaFile}
    (hsorted : c.readView.deltas.Pairwise fun a b =>
      a.metadata.fileGeneration ≤ b.metadata.fileGeneration)
    (hlast : ∀ g ∈ c.readView.deltas, g.metadata.fileGeneration ≤ f.metadata.fileGeneration) :
    (recoverFile c f).readView.deltas = c.readView.deltas ++ [f] := by
  apply List.Pairwise.insertionSort_eq
  rw [List.pairwise_append]
  refine ⟨hsorted, List.pairwise_singleton _ _, ?_⟩
  intro g hg x hx
  rw [List.mem_singleton.mp hx]
  exact hlast g hg

/-- The chains of a recovery are in order, and before the files that are still to come. -/
structure Before (r : Recovery) (live : LiveFiles) : Prop where
  sorted : ∀ target, (r.deltas target).Pairwise fun a b =>
    a.metadata.fileGeneration ≤ b.metadata.fileGeneration
  lt : ∀ target, ∀ f ∈ r.deltas target, ∀ p ∈ live,
    f.metadata.fileGeneration < p.1.metadata.fileGeneration

theorem of_cons (p : PropertyDeltaFile × Bool) (live : LiveFiles) (target : PropertyDeltaTarget) :
    LiveFiles.of (p :: live) target =
      (if p.1.metadata.target = target then [p.1] else []) ++ LiveFiles.of live target := by
  unfold LiveFiles.of
  by_cases h : p.1.metadata.target = target <;> simp [h]

/-- What one entry that is kept does to the chains. -/
theorem deltas_of_kept {r' : Recovery} (hbefore : Before r (p :: live))
    (hchains : r'.chains = fun t => if t = p.1.metadata.target then
      some (recoverFile ((r.chains p.1.metadata.target).getD ⟨⟨none, [], 0⟩, false⟩) p.1)
      else r.chains t) (target : PropertyDeltaTarget) :
    r'.deltas target =
        r.deltas target ++ (if p.1.metadata.target = target then [p.1] else []) ∧
      r'.mergedBase target = r.mergedBase target := by
  unfold Recovery.deltas Recovery.mergedBase
  rw [hchains]
  by_cases ht : p.1.metadata.target = target
  · subst ht
    have hdeltas : ((r.chains p.1.metadata.target).getD ⟨⟨none, [], 0⟩, false⟩).readView.deltas =
        r.deltas p.1.metadata.target := by
      unfold Recovery.deltas
      cases r.chains p.1.metadata.target <;> rfl
    have hadd := deltas_recoverFile
      (c := (r.chains p.1.metadata.target).getD ⟨⟨none, [], 0⟩, false⟩) (f := p.1)
      (by rw [hdeltas]; exact hbefore.sorted _)
      (by
        rw [hdeltas]
        exact fun g hg => Nat.le_of_lt (hbefore.lt _ g hg p List.mem_cons_self))
    simp only [if_true, Option.map_some, Option.getD_some, hadd, hdeltas, Option.bind_some]
    refine ⟨rfl, ?_⟩
    unfold recoverFile
    cases r.chains p.1.metadata.target <;> rfl
  · have hne : target ≠ p.1.metadata.target := fun h => ht h.symm
    simp [ht, hne]

/-- The loop keeps the files whose base is there, in their order. -/
theorem recoverEntries_live (hrising : live.Rising)
    (hfiles : ∀ p ∈ live, d.files p.1.fileName = some p.1) (hbefore : Before r live) :
    ∃ r', recoverEntries d r (live.map entryOf) = .ok r' ∧
      r'.abandoned = r.abandoned ++ d.abandoned live ∧
      r'.promoted = r.promoted ++ (d.promoted live).map (fun p => entryOf (p.1, true)) ∧
      (∀ target, r'.deltas target = r.deltas target ++ (d.kept live).of target) ∧
      (∀ target, r'.mergedBase target = r.mergedBase target) ∧
      r'.maximumGeneration =
        live.foldl (fun most p => max most p.1.metadata.fileGeneration) r.maximumGeneration := by
  induction live generalizing r with
  | nil =>
    exact ⟨r, rfl, by simp [Disk.abandoned], by simp [Disk.promoted],
      by simp [Disk.kept, LiveFiles.of], fun _ => rfl, rfl⟩
  | cons p live ih =>
    obtain ⟨hp, hlive⟩ := List.pairwise_cons.mp hrising
    have hfiles' : ∀ q ∈ live, d.files q.1.fileName = some q.1 :=
      fun q hq => hfiles q (List.mem_cons_of_mem _ hq)
    simp only [List.map_cons, recoverEntries]
    cases hloses : d.loses p with
    | true =>
      rw [recoverEntry_loses hloses]
      have hbefore' : Before { r with
          maximumGeneration := max r.maximumGeneration p.1.metadata.fileGeneration
          abandoned := r.abandoned ++ [p.1.fileName] } live :=
        ⟨hbefore.sorted, fun t f hf q hq => hbefore.lt t f hf q (List.mem_cons_of_mem _ hq)⟩
      obtain ⟨r', hok, hab, hpr, hdel, hbase, hmax⟩ := ih hlive hfiles' hbefore'
      refine ⟨r', hok, ?_, ?_, ?_, hbase, hmax⟩
      · rw [hab]
        simp [Disk.abandoned, hloses]
      · rw [hpr]
        simp [Disk.promoted, hloses]
      · intro target
        rw [hdel target]
        simp [Disk.kept, hloses, Recovery.deltas]
    | false =>
      obtain ⟨r₁, hok₁, hmax₁, hab₁, hpr₁, hchains⟩ :=
        recoverEntry_keeps (r := r) hloses (hfiles p List.mem_cons_self)
      rw [hok₁]
      have hdel₁ := fun target => (deltas_of_kept hbefore hchains target).1
      have hbase₁ := fun target => (deltas_of_kept hbefore hchains target).2
      have hbefore' : Before r₁ live := by
        constructor
        · intro target
          rw [hdel₁ target, List.pairwise_append]
          refine ⟨hbefore.sorted _, by split <;> simp, ?_⟩
          intro f hf g hg
          split at hg
          · rw [List.mem_singleton.mp hg]
            exact Nat.le_of_lt (hbefore.lt _ f hf p List.mem_cons_self)
          · cases hg
        · intro target f hf q hq
          rw [hdel₁ target] at hf
          rcases List.mem_append.mp hf with hf | hf
          · exact hbefore.lt _ f hf q (List.mem_cons_of_mem _ hq)
          · split at hf
            · rw [List.mem_singleton.mp hf]
              exact hp q hq
            · cases hf
      obtain ⟨r', hok, hab, hpr, hdel, hbase, hmax⟩ := ih hlive hfiles' hbefore'
      refine ⟨r', hok, ?_, ?_, ?_, fun t => (hbase t).trans (hbase₁ t), ?_⟩
      · rw [hab, hab₁]
        simp [Disk.abandoned, hloses]
      · rw [hpr, hpr₁]
        cases hflag : p.2 <;> simp [Disk.promoted, hloses, hflag]
      · intro target
        have hkept : d.kept (p :: live) = p :: d.kept live := by simp [Disk.kept, hloses]
        rw [hdel target, hdel₁ target, hkept, of_cons, List.append_assoc]
      · rw [hmax, hmax₁]
        rfl

end PropertyDeltaStore

/-! ## The files after the recovery -/

theorem Disk.after_unlinks (d : Disk) (names : List Bytes) :
    d.after (names.map .unlinkDelta) =
      { d with files := fun name => if name ∈ names then none else d.files name } := by
  induction names generalizing d with
  | nil => simp [Disk.after]
  | cons name names ih =>
    rw [List.map_cons]
    change (DiskStep.apply d (.unlinkDelta name)).after (names.map .unlinkDelta) = _
    rw [ih]
    simp only [DiskStep.apply, Disk.mk.injEq, true_and, and_true]
    funext x
    by_cases hx : x = name <;> simp [hx]

section

variable {d : Disk} {live : LiveFiles}

/-- The live files after files of them were added again. -/
theorem LiveFiles.setPersistent_all (hrising : live.Rising) (fs : List PropertyDeltaFile)
    (hfs : ∀ f ∈ fs, ∃ flag, (f, flag) ∈ live) :
    applyAll (live.map entryOf) (fs.map fun f => .add (entryOf (f, true))) =
        (fs.foldl LiveFiles.setPersistent live).map entryOf ∧
      (fs.foldl LiveFiles.setPersistent live).Rising ∧
      (∀ p ∈ fs.foldl LiveFiles.setPersistent live, ∃ flag, (p.1, flag) ∈ live) ∧
      ∀ target, LiveFiles.of (fs.foldl LiveFiles.setPersistent live) target = live.of target := by
  induction fs generalizing live with
  | nil => exact ⟨rfl, hrising, fun p hp => ⟨p.2, hp⟩, fun _ => rfl⟩
  | cons f fs ih =>
    have hf := hfs f List.mem_cons_self
    have hfs' : ∀ g ∈ fs, ∃ flag, (g, flag) ∈ live.setPersistent f := by
      intro g hg
      obtain ⟨flag, hmem⟩ := hfs g (List.mem_cons_of_mem _ hg)
      unfold LiveFiles.setPersistent
      by_cases hgf : g = f
      · subst hgf
        exact ⟨true, List.mem_map.mpr ⟨(g, flag), hmem, if_pos rfl⟩⟩
      · exact ⟨flag, List.mem_map.mpr ⟨(g, flag), hmem, if_neg hgf⟩⟩
    obtain ⟨happly, hrise, hmem, hof⟩ := ih (hrising.setPersistent f) hfs'
    refine ⟨?_, hrise, ?_, fun t => (hof t).trans (LiveFiles.of_setPersistent live f t)⟩
    · rw [List.foldl_cons, ← happly, ← LiveFiles.applyAdd_again hrising hf]
      rfl
    · intro p hp
      obtain ⟨flag, hp'⟩ := hmem p hp
      obtain ⟨flag', hp''⟩ := LiveFiles.mem_setPersistent hp'
      exact ⟨flag', hp''⟩

/-- The live files of the store that the recovery gives. -/
def Disk.recovered (d : Disk) (live : LiveFiles) : LiveFiles :=
  (((d.promoted live).map Prod.fst).foldl LiveFiles.setPersistent live).without (d.abandoned live)

theorem Disk.promoted_mem : ∀ f ∈ (d.promoted live).map Prod.fst, ∃ flag, (f, flag) ∈ live := by
  intro f hf
  obtain ⟨p, hp, rfl⟩ := List.mem_map.mp hf
  exact ⟨p.2, List.mem_of_mem_filter hp⟩

/-- A file is abandoned or kept by what it is, since no other has its name. -/
theorem Disk.mem_abandoned (hrising : live.Rising) {p : PropertyDeltaFile × Bool} (hp : p ∈ live) :
    p.1.fileName ∈ d.abandoned live ↔ d.loses p = true := by
  constructor
  · intro h
    obtain ⟨q, hq, hname⟩ := List.mem_map.mp h
    obtain ⟨hq, hloses⟩ := List.mem_filter.mp hq
    rwa [hrising.eq_of_fileName hp hq hname.symm]
  · exact fun h => List.mem_map.mpr ⟨p, List.mem_filter.mpr ⟨hp, h⟩, rfl⟩

theorem Disk.of_recovered (hrising : live.Rising) (target : PropertyDeltaTarget) :
    (d.recovered live).of target = (d.kept live).of target := by
  obtain ⟨-, -, -, hof⟩ := LiveFiles.setPersistent_all hrising _ (Disk.promoted_mem (d := d))
  unfold Disk.recovered
  rw [LiveFiles.of_without, hof, ← LiveFiles.of_without]
  unfold Disk.kept LiveFiles.without
  congr 1
  apply List.filter_congr
  intro p hp
  rw [Bool.eq_iff_iff]
  simp [Disk.mem_abandoned hrising hp]

theorem Disk.recovered_rising (hrising : live.Rising) : (d.recovered live).Rising := by
  obtain ⟨-, hrise, -, -⟩ := LiveFiles.setPersistent_all hrising _ (Disk.promoted_mem (d := d))
  exact List.Pairwise.sublist List.filter_sublist hrise

theorem Disk.mem_recovered (hrising : live.Rising) {p : PropertyDeltaFile × Bool}
    (hp : p ∈ d.recovered live) :
    (∃ flag, (p.1, flag) ∈ live) ∧ p.1.fileName ∉ d.abandoned live := by
  obtain ⟨-, -, hmem, -⟩ := LiveFiles.setPersistent_all hrising _ (Disk.promoted_mem (d := d))
  obtain ⟨hp, hname⟩ := List.mem_filter.mp hp
  exact ⟨hmem p hp, by simpa using hname⟩

/-- Where the base of a file is there, nothing of its chain is abandoned. -/
theorem Disk.of_kept {target : PropertyDeltaTarget} (h : (d.ssts target.baseFileId).isSome) :
    (d.kept live).of target = live.of target := by
  unfold Disk.kept LiveFiles.of
  rw [List.filter_filter]
  congr 1
  apply List.filter_congr
  intro p _
  by_cases ht : p.1.metadata.target = target
  · simp [ht, Disk.loses, h]
  · simp [ht]

end

/-! ## The recovery -/

/-- No log comes near the largest offset of a file, beyond which a write fails. -/
def logLimit : Nat := 2 ^ 60

/-- The size of the payload of a removal. -/
def removalBytes (names : List Bytes) : Nat := (Edit.remove names).payload.length

theorem removalBytes_eq (names : List Bytes) :
    removalBytes names = 4 + (names.map fun name => 4 + name.length).sum := by
  unfold removalBytes
  simp only [Edit.payload, encodeRemove, List.length_append, length_toLe, List.length_flatMap,
    encodeName]

/-- A removal of valid names is accepted, if its payload has a size that a header can state. -/
theorem accepted_remove {names : List Bytes} (hvalid : ∀ name ∈ names, ValidFileName name)
    (hle : removalBytes names ≤ maxUInt32) : (Edit.remove names).Accepted := by
  rw [removalBytes_eq] at hle
  have hcount : names.length ≤ (names.map fun name => 4 + name.length).sum := by
    clear hvalid hle
    induction names with
    | nil => simp
    | cons name names ih =>
      simp only [List.length_cons, List.map_cons, List.sum_cons]
      omega
  refine ⟨by omega, fun name hname => ⟨hvalid name hname, ?_⟩⟩
  have hone : 4 + name.length ≤ (names.map fun name => 4 + name.length).sum := by
    apply List.single_le_sum (by simp)
    exact List.mem_map.mpr ⟨name, hname, rfl⟩
  omega

/-- A removal is written when a header can state its size, and refused otherwise. -/
theorem append_remove {es : List Edit} {names : List Bytes} (hne : Edit.remove names ≠ .remove [])
    (hvalid : ∀ name ∈ names, ValidFileName name)
    (hroom : (logOf 1 es).length ≤ 2 * logLimit) :
    append (.remove names) .succeeds (ofEdits es) =
      if removalBytes names ≤ maxUInt32 then (ofEdits (es ++ [.remove names]), true)
      else (ofEdits es, false) := by
  split
  · rename_i hle
    have hle' : (Edit.remove names).payload.length ≤ maxUInt32 := hle
    rw [ofEdits_concat]
    apply append_of_room hne (accepted_remove hvalid hle) hle
    have hlarge : 2 * logLimit + headerBytes + maxUInt32 ≤ maxFileBytes := by decide
    rw [length_record_eq]
    simp only [ofEdits]
    omega
  · rename_i hle
    rcases happend : append (.remove names) .succeeds (ofEdits es) with ⟨m, ok⟩
    rcases append_cases happend with ⟨rfl, hok⟩ | ⟨-, -, hle', -⟩
    · cases ok with
      | false => rfl
      | true => exact absurd (hok rfl) hne
    · exact absurd hle' hle

theorem length_logOf_adds (sequence : Nat) (entries : List PropertyDeltaManifestEntry) :
    (logOf sequence (entries.map .add)).length = entriesBytes entries := by
  induction entries generalizing sequence with
  | nil => rfl
  | cons e entries ih =>
    rw [List.map_cons, logOf, List.length_append, ih, length_record_eq]
    simp [entriesBytes, Edit.payload, length_encodeAdd, Nat.add_assoc]

/-- The payload that adds a delta file is small. -/
theorem length_payload_add_le (p : PropertyDeltaFile × Bool) :
    (Edit.add (entryOf p)).payload.length ≤ 167 := by
  obtain ⟨hshard, hproperty, hfile, hbase⟩ := p.1.metadata.target_lt
  have hname := length_deltaFileName_le hshard hproperty hfile hbase p.1.metadata.lt.1
  have hfileName : (entryOf p).fileName.length ≤ 91 := hname
  simp only [Edit.payload, length_encodeAdd, addPayloadBytes]
  omega

theorem accepted_add (p : PropertyDeltaFile × Bool) : (Edit.add (entryOf p)).Accepted :=
  validFileName_deltaFileName

/-- The edits that add live files again. -/
def addAgain (fs : List PropertyDeltaFile) : List Edit := fs.map fun f => .add (entryOf (f, true))

/-- To add live files again takes no more bytes than the log has. -/
theorem length_logOf_addAgain {d : Disk} {es : List Edit} {live sub : LiveFiles}
    (h : Sound d es live) (hsub : sub.Sublist live) (sequence : Nat) :
    (logOf sequence (addAgain (sub.map Prod.fst))).length ≤ d.manifest.length := by
  have hlist : addAgain (sub.map Prod.fst) = (sub.map fun p => entryOf (p.1, true)).map .add := by
    simp [addAgain]
  have hsame : entriesBytes (sub.map fun p => entryOf (p.1, true)) =
      entriesBytes (sub.map entryOf) := by
    unfold entriesBytes
    rw [List.map_map, List.map_map]
    rfl
  have hle := entriesBytes_sublist (hsub.map entryOf)
  have hall := entriesBytes_applyAll [] es 1
  have hnil : entriesBytes [] = 0 := rfl
  rw [h.active, ← h.manifest] at hall
  rw [hlist, length_logOf_adds, hsame]
  omega

theorem addAgain_accepted {fs : List PropertyDeltaFile} :
    ∀ e ∈ addAgain fs, e ≠ .remove [] ∧ e.Accepted ∧ e.payload.length ≤ maxUInt32 := by
  intro e he
  obtain ⟨f, -, rfl⟩ := List.mem_map.mp he
  refine ⟨by simp, accepted_add (f, true), ?_⟩
  exact Nat.le_trans (length_payload_add_le (f, true)) (by decide)

namespace PropertyDeltaStore

variable {d : Disk} {es : List Edit} {live : LiveFiles}

/-- What the recovery writes to the log. -/
def recoveryEdits (d : Disk) (live : LiveFiles) : List Edit :=
  addAgain ((d.promoted live).map Prod.fst) ++ written [.remove (d.abandoned live)]

theorem applyAll_recoveryEdits (hrising : live.Rising) :
    applyAll (live.map entryOf) (recoveryEdits d live) = (d.recovered live).map entryOf := by
  obtain ⟨happly, -, -, -⟩ := LiveFiles.setPersistent_all hrising _ (Disk.promoted_mem (d := d))
  unfold recoveryEdits addAgain
  rw [applyAll_append, happly, applyAll_written]
  exact LiveFiles.applyRemove_names _ _

/-- The appends of the recovery, from a log that is not too long. -/
theorem appends_of_recovery (h : Sound d es live) (hsmall : d.manifest.length ≤ logLimit) :
    appendAll (((d.promoted live).map fun p => entryOf (p.1, true)).map .add) (ofEdits es) =
        some (ofEdits (es ++ addAgain ((d.promoted live).map Prod.fst))) ∧
      append (.remove (d.abandoned live)) .succeeds
          (ofEdits (es ++ addAgain ((d.promoted live).map Prod.fst))) =
        if removalBytes (d.abandoned live) ≤ maxUInt32 then
          (ofEdits (es ++ recoveryEdits d live), true)
        else (ofEdits (es ++ addAgain ((d.promoted live).map Prod.fst)), false) := by
  have hlist : ((d.promoted live).map fun p => entryOf (p.1, true)).map Edit.add =
      addAgain ((d.promoted live).map Prod.fst) := by
    simp [addAgain]
  have hroom : (logOf 1 (es ++ addAgain ((d.promoted live).map Prod.fst))).length ≤
      2 * logLimit := by
    have := length_logOf_addAgain h (List.filter_sublist (p := fun p => !p.2 && !d.loses p))
      (1 + es.length)
    rw [logOf_append, List.length_append, ← h.manifest]
    unfold Disk.promoted
    omega
  refine ⟨?_, ?_⟩
  · rw [hlist]
    exact appendAll_of_room addAgain_accepted (Nat.le_trans hroom (by decide))
  · by_cases hnil : d.abandoned live = []
    · rw [hnil, append_nil, if_pos (by decide)]
      simp [recoveryEdits, written, hnil]
    · have hne : Edit.remove (d.abandoned live) ≠ .remove [] := by simpa using hnil
      have hvalid : ∀ name ∈ d.abandoned live, ValidFileName name := by
        intro name hname
        obtain ⟨p, -, rfl⟩ := List.mem_map.mp hname
        exact validFileName_deltaFileName
      have hwritten : es ++ recoveryEdits d live =
          es ++ addAgain ((d.promoted live).map Prod.fst) ++ [.remove (d.abandoned live)] := by
        simp [recoveryEdits, written, hnil]
      rw [hwritten]
      exact append_remove hne hvalid hroom

/-- What the loop over the entries makes of a sound disk. -/
structure Recovery.Of (d : Disk) (live : LiveFiles) (r : Recovery) : Prop where
  abandoned : r.abandoned = d.abandoned live
  deltas : ∀ target, r.deltas target = (d.kept live).of target
  mergedBase : ∀ target, r.mergedBase target = none
  maximum : r.maximumGeneration =
    live.foldl (fun most p => max most p.1.metadata.fileGeneration) 0

/-- A disk with all the live files is recovered, when every record of the log has a size that the
recovery reads, and the removal of the abandoned files one that it can write, and then only. -/
theorem openAndRecover_cases (levels : Nat → Nat) (h : Sound d es live)
    (hsmall : d.manifest.length ≤ logLimit) :
    ((∀ e ∈ es, e.payload.length ≤ maxPayloadBytes) ∧
        removalBytes (d.abandoned live) ≤ maxUInt32 ∧
        ∃ r : Recovery, r.Of d live ∧ openAndRecover levels d =
          .ok (finishRecovery levels d r (ofEdits (es ++ recoveryEdits d live)))) ∨
    (¬ ((∀ e ∈ es, e.payload.length ≤ maxPayloadBytes) ∧
        removalBytes (d.abandoned live) ≤ maxUInt32)) ∧
      ∃ error, openAndRecover levels d = .error error := by
  obtain ⟨r, hloop, hab, hpr, hdel, hbase, hmax⟩ :=
    recoverEntries_live (r := ⟨fun _ => none, [], [], 0⟩) h.rising h.files
      ⟨fun _ => List.Pairwise.nil, by simp [Recovery.deltas]⟩
  simp only [List.nil_append] at hab hpr
  obtain ⟨hall, hremove⟩ := appends_of_recovery h hsmall
  have hactive : (ofEdits es).activeEntries = live.map entryOf := h.active
  unfold openAndRecover
  rw [show d.manifest = (ofEdits es).file from h.manifest]
  rcases openAndRecover_ofEdits h.logged with ⟨hfit, hopen⟩ | ⟨hlarge, offset, hopen⟩
  · simp only [hopen, hactive, hloop, hpr, hall, hab, hremove]
    by_cases hle : removalBytes (d.abandoned live) ≤ maxUInt32
    · refine Or.inl ⟨hfit, hle, r, ⟨hab, hdel, hbase, hmax⟩, ?_⟩
      simp only [if_pos hle]
    · refine Or.inr ⟨fun hboth => hle hboth.2, .append, ?_⟩
      simp only [if_neg hle]
  · refine Or.inr ⟨fun hboth => hlarge hboth.1, .manifest (.header offset), ?_⟩
    simp only [hopen]

end PropertyDeltaStore

end RichGraph
