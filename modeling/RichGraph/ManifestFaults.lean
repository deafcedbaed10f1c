-- What the recovery makes of a manifest that was cut off, and of one in which
-- an append has failed. A failed append may leave a part of its record, or all
-- of it, at the end of the log.
import RichGraph.Lib.Runs
import RichGraph.ManifestReplay

namespace RichGraph.Manifest

/-! ## A cut log -/

/-- The edits of a log, each with the offset at which its record ends. -/
def recordEnds : Nat → Nat → List Edit → List (Edit × Nat)
  | _, _, [] => []
  | sequence, offset, e :: es =>
    (e, offset + (e.record sequence).length) ::
      recordEnds (sequence + 1) (offset + (e.record sequence).length) es

/-- The edits whose records lie wholly within the first `n` bytes. -/
def within (n : Nat) (es : List Edit) : List (Edit × Nat) :=
  (recordEnds 1 0 es).filter fun p => p.2 ≤ n

/-- Where the last of the records ends; `offset` when there is none. -/
def lastEnd : Nat → List (Edit × Nat) → Nat
  | offset, [] => offset
  | _, (_, stop) :: ends => lastEnd stop ends

section

variable {e : Edit} {es : List Edit} {sequence offset n : Nat}

theorem lt_of_mem_recordEnds {p : Edit × Nat} (hp : p ∈ recordEnds sequence offset es) :
    offset ≤ p.2 := by
  induction es generalizing sequence offset with
  | nil => simp [recordEnds] at hp
  | cons e es ih =>
    rcases List.mem_cons.mp hp with rfl | hp
    · simp
    · have := ih hp
      omega

theorem map_fst_recordEnds (sequence offset : Nat) (es : List Edit) :
    (recordEnds sequence offset es).map Prod.fst = es := by
  induction es generalizing sequence offset with
  | nil => rfl
  | cons e es ih => simp [recordEnds, ih]

theorem lastEnd_recordEnds (sequence offset : Nat) (es : List Edit) :
    lastEnd offset (recordEnds sequence offset es) = offset + (logOf sequence es).length := by
  induction es generalizing sequence offset with
  | nil => rfl
  | cons e es ih =>
    simp only [recordEnds, lastEnd, logOf, List.length_append, ih, Nat.add_assoc]

/-- A part of the record of an edit, the record itself left out. -/
def TornRecord (sequence : Nat) (es : List Edit) (bs : Bytes) : Prop :=
  ∃ e ∈ es, ∃ n < (e.record sequence).length, bs = (e.record sequence).take n

/-- The first bytes of a log are the log of the edits within them, and a torn record. -/
theorem take_logOf (sequence offset n : Nat) (es : List Edit) :
    ∃ kept torn, (∃ rest, es = kept ++ rest) ∧
      (logOf sequence es).take n = logOf sequence kept ++ torn ∧
      (torn = [] ∨ TornRecord (sequence + kept.length) es torn) ∧
      (recordEnds sequence offset es).filter (fun p => p.2 ≤ offset + n) =
        recordEnds sequence offset kept := by
  induction es generalizing sequence offset n with
  | nil => exact ⟨[], [], ⟨[], rfl⟩, by simp [logOf], Or.inl rfl, by simp [recordEnds]⟩
  | cons e es ih =>
    by_cases hle : (e.record sequence).length ≤ n
    · obtain ⟨kept, torn, ⟨rest, hrest⟩, htake, htorn, hends⟩ := ih (sequence + 1)
        (offset + (e.record sequence).length) (n - (e.record sequence).length)
      refine ⟨e :: kept, torn, ⟨rest, by rw [hrest]; rfl⟩, ?_, ?_, ?_⟩
      · simp only [logOf]
        rw [List.take_append, List.take_of_length_le hle, htake, List.append_assoc]
      · rcases htorn with hnil | ⟨x, hx, k, hk, rfl⟩
        · exact Or.inl hnil
        · rw [Nat.add_assoc, Nat.add_comm 1] at hk
          refine Or.inr ⟨x, List.mem_cons_of_mem _ hx, k, hk, ?_⟩
          rw [List.length_cons, Nat.add_assoc, Nat.add_comm 1]
      · have hsum : offset + (e.record sequence).length + (n - (e.record sequence).length) =
            offset + n := by omega
        rw [hsum] at hends
        simp only [recordEnds]
        rw [List.filter_cons_of_pos (by simpa using hle), hends]
    · -- The record is not there in full, and all the others end after it.
      have hlt := Nat.lt_of_not_le hle
      refine ⟨[], (e.record sequence).take n, ⟨e :: es, rfl⟩, ?_, ?_, ?_⟩
      · simp only [logOf]
        rw [List.take_append_of_le_length (Nat.le_of_lt hlt), List.nil_append]
      · exact Or.inr ⟨e, List.mem_cons_self, n, hlt, rfl⟩
      · simp only [recordEnds]
        rw [List.filter_eq_nil_iff]
        intro p hp
        have hend : offset + (e.record sequence).length ≤ p.2 := by
          rcases List.mem_cons.mp hp with rfl | hp
          · exact Nat.le_refl _
          · exact lt_of_mem_recordEnds hp
        simp only [decide_eq_true_eq]
        omega

/-- A torn record after a log is cut off. -/
theorem openAndRecover_append_torn {torn : Bytes} (hlog : Logged es)
    (hfit : ∀ e ∈ es, e.payload.length ≤ maxPayloadBytes)
    (he : e.payload.length ≤ maxPayloadBytes) (hn : n < (e.record (es.length + 1)).length)
    (htorn : torn = (e.record (es.length + 1)).take n) :
    openAndRecover (logOf 1 es ++ torn) = .ok (ofEdits es) := by
  have hlen := hlog.length_lt
  apply openAndRecover_torn (hlog.readable hfit) (by omega)
  rw [htorn]
  exact Or.inr (readRecord_take he hlen hn)

theorem Logged.of_append {es' : List Edit} (h : Logged (es ++ es')) : Logged es where
  accepted e he := h.accepted e (List.mem_append_left _ he)
  le e he := h.le e (List.mem_append_left _ he)
  room := by
    have := h.room
    rw [logOf_append, List.length_append] at this
    omega

/-- The recovery of a cut log keeps the edits within, and the file ends with the last of them. -/
theorem openAndRecover_take (hlog : Logged es)
    (hfit : ∀ e ∈ es, e.payload.length ≤ maxPayloadBytes) (n : Nat) :
    openAndRecover ((logOf 1 es).take n) = .ok (ofEdits ((within n es).map Prod.fst)) ∧
      Logged ((within n es).map Prod.fst) ∧
      (∀ e ∈ (within n es).map Prod.fst, e ∈ es) ∧
      logOf 1 ((within n es).map Prod.fst) = (logOf 1 es).take (lastEnd 0 (within n es)) := by
  obtain ⟨kept, torn, ⟨rest, hrest⟩, htake, htorn, hends⟩ := take_logOf 1 0 n es
  have hwithin : within n es = recordEnds 1 0 kept := by
    simpa [within] using hends
  have hfst : (within n es).map Prod.fst = kept := by rw [hwithin, map_fst_recordEnds]
  have hkept : Logged kept := (hrest ▸ hlog).of_append
  have hmem : ∀ e ∈ kept, e ∈ es := fun e he => hrest ▸ List.mem_append_left _ he
  rw [hfst, htake, hwithin, lastEnd_recordEnds, Nat.zero_add]
  refine ⟨?_, hkept, hmem, ?_⟩
  · rcases htorn with rfl | ⟨e, he, k, hk, rfl⟩
    · have hlen := hkept.length_lt
      rw [List.append_nil]
      exact openAndRecover_logOf (hkept.readable fun e he => hfit e (hmem e he)) (by omega)
    · rw [Nat.add_comm] at hk ⊢
      exact openAndRecover_append_torn hkept (fun e he => hfit e (hmem e he)) (hfit e he) hk rfl
  · rw [hrest, logOf_append, List.take_left]

end

/-- A manifest that was cut off anywhere can be opened, with the edits whose records are there in
full, and ends with the last of these. The appends that follow are found again, with those edits,
when their payloads have a size that the recovery takes, and then only. -/
theorem cut_manifest_is_recovered_iff {es : List Edit} {m : PropertyDeltaManifest}
    (h : appendAll es empty = some m) (hfit : ∀ e ∈ es, e.payload.length ≤ maxPayloadBytes)
    (n : Nat) :
    ∃ m', openAndRecover (m.file.take n) = .ok m' ∧
      m'.activeEntries = applyAll [] ((within n (written es)).map Prod.fst) ∧
      m'.file = m.file.take (lastEnd 0 (within n (written es))) ∧
      ∀ later m'', appendAll later m' = some m'' →
        ((∃ r, openAndRecover m''.file = .ok r ∧
          r.activeEntries = applyAll [] ((within n (written es)).map Prod.fst ++ later)) ↔
        ∀ e ∈ later, e.payload.length ≤ maxPayloadBytes) := by
  obtain ⟨rfl, hlog⟩ := appendAll_ofEdits Logged.nil h
  rw [List.nil_append] at hlog ⊢
  obtain ⟨hopen, hkept, hmem, hfile⟩ := openAndRecover_take hlog (written_fit.mpr hfit) n
  refine ⟨_, hopen, rfl, hfile, ?_⟩
  intro later m'' hlater
  obtain ⟨rfl, hlog'⟩ := appendAll_ofEdits hkept hlater
  have hiff : (∀ e ∈ (within n (written es)).map Prod.fst ++ written later,
      e.payload.length ≤ maxPayloadBytes) ↔ ∀ e ∈ later, e.payload.length ≤ maxPayloadBytes := by
    constructor
    · exact fun hall => written_fit.mp fun e he => hall e (List.mem_append_right _ he)
    · intro hall e he
      rcases List.mem_append.mp he with he | he
      · exact written_fit.mpr hfit e (hmem e he)
      · exact written_fit.mpr hall e he
  rw [← hiff]
  rcases openAndRecover_ofEdits hlog' with ⟨hall, hopen'⟩ | ⟨hlarge, offset, hopen'⟩
  · refine iff_of_true ⟨_, hopen', ?_⟩ hall
    simp only [ofEdits, applyAll_append, applyAll_written]
  · refine iff_of_false ?_ hlarge
    rintro ⟨r, hr, -⟩
    rw [hopen'] at hr
    cases hr

theorem manifest_cut_in_its_second_record_is_recovered :
    ∃ m, appendAll [.add (exampleEntry [97]), .add (exampleEntry [98])] empty = some m ∧
      ∃ m', openAndRecover (m.file.take 130) = .ok m' ∧
        m'.activeEntries = [exampleEntry [97]] ∧
        ∀ m'', appendAll [.add (exampleEntry [99])] m' = some m'' →
          ∃ r, openAndRecover m''.file = .ok r ∧
            r.activeEntries = [exampleEntry [97], exampleEntry [99]] := by
  obtain ⟨m, hm⟩ : ∃ m, appendAll [.add (exampleEntry [97]), .add (exampleEntry [98])] empty =
      some m := Option.isSome_iff_exists.mp (by decide +kernel)
  obtain ⟨m', hopen, hactive, -, hlater⟩ := cut_manifest_is_recovered_iff hm (by decide) 130
  have hkept : (within 130 (written [.add (exampleEntry [97]), .add (exampleEntry [98])])).map
      Prod.fst = [.add (exampleEntry [97])] := by decide +kernel
  rw [hkept] at hactive hlater
  refine ⟨m, hm, m', hopen, hactive, ?_⟩
  intro m'' hm''
  exact (hlater _ _ hm'').mpr (by decide)

/-- An append after the recovery can be too large for the next one. -/
theorem an_append_after_a_cut_makes_the_manifest_unreadable :
    ∃ es m n m' later m'', appendAll es empty = some m ∧
      (∀ e ∈ es, e.payload.length ≤ maxPayloadBytes) ∧ n ≤ m.file.length ∧
      openAndRecover (m.file.take n) = .ok m' ∧ appendAll later m' = some m'' ∧
      ∃ error, openAndRecover m''.file = .error error := by
  obtain ⟨entry, m'', hm'', hopen⟩ := exists_unreadable_append
  obtain ⟨m, hm⟩ : ∃ m, appendAll [.add (exampleEntry [97])] empty = some m :=
    Option.isSome_iff_exists.mp (by decide +kernel)
  have hcut : openAndRecover (m.file.take 0) = .ok empty := rfl
  exact ⟨_, m, 0, empty, [.add entry], m'', hm, by decide, Nat.zero_le _, hcut,
    by simp only [appendAll, hm''], hopen⟩

/-! ## Appends that fail -/

/-- A manifest with what was asked of it. -/
structure Attempts where
  manifest : PropertyDeltaManifest
  attempted : List Edit
  acknowledged : List Edit
  -- The bytes in the file that are from attempts that failed.
  left : Nat

def Attempts.initial : Attempts := ⟨empty, [], [], 0⟩

def Attempts.step (s : Attempts) (a : Edit × WriteOutcome) : Option Attempts :=
  match append a.1 a.2 s.manifest with
  | (m, true) => some ⟨m, s.attempted ++ [a.1], s.acknowledged ++ [a.1], s.left⟩
  | (m, false) => some ⟨m, s.attempted ++ [a.1], s.acknowledged,
      s.left + (m.file.length - s.manifest.file.length)⟩

/-- Nothing of a failed attempt is in the file, and the payload is not too large. -/
def Attempts.AtRecordEnd (s : Attempts) (a : Edit × WriteOutcome) : Prop :=
  s.left = 0 ∧ a.1.payload.length ≤ maxPayloadBytes

instance (s : Attempts) (a : Edit × WriteOutcome) : Decidable (s.AtRecordEnd a) :=
  inferInstanceAs (Decidable (_ ∧ _))

namespace Attempts

/-- The log of the acknowledged edits, and after it at most the bytes of one attempt. -/
structure Inv (s : Attempts) : Prop where
  logged : Logged (written s.acknowledged)
  fit : ∀ e ∈ s.acknowledged, e.payload.length ≤ maxPayloadBytes
  sublist : s.acknowledged.Sublist s.attempted
  file : (s.left = 0 ∧ s.manifest = ofEdits (written s.acknowledged)) ∨
    (0 < s.left ∧ ∃ e n, (s.acknowledged ++ [e]).Sublist s.attempted ∧ e ≠ .remove [] ∧
      e.Readable ∧ s.manifest.file = logOf 1 (written s.acknowledged) ++
        (e.record ((written s.acknowledged).length + 1)).take n)

variable {s s' : Attempts} {a : Edit × WriteOutcome}

theorem inv_initial : initial.Inv where
  logged := Logged.nil
  fit := by simp [initial]
  sublist := List.Sublist.refl _
  file := Or.inl ⟨rfl, rfl⟩

theorem inv_step (h : s.Inv) (hok : s.AtRecordEnd a) (hs : s.step a = some s') : s'.Inv := by
  obtain ⟨hleft, hlarge⟩ := hok
  obtain ⟨-, hm⟩ | ⟨hpos, -⟩ := h.file
  swap
  · omega
  unfold step at hs
  split at hs <;> rename_i m hm' <;> cases hs <;> rw [hm] at hm'
  · obtain ⟨rfl, hlog⟩ := append_ofEdits h.logged hm'
    rw [← written_append] at hlog ⊢
    exact
      { logged := hlog
        fit := by
          intro e he
          rcases List.mem_append.mp he with he | he
          · exact h.fit e he
          · exact List.mem_singleton.mp he ▸ hlarge
        sublist := h.sublist.append (List.Sublist.refl _)
        file := Or.inl ⟨hleft, rfl⟩ }
  · have hsub : (s.acknowledged ++ [a.1]).Sublist (s.attempted ++ [a.1]) :=
      h.sublist.append (List.Sublist.refl _)
    refine
      { logged := h.logged, fit := h.fit
        sublist := (List.sublist_append_left _ _).trans hsub, file := ?_ }
    rcases append_cases hm' with ⟨rfl, -⟩ | ⟨hne, hacc, hle, ⟨n, -, rfl⟩ | ⟨hok, -⟩⟩
    · exact Or.inl ⟨by simp [hleft, hm], rfl⟩
    · by_cases hnil : (a.1.record ((written s.acknowledged).length + 1)).take n = []
      · refine Or.inl ⟨?_, ?_⟩
        · simp [hleft, hm, ofEdits, hnil]
        · simp only [ofEdits] at hnil ⊢
          rw [hnil, List.append_nil]
      · refine Or.inr ⟨?_, a.1, n, hsub, hne, ⟨hacc, hlarge⟩, rfl⟩
        have hpos := List.length_pos_iff.mpr hnil
        simp only [hleft, hm, ofEdits, List.length_append] at hpos ⊢
        omega
    · cases hok

/-- As long as every attempt is made at the end of a record and is not too large, the manifest can
be opened, and the edits it replays hold all those that were acknowledged, in order. -/
theorem acknowledged_edits_are_recovered (h : Lib.Reach step AtRecordEnd initial s) :
    ∃ m' kept, openAndRecover s.manifest.file = .ok m' ∧ s.acknowledged.Sublist kept ∧
      kept.Sublist s.attempted ∧ m'.activeEntries = applyAll [] kept := by
  have hinv : s.Inv := h.invariant inv_initial fun _ _ _ hi hok hs => inv_step hi hok hs
  have hlen := hinv.logged.length_lt
  have hfit := written_fit.mpr hinv.fit
  have hread := hinv.logged.readable hfit
  rcases hinv.file with ⟨-, hm⟩ | ⟨-, e, n, hsub, hne, he, hfile⟩
  · refine ⟨ofEdits (written s.acknowledged), s.acknowledged, ?_, List.Sublist.refl _, hinv.sublist,
      applyAll_written _ _⟩
    rw [hm]
    exact openAndRecover_logOf hread (by omega)
  by_cases hn : n < (e.record ((written s.acknowledged).length + 1)).length
  · refine ⟨ofEdits (written s.acknowledged), s.acknowledged, ?_, List.Sublist.refl _, hinv.sublist,
      applyAll_written _ _⟩
    rw [hfile]
    exact openAndRecover_append_torn hinv.logged hfit he.2 hn rfl
  · -- The whole record is there, and its edit with the others.
    have hwritten : written (s.acknowledged ++ [e]) = written s.acknowledged ++ [e] := by
      rw [written_append]
      simp [written, hne]
    refine ⟨ofEdits (written (s.acknowledged ++ [e])), s.acknowledged ++ [e], ?_,
      List.sublist_append_left _ _, hsub, applyAll_written _ _⟩
    rw [hfile, List.take_of_length_le (Nat.le_of_not_lt hn), hwritten]
    have hfile' : logOf 1 (written s.acknowledged) ++
        e.record ((written s.acknowledged).length + 1) =
          logOf 1 (written s.acknowledged ++ [e]) :=
      congrArg PropertyDeltaManifest.file (ofEdits_concat (written s.acknowledged) e).symm
    rw [hfile']
    refine openAndRecover_logOf ?_ (by simpa using hlen)
    intro x hx
    rcases List.mem_append.mp hx with hx | hx
    · exact hread x hx
    · exact List.mem_singleton.mp hx ▸ he

theorem acknowledged_edit_survives_a_torn_one :
    ∃ s, Lib.Reach step AtRecordEnd initial s ∧
      (s.acknowledged = [.add (exampleEntry [97])] ∧ s.left = 10) ∧
      ∃ m' kept, openAndRecover s.manifest.file = .ok m' ∧ s.acknowledged.Sublist kept ∧
        kept.Sublist s.attempted ∧ m'.activeEntries = applyAll [] kept := by
  obtain ⟨s, hs, hp⟩ := Lib.exists_reach_of_run step AtRecordEnd initial
    [(.add (exampleEntry [97]), .succeeds), (.add (exampleEntry [98]), .fails 10)]
    (fun s => s.acknowledged = [.add (exampleEntry [97])] ∧ s.left = 10) (by decide +kernel)
  exact ⟨s, hs, hp, acknowledged_edits_are_recovered hs⟩

/-- After an attempt that left ten bytes the next one is acknowledged, and the manifest cannot be
opened. -/
theorem an_append_after_a_torn_one_makes_the_manifest_unreadable :
    ∃ s, Lib.Reach step Lib.AnyStep initial s ∧
      (s.acknowledged = [.add (exampleEntry [98])] ∧
        (openAndRecover s.manifest.file).toOption = none) :=
  Lib.exists_reach_of_run step Lib.AnyStep initial
    [(.add (exampleEntry [97]), .fails 10), (.add (exampleEntry [98]), .succeeds)]
    (fun s => s.acknowledged = [.add (exampleEntry [98])] ∧
      (openAndRecover s.manifest.file).toOption = none) (by decide +kernel)

end Attempts

end RichGraph.Manifest
