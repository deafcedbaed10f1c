-- What a buffer of the update manager holds: whole batches, each under a commit of
-- its own. The capacity is checked before a caller may sleep for a free buffer, and
-- not again when it wakes.
import RichGraph.UpdateSections

namespace RichGraph.PropertyUpdateManager

variable {s s' s'' : State} {o : PropertyUpdateOptions} {batch : List BufferedPropertyUpdate}
  {i : Nat} {st : BufferState}

/-! ## The state between two sections -/

/-- A buffer knows its bytes, and a free one is empty. -/
structure Counted (o : PropertyUpdateOptions) (b : Buffer) : Prop where
  bytes : b.bytes = batchBytes o b.records
  free : b.state = .kFree → b.records = []

structure Sound (o : PropertyUpdateOptions) (s : State) : Prop where
  buffers : ∀ b ∈ s.buffers, Counted o b
  seated : Seated s
  waiters : ∀ w ∈ s.submitters, checkBatch o w.batch = none
  past : ∀ x ∈ s.acknowledged, x.2.commitSequence < s.nextCommitSequence

theorem counted_modify (h : ∀ b ∈ s.buffers, Counted o b) {f : Buffer → Buffer}
    (hf : ∀ b, Counted o b → Counted o (f b)) : ∀ b ∈ s.buffers.modify i f, Counted o b := by
  intro b hb
  obtain ⟨b, hmem, rfl | rfl⟩ := mem_modify hb
  · exact h _ hmem
  · exact hf b (h b hmem)

theorem Counted.withState {b : Buffer} (h : Counted o b) {st : BufferState} (hst : st ≠ .kFree) :
    Counted o (b.withState st) := ⟨h.bytes, fun hfree => absurd hfree hst⟩

theorem batchBytes_append (batch' : List BufferedPropertyUpdate) :
    batchBytes o (batch ++ batch') = batchBytes o batch + batchBytes o batch' := by
  unfold batchBytes
  rw [List.map_append, List.sum_append]

/-- The commit does not count. -/
theorem batchBytes_stamp (committed : Nat) :
    batchBytes o (batch.map (stamp committed)) = batchBytes o batch := by
  unfold batchBytes
  rw [List.map_map]
  rfl

theorem Counted.append {b : Buffer} (h : Counted o b) (hst : b.state ≠ .kFree) (committed : Nat) :
    Counted o { b with
      records := b.records ++ batch.map (stamp committed)
      bytes := b.bytes + batchBytes o batch } where
  bytes := by rw [h.bytes, batchBytes_append, batchBytes_stamp]
  free hfree := absurd hfree hst

theorem sound_append (hi : s.activeBuffer = some i) (h : Sound o s) :
    Sound o (s.append o i batch) where
  buffers b hb := by
    obtain ⟨j, hj⟩ := List.mem_iff_getElem?.mp hb
    unfold State.append at hj
    rw [List.getElem?_modify] at hj
    obtain ⟨b, hget, rfl⟩ := Option.map_eq_some_iff.mp hj
    have hb' := h.buffers b (List.mem_of_getElem? hget)
    split
    · rename_i hij
      subst hij
      have hst := h.seated.active i hi
      rw [stateAt_eq_of_getElem? hget] at hst
      exact hb'.append (by rw [Option.some.inj hst]; decide) _
    · exact hb'
  seated := (seated_sections o).append hi trivial h.seated
  waiters := h.waiters
  past := past_append h.past

theorem sound_sections (o : PropertyUpdateOptions) :
    KeptBySections o (fun _ batch => checkBatch o batch = none) (Sound o) where
  waiting submitters _ _ _ hw h :=
    { h with
      seated := { h.seated with }
      waiters := fun w hmem => (hw w hmem).elim (h.waiters w) id }
  takeFree {s} h := by
    have hseated := (seated_sections o).takeFree h.seated
    rcases takeFree_cases s with ⟨he, -⟩ | ⟨i, b, -, -, he⟩
    · rw [he]
      exact h
    · rw [he] at hseated ⊢
      exact ⟨counted_modify h.buffers fun b hb => hb.withState (by decide), hseated, h.waiters,
        h.past⟩
  push hi h := ⟨counted_modify h.buffers fun b hb => hb.withState (by decide),
    (seated_sections o).push hi h.seated, h.waiters, h.past⟩
  append hi _ h := sound_append hi h

theorem sound_worker {a : Action} (h : Sound o s) (hs : WorkerStep s a s') : Sound o s' := by
  have hseated := h.seated.of_worker hs
  cases hs with
  | take | failed =>
    exact { h with
      buffers := counted_modify h.buffers fun b hb => hb.withState (by decide)
      seated := hseated }
  | free =>
    exact { h with
      buffers := counted_modify h.buffers fun b _ => ⟨rfl, fun _ => rfl⟩
      seated := hseated }
  | _ => exact { h with seated := hseated }

theorem sound_step {a : Action} (h : Sound o s) (hs : step o s a = some s') : Sound o s' := by
  have hcaller : a.OfCaller → MaySubmit (fun _ batch => checkBatch o batch = none) s a →
      Sound o s' := fun hof hmay => (sound_sections o).of_caller hof hmay h hs
  cases a with
  | submit batch =>
    cases hs
    unfold State.submitBatch
    split
    · exact (sound_sections o).fail h _
    · rename_i hcheck
      exact (sound_sections o).submitFirst hcheck h
  | wakeSubmitter k => exact hcaller trivial fun w hw => h.waiters w (List.mem_of_getElem? hw)
  | startFlush | wakeFlusher => exact hcaller trivial trivial
  | _ => exact sound_worker h (workerStep_of_step id hs)

theorem sound_initial (o : PropertyUpdateOptions) (c : Nat) : Sound o (initial o c) where
  buffers b hb := by
    simp only [initial, List.mem_cons, List.mem_replicate] at hb
    obtain rfl | ⟨-, rfl⟩ := hb <;> exact ⟨rfl, fun _ => rfl⟩
  seated := seated_initial o c
  waiters _ hw := nomatch hw
  past _ hx := nomatch hx

/-! ## A batch enters a buffer -/

/-- Nothing is acknowledged, and no buffer gets a record. -/
structure Stays (s s' : State) : Prop where
  next : s'.nextCommitSequence = s.nextCommitSequence
  acknowledged : s'.acknowledged = s.acknowledged
  records : ∀ j, s'.recordsAt j = s.recordsAt j ∨ s'.recordsAt j = []

/-- All records of the batch go into buffer `i`, under the next commit. -/
structure Enters (o : PropertyUpdateOptions) (batch : List BufferedPropertyUpdate) (i : Nat)
    (s s' : State) : Prop where
  accepted : checkBatch o batch = none
  next : s'.nextCommitSequence = s.nextCommitSequence + 1
  acknowledged : s'.acknowledged =
    s.acknowledged ++ (batch.map (stamp s.nextCommitSequence)).map (·.delta)
  records : s'.recordsAt i = s.recordsAt i ++ batch.map (stamp s.nextCommitSequence)
  others : ∀ j, j ≠ i → s'.recordsAt j = s.recordsAt j

/-- The part of a section that moves no record. -/
structure Same (s s' : State) : Prop where
  next : s'.nextCommitSequence = s.nextCommitSequence
  acknowledged : s'.acknowledged = s.acknowledged
  records : ∀ j, s'.recordsAt j = s.recordsAt j

theorem Same.stays (h : Same s s') : Stays s s' :=
  ⟨h.next, h.acknowledged, fun j => Or.inl (h.records j)⟩

theorem Same.trans (h : Same s s') (h' : Same s' s'') : Same s s'' :=
  ⟨h'.next.trans h.next, h'.acknowledged.trans h.acknowledged,
    fun j => (h'.records j).trans (h.records j)⟩

theorem Enters.after_same (h : Same s s') (h' : Enters o batch i s' s'') :
    Enters o batch i s s'' where
  accepted := h'.accepted
  next := by rw [h'.next, h.next]
  acknowledged := by rw [h'.acknowledged, h.acknowledged, h.next]
  records := by rw [h'.records, h.records, h.next]
  others j hj := by rw [h'.others j hj, h.records]

theorem Enters.before_same (h : Enters o batch i s s') (h' : Same s' s'') :
    Enters o batch i s s'' where
  accepted := h.accepted
  next := by rw [h'.next, h.next]
  acknowledged := by rw [h'.acknowledged, h.acknowledged]
  records := by rw [h'.records, h.records]
  others j hj := by rw [h'.records, h.others j hj]

theorem Same.refl (s : State) : Same s s := ⟨rfl, rfl, fun _ => rfl⟩

theorem same_takeFree (s : State) : Same s s.takeFree := by
  rcases takeFree_cases s with ⟨he, -⟩ | ⟨i, b, -, -, he⟩
  · rw [he]
    exact Same.refl s
  · rw [he]
    exact ⟨rfl, rfl, recordsAt_withState rfl⟩

/-- A section that adds no batch moves no record. -/
theorem same_sections (o : PropertyUpdateOptions) (s : State) :
    KeptBySections o (fun _ _ => False) (Same s) where
  waiting _ _ _ _ _ h := h.trans ⟨rfl, rfl, fun _ => rfl⟩
  takeFree h := h.trans (same_takeFree _)
  push _ h := h.trans ⟨rfl, rfl, recordsAt_withState rfl⟩
  append _ hfalse _ := hfalse.elim

theorem same_queueActiveBuffer (o : PropertyUpdateOptions) (s : State) :
    Same s s.queueActiveBuffer := (same_sections o s).queueActiveBuffer (Same.refl s)

theorem enters_append (hcheck : checkBatch o batch = none) (h : Sound o s)
    (hi : s.activeBuffer = some i) : Enters o batch i s (s.append o i batch) := by
  obtain ⟨b, hb, -⟩ := Option.map_eq_some_iff.mp (h.seated.active i hi)
  refine ⟨hcheck, rfl, rfl, append_records o s i batch hb, fun j hj => ?_⟩
  rw [recordsAt_modify (s := s) rfl]
  unfold State.recordsAt
  simp only [if_neg (Ne.symm hj)]

/-- What a caller does with its batch. -/
def Decided (o : PropertyUpdateOptions) (batch : List BufferedPropertyUpdate) (s s' : State) :
    Prop := Same s s' ∨ ∃ i, Enters o batch i s s'

theorem Decided.after_same (h : Same s s') (h' : Decided o batch s' s'') :
    Decided o batch s s'' :=
  h'.imp h.trans fun ⟨i, hi⟩ => ⟨i, hi.after_same h⟩

theorem decided_commitBatch (hcheck : checkBatch o batch = none) (h : Sound o s)
    (hi : s.activeBuffer = some i) : Decided o batch s (s.commitBatch o i batch) := by
  have henters := enters_append hcheck h hi
  refine Or.inr ⟨i, ?_⟩
  unfold State.commitBatch
  dsimp only
  split
  · exact henters.before_same (same_queueActiveBuffer o _)
  · exact henters

theorem decided_submitRotated (hcheck : checkBatch o batch = none) (h : Sound o s) :
    Decided o batch s (s.submitRotated o batch) := by
  unfold State.submitRotated
  split
  · exact Or.inl ⟨rfl, rfl, fun _ => rfl⟩
  · exact Or.inl ⟨rfl, rfl, fun _ => rfl⟩
  · rename_i i hi
    exact decided_commitBatch hcheck h (active_of_ensured hi)

theorem decided_submitFirst (hcheck : checkBatch o batch = none) (h : Sound o s) :
    Decided o batch s (s.submitFirst o batch) := by
  unfold State.submitFirst
  split
  · exact Or.inl ⟨rfl, rfl, fun _ => rfl⟩
  · exact Or.inl ⟨rfl, rfl, fun _ => rfl⟩
  · rename_i i hi
    split
    · exact (decided_submitRotated hcheck ((sound_sections o).queueActiveBuffer h)).after_same
        (same_queueActiveBuffer o s)
    · exact decided_commitBatch hcheck h (active_of_ensured hi)

/-- The batch that the action brings. -/
def BatchOf (s : State) (a : Action) (batch : List BufferedPropertyUpdate) : Prop :=
  a = .submit batch ∨ ∃ k rotated, a = .wakeSubmitter k ∧ s.submitters[k]? = some ⟨batch, rotated⟩

theorem enters_or_stays_wake {k : Nat} (h : Sound o s) (hs : s.wakeSubmitter o k = some s') :
    Stays s s' ∨ ∃ batch i, BatchOf s (.wakeSubmitter k) batch ∧ Enters o batch i s s' := by
  unfold State.wakeSubmitter at hs
  split at hs
  · cases hs
  · rename_i w hw
    cases hs
    have hcheck := h.waiters w (List.mem_of_getElem? hw)
    have hleft : Sound o { s with submitters := s.submitters.eraseIdx k } :=
      { h with
        seated := { h.seated with }
        waiters := fun w hmem => h.waiters w (List.mem_of_mem_eraseIdx hmem) }
    have hfree := (sound_sections o).takeFree hleft
    have herase : Same s { s with submitters := s.submitters.eraseIdx k } :=
      ⟨rfl, rfl, fun _ => rfl⟩
    have hsame := herase.trans (same_takeFree _)
    have hdecided : Decided o w.batch s (if w.rotated then
        { s with submitters := s.submitters.eraseIdx k : State }.takeFree.submitRotated o w.batch
        else { s with submitters := s.submitters.eraseIdx k : State }.takeFree.submitFirst o
          w.batch) := by
      split
      · exact (decided_submitRotated hcheck hfree).after_same hsame
      · exact (decided_submitFirst hcheck hfree).after_same hsame
    exact hdecided.imp Same.stays
      fun ⟨i, hi⟩ => ⟨w.batch, i, Or.inr ⟨k, w.rotated, rfl, hw⟩, hi⟩

/-- The worker empties a buffer when it is done with it. -/
theorem stays_worker {a : Action} (ha : ¬ a.OfCaller) (hs : step o s a = some s') :
    Stays s s' := by
  cases workerStep_of_step ha hs with
  | take | failed => exact Same.stays ⟨rfl, rfl, recordsAt_withState rfl⟩
  | free =>
    refine ⟨rfl, rfl, fun j => ?_⟩
    rw [recordsAt_modify (s := s) rfl]
    unfold State.recordsAt
    cases s.buffers[j]? with
    | none => exact Or.inr rfl
    | some b =>
      simp only [Option.map_some, Option.getD_some]
      split
      · exact Or.inr rfl
      · exact Or.inl rfl
  | _ => exact Same.stays ⟨rfl, rfl, fun _ => rfl⟩

theorem enters_or_stays {a : Action} (h : Sound o s) (hs : step o s a = some s') :
    Stays s s' ∨ ∃ batch i, BatchOf s a batch ∧ Enters o batch i s s' := by
  cases a with
  | submit batch =>
    cases hs
    unfold State.submitBatch
    split
    · exact Or.inl ⟨rfl, rfl, fun _ => Or.inl rfl⟩
    · rename_i hcheck
      exact (decided_submitFirst hcheck h).imp Same.stays
        fun ⟨i, hi⟩ => ⟨batch, i, Or.inl rfl, hi⟩
  | wakeSubmitter k => exact enters_or_stays_wake h hs
  | startFlush =>
    cases hs
    exact Or.inl ((same_sections o s).startFlush (Same.refl s)).stays
  | wakeFlusher k => exact Or.inl ((same_sections o s).wakeFlusher (Same.refl s) hs).stays
  | _ => exact Or.inl (stays_worker id hs)

/-! ## The capacity -/

def Buffer.Within (o : PropertyUpdateOptions) (b : Buffer) : Prop :=
  b.records.length ≤ o.bufferCapacityRecords ∧ b.bytes ≤ o.bufferCapacityBytes

def Within (o : PropertyUpdateOptions) (s : State) : Prop := ∀ b ∈ s.buffers, b.Within o

/-- What `SubmitBatch` checks of the active buffer, before it may sleep. -/
def Fits (o : PropertyUpdateOptions) (s : State) (i : Nat) (batch : List BufferedPropertyUpdate) :
    Prop :=
  s.recordsAt i = [] ∨ (s.recordsAt i).length + batch.length ≤ o.bufferCapacityRecords ∧
    s.bytesAt i + batchBytes o batch ≤ o.bufferCapacityBytes

theorem le_of_bytesFit : ∀ (batch : List BufferedPropertyUpdate) (sum : Nat),
    sum ≤ o.bufferCapacityBytes → bytesFit o sum batch = true →
      sum + batchBytes o batch ≤ o.bufferCapacityBytes
  | [], sum, hsum, _ => by simpa [batchBytes] using hsum
  | u :: us, sum, hsum, h => by
    unfold bytesFit at h
    split at h
    · cases h
    · have hrest := le_of_bytesFit us (sum + estimateBytes o u) (by omega) h
      simp only [batchBytes, List.map_cons, List.sum_cons] at hrest ⊢
      omega

theorem le_of_checkBatch (h : checkBatch o batch = none) :
    batch.length ≤ o.bufferCapacityRecords ∧ batchBytes o batch ≤ o.bufferCapacityBytes := by
  unfold checkBatch at h
  split_ifs at h with hempty hbytes hlength
  have hfit := le_of_bytesFit batch 0 (Nat.zero_le _) (by simpa using hbytes)
  omega

theorem within_modify (h : Within o s) {f : Buffer → Buffer}
    (hf : ∀ b, b.Within o → (f b).Within o) : ∀ b ∈ s.buffers.modify i f, b.Within o := by
  intro b hb
  obtain ⟨b, hmem, rfl | rfl⟩ := mem_modify hb
  · exact h _ hmem
  · exact hf b (h b hmem)

theorem within_append (hsound : Sound o s) (h : Within o s) (hcheck : checkBatch o batch = none)
    (hfits : Fits o s i batch) : Within o (s.append o i batch) := by
  intro b hb
  obtain ⟨j, hj⟩ := List.mem_iff_getElem?.mp hb
  unfold State.append at hj
  rw [List.getElem?_modify] at hj
  obtain ⟨b, hget, rfl⟩ := Option.map_eq_some_iff.mp hj
  split
  · rename_i hij
    subst hij
    obtain ⟨hlength, hbytes⟩ := le_of_checkBatch hcheck
    have hcounted := (hsound.buffers b (List.mem_of_getElem? hget)).bytes
    have hrecords : s.recordsAt i = b.records := by simp [State.recordsAt, hget]
    have hsum : s.bytesAt i = b.bytes := by simp [State.bytesAt, hget]
    rw [Fits, hrecords, hsum] at hfits
    obtain hempty | hfits := hfits
    · rw [hempty] at hcounted
      simp only [Buffer.Within, hempty, hcounted, batchBytes, List.nil_append, List.length_map,
        List.map_nil, List.sum_nil, Nat.zero_add]
      exact ⟨hlength, hbytes⟩
    · simp only [Buffer.Within, List.length_append, List.length_map]
      exact hfits
  · exact h b (List.mem_of_getElem? hget)

/-- The sections that add no batch. -/
theorem within_sections (o : PropertyUpdateOptions) :
    KeptBySections o (fun _ _ => False) (Within o) where
  waiting _ _ _ _ _ h := h
  takeFree {s} h := by
    rcases takeFree_cases s with ⟨he, -⟩ | ⟨i, b, -, -, he⟩
    · rwa [he]
    · rw [he]
      exact within_modify h fun _ hb => hb
  push _ h := within_modify h fun _ hb => hb
  append _ hfalse _ := hfalse.elim

theorem within_commitBatch (hsound : Sound o s) (h : Within o s)
    (hcheck : checkBatch o batch = none) (hfits : Fits o s i batch) :
    Within o (s.commitBatch o i batch) := by
  have happend := within_append hsound h hcheck hfits
  unfold State.commitBatch
  dsimp only
  split
  · exact (within_sections o).queueActiveBuffer happend
  · exact happend

theorem within_submitRotated (hsound : Sound o s) (h : Within o s)
    (hcheck : checkBatch o batch = none) (hfits : ∀ i ∈ s.activeBuffer, Fits o s i batch) :
    Within o (s.submitRotated o batch) := by
  unfold State.submitRotated
  split
  · exact h
  · exact h
  · rename_i i hi
    exact within_commitBatch hsound h hcheck (hfits i (active_of_ensured hi))

/-- A buffer that was free takes any batch. -/
theorem fits_takeFree (hsound : Sound o s)
    (hfits : (∀ b ∈ s.buffers, b.state ≠ .kFree) → ∀ i ∈ s.activeBuffer, Fits o s i batch) :
    ∀ i ∈ s.takeFree.activeBuffer, Fits o s.takeFree i batch := by
  rcases takeFree_cases s with ⟨he, hnone⟩ | ⟨i, b, hb, hfree, he⟩
  · rw [he]
    exact hfits hnone
  · have hrecords := (same_takeFree s).records i
    rw [he] at hrecords ⊢
    rintro j ⟨⟩
    refine Or.inl ?_
    rw [hrecords]
    simp only [State.recordsAt, hb, Option.map_some, Option.getD_some]
    exact (hsound.buffers b (List.mem_of_getElem? hb)).free hfree

theorem within_submitFirst (hsound : Sound o s) (h : Within o s)
    (hcheck : checkBatch o batch = none) : Within o (s.submitFirst o batch) := by
  unfold State.submitFirst
  split
  · exact h
  · exact h
  · rename_i i hi
    split
    · rename_i hfull
      -- the active buffer is queued, so only a free one can be active now
      have hqueue : s.queueActiveBuffer = (s.afterPush i).takeFree := by
        obtain ⟨-, hempty⟩ | ⟨j, hj, he⟩ := queueActiveBuffer_cases s
        · exact absurd (hempty i (active_of_ensured hi)) hfull.1
        · rw [active_of_ensured hi] at hj
          cases hj
          exact he
      have hpushed := (sound_sections o).push (active_of_ensured hi) hsound
      refine within_submitRotated ((sound_sections o).queueActiveBuffer hsound)
        ((within_sections o).queueActiveBuffer h) hcheck ?_
      rw [hqueue]
      exact fits_takeFree hpushed fun _ j hj => nomatch hj
    · rename_i hroom
      refine within_commitBatch hsound h hcheck ?_
      unfold Fits
      by_cases hempty : s.recordsAt i = []
      · exact Or.inl hempty
      · rw [not_and_or, not_or] at hroom
        obtain hne | hfits := hroom
        · exact absurd hempty hne
        · exact Or.inr (by omega)

/-- A caller that has queued a buffer and wakes to an active one has room in it: no other caller
has taken the buffer that it was woken for, or both batches fit. -/
def WakesToRoom (o : PropertyUpdateOptions) (s : State) : Action → Prop
  | .wakeSubmitter k => ∀ w ∈ s.submitters[k]?, w.rotated = true →
      (∀ b ∈ s.buffers, b.state ≠ .kFree) → ∀ i ∈ s.activeBuffer, Fits o s i w.batch
  | _ => True

theorem within_worker {a : Action} (h : Within o s) (hs : WorkerStep s a s') : Within o s' := by
  cases hs with
  | take | failed => exact within_modify h fun _ hb => hb
  | free => exact within_modify h fun _ _ => ⟨Nat.zero_le _, Nat.zero_le _⟩
  | _ => exact h

theorem within_step {a : Action} (hsound : Sound o s) (h : Within o s) (ha : WakesToRoom o s a)
    (hs : step o s a = some s') : Within o s' := by
  cases a with
  | submit batch =>
    cases hs
    unfold State.submitBatch
    split
    · exact h
    · rename_i hcheck
      exact within_submitFirst hsound h hcheck
  | wakeSubmitter k =>
    simp only [step, State.wakeSubmitter] at hs
    split at hs
    · cases hs
    · rename_i w hw
      cases hs
      have hcheck := hsound.waiters w (List.mem_of_getElem? hw)
      have hleft : Sound o { s with submitters := s.submitters.eraseIdx k } :=
        { hsound with
          seated := { hsound.seated with }
          waiters := fun w hmem => hsound.waiters w (List.mem_of_mem_eraseIdx hmem) }
      have hfree := (sound_sections o).takeFree hleft
      have hwithin : Within o { s with submitters := s.submitters.eraseIdx k : State }.takeFree :=
        (within_sections o).takeFree h
      split
      · rename_i hrotated
        exact within_submitRotated hfree hwithin hcheck
          (fits_takeFree hleft fun hnone => ha w hw hrotated hnone)
      · exact within_submitFirst hfree hwithin hcheck
  | startFlush =>
    cases hs
    exact (within_sections o).startFlush h
  | wakeFlusher k => exact (within_sections o).wakeFlusher h hs
  | _ => exact within_worker h (workerStep_of_step id hs)

theorem within_initial (o : PropertyUpdateOptions) (c : Nat) : Within o (initial o c) := by
  intro b hb
  simp only [initial, List.mem_cons, List.mem_replicate] at hb
  obtain rfl | ⟨-, rfl⟩ := hb <;> exact ⟨Nat.zero_le _, Nat.zero_le _⟩

structure Bounded (o : PropertyUpdateOptions) (s : State) : Prop where
  sound : Sound o s
  within : Within o s

theorem bounded_of_reach {c : Nat} (h : Lib.Reach (step o) (WakesToRoom o) (initial o c) s) :
    Bounded o s := by
  refine h.invariant ⟨sound_initial o c, within_initial o c⟩ ?_
  intro s a s' hs ha hstep
  exact ⟨sound_step hs.sound hstep, within_step hs.sound hs.within ha hstep⟩

/-- A batch enters one buffer as a whole, under a commit that no earlier batch has, and no buffer
holds more than its capacity. -/
theorem buffers_hold_whole_batches (o : PropertyUpdateOptions) (c : Nat) (s : State)
    (h : Lib.Reach (step o) (WakesToRoom o) (initial o c) s) :
    (∀ b ∈ s.buffers, b.records.length ≤ o.bufferCapacityRecords ∧
      b.bytes ≤ o.bufferCapacityBytes ∧ b.bytes = batchBytes o b.records) ∧
    (∀ x ∈ s.acknowledged, x.2.commitSequence < s.nextCommitSequence) ∧
    ∀ a s', step o s a = some s' →
      Stays s s' ∨ ∃ batch i, BatchOf s a batch ∧ Enters o batch i s s' := by
  have hs := bounded_of_reach h
  refine ⟨fun b hb => ?_, hs.sound.past, fun a s' hstep => enters_or_stays hs.sound hstep⟩
  exact ⟨(hs.within b hb).1, (hs.within b hb).2, (hs.sound.buffers b hb).bytes⟩

instance (s : State) (i : Nat) (batch : List BufferedPropertyUpdate) :
    Decidable (Fits o s i batch) := inferInstanceAs (Decidable (_ ∨ _))

instance (s : State) : (a : Action) → Decidable (WakesToRoom o s a)
  | .wakeSubmitter k => inferInstanceAs (Decidable (∀ w ∈ s.submitters[k]?, _))
  | .submit _ => .isTrue trivial
  | .startFlush => .isTrue trivial
  | .wakeFlusher _ => .isTrue trivial
  | .takeQueued => .isTrue trivial
  | .callBack _ _ => .isTrue trivial
  | .retire => .isTrue trivial
  | .finishBuffer => .isTrue trivial
  | .stop => .isTrue trivial

/-- One buffer is full, and a caller queues the other one because its two records do not fit. -/
def queueBoth : List Action :=
  [.submit [updateOf 2, updateOf 3], .submit [updateOf 4], .submit [updateOf 5, updateOf 6]]

theorem a_sleeper_takes_the_next_buffer :
    ∃ s, Lib.Reach (step twoBuffers) (WakesToRoom twoBuffers) (initial twoBuffers 1) s ∧
      s.acknowledged.length = 5 ∧ ∀ b ∈ s.buffers, b.records.length ≤ 2 := by
  obtain ⟨s, hs, hlength⟩ := Lib.exists_reach_of_run (step twoBuffers) (WakesToRoom twoBuffers)
    (initial twoBuffers 1) (queueBoth ++ flushTwo ++ [.wakeSubmitter 0])
    (fun s => s.acknowledged.length = 5) (by decide)
  exact ⟨s, hs, hlength, fun b hb => ((buffers_hold_whole_batches twoBuffers 1 s hs).1 b hb).1⟩

/-- A second caller sleeps too. The worker frees a buffer and wakes both; the second caller is the
first to take it, and the first one adds its two records without another look. -/
theorem a_late_sleeper_overfills_the_buffer :
    ∃ s, Lib.Reach (step twoBuffers) Lib.AnyStep (initial twoBuffers 1) s ∧
      ∃ b ∈ s.buffers, b.records.length > twoBuffers.bufferCapacityRecords :=
  Lib.exists_reach_of_run (step twoBuffers) Lib.AnyStep (initial twoBuffers 1)
    (queueBoth ++ [.submit [updateOf 7]] ++ flushTwo ++ [.wakeSubmitter 1, .wakeSubmitter 0])
    (fun s => ∃ b ∈ s.buffers, b.records.length > twoBuffers.bufferCapacityRecords) (by decide)

end RichGraph.PropertyUpdateManager
