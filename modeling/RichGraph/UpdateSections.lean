-- What the sections of the update manager are made of: a caller takes a free
-- buffer, queues the active one, adds its batch, or only goes to sleep or returns.
-- What these four keep is kept by every section of a caller.
import RichGraph.UpdateHandOff

namespace RichGraph.PropertyUpdateManager

variable {s s' s'' : State} {o : PropertyUpdateOptions}

/-! ## The rule -/

/-- The four parts of a section keep `P`. `may` says which batch may be added to which pending
values, or may wait for that. -/
structure KeptBySections (o : PropertyUpdateOptions)
    (may : Pending → List BufferedPropertyUpdate → Prop) (P : State → Prop) : Prop where
  waiting : ∀ {s : State} submitters flushers flushed errors,
    (∀ w ∈ submitters, w ∈ s.submitters ∨ may s.pending w.batch) → P s →
      P { s with submitters, flushers, flushed, errors }
  takeFree : ∀ {s : State}, P s → P s.takeFree
  push : ∀ {s : State} {i : Nat}, s.activeBuffer = some i → P s → P (s.afterPush i)
  append : ∀ {s : State} {i : Nat} {batch : List BufferedPropertyUpdate},
    s.activeBuffer = some i → may s.pending batch → P s → P (s.append o i batch)

/-- The batch that an action adds may be added. -/
def MaySubmit (may : Pending → List BufferedPropertyUpdate → Prop) (s : State) : Action → Prop
  | .submit batch => may s.pending batch
  | .wakeSubmitter k => ∀ w ∈ s.submitters[k]?, may s.pending w.batch
  | _ => True

theorem pending_takeFree (s : State) : s.takeFree.pending = s.pending := by
  unfold State.takeFree
  split <;> rfl

theorem pending_queueActiveBuffer (s : State) : s.queueActiveBuffer.pending = s.pending := by
  rcases queueActiveBuffer_cases s with ⟨he, -⟩ | ⟨i, -, he⟩
  · rw [he]
  · rw [he, pending_takeFree]
    rfl

namespace KeptBySections

variable {may : Pending → List BufferedPropertyUpdate → Prop} {P : State → Prop}
  {batch : List BufferedPropertyUpdate}

theorem fail (h : KeptBySections o may P) (hP : P s) (error : String) : P (s.fail error) :=
  h.waiting s.submitters s.flushers s.flushed _ (fun _ hw => Or.inl hw) hP

theorem sleep (h : KeptBySections o may P) (hmay : may s.pending batch) (hP : P s)
    (rotated : Bool) : P { s with submitters := s.submitters ++ [⟨batch, rotated⟩] } := by
  refine h.waiting _ s.flushers s.flushed s.errors (fun w hw => ?_) hP
  rcases List.mem_append.mp hw with hw | hw
  · exact Or.inl hw
  · rw [List.mem_singleton.mp hw]
    exact Or.inr hmay

theorem queueActiveBuffer (h : KeptBySections o may P) (hP : P s) : P s.queueActiveBuffer := by
  rcases queueActiveBuffer_cases s with ⟨he, -⟩ | ⟨i, hi, he⟩
  · rw [he]
    exact hP
  · rw [he]
    exact h.takeFree (h.push hi hP)

theorem commitBatch (h : KeptBySections o may P) {i : Nat} (hi : s.activeBuffer = some i)
    (hmay : may s.pending batch) (hP : P s) : P (s.commitBatch o i batch) := by
  unfold State.commitBatch
  simp only
  split
  · exact h.queueActiveBuffer (h.append hi hmay hP)
  · exact h.append hi hmay hP

theorem submitRotated (h : KeptBySections o may P) (hmay : may s.pending batch) (hP : P s) :
    P (s.submitRotated o batch) := by
  unfold State.submitRotated
  split
  · exact h.fail hP _
  · exact h.sleep hmay hP _
  · rename_i i hi
    exact h.commitBatch (active_of_ensured hi) hmay hP

theorem submitFirst (h : KeptBySections o may P) (hmay : may s.pending batch) (hP : P s) :
    P (s.submitFirst o batch) := by
  unfold State.submitFirst
  split
  · exact h.fail hP _
  · exact h.sleep hmay hP _
  · rename_i i hi
    split
    · exact h.submitRotated (by rwa [pending_queueActiveBuffer]) (h.queueActiveBuffer hP)
    · exact h.commitBatch (active_of_ensured hi) hmay hP

theorem submitBatch (h : KeptBySections o may P) (hmay : may s.pending batch) (hP : P s) :
    P (s.submitBatch o batch) := by
  unfold State.submitBatch
  split
  · exact h.fail hP _
  · exact h.submitFirst hmay hP

theorem wakeSubmitter (h : KeptBySections o may P) {k : Nat}
    (hmay : ∀ w ∈ s.submitters[k]?, may s.pending w.batch) (hP : P s)
    (hs : s.wakeSubmitter o k = some s') : P s' := by
  unfold State.wakeSubmitter at hs
  split at hs
  · cases hs
  · rename_i w hw
    cases hs
    have hfree := h.takeFree (h.waiting (s.submitters.eraseIdx k) s.flushers s.flushed s.errors
      (fun _ hw => Or.inl (List.mem_of_mem_eraseIdx hw)) hP)
    have hbatch := hmay w hw
    split
    · exact h.submitRotated (by rwa [pending_takeFree]) hfree
    · exact h.submitFirst (by rwa [pending_takeFree]) hfree

theorem finishFlush (h : KeptBySections o may P) (hP : P s) (snapshot : List Delta) :
    P (s.finishFlush snapshot) := by
  unfold State.finishFlush
  split
  · exact h.fail hP _
  · simp only
    split
    · exact h.waiting _ _ _ _ (fun _ hw => Or.inl hw) (h.takeFree hP)
    · exact h.waiting _ _ _ _ (fun _ hw => Or.inl hw) hP

theorem startFlush (h : KeptBySections o may P) (hP : P s) : P s.startFlush := by
  unfold State.startFlush
  split
  · exact h.fail hP _
  · simp only
    split
    · exact h.finishFlush (h.queueActiveBuffer hP) _
    · exact h.waiting _ _ _ _ (fun _ hw => Or.inl hw) (h.queueActiveBuffer hP)

theorem wakeFlusher (h : KeptBySections o may P) {k : Nat} (hP : P s)
    (hs : s.wakeFlusher k = some s') : P s' := by
  unfold State.wakeFlusher at hs
  split at hs
  · cases hs
  · cases hs
    split
    · exact h.finishFlush (h.waiting _ _ _ _ (fun _ hw => Or.inl hw) hP) _
    · exact hP

theorem of_caller (h : KeptBySections o may P) {a : Action} (ha : a.OfCaller)
    (hmay : MaySubmit may s a) (hP : P s) (hs : step o s a = some s') : P s' := by
  cases a with
  | submit batch =>
    cases hs
    exact h.submitBatch hmay hP
  | wakeSubmitter k => exact h.wakeSubmitter hmay hP hs
  | startFlush =>
    cases hs
    exact h.startFlush hP
  | wakeFlusher k => exact h.wakeFlusher hP hs
  | _ => exact ha.elim

end KeptBySections

/-! ## What the manager holds was acknowledged -/

/-- A section passes nothing to a callback, and every record that it shows was there or has been
acknowledged. -/
structure Grows (s s' : State) : Prop where
  passed : s'.passed = s.passed
  acknowledged : ∀ x ∈ s.acknowledged, x ∈ s'.acknowledged
  buffers : ∀ b' ∈ s'.buffers, ∀ u ∈ b'.records,
    (∃ b ∈ s.buffers, u ∈ b.records) ∨ u.delta ∈ s'.acknowledged
  worker : ∀ x ∈ s'.worker.deltas, x ∈ s.worker.deltas ∨
    (∃ b ∈ s.buffers, ∃ u ∈ b.records, u.delta = x) ∨ x ∈ s'.acknowledged

theorem Grows.of_same (hpassed : s'.passed = s.passed)
    (hacknowledged : s'.acknowledged = s.acknowledged) (hbuffers : s'.buffers = s.buffers)
    (hworker : ∀ x ∈ s'.worker.deltas, x ∈ s.worker.deltas) : Grows s s' where
  passed := hpassed
  acknowledged _ hx := hacknowledged ▸ hx
  buffers b' hb' _ hu := Or.inl ⟨b', hbuffers ▸ hb', hu⟩
  worker x hx := Or.inl (hworker x hx)

theorem Grows.refl (s : State) : Grows s s := Grows.of_same rfl rfl rfl fun _ hx => hx

theorem Grows.trans (h : Grows s s') (h' : Grows s' s'') : Grows s s'' where
  passed := h'.passed.trans h.passed
  acknowledged x hx := h'.acknowledged x (h.acknowledged x hx)
  buffers b'' hb'' u hu := by
    rcases h'.buffers b'' hb'' u hu with ⟨b', hb', hu'⟩ | hack
    · exact (h.buffers b' hb' u hu').imp id (h'.acknowledged _)
    · exact Or.inr hack
  worker x hx := by
    rcases h'.worker x hx with hx' | ⟨b', hb', u, hu, rfl⟩ | hack
    · exact (h.worker x hx').imp id fun hx'' => hx''.imp id (h'.acknowledged x)
    · rcases h.buffers b' hb' u hu with ⟨b, hb, hub⟩ | hack
      · exact Or.inr (Or.inl ⟨b, hb, u, hub, rfl⟩)
      · exact Or.inr (Or.inr (h'.acknowledged _ hack))
    · exact Or.inr (Or.inr hack)

theorem mem_modify {bs : List Buffer} {i : Nat} {f : Buffer → Buffer} {b' : Buffer}
    (h : b' ∈ bs.modify i f) : ∃ b ∈ bs, b' = b ∨ b' = f b := by
  obtain ⟨j, hj⟩ := List.mem_iff_getElem?.mp h
  rw [List.getElem?_modify] at hj
  obtain ⟨b, hb, rfl⟩ := Option.map_eq_some_iff.mp hj
  refine ⟨b, List.mem_of_getElem? hb, ?_⟩
  split
  · exact Or.inr rfl
  · exact Or.inl rfl

/-- One buffer changes, and its new records were acknowledged. -/
theorem Grows.of_modify {i : Nat} {f : Buffer → Buffer} (hpassed : s'.passed = s.passed)
    (hacknowledged : ∀ x ∈ s.acknowledged, x ∈ s'.acknowledged)
    (hbuffers : s'.buffers = s.buffers.modify i f)
    (hrecords : ∀ b, ∀ u ∈ (f b).records, u ∈ b.records ∨ u.delta ∈ s'.acknowledged)
    (hworker : ∀ x ∈ s'.worker.deltas, x ∈ s.worker.deltas) : Grows s s' where
  passed := hpassed
  acknowledged := hacknowledged
  buffers b' hb' u hu := by
    rw [hbuffers] at hb'
    obtain ⟨b, hb, rfl | rfl⟩ := mem_modify hb'
    · exact Or.inl ⟨b', hb, hu⟩
    · exact (hrecords b u hu).imp (fun hub => ⟨b, hb, hub⟩) id
  worker x hx := Or.inl (hworker x hx)

theorem grows_takeFree (s : State) : Grows s s.takeFree := by
  rcases takeFree_cases s with ⟨he, -⟩ | ⟨i, b, -, -, he⟩
  · rw [he]
    exact Grows.refl s
  · rw [he]
    exact Grows.of_modify rfl (fun _ hx => hx) rfl (fun _ _ hu => Or.inl hu) fun _ hx => hx

theorem grows_append (o : PropertyUpdateOptions) (s : State) (i : Nat)
    (batch : List BufferedPropertyUpdate) : Grows s (s.append o i batch) := by
  refine Grows.of_modify rfl (fun _ hx => List.mem_append_left _ hx) rfl ?_ fun _ hx => hx
  intro b u hu
  rcases List.mem_append.mp hu with hu | hu
  · exact Or.inl hu
  · exact Or.inr (List.mem_append_right _ (List.mem_map_of_mem hu))

theorem grows_sections (o : PropertyUpdateOptions) (s : State) :
    KeptBySections o (fun _ _ => True) (Grows s) where
  waiting _ _ _ _ _ h := h.trans (Grows.of_same rfl rfl rfl fun _ hx => hx)
  takeFree h := h.trans (grows_takeFree _)
  push _ h := h.trans
    (Grows.of_modify rfl (fun _ hx => hx) rfl (fun _ _ hu => Or.inl hu) fun _ hx => hx)
  append _ _ h := h.trans (grows_append o _ _ _)

/-- The groups of a buffer hold its records. -/
theorem mem_groupsOf {records : List BufferedPropertyUpdate} {x : Delta}
    (h : x ∈ (groupsOf records).flatMap Group.deltas) : ∃ u ∈ records, u.delta = x := by
  rw [← List.count_pos_iff, count_groupsOf, List.count_pos_iff] at h
  exact List.mem_map.mp h

theorem mem_recordsAt {i : Nat} {u : BufferedPropertyUpdate} (h : u ∈ s.recordsAt i) :
    ∃ b ∈ s.buffers, u ∈ b.records := by
  unfold State.recordsAt at h
  cases hb : s.buffers[i]? with
  | none => simp [hb] at h
  | some b =>
    rw [hb] at h
    exact ⟨b, List.mem_of_getElem? hb, h⟩

/-- The worker, when it does not call back with success. -/
theorem grows_worker {a : Action} (ha : ∀ k, a ≠ .callBack k none) (h : WorkerStep s a s') :
    Grows s s' := by
  cases h with
  | @take i rest _ _ =>
    have hbuffers : Grows s { s with
        queuedBuffers := rest
        buffers := s.buffers.modify i (Buffer.withState .kFlushing)
        runningFlushes := s.runningFlushes + 1 } :=
      Grows.of_modify rfl (fun _ hx => hx) rfl (fun _ _ hu => Or.inl hu) fun _ hx => hx
    refine ⟨rfl, fun _ hx => hx, hbuffers.buffers, fun x hx => ?_⟩
    obtain ⟨u, hu, rfl⟩ := mem_groupsOf hx
    obtain ⟨b, hb, hub⟩ := mem_recordsAt hu
    exact Or.inr (Or.inl ⟨b, hb, u, hub, rfl⟩)
  | call => exact absurd rfl (ha _)
  | free =>
    exact Grows.of_modify rfl (fun _ hx => hx) rfl (fun _ _ hu => by cases hu)
      fun _ hx => by cases hx
  | failed =>
    exact Grows.of_modify rfl (fun _ hx => hx) rfl (fun _ _ hu => Or.inl hu) fun _ hx => by cases hx
  | stop => exact Grows.of_same rfl rfl rfl fun _ hx => hx
  | _ => exact Grows.of_same rfl rfl rfl fun _ hx => by cases hx

/-- A step that is not a successful callback. -/
theorem grows_step {a : Action} (ha : ∀ k, a ≠ .callBack k none) (h : step o s a = some s') :
    Grows s s' := by
  have hcaller : a.OfCaller → MaySubmit (fun _ _ => True) s a → Grows s s' := fun hof hmay =>
    (grows_sections o s).of_caller hof hmay (Grows.refl s) h
  cases a with
  | submit | startFlush | wakeFlusher => exact hcaller trivial trivial
  | wakeSubmitter k => exact hcaller trivial fun _ _ => trivial
  | _ => exact grows_worker ha (workerStep_of_step id h)

/-- Every record in a buffer, before a callback or passed to one was acknowledged. -/
structure Known (s : State) : Prop where
  buffers : ∀ b ∈ s.buffers, ∀ u ∈ b.records, u.delta ∈ s.acknowledged
  worker : ∀ x ∈ s.worker.deltas, x ∈ s.acknowledged
  passed : ∀ x ∈ s.passed, x ∈ s.acknowledged

theorem Known.of_grows (h : Known s) (hg : Grows s s') : Known s' where
  buffers b' hb' u hu := by
    rcases hg.buffers b' hb' u hu with ⟨b, hb, hub⟩ | hack
    · exact hg.acknowledged _ (h.buffers b hb u hub)
    · exact hack
  worker x hx := by
    rcases hg.worker x hx with hold | ⟨b, hb, u, hu, rfl⟩ | hack
    · exact hg.acknowledged _ (h.worker x hold)
    · exact hg.acknowledged _ (h.buffers b hb u hu)
    · exact hack
  passed x hx := hg.acknowledged x (h.passed x (hg.passed ▸ hx))

theorem known_initial (o : PropertyUpdateOptions) (c : Nat) : Known (initial o c) where
  buffers b hb u hu := by
    rcases List.mem_cons.mp hb with rfl | hb
    · cases hu
    · rw [List.eq_of_mem_replicate hb] at hu
      cases hu
  worker x hx := by cases hx
  passed x hx := by cases hx

/-- The callback of a group succeeds. -/
theorem callBack_cases {k : Nat} (h : step o s (.callBack k none) = some s') :
    ∃ i groups g, s.worker = .calling i groups ∧ groups[k]? = some g ∧
      s' = { s with worker := .calling i (groups.eraseIdx k), passed := s.passed ++ g.deltas } := by
  cases workerStep_of_step id h with
  | call hw hg => exact ⟨_, _, _, hw, hg, rfl⟩

theorem Known.of_call {i k : Nat} {groups : List Group} {g : Group} (h : Known s)
    (hw : s.worker = .calling i groups) (hg : groups[k]? = some g) :
    Known { s with
      worker := .calling i (groups.eraseIdx k), passed := s.passed ++ g.deltas } := by
  have hworker : ∀ x ∈ groups.flatMap Group.deltas, x ∈ s.acknowledged := by
    intro x hx
    apply h.worker x
    rw [hw]
    exact hx
  refine ⟨h.buffers, ?_, ?_⟩
  · intro x hx
    obtain ⟨g', hg', hx'⟩ := List.mem_flatMap.mp hx
    exact hworker x (List.mem_flatMap.mpr ⟨g', List.mem_of_mem_eraseIdx hg', hx'⟩)
  · intro x hx
    rcases List.mem_append.mp hx with hx | hx
    · exact h.passed x hx
    · exact hworker x (List.mem_flatMap.mpr ⟨g, List.mem_of_getElem? hg, hx⟩)

theorem Known.of_worker {a : Action} (h : Known s) (hs : WorkerStep s a s') : Known s' := by
  by_cases ha : ∃ k, a = .callBack k none
  · obtain ⟨k, rfl⟩ := ha
    cases hs with
    | call hw hg => exact h.of_call hw hg
  · exact h.of_grows (grows_worker (fun k hk => ha ⟨k, hk⟩) hs)

/-! ## The places of the buffers -/

/-- The active buffer, the queue and the buffer of the worker are three different places. -/
structure Seated (s : State) : Prop where
  active : ∀ i ∈ s.activeBuffer, stateAt s.buffers i = some .kActive
  queued : ∀ i ∈ s.queuedBuffers, stateAt s.buffers i = some .kQueued
  nodup : s.queuedBuffers.Nodup
  flushing : ∀ i ∈ s.worker.buffer, stateAt s.buffers i = some .kFlushing

theorem ne_of_stateAt {bs : List Buffer} {i j : Nat} {st st' : BufferState}
    (hi : stateAt bs i = some st) (hj : stateAt bs j = some st') (hne : st ≠ st') : i ≠ j := by
  rintro rfl
  rw [hi, Option.some.injEq] at hj
  exact hne hj

/-- The other buffers keep their states. -/
theorem stateAt_modify_of_ne {bs : List Buffer} {i j : Nat} {st st' : BufferState}
    {f : Buffer → Buffer} (hi : stateAt bs i = some st) (hj : stateAt bs j = some st')
    (hne : st ≠ st') : stateAt (bs.modify i f) j = some st' := by
  rw [stateAt_modify, ← hj]
  simp only [if_neg (ne_of_stateAt hi hj hne)]
  rfl

theorem seated_sections (o : PropertyUpdateOptions) :
    KeptBySections o (fun _ _ => True) Seated where
  waiting _ _ _ _ _ h := ⟨h.active, h.queued, h.nodup, h.flushing⟩
  takeFree {s} h := by
    rcases takeFree_cases s with ⟨he, -⟩ | ⟨i, b, hb, hfree, he⟩
    · rw [he]
      exact h
    · have hi : stateAt s.buffers i = some .kFree := by rw [stateAt_eq_of_getElem? hb, hfree]
      rw [he]
      refine ⟨?_, fun j hj => stateAt_modify_of_ne hi (h.queued j hj) (by decide), h.nodup,
        fun j hj => stateAt_modify_of_ne hi (h.flushing j hj) (by decide)⟩
      rintro j ⟨⟩
      exact stateAt_withState_self hi
  push {s i} hi h := by
    have hactive := h.active i hi
    refine ⟨(fun j hj => by cases hj), ?_, ?_,
      fun j hj => stateAt_modify_of_ne hactive (h.flushing j hj) (by decide)⟩
    · intro j hj
      rcases List.mem_append.mp hj with hj | hj
      · exact stateAt_modify_of_ne hactive (h.queued j hj) (by decide)
      · rw [List.mem_singleton.mp hj]
        exact stateAt_withState_self hactive
    · refine List.nodup_append'.mpr ⟨h.nodup, List.nodup_singleton i, ?_⟩
      rw [List.disjoint_singleton]
      exact fun hmem => ne_of_stateAt hactive (h.queued i hmem) (by decide) rfl
  append {s i batch} _ _ h := by
    have hsame : ∀ j st, stateAt s.buffers j = some st →
        stateAt (s.append o i batch).buffers j = some st := fun j st hj => by
      rw [stateAt_append, hj]
    exact ⟨fun j hj => hsame j _ (h.active j hj), fun j hj => hsame j _ (h.queued j hj), h.nodup,
      fun j hj => hsame j _ (h.flushing j hj)⟩

theorem Seated.of_worker {a : Action} (h : Seated s) (hs : WorkerStep s a s') : Seated s' := by
  cases hs with
  | leave => exact ⟨h.active, h.queued, h.nodup, fun _ hj => by cases hj⟩
  | @take i rest _ hqueue =>
    have hi := h.queued i (by rw [hqueue]; exact List.mem_cons_self)
    have hnodup := h.nodup
    rw [hqueue, List.nodup_cons] at hnodup
    refine ⟨fun j hj => stateAt_modify_of_ne hi (h.active j hj) (by decide), fun j hj => ?_,
      hnodup.2, ?_⟩
    · rw [stateAt_withState, if_neg (by rintro rfl; exact hnodup.1 hj)]
      exact h.queued j (by rw [hqueue]; exact List.mem_cons_of_mem _ hj)
    · rintro j ⟨⟩
      exact stateAt_withState_self hi
  | call hw | fail hw | called hw | retire hw =>
    exact ⟨h.active, h.queued, h.nodup, fun j hj => h.flushing j (by rw [hw]; exact hj)⟩
  | @free i hw =>
    have hi := h.flushing i (by rw [hw]; rfl)
    refine ⟨fun j hj => ?_, fun j hj => stateAt_modify_of_ne hi (h.queued j hj) (by decide),
      h.nodup, fun _ hj => by cases hj⟩
    dsimp only at hj ⊢
    split at hj
    · rename_i hnone
      cases hj
      obtain ⟨b, hb, -⟩ := Option.map_eq_some_iff.mp hi
      rw [stateAt_modify, if_pos hnone, hb]
      simp
    · exact stateAt_modify_of_ne hi (h.active j hj) (by decide)
  | @failed i e hw =>
    have hi := h.flushing i (by rw [hw]; rfl)
    exact ⟨fun j hj => stateAt_modify_of_ne hi (h.active j hj) (by decide),
      fun j hj => stateAt_modify_of_ne hi (h.queued j hj) (by decide), h.nodup,
      fun _ hj => by cases hj⟩
  | stop => exact ⟨h.active, h.queued, h.nodup, h.flushing⟩

theorem seated_initial (o : PropertyUpdateOptions) (c : Nat) : Seated (initial o c) where
  active := by
    rintro i ⟨⟩
    rfl
  queued _ hi := by cases hi
  nodup := List.nodup_nil
  flushing _ hi := by cases hi

/-- The commits that were given out are in the past. -/
theorem past_append {i : Nat} {batch : List BufferedPropertyUpdate}
    (h : ∀ x ∈ s.acknowledged, x.2.commitSequence < s.nextCommitSequence) :
    ∀ x ∈ (s.append o i batch).acknowledged,
      x.2.commitSequence < (s.append o i batch).nextCommitSequence := by
  intro x hx
  rcases List.mem_append.mp hx with hx | hx
  · exact Nat.lt_succ_of_lt (h x hx)
  · obtain ⟨u, hu, rfl⟩ := List.mem_map.mp hx
    obtain ⟨v, -, rfl⟩ := List.mem_map.mp hu
    exact Nat.lt_succ_self _

/-! ## What every update has -/

/-- Every update that was acknowledged, or waits for a buffer, has `B`. -/
structure AllFrom (B : Delta → Prop) (s : State) : Prop where
  waiting : ∀ w ∈ s.submitters, ∀ u ∈ w.batch, B u.delta
  acknowledged : ∀ x ∈ s.acknowledged, B x

variable {B B' : Delta → Prop}

theorem AllFrom.imp (h : AllFrom B s) (himp : ∀ x, B x → B' x) : AllFrom B' s :=
  ⟨fun w hw u hu => himp _ (h.waiting w hw u hu), fun x hx => himp x (h.acknowledged x hx)⟩

theorem allFrom_initial (B : Delta → Prop) (o : PropertyUpdateOptions) (c : Nat) :
    AllFrom B (initial o c) :=
  ⟨fun _ hw => (List.not_mem_nil hw).elim, fun _ hx => (List.not_mem_nil hx).elim⟩

theorem allFrom_sections (o : PropertyUpdateOptions)
    (hstamp : ∀ c u, B u.delta → B (stamp c u).delta) :
    KeptBySections o (fun _ batch => ∀ u ∈ batch, B u.delta) (AllFrom B) where
  waiting submitters _ _ _ hmay h := by
    refine ⟨fun w hw => ?_, h.acknowledged⟩
    rcases hmay w hw with hw | hw
    · exact h.waiting w hw
    · exact hw
  takeFree {s} h := by
    have hsubmitters : s.takeFree.submitters = s.submitters := by
      unfold State.takeFree
      split <;> rfl
    obtain ⟨-, hack, -⟩ := takeFree_fields s
    exact ⟨hsubmitters.symm ▸ h.waiting, hack.symm ▸ h.acknowledged⟩
  push _ h := ⟨h.waiting, h.acknowledged⟩
  append _ hmay h := by
    refine ⟨h.waiting, fun x hx => ?_⟩
    rcases List.mem_append.mp hx with hx | hx
    · exact h.acknowledged x hx
    · obtain ⟨u, hu, rfl⟩ := List.mem_map.mp hx
      obtain ⟨v, hv, rfl⟩ := List.mem_map.mp hu
      exact hstamp _ v (hmay v hv)

/-- The worker acknowledges nothing, and nobody starts to wait for it. -/
theorem worker_fields {a : Action} (ha : ¬ a.OfCaller) (hs : step o s a = some s') :
    s'.submitters = s.submitters ∧ s'.acknowledged = s.acknowledged := by
  cases workerStep_of_step ha hs <;> exact ⟨rfl, rfl⟩

/-- A step that submits nothing new. -/
theorem AllFrom.of_step {a : Action} (h : AllFrom B s)
    (hstamp : ∀ c u, B u.delta → B (stamp c u).delta) (ha : ∀ batch, a ≠ .submit batch)
    (hs : step o s a = some s') : AllFrom B s' := by
  have hcaller : a.OfCaller → MaySubmit (fun _ batch => ∀ u ∈ batch, B u.delta) s a →
      AllFrom B s' := fun hof hmay =>
    (allFrom_sections o hstamp).of_caller hof hmay h hs
  have hworker : ¬ a.OfCaller → AllFrom B s' := by
    intro hof
    obtain ⟨hsub, hack⟩ := worker_fields hof hs
    exact ⟨hsub.symm ▸ h.waiting, hack.symm ▸ h.acknowledged⟩
  cases a with
  | submit batch => exact absurd rfl (ha batch)
  | wakeSubmitter k =>
    exact hcaller trivial fun w hw => h.waiting w (List.mem_of_getElem? hw)
  | startFlush => exact hcaller trivial trivial
  | wakeFlusher k => exact hcaller trivial trivial
  | _ => exact hworker id

end RichGraph.PropertyUpdateManager
