-- An acknowledged update is pending or has been handed over, at every step of
-- the callers and of the worker. A later update of the key may stand for it, as
-- far as the sequences of their base records allow.
import RichGraph.UpdateSections

namespace RichGraph.PropertyUpdateManager

variable {s s' : State} {o : PropertyUpdateOptions}

/-! ## Batches stay together -/

/-- The pending key of an update. -/
def Delta.key (x : Delta) : PendingKey :=
  ⟨x.1.kind, x.1.shardId, x.1.propertyId, x.2.src, x.2.dst, x.2.isOut, x.2.edgeType⟩

def Delta.pendingValue (x : Delta) : PendingValue :=
  ⟨x.2.baseSequence, x.2.commitSequence, x.2.value⟩

/-- The updates of one commit are in one buffer, and are handed over before one of them is
retired. -/
structure Together (s : State) : Prop where
  seated : Seated s
  known : Known s
  past : ∀ x ∈ s.acknowledged, x.2.commitSequence < s.nextCommitSequence
  whole : ∀ i, ∀ u ∈ s.recordsAt i, ∀ x ∈ s.acknowledged,
    x.2.commitSequence = u.record.commitSequence → ∃ w ∈ s.recordsAt i, w.delta = x
  calling : ∀ i groups, s.worker = .calling i groups → ∀ u ∈ s.recordsAt i,
    u.delta ∈ s.passed ∨ u.delta ∈ groups.flatMap Group.deltas
  retiring : ∀ i us, s.worker = .retiring i us → ∀ u ∈ us, u.delta ∈ s.acknowledged ∧
    ∀ x ∈ s.acknowledged, x.2.commitSequence = u.record.commitSequence → x ∈ s.passed

/-- A buffer changes its state, and nothing is acknowledged or handed over. -/
theorem Together.of_withState {i : Nat} {st : BufferState} (h : Together s)
    (hseated : Seated s') (hbuffers : s'.buffers = s.buffers.modify i (Buffer.withState st))
    (hack : s'.acknowledged = s.acknowledged)
    (hnext : s'.nextCommitSequence = s.nextCommitSequence) (hpassed : s'.passed = s.passed)
    (hworker : s'.worker = s.worker) : Together s' where
  seated := hseated
  known := h.known.of_grows (Grows.of_modify hpassed (fun _ hx => hack ▸ hx) hbuffers
    (fun _ _ hu => Or.inl hu) fun _ hx => hworker ▸ hx)
  past := by
    rw [hack, hnext]
    exact h.past
  whole j := by
    rw [recordsAt_withState hbuffers, hack]
    exact h.whole j
  calling j := by
    rw [recordsAt_withState hbuffers, hworker, hpassed]
    exact h.calling j
  retiring := by
    rw [hworker, hack, hpassed]
    exact h.retiring

theorem recordsAt_append_ne (o : PropertyUpdateOptions) {i j : Nat}
    (batch : List BufferedPropertyUpdate) (h : i ≠ j) :
    (s.append o i batch).recordsAt j = s.recordsAt j := by
  rw [recordsAt_modify (s := s) rfl]
  simp [h, State.recordsAt]

theorem commit_of_mem_stamped {c : Nat} {batch : List BufferedPropertyUpdate}
    {u : BufferedPropertyUpdate} (h : u ∈ batch.map (stamp c)) : u.record.commitSequence = c := by
  obtain ⟨v, -, rfl⟩ := List.mem_map.mp h
  rfl

theorem together_append {i : Nat} {batch : List BufferedPropertyUpdate}
    (hi : s.activeBuffer = some i) (h : Together s) : Together (s.append o i batch) := by
  have hactive := h.seated.active i hi
  obtain ⟨b, hb, -⟩ : ∃ b, s.buffers[i]? = some b ∧ b.state = .kActive := by
    simpa [stateAt] using hactive
  have hrecords := append_records o s i batch hb
  have hold : ∀ j, ∀ u ∈ s.recordsAt j, u.record.commitSequence < s.nextCommitSequence := by
    intro j u hu
    obtain ⟨b, hb, hub⟩ := mem_recordsAt hu
    exact h.past _ (h.known.buffers b hb u hub)
  -- An update with the commit of an old one is old.
  have hsplit : ∀ x ∈ (s.append o i batch).acknowledged,
      x.2.commitSequence < s.nextCommitSequence → x ∈ s.acknowledged := by
    intro x hx hlt
    rcases List.mem_append.mp hx with hx | hx
    · exact hx
    · obtain ⟨u, hu, rfl⟩ := List.mem_map.mp hx
      rw [show u.delta.2.commitSequence = _ from commit_of_mem_stamped hu] at hlt
      exact absurd hlt (Nat.lt_irrefl _)
  refine ⟨(seated_sections o).append hi trivial h.seated,
    h.known.of_grows (grows_append o s i batch), past_append h.past, ?_, ?_, ?_⟩
  · intro j u hu x hx heq
    by_cases hij : i = j
    · subst hij
      rw [hrecords] at hu ⊢
      rcases List.mem_append.mp hu with hu | hu
      · have hx' := hsplit x hx (by rw [heq]; exact hold i u hu)
        obtain ⟨w, hw, hwx⟩ := h.whole i u hu x hx' heq
        exact ⟨w, List.mem_append_left _ hw, hwx⟩
      · rcases List.mem_append.mp hx with hx | hx
        · have := h.past x hx
          rw [heq, commit_of_mem_stamped hu] at this
          exact absurd this (Nat.lt_irrefl _)
        · obtain ⟨w, hw, rfl⟩ := List.mem_map.mp hx
          exact ⟨w, List.mem_append_right _ hw, rfl⟩
    · rw [recordsAt_append_ne o batch hij] at hu ⊢
      exact h.whole j u hu x (hsplit x hx (by rw [heq]; exact hold j u hu)) heq
  · intro j groups hw
    have hne : i ≠ j := by
      have hj := h.seated.flushing j (by
        change s.worker = _ at hw
        rw [hw]
        rfl)
      exact ne_of_stateAt hactive hj (by simp)
    rw [recordsAt_append_ne o batch hne]
    exact h.calling j groups hw
  · intro j us hw u hu
    obtain ⟨hack, hall⟩ := h.retiring j us hw u hu
    refine ⟨List.mem_append_left _ hack, fun x hx heq => ?_⟩
    exact hall x (hsplit x hx (by rw [heq]; exact h.past _ hack)) heq

theorem together_sections (o : PropertyUpdateOptions) :
    KeptBySections o (fun _ _ => True) Together where
  waiting _ _ _ _ _ h := ⟨⟨h.seated.active, h.seated.queued, h.seated.nodup, h.seated.flushing⟩,
    ⟨h.known.buffers, h.known.worker, h.known.passed⟩, h.past, h.whole, h.calling, h.retiring⟩
  takeFree {s} h := by
    rcases takeFree_cases s with ⟨he, -⟩ | ⟨i, b, hb, hfree, he⟩
    · rw [he]
      exact h
    · have hseated := (seated_sections o).takeFree h.seated
      rw [he] at hseated ⊢
      exact h.of_withState hseated rfl rfl rfl rfl rfl
  push hi h := h.of_withState ((seated_sections o).push hi h.seated) rfl rfl rfl rfl rfl
  append hi _ h := together_append hi h

/-! ### The steps of the worker -/

/-- The records of a buffer stay or go. -/
theorem mem_recordsAt_modify {i j : Nat} {f : Buffer → Buffer} {u : BufferedPropertyUpdate}
    (hbuffers : s'.buffers = s.buffers.modify i f)
    (hf : ∀ b, (f b).records = b.records ∨ (f b).records = []) (hu : u ∈ s'.recordsAt j) :
    s'.recordsAt j = s.recordsAt j := by
  rw [recordsAt_modify hbuffers] at hu ⊢
  unfold State.recordsAt
  cases hb : s.buffers[j]? with
  | none => simp
  | some b =>
    rw [hb] at hu
    simp only [Option.map_some, Option.getD_some] at hu ⊢
    split at hu
    · rename_i hij
      rw [if_pos hij]
      rcases hf b with h | h
      · exact h
      · rw [h] at hu
        cases hu
    · rename_i hij
      rw [if_neg hij]

theorem Together.of_worker {a : Action} (h : Together s) (hs : WorkerStep s a s') :
    Together s' := by
  have hseated := h.seated.of_worker hs
  have hknown := h.known.of_worker hs
  cases hs with
  | leave | fail =>
    exact { h with
      seated := hseated, known := hknown
      calling := fun _ _ hw => by cases hw
      retiring := fun _ _ hw => by cases hw }
  | stop => exact { h with seated := hseated, known := hknown }
  | @take i rest _ _ =>
    refine
      { seated := hseated, known := hknown, past := h.past
        whole := fun j => by rw [recordsAt_withState (s := s) (i := i) rfl]; exact h.whole j
        calling := fun j groups hw u hu => ?_
        retiring := fun _ _ hw => by cases hw }
    cases hw
    rw [recordsAt_withState (s := s) (i := i) rfl] at hu
    right
    rw [← List.count_pos_iff, count_groupsOf, List.count_pos_iff]
    exact List.mem_map_of_mem hu
  | @call i k groups g hw hg =>
    refine { h with
      seated := hseated, known := hknown
      calling := fun j groups' hw' u hu => ?_
      retiring := fun _ _ hw' => by cases hw' }
    cases hw'
    rcases h.calling i groups hw u hu with hu | hu
    · exact Or.inl (List.mem_append_left _ hu)
    · -- The group of the update is the one that was handed over, or it is still there.
      obtain ⟨g', hg', hu⟩ := List.mem_flatMap.mp hu
      by_cases hgg : g' = g
      · exact Or.inl (List.mem_append_right _ (hgg ▸ hu))
      · refine Or.inr (List.mem_flatMap.mpr ⟨g', ?_, hu⟩)
        obtain ⟨m, hm⟩ := List.mem_iff_getElem?.mp hg'
        refine List.mem_eraseIdx_iff_getElem?.mpr ⟨m, ?_, hm⟩
        rintro rfl
        rw [hg, Option.some.injEq] at hm
        exact hgg hm.symm
  | @called i hw =>
    refine { h with
      seated := hseated, known := hknown
      calling := fun _ _ hw' => by cases hw'
      retiring := fun j us hw' u hu => ?_ }
    -- No group is left, so the whole buffer has been handed over.
    cases hw'
    have hpassed : ∀ w ∈ s.recordsAt i, w.delta ∈ s.passed := fun w hwi =>
      (h.calling i [] hw w hwi).resolve_right (by simp)
    refine ⟨h.known.passed _ (hpassed u hu), fun x hx heq => ?_⟩
    obtain ⟨w, hwi, rfl⟩ := h.whole i u hu x hx heq
    exact hpassed w hwi
  | @retire i u us hw =>
    refine { h with
      seated := hseated, known := hknown
      calling := fun _ _ hw' => by cases hw'
      retiring := fun j us' hw' w hwu => ?_ }
    cases hw'
    exact h.retiring i (u :: us) hw w (List.mem_cons_of_mem _ hwu)
  | free =>
    refine
      { seated := hseated, known := hknown, past := h.past, whole := fun j u hu x hx heq => ?_
        calling := fun _ _ hw => by cases hw
        retiring := fun _ _ hw => by cases hw }
    have hsame := mem_recordsAt_modify rfl (fun _ => Or.inr rfl) hu
    rw [hsame] at hu ⊢
    exact h.whole j u hu x hx heq
  | @failed i =>
    exact
      { seated := hseated, known := hknown, past := h.past
        whole := fun j => by rw [recordsAt_withState (s := s) (i := i) rfl]; exact h.whole j
        calling := fun _ _ hw => by cases hw
        retiring := fun _ _ hw => by cases hw }

theorem together_step {a : Action} (h : Together s) (hs : step o s a = some s') : Together s' := by
  have hcaller : a.OfCaller → MaySubmit (fun _ _ => True) s a → Together s' := fun hof hmay =>
    (together_sections o).of_caller hof hmay h hs
  cases a with
  | submit | startFlush | wakeFlusher => exact hcaller trivial trivial
  | wakeSubmitter k => exact hcaller trivial fun _ _ => trivial
  | _ => exact h.of_worker (workerStep_of_step id hs)

theorem together_initial (o : PropertyUpdateOptions) (c : Nat) : Together (initial o c) where
  seated := seated_initial o c
  known := known_initial o c
  past := fun _ hx => (List.not_mem_nil hx).elim
  whole := fun _ _ _ _ hx => (List.not_mem_nil hx).elim
  calling := fun _ _ hw => by cases hw
  retiring := fun _ _ hw => by cases hw

/-! ## An update is pending or handed over -/

/-- `R` relates the base of an update to the base of what may stand for it. A batch replaces
pending values accordingly. -/
def Replaces (R : Nat → Nat → Prop) (p : Pending) (batch : List BufferedPropertyUpdate) : Prop :=
  (∀ u ∈ batch, ∀ v ∈ p (makePendingKey u), R v.baseSequence u.record.baseSequence) ∧
    batch.Pairwise fun a b => makePendingKey a = makePendingKey b →
      R a.record.baseSequence b.record.baseSequence

instance {R : Nat → Nat → Prop} [DecidableRel R] (p : Pending)
    (batch : List BufferedPropertyUpdate) :
    Decidable (Replaces R p batch) :=
  inferInstanceAs (Decidable ((∀ u ∈ batch, ∀ v ∈ p (makePendingKey u), _) ∧ _))

/-- Every pending value is the newest update of its key, and every update has something that
stands for it: the pending value, or an update that was handed over. -/
structure Shown (R : Nat → Nat → Prop) (s : State) : Prop where
  known : ∀ k, ∀ v ∈ s.pending k, ∃ x ∈ s.acknowledged, Delta.key x = k ∧ Delta.pendingValue x = v
  newest : ∀ k, ∀ v ∈ s.pending k, ∀ x ∈ s.acknowledged, Delta.key x = k →
    x.2.commitSequence ≤ v.commitSequence
  shown : ∀ x ∈ s.acknowledged,
    (∃ v ∈ s.pending (Delta.key x), R x.2.baseSequence v.baseSequence) ∨
      ∃ y ∈ s.passed, Delta.key y = Delta.key x ∧ x.2.commitSequence ≤ y.2.commitSequence ∧
        R x.2.baseSequence y.2.baseSequence

theorem publishPending_ne {p : Pending} {u : BufferedPropertyUpdate} {k : PendingKey}
    (h : makePendingKey u ≠ k) : publishPending p u k = p k :=
  Function.update_of_ne h.symm _ _

theorem publishPending_self {p : Pending} {u : BufferedPropertyUpdate}
    (h : ∀ v ∈ p (makePendingKey u), v.commitSequence ≤ u.record.commitSequence) :
    publishPending p u (makePendingKey u) = some (Delta.pendingValue u.delta) := by
  unfold publishPending
  simp only [Function.update_self]
  rw [if_pos]
  · rfl
  · cases hp : p (makePendingKey u) with
    | none => exact Nat.zero_le _
    | some v => exact h v hp

/-- What a batch of one commit leaves for a key: the last update of the key. -/
theorem foldl_publishPending {c : Nat} {p : Pending} {us : List BufferedPropertyUpdate}
    (hc : ∀ u ∈ us, u.record.commitSequence = c) (hp : ∀ k, ∀ v ∈ p k, v.commitSequence ≤ c)
    (k : PendingKey) :
    ((∀ u ∈ us, makePendingKey u ≠ k) ∧ us.foldl publishPending p k = p k) ∨
      ∃ as u bs, us = as ++ u :: bs ∧ makePendingKey u = k ∧ (∀ w ∈ bs, makePendingKey w ≠ k) ∧
        us.foldl publishPending p k = some (Delta.pendingValue u.delta) := by
  induction us generalizing p with
  | nil => exact Or.inl ⟨by simp, rfl⟩
  | cons u us ih =>
    have hcommit : u.record.commitSequence = c := hc u List.mem_cons_self
    have hself := publishPending_self (p := p) (u := u) (by rw [hcommit]; exact hp _)
    have hp' : ∀ k, ∀ v ∈ publishPending p u k, v.commitSequence ≤ c := by
      intro k v hv
      by_cases hk : makePendingKey u = k
      · rw [← hk, hself, Option.mem_some_iff] at hv
        rw [← hv]
        exact Nat.le_of_eq hcommit
      · rw [publishPending_ne hk] at hv
        exact hp k v hv
    rcases ih (fun w hw => hc w (List.mem_cons_of_mem _ hw)) hp'
      with ⟨hnone, he⟩ | ⟨as, w, bs, rfl, hrest⟩
    · by_cases hk : makePendingKey u = k
      · subst hk
        exact Or.inr ⟨[], u, us, rfl, rfl, hnone, he.trans hself⟩
      · refine Or.inl ⟨?_, he.trans (publishPending_ne hk)⟩
        intro w hw
        rcases List.mem_cons.mp hw with rfl | hw
        · exact hk
        · exact hnone w hw
    · exact Or.inr ⟨u :: as, w, bs, rfl, hrest⟩

variable {R : Nat → Nat → Prop}

/-- The pending values are of the past. -/
theorem Shown.lt_next (h : Shown R s) (ht : Together s) (k : PendingKey) :
    ∀ v ∈ s.pending k, v.commitSequence < s.nextCommitSequence := by
  intro v hv
  obtain ⟨x, hx, -, rfl⟩ := h.known k v hv
  exact ht.past x hx

theorem makePendingKey_stamp (c : Nat) (u : BufferedPropertyUpdate) :
    makePendingKey (stamp c u) = makePendingKey u := rfl

theorem shown_append [Std.Refl R] [IsTrans Nat R] {i : Nat} {batch : List BufferedPropertyUpdate}
    (hmay : Replaces R s.pending batch) (ht : Together s) (h : Shown R s) :
    Shown R (s.append o i batch) := by
  obtain ⟨hmay, hpairwise⟩ := hmay
  have hspec := foldl_publishPending (c := s.nextCommitSequence) (p := s.pending)
    (fun u (hu : u ∈ batch.map (stamp s.nextCommitSequence)) => commit_of_mem_stamped hu)
    fun k v hv => Nat.le_of_lt (h.lt_next ht k v hv)
  have hnew : ∀ k, ∀ x ∈ (s.append o i batch).acknowledged, Delta.key x = k →
      x.2.commitSequence ≤ s.nextCommitSequence := by
    intro k x hx _
    rcases List.mem_append.mp hx with hx | hx
    · exact Nat.le_of_lt (ht.past x hx)
    · obtain ⟨u, hu, rfl⟩ := List.mem_map.mp hx
      exact Nat.le_of_eq (commit_of_mem_stamped hu)
  refine ⟨fun k v hv => ?_, fun k v hv x hx hxk => ?_, fun x hx => ?_⟩
  · rcases hspec k with ⟨-, he⟩ | ⟨as, u, bs, hus, hk, -, he⟩
    · rw [show (s.append o i batch).pending k = _ from he] at hv
      obtain ⟨x, hx, hxk⟩ := h.known k v hv
      exact ⟨x, List.mem_append_left _ hx, hxk⟩
    · rw [show (s.append o i batch).pending k = _ from he, Option.mem_some_iff] at hv
      have hu : u ∈ batch.map (stamp s.nextCommitSequence) := by rw [hus]; simp
      exact ⟨u.delta, List.mem_append_right _ (List.mem_map_of_mem hu), hk, hv⟩
  · rcases hspec k with ⟨hnone, he⟩ | ⟨as, u, bs, hus, hk, -, he⟩
    · rw [show (s.append o i batch).pending k = _ from he] at hv
      rcases List.mem_append.mp hx with hx | hx
      · exact h.newest k v hv x hx hxk
      · obtain ⟨u, hu, rfl⟩ := List.mem_map.mp hx
        exact absurd hxk (hnone u hu)
    · rw [show (s.append o i batch).pending k = _ from he, Option.mem_some_iff] at hv
      have hu : u ∈ batch.map (stamp s.nextCommitSequence) := by rw [hus]; simp
      have hle := hnew k x hx hxk
      rw [← commit_of_mem_stamped hu] at hle
      rw [← hv]
      exact hle
  · rcases hspec (Delta.key x) with ⟨hnone, he⟩ | ⟨as, u, bs, hus, hk, hbs, he⟩
    · rcases List.mem_append.mp hx with hx | hx
      · rcases h.shown x hx with ⟨v, hv, hR⟩ | hpassed
        · refine Or.inl ⟨v, ?_, hR⟩
          rw [show (s.append o i batch).pending _ = _ from he]
          exact hv
        · exact Or.inr hpassed
      · obtain ⟨u, hu, rfl⟩ := List.mem_map.mp hx
        exact absurd rfl (hnone u hu)
    · have hshow : R x.2.baseSequence u.record.baseSequence →
          ∃ v ∈ (s.append o i batch).pending (Delta.key x), R x.2.baseSequence v.baseSequence :=
        fun hR => ⟨_, by rw [show (s.append o i batch).pending _ = _ from he]; rfl, hR⟩
      rcases List.mem_append.mp hx with hx | hx
      · rcases h.shown x hx with ⟨v, hv, hR⟩ | hpassed
        · have hu : u ∈ batch.map (stamp s.nextCommitSequence) := by rw [hus]; simp
          obtain ⟨u₀, hu₀, rfl⟩ := List.mem_map.mp hu
          have hv' : v ∈ s.pending (makePendingKey u₀) := by
            rw [← makePendingKey_stamp s.nextCommitSequence, hk]
            exact hv
          exact Or.inl (hshow (IsTrans.trans _ _ _ hR (hmay u₀ hu₀ v hv')))
        · exact Or.inr hpassed
      · -- An update of the batch: the last one of its key stands for it.
        obtain ⟨w, hw, rfl⟩ := List.mem_map.mp hx
        refine Or.inl (hshow ?_)
        have hpairs : (batch.map (stamp s.nextCommitSequence)).Pairwise fun a b =>
            makePendingKey a = makePendingKey b →
              R a.record.baseSequence b.record.baseSequence :=
          List.pairwise_map.mpr hpairwise
        rw [hus] at hw hpairs
        rcases List.mem_append.mp hw with hwas | hwbs
        · exact (List.pairwise_append.mp hpairs).2.2 w hwas u List.mem_cons_self hk.symm
        · rcases List.mem_cons.mp hwbs with rfl | hwbs
          · exact Std.Refl.refl _
          · exact absurd rfl (hbs w hwbs)

theorem retirePending_cases (p : Pending) (u : BufferedPropertyUpdate) (k : PendingKey) :
    retirePending p u k = p k ∨
      retirePending p u k = none ∧ ∃ v, p k = some v ∧
        v.commitSequence = u.record.commitSequence := by
  cases hv : p (makePendingKey u) with
  | none => exact Or.inl (by simp [retirePending, hv])
  | some v =>
    by_cases hcommit : v.commitSequence = u.record.commitSequence
    · have he : retirePending p u = Function.update p (makePendingKey u) none := by
        simp [retirePending, hv, hcommit]
      rw [he]
      by_cases hk : k = makePendingKey u
      · subst hk
        exact Or.inr ⟨Function.update_self _ _ _, v, hv, hcommit⟩
      · exact Or.inl (Function.update_of_ne hk _ _)
    · exact Or.inl (by simp [retirePending, hv, hcommit])

theorem foldl_publishPending_ne {k : PendingKey} {us : List BufferedPropertyUpdate}
    (h : ∀ u ∈ us, makePendingKey u ≠ k) (p : Pending) : us.foldl publishPending p k = p k := by
  induction us generalizing p with
  | nil => rfl
  | cons u us ih =>
    rw [List.foldl_cons, ih (fun v hv => h v (List.mem_cons_of_mem _ hv))]
    exact publishPending_ne (h u List.mem_cons_self)

/-- A batch changes the pending values of its own keys. -/
theorem pending_sections (o : PropertyUpdateOptions) (k : PendingKey) (v : Option PendingValue) :
    KeptBySections o (fun _ batch => ∀ u ∈ batch, makePendingKey u ≠ k)
      (fun s => s.pending k = v) where
  waiting _ _ _ _ _ h := h
  takeFree {s} h := by
    rw [pending_takeFree]
    exact h
  push _ h := h
  append {s i batch} _ hmay h := by
    rw [← h]
    refine foldl_publishPending_ne (fun u hu => ?_) s.pending
    obtain ⟨w, hw, rfl⟩ := List.mem_map.mp hu
    exact hmay w hw

/-- The worker changes the pending values when it retires an update. -/
theorem pending_worker {a : Action} (ha : ¬ a.OfCaller) (hretire : a ≠ .retire)
    (hs : step o s a = some s') : s'.pending = s.pending := by
  cases workerStep_of_step ha hs with
  | called | retire => exact absurd rfl hretire
  | _ => rfl

/-- Either all pending values stay, or those of one commit that was handed over go. -/
theorem pending_retire (h : Together s) (hs : step o s .retire = some s') (k : PendingKey) :
    s'.pending k = s.pending k ∨ s'.pending k = none ∧ ∃ v, s.pending k = some v ∧
      ∀ x ∈ s.acknowledged, x.2.commitSequence = v.commitSequence → x ∈ s.passed := by
  cases workerStep_of_step id hs with
  | called => exact Or.inl rfl
  | @retire i u us hw =>
    refine (retirePending_cases s.pending u k).imp id fun ⟨hnone, v, hv, hcommit⟩ =>
      ⟨hnone, v, hv, ?_⟩
    rw [hcommit]
    exact (h.retiring i (u :: us) hw u List.mem_cons_self).2

/-- Only the value of the same commit is erased, and that update was handed over. -/
theorem shown_retirePending {u : BufferedPropertyUpdate} {w : Worker} (h : Shown R s)
    (hpassed : ∀ x ∈ s.acknowledged, x.2.commitSequence = u.record.commitSequence →
      x ∈ s.passed) :
    Shown R { s with worker := w, pending := retirePending s.pending u } := by
  have hold : ∀ {k : PendingKey} {v : PendingValue},
      v ∈ retirePending s.pending u k → v ∈ s.pending k := by
    intro k v hv
    rcases retirePending_cases s.pending u k with he | ⟨he, -⟩
    · rwa [he] at hv
    · rw [he] at hv
      cases hv
  refine ⟨fun k v hv => h.known k v (hold hv), fun k v hv => h.newest k v (hold hv), ?_⟩
  intro x hx
  rcases h.shown x hx with ⟨v, hv, hR⟩ | hshown
  · rcases retirePending_cases s.pending u (Delta.key x) with he | ⟨-, v', hv', hcommit⟩
    · exact Or.inl ⟨v, he.trans hv, hR⟩
    · -- The update of the erased value stands for `x` from now on.
      have hsame : v' = v := Option.some.inj (hv'.symm.trans hv)
      subst hsame
      obtain ⟨y, hy, hyk, rfl⟩ := h.known _ v' hv
      exact Or.inr ⟨y, hpassed y hy hcommit, hyk, h.newest _ _ hv x hx rfl, hR⟩
  · exact Or.inr hshown

/-- More is handed over, and the rest stays. -/
theorem Shown.of_same (h : Shown R s) (hpending : s'.pending = s.pending)
    (hack : s'.acknowledged = s.acknowledged) (hpassed : ∀ x ∈ s.passed, x ∈ s'.passed) :
    Shown R s' where
  known := by
    rw [hpending, hack]
    exact h.known
  newest := by
    rw [hpending, hack]
    exact h.newest
  shown x hx := by
    rw [hack] at hx
    rw [hpending]
    exact (h.shown x hx).imp id fun ⟨y, hy, hyx⟩ => ⟨y, hpassed y hy, hyx⟩

/-- Both, along a run. -/
structure HandedOver (R : Nat → Nat → Prop) (s : State) : Prop where
  together : Together s
  shown : Shown R s

theorem handedOver_sections (o : PropertyUpdateOptions) [Std.Refl R] [IsTrans Nat R] :
    KeptBySections o (Replaces R) (HandedOver R) where
  waiting _ _ _ _ _ h :=
    ⟨(together_sections o).waiting _ _ _ _ (fun _ _ => Or.inr trivial) h.together,
      h.shown.of_same rfl rfl fun _ hx => hx⟩
  takeFree {s} h := by
    obtain ⟨-, hack, hpassed, -⟩ := takeFree_fields s
    exact ⟨(together_sections o).takeFree h.together,
      h.shown.of_same (pending_takeFree s) hack fun _ hx => hpassed.symm ▸ hx⟩
  push hi h := ⟨(together_sections o).push hi h.together, h.shown.of_same rfl rfl fun _ hx => hx⟩
  append hi hmay h :=
    ⟨(together_sections o).append hi trivial h.together, shown_append hmay h.together h.shown⟩

theorem HandedOver.shown_worker {a : Action} (h : HandedOver R s) (hs : WorkerStep s a s') :
    Shown R s' := by
  cases hs with
  | call => exact h.shown.of_same rfl rfl fun _ hx => List.mem_append_left _ hx
  | @retire i u us hw =>
    exact shown_retirePending h.shown (h.together.retiring i (u :: us) hw u List.mem_cons_self).2
  | _ => exact h.shown.of_same rfl rfl fun _ hx => hx

theorem handedOver_step [Std.Refl R] [IsTrans Nat R] {a : Action} (h : HandedOver R s)
    (hmay : MaySubmit (Replaces R) s a) (hs : step o s a = some s') : HandedOver R s' := by
  have hcaller : a.OfCaller → HandedOver R s' := fun hof =>
    (handedOver_sections o).of_caller hof hmay h hs
  have htogether := together_step h.together hs
  cases a with
  | submit | wakeSubmitter | startFlush | wakeFlusher => exact hcaller trivial
  | _ => exact ⟨htogether, h.shown_worker (workerStep_of_step id hs)⟩

theorem handedOver_initial (o : PropertyUpdateOptions) (c : Nat) :
    HandedOver R (initial o c) where
  together := together_initial o c
  shown :=
    { known := fun _ _ hv => by cases hv
      newest := fun _ _ hv => by cases hv
      shown := fun _ hx => (List.not_mem_nil hx).elim }

end RichGraph.PropertyUpdateManager
