import DistQueue.SingleNode.Compaction

/-!
# Acks are final

Once an `Ack` has returned, no `Dequeue` returns its task again, and it does not turn up in
the dead-letter queue, whatever happens to the broker and however often it crashes
(`DistQueue.SingleNode.acked_is_final`). While the broker runs this is because a task is in
one place; across a crash it is because the entry of the ack is durable when the call
returns, and no later entry can bring the task back.

It takes records that the reader accepts: behind one that is longer than its cap, the log is
cut off, and the acks in it are forgotten (`DistQueue.SingleNode.oversized_record_hides_ack`).
-/

namespace DistQueue

open Broker Wal

namespace SingleNode

variable {γ : Codec} {b b' : Broker} {h h' : History} {m : Move} {e : LogEntry}
  {es qs : List LogEntry} {rs : List Request} {t u : Task} {id : TaskID} {seq : ℕ}

/-! ### Tasks come from calls -/

/-- Someone has called `Enqueue` with such a task. -/
def History.Issued (h : History) (core : TaskID × List UInt8 × ℤ × Time) : Prop :=
  ∃ t, .issued (.enqueue t) ∈ h.trace ∧ t.core = core

theorem History.mem_enqueued :
    id ∈ h.enqueued ↔ ∃ t, .issued (.enqueue t) ∈ h.trace ∧ t.id = id := by
  rw [enqueued, List.mem_filterMap]
  constructor
  · rintro ⟨ev, hev, hid⟩
    match ev with
    | .issued (.enqueue t) => exact ⟨t, hev, Option.some.inj hid⟩
  · rintro ⟨t, ht, rfl⟩
    exact ⟨_, ht, rfl⟩

theorem History.Issued.mem_enqueued (hu : h.Issued u.core) : u.id ∈ h.enqueued := by
  obtain ⟨t, ht, hcore⟩ := hu
  exact History.mem_enqueued.mpr ⟨t, ht, Task.id_of_core hcore⟩

theorem History.Issued.mono {core : TaskID × List UInt8 × ℤ × Time} (hu : h.Issued core)
    (htrace : h.trace ⊆ h'.trace) : h'.Issued core := by
  obtain ⟨t, ht, hcore⟩ := hu
  exact ⟨t, htrace ht, hcore⟩

/-- All tasks, in memory and in the log, have been given to the broker by a call. -/
structure Genuine (h : History) (es : List LogEntry) : Prop where
  memory : ∀ u ∈ h.broker.live ++ h.broker.dlq, h.Issued u.core
  log : ∀ u, .enqueue u ∈ es → h.Issued u.core
  gathered : ∀ c qs, h.broker.holder = some ⟨c, some qs⟩ → ∀ u, .enqueue u ∈ qs → h.Issued u.core

theorem genuine_start (cfg : Config) : Genuine (History.start cfg) [] :=
  ⟨fun u hu => (by cases hu), fun u hu => (by cases hu), fun c qs hc => (by cases hc)⟩

/-- What a record changes in memory was there, or was brought by it. -/
theorem Change.core (h : Change b b' e) (hu : u ∈ b'.live ++ b'.dlq) :
    (∃ v ∈ b.live ++ b.dlq, v.core = u.core) ∨ ∃ t, e = .enqueue t ∧ t.core = u.core := by
  obtain hu | hu := List.mem_append.mp hu
  · cases h with
    | enqueue t hlive hdlq =>
      obtain rfl | hu := List.mem_cons.mp (hlive.mem_iff.mp hu)
      · exact Or.inr ⟨t, rfl, rfl⟩
      · exact Or.inl ⟨u, List.mem_append_left _ hu, rfl⟩
    | ack t hlive hdlq =>
      exact Or.inl ⟨u, List.mem_append_left _ (hlive.mem_iff.mpr (List.mem_cons_of_mem _ hu)), rfl⟩
    | nack t rest hlive hlive' hdlq =>
      obtain rfl | hu := List.mem_cons.mp (hlive'.mem_iff.mp hu)
      · exact Or.inl ⟨t, List.mem_append_left _ (hlive.mem_iff.mpr List.mem_cons_self), rfl⟩
      · exact Or.inl
          ⟨u, List.mem_append_left _ (hlive.mem_iff.mpr (List.mem_cons_of_mem _ hu)), rfl⟩
    | dead t v hlive hdlq hv =>
      exact Or.inl ⟨u, List.mem_append_left _ (hlive.mem_iff.mpr (List.mem_cons_of_mem _ hu)), rfl⟩
  · cases h with
    | enqueue t hlive hdlq => exact Or.inl ⟨u, List.mem_append_right _ (hdlq ▸ hu), rfl⟩
    | ack t hlive hdlq => exact Or.inl ⟨u, List.mem_append_right _ (hdlq ▸ hu), rfl⟩
    | nack t rest hlive hlive' hdlq =>
      exact Or.inl ⟨u, List.mem_append_right _ (hdlq ▸ hu), rfl⟩
    | dead t v hlive hdlq hv =>
      rw [hdlq, List.mem_append, List.mem_singleton] at hu
      obtain hu | rfl := hu
      · exact Or.inl ⟨u, List.mem_append_right _ hu, rfl⟩
      · have hcore : u.recovered.core = t.retried.core := congrArg Task.core hv
        exact Or.inl
          ⟨t, List.mem_append_left _ (hlive.mem_iff.mpr List.mem_cons_self), hcore.symm⟩

/-- The entries that compaction writes are of tasks in memory. -/
theorem mem_compactEntries {inFlight : List Task} (hperm : inFlight.Perm b.tracker.vals)
    (h : .enqueue u ∈ b.compactEntries inFlight) : ∃ v ∈ b.live ++ b.dlq, v.core = u.core := by
  rw [compactEntries_eq] at h
  obtain h | h := List.mem_append.mp h
  · obtain ⟨v, hv, heq⟩ := List.mem_map.mp h
    have hmem : v ∈ b.tasks :=
      List.mem_append_left _ ((hperm.append_left b.pq).mem_iff.mp hv)
    have hcore : v.core = u.core := Task.core_of_written (LogEntry.written_of_enqueue heq)
    exact ⟨v.recovered, List.mem_append_left _ (List.mem_map.mpr ⟨v, hmem, rfl⟩), hcore⟩
  · obtain ⟨v, hv, heq⟩ := List.mem_flatMap.mp h
    obtain heq | hdead := List.mem_cons.mp heq
    · exact ⟨v, List.mem_append_right _ hv,
        Task.core_of_written (LogEntry.written_of_enqueue heq.symm)⟩
    · cases List.mem_singleton.mp hdead

/-- What is recovered was in the log. -/
theorem Recovered.issued (hg : ∀ u, .enqueue u ∈ qs → h.Issued u.core)
    (hr : Recovered γ b qs) : ∀ u ∈ b.live ++ b.dlq, h.Issued u.core := by
  intro u hu
  rw [hr.live, hr.dlq] at hu
  have hfold : ∃ v ∈ (fold qs).live.vals ++ (fold qs).dlq, v.core = u.core := by
    obtain hu | hu := List.mem_append.mp hu
    · obtain ⟨v, hv, rfl⟩ := List.mem_map.mp hu
      exact ⟨v, List.mem_append_left _ (hr.pq.mem_iff.mp hv), rfl⟩
    · exact ⟨u, List.mem_append_right _ hu, rfl⟩
  obtain ⟨v, hv, hcore⟩ := hfold
  obtain ⟨t, ht, htv⟩ := core_fold hv
  rw [← hcore, ← htv]
  exact hg t ht

/-- **The runs in which no identifier is used twice.** -/
def Unique (γ : Codec) (h : History) (m : Move) : Prop :=
  m.Succeeds ∧ h.NoReuse m ∧ h.broker.Capped γ m

instance (γ : Codec) (h : History) (m : Move) : Decidable (Unique γ h m) :=
  inferInstanceAs (Decidable (m.Succeeds ∧ h.NoReuse m ∧ h.broker.Capped γ m))

/-- The identifiers in memory have been given by calls. -/
theorem Genuine.mem_enqueued (hg : Genuine h es) (hid : id ∈ h.broker.ids) : id ∈ h.enqueued := by
  rw [Broker.ids_eq, ← List.map_append] at hid
  obtain ⟨u, hu, rfl⟩ := List.mem_map.mp hid
  exact (hg.memory u hu).mem_enqueued

/-- In such a run no identifier is taken that is still there. -/
theorem Unique.regular (hu : Unique γ h m) (hg : Genuine h es) : Regular γ h m := by
  refine ⟨hu.1, ?_, hu.2.2⟩
  cases m with
  | enqueue t newID now fault => exact fun hid => hu.2.1 (hg.mem_enqueued hid)
  | _ => trivial

/-- **A step brings no task but that of its call.** -/
theorem Genuine.advance {es' : List LogEntry} (hg : Genuine h es) (hadv : Advance γ h es m h' es') :
    Genuine h' es' := by
  have hmono := hadv.trace_subset
  cases hadv with
  | stays evs hpromised hsynced hwrite hholder howed hkept hlive hdlq =>
    refine ⟨fun u hu => ?_, fun u hu => (hg.log u hu).mono hmono, fun c qs hc u hu => ?_⟩
    · rw [hdlq, (hlive.append_right _).mem_iff] at hu
      exact (hg.memory u hu).mono hmono
    · exact (hg.gathered c qs (hholder ▸ hc) u hu).mono hmono
  | append e rs hsource hfree hwal hholder howed hchange htrace =>
    -- the call that brings a new task has been recorded
    have hissued : ∀ t, e = .enqueue t → h'.Issued t.core := by
      rintro t rfl
      obtain ⟨u, rfl, hu⟩ := hsource.asked
      exact ⟨u, htrace ▸ List.mem_append_right _ (List.mem_singleton.mpr rfl),
        Task.core_of_written hu⟩
    refine ⟨fun u hu => ?_, fun u hu => ?_, fun c qs hc => absurd hc (not_gathered hholder c qs)⟩
    · obtain ⟨v, hv, hcore⟩ | ⟨t, ht, hcore⟩ := hchange.core hu
      · rw [← hcore]
        exact (hg.memory v hv).mono hmono
      · rw [← hcore]
        exact hissued t ht
    · obtain hu | hu := List.mem_append.mp hu
      · exact (hg.log u hu).mono hmono
      · exact hissued u (List.mem_singleton.mp hu).symm
  | gathered c inFlight hm hperm hh =>
    subst hh
    refine ⟨hg.memory, hg.log, ?_⟩
    rintro c' qs ⟨⟩ u hu
    obtain ⟨v, hv, hcore⟩ := mem_compactEntries hperm hu
    rw [← hcore]
    exact hg.memory v hv
  | rewritten c qs hholder hpromised hsynced hwrite hfree howed hlive hdlq =>
    refine ⟨fun u hu => ?_, fun u hu => (hg.gathered c es' hholder u hu).mono hmono, ?_⟩
    · rw [hlive, hdlq] at hu
      exact (hg.memory u hu).mono hmono
    · rw [hfree]
      rintro c qs ⟨⟩

/-- **Nor does a crash.** -/
theorem Genuine.crash (hg : Genuine h es) (hcrash : Crashes γ h es h' qs) :
    Genuine h' (h'.broker.compactEntries []) := by
  have hr := hcrash.recovered
  have hmem : ∀ u ∈ h'.broker.live ++ h'.broker.dlq, h'.Issued u.core :=
    hr.issued fun u hu => (hg.log u (hcrash.left.subset hu)).mono hcrash.trace_subset
  refine ⟨hmem, fun u hu => ?_, fun c qs hc => ?_⟩
  · obtain ⟨v, hv, hcore⟩ := mem_compactEntries hr.inFlight hu
    rw [← hcore]
    exact hmem v hv
  · rw [hr.holder] at hc
    cases hc

/-! ### What is gone stays gone -/

/-- The entries do not bring the identifier back. -/
def Gone (id : TaskID) (es : List LogEntry) : Prop := id ∉ (fold es).ids

/-- What is gone stays so, unless it is enqueued again. -/
theorem Gone.concat (h : Gone id es) (he : ∀ t, e = .enqueue t → t.id ≠ id) :
    Gone id (es ++ [e]) := by
  intro hid
  rw [fold_concat] at hid
  obtain hid | ⟨t, ht, rfl⟩ := Contents.mem_ids_apply hid
  · exact h hid
  · exact he t ht rfl

/-- Compaction does not bring back what is not in memory. -/
theorem gone_compactEntries {inFlight : List Task} (hperm : inFlight.Perm b.tracker.vals)
    (hid : id ∉ b.ids) : Gone id (b.compactEntries inFlight) := by
  intro hmem
  obtain ⟨u, hu, rfl⟩ := enqueued_of_mem_ids hmem
  obtain ⟨v, hv, hcore⟩ := mem_compactEntries hperm hu
  refine hid ?_
  rw [Broker.ids_eq, ← List.map_append, ← Task.id_of_core hcore]
  exact List.mem_map.mpr ⟨v, hv, rfl⟩

/-- **The identifier is gone**: from memory, from what compaction has gathered, and, once the
record `seq` has been synced, from what a crash will leave. It has been used, so that it will
not be used again. -/
structure Settled (γ : Codec) (h : History) (es : List LogEntry) (seq : ℕ) (id : TaskID) :
    Prop where
  used : id ∈ h.enqueued
  memory : id ∉ h.broker.ids
  gathered : ∀ c qs, h.broker.holder = some ⟨c, some qs⟩ → Gone id qs
  log : Promised γ h.broker.wal es seq (Gone id)

theorem enqueued_mono (htrace : h.trace ⊆ h'.trace) (hid : id ∈ h.enqueued) :
    id ∈ h'.enqueued := by
  obtain ⟨t, ht, rfl⟩ := History.mem_enqueued.mp hid
  exact History.mem_enqueued.mpr ⟨t, htrace ht, rfl⟩

/-- An identifier that has been used is not enqueued. -/
theorem Unique.ne_of_used (hu : Unique γ h m) (hid : id ∈ h.enqueued)
    (hsource : Source h.broker m e rs) : ∀ t, e = .enqueue t → t.id ≠ id := by
  rintro t rfl rfl
  obtain ⟨u, newID, now, fault, rfl, -, hwritten⟩ := hsource.enqueues
  rw [← Task.id_of_core (Task.core_of_written hwritten)] at hid
  exact hu.2.1 hid

/-- **An identifier that is gone stays so**, since it is not used again. -/
theorem Settled.advance {es' : List LogEntry} (hs : Settled γ h es seq id) (hu : Unique γ h m)
    (hadv : Advance γ h es m h' es') : Settled γ h' es' seq id := by
  have happend : ∀ e rs, Appends γ h m h' e rs → id ∉ h'.broker.ids ∧ Gone id (es ++ [e]) := by
    intro e rs ha
    have hne := hu.ne_of_used hs.used ha.source
    refine ⟨fun hid => ?_, hs.log.now.concat hne⟩
    obtain ⟨t, ht, hids⟩ | ⟨id', -, hids⟩ | hids := ha.change.ids
    · obtain heq | hid := List.mem_cons.mp (hids.mem_iff.mp hid)
      · exact hne t ht heq.symm
      · exact hs.memory hid
    · exact hs.memory (hids.mem_iff.mpr (List.mem_cons_of_mem _ hid))
    · exact hs.memory (hids.mem_iff.mp hid)
  obtain ⟨hmemory, hgathered, hlog⟩ := hadv.shared (P := (id ∉ ·)) (fun hp => mt hp.mem_iff.mpr)
    hs.memory hs.gathered hs.log happend fun _ _ hperm => gone_compactEntries hperm hs.memory
  exact ⟨enqueued_mono hadv.trace_subset hs.used, hmemory, hgathered, hlog⟩

/-- **The promise is kept across a crash**, once the record has been synced. -/
theorem Settled.crash (hs : Settled γ h es seq id) (hseq : seq ≤ h.broker.wal.syncedSeq)
    (hcrash : Crashes γ h es h' qs) : Settled γ h' (h'.broker.compactEntries []) 0 id := by
  have hr := hcrash.recovered
  have hgone : id ∉ h'.broker.ids := by
    rw [hr.ids.mem_iff]
    exact hcrash.lasts _ (hs.log.synced hseq)
  refine ⟨enqueued_mono hcrash.trace_subset hs.used, hgone, fun c qs hc => ?_,
    hr.promised (gone_compactEntries hr.inFlight hgone)⟩
  rw [hr.holder] at hc
  cases hc

/-- An ack takes its identifier out of memory. -/
theorem Change.ids_of_ack (h : Change b b' (.ack id)) : b.ids.Perm (id :: b'.ids) := by
  cases h with
  | ack t hlive hdlq =>
    rw [Broker.ids_eq, Broker.ids_eq, hdlq]
    exact (hlive.map Task.id).append_right _

/-- An ack is recorded: its task is nowhere, and the log says so. -/
theorem Base.settled_ack (hb : Base γ h.broker es) (hb' : Base γ h'.broker (es ++ [.ack id]))
    (hg : Genuine h es) (ha : Appends γ h m h' (.ack id) rs) :
    Settled γ h' (es ++ [.ack id]) (h.broker.wal.writeSeq + 1) id := by
  have hids := ha.change.ids_of_ack
  have hmem : id ∈ h.broker.ids := hids.mem_iff.mpr List.mem_cons_self
  have hout : id ∉ h'.broker.ids := (List.nodup_cons.mp (hids.nodup_iff.mp hb.apart)).1
  have htrace : h.trace ⊆ h'.trace := by
    rw [ha.trace]
    exact List.subset_append_left _ _
  refine ⟨enqueued_mono htrace (hg.mem_enqueued hmem), hout,
    fun c qs hc => absurd hc (ha.holder c qs), ?_⟩
  rw [ha.wal]
  refine hb.sound.promise fun hfold => ?_
  obtain hlive | hdead := List.mem_append.mp hfold
  · rw [fold_concat, Contents.apply_ack] at hlive
    exact Table.not_mem_keys_erase _ id hlive
  · exact hout (List.mem_append_right _ (hb'.readable.dlq id hdead))

/-! ### The run -/

/-- The calls that are to be told that a task is gone, and those that have been. -/
structure Final (γ : Codec) (h : History) (es : List LogEntry) : Prop where
  owed : ∀ c ∈ h.broker.owed, ∀ id, c.request = .ack id → Settled γ h es c.seq id
  returned : ∀ id, .returned (.ack id) ∈ h.trace →
    ∃ seq ≤ h.broker.wal.syncedSeq, Settled γ h es seq id
  later : h.trace.Pairwise fun x y =>
    ∀ id t, x = .returned (.ack id) → y = .delivered t → t.id ≠ id

/-- A move that appends no record. -/
theorem Final.answers {es' : List LogEntry} {evs : List Event} (hf : Final γ h es)
    (hu : Unique γ h m) (hadv : Advance γ h es m h' es') (ha : Answers h h' evs) :
    Final γ h' es' := by
  have hnew : ∀ id, .returned (.ack id) ∈ h'.trace →
      ∃ seq ≤ h.broker.wal.syncedSeq, Settled γ h es seq id := by
    intro id hid
    obtain hid | ⟨c, hc, hreq, hseq⟩ := ha.returned hid
    · exact hf.returned id hid
    · exact ⟨c.seq, hseq, hf.owed c hc id hreq⟩
  refine ⟨fun c hc id hid => (hf.owed c (ha.owed c hc) id hid).advance hu hadv,
    fun id hid => ?_, ?_⟩
  · obtain ⟨seq, hseq, hset⟩ := hnew id hid
    exact ⟨seq, le_trans hseq ha.synced, hset.advance hu hadv⟩
  · -- a task that is delivered is in memory, and a task that was acked is not
    have hdeliver : ∀ x ∈ h.trace ++ evs, ∀ y ∈ evs, ∀ id t, x = .returned (.ack id) →
        y = .delivered t → t.id ≠ id := by
      rintro x hx y hy id t rfl rfl rfl
      obtain ⟨seq, -, hset⟩ := hnew t.id (ha.trace ▸ hx)
      obtain hidle | ⟨c, -, heq, -⟩ := ha.events _ hy
      · cases hidle with
        | delivered t ht =>
          refine hset.memory ?_
          rw [Broker.ids_eq]
          exact List.mem_append_left _ (List.mem_map.mpr ⟨_, ht, rfl⟩)
      · cases heq
    rw [ha.trace]
    refine List.pairwise_append.mpr ⟨hf.later, ?_, fun x hx y hy => ?_⟩
    · exact List.pairwise_of_forall_mem_list fun x hx y hy =>
        hdeliver x (List.mem_append_right _ hx) y hy
    · exact hdeliver x (List.mem_append_left _ hx) y hy

/-- Calls that are made are neither answers nor deliveries. -/
theorem Final.later_appends (hf : Final γ h es) (ha : Appends γ h m h' e rs) :
    h'.trace.Pairwise fun x y =>
      ∀ id t, x = .returned (.ack id) → y = .delivered t → t.id ≠ id := by
  have hissued : ∀ x : Event, ∀ y ∈ rs.map Event.issued, ∀ id t, x = .returned (.ack id) →
      y = .delivered t → t.id ≠ id := by
    intro x y hy id t hx hdel
    obtain ⟨r, -, rfl⟩ := List.mem_map.mp hy
    cases hdel
  rw [ha.trace]
  refine List.pairwise_append.mpr ⟨hf.later, ?_, fun x _ y hy => hissued x y hy⟩
  exact List.pairwise_of_forall_mem_list fun x _ y hy => hissued x y hy

/-- The step of a run without crashes. -/
theorem Final.advance {es' : List LogEntry} (hf : Final γ h es) (hb : Base γ h.broker es)
    (hb' : Base γ h'.broker es') (hg : Genuine h es) (hu : Unique γ h m)
    (hadv : Advance γ h es m h' es') : Final γ h' es' := by
  obtain ⟨evs, ha⟩ | ⟨e, rs, rfl, ha⟩ := hadv.calls
  · exact hf.answers hu hadv ha
  · refine ⟨fun c hc id hid => ?_, fun id hid => ?_, hf.later_appends ha⟩
    · rw [ha.owed] at hc
      obtain hc | hc := List.mem_append.mp hc
      · exact (hf.owed c hc id hid).advance hu hadv
      · obtain ⟨r, hr, rfl⟩ := List.mem_map.mp hc
        obtain rfl : e = .ack id := ha.source.eq_ack (hid ▸ hr)
        exact hb.settled_ack hb' hg ha
    · obtain ⟨seq, hseq, hset⟩ := hf.returned id (ha.returned hid)
      exact ⟨seq, ha.syncedSeq ▸ hseq, hset.advance hu hadv⟩

/-- The step of a crash. -/
theorem Final.crash (hf : Final γ h es) (hcrash : Crashes γ h es h' qs) :
    Final γ h' (h'.broker.compactEntries []) := by
  refine ⟨fun c hc => ?_, fun id hid => ?_, ?_⟩
  · rw [hcrash.recovered.owed] at hc
    cases hc
  · rw [hcrash.trace] at hid
    obtain ⟨seq, hseq, hset⟩ := hf.returned id hid
    exact ⟨0, Nat.zero_le _, hset.crash hseq hcrash⟩
  · rw [hcrash.trace]
    exact hf.later

/-- **Acks are final.** In every run in which no identifier is used twice, no `Dequeue`
returns a task after its `Ack` has returned, and the task is not in the dead-letter queue. -/
theorem acked_is_final {cfg : Config} {ms : List Move}
    (hG : Run.Guarded (step γ) (Unique γ) (History.start cfg) ms)
    (hrun : Run.exec (step γ) (History.start cfg) ms = some h) :
    (h.trace.Pairwise fun x y =>
        ∀ id t, x = .returned (.ack id) → y = .delivered t → t.id ≠ id) ∧
      ∀ id, .returned (.ack id) ∈ h.trace → id ∉ h.broker.dlq.map Task.id := by
  have hstart : Final γ (History.start cfg) [] :=
    ⟨fun c hc => (by cases hc), fun id hid => (by cases hid), List.Pairwise.nil⟩
  have hinv : ∃ es, Base γ h.broker es ∧ Genuine h es ∧ Final γ h es := by
    refine Run.invariant_of_guarded (P := fun h => ∃ es, Base γ h.broker es ∧ Genuine h es ∧
      Final γ h es) ⟨[], base_start γ cfg, genuine_start cfg, hstart⟩ ?_ hG hrun
    rintro u m u' ⟨es, hb, hg, hf⟩ hu hs
    obtain ⟨es', hb', hadv | ⟨qs, hcrash, rfl, -⟩⟩ := hb.advance (hu.regular hg) hs
    · exact ⟨es', hb', hg.advance hadv, hf.advance hb hb' hg hu hadv⟩
    · exact ⟨_, hb', hg.crash hcrash, hf.crash hcrash⟩
  obtain ⟨es, -, -, hf⟩ := hinv
  refine ⟨hf.later, fun id hid hmem => ?_⟩
  obtain ⟨seq, -, hset⟩ := hf.returned id hid
  exact hset.memory (List.mem_append_right _ hmem)

/-- One of two tasks is acked, and the broker crashes. -/
def ackedThenCrash : List Move :=
  [.enqueue taskA "" 1 none] ++ synced ++ [.enqueue (Task.named "b") "" 2 none] ++ synced ++
    [.dequeue 3, .ack "a" none] ++ synced ++
    [.crash 67 [{ Task.named "b" with createdAt := 2 }] ⟨5, 30, 0⟩, .dequeue 9]

/-- The theorem at a run with a crash after the `Ack`. -/
theorem acked_is_final_crash :
    ∃ h, Run.exec (step plainCodec) (History.start ⟨5, 30, 0⟩) ackedThenCrash = some h ∧
      .returned (.ack "a") ∈ h.trace ∧ "a" ∉ h.broker.dlq.map Task.id ∧
      h.trace.Pairwise fun x y =>
        ∀ id t, x = .returned (.ack id) → y = .delivered t → t.id ≠ id := by
  have hend : (Run.exec (step plainCodec) (History.start ⟨5, 30, 0⟩) ackedThenCrash).map
      (fun h => decide (.returned (.ack "a") ∈ h.trace)) = some true := by
    decide +kernel
  obtain ⟨h, hrun, hret⟩ := Option.map_eq_some_iff.mp hend
  have hret := of_decide_eq_true hret
  have hG : Run.Guarded (step plainCodec) (Unique plainCodec) (History.start ⟨5, 30, 0⟩)
      ackedThenCrash := by
    decide +kernel
  obtain ⟨hlater, hdlq⟩ := acked_is_final hG hrun
  exact ⟨h, hrun, hret, hdlq "a" hret, hlater⟩

/-! ### A record beyond the cap -/

/-- A task that comes second. -/
def bigTask (payload : List UInt8) : Task := { Task.named "b" with payload, priority := 1 }

/-- The task as the first `Enqueue` files it. -/
def firstA : Task := Broker.prepare taskA "" 1

/-- Two tasks are enqueued, the first one is delivered and acked, and all three calls return
when the file has been synced. -/
def hiddenAck (payload : List UInt8) : List Move :=
  [.enqueue taskA "" 1 none, .enqueue (bigTask payload) "" 2 none, .dequeue 3, .ack "a" none, .lead,
    .capture, .fsync true, .returns 0, .returns 0, .returns 0]

theorem hiddenAck_run (γ : Codec) (payload : List UInt8) :
    Run.Guarded (step γ) (fun h m => m.Succeeds ∧ h.NoReuse m) (History.start ⟨5, 30, 0⟩)
        (hiddenAck payload) ∧
      ∃ h, Run.exec (step γ) (History.start ⟨5, 30, 0⟩) (hiddenAck payload) = some h ∧
        (∃ rest, h.broker.wal.file = Frames.bytes (records γ [.enqueue firstA]) ++
          (encodeEntry γ (.enqueue (Broker.prepare (bigTask payload) "" 2)) ++ rest)) ∧
        h.broker.wal.durable ≤ h.broker.wal.file.length ∧ .returned (.ack "a") ∈ h.trace := by
  simp [hiddenAck, Run.Guarded, Run.exec_cons, step, Move.Succeeds, History.NoReuse,
    History.enqueued, History.start, History.locked, History.silent, Broker.enqueue, Broker.dequeue,
    Broker.ack, Broker.maybeCompactLocked, Broker.release, Broker.awaited, Broker.prepare,
    WAL.append, WAL.appendNoSync, WAL.waitSync, WAL.lead, WAL.capture, WAL.fsynced, openWAL,
    Heap.push, Heap.pop,
    Heap.up, Heap.down, Heap.swap, Heap.lessAt, Heap.child, Task.less, Table.empty, Table.find,
    Table.put, Table.erase, Table.filter, taskA, bigTask, firstA, Task.named, Frames.bytes, records,
    encodeEntry]

/-- A crash leaves a log in which there is nothing but the first task. -/
theorem redelivers {c : ℕ} (hc : h.broker.wal.durable ≤ c) (hc' : c ≤ h.broker.wal.file.length)
    (hread : (replay γ (h.broker.wal.file.take c)).1 = [.enqueue firstA]) :
    ∃ h' t, Run.exec (step γ) h [.crash c [firstA.recovered] ⟨5, 30, 0⟩, .dequeue 9] = some h' ∧
      h'.trace = h.trace ++ [.delivered t] ∧ t.id = "a" := by
  have hlive : (fold [.enqueue firstA]).live.vals = [firstA.recovered] := rfl
  have hdlq : (fold [.enqueue firstA]).dlq = [] := rfl
  simp [Run.exec_cons, step, recover, hread, hc, hc', hlive, hdlq, WAL.reopen, WAL.rewrite, openWAL,
    History.silent, History.locked, Broker.dequeue, Heap.push, Heap.pop, Heap.up, Heap.down,
    Heap.swap]
  rfl

theorem length_bigTask :
    (LogEntry.payload plainCodec (.enqueue
      (Broker.prepare (bigTask (List.replicate maxPayload 0)) "" 2))).length =
        maxPayload + maxPayload / 255 + 13 := by
  rw [LogEntry.enqueue, LogEntry.payload, length_encodeTask_zeros rfl]
  have hid : (encodeNats (codesOf
      (Broker.prepare (bigTask (List.replicate maxPayload 0)) "" 2).written.val.id)).length =
        2 := by
    rfl
  have hnumbers : (encodeNats (numbersOf
      (Broker.prepare (bigTask (List.replicate maxPayload 0)) "" 2).written.val)).length =
        10 := by
    rfl
  omega

/-- **Behind a record that is too long an ack is forgotten.** All input and output succeeds
and no identifier is reused; the second task has a payload of 64 MiB. The first one is
delivered again after its ack has returned. -/
theorem oversized_record_hides_ack :
    ∃ ms h, Run.Guarded (step plainCodec) (fun h m => m.Succeeds ∧ h.NoReuse m)
        (History.start ⟨5, 30, 0⟩) ms ∧
      Run.exec (step plainCodec) (History.start ⟨5, 30, 0⟩) ms = some h ∧
      ¬h.trace.Pairwise fun x y =>
        ∀ id t, x = .returned (.ack id) → y = .delivered t → t.id ≠ id := by
  obtain ⟨hG, h, hrun, ⟨rest, hfile⟩, hdur, hret⟩ :=
    hiddenAck_run plainCodec (List.replicate maxPayload 0)
  have hfits : Frames.Written (readRecord plainCodec) (records plainCodec [.enqueue firstA]) := by
    intro p hp
    rw [List.mem_singleton.mp hp]
    exact isRecord_of_fits (by decide)
  have hread : (replay plainCodec (h.broker.wal.file.take h.broker.wal.file.length)).1 =
      [.enqueue firstA] := by
    rw [List.take_length, hfile, replay_oversized ?_ ?_ hfits, entries_records] <;>
      rw [length_bigTask] <;> decide
  obtain ⟨h', t, hrun', htrace, hid⟩ := redelivers hdur le_rfl hread
  refine ⟨hiddenAck _ ++
      [.crash h.broker.wal.file.length [firstA.recovered] ⟨5, 30, 0⟩, .dequeue 9], h',
    hG.append hrun (Run.guarded_of_forall fun m hm s => ?_), ?_, fun hpair => ?_⟩
  · rw [List.mem_cons, List.mem_singleton] at hm
    obtain rfl | rfl := hm <;> exact ⟨trivial, trivial⟩
  · rw [Run.exec_append, hrun, Option.bind_some, hrun']
  · rw [htrace] at hpair
    have hcross := (List.pairwise_append.mp hpair).2.2
    exact hcross _ hret _ (List.mem_singleton.mpr rfl) "a" t rfl rfl hid

end SingleNode

end DistQueue
