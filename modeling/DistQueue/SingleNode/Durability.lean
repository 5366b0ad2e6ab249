import DistQueue.SingleNode.Finality

/-!
# What is enqueued survives

A crash gives back every task whose `Enqueue` has returned, pending or dead-lettered, unless
an `Ack` has been issued for it (`DistQueue.SingleNode.enqueued_survives`). The task's entry
is durable when the call returns, and no entry but an `OpAck` removes it from what recovery
makes of the log; compaction writes it again, since it is somewhere in memory.

Compaction must see where it is, though. The scanner takes the expired tasks from the
tracker without the broker's lock, and requeues them under it, one after the other. A
compaction between the two finds them neither in the heap nor in the tracker, and the new
log does not have them (`DistQueue.SingleNode.compaction_loses_expired`).
-/

namespace DistQueue

open Broker Wal

namespace SingleNode

variable {γ : Codec} {b b' : Broker} {h h' : History} {m : Move} {e : LogEntry}
  {es qs : List LogEntry} {rs : List Request} {t u : Task} {id : TaskID} {seq : ℕ}

/-! ### A task that is there -/

/-- **The task is there**: in memory, in what compaction has gathered, and, once the record
`seq` has been synced, in what a crash will leave. -/
structure Stored (γ : Codec) (h : History) (es : List LogEntry) (seq : ℕ) (id : TaskID) : Prop where
  memory : id ∈ h.broker.ids
  gathered : ∀ c qs, h.broker.holder = some ⟨c, some qs⟩ → id ∈ enqueuedIDs qs
  log : Promised γ h.broker.wal es seq (id ∈ enqueuedIDs ·)

theorem enqueuedIDs_concat (es : List LogEntry) (e : LogEntry) :
    enqueuedIDs (es ++ [e]) = enqueuedIDs es ++ enqueuedIDs [e] :=
  List.filterMap_append

/-- Compaction writes every task, if the scanner holds none. -/
theorem enqueuedIDs_compactEntries {inFlight : List Task} (hperm : inFlight.Perm b.tracker.vals)
    (hpending : b.scanner.pending = []) (hid : id ∈ b.ids) :
    id ∈ enqueuedIDs (b.compactEntries inFlight) := by
  rw [compactEntries_eq, enqueuedIDs_compacted]
  rw [Broker.ids, Broker.tasks, hpending, List.append_nil] at hid
  exact (((hperm.append_left b.pq).map Task.id).append_right _).mem_iff.mpr hid

/-- The task stays there, unless it is acked. -/
theorem Change.mem_ids (h : Change b b' e) (hid : id ∈ b.ids) (hack : e ≠ .ack id) :
    id ∈ b'.ids := by
  have hperm := h.ids
  cases h with
  | ack t hlive hdlq =>
    have hne : id ≠ t.id := fun heq => hack (by rw [heq])
    obtain ⟨u, hu, -⟩ | ⟨id', hid', hids⟩ | hids := hperm
    · cases hu
    · cases hid'
      exact (List.mem_cons.mp (hids.mem_iff.mp hid)).resolve_left hne
    · exact hids.mem_iff.mpr hid
  | _ =>
    obtain ⟨u, hu, hids⟩ | ⟨id', hid', hids⟩ | hids := hperm
    · exact hids.mem_iff.mpr (List.mem_cons_of_mem _ hid)
    · cases hid'
    · exact hids.mem_iff.mpr hid

/-- **A task that is stored stays so**, for as long as nobody acknowledges it. -/
theorem Stored.advance {es' : List LogEntry} (hs : Stored γ h es seq id)
    (hadv : Advance γ h es m h' es') (hreads : h.broker.ReadsAll m)
    (hack : .issued (.ack id) ∉ h'.trace) : Stored γ h' es' seq id := by
  have happend : ∀ e rs, Appends γ h m h' e rs →
      id ∈ h'.broker.ids ∧ id ∈ enqueuedIDs (es ++ [e]) := by
    intro e rs ha
    refine ⟨ha.change.mem_ids hs.memory ?_, ?_⟩
    · rintro rfl
      obtain rfl := ha.source.asked_ack
      rw [ha.trace] at hack
      exact hack (List.mem_append_right _ (List.mem_singleton.mpr rfl))
    · rw [enqueuedIDs_concat]
      exact List.mem_append_left _ hs.log.now
  have hcompact : ∀ inFlight, m = .compact inFlight → inFlight.Perm h.broker.tracker.vals →
      id ∈ enqueuedIDs (h.broker.compactEntries inFlight) := by
    rintro inFlight rfl hperm
    exact enqueuedIDs_compactEntries hperm hreads hs.memory
  obtain ⟨hmemory, hgathered, hlog⟩ := hadv.shared (P := (id ∈ ·)) (fun hp => hp.mem_iff.mp)
    hs.memory hs.gathered hs.log happend hcompact
  exact ⟨hmemory, hgathered, hlog⟩

/-- A task with a durable entry that has not been acked is recovered. -/
theorem Stored.mem_fold (hs : Stored γ h es seq id) (hseq : seq ≤ h.broker.wal.syncedSeq)
    (hcrash : Crashes γ h es h' qs) (hack : .ack id ∉ es) : id ∈ (fold qs).ids := by
  obtain ⟨t, ht, rfl⟩ := mem_enqueuedIDs.mp (hcrash.lasts _ (hs.log.synced hseq))
  exact mem_ids_fold ht fun hmem => hack (hcrash.left.subset hmem)

/-- **A task whose record was synced survives a crash.** -/
theorem Stored.crash (hs : Stored γ h es seq id) (hseq : seq ≤ h.broker.wal.syncedSeq)
    (hcrash : Crashes γ h es h' qs) (hack : .ack id ∉ es) :
    Stored γ h' (h'.broker.compactEntries []) 0 id := by
  have hr := hcrash.recovered
  have hmem : id ∈ h'.broker.ids := hr.ids.mem_iff.mpr (hs.mem_fold hseq hcrash hack)
  refine ⟨hmem, fun c qs hc => ?_, hr.promised ?_⟩
  · rw [hr.holder] at hc
    cases hc
  · exact enqueuedIDs_compactEntries hr.inFlight (by rw [hr.scanner]; rfl) hmem

/-- A task is enqueued. -/
theorem Base.stored_enqueue (hb : Base γ h.broker es) (ha : Appends γ h m h' (.enqueue t) rs) :
    Stored γ h' (es ++ [.enqueue t]) (h.broker.wal.writeSeq + 1) t.id := by
  refine ⟨?_, fun c qs hc => absurd hc (ha.holder c qs), ?_⟩
  · have hlive := ha.change.of_enqueue.1
    rw [Broker.ids_eq]
    exact List.mem_append_left _ ((hlive.map Task.id).mem_iff.mpr List.mem_cons_self)
  · rw [ha.wal]
    refine hb.sound.promise ?_
    rw [enqueuedIDs_concat]
    exact List.mem_append_right _ List.mem_cons_self

/-! ### The run -/

/-- **The tasks of the calls that have returned, or will, are there**, unless an `Ack` has been
issued, and the log has no other acks. -/
structure Owes (γ : Codec) (h : History) (es : List LogEntry) : Prop where
  acks : ∀ id, .ack id ∈ es → .issued (.ack id) ∈ h.trace
  gatheredAcks : ∀ c qs, h.broker.holder = some ⟨c, some qs⟩ → ∀ id, .ack id ∉ qs
  owed : ∀ c ∈ h.broker.owed, ∀ t, c.request = .enqueue t → .issued (.ack t.id) ∉ h.trace →
    Stored γ h es c.seq t.id
  returned : ∀ t, .returned (.enqueue t) ∈ h.trace → .issued (.ack t.id) ∉ h.trace →
    ∃ seq ≤ h.broker.wal.syncedSeq, Stored γ h es seq t.id

/-- Compaction writes no acks. -/
theorem ack_not_mem_compactEntries (b : Broker) (inFlight : List Task) (id : TaskID) :
    .ack id ∉ b.compactEntries inFlight := by
  intro hmem
  rw [compactEntries_eq] at hmem
  obtain hmem | hmem := List.mem_append.mp hmem
  · obtain ⟨t, -, ht⟩ := List.mem_map.mp hmem
    cases ht
  · obtain ⟨t, -, ht⟩ := List.mem_flatMap.mp hmem
    obtain ht | ht := List.mem_cons.mp ht
    · cases ht
    · cases List.mem_singleton.mp ht

/-- The acks in the log, and in what compaction has gathered. -/
theorem Owes.advance_acks {es' : List LogEntry} (ho : Owes γ h es)
    (hadv : Advance γ h es m h' es') :
    (∀ id, .ack id ∈ es' → .issued (.ack id) ∈ h'.trace) ∧
      ∀ c qs, h'.broker.holder = some ⟨c, some qs⟩ → ∀ id, .ack id ∉ qs := by
  have hmono := hadv.trace_subset
  cases hadv with
  | stays evs hpromised hsynced hwrite hholder =>
    exact ⟨fun id hid => hmono (ho.acks id hid), hholder ▸ ho.gatheredAcks⟩
  | append e rs hsource hfree hwal hholder howed hchange htrace =>
    refine ⟨fun id hid => ?_, fun c qs hc => absurd hc (not_gathered hholder c qs)⟩
    obtain hid | hid := List.mem_append.mp hid
    · exact hmono (ho.acks id hid)
    · obtain rfl := List.mem_singleton.mp hid
      obtain rfl := hsource.asked_ack
      rw [htrace]
      exact List.mem_append_right _ (List.mem_singleton.mpr rfl)
  | gathered c inFlight hm hperm hh =>
    refine ⟨fun id hid => hmono (ho.acks id hid), ?_⟩
    rw [hh]
    rintro c' qs ⟨⟩
    exact ack_not_mem_compactEntries _ _
  | rewritten c qs hholder hpromised hsynced hwrite hfree =>
    refine ⟨fun id hid => absurd hid (ho.gatheredAcks c es' hholder id), ?_⟩
    rw [hfree]
    rintro c qs ⟨⟩

/-- The step of a run without crashes. -/
theorem Owes.advance {es' : List LogEntry} (ho : Owes γ h es) (hb : Base γ h.broker es)
    (hreads : h.broker.ReadsAll m) (hadv : Advance γ h es m h' es') : Owes γ h' es' := by
  have hearlier : ∀ id, .issued (.ack id) ∉ h'.trace → .issued (.ack id) ∉ h.trace :=
    fun id => mt fun hmem => hadv.trace_subset hmem
  obtain ⟨hacks, hgathered⟩ := ho.advance_acks hadv
  obtain ⟨evs, ha⟩ | ⟨e, rs, rfl, ha⟩ := hadv.calls
  · refine ⟨hacks, hgathered, fun c hc t ht hack => ?_, fun t ht hack => ?_⟩
    · exact (ho.owed c (ha.owed c hc) t ht (hearlier _ hack)).advance hadv hreads hack
    · obtain ht | ⟨c, hc, hreq, hseq⟩ := ha.returned ht
      · obtain ⟨seq, hseq, hst⟩ := ho.returned t ht (hearlier _ hack)
        exact ⟨seq, le_trans hseq ha.synced, hst.advance hadv hreads hack⟩
      · have hst := ho.owed c hc t hreq (hearlier _ hack)
        exact ⟨c.seq, le_trans hseq ha.synced, hst.advance hadv hreads hack⟩
  · refine ⟨hacks, hgathered, fun c hc t ht hack => ?_, fun t ht hack => ?_⟩
    · rw [ha.owed] at hc
      obtain hc | hc := List.mem_append.mp hc
      · exact (ho.owed c hc t ht (hearlier _ hack)).advance hadv hreads hack
      · obtain ⟨r, hr, rfl⟩ := List.mem_map.mp hc
        obtain rfl : e = .enqueue t := ha.source.eq_enqueue (ht ▸ hr)
        exact hb.stored_enqueue ha
    · obtain ⟨seq, hseq, hst⟩ := ho.returned t (ha.returned ht) (hearlier _ hack)
      exact ⟨seq, ha.syncedSeq ▸ hseq, hst.advance hadv hreads hack⟩

/-- The step of a crash. -/
theorem Owes.crash (ho : Owes γ h es) (hcrash : Crashes γ h es h' qs) :
    Owes γ h' (h'.broker.compactEntries []) := by
  have hr := hcrash.recovered
  refine ⟨fun id hid => absurd hid (ack_not_mem_compactEntries _ _ _), fun c qs hc => ?_,
    fun c hc => ?_, fun t ht hack => ?_⟩
  · rw [hr.holder] at hc
    cases hc
  · rw [hr.owed] at hc
    cases hc
  · rw [hcrash.trace] at ht hack
    obtain ⟨seq, hseq, hst⟩ := ho.returned t ht hack
    exact ⟨0, Nat.zero_le _, hst.crash hseq hcrash fun hmem => hack (ho.acks _ hmem)⟩

/-! ### Whose task it is -/

/-- The calls are told apart by their identifiers, and those that return have been issued. -/
structure Distinct (h : History) : Prop where
  eq_of_id : ∀ t u, .issued (.enqueue t) ∈ h.trace → .issued (.enqueue u) ∈ h.trace →
    t.id = u.id → t = u
  owed : ∀ c ∈ h.broker.owed, .issued c.request ∈ h.trace
  returned : ∀ r, .returned r ∈ h.trace → .issued r ∈ h.trace

/-- Answers issue no identifier. -/
theorem Distinct.answers {evs : List Event} (hd : Distinct h) (ha : Answers h h' evs) :
    Distinct h' := by
  have hold : ∀ t, .issued (.enqueue t) ∈ h'.trace → .issued (.enqueue t) ∈ h.trace := by
    intro t ht
    rw [ha.trace] at ht
    exact (List.mem_append.mp ht).resolve_right (ha.no_enqueue t)
  have hmono : h.trace ⊆ h'.trace := by
    rw [ha.trace]
    exact List.subset_append_left _ _
  refine ⟨fun t u ht hu => hd.eq_of_id t u (hold t ht) (hold u hu),
    fun c hc => hmono (hd.owed c (ha.owed c hc)), fun r hr => hmono ?_⟩
  obtain hr | ⟨c, hc, rfl, -⟩ := ha.returned hr
  · exact hd.returned r hr
  · exact hd.owed c hc

/-- A record brings an identifier that has not been issued. -/
theorem Distinct.appends (hd : Distinct h) (hu : Unique γ h m) (ha : Appends γ h m h' e rs) :
    Distinct h' := by
  have hused : ∀ t, .issued (.enqueue t) ∈ h.trace → ∀ u, .enqueue u ∈ rs → u.id ≠ t.id :=
    fun t ht u hr => hu.ne_of_used (History.mem_enqueued.mpr ⟨t, ht, rfl⟩) ha.source u
      (ha.source.eq_enqueue hr)
  refine ⟨fun t u ht hu hid => ?_, fun c hc => ?_, fun r hr => ?_⟩
  · obtain ht | ht := ha.issued ht
    · obtain hu | hu := ha.issued hu
      · exact hd.eq_of_id t u ht hu hid
      · exact absurd hid.symm (hused t ht u hu)
    · obtain hu | hu := ha.issued hu
      · exact absurd hid (hused u hu t ht)
      · exact ha.source.enqueue_unique ht hu
  · rw [ha.trace]
    rw [ha.owed] at hc
    obtain hc | hc := List.mem_append.mp hc
    · exact List.mem_append_left _ (hd.owed c hc)
    · obtain ⟨r, hr, rfl⟩ := List.mem_map.mp hc
      exact List.mem_append_right _ (List.mem_map.mpr ⟨r, hr, rfl⟩)
  · rw [ha.trace]
    exact List.mem_append_left _ (hd.returned r (ha.returned hr))

theorem Distinct.advance {es' : List LogEntry} (hd : Distinct h) (hu : Unique γ h m)
    (hadv : Advance γ h es m h' es') : Distinct h' := by
  obtain ⟨evs, ha⟩ | ⟨e, rs, -, ha⟩ := hadv.calls
  · exact hd.answers ha
  · exact hd.appends hu ha

/-- A crash issues no identifier. -/
theorem Distinct.crash (hd : Distinct h) (hcrash : Crashes γ h es h' qs) : Distinct h' := by
  refine ⟨?_, fun c hc => ?_, ?_⟩
  · rw [hcrash.trace]
    exact hd.eq_of_id
  · rw [hcrash.recovered.owed] at hc
    cases hc
  · rw [hcrash.trace]
    exact hd.returned

/-! ### The theorem -/

/-- **The runs in which no identifier is used twice, and no compaction comes between the two
steps of the scanner.** -/
def Watched (γ : Codec) (h : History) (m : Move) : Prop := Unique γ h m ∧ h.broker.ReadsAll m

instance (γ : Codec) (h : History) (m : Move) : Decidable (Watched γ h m) :=
  inferInstanceAs (Decidable (Unique γ h m ∧ h.broker.ReadsAll m))

/-- **What a run owes.** -/
theorem owes_of_watched {cfg : Config} {ms : List Move}
    (hG : Run.Guarded (step γ) (Watched γ) (History.start cfg) ms)
    (hrun : Run.exec (step γ) (History.start cfg) ms = some h) :
    ∃ es, Base γ h.broker es ∧ Genuine h es ∧ Owes γ h es ∧ Distinct h := by
  refine Run.invariant_of_guarded (P := fun h => ∃ es, Base γ h.broker es ∧ Genuine h es ∧
    Owes γ h es ∧ Distinct h) ⟨[], base_start γ cfg, genuine_start cfg, ?_, ?_⟩ ?_ hG hrun
  · exact ⟨fun id hid => (by cases hid), fun c qs hc => (by cases hc), fun c hc => (by cases hc),
      fun t ht => (by cases ht)⟩
  · exact ⟨fun t u ht => (by cases ht), fun c hc => (by cases hc), fun r hr => (by cases hr)⟩
  · rintro u m u' ⟨es, hb, hg, ho, hd⟩ ⟨hu, hreads⟩ hs
    obtain ⟨es', hb', hadv | ⟨qs, hcrash, rfl, -⟩⟩ := hb.advance (hu.regular hg) hs
    · exact ⟨es', hb', hg.advance hadv, ho.advance hb hreads hadv, hd.advance hu hadv⟩
    · exact ⟨_, hb', hg.crash hcrash, ho.crash hcrash, hd.crash hcrash⟩

/-- **What is enqueued survives.** At every moment of such a run, a crash gives back every
task whose `Enqueue` has returned and for which no `Ack` has been issued: it is pending or in
the dead-letter queue. -/
theorem enqueued_survives {cfg cfg' : Config} {ms : List Move} {c : ℕ} {order : List Task}
    (hG : Run.Guarded (step γ) (Watched γ) (History.start cfg) ms)
    (hrun : Run.exec (step γ) (History.start cfg) ms = some h)
    (ht : .returned (.enqueue t) ∈ h.trace) (hack : .issued (.ack t.id) ∉ h.trace)
    (hcrash : step γ h (.crash c order cfg') = some h') :
    ∃ u, u.core = t.core ∧ (u ∈ h'.broker.pq ∧ u.status = .pending ∨
      u ∈ h'.broker.dlq ∧ u.status = .dead) := by
  obtain ⟨es, hb, hg, ho, hd⟩ := owes_of_watched hG hrun
  simp only [step, Option.ite_none_right_eq_some, Option.map_eq_some_iff] at hcrash
  obtain ⟨⟨hc, -, horder⟩, b, hrec, rfl⟩ := hcrash
  obtain ⟨qs, hcrash⟩ : ∃ qs, Crashes γ h es (h.silent b) qs :=
    hb.crashes hc (recovered_of_recover horder hrec) rfl
  have hr := hcrash.recovered
  -- the task is among those that were read
  obtain ⟨seq, hseq, hst⟩ := ho.returned t ht hack
  have hid := hst.mem_fold hseq hcrash fun hmem => hack (ho.acks _ hmem)
  rw [Contents.ids, ← List.map_append] at hid
  obtain ⟨u, hu, huid⟩ := List.mem_map.mp hid
  -- and it is the one that was enqueued
  have hcore : u.core = t.core := by
    obtain ⟨v, hv, hvu⟩ := core_fold hu
    obtain ⟨t', ht', htv⟩ := hg.log v (hcrash.left.subset hv)
    have hids : t'.id = t.id := (Task.id_of_core (htv.trans hvu)).trans huid
    rw [← hvu, ← htv, hd.eq_of_id t' t ht' (hd.returned _ ht) hids]
  refine ⟨u, hcore, ?_⟩
  obtain hu | hu := List.mem_append.mp hu
  · exact Or.inl ⟨hr.pq.mem_iff.mpr hu, (status_fold qs).1 u hu⟩
  · exact Or.inr ⟨hr.dlq ▸ hu, (status_fold qs).2 u hu⟩

/-- The task as it is enqueued. -/
def stampedA : Task := { taskA with createdAt := 1, mono := some 1 }

/-- The task as it is in flight. -/
def heldA : Task := { stampedA with status := .inFlight, deadline := 32 }

/-- The task as it is read back. -/
def againA : Task := { taskA with createdAt := 1 }

/-- The other task as it is read back. -/
def pendingB : Task := { Task.named "b" with createdAt := 3 }

/-- The log is compacted while a task is in flight. -/
def compactedInFlight : List Move :=
  [.enqueue taskA "" 1 none] ++ synced ++
    [.dequeue 2, .enqueue (Task.named "b") "" 3 none, .compact [heldA], .rewrite, .returns 0]

/-- The theorem at a crash after a compaction with a task in flight. -/
theorem enqueued_survives_compacted :
    ∃ h h', Run.exec (step plainCodec) (History.start ⟨5, 30, 2⟩) compactedInFlight = some h ∧
      .returned (.enqueue stampedA) ∈ h.trace ∧
      step plainCodec h (.crash 52 [pendingB, againA] ⟨5, 30, 2⟩) = some h' ∧
      ∃ u, u.core = stampedA.core ∧ (u ∈ h'.broker.pq ∧ u.status = .pending ∨
        u ∈ h'.broker.dlq ∧ u.status = .dead) := by
  have hend : (Run.exec (step plainCodec) (History.start ⟨5, 30, 2⟩) compactedInFlight).map
      (fun h => (decide (.returned (.enqueue stampedA) ∈ h.trace),
        decide (.issued (.ack "a") ∈ h.trace),
        (step plainCodec h (.crash 52 [pendingB, againA] ⟨5, 30, 2⟩)).isSome)) =
        some (true, false, true) := by
    decide +kernel
  obtain ⟨h, hrun, hlast⟩ := Option.map_eq_some_iff.mp hend
  obtain ⟨hret, hlast⟩ := Prod.mk.inj hlast
  obtain ⟨hack, hcrash⟩ := Prod.mk.inj hlast
  obtain ⟨h', hcrash⟩ := Option.isSome_iff_exists.mp hcrash
  have hG : Run.Guarded (step plainCodec) (Watched plainCodec) (History.start ⟨5, 30, 2⟩)
      compactedInFlight := by
    decide +kernel
  exact ⟨h, h', hrun, of_decide_eq_true hret, hcrash,
    enqueued_survives hG hrun (of_decide_eq_true hret) (of_decide_eq_false hack) hcrash⟩

/-! ### A task in the hands of the scanner -/

/-- The same, when the task has expired: the scanner has taken it, and not requeued it
yet. -/
def compactedExpired : List Move :=
  [.enqueue taskA "" 1 none] ++ synced ++
    [.dequeue 2, .expired 100 [heldA], .enqueue (Task.named "b") "" 3 none, .compact [], .rewrite,
      .returns 0, .crash 26 [pendingB] ⟨5, 30, 2⟩]

/-- **A compaction between the two steps of the scanner loses a task.** The `Enqueue` of the
first task has returned, nobody has tried to ack it, and the crash gives back the second
task only. -/
theorem compaction_loses_expired :
    Run.Guarded (step plainCodec)
        (fun h m => m.Succeeds ∧ h.NoReuse m ∧ h.broker.Capped plainCodec m)
        (History.start ⟨5, 30, 2⟩) compactedExpired ∧
      (Run.exec (step plainCodec) (History.start ⟨5, 30, 2⟩) compactedExpired).map (fun h =>
        (decide (.returned (.enqueue stampedA) ∈ h.trace), decide (.issued (.ack "a") ∈ h.trace),
          h.broker.pq.map Task.id, h.broker.dlq.map Task.id)) =
        some (true, false, ["b"], []) := by
  decide +kernel

end SingleNode

end DistQueue
