import DistQueue.SingleNode.Sections

/-!
# Where a task is

A task of the single-node broker is in the heap, in the tracker, in the hands of the scanner
or in the dead-letter queue. It moves between them under two locks, and where the log cannot
be written it has to be put back.

A section moves tasks about, takes a new one in, or lets an acked one go: with the
identifiers that it has accepted and those whose ack it has taken, it leaves the identifiers
of the broker the same, up to their order (`DistQueue.SingleNode.perm_of_step`). This holds
whether or not the section's record gets to the log, so over a run every task that was
accepted and not acked is in exactly one place (`DistQueue.SingleNode.in_one_place`).
-/

namespace DistQueue

open Broker Wal

namespace SingleNode

variable {γ : Codec} {b b' : Broker} {h h' : History} {m : Move} {t : Task} {id : TaskID}

/-! ### The life of a broker -/

/-- The identifier of the task that a move puts into the broker: an `Enqueue` whose record
has been written. -/
def Move.accepts : Move → List TaskID
  | .enqueue t newID now none => [(Broker.prepare t newID now).id]
  | _ => []

/-- The identifier of the task that a move acks: the task was in flight, and the record has
been written. -/
def Broker.acks (b : Broker) : Move → List TaskID
  | .ack id none => if (b.tracker.find id).isSome then [id] else []
  | _ => []

/-- A broker, with the identifiers of the tasks that it has accepted, or found in its log,
and of those that were acked. -/
structure Life where
  history : History
  accepted : List TaskID
  acked : List TaskID

namespace Life

/-- A life that begins with what the broker has in memory. -/
def start (h : History) : Life := ⟨h, h.broker.ids, []⟩

/-- One section. The life of a broker ends with a crash. -/
def step (γ : Codec) (l : Life) : Move → Option Life
  | .crash _ _ _ => none
  | m => (SingleNode.step γ l.history m).map fun h =>
      ⟨h, l.accepted ++ m.accepts, l.acked ++ l.history.broker.acks m⟩

/-- **No identifier is reused**: a task that is accepted has a new one. -/
def Unused (l : Life) (m : Move) : Prop := ∀ id ∈ m.accepts, id ∉ l.accepted

instance (l : Life) (m : Move) : Decidable (l.Unused m) :=
  inferInstanceAs (Decidable (∀ id ∈ m.accepts, id ∉ l.accepted))

end Life

/-! ### The identifiers of a broker -/

namespace Broker

theorem ids_maybeCompactLocked (b : Broker) (c : Caller) :
    (b.maybeCompactLocked c).ids = b.ids := by
  have hsame := sameTasks_maybeCompactLocked b c
  rw [ids, ids, hsame.tasks, hsame.dlq]

/-- A task is among the live ones, and the rest are the other broker's. -/
theorem ids_cons (hlive : b.live.Perm (t.recovered :: b'.live)) (hdlq : b.dlq = b'.dlq) :
    b.ids.Perm (t.id :: b'.ids) := by
  rw [ids_eq, ids_eq, hdlq]
  exact (hlive.map Task.id).append_right _

/-- A task is put into the heap. -/
theorem ids_push (hpq : b'.pq = Heap.push Task.less b.pq t) (htracker : b'.tracker = b.tracker)
    (hscan : b'.scanner = b.scanner) (hdlq : b'.dlq = b.dlq) : b'.ids.Perm (t.id :: b.ids) := by
  refine ids_cons ?_ hdlq
  refine List.Perm.trans (List.Perm.of_eq ?_) (live_push b t)
  rw [live, tasks, hpq, htracker, hscan]
  rfl

/-- A task is tracked that was not. -/
theorem ids_put (hnew : t.id ∉ b.tracker.vals.map Task.id) :
    ({ b with tracker := b.tracker.put t } : Broker).ids.Perm (t.id :: b.ids) := by
  unfold ids tasks
  dsimp only
  rw [Table.vals_put_of_not_mem hnew]
  simp only [List.map_append, List.map_cons, List.append_assoc]
  exact List.perm_middle

/-- **A task that is requeued is in the broker again**, whether its record has got to the log
or not. -/
theorem ids_requeueLocked {fault : Option ℕ} {caller : ℕ → Caller}
    (hnew : t.id ∉ b.tracker.vals.map Task.id) :
    (b.requeueLocked γ t fault caller).ids.Perm (t.id :: b.ids) := by
  unfold requeueLocked
  dsimp only
  cases fault with
  | some n =>
    -- it is tracked again, for its next timeout
    split <;> exact ids_put (t := { t with retryCount := t.retryCount + 1 }) hnew
  | none =>
    split
    · refine (List.Perm.of_eq (ids_maybeCompactLocked _ _)).trans ?_
      rw [ids_eq, ids_eq]
      dsimp only
      rw [List.map_append, ← List.append_assoc]
      exact List.perm_append_singleton _ _
    · refine (List.Perm.of_eq (ids_maybeCompactLocked _ _)).trans ?_
      exact ids_push
        (t := { t with retryCount := t.retryCount + 1, status := .pending, deadline := 0 })
        rfl rfl rfl rfl

/-- `Nack` moves its task. -/
theorem ids_nack (b : Broker) (id : TaskID) (fault : Option ℕ) :
    (b.nack γ id fault).ids.Perm b.ids := by
  unfold nack
  split
  · exact List.Perm.refl _
  · rename_i t hfind
    obtain rfl := Table.key_of_find hfind
    exact (ids_requeueLocked (Table.not_mem_keys_erase _ _)).trans
      (ids_cons (live_track b hfind) rfl).symm

/-- A task in the scanner's hands is not in the tracker. -/
theorem Apart.not_tracked (ha : b.Apart) (ht : t ∈ b.scanner.pending) :
    t.id ∉ b.tracker.vals.map Task.id := by
  intro hmem
  have hids := (List.nodup_append.mp ha).1
  rw [tasks, List.map_append] at hids
  refine (List.nodup_append.mp hids).2.2 _ ?_ _ (List.mem_map.mpr ⟨t, ht, rfl⟩) rfl
  rw [List.map_append]
  exact List.mem_append_right _ hmem

/-- So does a timeout. -/
theorem ids_onTimeout (ha : b.Apart) {rest : List Task} (hscan : b.scanner = .batch t rest)
    (fault : Option ℕ) : (b.onTimeout γ t rest fault).ids.Perm b.ids := by
  have hnew : t.id ∉ b.tracker.vals.map Task.id :=
    ha.not_tracked (by rw [hscan]; exact List.mem_cons_self)
  have hreq : (({ b with scanner := .locked rest } : Broker).requeueLocked γ t fault
      .scanner).ids.Perm b.ids :=
    (ids_requeueLocked (b := { b with scanner := .locked rest }) hnew).trans
      (ids_cons (live_batch b hscan) rfl).symm
  unfold onTimeout
  dsimp only
  split
  · -- the rest of the batch is still in the scanner's hands
    rename_i hfault
    refine (List.Perm.of_eq ?_).trans hreq
    obtain ⟨n, rfl⟩ := Option.isSome_iff_exists.mp hfault
    unfold requeueLocked
    dsimp only
    split <;> simp only [ids, tasks, pending_next] <;> rfl
  · exact hreq

/-- **An ack lets its task go** if the record has got to the log. -/
theorem ids_ack (b : Broker) (id : TaskID) (fault : Option ℕ) :
    ((b.ack γ id fault).ids ++ b.acks (.ack id fault)).Perm b.ids := by
  unfold ack
  split
  · rename_i hfind
    have hacks : b.acks (.ack id fault) = [] := by
      cases fault with
      | none => simp [acks, hfind]
      | some n => rfl
    rw [hacks, List.append_nil]
  · rename_i t hfind
    have htrack : b.ids.Perm (t.id :: ({ b with tracker := b.tracker.erase id } : Broker).ids) :=
      ids_cons (live_track b hfind) rfl
    obtain rfl := Table.key_of_find hfind
    cases fault with
    | some n =>
      have hput := ids_put (b := { b with tracker := b.tracker.erase t.id }) (t := t)
        (Table.not_mem_keys_erase _ _)
      have hacks : b.acks (.ack t.id (some n)) = [] := rfl
      rw [hacks, List.append_nil]
      exact hput.trans htrack.symm
    | none =>
      have hacks : b.acks (.ack t.id none) = [t.id] := by simp [acks, hfind]
      rw [hacks]
      refine List.Perm.trans ?_ htrack.symm
      refine (List.perm_append_singleton _ _).trans (List.Perm.cons _ (List.Perm.of_eq ?_))
      exact ids_maybeCompactLocked _ _

/-- `Enqueue` adds what it accepts. -/
theorem ids_enqueue (b : Broker) (t : Task) (newID : TaskID) (now : Instant) (fault : Option ℕ) :
    (b.enqueue γ (prepare t newID now) fault).ids.Perm
      ((Move.enqueue t newID now fault).accepts ++ b.ids) := by
  cases fault with
  | some n => exact List.Perm.refl _
  | none =>
    refine (List.Perm.of_eq (ids_maybeCompactLocked _ _)).trans ?_
    exact ids_push rfl rfl rfl rfl

/-- `Dequeue` moves its task. -/
theorem ids_dequeue (ha : b.Apart) (now : Time) : (b.dequeue now).2.ids.Perm b.ids := by
  unfold dequeue
  split
  · exact List.Perm.refl _
  · rename_i t pq hpop
    have hperm := Heap.perm_of_pop hpop
    have hnew := ha.not_tracked_of_mem_pq (hperm.mem_iff.mpr List.mem_cons_self)
    exact ids_perm (live_dequeue b hperm rfl hnew) rfl

theorem ids_expired {now : Time} {inFlight : List Task} (hscan : b.scanner = .idle)
    (hperm : inFlight.Perm b.tracker.vals) : (b.expired now inFlight).ids.Perm b.ids :=
  ids_perm (live_expired hscan hperm) rfl

end Broker

/-! ### One section -/

/-- **A section moves tasks about**, but for the one that it accepts and the one that it
acks. -/
theorem perm_of_step (ha : h.broker.Apart) (hm : ∀ c order cfg, m ≠ .crash c order cfg)
    (hstep : step γ h m = some h') :
    (h'.broker.ids ++ h.broker.acks m).Perm (m.accepts ++ h.broker.ids) := by
  -- all but an `Ack` let no task go
  have hkeep : ∀ {b' : Broker}, b'.ids.Perm (m.accepts ++ h.broker.ids) → h.broker.acks m = [] →
      (b'.ids ++ h.broker.acks m).Perm (m.accepts ++ h.broker.ids) := by
    intro b' hids hacks
    rwa [hacks, List.append_nil]
  cases m with
  | enqueue t newID now fault =>
    obtain ⟨-, rfl⟩ := eq_of_locked hstep
    exact hkeep (Broker.ids_enqueue _ t newID now fault) rfl
  | dequeue now =>
    obtain ⟨-, rfl⟩ := eq_of_locked hstep
    exact hkeep (Broker.ids_dequeue ha now) rfl
  | ack id fault =>
    obtain ⟨-, rfl⟩ := eq_of_locked hstep
    exact Broker.ids_ack _ id fault
  | nack id fault =>
    obtain ⟨-, rfl⟩ := eq_of_locked hstep
    exact hkeep (Broker.ids_nack _ id fault) rfl
  | applyTuning taskTimeout maxRetries =>
    obtain ⟨-, rfl⟩ := eq_of_locked hstep
    exact hkeep (List.Perm.refl _) rfl
  | expired now inFlight =>
    simp only [step, Option.ite_none_right_eq_some, Option.some.injEq] at hstep
    obtain ⟨⟨hidle, hperm⟩, rfl⟩ := hstep
    exact hkeep (Broker.ids_expired hidle hperm) rfl
  | onTimeout fault =>
    unfold step at hstep
    dsimp only at hstep
    split at hstep
    · rename_i t rest hscan
      obtain ⟨-, rfl⟩ := eq_of_locked hstep
      exact hkeep (Broker.ids_onTimeout ha hscan fault) rfl
    · cases hstep
  | compact inFlight | rewrite | lead | capture | fsync ok | returns k | resume =>
    have hsame := sameTasks_of_log hstep trivial
    refine hkeep (List.Perm.of_eq ?_) rfl
    rw [Broker.ids, hsame.tasks, hsame.dlq]
    rfl
  | crash c order cfg => exact absurd rfl (hm c order cfg)

/-! ### A whole life -/

/-- **Nothing is lost and nothing is there twice.** -/
structure Life.Balanced (l : Life) : Prop where
  perm : (l.history.broker.ids ++ l.acked).Perm l.accepted
  nodup : l.accepted.Nodup

theorem Life.Balanced.apart {l : Life} (hl : l.Balanced) : l.history.broker.Apart :=
  (List.nodup_append.mp (hl.perm.nodup_iff.mpr hl.nodup)).1

/-- **Every step keeps the account balanced.** -/
theorem Life.Balanced.step {l l' : Life} (hl : l.Balanced) (hm : l.Unused m)
    (hs : l.step γ m = some l') : l'.Balanced := by
  have hcrash : ∀ c order cfg, m ≠ .crash c order cfg := by
    rintro c order cfg rfl
    cases hs
  obtain ⟨h', hstep, rfl⟩ : ∃ h', SingleNode.step γ l.history m = some h' ∧
      ⟨h', l.accepted ++ m.accepts, l.acked ++ l.history.broker.acks m⟩ = l' := by
    cases m <;> first | exact Option.map_eq_some_iff.mp hs | cases hs
  have hperm := perm_of_step hl.apart hcrash hstep
  constructor
  · -- what the section has accepted comes to the accepted, what it has acked to the acked
    have hacked : (h'.broker.ids ++ (l.acked ++ l.history.broker.acks m)).Perm
        (h'.broker.ids ++ l.history.broker.acks m ++ l.acked) := by
      rw [List.append_assoc]
      exact List.perm_append_comm.append_left _
    refine hacked.trans ((hperm.append_right _).trans ?_)
    rw [List.append_assoc]
    exact (hl.perm.append_left _).trans List.perm_append_comm
  · refine List.nodup_append.mpr ⟨hl.nodup, ?_, ?_⟩
    · unfold Move.accepts
      split
      · exact List.nodup_singleton _
      · exact List.nodup_nil
    · rintro id hid _ hid' rfl
      exact hm id hid' hid

/-- **Every task is in exactly one place.** In every state that a broker comes to, whatever
calls, timeouts and failed writes have come before, a task that has been accepted and not
been acked is once in the heap, the tracker, the scanner's batch and the dead-letter queue
taken together, and a task that has been acked is in none of them. -/
theorem in_one_place (ha : h.broker.Apart) {ms : List Move} {l : Life}
    (hunused : Run.Guarded (Life.step γ) Life.Unused (Life.start h) ms)
    (hl : Run.exec (Life.step γ) (Life.start h) ms = some l) :
    (∀ id ∈ l.accepted, id ∉ l.acked → l.history.broker.ids.count id = 1) ∧
      ∀ id ∈ l.acked, id ∉ l.history.broker.ids := by
  have hstart : (Life.start h).Balanced := ⟨List.Perm.of_eq (List.append_nil _), ha⟩
  have hbal : l.Balanced := Run.invariant_of_guarded hstart
    (fun u m u' => Life.Balanced.step) hunused hl
  have hnodup := hbal.perm.nodup_iff.mpr hbal.nodup
  constructor
  · intro id hid hacked
    have hmem : id ∈ l.history.broker.ids :=
      (List.mem_append.mp (hbal.perm.mem_iff.mpr hid)).resolve_right hacked
    exact List.count_eq_one_of_mem hbal.apart hmem
  · intro id hid hmem
    exact (List.nodup_append.mp hnodup).2.2 _ hmem _ hid rfl

/-- The task `b` does not get to the log; `a` and `c` are delivered. The ack of `a` does not get
to the log either, the one of `c` does. Then `a` expires, is nacked too late, and cannot be
requeued. -/
def faultyLife : List Move :=
  [.enqueue (.named "a") "" 1 none, .enqueue (.named "b") "" 2 (some 3),
    .enqueue (.named "c") "" 3 none, .dequeue 4, .dequeue 5, .ack "a" (some 2), .ack "c" none,
    .expired 40
      [{ Task.named "a" with
        createdAt := 1, mono := some 1, status := .inFlight, deadline := 34 }],
    .nack "a" none, .onTimeout (some 1)]

/-- The theorem at a life with writes that fail. -/
theorem in_one_place_faultyLife :
    ∃ l, Run.exec (Life.step plainCodec) (Life.start (.start ⟨5, 30, 0⟩)) faultyLife = some l ∧
      l.accepted = ["a", "c"] ∧ l.acked = ["c"] ∧
      (∀ id ∈ l.accepted, id ∉ l.acked → l.history.broker.ids.count id = 1) ∧
      ∀ id ∈ l.acked, id ∉ l.history.broker.ids := by
  have hend : (Run.exec (Life.step plainCodec) (Life.start (.start ⟨5, 30, 0⟩)) faultyLife).map
      (fun l => (l.accepted, l.acked)) = some (["a", "c"], ["c"]) := by
    decide +kernel
  have hunused : Run.Guarded (Life.step plainCodec) Life.Unused (Life.start (.start ⟨5, 30, 0⟩))
      faultyLife := by
    decide +kernel
  obtain ⟨l, hl, hend⟩ := Option.map_eq_some_iff.mp hend
  obtain ⟨haccepted, hacked⟩ := Prod.mk.inj hend
  have hapart : (History.start ⟨5, 30, 0⟩).broker.Apart := List.nodup_nil
  exact ⟨l, hl, haccepted, hacked, in_one_place hapart hunused hl⟩

end SingleNode

end DistQueue
