import DistQueue.Server.ClusterServer
import DistQueue.Run
import Mathlib.Tactic.Common

/-!
# Tasks in flight and their deadlines

That a task has been handed out is recorded twice: its status in the queue is in
flight, and the server holds a redelivery deadline for it. The two records are kept
under different locks, and five activities update them in separate sections. This file
is about when they agree: once no goroutine is between two of its sections
(`DistQueue.Server.ClusterServer.Quiescent`), a task in flight without a deadline is
stranded, since no scan will time it out.

The run is that of one server against an arbitrary node: leadership comes and goes,
proposals are refused or lost, and messages arrive as they like. In between, a task in
flight is covered by more than its deadline
(`DistQueue.Server.ClusterServer.Held`): a handler has taken it and is about to record
it, the scanner has it in its batch, or the watch is about to requeue everything. Two
sections can uncover a task. `finish` forgets the deadline after its nack has been
applied, when the task may have been handed out again
(`DistQueue.Server.nack_strands_redelivery`), and the scanner moves on from an expired
task whether or not its nack came through. As long as neither does so to a task that is
in flight at that moment, no task is stranded
(`DistQueue.Server.inFlight_has_deadline`).
-/

namespace DistQueue

namespace Server

open Broker Raft

variable {cfg : ClusterConfig} {s s' : ClusterServer} {id : TaskID}

/-! ### The server and its surroundings -/

/-- What the node can deliver: a snapshot was taken by a queue, and those list their
tasks as pending (`DistQueue.Broker.StateMachine.status_of_mem_snapshot`). -/
def Section.Plausible : Section → Prop
  | .receive (.snapshot msg) => ∀ st ∈ decodeSnapshot msg.data, ∀ t ∈ st.tasks, t.status = .pending
  | _ => True

instance (e : Section) : Decidable e.Plausible := by
  unfold Section.Plausible
  split <;> infer_instance

/-- One section of a server, against an arbitrary node. -/
def serverStep (cfg : ClusterConfig) (s : ClusterServer) (e : Section) : Option ClusterServer :=
  if e.Plausible then s.step cfg e else none

/-- A server that has just been started. -/
def freshServer (maxRetries : ℤ) : ClusterServer := newClusterServer (newStateMachine maxRetries)

namespace ClusterServer

/-- No handler and no loop is between two of its sections. -/
structure Quiescent (s : ClusterServer) : Prop where
  handlers : ∀ h ∈ s.handlers, ∃ r, h = .returned r
  scanner : s.scanner = .idle
  watcher : s.watcher = .idle
  applyLoop : s.applyLoop = .idle

/-- The tasks a section lets go of: the one whose deadline `finish` forgets, and those
the scanner moves on from. -/
def letsGo (s : ClusterServer) : Section → List TaskID
  | .handler k _ =>
    match s.handlers[k]? with
    | some (.untrack op _) => [op.taskID]
    | _ => []
  | .scanner a =>
    match s.scanner, a with
    | .batch id rest, .isLeader false => id :: rest
    | .proposing id _ p, a =>
      match s.proposeSection p a with
      | some (_, .more _) => []
      | _ => [id]
    | _, _ => []
  | _ => []

/-- The section lets go of no task that is in flight. -/
def KeepsHold (s : ClusterServer) (e : Section) : Prop :=
  ∀ id ∈ s.letsGo e, s.sm.statusOf id ≠ some .inFlight

instance (s : ClusterServer) (e : Section) : Decidable (s.KeepsHold e) :=
  inferInstanceAs (Decidable (∀ id ∈ s.letsGo e, _))

end ClusterServer

/-- The expired tasks the scanner has not dealt with yet. -/
def Scanner.pending : Scanner → List TaskID
  | .idle => []
  | .batch id rest | .checked id rest | .proposing id rest _ => id :: rest

@[simp] theorem Scanner.pending_next (ids : List TaskID) : (Scanner.next ids).pending = ids := by
  cases ids <;> rfl

namespace ClusterServer

/-! ### What covers a task -/

/-- **What covers a task in flight**: its deadline, a handler that is about to record it,
the scanner's batch, or the watch about to requeue every task. -/
def Held (s : ClusterServer) (id : TaskID) : Prop :=
  (s.inflight.lookup id).isSome ∨ (∃ t : Task, .dequeueTaken t ∈ s.handlers ∧ t.id = id) ∨
    id ∈ s.scanner.pending ∨ s.watcher = .requeue

/-- Every task in flight is covered. -/
structure Covered (s : ClusterServer) : Prop where
  keyed : s.sm.Keyed
  held : ∀ id, s.sm.statusOf id = some .inFlight → s.Held id

/-- A section that leaves the queue and what covers a task alone. -/
theorem Covered.congr (h : s.Covered) (hsm : s'.sm = s.sm) (hin : s'.inflight = s.inflight)
    (hha : ∀ t : Task, .dequeueTaken t ∈ s.handlers → .dequeueTaken t ∈ s'.handlers)
    (hsc : ∀ id, s.sm.statusOf id = some .inFlight → id ∈ s.scanner.pending →
      id ∈ s'.scanner.pending)
    (hwa : s.watcher = .requeue → s'.watcher = .requeue) : s'.Covered := by
  refine ⟨hsm ▸ h.keyed, fun id hid => ?_⟩
  rw [hsm] at hid
  obtain hd | ⟨t, ht, rfl⟩ | hp | hw := h.held id hid
  · exact .inl (hin ▸ hd)
  · exact .inr (.inl ⟨t, hha t ht, rfl⟩)
  · exact .inr (.inr (.inl (hsc _ hid hp)))
  · exact .inr (.inr (.inr (hwa hw)))

/-! ### The handlers -/

/-- Where a handler stays put when another one moves. -/
theorem mem_set_of_ne {hs : List Handler} {k : ℕ} {x y z : Handler} (hk : hs[k]? = some x)
    (hz : z ∈ hs) (hne : z ≠ x) : z ∈ hs.set k y := by
  obtain ⟨j, hj⟩ := List.mem_iff_getElem?.mp hz
  have hjk : k ≠ j := by
    rintro rfl
    exact hne (Option.some.inj (hj.symm.trans hk))
  exact List.mem_iff_getElem?.mpr ⟨j, by rw [List.getElem?_set_ne hjk, hj]⟩

/-- A handler moves that has not just taken a task, and nothing else changes. -/
theorem Covered.move (h : s.Covered) {k : ℕ} {x y : Handler} (hk : s.handlers[k]? = some x)
    (hx : ∀ t, x ≠ .dequeueTaken t) : { s with handlers := s.handlers.set k y }.Covered :=
  h.congr rfl rfl (fun t ht => mem_set_of_ne hk ht (hx t).symm) (fun _ _ hp => hp) id

/-- A task is taken: from here to the record of its deadline, the handler covers it. -/
theorem Covered.takeTask (h : s.Covered) {k : ℕ} (hk : s.handlers[k]? = some .dequeueChecked)
    (now : Time) :
    { (s.takeTask cfg now).1 with
      handlers := s.handlers.set k (s.takeTask cfg now).2 }.Covered := by
  have hmem : ∀ (y : Handler) (t : Task), .dequeueTaken t ∈ s.handlers →
      .dequeueTaken t ∈ s.handlers.set k y := fun y t ht => mem_set_of_ne hk ht (by simp)
  have hlt : k < s.handlers.length := (List.getElem?_eq_some_iff.mp hk).1
  refine ⟨h.keyed.dequeue _, fun id hid => ?_⟩
  have hstill : s.sm.statusOf id = some .inFlight →
      Held { (s.takeTask cfg now).1 with
        handlers := s.handlers.set k (s.takeTask cfg now).2 } id := by
    intro hid
    obtain hd | ⟨t, ht, rfl⟩ | hp | hw := h.held id hid
    · exact .inl hd
    · exact .inr (.inl ⟨t, hmem _ t ht, rfl⟩)
    · exact .inr (.inr (.inl hp))
    · exact .inr (.inr (.inr hw))
  obtain ⟨-, hsame⟩ | ⟨t, ht, -, hupd⟩ :=
    StateMachine.statusOf_dequeue h.keyed (now + cfg.taskTimeout)
  · exact hstill (hsame ▸ hid)
  · by_cases hne : id = t.id
    · subst hne
      refine .inr (.inl ⟨t, ?_, rfl⟩)
      simp only [ClusterServer.takeTask, ht]
      exact List.mem_set hlt _
    · refine hstill ?_
      simp only [ClusterServer.takeTask, hupd, Function.update_of_ne hne] at hid
      exact hid

/-- The deadline is recorded. -/
theorem Covered.record (h : s.Covered) {k : ℕ} {t : Task}
    (hk : s.handlers[k]? = some (.dequeueTaken t)) :
    { s with
      inflight := s.inflight.insert t.id t.deadline
      handlers := s.handlers.set k (.returned (.dequeued (toProto t))) }.Covered := by
  refine ⟨h.keyed, fun id hid => ?_⟩
  by_cases hne : id = t.id
  · subst hne
    exact .inl (by simp)
  · obtain hd | ⟨u, hu, rfl⟩ | hp | hw := h.held id hid
    · refine .inl ?_
      rwa [AList.lookup_insert_ne hne]
    · refine .inr (.inl ⟨u, mem_set_of_ne hk hu ?_, rfl⟩)
      rintro ⟨⟩
      exact hne rfl
    · exact .inr (.inr (.inl hp))
    · exact .inr (.inr (.inr hw))

/-- A deadline is forgotten. -/
theorem Covered.untrack (h : s.Covered) {k index : ℕ} {op : QueueOp}
    (hk : s.handlers[k]? = some (.untrack op index))
    (hop : s.sm.statusOf op.taskID ≠ some .inFlight) :
    { s with
      inflight := s.inflight.erase op.taskID
      handlers := s.handlers.set k (.returned (.finished op index)) }.Covered := by
  refine ⟨h.keyed, fun id hid => ?_⟩
  have hne : id ≠ op.taskID := by
    rintro rfl
    exact hop hid
  obtain hd | ⟨u, hu, rfl⟩ | hp | hw := h.held id hid
  · refine .inl ?_
    rwa [AList.lookup_erase_ne hne]
  · exact .inr (.inl ⟨u, mem_set_of_ne hk hu (by simp), rfl⟩)
  · exact .inr (.inr (.inl hp))
  · exact .inr (.inr (.inr hw))

/-- The step of a handler. -/
theorem Covered.handler (h : s.Covered) {k : ℕ} {x : Handler} {a : Answer}
    {r : ClusterServer × Handler} (hk : s.handlers[k]? = some x)
    (hr : s.handlerSection cfg x a = some r)
    (hgo : ∀ op index, x = .untrack op index → s.sm.statusOf op.taskID ≠ some .inFlight) :
    { r.1 with handlers := r.1.handlers.set k r.2 }.Covered := by
  unfold handlerSection at hr
  split at hr
  · cases hr
    exact h.move hk (by simp)
  · cases hr
    exact h.takeTask hk _
  · cases hr
    exact h.record hk
  · cases hr
    exact h.move hk (by simp)
  · cases hr
    exact h.move hk (by simp)
  · obtain ⟨q, hq, rfl⟩ := Option.map_eq_some_iff.mp hr
    rw [proposeSection_eq hq]
    have h' : Covered { s with waiters := q.1.waiters, nextChannel := q.1.nextChannel } :=
      h.congr rfl rfl (fun _ ht => ht) (fun _ _ hp => hp) id
    exact h'.move hk (by simp)
  · cases hr
    exact h.untrack hk (hgo _ _ rfl)
  · cases hr
    exact h.move hk (by simp)
  · cases hr

/-! ### The loops -/

theorem lookup_foldl_erase {id : TaskID} {ids : List TaskID} {m : AList fun _ : TaskID => Time}
    (hid : id ∉ ids) : (ids.foldl (fun m id => m.erase id) m).lookup id = m.lookup id := by
  induction ids generalizing m with
  | nil => rfl
  | cons id' ids ih =>
    obtain ⟨hne, hid⟩ := not_or.mp (List.mem_cons.not.mp hid)
    rw [List.foldl_cons, ih hid, AList.lookup_erase_ne hne]

/-- A tick moves the expired tasks from the deadlines to the scanner's batch. -/
theorem Covered.scan (h : s.Covered) (hidle : s.scanner = .idle) (now : Time)
    (order : List TaskID) : (s.scan now order).Covered := by
  refine ⟨h.keyed, fun id hid => ?_⟩
  simp only [Held, ClusterServer.scan, Scanner.pending_next]
  by_cases hexp : id ∈ order.filter fun id => (s.inflight.lookup id).any (· < now)
  · exact .inr (.inr (.inl hexp))
  · rw [lookup_foldl_erase hexp]
    obtain hd | ht | hp | hw := h.held id hid
    · exact .inl hd
    · exact .inr (.inl ht)
    · rw [hidle] at hp
      cases hp
    · exact .inr (.inr (.inr hw))

/-- The scanner moves on, from tasks that are not in flight. -/
theorem Covered.scanner (h : s.Covered) {a : Answer}
    (hgo : ∀ id ∈ s.letsGo (.scanner a), s.sm.statusOf id ≠ some .inFlight)
    (hs : s.scannerSection s.scanner a = some s') : s'.Covered := by
  have hmove : ∀ {sc : Scanner}, (∀ id, s.sm.statusOf id = some .inFlight →
      id ∈ s.scanner.pending → id ∈ sc.pending) → { s with scanner := sc }.Covered :=
    fun hsc => h.congr rfl rfl (fun _ ht => ht) hsc id
  have htail : ∀ {x : TaskID} {rest : List TaskID}, s.sm.statusOf x ≠ some .inFlight →
      ∀ id, s.sm.statusOf id = some .inFlight → id ∈ x :: rest →
        id ∈ (Scanner.next rest).pending := by
    intro x rest hx id hid hmem
    rw [Scanner.pending_next]
    obtain rfl | hmem := List.mem_cons.mp hmem
    · exact absurd hid hx
    · exact hmem
  unfold scannerSection at hs
  split at hs
  · rename_i x rest b hsc
    cases hs
    refine hmove fun id hid hmem => ?_
    cases b with
    | true => rwa [hsc] at hmem
    | false =>
      have hall : s.letsGo (.scanner (.isLeader false)) = x :: rest := by simp only [letsGo, hsc]
      rw [hsc] at hmem
      exact absurd hid (hgo id (hall ▸ hmem))
  · rename_i x rest hsc
    cases hs
    rw [hsc] at hmove
    refine hmove ?_
    split
    · exact fun _ _ hmem => hmem
    · rename_i hhas
      refine htail fun hx => hhas ?_
      exact StateMachine.has_iff.mpr ⟨_, hx⟩
  · rename_i x rest p hsc
    obtain ⟨q, hq, rfl⟩ := Option.map_eq_some_iff.mp hs
    rw [proposeSection_eq hq]
    refine (hmove ?_).congr rfl rfl (fun _ ht => ht) (fun _ _ hp => hp) id
    rw [hsc]
    obtain ⟨s₁, prog⟩ := q
    cases prog with
    | more p => exact fun _ _ hmem => hmem
    | committed _ | notLeader | timedOut =>
      refine htail (hgo x ?_)
      simp [letsGo, hsc, hq]
  · cases hs

/-- The watch clears the deadlines and covers every task until it has requeued them. -/
theorem Covered.watcher (h : s.Covered) {a : Answer}
    (hs : s.watcherSection s.watcher a = some s') : s'.Covered := by
  unfold watcherSection at hs
  split at hs
  · rename_i b hwa
    cases hs
    exact h.congr rfl rfl (fun _ ht => ht) (fun _ _ hp => hp) (by rw [hwa]; intro hw; cases hw)
  · rename_i b hwa
    cases hs
    split
    · exact ⟨h.keyed, fun id _ => .inr (.inr (.inr rfl))⟩
    · exact h.congr rfl rfl (fun _ ht => ht) (fun _ _ hp => hp) (by rw [hwa]; intro hw; cases hw)
  · cases hs

/-- After the requeue no task is in flight. -/
theorem Covered.requeue (h : s.Covered) {order : List TaskID}
    (ho : order.Perm s.sm.tasks.keys) :
    { s with sm := s.sm.requeueInFlight order, watcher := .idle }.Covered := by
  refine ⟨h.keyed.requeueInFlight order, fun id hid => ?_⟩
  simp only [StateMachine.statusOf_requeueInFlight h.keyed] at hid
  split at hid
  · cases hid
  · rename_i hnot
    obtain ⟨r, hr, -⟩ := Option.map_eq_some_iff.mp hid
    have hkey : id ∈ s.sm.tasks := AList.lookup_isSome.mp (by rw [hr]; rfl)
    exact absurd ⟨ho.mem_iff.mpr (AList.mem_keys.mp hkey), hid⟩ hnot

/-- A queue in which fewer tasks are in flight. -/
theorem Covered.subset (h : s.Covered) {sm : StateMachine} {al : ApplyLoop} (hkeyed : sm.Keyed)
    (hsub : ∀ id, sm.statusOf id = some .inFlight → s.sm.statusOf id = some .inFlight) :
    { s with sm, applyLoop := al }.Covered :=
  ⟨hkeyed, fun id hid => h.held id (hsub id hid)⟩

/-- The step of the apply loop. -/
theorem Covered.receive (h : s.Covered) {msg : ApplyMsg Payload}
    (hmsg : (Section.receive msg).Plausible) (hs : s.receive msg = some s') : s'.Covered := by
  obtain ⟨sm, rfl, hcases⟩ := receive_cases hs
  obtain ⟨m, st, rfl, hst, rfl⟩ | ⟨index, term, rfl, rfl⟩ | ⟨op, index, term, rfl, rfl⟩ := hcases
  · refine h.subset (StateMachine.keyed_restore _ _) fun id hid => ?_
    rw [StateMachine.statusOf_restore (hmsg st (by rw [hst]; rfl))] at hid
    split at hid <;> cases hid
  · exact h.subset h.keyed fun _ hid => hid
  · exact h.subset (h.keyed.apply op) fun _ hid =>
      (StateMachine.statusOf_apply_inFlight h.keyed hid).1

/-- What the apply loop does besides is of no concern to the deadlines. -/
theorem Covered.applyLoop (h : s.Covered) (hs : s.applyLoopSection cfg s.applyLoop = some s') :
    s'.Covered := by
  obtain ⟨-, rfl⟩ | ⟨index, term, k, al, -, -, rfl⟩ := applyLoopSection_cases hs
  · exact h.congr rfl rfl (fun _ ht => ht) (fun _ _ hp => hp) id
  · rw [wake_eq]
    exact h.congr rfl rfl (fun _ ht => ht) (fun _ _ hp => hp) id

/-! ### Every section -/

/-- **Every step keeps the tasks in flight covered.** -/
theorem Covered.step {e : Section} (h : s.Covered) (he : s.KeepsHold e)
    (hs : serverStep cfg s e = some s') : s'.Covered := by
  simp only [serverStep, Option.ite_none_right_eq_some] at hs
  obtain ⟨hpl, hs⟩ := hs
  cases e with
  | call rpc =>
    cases hs
    exact h.congr rfl rfl (fun _ ht => List.mem_append_left _ ht) (fun _ _ hp => hp) id
  | handler k a =>
    obtain ⟨x, hx, hs⟩ := Option.bind_eq_some_iff.mp hs
    obtain ⟨r, hr, hs⟩ := Option.bind_eq_some_iff.mp hs
    cases hs
    refine h.handler hx hr fun op index hop => he _ ?_
    subst hop
    simp [letsGo, hx]
  | scan now order =>
    obtain ⟨hidle, -, rfl⟩ := step_scan hs
    exact h.scan hidle now order
  | scanner a => exact h.scanner he hs
  | watcher a => exact h.watcher hs
  | requeue order =>
    obtain ⟨ho, rfl⟩ := step_requeue hs
    exact h.requeue ho
  | receive msg =>
    simp only [ClusterServer.step, Option.ite_none_right_eq_some] at hs
    exact h.receive hpl hs.2
  | applyLoop => exact h.applyLoop hs
  | capture order =>
    obtain ⟨-, -, -, rfl⟩ := step_capture hs
    exact h.congr rfl rfl (fun _ ht => ht) (fun _ _ hp => hp) id
  | submit =>
    obtain ⟨-, -, -, rfl⟩ := step_submit hs
    exact h.congr rfl rfl (fun _ ht => ht) (fun _ _ hp => hp) id

end ClusterServer

/-- **No task is stranded.** In a run in which neither `finish` nor the scanner lets go
of a task that is in flight, whenever no goroutine is between two of its sections, every
live task in flight has a redelivery deadline. -/
theorem inFlight_has_deadline {maxRetries : ℤ} {es : List Section}
    (hkeeps : Run.Guarded (serverStep cfg) ClusterServer.KeepsHold (freshServer maxRetries) es)
    (h : Run.exec (serverStep cfg) (freshServer maxRetries) es = some s) (hq : s.Quiescent)
    (hid : s.sm.statusOf id = some .inFlight) :
    ∃ deadline, s.inflight.lookup id = some deadline := by
  have hfresh : (freshServer maxRetries).Covered :=
    ⟨StateMachine.keyed_newStateMachine maxRetries, fun id hid => by cases hid⟩
  have hcov := Run.invariant_of_guarded hfresh (fun u e u' => ClusterServer.Covered.step) hkeeps h
  obtain hd | ⟨t, ht, -⟩ | hp | hw := hcov.held id hid
  · exact Option.isSome_iff_exists.mp hd
  · obtain ⟨r, hr⟩ := hq.handlers _ ht
    cases hr
  · rw [hq.scanner] at hp
    cases hp
  · rw [hq.watcher] at hw
    cases hw

/-- The sections by which the `k`-th RPC's proposal is accepted, applied and answered, up
to the handler's wake-up. -/
def commits (k : ℕ) (op : QueueOp) (index : ℕ) : List Section :=
  [.handler k (.proposed ⟨index, 1, true⟩), .handler k .silent,
    .receive (.command (encodeOp op) index 1), .applyLoop, .handler k .silent]

/-- An enqueue of the task "a", which is then handed out. -/
def deliverA : List Section :=
  .call (.enqueue (some (.named "a")) "" 1) ::
    commits 0 (.enqueue { Task.named "a" with createdAt := 1 }) 2 ++
    [.call .dequeue, .handler 1 (.isLeader true), .handler 1 (.now 10), .handler 1 .silent]

/-- The worker nacks the task; the nack has been applied, and its handler is about to
forget the deadline. -/
def nackA : List Section :=
  [.call (.nack "a"), .handler 2 (.isLeader true), .handler 2 .silent] ++
    commits 2 (.nack "a") 3

/-- Another worker is handed the task. -/
def redeliverA : List Section :=
  [.call .dequeue, .handler 3 (.isLeader true), .handler 3 (.now 20), .handler 3 .silent]

/-- What the runs below look at: whether all RPCs have returned, where the loops are, and
the two records of the task "a". -/
structure Glance where
  returned : Bool
  scanner : Scanner
  watcher : Watcher
  applyLoop : ApplyLoop
  status : Option TaskStatus
  deadline : Option Time
  deriving DecidableEq

/-- What the server has come to, in the end. -/
def glance (s : ClusterServer) : Glance :=
  ⟨s.handlers.all (· matches .returned _), s.scanner, s.watcher, s.applyLoop, s.sm.statusOf "a",
    s.inflight.lookup "a"⟩

theorem quiescent_of_glance {status : Option TaskStatus} {deadline : Option Time}
    (h : glance s = ⟨true, .idle, .idle, .idle, status, deadline⟩) : s.Quiescent := by
  simp only [glance, Glance.mk.injEq, List.all_eq_true] at h
  obtain ⟨hha, hsc, hwa, hal, -⟩ := h
  refine ⟨fun x hx => ?_, hsc, hwa, hal⟩
  have := hha x hx
  split at this
  · exact ⟨_, rfl⟩
  · cases this

/-- The theorem at a task that is delivered again. -/
theorem inFlight_has_deadline_redelivered :
    ∃ s deadline, Run.exec (serverStep plainConfig) (freshServer 3)
      (deliverA ++ nackA ++ [.handler 2 .silent] ++ redeliverA) = some s ∧
      s.inflight.lookup "a" = some deadline := by
  have hend : (Run.exec (serverStep plainConfig) (freshServer 3)
      (deliverA ++ nackA ++ [.handler 2 .silent] ++ redeliverA)).map glance =
      some ⟨true, .idle, .idle, .idle, some .inFlight, some 50⟩ := by
    decide +kernel
  obtain ⟨s, hs, hend⟩ := Option.map_eq_some_iff.mp hend
  have hkeeps : Run.Guarded (serverStep plainConfig) ClusterServer.KeepsHold (freshServer 3)
      (deliverA ++ nackA ++ [.handler 2 .silent] ++ redeliverA) := by
    decide +kernel
  have hid : s.sm.statusOf "a" = some .inFlight := congrArg Glance.status hend
  obtain ⟨deadline, hd⟩ := inFlight_has_deadline hkeeps hs (quiescent_of_glance hend) hid
  exact ⟨s, deadline, hs, hd⟩

/-- **A nack can strand a redelivery.** The worker's nack has been applied and the task
handed out again, to another worker, when the nack's handler forgets the deadline: the
server is at rest, the task is in flight, and nothing will time it out. -/
theorem nack_strands_redelivery :
    ∃ s, Run.exec (serverStep plainConfig) (freshServer 3)
        (deliverA ++ nackA ++ redeliverA ++ [.handler 2 .silent]) = some s ∧ s.Quiescent ∧
      s.sm.statusOf "a" = some .inFlight ∧ s.inflight.lookup "a" = none := by
  have hend : (Run.exec (serverStep plainConfig) (freshServer 3)
      (deliverA ++ nackA ++ redeliverA ++ [.handler 2 .silent])).map glance =
      some ⟨true, .idle, .idle, .idle, some .inFlight, none⟩ := by
    decide +kernel
  obtain ⟨s, hs, hend⟩ := Option.map_eq_some_iff.mp hend
  exact ⟨s, hs, quiescent_of_glance hend, congrArg Glance.status hend,
    congrArg Glance.deadline hend⟩

end Server

end DistQueue
