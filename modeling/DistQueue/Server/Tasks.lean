import DistQueue.Server.Commands
import DistQueue.Server.Proposals
import Mathlib.Algebra.Ring.Int.Defs

/-!
# What becomes of a task

Two promises of the queue to its clients, over all runs of the cluster – whatever crashes,
changes of leadership and snapshots there are in between, snapshots under too small a label
included.

**Nothing is made up.** Every task that a `Dequeue` returns or that is listed as dead on some
server is one that a client has enqueued: it has the payload and the priority of the request,
and its command has been committed (`DistQueue.Server.tasks_were_enqueued`). Replies go through
`toProto`, which cuts the retry count down to 32 bits, so that is the one number of the task that
a client may see wrong.

**Nothing is lost.** Once the `Enqueue` of a task has returned success, the task is on every
server that has got as far as its command – live, or in the dead-letter queue – unless a client
has acked it since (`DistQueue.Server.enqueued_never_lost`). A second task enqueued under the
identifier of a live one is dropped, so this is about identifiers that stand for one task.

Both are properties of the queue that follow the log (`DistQueue.Server.FollowsLog`) and are
inherited by smaller indices, so the rule of `DistQueue.Server.FollowsLog.following` gives them
for all runs.
-/

namespace DistQueue

namespace Server

open Broker Raft Consensus

variable {M : Membership} {a a' : Ledger NodeID (LogEntry Payload)} {n : NodeID}
  {sv sv' : ClusterServer} {cfg : ClusterConfig} {maxRetries : ℤ} {s s' : System}
  {xs : List SystemMove} {T : List (Action Payload)} {q : Queue} {id : TaskID}

/-! ### Every task was enqueued -/

/-- **The task stems from an enqueue** that the run commits: but for the retries it is the task
of the command. -/
def Stems (M : Membership) (T : List (Action Payload)) (d : TaskData) : Prop :=
  ∃ t i e op task, CommittedIn M T t i e ∧ e.command = encodeOp op ∧ op.type = .enqueue ∧
    op.task = some task ∧ { d with retryCount := task.retryCount } = task.data ∧
    task.retryCount ≤ d.retryCount

/-- A retry does not change where a task stems from. -/
theorem Stems.retry {d : TaskData} (h : Stems M T d) :
    Stems M T { d with retryCount := d.retryCount + 1 } := by
  obtain ⟨t, i, e, op, task, hc, he, hty, htask, hdata, hle⟩ := h
  exact ⟨t, i, e, op, task, hc, he, hty, htask, hdata, le_trans hle (Int.le_add_one le_rfl)⟩

theorem Stems.mono {T' : List (Action Payload)} {d : TaskData} (h : Stems M T d) (hT : T <+: T') :
    Stems M T' d := by
  obtain ⟨t, i, e, op, task, hc, hrest⟩ := h
  exact ⟨t, i, e, op, task, hc.mono hT, hrest⟩

/-- All tasks of the queue stem from enqueues, and the live ones are where they belong. -/
def StemQueue (M : Membership) (T : List (Action Payload)) : Queue → Prop :=
  Queue.Each (fun id d => d.id = id ∧ Stems M T d) (Stems M T)

/-- **That all tasks stem from the log is a property that follows it.** -/
theorem followsLog_stemQueue (M : Membership) (T : List (Action Payload)) (maxRetries : ℤ) :
    FollowsLog (fun i command _ => ∃ t e, CommittedIn M T t i e ∧ e.command = command) maxRetries
      fun _ => StemQueue M T :=
  followsLog_each (fun i op _ task ⟨t, e, hc, he⟩ hty htask =>
    ⟨rfl, t, i, e, op, task, hc, he, hty, htask, rfl, le_rfl⟩)
    (fun _ _ hd _ => ⟨hd.1, hd.2.retry⟩) fun _ _ hd => hd.2.retry

/-! ### What a `Dequeue` returns -/

/-- A task of a reply stems from an enqueue. -/
def Replied (M : Membership) (T : List (Action Payload)) (p : ProtoTask) : Prop :=
  ∃ t, toProto t = p ∧ Stems M T t.data

theorem Replied.mono {T' : List (Action Payload)} {p : ProtoTask} (h : Replied M T p)
    (hT : T <+: T') : Replied M T' p := by
  obtain ⟨t, ht, hstem⟩ := h
  exact ⟨t, ht, hstem.mono hT⟩

/-- **The tasks that the handlers have taken** stem from enqueues, in the part of a run that leads
to `T`. -/
theorem replied_of_handler
    (hs : Run.exec (System.step cfg maxRetries M) (System.start maxRetries M) xs = some s)
    (hT : s.trace <+: T) (hn : n ∈ M.ids) {h : Handler} {p : ProtoTask}
    (hh : h ∈ (s.server n).handlers) (hp : h.handed? = some p) : Replied M T p := by
  refine Run.induction (P := fun _ v => v.trace <+: T → ∀ n ∈ M.ids, ∀ h ∈ (v.server n).handlers,
    ∀ p, h.handed? = some p → Replied M T p) (fun _ n _ h hh => by cases hh) ?_ hs hT n hn h hh
    p hp
  intro ys v x v' hv ih hx hT' m hm
  have hTv := (trace_mono hx).trans hT'
  have hold := ih hTv m hm
  have hfol := (followsLog_stemQueue M T maxRetries).following hv hTv
    (fun t i e _ hc => ⟨t, e, hc, rfl⟩) (.inl fun _ _ _ _ hq => hq)
  obtain ⟨a, ha⟩ := (reasoned_run hv).sound
  refine (happens ha.traced.sim (hfol.labelled.mono fun _ _ hd => hd.ne_default) hx m).keeps
    (I := fun _ _ sv => ∀ h ∈ sv.handlers, ∀ p, h.handed? = some p → Replied M T p) hold
    (fun _ h hh => by cases hh) (fun h _ => h) (fun msg sv _ _ _ _ hsv => ?_)
    fun e sv _ he _ hsv h hh p hp => ?_
  · obtain ⟨sm, rfl, -⟩ := ClusterServer.receive_cases hsv
    exact hold
  · obtain ⟨k, hk⟩ := List.mem_iff_getElem?.mp hh
    obtain ⟨h', hh', hp'⟩ | ⟨now, t, -, -, ht, rfl⟩ := handed_of_step he hsv hk hp
    · exact hold h' (List.mem_of_getElem? hh') p hp'
    · obtain ⟨q, hq, hstem⟩ := (hfol.reads m hm).holds
      refine ⟨t, rfl, (hstem.live t.id t.data ?_).2⟩
      rw [← hq.content]
      exact StateMachine.live_of_dequeue ht

/-- The tasks that a server has in its queue stem from enqueues. -/
theorem stemQueue_of_run
    (hs : Run.exec (System.step cfg maxRetries M) (System.start maxRetries M) xs = some s)
    (hn : n ∈ M.ids) : StemQueue M s.trace (s.server n).sm.content := by
  have hfol := (followsLog_stemQueue M s.trace maxRetries).following hs (List.prefix_refl _)
    (fun t i e _ hc => ⟨t, e, hc, rfl⟩) (.inl fun _ _ _ _ hq => hq)
  obtain ⟨q, hq, hstem⟩ := (hfol.reads n hn).holds
  rwa [hq.content]

/-! ### Retry counts -/

/-- **The retry counts of the queue are in range**, and those of the live tasks may grow once
more. -/
def CountsIn (lo hi : ℤ) : Queue → Prop :=
  Queue.Each (fun _ d => lo ≤ d.retryCount ∧ d.retryCount < hi)
    fun d => lo ≤ d.retryCount ∧ d.retryCount ≤ hi

/-- A live task that reaches the maximum is buried, so the others stay below it. -/
theorem followsLog_countsIn (lo : ℤ) {hi : ℤ} (hmax : maxRetries ≤ hi) :
    FollowsLog (fun _ command _ => ∀ op t, command = encodeOp op → op.type = .enqueue →
      op.task = some t → lo ≤ t.retryCount ∧ t.retryCount < hi) maxRetries
      fun _ => CountsIn lo hi :=
  followsLog_each (fun _ op _ t hc hty htask => hc op t rfl hty htask)
    (fun _ d hd hspared => ⟨by dsimp only; omega, by dsimp only; omega⟩)
    fun _ d hd => ⟨by dsimp only; omega, by dsimp only; omega⟩

/-- The counts of requests have 32 bits. -/
theorem fromProto_retryCount (p : ProtoTask) :
    -2 ^ 31 ≤ (fromProto p).retryCount ∧ (fromProto p).retryCount < 2 ^ 31 :=
  ⟨Int32.le_toInt p.retryCount, Int32.toInt_lt p.retryCount⟩

/-- Only an `Enqueue` asks for the enqueue of a task. -/
theorem Reasoned.asked_enqueue (hs : Reasoned M xs s) {τ i : ℕ} {e : LogEntry Payload}
    {op : QueueOp} (hc : CommittedIn M s.trace τ i e) (he : e.command = encodeOp op)
    (hty : op.type = .enqueue) :
    ∃ m t₀ newTaskID now, .serve m (.call (.enqueue (some t₀) newTaskID now)) ∈ xs ∧
      op = .enqueue (enqueuedTask t₀ newTaskID now) := by
  obtain hempty | ⟨op', hop', hasked⟩ := hs.committed τ i e hc
  · rw [he] at hempty
    cases hempty
  obtain rfl : op = op' := Payload.op.inj (he.symm.trans hop')
  obtain ⟨m, rpc, hm, hrpc⟩ | hnack := hasked
  · cases rpc with
    | enqueue task newTaskID now =>
      obtain ⟨t₀, rfl, rfl⟩ := Option.map_eq_some_iff.mp hrpc
      exact ⟨m, t₀, newTaskID, now, hm, rfl⟩
    | dequeue => cases hrpc
    | ack id | nack id =>
      cases hrpc
      cases hty
  · rw [hty] at hnack
    cases hnack

/-- What a client's enqueue makes of a task is known from the task. -/
theorem Stems.asked (hs : Reasoned M xs s) {d : TaskData} (h : Stems M s.trace d) :
    ∃ m t₀ newTaskID now, .serve m (.call (.enqueue (some t₀) newTaskID now)) ∈ xs ∧
      (∃ τ i e, CommittedIn M s.trace τ i e ∧
        e.command = encodeOp (.enqueue (enqueuedTask t₀ newTaskID now))) ∧
      { d with retryCount := t₀.retryCount } = (enqueuedTask t₀ newTaskID now).data ∧
      t₀.retryCount ≤ d.retryCount := by
  obtain ⟨τ, i, e, op, task, hc, he, hty, htask, hdata, hle⟩ := h
  obtain ⟨m, t₀, newTaskID, now, hm, rfl⟩ := hs.asked_enqueue hc he hty
  cases htask
  exact ⟨m, t₀, newTaskID, now, hm, ⟨τ, i, e, hc, he⟩, hdata, hle⟩

/-- **No retry count of a server wraps.** If the maximum is a 64-bit number and all requests
come over the wire, then every count in the queue of every server is a 64-bit number, and that
of a live task is not the greatest one. -/
theorem retryCounts_fit
    (hs : Run.exec (System.step cfg maxRetries M) (System.start maxRetries M) xs = some s)
    (hn : n ∈ M.ids) (hmax : maxRetries < 2 ^ 63)
    (hwire : ∀ m t₀ newTaskID now, .serve m (.call (.enqueue (some t₀) newTaskID now)) ∈ xs →
      ∃ p, t₀ = fromProto p) :
    CountsIn (-2 ^ 63) (2 ^ 63 - 1) (s.server n).sm.content := by
  have hfol := (followsLog_countsIn (-2 ^ 63) (Int.le_sub_one_of_lt hmax)).following hs
    (List.prefix_refl _) ?_ (.inl fun _ _ _ _ hq => hq)
  · obtain ⟨q, hq, hcounts⟩ := (hfol.reads n hn).holds
    rwa [hq.content]
  · intro τ i e _ hc op t he hty htask
    obtain ⟨m, t₀, newTaskID, now, hm, rfl⟩ := (reasoned_run hs).asked_enqueue hc he hty
    cases htask
    obtain ⟨p, rfl⟩ := hwire m t₀ newTaskID now hm
    have hcount := fromProto_retryCount p
    exact ⟨by dsimp only [enqueuedTask]; omega, by dsimp only [enqueuedTask]; omega⟩

/-- The task after `k` retries. -/
def afterRetries (t : Task) (k : ℕ) : Task := { t with retryCount := t.retryCount + k }

/-- The task of a reply is that of an `Enqueue`, after some retries. -/
theorem Replied.asked (hs : Reasoned M xs s) {p : ProtoTask} (h : Replied M s.trace p) :
    ∃ m t₀ newTaskID now, .serve m (.call (.enqueue (some t₀) newTaskID now)) ∈ xs ∧
      (∃ τ i e, CommittedIn M s.trace τ i e ∧
        e.command = encodeOp (.enqueue (enqueuedTask t₀ newTaskID now))) ∧
      ∃ k, p = toProto (afterRetries (enqueuedTask t₀ newTaskID now) k) := by
  obtain ⟨t, rfl, hstem⟩ := h
  obtain ⟨m, t₀, newTaskID, now, hm, hc, hdata, hle⟩ := hstem.asked hs
  refine ⟨m, t₀, newTaskID, now, hm, hc, (t.retryCount - t₀.retryCount).toNat, ?_⟩
  obtain ⟨hid, hpayload, hpriority, hcreated, -⟩ := TaskData.mk.inj hdata
  have hretries : t.retryCount = t₀.retryCount + (t.retryCount - t₀.retryCount).toNat := by
    have hle : t₀.retryCount ≤ t.retryCount := hle
    omega
  simp only [toProto, afterRetries, ProtoTask.mk.injEq]
  exact ⟨hid, hpayload, congrArg Int32.ofInt hpriority, congrArg Int32.ofInt hretries,
    congrArg some hcreated⟩

/-- **Every task was enqueued by a client.** A task in the reply of a `Dequeue` on some node, or in
that of a `ListDLQ`, is the task of an `Enqueue` that a client has sent to some node and whose
command is committed, after some retries, and with its numbers cut down to 32 bits. -/
theorem tasks_were_enqueued {p : ProtoTask}
    (hs : Run.exec (System.step cfg maxRetries M) (System.start maxRetries M) xs = some s)
    (hn : n ∈ M.ids)
    (hp : (∃ k : ℕ, (s.server n).handlers[k]? = some (.returned (.dequeued p))) ∨
      p ∈ (s.server n).listDLQ) :
    ∃ m t₀ newTaskID now, .serve m (.call (.enqueue (some t₀) newTaskID now)) ∈ xs ∧
      (∃ τ i e, CommittedIn M s.trace τ i e ∧
        e.command = encodeOp (.enqueue (enqueuedTask t₀ newTaskID now))) ∧
      ∃ k, p = toProto (afterRetries (enqueuedTask t₀ newTaskID now) k) := by
  refine Replied.asked (reasoned_run hs) ?_
  obtain ⟨k, hk⟩ | hdead := hp
  · exact replied_of_handler hs (List.prefix_refl _) hn (List.mem_of_getElem? hk) rfl
  · obtain ⟨t, ht, rfl⟩ := List.mem_map.mp hdead
    obtain ⟨r, hr, rfl⟩ := List.mem_map.mp ht
    exact ⟨_, rfl, (stemQueue_of_run hs hn).dead _ (List.mem_map.mpr ⟨r, hr, rfl⟩)⟩

/-- The new leader `b` hands out the task `y`, which `a` was asked to enqueue. -/
theorem tasks_were_enqueued_takeover :
    ∃ s p, Run.exec (System.step plainConfig 3 threeNodes) (System.start 3 threeNodes)
        (ackedX ++ lateTakeover) = some s ∧
      (s.server "b").handlers[0]? = some (.returned (.dequeued p)) ∧
      ∃ m t₀ newTaskID now,
        .serve m (.call (.enqueue (some t₀) newTaskID now)) ∈ ackedX ++ lateTakeover ∧
        (∃ τ i e, CommittedIn threeNodes s.trace τ i e ∧
          e.command = encodeOp (.enqueue (enqueuedTask t₀ newTaskID now))) ∧
        ∃ k, p = toProto (afterRetries (enqueuedTask t₀ newTaskID now) k) := by
  have hend : (Run.exec (System.step plainConfig 3 threeNodes) (System.start 3 threeNodes)
      (ackedX ++ lateTakeover)).map (fun s => (s.server "b").handlers[0]?) =
      some (some (.returned (.dequeued ⟨"y", [], 0, 0, some 2⟩))) := by
    decide +kernel
  obtain ⟨s, hs, hret⟩ := Option.map_eq_some_iff.mp hend
  exact ⟨s, _, hs, hret, tasks_were_enqueued hs (by decide) (.inl ⟨0, hret⟩)⟩

/-- A request keeps its priority, which has 32 bits, and its payload in every reply; the retry
count may run over. -/
example (p : ProtoTask) (k : ℕ) :
    (toProto (afterRetries (fromProto p) k)).priority = p.priority := by
  simp [toProto, afterRetries, fromProto]

example : (toProto (afterRetries (fromProto ⟨"a", [], 0, 2147483647, none⟩) 1)).retryCount =
    -2147483648 := by
  decide

/-! ### No enqueued task is lost -/

/-- The task is live, or dead. -/
def InQueue (id : TaskID) (q : Queue) : Prop := (q.live id).isSome ∨ ∃ d ∈ q.dlq, d.id = id

/-- From the index on, the task is in the queue. -/
structure Retains (id : TaskID) (i₀ i : ℕ) (q : Queue) : Prop where
  keyed : q.Keyed
  has : i₀ ≤ i → InQueue id q

/-- The command at the index enqueues the task, and no later one acks it. -/
def Outstanding (id : TaskID) (i₀ i : ℕ) (command : Payload) : Prop :=
  (i = i₀ → Enqueues id command) ∧ (i₀ < i → ¬Acks id command)

/-- The other tasks are not concerned. -/
theorem InQueue.set {id' : TaskID} {d : Option TaskData} (h : InQueue id q)
    (hd : id' = id → d.isSome) : InQueue id (q.set id' d) := by
  by_cases heq : id' = id
  · subst heq
    left
    rw [Queue.set_live_self]
    exact hd rfl
  · refine h.imp_left fun hlive => ?_
    rwa [Queue.set_live_of_ne _ _ (Ne.symm heq)]

/-- An enqueue puts the task into the queue, unless it is there. -/
theorem inQueue_apply_of_enqueues {op : QueueOp} (hid : id ≠ "") (hop : Enqueues id (.op op)) :
    InQueue id (q.apply maxRetries op) := by
  obtain ⟨hty, htask⟩ := hop
  obtain ⟨t, ht, rfl⟩ := Option.map_eq_some_iff.mp htask
  left
  unfold Queue.apply
  simp only [hty, ht, Option.elim_some]
  split
  · rename_i hdrop
    exact hdrop.resolve_left hid
  · rw [Queue.set_live_self]
    rfl

/-- A command that does not ack the task leaves it in the queue. -/
theorem InQueue.apply {op : QueueOp} (h : InQueue id q) (hkeyed : q.Keyed)
    (hop : ¬Acks id (.op op)) : InQueue id (q.apply maxRetries op) := by
  obtain ⟨heq, -⟩ | ⟨t, -, -, heq⟩ | ⟨hty, heq⟩ | ⟨d, hd, ⟨-, heq⟩ | heq⟩ :=
    q.apply_cases maxRetries op <;> rw [heq]
  · exact h
  · exact h.set fun _ => rfl
  · have hne : op.taskID ≠ id := fun hid => hop ⟨hty, hid⟩
    exact h.set fun hid => absurd hid hne
  · exact InQueue.set (q := { q with nacked := q.nacked + 1 }) h fun _ => rfl
  · -- the task that is buried is in the dead-letter queue afterwards
    by_cases hid : op.taskID = id
    · exact .inr ⟨_, List.mem_append_right _ (List.mem_singleton_self _),
        (hkeyed _ d hd).trans hid⟩
    · have hset := h.set (d := none) fun heq => absurd heq hid
      exact hset.imp_right fun ⟨d', hd', hid'⟩ => ⟨d', List.mem_append_left _ hd', hid'⟩

/-- **So is that a task is retained, from its index on.** -/
theorem followsLog_retains {i₀ : ℕ} (hid : id ≠ "") (hpos : 0 < i₀) (maxRetries : ℤ) :
    FollowsLog (fun i command _ => Outstanding id i₀ i command) maxRetries (Retains id i₀) where
  empty := ⟨fun _ _ h => (by cases h), fun h => absurd h (by omega)⟩
  noop i q hc h := by
    refine ⟨h.keyed, fun hi => ?_⟩
    -- a no-op is not the enqueue
    rcases eq_or_ne (i + 1) i₀ with heq | hne
    · exact (hc.1 heq).elim
    · exact h.has (by omega)
  apply i q op hc h := by
    refine ⟨h.keyed.apply op, fun hi => ?_⟩
    rcases eq_or_ne (i + 1) i₀ with heq | hne
    · exact inQueue_apply_of_enqueues hid (hc.1 heq)
    · exact (h.has (by omega)).apply h.keyed (hc.2 (by omega))
  nacked i q k h := ⟨h.keyed, h.has⟩

/-! ### What the return of an `Enqueue` means -/

/-- The command enqueues this very task. -/
def EnqueuesTask (t : Task) : Payload → Prop
  | .op op => op.type = .enqueue ∧ op.task = some t
  | _ => False

/-- To enqueue the task is to enqueue its identifier. -/
theorem EnqueuesTask.enqueues {t : Task} {command : Payload} (h : EnqueuesTask t command) :
    Enqueues t.id command := by
  cases command with
  | op op => exact ⟨h.1, by rw [h.2]; rfl⟩
  | empty | state => exact h.elim

/-- The enqueue whose success a handler has reported is decided, at the index it was proposed
for. -/
def Promised (a : Ledger NodeID (LogEntry Payload)) (sv : ClusterServer) : Prop :=
  ∀ t index, .returned (.enqueued t index) ∈ sv.handlers →
    ∃ term op, EnqueuesTask t (encodeOp op) ∧ Decided a ⟨index, term, encodeOp op⟩

theorem Promised.mono (h : Promised a sv) (hle : Le a a') : Promised a' sv := by
  intro t index ht
  obtain ⟨term, op, hop, hd⟩ := h t index ht
  exact ⟨term, op, hop, hd.mono hle⟩

/-- An `Enqueue` reports success when its call of `propose` does. -/
theorem enqueued_of_handlerSection {h : Handler} {ans : Answer} {q : ClusterServer × Handler}
    {t : Task} {index : ℕ} (hq : sv.handlerSection cfg h ans = some q)
    (hret : q.2 = .returned (.enqueued t index)) :
    ∃ op term c, h = .proposing op (.waiting index term c) ∧
      sv.channel c = some term ∧ EnqueuesTask t (encodeOp op) := by
  unfold ClusterServer.handlerSection at hq
  split at hq
  case h_6 op p =>
    obtain ⟨r, hr, rfl⟩ := Option.map_eq_some_iff.mp hq
    have hnot : ∀ o, ClusterServer.afterPropose op o = .returned (.enqueued t index) →
        o = .committed index ∧ EnqueuesTask t (encodeOp op) := by
      intro o ho
      unfold ClusterServer.afterPropose at ho
      split at ho
      · cases ho
      · split at ho
        · rename_i hty htask
          cases ho
          exact ⟨rfl, hty, htask⟩
        · cases ho
      · cases ho
      · cases ho
    obtain ⟨hcommitted, henq⟩ := hnot r.2 hret
    obtain ⟨t, -, -, rfl⟩ | ⟨i, u, -, -, rfl⟩ | ⟨i, u, c, out, rfl, -, hout, rfl⟩ |
      ⟨i, u, c, -, -, rfl⟩ := proposeSection_cases hr
    · dsimp only at hcommitted
      split at hcommitted <;> cases hcommitted
    · cases hcommitted
    · dsimp only at hcommitted
      split at hcommitted
      · rename_i heq
        cases hcommitted
        exact ⟨op, u, c, rfl, heq ▸ hout, henq⟩
      · cases hcommitted
    · cases hcommitted
  case h_9 => cases hq
  all_goals obtain rfl := Option.some.inj hq
  case h_2 =>
    unfold ClusterServer.takeTask at hret
    dsimp only at hret
    split at hret <;> cases hret
  case h_3 | h_7 | h_8 => cases hret
  all_goals
    dsimp only at hret
    split at hret <;> cases hret

theorem begin_ne_enqueued (rpc : Rpc) (t : Task) (index : ℕ) :
    rpc.begin ≠ .returned (.enqueued t index) := by
  unfold Rpc.begin
  split <;> simp

/-- **A server says that a task is enqueued only once its entry is decided.** -/
theorem Promised.step {e : Section} (h : Promised a sv) (hgood : Good M a)
    (hans : Answers a n sv) (he : ∀ msg, e ≠ .receive msg) (hs : sv.step cfg e = some sv') :
    Promised a sv' := by
  intro t index hid
  obtain ⟨rpc, rfl⟩ | ⟨k, ans, rfl⟩ | hsame := (keeps_of_step he hs).handlers
  · cases hs
    obtain hid | hid := List.mem_append.mp hid
    · exact h t index hid
    · exact absurd (List.mem_singleton.mp hid).symm (begin_ne_enqueued rpc t index)
  · obtain ⟨y, hy, hs⟩ := Option.bind_eq_some_iff.mp hs
    obtain ⟨q, hq, hs⟩ := Option.bind_eq_some_iff.mp hs
    cases hs
    rw [(handlerSection_cases hq).1] at hid
    obtain hid | hid := List.mem_or_eq_of_mem_set hid
    · exact h t index hid
    · -- the entry that the handler has waited for is its own
      obtain ⟨op, term, c, rfl, hc, henq⟩ := enqueued_of_handlerSection hq hid.symm
      have hmem := List.mem_of_getElem? hy
      have hdel := (hans.waiting op index term c hmem).2.2 term hc
      exact ⟨term, op, henq, InLog.decided hgood (hans.handler _ hmem) hdel⟩
  · rw [hsame] at hid
    exact h t index hid

/-- **What an `Enqueue` reports is so**, in every run. -/
theorem exists_promised
    (hs : Run.exec (System.step cfg maxRetries M) (System.start maxRetries M) xs = some s) :
    ∃ a, Honest M s a ∧ ∀ n ∈ M.ids, Promised a (s.server n) := by
  refine Run.invariant (P := fun v => ∃ a, Honest M v a ∧ ∀ n ∈ M.ids, Promised a (v.server n))
    ?_ ?_ hs
  · obtain ⟨a, ha⟩ := honest_start maxRetries M
    exact ⟨a, ha, fun n _ t index hid => by cases hid⟩
  · rintro v x v' ⟨b, hb, hprom⟩ hx
    obtain ⟨b', hle, hb'⟩ := hb.step hx
    refine ⟨b', hb', fun n hn => ?_⟩
    have hold := (hprom n hn).mono hle
    refine (happens hb.sound.traced.sim hb.labelled hx n).keeps
      (I := fun _ _ sv => Promised b' sv) hold (fun _ t index hid => by cases hid) (fun h _ => h)
      (fun msg sv _ _ _ _ hsv => ?_) fun e sv _ he _ hsv => ?_
    · obtain ⟨sm, rfl, -⟩ := ClusterServer.receive_cases hsv
      exact hold
    · exact hold.step hb'.sound.traced.sim.good ((hb.sound.answers n hn).mono hle) he hsv

/-- A client has asked for every ack that is committed. -/
theorem Reasoned.asked_ack (h : Reasoned M xs s) {t i : ℕ} {e : LogEntry Payload}
    (hc : CommittedIn M s.trace t i e) (he : Acks id e.command) : Asked xs (.ack id) := by
  obtain hempty | ⟨op, hop, hasked⟩ := h.committed t i e hc
  · rw [hempty] at he
    exact he.elim
  rw [hop] at he
  obtain ⟨hty, rfl⟩ := he
  obtain ⟨m, rpc, hm, hrpc⟩ | hnack := hasked
  · refine ⟨m, rpc, hm, hrpc.trans ?_⟩
    cases rpc with
    | enqueue task newTaskID now =>
      obtain ⟨t₀, -, rfl⟩ := Option.map_eq_some_iff.mp hrpc
      cases hty
    | dequeue => cases hrpc
    | ack id =>
      cases hrpc
      rfl
    | nack id =>
      cases hrpc
      cases hty
  · rw [hty] at hnack
    cases hnack

/-- The two are one task for a client: identifier, payload and priority are the same. -/
def SameTask (t t' : Task) : Prop :=
  t'.id = t.id ∧ t'.payload = t.payload ∧ t'.priority = t.priority

instance (t t' : Task) : Decidable (SameTask t t') :=
  inferInstanceAs (Decidable (_ ∧ _ ∧ _))

/-- **The queue has the task**, live or dead-lettered. -/
def HasTask (sm : StateMachine) (t : Task) : Prop :=
  ∃ t', ((∃ r, sm.tasks.lookup t.id = some r ∧ sm.store r = t') ∨ t' ∈ sm.listDLQ) ∧ SameTask t t'

/-- The task that a client's request asks to enqueue, as its command has it. -/
def SystemMove.requested? : SystemMove → Option Task
  | .serve _ (.call (.enqueue (some t) newTaskID now)) => some (enqueuedTask t newTaskID now)
  | _ => none

/-- **The identifier stands for one task**: every request of the run that enqueues under the
identifier of `t` enqueues `t`. -/
def Identifies (xs : List SystemMove) (t : Task) : Prop :=
  ∀ t' ∈ xs.filterMap SystemMove.requested?, t'.id = t.id → SameTask t t'

instance (xs : List SystemMove) (t : Task) : Decidable (Identifies xs t) :=
  inferInstanceAs (Decidable (∀ t' ∈ _, _ → _))

/-- What stems from an enqueue under the identifier is the task that the identifier stands for. -/
theorem Stems.sameTask (hs : Reasoned M xs s) {d : TaskData} {t : Task} (h : Stems M s.trace d)
    (hone : Identifies xs t) (hid : d.id = t.id) :
    d.payload = t.payload ∧ d.priority = t.priority := by
  obtain ⟨m, t₀, newTaskID, now, hm, -, hdata, -⟩ := h.asked hs
  obtain ⟨hid', hpayload, hpriority, -, -⟩ := TaskData.mk.inj hdata
  have hreq : enqueuedTask t₀ newTaskID now ∈ xs.filterMap SystemMove.requested? :=
    List.mem_filterMap.mpr ⟨_, hm, rfl⟩
  obtain ⟨-, hp, hpr⟩ := hone _ hreq (hid'.symm.trans hid)
  exact ⟨hpayload.trans hp, hpriority.trans hpr⟩

/-- **The task of an `Enqueue` that has returned success**: its command is committed at the index
of the call, and a server that has got there has the task, unless an ack of it is committed
after it. -/
theorem retained_or_acked {as bs : List SystemMove} {u w : System} {m : NodeID} {t : Task} {i : ℕ}
    (hu : Run.exec (System.step cfg maxRetries M) (System.start maxRetries M) as = some u)
    (hm : m ∈ M.ids) (hret : .returned (.enqueued t i) ∈ (u.server m).handlers) (hid : t.id ≠ "")
    (hw : Run.exec (System.step cfg maxRetries M) u bs = some w)
    (hone : Identifies (as ++ bs) t) :
    (∃ τ e, CommittedIn M u.trace τ i e ∧ EnqueuesTask t e.command) ∧
      ∀ n ∈ M.ids, i ≤ w.applied n → HasTask (w.server n).sm t ∨
        ∃ τ j e, i < j ∧ CommittedIn M w.trace τ j e ∧ Acks t.id e.command := by
  obtain ⟨a, ha, hprom⟩ := exists_promised hu
  obtain ⟨term, op, henq, hpos, τ, P, hP, hk⟩ := hprom m hm t i hret
  obtain ⟨τ', -, hc⟩ := ha.sound.traced.committed hP hk
  rw [Nat.sub_add_cancel hpos] at hc
  refine ⟨⟨τ', _, hc, henq⟩, fun n hn hle => ?_⟩
  have hrun : Run.exec (System.step cfg maxRetries M) (System.start maxRetries M) (as ++ bs) =
      some w := by
    rw [Run.exec_append, hu, Option.bind_some, hw]
  by_cases hack : ∃ τ j e, i < j ∧ CommittedIn M w.trace τ j e ∧ Acks t.id e.command
  · exact .inr hack
  · obtain ⟨a', ha'⟩ := (reasoned_run hrun).sound
    have hC : ∀ τ j e (_ : Queue), CommittedIn M w.trace τ j e →
        Outstanding t.id i j e.command := by
      refine fun τ j e _ hcj => ⟨?_, fun hlt hacks => hack ⟨τ, j, e, hlt, hcj, hacks⟩⟩
      rintro rfl
      rw [ha'.committedIn_unique hcj (hc.mono (trace_le_of_exec hw))]
      exact henq.enqueues
    have hfol := (followsLog_retains hid hpos maxRetries).following hrun (List.prefix_refl _) hC
      (.inl fun i j q hij h => ⟨h.keyed, fun hi => h.has (le_trans hi hij)⟩)
    obtain ⟨q, hq, hret⟩ := (hfol.reads n hn).holds
    obtain rfl := hq.content
    have hreasoned := reasoned_run hrun
    have hstem := stemQueue_of_run hrun hn
    obtain hlive | ⟨d, hd, hdid⟩ := hret.has hle
    · obtain ⟨d, hd⟩ := Option.isSome_iff_exists.mp hlive
      obtain ⟨r, hr, rfl⟩ := Option.map_eq_some_iff.mp hd
      obtain ⟨hdid, hstems⟩ := hstem.live _ _ hd
      exact .inl ⟨_, .inl ⟨r, hr, rfl⟩, hdid, hstems.sameTask hreasoned hone hdid⟩
    · obtain ⟨r, hr, rfl⟩ := List.mem_map.mp hd
      exact .inl ⟨_, .inr (List.mem_map.mpr ⟨r, hr, rfl⟩), hdid,
        (hstem.dead _ hd).sameTask hreasoned hone hdid⟩

/-- **No enqueued task is lost.** An `Enqueue` has returned success, in the state `u`, for the task
`t`, and in the whole run clients enqueue under its identifier nothing but this task. Its command
is committed at the index `i` for which the call has proposed it. In every later state, every
server that has got to this index has the task, live or dead-lettered – unless an ack of the task,
for which a client has asked, is committed after this index. -/
theorem enqueued_never_lost {as bs : List SystemMove} {u w : System} {m : NodeID} {k : ℕ}
    {t : Task} {i : ℕ}
    (hu : Run.exec (System.step cfg maxRetries M) (System.start maxRetries M) as = some u)
    (hm : m ∈ M.ids) (hret : (u.server m).handlers[k]? = some (.returned (.enqueued t i)))
    (hid : t.id ≠ "") (hw : Run.exec (System.step cfg maxRetries M) u bs = some w)
    (hone : Identifies (as ++ bs) t) :
    (∃ τ e, CommittedIn M u.trace τ i e ∧ EnqueuesTask t e.command) ∧
      ∀ n ∈ M.ids, i ≤ w.applied n → HasTask (w.server n).sm t ∨
        Asked (as ++ bs) (.ack t.id) ∧
          ∃ τ j e, i < j ∧ CommittedIn M w.trace τ j e ∧ Acks t.id e.command := by
  obtain ⟨hc, hall⟩ := retained_or_acked hu hm (List.mem_of_getElem? hret) hid hw hone
  have hrun : Run.exec (System.step cfg maxRetries M) (System.start maxRetries M) (as ++ bs) =
      some w := by
    rw [Run.exec_append, hu, Option.bind_some, hw]
  refine ⟨hc, fun n hn hle => (hall n hn hle).imp_right fun hack => ?_⟩
  have hback := hack
  obtain ⟨τ, j, e, -, hcj, hacks⟩ := hack
  exact ⟨(reasoned_run hrun).asked_ack hcj hacks, hback⟩

/-- The `Enqueue` of `x` returns at `a`. -/
def returnedX : List SystemMove := ackedX.take 26 ++ [.serve "a" (.handler 0 .silent)]

/-- `b` learns what is committed, and applies it. -/
def appliedB : List SystemMove :=
  clusterActs (replicationTo "a" "b" 3 2) ++ applying "b" enqueueMsgs

/-- The task `x` as it is enqueued. -/
def taskX : Task := { Task.named "x" with createdAt := 1 }

/-- The theorem at another server, which has applied the command. -/
theorem enqueued_never_lost_appliedB :
    ∃ u w, Run.exec (System.step plainConfig 3 threeNodes) (System.start 3 threeNodes) returnedX =
        some u ∧ (u.server "a").handlers[0]? = some (.returned (.enqueued taskX 2)) ∧
      Run.exec (System.step plainConfig 3 threeNodes) u appliedB = some w ∧ w.applied "b" = 3 ∧
      (∃ τ e, CommittedIn threeNodes u.trace τ 2 e ∧ EnqueuesTask taskX e.command) ∧
      ∀ n ∈ threeNodes.ids, 2 ≤ w.applied n → HasTask (w.server n).sm taskX ∨
        Asked (returnedX ++ appliedB) (.ack "x") ∧
          ∃ τ j e, 2 < j ∧ CommittedIn threeNodes w.trace τ j e ∧ Acks "x" e.command := by
  have hend : ((Run.exec (System.step plainConfig 3 threeNodes) (System.start 3 threeNodes)
      returnedX).bind fun u => (Run.exec (System.step plainConfig 3 threeNodes) u appliedB).map
        fun w => ((u.server "a").handlers[0]?, w.applied "b")) =
      some (some (.returned (.enqueued taskX 2)), 3) := by
    decide +kernel
  obtain ⟨u, hu, hend⟩ := Option.bind_eq_some_iff.mp hend
  obtain ⟨w, hw, hend⟩ := Option.map_eq_some_iff.mp hend
  obtain ⟨hret, happlied⟩ := Prod.mk.inj hend
  exact ⟨u, w, hu, hret, hw, happlied,
    enqueued_never_lost hu (by decide) hret (by decide) hw (by decide +kernel)⟩

end Server

end DistQueue
