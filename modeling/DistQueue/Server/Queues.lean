import DistQueue.Broker.Convergence
import DistQueue.Server.Answers

/-!
# The queues of the servers

A server gets its queue from the log: command after command, and now and then as a whole, by a
snapshot that another server has captured – or its own, after a crash. Dequeues, timeouts and
changes of leadership leave the queue proper alone, so whatever holds of the queue at an index
can be shown on the log by itself: for the empty queue, and for one command more
(`DistQueue.Server.FollowsLog`). That it then holds of the queue of every server, as far as the
server has got, and of every snapshot there is in the cluster, is shown here once
(`DistQueue.Server.FollowsLog.following`).

A crash between the two writes of a snapshot leaves it under the label of an earlier one. What
is to survive that has to be inherited by smaller indices; otherwise the rule is about the runs
without such a crash (`DistQueue.Server.System.WritesWhole`).

The rule is used here to say what the servers are for: in a run without such a crash every
server holds the queue that the committed commands define, up to the index it has got to
(`DistQueue.Server.servers_replay_log`), and any two servers that have got to the same index, at
whatever times, hold the same one (`DistQueue.Server.servers_agree`). The number of nacks, which
no snapshot contains, is the one exception.
-/

namespace DistQueue

namespace Server

open Broker Raft Consensus

variable {M : Membership} {a : Ledger NodeID (LogEntry Payload)} {n : NodeID}
  {sv sv' : ClusterServer} {cfg : ClusterConfig} {maxRetries : ℤ} {s s' : System}
  {C : ℕ → Payload → Queue → Prop} {K : ℕ → Queue → Prop}
  {ch ch' : List (ApplyMsg Payload)} {r : ℕ}

/-! ### Sections and the queue -/

/-- The index that the apply loop is working on. -/
def ApplyLoop.index? : ApplyLoop → Option ℕ
  | .applied index _ | .snapshotting index => some index
  | .idle | .restored | .captured _ _ => none

/-- After a message, the apply loop works on the index that the message has brought. -/
theorem index?_loopAfter {msg : ApplyMsg Payload} (hmsg : ch[r]? = some msg) :
    ∀ j, (loopAfter msg).index? = some j → j = progress (ch.take (r + 1)) := by
  intro j hj
  rw [progress_take_succ hmsg]
  cases msg with
  | snapshot m => cases hj
  | command command index term => exact (Option.some.inj hj).symm

/-- The task a handler of `Dequeue` has taken, as it is in the reply. -/
def Handler.handed? : Handler → Option ProtoTask
  | .dequeueTaken t => some (toProto t)
  | .returned (.dequeued p) => some p
  | _ => none

theorem handed?_afterPropose (op : QueueOp) (p : Progress) :
    (ClusterServer.afterPropose op p).handed? = none := by
  unfold ClusterServer.afterPropose
  split
  · rfl
  · split <;> rfl
  · rfl
  · rfl

theorem handed?_begin (rpc : Rpc) : rpc.begin.handed? = none := by
  unfold Rpc.begin
  split <;> rfl

/-- The section in which a handler takes its task. -/
theorem handed?_takeTask {now : Time} {p : ProtoTask}
    (h : (sv.takeTask cfg now).2.handed? = some p) :
    ∃ t, (sv.sm.dequeue (now + cfg.taskTimeout)).1 = some t ∧ toProto t = p := by
  unfold ClusterServer.takeTask at h
  dsimp only at h
  split at h
  · rename_i t ht
    exact ⟨t, ht, Option.some.inj h⟩
  · cases h

/-- The queue changes, and tasks come to a handler, in one section only. -/
theorem handlerSection_cases {x : Handler} {ans : Answer} {q : ClusterServer × Handler}
    (h : sv.handlerSection cfg x ans = some q) :
    q.1.handlers = sv.handlers ∧ q.1.applyLoop = sv.applyLoop ∧
      ((q.1.sm = sv.sm ∧ ∀ t, q.2.handed? = some t → x.handed? = some t) ∨
        ∃ now, x = .dequeueChecked ∧ ans = .now now ∧ q = sv.takeTask cfg now) := by
  unfold ClusterServer.handlerSection at h
  split at h
  case h_2 now =>
    cases h
    exact ⟨rfl, rfl, .inr ⟨now, rfl, rfl, rfl⟩⟩
  case h_6 =>
    obtain ⟨q, hq, rfl⟩ := Option.map_eq_some_iff.mp h
    rw [ClusterServer.proposeSection_eq hq]
    refine ⟨rfl, rfl, .inl ⟨rfl, fun t ht => ?_⟩⟩
    rw [handed?_afterPropose] at ht
    cases ht
  case h_9 => cases h
  all_goals
    cases h
    refine ⟨rfl, rfl, .inl ⟨rfl, fun t ht => ?_⟩⟩
  case h_3 => exact ht
  case h_7 | h_8 => cases ht
  all_goals
    dsimp only at ht
    split at ht <;> cases ht

/-- **What a section does to the queue**, unless it receives a message: it hands out a
task, or takes all of them back, or captures it. The apply loop gets no further, and the
loops have no part in the handlers. -/
structure Keeps (sv sv' : ClusterServer) (e : Section) : Prop where
  queue : sv'.sm = sv.sm ∨ (∃ deadline, sv'.sm = (sv.sm.dequeue deadline).2) ∨
    ∃ order, sv'.sm = sv.sm.requeueInFlight order
  index : ∀ index, sv'.applyLoop.index? = some index → sv.applyLoop.index? = some index
  captured : ∀ index st, sv'.applyLoop = .captured index st → sv.applyLoop = .captured index st ∨
    sv.applyLoop = .snapshotting index ∧ ∃ order, order.Perm sv.sm.tasks.keys ∧
      st = sv.sm.snapshot order
  handlers : (∃ rpc, e = .call rpc) ∨ (∃ k ans, e = .handler k ans) ∨ sv'.handlers = sv.handlers

theorem Keeps.of_eq {e : Section} (hsm : sv'.sm = sv.sm) (hal : sv'.applyLoop = sv.applyLoop)
    (hh : (∃ rpc, e = .call rpc) ∨ (∃ k ans, e = .handler k ans) ∨ sv'.handlers = sv.handlers) :
    Keeps sv sv' e :=
  ⟨.inl hsm, hal ▸ fun _ h => h, hal ▸ fun _ _ h => .inl h, hh⟩

/-- The apply loop moves on, and captures nothing. -/
theorem Keeps.loop {e : Section} (hsm : sv'.sm = sv.sm)
    (hindex : ∀ index, sv'.applyLoop.index? = some index → sv.applyLoop.index? = some index)
    (hcap : ∀ index st, sv'.applyLoop ≠ .captured index st) (hh : sv'.handlers = sv.handlers) :
    Keeps sv sv' e :=
  ⟨.inl hsm, hindex, fun index st h => absurd h (hcap index st), .inr (.inr hh)⟩

/-- **Only a message from the channel changes the machine.** -/
theorem keeps_of_step {e : Section} (he : ∀ msg, e ≠ .receive msg)
    (h : sv.step cfg e = some sv') : Keeps sv sv' e := by
  cases e with
  | call rpc =>
    cases h
    exact .of_eq rfl rfl (.inl ⟨rpc, rfl⟩)
  | handler k ans =>
    obtain ⟨x, -, h⟩ := Option.bind_eq_some_iff.mp h
    obtain ⟨q, hq, h⟩ := Option.bind_eq_some_iff.mp h
    cases h
    obtain ⟨-, hal, ⟨hsm, -⟩ | ⟨now, -, -, rfl⟩⟩ := handlerSection_cases hq
    · exact .of_eq hsm hal (.inr (.inl ⟨k, ans, rfl⟩))
    · exact ⟨.inr (.inl ⟨_, rfl⟩), fun _ h => h, fun _ _ h => .inl h, .inr (.inl ⟨k, ans, rfl⟩)⟩
  | scan now order =>
    obtain ⟨-, -, rfl⟩ := ClusterServer.step_scan h
    exact .of_eq rfl rfl (.inr (.inr rfl))
  | scanner ans =>
    rw [ClusterServer.scannerSection_eq h]
    exact .of_eq rfl rfl (.inr (.inr rfl))
  | watcher ans =>
    rw [ClusterServer.watcherSection_eq h]
    exact .of_eq rfl rfl (.inr (.inr rfl))
  | requeue order =>
    obtain ⟨-, rfl⟩ := ClusterServer.step_requeue h
    exact ⟨.inr (.inr ⟨order, rfl⟩), fun _ h => h, fun _ _ h => .inl h, .inr (.inr rfl)⟩
  | receive msg => exact absurd rfl (he msg)
  | applyLoop =>
    obtain ⟨-, rfl⟩ | ⟨index, term, k, al, hal, hidle, rfl⟩ :=
      ClusterServer.applyLoopSection_cases h
    · exact .loop rfl (by simp [ApplyLoop.index?]) (by simp) rfl
    · rw [ClusterServer.wake_eq]
      obtain rfl | rfl := hidle
      · exact .loop rfl (by simp [ApplyLoop.index?, hal]) (by simp) rfl
      · exact .loop rfl (by simp [ApplyLoop.index?]) (by simp) rfl
  | capture order =>
    obtain ⟨index, hal, ho, rfl⟩ := ClusterServer.step_capture h
    refine ⟨.inl rfl, by simp [ApplyLoop.index?], fun index' st hcap => .inr ?_, .inr (.inr rfl)⟩
    cases hcap
    exact ⟨hal, order, ho, rfl⟩
  | submit =>
    obtain ⟨-, -, -, rfl⟩ := ClusterServer.step_submit h
    exact .loop rfl (by simp [ApplyLoop.index?]) (by simp) rfl

/-- **A handler gets its task from the queue**, in the section in which it takes it. -/
theorem handed_of_step {e : Section} {k : ℕ} {h : Handler} {p : ProtoTask}
    (he : ∀ msg, e ≠ .receive msg) (hs : sv.step cfg e = some sv')
    (hh : sv'.handlers[k]? = some h) (hp : h.handed? = some p) :
    (∃ h', sv.handlers[k]? = some h' ∧ h'.handed? = some p) ∨
      ∃ now t, e = .handler k (.now now) ∧ sv.handlers[k]? = some .dequeueChecked ∧
        (sv.sm.dequeue (now + cfg.taskTimeout)).1 = some t ∧ toProto t = p := by
  obtain ⟨rpc, rfl⟩ | ⟨k', ans, rfl⟩ | hsame := (keeps_of_step he hs).handlers
  · cases hs
    rw [List.getElem?_append] at hh
    split at hh
    · exact .inl ⟨h, hh, hp⟩
    · rw [List.mem_singleton.mp (List.mem_of_getElem? hh), handed?_begin] at hp
      cases hp
  · obtain ⟨y, hy, hs⟩ := Option.bind_eq_some_iff.mp hs
    obtain ⟨q, hq, hs⟩ := Option.bind_eq_some_iff.mp hs
    cases hs
    obtain ⟨hhs, -, hcases⟩ := handlerSection_cases hq
    rw [hhs] at hh
    rcases eq_or_ne k' k with rfl | hne
    · rw [List.getElem?_set_self (List.getElem?_eq_some_iff.mp hy).1] at hh
      cases hh
      obtain ⟨-, hold⟩ | ⟨now, rfl, rfl, rfl⟩ := hcases
      · exact .inl ⟨y, hy, hold p hp⟩
      · obtain ⟨t, ht, hp⟩ := handed?_takeTask hp
        exact .inr ⟨now, t, rfl, hy, ht, hp⟩
    · rw [List.getElem?_set_ne hne] at hh
      exact .inl ⟨h, hh, hp⟩
  · exact .inl ⟨h, hsame ▸ hh, hp⟩

/-! ### The rule -/

/-- **`K` follows the log**: it holds of the empty queue at index `0`, and one command further
if it holds at an index. What is known of the command at an index, and of the queue that it
comes to, is `C`. -/
structure FollowsLog (C : ℕ → Payload → Queue → Prop) (maxRetries : ℤ) (K : ℕ → Queue → Prop) :
    Prop where
  empty : K 0 .empty
  noop : ∀ i q, C (i + 1) .empty q → K i q → K (i + 1) q
  apply : ∀ i q op, C (i + 1) (.op op) q → K i q → K (i + 1) (q.apply maxRetries op)
  /-- Snapshots do not contain the number of nacks. -/
  nacked : ∀ i q k, K i q → K i { q with nacked := k }

/-- **What is true of every task follows the log**, if it is true of the tasks that are enqueued
and retries do not change it. -/
theorem followsLog_each {P : TaskID → TaskData → Prop} {D : TaskData → Prop}
    (hnew : ∀ i op q t, C i (.op op) q → op.type = .enqueue → op.task = some t → P t.id t.data)
    (hretry : ∀ id (d : TaskData), P id d → d.retryCount + 1 < maxRetries →
      P id { d with retryCount := d.retryCount + 1 })
    (hbury : ∀ id d, P id d → D { d with retryCount := d.retryCount + 1 }) :
    FollowsLog C maxRetries fun _ => Queue.Each P D where
  empty := ⟨fun _ _ h => (by cases h), fun _ h => (by cases h)⟩
  noop _ _ _ h := h
  apply i q op hc h := h.apply (fun t => hnew _ op q t hc) (hretry _) (hbury _)
  nacked _ _ _ h := ⟨h.live, h.dead⟩

/-- The queue that a snapshot is of. -/
def snapshotQueue (st : SnapshotState) (nacked : ℤ) : Queue :=
  { live := st.live, dlq := st.dlq.map Task.data, acked := st.acked, nacked }

/-- A snapshot of a queue of which `K` holds. -/
def Shows (K : ℕ → Queue → Prop) (i : ℕ) (data : Payload) : Prop :=
  ∃ st, data = .state st ∧ st.Proper ∧ ∀ k, K i (snapshotQueue st k)

theorem Shows.ne_default {i : ℕ} {data : Payload} (h : Shows K i data) : data ≠ default := by
  obtain ⟨st, rfl, -⟩ := h
  exact Payload.noConfusion

theorem Shows.anti (hK : ∀ i j q, i ≤ j → K j q → K i q) {i j : ℕ} {data : Payload} (hij : i ≤ j)
    (h : Shows K j data) : Shows K i data := by
  obtain ⟨st, hdata, hproper, hst⟩ := h
  exact ⟨st, hdata, hproper, fun k => hK i j _ hij (hst k)⟩

/-- A queue is captured. -/
theorem FollowsLog.shows_snapshot (hK : FollowsLog C maxRetries K) {sm : StateMachine} {q : Queue}
    {i : ℕ} {order : List TaskID} (h : sm.Holds maxRetries q) (hq : K i q)
    (ho : order.Perm sm.tasks.keys) : Shows K i (.state (sm.snapshot order)) := by
  refine ⟨_, rfl, h.tidy.keyed.snapshot_proper ho, fun k => ?_⟩
  have hqueue : snapshotQueue (sm.snapshot order) k = { q with nacked := k } := by
    rw [← h.content]
    exact Queue.ext (h.tidy.snapshot_live ho) (List.map_map ..) rfl rfl
  rw [hqueue]
  exact hK.nacked i q k hq

/-- **A server whose queue is as `K` says**, as far as it has got. It has taken the first `r`
messages of the channel. -/
structure Reads (maxRetries : ℤ) (K : ℕ → Queue → Prop) (ch : List (ApplyMsg Payload)) (r : ℕ)
    (sv : ClusterServer) : Prop where
  received_le : r ≤ ch.length
  holds : ∃ q, sv.sm.Holds maxRetries q ∧ K (progress (ch.take r)) q
  current : ∀ index, sv.applyLoop.index? = some index → index = progress (ch.take r)
  captured : ∀ index st, sv.applyLoop = .captured index st → Shows K index (.state st)

theorem FollowsLog.reads_new (hK : FollowsLog C maxRetries K) (ch : List (ApplyMsg Payload)) :
    Reads maxRetries K ch 0 (newClusterServer (newStateMachine maxRetries)) where
  received_le := Nat.zero_le _
  holds := ⟨.empty, StateMachine.holds_newStateMachine maxRetries, hK.empty⟩
  current index h := by cases h
  captured index st h := by cases h

/-- The channel may grow. -/
theorem Reads.grow (h : Reads maxRetries K ch r sv) (hch : ch <+: ch') :
    Reads maxRetries K ch' r sv := by
  have htake := prefix_take_eq hch h.received_le
  exact ⟨le_trans h.received_le hch.length_le, htake ▸ h.holds, htake ▸ h.current, h.captured⟩

/-- **Every section but the receipt of a message** leaves the queue alone. -/
theorem Reads.step {e : Section} (h : Reads maxRetries K ch r sv) (hK : FollowsLog C maxRetries K)
    (he : ∀ msg, e ≠ .receive msg) (hs : sv.step cfg e = some sv') :
    Reads maxRetries K ch r sv' := by
  have hk := keeps_of_step he hs
  obtain ⟨q, hq, hKq⟩ := h.holds
  refine ⟨h.received_le, ⟨q, ?_, hKq⟩, fun index hindex => h.current index (hk.index index hindex),
    fun index st hcap => ?_⟩
  · obtain heq | ⟨deadline, heq⟩ | ⟨order, heq⟩ := hk.queue <;> rw [heq]
    · exact hq
    · exact hq.dequeue deadline
    · exact hq.requeueInFlight order
  · obtain hcap | ⟨hal, order, ho, rfl⟩ := hk.captured index st hcap
    · exact h.captured index st hcap
    · rw [h.current index (by rw [hal]; rfl)]
      exact hK.shows_snapshot hq hKq ho

/-- **The receipt of a message** takes the queue one command further, or to a snapshot. -/
theorem Reads.receive (h : Reads maxRetries K ch r sv) (hK : FollowsLog C maxRetries K)
    {msg : ApplyMsg Payload} (hmsg : ch[r]? = some msg) (hnext : Contiguous ch)
    (hsnap : ∀ m, msg = .snapshot m → Shows K m.index m.data)
    (hcmd : ∀ command index term q, msg = .command command index term →
      sv.sm.Holds maxRetries q → C index command q)
    (hs : sv.receive msg = some sv') : Reads maxRetries K ch (r + 1) sv' := by
  have hlt : r < ch.length := (List.getElem?_eq_some_iff.mp hmsg).1
  have hprog := progress_take_succ hmsg
  obtain ⟨q, hq, hKq⟩ := h.holds
  obtain ⟨sm, rfl, hcases⟩ := ClusterServer.receive_cases hs
  refine ⟨hlt, ?_, index?_loopAfter hmsg,
    fun index st hal => absurd hal (loopAfter_ne_captured msg index st)⟩
  rw [hprog]
  obtain ⟨m, st, rfl, hdata, rfl⟩ | ⟨index, term, rfl, rfl⟩ | ⟨op, index, term, rfl, rfl⟩ := hcases
  · obtain ⟨st', hdata', hproper, hst⟩ := hsnap m rfl
    cases hdata.symm.trans hdata'
    exact ⟨_, hq.maxRetries ▸ StateMachine.holds_restore sv.sm hproper, hst _⟩
  · have hc := hcmd _ _ _ q rfl hq
    rw [ApplyMsg.index, hnext.next hmsg] at *
    exact ⟨q, hq, hK.noop _ q hc hKq⟩
  · have hc := hcmd _ _ _ q rfl hq
    rw [ApplyMsg.index, hnext.next hmsg] at *
    exact ⟨_, hq.apply op, hK.apply _ q op hc hKq⟩

/-! ### The system -/

/-- No crash of the move separates the two writes of a snapshot. -/
def System.WritesWhole (M : Membership) (s : System) (x : SystemMove) : Prop :=
  ∀ c ∈ s.call M x, splits M s.world c.1 = false

instance (M : Membership) (s : System) (x : SystemMove) : Decidable (s.WritesWhole M x) :=
  inferInstanceAs (Decidable (∀ c ∈ s.call M x, _))

/-- **The queues of all servers are as `K` says, and so are the snapshots.** -/
structure Following (M : Membership) (maxRetries : ℤ) (K : ℕ → Queue → Prop) (s : System) :
    Prop where
  labelled : Labelled M (Shows K) s.world
  reads : ∀ n ∈ M.ids, Reads maxRetries K (s.world.nodes n).applyCh (s.received n) (s.server n)

theorem FollowsLog.following_start (hK : FollowsLog C maxRetries K) (M : Membership) :
    Following M maxRetries K (System.start maxRetries M) :=
  ⟨labelled_start fun _ _ h => h.ne_default, fun _ _ => hK.reads_new _⟩

theorem Following.filled (h : Following M maxRetries K s) : Labelled M Filled s.world :=
  h.labelled.mono fun _ _ hd => hd.ne_default

variable {T : List (Action Payload)}

/-- What a server receives in the move is as `C` says, as it comes to the server's queue. -/
def System.Receives (M : Membership) (maxRetries : ℤ) (T : List (Action Payload))
    (C : ℕ → Payload → Queue → Prop) (s : System) (x : SystemMove) : Prop :=
  ∀ n command index term q, x = .serve n (.receive (.command command index term)) →
    (s.server n).sm.Holds maxRetries q →
    ∀ t, CommittedIn M T t index ⟨index, term, command⟩ → C index command q

/-- What is sent on the apply channel of a member has been committed. -/
theorem Sound.committed_of_sent (h : Sound M s a) (hn : n ∈ M.ids) {command : Payload}
    {index term : ℕ} (hm : .command command index term ∈ (s.world.nodes n).applyCh) :
    ∃ t, CommittedIn M s.trace t index ⟨index, term, command⟩ := by
  obtain ⟨hpos, t, P, hP, hk⟩ := (h.traced.sim.node n hn).impl.sent command index term hm
  obtain ⟨t', -, hc⟩ := h.traced.committed hP hk
  exact ⟨t', by rwa [Nat.sub_add_cancel hpos] at hc⟩

/-- **Every step of the system**, for the part of a run that leads to `T`. -/
theorem Following.step {x : SystemMove} (h : Following M maxRetries K s)
    (hK : FollowsLog C maxRetries K) (hsound : Sound M s a) (hT : s.trace <+: T)
    (hC : s.Receives M maxRetries T C x)
    (hsplit : (∀ i j q, i ≤ j → K j q → K i q) ∨ s.WritesWhole M x)
    (hs : s.step cfg maxRetries M x = some s') : Following M maxRetries K s' := by
  have hsim := hsound.traced.sim
  refine ⟨labelled_call h.labelled hsim (fun _ _ hd => hd.ne_default) (fun c hc htrue => ?_)
    (fun n hn => (h.reads n hn).captured) hs, fun n hn => ?_⟩
  · obtain hanti | hwhole := hsplit
    · exact fun i j data hij hd => hd.anti hanti hij
    · rw [hwhole c hc] at htrue
      cases htrue
  have hold := h.reads n hn
  have hcar := h.labelled.node n hn
  refine (happens hsim h.filled hs n).keeps hold hK.reads_new Reads.grow
    (fun msg sv _ hserve hmsg _ hsv => ?_) fun e sv _ he _ hsv => hold.step hK he hsv
  have hmem := List.mem_of_getElem? hmsg
  refine hold.receive hK hmsg hcar.delivers.contiguous ?_ ?_ hsv
  · rintro m rfl
    exact hcar.sent m hmem
  · rintro command index term q rfl hq
    obtain ⟨t, hc⟩ := hsound.committed_of_sent hn hmem
    exact hC n command index term q hserve hq t (hc.mono hT)

/-- The answers of a state are right, and if the run goes on to the end of `T`, its queues are
as `K` says. -/
def Tracks (M : Membership) (maxRetries : ℤ) (K : ℕ → Queue → Prop) (T : List (Action Payload))
    (s : System) : Prop :=
  (∃ a, Sound M s a) ∧ (s.trace <+: T → Following M maxRetries K s)

theorem FollowsLog.tracks_start (hK : FollowsLog C maxRetries K) (M : Membership)
    (T : List (Action Payload)) : Tracks M maxRetries K T (System.start maxRetries M) :=
  ⟨sound_start maxRetries M, fun _ => hK.following_start M⟩

/-- One step of a run. -/
theorem Tracks.step {x : SystemMove} (h : Tracks M maxRetries K T s)
    (hK : FollowsLog C maxRetries K) (hC : s.Receives M maxRetries T C x)
    (hsplit : (∀ i j q, i ≤ j → K j q → K i q) ∨ s.WritesWhole M x)
    (hs : s.step cfg maxRetries M x = some s') : Tracks M maxRetries K T s' := by
  obtain ⟨⟨b, hb⟩, hfol⟩ := h
  obtain ⟨b', -, hb'⟩ := hb.step hs
  refine ⟨⟨b', hb'⟩, fun hT => ?_⟩
  have hT' := (trace_mono hs).trans hT
  exact (hfol hT').step hK hb hT' hC hsplit hs

/-- **What follows the log holds of every server**, in every run: in all of them if smaller
indices inherit it, and otherwise where no crash separates the two writes of a snapshot. -/
theorem FollowsLog.following {xs : List SystemMove} (hK : FollowsLog C maxRetries K)
    (hs : Run.exec (System.step cfg maxRetries M) (System.start maxRetries M) xs = some s)
    (hT : s.trace <+: T) (hC : ∀ t i e q, CommittedIn M T t i e → C i e.command q)
    (hsplit : (∀ i j q, i ≤ j → K j q → K i q) ∨
      Run.Guarded (System.step cfg maxRetries M) (System.WritesWhole M)
        (System.start maxRetries M) xs) :
    Following M maxRetries K s := by
  have hrec : ∀ (v : System) x, v.Receives M maxRetries T C x :=
    fun v x n command index term q _ _ t hc => hC t index _ q hc
  have hend : Tracks M maxRetries K T s := by
    obtain hanti | hwhole := hsplit
    · exact Run.invariant (hK.tracks_start M T)
        (fun v x v' hv => hv.step hK (hrec v x) (.inl hanti)) hs
    · exact Run.invariant_of_guarded (hK.tracks_start M T)
        (fun v x v' hv hx => hv.step hK (hrec v x) (.inr hx)) hwhole hs
  exact hend.2 hT

/-! ### The queue of the log -/

/-- The commands among the entries; the no-ops say nothing to the queue. -/
def opsOf (es : List (LogEntry Payload)) : List QueueOp := es.filterMap fun e => decodeOp e.command

/-- The entries are those that the run commits first. -/
def CommittedPrefix (M : Membership) (T : List (Action Payload)) (es : List (LogEntry Payload)) :
    Prop :=
  ∀ i e, es[i]? = some e → ∃ t, CommittedIn M T t (i + 1) e

/-- The next committed entry continues the prefix. -/
theorem CommittedPrefix.concat {es : List (LogEntry Payload)} {e : LogEntry Payload} {t : ℕ}
    (h : CommittedPrefix M T es) (he : CommittedIn M T t (es.length + 1) e) :
    CommittedPrefix M T (es ++ [e]) := by
  intro i e' hi
  rw [List.getElem?_append] at hi
  split at hi
  · exact h i e' hi
  · rename_i hge
    obtain rfl := List.mem_singleton.mp (List.mem_of_getElem? hi)
    have hlt := (List.getElem?_eq_some_iff.mp hi).1
    rw [List.length_singleton] at hlt
    exact ⟨t, by rwa [show i = es.length by omega]⟩

/-- Only one entry is committed at an index. -/
theorem Sound.committedIn_unique (h : Sound M s a) {i t t' : ℕ} {e e' : LogEntry Payload}
    (he : CommittedIn M s.trace t i e) (he' : CommittedIn M s.trace t' i e') : e = e' := by
  have hrun : (Raft.run M s.trace).isSome := by rw [h.traced.run_eq]; rfl
  have hvisit : ∀ w, Visits M s.trace w → ∃ b, Sim M w b ∧ Le b a :=
    fun v ⟨_, ys, hys, hv⟩ => h.traced.visited ys v hys hv
  obtain ⟨P, hP, -, hk⟩ := he.exists_chosen hrun hvisit
  obtain ⟨P', hP', -, hk'⟩ := he'.exists_chosen hrun hvisit
  exact Settled.unique h.traced.sim.good.inv ⟨t, P, hP, hk⟩ ⟨t', P', hP', hk'⟩

/-- **There is one committed prefix of each length.** -/
theorem Sound.committedPrefix_unique (h : Sound M s a) {es es' : List (LogEntry Payload)}
    (hes : CommittedPrefix M s.trace es) (hes' : CommittedPrefix M s.trace es')
    (hlen : es.length = es'.length) : es = es' := by
  refine List.ext_getElem hlen fun i hi hi' => ?_
  obtain ⟨t, he⟩ := hes i _ (List.getElem?_eq_getElem hi)
  obtain ⟨t', he'⟩ := hes' i _ (List.getElem?_eq_getElem hi')
  exact h.committedIn_unique he he'

/-- The queue at an index that the committed commands define, but for the number of nacks. -/
def IsReplay (M : Membership) (T : List (Action Payload)) (maxRetries : ℤ) (i : ℕ) (q : Queue) :
    Prop :=
  ∃ es, es.length = i ∧ CommittedPrefix M T es ∧
    ∃ k, q = { Queue.replay maxRetries (opsOf es) with nacked := k }

/-- **To be the replay of the log is a property that follows it.** -/
theorem followsLog_isReplay (M : Membership) (T : List (Action Payload)) (maxRetries : ℤ) :
    FollowsLog (fun i command _ => ∃ t e, CommittedIn M T t i e ∧ e.command = command) maxRetries
      (IsReplay M T maxRetries) where
  empty := ⟨[], rfl, fun i e h => (by cases h), 0, rfl⟩
  noop := by
    rintro _ _ ⟨t, e, hc, he⟩ ⟨es, rfl, hes, k, rfl⟩
    refine ⟨es ++ [e], by simp, hes.concat hc, k, ?_⟩
    have hops : opsOf (es ++ [e]) = opsOf es := by simp [opsOf, he, decodeOp]
    rw [hops]
  apply := by
    rintro _ _ op ⟨t, e, hc, he⟩ ⟨es, rfl, hes, k, rfl⟩
    obtain ⟨k', hk'⟩ := Queue.apply_nacked maxRetries (Queue.replay maxRetries (opsOf es)) op k
    refine ⟨es ++ [e], by simp, hes.concat hc, k', ?_⟩
    have hops : opsOf (es ++ [e]) = opsOf es ++ [op] := by simp [opsOf, he, decodeOp]
    rw [hops, Queue.replay_concat, hk']
  nacked := by
    rintro i _ k ⟨es, hlen, hes, -, rfl⟩
    exact ⟨es, hlen, hes, k, rfl⟩

/-- The index up to which the server of a node has received the log. -/
def System.applied (s : System) (n : NodeID) : ℕ :=
  progress ((s.world.nodes n).applyCh.take (s.received n))

/-- The queue of a server, but for the number of nacks. -/
def ClusterServer.queue (sv : ClusterServer) : Queue := { sv.sm.content with nacked := 0 }

/-- **The servers hold the queue of the log.** In a run in which no crash separates the two
writes of a snapshot, the queue of every server is the one that the committed commands define,
up to the index the server has got to. -/
theorem servers_replay_log {xs : List SystemMove}
    (hs : Run.exec (System.step cfg maxRetries M) (System.start maxRetries M) xs = some s)
    (hwhole : Run.Guarded (System.step cfg maxRetries M) (System.WritesWhole M)
      (System.start maxRetries M) xs) (hn : n ∈ M.ids) :
    ∃ es, es.length = s.applied n ∧ CommittedPrefix M s.trace es ∧
      (s.server n).queue = { Queue.replay maxRetries (opsOf es) with nacked := 0 } := by
  have hfol := (followsLog_isReplay M s.trace maxRetries).following hs (List.prefix_refl _)
    (fun t i e _ hc => ⟨t, e, hc, rfl⟩) (.inr hwhole)
  obtain ⟨q, hq, es, hlen, hes, k, rfl⟩ := (hfol.reads n hn).holds
  refine ⟨es, hlen, hes, ?_⟩
  rw [ClusterServer.queue, hq.content]

/-! ### A run to read it on

Node `a` wins an election with the vote of `b`, takes the tasks `x` and `y` and has them
applied at `b` as well; then it takes the ack of `x`, whose entry `b` holds. -/

/-- A handler's proposal is accepted, and the handler waits for it. -/
def proposing (n : NodeID) (k : ℕ) : List SystemMove :=
  [.propose n (.handler k), .serve n (.handler k .silent)]

/-- The committed entries are sent on the channel of the node, and its server receives
them. -/
def applying (n : NodeID) (msgs : List (ApplyMsg Payload)) : List SystemMove :=
  [.act (.run (.trigger n .applierTake))] ++ (msgs.flatMap fun msg =>
    [.act (.run (.trigger n .applierSend)), .act (.run (.trigger n .applierAdvance)),
      .serve n (.receive msg), .serve n .applyLoop]) ++ [.act (.run (.trigger n .applierSend))]

/-- Actions of the cluster, as moves of the system. -/
def clusterActs (as : List (Action Payload)) : List SystemMove := as.map .act

/-- The entries of the two tasks, and the no-op before them. -/
def enqueueMsgs : List (ApplyMsg Payload) :=
  [.command .empty 1 1,
    .command (encodeOp (.enqueue { Task.named "x" with createdAt := 1 })) 2 1,
    .command (encodeOp (.enqueue { Task.named "y" with createdAt := 2 })) 3 1]

/-- The ack of `x`, as `a` applies it. -/
def ackMsgs : List (ApplyMsg Payload) := [.command (encodeOp (.ack "x")) 4 1]

/-- Up to the return of the ack at `a`. -/
def ackedX : List SystemMove :=
  clusterActs (electionOf "a" 0 0) ++
    [.serve "a" (.call (.enqueue (some (.named "x")) "" 1))] ++ proposing "a" 0 ++
    [.serve "a" (.call (.enqueue (some (.named "y")) "" 2))] ++ proposing "a" 1 ++
    clusterActs (replicationTo "a" "b" 2 1) ++ applying "a" enqueueMsgs ++
    clusterActs (replicationTo "a" "b" 3 2) ++ applying "b" enqueueMsgs ++
    [.serve "a" (.call (.ack "x")), .serve "a" (.handler 2 (.isLeader true)),
      .serve "a" (.handler 2 .silent)] ++ proposing "a" 2 ++
    clusterActs (replicationTo "a" "b" 4 3) ++ applying "a" ackMsgs ++
    [.serve "a" (.handler 2 .silent), .serve "a" (.handler 2 .silent)]

/-- The task `x` has been acked, and the tasks `x` and `y` enqueued before. -/
theorem servers_replay_log_ackedX :
    ∃ s, Run.exec (System.step plainConfig 3 threeNodes) (System.start 3 threeNodes) ackedX =
        some s ∧ s.applied "a" = 4 ∧
      ∃ es, es.length = s.applied "a" ∧ CommittedPrefix threeNodes s.trace es ∧
        (s.server "a").queue = { Queue.replay 3 (opsOf es) with nacked := 0 } := by
  have hend : (Run.exec (System.step plainConfig 3 threeNodes) (System.start 3 threeNodes)
      ackedX).map (System.applied · "a") = some 4 := by
    decide +kernel
  obtain ⟨s, hs, happlied⟩ := Option.map_eq_some_iff.mp hend
  exact ⟨s, hs, happlied, servers_replay_log hs (by decide +kernel) (by decide)⟩

/-- The actions of the cluster are recorded one after the other. -/
theorem trace_le_of_exec {xs : List SystemMove}
    (h : Run.exec (System.step cfg maxRetries M) s xs = some s') : s.trace <+: s'.trace :=
  Run.invariant (P := fun v => s.trace <+: v.trace) (List.prefix_refl _)
    (fun _ _ _ hv hx => hv.trans (trace_mono hx)) h

/-- **Servers that have got to the same index agree**, at whatever times of the run they were
there, and whether they got there by commands or by a snapshot. -/
theorem servers_agree {xs ys : List SystemMove} {u w : System} {m : NodeID}
    (hu : Run.exec (System.step cfg maxRetries M) (System.start maxRetries M) xs = some u)
    (hw : Run.exec (System.step cfg maxRetries M) u ys = some w)
    (hwhole : Run.Guarded (System.step cfg maxRetries M) (System.WritesWhole M)
      (System.start maxRetries M) xs)
    (hwhole' : Run.Guarded (System.step cfg maxRetries M) (System.WritesWhole M) u ys)
    (hm : m ∈ M.ids) (hn : n ∈ M.ids) (happlied : u.applied m = w.applied n) :
    (u.server m).queue = (w.server n).queue := by
  have hrun : Run.exec (System.step cfg maxRetries M) (System.start maxRetries M) (xs ++ ys) =
      some w := by
    rw [Run.exec_append, hu, Option.bind_some, hw]
  have hrule := followsLog_isReplay M w.trace maxRetries
  have hfol := hrule.following hu (trace_le_of_exec hw) (fun t i e _ hc => ⟨t, e, hc, rfl⟩)
    (.inr hwhole)
  have hfol' := hrule.following hrun (List.prefix_refl _) (fun t i e _ hc => ⟨t, e, hc, rfl⟩)
    (.inr (hwhole.append hu hwhole'))
  obtain ⟨q, hq, es, hlen, hes, k, rfl⟩ := (hfol.reads m hm).holds
  obtain ⟨q', hq', es', hlen', hes', k', rfl⟩ := (hfol'.reads n hn).holds
  -- both have replayed the entries that are committed up to the index
  obtain ⟨a₀, h₀⟩ := sound_start maxRetries M
  obtain ⟨a, -, ha⟩ := h₀.exec hrun
  obtain rfl := ha.committedPrefix_unique hes hes' ((hlen.trans happlied).trans hlen'.symm)
  rw [ClusterServer.queue, ClusterServer.queue, hq.content, hq'.content]

/-- Server `a` has applied the two enqueues before the ack of `x` is proposed, and `b` has not got
further when the ack returns. -/
theorem servers_agree_ackedX :
    ∃ u w, Run.exec (System.step plainConfig 3 threeNodes) (System.start 3 threeNodes)
        (ackedX.take 26) = some u ∧
      Run.exec (System.step plainConfig 3 threeNodes) u (ackedX.drop 26) = some w ∧
      u.applied "a" = 3 ∧ w.applied "a" = 4 ∧ w.applied "b" = 3 ∧
      (u.server "a").queue = (w.server "b").queue := by
  have hend : ((Run.exec (System.step plainConfig 3 threeNodes) (System.start 3 threeNodes)
      (ackedX.take 26)).bind fun u =>
      (Run.exec (System.step plainConfig 3 threeNodes) u (ackedX.drop 26)).map fun w =>
        (u.applied "a", w.applied "a", w.applied "b")) = some (3, 4, 3) := by
    decide +kernel
  have hwhole : Run.Guarded (System.step plainConfig 3 threeNodes) (System.WritesWhole threeNodes)
      (System.start 3 threeNodes) (ackedX.take 26 ++ ackedX.drop 26) := by
    decide +kernel
  obtain ⟨u, hu, hend⟩ := Option.bind_eq_some_iff.mp hend
  obtain ⟨w, hw, hend⟩ := Option.map_eq_some_iff.mp hend
  simp only [Prod.mk.injEq] at hend
  obtain ⟨ha, ha', hb⟩ := hend
  exact ⟨u, w, hu, hw, ha, ha', hb, servers_agree hu hw (by decide +kernel)
    (hwhole.of_append hu) (by decide) (by decide) (ha.trans hb.symm)⟩

end Server

end DistQueue
