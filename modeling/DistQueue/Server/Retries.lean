import DistQueue.Broker.Stays
import DistQueue.Raft.Provenance
import DistQueue.Raft.Replicas
import DistQueue.Raft.Sent
import DistQueue.Server.Acked

/-!
# What a delivery costs

A worker that fails a task nacks it, and a worker that is silent for too long is nacked by
the timeout loop. Either way the task has been delivered once and is charged one retry.
The single-node broker sees to that, since it nacks what its tracker holds. The
cluster does not: `finish` and the timeout loop only ask whether the task is live. A task
that was never handed out can be nacked, and one that was handed out once can be nacked any
number of times (`DistQueue.Server.one_delivery_costs_two`).

What has to hold when a nack is proposed is that the server has the task in flight, and has
applied all that its node's log says of the task (`DistQueue.Server.System.Leases`). The
server then knows a delivery that no other nack in the log has used. In runs in which every
nack is proposed on such a lease, no task has more retries than deliveries
(`DistQueue.Server.retries_paid`), whatever leaders come and go and however the replicas come
by their queues – except that a snapshot must not be torn by a crash between its two writes,
since a restart then applies nacks a second time.

The deliveries are those of one stay in the queue (`DistQueue.Broker.Stay`). The records that
this takes, of the log as far as it has been applied and of the deliveries, are kept next to
the system (`DistQueue.Server.Account`).
-/

namespace DistQueue

namespace Server

open Broker Raft Consensus

variable {M : Membership} {a a' : Ledger NodeID (LogEntry Payload)} {n : NodeID}
  {sv sv' : ClusterServer} {cfg : ClusterConfig} {maxRetries : ℤ} {id : TaskID}
  {cs cs' : List Payload} {H H' : List (TaskID × ℕ)}

/-! ### The log and the register -/

/-- The command is about the task of the identifier. -/
def Concerns (id : TaskID) : Payload → Prop
  | .op op => op.Concerns id
  | _ => False

instance (id : TaskID) (command : Payload) : Decidable (Concerns id command) := by
  cases command <;> dsimp only [Concerns] <;> infer_instance

/-- The register after the commands of a log, no-ops included. -/
def register (maxRetries : ℤ) (cs : List Payload) : Register :=
  cs.foldl (fun R command => (decodeOp command).elim R.skip (R.apply maxRetries)) .empty

/-! ### The records -/

/-- The system, the commands that some server has applied, in the order of the log, and the
deliveries: the identifier of the task, and the index at which its stay began. -/
structure Account where
  system : System
  commands : List Payload
  handed : List (TaskID × ℕ)

/-- The task that a section hands out. -/
def ClusterServer.handsOut (cfg : ClusterConfig) (sv : ClusterServer) : Section → Option Task
  | .handler k (.now now) =>
    -- `Dequeue` has been told that the node is the leader, and asks nothing more
    if sv.handlers[k]? = some .dequeueChecked then (sv.sm.dequeue (now + cfg.taskTimeout)).1
    else none
  | _ => none

namespace Account

/-- The register of what a server has applied. -/
def register (maxRetries : ℤ) (s : Account) (n : NodeID) : Register :=
  Server.register maxRetries (s.commands.take (s.system.applied n))

/-- The index at which the stay of a task began, as the server of a node has it. -/
def since (maxRetries : ℤ) (s : Account) (n : NodeID) (id : TaskID) : ℕ :=
  ((s.register maxRetries n).live id).elim 0 Stay.index

/-- The command that a move is the first to apply. -/
def learns (s : Account) : SystemMove → List Payload
  | .serve _ (.receive (.command command index _)) =>
    -- the other servers receive the same command later
    if index = s.commands.length + 1 then [command] else []
  | _ => []

/-- The delivery that a move is. -/
def delivers (cfg : ClusterConfig) (maxRetries : ℤ) (s : Account) :
    SystemMove → List (TaskID × ℕ)
  | .serve n e => (((s.system.server n).handsOut cfg e).map fun t =>
    (t.id, s.since maxRetries n t.id)).toList
  | _ => []

/-- A step of the system, with the commands and the deliveries that it adds to the account. -/
def step (cfg : ClusterConfig) (maxRetries : ℤ) (M : Membership) (s : Account) (x : SystemMove) :
    Option Account :=
  (s.system.step cfg maxRetries M x).map fun system =>
    { system
      commands := s.commands ++ s.learns x
      handed := s.handed ++ s.delivers cfg maxRetries x }

/-- The account of a system that starts. -/
def start (maxRetries : ℤ) (M : Membership) : Account := ⟨System.start maxRetries M, [], []⟩

end Account

/-! ### Leases -/

/-- **The server of a node has a lease on the task**: it has the task in flight, and there is
nothing about the task in the node's log that it has still to apply. -/
def System.Leases (s : System) (n : NodeID) (id : TaskID) : Prop :=
  (s.server n).sm.statusOf id = some .inFlight ∧
    (s.world.nodes n).log.firstIndex ≤ s.applied n ∧
    ∀ e ∈ (s.world.nodes n).log.entries, s.applied n < e.index → ¬Concerns id e.command

instance (s : System) (n : NodeID) (id : TaskID) : Decidable (s.Leases n id) :=
  inferInstanceAs (Decidable (_ ∧ _ ∧ _))

/-- A nack that a leader takes is proposed on a lease. -/
def System.NacksLeased (s : System) : SystemMove → Prop
  | .propose n p | .proposeCrash n p _ => ∀ op ∈ (s.server n).proposal p,
    op.type = .nack → (s.world.nodes n).state = .leader → s.Leases n op.taskID
  | _ => True

instance (s : System) (x : SystemMove) : Decidable (s.NacksLeased x) :=
  match x with
  | .propose _ _ | .proposeCrash _ _ _ => inferInstanceAs (Decidable (∀ op ∈ _, _))
  | .act _ | .serve _ _ | .submit _ | .submitCrash _ _ => instDecidableTrue

/-- **Every nack is on a lease**, and no crash separates the two writes of a snapshot. -/
def System.Charges (M : Membership) (s : System) (x : SystemMove) : Prop :=
  s.NacksLeased x ∧ ∀ c ∈ s.call M x, splits M s.world c.1 = false

instance (M : Membership) (s : System) (x : SystemMove) : Decidable (s.Charges M x) :=
  inferInstanceAs (Decidable (s.NacksLeased x ∧ ∀ c ∈ s.call M x, _))

/-! ### The register of a log -/

/-- The register takes the last command last. -/
theorem register_concat (maxRetries : ℤ) (cs : List Payload) (command : Payload) :
    register maxRetries (cs ++ [command]) = (decodeOp command).elim (register maxRetries cs).skip
      ((register maxRetries cs).apply maxRetries) := by
  simp [register]

theorem register_live_append (h : ∀ command ∈ cs', ¬Concerns id command) :
    (register maxRetries (cs ++ cs')).live id = (register maxRetries cs).live id := by
  -- the register is a fold from the left, so the last command is taken off first
  induction cs' using List.reverseRecOn with
  | nil => rw [List.append_nil]
  | append_singleton cs' command ih =>
    have hcommand := h command (List.mem_append_right _ (List.mem_singleton_self command))
    rw [← ih fun c hc => h c (List.mem_append_left _ hc), ← List.append_assoc, register_concat]
    cases command with
    | op op => exact Register.live_apply fun hop => absurd hop hcommand
    | empty | state st => rfl

/-! ### A replica -/

/-- **The snapshot shows the queue at the index.** -/
def Pictures (maxRetries : ℤ) (cs : List Payload) (i : ℕ) (data : Payload) : Prop :=
  i ≤ cs.length ∧ ∃ st, data = .state st ∧ st.Shows (register maxRetries (cs.take i))

theorem Pictures.ne_default {i : ℕ} {data : Payload} (h : Pictures maxRetries cs i data) :
    data ≠ default := by
  obtain ⟨-, st, rfl, -⟩ := h
  exact Payload.noConfusion

theorem Pictures.mono {i : ℕ} {data : Payload} (h : Pictures maxRetries cs i data)
    (hcs : cs <+: cs') : Pictures maxRetries cs' i data := by
  obtain ⟨hi, st, hdata, hst⟩ := h
  exact ⟨le_trans hi hcs.length_le, st, hdata, by rwa [prefix_take_eq hcs hi]⟩

/-- **The books of a replica are in order**: it has the queue of the log up to where it has
got, and a delivery to spare for each task that it has in flight. -/
structure Audited (maxRetries : ℤ) (cs : List Payload) (H : List (TaskID × ℕ))
    (ch : List (ApplyMsg Payload)) (r : ℕ) (sv : ClusterServer) : Prop where
  received_le : r ≤ ch.length
  applied_le : progress (ch.take r) ≤ cs.length
  accounts : sv.sm.Accounts maxRetries H (register maxRetries (cs.take (progress (ch.take r))))
  current : ∀ index, sv.applyLoop.index? = some index → index = progress (ch.take r)
  captured : ∀ index st, sv.applyLoop = .captured index st →
    Pictures maxRetries cs index (.state st)

variable {ch ch' : List (ApplyMsg Payload)} {r : ℕ}

theorem audited_new (maxRetries : ℤ) (cs : List Payload) (H : List (TaskID × ℕ))
    (ch : List (ApplyMsg Payload)) :
    Audited maxRetries cs H ch 0 (newClusterServer (newStateMachine maxRetries)) where
  received_le := Nat.zero_le _
  applied_le := Nat.zero_le _
  accounts := StateMachine.accounts_newStateMachine maxRetries H
  current index h := by cases h
  captured index st h := by cases h

theorem Audited.mono (h : Audited maxRetries cs H ch r sv) (hcs : cs <+: cs') (hH : H <+: H') :
    Audited maxRetries cs' H' ch r sv where
  received_le := h.received_le
  applied_le := le_trans h.applied_le hcs.length_le
  accounts := by
    rw [prefix_take_eq hcs h.applied_le]
    exact h.accounts.mono hH
  current := h.current
  captured index st hal := (h.captured index st hal).mono hcs

theorem Audited.grow (h : Audited maxRetries cs H ch r sv) (hch : ch <+: ch') :
    Audited maxRetries cs H ch' r sv := by
  have htake := prefix_take_eq hch h.received_le
  exact ⟨le_trans h.received_le hch.length_le, htake ▸ h.applied_le, htake ▸ h.accounts,
    htake ▸ h.current, h.captured⟩

/-- **What a section does to the queue**, unless it receives a message: it hands out a task,
takes all of them back, or neither. -/
theorem queue_of_step {e : Section} (he : ∀ msg, e ≠ .receive msg)
    (h : sv.step cfg e = some sv') :
    (∃ deadline, sv.handsOut cfg e = (sv.sm.dequeue deadline).1 ∧
      sv'.sm = (sv.sm.dequeue deadline).2) ∨
    sv.handsOut cfg e = none ∧
      (sv'.sm = sv.sm ∨ ∃ order, sv'.sm = sv.sm.requeueInFlight order) := by
  cases e with
  | handler k ans =>
    obtain ⟨x, hx, h⟩ := Option.bind_eq_some_iff.mp h
    obtain ⟨q, hq, h⟩ := Option.bind_eq_some_iff.mp h
    cases h
    -- only the section in which `Dequeue` takes a task touches the queue
    by_cases htake : ∃ now, x = .dequeueChecked ∧ ans = .now now
    · obtain ⟨now, rfl, rfl⟩ := htake
      cases hq
      refine .inl ⟨now + cfg.taskTimeout, ?_, rfl⟩
      rw [ClusterServer.handsOut, if_pos hx]
    · refine .inr ⟨?_, .inl ?_⟩
      · unfold ClusterServer.handsOut
        split
        · rename_i heq
          cases heq
          rw [if_neg]
          intro hk
          rw [hx] at hk
          exact htake ⟨_, Option.some.inj hk, rfl⟩
        · rfl
      · obtain ⟨-, -, ⟨hsm, -⟩ | ⟨now, hchecked, hnow, -⟩⟩ := handlerSection_cases hq
        · exact hsm
        · exact absurd ⟨now, hchecked, hnow⟩ htake
  | requeue order =>
    obtain ⟨-, rfl⟩ := ClusterServer.step_requeue h
    exact .inr ⟨rfl, .inr ⟨order, rfl⟩⟩
  | receive msg => exact absurd rfl (he msg)
  | call rpc =>
    cases h
    exact .inr ⟨rfl, .inl rfl⟩
  | scan now order =>
    obtain ⟨-, -, rfl⟩ := ClusterServer.step_scan h
    exact .inr ⟨rfl, .inl rfl⟩
  | scanner ans =>
    rw [ClusterServer.scannerSection_eq h]
    exact .inr ⟨rfl, .inl rfl⟩
  | watcher ans =>
    rw [ClusterServer.watcherSection_eq h]
    exact .inr ⟨rfl, .inl rfl⟩
  | applyLoop =>
    refine .inr ⟨rfl, .inl ?_⟩
    obtain ⟨-, rfl⟩ | ⟨index, term, k, al, -, -, rfl⟩ := ClusterServer.applyLoopSection_cases h
    · rfl
    · rw [ClusterServer.wake_eq]
  | capture order =>
    obtain ⟨-, -, -, rfl⟩ := ClusterServer.step_capture h
    exact .inr ⟨rfl, .inl rfl⟩
  | submit =>
    obtain ⟨-, -, -, rfl⟩ := ClusterServer.step_submit h
    exact .inr ⟨rfl, .inl rfl⟩

/-- **Every section but the receipt of a message.** A delivery is recorded. -/
theorem Audited.step {e : Section} (h : Audited maxRetries cs H ch r sv)
    (hpaid : (register maxRetries (cs.take (progress (ch.take r)))).Paid H)
    (he : ∀ msg, e ≠ .receive msg) (hs : sv.step cfg e = some sv') {since : TaskID → ℕ}
    (hsince : ∀ id k, (register maxRetries (cs.take (progress (ch.take r)))).live id = some k →
      since id = k.index) :
    Audited maxRetries cs
      (H ++ ((sv.handsOut cfg e).map fun t => (t.id, since t.id)).toList) ch r sv' := by
  have hk := keeps_of_step he hs
  refine ⟨h.received_le, h.applied_le, ?_,
    fun index hindex => h.current index (hk.index index hindex), fun index st hcap => ?_⟩
  · obtain ⟨deadline, hout, heq⟩ | ⟨hout, heq | ⟨order, heq⟩⟩ := queue_of_step he hs <;>
      rw [hout, heq]
    · exact h.accounts.dequeue hpaid deadline hsince
    · exact h.accounts.mono (List.prefix_append _ _)
    · exact (h.accounts.requeueInFlight order).mono (List.prefix_append _ _)
  · obtain hcap | ⟨hal, order, ho, rfl⟩ := hk.captured index st hcap
    · exact h.captured index st hcap
    · -- the queue is captured at the index the replica has got to
      obtain rfl := h.current index (by rw [hal]; rfl)
      exact ⟨h.applied_le, _, rfl, h.accounts.snapshot ho⟩

/-- **The receipt of a message**: a snapshot of the log, or the next of its commands. -/
theorem Audited.receive (h : Audited maxRetries cs H ch r sv) {msg : ApplyMsg Payload}
    (hmsg : ch[r]? = some msg) (hnext : Contiguous ch)
    (hsnap : ∀ m, msg = .snapshot m → Pictures maxRetries cs m.index m.data)
    (hcmd : ∀ command index term, msg = .command command index term →
      cs[index - 1]? = some command)
    (hs : sv.receive msg = some sv') : Audited maxRetries cs H ch (r + 1) sv' := by
  have hlt : r < ch.length := (List.getElem?_eq_some_iff.mp hmsg).1
  have hprog := progress_take_succ hmsg
  have hcur := index?_loopAfter hmsg
  have hcap : ∀ index st, loopAfter msg = .captured index st →
      Pictures maxRetries cs index (.state st) :=
    fun index st hal => absurd hal (loopAfter_ne_captured msg index st)
  -- what the log has at the index of a command
  have htake : ∀ command index term, msg = .command command index term →
      index ≤ cs.length ∧ cs.take index = cs.take (progress (ch.take r)) ++ [command] := by
    rintro command index term rfl
    have hc := hcmd command index term rfl
    have hindex := hnext.next hmsg
    rw [hindex, Nat.add_sub_cancel] at hc
    have hlen := (List.getElem?_eq_some_iff.mp hc).1
    rw [hindex, List.take_add_one, hc]
    exact ⟨hlen, rfl⟩
  obtain ⟨sm, rfl, hcases⟩ := ClusterServer.receive_cases hs
  obtain ⟨m, st, rfl, hdata, rfl⟩ | ⟨index, term, rfl, rfl⟩ | ⟨op, index, term, rfl, rfl⟩ := hcases
  · obtain ⟨hle, st', hdata', hst⟩ := hsnap m rfl
    cases hdata.symm.trans hdata'
    refine ⟨hlt, ?_, ?_, hcur, hcap⟩ <;> rw [hprog]
    · exact hle
    · exact StateMachine.accounts_restore hst h.accounts.maxRetries_eq
  · obtain ⟨hle, heq⟩ := htake _ _ _ rfl
    refine ⟨hlt, ?_, ?_, hcur, hcap⟩ <;> rw [hprog]
    · exact hle
    · change sv.sm.Accounts maxRetries H (register maxRetries (cs.take index))
      rw [heq, register_concat]
      exact h.accounts.skip
  · obtain ⟨hle, heq⟩ := htake _ _ _ rfl
    refine ⟨hlt, ?_, ?_, hcur, hcap⟩ <;> rw [hprog]
    · exact hle
    · change (sv.sm.apply op).Accounts maxRetries H (register maxRetries (cs.take index))
      rw [heq, register_concat]
      exact h.accounts.apply op

/-! ### Entries -/

/-- **A nack in the log is charged to a delivery**: where its leader put it, the task has one
to spare. -/
def Charged (maxRetries : ℤ) (a : Ledger NodeID (LogEntry Payload)) (H : List (TaskID × ℕ))
    (e : LogEntry Payload) : Prop :=
  ∀ op, e.command = encodeOp op → op.type = .nack → ∃ c L, a.lead e.term = some (c, L) ∧
    L[e.index - 1]? = some e ∧
    (register maxRetries ((L.take (e.index - 1)).map LogEntry.command)).Covers H op.taskID

theorem Charged.mono {e : LogEntry Payload} (h : Charged maxRetries a H e) (hle : Le a a')
    (hH : H <+: H') : Charged maxRetries a' H' e := by
  intro op hop hty
  obtain ⟨c, L, hL, hi, hcov⟩ := h op hop hty
  obtain ⟨L', hL', hp⟩ := hle.lead _ c L hL
  refine ⟨c, L', hL', prefix_getElem?_some hp hi, ?_⟩
  rw [prefix_take_eq hp (le_of_lt (List.getElem?_eq_some_iff.mp hi).1)]
  exact hcov.mono hH

/-- A no-op charges nobody. -/
theorem charged_noop (i t : ℕ) : Charged maxRetries a H ⟨i, t, default⟩ :=
  fun op hop => by cases hop

/-! ### The system -/

/-- **The books of the cluster are in order**: the log as far as it has been applied, the
snapshots, the replicas, and the retries in the queue and in the entries that may still
come to it. -/
structure Solvent (maxRetries : ℤ) (M : Membership) (s : Account)
    (a : Ledger NodeID (LogEntry Payload)) : Prop where
  sound : Sound M s.system a
  past : ∃ P, Past a P ∧ P.map LogEntry.command = s.commands
  labelled : Labelled M (Pictures maxRetries s.commands) s.system.world
  behind : ∀ n ∈ M.ids, Behind (s.system.world.nodes n)
  audited : ∀ n ∈ M.ids, Audited maxRetries s.commands s.handed
    (s.system.world.nodes n).applyCh (s.system.received n) (s.system.server n)
  paid : ∀ i, (register maxRetries (s.commands.take i)).Paid s.handed
  charged : Stocked M (Charged maxRetries a s.handed) s.system.world

theorem solvent_start (maxRetries : ℤ) (M : Membership) :
    ∃ a, Solvent maxRetries M (Account.start maxRetries M) a := by
  obtain ⟨a, ha⟩ := sound_start maxRetries M
  refine ⟨a, ha, ⟨[], ⟨0, chosen_nil a 0⟩, rfl⟩, labelled_start fun _ _ h => h.ne_default,
    fun n _ => behind_newNode _ _, fun n _ => audited_new maxRetries _ _ _, fun i => ?_,
    stocked_start M _⟩
  have hnil : (Account.start maxRetries M).commands.take i = [] := List.take_nil
  rw [hnil]
  exact Register.paid_empty _

variable {s s' : Account} {x : SystemMove}

/-- A command is learnt from the channel of a member, as the next of the log. -/
theorem learns_cases {s' : System} (hs : s.system.step cfg maxRetries M x = some s') :
    s.learns x = [] ∨ ∃ n ∈ M.ids, ∃ command term,
      .command command (s.commands.length + 1) term ∈ (s.system.world.nodes n).applyCh ∧
      s.learns x = [command] := by
  unfold Account.learns
  split
  · rename_i n command index term
    split
    · rename_i hindex
      simp only [System.step, System.serve, Option.ite_none_right_eq_some] at hs
      obtain ⟨⟨hn, htrue⟩, -⟩ := hs
      exact .inr ⟨n, hn, command, term, hindex ▸ List.mem_of_getElem? htrue, rfl⟩
    · exact .inl rfl
  · exact .inl rfl

/-- The next command has been decided, and what was applied before it is what its leader had
before it. -/
theorem Solvent.next (h : Solvent maxRetries M s a) (hn : n ∈ M.ids) {command : Payload}
    {term : ℕ} (hm : .command command (s.commands.length + 1) term ∈
      (s.system.world.nodes n).applyCh) :
    ∃ P, Past a (P ++ [⟨s.commands.length + 1, term, command⟩]) ∧
      P.map LogEntry.command = s.commands := by
  have hsim := h.sound.traced.sim
  obtain ⟨P, hP, hcommands⟩ := h.past
  refine ⟨P, hP.concat hsim.good ?_, hcommands⟩
  have hlen : P.length = s.commands.length := by rw [← hcommands, List.length_map]
  rw [hlen]
  exact ((hsim.node n hn).impl.sent _ _ _ hm).2

theorem Solvent.past_learns (h : Solvent maxRetries M s a) {s' : System}
    (hs : s.system.step cfg maxRetries M x = some s') :
    ∃ P, Past a P ∧ P.map LogEntry.command = s.commands ++ s.learns x := by
  obtain heq | ⟨n, hn, command, term, hm, heq⟩ := learns_cases hs
  · rw [heq, List.append_nil]
    exact h.past
  · obtain ⟨P, hP, hcommands⟩ := h.next hn hm
    exact ⟨_, hP, by rw [List.map_append, hcommands, heq]; rfl⟩

/-- **The next command is paid for**: if it is a nack, the delivery it was charged to is still
there to spare. -/
theorem Solvent.paid_learns (h : Solvent maxRetries M s a) {s' : System}
    (hs : s.system.step cfg maxRetries M x = some s') (i : ℕ) :
    (register maxRetries ((s.commands ++ s.learns x).take i)).Paid s.handed := by
  obtain heq | ⟨n, hn, command, term, hm, heq⟩ := learns_cases hs
  · rw [heq, List.append_nil]
    exact h.paid i
  rw [heq]
  -- only beginnings of the log that contain the new command have to be looked at
  obtain hi | hi := Nat.lt_or_ge s.commands.length i
  · rw [List.take_of_length_le (by simpa using Nat.succ_le_of_lt hi), register_concat]
    have hall : (register maxRetries s.commands).Paid s.handed := by
      simpa using h.paid s.commands.length
    cases command with
    | empty | state st => exact ⟨hall.live, hall.dlq⟩
    | op op =>
      refine hall.apply fun hty => ?_
      -- the nack was charged where its leader put it, which is where it is applied
      obtain ⟨P, hP, hcommands⟩ := h.next hn hm
      obtain ⟨c, L, hL, -, hcov⟩ := (h.charged.node n hn).sent _ _ _ hm op rfl hty
      have hpre := hP.prefix_lead h.sound.traced.sim.good hL
      have hlen : P.length = s.commands.length := by rw [← hcommands, List.length_map]
      rw [Nat.add_sub_cancel, ← hlen, prefix_take_eq ((List.prefix_append _ _).trans hpre)
        (le_refl _), List.take_length, hcommands] at hcov
      exact hcov
  · rw [List.take_append_of_le_length hi]
    exact h.paid i

/-- What a server receives is the command that the log has there. -/
theorem Solvent.received (h : Solvent maxRetries M s a) (hn : n ∈ M.ids) {command : Payload}
    {index term : ℕ} (hmsg : (s.system.world.nodes n).applyCh[s.system.received n]? =
      some (.command command index term)) :
    (s.commands ++ s.learns (.serve n (.receive (.command command index term))))[index - 1]? =
      some command := by
  have hmem := List.mem_of_getElem? hmsg
  have hsim := h.sound.traced.sim
  have hindex := (h.labelled.node n hn).delivers.contiguous.next hmsg
  have hle := (h.audited n hn).applied_le
  obtain hlast | hold : index = s.commands.length + 1 ∨ index ≤ s.commands.length := by omega
  · rw [Account.learns, if_pos hlast, hlast, Nat.add_sub_cancel, List.getElem?_concat_length]
  · -- only one entry is ever decided there
    obtain ⟨P, ⟨t, hP⟩, hcommands⟩ := h.past
    have hlen : P.length = s.commands.length := by rw [← hcommands, List.length_map]
    obtain ⟨-, hset⟩ := (hsim.node n hn).impl.sent _ _ _ hmem
    have hlt : index - 1 < P.length := by omega
    have hP' : Settled a (index - 1) P[index - 1] := ⟨t, P, hP, List.getElem?_eq_getElem hlt⟩
    have heq := hP'.unique hsim.good.inv hset
    rw [List.getElem?_append_left (by omega), ← hcommands, List.getElem?_map,
      List.getElem?_eq_getElem hlt, heq]
    rfl

/-! ### Proposals -/

/-- A nack is on a lease of the leader that has made its entry. -/
theorem System.NacksLeased.leases {s : System} {p : Proposer} {op : QueueOp}
    (hx : s.NacksLeased x) (hmove : x = .propose n p ∨ ∃ k, x = .proposeCrash n p k)
    (hop : (s.server n).proposal p = some op) (hlead : (s.world.nodes n).state = .leader)
    (hty : op.type = .nack) : s.Leases n op.taskID := by
  obtain rfl | ⟨k, rfl⟩ := hmove
  · exact hx op hop hty hlead
  · exact hx op hop hty hlead

/-- What a server has applied, its node knows to be committed. -/
theorem Solvent.applied_le (h : Solvent maxRetries M s a) (hn : n ∈ M.ids) :
    s.system.applied n ≤ (s.system.world.nodes n).commitIndex := by
  unfold System.applied progress
  cases hlast : ((s.system.world.nodes n).applyCh.take (s.system.received n)).getLast? with
  | none => exact Nat.zero_le _
  | some msg => exact h.behind n hn msg (List.mem_of_mem_take (List.mem_of_getLast? hlast))

/-- What a server has applied are the first entries of its node's log. -/
theorem Solvent.log_take (h : Solvent maxRetries M s a) (hn : n ∈ M.ids) :
    ((a.log n).take (s.system.applied n)).map LogEntry.command =
      s.commands.take (s.system.applied n) := by
  have hat := h.sound.traced.sim.node n hn
  have hle := h.applied_le hn
  have hcommit := hat.impl.commit_le
  obtain ⟨P, ⟨t, hP⟩, hcommands⟩ := h.past
  have hlen : s.system.applied n ≤ P.length := by
    have happlied := (h.audited n hn).applied_le
    rwa [← hcommands, List.length_map] at happlied
  rw [← hcommands, ← List.map_take]
  congr 1
  have htake := List.take_take (l := a.log n) (i := s.system.applied n)
    (j := (s.system.world.nodes n).commitIndex)
  rw [min_eq_left hle] at htake
  rw [← htake]
  -- both are decided, so one of them goes on where the other ends
  obtain hp | hp := hP.comparable hat.good.inv hat.impl.commit_chosen
  · exact prefix_take_eq hp hlen
  · exact (prefix_take_eq hp (by rw [List.length_take]; omega)).symm

/-- **A lease is a delivery to spare**, whatever the node's log holds besides. -/
theorem Solvent.covers (h : Solvent maxRetries M s a) (hn : n ∈ M.ids)
    (hlease : s.system.Leases n id) :
    (register maxRetries ((a.log n).map LogEntry.command)).Covers s.handed id := by
  obtain ⟨hflight, hfirst, hrest⟩ := hlease
  have hat := h.sound.traced.sim.node n hn
  have hcov := (h.audited n hn).accounts.covered id hflight
  intro k hk
  refine hcov k ?_
  -- what the server has not applied yet says nothing about the task
  rw [← List.take_append_drop (s.system.applied n) (a.log n), List.map_append, h.log_take hn,
    register_live_append] at hk
  · exact hk
  · intro command hcommand
    obtain ⟨e, he, rfl⟩ := List.mem_map.mp hcommand
    obtain ⟨j, hj⟩ := List.mem_iff_getElem?.mp he
    rw [List.getElem?_drop] at hj
    refine hrest e ?_ (by rw [hat.numbered _ e hj]; omega)
    rw [hat.log_eq, compact_entries]
    refine List.mem_iff_getElem?.mpr
      ⟨s.system.applied n + j - (s.system.world.nodes n).log.firstIndex, ?_⟩
    rw [List.getElem?_drop, Nat.add_sub_cancel' (by omega)]
    exact hj

/-- **Every entry is charged**, the one that is made in the step included. -/
theorem Solvent.charged_step (h : Solvent maxRetries M s a) {s' : System} (hle : Le a a')
    (hsound : Sound M s' a') (hH : s.handed <+: H') (hx : s.system.NacksLeased x)
    (hs : s.system.step cfg maxRetries M x = some s') :
    Stocked M (Charged maxRetries a' H') s'.world := by
  have hsim := h.sound.traced.sim
  obtain ⟨heq, -⟩ | ⟨y, o, hcall, hy, -⟩ := step_world hs
  · rw [heq]
    exact h.charged.and h.charged fun e he _ => he.mono hle hH
  -- the new entry is charged only if it is in a leader's log, and a crash may prevent that
  have hstock : Stocked M (fun e => Charged maxRetries a' H' e ∨ y.makes s.system.world = some e)
      s.system.world := h.charged.and h.charged fun e he _ => .inl (he.mono hle hH)
  refine (hstock.step hsim (fun i t => .inl (charged_noop i t)) (fun e he => .inr he) hy).and
    hsound.traced.sim.stocked ?_
  rintro e (he | he) ⟨-, c, L, hL, hi⟩
  · exact he
  -- the leader has put it at the end of a log that it has a lease for
  obtain ⟨n, hn, p, op, hmove, hop, hlead, rfl⟩ := proposal_of_makes hcall hy he
  have hat := hsim.node n hn
  dsimp only at hL hi
  rw [hat.term_eq] at hL
  rw [Nat.add_sub_cancel, hat.lastIndex_eq] at hi
  obtain ⟨L', hL', hp⟩ := hle.lead _ _ _ (hat.impl.leader hlead)
  obtain ⟨-, rfl⟩ := Prod.mk.inj (Option.some.inj (hL.symm.trans hL'))
  intro op' hop' hty
  obtain rfl : op = op' := Payload.op.inj hop'
  dsimp only
  rw [hat.term_eq, Nat.add_sub_cancel, hat.lastIndex_eq]
  rw [hat.term_eq] at hi
  refine ⟨c, L, hL, hi, ?_⟩
  rw [prefix_take_eq hp (le_refl _), List.take_length]
  exact (h.covers hn (hx.leases hmove hop hlead hty)).mono hH

/-! ### Runs -/

/-- A delivery is recorded with the stay that the server's register has. -/
theorem since_eq (s : Account) (n : NodeID) {id : TaskID} {k : Stay}
    (hk : (s.register maxRetries n).live id = some k) : s.since maxRetries n id = k.index := by
  rw [Account.since, hk]
  rfl

/-- A server that calls its node hands out nothing. -/
theorem handsOut_section (p : Proposer) (r : ProposeResult) :
    sv.handsOut cfg (p.section r) = none := by
  cases p <;> rfl

/-- **Every step** keeps the books in order, in which a nack is proposed on a lease only. -/
theorem Solvent.step (h : Solvent maxRetries M s a) (hx : s.system.Charges M x)
    (hs : s.step cfg maxRetries M x = some s') : ∃ a', Solvent maxRetries M s' a' := by
  obtain ⟨sys, hsys, rfl⟩ := Option.map_eq_some_iff.mp hs
  obtain ⟨a', hle, hsound⟩ := h.sound.step hsys
  have hsim := h.sound.traced.sim
  have hcs : s.commands <+: s.commands ++ s.learns x := List.prefix_append _ _
  have hH : s.handed <+: s.handed ++ s.delivers cfg maxRetries x := List.prefix_append _ _
  have hlab := h.labelled.mono fun i data hd => hd.mono hcs
  obtain ⟨P, hP, hcommands⟩ := h.past_learns hsys
  refine ⟨a', hsound, ⟨P, hP.mono hle, hcommands⟩, ?_, ?_, fun n hn => ?_,
    fun i => (h.paid_learns hsys i).mono hH, h.charged_step hle hsound hH hx.1 hsys⟩
  · refine labelled_call hlab hsim (fun _ _ hd => hd.ne_default) (fun c hc hsplit => ?_)
      (fun n hn index st hal => ((h.audited n hn).captured index st hal).mono hcs) hsys
    rw [hx.2 c hc] at hsplit
    cases hsplit
  · obtain ⟨heq, -⟩ | ⟨y, o, hcall, hy, -⟩ := step_world hsys
    · dsimp only
      rw [heq]
      exact h.behind
    · exact Behind.step h.behind hsim hlab (call_supplies hcall hy
        fun n hn index st hal => ((h.audited n hn).captured index st hal).mono hcs) hy
  · have hold := h.audited n hn
    refine (happens hsim (hlab.mono fun _ _ hd => hd.ne_default) hsys n).keeps (hold.mono hcs hH)
      (audited_new maxRetries _ _) Audited.grow (fun msg sv _ hx hmsg _ hsv => ?_)
      fun e sv _ he hruns hsv => ?_
    · refine (hold.mono hcs hH).receive hmsg (h.labelled.node n hn).delivers.contiguous ?_ ?_ hsv
      · rintro m rfl
        exact (hlab.node n hn).sent m (List.mem_of_getElem? hmsg)
      · rintro command index term rfl
        rw [hx]
        exact h.received hn hmsg
    · -- deliveries are the server's own sections; its calls to the node are none
      have hstep := hold.step (h.paid _) he hsv fun id k hk => since_eq s n hk
      cases hruns with
      | serves _ hx _ =>
        obtain rfl := hx
        exact hstep.mono hcs (List.prefix_refl _)
      | proposes p op hop hnode =>
        rw [handsOut_section] at hstep
        exact hstep.mono hcs (by simp)
      | submits => exact hstep.mono hcs (by simp [ClusterServer.handsOut])

/-- **One delivery costs at most one retry**, in the runs in which every nack is proposed on a
lease and no crash separates the two writes of a snapshot. A task that a server has, live or
dead, is a stay of the log that the server has applied; if it was enqueued with no retries, it
has no more of them than the servers have handed out the stay. -/
theorem retries_paid {xs : List SystemMove}
    (hs : Run.exec (Account.step cfg maxRetries M) (Account.start maxRetries M) xs = some s)
    (hx : Run.Guarded (Account.step cfg maxRetries M) (fun s x => s.system.Charges M x)
      (Account.start maxRetries M) xs) (hn : n ∈ M.ids) :
    (∀ id (t : Task),
      ((s.system.server n).sm.tasks.lookup id).map (s.system.server n).sm.store = some t →
      ∃ k, (s.register maxRetries n).live id = some k ∧ k.data = t.data ∧
        (k.initial = 0 → t.retryCount ≤ k.deliveries s.handed)) ∧
    ∀ (i : ℕ) (t : Task), (s.system.server n).sm.listDLQ[i]? = some t →
      ∃ k : Stay, (s.register maxRetries n).dlq[i]? = some k ∧ k.data = t.data ∧
        (k.initial = 0 → t.retryCount ≤ k.deliveries s.handed) := by
  obtain ⟨a, h⟩ := Run.invariant_of_guarded (P := fun s => ∃ a, Solvent maxRetries M s a)
    (solvent_start maxRetries M) (fun u x u' ⟨a, ha⟩ hx hu => ha.step hx hu) hx hs
  have haccounts := (h.audited n hn).accounts
  have hpaid : (s.register maxRetries n).Paid s.handed := h.paid _
  have hbound : ∀ {k : Stay} {t : Task}, k.Paid s.handed → k.data = t.data → k.initial = 0 →
      t.retryCount ≤ k.deliveries s.handed := by
    intro k t hk hdata hinit
    rw [Stay.Paid, hinit, Int.zero_add, hdata] at hk
    exact hk
  refine ⟨fun id t ht => ?_, fun i t ht => ?_⟩
  · obtain ⟨k, hk, hdata⟩ := haccounts.live ht
    exact ⟨k, hk, hdata, hbound (hpaid.live id k hk) hdata⟩
  · obtain ⟨k, hk, hdata⟩ := haccounts.dead ht
    exact ⟨k, hk, hdata, hbound (hpaid.dlq k (List.mem_of_getElem? hk)) hdata⟩

/-! ### Runs to read it on

Node `a` is elected and takes the task `x`, which has two tries. A worker takes the task and
nacks it. Whether it takes the task again before the second nack is the difference. -/

/-- Task `x` is enqueued at `a`. -/
def enqueuedX : List SystemMove :=
  clusterActs (electionOf "a" 0 0) ++
    [.serve "a" (.call (.enqueue (some (.named "x")) "" 1))] ++ proposing "a" 0 ++
    clusterActs (replicationTo "a" "b" 2 1) ++
    applying "a" [.command .empty 1 1,
      .command (encodeOp (.enqueue { Task.named "x" with createdAt := 1 })) 2 1]

/-- The `k`-th call is a `Dequeue`. -/
def dequeueX (k : ℕ) : List SystemMove :=
  [.serve "a" (.call .dequeue), .serve "a" (.handler k (.isLeader true)),
    .serve "a" (.handler k (.now 10)), .serve "a" (.handler k .silent)]

/-- The `k`-th call is a `Nack`, whose command is applied at the index. -/
def nackX (k index : ℕ) : List SystemMove :=
  [.serve "a" (.call (.nack "x")), .serve "a" (.handler k (.isLeader true)),
    .serve "a" (.handler k .silent)] ++ proposing "a" k ++
    clusterActs (replicationTo "a" "b" index (index - 1)) ++
    applying "a" [.command (encodeOp (.nack "x")) index 1]

/-- What is looked at in the last state. -/
structure RetrySight where
  handed : List (TaskID × ℕ)
  dead : List Task
  stays : List Stay
  deriving DecidableEq

/-- What the account says in the end. -/
def retrySight (s : Account) : RetrySight :=
  ⟨s.handed, (s.system.server "a").sm.listDLQ, (s.register 2 "a").dlq⟩

/-- Task `x` when it is dead. Its last deadline is still on it if it was nacked in flight. -/
def deadX (deadline : Time) : Task :=
  { Task.named "x" with createdAt := 1, retryCount := 2, status := .dead, deadline }

/-- The theorem at a task that is handed out and nacked twice. -/
theorem retries_paid_twice :
    ∃ s, Run.exec (Account.step plainConfig 2 threeNodes) (Account.start 2 threeNodes)
        (enqueuedX ++ dequeueX 1 ++ nackX 2 3 ++ dequeueX 3 ++ nackX 4 4) = some s ∧
      (s.system.server "a").sm.listDLQ[0]? = some (deadX 40) ∧
      ∃ k : Stay, (s.register 2 "a").dlq[0]? = some k ∧ k.data = (deadX 40).data ∧
        (k.initial = 0 → (deadX 40).retryCount ≤ k.deliveries s.handed) := by
  have hend : (Run.exec (Account.step plainConfig 2 threeNodes) (Account.start 2 threeNodes)
      (enqueuedX ++ dequeueX 1 ++ nackX 2 3 ++ dequeueX 3 ++ nackX 4 4)).map retrySight =
      some ⟨[("x", 2), ("x", 2)], [deadX 40], [⟨(deadX 40).data, 2, 0⟩]⟩ := by
    decide +kernel
  have hleased : Run.Guarded (Account.step plainConfig 2 threeNodes)
      (fun s x => s.system.Charges threeNodes x) (Account.start 2 threeNodes)
      (enqueuedX ++ dequeueX 1 ++ nackX 2 3 ++ dequeueX 3 ++ nackX 4 4) := by
    decide +kernel
  obtain ⟨s, hs, hend⟩ := Option.map_eq_some_iff.mp hend
  have hdead : (s.system.server "a").sm.listDLQ[0]? = some (deadX 40) := by
    rw [show (s.system.server "a").sm.listDLQ = [deadX 40] from congrArg RetrySight.dead hend]
    rfl
  exact ⟨s, hs, hdead, (retries_paid hs hleased (by decide)).2 0 _ hdead⟩

/-- **One delivery costs two retries.** The worker sends its `Nack` again after the first has
been applied. The task is live, so the second `Nack` is proposed as well, and the task is dead
after both of its tries when it has been handed out once. -/
theorem one_delivery_costs_two :
    ∃ (s : Account) (k : Stay), Run.exec (Account.step plainConfig 2 threeNodes)
        (Account.start 2 threeNodes) (enqueuedX ++ dequeueX 1 ++ nackX 2 3 ++ nackX 3 4) = some s ∧
      (s.system.server "a").sm.listDLQ[0]? = some (deadX 0) ∧
      (s.register 2 "a").dlq[0]? = some k ∧ k.data = (deadX 0).data ∧ k.initial = 0 ∧
      k.deliveries s.handed = 1 ∧ (deadX 0).retryCount = 2 := by
  have hend : (Run.exec (Account.step plainConfig 2 threeNodes) (Account.start 2 threeNodes)
      (enqueuedX ++ dequeueX 1 ++ nackX 2 3 ++ nackX 3 4)).map retrySight =
      some ⟨[("x", 2)], [deadX 0], [⟨(deadX 0).data, 2, 0⟩]⟩ := by
    decide +kernel
  obtain ⟨s, hs, hend⟩ := Option.map_eq_some_iff.mp hend
  refine ⟨s, ⟨(deadX 0).data, 2, 0⟩, hs, ?_, ?_, rfl, rfl, ?_, rfl⟩
  · rw [show (s.system.server "a").sm.listDLQ = [deadX 0] from congrArg RetrySight.dead hend]
    rfl
  · rw [show (s.register 2 "a").dlq = _ from congrArg RetrySight.stays hend]
    rfl
  · rw [show s.handed = [("x", 2)] from congrArg RetrySight.handed hend]
    rfl

end Server

end DistQueue
