import DistQueue.Server.Acked

/-!
# When an ack is final

`finish` looks the task up and then proposes, and reports success once the entry has been
applied, whatever the entry found. A nack of the same task may stand before it in the log
and use up the retries; the ack then finds nothing, succeeds, and the task is in the
dead-letter queue (`DistQueue.Server.acked_task_dead_lettered`).

This is the only way to get there: if no ack is applied on a replica that holds a dead task
of the identifier (`DistQueue.Server.System.FindsNoneDead`), then a replica that has got as
far as the ack has no task of the identifier, live or dead, and keeps it so
(`DistQueue.Server.acked_stays_final`). That is a property of the queue which follows the log
(`DistQueue.Server.Finished.followsLog_vanished`): only a nack of a live task feeds the
dead-letter queue, and after the ack the task is not live.
-/

namespace DistQueue

namespace Server

open Broker Raft Consensus

variable {M : Membership} {a : Ledger NodeID (LogEntry Payload)} {n : NodeID}
  {cfg : ClusterConfig} {maxRetries : ℤ} {s : System} {id : TaskID} {i₀ : ℕ}
  {sm : StateMachine} {T : List (Action Payload)}

/-! ### Dead tasks -/

/-- No task of the identifier is in the dead-letter queue. -/
def NoneDead (id : TaskID) (sm : StateMachine) : Prop := ∀ t ∈ sm.listDLQ, t.id ≠ id

instance (id : TaskID) (sm : StateMachine) : Decidable (NoneDead id sm) :=
  inferInstanceAs (Decidable (∀ t ∈ sm.listDLQ, t.id ≠ id))

theorem noneDead_iff : NoneDead id sm ↔ ∀ d ∈ sm.content.dlq, d.id ≠ id := by
  simp [NoneDead, StateMachine.listDLQ, StateMachine.content, StateMachine.dataAt, Task.data]

/-- **From the index on the queue has no task of the identifier**, live or dead. Live tasks are
filed under their own identifiers. -/
structure Vanished (id : TaskID) (i₀ i : ℕ) (q : Queue) : Prop where
  keyed : q.Keyed
  none : i₀ ≤ i → q.Each (fun id' d => d.id = id' ∧ id' ≠ id) fun d => d.id ≠ id

/-- What an ack that comes to a queue finds there: no dead task of its identifier. -/
def FindsNone (M : Membership) (T : List (Action Payload)) (i : ℕ) (command : Payload)
    (q : Queue) : Prop :=
  (∃ t e, CommittedIn M T t i e ∧ e.command = command) ∧
    ∀ id, Acks id command → ∀ d ∈ q.dlq, d.id ≠ id

/-- **After an ack that has found no dead task, the task has vanished.** -/
theorem Finished.followsLog_vanished (hfin : Finished M T id i₀) (maxRetries : ℤ) :
    FollowsLog (FindsNone M T) maxRetries (Vanished id i₀) where
  empty :=
    ⟨fun _ _ h => (by cases h), fun _ => ⟨fun _ _ h => (by cases h), fun _ h => (by cases h)⟩⟩
  noop := by
    rintro i q ⟨⟨t, e, hc, he⟩, -⟩ h
    refine ⟨h.keyed, fun hi => ?_⟩
    -- a no-op is not the ack
    rcases eq_or_ne i₀ (i + 1) with rfl | hne
    · have hack := hfin.ack t e hc
      rw [he] at hack
      exact hack.elim
    · exact h.none (by omega)
  apply := by
    rintro i q op ⟨⟨t, e, hc, he⟩, hfinds⟩ h
    refine ⟨h.keyed.apply op, fun hi => ?_⟩
    rcases eq_or_ne i₀ (i + 1) with rfl | hne
    · have hack : Acks id (.op op) := he ▸ hfin.ack t e hc
      obtain ⟨hlive, hdlq⟩ := q.apply_ack maxRetries hack.1
      refine ⟨fun id' d hd => ⟨h.keyed.apply op id' d hd, ?_⟩, hdlq ▸ hfinds id hack⟩
      rintro rfl
      rw [← hack.2, hlive] at hd
      cases hd
    · refine (h.none (by omega)).apply (fun u hty hu => ⟨rfl, fun hid => ?_⟩) (fun _ h _ => h)
        fun d hd hid => hd.2 (hd.1.symm.trans hid)
      exact hfin.later t (i + 1) e (by omega) hc (by rw [he]; exact ⟨hty, by rw [hu, ← hid]; rfl⟩)
  nacked i q k h := ⟨h.keyed, fun hi => ⟨(h.none hi).live, (h.none hi).dead⟩⟩

theorem Vanished.anti (i j : ℕ) (q : Queue) (hij : i ≤ j) (h : Vanished id i₀ j q) :
    Vanished id i₀ i q :=
  ⟨h.keyed, fun hi => h.none (hi.trans hij)⟩

/-! ### The system -/

/-- **An ack is not applied where a task of its identifier is dead.** -/
def System.FindsNoneDead (s : System) : SystemMove → Prop
  | .serve n (.receive (.command (.op op) _ _)) =>
    op.type = .ack → NoneDead op.taskID (s.server n).sm
  | _ => True

instance (s : System) (x : SystemMove) : Decidable (s.FindsNoneDead x) := by
  unfold System.FindsNoneDead
  split <;> infer_instance

/-- A move in which the acks find no dead task. -/
theorem System.FindsNoneDead.receives {x : SystemMove} (hx : s.FindsNoneDead x) :
    s.Receives M maxRetries T (FindsNone M T) x := by
  rintro n command index term q rfl hq t hc
  refine ⟨⟨t, _, hc, rfl⟩, fun id hack => ?_⟩
  cases command with
  | op op =>
    rw [← hq.content, ← noneDead_iff, ← hack.2]
    exact hx hack.1
  | empty | state => exact hack.elim

/-- **An ack that finds no dead task is final.** The Ack of a task has returned success, its
entry standing at index `i`, and no enqueue of the identifier is committed after it. Then on
every replica that has got to index `i` the task is neither live nor dead-lettered. -/
theorem acked_stays_final {xs : List SystemMove} {i : ℕ}
    (hs : Run.exec (System.step cfg maxRetries M) (System.start maxRetries M) xs = some s)
    (hfinds : Run.Guarded (System.step cfg maxRetries M) System.FindsNoneDead
      (System.start maxRetries M) xs)
    (hack : (id, i) ∈ s.acked)
    (hno : ∀ t j e, i < j → CommittedIn M s.trace t j e → ¬Enqueues id e.command)
    (hn : n ∈ M.ids) (hi : i ≤ s.applied n) :
    (s.server n).sm.has id = false ∧ ∀ t ∈ (s.server n).sm.listDLQ, t.id ≠ id := by
  obtain ⟨a₀, h₀⟩ := sound_start maxRetries M
  obtain ⟨a, -, ha⟩ := h₀.exec hs
  obtain ⟨op, term, hty, hid, hd⟩ := ha.acked id i hack
  have hfin : Finished M s.trace id i := ⟨fun t e he => ha.acks hd hty hid he, hno⟩
  have hK := hfin.followsLog_vanished maxRetries
  have htracks : Tracks M maxRetries (Vanished id i) s.trace s :=
    Run.invariant_of_guarded (hK.tracks_start M s.trace)
      (fun v x v' hv hx => hv.step hK hx.receives (.inl Vanished.anti)) hfinds hs
  obtain ⟨q, hq, hvan⟩ := ((htracks.2 (List.prefix_refl _)).reads n hn).holds
  have heach := hvan.none hi
  rw [← hq.content] at heach
  refine ⟨?_, noneDead_iff.mpr heach.dead⟩
  cases hlookup : (s.server n).sm.tasks.lookup id with
  | none => rw [StateMachine.has, hlookup]; rfl
  | some r =>
    exact absurd rfl (heach.live id ((s.server n).sm.dataAt r) (congrArg (Option.map _) hlookup)).2

/-- What is looked at in a state of node `a`. -/
structure FinalSight where
  acked : List (TaskID × ℕ)
  applied : ℕ
  dead : List TaskID
  bounded : Bool
  deriving DecidableEq

/-- What the run has come to, in the end. -/
def finalSight (s : System) : FinalSight where
  acked := s.acked
  applied := s.applied "a"
  dead := (s.server "a").sm.listDLQ.map Task.id
  bounded := decide (Run.Guarded (Raft.step threeNodes) (CommitsUpTo threeNodes 4)
    (Raft.start threeNodes) s.trace)

/-- The theorem at the task that was acknowledged. -/
theorem acked_stays_final_ackedX :
    ∃ s, Run.exec (System.step plainConfig 3 threeNodes) (System.start 3 threeNodes) ackedX =
        some s ∧ ("x", 4) ∈ s.acked ∧ 4 ≤ s.applied "a" ∧
      (s.server "a").sm.has "x" = false ∧ ∀ t ∈ (s.server "a").sm.listDLQ, t.id ≠ "x" := by
  have hend : (Run.exec (System.step plainConfig 3 threeNodes) (System.start 3 threeNodes)
      ackedX).map finalSight = some ⟨[("x", 4)], 4, [], true⟩ := by
    decide +kernel
  have hfinds : Run.Guarded (System.step plainConfig 3 threeNodes) System.FindsNoneDead
      (System.start 3 threeNodes) ackedX := by
    decide +kernel
  obtain ⟨s, hs, hend⟩ := Option.map_eq_some_iff.mp hend
  have hack : ("x", 4) ∈ s.acked := by
    rw [show s.acked = [("x", 4)] from congrArg FinalSight.acked hend]
    exact List.mem_singleton_self _
  have happlied : 4 ≤ s.applied "a" := by
    rw [show s.applied "a" = 4 from congrArg FinalSight.applied hend]
  have hbound := of_decide_eq_true (congrArg FinalSight.bounded hend)
  refine ⟨s, hs, hack, happlied, acked_stays_final hs hfinds hack (fun t j e hj hc => ?_)
    (by decide) happlied⟩
  exact absurd (index_le_of_committedIn hbound hc) (by omega)

/-- An Ack and a Nack of `x` both find the task live, and the entry of the Nack is the first
in the log. -/
def nackThenAck : List SystemMove :=
  clusterActs (electionOf "a" 0 0) ++
    [.serve "a" (.call (.enqueue (some (.named "x")) "" 1))] ++ proposing "a" 0 ++
    clusterActs (replicationTo "a" "b" 2 1) ++
    applying "a" [.command .empty 1 1,
      .command (encodeOp (.enqueue { Task.named "x" with createdAt := 1 })) 2 1] ++
    [.serve "a" (.call (.ack "x")), .serve "a" (.handler 1 (.isLeader true)),
      .serve "a" (.handler 1 .silent), .serve "a" (.call (.nack "x")),
      .serve "a" (.handler 2 (.isLeader true)), .serve "a" (.handler 2 .silent)] ++
    proposing "a" 2 ++ proposing "a" 1 ++ clusterActs (replicationTo "a" "b" 3 2) ++
    applying "a" [.command (encodeOp (.nack "x")) 3 1, .command (encodeOp (.ack "x")) 4 1] ++
    [.serve "a" (.handler 1 .silent), .serve "a" (.handler 1 .silent)]

/-- **An acked task is dead-lettered.** A task has one try. The Ack of `x` has returned
success, its entry standing at index 4, node `a` has applied it, nothing is enqueued after
it, and `x` is in the dead-letter queue of `a`. -/
theorem acked_task_dead_lettered :
    ∃ s t, Run.exec (System.step plainConfig 1 threeNodes) (System.start 1 threeNodes)
        nackThenAck = some s ∧ ("x", 4) ∈ s.acked ∧
      (∀ u j e, 4 < j → CommittedIn threeNodes s.trace u j e → ¬Enqueues "x" e.command) ∧
      "a" ∈ threeNodes.ids ∧ 4 ≤ s.applied "a" ∧
      t ∈ (s.server "a").sm.listDLQ ∧ t.id = "x" := by
  have hend : (Run.exec (System.step plainConfig 1 threeNodes) (System.start 1 threeNodes)
      nackThenAck).map finalSight = some ⟨[("x", 4)], 4, ["x"], true⟩ := by
    decide +kernel
  obtain ⟨s, hs, hend⟩ := Option.map_eq_some_iff.mp hend
  have hbound := of_decide_eq_true (congrArg FinalSight.bounded hend)
  have hdead : "x" ∈ (s.server "a").sm.listDLQ.map Task.id := by
    rw [show (s.server "a").sm.listDLQ.map Task.id = ["x"] from congrArg FinalSight.dead hend]
    exact List.mem_singleton_self _
  obtain ⟨t, ht, hid⟩ := List.mem_map.mp hdead
  refine ⟨s, t, hs, ?_, fun u j e hj hc => ?_, by decide, ?_, ht, hid⟩
  · rw [show s.acked = [("x", 4)] from congrArg FinalSight.acked hend]
    exact List.mem_singleton_self _
  · exact absurd (index_le_of_committedIn hbound hc) (by omega)
  · rw [show s.applied "a" = 4 from congrArg FinalSight.applied hend]

end Server

end DistQueue
