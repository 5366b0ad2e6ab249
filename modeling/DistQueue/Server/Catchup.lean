import DistQueue.Server.Members
import DistQueue.Raft.Exchange

/-!
# Followers catch up

The exchange between a leader and one follower converges if there is a snapshot wherever entries
are compacted away (`DistQueue.Raft.exchange_converges`). A node that is started again takes an
empty snapshot file for none, so this is up to the state machines. Those of the servers encode
their snapshots, and what they hand over is never empty (`DistQueue.Server.run_trace`).

Hence the exchange converges in every state that the system comes to
(`DistQueue.Server.backtracking_converges`), whatever the logs of the two are by then.
-/

namespace DistQueue

namespace Server

open Broker Raft

variable {M : Membership} {n p : NodeID} {cfg : ClusterConfig} {maxRetries : ℤ} {s : System}
  {xs : List SystemMove}

/-- **Backtracking converges.** In every state of every run, let `n` be a leader and `p` one of its
peers. Every rejection in the exchange of the two strictly decreases the next index of `p`, unless
`n` steps down. If `p` is in a later term, one round makes `n` step down; and if it is not, the
exchange reaches a success in at most `nextIndex + 1` rounds, and the log of `p` then agrees with
the log of `n` up to its last index. -/
theorem backtracking_converges
    (hs : Run.exec (System.step cfg maxRetries M) (System.start maxRetries M) xs = some s)
    (hn : n ∈ M.ids) (hp : p ∈ (M.config n).peers)
    (hlead : (s.world.nodes n).state = .leader) :
    (∀ k v w reply, Run.iterate (round M n p) k s.world = some v → round M n p v = some w →
      w.lastReply = some (.appendEntries reply) → reply.success = false →
      (w.nodes n).state = .leader →
        0 < (w.nodes n).nextIndex p ∧ (w.nodes n).nextIndex p < (v.nodes n).nextIndex p) ∧
    ((s.world.nodes n).currentTerm < (s.world.nodes p).currentTerm →
      ∃ w, round M n p s.world = some w ∧ (w.nodes n).state = .follower ∧
        (w.nodes n).currentTerm = (s.world.nodes p).currentTerm) ∧
    ((s.world.nodes p).currentTerm ≤ (s.world.nodes n).currentTerm →
      ∃ k ≤ (s.world.nodes n).nextIndex p + 1, ∃ u,
        Run.iterate (round M n p) k s.world = some u ∧
        (∃ reply, u.lastReply = some (.appendEntries reply) ∧ reply.success = true) ∧
        AgreesUpTo (s.world.nodes n).log (u.nodes p).log) := by
  obtain ⟨hrun, hfilled⟩ := run_trace hs
  refine ⟨fun k v w reply hk hround hlast hsucc hlead' => ?_, fun hlater => ?_, fun hterm => ?_⟩
  · obtain ⟨bs, hbs⟩ := exists_run_of_iterate hrun hk
    exact round_rejected hbs hn hp hround hlast hsucc hlead'
  · obtain ⟨⟨a, hsim⟩, hranged⟩ := exists_ranged hrun
    obtain ⟨w, hround, -, hdown⟩ :=
      hranged.round_deposed hsim hn hp hlead (equipped_run hrun hfilled hn) hlater
    refine ⟨w, hround, ?_⟩
    rw [hdown, becomeFollowerLocked_eq]
    exact ⟨rfl, max_eq_right hlater.le⟩
  · exact exchange_converges hrun hfilled hn hp hlead hterm

/-- `a` leads term 1 and keeps its entry to itself; `b` leads terms 2, 3 and 4 with the vote of
`c`, and is started again in between. -/
def conflictingLogs : List SystemMove :=
  (electionOf "a" 0 0 ++ electionOf "b" 3 1 ++ [.crash "b"] ++ electionOf "b" 5 2 ++
    [.crash "b"] ++ electionOf "b" 7 3 : List (Action Payload)).map .act

/-- The log of `a` is too short at first, then of another term. -/
theorem backtracking_converges_conflictingLogs :
    ∃ s, Run.exec (System.step plainConfig 3 threeNodes) (System.start 3 threeNodes)
        conflictingLogs = some s ∧ (s.world.nodes "b").nextIndex "a" = 3 ∧
      (∀ w reply, round threeNodes "b" "a" s.world = some w →
        w.lastReply = some (.appendEntries reply) → reply.success = false →
        (w.nodes "b").state = .leader →
          0 < (w.nodes "b").nextIndex "a" ∧ (w.nodes "b").nextIndex "a" < 3) ∧
      ∃ k ≤ 4, ∃ u, Run.iterate (round threeNodes "b" "a") k s.world = some u ∧
        (∃ reply, u.lastReply = some (.appendEntries reply) ∧ reply.success = true) ∧
        AgreesUpTo (s.world.nodes "b").log (u.nodes "a").log := by
  have hend : (Run.exec (System.step plainConfig 3 threeNodes) (System.start 3 threeNodes)
      conflictingLogs).map (fun s => ((s.world.nodes "b").state,
        (s.world.nodes "b").nextIndex "a", (s.world.nodes "a").currentTerm,
        (s.world.nodes "b").currentTerm)) = some (.leader, 3, 1, 4) := by
    decide +kernel
  obtain ⟨s, hs, hend⟩ := Option.map_eq_some_iff.mp hend
  simp only [Prod.mk.injEq] at hend
  obtain ⟨hlead, hnext, hterm, hterm'⟩ := hend
  obtain ⟨hback, -, hconverges⟩ := backtracking_converges hs (n := "b") (p := "a") (by decide)
    (by decide) hlead
  rw [hnext] at hconverges
  refine ⟨s, hs, hnext, fun w reply hround hlast hsucc hlead' => ?_, hconverges (by omega)⟩
  rw [← hnext]
  exact hback 0 s.world w reply rfl hround hlast hsucc hlead'

end Server

end DistQueue
