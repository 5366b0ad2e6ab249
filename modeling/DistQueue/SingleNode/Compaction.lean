import DistQueue.SingleNode.Invariant

/-!
# Compaction

The entries that compaction writes stand for what is in memory – the pending tasks and the
tasks in flight as live ones, and the dead-letter queue, in order – in every state of every
run whose input and output succeeds and in which no `Enqueue` takes the identifier of a task
that is still there (`DistQueue.SingleNode.compaction_preserves`).

That includes the dead-letter queue. Recovery goes by identifiers, and compaction lists the
dead tasks last: a task that has been enqueued again under the identifier of a dead one is
overwritten by it, and then removed with it (`DistQueue.SingleNode.reused_id_lost`).
-/

namespace DistQueue

open Broker Wal

namespace SingleNode

variable {γ : Codec} {h : History}

/-- **Compaction preserves meaning.** In every state of a regular run, recovery from the
entries that compaction would write gives the pending tasks and the tasks in flight, and the
dead-letter queue in its order. -/
theorem compaction_preserves {cfg : Config} {ms : List Move} {inFlight : List Task}
    (hG : Run.Guarded (step γ) (Regular γ) (History.start cfg) ms)
    (hrun : Run.exec (step γ) (History.start cfg) ms = some h)
    (hperm : inFlight.Perm h.broker.tracker.vals) :
    (fold (h.broker.compactEntries inFlight)).live.vals.Perm
        ((h.broker.pq ++ h.broker.tracker.vals).map Task.recovered) ∧
      (fold (h.broker.compactEntries inFlight)).dlq = h.broker.dlq.map Task.buried := by
  obtain ⟨es, hb⟩ := base_of_regular hG hrun
  have hfold := fold_compacted (nodup_compacted hb.apart hperm)
  rw [compactEntries_eq]
  exact ⟨hfold.1.trans ((hperm.append_left _).map _), hfold.2⟩

/-! ### An identifier that is used again -/

/-- An `Enqueue` does not take the identifier of a task that is pending or in flight. -/
def Broker.Unlike (b : Broker) : Move → Prop
  | .enqueue t newID now _ => (prepare t newID now).id ∉ b.tasks.map Task.id
  | _ => True

instance (b : Broker) (m : Move) : Decidable (b.Unlike m) :=
  match m with
  | .enqueue _ _ _ _ => inferInstanceAs (Decidable (_ ∉ _))
  | .dequeue _ | .ack _ _ | .nack _ _ | .applyTuning _ _ | .expired _ _ | .onTimeout _
  | .compact _ | .rewrite | .lead | .capture | .fsync _ | .returns _ | .resume
  | .crash _ _ _ => instDecidableTrue

/-- The call that has just made its change waits for its record, and returns. -/
def synced : List Move := [.lead, .capture, .fsync true, .returns 0]

/-- A task of which only the identifier matters. -/
def taskA : Task := Task.named "a"

/-- A task is dead-lettered by its first nack, and another one is enqueued under its
identifier. -/
def reuse : List Move :=
  [.enqueue taskA "" 1 none] ++ synced ++ [.dequeue 2, .nack "a" none] ++ synced ++
    [.enqueue taskA "" 3 none] ++ synced

/-- The compacted log does not have the task that is pending: it stands for a dead-letter
queue with one task, and nothing else. -/
theorem reused_id_lost :
    Run.Guarded (step plainCodec) (fun h m => m.Succeeds ∧ h.broker.Unlike m)
        (History.start ⟨1, 30, 0⟩) reuse ∧
      (Run.exec (step plainCodec) (History.start ⟨1, 30, 0⟩) reuse).map (fun h =>
        (h.broker.pq.map Task.id, h.broker.tracker.vals, h.broker.dlq.map Task.id,
          (fold (h.broker.compactEntries [])).live.vals,
          (fold (h.broker.compactEntries [])).dlq.map Task.id)) =
        some (["a"], [], ["a"], [], ["a"]) := by
  decide +kernel

/-- A run with a task that is dead, one that is in flight, and one that is pending. -/
def mixed : List Move :=
  [.enqueue taskA "" 1 none] ++ synced ++ [.dequeue 2, .nack "a" none] ++ synced ++
    [.enqueue (Task.named "b") "" 3 none] ++ synced ++ [.enqueue (Task.named "c") "" 4 none] ++
    synced ++ [.dequeue 5]

/-- The theorem at a run that ends with a task in each of the three places. -/
theorem compaction_preserves_mixed :
    ∃ h t, Run.exec (step plainCodec) (History.start ⟨1, 30, 0⟩) mixed = some h ∧
      h.broker.tracker.vals = [t] ∧
      (fold (h.broker.compactEntries [t])).live.vals.Perm
        ((h.broker.pq ++ h.broker.tracker.vals).map Task.recovered) ∧
      (fold (h.broker.compactEntries [t])).dlq = h.broker.dlq.map Task.buried := by
  have hend : (Run.exec (step plainCodec) (History.start ⟨1, 30, 0⟩) mixed).map
      (fun h => h.broker.tracker.vals.length) = some 1 := by
    decide +kernel
  obtain ⟨h, hrun, hlen⟩ := Option.map_eq_some_iff.mp hend
  obtain ⟨t, ht⟩ := List.length_eq_one_iff.mp hlen
  have hG : Run.Guarded (step plainCodec) (Regular plainCodec) (History.start ⟨1, 30, 0⟩)
      mixed := by
    decide +kernel
  exact ⟨h, t, hrun, ht, compaction_preserves hG hrun (by rw [ht])⟩

end SingleNode

end DistQueue
