import DistQueue.SingleNode.Sections

/-!
# An append that fails

The single-node broker writes a record to its log before it makes the change the record stands
for, and an operation whose append fails is meant to leave everything as it was. `Enqueue` and
`Ack` do. The shared path of nacks and timeouts does not: it counts the nack and the retry
before it appends, and puts the task back with the count
(`DistQueue.SingleNode.unchanged_iff`). A task that is nacked while the disk is full uses up its
retries without a record of any of them, and the first nack that is written gives it up
(`DistQueue.SingleNode.failed_nacks_bury`).
-/

namespace DistQueue

open Broker Wal

namespace SingleNode

variable {γ : Codec} {b b' : Broker} {h h' : History} {m : Move}

namespace Broker

/-- The operation comes to its append, and the append fails. An `Ack` or a `Nack` has to find
its task in flight first. -/
def FailsToAppend (b : Broker) : Move → Prop
  | .enqueue _ _ _ fault => fault.isSome
  | .ack id fault | .nack id fault => fault.isSome ∧ (b.tracker.find id).isSome
  | .onTimeout fault => fault.isSome ∧ b.scanner.pending ≠ []
  | _ => False

/-- What the broker held when the operation began. A timeout begins with its task in flight:
the scanner has only taken it out of the tracker. -/
def before (b : Broker) : Move → Broker
  | .onTimeout _ =>
    match b.scanner with
    | .batch t rest => { b with tracker := b.tracker.put t, scanner := .next rest }
    | _ => b
  | _ => b

/-- **Every task is where it was and as it was, and so are the counters.** The tracker is a
map, and has no order. -/
structure Unchanged (b b' : Broker) : Prop where
  pq : b'.pq = b.pq
  tracker : b'.tracker.vals.Perm b.tracker.vals
  pending : b'.scanner.pending = b.scanner.pending
  dlq : b'.dlq = b.dlq
  acked : b'.acked = b.acked
  nacked : b'.nacked = b.nacked

theorem Unchanged.refl (b : Broker) : b.Unchanged b :=
  ⟨rfl, .refl _, rfl, rfl, rfl, rfl⟩

theorem Unchanged.trans {b'' : Broker} (h : b.Unchanged b') (h' : b'.Unchanged b'') :
    b.Unchanged b'' :=
  ⟨h'.pq.trans h.pq, h'.tracker.trans h.tracker, h'.pending.trans h.pending, h'.dlq.trans h.dlq,
    h'.acked.trans h.acked, h'.nacked.trans h.nacked⟩

end Broker

/-- The operation is a nack, a client's or the scanner's. -/
def Move.Nacks : Move → Prop
  | .nack _ _ | .onTimeout _ => True
  | _ => False

instance (m : Move) : Decidable m.Nacks :=
  match m with
  | .nack _ _ | .onTimeout _ => instDecidableTrue
  | .enqueue _ _ _ _ | .dequeue _ | .ack _ _ | .applyTuning _ _ | .expired _ _ | .compact _
  | .rewrite | .lead | .capture | .fsync _ | .returns _ | .resume
  | .crash _ _ _ => instDecidableFalse

instance (b : Broker) (m : Move) : Decidable (b.FailsToAppend m) :=
  match m with
  | .enqueue _ _ _ _ => inferInstanceAs (Decidable (_ = true))
  | .ack _ _ | .nack _ _ | .onTimeout _ => inferInstanceAs (Decidable (_ ∧ _))
  | .dequeue _ | .applyTuning _ _ | .expired _ _ | .compact _ | .rewrite | .lead | .capture
  | .fsync _ | .returns _ | .resume | .crash _ _ _ => instDecidableFalse

/-! ### One operation -/

/-- The counter of nacks gives a failed nack away. -/
theorem Broker.not_unchanged (hcount : b'.nacked = b.nacked + 1) : ¬b.Unchanged b' := by
  intro hsame
  have heq := hcount.symm.trans hsame.nacked
  omega

/-- A task that could not be requeued has its retry counted all the same. -/
theorem nacked_requeueLocked {t : Task} {n : ℕ} (caller : ℕ → Caller) :
    (b.requeueLocked γ t (some n) caller).nacked = b.nacked + 1 := by
  unfold Broker.requeueLocked
  dsimp only
  split <;> rfl

/-- An `Ack` puts its task back. -/
theorem unchanged_ack {id : TaskID} {n : ℕ} (hfind : (b.tracker.find id).isSome) :
    b.Unchanged (b.ack γ id (some n)) := by
  obtain ⟨t, ht⟩ := Option.isSome_iff_exists.mp hfind
  obtain rfl := Table.key_of_find ht
  unfold Broker.ack
  rw [ht]
  refine ⟨rfl, ?_, rfl, rfl, rfl, rfl⟩
  have hput : ((b.tracker.erase t.id).put t).vals = t :: (b.tracker.erase t.id).vals :=
    Table.vals_put_of_not_mem (Table.not_mem_keys_erase _ _)
  dsimp only [WAL.append, WAL.appendNoSync]
  rw [hput]
  exact (Table.perm_of_find ht).symm

/-- **A failed append leaves the broker unchanged exactly if the operation is no nack.** -/
theorem unchanged_step (hfail : h.broker.FailsToAppend m) (hstep : step γ h m = some h') :
    (h.broker.before m).Unchanged h'.broker ↔ ¬m.Nacks := by
  cases m with
  | enqueue t newID now fault =>
    obtain ⟨n, rfl⟩ := Option.isSome_iff_exists.mp hfail
    obtain ⟨-, rfl⟩ := eq_of_locked hstep
    exact iff_of_true ⟨rfl, .refl _, rfl, rfl, rfl, rfl⟩ id
  | ack id fault =>
    obtain ⟨hfault, hfind⟩ := hfail
    obtain ⟨n, rfl⟩ := Option.isSome_iff_exists.mp hfault
    obtain ⟨-, rfl⟩ := eq_of_locked hstep
    exact iff_of_true (unchanged_ack hfind) not_false
  | nack id fault =>
    obtain ⟨hfault, hfind⟩ := hfail
    obtain ⟨n, rfl⟩ := Option.isSome_iff_exists.mp hfault
    obtain ⟨t, ht⟩ := Option.isSome_iff_exists.mp hfind
    obtain ⟨-, rfl⟩ := eq_of_locked hstep
    refine iff_of_false (Broker.not_unchanged ?_) (not_not_intro trivial)
    unfold Broker.nack
    rw [ht]
    exact nacked_requeueLocked fun seq => .api ⟨.nack id, seq⟩
  | onTimeout fault =>
    obtain ⟨hfault, -⟩ := hfail
    obtain ⟨n, rfl⟩ := Option.isSome_iff_exists.mp hfault
    unfold step at hstep
    dsimp only at hstep
    split at hstep
    · rename_i t rest hscan
      obtain ⟨-, rfl⟩ := eq_of_locked hstep
      refine iff_of_false (Broker.not_unchanged ?_) (not_not_intro trivial)
      simp only [Broker.before, hscan, Broker.onTimeout]
      split <;> exact nacked_requeueLocked _
    · cases hstep
  | dequeue _ | applyTuning _ _ | expired _ _ | compact _ | rewrite | lead | capture | fsync _
  | returns _ | resume | crash _ _ _ => exact hfail.elim

theorem Broker.before_of_not_nacks (hm : ¬m.Nacks) : b.before m = b := by
  cases m with
  | onTimeout fault => exact absurd trivial hm
  | enqueue _ _ _ _ | ack _ _ | nack _ _ | dequeue _ | applyTuning _ _ | expired _ _ | compact _
  | rewrite | lead | capture | fsync _ | returns _ | resume | crash _ _ _ => rfl

/-! ### Any number of them -/

/-- **What a failed append leaves.** In every state, an operation whose append fails leaves the
pending tasks, the tasks in flight, the dead-letter queue and the counters as they were if and
only if it is an `Enqueue` or an `Ack`, and not a nack or a timeout. Any number of failed
`Enqueue`s and `Ack`s leave them as they were. -/
theorem unchanged_iff (γ : Codec) (h : History) :
    (∀ m h', h.broker.FailsToAppend m → step γ h m = some h' →
      ((h.broker.before m).Unchanged h'.broker ↔ ¬m.Nacks)) ∧
    ∀ ms h', Run.Guarded (step γ) (fun h m => h.broker.FailsToAppend m ∧ ¬m.Nacks) h ms →
      Run.exec (step γ) h ms = some h' → h.broker.Unchanged h'.broker := by
  refine ⟨fun m h' => unchanged_step, fun ms h' hG hrun => ?_⟩
  refine Run.invariant_of_guarded (P := fun u => h.broker.Unchanged u.broker) (.refl _) ?_ hG hrun
  rintro u m u' hu ⟨hfail, hm⟩ hstep
  have hsame := (unchanged_step hfail hstep).mpr hm
  rw [Broker.before_of_not_nacks hm] at hsame
  exact hu.trans hsame

/-- The task `a` is in flight, and has three tries. -/
def holdingA : History :=
  (Run.exec (step plainCodec) (History.start ⟨3, 30, 0⟩)
    [.enqueue (.named "a") "" 1 none, .dequeue 2]).getD (.start ⟨3, 30, 0⟩)

/-- None of these get to the log. -/
def failedAttempts : List Move :=
  [.ack "a" (some 1), .enqueue (.named "b") "" 3 (some 0), .ack "a" (some 2)]

/-- The theorem at a broker with a task in flight, whose calls fail. -/
theorem unchanged_iff_holdingA :
    ∃ h, Run.exec (step plainCodec) holdingA failedAttempts = some h ∧
      holdingA.broker.tracker.vals.map Task.id = ["a"] ∧ holdingA.broker.Unchanged h.broker :=
  ⟨_, rfl, by decide +kernel,
    (unchanged_iff plainCodec holdingA).2 failedAttempts _ (by decide +kernel) rfl⟩

/-- **Failed nacks use up the retries of a task.** A task with three tries is delivered once. Two
nacks of it are not written, and the third, which is the first in the log, gives it up. -/
theorem failed_nacks_bury :
    ∃ h h', Run.exec (step plainCodec) (History.start ⟨3, 30, 0⟩)
        [.enqueue (.named "a") "" 1 none, .dequeue 2] = some holdingA ∧
      holdingA.broker.FailsToAppend (.nack "a" (some 0)) ∧
      step plainCodec holdingA (.nack "a" (some 0)) = some h ∧
      ¬(holdingA.broker.before (.nack "a" (some 0))).Unchanged h.broker ∧
      Run.exec (step plainCodec) h [.nack "a" (some 0), .nack "a" none] = some h' ∧
      h'.broker.dlq.map (fun t => (t.id, t.retryCount)) = [("a", 3)] :=
  ⟨_, _, rfl, by decide +kernel, rfl, fun hsame => absurd hsame.nacked (by decide +kernel), rfl,
    by decide +kernel⟩

end SingleNode

end DistQueue
