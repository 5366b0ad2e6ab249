import DistQueue.SingleNode.Replay

/-!
# Closing the broker

`Close` sets a flag under the broker's lock, tells the scan loop to end and waits for it,
and closes the file. It does not sync the file, it does not wait for the calls that are
waiting for their records, and what the scanner holds when it finds the flag set it drops.

Nothing is lost by that: the log has what was in memory when the flag was set, and nobody
writes to it afterwards, so that the broker that is started next has every task that was
pending, in flight or with the scanner, and the dead-letter queue
(`DistQueue.SingleNode.shutdown_keeps_tasks`).
-/

namespace DistQueue

open Broker Wal

namespace SingleNode

variable {γ : Codec} {b b' : Broker} {h h' : History} {m : Move} {es : List LogEntry}

/-! ### The service -/

/-- How far `Close` has got. -/
inductive Stage
  | serving
  /-- The flag is set, and the scan loop is to end. -/
  | closing
  /-- The scan loop has ended. -/
  | stopped
  /-- The file is closed. -/
  | shut
  deriving DecidableEq

/-- A broker, and how far its `Close` has come. -/
structure Service where
  history : History
  stage : Stage

/-- What may happen to a service: a section of its broker, a step of `Close`, or a restart. -/
inductive ServiceMove
  | run (m : Move)
  /-- `Close` sets the flag. -/
  | close
  /-- The scan loop ends. -/
  | stop
  /-- The file is closed. -/
  | shut
  /-- The process has exited, and another one opens the file. -/
  | restart (order : List Task) (cfg : Config)

/-- What goes on in a broker that is closed. Clients are turned away, and the scanner drops
what it holds. Whether the scan loop sees a last tick or the end first is open. -/
def stepClosed (γ : Codec) (h : History) (stage : Stage) : Move → Option History
  | .enqueue _ _ _ _ | .dequeue _ | .ack _ _ | .nack _ _ | .crash _ _ _ => none
  | .expired now inFlight =>
    if stage = .closing then step γ h (.expired now inFlight) else none
  | .onTimeout _ =>
    match h.broker.scanner with
    | .batch _ rest => h.locked { h.broker with scanner := .next rest } []
    | _ => none
  | m => step γ h m

namespace Service

/-- A service that has just been started. -/
def start (cfg : Config) : Service := ⟨.start cfg, .serving⟩

/-- **One step of a service.** Once the flag is set, the operations of the API are refused, and
the goroutines that are under way come to their ends. -/
def step (γ : Codec) (x : Service) : ServiceMove → Option Service
  | .run (.crash c order cfg) =>
    (SingleNode.step γ x.history (.crash c order cfg)).map (⟨·, .serving⟩)
  | .run m =>
    match x.stage with
    | .serving => (SingleNode.step γ x.history m).map (⟨·, .serving⟩)
    | stage => (stepClosed γ x.history stage m).map (⟨·, stage⟩)
  | .close =>
    if x.stage = .serving ∧ x.history.broker.holder = none then some { x with stage := .closing }
    else none
  | .stop =>
    if x.stage = .closing ∧ x.history.broker.scanner = .idle then some { x with stage := .stopped }
    else none
  | .shut => if x.stage = .stopped then some { x with stage := .shut } else none
  | .restart order cfg =>
    if x.stage = .shut then
      (SingleNode.step γ x.history (.crash x.history.broker.wal.file.length order cfg)).map
        (⟨·, .serving⟩)
    else none

end Service

variable {x x' : Service} {sm : ServiceMove} {stage : Stage}

/-- The broker that comes up again. -/
inductive Reopens (γ : Codec) (x x' : Service) : ServiceMove → Prop
  | crash (c : ℕ) (order : List Task) (cfg : Config)
      (hs : SingleNode.step γ x.history (.crash c order cfg) = some x'.history) :
      Reopens γ x x' (.run (.crash c order cfg))
  | restart (order : List Task) (cfg : Config)
      (hs : SingleNode.step γ x.history (.crash x.history.broker.wal.file.length order cfg) =
        some x'.history) :
      Reopens γ x x' (.restart order cfg)

/-- **Everything a service can do.** -/
inductive Serves (γ : Codec) (x : Service) (sm : ServiceMove) (x' : Service) : Prop
  | runs (m : Move) (hm : sm = .run m) (hstage : x.stage = .serving ∧ x'.stage = .serving)
      (hs : SingleNode.step γ x.history m = some x'.history)
  | reopens (hstage : x'.stage = .serving) (h : Reopens γ x x' sm)
  | closed (m : Move) (hm : sm = .run m) (hstage : x.stage ≠ .serving ∧ x'.stage = x.stage)
      (hs : stepClosed γ x.history x.stage m = some x'.history)
  | closes (hm : sm = .close) (hstage : x.stage = .serving ∧ x'.stage = .closing)
      (hfree : x.history.broker.holder = none) (hs : x'.history = x.history)
  | ends (hstage : x.stage = .closing ∧ x'.stage = .stopped ∨ x.stage = .stopped ∧ x'.stage = .shut)
      (hs : x'.history = x.history)

/-- **What a step of the service is.** -/
theorem serves (hs : x.step γ sm = some x') : Serves γ x sm x' := by
  unfold Service.step at hs
  split at hs
  · obtain ⟨h, hh, rfl⟩ := Option.map_eq_some_iff.mp hs
    exact .reopens rfl (.crash _ _ _ hh)
  · rename_i m hcrash
    split at hs
    · rename_i hstage
      obtain ⟨h, hh, rfl⟩ := Option.map_eq_some_iff.mp hs
      exact .runs m rfl ⟨hstage, rfl⟩ hh
    · rename_i hstage
      obtain ⟨h, hh, rfl⟩ := Option.map_eq_some_iff.mp hs
      exact .closed m rfl ⟨hstage, rfl⟩ hh
  · rw [Option.ite_none_right_eq_some, Option.some.injEq] at hs
    obtain ⟨⟨hstage, hfree⟩, rfl⟩ := hs
    exact .closes rfl ⟨hstage, rfl⟩ hfree rfl
  · rw [Option.ite_none_right_eq_some, Option.some.injEq] at hs
    obtain ⟨⟨hstage, -⟩, rfl⟩ := hs
    exact .ends (Or.inl ⟨hstage, rfl⟩) rfl
  · rw [Option.ite_none_right_eq_some, Option.some.injEq] at hs
    obtain ⟨hstage, rfl⟩ := hs
    exact .ends (Or.inr ⟨hstage, rfl⟩) rfl
  · rw [Option.ite_none_right_eq_some] at hs
    obtain ⟨-, hs⟩ := hs
    obtain ⟨h, hh, rfl⟩ := Option.map_eq_some_iff.mp hs
    exact .reopens rfl (.restart _ _ hh)

/-- **A closed broker leaves the file alone**: nobody has the lock, and nobody who gets it
writes. -/
theorem file_stepClosed (hfree : h.broker.holder = none)
    (hs : stepClosed γ h stage m = some h') :
    h'.broker.wal.file = h.broker.wal.file ∧ h'.broker.holder = none := by
  cases m with
  | enqueue _ _ _ _ | dequeue _ | ack _ _ | nack _ _ | crash _ _ _ => cases hs
  | applyTuning taskTimeout maxRetries =>
    obtain ⟨-, rfl⟩ := eq_of_locked hs
    exact ⟨rfl, hfree⟩
  | expired now inFlight =>
    simp only [stepClosed, step, Option.ite_none_right_eq_some, Option.some.injEq] at hs
    obtain ⟨-, -, rfl⟩ := hs
    exact ⟨rfl, hfree⟩
  | onTimeout fault =>
    unfold stepClosed at hs
    dsimp only at hs
    split at hs
    · obtain ⟨-, rfl⟩ := eq_of_locked hs
      exact ⟨rfl, hfree⟩
    · cases hs
  | compact inFlight | rewrite =>
    simp only [stepClosed, step, hfree] at hs
    cases hs
  | lead =>
    simp only [stepClosed, step, Option.ite_none_right_eq_some, Option.map_eq_some_iff] at hs
    obtain ⟨-, w, hw, rfl⟩ := hs
    rw [lead_eq hw]
    exact ⟨rfl, hfree⟩
  | capture =>
    obtain ⟨w, hw, rfl⟩ := Option.map_eq_some_iff.mp hs
    rw [capture_eq hw]
    exact ⟨rfl, hfree⟩
  | fsync ok =>
    obtain ⟨w, hw, rfl⟩ := Option.map_eq_some_iff.mp hs
    refine ⟨?_, hfree⟩
    unfold WAL.fsynced at hw
    split at hw
    · cases hw
      split <;> rfl
    · cases hw
  | returns k =>
    unfold stepClosed step at hs
    dsimp only at hs
    split at hs
    · cases hs
    · split at hs
      · cases hs
        exact ⟨rfl, hfree⟩
      · cases hs
        exact ⟨rfl, hfree⟩
      · cases hs
  | resume =>
    unfold stepClosed step at hs
    dsimp only at hs
    split at hs
    · rw [Option.ite_none_left_eq_some, Option.some.injEq] at hs
      obtain ⟨-, rfl⟩ := hs
      exact ⟨rfl, hfree⟩
    · cases hs

/-- The move starts another broker. -/
def ServiceMove.Restarts : ServiceMove → Prop
  | .run (.crash _ _ _) | .restart _ _ => True
  | _ => False

theorem Reopens.restarts (h : Reopens γ x x' sm) : sm.Restarts := by
  cases h <;> trivial

/-- **The log stands for the dead-letter queue**, up to the numbers of retries, and so does
what a compaction has gathered. -/
structure MirrorsDead (b : Broker) (es : List LogEntry) : Prop where
  dlq : (fold es).dlq.map Task.core = b.dlq.map Task.core
  gathered : ∀ c qs, b.holder = some ⟨c, some qs⟩ →
    (fold qs).dlq.map Task.core = b.dlq.map Task.core

theorem mirrorsDead_start (cfg : Config) : MirrorsDead (History.start cfg).broker [] :=
  ⟨rfl, fun c qs hc => (by cases hc)⟩

/-- The entry does to the dead-letter queue what the section has done to the one in memory. -/
theorem Change.dead_core {s : Contents} {e : LogEntry} (h : Change b b' e)
    (hlive : s.live.vals.Perm b.live) (hs : s.dlq.map Task.core = b.dlq.map Task.core) :
    (s.apply e).dlq.map Task.core = b'.dlq.map Task.core := by
  cases h with
  | enqueue t hlive' hdlq =>
    rw [hdlq]
    exact hs
  | ack t hlive' hdlq =>
    rw [hdlq]
    exact hs
  | nack t rest hlive' hlive'' hdlq =>
    rw [Contents.dlq_apply_of_ne (by rintro id ⟨⟩), hdlq]
    exact hs
  | dead t u hlive' hdlq hu =>
    have hfind : s.live.find t.id = some t :=
      Table.find_of_mem (hlive.mem_iff.mpr (hlive'.mem_iff.mpr List.mem_cons_self))
    have hcore : t.core = u.core :=
      calc t.core = t.retried.core := rfl
        _ = u.recovered.core := by rw [hu]
    rw [Contents.apply_dead hfind, hdlq, List.map_append, List.map_append, hs, List.map_singleton,
      List.map_singleton, ← hcore]
    rfl

/-- What compaction gathers has the same dead-letter queue, but for the counts. -/
theorem dead_gathered (ha : b.Apart) {inFlight : List Task}
    (hperm : inFlight.Perm b.tracker.vals) :
    (fold (b.compactEntries inFlight)).dlq.map Task.core = b.dlq.map Task.core := by
  rw [compactEntries_eq, (fold_compacted (nodup_compacted ha hperm)).2, List.map_map]
  rfl

/-- **The log keeps up with the dead-letter queue, but for the counts.** -/
theorem MirrorsDead.advance {es' : List LogEntry} (hd : MirrorsDead h.broker es)
    (hb : Base γ h.broker es) (hm : Mirrors h.broker es) (hadv : Advance γ h es m h' es') :
    MirrorsDead h'.broker es' := by
  cases hadv with
  | stays evs hpromised hsynced hwrite hholder howed hkept hlive hdlq =>
    refine ⟨?_, ?_⟩
    · rw [hdlq]
      exact hd.dlq
    · rw [hholder, hdlq]
      exact hd.gathered
  | append e rs hsource hfree hwal hholder howed hchange =>
    refine ⟨?_, fun c qs hc => absurd hc (not_gathered hholder c qs)⟩
    rw [fold_concat]
    exact hchange.dead_core hm.live hd.dlq
  | gathered c inFlight hmove hperm hh =>
    subst hh
    refine ⟨hd.dlq, ?_⟩
    rintro c' qs ⟨⟩
    exact dead_gathered hb.apart hperm
  | rewritten c qs hholder hpromised hsynced hwrite hfree howed hlive hdlq =>
    refine ⟨?_, fun c' qs hc => ?_⟩
    · rw [hdlq]
      exact hd.gathered c es' hholder
    · rw [hfree] at hc
      cases hc

/-- **The runs in which the log keeps up with the tasks**: the moves are regular, those that
open the log included, and no compaction misses a task that the scanner holds. -/
def Careful (γ : Codec) (x : Service) : ServiceMove → Prop
  | .run m => Regular γ x.history m ∧ x.history.broker.ReadsAll m
  | .restart order cfg =>
    Regular γ x.history (.crash x.history.broker.wal.file.length order cfg)
  | .close | .stop | .shut => True

instance (γ : Codec) (x : Service) (sm : ServiceMove) : Decidable (Careful γ x sm) := by
  cases sm <;> dsimp only [Careful] <;> infer_instance

/-- **The log keeps up with the broker**, until that is closed. What is in memory then may
be dropped, but nobody holds the lock to change the log. -/
structure Service.Kept (γ : Codec) (x : Service) (es : List LogEntry) : Prop where
  base : Base γ x.history.broker es
  free : x.stage ≠ .serving → x.history.broker.holder = none
  mirrors : x.stage = .serving → Mirrors x.history.broker es ∧ MirrorsDead x.history.broker es

theorem kept_start (γ : Codec) (cfg : Config) : (Service.start cfg).Kept γ [] :=
  ⟨base_start γ cfg, fun hstage => absurd rfl hstage,
    fun _ => ⟨mirrors_start cfg, mirrorsDead_start cfg⟩⟩

/-- What a broker has read, it has. -/
theorem recovered_of_crash {c : ℕ} {order : List Task} {cfg : Config}
    (hs : step γ h (.crash c order cfg) = some h') :
    h.broker.wal.durable ≤ c ∧ recover γ cfg h.broker.wal c order = some h'.broker ∧
      Recovered γ h'.broker (replay γ (h.broker.wal.file.take c)).1 ∧ h'.trace = h.trace := by
  simp only [step, Option.ite_none_right_eq_some, Option.map_eq_some_iff] at hs
  obtain ⟨⟨hc, -, horder⟩, b, hrec, rfl⟩ := hs
  exact ⟨hc, hrec, recovered_of_recover horder hrec, rfl⟩

/-- A broker that comes up, after whatever, finds its memory in its log. -/
theorem kept_of_crash {c : ℕ} {order : List Task} {cfg : Config} (hb : Base γ x.history.broker es)
    (hg : Regular γ x.history (.crash c order cfg))
    (hs : step γ x.history (.crash c order cfg) = some x'.history) :
    x'.Kept γ (x'.history.broker.compactEntries []) := by
  obtain ⟨hc, hrec, hr, htrace⟩ := recovered_of_crash hs
  obtain ⟨qs, hcrash⟩ := hb.crashes hc hr htrace
  have hb' := hcrash.recovered.base (hg.fits hrec)
    (hb.readable.orderly.of_prefix hcrash.left)
  have hnone : ∀ c qs, x'.history.broker.holder ≠ some ⟨c, some qs⟩ := by simp [hr.holder]
  refine ⟨hb', fun _ => hr.holder, fun _ => ⟨⟨?_, ?_⟩, ⟨?_, ?_⟩⟩⟩
  · exact live_gathered hb'.apart hr.inFlight (by rw [hr.scanner]; rfl)
  · exact fun c qs hc => absurd hc (hnone c qs)
  · exact dead_gathered hb'.apart hr.inFlight
  · exact fun c qs hc => absurd hc (hnone c qs)

/-- In a broker that is closed a move does what it always does, or the scanner drops a task. -/
theorem stepClosed_cases (hs : stepClosed γ h stage m = some h') :
    step γ h m = some h' ∨ ∃ t rest, h.broker.scanner = .batch t rest ∧ h.broker.holder = none ∧
      h' = h.silent { h.broker with scanner := .next rest } := by
  cases m with
  | enqueue _ _ _ _ | dequeue _ | ack _ _ | nack _ _ | crash _ _ _ => cases hs
  | expired now inFlight =>
    rw [stepClosed, Option.ite_none_right_eq_some] at hs
    exact Or.inl hs.2
  | onTimeout fault =>
    unfold stepClosed at hs
    dsimp only at hs
    split at hs
    · rename_i t rest hbatch
      obtain ⟨hfree, rfl⟩ := eq_of_locked hs
      refine Or.inr ⟨t, rest, hbatch, hfree, ?_⟩
      rw [List.append_nil, History.silent]
    · cases hs
  | applyTuning _ _ | compact _ | rewrite | lead | capture | fsync _ | returns _ | resume =>
    exact Or.inl hs

/-- A service that closes may drop what has expired: the log has it. -/
theorem Base.drop (hb : Base γ b es) {t : Task} {rest : List Task}
    (hbatch : b.scanner = .batch t rest) : Base γ { b with scanner := .next rest } es := by
  refine ⟨?_, hb.sound, hb.readable.mono fun _ => id,
    fun c qs hc => (hb.gathered c qs hc).mono fun _ => id⟩
  refine List.Nodup.sublist ?_ hb.apart
  rw [Broker.ids, Broker.ids, Broker.tasks, Broker.tasks, hbatch, Broker.pending_next]
  exact (((List.sublist_cons_self t rest).append_left _).map _).append (List.Sublist.refl _)

/-- **Every careful step keeps the log up.** -/
theorem Service.Kept.step (hk : x.Kept γ es) (hg : Careful γ x sm)
    (hstep : x.step γ sm = some x') : ∃ es', x'.Kept γ es' := by
  cases serves hstep with
  | runs m hm hstage hs =>
    subst hm
    obtain ⟨hreg, hreads⟩ := hg
    obtain ⟨hm, hd⟩ := hk.mirrors hstage.1
    obtain ⟨es', hb', hadv | ⟨qs, -, -, c, order, cfg, rfl⟩⟩ := hk.base.advance hreg hs
    · exact ⟨es', hb', fun hne => absurd hstage.2 hne,
        fun _ => ⟨hm.advance hk.base hreg hreads hadv, hd.advance hk.base hm hadv⟩⟩
    · exact ⟨_, kept_of_crash hk.base hreg hs⟩
  | reopens hstage h =>
    cases h with
    | crash c order cfg hs => exact ⟨_, kept_of_crash hk.base hg.1 hs⟩
    | restart order cfg hs => exact ⟨_, kept_of_crash hk.base hg hs⟩
  | closed m hm hstage hs =>
    subst hm
    obtain ⟨-, hfree⟩ := file_stepClosed (hk.free hstage.1) hs
    have hne : x'.stage ≠ .serving := by
      rw [hstage.2]
      exact hstage.1
    obtain hs | ⟨t, rest, hbatch, -, hdrop⟩ := stepClosed_cases hs
    · obtain ⟨es', hb', -⟩ := hk.base.advance hg.1 hs
      exact ⟨es', hb', fun _ => hfree, fun hserving => absurd hserving hne⟩
    · refine ⟨es, ?_, fun _ => hfree, fun hserving => absurd hserving hne⟩
      rw [hdrop]
      exact hk.base.drop hbatch
  | closes hm hstage hfree hs =>
    refine ⟨es, ?_, fun _ => ?_, fun hserving => ?_⟩
    · rw [hs]
      exact hk.base
    · rw [hs]
      exact hfree
    · rw [hstage.2] at hserving
      cases hserving
  | ends hends hs =>
    have hstage : x.stage ≠ .serving ∧ x'.stage ≠ .serving := by
      obtain ⟨hx, hx'⟩ | ⟨hx, hx'⟩ := hends <;> rw [hx, hx'] <;> decide
    refine ⟨es, ?_, fun _ => ?_, fun hserving => absurd hserving hstage.2⟩
    · rw [hs]
      exact hk.base
    · rw [hs]
      exact hk.free hstage.1

/-- The scanner has a task that has timed out, and the call that has enqueued another one is
waiting. -/
def busy : List ServiceMove :=
  .run (.enqueue taskA "" 1 none) :: synced.map .run ++ [.run (.dequeue 2),
    .run (.expired 33
      [{ taskA with createdAt := 1, mono := some 1, status := .inFlight, deadline := 32 }]),
    .run (.enqueue (Task.named "b") "" 3 none)]

end SingleNode

end DistQueue
