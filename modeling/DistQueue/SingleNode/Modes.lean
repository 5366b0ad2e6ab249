import DistQueue.Broker.WorkQueue
import DistQueue.SingleNode.Sections

/-!
# Two brokers, one queue

The single-node broker keeps its tasks in a heap and in a tracker; the replicated one keeps
them in one map, with a status, and finds the pending ones through a heap that may hold
more. Both are implementations of the queue of `DistQueue.Broker.WorkQueue`: the single-node
broker by what its sections do (`DistQueue.SingleNode.makes_of_step`), the replicated one by
`DistQueue.Broker.StateMachine.Implements.call`.

So a state machine to which the calls of a single-node broker are repeated – an ack or a nack
if it has found its task in flight, a timeout as a nack – stays in step with it
(`DistQueue.SingleNode.modes_agree`).
-/

namespace DistQueue

open Broker Wal

namespace SingleNode

variable {γ : Codec} {b b' : Broker} {h h' : History} {m : Move} {t : Task} {id : TaskID}

/-! ### The queue of a broker -/

namespace Broker

/-- What the broker holds. A task that the scanner is about to requeue is still in flight. -/
def queue (b : Broker) : WorkQueue :=
  ⟨b.pq, b.tracker.vals ++ b.scanner.pending, b.dlq, b.acked, b.nacked⟩

theorem live_queue (b : Broker) : b.queue.live = b.tasks := (List.append_assoc _ _ _).symm

/-- What a move asks of the queue. -/
def asks (b : Broker) : Move → Option WorkQueue.Call
  | .enqueue t newID now _ => some (.enqueue (prepare t newID now))
  | .dequeue now => some (.dequeue (now + b.cfg.taskTimeout))
  | .ack id _ => if (b.tracker.find id).isSome then some (.ack id) else none
  | .nack id _ => if (b.tracker.find id).isSome then some (.nack id) else none
  | .onTimeout _ =>
    match b.scanner with
    | .batch t _ => some (.nack t.id)
    | _ => none
  | _ => none

/-- The task that a move hands out. -/
def gives (b : Broker) : Move → Option Task
  | .dequeue now => (b.dequeue now).1
  | _ => none

/-- **No retuning and no restart**, and an `Enqueue` brings an identifier that is neither
empty nor the one of a task that is pending or in flight. -/
def Admits (b : Broker) : Move → Prop
  | .enqueue t newID now _ =>
    (prepare t newID now).id ≠ "" ∧ (prepare t newID now).id ∉ b.tasks.map Task.id
  | .applyTuning _ _ | .crash _ _ _ => False
  | _ => True

instance (b : Broker) (m : Move) : Decidable (b.Admits m) :=
  match m with
  | .enqueue _ _ _ _ => inferInstanceAs (Decidable (_ ∧ _))
  | .applyTuning _ _ | .crash _ _ _ => instDecidableFalse
  | .dequeue _ | .ack _ _ | .nack _ _ | .expired _ _ | .onTimeout _ | .compact _ | .rewrite
  | .lead | .capture | .fsync _ | .returns _ | .resume => instDecidableTrue

/-- The queue is about the tasks only. -/
theorem SameTasks.queue (h : SameTasks b b') : b'.queue = b.queue := by
  rw [Broker.queue, h.pq, h.tracker, h.pending, h.dlq, h.acked, h.nacked]
  rfl

end Broker

/-! ### What the sections do to it -/

/-- **A section makes a call to the queue**, or leaves it as it is. -/
inductive Makes (b b' : Broker) : Option WorkQueue.Call → Option Task → Prop
  | call (c : WorkQueue.Call) (res : Option Task) (q : WorkQueue)
      (hnext : WorkQueue.Next b.cfg.maxRetries b.queue c res q) (hsame : q.Same b'.queue)
      (hcfg : b'.cfg = b.cfg) : Makes b b' (some c) res
  | idle (hsame : b.queue.Same b'.queue) (hcfg : b'.cfg = b.cfg) : Makes b b' none none

theorem Makes.congr {b'' : Broker} {c : Option WorkQueue.Call} {res : Option Task}
    (hmakes : Makes b b' c res) (hqueue : b''.queue = b'.queue) (hcfg : b''.cfg = b'.cfg) :
    Makes b b'' c res := by
  cases hmakes with
  | call c res q hnext hsame hcfg' =>
    exact .call c res q hnext (hqueue ▸ hsame) (hcfg.trans hcfg')
  | idle hsame hcfg' => exact .idle (hqueue ▸ hsame) (hcfg.trans hcfg')

/-- The section has come to its end. -/
theorem Makes.compact {c : Option WorkQueue.Call} {res : Option Task} (hmakes : Makes b b' c res)
    (x : Caller) : Makes b (b'.maybeCompactLocked x) c res :=
  hmakes.congr (Broker.sameTasks_maybeCompactLocked b' x).queue
    (Broker.sameTasks_maybeCompactLocked b' x).cfg

theorem makes_nothing (hqueue : b'.queue = b.queue) (hcfg : b'.cfg = b.cfg) :
    Makes b b' none none := by
  refine .idle ?_ hcfg
  rw [hqueue]
  exact ⟨rfl, List.Perm.refl _, rfl, rfl, rfl⟩

/-- **`Enqueue` of a new identifier is an `enqueue` of the queue.** -/
theorem makes_enqueue (hid : t.id ≠ "") (hnew : t.id ∉ b.tasks.map Task.id)
    (hstatus : t.status = .pending) : Makes b (b.enqueue γ t none) (some (.enqueue t)) none := by
  refine Makes.compact ?_ _
  refine .call _ _ _ (.enqueue t hid ?_ hstatus) ⟨rfl, List.Perm.refl _, rfl, rfl, rfl⟩ rfl
  rw [Broker.live_queue]
  exact hnew

/-- **`Dequeue` is a `dequeue` of the queue.** -/
theorem makes_dequeue (hs : b.queue.Sound) (now : Time) :
    Makes b (b.dequeue now).2 (some (.dequeue (now + b.cfg.taskTimeout))) (b.dequeue now).1 := by
  unfold Broker.dequeue
  split
  · rename_i hpop
    exact .call _ _ _ (.empty _ hpop) ⟨rfl, List.Perm.refl _, rfl, rfl, rfl⟩ rfl
  · rename_i t pq hpop
    refine .call _ _ _ (.dequeue _ t pq hpop) ⟨rfl, ?_, rfl, rfl, rfl⟩ rfl
    -- a task of the heap is not tracked
    have hnew : t.id ∉ b.tracker.vals.map Task.id := by
      intro hmem
      obtain ⟨u, hu, hid⟩ := List.mem_map.mp hmem
      have hout := hs.not_mem_pq (t := u) (List.mem_append_left _ hu)
      rw [hid] at hout
      exact hout (List.mem_map_of_mem ((Heap.perm_of_pop hpop).mem_iff.mpr List.mem_cons_self))
    have hput : (b.tracker.put
        { t with status := .inFlight, deadline := now + b.cfg.taskTimeout }).vals =
        { t with status := .inFlight, deadline := now + b.cfg.taskTimeout } :: b.tracker.vals :=
      Table.vals_put_of_not_mem hnew
    unfold Broker.queue
    dsimp only
    rw [hput]
    exact List.Perm.refl _

/-- A task in flight, and the others. -/
theorem inFlight_perm (hfind : b.tracker.find id = some t) :
    b.queue.inFlight.Perm (t :: ((b.tracker.erase id).vals ++ b.scanner.pending)) :=
  (Table.perm_of_find hfind).append_right _

/-- `Ack` is what it asks for. -/
theorem makes_ack (b : Broker) (id : TaskID) :
    Makes b (b.ack γ id none) (b.asks (.ack id none)) none := by
  have hasks : b.asks (.ack id none) =
      if (b.tracker.find id).isSome then some (.ack id) else none := rfl
  rw [hasks, Broker.ack]
  split
  · rename_i hfind
    rw [hfind]
    exact makes_nothing rfl rfl
  · rename_i t hfind
    have hperm := inFlight_perm hfind
    rw [hfind]
    obtain rfl := Table.key_of_find hfind
    refine Makes.compact ?_ _
    exact .call _ _ _ (.ack t _ hperm) ⟨rfl, List.Perm.refl _, rfl, rfl, rfl⟩ rfl

/-- The shared path of nacks and timeouts, for a task that has been taken from where it
was. -/
theorem makes_requeueLocked {b₀ : Broker} {caller : ℕ → Caller}
    (hperm : b.queue.inFlight.Perm (t :: b₀.queue.inFlight)) (hpq : b₀.pq = b.pq)
    (hdlq : b₀.dlq = b.dlq) (hacked : b₀.acked = b.acked) (hnacked : b₀.nacked = b.nacked)
    (hcfg : b₀.cfg = b.cfg) :
    Makes b (b₀.requeueLocked γ t none caller) (some (.nack t.id)) none := by
  unfold Broker.requeueLocked
  dsimp only
  split
  · rename_i hbudget
    rw [hcfg] at hbudget
    refine Makes.compact ?_ _
    refine .call _ _ _ (.dead t _ hperm hbudget) ⟨hpq, List.Perm.refl _, ?_, hacked, ?_⟩ hcfg
    · exact congrArg (· ++ _) hdlq
    · exact congrArg (· + 1) hnacked
  · rename_i hbudget
    rw [hcfg] at hbudget
    refine Makes.compact ?_ _
    refine .call _ _ _ (.nack t _ hperm (Int.not_le.mp hbudget))
      ⟨?_, List.Perm.refl _, hdlq, hacked, ?_⟩ hcfg
    · exact congrArg (Heap.push Task.less · _) hpq
    · exact congrArg (· + 1) hnacked

/-- `Nack` is what it asks for. -/
theorem makes_nack (b : Broker) (id : TaskID) :
    Makes b (b.nack γ id none) (b.asks (.nack id none)) none := by
  have hasks : b.asks (.nack id none) =
      if (b.tracker.find id).isSome then some (.nack id) else none := rfl
  rw [hasks, Broker.nack]
  split
  · rename_i hfind
    rw [hfind]
    exact makes_nothing rfl rfl
  · rename_i t hfind
    have hperm := inFlight_perm hfind
    rw [hfind]
    obtain rfl := Table.key_of_find hfind
    exact makes_requeueLocked hperm rfl rfl rfl rfl rfl

/-- A timeout is a `nack` of the queue. -/
theorem makes_onTimeout {rest : List Task} (hscan : b.scanner = .batch t rest) :
    Makes b (b.onTimeout γ t rest none) (some (.nack t.id)) none := by
  refine makes_requeueLocked ?_ rfl rfl rfl rfl rfl
  unfold Broker.queue
  dsimp only
  rw [hscan]
  exact List.perm_middle

/-- To find out what has expired is nothing for the queue. -/
theorem makes_expired {now : Time} {inFlight : List Task} (hscan : b.scanner = .idle)
    (hperm : inFlight.Perm b.tracker.vals) : Makes b (b.expired now inFlight) none none := by
  refine .idle ⟨rfl, ?_, rfl, rfl, rfl⟩ rfl
  unfold Broker.queue Broker.expired
  dsimp only
  rw [Broker.pending_next, hscan, Scanner.pending, List.append_nil]
  refine List.perm_append_comm.trans (((hperm.filter _).append_right _).trans ?_)
  exact List.filter_append_perm _ _

/-- **Every section makes the call that it is asked for**, and gives what the call returns. -/
theorem makes_of_step (hs : h.broker.queue.Sound) (hm : m.Succeeds) (hadmits : h.broker.Admits m)
    (hstep : step γ h m = some h') :
    Makes h.broker h'.broker (h.broker.asks m) (h.broker.gives m) := by
  cases m with
  | enqueue t newID now fault =>
    obtain rfl : fault = none := hm
    obtain ⟨-, rfl⟩ := eq_of_locked hstep
    exact makes_enqueue hadmits.1 hadmits.2 rfl
  | dequeue now =>
    obtain ⟨-, rfl⟩ := eq_of_locked hstep
    exact makes_dequeue hs now
  | ack id fault =>
    obtain rfl : fault = none := hm
    obtain ⟨-, rfl⟩ := eq_of_locked hstep
    exact makes_ack h.broker id
  | nack id fault =>
    obtain rfl : fault = none := hm
    obtain ⟨-, rfl⟩ := eq_of_locked hstep
    exact makes_nack h.broker id
  | applyTuning taskTimeout maxRetries => exact hadmits.elim
  | expired now inFlight =>
    simp only [step, Option.ite_none_right_eq_some, Option.some.injEq] at hstep
    obtain ⟨⟨hidle, hperm⟩, rfl⟩ := hstep
    exact makes_expired hidle hperm
  | onTimeout fault =>
    obtain rfl : fault = none := hm
    unfold step at hstep
    dsimp only at hstep
    split at hstep
    · rename_i t rest hscan
      have hasks : h.broker.asks (.onTimeout none) = some (.nack t.id) := by
        simp only [Broker.asks, hscan]
      obtain ⟨-, rfl⟩ := eq_of_locked hstep
      rw [hasks]
      exact makes_onTimeout hscan
    · cases hstep
  | compact inFlight | rewrite | lead | capture | fsync ok | returns k | resume =>
    have hsame := sameTasks_of_log hstep trivial
    exact makes_nothing hsame.queue hsame.cfg
  | crash c order cfg => exact hadmits.elim

/-! ### Both together -/

/-- A single-node broker, and a state machine that the same is asked of. -/
structure Twin where
  history : History
  machine : StateMachine

namespace Twin

/-- Both modes start empty. -/
def start (cfg : Config) : Twin := ⟨.start cfg, newStateMachine cfg.maxRetries⟩

/-- A move of the broker, and the call that it is on the state machine. -/
def step (γ : Codec) (x : Twin) (m : Move) : Option Twin :=
  (SingleNode.step γ x.history m).map fun h =>
    ⟨h, (x.history.broker.asks m).elim x.machine fun c => (x.machine.call c).2⟩

end Twin

/-- The machine implements the queue of the broker, which has not been retuned. -/
def InStep (cfg : Config) (x : Twin) : Prop :=
  x.history.broker.cfg = cfg ∧
    StateMachine.Implements cfg.maxRetries x.machine x.history.broker.queue

/-- **Both modes take the step together.** -/
theorem InStep.step {cfg : Config} {x x' : Twin} (hx : InStep cfg x)
    (hm : m.Succeeds ∧ x.history.broker.Admits m) (hs : x.step γ m = some x') :
    InStep cfg x' := by
  obtain ⟨hcfg, himpl⟩ := hx
  obtain ⟨h', hstep, rfl⟩ := Option.map_eq_some_iff.mp hs
  have hmakes := makes_of_step himpl.sound hm.1 hm.2 hstep
  generalize x.history.broker.asks m = c at hmakes
  generalize x.history.broker.gives m = res at hmakes
  cases hmakes with
  | call c res q hnext hsame hcfg' =>
    rw [hcfg] at hnext
    exact ⟨hcfg'.trans hcfg, (himpl.call hnext).2.same hsame⟩
  | idle hsame hcfg' => exact ⟨hcfg'.trans hcfg, himpl.same hsame⟩

/-- **The two brokers are one queue.** In every run of a single-node broker that is neither
restarted nor retuned, in which all input and output succeeds and no `Enqueue` brings an empty
identifier or the one of a task that is pending or in flight, a state machine of which the
same is asked hands out the same task at any `Dequeue`, and has the same live tasks, the same
ones in flight, the same dead-letter queue and the same counters. -/
theorem modes_agree {cfg : Config} {ms : List Move} {x : Twin}
    (hok : Run.Guarded (Twin.step γ) (fun x m => m.Succeeds ∧ x.history.broker.Admits m)
      (Twin.start cfg) ms)
    (hx : Run.exec (Twin.step γ) (Twin.start cfg) ms = some x) :
    (∀ now, (x.machine.dequeue (now + cfg.taskTimeout)).1 = (x.history.broker.dequeue now).1) ∧
      (∀ t, t ∈ x.history.broker.tasks ↔
        ∃ r, x.machine.tasks.lookup t.id = some r ∧ x.machine.store r = t) ∧
      (∀ id, x.machine.statusOf id = some .inFlight ↔
        id ∈ (x.history.broker.tracker.vals ++ x.history.broker.scanner.pending).map Task.id) ∧
      x.machine.listDLQ = x.history.broker.dlq ∧ x.machine.acked = x.history.broker.acked ∧
      x.machine.nacked = x.history.broker.nacked := by
  have hstart : InStep cfg (Twin.start cfg) := ⟨rfl, StateMachine.implements_new cfg.maxRetries⟩
  obtain ⟨hcfg, himpl⟩ : InStep cfg x := Run.invariant_of_guarded hstart
    (fun u m u' => InStep.step) hok hx
  refine ⟨fun now => ?_, fun t => ?_, fun id => ?_, himpl.keeps.dead, himpl.acked, himpl.nacked⟩
  · have hmakes := makes_dequeue himpl.sound now
    rw [hcfg] at hmakes
    generalize (x.history.broker.dequeue now).1 = res at hmakes
    cases hmakes with
    | call c res q hnext hsame hcfg' =>
      rw [hcfg] at hnext
      exact (himpl.call hnext).1
  · rw [← Broker.live_queue]
    exact himpl.keeps.alive t
  · exact himpl.statusOf_inFlight

/-- The task `a` is nacked once, expires at its second delivery, and is given up; `b` is acked,
and `a` comes again. -/
def givenUp : List Move :=
  [.enqueue (.named "a") "" 1 none, .enqueue (.named "b") "" 2 none, .dequeue 3, .nack "a" none,
    .dequeue 4,
    .expired 40 [{ Task.named "a" with
      createdAt := 1, mono := some 1, retryCount := 1, status := .inFlight, deadline := 34 }],
    .onTimeout none, .dequeue 41, .ack "b" none, .enqueue (.named "a") "" 50 none]

/-- The theorem at a task that is given up after two attempts. -/
theorem modes_agree_givenUp :
    ∃ x, Run.exec (Twin.step plainCodec) (Twin.start ⟨2, 30, 0⟩) givenUp = some x ∧
      x.history.broker.dlq.map Task.id = ["a"] ∧ x.history.broker.tasks.map Task.id = ["a"] ∧
      x.machine.listDLQ = x.history.broker.dlq ∧
      ∀ now, (x.machine.dequeue (now + 30)).1 = (x.history.broker.dequeue now).1 := by
  have hend : (Run.exec (Twin.step plainCodec) (Twin.start ⟨2, 30, 0⟩) givenUp).map
      (fun x => (x.history.broker.dlq.map Task.id, x.history.broker.tasks.map Task.id)) =
      some (["a"], ["a"]) := by
    decide +kernel
  have hok : Run.Guarded (Twin.step plainCodec)
      (fun x m => m.Succeeds ∧ x.history.broker.Admits m) (Twin.start ⟨2, 30, 0⟩) givenUp := by
    decide +kernel
  obtain ⟨x, hx, hend⟩ := Option.map_eq_some_iff.mp hend
  obtain ⟨hdlq, htasks⟩ := Prod.mk.inj hend
  obtain ⟨hdequeue, -, -, hdead, -, -⟩ := modes_agree hok hx
  exact ⟨x, hx, hdlq, htasks, hdead, hdequeue⟩

end SingleNode

end DistQueue
