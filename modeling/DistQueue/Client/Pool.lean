import DistQueue.Client.Worker
import DistQueue.Server.Tasks

/-!
# Workers on a cluster

The whole service: the cluster with its servers, and the goroutines of any number of workers, each
in its loop and each going through the failover client of its worker. A request reaches a node as
an RPC; the response of the handler reaches the client once the handler has returned, unless it is
lost before, for which any error may be given; a node that crashes loses the requests it has not
answered. Other clients may call the servers too, except that only workers ack.

This is what the queue is for, from one end to the other.

* A handler is run on nothing but what a producer has enqueued
  (`DistQueue.Client.handled_were_enqueued`).
* A task whose `Enqueue` has returned success is in the queue of every server that has got that
  far, live or dead-lettered, until a handler has been run on it and has returned without an error
  (`DistQueue.Client.delivered_at_least_once`). Here a task is what its identifier stands for: if
  a producer enqueues it a second time after it was done, then a late ack of the first delivery
  removes it again. Neither the retries of the clients nor the panics
  of the handlers nor anything that may happen in the cluster makes an ack of a task that was not
  done.
-/

namespace DistQueue

namespace Client

open Broker Raft Server

/-! ### The goroutines of the workers -/

/-- What has become of the request of an attempt. -/
inductive Delivery
  | unsent
  /-- It is the `k`-th RPC of the node. -/
  | arrived (n : NodeID) (k : ℕ)
  /-- The node has crashed since. -/
  | lost

/-- A goroutine of a worker, with the client it uses and the call it is in. -/
structure Goroutine where
  client : ℕ
  loop : Loop
  call : Option (Call Response × Delivery)

/-- The call that the loop is in. -/
def Loop.rpc : Loop → Option Rpc
  | .dequeuing _ => some .dequeue
  | .finishing .ack task => some (.ack task.id)
  | .finishing .nack task => some (.nack task.id)
  | _ => none

/-- The loop goes on, and with it into a call. -/
def Goroutine.enter (gr : Goroutine) (l : Loop) : Goroutine :=
  { gr with loop := l, call := l.rpc.map fun _ => (.next 0 none, .unsent) }

/-- The response of a server, as the client sees it. -/
def result : Response → Except Error Response
  | .failed st => .error (.ofStatus st)
  | r => .ok r

/-- What the loop learns from a call that has returned. -/
def Loop.told (r : Except Error Response) (done : Bool) (draw : ℕ) : Loop → Option Event
  | .dequeuing _ =>
    match r with
    | .ok (.dequeued task) => some (.dequeued (.ok task) done draw)
    | .ok _ => none
    | .error err => some (.dequeued (.error err) done draw)
  | .finishing _ _ => some (.finished (r.map fun _ => ()))
  | _ => none

/-- The task that the handler has just done. -/
def Loop.done : Loop → Event → List ProtoTask
  | .handling task, .handled .done => [task]
  | _, _ => []

/-- Whether the event is the result of a call. -/
def Event.isReply : Event → Bool
  | .dequeued _ _ _ | .finished _ => true
  | _ => false

/-- A request to a node that has crashed is lost. -/
def Goroutine.lose (crashed : Option NodeID) (gr : Goroutine) : Goroutine :=
  match gr.call with
  | some (c, .arrived n _) =>
    if crashed = some n then { gr with call := some (c, .lost) } else gr
  | _ => gr

/-! ### The service -/

/-- The cluster, the clients and the goroutines of the workers, and the tasks that were done. -/
structure Pool where
  system : System
  failover : ℕ → Failover
  goroutines : List Goroutine
  handled : List ProtoTask

/-- What may happen next, in the cluster, to the goroutines of the pool and to their calls. -/
inductive PoolMove
  /-- Anything in the cluster, and the calls of other clients. -/
  | system (x : SystemMove)
  /-- The loop of a goroutine outside its calls. -/
  | loop (g : ℕ) (e : Event)
  /-- A section of the client; a reply here is an error of the transport. -/
  | call (g : ℕ) (i : Input Response)
  /-- The request reaches a node. -/
  | send (g : ℕ)
  /-- The response reaches the client. -/
  | receive (g : ℕ)
  /-- The call returns to the loop. -/
  | resume (g : ℕ) (done : Bool) (draw : ℕ)

/-- What the service is made of: the addresses of the nodes, the worker and the servers. -/
structure Setup where
  worker : WorkerConfig
  resolve : String → Option NodeID
  servers : ClusterConfig
  maxRetries : ℤ
  members : Membership

/-- Whether a move is an ack of a client. -/
def isAckCall : SystemMove → Bool
  | .serve _ (.call (.ack _)) => true
  | _ => false

/-- The node that a move makes crash. -/
def crashedBy (M : Membership) (s : System) (x : SystemMove) : Option NodeID :=
  (s.call M x).bind fun c => crashed M s.world c.1

/-- The input is a result of the RPC, not an error of the transport. -/
def isResult : Input Response → Bool
  | .reply (.ok _) => true
  | _ => false

namespace Pool

/-- A goroutine goes on. -/
def set (p : Pool) (g : ℕ) (gr : Goroutine) : Pool := { p with goroutines := p.goroutines.set g gr }

/-- A section of the client of a goroutine. -/
def callStep (p : Pool) (g : ℕ) (gr : Goroutine) (c : Call Response) (i : Input Response) :
    Option Pool :=
  (c.step (p.failover gr.client) i).map fun r =>
    { p with
      failover := Function.update p.failover gr.client r.1
      goroutines := p.goroutines.set g { gr with call := some (r.2, .unsent) } }

/-- **One step of the workers and the cluster.** Acks come from the workers only. -/
def step (S : Setup) (p : Pool) : PoolMove → Option Pool
  | .system x =>
    if isAckCall x then none
    else (p.system.step S.servers S.maxRetries S.members x).map fun s =>
      { p with
        system := s
        goroutines := p.goroutines.map (Goroutine.lose (crashedBy S.members p.system x)) }
  | .loop g e => do
    let gr ← p.goroutines[g]?
    if e.isReply then none
    else
      let l ← gr.loop.step (newWorker S.worker) e
      return { p.set g (gr.enter l) with handled := p.handled ++ gr.loop.done e }
  | .call g i => do
    let gr ← p.goroutines[g]?
    let c ← gr.call
    if isResult i then none else p.callStep g gr c.1 i
  | .send g => do
    let gr ← p.goroutines[g]?
    match gr.call with
    | some (.calling attempt addr, .unsent) => do
      let rpc ← gr.loop.rpc
      let n ← S.resolve addr
      let s ← p.system.step S.servers S.maxRetries S.members (.serve n (.call rpc))
      let delivery := .arrived n (p.system.server n).handlers.length
      return { p.set g { gr with call := some (.calling attempt addr, delivery) } with system := s }
    | _ => none
  | .receive g => do
    let gr ← p.goroutines[g]?
    match gr.call with
    | some (c, .arrived n k) =>
      match (p.system.server n).handlers[k]? with
      | some (.returned r) => p.callStep g gr c (.reply (result r))
      | _ => none
    | _ => none
  | .resume g done draw => do
    let gr ← p.goroutines[g]?
    match gr.call with
    | some (.returned r, _) => do
      let e ← gr.loop.told r done draw
      let l ← gr.loop.step (newWorker S.worker) e
      return p.set g (gr.enter l)
    | _ => none

/-- The cluster before anything has run, with the addresses of every client and the client of
every goroutine. -/
def start (S : Setup) (addrs : ℕ → List String) (clients : List ℕ) : Pool where
  system := System.start S.maxRetries S.members
  failover c := newFailover (addrs c)
  goroutines := clients.map fun c => ⟨c, Loop.start (newWorker S.worker), none⟩
  handled := []

end Pool

/-! ### What a goroutine carries -/

variable {S : Setup} {M : Membership} {T T' : List (Action Payload)} {done done' : List ProtoTask}
  {gr gr' : Goroutine} {p p' : Pool} {ps : List PoolMove} {xs : List SystemMove}

/-- **What the goroutines of the workers know**: the tasks they have been given stem from enqueues,
and they ack what was done. -/
structure Goroutine.Carries (M : Membership) (T : List (Action Payload)) (done : List ProtoTask)
    (gr : Goroutine) : Prop where
  handling : ∀ task, gr.loop = .handling task → Replied M T task
  finishing : ∀ v task, gr.loop = .finishing v task → v = .ack → task ∈ done
  returned : ∀ task d, gr.call = some (.returned (.ok (.dequeued task)), d) → Replied M T task
  arrived : ∀ c n k, gr.call = some (c, .arrived n k) → n ∈ M.ids

namespace Goroutine

theorem Carries.mono (h : gr.Carries M T done) (hT : T <+: T') (hdone : done ⊆ done') :
    gr.Carries M T' done' where
  handling task hl := (h.handling task hl).mono hT
  finishing v task hl hv := hdone (h.finishing v task hl hv)
  returned task d hc := (h.returned task d hc).mono hT
  arrived := h.arrived

/-- A crash takes the answer, not the task. -/
theorem Carries.lose (h : gr.Carries M T done) (n : Option NodeID) :
    (gr.lose n).Carries M T done := by
  unfold Goroutine.lose
  split
  · rename_i c m k hcall
    split
    · exact ⟨h.handling, h.finishing, fun task d hc => h.returned task _ (by cases hc; exact hcall),
        fun _ _ _ hc => by cases hc⟩
    · exact h
  · exact h

/-- The loop goes on into a place at which it has no new task, or is done with the one it had. -/
theorem carries_enter {l : Loop}
    (hhandling : ∀ task, l = .handling task → Replied M T task)
    (hfinishing : ∀ v task, l = .finishing v task → v = .ack → task ∈ done) :
    (gr.enter l).Carries M T done := by
  refine ⟨hhandling, hfinishing, fun task d hc => ?_, fun c n k hc => ?_⟩
  · obtain ⟨rpc, -, hc⟩ := Option.map_eq_some_iff.mp hc
    cases hc
  · obtain ⟨rpc, -, hc⟩ := Option.map_eq_some_iff.mp hc
    cases hc

/-- **The loop outside its calls**: the handler has been run, and its task is acked if it was
done. -/
theorem carries_loop {wcfg : WorkerConfig} {e : Event} {l : Loop}
    (he : e.isReply = false) (hl : gr.loop.step wcfg e = some l) :
    (gr.enter l).Carries M T (done ++ gr.loop.done e) := by
  refine carries_enter ?_ ?_
  · rintro task rfl
    obtain ⟨b, ctx, draw, -, rfl⟩ := Loop.step_handling hl
    cases he
  · rintro v task rfl rfl
    obtain ⟨o, hloop, rfl, hv⟩ := Loop.step_finishing hl
    cases o with
    | done =>
      rw [hloop]
      exact List.mem_append_right _ (List.mem_singleton_self _)
    | failed | panicked => cases hv

/-- **The loop after a call**: it has a new task, or is done with the one it had. -/
theorem Carries.resume (h : gr.Carries M T done) {wcfg : WorkerConfig} {e : Event} {l : Loop}
    {r : Except Error Response} {d : Delivery} {b : Bool} {draw : ℕ}
    (hcall : gr.call = some (.returned r, d)) (he : gr.loop.told r b draw = some e)
    (hl : gr.loop.step wcfg e = some l) : (gr.enter l).Carries M T done := by
  refine carries_enter ?_ ?_
  · rintro task rfl
    obtain ⟨backoff, ctx, draw', hloop, rfl⟩ := Loop.step_handling hl
    rw [hloop] at he
    simp only [Loop.told] at he
    split at he
    · cases he
      exact h.returned task d hcall
    · cases he
    · cases he
  · rintro v task rfl -
    obtain ⟨o, hloop, rfl, -⟩ := Loop.step_finishing hl
    rw [hloop] at he
    cases he

/-- **A section of the client**: what it returns is what it was given. -/
theorem Carries.call (h : gr.Carries M T done) {c : Call Response} {f f' : Failover}
    {i : Input Response} {c' : Call Response} (hc : c.step f i = some (f', c'))
    (hi : ∀ task, i = .reply (.ok (.dequeued task)) → Replied M T task) :
    { gr with call := some (c', .unsent) : Goroutine }.Carries M T done := by
  refine ⟨h.handling, h.finishing, fun task d hcall => ?_, fun _ _ _ hcall => by cases hcall⟩
  cases hcall
  exact hi task (Call.step_ok hc)

end Goroutine

/-- Only a `Dequeue` brings a task. -/
theorem result_dequeued {r : Response} {task : ProtoTask} (h : result r = .ok (.dequeued task)) :
    r = .dequeued task := by
  cases r <;> cases h
  rfl

/-- A goroutine is done with the task that it handles. -/
theorem Loop.handling_of_done {l : Loop} {e : Event} {task : ProtoTask} (h : task ∈ l.done e) :
    l = .handling task := by
  unfold Loop.done at h
  split at h
  · rw [List.mem_singleton.mp h]
  · cases h

/-- The loop acks the task it has finished. -/
theorem Loop.rpc_ack {l : Loop} {id : TaskID} (h : l.rpc = some (.ack id)) :
    ∃ task, l = .finishing .ack task ∧ task.id = id := by
  unfold Loop.rpc at h
  split at h <;> cases h
  exact ⟨_, rfl, rfl⟩

/-- Workers enqueue nothing. -/
theorem Loop.rpc_ne_enqueue (l : Loop) {t : Option Task} {newTaskID : TaskID} {now : Time} :
    l.rpc ≠ some (.enqueue t newTaskID now) := by
  unfold Loop.rpc
  split <;> exact fun h => by cases h

/-- Sections are run by members only. -/
theorem mem_of_serve {cfg : ClusterConfig} {maxRetries : ℤ} {s s' : System} {n : NodeID}
    {e : Section} (h : s.step cfg maxRetries M (.serve n e) = some s') : n ∈ M.ids := by
  simp only [System.step, System.serve, Option.ite_none_right_eq_some] at h
  exact h.1.1

/-! ### Every move -/

/-- **What a run of the service keeps.** Its moves make a run of the cluster; the acks in it are
of tasks that were done, and the enqueues are those of the producers. -/
structure Pool.Sound (S : Setup) (ps : List PoolMove) (xs : List SystemMove) (p : Pool) : Prop where
  run : Run.exec (System.step S.servers S.maxRetries S.members)
    (System.start S.maxRetries S.members) xs = some p.system
  acks : ∀ n id, SystemMove.serve n (.call (.ack id)) ∈ xs → ∃ t ∈ p.handled, t.id = id
  enqueues : ∀ n t newTaskID now, SystemMove.serve n (.call (.enqueue t newTaskID now)) ∈ xs →
    PoolMove.system (.serve n (.call (.enqueue t newTaskID now))) ∈ ps
  goroutines : ∀ gr ∈ p.goroutines, gr.Carries S.members p.system.trace p.handled
  handled : ∀ t ∈ p.handled, Replied S.members p.system.trace t

namespace Pool

theorem sound_start (S : Setup) (addrs : ℕ → List String) (clients : List ℕ) :
    (start S addrs clients).Sound S [] [] where
  run := rfl
  acks _ _ h := absurd h List.not_mem_nil
  enqueues _ _ _ _ h := absurd h List.not_mem_nil
  goroutines gr hgr := by
    obtain ⟨c, -, rfl⟩ := List.mem_map.mp hgr
    constructor <;> intros <;> contradiction
  handled _ h := absurd h List.not_mem_nil

/-- A goroutine goes on, and the cluster does not change. -/
theorem Sound.of_set (h : p.Sound S ps xs) {x : PoolMove} {g : ℕ} (hsystem : p'.system = p.system)
    (hgoroutines : p'.goroutines = p.goroutines.set g gr')
    (hsub : p.handled ⊆ p'.handled)
    (hgr : gr'.Carries S.members p.system.trace p'.handled)
    (hhandled : ∀ t ∈ p'.handled, Replied S.members p.system.trace t) :
    ∃ ys, Run.exec (System.step S.servers S.maxRetries S.members) p.system ys = some p'.system ∧
      p'.Sound S (ps ++ [x]) (xs ++ ys) := by
  refine ⟨[], by rw [hsystem]; rfl, ?_, fun n id hn => ?_, fun n t newTaskID now hn => ?_, ?_, ?_⟩
  · rw [List.append_nil, hsystem]
    exact h.run
  · rw [List.append_nil] at hn
    obtain ⟨t, ht, hid⟩ := h.acks n id hn
    exact ⟨t, hsub ht, hid⟩
  · rw [List.append_nil] at hn
    exact List.mem_append_left _ (h.enqueues n t newTaskID now hn)
  · intro gr'' hmem
    rw [hsystem]
    rw [hgoroutines] at hmem
    rcases List.mem_or_eq_of_mem_set hmem with hmem | rfl
    · exact (h.goroutines gr'' hmem).mono (List.prefix_refl _) hsub
    · exact hgr
  · rw [hsystem]
    exact hhandled

/-- The cluster makes a move. -/
theorem Sound.of_system (h : p.Sound S ps xs) {x : PoolMove} {y : SystemMove}
    (hy : p.system.step S.servers S.maxRetries S.members y = some p'.system)
    (hhandled : p'.handled = p.handled)
    (hgoroutines : ∀ gr ∈ p'.goroutines, gr.Carries S.members p.system.trace p.handled)
    (hack : ∀ n id, y = .serve n (.call (.ack id)) → ∃ t ∈ p.handled, t.id = id)
    (henqueue : ∀ n t newTaskID now, y = .serve n (.call (.enqueue t newTaskID now)) →
      x = .system y) :
    ∃ ys, Run.exec (System.step S.servers S.maxRetries S.members) p.system ys = some p'.system ∧
      p'.Sound S (ps ++ [x]) (xs ++ ys) := by
  have htrace := trace_mono hy
  refine ⟨[y], ?_, ?_, fun n id hn => ?_, fun n t newTaskID now hn => ?_, fun gr hgr => ?_,
    fun t ht => ?_⟩
  · rw [Run.exec_cons, hy, Option.bind_some, Run.exec_nil]
  · exact Run.exec_snoc.mpr ⟨p.system, h.run, hy⟩
  · rw [hhandled]
    rcases List.mem_append.mp hn with hn | hn
    · exact h.acks n id hn
    · exact hack n id (List.mem_singleton.mp hn).symm
  · rcases List.mem_append.mp hn with hn | hn
    · exact List.mem_append_left _ (h.enqueues n t newTaskID now hn)
    · have hyx := (List.mem_singleton.mp hn).symm
      rw [← hyx, ← henqueue n t newTaskID now hyx]
      exact List.mem_append_right _ (List.mem_singleton_self _)
  · rw [hhandled]
    exact (hgoroutines gr hgr).mono htrace (List.Subset.refl _)
  · rw [hhandled] at ht
    exact (h.handled t ht).mono htrace

/-- A section of a client. -/
theorem Sound.of_callStep (h : p.Sound S ps xs) {x : PoolMove} {g : ℕ} {c : Call Response}
    {i : Input Response} (hgr : gr ∈ p.goroutines)
    (hi : ∀ task, i = .reply (.ok (.dequeued task)) →
      Replied S.members p.system.trace task) (hs : p.callStep g gr c i = some p') :
    ∃ ys, Run.exec (System.step S.servers S.maxRetries S.members) p.system ys = some p'.system ∧
      p'.Sound S (ps ++ [x]) (xs ++ ys) := by
  obtain ⟨⟨f', c'⟩, hc, rfl⟩ := Option.map_eq_some_iff.mp hs
  exact h.of_set rfl rfl (List.Subset.refl _) ((h.goroutines gr hgr).call hc hi) h.handled

/-- **Every move of the service.** -/
theorem Sound.step (h : p.Sound S ps xs) {x : PoolMove} (hs : p.step S x = some p') :
    ∃ ys, Run.exec (System.step S.servers S.maxRetries S.members) p.system ys = some p'.system ∧
      p'.Sound S (ps ++ [x]) (xs ++ ys) := by
  cases x with
  | system y =>
    simp only [Pool.step, Option.ite_none_left_eq_some] at hs
    obtain ⟨hack, hs⟩ := hs
    obtain ⟨s, hy, rfl⟩ := Option.map_eq_some_iff.mp hs
    refine h.of_system hy rfl (fun gr hgr => ?_) ?_ fun _ _ _ _ _ => rfl
    · obtain ⟨gr₀, hgr₀, rfl⟩ := List.mem_map.mp hgr
      exact (h.goroutines gr₀ hgr₀).lose _
    · rintro n id rfl
      exact absurd rfl hack
  | loop g e =>
    obtain ⟨gr, hgr, hs⟩ := Option.bind_eq_some_iff.mp hs
    simp only [Option.ite_none_left_eq_some] at hs
    obtain ⟨he, hs⟩ := hs
    obtain ⟨l, hl, hs⟩ := Option.bind_eq_some_iff.mp hs
    cases hs
    have hcarries := h.goroutines gr (List.mem_of_getElem? hgr)
    refine h.of_set rfl rfl (List.subset_append_left _ _)
      (Goroutine.carries_loop (by simpa using he) hl) fun t ht => ?_
    rcases List.mem_append.mp ht with ht | ht
    · exact h.handled t ht
    · exact hcarries.handling t (Loop.handling_of_done ht)
  | call g i =>
    obtain ⟨gr, hgr, hs⟩ := Option.bind_eq_some_iff.mp hs
    obtain ⟨c, -, hs⟩ := Option.bind_eq_some_iff.mp hs
    simp only [Option.ite_none_left_eq_some] at hs
    obtain ⟨hi, hs⟩ := hs
    refine h.of_callStep (List.mem_of_getElem? hgr) ?_ hs
    rintro task rfl
    exact absurd rfl hi
  | send g =>
    obtain ⟨gr, hgr, hs⟩ := Option.bind_eq_some_iff.mp hs
    have hcarries := h.goroutines gr (List.mem_of_getElem? hgr)
    dsimp only at hs
    split at hs
    · rename_i attempt addr hcall
      obtain ⟨rpc, hrpc, hs⟩ := Option.bind_eq_some_iff.mp hs
      obtain ⟨n, -, hs⟩ := Option.bind_eq_some_iff.mp hs
      obtain ⟨s, hstep, hs⟩ := Option.bind_eq_some_iff.mp hs
      cases hs
      refine h.of_system hstep rfl (fun gr' hgr' => ?_) ?_ ?_
      · rcases List.mem_or_eq_of_mem_set hgr' with hgr' | rfl
        · exact h.goroutines gr' hgr'
        · refine ⟨hcarries.handling, hcarries.finishing, fun _ _ hc => (by cases hc),
            fun _ _ _ hc => ?_⟩
          cases hc
          exact mem_of_serve hstep
      · rintro n' id hack
        cases hack
        obtain ⟨task, hloop, rfl⟩ := Loop.rpc_ack hrpc
        exact ⟨task, hcarries.finishing _ task hloop rfl, rfl⟩
      · rintro n' t newTaskID now henqueue
        cases henqueue
        exact absurd hrpc (Loop.rpc_ne_enqueue _)
    · cases hs
  | receive g =>
    obtain ⟨gr, hgr, hs⟩ := Option.bind_eq_some_iff.mp hs
    have hcarries := h.goroutines gr (List.mem_of_getElem? hgr)
    split at hs
    · rename_i c n k hcall
      split at hs
      · rename_i r hr
        refine h.of_callStep (List.mem_of_getElem? hgr) (fun task hi => ?_) hs
        have hresult : result r = .ok (.dequeued task) := Input.reply.inj hi
        rw [result_dequeued hresult] at hr
        exact replied_of_handler h.run (List.prefix_refl _) (hcarries.arrived c n k hcall)
          (List.mem_of_getElem? hr) rfl
      · cases hs
    · cases hs
  | resume g b draw =>
    obtain ⟨gr, hgr, hs⟩ := Option.bind_eq_some_iff.mp hs
    have hcarries := h.goroutines gr (List.mem_of_getElem? hgr)
    split at hs
    · rename_i r d hcall
      obtain ⟨e, he, hs⟩ := Option.bind_eq_some_iff.mp hs
      obtain ⟨l, hl, hs⟩ := Option.bind_eq_some_iff.mp hs
      cases hs
      exact h.of_set rfl rfl (List.Subset.refl _) (hcarries.resume hcall he hl) h.handled
    · cases hs

/-- A run of the service goes on, and the run of the cluster with it. -/
theorem Sound.exec {bs : List PoolMove} (h : p.Sound S ps xs)
    (hp : Run.exec (Pool.step S) p bs = some p') :
    ∃ ys, Run.exec (System.step S.servers S.maxRetries S.members) p.system ys = some p'.system ∧
      p'.Sound S (ps ++ bs) (xs ++ ys) := by
  refine Run.induction (P := fun bs v => ∃ ys,
    Run.exec (System.step S.servers S.maxRetries S.members) p.system ys = some v.system ∧
      v.Sound S (ps ++ bs) (xs ++ ys)) ⟨[], rfl, ?_⟩ ?_ hp
  · rw [List.append_nil, List.append_nil]
    exact h
  · rintro cs v x v' - ⟨ys, hys, hv⟩ hx
    obtain ⟨zs, hzs, hv'⟩ := hv.step hx
    refine ⟨ys ++ zs, ?_, ?_⟩
    · rw [Run.exec_append, hys, Option.bind_some, hzs]
    · rwa [← List.append_assoc, ← List.append_assoc]

end Pool

/-! ### From the producers to the handlers -/

variable {addrs : ℕ → List String} {clients : List ℕ}

/-- **Handlers are run on what was enqueued.** In every run of the service, a task that a handler
is run on, or has done, is the task of an `Enqueue` that a producer has sent to some node, after
some retries, and with its numbers cut down to 32 bits. -/
theorem handled_were_enqueued {q : ProtoTask}
    (hp : Run.exec (Pool.step S) (Pool.start S addrs clients) ps = some p)
    (hq : q ∈ p.handled ∨ ∃ gr ∈ p.goroutines, gr.loop = .handling q) :
    ∃ m t₀ newTaskID now,
      PoolMove.system (.serve m (.call (.enqueue (some t₀) newTaskID now))) ∈ ps ∧
      ∃ k, q = toProto (afterRetries (enqueuedTask t₀ newTaskID now) k) := by
  obtain ⟨ys, -, hsound⟩ := (Pool.sound_start S addrs clients).exec hp
  have hreplied : Replied S.members p.system.trace q := by
    rcases hq with hq | ⟨gr, hgr, hloop⟩
    · exact hsound.handled q hq
    · exact (hsound.goroutines gr hgr).handling q hloop
  obtain ⟨m, t₀, newTaskID, now, hm, -, hk⟩ := hreplied.asked (reasoned_run hsound.run)
  exact ⟨m, t₀, newTaskID, now, hsound.enqueues m _ _ _ hm, hk⟩

/-- Only an `Ack` asks for an ack. -/
theorem rpc_of_command_ack {rpc : Rpc} {id : TaskID} (h : rpc.command? = some (.ack id)) :
    rpc = .ack id := by
  cases rpc with
  | enqueue task newTaskID now =>
    obtain ⟨t, -, h⟩ := Option.map_eq_some_iff.mp h
    cases h
  | dequeue => cases h
  | ack id' =>
    cases h
    rfl
  | nack id' => cases h

/-- What is done in the cluster, and by the clients that are not workers. -/
def PoolMove.system? : PoolMove → Option SystemMove
  | .system x => some x
  | _ => none

/-- Workers enqueue nothing. -/
theorem Pool.Sound.identifies (h : p.Sound S ps xs) {t : Task}
    (hone : Identifies (ps.filterMap PoolMove.system?) t) : Identifies xs t := by
  intro t' ht'
  obtain ⟨x, hx, hreq⟩ := List.mem_filterMap.mp ht'
  refine hone t' (List.mem_filterMap.mpr ⟨x, List.mem_filterMap.mpr ⟨.system x, ?_, rfl⟩, hreq⟩)
  unfold SystemMove.requested? at hreq
  split at hreq
  · exact h.enqueues _ _ _ _ hx
  · cases hreq

/-- **Every task is delivered at least once.** In a run of the service, an `Enqueue` has returned
success for the task `t`, in the state `u`, and in the whole run producers enqueue under its
identifier nothing but this task. The command of the call is committed at its index `i`. In every
later state, every server that has got to this index has the task, live or dead-lettered – unless
a handler of a worker has been run on the task and has returned without an error. -/
theorem delivered_at_least_once {as bs : List PoolMove} {u : Pool} {m : NodeID} {k : ℕ}
    {t : Task} {i : ℕ} (hu : Run.exec (Pool.step S) (Pool.start S addrs clients) as = some u)
    (hm : m ∈ S.members.ids)
    (hret : (u.system.server m).handlers[k]? = some (.returned (.enqueued t i)))
    (hid : t.id ≠ "") (hp : Run.exec (Pool.step S) u bs = some p)
    (hone : Identifies ((as ++ bs).filterMap PoolMove.system?) t) :
    (∃ τ e, CommittedIn S.members u.system.trace τ i e ∧ EnqueuesTask t e.command) ∧
      ∀ n ∈ S.members.ids, i ≤ p.system.applied n →
        HasTask (p.system.server n).sm t ∨ ∃ t', SameTask t t' ∧ toProto t' ∈ p.handled := by
  obtain ⟨xs, -, hsound⟩ := (Pool.sound_start S addrs clients).exec hu
  obtain ⟨ys, hys, hsound'⟩ := hsound.exec hp
  rw [List.nil_append] at hsound hsound'
  have hone := hsound'.identifies hone
  obtain ⟨hc, hall⟩ :=
    retained_or_acked hsound.run hm (List.mem_of_getElem? hret) hid hys hone
  refine ⟨hc, fun n hn hle => (hall n hn hle).imp_right fun hack => ?_⟩
  -- an ack that is committed was sent by a worker, and after a handler was done with the task
  obtain ⟨τ, j, e, -, hcj, hacks⟩ := hack
  have hreasoned := reasoned_run hsound'.run
  obtain ⟨m', rpc, hrpc, hcommand⟩ := hreasoned.asked_ack hcj hacks
  rw [rpc_of_command_ack hcommand] at hrpc
  obtain ⟨q, hq, hqid⟩ := hsound'.acks m' t.id hrpc
  obtain ⟨t', rfl, hstem⟩ := hsound'.handled q hq
  exact ⟨t', ⟨hqid, hstem.sameTask hreasoned hone hqid⟩, hq⟩

/-- One worker with one goroutine, which knows the node `a`. -/
def oneWorker : Setup where
  worker := ⟨0, 0, 0⟩
  resolve addr := if addr = "a:1" then some "a" else none
  servers := plainConfig
  maxRetries := 3
  members := threeNodes

/-- The tasks `x` and `y` are enqueued at `a`. -/
def enqueuedXY : List PoolMove := returnedX.map .system

/-- The worker is given `x`, its handler is done with it, and the ack is committed and applied
at `a`. -/
def handledX : List PoolMove :=
  [.loop 0 (.context false), .call 0 (.go none none), .send 0,
    .system (.serve "a" (.handler 2 (.isLeader true))),
    .system (.serve "a" (.handler 2 (.now 10))), .system (.serve "a" (.handler 2 .silent)),
    .receive 0, .resume 0 false 0, .loop 0 (.handled .done), .call 0 (.go none none), .send 0] ++
  (([.serve "a" (.handler 3 (.isLeader true)), .serve "a" (.handler 3 .silent)] ++
    proposing "a" 3 ++ clusterActs (replicationTo "a" "b" 3 2) ++ applying "a" ackMsgs :
      List SystemMove)).map .system

theorem handled_were_enqueued_handledX :
    ∃ p q, Run.exec (Pool.step oneWorker) (Pool.start oneWorker (fun _ => ["a:1"]) [0])
        (enqueuedXY ++ handledX) = some p ∧ p.handled = [q] ∧
      ∃ m t₀ newTaskID now,
        PoolMove.system (.serve m (.call (.enqueue (some t₀) newTaskID now))) ∈
          enqueuedXY ++ handledX ∧
        ∃ k, q = toProto (afterRetries (enqueuedTask t₀ newTaskID now) k) := by
  have hend : (Run.exec (Pool.step oneWorker) (Pool.start oneWorker (fun _ => ["a:1"]) [0])
      (enqueuedXY ++ handledX)).map (fun p => p.handled) = some [⟨"x", [], 0, 0, some 1⟩] := by
    decide +kernel
  obtain ⟨p, hp, hend⟩ := Option.map_eq_some_iff.mp hend
  exact ⟨p, _, hp, hend,
    handled_were_enqueued hp (.inl (by rw [hend]; exact List.mem_singleton_self _))⟩

theorem delivered_at_least_once_handledX :
    ∃ u p, Run.exec (Pool.step oneWorker) (Pool.start oneWorker (fun _ => ["a:1"]) [0])
        enqueuedXY = some u ∧
      (u.system.server "a").handlers[0]? = some (.returned (.enqueued taskX 2)) ∧
      Run.exec (Pool.step oneWorker) u handledX = some p ∧ p.system.applied "a" = 4 ∧
      (p.system.server "a").sm.has "x" = false ∧
      (∃ τ e, CommittedIn threeNodes u.system.trace τ 2 e ∧ EnqueuesTask taskX e.command) ∧
        ∀ n ∈ threeNodes.ids, 2 ≤ p.system.applied n →
          HasTask (p.system.server n).sm taskX ∨
            ∃ t', SameTask taskX t' ∧ toProto t' ∈ p.handled := by
  have hend : ((Run.exec (Pool.step oneWorker) (Pool.start oneWorker (fun _ => ["a:1"]) [0])
      enqueuedXY).bind fun u => (Run.exec (Pool.step oneWorker) u handledX).map fun p =>
        ((u.system.server "a").handlers[0]?, p.system.applied "a",
          (p.system.server "a").sm.has "x")) =
      some (some (.returned (.enqueued taskX 2)), 4, false) := by
    decide +kernel
  obtain ⟨u, hu, hend⟩ := Option.bind_eq_some_iff.mp hend
  obtain ⟨p, hp, hend⟩ := Option.map_eq_some_iff.mp hend
  obtain ⟨hret, hend⟩ := Prod.mk.inj hend
  obtain ⟨happlied, hhas⟩ := Prod.mk.inj hend
  exact ⟨u, p, hu, hret, hp, happlied, hhas,
    delivered_at_least_once hu (by decide) hret (by decide) hp (by decide +kernel)⟩

end Client

end DistQueue
