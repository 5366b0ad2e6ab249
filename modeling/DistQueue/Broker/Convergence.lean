import DistQueue.Broker.Fleet

/-!
# Replicas converge

What the commands mean, without the delivery overlay: a queue of live tasks and a dead-letter
queue, of each task only what the commands decide on (`DistQueue.Broker.TaskData`), and one
function for all commands (`DistQueue.Broker.Queue.apply`). A replica's tasks are shared
objects that `Dequeue` and `RequeueInFlight` change as well, but what it holds of the queue is
at all times what the commands have made of it (`DistQueue.Broker.StateMachine.content_apply`
and its companions), so that two replicas that have consumed the same commands hold the same
tasks (`DistQueue.Broker.replicas_converge`), however they came by them.

The counters are another matter. A snapshot has the number of acks, but not that of nacks, and
a replica that starts from it counts nacks from zero
(`DistQueue.Broker.nacked_lost`, `DistQueue.Broker.counters_survive`).
-/

namespace DistQueue

namespace Broker

/-! ### The queue the commands define -/

/-- What the replicas agree on about a task. -/
structure TaskData where
  id : TaskID
  payload : List UInt8
  priority : ℤ
  createdAt : Time
  retryCount : ℤ
  deriving DecidableEq

/-- The part of a task that the replicas agree on. -/
def Task.data (t : Task) : TaskData := ⟨t.id, t.payload, t.priority, t.createdAt, t.retryCount⟩

/-- The live tasks, the dead-letter queue and the counters. -/
@[ext] structure Queue where
  live : TaskID → Option TaskData
  dlq : List TaskData
  acked : ℤ
  nacked : ℤ

namespace Queue

variable {maxRetries : ℤ} {q : Queue}

/-- The queue before the first command. -/
def empty : Queue := ⟨fun _ => none, [], 0, 0⟩

/-- What there is now under an identifier. -/
def set (q : Queue) (id : TaskID) (d : Option TaskData) : Queue :=
  { q with live := Function.update q.live id d }

theorem set_live_self (q : Queue) (id : TaskID) (d : Option TaskData) :
    (q.set id d).live id = d :=
  Function.update_self ..

theorem set_live_of_ne (q : Queue) {id id' : TaskID} (d : Option TaskData) (h : id' ≠ id) :
    (q.set id d).live id' = q.live id' :=
  Function.update_of_ne h ..

theorem set_set (q : Queue) (id : TaskID) (d d' : Option TaskData) :
    (q.set id d).set id d' = q.set id d' := by
  simp [set]

/-- A live task is nacked: it is retried, or dead-lettered if its retries are used up. -/
def nack (maxRetries : ℤ) (q : Queue) (id : TaskID) (d : TaskData) : Queue :=
  let d := { d with retryCount := d.retryCount + 1 }
  let q := { q with nacked := q.nacked + 1 }
  if maxRetries ≤ d.retryCount then { q.set id none with dlq := q.dlq ++ [d] }
  else q.set id (some d)

/-- What a command means. -/
def apply (maxRetries : ℤ) (q : Queue) (op : QueueOp) : Queue :=
  match op.type with
  | .enqueue => op.task.elim q fun t =>
    if t.id = "" ∨ (q.live t.id).isSome then q else q.set t.id (some t.data)
  | .ack => (q.live op.taskID).elim q fun _ => { q.set op.taskID none with acked := q.acked + 1 }
  | .nack => (q.live op.taskID).elim q (q.nack maxRetries op.taskID)
  | .dead => q

/-- **The queue that a log defines**: its commands, one after the other. -/
def replay (maxRetries : ℤ) (ops : List QueueOp) : Queue := ops.foldl (apply maxRetries) empty

/-- One command more in the log. -/
theorem replay_concat (ops : List QueueOp) (op : QueueOp) :
    replay maxRetries (ops ++ [op]) = (replay maxRetries ops).apply maxRetries op := by
  rw [replay, List.foldl_append]
  rfl

/-- The tasks and the acks do not depend on how many nacks have been counted. -/
theorem apply_nacked (maxRetries : ℤ) (q : Queue) (op : QueueOp) (n : ℤ) :
    ∃ n', { q with nacked := n }.apply maxRetries op =
      { q.apply maxRetries op with nacked := n' } := by
  unfold apply
  cases op.type with
  | enqueue =>
    cases op.task with
    | none => exact ⟨n, rfl⟩
    | some t =>
      dsimp only [Option.elim_some]
      split <;> exact ⟨n, rfl⟩
  | ack =>
    cases h : q.live op.taskID with
    | none => exact ⟨n, by simp⟩
    | some d => exact ⟨n, by simp [set]⟩
  | nack =>
    cases h : q.live op.taskID with
    | none => exact ⟨n, by simp⟩
    | some d =>
      refine ⟨n + 1, ?_⟩
      simp only [Option.elim_some, nack]
      split <;> rfl
  | dead => exact ⟨n, rfl⟩

/-- Only a nack of a live task is counted. -/
theorem apply_nacked_eq {op : QueueOp} (h : op.type = .nack → q.live op.taskID = none) :
    (q.apply maxRetries op).nacked = q.nacked := by
  unfold apply
  cases hty : op.type with
  | enqueue =>
    cases op.task with
    | none => rfl
    | some t =>
      dsimp only [Option.elim_some]
      split <;> rfl
  | ack =>
    cases q.live op.taskID with
    | none => rfl
    | some d => rfl
  | nack =>
    rw [h hty]
    rfl
  | dead => rfl

/-- **What a command does**: nothing, or it files a task, takes one out, or counts a retry of
one – its last one, perhaps. -/
theorem apply_cases (maxRetries : ℤ) (q : Queue) (op : QueueOp) :
    (q.apply maxRetries op = q ∧ ∀ t, op.type = .enqueue → op.task = some t →
      t.id = "" ∨ (q.live t.id).isSome) ∨
    (∃ t, op.type = .enqueue ∧ op.task = some t ∧
      q.apply maxRetries op = q.set t.id (some t.data)) ∨
    (op.type = .ack ∧
      q.apply maxRetries op = { q.set op.taskID none with acked := q.acked + 1 }) ∨
    ∃ d, q.live op.taskID = some d ∧
      (d.retryCount + 1 < maxRetries ∧
          q.apply maxRetries op = { q with nacked := q.nacked + 1 }.set op.taskID
            (some { d with retryCount := d.retryCount + 1 }) ∨
        q.apply maxRetries op = { q.set op.taskID none with
          nacked := q.nacked + 1
          dlq := q.dlq ++ [{ d with retryCount := d.retryCount + 1 }] }) := by
  unfold apply
  cases hty : op.type with
  | enqueue =>
    cases htask : op.task with
    | none => exact .inl ⟨rfl, fun t _ ht => by cases ht⟩
    | some t =>
      dsimp only [Option.elim_some]
      split
      · rename_i hdrop
        refine .inl ⟨rfl, fun t' _ ht' => ?_⟩
        cases ht'
        exact hdrop
      · exact .inr (.inl ⟨t, rfl, rfl, rfl⟩)
  | ack =>
    cases q.live op.taskID with
    | none => exact .inl ⟨rfl, fun t hop => by cases hop⟩
    | some d => exact .inr (.inr (.inl ⟨rfl, rfl⟩))
  | nack =>
    cases q.live op.taskID with
    | none => exact .inl ⟨rfl, fun t hop => by cases hop⟩
    | some d =>
      refine .inr (.inr (.inr ⟨d, rfl, ?_⟩))
      dsimp only [Option.elim_some, nack]
      split
      · exact .inr rfl
      · rename_i hspared
        exact .inl ⟨Int.lt_of_not_ge hspared, rfl⟩
  | dead => exact .inl ⟨rfl, fun t hop => by cases hop⟩

/-- An ack takes its task out of the queue, and buries none. -/
theorem apply_ack (maxRetries : ℤ) (q : Queue) {op : QueueOp} (hty : op.type = .ack) :
    (q.apply maxRetries op).live op.taskID = none ∧ (q.apply maxRetries op).dlq = q.dlq := by
  cases h : q.live op.taskID <;> simp [apply, hty, h, set]

/-- **Every live task satisfies `P`, under its identifier, and every dead one `D`.** -/
structure Each (P : TaskID → TaskData → Prop) (D : TaskData → Prop) (q : Queue) : Prop where
  live : ∀ id d, q.live id = some d → P id d
  dead : ∀ d ∈ q.dlq, D d

variable {P : TaskID → TaskData → Prop} {D : TaskData → Prop}

/-- What is put under an identifier satisfies `P`. -/
theorem Each.set (h : q.Each P D) {id : TaskID} {d : Option TaskData} (hd : ∀ d' ∈ d, P id d') :
    (q.set id d).Each P D := by
  refine ⟨fun id' d' hlive => ?_, h.dead⟩
  by_cases heq : id' = id
  · subst heq
    rw [set_live_self] at hlive
    exact hd d' hlive
  · rw [set_live_of_ne _ _ heq] at hlive
    exact h.live id' d' hlive

/-- **A command keeps it** if enqueued tasks satisfy `P`, a retry keeps `P`, and what has
satisfied `P` may be buried. -/
theorem Each.apply {op : QueueOp} (h : q.Each P D)
    (hnew : ∀ t, op.type = .enqueue → op.task = some t → P t.id t.data)
    (hretry : ∀ d : TaskData, P op.taskID d → d.retryCount + 1 < maxRetries →
      P op.taskID { d with retryCount := d.retryCount + 1 })
    (hbury : ∀ d, P op.taskID d → D { d with retryCount := d.retryCount + 1 }) :
    (q.apply maxRetries op).Each P D := by
  obtain ⟨heq, -⟩ | ⟨t, hty, htask, heq⟩ | ⟨-, heq⟩ | ⟨d, hd, ⟨hspared, heq⟩ | heq⟩ :=
    q.apply_cases maxRetries op <;> rw [heq]
  · exact h
  · exact h.set fun d' hd' => Option.some.inj hd' ▸ hnew t hty htask
  · exact ⟨(h.set fun d' hd' => by cases hd').live, h.dead⟩
  · have hcount : { q with nacked := q.nacked + 1 }.Each P D := ⟨h.live, h.dead⟩
    exact hcount.set fun d' hd' => Option.some.inj hd' ▸ hretry d (h.live _ d hd) hspared
  · refine ⟨(h.set fun d' hd' => by cases hd').live, fun d' hd' => ?_⟩
    obtain hd' | hd' := List.mem_append.mp hd'
    · exact h.dead d' hd'
    · exact List.mem_singleton.mp hd' ▸ hbury d (h.live _ d hd)

/-- The live tasks are filed under their own identifiers. -/
def Keyed (q : Queue) : Prop := ∀ id d, q.live id = some d → d.id = id

/-- A command keeps the tasks under their own identifiers. -/
theorem Keyed.apply (h : q.Keyed) (op : QueueOp) : (q.apply maxRetries op).Keyed :=
  have heach : q.Each (fun id d => d.id = id) fun _ => True := ⟨h, fun _ _ => trivial⟩
  (heach.apply (fun _ _ _ => rfl) (fun _ h _ => h) fun _ _ => trivial).live

end Queue

/-! ### What a replica holds of it -/

namespace StateMachine

variable {sm sm' : StateMachine} {r : Ref} {id : TaskID} {t : Task} {f : Task → Task}

/-- What is at an address. -/
def dataAt (sm : StateMachine) (r : Ref) : TaskData := (sm.store r).data

/-- **The queue a replica holds.** -/
def content (sm : StateMachine) : Queue :=
  { live := fun id => (sm.tasks.lookup id).map sm.dataAt
    dlq := sm.dlq.map sm.dataAt
    acked := sm.acked
    nacked := sm.nacked }

/-- The live tasks are filed under their identifiers, and no dead-lettered task is live. -/
structure Tidy (sm : StateMachine) : Prop where
  keyed : sm.Keyed
  dead_lt : ∀ r ∈ sm.dlq, r < sm.next
  dead_ne : ∀ r ∈ sm.dlq, ∀ id, sm.tasks.lookup id ≠ some r

/-- A new machine is tidy: there is nothing in it. -/
theorem tidy_newStateMachine (maxRetries : ℤ) : (newStateMachine maxRetries).Tidy :=
  ⟨keyed_newStateMachine maxRetries, fun r hr => (by cases hr), fun r hr => (by cases hr)⟩

/-- Only the live and the dead-lettered tasks matter; more addresses may have been allocated. -/
theorem Tidy.congr (h : sm.Tidy) (hk : sm'.Keyed) (ht : sm'.tasks = sm.tasks)
    (hd : sm'.dlq = sm.dlq) (hn : sm.next ≤ sm'.next) : sm'.Tidy := by
  refine ⟨hk, fun r hr => ?_, fun r hr id => ?_⟩
  · exact Nat.lt_of_lt_of_le (h.dead_lt r (hd ▸ hr)) hn
  · rw [ht]
    exact h.dead_ne r (hd ▸ hr) id

/-- The content is read off these five parts of the machine. -/
theorem content_congr (ht : sm'.tasks = sm.tasks) (hs : sm'.dataAt = sm.dataAt)
    (hd : sm'.dlq = sm.dlq) (ha : sm'.acked = sm.acked) (hn : sm'.nacked = sm.nacked) :
    sm'.content = sm.content := by
  rw [content, content, ht, hs, hd, ha, hn]

/-- A task is changed where it is, and nowhere else. -/
theorem dataAt_update (r' : Ref) :
    (sm.update r f).dataAt r' = if r' = r then (f (sm.store r)).data else sm.dataAt r' := by
  by_cases hr : r' = r
  · subst hr
    simp [dataAt, update]
  · simp [dataAt, update, hr]

/-- Changing what the replicas do not agree on. -/
theorem dataAt_update_of_data (hf : ∀ t, (f t).data = t.data) :
    (sm.update r f).dataAt = sm.dataAt := by
  funext r'
  rw [dataAt_update]
  split
  · rename_i hr
    rw [hf, hr]
    rfl
  · rfl

/-- Status and deadline are no part of the content. -/
theorem content_update_of_data (hf : ∀ t, (f t).data = t.data) :
    (sm.update r f).content = sm.content :=
  content_congr rfl (dataAt_update_of_data hf) rfl rfl rfl

@[simp] theorem pushLocked_dlq : (sm.pushLocked r).dlq = sm.dlq := by
  unfold pushLocked
  split <;> rfl

/-- **The heap is no part of the content.** -/
theorem content_pushLocked : (sm.pushLocked r).content = sm.content := by
  unfold pushLocked
  split <;> rfl

/-- A task that is requeued is still the same task. -/
theorem content_requeue : (sm.requeue r).content = sm.content := by
  rw [requeue, content_pushLocked]
  exact content_update_of_data fun t => rfl

/-- Requeueing a task keeps the machine tidy. -/
theorem Tidy.requeue (h : sm.Tidy) : (sm.requeue r).Tidy := by
  refine h.congr h.keyed.requeue ?_ ?_ ?_ <;> rw [StateMachine.requeue]
  · rw [pushLocked_tasks]
    rfl
  · rw [pushLocked_dlq]
    rfl
  · rw [pushLocked_next]
    exact le_rfl

/-- A live task changes, and no other. -/
theorem content_update (h : sm.Tidy) (hr : sm.tasks.lookup id = some r) :
    (sm.update r f).content = sm.content.set id (some (f (sm.store r)).data) := by
  have hother : ∀ r', r' ≠ r → (sm.update r f).dataAt r' = sm.dataAt r' := fun r' hne => by
    rw [dataAt_update, if_neg hne]
  refine Queue.ext (funext fun id' => ?_) ?_ rfl rfl
  · by_cases hid : id' = id
    · subst hid
      simp [content, Queue.set, update, hr, dataAt]
    · rw [Queue.set_live_of_ne _ _ hid]
      refine Option.map_congr fun r' hr' => hother r' ?_
      rintro rfl
      exact hid (h.keyed.lookup_inj hr' hr)
  · refine List.map_congr_left fun r' hr' => hother r' ?_
    rintro rfl
    exact h.dead_ne r' hr' id hr

/-- A task leaves the live tasks, for the dead-letter queue or for good. -/
theorem content_erase {acked : ℤ} {dead : List Ref} (sm : StateMachine) (id : TaskID) :
    { sm with tasks := sm.tasks.erase id, acked, dlq := sm.dlq ++ dead }.content =
      { sm.content.set id none with acked, dlq := sm.content.dlq ++ dead.map sm.dataAt } := by
  refine Queue.ext (funext fun id' => ?_) (List.map_append ..) rfl rfl
  by_cases hid : id' = id
  · subst hid
    simp [content, Queue.set]
  · simp only [content, AList.lookup_erase_ne hid]
    exact (Queue.set_live_of_ne sm.content none hid).symm

/-- What has been allocated is not touched by an allocation. -/
theorem dataAt_alloc_of_lt (hr : r < sm.next) : (sm.alloc t).dataAt r = sm.dataAt r := by
  simp [dataAt, alloc, Nat.ne_of_lt hr]

/-- A new live task. -/
theorem content_file (h : sm.Tidy) : (sm.file t).content = sm.content.set t.id (some t.data) := by
  rw [file, content_pushLocked]
  refine Queue.ext (funext fun id => ?_) ?_ rfl rfl
  · by_cases hid : id = t.id
    · subst hid
      simp [content, Queue.set, alloc, dataAt]
    · rw [Queue.set_live_of_ne _ _ hid]
      simp only [content, AList.lookup_insert_ne hid]
      exact Option.map_congr fun r hr => dataAt_alloc_of_lt (h.keyed.lt_next hr)
  · exact List.map_congr_left fun r hr => dataAt_alloc_of_lt (h.dead_lt r hr)

/-- Filing a new task keeps the machine tidy. -/
theorem Tidy.file (h : sm.Tidy) : (sm.file t).Tidy := by
  refine ⟨h.keyed.file, fun r hr => ?_, fun r hr id hid => ?_⟩
  · rw [StateMachine.file, pushLocked_dlq] at hr
    rw [StateMachine.file, pushLocked_next]
    exact Nat.lt_succ_of_lt (h.dead_lt r hr)
  · rw [StateMachine.file, pushLocked_dlq] at hr
    rw [StateMachine.file, pushLocked_tasks] at hid
    obtain ⟨-, rfl⟩ | ⟨-, hid⟩ := lookup_insert_some hid
    · exact lt_irrefl _ (h.dead_lt _ hr)
    · exact h.dead_ne r hr id hid

/-- A task leaves the index, and may go to the dead-letter queue. -/
theorem Tidy.erase {acked : ℤ} {dead : List Ref} (h : sm.Tidy) (hr : sm.tasks.lookup id = some r)
    (hdead : ∀ r' ∈ dead, r' = r) :
    { sm with tasks := sm.tasks.erase id, acked, dlq := sm.dlq ++ dead }.Tidy := by
  refine ⟨h.keyed.erase id, fun r' hr' => ?_, fun r' hr' id' hid' => ?_⟩
  · obtain hr' | hr' := List.mem_append.mp hr'
    · exact h.dead_lt r' hr'
    · rw [hdead r' hr']
      exact h.keyed.lt_next hr
  · obtain ⟨hne, hlive⟩ := lookup_erase_some hid'
    obtain hr' | hr' := List.mem_append.mp hr'
    · exact h.dead_ne r' hr' id' hlive
    · rw [hdead r' hr'] at hlive
      exact hne (h.keyed.lookup_inj hlive hr)

/-- A task may be changed in place, if its identifier stays. -/
theorem Tidy.update (h : sm.Tidy) (hf : ∀ t, (f t).id = t.id) : (sm.update r f).Tidy :=
  h.congr (h.keyed.update hf) rfl rfl le_rfl

/-! ### The methods -/

theorem applyAck_eq (sm : StateMachine) (id : TaskID) (r : Ref) :
    sm.applyAck id r =
      { sm.update r fun t => { t with status := .done } with
        tasks := (sm.update r fun t => { t with status := .done }).tasks.erase id
        acked := sm.acked + 1
        dlq := (sm.update r fun t => { t with status := .done }).dlq ++ [] } := by
  rw [List.append_nil]
  rfl

/-- An ack keeps the machine tidy. -/
theorem Tidy.applyAck (h : sm.Tidy) (hr : sm.tasks.lookup id = some r) :
    (sm.applyAck id r).Tidy := by
  have hupdate : (sm.update r fun t => { t with status := .done }).Tidy := by
    refine h.update ?_
    exact fun t => rfl
  rw [applyAck_eq]
  exact hupdate.erase hr fun r' hr' => (by cases hr')

/-- **An ack takes the task out of the content**, and is counted. -/
theorem content_applyAck (sm : StateMachine) (id : TaskID) (r : Ref) :
    (sm.applyAck id r).content = { sm.content.set id none with acked := sm.acked + 1 } := by
  have hupdate : (sm.update r fun t => { t with status := .done }).content = sm.content := by
    refine content_update_of_data ?_
    exact fun t => rfl
  rw [applyAck_eq, content_erase, hupdate, List.map_nil, List.append_nil]
  rfl

/-- The counter of the nacks is of no concern. -/
theorem Tidy.withNacked (h : sm.Tidy) (nacked : ℤ) : { sm with nacked }.Tidy :=
  h.congr (h.keyed.congr rfl rfl le_rfl) rfl rfl le_rfl

/-- A nack keeps the machine tidy. -/
theorem Tidy.applyNack (h : sm.Tidy) (hr : sm.tasks.lookup id = some r) :
    (sm.applyNack id r).Tidy := by
  have h₂ := (h.withNacked (sm.nacked + 1)).update (r := r)
    (f := fun t => { t with retryCount := t.retryCount + 1 }) fun _ => rfl
  unfold StateMachine.applyNack
  dsimp only
  split
  · have h₃ := h₂.update (r := r) (f := fun t => { t with status := .dead }) fun _ => rfl
    exact h₃.erase hr fun r' hr' => List.mem_singleton.mp hr'
  · exact h₂.requeue

/-- A live task is dead-lettered. -/
theorem content_bury (sm : StateMachine) (id : TaskID) (r : Ref) :
    { sm.update r fun t => { t with status := .dead } with
      tasks := (sm.update r fun t => { t with status := .dead }).tasks.erase id
      dlq := (sm.update r fun t => { t with status := .dead }).dlq ++ [r] }.content =
      { sm.content.set id none with dlq := sm.content.dlq ++ [sm.dataAt r] } := by
  have hdata : (sm.update r fun t => { t with status := .dead }).dataAt = sm.dataAt := by
    refine dataAt_update_of_data ?_
    exact fun t => rfl
  have hcontent : (sm.update r fun t => { t with status := .dead }).content = sm.content :=
    content_congr rfl hdata rfl rfl rfl
  rw [content_erase, hcontent, List.map_singleton, hdata]
  rfl

/-- **A nack does to the content what it does to the queue.** -/
theorem content_applyNack (h : sm.Tidy) (hr : sm.tasks.lookup id = some r) :
    (sm.applyNack id r).content = sm.content.nack sm.maxRetries id (sm.dataAt r) := by
  -- the retry is counted
  have hcount := content_update (f := fun t => { t with retryCount := t.retryCount + 1 })
    (h.withNacked (sm.nacked + 1)) hr
  unfold applyNack Queue.nack
  dsimp only
  have hretry : (({ sm with nacked := sm.nacked + 1 }.update r fun t =>
      { t with retryCount := t.retryCount + 1 }).store r).retryCount =
      (sm.dataAt r).retryCount + 1 := by
    simp [update, dataAt, Task.data]
  rw [hretry]
  split
  · rw [content_bury, hcount, Queue.set_set]
    have hdata : ({ sm with nacked := sm.nacked + 1 }.update r fun t =>
        { t with retryCount := t.retryCount + 1 }).dataAt r =
        { sm.dataAt r with retryCount := (sm.dataAt r).retryCount + 1 } := by
      rw [dataAt_update, if_pos rfl]
      rfl
    rw [hdata]
    rfl
  · rw [content_requeue, hcount]
    rfl

/-- **Every command keeps the machine tidy.** -/
theorem Tidy.apply (h : sm.Tidy) (op : QueueOp) : (sm.apply op).Tidy := by
  unfold StateMachine.apply
  split
  · cases op.task with
    | none => exact h
    | some t =>
      simp only [Option.elim_some, applyEnqueue]
      split
      · exact h
      · exact h.file
  · cases hr : sm.tasks.lookup op.taskID with
    | none => exact h
    | some r => exact h.applyAck hr
  · cases hr : sm.tasks.lookup op.taskID with
    | none => exact h
    | some r => exact h.applyNack hr
  · exact h

/-- **A command does to what a replica holds what it means.** -/
theorem content_apply (h : sm.Tidy) (op : QueueOp) :
    (sm.apply op).content = sm.content.apply sm.maxRetries op := by
  unfold apply Queue.apply
  cases op.type with
  | enqueue =>
    cases op.task with
    | none => rfl
    | some t =>
      have hlive : (sm.content.live t.id).isSome = (sm.tasks.lookup t.id).isSome :=
        Option.isSome_map
      simp only [Option.elim_some, applyEnqueue, hlive]
      split
      · rfl
      · exact content_file h
  | ack =>
    have hlive : sm.content.live op.taskID = (sm.tasks.lookup op.taskID).map sm.dataAt := rfl
    dsimp only
    rw [hlive]
    cases hr : sm.tasks.lookup op.taskID with
    | none => rfl
    | some r => exact content_applyAck sm op.taskID r
  | nack =>
    have hlive : sm.content.live op.taskID = (sm.tasks.lookup op.taskID).map sm.dataAt := rfl
    dsimp only
    rw [hlive]
    cases hr : sm.tasks.lookup op.taskID with
    | none => rfl
    | some r => exact content_applyNack h hr
  | dead => rfl

@[simp] theorem pushLocked_maxRetries : (sm.pushLocked r).maxRetries = sm.maxRetries := by
  unfold pushLocked
  split <;> rfl

/-- No command changes how many retries there are. -/
theorem apply_maxRetries (sm : StateMachine) (op : QueueOp) :
    (sm.apply op).maxRetries = sm.maxRetries := by
  unfold apply
  split
  · cases op.task with
    | none => rfl
    | some t =>
      simp only [Option.elim_some, applyEnqueue]
      split
      · rfl
      · simp [file, alloc]
  · cases sm.tasks.lookup op.taskID with
    | none => rfl
    | some r => rfl
  · cases sm.tasks.lookup op.taskID with
    | none => rfl
    | some r =>
      simp only [Option.elim_some, applyNack]
      split
      · rfl
      · simp [requeue, update]
  · rfl

/-- **The replica holds this queue.** -/
structure Holds (sm : StateMachine) (maxRetries : ℤ) (q : Queue) : Prop where
  tidy : sm.Tidy
  maxRetries : sm.maxRetries = maxRetries
  content : sm.content = q

variable {maxRetries : ℤ} {q : Queue}

/-- A new machine holds the empty queue. -/
theorem holds_newStateMachine (maxRetries : ℤ) :
    (newStateMachine maxRetries).Holds maxRetries .empty :=
  ⟨tidy_newStateMachine maxRetries, rfl, rfl⟩

/-- **A command does to the queue what it does to the machine that holds it.** -/
theorem Holds.apply (h : sm.Holds maxRetries q) (op : QueueOp) :
    (sm.apply op).Holds maxRetries (q.apply maxRetries op) := by
  refine ⟨h.tidy.apply op, (apply_maxRetries sm op).trans h.maxRetries, ?_⟩
  rw [content_apply h.tidy, h.maxRetries, h.content]

/-- The task that is handed out is the live one of its identifier. -/
theorem live_of_dequeue {deadline : Time} {t : Task} (ht : (sm.dequeue deadline).1 = some t) :
    sm.content.live t.id = some t.data := by
  obtain ⟨pq, inHeap, heq | ⟨r, ⟨hr, -⟩, heq⟩⟩ := dequeueLoop_cases deadline sm.pq.length sm <;>
    rw [StateMachine.dequeue, heq] at ht
  · cases ht
  · cases ht
    simp only [content, hr, Option.map_some]
    rfl

/-- Deliveries are no part of the queue. -/
theorem Holds.dequeue (h : sm.Holds maxRetries q) (deadline : Time) :
    (sm.dequeue deadline).2.Holds maxRetries q := by
  obtain ⟨pq, inHeap, heq | ⟨r, -, heq⟩⟩ := dequeueLoop_cases deadline sm.pq.length sm <;>
    rw [StateMachine.dequeue, heq]
  · exact ⟨h.tidy.congr (h.tidy.keyed.congr rfl rfl le_rfl) rfl rfl le_rfl, h.maxRetries, h.content⟩
  · refine ⟨h.tidy.congr (Keyed.deliver (h.tidy.keyed.congr rfl rfl le_rfl)) rfl rfl le_rfl,
      h.maxRetries, Eq.trans ?_ h.content⟩
    refine content_update_of_data ?_
    exact fun t => rfl

/-- A reset of the overlay leaves the queue alone. -/
theorem Holds.requeueInFlight (h : sm.Holds maxRetries q) (order : List TaskID) :
    (sm.requeueInFlight order).Holds maxRetries q := by
  induction order generalizing sm with
  | nil => exact h
  | cons id order ih =>
    refine ih ?_
    unfold requeueIfInFlight
    split
    · split
      · exact ⟨h.tidy.requeue, by simp [requeue, update, h.maxRetries],
          content_requeue.trans h.content⟩
      · exact h
    · exact h

end StateMachine

/-! ### Snapshots -/

namespace SnapshotState

/-- The task of a snapshot under an identifier. -/
def live (st : SnapshotState) (id : TaskID) : Option TaskData :=
  (st.tasks.find? (·.id = id)).map Task.data

end SnapshotState

namespace StateMachine

variable {sm : StateMachine} {maxRetries : ℤ} {q : Queue} {id : TaskID}

/-- Filing tasks with distinct identifiers, one after the other. -/
theorem Holds.foldl_file {l : List Task} (h : sm.Holds maxRetries q)
    (hnodup : (l.map Task.id).Nodup) :
    (l.foldl StateMachine.file sm).Holds maxRetries
      { q with live := fun id => ((l.find? (·.id = id)).map Task.data).or (q.live id) } := by
  induction l generalizing sm q with
  | nil => exact h
  | cons t l ih =>
    obtain ⟨hnew, hnodup⟩ := List.nodup_cons.mp hnodup
    have hfile : (sm.file t).Holds maxRetries (q.set t.id (some t.data)) :=
      ⟨h.tidy.file, by simp [file, alloc, h.maxRetries], by rw [content_file h.tidy, h.content]⟩
    have hfold := ih hfile hnodup
    refine ⟨hfold.tidy, hfold.maxRetries,
      hfold.content.trans (Queue.ext (funext fun id => ?_) rfl rfl rfl)⟩
    dsimp only
    by_cases hid : id = t.id
    · subst hid
      have hnone : l.find? (fun u => decide (u.id = t.id)) = none := by
        refine List.find?_eq_none.mpr fun u hu hut => hnew ?_
        rw [← of_decide_eq_true hut]
        exact List.mem_map_of_mem hu
      rw [hnone, Queue.set_live_self, List.find?_cons_of_pos (by simp)]
      rfl
    · rw [Queue.set_live_of_ne _ _ hid,
        List.find?_cons_of_neg (by simpa using fun heq => hid heq.symm)]

/-- A dead task comes back from a snapshot. -/
theorem Holds.restoreDead (h : sm.Holds maxRetries q) (t : Task) :
    (sm.restoreDead t).Holds maxRetries { q with dlq := q.dlq ++ [t.data] } := by
  have hlive : ∀ {id r}, sm.tasks.lookup id = some r → r < sm.next := h.tidy.keyed.lt_next
  refine ⟨⟨h.tidy.keyed.alloc.congr rfl rfl le_rfl, fun r hr => ?_, fun r hr id hid => ?_⟩,
    h.maxRetries, ?_⟩
  · obtain hr | hr := List.mem_append.mp hr
    · exact Nat.lt_succ_of_lt (h.tidy.dead_lt r hr)
    · rw [List.mem_singleton.mp hr]
      exact Nat.lt_succ_self _
  · obtain hr | hr := List.mem_append.mp hr
    · exact h.tidy.dead_ne r hr id hid
    · exact absurd (hlive hid) (by rw [List.mem_singleton.mp hr]; exact lt_irrefl _)
  · rw [← h.content]
    refine Queue.ext (funext fun id => ?_) ?_ rfl rfl
    · exact Option.map_congr fun r hr => dataAt_alloc_of_lt (hlive hr)
    · have hold : sm.dlq.map (sm.alloc t).dataAt = sm.dlq.map sm.dataAt :=
        List.map_congr_left fun r hr => dataAt_alloc_of_lt (h.tidy.dead_lt r hr)
      have hnew : (sm.alloc t).dataAt sm.next = t.data := by simp [dataAt, alloc]
      change (sm.dlq ++ [sm.next]).map (sm.alloc t).dataAt = _
      rw [List.map_append, hold, List.map_singleton, hnew]
      rfl

/-- All the dead tasks come back, in their order. -/
theorem Holds.foldl_restoreDead (h : sm.Holds maxRetries q) (l : List Task) :
    (l.foldl StateMachine.restoreDead sm).Holds maxRetries
      { q with dlq := q.dlq ++ l.map Task.data } := by
  induction l generalizing sm q with
  | nil => simpa using h
  | cons t l ih =>
    have hfold := ih (h.restoreDead t)
    simpa using hfold

/-- **A replica holds what it has restored**, and goes on counting nacks. -/
theorem holds_restore (sm : StateMachine) {st : SnapshotState} (hst : st.Proper) :
    (sm.restore st).Holds sm.maxRetries
      { live := st.live, dlq := st.dlq.map Task.data, acked := st.acked, nacked := sm.nacked } := by
  have hcleared : { sm with
      tasks := ∅, pq := [], inHeap := fun _ => false, dlq := [], acked := st.acked }.Holds
      sm.maxRetries { live := fun _ => none, dlq := [], acked := st.acked, nacked := sm.nacked } :=
    ⟨⟨keyed_cleared sm st.acked, fun r hr => (by cases hr), fun r hr => (by cases hr)⟩, rfl, rfl⟩
  have hrestored := (hcleared.foldl_file hst.nodup).foldl_restoreDead st.dlq
  simp only [Option.or_none, List.nil_append] at hrestored
  exact hrestored

/-- Among tasks with distinct identifiers, each is found by its own. -/
theorem find?_id {l : List Task} {t : Task} (hnodup : (l.map Task.id).Nodup) (ht : t ∈ l) :
    l.find? (·.id = t.id) = some t := by
  induction l with
  | nil => cases ht
  | cons u l ih =>
    obtain ⟨hu, hnodup⟩ := List.nodup_cons.mp hnodup
    obtain rfl | ht := List.mem_cons.mp ht
    · exact List.find?_cons_of_pos (by simp)
    · rw [List.find?_cons_of_neg, ih hnodup ht]
      simpa using fun heq : u.id = t.id => hu (heq ▸ List.mem_map_of_mem ht)

/-- **A snapshot holds the queue.** -/
theorem Tidy.snapshot_live (h : sm.Tidy) {order : List TaskID} (ho : order.Perm sm.tasks.keys) :
    (sm.snapshot order).live = sm.content.live := by
  funext id
  have hids := h.keyed.snapshot_ids ho
  have hproper := h.keyed.snapshot_proper ho
  cases hr : sm.tasks.lookup id with
  | none =>
    have hnot : id ∉ (sm.snapshot order).tasks.map Task.id := by
      rw [hids, ho.mem_iff]
      exact fun hmem => AList.lookup_eq_none.mp hr (AList.mem_keys.mp hmem)
    have hnone : (sm.snapshot order).tasks.find? (·.id = id) = none :=
      List.find?_eq_none.mpr fun t ht hid =>
        hnot (of_decide_eq_true hid ▸ List.mem_map_of_mem ht)
    simp [SnapshotState.live, hnone, content, hr]
  | some r =>
    have hmem : { sm.store r with status := .pending, deadline := 0, mono := none } ∈
        (sm.snapshot order).tasks := by
      refine List.mem_map.mpr ⟨r, List.mem_filterMap.mpr ⟨id, ?_, hr⟩, rfl⟩
      exact ho.mem_iff.mpr (AList.mem_keys.mpr (AList.lookup_isSome.mp (by rw [hr]; rfl)))
    have hfind := find?_id hproper.nodup hmem
    have hid : (sm.store r).id = id := h.keyed.id_eq hr
    simp only [hid] at hfind
    simp [SnapshotState.live, hfind, content, hr, dataAt, Task.data, hid]

end StateMachine

/-! ### Runs of the replicas, with what they have consumed -/

/-- The replicas of a queue, the commands each of them has consumed, and those behind each
snapshot. -/
structure Logged where
  fleet : Fleet
  consumed : ℕ → List QueueOp
  takenAt : List (List QueueOp)

namespace Logged

/-- The replicas before anything has happened. -/
def start (maxRetries : ℤ) : Logged := ⟨Fleet.start maxRetries, fun _ => [], []⟩

/-- Who has consumed what after a call. A replica that restores a snapshot has consumed what
the replica had that took it. -/
def record (f : Logged) : FleetOp → (ℕ → List QueueOp) × List (List QueueOp)
  | .apply i op => (Function.update f.consumed i (f.consumed i ++ [op]), f.takenAt)
  | .snapshot i _ => (f.consumed, f.takenAt ++ [f.consumed i])
  | .restore i k => (Function.update f.consumed i (f.takenAt[k]?.getD []), f.takenAt)
  | .dequeue _ _ | .requeueInFlight _ _ => (f.consumed, f.takenAt)

/-- An operation on one of the replicas, with what each has consumed recorded. -/
def step (f : Logged) (x : FleetOp) : Option Logged :=
  (f.fleet.step x).map fun fleet => ⟨fleet, (f.record x).1, (f.record x).2⟩

/-- The snapshot is one of the queue that the commands define. -/
structure Captures (maxRetries : ℤ) (st : SnapshotState) (ops : List QueueOp) : Prop where
  proper : st.Proper
  live : st.live = (Queue.replay maxRetries ops).live
  dlq : st.dlq.map Task.data = (Queue.replay maxRetries ops).dlq
  acked : st.acked = (Queue.replay maxRetries ops).acked

/-- **Replicas and snapshots hold what the commands they have consumed define**, but for the
number of nacks. -/
structure Sound (maxRetries : ℤ) (f : Logged) : Prop where
  machine : ∀ i, ∃ n, (f.fleet.machine i).Holds maxRetries
    { Queue.replay maxRetries (f.consumed i) with nacked := n }
  length : f.takenAt.length = f.fleet.taken.length
  taken : ∀ (k : ℕ) (st : SnapshotState) (ops : List QueueOp), f.fleet.taken[k]? = some st →
    f.takenAt[k]? = some ops → Captures maxRetries st ops

variable {maxRetries : ℤ} {f f' : Logged}

theorem sound_start (maxRetries : ℤ) : (start maxRetries).Sound maxRetries :=
  ⟨fun _ => ⟨0, StateMachine.holds_newStateMachine maxRetries⟩, rfl,
    fun k st ops hst => (by cases hst)⟩

/-- A snapshot captures the queue of the log that the replica has consumed. -/
theorem captures_snapshot {sm : StateMachine} {ops : List QueueOp} {n : ℤ} {order : List TaskID}
    (h : sm.Holds maxRetries { Queue.replay maxRetries ops with nacked := n })
    (ho : order.Perm sm.tasks.keys) : Captures maxRetries (sm.snapshot order) ops := by
  refine ⟨h.tidy.keyed.snapshot_proper ho, ?_, ?_, ?_⟩
  · rw [h.tidy.snapshot_live ho, h.content]
  · have hdlq : (sm.snapshot order).dlq.map Task.data = sm.content.dlq := List.map_map ..
    rw [hdlq, h.content]
  · have hacked : (sm.snapshot order).acked = sm.content.acked := rfl
    rw [hacked, h.content]

/-- One replica changes. -/
theorem Sound.setMachine (h : f.Sound maxRetries) {i : ℕ} {sm : StateMachine} {ops : List QueueOp}
    {n : ℤ} (hsm : sm.Holds maxRetries { Queue.replay maxRetries ops with nacked := n }) :
    Sound maxRetries ⟨f.fleet.setMachine i sm, Function.update f.consumed i ops, f.takenAt⟩ := by
  refine ⟨fun j => ?_, h.length, h.taken⟩
  by_cases hj : j = i
  · subst hj
    simpa [Fleet.setMachine] using ⟨n, hsm⟩
  · simpa [Fleet.setMachine, hj] using h.machine j

/-- One replica changes, which consumes nothing. -/
theorem Sound.overlay (h : f.Sound maxRetries) {i : ℕ} {sm : StateMachine} {n : ℤ}
    (hsm : sm.Holds maxRetries { Queue.replay maxRetries (f.consumed i) with nacked := n }) :
    Sound maxRetries ⟨f.fleet.setMachine i sm, f.consumed, f.takenAt⟩ := by
  have hset := h.setMachine (i := i) hsm
  rwa [Function.update_eq_self] at hset

/-- **Every operation keeps the replicas in step with their logs.** -/
theorem Sound.step (h : f.Sound maxRetries) {x : FleetOp} (hs : f.step x = some f') :
    f'.Sound maxRetries := by
  obtain ⟨fleet, hfleet, rfl⟩ := Option.map_eq_some_iff.mp hs
  cases x with
  | apply i op =>
    cases hfleet
    obtain ⟨n, hi⟩ := h.machine i
    have happly := hi.apply op
    obtain ⟨n', hn'⟩ := Queue.apply_nacked maxRetries (Queue.replay maxRetries (f.consumed i)) op n
    rw [hn', ← Queue.replay_concat] at happly
    exact h.setMachine happly
  | dequeue i deadline =>
    cases hfleet
    obtain ⟨n, hi⟩ := h.machine i
    exact h.overlay (hi.dequeue deadline)
  | requeueInFlight i order =>
    simp only [Fleet.step, Option.ite_none_right_eq_some, Option.some.injEq] at hfleet
    obtain ⟨-, rfl⟩ := hfleet
    obtain ⟨n, hi⟩ := h.machine i
    exact h.overlay (hi.requeueInFlight order)
  | snapshot i order =>
    simp only [Fleet.step, Option.ite_none_right_eq_some, Option.some.injEq] at hfleet
    obtain ⟨ho, rfl⟩ := hfleet
    obtain ⟨n, hi⟩ := h.machine i
    refine ⟨h.machine, ?_, fun k st ops hst hops => ?_⟩
    · simp [record, h.length]
    · rcases Nat.lt_or_ge k f.fleet.taken.length with hk | hk
      · rw [List.getElem?_append_left hk] at hst
        rw [record, List.getElem?_append_left (h.length ▸ hk)] at hops
        exact h.taken k st ops hst hops
      · rw [List.getElem?_append_right hk] at hst
        rw [record, List.getElem?_append_right (h.length ▸ hk)] at hops
        obtain rfl := List.mem_singleton.mp (List.mem_of_getElem? hst)
        obtain rfl := List.mem_singleton.mp (List.mem_of_getElem? hops)
        exact captures_snapshot hi ho
  | restore i k =>
    obtain ⟨st, hst, rfl⟩ := Option.map_eq_some_iff.mp hfleet
    obtain ⟨ops, hops⟩ : ∃ ops, f.takenAt[k]? = some ops := by
      obtain ⟨hk, -⟩ := List.getElem?_eq_some_iff.mp hst
      exact ⟨_, List.getElem?_eq_getElem (h.length.symm ▸ hk)⟩
    obtain ⟨n, hi⟩ := h.machine i
    have hc := h.taken k st ops hst hops
    have hrestored := StateMachine.holds_restore (f.fleet.machine i) hc.proper
    rw [hi.maxRetries, hc.live, hc.dlq, hc.acked] at hrestored
    rw [record, hops, Option.getD_some]
    exact h.setMachine hrestored

end Logged

/-- **Replicas converge.** In every run of any number of replicas – with any commands, in which
they take snapshots, restore each other's, and deliver and requeue tasks as they like – two
replicas that have consumed the same commands hold the same live tasks, and the same tasks in
the dead-letter queue in the same order. -/
theorem replicas_converge {maxRetries : ℤ} {xs : List FleetOp} {f : Logged} {i j : ℕ}
    (hrun : Run.exec Logged.step (Logged.start maxRetries) xs = some f)
    (hsame : f.consumed i = f.consumed j) :
    (∀ id, ((f.fleet.machine i).tasks.lookup id).map (f.fleet.machine i).dataAt =
      ((f.fleet.machine j).tasks.lookup id).map (f.fleet.machine j).dataAt) ∧
    (f.fleet.machine i).dlq.map (f.fleet.machine i).dataAt =
      (f.fleet.machine j).dlq.map (f.fleet.machine j).dataAt := by
  have hsound : f.Sound maxRetries :=
    Run.invariant (P := Logged.Sound maxRetries) (Logged.sound_start maxRetries)
      (fun _ _ _ h hs => h.step hs) hrun
  obtain ⟨n, hi⟩ := hsound.machine i
  obtain ⟨n', hj⟩ := hsound.machine j
  rw [hsame] at hi
  have hlive : (f.fleet.machine i).content.live = (f.fleet.machine j).content.live := by
    rw [hi.content, hj.content]
  have hdlq : (f.fleet.machine i).content.dlq = (f.fleet.machine j).content.dlq := by
    rw [hi.content, hj.content]
  exact ⟨fun id => congrFun hlive id, hdlq⟩

/-- A replica applies commands and delivers a task, one takes a snapshot in between, and one
restores it and loses its deliveries. -/
def overlaid : List FleetOp :=
  [.apply 0 (.enqueue (.named "a")), .apply 0 (.enqueue (.named "b")), .dequeue 0 10, .dequeue 0 10,
    .apply 0 (.nack "b"), .snapshot 0 ["b", "a"], .apply 0 (.nack "a"), .apply 0 (.nack "a"),
    .restore 1 0, .dequeue 1 20, .apply 1 (.nack "a"), .requeueInFlight 1 ["a", "b"],
    .apply 1 (.nack "a")]

theorem replicas_converge_overlaid :
    ∃ f, Run.exec Logged.step (Logged.start 2) overlaid = some f ∧ f.consumed 0 = f.consumed 1 ∧
      ((f.fleet.machine 0).statusOf "b", (f.fleet.machine 1).statusOf "b") =
        (some .pending, some .pending) ∧
      (∀ id, ((f.fleet.machine 0).tasks.lookup id).map (f.fleet.machine 0).dataAt =
        ((f.fleet.machine 1).tasks.lookup id).map (f.fleet.machine 1).dataAt) ∧
      (f.fleet.machine 0).dlq.map (f.fleet.machine 0).dataAt =
        (f.fleet.machine 1).dlq.map (f.fleet.machine 1).dataAt := by
  have hend : (Run.exec Logged.step (Logged.start 2) overlaid).map (fun f =>
      (decide (f.consumed 0 = f.consumed 1), (f.fleet.machine 0).statusOf "b",
        (f.fleet.machine 1).statusOf "b")) = some (true, some .pending, some .pending) := by
    decide +kernel
  obtain ⟨f, hrun, hlast⟩ := Option.map_eq_some_iff.mp hend
  obtain ⟨hsame, hstatus⟩ := Prod.mk.inj hlast
  have hsame := of_decide_eq_true hsame
  exact ⟨f, hrun, hsame, hstatus, replicas_converge hrun hsame⟩

/-! ### The counters -/

/-- What a replica reports. -/
structure Stats where
  pending : ℕ
  inFlight : ℕ
  dlq : ℕ
  acked : ℤ
  nacked : ℤ
  deriving DecidableEq

/-- `Stats`: the tasks that are not in flight count as pending, as the source counts them. -/
def StateMachine.stats (sm : StateMachine) : Stats :=
  let statuses := sm.tasks.entries.map fun e => (sm.store e.2).status
  { pending := statuses.countP (· ≠ .inFlight)
    inFlight := statuses.count .inFlight
    dlq := sm.dlq.length
    acked := sm.acked
    nacked := sm.nacked }

/-- A method call on a replica, other than those for snapshots. -/
inductive Call
  | apply (op : QueueOp)
  | dequeue (deadline : Time)
  | requeueInFlight (order : List TaskID)

namespace Call

/-- A call on one state machine. All of them can always be made. -/
def step (sm : StateMachine) : Call → Option StateMachine
  | .apply op => some (sm.apply op)
  | .dequeue deadline => some (sm.dequeue deadline).2
  | .requeueInFlight order => some (sm.requeueInFlight order)

/-- The commands among the calls. -/
def ops (cs : List Call) : List QueueOp :=
  cs.filterMap fun
    | .apply op => some op
    | _ => none

/-- **No nack finds its task live.** -/
def SparesNacks (sm : StateMachine) : Call → Prop
  | .apply op => op.type = .nack → sm.has op.taskID = false
  | _ => True

instance (sm : StateMachine) (c : Call) : Decidable (SparesNacks sm c) := by
  cases c <;> dsimp only [SparesNacks] <;> infer_instance

end Call

namespace StateMachine

variable {sm sm' : StateMachine} {maxRetries : ℤ} {q : Queue}

/-- What a sequence of calls makes of the queue: the commands among them, one after the other. -/
theorem Holds.exec {cs : List Call} (h : sm.Holds maxRetries q)
    (hrun : Run.exec Call.step sm cs = some sm') :
    sm'.Holds maxRetries ((Call.ops cs).foldl (Queue.apply maxRetries) q) := by
  induction cs generalizing sm q with
  | nil =>
    cases hrun
    exact h
  | cons c cs ih =>
    obtain ⟨u, hu, hrun⟩ := Option.bind_eq_some_iff.mp hrun
    cases c with
    | apply op =>
      cases hu
      exact ih (h.apply op) hrun
    | dequeue deadline =>
      cases hu
      exact ih (h.dequeue deadline) hrun
    | requeueInFlight order =>
      cases hu
      exact ih (h.requeueInFlight order) hrun

theorem live_eq_none {id : TaskID} (h : sm.has id = false) : sm.content.live id = none := by
  have hnone : sm.tasks.lookup id = none :=
    Option.isNone_iff_eq_none.mp (Option.isSome_eq_false_iff.mp h)
  simp [content, hnone]

/-- A call that nacks no live task is not counted as a nack. -/
theorem Holds.nacked_step {c : Call} (h : sm.Holds maxRetries q) (hc : Call.SparesNacks sm c)
    (hs : Call.step sm c = some sm') : ∃ q', sm'.Holds maxRetries q' ∧ q'.nacked = q.nacked := by
  cases c with
  | apply op =>
    cases hs
    refine ⟨_, h.apply op, Queue.apply_nacked_eq fun hty => ?_⟩
    rw [← h.content]
    exact live_eq_none (hc hty)
  | dequeue deadline =>
    cases hs
    exact ⟨q, h.dequeue deadline, rfl⟩
  | requeueInFlight order =>
    cases hs
    exact ⟨q, h.requeueInFlight order, rfl⟩

end StateMachine

/-- **The counters survive a snapshot.** A replica that has restored a snapshot into a fresh
state machine and applied the remaining commands reports as many acks and nacks as one that
has applied all of them, if no nack before the snapshot has found its task live. -/
theorem counters_survive {maxRetries : ℤ} {before after all : List Call}
    {sm restored whole : StateMachine} {order : List TaskID}
    (hG : Run.Guarded Call.step Call.SparesNacks (newStateMachine maxRetries) before)
    (hbefore : Run.exec Call.step (newStateMachine maxRetries) before = some sm)
    (horder : order.Perm sm.tasks.keys)
    (hrestored : Run.exec Call.step ((newStateMachine maxRetries).restore (sm.snapshot order))
      after = some restored)
    (hops : Call.ops all = Call.ops before ++ Call.ops after)
    (hwhole : Run.exec Call.step (newStateMachine maxRetries) all = some whole) :
    restored.stats.acked = whole.stats.acked ∧ restored.stats.nacked = whole.stats.nacked := by
  have hnew := StateMachine.holds_newStateMachine maxRetries
  have hsm := hnew.exec hbefore
  -- no nack has been counted
  obtain ⟨q, hq, hzero⟩ : ∃ q, sm.Holds maxRetries q ∧ q.nacked = 0 :=
    Run.invariant_of_guarded (P := fun sm => ∃ q, StateMachine.Holds sm maxRetries q ∧ q.nacked = 0)
      ⟨_, hnew, rfl⟩ (fun _ _ _ ⟨q, hq, hz⟩ hc hs =>
        (hq.nacked_step hc hs).imp fun _ h => h.imp_right fun h => h.trans hz) hG hbefore
  have hstart : ((newStateMachine maxRetries).restore (sm.snapshot order)).Holds maxRetries
      sm.content := by
    have hrestore := StateMachine.holds_restore (newStateMachine maxRetries)
      (hq.tidy.keyed.snapshot_proper horder)
    refine ⟨hrestore.tidy, hrestore.maxRetries, hrestore.content.trans ?_⟩
    refine Queue.ext (hq.tidy.snapshot_live horder) (List.map_map ..) rfl ?_
    rw [hq.content, hzero]
    rfl
  have hr := hstart.exec hrestored
  have hw := hnew.exec hwhole
  rw [hops, List.foldl_append, ← hsm.content] at hw
  have hsame : restored.content = whole.content := hr.content.trans hw.content.symm
  exact ⟨congrArg Queue.acked hsame, congrArg Queue.nacked hsame⟩

/-- An ack and a nack of a task that has been acked, and a snapshot. -/
def ackThenNack : List Call :=
  [.apply (.enqueue (.named "a")), .apply (.enqueue (.named "b")), .dequeue 10, .apply (.ack "a"),
    .apply (.nack "a")]

theorem counters_survive_ack :
    ∃ sm restored whole, Run.exec Call.step (newStateMachine 3) ackThenNack = some sm ∧
      Run.exec Call.step ((newStateMachine 3).restore (sm.snapshot ["b"]))
        [.apply (.nack "b")] = some restored ∧
      Run.exec Call.step (newStateMachine 3) (ackThenNack ++ [.apply (.nack "b")]) = some whole ∧
      restored.stats.acked = whole.stats.acked ∧ restored.stats.nacked = whole.stats.nacked := by
  obtain ⟨sm, hsm⟩ : ∃ sm, Run.exec Call.step (newStateMachine 3) ackThenNack = some sm := ⟨_, rfl⟩
  obtain ⟨restored, hrestored⟩ : ∃ restored,
      Run.exec Call.step ((newStateMachine 3).restore (sm.snapshot ["b"])) [.apply (.nack "b")] =
        some restored := ⟨_, rfl⟩
  obtain ⟨whole, hwhole⟩ : ∃ whole, Run.exec Call.step (newStateMachine 3)
      (ackThenNack ++ [.apply (.nack "b")]) = some whole := ⟨_, rfl⟩
  have hkeys : (Run.exec Call.step (newStateMachine 3) ackThenNack).map (fun sm => sm.tasks.keys) =
      some ["b"] := by
    decide +kernel
  rw [hsm, Option.map_some, Option.some.injEq] at hkeys
  have hG : Run.Guarded Call.step Call.SparesNacks (newStateMachine 3) ackThenNack := by
    decide +kernel
  exact ⟨sm, restored, whole, hsm, hrestored, hwhole,
    counters_survive hG hsm (by rw [hkeys]) hrestored rfl hwhole⟩

/-- **Nacks are forgotten.** A task is nacked and a snapshot taken: the replica that restores
it reports no nack. -/
theorem nacked_lost :
    ∃ sm, Run.exec Call.step (newStateMachine 3)
        [.apply (.enqueue (.named "a")), .apply (.nack "a")] = some sm ∧
      sm.tasks.keys = ["a"] ∧ sm.stats.nacked = 1 ∧
      ((newStateMachine 3).restore (sm.snapshot ["a"])).stats.nacked = 0 :=
  ⟨_, rfl, by decide +kernel, by decide +kernel, by decide +kernel⟩

end Broker

end DistQueue
