import DistQueue.SingleNode.Contents

/-!
# What a section does

Every section of the single-node broker, seen from the queue's contents: it leaves the live
tasks and the dead-letter queue as they are, or it appends one entry to the log and makes
the change the entry stands for (`DistQueue.SingleNode.Change`). The calls that have yet to
return are `DistQueue.SingleNode.Broker.owed`, whether they wait for the log or still hold
the lock.

`DistQueue.SingleNode.outcome` says this for all moves, as long as input and output succeed
and no two tasks have the same identifier (`DistQueue.SingleNode.Broker.Apart`). What the
invariants of the broker need to know about its functions is read off it.
-/

namespace DistQueue

open Broker Wal

namespace SingleNode

variable {γ : Codec} {b b' : Broker} {h h' : History} {m : Move} {t : Task} {id : TaskID}

namespace Broker

/-- The live tasks, as they would be read back from the log. -/
def live (b : Broker) : List Task := b.tasks.map Task.recovered

/-- No two tasks have the same identifier. -/
def Apart (b : Broker) : Prop := b.ids.Nodup

theorem ids_eq (b : Broker) : b.ids = b.live.map Task.id ++ b.dlq.map Task.id := by
  rw [ids, live, List.map_map]
  rfl

theorem ids_perm (hlive : b'.live.Perm b.live) (hdlq : b'.dlq = b.dlq) : b'.ids.Perm b.ids := by
  rw [ids_eq, ids_eq, hdlq]
  exact (hlive.map Task.id).append_right _

/-- The call of a goroutine that is a client's. -/
def callOf : Caller → List Call
  | .api c => [c]
  | .scanner _ => []

theorem pending_next (rest : List Task) : (Scanner.next rest).pending = rest := by
  cases rest <;> rfl

/-- The calls that have not returned yet. -/
def owed (b : Broker) : List Call :=
  b.calls ++ match b.holder with
    | some x => callOf x.caller
    | none => []

/-! ### The end of a section -/

section Release

variable (b : Broker) (c : Caller)

theorem release_eq : b.release c =
    { b with holder := none, calls := b.calls ++ callOf c, scanner := (b.release c).scanner } := by
  cases c with
  | api c => rfl
  | scanner seq => simp [release, callOf]

@[simp] theorem pending_release : (b.release c).scanner.pending = b.scanner.pending := by
  cases c <;> rfl

/-- A call gives up the lock, or keeps it to compact the log. -/
theorem maybeCompactLocked_cases :
    b.maybeCompactLocked c = b.release c ∧
        (b.cfg.compactEvery ≤ 0 ∨ (b.wal.entries : ℤ) < b.cfg.compactEvery) ∨
      b.maybeCompactLocked c = { b with holder := some ⟨c, none⟩ } := by
  unfold maybeCompactLocked
  split
  · rename_i h
    exact Or.inl ⟨rfl, h⟩
  · exact Or.inr rfl

end Release

/-- **The tasks are where they were.** -/
structure SameTasks (b b' : Broker) : Prop where
  pq : b'.pq = b.pq
  tracker : b'.tracker = b.tracker
  pending : b'.scanner.pending = b.scanner.pending
  dlq : b'.dlq = b.dlq
  acked : b'.acked = b.acked
  nacked : b'.nacked = b.nacked
  cfg : b'.cfg = b.cfg

theorem SameTasks.tasks (h : SameTasks b b') : b'.tasks = b.tasks := by
  rw [Broker.tasks, h.pq, h.tracker, h.pending]
  rfl

theorem sameTasks_release (b : Broker) (c : Caller) : SameTasks b (b.release c) := by
  have hpending := pending_release b c
  rw [release_eq] at hpending ⊢
  exact ⟨rfl, rfl, hpending, rfl, rfl, rfl, rfl⟩

theorem sameTasks_maybeCompactLocked (b : Broker) (c : Caller) :
    SameTasks b (b.maybeCompactLocked c) := by
  obtain ⟨heq, -⟩ | heq := maybeCompactLocked_cases b c <;> rw [heq]
  · exact sameTasks_release b c
  · exact ⟨rfl, rfl, rfl, rfl, rfl, rfl, rfl⟩

/-- The section ends, with its record in the log: what there is in memory stays, and the
call is owed an answer. -/
structure Ends (b b' : Broker) (c : Caller) : Prop where
  live : b'.live = b.live
  dlq : b'.dlq = b.dlq
  wal : b'.wal = b.wal
  owed : b'.owed = b.calls ++ callOf c
  holder : b'.holder = none ∧
      (b.cfg.compactEvery ≤ 0 ∨ (b.wal.entries : ℤ) < b.cfg.compactEvery) ∨
    b'.holder = some ⟨c, none⟩

theorem ends_maybeCompactLocked (b : Broker) (c : Caller) : Ends b (b.maybeCompactLocked c) c := by
  obtain ⟨heq, hle⟩ | heq := maybeCompactLocked_cases b c <;> rw [heq]
  · have htasks := (sameTasks_release b c).tasks
    rw [release_eq] at htasks ⊢
    exact ⟨congrArg (List.map Task.recovered) htasks, rfl, rfl, List.append_nil _,
      Or.inl ⟨rfl, hle⟩⟩
  · exact ⟨rfl, rfl, rfl, rfl, Or.inr rfl⟩

end Broker

/-! ### The changes -/

/-- What an entry means to the broker that writes it. -/
inductive Change (b b' : Broker) : LogEntry → Prop
  | enqueue (t : Task) (hlive : b'.live.Perm (t.recovered :: b.live)) (hdlq : b'.dlq = b.dlq) :
      Change b b' (.enqueue t)
  | ack (t : Task) (hlive : b.live.Perm (t :: b'.live)) (hdlq : b'.dlq = b.dlq) :
      Change b b' (.ack t.id)
  | nack (t : Task) (rest : List Task) (hlive : b.live.Perm (t :: rest))
      (hlive' : b'.live.Perm (t.retried :: rest)) (hdlq : b'.dlq = b.dlq) : Change b b' (.nack t.id)
  | dead (t u : Task) (hlive : b.live.Perm (t :: b'.live)) (hdlq : b'.dlq = b.dlq ++ [u])
      (hu : u.recovered = t.retried) : Change b b' (.dead t.id)

/-- What the entry of a task means. -/
theorem Change.of_enqueue (h : Change b b' (.enqueue t)) :
    b'.live.Perm (t.recovered :: b.live) ∧ b'.dlq = b.dlq := by
  generalize he : LogEntry.enqueue t = e at h
  cases h with
  | enqueue u hlive hdlq =>
    rw [Task.recovered_of_written (LogEntry.written_of_enqueue he)]
    exact ⟨hlive, hdlq⟩
  | ack u hlive hdlq => cases he
  | nack u rest hlive hlive' hdlq => cases he
  | dead u v hlive hdlq hv => cases he

/-- The task is the one that a nack, or a timeout, is about; nobody asks for a timeout. -/
inductive Requeues (b : Broker) : Move → Task → List Request → Prop
  | nack (t : Task) (fault : Option ℕ) (h : t ∈ b.tracker.vals) :
      Requeues b (.nack t.id fault) t [.nack t.id]
  | onTimeout (t : Task) (fault : Option ℕ) (h : t ∈ b.scanner.pending.take 1) :
      Requeues b (.onTimeout fault) t []

/-- Where an entry comes from: the move that writes it, and what clients have asked for. -/
inductive Source (b : Broker) (m : Move) : LogEntry → List Request → Prop
  | enqueue (t : Task) (newID : TaskID) (now : Instant) (fault : Option ℕ)
      (hm : m = .enqueue t newID now fault) :
      Source b m (.enqueue (Broker.prepare t newID now)) [.enqueue (Broker.prepare t newID now)]
  | ack (t : Task) (fault : Option ℕ) (ht : t ∈ b.tracker.vals) (hm : m = .ack t.id fault) :
      Source b m (.ack t.id) [.ack t.id]
  | nack (t : Task) (rs : List Request) (h : Requeues b m t rs) : Source b m (.nack t.id) rs
  | dead (t : Task) (rs : List Request) (h : Requeues b m t rs)
      (hbudget : b.cfg.maxRetries ≤ t.retryCount + 1) : Source b m (.dead t.id) rs

/-- What clients may see of a section that changes nothing: they are told that a task is
not in flight, or they are given a task. -/
inductive Idle (b : Broker) : Event → Prop
  | ack (id : TaskID) : Idle b (.issued (.ack id))
  | nack (id : TaskID) : Idle b (.issued (.nack id))
  | delivered (t : Task) (h : t.recovered ∈ b.live) : Idle b (.delivered t)

/-- One section of the sync of the file, which succeeds. -/
inductive Syncs (w w' : WAL) : Prop
  | lead (h : w.lead = some w')
  | capture (h : w.capture = some w')
  | fsynced (h : w.fsynced true = some w')

/-- **Everything that can happen.** -/
inductive Outcome (γ : Codec) (h : History) (m : Move) (h' : History) : Prop
  /-- Nothing changes, but for where a task is or how it is tuned. -/
  | quiet (evs : List Event) (hwal : h'.broker.wal = h.broker.wal)
      (hholder : h'.broker.holder = h.broker.holder) (howed : h'.broker.owed = h.broker.owed)
      (hlive : h'.broker.live.Perm h.broker.live) (hdlq : h'.broker.dlq = h.broker.dlq)
      (htrace : h'.trace = h.trace ++ evs) (hevs : ∀ ev ∈ evs, Idle h.broker ev)
  /-- An entry is appended, and the change is made. -/
  | append (e : LogEntry) (rs : List Request) (hsource : Source h.broker m e rs)
      (hfree : h.broker.holder = none) (hwal : h'.broker.wal = (h.broker.wal.append γ e none).1)
      (hholder : h'.broker.holder = none ∧ (h.broker.cfg.compactEvery ≤ 0 ∨
          (h'.broker.wal.entries : ℤ) < h.broker.cfg.compactEvery) ∨
        ∃ c, h'.broker.holder = some ⟨c, none⟩)
      (howed : h'.broker.owed = h.broker.owed ++ rs.map (⟨·, h.broker.wal.writeSeq + 1⟩))
      (hchange : Change h.broker h'.broker e) (htrace : h'.trace = h.trace ++ rs.map .issued)
  | sync (w : WAL) (hw : Syncs h.broker.wal w) (hh : h' = h.silent { h.broker with wal := w })
  /-- A call returns. -/
  | returned (c : Call) (hc : c.seq ≤ h.broker.wal.syncedSeq)
      (hwal : h'.broker.wal = h.broker.wal) (hholder : h'.broker.holder = h.broker.holder)
      (howed : h.broker.owed.Perm (c :: h'.broker.owed)) (hlive : h'.broker.live = h.broker.live)
      (hdlq : h'.broker.dlq = h.broker.dlq) (htrace : h'.trace = h.trace ++ [.returned c.request])
  /-- Compaction has read the tracker. -/
  | gathered (c : Caller) (inFlight : List Task) (hm : m = .compact inFlight)
      (hperm : inFlight.Perm h.broker.tracker.vals) (hholder : h.broker.holder = some ⟨c, none⟩)
      (hh : h' = h.silent
        { h.broker with holder := some ⟨c, some (h.broker.compactEntries inFlight)⟩ })
  /-- The file has been replaced. -/
  | rewritten (c : Caller) (es : List LogEntry) (w : WAL)
      (hholder : h.broker.holder = some ⟨c, some es⟩) (hw : h.broker.wal.rewrite γ es = some w)
      (hwal : h'.broker.wal = w) (hfree : h'.broker.holder = none)
      (howed : h'.broker.owed = h.broker.owed) (hlive : h'.broker.live = h.broker.live)
      (hdlq : h'.broker.dlq = h.broker.dlq) (htrace : h'.trace = h.trace)
  | crashed (c : ℕ) (order : List Task) (cfg : Config) (hm : m = .crash c order cfg)
      (hc : h.broker.wal.durable ≤ c)
      (horder : order.Perm (fold (replay γ (h.broker.wal.file.take c)).1).live.vals)
      (hb : recover γ cfg h.broker.wal c order = some h'.broker) (htrace : h'.trace = h.trace)

/-! ### What clients have asked for -/

section Source

variable {e : LogEntry} {rs : List Request}

theorem Requeues.eq_nack {r : Request} (h : Requeues b m t rs) (hr : r ∈ rs) : r = .nack t.id := by
  cases h with
  | nack t fault ht => exact List.mem_singleton.mp hr
  | onTimeout t fault ht => cases hr

/-- The record of an `Ack` is an ack. -/
theorem Source.eq_ack (h : Source b m e rs) (hr : .ack id ∈ rs) : e = .ack id := by
  cases h with
  | enqueue t newID now fault hm => cases List.mem_singleton.mp hr
  | ack t fault ht hm =>
    obtain rfl := Request.ack.inj (List.mem_singleton.mp hr)
    rfl
  | nack t rs hreq => cases hreq.eq_nack hr
  | dead t rs hreq hbudget => cases hreq.eq_nack hr

/-- The entry of a task is written for the call that enqueues it. -/
theorem Source.enqueues (h : Source b m (.enqueue t) rs) :
    ∃ u newID now fault, m = .enqueue u newID now fault ∧
      rs = [.enqueue (Broker.prepare u newID now)] ∧
      (Broker.prepare u newID now).written = t.written := by
  generalize he : LogEntry.enqueue t = e at h
  cases h with
  | enqueue u newID now fault hm =>
    exact ⟨u, newID, now, fault, hm, rfl, (LogEntry.written_of_enqueue he).symm⟩
  | ack u fault hu hm => cases he
  | nack u rs hreq => cases he
  | dead u rs hreq hbudget => cases he

/-- An `enqueue` record is written for an `Enqueue` only. -/
theorem Source.asked (h : Source b m (.enqueue t) rs) :
    ∃ u, rs = [.enqueue u] ∧ u.written = t.written := by
  obtain ⟨u, newID, now, fault, -, hrs, hu⟩ := h.enqueues
  exact ⟨_, hrs, hu⟩

/-- The record of an `Enqueue` is its task. -/
theorem Source.eq_enqueue (h : Source b m e rs) (hr : .enqueue t ∈ rs) : e = .enqueue t := by
  cases h with
  | enqueue u newID now fault hm =>
    obtain rfl := Request.enqueue.inj (List.mem_singleton.mp hr)
    rfl
  | ack u fault hu hm => cases List.mem_singleton.mp hr
  | nack u rs hreq => cases hreq.eq_nack hr
  | dead u rs hreq hbudget => cases hreq.eq_nack hr

/-- One section answers one call. -/
theorem Source.enqueue_unique {u : Task} (h : Source b m e rs) (ht : .enqueue t ∈ rs)
    (hu : .enqueue u ∈ rs) : t = u := by
  obtain ⟨v, rfl, -⟩ := (h.eq_enqueue ht ▸ h).asked
  exact (Request.enqueue.inj (List.mem_singleton.mp ht)).trans
    (Request.enqueue.inj (List.mem_singleton.mp hu)).symm

/-- An ack is written for an `Ack` only. -/
theorem Source.asked_ack (h : Source b m (.ack id) rs) : rs = [.ack id] := by
  cases h
  rfl

end Source

/-! ### Sections that append -/

theorem Change.congr {b'' : Broker} {e : LogEntry} (h : Change b b' e)
    (hlive : b''.live = b'.live) (hdlq : b''.dlq = b'.dlq) : Change b b'' e := by
  cases h with
  | enqueue t h₁ h₂ => exact .enqueue t (hlive ▸ h₁) (hdlq.trans h₂)
  | ack t h₁ h₂ => exact .ack t (hlive ▸ h₁) (hdlq.trans h₂)
  | nack t rest h₁ h₂ h₃ => exact .nack t rest h₁ (hlive ▸ h₂) (hdlq.trans h₃)
  | dead t u h₁ h₂ hu => exact .dead t u (hlive ▸ h₁) (hdlq.trans h₂) hu

/-- A section that has appended its entry and made its change, and comes to its end. -/
theorem outcome_append {b₁ : Broker} {c : Caller} (e : LogEntry) (rs : List Request)
    (hfree : h.broker.holder = none) (hsource : Source h.broker m e rs)
    (hwal : b₁.wal = (h.broker.wal.append γ e none).1) (hcalls : b₁.calls = h.broker.calls)
    (hcfg : b₁.cfg = h.broker.cfg)
    (hc : Broker.callOf c = rs.map (⟨·, h.broker.wal.writeSeq + 1⟩))
    (hchange : Change h.broker b₁ e) :
    Outcome γ h m ⟨b₁.maybeCompactLocked c, h.trace ++ rs.map .issued⟩ := by
  have hends := Broker.ends_maybeCompactLocked b₁ c
  refine .append e rs hsource hfree (hends.wal.trans hwal) ?_ ?_
    (hchange.congr hends.live hends.dlq) rfl
  · refine hends.holder.imp ?_ fun hsome => ⟨c, hsome⟩
    rw [hcfg, ← hends.wal]
    exact id
  · have howed : h.broker.owed = h.broker.calls := by
      rw [Broker.owed, hfree, List.append_nil]
    rw [hends.owed, hcalls, hc, howed]

namespace Broker

/-- A push adds the task to the live ones. -/
theorem live_push (b : Broker) (t : Task) :
    ({ b with pq := Heap.push Task.less b.pq t } : Broker).live.Perm (t.recovered :: b.live) :=
  (((Heap.push_perm b.pq t).append_right _).append_right _).map Task.recovered

/-- Who is handed out stays live. -/
theorem live_dequeue (b : Broker) {t' : Task} {pq : List Task} (hperm : b.pq.Perm (t :: pq))
    (hrec : t'.recovered = t.recovered) (hnew : t'.id ∉ b.tracker.vals.map Task.id) :
    ({ b with pq, tracker := b.tracker.put t' } : Broker).live.Perm b.live := by
  have hpq :=
    ((hperm.append_right b.tracker.vals).append_right b.scanner.pending).map Task.recovered
  refine List.Perm.trans ?_ hpq.symm
  unfold live tasks
  dsimp only
  rw [Table.vals_put_of_not_mem hnew]
  simp only [List.map_append, List.map_cons, List.cons_append, List.append_assoc, hrec]
  exact List.perm_middle

/-- A task in flight is live. -/
theorem live_track (b : Broker) (h : b.tracker.find id = some t) :
    b.live.Perm (t.recovered :: ({ b with tracker := b.tracker.erase id } : Broker).live) := by
  refine List.Perm.map Task.recovered (?_ : b.tasks.Perm (t :: (_ ++ _ ++ _)))
  refine (((Table.perm_of_find h).append_left b.pq).append_right b.scanner.pending).trans ?_
  rw [List.append_assoc, List.cons_append, List.append_assoc]
  exact List.perm_middle

/-- A task that is in the heap cannot be in flight as well. -/
theorem Apart.not_tracked_of_mem_pq (ha : b.Apart) (ht : t ∈ b.pq) :
    t.id ∉ b.tracker.vals.map Task.id := by
  intro hmem
  have hids := (List.nodup_append.mp ha).1
  rw [tasks, List.append_assoc, List.map_append, List.map_append] at hids
  exact (List.nodup_append.mp hids).2.2 _ (List.mem_map.mpr ⟨t, ht, rfl⟩) _
    (List.mem_append_left _ hmem) rfl

/-- So is one that has expired. -/
theorem live_batch (b : Broker) {rest : List Task} (h : b.scanner = .batch t rest) :
    b.live.Perm (t.recovered :: ({ b with scanner := .locked rest } : Broker).live) := by
  refine List.Perm.map Task.recovered (?_ : b.tasks.Perm (t :: (_ ++ _ ++ _)))
  rw [tasks, h]
  exact List.perm_middle

/-- The expired tasks go from the tracker to the scanner. -/
theorem live_expired {now : Time} {inFlight : List Task} (hscan : b.scanner = .idle)
    (hperm : inFlight.Perm b.tracker.vals) : (b.expired now inFlight).live.Perm b.live := by
  refine List.Perm.map Task.recovered ?_
  unfold tasks expired
  dsimp only
  rw [pending_next, hscan, Scanner.pending, List.append_nil, List.append_assoc]
  refine List.Perm.append_left _ ?_
  refine List.perm_append_comm.trans (((hperm.filter _).append_right _).trans ?_)
  exact List.filter_append_perm _ _

end Broker

/-- The shared path of nacks and timeouts, for a task that has been taken from where it
was. -/
theorem outcome_requeueLocked {b₀ : Broker} {caller : ℕ → Caller} (rs : List Request)
    (hfree : h.broker.holder = none) (hreq : Requeues h.broker m t rs)
    (hwal : b₀.wal = h.broker.wal) (hcalls : b₀.calls = h.broker.calls)
    (hcfg : b₀.cfg = h.broker.cfg) (hlive : h.broker.live.Perm (t.recovered :: b₀.live))
    (hdlq : b₀.dlq = h.broker.dlq)
    (hc : Broker.callOf (caller (h.broker.wal.writeSeq + 1)) =
      rs.map (⟨·, h.broker.wal.writeSeq + 1⟩)) :
    Outcome γ h m ⟨b₀.requeueLocked γ t none caller, h.trace ++ rs.map .issued⟩ := by
  unfold Broker.requeueLocked
  dsimp only
  split
  · rename_i hbudget
    rw [hcfg] at hbudget
    refine outcome_append _ rs hfree (.dead t rs hreq hbudget) ?_ hcalls hcfg ?_
      (.dead t.recovered { t with retryCount := t.retryCount + 1, status := .dead } hlive ?_ rfl)
    · rw [← hwal]
      rfl
    · rw [← hc, ← hwal]
    · rw [← hdlq]
  · refine outcome_append _ rs hfree (.nack t rs hreq) ?_ hcalls hcfg ?_
      (.nack t.recovered b₀.live hlive ?_ hdlq)
    · rw [← hwal]
      rfl
    · rw [← hc, ← hwal]
    · exact Broker.live_push _ _

/-! ### The operations -/

/-- A section that changes nothing clients can tell, with the lock or without it. -/
theorem outcome_quiet {evs : List Event} (hwal : b'.wal = h.broker.wal)
    (hholder : b'.holder = h.broker.holder) (hcalls : b'.calls = h.broker.calls)
    (hlive : b'.live.Perm h.broker.live) (hdlq : b'.dlq = h.broker.dlq)
    (hevs : ∀ ev ∈ evs, Idle h.broker ev) : Outcome γ h m ⟨b', h.trace ++ evs⟩ := by
  refine .quiet evs hwal hholder ?_ hlive hdlq rfl hevs
  unfold Broker.owed
  rw [hholder, hcalls]

/-- **`Enqueue` appends the record of its task.** -/
theorem outcome_enqueue {t₀ : Task} {newID : TaskID} {now : Instant}
    (hfree : h.broker.holder = none) (hm : m = .enqueue t₀ newID now none)
    (ht : t = Broker.prepare t₀ newID now) :
    Outcome γ h m ⟨h.broker.enqueue γ t none, h.trace ++ [.issued (.enqueue t)]⟩ := by
  subst hm ht
  exact outcome_append (.enqueue (Broker.prepare t₀ newID now))
    [.enqueue (Broker.prepare t₀ newID now)] hfree (.enqueue t₀ newID now none rfl) rfl rfl rfl rfl
    (.enqueue _ (Broker.live_push _ _) rfl)

/-- **`Dequeue` appends nothing.** -/
theorem outcome_dequeue (ha : h.broker.Apart) (now : Time) :
    Outcome γ h m ⟨(h.broker.dequeue now).2,
      h.trace ++ ((h.broker.dequeue now).1.map Event.delivered).toList⟩ := by
  unfold Broker.dequeue
  split
  · exact outcome_quiet rfl rfl rfl (List.Perm.refl _) rfl fun ev hev => (by cases hev)
  · rename_i t pq hpop
    have hperm := Heap.perm_of_pop hpop
    have hnew := ha.not_tracked_of_mem_pq (hperm.mem_iff.mpr List.mem_cons_self)
    refine outcome_quiet rfl rfl rfl ?_ rfl ?_
    · exact Broker.live_dequeue h.broker hperm rfl hnew
    · intro ev hev
      rw [List.mem_singleton.mp hev]
      refine .delivered _ (List.mem_map.mpr ⟨t, ?_, rfl⟩)
      exact List.mem_append_left _ (List.mem_append_left _ (hperm.mem_iff.mpr List.mem_cons_self))

/-- `Ack` appends its record, if the task is in flight. -/
theorem outcome_ack (hfree : h.broker.holder = none) (hm : m = .ack id none) :
    Outcome γ h m ⟨h.broker.ack γ id none, h.trace ++ [.issued (.ack id)]⟩ := by
  unfold Broker.ack
  split
  · refine outcome_quiet rfl rfl rfl (List.Perm.refl _) rfl fun ev hev => ?_
    rw [List.mem_singleton.mp hev]
    exact .ack id
  · rename_i t hfind
    obtain rfl := Table.key_of_find hfind
    subst hm
    exact outcome_append (.ack t.id) [.ack t.id] hfree
      (.ack t none (Table.mem_of_find hfind) rfl) rfl rfl rfl rfl
      (.ack t.recovered (Broker.live_track h.broker hfind) rfl)

/-- `Nack` appends a record, if the task is in flight. -/
theorem outcome_nack (hfree : h.broker.holder = none) (hm : m = .nack id none) :
    Outcome γ h m ⟨h.broker.nack γ id none, h.trace ++ [.issued (.nack id)]⟩ := by
  unfold Broker.nack
  split
  · refine outcome_quiet rfl rfl rfl (List.Perm.refl _) rfl fun ev hev => ?_
    rw [List.mem_singleton.mp hev]
    exact .nack id
  · rename_i t hfind
    obtain rfl := Table.key_of_find hfind
    subst hm
    exact outcome_requeueLocked [.nack t.id] hfree (.nack t none (Table.mem_of_find hfind)) rfl rfl
      rfl (Broker.live_track h.broker hfind) rfl rfl

/-- A timeout appends a record. -/
theorem outcome_onTimeout {rest : List Task} (hfree : h.broker.holder = none)
    (hm : m = .onTimeout none) (hscan : h.broker.scanner = .batch t rest) :
    Outcome γ h m ⟨h.broker.onTimeout γ t rest none, h.trace ++ []⟩ := by
  subst hm
  refine outcome_requeueLocked [] hfree (.onTimeout t none ?_) rfl rfl rfl
    (Broker.live_batch h.broker hscan) rfl rfl
  rw [hscan]
  exact List.mem_cons_self

/-- The scanner takes the expired tasks from the tracker. -/
theorem outcome_expired {now : Time} {inFlight : List Task} (hscan : h.broker.scanner = .idle)
    (hperm : inFlight.Perm h.broker.tracker.vals) :
    Outcome γ h m ⟨h.broker.expired now inFlight, h.trace ++ []⟩ := by
  exact outcome_quiet rfl rfl rfl (Broker.live_expired hscan hperm) rfl fun ev hev => (by cases hev)

/-- A call returns, its record being durable. -/
theorem outcome_returns {k : ℕ} {c : Call} (hk : h.broker.calls[k]? = some c)
    (hc : h.broker.wal.waitSync c.seq = .synced) :
    Outcome γ h m ⟨{ h.broker with calls := h.broker.calls.eraseIdx k },
      h.trace ++ [.returned c.request]⟩ := by
  refine .returned c ?_ rfl rfl ?_ rfl rfl rfl
  · unfold WAL.waitSync at hc
    split_ifs at hc with herr hle
    exact hle
  · obtain ⟨hlt, rfl⟩ := List.getElem?_eq_some_iff.mp hk
    exact (List.getElem_cons_eraseIdx_perm hlt).symm.append_right _

/-- The rewrite replaces the log. -/
theorem outcome_rewrite {c : Caller} {es : List LogEntry} {w : WAL}
    (hholder : h.broker.holder = some ⟨c, some es⟩) (hw : h.broker.wal.rewrite γ es = some w) :
    Outcome γ h m (h.silent ({ h.broker with wal := w }.release c)) := by
  have htasks := (Broker.sameTasks_release { h.broker with wal := w } c).tasks
  rw [Broker.release_eq] at htasks ⊢
  refine .rewritten c es w hholder hw rfl rfl ?_ (congrArg (List.map Task.recovered) htasks) rfl rfl
  unfold Broker.owed
  rw [hholder]
  exact List.append_nil _

/-- A section under the lock happens only if the lock is free. -/
theorem eq_of_locked {evs : List Event} (hstep : h.locked b' evs = some h') :
    h.broker.holder = none ∧ h' = ⟨b', h.trace ++ evs⟩ := by
  simp only [History.locked, Option.ite_none_right_eq_some, Option.some.injEq] at hstep
  exact ⟨hstep.1, hstep.2.symm⟩

/-- The sections of the log, and those of the goroutines that wait for it. -/
def Move.OfLog : Move → Prop
  | .compact _ | .rewrite | .lead | .capture | .fsync _ | .returns _ | .resume => True
  | _ => False

/-- The steps of the log leave the tasks alone. -/
theorem sameTasks_of_log (hstep : step γ h m = some h') (hm : m.OfLog) :
    Broker.SameTasks h.broker h'.broker := by
  cases m with
  | compact inFlight =>
    unfold step at hstep
    dsimp only at hstep
    split at hstep
    · rw [Option.ite_none_right_eq_some, Option.some.injEq] at hstep
      obtain ⟨-, rfl⟩ := hstep
      exact ⟨rfl, rfl, rfl, rfl, rfl, rfl, rfl⟩
    · cases hstep
  | rewrite =>
    unfold step at hstep
    dsimp only at hstep
    split at hstep
    · rename_i c es hholder
      obtain ⟨w, -, rfl⟩ := Option.map_eq_some_iff.mp hstep
      obtain ⟨h₁, h₂, h₃, h₄, h₅, h₆, h₇⟩ := Broker.sameTasks_release { h.broker with wal := w } c
      exact ⟨h₁, h₂, h₃, h₄, h₅, h₆, h₇⟩
    · cases hstep
  | lead =>
    simp only [step, Option.ite_none_right_eq_some, Option.map_eq_some_iff] at hstep
    obtain ⟨-, w, -, rfl⟩ := hstep
    exact ⟨rfl, rfl, rfl, rfl, rfl, rfl, rfl⟩
  | capture | fsync ok =>
    obtain ⟨w, -, rfl⟩ := Option.map_eq_some_iff.mp hstep
    exact ⟨rfl, rfl, rfl, rfl, rfl, rfl, rfl⟩
  | returns k =>
    unfold step at hstep
    dsimp only at hstep
    split at hstep
    · cases hstep
    · split at hstep
      · cases hstep
        exact ⟨rfl, rfl, rfl, rfl, rfl, rfl, rfl⟩
      · cases hstep
        exact ⟨rfl, rfl, rfl, rfl, rfl, rfl, rfl⟩
      · cases hstep
  | resume =>
    unfold step at hstep
    dsimp only at hstep
    split at hstep
    · rename_i seq rest hscan
      rw [Option.ite_none_left_eq_some, Option.some.injEq] at hstep
      obtain ⟨-, rfl⟩ := hstep
      refine ⟨rfl, rfl, ?_, rfl, rfl, rfl, rfl⟩
      rw [hscan]
      exact Broker.pending_next rest
    · cases hstep
  | enqueue _ _ _ _ | dequeue _ | ack _ _ | nack _ _ | applyTuning _ _ | expired _ _ | onTimeout _
  | crash _ _ _ => exact hm.elim

/-- **Every move is one of these**, if it succeeds, no sync has failed, and no two tasks have
the same identifier. -/
theorem outcome (ha : h.broker.Apart) (hok : h.broker.wal.syncErr = false) (hm : m.Succeeds)
    (hstep : step γ h m = some h') : Outcome γ h m h' := by
  have hquiet : ∀ {b' : Broker},
      Outcome γ h m ⟨b', h.trace ++ []⟩ → Outcome γ h m (h.silent b') := by
    intro b' hout
    rwa [List.append_nil] at hout
  cases m with
  | enqueue t newID now fault =>
    obtain rfl : fault = none := hm
    obtain ⟨hfree, rfl⟩ := eq_of_locked hstep
    exact outcome_enqueue hfree rfl rfl
  | dequeue now =>
    obtain ⟨-, rfl⟩ := eq_of_locked hstep
    exact outcome_dequeue ha now
  | ack id fault =>
    obtain rfl : fault = none := hm
    obtain ⟨hfree, rfl⟩ := eq_of_locked hstep
    exact outcome_ack hfree rfl
  | nack id fault =>
    obtain rfl : fault = none := hm
    obtain ⟨hfree, rfl⟩ := eq_of_locked hstep
    exact outcome_nack hfree rfl
  | applyTuning taskTimeout maxRetries =>
    obtain ⟨-, rfl⟩ := eq_of_locked hstep
    exact outcome_quiet rfl rfl rfl (List.Perm.refl _) rfl fun ev hev => (by cases hev)
  | expired now inFlight =>
    simp only [step, Option.ite_none_right_eq_some, Option.some.injEq] at hstep
    obtain ⟨⟨hidle, hperm⟩, rfl⟩ := hstep
    exact hquiet (outcome_expired hidle hperm)
  | onTimeout fault =>
    obtain rfl : fault = none := hm
    unfold step at hstep
    dsimp only at hstep
    split at hstep
    · rename_i t rest hscan
      obtain ⟨hfree, rfl⟩ := eq_of_locked hstep
      exact outcome_onTimeout hfree rfl hscan
    · cases hstep
  | compact inFlight =>
    unfold step at hstep
    dsimp only at hstep
    split at hstep
    · rename_i c hholder
      rw [Option.ite_none_right_eq_some, Option.some.injEq] at hstep
      obtain ⟨hperm, rfl⟩ := hstep
      exact .gathered c inFlight rfl hperm hholder rfl
    · cases hstep
  | rewrite =>
    unfold step at hstep
    dsimp only at hstep
    split at hstep
    · rename_i c es hholder
      obtain ⟨w, hw, rfl⟩ := Option.map_eq_some_iff.mp hstep
      exact outcome_rewrite hholder hw
    · cases hstep
  | lead =>
    simp only [step, Option.ite_none_right_eq_some, Option.map_eq_some_iff] at hstep
    obtain ⟨-, w, hw, rfl⟩ := hstep
    exact .sync w (.lead hw) rfl
  | capture =>
    obtain ⟨w, hw, rfl⟩ := Option.map_eq_some_iff.mp hstep
    exact .sync w (.capture hw) rfl
  | fsync ok =>
    obtain rfl : ok = true := hm
    obtain ⟨w, hw, rfl⟩ := Option.map_eq_some_iff.mp hstep
    exact .sync w (.fsynced hw) rfl
  | returns k =>
    unfold step at hstep
    dsimp only at hstep
    split at hstep
    · cases hstep
    · rename_i c hk
      split at hstep
      · rename_i hc
        cases hstep
        exact outcome_returns hk hc
      · rename_i hfailed
        unfold WAL.waitSync at hfailed
        rw [hok, if_neg (by decide)] at hfailed
        split_ifs at hfailed
      · cases hstep
  | resume =>
    have htasks := (sameTasks_of_log hstep trivial).tasks
    unfold step at hstep
    dsimp only at hstep
    split at hstep
    · rw [Option.ite_none_left_eq_some, Option.some.injEq] at hstep
      obtain ⟨-, rfl⟩ := hstep
      exact hquiet (outcome_quiet rfl rfl rfl
        (List.Perm.of_eq (congrArg (List.map Task.recovered) htasks)) rfl
        fun ev hev => (by cases hev))
    · cases hstep
  | crash c order cfg =>
    simp only [step, Option.ite_none_right_eq_some, Option.map_eq_some_iff] at hstep
    obtain ⟨⟨hc, -, horder⟩, b', hb, rfl⟩ := hstep
    exact .crashed c order cfg rfl hc horder hb rfl

/-! ### The configuration -/

/-- The moves that set the broker's knobs: a reload, and a restart. -/
def Move.Tunes : Move → Prop
  | .applyTuning _ _ | .crash _ _ _ => True
  | _ => False

instance (m : Move) : Decidable m.Tunes :=
  match m with
  | .applyTuning _ _ | .crash _ _ _ => instDecidableTrue
  | .enqueue _ _ _ _ | .dequeue _ | .ack _ _ | .nack _ _ | .expired _ _ | .onTimeout _
  | .compact _ | .rewrite | .lead | .capture | .fsync _ | .returns _ | .resume => instDecidableFalse

theorem cfg_requeueLocked (b : Broker) (t : Task) (fault : Option ℕ) (caller : ℕ → Caller) :
    (b.requeueLocked γ t fault caller).cfg = b.cfg := by
  unfold Broker.requeueLocked
  dsimp only
  split <;> split
  · rfl
  · exact (Broker.sameTasks_maybeCompactLocked _ _).cfg
  · rfl
  · exact (Broker.sameTasks_maybeCompactLocked _ _).cfg

/-- The other moves leave them as they are. -/
theorem cfg_step (hstep : step γ h m = some h') (hm : ¬ m.Tunes) :
    h'.broker.cfg = h.broker.cfg := by
  cases m with
  | enqueue t newID now fault =>
    obtain ⟨-, rfl⟩ := eq_of_locked hstep
    dsimp only [Broker.enqueue]
    split
    · rfl
    · exact (Broker.sameTasks_maybeCompactLocked _ _).cfg
  | dequeue now =>
    obtain ⟨-, rfl⟩ := eq_of_locked hstep
    dsimp only [Broker.dequeue]
    split <;> rfl
  | ack id fault =>
    obtain ⟨-, rfl⟩ := eq_of_locked hstep
    dsimp only [Broker.ack]
    split
    · rfl
    · split
      · rfl
      · exact (Broker.sameTasks_maybeCompactLocked _ _).cfg
  | nack id fault =>
    obtain ⟨-, rfl⟩ := eq_of_locked hstep
    dsimp only [Broker.nack]
    split
    · rfl
    · exact cfg_requeueLocked _ _ _ _
  | expired now inFlight =>
    simp only [step, Option.ite_none_right_eq_some, Option.some.injEq] at hstep
    obtain ⟨-, rfl⟩ := hstep
    rfl
  | onTimeout fault =>
    unfold step at hstep
    dsimp only at hstep
    split at hstep
    · obtain ⟨-, rfl⟩ := eq_of_locked hstep
      dsimp only [Broker.onTimeout]
      split <;> exact cfg_requeueLocked _ _ _ _
    · cases hstep
  | compact inFlight | rewrite | lead | capture | fsync ok | returns k | resume =>
    exact (sameTasks_of_log hstep trivial).cfg
  | applyTuning taskTimeout maxRetries | crash c order cfg => exact absurd trivial hm

end SingleNode

end DistQueue
