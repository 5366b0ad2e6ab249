import DistQueue.SingleNode.Compaction

/-!
# The log against memory

At every moment the log stands for what is in memory. The live tasks it gives are the ones
that are pending, in flight or with the scanner, retry counts included, as long as no
compaction misses a task the scanner holds; this is carried along the run entry by entry
(`DistQueue.SingleNode.Change.live`), and started anew by every compaction.

The dead-letter queue is the same up to one number. The retry that uses up the budget is
counted in memory, and the log has an `OpDead` in the place of an `OpNack`, so that
recovery gives the task one retry less (`DistQueue.SingleNode.dead_retry_lost`). Unless no
task is dead-lettered, it takes a compaction in the same operation to put it right
(`DistQueue.SingleNode.replay_eq_memory`).
-/

namespace DistQueue

open Broker Wal

namespace SingleNode

variable {γ : Codec} {b b' : Broker} {h h' : History} {m : Move} {e : LogEntry}
  {es qs : List LogEntry} {rs : List Request} {id : TaskID}

/-! ### One entry -/

/-- **The entry does to the live tasks of the log what the section has done to those in
memory.** -/
theorem Change.live {s : Contents} (h : Change b b' e)
    (hfresh : ∀ t, e = .enqueue t → t.id ∉ b.ids) (hs : s.live.vals.Perm b.live) :
    (s.apply e).live.vals.Perm b'.live := by
  -- a task in memory is found in the log
  have hfind : ∀ {t rest}, b.live.Perm (t :: rest) → s.live.find t.id = some t :=
    fun hlive => Table.find_of_mem (hs.mem_iff.mpr (hlive.mem_iff.mpr List.mem_cons_self))
  have hleft : ∀ {t rest}, b.live.Perm (t :: rest) → (s.live.erase t.id).vals.Perm rest :=
    fun hlive => List.Perm.cons_inv
      ((Table.perm_of_find (hfind hlive)).symm.trans (hs.trans hlive))
  cases h with
  | enqueue t hlive hdlq =>
    have hnew : t.recovered.id ∉ s.live.vals.map Task.id := by
      intro hmem
      refine hfresh t rfl ?_
      rw [Broker.ids_eq]
      exact List.mem_append_left _ ((hs.map Task.id).mem_iff.mp hmem)
    rw [Contents.apply_enqueue, Table.vals_put_of_not_mem hnew]
    exact (hs.cons _).trans hlive.symm
  | ack t hlive hdlq =>
    rw [Contents.apply_ack]
    exact hleft hlive
  | nack t rest hlive hlive' hdlq =>
    rw [Contents.apply_nack (hfind hlive), Table.vals_put]
    exact ((hleft hlive).cons _).trans hlive'.symm
  | dead t u hlive hdlq hu =>
    rw [Contents.apply_dead (hfind hlive)]
    exact hleft hlive

/-- The dead-letter queue is left alone, unless a task is added to it. -/
theorem Change.dlq_eq (h : Change b b' e) (hdead : ∀ id, e ≠ .dead id) : b'.dlq = b.dlq := by
  cases h with
  | enqueue t hlive hdlq => exact hdlq
  | ack t hlive hdlq => exact hdlq
  | nack t rest hlive hlive' hdlq => exact hdlq
  | dead t u hlive hdlq hu => exact absurd rfl (hdead t.id)

/-! ### The whole run -/

/-- The entries stand for the dead-letter queue, up to what recovery resets. -/
def SameDlq (b : Broker) (es : List LogEntry) : Prop :=
  (fold es).dlq.map Task.recovered = b.dlq.map Task.recovered

/-- **The log stands for the live tasks in memory**, and so does what a compaction has
gathered. -/
structure Mirrors (b : Broker) (es : List LogEntry) : Prop where
  live : (fold es).live.vals.Perm b.live
  gathered : ∀ c qs, b.holder = some ⟨c, some qs⟩ → (fold qs).live.vals.Perm b.live

theorem mirrors_start (cfg : Config) : Mirrors (History.start cfg).broker [] :=
  ⟨List.Perm.refl _, fun c qs hc => (by cases hc)⟩

/-- **The log stands for the dead-letter queue**, once the lock is free, and so does what a
compaction has gathered. -/
structure MirrorsDlq (b : Broker) (es : List LogEntry) : Prop where
  dlq : b.holder = none → SameDlq b es
  gathered : ∀ c qs, b.holder = some ⟨c, some qs⟩ → SameDlq b qs

theorem mirrorsDlq_start (cfg : Config) : MirrorsDlq (History.start cfg).broker [] :=
  ⟨fun _ => rfl, fun c qs hc => (by cases hc)⟩

/-- The append at hand is followed by a compaction. -/
def Broker.CompactsNext (b : Broker) : Prop :=
  0 < b.cfg.compactEvery ∧ b.cfg.compactEvery ≤ b.wal.entries + 1

instance (b : Broker) : Decidable b.CompactsNext :=
  inferInstanceAs (Decidable (0 < b.cfg.compactEvery ∧ b.cfg.compactEvery ≤ b.wal.entries + 1))

/-- **No task is dead-lettered without a compaction in the same operation.** -/
def Broker.Spares (b : Broker) : Move → Prop
  | .nack id _ => ∀ t ∈ b.tracker.vals, t.id = id →
    t.retryCount + 1 < b.cfg.maxRetries ∨ b.CompactsNext
  | .onTimeout _ => ∀ t ∈ b.scanner.pending.take 1,
    t.retryCount + 1 < b.cfg.maxRetries ∨ b.CompactsNext
  | _ => True

instance (b : Broker) (m : Move) : Decidable (b.Spares m) :=
  match m with
  | .nack _ _ | .onTimeout _ => inferInstanceAs (Decidable (∀ t ∈ _, _))
  | .enqueue _ _ _ _ | .dequeue _ | .ack _ _ | .applyTuning _ _ | .expired _ _ | .compact _
  | .rewrite | .lead | .capture | .fsync _ | .returns _ | .resume
  | .crash _ _ _ => instDecidableTrue

/-- A move that spares the counts buries a task only just before a compaction. -/
theorem Broker.Spares.compactsNext (h : b.Spares m) (hsource : Source b m (.dead id) rs) :
    b.CompactsNext := by
  cases hsource with
  | dead t rs hreq hbudget =>
    cases hreq with
    | nack t fault ht => exact (h t ht rfl).resolve_left (Int.not_lt.mpr hbudget)
    | onTimeout t fault ht => exact (h t ht).resolve_left (Int.not_lt.mpr hbudget)

/-- What compaction gathers stands for the live tasks, if the scanner holds nothing. -/
theorem live_gathered (ha : b.Apart) {inFlight : List Task} (hperm : inFlight.Perm b.tracker.vals)
    (hpending : b.scanner.pending = []) :
    (fold (b.compactEntries inFlight)).live.vals.Perm b.live := by
  rw [compactEntries_eq, Broker.live, Broker.tasks, hpending, List.append_nil]
  exact (fold_compacted (nodup_compacted ha hperm)).1.trans ((hperm.append_left _).map _)

/-- What compaction gathers has the dead-letter queue as it is. -/
theorem sameDlq_gathered (ha : b.Apart) {inFlight : List Task}
    (hperm : inFlight.Perm b.tracker.vals) : SameDlq b (b.compactEntries inFlight) := by
  rw [SameDlq, compactEntries_eq, (fold_compacted (nodup_compacted ha hperm)).2, List.map_map]
  rfl

/-- **The log keeps up with the live tasks.** -/
theorem Mirrors.advance {es' : List LogEntry} (hm : Mirrors h.broker es) (hb : Base γ h.broker es)
    (hreg : Regular γ h m) (hreads : h.broker.ReadsAll m) (hadv : Advance γ h es m h' es') :
    Mirrors h'.broker es' := by
  cases hadv with
  | stays evs hpromised hsynced hwrite hholder howed hkept hlive =>
    refine ⟨hm.live.trans hlive.symm, fun c qs hc => ?_⟩
    exact (hm.gathered c qs (hholder ▸ hc)).trans hlive.symm
  | append e rs hsource hfree hwal hholder howed hchange =>
    refine ⟨?_, fun c qs hc => absurd hc (not_gathered hholder c qs)⟩
    rw [fold_concat]
    exact hchange.live (hreg.fresh hsource) hm.live
  | gathered c inFlight hmove hperm hh =>
    subst hmove hh
    refine ⟨hm.live, ?_⟩
    rintro c' qs ⟨⟩
    exact live_gathered hb.apart hperm hreads
  | rewritten c qs hholder hpromised hsynced hwrite hfree howed hlive =>
    refine ⟨?_, fun c' qs hc => ?_⟩
    · rw [hlive]
      exact hm.gathered c es' hholder
    · rw [hfree] at hc
      cases hc

/-- **It keeps up with the dead-letter queue**, if a compaction follows whatever buries a task. -/
theorem MirrorsDlq.advance {es' : List LogEntry} (hm : MirrorsDlq h.broker es)
    (hb : Base γ h.broker es) (hspares : h.broker.Spares m) (hadv : Advance γ h es m h' es') :
    MirrorsDlq h'.broker es' := by
  cases hadv with
  | stays evs hpromised hsynced hwrite hholder howed hkept hlive hdlq =>
    refine ⟨?_, ?_⟩ <;> rw [hholder]
    · rw [SameDlq, hdlq]
      exact hm.dlq
    · intro c qs hc
      rw [SameDlq, hdlq]
      exact hm.gathered c qs hc
  | append e rs hsource hfree hwal hholder howed hchange =>
    refine ⟨fun hnone => ?_, fun c qs hc => absurd hc (not_gathered hholder c qs)⟩
    have hdead : ∀ id, e ≠ .dead id := by
      -- a task is dead-lettered, so that the log is about to be compacted
      rintro id rfl
      obtain ⟨hpos, hnext⟩ := hspares.compactsNext hsource
      obtain ⟨-, hlt⟩ | ⟨c', hsome⟩ := hholder
      · have hentries : h'.broker.wal.entries = h.broker.wal.entries + 1 := by
          rw [hwal]
          rfl
        rw [hentries] at hlt
        push_cast at hlt
        omega
      · rw [hsome] at hnone
        cases hnone
    rw [SameDlq, fold_concat, Contents.dlq_apply_of_ne hdead, hchange.dlq_eq hdead]
    exact hm.dlq hfree
  | gathered c inFlight hmove hperm hh =>
    subst hh
    refine ⟨fun hnone => (by cases hnone), ?_⟩
    rintro c' qs ⟨⟩
    exact sameDlq_gathered hb.apart hperm
  | rewritten c qs hholder hpromised hsynced hwrite hfree howed hlive hdlq =>
    refine ⟨fun _ => ?_, fun c' qs hc => ?_⟩
    · rw [SameDlq, hdlq]
      exact hm.gathered c es' hholder
    · rw [hfree] at hc
      cases hc

/-- **The runs in which the log keeps up with memory.** -/
def Exact (γ : Codec) (h : History) (m : Move) : Prop :=
  Regular γ h m ∧ h.broker.ReadsAll m ∧ h.broker.Spares m

instance (γ : Codec) (h : History) (m : Move) : Decidable (Exact γ h m) :=
  inferInstanceAs (Decidable (Regular γ h m ∧ h.broker.ReadsAll m ∧ h.broker.Spares m))

/-- The step of a run. -/
theorem mirrors_step (hb : Base γ h.broker es) (hm : Mirrors h.broker es)
    (hd : MirrorsDlq h.broker es) (hg : Exact γ h m) (hs : step γ h m = some h') :
    ∃ es', Base γ h'.broker es' ∧ Mirrors h'.broker es' ∧ MirrorsDlq h'.broker es' := by
  obtain ⟨hreg, hreads, hspares⟩ := hg
  obtain ⟨es', hb', hadv⟩ := hb.advance hreg hs
  refine ⟨es', hb', ?_⟩
  obtain hadv | ⟨qs, hcrash, rfl, -⟩ := hadv
  · exact ⟨hm.advance hb hreg hreads hadv, hd.advance hb hspares hadv⟩
  · have hr := hcrash.recovered
    have hnone : ∀ c qs, h'.broker.holder ≠ some ⟨c, some qs⟩ := by simp [hr.holder]
    exact ⟨⟨live_gathered hb'.apart hr.inFlight (by rw [hr.scanner]; rfl),
        fun c qs hc => absurd hc (hnone c qs)⟩,
      ⟨fun _ => sameDlq_gathered hb'.apart hr.inFlight, fun c qs hc => absurd hc (hnone c qs)⟩⟩

/-- **Replay equals memory.** In every state of an exact run, recovery from the log as it has
been written so far gives the tasks that are pending, in flight or with the scanner, and,
when nobody holds the lock, the dead-letter queue in its order: each task with its
identifier, payload, priority, time of creation and number of retries. -/
theorem replay_eq_memory {cfg : Config} {ms : List Move}
    (hG : Run.Guarded (step γ) (Exact γ) (History.start cfg) ms)
    (hrun : Run.exec (step γ) (History.start cfg) ms = some h) :
    (fold (replay γ h.broker.wal.file).1).live.vals.Perm (h.broker.tasks.map Task.recovered) ∧
      (h.broker.holder = none → (fold (replay γ h.broker.wal.file).1).dlq.map Task.recovered =
        h.broker.dlq.map Task.recovered) := by
  obtain ⟨es, hb, hm, hd⟩ := Run.invariant_of_guarded
    (P := fun h => ∃ es, Base γ h.broker es ∧ Mirrors h.broker es ∧ MirrorsDlq h.broker es)
    ⟨[], base_start γ cfg, mirrors_start cfg, mirrorsDlq_start cfg⟩
    (fun _ _ _ ⟨_, hb, hm, hd⟩ hg hs => mirrors_step hb hm hd hg hs) hG hrun
  rw [hb.sound.replay_eq]
  exact ⟨hm.live, hd.dlq⟩

/-- The last retry goes to the dead-letter queue, and the log is compacted. -/
def compactedDead : List Move :=
  [.enqueue taskA "" 1 none] ++ synced ++ [.dequeue 2, .nack "a" none] ++ synced ++
    [.dequeue 3, .nack "a" none, .compact [], .rewrite, .returns 0]

/-- The theorem at a run in which a dead task has been compacted. -/
theorem replay_eq_memory_compacted :
    ∃ h, Run.exec (step plainCodec) (History.start ⟨2, 30, 3⟩) compactedDead = some h ∧
      h.broker.holder = none ∧ h.broker.dlq.map Task.retryCount = [2] ∧
      (fold (replay plainCodec h.broker.wal.file).1).live.vals.Perm
        (h.broker.tasks.map Task.recovered) ∧
      (fold (replay plainCodec h.broker.wal.file).1).dlq.map Task.recovered =
        h.broker.dlq.map Task.recovered := by
  have hend : (Run.exec (step plainCodec) (History.start ⟨2, 30, 3⟩) compactedDead).map
      (fun h => (h.broker.holder, h.broker.dlq.map Task.retryCount)) = some (none, [2]) := by
    decide +kernel
  obtain ⟨h, hrun, hlast⟩ := Option.map_eq_some_iff.mp hend
  obtain ⟨hnone, hretry⟩ := Prod.mk.inj hlast
  have hG : Run.Guarded (step plainCodec) (Exact plainCodec) (History.start ⟨2, 30, 3⟩)
      compactedDead := by
    decide +kernel
  obtain ⟨hlive, hdlq⟩ := replay_eq_memory hG hrun
  exact ⟨h, hrun, hnone, hretry, hlive, hdlq hnone⟩

/-! ### The last retry -/

/-- A task is dead-lettered by its first nack. -/
def firstNack : List Move :=
  [.enqueue taskA "" 1 none] ++ synced ++ [.dequeue 2, .nack "a" none] ++ synced

/-- In memory the task has been retried once, and according to the log never. -/
theorem dead_retry_lost :
    Run.Guarded (step plainCodec)
        (fun h m => m.Succeeds ∧ h.NoReuse m ∧ h.broker.ReadsAll m ∧ h.broker.Capped plainCodec m)
        (History.start ⟨1, 30, 0⟩) firstNack ∧
      (Run.exec (step plainCodec) (History.start ⟨1, 30, 0⟩) firstNack).map (fun h =>
        (h.broker.holder, h.broker.dlq.map fun t => (t.id, t.retryCount),
          (fold (replay plainCodec h.broker.wal.file).1).dlq.map fun t => (t.id, t.retryCount))) =
        some (none, [("a", 1)], [("a", 0)]) := by
  decide +kernel

end SingleNode

end DistQueue
