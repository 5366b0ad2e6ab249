import DistQueue.SingleNode.Sections
import DistQueue.Wal.Durable

/-!
# The invariant of the single-node broker

What holds in every state of a broker whose input and output succeeds, whose records are
within the reader's cap, and to which no `Enqueue` brings the identifier of a task that is
still there (`DistQueue.SingleNode.Base`): no two tasks in memory have the same identifier,
the file holds a list of entries, and no identifier is enqueued in that list after it has
been dead-lettered, so that recovery will not confuse two tasks either.

There is one lemma for each kind of outcome (`DistQueue.SingleNode.Outcome`), and one about
recovery (`DistQueue.SingleNode.Recovered`). The theorems about what is in memory and in
the log add their own statements to this invariant.
-/

namespace DistQueue

open Broker Wal

namespace SingleNode

variable {γ : Codec} {b b' : Broker} {h h' : History} {m : Move} {e : LogEntry}
  {es qs : List LogEntry} {rs : List Request} {id : TaskID} {seq : ℕ} {Q : List LogEntry → Prop}

/-! ### Syncs -/

/-- Syncing keeps the log as it is. -/
theorem Syncs.sound {w w' : WAL} (h : Syncs w w') (hs : Sound γ w es) : Sound γ w' es := by
  cases h with
  | lead hw => exact hs.lead hw
  | capture hw => exact hs.capture hw
  | fsynced hw => exact hs.fsynced hw

/-- Syncing keeps what the log promises. -/
theorem Syncs.promised {w w' : WAL} (h : Syncs w w') (hs : Sound γ w es)
    (hp : Promised γ w es seq Q) : Promised γ w' es seq Q := by
  cases h with
  | lead hw => exact hp.lead hw
  | capture hw => exact hp.capture hs hw
  | fsynced hw => exact hp.fsynced hw

theorem Syncs.syncedSeq_le {w w' : WAL} (h : Syncs w w') : w.syncedSeq ≤ w'.syncedSeq := by
  cases h with
  | lead hw => rw [lead_eq hw]
  | capture hw => rw [capture_eq hw]
  | fsynced hw =>
    obtain ⟨covered, length, -, rfl⟩ := fsynced_eq hw
    exact le_max_left _ _

theorem Syncs.writeSeq {w w' : WAL} (h : Syncs w w') : w'.writeSeq = w.writeSeq := by
  cases h with
  | lead hw => rw [lead_eq hw]
  | capture hw => rw [capture_eq hw]
  | fsynced hw =>
    obtain ⟨covered, length, -, rfl⟩ := fsynced_eq hw
    rfl

/-! ### Identifiers -/

/-- What a change does to the identifiers in memory. -/
theorem Change.ids (h : Change b b' e) :
    (∃ t, e = .enqueue t ∧ b'.ids.Perm (t.id :: b.ids)) ∨
    (∃ id, e = .ack id ∧ b.ids.Perm (id :: b'.ids)) ∨ b'.ids.Perm b.ids := by
  cases h with
  | enqueue t hlive hdlq =>
    refine Or.inl ⟨t, rfl, ?_⟩
    rw [Broker.ids_eq, Broker.ids_eq, hdlq]
    exact (hlive.map Task.id).append_right _
  | ack t hlive hdlq =>
    refine Or.inr (Or.inl ⟨t.id, rfl, ?_⟩)
    rw [Broker.ids_eq, Broker.ids_eq, hdlq]
    exact (hlive.map Task.id).append_right _
  | nack t rest hlive hlive' hdlq =>
    refine Or.inr (Or.inr ?_)
    rw [Broker.ids_eq, Broker.ids_eq, hdlq]
    exact ((hlive'.map Task.id).trans (hlive.map Task.id).symm).append_right _
  | dead t u hlive hdlq hu =>
    refine Or.inr (Or.inr ?_)
    have hid : u.recovered.id = t.retried.id := congrArg Task.id hu
    rw [Broker.ids_eq, Broker.ids_eq, hdlq, List.map_append, ← List.append_assoc]
    refine List.perm_append_comm.trans ?_
    rw [Task.recovered_id] at hid
    rw [List.map_singleton, hid]
    exact ((hlive.map Task.id).append_right _).symm

/-- A record keeps the identifiers apart, if it brings no known one. -/
theorem Change.apart (h : Change b b' e) (ha : b.Apart)
    (hfresh : ∀ t, e = .enqueue t → t.id ∉ b.ids) : b'.Apart := by
  obtain ⟨t, rfl, hids⟩ | ⟨id, rfl, hids⟩ | hids := h.ids
  · exact hids.nodup_iff.mpr (List.nodup_cons.mpr ⟨hfresh t rfl, ha⟩)
  · exact (List.nodup_cons.mp (hids.nodup_iff.mp ha)).2
  · exact hids.nodup_iff.mpr ha

/-- The dead-letter queue only grows, and by the task of an `OpDead`. -/
theorem Change.dlq (h : Change b b' e) :
    (∀ id ∈ b.dlq.map Task.id, id ∈ b'.dlq.map Task.id) ∧
      ∀ id, e = .dead id → id ∈ b'.dlq.map Task.id := by
  cases h with
  | enqueue t hlive hdlq => exact ⟨by rw [hdlq]; exact fun _ => id, fun id hid => (by cases hid)⟩
  | ack t hlive hdlq => exact ⟨by rw [hdlq]; exact fun _ => id, fun id hid => (by cases hid)⟩
  | nack t rest hlive hlive' hdlq =>
    exact ⟨by rw [hdlq]; exact fun _ => id, fun id hid => (by cases hid)⟩
  | dead t u hlive hdlq hu =>
    rw [hdlq, List.map_append]
    refine ⟨fun id hid => List.mem_append_left _ hid, ?_⟩
    rintro id ⟨⟩
    have hid : u.recovered.id = t.retried.id := congrArg Task.id hu
    exact List.mem_append_right _ (List.mem_singleton.mpr hid.symm)

/-! ### The invariant -/

/-- A list of entries from which the broker could recover: its records are within the cap,
its identifiers are told apart, and what it has dead-lettered the broker has, too. -/
structure Readable (γ : Codec) (b : Broker) (es : List LogEntry) : Prop where
  fits : ∀ e ∈ es, e.Fits γ
  orderly : Orderly es
  dlq : ∀ id ∈ (fold es).dlq.map Task.id, id ∈ b.dlq.map Task.id

/-- **The invariant**, for a broker with the entries `es` in its log. -/
structure Base (γ : Codec) (b : Broker) (es : List LogEntry) : Prop where
  apart : b.Apart
  sound : Sound γ b.wal es
  readable : Readable γ b es
  gathered : ∀ c qs, b.holder = some ⟨c, some qs⟩ → Readable γ b qs

theorem base_start (γ : Codec) (cfg : Config) : Base γ (History.start cfg).broker [] where
  apart := List.nodup_nil
  sound := ⟨fun e he => (by cases he), rfl, le_rfl, fun _ _ hs => (by cases hs), rfl⟩
  readable := ⟨fun e he => (by cases he), orderly_nil, fun id hid => (by cases hid)⟩
  gathered c qs hh := by cases hh

theorem Readable.mono (h : Readable γ b es)
    (hdlq : ∀ id ∈ b.dlq.map Task.id, id ∈ b'.dlq.map Task.id) : Readable γ b' es :=
  ⟨h.fits, h.orderly, fun id hid => hdlq id (h.dlq id hid)⟩

/-- **What writes nothing and keeps the tasks keeps the base.** -/
theorem Base.quiet (h : Base γ b es) (hwal : b'.wal = b.wal) (hholder : b'.holder = b.holder)
    (hlive : b'.live.Perm b.live) (hdlq : b'.dlq = b.dlq) : Base γ b' es := by
  have hmono : ∀ id ∈ b.dlq.map Task.id, id ∈ b'.dlq.map Task.id := by
    rw [hdlq]
    exact fun _ => id
  refine ⟨?_, hwal ▸ h.sound, h.readable.mono hmono, fun c qs hc => ?_⟩
  · exact (Broker.ids_perm hlive hdlq).nodup_iff.mpr h.apart
  · exact (h.gathered c qs (hholder ▸ hc)).mono hmono

/-- **So does a record** that fits and brings no known identifier. -/
theorem Base.append (h : Base γ b es) (hfit : e.Fits γ)
    (hfresh : ∀ t, e = .enqueue t → t.id ∉ b.ids) (hwal : b'.wal = (b.wal.append γ e none).1)
    (hholder : ∀ c qs, b'.holder ≠ some ⟨c, some qs⟩) (hchange : Change b b' e) :
    Base γ b' (es ++ [e]) := by
  have hsound : Sound γ b'.wal (es ++ [e]) := by
    rw [hwal]
    exact h.sound.append hfit
  refine ⟨hchange.apart h.apart hfresh, hsound, ⟨hsound.fits, ?_, ?_⟩,
    fun c qs hc => absurd hc (hholder c qs)⟩
  · refine h.readable.orderly.concat fun t ht hmem => hfresh t ht ?_
    exact List.mem_append_right _ (h.readable.dlq _ hmem)
  · intro id hid
    rw [fold_concat] at hid
    obtain hid | rfl := Contents.mem_dlq_apply hid
    · exact hchange.dlq.1 id (h.readable.dlq id hid)
    · exact hchange.dlq.2 id rfl

/-- A section that ends has not gathered anything yet. -/
theorem not_gathered {P : Prop} (h : b.holder = none ∧ P ∨ ∃ c, b.holder = some ⟨c, none⟩)
    (c : Caller) (qs : List LogEntry) : b.holder ≠ some ⟨c, some qs⟩ := by
  obtain ⟨hnone, -⟩ | ⟨c', hsome⟩ := h
  · simp [hnone]
  · simp [hsome]

/-- So does syncing. -/
theorem Base.sync (h : Base γ b es) {w : WAL} (hw : Syncs b.wal w) :
    Base γ { b with wal := w } es :=
  ⟨h.apart, hw.sound h.sound, h.readable.mono fun _ => id,
    fun c qs hc => (h.gathered c qs hc).mono fun _ => id⟩

/-! ### Compaction -/

theorem compactEntries_eq (b : Broker) (inFlight : List Task) :
    b.compactEntries inFlight = (b.pq ++ inFlight).map .enqueue ++
      b.dlq.flatMap fun t => [.enqueue t, .dead t.id] := by
  rw [Broker.compactEntries, List.map_append]

/-- The identifiers that compaction finds are distinct. -/
theorem nodup_compacted (ha : b.Apart) {inFlight : List Task}
    (hperm : inFlight.Perm b.tracker.vals) :
    ((b.pq ++ inFlight).map Task.id ++ b.dlq.map Task.id).Nodup := by
  have hsub : ((b.pq ++ b.tracker.vals).map Task.id ++ b.dlq.map Task.id).Nodup :=
    List.Nodup.sublist (((List.sublist_append_left _ _).map _).append (List.Sublist.refl _)) ha
  exact (((hperm.append_left b.pq).map Task.id).append_right _).nodup_iff.mpr hsub

/-- What compaction gathers can be read back. -/
theorem readable_compactEntries (ha : b.Apart) {inFlight : List Task}
    (hperm : inFlight.Perm b.tracker.vals) (hfit : ∀ e ∈ b.compactEntries inFlight, e.Fits γ) :
    Readable γ b (b.compactEntries inFlight) := by
  have hnodup := nodup_compacted ha hperm
  refine ⟨hfit, ?_, ?_⟩ <;> rw [compactEntries_eq]
  · apply orderly_of_nodup
    rwa [enqueuedIDs_compacted]
  · rw [(fold_compacted hnodup).2, List.map_map]
    exact fun _ => id

/-- Gathering keeps the base. -/
theorem Base.gather (h : Base γ b es) {c : Caller} {inFlight : List Task}
    (hperm : inFlight.Perm b.tracker.vals) (hfit : ∀ e ∈ b.compactEntries inFlight, e.Fits γ) :
    Base γ { b with holder := some ⟨c, some (b.compactEntries inFlight)⟩ } es := by
  refine ⟨h.apart, h.sound, h.readable.mono fun _ => id, ?_⟩
  rintro c' qs ⟨⟩
  exact (readable_compactEntries h.apart hperm hfit).mono fun _ => id

/-- **So does the rewrite**, after which the log is what was gathered. -/
theorem Base.rewritten (h : Base γ b es) {c : Caller} {w : WAL}
    (hholder : b.holder = some ⟨c, some qs⟩) (hw : b.wal.rewrite γ qs = some w)
    (hwal : b'.wal = w) (hfree : b'.holder = none) (hlive : b'.live = b.live)
    (hdlq : b'.dlq = b.dlq) : Base γ b' qs := by
  have hqs := h.gathered c qs hholder
  refine ⟨?_, hwal ▸ h.sound.rewrite hqs.fits hw, hqs.mono (by rw [hdlq]; exact fun _ => id), ?_⟩
  · exact (Broker.ids_perm (List.Perm.of_eq hlive) hdlq).nodup_iff.mpr h.apart
  · rw [hfree]
    rintro c qs ⟨⟩

/-! ### Recovery -/

/-- The broker that has recovered from the entries `qs`: they are in memory, and what is in
memory is in the log. -/
structure Recovered (γ : Codec) (b : Broker) (qs : List LogEntry) : Prop where
  pq : b.pq.Perm (fold qs).live.vals
  tracker : b.tracker = .empty
  dlq : b.dlq = (fold qs).dlq
  holder : b.holder = none
  scanner : b.scanner = .idle
  calls : b.calls = []
  sound : (∀ e ∈ b.compactEntries [], e.Fits γ) → Sound γ b.wal (b.compactEntries [])
  writeSeq : b.wal.writeSeq = 0
  syncing : b.wal.syncing = .idle
  durable : b.wal.durable = (image γ (b.compactEntries [])).length

theorem foldl_push (l order : List Task) :
    (order.foldl (Heap.push Task.less) l).Perm (order ++ l) := by
  induction order generalizing l with
  | nil => exact List.Perm.refl _
  | cons t order ih =>
    refine (ih _).trans (((Heap.push_perm l t).append_left order).trans ?_)
    exact List.perm_middle

/-- A log that nothing can be read from is cut down to nothing. -/
theorem replay_snd_of_nil {file : List UInt8} (h : (replay γ file).1 = []) :
    (replay γ file).2 = [] := by
  obtain ⟨ps, tail, -, -, hscan⟩ := Frames.exists_pieces (local_readRecord γ) file
  have hps : ps = [] := by
    rw [replay, hscan] at h
    exact List.map_eq_nil_iff.mp h
  rw [replay, hscan, hps]
  rfl

/-- What recovery leaves is the fold of what could be read. -/
theorem recovered_of_recover {cfg : Config} {w : WAL} {c : ℕ} {order : List Task}
    (horder : order.Perm (fold (replay γ (w.file.take c)).1).live.vals)
    (hb : recover γ cfg w c order = some b) : Recovered γ b (replay γ (w.file.take c)).1 := by
  have hpush := foldl_push [] order
  rw [List.append_nil] at hpush
  unfold recover at hb
  dsimp only at hb
  split at hb
  · -- nothing was read, and the log is empty
    rename_i hnil
    have hsnd := replay_snd_of_nil hnil
    cases hb
    rw [hnil] at horder
    have hpq : order = [] := List.perm_nil.mp horder
    subst hpq
    refine ⟨?_, rfl, rfl, rfl, rfl, rfl, fun hfit => ?_, rfl, rfl, ?_⟩
    · rw [hnil]
      exact List.Perm.refl _
    · refine ⟨hfit, ?_, le_rfl, fun _ _ hs => (by cases hs), rfl⟩
      simp [Broker.compactEntries, WAL.reopen, openWAL, hsnd, hnil, fold, Contents.empty, image]
    · simp [Broker.compactEntries, WAL.reopen, openWAL, hsnd, hnil, fold, Contents.empty, image]
  · obtain ⟨w', hw', rfl⟩ := Option.map_eq_some_iff.mp hb
    obtain ⟨hidle, rfl⟩ := rewrite_eq hw'
    exact ⟨hpush.trans horder, rfl, rfl, rfl, rfl, rfl,
      fun hfit => ⟨hfit, rfl, le_rfl, fun _ _ hs => (by cases hs), rfl⟩, rfl, rfl, rfl⟩

theorem Recovered.live (h : Recovered γ b qs) : b.live = b.pq.map Task.recovered := by
  unfold Broker.live Broker.tasks
  rw [h.tracker, h.scanner]
  simp [Table.empty, Scanner.pending]

theorem Recovered.ids (h : Recovered γ b qs) : b.ids.Perm (fold qs).ids := by
  rw [Broker.ids_eq, h.live, h.dlq, Contents.ids, List.map_map]
  exact (h.pq.map Task.id).append_right _

theorem Recovered.owed (h : Recovered γ b qs) : b.owed = [] := by
  rw [Broker.owed, h.calls, h.holder]
  rfl

/-- Nothing is in flight. -/
theorem Recovered.inFlight (h : Recovered γ b qs) : ([] : List Task).Perm b.tracker.vals := by
  rw [h.tracker]
  exact List.Perm.refl _

/-- **Recovery makes a base of its own.** -/
theorem Recovered.base (h : Recovered γ b qs) (hfit : ∀ e ∈ b.compactEntries [], e.Fits γ)
    (hqs : Orderly qs) : Base γ b (b.compactEntries []) := by
  have hapart : b.Apart := h.ids.nodup_iff.mpr hqs.nodup
  refine ⟨hapart, h.sound hfit, readable_compactEntries hapart h.inFlight hfit, fun c qs hc => ?_⟩
  rw [h.holder] at hc
  cases hc

/-- All of the new log is durable. -/
theorem Recovered.promised (h : Recovered γ b qs) (hQ : Q (b.compactEntries [])) :
    Promised γ b.wal (b.compactEntries []) 0 Q := by
  refine ⟨hQ, Nat.zero_le _, fun _ => ?_, fun covered length hs => ?_⟩
  · rw [h.durable]
    exact lasting_all hQ
  · rw [h.syncing] at hs
    cases hs

/-! ### Regular runs -/

/-- **The runs in which tasks are told apart by their identifiers.** -/
def Regular (γ : Codec) (h : History) (m : Move) : Prop :=
  m.Succeeds ∧ h.broker.Fresh m ∧ h.broker.Capped γ m

instance (γ : Codec) (h : History) (m : Move) : Decidable (Regular γ h m) :=
  inferInstanceAs (Decidable (m.Succeeds ∧ h.broker.Fresh m ∧ h.broker.Capped γ m))

theorem Source.mem_writes (γ : Codec) (hsource : Source b m e rs) : e ∈ b.writes γ m := by
  cases hsource with
  | enqueue t newID now fault hm | ack t fault ht hm =>
    subst hm
    exact List.mem_cons_self
  | nack t rs hreq =>
    cases hreq with
    | nack t fault ht => exact List.mem_cons_self
    | onTimeout t fault ht => exact List.mem_flatMap.mpr ⟨t, ht, List.mem_cons_self⟩
  | dead t rs hreq =>
    cases hreq with
    | nack t fault ht => exact List.mem_cons_of_mem _ List.mem_cons_self
    | onTimeout t fault ht =>
      exact List.mem_flatMap.mpr ⟨t, ht, List.mem_cons_of_mem _ List.mem_cons_self⟩

/-- An entry that is appended in such a run is of a new task, or about an old one. -/
theorem Regular.fresh (hg : Regular γ h m) (hsource : Source h.broker m e rs) :
    ∀ t, e = .enqueue t → t.id ∉ h.broker.ids := by
  rintro t rfl
  obtain ⟨u, newID, now, fault, rfl, -, hu⟩ := hsource.enqueues
  rw [← Task.id_of_core (Task.core_of_written hu)]
  exact hg.2.1

/-- What a crash leaves, and what the new broker writes. -/
theorem Regular.fits {c : ℕ} {order : List Task} {cfg : Config} {b : Broker}
    (hg : Regular γ h (.crash c order cfg)) (hb : recover γ cfg h.broker.wal c order = some b) :
    ∀ e ∈ b.compactEntries [], e.Fits γ := by
  have hcap := hg.2.2
  unfold Broker.Capped Broker.writes at hcap
  dsimp only at hcap
  rwa [hb] at hcap

/-- **What a move of a regular run does**, to the broker and to the entries in its log, unless
it is a crash. -/
inductive Advance (γ : Codec) (h : History) (es : List LogEntry) (m : Move) (h' : History) :
    List LogEntry → Prop
  /-- The log stays as it is, and what it promises is kept. Calls may return. -/
  | stays (evs : List Event)
      (hpromised : ∀ seq Q, Promised γ h.broker.wal es seq Q → Promised γ h'.broker.wal es seq Q)
      (hsynced : h.broker.wal.syncedSeq ≤ h'.broker.wal.syncedSeq)
      (hwrite : h'.broker.wal.writeSeq = h.broker.wal.writeSeq)
      (hholder : h'.broker.holder = h.broker.holder)
      (howed : ∀ c ∈ h'.broker.owed, c ∈ h.broker.owed)
      (hkept : ∀ c ∈ h.broker.owed, c ∈ h'.broker.owed ∨
        .returned c.request ∈ evs ∧ c.seq ≤ h.broker.wal.syncedSeq)
      (hlive : h'.broker.live.Perm h.broker.live) (hdlq : h'.broker.dlq = h.broker.dlq)
      (htrace : h'.trace = h.trace ++ evs)
      (hevs : ∀ ev ∈ evs, Idle h.broker ev ∨
        ∃ c ∈ h.broker.owed, ev = .returned c.request ∧ c.seq ≤ h.broker.wal.syncedSeq) :
      Advance γ h es m h' es
  | append (e : LogEntry) (rs : List Request) (hsource : Source h.broker m e rs)
      (hfree : h.broker.holder = none) (hwal : h'.broker.wal = (h.broker.wal.append γ e none).1)
      (hholder : h'.broker.holder = none ∧ (h.broker.cfg.compactEvery ≤ 0 ∨
          (h'.broker.wal.entries : ℤ) < h.broker.cfg.compactEvery) ∨
        ∃ c, h'.broker.holder = some ⟨c, none⟩)
      (howed : h'.broker.owed = h.broker.owed ++ rs.map (⟨·, h.broker.wal.writeSeq + 1⟩))
      (hchange : Change h.broker h'.broker e) (htrace : h'.trace = h.trace ++ rs.map .issued) :
      Advance γ h es m h' (es ++ [e])
  | gathered (c : Caller) (inFlight : List Task) (hm : m = .compact inFlight)
      (hperm : inFlight.Perm h.broker.tracker.vals)
      (hh : h' = h.silent
        { h.broker with holder := some ⟨c, some (h.broker.compactEntries inFlight)⟩ })
      (howed : h'.broker.owed = h.broker.owed) : Advance γ h es m h' es
  | rewritten (c : Caller) (qs : List LogEntry)
      (hholder : h.broker.holder = some ⟨c, some qs⟩)
      (hpromised : ∀ seq Q, seq ≤ h.broker.wal.writeSeq → Q qs →
        Promised γ h'.broker.wal qs seq Q)
      (hsynced : h.broker.wal.syncedSeq ≤ h'.broker.wal.syncedSeq)
      (hwrite : h'.broker.wal.writeSeq = h.broker.wal.writeSeq)
      (hfree : h'.broker.holder = none) (howed : h'.broker.owed = h.broker.owed)
      (hlive : h'.broker.live = h.broker.live) (hdlq : h'.broker.dlq = h.broker.dlq)
      (htrace : h'.trace = h.trace) : Advance γ h es m h' qs

/-- **A move that appends no record**, as it is seen from outside the log: calls return whose
records are durable, none is made, and the tasks stay. -/
structure Answers (h h' : History) (evs : List Event) : Prop where
  synced : h.broker.wal.syncedSeq ≤ h'.broker.wal.syncedSeq
  owed : ∀ c ∈ h'.broker.owed, c ∈ h.broker.owed
  kept : ∀ c ∈ h.broker.owed, c ∈ h'.broker.owed ∨ .returned c.request ∈ evs
  live : h'.broker.live.Perm h.broker.live
  dlq : h'.broker.dlq = h.broker.dlq
  trace : h'.trace = h.trace ++ evs
  events : ∀ ev ∈ evs, Idle h.broker ev ∨
    ∃ c ∈ h.broker.owed, ev = .returned c.request ∧ c.seq ≤ h.broker.wal.syncedSeq

/-- **A move that appends the record** of the calls `rs`. -/
structure Appends (γ : Codec) (h : History) (m : Move) (h' : History) (e : LogEntry)
    (rs : List Request) : Prop where
  source : Source h.broker m e rs
  free : h.broker.holder = none
  wal : h'.broker.wal = (h.broker.wal.append γ e none).1
  holder : ∀ c qs, h'.broker.holder ≠ some ⟨c, some qs⟩
  owed : h'.broker.owed = h.broker.owed ++ rs.map (⟨·, h.broker.wal.writeSeq + 1⟩)
  change : Change h.broker h'.broker e
  trace : h'.trace = h.trace ++ rs.map .issued

/-- A step answers calls, or appends a record. -/
theorem Advance.calls {es' : List LogEntry} (hadv : Advance γ h es m h' es') :
    (∃ evs, Answers h h' evs) ∨ ∃ e rs, es' = es ++ [e] ∧ Appends γ h m h' e rs := by
  cases hadv with
  | stays evs hpromised hsynced hwrite hholder howed hkept hlive hdlq htrace hevs =>
    exact Or.inl ⟨evs, hsynced, howed, fun c hc => (hkept c hc).imp_right And.left, hlive, hdlq,
      htrace, hevs⟩
  | append e rs hsource hfree hwal hholder howed hchange htrace =>
    exact Or.inr ⟨e, rs, rfl, hsource, hfree, hwal, not_gathered hholder, howed, hchange, htrace⟩
  | gathered c inFlight hm hperm hh howed =>
    subst hh
    exact Or.inl ⟨[], le_rfl, fun c hc => howed ▸ hc, fun c hc => Or.inl (howed ▸ hc),
      List.Perm.refl _, rfl, (List.append_nil _).symm, fun ev hev => (by cases hev)⟩
  | rewritten c qs hholder hpromised hsynced hwrite hfree howed hlive hdlq htrace =>
    exact Or.inl ⟨[], hsynced, fun c hc => howed ▸ hc, fun c hc => Or.inl (howed ▸ hc),
      List.Perm.of_eq hlive, hdlq, by rw [htrace, List.append_nil], fun ev hev => (by cases hev)⟩

theorem Advance.exists_trace {es' : List LogEntry} (hadv : Advance γ h es m h' es') :
    ∃ evs, h'.trace = h.trace ++ evs := by
  obtain ⟨evs, hans⟩ | ⟨e, rs, -, happ⟩ := hadv.calls
  · exact ⟨evs, hans.trace⟩
  · exact ⟨_, happ.trace⟩

theorem Advance.trace_subset {es' : List LogEntry} (hadv : Advance γ h es m h' es') :
    h.trace ⊆ h'.trace := by
  obtain ⟨evs, htrace⟩ := hadv.exists_trace
  rw [htrace]
  exact List.subset_append_left _ _

/-- Who returns was owed an answer. -/
theorem Answers.returned {evs : List Event} {r : Request} (ha : Answers h h' evs)
    (hr : .returned r ∈ h'.trace) : .returned r ∈ h.trace ∨
      ∃ c ∈ h.broker.owed, c.request = r ∧ c.seq ≤ h.broker.wal.syncedSeq := by
  rw [ha.trace] at hr
  obtain hr | hr := List.mem_append.mp hr
  · exact Or.inl hr
  · obtain hidle | ⟨c, hc, heq, hseq⟩ := ha.events _ hr
    · cases hidle
    · exact Or.inr ⟨c, hc, (Event.returned.inj heq).symm, hseq⟩

theorem Answers.no_enqueue {evs : List Event} (ha : Answers h h' evs) (t : Task) :
    .issued (.enqueue t) ∉ evs := by
  intro ht
  obtain hidle | ⟨c, -, heq, -⟩ := ha.events _ ht
  · cases hidle
  · cases heq

/-- Nobody has returned when the record is appended. -/
theorem Appends.returned {r : Request} (ha : Appends γ h m h' e rs)
    (hr : .returned r ∈ h'.trace) : .returned r ∈ h.trace := by
  rw [ha.trace] at hr
  obtain hr | hr := List.mem_append.mp hr
  · exact hr
  · obtain ⟨r', -, heq⟩ := List.mem_map.mp hr
    cases heq

/-- What is issued with a record was issued before, or is the call of the record. -/
theorem Appends.issued {r : Request} (ha : Appends γ h m h' e rs) (hr : .issued r ∈ h'.trace) :
    .issued r ∈ h.trace ∨ r ∈ rs := by
  rw [ha.trace] at hr
  obtain hr | hr := List.mem_append.mp hr
  · exact Or.inl hr
  · obtain ⟨r', hr', heq⟩ := List.mem_map.mp hr
    exact Or.inr (Event.issued.inj heq ▸ hr')

theorem Appends.syncedSeq (ha : Appends γ h m h' e rs) :
    h'.broker.wal.syncedSeq = h.broker.wal.syncedSeq := by
  rw [ha.wal]
  rfl

/-- **What memory and the log have in common they keep in common**, if records that are
appended keep it, and compaction finds it in memory. -/
theorem Advance.shared {es' : List LogEntry} {P : List TaskID → Prop}
    (hadv : Advance γ h es m h' es') (hP : ∀ {l l' : List TaskID}, l.Perm l' → P l → P l')
    (hmemory : P h.broker.ids)
    (hgathered : ∀ c qs, h.broker.holder = some ⟨c, some qs⟩ → Q qs)
    (hlog : Promised γ h.broker.wal es seq Q)
    (happend : ∀ e rs, Appends γ h m h' e rs → P h'.broker.ids ∧ Q (es ++ [e]))
    (hcompact : ∀ inFlight, m = .compact inFlight → inFlight.Perm h.broker.tracker.vals →
      Q (h.broker.compactEntries inFlight)) :
    P h'.broker.ids ∧ (∀ c qs, h'.broker.holder = some ⟨c, some qs⟩ → Q qs) ∧
      Promised γ h'.broker.wal es' seq Q := by
  cases hadv with
  | stays evs hpromised hsynced hwrite hholder howed hkept hlive hdlq =>
    exact ⟨hP (Broker.ids_perm hlive hdlq).symm hmemory, hholder ▸ hgathered, hpromised _ _ hlog⟩
  | append e rs hsource hfree hwal hholder howed hchange htrace =>
    have hne := not_gathered hholder
    obtain ⟨hids, hQ⟩ := happend e rs ⟨hsource, hfree, hwal, hne, howed, hchange, htrace⟩
    exact ⟨hids, fun c qs hc => absurd hc (hne c qs), hwal ▸ hlog.append hQ⟩
  | gathered c inFlight hm hperm hh =>
    subst hh
    refine ⟨hmemory, ?_, hlog⟩
    rintro c' qs ⟨⟩
    exact hcompact inFlight hm hperm
  | rewritten c qs hholder hpromised hsynced hwrite hfree howed hlive hdlq =>
    refine ⟨hP (Broker.ids_perm (List.Perm.of_eq hlive) hdlq).symm hmemory, fun c' qs hc => ?_,
      hpromised _ _ hlog.seq_le (hgathered c es' hholder)⟩
    rw [hfree] at hc
    cases hc

/-- **What a crash does**, that leaves the entries `qs`. -/
structure Crashes (γ : Codec) (h : History) (es : List LogEntry) (h' : History)
    (qs : List LogEntry) : Prop where
  left : qs <+: es
  lasts : ∀ Q, Lasting γ es h.broker.wal.durable Q → Q qs
  recovered : Recovered γ h'.broker qs
  trace : h'.trace = h.trace

theorem Crashes.trace_subset (hcrash : Crashes γ h es h' qs) : h.trace ⊆ h'.trace := by
  rw [hcrash.trace]
  exact List.Subset.refl _

theorem Base.crashes {c : ℕ} (hb : Base γ h.broker es) (hc : h.broker.wal.durable ≤ c)
    (hr : Recovered γ h'.broker (replay γ (h.broker.wal.file.take c)).1)
    (htrace : h'.trace = h.trace) : ∃ qs, Crashes γ h es h' qs := by
  obtain ⟨qs, hqs, hread⟩ := hb.sound.read c
  refine ⟨qs, hqs, fun Q hQ => ?_, hread ▸ hr, htrace⟩
  rw [← hread]
  exact hQ.read hb.sound hc

/-- **The invariant is kept along a regular run.** -/
theorem Base.advance (hb : Base γ h.broker es) (hg : Regular γ h m) (hs : step γ h m = some h') :
    ∃ es', Base γ h'.broker es' ∧ (Advance γ h es m h' es' ∨
      ∃ qs, Crashes γ h es h' qs ∧ es' = h'.broker.compactEntries [] ∧
        ∃ c order cfg, m = .crash c order cfg) := by
  cases outcome hb.apart hb.sound.syncErr hg.1 hs with
  | quiet evs hwal hholder howed hlive hdlq htrace hevs =>
    refine ⟨es, hb.quiet hwal hholder hlive hdlq, Or.inl (.stays evs ?_ ?_ ?_ hholder ?_ ?_ hlive
      hdlq htrace fun ev hev => Or.inl (hevs ev hev))⟩
    · rw [hwal]
      exact fun _ _ hp => hp
    · rw [hwal]
    · rw [hwal]
    · rw [howed]
      exact fun _ => id
    · rw [howed]
      exact fun c hc => Or.inl hc
  | append e rs hsource hfree hwal hholder howed hchange htrace =>
    exact ⟨es ++ [e], hb.append (hg.2.2 e (hsource.mem_writes γ)) (hg.fresh hsource) hwal
      (not_gathered hholder) hchange,
      Or.inl (.append e rs hsource hfree hwal hholder howed hchange htrace)⟩
  | sync w hw hh =>
    subst hh
    refine ⟨es, hb.sync hw, Or.inl (.stays [] (fun _ _ hp => hw.promised hb.sound hp)
      hw.syncedSeq_le hw.writeSeq rfl (fun _ => id) (fun c hc => Or.inl hc) (List.Perm.refl _) rfl
      ?_ fun ev hev => (by cases hev))⟩
    exact (List.append_nil _).symm
  | returned c hc hwal hholder howed hlive hdlq htrace =>
    refine ⟨es, hb.quiet hwal hholder (List.Perm.of_eq hlive) hdlq,
      Or.inl (.stays [.returned c.request] ?_ ?_ ?_ hholder ?_ ?_ (List.Perm.of_eq hlive) hdlq
        htrace ?_)⟩
    · rw [hwal]
      exact fun _ _ hp => hp
    · rw [hwal]
    · rw [hwal]
    · exact fun c' hc' => howed.mem_iff.mpr (List.mem_cons_of_mem _ hc')
    · intro c' hc'
      obtain rfl | hc' := List.mem_cons.mp (howed.mem_iff.mp hc')
      · exact Or.inr ⟨List.mem_singleton.mpr rfl, hc⟩
      · exact Or.inl hc'
    · intro ev hev
      exact Or.inr ⟨c, howed.mem_iff.mpr List.mem_cons_self, List.mem_singleton.mp hev, hc⟩
  | gathered c inFlight hm hperm hholder hh =>
    subst hm hh
    refine ⟨es, hb.gather hperm hg.2.2, Or.inl (.gathered c inFlight rfl hperm rfl ?_)⟩
    rw [Broker.owed, Broker.owed, hholder]
    rfl
  | rewritten c qs w hholder hw hwal hfree howed hlive hdlq htrace =>
    refine ⟨qs, hb.rewritten hholder hw hwal hfree hlive hdlq,
      Or.inl (.rewritten c qs hholder ?_ ?_ ?_ hfree howed hlive hdlq htrace)⟩
    · intro seq Q hseq hQ
      rw [hwal]
      exact promised_rewrite hseq hQ hw
    · rw [hwal, (rewrite_eq hw).2]
      exact hb.sound.synced_le
    · rw [hwal, (rewrite_eq hw).2]
  | crashed c order cfg hm hc horder hrec htrace =>
    subst hm
    obtain ⟨qs, hcrash⟩ := hb.crashes hc (recovered_of_recover horder hrec) htrace
    exact ⟨_, hcrash.recovered.base (hg.fits hrec) (hb.readable.orderly.of_prefix hcrash.left),
      Or.inr ⟨qs, hcrash, rfl, c, order, cfg, rfl⟩⟩

/-- The invariant holds in every state of such a run. -/
theorem base_of_regular {cfg : Config} {ms : List Move}
    (hG : Run.Guarded (step γ) (Regular γ) (History.start cfg) ms)
    (hrun : Run.exec (step γ) (History.start cfg) ms = some h) : ∃ es, Base γ h.broker es :=
  Run.invariant_of_guarded (P := fun h => ∃ es, Base γ h.broker es) ⟨[], base_start γ cfg⟩
    (fun _ _ _ ⟨_, hb⟩ hg hs => (hb.advance hg hs).imp fun _ hb' => hb'.1) hG hrun

end SingleNode

end DistQueue
