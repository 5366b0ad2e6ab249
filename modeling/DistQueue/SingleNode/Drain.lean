import DistQueue.SingleNode.Shutdown

/-!
# Nobody waits forever

The goroutines of a broker wait for one another. Whoever compacts the log holds the broker's
lock, and has to wait until a sync of the file that is under way has ended; the calls and the
scanner wait for a sync, which one of them has to make for all; and `Close` waits for the
scan loop, which may be waiting for a sync as well.

None of this can hang. Whatever the order in which they go on, and whichever writes and syncs
fail on the way, the number of steps that they can take on their own is bounded by
`DistQueue.SingleNode.Service.work`, and when no step is left the lock is free, every call has
been answered, the scanner is done, and so is `Close` if it has been called
(`DistQueue.SingleNode.service_drains`).
-/

namespace DistQueue

open Broker Wal

namespace SingleNode

variable {γ : Codec} {b b' b₁ : Broker} {h h' : History} {m : Move} {c : Caller} {x x' : Service}
  {sm : ServiceMove}

/-! ### Sections that write -/

/-- Nobody waits for anything else than before. Maybe a part of a record has been written. -/
structure Broker.Still (b b' : Broker) : Prop where
  calls : b'.calls = b.calls
  holder : b'.holder = b.holder
  scanner : b'.scanner = b.scanner
  writeSeq : b'.wal.writeSeq = b.wal.writeSeq
  syncedSeq : b'.wal.syncedSeq = b.wal.syncedSeq
  syncing : b'.wal.syncing = b.wal.syncing
  syncErr : b'.wal.syncErr = b.wal.syncErr

/-- A record has been written. -/
structure Broker.Wrote (b b' : Broker) : Prop where
  calls : b'.calls = b.calls
  holder : b'.holder = b.holder
  scanner : b'.scanner = b.scanner
  writeSeq : b'.wal.writeSeq = b.wal.writeSeq + 1
  syncedSeq : b'.wal.syncedSeq = b.wal.syncedSeq
  syncing : b'.wal.syncing = b.wal.syncing
  syncErr : b'.wal.syncErr = b.wal.syncErr

/-- A requeue fails and changes nothing, or writes its record and may go on to compaction. -/
theorem requeueLocked_ends (γ : Codec) (b : Broker) (t : Task) (fault : Option ℕ)
    (caller : ℕ → Caller) :
    fault.isSome ∧ b.Still (b.requeueLocked γ t fault caller) ∨
      fault.isSome = false ∧ ∃ b₁, b.Wrote b₁ ∧
        b.requeueLocked γ t fault caller = b₁.maybeCompactLocked (caller (b.wal.writeSeq + 1)) := by
  unfold Broker.requeueLocked
  cases fault with
  | some n =>
    refine Or.inl ⟨rfl, ?_⟩
    dsimp only
    split <;> exact ⟨rfl, rfl, rfl, rfl, rfl, rfl, rfl⟩
  | none =>
    refine Or.inr ⟨rfl, ?_⟩
    dsimp only
    split <;> refine ⟨_, ?_, rfl⟩ <;> exact ⟨rfl, rfl, rfl, rfl, rfl, rfl, rfl⟩

/-- The scanner has tried to write the record of a task. -/
theorem onTimeout_cases (γ : Codec) (b : Broker) (t : Task) (rest : List Task)
    (fault : Option ℕ) :
    ({ b with scanner := .next rest } : Broker).Still (b.onTimeout γ t rest fault) ∨
      ∃ b₁, ({ b with scanner := .locked rest } : Broker).Wrote b₁ ∧
        b.onTimeout γ t rest fault = b₁.maybeCompactLocked (.scanner (b.wal.writeSeq + 1)) := by
  unfold Broker.onTimeout
  obtain ⟨hfault, hstill⟩ | ⟨hfault, b₁, hwrote, heq⟩ :=
    requeueLocked_ends γ { b with scanner := .locked rest } t fault .scanner
  · left
    dsimp only
    rw [if_pos hfault]
    exact ⟨hstill.calls, hstill.holder, rfl, hstill.writeSeq, hstill.syncedSeq, hstill.syncing,
      hstill.syncErr⟩
  · right
    dsimp only
    rw [hfault, if_neg (by decide)]
    exact ⟨b₁, hwrote, heq⟩

/-! ### What goroutines do on their own -/

/-- The moves that are neither calls of clients nor ticks of a clock, and kill nobody. -/
def Move.Inner : Move → Prop
  | .onTimeout _ | .compact _ | .rewrite | .lead | .capture | .fsync _ | .returns _ | .resume =>
    True
  | .enqueue _ _ _ _ | .dequeue _ | .ack _ _ | .nack _ _ | .applyTuning _ _ | .expired _ _
  | .crash _ _ _ => False

/-- **Everything they can do**, in a broker that may be closed. -/
inductive Proceeds (γ : Codec) (h h' : History) : Prop
  | drop (t : Task) (rest : List Task) (hbatch : h.broker.scanner = .batch t rest)
      (hh : h' = h.silent { h.broker with scanner := .next rest })
  | timeout (t : Task) (rest : List Task) (fault : Option ℕ)
      (hbatch : h.broker.scanner = .batch t rest) (hfree : h.broker.holder = none)
      (hh : h' = h.silent (h.broker.onTimeout γ t rest fault))
  | compact (c : Caller) (es : List LogEntry) (hholder : h.broker.holder = some ⟨c, none⟩)
      (hh : h' = h.silent { h.broker with holder := some ⟨c, some es⟩ })
  | rewrite (c : Caller) (es : List LogEntry) (w : WAL)
      (hholder : h.broker.holder = some ⟨c, some es⟩) (hw : h.broker.wal.rewrite γ es = some w)
      (hh : h' = h.silent ({ h.broker with wal := w }.release c))
  | lead (seq : ℕ) (hseq : seq ∈ h.broker.awaited) (hwaits : h.broker.wal.waitSync seq = .waits)
      (hidle : h.broker.wal.syncing = .idle)
      (hh : h' = h.silent { h.broker with wal := { h.broker.wal with syncing := .leading } })
  | capture (hleading : h.broker.wal.syncing = .leading)
      (hh : h' = h.silent { h.broker with wal := { h.broker.wal with
        syncing := .fsync h.broker.wal.writeSeq h.broker.wal.file.length } })
  | synced (covered length : ℕ) (hsync : h.broker.wal.syncing = .fsync covered length)
      (hh : h' = h.silent { h.broker with wal := { h.broker.wal with
        syncing := .idle
        syncedSeq := max h.broker.wal.syncedSeq covered
        durable := max h.broker.wal.durable length } })
  | syncFailed (covered length : ℕ) (hsync : h.broker.wal.syncing = .fsync covered length)
      (hh : h' = h.silent { h.broker with wal := { h.broker.wal with
        syncing := .idle
        syncErr := true } })
  | returns (k : ℕ) (call : Call) (hk : h.broker.calls[k]? = some call) (evs : List Event)
      (hevs : .returned call.request ∈ evs ∨ h.broker.wal.syncErr = true)
      (hh : h' = ⟨{ h.broker with calls := h.broker.calls.eraseIdx k }, h.trace ++ evs⟩)
  | resume (seq : ℕ) (rest : List Task) (hwaiting : h.broker.scanner = .waiting seq rest)
      (hh : h' = h.silent { h.broker with scanner := .next rest })

/-- Waiting fails only on a log that has failed. -/
theorem waitSync_failed {w : WAL} {seq : ℕ} (hw : w.waitSync seq = .failed) : w.syncErr = true := by
  unfold WAL.waitSync at hw
  split_ifs at hw with herr
  exact herr

/-- **What the inner steps do.** -/
theorem proceeds (hs : step γ h m = some h') (hm : m.Inner) : Proceeds γ h h' := by
  cases m with
  | onTimeout fault =>
    unfold step at hs
    dsimp only at hs
    split at hs
    · rename_i t rest hbatch
      obtain ⟨hfree, rfl⟩ := eq_of_locked hs
      refine .timeout t rest fault hbatch hfree ?_
      rw [List.append_nil, History.silent]
    · cases hs
  | compact inFlight =>
    unfold step at hs
    dsimp only at hs
    split at hs
    · rename_i c hholder
      rw [Option.ite_none_right_eq_some, Option.some.injEq] at hs
      exact .compact c _ hholder hs.2.symm
    · cases hs
  | rewrite =>
    unfold step at hs
    dsimp only at hs
    split at hs
    · rename_i c es hholder
      obtain ⟨w, hw, rfl⟩ := Option.map_eq_some_iff.mp hs
      exact .rewrite c es w hholder hw rfl
    · cases hs
  | lead =>
    simp only [step, WAL.lead, Option.ite_none_right_eq_some, Option.map_eq_some_iff,
      Option.some.injEq] at hs
    obtain ⟨⟨seq, hseq, hwaits⟩, w, ⟨⟨-, hidle⟩, rfl⟩, rfl⟩ := hs
    exact .lead seq hseq hwaits hidle rfl
  | capture =>
    obtain ⟨w, hw, rfl⟩ := Option.map_eq_some_iff.mp hs
    unfold WAL.capture at hw
    split at hw
    · rename_i hleading
      cases hw
      exact .capture hleading rfl
    · cases hw
  | fsync ok =>
    obtain ⟨w, hw, rfl⟩ := Option.map_eq_some_iff.mp hs
    unfold WAL.fsynced at hw
    split at hw
    · rename_i covered length hsync
      cases hw
      cases ok with
      | true => exact .synced covered length hsync rfl
      | false => exact .syncFailed covered length hsync rfl
    · cases hw
  | returns k =>
    unfold step at hs
    dsimp only at hs
    split at hs
    · cases hs
    · rename_i call hk
      split at hs
      · cases hs
        exact .returns k call hk _ (Or.inl List.mem_cons_self) rfl
      · rename_i hfailed
        cases hs
        refine .returns k call hk [] (Or.inr (waitSync_failed hfailed)) ?_
        rw [List.append_nil, History.silent]
      · cases hs
  | resume =>
    unfold step at hs
    dsimp only at hs
    split at hs
    · rename_i seq rest hwaiting
      rw [Option.ite_none_left_eq_some, Option.some.injEq] at hs
      exact .resume seq rest hwaiting hs.2.symm
    · cases hs
  | enqueue _ _ _ _ | dequeue _ | ack _ _ | nack _ _ | applyTuning _ _ | expired _ _
  | crash _ _ _ => exact hm.elim

/-- The moves of a service that nobody asks for. -/
def ServiceMove.Internal : ServiceMove → Prop
  | .run m => m.Inner
  | .stop | .shut => True
  | .close | .restart _ _ => False

/-- An internal step is one of the log or the scanner, or one of `Close`. -/
theorem internal_cases (hi : sm.Internal) (hs : x.step γ sm = some x') :
    x'.stage = x.stage ∧ Proceeds γ x.history x'.history ∨
      x'.history = x.history ∧
        (x.stage = .closing ∧ x'.stage = .stopped ∨ x.stage = .stopped ∧ x'.stage = .shut) := by
  cases serves hs with
  | runs m hm hstage hs' =>
    subst hm
    exact Or.inl ⟨hstage.2.trans hstage.1.symm, proceeds hs' hi⟩
  | reopens hstage h => cases h <;> exact hi.elim
  | closed m hm hstage hs' =>
    subst hm
    obtain hs' | ⟨t, rest, hbatch, -, hdrop⟩ := stepClosed_cases hs'
    · exact Or.inl ⟨hstage.2, proceeds hs' hi⟩
    · exact Or.inl ⟨hstage.2, .drop t rest hbatch hdrop⟩
  | closes hm hstage hfree hs' =>
    subst hm
    exact hi.elim
  | ends hends hs' => exact Or.inr ⟨hs', hends⟩

/-! ### Who waits for what -/

/-- The number of the record that a goroutine will wait for. -/
def Caller.seq : Caller → ℕ
  | .api call => call.seq
  | .scanner seq => seq

/-- **Whoever waits, waits for a record that has been written**, and the scanner has the lock
when it is in its section. -/
structure Broker.Waits (b : Broker) : Prop where
  calls : ∀ call ∈ b.calls, call.seq ≤ b.wal.writeSeq
  waiting : ∀ seq rest, b.scanner = .waiting seq rest → seq ≤ b.wal.writeSeq
  holder : ∀ x, b.holder = some x → x.caller.seq ≤ b.wal.writeSeq
  locked : ∀ rest, b.scanner = .locked rest → ∃ seq es, b.holder = some ⟨.scanner seq, es⟩

theorem waits_start (cfg : Config) : (History.start cfg).broker.Waits where
  calls call hc := by cases hc
  waiting seq rest hs := by cases hs
  holder x hx := by cases hx
  locked rest hs := by cases hs

/-- Who changes nothing leaves the waiting as they are. -/
theorem Broker.Waits.still (hb : b.Waits) (hs : b.Still b') : b'.Waits := by
  constructor
  · rw [hs.calls, hs.writeSeq]
    exact hb.calls
  · rw [hs.scanner, hs.writeSeq]
    exact hb.waiting
  · rw [hs.holder, hs.writeSeq]
    exact hb.holder
  · rw [hs.scanner, hs.holder]
    exact hb.locked

theorem Broker.Waits.awaited (hb : b.Waits) {seq : ℕ} (hseq : seq ∈ b.awaited) :
    seq ≤ b.wal.writeSeq := by
  unfold Broker.awaited at hseq
  rw [List.mem_append] at hseq
  obtain hseq | hseq := hseq
  · obtain ⟨call, hc, rfl⟩ := List.mem_map.mp hseq
    exact hb.calls call hc
  · split at hseq
    · rename_i seq' rest hscan
      rw [List.mem_singleton.mp hseq]
      exact hb.waiting seq' rest hscan
    · cases hseq

/-- The scanner goes on to its next task. -/
theorem Broker.Waits.next (hb : b.Waits) (rest : List Task) :
    ({ b with scanner := .next rest } : Broker).Waits := by
  refine ⟨hb.calls, fun seq rest' hs => ?_, hb.holder, fun rest' hs => ?_⟩
  · cases rest <;> cases hs
  · cases rest <;> cases hs

/-- A section that ends: its record is in the log. -/
theorem waits_release (hcalls : ∀ call ∈ b.calls, call.seq ≤ b.wal.writeSeq)
    (hwaiting : ∀ seq rest, b.scanner = .waiting seq rest → seq ≤ b.wal.writeSeq)
    (hc : c.seq ≤ b.wal.writeSeq)
    (hlocked : ∀ rest, b.scanner = .locked rest → ∃ seq, c = .scanner seq) :
    (b.release c).Waits := by
  cases c with
  | api call =>
    refine ⟨fun call' hcall => ?_, hwaiting, fun x hx => (by cases hx), fun rest hs => ?_⟩
    · obtain hcall | hcall := List.mem_append.mp hcall
      · exact hcalls call' hcall
      · rw [List.mem_singleton.mp hcall]
        exact hc
    · obtain ⟨seq, hseq⟩ := hlocked rest hs
      cases hseq
  | scanner seq =>
    refine ⟨hcalls, ?_, fun x hx => (by cases hx), fun rest hs => (by cases hs)⟩
    rintro seq' rest ⟨⟩
    exact hc

theorem waits_maybeCompactLocked (hcalls : ∀ call ∈ b.calls, call.seq ≤ b.wal.writeSeq)
    (hwaiting : ∀ seq rest, b.scanner = .waiting seq rest → seq ≤ b.wal.writeSeq)
    (hc : c.seq ≤ b.wal.writeSeq)
    (hlocked : ∀ rest, b.scanner = .locked rest → ∃ seq, c = .scanner seq) :
    (b.maybeCompactLocked c).Waits := by
  obtain ⟨heq, -⟩ | heq := Broker.maybeCompactLocked_cases b c
  · rw [heq]
    exact waits_release hcalls hwaiting hc hlocked
  · rw [heq]
    refine ⟨hcalls, hwaiting, ?_, fun rest hs => ?_⟩
    · rintro x ⟨⟩
      exact hc
    · obtain ⟨seq, rfl⟩ := hlocked rest hs
      exact ⟨seq, none, rfl⟩

/-- A call has written its record. -/
theorem Broker.Waits.call (hb : b.Waits) (hfree : b.holder = none) (hw : b.Wrote b₁)
    (r : Request) : (b₁.maybeCompactLocked (.api ⟨r, b.wal.writeSeq + 1⟩)).Waits := by
  have hwrite := hw.writeSeq
  refine waits_maybeCompactLocked (fun call hc => ?_) (fun seq rest hs => ?_) hwrite.ge
    fun rest hs => ?_
  · rw [hw.calls] at hc
    exact (hb.calls call hc).trans (by omega)
  · rw [hw.scanner] at hs
    exact (hb.waiting seq rest hs).trans (by omega)
  · rw [hw.scanner] at hs
    obtain ⟨seq, es, hholder⟩ := hb.locked rest hs
    rw [hfree] at hholder
    cases hholder

/-- The scanner has written its record. -/
theorem Broker.Waits.scan (hb : b.Waits) {rest : List Task}
    (hw : ({ b with scanner := .locked rest } : Broker).Wrote b₁) :
    (b₁.maybeCompactLocked (.scanner (b.wal.writeSeq + 1))).Waits := by
  have hwrite : b₁.wal.writeSeq = b.wal.writeSeq + 1 := hw.writeSeq
  refine waits_maybeCompactLocked (fun call hc => ?_) (fun seq rest' hs => ?_) hwrite.ge
    fun _ _ => ⟨_, rfl⟩
  · rw [hw.calls] at hc
    exact (hb.calls call hc).trans (by omega)
  · rw [hw.scanner] at hs
    cases hs

/-- The inner steps keep it. -/
theorem Broker.Waits.proceeds (hb : h.broker.Waits) (hp : Proceeds γ h h') :
    h'.broker.Waits := by
  cases hp with
  | drop t rest hbatch hh =>
    subst hh
    exact hb.next rest
  | timeout t rest fault hbatch hfree hh =>
    subst hh
    obtain hstill | ⟨b₁, hwrote, heq⟩ := onTimeout_cases γ h.broker t rest fault
    · exact (hb.next rest).still hstill
    · rw [History.silent, heq]
      exact hb.scan hwrote
  | compact c es hholder hh =>
    subst hh
    refine ⟨hb.calls, hb.waiting, ?_, fun rest hrest => ?_⟩
    · rintro x ⟨⟩
      exact hb.holder ⟨c, none⟩ hholder
    · obtain ⟨seq, es', heq⟩ := hb.locked rest hrest
      rw [hholder] at heq
      cases heq
      exact ⟨seq, _, rfl⟩
  | rewrite c es w hholder hw hh =>
    subst hh
    obtain ⟨-, rfl⟩ := rewrite_eq hw
    refine waits_release hb.calls hb.waiting (hb.holder _ hholder) fun rest hrest => ?_
    obtain ⟨seq, es', heq⟩ := hb.locked rest hrest
    rw [hholder] at heq
    cases heq
    exact ⟨seq, rfl⟩
  | lead seq hseq hwaits hidle hh =>
    subst hh
    exact ⟨hb.calls, hb.waiting, hb.holder, hb.locked⟩
  | capture hleading hh =>
    subst hh
    exact ⟨hb.calls, hb.waiting, hb.holder, hb.locked⟩
  | synced covered length hsync hh =>
    subst hh
    exact ⟨hb.calls, hb.waiting, hb.holder, hb.locked⟩
  | syncFailed covered length hsync hh =>
    subst hh
    exact ⟨hb.calls, hb.waiting, hb.holder, hb.locked⟩
  | returns k call hk evs hevs hh =>
    subst hh
    exact ⟨fun c hc => hb.calls c (List.mem_of_mem_eraseIdx hc), hb.waiting, hb.holder, hb.locked⟩
  | resume seq rest hwaiting hh =>
    subst hh
    exact hb.next rest

/-- **So does every step.** -/
theorem Broker.Waits.step (hb : h.broker.Waits) (hs : step γ h m = some h') :
    h'.broker.Waits := by
  cases m with
  | enqueue t newID now fault =>
    obtain ⟨hfree, rfl⟩ := eq_of_locked hs
    cases fault with
    | some n => exact hb.still ⟨rfl, rfl, rfl, rfl, rfl, rfl, rfl⟩
    | none =>
      refine hb.call hfree ?_ _
      exact ⟨rfl, rfl, rfl, rfl, rfl, rfl, rfl⟩
  | dequeue now =>
    obtain ⟨hfree, rfl⟩ := eq_of_locked hs
    dsimp only [Broker.dequeue]
    split <;> exact hb.still ⟨rfl, rfl, rfl, rfl, rfl, rfl, rfl⟩
  | ack id fault =>
    obtain ⟨hfree, rfl⟩ := eq_of_locked hs
    dsimp only [Broker.ack]
    split
    · exact hb
    · cases fault with
      | some n => exact hb.still ⟨rfl, rfl, rfl, rfl, rfl, rfl, rfl⟩
      | none =>
        refine hb.call hfree ?_ _
        exact ⟨rfl, rfl, rfl, rfl, rfl, rfl, rfl⟩
  | nack id fault =>
    obtain ⟨hfree, rfl⟩ := eq_of_locked hs
    dsimp only [Broker.nack]
    split
    · exact hb
    · have hb₀ : ({ h.broker with tracker := h.broker.tracker.erase id } : Broker).Waits :=
        hb.still ⟨rfl, rfl, rfl, rfl, rfl, rfl, rfl⟩
      obtain ⟨-, hstill⟩ | ⟨-, b₁, hwrote, heq⟩ := requeueLocked_ends γ
        { h.broker with tracker := h.broker.tracker.erase id } _ fault _
      · exact hb₀.still hstill
      · rw [heq]
        exact hb₀.call hfree hwrote _
  | applyTuning taskTimeout maxRetries =>
    obtain ⟨hfree, rfl⟩ := eq_of_locked hs
    exact hb.still ⟨rfl, rfl, rfl, rfl, rfl, rfl, rfl⟩
  | expired now inFlight =>
    simp only [SingleNode.step, Option.ite_none_right_eq_some, Option.some.injEq] at hs
    obtain ⟨-, rfl⟩ := hs
    exact (hb.next _).still ⟨rfl, rfl, rfl, rfl, rfl, rfl, rfl⟩
  | crash c order cfg =>
    obtain ⟨-, -, hr, -⟩ := recovered_of_crash hs
    constructor
    · rw [hr.calls]
      exact fun call hc => (by cases hc)
    · rw [hr.scanner]
      exact fun seq rest hs => (by cases hs)
    · rw [hr.holder]
      exact fun x hx => (by cases hx)
    · rw [hr.scanner]
      exact fun rest hs => (by cases hs)
  | onTimeout _ | compact _ | rewrite | lead | capture | fsync _ | returns _ | resume =>
    exact hb.proceeds (SingleNode.proceeds hs trivial)

/-- This holds in every state of a service. -/
theorem Service.waits_step (hb : x.history.broker.Waits) (hs : x.step γ sm = some x') :
    x'.history.broker.Waits := by
  cases serves hs with
  | runs m hm hstage hs' => exact hb.step hs'
  | reopens hstage h => cases h with
    | crash c order cfg hs' => exact hb.step hs'
    | restart order cfg hs' => exact hb.step hs'
  | closed m hm hstage hs' =>
    obtain hs' | ⟨t, rest, hbatch, -, hdrop⟩ := stepClosed_cases hs'
    · exact hb.step hs'
    · rw [hdrop]
      exact hb.next rest
  | closes hm hstage hfree hs' =>
    rw [hs']
    exact hb
  | ends hends hs' =>
    rw [hs']
    exact hb

/-! ### What is left to do -/

/-- The steps until all that has been written is synced. A sync that has begun before the last
record was written has to be followed by another one. -/
def syncWork (w : WAL) : ℕ :=
  match w.syncing with
  | .idle => if w.syncErr = false ∧ w.syncedSeq < w.writeSeq then 3 else 0
  | .leading => 2
  | .fsync covered _ => if covered < w.writeSeq then 4 else 1

/-- A task that has timed out takes its section, a sync and a compaction. -/
def Scanner.work (s : Scanner) : ℕ :=
  7 * s.pending.length + match s with
    | .waiting _ _ => 1
    | _ => 0

/-- The steps of a compaction that are left, with its return. -/
def Holder.work (x : Holder) : ℕ := if x.entries.isNone then 3 else 2

/-- **What is left to do**: by the scanner, by a compaction, by the calls that wait, and for the
sync of the file. -/
def Broker.work (b : Broker) : ℕ :=
  b.scanner.work + b.holder.elim 0 Holder.work + b.calls.length + syncWork b.wal

/-- The steps of `Close` that are left. -/
def Stage.work : Stage → ℕ
  | .serving | .shut => 0
  | .closing => 2
  | .stopped => 1

/-- **The steps that are left**, at most. -/
def Service.work (x : Service) : ℕ := x.history.broker.work + x.stage.work

theorem work_batch (t : Task) (rest : List Task) :
    (Scanner.batch t rest).work = 7 * rest.length + 7 := rfl

theorem work_locked (rest : List Task) : (Scanner.locked rest).work = 7 * rest.length := rfl

theorem work_waiting (seq : ℕ) (rest : List Task) :
    (Scanner.waiting seq rest).work = 7 * rest.length + 1 := rfl

theorem work_next (rest : List Task) : (Scanner.next rest).work = 7 * rest.length := by
  cases rest <;> rfl

theorem work_scanner (b : Broker) (s : Scanner) :
    ({ b with scanner := s } : Broker).work + b.scanner.work = b.work + s.work := by
  simp only [Broker.work]
  omega

/-- The scanner is done with what it had to do. -/
theorem work_lt_of_next {rest : List Task} (hless : 7 * rest.length < b.scanner.work) :
    ({ b with scanner := .next rest } : Broker).work < b.work := by
  have hnext := work_scanner b (.next rest)
  rw [work_next] at hnext
  omega

/-- Who changes nothing does no work. -/
theorem work_still (hs : b.Still b') : b'.work = b.work := by
  unfold Broker.work syncWork
  rw [hs.calls, hs.holder, hs.scanner, hs.writeSeq, hs.syncedSeq, hs.syncing, hs.syncErr]

/-- A record makes work for the sync. -/
theorem work_wrote (hw : b.Wrote b') : b'.work ≤ b.work + 3 := by
  have hsync : syncWork b'.wal ≤ syncWork b.wal + 3 := by
    unfold syncWork
    rw [hw.writeSeq, hw.syncedSeq, hw.syncing, hw.syncErr]
    split
    · split_ifs <;> omega
    · omega
    · split_ifs <;> omega
  unfold Broker.work
  rw [hw.calls, hw.holder, hw.scanner]
  omega

/-- Who gives up the lock has done its work, but for the wait. -/
theorem work_release (b : Broker) (c : Caller) :
    (b.release c).work + b.holder.elim 0 Holder.work ≤ b.work + 1 := by
  cases c with
  | api call =>
    simp only [Broker.release, Broker.work, Option.elim_none, List.length_append,
      List.length_singleton]
    omega
  | scanner seq =>
    simp only [Broker.release, Broker.work, Option.elim_none, Scanner.work, Scanner.pending]
    omega

/-- A call that may compact leaves three steps of work at most. -/
theorem work_maybeCompactLocked (hfree : b.holder = none) (c : Caller) :
    (b.maybeCompactLocked c).work ≤ b.work + 3 := by
  obtain ⟨heq, -⟩ | heq := Broker.maybeCompactLocked_cases b c
  · have hrelease := work_release b c
    rw [heq]
    omega
  · rw [heq]
    simp only [Broker.work, hfree, Option.elim_none, Option.elim_some, Holder.work,
      Option.isNone_none, if_true]
    omega

theorem waitSync_waits {w : WAL} {seq : ℕ} (hw : w.waitSync seq = .waits) :
    w.syncErr = false ∧ w.syncedSeq < seq := by
  unfold WAL.waitSync at hw
  split_ifs at hw with herr hseq
  exact ⟨Bool.eq_false_iff.mpr herr, Nat.lt_of_not_le hseq⟩

/-- A sync that ends may have to be followed by another one, but not by two. -/
theorem syncWork_synced {w : WAL} {covered length : ℕ} (hsync : w.syncing = .fsync covered length) :
    syncWork { w with
      syncing := .idle
      syncedSeq := max w.syncedSeq covered
      durable := max w.durable length } < syncWork w := by
  unfold syncWork
  rw [hsync]
  dsimp only
  split_ifs <;> omega

/-- **Every step leaves less to do.** -/
theorem work_proceeds (hb : h.broker.Waits) (hp : Proceeds γ h h') :
    h'.broker.work < h.broker.work := by
  cases hp with
  | drop t rest hbatch hh =>
    subst hh
    exact work_lt_of_next (by rw [hbatch, work_batch]; omega)
  | timeout t rest fault hbatch hfree hh =>
    subst hh
    change (h.broker.onTimeout γ t rest fault).work < h.broker.work
    obtain hstill | ⟨b₁, hwrote, heq⟩ := onTimeout_cases γ h.broker t rest fault
    · rw [work_still hstill]
      exact work_lt_of_next (by rw [hbatch, work_batch]; omega)
    · -- the record may take a sync, and the section a compaction
      have hlocked := work_scanner h.broker (.locked rest)
      rw [hbatch, work_batch, work_locked] at hlocked
      have hwork := work_wrote hwrote
      have hend := work_maybeCompactLocked (hwrote.holder.trans hfree)
        (.scanner (h.broker.wal.writeSeq + 1))
      rw [heq]
      omega
  | compact c es hholder hh =>
    subst hh
    simp only [History.silent, Broker.work, hholder, Option.elim_some, Holder.work,
      Option.isNone_none, Option.isNone_some, if_true, Bool.false_eq_true, if_false]
    omega
  | rewrite c es w hholder hw hh =>
    subst hh
    obtain ⟨hidle, rfl⟩ := rewrite_eq hw
    refine Nat.lt_of_add_lt_add_right (Nat.lt_of_le_of_lt (work_release _ c) ?_)
    simp only [Broker.work, syncWork, hidle, hholder, Option.elim_some, Holder.work,
      Option.isNone_some, Bool.false_eq_true, if_false, lt_irrefl, and_false]
    omega
  | lead seq hseq hwaits hidle hh =>
    subst hh
    obtain ⟨herr, hlt⟩ := waitSync_waits hwaits
    have hle := hb.awaited hseq
    simp only [History.silent, Broker.work, syncWork, hidle, herr, true_and]
    rw [if_pos (by omega)]
    omega
  | capture hleading hh =>
    subst hh
    simp only [History.silent, Broker.work, syncWork, hleading, lt_irrefl, if_false]
    omega
  | synced covered length hsync hh =>
    subst hh
    exact Nat.add_lt_add_left (syncWork_synced hsync) _
  | syncFailed covered length hsync hh =>
    subst hh
    simp only [History.silent, Broker.work, syncWork, hsync, Bool.true_eq_false, false_and,
      if_false]
    split_ifs <;> omega
  | returns k call hk evs hevs hh =>
    subst hh
    have hlt := (List.getElem?_eq_some_iff.mp hk).1
    simp only [Broker.work, List.length_eraseIdx_of_lt hlt]
    omega
  | resume seq rest hwaiting hh =>
    subst hh
    exact work_lt_of_next (by rw [hwaiting, work_waiting]; omega)

/-! ### Somebody can go on -/

/-- A sync that has begun can end. -/
theorem exists_sync (hbusy : h.broker.wal.syncing ≠ .idle) :
    ∃ m : Move, m.OfLog ∧ (step γ h m).isSome := by
  cases hsync : h.broker.wal.syncing with
  | idle => exact absurd hsync hbusy
  | leading => exact ⟨.capture, trivial, by simp [step, WAL.capture, hsync]⟩
  | fsync covered length => exact ⟨.fsync true, trivial, by simp [step, WAL.fsynced, hsync]⟩

/-- Who waits for a sync can make it, unless somebody does. -/
theorem exists_waits {seq : ℕ} (hseq : seq ∈ h.broker.awaited)
    (hwaits : h.broker.wal.waitSync seq = .waits) :
    ∃ m : Move, m.OfLog ∧ (step γ h m).isSome := by
  rcases eq_or_ne h.broker.wal.syncing .idle with hidle | hbusy
  · refine ⟨.lead, trivial, ?_⟩
    rw [step, if_pos ⟨seq, hseq, hwaits⟩, WAL.lead, if_pos ⟨(waitSync_waits hwaits).1, hidle⟩]
    rfl
  · exact exists_sync hbusy

/-- The lock can be released. -/
theorem exists_holder {x : Holder} (hx : h.broker.holder = some x) :
    ∃ m : Move, m.OfLog ∧ (step γ h m).isSome := by
  obtain ⟨c, _ | es⟩ := x
  · refine ⟨.compact h.broker.tracker.vals, trivial, ?_⟩
    simp [step, hx]
  · rcases eq_or_ne h.broker.wal.syncing .idle with hidle | hbusy
    · exact ⟨.rewrite, trivial, by simp [step, hx, WAL.rewrite, hidle]⟩
    · exact exists_sync hbusy

/-- A call can return. -/
theorem exists_call {call : Call} {rest : List Call} (hcalls : h.broker.calls = call :: rest) :
    ∃ m : Move, m.OfLog ∧ (step γ h m).isSome := by
  cases hwait : h.broker.wal.waitSync call.seq with
  | waits =>
    refine exists_waits ?_ hwait
    simp [Broker.awaited, hcalls]
  | failed => exact ⟨.returns 0, trivial, by simp [step, hcalls, hwait]⟩
  | synced => exact ⟨.returns 0, trivial, by simp [step, hcalls, hwait]⟩

/-- The scanner can go on. -/
theorem exists_scanner {seq : ℕ} {rest : List Task} (hscan : h.broker.scanner = .waiting seq rest) :
    ∃ m : Move, m.OfLog ∧ (step γ h m).isSome := by
  by_cases hwait : h.broker.wal.waitSync seq = .waits
  · refine exists_waits ?_ hwait
    simp [Broker.awaited, hscan]
  · exact ⟨.resume, trivial, by simp [step, hscan, hwait]⟩

theorem isSome_run (hm : m.OfLog) (hs : (step γ x.history m).isSome) :
    (x.step γ (.run m)).isSome := by
  obtain ⟨h', hs⟩ := Option.isSome_iff_exists.mp hs
  cases m with
  | compact _ | rewrite | lead | capture | fsync _ | returns _ | resume =>
    cases hstage : x.stage <;> simp [Service.step, stepClosed, hstage, hs]
  | enqueue _ _ _ _ | dequeue _ | ack _ _ | nack _ _ | applyTuning _ _ | expired _ _ | onTimeout _
  | crash _ _ _ => exact hm.elim

/-- Nobody waits and nobody is waited for. -/
structure Service.Drained (x : Service) : Prop where
  holder : x.history.broker.holder = none
  calls : x.history.broker.calls = []
  scanner : x.history.broker.scanner = .idle
  stage : x.stage = .serving ∨ x.stage = .shut

/-- **Until all is drained, some internal step can be taken.** -/
theorem exists_internal (hb : x.history.broker.Waits) (hx : ¬ x.Drained) :
    ∃ sm : ServiceMove, sm.Internal ∧ (x.step γ sm).isSome := by
  have hlog : (∃ m : Move, m.OfLog ∧ (SingleNode.step γ x.history m).isSome) →
      ∃ sm : ServiceMove, sm.Internal ∧ (x.step γ sm).isSome := by
    rintro ⟨m, hm, hs⟩
    refine ⟨.run m, ?_, isSome_run hm hs⟩
    cases m <;> first | exact hm.elim | trivial
  cases hholder : x.history.broker.holder with
  | some y => exact hlog (exists_holder hholder)
  | none =>
    cases hcalls : x.history.broker.calls with
    | cons call rest => exact hlog (exists_call hcalls)
    | nil =>
      cases hscan : x.history.broker.scanner with
      | waiting seq rest => exact hlog (exists_scanner hscan)
      | locked rest =>
        obtain ⟨seq, es, heq⟩ := hb.locked rest hscan
        rw [hholder] at heq
        cases heq
      | batch t rest =>
        refine ⟨.run (.onTimeout none), trivial, ?_⟩
        cases hstage : x.stage <;>
          simp [Service.step, stepClosed, SingleNode.step, History.locked, hstage, hscan, hholder]
      | idle =>
        cases hstage : x.stage with
        | serving => exact absurd ⟨hholder, hcalls, hscan, Or.inl hstage⟩ hx
        | shut => exact absurd ⟨hholder, hcalls, hscan, Or.inr hstage⟩ hx
        | closing => exact ⟨.stop, trivial, by simp [Service.step, hstage, hscan]⟩
        | stopped => exact ⟨.shut, trivial, by simp [Service.step, hstage]⟩

/-! ### The calls -/

/-- The call is waiting, or it has returned, or a sync has failed. -/
def Call.Minded (call : Call) (h : History) : Prop :=
  call ∈ h.broker.owed ∨ .returned call.request ∈ h.trace ∨ h.broker.wal.syncErr = true

theorem owed_of_free (hfree : b.holder = none) : b.owed = b.calls := by
  rw [Broker.owed, hfree, List.append_nil]

/-- A call that is minded stays so. -/
theorem minded_proceeds {call : Call} (hc : call.Minded h) (hp : Proceeds γ h h') :
    call.Minded h' := by
  cases hp with
  | drop t rest hbatch hh =>
    subst hh
    exact hc
  | timeout t rest fault hbatch hfree hh =>
    subst hh
    rw [Call.Minded, owed_of_free hfree] at hc
    unfold Call.Minded
    obtain hstill | ⟨b₁, hwrote, heq⟩ := onTimeout_cases γ h.broker t rest fault
    · rw [History.silent, owed_of_free (hstill.holder.trans hfree), hstill.calls, hstill.syncErr]
      exact hc
    · have hends := Broker.ends_maybeCompactLocked b₁ (.scanner (h.broker.wal.writeSeq + 1))
      rw [History.silent, heq, hends.owed, hends.wal, hwrote.calls, hwrote.syncErr,
        Broker.callOf, List.append_nil]
      exact hc
  | compact c es hholder hh =>
    subst hh
    have howed : h.broker.owed = h.broker.calls ++ Broker.callOf c := by rw [Broker.owed, hholder]
    rw [Call.Minded, howed] at hc
    exact hc
  | rewrite c es w hholder hw hh =>
    subst hh
    obtain ⟨-, rfl⟩ := rewrite_eq hw
    have howed : h.broker.owed = h.broker.calls ++ Broker.callOf c := by rw [Broker.owed, hholder]
    rw [Call.Minded, howed] at hc
    rw [Call.Minded, History.silent, Broker.release_eq, owed_of_free rfl]
    exact hc
  | lead seq hseq hwaits hidle hh =>
    subst hh
    exact hc
  | capture hleading hh =>
    subst hh
    exact hc
  | synced covered length hsync hh =>
    subst hh
    exact hc
  | syncFailed covered length hsync hh =>
    subst hh
    exact Or.inr (Or.inr rfl)
  | returns k call' hk evs hevs hh =>
    subst hh
    have hperm : h.broker.calls.Perm (call' :: h.broker.calls.eraseIdx k) := by
      obtain ⟨hlt, rfl⟩ := List.getElem?_eq_some_iff.mp hk
      exact (List.getElem_cons_eraseIdx_perm hlt).symm
    rcases hc with hc | hc | hc
    · obtain hc | hc := List.mem_append.mp hc
      · obtain rfl | hc := List.mem_cons.mp (hperm.mem_iff.mp hc)
        · exact Or.inr (hevs.imp_left fun hret => List.mem_append_right _ hret)
        · exact Or.inl (List.mem_append_left _ hc)
      · exact Or.inl (List.mem_append_right _ hc)
    · exact Or.inr (Or.inl (List.mem_append_left _ hc))
    · exact Or.inr (Or.inr hc)
  | resume seq rest hwaiting hh =>
    subst hh
    exact hc

/-! ### Nothing hangs -/

/-- **Every internal step does some of the work.** -/
theorem work_step (hb : x.history.broker.Waits) (hi : sm.Internal) (hs : x.step γ sm = some x') :
    x'.work < x.work := by
  unfold Service.work
  obtain ⟨hstage, hp⟩ | ⟨hh, ⟨hx, hx'⟩ | ⟨hx, hx'⟩⟩ := internal_cases hi hs
  · rw [hstage]
    exact Nat.add_lt_add_right (work_proceeds hb hp) _
  · rw [hh, hx, hx']
    exact Nat.add_lt_add_left (by decide) _
  · rw [hh, hx, hx']
    exact Nat.add_lt_add_left (by decide) _

/-- What the goroutines have done, from one moment to another. -/
structure Service.Inside (x : Service) (n : ℕ) (x' : Service) : Prop where
  waits : x'.history.broker.Waits
  work : n + x'.work ≤ x.work
  stage : x'.stage = .serving ↔ x.stage = .serving
  calls : ∀ call : Call, call.Minded x.history → call.Minded x'.history

theorem inside_of_run {ms : List ServiceMove} (hb : x.history.broker.Waits)
    (hi : ∀ sm ∈ ms, sm.Internal) (hrun : Run.exec (Service.step γ) x ms = some x') :
    x.Inside ms.length x' := by
  induction ms generalizing x with
  | nil =>
    obtain rfl : x = x' := Option.some.inj hrun
    exact ⟨hb, (Nat.zero_add _).le, Iff.rfl, fun _ hc => hc⟩
  | cons sm ms ih =>
    obtain ⟨hsm, hi⟩ := List.forall_mem_cons.mp hi
    rw [Run.exec_cons, Option.bind_eq_some_iff] at hrun
    obtain ⟨y, hy, hrun⟩ := hrun
    have hlt := work_step hb hsm hy
    obtain ⟨hb', hwork, hstage', hcalls⟩ := ih (Service.waits_step hb hy) hi hrun
    refine ⟨hb', ?_, hstage'.trans ?_, fun call hc => hcalls call ?_⟩
    · rw [List.length_cons]
      omega
    · obtain ⟨hsame, -⟩ | ⟨-, ⟨hx, hx'⟩ | ⟨hx, hx'⟩⟩ := internal_cases hsm hy
      · rw [hsame]
      · simp [hx, hx']
      · simp [hx, hx']
    · obtain ⟨-, hp⟩ | ⟨hh, -⟩ := internal_cases hsm hy
      · exact minded_proceeds hc hp
      · rw [hh]
        exact hc

/-- **Nothing hangs.** From every state of every run of a service, failed writes and failed
syncs included, and in whatever order the goroutines go on: they take no more steps on their
own than `Service.work` says, and as long as one of them holds the lock, a call has not
returned, the scanner is not idle, or `Close` has begun and not ended, some step can be taken.
When all that is over, every call that was waiting has been answered with success, unless a
sync has failed. -/
theorem service_drains {cfg : Config} {ms ms' : List ServiceMove}
    (hrun : Run.exec (Service.step γ) (.start cfg) ms = some x)
    (hi : ∀ sm ∈ ms', sm.Internal) (hrun' : Run.exec (Service.step γ) x ms' = some x') :
    ms'.length ≤ x.work ∧
      ((∃ sm : ServiceMove, sm.Internal ∧ (x'.step γ sm).isSome) ∨
        x'.history.broker.holder = none ∧ x'.history.broker.calls = [] ∧
          x'.history.broker.scanner = .idle ∧
          x'.stage = (if x.stage = .serving then .serving else .shut) ∧
          (x'.history.broker.wal.syncErr = false →
            ∀ call ∈ x.history.broker.owed, .returned call.request ∈ x'.history.trace)) := by
  have hb : x.history.broker.Waits :=
    Run.invariant (P := fun x => x.history.broker.Waits) (waits_start cfg)
      (fun _ _ _ hb hs => Service.waits_step hb hs) hrun
  obtain ⟨hb', hwork, hstage, hcalls⟩ := inside_of_run hb hi hrun'
  refine ⟨by omega, ?_⟩
  by_cases hd : x'.Drained
  · right
    obtain ⟨hholder, hnone, hscan, hend⟩ := hd
    refine ⟨hholder, hnone, hscan, ?_, fun herr call hc => ?_⟩
    · split_ifs with hserving
      · exact hstage.mpr hserving
      · exact hend.resolve_left (mt hstage.mp hserving)
    · obtain howed | hret | hfailed := hcalls call (Or.inl hc)
      · rw [owed_of_free hholder, hnone] at howed
        cases howed
      · exact hret
      · rw [herr] at hfailed
        cases hfailed
  · exact Or.inl (exists_internal hb' hd)

/-- The scanner has a task, a call is waiting, and the broker is closed. -/
def closedBusy : List ServiceMove := busy ++ [.close]

/-- The scanner drops its task, the call gets its sync and returns, and `Close` ends. -/
def drained : List ServiceMove :=
  [.run .lead, .run (.onTimeout none), .run .capture, .stop, .run (.fsync true), .run (.returns 0),
    .shut]

/-- The theorem at a service that is closed while it is busy. -/
theorem service_drains_closed :
    ∃ x x', Run.exec (Service.step plainCodec) (.start ⟨3, 30, 0⟩) closedBusy = some x ∧
      Run.exec (Service.step plainCodec) x drained = some x' ∧
      (x.work, x'.work, x'.stage) = (13, 0, .shut) ∧ drained.length ≤ x.work ∧
      ((∃ sm : ServiceMove, sm.Internal ∧ (x'.step plainCodec sm).isSome) ∨
        x'.history.broker.holder = none ∧ x'.history.broker.calls = [] ∧
          x'.history.broker.scanner = .idle ∧
          x'.stage = (if x.stage = .serving then .serving else .shut) ∧
          (x'.history.broker.wal.syncErr = false →
            ∀ call ∈ x.history.broker.owed, .returned call.request ∈ x'.history.trace)) := by
  have hend : ((Run.exec (Service.step plainCodec) (.start ⟨3, 30, 0⟩) closedBusy).bind fun x =>
      (Run.exec (Service.step plainCodec) x drained).map fun x' =>
        (x.work, x'.work, x'.stage)) = some (13, 0, .shut) := by
    decide +kernel
  obtain ⟨x, hrun, hend⟩ := Option.bind_eq_some_iff.mp hend
  obtain ⟨x', hrun', hend⟩ := Option.map_eq_some_iff.mp hend
  have hi : ∀ sm ∈ drained, sm.Internal := by
    simp [drained, ServiceMove.Internal, Move.Inner]
  exact ⟨x, x', hrun, hrun', hend, service_drains hrun hi hrun'⟩

end SingleNode

end DistQueue
