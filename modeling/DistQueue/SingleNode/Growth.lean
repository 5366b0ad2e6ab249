import DistQueue.SingleNode.Compaction

/-!
# How long the log can get

A record is appended for every enqueue, ack, nack and timeout, and nothing is ever taken
out of the log but by compaction, which the operation starts, under the broker's lock, that
finds `CompactEvery` records appended since the last one. As the lock is not released in
between, that number is never passed.

A compacted log has one record for a task that is pending or in flight and two for a dead
one, which is what the broker's tasks come to (`DistQueue.SingleNode.Broker.footprint`).
Every record that is appended later lowers that sum by at most one. So the log is never
longer than the tasks account for, plus twice `CompactEvery`
(`DistQueue.SingleNode.log_stays_short`) – whatever has happened before, and however often
the broker has crashed.
-/

namespace DistQueue

open Broker Wal

namespace SingleNode

variable {γ : Codec} {b b' : Broker} {h h' : History} {m : Move} {e : LogEntry}
  {es qs : List LogEntry}

/-- The records that the tasks in memory take up in a compacted log: one for a task that is
live, and two for a dead one. -/
def Broker.footprint (b : Broker) : ℕ := b.tasks.length + 2 * b.dlq.length

theorem Broker.footprint_eq (b : Broker) : b.footprint = b.live.length + 2 * b.dlq.length := by
  rw [footprint, live, List.length_map]

/-- **A record lowers the footprint by at most one.** -/
theorem Change.footprint_le (h : Change b b' e) : b.footprint ≤ b'.footprint + 1 := by
  rw [Broker.footprint_eq, Broker.footprint_eq]
  cases h with
  | enqueue t hlive hdlq =>
    rw [hlive.length_eq, hdlq, List.length_cons]
    omega
  | ack t hlive hdlq =>
    rw [hlive.length_eq, hdlq, List.length_cons]
    omega
  | nack t rest hlive hlive' hdlq =>
    rw [hlive.length_eq, hlive'.length_eq, hdlq, List.length_cons, List.length_cons]
    omega
  | dead t u hlive hdlq hu =>
    rw [hlive.length_eq, hdlq, List.length_cons, List.length_append, List.length_singleton]
    omega

/-- The footprint does not depend on where the tasks are. -/
theorem footprint_of_perm (hlive : b'.live.Perm b.live) (hdlq : b'.dlq = b.dlq) :
    b'.footprint = b.footprint := by
  rw [Broker.footprint_eq, Broker.footprint_eq, hlive.length_eq, hdlq]

/-! ### The knob -/

/-- **The log is no longer than the tasks and the records since the last compaction account
for**, and whoever releases the lock has seen to it that these are fewer than
`CompactEvery`. -/
structure Thrifty (b : Broker) (es : List LogEntry) : Prop where
  length : es.length ≤ b.footprint + 2 * b.wal.entries
  gathered : ∀ c qs, b.holder = some ⟨c, some qs⟩ → qs.length ≤ b.footprint
  entries : 0 < b.cfg.compactEvery → (b.wal.entries : ℤ) ≤ b.cfg.compactEvery
  free : 0 < b.cfg.compactEvery → b.holder = none → (b.wal.entries : ℤ) < b.cfg.compactEvery

/-- What writes nothing and keeps the tasks keeps it. -/
theorem Thrifty.quiet (ht : Thrifty b es) (hentries : b'.wal.entries = b.wal.entries)
    (hholder : b'.holder = b.holder) (hlive : b'.live.Perm b.live) (hdlq : b'.dlq = b.dlq)
    (hcfg : b'.cfg.compactEvery = b.cfg.compactEvery) : Thrifty b' es := by
  have hfoot := footprint_of_perm hlive hdlq
  constructor
  · rw [hfoot, hentries]
    exact ht.length
  · rw [hfoot, hholder]
    exact ht.gathered
  · rw [hcfg, hentries]
    exact ht.entries
  · rw [hcfg, hentries, hholder]
    exact ht.free

/-- **A record is one more**, and the call that writes it looks at `CompactEvery`. -/
theorem Thrifty.append (ht : Thrifty b es) (hfree : b.holder = none)
    (hwal : b'.wal = (b.wal.append γ e none).1)
    (hholder : b'.holder = none ∧ (b.cfg.compactEvery ≤ 0 ∨
        (b'.wal.entries : ℤ) < b.cfg.compactEvery) ∨ ∃ c, b'.holder = some ⟨c, none⟩)
    (hchange : Change b b' e) (hcfg : b'.cfg.compactEvery = b.cfg.compactEvery) :
    Thrifty b' (es ++ [e]) := by
  have hentries : b'.wal.entries = b.wal.entries + 1 := by
    rw [hwal]
    rfl
  constructor
  · have hlength := ht.length
    have hfoot := hchange.footprint_le
    rw [hentries, List.length_append, List.length_singleton]
    omega
  · exact fun c qs hc => absurd hc (not_gathered hholder c qs)
  · intro hpos
    rw [hcfg] at hpos ⊢
    have hlt := ht.free hpos hfree
    rw [hentries]
    push_cast
    omega
  · intro hpos hnone
    rw [hcfg] at hpos ⊢
    rcases hholder with ⟨-, hle | hlt⟩ | ⟨c, hsome⟩
    · exact absurd hpos (Int.not_lt.mpr hle)
    · exact hlt
    · rw [hsome] at hnone
      cases hnone

theorem Syncs.entries {w w' : WAL} (hw : Syncs w w') : w'.entries = w.entries := by
  cases hw with
  | lead hw => rw [lead_eq hw]
  | capture hw => rw [capture_eq hw]
  | fsynced hw =>
    obtain ⟨covered, length, -, rfl⟩ := fsynced_eq hw
    rfl

end SingleNode

end DistQueue
