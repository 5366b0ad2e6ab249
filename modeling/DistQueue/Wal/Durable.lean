import DistQueue.Wal.Log

/-!
# What a log promises

A client that waits for its record wants to know something of the log that a crash will
leave: a property of the entries that are read back. `DistQueue.Wal.Lasting` says that it
holds of every beginning of the log that keeps the first `n` bytes, and
`DistQueue.Wal.Promised` that it will be so once the client's record has been synced.

The promise is kept by every operation of the log: by an append, if the new entry does not
spoil the property, by the sections of a sync, and by a replacement of the file, if the new
entries have the property. In the end it is redeemed by a crash
(`DistQueue.Wal.Lasting.read`).
-/

namespace DistQueue

namespace Wal

open Broker Frames

variable {γ : Codec} {w w' : WAL} {es qs : List LogEntry} {e : LogEntry}
  {Q : List LogEntry → Prop} {n n' seq : ℕ}

/-! ### Files and entries -/

/-- The file that the entries are written to. -/
def image (γ : Codec) (es : List LogEntry) : List UInt8 := es.flatMap (encodeEntry γ)

theorem image_append (es qs : List LogEntry) : image γ (es ++ qs) = image γ es ++ image γ qs :=
  List.flatMap_append

/-- The records of a list of entries. -/
def records (γ : Codec) (es : List LogEntry) : List (List UInt8 × LogEntry) :=
  es.map fun e => (encodeEntry γ e, e)

theorem entries_records (γ : Codec) (es : List LogEntry) : entries (records γ es) = es := by
  simp [entries, records, Function.comp_def]

theorem bytes_records (γ : Codec) (es : List LogEntry) : bytes (records γ es) = image γ es := by
  simp [bytes, records, image, List.flatMap_map]

/-- **A file that is cut is read back up to the last record before the cut.** -/
theorem replay_take (h : ∀ e ∈ es, e.Fits γ) (c : ℕ) :
    ∃ k, (replay γ ((image γ es).take c)).1 = es.take k ∧
      ∀ rs, rs <+: es → (image γ rs).length ≤ c → rs <+: es.take k := by
  have hwritten : Written (readRecord γ) (records γ es) := by
    intro p hp
    obtain ⟨e, he, rfl⟩ := List.mem_map.mp hp
    exact isRecord_of_fits (h e he)
  obtain ⟨k, hscan, -, hmax⟩ := scan_take (local_readRecord γ) hwritten c
  rw [bytes_records, records, ← List.map_take] at hscan
  refine ⟨k, (congrArg Prod.fst hscan).trans (entries_records γ _), fun rs hrs hlen => ?_⟩
  have htake : rs = es.take rs.length := List.prefix_iff_eq_take.mp hrs
  have hk := hmax rs.length (by rw [records, List.length_map]; exact hrs.length_le)
    (by rwa [records, ← List.map_take, ← records, bytes_records, ← htake])
  rw [htake]
  exact List.take_prefix_take_left hk

/-! ### Properties that last -/

/-- **What holds of everything that may be read back**, as long as the first `n` bytes are
kept. -/
def Lasting (γ : Codec) (es : List LogEntry) (n : ℕ) (Q : List LogEntry → Prop) : Prop :=
  ∃ rs, rs <+: es ∧ (image γ rs).length ≤ n ∧ ∀ qs, rs <+: qs → qs <+: es → Q qs

theorem Lasting.mono (h : Lasting γ es n Q) (hn : n ≤ n') : Lasting γ es n' Q := by
  obtain ⟨rs, hrs, hlen, hQ⟩ := h
  exact ⟨rs, hrs, le_trans hlen hn, hQ⟩

/-- All of the log is kept. -/
theorem lasting_all (h : Q es) : Lasting γ es (image γ es).length Q := by
  refine ⟨es, List.prefix_refl _, le_rfl, fun qs hes hqs => ?_⟩
  rwa [hqs.eq_of_length_le hes.length_le]

/-- An entry is appended. -/
theorem Lasting.concat (h : Lasting γ es n Q) (hQ : Q (es ++ [e])) : Lasting γ (es ++ [e]) n Q := by
  obtain ⟨rs, hrs, hlen, hall⟩ := h
  refine ⟨rs, hrs.trans (List.prefix_append _ _), hlen, fun qs hrq hqs => ?_⟩
  obtain rfl | hqs := List.prefix_concat_iff.mp hqs
  · exact hQ
  · exact hall qs hrq hqs

/-! ### The state of the log -/

/-- The file holds the entries `es`, and no sync has failed. -/
structure Sound (γ : Codec) (w : WAL) (es : List LogEntry) : Prop where
  fits : ∀ e ∈ es, e.Fits γ
  file : w.file = image γ es
  synced_le : w.syncedSeq ≤ w.writeSeq
  covered_le : ∀ covered length, w.syncing = .fsync covered length → covered ≤ w.writeSeq
  syncErr : w.syncErr = false

/-- What a crash leaves of the log. -/
theorem Sound.read (h : Sound γ w es) (c : ℕ) :
    ∃ qs, qs <+: es ∧ (replay γ (w.file.take c)).1 = qs := by
  obtain ⟨k, hk, -⟩ := replay_take h.fits c
  rw [h.file]
  exact ⟨es.take k, List.take_prefix _ _, hk⟩

theorem Sound.replay_eq (h : Sound γ w es) : (replay γ w.file).1 = es := by
  obtain ⟨k, hk, hmax⟩ := replay_take h.fits (image γ es).length
  have hall := hmax es (List.prefix_refl _) le_rfl
  rw [h.file, ← List.take_length (l := image γ es), hk]
  exact ((List.take_prefix _ _).eq_of_length_le hall.length_le)

/-- **The property holds of what a crash leaves.** -/
theorem Lasting.read (h : Lasting γ es n Q) (hs : Sound γ w es) {c : ℕ} (hc : n ≤ c) :
    Q (replay γ (w.file.take c)).1 := by
  obtain ⟨rs, hrs, hlen, hQ⟩ := h
  obtain ⟨k, hk, hmax⟩ := replay_take hs.fits c
  rw [hs.file, hk]
  exact hQ _ (hmax rs hrs (le_trans hlen hc)) (List.take_prefix _ _)

/-- **The property will last once the record has been synced.** -/
structure Promised (γ : Codec) (w : WAL) (es : List LogEntry) (seq : ℕ)
    (Q : List LogEntry → Prop) : Prop where
  now : Q es
  seq_le : seq ≤ w.writeSeq
  synced : seq ≤ w.syncedSeq → Lasting γ es w.durable Q
  fsync : ∀ covered length, w.syncing = .fsync covered length → seq ≤ covered →
    Lasting γ es length Q

/-- **A record that fits may be appended.** -/
theorem Sound.append (h : Sound γ w es) (hfit : e.Fits γ) :
    Sound γ (w.append γ e none).1 (es ++ [e]) where
  fits := by
    intro e' he'
    obtain he' | he' := List.mem_append.mp he'
    · exact h.fits e' he'
    · rwa [List.mem_singleton.mp he']
  file := by
    rw [image_append, ← h.file]
    simp [WAL.append, WAL.appendNoSync, image, encodeEntry]
  synced_le := Nat.le_succ_of_le h.synced_le
  covered_le covered length hs := Nat.le_succ_of_le (h.covered_le covered length hs)
  syncErr := h.syncErr

/-- What the log promises it still does, with one more record. -/
theorem Promised.append (h : Promised γ w es seq Q) (hQ : Q (es ++ [e])) :
    Promised γ (w.append γ e none).1 (es ++ [e]) seq Q where
  now := hQ
  seq_le := Nat.le_succ_of_le h.seq_le
  synced hs := (h.synced hs).concat hQ
  fsync covered length hs hc := (h.fsync covered length hs hc).concat hQ

/-- The promise that goes with a new record. -/
theorem Sound.promise (h : Sound γ w es) (hQ : Q (es ++ [e])) :
    Promised γ (w.append γ e none).1 (es ++ [e]) (w.writeSeq + 1) Q where
  now := hQ
  seq_le := le_rfl
  synced hs := absurd (le_trans hs h.synced_le) (Nat.not_succ_le_self _)
  fsync covered length hs hc :=
    absurd (le_trans hc (h.covered_le covered length hs)) (Nat.not_succ_le_self _)

/-! ### The sections of a sync -/

theorem lead_eq (hw : w.lead = some w') : w' = { w with syncing := .leading } := by
  simp only [WAL.lead, Option.ite_none_right_eq_some, Option.some.injEq] at hw
  exact hw.2.symm

theorem capture_eq (hw : w.capture = some w') :
    w' = { w with syncing := .fsync w.writeSeq w.file.length } := by
  unfold WAL.capture at hw
  split at hw
  · exact (Option.some.inj hw).symm
  · cases hw

theorem fsynced_eq (hw : w.fsynced true = some w') :
    ∃ covered length, w.syncing = .fsync covered length ∧
      w' = { w with
        syncing := .idle
        syncedSeq := max w.syncedSeq covered
        durable := max w.durable length } := by
  unfold WAL.fsynced at hw
  split at hw
  · rename_i covered length hs
    exact ⟨covered, length, hs, (Option.some.inj hw).symm⟩
  · cases hw

/-- To lead changes nothing in the file. -/
theorem Sound.lead (h : Sound γ w es) (hw : w.lead = some w') : Sound γ w' es := by
  rw [lead_eq hw]
  exact ⟨h.fits, h.file, h.synced_le, fun _ _ hs => (by cases hs), h.syncErr⟩

theorem Promised.lead (h : Promised γ w es seq Q) (hw : w.lead = some w') :
    Promised γ w' es seq Q := by
  rw [lead_eq hw]
  exact ⟨h.now, h.seq_le, h.synced, fun _ _ hs => (by cases hs)⟩

/-- Nor does to look how far it goes. -/
theorem Sound.capture (h : Sound γ w es) (hw : w.capture = some w') : Sound γ w' es := by
  rw [capture_eq hw]
  refine ⟨h.fits, h.file, h.synced_le, ?_, h.syncErr⟩
  rintro covered length ⟨⟩
  exact le_rfl

/-- The goroutine that syncs the file finds all of the log. -/
theorem Promised.capture (h : Promised γ w es seq Q) (hs : Sound γ w es)
    (hw : w.capture = some w') : Promised γ w' es seq Q := by
  rw [capture_eq hw]
  refine ⟨h.now, h.seq_le, h.synced, ?_⟩
  rintro covered length ⟨⟩ -
  rw [hs.file]
  exact lasting_all h.now

/-- **`Sync` makes durable what had been captured.** -/
theorem Sound.fsynced (h : Sound γ w es) (hw : w.fsynced true = some w') : Sound γ w' es := by
  obtain ⟨covered, length, hs, rfl⟩ := fsynced_eq hw
  exact ⟨h.fits, h.file, max_le h.synced_le (h.covered_le covered length hs),
    fun _ _ hs => (by cases hs), h.syncErr⟩

/-- What the goroutine had found is durable. -/
theorem Promised.fsynced (h : Promised γ w es seq Q) (hw : w.fsynced true = some w') :
    Promised γ w' es seq Q := by
  obtain ⟨covered, length, hs, rfl⟩ := fsynced_eq hw
  refine ⟨h.now, h.seq_le, fun hle => ?_, fun _ _ hs => (by cases hs)⟩
  obtain hle | hle := le_max_iff.mp hle
  · exact (h.synced hle).mono (le_max_left _ _)
  · exact (h.fsync covered length hs hle).mono (le_max_right _ _)

/-! ### The replacement of the file -/

theorem rewrite_eq (hw : w.rewrite γ es = some w') :
    w.syncing = .idle ∧ w' =
      { w with
        file := image γ es
        durable := (image γ es).length
        entries := 0
        syncedSeq := w.writeSeq } := by
  simp only [WAL.rewrite, Option.ite_none_right_eq_some, Option.some.injEq] at hw
  exact ⟨hw.1, hw.2.symm⟩

/-- **The rewrite puts the new records in place of the old.** -/
theorem Sound.rewrite (h : Sound γ w es) (hfit : ∀ e ∈ qs, e.Fits γ)
    (hw : w.rewrite γ qs = some w') : Sound γ w' qs := by
  obtain ⟨hidle, rfl⟩ := rewrite_eq hw
  refine ⟨hfit, rfl, le_rfl, fun covered length hs => ?_, h.syncErr⟩
  rw [hidle] at hs
  cases hs

/-- The promises are kept by the new file, if it says what they are about. -/
theorem promised_rewrite (hseq : seq ≤ w.writeSeq) (hQ : Q es) (hw : w.rewrite γ es = some w') :
    Promised γ w' es seq Q := by
  obtain ⟨hidle, rfl⟩ := rewrite_eq hw
  refine ⟨hQ, hseq, fun _ => lasting_all hQ, fun covered length hs => ?_⟩
  rw [hidle] at hs
  cases hs

end Wal

end DistQueue
