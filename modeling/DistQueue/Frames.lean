import Mathlib.Data.List.Basic

/-!
# Logs of framed records

A log is written as one record after the other, and read back by a function that takes a
record off the front, for as long as it can (`DistQueue.Frames.scan`). The reader is
*local* (`DistQueue.Frames.Local`): it knows a record by the record's own bytes, whatever
follows them.

Everything else comes from that. Any input is a list of records and a tail that does not
start with one (`DistQueue.Frames.exists_pieces`); a log is read back in full, and reading
goes on behind it (`DistQueue.Frames.scan_append`); and a log that is cut anywhere is read
back up to the last record before the cut (`DistQueue.Frames.scan_take`), since no proper
part of a record is a record.
-/

namespace DistQueue

namespace Frames

variable {β ε : Type}

/-- What reading one record leads to: the input is at its end, it does not start with a
record, or it does, and `rest` follows. -/
inductive Outcome (β ε : Type)
  | done
  | corrupt
  | record (e : ε) (rest : List β)

variable {read : List β → Outcome β ε}

/-- Read records until there is none; every round is to take something off the front, so
that the length of the input is fuel enough. The second component is the length of what
was read. -/
def scanLoop (read : List β → Outcome β ε) : ℕ → List β → List ε × ℕ
  | 0, _ => ([], 0)
  | fuel + 1, bs =>
    match read bs with
    | .record e rest =>
      let r := scanLoop read fuel rest
      (e :: r.1, bs.length - rest.length + r.2)
    | _ => ([], 0)

/-- **Read the whole sequence**, piece after piece: what has been read, and how many elements that
took. -/
def scan (read : List β → Outcome β ε) (bs : List β) : List ε × ℕ := scanLoop read bs.length bs

/-- The bytes `r` are a record: the reader takes them off whatever they are in front of. -/
structure IsRecord (read : List β → Outcome β ε) (r : List β) (e : ε) : Prop where
  ne_nil : r ≠ []
  read_append : ∀ rest, read (r ++ rest) = .record e rest

/-- **The reader knows a record by its own bytes.** -/
def Local (read : List β → Outcome β ε) : Prop :=
  ∀ bs e rest, read bs = .record e rest → ∃ r, bs = r ++ rest ∧ IsRecord read r e

/-- Every piece takes something. -/
theorem Local.length_lt (hl : Local read) {bs rest : List β} {e : ε}
    (h : read bs = .record e rest) : rest.length < bs.length := by
  obtain ⟨r, rfl, hr⟩ := hl bs e rest h
  have hpos := List.length_pos_iff.mpr hr.ne_nil
  rw [List.length_append]
  omega

/-- No proper part of a record is a record. -/
theorem Local.not_record_of_part (hl : Local read) {r p : List β} {e : ε} (hr : IsRecord read r e)
    (hp : p <+: r) (hne : p ≠ r) : ∀ e' rest, read p ≠ .record e' rest := by
  intro e' rest hread
  obtain ⟨q, rfl, hq⟩ := hl p e' rest hread
  obtain ⟨x, rfl⟩ := hp
  -- the shorter record would be taken off the longer one
  have hshort := hq.read_append (rest ++ x)
  have hlong := hr.read_append []
  rw [List.append_nil, List.append_assoc, hshort] at hlong
  simp only [Outcome.record.injEq, List.append_eq_nil_iff] at hlong
  exact hne (by rw [hlong.2.2, List.append_nil])

/-- More fuel changes nothing. -/
theorem scanLoop_eq_scan (hl : Local read) {fuel : ℕ} {bs : List β} (h : bs.length ≤ fuel) :
    scanLoop read fuel bs = scan read bs := by
  induction fuel using Nat.strongRecOn generalizing bs with
  | _ fuel ih =>
    unfold scan
    cases fuel with
    | zero => rw [Nat.le_zero.mp h]
    | succ fuel =>
      cases hb : bs.length with
      | zero =>
        -- nothing can be read off the empty input
        unfold scanLoop
        split
        · rename_i e rest hr
          exact absurd (hl.length_lt hr) (by omega)
        · rfl
      | succ n =>
        unfold scanLoop
        split
        · rename_i e rest hr
          have hlt := hl.length_lt hr
          rw [ih fuel (by omega) (by omega), ih n (by omega) (by omega)]
        · rfl

/-- Reading takes a record off and goes on. -/
theorem scan_record (hl : Local read) {r : List β} {e : ε} (hr : IsRecord read r e)
    (rest : List β) :
    scan read (r ++ rest) = (e :: (scan read rest).1, r.length + (scan read rest).2) := by
  have hread := hr.read_append rest
  have hlt := hl.length_lt hread
  obtain ⟨n, hn⟩ : ∃ n, (r ++ rest).length = n + 1 := ⟨(r ++ rest).length - 1, by omega⟩
  rw [scan, hn, scanLoop, hread]
  dsimp only
  rw [scanLoop_eq_scan hl (by omega), List.length_append, Nat.add_sub_cancel]

/-- Where there is no piece, nothing is read. -/
theorem scan_of_not_record {bs : List β} (h : ∀ e rest, read bs ≠ .record e rest) :
    scan read bs = ([], 0) := by
  unfold scan
  cases bs.length with
  | zero => rfl
  | succ n =>
    unfold scanLoop
    split
    · rename_i e rest hr
      exact absurd hr (h e rest)
    · rfl

/-! ### Logs -/

/-- The bytes of a log, given with each record's entry. -/
def bytes (ps : List (List β × ε)) : List β := ps.flatMap Prod.fst

/-- The entries of a log. -/
def entries (ps : List (List β × ε)) : List ε := ps.map Prod.snd

/-- Every piece of the log is a record. -/
def Written (read : List β → Outcome β ε) (ps : List (List β × ε)) : Prop :=
  ∀ p ∈ ps, IsRecord read p.1 p.2

theorem bytes_append (ps qs : List (List β × ε)) : bytes (ps ++ qs) = bytes ps ++ bytes qs :=
  List.flatMap_append

theorem bytes_mono {ps qs : List (List β × ε)} (h : ps <+: qs) : bytes ps <+: bytes qs := by
  obtain ⟨rs, rfl⟩ := h
  rw [bytes_append]
  exact List.prefix_append _ _

theorem entries_append (ps qs : List (List β × ε)) :
    entries (ps ++ qs) = entries ps ++ entries qs :=
  List.map_append

/-- Pieces that are written one after the other. -/
theorem Written.append {ps qs : List (List β × ε)} (hp : Written read ps) (hq : Written read qs) :
    Written read (ps ++ qs) :=
  fun p h => (List.mem_append.mp h).elim (hp p) (hq p)

/-- A beginning of what was written. -/
theorem Written.of_prefix {ps qs : List (List β × ε)} (h : Written read qs) (hp : ps <+: qs) :
    Written read ps :=
  fun p hmem => h p (hp.subset hmem)

/-- **A log is read back in full, and reading goes on behind it.** -/
theorem scan_append (hl : Local read) {ps : List (List β × ε)} (h : Written read ps)
    (bs : List β) :
    scan read (bytes ps ++ bs) =
      (entries ps ++ (scan read bs).1, (bytes ps).length + (scan read bs).2) := by
  induction ps with
  | nil => simp [bytes, entries]
  | cons p ps ih =>
    obtain ⟨hp, hps⟩ := List.forall_mem_cons.mp h
    have hbytes : bytes (p :: ps) ++ bs = p.1 ++ (bytes ps ++ bs) := by
      simp [bytes]
    have hlen : (bytes (p :: ps)).length = p.1.length + (bytes ps).length := by
      simp [bytes]
    rw [hbytes, hlen, scan_record hl hp, ih hps, Nat.add_assoc]
    rfl

theorem scan_nil (hl : Local read) : scan read [] = ([], 0) :=
  scan_of_not_record fun _ _ h => absurd (hl.length_lt h) (Nat.not_lt_zero _)

/-- **Any input is a log, and a tail that does not start with a record.** -/
theorem exists_pieces (hl : Local read) (bs : List β) :
    ∃ ps tail, Written read ps ∧ bs = bytes ps ++ tail ∧
      scan read bs = (entries ps, (bytes ps).length) := by
  induction hn : bs.length using Nat.strongRecOn generalizing bs with
  | _ n ih =>
    cases hread : read bs with
    | record e rest =>
      have hlt := hl.length_lt hread
      obtain ⟨r, rfl, hr⟩ := hl bs e rest hread
      obtain ⟨ps, tail, hps, hrest, hscan⟩ := ih rest.length (by omega) rest rfl
      refine ⟨(r, e) :: ps, tail, List.forall_mem_cons.mpr ⟨hr, hps⟩, ?_, ?_⟩
      · rw [hrest]
        simp [bytes]
      · rw [scan_record hl hr, hscan]
        simp [bytes, entries]
    | done | corrupt =>
      refine ⟨[], bs, fun p hp => (by cases hp), rfl, ?_⟩
      rw [scan_of_not_record (by simp [hread])]
      rfl

/-- **A log that is cut is read back up to the last record before the cut.** -/
theorem scan_take (hl : Local read) {ps : List (List β × ε)} (h : Written read ps) (c : ℕ) :
    ∃ k, scan read ((bytes ps).take c) = (entries (ps.take k), (bytes (ps.take k)).length) ∧
      (bytes (ps.take k)).length ≤ c ∧
      ∀ d ≤ ps.length, (bytes (ps.take d)).length ≤ c → d ≤ k := by
  induction ps generalizing c with
  | nil => exact ⟨0, by simp [bytes, entries, scan_nil hl], Nat.zero_le _, fun d hd _ => hd⟩
  | cons p ps ih =>
    obtain ⟨hp, hps⟩ := List.forall_mem_cons.mp h
    have hbytes : bytes (p :: ps) = p.1 ++ bytes ps := rfl
    have hpos : ∀ d, (bytes ((p :: ps).take (d + 1))).length =
        p.1.length + (bytes (ps.take d)).length := by
      intro d
      simp [bytes]
    rcases Nat.lt_or_ge c p.1.length with hlt | hge
    · -- the cut is in the first record
      refine ⟨0, ?_, Nat.zero_le _, fun d hd hc => ?_⟩
      · rw [hbytes, List.take_append_of_le_length (Nat.le_of_lt hlt), scan_of_not_record]
        · rfl
        · refine hl.not_record_of_part hp (List.take_prefix _ _) fun heq => ?_
          have hlen := congrArg List.length heq
          rw [List.length_take] at hlen
          omega
      · cases d with
        | zero => exact Nat.le_refl 0
        | succ d =>
          rw [hpos] at hc
          omega
    · obtain ⟨k, hk, hle, hmax⟩ := ih hps (c - p.1.length)
      refine ⟨k + 1, ?_, by rw [hpos]; omega, fun d hd hc => ?_⟩
      · rw [hbytes, List.take_append, List.take_of_length_le hge, scan_record hl hp, hk, hpos]
        rfl
      · cases d with
        | zero => exact Nat.zero_le _
        | succ d =>
          rw [hpos] at hc
          exact Nat.succ_le_succ (hmax d (Nat.le_of_succ_le_succ hd) (by omega))

end Frames

end DistQueue
