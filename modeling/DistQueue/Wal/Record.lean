import DistQueue.Broker.Task
import DistQueue.Frames
import Mathlib.Algebra.Order.Group.Nat

/-!
# Records of the write-ahead log

The layout of a record on disk – magic, operation, length of the payload, payload,
checksum – with the function that writes one and the function that reads one back, byte
by byte. The file as a whole is a log of framed records, and is read by
`DistQueue.Frames.scan`.

How a task is turned into bytes is not the log's business: any encoding that can be
undone will do (`DistQueue.Wal.Codec`). What is encoded is the task without the monotonic
reading of its time (`DistQueue.Broker.WrittenTask`), so that is what a record holds. The
identifier of a task is a string of bytes in the source, and goes through the same
assumption.

The writer puts no bound on a payload; the reader does (`DistQueue.Wal.maxPayload`). A
record is read back if its payload keeps to it (`DistQueue.Wal.isRecord_of_fits`).
-/

namespace DistQueue

namespace Wal

open Broker Frames

/-- A way to write tasks and identifiers as bytes. -/
structure Codec where
  encodeTask : WrittenTask → List UInt8
  decodeTask : List UInt8 → Option WrittenTask
  decode_encodeTask : ∀ t, decodeTask (encodeTask t) = some t
  encodeID : TaskID → List UInt8
  decodeID : List UInt8 → TaskID
  decode_encodeID : ∀ id, decodeID (encodeID id) = id

/-! ### Entries -/

/-- `OpEnqueue`. -/
def opEnqueue : UInt8 := 0x01
/-- `OpAck`. -/
def opAck : UInt8 := 0x02
/-- `OpNack`. -/
def opNack : UInt8 := 0x03
/-- `OpDead`. -/
def opDead : UInt8 := 0x04

/-- One record: the task of an `OpEnqueue`, or the identifier that goes with any other
operation. The reader does not check that it knows the operation. -/
inductive LogEntry
  | record (t : WrittenTask)
  | mark (op : UInt8) (taskID : TaskID) (hop : op ≠ opEnqueue)
  deriving DecidableEq

namespace LogEntry

/-- The operation. -/
def op : LogEntry → UInt8
  | record _ => opEnqueue
  | mark op _ _ => op

/-- The record of an enqueued task. -/
def enqueue (t : Task) : LogEntry := .record t.written

@[simp] theorem enqueue_val (t : WrittenTask) : enqueue t.val = .record t :=
  congrArg record t.written_val

/-- Two records are of one task, as far as it can be written. -/
theorem written_of_enqueue {t u : Task} (h : enqueue t = enqueue u) : t.written = u.written :=
  record.inj h

/-- The record of an ack. -/
def ack (id : TaskID) : LogEntry := .mark opAck id (by decide)

/-- The record of a nack. -/
def nack (id : TaskID) : LogEntry := .mark opNack id (by decide)

/-- The record of a task's move to the dead-letter queue. -/
def dead (id : TaskID) : LogEntry := .mark opDead id (by decide)

/-- The payload of a record is the whole task, or the bytes of the identifier. -/
def payload (γ : Codec) : LogEntry → List UInt8
  | record t => γ.encodeTask t
  | mark _ id _ => γ.encodeID id

end LogEntry

/-! ### Numbers and checksums -/

/-- The four bytes of a number, the most significant one first; what does not fit is
lost. -/
def appendUint32 (n : ℕ) : List UInt8 :=
  [.ofNat (n / 2 ^ 24), .ofNat (n / 2 ^ 16), .ofNat (n / 2 ^ 8), .ofNat n]

/-- Four bytes as a number, the most significant one first. -/
def uint32 (b₀ b₁ b₂ b₃ : UInt8) : ℕ :=
  ((b₀.toNat * 2 ^ 8 + b₁.toNat) * 2 ^ 8 + b₂.toNat) * 2 ^ 8 + b₃.toNat

/-- Four bytes give the number back, modulo `2^32`. -/
theorem uint32_appendUint32 (n : ℕ) :
    uint32 (.ofNat (n / 2 ^ 24)) (.ofNat (n / 2 ^ 16)) (.ofNat (n / 2 ^ 8)) (.ofNat n) =
      n % 2 ^ 32 := by
  simp only [uint32, UInt8.toNat_ofNat']
  omega

/-- One bit of the checksum, for the reversed IEEE polynomial. -/
def crcBit (c : UInt32) : UInt32 := if c &&& 1 = 1 then (c >>> 1) ^^^ 0xEDB88320 else c >>> 1

/-- One byte of the checksum. -/
def crcByte (c : UInt32) (b : UInt8) : UInt32 := crcBit^[8] (c ^^^ b.toUInt32)

/-- The CRC-32 checksum of a byte string. -/
def crc32 (bs : List UInt8) : UInt32 := ~~~(bs.foldl crcByte 0xFFFFFFFF)

example : crc32 [0x31, 0x32, 0x33, 0x34, 0x35, 0x36, 0x37, 0x38, 0x39] = 0xCBF43926 := by
  decide +kernel

/-! ### Records -/

/-- “DQWL”. -/
def walMagic : List UInt8 := [0x44, 0x51, 0x57, 0x4C]

/-- **A record**: the magic bytes, the operation, the length of the payload, the payload, and the
checksum. -/
def encodeRecord (op : UInt8) (payload : List UInt8) : List UInt8 :=
  walMagic ++ [op] ++ appendUint32 payload.length ++ payload ++
    appendUint32 (crc32 (op :: payload)).toNat

/-- The sanity cap on the length of a payload, which only the reader has. -/
def maxPayload : ℕ := 64 * 2 ^ 20

/-- The entry that a record with a good checksum stands for. A task that cannot be decoded
makes the record a corrupt one. -/
def decodeEntry (γ : Codec) (op : UInt8) (payload : List UInt8) : Option LogEntry :=
  if hop : op = opEnqueue then (γ.decodeTask payload).map .record
  else some (.mark op (γ.decodeID payload) hop)

/-- The rest of a record, after a header with the operation `op` and the length `plen`:
the payload and its checksum. -/
def readBody (γ : Codec) (op : UInt8) (plen : ℕ) (r : List UInt8) : Outcome UInt8 LogEntry :=
  match r.drop plen with
  | c₀ :: c₁ :: c₂ :: c₃ :: rest =>
    if (crc32 (op :: r.take plen)).toNat ≠ uint32 c₀ c₁ c₂ c₃ then .corrupt
    else match decodeEntry γ op (r.take plen) with
      | some e => .record e rest
      | none => .corrupt
  | _ => .corrupt

/-- Read one record. A short read in the middle of it is the mark of a torn write. -/
def readRecord (γ : Codec) : List UInt8 → Outcome UInt8 LogEntry
  | [] => .done
  | m₀ :: m₁ :: m₂ :: m₃ :: op :: l₀ :: l₁ :: l₂ :: l₃ :: r =>
    if [m₀, m₁, m₂, m₃] ≠ walMagic then .corrupt
    else if maxPayload < uint32 l₀ l₁ l₂ l₃ then .corrupt
    else readBody γ op (uint32 l₀ l₁ l₂ l₃) r
  | _ => .corrupt

/-- The bytes of an entry. -/
def encodeEntry (γ : Codec) (e : LogEntry) : List UInt8 := encodeRecord e.op (e.payload γ)

/-- Read the log from the beginning: the entries of all the records up to the first one that
is torn or corrupt, and the file, truncated there. -/
def replay (γ : Codec) (file : List UInt8) : List LogEntry × List UInt8 :=
  let r := scan (readRecord γ) file
  (r.1, file.take r.2)

/-! ### What is written is read -/

variable {γ : Codec} {e : LogEntry}

/-- The payload of the entry is within the reader's cap. -/
def LogEntry.Fits (γ : Codec) (e : LogEntry) : Prop := (e.payload γ).length ≤ maxPayload

instance (γ : Codec) (e : LogEntry) : Decidable (e.Fits γ) := inferInstanceAs (Decidable (_ ≤ _))

/-- **A payload is decoded to its entry.** -/
theorem decodeEntry_payload (γ : Codec) (e : LogEntry) :
    decodeEntry γ e.op (e.payload γ) = some e := by
  cases e with
  | record t => simp [decodeEntry, LogEntry.op, LogEntry.payload, γ.decode_encodeTask]
  | mark op id hop => simp [decodeEntry, LogEntry.op, LogEntry.payload, hop, γ.decode_encodeID]

section Layout

variable {op : UInt8} {payload : List UInt8}

theorem encodeRecord_eq (op : UInt8) (payload : List UInt8) :
    encodeRecord op payload = 0x44 :: 0x51 :: 0x57 :: 0x4C :: op ::
      .ofNat (payload.length / 2 ^ 24) :: .ofNat (payload.length / 2 ^ 16) ::
      .ofNat (payload.length / 2 ^ 8) :: .ofNat payload.length ::
      (payload ++ appendUint32 (crc32 (op :: payload)).toNat) := by
  simp [encodeRecord, walMagic, appendUint32]

/-- Reading gets past a header with a length that fits. -/
theorem readRecord_header (hcap : payload.length ≤ maxPayload) (r : List UInt8) :
    readRecord γ (0x44 :: 0x51 :: 0x57 :: 0x4C :: op ::
      .ofNat (payload.length / 2 ^ 24) :: .ofNat (payload.length / 2 ^ 16) ::
      .ofNat (payload.length / 2 ^ 8) :: .ofNat payload.length :: r) =
      readBody γ op payload.length r := by
  have hlen : payload.length % 2 ^ 32 = payload.length := by
    refine Nat.mod_eq_of_lt (lt_of_le_of_lt hcap ?_)
    decide
  rw [readRecord, uint32_appendUint32, hlen, if_neg (by simp [walMagic]),
    if_neg (Nat.not_lt.mpr hcap)]

theorem readBody_payload (γ : Codec) (op : UInt8) (payload rest : List UInt8) :
    readBody γ op payload.length
      (payload ++ appendUint32 (crc32 (op :: payload)).toNat ++ rest) =
      match decodeEntry γ op payload with
      | some e => .record e rest
      | none => .corrupt := by
  have hcrc : (crc32 (op :: payload)).toNat % 2 ^ 32 = (crc32 (op :: payload)).toNat :=
    Nat.mod_eq_of_lt (UInt32.toNat_lt _)
  rw [readBody, List.append_assoc, List.drop_left, List.take_left]
  simp only [appendUint32, List.cons_append, List.nil_append, uint32_appendUint32, hcrc,
    ne_eq, not_true_eq_false, if_false]

/-- What is read where a record has been written, if the payload is within the cap. -/
theorem readRecord_encodeRecord (hcap : payload.length ≤ maxPayload) (rest : List UInt8) :
    readRecord γ (encodeRecord op payload ++ rest) =
      match decodeEntry γ op payload with
      | some e => .record e rest
      | none => .corrupt := by
  rw [encodeRecord_eq]
  simp only [List.cons_append]
  rw [readRecord_header hcap, readBody_payload]

/-- **What is read where the payload is beyond the cap.** -/
theorem readRecord_oversized (hlong : maxPayload < payload.length)
    (hshort : payload.length < 2 ^ 32) (rest : List UInt8) :
    readRecord γ (encodeRecord op payload ++ rest) = .corrupt := by
  rw [encodeRecord_eq]
  simp only [List.cons_append]
  rw [readRecord, uint32_appendUint32, Nat.mod_eq_of_lt hshort, if_neg (by simp [walMagic]),
    if_pos hlong]

/-- **An encoded record is read back**, within the limit. -/
theorem isRecord_encodeRecord (hcap : payload.length ≤ maxPayload)
    (hdec : decodeEntry γ op payload = some e) :
    IsRecord (readRecord γ) (encodeRecord op payload) e := by
  constructor
  · rw [encodeRecord_eq]
    simp
  · intro rest
    rw [readRecord_encodeRecord hcap, hdec]

end Layout

/-- **A record that fits is read back.** -/
theorem isRecord_of_fits (hfit : e.Fits γ) : IsRecord (readRecord γ) (encodeEntry γ e) e :=
  isRecord_encodeRecord hfit (decodeEntry_payload γ e)

/-- The body is read off its own bytes. -/
theorem readBody_local {op : UInt8} {plen : ℕ} {r rest : List UInt8}
    (h : readBody γ op plen r = .record e rest) :
    ∃ q, r = q ++ rest ∧ ∀ rest', readBody γ op plen (q ++ rest') = .record e rest' := by
  unfold readBody at h
  split at h
  · rename_i c₀ c₁ c₂ c₃ rest₀ hdrop
    have hlen : (r.take plen).length = plen := by
      have hd := congrArg List.length hdrop
      simp only [List.length_drop, List.length_cons] at hd
      rw [List.length_take]
      omega
    have happ : ∀ rest', (r.take plen ++ [c₀, c₁, c₂, c₃] ++ rest').drop plen =
        c₀ :: c₁ :: c₂ :: c₃ :: rest' ∧
        (r.take plen ++ [c₀, c₁, c₂, c₃] ++ rest').take plen = r.take plen := by
      intro rest'
      rw [List.append_assoc, List.drop_left' hlen, List.take_left' hlen]
      exact ⟨rfl, rfl⟩
    split at h
    · cases h
    · rename_i hcrc
      split at h
      · rename_i e' hdec
        cases h
        refine ⟨r.take plen ++ [c₀, c₁, c₂, c₃], ?_, fun rest' => ?_⟩
        · conv_lhs => rw [← List.take_append_drop plen r, hdrop]
          simp
        · rw [readBody, (happ rest').1, (happ rest').2]
          simp only [if_neg hcrc, hdec]
      · cases h
  · cases h

/-- **The reader knows a record by its own bytes.** -/
theorem local_readRecord (γ : Codec) : Local (readRecord γ) := by
  intro bs e rest h
  unfold readRecord at h
  split at h
  · cases h
  · rename_i m₀ m₁ m₂ m₃ op l₀ l₁ l₂ l₃ r
    split at h
    · cases h
    · rename_i hmagic
      split at h
      · cases h
      · rename_i hcap
        obtain ⟨q, rfl, hq⟩ := readBody_local h
        refine ⟨m₀ :: m₁ :: m₂ :: m₃ :: op :: l₀ :: l₁ :: l₂ :: l₃ :: q, rfl, by simp, ?_⟩
        intro rest'
        simp only [List.cons_append, readRecord, if_neg hmagic, if_neg hcap, hq]
  · cases h

/-- **A record beyond the cap is not**, and nothing behind it is. -/
theorem replay_oversized {rest : List UInt8} (hlong : maxPayload < (e.payload γ).length)
    (hshort : (e.payload γ).length < 2 ^ 32) {ps : List (List UInt8 × LogEntry)}
    (hps : Written (readRecord γ) ps) :
    (replay γ (bytes ps ++ (encodeEntry γ e ++ rest))).1 = entries ps := by
  have hnone : scan (readRecord γ) (encodeEntry γ e ++ rest) = ([], 0) :=
    scan_of_not_record fun e' rest' h => by
      rw [encodeEntry, readRecord_oversized hlong hshort] at h
      cases h
  rw [replay, scan_append (local_readRecord γ) hps, hnone, List.append_nil]

/-! ### A codec to run the log with

Everything is a list of numbers, and a number is written as `255` as often as it goes into
it, followed by the rest. -/

/-- A number as bytes: the multiples of 255, and the rest. -/
def encodeNat (n : ℕ) : List UInt8 := List.replicate (n / 255) 255 ++ [.ofNat (n % 255)]

theorem length_encodeNat (n : ℕ) : (encodeNat n).length = n / 255 + 1 := by
  simp [encodeNat]

/-- The number at the beginning, and the bytes behind it. -/
def decodeNat : List UInt8 → ℕ × List UInt8
  | [] => (0, [])
  | b :: bs => if b = 255 then ((decodeNat bs).1 + 255, (decodeNat bs).2) else (b.toNat, bs)

theorem decodeNat_replicate (k : ℕ) {r : ℕ} (hr : r < 255) (bs : List UInt8) :
    decodeNat (List.replicate k 255 ++ .ofNat r :: bs) = (255 * k + r, bs) := by
  have hval : (UInt8.ofNat r).toNat = r := by
    rw [UInt8.toNat_ofNat']
    omega
  induction k with
  | zero =>
    have hne : UInt8.ofNat r ≠ 255 := by
      intro heq
      rw [heq] at hval
      exact absurd hval (Nat.ne_of_gt hr)
    simp only [List.replicate_zero, List.nil_append, decodeNat, if_neg hne, hval]
    simp
  | succ k ih =>
    rw [List.replicate_succ, List.cons_append, decodeNat, if_pos rfl, ih]
    congr 1
    omega

/-- A number is decoded to itself. -/
theorem decodeNat_encodeNat (n : ℕ) (bs : List UInt8) :
    decodeNat (encodeNat n ++ bs) = (n, bs) := by
  rw [encodeNat, List.append_assoc, List.singleton_append,
    decodeNat_replicate _ (Nat.mod_lt _ (by decide)), Nat.div_add_mod]

/-- So many numbers from the beginning. -/
def decodeMany : ℕ → List UInt8 → List ℕ × List UInt8
  | 0, bs => ([], bs)
  | k + 1, bs =>
    let r := decodeMany k (decodeNat bs).2
    ((decodeNat bs).1 :: r.1, r.2)

/-- A list of numbers, its length first. -/
def encodeNats (l : List ℕ) : List UInt8 := encodeNat l.length ++ l.flatMap encodeNat

/-- A list of numbers, with its length in front. -/
def decodeNats (bs : List UInt8) : List ℕ × List UInt8 :=
  decodeMany (decodeNat bs).1 (decodeNat bs).2

theorem decodeMany_flatMap (l : List ℕ) (bs : List UInt8) :
    decodeMany l.length (l.flatMap encodeNat ++ bs) = (l, bs) := by
  induction l with
  | nil => rfl
  | cons n l ih =>
    rw [List.flatMap_cons, List.append_assoc, List.length_cons, decodeMany, decodeNat_encodeNat, ih]

/-- So is a list of numbers. -/
theorem decodeNats_encodeNats (l : List ℕ) (bs : List UInt8) :
    decodeNats (encodeNats l ++ bs) = (l, bs) := by
  rw [decodeNats, encodeNats, List.append_assoc, decodeNat_encodeNat, decodeMany_flatMap]

/-- The number of a status. -/
def statusCode : TaskStatus → ℕ
  | .pending => 0
  | .inFlight => 1
  | .done => 2
  | .dead => 3

/-- The status of a number. -/
def statusOfCode : ℕ → TaskStatus
  | 0 => .pending
  | 1 => .inFlight
  | 2 => .done
  | _ => .dead

theorem statusOfCode_statusCode (s : TaskStatus) : statusOfCode (statusCode s) = s := by
  cases s <;> rfl

/-- The sign of an integer, as a number. -/
def signOf (i : ℤ) : ℕ := if i < 0 then 1 else 0

/-- An integer from its sign and its magnitude. -/
def ofSign (s n : ℕ) : ℤ := if s = 0 then n else -n

theorem ofSign_signOf (i : ℤ) : ofSign (signOf i) i.natAbs = i := by
  unfold ofSign signOf
  by_cases hi : i < 0
  · simp only [if_pos hi, one_ne_zero, if_false]
    omega
  · simp only [if_neg hi, if_true]
    omega

/-- The characters of an identifier, as numbers. -/
def codesOf (id : TaskID) : List ℕ := id.toList.map Char.toNat

/-- The identifier of a list of characters. -/
def ofCodes (l : List ℕ) : TaskID := String.ofList (l.map Char.ofNat)

theorem ofCodes_codesOf (id : TaskID) : ofCodes (codesOf id) = id := by
  simp [ofCodes, codesOf, Function.comp_def]

/-- The numbers of a task, but for the monotonic reading. -/
def numbersOf (t : Task) : List ℕ :=
  [signOf t.priority, t.priority.natAbs, statusCode t.status, signOf t.retryCount,
    t.retryCount.natAbs, signOf t.createdAt, t.createdAt.natAbs, signOf t.deadline,
    t.deadline.natAbs]

/-- The task of an identifier, a payload and its numbers. -/
def ofNumbers (id : TaskID) (payload : List UInt8) : List ℕ → Option WrittenTask
  | [ps, p, st, rs, r, cs, c, ds, d] => some
    ⟨{ id, payload, priority := ofSign ps p, status := statusOfCode st,
       retryCount := ofSign rs r, createdAt := ofSign cs c, deadline := ofSign ds d }, rfl⟩
  | _ => none

theorem ofNumbers_numbersOf (t : WrittenTask) :
    ofNumbers t.val.id t.val.payload (numbersOf t.val) = some t := by
  obtain ⟨⟨id, payload, priority, status, retryCount, createdAt, mono, deadline⟩, hmono⟩ := t
  cases hmono
  simp only [numbersOf, ofNumbers, ofSign_signOf, statusOfCode_statusCode]

/-- **A codec.** -/
def plainCodec : Codec where
  encodeTask t := encodeNats (codesOf t.val.id) ++
    (encodeNats (t.val.payload.map UInt8.toNat) ++ encodeNats (numbersOf t.val))
  decodeTask bs :=
    let r₁ := decodeNats bs
    let r₂ := decodeNats r₁.2
    ofNumbers (ofCodes r₁.1) (r₂.1.map UInt8.ofNat) (decodeNats r₂.2).1
  decode_encodeTask t := by
    have hnil := decodeNats_encodeNats (numbersOf t.val) []
    rw [List.append_nil] at hnil
    have hbytes : (t.val.payload.map UInt8.toNat).map UInt8.ofNat = t.val.payload := by
      simp [Function.comp_def]
    simp only [decodeNats_encodeNats, hnil, ofCodes_codesOf, hbytes, ofNumbers_numbersOf]
  encodeID id := encodeNats (codesOf id)
  decodeID bs := ofCodes (decodeNats bs).1
  decode_encodeID id := by
    have hnil := decodeNats_encodeNats (codesOf id) []
    rw [List.append_nil] at hnil
    rw [hnil, ofCodes_codesOf]

/-- How long the code of a task is whose payload is all zeros. -/
theorem length_encodeTask_zeros {t : WrittenTask} {n : ℕ}
    (h : t.val.payload = List.replicate n 0) :
    (plainCodec.encodeTask t).length =
      (encodeNats (codesOf t.val.id)).length + (n / 255 + 1 + n) +
        (encodeNats (numbersOf t.val)).length := by
  have hone : ∀ n, ((List.replicate n 0).flatMap encodeNat).length = n := by
    intro n
    simp [encodeNat]
  have hzeros : (encodeNats (t.val.payload.map UInt8.toNat)).length = n / 255 + 1 + n := by
    rw [h, List.map_replicate, encodeNats, List.length_append, List.length_replicate,
      length_encodeNat, UInt8.toNat_zero, hone]
  rw [plainCodec, List.length_append, List.length_append, hzeros, Nat.add_assoc (_ : ℕ) (_ + n)]

end Wal

end DistQueue
