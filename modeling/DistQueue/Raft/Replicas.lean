import DistQueue.Raft.Labels
import DistQueue.Raft.Safety

/-!
# State machines behind the log

A cluster with a state machine at every node: it applies the commands the apply channel
delivers, restores the snapshots, and now and then hands its own state to the node as a
snapshot of the index it has got to. The state machine is any deterministic one
(`DistQueue.Raft.Machine`); a crash takes it along, and a restart begins with a fresh
one.

What it should be is *the replay of the committed commands, each once*: at index `i`, the
state that the first `i` committed commands lead to. That rests on the labels of the
snapshots. The two files of a node are written one after the other, and a crash between
the two leaves a snapshot of a later index under the label of an earlier one: the restart
restores it, and the commands in between are applied a second time
(`DistQueue.Raft.split_snapshot_replays`). In runs without such a crash, every state
machine is the replay of the committed commands up to its index, and so is every snapshot
that is delivered or shipped (`DistQueue.Raft.snapshots_replay_once`).
-/

namespace DistQueue

namespace Raft

open Consensus

variable {Blob σ : Type} [Inhabited Blob]

/-! ### State machines -/

/-- A deterministic state machine whose states can be written to a snapshot and read
back. A snapshot is not empty. -/
structure Machine (Blob σ : Type) [Inhabited Blob] where
  init : σ
  apply : σ → Blob → σ
  encode : σ → Blob
  decode : Blob → Option σ
  decode_encode : ∀ s, decode (encode s) = some s
  encode_ne : ∀ s, encode s ≠ default

/-- The state that a list of entries leads to. -/
def Machine.replay (X : Machine Blob σ) (P : List (LogEntry Blob)) : σ :=
  P.foldl (fun s e => X.apply s e.command) X.init

/-- Replay applies the last entry last. -/
@[simp] theorem Machine.replay_concat (X : Machine Blob σ) (P : List (LogEntry Blob))
    (e : LogEntry Blob) : X.replay (P ++ [e]) = X.apply (X.replay P) e.command := by
  simp [replay]

/-- The state machine of a node: how many messages of the channel it has taken, its
state, and the index it has got to. -/
structure Consumer (σ : Type) where
  position : ℕ
  state : σ
  index : ℕ

/-- A consumer that has consumed nothing. -/
def Machine.fresh (X : Machine Blob σ) : Consumer σ := ⟨0, X.init, 0⟩

/-- Take the next message. A snapshot that cannot be read back panics. -/
def Machine.take (X : Machine Blob σ) (c : Consumer σ) : ApplyMsg Blob → Option (Consumer σ)
  | .command command index _ => some ⟨c.position + 1, X.apply c.state command, index⟩
  | .snapshot msg => (X.decode msg.data).map fun s => ⟨c.position + 1, s, msg.index⟩

/-! ### The cluster with its state machines -/

/-- The cluster, the state machine of every node, and the actions of the cluster so
far. -/
structure Replicas (Blob σ : Type) where
  world : World Blob
  consumer : NodeID → Consumer σ
  trace : List (Action Blob)

/-- What happens next: an action of the cluster, a state machine takes a message, or a
state machine hands over a snapshot – which may crash after the first `k` writes. -/
inductive Move (Blob : Type) where
  | act (x : Action Blob)
  | consume (n : NodeID)
  | compact (n : NodeID)
  | compactCrash (n : NodeID) (k : ℕ)

/-- Whether the event hands a snapshot to a node. -/
def Event.isSnapshot : Event Blob → Bool
  | .trigger _ (.snapshot _ _) => true
  | _ => false

/-- The action is the call of `Snapshot` on a node. -/
def Action.isSnapshot : Action Blob → Bool
  | .run e | .crashIn e _ => e.isSnapshot
  | .crash _ => false

namespace Replicas

/-- The snapshot that the state machine of a node hands over. -/
def snapshotOf (X : Machine Blob σ) (s : Replicas Blob σ) (n : NodeID) : Event Blob :=
  .trigger n (.snapshot (s.consumer n).index (X.encode (s.consumer n).state))

/-- The action of the cluster that a move is. Snapshots come from the state machines
only. -/
def action (X : Machine Blob σ) (s : Replicas Blob σ) : Move Blob → Option (Action Blob)
  | .act x => if x.isSnapshot then none else some x
  | .consume _ => none
  | .compact n => some (.run (s.snapshotOf X n))
  | .compactCrash n k => some (.crashIn (s.snapshotOf X n) k)

/-- The state machines after an action: that of a crashed node starts anew. -/
def restarted (X : Machine Blob σ) (M : Membership) (s : Replicas Blob σ) (x : Action Blob) :
    NodeID → Consumer σ :=
  match crashed M s.world x with
  | some n => Function.update s.consumer n X.fresh
  | none => s.consumer

variable [DecidableEq Blob]

/-- An action of the cluster. -/
def perform (X : Machine Blob σ) (M : Membership) (s : Replicas Blob σ) (x : Action Blob) :
    Option (Replicas Blob σ) :=
  (Raft.step M s.world x).map fun w =>
    { world := w, consumer := s.restarted X M x, trace := s.trace ++ [x] }

/-- A state machine takes the next message of its channel. -/
def consume (X : Machine Blob σ) (s : Replicas Blob σ) (n : NodeID) : Option (Replicas Blob σ) := do
  let msg ← (s.world.nodes n).applyCh[(s.consumer n).position]?
  let c ← X.take (s.consumer n) msg
  return { s with consumer := Function.update s.consumer n c }

/-- **One step of the replicated machine**: a message is consumed, or the cluster acts. -/
def step (X : Machine Blob σ) (M : Membership) (s : Replicas Blob σ) (x : Move Blob) :
    Option (Replicas Blob σ) :=
  match x with
  | .consume n => s.consume X n
  | x => (s.action X x).bind (s.perform X M)

/-- The cluster starts, and with it a fresh consumer on every node. -/
def start (X : Machine Blob σ) (M : Membership) : Replicas Blob σ :=
  ⟨Raft.start M, fun _ => X.fresh, []⟩

/-- The move does not crash between the two writes of a snapshot. -/
def WritesWhole (X : Machine Blob σ) (M : Membership) (s : Replicas Blob σ) (x : Move Blob) :
    Prop :=
  ∀ y ∈ s.action X x, splits M s.world y = false

instance (X : Machine Blob σ) (M : Membership) (s : Replicas Blob σ) (x : Move Blob) :
    Decidable (s.WritesWhole X M x) :=
  inferInstanceAs (Decidable (∀ y ∈ s.action X x, _))

end Replicas

/-! ### Replays -/

section Replays

variable {X : Machine Blob σ} {a a' : Ledger NodeID (LogEntry Blob)} {M : Membership}

/-- `P` has been decided. -/
def Past (a : Ledger NodeID (LogEntry Blob)) (P : List (LogEntry Blob)) : Prop := ∃ t, Chosen a t P

/-- **The snapshot shows the state at its index.** -/
def Pictured (X : Machine Blob σ) (a : Ledger NodeID (LogEntry Blob)) (i : ℕ) (data : Blob) :
    Prop :=
  ∃ P, Past a P ∧ P.length = i ∧ data = X.encode (X.replay P)

omit [Inhabited Blob] in
theorem Past.mono {P : List (LogEntry Blob)} (h : Past a P) (hle : Le a a') : Past a' P := by
  obtain ⟨t, ht⟩ := h
  exact ⟨t, ht.mono hle⟩

theorem Pictured.mono {i : ℕ} {data : Blob} (h : Pictured X a i data) (hle : Le a a') :
    Pictured X a' i data := by
  obtain ⟨P, hP, hdata⟩ := h
  exact ⟨P, hP.mono hle, hdata⟩

/-- A picture is not the empty snapshot. -/
theorem Pictured.ne_default {i : ℕ} {data : Blob} (h : Pictured X a i data) : data ≠ default := by
  obtain ⟨P, -, -, rfl⟩ := h
  exact X.encode_ne _

omit [Inhabited Blob] in
/-- The next decided entry. -/
theorem Past.concat (hgood : Good M a) {P : List (LogEntry Blob)} {e : LogEntry Blob}
    (h : Past a P) (he : Settled a P.length e) : Past a (P ++ [e]) := by
  obtain ⟨t, ht⟩ := h
  obtain ⟨t', P', hP', hi⟩ := he
  have hlt : P.length < P'.length := (List.getElem?_eq_some_iff.mp hi).1
  have hpre : P <+: P' := by
    rcases ht.comparable hgood.inv hP' with hp | hp
    · exact hp
    · exact absurd hp.length_le (by omega)
  refine ⟨t', hP'.prefix_closed ?_⟩
  have htake : P'.take (P.length + 1) = P ++ [e] := by
    rw [List.take_add_one, hi, ← List.prefix_iff_eq_take.mp hpre]
    rfl
  rw [← htake]
  exact List.take_prefix _ _

omit [Inhabited Blob] in
/-- What is decided up to an entry is what the leader of its term had up to there. -/
theorem Past.prefix_lead (hgood : Good M a) {P L : List (LogEntry Blob)} {e : LogEntry Blob}
    {c : NodeID} (h : Past a (P ++ [e])) (hL : a.lead e.term = some (c, L)) : P ++ [e] <+: L := by
  obtain ⟨t, hP | ⟨t', c', L', -, hL', hp⟩⟩ := h
  · simp at hP
  · have hpL' := hp.trans (List.take_prefix _ _)
    have hk := prefix_getElem?_some hpL' (List.getElem?_concat_length (l := P) (a := e))
    obtain ⟨c'', L'', hL'', htake⟩ := hgood.inv.lead_sound hL' _ _ hk
    obtain ⟨-, rfl⟩ := Prod.mk.inj (Option.some.inj (hL.symm.trans hL''))
    refine List.IsPrefix.trans ?_ htake
    rw [List.prefix_take_iff]
    exact ⟨hpL', by simp⟩

/-- **A state machine is the replay of what was decided up to its index**, which is the
index its channel has brought it to. -/
structure Replays (X : Machine Blob σ) (a : Ledger NodeID (LogEntry Blob))
    (ch : List (ApplyMsg Blob)) (c : Consumer σ) : Prop where
  position_le : c.position ≤ ch.length
  index_eq : c.index = progress (ch.take c.position)
  state_eq : ∃ P, Past a P ∧ P.length = c.index ∧ c.state = X.replay P

theorem replays_fresh (X : Machine Blob σ) (a : Ledger NodeID (LogEntry Blob))
    (ch : List (ApplyMsg Blob)) : Replays X a ch X.fresh :=
  ⟨Nat.zero_le _, rfl, [], ⟨0, chosen_nil a 0⟩, rfl, rfl⟩

theorem Replays.mono {ch ch' : List (ApplyMsg Blob)} {c : Consumer σ} (h : Replays X a ch c)
    (hle : Le a a') (hch : ch <+: ch') : Replays X a' ch' c := by
  obtain ⟨P, hP, hlen, hstate⟩ := h.state_eq
  refine ⟨le_trans h.position_le hch.length_le, ?_, P, hP.mono hle, hlen, hstate⟩
  rw [h.index_eq, prefix_take_eq hch h.position_le]

/-- The next message. -/
theorem Replays.take {nd : Node Blob} {n : NodeID} {c c' : Consumer σ} {msg : ApplyMsg Blob}
    (hgood : Good M a) (himpl : Implements M a n nd) (hcar : Carries (Pictured X a) nd)
    (h : Replays X a nd.applyCh c) (hmsg : nd.applyCh[c.position]? = some msg)
    (hc : X.take c msg = some c') : Replays X a nd.applyCh c' := by
  have hlt : c.position < nd.applyCh.length := (List.getElem?_eq_some_iff.mp hmsg).1
  have hmem := List.mem_of_getElem? hmsg
  cases msg with
  | command command index term =>
    cases hc
    have hnext : index = c.index + 1 := by
      rw [h.index_eq]
      exact hcar.delivers.contiguous.next hmsg
    obtain ⟨P, hP, hlen, hstate⟩ := h.state_eq
    have hset := (himpl.sent command index term hmem).2
    rw [hnext, Nat.add_sub_cancel, ← hlen] at hset
    refine ⟨hlt, (progress_take_succ hmsg).symm, _, hP.concat hgood hset, ?_, ?_⟩
    · rw [List.length_append, hlen, hnext]
      rfl
    · rw [X.replay_concat, hstate]
  | snapshot msg =>
    obtain ⟨s, hs, rfl⟩ := Option.map_eq_some_iff.mp hc
    obtain ⟨P, hP, hlen, hdata⟩ := hcar.sent msg hmem
    rw [hdata, X.decode_encode] at hs
    exact ⟨hlt, (progress_take_succ hmsg).symm, P, hP, hlen, (Option.some.inj hs).symm⟩

end Replays

/-! ### Runs -/

variable [DecidableEq Blob] {X : Machine Blob σ} {M : Membership} {s s' : Replicas Blob σ}

/-- **The invariant**: the snapshots show the state at their index, and every state
machine is the replay up to its own. -/
def Faithful (X : Machine Blob σ) (M : Membership) (s : Replicas Blob σ) : Prop :=
  ∃ a, Traced M s.trace s.world a ∧ Labelled M (Pictured X a) s.world ∧
    ∀ n ∈ M.ids, Replays X a (s.world.nodes n).applyCh (s.consumer n)

theorem faithful_start : Faithful X M (Replicas.start X M) := by
  obtain ⟨a, ha⟩ : ∃ a, Traced M [] (start M : World Blob) a := traced_start
  exact ⟨a, ha, labelled_start fun _ _ h => h.ne_default, fun n _ => replays_fresh X a _⟩

/-- A state machine takes a message. -/
theorem Faithful.consume (h : Faithful X M s) {n : NodeID} (hs : s.consume X n = some s') :
    Faithful X M s' := by
  obtain ⟨a, htraced, hlab, hrep⟩ := h
  obtain ⟨msg, hmsg, hs⟩ := Option.bind_eq_some_iff.mp hs
  obtain ⟨c, hc, hs⟩ := Option.bind_eq_some_iff.mp hs
  cases hs
  refine ⟨a, htraced, hlab, fun m hm => ?_⟩
  rcases eq_or_ne m n with rfl | hne
  · simp only [Function.update_self]
    exact (hrep m hm).take htraced.sim.good (htraced.sim.node m hm).impl (hlab.node m hm) hmsg hc
  · simp only [Function.update_of_ne hne]
    exact hrep m hm

/-- The cluster acts. -/
theorem Faithful.perform (h : Faithful X M s) {x : Action Blob}
    (hQ : ∀ a, (∀ n ∈ M.ids, Replays X a (s.world.nodes n).applyCh (s.consumer n)) →
      x.Supplies (Pictured X a))
    (hwhole : splits M s.world x = false) (hs : s.perform X M x = some s') : Faithful X M s' := by
  obtain ⟨a, htraced, hlab, hrep⟩ := h
  obtain ⟨w, hw, rfl⟩ := Option.map_eq_some_iff.mp hs
  obtain ⟨a', hle, htraced'⟩ := htraced.step hw
  have hlab' := hlab.mono fun i data h => h.mono hle
  have hrep' : ∀ n ∈ M.ids, Replays X a' (s.world.nodes n).applyCh (s.consumer n) :=
    fun n hn => (hrep n hn).mono hle (List.prefix_refl _)
  refine ⟨a', htraced', hlab'.step htraced.sim (fun _ _ h => h.ne_default) (hQ a' hrep') ?_ hw,
    fun n hn => ?_⟩
  · rw [hwhole]
    intro hsplit
    cases hsplit
  · -- a crashed node starts with a fresh state machine, and the other channels only grow
    have hgrow : crashed M s.world x ≠ some n → Replays X a' (w.nodes n).applyCh (s.consumer n) :=
      fun hc => (hrep' n hn).mono (Le.refl a')
        (hlab'.applyCh_prefix htraced.sim (hQ a' hrep') hw hc)
    simp only [Replicas.restarted]
    cases hc : crashed M s.world x with
    | none => exact hgrow (by rw [hc]; simp)
    | some m =>
      rcases eq_or_ne n m with rfl | hne
      · simp only [Function.update_self]
        exact replays_fresh X a' _
      · simp only [Function.update_of_ne hne]
        exact hgrow (by rw [hc]; simpa using hne.symm)

omit [DecidableEq Blob] in
/-- The snapshot of a state machine shows the state at its index. -/
theorem Replays.supplies {a : Ledger NodeID (LogEntry Blob)} {n : NodeID}
    {ch : List (ApplyMsg Blob)} (h : Replays X a ch (s.consumer n)) :
    (s.snapshotOf X n).Supplies (Pictured X a) := by
  obtain ⟨P, hP, hlen, hstate⟩ := h.state_eq
  exact ⟨P, hP, hlen, by rw [hstate]⟩

omit [DecidableEq Blob] [Inhabited Blob] in
/-- Only compaction supplies a snapshot. -/
theorem supplies_of_not_isSnapshot {Q : ℕ → Blob → Prop} {x : Action Blob}
    (h : x.isSnapshot = false) : x.Supplies Q := by
  cases x with
  | crash n => trivial
  | run e | crashIn e k =>
    cases e with
    | deliver k | answer j => trivial
    | trigger n t =>
      cases t with
      | snapshot index data => cases h
      | _ => trivial

/-- Only members have nodes that act. -/
theorem mem_of_perform_snapshot {n : NodeID} {k : ℕ} {y : Action Blob}
    (hy : y = .run (s.snapshotOf X n) ∨ y = .crashIn (s.snapshotOf X n) k)
    (hs : s.perform X M y = some s') : n ∈ M.ids := by
  by_contra hn
  rcases hy with rfl | rfl <;>
    simp [Replicas.perform, Raft.step, Replicas.snapshotOf, effect, hn] at hs

/-- **Every move keeps the replicas faithful**, if snapshots are written whole. -/
theorem Faithful.step {x : Move Blob} (h : Faithful X M s) (hx : s.WritesWhole X M x)
    (hs : s.step X M x = some s') : Faithful X M s' := by
  cases x with
  | consume n => exact h.consume hs
  | act y =>
    obtain ⟨y, hy, hs⟩ := Option.bind_eq_some_iff.mp hs
    refine h.perform (fun a _ => ?_) (hx y hy) hs
    simp only [Replicas.action, Option.ite_none_left_eq_some, Option.some.injEq] at hy
    obtain ⟨hsnap, rfl⟩ := hy
    exact supplies_of_not_isSnapshot (Bool.not_eq_true _ ▸ hsnap)
  | compact n =>
    have hs : s.perform X M (.run (s.snapshotOf X n)) = some s' := hs
    have hn := mem_of_perform_snapshot (k := 0) (.inl rfl) hs
    refine h.perform (fun a ha => ?_) (hx _ rfl) hs
    exact (ha n hn).supplies
  | compactCrash n k =>
    have hs : s.perform X M (.crashIn (s.snapshotOf X n) k) = some s' := hs
    have hn := mem_of_perform_snapshot (.inr rfl) hs
    refine h.perform (fun a ha => ?_) (hx _ rfl) hs
    exact (ha n hn).supplies

/-! ### Snapshots and the committed commands -/

/-- `P` lists the first committed entries of the run. -/
def CommittedPrefix (M : Membership) (as : List (Action Blob)) (P : List (LogEntry Blob)) : Prop :=
  ∀ k e, P[k]? = some e → ∃ t, CommittedIn M as t (k + 1) e

/-- What is past is a prefix of what was committed in the run. -/
theorem Traced.committedPrefix {as : List (Action Blob)} {w : World Blob}
    {a : Ledger NodeID (LogEntry Blob)} (h : Traced M as w a) {P : List (LogEntry Blob)}
    (hP : Past a P) : CommittedPrefix M as P := by
  intro k e he
  obtain ⟨t, ht⟩ := hP
  obtain ⟨t', -, hc⟩ := h.committed ht he
  exact ⟨t', hc⟩

/-- The trace of a state is the run of the cluster that led to it. -/
theorem run_trace {moves : List (Move Blob)}
    (h : Run.exec (Replicas.step X M) (Replicas.start X M) moves = some s) :
    run M s.trace = some s.world := by
  refine Run.invariant (P := fun s : Replicas Blob σ => run M s.trace = some s.world) rfl ?_ h
  intro u x u' hu hs
  have hperform : ∀ y, u.perform X M y = some u' → run M u'.trace = some u'.world := by
    intro y hy
    obtain ⟨w, hw, rfl⟩ := Option.map_eq_some_iff.mp hy
    exact Run.exec_snoc.mpr ⟨_, hu, hw⟩
  cases x with
  | consume n =>
    obtain ⟨msg, -, hs⟩ := Option.bind_eq_some_iff.mp hs
    obtain ⟨c, -, hs⟩ := Option.bind_eq_some_iff.mp hs
    cases hs
    exact hu
  | act y =>
    obtain ⟨y, -, hs⟩ := Option.bind_eq_some_iff.mp hs
    exact hperform y hs
  | compact n => exact hperform (.run (u.snapshotOf X n)) hs
  | compactCrash n k => exact hperform (.crashIn (u.snapshotOf X n) k) hs

/-- **Snapshots replay every committed command once.** In a run without a crash between
the two writes of a snapshot, a snapshot that is delivered, or shipped to another node,
with index `i` is the state that the first `i` committed commands lead to; and every
state machine, restored and fed from the channel as it may be, is the state that the
committed commands up to its index lead to. -/
theorem snapshots_replay_once {moves : List (Move Blob)}
    (hwhole : Run.Guarded (Replicas.step X M) (Replicas.WritesWhole X M) (Replicas.start X M) moves)
    (h : Run.exec (Replicas.step X M) (Replicas.start X M) moves = some s) :
    (∀ n ∈ M.ids, ∀ msg, .snapshot msg ∈ (s.world.nodes n).applyCh →
      ∃ P, CommittedPrefix M s.trace P ∧ P.length = msg.index ∧ msg.data = X.encode (X.replay P)) ∧
    (∀ n ∈ M.ids, ∃ P, CommittedPrefix M s.trace P ∧ P.length = (s.consumer n).index ∧
      (s.consumer n).state = X.replay P) ∧
    ∀ c ∈ s.world.calls, ∀ args, c.request = .installSnapshot args →
      ∃ P, CommittedPrefix M s.trace P ∧ P.length = args.lastIncludedIndex ∧
        args.data = X.encode (X.replay P) := by
  obtain ⟨a, htraced, hlab, hrep⟩ :=
    Run.invariant_of_guarded faithful_start (fun u x u' => Faithful.step) hwhole h
  refine ⟨fun n hn msg hmsg => ?_, fun n hn => ?_, fun c hc args hargs => ?_⟩
  · obtain ⟨P, hP, hpic⟩ := (hlab.node n hn).sent msg hmsg
    exact ⟨P, htraced.committedPrefix hP, hpic⟩
  · obtain ⟨P, hP, hstate⟩ := (hrep n hn).state_eq
    exact ⟨P, htraced.committedPrefix hP, hstate⟩
  · obtain ⟨P, hP, hpic⟩ := hlab.call c hc args hargs
    exact ⟨P, htraced.committedPrefix hP, hpic⟩

/-! ### A run to read it on

A machine that adds up its commands. Node `a` wins an election with the vote of `b`,
replicates the command `5` and commits it, and its state machine takes both entries. -/

/-- The sum of the commands; a snapshot is the successor of the sum. -/
def adder : Machine ℕ ℕ where
  init := 0
  apply := (· + ·)
  encode := Nat.succ
  decode := fun n => if n = 0 then none else some (n - 1)
  decode_encode := fun _ => rfl
  encode_ne := Nat.succ_ne_zero

/-- Actions of the cluster, as moves. -/
def acts (as : List (Action ℕ)) : List (Move ℕ) := as.map .act

/-- The state machine of `a` has taken the no-op and the command. -/
def commitFive : List (Move ℕ) :=
  acts (electionOf "a" 0 0 ++ [.run (.trigger "a" (.propose 5))] ++ replicationTo "a" "b" 2 1 ++
    applyTwo "a") ++ [.consume "a", .consume "a", .act (.run (.trigger "a" .applierAdvance))]

/-- After a restart, `a` delivers its snapshot, wins another election and commits again. -/
def rejoin : List (Move ℕ) :=
  acts [.run (.trigger "a" .applierTake), .run (.trigger "a" .applierSend)] ++ [.consume "a"] ++
    acts (electionOf "a" 3 2 ++ replicationTo "a" "b" 5 3 ++ applyTwo "a") ++ [.consume "a"]

/-- The run in which `a` crashes after the snapshot has been written as a whole. -/
def wholeSnapshot : List (Move ℕ) := commitFive ++ [.compact "a", .act (.crash "a")] ++ rejoin

/-- The run in which `a` crashes between the two writes. -/
def splitSnapshot : List (Move ℕ) := commitFive ++ [.compactCrash "a" 1] ++ rejoin ++ [.consume "a"]

/-- The theorem at a run with a restart. -/
theorem snapshots_replay_once_restart :
    ∃ s, Run.exec (Replicas.step adder threeNodes) (Replicas.start adder threeNodes)
        wholeSnapshot = some s ∧
      ∃ P, CommittedPrefix threeNodes s.trace P ∧ P.length = 3 ∧ adder.replay P = 5 := by
  have hend : (Run.exec (Replicas.step adder threeNodes) (Replicas.start adder threeNodes)
      wholeSnapshot).map (fun s => ((s.consumer "a").index, (s.consumer "a").state)) =
      some (3, 5) := by
    decide +kernel
  obtain ⟨s, hs, hend⟩ := Option.map_eq_some_iff.mp hend
  obtain ⟨hindex, hstate⟩ := Prod.mk.inj hend
  have hwhole : Run.Guarded (Replicas.step adder threeNodes)
      (Replicas.WritesWhole adder threeNodes) (Replicas.start adder threeNodes) wholeSnapshot := by
    decide +kernel
  obtain ⟨-, hreplay, -⟩ := snapshots_replay_once hwhole hs
  obtain ⟨P, hP, hlen, heq⟩ := hreplay "a" (by decide)
  exact ⟨s, hs, P, hP, hlen.trans hindex, heq.symm.trans hstate⟩

/-- **A snapshot that was written by half is replayed twice.** The snapshot of index 2 is
delivered with index 0 after the restart, and the command is added to it once more: at
index 2 the sum is 10, where the two committed commands sum up to 5. -/
theorem split_snapshot_replays :
    ∃ s, Run.exec (Replicas.step adder threeNodes) (Replicas.start adder threeNodes)
        splitSnapshot = some s ∧
      (∃ msg, .snapshot msg ∈ (s.world.nodes "a").applyCh ∧
        ∀ P, P.length = msg.index → msg.data ≠ adder.encode (adder.replay P)) ∧
      (s.consumer "a").index = 2 ∧ (s.consumer "a").state = 10 ∧
      ∀ P, CommittedPrefix threeNodes s.trace P → P.length = 2 → adder.replay P = 5 := by
  have hend : (Run.exec (Replicas.step adder threeNodes) (Replicas.start adder threeNodes)
      splitSnapshot).map (fun s => ((s.world.nodes "a").applyCh, (s.consumer "a").index,
        (s.consumer "a").state)) =
      some ([.snapshot ⟨6, 0, 0⟩, .command 0 1 1, .command 5 2 1], 2, 10) := by
    decide +kernel
  obtain ⟨s, hs, hend⟩ := Option.map_eq_some_iff.mp hend
  simp only [Prod.mk.injEq] at hend
  obtain ⟨hch, hindex, hstate⟩ := hend
  refine ⟨s, hs, ⟨⟨6, 0, 0⟩, by simp [hch], ?_⟩, hindex, hstate, fun P hP hlen => ?_⟩
  · intro P hlen
    rw [List.length_eq_zero_iff.mp hlen]
    decide
  · obtain ⟨a, ha⟩ := exists_traced (run_trace hs)
    obtain ⟨e₁, e₂, rfl⟩ := List.length_eq_two.mp hlen
    obtain ⟨t₁, h₁⟩ := hP 0 e₁ rfl
    obtain ⟨t₂, h₂⟩ := hP 1 e₂ rfl
    have hm₁ : ApplyMsg.command 0 1 1 ∈ (s.world.nodes "a").applyCh := by simp [hch]
    have hm₂ : ApplyMsg.command 5 2 1 ∈ (s.world.nodes "a").applyCh := by simp [hch]
    rw [ha.eq_of_delivered (by decide) hm₁ h₁, ha.eq_of_delivered (by decide) hm₂ h₂]
    rfl

end Raft

end DistQueue
