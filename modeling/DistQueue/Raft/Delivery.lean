import DistQueue.Raft.Simulation.Cluster

/-!
# What the apply channel delivers

The state machine of a node sees nothing but the messages of the apply channel. It can
rely on their **order**: a command follows the message before it, in that its index is
the next one after that of the previous command, or of the previous snapshot
(`DistQueue.Raft.Contiguous`).

The applier and the snapshot that waits for it have to keep in line for this
(`DistQueue.Raft.Delivers`): entries that the log no longer holds are in a snapshot that
is delivered first. Most sections have no part in it (`DistQueue.Raft.Quiet`); those
that have are the applier's own, which this file goes through, and the two that replace
the snapshot, which `DistQueue.Raft.Labels` does. Along with the order goes a property
`Q` of an index and a snapshot, which holds of everything a node carries
(`DistQueue.Raft.Carries`).
-/

namespace DistQueue

namespace Raft

open Consensus

variable {Blob : Type}

/-! ### The channel -/

/-- The index a message brings its reader to. -/
def ApplyMsg.index : ApplyMsg Blob → ℕ
  | .command _ index _ => index
  | .snapshot msg => msg.index

/-- The index the messages of a channel bring their reader to. -/
def progress (msgs : List (ApplyMsg Blob)) : ℕ := (msgs.getLast?.map ApplyMsg.index).getD 0

@[simp] theorem progress_nil : progress ([] : List (ApplyMsg Blob)) = 0 := rfl

/-- The last message says how far the channel has got. -/
@[simp] theorem progress_concat (msgs : List (ApplyMsg Blob)) (msg : ApplyMsg Blob) :
    progress (msgs ++ [msg]) = msg.index := by
  simp [progress]

/-- Every command is the next one. -/
def Contiguous (msgs : List (ApplyMsg Blob)) : Prop :=
  ∀ (pre : List (ApplyMsg Blob)) (command : Blob) (index term : ℕ),
    pre ++ [.command command index term] <+: msgs → index = progress pre + 1

theorem contiguous_nil : Contiguous ([] : List (ApplyMsg Blob)) := by
  intro pre command index term h
  simp at h

/-- A command that is next may be sent. -/
theorem Contiguous.concat {msgs : List (ApplyMsg Blob)} {msg : ApplyMsg Blob}
    (h : Contiguous msgs) (hmsg : ∀ command index term, msg = .command command index term →
      index = progress msgs + 1) : Contiguous (msgs ++ [msg]) := by
  intro pre command index term hp
  rcases List.prefix_concat_iff.mp hp with heq | hp
  · obtain ⟨rfl, hlast⟩ := List.append_inj' heq rfl
    exact hmsg command index term (List.singleton_inj.mp hlast).symm
  · exact h pre command index term hp

/-- The message at a position takes up where the messages before it end. -/
theorem Contiguous.next {msgs : List (ApplyMsg Blob)} (h : Contiguous msgs) {k index term : ℕ}
    {command : Blob} (hk : msgs[k]? = some (.command command index term)) :
    index = progress (msgs.take k) + 1 := by
  refine h (msgs.take k) command index term ?_
  have htake : msgs.take (k + 1) = msgs.take k ++ [.command command index term] := by
    rw [List.take_add_one, hk]
    rfl
  rw [← htake]
  exact List.take_prefix _ _

/-- With a message the receiver gets to its index. -/
theorem progress_take_succ {msgs : List (ApplyMsg Blob)} {k : ℕ} {msg : ApplyMsg Blob}
    (hk : msgs[k]? = some msg) : progress (msgs.take (k + 1)) = msg.index := by
  rw [List.take_add_one, hk]
  exact progress_concat _ _

/-! ### The applier -/

/-- The entries are numbered on from `k`. -/
def Consecutive (k : ℕ) : List (LogEntry Blob) → Prop
  | [] => True
  | e :: es => e.index = k + 1 ∧ Consecutive (k + 1) es

/-- What the applier is about to do goes with what it has done. -/
def InLine (nd : Node Blob) : Prop :=
  match nd.applier with
  | .waiting => nd.pendingSnapshot = none → progress nd.applyCh = nd.lastApplied
  | .snapshot msg => msg.index = nd.lastApplied
  | .sending batch => progress nd.applyCh = nd.lastApplied ∧ Consecutive nd.lastApplied batch
  | .sent e batch => progress nd.applyCh = e.index ∧ e.index = nd.lastApplied + 1 ∧
      Consecutive e.index batch

/-- **A node delivers in order.** What the log has compacted away has been applied, or is
in the snapshot that comes next. -/
structure Delivers (nd : Node Blob) : Prop where
  contiguous : Contiguous nd.applyCh
  inLine : InLine nd
  pending : ∀ msg, nd.pendingSnapshot = some msg → nd.log.firstIndex = msg.index ∧
    nd.lastApplied ≤ msg.index ∧ ∀ e ∈ nd.applier.entries, e.index ≤ msg.index
  first : nd.pendingSnapshot = none → nd.log.firstIndex ≤ nd.lastApplied

/-- **The snapshots of a node are labelled.** -/
structure Carries (Q : ℕ → Blob → Prop) (nd : Node Blob) : Prop where
  delivers : Delivers nd
  snapshot : ∀ data, nd.snapshot = some data → Q nd.log.firstIndex data
  pending : ∀ msg, nd.pendingSnapshot = some msg → Q msg.index msg.data
  taken : ∀ msg, nd.applier = .snapshot msg → Q msg.index msg.data
  sent : ∀ msg, .snapshot msg ∈ nd.applyCh → Q msg.index msg.data

/-! ### Sections that leave the delivery alone -/

/-- Nothing the delivery depends on has changed. -/
structure SameDelivery (nd nd' : Node Blob) : Prop where
  applier : nd'.applier = nd.applier
  applyCh : nd'.applyCh = nd.applyCh
  lastApplied : nd'.lastApplied = nd.lastApplied
  pendingSnapshot : nd'.pendingSnapshot = nd.pendingSnapshot
  snapshot : nd'.snapshot = nd.snapshot
  firstIndex : nd'.log.firstIndex = nd.log.firstIndex

/-- The writes save states with the boundary `b`, and no snapshot. -/
def KeepsFiles (b : ℕ) (ws : List (Write Blob)) : Prop :=
  ∀ x ∈ ws, ∃ ps, x = .state ps ∧ ps.log.firstIndex = b

/-- **A quiet section**: neither what is delivered nor the boundary changes. -/
structure Quiet (nd nd' : Node Blob) (ws : List (Write Blob)) : Prop where
  same : SameDelivery nd nd'
  files : KeepsFiles nd.log.firstIndex ws

variable {nd nd' nd'' : Node Blob} {ws ws' : List (Write Blob)} {Q : ℕ → Blob → Prop} {cfg : Config}

theorem SameDelivery.refl (nd : Node Blob) : SameDelivery nd nd := ⟨rfl, rfl, rfl, rfl, rfl, rfl⟩

theorem SameDelivery.trans (h : SameDelivery nd nd') (h' : SameDelivery nd' nd'') :
    SameDelivery nd nd'' :=
  ⟨h'.applier.trans h.applier, h'.applyCh.trans h.applyCh, h'.lastApplied.trans h.lastApplied,
    h'.pendingSnapshot.trans h.pendingSnapshot, h'.snapshot.trans h.snapshot,
    h'.firstIndex.trans h.firstIndex⟩

/-- What is on its way to the receiver is still the same. -/
theorem Carries.same (h : Carries Q nd) (hs : SameDelivery nd nd') : Carries Q nd' := by
  obtain ⟨h₁, h₂, h₃, h₄, h₅, h₆⟩ := hs
  refine ⟨⟨?_, ?_, ?_, ?_⟩, ?_, ?_, ?_, ?_⟩
  · rw [h₂]
    exact h.delivers.contiguous
  · have := h.delivers.inLine
    rw [InLine] at this ⊢
    rw [h₁, h₂, h₃, h₄]
    exact this
  · rw [h₁, h₃, h₄, h₆]
    exact h.delivers.pending
  · rw [h₃, h₄, h₆]
    exact h.delivers.first
  · rw [h₅, h₆]
    exact h.snapshot
  · rw [h₄]
    exact h.pending
  · rw [h₁]
    exact h.taken
  · rw [h₂]
    exact h.sent

theorem keepsFiles_nil (b : ℕ) : KeepsFiles b ([] : List (Write Blob)) := by
  intro x hx
  cases hx

/-- Writes one after the other. -/
theorem KeepsFiles.append {b : ℕ} (h : KeepsFiles b ws) (h' : KeepsFiles b ws') :
    KeepsFiles b (ws ++ ws') := by
  intro x hx
  rcases List.mem_append.mp hx with hx | hx
  · exact h x hx
  · exact h' x hx

/-- A state with the same beginning of the log may be written. -/
theorem keepsFiles_persistLocked {b : ℕ} (h : nd.log.firstIndex = b) :
    KeepsFiles b (persistLocked cfg nd) := by
  intro x hx
  rw [persistLocked] at hx
  split at hx
  · cases hx
  · exact ⟨_, List.mem_singleton.mp hx, h⟩

namespace Quiet

/-- Nothing is written. -/
theorem unsaved (h : SameDelivery nd nd') : Quiet nd nd' [] := ⟨h, keepsFiles_nil _⟩

/-- The state is written. -/
theorem saved (h : SameDelivery nd nd') (hlog : nd''.log.firstIndex = nd.log.firstIndex) :
    Quiet nd nd' (persistLocked cfg nd'') := ⟨h, keepsFiles_persistLocked hlog⟩

/-- One thing after the other. -/
theorem trans (h : Quiet nd nd' ws) (h' : Quiet nd' nd'' ws') : Quiet nd nd'' (ws ++ ws') :=
  ⟨h.same.trans h'.same, h.files.append (h.same.firstIndex ▸ h'.files)⟩

end Quiet

/-- Stepping down has nothing to do with the applier. -/
theorem sameDelivery_becomeFollower (nd : Node Blob) (term : ℕ) :
    SameDelivery nd (becomeFollowerLocked nd term) := by
  rw [becomeFollowerLocked_eq]
  exact ⟨rfl, rfl, rfl, rfl, rfl, rfl⟩

/-- Who steps down writes its state. -/
theorem quiet_becomeFollower (nd : Node Blob) (term : ℕ) :
    Quiet nd (becomeFollowerLocked nd term) (persistLocked cfg (becomeFollowerLocked nd term)) :=
  .saved (sameDelivery_becomeFollower nd term) (sameDelivery_becomeFollower nd term).firstIndex

/-- A later term is written, and nothing else happens. -/
theorem quiet_observeTerm (nd : Node Blob) (term : ℕ) :
    Quiet nd (observeTerm cfg nd term).1 (observeTerm cfg nd term).2 := by
  unfold observeTerm
  split
  · exact quiet_becomeFollower nd term
  · exact .unsaved (.refl nd)

/-- A vote is written. -/
theorem quiet_castVote (nd : Node Blob) (args : RequestVoteArgs) :
    Quiet nd (castVote cfg nd args).1 (castVote cfg nd args).2.1 := by
  unfold castVote
  split
  · exact .unsaved (.refl nd)
  · split
    · exact .saved ⟨rfl, rfl, rfl, rfl, rfl, rfl⟩ rfl
    · exact .unsaved (.refl nd)

/-- **`RequestVote` has nothing to do with the applier**, and writes no snapshot. -/
theorem quiet_handleRequestVote (nd : Node Blob) (args : RequestVoteArgs) :
    Quiet nd (handleRequestVote cfg nd args).1 (handleRequestVote cfg nd args).2.1 :=
  (quiet_observeTerm nd args.term).trans (quiet_castVote _ args)

/-- Standing for election writes the state only. -/
theorem quiet_startElection (nd : Node Blob) :
    Quiet nd (startElectionLocked cfg nd).1 (startElectionLocked cfg nd).2.1 :=
  .saved ⟨rfl, rfl, rfl, rfl, rfl, rfl⟩ rfl

/-- A proposal writes the longer log. -/
theorem quiet_propose (nd : Node Blob) (command : Blob) :
    Quiet nd (propose cfg nd command).1 (propose cfg nd command).2.1 := by
  unfold propose
  split
  · exact .unsaved (.refl nd)
  · exact .saved ⟨rfl, rfl, rfl, rfl, rfl, rfl⟩ rfl

/-- A vote that comes in may make a leader, whose log is written. -/
theorem quiet_onRequestVoteReply [Inhabited Blob] (nd : Node Blob) (term : ℕ)
    (reply : RequestVoteReply) :
    Quiet nd (onRequestVoteReply cfg nd term reply).1 (onRequestVoteReply cfg nd term reply).2 := by
  rcases onRequestVoteReply_cases cfg nd term reply with
    ⟨-, heq⟩ | ⟨-, heq⟩ | ⟨-, ⟨-, heq⟩ | ⟨-, heq⟩⟩ <;> rw [heq]
  · exact quiet_becomeFollower nd reply.term
  · exact .unsaved (.refl nd)
  · exact .saved ⟨rfl, rfl, rfl, rfl, rfl, rfl⟩ rfl
  · exact .unsaved ⟨rfl, rfl, rfl, rfl, rfl, rfl⟩

/-- An answer moves indices of the leader only. -/
theorem quiet_onAppendEntriesReply {peer : NodeID} {args : AppendEntriesArgs Blob}
    {reply : AppendEntriesReply} {r : Node Blob × List (Write Blob)}
    (h : onAppendEntriesReply cfg nd peer args reply = some r) : Quiet nd r.1 r.2 := by
  obtain ⟨-, rfl⟩ | ⟨-, rfl⟩ | ⟨-, ⟨-, ci, -, rfl⟩ | ⟨-, next, -, rfl⟩⟩ :=
    onAppendEntriesReply_cases h
  · exact quiet_becomeFollower nd reply.term
  · exact .unsaved (.refl nd)
  · exact .unsaved ⟨rfl, rfl, rfl, rfl, rfl, rfl⟩
  · exact .unsaved ⟨rfl, rfl, rfl, rfl, rfl, rfl⟩

/-- So does the answer to a snapshot. -/
theorem quiet_onInstallSnapshotReply (nd : Node Blob) (peer : NodeID)
    (args : InstallSnapshotArgs Blob) (reply : InstallSnapshotReply) :
    Quiet nd (onInstallSnapshotReply cfg nd peer args reply).1
      (onInstallSnapshotReply cfg nd peer args reply).2 := by
  rcases onInstallSnapshotReply_cases cfg nd peer args reply with
    ⟨-, heq⟩ | ⟨-, heq⟩ | ⟨-, heq⟩ <;> rw [heq]
  · exact quiet_becomeFollower nd reply.term
  · exact .unsaved (.refl nd)
  · exact .unsaved ⟨rfl, rfl, rfl, rfl, rfl, rfl⟩

/-- Who hears from a leader may write the later term. -/
theorem quiet_observeLeader (nd : Node Blob) (term : ℕ) (leaderID : NodeID) :
    Quiet nd (observeLeader cfg nd term leaderID).1 (observeLeader cfg nd term leaderID).2 := by
  obtain ⟨-, heq⟩ | ⟨-, -, heq⟩ := observeLeader_cases cfg nd term leaderID <;> rw [heq]
  · have h : Quiet nd _ (persistLocked cfg _) := quiet_becomeFollower nd term
    exact ⟨h.same.trans ⟨rfl, rfl, rfl, rfl, rfl, rfl⟩, h.files⟩
  · exact .unsaved ⟨rfl, rfl, rfl, rfl, rfl, rfl⟩

/-- Entries are appended, and the log begins where it did. -/
theorem appendMissing_firstIndex {l : Log Blob} {es : List (LogEntry Blob)} {r : Log Blob × Bool}
    (h : appendMissing l es = some r) : r.1.firstIndex = l.firstIndex := by
  induction es with
  | nil =>
    cases h
    rfl
  | cons e es ih =>
    unfold appendMissing at h
    split at h
    · obtain ⟨t, -, h⟩ := Option.bind_eq_some_iff.mp h
      split at h
      · exact ih h
      · obtain ⟨l', hl', h⟩ := Option.bind_eq_some_iff.mp h
        cases h
        rw [Log.truncateFrom] at hl'
        split at hl'
        · cases hl'
        · cases hl'
          rfl
    · cases h
      rfl

/-- Entries that are taken are written. -/
theorem quiet_appendShifted {args : AppendEntriesArgs Blob}
    {r : Node Blob × List (Write Blob) × AppendEntriesReply}
    (h : appendShifted cfg nd args = some r) : Quiet nd r.1 r.2.1 := by
  obtain ⟨reply, -, -, rfl⟩ | ⟨log, changed, ci, -, hlog, -, rfl⟩ := appendShifted_cases h
  · exact .unsaved (.refl nd)
  · have hfirst : log.firstIndex = nd.log.firstIndex := appendMissing_firstIndex hlog
    refine ⟨⟨rfl, rfl, rfl, rfl, rfl, hfirst⟩, ?_⟩
    dsimp only
    split
    · exact keepsFiles_persistLocked hfirst
    · exact keepsFiles_nil _

/-- **`AppendEntries` has nothing to do with the applier**, and writes no snapshot. -/
theorem quiet_handleAppendEntries {args : AppendEntriesArgs Blob}
    {r : Node Blob × List (Write Blob) × AppendEntriesReply}
    (h : handleAppendEntries cfg nd args = some r) : Quiet nd r.1 r.2.1 := by
  have hobs : Quiet nd (observeLeader cfg nd args.term args.leaderID).1 _ :=
    quiet_observeLeader nd args.term args.leaderID
  obtain ⟨-, rfl⟩ | ⟨reply, -, rfl⟩ | ⟨args', r', -, hr', rfl⟩ := handleAppendEntries_cases h
  · exact .unsaved (.refl nd)
  · exact hobs
  · exact hobs.trans (quiet_appendShifted hr')

/-! ### The applier's own sections -/

/-- The entries of a log have the indices that they stand at. -/
theorem entriesFrom_consecutive {l : Log Blob} {k count : ℕ} {es : List (LogEntry Blob)}
    (hl : ∀ i e, k < i → l.entryAt i = some e → e.index = i)
    (h : entriesFrom l (k + 1) count = some es) : Consecutive k es := by
  induction count generalizing k es with
  | zero =>
    cases h
    trivial
  | succ count ih =>
    obtain ⟨e, he, h⟩ := Option.bind_eq_some_iff.mp h
    obtain ⟨es', hes', h⟩ := Option.bind_eq_some_iff.mp h
    cases h
    exact ⟨hl (k + 1) e (Nat.lt_succ_self k) he,
      ih (fun i e hi => hl i e (Nat.lt_of_succ_lt hi)) hes'⟩

/-- The applier takes a batch that is next. -/
theorem Carries.applierTake (h : Carries Q nd)
    (hl : ∀ i e, nd.log.firstIndex < i → nd.log.entryAt i = some e → e.index = i)
    (hs : applierTake nd = some nd') : Carries Q nd' := by
  have hd := h.delivers
  have hline := hd.inLine
  obtain ⟨hwait, ⟨msg, hmsg, rfl⟩ | ⟨hnone, batch, hbatch, rfl⟩⟩ := applierTake_cases hs
  · obtain ⟨hfirst, hle, -⟩ := hd.pending msg hmsg
    refine ⟨⟨hd.contiguous, ?_, fun _ hm => (by cases hm), fun _ => ?_⟩, h.snapshot,
      fun _ hm => (by cases hm), fun m hm => ?_, h.sent⟩
    · exact (max_eq_right hle).symm
    · exact le_of_eq_of_le hfirst (le_max_right _ _)
    · obtain rfl := Applier.snapshot.inj hm
      exact h.pending _ hmsg
  · simp only [InLine, hwait] at hline
    -- nothing waits, so what is compacted away has been applied
    have hfirst := hd.first hnone
    have hcons := entriesFrom_consecutive (fun i e hi => hl i e (by omega)) hbatch
    rw [max_eq_left hfirst] at hcons
    exact ⟨⟨hd.contiguous, ⟨hline hnone, hcons⟩, fun _ hm => by simp [hnone] at hm,
      fun _ => hfirst⟩, h.snapshot, h.pending, fun _ hm => (by cases hm), h.sent⟩

/-- The applier sends its next message. -/
theorem Carries.applierSend (h : Carries Q nd) (hs : applierSend nd = some nd') :
    Carries Q nd' := by
  have hd := h.delivers
  have hline := hd.inLine
  unfold Raft.applierSend at hs
  split at hs
  · rename_i msg happ
    cases hs
    simp only [InLine, happ] at hline
    refine ⟨⟨hd.contiguous.concat fun _ _ _ hm => (by cases hm), fun _ => ?_,
      fun m hm => ⟨(hd.pending m hm).1, (hd.pending m hm).2.1, fun e he => (by cases he)⟩,
      hd.first⟩,
      h.snapshot, h.pending, fun _ hm => (by cases hm), fun m hm => ?_⟩
    · rw [progress_concat]
      exact hline
    · rcases List.mem_append.mp hm with hm | hm
      · exact h.sent m hm
      · obtain rfl := ApplyMsg.snapshot.inj (List.mem_singleton.mp hm)
        exact h.taken _ happ
  · rename_i happ
    cases hs
    simp only [InLine, happ] at hline
    exact ⟨⟨hd.contiguous, fun _ => hline.1,
      fun m hm => ⟨(hd.pending m hm).1, (hd.pending m hm).2.1, fun e he => (by cases he)⟩,
      hd.first⟩,
      h.snapshot, h.pending, fun _ hm => (by cases hm), h.sent⟩
  · rename_i e es happ
    cases hs
    simp only [InLine, happ] at hline
    obtain ⟨hprog, he, hes⟩ := hline
    have hpend := hd.pending
    rw [happ] at hpend
    refine ⟨⟨hd.contiguous.concat fun _ _ _ hm => ?_, ⟨progress_concat _ _, he, ?_⟩, hpend,
      hd.first⟩, h.snapshot, h.pending, fun _ hm => (by cases hm), fun m hm => ?_⟩
    · obtain ⟨-, rfl, -⟩ := ApplyMsg.command.inj hm
      rw [he, hprog]
    · rw [he]
      exact hes
    · rcases List.mem_append.mp hm with hm | hm
      · exact h.sent m hm
      · cases List.mem_singleton.mp hm
  · cases hs

/-- The applier counts its batch as applied. -/
theorem Carries.applierAdvance (h : Carries Q nd) (hs : applierAdvance nd = some nd') :
    Carries Q nd' := by
  have hd := h.delivers
  have hline := hd.inLine
  unfold Raft.applierAdvance at hs
  split at hs
  · rename_i e es happ
    cases hs
    simp only [InLine, happ] at hline
    obtain ⟨hprog, he, hes⟩ := hline
    have hpend := hd.pending
    rw [happ] at hpend
    have hmax : max nd.lastApplied e.index = e.index := max_eq_right (by omega)
    refine ⟨⟨hd.contiguous, ?_, fun m hm => ?_, fun hn => le_trans (hd.first hn) (le_max_left _ _)⟩,
      h.snapshot, h.pending, fun _ hm => (by cases hm), h.sent⟩
    · simp only [InLine, hmax]
      exact ⟨hprog, hes⟩
    · obtain ⟨h₁, h₂, h₃⟩ := hpend m hm
      obtain ⟨he', hes'⟩ := List.forall_mem_cons.mp h₃
      exact ⟨h₁, max_le h₂ he', hes'⟩
  · cases hs

/-! Only the sends lengthen the channel. -/

theorem applierTake_applyCh (h : applierTake nd = some nd') : nd'.applyCh = nd.applyCh := by
  rw [applierTake_eq h]

/-- A message goes to the end of the channel. -/
theorem applierSend_applyCh (h : applierSend nd = some nd') : nd.applyCh <+: nd'.applyCh := by
  unfold applierSend at h
  split at h
  · rw [← Option.some.inj h]
    exact List.prefix_append _ _
  · rw [← Option.some.inj h]
  · rw [← Option.some.inj h]
    exact List.prefix_append _ _
  · cases h

theorem applierAdvance_applyCh (h : applierAdvance nd = some nd') : nd'.applyCh = nd.applyCh := by
  rw [applierAdvance_eq h]

end Raft

end DistQueue
