import DistQueue.Raft.Delivery

/-!
# The labels of snapshots

A snapshot is handed over with an index, and travels: through the file, over the
network, to the apply channel. Whatever property `Q` of an index and a snapshot holds
where snapshots are made, it holds wherever one arrives (`DistQueue.Raft.Labelled`) – if
a crash between the two writes of a snapshot does no harm to `Q`. Such a crash leaves the
new snapshot next to the old index (`DistQueue.Raft.splits`).
-/

namespace DistQueue

namespace Raft

open Consensus

variable {Blob : Type} {nd nd' : Node Blob} {ws : List (Write Blob)} {Q : ℕ → Blob → Prop}
  {cfg : Config}

/-! ### The files -/

section Files

variable [Inhabited Blob]

/-- The boundary of the log in the state file. -/
def Disk.boundary (d : Disk Blob) : ℕ := d.persistentState.log.firstIndex

/-- **The snapshot file goes with the state file**: it is there if the log has been
compacted, and labelled with the log's boundary. -/
structure Shelved (Q : ℕ → Blob → Prop) (d : Disk Blob) : Prop where
  present : d.boundary ≠ 0 → ∃ data, d.snapshot = some data
  labelled : ∀ data, d.snapshot = some data → Q d.boundary data

variable {d : Disk Blob}

theorem KeepsFiles.write (h : KeepsFiles d.boundary ws) :
    (d.write ws).boundary = d.boundary ∧ (d.write ws).snapshot = d.snapshot := by
  induction ws generalizing d with
  | nil => exact ⟨rfl, rfl⟩
  | cons x ws ih =>
    obtain ⟨ps, rfl, hps⟩ := h x List.mem_cons_self
    have hb : Disk.boundary (Write.apply d (.state ps)) = d.boundary := hps
    obtain ⟨hb', hs'⟩ := ih (d := Write.apply d (.state ps))
      fun y hy => hb ▸ h y (List.mem_cons_of_mem _ hy)
    exact ⟨hb'.trans hb, hs'⟩

/-- Only the boundary and the snapshot of a disk are looked at. -/
theorem Shelved.congr {d' : Disk Blob} (h : Shelved Q d) (hb : d'.boundary = d.boundary)
    (hs : d'.snapshot = d.snapshot) : Shelved Q d' := by
  refine ⟨fun hne => ?_, fun data hdata => ?_⟩
  · rw [hs]
    exact h.present (hb ▸ hne)
  · rw [hb]
    exact h.labelled data (hs ▸ hdata)

/-- A quiet section may crash anywhere. -/
theorem Shelved.keepsFiles (h : Shelved Q d) (hws : KeepsFiles d.boundary ws) (k : ℕ) :
    Shelved Q (d.write (ws.take k)) := by
  have htake : KeepsFiles d.boundary (ws.take k) := fun x hx => hws x (List.mem_of_mem_take hx)
  exact h.congr htake.write.1 htake.write.2

/-- Whether the writes end with a snapshot. -/
def endsInSnapshot (ws : List (Write Blob)) : Bool := ws.getLast? matches some (.snapshot _)

/-- **A section that replaces the snapshot** may crash anywhere but between its last two
writes, and there too if `Q` holds of the old boundary. -/
theorem Shelved.replace (h : Shelved Q d) (hws : KeepsFiles d.boundary ws) {data : Blob}
    {ps : PersistentState Blob} (hQ : Q ps.log.firstIndex data) (k : ℕ)
    (hsplit : endsInSnapshot ((ws ++ [Write.snapshot data, .state ps]).take k) = true →
      Q d.boundary data) :
    Shelved Q (d.write ((ws ++ [Write.snapshot data, .state ps]).take k)) := by
  rcases Nat.lt_trichotomy k (ws.length + 1) with hk | rfl | hk
  · rw [List.take_append, show k - ws.length = 0 by omega, List.take_zero, List.append_nil]
    exact h.keepsFiles hws k
  · -- the snapshot is there and the state is not
    have htake : (ws ++ [Write.snapshot data, .state ps]).take (ws.length + 1) =
        ws ++ [Write.snapshot data] := by
      rw [List.take_append, List.take_of_length_le (by omega), Nat.add_sub_cancel_left]
      rfl
    rw [htake] at hsplit ⊢
    have hb : (d.write (ws ++ [Write.snapshot data])).boundary = d.boundary := by
      rw [Disk.write_append]
      exact hws.write.1
    have hs : (d.write (ws ++ [Write.snapshot data])).snapshot = some data := by
      rw [Disk.write_append]
      rfl
    refine ⟨fun _ => ⟨data, hs⟩, fun data' hdata' => ?_⟩
    rw [hb, ← Option.some.inj (hs.symm.trans hdata')]
    exact hsplit (by simp [endsInSnapshot])
  · rw [List.take_of_length_le (by simp; omega), Disk.write_append]
    refine ⟨fun _ => ⟨data, rfl⟩, fun data' hdata' => ?_⟩
    cases hdata'
    exact hQ

/-! ### Starting -/

variable [DecidableEq Blob]

/-- **A node started on its files delivers in order, and what it carries is labelled.** -/
theorem Shelved.carries (h : Shelved Q d) (hcfg : cfg.dataDir ≠ "")
    (hne : ∀ i data, Q i data → data ≠ default) : Carries Q (newNode cfg d) := by
  have hfresh : ∀ nd : Node Blob, nd.applier = .waiting → nd.applyCh = [] →
      nd.lastApplied = nd.log.firstIndex →
      (nd.pendingSnapshot = none → nd.log.firstIndex = 0) →
      (∀ msg, nd.pendingSnapshot = some msg → nd.log.firstIndex = msg.index ∧
        Q msg.index msg.data) →
      (∀ data, nd.snapshot = some data → Q nd.log.firstIndex data) → Carries Q nd := by
    intro nd ha hch hla hnone hpend hsnap
    refine ⟨⟨?_, ?_, fun msg hm => ⟨(hpend msg hm).1, ?_, ?_⟩, fun _ => le_of_eq hla.symm⟩, hsnap,
      fun msg hm => (hpend msg hm).2, fun msg hm => ?_, fun msg hm => ?_⟩
    · rw [hch]
      exact contiguous_nil
    · simp only [InLine, ha, hch, progress_nil]
      intro hp
      rw [hla, hnone hp]
    · rw [hla, (hpend msg hm).1]
    · rw [ha]
      intro e he
      cases he
    · rw [ha] at hm
      cases hm
    · rw [hch] at hm
      cases hm
  obtain ⟨hpresent, hlabel⟩ := h
  rw [Disk.boundary, Disk.persistentState] at hpresent hlabel
  unfold newNode readPersist
  simp only [if_neg hcfg]
  cases hstate : d.state with
  | none =>
    exact hfresh _ rfl rfl rfl (fun _ => rfl) (fun _ hm => by cases hm) fun _ hm => by cases hm
  | some ps =>
    rw [hstate] at hpresent hlabel
    cases hsnap : d.snapshot with
    | none =>
      refine hfresh _ rfl rfl rfl (fun _ => ?_) (fun _ hm => by cases hm) fun _ hm => by cases hm
      by_contra hb
      obtain ⟨data, hdata⟩ := hpresent hb
      rw [hsnap] at hdata
      cases hdata
    | some data =>
      have hQ := hlabel data hsnap
      simp only [if_neg (hne _ _ hQ)]
      refine hfresh _ rfl rfl rfl (fun hp => by cases hp) (fun msg hm => ?_) fun data' hdata' => ?_
      · cases hm
        exact ⟨rfl, hQ⟩
      · cases hdata'
        exact hQ

end Files

/-! ### Compaction and installed snapshots -/

section Snapshots

variable [Inhabited Blob]

/-- **What a section writes**: states with the old boundary, and perhaps, at the end, a new
snapshot and a state with its boundary. -/
def Replaces (Q : ℕ → Blob → Prop) (b : ℕ) (ws : List (Write Blob)) : Prop :=
  KeepsFiles b ws ∨ ∃ ws' data ps, ws = ws' ++ [Write.snapshot data, .state ps] ∧
    KeepsFiles b ws' ∧ b ≤ ps.log.firstIndex ∧ Q ps.log.firstIndex data

/-- The files after a crash, if the old boundary is a label for the new snapshot too in
case the crash falls between the two. -/
theorem Shelved.write {d : Disk Blob} (h : Shelved Q d) (hws : Replaces Q d.boundary ws) (k : ℕ)
    (hsplit : endsInSnapshot (ws.take k) = true →
      ∀ i data, d.boundary ≤ i → Q i data → Q d.boundary data) :
    Shelved Q (d.write (ws.take k)) := by
  rcases hws with hws | ⟨ws', data, ps, rfl, hws', hle, hQ⟩
  · exact h.keepsFiles hws k
  · exact h.replace hws' hQ k fun hend => hsplit hend _ _ hle hQ

omit [Inhabited Blob] in
theorem Replaces.endsInSnapshot_eq {b : ℕ} (h : Replaces Q b ws) : endsInSnapshot ws = false := by
  rcases h with hk | ⟨ws', data, ps, rfl, -⟩
  · unfold endsInSnapshot
    split
    · rename_i data hlast
      obtain ⟨ps, hps, -⟩ := hk _ (List.mem_of_getLast? hlast)
      cases hps
    · rfl
  · simp [endsInSnapshot]

/-- **The state machine hands over a snapshot.** -/
theorem Carries.compact (h : Carries Q nd) (hcfg : cfg.dataDir ≠ "") {index : ℕ} {data : Blob}
    (hQ : Q index data) {r : Node Blob × List (Write Blob)}
    (hr : Raft.snapshot cfg nd index data = some r) :
    Carries Q r.1 ∧ Replaces Q nd.log.firstIndex r.2 ∧ r.1.applyCh = nd.applyCh := by
  have hd := h.delivers
  obtain ⟨-, rfl⟩ | ⟨⟨hlt, hle⟩, t, tail, -, -, rfl⟩ := snapshot_cases hr
  · exact ⟨h, .inl (keepsFiles_nil _), rfl⟩
  · refine ⟨?_, .inr ⟨[], data, _, persistWithSnapshotLocked_of_ne hcfg _ data, keepsFiles_nil _,
      ?_, ?_⟩, rfl⟩
    · refine ⟨⟨hd.contiguous, hd.inLine, fun msg hm => ?_, fun _ => hle⟩,
        fun data' hdata' => ?_, h.pending, h.taken, h.sent⟩
      · -- a waiting snapshot reaches past everything applied
        obtain ⟨hfirst, hla, -⟩ := hd.pending msg hm
        omega
      · cases hdata'
        exact hQ
    · exact le_of_lt hlt
    · exact hQ

/-- The part of the handler that replaces the log. -/
theorem Carries.installSnapshot (h : Carries Q nd) (hcfg : cfg.dataDir ≠ "")
    {args : InstallSnapshotArgs Blob} (hQ : Q args.lastIncludedIndex args.data)
    (hfirst : nd.log.firstIndex ≤ nd.commitIndex) (happlied : nd.lastApplied ≤ nd.commitIndex)
    (htaken : ∀ e ∈ nd.applier.entries, e.index ≤ nd.commitIndex)
    (hnew : nd.commitIndex < args.lastIncludedIndex) {r : Node Blob × List (Write Blob)}
    (hr : installSnapshot cfg nd args = some r) :
    Carries Q r.1 ∧ Replaces Q nd.log.firstIndex r.2 ∧ r.1.applyCh = nd.applyCh := by
  have hd := h.delivers
  unfold Raft.installSnapshot at hr
  obtain ⟨tail, -, hr⟩ := Option.bind_eq_some_iff.mp hr
  cases hr
  refine ⟨⟨⟨hd.contiguous, ?_, fun msg hm => ?_, fun hm => by cases hm⟩, fun data hdata => ?_,
    fun msg hm => ?_, h.taken, h.sent⟩, .inr ⟨[], args.data, _,
      persistWithSnapshotLocked_of_ne hcfg _ _, keepsFiles_nil _, ?_, hQ⟩, rfl⟩
  · have hline := hd.inLine
    simp only [InLine] at hline ⊢
    split <;> rename_i happ
    · intro hm
      cases hm
    all_goals
      simp only [happ] at hline
      exact hline
  · cases hm
    exact ⟨rfl, by dsimp only; omega, fun e he => by have := htaken e he; dsimp only; omega⟩
  · cases hdata
    exact hQ
  · cases hm
    exact hQ
  · show nd.log.firstIndex ≤ args.lastIncludedIndex
    omega

omit [Inhabited Blob] in
/-- Hearing from a leader commits nothing. -/
theorem observeLeader_commitIndex (cfg : Config) (nd : Node Blob) (term : ℕ) (leaderID : NodeID) :
    (observeLeader cfg nd term leaderID).1.commitIndex = nd.commitIndex := by
  obtain ⟨-, heq⟩ | ⟨-, -, heq⟩ := observeLeader_cases cfg nd term leaderID <;> rw [heq]
  exact becomeFollowerLocked_commitIndex nd term

/-- **A follower is sent a snapshot.** -/
theorem Carries.handleInstallSnapshot (h : Carries Q nd) (hcfg : cfg.dataDir ≠ "")
    {args : InstallSnapshotArgs Blob} (hQ : Q args.lastIncludedIndex args.data)
    (hfirst : nd.log.firstIndex ≤ nd.commitIndex) (happlied : nd.lastApplied ≤ nd.commitIndex)
    (htaken : ∀ e ∈ nd.applier.entries, e.index ≤ nd.commitIndex)
    {r : Node Blob × List (Write Blob) × InstallSnapshotReply}
    (hr : handleInstallSnapshot cfg nd args = some r) :
    Carries Q r.1 ∧ Replaces Q nd.log.firstIndex r.2.1 ∧ r.1.applyCh = nd.applyCh := by
  have hobs : Quiet nd (observeLeader cfg nd args.term args.leaderID).1
      (observeLeader cfg nd args.term args.leaderID).2 := quiet_observeLeader nd _ _
  have hci := observeLeader_commitIndex cfg nd args.term args.leaderID
  obtain ⟨hs₁, hs₂, hs₃, -, -, hs₆⟩ := hobs.same
  obtain ⟨-, rfl⟩ | ⟨reply, rfl⟩ | ⟨r', reply, hnew, hr', rfl⟩ := handleInstallSnapshot_cases hr
  · exact ⟨h, .inl (keepsFiles_nil _), rfl⟩
  · exact ⟨h.same hobs.same, .inl hobs.files, hs₂⟩
  · obtain ⟨hcarries, hrep, hch⟩ := (h.same hobs.same).installSnapshot hcfg hQ (by omega)
      (by omega) (by rw [hs₁, hci]; exact htaken) (by omega) hr'
    refine ⟨hcarries, ?_, hch.trans hs₂⟩
    rw [hs₆] at hrep
    rcases hrep with hk | ⟨ws', data, ps, heq, hk, hle, hQ'⟩
    · exact .inl (hobs.files.append hk)
    · refine .inr ⟨(observeLeader cfg nd args.term args.leaderID).2 ++ ws', data, ps, ?_,
        hobs.files.append hk, hle, hQ'⟩
      simp only [heq, List.append_assoc]

end Snapshots

/-! ### The cluster -/

section Cluster

variable [Inhabited Blob] {M : Membership} {w w' : World Blob}
  {a : Ledger NodeID (LogEntry Blob)} {n : NodeID} {x : Effect Blob}

/-- **Every snapshot of the cluster is labelled.** -/
structure Labelled (M : Membership) (Q : ℕ → Blob → Prop) (w : World Blob) : Prop where
  node : ∀ n ∈ M.ids, Carries Q (w.nodes n)
  disk : ∀ n ∈ M.ids, Shelved Q (w.disks n)
  call : ∀ c ∈ w.calls, ∀ args, c.request = .installSnapshot args →
    Q args.lastIncludedIndex args.data

/-- What is to be shown of a section. -/
structure Passes (Q : ℕ → Blob → Prop) (nd : Node Blob) (x : Effect Blob) : Prop where
  carries : Carries Q x.node
  replaces : Replaces Q nd.log.firstIndex x.writes
  call : ∀ c ∈ x.calls, ∀ args, c.request = .installSnapshot args →
    Q args.lastIncludedIndex args.data
  channel : nd.applyCh <+: x.node.applyCh

omit [Inhabited Blob] in
/-- **A section that has nothing to do with the applier passes on what there was.** -/
theorem Quiet.passes (h : Carries Q nd) (hx : Quiet nd x.node x.writes)
    (hcall : ∀ c ∈ x.calls, ∀ args, c.request ≠ .installSnapshot args) : Passes Q nd x :=
  ⟨h.same hx.same, .inl hx.files, fun c hc args hargs => absurd hargs (hcall c hc args),
    hx.same.applyCh ▸ List.prefix_refl _⟩

/-- The snapshots that the state machine hands over are labelled. -/
def Event.Supplies (Q : ℕ → Blob → Prop) : Event Blob → Prop
  | .trigger _ (.snapshot index data) => Q index data
  | _ => True

/-- What a node does by itself passes on labelled snapshots only. -/
theorem Labelled.act (hsim : Sim M w a) (h : Labelled M Q w) (hn : n ∈ M.ids) {t : Trigger Blob}
    (hQ : (Event.trigger n t).Supplies Q) (hx : act (M.config n) (w.nodes n) t = some x) :
    Passes Q (w.nodes n) x := by
  have hnode := h.node n hn
  cases acts_of_act hx with
  | electionTimeout hs =>
    refine Quiet.passes hnode (quiet_startElection _) fun c hc args => ?_
    obtain ⟨p, -, rfl⟩ := List.mem_map.mp hc
    simp
  | propose command => exact Quiet.passes hnode (quiet_propose _ _) (by simp)
  | sendAppendEntries hpeer hargs =>
    exact Quiet.passes hnode (.unsaved (.refl _)) (by simp)
  | sendInstallSnapshot hpeer hargs =>
    refine ⟨hnode, .inl (keepsFiles_nil _), fun c hc args' hargs' => ?_, List.prefix_refl _⟩
    -- the leader ships the snapshot it holds, with its own boundary
    obtain rfl := List.mem_singleton.mp hc
    obtain rfl := Request.installSnapshot.inj hargs'
    obtain ⟨-, data, hdata, rfl⟩ := sendInstallSnapshot_eq hargs
    exact hnode.snapshot data hdata
  | snapshot hr =>
    obtain ⟨hcarries, hrep, hch⟩ := hnode.compact (M.persistent n hn) hQ hr
    exact ⟨hcarries, hrep, by simp, hch ▸ List.prefix_refl _⟩
  | applierTake hnd' =>
    refine ⟨hnode.applierTake (fun i e hi he => ?_) hnd', .inl (keepsFiles_nil _), by simp,
      applierTake_applyCh hnd' ▸ List.prefix_refl _⟩
    obtain ⟨j, rfl⟩ : ∃ j, i = j + 1 := ⟨i - 1, by omega⟩
    rw [(hsim.node n hn).log_eq, compact_entryAt (by omega)] at he
    exact (hsim.node n hn).numbered j e he
  | applierSend hnd' =>
    exact ⟨hnode.applierSend hnd', .inl (keepsFiles_nil _), by simp, applierSend_applyCh hnd'⟩
  | applierAdvance hnd' =>
    exact ⟨hnode.applierAdvance hnd', .inl (keepsFiles_nil _), by simp,
      applierAdvance_applyCh hnd' ▸ List.prefix_refl _⟩

/-- So does the handling of a call. -/
theorem Labelled.handle (hsim : Sim M w a) (h : Labelled M Q w) {k : ℕ} {c : Call Blob}
    (hc : c ∈ w.calls)
    (hx : handle (M.config c.callee) (w.nodes c.callee) k c.request = some x) :
    Passes Q (w.nodes c.callee) x := by
  have hn := (hsim.call c hc).callee
  have hnode := h.node c.callee hn
  have himpl := (hsim.node c.callee hn).impl
  cases hreq : c.request with
  | requestVote args =>
    rw [hreq] at hx
    cases hx
    exact Quiet.passes hnode (quiet_handleRequestVote _ _) (by simp)
  | appendEntries args =>
    rw [hreq] at hx
    obtain ⟨r, hr, hx⟩ := Option.bind_eq_some_iff.mp hx
    cases hx
    exact Quiet.passes hnode (quiet_handleAppendEntries hr) (by simp)
  | installSnapshot args =>
    rw [hreq] at hx
    obtain ⟨r, hr, hx⟩ := Option.bind_eq_some_iff.mp hx
    cases hx
    obtain ⟨hcarries, hrep, hch⟩ := hnode.handleInstallSnapshot (M.persistent _ hn)
      (h.call c hc args hreq) himpl.first_le himpl.applied_le (fun e he => (himpl.taken e he).2) hr
    exact ⟨hcarries, hrep, by simp, hch ▸ List.prefix_refl _⟩

/-- So does the handling of an answer. -/
theorem Labelled.onReply (hsim : Sim M w a) (h : Labelled M Q w) {k : ℕ} {c : Call Blob}
    (hc : c ∈ w.calls) {reply : Reply}
    (hx : onReply (M.config c.caller) (w.nodes c.caller) k c.callee c.request reply = some x) :
    Passes Q (w.nodes c.caller) x := by
  have hnode := h.node c.caller (hsim.call c hc).caller
  unfold Raft.onReply at hx
  split at hx
  · cases hx
    exact Quiet.passes hnode (quiet_onRequestVoteReply _ _ _) (by simp)
  · obtain ⟨r, hr, hx⟩ := Option.bind_eq_some_iff.mp hx
    cases hx
    exact Quiet.passes hnode (quiet_onAppendEntriesReply hr) (by simp)
  · cases hx
    exact Quiet.passes hnode (quiet_onInstallSnapshotReply _ _ _ _) (by simp)
  · cases hx

/-! The node that runs a section is the one the section belongs to. -/

theorem act_actor {t : Trigger Blob} (h : act cfg nd t = some x) : x.actor = cfg.id := by
  cases acts_of_act h <;> rfl

theorem handle_actor {k : ℕ} {request : Request Blob} (h : handle cfg nd k request = some x) :
    x.actor = cfg.id := by
  cases request with
  | requestVote args => rw [← Option.some.inj h]
  | appendEntries args | installSnapshot args =>
    obtain ⟨r, -, h⟩ := Option.bind_eq_some_iff.mp h
    rw [← Option.some.inj h]

theorem onReply_actor {k : ℕ} {peer : NodeID} {request : Request Blob} {reply : Reply}
    (h : onReply cfg nd k peer request reply = some x) : x.actor = cfg.id := by
  unfold Raft.onReply at h
  split at h
  · rw [← Option.some.inj h]
  · obtain ⟨r, -, h⟩ := Option.bind_eq_some_iff.mp h
    rw [← Option.some.inj h]
  · rw [← Option.some.inj h]
  · cases h

/-- **Every event** is a section that a member runs by itself, the callee's end of a call,
or the caller's, and what holds of these holds of all. -/
theorem effect_rule {P : NodeID → Effect Blob → Prop} {e : Event Blob}
    (hact : ∀ n ∈ M.ids, ∀ t x, e = .trigger n t →
      act (M.config n) (w.nodes n) t = some x → P n x)
    (hhandle : ∀ k c x, w.calls[k]? = some c →
      handle (M.config c.callee) (w.nodes c.callee) k c.request = some x → P c.callee x)
    (honReply : ∀ k c reply x, w.calls[k]? = some c → (k, reply) ∈ w.replies →
      onReply (M.config c.caller) (w.nodes c.caller) k c.callee c.request reply = some x →
      P c.caller x) (hx : effect M w e = some x) : x.actor ∈ M.ids ∧ P x.actor x := by
  cases e with
  | trigger n t =>
    rw [Raft.effect] at hx
    split at hx
    · rename_i hn
      rw [act_actor hx, M.config_id n hn]
      exact ⟨hn, hact n hn t x rfl hx⟩
    · cases hx
  | deliver k =>
    obtain ⟨c, hc, hn, hx⟩ := effect_deliver hx
    rw [handle_actor hx, M.config_id _ hn]
    exact ⟨hn, hhandle k c x hc hx⟩
  | answer j =>
    obtain ⟨k, reply, c, hj, hc, -, hn, hx⟩ := effect_answer hx
    rw [onReply_actor hx, M.config_id _ hn]
    exact ⟨hn, honReply k c reply x hc (List.mem_of_getElem? hj) hx⟩

/-- The node that runs a section is a member. -/
theorem effect_actor_mem {e : Event Blob} (hx : effect M w e = some x) : x.actor ∈ M.ids :=
  (effect_rule (P := fun _ _ => True) (fun _ _ _ _ _ _ => trivial) (fun _ _ _ _ _ => trivial)
    (fun _ _ _ _ _ _ _ => trivial) hx).1

/-- **Every section** keeps what it carries labelled. -/
theorem Labelled.effect (hsim : Sim M w a) (h : Labelled M Q w) {e : Event Blob}
    (hQ : e.Supplies Q) (hx : effect M w e = some x) :
    x.actor ∈ M.ids ∧ Passes Q (w.nodes x.actor) x := by
  refine effect_rule (P := fun n x => Passes Q (w.nodes n) x) ?_ ?_ ?_ hx
  · rintro n hn t x rfl hx
    exact h.act hsim hn hQ hx
  · intro k c x hc hx
    exact h.handle hsim (List.mem_of_getElem? hc) hx
  · intro k c reply x hc _ hx
    exact h.onReply hsim (List.mem_of_getElem? hc) hx

/-- The calls of a state, some of them closed, are labelled still. -/
theorem Labelled.continues (h : Labelled M Q w) {cs : List (Call Blob)}
    (hcs : Continues w.calls cs) :
    ∀ c ∈ cs, ∀ args, c.request = .installSnapshot args → Q args.lastIncludedIndex args.data := by
  intro c hc args hargs
  obtain ⟨c', hc', -, -, hreq, -⟩ := hcs.mem hc
  exact h.call c' hc' args (hreq ▸ hargs)

theorem Sim.boundary_eq (hsim : Sim M w a) (hn : n ∈ M.ids) :
    (w.disks n).boundary = (w.nodes n).log.firstIndex := by
  rw [Disk.boundary, (hsim.node n hn).synced]
  rfl

/-- A section runs to its end. -/
theorem Labelled.commit (hsim : Sim M w a) (h : Labelled M Q w) (hn : x.actor ∈ M.ids)
    (hx : Passes Q (w.nodes x.actor) x) : Labelled M Q (w.commit x) := by
  have hdisk := (h.disk _ hn).write (hsim.boundary_eq hn ▸ hx.replaces) x.writes.length
    (by rw [List.take_length, hx.replaces.endsInSnapshot_eq]; intro hend; cases hend)
  rw [List.take_length] at hdisk
  refine ⟨fun m hm => ?_, fun m hm => ?_, fun c hc => ?_⟩
  · rcases eq_or_ne m x.actor with rfl | hne
    · simp only [World.commit, Function.update_self]
      exact hx.carries
    · simp only [World.commit, Function.update_of_ne hne]
      exact h.node m hm
  · rcases eq_or_ne m x.actor with rfl | hne
    · simp only [World.commit, Function.update_self]
      exact hdisk
    · simp only [World.commit, Function.update_of_ne hne]
      exact h.disk m hm
  · rcases List.mem_append.mp hc with hc | hc
    · exact h.continues (continues_closeCall w.calls x.finished) c hc
    · exact hx.call c hc

variable [DecidableEq Blob]

/-- A node crashes and is started again. -/
theorem Labelled.restart (h : Labelled M Q w) (hn : n ∈ M.ids)
    (hne : ∀ i data, Q i data → data ≠ default) (hd : Shelved Q ((w.disks n).write ws)) :
    Labelled M Q (w.restart M n ws) := by
  refine ⟨fun m hm => ?_, fun m hm => ?_, h.continues (continues_map w.calls n)⟩
  · rcases eq_or_ne m n with rfl | hmn
    · simp only [World.restart, Function.update_self]
      exact hd.carries (M.persistent m hn) hne
    · simp only [World.restart, Function.update_of_ne hmn]
      exact h.node m hm
  · rcases eq_or_ne m n with rfl | hmn
    · simp only [World.restart, Function.update_self]
      exact hd
    · simp only [World.restart, Function.update_of_ne hmn]
      exact h.disk m hm

/-- Whether the action is a crash that leaves a new snapshot next to the old boundary. -/
def splits (M : Membership) (w : World Blob) : Action Blob → Bool
  | .crashIn e k => (effect M w e).any fun x => endsInSnapshot (x.writes.take k)
  | _ => false

/-- Snapshots that the action brings from outside are labelled with `Q`. -/
def Action.Supplies (Q : ℕ → Blob → Prop) : Action Blob → Prop
  | .run e | .crashIn e _ => e.Supplies Q
  | .crash _ => True

/-- **Every action** keeps the snapshots of the cluster labelled, a crash between the
writes of a snapshot included if a smaller label does as well. -/
theorem Labelled.step (hsim : Sim M w a) (h : Labelled M Q w)
    (hne : ∀ i data, Q i data → data ≠ default) {x : Action Blob} (hQ : x.Supplies Q)
    (hsplit : splits M w x = true → ∀ i j data, i ≤ j → Q j data → Q i data)
    (hx : step M w x = some w') : Labelled M Q w' := by
  cases x with
  | run e =>
    obtain ⟨y, hy, rfl⟩ := Option.map_eq_some_iff.mp hx
    obtain ⟨hn, hpass⟩ := h.effect hsim hQ hy
    exact h.commit hsim hn hpass
  | crash n =>
    simp only [Raft.step, Option.ite_none_right_eq_some, Option.some.injEq] at hx
    obtain ⟨hn, rfl⟩ := hx
    exact h.restart hn hne (h.disk n hn)
  | crashIn e k =>
    obtain ⟨y, hy, rfl⟩ := Option.map_eq_some_iff.mp hx
    obtain ⟨hn, hpass⟩ := h.effect hsim hQ hy
    refine h.restart hn hne ((h.disk _ hn).write (hsim.boundary_eq hn ▸ hpass.replaces) k ?_)
    intro hend i data hi hdata
    exact hsplit (by simp [splits, hy, hend]) _ i data hi hdata

/-- The node that an action crashes. -/
def crashed (M : Membership) (w : World Blob) : Action Blob → Option NodeID
  | .run _ => none
  | .crash n => some n
  | .crashIn e _ => (effect M w e).map Effect.actor

/-- The channel of a node that does not crash only grows. -/
theorem Labelled.applyCh_prefix (hsim : Sim M w a) (h : Labelled M Q w) {x : Action Blob}
    (hQ : x.Supplies Q) (hx : Raft.step M w x = some w') (hcrash : crashed M w x ≠ some n) :
    (w.nodes n).applyCh <+: (w'.nodes n).applyCh := by
  cases x with
  | run e =>
    obtain ⟨y, hy, rfl⟩ := Option.map_eq_some_iff.mp hx
    rcases eq_or_ne n y.actor with rfl | hne
    · simp only [World.commit, Function.update_self]
      exact (h.effect hsim hQ hy).2.channel
    · simp only [World.commit, Function.update_of_ne hne]
      exact List.prefix_refl _
  | crash m =>
    simp only [Raft.step, Option.ite_none_right_eq_some, Option.some.injEq] at hx
    obtain ⟨-, rfl⟩ := hx
    have hne : n ≠ m := by
      rintro rfl
      exact hcrash rfl
    simp only [World.restart, Function.update_of_ne hne]
    exact List.prefix_refl _
  | crashIn e k =>
    obtain ⟨y, hy, rfl⟩ := Option.map_eq_some_iff.mp hx
    have hne : n ≠ y.actor := by
      rintro rfl
      exact hcrash (by rw [crashed, hy]; rfl)
    simp only [World.restart, Function.update_of_ne hne]
    exact List.prefix_refl _

omit [DecidableEq Blob] in
theorem Labelled.mono {Q' : ℕ → Blob → Prop} (h : Labelled M Q w)
    (hQ : ∀ i data, Q i data → Q' i data) : Labelled M Q' w := by
  refine ⟨fun n hn => ?_, fun n hn => ?_, fun c hc args hargs => hQ _ _ (h.call c hc args hargs)⟩
  · have hnode := h.node n hn
    exact ⟨hnode.delivers, fun data hdata => hQ _ _ (hnode.snapshot data hdata),
      fun msg hm => hQ _ _ (hnode.pending msg hm), fun msg hm => hQ _ _ (hnode.taken msg hm),
      fun msg hm => hQ _ _ (hnode.sent msg hm)⟩
  · have hdisk := h.disk n hn
    exact ⟨hdisk.present, fun data hdata => hQ _ _ (hdisk.labelled data hdata)⟩

theorem labelled_start (hne : ∀ i data, Q i data → data ≠ default) :
    Labelled M Q (start M : World Blob) := by
  have hd : Shelved Q (emptyDisk : Disk Blob) :=
    ⟨fun h => absurd rfl h, fun data hdata => by cases hdata⟩
  exact ⟨fun n hn => hd.carries (M.persistent n hn) hne, fun n _ => hd, fun c hc => by cases hc⟩

end Cluster

end Raft

end DistQueue
