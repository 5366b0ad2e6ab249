import DistQueue.Raft.Stability

/-!
# What a node has sent

A leader numbers the commands it is given on from the end of its log. This file shows
that the numbers are new to its own state machine: no command on the node's apply channel
has an index beyond the log (`DistQueue.Raft.Sent.le_lastIndex`).

What says so is the ledger. Whatever a node sends was chosen *by the node's own term*
(`DistQueue.Raft.Sent`), terms only grow, and the leader of a term holds what was chosen
by it. Only one section sends commands at all (`DistQueue.Raft.Labelled.effect_applyCh`).

Of snapshots as well as commands, a node has sent none beyond its own commit index
(`DistQueue.Raft.Behind`), which does not go back while the node runs.
-/

namespace DistQueue

namespace Raft

open Consensus

variable {Blob : Type} [Inhabited Blob] {Q : ℕ → Blob → Prop} {M : Membership}
  {w w' : World Blob} {a a' : Ledger NodeID (LogEntry Blob)} {n : NodeID} {x : Effect Blob}

/-! ### Who sends -/

/-- By itself a node sends only what its applier does. -/
theorem Labelled.act_applyCh (h : Labelled M Q w) (hn : n ∈ M.ids) {t : Trigger Blob}
    (hQ : (Event.trigger n t).Supplies Q) (hx : Raft.act (M.config n) (w.nodes n) t = some x) :
    x.node.applyCh = (w.nodes n).applyCh ∨ applierSend (w.nodes n) = some x.node := by
  cases acts_of_act hx with
  | electionTimeout hs => exact .inl (quiet_startElection _).same.applyCh
  | propose command => exact .inl (quiet_propose _ _).same.applyCh
  | sendAppendEntries hpeer hargs => exact .inl rfl
  | sendInstallSnapshot hpeer hargs => exact .inl rfl
  | snapshot hr => exact .inl ((h.node n hn).compact (M.persistent n hn) hQ hr).2.2
  | applierTake hnd' => exact .inl (applierTake_applyCh hnd')
  | applierSend hnd' => exact .inr hnd'
  | applierAdvance hnd' => exact .inl (applierAdvance_applyCh hnd')

/-- The handling of a call sends nothing to the channel. -/
theorem Labelled.handle_applyCh (hsim : Sim M w a) (h : Labelled M Q w) {k : ℕ} {c : Call Blob}
    (hc : c ∈ w.calls)
    (hx : Raft.handle (M.config c.callee) (w.nodes c.callee) k c.request = some x) :
    x.node.applyCh = (w.nodes c.callee).applyCh := by
  have hn := (hsim.call c hc).callee
  have himpl := (hsim.node c.callee hn).impl
  cases hreq : c.request with
  | requestVote args =>
    rw [hreq] at hx
    cases hx
    exact (quiet_handleRequestVote _ _).same.applyCh
  | appendEntries args =>
    rw [hreq] at hx
    obtain ⟨r, hr, hx⟩ := Option.bind_eq_some_iff.mp hx
    cases hx
    exact (quiet_handleAppendEntries hr).same.applyCh
  | installSnapshot args =>
    rw [hreq] at hx
    obtain ⟨r, hr, hx⟩ := Option.bind_eq_some_iff.mp hx
    cases hx
    exact ((h.node c.callee hn).handleInstallSnapshot (M.persistent _ hn) (h.call c hc args hreq)
      himpl.first_le himpl.applied_le (fun e he => (himpl.taken e he).2) hr).2.2

/-- Nor does the handling of an answer. -/
theorem onReply_applyCh {cfg : Config} {nd : Node Blob} {k : ℕ} {peer : NodeID}
    {request : Request Blob} {reply : Reply} (hx : onReply cfg nd k peer request reply = some x) :
    x.node.applyCh = nd.applyCh := by
  unfold Raft.onReply at hx
  split at hx
  · cases hx
    exact (quiet_onRequestVoteReply _ _ _).same.applyCh
  · obtain ⟨r, hr, hx⟩ := Option.bind_eq_some_iff.mp hx
    cases hx
    exact (quiet_onAppendEntriesReply hr).same.applyCh
  · cases hx
    exact (quiet_onInstallSnapshotReply _ _ _ _).same.applyCh
  · cases hx

/-- **Only the applier's send lengthens the channel.** -/
theorem Labelled.effect_applyCh (hsim : Sim M w a) (h : Labelled M Q w) {e : Event Blob}
    (hQ : e.Supplies Q) (hx : Raft.effect M w e = some x) :
    x.node.applyCh = (w.nodes x.actor).applyCh ∨
      applierSend (w.nodes x.actor) = some x.node := by
  cases e with
  | trigger n t =>
    simp only [Raft.effect, Option.ite_none_right_eq_some] at hx
    obtain ⟨hn, hx⟩ := hx
    rw [act_actor hx, M.config_id n hn]
    exact h.act_applyCh hn hQ hx
  | deliver k =>
    obtain ⟨c, hc, hn, hx⟩ := effect_deliver hx
    rw [handle_actor hx, M.config_id _ hn]
    exact .inl (h.handle_applyCh hsim (List.mem_of_getElem? hc) hx)
  | answer j =>
    obtain ⟨k, reply, c, -, -, -, hn, hx⟩ := effect_answer hx
    rw [onReply_actor hx, M.config_id _ hn]
    exact .inl (onReply_applyCh hx)

omit [Inhabited Blob] in
/-- A command in the channel was there, or was in the batch. -/
theorem mem_of_applierSend {nd nd' : Node Blob} (h : applierSend nd = some nd') {command : Blob}
    {index term : ℕ} (hm : ApplyMsg.command command index term ∈ nd'.applyCh) :
    .command command index term ∈ nd.applyCh ∨ ⟨index, term, command⟩ ∈ nd.applier.entries := by
  unfold applierSend at h
  split at h
  · cases h
    exact .inl (by simpa using hm)
  · cases h
    exact .inl hm
  · rename_i e es hap
    cases h
    obtain hm | hm := List.mem_append.mp hm
    · exact .inl hm
    · cases List.mem_singleton.mp hm
      rw [hap]
      exact .inr List.mem_cons_self
  · cases h

/-! ### What was chosen when it was sent -/

/-- **Every command that a node has sent was chosen by the node's term.** -/
def Sent (M : Membership) (w : World Blob) (a : Ledger NodeID (LogEntry Blob)) : Prop :=
  ∀ n ∈ M.ids, ∀ command index term, ApplyMsg.command command index term ∈ (w.nodes n).applyCh →
    ∃ P, Chosen a (a.cur n) P ∧ index ≤ P.length

theorem sent_start [DecidableEq Blob] (M : Membership) (a : Ledger NodeID (LogEntry Blob)) :
    Sent M (start M : World Blob) a := by
  intro n hn command index term hm
  rw [start, (newNode_fields _ _).2.2.1] at hm
  cases hm

omit [Inhabited Blob] in
/-- The ledger moves up. -/
theorem Sent.lift {n : NodeID} {index : ℕ} (hle : Le a a')
    (h : ∃ P, Chosen a (a.cur n) P ∧ index ≤ P.length) :
    ∃ P, Chosen a' (a'.cur n) P ∧ index ≤ P.length := by
  obtain ⟨P, hP, hlen⟩ := h
  exact ⟨P, (hP.mono hle).later (hle.cur n), hlen⟩

/-- What the applier holds is committed, and so chosen by now. -/
theorem Sim.taken_chosen (hsim : Sim M w a) (hn : n ∈ M.ids) {e : LogEntry Blob}
    (he : e ∈ (w.nodes n).applier.entries) : ∃ P, Chosen a (a.cur n) P ∧ e.index ≤ P.length := by
  have himpl := (hsim.node n hn).impl
  refine ⟨_, himpl.commit_chosen, ?_⟩
  rw [List.length_take_of_le himpl.commit_le]
  exact (himpl.taken e he).2

variable [DecidableEq Blob]

/-- **Every action keeps it so.** -/
theorem Sent.step (h : Sent M w a) (hsim : Sim M w a) (hlab : Labelled M Q w) (hle : Le a a')
    {x : Action Blob} (hQ : x.Supplies Q) (hx : Raft.step M w x = some w') : Sent M w' a' := by
  have hrestart : ∀ m ws, Sent M (w.restart M m ws) a' := by
    intro m ws n hn command index term hm
    rcases eq_or_ne n m with rfl | hne
    · simp only [World.restart, Function.update_self, (newNode_fields _ _).2.2.1] at hm
      cases hm
    · simp only [World.restart, Function.update_of_ne hne] at hm
      exact Sent.lift hle (h n hn command index term hm)
  cases x with
  | run e =>
    obtain ⟨y, hy, rfl⟩ := Option.map_eq_some_iff.mp hx
    intro n hn command index term hm
    refine Sent.lift hle ?_
    rcases eq_or_ne n y.actor with rfl | hne
    · simp only [World.commit, Function.update_self] at hm
      obtain heq | hsend := hlab.effect_applyCh hsim hQ hy
      · exact h _ hn command index term (heq ▸ hm)
      · obtain hm | he := mem_of_applierSend hsend hm
        · exact h _ hn command index term hm
        · exact hsim.taken_chosen hn he
    · simp only [World.commit, Function.update_of_ne hne] at hm
      exact h n hn command index term hm
  | crash m =>
    simp only [Raft.step, Option.ite_none_right_eq_some, Option.some.injEq] at hx
    obtain ⟨-, rfl⟩ := hx
    exact hrestart m []
  | crashIn e k =>
    obtain ⟨y, hy, rfl⟩ := Option.map_eq_some_iff.mp hx
    exact hrestart y.actor _

omit [DecidableEq Blob] in
/-- **The log of a leader reaches as far as its channel.** -/
theorem Sent.le_lastIndex (h : Sent M w a) (hsim : Sim M w a) (hn : n ∈ M.ids)
    (hs : (w.nodes n).state = .leader) {command : Blob} {index term : ℕ}
    (hm : ApplyMsg.command command index term ∈ (w.nodes n).applyCh) :
    index ≤ (w.nodes n).log.lastIndex := by
  obtain ⟨P, hP, hlen⟩ := h n hn command index term hm
  have hlead := (hsim.node n hn).impl.leader hs
  rw [(hsim.node n hn).lastIndex_eq]
  exact le_trans hlen (hP.prefix_lead hsim.good.inv (le_refl _) hlead).length_le

/-! ### The commit index -/

/-- **What a node has sent is committed**, as far as the node knows. -/
def Behind (nd : Node Blob) : Prop := ∀ msg ∈ nd.applyCh, msg.index ≤ nd.commitIndex

/-- A node that restarts has applied nothing. -/
theorem behind_newNode (cfg : Config) (d : Disk Blob) : Behind (newNode cfg d) := by
  intro msg hmsg
  rw [(newNode_fields cfg d).2.2.1] at hmsg
  cases hmsg

omit [Inhabited Blob] [DecidableEq Blob] in
/-- What the applier holds is committed, whichever it is. -/
theorem Behind.applierSend {nd nd' : Node Blob} (h : Behind nd) (hdelivers : Delivers nd)
    (happlied : nd.lastApplied ≤ nd.commitIndex)
    (htaken : ∀ e ∈ nd.applier.entries, e.index ≤ nd.commitIndex)
    (hs : applierSend nd = some nd') : Behind nd' := by
  have hline := hdelivers.inLine
  unfold Raft.applierSend at hs
  split at hs
  · rename_i m happ
    cases hs
    simp only [InLine, happ] at hline
    intro msg hmsg
    obtain hmsg | hmsg := List.mem_append.mp hmsg
    · exact h msg hmsg
    · rw [List.mem_singleton.mp hmsg]
      exact le_of_eq_of_le hline happlied
  · cases hs
    exact h
  · rename_i e es happ
    cases hs
    intro msg hmsg
    obtain hmsg | hmsg := List.mem_append.mp hmsg
    · exact h msg hmsg
    · rw [List.mem_singleton.mp hmsg]
      exact htaken e (by rw [happ]; exact List.mem_cons_self)
  · cases hs

/-- **Every action keeps it so.** -/
theorem Behind.step (h : ∀ n ∈ M.ids, Behind (w.nodes n)) (hsim : Sim M w a)
    (hlab : Labelled M Q w) {x : Action Blob} (hQ : x.Supplies Q)
    (hx : Raft.step M w x = some w') : ∀ n ∈ M.ids, Behind (w'.nodes n) := by
  have hrestart : ∀ m ws, ∀ n ∈ M.ids, Behind ((w.restart M m ws).nodes n) := by
    intro m ws n hn
    rcases eq_or_ne n m with rfl | hne
    · simp only [World.restart, Function.update_self]
      exact behind_newNode _ _
    · simp only [World.restart, Function.update_of_ne hne]
      exact h n hn
  cases x with
  | run e =>
    obtain ⟨y, hy, rfl⟩ := Option.map_eq_some_iff.mp hx
    intro n hn
    rcases eq_or_ne n y.actor with rfl | hne
    · simp only [World.commit, Function.update_self]
      have hle := hsim.commitIndex_le hy
      have himpl := (hsim.node _ hn).impl
      obtain heq | hsend := hlab.effect_applyCh hsim hQ hy
      · exact fun msg hmsg => le_trans (h _ hn msg (heq ▸ hmsg)) hle
      · exact (h _ hn).applierSend (hlab.node _ hn).delivers himpl.applied_le
          (fun e he => (himpl.taken e he).2) hsend
    · simp only [World.commit, Function.update_of_ne hne]
      exact h n hn
  | crash m =>
    simp only [Raft.step, Option.ite_none_right_eq_some, Option.some.injEq] at hx
    obtain ⟨-, rfl⟩ := hx
    exact hrestart m []
  | crashIn e k =>
    obtain ⟨y, hy, rfl⟩ := Option.map_eq_some_iff.mp hx
    exact hrestart y.actor _

end Raft

end DistQueue
