import DistQueue.Raft.Provenance
import DistQueue.Server.Members

/-!
# What an answer means

An RPC that proposes a command returns success once the entry *at the index and of the
term* it was given has been applied. This file shows that the entry is then the RPC's own
command, and decided: the only leader of that term put it there
(`DistQueue.Server.InLog`), and a decided entry of that index and term is in its log.
The channels of the waiting RPCs are the link between the two, and carry the terms of
entries that were delivered at the right index (`DistQueue.Server.Answers`).
-/

namespace DistQueue

namespace Server

open Broker Raft Consensus

variable {M : Membership} {a a' : Ledger NodeID (LogEntry Payload)} {n : NodeID}
  {sv sv' : ClusterServer} {cfg : ClusterConfig} {op : QueueOp} {index term : ℕ}

/-! ### Entries of a leader -/

/-- The leader of the term has put the command at the index. -/
def InLog (a : Ledger NodeID (LogEntry Payload)) (n : NodeID) (op : QueueOp) (index term : ℕ) :
    Prop :=
  ∃ L, a.lead term = some (n, L) ∧ L[index - 1]? = some ⟨index, term, encodeOp op⟩

/-- An entry of the term has been decided at the index. -/
def Delivered (a : Ledger NodeID (LogEntry Payload)) (index term : ℕ) : Prop :=
  ∃ command, Decided a ⟨index, term, command⟩

theorem InLog.mono (h : InLog a n op index term) (hle : Le a a') : InLog a' n op index term := by
  obtain ⟨L, hL, hi⟩ := h
  obtain ⟨L', hL', hp⟩ := hle.lead term n L hL
  exact ⟨L', hL', prefix_getElem?_some hp hi⟩

theorem Delivered.mono (h : Delivered a index term) (hle : Le a a') : Delivered a' index term := by
  obtain ⟨command, hd⟩ := h
  exact ⟨command, hd.mono hle⟩

/-- **The decided entry of an index and a term is the one its leader put there.** -/
theorem InLog.decided (hgood : Good M a) (h : InLog a n op index term)
    (hd : Delivered a index term) : Decided a ⟨index, term, encodeOp op⟩ := by
  obtain ⟨L, hL, hi⟩ := h
  obtain ⟨command, hd⟩ := hd
  obtain ⟨-, c, L', hL', hi'⟩ := hd.led hgood
  obtain ⟨-, rfl⟩ := Prod.mk.inj (Option.some.inj (hL.symm.trans hL'))
  rw [← Option.some.inj (hi'.symm.trans hi)]
  exact hd

/-- **An accepted proposal is in the leader's log.** -/
theorem inLog_of_propose {w : World Payload} {nd : Node Payload} (hsim : Sim M w a)
    (hn : n ∈ M.ids)
    (hnode : w.nodes n = (Raft.propose (M.config n) nd (encodeOp op)).1)
    (hlead : (Raft.propose (M.config n) nd (encodeOp op)).2.2.isLeader = true) :
    InLog a n op (Raft.propose (M.config n) nd (encodeOp op)).2.2.index
      (Raft.propose (M.config n) nd (encodeOp op)).2.2.term := by
  have hat := hsim.node n hn
  unfold Raft.propose at hnode hlead ⊢
  split at hlead
  · cases hlead
  · rename_i hstate
    rw [if_neg hstate] at hnode ⊢
    have hs : (w.nodes n).state = .leader := by
      rw [hnode]
      exact not_not.mp hstate
    have hterm : nd.currentTerm = a.cur n := by
      rw [← hat.term_eq, hnode]
    -- the new entry is the last one of the log the node holds
    have hentries : (a.log n).drop (w.nodes n).log.firstIndex =
        nd.log.entries ++ [⟨nd.log.lastIndex + 1, nd.currentTerm, encodeOp op⟩] := by
      have hlog := congrArg Log.entries hat.log_eq
      rw [compact_entries] at hlog
      rw [← hlog, hnode]
      rfl
    have hget := congrArg (·[nd.log.entries.length]?) hentries
    simp only [List.getElem?_drop, List.getElem?_concat_length] at hget
    have hindex := hat.numbered _ _ hget
    refine ⟨a.log n, ?_, ?_⟩
    · dsimp only
      rw [hterm]
      exact hat.impl.leader hs
    · dsimp only at hindex ⊢
      rw [hindex, Nat.add_sub_cancel, hget, ← hindex]

/-! ### The servers -/

/-- What the ledger says of a handler's command. -/
def HandlerOf (a : Ledger NodeID (LogEntry Payload)) (n : NodeID) : Handler → Prop
  | .proposing op (.accepted index term) => InLog a n op index term
  | .proposing op (.waiting index term _) => InLog a n op index term
  | .untrack op index => ∃ term, Decided a ⟨index, term, encodeOp op⟩
  | _ => True

theorem HandlerOf.mono {h : Handler} (hh : HandlerOf a n h) (hle : Le a a') : HandlerOf a' n h := by
  unfold HandlerOf at hh ⊢
  split <;> dsimp only at hh ⊢
  · exact hh.mono hle
  · exact hh.mono hle
  · obtain ⟨term, hd⟩ := hh
    exact ⟨term, hd.mono hle⟩

/-- **The waiting RPCs wait for their own entries.** A channel waits for one index only,
and what it holds is the term of an entry that was delivered there. -/
structure Answers (a : Ledger NodeID (LogEntry Payload)) (n : NodeID) (sv : ClusterServer) :
    Prop where
  handler : ∀ h ∈ sv.handlers, HandlerOf a n h
  waiting : ∀ op index term ch, .proposing op (.waiting index term ch) ∈ sv.handlers →
    ch < sv.nextChannel ∧ (∀ i, sv.waiters.lookup i = some ch → i = index) ∧
      ∀ t, sv.channel ch = some t → Delivered a index t
  waiter_lt : ∀ i ch, sv.waiters.lookup i = some ch → ch < sv.nextChannel
  channel_lt : ∀ ch t, sv.channel ch = some t → ch < sv.nextChannel
  applied : ∀ index term, sv.applyLoop = .applied index term → Delivered a index term

theorem answers_new (a : Ledger NodeID (LogEntry Payload)) (n : NodeID) (sm : StateMachine) :
    Answers a n (newClusterServer sm) := by
  constructor <;> intros <;> rename_i h <;> cases h

theorem Answers.mono (h : Answers a n sv) (hle : Le a a') : Answers a' n sv where
  handler x hx := (h.handler x hx).mono hle
  waiting op index term ch hm := by
    obtain ⟨hlt, hone, hch⟩ := h.waiting op index term ch hm
    exact ⟨hlt, hone, fun t ht => (hch t ht).mono hle⟩
  waiter_lt := h.waiter_lt
  channel_lt := h.channel_lt
  applied index term hal := (h.applied index term hal).mono hle

/-- A section that leaves the handlers and their channels alone. -/
theorem Answers.congr (h : Answers a n sv) (hha : sv'.handlers = sv.handlers)
    (hwa : sv'.waiters = sv.waiters) (hch : sv'.channel = sv.channel)
    (hne : sv'.nextChannel = sv.nextChannel)
    (hal : ∀ index term, sv'.applyLoop = .applied index term → Delivered a index term) :
    Answers a n sv' := by
  refine ⟨?_, ?_, ?_, ?_, hal⟩
  · rw [hha]
    exact h.handler
  · rw [hha, hwa, hch, hne]
    exact h.waiting
  · rw [hwa, hne]
    exact h.waiter_lt
  · rw [hch, hne]
    exact h.channel_lt

/-- A handler moves to a place where it does not wait. -/
theorem Answers.move (h : Answers a n sv) (k : ℕ) {y : Handler} (hy : HandlerOf a n y)
    (hw : ∀ op index term ch, y ≠ .proposing op (.waiting index term ch)) :
    Answers a n { sv with handlers := sv.handlers.set k y } := by
  refine ⟨fun x hx => ?_, fun op index term ch hm => ?_, h.waiter_lt, h.channel_lt, h.applied⟩
  · obtain hx | rfl := List.mem_or_eq_of_mem_set hx
    · exact h.handler x hx
    · exact hy
  · obtain hm | hm := List.mem_or_eq_of_mem_set hm
    · exact h.waiting op index term ch hm
    · exact absurd hm.symm (hw op index term ch)

/-- A new channel is registered. No handler waits on it yet. -/
theorem Answers.register (h : Answers a n sv) (i : ℕ) :
    Answers a n { sv with
      waiters := sv.waiters.insert i sv.nextChannel
      nextChannel := sv.nextChannel + 1 } := by
  refine ⟨h.handler, fun op index term ch hm => ?_, fun j ch hj => ?_, fun ch t hch => ?_,
    h.applied⟩
  · obtain ⟨hlt, hone, hch⟩ := h.waiting op index term ch hm
    refine ⟨Nat.lt_succ_of_lt hlt, fun j hj => ?_, hch⟩
    obtain ⟨-, rfl⟩ | ⟨-, hj⟩ := lookup_insert_some hj
    · exact absurd hlt (lt_irrefl _)
    · exact hone j hj
  · obtain ⟨-, rfl⟩ | ⟨-, hj⟩ := lookup_insert_some hj
    · exact Nat.lt_succ_self _
    · exact Nat.lt_succ_of_lt (h.waiter_lt j ch hj)
  · exact Nat.lt_succ_of_lt (h.channel_lt ch t hch)

/-- A channel is taken from the waiters. -/
theorem Answers.unregister (h : Answers a n sv) (i : ℕ) :
    Answers a n { sv with waiters := sv.waiters.erase i } := by
  refine ⟨h.handler, fun op index term ch hm => ?_, fun j ch hj => ?_, h.channel_lt, h.applied⟩
  · obtain ⟨hlt, hone, hch⟩ := h.waiting op index term ch hm
    exact ⟨hlt, fun j hj => hone j (lookup_erase_some hj).2, hch⟩
  · exact h.waiter_lt j ch (lookup_erase_some hj).2

/-- A handler starts to wait, on the channel it has just registered. -/
theorem Answers.wait (h : Answers a n sv) (k : ℕ) (hin : InLog a n op index term) :
    Answers a n { sv with
      waiters := sv.waiters.insert index sv.nextChannel
      nextChannel := sv.nextChannel + 1
      handlers := sv.handlers.set k (.proposing op (.waiting index term sv.nextChannel)) } := by
  have hr := h.register index
  refine ⟨fun x hx => ?_, fun op' index' term' ch hm => ?_, hr.waiter_lt, hr.channel_lt,
    h.applied⟩
  · obtain hx | rfl := List.mem_or_eq_of_mem_set hx
    · exact h.handler x hx
    · exact hin
  · obtain hm | hm := List.mem_or_eq_of_mem_set hm
    · exact hr.waiting op' index' term' ch hm
    · -- the channel is new: nobody else is registered with it, and it is empty
      cases hm
      refine ⟨Nat.lt_succ_self _, fun j hj => ?_, fun t ht => ?_⟩
      · obtain ⟨rfl, -⟩ | ⟨-, hj⟩ := lookup_insert_some hj
        · rfl
        · exact absurd (h.waiter_lt j _ hj) (lt_irrefl _)
      · exact absurd (h.channel_lt _ t ht) (lt_irrefl _)

/-- **The apply loop wakes a waiter**: it was waiting for this index. -/
theorem Answers.wake (h : Answers a n sv) (hd : Delivered a index term) :
    Answers a n (sv.wake index term) := by
  unfold ClusterServer.wake
  split
  · rename_i ch₀ hlook
    have he := h.unregister index
    refine ⟨h.handler, fun op index' term' ch hm => ?_, he.waiter_lt, fun ch t hch => ?_,
      h.applied⟩
    · obtain ⟨hlt, hone, hch⟩ := h.waiting op index' term' ch hm
      refine ⟨hlt, (he.waiting op index' term' ch hm).2.1, fun t ht => ?_⟩
      by_cases hc : ch = ch₀
      · subst hc
        obtain rfl := hone index hlook
        simp only [Function.update_self, Option.some.injEq] at ht
        exact ht ▸ hd
      · simp only [Function.update_of_ne hc] at ht
        exact hch t ht
    · by_cases hc : ch = ch₀
      · subst hc
        exact h.waiter_lt index ch hlook
      · simp only [Function.update_of_ne hc] at hch
        exact h.channel_lt ch t hch
  · exact h

/-! ### The sections -/

/-- What a section is told about the log is so. -/
def Informed (a : Ledger NodeID (LogEntry Payload)) (n : NodeID) (sv : ClusterServer) :
    Section → Prop
  | .handler k (.proposed r) => r.isLeader = true → ∀ op,
    sv.handlers[k]? = some (.proposing op .ready) → InLog a n op r.index r.term
  | .receive (.command _ index term) => Delivered a index term
  | _ => True

/-- A handler that begins has nothing to show. -/
theorem handlerOf_begin (a : Ledger NodeID (LogEntry Payload)) (n : NodeID) (rpc : Rpc) :
    HandlerOf a n rpc.begin := by
  unfold Rpc.begin
  split <;> trivial

theorem begin_ne_waiting (rpc : Rpc) (op : QueueOp) (index term ch : ℕ) :
    rpc.begin ≠ .proposing op (.waiting index term ch) := by
  unfold Rpc.begin
  split <;> simp

/-- A section of `propose` in an RPC handler. -/
theorem Answers.propose (h : Answers a n sv) (hgood : Good M a) {k : ℕ} {p : Proposal}
    {ans : Answer} {q : ClusterServer × Progress} (hk : sv.handlers[k]? = some (.proposing op p))
    (hi : Informed a n sv (.handler k ans)) (hq : sv.proposeSection p ans = some q) :
    Answers a n
      { q.1 with handlers := q.1.handlers.set k (ClusterServer.afterPropose op q.2) } := by
  have hh := h.handler _ (List.mem_of_getElem? hk)
  unfold ClusterServer.proposeSection at hq
  split at hq
  · -- the node has answered
    rename_i r
    cases hq
    dsimp only
    split
    · rename_i hlead
      exact h.move k (hi hlead op hk) (by simp [ClusterServer.afterPropose])
    · exact h.move k trivial (by simp [ClusterServer.afterPropose])
  · cases hq
    exact h.wait k hh
  · -- the channel holds a term
    rename_i index term ch
    obtain ⟨out, hout, rfl⟩ := Option.map_eq_some_iff.mp hq
    dsimp only
    split
    · rename_i heq
      subst heq
      have hdec := InLog.decided hgood hh
        ((h.waiting op index out ch (List.mem_of_getElem? hk)).2.2 out hout)
      unfold ClusterServer.afterPropose
      dsimp only
      split
      · exact h.move k trivial (by simp)
      · exact h.move k ⟨out, hdec⟩ (by simp)
    · exact h.move k trivial (by simp [ClusterServer.afterPropose])
  · cases hq
    exact (h.unregister _).move k trivial (by simp [ClusterServer.afterPropose])
  · cases hq

/-- A section of `propose` in the timeout loop. -/
theorem Answers.scannerPropose (h : Answers a n sv) {p : Proposal} {ans : Answer}
    {q : ClusterServer × Progress} (hq : sv.proposeSection p ans = some q) : Answers a n q.1 := by
  unfold ClusterServer.proposeSection at hq
  split at hq
  · cases hq
    exact h
  · cases hq
    exact h.register _
  · obtain ⟨out, -, rfl⟩ := Option.map_eq_some_iff.mp hq
    exact h
  · cases hq
    exact h.unregister _
  · cases hq

/-- **The step of a handler.** -/
theorem Answers.handlerStep (h : Answers a n sv) (hgood : Good M a) {k : ℕ} {x : Handler}
    {ans : Answer} {r : ClusterServer × Handler} (hk : sv.handlers[k]? = some x)
    (hi : Informed a n sv (.handler k ans)) (hr : sv.handlerSection cfg x ans = some r) :
    Answers a n { r.1 with handlers := r.1.handlers.set k r.2 } := by
  unfold ClusterServer.handlerSection at hr
  split at hr
  case h_6 =>
    obtain ⟨q, hq, rfl⟩ := Option.map_eq_some_iff.mp hr
    exact h.propose hgood hk hi hq
  case h_9 => cases hr
  all_goals obtain rfl := Option.some.inj hr
  case h_2 =>
    refine (h.move k ?_ ?_).congr rfl rfl rfl rfl h.applied
    · unfold ClusterServer.takeTask
      dsimp only
      split <;> trivial
    · unfold ClusterServer.takeTask
      dsimp only
      split <;> simp
  case h_3 =>
    exact (h.move k (y := .returned _) trivial (by simp)).congr rfl rfl rfl rfl h.applied
  case h_7 =>
    exact (h.move k (y := .returned _) trivial (by simp)).congr rfl rfl rfl rfl h.applied
  case h_8 => exact h.move k trivial (by simp)
  -- what is left only chooses between two places
  all_goals
    dsimp only
    split <;> exact h.move k trivial (by simp)

/-- **The step of the apply loop.** -/
theorem Answers.receive (h : Answers a n sv) {msg : ApplyMsg Payload}
    (hi : Informed a n sv (.receive msg)) (hs : sv.receive msg = some sv') : Answers a n sv' := by
  have happly : ∀ {i t : ℕ}, Delivered a i t →
      ∀ index term, ApplyLoop.applied i t = .applied index term → Delivered a index term := by
    rintro i t hd index term ⟨⟩
    exact hd
  obtain ⟨sm, rfl, -⟩ := ClusterServer.receive_cases hs
  cases msg with
  | snapshot m => exact h.congr rfl rfl rfl rfl (by simp [loopAfter])
  | command command index term => exact h.congr rfl rfl rfl rfl (happly hi)

/-- **Every section keeps the answers right.** -/
theorem Answers.step {e : Section} (h : Answers a n sv) (hgood : Good M a)
    (hi : Informed a n sv e) (hs : sv.step cfg e = some sv') : Answers a n sv' := by
  cases e with
  | call rpc =>
    cases hs
    refine ⟨fun x hx => ?_, fun op index term ch hm => ?_, h.waiter_lt, h.channel_lt, h.applied⟩
    · obtain hx | hx := List.mem_append.mp hx
      · exact h.handler x hx
      · rw [List.mem_singleton.mp hx]
        exact handlerOf_begin a n rpc
    · obtain hm | hm := List.mem_append.mp hm
      · exact h.waiting op index term ch hm
      · exact absurd (List.mem_singleton.mp hm).symm (begin_ne_waiting rpc op index term ch)
  | handler k ans =>
    obtain ⟨x, hx, hs⟩ := Option.bind_eq_some_iff.mp hs
    obtain ⟨r, hr, hs⟩ := Option.bind_eq_some_iff.mp hs
    cases hs
    exact h.handlerStep hgood hx hi hr
  | scan now order =>
    obtain ⟨-, -, rfl⟩ := ClusterServer.step_scan hs
    exact h.congr rfl rfl rfl rfl h.applied
  | scanner ans =>
    simp only [ClusterServer.step, ClusterServer.scannerSection] at hs
    split at hs
    · cases hs
      exact h.congr rfl rfl rfl rfl h.applied
    · cases hs
      exact h.congr rfl rfl rfl rfl h.applied
    · obtain ⟨q, hq, rfl⟩ := Option.map_eq_some_iff.mp hs
      have hq' := h.scannerPropose hq
      exact hq'.congr rfl rfl rfl rfl hq'.applied
    · cases hs
  | watcher ans =>
    rw [ClusterServer.watcherSection_eq hs]
    exact h.congr rfl rfl rfl rfl h.applied
  | requeue order =>
    obtain ⟨-, rfl⟩ := ClusterServer.step_requeue hs
    exact h.congr rfl rfl rfl rfl h.applied
  | receive msg =>
    simp only [ClusterServer.step, Option.ite_none_right_eq_some] at hs
    exact h.receive hi hs.2
  | applyLoop =>
    obtain ⟨-, rfl⟩ | ⟨index, term, k, al, hal, hidle, rfl⟩ :=
      ClusterServer.applyLoopSection_cases hs
    · exact h.congr rfl rfl rfl rfl (by simp)
    · refine (h.wake (h.applied index term hal)).congr rfl rfl rfl rfl ?_
      obtain rfl | rfl := hidle <;> simp
  | capture order =>
    obtain ⟨index, -, -, rfl⟩ := ClusterServer.step_capture hs
    exact h.congr rfl rfl rfl rfl (by simp)
  | submit =>
    obtain ⟨-, -, -, rfl⟩ := ClusterServer.step_submit hs
    exact h.congr rfl rfl rfl rfl (by simp)

/-! ### The system -/

variable {maxRetries : ℤ} {s s' : System}

/-- **What the system has answered is so**: the acks that have returned success stand
decided in the log, at the index that goes with them. -/
structure Sound (M : Membership) (s : System) (a : Ledger NodeID (LogEntry Payload)) : Prop where
  traced : Traced M s.trace s.world a
  answers : ∀ n ∈ M.ids, Answers a n (s.server n)
  acked : ∀ id index, (id, index) ∈ s.acked →
    ∃ op term, op.type = .ack ∧ op.taskID = id ∧ Decided a ⟨index, term, encodeOp op⟩

theorem sound_start (maxRetries : ℤ) (M : Membership) :
    ∃ a, Sound M (System.start maxRetries M) a := by
  obtain ⟨a, ha⟩ : ∃ a, Traced M [] (start M : World Payload) a := traced_start
  exact ⟨a, ha, fun n _ => answers_new a n _, fun id index h => by cases h⟩

/-- A server runs a section that is rightly told about the log. -/
theorem Sound.section (h : Sound M s a) {sv : ClusterServer} {e : Section}
    (hi : n ∈ M.ids → Informed a n (s.server n) e) (hs : (s.server n).step cfg e = some sv)
    (m : NodeID) (hm : m ∈ M.ids) : Answers a m (Function.update s.server n sv m) := by
  rcases eq_or_ne m n with rfl | hne
  · rw [Function.update_self]
    exact (h.answers m hm).step h.traced.sim.good (hi hm) hs
  · rw [Function.update_of_ne hne]
    exact h.answers m hm

/-- **A section of a server keeps it sound.** -/
theorem Sound.serve (h : Sound M s a) {e : Section} (hs : s.serve cfg M n e = some s') :
    Sound M s' a := by
  simp only [System.serve, Option.ite_none_right_eq_some] at hs
  obtain ⟨⟨hn, htrue⟩, hs⟩ := hs
  obtain ⟨sv, hsv, rfl⟩ := Option.map_eq_some_iff.mp hs
  refine ⟨h.traced, h.section (fun _ => ?_) hsv, fun id index hack => ?_⟩
  · -- a section that is not a call hears of the log from the apply channel only
    cases e with
    | handler k ans =>
      cases ans with
      | proposed r => exact htrue.elim
      | _ => trivial
    | receive msg =>
      cases msg with
      | command command index term =>
        exact ⟨command, (h.traced.sim.node n hn).impl.sent command index term
          (List.mem_of_getElem? htrue)⟩
      | snapshot msg => trivial
    | _ => trivial
  · obtain hack | hack := List.mem_append.mp hack
    · exact h.acked id index hack
    · -- the handler that returns was waiting for a decided entry
      unfold System.ackOf at hack
      split at hack
      · split at hack
        · rename_i op index' hk
          obtain ⟨term, hd⟩ := (h.answers n hn).handler _ (List.mem_of_getElem? hk)
          split at hack
          · rename_i hty
            cases List.mem_singleton.mp hack
            exact ⟨op, term, hty, rfl, hd⟩
          · cases hack
        · cases hack
      · cases hack

/-- **So does a step of consensus**, with a ledger that has grown. -/
theorem Sound.perform (h : Sound M s a) {x : Action Payload}
    (hs : s.perform maxRetries M x = some s') : ∃ a', Le a a' ∧ Sound M s' a' := by
  obtain ⟨w, hw, rfl⟩ := perform_eq hs
  obtain ⟨a', hle, htraced⟩ := h.traced.step hw
  refine ⟨a', hle, htraced, fun n hn => ?_, fun id index hack => ?_⟩
  · dsimp only
    split
    · exact answers_new a' n _
    · exact (h.answers n hn).mono hle
  · obtain ⟨op, term, hty, hid, hd⟩ := h.acked id index hack
    exact ⟨op, term, hty, hid, hd.mono hle⟩

/-- **Every step of the system keeps its answers right.** -/
theorem Sound.step {x : SystemMove} (h : Sound M s a)
    (hs : s.step cfg maxRetries M x = some s') : ∃ a', Le a a' ∧ Sound M s' a' := by
  obtain ⟨n, e, -, hs⟩ | ⟨y, -, hs⟩ | ⟨n, e, y, s₁, sv, hcall, hs₁, hsv, rfl⟩ := step_cases hs
  · exact ⟨a, Le.refl a, h.serve hs⟩
  · exact h.perform hs
  · obtain ⟨a', hle, h₁⟩ := h.perform hs₁
    refine ⟨a', hle, h₁.traced, h₁.section (fun _ => ?_) hsv, h₁.acked⟩
    obtain ⟨p, op, hop, rfl, rfl⟩ | ⟨index, st, -, -, rfl⟩ := call_cases hcall
    · cases p with
      | scanner => trivial
      | handler k =>
        -- the handler is told of the entry it has just proposed
        intro hlead op' hk
        obtain ⟨hn, ⟨x, hx, hnode⟩, hsame, -⟩ := perform_trigger hs₁
        cases hx
        have hop' : op' = op := by
          rw [hsame] at hk
          simp only [ClusterServer.proposal, hk, Option.some.injEq] at hop
          exact hop
        subst hop'
        exact inLog_of_propose h₁.traced.sim hn hnode hlead
    · trivial

/-- The ledgers of a run move up. -/
theorem Sound.exec {xs : List SystemMove} (h : Sound M s a)
    (hs : Run.exec (System.step cfg maxRetries M) s xs = some s') :
    ∃ a', Le a a' ∧ Sound M s' a' := by
  refine Run.invariant (P := fun v => ∃ a', Le a a' ∧ Sound M v a') ⟨a, Le.refl a, h⟩ ?_ hs
  rintro v x v' ⟨b, hle, hb⟩ hv
  obtain ⟨b', hle', hb'⟩ := hb.step hv
  exact ⟨b', hle.trans hle', hb'⟩

/-! ### Who makes an entry -/

/-- **An entry is made by a server that proposes**, at a node that leads. -/
theorem proposal_of_makes {s : System} {x : SystemMove} {y : Action Payload}
    {o : Option (NodeID × Section)} (hcall : s.call M x = some (y, o)) {w : World Payload}
    (hw : Raft.step M s.world y = some w) {e : LogEntry Payload}
    (he : y.makes s.world = some e) :
    ∃ n ∈ M.ids, ∃ p op, (x = .propose n p ∨ ∃ k, x = .proposeCrash n p k) ∧
      (s.server n).proposal p = some op ∧ (s.world.nodes n).state = .leader ∧
      e = ⟨(s.world.nodes n).log.lastIndex + 1, (s.world.nodes n).currentTerm, encodeOp op⟩ := by
  cases x with
  | act y' =>
    simp only [System.call, Option.ite_none_left_eq_some, Option.some.injEq, Prod.mk.injEq] at hcall
    obtain ⟨hy, rfl, -⟩ := hcall
    cases y' with
    | crash m => cases he
    | run e | crashIn e k =>
      cases e with
      | deliver j | answer j => cases he
      | trigger m t =>
        cases t with
        | propose command => exact absurd rfl hy
        | _ => cases he
  | serve m e => cases hcall
  | propose m p =>
    obtain ⟨op, hop, heq⟩ := Option.map_eq_some_iff.mp hcall
    cases heq
    simp only [Action.makes, Event.makes, Option.ite_none_right_eq_some, Option.some.injEq] at he
    obtain ⟨hlead, rfl⟩ := he
    exact ⟨m, mem_of_step_trigger (.inl rfl) hw, p, op, .inl rfl, hop, hlead, rfl⟩
  | proposeCrash m p k =>
    obtain ⟨op, hop, heq⟩ := Option.map_eq_some_iff.mp hcall
    cases heq
    simp only [Action.makes, Event.makes, Option.ite_none_right_eq_some, Option.some.injEq] at he
    obtain ⟨hlead, rfl⟩ := he
    exact ⟨m, mem_of_step_trigger (.inr ⟨k, rfl⟩) hw, p, op, .inr ⟨k, rfl⟩, hop, hlead, rfl⟩
  | submit m | submitCrash m k =>
    simp only [System.call] at hcall
    split at hcall
    · cases hcall
      cases he
    · cases hcall

end Server

end DistQueue
