import DistQueue.Server.Answers

/-!
# The calls of `propose`

Any goroutine that proposes is looked at in the same way here, be it the handler of an RPC
or the timeout loop (`DistQueue.Server.ClusterServer.proposing`), and of a section it only
matters what it does to these calls, to the waiters and their channels
(`DistQueue.Server.Affects`).

Two things are kept about the calls of a server. A channel belongs to one call and waits
for one index; what it holds is the term of a command that the server itself has taken off
its apply channel at this index (`DistQueue.Server.Heeds`). And the command of a call
stands in the log of the leader, at the index and in the term that `Propose` gave
(`DistQueue.Server.Entered`).
-/

namespace DistQueue

namespace Server

open Broker Raft Consensus

variable {a a' : Ledger NodeID (LogEntry Payload)} {n : NodeID}
  {sv sv' : ClusterServer} {cfg : ClusterConfig} {op : QueueOp} {index term : ℕ}

/-! ### The calls -/

/-- The call of `propose` that a goroutine is in: its command, and where it is. -/
def ClusterServer.proposing (sv : ClusterServer) : Proposer → Option (QueueOp × Proposal)
  | .handler k =>
    match sv.handlers[k]? with
    | some (.proposing op q) => some (op, q)
    | _ => none
  | .scanner =>
    match sv.scanner with
    | .proposing id _ q => some (.nack id, q)
    | _ => none

/-- The section in which a goroutine is told something. -/
def Proposer.told (p : Proposer) (ans : Answer) : Section :=
  match p with
  | .handler k => .handler k ans
  | .scanner => .scanner ans

/-- The index and the term that `Propose` gave. -/
def Proposal.entry? : Proposal → Option (ℕ × ℕ)
  | .ready => none
  | .accepted index term | .waiting index term _ => some (index, term)

theorem proposing_handler {k : ℕ} {q : Proposal} :
    sv.proposing (.handler k) = some (op, q) ↔ sv.handlers[k]? = some (.proposing op q) := by
  unfold ClusterServer.proposing
  dsimp only
  constructor
  · intro h
    split at h
    · rename_i hk
      cases h
      exact hk
    · cases h
  · intro h
    rw [h]

theorem proposing_scanner {q : Proposal} :
    sv.proposing .scanner = some (op, q) ↔
      ∃ id rest, sv.scanner = .proposing id rest q ∧ op = .nack id := by
  unfold ClusterServer.proposing
  dsimp only
  constructor
  · intro h
    split at h
    · rename_i id rest q' hsc
      cases h
      exact ⟨id, rest, hsc, rfl⟩
    · cases h
  · rintro ⟨id, rest, hsc, rfl⟩
    rw [hsc]

theorem proposing_of_proposal {p : Proposer} (h : sv.proposal p = some op) :
    sv.proposing p = some (op, .ready) := by
  cases p with
  | handler k =>
    simp only [ClusterServer.proposal] at h
    split at h
    · rename_i hk
      cases h
      exact proposing_handler.mpr hk
    · cases h
  | scanner =>
    simp only [ClusterServer.proposal] at h
    split at h
    · rename_i id rest hsc
      cases h
      exact proposing_scanner.mpr ⟨id, rest, hsc, rfl⟩
    · cases h

theorem proposing_congr (hh : sv'.handlers = sv.handlers) (hsc : sv'.scanner = sv.scanner) :
    sv'.proposing = sv.proposing := by
  funext p
  cases p with
  | handler k => simp only [ClusterServer.proposing, hh]
  | scanner => simp only [ClusterServer.proposing, hsc]

/-! ### What a section does to them -/

/-- **What a section does to the calls of `propose`**, to the waiters and their channels:
nothing but that new calls are made, a part of one call, or the wake-up for an index. The
receipt of a message is not among them (`DistQueue.Server.ClusterServer.receive_cases`). -/
inductive Affects (sv sv' : ClusterServer) (e : Section) : Prop
  | none (hproposing : ∀ p op q, sv'.proposing p = some (op, q) →
        sv.proposing p = some (op, q) ∨ q = .ready)
      (hwaiters : sv'.waiters = sv.waiters) (hchannel : sv'.channel = sv.channel)
      (hnext : sv'.nextChannel = sv.nextChannel)
      (hloop : ∀ index term, sv'.applyLoop = .applied index term ↔
        sv.applyLoop = .applied index term)
  | call (p : Proposer) (op : QueueOp) (q : Proposal) (ans : Answer)
      (r : ClusterServer × Progress) (he : e = p.told ans) (hp : sv.proposing p = some (op, q))
      (hr : sv.proposeSection q ans = some r)
      (hself : ∀ op' q', sv'.proposing p = some (op', q') → op' = op ∧ r.2 = .more q')
      (hothers : ∀ p', p' ≠ p → sv'.proposing p' = sv.proposing p')
      (hwaiters : sv'.waiters = r.1.waiters) (hchannel : sv'.channel = sv.channel)
      (hnext : sv'.nextChannel = r.1.nextChannel) (hloop : sv'.applyLoop = sv.applyLoop)
  | wake (index term : ℕ) (he : e = .applyLoop) (hat : sv.applyLoop = .applied index term)
      (hproposing : sv'.proposing = sv.proposing)
      (hwaiters : sv'.waiters = (sv.wake index term).waiters)
      (hchannel : sv'.channel = (sv.wake index term).channel)
      (hnext : sv'.nextChannel = sv.nextChannel)
      (hloop : ∀ index' term', sv'.applyLoop ≠ .applied index' term')

/-- A section that changes neither the handlers nor the scanner, and of the apply loop at
most where it is while it waits for no wake-up. -/
theorem Affects.of_eq {e : Section} (hh : sv'.handlers = sv.handlers)
    (hsc : sv'.scanner = sv.scanner) (hwaiters : sv'.waiters = sv.waiters)
    (hchannel : sv'.channel = sv.channel) (hnext : sv'.nextChannel = sv.nextChannel)
    (hloop : ∀ index term, sv'.applyLoop = .applied index term ↔
      sv.applyLoop = .applied index term) : Affects sv sv' e :=
  .none (fun p op q hp => .inl (by rwa [proposing_congr hh hsc] at hp)) hwaiters hchannel hnext
    hloop

/-- A handler moves on, in its RPC and not within a call. -/
theorem Affects.of_set {e : Section} {k : ℕ} {y : Handler}
    (hy : ∀ op q, y = .proposing op q → q = .ready) (hh : sv'.handlers = sv.handlers.set k y)
    (hsc : sv'.scanner = sv.scanner) (hwaiters : sv'.waiters = sv.waiters)
    (hchannel : sv'.channel = sv.channel) (hnext : sv'.nextChannel = sv.nextChannel)
    (hloop : sv'.applyLoop = sv.applyLoop) : Affects sv sv' e := by
  refine .none (fun p op q hp => ?_) hwaiters hchannel hnext fun _ _ => by rw [hloop]
  cases p with
  | handler j =>
    rw [proposing_handler, hh, List.getElem?_set] at hp
    split at hp
    · split at hp
      · exact .inr (hy op q (Option.some.inj hp))
      · cases hp
    · exact .inl (proposing_handler.mpr hp)
  | scanner =>
    rw [proposing_scanner, hsc] at hp
    exact .inl (proposing_scanner.mpr hp)

/-- A section of `propose` leads out of the call, or on in it. -/
theorem afterPropose_eq_proposing {o : Progress} {op' : QueueOp} {q : Proposal}
    (h : ClusterServer.afterPropose op o = .proposing op' q) : op' = op ∧ o = .more q := by
  unfold ClusterServer.afterPropose at h
  split at h
  · cases h
    exact ⟨rfl, rfl⟩
  · split at h <;> cases h
  · cases h
  · cases h

/-- The step of a handler affects its own call only. -/
theorem affects_handler {k : ℕ} {ans : Answer} (h : sv.step cfg (.handler k ans) = some sv') :
    Affects sv sv' (.handler k ans) := by
  obtain ⟨x, hx, h⟩ := Option.bind_eq_some_iff.mp h
  obtain ⟨r, hr, h⟩ := Option.bind_eq_some_iff.mp h
  cases h
  unfold ClusterServer.handlerSection at hr
  split at hr
  case h_6 _ op q =>
    obtain ⟨o, ho, rfl⟩ := Option.map_eq_some_iff.mp hr
    have heq := ClusterServer.proposeSection_eq ho
    have hhs : o.1.handlers = sv.handlers := by rw [heq]
    have hsc : o.1.scanner = sv.scanner := by rw [heq]
    refine .call (.handler k) op q ans o rfl (proposing_handler.mpr hx) ho (fun op' q' hp => ?_)
      (fun p hne => ?_) rfl (by rw [heq]) rfl (by rw [heq])
    · rw [proposing_handler, hhs,
        List.getElem?_set_self (List.getElem?_eq_some_iff.mp hx).1] at hp
      exact afterPropose_eq_proposing (Option.some.inj hp)
    · cases p with
      | handler j =>
        have hj : k ≠ j := fun hkj => hne (by rw [hkj])
        simp only [ClusterServer.proposing, hhs, List.getElem?_set_ne hj]
      | scanner => simp only [ClusterServer.proposing, hsc]
  case h_9 => cases hr
  all_goals obtain rfl := Option.some.inj hr
  case h_2 =>
    refine Affects.of_set ?_ rfl rfl rfl rfl rfl rfl
    unfold ClusterServer.takeTask
    dsimp only
    split <;> simp
  case h_3 | h_7 | h_8 => exact Affects.of_set (by simp) rfl rfl rfl rfl rfl rfl
  -- what is left only chooses between two places
  all_goals
    refine Affects.of_set ?_ rfl rfl rfl rfl rfl rfl
    dsimp only
    split <;> simp

/-- The step of the scanner affects its own call only. -/
theorem affects_scanner {ans : Answer} (h : sv.step cfg (.scanner ans) = some sv') :
    Affects sv sv' (.scanner ans) := by
  simp only [ClusterServer.step, ClusterServer.scannerSection] at h
  split at h
  · cases h
    refine .none (fun p op q hp => ?_) rfl rfl rfl fun _ _ => Iff.rfl
    cases p with
    | handler k => exact .inl hp
    | scanner =>
      obtain ⟨id, rest, hsc, -⟩ := proposing_scanner.mp hp
      dsimp only at hsc
      split at hsc <;> cases hsc
  · cases h
    refine .none (fun p op q hp => ?_) rfl rfl rfl fun _ _ => Iff.rfl
    cases p with
    | handler k => exact .inl hp
    | scanner =>
      obtain ⟨id, rest, hsc, -⟩ := proposing_scanner.mp hp
      dsimp only at hsc
      split at hsc
      · cases hsc
        exact .inr rfl
      · unfold Scanner.next at hsc
        split at hsc <;> cases hsc
  · rename_i id rest q hsc
    obtain ⟨r, hr, rfl⟩ := Option.map_eq_some_iff.mp h
    have heq := ClusterServer.proposeSection_eq hr
    have hhs : r.1.handlers = sv.handlers := by rw [heq]
    refine .call .scanner (.nack id) q _ r rfl (proposing_scanner.mpr ⟨id, rest, hsc, rfl⟩) hr
      (fun op' q' hp => ?_) (fun p hne => ?_) rfl (by rw [heq]) rfl (by rw [heq])
    · obtain ⟨id', rest', hsc', rfl⟩ := proposing_scanner.mp hp
      dsimp only at hsc'
      split at hsc'
      · rename_i hmore
        cases hsc'
        exact ⟨rfl, hmore⟩
      · unfold Scanner.next at hsc'
        split at hsc' <;> cases hsc'
    · cases p with
      | handler k => simp only [ClusterServer.proposing, hhs]
      | scanner => exact absurd rfl hne
  · cases h

/-- **Every other section affects the calls in one of the three ways.** -/
theorem affects_of_step {e : Section} (he : ∀ msg, e ≠ .receive msg)
    (h : sv.step cfg e = some sv') : Affects sv sv' e := by
  cases e with
  | call rpc =>
    cases h
    refine .none (fun p op q hp => ?_) rfl rfl rfl fun _ _ => Iff.rfl
    cases p with
    | handler k =>
      rw [proposing_handler, List.getElem?_append] at hp
      split at hp
      · exact .inl (proposing_handler.mpr hp)
      · have hbegin := List.mem_singleton.mp (List.mem_of_getElem? hp)
        unfold Rpc.begin at hbegin
        split at hbegin <;> cases hbegin
        exact .inr rfl
    | scanner => exact .inl hp
  | handler k ans => exact affects_handler h
  | scan now order =>
    obtain ⟨-, -, rfl⟩ := ClusterServer.step_scan h
    refine .none (fun p op q hp => ?_) rfl rfl rfl fun _ _ => Iff.rfl
    cases p with
    | handler k => exact .inl hp
    | scanner =>
      obtain ⟨id, rest, hsc, -⟩ := proposing_scanner.mp hp
      simp only [ClusterServer.scan, Scanner.next] at hsc
      split at hsc <;> cases hsc
  | scanner ans => exact affects_scanner h
  | watcher ans =>
    rw [ClusterServer.watcherSection_eq h]
    exact .of_eq rfl rfl rfl rfl rfl fun _ _ => Iff.rfl
  | requeue order =>
    obtain ⟨-, rfl⟩ := ClusterServer.step_requeue h
    exact .of_eq rfl rfl rfl rfl rfl fun _ _ => Iff.rfl
  | receive msg => exact absurd rfl (he msg)
  | applyLoop =>
    obtain ⟨hal, rfl⟩ | ⟨index, term, k, al, hal, hidle, rfl⟩ :=
      ClusterServer.applyLoopSection_cases h
    · exact .of_eq rfl rfl rfl rfl rfl fun _ _ => by simp [hal]
    · have hwake := ClusterServer.wake_eq sv index term
      have hhandlers : (sv.wake index term).handlers = sv.handlers := by rw [hwake]
      have hscanner : (sv.wake index term).scanner = sv.scanner := by rw [hwake]
      have hnext : (sv.wake index term).nextChannel = sv.nextChannel := by rw [hwake]
      refine .wake index term rfl hal (proposing_congr hhandlers hscanner) rfl rfl hnext ?_
      obtain rfl | rfl := hidle <;> simp
  | capture order =>
    obtain ⟨index, hal, -, rfl⟩ := ClusterServer.step_capture h
    exact .of_eq rfl rfl rfl rfl rfl fun _ _ => by simp [hal]
  | submit =>
    obtain ⟨index, st, hal, rfl⟩ := ClusterServer.step_submit h
    exact .of_eq rfl rfl rfl rfl rfl fun _ _ => by simp [hal]

/-- The sections of `propose`: the node's answer, the registration, the wake-up, and the
end of the five seconds. -/
theorem proposeSection_cases {q : Proposal} {ans : Answer} {r : ClusterServer × Progress}
    (h : sv.proposeSection q ans = some r) :
    (∃ t, q = .ready ∧ ans = .proposed t ∧
      r = (sv, if t.isLeader then .more (.accepted t.index t.term) else .notLeader)) ∨
    (∃ index term, q = .accepted index term ∧ ans = .silent ∧
      r = ({ sv with
        waiters := sv.waiters.insert index sv.nextChannel
        nextChannel := sv.nextChannel + 1 }, .more (.waiting index term sv.nextChannel))) ∨
    (∃ index term c out, q = .waiting index term c ∧ ans = .silent ∧ sv.channel c = some out ∧
      r = (sv, if out = term then .committed index else .notLeader)) ∨
    (∃ index term c, q = .waiting index term c ∧ ans = .timer ∧
      r = ({ sv with waiters := sv.waiters.erase index }, .timedOut)) := by
  unfold ClusterServer.proposeSection at h
  split at h
  · exact .inl ⟨_, rfl, rfl, (Option.some.inj h).symm⟩
  · exact .inr (.inl ⟨_, _, rfl, rfl, (Option.some.inj h).symm⟩)
  · obtain ⟨out, hout, rfl⟩ := Option.map_eq_some_iff.mp h
    exact .inr (.inr (.inl ⟨_, _, _, out, rfl, rfl, hout, rfl⟩))
  · exact .inr (.inr (.inr ⟨_, _, _, rfl, rfl, (Option.some.inj h).symm⟩))
  · cases h

/-- The wake-up takes the waiter of the index, if there is one, and fills its channel. -/
theorem wake_cases (sv : ClusterServer) (index term : ℕ) :
    (∃ c, sv.waiters.lookup index = some c ∧
      (sv.wake index term).waiters = sv.waiters.erase index ∧
      (sv.wake index term).channel = Function.update sv.channel c (some term)) ∨
    (sv.waiters.lookup index = none ∧ (sv.wake index term).waiters = sv.waiters ∧
      (sv.wake index term).channel = sv.channel) := by
  unfold ClusterServer.wake
  split
  · rename_i c hc
    exact .inl ⟨c, hc, rfl, rfl⟩
  · rename_i hnone
    exact .inr ⟨hnone, rfl, rfl⟩

/-! ### The channels -/

variable {ch ch' : List (ApplyMsg Payload)} {r : ℕ}

/-- The server has taken a command of the index and the term off the apply channel, of
which it has received the first `r` messages. -/
def Took (ch : List (ApplyMsg Payload)) (r index term : ℕ) : Prop :=
  ∃ command, .command command index term ∈ ch.take r

/-- What was taken from the channel was so. -/
theorem Took.grow (h : Took ch r index term) (hch : ch <+: ch') : Took ch' r index term := by
  obtain ⟨command, hm⟩ := h
  refine ⟨command, List.IsPrefix.subset ?_ hm⟩
  exact List.prefix_take_iff.mpr ⟨(List.take_prefix r ch).trans hch, List.length_take_le r ch⟩

theorem Took.succ (h : Took ch r index term) : Took ch (r + 1) index term := by
  obtain ⟨command, hm⟩ := h
  exact ⟨command, (List.take_prefix_take_left (Nat.le_succ r)).subset hm⟩

/-- What is taken with the next message. -/
theorem took_succ {msg : ApplyMsg Payload} (hmsg : ch[r]? = some msg)
    (h : Took ch (r + 1) index term) :
    Took ch r index term ∨ ∃ command, msg = .command command index term := by
  obtain ⟨command, hm⟩ := h
  rw [List.take_add_one, hmsg] at hm
  obtain hm | hm := List.mem_append.mp hm
  · exact .inl ⟨command, hm⟩
  · exact .inr ⟨command, (List.mem_singleton.mp hm).symm⟩

/-- **The calls heed what the apply loop has taken.** The channel of a call that waits is
its own and waits for the call's index, and the term in it is that of a command the
server has taken at this index. -/
structure Heeds (ch : List (ApplyMsg Payload)) (r : ℕ) (sv : ClusterServer) : Prop where
  received_le : r ≤ ch.length
  waiting : ∀ p op index term c, sv.proposing p = some (op, .waiting index term c) →
    c < sv.nextChannel ∧ (∀ i, sv.waiters.lookup i = some c → i = index) ∧
      ∀ t, sv.channel c = some t → Took ch r index t
  distinct : ∀ p p' op op' index index' term term' c,
    sv.proposing p = some (op, .waiting index term c) →
    sv.proposing p' = some (op', .waiting index' term' c) → p = p'
  waiter_lt : ∀ i c, sv.waiters.lookup i = some c → c < sv.nextChannel
  channel_lt : ∀ c t, sv.channel c = some t → c < sv.nextChannel
  applied : ∀ index term, sv.applyLoop = .applied index term → Took ch r index term

theorem heeds_new (ch : List (ApplyMsg Payload)) (sm : StateMachine) :
    Heeds ch 0 (newClusterServer sm) := by
  have hnone : ∀ p, (newClusterServer sm).proposing p = none := by
    rintro (k | -) <;> rfl
  refine ⟨Nat.zero_le _, fun p op index term c hp => ?_, fun p p' op op' i i' t t' c hp => ?_,
    fun i c hi => ?_, fun c t hc => ?_, fun index term hal => ?_⟩
  · rw [hnone] at hp
    cases hp
  · rw [hnone] at hp
    cases hp
  · cases hi
  · cases hc
  · cases hal

theorem Heeds.grow (h : Heeds ch r sv) (hch : ch <+: ch') : Heeds ch' r sv where
  received_le := le_trans h.received_le hch.length_le
  waiting p op index term c hp := by
    obtain ⟨hlt, hone, hfull⟩ := h.waiting p op index term c hp
    exact ⟨hlt, hone, fun t ht => (hfull t ht).grow hch⟩
  distinct := h.distinct
  waiter_lt := h.waiter_lt
  channel_lt := h.channel_lt
  applied index term hal := (h.applied index term hal).grow hch

/-- Nobody comes to wait, and waiters at most go. -/
theorem Heeds.fewer (h : Heeds ch r sv)
    (hproposing : ∀ p op index term c, sv'.proposing p = some (op, .waiting index term c) →
      sv.proposing p = some (op, .waiting index term c))
    (hwaiters : ∀ i c, sv'.waiters.lookup i = some c → sv.waiters.lookup i = some c)
    (hchannel : sv'.channel = sv.channel) (hnext : sv'.nextChannel = sv.nextChannel)
    (hloop : ∀ index term, sv'.applyLoop = .applied index term →
      sv.applyLoop = .applied index term) : Heeds ch r sv' := by
  refine ⟨h.received_le, fun p op index term c hp => ?_,
    fun p₁ p₂ op₁ op₂ i₁ i₂ t₁ t₂ c h₁ h₂ => ?_, fun i c hi => ?_, fun c t hc => ?_,
    fun index term hal => h.applied index term (hloop index term hal)⟩
  · obtain ⟨hlt, hone, hfull⟩ := h.waiting p op index term c (hproposing _ _ _ _ _ hp)
    rw [hnext, hchannel]
    exact ⟨hlt, fun i hi => hone i (hwaiters i c hi), hfull⟩
  · exact h.distinct p₁ p₂ op₁ op₂ i₁ i₂ t₁ t₂ c (hproposing _ _ _ _ _ h₁)
      (hproposing _ _ _ _ _ h₂)
  · rw [hnext]
    exact h.waiter_lt i c (hwaiters i c hi)
  · rw [hnext]
    exact h.channel_lt c t (hchannel ▸ hc)

/-- A call registers. The channel is new: nobody else waits on it, and it is empty. -/
theorem Heeds.register (h : Heeds ch r sv) {p : Proposer}
    (hwait : ∀ p' op i t c, sv'.proposing p' = some (op, .waiting i t c) →
      (p' = p ∧ i = index ∧ c = sv.nextChannel) ∨ sv.proposing p' = some (op, .waiting i t c))
    (hwaiters : sv'.waiters = sv.waiters.insert index sv.nextChannel)
    (hchannel : sv'.channel = sv.channel) (hnext : sv'.nextChannel = sv.nextChannel + 1)
    (hloop : sv'.applyLoop = sv.applyLoop) : Heeds ch r sv' := by
  refine ⟨h.received_le, fun p' op' i t c hp' => ?_,
    fun p₁ p₂ op₁ op₂ i₁ i₂ t₁ t₂ c h₁ h₂ => ?_, fun i c hi => ?_, fun c t hc => ?_,
    hloop ▸ h.applied⟩
  · rw [hnext, hchannel, hwaiters]
    obtain ⟨-, rfl, rfl⟩ | hp' := hwait p' op' i t c hp'
    · refine ⟨Nat.lt_succ_self _, fun j hj => ?_, fun u hu => ?_⟩
      · obtain ⟨rfl, -⟩ | ⟨-, hj⟩ := lookup_insert_some hj
        · rfl
        · exact absurd (h.waiter_lt j _ hj) (lt_irrefl _)
      · exact absurd (h.channel_lt _ u hu) (lt_irrefl _)
    · obtain ⟨hlt, hone, hfull⟩ := h.waiting p' op' i t c hp'
      refine ⟨Nat.lt_succ_of_lt hlt, fun j hj => ?_, hfull⟩
      obtain ⟨-, rfl⟩ | ⟨-, hj⟩ := lookup_insert_some hj
      · exact absurd hlt (lt_irrefl _)
      · exact hone j hj
  · obtain ⟨rfl, -, rfl⟩ | h₁ := hwait p₁ op₁ i₁ t₁ c h₁
    · obtain ⟨rfl, -, -⟩ | h₂ := hwait p₂ op₂ i₂ t₂ _ h₂
      · rfl
      · exact absurd (h.waiting _ _ _ _ _ h₂).1 (lt_irrefl _)
    · obtain ⟨rfl, -, rfl⟩ | h₂ := hwait p₂ op₂ i₂ t₂ c h₂
      · exact absurd (h.waiting _ _ _ _ _ h₁).1 (lt_irrefl _)
      · exact h.distinct p₁ p₂ op₁ op₂ i₁ i₂ t₁ t₂ c h₁ h₂
  · rw [hwaiters] at hi
    rw [hnext]
    obtain ⟨-, rfl⟩ | ⟨-, hi⟩ := lookup_insert_some hi
    · exact Nat.lt_succ_self _
    · exact Nat.lt_succ_of_lt (h.waiter_lt i c hi)
  · rw [hnext]
    exact Nat.lt_succ_of_lt (h.channel_lt c t (hchannel ▸ hc))

/-- A part of one call. -/
theorem Heeds.call (h : Heeds ch r sv) {p : Proposer} {q : Proposal} {ans : Answer}
    {o : ClusterServer × Progress} (hr : sv.proposeSection q ans = some o)
    (hself : ∀ op' q', sv'.proposing p = some (op', q') → op' = op ∧ o.2 = .more q')
    (hothers : ∀ p', p' ≠ p → sv'.proposing p' = sv.proposing p')
    (hwaiters : sv'.waiters = o.1.waiters) (hchannel : sv'.channel = sv.channel)
    (hnext : sv'.nextChannel = o.1.nextChannel) (hloop : sv'.applyLoop = sv.applyLoop) :
    Heeds ch r sv' := by
  -- unless the call registers, no goroutine comes to wait
  have hkeep : (∀ index term c, o.2 ≠ .more (.waiting index term c)) →
      (∀ i c, sv'.waiters.lookup i = some c → sv.waiters.lookup i = some c) →
      sv'.nextChannel = sv.nextChannel → Heeds ch r sv' := by
    intro hno hless hsame
    refine h.fewer (fun p' op' index term c hp' => ?_) hless hchannel hsame (by simp [hloop])
    rcases eq_or_ne p' p with rfl | hne
    · exact absurd (hself _ _ hp').2 (hno index term c)
    · rwa [hothers p' hne] at hp'
  obtain ⟨t, -, -, rfl⟩ | ⟨index, term, -, -, rfl⟩ | ⟨index, term, c, out, -, -, -, rfl⟩ |
    ⟨index, term, c, -, -, rfl⟩ := proposeSection_cases hr
  · refine hkeep (fun index term c => ?_) (fun i c hi => hwaiters ▸ hi) hnext
    dsimp only
    split <;> simp
  · refine h.register (p := p) (fun p' op' i t c hp' => ?_) hwaiters hchannel hnext hloop
    rcases eq_or_ne p' p with rfl | hne
    · cases (hself _ _ hp').2
      exact .inl ⟨rfl, rfl, rfl⟩
    · exact .inr (by rwa [hothers p' hne] at hp')
  · refine hkeep (fun index term c => ?_) (fun i c hi => hwaiters ▸ hi) hnext
    dsimp only
    split <;> simp
  · refine hkeep (by simp) (fun i c hi => ?_) hnext
    rw [hwaiters] at hi
    exact (lookup_erase_some hi).2

/-- The wake-up for an index the server has taken. -/
theorem Heeds.wake (h : Heeds ch r sv) (hat : sv.applyLoop = .applied index term)
    (hproposing : sv'.proposing = sv.proposing)
    (hwaiters : sv'.waiters = (sv.wake index term).waiters)
    (hchannel : sv'.channel = (sv.wake index term).channel)
    (hnext : sv'.nextChannel = sv.nextChannel)
    (hloop : ∀ index' term', sv'.applyLoop ≠ .applied index' term') : Heeds ch r sv' := by
  have happlied : ∀ i t, sv'.applyLoop = .applied i t → Took ch r i t :=
    fun i t hal => absurd hal (hloop i t)
  have htook := h.applied index term hat
  obtain ⟨c₀, hc₀, hwa, hcha⟩ | ⟨-, hwa, hcha⟩ := wake_cases sv index term
  · rw [hwa] at hwaiters
    rw [hcha] at hchannel
    refine ⟨h.received_le, ?_, hproposing ▸ h.distinct, fun i c hi => ?_, fun c t hc => ?_,
      happlied⟩
    · rw [hproposing, hwaiters, hchannel, hnext]
      intro p op' i t c hp
      obtain ⟨hlt, hone, hfull⟩ := h.waiting p op' i t c hp
      refine ⟨hlt, fun j hj => hone j (lookup_erase_some hj).2, fun u hu => ?_⟩
      rcases eq_or_ne c c₀ with rfl | hne
      · rw [Function.update_self, Option.some.injEq] at hu
        obtain rfl := hone index hc₀
        exact hu ▸ htook
      · rw [Function.update_of_ne hne] at hu
        exact hfull u hu
    · rw [hwaiters] at hi
      exact hnext ▸ h.waiter_lt i c (lookup_erase_some hi).2
    · rw [hchannel] at hc
      rw [hnext]
      rcases eq_or_ne c c₀ with rfl | hne
      · exact h.waiter_lt index c hc₀
      · rw [Function.update_of_ne hne] at hc
        exact h.channel_lt c t hc
  · rw [hwa] at hwaiters
    rw [hcha] at hchannel
    refine ⟨h.received_le, ?_, hproposing ▸ h.distinct, ?_, ?_, happlied⟩
    · rw [hproposing, hwaiters, hchannel, hnext]
      exact h.waiting
    · rw [hwaiters, hnext]
      exact h.waiter_lt
    · rw [hchannel, hnext]
      exact h.channel_lt

/-- **Every section but the receipt of a message.** -/
theorem Heeds.step {e : Section} (h : Heeds ch r sv) (he : ∀ msg, e ≠ .receive msg)
    (hs : sv.step cfg e = some sv') : Heeds ch r sv' := by
  cases affects_of_step he hs with
  | none hproposing hwaiters hchannel hnext hloop =>
    refine h.fewer (fun p op' index term c hp => ?_) (fun i c hi => hwaiters ▸ hi) hchannel hnext
      fun index term => (hloop index term).mp
    obtain hp | hq := hproposing p op' _ hp
    · exact hp
    · cases hq
  | call p op q ans o _ _ hr hself hothers hwaiters hchannel hnext hloop =>
    exact h.call hr hself hothers hwaiters hchannel hnext hloop
  | wake index term _ hat hproposing hwaiters hchannel hnext hloop =>
    exact h.wake hat hproposing hwaiters hchannel hnext hloop

/-- **The receipt of a message.** -/
theorem Heeds.receive {msg : ApplyMsg Payload} (h : Heeds ch r sv) (hmsg : ch[r]? = some msg)
    (hs : sv.receive msg = some sv') : Heeds ch (r + 1) sv' := by
  have hlt : r < ch.length := (List.getElem?_eq_some_iff.mp hmsg).1
  have hmem : msg ∈ ch.take (r + 1) := by
    rw [List.take_add_one, hmsg]
    exact List.mem_append_right _ (List.mem_singleton_self msg)
  obtain ⟨sm, rfl, -⟩ := ClusterServer.receive_cases hs
  refine ⟨hlt, fun p op' index term c hp => ?_, h.distinct, h.waiter_lt, h.channel_lt,
    fun index term hal => ?_⟩
  · obtain ⟨hlt, hone, hfull⟩ := h.waiting p op' index term c hp
    exact ⟨hlt, hone, fun t ht => (hfull t ht).succ⟩
  · cases msg with
    | snapshot m => cases hal
    | command command i t =>
      cases hal
      exact ⟨command, hmem⟩

/-! ### The entries -/

/-- **The calls have their entries in the log**: at the index and of the term that
`Propose` gave them, the leader of the term has put their command. -/
def Entered (a : Ledger NodeID (LogEntry Payload)) (n : NodeID) (sv : ClusterServer) : Prop :=
  ∀ p op q index term, sv.proposing p = some (op, q) → q.entry? = some (index, term) →
    InLog a n op index term

theorem entered_new (a : Ledger NodeID (LogEntry Payload)) (n : NodeID) (sm : StateMachine) :
    Entered a n (newClusterServer sm) := by
  rintro (k | -) op q index term hp <;> cases hp

theorem Entered.mono (h : Entered a n sv) (hle : Le a a') : Entered a' n sv :=
  fun p op q index term hp hq => (h p op q index term hp hq).mono hle

/-- A section, in which a proposal is told of the entry that was made for it. -/
theorem Entered.affects {e : Section} (h : Entered a n sv) (hf : Affects sv sv' e)
    (htold : ∀ p op t, e = p.told (.proposed t) → sv.proposing p = some (op, .ready) →
      t.isLeader = true → InLog a n op t.index t.term) : Entered a n sv' := by
  intro p op' q index term hp hq
  cases hf with
  | none hproposing =>
    obtain hp | rfl := hproposing p op' q hp
    · exact h p op' q index term hp hq
    · cases hq
  | call p' op q' ans o he hp' hr hself hothers =>
    rcases eq_or_ne p p' with rfl | hne
    · obtain ⟨rfl, hmore⟩ := hself op' q hp
      obtain ⟨t, rfl, rfl, rfl⟩ | ⟨i, u, rfl, -, rfl⟩ | ⟨i, u, c, out, rfl, -, -, rfl⟩ |
        ⟨i, u, c, rfl, -, rfl⟩ := proposeSection_cases hr
      · dsimp only at hmore
        split at hmore
        · rename_i hlead
          cases hmore
          cases hq
          exact htold p op' t he hp' hlead
        · cases hmore
      · cases hmore
        cases hq
        exact h p op' _ index term hp' rfl
      · dsimp only at hmore
        split at hmore <;> cases hmore
      · cases hmore
    · exact h p op' q index term (by rwa [hothers p hne] at hp) hq
  | wake i u he hat hproposing =>
    exact h p op' q index term (by rwa [hproposing] at hp) hq

/-- A message from the channel enters nothing. -/
theorem Entered.receive {msg : ApplyMsg Payload} (h : Entered a n sv)
    (hs : sv.receive msg = some sv') : Entered a n sv' := by
  obtain ⟨sm, rfl, -⟩ := ClusterServer.receive_cases hs
  exact h

end Server

end DistQueue
