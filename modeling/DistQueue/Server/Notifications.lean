import DistQueue.Server.Proposals

/-!
# Lost notifications

A call of `propose` registers for its index in a section of its own, when its entry is
already on its way, and the waiters are filed by index alone. Both can cost a call its
notification. If the entry is committed and applied before the call registers, the apply
loop finds no waiter, and the call waits for an index that does not come again
(`DistQueue.Server.late_registration_lost`). If two calls hold the same index, from two
terms, the one that registers second takes the place of the other.

Neither can happen if no call is still to register for the index that the apply loop
wakes, and no waiter is registered when a call registers
(`DistQueue.Server.System.InOrder`). Then a waiter stays until the apply loop gets to its
index, and every call that waits has a waiter or has heard
(`DistQueue.Server.Notifies`); `DistQueue.Server.notifications_received` is what follows
for the calls.

One fact comes from the log: an index that `Propose` gives out is beyond everything the
apply loop has taken (`DistQueue.Raft.Sent.le_lastIndex`).
-/

namespace DistQueue

namespace Server

open Broker Raft Consensus

variable {M : Membership} {a : Ledger NodeID (LogEntry Payload)} {n : NodeID}
  {sv sv' : ClusterServer} {cfg : ClusterConfig} {maxRetries : ℤ} {s s' : System}
  {op : QueueOp} {index term : ℕ} {ch ch' : List (ApplyMsg Payload)} {r : ℕ}

/-! ### What the apply loop has consumed -/

/-- How many of the `r` messages it has received the apply loop is through with: an
applied command is, once its waiter has been woken. -/
def ClusterServer.handled (sv : ClusterServer) (r : ℕ) : ℕ :=
  match sv.applyLoop with
  | .applied _ _ => r - 1
  | _ => r

/-- The apply loop has consumed a command of the index and the term. -/
def Consumed (ch : List (ApplyMsg Payload)) (r : ℕ) (sv : ClusterServer) (index term : ℕ) : Prop :=
  Took ch (sv.handled r) index term

theorem handled_le (sv : ClusterServer) (r : ℕ) : sv.handled r ≤ r := by
  unfold ClusterServer.handled
  split <;> omega

theorem handled_of_ne (h : ∀ index term, sv.applyLoop ≠ .applied index term) :
    sv.handled r = r := by
  unfold ClusterServer.handled
  split
  · rename_i index term hal
    exact absurd hal (h index term)
  · rfl

theorem handled_congr (h : ∀ index term, sv'.applyLoop = .applied index term ↔
    sv.applyLoop = .applied index term) : sv'.handled r = sv.handled r := by
  by_cases hal : ∃ index term, sv.applyLoop = .applied index term
  · obtain ⟨index, term, hal⟩ := hal
    simp only [ClusterServer.handled, hal, (h index term).mpr hal]
  · rw [handled_of_ne fun index term hal' => hal ⟨index, term, (h index term).mp hal'⟩,
      handled_of_ne fun index term hal' => hal ⟨index, term, hal'⟩]

/-! ### The order of the sections -/

/-- Some call that was given the index is still to register. -/
def ClusterServer.unregistered (sv : ClusterServer) (index : ℕ) : Bool :=
  (sv.handlers.any fun
    | .proposing _ (.accepted i _) => i = index
    | _ => false) ||
  match sv.scanner with
  | .proposing _ _ (.accepted i _) => i = index
  | _ => false

/-- If the goroutine is about to register, it does so where no waiter is. -/
def ClusterServer.registersAlone (sv : ClusterServer) (p : Proposer) : Bool :=
  match sv.proposing p with
  | some (_, .accepted index _) => (sv.waiters.lookup index).isNone
  | _ => true

/-- The section lets no call miss its entry: none takes the place of another that waits for the
same index, and the apply loop does not pass an index whose call has yet to register. -/
def ClusterServer.inOrder (sv : ClusterServer) : Section → Bool
  | .handler k .silent => sv.registersAlone (.handler k)
  | .scanner .silent => sv.registersAlone .scanner
  | .applyLoop =>
    match sv.applyLoop with
    | .applied index _ => !sv.unregistered index
    | _ => true
  | _ => true

/-- **The calls come in order**: the apply loop wakes the waiter of an index only when
every call that was given the index has registered, and a call registers only when no
other is registered for its index. -/
def System.InOrder (s : System) : SystemMove → Prop
  | .serve n e => (s.server n).inOrder e = true
  | _ => True

instance (s : System) (x : SystemMove) : Decidable (s.InOrder x) := by
  cases x <;> dsimp only [System.InOrder] <;> infer_instance

theorem unregistered_of_accepted {p : Proposer}
    (h : sv.proposing p = some (op, .accepted index term)) : sv.unregistered index = true := by
  cases p with
  | handler k =>
    have hmem := List.mem_of_getElem? (proposing_handler.mp h)
    refine Bool.or_eq_true_iff.mpr (.inl (List.any_eq_true.mpr ⟨_, hmem, ?_⟩))
    simp
  | scanner =>
    obtain ⟨id, rest, hsc, -⟩ := proposing_scanner.mp h
    simp [ClusterServer.unregistered, hsc]

theorem registersAlone_of_inOrder {p : Proposer} {ans : Answer}
    (h : sv.inOrder (p.told ans) = true) (hans : ans = .silent) : sv.registersAlone p = true := by
  subst hans
  cases p <;> exact h

/-! ### The waiters -/

/-- **Nobody misses the index it waits for.** A call that is to register is still ahead
of the apply loop, a call that waits is registered or has heard, and what is registered
is still ahead of the apply loop. -/
structure Notifies (ch : List (ApplyMsg Payload)) (r : ℕ) (sv : ClusterServer) : Prop where
  current : ∀ index term, sv.applyLoop = .applied index term →
    ∃ k command, r = k + 1 ∧ ch[k]? = some (.command command index term)
  accepted : ∀ p op index term t, sv.proposing p = some (op, .accepted index term) →
    ¬Consumed ch r sv index t
  waiting : ∀ p op index term c, sv.proposing p = some (op, .waiting index term c) →
    (∃ t, sv.channel c = some t ∧ Consumed ch r sv index t) ∨ sv.waiters.lookup index = some c
  waiters : ∀ index c t, sv.waiters.lookup index = some c → ¬Consumed ch r sv index t

theorem notifies_new (ch : List (ApplyMsg Payload)) (sm : StateMachine) :
    Notifies ch 0 (newClusterServer sm) := by
  refine ⟨fun index term hal => ?_, fun p op index term t hp => ?_,
    fun p op index term c hp => ?_, fun index c t hc => ?_⟩
  · cases hal
  · cases p <;> cases hp
  · cases p <;> cases hp
  · cases hc

/-- The channel may grow. -/
theorem Notifies.grow (h : Notifies ch r sv) (hr : r ≤ ch.length) (hch : ch <+: ch') :
    Notifies ch' r sv := by
  have heq : ∀ index t, Consumed ch' r sv index t ↔ Consumed ch r sv index t := by
    intro index t
    rw [Consumed, Took, prefix_take_eq hch (le_trans (handled_le sv r) hr)]
    rfl
  refine ⟨fun index term hal => ?_, fun p op index term t hp => ?_,
    fun p op index term c hp => ?_, fun index c t hc => ?_⟩
  · obtain ⟨k, command, hk, hget⟩ := h.current index term hal
    exact ⟨k, command, hk, prefix_getElem?_some hch hget⟩
  · rw [heq]
    exact h.accepted p op index term t hp
  · simp only [heq]
    exact h.waiting p op index term c hp
  · rw [heq]
    exact h.waiters index c t hc

/-- The one registered for the index of a waiting call is the call's own channel. -/
theorem Notifies.own (h : Notifies ch r sv) {p : Proposer} {c c' : ℕ}
    (hp : sv.proposing p = some (op, .waiting index term c))
    (hc' : sv.waiters.lookup index = some c') : c' = c := by
  obtain ⟨t, -, hcons⟩ | hc := h.waiting p op index term c hp
  · exact absurd hcons (h.waiters index c' t hc')
  · exact Option.some.inj (hc'.symm.trans hc)

/-- The calls, the waiters and the apply loop are as before, but that new calls are
made. -/
theorem Notifies.same (h : Notifies ch r sv)
    (hproposing : ∀ p op q, sv'.proposing p = some (op, q) →
      sv.proposing p = some (op, q) ∨ q = .ready)
    (hwaiters : sv'.waiters = sv.waiters) (hchannel : sv'.channel = sv.channel)
    (hloop : ∀ index term, sv'.applyLoop = .applied index term ↔
      sv.applyLoop = .applied index term) : Notifies ch r sv' := by
  have heq : ∀ index t, Consumed ch r sv' index t ↔ Consumed ch r sv index t := by
    intro index t
    rw [Consumed, Consumed, handled_congr hloop]
  refine ⟨fun index term hal => h.current index term ((hloop index term).mp hal),
    fun p op index term t hp => ?_, fun p op index term c hp => ?_, fun index c t hc => ?_⟩
  · obtain hp | hq := hproposing p op _ hp
    · rw [heq]
      exact h.accepted p op index term t hp
    · cases hq
  · obtain hp | hq := hproposing p op _ hp
    · simp only [heq, hchannel, hwaiters]
      exact h.waiting p op index term c hp
    · cases hq
  · rw [heq]
    exact h.waiters index c t (hwaiters ▸ hc)

/-- One call moves on, and the others keep their waiters. -/
theorem Notifies.move (h : Notifies ch r sv) {p : Proposer}
    (hothers : ∀ p', p' ≠ p → sv'.proposing p' = sv.proposing p')
    (hchannel : sv'.channel = sv.channel) (hloop : sv'.applyLoop = sv.applyLoop)
    (haccepted : ∀ op index term, sv'.proposing p = some (op, .accepted index term) →
      ∀ t, ¬Consumed ch r sv index t)
    (hwaiting : ∀ op index term c, sv'.proposing p = some (op, .waiting index term c) →
      sv'.waiters.lookup index = some c)
    (hkept : ∀ p' op index term c, p' ≠ p → sv.proposing p' = some (op, .waiting index term c) →
      sv.waiters.lookup index = some c → sv'.waiters.lookup index = some c)
    (hwaiters : ∀ index c, sv'.waiters.lookup index = some c →
      sv.waiters.lookup index = some c ∨ ∀ t, ¬Consumed ch r sv index t) :
    Notifies ch r sv' := by
  have hcons : ∀ index t, Consumed ch r sv' index t ↔ Consumed ch r sv index t := by
    intro index t
    simp only [Consumed, ClusterServer.handled, hloop]
  refine ⟨hloop ▸ h.current, fun p' op index term t hp' => ?_,
    fun p' op index term c hp' => ?_, fun index c t hc => ?_⟩
  · rw [hcons]
    rcases eq_or_ne p' p with rfl | hne
    · exact haccepted op index term hp' t
    · exact h.accepted p' op index term t (by rwa [hothers p' hne] at hp')
  · simp only [hcons, hchannel]
    rcases eq_or_ne p' p with rfl | hne
    · exact .inr (hwaiting op index term c hp')
    · rw [hothers p' hne] at hp'
      exact (h.waiting p' op index term c hp').imp_right (hkept p' op index term c hne hp')
  · rw [hcons]
    obtain hc | hno := hwaiters index c hc
    · exact h.waiters index c t hc
    · exact hno t

/-- A part of one call: an index it is given is ahead of the apply loop, and it registers
alone. -/
theorem Notifies.call (h : Notifies ch r sv) (hheeds : Heeds ch r sv) {p : Proposer}
    {q : Proposal} {ans : Answer} {o : ClusterServer × Progress}
    (hp : sv.proposing p = some (op, q)) (hr : sv.proposeSection q ans = some o)
    (hself : ∀ op' q', sv'.proposing p = some (op', q') → op' = op ∧ o.2 = .more q')
    (hothers : ∀ p', p' ≠ p → sv'.proposing p' = sv.proposing p')
    (hwaiters : sv'.waiters = o.1.waiters) (hchannel : sv'.channel = sv.channel)
    (hloop : sv'.applyLoop = sv.applyLoop)
    (hfresh : ∀ t, ans = .proposed t → t.isLeader = true → ∀ u, ¬Took ch r t.index u)
    (halone : ans = .silent → sv.registersAlone p = true) : Notifies ch r sv' := by
  obtain ⟨t, rfl, rfl, rfl⟩ | ⟨i, u, rfl, rfl, rfl⟩ | ⟨i, u, c₀, out, rfl, -, -, rfl⟩ |
    ⟨i, u, c₀, rfl, -, rfl⟩ := proposeSection_cases hr
  · -- the node has answered
    refine h.move hothers hchannel hloop (fun op' index term hp' u htook => ?_)
      (fun op' index term c hp' => ?_) (fun _ _ _ _ _ _ _ hc => hwaiters ▸ hc)
      (fun _ _ hc => .inl (hwaiters ▸ hc))
    · have hmore := (hself _ _ hp').2
      dsimp only at hmore
      split at hmore
      · rename_i hlead
        cases hmore
        obtain ⟨command, hm⟩ := htook
        exact hfresh t rfl hlead u
          ⟨command, (List.take_prefix_take_left (handled_le sv r)).subset hm⟩
      · cases hmore
    · have hmore := (hself _ _ hp').2
      dsimp only at hmore
      split at hmore <;> cases hmore
  · -- the call registers, where nobody is
    have hnone : sv.waiters.lookup i = none := by
      simpa [ClusterServer.registersAlone, hp] using halone rfl
    refine h.move hothers hchannel hloop (fun op' index term hp' => ?_)
      (fun op' index term c hp' => ?_) (fun p' op' index term c _ _ hc => ?_) (fun index c hc => ?_)
    · cases (hself _ _ hp').2
    · cases (hself _ _ hp').2
      rw [hwaiters]
      exact AList.lookup_insert _
    · rw [hwaiters, AList.lookup_insert_ne, hc]
      rintro rfl
      rw [hnone] at hc
      cases hc
    · rw [hwaiters] at hc
      obtain ⟨rfl, -⟩ | ⟨-, hc⟩ := lookup_insert_some hc
      · exact .inr fun t => h.accepted p op index u t hp
      · exact .inl hc
  · -- the call has heard
    have hover : ∀ op' q', sv'.proposing p ≠ some (op', q') := by
      intro op' q' hp'
      have hmore := (hself _ _ hp').2
      dsimp only at hmore
      split at hmore <;> cases hmore
    exact h.move hothers hchannel hloop (fun op' index term hp' => absurd hp' (hover _ _))
      (fun op' index term c hp' => absurd hp' (hover _ _))
      (fun _ _ _ _ _ _ _ hc => hwaiters ▸ hc) (fun _ _ hc => .inl (hwaiters ▸ hc))
  · -- the call has waited for too long, and takes a waiter away
    refine h.move hothers hchannel hloop (fun op' index term hp' => ?_)
      (fun op' index term c hp' => ?_) (fun p' op' index term c hne hp' hc => ?_)
      (fun index c hc => ?_)
    · cases (hself _ _ hp').2
    · cases (hself _ _ hp').2
    · -- the waiter is its own, and another call is not on its channel
      rw [hwaiters, AList.lookup_erase_ne, hc]
      rintro rfl
      obtain rfl := h.own hp hc
      exact hne (hheeds.distinct _ _ _ _ _ _ _ _ _ hp' hp)
    · rw [hwaiters] at hc
      exact .inl (lookup_erase_some hc).2

/-- With the wake-up for it, the command at the index has been consumed. -/
theorem consumed_wake {k i t : ℕ} {command : Payload}
    (hk : ch[k]? = some (.command command index term)) (hat : sv.applyLoop = .applied index term)
    (hloop : ∀ index' term', sv'.applyLoop ≠ .applied index' term') :
    Consumed ch (k + 1) sv' i t ↔ Consumed ch (k + 1) sv i t ∨ i = index ∧ t = term := by
  have hbefore : sv.handled (k + 1) = k := by
    simp only [ClusterServer.handled, hat, Nat.add_sub_cancel]
  rw [Consumed, Consumed, handled_of_ne hloop, hbefore]
  constructor
  · intro hc
    obtain hc | ⟨command', hmsg⟩ := took_succ hk hc
    · exact .inl hc
    · cases hmsg
      exact .inr ⟨rfl, rfl⟩
  · rintro (hc | ⟨rfl, rfl⟩)
    · exact hc.succ
    · refine ⟨command, List.mem_of_getElem? (i := k) ?_⟩
      rw [List.getElem?_take_of_lt (Nat.lt_succ_self k), hk]

/-- The wake-up for an index for which every call has registered. -/
theorem Notifies.wake (h : Notifies ch r sv) (hheeds : Heeds ch r sv)
    (hat : sv.applyLoop = .applied index term) (hproposing : sv'.proposing = sv.proposing)
    (hwaiters : sv'.waiters = (sv.wake index term).waiters)
    (hchannel : sv'.channel = (sv.wake index term).channel)
    (hloop : ∀ index' term', sv'.applyLoop ≠ .applied index' term')
    (hall : sv.unregistered index = false) : Notifies ch r sv' := by
  obtain ⟨k, command, rfl, hk⟩ := h.current index term hat
  have hcons : ∀ i t, Consumed ch (k + 1) sv' i t ↔
      Consumed ch (k + 1) sv i t ∨ i = index ∧ t = term := fun i t => consumed_wake hk hat hloop
  refine ⟨fun i t hal => absurd hal (hloop i t), fun p op i u t hp hc => ?_,
    fun p op i u c hp => ?_, fun i c t hi hc => ?_⟩
  · rw [hproposing] at hp
    obtain hc | ⟨rfl, -⟩ := (hcons i t).mp hc
    · exact h.accepted p op i u t hp hc
    · rw [unregistered_of_accepted hp] at hall
      cases hall
  · rw [hproposing] at hp
    obtain ⟨hlt, hone, -⟩ := hheeds.waiting p op i u c hp
    obtain ⟨c₀, hc₀, hwa, hcha⟩ | ⟨hnone, hwa, hcha⟩ := wake_cases sv index term
    · rw [hwaiters, hwa, hchannel, hcha]
      rcases eq_or_ne c c₀ with rfl | hne
      · obtain rfl := hone index hc₀
        exact .inl ⟨term, Function.update_self _ _ _, (hcons _ _).mpr (.inr ⟨rfl, rfl⟩)⟩
      · rw [Function.update_of_ne hne]
        obtain ⟨t, ht, hc⟩ | hc := h.waiting p op i u c hp
        · exact .inl ⟨t, ht, (hcons i t).mpr (.inl hc)⟩
        · refine .inr ?_
          rw [AList.lookup_erase_ne, hc]
          rintro rfl
          exact hne (Option.some.inj (hc.symm.trans hc₀))
    · rw [hwaiters, hwa, hchannel, hcha]
      obtain ⟨t, ht, hc⟩ | hc := h.waiting p op i u c hp
      · exact .inl ⟨t, ht, (hcons i t).mpr (.inl hc)⟩
      · exact .inr hc
  · have hkept : i ≠ index ∧ sv.waiters.lookup i = some c := by
      rw [hwaiters] at hi
      obtain ⟨c₀, hc₀, hwa, -⟩ | ⟨hnone, hwa, -⟩ := wake_cases sv index term
      · rw [hwa] at hi
        exact lookup_erase_some hi
      · rw [hwa] at hi
        refine ⟨?_, hi⟩
        rintro rfl
        rw [hnone] at hi
        cases hi
    obtain hc | ⟨rfl, -⟩ := (hcons i t).mp hc
    · exact h.waiters i c t hkept.2 hc
    · exact hkept.1 rfl

/-- **Every section but the receipt of a message**, if the calls come in order. -/
theorem Notifies.step {e : Section} (h : Notifies ch r sv) (hheeds : Heeds ch r sv)
    (he : ∀ msg, e ≠ .receive msg) (horder : sv.inOrder e = true)
    (hfresh : ∀ p t, e = Proposer.told p (.proposed t) → t.isLeader = true →
      ∀ u, ¬Took ch r t.index u)
    (hs : sv.step cfg e = some sv') : Notifies ch r sv' := by
  cases affects_of_step he hs with
  | none hproposing hwaiters hchannel _ hloop => exact h.same hproposing hwaiters hchannel hloop
  | call p op q ans o htold hp hr hself hothers hwaiters hchannel _ hloop =>
    subst htold
    refine h.call hheeds hp hr hself hothers hwaiters hchannel hloop ?_
      (registersAlone_of_inOrder horder)
    rintro t rfl
    exact hfresh p t rfl
  | wake index term hloop hat hproposing hwaiters hchannel _ hloop' =>
    subst hloop
    refine h.wake hheeds hat hproposing hwaiters hchannel hloop' ?_
    simpa [ClusterServer.inOrder, hat] using horder

/-- **The receipt of a message.** A command is not consumed with it yet. -/
theorem Notifies.receive {msg : ApplyMsg Payload} (h : Notifies ch r sv)
    (hmsg : ch[r]? = some msg) (hidle : sv.applyLoop = .idle) (hs : sv.receive msg = some sv') :
    Notifies ch (r + 1) sv' := by
  obtain ⟨sm, rfl, -⟩ := ClusterServer.receive_cases hs
  have hbefore : sv.handled r = r := by simp only [ClusterServer.handled, hidle]
  have hcons : ∀ i t, Consumed ch (r + 1) { sv with sm, applyLoop := loopAfter msg } i t ↔
      Consumed ch r sv i t := by
    intro i t
    rw [Consumed, Consumed, hbefore]
    cases msg with
    | command command index term => rfl
    | snapshot m =>
      refine ⟨fun hc => ?_, Took.succ⟩
      obtain hc | ⟨command, hm⟩ := took_succ hmsg hc
      · exact hc
      · cases hm
  refine ⟨fun index term hal => ?_, fun p op i u t hp => ?_, fun p op i u c hp => ?_,
    fun i c t hc => ?_⟩
  · cases msg with
    | snapshot m => cases hal
    | command command i t =>
      cases hal
      exact ⟨r, command, rfl, hmsg⟩
  · rw [hcons]
    exact h.accepted p op i u t hp
  · simp only [hcons]
    exact h.waiting p op i u c hp
  · rw [hcons]
    exact h.waiters i c t hc

/-! ### The system -/

/-- The apply loop of a node has consumed a command of the index and the term: it has
taken it off the channel, applied it, and woken who was waiting. -/
def System.Consumed (s : System) (n : NodeID) (index term : ℕ) : Prop :=
  Server.Consumed (s.world.nodes n).applyCh (s.received n) (s.server n) index term

/-- **Every step in which the calls come in order** keeps the waiters ahead of the apply
loop. -/
theorem Honest.notifies (h : Honest M s a) (hn : n ∈ M.ids)
    (hold : Notifies (s.world.nodes n).applyCh (s.received n) (s.server n)) {x : SystemMove}
    (hx : s.InOrder x) (hs : s.step cfg maxRetries M x = some s') :
    Notifies (s'.world.nodes n).applyCh (s'.received n) (s'.server n) := by
  have hheeds := h.heeds n hn
  refine (happens h.sound.traced.sim h.labelled hs n).keeps hold (notifies_new · _)
    (fun h => h.grow hheeds.received_le) (fun msg sv _ _ hmsg hidle hsv => ?_)
    fun e sv _ he hruns hsv => ?_
  · exact hold.receive hmsg hidle hsv
  · cases hruns with
    | serves e hserve htrue =>
      subst hserve
      refine hold.step hheeds he hx ?_ hsv
      rintro (k | -) t rfl <;> exact htrue.elim
    | proposes p op hop hnode =>
      refine hold.step hheeds he (by cases p <;> rfl) (fun p' t htold hlead u htook => ?_) hsv
      -- the index is beyond the log, and the log is beyond what has been sent
      obtain rfl : t = (Raft.propose (M.config n) (s.world.nodes n) (encodeOp op)).2.2 := by
        cases p <;> cases p' <;> cases htold <;> rfl
      obtain ⟨command, hm⟩ := htook
      have hlead' : (s.world.nodes n).state = .leader := by
        by_contra hstate
        simp [Raft.propose, hstate] at hlead
      have hle := h.sent.le_lastIndex h.sound.traced.sim hn hlead'
        ((List.take_prefix _ _).subset hm)
      simp only [Raft.propose, hlead', ne_eq, not_true_eq_false, if_false] at hle
      omega
    | submits =>
      refine hold.step hheeds he rfl ?_ hsv
      rintro (k | -) t htold <;> cases htold

/-- **No notification is lost, if the calls come in order.** In every state of such a run,
at every node: a call that waits for an index whose command has been consumed holds the
command's term; a call that is to register, and a registered waiter, are for an index that
has not been consumed; and the waiter that a waiting call takes away when its time is over
is its own. -/
theorem notifications_received {xs : List SystemMove}
    (hs : Run.exec (System.step cfg maxRetries M) (System.start maxRetries M) xs = some s)
    (horder : Run.Guarded (System.step cfg maxRetries M) System.InOrder
      (System.start maxRetries M) xs) (hn : n ∈ M.ids) :
    (∀ p op index term c t, (s.server n).proposing p = some (op, .waiting index term c) →
      s.Consumed n index t → (s.server n).channel c = some t) ∧
    (∀ p op index term t, (s.server n).proposing p = some (op, .accepted index term) →
      ¬s.Consumed n index t) ∧
    (∀ index c t, (s.server n).waiters.lookup index = some c → ¬s.Consumed n index t) ∧
    ∀ p op index term c c', (s.server n).proposing p = some (op, .waiting index term c) →
      (s.server n).waiters.lookup index = some c' → c' = c := by
  obtain ⟨⟨a, ha⟩, h⟩ : (∃ a, Honest M s a) ∧
      Notifies (s.world.nodes n).applyCh (s.received n) (s.server n) := by
    refine Run.invariant_of_guarded (P := fun v => (∃ a, Honest M v a) ∧
      Notifies (v.world.nodes n).applyCh (v.received n) (v.server n))
      ⟨honest_start maxRetries M, notifies_new _ _⟩ ?_ horder hs
    rintro v x v' ⟨⟨b, hb⟩, hv⟩ hx hstep
    obtain ⟨b', -, hb'⟩ := hb.step hstep
    exact ⟨⟨b', hb'⟩, hb.notifies hn hv hx hstep⟩
  refine ⟨fun p op index term c t hp hcons => ?_, h.accepted, h.waiters,
    fun p op index term c c' hp hc' => h.own hp hc'⟩
  obtain ⟨t', ht', hcons'⟩ | hc := h.waiting p op index term c hp
  · -- the index has one decided entry
    obtain ⟨command, hm⟩ := hcons
    obtain ⟨command', hm'⟩ := hcons'
    have hnow : Run.exec (System.step cfg maxRetries M) s [] = some s := rfl
    rw [ht', ha.sound.term_eq hnow hn hn ((List.take_prefix _ _).subset hm')
      ((List.take_prefix _ _).subset hm)]
  · exact absurd hcons (h.waiters index c t hc)

theorem consumed_of_mem {msgs : List (ApplyMsg Payload)} {command : Payload}
    (h : (s.world.nodes n).applyCh.take ((s.server n).handled (s.received n)) = msgs)
    (hm : .command command index term ∈ msgs) : s.Consumed n index term :=
  ⟨command, h ▸ hm⟩

/-- What is looked at in a state of node `a`: the call of its first handler, the messages
its apply loop has consumed, the call's channel, the waiter for index 2, and what the call
hears next or at the end of its time. -/
structure CallSight where
  call : Option (QueueOp × Proposal)
  consumed : List (ApplyMsg Payload)
  channel : Option ℕ
  waiter : Option ℕ
  next : Option Verdict
  timer : Option Verdict
  deriving DecidableEq

/-- What the call of `a` has come to. -/
def callSight (s : System) : CallSight where
  call := (s.server "a").proposing (.handler 0)
  consumed := (s.world.nodes "a").applyCh.take ((s.server "a").handled (s.received "a"))
  channel := (s.server "a").channel 0
  waiter := (s.server "a").waiters.lookup 2
  next := s.verdict threeNodes (.serve "a" (.handler 0 .silent))
  timer := s.verdict threeNodes (.serve "a" (.handler 0 .timer))

/-- The command of the task `x` as node `a` is given it. -/
def enqueueX : QueueOp := .enqueue { Task.named "x" with createdAt := 1 }

/-- Node `a` has registered in time, and hears of the entry that took the place of its
own. -/
theorem notifications_received_overtaken :
    ∃ s, Run.exec (System.step plainConfig 3 threeNodes) (System.start 3 threeNodes) overtaken =
        some s ∧
      (s.server "a").proposing (.handler 0) = some (enqueueX, .waiting 2 1 0) ∧
      s.Consumed "a" 2 2 ∧ (s.server "a").channel 0 = some 2 := by
  have hend : (Run.exec (System.step plainConfig 3 threeNodes) (System.start 3 threeNodes)
      overtaken).map callSight = some ⟨some (enqueueX, .waiting 2 1 0),
        [.command .empty 1 2,
          .command (encodeOp (.enqueue { Task.named "y" with createdAt := 2 })) 2 2],
        some 2, none, some ⟨"a", enqueueX, .waiting 2 1 0, .notLeader⟩,
        some ⟨"a", enqueueX, .waiting 2 1 0, .timedOut⟩⟩ := by
    decide +kernel
  have horder : Run.Guarded (System.step plainConfig 3 threeNodes) System.InOrder
      (System.start 3 threeNodes) overtaken := by
    decide +kernel
  obtain ⟨s, hs, hend⟩ := Option.map_eq_some_iff.mp hend
  have hcall : (s.server "a").proposing (.handler 0) = some (enqueueX, .waiting 2 1 0) :=
    congrArg CallSight.call hend
  have hcons : s.Consumed "a" 2 2 :=
    consumed_of_mem (congrArg CallSight.consumed hend)
      (List.mem_cons_of_mem _ (List.mem_singleton_self _))
  exact ⟨s, hs, hcall, hcons,
    (notifications_received hs horder (by decide)).1 _ _ 2 1 0 2 hcall hcons⟩

/-- The entry of a call is committed and applied before the call registers for it. -/
def lateRegistration : List SystemMove :=
  clusterActs (electionOf "a" 0 0) ++
    [.serve "a" (.call (.enqueue (some (.named "x")) "" 1)), .propose "a" (.handler 0)] ++
    clusterActs (replicationTo "a" "b" 2 1) ++
    applying "a" [.command .empty 1 1, .command (encodeOp enqueueX) 2 1] ++
    [.serve "a" (.handler 0 .silent)]

/-- **A notification is lost.** `Propose` gave the call index 2 and term 1, and the apply
loop has consumed the command of this index and term. The call waits, its channel is empty,
and its waiter is registered for an index that has been consumed; nothing but the timer is
left to end the call. -/
theorem late_registration_lost :
    ∃ s, Run.exec (System.step plainConfig 3 threeNodes) (System.start 3 threeNodes)
        lateRegistration = some s ∧ "a" ∈ threeNodes.ids ∧
      (s.server "a").proposing (.handler 0) = some (enqueueX, .waiting 2 1 0) ∧
      s.Consumed "a" 2 1 ∧ (s.server "a").channel 0 = none ∧
      (s.server "a").waiters.lookup 2 = some 0 ∧
      s.verdict threeNodes (.serve "a" (.handler 0 .silent)) = none ∧
      s.verdict threeNodes (.serve "a" (.handler 0 .timer)) =
        some ⟨"a", enqueueX, .waiting 2 1 0, .timedOut⟩ := by
  have hend : (Run.exec (System.step plainConfig 3 threeNodes) (System.start 3 threeNodes)
      lateRegistration).map callSight = some ⟨some (enqueueX, .waiting 2 1 0),
        [.command .empty 1 1, .command (encodeOp enqueueX) 2 1], none, some 0, none,
        some ⟨"a", enqueueX, .waiting 2 1 0, .timedOut⟩⟩ := by
    decide +kernel
  obtain ⟨s, hs, hend⟩ := Option.map_eq_some_iff.mp hend
  exact ⟨s, hs, by decide, congrArg CallSight.call hend,
    consumed_of_mem (congrArg CallSight.consumed hend)
      (List.mem_cons_of_mem _ (List.mem_singleton_self _)),
    congrArg CallSight.channel hend, congrArg CallSight.waiter hend, congrArg CallSight.next hend,
    congrArg CallSight.timer hend⟩

end Server

end DistQueue
