import DistQueue.Server.System

/-!
# The members of the system

A step of the system is a section of a server, an action of the cluster, or both at once
(`DistQueue.Server.step_cases`). For one member it is one of four things: it is elsewhere,
and the member's apply channel may grow; the member starts again; its apply loop receives
a message; or its server runs another section (`DistQueue.Server.Happens`).

What is to hold of a member – of its server, the channel and the messages it has received –
is therefore shown section by section (`DistQueue.Server.Happens.keeps`), and what is to
hold of the snapshots in the cluster, of those that the apply loops capture
(`DistQueue.Server.labelled_step`).
-/

namespace DistQueue

namespace Server

open Broker Raft Consensus

variable {M : Membership} {a : Ledger NodeID (LogEntry Payload)} {n : NodeID}
  {cfg : ClusterConfig} {maxRetries : ℤ} {s s' : System} {x : SystemMove}

/-! ### Steps of the system -/

theorem perform_eq {x : Action Payload} (h : s.perform maxRetries M x = some s') :
    ∃ w, Raft.step M s.world x = some w ∧ s' =
      { world := w
        server := fun n => if crashed M s.world x = some n then
          newClusterServer (newStateMachine maxRetries) else s.server n
        received := fun n => if crashed M s.world x = some n then 0 else s.received n
        trace := s.trace ++ [x]
        acked := s.acked } := by
  obtain ⟨w, hw, rfl⟩ := Option.map_eq_some_iff.mp h
  refine ⟨w, hw, ?_⟩
  cases hc : crashed M s.world x with
  | none => simp
  | some m =>
    dsimp only
    congr 1 <;> funext n <;> rcases eq_or_ne n m with rfl | hne
    · simp
    · simp [hne, hne.symm]
    · simp
    · simp [hne, hne.symm]

/-- A goroutine of a server has called its node: it proposes, or hands over a snapshot. -/
theorem call_cases {y : Action Payload} {e : Section}
    (h : s.call M x = some (y, some (n, e))) :
    (∃ p op, (s.server n).proposal p = some op ∧
      y = .run (.trigger n (.propose (encodeOp op))) ∧
      e = p.section (Raft.propose (M.config n) (s.world.nodes n) (encodeOp op)).2.2) ∨
    (∃ index st, (s.server n).applyLoop = .captured index st ∧
      y = .run (.trigger n (.snapshot index (.state st))) ∧ e = .submit) := by
  cases x with
  | act x =>
    simp only [System.call, Option.ite_none_left_eq_some] at h
    cases h.2
  | serve m e' => cases h
  | propose m p =>
    obtain ⟨op, hop, heq⟩ := Option.map_eq_some_iff.mp h
    cases heq
    exact .inl ⟨p, op, hop, rfl, rfl⟩
  | proposeCrash m p k =>
    obtain ⟨op, -, heq⟩ := Option.map_eq_some_iff.mp h
    cases heq
  | submit m =>
    simp only [System.call] at h
    split at h
    · rename_i index st hal
      cases h
      exact .inr ⟨index, st, hal, rfl, rfl⟩
    · cases h
  | submitCrash m k =>
    simp only [System.call] at h
    split at h <;> cases h

/-- What a step of the system is: a section of a server, an action of the cluster, or a
call of a server to its node. -/
theorem step_cases (h : s.step cfg maxRetries M x = some s') :
    (∃ n e, x = .serve n e ∧ s.serve cfg M n e = some s') ∨
    (∃ y, s.call M x = some (y, none) ∧ s.perform maxRetries M y = some s') ∨
    (∃ n e y s₁ sv, s.call M x = some (y, some (n, e)) ∧ s.perform maxRetries M y = some s₁ ∧
      (s₁.server n).step cfg e = some sv ∧
      s' = { s₁ with server := Function.update s₁.server n sv }) := by
  unfold System.step at h
  split at h
  · exact .inl ⟨_, _, rfl, h⟩
  · obtain ⟨⟨y, o⟩, hcall, h⟩ := Option.bind_eq_some_iff.mp h
    obtain ⟨s₁, hs₁, h⟩ := Option.bind_eq_some_iff.mp h
    cases o with
    | none =>
      cases h
      exact .inr (.inl ⟨y, hcall, hs₁⟩)
    | some ne =>
      obtain ⟨sv, hsv, rfl⟩ := Option.map_eq_some_iff.mp h
      exact .inr (.inr ⟨ne.1, ne.2, y, s₁, sv, hcall, hs₁, hsv, rfl⟩)

/-- Only the receipt of a message is counted. -/
theorem receivedAfter_of_ne {e : Section} (h : ∀ msg, e ≠ .receive msg) :
    s.receivedAfter n e = s.received := by
  unfold System.receivedAfter
  split
  · exact absurd rfl (h _)
  · rfl

/-- A member runs its own section to the end, and nobody crashes. -/
theorem perform_trigger {t : Trigger Payload}
    (h : s.perform maxRetries M (.run (.trigger n t)) = some s') :
    n ∈ M.ids ∧ (∃ x, act (M.config n) (s.world.nodes n) t = some x ∧
      s'.world.nodes n = x.node) ∧ s'.server = s.server ∧ s'.received = s.received := by
  obtain ⟨w, hw, rfl⟩ := perform_eq h
  obtain ⟨x, hx, rfl⟩ := Option.map_eq_some_iff.mp hw
  simp only [effect, Option.ite_none_right_eq_some] at hx
  obtain ⟨hn, hx⟩ := hx
  refine ⟨hn, ⟨x, hx, ?_⟩, by simp [crashed], by simp [crashed]⟩
  have hactor : n = x.actor := by rw [act_actor hx, M.config_id n hn]
  simp only [World.commit, ← hactor, Function.update_self]

/-- Only members act. -/
theorem mem_of_step_trigger {w w' : World Payload} {t : Trigger Payload} {y : Action Payload}
    (hy : y = .run (.trigger n t) ∨ ∃ k, y = .crashIn (.trigger n t) k)
    (h : Raft.step M w y = some w') : n ∈ M.ids := by
  by_contra hn
  obtain rfl | ⟨k, rfl⟩ := hy <;> simp [Raft.step, effect, hn] at h

/-- The snapshots that the servers hand over are those their apply loops have captured. -/
theorem call_supplies {Q : ℕ → Payload → Prop} {y : Action Payload}
    {o : Option (NodeID × Section)} {w : World Payload} (hcall : s.call M x = some (y, o))
    (hw : Raft.step M s.world y = some w)
    (hQ : ∀ n ∈ M.ids, ∀ index st, (s.server n).applyLoop = .captured index st →
      Q index (.state st)) : y.Supplies Q := by
  cases x with
  | act y' =>
    simp only [System.call, Option.ite_none_left_eq_some, Option.some.injEq, Prod.mk.injEq] at hcall
    obtain ⟨hy, rfl, -⟩ := hcall
    cases y' with
    | crash m => trivial
    | run e | crashIn e k =>
      cases e with
      | deliver j | answer j => trivial
      | trigger m t =>
        cases t with
        | snapshot index data => exact absurd rfl hy
        | _ => trivial
  | serve m e => cases hcall
  | propose m p | proposeCrash m p k =>
    obtain ⟨op, -, heq⟩ := Option.map_eq_some_iff.mp hcall
    cases heq
    trivial
  | submit m =>
    simp only [System.call] at hcall
    split at hcall
    · rename_i index st hal
      cases hcall
      exact hQ m (mem_of_step_trigger (.inl rfl) hw) index st hal
    · cases hcall
  | submitCrash m k =>
    simp only [System.call] at hcall
    split at hcall
    · rename_i index st hal
      cases hcall
      exact hQ m (mem_of_step_trigger (.inr ⟨k, rfl⟩) hw) index st hal
    · cases hcall

/-- The cluster stays as it is, or takes one action, which is recorded. -/
theorem step_world (hs : s.step cfg maxRetries M x = some s') :
    (s'.world = s.world ∧ s'.trace = s.trace) ∨
      ∃ y o, s.call M x = some (y, o) ∧ Raft.step M s.world y = some s'.world ∧
        s'.trace = s.trace ++ [y] := by
  obtain ⟨m, e, rfl, hserve⟩ | ⟨y, hcall, hs⟩ | ⟨m, e, y, s₁, sv, hcall, hs₁, hsv, rfl⟩ :=
    step_cases hs
  · simp only [System.serve, Option.ite_none_right_eq_some] at hserve
    obtain ⟨sv, -, rfl⟩ := Option.map_eq_some_iff.mp hserve.2
    exact .inl ⟨rfl, rfl⟩
  · obtain ⟨w, hw, rfl⟩ := perform_eq hs
    exact .inr ⟨y, none, hcall, hw, rfl⟩
  · obtain ⟨w, hw, rfl⟩ := perform_eq hs₁
    exact .inr ⟨y, some (m, e), hcall, hw, rfl⟩

theorem trace_mono (hs : s.step cfg maxRetries M x = some s') :
    s.trace <+: s'.trace := by
  obtain ⟨-, htrace⟩ | ⟨y, o, -, -, htrace⟩ := step_world hs
  · rw [htrace]
  · rw [htrace]
    exact List.prefix_append _ _

/-- **The snapshots of the cluster** have a property, if those have it that the apply loops
capture. If a crash may separate the two writes of a snapshot, the property is one that
smaller labels inherit. -/
theorem labelled_call {Q : ℕ → Payload → Prop} (h : Labelled M Q s.world)
    (hsim : Sim M s.world a) (hne : ∀ i data, Q i data → data ≠ default)
    (hanti : ∀ c ∈ s.call M x, splits M s.world c.1 = true →
      ∀ i j data, i ≤ j → Q j data → Q i data)
    (hcap : ∀ n ∈ M.ids, ∀ index st, (s.server n).applyLoop = .captured index st →
      Q index (.state st)) (hs : s.step cfg maxRetries M x = some s') :
    Labelled M Q s'.world := by
  obtain ⟨heq, -⟩ | ⟨y, o, hcall, hy, -⟩ := step_world hs
  · rw [heq]
    exact h
  · exact h.step hsim hne (call_supplies hcall hy hcap) (hanti (y, o) hcall) hy

theorem labelled_step {Q : ℕ → Payload → Prop} (h : Labelled M Q s.world)
    (hsim : Sim M s.world a) (hne : ∀ i data, Q i data → data ≠ default)
    (hanti : ∀ i j data, i ≤ j → Q j data → Q i data)
    (hcap : ∀ n ∈ M.ids, ∀ index st, (s.server n).applyLoop = .captured index st →
      Q index (.state st)) (hs : s.step cfg maxRetries M x = some s') :
    Labelled M Q s'.world :=
  labelled_call h hsim hne (fun _ _ _ => hanti) hcap hs

/-! ### One member -/

/-- Any snapshot but the empty one. -/
def Filled (_ : ℕ) (data : Payload) : Prop := data ≠ default

/-- **The runs of the system are runs of the cluster** in which no snapshot is empty. -/
theorem run_trace {xs : List SystemMove}
    (hs : Run.exec (System.step cfg maxRetries M) (System.start maxRetries M) xs = some s) :
    Raft.run M s.trace = some s.world ∧ ∀ y ∈ s.trace, y.Supplies Filled := by
  refine Run.invariant (P := fun u : System => Raft.run M u.trace = some u.world ∧
    ∀ y ∈ u.trace, y.Supplies Filled) ⟨rfl, fun y hy => absurd hy List.not_mem_nil⟩ ?_ hs
  rintro u x u' ⟨hrun, hfilled⟩ hx
  obtain ⟨hworld, htrace⟩ | ⟨y, o, hcall, hy, htrace⟩ := step_world hx
  · rw [hworld, htrace]
    exact ⟨hrun, hfilled⟩
  · rw [htrace]
    refine ⟨Run.exec_snoc.mpr ⟨u.world, hrun, hy⟩, fun z hz => ?_⟩
    rcases List.mem_append.mp hz with hz | hz
    · exact hfilled z hz
    · rw [List.mem_singleton.mp hz]
      exact call_supplies hcall hy fun _ _ _ _ _ => Payload.noConfusion

/-- **How a member's server comes to run a section**: by itself, because one of its
goroutines has proposed, or because its apply loop hands over a snapshot. -/
inductive Runs (M : Membership) (s s' : System) (x : SystemMove) (n : NodeID) : Section → Prop
  | serves (e : Section) (hx : x = .serve n e) (htrue : s.Truthful M n e) : Runs M s s' x n e
  | proposes (p : Proposer) (op : QueueOp) (hop : (s.server n).proposal p = some op)
      (hnode : s'.world.nodes n = (Raft.propose (M.config n) (s.world.nodes n) (encodeOp op)).1) :
      Runs M s s' x n (p.section (Raft.propose (M.config n) (s.world.nodes n) (encodeOp op)).2.2)
  | submits : Runs M s s' x n .submit

/-- **What a step of the system is for one member.** -/
inductive Happens (cfg : ClusterConfig) (maxRetries : ℤ) (M : Membership) (s s' : System)
    (x : SystemMove) (n : NodeID) : Prop
  | elsewhere (hserver : s'.server n = s.server n) (hreceived : s'.received n = s.received n)
      (hch : (s.world.nodes n).applyCh <+: (s'.world.nodes n).applyCh)
  | restarts (hserver : s'.server n = newClusterServer (newStateMachine maxRetries))
      (hreceived : s'.received n = 0)
  | receives (msg : ApplyMsg Payload) (hn : n ∈ M.ids) (hx : x = .serve n (.receive msg))
      (hmsg : (s.world.nodes n).applyCh[s.received n]? = some msg)
      (hidle : (s.server n).applyLoop = .idle)
      (hreceive : (s.server n).receive msg = some (s'.server n))
      (hreceived : s'.received n = s.received n + 1)
      (hch : (s'.world.nodes n).applyCh = (s.world.nodes n).applyCh)
  | runs (e : Section) (hn : n ∈ M.ids) (he : ∀ msg, e ≠ .receive msg) (hruns : Runs M s s' x n e)
      (hstep : (s.server n).step cfg e = some (s'.server n))
      (hreceived : s'.received n = s.received n)
      (hch : (s.world.nodes n).applyCh <+: (s'.world.nodes n).applyCh)

/-- A section of a server. -/
theorem happens_serve {m : NodeID} {e : Section} (hs : s.serve cfg M m e = some s') (n : NodeID) :
    Happens cfg maxRetries M s s' (.serve m e) n := by
  simp only [System.serve, Option.ite_none_right_eq_some] at hs
  obtain ⟨⟨hm, htrue⟩, hs⟩ := hs
  obtain ⟨sv, hsv, rfl⟩ := Option.map_eq_some_iff.mp hs
  rcases eq_or_ne n m with rfl | hne
  · rw [← Function.update_self n sv s.server] at hsv
    by_cases hrec : ∃ msg, e = .receive msg
    · obtain ⟨msg, rfl⟩ := hrec
      simp only [ClusterServer.step, Option.ite_none_right_eq_some] at hsv
      exact .receives msg hm rfl htrue hsv.1 hsv.2 (Function.update_self _ _ _) rfl
    · have he : ∀ msg, e ≠ .receive msg := fun msg hmsg => hrec ⟨msg, hmsg⟩
      exact .runs e hm he (.serves e rfl htrue) hsv (congrFun (receivedAfter_of_ne he) n)
        (List.prefix_refl _)
  · refine .elsewhere (Function.update_of_ne hne _ _) ?_ (List.prefix_refl _)
    dsimp only
    unfold System.receivedAfter
    split
    · exact Function.update_of_ne hne _ _
    · rfl

/-- **What a move does to a server**, and to the part of the channel that it has taken. -/
theorem happens (hsim : Sim M s.world a) (hlab : Labelled M Filled s.world)
    (hs : s.step cfg maxRetries M x = some s') (n : NodeID) :
    Happens cfg maxRetries M s s' x n := by
  have hgrow : ∀ {y : Action Payload} {o : Option (NodeID × Section)} {w : World Payload},
      s.call M x = some (y, o) → Raft.step M s.world y = some w → crashed M s.world y ≠ some n →
      (s.world.nodes n).applyCh <+: (w.nodes n).applyCh := by
    intro y o w hcall hw hc
    exact hlab.applyCh_prefix hsim (call_supplies hcall hw fun _ _ _ _ _ => Payload.noConfusion)
      hw hc
  obtain ⟨m, e, rfl, hs⟩ | ⟨y, hcall, hs⟩ | ⟨m, e, y, s₁, sv, hcall, hs₁, hsv, rfl⟩ :=
    step_cases hs
  · exact happens_serve hs n
  · obtain ⟨w, hw, rfl⟩ := perform_eq hs
    by_cases hc : crashed M s.world y = some n
    · exact .restarts (if_pos hc) (if_pos hc)
    · exact .elsewhere (if_neg hc) (if_neg hc) (hgrow hcall hw hc)
  · obtain ⟨w, hw, hs₁'⟩ := perform_eq hs₁
    have hcases := call_cases hcall
    have hc : crashed M s.world y ≠ some n := by
      obtain ⟨p, op, -, rfl, -⟩ | ⟨index, st, -, rfl, -⟩ := hcases <;> simp [crashed]
    have hch : (s.world.nodes n).applyCh <+: (s₁.world.nodes n).applyCh := by
      rw [hs₁']
      exact hgrow hcall hw hc
    rcases eq_or_ne n m with rfl | hne
    · obtain ⟨p, op, hop, rfl, rfl⟩ | ⟨index, st, -, rfl, rfl⟩ := hcases
      · obtain ⟨hn, ⟨x, hx, hnode⟩, hsame, hreceived⟩ := perform_trigger hs₁
        cases hx
        rw [hsame, ← Function.update_self n sv s₁.server] at hsv
        refine .runs _ hn (fun msg => ?_) (.proposes p op hop hnode) hsv (congrFun hreceived n) hch
        cases p <;> simp [Proposer.section]
      · obtain ⟨hn, -, hsame, hreceived⟩ := perform_trigger hs₁
        rw [hsame, ← Function.update_self n sv s₁.server] at hsv
        exact .runs _ hn (by simp) .submits hsv (congrFun hreceived n) hch
    · refine .elsewhere ?_ ?_ hch <;> dsimp only
      · rw [Function.update_of_ne hne, hs₁']
        exact if_neg hc
      · rw [hs₁']
        exact if_neg hc

/-- **What holds of a member is kept**, if a new server has it, the channel may grow, and the
sections keep it. -/
theorem Happens.keeps {I : List (ApplyMsg Payload) → ℕ → ClusterServer → Prop}
    (h : Happens cfg maxRetries M s s' x n)
    (hold : I (s.world.nodes n).applyCh (s.received n) (s.server n))
    (hnew : ∀ ch, I ch 0 (newClusterServer (newStateMachine maxRetries)))
    (hgrow : ∀ {ch sv}, I (s.world.nodes n).applyCh (s.received n) sv →
      (s.world.nodes n).applyCh <+: ch → I ch (s.received n) sv)
    (hreceive : ∀ msg sv, n ∈ M.ids → x = .serve n (.receive msg) →
      (s.world.nodes n).applyCh[s.received n]? = some msg → (s.server n).applyLoop = .idle →
      (s.server n).receive msg = some sv → I (s.world.nodes n).applyCh (s.received n + 1) sv)
    (hrun : ∀ e sv, n ∈ M.ids → (∀ msg, e ≠ .receive msg) → Runs M s s' x n e →
      (s.server n).step cfg e = some sv → I (s.world.nodes n).applyCh (s.received n) sv) :
    I (s'.world.nodes n).applyCh (s'.received n) (s'.server n) := by
  cases h with
  | elsewhere hserver hreceived hch =>
    rw [hserver, hreceived]
    exact hgrow hold hch
  | restarts hserver hreceived =>
    rw [hserver, hreceived]
    exact hnew _
  | receives msg hn hx hmsg hidle hreceive' hreceived hch =>
    rw [hreceived, hch]
    exact hreceive msg _ hn hx hmsg hidle hreceive'
  | runs e hn he hruns hstep hreceived hch =>
    rw [hreceived]
    exact hgrow (hrun e _ hn he hruns hstep) hch

end Server

end DistQueue
