import DistQueue.Raft.Deployment
import DistQueue.Raft.Orderly

/-!
# Quorums are acted on

A candidate compares its votes with the majority when it counts one, and a leader compares its
match indices when it has learnt from a reply that a peer holds more. Both numbers also change
elsewhere: a candidate begins with a vote of its own, a leader matches itself whenever it appends
an entry, and it learns from the reply to a snapshot as well. In none of these places is anything
compared, and nothing needs to be, with one exception: a node without peers is a majority by
itself, and so its election is won when it begins, which it does not notice
(`DistQueue.Raft.alone_remains_candidate`).

This holds for whatever can be deployed (`DistQueue.Raft.quorums_acted_on_iff`), also where the
nodes do not agree on who they are.
-/

namespace DistQueue

namespace Raft

variable {Blob : Type} {nd nd' : Node Blob} {cfg : Config} {ws : List (Write Blob)}

/-! ### Requests -/

/-- What a request brings is in order. -/
def Request.Tidy : Request Blob → Prop
  | .requestVote _ => True
  | .appendEntries args => ∀ k e, args.entries[k]? = some e →
      e.index = args.prevLogIndex + k + 1 ∧ e.term ≤ args.term
  | .installSnapshot args => args.lastIncludedTerm ≤ args.term

/-- A request of a term that its caller has led, and what is known of it as long as the caller
leads that term. -/
structure Since (nd : Node Blob) (term : ℕ) (bound : Prop) : Prop where
  term_le : term ≤ nd.currentTerm
  candidate : nd.state = .candidate → term < nd.currentTerm
  leader : nd.state = .leader → term = nd.currentTerm → bound

/-- **A request that its caller waits for**: the entries are within the caller's log, and the
snapshot within what it has compacted. -/
def Request.Outstanding (nd : Node Blob) : Request Blob → Prop
  | .requestVote _ => True
  | .appendEntries args =>
    Since nd args.term (args.prevLogIndex + args.entries.length ≤ nd.log.lastIndex)
  | .installSnapshot args => Since nd args.term (args.lastIncludedIndex ≤ nd.log.firstIndex)

/-- What holds since a term goes on to hold as the log grows. -/
theorem Since.progress {term : ℕ} {bound bound' : Prop} (h : Since nd term bound)
    (hp : Progress nd nd') (hbound : nd.log.firstIndex ≤ nd'.log.firstIndex →
      nd.log.lastIndex ≤ nd'.log.lastIndex → bound → bound') : Since nd' term bound' := by
  refine ⟨h.term_le.trans hp.term, fun hs => ?_, fun hs hterm => ?_⟩
  · rcases hp.candidate hs with ⟨hs', heq⟩ | hlt
    · exact (h.candidate hs').trans_eq heq.symm
    · exact h.term_le.trans_lt hlt
  · obtain ⟨heq, hs' | ⟨hs', hfirst, hlast⟩⟩ := hp.leader hs
    · exact absurd (hterm.trans heq) (h.candidate hs').ne
    · exact hbound hfirst hlast (h.leader hs' (hterm.trans heq))

/-- A request is outstanding for as long as its leader leads. -/
theorem Request.Outstanding.progress {request : Request Blob} (h : request.Outstanding nd)
    (hp : Progress nd nd') : request.Outstanding nd' := by
  cases request with
  | requestVote args => trivial
  | appendEntries args => exact Since.progress h hp fun _ hlast hle => hle.trans hlast
  | installSnapshot args => exact Since.progress h hp fun hfirst _ hle => hle.trans hfirst

/-- What is shown of the calls that a section makes. -/
def Sends (n : NodeID) (nd : Node Blob) (calls : List (Call Blob)) : Prop :=
  ∀ c ∈ calls, c.caller = n ∧ c.request.Tidy ∧ c.request.Outstanding nd

theorem sends_nil (n : NodeID) : Sends n nd [] := fun _ hc => absurd hc List.not_mem_nil

theorem since_self (hs : nd.state = .leader) {bound : Prop} (hbound : bound) :
    Since nd nd.currentTerm bound := by
  refine ⟨le_refl _, fun hs' => ?_, fun _ _ => hbound⟩
  cases hs.symm.trans hs'

/-- **A leader sends tidy entries, which it has.** -/
theorem sendAppendEntries_tidy (h : Orderly cfg nd) {peer : NodeID}
    {args : AppendEntriesArgs Blob} (hargs : sendAppendEntries cfg nd peer = some args) :
    (Request.appendEntries args).Tidy ∧ (Request.appendEntries args).Outstanding nd := by
  obtain ⟨hs, i, t, es, -, hlo, -, hes, rfl⟩ := sendAppendEntries_eq hargs
  obtain ⟨rfl, hlen⟩ := Log.sliceFrom_eq hes hlo
  refine ⟨fun k e he => ?_, since_self hs ?_⟩
  · have he := (List.getElem?_drop ..).symm.trans he
    have := h.tidy.index _ e he
    exact ⟨by dsimp only; omega, h.tidy.term e (List.mem_cons_of_mem _ (List.mem_of_getElem? he))⟩
  · rw [h.tidy.lastIndex_eq]
    dsimp only
    rw [List.length_drop]
    omega

/-- **A leader sends a snapshot that it has.** -/
theorem sendInstallSnapshot_tidy (h : Orderly cfg nd) {args : InstallSnapshotArgs Blob}
    (hargs : sendInstallSnapshot cfg nd = some args) :
    (Request.installSnapshot args).Tidy ∧ (Request.installSnapshot args).Outstanding nd := by
  obtain ⟨hs, data, -, rfl⟩ := sendInstallSnapshot_eq hargs
  exact ⟨h.tidy.term _ List.mem_cons_self, since_self hs (le_refl _)⟩

/-! ### Every section -/

section Sections

variable [Inhabited Blob] {x : Effect Blob}

/-- What a node does by itself. -/
theorem Orderly.act (h : Orderly cfg nd) (hnodup : cfg.peers.Nodup) {t : Trigger Blob}
    (hx : act cfg nd t = some x) :
    Tends cfg nd x.node x.writes ∧ Sends cfg.id x.node x.calls := by
  cases acts_of_act hx with
  | electionTimeout hs =>
    refine ⟨tends_startElection h, fun c hc => ?_⟩
    obtain ⟨p, -, rfl⟩ := List.mem_map.mp hc
    exact ⟨rfl, trivial, trivial⟩
  | propose command => exact ⟨tends_propose h hnodup command, sends_nil _⟩
  | sendAppendEntries hpeer hargs =>
    refine ⟨.refl h, fun c hc => ?_⟩
    rw [List.mem_singleton.mp hc]
    exact ⟨rfl, sendAppendEntries_tidy h hargs⟩
  | sendInstallSnapshot hpeer hargs =>
    refine ⟨.refl h, fun c hc => ?_⟩
    rw [List.mem_singleton.mp hc]
    exact ⟨rfl, sendInstallSnapshot_tidy h hargs⟩
  | snapshot hr => exact ⟨tends_snapshot h hr, sends_nil _⟩
  | applierTake hnd' =>
    rw [applierTake_eq hnd']
    exact ⟨.same h ⟨rfl, rfl, rfl, rfl, rfl, rfl⟩, sends_nil _⟩
  | applierSend hnd' =>
    rw [applierSend_eq hnd']
    exact ⟨.same h ⟨rfl, rfl, rfl, rfl, rfl, rfl⟩, sends_nil _⟩
  | applierAdvance hnd' =>
    rw [applierAdvance_eq hnd']
    exact ⟨.same h ⟨rfl, rfl, rfl, rfl, rfl, rfl⟩, sends_nil _⟩

/-- The callee's end of a call. -/
theorem Orderly.handle (h : Orderly cfg nd) {k : ℕ} {request : Request Blob}
    (hrequest : request.Tidy) (hx : handle cfg nd k request = some x) :
    Tends cfg nd x.node x.writes ∧ Sends cfg.id x.node x.calls := by
  cases request with
  | requestVote args =>
    cases hx
    exact ⟨tends_handleRequestVote h args, sends_nil _⟩
  | appendEntries args =>
    obtain ⟨r, hr, hx⟩ := Option.bind_eq_some_iff.mp hx
    cases hx
    exact ⟨tends_handleAppendEntries h hrequest hr, sends_nil _⟩
  | installSnapshot args =>
    obtain ⟨r, hr, hx⟩ := Option.bind_eq_some_iff.mp hx
    cases hx
    exact ⟨tends_handleInstallSnapshot h hrequest hr, sends_nil _⟩

/-- The caller's end. -/
theorem Orderly.onReply (h : Orderly cfg nd) (hnodup : cfg.peers.Nodup) {k : ℕ} {peer : NodeID}
    {request : Request Blob} {reply : Reply} (hrequest : request.Outstanding nd)
    (hx : onReply cfg nd k peer request reply = some x) :
    Tends cfg nd x.node x.writes ∧ Sends cfg.id x.node x.calls := by
  unfold Raft.onReply at hx
  split at hx
  · cases hx
    exact ⟨tends_onRequestVoteReply h hnodup _ _, sends_nil _⟩
  · obtain ⟨r, hr, hx⟩ := Option.bind_eq_some_iff.mp hx
    cases hx
    exact ⟨tends_onAppendEntriesReply h (Since.leader hrequest) hr, sends_nil _⟩
  · cases hx
    exact ⟨tends_onInstallSnapshotReply h _ _ (Since.leader hrequest), sends_nil _⟩
  · cases hx

/-- A node started on files that are in order. -/
theorem orderly_newNode [DecidableEq Blob] {d : Disk Blob}
    (h : ∀ ps, d.state = some ps → ps.log.Tidy ps.currentTerm) : Orderly cfg (newNode cfg d) := by
  refine orderly_of_follower (newNode_fields cfg d).1 ?_
  by_cases hcfg : cfg.dataDir = ""
  · simp only [newNode, readPersist, if_pos hcfg]
    exact tidy_emptyLog
  · have hps := newNode_persistentState hcfg d
    have htidy : d.persistentState.log.Tidy d.persistentState.currentTerm := by
      cases hstate : d.state with
      | none =>
        rw [Disk.persistentState, hstate]
        exact tidy_emptyLog
      | some ps =>
        rw [Disk.persistentState, hstate]
        exact h ps hstate
    rw [← hps] at htidy
    exact htidy

end Sections

/-! ### Every run -/

section Runs

variable [Inhabited Blob] {D : Deployment} {w w' : World Blob} {n : NodeID} {x : Effect Blob}

/-- **A deployment in order**: its nodes, its files, and its requests. -/
structure WellKept (D : Deployment) (w : World Blob) : Prop where
  node : ∀ n ∈ D.ids, Orderly (D.config n) (w.nodes n)
  disk : ∀ n ∈ D.ids, ∀ ps, (w.disks n).state = some ps → ps.log.Tidy ps.currentTerm
  request : ∀ c ∈ w.calls, c.request.Tidy
  outstanding : ∀ c ∈ w.calls, c.waiting = true → c.request.Outstanding (w.nodes c.caller)

/-- **Every section** keeps its node in order. -/
theorem WellKept.effect (h : WellKept D w) {e : Event Blob} (hx : effect D w e = some x) :
    x.actor ∈ D.ids ∧ Tends (D.config x.actor) (w.nodes x.actor) x.node x.writes ∧
      Sends x.actor x.node x.calls := by
  have hsection : ∀ n ∈ D.ids, x.actor = (D.config n).id →
      Tends (D.config n) (w.nodes n) x.node x.writes ∧ Sends (D.config n).id x.node x.calls →
      x.actor ∈ D.ids ∧ Tends (D.config x.actor) (w.nodes x.actor) x.node x.writes ∧
        Sends x.actor x.node x.calls := by
    intro n hn hactor hkept
    rw [D.config_id n hn] at hactor hkept
    rw [hactor]
    exact ⟨hn, hkept⟩
  cases e with
  | trigger n t =>
    rw [Raft.effect] at hx
    split at hx
    · rename_i hn
      exact hsection n hn (act_actor hx) ((h.node n hn).act (D.admitted n hn).nodup hx)
    · cases hx
  | deliver k =>
    obtain ⟨c, hc, hx⟩ := Option.bind_eq_some_iff.mp hx
    split at hx
    · rename_i hn
      exact hsection _ hn (handle_actor hx)
        ((h.node _ hn).handle (h.request c (List.mem_of_getElem? hc)) hx)
    · cases hx
  | answer j =>
    obtain ⟨⟨k, reply⟩, hj, hx⟩ := Option.bind_eq_some_iff.mp hx
    obtain ⟨c, hc, hx⟩ := Option.bind_eq_some_iff.mp hx
    split at hx
    · rename_i hwaiting
      obtain ⟨hwaiting, hn⟩ := hwaiting
      exact hsection _ hn (onReply_actor hx) ((h.node _ hn).onReply (D.admitted _ hn).nodup
        (h.outstanding c (List.mem_of_getElem? hc) hwaiting) hx)
    · cases hx

omit [Inhabited Blob] in
/-- A disk on which tidy logs are written has a tidy log. -/
theorem tidy_write {d : Disk Blob} (h : ∀ ps, d.state = some ps → ps.log.Tidy ps.currentTerm)
    (hws : ∀ ps, Write.state ps ∈ ws → ps.log.Tidy ps.currentTerm) :
    ∀ ps, (d.write ws).state = some ps → ps.log.Tidy ps.currentTerm := by
  induction ws generalizing d with
  | nil => exact h
  | cons y ws ih =>
    refine ih (fun ps hps => ?_) fun ps hps => hws ps (List.mem_cons_of_mem _ hps)
    cases y with
    | state ps' =>
      obtain rfl := Option.some.inj hps
      exact hws ps' List.mem_cons_self
    | snapshot data => exact h ps hps

omit [Inhabited Blob] in
/-- **A section that tends its node, and sends what is tidy, leaves the cluster well kept.** -/
theorem WellKept.commit (h : WellKept D w)
    (htends : Tends (D.config x.actor) (w.nodes x.actor) x.node x.writes)
    (hsends : Sends x.actor x.node x.calls) : WellKept D (w.commit x) := by
  have hcalls := continues_closeCall w.calls x.finished
  refine ⟨fun m hm => ?_, fun m hm => ?_, fun c hc => ?_, fun c hc hwaiting => ?_⟩
  · rcases eq_or_ne m x.actor with rfl | hne
    · simp only [World.commit, Function.update_self]
      exact htends.orderly
    · simp only [World.commit, Function.update_of_ne hne]
      exact h.node m hm
  · rcases eq_or_ne m x.actor with rfl | hne
    · simp only [World.commit, Function.update_self]
      exact tidy_write (h.disk _ hm) htends.writes
    · simp only [World.commit, Function.update_of_ne hne]
      exact h.disk m hm
  · rcases List.mem_append.mp hc with hc | hc
    · obtain ⟨c', hc', -, -, hrequest, -⟩ := hcalls.mem hc
      rw [hrequest]
      exact h.request c' hc'
    · exact (hsends c hc).2.1
  · rcases List.mem_append.mp hc with hc | hc
    · obtain ⟨c', hc', hcaller, -, hrequest, hopen⟩ := hcalls.mem hc
      have hout := h.outstanding c' hc' (hopen hwaiting)
      rw [hrequest, hcaller]
      rcases eq_or_ne c'.caller x.actor with heq | hne
      · simp only [World.commit, heq, Function.update_self]
        exact (heq ▸ hout).progress htends.progress
      · simp only [World.commit, Function.update_of_ne hne]
        exact hout
    · obtain ⟨hcaller, -, hout⟩ := hsends c hc
      simp only [World.commit, hcaller, Function.update_self]
      exact hout

variable [DecidableEq Blob]

/-- A node that is started again waits for nothing. -/
theorem WellKept.restart (h : WellKept D w)
    (hws : ∀ ps, Write.state ps ∈ ws → ps.log.Tidy ps.currentTerm) :
    WellKept D (w.restart D n ws) := by
  have hdisk : ∀ m ∈ D.ids, m = n → ∀ ps, ((w.disks m).write ws).state = some ps →
      ps.log.Tidy ps.currentTerm := fun m hm _ => tidy_write (h.disk m hm) hws
  refine ⟨fun m hm => ?_, fun m hm => ?_, fun c hc => ?_, fun c hc hwaiting => ?_⟩
  · rcases eq_or_ne m n with rfl | hne
    · simp only [World.restart, Function.update_self]
      exact orderly_newNode (hdisk m hm rfl)
    · simp only [World.restart, Function.update_of_ne hne]
      exact h.node m hm
  · rcases eq_or_ne m n with rfl | hne
    · simp only [World.restart, Function.update_self]
      exact hdisk m hm rfl
    · simp only [World.restart, Function.update_of_ne hne]
      exact h.disk m hm
  · obtain ⟨c', hc', -, -, hrequest, -⟩ := (continues_map w.calls n).mem hc
    rw [hrequest]
    exact h.request c' hc'
  · obtain ⟨c', hc', rfl⟩ := List.mem_map.mp hc
    split at hwaiting
    · cases hwaiting
    · rename_i hne
      simp only [World.restart, if_neg hne, Function.update_of_ne hne]
      exact h.outstanding c' hc' hwaiting

/-- Every step leaves the cluster well kept. -/
theorem WellKept.step (h : WellKept D w) {y : Action Blob} (hy : step D w y = some w') :
    WellKept D w' := by
  cases y with
  | run e =>
    obtain ⟨x, hx, rfl⟩ := Option.map_eq_some_iff.mp hy
    obtain ⟨-, htends, hsends⟩ := h.effect hx
    exact h.commit htends hsends
  | crash n =>
    simp only [Raft.step, Option.ite_none_right_eq_some, Option.some.injEq] at hy
    obtain ⟨-, rfl⟩ := hy
    exact h.restart fun _ hps => absurd hps List.not_mem_nil
  | crashIn e k =>
    obtain ⟨x, hx, rfl⟩ := Option.map_eq_some_iff.mp hy
    obtain ⟨-, htends, -⟩ := h.effect hx
    exact h.restart fun ps hps => htends.writes ps (List.mem_of_mem_take hps)

/-- **Every run leaves the cluster well kept.** -/
theorem wellKept_run {as : List (Action Blob)} (hrun : run D as = some w) : WellKept D w := by
  refine Run.invariant (P := WellKept D) ?_ (fun _ _ _ h hy => h.step hy) hrun
  have hempty : ∀ ps, (emptyDisk : Disk Blob).state = some ps → ps.log.Tidy ps.currentTerm :=
    fun ps hps => nomatch hps
  exact ⟨fun m _ => orderly_newNode hempty, fun m _ => hempty,
    fun c hc => absurd hc List.not_mem_nil, fun c hc => absurd hc List.not_mem_nil⟩

omit [Inhabited Blob] [DecidableEq Blob] in
/-- **An election without peers** is won when it begins, and not acted on. -/
theorem not_actedOn_startElection (hcfg : cfg.peers = []) :
    ¬ActedOn cfg (startElectionLocked cfg nd).1 := by
  intro h
  have hfew := h.candidate rfl
  simp only [startElectionLocked, Function.update_self, Config.majority, hcfg,
    List.length_nil] at hfew
  omega

/-- **When quorums are acted on.** In every run of every deployment, no node remains a candidate
with a majority of the votes, and no leader has an uncommitted entry of its term that a majority
has reached: if and only if the node has been given a peer. -/
theorem quorums_acted_on_iff (hn : n ∈ D.ids) :
    (∀ (as : List (Action Blob)) (w : World Blob), run D as = some w →
      ActedOn (D.config n) (w.nodes n)) ↔ (D.config n).peers ≠ [] := by
  refine ⟨fun h hcfg => ?_, fun hcfg as w hrun => ((wellKept_run hrun).node n hn).acted hcfg⟩
  -- the first election of the node
  have hs : ((start D : World Blob).nodes n).state ≠ .leader := by
    rw [start, (newNode_fields _ _).1]
    decide
  have hrun : ∃ w, run D [Action.run (.trigger n (.electionTimeout : Trigger Blob))] = some w ∧
      w.nodes n = (startElectionLocked (D.config n) ((start D).nodes n)).1 := by
    refine ⟨_, by
      simp only [run, Run.exec_cons, Raft.step, effect, if_pos hn, act,
        if_neg hs, Option.map_some, Option.bind_some, Run.exec_nil]
      rfl, ?_⟩
    simp only [World.commit, D.config_id n hn, Function.update_self]
  obtain ⟨w, hw, hnode⟩ := hrun
  exact not_actedOn_startElection hcfg (hnode ▸ h _ w hw)

end Runs

/-! ### Two deployments -/

/-- Two nodes that know each other. -/
def pair : Deployment where
  ids := ["a", "b"]
  config := fun n => if n = "a" then ⟨"a", ["b"], "data"⟩ else ⟨"b", ["a"], "data"⟩
  config_id := by decide
  admitted := by
    rw [List.forall_mem_cons, List.forall_mem_singleton]
    exact ⟨⟨"b=h:8002=h:9002", ⟨"a", ["b"], "data"⟩, by decide +kernel, .refl _⟩,
      ⟨"a=h:8001=h:9001", ⟨"b", ["a"], "data"⟩, by decide +kernel, .refl _⟩⟩

/-- The theorem at the pair, where a majority is both nodes. -/
theorem quorums_acted_on_iff_pair :
    (pair.config "a").majority = 2 ∧ ∀ (as : List (Action ℕ)) (w : World ℕ),
      run pair as = some w → ActedOn (pair.config "a") (w.nodes "a") :=
  ⟨by decide, (quorums_acted_on_iff (by decide)).mpr (by decide)⟩

/-- A node that has been given no peers. -/
def alone : Deployment where
  ids := ["a"]
  config := fun n => ⟨n, [], "data"⟩
  config_id := by decide
  admitted := by
    rw [List.forall_mem_singleton]
    exact ⟨"", ⟨"a", [], "data"⟩, by decide +kernel, .refl _⟩

/-- **A majority of one is not noticed.** -/
theorem alone_remains_candidate :
    ∃ w : World ℕ, run alone [.run (.trigger "a" .electionTimeout)] = some w ∧
      (w.nodes "a").state = .candidate ∧
      (alone.config "a").majority ≤ (w.nodes "a").votes (w.nodes "a").currentTerm := by
  have hrun : (run alone [.run (.trigger "a" .electionTimeout)] : Option (World ℕ)).map
      (fun w => ((w.nodes "a").state, (w.nodes "a").votes (w.nodes "a").currentTerm)) =
      some (.candidate, 1) := by
    decide +kernel
  obtain ⟨w, hw, heq⟩ := Option.map_eq_some_iff.mp hrun
  obtain ⟨hs, hvotes⟩ := Prod.mk.inj heq
  exact ⟨w, hw, hs, hvotes.ge⟩

end Raft

end DistQueue
