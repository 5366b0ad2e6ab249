import DistQueue.Raft.Simulation.Snapshot

/-!
# The cluster simulates the ledger

`DistQueue.Raft.Sim` relates a state of the cluster to a ledger: every member is
between two sections, every request and every reply says what is in the ledger, and
the vote counter of every candidate counts voters. The last point is the only one that
is about several calls at once. A candidate makes one call to each peer and a call is
answered once, so the peers whose calls are still open have not been counted
(`DistQueue.Raft.Polled`).

`DistQueue.Raft.Sim.step` is the simulation: every action of the schedule, a crash in
the middle of a section included, moves the ledger up.
-/

namespace DistQueue

namespace Raft

open Consensus

variable {Blob : Type}

/-! ### The relation -/

/-- Two vote requests of one election to the same peer. -/
def SamePoll (c c' : Call Blob) : Prop :=
  c.caller = c'.caller ∧ c.callee = c'.callee ∧ ∃ args args', c.request = .requestVote args ∧
    c'.request = .requestVote args' ∧ args.term = args'.term

/-- An election asks each peer once. -/
def PollUnique (calls : List (Call Blob)) : Prop :=
  ∀ (j k : ℕ) (c c' : Call Blob), calls[j]? = some c → calls[k]? = some c' → SamePoll c c' → j = k

/-- **The vote counter of a candidate counts voters**, and none of those it still waits
for. -/
def Polled (M : Membership) (a : Ledger NodeID (LogEntry Blob)) (calls : List (Call Blob))
    (n : NodeID) (nd : Node Blob) : Prop :=
  nd.state = .candidate → ∃ S ⊆ M.ids.toFinset, S.card = nd.votes (a.cur n) ∧
    (∀ v ∈ S, a.vote v (a.cur n) = some n) ∧
    ∀ c ∈ calls, ∀ args, c.caller = n → c.request = .requestVote args → args.term = a.cur n →
      c.waiting = true → c.callee ∉ S

/-- A call between two different members that says what is in the ledger. -/
structure CallOf (M : Membership) (a : Ledger NodeID (LogEntry Blob)) (c : Call Blob) : Prop where
  caller : c.caller ∈ M.ids
  callee : c.callee ∈ M.ids
  ne : c.callee ≠ c.caller
  request : RequestOf a c.caller c.request

/-- **The state of the cluster implements the ledger.** -/
structure Sim [Inhabited Blob] (M : Membership) (w : World Blob)
    (a : Ledger NodeID (LogEntry Blob)) : Prop where
  good : Good M a
  node : ∀ n ∈ M.ids, At M a n (w.nodes n) (w.disks n)
  call : ∀ c ∈ w.calls, CallOf M a c
  reply : ∀ k r, (k, r) ∈ w.replies →
    ∃ c, w.calls[k]? = some c ∧ ReplyOf a c.caller c.callee c.request r
  unique : PollUnique w.calls
  polled : ∀ n ∈ M.ids, Polled M a w.calls n (w.nodes n)

/-! ### Closing calls -/

/-- The calls of one list are those of another, some of them closed. -/
structure Continues (cs cs' : List (Call Blob)) : Prop where
  length : cs'.length = cs.length
  get : ∀ (k : ℕ) (c' : Call Blob), cs'[k]? = some c' → ∃ c, cs[k]? = some c ∧
    c'.caller = c.caller ∧ c'.callee = c.callee ∧ c'.request = c.request ∧
    (c'.waiting = true → c.waiting = true)

section Continues

variable {M : Membership} {a : Ledger NodeID (LogEntry Blob)} {cs cs' : List (Call Blob)}

/-- A call that is closed goes on otherwise unchanged. -/
theorem continues_closeCall (cs : List (Call Blob)) (f : Option ℕ) :
    Continues cs (closeCall cs f) := by
  cases f with
  | none => exact ⟨rfl, fun k c' hc' => ⟨c', hc', rfl, rfl, rfl, id⟩⟩
  | some j =>
    refine ⟨List.length_modify .., fun k c' hc' => ?_⟩
    rw [closeCall, List.getElem?_modify] at hc'
    obtain ⟨c, hc, rfl⟩ := Option.map_eq_some_iff.mp hc'
    refine ⟨c, hc, ?_⟩
    by_cases hjk : j = k <;> simp [hjk, Call.close]

/-- So do the calls of a node that goes down. -/
theorem continues_map (cs : List (Call Blob)) (n : NodeID) :
    Continues cs (cs.map fun c => if c.caller = n then c.close else c) := by
  refine ⟨List.length_map .., fun k c' hc' => ?_⟩
  rw [List.getElem?_map] at hc'
  obtain ⟨c, hc, rfl⟩ := Option.map_eq_some_iff.mp hc'
  refine ⟨c, hc, ?_⟩
  by_cases hn : c.caller = n <;> simp [hn, Call.close]

namespace Continues

/-- A call that goes on was there. -/
theorem mem (h : Continues cs cs') {c' : Call Blob} (hc' : c' ∈ cs') :
    ∃ c ∈ cs, c'.caller = c.caller ∧ c'.callee = c.callee ∧ c'.request = c.request ∧
      (c'.waiting = true → c.waiting = true) := by
  obtain ⟨k, hk⟩ := List.mem_iff_getElem?.mp hc'
  obtain ⟨c, hc, hrest⟩ := h.get k c' hk
  exact ⟨c, List.mem_of_getElem? hc, hrest⟩

/-- A call that was there is still there. -/
theorem forward (h : Continues cs cs') {k : ℕ} {c : Call Blob} (hc : cs[k]? = some c) :
    ∃ c', cs'[k]? = some c' ∧ c'.caller = c.caller ∧ c'.callee = c.callee ∧
      c'.request = c.request := by
  have hlt : k < cs'.length := by
    rw [h.length]
    exact (List.getElem?_eq_some_iff.mp hc).1
  obtain ⟨c', hc'⟩ : ∃ c', cs'[k]? = some c' := ⟨_, List.getElem?_eq_getElem hlt⟩
  obtain ⟨c₀, hc₀, h₁, h₂, h₃, -⟩ := h.get k c' hc'
  obtain rfl : c₀ = c := Option.some.inj (hc₀.symm.trans hc)
  exact ⟨c', hc', h₁, h₂, h₃⟩

/-- **Calls that go on are right.** -/
theorem callOf (h : Continues cs cs') (hcs : ∀ c ∈ cs, CallOf M a c) :
    ∀ c' ∈ cs', CallOf M a c' := by
  intro c' hc'
  obtain ⟨c, hc, h₁, h₂, h₃, -⟩ := h.mem hc'
  have hcall := hcs c hc
  exact ⟨h₁ ▸ hcall.caller, h₂ ▸ hcall.callee, by rw [h₁, h₂]; exact hcall.ne,
    by rw [h₁, h₃]; exact hcall.request⟩

/-- Calls that go on are still one poll each. -/
theorem unique (h : Continues cs cs') (hcs : PollUnique cs) : PollUnique cs' := by
  rintro j k c₁ c₂ h₁ h₂ ⟨hr, he, args, args', hq, hq', ht⟩
  obtain ⟨d₁, hd₁, hr₁, he₁, hq₁, -⟩ := h.get j c₁ h₁
  obtain ⟨d₂, hd₂, hr₂, he₂, hq₂, -⟩ := h.get k c₂ h₂
  refine hcs j k d₁ d₂ hd₁ hd₂ ⟨?_, ?_, args, args', ?_, ?_, ht⟩
  · rw [← hr₁, ← hr₂, hr]
  · rw [← he₁, ← he₂, he]
  · rw [← hq₁, hq]
  · rw [← hq₂, hq']

/-- A candidate's poll does not notice. -/
theorem polled (h : Continues cs cs') {n : NodeID} {nd : Node Blob} (hp : Polled M a cs n nd) :
    Polled M a cs' n nd := by
  intro hs
  obtain ⟨S, hS, hcard, hvotes, hopen⟩ := hp hs
  refine ⟨S, hS, hcard, hvotes, fun c' hc' args hr hq ht hw => ?_⟩
  obtain ⟨c, hc, h₁, h₂, h₃, h₄⟩ := h.mem hc'
  rw [h₂]
  exact hopen c hc args (h₁ ▸ hr) (h₃ ▸ hq) ht (h₄ hw)

end Continues

end Continues

/-! ### Sections and crashes -/

section Steps

variable [Inhabited Blob] {M : Membership} {w w' : World Blob}
  {a a' b : Ledger NodeID (LogEntry Blob)} {n : NodeID} {x : Effect Blob}

omit [Inhabited Blob] in
theorem CallOf.mono (hle : Le a a') {c : Call Blob} (h : CallOf M a c) : CallOf M a' c :=
  ⟨h.caller, h.callee, h.ne, h.request.mono hle⟩

omit [Inhabited Blob] in
/-- New polls may be added. -/
theorem PollUnique.append {cs xs : List (Call Blob)} (h : PollUnique cs) (hx : PollUnique xs)
    (hcross : ∀ c ∈ cs, ∀ c' ∈ xs, ¬SamePoll c c') : PollUnique (cs ++ xs) := by
  have hcross' : ∀ c ∈ xs, ∀ c' ∈ cs, ¬SamePoll c c' := by
    rintro c hc c' hc' ⟨hr, he, args, args', hq, hq', ht⟩
    exact hcross c' hc' c hc ⟨hr.symm, he.symm, args', args, hq', hq, ht.symm⟩
  intro j k c c' hj hk hsame
  rw [List.getElem?_append] at hj hk
  split at hj
  · split at hk
    · exact h j k c c' hj hk hsame
    · exact absurd hsame (hcross c (List.mem_of_getElem? hj) c' (List.mem_of_getElem? hk))
  · split at hk
    · exact absurd hsame (hcross' c (List.mem_of_getElem? hj) c' (List.mem_of_getElem? hk))
    · have := hx _ _ c c' hj hk hsame
      omega

omit [Inhabited Blob] in
/-- The poll of a member that did not act. -/
theorem Polled.frame {calls xs : List (Call Blob)} {m : NodeID} {nd : Node Blob}
    (h : Polled M a calls m nd) (hle : Le a a') (hu : Untouched a a' m)
    (hxs : ∀ c ∈ xs, c.caller ≠ m) : Polled M a' (calls ++ xs) m nd := by
  intro hs
  obtain ⟨S, hS, hcard, hvotes, hopen⟩ := h hs
  rw [hu.cur]
  refine ⟨S, hS, hcard, fun v hv => hle.vote v _ m (hvotes v hv), fun c hc args hr hq ht hw => ?_⟩
  rcases List.mem_append.mp hc with hc | hc
  · exact hopen c hc args hr hq ht hw
  · exact absurd hr (hxs c hc)

/-- What is to be shown of a section: it has an outcome, and the state it leads to
implements the ledger of that outcome. -/
def Simulated (M : Membership) (w : World Blob) (a : Ledger NodeID (LogEntry Blob))
    (x : Effect Blob) : Prop :=
  ∃ a', Outcome M a a' x.actor (w.nodes x.actor) x.node (w.disks x.actor) x.writes ∧
    Sim M (w.commit x) a'

/-- **A section has run**, with an outcome for its member; the rest of the relation
follows. -/
theorem Sim.commit (h : Sim M w a) (hactor : x.actor = n)
    (hout : Outcome M a a' n (w.nodes n) x.node (w.disks n) x.writes)
    (hcall : ∀ c ∈ x.calls, c.caller = n ∧ CallOf M a' c)
    (hreply : ∀ k r, (k, r) ∈ x.replies →
      ∃ c, w.calls[k]? = some c ∧ ReplyOf a' c.caller c.callee c.request r)
    (hnew : PollUnique x.calls) (hcross : ∀ c ∈ w.calls, ∀ c' ∈ x.calls, ¬SamePoll c c')
    (hpoll : Polled M a' (closeCall w.calls x.finished ++ x.calls) n x.node) :
    Simulated M w a x := by
  subst hactor
  have hle : Le a a' := (hout.moves.inv_le h.good.inv).2
  have hcont := continues_closeCall w.calls x.finished
  refine ⟨a', hout, hout.after.good, fun m hm => ?_, fun c hc => ?_, fun k r hr => ?_, ?_,
    fun m hm => ?_⟩
  · rcases eq_or_ne m x.actor with rfl | hne
    · simp only [World.commit, Function.update_self]
      exact hout.after
    · simp only [World.commit, Function.update_of_ne hne]
      exact (h.node m hm).frame hout.after.good hle (hout.moves.frame hne)
  · rcases List.mem_append.mp hc with hc | hc
    · exact (hcont.callOf h.call c hc).mono hle
    · exact (hcall c hc).2
  · obtain ⟨c, hc, hrep⟩ : ∃ c, w.calls[k]? = some c ∧
        ReplyOf a' c.caller c.callee c.request r := by
      rcases List.mem_append.mp hr with hr | hr
      · obtain ⟨c, hc, hrep⟩ := h.reply k r hr
        exact ⟨c, hc, hrep.mono hle⟩
      · exact hreply k r hr
    obtain ⟨c', hc', h₁, h₂, h₃⟩ := hcont.forward hc
    refine ⟨c', ?_, by rw [h₁, h₂, h₃]; exact hrep⟩
    show (closeCall w.calls x.finished ++ x.calls)[k]? = some c'
    rw [List.getElem?_append_left (List.getElem?_eq_some_iff.mp hc').1]
    exact hc'
  · refine (hcont.unique h.unique).append hnew fun c hc c' hc' hsame => ?_
    obtain ⟨c₀, hc₀, h₁, h₂, h₃, -⟩ := hcont.mem hc
    obtain ⟨hr, he, args, args', hq, hq', ht⟩ := hsame
    exact hcross c₀ hc₀ c' hc' ⟨h₁ ▸ hr, h₂ ▸ he, args, args', h₃ ▸ hq, hq', ht⟩
  · rcases eq_or_ne m x.actor with rfl | hne
    · simp only [World.commit, Function.update_self]
      exact hpoll
    · simp only [World.commit, Function.update_of_ne hne]
      exact (hcont.polled (h.polled m hm)).frame hle (hout.moves.frame hne)
        fun c hc => (hcall c hc).1 ▸ hne.symm

/-- A section that starts no election and counts no vote. -/
theorem Sim.keeps (h : Sim M w a) (hactor : x.actor = n)
    (hout : Outcome M a a' n (w.nodes n) x.node (w.disks n) x.writes)
    (hkeep : KeepsPoll (w.nodes n) x.node) (hcall : ∀ c ∈ x.calls, c.caller = n ∧ CallOf M a' c)
    (hvote : ∀ c ∈ x.calls, ∀ args, c.request ≠ .requestVote args)
    (hreply : ∀ k r, (k, r) ∈ x.replies →
      ∃ c, w.calls[k]? = some c ∧ ReplyOf a' c.caller c.callee c.request r) :
    Simulated M w a x := by
  have hle : Le a a' := (hout.moves.inv_le h.good.inv).2
  have hn := hout.after.mem
  refine h.commit hactor hout hcall hreply (fun j k c c' hj _ hsame => ?_)
    (fun c _ c' hc' hsame => ?_) fun hs => ?_
  · obtain ⟨-, -, args, -, hq, -⟩ := hsame
    exact absurd hq (hvote c (List.mem_of_getElem? hj) args)
  · obtain ⟨-, -, -, args', -, hq', -⟩ := hsame
    exact absurd hq' (hvote c' hc' args')
  · -- the campaign is the one from before
    obtain ⟨hs₀, hterm, hvotes⟩ := hkeep hs
    have hcur : a'.cur n = a.cur n := by
      rw [← hout.after.term_eq, hterm, (h.node _ hn).term_eq]
    have hcont := continues_closeCall w.calls x.finished
    obtain ⟨S, hS, hcard, hvoted, hopen⟩ := hcont.polled (h.polled _ hn) hs₀
    rw [hcur, hvotes]
    refine ⟨S, hS, hcard, fun v hv => hle.vote v _ _ (hvoted v hv), fun c hc args hr hq ht hw => ?_⟩
    rcases List.mem_append.mp hc with hc | hc
    · exact hopen c hc args hr hq ht hw
    · exact absurd hq (hvote c hc args)

/-- **The election timer runs out**: the calls of the new election are the only ones of
its term. -/
theorem Sim.electionTimeout (h : Sim M w a) (hn : n ∈ M.ids)
    (hx : act (M.config n) (w.nodes n) .electionTimeout = some x) : Simulated M w a x := by
  rw [act] at hx
  split at hx
  · cases hx
  cases hx
  have hid := M.config_id n hn
  obtain ⟨a', hout, hreq, hcur, hself⟩ := (h.node n hn).startElection
  have hle : Le a a' := (hout.moves.inv_le h.good.inv).2
  have hterm : (startElectionLocked (M.config n) (w.nodes n)).2.2.term = a.cur n + 1 := by
    rw [← (h.node n hn).term_eq]
    rfl
  -- an earlier election of the node was in an earlier term
  have hold : ∀ c ∈ w.calls, ∀ args, c.caller = n → c.request = .requestVote args →
      args.term ≤ a.cur n := by
    intro c hc args hr hq
    have hrequest := (h.call c hc).request
    rw [hq, hr] at hrequest
    obtain ⟨-, B, hB, -⟩ := hrequest
    exact h.good.inv.stand_cur n _ B hB
  refine h.commit hid hout (fun c hc => ?_) (fun k r hr => by simp at hr) ?_ ?_ fun _ => ?_
  · obtain ⟨p, hp, rfl⟩ := List.mem_map.mp hc
    obtain ⟨hpids, hpn⟩ := (M.mem_peers n hn p).mp hp
    rw [hid]
    exact ⟨rfl, hn, hpids, hpn, hreq⟩
  · rintro j k c c' hj hk ⟨-, he, -⟩
    rw [List.getElem?_map] at hj hk
    obtain ⟨p, hp, rfl⟩ := Option.map_eq_some_iff.mp hj
    obtain ⟨p', hp', rfl⟩ := Option.map_eq_some_iff.mp hk
    obtain rfl : p = p' := he
    have hlt := (List.getElem?_eq_some_iff.mp hp).1
    exact (List.getElem?_inj hlt (M.peers_nodup n hn)).mp (hp.trans hp'.symm)
  · rintro c hc c' hc' ⟨hr, -, args, args', hq, hq', ht⟩
    obtain ⟨p, -, rfl⟩ := List.mem_map.mp hc'
    obtain rfl := Request.requestVote.inj hq'
    have := hold c hc args (hr.trans hid) hq
    omega
  · refine ⟨{n}, by simpa using hn, ?_, ?_, ?_⟩
    · rw [hcur, Finset.card_singleton, ← (h.node n hn).term_eq]
      show 1 = Function.update (w.nodes n).votes ((w.nodes n).currentTerm + 1) 1 _
      rw [Function.update_self]
    · intro v hv
      rw [Finset.mem_singleton.mp hv, hcur]
      exact hself
    · intro c hc args hr hq ht hw
      rcases List.mem_append.mp hc with hc | hc
      · have := hold c hc args hr hq
        omega
      · obtain ⟨p, hp, rfl⟩ := List.mem_map.mp hc
        exact fun hmem => ((M.mem_peers n hn p).mp hp).2 (Finset.mem_singleton.mp hmem)

/-- **A node acts by itself.** -/
theorem Sim.act (h : Sim M w a) (hn : n ∈ M.ids) {t : Trigger Blob}
    (hx : act (M.config n) (w.nodes n) t = some x) : Simulated M w a x := by
  have hnode := h.node n hn
  have hid := M.config_id n hn
  have hnil : ∀ {Q : Call Blob → Prop}, ∀ c ∈ ([] : List (Call Blob)), Q c :=
    fun c hc => absurd hc List.not_mem_nil
  have hnoreply : ∀ {Q : ℕ → Reply → Prop}, ∀ k r, (k, r) ∈ ([] : List (ℕ × Reply)) → Q k r :=
    fun k r hr => absurd hr List.not_mem_nil
  -- a request to a peer
  have hsend : ∀ {peer : NodeID} {request : Request Blob}, peer ∈ (M.config n).peers →
      RequestOf a n request →
      ∀ c ∈ [(⟨(M.config n).id, peer, request, true⟩ : Call Blob)],
        c.caller = n ∧ CallOf M a c := by
    intro peer request hpeer hreq c hc
    obtain rfl := List.mem_singleton.mp hc
    obtain ⟨hids, hne⟩ := (M.mem_peers n hn peer).mp hpeer
    rw [hid]
    exact ⟨rfl, hn, hids, hne, hreq⟩
  cases acts_of_act hx with
  | electionTimeout => exact h.electionTimeout hn hx
  | propose command =>
    obtain ⟨a', hout, hkeep⟩ := hnode.propose command
    exact h.keeps hid hout hkeep hnil hnil hnoreply
  | sendAppendEntries hpeer hargs =>
    refine h.keeps hid (Outcome.quiet hnode hnode.impl rfl) (fun hs => ⟨hs, rfl, rfl⟩)
      (hsend hpeer (hnode.sendAppendEntries hargs)) ?_ hnoreply
    simp
  | sendInstallSnapshot hpeer hargs =>
    refine h.keeps hid (Outcome.quiet hnode hnode.impl rfl) (fun hs => ⟨hs, rfl, rfl⟩)
      (hsend hpeer (hnode.sendInstallSnapshot hargs)) ?_ hnoreply
    simp
  | @snapshot index data r hr =>
    obtain ⟨r', hr', hout, hkeep⟩ := hnode.snapshot index data
    obtain rfl : r' = r := Option.some.inj (hr'.symm.trans hr)
    exact h.keeps hid hout hkeep hnil hnil hnoreply
  | applierTake hnd' =>
    obtain ⟨hout, hkeep⟩ := hnode.applierTake hnd'
    exact h.keeps hid hout hkeep hnil hnil hnoreply
  | applierSend hnd' =>
    obtain ⟨hout, hkeep⟩ := hnode.applierSend hnd'
    exact h.keeps hid hout hkeep hnil hnil hnoreply
  | applierAdvance hnd' =>
    obtain ⟨hout, hkeep⟩ := hnode.applierAdvance hnd'
    exact h.keeps hid hout hkeep hnil hnil hnoreply

/-- **A request is handled.** -/
theorem Sim.handle (h : Sim M w a) {k : ℕ} {c : Call Blob} (hc : w.calls[k]? = some c)
    (hx : handle (M.config c.callee) (w.nodes c.callee) k c.request = some x) :
    Simulated M w a x := by
  have hcall := h.call c (List.mem_of_getElem? hc)
  have hnode := h.node _ hcall.callee
  have hid := M.config_id _ hcall.callee
  have hnil : ∀ {Q : Call Blob → Prop}, ∀ c ∈ ([] : List (Call Blob)), Q c :=
    fun c hc => absurd hc List.not_mem_nil
  have hone : ∀ {a' : Ledger NodeID (LogEntry Blob)} {reply : Reply},
      ReplyOf a' c.caller c.callee c.request reply →
      ∀ j r, (j, r) ∈ [(k, reply)] → ∃ c, w.calls[j]? = some c ∧
        ReplyOf a' c.caller c.callee c.request r := by
    intro a' reply hreply j r hr
    obtain ⟨rfl, rfl⟩ := Prod.mk.inj (List.mem_singleton.mp hr)
    exact ⟨c, hc, hreply⟩
  have hrequest := hcall.request
  cases hq : c.request with
  | requestVote args =>
    rw [hq] at hx hrequest hone
    cases hx
    obtain ⟨a', hout, hkeep, hreply⟩ :=
      hnode.handleRequestVote (M.ne_empty _ hcall.caller) hrequest
    exact h.keeps hid hout hkeep hnil hnil (hone hreply)
  | appendEntries args =>
    rw [hq] at hx hrequest hone
    obtain ⟨a', r, hr, hout, hkeep, hreply⟩ := hnode.handleAppendEntries hrequest
    obtain ⟨r', hr', hx⟩ := Option.bind_eq_some_iff.mp hx
    obtain rfl : r = r' := Option.some.inj (hr.symm.trans hr')
    cases hx
    exact h.keeps hid hout hkeep hnil hnil (hone hreply)
  | installSnapshot args =>
    rw [hq] at hx hrequest hone
    obtain ⟨a', r, hr, hout, hkeep, hreply⟩ := hnode.handleInstallSnapshot hrequest
    obtain ⟨r', hr', hx⟩ := Option.bind_eq_some_iff.mp hx
    obtain rfl : r = r' := Option.some.inj (hr.symm.trans hr')
    cases hx
    exact h.keeps hid hout hkeep hnil hnil (hone hreply)

omit [Inhabited Blob] in
/-- A call of the same election that is still open when call `k` is closed goes to
another peer. -/
theorem PollUnique.callee_ne {cs : List (Call Blob)} (h : PollUnique cs) {k : ℕ} {c c' : Call Blob}
    (hc : cs[k]? = some c) (hc' : c' ∈ closeCall cs (some k)) (hw : c'.waiting = true)
    (hr : c'.caller = c.caller) {args args' : RequestVoteArgs} (hq : c.request = .requestVote args)
    (hq' : c'.request = .requestVote args') (ht : args'.term = args.term) :
    c'.callee ≠ c.callee := by
  intro he
  obtain ⟨j, hj⟩ := List.mem_iff_getElem?.mp hc'
  rw [closeCall, List.getElem?_modify] at hj
  obtain ⟨c₀, hc₀, rfl⟩ := Option.map_eq_some_iff.mp hj
  by_cases hkj : k = j
  · simp [hkj, Call.close] at hw
  · simp only [if_neg hkj] at hr hq' he
    exact hkj (h j k c₀ c hc₀ hc ⟨hr, he, args', args, hq', hq, ht⟩).symm

/-- **A vote reply is processed**: if the vote counts, the voter has not been counted
before. -/
theorem Sim.onRequestVoteReply (h : Sim M w a) {k : ℕ} {c : Call Blob}
    (hc : w.calls[k]? = some c) (hw : c.waiting = true) {args : RequestVoteArgs}
    (hq : c.request = .requestVote args) {reply : RequestVoteReply}
    (hreply : ReplyOf a c.caller c.callee (.requestVote args : Request Blob) (.requestVote reply))
    (hx : onReply (M.config c.caller) (w.nodes c.caller) k c.callee (.requestVote args)
      (.requestVote reply) = some x) : Simulated M w a x := by
  have hmem := List.mem_of_getElem? hc
  have hcall := h.call c hmem
  have hnode := h.node _ hcall.caller
  have hterm := hnode.term_eq
  cases hx
  have hcount : (w.nodes c.caller).state = .candidate → (w.nodes c.caller).currentTerm = args.term →
      reply.voteGranted = true → ∃ S ⊆ M.ids.toFinset,
        S.card = (w.nodes c.caller).votes (a.cur c.caller) + 1 ∧
        (∀ v ∈ S, a.vote v (a.cur c.caller) = some c.caller) ∧
        ∀ c' ∈ closeCall w.calls (some k), ∀ args', c'.caller = c.caller →
          c'.request = .requestVote args' → args'.term = a.cur c.caller → c'.waiting = true →
            c'.callee ∉ S := by
    intro hs ht hg
    obtain ⟨S, hS, hcard, hvotes, hopen⟩ := h.polled _ hcall.caller hs
    have hcur : args.term = a.cur c.caller := by omega
    have hnot : c.callee ∉ S := hopen c hmem args rfl hq hcur hw
    refine ⟨insert c.callee S, ?_, ?_, ?_, ?_⟩
    · exact Finset.insert_subset (List.mem_toFinset.mpr hcall.callee) hS
    · rw [Finset.card_insert_of_notMem hnot, hcard]
    · intro v hv
      rcases Finset.mem_insert.mp hv with rfl | hv
      · rw [← hcur]
        exact hreply hg
      · exact hvotes v hv
    · intro c' hc' args' hr hq' ht' hw' hin
      rcases Finset.mem_insert.mp hin with he | hin
      · exact h.unique.callee_ne hc hc' hw' hr hq hq' (ht'.trans hcur.symm) he
      · obtain ⟨c₀, hc₀, h₁, h₂, h₃, h₄⟩ := (continues_closeCall w.calls (some k)).mem hc'
        exact hopen c₀ hc₀ args' (h₁ ▸ hr) (h₃ ▸ hq') ht' (h₄ hw') (h₂ ▸ hin)
  obtain ⟨a', hout⟩ : ∃ a', Outcome M a a' c.caller (w.nodes c.caller)
      (Raft.onRequestVoteReply (M.config c.caller) (w.nodes c.caller) args.term reply).1
      (w.disks c.caller)
      (Raft.onRequestVoteReply (M.config c.caller) (w.nodes c.caller) args.term reply).2 :=
    hnode.onRequestVoteReply fun hs ht hg => by
      obtain ⟨S, hS, hcard, hvotes, -⟩ := hcount hs ht hg
      rw [← ht, hterm]
      exact ⟨S, hS, hcard, hvotes⟩
  have hle : Le a a' := (hout.moves.inv_le h.good.inv).2
  refine h.commit (M.config_id _ hcall.caller) hout (by simp) (by simp) (fun j k c c' hj => by
    simp at hj) (by simp) fun hs => ?_
  obtain ⟨hs₀, hterm', hvotes'⟩ := onRequestVoteReply_poll _ _ _ _ hs
  have hcur : a'.cur c.caller = a.cur c.caller := by rw [← hout.after.term_eq, hterm', hterm]
  rw [hterm] at hvotes'
  rw [hcur]
  show ∃ S ⊆ M.ids.toFinset, S.card = (Raft.onRequestVoteReply _ _ _ _).1.votes _ ∧ _
  rw [hvotes', List.append_nil]
  by_cases hgrant : a.cur c.caller = args.term ∧ reply.voteGranted = true
  · rw [if_pos hgrant]
    obtain ⟨S, hS, hcard, hvotes, hopen⟩ := hcount hs₀ (hterm.trans hgrant.1) hgrant.2
    exact ⟨S, hS, hcard, fun v hv => hle.vote v _ _ (hvotes v hv), hopen⟩
  · rw [if_neg hgrant]
    obtain ⟨S, hS, hcard, hvotes, hopen⟩ :=
      (continues_closeCall w.calls (some k)).polled (h.polled _ hcall.caller) hs₀
    exact ⟨S, hS, hcard, fun v hv => hle.vote v _ _ (hvotes v hv), hopen⟩

/-- **A reply is processed.** -/
theorem Sim.onReply (h : Sim M w a) {k : ℕ} {c : Call Blob} (hc : w.calls[k]? = some c)
    (hw : c.waiting = true) {reply : Reply}
    (hreply : ReplyOf a c.caller c.callee c.request reply)
    (hx : onReply (M.config c.caller) (w.nodes c.caller) k c.callee c.request reply = some x) :
    Simulated M w a x := by
  have hcall := h.call c (List.mem_of_getElem? hc)
  have hnode := h.node _ hcall.caller
  have hid := M.config_id _ hcall.caller
  cases hq : c.request with
  | requestVote args =>
    rw [hq] at hx hreply
    cases reply with
    | requestVote reply => exact h.onRequestVoteReply hc hw hq hreply hx
    | appendEntries reply => cases hx
    | installSnapshot reply => cases hx
  | appendEntries args =>
    rw [hq] at hx hreply
    cases reply with
    | requestVote reply => cases hx
    | appendEntries reply =>
      obtain ⟨r, hr, hx⟩ := Option.bind_eq_some_iff.mp hx
      cases hx
      obtain ⟨a', hout, hkeep⟩ := hnode.onAppendEntriesReply hreply hr
      exact h.keeps hid hout hkeep (by simp) (by simp) (by simp)
    | installSnapshot reply => cases hx
  | installSnapshot args =>
    rw [hq] at hx hreply
    cases reply with
    | requestVote reply => cases hx
    | appendEntries reply => cases hx
    | installSnapshot reply =>
      cases hx
      obtain ⟨a', hout, hkeep⟩ := hnode.onInstallSnapshotReply hreply
      exact h.keeps hid hout hkeep (by simp) (by simp) (by simp)

/-- **Every event moves the ledger.** -/
theorem Sim.effect (h : Sim M w a) {e : Event Blob} (hx : effect M w e = some x) :
    Simulated M w a x := by
  cases e with
  | trigger n t =>
    rw [Raft.effect] at hx
    split at hx
    · rename_i hn
      exact h.act hn hx
    · cases hx
  | deliver k =>
    obtain ⟨c, hc, -, hx⟩ := effect_deliver hx
    exact h.handle hc hx
  | answer j =>
    obtain ⟨k, reply, c, hj, hc, hw, -, hx⟩ := effect_answer hx
    obtain ⟨c', hc', hreply⟩ := h.reply k reply (List.mem_of_getElem? hj)
    obtain rfl : c = c' := Option.some.inj (hc.symm.trans hc')
    exact h.onReply hc hw hreply hx

variable [DecidableEq Blob]

/-- **A node crashes** with files that implement the ledger, and is started again. -/
theorem Sim.restart (h : Sim M w a) (hn : n ∈ M.ids) {ws : List (Write Blob)}
    (hm : Moves M.rules n a b) (hg : Good M b)
    (hp : Persisted b n ((w.disks n).write ws).persistentState) :
    Sim M (w.restart M n ws) b := by
  have hle : Le a b := (hm.inv_le h.good.inv).2
  have hcont := continues_map w.calls n
  refine ⟨hg, fun m hm' => ?_, fun c hc => (hcont.callOf h.call c hc).mono hle, fun k r hr => ?_,
    hcont.unique h.unique, fun m hm' => ?_⟩
  · rcases eq_or_ne m n with rfl | hne
    · simp only [World.restart, Function.update_self]
      exact At.of_persisted hn hg hp
    · simp only [World.restart, Function.update_of_ne hne]
      exact (h.node m hm').frame hg hle (hm.frame hne)
  · obtain ⟨c, hc, hrep⟩ := h.reply k r hr
    obtain ⟨c', hc', h₁, h₂, h₃⟩ := hcont.forward hc
    exact ⟨c', hc', by rw [h₁, h₂, h₃]; exact hrep.mono hle⟩
  · rcases eq_or_ne m n with rfl | hne
    · simp only [World.restart, Function.update_self]
      intro hs
      rw [(newNode_fields _ _).1] at hs
      cases hs
    · simp only [World.restart, Function.update_of_ne hne]
      have hpoll := (hcont.polled (h.polled m hm')).frame hle (hm.frame hne)
        (fun c (hc : c ∈ []) => absurd hc List.not_mem_nil)
      simpa using hpoll

/-- **Every action moves the ledger up**, and decides only where a leader has moved its
`commitIndex`. -/
theorem Sim.step (h : Sim M w a) {x : Action Blob} (hx : step M w x = some w') :
    ∃ a', Le a a' ∧ Sim M w' a' ∧ ∀ t, a.decided t < a'.decided t →
      ∃ n ∈ M.ids, Advances (w.nodes n) (w'.nodes n) t (a.decided t) (a'.decided t) := by
  cases x with
  | run e =>
    obtain ⟨x, he, rfl⟩ := Option.map_eq_some_iff.mp hx
    obtain ⟨a', hout, hsim⟩ := h.effect he
    refine ⟨a', (hout.moves.inv_le h.good.inv).2, hsim, fun t ht => ⟨_, hout.after.mem, ?_⟩⟩
    simp only [World.commit, Function.update_self]
    exact hout.decided t ht
  | crash n =>
    rw [Raft.step] at hx
    split at hx
    · rename_i hn
      cases hx
      exact ⟨a, Le.refl a, h.restart hn (Moves.refl a) h.good (h.node n hn).stored,
        fun t ht => absurd ht (lt_irrefl _)⟩
    · cases hx
  | crashIn e k =>
    obtain ⟨x, he, rfl⟩ := Option.map_eq_some_iff.mp hx
    obtain ⟨a', hout, -⟩ := h.effect he
    obtain ⟨b, hm, hg, hp, hdec⟩ := hout.crash k
    exact ⟨b, (hm.inv_le h.good.inv).2, h.restart hout.after.mem hm hg hp,
      fun t ht => absurd ht (not_lt.mpr (hdec t))⟩

theorem sim_start (M : Membership) : Sim M (start M : World Blob) Consensus.empty := by
  have hg : Good M (Consensus.empty : Ledger NodeID (LogEntry Blob)) :=
    ⟨inv_empty, fun _ i e he => by simp [Consensus.empty] at he,
      fun _ _ _ he => by simp [Consensus.empty] at he⟩
  have hp : ∀ n, Persisted (Consensus.empty : Ledger NodeID (LogEntry Blob)) n
      (emptyDisk : Disk Blob).persistentState := fun n =>
    ⟨rfl, rfl, Nat.zero_le _, rfl, chosen_nil _ _⟩
  refine ⟨hg, fun n hn => At.of_persisted hn hg (hp n), by simp [start], by simp [start],
    fun j k c c' hj => by simp [start] at hj, fun n _ hs => ?_⟩
  rw [start, (newNode_fields _ _).1] at hs
  cases hs

end Steps

end Raft

end DistQueue
