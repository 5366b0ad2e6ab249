import DistQueue.Raft.Labels

/-!
# Where entries come from

Entries travel: from log to log through requests, from a log to the applier and on to the
apply channel, from memory to the files and back. They are made in two places only. A new
leader opens its term with a no-op, and a leader appends the command it is given.

So a property that the no-ops have is one of every entry in the cluster, if the commands
that are proposed have it (`DistQueue.Raft.Stocked.step`). A crash in the middle of a section
makes no difference: what is on file then is the log of before the section, or of after it.

One such property needs no induction, since the ledger has it: every entry stands in the log
of the leader of its term, at its index (`DistQueue.Raft.Sim.stocked`).
-/

namespace DistQueue

namespace Raft

open Consensus

variable {Blob : Type} {E E' : LogEntry Blob → Prop} {cfg : Config} {nd nd' nd'' : Node Blob}
  {l : Log Blob} {es : List (LogEntry Blob)} {ws ws' : List (Write Blob)}

/-! ### Logs -/

/-- All entries of a log have the property. -/
def Log.All (E : LogEntry Blob → Prop) (l : Log Blob) : Prop := ∀ e ∈ l.entries, E e

/-- Entries of the kind may be appended. -/
theorem Log.All.append (h : l.All E) (hes : ∀ e ∈ es, E e) : (l.append es).All E := by
  intro e he
  obtain he | he := List.mem_append.mp he
  · exact h e he
  · exact hes e he

/-- A part of the log is of the kind too. -/
theorem Log.All.truncateFrom {l' : Log Blob} {i : ℕ} (h : l.All E)
    (hl : l.truncateFrom i = some l') : l'.All E := by
  rw [Log.truncateFrom] at hl
  split at hl
  · cases hl
  · cases hl
    exact fun e he => h e (List.mem_of_mem_take he)

/-- What is cut out behind the boundary are entries. -/
theorem Log.All.sliceFrom {i : ℕ} (h : l.All E) (hi : l.firstIndex < i)
    (hes : l.sliceFrom i = some es) : ∀ e ∈ es, E e := by
  rw [Log.sliceFrom] at hes
  split at hes
  · cases hes
  · cases hes
    obtain ⟨k, hk⟩ : ∃ k, i - l.firstIndex = k + 1 := ⟨i - l.firstIndex - 1, by omega⟩
    rw [hk, Log.toList, List.drop_succ_cons]
    exact fun e he => h e (List.mem_of_mem_drop he)

/-- Every entry after the sentinel is of the kind. -/
theorem Log.All.entryAt {i : ℕ} {e : LogEntry Blob} (h : l.All E) (hi : l.firstIndex < i)
    (he : l.entryAt i = some e) : E e := by
  rw [Log.entryAt, if_neg (by omega)] at he
  obtain ⟨k, hk⟩ : ∃ k, i - l.firstIndex = k + 1 := ⟨i - l.firstIndex - 1, by omega⟩
  rw [hk, Log.toList, List.getElem?_cons_succ] at he
  exact h e (List.mem_of_getElem? he)

/-- So are the entries of a batch. -/
theorem Log.All.entriesFrom {i count : ℕ} (h : l.All E) (hi : l.firstIndex < i)
    (hes : entriesFrom l i count = some es) : ∀ e ∈ es, E e := by
  induction count generalizing i es with
  | zero =>
    cases hes
    exact fun e he => (by cases he)
  | succ count ih =>
    obtain ⟨e, he, hes⟩ := Option.bind_eq_some_iff.mp hes
    obtain ⟨es', hes', hes⟩ := Option.bind_eq_some_iff.mp hes
    cases hes
    exact List.forall_mem_cons.mpr ⟨h.entryAt hi he, ih (by omega) hes'⟩

/-- What is taken over from a leader is of the kind, if what it sent is. -/
theorem Log.All.appendMissing {r : Log Blob × Bool} (h : l.All E) (hes : ∀ e ∈ es, E e)
    (hr : appendMissing l es = some r) : r.1.All E := by
  induction es with
  | nil =>
    cases hr
    exact h
  | cons e es ih =>
    unfold Raft.appendMissing at hr
    split at hr
    · obtain ⟨t, -, hr⟩ := Option.bind_eq_some_iff.mp hr
      split at hr
      · exact ih (List.forall_mem_cons.mp hes).2 hr
      · obtain ⟨l', hl', hr⟩ := Option.bind_eq_some_iff.mp hr
        cases hr
        exact (h.truncateFrom hl').append hes
    · cases hr
      exact h.append hes

/-! ### Sections -/

/-- **What a section leaves in the log and writes to the files** has the property. -/
structure Stores (E : LogEntry Blob → Prop) (nd : Node Blob) (ws : List (Write Blob)) : Prop where
  log : nd.log.All E
  saved : ∀ ps, Write.state ps ∈ ws → ps.log.All E

namespace Stores

/-- Nothing is written. -/
theorem unsaved (h : nd.log.All E) : Stores E nd [] := ⟨h, fun ps hps => (by cases hps)⟩

/-- What is written is the log. -/
theorem saved_persistLocked (h : nd.log.All E) :
    ∀ ps, Write.state ps ∈ persistLocked cfg nd → ps.log.All E := by
  intro ps hps
  unfold persistLocked at hps
  split at hps
  · cases hps
  · cases List.mem_singleton.mp hps
    exact h

/-- The node saves its log, and perhaps goes on to something else. -/
theorem persist (h : nd'.log.All E) (hlog : nd''.log = nd'.log) :
    Stores E nd'' (persistLocked cfg nd') :=
  ⟨by rw [hlog]; exact h, saved_persistLocked h⟩

theorem persistWithSnapshot {data : Blob} (h : nd'.log.All E) (hlog : nd''.log = nd'.log) :
    Stores E nd'' (persistWithSnapshotLocked cfg nd' data) := by
  refine ⟨by rw [hlog]; exact h, fun ps hps => ?_⟩
  unfold persistWithSnapshotLocked at hps
  split at hps
  · cases hps
  · obtain hps | hps := List.mem_cons.mp hps
    · cases hps
    · exact saved_persistLocked h ps hps

/-- One section after another. -/
theorem trans (h : Stores E nd ws) (h' : Stores E nd' ws') : Stores E nd' (ws ++ ws') :=
  ⟨h'.log, fun ps hps => (List.mem_append.mp hps).elim (h.saved ps) (h'.saved ps)⟩

/-- The files after any number of the writes. -/
theorem write [Inhabited Blob] {d : Disk Blob} (h : Stores E nd ws)
    (hd : d.persistentState.log.All E) (k : ℕ) :
    (d.write (ws.take k)).persistentState.log.All E := by
  have hws : ∀ ps, Write.state ps ∈ ws.take k → ps.log.All E :=
    fun ps hps => h.saved ps (List.mem_of_mem_take hps)
  generalize ws.take k = ws at hws
  induction ws generalizing d with
  | nil => exact hd
  | cons x ws ih =>
    refine ih ?_ fun ps hps => hws ps (List.mem_cons_of_mem x hps)
    cases x with
    | state ps => exact hws ps List.mem_cons_self
    | snapshot data => exact hd

end Stores

/-- **Stepping down stores what there was.** -/
theorem stores_becomeFollower (h : nd.log.All E) (term : ℕ) :
    Stores E (becomeFollowerLocked nd term) (persistLocked cfg (becomeFollowerLocked nd term)) := by
  refine .persist ?_ rfl
  rw [becomeFollowerLocked_log]
  exact h

theorem stores_startElection (h : nd.log.All E) :
    Stores E (startElectionLocked cfg nd).1 (startElectionLocked cfg nd).2.1 :=
  .persist h rfl

/-- A later term stores what there was. -/
theorem stores_observeTerm (h : nd.log.All E) (term : ℕ) :
    Stores E (observeTerm cfg nd term).1 (observeTerm cfg nd term).2 := by
  unfold observeTerm
  split
  · exact stores_becomeFollower h term
  · exact .unsaved h

/-- A vote stores what there was. -/
theorem stores_castVote (h : nd.log.All E) (args : RequestVoteArgs) :
    Stores E (castVote cfg nd args).1 (castVote cfg nd args).2.1 := by
  unfold castVote
  split
  · exact .unsaved h
  split
  · exact .persist h rfl
  · exact .unsaved h

/-- **`RequestVote` adds no entry.** -/
theorem stores_handleRequestVote (h : nd.log.All E) (args : RequestVoteArgs) :
    Stores E (handleRequestVote cfg nd args).1 (handleRequestVote cfg nd args).2.1 :=
  (stores_observeTerm h args.term).trans (stores_castVote (stores_observeTerm h args.term).log args)

/-- **The command that a leader is given** makes an entry. -/
theorem stores_propose {command : Blob} (h : nd.log.All E)
    (hnew : nd.state = .leader → E ⟨nd.log.lastIndex + 1, nd.currentTerm, command⟩) :
    Stores E (propose cfg nd command).1 (propose cfg nd command).2.1 := by
  unfold propose
  split
  · exact .unsaved h
  · rename_i hs
    exact .persist (h.append (List.forall_mem_singleton.mpr (hnew (not_not.mp hs)))) rfl

/-- **The no-op of a new leader** is the other entry that is made. -/
theorem stores_onRequestVoteReply [Inhabited Blob] (h : nd.log.All E)
    (hnoop : ∀ i t, E ⟨i, t, default⟩) (term : ℕ) (reply : RequestVoteReply) :
    Stores E (onRequestVoteReply cfg nd term reply).1 (onRequestVoteReply cfg nd term reply).2 := by
  rcases onRequestVoteReply_cases cfg nd term reply with
    ⟨-, heq⟩ | ⟨-, heq⟩ | ⟨-, ⟨-, heq⟩ | ⟨-, heq⟩⟩ <;> rw [heq]
  · exact stores_becomeFollower h reply.term
  · exact .unsaved h
  · exact .persist (h.append (List.forall_mem_singleton.mpr (hnoop _ _))) rfl
  · exact .unsaved h

/-- An answer adds no entry. -/
theorem stores_onAppendEntriesReply {peer : NodeID} {args : AppendEntriesArgs Blob}
    {reply : AppendEntriesReply} {r : Node Blob × List (Write Blob)} (h : nd.log.All E)
    (hr : onAppendEntriesReply cfg nd peer args reply = some r) : Stores E r.1 r.2 := by
  obtain ⟨-, rfl⟩ | ⟨-, rfl⟩ | ⟨-, ⟨-, ci, -, rfl⟩ | ⟨-, next, -, rfl⟩⟩ :=
    onAppendEntriesReply_cases hr
  · exact stores_becomeFollower h reply.term
  · exact .unsaved h
  · exact .unsaved h
  · exact .unsaved h

theorem stores_onInstallSnapshotReply (h : nd.log.All E) (peer : NodeID)
    (args : InstallSnapshotArgs Blob) (reply : InstallSnapshotReply) :
    Stores E (onInstallSnapshotReply cfg nd peer args reply).1
      (onInstallSnapshotReply cfg nd peer args reply).2 := by
  rcases onInstallSnapshotReply_cases cfg nd peer args reply with
    ⟨-, heq⟩ | ⟨-, heq⟩ | ⟨-, heq⟩ <;> rw [heq]
  · exact stores_becomeFollower h reply.term
  · exact .unsaved h
  · exact .unsaved h

theorem stores_observeLeader (h : nd.log.All E) (term : ℕ) (leaderID : NodeID) :
    Stores E (observeLeader cfg nd term leaderID).1 (observeLeader cfg nd term leaderID).2 := by
  obtain ⟨-, heq⟩ | ⟨-, -, heq⟩ := observeLeader_cases cfg nd term leaderID <;> rw [heq]
  · have hdown : Stores E _ (persistLocked cfg _) := stores_becomeFollower h term
    exact ⟨hdown.log, hdown.saved⟩
  · exact .unsaved h

/-- Who takes entries has those that were sent. -/
theorem stores_appendShifted {args : AppendEntriesArgs Blob}
    {r : Node Blob × List (Write Blob) × AppendEntriesReply} (h : nd.log.All E)
    (hargs : ∀ e ∈ args.entries, E e) (hr : appendShifted cfg nd args = some r) :
    Stores E r.1 r.2.1 := by
  obtain ⟨reply, -, -, rfl⟩ | ⟨log, changed, ci, -, hlog, -, rfl⟩ := appendShifted_cases hr
  · exact .unsaved h
  · have hall : log.All E := h.appendMissing hargs hlog
    refine ⟨hall, ?_⟩
    dsimp only
    split
    · exact Stores.saved_persistLocked hall
    · exact fun ps hps => (by cases hps)

/-- **`AppendEntries` adds the entries that were sent.** -/
theorem stores_handleAppendEntries {args : AppendEntriesArgs Blob}
    {r : Node Blob × List (Write Blob) × AppendEntriesReply} (h : nd.log.All E)
    (hargs : ∀ e ∈ args.entries, E e) (hr : handleAppendEntries cfg nd args = some r) :
    Stores E r.1 r.2.1 := by
  have hobs : Stores E (observeLeader cfg nd args.term args.leaderID).1 _ :=
    stores_observeLeader h args.term args.leaderID
  obtain ⟨-, rfl⟩ | ⟨reply, -, rfl⟩ | ⟨args', r', hargs', hr', rfl⟩ := handleAppendEntries_cases hr
  · exact .unsaved h
  · exact hobs
  · refine hobs.trans (stores_appendShifted hobs.log ?_ hr')
    -- the window that is left is a part of the batch
    obtain rfl | ⟨cut, -, -, rfl⟩ := shiftWindow_cases hargs'
    · exact hargs
    · exact fun e he => hargs e (List.mem_of_mem_drop he)

section Snapshots

variable [Inhabited Blob]

/-- Compaction adds no entry. -/
theorem stores_snapshot {index : ℕ} {data : Blob} {r : Node Blob × List (Write Blob)}
    (h : nd.log.All E) (hr : snapshot cfg nd index data = some r) : Stores E r.1 r.2 := by
  obtain ⟨-, rfl⟩ | ⟨⟨hlt, -⟩, t, tail, -, htail, rfl⟩ := snapshot_cases hr
  · exact .unsaved h
  · exact .persistWithSnapshot (h.sliceFrom (by omega) htail) rfl

omit [Inhabited Blob] in
/-- The tail behind a snapshot is a part of the log. -/
theorem Log.All.keptTail {index term : ℕ} (h : l.All E) (hes : keptTail l index term = some es) :
    ∀ e ∈ es, E e := by
  unfold Raft.keptTail at hes
  split at hes
  · obtain ⟨t, ht, hes⟩ := Option.bind_eq_some_iff.mp hes
    have hfirst : l.firstIndex ≤ index := by
      by_contra hlt
      rw [Log.termAt, Log.entryAt, if_pos (by omega)] at ht
      cases ht
    split at hes
    · exact h.sliceFrom (by omega) hes
    · cases hes
      exact fun e he => (by cases he)
  · cases hes
    exact fun e he => (by cases he)

/-- **`InstallSnapshot` adds no entry.** -/
theorem stores_handleInstallSnapshot {args : InstallSnapshotArgs Blob}
    {r : Node Blob × List (Write Blob) × InstallSnapshotReply} (h : nd.log.All E)
    (hr : handleInstallSnapshot cfg nd args = some r) : Stores E r.1 r.2.1 := by
  have hobs : Stores E (observeLeader cfg nd args.term args.leaderID).1 _ :=
    stores_observeLeader h args.term args.leaderID
  obtain ⟨-, rfl⟩ | ⟨reply, rfl⟩ | ⟨r', reply, -, hr', rfl⟩ := handleInstallSnapshot_cases hr
  · exact .unsaved h
  · exact hobs
  · obtain ⟨tail, htail, hr'⟩ := Option.bind_eq_some_iff.mp hr'
    cases hr'
    exact hobs.trans (.persistWithSnapshot (hobs.log.keptTail htail) rfl)

end Snapshots

/-! ### Nodes -/

/-- **All entries of a node** have the property: those of its log, those that the applier
holds and those on the apply channel. -/
structure Stock (E : LogEntry Blob → Prop) (nd : Node Blob) : Prop where
  log : nd.log.All E
  taken : ∀ e ∈ nd.applier.entries, E e
  sent : ∀ command index term, .command command index term ∈ nd.applyCh → E ⟨index, term, command⟩

/-- The applier takes its batch from the log. -/
theorem Stock.applierTake (h : Stock E nd) (hs : applierTake nd = some nd') : Stock E nd' := by
  obtain ⟨-, ⟨snap, -, rfl⟩ | ⟨-, batch, hbatch, rfl⟩⟩ := applierTake_cases hs
  · exact ⟨h.log, fun e he => (by cases he), h.sent⟩
  · exact ⟨h.log, h.log.entriesFrom (by omega) hbatch, h.sent⟩

/-- The applier sends an entry of its batch. -/
theorem Stock.applierSend (h : Stock E nd) (hs : applierSend nd = some nd') : Stock E nd' := by
  have htaken := h.taken
  unfold Raft.applierSend at hs
  split at hs
  · cases hs
    refine ⟨h.log, fun e he => (by cases he), fun command index term hm => ?_⟩
    obtain hm | hm := List.mem_append.mp hm
    · exact h.sent command index term hm
    · cases List.mem_singleton.mp hm
  · cases hs
    exact ⟨h.log, fun e he => (by cases he), h.sent⟩
  · rename_i e es happ
    cases hs
    rw [happ] at htaken
    refine ⟨h.log, htaken, fun command index term hm => ?_⟩
    obtain hm | hm := List.mem_append.mp hm
    · exact h.sent command index term hm
    · cases List.mem_singleton.mp hm
      exact htaken e List.mem_cons_self
  · cases hs

/-- The applier drops its batch. -/
theorem Stock.applierAdvance (h : Stock E nd) (hs : applierAdvance nd = some nd') :
    Stock E nd' := by
  have htaken := h.taken
  unfold Raft.applierAdvance at hs
  split at hs
  · rename_i e es happ
    cases hs
    rw [happ] at htaken
    exact ⟨h.log, fun e' he' => htaken e' (List.mem_cons_of_mem _ he'), h.sent⟩
  · cases hs

/-! ### The cluster -/

section Cluster

variable [Inhabited Blob] {M : Membership} {w w' : World Blob}
  {a : Ledger NodeID (LogEntry Blob)} {n : NodeID} {x : Effect Blob}

/-- **All entries of the cluster** have the property. The files hold what the nodes do. -/
structure Stocked (M : Membership) (E : LogEntry Blob → Prop) (w : World Blob) : Prop where
  node : ∀ n ∈ M.ids, Stock E (w.nodes n)
  call : ∀ c ∈ w.calls, ∀ args, c.request = .appendEntries args → ∀ e ∈ args.entries, E e

/-- What is to be shown of a section. -/
structure Draws (E : LogEntry Blob → Prop) (x : Effect Blob) : Prop where
  stores : Stores E x.node x.writes
  taken : ∀ e ∈ x.node.applier.entries, E e
  sent : ∀ command index term,
    .command command index term ∈ x.node.applyCh → E ⟨index, term, command⟩
  call : ∀ c ∈ x.calls, ∀ args, c.request = .appendEntries args → ∀ e ∈ args.entries, E e

omit [Inhabited Blob] in
/-- A section that stores, sends no entries and leaves the applier alone draws on the stock. -/
theorem Stores.draws (hx : Stores E x.node x.writes) (h : Stock E nd)
    (ha : x.node.applier = nd.applier) (hch : x.node.applyCh = nd.applyCh)
    (hcall : ∀ c ∈ x.calls, ∀ args, c.request ≠ .appendEntries args) : Draws E x :=
  ⟨hx, ha ▸ h.taken, hch ▸ h.sent, fun c hc args hargs => absurd hargs (hcall c hc args)⟩

/-- The entry that an event makes of a command. -/
def Event.makes (w : World Blob) : Event Blob → Option (LogEntry Blob)
  | .trigger n (.propose command) =>
    if (w.nodes n).state = .leader then
      some ⟨(w.nodes n).log.lastIndex + 1, (w.nodes n).currentTerm, command⟩
    else none
  | _ => none

/-- The entry that the action puts into a log. -/
def Action.makes (w : World Blob) : Action Blob → Option (LogEntry Blob)
  | .run e | .crashIn e _ => e.makes w
  | .crash _ => none

/-- What a node does by itself. -/
theorem Stock.act (h : Stock E (w.nodes n)) {t : Trigger Blob}
    (hnew : ∀ e ∈ (Event.trigger n t).makes w, E e) (hx : act cfg (w.nodes n) t = some x) :
    Draws E x := by
  cases acts_of_act hx with
  | electionTimeout hs =>
    refine (stores_startElection h.log).draws h rfl rfl fun c hc args => ?_
    obtain ⟨p, -, rfl⟩ := List.mem_map.mp hc
    simp
  | propose command =>
    have hsame : SameDelivery (w.nodes n) (propose cfg (w.nodes n) command).1 :=
      (quiet_propose _ command).same
    refine (stores_propose h.log fun hs => hnew _ ?_).draws h hsame.applier hsame.applyCh (by simp)
    simp [Event.makes, hs]
  | sendAppendEntries hpeer hargs =>
    refine ⟨.unsaved h.log, h.taken, h.sent, fun c hc args' hargs' => ?_⟩
    obtain rfl := List.mem_singleton.mp hc
    obtain rfl := Request.appendEntries.inj hargs'
    -- the batch is the tail of the leader's log
    obtain ⟨-, i, t, es, -, hlo, -, hes, rfl⟩ := sendAppendEntries_eq hargs
    exact h.log.sliceFrom (by omega) hes
  | sendInstallSnapshot hpeer hargs => exact ⟨.unsaved h.log, h.taken, h.sent, by simp⟩
  | @snapshot index data r hr =>
    have hdelivery : r.1.applier = (w.nodes n).applier ∧ r.1.applyCh = (w.nodes n).applyCh := by
      obtain ⟨-, rfl⟩ | ⟨-, t, tail, -, -, rfl⟩ := snapshot_cases hr
      · exact ⟨rfl, rfl⟩
      · exact ⟨rfl, rfl⟩
    exact (stores_snapshot h.log hr).draws h hdelivery.1 hdelivery.2 (by simp)
  | applierTake hnd' =>
    have hstock := h.applierTake hnd'
    exact ⟨.unsaved hstock.log, hstock.taken, hstock.sent, by simp⟩
  | applierSend hnd' =>
    have hstock := h.applierSend hnd'
    exact ⟨.unsaved hstock.log, hstock.taken, hstock.sent, by simp⟩
  | applierAdvance hnd' =>
    have hstock := h.applierAdvance hnd'
    exact ⟨.unsaved hstock.log, hstock.taken, hstock.sent, by simp⟩

/-- A snapshot from the leader waits for the applier. -/
theorem handleInstallSnapshot_delivery {args : InstallSnapshotArgs Blob}
    {r : Node Blob × List (Write Blob) × InstallSnapshotReply}
    (hr : handleInstallSnapshot cfg nd args = some r) :
    r.1.applier = nd.applier ∧ r.1.applyCh = nd.applyCh := by
  have hobs : SameDelivery nd (observeLeader cfg nd args.term args.leaderID).1 :=
    (quiet_observeLeader nd args.term args.leaderID).same
  obtain ⟨-, rfl⟩ | ⟨reply, rfl⟩ | ⟨r', reply, -, hr', rfl⟩ := handleInstallSnapshot_cases hr
  · exact ⟨rfl, rfl⟩
  · exact ⟨hobs.applier, hobs.applyCh⟩
  · obtain ⟨tail, -, hr'⟩ := Option.bind_eq_some_iff.mp hr'
    cases hr'
    exact ⟨hobs.applier, hobs.applyCh⟩

/-- **The handling of a call draws on the stock**, and on the entries of the call. -/
theorem Stock.handle (h : Stock E nd) {k : ℕ} {request : Request Blob}
    (hreq : ∀ args, request = .appendEntries args → ∀ e ∈ args.entries, E e)
    (hx : handle cfg nd k request = some x) : Draws E x := by
  cases request with
  | requestVote args =>
    cases hx
    have hsame : SameDelivery nd (handleRequestVote cfg nd args).1 :=
      (quiet_handleRequestVote nd args).same
    exact (stores_handleRequestVote h.log args).draws h hsame.applier hsame.applyCh (by simp)
  | appendEntries args =>
    obtain ⟨r, hr, hx⟩ := Option.bind_eq_some_iff.mp hx
    cases hx
    have hsame := (quiet_handleAppendEntries hr).same
    exact (stores_handleAppendEntries h.log (hreq args rfl) hr).draws h hsame.applier
      hsame.applyCh (by simp)
  | installSnapshot args =>
    obtain ⟨r, hr, hx⟩ := Option.bind_eq_some_iff.mp hx
    cases hx
    have hdelivery := handleInstallSnapshot_delivery hr
    exact (stores_handleInstallSnapshot h.log hr).draws h hdelivery.1 hdelivery.2 (by simp)

/-- **The handling of an answer draws on the stock**, and on the no-op of a new leader. -/
theorem Stock.onReply (h : Stock E nd) (hnoop : ∀ i t, E ⟨i, t, default⟩) {k : ℕ} {peer : NodeID}
    {request : Request Blob} {reply : Reply}
    (hx : onReply cfg nd k peer request reply = some x) : Draws E x := by
  unfold Raft.onReply at hx
  split at hx
  · rename_i args reply
    cases hx
    have hsame : SameDelivery nd (onRequestVoteReply cfg nd args.term reply).1 :=
      (quiet_onRequestVoteReply nd args.term reply).same
    exact (stores_onRequestVoteReply h.log hnoop _ _).draws h hsame.applier hsame.applyCh (by simp)
  · obtain ⟨r, hr, hx⟩ := Option.bind_eq_some_iff.mp hx
    cases hx
    have hsame := (quiet_onAppendEntriesReply hr).same
    exact (stores_onAppendEntriesReply h.log hr).draws h hsame.applier hsame.applyCh (by simp)
  · rename_i args reply
    cases hx
    have hsame : SameDelivery nd (onInstallSnapshotReply cfg nd peer args reply).1 :=
      (quiet_onInstallSnapshotReply nd peer args reply).same
    exact (stores_onInstallSnapshotReply h.log peer _ _).draws h hsame.applier hsame.applyCh
      (by simp)
  · cases hx

/-- **Every section** takes its entries from those that are there, but for the two that are
made. -/
theorem Stocked.effect (h : Stocked M E w) (hsim : Sim M w a) (hnoop : ∀ i t, E ⟨i, t, default⟩)
    {e : Event Blob} (hnew : ∀ e' ∈ e.makes w, E e') (hx : effect M w e = some x) :
    x.actor ∈ M.ids ∧ Draws E x := by
  refine effect_rule (P := fun _ x => Draws E x) ?_ ?_ ?_ hx
  · rintro n hn t x rfl hx
    exact (h.node n hn).act hnew hx
  · intro k c x hc hx
    have hc := List.mem_of_getElem? hc
    exact (h.node _ (hsim.call c hc).callee).handle (h.call c hc) hx
  · intro k c reply x hc _ hx
    exact (h.node _ (hsim.call c (List.mem_of_getElem? hc)).caller).onReply hnoop hx

omit [Inhabited Blob] in
/-- Calls that go on carry what they did. -/
theorem Stocked.continues (h : Stocked M E w) {cs : List (Call Blob)}
    (hcs : Continues w.calls cs) :
    ∀ c ∈ cs, ∀ args, c.request = .appendEntries args → ∀ e ∈ args.entries, E e := by
  intro c hc args hargs
  obtain ⟨c', hc', -, -, hreq, -⟩ := hcs.mem hc
  exact h.call c' hc' args (hreq ▸ hargs)

variable [DecidableEq Blob]

/-- A node is started on files with the property. -/
theorem Stocked.restart (h : Stocked M E w) (hn : n ∈ M.ids)
    (hd : ((w.disks n).write ws).persistentState.log.All E) : Stocked M E (w.restart M n ws) := by
  refine ⟨fun m hm => ?_, h.continues (continues_map w.calls n)⟩
  rcases eq_or_ne m n with rfl | hmn
  · simp only [World.restart, Function.update_self]
    obtain ⟨-, happ, hch, -⟩ := newNode_fields (M.config m) ((w.disks m).write ws)
    have hps := newNode_persistentState (M.persistent m hn) ((w.disks m).write ws)
    refine ⟨?_, fun e he => ?_, fun command index term hm => ?_⟩
    · have hlog : (newNode (M.config m) ((w.disks m).write ws)).log =
          ((w.disks m).write ws).persistentState.log := congrArg PersistentState.log hps
      rw [hlog]
      exact hd
    · rw [happ] at he
      cases he
    · rw [hch] at hm
      cases hm
  · simp only [World.restart, Function.update_of_ne hmn]
    exact h.node m hm

/-- **Every action** keeps the property of all entries, if the one it may make has it. -/
theorem Stocked.step (h : Stocked M E w) (hsim : Sim M w a) (hnoop : ∀ i t, E ⟨i, t, default⟩)
    {x : Action Blob} (hnew : ∀ e ∈ x.makes w, E e) (hx : step M w x = some w') :
    Stocked M E w' := by
  have hdisk : ∀ n ∈ M.ids, (w.disks n).persistentState.log.All E := fun n hn => by
    rw [(hsim.node n hn).synced]
    exact (h.node n hn).log
  cases x with
  | run e =>
    obtain ⟨y, hy, rfl⟩ := Option.map_eq_some_iff.mp hx
    obtain ⟨hn, hdraws⟩ := h.effect hsim hnoop hnew hy
    refine ⟨fun m hm => ?_, fun c hc => ?_⟩
    · rcases eq_or_ne m y.actor with rfl | hne
      · simp only [World.commit, Function.update_self]
        exact ⟨hdraws.stores.log, hdraws.taken, hdraws.sent⟩
      · simp only [World.commit, Function.update_of_ne hne]
        exact h.node m hm
    · obtain hc | hc := List.mem_append.mp hc
      · exact h.continues (continues_closeCall w.calls y.finished) c hc
      · exact hdraws.call c hc
  | crash n =>
    simp only [Raft.step, Option.ite_none_right_eq_some, Option.some.injEq] at hx
    obtain ⟨hn, rfl⟩ := hx
    exact h.restart hn (hdisk n hn)
  | crashIn e k =>
    obtain ⟨y, hy, rfl⟩ := Option.map_eq_some_iff.mp hx
    obtain ⟨hn, hdraws⟩ := h.effect hsim hnoop hnew hy
    exact h.restart hn (hdraws.stores.write (hdisk _ hn) k)

theorem stocked_start (M : Membership) (E : LogEntry Blob → Prop) :
    Stocked M E (start M : World Blob) := by
  refine ⟨fun n hn => ?_, fun c hc => (by cases hc)⟩
  obtain ⟨-, happ, hch, -⟩ := newNode_fields (M.config n) (emptyDisk : Disk Blob)
  have hps := newNode_persistentState (M.persistent n hn) (emptyDisk : Disk Blob)
  have hlog : ((start M : World Blob).nodes n).log = emptyLog := congrArg PersistentState.log hps
  refine ⟨?_, fun e he => ?_, fun command index term hm => ?_⟩
  · rw [hlog]
    exact fun e he => (by cases he)
  · rw [start, happ] at he
    cases he
  · rw [start, hch] at hm
    cases hm

omit [DecidableEq Blob] [Inhabited Blob] in
/-- What holds of all entries, by two properties they have. -/
theorem Stocked.and {E'' : LogEntry Blob → Prop} (h : Stocked M E w) (h' : Stocked M E' w)
    (hE : ∀ e, E e → E' e → E'' e) : Stocked M E'' w where
  node n hn :=
    ⟨fun e he => hE e ((h.node n hn).log e he) ((h'.node n hn).log e he),
      fun e he => hE e ((h.node n hn).taken e he) ((h'.node n hn).taken e he),
      fun command index term hm => hE _ ((h.node n hn).sent command index term hm)
        ((h'.node n hn).sent command index term hm)⟩
  call c hc args hargs e he := hE e (h.call c hc args hargs e he) (h'.call c hc args hargs e he)

end Cluster

/-! ### The ledger -/

section Ledger

variable [Inhabited Blob] {M : Membership} {w : World Blob} {a : Ledger NodeID (LogEntry Blob)}

/-- **The entry stands in the log of the leader of its term**, at its index. -/
def Led (a : Ledger NodeID (LogEntry Blob)) (e : LogEntry Blob) : Prop :=
  0 < e.index ∧ ∃ c L, a.lead e.term = some (c, L) ∧ L[e.index - 1]? = some e

omit [Inhabited Blob] in
/-- The entries of a sound log. -/
theorem led_of_sound {F : List (LogEntry Blob)} {e : LogEntry Blob}
    (hF : Consensus.Sound M.rules a F) (hnum : Numbered F) (he : e ∈ F) : Led a e := by
  obtain ⟨i, hi⟩ := List.mem_iff_getElem?.mp he
  have hindex := hnum i e hi
  obtain ⟨c, L, hL, hp⟩ := hF i e hi
  refine ⟨by omega, c, L, hL, ?_⟩
  rw [hindex, Nat.add_sub_cancel]
  refine prefix_getElem?_some hp ?_
  rw [List.getElem?_take_of_lt (Nat.lt_succ_self i)]
  exact hi

omit [Inhabited Blob] in
/-- A decided entry was in the log of the leader of its term. -/
theorem Decided.led (hgood : Good M a) {e : LogEntry Blob} (h : Decided a e) : Led a e := by
  obtain ⟨-, t, P, hP, hk⟩ := h
  obtain rfl | ⟨t', c, L, -, hL, hp⟩ := hP
  · simp at hk
  · exact led_of_sound (hgood.inv.lead_sound hL) (hgood.lead_numbered t' c L hL)
      ((hp.trans (List.take_prefix _ _)).subset (List.mem_of_getElem? hk))

/-- **Every entry of the cluster** stands in the log of the leader of its term. -/
theorem Sim.stocked (hsim : Sim M w a) : Stocked M (Led a) w where
  node n hn := by
    have hat := hsim.node n hn
    refine ⟨fun e he => ?_, fun e he => (hat.impl.taken e he).1.led hsim.good,
      fun command index term hm => (hat.impl.sent command index term hm).led hsim.good⟩
    rw [hat.log_eq, compact_entries] at he
    exact led_of_sound (hsim.good.inv.log_sound n) hat.numbered (List.mem_of_mem_drop he)
  call c hc args hargs e he := by
    have hreq := (hsim.call c hc).request
    rw [hargs] at hreq
    obtain ⟨L, G, hL, hG, -, -, hes, -⟩ := hreq
    rw [hes] at he
    exact led_of_sound (hsim.good.inv.lead_sound hL) (hsim.good.lead_numbered _ _ L hL)
      (hG.subset (List.mem_of_mem_drop he))

end Ledger

end Raft

end DistQueue
