import DistQueue.SingleNode.Durability
import DistQueue.SingleNode.Replay

/-!
# One call after the other

Clients that take turns (`DistQueue.SingleNode.Broker.InTurn`) can follow what becomes of
each task. An `Enqueue` has its task in memory until the task is delivered and the delivery
is acked (`DistQueue.SingleNode.Fate`), and a crash between two calls loses none of it: every
record has been synced (`DistQueue.SingleNode.Flushed`), so that recovery reads the whole log
and makes as many tasks of it as there were
(`DistQueue.SingleNode.sequential_calls_accounted`).

This is so as long as no client repeats the identifier of a task that is still there. The
heap would hold both tasks; the tracker, like the log, has room for one
(`DistQueue.SingleNode.repeated_id_lost`).
-/

namespace DistQueue

open Broker Wal

namespace SingleNode

variable {γ : Codec} {b b' : Broker} {h h' : History} {m : Move} {e : LogEntry}
  {es qs : List LogEntry} {rs : List Request} {t u : Task} {id : TaskID} {bs evs : List Event}

/-- **A call begins when no other is under way**, and the scanner is not at work. -/
def Broker.InTurn (b : Broker) : Move → Prop
  | .enqueue _ _ _ _ | .dequeue _ | .ack _ _ | .nack _ _ => b.calls = []
  | .compact _ | .rewrite | .lead | .capture | .fsync _ | .returns _ => True
  | .applyTuning _ _ | .expired _ _ | .onTimeout _ | .resume | .crash _ _ _ => False

instance (b : Broker) (m : Move) : Decidable (b.InTurn m) :=
  match m with
  | .enqueue _ _ _ _ | .dequeue _ | .ack _ _ | .nack _ _ => inferInstanceAs (Decidable (_ = _))
  | .compact _ | .rewrite | .lead | .capture | .fsync _ | .returns _ => instDecidableTrue
  | .applyTuning _ _ | .expired _ _ | .onTimeout _ | .resume | .crash _ _ _ => instDecidableFalse

/-- **The sequential runs in which tasks are told apart by their identifiers.** -/
def Sequential (γ : Codec) (h : History) (m : Move) : Prop := Regular γ h m ∧ h.broker.InTurn m

instance (γ : Codec) (h : History) (m : Move) : Decidable (Sequential γ h m) :=
  inferInstanceAs (Decidable (Regular γ h m ∧ h.broker.InTurn m))

/-- An entry is appended for a call, and no other call is under way. -/
theorem Broker.InTurn.source (hturn : b.InTurn m) (hsource : Source b m e rs) :
    rs ≠ [] ∧ b.calls = [] := by
  cases hsource with
  | enqueue t newID now fault hm | ack t fault ht hm =>
    subst hm
    exact ⟨List.cons_ne_nil _ _, hturn⟩
  | nack t rs hreq | dead t rs hreq =>
    cases hreq with
    | nack t fault ht => exact ⟨List.cons_ne_nil _ _, hturn⟩
    | onTimeout t fault ht => exact hturn.elim

/-! ### What becomes of a call -/

/-- No call among these has brought the identifier. -/
def Latest (id : TaskID) (bs : List Event) : Prop := ∀ u, .issued (.enqueue u) ∈ bs → u.id ≠ id

/-- The task has been delivered. -/
def HandedOut (t : Task) (bs : List Event) : Prop := ∃ u, .delivered u ∈ bs ∧ u.core = t.core

/-- An `Ack` has been issued after a delivery of the task. -/
def Asked (t : Task) (bs : List Event) : Prop :=
  ∃ ws ys, bs = ws ++ .issued (.ack t.id) :: ys ∧ HandedOut t ws ∧ Latest t.id bs

/-- **The task has been removed by an `Ack` of its own delivery**, which has returned. -/
def AckedOwn (t : Task) (bs : List Event) : Prop :=
  ∃ xs zs, bs = xs ++ .returned (.ack t.id) :: zs ∧ Asked t xs

theorem Latest.append (hl : Latest id bs) (hevs : Latest id evs) : Latest id (bs ++ evs) :=
  fun u hu => (List.mem_append.mp hu).elim (hl u) (hevs u)

theorem HandedOut.append (hb : HandedOut t bs) (evs : List Event) : HandedOut t (bs ++ evs) := by
  obtain ⟨u, hu, hcore⟩ := hb
  exact ⟨u, List.mem_append_left _ hu, hcore⟩

theorem Asked.append (ha : Asked t bs) (hevs : Latest t.id evs) : Asked t (bs ++ evs) := by
  obtain ⟨ws, ys, rfl, hws, hl⟩ := ha
  exact ⟨ws, ys ++ evs, by simp, hws, hl.append hevs⟩

theorem AckedOwn.append (ha : AckedOwn t bs) (evs : List Event) : AckedOwn t (bs ++ evs) := by
  obtain ⟨xs, zs, rfl, hxs⟩ := ha
  exact ⟨xs, zs ++ evs, by simp, hxs⟩

theorem split_append {α : Type} {xs ys as bs : List α} {x : α} (h : xs ++ ys = as ++ x :: bs) :
    (∃ bs₀, xs = as ++ x :: bs₀ ∧ bs = bs₀ ++ ys) ∨ ∃ zs, ys = zs ++ x :: bs := by
  obtain ⟨zs, -, hys⟩ | ⟨zs, hxs, hzs⟩ := List.append_eq_append_iff.mp h
  · exact Or.inr ⟨zs, hys⟩
  · cases zs with
    | nil => exact Or.inr ⟨[], hzs.symm⟩
    | cons z zs =>
      obtain ⟨rfl, rfl⟩ := List.cons.inj hzs
      exact Or.inl ⟨zs, hxs, rfl⟩

/-- An identifier has one latest call. -/
theorem eq_of_latest {as as' bs' : List Event} {t' : Task}
    (h : as ++ .issued (.enqueue t) :: bs = as' ++ .issued (.enqueue t') :: bs')
    (hl : Latest t.id bs) (hl' : Latest t'.id bs') (hid : t.id = t'.id) : t = t' ∧ bs = bs' := by
  -- of two calls, the earlier one would not be the latest
  have hafter : ∀ {xs ys zs : List Event} {u v : Task},
      xs ++ .issued (.enqueue u) :: ys = zs → Latest v.id zs → u.id ≠ v.id := by
    rintro xs ys zs u v rfl hl
    exact hl u (List.mem_append_right _ List.mem_cons_self)
  obtain ⟨zs, -, hzs⟩ | ⟨zs, -, hzs⟩ := List.append_eq_append_iff.mp h
  · cases zs with
    | nil =>
      obtain ⟨hev, hbs⟩ := List.cons.inj hzs
      cases hev
      exact ⟨rfl, hbs⟩
    | cons z zs => exact absurd hid.symm (hafter (List.cons.inj hzs).2.symm hl)
  · cases zs with
    | nil =>
      obtain ⟨hev, hbs⟩ := List.cons.inj hzs
      cases hev
      exact ⟨rfl, hbs.symm⟩
    | cons z zs => exact absurd hid (hafter (List.cons.inj hzs).2.symm hl')

/-- **What has become of an `Enqueue`**, given what has happened since: the task is there, or
an `Ack` of its delivery is under way, or has returned. -/
inductive Fate (h : History) (t : Task) (bs : List Event) : Prop
  | there (u : Task) (hu : u ∈ h.broker.live ++ h.broker.dlq) (hcore : u.core = t.core)
      (hlatest : Latest t.id bs)
  | asked (c : Call) (hc : c ∈ h.broker.owed) (hreq : c.request = .ack t.id) (hasked : Asked t bs)
  | acked (hacked : AckedOwn t bs)

/-- The task is that of a call, the latest with its identifier; `bs` has happened since. -/
def FromCall (h : History) (u : Task) (bs : List Event) : Prop :=
  ∃ as t, h.trace = as ++ .issued (.enqueue t) :: bs ∧ t.core = u.core ∧ Latest t.id bs

/-- **Every call has its fate, and every task its call**; those in flight have been
delivered. -/
structure Accounted (h : History) : Prop where
  calls : ∀ as t bs, h.trace = as ++ .issued (.enqueue t) :: bs → Fate h t bs
  memory : ∀ u ∈ h.broker.live ++ h.broker.dlq, ∃ bs, FromCall h u bs
  tracker : ∀ u ∈ h.broker.tracker.vals, ∃ bs, FromCall h u bs ∧ HandedOut u bs

/-- A call that an entry comes from is still its source later on, if the identifier is not used
again. -/
theorem FromCall.append (hf : FromCall h u bs) (htrace : h'.trace = h.trace ++ evs)
    (hevs : Latest u.id evs) : FromCall h' u (bs ++ evs) := by
  obtain ⟨as, t, hsplit, hcore, hl⟩ := hf
  refine ⟨as, t, by simp [htrace, hsplit], hcore, hl.append ?_⟩
  rwa [Task.id_of_core hcore]

theorem FromCall.congr (hf : FromCall h u bs) {v : Task} (hcore : u.core = v.core) :
    FromCall h v bs := by
  obtain ⟨as, t, hsplit, ht, hl⟩ := hf
  exact ⟨as, t, hsplit, ht.trans hcore, hl⟩

theorem HandedOut.congr (hb : HandedOut t bs) (hcore : t.core = u.core) : HandedOut u bs := by
  obtain ⟨v, hv, hvt⟩ := hb
  exact ⟨v, hv, hvt.trans hcore⟩

/-! ### The tracker and the scanner -/

namespace Broker

/-- A section that adds nothing to the tracker and leaves the scanner alone. -/
structure Tracks (b b' : Broker) (evs : List Event) : Prop where
  mem : ∀ u ∈ b'.tracker.vals, u ∈ b.tracker.vals ∨ .delivered u ∈ evs
  pending : b'.scanner.pending = b.scanner.pending

theorem tracks_maybeCompactLocked {b₁ : Broker} (c : Caller) (evs : List Event)
    (hmem : ∀ u ∈ b₁.tracker.vals, u ∈ b.tracker.vals) (hscan : b₁.scanner = b.scanner) :
    Tracks b (b₁.maybeCompactLocked c) evs := by
  have hsame := sameTasks_maybeCompactLocked b₁ c
  refine ⟨fun u hu => Or.inl (hmem u (hsame.tracker ▸ hu)), ?_⟩
  rw [hsame.pending, hscan]

/-- `Ack` hands out nothing. -/
theorem tracks_ack (γ : Codec) (b : Broker) (id : TaskID) (evs : List Event) :
    Tracks b (b.ack γ id none) evs := by
  unfold ack
  split
  · exact ⟨fun u hu => Or.inl hu, rfl⟩
  · exact tracks_maybeCompactLocked _ evs (fun u hu => Table.mem_of_mem_erase hu) rfl

/-- `Nack` hands out nothing. -/
theorem tracks_nack (γ : Codec) (b : Broker) (id : TaskID) (evs : List Event) :
    Tracks b (b.nack γ id none) evs := by
  unfold nack
  split
  · exact ⟨fun u hu => Or.inl hu, rfl⟩
  · unfold requeueLocked
    dsimp only
    split
    · exact tracks_maybeCompactLocked _ evs (fun u hu => Table.mem_of_mem_erase hu) rfl
    · exact tracks_maybeCompactLocked _ evs (fun u hu => Table.mem_of_mem_erase hu) rfl

/-- `Dequeue` says what it hands out. -/
theorem tracks_dequeue (b : Broker) (now : Time) :
    Tracks b (b.dequeue now).2 ((b.dequeue now).1.map Event.delivered).toList := by
  unfold dequeue
  split
  · exact ⟨fun u hu => Or.inl hu, rfl⟩
  · refine ⟨fun u hu => ?_, rfl⟩
    obtain rfl | hu := List.mem_cons.mp hu
    · exact Or.inr List.mem_cons_self
    · exact Or.inl (Table.mem_of_mem_erase hu)

end Broker

/-- **The tracker takes only what it delivers, and the scanner does nothing.** -/
theorem tracks_step (hm : m.Succeeds) (hturn : h.broker.InTurn m) (hs : step γ h m = some h')
    (htrace : h'.trace = h.trace ++ evs) : Broker.Tracks h.broker h'.broker evs := by
  have hlocked : ∀ {b' : Broker} {evs' : List Event}, h.locked b' evs' = some h' →
      Broker.Tracks h.broker b' evs' → Broker.Tracks h.broker h'.broker evs := by
    intro b' evs' hs htracks
    obtain ⟨-, rfl⟩ := eq_of_locked hs
    rwa [← List.append_cancel_left htrace]
  cases m with
  | enqueue t newID now fault =>
    obtain rfl : fault = none := hm
    exact hlocked hs (Broker.tracks_maybeCompactLocked _ _ (fun _ hu => hu) rfl)
  | dequeue now => exact hlocked hs (Broker.tracks_dequeue h.broker now)
  | ack id fault =>
    obtain rfl : fault = none := hm
    exact hlocked hs (Broker.tracks_ack γ h.broker id _)
  | nack id fault =>
    obtain rfl : fault = none := hm
    exact hlocked hs (Broker.tracks_nack γ h.broker id _)
  | compact inFlight | rewrite | lead | capture | fsync ok | returns k =>
    have hsame := sameTasks_of_log hs trivial
    exact ⟨fun u hu => Or.inl (hsame.tracker ▸ hu), hsame.pending⟩
  | applyTuning taskTimeout maxRetries | expired now inFlight | onTimeout fault | resume
  | crash c order cfg => exact hturn.elim

/-! ### Calls and tasks -/

theorem accounted_start (cfg : Config) : Accounted (History.start cfg) :=
  ⟨fun as t bs h => absurd h (by simp [History.start]), fun u hu => (by cases hu),
    fun u hu => (by cases hu)⟩

/-- Answers change nothing in the account. -/
theorem Accounted.answers (ha : Accounted h) (htracks : Broker.Tracks h.broker h'.broker evs)
    (hans : Answers h h' evs) : Accounted h' := by
  have hnone := hans.no_enqueue
  have hlatest : ∀ id, Latest id evs := fun id u hu => absurd hu (hnone u)
  have hsame : (h'.broker.live ++ h'.broker.dlq).Perm (h.broker.live ++ h.broker.dlq) := by
    rw [hans.dlq]
    exact hans.live.append_right _
  refine ⟨fun as t bs hsplit => ?_, fun u hu => ?_, fun u hu => ?_⟩
  · rw [hans.trace] at hsplit
    obtain ⟨bs, hbs, rfl⟩ | ⟨zs, hzs⟩ := split_append hsplit
    · cases ha.calls as t bs hbs with
      | there u hu hcore hl => exact .there u (hsame.mem_iff.mpr hu) hcore (hl.append (hlatest _))
      | asked c hc hreq hasked =>
        obtain hc | hret := hans.kept c hc
        · exact .asked c hc hreq (hasked.append (hlatest _))
        · obtain ⟨xs, ys, rfl⟩ := List.append_of_mem hret
          refine .acked ⟨bs ++ xs, ys, by rw [← hreq, List.append_assoc], hasked.append ?_⟩
          exact fun u hu => absurd (List.mem_append_left _ hu) (hnone u)
      | acked hacked => exact .acked (hacked.append _)
    · exact absurd (hzs ▸ List.mem_append_right _ List.mem_cons_self) (hnone t)
  · obtain ⟨bs, hbs⟩ := ha.memory u (hsame.mem_iff.mp hu)
    exact ⟨bs ++ evs, hbs.append hans.trace (hlatest _)⟩
  · obtain hu | hu := htracks.mem u hu
    · obtain ⟨bs, hbs, hout⟩ := ha.tracker u hu
      exact ⟨bs ++ evs, hbs.append hans.trace (hlatest _), hout.append _⟩
    · -- the task has been delivered, which was pending
      obtain hidle | ⟨c, -, heq, -⟩ := hans.events _ hu
      · cases hidle with
        | delivered t ht =>
          obtain ⟨bs, hbs⟩ := ha.memory _ (List.mem_append_left _ ht)
          have hfrom : FromCall h u bs := hbs.congr rfl
          exact ⟨bs ++ evs, hfrom.append hans.trace (hlatest _), u, List.mem_append_right _ hu, rfl⟩
      · cases heq

/-- A change keeps every task, unless it is acked. -/
theorem Change.keeps (hc : Change b b' e) (hu : u ∈ b.live ++ b.dlq) (hack : e ≠ .ack u.id) :
    ∃ v ∈ b'.live ++ b'.dlq, v.core = u.core := by
  have hdead : u ∈ b.dlq → (∀ v ∈ b.dlq, v ∈ b'.dlq) → ∃ v ∈ b'.live ++ b'.dlq, v.core = u.core :=
    fun hu hsub => ⟨u, List.mem_append_right _ (hsub u hu), rfl⟩
  cases hc with
  | enqueue t hlive hdlq =>
    obtain hu | hu := List.mem_append.mp hu
    · exact ⟨u, List.mem_append_left _ (hlive.mem_iff.mpr (List.mem_cons_of_mem _ hu)), rfl⟩
    · exact hdead hu (hdlq ▸ fun _ => id)
  | ack t hlive hdlq =>
    obtain hu | hu := List.mem_append.mp hu
    · obtain rfl | hu := List.mem_cons.mp (hlive.mem_iff.mp hu)
      · exact absurd rfl hack
      · exact ⟨u, List.mem_append_left _ hu, rfl⟩
    · exact hdead hu (hdlq ▸ fun _ => id)
  | nack t rest hlive hlive' hdlq =>
    obtain hu | hu := List.mem_append.mp hu
    · obtain rfl | hu := List.mem_cons.mp (hlive.mem_iff.mp hu)
      · exact ⟨u.retried, List.mem_append_left _ (hlive'.mem_iff.mpr List.mem_cons_self), rfl⟩
      · exact ⟨u, List.mem_append_left _ (hlive'.mem_iff.mpr (List.mem_cons_of_mem _ hu)), rfl⟩
    · exact hdead hu (hdlq ▸ fun _ => id)
  | dead t v hlive hdlq hv =>
    obtain hu | hu := List.mem_append.mp hu
    · obtain rfl | hu := List.mem_cons.mp (hlive.mem_iff.mp hu)
      · have hcore : v.recovered.core = u.retried.core := congrArg Task.core hv
        refine ⟨v, List.mem_append_right _ ?_, hcore⟩
        rw [hdlq]
        exact List.mem_append_right _ (List.mem_singleton.mpr rfl)
      · exact ⟨u, List.mem_append_left _ hu, rfl⟩
    · exact hdead hu (hdlq ▸ fun _ => List.mem_append_left _)

theorem Change.brings (hc : Change b b' (.enqueue t)) :
    ∃ v ∈ b'.live ++ b'.dlq, v.core = t.core :=
  ⟨_, List.mem_append_left _ (hc.of_enqueue.1.mem_iff.mpr List.mem_cons_self), rfl⟩

theorem Source.tracked (hsource : Source b m (.ack id) rs) : ∃ v ∈ b.tracker.vals, v.id = id := by
  cases hsource with
  | ack v fault hv hm => exact ⟨v, hv, rfl⟩

/-- A task that is acked has been delivered since its call. -/
theorem Accounted.handedOut (ha : Accounted h) {as : List Event}
    (hsplit : h.trace = as ++ .issued (.enqueue t) :: bs) (hl : Latest t.id bs)
    (hu : u ∈ h.broker.tracker.vals) (hid : t.id = u.id) : HandedOut t bs := by
  obtain ⟨bs', ⟨as', t', hsplit', hcore, hl'⟩, hout⟩ := ha.tracker u hu
  obtain ⟨rfl, rfl⟩ := eq_of_latest (hsplit.symm.trans hsplit') hl hl'
    (hid.trans (Task.id_of_core hcore).symm)
  exact hout.congr hcore.symm

theorem mem_ids_of_core (hu : u ∈ b.live ++ b.dlq) (hcore : u.core = t.core) : t.id ∈ b.ids := by
  rw [Broker.ids_eq, ← List.map_append, ← Task.id_of_core hcore]
  exact List.mem_map.mpr ⟨u, hu, rfl⟩

/-- **A record is accounted for by its call.** -/
theorem Accounted.appends (ha : Accounted h)
    (htracks : Broker.Tracks h.broker h'.broker (rs.map .issued))
    (hfresh : ∀ t, e = .enqueue t → t.id ∉ h.broker.ids) (hquiet : h.broker.owed = [])
    (happ : Appends γ h m h' e rs) : Accounted h' := by
  have hsource := happ.source
  have htrace := happ.trace
  -- the identifier of a task that is there is not brought again
  have hlatest : ∀ id ∈ h.broker.ids, Latest id (rs.map .issued) := by
    rintro id hid u hu rfl
    obtain ⟨r, hr, heq⟩ := List.mem_map.mp hu
    exact hfresh u (hsource.eq_enqueue (Event.issued.inj heq ▸ hr)) hid
  refine ⟨fun as t bs hsplit => ?_, fun u hu => ?_, fun u hu => ?_⟩
  · rw [htrace] at hsplit
    obtain ⟨bs, hbs, rfl⟩ | ⟨zs, hzs⟩ := split_append hsplit
    · cases ha.calls as t bs hbs with
      | there u hu hcore hl =>
        have hl' := hl.append (hlatest _ (mem_ids_of_core hu hcore))
        by_cases hack : e = .ack u.id
        · subst hack
          obtain rfl := hsource.asked_ack
          have hid : t.id = u.id := (Task.id_of_core hcore).symm
          refine .asked ⟨.ack u.id, h.broker.wal.writeSeq + 1⟩ ?_ (by rw [hid])
            ⟨bs, [], by rw [hid]; rfl, ?_, hl'⟩
          · rw [happ.owed]
            exact List.mem_append_right _ (List.mem_singleton.mpr rfl)
          · obtain ⟨v, hv, hvid⟩ := hsource.tracked
            exact ha.handedOut hbs hl hv (hid.trans hvid.symm)
        · obtain ⟨v, hv, hvu⟩ := happ.change.keeps hu hack
          exact .there v hv (hvu.trans hcore) hl'
      | asked c hc =>
        rw [hquiet] at hc
        cases hc
      | acked hacked => exact .acked (hacked.append _)
    · have hmem : .issued (.enqueue t) ∈ rs.map Event.issued :=
        hzs ▸ List.mem_append_right _ List.mem_cons_self
      obtain ⟨r, hr, heq⟩ := List.mem_map.mp hmem
      obtain rfl : e = .enqueue t := hsource.eq_enqueue (Event.issued.inj heq ▸ hr)
      -- the call is the one that has just been made
      obtain ⟨u, rfl, -⟩ := hsource.asked
      obtain rfl : bs = [] := by
        cases zs with
        | nil => exact (List.cons.inj hzs).2.symm
        | cons z zs => exact absurd (List.cons.inj hzs).2 (by simp)
      obtain ⟨u, hu, hcore⟩ := happ.change.brings
      exact .there u hu hcore fun u hu => (by cases hu)
  · obtain ⟨v, hv, hcore⟩ | ⟨t, rfl, hcore⟩ := happ.change.core hu
    · obtain ⟨bs, hbs⟩ := ha.memory v hv
      exact ⟨_, (hbs.append htrace (hlatest _ (mem_ids_of_core hv rfl))).congr hcore⟩
    · obtain ⟨t', rfl, ht'⟩ := hsource.asked
      exact ⟨[], h.trace, t', htrace, (Task.core_of_written ht').trans hcore,
        fun u hu => (by cases hu)⟩
  · obtain hu | hu := htracks.mem u hu
    · obtain ⟨bs, hbs, hout⟩ := ha.tracker u hu
      have hid : u.id ∈ h.broker.ids := by
        refine mem_ids_of_core (u := u.recovered) (List.mem_append_left _ ?_) rfl
        exact List.mem_map.mpr
          ⟨u, List.mem_append_left _ (List.mem_append_right _ hu), rfl⟩
      exact ⟨_, hbs.append htrace (hlatest _ hid), hout.append _⟩
    · obtain ⟨r, -, heq⟩ := List.mem_map.mp hu
      cases heq

/-- The step of a run. -/
theorem Accounted.advance {es' : List LogEntry} (ha : Accounted h) (hg : Sequential γ h m)
    (hs : step γ h m = some h') (hadv : Advance γ h es m h' es') : Accounted h' := by
  obtain ⟨hreg, hturn⟩ := hg
  have htracks : ∀ {evs}, h'.trace = h.trace ++ evs → Broker.Tracks h.broker h'.broker evs :=
    tracks_step hreg.1 hturn hs
  obtain ⟨evs, hans⟩ | ⟨e, rs, -, happ⟩ := hadv.calls
  · exact ha.answers (htracks hans.trace) hans
  · have hquiet : h.broker.owed = [] := by
      rw [Broker.owed, happ.free, (hturn.source happ.source).2]
      rfl
    exact ha.appends (htracks happ.trace) (hreg.fresh happ.source) hquiet happ

/-! ### The log between two calls -/

/-- **Someone waits for the last record, until all of the log is durable.** -/
structure Flushed (γ : Codec) (h : History) (es : List LogEntry) : Prop where
  promised : Promised γ h.broker.wal es h.broker.wal.writeSeq (es <+: ·)
  awaited : h.broker.wal.syncedSeq < h.broker.wal.writeSeq →
    ∃ c ∈ h.broker.owed, c.seq = h.broker.wal.writeSeq

theorem flushed_start (γ : Codec) (cfg : Config) : Flushed γ (History.start cfg) [] where
  promised := ⟨List.prefix_refl _, le_rfl, fun _ => lasting_all (List.prefix_refl _),
    fun covered length hs => (by cases hs)⟩
  awaited h := absurd h (Nat.lt_irrefl _)

/-- **The log is flushed when the call returns.** -/
theorem Flushed.advance {es' : List LogEntry} (hf : Flushed γ h es) (hb : Base γ h.broker es)
    (hturn : h.broker.InTurn m) (hadv : Advance γ h es m h' es') : Flushed γ h' es' := by
  cases hadv with
  | stays evs hpromised hsynced hwrite hholder howed hkept hlive hdlq htrace hevs =>
    refine ⟨hwrite ▸ hpromised _ _ hf.promised, fun hlt => ?_⟩
    rw [hwrite] at hlt ⊢
    obtain ⟨c, hc, hseq⟩ := hf.awaited (lt_of_le_of_lt hsynced hlt)
    obtain hc | ⟨-, hle⟩ := hkept c hc
    · exact ⟨c, hc, hseq⟩
    · omega
  | append e rs hsource hfree hwal hholder howed hchange htrace =>
    have hwrite : h'.broker.wal.writeSeq = h.broker.wal.writeSeq + 1 := by
      rw [hwal]
      rfl
    refine ⟨?_, fun _ => ?_⟩
    · rw [hwrite, hwal]
      exact hb.sound.promise (List.prefix_refl _)
    · obtain ⟨r, rest, rfl⟩ := List.exists_cons_of_ne_nil (hturn.source hsource).1
      refine ⟨⟨r, h.broker.wal.writeSeq + 1⟩, ?_, hwrite.symm⟩
      rw [howed]
      exact List.mem_append_right _ List.mem_cons_self
  | gathered c inFlight hm hperm hh howed =>
    subst hh
    exact ⟨hf.promised, fun hlt => howed ▸ hf.awaited hlt⟩
  | rewritten c qs hholder hpromised hsynced hwrite hfree howed hlive hdlq htrace =>
    refine ⟨hwrite ▸ hpromised _ _ le_rfl (List.prefix_refl _), fun hlt => ?_⟩
    rw [hwrite] at hlt ⊢
    rw [howed]
    exact hf.awaited (lt_of_le_of_lt hsynced hlt)

/-- When no call is under way, a crash leaves the whole log. -/
theorem Flushed.eq_of_crash (hf : Flushed γ h es) (hquiet : h.broker.owed = [])
    (hcrash : Crashes γ h es h' qs) : qs = es := by
  have hsynced : h.broker.wal.writeSeq ≤ h.broker.wal.syncedSeq := by
    refine Nat.not_lt.mp fun hlt => ?_
    obtain ⟨c, hc, -⟩ := hf.awaited hlt
    rw [hquiet] at hc
    cases hc
  have hall := hcrash.lasts _ (hf.promised.synced hsynced)
  exact hcrash.left.eq_of_length (le_antisymm hcrash.left.length_le hall.length_le)

/-- Recovery does not fail. -/
theorem exists_recover (γ : Codec) (cfg : Config) (w : WAL) (c : ℕ) (order : List Task) :
    ∃ b, recover γ cfg w c order = some b := by
  unfold recover
  dsimp only
  split
  · exact ⟨_, rfl⟩
  · exact ⟨_, rfl⟩

/-! ### The theorem -/

/-- **No enqueued task is lost track of.** Between two calls of a sequential run, each
`Enqueue` has its task pending, in flight or dead-lettered, or the task was removed by an
`Ack` of its own delivery. A crash at such a moment gives back as many live tasks as there
were. -/
theorem sequential_calls_accounted {cfg : Config} {ms : List Move}
    (hG : Run.Guarded (step γ) (Sequential γ) (History.start cfg) ms)
    (hrun : Run.exec (step γ) (History.start cfg) ms = some h)
    (hcalls : h.broker.calls = []) (hfree : h.broker.holder = none) :
    (∀ as t bs, h.trace = as ++ .issued (.enqueue t) :: bs →
      (∃ u ∈ h.broker.pq ++ h.broker.tracker.vals ++ h.broker.dlq, u.core = t.core) ∧
          Latest t.id bs ∨
        AckedOwn t bs) ∧
    ∀ c order cfg', h.broker.wal.durable ≤ c → c ≤ h.broker.wal.file.length →
      order.Perm (fold (replay γ (h.broker.wal.file.take c)).1).live.vals →
      ∃ h', step γ h (.crash c order cfg') = some h' ∧
        h'.broker.pq.length = h.broker.pq.length + h.broker.tracker.vals.length := by
  have hquiet : h.broker.owed = [] := by
    rw [Broker.owed, hfree, hcalls]
    rfl
  obtain ⟨es, hb, hm, hf, ha, hpending⟩ : ∃ es, Base γ h.broker es ∧ Mirrors h.broker es ∧
      Flushed γ h es ∧ Accounted h ∧ h.broker.scanner.pending = [] := by
    refine Run.invariant_of_guarded (P := fun h => ∃ es, Base γ h.broker es ∧
      Mirrors h.broker es ∧ Flushed γ h es ∧ Accounted h ∧ h.broker.scanner.pending = [])
      ⟨[], base_start γ cfg, mirrors_start cfg, flushed_start γ cfg, accounted_start cfg, rfl⟩ ?_
      hG hrun
    rintro u m u' ⟨es, hb, hm, hf, ha, hpending⟩ hg hs
    have hreads : u.broker.ReadsAll m := by
      cases m with
      | compact inFlight => exact hpending
      | _ => trivial
    obtain ⟨es', hb', hadv | ⟨qs, -, -, c, order, cfg, rfl⟩⟩ := hb.advance hg.1 hs
    · obtain ⟨evs, htrace⟩ := hadv.exists_trace
      refine ⟨es', hb', hm.advance hb hg.1 hreads hadv, hf.advance hb hg.2 hadv,
        ha.advance hg hs hadv, ?_⟩
      rw [(tracks_step hg.1.1 hg.2 hs htrace).pending, hpending]
    · exact hg.2.elim
  refine ⟨fun as t bs hsplit => ?_, fun c order cfg' hle hlen horder => ?_⟩
  · cases ha.calls as t bs hsplit with
    | there u hu hcore hl =>
      refine Or.inl ⟨?_, hl⟩
      obtain hu | hu := List.mem_append.mp hu
      · obtain ⟨v, hv, rfl⟩ := List.mem_map.mp hu
        rw [Broker.tasks, hpending, List.append_nil] at hv
        exact ⟨v, List.mem_append_left _ hv, hcore⟩
      · exact ⟨u, List.mem_append_right _ hu, hcore⟩
    | asked c hc =>
      rw [hquiet] at hc
      cases hc
    | acked hacked => exact Or.inr hacked
  · obtain ⟨b, hrec⟩ := exists_recover γ cfg' h.broker.wal c order
    have hcrash : step γ h (.crash c order cfg') = some (h.silent b) := by
      rw [step, if_pos ⟨hle, hlen, horder⟩, hrec]
      rfl
    obtain ⟨qs, hleft⟩ : ∃ qs, Crashes γ h es (h.silent b) qs :=
      hb.crashes hle (recovered_of_recover horder hrec) rfl
    obtain rfl := hf.eq_of_crash hquiet hleft
    refine ⟨h.silent b, hcrash, ?_⟩
    rw [(hleft.recovered.pq.trans hm.live).length_eq, Broker.live, List.length_map, Broker.tasks,
      hpending, List.append_nil, List.length_append]

/-- A task is delivered, retried, delivered again and acked, and another one, enqueued under
the same identifier, is in flight. -/
def ackedAndAgain : List Move :=
  [.enqueue taskA "" 1 none] ++ synced ++ [.dequeue 2, .nack "a" none] ++ synced ++
    [.dequeue 3, .ack "a" none] ++ synced ++ [.enqueue taskA "" 4 none] ++ synced ++ [.dequeue 5]

/-- The theorem at an identifier that is used again after its `Ack`. -/
theorem sequential_calls_accounted_again :
    ∃ h, Run.exec (step plainCodec) (History.start ⟨3, 30, 0⟩) ackedAndAgain = some h ∧
      h.broker.calls = [] ∧ h.broker.holder = none ∧
      (∀ as t bs, h.trace = as ++ .issued (.enqueue t) :: bs →
        (∃ u ∈ h.broker.pq ++ h.broker.tracker.vals ++ h.broker.dlq, u.core = t.core) ∧
            Latest t.id bs ∨
          AckedOwn t bs) := by
  have hend : (Run.exec (step plainCodec) (History.start ⟨3, 30, 0⟩) ackedAndAgain).map
      (fun h => (h.broker.calls, h.broker.holder)) = some ([], none) := by
    decide +kernel
  obtain ⟨h, hrun, hlast⟩ := Option.map_eq_some_iff.mp hend
  obtain ⟨hcalls, hfree⟩ := Prod.mk.inj hlast
  have hG : Run.Guarded (step plainCodec) (Sequential plainCodec) (History.start ⟨3, 30, 0⟩)
      ackedAndAgain := by
    decide +kernel
  exact ⟨h, hrun, hcalls, hfree, (sequential_calls_accounted hG hrun hcalls hfree).1⟩

/-! ### An identifier that is repeated -/

/-- Two tasks with one identifier. -/
def taskA₁ : Task := { taskA with payload := [1], createdAt := 1 }

/-- Another task under the identifier of the first. -/
def taskA₂ : Task := { taskA with payload := [2], createdAt := 2 }

/-- The two tasks are enqueued one after the other. -/
def twice : List Move :=
  [.enqueue taskA₁ "" 1 none] ++ synced ++ [.enqueue taskA₂ "" 2 none] ++ synced

/-- **Two tasks with one identifier.** Both calls have returned, and two tasks are pending, but
a crash, which finds all of the file, gives back one. If instead both are delivered, one is
in flight, and the other is nowhere; nobody has acked it. -/
theorem repeated_id_lost :
    Run.Guarded (step plainCodec)
        (fun h m => m.Succeeds ∧ h.broker.InTurn m ∧ h.broker.Capped plainCodec m)
        (History.start ⟨3, 30, 0⟩) (twice ++ [.dequeue 3, .dequeue 4]) ∧
      (Run.exec (step plainCodec) (History.start ⟨3, 30, 0⟩) twice).map (fun h =>
        (h.broker.pq, h.broker.wal.file.length)) = some ([taskA₁, taskA₂], 54) ∧
      (Run.exec (step plainCodec) (History.start ⟨3, 30, 0⟩)
        (twice ++ [.crash 54 [taskA₂] ⟨3, 30, 0⟩])).map (fun h => h.broker.pq) = some [taskA₂] ∧
      (Run.exec (step plainCodec) (History.start ⟨3, 30, 0⟩)
        (twice ++ [.dequeue 3, .dequeue 4])).map (fun h =>
          (h.broker.pq, h.broker.tracker.vals.map Task.payload, h.broker.dlq,
            h.trace.filterMap fun
              | .returned r => some r
              | _ => none)) =
        some ([], [[2]], [], [.enqueue taskA₁, .enqueue taskA₂]) := by
  decide +kernel

end SingleNode

end DistQueue
