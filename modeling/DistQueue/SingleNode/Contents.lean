import DistQueue.SingleNode.History

/-!
# What a log stands for

The pass over the log by which a broker recovers, entry by entry. Three things are said
about it. An identifier gets into the contents only by an `OpEnqueue`
(`DistQueue.SingleNode.Contents.mem_ids_apply`), and is lost only by an `OpAck`
(`DistQueue.SingleNode.mem_ids_fold`). The identifiers stay distinct as long as none is
enqueued that is in the dead-letter queue
(`DistQueue.SingleNode.Orderly.nodup`). And the list that compaction writes
stands for what it was made from, if the identifiers are distinct
(`DistQueue.SingleNode.live_compactEntries`).
-/

namespace DistQueue

open Broker Wal

namespace Broker

@[simp] theorem Task.recovered_id (t : Task) : t.recovered.id = t.id := rfl

/-- A task in the dead-letter queue of a broker that has recovered. -/
def Task.buried (t : Task) : Task := { t.recovered with status := .dead }

/-- The part of a task that never changes. -/
def Task.core (t : Task) : TaskID × List UInt8 × ℤ × Time :=
  (t.id, t.payload, t.priority, t.createdAt)

/-- What is the same on disk has the same core. -/
theorem Task.core_of_written {t u : Task} (h : t.written = u.written) : t.core = u.core :=
  congrArg (fun w : WrittenTask => w.val.core) h

/-- What is the same on disk is recovered as the same task. -/
theorem Task.recovered_of_written {t u : Task} (h : t.written = u.written) :
    t.recovered = u.recovered :=
  congrArg (fun w : WrittenTask => w.val.recovered) h

theorem Task.id_of_core {t u : Task} (h : t.core = u.core) : t.id = u.id := congrArg Prod.fst h

end Broker

namespace SingleNode

variable {s : Contents} {e : LogEntry} {es : List LogEntry} {id : TaskID} {t : Task}

namespace Contents

/-- The identifiers of the tasks, live or dead. -/
def ids (s : Contents) : List TaskID := s.live.vals.map Task.id ++ s.dlq.map Task.id

theorem mem_ids : id ∈ s.ids ↔ (∃ t ∈ s.live.vals, t.id = id) ∨ ∃ t ∈ s.dlq, t.id = id := by
  simp only [ids, List.mem_append, List.mem_map]

/-! ### One entry -/

theorem apply_enqueue (s : Contents) (t : Task) :
    s.apply (.enqueue t) = ⟨s.live.put t.recovered, s.dlq⟩ := rfl

theorem apply_ack (s : Contents) (id : TaskID) : s.apply (.ack id) = ⟨s.live.erase id, s.dlq⟩ := rfl

theorem apply_nack (h : s.live.find id = some t) :
    s.apply (.nack id) = ⟨s.live.put t.retried, s.dlq⟩ := by
  unfold LogEntry.nack apply
  dsimp only
  rw [if_neg (by decide), if_pos rfl, h]

theorem apply_dead (h : s.live.find id = some t) :
    s.apply (.dead id) = ⟨s.live.erase id, s.dlq ++ [{ t with status := .dead }]⟩ := by
  unfold LogEntry.dead apply
  dsimp only
  rw [if_neg (by decide), if_neg (by decide), if_pos rfl, h]

/-- Everything an entry can do. -/
theorem apply_cases (s : Contents) (e : LogEntry) :
    (∃ t, e = .enqueue t ∧ s.apply e = ⟨s.live.put t.recovered, s.dlq⟩) ∨
    (∃ id, e = .ack id ∧ s.apply e = ⟨s.live.erase id, s.dlq⟩) ∨
    (∃ t, e = .nack t.id ∧ t ∈ s.live.vals ∧ s.apply e = ⟨s.live.put t.retried, s.dlq⟩) ∨
    (∃ t, e = .dead t.id ∧ t ∈ s.live.vals ∧
      s.apply e = ⟨s.live.erase t.id, s.dlq ++ [{ t with status := .dead }]⟩) ∨
    s.apply e = s := by
  cases e with
  | record t => exact Or.inl ⟨t.val, (LogEntry.enqueue_val t).symm, rfl⟩
  | mark op id hop =>
    unfold apply
    dsimp only
    split_ifs with hack hnack hdead
    · subst hack
      exact Or.inr (Or.inl ⟨id, rfl, rfl⟩)
    · subst hnack
      split
      · rename_i t ht
        obtain rfl := Table.key_of_find ht
        exact Or.inr (Or.inr (Or.inl ⟨t, rfl, Table.mem_of_find ht, rfl⟩))
      · exact Or.inr (Or.inr (Or.inr (Or.inr rfl)))
    · subst hdead
      split
      · rename_i t ht
        obtain rfl := Table.key_of_find ht
        exact Or.inr (Or.inr (Or.inr (Or.inl ⟨t, rfl, Table.mem_of_find ht, rfl⟩)))
      · exact Or.inr (Or.inr (Or.inr (Or.inr rfl)))
    · exact Or.inr (Or.inr (Or.inr (Or.inr rfl)))

/-- What is left of the contents when an identifier is no longer live. -/
def without (s : Contents) (id : TaskID) : Contents := { s with live := s.live.erase id }

/-- Who removes an identifier adds none. -/
theorem mem_ids_of_without {id' : TaskID} (h : id ∈ (s.without id').ids) : id ∈ s.ids := by
  rw [mem_ids] at h ⊢
  exact h.imp_left fun ⟨t, ht, hid⟩ => ⟨t, Table.mem_of_mem_erase ht, hid⟩

/-- The other identifiers stay. -/
theorem mem_ids_without {id' : TaskID} (h : id ∈ s.ids) (hne : id ≠ id') :
    id ∈ (s.without id').ids := by
  rw [mem_ids] at h ⊢
  refine h.imp_left ?_
  rintro ⟨t, ht, rfl⟩
  exact ⟨t, Table.mem_erase ht hne, rfl⟩

theorem nodup_without (h : s.ids.Nodup) : (s.without id).ids.Nodup :=
  h.sublist ((List.filter_sublist.map _).append (List.Sublist.refl _))

theorem ids_perm_without (h : t ∈ s.live.vals) : s.ids.Perm (t.id :: (s.without t.id).ids) :=
  ((Table.perm_of_find (Table.find_of_mem h)).map Task.id).append_right _

/-- Everything an entry can do to the identifiers. -/
theorem ids_apply (s : Contents) (e : LogEntry) :
    (∃ t, e = .enqueue t ∧ (s.apply e).ids = t.id :: (s.without t.id).ids) ∨
    (∃ id, e = .ack id ∧ (s.apply e).ids = (s.without id).ids) ∨
    (s.apply e).ids.Perm s.ids := by
  obtain ⟨t, rfl, he⟩ | ⟨id, rfl, he⟩ | ⟨t, rfl, ht, he⟩ | ⟨t, rfl, ht, he⟩ | he := apply_cases s e
  · refine Or.inl ⟨t, rfl, ?_⟩
    rw [he]
    rfl
  · refine Or.inr (Or.inl ⟨id, rfl, ?_⟩)
    rw [he]
    rfl
  · refine Or.inr (Or.inr ?_)
    rw [he]
    exact (ids_perm_without ht).symm
  · refine Or.inr (Or.inr ?_)
    rw [he, ids, List.map_append, ← List.append_assoc]
    exact List.perm_append_comm.trans (ids_perm_without ht).symm
  · refine Or.inr (Or.inr ?_)
    rw [he]

/-- An identifier gets in by being enqueued. -/
theorem mem_ids_apply (h : id ∈ (s.apply e).ids) :
    id ∈ s.ids ∨ ∃ t, e = .enqueue t ∧ t.id = id := by
  obtain ⟨t, rfl, he⟩ | ⟨id', rfl, he⟩ | he := ids_apply s e
  · rw [he, List.mem_cons] at h
    obtain rfl | h := h
    · exact Or.inr ⟨t, rfl, rfl⟩
    · exact Or.inl (mem_ids_of_without h)
  · rw [he] at h
    exact Or.inl (mem_ids_of_without h)
  · exact Or.inl (he.mem_iff.mp h)

/-- An identifier is lost by being acked. -/
theorem mem_apply_ids (h : id ∈ s.ids) (hack : e ≠ .ack id) : id ∈ (s.apply e).ids := by
  obtain ⟨t, rfl, he⟩ | ⟨id', rfl, he⟩ | he := ids_apply s e
  · rw [he, List.mem_cons]
    rcases eq_or_ne id t.id with rfl | hne
    · exact Or.inl rfl
    · exact Or.inr (mem_ids_without h hne)
  · rw [he]
    exact mem_ids_without h fun heq => hack (by rw [heq])
  · exact he.mem_iff.mpr h

/-- The identifiers stay distinct, unless one is enqueued that is dead-lettered. -/
theorem nodup_apply (h : s.ids.Nodup) (hdlq : ∀ t, e = .enqueue t → t.id ∉ s.dlq.map Task.id) :
    (s.apply e).ids.Nodup := by
  obtain ⟨t, rfl, he⟩ | ⟨id', rfl, he⟩ | he := ids_apply s e
  · rw [he]
    refine List.nodup_cons.mpr ⟨fun hmem => ?_, nodup_without h⟩
    obtain hlive | hdead := List.mem_append.mp hmem
    · exact Table.not_mem_keys_erase s.live t.id hlive
    · exact hdlq t rfl hdead
  · rw [he]
    exact nodup_without h
  · exact he.nodup_iff.mpr h

/-- The dead-letter queue only grows, by what is marked as dead. -/
theorem mem_dlq_apply (h : id ∈ (s.apply e).dlq.map Task.id) :
    id ∈ s.dlq.map Task.id ∨ e = .dead id := by
  obtain ⟨t, rfl, he⟩ | ⟨id', rfl, he⟩ | ⟨t, rfl, ht, he⟩ | ⟨t, rfl, ht, he⟩ | he :=
    apply_cases s e <;> rw [he] at h
  · exact Or.inl h
  · exact Or.inl h
  · exact Or.inl h
  · rw [List.map_append, List.mem_append] at h
    refine h.imp_right fun h => ?_
    rw [List.mem_singleton.mp h]
  · exact Or.inl h

/-- Only `dead` records add to the dead-letter queue. -/
theorem dlq_apply_of_ne (h : ∀ id, e ≠ .dead id) : (s.apply e).dlq = s.dlq := by
  obtain ⟨t, rfl, he⟩ | ⟨id', rfl, he⟩ | ⟨t, rfl, ht, he⟩ | ⟨t, rfl, ht, he⟩ | he := apply_cases s e
  · rw [he]
  · rw [he]
  · rw [he]
  · exact absurd rfl (h t.id)
  · rw [he]

/-- Every task has been enqueued, and what never changes is as it was then. -/
theorem core_apply {u : Task} (h : u ∈ (s.apply e).live.vals ++ (s.apply e).dlq) :
    (∃ v ∈ s.live.vals ++ s.dlq, v.core = u.core) ∨ ∃ t, e = .enqueue t ∧ t.core = u.core := by
  obtain ⟨t, rfl, he⟩ | ⟨id', rfl, he⟩ | ⟨t, rfl, ht, he⟩ | ⟨t, rfl, ht, he⟩ | he :=
    apply_cases s e <;> rw [he] at h
  · obtain h | h := List.mem_append.mp h
    · rw [Table.vals_put, List.mem_cons] at h
      obtain rfl | h := h
      · exact Or.inr ⟨t, rfl, rfl⟩
      · exact Or.inl ⟨u, List.mem_append_left _ (Table.mem_of_mem_erase h), rfl⟩
    · exact Or.inl ⟨u, List.mem_append_right _ h, rfl⟩
  · obtain h | h := List.mem_append.mp h
    · exact Or.inl ⟨u, List.mem_append_left _ (Table.mem_of_mem_erase h), rfl⟩
    · exact Or.inl ⟨u, List.mem_append_right _ h, rfl⟩
  · obtain h | h := List.mem_append.mp h
    · rw [Table.vals_put, List.mem_cons] at h
      obtain rfl | h := h
      · exact Or.inl ⟨t, List.mem_append_left _ ht, rfl⟩
      · exact Or.inl ⟨u, List.mem_append_left _ (Table.mem_of_mem_erase h), rfl⟩
    · exact Or.inl ⟨u, List.mem_append_right _ h, rfl⟩
  · obtain h | h := List.mem_append.mp h
    · exact Or.inl ⟨u, List.mem_append_left _ (Table.mem_of_mem_erase h), rfl⟩
    · obtain h | h := List.mem_append.mp h
      · exact Or.inl ⟨u, List.mem_append_right _ h, rfl⟩
      · rw [List.mem_singleton.mp h]
        exact Or.inl ⟨t, List.mem_append_left _ ht, rfl⟩
  · exact Or.inl ⟨u, h, rfl⟩

end Contents

/-! ### The whole log -/

theorem fold_concat (es : List LogEntry) (e : LogEntry) : fold (es ++ [e]) = (fold es).apply e :=
  List.foldl_append

/-- **What was enqueued and not acked is there.** -/
theorem mem_ids_fold (h : .enqueue t ∈ es) (hack : .ack t.id ∉ es) : t.id ∈ (fold es).ids := by
  induction es using List.reverseRecOn with
  | nil => cases h
  | append_singleton es e ih =>
    rw [List.mem_append, List.mem_singleton] at h hack
    rw [fold_concat]
    obtain h | rfl := h
    · refine Contents.mem_apply_ids (ih h fun hmem => hack (Or.inl hmem)) ?_
      rintro rfl
      exact hack (Or.inr rfl)
    · exact Contents.mem_ids.mpr (Or.inl ⟨t.recovered, List.mem_cons_self, rfl⟩)

/-- **What is there was enqueued.** -/
theorem core_fold {u : Task} (h : u ∈ (fold es).live.vals ++ (fold es).dlq) :
    ∃ t, .enqueue t ∈ es ∧ t.core = u.core := by
  induction es using List.reverseRecOn generalizing u with
  | nil => cases h
  | append_singleton es e ih =>
    rw [fold_concat] at h
    obtain ⟨v, hv, hcore⟩ | ⟨t, rfl, hcore⟩ := Contents.core_apply h
    · obtain ⟨t, ht, htv⟩ := ih hv
      exact ⟨t, List.mem_append_left _ ht, htv.trans hcore⟩
    · exact ⟨t, List.mem_append_right _ (List.mem_singleton.mpr rfl), hcore⟩

/-- What is live is pending, and what is dead is dead. -/
theorem status_fold (es : List LogEntry) :
    (∀ t ∈ (fold es).live.vals, t.status = .pending) ∧ ∀ t ∈ (fold es).dlq, t.status = .dead := by
  induction es using List.reverseRecOn with
  | nil => exact ⟨fun t ht => (by cases ht), fun t ht => (by cases ht)⟩
  | append_singleton es e ih =>
    obtain ⟨hlive, hdlq⟩ := ih
    have herase : ∀ id, ∀ t ∈ ((fold es).live.erase id).vals, t.status = .pending :=
      fun id t ht => hlive t (Table.mem_of_mem_erase ht)
    rw [fold_concat]
    obtain ⟨t, rfl, he⟩ | ⟨id', rfl, he⟩ | ⟨t, rfl, ht, he⟩ | ⟨t, rfl, ht, he⟩ | he :=
      Contents.apply_cases (fold es) e <;> rw [he]
    · exact ⟨List.forall_mem_cons.mpr ⟨rfl, herase _⟩, hdlq⟩
    · exact ⟨herase id', hdlq⟩
    · exact ⟨List.forall_mem_cons.mpr ⟨hlive t ht, herase _⟩, hdlq⟩
    · exact ⟨herase t.id, List.forall_mem_append.mpr ⟨hdlq, List.forall_mem_singleton.mpr rfl⟩⟩
    · exact ⟨hlive, hdlq⟩

/-- **Every task of the contents comes from an `enqueue` record.** -/
theorem enqueued_of_mem_ids (h : id ∈ (fold es).ids) : ∃ t, .enqueue t ∈ es ∧ t.id = id := by
  rw [Contents.ids, ← List.map_append] at h
  obtain ⟨u, hu, rfl⟩ := List.mem_map.mp h
  obtain ⟨t, ht, hcore⟩ := core_fold hu
  exact ⟨t, ht, Task.id_of_core hcore⟩

/-- No identifier is enqueued that is in the dead-letter queue at that point of the log. -/
def Orderly (es : List LogEntry) : Prop :=
  ∀ xs t, xs ++ [.enqueue t] <+: es → t.id ∉ (fold xs).dlq.map Task.id

theorem orderly_nil : Orderly [] := by
  intro xs t h
  have hlen := h.length_le
  rw [List.length_append] at hlen
  cases hlen

theorem Orderly.of_prefix {xs : List LogEntry} (h : Orderly es) (hp : xs <+: es) : Orderly xs :=
  fun ys t hy => h ys t (hy.trans hp)

/-- A record that does not enqueue a dead task again may follow. -/
theorem Orderly.concat (h : Orderly es)
    (he : ∀ t, e = .enqueue t → t.id ∉ (fold es).dlq.map Task.id) : Orderly (es ++ [e]) := by
  intro xs t hp
  obtain heq | hp := List.prefix_concat_iff.mp hp
  · obtain ⟨rfl, hlast⟩ := List.append_inj' heq rfl
    exact he t (List.singleton_inj.mp hlast).symm
  · exact h xs t hp

/-- **The identifiers in an orderly log's contents are distinct.** -/
theorem Orderly.nodup (h : Orderly es) : (fold es).ids.Nodup := by
  induction es using List.reverseRecOn with
  | nil => exact List.nodup_nil
  | append_singleton es e ih =>
    rw [fold_concat]
    refine Contents.nodup_apply (ih (h.of_prefix (List.prefix_append _ _))) ?_
    rintro t rfl
    exact h es t (List.prefix_refl _)

/-- The identifiers a log enqueues. -/
def enqueuedIDs (es : List LogEntry) : List TaskID :=
  es.filterMap fun
    | .record t => some t.val.id
    | .mark _ _ _ => none

theorem mem_enqueuedIDs : id ∈ enqueuedIDs es ↔ ∃ t, .enqueue t ∈ es ∧ t.id = id := by
  rw [enqueuedIDs, List.mem_filterMap]
  constructor
  · rintro ⟨e, he, hid⟩
    cases e with
    | record t => exact ⟨t.val, by rwa [LogEntry.enqueue_val], Option.some.inj hid⟩
    | mark op taskID hop => cases hid
  · rintro ⟨t, ht, rfl⟩
    exact ⟨_, ht, rfl⟩

/-- A log that enqueues no identifier twice is an orderly one. -/
theorem orderly_of_nodup (h : (enqueuedIDs es).Nodup) : Orderly es := by
  rintro xs t ⟨ys, rfl⟩ hmem
  have hxs : t.id ∈ enqueuedIDs xs :=
    mem_enqueuedIDs.mpr (enqueued_of_mem_ids (List.mem_append_right _ hmem))
  simp only [enqueuedIDs, List.filterMap_append, List.nodup_append] at h
  exact h.1.2.2 _ hxs _ (List.mem_singleton.mpr rfl) rfl

/-! ### The compacted log -/

/-- Entries that enqueue tasks of new identifiers. -/
theorem foldl_enqueue (s : Contents) {L : List Task} (hL : (L.map Task.id).Nodup)
    (hs : ∀ t ∈ L, t.id ∉ s.live.vals.map Task.id) :
    ((L.map .enqueue).foldl Contents.apply s).live.vals.Perm (L.map Task.recovered ++ s.live.vals) ∧
      ((L.map .enqueue).foldl Contents.apply s).dlq = s.dlq := by
  induction L generalizing s with
  | nil => exact ⟨List.Perm.refl _, rfl⟩
  | cons t L ih =>
    obtain ⟨htL, hL⟩ := List.nodup_cons.mp hL
    obtain ⟨hts, hs⟩ := List.forall_mem_cons.mp hs
    have hput : (s.live.put t.recovered).vals = t.recovered :: s.live.vals :=
      Table.vals_put_of_not_mem hts
    obtain ⟨hlive, hdlq⟩ := ih (s.apply (.enqueue t)) hL fun u hu hmem => by
      rw [Contents.apply_enqueue, hput, List.map_cons, List.mem_cons] at hmem
      obtain heq | hmem := hmem
      · exact htL (List.mem_map.mpr ⟨u, hu, heq⟩)
      · exact hs u hu hmem
    refine ⟨hlive.trans ?_, hdlq⟩
    rw [Contents.apply_enqueue, hput]
    exact List.perm_middle

/-- A task that is enqueued and marked as dead goes to the dead-letter queue. -/
theorem apply_enqueue_dead (hs : t.id ∉ s.live.vals.map Task.id) :
    (s.apply (.enqueue t)).apply (.dead t.id) = ⟨s.live, s.dlq ++ [t.buried]⟩ := by
  have hfind : (s.live.put t.recovered).find t.id = some t.recovered := Table.find_put _ _
  have herase : (s.live.put t.recovered).erase t.id = s.live := Table.erase_put hs
  rw [Contents.apply_enqueue, Contents.apply_dead hfind, herase]
  rfl

/-- Entries that enqueue tasks of new identifiers, each of them marked as dead. -/
theorem foldl_dead (s : Contents) {D : List Task} (hs : ∀ t ∈ D, t.id ∉ s.live.vals.map Task.id) :
    (D.flatMap fun t => [.enqueue t, .dead t.id]).foldl Contents.apply s =
      ⟨s.live, s.dlq ++ D.map Task.buried⟩ := by
  induction D generalizing s with
  | nil => simp
  | cons t D ih =>
    obtain ⟨hts, hs⟩ := List.forall_mem_cons.mp hs
    have hstep := apply_enqueue_dead hts
    simp only [List.flatMap_cons, List.foldl_append, List.foldl_cons, List.foldl_nil]
    rw [hstep, ih ⟨s.live, s.dlq ++ [t.buried]⟩ hs, List.map_cons, List.append_assoc,
      List.singleton_append]

section Compacted

variable {L D : List Task}

/-- **The compacted log stands for what it was made from**: the live tasks `L` and the
dead-letter queue `D`, if no two tasks have the same identifier. -/
theorem fold_compacted (h : (L.map Task.id ++ D.map Task.id).Nodup) :
    (fold (L.map .enqueue ++ D.flatMap fun t => [.enqueue t, .dead t.id])).live.vals.Perm
        (L.map Task.recovered) ∧
      (fold (L.map .enqueue ++ D.flatMap fun t => [.enqueue t, .dead t.id])).dlq =
        D.map Task.buried := by
  obtain ⟨hL, -, hdisj⟩ := List.nodup_append.mp h
  obtain ⟨hlive, hdlq⟩ := foldl_enqueue .empty hL fun t _ ht => (by cases ht)
  rw [fold, List.foldl_append, foldl_dead]
  · refine ⟨hlive.trans ?_, ?_⟩
    · rw [Contents.empty, Table.empty, List.append_nil]
    · rw [hdlq]
      rfl
  · intro t ht hmem
    obtain ⟨u, hu, hid⟩ := List.mem_map.mp hmem
    have hu := hlive.mem_iff.mp hu
    rw [Contents.empty, Table.empty, List.append_nil] at hu
    obtain ⟨v, hv, rfl⟩ := List.mem_map.mp hu
    exact hdisj _ (List.mem_map.mpr ⟨v, hv, rfl⟩) _ (List.mem_map.mpr ⟨t, ht, rfl⟩) hid

theorem enqueuedIDs_compacted (L D : List Task) :
    enqueuedIDs (L.map .enqueue ++ D.flatMap fun t => [.enqueue t, .dead t.id]) =
      L.map Task.id ++ D.map Task.id := by
  rw [enqueuedIDs, List.filterMap_append]
  congr 1
  · rw [List.filterMap_map]
    exact congrFun List.filterMap_eq_map L
  · induction D with
    | nil => rfl
    | cons t D ih => exact congrArg (t.id :: ·) ih

end Compacted

end SingleNode

end DistQueue
