import DistQueue.Run
import DistQueue.Server.ClusterServer
import Mathlib.Data.List.DropRight
import Mathlib.Data.List.Nodup
import Mathlib.Data.Finset.Card
import Mathlib.Data.Nat.Find
import Mathlib.Data.Nat.ModEq

/-!
# The failover client

The client goes over the addresses of the nodes of a cluster. It stays with the one that answers,
follows the hint of a node that is not the leader, and goes on to the next address when a node is
down. All its calls share the list of addresses and the place in it under a lock, so that what
interleaves is the sections between taking the lock and releasing it; each call is a machine of
its own (`DistQueue.Client.Call`), and the client runs any number of them
(`DistQueue.Client.Shared`).

What a section learns from outside is part of its label (`DistQueue.Client.Input`): whether the
context is done, whether an address can be dialled, what the node has replied.

* Whatever the calls do to each other, no index is out of range, the addresses stay distinct, no
  call makes more than `DistQueue.Client.maxAttempts` requests, and what it returns is what it was
  told (`DistQueue.Client.calls_stay_in_range`).
* A call that has the client to itself finds the leader, if no more than four of the addresses
  are of no help (`DistQueue.Client.call_finds_leader`).
* Calls that run at the same time may keep each other from it: if there are as many of them as
  addresses, all of them may spend all their attempts on one node that is down
  (`DistQueue.Client.calls_starve_each_other`).
-/

namespace DistQueue

namespace Client

/-! ### Errors and hints -/

/-- The status codes that occur. -/
inductive Code
  | canceled
  | unknown
  | invalidArgument
  | deadlineExceeded
  | notFound
  | failedPrecondition
  | internal
  | unavailable
  deriving DecidableEq

/-- The error of a call: its status code and its message. -/
structure Error where
  code : Code
  message : String
  deriving DecidableEq

/-- A status of the server, as the client sees it. -/
def Error.ofStatus (st : Server.Status) : Error where
  code := match st.code with
    | .invalidArgument => .invalidArgument
    | .notFound => .notFound
    | .failedPrecondition => .failedPrecondition
    | .deadlineExceeded => .deadlineExceeded
  message := st.message

/-- What follows the first occurrence of a pattern. -/
def afterFirst (pattern : List Char) : List Char → Option (List Char)
  | [] => none
  | c :: cs =>
    if pattern.isPrefixOf (c :: cs) then some ((c :: cs).drop pattern.length)
    else afterFirst pattern cs

/-- The white space of `strings.TrimSpace`. -/
def isSpace (c : Char) : Bool :=
  let n := c.toNat
  (9 ≤ n && n ≤ 13) || n = 0x20 || n = 0x85 || n = 0xA0 || n = 0x1680 ||
    (0x2000 ≤ n && n ≤ 0x200A) || n = 0x2028 || n = 0x2029 || n = 0x202F || n = 0x205F ||
    n = 0x3000

/-- `strings.TrimSpace`. -/
def trimSpace (s : List Char) : List Char := (s.dropWhile isSpace).rdropWhile isSpace

/-- The redirect target in the message of an error, `""` if there is none. -/
def leaderHint (message : String) : String :=
  match afterFirst "leader=".toList message.toList with
  | some rest => String.ofList (trimSpace rest)
  | none => ""

/-- The address that a redirect names is what follows `leader=`. -/
theorem afterFirst_leader (rest : List Char) :
    afterFirst "leader=".toList ("not leader; leader=".toList ++ rest) = some rest := by
  rfl

/-- **The client reads off the redirect what the server has put in**, up to white space around
it. -/
theorem leaderHint_redirect {cfg : Server.ClusterConfig} {hint : Raft.NodeID} {addr : String}
    (haddr : cfg.clientAddrs hint = some addr) (hhint : hint ≠ "") :
    leaderHint (Server.redirect cfg hint).message = String.ofList (trimSpace addr.toList) := by
  rw [Server.redirect, haddr]
  simp only [if_pos hhint]
  rw [leaderHint, String.toList_append, afterFirst_leader]

/-- A redirect without an address has no hint. -/
theorem leaderHint_redirect_unknown {cfg : Server.ClusterConfig} {hint : Raft.NodeID}
    (hhint : cfg.clientAddrs hint = none ∨ hint = "") :
    leaderHint (Server.redirect cfg hint).message = "" := by
  have hunknown : leaderHint "not leader; leader unknown" = "" := by decide +kernel
  rw [Server.redirect]
  cases haddr : cfg.clientAddrs hint with
  | none => exact hunknown
  | some addr =>
    rcases hhint with hnone | rfl
    · cases haddr.symm.trans hnone
    · exact hunknown

/-- A redirect is a failed precondition. -/
theorem redirect_code (cfg : Server.ClusterConfig) (hint : Raft.NodeID) :
    (Server.redirect cfg hint).code = .failedPrecondition := by
  unfold Server.redirect
  split
  · split <;> rfl
  · rfl

/-! ### The shared state -/

/-- The addresses, the place of the node that is taken for the leader, and the addresses with a
connection. -/
structure Failover where
  addrs : List String
  cur : ℕ
  conns : List String

/-- A client over the given addresses. -/
def newFailover (addrs : List String) : Failover := ⟨addrs, 0, []⟩

namespace Failover

/-- `Close`: the connections are dropped, and the addresses are kept. -/
def close (f : Failover) : Failover := { f with conns := [] }

/-- The address of the current node, with a connection to it; `dial` is the error of making one,
should it be needed. An index out of range panics. -/
def current (f : Failover) (dial : Option Error) : Option (Except Error String × Failover) := do
  let addr ← f.addrs[f.cur]?
  if addr ∈ f.conns then return (.ok addr, f)
  match dial with
  | some err => return (.error err, f)
  | none => return (.ok addr, { f with conns := addr :: f.conns })

/-- Rotates to the next node, or jumps to the hint, which is a new address if it is not among the
known ones. The remainder modulo zero panics. -/
def advance (f : Failover) (hint : String) : Option Failover :=
  if hint ≠ "" then
    match f.addrs.findIdx? (· = hint) with
    | some i => some { f with cur := i }
    | none => some { f with addrs := f.addrs ++ [hint], cur := f.addrs.length }
  else if f.addrs.length = 0 then none
  else some { f with cur := (f.cur + 1) % f.addrs.length }

end Failover

/-! ### One call -/

/-- How often a call is attempted before its last error is returned. -/
def maxAttempts : ℕ := 6

/-- Where a call is. A reply that makes it go on to another node is processed under the lock. -/
inductive Call (R : Type)
  /-- About to begin the attempt. -/
  | next (attempt : ℕ) (lastErr : Option Error)
  /-- The current address could not be dialled. -/
  | refused (attempt : ℕ) (err : Error)
  /-- Waiting for the reply. -/
  | calling (attempt : ℕ) (addr : String)
  /-- In the pause after a node that is down. -/
  | pausing (attempt : ℕ) (err : Error)
  | returned (r : Except Error R)

/-- What a section of a call is told. -/
inductive Input (R : Type)
  | go (ctxErr dial : Option Error)
  | advance
  | reply (r : Except Error R)
  | woken (ctxErr : Option Error)

variable {R : Type}

/-- One section of `do`. The last error is set once there has been an attempt. -/
def Call.step (f : Failover) : Call R → Input R → Option (Failover × Call R)
  | .next attempt lastErr, .go ctxErr dial =>
    if attempt < maxAttempts then
      match ctxErr with
      | some err => some (f, .returned (.error err))
      | none => (f.current dial).map fun
        | (.ok addr, f) => (f, .calling attempt addr)
        | (.error err, f) => (f, .refused attempt err)
    else lastErr.map fun err => (f, .returned (.error err))
  | .refused attempt err, .advance =>
    (f.advance "").map fun f => (f, .next (attempt + 1) (some err))
  | .calling _ _, .reply (.ok r) => some (f, .returned (.ok r))
  | .calling attempt _, .reply (.error err) =>
    match err.code with
    | .failedPrecondition =>
      (f.advance (leaderHint err.message)).map fun f => (f, .next (attempt + 1) (some err))
    | .unavailable | .deadlineExceeded => (f.advance "").map fun f => (f, .pausing attempt err)
    | _ => some (f, .returned (.error err))
  | .pausing attempt err, .woken none => some (f, .next (attempt + 1) (some err))
  | .pausing _ _, .woken (some err) => some (f, .returned (.error err))
  | _, _ => none

/-- A call succeeds with the reply of a node. -/
theorem Call.step_ok {f f' : Failover} {c : Call R} {i : Input R} {r : R}
    (h : c.step f i = some (f', .returned (.ok r))) : i = .reply (.ok r) := by
  unfold Call.step at h
  split at h
  case h_1 =>
    split at h
    · split at h
      · cases h
      · obtain ⟨⟨o, g⟩, -, h⟩ := Option.map_eq_some_iff.mp h
        cases o <;> cases h
    · obtain ⟨err, -, h⟩ := Option.map_eq_some_iff.mp h
      cases h
  case h_2 =>
    obtain ⟨g, -, h⟩ := Option.map_eq_some_iff.mp h
    cases h
  case h_3 =>
    cases h
    rfl
  case h_4 =>
    split at h
    case h_4 => cases h
    all_goals
      obtain ⟨g, -, h⟩ := Option.map_eq_some_iff.mp h
      cases h
  all_goals cases h

/-! ### All calls -/

/-- The client with its calls, and the requests that each of them has made. -/
structure Shared (R : Type) where
  failover : Failover
  calls : List (Call R)
  requests : List (ℕ × String)

/-- What may happen to a client that several goroutines share. -/
inductive Move (R : Type)
  /-- A new call. -/
  | call
  /-- A section of the `k`-th call. -/
  | step (k : ℕ) (i : Input R)
  | close

/-- The request a call has just made. -/
def Call.request (k : ℕ) : Call R → List (ℕ × String)
  | .calling _ addr => [(k, addr)]
  | _ => []

/-- **One section of one call**, or a new call, or the end of the client. -/
def Shared.step (s : Shared R) : Move R → Option (Shared R)
  | .call => some { s with calls := s.calls ++ [.next 0 none] }
  | .step k i => do
    let c ← s.calls[k]?
    let r ← c.step s.failover i
    return { failover := r.1, calls := s.calls.set k r.2, requests := s.requests ++ r.2.request k }
  | .close => some { s with failover := s.failover.close }

/-- A client with the given addresses, and no calls. -/
def Shared.start (addrs : List String) : Shared R := ⟨newFailover addrs, [], []⟩

/-! ### Any interleaving -/

/-- **The shared state of a client** that was made for `addrs`. -/
structure Failover.Valid (addrs : List String) (f : Failover) : Prop where
  range : f.cur < f.addrs.length
  grown : addrs <+: f.addrs
  conns : ∀ addr ∈ f.conns, addr ∈ f.addrs
  nodup : addrs.Nodup → f.addrs.Nodup

variable {addrs : List String} {f f' : Failover} {c c' : Call R} {i : Input R}

namespace Failover

/-- A new client starts at its first address. -/
theorem valid_newFailover (hne : addrs ≠ []) : (newFailover addrs).Valid addrs where
  range := List.length_pos_of_ne_nil hne
  grown := List.prefix_refl _
  conns _ h := absurd h List.not_mem_nil
  nodup h := h

/-- The current node is one of the addresses. -/
theorem Valid.current (h : f.Valid addrs) (dial : Option Error) :
    ∃ r f', f.current dial = some (r, f') ∧ f'.Valid addrs ∧ f'.addrs = f.addrs ∧
      f'.cur = f.cur ∧ ((∃ addr, r = .ok addr ∧ f.addrs[f.cur]? = some addr) ∨
        ∃ err, r = .error err ∧ dial = some err) := by
  obtain ⟨addr, haddr⟩ : ∃ addr, f.addrs[f.cur]? = some addr :=
    ⟨_, List.getElem?_eq_getElem h.range⟩
  simp only [Failover.current, haddr, Option.bind_eq_bind, Option.bind_some]
  split
  · exact ⟨_, _, rfl, h, rfl, rfl, .inl ⟨addr, rfl, rfl⟩⟩
  · cases dial with
    | some err => exact ⟨_, _, rfl, h, rfl, rfl, .inr ⟨err, rfl, rfl⟩⟩
    | none =>
      refine ⟨_, _, rfl, ⟨h.range, h.grown, ?_, h.nodup⟩, rfl, rfl, .inl ⟨addr, rfl, rfl⟩⟩
      intro addr' hmem
      rcases List.mem_cons.mp hmem with rfl | hmem
      · exact List.mem_of_getElem? haddr
      · exact h.conns addr' hmem

/-- **Every rotation and every jump** stays in the list, which may get longer. -/
theorem Valid.advance (h : f.Valid addrs) (hint : String) :
    ∃ f', f.advance hint = some f' ∧ f'.Valid addrs ∧ f.addrs <+: f'.addrs := by
  have hpos : 0 < f.addrs.length := Nat.zero_lt_of_lt h.range
  rw [Failover.advance]
  by_cases hhint : hint ≠ ""
  · rw [if_pos hhint]
    cases hfind : f.addrs.findIdx? (· = hint) with
    | some i =>
      obtain ⟨hi, -⟩ := List.findIdx?_eq_some_iff_getElem.mp hfind
      exact ⟨_, rfl, ⟨hi, h.grown, h.conns, h.nodup⟩, List.prefix_refl _⟩
    | none =>
      have hnew : hint ∉ f.addrs := fun hmem => by
        simpa using List.findIdx?_eq_none_iff.mp hfind hint hmem
      refine ⟨_, rfl, ⟨?_, h.grown.trans (List.prefix_append _ _), fun addr hmem => ?_,
        fun hnodup => ?_⟩, List.prefix_append _ _⟩
      · rw [List.length_append]
        exact Nat.lt_succ_self _
      · exact List.mem_append_left _ (h.conns addr hmem)
      · exact List.nodup_append.mpr ⟨h.nodup hnodup, List.nodup_singleton _,
          fun x hx y hy => by
            rw [List.mem_singleton.mp hy]
            exact ne_of_mem_of_not_mem hx hnew⟩
  · rw [if_neg hhint, if_neg hpos.ne']
    exact ⟨_, rfl, ⟨Nat.mod_lt _ hpos, h.grown, h.conns, h.nodup⟩, List.prefix_refl _⟩

/-- A closed client still has its addresses. -/
theorem Valid.close (h : f.Valid addrs) : f.close.Valid addrs :=
  ⟨h.range, h.grown, fun _ hmem => absurd hmem List.not_mem_nil, h.nodup⟩

end Failover

/-- The inputs a call can be given where it is. -/
def Call.Expects : Call R → Input R → Prop
  | .next _ _, .go _ _ => True
  | .refused _ _, .advance => True
  | .calling _ _, .reply _ => True
  | .pausing _ _, .woken _ => True
  | _, _ => False

/-- **A call with its attempts**: it has made `m` requests. -/
def Call.Within (f : Failover) (m : ℕ) : Call R → Prop
  | .next attempt lastErr => m ≤ attempt ∧ attempt ≤ maxAttempts ∧ (0 < attempt → lastErr.isSome)
  | .refused attempt _ => m ≤ attempt ∧ attempt < maxAttempts
  | .calling attempt addr => m ≤ attempt + 1 ∧ attempt < maxAttempts ∧ addr ∈ f.addrs
  | .pausing attempt _ => m ≤ attempt + 1 ∧ attempt < maxAttempts
  | .returned _ => m ≤ maxAttempts

theorem Call.Within.mono {m : ℕ} (h : c.Within f m) (hgrown : f.addrs <+: f'.addrs) :
    c.Within f' m := by
  cases c with
  | calling attempt addr => exact ⟨h.1, h.2.1, hgrown.subset h.2.2⟩
  | _ => exact h

/-- No call makes more attempts than there are. -/
theorem Call.Within.le {m : ℕ} (h : c.Within f m) : m ≤ maxAttempts := by
  cases c with
  | next attempt lastErr => exact h.1.trans h.2.1
  | refused attempt err => exact h.1.trans h.2.le
  | calling attempt addr => exact h.1.trans h.2.1
  | pausing attempt err => exact h.1.trans h.2
  | returned r => exact h

/-- The error or result a call has been told last. -/
def Call.last : Call R → Option (Except Error R)
  | .next _ lastErr => lastErr.map .error
  | .refused _ err | .pausing _ err => some (.error err)
  | .calling _ _ => none
  | .returned r => some r

/-- Whether an input tells a call the given error or result. -/
def Input.Tells (r : Except Error R) : Input R → Prop
  | .go ctxErr dial => ∃ err, r = .error err ∧ (ctxErr = some err ∨ dial = some err)
  | .advance => False
  | .reply r' => r' = r
  | .woken ctxErr => ∃ err, r = .error err ∧ ctxErr = some err

/-- **One section of a call** keeps the shared state valid and makes at most the request of its
attempt; what the call has been told last is new, or is what it was told before. -/
theorem Call.step_within {m : ℕ} (hf : f.Valid addrs) (h : c.Within f m) {k : ℕ}
    (hs : c.step f i = some (f', c')) :
    f'.Valid addrs ∧ f.addrs <+: f'.addrs ∧ c'.Within f' (m + (c'.request k).length) ∧
      ∀ r, c'.last = some r → i.Tells r ∨ c.last = some r := by
  cases c with
  | next attempt lastErr =>
    cases i with
    | go ctxErr dial =>
      obtain ⟨hm, hle, hlast⟩ := h
      simp only [Call.step] at hs
      split at hs
      · rename_i hlt
        cases ctxErr with
        | some err =>
          cases hs
          exact ⟨hf, List.prefix_refl _, hm.trans hle, fun r hr => .inl ⟨err, by cases hr; rfl,
            .inl rfl⟩⟩
        | none =>
          obtain ⟨r, f'', hcur, hf'', haddrs, -, ⟨addr, rfl, haddr⟩ | ⟨err, rfl, hdial⟩⟩ :=
            hf.current dial
          · rw [hcur] at hs
            cases hs
            refine ⟨hf'', haddrs ▸ List.prefix_refl _, ⟨Nat.succ_le_succ hm, hlt, ?_⟩,
              fun r hr => by cases hr⟩
            rw [haddrs]
            exact List.mem_of_getElem? haddr
          · rw [hcur] at hs
            cases hs
            exact ⟨hf'', haddrs ▸ List.prefix_refl _, ⟨hm, hlt⟩,
              fun r hr => .inl ⟨err, by cases hr; rfl, .inr hdial⟩⟩
      · obtain ⟨err, rfl, hs⟩ := Option.map_eq_some_iff.mp hs
        cases hs
        exact ⟨hf, List.prefix_refl _, hm.trans hle, fun r hr => .inr (by cases hr; rfl)⟩
    | _ => cases hs
  | refused attempt err =>
    cases i with
    | advance =>
      obtain ⟨f'', hadv, hf'', hgrown⟩ := hf.advance ""
      simp only [Call.step, hadv] at hs
      cases hs
      exact ⟨hf'', hgrown, ⟨h.1.trans (Nat.le_succ _), h.2, fun _ => rfl⟩,
        fun r hr => .inr hr⟩
    | _ => cases hs
  | calling attempt addr =>
    obtain ⟨hm, hlt, -⟩ := h
    cases i with
    | reply r =>
      cases r with
      | ok r =>
        cases hs
        exact ⟨hf, List.prefix_refl _, hm.trans hlt, fun r hr => .inl (by cases hr; rfl)⟩
      | error err =>
        have hnext : ∀ hint g, f.advance hint = some g → g.Valid addrs ∧ f.addrs <+: g.addrs := by
          intro hint g hg
          obtain ⟨f'', hadv, hf'', hgrown⟩ := hf.advance hint
          cases hadv.symm.trans hg
          exact ⟨hf'', hgrown⟩
        simp only [Call.step] at hs
        split at hs
        · obtain ⟨g, hg, hs⟩ := Option.map_eq_some_iff.mp hs
          cases hs
          obtain ⟨hvalid, hgrown⟩ := hnext _ _ hg
          exact ⟨hvalid, hgrown, ⟨hm, hlt, fun _ => rfl⟩, fun r hr => .inl (by cases hr; rfl)⟩
        · obtain ⟨g, hg, hs⟩ := Option.map_eq_some_iff.mp hs
          cases hs
          obtain ⟨hvalid, hgrown⟩ := hnext _ _ hg
          exact ⟨hvalid, hgrown, ⟨hm, hlt⟩, fun r hr => .inl (by cases hr; rfl)⟩
        · obtain ⟨g, hg, hs⟩ := Option.map_eq_some_iff.mp hs
          cases hs
          obtain ⟨hvalid, hgrown⟩ := hnext _ _ hg
          exact ⟨hvalid, hgrown, ⟨hm, hlt⟩, fun r hr => .inl (by cases hr; rfl)⟩
        · cases hs
          exact ⟨hf, List.prefix_refl _, hm.trans hlt, fun r hr => .inl (by cases hr; rfl)⟩
    | _ => cases hs
  | pausing attempt err =>
    cases i with
    | woken ctxErr =>
      cases ctxErr with
      | none =>
        cases hs
        exact ⟨hf, List.prefix_refl _, ⟨h.1, h.2, fun _ => rfl⟩, fun r hr => .inr hr⟩
      | some err' =>
        cases hs
        exact ⟨hf, List.prefix_refl _, h.1.trans h.2,
          fun r hr => .inl ⟨err', by cases hr; rfl, rfl⟩⟩
    | _ => cases hs
  | returned r => cases i <;> cases hs

/-- **No section panics.** -/
theorem Call.step_isSome {m : ℕ} (hf : f.Valid addrs) (h : c.Within f m) (hi : c.Expects i) :
    (c.step f i).isSome := by
  have hadvance : ∀ hint, (f.advance hint).isSome := fun hint => by
    obtain ⟨f', hadv, -⟩ := hf.advance hint
    rw [hadv]
    rfl
  cases c with
  | next attempt lastErr =>
    cases i with
    | go ctxErr dial =>
      simp only [Call.step]
      split
      · cases ctxErr with
        | some err => rfl
        | none =>
          obtain ⟨r, f', hcur, -⟩ := hf.current dial
          simp only [hcur, Option.map_some, Option.isSome_some]
      · rw [Option.isSome_map]
        refine h.2.2 ?_
        have : 0 < maxAttempts := by decide
        omega
    | _ => exact hi.elim
  | refused attempt err =>
    cases i with
    | advance =>
      simp only [Call.step, Option.isSome_map]
      exact hadvance ""
    | _ => exact hi.elim
  | calling attempt addr =>
    cases i with
    | reply r =>
      cases r with
      | ok r => rfl
      | error err =>
        simp only [Call.step]
        split
        all_goals simp only [Option.isSome_map, Option.isSome_some, hadvance]
    | _ => exact hi.elim
  | pausing attempt err =>
    cases i with
    | woken ctxErr => cases ctxErr <;> rfl
    | _ => exact hi.elim
  | returned r => cases i <;> exact hi.elim

/-- What a run of the client keeps. -/
structure Shared.Sound (addrs : List String) (ms : List (Move R)) (s : Shared R) : Prop where
  valid : s.failover.Valid addrs
  requests : ∀ k addr, (k, addr) ∈ s.requests → k < s.calls.length ∧ addr ∈ s.failover.addrs
  within : ∀ (k : ℕ) c, s.calls[k]? = some c →
    c.Within s.failover (s.requests.countP fun q => q.1 = k)
  told : ∀ (k : ℕ) c r, s.calls[k]? = some c → c.last = some r →
    ∃ i, Move.step k i ∈ ms ∧ i.Tells r

variable {ms : List (Move R)} {s s' : Shared R}

theorem Shared.sound_start (hne : addrs ≠ []) :
    (Shared.start addrs).Sound addrs ([] : List (Move R)) where
  valid := Failover.valid_newFailover hne
  requests _ _ h := absurd h List.not_mem_nil
  within _ _ h := by cases h
  told _ _ _ h := by cases h

/-- The requests of a call are recorded under its number. -/
theorem Call.request_fst (k : ℕ) (c : Call R) : ∀ q ∈ c.request k, q.1 = k := by
  intro q hq
  cases c with
  | calling attempt addr => rw [List.mem_singleton.mp hq]
  | _ => cases hq

/-- A request goes to an address of the list. -/
theorem Call.request_addr {m k : ℕ} (h : c.Within f m) : ∀ q ∈ c.request k, q.2 ∈ f.addrs := by
  intro q hq
  cases c with
  | calling attempt addr =>
    rw [List.mem_singleton.mp hq]
    exact h.2.2
  | _ => cases hq

/-- **Every move of every call.** -/
theorem Shared.Sound.step {x : Move R} (h : s.Sound addrs ms) (hs : s.step x = some s') :
    s'.Sound addrs (ms ++ [x]) := by
  have hold : ∀ {k : ℕ} {r : Except Error R}, (∃ i, Move.step k i ∈ ms ∧ i.Tells r) →
      ∃ i, Move.step k i ∈ ms ++ [x] ∧ i.Tells r :=
    fun ⟨i, hi, hr⟩ => ⟨i, List.mem_append_left _ hi, hr⟩
  cases x with
  | call =>
    cases hs
    have hnew : ∀ {k : ℕ} {c : Call R}, (s.calls ++ [.next 0 none])[k]? = some c →
        s.calls[k]? = some c ∨ k = s.calls.length ∧ c = .next 0 none := by
      intro k c hc
      rcases Nat.lt_trichotomy k s.calls.length with hlt | rfl | hgt
      · rw [List.getElem?_append_left hlt] at hc
        exact .inl hc
      · rw [List.getElem?_concat_length] at hc
        exact .inr ⟨rfl, (Option.some.inj hc).symm⟩
      · rw [List.getElem?_eq_none (by simpa using Nat.succ_le_of_lt hgt)] at hc
        cases hc
    refine ⟨h.valid, fun k addr hmem => ?_, fun k c hc => ?_, fun k c r hc hr => ?_⟩
    · obtain ⟨hk, haddr⟩ := h.requests k addr hmem
      exact ⟨by simpa using Nat.lt_succ_of_lt hk, haddr⟩
    · rcases hnew hc with hc | ⟨rfl, rfl⟩
      · exact h.within k c hc
      · -- there is no request of the new call yet
        refine ⟨Nat.le_of_eq (List.countP_eq_zero.mpr fun q hq => ?_), Nat.zero_le _,
          fun hpos => absurd hpos (Nat.lt_irrefl 0)⟩
        simpa using (h.requests q.1 q.2 hq).1.ne
    · rcases hnew hc with hc | ⟨rfl, rfl⟩
      · exact hold (h.told k c r hc hr)
      · cases hr
  | step k i =>
    obtain ⟨c, hc, hs⟩ := Option.bind_eq_some_iff.mp hs
    obtain ⟨⟨f', c'⟩, hstep, hs⟩ := Option.bind_eq_some_iff.mp hs
    cases hs
    obtain ⟨hvalid, hgrown, hwithin, hlast⟩ :=
      Call.step_within h.valid (h.within k c hc) (k := k) hstep
    have hk : k < s.calls.length := (List.getElem?_eq_some_iff.mp hc).1
    have hcases : ∀ {j : ℕ} {d : Call R}, (s.calls.set k c')[j]? = some d →
        j ≠ k ∧ s.calls[j]? = some d ∨ j = k ∧ d = c' := by
      intro j d hd
      by_cases hjk : k = j
      · subst hjk
        rw [List.getElem?_set_self hk] at hd
        exact .inr ⟨rfl, (Option.some.inj hd).symm⟩
      · rw [List.getElem?_set_ne hjk] at hd
        exact .inl ⟨fun hkj => hjk hkj.symm, hd⟩
    refine ⟨hvalid, fun j addr hmem => ?_, fun j d hd => ?_, fun j d r hd hr => ?_⟩
    · rw [List.length_set]
      rcases List.mem_append.mp hmem with hmem | hmem
      · obtain ⟨hj, haddr⟩ := h.requests j addr hmem
        exact ⟨hj, hgrown.subset haddr⟩
      · refine ⟨?_, Call.request_addr hwithin _ hmem⟩
        rw [show j = k from Call.request_fst k c' _ hmem]
        exact hk
    · dsimp only
      rw [List.countP_append]
      rcases hcases hd with ⟨hjk, hd⟩ | ⟨rfl, rfl⟩
      · have hnone : ((c'.request k).countP fun q => q.1 = j) = 0 := by
          refine List.countP_eq_zero.mpr fun q hq => ?_
          rw [Call.request_fst k c' q hq]
          simpa using fun hkj => hjk hkj.symm
        rw [hnone]
        exact (h.within j d hd).mono hgrown
      · have hall : ((d.request j).countP fun q => q.1 = j) = (d.request j).length :=
          List.countP_eq_length.mpr fun q hq => by simpa using Call.request_fst j d q hq
        rwa [hall]
    · rcases hcases hd with ⟨-, hd⟩ | ⟨rfl, rfl⟩
      · exact hold (h.told j d r hd hr)
      · rcases hlast r hr with htells | hr
        · exact ⟨i, List.mem_append_right _ (List.mem_singleton_self _), htells⟩
        · exact hold (h.told j c r hc hr)
  | close =>
    cases hs
    exact ⟨h.valid.close, h.requests, h.within, fun k c r hc hr => hold (h.told k c r hc hr)⟩

/-- **The addresses only grow**, whatever a move does. -/
theorem Shared.Sound.grown {x : Move R} (h : s.Sound addrs ms) (hs : s.step x = some s') :
    s.failover.addrs <+: s'.failover.addrs := by
  cases x with
  | call | close =>
    cases hs
    exact List.prefix_refl _
  | step k i =>
    obtain ⟨c, hc, hs⟩ := Option.bind_eq_some_iff.mp hs
    obtain ⟨⟨f', c'⟩, hstep, hs⟩ := Option.bind_eq_some_iff.mp hs
    cases hs
    exact (Call.step_within h.valid (h.within k c hc) (k := k) hstep).2.1

/-- What a run keeps, from any moment on. -/
theorem Shared.Sound.exec {ms' : List (Move R)} (h : s.Sound addrs ms)
    (hs : Run.exec Shared.step s ms' = some s') :
    s'.Sound addrs (ms ++ ms') ∧ s.failover.addrs <+: s'.failover.addrs := by
  refine Run.induction (P := fun xs v => v.Sound addrs (ms ++ xs) ∧
    s.failover.addrs <+: v.failover.addrs) ⟨?_, List.prefix_refl _⟩ ?_ hs
  · rwa [List.append_nil]
  · rintro xs v x v' - ⟨hv, hgrown⟩ hx
    rw [← List.append_assoc]
    exact ⟨hv.step hx, hgrown.trans (hv.grown hx)⟩

/-- **Any number of concurrent calls.** In every run of a client that was made for at least one
address, the current node is one of the addresses, to which those of any earlier moment have only
been added, and if the addresses were distinct then they are still; every section that a call
comes to can run; no call has made more than `maxAttempts` requests, all of them to addresses of
the client; and a call that has returned has returned a reply of a node to it, or the error of its
context or of a dial. -/
theorem calls_stay_in_range {earlier : Shared R} {ms' : List (Move R)} (hne : addrs ≠ [])
    (hearlier : Run.exec Shared.step (Shared.start addrs) ms = some earlier)
    (hs : Run.exec Shared.step earlier ms' = some s) :
    earlier.failover.addrs <+: s.failover.addrs ∧ s.failover.Valid addrs ∧
      (∀ k addr, (k, addr) ∈ s.requests → addr ∈ s.failover.addrs) ∧
      ∀ (k : ℕ) c, s.calls[k]? = some c →
        (s.requests.countP fun q => q.1 = k) ≤ maxAttempts ∧
        (∀ i, c.Expects i → (s.step (.step k i)).isSome) ∧
        ∀ r, c = .returned r → ∃ i, Move.step k i ∈ ms ++ ms' ∧ i.Tells r := by
  obtain ⟨hsound, -⟩ := (Shared.sound_start hne).exec hearlier
  obtain ⟨hsound, hgrown⟩ := hsound.exec hs
  refine ⟨hgrown, hsound.valid, fun k addr hmem => (hsound.requests k addr hmem).2,
    fun k c hc => ?_⟩
  refine ⟨(hsound.within k c hc).le, fun i hi => ?_, fun r hr => ?_⟩
  · obtain ⟨r, hr⟩ := Option.isSome_iff_exists.mp
      (Call.step_isSome hsound.valid (hsound.within k c hc) hi)
    simp only [Shared.step, hc, hr, Option.bind_eq_bind, Option.bind_some]
    rfl
  · subst hr
    exact hsound.told k _ r hc rfl

/-- The first of two calls is redirected, and the other follows it to the leader. -/
def redirected : List (Move ℕ) :=
  [.call, .call, .step 0 (.go none none),
    .step 0 (.reply (.error ⟨.failedPrecondition, "not leader; leader=b:2"⟩)),
    .step 1 (.go none none), .step 1 (.reply (.ok 5))]

theorem calls_stay_in_range_redirected :
    ∃ s, Run.exec Shared.step (Shared.start ["a:1"]) redirected = some s ∧
      s.requests = [(0, "a:1"), (1, "b:2")] ∧ s.failover.addrs = ["a:1", "b:2"] ∧
      ["a:1"] <+: s.failover.addrs ∧ s.failover.Valid ["a:1"] ∧
      (∀ k addr, (k, addr) ∈ s.requests → addr ∈ s.failover.addrs) ∧
      ∀ (k : ℕ) c, s.calls[k]? = some c →
        (s.requests.countP fun q => q.1 = k) ≤ maxAttempts ∧
        (∀ i, c.Expects i → (s.step (.step k i)).isSome) ∧
        ∀ r, c = .returned r → ∃ i, Move.step k i ∈ redirected ∧ i.Tells r := by
  have hend : (Run.exec Shared.step (Shared.start ["a:1"]) redirected).map
      (fun s => (s.requests, s.failover.addrs)) =
      some ([(0, "a:1"), (1, "b:2")], ["a:1", "b:2"]) := by decide +kernel
  obtain ⟨s, hs, hend⟩ := Option.map_eq_some_iff.mp hend
  obtain ⟨hrequests, haddrs⟩ := Prod.mk.inj hend
  exact ⟨s, hs, hrequests, haddrs, calls_stay_in_range (List.cons_ne_nil _ _) (Run.exec_nil _) hs⟩

/-! ### A call that has the client to itself -/

/-- What a call is told next, if every node replies by `answer`, every address can be dialled and
the context is never done. -/
def Call.input (answer : String → Except Error R) : Call R → Input R
  | .next _ _ => .go none none
  | .refused _ _ | .returned _ => .advance
  | .calling _ addr => .reply (answer addr)
  | .pausing _ _ => .woken none

/-- The next section of the call, with nothing in between. -/
def Follows (answer : String → Except Error R) (x y : Failover × Call R) : Prop :=
  x.2.step x.1 (x.2.input answer) = some y

/-- A reply that is not about where the request should go. -/
def Settles : Except Error R → Prop
  | .ok _ => True
  | .error err => err.code ≠ .failedPrecondition ∧ err.code ≠ .unavailable ∧
      err.code ≠ .deadlineExceeded

/-- A reply that names the leader. -/
def Points (leader : String) : Except Error R → Prop
  | .ok _ => False
  | .error err => err.code = .failedPrecondition ∧ leaderHint err.message = leader

/-- A reply that only says to try elsewhere. -/
def Unhelpful : Except Error R → Prop
  | .ok _ => False
  | .error err => err.code = .unavailable ∨ err.code = .deadlineExceeded ∨
      err.code = .failedPrecondition ∧ leaderHint err.message = ""

/-- **The redirect of a node that knows the leader names it.** -/
theorem points_redirect {cfg : Server.ClusterConfig} {hint : Raft.NodeID} {addr : String}
    (haddr : cfg.clientAddrs hint = some addr) (hhint : hint ≠ "")
    (htrim : trimSpace addr.toList = addr.toList) :
    Points addr (.error (.ofStatus (Server.redirect cfg hint)) : Except Error R) := by
  constructor
  · simp only [Error.ofStatus, redirect_code]
  · rw [Error.ofStatus, leaderHint_redirect haddr hhint, htrim, String.ofList_toList]

/-- **The redirect of any other node is of no help.** -/
theorem unhelpful_redirect {cfg : Server.ClusterConfig} {hint : Raft.NodeID}
    (hhint : cfg.clientAddrs hint = none ∨ hint = "") :
    Unhelpful (.error (.ofStatus (Server.redirect cfg hint)) : Except Error R) := by
  refine .inr (.inr ⟨?_, leaderHint_redirect_unknown hhint⟩)
  simp only [Error.ofStatus, redirect_code]

section Alone

open Relation

variable (answer : String → Except Error R) (attempt : ℕ) (lastErr : Option Error) {addr : String}

/-- A call that may make another attempt makes it, at the current address. -/
theorem follows_calling (haddr : f.addrs[f.cur]? = some addr) (hlt : attempt < maxAttempts) :
    ∃ g, Follows answer (f, .next attempt lastErr) (g, .calling attempt addr) ∧
      g.addrs = f.addrs ∧ g.cur = f.cur := by
  simp only [Follows, Call.input, Call.step, if_pos hlt, Failover.current, haddr,
    Option.bind_eq_bind, Option.bind_some]
  split
  · exact ⟨f, rfl, rfl, rfl⟩
  · exact ⟨_, rfl, rfl, rfl⟩

/-- The attempt at a node that settles the call is the last. -/
theorem attempt_settles (haddr : f.addrs[f.cur]? = some addr) (hlt : attempt < maxAttempts)
    (h : Settles (answer addr)) :
    ∃ g, ReflTransGen (Follows answer) (f, .next attempt lastErr) (g, .returned (answer addr)) ∧
      g.addrs[g.cur]? = some addr := by
  obtain ⟨g, hg, hsame, hcur⟩ := follows_calling answer attempt lastErr haddr hlt
  refine ⟨g, .tail (.single hg) ?_, by rw [hsame, hcur, haddr]⟩
  simp only [Follows, Call.input]
  cases hans : answer addr with
  | ok r => rfl
  | error err =>
    rw [hans] at h
    obtain ⟨hprecondition, hunavailable, hdeadline⟩ := h
    simp only [Call.step]

/-- After an attempt at a node that is of no help, the next address is tried. -/
theorem attempt_unhelpful (haddr : f.addrs[f.cur]? = some addr) (hlt : attempt < maxAttempts)
    (h : Unhelpful (answer addr)) :
    ∃ g lastErr', ReflTransGen (Follows answer) (f, .next attempt lastErr)
        (g, .next (attempt + 1) lastErr') ∧
      g.addrs = f.addrs ∧ g.cur = (f.cur + 1) % f.addrs.length := by
  obtain ⟨g, hg, hsame, hcur⟩ := follows_calling answer attempt lastErr haddr hlt
  have hpos : f.addrs.length ≠ 0 :=
    (Nat.zero_lt_of_lt (List.getElem?_eq_some_iff.mp haddr).1).ne'
  set g' : Failover := { g with cur := (f.cur + 1) % f.addrs.length } with hg'
  have hadvance : g.advance "" = some g' := by
    rw [Failover.advance, if_neg (by decide), hsame, if_neg hpos, hcur, hg', hsame]
  cases hans : answer addr with
  | ok r =>
    rw [hans] at h
    exact h.elim
  | error err =>
    rw [hans] at h
    have hreply : ∀ y, Call.step g (.calling attempt addr) (.reply (.error err)) = some y →
        Follows answer (g, .calling attempt addr) y := by
      intro y hy
      rw [Follows, Call.input, hans]
      exact hy
    rcases h with hcode | hcode | ⟨hcode, hhint⟩
    · refine ⟨g', some err, .tail (.tail (.single hg) (hreply (g', .pausing attempt err) ?_)) rfl,
        hsame, rfl⟩
      simp only [Call.step, hcode, hadvance, Option.map_some]
    · refine ⟨g', some err, .tail (.tail (.single hg) (hreply (g', .pausing attempt err) ?_)) rfl,
        hsame, rfl⟩
      simp only [Call.step, hcode, hadvance, Option.map_some]
    · refine ⟨g', some err, .tail (.single hg) (hreply _ ?_), hsame, rfl⟩
      simp only [Call.step, hcode, hhint, hadvance, Option.map_some]

/-- After an attempt at a node that names the leader, the leader is tried. -/
theorem attempt_points {leader : String} (haddr : f.addrs[f.cur]? = some addr)
    (hlt : attempt < maxAttempts) (hleader : leader ≠ "") (h : Points leader (answer addr)) :
    ∃ g lastErr', ReflTransGen (Follows answer) (f, .next attempt lastErr)
        (g, .next (attempt + 1) lastErr') ∧ g.addrs[g.cur]? = some leader := by
  obtain ⟨g, hg, -⟩ := follows_calling answer attempt lastErr haddr hlt
  obtain ⟨g', hadvance, hcur⟩ : ∃ g', g.advance leader = some g' ∧
      g'.addrs[g'.cur]? = some leader := by
    rw [Failover.advance, if_pos hleader]
    cases hfind : g.addrs.findIdx? (· = leader) with
    | some i =>
      obtain ⟨hi, heq, -⟩ := List.findIdx?_eq_some_iff_getElem.mp hfind
      exact ⟨_, rfl, by rw [List.getElem?_eq_getElem hi]; simpa using heq⟩
    | none => exact ⟨_, rfl, List.getElem?_concat_length⟩
  cases hans : answer addr with
  | ok r =>
    rw [hans] at h
    exact h.elim
  | error err =>
    rw [hans] at h
    obtain ⟨hcode, hhint⟩ := h
    refine ⟨g', some err, .tail (.single hg) ?_, hcur⟩
    simp only [Follows, Call.input, hans, Call.step, hcode, hhint, hadvance, Option.map_some]

/-- A row of nodes that are of no help. -/
theorem attempts_unhelpful (hrange : f.cur < f.addrs.length) {d : ℕ}
    (hd : attempt + d ≤ maxAttempts)
    (h : ∀ j < d, ∀ addr, f.addrs[(f.cur + j) % f.addrs.length]? = some addr →
      Unhelpful (answer addr)) :
    ∃ g lastErr', ReflTransGen (Follows answer) (f, .next attempt lastErr)
        (g, .next (attempt + d) lastErr') ∧
      g.addrs = f.addrs ∧ g.cur = (f.cur + d) % f.addrs.length := by
  induction d with
  | zero => exact ⟨f, lastErr, .refl, rfl, (Nat.mod_eq_of_lt hrange).symm⟩
  | succ d ih =>
    obtain ⟨g, lastErr', hg, hsame, hcur⟩ := ih (by omega) fun j hj => h j (by omega)
    have hlt : (f.cur + d) % f.addrs.length < f.addrs.length := Nat.mod_lt _ (by omega)
    have haddr := List.getElem?_eq_getElem hlt
    obtain ⟨g', lastErr'', hg', hsame', hcur'⟩ := attempt_unhelpful answer (attempt + d) lastErr'
      (by rw [hsame, hcur]; exact haddr) (by omega) (h d (Nat.lt_succ_self d) _ haddr)
    refine ⟨g', lastErr'', hg.trans hg', hsame'.trans hsame, ?_⟩
    rw [hcur', hsame, hcur, Nat.mod_add_mod, Nat.add_assoc]

/-- **A call finds the leader.** The addresses are distinct, at most four of them are of no help,
and the others, at least one, are the leader or name it, and the leader's own reply is not one
that the client tries again after. Then a call that is not interfered with returns the reply of
the leader, and leaves the client there. -/
theorem call_finds_leader {leader : String} {bad : Finset String}
    (hrange : f.cur < f.addrs.length) (hnodup : f.addrs.Nodup) (hleader : leader ≠ "")
    (hsettles : Settles (answer leader)) (hbad : ∀ addr ∈ bad, Unhelpful (answer addr))
    (hgood : ∀ addr ∈ f.addrs, addr ∉ bad → addr = leader ∨ Points leader (answer addr))
    (hsome : ∃ addr ∈ f.addrs, addr ∉ bad) (hfew : bad.card ≤ 4) :
    ∃ g, ReflTransGen (Follows answer) (f, .next 0 none) (g, .returned (answer leader)) ∧
      g.addrs[g.cur]? = some leader := by
  classical
  have hlen : 0 < f.addrs.length := Nat.zero_lt_of_lt hrange
  let node : ℕ → String := fun j => f.addrs.get ⟨(f.cur + j) % f.addrs.length, Nat.mod_lt _ hlen⟩
  have hat : ∀ j, f.addrs[(f.cur + j) % f.addrs.length]? = some (node j) := fun j =>
    List.getElem?_eq_getElem (Nat.mod_lt _ hlen)
  -- the rotation comes to an address that is of help
  obtain ⟨j₀, hj₀, hhelp⟩ : ∃ j < f.addrs.length, node j ∉ bad := by
    obtain ⟨addr, hmem, hnot⟩ := hsome
    obtain ⟨m, hm, rfl⟩ := List.getElem_of_mem hmem
    refine ⟨(m + (f.addrs.length - f.cur)) % f.addrs.length, Nat.mod_lt _ hlen, ?_⟩
    have hidx : (f.cur + (m + (f.addrs.length - f.cur)) % f.addrs.length) % f.addrs.length = m := by
      rw [Nat.add_mod_mod,
        show f.cur + (m + (f.addrs.length - f.cur)) = m + f.addrs.length by omega,
        Nat.add_mod_right, Nat.mod_eq_of_lt hm]
    have heq := hat ((m + (f.addrs.length - f.cur)) % f.addrs.length)
    rw [hidx, List.getElem?_eq_getElem hm] at heq
    rw [← Option.some.inj heq]
    exact hnot
  have hex : ∃ j, node j ∉ bad := ⟨j₀, hhelp⟩
  set d := Nat.find hex with hd
  have hlt : d < f.addrs.length := lt_of_le_of_lt (Nat.find_min' hex hhelp) hj₀
  have hbefore : ∀ j < d, node j ∈ bad := fun j hj => not_not.mp (Nat.find_min hex hj)
  -- the addresses before it are distinct, so that there are few of them
  have hcard : d ≤ 4 := by
    refine le_trans ?_ hfew
    rw [← Finset.card_range d]
    refine Finset.card_le_card_of_injOn node (fun j hj => hbefore j (Finset.mem_range.mp hj)) ?_
    intro i hi j hj hij
    have hi := Finset.mem_range.mp (Finset.mem_coe.mp hi)
    have hj := Finset.mem_range.mp (Finset.mem_coe.mp hj)
    have hmod : (f.cur + i) % f.addrs.length = (f.cur + j) % f.addrs.length :=
      congrArg Fin.val (hnodup.injective_get hij)
    have hmod' : i % f.addrs.length = j % f.addrs.length := Nat.ModEq.add_left_cancel' f.cur hmod
    rwa [Nat.mod_eq_of_lt (by omega), Nat.mod_eq_of_lt (by omega)] at hmod'
  have hmax : maxAttempts = 6 := rfl
  obtain ⟨g, lastErr', hg, hsame, hcur⟩ := attempts_unhelpful answer 0 none hrange (d := d)
    (by omega) fun j hj addr haddr => by
      rw [hat j] at haddr
      rw [← Option.some.inj haddr]
      exact hbad _ (hbefore j hj)
  rw [Nat.zero_add] at hg
  have haddr : g.addrs[g.cur]? = some (node d) := by
    rw [hsame, hcur]
    exact hat d
  rcases hgood (node d) (List.mem_of_getElem? (hat d)) (Nat.find_spec hex) with heq | hpoints
  · rw [heq] at haddr
    obtain ⟨g', hg', hend⟩ := attempt_settles answer d lastErr' haddr (by omega) hsettles
    exact ⟨g', hg.trans hg', hend⟩
  · obtain ⟨g', lastErr'', hg', haddr'⟩ := attempt_points answer d lastErr' haddr (by omega)
      hleader hpoints
    obtain ⟨g'', hg'', hend⟩ := attempt_settles answer (d + 1) lastErr'' haddr' (by omega)
      hsettles
    exact ⟨g'', (hg.trans hg').trans hg'', hend⟩

/-- Four nodes: `a` is down, `d` has not heard of a leader, and `b` knows that `c` leads. -/
def fourAddrs : Server.ClusterConfig :=
  { Server.plainConfig with clientAddrs := fun n => if n = "c" then some "c:3" else none }

/-- What the four servers answer: `c:3` leads, `b:2` redirects to it, `d:4` knows of no leader,
and the rest is not there. -/
def replies (addr : String) : Except Error ℕ :=
  if addr = "c:3" then .ok 7
  else if addr = "b:2" then .error (.ofStatus (Server.redirect fourAddrs "c"))
  else if addr = "d:4" then .error (.ofStatus (Server.redirect fourAddrs ""))
  else .error ⟨.unavailable, "connection refused"⟩

theorem call_finds_leader_replies :
    ∃ g, ReflTransGen (Follows replies) (⟨["d:4", "a:1", "b:2", "c:3"], 0, []⟩, .next 0 none)
        (g, .returned (replies "c:3")) ∧ g.addrs[g.cur]? = some "c:3" := by
  have hbad : ∀ addr ∈ ({"a:1", "d:4"} : Finset String), Unhelpful (replies addr) := by
    intro addr haddr
    rcases Finset.mem_insert.mp haddr with rfl | haddr
    · exact .inl rfl
    · rw [Finset.mem_singleton.mp haddr]
      exact unhelpful_redirect (.inr rfl)
  refine call_finds_leader replies (by decide) (by decide) (by decide) trivial hbad
    (fun addr haddr hnot => ?_) ⟨"b:2", by decide, by decide⟩ (by decide)
  simp only [List.mem_cons, List.not_mem_nil, or_false] at haddr
  rcases haddr with rfl | rfl | rfl | rfl
  · exact absurd (by decide) hnot
  · exact absurd (by decide) hnot
  · exact .inr (points_redirect rfl (by decide) (by decide +kernel))
  · exact .inl rfl

end Alone

/-! ### Calls that run at the same time -/

section Together

variable {x y : Call R} {P : ℕ → Failover → Prop} {n : ℕ}

/-- The call whose turn it is has not moved yet. -/
theorem getElem?_sweep (m : ℕ) (h : m < n) :
    (List.replicate m y ++ List.replicate (n - m) x)[m]? = some x := by
  rw [List.getElem?_append_right (by simp), List.length_replicate, Nat.sub_self,
    List.getElem?_replicate, if_pos (by omega)]

/-- It moves, and the next one is due. -/
theorem set_sweep (m : ℕ) (h : m < n) :
    (List.replicate m y ++ List.replicate (n - m) x).set m y =
      List.replicate (m + 1) y ++ List.replicate (n - (m + 1)) x := by
  obtain ⟨k, hk⟩ : ∃ k, n - m = k + 1 := ⟨n - m - 1, by omega⟩
  rw [List.set_append_right _ _ (by simp), List.length_replicate, Nat.sub_self, hk,
    List.replicate_succ, List.set_cons_zero, List.replicate_succ', List.append_assoc,
    show n - (m + 1) = k by omega]
  rfl

/-- All of `n` calls run a section, one after the other. -/
def sweep (n : ℕ) (i : Input R) : List (Move R) := (List.range n).map fun k => .step k i

/-- **All calls run the same section.** -/
theorem exec_sweep (hstep : ∀ m < n, ∀ f, P m f → ∃ g, x.step f i = some (g, y) ∧ P (m + 1) g)
    (hP : P 0 s.failover) (hcalls : s.calls = List.replicate n x) :
    ∃ s', Run.exec Shared.step s (sweep n i) = some s' ∧
      P n s'.failover ∧ s'.calls = List.replicate n y ∧
      s'.requests = s.requests ++ (List.range n).flatMap fun k => y.request k := by
  -- the first `m` calls have run theirs
  have hsweep : ∀ m ≤ n, ∃ s', Run.exec Shared.step s (sweep m i) = some s' ∧
      P m s'.failover ∧ s'.calls = List.replicate m y ++ List.replicate (n - m) x ∧
      s'.requests = s.requests ++ (List.range m).flatMap fun k => y.request k := by
    intro m hm
    induction m with
    | zero => exact ⟨s, rfl, hP, hcalls, (List.append_nil _).symm⟩
    | succ m ih =>
      obtain ⟨u, hu, hPu, hcallsu, hrequests⟩ := ih (by omega)
      obtain ⟨g, hg, hPg⟩ := hstep m (by omega) _ hPu
      refine ⟨⟨g, u.calls.set m y, u.requests ++ y.request m⟩, ?_, hPg, ?_, ?_⟩
      · rw [sweep, List.range_succ, List.map_append, List.map_singleton]
        refine Run.exec_snoc.mpr ⟨u, hu, ?_⟩
        simp only [Shared.step, hcallsu, getElem?_sweep m hm, Option.bind_eq_bind,
          Option.bind_some, hg]
        rfl
      · rw [hcallsu, set_sweep m hm]
      · rw [hrequests, List.range_succ, List.flatMap_append, List.flatMap_singleton,
          List.append_assoc]
  obtain ⟨s', hs', hPn, hcalls', hrequests⟩ := hsweep n le_rfl
  rw [Nat.sub_self, List.replicate_zero, List.append_nil] at hcalls'
  exact ⟨s', hs', hPn, hcalls', hrequests⟩

/-- Calls that make no request. -/
theorem flatMap_request (hy : ∀ k, y.request k = []) :
    ((List.range n).flatMap fun k => y.request k) = [] :=
  List.flatMap_eq_nil_iff.mpr fun k _ => hy k

/-- One attempt of `n` calls in step: all send their request, all are told that the node is down,
and all wait. -/
def attemptTogether (n : ℕ) (err : Error) : List (Move R) :=
  sweep n (.go none none) ++ (sweep n (.reply (.error err)) ++ sweep n (.woken none))

/-- All attempts of `n` calls in step, until they return. -/
def lockstep (n : ℕ) (err : Error) : List (Move R) :=
  (List.replicate maxAttempts (attemptTogether n err)).flatten ++ sweep n (.go none none)

/-- **One attempt**: all calls ask the same node, and their rotations together lead back to it. -/
theorem exec_attempt {err : Error} {addr : String} {attempt : ℕ} {lastErr : Option Error}
    (hcode : err.code = .unavailable) (hlt : attempt < maxAttempts)
    (haddr : s.failover.addrs[s.failover.cur]? = some addr)
    (hcalls : s.calls = List.replicate s.failover.addrs.length (.next attempt lastErr)) :
    ∃ s', Run.exec Shared.step s (attemptTogether s.failover.addrs.length err) = some s' ∧
      s'.failover.addrs = s.failover.addrs ∧ s'.failover.cur = s.failover.cur ∧
      s'.calls = List.replicate s.failover.addrs.length (.next (attempt + 1) (some err)) ∧
      s'.requests = s.requests ++ (List.range s.failover.addrs.length).map fun k => (k, addr) := by
  set n := s.failover.addrs.length with hn
  have hrange : s.failover.cur < n := (List.getElem?_eq_some_iff.mp haddr).1
  -- all of them send their request
  obtain ⟨s₁, hs₁, ⟨haddrs₁, hcur₁⟩, hcalls₁, hreq₁⟩ := exec_sweep
    (P := fun _ f => f.addrs = s.failover.addrs ∧ f.cur = s.failover.cur)
    (y := .calling attempt addr) (i := .go none none) (fun m _ f hf => by
      obtain ⟨hfa, hfc⟩ := hf
      simp only [Call.step, if_pos hlt, Failover.current, hfa, hfc, haddr, Option.bind_eq_bind,
        Option.bind_some]
      split
      · exact ⟨f, rfl, hfa, hfc⟩
      · exact ⟨_, rfl, rfl, rfl⟩) ⟨rfl, rfl⟩ hcalls
  -- all of them rotate
  obtain ⟨s₂, hs₂, ⟨haddrs₂, hcur₂⟩, hcalls₂, hreq₂⟩ := exec_sweep
    (P := fun m f => f.addrs = s.failover.addrs ∧ f.cur = (s.failover.cur + m) % n)
    (y := .pausing attempt err) (i := .reply (.error err)) (fun m _ f hf => by
      obtain ⟨hfa, hfc⟩ := hf
      refine ⟨{ f with cur := (s.failover.cur + (m + 1)) % n }, ?_, hfa, rfl⟩
      rw [Call.step, hcode]
      simp only [Failover.advance, hfa, hfc, ne_eq, not_true_eq_false, if_false, ← hn,
        if_neg (Nat.zero_lt_of_lt hrange).ne', Option.map_some, Nat.mod_add_mod, Nat.add_assoc])
    ⟨haddrs₁, by rw [hcur₁, Nat.add_zero, Nat.mod_eq_of_lt hrange]⟩ hcalls₁
  -- and all of them wait
  obtain ⟨s₃, hs₃, ⟨haddrs₃, hcur₃⟩, hcalls₃, hreq₃⟩ := exec_sweep
    (P := fun _ f => f.addrs = s.failover.addrs ∧ f.cur = s.failover.cur)
    (y := .next (attempt + 1) (some err)) (i := .woken none) (fun m _ f hf => ⟨f, rfl, hf⟩)
    ⟨haddrs₂, by rw [hcur₂, Nat.add_mod_right, Nat.mod_eq_of_lt hrange]⟩ hcalls₂
  refine ⟨s₃, ?_, haddrs₃, hcur₃, hcalls₃, ?_⟩
  · rw [attemptTogether, Run.exec_append, hs₁, Option.bind_some, Run.exec_append, hs₂,
      Option.bind_some, hs₃]
  · rw [flatMap_request fun _ => rfl, List.append_nil] at hreq₂ hreq₃
    rw [hreq₃, hreq₂, hreq₁, List.map_eq_flatMap]
    rfl

/-- **Calls can starve each other.** As many calls as there are addresses begin at the same time,
while the current node is down. If they go on in step, then all of them ask this node and no other
in all their attempts, and return its error: the rotations of all of them together lead back to
it every time. -/
theorem calls_starve_each_other {err : Error} {addr : String} (hcode : err.code = .unavailable)
    (haddr : s.failover.addrs[s.failover.cur]? = some addr)
    (hcalls : s.calls = List.replicate s.failover.addrs.length (.next 0 none)) :
    ∃ s', Run.exec Shared.step s (lockstep s.failover.addrs.length err) = some s' ∧
      s'.calls = List.replicate s.failover.addrs.length (.returned (.error err)) ∧
      s'.failover.cur = s.failover.cur ∧
      s'.requests = s.requests ++ (List.replicate maxAttempts
        ((List.range s.failover.addrs.length).map fun k => (k, addr))).flatten := by
  -- after `m` of the attempts
  have hattempts : ∀ m ≤ maxAttempts, ∃ u, Run.exec Shared.step s
        (List.replicate m (attemptTogether s.failover.addrs.length err)).flatten = some u ∧
      u.failover.addrs = s.failover.addrs ∧ u.failover.cur = s.failover.cur ∧
      u.calls = List.replicate s.failover.addrs.length
        (.next m (if m = 0 then none else some err)) ∧
      u.requests = s.requests ++ (List.replicate m
        ((List.range s.failover.addrs.length).map fun k => (k, addr))).flatten := by
    intro m hm
    induction m with
    | zero => exact ⟨s, rfl, rfl, rfl, hcalls, (List.append_nil _).symm⟩
    | succ m ih =>
      obtain ⟨u, hu, haddrs, hcur, hcallsu, hrequests⟩ := ih (by omega)
      rw [← haddrs] at hcallsu
      obtain ⟨u', hu', haddrs', hcur', hcalls', hrequests'⟩ := exec_attempt hcode (by omega)
        (by rw [haddrs, hcur, haddr]) hcallsu
      refine ⟨u', ?_, haddrs'.trans haddrs, hcur'.trans hcur, ?_, ?_⟩
      · rw [List.replicate_succ', List.flatten_append, List.flatten_singleton, Run.exec_append, hu,
          Option.bind_some, ← haddrs, hu']
      · rw [hcalls', haddrs, if_neg (Nat.succ_ne_zero m)]
      · rw [hrequests', hrequests, haddrs, List.replicate_succ', List.flatten_append,
          List.flatten_singleton, List.append_assoc]
  obtain ⟨u, hu, haddrs, hcur, hcallsu, hrequests⟩ := hattempts maxAttempts le_rfl
  obtain ⟨s', hs', ⟨-, hcur'⟩, hcalls', hrequests'⟩ := exec_sweep
    (P := fun _ f => f.addrs = s.failover.addrs ∧ f.cur = s.failover.cur)
    (y := .returned (.error err)) (i := .go none none) (fun m _ f hf => ⟨f, rfl, hf⟩)
    ⟨haddrs, hcur⟩ hcallsu
  refine ⟨s', ?_, hcalls', hcur', ?_⟩
  · rw [lockstep, Run.exec_append, hu, Option.bind_some, hs']
  · rw [hrequests', flatMap_request (fun _ => rfl), List.append_nil, hrequests]

theorem calls_starve_each_other_pair :
    ∃ s : Shared ℕ, Run.exec Shared.step
        ⟨newFailover ["a:1", "b:2"], [.next 0 none, .next 0 none], []⟩
        (lockstep 2 ⟨.unavailable, "connection refused"⟩) = some s ∧
      s.calls = List.replicate 2 (.returned (.error ⟨.unavailable, "connection refused"⟩)) ∧
      s.failover.cur = 0 ∧
      s.requests = (List.replicate maxAttempts [(0, "a:1"), (1, "a:1")]).flatten :=
  calls_starve_each_other (s := ⟨newFailover ["a:1", "b:2"], [.next 0 none, .next 0 none], []⟩) rfl
    rfl rfl

end Together

end Client

end DistQueue
