import DistQueue.Control.Reload

/-!
# What the broker does under pressure

The loop, closed: what the controller sees over a number of scrapes decides what the broker
works with, once the last reload is through. Under sustained pressure its timeout goes to
the upper bound (`DistQueue.Control.pressure_reaches_broker`), and without it to the lower
one (`DistQueue.Control.slack_reaches_broker`); the retries go to what the failures call for.
Everything else may happen in between: the queue goes on, signals are lost, the broker is
killed and restarted.

The models see the scrapes and nothing else (`DistQueue.Control.learned_of_run`). What they
recommend is what has been written, from the end of the warm-up on
(`DistQueue.Control.Abreast`), and what has been written is what the broker has
(`DistQueue.Control.Sound.settled`).
-/

namespace DistQueue

open Broker Wal

namespace Control

variable {γ : Codec} {toml : Toml} {args : Args} {s s' : ClosedLoop} {a : Act}
  {cfg : SingleNode.Config} {P : QueueSnapshot → Prop}

/-! ### The scrapes -/

/-- Every scrape sees a queue like this, and the controller is not restarted. -/
def Seeing (P : QueueSnapshot → Prop) (s : ClosedLoop) : Act → Prop
  | .scrape values now => P (s.controller.collector.parse values now).1
  | .boot _ _ _ => False
  | _ => True

instance [DecidablePred P] (s : ClosedLoop) (a : Act) : Decidable (Seeing P s a) :=
  match a with
  | .scrape _ _ => inferInstanceAs (Decidable (P _))
  | .boot _ _ _ => instDecidableFalse
  | .start _ _ _ | .writePid | .load | .apply | .notify | .wake | .exit | .die | .queue _
  | .readPid | .kill => instDecidableTrue

/-- How many scrapes there are. -/
def scrapes (ms : List Act) : ℕ := ms.countP Act.isScrape

/-- The models have learned from these snapshots. -/
structure Learned (c : Controller) (snaps : List QueueSnapshot) (c' : Controller) : Prop where
  timeoutModel : c'.timeoutModel = snaps.foldl TimeoutModel.update c.timeoutModel
  retryModel : c'.retryModel = snaps.foldl RetryModel.update c.retryModel
  samples : c'.samples = c.samples + snaps.length

theorem Learned.refl (c : Controller) : Learned c [] c := ⟨rfl, rfl, (Nat.add_zero _).symm⟩

theorem Learned.trans {c c' c'' : Controller} {snaps snaps' : List QueueSnapshot}
    (h : Learned c snaps c') (h' : Learned c' snaps' c'') : Learned c (snaps ++ snaps') c'' := by
  constructor
  · rw [h'.timeoutModel, h.timeoutModel, List.foldl_append]
  · rw [h'.retryModel, h.retryModel, List.foldl_append]
  · rw [h'.samples, h.samples, List.length_append, Nat.add_assoc]

/-- A round teaches the models what it has seen. -/
theorem learned_tick (args : Args) (c : Controller) (values : Metrics) (now : ℚ) :
    Learned c [(c.collector.parse values now).1] (c.tick args values now).1 := by
  unfold Controller.tick
  dsimp only
  split
  · exact ⟨rfl, rfl, rfl⟩
  · split <;> exact ⟨rfl, rfl, rfl⟩

/-- The signal does not concern the controller. -/
theorem controller_hangup (s : ClosedLoop) (pid : ℕ) :
    (s.hangup pid).controller = s.controller := by
  rcases hangup_cases s pid with ⟨p, hup, r, -, -, heq⟩ | heq | ⟨heq, -⟩ <;> rw [heq]
  rfl

/-- One act teaches the models what it shows them. -/
theorem learned_step (hs : s.step γ toml args a = some s') (hsee : Seeing P s a) :
    ∃ snaps, snaps.length = scrapes [a] ∧ (∀ snap ∈ snaps, P snap) ∧
      Learned s.controller snaps s'.controller := by
  -- all but two leave the models alone
  have hrest : a.isScrape = false → Learned s.controller [] s'.controller →
      ∃ snaps, snaps.length = scrapes [a] ∧ (∀ snap ∈ snaps, P snap) ∧
        Learned s.controller snaps s'.controller := by
    intro ha hlearned
    refine ⟨[], ?_, fun snap hsnap => (by cases hsnap), hlearned⟩
    simp [scrapes, ha]
  cases effect hs with
  | starts flags ha hnone hcfg hs =>
    refine hrest ha ?_
    rw [hs]
    exact .refl _
  | goes p main ha hp hgoes hs hpid =>
    refine hrest ha ?_
    rw [hs]
    exact .refl _
  | dies ha hs =>
    refine hrest ha ?_
    rw [hs]
    exact .refl _
  | ticks values now ha hs' =>
    subst ha
    rw [hs']
    refine ⟨_, rfl, ?_, learned_tick args s.controller values now⟩
    rintro snap hsnap
    rw [List.mem_singleton.mp hsnap]
    exact hsee
  | reads ha hs =>
    refine hrest ha ?_
    rw [hs]
    exact ⟨rfl, rfl, (Nat.add_zero _).symm⟩
  | kills pid ha hpush hs =>
    refine hrest ha ?_
    rw [hs, controller_hangup]
    exact ⟨rfl, rfl, (Nat.add_zero _).symm⟩
  | boots t w r ha hs =>
    subst ha
    exact hsee.elim

/-- **What the models have learned in a run is what the scrapes have shown.** -/
theorem learned_of_run {ms : List Act}
    (hG : Run.Guarded (ClosedLoop.step γ toml args) (Seeing P) s ms)
    (hrun : Run.exec (ClosedLoop.step γ toml args) s ms = some s') :
    ∃ snaps, snaps.length = scrapes ms ∧ (∀ snap ∈ snaps, P snap) ∧
      Learned s.controller snaps s'.controller := by
  induction ms generalizing s with
  | nil =>
    obtain rfl : s = s' := Option.some.inj hrun
    exact ⟨[], rfl, fun snap hsnap => (by cases hsnap), .refl _⟩
  | cons a ms ih =>
    rw [Run.exec_cons, Option.bind_eq_some_iff] at hrun
    obtain ⟨u, hu, hrun⟩ := hrun
    obtain ⟨hsee, hG⟩ := hG
    rw [hu] at hG
    obtain ⟨snaps₁, hlength₁, hall₁, hlearned₁⟩ := learned_step hu hsee
    obtain ⟨snaps₂, hlength₂, hall₂, hlearned₂⟩ := ih hG hrun
    refine ⟨snaps₁ ++ snaps₂, ?_, ?_, hlearned₁.trans hlearned₂⟩
    · rw [List.length_append, hlength₁, hlength₂, scrapes, scrapes, scrapes, List.countP_cons,
        List.countP_cons, List.countP_nil]
      omega
    · exact List.forall_mem_append.mpr ⟨hall₁, hall₂⟩

/-! ### What has been written -/

/-- **What the models recommend has been written**, once they are warm. -/
def Abreast (args : Args) (c : Controller) : Prop :=
  0 < c.samples → args.minSamples ≤ c.samples → ∃ snap, c.lastWritten =
    some (recommend snap c.timeoutModel c.workerModel c.retryModel args).rounded

/-- A round that comes after the warm-up writes what the models recommend, unless it is written. -/
theorem abreast_tick (args : Args) (c : Controller) (values : Metrics) (now : ℚ) :
    Abreast args (c.tick args values now).1 := by
  unfold Controller.tick
  dsimp only
  split
  · rename_i hearly
    exact fun _ hwarm => absurd hearly (Int.not_lt.mpr hwarm)
  · split
    · rename_i hsame
      exact fun _ _ => ⟨_, hsame⟩
    · exact fun _ _ => ⟨_, rfl⟩

/-- **Every act keeps the controller abreast.** -/
theorem Abreast.step (h : Abreast args s.controller) (hs : s.step γ toml args a = some s') :
    Abreast args s'.controller := by
  cases effect hs with
  | starts flags ha hnone hcfg hs =>
    rw [hs]
    exact h
  | goes p main ha hp hgoes hs hpid =>
    rw [hs]
    exact h
  | dies ha hs =>
    rw [hs]
    exact h
  | ticks values now ha hs =>
    rw [hs]
    exact abreast_tick args s.controller values now
  | reads ha hs =>
    rw [hs]
    exact h
  | kills pid ha hpush hs =>
    rw [hs, controller_hangup]
    exact h
  | boots t w r ha hs =>
    rw [hs]
    exact fun hpos => absurd hpos (Nat.lt_irrefl 0)

/-- The controller is abreast in every state. -/
theorem abreast_run {ms : List Act}
    (hrun : Run.exec (ClosedLoop.step γ toml args) (.init cfg) ms = some s) :
    Abreast args s.controller :=
  Run.invariant (P := fun s : ClosedLoop => Abreast args s.controller)
    (fun hpos => absurd hpos (Nat.lt_irrefl 0)) (fun _ _ _ h hs => h.step hs) hrun

/-- **The broker follows what the scrapes show**, as the models take it. -/
theorem settled_of_learned {ms ms' : List Act} {u : ClosedLoop} {snaps : List QueueSnapshot}
    (hargs : args.Bounded)
    (hrun : Run.exec (ClosedLoop.step γ toml args) (.init cfg) ms = some u)
    (hrun' : Run.exec (ClosedLoop.step γ toml args) u ms' = some s) (hsettled : s.Settled)
    (hlearned : Learned u.controller snaps s.controller) (hpos : 0 < snaps.length)
    (hwarm : args.minSamples ≤ u.controller.samples + snaps.length) :
    s.node.broker.cfg.taskTimeout =
        ⌊fl (fl (roundEven (clamp
          (snaps.foldl TimeoutModel.update u.controller.timeoutModel).predict
          args.timeoutMin args.timeoutMax * 10) / 10) * 10 ^ 9)⌋ ∧
      (s.node.broker.cfg.maxRetries : ℚ) =
        (snaps.foldl RetryModel.update u.controller.retryModel).predict := by
  have hall : Run.exec (ClosedLoop.step γ toml args) (.init cfg) (ms ++ ms') = some s := by
    rw [Run.exec_append, hrun]
    exact hrun'
  have hsamples := hlearned.samples
  obtain ⟨snap, hlast⟩ := abreast_run hall (by omega) (by omega)
  have hsound : Sound 5 s := sound_run hargs (by decide) (fun a _ => a.boots_five) hall
  obtain ⟨htimeout, hretries⟩ := hsound.settled hsettled hlast
  rw [htimeout, hretries, ← hlearned.timeoutModel, ← hlearned.retryModel]
  exact ⟨rfl, (maxRetries_recommend (RetryModel.atMost_five _) snap _ _ args).1⟩

/-! ### Pressure and slack -/

/-- **Under sustained pressure the broker gets the longest timeout**, and the retries that the
failures call for – one, if most tasks fail. From the state `u` on, the controller is not
restarted and every scrape sees pressure; there are five scrapes at least, the warm-up is over
with them, and they are enough to raise the timeout that the model has in `u` – seventy-one are,
from five seconds. The model of the retries has a value between one and three in `u`, which is
what it has unless it was loaded with another. -/
theorem pressure_reaches_broker {ms ms' : List Act} {u : ClosedLoop} {retries : ℤ}
    (hargs : args.Bounded) (hmax : args.timeoutMax = 300)
    (hrun : Run.exec (ClosedLoop.step γ toml args) (.init cfg) ms = some u)
    (hG : Run.Guarded (ClosedLoop.step γ toml args) (Seeing fun snap =>
      highPressure < snap.nackPressure ∧ RetryModel.target snap = retries) u ms')
    (hrun' : Run.exec (ClosedLoop.step γ toml args) u ms' = some s) (hsettled : s.Settled)
    (hretry : 1 ≤ u.controller.retryModel.value ∧ u.controller.retryModel.value ≤ 3)
    (hlong : 300 ≤ u.controller.timeoutModel.value * (10599 / 10000) ^ scrapes ms')
    (hfive : 5 ≤ scrapes ms') (hwarm : args.minSamples ≤ u.controller.samples + scrapes ms') :
    s.node.broker.cfg.taskTimeout = 300 * 10 ^ 9 ∧ s.node.broker.cfg.maxRetries = retries := by
  obtain ⟨snaps, hlength, hall, hlearned⟩ := learned_of_run hG hrun'
  rw [← hlength] at hlong hfive hwarm
  obtain ⟨htimeout, hretries⟩ :=
    settled_of_learned hargs hrun hrun' hsettled hlearned (by omega) hwarm
  have hvalue : (snaps.foldl TimeoutModel.update u.controller.timeoutModel).value = 300 :=
    le_antisymm (TimeoutModel.foldl_mem (List.ne_nil_of_length_pos (by omega))).2
      ((le_min le_rfl hlong).trans (TimeoutModel.le_value_of_high fun snap hs => (hall snap hs).1))
  rw [RetryModel.predict_of_target hretry hfive fun snap hs => (hall snap hs).2] at hretries
  refine ⟨?_, by exact_mod_cast hretries⟩
  have hclamp : clamp (300 : ℚ) args.timeoutMin args.timeoutMax = 300 :=
    clamp_of_mem ⟨hargs.ordered.trans hargs.high, hmax.ge⟩
  have hpredict : clamp (300 : ℚ) 5 300 = 300 := clamp_of_mem ⟨by norm_num, le_rfl⟩
  rw [htimeout, TimeoutModel.predict, hvalue, hpredict, hclamp]
  decide +kernel

example : (300 : ℚ) ≤ 5 * (10599 / 10000) ^ 71 := by decide +kernel

/-- A controller that has seen the queue once, and recommends a long timeout. -/
def warmed : List Act :=
  starting ++ [.boot ⟨290⟩ .new .new, .scrape ⟨0, 0, 0, 0, 0⟩ 0, .readPid, .kill]

/-- Four tasks out of five are given back. -/
def failing (n : ℕ) : Act := .scrape ⟨3, 0, 0, 10 * n, 40 * n⟩ (10 * n)

/-- Five failing scrapes, with one reload after the first, and one after the fourth. -/
def pressed : List Act :=
  [failing 1, .readPid, .kill, failing 2, failing 3, failing 4, .readPid, .kill, .wake, .load,
    .apply, failing 5]

theorem pressure_reaches_broker_pressed :
    ∃ u s, Run.exec (ClosedLoop.step plainCodec plainToml eager) (.init ⟨3, 30 * 10 ^ 9, 0⟩)
        warmed = some u ∧
      u.node.broker.cfg.taskTimeout = 30 * 10 ^ 9 ∧
      Run.exec (ClosedLoop.step plainCodec plainToml eager) u pressed = some s ∧
      s.node.broker.cfg.taskTimeout = 300 * 10 ^ 9 ∧ s.node.broker.cfg.maxRetries = 1 := by
  have hend : (Run.exec (ClosedLoop.step plainCodec plainToml eager)
      (.init ⟨3, 30 * 10 ^ 9, 0⟩) warmed).map
      (fun u => (u.node.broker.cfg.taskTimeout,
        decide (300 ≤ u.controller.timeoutModel.value * (10599 / 10000) ^ scrapes pressed ∧
          (1 ≤ u.controller.retryModel.value ∧ u.controller.retryModel.value ≤ 3) ∧
          eager.minSamples ≤ u.controller.samples + scrapes pressed),
        decide (Run.Guarded (ClosedLoop.step plainCodec plainToml eager) (Seeing fun snap =>
          highPressure < snap.nackPressure ∧ RetryModel.target snap = (1 : ℤ)) u pressed),
        (Run.exec (ClosedLoop.step plainCodec plainToml eager) u pressed).map fun s =>
          decide s.Settled)) = some (30 * 10 ^ 9, true, true, some true) := by
    decide +kernel
  obtain ⟨u, hrun, hlast⟩ := Option.map_eq_some_iff.mp hend
  simp only [Prod.mk.injEq, decide_eq_true_eq, Option.map_eq_some_iff] at hlast
  obtain ⟨hbefore, ⟨hlong, hretry, hwarm⟩, hG, s, hrun', hsettled⟩ := hlast
  exact ⟨u, s, hrun, hbefore, hrun', pressure_reaches_broker bounded_eager rfl hrun hG hrun'
    hsettled hretry hlong (by decide) hwarm⟩

/-- **Without pressure the broker gets the shortest timeout**, and three retries, under the same
conditions; two hundred and seventy-one scrapes are enough from five minutes. -/
theorem slack_reaches_broker {ms ms' : List Act} {u : ClosedLoop}
    (hargs : args.Bounded) (hmin : args.timeoutMin = 5)
    (hrun : Run.exec (ClosedLoop.step γ toml args) (.init cfg) ms = some u)
    (hG : Run.Guarded (ClosedLoop.step γ toml args) (Seeing fun snap =>
      snap.nackPressure < lowPressure) u ms')
    (hrun' : Run.exec (ClosedLoop.step γ toml args) u ms' = some s) (hsettled : s.Settled)
    (hretry : 1 ≤ u.controller.retryModel.value ∧ u.controller.retryModel.value ≤ 3)
    (hlong : u.controller.timeoutModel.value * (985000001 / 1000000000) ^ scrapes ms' ≤ 5)
    (hfive : 5 ≤ scrapes ms') (hwarm : args.minSamples ≤ u.controller.samples + scrapes ms') :
    s.node.broker.cfg.taskTimeout = 5 * 10 ^ 9 ∧ s.node.broker.cfg.maxRetries = 3 := by
  obtain ⟨snaps, hlength, hall, hlearned⟩ := learned_of_run hG hrun'
  rw [← hlength] at hlong hfive hwarm
  obtain ⟨htimeout, hretries⟩ :=
    settled_of_learned hargs hrun hrun' hsettled hlearned (by omega) hwarm
  have hvalue : (snaps.foldl TimeoutModel.update u.controller.timeoutModel).value = 5 :=
    le_antisymm ((TimeoutModel.value_le_of_low hall).trans (max_le le_rfl hlong))
      (TimeoutModel.foldl_mem (List.ne_nil_of_length_pos (by omega))).1
  have htarget : ∀ snap ∈ snaps, RetryModel.target snap = (3 : ℤ) := fun snap hs =>
    RetryModel.target_of_low (hall snap hs)
  rw [RetryModel.predict_of_target hretry hfive htarget] at hretries
  refine ⟨?_, by exact_mod_cast hretries⟩
  have hclamp : clamp (5 : ℚ) args.timeoutMin args.timeoutMax = 5 :=
    clamp_of_mem ⟨hmin.le, hargs.low.trans hargs.ordered⟩
  have hpredict : clamp (5 : ℚ) 5 300 = 5 := clamp_of_mem ⟨le_rfl, by norm_num⟩
  rw [htimeout, TimeoutModel.predict, hvalue, hpredict, hclamp]
  decide +kernel

example : (300 : ℚ) * (985000001 / 1000000000) ^ 271 ≤ 5 := by decide +kernel

/-- A controller that recommends the shortest timeout, and has not seen the queue. -/
def rested : List Act := starting ++ [.boot ⟨5⟩ .new .new]

/-- Five idle scrapes, with a reload after the first. -/
def resting : List Act :=
  let scrape : Act := .scrape ⟨0, 0, 0, 0, 0⟩ 0
  [scrape, .readPid, .kill, .wake, .load, .apply, scrape, scrape, scrape, scrape]

theorem slack_reaches_broker_resting :
    ∃ u s, Run.exec (ClosedLoop.step plainCodec plainToml eager) (.init ⟨3, 30 * 10 ^ 9, 0⟩)
        rested = some u ∧
      u.node.broker.cfg.taskTimeout = 30 * 10 ^ 9 ∧
      Run.exec (ClosedLoop.step plainCodec plainToml eager) u resting = some s ∧
      s.node.broker.cfg.taskTimeout = 5 * 10 ^ 9 ∧ s.node.broker.cfg.maxRetries = 3 := by
  have hend : (Run.exec (ClosedLoop.step plainCodec plainToml eager)
      (.init ⟨3, 30 * 10 ^ 9, 0⟩) rested).map
      (fun u => (u.node.broker.cfg.taskTimeout,
        decide (u.controller.timeoutModel.value * (985000001 / 1000000000) ^ scrapes resting ≤ 5 ∧
          (1 ≤ u.controller.retryModel.value ∧ u.controller.retryModel.value ≤ 3) ∧
          eager.minSamples ≤ u.controller.samples + scrapes resting),
        decide (Run.Guarded (ClosedLoop.step plainCodec plainToml eager) (Seeing fun snap =>
          snap.nackPressure < lowPressure) u resting),
        (Run.exec (ClosedLoop.step plainCodec plainToml eager) u resting).map fun s =>
          decide s.Settled)) = some (30 * 10 ^ 9, true, true, some true) := by
    decide +kernel
  obtain ⟨u, hrun, hlast⟩ := Option.map_eq_some_iff.mp hend
  simp only [Prod.mk.injEq, decide_eq_true_eq, Option.map_eq_some_iff] at hlast
  obtain ⟨hbefore, ⟨hlong, hretry, hwarm⟩, hG, s, hrun', hsettled⟩ := hlast
  exact ⟨u, s, hrun, hbefore, hrun', slack_reaches_broker bounded_eager rfl hrun hG hrun'
    hsettled hretry hlong (by decide) hwarm⟩

end Control

end DistQueue
