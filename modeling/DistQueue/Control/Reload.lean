import DistQueue.Control.Config
import DistQueue.SingleNode.Sections

/-!
# Hot reload

The broker and its controller, two processes with two files between them. The controller
replaces the tuning file, reads the broker's process identifier from the other file, and
sends a hangup signal. The broker writes its identifier when it starts, then applies the
tuning file if there is one, and then asks for the signal, which reaches it through a
channel with room for one; a goroutine takes it from there, loads the file and applies it.

Signals are lost on the way: where one is waiting already, where the identifier is that of
a process that is gone, and where the broker does not listen yet – which kills it. No
tuning is lost with them (`DistQueue.Control.reload_not_lost`). The one thing that is needed
is that both sides write before they read: the controller replaces the file before it looks
for the identifier, and the broker writes its identifier before it loads the file. So one of
them sees what the other one has written. `DistQueue.Control.Main.Current` is the invariant:
what the broker is about to do brings it up to date, unless the controller is about to tell
it (`DistQueue.Control.Controller.Unsignalled`).

The queue goes on in between (`DistQueue.SingleNode.step`). Processes are killed and
restarted at any time, the controller with any state of its models; identifiers are not used
again. All this is about what the running controller has written. One that is killed between
the replacement of the file and the signal leaves a file that the broker does not know of,
until the next controller has written its own.
-/

namespace DistQueue

open Broker Wal

namespace Control

/-! ### The two processes -/

/-- The goroutine that reloads: waiting for the signal, about to load the file, or about to
apply it. -/
inductive Reloader
  | idle
  | woken
  | loaded (fc : FileConfig)
  deriving DecidableEq

/-- Where the broker's `runSingle` is. -/
inductive Main
  /-- The log has been replayed. -/
  | opened
  /-- The identifier has been written. -/
  | named
  /-- The tuning file has been loaded, if there was one. -/
  | loaded (fc : Option FileConfig)
  /-- It has been applied. -/
  | tuned
  /-- Signals are caught, and one may be waiting. -/
  | serving (hup : Bool) (reloader : Reloader)
  /-- The server has stopped, and the file with the identifier is removed. -/
  | leaving
  deriving DecidableEq

/-- The broker's process. -/
structure Process where
  pid : ℕ
  /-- The configuration from its command line. -/
  flags : SingleNode.Config
  main : Main

/-- What is left of `write_if_changed` once the file has been replaced: to read the
identifier, and to send the signal. -/
inductive Push
  | idle
  | replaced
  | addressed (pid : ℕ)
  deriving DecidableEq

/-- The controller, between two rounds of its loop or on its way to the signal. -/
structure Controller where
  collector : Collector
  timeoutModel : TimeoutModel
  workerModel : WorkerModel
  retryModel : RetryModel
  samples : ℕ
  lastWritten : Option BrokerConfig
  push : Push

/-- A controller with the models that it has loaded, or made. -/
def Controller.boot (t : TimeoutModel) (w : WorkerModel) (r : RetryModel) : Controller :=
  ⟨⟨none⟩, t, w, r, 0, none, .idle⟩

/-- One round of the controller's loop, up to the replacement of the file, and what is
written to it, if anything. -/
def Controller.tick (args : Args) (c : Controller) (values : Metrics) (now : ℚ) :
    Controller × Option BrokerConfig :=
  let (snap, collector) := c.collector.parse values now
  let c := { c with
    collector
    timeoutModel := c.timeoutModel.update snap
    workerModel := c.workerModel.update snap
    retryModel := c.retryModel.update snap
    samples := c.samples + 1 }
  if (c.samples : ℤ) < args.minSamples then (c, none)
  else
    let rounded := (recommend snap c.timeoutModel c.workerModel c.retryModel args).rounded
    if c.lastWritten = some rounded then (c, none)
    else ({ c with lastWritten := some rounded, push := .replaced }, some rounded)

/-- The two processes and the files between them. -/
structure ClosedLoop where
  node : SingleNode.History
  process : Option Process
  nextPid : ℕ
  pidFile : Option ℕ
  file : Option TuningFile
  controller : Controller

/-- What happens next. -/
inductive Act
  /-- A broker is started on what is left of the log. -/
  | start (c : ℕ) (order : List Task) (flags : SingleNode.Config)
  /-- The broker writes its identifier. -/
  | writePid
  /-- The broker loads the tuning file, when it starts or when it has been told to. -/
  | load
  /-- The broker applies what it has loaded. -/
  | apply
  /-- The broker asks for the signal. -/
  | notify
  /-- The reloader takes the signal that waits. -/
  | wake
  /-- The broker's server stops. -/
  | exit
  /-- The broker is killed. -/
  | die
  /-- A section of the queue. -/
  | queue (m : SingleNode.Move)
  /-- A round of the controller, up to the replacement of the file. -/
  | scrape (values : Metrics) (now : ℚ)
  /-- The controller reads the identifier. -/
  | readPid
  /-- The controller sends the signal. -/
  | kill
  /-- The controller is started, after it may have been killed. -/
  | boot (t : TimeoutModel) (w : WorkerModel) (r : RetryModel)

namespace ClosedLoop

/-- The broker goes on. -/
def withMain (s : ClosedLoop) (p : Process) (main : Main) : ClosedLoop :=
  { s with process := some { p with main } }

/-- The controller goes on. -/
def withPush (s : ClosedLoop) (push : Push) : ClosedLoop :=
  { s with controller := { s.controller with push } }

/-- The hangup signal. A process that has not asked for it dies of it. -/
def hangup (s : ClosedLoop) (pid : ℕ) : ClosedLoop :=
  match s.process with
  | none => s
  | some p =>
    if p.pid = pid then
      match p.main with
      | .serving _ r => s.withMain p (.serving true r)
      | .leaving => s
      | _ => { s with process := none }
    else s

/-- `applyFileConfig`. -/
def applyFileConfig (γ : Codec) (s : ClosedLoop) (fc : FileConfig) : Option ClosedLoop :=
  (SingleNode.step γ s.node (.applyTuning fc.timeout fc.maxRetries)).map fun node =>
    { s with node }

/-- No log, no files, and no process but the controller. -/
def init (cfg : SingleNode.Config) : ClosedLoop where
  node := .start cfg
  process := none
  nextPid := 0
  pidFile := none
  file := none
  controller := .boot .new .new .new

/-- One act, if it can be done. -/
def step (γ : Codec) (toml : Toml) (args : Args) (s : ClosedLoop) : Act → Option ClosedLoop
  | .start c order flags =>
    match s.process with
    | some _ => none
    | none =>
      (SingleNode.step γ s.node (.crash c order flags)).map fun node =>
        { s with node, process := some ⟨s.nextPid, flags, .opened⟩, nextPid := s.nextPid + 1 }
  | .writePid =>
    match s.process with
    | some ⟨pid, flags, .opened⟩ =>
      some { s.withMain ⟨pid, flags, .opened⟩ .named with pidFile := some pid }
    | _ => none
  | .load =>
    match s.process with
    | some ⟨pid, flags, .named⟩ =>
      some (s.withMain ⟨pid, flags, .named⟩ (.loaded (loadFileConfig toml s.file)))
    | some ⟨pid, flags, .serving hup .woken⟩ =>
      some (s.withMain ⟨pid, flags, .serving hup .woken⟩ (.serving hup
        ((loadFileConfig toml s.file).elim .idle .loaded)))
    | _ => none
  | .apply =>
    match s.process with
    | some ⟨pid, flags, .loaded none⟩ => some (s.withMain ⟨pid, flags, .loaded none⟩ .tuned)
    | some ⟨pid, flags, .loaded (some fc)⟩ =>
      (s.withMain ⟨pid, flags, .loaded (some fc)⟩ .tuned).applyFileConfig γ fc
    | some ⟨pid, flags, .serving hup (.loaded fc)⟩ =>
      (s.withMain ⟨pid, flags, .serving hup (.loaded fc)⟩ (.serving hup .idle)).applyFileConfig γ fc
    | _ => none
  | .notify =>
    match s.process with
    | some ⟨pid, flags, .tuned⟩ => some (s.withMain ⟨pid, flags, .tuned⟩ (.serving false .idle))
    | _ => none
  | .wake =>
    match s.process with
    | some ⟨pid, flags, .serving true .idle⟩ =>
      some (s.withMain ⟨pid, flags, .serving true .idle⟩ (.serving false .woken))
    | _ => none
  | .exit =>
    match s.process with
    | some ⟨pid, flags, .serving hup r⟩ =>
      some { s.withMain ⟨pid, flags, .serving hup r⟩ .leaving with pidFile := none }
    | _ => none
  | .die =>
    match s.process with
    | some _ => some { s with process := none }
    | none => none
  | .queue m =>
    match s.process with
    | some _ =>
      if m.Tunes then none else (SingleNode.step γ s.node m).map fun node => { s with node }
    | none => none
  | .scrape values now =>
    match s.controller.push with
    | .idle =>
      let (c, written) := s.controller.tick args values now
      some { s with controller := c, file := (written.map dumpToml).orElse fun _ => s.file }
    | _ => none
  | .readPid =>
    match s.controller.push with
    | .replaced => some (s.withPush (s.pidFile.elim .idle .addressed))
    | _ => none
  | .kill =>
    match s.controller.push with
    | .addressed pid => some ((s.withPush .idle).hangup pid)
    | _ => none
  | .boot t w r => some { s with controller := .boot t w r }

end ClosedLoop

variable {γ : Codec} {toml : Toml} {args : Args} {s s' : ClosedLoop} {a : Act}
  {cfg cfg' : SingleNode.Config} {f : TuningFile} {fc : FileConfig} {p : Process} {b : ℤ}

/-! ### What an act does -/

/-- The configuration after a file has been applied: what is not positive is ignored. -/
def tune (cfg : SingleNode.Config) (fc : FileConfig) : SingleNode.Config :=
  { cfg with
    taskTimeout := if 0 < fc.timeout then fc.timeout else cfg.taskTimeout
    maxRetries := if 0 < fc.maxRetries then fc.maxRetries else cfg.maxRetries }

/-- **What the broker's process can do**, with this tuning file, and to its
configuration. -/
inductive Goes (toml : Toml) (file : Option TuningFile) (cfg : SingleNode.Config) :
    SingleNode.Config → Main → Main → Prop
  | writePid : Goes toml file cfg cfg .opened .named
  | load : Goes toml file cfg cfg .named (.loaded (loadFileConfig toml file))
  | skip : Goes toml file cfg cfg (.loaded none) .tuned
  | apply (fc : FileConfig) : Goes toml file cfg (tune cfg fc) (.loaded (some fc)) .tuned
  | notify : Goes toml file cfg cfg .tuned (.serving false .idle)
  | wake : Goes toml file cfg cfg (.serving true .idle) (.serving false .woken)
  | reload (hup : Bool) : Goes toml file cfg cfg (.serving hup .woken)
      (.serving hup ((loadFileConfig toml file).elim .idle .loaded))
  | reapply (hup : Bool) (fc : FileConfig) :
      Goes toml file cfg (tune cfg fc) (.serving hup (.loaded fc)) (.serving hup .idle)
  | exit (hup : Bool) (r : Reloader) : Goes toml file cfg cfg (.serving hup r) .leaving
  | queue (main : Main) : Goes toml file cfg cfg main main

/-- Its identifier is in the file. -/
def Main.Listed : Main → Prop
  | .opened | .leaving => False
  | .named | .loaded _ | .tuned | .serving _ _ => True

/-- Whether the act is a round of the controller. -/
def Act.isScrape : Act → Bool
  | .scrape _ _ => true
  | _ => false

/-- **Everything that can happen.** -/
inductive Effect (toml : Toml) (args : Args) (s : ClosedLoop) (a : Act) (s' : ClosedLoop) : Prop
  | starts (flags : SingleNode.Config) (ha : a.isScrape = false) (hnone : s.process = none)
      (hcfg : s'.node.broker.cfg = flags)
      (hs : s' = { s with
        node := s'.node, process := some ⟨s.nextPid, flags, .opened⟩, nextPid := s.nextPid + 1 })
  | goes (p : Process) (main : Main) (ha : a.isScrape = false) (hp : s.process = some p)
      (hgoes : Goes toml s.file s.node.broker.cfg s'.node.broker.cfg p.main main)
      (hs : s' = { s with
        node := s'.node, process := some { p with main }, pidFile := s'.pidFile })
      (hpid : main.Listed → s'.pidFile = some p.pid ∨ p.main.Listed ∧ s'.pidFile = s.pidFile)
  | dies (ha : a.isScrape = false) (hs : s' = { s with process := none })
  | ticks (values : Metrics) (now : ℚ) (ha : a = .scrape values now)
      (hs : s' = { s with
        controller := (s.controller.tick args values now).1
        file := ((s.controller.tick args values now).2.map dumpToml).orElse fun _ => s.file })
  | reads (ha : a.isScrape = false)
      (hs : s' = s.withPush (s.pidFile.elim .idle .addressed))
  | kills (pid : ℕ) (ha : a.isScrape = false) (hpush : s.controller.push = .addressed pid)
      (hs : s' = (s.withPush .idle).hangup pid)
  | boots (t : TimeoutModel) (w : WorkerModel) (r : RetryModel) (ha : a = .boot t w r)
      (hs : s' = { s with controller := .boot t w r })

/-- A broker starts with the configuration of its command line. -/
theorem cfg_crash {h h' : SingleNode.History} {c : ℕ} {order : List Task}
    (hstep : SingleNode.step γ h (.crash c order cfg) = some h') : h'.broker.cfg = cfg := by
  simp only [SingleNode.step, Option.ite_none_right_eq_some, Option.map_eq_some_iff] at hstep
  obtain ⟨-, b, hb, rfl⟩ := hstep
  unfold SingleNode.recover at hb
  dsimp only at hb
  split at hb
  · cases hb
    rfl
  · obtain ⟨w, -, rfl⟩ := Option.map_eq_some_iff.mp hb
    rfl

theorem applyFileConfig_eq (h : s.applyFileConfig γ fc = some s') :
    s' = { s with node := s'.node } ∧ s'.node.broker.cfg = tune s.node.broker.cfg fc := by
  obtain ⟨node, hnode, rfl⟩ := Option.map_eq_some_iff.mp h
  obtain ⟨-, rfl⟩ := SingleNode.eq_of_locked hnode
  exact ⟨rfl, rfl⟩

/-- A move of the broker that leaves its configuration, and the identifier where it is. -/
theorem effect_withMain {main : Main} (hp : s.process = some p)
    (hgoes : Goes toml s.file s.node.broker.cfg s.node.broker.cfg p.main main)
    (ha : a.isScrape = false) (hlisted : main.Listed → p.main.Listed) :
    Effect toml args s a (s.withMain p main) :=
  .goes p main ha hp hgoes rfl fun h => Or.inr ⟨hlisted h, rfl⟩

/-- A file is applied. -/
theorem effect_applyFileConfig {main : Main} (hp : s.process = some p)
    (hgoes : Goes toml s.file s.node.broker.cfg (tune s.node.broker.cfg fc) p.main main)
    (ha : a.isScrape = false) (hlisted : main.Listed → p.main.Listed)
    (hs : (s.withMain p main).applyFileConfig γ fc = some s') : Effect toml args s a s' := by
  obtain ⟨hs', hcfg⟩ := applyFileConfig_eq hs
  refine .goes p main ha hp ?_ ?_ fun h => Or.inr ⟨hlisted h, ?_⟩
  · rw [hcfg]
    exact hgoes
  · rw [hs']
    rfl
  · rw [hs']
    rfl

/-- **Every act is one of these.** -/
theorem effect (hs : s.step γ toml args a = some s') : Effect toml args s a s' := by
  unfold ClosedLoop.step at hs
  cases a with
  | start c order flags =>
    dsimp only at hs
    split at hs
    · cases hs
    · rename_i hnone
      obtain ⟨node, hnode, rfl⟩ := Option.map_eq_some_iff.mp hs
      exact .starts flags rfl hnone (cfg_crash hnode) rfl
  | writePid =>
    dsimp only at hs
    split at hs
    · rename_i pid flags hp
      cases hs
      exact .goes _ _ rfl hp .writePid rfl fun _ => Or.inl rfl
    · cases hs
  | load =>
    dsimp only at hs
    split at hs
    · rename_i pid flags hp
      cases hs
      exact effect_withMain hp .load rfl fun _ => trivial
    · rename_i pid flags hup hp
      cases hs
      exact effect_withMain hp (.reload hup) rfl fun _ => trivial
    · cases hs
  | apply =>
    dsimp only at hs
    split at hs
    · rename_i pid flags hp
      cases hs
      exact effect_withMain hp .skip rfl fun _ => trivial
    · rename_i pid flags fc hp
      exact effect_applyFileConfig hp (.apply fc) rfl (fun _ => trivial) hs
    · rename_i pid flags hup fc hp
      exact effect_applyFileConfig hp (.reapply hup fc) rfl (fun _ => trivial) hs
    · cases hs
  | notify =>
    dsimp only at hs
    split at hs
    · rename_i pid flags hp
      cases hs
      exact effect_withMain hp .notify rfl fun _ => trivial
    · cases hs
  | wake =>
    dsimp only at hs
    split at hs
    · rename_i pid flags hp
      cases hs
      exact effect_withMain hp .wake rfl fun _ => trivial
    · cases hs
  | exit =>
    dsimp only at hs
    split at hs
    · rename_i pid flags hup r hp
      cases hs
      exact .goes _ .leaving rfl hp (.exit hup r) rfl False.elim
    · cases hs
  | die =>
    dsimp only at hs
    split at hs
    · cases hs
      exact .dies rfl rfl
    · cases hs
  | queue m =>
    dsimp only at hs
    split at hs
    · rename_i p hp
      rw [Option.ite_none_left_eq_some] at hs
      obtain ⟨htunes, hs⟩ := hs
      obtain ⟨node, hnode, rfl⟩ := Option.map_eq_some_iff.mp hs
      refine .goes p p.main rfl hp ?_ (by rw [← hp]) fun h => Or.inr ⟨h, rfl⟩
      rw [SingleNode.cfg_step hnode htunes]
      exact .queue _
    · cases hs
  | scrape values now =>
    dsimp only at hs
    split at hs
    · cases hs
      exact .ticks values now rfl rfl
    · cases hs
  | readPid =>
    dsimp only at hs
    split at hs
    · cases hs
      exact .reads rfl rfl
    · cases hs
  | kill =>
    dsimp only at hs
    split at hs
    · rename_i pid hpush
      cases hs
      exact .kills pid rfl hpush rfl
    · cases hs
  | boot t w r =>
    cases hs
    exact .boots t w r rfl rfl

/-! ### What the controller writes -/

/-- A configuration that the controller has written: one that it has recommended, rounded, with
at most `b` retries. -/
structure Recommended (b : ℤ) (c : BrokerConfig) : Prop where
  rounded : ∃ c₀ : BrokerConfig, c = c₀.rounded ∧ 5 ≤ c₀.taskTimeoutSeconds ∧
    c₀.taskTimeoutSeconds ≤ 300
  maxRetries : 1 ≤ c.maxRetries ∧ c.maxRetries ≤ b ∧ c.maxRetries ≤ 10
  workerCount : 0 ≤ c.workerCount ∧ c.workerCount < 2 ^ 63

/-- What it has written is a file that it may write. -/
theorem Recommended.valid {c : BrokerConfig} (h : Recommended b c) : (dumpToml c).Valid b := by
  obtain ⟨⟨c₀, rfl, hmem⟩, hretries, hworkers⟩ := h
  refine ⟨?_, hretries, hworkers⟩
  rw [tenths_dump_rounded hmem]
  exact tenths_mem hmem

/-- The broker's timeout in nanoseconds, from what was written. -/
theorem Recommended.timeout {c : BrokerConfig} (h : Recommended b c) :
    (dumpToml c).contents.timeout = ⌊fl (c.taskTimeoutSeconds * 10 ^ 9)⌋ := by
  obtain ⟨hlow, -⟩ := timeout_mem h.valid
  obtain ⟨⟨c₀, rfl, hmem⟩, -, -⟩ := h
  rw [contents_dump hmem] at hlow ⊢
  unfold FileConfig.timeout at hlow ⊢
  split_ifs at hlow ⊢ with hpos
  · rfl
  · norm_num at hlow

/-- What is recommended may be written. -/
theorem recommended_rounded (hargs : args.Bounded) {r : RetryModel} (hr : r.AtMost b)
    (snap : QueueSnapshot) (t : TimeoutModel) (w : WorkerModel) :
    Recommended b (recommend snap t w r args).rounded :=
  ⟨⟨_, rfl, timeout_recommend_mem hargs snap t w r⟩, (maxRetries_recommend hr snap t w args).2,
    workerCount_recommend_mem hargs snap t w r⟩

/-- **What a round of the controller does.** The file is replaced by what is recommended, or
what is recommended has been written before, or it is too early. -/
theorem tick_cases (args : Args) (c : Controller) (values : Metrics) (now : ℚ) :
    (∃ b, (c.tick args values now).2 = some b ∧ (c.tick args values now).1.lastWritten = some b ∧
      (c.tick args values now).1.push = .replaced ∧
      ∃ snap t w, b = (recommend snap t w (c.tick args values now).1.retryModel args).rounded) ∨
    (c.tick args values now).2 = none ∧ (c.tick args values now).1.lastWritten = c.lastWritten ∧
      (c.tick args values now).1.push = c.push := by
  unfold Controller.tick
  dsimp only
  split
  · exact Or.inr ⟨rfl, rfl, rfl⟩
  · split
    · exact Or.inr ⟨rfl, rfl, rfl⟩
    · exact Or.inl ⟨_, rfl, rfl, rfl, _, _, _, rfl⟩

/-- The model of the retries after a round. -/
theorem retryModel_tick (args : Args) (c : Controller) (values : Metrics) (now : ℚ) :
    (c.tick args values now).1.retryModel =
      c.retryModel.update (c.collector.parse values now).1 := by
  unfold Controller.tick
  dsimp only
  split
  · rfl
  · split <;> rfl

/-! ### The invariant -/

/-- The broker has the tuning of the file. -/
def Tuned (cfg : SingleNode.Config) (f : TuningFile) : Prop :=
  cfg.taskTimeout = f.contents.timeout ∧ cfg.maxRetries = f.maxRetries

/-- A file that was written has an effect. -/
theorem tuned_tune (hf : f.Valid b) : Tuned (tune cfg f.contents) f := by
  obtain ⟨hlow, -⟩ := timeout_mem hf
  have hretries : 0 < f.contents.maxRetries := hf.maxRetries.1
  constructor
  · exact if_pos (by omega)
  · exact if_pos hretries

/-- The controller has yet to tell this process about the file: it has been restarted and has
written nothing since, or it is on its way to send the signal. -/
def Controller.Unsignalled (c : Controller) (pid : ℕ) : Prop :=
  c.lastWritten = none ∨ c.push = .replaced ∨ c.push = .addressed pid

/-- **The broker has the tuning of the file, or is on its way to it.** -/
def Main.Current (f : TuningFile) (cfg : SingleNode.Config) : Main → Prop
  | .opened | .named | .leaving => True
  | .loaded fc => fc = some f.contents
  | .tuned => Tuned cfg f
  | .serving true _ => True
  | .serving false .woken => True
  | .serving false (.loaded fc) => fc = f.contents
  | .serving false .idle => Tuned cfg f

/-- The broker has loaded this, and not applied it yet. -/
def Main.Holds (fc : FileConfig) : Main → Prop
  | .loaded (some fc') => fc' = fc
  | .serving _ (.loaded fc') => fc' = fc
  | _ => False

/-- The knobs are those of the command line, or of a file. -/
def FromFile (b : ℤ) (flags cfg : SingleNode.Config) : Prop :=
  cfg.taskTimeout = flags.taskTimeout ∧ cfg.maxRetries = flags.maxRetries ∨
    ∃ f : TuningFile, f.Valid b ∧ Tuned cfg f

/-- Whatever the broker does brings it nearer to the file. -/
theorem Goes.current {main main' : Main} (h : Goes toml (some f) cfg cfg' main main')
    (hf : f.Valid b) (hc : main.Current f cfg) : main'.Current f cfg' := by
  cases h with
  | writePid => trivial
  | load => exact loadFileConfig_valid toml hf
  | skip => cases hc
  | apply fc =>
    cases hc
    exact tuned_tune hf
  | notify => exact hc
  | wake => trivial
  | reload hup =>
    cases hup with
    | true => trivial
    | false =>
      rw [loadFileConfig_valid toml hf]
      exact rfl
  | reapply hup fc =>
    cases hup with
    | true => trivial
    | false =>
      obtain rfl : fc = f.contents := hc
      exact tuned_tune hf
  | exit hup r => trivial
  | queue main => exact hc

/-- What a file says that the controller may have written. -/
def Vouched (b : ℤ) (fc : FileConfig) : Prop := ∃ f : TuningFile, f.Valid b ∧ fc = f.contents

/-- The configuration is changed by what has been loaded only. -/
theorem Goes.fromFile {file : Option TuningFile} {flags : SingleNode.Config} {main main' : Main}
    (h : Goes toml file cfg cfg' main main') (hheld : ∀ fc, main.Holds fc → Vouched b fc)
    (ho : FromFile b flags cfg) : FromFile b flags cfg' := by
  cases h with
  | apply fc =>
    obtain ⟨f, hf, rfl⟩ := hheld fc rfl
    exact Or.inr ⟨f, hf, tuned_tune hf⟩
  | reapply hup fc =>
    obtain ⟨f, hf, rfl⟩ := hheld fc rfl
    exact Or.inr ⟨f, hf, tuned_tune hf⟩
  | writePid | load | skip | notify | wake | reload hup | exit hup r | queue main => exact ho

/-- What has been loaded was written. -/
theorem Goes.held {file : Option TuningFile} {main main' : Main}
    (h : Goes toml file cfg cfg' main main') (hvalid : ∀ f, file = some f → f.Valid b)
    (hheld : ∀ fc, main.Holds fc → Vouched b fc) : ∀ fc, main'.Holds fc → Vouched b fc := by
  intro fc hfc
  cases h with
  | load =>
    cases hfile : file with
    | none =>
      rw [hfile] at hfc
      exact hfc.elim
    | some f =>
      rw [hfile, loadFileConfig_valid toml (hvalid f hfile)] at hfc
      exact ⟨f, hvalid f hfile, hfc.symm⟩
  | reload hup =>
    cases hfile : file with
    | none =>
      rw [hfile] at hfc
      exact hfc.elim
    | some f =>
      rw [hfile, loadFileConfig_valid toml (hvalid f hfile)] at hfc
      exact ⟨f, hvalid f hfile, hfc.symm⟩
  | queue main => exact hheld fc hfc
  | writePid | skip | apply fc' | notify | wake | reapply hup fc' | exit hup r => exact hfc.elim

/-- **The invariant**, with at most `b` retries. -/
structure Sound (b : ℤ) (s : ClosedLoop) : Prop where
  atMost : s.controller.retryModel.AtMost b
  listed : ∀ p, s.process = some p → p.main.Listed → s.pidFile = some p.pid
  valid : ∀ f, s.file = some f → f.Valid b
  written : ∀ c, s.controller.lastWritten = some c → Recommended b c ∧ s.file = some (dumpToml c)
  held : ∀ p, s.process = some p → ∀ fc, p.main.Holds fc → Vouched b fc
  fromFile : ∀ p, s.process = some p → FromFile b p.flags s.node.broker.cfg
  current : ∀ p f, s.process = some p → s.file = some f →
    s.controller.Unsignalled p.pid ∨ p.main.Current f s.node.broker.cfg

/-- Nothing has been recommended yet. -/
theorem sound_init (hb : 3 ≤ b) (cfg : SingleNode.Config) : Sound b (.init cfg) where
  atMost := RetryModel.atMost_new hb
  listed p hp := by cases hp
  valid f hf := by cases hf
  written c hc := by cases hc
  held p hp := by cases hp
  fromFile p hp := by cases hp
  current p f hp := by cases hp

/-- Without a process there is less to say. -/
theorem Sound.gone (h : Sound b s) (hprocess : s'.process = none) (hfile : s'.file = s.file)
    (hlast : s'.controller.lastWritten = s.controller.lastWritten)
    (hretry : s'.controller.retryModel = s.controller.retryModel) : Sound b s' := by
  constructor
  · rw [hretry]
    exact h.atMost
  · exact fun p hp => absurd hp (by rw [hprocess]; nofun)
  · rw [hfile]
    exact h.valid
  · rw [hfile, hlast]
    exact h.written
  · exact fun p hp => absurd hp (by rw [hprocess]; nofun)
  · exact fun p hp => absurd hp (by rw [hprocess]; nofun)
  · exact fun p f hp => absurd hp (by rw [hprocess]; nofun)

/-- A broker that starts has the knobs of its command line. -/
theorem Sound.starts (h : Sound b s) {flags : SingleNode.Config}
    (hcfg : s'.node.broker.cfg = flags)
    (hs : s' = { s with
      node := s'.node, process := some ⟨s.nextPid, flags, .opened⟩, nextPid := s.nextPid + 1 }) :
    Sound b s' := by
  have hprocess : s'.process = some ⟨s.nextPid, flags, .opened⟩ := by rw [hs]
  have hfile : s'.file = s.file := by rw [hs]
  have hcontroller : s'.controller = s.controller := by rw [hs]
  constructor
  · rw [hcontroller]
    exact h.atMost
  · rintro p hp hlisted
    rw [hprocess] at hp
    cases hp
    exact hlisted.elim
  · rw [hfile]
    exact h.valid
  · rw [hfile, hcontroller]
    exact h.written
  · rintro p hp fc hfc
    rw [hprocess] at hp
    cases hp
    exact hfc.elim
  · rintro p hp
    rw [hprocess] at hp
    cases hp
    rw [hcfg]
    exact Or.inl ⟨rfl, rfl⟩
  · rintro p f hp -
    rw [hprocess] at hp
    cases hp
    exact Or.inr trivial

/-- The broker goes on. -/
theorem Sound.goes (h : Sound b s) {main : Main} (hp : s.process = some p)
    (hgoes : Goes toml s.file s.node.broker.cfg s'.node.broker.cfg p.main main)
    (hs : s' = { s with node := s'.node, process := some { p with main }, pidFile := s'.pidFile })
    (hpid : main.Listed → s'.pidFile = some p.pid ∨ p.main.Listed ∧ s'.pidFile = s.pidFile) :
    Sound b s' := by
  have hprocess : s'.process = some { p with main } := by rw [hs]
  have hfile : s'.file = s.file := by rw [hs]
  have hcontroller : s'.controller = s.controller := by rw [hs]
  constructor
  · rw [hcontroller]
    exact h.atMost
  · rintro p' hp' hlisted
    rw [hprocess] at hp'
    cases hp'
    rcases hpid hlisted with hnew | ⟨hlisted, hsame⟩
    · exact hnew
    · rw [hsame]
      exact h.listed p hp hlisted
  · rw [hfile]
    exact h.valid
  · rw [hfile, hcontroller]
    exact h.written
  · rintro p' hp'
    rw [hprocess] at hp'
    cases hp'
    exact hgoes.held h.valid (h.held p hp)
  · rintro p' hp'
    rw [hprocess] at hp'
    cases hp'
    exact hgoes.fromFile (h.held p hp) (h.fromFile p hp)
  · rintro p' f hp' hf
    rw [hprocess] at hp'
    cases hp'
    rw [hfile] at hf
    rw [hf] at hgoes
    rw [hcontroller]
    exact (h.current p f hp hf).imp_right (hgoes.current (h.valid f hf))

/-- The file is replaced, or everything is as it was. -/
theorem Sound.ticks (h : Sound b s) (hargs : args.Bounded) (values : Metrics) (now : ℚ) :
    Sound b { s with
      controller := (s.controller.tick args values now).1
      file := ((s.controller.tick args values now).2.map dumpToml).orElse fun _ => s.file } := by
  have hretry : (s.controller.tick args values now).1.retryModel.AtMost b := by
    rw [retryModel_tick]
    exact h.atMost.update _
  rcases tick_cases args s.controller values now with
    ⟨c, hc, hlast, hpush, snap, t, w, rfl⟩ | ⟨hnone, hlast, hpush⟩
  · have hrec := recommended_rounded hargs hretry snap t w
    rw [hc]
    constructor
    · exact hretry
    · exact h.listed
    · rintro f hf
      cases hf
      exact hrec.valid
    · rintro c hc
      rw [hlast] at hc
      cases hc
      exact ⟨hrec, rfl⟩
    · exact h.held
    · exact h.fromFile
    · exact fun p f hp hf => Or.inl (Or.inr (Or.inl hpush))
  · rw [hnone]
    constructor
    · exact hretry
    · exact h.listed
    · exact h.valid
    · rw [hlast]
      exact h.written
    · exact h.held
    · exact h.fromFile
    · rintro p f hp hf
      unfold Controller.Unsignalled
      rw [hlast, hpush]
      exact h.current p f hp hf

/-- **The broker that is listed is the one that is told**, and one that is not has yet to load
the file. -/
theorem Sound.reads (h : Sound b s) : Sound b (s.withPush (s.pidFile.elim .idle .addressed)) := by
  refine ⟨h.atMost, h.listed, h.valid, h.written, h.held, h.fromFile, fun p f hp hf => ?_⟩
  by_cases hlisted : p.main.Listed
  · refine Or.inl (Or.inr (Or.inr ?_))
    show s.pidFile.elim Push.idle .addressed = .addressed p.pid
    rw [h.listed p hp hlisted]
    rfl
  · refine Or.inr ?_
    show p.main.Current f s.node.broker.cfg
    cases hmain : p.main with
    | opened | leaving => trivial
    | named | loaded fc | tuned | serving hup r =>
      rw [hmain] at hlisted
      exact absurd trivial hlisted

/-- What the signal does. -/
theorem hangup_cases (s : ClosedLoop) (pid : ℕ) :
    (∃ p hup r, s.process = some p ∧ p.main = .serving hup r ∧
      s.hangup pid = s.withMain p (.serving true r)) ∨
    s.hangup pid = { s with process := none } ∨
    s.hangup pid = s ∧ ∀ p, s.process = some p → p.pid = pid → p.main = .leaving := by
  unfold ClosedLoop.hangup
  split
  · rename_i hnone
    exact Or.inr (Or.inr ⟨rfl, fun p hp => (by rw [hnone] at hp; cases hp)⟩)
  · rename_i p hp
    split
    · rename_i hpid
      split
      · rename_i hup r hmain
        exact Or.inl ⟨p, hup, r, hp, hmain, rfl⟩
      · rename_i hmain
        refine Or.inr (Or.inr ⟨rfl, fun p' hp' _ => ?_⟩)
        rw [hp] at hp'
        cases hp'
        exact hmain
      · exact Or.inr (Or.inl rfl)
    · rename_i hpid
      refine Or.inr (Or.inr ⟨rfl, fun p' hp' hpid' => ?_⟩)
      rw [hp] at hp'
      cases hp'
      exact absurd hpid' hpid

/-- **The signal** waits for the broker, or kills it, or is not for it. -/
theorem Sound.kills (h : Sound b s) {pid : ℕ} (hpush : s.controller.push = .addressed pid) :
    Sound b ((s.withPush .idle).hangup pid) := by
  rcases hangup_cases (s.withPush .idle) pid with
    ⟨p, hup, r, hp, hmain, heq⟩ | heq | ⟨heq, hleaving⟩
  · -- the signal waits
    rw [heq]
    have hlisted : p.main.Listed := by
      rw [hmain]
      trivial
    have hheld := h.held p hp
    rw [hmain] at hheld
    refine ⟨h.atMost, ?_, h.valid, h.written, ?_, ?_, ?_⟩
    · rintro p' ⟨⟩ -
      exact h.listed p hp hlisted
    · rintro p' ⟨⟩
      cases r <;> exact hheld
    · rintro p' ⟨⟩
      exact h.fromFile p hp
    · rintro p' f ⟨⟩ -
      exact Or.inr trivial
  · rw [heq]
    exact h.gone rfl rfl rfl rfl
  · rw [heq]
    refine ⟨h.atMost, h.listed, h.valid, h.written, h.held, h.fromFile, fun p f hp hf => ?_⟩
    -- the signal was for another process, or for one that is leaving
    rcases h.current p f hp hf with (hlast | hreplaced | haddressed) | hcurrent
    · exact Or.inl (Or.inl hlast)
    · rw [hpush] at hreplaced
      cases hreplaced
    · rw [hpush] at haddressed
      cases haddressed
      refine Or.inr ?_
      rw [hleaving p hp rfl]
      trivial
    · exact Or.inr hcurrent

/-- The controller is started with a model of the retries that recommends at most `b`. -/
def Act.Boots (b : ℤ) : Act → Prop
  | .boot _ _ r => r.AtMost b
  | _ => True

instance (b : ℤ) (a : Act) : Decidable (a.Boots b) := by
  cases a <;> dsimp only [Act.Boots] <;> infer_instance

/-- Five retries are the most in any case. -/
theorem Act.boots_five (a : Act) : a.Boots 5 := by
  cases a with
  | boot t w r => exact r.atMost_five
  | _ => trivial

/-- **Every act keeps the invariant.** -/
theorem Sound.step (h : Sound b s) (hargs : args.Bounded) (ha : a.Boots b)
    (hs : s.step γ toml args a = some s') : Sound b s' := by
  cases effect hs with
  | starts flags _ hnone hcfg hs => exact h.starts hcfg hs
  | goes p main _ hp hgoes hs hpid => exact h.goes hp hgoes hs hpid
  | dies _ hs =>
    rw [hs]
    exact h.gone rfl rfl rfl rfl
  | ticks values now _ hs =>
    rw [hs]
    exact h.ticks hargs values now
  | reads _ hs =>
    rw [hs]
    exact h.reads
  | kills pid _ hpush hs =>
    rw [hs]
    exact h.kills hpush
  | boots t w r hboot hs' =>
    subst hboot
    rw [hs']
    exact ⟨ha, h.listed, h.valid, fun c hc => (by cases hc), h.held, h.fromFile,
      fun p f hp hf => Or.inl (Or.inl rfl)⟩

/-- **The invariant holds in every run**, killed and restarted at any time. -/
theorem sound_run {ms : List Act} (hargs : args.Bounded) (hb : 3 ≤ b)
    (hboots : ∀ a ∈ ms, a.Boots b)
    (hrun : Run.exec (ClosedLoop.step γ toml args) (.init cfg) ms = some s) : Sound b s := by
  refine Run.induction (P := fun ms s => (∀ a ∈ ms, a.Boots b) → Sound b s)
    (fun _ => sound_init hb cfg) (fun ys u x u' _ ih hx hall => ?_) hrun hboots
  exact (ih fun a ha => hall a (List.mem_append_left _ ha)).step hargs
    (hall x (List.mem_append_right _ (List.mem_singleton_self x))) hx

/-! ### What holds once nothing is under way -/

/-- The broker serves, and no signal or reload is under way. -/
def ClosedLoop.Settled (s : ClosedLoop) : Prop :=
  (∃ p, s.process = some p ∧ p.main = .serving false .idle) ∧ s.controller.push = .idle

instance (s : ClosedLoop) : Decidable s.Settled :=
  decidable_of_iff
    (s.process.map Process.main = some (.serving false .idle) ∧ s.controller.push = .idle)
    (and_congr_left' Option.map_eq_some_iff)

/-- Once nothing is under way, the broker has what was written. -/
theorem Sound.settled {c : BrokerConfig} (h : Sound b s) (hsettled : s.Settled)
    (hlast : s.controller.lastWritten = some c) :
    s.node.broker.cfg.taskTimeout = ⌊fl (c.taskTimeoutSeconds * 10 ^ 9)⌋ ∧
      s.node.broker.cfg.maxRetries = c.maxRetries := by
  obtain ⟨⟨p, hp, hmain⟩, hpush⟩ := hsettled
  obtain ⟨hrec, hfile⟩ := h.written c hlast
  rw [← hrec.timeout]
  rcases h.current p _ hp hfile with (hnone | hreplaced | haddressed) | hcurrent
  · rw [hlast] at hnone
    cases hnone
  · rw [hpush] at hreplaced
    cases hreplaced
  · rw [hpush] at haddressed
    cases haddressed
  · rwa [hmain] at hcurrent

/-- **No tuning is lost.** In every state that broker and controller can get to, killed and
restarted at any time, in which the broker serves, its reloader has nothing to do and the
controller is not about to send a signal, the broker works with the timeout and the number
of retries that the running controller has written last, if it has written any. -/
theorem reload_not_lost {ms : List Act} {c : BrokerConfig} (hargs : args.Bounded)
    (hrun : Run.exec (ClosedLoop.step γ toml args) (.init cfg) ms = some s) (hsettled : s.Settled)
    (hlast : s.controller.lastWritten = some c) :
    s.node.broker.cfg.taskTimeout = ⌊fl (c.taskTimeoutSeconds * 10 ^ 9)⌋ ∧
      s.node.broker.cfg.maxRetries = c.maxRetries :=
  (sound_run hargs (by decide) (fun a _ => a.boots_five) hrun).settled hsettled hlast

/-- The default flags, but for the scrapes to wait for. -/
def eager : Args := { Args.default with minSamples := 1 }

/-- The flags of the examples are in order. -/
theorem bounded_eager : eager.Bounded :=
  ⟨le_rfl, by norm_num [eager, Args.default], le_rfl, by decide, by decide, by decide⟩

/-- A broker that starts up. -/
def starting : List Act :=
  [.start 0 [] ⟨3, 30 * 10 ^ 9, 0⟩, .writePid, .load, .apply, .notify]

/-- The controller writes twice before the broker has taken the first signal. -/
def coalesced : List Act :=
  starting ++ [.scrape ⟨0, 0, 0, 0, 0⟩ 0, .readPid, .kill, .scrape ⟨0, 0, 0, 10, 40⟩ 10, .readPid,
    .kill, .wake, .load, .apply]

/-- The one signal that was left is enough. -/
theorem reload_not_lost_coalesced :
    ∃ s c, Run.exec (ClosedLoop.step plainCodec plainToml eager) (.init ⟨3, 30 * 10 ^ 9, 0⟩)
        coalesced = some s ∧ s.controller.lastWritten = some c ∧ c.maxRetries = 2 ∧
      s.node.broker.cfg.taskTimeout = ⌊fl (c.taskTimeoutSeconds * 10 ^ 9)⌋ ∧
      s.node.broker.cfg.maxRetries = c.maxRetries := by
  have hend : (Run.exec (ClosedLoop.step plainCodec plainToml eager) (.init ⟨3, 30 * 10 ^ 9, 0⟩)
      coalesced).map (fun s => (decide s.Settled,
        s.controller.lastWritten.map BrokerConfig.maxRetries)) = some (true, some 2) := by
    decide +kernel
  obtain ⟨s, hrun, hlast⟩ := Option.map_eq_some_iff.mp hend
  simp only [Prod.mk.injEq, decide_eq_true_eq, Option.map_eq_some_iff] at hlast
  obtain ⟨hsettled, c, hc, htwo⟩ := hlast
  exact ⟨s, c, hrun, hc, htwo, reload_not_lost bounded_eager hrun hsettled hc⟩

/-- **The broker is never out of bounds.** Whatever the controller has seen, whatever it was
started with, and whenever its signals have come, the knobs of a running broker are those of its
command line, or a timeout between five seconds and five minutes and one to `b` retries. Here `b`
may be five, and it may be three if the controller was never started with a model of the retries
whose value is above that. -/
theorem tuning_in_bounds {ms : List Act} (hargs : args.Bounded) (hb : 3 ≤ b)
    (hboots : ∀ a ∈ ms, a.Boots b)
    (hrun : Run.exec (ClosedLoop.step γ toml args) (.init cfg) ms = some s)
    (hp : s.process = some p) :
    s.node.broker.cfg.taskTimeout = p.flags.taskTimeout ∧
        s.node.broker.cfg.maxRetries = p.flags.maxRetries ∨
      (5 * 10 ^ 9 ≤ s.node.broker.cfg.taskTimeout ∧
          s.node.broker.cfg.taskTimeout ≤ 300 * 10 ^ 9) ∧
        1 ≤ s.node.broker.cfg.maxRetries ∧ s.node.broker.cfg.maxRetries ≤ b := by
  refine ((sound_run hargs hb hboots hrun).fromFile p hp).imp_right ?_
  rintro ⟨f, hf, htimeout, hretries⟩
  rw [htimeout, hretries]
  exact ⟨timeout_mem hf, hf.maxRetries.1, hf.maxRetries.2.1⟩

theorem tuning_in_bounds_coalesced :
    ∃ s p, Run.exec (ClosedLoop.step plainCodec plainToml eager) (.init ⟨3, 30 * 10 ^ 9, 0⟩)
        coalesced = some s ∧ s.process = some p ∧
      s.node.broker.cfg.maxRetries ≠ p.flags.maxRetries ∧
      (s.node.broker.cfg.taskTimeout = p.flags.taskTimeout ∧
          s.node.broker.cfg.maxRetries = p.flags.maxRetries ∨
        (5 * 10 ^ 9 ≤ s.node.broker.cfg.taskTimeout ∧
            s.node.broker.cfg.taskTimeout ≤ 300 * 10 ^ 9) ∧
          1 ≤ s.node.broker.cfg.maxRetries ∧ s.node.broker.cfg.maxRetries ≤ 3) := by
  have hend : (Run.exec (ClosedLoop.step plainCodec plainToml eager) (.init ⟨3, 30 * 10 ^ 9, 0⟩)
      coalesced).map (fun s => (s.process.map fun p => p.flags.maxRetries,
        s.node.broker.cfg.maxRetries)) = some (some 3, 2) := by
    decide +kernel
  obtain ⟨s, hrun, hlast⟩ := Option.map_eq_some_iff.mp hend
  simp only [Prod.mk.injEq, Option.map_eq_some_iff] at hlast
  obtain ⟨⟨p, hp, hthree⟩, htwo⟩ := hlast
  refine ⟨s, p, hrun, hp, ?_, tuning_in_bounds bounded_eager le_rfl (by decide) hrun hp⟩
  rw [htwo, hthree]
  decide

end Control

end DistQueue
