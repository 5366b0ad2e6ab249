import DistQueue.Control.Models

/-!
# The tuning file

What the controller recommends (`DistQueue.Control.recommend`), how it is written – the
timeout in seconds, to one decimal – and what the broker makes of it when it loads the file:
a double again, and then a number of nanoseconds.

The file is read by a TOML library, which is not modelled: it is a parameter
(`DistQueue.Control.Toml`), and all that is asked of it is that it reads the files that the
controller writes as they are printed.

The timeout is rounded before it is compared with the last one that was written, and again
when it is printed. The second rounding changes nothing, and what the broker reads is the
double that the controller has compared (`DistQueue.Control.contents_dump`): both speak about
the same number, although neither can write it down in binary. With the flags of the
controller in order and within the bounds of its model, what a file says is always a timeout
between five seconds and five minutes, and one to five retries – to three, if no state that a
controller has started with was above that (`DistQueue.Control.TuningFile.Valid`).
-/

namespace DistQueue

namespace Control

/-! ### What is recommended -/

/-- What the controller sets. -/
structure BrokerConfig where
  taskTimeoutSeconds : ℚ
  /-- Advice for the workers; the broker ignores it. -/
  workerCount : ℤ
  maxRetries : ℤ
  deriving DecidableEq

/-- The flags of the controller. -/
structure Args where
  /-- Scrapes before anything is written. -/
  minSamples : ℤ
  timeoutMin : ℚ
  timeoutMax : ℚ
  workersMin : ℤ
  workersMax : ℤ

/-- The flags' defaults. -/
def Args.default : Args := ⟨5, 5, 300, 1, 32⟩

/-- The flags are in order: the timeouts within the bounds of the model, and the numbers of
workers within 64 bits. -/
structure Args.Bounded (args : Args) : Prop where
  low : 5 ≤ args.timeoutMin
  ordered : args.timeoutMin ≤ args.timeoutMax
  high : args.timeoutMax ≤ 300
  workersLow : 0 ≤ args.workersMin
  workersOrdered : args.workersMin ≤ args.workersMax
  workersHigh : args.workersMax < 2 ^ 63

namespace BrokerConfig

/-- Every number within the bounds of its flags. -/
def clamp (cfg : BrokerConfig) (args : Args) : BrokerConfig where
  taskTimeoutSeconds := Control.clamp cfg.taskTimeoutSeconds args.timeoutMin args.timeoutMax
  workerCount := Control.clamp cfg.workerCount args.workersMin args.workersMax
  maxRetries := Control.clamp cfg.maxRetries 1 10

/-- The timeout to a tenth of a second, as the double that is nearest to it. -/
def rounded (cfg : BrokerConfig) : BrokerConfig :=
  { cfg with taskTimeoutSeconds := fl (roundEven (cfg.taskTimeoutSeconds * 10) / 10) }

end BrokerConfig

/-- What the models recommend, within the bounds of the flags. -/
def recommend (snap : QueueSnapshot) (t : TimeoutModel) (w : WorkerModel) (r : RetryModel)
    (args : Args) : BrokerConfig :=
  BrokerConfig.clamp
    { taskTimeoutSeconds := t.predict
      workerCount := roundEven (w.predict snap)
      maxRetries := roundEven r.predict } args

section Recommend

variable {r : RetryModel} {args : Args} {b : ℤ}

/-- The timeout that is recommended. -/
theorem timeout_recommend_mem (hargs : args.Bounded) (snap : QueueSnapshot) (t : TimeoutModel)
    (w : WorkerModel) (r : RetryModel) :
    5 ≤ (recommend snap t w r args).taskTimeoutSeconds ∧
      (recommend snap t w r args).taskTimeoutSeconds ≤ 300 := by
  obtain ⟨hlow, hhigh⟩ := clamp_mem t.predict hargs.ordered
  exact ⟨hargs.low.trans hlow, hhigh.trans hargs.high⟩

/-- The model's number of retries is not clamped any more. -/
theorem maxRetries_recommend (hr : r.AtMost b) (snap : QueueSnapshot) (t : TimeoutModel)
    (w : WorkerModel) (args : Args) :
    ((recommend snap t w r args).maxRetries : ℚ) = r.predict ∧
      1 ≤ (recommend snap t w r args).maxRetries ∧ (recommend snap t w r args).maxRetries ≤ b ∧
      (recommend snap t w r args).maxRetries ≤ 10 := by
  obtain ⟨n, hn, hlow, hhigh, hfive⟩ := hr.predict_mem
  have heq : (recommend snap t w r args).maxRetries = n := by
    rw [recommend, BrokerConfig.clamp, hn, roundEven_intCast]
    exact clamp_of_mem ⟨hlow, hfive.trans (by decide)⟩
  rw [heq, hn]
  exact ⟨rfl, hlow, hhigh, hfive.trans (by decide)⟩

/-- The number of workers that is recommended. -/
theorem workerCount_recommend_mem (hargs : args.Bounded) (snap : QueueSnapshot)
    (t : TimeoutModel) (w : WorkerModel) (r : RetryModel) :
    0 ≤ (recommend snap t w r args).workerCount ∧
      (recommend snap t w r args).workerCount < 2 ^ 63 := by
  obtain ⟨hlow, hhigh⟩ := clamp_mem (roundEven (w.predict snap)) hargs.workersOrdered
  exact ⟨hargs.workersLow.trans hlow, hhigh.trans_lt hargs.workersHigh⟩

end Recommend

/-! ### The file -/

/-- The numbers that the file has, as they are printed: the timeout in tenths of a second. -/
structure TuningFile where
  tenths : ℤ
  workerCount : ℤ
  maxRetries : ℤ
  deriving DecidableEq

/-- What the broker reads. -/
structure FileConfig where
  taskTimeoutSeconds : ℚ
  maxRetries : ℤ
  workerCount : ℤ
  deriving DecidableEq

/-- The numbers of a configuration, as they are printed. -/
def dumpToml (cfg : BrokerConfig) : TuningFile :=
  ⟨roundEven (cfg.taskTimeoutSeconds * 10), cfg.workerCount, cfg.maxRetries⟩

/-- **A file that the controller may have written**, with at most `b` retries. -/
structure TuningFile.Valid (b : ℤ) (f : TuningFile) : Prop where
  tenths : 50 ≤ f.tenths ∧ f.tenths ≤ 3000
  maxRetries : 1 ≤ f.maxRetries ∧ f.maxRetries ≤ b ∧ f.maxRetries ≤ 10
  workerCount : 0 ≤ f.workerCount ∧ f.workerCount < 2 ^ 63

/-- What the file says, with the timeout as the double that is nearest to it. -/
def TuningFile.contents (f : TuningFile) : FileConfig :=
  ⟨fl (f.tenths / 10), f.maxRetries, f.workerCount⟩

/-- **The TOML library.** It reads what the controller may have written as it is printed, and
about other files nothing is said. -/
structure Toml where
  /-- What is made of a file, if it can be read. -/
  decodeFile : TuningFile → Option FileConfig
  decodeFile_valid : ∀ f : TuningFile, f.Valid 10 → decodeFile f = some f.contents

/-- The library that does no more than that. -/
def plainToml : Toml := ⟨fun f => some f.contents, fun _ _ => rfl⟩

/-- The tuning file is read, if there is one. -/
def loadFileConfig (toml : Toml) (file : Option TuningFile) : Option FileConfig :=
  file.bind toml.decodeFile

/-- The timeout in nanoseconds, as `applyFileConfig` hands it on; it is zero, and then
ignored, unless it is positive. -/
def FileConfig.timeout (fc : FileConfig) : ℤ :=
  if 0 < fc.taskTimeoutSeconds then ⌊fl (fc.taskTimeoutSeconds * 10 ^ 9)⌋ else 0

section Files

variable {cfg : BrokerConfig} {f : TuningFile} {n b : ℤ}

/-- What is valid is within the broker's own bound. -/
theorem TuningFile.Valid.ten (hf : f.Valid b) : f.Valid 10 :=
  ⟨hf.tenths, ⟨hf.maxRetries.1, hf.maxRetries.2.2, hf.maxRetries.2.2⟩, hf.workerCount⟩

/-- A file that was written is read. -/
theorem loadFileConfig_valid (toml : Toml) (hf : f.Valid b) :
    loadFileConfig toml (some f) = some f.contents := toml.decodeFile_valid f hf.ten

/-- A number of tenths is read off the double that is nearest to it. -/
theorem roundEven_tenths (h : |n| ≤ 3000) : roundEven (fl (n / 10) * 10) = n := by
  have hn : |(n : ℚ)| ≤ 3000 := by exact_mod_cast h
  have hlow := abs_le.mp hn
  have hnear := abs_le.mp (fl_near (x := (n : ℚ) / 10) (by rw [abs_le]; constructor <;> linarith))
  refine roundEven_eq ?_
  rw [abs_lt]
  constructor <;> linarith

/-- The number of tenths that is written. -/
theorem tenths_mem (h : 5 ≤ cfg.taskTimeoutSeconds ∧ cfg.taskTimeoutSeconds ≤ 300) :
    50 ≤ roundEven (cfg.taskTimeoutSeconds * 10) ∧
      roundEven (cfg.taskTimeoutSeconds * 10) ≤ 3000 := by
  constructor
  · refine le_roundEven ?_
    push_cast
    linarith
  · refine roundEven_le ?_
    push_cast
    linarith

/-- Rounding before the file is written changes nothing in it. -/
theorem tenths_dump_rounded (h : 5 ≤ cfg.taskTimeoutSeconds ∧ cfg.taskTimeoutSeconds ≤ 300) :
    (dumpToml cfg.rounded).tenths = roundEven (cfg.taskTimeoutSeconds * 10) := by
  obtain ⟨hlow, hhigh⟩ := tenths_mem h
  exact roundEven_tenths (by rw [abs_le]; omega)

/-- **What is written is what is read.** -/
theorem contents_dump (h : 5 ≤ cfg.taskTimeoutSeconds ∧ cfg.taskTimeoutSeconds ≤ 300) :
    (dumpToml cfg.rounded).contents =
      ⟨cfg.rounded.taskTimeoutSeconds, cfg.rounded.maxRetries, cfg.rounded.workerCount⟩ := by
  have htenths := tenths_dump_rounded h
  rw [TuningFile.contents, htenths]
  rfl

/-- **The broker's timeout is between five seconds and five minutes**, to the nanosecond:
both are doubles, and rounding does not lead across them. -/
theorem timeout_mem (hf : f.Valid b) :
    5 * 10 ^ 9 ≤ f.contents.timeout ∧ f.contents.timeout ≤ 300 * 10 ^ 9 := by
  obtain ⟨hlow, hhigh⟩ := hf.tenths
  have hlow' : (50 : ℚ) ≤ f.tenths := by exact_mod_cast hlow
  have hhigh' : (f.tenths : ℚ) ≤ 3000 := by exact_mod_cast hhigh
  have hseconds₁ : ((5 : ℤ) : ℚ) ≤ fl (f.tenths / 10) :=
    le_fl (by decide) (by decide) (by push_cast; linarith)
  have hseconds₂ : fl (f.tenths / 10) ≤ ((300 : ℤ) : ℚ) :=
    fl_le (by decide) (by decide) (by push_cast; linarith)
  push_cast at hseconds₁ hseconds₂
  have hnanos₁ : ((5 * 10 ^ 9 : ℤ) : ℚ) ≤ fl (fl (f.tenths / 10) * 10 ^ 9) :=
    le_fl (by decide) (by decide) (by push_cast; linarith)
  have hnanos₂ : fl (fl (f.tenths / 10) * 10 ^ 9) ≤ ((300 * 10 ^ 9 : ℤ) : ℚ) :=
    fl_le (by decide) (by decide) (by push_cast; linarith)
  have htimeout : f.contents.timeout = ⌊fl (fl (f.tenths / 10) * 10 ^ 9)⌋ :=
    if_pos (by show (0 : ℚ) < fl (f.tenths / 10); linarith)
  rw [htimeout]
  refine ⟨Int.le_floor.mpr hnanos₁, Int.cast_le.mp ((Int.floor_le _).trans hnanos₂)⟩

end Files

end Control

end DistQueue
