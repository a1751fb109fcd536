import SlurmLite.Base.Sums
import SlurmLite.JobacctAggregate
import SlurmLite.Sacct.Print

/-!
# The sums of a job over its steps

The times and statistics of a job as `mysql_jobacct_process_get_jobs` collects
them with the rows of the steps, `get_data` sums them up, `do_list` and
`do_dump` average them and `print_fields` hands them over.

* **Reading** (`readStep`, `readSteps`): the records of the steps, in the
  default build and with `NEWQUERY`.
* **Averages** (`divisor_iff`): when the number of steps that the sums are divided
  by is the number of steps in them.
* **Times** (`timesAgree_iff`): when the times of the job are those of its
  completed steps, and user and system time make up the total.
-/

namespace Slurm.Jobacct

open Base.Bytes Base.CLib Base.Sums

/-! ## Reading the steps -/

/-- `JOB_COMPLETE`. -/
def jobComplete : UInt32 := 3

/-- `create_jobacct_step_rec`. -/
def createJobacctStepRec : StepRec :=
  { elapsed := noVal, end_ := 0, exitcode := noVal.toInt32, ncpus := noVal, nnodes := 0
    nodes := none, ntasks := 0, requid := -1, sacct := .zero, start := 0, state := noVal
    stepid := noVal, stepname := none, suspended := 0, sysCpuSec := 0, sysCpuUsec := 0
    taskDist := 0, totCpuSec := noVal, totCpuUsec := noVal, userCpuSec := 0, userCpuUsec := 0 }

/-- A row of the step table, its columns read as numbers. -/
structure StepRow where
  stepid : UInt32
  start : Int64
  end_ : Int64
  suspended : UInt32
  name : Option CString
  nodelist : Option CString
  state : UInt32
  killRequid : UInt32
  compCode : Int32
  nodes : UInt32
  cpus : UInt32
  tasks : UInt32
  taskDist : UInt16
  userSec : UInt32
  userUsec : UInt32
  sysSec : UInt32
  sysUsec : UInt32
  sacct : Sacct

/-- What the step loop reads besides the rows: the build, the clock, the usage
window if the times are cut to it, and whether the job had ended. -/
structure Reading where
  newquery : Bool
  now : Int64
  window : Option (Int64 × Int64)
  jobEnded : Bool

/-- Start and end of a step, cut to the usage window. -/
def cutToWindow (window : Option (Int64 × Int64)) (start end_ : Int64) : Int64 × Int64 :=
  match window with
  | none => (start, end_)
  | some (usageStart, usageEnd) =>
    let start := if start ≠ 0 ∧ start < usageStart then usageStart else start
    let start := if start = 0 ∧ end_ ≠ 0 then end_ else start
    (start, if end_ = 0 ∨ usageEnd < end_ then usageEnd else end_)

/-- `step->elapsed`. -/
def stepElapsed (reading : Reading) (start end_ : Int64) (suspended : UInt32) : UInt32 :=
  let elapsed : Int64 :=
    if reading.newquery ∧ start = 0 then 0
    else if end_ = 0 then reading.now - start
    else end_ - start
  let elapsed := elapsed.toUInt64.toUInt32 - suspended
  if elapsed.toInt32 < 0 then 0 else elapsed

/-- The times and statistics of a row. With `NEWQUERY` they are read only where
`min_cpu` is set, and the totals start at zero. -/
def readTimes (newquery : Bool) (row : StepRow) (step : StepRec) : StepRec :=
  let step := if newquery then { step with totCpuSec := 0, totCpuUsec := 0 } else step
  if newquery ∧ ¬(row.sacct.minCpu != noVal.toFloat32) then
    { step with sacct := { step.sacct with minCpu := row.sacct.minCpu } }
  else
    { step with
      userCpuSec := row.userSec, userCpuUsec := row.userUsec
      sysCpuSec := row.sysSec, sysCpuUsec := row.sysUsec
      totCpuSec := step.totCpuSec + (row.userSec + row.sysSec)
      totCpuUsec := step.totCpuUsec + (row.userUsec + row.sysUsec)
      sacct := row.sacct }

/-- The record of a step row. -/
def readStep (reading : Reading) (job : JobRec) (row : StepRow) : StepRec :=
  let ended := row.end_ = 0 ∧ reading.jobEnded
  let times := cutToWindow reading.window row.start (if ended then job.end_ else row.end_)
  readTimes reading.newquery row
    { createJobacctStepRec with
      stepid := row.stepid
      state := if ended then job.state else row.state
      exitcode := row.compCode, ncpus := row.cpus, nnodes := row.nodes
      ntasks := if row.tasks = 0 then row.cpus else row.tasks
      taskDist := row.taskDist, start := times.1, end_ := times.2
      suspended := row.suspended
      elapsed := stepElapsed reading times.1 times.2 row.suspended
      stepname := row.name, nodes := row.nodelist, requid := row.killRequid }

/-- One turn of the step loop. The default build adds the totals of the step to
the job. -/
def addRow (reading : Reading) (job : JobRec) (row : StepRow) : JobRec :=
  let step := readStep reading job row
  let job := { job with steps := job.steps ++ [step] }
  if reading.newquery then job
  else
    { job with
      totCpuSec := job.totCpuSec + step.totCpuSec
      totCpuUsec := job.totCpuUsec + step.totCpuUsec }

/-- `track_steps` after the steps were read. -/
def trackSteps (job : JobRec) : UInt16 :=
  if job.trackSteps ≠ 0 then job.trackSteps
  else if 1 < job.steps.length then 1
  else
    match job.steps.getLast?.bind (·.stepname), job.jobname with
    | some stepname, some jobname => if stepname ≠ jobname then 1 else 0
    | _, _ => 0

/-- The record of a job row before its steps are read: what no column sets is as
`create_jobacct_job_rec` leaves it. -/
def jobRecord (columns : JobRec) : JobRec :=
  { columns with
    sacct := createJobacctJobRec.sacct, steps := createJobacctJobRec.steps
    userCpuSec := createJobacctJobRec.userCpuSec, userCpuUsec := createJobacctJobRec.userCpuUsec
    sysCpuSec := createJobacctJobRec.sysCpuSec, sysCpuUsec := createJobacctJobRec.sysCpuUsec
    totCpuSec := createJobacctJobRec.totCpuSec, totCpuUsec := createJobacctJobRec.totCpuUsec }

/-- The record of a job with the rows of its steps. -/
def readSteps (reading : Reading) (columns : JobRec) (rows : List StepRow) : JobRec :=
  let job := rows.foldl (addRow reading) (jobRecord columns)
  { job with trackSteps := trackSteps job }

/-! ## Summing up -/

/-- `aggregate_sacct`: `dest` afterwards. -/
def aggregateSacct (dest from_ : Sacct) : Sacct :=
  let vsize := larger (dest.maxVsize, dest.maxVsizeId) (from_.maxVsize, from_.maxVsizeId)
  let rss := larger (dest.maxRss, dest.maxRssId) (from_.maxRss, from_.maxRssId)
  let pages := larger (dest.maxPages, dest.maxPagesId) (from_.maxPages, from_.maxPagesId)
  let min :=
    if dest.minCpu > from_.minCpu ∨ dest.minCpu == noVal.toFloat32 then
      (from_.minCpu, from_.minCpuId)
    else (dest.minCpu, dest.minCpuId)
  { maxVsize := vsize.1, maxVsizeId := vsize.2, aveVsize := dest.aveVsize + from_.aveVsize
    maxRss := rss.1, maxRssId := rss.2, aveRss := dest.aveRss + from_.aveRss
    maxPages := pages.1, maxPagesId := pages.2, avePages := dest.avePages + from_.avePages
    minCpu := min.1, minCpuId := min.2, aveCpu := dest.aveCpu + from_.aveCpu }

/-- A job in the loop of `get_data`, with the statistics that `aggregate_sacct`
was called with. -/
structure Summing where
  job : JobRec
  calls : List Sacct

/-- One turn of the loop over the steps. -/
def sumStep (s : Summing) (step : StepRec) : Summing :=
  let job := { s.job with allocCpus := max s.job.allocCpus step.ncpus }
  if step.state < jobComplete then { s with job := job }
  else
    { job := { job with
        totCpuSec := job.totCpuSec + step.totCpuSec
        totCpuUsec := job.totCpuUsec + step.totCpuUsec
        userCpuSec := job.userCpuSec + step.userCpuSec
        userCpuUsec := job.userCpuUsec + step.userCpuUsec
        sysCpuSec := job.sysCpuSec + step.sysCpuSec
        sysCpuUsec := job.sysCpuUsec + step.sysCpuUsec
        sacct := aggregateSacct job.sacct step.sacct }
      calls := s.calls ++ [step.sacct] }

/-- The job before the loop over its steps; `getpwnam` gives the id of a user. -/
def beginSum (getpwnam : CString → Option UInt32) (job : JobRec) : Summing :=
  ⟨{ job with uid := (job.user.bind getpwnam).getD job.uid }, []⟩

/-- What `get_data` does with one job. -/
def sumJob (getpwnam : CString → Option UInt32) (job : JobRec) : Summing :=
  if job.steps.isEmpty then beginSum getpwnam job
  else job.steps.foldl sumStep (beginSum getpwnam job)

/-- `list_count(job->steps)`, which the sums of a job are divided by. -/
def divisor (job : JobRec) : Nat := job.steps.length

/-- The averages of a job. -/
def average (job : JobRec) : JobRec :=
  let sacct := if job.sacct.minCpu == noVal.toFloat32 then { job.sacct with minCpu := 0 }
    else job.sacct
  if divisor job = 0 then { job with sacct := sacct }
  else
    let count := (divisor job).toFloat32
    { job with sacct := { sacct with
        aveCpu := sacct.aveCpu / count, aveRss := sacct.aveRss / count
        aveVsize := sacct.aveVsize / count, avePages := sacct.avePages / count } }

/-- `do_list`, what it does to a job before it prints it. -/
def doListJob (job : JobRec) : JobRec := average job

/-- `do_dump`, what it does to a job before it prints it. -/
def doDumpJob (job : JobRec) : JobRec := average job

/-- The step has ended. -/
def StepRec.completed (step : StepRec) : Bool := jobComplete ≤ step.state

/-- The completed steps of a job. -/
def JobRec.completed (job : JobRec) : List StepRec := job.steps.filter StepRec.completed

/-! ## Averages -/

theorem not_completed {step : StepRec} (h : step.state < jobComplete) :
    ¬step.completed = true := by
  rw [StepRec.completed, decide_eq_true_iff]
  exact UInt32.not_le.mpr h

theorem completed_of_not_lt {step : StepRec} (h : ¬step.state < jobComplete) :
    step.completed = true := by
  rw [StepRec.completed, decide_eq_true_iff]
  exact UInt32.not_lt.mp h

/-- `aggregate_sacct` is called for the completed steps, in their order. -/
theorem calls_sumSteps (s : Summing) (steps : List StepRec) :
    (steps.foldl sumStep s).calls =
      s.calls ++ (steps.filter StepRec.completed).map (·.sacct) := by
  induction steps generalizing s with
  | nil => exact (List.append_nil _).symm
  | cons step steps ih =>
    rw [List.foldl_cons, ih, sumStep]
    split
    · rename_i h
      rw [List.filter_cons_of_neg (not_completed h)]
    · rename_i h
      rw [List.filter_cons_of_pos (completed_of_not_lt h), List.map_cons, List.append_assoc]
      rfl

/-- The statistics of the job hold those it was called with. -/
theorem sacct_sumSteps {s : Summing} {sacct : Sacct} (steps : List StepRec)
    (h : s.job.sacct = s.calls.foldl aggregateSacct sacct) :
    (steps.foldl sumStep s).job.sacct =
      (steps.foldl sumStep s).calls.foldl aggregateSacct sacct := by
  induction steps generalizing s with
  | nil => exact h
  | cons step steps ih =>
    refine ih ?_
    rw [sumStep]
    split
    · exact h
    · rw [List.foldl_append, ← h]
      rfl

theorem sumStep_steps (s : Summing) (step : StepRec) :
    (sumStep s step).job.steps = s.job.steps := by
  rw [sumStep]
  split <;> rfl

theorem steps_sumSteps (s : Summing) (steps : List StepRec) :
    (steps.foldl sumStep s).job.steps = s.job.steps := by
  induction steps generalizing s with
  | nil => rfl
  | cons step steps ih => rw [List.foldl_cons, ih, sumStep_steps]

/-- A job without steps is passed over, as an empty loop would do. -/
theorem sumJob_eq (getpwnam : CString → Option UInt32) (job : JobRec) :
    sumJob getpwnam job = job.steps.foldl sumStep (beginSum getpwnam job) := by
  rw [sumJob]
  split
  · rename_i h
    rw [List.isEmpty_iff.mp h]
    rfl
  · rfl

theorem steps_sumJob (getpwnam : CString → Option UInt32) (job : JobRec) :
    (sumJob getpwnam job).job.steps = job.steps := by
  rw [sumJob_eq, steps_sumSteps]
  rfl

/-- The sums of a job are divided by the number of steps in them exactly when all
its steps have ended. -/
theorem divisor_iff (getpwnam : CString → Option UInt32) (job : JobRec) :
    (sumJob getpwnam job).job.sacct =
        (sumJob getpwnam job).calls.foldl aggregateSacct job.sacct ∧
      (divisor (sumJob getpwnam job).job = (sumJob getpwnam job).calls.length ↔
        ∀ step ∈ job.steps, jobComplete ≤ step.state) := by
  constructor
  · rw [sumJob_eq]
    exact sacct_sumSteps job.steps rfl
  · rw [divisor, steps_sumJob, sumJob_eq, calls_sumSteps, List.length_append, List.length_map]
    have hcalls : (beginSum getpwnam job).calls.length = 0 := rfl
    rw [hcalls, Nat.zero_add, eq_comm, List.length_filter_eq_length_iff]
    refine forall₂_congr fun step hstep => ?_
    rw [StepRec.completed, decide_eq_true_iff]

/-- The columns of a running job. -/
def runningColumns : JobRec := { createJobacctJobRec with jobid := 1, state := 1, start := 100 }

/-- The row of a step in a state, with its user and system seconds. -/
def stepRow (state userSec sysSec : UInt32) : StepRow :=
  { stepid := 0, start := 100, end_ := 0, suspended := 0, name := none, nodelist := none
    state := state, killRequid := 0, compCode := 0, nodes := 1, cpus := 1, tasks := 1
    taskDist := 0, userSec := userSec, userUsec := 0, sysSec := sysSec, sysUsec := 0
    sacct := .zero }

/-- The default build at some time, no usage window and a job that runs on. -/
def plainReading : Reading := ⟨false, 200, none, false⟩

/-- A job of one step that is still running is divided by one. -/
theorem not_divisor_running :
    ¬divisor (sumJob (fun _ => none) (readSteps plainReading runningColumns [stepRow 1 0 0])).job =
      (sumJob (fun _ => none)
        (readSteps plainReading runningColumns [stepRow 1 0 0])).calls.length := by
  decide +kernel

/-! ## Times -/

/-- What `print_fields` passes to `_elapsed_time` for `SystemCPU` of a job. -/
def passedSystemcpu (job : JobRec) : Int × Int :=
  (int32 job.sysCpuSec.toNat, int32 job.sysCpuUsec.toNat)

/-- What it passes for `TotalCPU`. -/
def passedTotalcpu (job : JobRec) : Int × Int :=
  (int32 job.totCpuSec.toNat, int32 job.totCpuUsec.toNat)

/-- What it passes for `UserCPU`: the microseconds are those of the total. -/
def passedUsercpu (job : JobRec) : Int × Int :=
  (int32 job.userCpuSec.toNat, int32 job.totCpuUsec.toNat)

/-- What is handed over, in microseconds. -/
def inMicros (time : Int × Int) : Int := time.1 * 1000000 + time.2

/-- A counter over steps, without wrapping. -/
def total (counter : StepRec → UInt32) (steps : List StepRec) : Nat :=
  (steps.map fun step => (counter step).toNat).sum

/-- The times of a job are those of its completed steps, and the user and the
system time that are printed make up the total. -/
structure TimesAgree (job : JobRec) : Prop where
  user : micros job.userCpuSec job.userCpuUsec =
    (job.completed.map fun step => micros step.userCpuSec step.userCpuUsec).sum
  sys : micros job.sysCpuSec job.sysCpuUsec =
    (job.completed.map fun step => micros step.sysCpuSec step.sysCpuUsec).sum
  handed : inMicros (passedUsercpu job) + inMicros (passedSystemcpu job) =
    inMicros (passedTotalcpu job)

/-- No counter of the steps wraps. -/
structure Fits (steps : List StepRec) : Prop where
  userSec : total StepRec.userCpuSec steps < 4294967296
  userUsec : total StepRec.userCpuUsec steps < 4294967296
  sysSec : total StepRec.sysCpuSec steps < 4294967296
  sysUsec : total StepRec.sysCpuUsec steps < 4294967296

/-- User and system seconds of steps. -/
def cpuSecs (steps : List StepRec) : Nat :=
  total StepRec.userCpuSec steps + total StepRec.sysCpuSec steps

/-- When the total of a job is its user and system time. With `NEWQUERY` the
system time has no microseconds and the seconds fit an `int`. The default build
counts every step once, with two seconds less, and the completed ones again: the
microseconds have to make up for that. -/
def Balanced (newquery : Bool) (steps : List StepRec) : Prop :=
  let completed := steps.filter StepRec.completed
  let user := int32 (total StepRec.userCpuSec completed)
  let sys := int32 (total StepRec.sysCpuSec completed)
  if newquery then
    total StepRec.sysCpuUsec completed = 0 ∧ -2147483648 ≤ user + sys ∧ user + sys < 2147483648
  else
    int32 (total StepRec.sysCpuUsec completed) = 1000000 *
      (int32 (cpuSecs steps + cpuSecs completed - 2 * (steps.length + completed.length)) -
        (user + sys))

/-! ### The counters of the loops -/

/-- A counter of the job to which every completed step adds its own. -/
theorem counter_sumSteps {jobCounter : JobRec → UInt32} {counter : StepRec → UInt32}
    (h : ∀ s step, jobCounter (sumStep s step).job =
      jobCounter s.job + if step.completed then counter step else 0)
    (s : Summing) (steps : List StepRec) :
    jobCounter (steps.foldl sumStep s).job =
      jobCounter s.job + ((steps.filter StepRec.completed).map counter).sum := by
  rw [foldl_adds (fun s : Summing => jobCounter s.job) _ h, sum_map_ite]

/-- What a turn leaves of a counter. -/
theorem sumStep_job (s : Summing) (step : StepRec) :
    (sumStep s step).job =
      if step.completed then
        { s.job with
          allocCpus := max s.job.allocCpus step.ncpus
          totCpuSec := s.job.totCpuSec + step.totCpuSec
          totCpuUsec := s.job.totCpuUsec + step.totCpuUsec
          userCpuSec := s.job.userCpuSec + step.userCpuSec
          userCpuUsec := s.job.userCpuUsec + step.userCpuUsec
          sysCpuSec := s.job.sysCpuSec + step.sysCpuSec
          sysCpuUsec := s.job.sysCpuUsec + step.sysCpuUsec
          sacct := aggregateSacct s.job.sacct step.sacct }
      else { s.job with allocCpus := max s.job.allocCpus step.ncpus } := by
  rw [sumStep]
  split
  · rename_i h
    rw [if_neg (not_completed h)]
  · rename_i h
    rw [if_pos (completed_of_not_lt h)]

/-- A record depends on the job only by its end and state. -/
theorem readStep_congr (reading : Reading) {job job' : JobRec} (hend : job.end_ = job'.end_)
    (hstate : job.state = job'.state) : readStep reading job = readStep reading job' := by
  funext row
  rw [readStep, readStep, hend, hstate]

/-- The job after its step rows were read. -/
theorem foldl_addRow (reading : Reading) (job : JobRec) (rows : List StepRow) :
    rows.foldl (addRow reading) job =
      let steps := rows.map (readStep reading job)
      { job with
        steps := job.steps ++ steps
        totCpuSec := job.totCpuSec +
          if reading.newquery then 0 else (steps.map StepRec.totCpuSec).sum
        totCpuUsec := job.totCpuUsec +
          if reading.newquery then 0 else (steps.map (·.totCpuUsec)).sum } := by
  induction rows generalizing job with
  | nil => simp
  | cons row rows ih =>
    have hcongr : readStep reading (addRow reading job row) = readStep reading job := by
      refine readStep_congr reading ?_ ?_ <;> rw [addRow] <;> split <;> rfl
    rw [List.foldl_cons, ih, hcongr]
    cases hquery : reading.newquery with
    | true => simp [addRow, hquery]
    | false => simp [addRow, hquery, add_assoc]

theorem steps_readSteps (reading : Reading) (columns : JobRec) (rows : List StepRow) :
    (readSteps reading columns rows).steps = rows.map (readStep reading columns) := by
  rw [readSteps, foldl_addRow]
  exact congrArg rows.map (readStep_congr reading rfl rfl)

/-- The seconds that the rows add to the total of the job. -/
theorem totCpuSec_readSteps (reading : Reading) (columns : JobRec) (rows : List StepRow) :
    (readSteps reading columns rows).totCpuSec =
      if reading.newquery then 0
      else ((rows.map (readStep reading columns)).map StepRec.totCpuSec).sum := by
  have hcongr : readStep reading (jobRecord columns) = readStep reading columns :=
    readStep_congr reading rfl rfl
  rw [readSteps, foldl_addRow, hcongr]
  exact zero_add _

/-- The total of a record over its user and system time: nothing with `NEWQUERY`,
what `create_jobacct_step_rec` left there otherwise. -/
def excess (newquery : Bool) : UInt32 := if newquery then 0 else noVal

theorem totCpuSec_readStep (reading : Reading) (job : JobRec) (row : StepRow) :
    (readStep reading job row).totCpuSec = excess reading.newquery +
      ((readStep reading job row).userCpuSec + (readStep reading job row).sysCpuSec) := by
  rw [readStep, readTimes, excess]
  cases reading.newquery with
  | false => rfl
  | true => split <;> rfl

/-! ### What the counters hold -/

theorem int32_congr {x y : Int} (h : x % 4294967296 = y % 4294967296) : int32 x = int32 y := by
  rw [int32, int32, Int.bmod_def, Int.bmod_def]
  have hcast : ((4294967296 : Nat) : Int) = 4294967296 := rfl
  rw [hcast, h]

/-- A counter summed up reads as its exact sum would. -/
theorem int32_sum (counter : StepRec → UInt32) (steps : List StepRec) :
    int32 (steps.map counter).sum.toNat = int32 (total counter steps) := by
  refine int32_congr ?_
  rw [toNat_sum, total]
  omega

/-- Seconds and microseconds summed up are the exact time unless one wraps. -/
theorem micros_sum_iff (sec usec : StepRec → UInt32) (steps : List StepRec) :
    micros (steps.map sec).sum (steps.map usec).sum =
        (steps.map fun step => micros (sec step) (usec step)).sum ↔
      total sec steps < 4294967296 ∧ total usec steps < 4294967296 := by
  have hsum : (steps.map fun step => micros (sec step) (usec step)).sum =
      total sec steps * 1000000 + total usec steps := by
    unfold micros total
    rw [List.sum_map_add, List.sum_map_mul_right]
  rw [hsum, micros, toNat_sum, toNat_sum]
  exact carried_eq_iff (by decide) (by decide)

/-- The totals of the records, of which each exceeds user and system time by the
same. -/
theorem sum_totCpuSec {extra : UInt32} {steps : List StepRec}
    (h : ∀ step ∈ steps, step.totCpuSec = extra + (step.userCpuSec + step.sysCpuSec)) :
    (steps.map StepRec.totCpuSec).sum.toNat % 4294967296 =
      (cpuSecs steps + extra.toNat * steps.length) % 4294967296 := by
  rw [toNat_sum, Nat.mod_mod]
  induction steps with
  | nil => rfl
  | cons step steps ih =>
    have hrest := ih fun s hs => h s (List.mem_cons_of_mem _ hs)
    have hstep := congrArg UInt32.toNat (h step List.mem_cons_self)
    rw [UInt32.toNat_add, UInt32.toNat_add] at hstep
    unfold cpuSecs total at hrest ⊢
    simp only [List.map_cons, List.sum_cons, List.length_cons, Nat.mul_add, Nat.mul_one]
    omega

/-- Signed readings of two counters and of their sum, when the readings add up
short of some microseconds. -/
theorem balanced_sums {user sys usecs : Int} (hlo : 0 ≤ usecs) (hhi : usecs < 4294967296) :
    int32 usecs = 1000000 * (int32 (user + sys) - (int32 user + int32 sys)) ↔
      usecs = 0 ∧ -2147483648 ≤ int32 user + int32 sys ∧ int32 user + int32 sys < 2147483648 := by
  unfold int32
  simp only [Int.bmod_def, Nat.cast_ofNat]
  constructor
  · intro h
    split at h <;> split at h <;> split at h <;> split at h <;> omega
  · rintro ⟨rfl, h₁, h₂⟩
    split <;> split <;> split <;> omega

/-- The counters of a job that was read and summed up. -/
theorem counters_sumJob {getpwnam : CString → Option UInt32} {job : JobRec}
    {jobCounter : JobRec → UInt32} {counter : StepRec → UInt32}
    (hbegin : jobCounter (beginSum getpwnam job).job = jobCounter job)
    (h : ∀ s step, jobCounter (sumStep s step).job =
      jobCounter s.job + if step.completed then counter step else 0) :
    jobCounter (sumJob getpwnam job).job =
      jobCounter job + (job.completed.map counter).sum := by
  rw [sumJob_eq, counter_sumSteps h, hbegin]
  rfl

/-- The total seconds of a job that was read and summed up, as an `int`. -/
theorem int32_totCpuSec (reading : Reading) (columns : JobRec) (rows : List StepRow)
    (getpwnam : CString → Option UInt32) :
    let job := (sumJob getpwnam (readSteps reading columns rows)).job
    let steps := rows.map (readStep reading columns)
    let completed := steps.filter StepRec.completed
    int32 job.totCpuSec.toNat =
      if reading.newquery then int32 (cpuSecs completed)
      else int32 (cpuSecs steps + cpuSecs completed - 2 * (steps.length + completed.length)) := by
  intro job steps completed
  have hexcess : ∀ step ∈ steps, step.totCpuSec = excess reading.newquery +
      (step.userCpuSec + step.sysCpuSec) := by
    intro step hstep
    obtain ⟨row, -, rfl⟩ := List.mem_map.mp hstep
    exact totCpuSec_readStep reading columns row
  have hall := sum_totCpuSec hexcess
  have hcompleted := @sum_totCpuSec _ completed fun step h =>
    hexcess step (List.mem_of_mem_filter h)
  have hjob : job.totCpuSec =
      (if reading.newquery then 0 else (steps.map StepRec.totCpuSec).sum) +
        (completed.map StepRec.totCpuSec).sum := by
    have hsum : job.totCpuSec = (readSteps reading columns rows).totCpuSec +
        ((readSteps reading columns rows).completed.map StepRec.totCpuSec).sum :=
      counters_sumJob rfl fun s step => by
        rw [sumStep_job]
        split <;> simp
    rw [hsum, totCpuSec_readSteps, JobRec.completed, steps_readSteps]
  rw [hjob]
  cases hquery : reading.newquery with
  | true =>
    rw [hquery] at hcompleted
    have hzero : (excess true).toNat = 0 := rfl
    rw [hzero] at hcompleted
    rw [if_pos rfl, if_pos rfl, zero_add]
    refine int32_congr ?_
    omega
  | false =>
    rw [hquery] at hall hcompleted
    have hnoVal : (excess false).toNat = 4294967294 := rfl
    rw [hnoVal] at hall hcompleted
    rw [if_neg Bool.false_ne_true, if_neg Bool.false_ne_true, UInt32.toNat_add]
    refine int32_congr ?_
    omega

/-- The counters of user and system time of a job that was read and summed up. -/
theorem sums_sumJob (reading : Reading) (columns : JobRec) (rows : List StepRow)
    (getpwnam : CString → Option UInt32) :
    let job := (sumJob getpwnam (readSteps reading columns rows)).job
    let completed := (rows.map (readStep reading columns)).filter StepRec.completed
    job.userCpuSec = (completed.map StepRec.userCpuSec).sum ∧
      job.userCpuUsec = (completed.map StepRec.userCpuUsec).sum ∧
      job.sysCpuSec = (completed.map StepRec.sysCpuSec).sum ∧
      job.sysCpuUsec = (completed.map StepRec.sysCpuUsec).sum := by
  intro job completed
  have hcounter : ∀ (jobCounter : JobRec → UInt32) (counter : StepRec → UInt32),
      jobCounter (readSteps reading columns rows) = 0 →
      jobCounter (beginSum getpwnam (readSteps reading columns rows)).job =
        jobCounter (readSteps reading columns rows) →
      (∀ s step, jobCounter (sumStep s step).job =
        jobCounter s.job + if step.completed then counter step else 0) →
      jobCounter job = (completed.map counter).sum := by
    intro jobCounter counter hzero hbegin hturn
    have hsum := counters_sumJob hbegin hturn
    rw [hzero, zero_add, JobRec.completed, steps_readSteps] at hsum
    exact hsum
  have hzero : (readSteps reading columns rows).userCpuSec = 0 ∧
      (readSteps reading columns rows).userCpuUsec = 0 ∧
      (readSteps reading columns rows).sysCpuSec = 0 ∧
      (readSteps reading columns rows).sysCpuUsec = 0 := by
    rw [readSteps, foldl_addRow]
    exact ⟨rfl, rfl, rfl, rfl⟩
  refine ⟨hcounter JobRec.userCpuSec StepRec.userCpuSec hzero.1 rfl ?_,
    hcounter JobRec.userCpuUsec StepRec.userCpuUsec hzero.2.1 rfl ?_,
    hcounter JobRec.sysCpuSec StepRec.sysCpuSec hzero.2.2.1 rfl ?_,
    hcounter JobRec.sysCpuUsec StepRec.sysCpuUsec hzero.2.2.2 rfl ?_⟩ <;>
  · intro s step
    rw [sumStep_job]
    split <;> simp

/-- The microseconds of the total stand on both sides; what is left is the system
time. -/
theorem handed_iff (job : JobRec) :
    inMicros (passedUsercpu job) + inMicros (passedSystemcpu job) =
        inMicros (passedTotalcpu job) ↔
      int32 job.sysCpuUsec.toNat = 1000000 * (int32 job.totCpuSec.toNat -
        (int32 job.userCpuSec.toNat + int32 job.sysCpuSec.toNat)) := by
  rw [inMicros, inMicros, inMicros, passedUsercpu, passedSystemcpu, passedTotalcpu]
  omega

/-- When the times of a job are those of its completed steps and the printed user
and system time make up the printed total. -/
theorem timesAgree_iff (reading : Reading) (columns : JobRec) (rows : List StepRow)
    (getpwnam : CString → Option UInt32) :
    TimesAgree (sumJob getpwnam (readSteps reading columns rows)).job ↔
      Fits ((rows.map (readStep reading columns)).filter StepRec.completed) ∧
        Balanced reading.newquery (rows.map (readStep reading columns)) := by
  have htot := int32_totCpuSec reading columns rows getpwnam
  have hsums := sums_sumJob reading columns rows getpwnam
  have hcompleted : (sumJob getpwnam (readSteps reading columns rows)).job.completed =
      (rows.map (readStep reading columns)).filter StepRec.completed := by
    rw [JobRec.completed, steps_sumJob, steps_readSteps]
  generalize (sumJob getpwnam (readSteps reading columns rows)).job = job at *
  generalize rows.map (readStep reading columns) = steps at *
  generalize hcs : steps.filter StepRec.completed = completed at *
  obtain ⟨huser, huserUsec, hsys, hsysUsec⟩ := hsums
  have hhanded := handed_iff job
  rw [huser, hsys, hsysUsec, int32_sum, int32_sum, int32_sum] at hhanded
  have hbalanced : total StepRec.sysCpuUsec completed < 4294967296 →
      (Balanced reading.newquery steps ↔ inMicros (passedUsercpu job) +
        inMicros (passedSystemcpu job) = inMicros (passedTotalcpu job)) := by
    intro hlt
    rw [hhanded, htot, Balanced, hcs]
    cases reading.newquery with
    | false => exact Iff.rfl
    | true =>
      rw [if_pos rfl, if_pos rfl, cpuSecs, Nat.cast_add, balanced_sums (by omega) (by omega),
        Nat.cast_eq_zero]
  have husers := micros_sum_iff StepRec.userCpuSec StepRec.userCpuUsec completed
  have hsyss := micros_sum_iff StepRec.sysCpuSec StepRec.sysCpuUsec completed
  rw [← huser, ← huserUsec] at husers
  rw [← hsys, ← hsysUsec] at hsyss
  constructor
  · rintro ⟨h₁, h₂, h₃⟩
    rw [hcompleted] at h₁ h₂
    obtain ⟨hu, hu'⟩ := husers.mp h₁
    obtain ⟨hs, hs'⟩ := hsyss.mp h₂
    exact ⟨⟨hu, hu', hs, hs'⟩, (hbalanced hs').mpr h₃⟩
  · rintro ⟨⟨hu, hu', hs, hs'⟩, hbal⟩
    refine ⟨?_, ?_, (hbalanced hs').mp hbal⟩
    · rw [hcompleted]
      exact husers.mpr ⟨hu, hu'⟩
    · rw [hcompleted]
      exact hsyss.mpr ⟨hs, hs'⟩

/-- A completed step of ten seconds of user and five of system time: the total of
the job is twenty-six seconds. -/
theorem not_timesAgree_completed :
    ¬TimesAgree (sumJob (fun _ => none)
      (readSteps plainReading runningColumns [stepRow 3 10 5])).job := by
  intro h
  exact absurd h.handed (by decide +kernel)

/-! ### Printing -/

/-- The job that is printed has the times of the record. -/
structure SameTimes (printed : Print.Job) (job : JobRec) : Prop where
  userCpuSec : printed.userCpuSec = job.userCpuSec.toNat
  sysCpuSec : printed.sysCpuSec = job.sysCpuSec.toNat
  sysCpuUsec : printed.sysCpuUsec = job.sysCpuUsec.toNat
  totCpuSec : printed.totCpuSec = job.totCpuSec.toNat
  totCpuUsec : printed.totCpuUsec = job.totCpuUsec.toNat

/-- What the three columns of `print_fields` show of a job. -/
theorem action_times {printed : Print.Job} {job : JobRec} (h : SameTimes printed job)
    (env : Print.Env) (step : Option Print.Step) :
    let shown := fun t : Int × Int =>
      some (Print.Action.pass (.str (Print.elapsedTime t.1 t.2)))
    Print.action env (.job printed step) .usercpu = shown (passedUsercpu job) ∧
      Print.action env (.job printed step) .systemcpu = shown (passedSystemcpu job) ∧
      Print.action env (.job printed step) .totalcpu = shown (passedTotalcpu job) := by
  obtain ⟨huser, hsys, hsysUsec, htot, htotUsec⟩ := h
  refine ⟨?_, ?_, ?_⟩
  · rw [passedUsercpu, ← huser, ← htotUsec]
    simp only [Print.action, Print.action.elapsed, Print.Object.pick]
  · rw [passedSystemcpu, ← hsys, ← hsysUsec]
    simp only [Print.action, Print.action.elapsed, Print.Object.pick]
  · rw [passedTotalcpu, ← htot, ← htotUsec]
    simp only [Print.action, Print.action.elapsed, Print.Object.pick]

end Slurm.Jobacct
