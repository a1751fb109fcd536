import SlurmLite.Base.Table
import SlurmLite.Base.Run

/-!
# Suspended jobs in the job, step and suspend tables

`jobacct_storage_p_suspend` writes three tables. The column `suspended` of a job
and of its running steps alternates between the time the job was suspended in
all and a time minus that total, and each suspension has a row of its own in the
suspend table, open while `end` is 0. `acct_storage_p_flush_jobs_on_cluster` ends
what is still running on a cluster. Times are seconds below 2^31.

* **The calls** (`suspend`, `flushJobsOnCluster`): statement by statement.
* **Suspensions** (`suspend_history`): after every resume the columns are the
  length of the rows.
* **What a flush changes** (`flush_frame_iff`): finished steps of the jobs it ends
  are written again.
-/

namespace Slurm.JobTables

open Base.Table

def JOB_SUSPENDED : Nat := 2
def JOB_CANCELLED : Nat := 4

structure JobRow where
  id : Nat
  cluster : String
  state : Nat
  «end» : Nat := 0
  suspended : Nat := 0
deriving DecidableEq

structure StepRow where
  id : Nat
  stepid : Nat
  state : Nat
  «end» : Nat := 0
  suspended : Nat := 0
deriving DecidableEq

structure SuspendRow where
  id : Nat
  associd : Nat
  start : Nat
  «end» : Nat := 0
deriving DecidableEq

structure Tables where
  jobTable : List JobRow
  stepTable : List StepRow
  suspendTable : List SuspendRow
deriving DecidableEq

/-- `time-suspended` in an unsigned column: what is out of range is stored as the
largest value. -/
def minusColumn (time suspended : Nat) : Nat :=
  if suspended ≤ time then time - suspended else 2 ^ 32 - 1

/-! ## The calls -/

/-- What is read of a `job_record`. -/
structure JobRecord where
  dbIndex : Nat
  assocId : Nat
  jobState : Nat
  suspendTime : Nat
deriving DecidableEq

/-- `job_state & (~JOB_COMPLETING)`. -/
def baseState (jobState : Nat) : Nat := if jobState.testBit 15 then jobState - 2 ^ 15 else jobState

/-- `jobacct_storage_p_suspend` for a job with a row. -/
def suspend (job : JobRecord) (db : Tables) : Tables where
  jobTable := update (fun r => r.id = job.dbIndex)
    (fun r => { r with
      suspended := minusColumn job.suspendTime r.suspended
      state := baseState job.jobState }) db.jobTable
  suspendTable :=
    if job.jobState = JOB_SUSPENDED then
      db.suspendTable ++ [{ id := job.dbIndex, associd := job.assocId, start := job.suspendTime }]
    else
      update (fun r => r.id = job.dbIndex ∧ r.end = 0)
        (fun r => { r with «end» := job.suspendTime }) db.suspendTable
  stepTable := update (fun r => r.id = job.dbIndex ∧ r.end = 0)
    (fun r => { r with
      suspended := minusColumn job.suspendTime r.suspended
      state := job.jobState }) db.stepTable

/-- The ids on `id_char`: the jobs of the cluster that have not ended. -/
def idChar (cluster : String) (db : Tables) : List Nat :=
  (db.jobTable.filter fun r => r.cluster = cluster ∧ r.end = 0).map fun r => r.id

/-- The ids on `suspended_char`. -/
def suspendedChar (cluster : String) (db : Tables) : List Nat :=
  (db.jobTable.filter fun r => (r.cluster = cluster ∧ r.end = 0) ∧ r.state = JOB_SUSPENDED).map
    fun r => r.id

/-- The statements on the jobs of `suspended_char`. -/
def flushSuspended (ids : List Nat) (eventTime : Nat) (db : Tables) : Tables where
  jobTable := update (fun r => r.id ∈ ids)
    (fun r => { r with suspended := minusColumn eventTime r.suspended }) db.jobTable
  stepTable := update (fun r => r.id ∈ ids)
    (fun r => { r with suspended := minusColumn eventTime r.suspended }) db.stepTable
  suspendTable := update (fun r => r.id ∈ ids ∧ r.end = 0)
    (fun r => { r with «end» := eventTime }) db.suspendTable

/-- The statements on the jobs of `id_char`. -/
def flushIds (ids : List Nat) (eventTime : Nat) (db : Tables) : Tables where
  jobTable := update (fun r => r.id ∈ ids)
    (fun r => { r with state := JOB_CANCELLED, «end» := eventTime }) db.jobTable
  stepTable := update (fun r => r.id ∈ ids)
    (fun r => { r with state := JOB_CANCELLED, «end» := eventTime }) db.stepTable
  suspendTable := db.suspendTable

/-- `acct_storage_p_flush_jobs_on_cluster`. -/
def flushJobsOnCluster (cluster : String) (eventTime : Nat) (db : Tables) : Tables :=
  flushIds (idChar cluster db) eventTime (flushSuspended (suspendedChar cluster db) eventTime db)

/-! ## Suspensions -/

/-- The suspensions of a job. -/
def suspensions (id : Nat) (db : Tables) : List SuspendRow :=
  db.suspendTable.filter fun r => r.id = id

/-- The time that rows of the suspend table take. -/
def total (rows : List SuspendRow) : Nat := (rows.map fun r => r.end - r.start).sum

/-- Every job row and every row of the step holds this value. -/
structure Column (id stepid value : Nat) (db : Tables) : Prop where
  job : ∀ r ∈ db.jobTable, r.id = id → r.suspended = value
  step : ∀ r ∈ db.stepTable, r.id = id → r.stepid = stepid → r.suspended = value

/-- After a resume: the rows are closed and disjoint, and the columns are their
length. -/
structure Resumed (id stepid : Nat) (db : Tables) : Prop where
  closed : ∀ r ∈ suspensions id db, r.end ≠ 0 ∧ r.start ≤ r.end
  disjoint : (suspensions id db).Pairwise fun r s => r.end ≤ s.start ∨ s.end ≤ r.start
  column : Column id stepid (total (suspensions id db)) db

/-- One suspension is open. -/
def OneOpen (id : Nat) (db : Tables) : Prop :=
  ((suspensions id db).filter fun r => r.end = 0).length = 1

/-- The job is suspended, then resumed, and so on. -/
def Alternates : Bool → List JobRecord → Prop
  | _, [] => True
  | suspended, job :: jobs =>
    (job.jobState = JOB_SUSPENDED ↔ suspended = false) ∧ Alternates (!suspended) jobs

/-- Closed rows up to a time, in the order they were written. -/
structure Closed (last : Nat) (rows : List SuspendRow) : Prop where
  ended : ∀ r ∈ rows, r.end ≠ 0 ∧ r.start ≤ r.end ∧ r.end ≤ last
  disjoint : rows.Pairwise fun r s => r.end ≤ s.start
  total_le : total rows ≤ last

/-- The step has not ended. -/
def StepRunning (id stepid : Nat) (db : Tables) : Prop :=
  ∀ r ∈ db.stepTable, r.id = id → r.stepid = stepid → r.end = 0

/-- The job and its step run, all suspensions are over. -/
structure Running (id stepid last : Nat) (db : Tables) : Prop where
  closed : Closed last (suspensions id db)
  column : Column id stepid (total (suspensions id db)) db
  step : StepRunning id stepid db

/-- The job is suspended since `time`. -/
structure Paused (id stepid time : Nat) (db : Tables) : Prop where
  rows : ∃ rows associd, suspensions id db = rows ++ [⟨id, associd, time, 0⟩] ∧ Closed time rows ∧
    Column id stepid (time - total rows) db
  step : StepRunning id stepid db
  state : ∀ r ∈ db.jobTable, r.id = id → r.state = JOB_SUSPENDED

theorem minusColumn_of_le {time suspended : Nat} (h : suspended ≤ time) :
    minusColumn time suspended = time - suspended := if_pos h

theorem total_append (rows : List SuspendRow) (r : SuspendRow) :
    total (rows ++ [r]) = total rows + (r.end - r.start) := by
  unfold total
  rw [List.map_append, List.sum_append, List.map_singleton, List.sum_singleton]

theorem Closed.append {last start time id associd : Nat} {rows : List SuspendRow}
    (h : Closed last rows) (hstart : last ≤ start) (htime : start ≤ time) (hpos : time ≠ 0) :
    Closed time (rows ++ [⟨id, associd, start, time⟩]) := by
  refine ⟨?_, ?_, ?_⟩
  · refine List.forall_mem_append.mpr ⟨fun r hr => ?_, List.forall_mem_singleton.mpr
      ⟨hpos, htime, le_refl _⟩⟩
    obtain ⟨hend, hproper, hlast⟩ := h.ended r hr
    exact ⟨hend, hproper, by omega⟩
  · refine List.pairwise_append.mpr ⟨h.disjoint, List.pairwise_singleton _ _, fun r hr s hs => ?_⟩
    rw [List.mem_singleton.mp hs]
    exact (h.ended r hr).2.2.trans hstart
  · have hle := h.total_le
    rw [total_append]
    simp only
    omega

theorem Closed.resumed {last id stepid : Nat} {db : Tables} (h : Closed last (suspensions id db))
    (hcol : Column id stepid (total (suspensions id db)) db) : Resumed id stepid db :=
  ⟨fun r hr => ⟨(h.ended r hr).1, (h.ended r hr).2.1⟩, h.disjoint.imp Or.inl, hcol⟩

section Call

variable {job : JobRecord} {db : Tables} {id stepid : Nat}

/-- A call for another job is not seen. -/
theorem suspensions_other (hid : job.dbIndex ≠ id) :
    suspensions id (suspend job db) = suspensions id db := by
  unfold suspensions suspend
  simp only
  by_cases hstate : job.jobState = JOB_SUSPENDED
  · rw [if_pos hstate, List.filter_append, List.filter_singleton]
    simp [hid]
  · rw [if_neg hstate]
    refine filter_update_of_not (fun _ _ _ => rfl) fun r _ hr hcond => hid ?_
    rw [← hcond.1]
    exact of_decide_eq_true hr

theorem Column.other {value : Nat} (h : Column id stepid value db) (hid : job.dbIndex ≠ id) :
    Column id stepid value (suspend job db) := by
  constructor
  · refine forall_mem_update.mpr fun r hr => ⟨fun hcond hri => ?_, fun _ => h.job r hr⟩
    exact absurd (hcond.symm.trans hri) hid
  · refine forall_mem_update.mpr fun r hr => ⟨fun hcond hri => ?_, fun _ => h.step r hr⟩
    exact absurd (hcond.1.symm.trans hri) hid

theorem StepRunning.suspend (h : StepRunning id stepid db) :
    StepRunning id stepid (suspend job db) :=
  forall_mem_update.mpr fun r hr => ⟨fun _ => h r hr, fun _ => h r hr⟩

/-- The columns of the job and of its running step after a call. -/
theorem Column.suspend {value : Nat} (h : Column id stepid value db)
    (hstep : StepRunning id stepid db) (hid : job.dbIndex = id) :
    Column id stepid (minusColumn job.suspendTime value) (suspend job db) := by
  constructor
  · refine forall_mem_update.mpr fun r hr => ⟨fun _ hri => ?_, fun hcond hri => ?_⟩
    · exact congrArg (minusColumn job.suspendTime) (h.job r hr hri)
    · exact absurd (hri.trans hid.symm) hcond
  · refine forall_mem_update.mpr fun r hr => ⟨fun _ hri hrs => ?_, fun hcond hri hrs => ?_⟩
    · exact congrArg (minusColumn job.suspendTime) (h.step r hr hri hrs)
    · exact absurd ⟨hri.trans hid.symm, hstep r hr hri hrs⟩ hcond

theorem Running.other {last : Nat} (h : Running id stepid last db) (hid : job.dbIndex ≠ id) :
    Running id stepid last (JobTables.suspend job db) := by
  have hrows : suspensions id (JobTables.suspend job db) = suspensions id db :=
    suspensions_other hid
  exact ⟨hrows ▸ h.closed, hrows ▸ h.column.other hid, h.step.suspend⟩

theorem Paused.other {time : Nat} (h : Paused id stepid time db) (hid : job.dbIndex ≠ id) :
    Paused id stepid time (JobTables.suspend job db) := by
  obtain ⟨rows, associd, hrows, hclosed, hcol⟩ := h.rows
  refine ⟨⟨rows, associd, ?_, hclosed, hcol.other hid⟩, h.step.suspend, ?_⟩
  · rw [suspensions_other hid, hrows]
  · refine forall_mem_update.mpr fun r hr => ⟨fun hcond hri => ?_, fun _ => h.state r hr⟩
    exact absurd (hcond.symm.trans hri) hid

/-- A running job is suspended. -/
theorem Running.suspend {last : Nat} (h : Running id stepid last db) (hid : job.dbIndex = id)
    (hstate : job.jobState = JOB_SUSPENDED) (htime : last ≤ job.suspendTime) :
    Paused id stepid job.suspendTime (JobTables.suspend job db) := by
  refine ⟨⟨suspensions id db, job.assocId, ?_, ?_, ?_⟩, h.step.suspend, ?_⟩
  · unfold suspensions JobTables.suspend
    simp only
    rw [if_pos hstate, List.filter_append, List.filter_singleton]
    simp [hid]
  · refine ⟨fun r hr => ?_, h.closed.disjoint, h.closed.total_le.trans htime⟩
    obtain ⟨hend, hproper, hlast⟩ := h.closed.ended r hr
    exact ⟨hend, hproper, hlast.trans htime⟩
  · rw [← minusColumn_of_le (h.closed.total_le.trans htime)]
    exact h.column.suspend h.step hid
  · refine forall_mem_update.mpr fun r hr => ⟨fun _ _ => ?_, fun hcond hri => ?_⟩
    · rw [hstate]
      rfl
    · exact absurd (hri.trans hid.symm) hcond

/-- A suspension is closed: its row and the columns get the time it took. -/
theorem Paused.close {start time : Nat} (h : Paused id stepid start db) (htime : start ≤ time)
    (hpos : time ≠ 0) (db' : Tables)
    (hrows : suspensions id db' = update (fun r => r.end = 0)
      (fun r => { r with «end» := time }) (suspensions id db))
    (hcol : ∀ value, Column id stepid value db → Column id stepid (minusColumn time value) db') :
    Closed time (suspensions id db') ∧ Column id stepid (total (suspensions id db')) db' := by
  obtain ⟨rows, associd, hsusp, hclosed, hcolumn⟩ := h.rows
  have hrows' : suspensions id db' = rows ++ [⟨id, associd, start, time⟩] := by
    rw [hrows, hsusp, update_append, update_eq_self fun r hr => (hclosed.ended r hr).1,
      update_singleton, if_pos rfl]
  have hle := hclosed.total_le
  rw [hrows']
  refine ⟨hclosed.append (le_refl _) htime hpos, ?_⟩
  have hvalue : minusColumn time (start - total rows) =
      total (rows ++ [⟨id, associd, start, time⟩]) := by
    rw [minusColumn_of_le (by omega), total_append]
    simp only
    omega
  rw [← hvalue]
  exact hcol _ hcolumn

/-- Closing the open rows of some jobs is seen among the rows of one of them. -/
theorem filter_close {p : Nat → Prop} [DecidablePred p] {time : Nat} (hid : p id)
    (rows : List SuspendRow) :
    ((update (fun r => p r.id ∧ r.end = 0) (fun r => { r with «end» := time }) rows).filter
        fun r => r.id = id) =
      update (fun r => r.end = 0) (fun r => { r with «end» := time })
        (rows.filter fun r => r.id = id) := by
  have hseen := @filter_update _ (fun r : SuspendRow => p r.id ∧ r.end = 0) _
    (fun r => { r with «end» := time }) rows (fun r => r.id = id) fun _ _ _ => rfl
  rw [hseen]
  unfold update
  refine List.map_congr_left fun r hr => ?_
  have hri : r.id = id := by simpa using (List.mem_filter.mp hr).2
  simp only [hri, hid, true_and]

/-- A suspended job is resumed. -/
theorem Paused.resume {time : Nat} (h : Paused id stepid time db) (hid : job.dbIndex = id)
    (hstate : job.jobState ≠ JOB_SUSPENDED) (htime : time ≤ job.suspendTime)
    (hpos : job.suspendTime ≠ 0) :
    Running id stepid job.suspendTime (JobTables.suspend job db) := by
  have hclose := h.close htime hpos (JobTables.suspend job db) (by
    unfold suspensions JobTables.suspend
    simp only
    rw [if_neg hstate]
    exact filter_close (p := fun i => i = job.dbIndex) hid.symm db.suspendTable) fun value hcol =>
      hcol.suspend h.step hid
  exact ⟨hclose.1, hclose.2, h.step.suspend⟩

theorem Paused.oneOpen {time : Nat} (h : Paused id stepid time db) : OneOpen id db := by
  obtain ⟨rows, associd, hrows, hclosed, -⟩ := h.rows
  unfold OneOpen
  have hnone : (rows.filter fun r => r.end = 0) = [] :=
    List.filter_eq_nil_iff.mpr fun r hr => by simpa using (hclosed.ended r hr).1
  rw [hrows, List.filter_append, hnone]
  rfl

end Call

/-- A job of the cluster that has not ended. -/
def LiveJob (cluster : String) (db : Tables) (id : Nat) : Prop :=
  ∃ r ∈ db.jobTable, r.id = id ∧ r.cluster = cluster ∧ r.end = 0

/-- A suspended job of the cluster that has not ended. -/
def SuspendedJob (cluster : String) (db : Tables) (id : Nat) : Prop :=
  ∃ r ∈ db.jobTable, r.id = id ∧ (r.cluster = cluster ∧ r.end = 0) ∧ r.state = JOB_SUSPENDED

theorem SuspendedJob.live {cluster : String} {db : Tables} {id : Nat}
    (h : SuspendedJob cluster db id) : LiveJob cluster db id := by
  obtain ⟨r, hr, hri, hlive, -⟩ := h
  exact ⟨r, hr, hri, hlive⟩

section Flush

variable {db : Tables} {cluster : String} {id stepid : Nat}

theorem mem_idChar : id ∈ idChar cluster db ↔ LiveJob cluster db id := by
  unfold idChar LiveJob
  simp only [List.mem_map, List.mem_filter, decide_eq_true_eq]
  exact exists_congr fun r => by tauto

theorem mem_suspendedChar : id ∈ suspendedChar cluster db ↔ SuspendedJob cluster db id := by
  unfold suspendedChar SuspendedJob
  simp only [List.mem_map, List.mem_filter, decide_eq_true_eq]
  exact exists_congr fun r => by tauto

/-- The cluster's job is ended while it is suspended. -/
theorem Paused.flush {start time : Nat} (h : Paused id stepid start db) (htime : start ≤ time)
    (hpos : time ≠ 0)
    (hlive : LiveJob cluster db id) :
    Resumed id stepid (flushJobsOnCluster cluster time db) := by
  have hid : id ∈ suspendedChar cluster db := by
    obtain ⟨r, hr, hri, hlive⟩ := hlive
    exact mem_suspendedChar.mpr ⟨r, hr, hri, hlive, h.state r hr hri⟩
  have hclose := h.close htime hpos (flushJobsOnCluster cluster time db)
    (filter_close (p := fun i => i ∈ suspendedChar cluster db) hid db.suspendTable)
    fun value hcol => ?_
  · exact hclose.1.resumed hclose.2
  · constructor
    · refine forall_mem_update.mpr (forall_mem_update.mpr fun r hr => ⟨fun _ => ?_,
        fun hcond => ?_⟩)
      · exact ⟨fun _ hri => congrArg (minusColumn time) (hcol.job r hr hri),
          fun _ hri => congrArg (minusColumn time) (hcol.job r hr hri)⟩
      · exact ⟨fun _ hri => absurd (hri ▸ hid) hcond, fun _ hri => absurd (hri ▸ hid) hcond⟩
    · refine forall_mem_update.mpr (forall_mem_update.mpr fun r hr => ⟨fun _ => ?_,
        fun hcond => ?_⟩)
      · exact ⟨fun _ hri hrs => congrArg (minusColumn time) (hcol.step r hr hri hrs),
          fun _ hri hrs => congrArg (minusColumn time) (hcol.step r hr hri hrs)⟩
      · exact ⟨fun _ hri => absurd (hri ▸ hid) hcond, fun _ hri => absurd (hri ▸ hid) hcond⟩

end Flush

/-- The calls of one job among all calls. -/
def callsOf (id : Nat) (calls : List JobRecord) : List JobRecord :=
  calls.filter fun job => job.dbIndex = id

/-- The tables after some calls. -/
def afterCalls (calls : List JobRecord) (db : Tables) : Tables :=
  calls.foldl (fun db job => suspend job db) db

/-- The job and its step between two calls, suspended or not, with the time of
the last call. -/
def Between (id stepid : Nat) (suspended : Bool) (last : Nat) (db : Tables) : Prop :=
  if suspended then Paused id stepid last db else Running id stepid last db

/-- Whether the job is suspended, and since when, after some calls. -/
def lastCall : Bool → Nat → List JobRecord → Bool × Nat
  | suspended, last, [] => (suspended, last)
  | suspended, _, job :: jobs => lastCall (!suspended) job.suspendTime jobs

theorem Between.run {id stepid : Nat} {calls : List JobRecord} :
    ∀ {suspended : Bool} {last : Nat} {db : Tables}, Between id stepid suspended last db →
      Alternates suspended (callsOf id calls) →
      ((callsOf id calls).map fun job => job.suspendTime).Pairwise (· ≤ ·) →
      (∀ job ∈ callsOf id calls, last ≤ job.suspendTime ∧ job.suspendTime ≠ 0) →
      Between id stepid (lastCall suspended last (callsOf id calls)).1
        (lastCall suspended last (callsOf id calls)).2 (afterCalls calls db) := by
  induction calls with
  | nil => exact fun h _ _ _ => h
  | cons job calls ih =>
    intro suspended last db h halt hsorted htimes
    by_cases hid : job.dbIndex = id
    · have hcons : callsOf id (job :: calls) = job :: callsOf id calls :=
        List.filter_cons_of_pos (by simpa using hid)
      rw [hcons] at halt hsorted htimes ⊢
      rw [List.map_cons, List.pairwise_cons] at hsorted
      have hjob := htimes job List.mem_cons_self
      refine ih ?_ halt.2 hsorted.2 fun c hc => ?_
      · cases suspended with
        | false =>
          have hrun : Running id stepid last db := h
          exact hrun.suspend hid (halt.1.mpr rfl) hjob.1
        | true =>
          have hpaused : Paused id stepid last db := h
          exact hpaused.resume hid (fun hs => Bool.noConfusion (halt.1.mp hs)) hjob.1 hjob.2
      · exact ⟨hsorted.1 _ (List.mem_map_of_mem hc), (htimes c (List.mem_cons_of_mem _ hc)).2⟩
    · have hcons : callsOf id (job :: calls) = callsOf id calls :=
        List.filter_cons_of_neg (by simpa using hid)
      rw [hcons] at halt hsorted htimes ⊢
      refine ih ?_ halt hsorted htimes
      cases suspended with
      | false =>
        have hrun : Running id stepid last db := h
        exact hrun.other hid
      | true =>
        have hpaused : Paused id stepid last db := h
        exact hpaused.other hid

theorem lastCall_suspended (suspended : Bool) (last : Nat) (jobs : List JobRecord) :
    (lastCall suspended last jobs).1 = if Even jobs.length then suspended else !suspended := by
  induction jobs generalizing suspended last with
  | nil => rfl
  | cons job jobs ih =>
    rw [lastCall, ih, List.length_cons]
    by_cases heven : Even jobs.length
    · rw [if_pos heven, if_neg (by rw [Nat.even_add_one]; exact not_not_intro heven)]
    · rw [if_neg heven, if_pos (Nat.even_add_one.mpr heven), Bool.not_not]

theorem lastCall_time (suspended : Bool) (last : Nat) (jobs : List JobRecord) :
    jobs = [] ∧ (lastCall suspended last jobs).2 = last ∨
      ∃ job ∈ jobs, (lastCall suspended last jobs).2 = job.suspendTime := by
  induction jobs generalizing suspended last with
  | nil => exact Or.inl ⟨rfl, rfl⟩
  | cons job jobs ih =>
    right
    obtain ⟨rfl, hlast⟩ | ⟨c, hc, hlast⟩ := ih (!suspended) job.suspendTime
    · exact ⟨job, List.mem_cons_self, hlast⟩
    · exact ⟨c, List.mem_cons_of_mem _ hc, hlast⟩

theorem LiveJob.afterCalls {cluster : String} {id : Nat} {calls : List JobRecord} :
    ∀ {db : Tables}, LiveJob cluster db id → LiveJob cluster (afterCalls calls db) id := by
  induction calls with
  | nil => exact fun h => h
  | cons job calls ih =>
    rintro db ⟨r, hr, hrest⟩
    refine ih ⟨_, List.mem_map_of_mem hr, ?_⟩
    by_cases hcond : r.id = job.dbIndex
    · rw [if_pos hcond]
      exact hrest
    · rw [if_neg hcond]
      exact hrest

/-- After every resume the columns of a job and of a step that runs throughout
are the length of the job's suspensions, which are closed and disjoint; one is
open while the job is suspended, and a flush closes it as a resume does. -/
theorem suspend_history {db : Tables} {id stepid : Nat} {calls : List JobRecord}
    (hrows : suspensions id db = []) (hcol : Column id stepid 0 db)
    (hstep : StepRunning id stepid db) (halt : Alternates false (callsOf id calls))
    (hsorted : ((callsOf id calls).map fun job => job.suspendTime).Pairwise (· ≤ ·))
    (htimes : ∀ job ∈ callsOf id calls, job.suspendTime ≠ 0) :
    (Even (callsOf id calls).length → Resumed id stepid (afterCalls calls db)) ∧
      (¬Even (callsOf id calls).length → OneOpen id (afterCalls calls db) ∧
        ∀ cluster time, LiveJob cluster db id →
          (∀ job ∈ callsOf id calls, job.suspendTime ≤ time) →
          Resumed id stepid (flushJobsOnCluster cluster time (afterCalls calls db))) := by
  have hstart : Between id stepid false 0 db := by
    refine (⟨?_, ?_, hstep⟩ : Running id stepid 0 db)
    · rw [hrows]
      exact ⟨fun r hr => absurd hr List.not_mem_nil, List.Pairwise.nil, le_refl _⟩
    · rw [hrows]
      exact hcol
  have hend := hstart.run halt hsorted fun job hjob => ⟨Nat.zero_le _, htimes job hjob⟩
  rw [lastCall_suspended] at hend
  refine ⟨fun heven => ?_, fun hodd => ?_⟩
  · rw [if_pos heven] at hend
    have hrun : Running id stepid _ (afterCalls calls db) := hend
    exact hrun.closed.resumed hrun.column
  · rw [if_neg hodd] at hend
    have hpaused : Paused id stepid _ (afterCalls calls db) := hend
    refine ⟨hpaused.oneOpen, fun cluster time hlive htime => ?_⟩
    obtain ⟨hnil, -⟩ | ⟨job, hjob, hlast⟩ := lastCall_time false 0 (callsOf id calls)
    · rw [hnil] at hodd
      exact absurd Even.zero hodd
    · have hle : (lastCall false 0 (callsOf id calls)).2 ≤ time := hlast ▸ htime job hjob
      have hpos := htimes job hjob
      have := htime job hjob
      exact hpaused.flush hle (by omega) hlive.afterCalls

/-- A running job with a step, beside another one. -/
def running : Tables where
  jobTable := [{ id := 7, cluster := "tux", state := 1 }, { id := 8, cluster := "tux", state := 1 }]
  stepTable := [{ id := 7, stepid := 0, state := 1 }]
  suspendTable := []

/-- The first job is suspended twice, the other one in between. -/
def calls : List JobRecord :=
  [⟨7, 1, 2, 10⟩, ⟨8, 1, 2, 12⟩, ⟨7, 1, 1, 15⟩, ⟨7, 1, 2, 20⟩]

theorem suspend_history_running :
    OneOpen 7 (afterCalls calls running) ∧
      Resumed 7 0 (flushJobsOnCluster "tux" 30 (afterCalls calls running)) := by
  have h := (@suspend_history running 7 0 calls rfl ⟨by decide, by decide⟩
    (by unfold StepRunning; decide) ⟨by decide, by decide, by decide, trivial⟩ (by decide)
    (by decide)).2 (by decide)
  exact ⟨h.1, h.2 "tux" 30 (by unfold LiveJob; decide) (by decide)⟩

/-! ## What a flush changes -/

/-- Only jobs of the cluster that have not ended, their running steps and their
open suspensions change. -/
structure FlushFrame (cluster : String) (db db' : Tables) : Prop where
  job : List.Forall₂ (fun r r' => ¬(r.cluster = cluster ∧ r.end = 0) → r' = r)
    db.jobTable db'.jobTable
  step : List.Forall₂ (fun r r' => ¬(LiveJob cluster db r.id ∧ r.end = 0) → r' = r)
    db.stepTable db'.stepTable
  suspend : List.Forall₂ (fun r r' => ¬(LiveJob cluster db r.id ∧ r.end = 0) → r' = r)
    db.suspendTable db'.suspendTable

/-- A step holds what a flush writes. -/
structure AlreadyFlushed (cluster : String) (time : Nat) (db : Tables) (r : StepRow) : Prop where
  state : r.state = JOB_CANCELLED
  ended : r.end = time
  suspended : SuspendedJob cluster db r.id → r.suspended = minusColumn time r.suspended

/-- What a flush does to one step. -/
theorem flush_stepTable (cluster : String) (time : Nat) (db : Tables) :
    ∃ f, (flushJobsOnCluster cluster time db).stepTable = db.stepTable.map f ∧
      (∀ r, ¬LiveJob cluster db r.id → f r = r) ∧
      (∀ r, SuspendedJob cluster db r.id → f r =
        { r with
          suspended := minusColumn time r.suspended, state := JOB_CANCELLED, «end» := time }) ∧
      ∀ r, LiveJob cluster db r.id → ¬SuspendedJob cluster db r.id → f r =
        { r with state := JOB_CANCELLED, «end» := time } := by
  refine ⟨_, List.map_map, fun r hl => ?_, fun r hs => ?_, fun r hl hs => ?_⟩
  · rw [Function.comp_apply, if_neg fun h => hl (mem_suspendedChar.mp h).live,
      if_neg fun h => hl (mem_idChar.mp h)]
  · rw [Function.comp_apply, if_pos (mem_suspendedChar.mpr hs), if_pos (mem_idChar.mpr hs.live)]
  · rw [Function.comp_apply, if_neg fun h => hs (mem_suspendedChar.mp h),
      if_pos (mem_idChar.mpr hl)]

/-- A flush changes what it is to change exactly when no finished step belongs to a
job it ends, but for steps that hold the same values already. -/
theorem flush_frame_iff {cluster : String} {time : Nat} {db : Tables}
    (hids : (db.jobTable.map fun r => r.id).Nodup) :
    FlushFrame cluster db (flushJobsOnCluster cluster time db) ↔
      ∀ r ∈ db.stepTable, LiveJob cluster db r.id → r.end ≠ 0 →
        AlreadyFlushed cluster time db r := by
  obtain ⟨f, hf, hdead, hsusp, hlive⟩ := flush_stepTable cluster time db
  have hstep : List.Forall₂ (fun r r' => ¬(LiveJob cluster db r.id ∧ r.end = 0) → r' = r)
        db.stepTable (flushJobsOnCluster cluster time db).stepTable ↔
      ∀ r ∈ db.stepTable, LiveJob cluster db r.id → r.end ≠ 0 → f r = r := by
    rw [hf, List.forall₂_map_right_iff, List.forall₂_same]
    refine forall₂_congr fun r _ => ⟨fun h hl hend => h fun hc => hend hc.2, fun h hnot => ?_⟩
    by_cases hl : LiveJob cluster db r.id
    · exact h hl fun hend => hnot ⟨hl, hend⟩
    · exact hdead r hl
  -- the steps of a live job are all written, also those that have ended
  have hsame : ∀ r, LiveJob cluster db r.id → (f r = r ↔ AlreadyFlushed cluster time db r) := by
    intro r hl
    by_cases hs : SuspendedJob cluster db r.id
    · rw [hsusp r hs]
      constructor
      · intro heq
        have hstate := congrArg StepRow.state heq
        have hend := congrArg StepRow.end heq
        have hsuspended := congrArg StepRow.suspended heq
        exact ⟨hstate.symm, hend.symm, fun _ => hsuspended.symm⟩
      · rintro ⟨hstate, hend, hsuspended⟩
        rw [← hsuspended hs, ← hstate, ← hend]
    · rw [hlive r hl hs]
      constructor
      · intro heq
        have hstate := congrArg StepRow.state heq
        have hend := congrArg StepRow.end heq
        exact ⟨hstate.symm, hend.symm, fun h => absurd h hs⟩
      · rintro ⟨hstate, hend, -⟩
        rw [← hstate, ← hend]
  constructor
  · exact fun h r hr hl hend => (hsame r hl).mp (hstep.mp h.step r hr hl hend)
  · intro h
    refine ⟨?_, hstep.mpr fun r hr hl hend => (hsame r hl).mpr (h r hr hl hend), ?_⟩
    · -- the ids of other jobs are not collected
      have hother : ∀ r ∈ db.jobTable, ¬(r.cluster = cluster ∧ r.end = 0) →
          ¬LiveJob cluster db r.id := by
        rintro r hr hnot ⟨s, hs, hid, hl⟩
        rw [List.inj_on_of_nodup_map hids hs hr hid] at hl
        exact hnot hl
      unfold flushJobsOnCluster flushIds flushSuspended update
      simp only
      rw [List.map_map, List.forall₂_map_right_iff, List.forall₂_same]
      intro r hr hnot
      have hdead := hother r hr hnot
      rw [Function.comp_apply, if_neg fun hs => hdead (mem_suspendedChar.mp hs).live,
        if_neg fun hl => hdead (mem_idChar.mp hl)]
    · unfold flushJobsOnCluster flushIds flushSuspended
      simp only
      refine update_frame.imp fun r r' hr hnot => hr fun hc => hnot ⟨?_, hc.2⟩
      exact (mem_suspendedChar.mp hc.1).live

/-- A job with a finished and a running step. -/
def twoSteps : Tables where
  jobTable := [{ id := 7, cluster := "tux", state := 1 }]
  stepTable := [{ id := 7, stepid := 0, state := 3, «end» := 20 },
    { id := 7, stepid := 1, state := 1 }]
  suspendTable := []

theorem flush_frame_iff_running : FlushFrame "tux" running (flushJobsOnCluster "tux" 30 running) :=
  (flush_frame_iff (by decide)).mpr fun r hr _ hend => by
    have hall : ∀ r ∈ running.stepTable, r.end = 0 := by decide
    exact absurd (hall r hr) hend

/-- The finished step is cancelled at the time of the flush. -/
theorem flush_finished_step :
    ¬∀ (cluster : String) (time : Nat) (db : Tables), (db.jobTable.map fun r => r.id).Nodup →
      FlushFrame cluster db (flushJobsOnCluster cluster time db) := by
  intro hall
  have hframe := (hall "tux" 30 twoSteps (by decide)).step
  rw [show (flushJobsOnCluster "tux" 30 twoSteps).stepTable =
    [{ id := 7, stepid := 0, state := 4, «end» := 30 },
      { id := 7, stepid := 1, state := 4, «end» := 30 }] by decide] at hframe
  cases hframe with
  | cons hfirst _ => exact absurd (hfirst fun hc => absurd hc.2 (by decide)) (by decide)

end Slurm.JobTables
