import SlurmLite.Base.Table
import SlurmLite.Base.Run

/-!
# The mark of the last rollup

How far usage has been rolled up is kept twice: in the variable
`global_last_rollup` of the process and in the one row of `last_ran_table`. A
rollup starts at the row, and a job that is heard of late sets both back to its
own time, so that the hour is rolled up again. Times are seconds below 2^31.

* **The calls** (`rollUsage`, `jobStart`, `jobComplete`): statement by statement.
* **The history** (`Rolled`, `Awaits`): which hours were rolled up, and which
  recorded times wait for it.
* **Runs** (`hourlyRollup_run`): nothing is behind the mark, as long as it is not
  moved over what waits.
-/

namespace Slurm.LastRan

open Base.Table
open Base.Run

/-- The times of a row of `job_table`, and what identifies it. -/
structure JobRow where
  id : Nat
  jobid : Nat
  associd : Nat
  submit : Int
  eligible : Int
  start : Int
  «end» : Int := 0
deriving DecidableEq

/-- The row of `last_ran_table`. -/
structure LastRanRow where
  hourlyRollup : Int
  dailyRollup : Int
  monthlyRollup : Int
deriving DecidableEq

/-- What happened so far: the hours of a window were rolled up, or a time was
written to a job row that did not hold it. -/
inductive Entry where
  | rolled (startTime endTime : Int)
  | recorded (time : Int)
deriving DecidableEq

/-- The process, its tables and the history, last entry first. -/
structure State where
  globalLastRollup : Int := 0
  lastRan : LastRanRow
  jobTable : List JobRow := []
  nextId : Nat := 1
  log : List Entry := []
deriving DecidableEq

/-- What is read of a `job_record`. -/
structure JobRecord where
  jobId : Nat
  assocId : Nat
  dbIndex : Nat := 0
  submitTime : Int
  beginTime : Int := 0
  startTime : Int := 0
  endTime : Int := 0
deriving DecidableEq

/-! ## The calls -/

/-- Both marks are set to the time of a job. -/
def reroll (time : Int) (s : State) : State :=
  { s with globalLastRollup := time, lastRan := ⟨time, time, time⟩ }

/-- The history with a time that was written, 0 being no time. -/
def record (time : Int) (isNew : Prop) [Decidable isNew] (log : List Entry) : List Entry :=
  if time ≠ 0 ∧ isNew then .recorded time :: log else log

/-- The latest time the record of a job has. -/
def checkTime (job : JobRecord) : Int :=
  if job.startTime ≠ 0 then job.startTime
  else if job.beginTime ≠ 0 then job.beginTime
  else job.submitTime

/-- The row that `job_start` takes as a sign that it heard of the time before. -/
def Known (job : JobRecord) (s : State) : Prop :=
  ∃ r ∈ s.jobTable, r.jobid = job.jobId ∧ r.submit = job.submitTime ∧
    r.eligible = job.beginTime ∧ r.start = job.startTime

instance (job : JobRecord) (s : State) : Decidable (Known job s) :=
  inferInstanceAs (Decidable (∃ _ ∈ _, _))

/-- `_get_db_index`. -/
def getDbIndex (job : JobRecord) (s : State) : Option Nat :=
  (s.jobTable.find? fun r =>
    r.submit = job.submitTime ∧ r.jobid = job.jobId ∧ r.associd = job.assocId).map JobRow.id

/-- The row of a job that has none yet; without a begin time it is eligible from
its submission on. -/
def insertJob (job : JobRecord) (s : State) : State :=
  { s with
    jobTable := s.jobTable ++ [{
      id := s.nextId
      jobid := job.jobId
      associd := job.assocId
      submit := job.submitTime
      eligible := if job.beginTime = 0 then job.submitTime else job.beginTime
      start := job.startTime }]
    nextId := s.nextId + 1
    log := record job.startTime True s.log }

/-- The index over job, association and submission has no room for the row `id`
under the association. -/
def Clashes (id associd : Nat) (s : State) : Prop :=
  ∃ r ∈ s.jobTable, r.id = id ∧ ∃ r' ∈ s.jobTable,
    r'.id ≠ id ∧ r'.jobid = r.jobid ∧ r'.submit = r.submit ∧ r'.associd = associd

instance (id associd : Nat) (s : State) : Decidable (Clashes id associd s) :=
  inferInstanceAs (Decidable (∃ _ ∈ _, _ ∧ ∃ _ ∈ _, _))

/-- The update of a row at the start of its job. -/
def writeStart (job : JobRecord) (s : State) : State :=
  if Clashes job.dbIndex job.assocId s then s else
    { s with
      jobTable := update (fun r => r.id = job.dbIndex)
        (fun r => { r with start := job.startTime, associd := job.assocId }) s.jobTable
      log := record job.startTime
        (∃ r ∈ s.jobTable, r.id = job.dbIndex ∧ r.start ≠ job.startTime) s.log }

/-- The time of the job is before the last rollup, and it is heard of for the first
time. -/
def HeardLate (job : JobRecord) (s : State) : Prop :=
  checkTime job < s.globalLastRollup ∧ ¬Known job s

instance (job : JobRecord) (s : State) : Decidable (HeardLate job s) :=
  inferInstanceAs (Decidable (_ ∧ _))

/-- `jobacct_storage_p_job_start`; also gives the index of the row. -/
def jobStart (job : JobRecord) (s : State) : State × Nat :=
  if job.submitTime = 0 then (s, job.dbIndex) else
    let s := if HeardLate job s then reroll (checkTime job) s else s
    if job.dbIndex = 0 then
      match getDbIndex job s with
      | some id => (s, id)
      | none => (insertJob job s, s.nextId)
    else (writeStart job s, job.dbIndex)

/-- The update of a row at the end of its job. -/
def writeEnd (id : Nat) (start «end» : Int) (s : State) : State :=
  { s with
    jobTable := update (fun r => r.id = id) (fun r => { r with start := start, «end» := «end» })
      s.jobTable
    log := record «end» (∃ r ∈ s.jobTable, r.id = id ∧ r.end ≠ «end»)
      (record start (∃ r ∈ s.jobTable, r.id = id ∧ r.start ≠ start) s.log) }

/-- The start that `job_complete` writes. -/
def startTime (job : JobRecord) : Int := if job.startTime > job.endTime then 0 else job.startTime

/-- The end of a job is before the last rollup. -/
def heardEnd (job : JobRecord) (s : State) : State :=
  if job.endTime < s.globalLastRollup then reroll job.endTime s else s

/-- The row of a job, if it has one. -/
def knownIndex (job : JobRecord) (s : State) : Option Nat :=
  if job.dbIndex = 0 then getDbIndex job s else some job.dbIndex

/-- The row of a job that ends, which `job_start` inserts when there is none. -/
def dbIndexOf (job : JobRecord) (s : State) : State × Nat :=
  match knownIndex job s with
  | some id => (s, id)
  | none => jobStart job s

/-- `jobacct_storage_p_job_complete`. -/
def jobComplete (job : JobRecord) (s : State) : State :=
  if job.dbIndex = 0 ∧ job.submitTime = 0 ∨ job.endTime = 0 then s else
    let found := dbIndexOf job (heardEnd job s)
    writeEnd found.2 (startTime job) job.endTime found.1

/-- A call of `acct_storage_p_roll_usage` at the time `now`, and which of its steps
succeed. -/
structure RollCall where
  sentStart : Int := 0
  sentEnd : Int := 0
  now : Int
  hourOk : Bool := true
  dayOk : Bool := true
  monthOk : Bool := true
deriving DecidableEq

/-- The starts of the hour, the day and the month of a time. -/
structure Clock where
  hour : Int → Int
  day : Int → Int
  month : Int → Int

/-- What the clock of the C library guarantees of the hours, but for `le` in the hour
that a clock change repeats. -/
structure Clock.Hourly (clock : Clock) : Prop where
  le : ∀ t, clock.hour t ≤ t
  mono : ∀ a b, a ≤ b → clock.hour a ≤ clock.hour b
  idem : ∀ t, clock.hour (clock.hour t) = clock.hour t

/-- The times up to which usage was rolled up, as the call takes them. -/
def RollCall.last (call : RollCall) (s : State) : LastRanRow :=
  if call.sentStart = 0 then s.lastRan else ⟨call.sentStart, call.sentStart, call.sentStart⟩

def RollCall.myTime (call : RollCall) : Int := if call.sentEnd = 0 then call.now else call.sentEnd

/-- `acct_storage_p_roll_usage`: a step runs when its window is not empty, and the
first step that fails ends the call before the row is written. -/
def rollUsage (clock : Clock) (call : RollCall) (s : State) : State :=
  let last := call.last s
  let startTime := clock.hour last.hourlyRollup
  let endTime := clock.hour call.myTime
  let s := { s with globalLastRollup := endTime }
  if startTime < endTime ∧ call.hourOk = false then s else
    let log := if startTime < endTime then .rolled startTime endTime :: s.log else s.log
    let s := { s with log := log }
    let startDay := clock.day last.dailyRollup
    let endDay := clock.day endTime
    if startDay < endDay ∧ call.dayOk = false then s else
      let startMonth := clock.month last.monthlyRollup
      let endMonth := clock.month endDay
      if startMonth < endMonth ∧ call.monthOk = false then s else
        if call.sentEnd ≠ 0 then s else
          { s with lastRan := {
              hourlyRollup := if startTime < endTime then endTime else s.lastRan.hourlyRollup
              dailyRollup := if startDay < endDay then endDay else s.lastRan.dailyRollup
              monthlyRollup :=
                if startMonth < endMonth then endMonth else s.lastRan.monthlyRollup } }

inductive Call where
  | rollUsage (call : RollCall)
  | jobStart (job : JobRecord)
  | jobComplete (job : JobRecord)
deriving DecidableEq

/-- One call of a history. -/
def step (clock : Clock) (s : State) : Call → Option State
  | .rollUsage call => some (rollUsage clock call s)
  | .jobStart job => some (jobStart job s).1
  | .jobComplete job => some (jobComplete job s)

/-! ## The history -/

/-- The hour that starts at `h` was rolled up. -/
def Rolled (h : Int) (log : List Entry) : Prop :=
  ∃ startTime endTime, .rolled startTime endTime ∈ log ∧ startTime ≤ h ∧ h < endTime

/-- The time `t` was recorded, and its hour was not rolled up since. -/
def Awaits (clock : Clock) (t : Int) : List Entry → Prop
  | [] => False
  | .recorded time :: log => time = t ∨ Awaits clock t log
  | .rolled startTime endTime :: log =>
    ¬(startTime ≤ clock.hour t ∧ clock.hour t < endTime) ∧ Awaits clock t log

/-- Nothing before `time` is left to do: no hour since the `first` mark that was
never rolled up, and no recorded time that waits. -/
structure DoneBefore (clock : Clock) (first : Int) (log : List Entry) (time : Int) : Prop where
  hours : ∀ h, clock.hour h = h → first ≤ h → ¬Rolled h log → time ≤ h
  times : ∀ t, Awaits clock t log → time ≤ t

/-- Nothing is left to do before the mark of the table. -/
def MarkOk (clock : Clock) (first : Int) (s : State) : Prop :=
  DoneBefore clock first s.log s.lastRan.hourlyRollup

section DoneBefore

variable {clock : Clock} {first time : Int} {log : List Entry}

/-- A time that is recorded must not be behind the mark. -/
theorem doneBefore_record {t : Int} {isNew : Prop} [Decidable isNew] :
    DoneBefore clock first (record t isNew log) time ↔
      DoneBefore clock first log time ∧ (t ≠ 0 → isNew → time ≤ t) := by
  by_cases hnew : t ≠ 0 ∧ isNew
  · rw [record, if_pos hnew]
    constructor
    · intro h
      refine ⟨⟨fun hour hh hf hr => h.hours hour hh hf fun hr' => hr ?_, fun u hu => ?_⟩,
        fun _ _ => h.times t (Or.inl rfl)⟩
      · obtain ⟨a, b, hmem, hin⟩ := hr'
        exact ⟨a, b, (List.mem_cons.mp hmem).resolve_left Entry.noConfusion, hin⟩
      · exact h.times u (Or.inr hu)
    · rintro ⟨h, ht⟩
      refine ⟨fun hour hh hf hr => h.hours hour hh hf fun hr' => hr ?_, ?_⟩
      · obtain ⟨a, b, hmem, hin⟩ := hr'
        exact ⟨a, b, List.mem_cons_of_mem _ hmem, hin⟩
      · rintro u (hu | hu)
        · rw [← hu]
          exact ht hnew.1 hnew.2
        · exact h.times u hu
  · rw [record, if_neg hnew]
    exact ⟨fun h => ⟨h, fun ht hn => absurd ⟨ht, hn⟩ hnew⟩, And.left⟩

/-- What is rolled up again is still done. -/
theorem DoneBefore.again (h : DoneBefore clock first log time) (startTime endTime : Int) :
    DoneBefore clock first (.rolled startTime endTime :: log) time := by
  refine ⟨fun hour hh hf hr => h.hours hour hh hf fun hr' => hr ?_, fun t ht => h.times t ht.2⟩
  obtain ⟨a, b, hmem, hin⟩ := hr'
  exact ⟨a, b, List.mem_cons_of_mem _ hmem, hin⟩

/-- A window moves the mark from its start to its end. -/
theorem doneBefore_rolled (hclock : clock.Hourly) {startTime endTime : Int}
    (hstart : clock.hour startTime = startTime) (hlt : startTime < endTime) :
    DoneBefore clock first (.rolled startTime endTime :: log) endTime ↔
      DoneBefore clock first log startTime := by
  constructor
  · intro h
    refine ⟨fun hour hh hf hr => ?_, fun t ht => ?_⟩
    · by_contra hbefore
      have hnot : ¬Rolled hour (.rolled startTime endTime :: log) := by
        rintro ⟨a, b, hmem, hin⟩
        obtain heq | hmem := List.mem_cons.mp hmem
        · injection heq with ha hb
          omega
        · exact hr ⟨a, b, hmem, hin⟩
      have hend := h.hours hour hh hf hnot
      omega
    · by_contra hbefore
      have hle := hclock.le t
      have hend := h.times t ⟨fun hin => by omega, ht⟩
      omega
  · intro h
    refine ⟨fun hour hh hf hr => ?_, fun t ht => ?_⟩
    · by_contra hbefore
      have hfrom := h.hours hour hh hf fun hr' => hr (by
        obtain ⟨a, b, hmem, hin⟩ := hr'
        exact ⟨a, b, List.mem_cons_of_mem _ hmem, hin⟩)
      exact hr ⟨startTime, endTime, List.mem_cons_self, hfrom, by omega⟩
    · by_contra hbefore
      have hle := hclock.le t
      have hmono := hclock.mono startTime t (h.times t ht.2)
      exact ht.1 ⟨by omega, by omega⟩

/-- The start of the hour of the mark is as good as the mark. -/
theorem DoneBefore.hour (hclock : clock.Hourly) (h : DoneBefore clock first log time) :
    DoneBefore clock first log (clock.hour time) := by
  have hle := hclock.le time
  exact ⟨fun hour hh hf hr => hle.trans (h.hours hour hh hf hr),
    fun t ht => hle.trans (h.times t ht)⟩

end DoneBefore

/-! ## What a call may do -/

/-- The start of the job goes to a row that does not hold it. -/
def NewStart (job : JobRecord) (s : State) : Prop :=
  if job.dbIndex = 0 then getDbIndex job s = none
  else ¬Clashes job.dbIndex job.assocId s ∧
    ∃ r ∈ s.jobTable, r.id = job.dbIndex ∧ r.start ≠ job.startTime

/-- A start that is heard of late has nothing to do before it, and another one is
not behind the mark. -/
def StartOk (clock : Clock) (first : Int) (job : JobRecord) (s : State) : Prop :=
  if HeardLate job s then DoneBefore clock first s.log (checkTime job)
  else job.startTime ≠ 0 → NewStart job s → s.lastRan.hourlyRollup ≤ job.startTime

/-- The mark, moved back to an end that is heard of late. -/
def markAtEnd (job : JobRecord) (s : State) : Int :=
  if job.endTime < s.globalLastRollup then job.endTime else s.lastRan.hourlyRollup

/-- With a row, the times that are new to it are not behind the mark; without one,
neither is the start, nor the end when the start is not heard of late. -/
def CompleteOk (clock : Clock) (first : Int) (job : JobRecord) (s : State) : Prop :=
  match knownIndex job s with
  | some id =>
    DoneBefore clock first s.log (markAtEnd job s) ∧
      (startTime job ≠ 0 → (∃ r ∈ s.jobTable, r.id = id ∧ r.start ≠ startTime job) →
        markAtEnd job s ≤ startTime job) ∧
      ((∃ r ∈ s.jobTable, r.id = id ∧ r.end ≠ job.endTime) → markAtEnd job s ≤ job.endTime)
  | none =>
    if checkTime job < min job.endTime s.globalLastRollup ∧ ¬Known job s then
      DoneBefore clock first s.log (checkTime job)
    else DoneBefore clock first s.log (markAtEnd job s) ∧
      (job.startTime ≠ 0 → markAtEnd job s ≤ job.startTime) ∧ markAtEnd job s ≤ job.endTime

/-- The call has an hour to roll up, and gets as far as the row: no step of it that
has something to do fails, and it was not told where to end. -/
def RollCall.Finishes (clock : Clock) (call : RollCall) (s : State) : Prop :=
  let last := call.last s
  let endTime := clock.hour call.myTime
  let endDay := clock.day endTime
  clock.hour last.hourlyRollup < endTime ∧ call.hourOk = true ∧
    ¬(clock.day last.dailyRollup < endDay ∧ call.dayOk = false) ∧
    ¬(clock.month last.monthlyRollup < clock.month endDay ∧ call.monthOk = false) ∧
    call.sentEnd = 0

/-- A rollup that starts where it was told to, and moves the mark to its end, has
nothing to do before its start. -/
def RollOk (clock : Clock) (first : Int) (call : RollCall) (s : State) : Prop :=
  call.sentStart ≠ 0 → call.Finishes clock s →
    DoneBefore clock first s.log (clock.hour call.sentStart)

def CallOk (clock : Clock) (first : Int) (s : State) : Call → Prop
  | .rollUsage call => RollOk clock first call s
  | .jobStart job => job.submitTime ≠ 0 → StartOk clock first job s
  | .jobComplete job =>
    ¬(job.dbIndex = 0 ∧ job.submitTime = 0 ∨ job.endTime = 0) → CompleteOk clock first job s

section Steps

variable {clock : Clock} {first : Int} {s : State} {job : JobRecord}

theorem checkTime_of_start (h : job.startTime ≠ 0) : checkTime job = job.startTime := if_pos h

theorem writeStart_eq (job : JobRecord) (s : State) :
    (writeStart job s).lastRan = s.lastRan ∧
      (job.dbIndex ≠ 0 →
        ∀ t, DoneBefore clock first (writeStart job s).log t ↔
          DoneBefore clock first s.log t ∧
            (job.startTime ≠ 0 → NewStart job s → t ≤ job.startTime)) := by
  unfold writeStart
  by_cases hclash : Clashes job.dbIndex job.assocId s
  · rw [if_pos hclash]
    refine ⟨rfl, fun hindex t => ⟨fun h => ⟨h, fun _ hnew => ?_⟩, And.left⟩⟩
    rw [NewStart, if_neg hindex] at hnew
    exact absurd hclash hnew.1
  · rw [if_neg hclash]
    refine ⟨rfl, fun hindex t => ?_⟩
    rw [NewStart, if_neg hindex]
    refine doneBefore_record.trans (and_congr_right fun _ => ?_)
    exact ⟨fun h ht hnew => h ht hnew.2, fun h ht hnew => h ht ⟨hclash, hnew⟩⟩

/-- What `job_start` does to the mark and to what is left to do. -/
theorem jobStart_eq (hsubmit : job.submitTime ≠ 0) (s : State) :
    (jobStart job s).1.lastRan.hourlyRollup =
        (if HeardLate job s then checkTime job else s.lastRan.hourlyRollup) ∧
      ∀ t, DoneBefore clock first (jobStart job s).1.log t ↔
        DoneBefore clock first s.log t ∧
          (job.startTime ≠ 0 → NewStart job s → t ≤ job.startTime) := by
  -- the first statement leaves the jobs and the history alone
  have hheard : ∀ s' : State, s'.log = s.log → s'.jobTable = s.jobTable →
      (∀ t, DoneBefore clock first (if job.dbIndex = 0 then
          match getDbIndex job s' with
          | some id => (s', id)
          | none => (insertJob job s', s'.nextId)
        else (writeStart job s', job.dbIndex)).1.log t ↔
        DoneBefore clock first s.log t ∧
          (job.startTime ≠ 0 → NewStart job s → t ≤ job.startTime)) ∧
      (if job.dbIndex = 0 then
          match getDbIndex job s' with
          | some id => (s', id)
          | none => (insertJob job s', s'.nextId)
        else (writeStart job s', job.dbIndex)).1.lastRan = s'.lastRan := by
    intro s' hlog hjobs
    have hfind : getDbIndex job s' = getDbIndex job s := by rw [getDbIndex, hjobs, getDbIndex]
    by_cases hindex : job.dbIndex = 0
    · rw [if_pos hindex, hfind, NewStart, if_pos hindex]
      cases hget : getDbIndex job s with
      | some id =>
        rw [← hlog]
        exact ⟨fun t => ⟨fun h => ⟨h, fun _ hnew => by cases hnew⟩, And.left⟩, rfl⟩
      | none =>
        rw [← hlog]
        refine ⟨fun t => doneBefore_record.trans (and_congr_right fun _ => ?_), rfl⟩
        exact ⟨fun h ht _ => h ht trivial, fun h ht _ => h ht rfl⟩
    · rw [if_neg hindex]
      have hnew : NewStart job s' ↔ NewStart job s := by
        rw [NewStart, NewStart, if_neg hindex, if_neg hindex, Clashes, Clashes, hjobs]
      have hwrite := @writeStart_eq clock first job s'
      rw [hlog, hnew] at hwrite
      exact ⟨hwrite.2 hindex, hwrite.1⟩
  unfold jobStart
  rw [if_neg hsubmit]
  by_cases hlate : HeardLate job s
  · obtain ⟨hdone, hmark⟩ := hheard (reroll (checkTime job) s) rfl rfl
    simp only [if_pos hlate]
    rw [hmark]
    exact ⟨rfl, hdone⟩
  · obtain ⟨hdone, hmark⟩ := hheard s rfl rfl
    simp only [if_neg hlate]
    rw [hmark]
    exact ⟨rfl, hdone⟩

theorem markOk_jobStart (hsubmit : job.submitTime ≠ 0) (h : MarkOk clock first s) :
    MarkOk clock first (jobStart job s).1 ↔ StartOk clock first job s := by
  obtain ⟨hmark, hdone⟩ := @jobStart_eq clock first job hsubmit s
  rw [MarkOk, hdone, hmark, StartOk]
  by_cases hlate : HeardLate job s
  · rw [if_pos hlate, if_pos hlate]
    refine ⟨And.left, fun hcheck => ⟨hcheck, fun hstart _ => ?_⟩⟩
    rw [checkTime_of_start hstart]
  · rw [if_neg hlate, if_neg hlate]
    exact ⟨And.right, fun hstart => ⟨h, hstart⟩⟩

/-- What the update at the end leaves to do. -/
theorem doneBefore_writeEnd {id : Nat} {start e : Int} (hend : e ≠ 0) (time : Int) :
    DoneBefore clock first (writeEnd id start e s).log time ↔
      DoneBefore clock first s.log time ∧
        (start ≠ 0 → (∃ r ∈ s.jobTable, r.id = id ∧ r.start ≠ start) → time ≤ start) ∧
        ((∃ r ∈ s.jobTable, r.id = id ∧ r.end ≠ e) → time ≤ e) := by
  rw [writeEnd, doneBefore_record, doneBefore_record, and_assoc]
  exact and_congr_right fun _ => and_congr_right fun _ => ⟨fun h => h hend, fun h _ => h⟩

theorem heardEnd_log (job : JobRecord) (s : State) :
    (heardEnd job s).log = s.log ∧ (heardEnd job s).jobTable = s.jobTable := by
  unfold heardEnd
  split
  · exact ⟨rfl, rfl⟩
  · exact ⟨rfl, rfl⟩

theorem heardEnd_le (job : JobRecord) (s : State) :
    (heardEnd job s).globalLastRollup ≤ job.endTime := by
  unfold heardEnd
  split
  · exact le_refl _
  · omega

theorem heardEnd_mark (job : JobRecord) (s : State) :
    (heardEnd job s).lastRan.hourlyRollup = markAtEnd job s := by
  unfold heardEnd markAtEnd
  split <;> rfl

theorem heardLate_heardEnd :
    HeardLate job (heardEnd job s) ↔
      checkTime job < min job.endTime s.globalLastRollup ∧ ¬Known job s := by
  have hrollup : (heardEnd job s).globalLastRollup = min job.endTime s.globalLastRollup := by
    unfold heardEnd
    split
    next hlt => exact (min_eq_left hlt.le).symm
    next hle => exact (min_eq_right (not_lt.mp hle)).symm
  rw [HeardLate, hrollup, Known, (heardEnd_log job s).2, ← Known]

/-- A job without a row gets one that has no end. -/
theorem jobStart_row (hsubmit : job.submitTime ≠ 0) (hnone : knownIndex job s = none) :
    ∃ r ∈ (jobStart job s).1.jobTable, r.id = (jobStart job s).2 ∧ r.end = 0 := by
  have hindex : job.dbIndex = 0 := by
    by_contra hindex
    rw [knownIndex, if_neg hindex] at hnone
    cases hnone
  rw [knownIndex, if_pos hindex] at hnone
  have hinsert : ∀ s' : State, s'.jobTable = s.jobTable →
      ∃ r ∈ (if job.dbIndex = 0 then
          match getDbIndex job s' with
          | some id => (s', id)
          | none => (insertJob job s', s'.nextId)
        else (writeStart job s', job.dbIndex)).1.jobTable,
        r.id = (if job.dbIndex = 0 then
          match getDbIndex job s' with
          | some id => (s', id)
          | none => (insertJob job s', s'.nextId)
        else (writeStart job s', job.dbIndex)).2 ∧ r.end = 0 := by
    intro s' hjobs
    have hfind : getDbIndex job s' = none := by rw [getDbIndex, hjobs, ← getDbIndex, hnone]
    rw [if_pos hindex, hfind]
    exact ⟨_, List.mem_append_right _ List.mem_cons_self, rfl, rfl⟩
  unfold jobStart
  rw [if_neg hsubmit]
  by_cases hlate : HeardLate job s
  · simp only [if_pos hlate]
    exact hinsert (reroll (checkTime job) s) rfl
  · simp only [if_neg hlate]
    exact hinsert s rfl

theorem knownIndex_none (hnone : knownIndex job s = none) :
    job.dbIndex = 0 ∧ getDbIndex job s = none := by
  unfold knownIndex at hnone
  by_cases hindex : job.dbIndex = 0
  · exact ⟨hindex, by rwa [if_pos hindex] at hnone⟩
  · rw [if_neg hindex] at hnone
    cases hnone

/-- A job that has a row when it ends. -/
theorem markOk_complete_known {id : Nat} (hend : job.endTime ≠ 0)
    (hid : knownIndex job s = some id) :
    MarkOk clock first (writeEnd id (startTime job) job.endTime (heardEnd job s)) ↔
      CompleteOk clock first job s := by
  rw [MarkOk, doneBefore_writeEnd hend, (heardEnd_log job s).1, (heardEnd_log job s).2, CompleteOk,
    hid]
  simp only [writeEnd, heardEnd_mark]

/-- A job that has none. -/
theorem markOk_complete_new (hsubmit : job.submitTime ≠ 0) (hend : job.endTime ≠ 0)
    (hnone : knownIndex job s = none) :
    MarkOk clock first (writeEnd (jobStart job (heardEnd job s)).2 (startTime job) job.endTime
        (jobStart job (heardEnd job s)).1) ↔
      CompleteOk clock first job s := by
  obtain ⟨hlog, hjobs⟩ := heardEnd_log job s
  have hnone' : knownIndex job (heardEnd job s) = none := by
    rw [knownIndex, getDbIndex, hjobs, ← getDbIndex, ← knownIndex, hnone]
  obtain ⟨hindex, hget⟩ := knownIndex_none hnone'
  have hnew : NewStart job (heardEnd job s) := by
    rw [NewStart, if_pos hindex]
    exact hget
  obtain ⟨r, hr, hrid, hrend⟩ := jobStart_row hsubmit hnone'
  obtain ⟨hmark, hdone⟩ := @jobStart_eq clock first job hsubmit (heardEnd job s)
  have hle := heardEnd_le job s
  have hwritten : ∃ r ∈ (jobStart job (heardEnd job s)).1.jobTable,
      r.id = (jobStart job (heardEnd job s)).2 ∧ r.end ≠ job.endTime :=
    ⟨r, hr, hrid, fun hc => hend (hc.symm.trans hrend)⟩
  -- a start that is written at the end is the start the job has
  have hstart : ∀ t, (job.startTime ≠ 0 → t ≤ job.startTime) →
      startTime job ≠ 0 → t ≤ startTime job := by
    intro t ht hs
    unfold startTime at hs ⊢
    split at hs
    · exact absurd rfl hs
    · rename_i hlt
      rw [if_neg hlt]
      exact ht hs
  have hiff : MarkOk clock first (writeEnd (jobStart job (heardEnd job s)).2 (startTime job)
        job.endTime (jobStart job (heardEnd job s)).1) ↔
      DoneBefore clock first s.log (jobStart job (heardEnd job s)).1.lastRan.hourlyRollup ∧
        (job.startTime ≠ 0 →
          (jobStart job (heardEnd job s)).1.lastRan.hourlyRollup ≤ job.startTime) ∧
        (jobStart job (heardEnd job s)).1.lastRan.hourlyRollup ≤ job.endTime := by
    rw [MarkOk, doneBefore_writeEnd hend]
    constructor
    · rintro ⟨h, -, he⟩
      obtain ⟨h, hs⟩ := (hdone _).mp h
      rw [hlog] at h
      exact ⟨h, fun hne => hs hne hnew, he hwritten⟩
    · rintro ⟨h, hs, he⟩
      rw [← hlog] at h
      exact ⟨(hdone _).mpr ⟨h, fun hne _ => hs hne⟩, fun hne _ => hstart _ hs hne, fun _ => he⟩
  rw [hiff, hmark, CompleteOk, hnone]
  simp only [← heardLate_heardEnd, ← heardEnd_mark]
  by_cases hlate : HeardLate job (heardEnd job s)
  · simp only [if_pos hlate]
    refine ⟨And.left, fun h => ⟨h, fun hne => (checkTime_of_start hne).le, ?_⟩⟩
    exact hlate.1.le.trans hle
  · simp only [if_neg hlate]

theorem markOk_jobComplete (h : MarkOk clock first s) :
    MarkOk clock first (jobComplete job s) ↔ CallOk clock first s (.jobComplete job) := by
  unfold jobComplete
  by_cases hnothing : job.dbIndex = 0 ∧ job.submitTime = 0 ∨ job.endTime = 0
  · rw [if_pos hnothing]
    exact ⟨fun _ hc => absurd hnothing hc, fun _ => h⟩
  · rw [if_neg hnothing]
    have hend : job.endTime ≠ 0 := fun hend => hnothing (Or.inr hend)
    have hcall : CallOk clock first s (.jobComplete job) ↔ CompleteOk clock first job s :=
      ⟨fun hok => hok hnothing, fun hok _ => hok⟩
    rw [hcall]
    have hknown : knownIndex job (heardEnd job s) = knownIndex job s := by
      rw [knownIndex, getDbIndex, (heardEnd_log job s).2, ← getDbIndex, ← knownIndex]
    simp only [dbIndexOf, hknown]
    cases hid : knownIndex job s with
    | some id => exact markOk_complete_known hend hid
    | none =>
      have hindex := (knownIndex_none hid).1
      exact markOk_complete_new (fun hsubmit => hnothing (Or.inl ⟨hindex, hsubmit⟩)) hend hid

/-- What a rollup can do to the mark and the history. -/
theorem rollUsage_cases (clock : Clock) (call : RollCall) (s : State) :
    (¬call.Finishes clock s ∧
      (rollUsage clock call s).lastRan.hourlyRollup = s.lastRan.hourlyRollup ∧
      ((rollUsage clock call s).log = s.log ∨
        ∃ a b, (rollUsage clock call s).log = .rolled a b :: s.log)) ∨
    (call.Finishes clock s ∧
      (rollUsage clock call s).lastRan.hourlyRollup = clock.hour call.myTime ∧
      (rollUsage clock call s).log =
        .rolled (clock.hour (call.last s).hourlyRollup) (clock.hour call.myTime) :: s.log) := by
  have hlog : ∀ (c : Prop) [Decidable c] (a b : Int),
      (if c then .rolled a b :: s.log else s.log) = s.log ∨
        ∃ a' b', (if c then .rolled a b :: s.log else s.log) = .rolled a' b' :: s.log := by
    intro c _ a b
    by_cases hc : c
    · exact Or.inr ⟨a, b, if_pos hc⟩
    · exact Or.inl (if_neg hc)
  unfold rollUsage RollCall.Finishes
  simp only
  by_cases hhour : clock.hour (call.last s).hourlyRollup < clock.hour call.myTime ∧
      call.hourOk = false
  · rw [if_pos hhour]
    refine Or.inl ⟨fun hf => ?_, rfl, Or.inl rfl⟩
    rw [hhour.2] at hf
    cases hf.2.1
  rw [if_neg hhour]
  by_cases hday : clock.day (call.last s).dailyRollup < clock.day (clock.hour call.myTime) ∧
      call.dayOk = false
  · rw [if_pos hday]
    exact Or.inl ⟨fun hf => hf.2.2.1 hday, rfl, hlog _ _ _⟩
  rw [if_neg hday]
  by_cases hmonth : clock.month (call.last s).monthlyRollup <
      clock.month (clock.day (clock.hour call.myTime)) ∧ call.monthOk = false
  · rw [if_pos hmonth]
    exact Or.inl ⟨fun hf => hf.2.2.2.1 hmonth, rfl, hlog _ _ _⟩
  rw [if_neg hmonth]
  by_cases hend : call.sentEnd = 0
  · rw [if_neg (not_not.mpr hend)]
    by_cases hlt : clock.hour (call.last s).hourlyRollup < clock.hour call.myTime
    · have hok : call.hourOk = true := by
        by_contra hok
        exact hhour ⟨hlt, Bool.eq_false_iff.mpr hok⟩
      exact Or.inr ⟨⟨hlt, hok, hday, hmonth, hend⟩, if_pos hlt, if_pos hlt⟩
    · exact Or.inl ⟨fun hf => hlt hf.1, if_neg hlt, hlog _ _ _⟩
  · rw [if_pos hend]
    exact Or.inl ⟨fun hf => hend hf.2.2.2.2, rfl, hlog _ _ _⟩

/-- A rollup from the mark on never leaves anything behind. -/
theorem markOk_rollUsage (hclock : clock.Hourly) {call : RollCall} (h : MarkOk clock first s) :
    MarkOk clock first (rollUsage clock call s) ↔ RollOk clock first call s := by
  unfold MarkOk
  obtain ⟨hf, hmark, hlog⟩ | ⟨hf, hmark, hlog⟩ := rollUsage_cases clock call s
  · refine iff_of_true ?_ fun _ hfin => absurd hfin hf
    rw [hmark]
    obtain hlog | ⟨a, b, hlog⟩ := hlog
    · rw [hlog]
      exact h
    · rw [hlog]
      exact h.again a b
  · rw [hmark, hlog, doneBefore_rolled hclock (hclock.idem _) hf.1]
    by_cases hsent : call.sentStart = 0
    · refine iff_of_true ?_ fun hc => absurd hsent hc
      rw [RollCall.last, if_pos hsent]
      exact DoneBefore.hour hclock h
    · rw [RollCall.last, if_neg hsent]
      exact ⟨fun hdone _ _ => hdone, fun hok => hok hsent hf⟩

/-- A call keeps the mark behind what is left to do exactly if it meets its
condition. -/
theorem markOk_step (hclock : clock.Hourly) {call : Call} (h : MarkOk clock first s) :
    ∃ s', step clock s call = some s' ∧ (MarkOk clock first s' ↔ CallOk clock first s call) := by
  cases call with
  | rollUsage call => exact ⟨_, rfl, markOk_rollUsage hclock h⟩
  | jobStart job =>
    refine ⟨_, rfl, ?_⟩
    by_cases hsubmit : job.submitTime = 0
    · have hnothing : (jobStart job s).1 = s := by rw [jobStart, if_pos hsubmit]
      rw [hnothing]
      exact iff_of_true h fun hc => absurd hsubmit hc
    · exact (markOk_jobStart hsubmit h).trans ⟨fun hok _ => hok, fun hok => hok hsubmit⟩
  | jobComplete job => exact ⟨_, rfl, markOk_jobComplete h⟩

end Steps

/-! ## Runs -/

/-- A process that was started on tables with a row of marks. -/
def started (lastRan : LastRanRow) (jobTable : List JobRow) (nextId : Nat) : State where
  lastRan := lastRan
  jobTable := jobTable
  nextId := nextId

/-- In a run of rollups and jobs nothing is left to do before the mark, at every
point, exactly if no call moves the mark over what is left to do or records a time
behind the mark. -/
theorem hourlyRollup_run {clock : Clock} (hclock : clock.Hourly) (lastRan : LastRanRow)
    (jobTable : List JobRow) (nextId : Nat) (calls : List Call) :
    HoldsThroughout (step clock) (MarkOk clock lastRan.hourlyRollup)
        (started lastRan jobTable nextId) calls ↔
      Guarded (step clock) (CallOk clock lastRan.hourlyRollup)
        (started lastRan jobTable nextId) calls := by
  have hstart : MarkOk clock lastRan.hourlyRollup (started lastRan jobTable nextId) :=
    ⟨fun _ _ hf _ => hf, fun _ ht => ht.elim⟩
  exact holdsThroughout_iff_guarded (fun s a hs => markOk_step hclock hs) calls _ hstart

/-- The clock of the first month in UTC. -/
def utc : Clock where
  hour t := t / 3600 * 3600
  day t := t / 86400 * 86400
  month t := t / 2678400 * 2678400

theorem utc_hourly : utc.Hourly where
  le t := Int.ediv_mul_le t (by decide)
  mono a b hab := Int.mul_le_mul_of_nonneg_right (Int.ediv_le_ediv (by decide) hab) (by decide)
  idem t := by
    show t / 3600 * 3600 / 3600 * 3600 = t / 3600 * 3600
    rw [Int.mul_ediv_cancel _ (by decide)]

/-- A job that starts after the hours rolled up. -/
theorem hourlyRollup_run_started :
    HoldsThroughout (step utc) (MarkOk utc 3600) (started ⟨3600, 3600, 3600⟩ [] 1)
      [.rollUsage { now := 36000 },
        .jobStart { jobId := 7, assocId := 1, submitTime := 35000, startTime := 36100 }] := by
  refine (hourlyRollup_run utc_hourly ⟨3600, 3600, 3600⟩ [] 1 _).mpr
    ⟨fun hc => absurd rfl hc, fun s hs => ⟨fun _ => ?_, fun _ _ => trivial⟩⟩
  obtain rfl := Option.some.inj hs
  rw [StartOk, if_neg (by decide +kernel)]
  exact fun _ _ => by decide +kernel

/-- A rollup that fails, and the end of a job in one of the hours it was to roll up. -/
def missedHours : List Call :=
  [.rollUsage { now := 36000, hourOk := false },
    .jobComplete { jobId := 7, assocId := 1, submitTime := 17000, beginTime := 17000,
                   startTime := 17500, endTime := 18000 }]

/-- After a rollup that failed, a job moves the mark over hours that were never
rolled up. -/
theorem hourlyRollup_missed :
    ¬∀ (clock : Clock) (_ : clock.Hourly) (lastRan : LastRanRow) (jobTable : List JobRow)
      (nextId : Nat) (calls : List Call),
      HoldsThroughout (step clock) (MarkOk clock lastRan.hourlyRollup)
        (started lastRan jobTable nextId) calls := by
  intro hall
  have hreached := (hall utc utc_hourly ⟨3600, 3600, 3600⟩ [] 1 missedHours).reached rfl
  have hmark := hreached.hours 3600 (by decide) (le_refl _) (by
    rintro ⟨a, b, hmem, -⟩
    obtain hc | hmem := List.mem_cons.mp hmem
    · cases hc
    obtain hc | hmem := List.mem_cons.mp hmem
    · cases hc
    · cases hmem)
  exact absurd hmark (by decide +kernel)

end Slurm.LastRan
