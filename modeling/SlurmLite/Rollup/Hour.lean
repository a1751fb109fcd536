import SlurmLite.CharList
import SlurmLite.JobcompFiletxt

/-!
# Hourly rollup

`mysql_hourly_rollup`. The tables do not change during a call and the queries
succeed; each table lists its rows in the order of the query that reads it. Times
are seconds below 2^31. A name finds at most one usage record of a cluster, so the
cache `last_c_usage` gives what the search gives.

* **Rows** (`EventRow`, `ResvRow`, `JobRow`, `SuspendRow`): what the queries return.
* **Usage** (`ClusterUsage`, `ResvUsage`, `IdUsage`): the records of one hour.
* **Loops** (`eventStep`, `resvStep`, `jobStep`, `shareStep`, `ClusterUsage.adjust`).
* **Hours** (`hour`, `mysqlHourlyRollup`): the records the inserts write.
-/

namespace Slurm.Rollup

open Slurm.CharList (addtoCharList)
open Slurm.Filetxt (atoi)

/-! ## Rows -/

/-- A row of the event table; a registration of the cluster has no node name. -/
structure EventRow where
  nodeName : String
  cluster : String
  cpuCount : Int
  periodStart : Int
  periodEnd : Int
  state : UInt32
  deriving DecidableEq

/-- A row of the reservation table; the column `assoclist` is never NULL. -/
structure ResvRow where
  id : Int
  cluster : String
  assoclist : List Char
  cpus : Int
  flags : UInt32
  start : Int
  stop : Int
  deriving DecidableEq

/-- A row of the suspend table. -/
structure SuspendRow where
  start : Int
  stop : Int
  deriving DecidableEq

/-- A row of the job table with the rows of the suspend table for its `id`. The column
`suspended` is never NULL, so the suspend table is always read. -/
structure JobRow where
  associd : Int
  wckeyid : Int
  cluster : Option String
  eligible : Int
  start : Int
  stop : Int
  allocCpus : Int
  reqCpus : Int
  resvid : Int
  suspends : List SuspendRow
  deriving DecidableEq

/-- The tables `mysql_hourly_rollup` reads; the jobs come by association. -/
structure Tables where
  events : List EventRow
  resvs : List ResvRow
  jobs : List JobRow
  jobsInOrder : jobs.Pairwise fun a b =>
    a.associd < b.associd ∨ a.associd = b.associd ∧ a.eligible ≤ b.eligible

def addSec : Int := 3600

def nodeStateMaint : UInt32 := 0x8000

def reserveFlagMaint : UInt32 := 0x0001

/-- The condition of the event query. -/
def EventRow.selected (currStart currEnd : Int) (r : EventRow) : Bool :=
  r.state &&& nodeStateMaint = 0 ∧ r.periodStart < currEnd ∧
    (r.periodEnd ≥ currStart ∨ r.periodEnd = 0)

/-- The condition of the reservation query. -/
def ResvRow.selected (currStart currEnd : Int) (r : ResvRow) : Bool :=
  r.start < currEnd ∧ r.stop ≥ currStart

/-- The condition of the job query. -/
def JobRow.selected (currStart currEnd : Int) (r : JobRow) : Bool :=
  r.eligible < currEnd ∧ (r.stop ≥ currStart ∨ r.stop = 0)

/-- The condition of the suspend query. -/
def SuspendRow.selected (currStart currEnd : Int) (r : SuspendRow) : Bool :=
  r.start < currEnd ∧ (r.stop ≥ currStart ∨ r.stop = 0)

/-! ## Usage -/

/-- An `int`, added to a `uint64_t`. -/
def ofInt (x : Int) : UInt64 := (Int32.ofInt x).toInt64.toUInt64

/-- A product of two `int`s, added to a `uint64_t`. -/
def cpuSecs (seconds cpus : Int) : UInt64 := ofInt (seconds * cpus)

/-- `local_id_usage_t`. -/
structure IdUsage where
  id : Int
  aCpu : UInt64
  deriving DecidableEq

/-- `local_cluster_usage_t`. -/
structure ClusterUsage where
  name : String
  totalTime : UInt64
  aCpu : UInt64
  cpuCount : Int
  dCpu : UInt64
  iCpu : UInt64
  oCpu : UInt64
  pdCpu : UInt64
  rCpu : UInt64
  start : Int
  stop : Int
  deriving DecidableEq

/-- `local_resv_usage_t`. -/
structure ResvUsage where
  aCpu : UInt64
  cluster : String
  id : Int
  localAssocs : List Int
  totalTime : UInt64
  start : Int
  stop : Int
  deriving DecidableEq

/-- A list of `local_id_usage_t` with the id charged last and the place of its record. -/
structure Tally where
  usages : List IdUsage
  lastId : Int
  cur : Option Nat
  deriving DecidableEq

/-- The lists of one hour. -/
structure HourState where
  clusters : List ClusterUsage
  resvs : List ResvUsage
  assocs : Tally
  wckeys : Tally
  deriving DecidableEq

def Tally.empty : Tally := { usages := [], lastId := -1, cur := none }

def HourState.empty : HourState :=
  { clusters := [], resvs := [], assocs := Tally.empty, wckeys := Tally.empty }

/-- The record of a cluster. -/
def findCluster (clusters : List ClusterUsage) (name : String) : Option ClusterUsage :=
  clusters.find? (·.name = name)

/-- `c_usage` of `name`, changed in place. -/
def updateCluster (clusters : List ClusterUsage) (name : String)
    (f : ClusterUsage → ClusterUsage) : List ClusterUsage :=
  clusters.modify (clusters.findIdx (·.name = name)) f

/-- `row_start`, not before the window. -/
def clipStart (currStart start : Int) : Int := if start < currStart then currStart else start

/-- `row_end`, not after the window; 0 is open. -/
def clipEnd (currEnd stop : Int) : Int := if stop = 0 ∨ stop > currEnd then currEnd else stop

theorem le_clipStart (currStart start : Int) : currStart ≤ clipStart currStart start := by
  rw [clipStart]
  split <;> omega

theorem clipEnd_le (currEnd stop : Int) : clipEnd currEnd stop ≤ currEnd := by
  rw [clipEnd]
  split <;> omega

/-! ## Events -/

/-- The record of a cluster that registers for the first time in the hour. -/
def ClusterUsage.register (row : EventRow) (rowStart rowEnd : Int) : ClusterUsage where
  name := row.cluster
  totalTime := cpuSecs (rowEnd - rowStart) row.cpuCount
  aCpu := 0
  cpuCount := row.cpuCount
  dCpu := 0
  iCpu := 0
  oCpu := 0
  pdCpu := 0
  rCpu := 0
  start := rowStart
  stop := rowEnd

/-- A further registration: the last cpu count stays, the time of all adds up. -/
def ClusterUsage.registerAgain (row : EventRow) (rowStart rowEnd : Int)
    (c : ClusterUsage) : ClusterUsage :=
  { c with
    cpuCount := row.cpuCount
    totalTime := c.totalTime + cpuSecs (rowEnd - rowStart) row.cpuCount
    stop := rowEnd }

/-- A node is down for the part of the event in which the cluster is registered. -/
def ClusterUsage.down (row : EventRow) (rowStart rowEnd : Int)
    (c : ClusterUsage) : ClusterUsage :=
  let localStart := if c.start > rowStart then c.start else rowStart
  let localEnd := if c.stop < rowEnd then c.stop else rowEnd
  if localEnd - localStart > 0 then
    { c with dCpu := c.dCpu + cpuSecs (localEnd - localStart) row.cpuCount }
  else c

def eventStep (currStart currEnd : Int) (clusters : List ClusterUsage)
    (row : EventRow) : List ClusterUsage :=
  let rowStart := clipStart currStart row.periodStart
  let rowEnd := clipEnd currEnd row.periodEnd
  if rowEnd - rowStart < 1 then clusters
  else if row.nodeName = "" then
    match findCluster clusters row.cluster with
    | none => clusters ++ [ClusterUsage.register row rowStart rowEnd]
    | some _ => updateCluster clusters row.cluster (.registerAgain row rowStart rowEnd)
  else updateCluster clusters row.cluster (.down row rowStart rowEnd)

/-! ## Reservations -/

/-- The ids of `local_assocs`; an empty text is a list of one empty name. -/
def ResvRow.localAssocs (row : ResvRow) : List Int := (addtoCharList [] row.assoclist).map atoi

def resvUsage (row : ResvRow) (rowStart rowEnd : Int) : ResvUsage where
  aCpu := 0
  cluster := row.cluster
  id := row.id
  localAssocs := row.localAssocs
  totalTime := cpuSecs (rowEnd - rowStart) row.cpus
  start := rowStart
  stop := rowEnd

/-- The whole reservation counts as allocated, or as planned down for maintenance. -/
def ClusterUsage.reserve (row : ResvRow) (totalTime : UInt64) (c : ClusterUsage) : ClusterUsage :=
  if row.flags &&& reserveFlagMaint ≠ 0 then { c with pdCpu := c.pdCpu + totalTime }
  else { c with aCpu := c.aCpu + totalTime }

/-- `none`: the cluster has no record and `c_usage` is NULL. -/
def resvStep (currStart currEnd : Int) (h : HourState) (row : ResvRow) : Option HourState :=
  let rowStart := clipStart currStart row.start
  let rowEnd := clipEnd currEnd row.stop
  if rowEnd - rowStart < 1 then some h
  else
    let r := resvUsage row rowStart rowEnd
    match findCluster h.clusters row.cluster with
    | none => none
    | some _ => some { h with
        resvs := h.resvs ++ [r]
        clusters := updateCluster h.clusters row.cluster (.reserve row r.totalTime) }

/-! ## Jobs -/

/-- `row_start`, clipped to the window; a job that ended without a start has its end. -/
def JobRow.rowStart (currStart : Int) (row : JobRow) : Int :=
  let rowStart := if row.start ≠ 0 ∧ row.start < currStart then currStart else row.start
  if rowStart = 0 ∧ row.stop ≠ 0 then row.stop else rowStart

/-- `row_end`, clipped to the window. -/
def JobRow.rowEnd (currEnd : Int) (row : JobRow) : Int := clipEnd currEnd row.stop

/-- What one row of the suspend table takes from `seconds`. -/
def SuspendRow.taken (rowStart rowEnd : Int) (s : SuspendRow) : Int :=
  if s.start = 0 then 0
  else
    let localStart := if rowStart > s.start then rowStart else s.start
    let localEnd := if rowEnd < s.stop then rowEnd else s.stop
    if localEnd - localStart < 1 then 0 else localEnd - localStart

/-- `seconds` after the loop over the suspend rows of the window. -/
def JobRow.seconds (currStart currEnd : Int) (row : JobRow) : Int :=
  (row.suspends.filter (·.selected currStart currEnd)).foldl
    (fun seconds s => seconds - s.taken (row.rowStart currStart) (row.rowEnd currEnd))
    (row.rowEnd currEnd - row.rowStart currStart)

/-- The job has a start and at least a second in the window. -/
def JobRow.runs (currStart currEnd : Int) (row : JobRow) : Bool :=
  row.rowStart currStart ≠ 0 ∧ ¬row.rowEnd currEnd - row.rowStart currStart < 1

theorem runs_iff {currStart currEnd : Int} {row : JobRow} :
    row.runs currStart currEnd = true ↔
      row.rowStart currStart ≠ 0 ∧ row.rowStart currStart < row.rowEnd currEnd := by
  simp only [JobRow.runs, decide_eq_true_eq]
  omega

/-- A new record at the end of the list, which is then the current one. -/
def Tally.append (t : Tally) (id : Int) : Tally where
  usages := t.usages ++ [{ id, aCpu := 0 }]
  lastId := id
  cur := some t.usages.length

/-- Adds to the current record; `none` when there is none. -/
def Tally.charge (t : Tally) (secs : UInt64) : Option Tally :=
  t.cur.map fun i =>
    { t with usages := t.usages.modify i fun u => { u with aCpu := u.aCpu + secs } }

/-- The association of a job row: the rows come by association, so a new id is new. -/
def Tally.forAssoc (t : Tally) (id : Int) : Tally :=
  if t.lastId ≠ id then t.append id else t

/-- The wckey of a job row, searched when it is not the last one. -/
def Tally.forWckey (t : Tally) (id : Int) : Tally :=
  if t.lastId ≠ id then
    match t.usages.findIdx? (·.id = id) with
    | some i => { t with lastId := id, cur := some i }
    | none => t.append id
  else t

/-- The part of a reservation that a job used. -/
def ResvUsage.use (row : JobRow) (cluster : String) (rowStart rowEnd : Int)
    (r : ResvUsage) : ResvUsage :=
  if r.id = row.resvid ∧ r.cluster = cluster then
    let tempStart := if r.start > rowStart then r.start else rowStart
    let tempEnd := if r.stop < rowEnd then r.stop else rowEnd
    if tempEnd - tempStart > 0 then
      { r with aCpu := r.aCpu + cpuSecs (tempEnd - tempStart) row.allocCpus }
    else r
  else r

/-- The allocated time, then the time from eligible to start as reserved time. -/
def ClusterUsage.chargeJob (row : JobRow) (rowStart seconds : Int)
    (c : ClusterUsage) : ClusterUsage :=
  let c := if rowStart ≠ 0 ∧ seconds > 0 then
      { c with aCpu := c.aCpu + cpuSecs seconds row.allocCpus } else c
  if rowStart = 0 ∨ rowStart ≥ c.start then
    let resvStart := if c.start > row.eligible then c.start else row.eligible
    let resvEnd := if c.stop < rowStart then c.stop else rowStart
    if resvEnd - resvStart > 0 then
      { c with rCpu := c.rCpu + cpuSecs (resvEnd - resvStart) row.reqCpus }
    else c
  else c

/-- The label `calc_cluster`. -/
def calcCluster (h : HourState) (row : JobRow) (rowStart rowEnd seconds : Int) : HourState :=
  match row.cluster with
  | none => h
  | some cluster =>
    if cluster = "" then h
    else if row.resvid ≠ 0 then
      if seconds ≤ 0 then h
      else { h with resvs := h.resvs.map (.use row cluster rowStart rowEnd) }
    else { h with clusters := updateCluster h.clusters cluster (.chargeJob row rowStart seconds) }

/-- The wckey calculation, which is skipped where wckeys are not tracked. -/
def chargeWckey (trackWckey : Bool) (h : HourState) (row : JobRow) (seconds : Int) :
    Option Tally :=
  if trackWckey then (h.wckeys.forWckey row.wckeyid).charge (cpuSecs seconds row.allocCpus)
  else some h.wckeys

/-- Adds a job to its association and its wckey. -/
def chargeIds (trackWckey : Bool) (h : HourState) (row : JobRow) (seconds : Int) :
    Option HourState := do
  let assocs ← (h.assocs.forAssoc row.associd).charge (cpuSecs seconds row.allocCpus)
  let wckeys ← chargeWckey trackWckey h row seconds
  return { h with assocs, wckeys }

theorem chargeIds_cases {trackWckey : Bool} {h h' : HourState} {row : JobRow} {seconds : Int}
    (hcharge : chargeIds trackWckey h row seconds = some h') :
    ∃ assocs wckeys,
      (h.assocs.forAssoc row.associd).charge (cpuSecs seconds row.allocCpus) = some assocs ∧
      chargeWckey trackWckey h row seconds = some wckeys ∧ h' = { h with assocs, wckeys } := by
  simp only [chargeIds, Option.bind_eq_bind, Option.bind_eq_some_iff, Option.pure_def,
    Option.some.injEq] at hcharge
  obtain ⟨assocs, hassocs, wckeys, hwckeys, rfl⟩ := hcharge
  exact ⟨assocs, wckeys, hassocs, hwckeys, rfl⟩

/-- `none`: a record is written through a NULL pointer, for the id -1. -/
def jobStep (trackWckey : Bool) (currStart currEnd : Int) (h : HourState) (row : JobRow) :
    Option HourState :=
  let rowStart := row.rowStart currStart
  let rowEnd := row.rowEnd currEnd
  if row.runs currStart currEnd then
    if row.seconds currStart currEnd < 1 then some h
    else do
      let h ← chargeIds trackWckey h row (row.seconds currStart currEnd)
      return calcCluster h row rowStart rowEnd (row.seconds currStart currEnd)
  else some (calcCluster h row rowStart rowEnd 0)

/-- A job row is charged and goes on to `calc_cluster`, or does one of the two only, or
nothing where it was suspended for the whole window. -/
theorem jobStep_cases {trackWckey : Bool} {currStart currEnd : Int} {h h' : HourState}
    {row : JobRow} (hstep : jobStep trackWckey currStart currEnd h row = some h') :
    (row.runs currStart currEnd = false ∧
      h' = calcCluster h row (row.rowStart currStart) (row.rowEnd currEnd) 0) ∨
    (row.runs currStart currEnd = true ∧ row.seconds currStart currEnd < 1 ∧ h' = h) ∨
    (row.runs currStart currEnd = true ∧ ¬row.seconds currStart currEnd < 1 ∧
      ∃ h₁, chargeIds trackWckey h row (row.seconds currStart currEnd) = some h₁ ∧
        h' = calcCluster h₁ row (row.rowStart currStart) (row.rowEnd currEnd)
          (row.seconds currStart currEnd)) := by
  simp only [jobStep] at hstep
  split at hstep
  · rename_i hruns
    split at hstep
    · rename_i hnone
      exact Or.inr (Or.inl ⟨hruns, hnone, (Option.some.inj hstep).symm⟩)
    · rename_i hsome
      rw [Option.bind_eq_bind, Option.bind_eq_some_iff] at hstep
      obtain ⟨h₁, hcharge, hstep⟩ := hstep
      exact Or.inr (Or.inr ⟨hruns, hsome, h₁, hcharge, (Option.some.inj hstep).symm⟩)
  · rename_i hruns
    exact Or.inl ⟨Bool.eq_false_iff.mpr hruns, (Option.some.inj hstep).symm⟩

/-! ## Shares of the reservations -/

/-- `idle`, a `uint64_t` difference read as `int64_t`. -/
def ResvUsage.idle (r : ResvUsage) : Int := (r.totalTime - r.aCpu).toInt64.toInt

/-- The `int` that each association of a reservation with idle time gets. -/
def ResvUsage.share (r : ResvUsage) : UInt64 :=
  ofInt (r.idle.tdiv r.localAssocs.length)

/-- The association of a share. The search asks for `!a_usage->id == associd`, which
compares 0 or 1 with the id; at the end of the list `a_usage` is NULL. -/
def Tally.forShare (t : Tally) (id : Int) : Tally :=
  let t := if t.lastId ≠ id then
      match t.usages.findIdx? fun u => (if u.id = 0 then 1 else 0) = id with
      | some i => { t with lastId := (t.usages[i]?.map (·.id)).getD t.lastId, cur := some i }
      | none => { t with cur := none }
    else t
  if t.cur = none then t.append id else t

def chargeShare (share : UInt64) (t : Tally) (id : Int) : Option Tally :=
  (t.forShare id).charge share

/-- `none`: a reservation with idle time and no association, a division by zero. -/
def shareStep (t : Tally) (r : ResvUsage) : Option Tally :=
  if r.idle ≤ 0 then some t
  else if r.localAssocs = [] then none
  else r.localAssocs.foldlM (chargeShare r.share) t

/-! ## Over-commit adjustment -/

/-- The two sanity checks on the used time: no more allocated than there is, and down
what is left of it when all of it is too much. -/
def ClusterUsage.capUsed (c : ClusterUsage) : ClusterUsage :=
  let aCpu := if c.totalTime < c.aCpu then c.totalTime else c.aCpu
  if c.totalTime < aCpu + c.dCpu + c.pdCpu then
    { c with aCpu, pdCpu := 0, dCpu := c.totalTime - aCpu }
  else { c with aCpu }

/-- The idle time; where it is negative the reserved time gives it back, and it counts as
over-committed. -/
def ClusterUsage.setIdle (c : ClusterUsage) : ClusterUsage :=
  let iCpu := c.totalTime - (c.aCpu + c.dCpu + c.pdCpu) - c.rCpu
  if iCpu.toInt64 < 0 then
    { c with
      iCpu := 0
      oCpu := c.oCpu - iCpu
      rCpu := if (c.rCpu + iCpu).toInt64 < 0 then 0 else c.rCpu + iCpu }
  else { c with iCpu }

/-- The sanity checks on the record of a cluster before it is written. -/
def ClusterUsage.adjust (c : ClusterUsage) : ClusterUsage := c.capUsed.setIdle

/-! ## Hours -/

/-- The rows the inserts of one hour write. -/
structure HourOut where
  currStart : Int
  clusters : List ClusterUsage
  assocs : List IdUsage
  wckeys : List IdUsage
  deriving DecidableEq

/-- The lists after the jobs of the hour. -/
def jobsDone (trackWckey : Bool) (t : Tables) (currStart : Int) : Option HourState := do
  let currEnd := currStart + addSec
  let clusters := (t.events.filter (·.selected currStart currEnd)).foldl
    (eventStep currStart currEnd) []
  let h ← (t.resvs.filter (·.selected currStart currEnd)).foldlM
    (resvStep currStart currEnd) { HourState.empty with clusters }
  (t.jobs.filter (·.selected currStart currEnd)).foldlM (jobStep trackWckey currStart currEnd) h

/-- The body of the `while` of `mysql_hourly_rollup`. -/
def hour (trackWckey : Bool) (t : Tables) (currStart : Int) : Option HourOut := do
  let h ← jobsDone trackWckey t currStart
  let assocs ← h.resvs.foldlM shareStep h.assocs
  return {
    currStart
    clusters := h.clusters.map .adjust
    assocs := assocs.usages
    wckeys := if trackWckey then h.wckeys.usages else [] }

theorem hour_cases {trackWckey : Bool} {t : Tables} {currStart : Int} {o : HourOut}
    (ho : hour trackWckey t currStart = some o) :
    ∃ h assocs, jobsDone trackWckey t currStart = some h ∧
      h.resvs.foldlM shareStep h.assocs = some assocs ∧
      o = {
        currStart
        clusters := h.clusters.map .adjust
        assocs := assocs.usages
        wckeys := if trackWckey then h.wckeys.usages else [] } := by
  simp only [hour, Option.bind_eq_bind, Option.bind_eq_some_iff, Option.pure_def,
    Option.some.injEq] at ho
  obtain ⟨h, hdone, assocs, hshares, rfl⟩ := ho
  exact ⟨h, assocs, hdone, hshares, rfl⟩

/-- The first `n` rounds of the `while` of `mysql_hourly_rollup`; a round that writes
through a NULL pointer or divides by zero is the end of the process. -/
def hours (trackWckey : Bool) (t : Tables) : Nat → Int → List HourOut
  | 0, _ => []
  | n + 1, currStart =>
    match hour trackWckey t currStart with
    | none => []
    | some out => out :: hours trackWckey t n (currStart + addSec)

/-- `mysql_hourly_rollup`: an hour for each `curr_start` below `end`. -/
def mysqlHourlyRollup (trackWckey : Bool) (t : Tables) (start stop : Int) : List HourOut :=
  hours trackWckey t ((stop - start + (addSec - 1)) / addSec).toNat start

theorem mem_hours {trackWckey : Bool} {t : Tables} {n : Nat} {currStart : Int} {o : HourOut}
    (ho : o ∈ hours trackWckey t n currStart) :
    hour trackWckey t o.currStart = some o := by
  induction n generalizing currStart with
  | zero => exact absurd ho List.not_mem_nil
  | succ n ih =>
    rw [hours] at ho
    split at ho
    · exact absurd ho List.not_mem_nil
    · rename_i out hout
      obtain rfl | ho := List.mem_cons.mp ho
      · obtain ⟨h, assocs, -, -, heq⟩ := hour_cases hout
        have hstart : o.currStart = currStart := by rw [heq]
        rw [hstart, hout]
      · exact ih ho

/-- Every hour a call produces is the hour of its `curr_start`. -/
theorem mem_mysqlHourlyRollup {trackWckey : Bool} {t : Tables} {start stop : Int} {o : HourOut}
    (ho : o ∈ mysqlHourlyRollup trackWckey t start stop) :
    hour trackWckey t o.currStart = some o :=
  mem_hours ho

end Slurm.Rollup
