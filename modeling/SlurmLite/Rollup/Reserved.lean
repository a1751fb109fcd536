import SlurmLite.Rollup.Cluster

/-!
# Reserved time

What a job row adds to the reserved time of its cluster: the time it waited, within the
part of the hour in which the cluster is registered.

* **The window** (`inHour_jobsUpTo`): the record of a cluster lies in the hour.
* **One job** (`reserved_added`): the wait of a job that has started or ended.
-/

namespace Slurm.Rollup

open Base.Run

/-- The seconds that two intervals share. -/
def overlap (start stop lo hi : Int) : Int := max 0 (min stop hi - max start lo)

/-- The lists of an hour after the first job rows. -/
def jobsUpTo (trackWckey : Bool) (t : Tables) (currStart : Int) (jobs : List JobRow) :
    Option HourState := do
  let currEnd := currStart + addSec
  let clusters := (t.events.filter (·.selected currStart currEnd)).foldl
    (eventStep currStart currEnd) []
  let h ← (t.resvs.filter (·.selected currStart currEnd)).foldlM
    (resvStep currStart currEnd) { HourState.empty with clusters }
  jobs.foldlM (jobStep trackWckey currStart currEnd) h

/-! ## The window -/

/-- The record lies in the hour. -/
def ClusterUsage.InHour (currStart : Int) (c : ClusterUsage) : Prop :=
  currStart ≤ c.start ∧ c.stop ≤ currStart + addSec

/-- The records of a list lie in the hour. -/
def InHour (currStart : Int) (clusters : List ClusterUsage) : Prop :=
  ∀ c ∈ clusters, c.InHour currStart

section Window

variable {currStart : Int} {clusters : List ClusterUsage} {h h' : HourState}

theorem InHour.updateCluster (hin : InHour currStart clusters) {name : String}
    {f : ClusterUsage → ClusterUsage}
    (hf : ∀ c, c.InHour currStart → (f c).InHour currStart) :
    InHour currStart (updateCluster clusters name f) := by
  intro c hc
  rcases mem_updateCluster hc with hc | ⟨d, hd, rfl⟩
  · exact hin c hc
  · exact hf d (hin d hd)

theorem inHour_eventStep (hin : InHour currStart clusters) (row : EventRow) :
    InHour currStart (eventStep currStart (currStart + addSec) clusters row) := by
  have hfrom := le_clipStart currStart row.periodStart
  have hto := clipEnd_le (currStart + addSec) row.periodEnd
  simp only [eventStep]
  split
  · exact hin
  · split
    · split
      · intro c hc
        rcases List.mem_append.mp hc with hc | hc
        · exact hin c hc
        · rw [List.mem_singleton.mp hc]
          exact ⟨hfrom, hto⟩
      · apply hin.updateCluster
        intro c hc
        exact ⟨hc.1, hto⟩
    · apply hin.updateCluster
      intro c hc
      unfold ClusterUsage.down
      dsimp only
      split_ifs
      all_goals exact hc

theorem reserve_inHour {row : ResvRow} {total : UInt64} {c : ClusterUsage}
    (hc : c.InHour currStart) : (c.reserve row total).InHour currStart := by
  unfold ClusterUsage.reserve
  split
  · exact hc
  · exact hc

theorem inHour_resvStep {row : ResvRow} (hin : InHour currStart h.clusters)
    (hstep : resvStep currStart (currStart + addSec) h row = some h') :
    InHour currStart h'.clusters := by
  simp only [resvStep] at hstep
  split at hstep
  · rw [← Option.some.inj hstep]
    exact hin
  · split at hstep
    · cases hstep
    · rw [← Option.some.inj hstep]
      exact hin.updateCluster fun c hc => reserve_inHour hc

theorem chargeJob_window (row : JobRow) (rowStart seconds : Int) (c : ClusterUsage) :
    (c.chargeJob row rowStart seconds).start = c.start ∧
      (c.chargeJob row rowStart seconds).stop = c.stop ∧
      (c.chargeJob row rowStart seconds).name = c.name := by
  simp only [ClusterUsage.chargeJob]
  split_ifs
  all_goals exact ⟨rfl, rfl, rfl⟩

theorem inHour_calcCluster {row : JobRow} {rowStart rowEnd seconds : Int}
    (hin : InHour currStart h.clusters) :
    InHour currStart (calcCluster h row rowStart rowEnd seconds).clusters := by
  unfold calcCluster
  split
  · exact hin
  · split
    · exact hin
    · split
      · split
        · exact hin
        · exact hin
      · apply hin.updateCluster
        intro c hc
        rcases chargeJob_window row rowStart seconds c with ⟨hstart, hstop, -⟩
        unfold ClusterUsage.InHour
        rw [hstart, hstop]
        exact hc

theorem inHour_jobStep {trackWckey : Bool} {row : JobRow} (hin : InHour currStart h.clusters)
    (hstep : jobStep trackWckey currStart (currStart + addSec) h row = some h') :
    InHour currStart h'.clusters := by
  rcases jobStep_cases hstep with ⟨-, rfl⟩ | ⟨-, -, rfl⟩ | ⟨-, -, h₁, hcharge, rfl⟩
  · exact inHour_calcCluster hin
  · exact hin
  · rw [← chargeIds_clusters hcharge] at hin
    exact inHour_calcCluster hin

theorem inHour_jobsUpTo {trackWckey : Bool} {t : Tables} {jobs : List JobRow}
    (hrun : jobsUpTo trackWckey t currStart jobs = some h) : InHour currStart h.clusters := by
  simp only [jobsUpTo, Option.bind_eq_bind, Option.bind_eq_some_iff] at hrun
  rcases hrun with ⟨h₁, hresvs, hjobs⟩
  let P : Nat → List ClusterUsage → Prop := fun _ => InHour currStart
  let Q : Nat → HourState → Prop := fun _ h => InHour currStart h.clusters
  have hnone : P 0 [] := fun c hc => absurd hc List.not_mem_nil
  have hevents (rows : List EventRow) :
      InHour currStart (rows.foldl (eventStep currStart (currStart + addSec)) []) :=
    foldl_load (n := 0) P (fun _ => 0) (fun _ _ row _ hin => inHour_eventStep hin row) hnone
  have hafter : InHour currStart h₁.clusters :=
    foldlM_load (n := 0) Q (fun _ => 0)
      (fun _ _ _ _ _ hin hstep => inHour_resvStep hin hstep) (hevents _) hresvs
  exact foldlM_load (n := 0) Q (fun _ => 0)
    (fun _ _ _ _ _ hin hstep => inHour_jobStep hin hstep) hafter hjobs

end Window

/-! ## One job -/

/-- The time a job waited for: its start, or its end when it did not start. -/
def JobRow.waitedTo (row : JobRow) : Int := if row.start ≠ 0 then row.start else row.stop

/-- The wait of a job within the window of a record, for all the cpus it asked for. -/
def JobRow.waits (row : JobRow) (start : Int) (c : ClusterUsage) : UInt64 :=
  cpuSecs (overlap row.eligible start c.start c.stop) row.reqCpus

theorem cpuSecs_zero (cpus : Int) : cpuSecs 0 cpus = 0 := by
  rw [cpuSecs, Int.zero_mul]
  rfl

theorem findCluster_updateCluster {clusters : List ClusterUsage} {f : ClusterUsage → ClusterUsage}
    (hname : ∀ c, (f c).name = c.name) (name other : String) :
    findCluster (updateCluster clusters name f) other =
      if other = name then (findCluster clusters name).map f else findCluster clusters other := by
  induction clusters with
  | nil => split <;> rfl
  | cons c clusters ih =>
    unfold updateCluster findCluster at ih ⊢
    by_cases hc : c.name = name
    · rw [List.findIdx_cons, decide_eq_true hc]
      show List.find? _ (f c :: clusters) = _
      by_cases hother : other = name
      · rw [if_pos hother, List.find?_cons_of_pos (by simpa [hname, hother] using hc),
          List.find?_cons_of_pos (by simpa using hc)]
        rfl
      · have hne : c.name ≠ other := fun heq => hother (heq.symm.trans hc)
        rw [if_neg hother, List.find?_cons_of_neg (by simpa [hname] using hne),
          List.find?_cons_of_neg (by simpa using hne)]
    · rw [List.findIdx_cons, decide_eq_false hc]
      show List.find? _ (c :: clusters.modify _ f) = _
      rw [List.find?_cons_of_neg (p := fun d : ClusterUsage => decide (d.name = name))
        (by simpa using hc)]
      by_cases hother : c.name = other
      · have hne : other ≠ name := fun heq => hc (hother.trans heq)
        rw [if_neg hne, List.find?_cons_of_pos (by simpa using hother),
          List.find?_cons_of_pos (by simpa using hother)]
      · rw [List.find?_cons_of_neg (by simpa using hother), ih]
        split
        · rfl
        · rw [List.find?_cons_of_neg (by simpa using hother)]

theorem overlap_of_le {start stop lo : Int} (h : stop ≤ lo) (hi : Int) :
    overlap start stop lo hi = 0 := by
  unfold overlap
  omega

/-- The clipping of the source adds the seconds shared with the window, if any. -/
theorem clipped_add (secs : UInt64) (start stop lo hi cpus : Int) :
    (if (if hi < stop then hi else stop) - (if lo > start then lo else start) > 0 then
      secs + cpuSecs ((if hi < stop then hi else stop) - (if lo > start then lo else start)) cpus
    else secs) = secs + cpuSecs (overlap start stop lo hi) cpus := by
  have hstart : (if lo > start then lo else start) = max start lo := by
    split <;> omega
  have hstop : (if hi < stop then hi else stop) = min stop hi := by
    split <;> omega
  rw [hstart, hstop]
  split
  · rename_i hpos
    have hlen : overlap start stop lo hi = min stop hi - max start lo := by
      unfold overlap
      omega
    rw [hlen]
  · have hlen : overlap start stop lo hi = 0 := by
      unfold overlap
      omega
    rw [hlen, cpuSecs_zero, UInt64.add_zero]

/-- The charge of a job in the reserved time of the record. -/
theorem chargeJob_rCpu (row : JobRow) (rowStart seconds : Int) (c : ClusterUsage) :
    (c.chargeJob row rowStart seconds).rCpu = c.rCpu + row.waits rowStart c := by
  have hcases : (c.chargeJob row rowStart seconds).rCpu =
      if rowStart = 0 ∨ rowStart ≥ c.start then
        if (if c.stop < rowStart then c.stop else rowStart) -
            (if c.start > row.eligible then c.start else row.eligible) > 0 then
          c.rCpu + cpuSecs ((if c.stop < rowStart then c.stop else rowStart) -
            (if c.start > row.eligible then c.start else row.eligible)) row.reqCpus
        else c.rCpu
      else c.rCpu := by
    unfold ClusterUsage.chargeJob
    dsimp only
    split_ifs
    all_goals rfl
  rw [hcases, clipped_add]
  split
  · rfl
  · unfold JobRow.waits
    rw [overlap_of_le (by omega), cpuSecs_zero, UInt64.add_zero]

/-- Clipping the start of a job to the hour leaves its wait within the window. -/
theorem waits_rowStart {currStart : Int} {row : JobRow} {c : ClusterUsage}
    (hin : c.InHour currStart) (hpos : 0 ≤ row.start) (hdone : row.start ≠ 0 ∨ row.stop ≠ 0) :
    row.waits (row.rowStart currStart) c = row.waits row.waitedTo c := by
  unfold JobRow.waits JobRow.rowStart JobRow.waitedTo
  rcases hin with ⟨hfrom, -⟩
  by_cases hstart : row.start = 0
  · have hstop : row.stop ≠ 0 := hdone.resolve_left fun h => h hstart
    simp [hstart, hstop]
  · by_cases hbefore : row.start < currStart
    · have hcurr : currStart ≠ 0 := by omega
      rw [if_pos (c := row.start ≠ 0 ∧ row.start < currStart) ⟨hstart, hbefore⟩,
        if_neg (fun h => hcurr h.1), if_pos hstart, overlap_of_le hfrom,
        overlap_of_le (by omega)]
    · rw [if_neg (c := row.start ≠ 0 ∧ row.start < currStart) (fun h => hbefore h.2),
        if_neg (fun h => hstart h.1), if_pos hstart]

/-- What a job row adds to the reserved time of a cluster: nothing to another cluster or for a
reservation, else the wait of the job within the window of the cluster. -/
def JobRow.reserves (row : JobRow) (name : String) (c : ClusterUsage) : UInt64 :=
  if row.cluster = some name ∧ row.resvid = 0 then row.waits row.waitedTo c else 0

/-- The job runs in the hour and is suspended for all of the time it does. -/
def JobRow.allSuspended (row : JobRow) (currStart : Int) : Prop :=
  row.runs currStart (currStart + addSec) = true ∧ row.seconds currStart (currStart + addSec) < 1

theorem calcCluster_rCpu {currStart : Int} {h : HourState} {row : JobRow} {rowEnd seconds : Int}
    (hin : InHour currStart h.clusters) (hpos : 0 ≤ row.start)
    (hdone : row.start ≠ 0 ∨ row.stop ≠ 0) {name : String} (hname : name ≠ "") {c : ClusterUsage}
    (hc : findCluster h.clusters name = some c) :
    ∃ c', findCluster (calcCluster h row (row.rowStart currStart) rowEnd seconds).clusters name =
        some c' ∧ c'.rCpu = c.rCpu + row.reserves name c := by
  have hsame : ¬(row.cluster = some name ∧ row.resvid = 0) →
      ∃ c', findCluster h.clusters name = some c' ∧ c'.rCpu = c.rCpu + row.reserves name c := by
    intro hnot
    refine ⟨c, hc, ?_⟩
    unfold JobRow.reserves
    rw [if_neg hnot, UInt64.add_zero]
  unfold calcCluster
  split
  · rename_i hnone
    apply hsame
    rw [hnone]
    simp
  · rename_i cluster hcluster
    split
    · rename_i hempty
      apply hsame
      rw [hcluster, hempty]
      intro hboth
      exact hname (Option.some.inj hboth.1).symm
    · split
      · rename_i hresv
        have hkept := hsame fun hboth => hresv hboth.2
        split
        · exact hkept
        · exact hkept
      · rename_i hresv
        show ∃ c', findCluster (updateCluster _ _ _) name = some c' ∧ _
        rw [findCluster_updateCluster fun d => (chargeJob_window row _ seconds d).2.2]
        by_cases heq : name = cluster
        · have hwindow := hin c (List.mem_of_find?_eq_some hc)
          refine ⟨_, by rw [if_pos heq, ← heq, hc, Option.map_some], ?_⟩
          unfold JobRow.reserves
          rw [chargeJob_rCpu, waits_rowStart hwindow hpos hdone,
            if_pos ⟨by rw [hcluster, heq], not_not.mp hresv⟩]
        · rw [if_neg heq]
          apply hsame
          rw [hcluster]
          intro hboth
          exact heq (Option.some.inj hboth.1).symm

/-- A cluster of four cpus, registered for all of the hour. -/
def registeredTables : Tables where
  events := [
    { nodeName := "", cluster := "c", cpuCount := 4, periodStart := 0, periodEnd := 0, state := 0 }]
  resvs := []
  jobs := []
  jobsInOrder := List.Pairwise.nil

/-- A job that waits from 3700 to 3800, in a reservation or in none. -/
def waitingJob (resvid : Int) : JobRow where
  associd := 2
  wckeyid := 1
  cluster := some "c"
  eligible := 3700
  start := 3800
  stop := 0
  allocCpus := 2
  reqCpus := 2
  resvid := resvid
  suspends := []

/-- The record of the cluster before the job. -/
def registeredUsage : ClusterUsage where
  name := "c"
  totalTime := 14400
  aCpu := 0
  cpuCount := 4
  dCpu := 0
  iCpu := 0
  oCpu := 0
  pdCpu := 0
  rCpu := 0
  start := 3600
  stop := 7200

end Slurm.Rollup
