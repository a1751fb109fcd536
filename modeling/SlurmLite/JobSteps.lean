import SlurmLite.JobacctProcess
import SlurmLite.PrivateJobs
import SlurmLite.Sacct.StepList

/-!
# The steps a query returns for a job

For each job `mysql_jobacct_process_get_jobs` goes through the selected steps,
builds a condition on `t1.stepid` and reads the steps that meet it and the node
filter.

* **Condition** (`selectStep`, `selectSteps_eq`): the numbers it compares are
  those of the elements for the job that stand before the first one without a
  step number, where the loop breaks off.
* **Node filter** (`readSteps_eq`): its answers do not depend on the steps before.
* **Selection** (`stepsRight_iff`): when the steps are the ones asked for.
-/

namespace Slurm.JobSteps

open Base.Text Slurm.CharList Slurm.JobCondLimits
open Slurm.StepList (SelectedStep noVal)
open Slurm.JobProcess (LocalCluster goodNodesFromInx)
open Slurm.PrivateJobs (Assoc Matches satisfies)

/-- A row of the step table: the job's database index, the number of the step
(a `smallint`) and its node index. -/
structure StepRow where
  id : Nat
  stepid : Int
  nodeInx : Option (List Char)
deriving DecidableEq

/-- What the step query takes from a job row. -/
structure JobRow where
  id : Nat
  jobid : Nat
  submit : Int

/-- The variables of the loop over `step_list`: `set`, `extra`, the numbers that
`extra` compares `t1.stepid` with, and `show_full`. -/
structure Selecting where
  set : Bool
  extra : Option Text
  stepids : List Nat
  showFull : Nat

/-- `t1.stepid=%u`. -/
def term (stepid : Nat) : Text := "t1.stepid=".toList ++ decimal stepid

/-- One element for the job that has a step number. -/
def selectStep (s : Selecting) (stepid : Nat) : Selecting where
  set := true
  extra := some (s.extra.getD [] ++ (if s.set then " || ".toList else " && (".toList) ++
    term stepid)
  stepids := s.stepids ++ [stepid]
  showFull := 0

/-- The loop over `step_list`. -/
def selectSteps (jobid : Nat) : List SelectedStep → Selecting → Selecting
  | [], s => s
  | selectedStep :: rest, s =>
    if selectedStep.jobid ≠ jobid then selectSteps jobid rest s
    else if selectedStep.stepid = noVal then { s with showFull := 1 }
    else selectSteps jobid rest (selectStep s selectedStep.stepid)

/-- `if(set) xstrcat(extra, ")")`. -/
def closeParen (s : Selecting) : Selecting :=
  if s.set then { s with extra := some (s.extra.getD [] ++ [')']) } else s

/-- The variables before the loop. -/
def unselected : Selecting := { set := false, extra := none, stepids := [], showFull := 1 }

/-- The variables behind the loop. -/
def stepCondition (stepList : List SelectedStep) (jobid : Nat) : Selecting :=
  if stepList = [] then unselected
  else closeParen (selectSteps jobid stepList unselected)

/-- The rows of `select .. from step_table as t1 where t1.id=%s` with the condition. -/
def stepQuery (job : JobRow) (s : Selecting) (table : List StepRow) : List StepRow :=
  table.filter fun r => r.id = job.id ∧ (s.set = false ∨ ∃ n ∈ s.stepids, r.stepid = n)

/-- The loop over the result rows: the steps of the job, and the cluster looked at
from now on. -/
def readSteps (clusters : List LocalCluster) (submit : Int) :
    List StepRow → Option LocalCluster → List StepRow × Option LocalCluster
  | [], curr => ([], curr)
  | r :: rows, curr =>
    let good := goodNodesFromInx clusters curr r.nodeInx submit
    let rest := readSteps clusters submit rows good.2
    (if good.1 then r :: rest.1 else rest.1, rest.2)

/-- The steps of a job, its `show_full` and the cluster looked at from now on. -/
structure Returned where
  steps : List StepRow
  showFull : Nat
  curr : Option LocalCluster

/-- What the loop of `mysql_jobacct_process_get_jobs` does for the steps of a job. -/
def getJobSteps (stepList : List SelectedStep) (clusters : List LocalCluster)
    (curr : Option LocalCluster) (table : List StepRow) (job : JobRow) : Returned :=
  let s := stepCondition stepList job.jobid
  let read := readSteps clusters job.submit (stepQuery job s table) curr
  { steps := read.1, showFull := s.showFull, curr := read.2 }

/-! ## The steps asked for -/

/-- The steps of the job that the node filter lets through. -/
def storedSteps (clusters : List LocalCluster) (curr : Option LocalCluster)
    (table : List StepRow) (job : JobRow) : List StepRow :=
  table.filter fun r =>
    r.id = job.id ∧ (goodNodesFromInx clusters curr r.nodeInx job.submit).1 = true

/-- Some element selects the job without a step number. -/
def SelectsJob (stepList : List SelectedStep) (jobid : Nat) : Prop :=
  ∃ e ∈ stepList, e.jobid = jobid ∧ e.stepid = noVal

/-- Some element names the step of the job. -/
def NamesStep (stepList : List SelectedStep) (jobid : Nat) (r : StepRow) : Prop :=
  ∃ e ∈ stepList, e.jobid = jobid ∧ r.stepid = e.stepid

instance (stepList : List SelectedStep) (jobid : Nat) : Decidable (SelectsJob stepList jobid) :=
  inferInstanceAs (Decidable (∃ e ∈ stepList, _))

instance (stepList : List SelectedStep) (jobid : Nat) (r : StepRow) :
    Decidable (NamesStep stepList jobid r) :=
  inferInstanceAs (Decidable (∃ e ∈ stepList, _))

/-- The steps asked for and `show_full`: all steps if no steps are selected or the
job is selected without a step number, otherwise those named for the job. -/
def askedSteps (stepList : List SelectedStep) (clusters : List LocalCluster)
    (curr : Option LocalCluster) (table : List StepRow) (job : JobRow) : List StepRow × Nat :=
  if stepList = [] ∨ SelectsJob stepList job.jobid then (storedSteps clusters curr table job, 1)
  else ((storedSteps clusters curr table job).filter (NamesStep stepList job.jobid ·), 0)

/-- The job meets the block of the selected steps in the condition on jobs. -/
def InQuery (stepList : List SelectedStep) (jobid : Nat) : Prop :=
  stepList = [] ∨ ∃ e ∈ stepList, e.jobid = jobid

instance (stepList : List SelectedStep) (jobid : Nat) : Decidable (InQuery stepList jobid) :=
  inferInstanceAs (Decidable (_ ∨ _))

/-! ## The loop over the selected steps -/

/-- The elements for the job. -/
def own (stepList : List SelectedStep) (jobid : Nat) : List SelectedStep :=
  stepList.filter (·.jobid = jobid)

/-- Those of them before the first one without a step number. -/
def beforeJob (stepList : List SelectedStep) (jobid : Nat) : List SelectedStep :=
  (own stepList jobid).takeWhile (·.stepid ≠ noVal)

theorem own_cons_of_ne {e : SelectedStep} {jobid : Nat} (h : e.jobid ≠ jobid)
    (rest : List SelectedStep) : own (e :: rest) jobid = own rest jobid :=
  List.filter_cons_of_neg (by simpa using h)

theorem own_cons_of_eq {e : SelectedStep} {jobid : Nat} (h : e.jobid = jobid)
    (rest : List SelectedStep) : own (e :: rest) jobid = e :: own rest jobid :=
  List.filter_cons_of_pos (by simpa using h)

theorem mem_own {stepList : List SelectedStep} {jobid : Nat} {e : SelectedStep} :
    e ∈ own stepList jobid ↔ e ∈ stepList ∧ e.jobid = jobid := by
  simp [own]

/-- What the loop does: it takes the elements before the first one for the job
without a step number, which sets `show_full` again. -/
theorem selectSteps_eq (jobid : Nat) (stepList : List SelectedStep) (s : Selecting) :
    selectSteps jobid stepList s =
      let s' := ((beforeJob stepList jobid).map (·.stepid)).foldl selectStep s
      if SelectsJob stepList jobid then { s' with showFull := 1 } else s' := by
  induction stepList generalizing s with
  | nil => rfl
  | cons e rest ih =>
    rw [selectSteps]
    by_cases hjob : e.jobid = jobid
    · by_cases hstep : e.stepid = noVal
      · have hsel : SelectsJob (e :: rest) jobid := ⟨e, List.mem_cons_self, hjob, hstep⟩
        have hbefore : beforeJob (e :: rest) jobid = [] := by
          rw [beforeJob, own_cons_of_eq hjob, List.takeWhile_cons_of_neg (by simpa using hstep)]
        rw [if_neg (not_not.mpr hjob), if_pos hstep, hbefore]
        exact (if_pos hsel).symm
      · have hsel : SelectsJob (e :: rest) jobid ↔ SelectsJob rest jobid := by
          simp [SelectsJob, hstep]
        have hbefore : beforeJob (e :: rest) jobid = e :: beforeJob rest jobid := by
          rw [beforeJob, own_cons_of_eq hjob, List.takeWhile_cons_of_pos (by simpa using hstep)]
          rfl
        rw [if_neg (not_not.mpr hjob), if_neg hstep, ih, hbefore]
        simp only [hsel, List.map_cons, List.foldl_cons]
    · have hsel : SelectsJob (e :: rest) jobid ↔ SelectsJob rest jobid := by
        simp [SelectsJob, hjob]
      have hbefore : beforeJob (e :: rest) jobid = beforeJob rest jobid := by
        rw [beforeJob, own_cons_of_ne hjob]
        rfl
      rw [if_pos hjob, ih, hbefore]
      simp only [hsel]

theorem stepids_foldl (ns : List Nat) (s : Selecting) :
    (ns.foldl selectStep s).stepids = s.stepids ++ ns := by
  induction ns generalizing s with
  | nil => exact (List.append_nil _).symm
  | cons n ns ih =>
    rw [List.foldl_cons, ih]
    exact List.append_assoc _ [n] ns

theorem set_foldl (ns : List Nat) (s : Selecting) :
    (ns.foldl selectStep s).set = (s.set || !ns.isEmpty) := by
  induction ns generalizing s with
  | nil => exact (Bool.or_false _).symm
  | cons n ns ih =>
    rw [List.foldl_cons, ih]
    simp [selectStep]

theorem showFull_foldl (ns : List Nat) (s : Selecting) :
    (ns.foldl selectStep s).showFull = if ns = [] then s.showFull else 0 := by
  induction ns generalizing s with
  | nil => rfl
  | cons n ns ih =>
    rw [List.foldl_cons, ih, if_neg (List.cons_ne_nil n ns)]
    simp [selectStep]

theorem closeParen_fields (s : Selecting) : (closeParen s).stepids = s.stepids ∧
    (closeParen s).set = s.set ∧ (closeParen s).showFull = s.showFull := by
  unfold closeParen
  split <;> exact ⟨rfl, rfl, rfl⟩

/-- The numbers compared and `show_full` behind the loop. -/
theorem stepCondition_spec (stepList : List SelectedStep) (jobid : Nat) :
    (stepCondition stepList jobid).stepids = (beforeJob stepList jobid).map (·.stepid) ∧
    (stepCondition stepList jobid).set = !(beforeJob stepList jobid).isEmpty ∧
    (stepCondition stepList jobid).showFull =
      if beforeJob stepList jobid = [] ∨ SelectsJob stepList jobid then 1 else 0 := by
  unfold stepCondition
  by_cases hnil : stepList = []
  · subst hnil
    exact ⟨rfl, rfl, rfl⟩
  · obtain ⟨hids, hset, hfull⟩ := closeParen_fields (selectSteps jobid stepList unselected)
    rw [if_neg hnil, hids, hset, hfull, selectSteps_eq]
    by_cases hsel : SelectsJob stepList jobid
    · simp only [if_pos hsel, stepids_foldl, set_foldl, List.isEmpty_map]
      exact ⟨rfl, rfl, (if_pos (.inr hsel)).symm⟩
    · simp only [hsel, if_false, stepids_foldl, set_foldl, showFull_foldl, List.isEmpty_map,
        List.map_eq_nil_iff, or_false]
      exact ⟨rfl, rfl, rfl⟩

/-! ## The node filter -/

/-- Once a cluster has been looked up for a time the answers for that time stay. -/
theorem goodNodesFromInx_again (clusters : List LocalCluster) (curr : Option LocalCluster)
    (nodeInx nodeInx' : Option (List Char)) (submit : Int) :
    (goodNodesFromInx clusters (goodNodesFromInx clusters curr nodeInx submit).2 nodeInx'
        submit).1 = (goodNodesFromInx clusters curr nodeInx' submit).1 := by
  cases curr with
  | none => rfl
  | some c =>
    match nodeInx with
    | none => rfl
    | some [] => rfl
    | some (t :: ts) =>
      by_cases hout : submit < c.start ∨ submit > c.end_
      · cases hfind : clusters.find? (fun l => submit ≥ l.start ∧ submit ≤ l.end_) with
        | none => simp only [goodNodesFromInx, if_pos hout, hfind]
        | some l =>
          have hin : ¬ (submit < l.start ∨ submit > l.end_) := by
            have := List.find?_some hfind
            simp only [decide_eq_true_eq] at this
            omega
          match nodeInx' with
          | none => simp only [goodNodesFromInx, if_pos hout, hfind]
          | some [] => simp only [goodNodesFromInx, if_pos hout, hfind]
          | some (t' :: ts') =>
            simp only [goodNodesFromInx, if_pos hout, hfind, if_neg hin]
      · simp only [goodNodesFromInx, if_neg hout]

/-- The steps read are the rows that the node filter lets through. -/
theorem readSteps_eq (clusters : List LocalCluster) (submit : Int) (rows : List StepRow)
    (curr : Option LocalCluster) :
    (readSteps clusters submit rows curr).1 =
      rows.filter fun r => (goodNodesFromInx clusters curr r.nodeInx submit).1 := by
  induction rows generalizing curr with
  | nil => rfl
  | cons r rows ih =>
    rw [readSteps, ih]
    simp only [goodNodesFromInx_again]
    cases hgood : (goodNodesFromInx clusters curr r.nodeInx submit).1 with
    | true => simp [hgood]
    | false => simp [hgood]

/-! ## The selection -/

variable {stepList : List SelectedStep} {clusters : List LocalCluster}
  {curr : Option LocalCluster} {table : List StepRow} {job : JobRow}

/-- The condition lets a row through. -/
def Compared (stepList : List SelectedStep) (jobid : Nat) (r : StepRow) : Prop :=
  beforeJob stepList jobid = [] ∨ ∃ e ∈ beforeJob stepList jobid, r.stepid = e.stepid

instance (stepList : List SelectedStep) (jobid : Nat) (r : StepRow) :
    Decidable (Compared stepList jobid r) :=
  inferInstanceAs (Decidable (_ ∨ ∃ e ∈ beforeJob stepList jobid, _))

theorem compared_iff (r : StepRow) :
    ((stepCondition stepList job.jobid).set = false ∨
      ∃ n ∈ (stepCondition stepList job.jobid).stepids, r.stepid = n) ↔
        Compared stepList job.jobid r := by
  obtain ⟨hids, hset, -⟩ := stepCondition_spec stepList job.jobid
  rw [hids, hset, Compared]
  refine or_congr (by simp) ⟨?_, ?_⟩
  · rintro ⟨n, hn, hr⟩
    obtain ⟨e, he, rfl⟩ := List.mem_map.mp hn
    exact ⟨e, he, hr⟩
  · rintro ⟨e, he, hr⟩
    exact ⟨e.stepid, List.mem_map_of_mem he, hr⟩

/-- The steps of a job are the stored ones that the condition lets through. -/
theorem getJobSteps_steps :
    (getJobSteps stepList clusters curr table job).steps =
      (storedSteps clusters curr table job).filter (Compared stepList job.jobid ·) := by
  rw [getJobSteps, readSteps_eq, stepQuery, storedSteps, List.filter_filter, List.filter_filter]
  refine List.filter_congr fun r _ => Bool.eq_iff_iff.mpr ?_
  simp only [Bool.and_eq_true, decide_eq_true_eq, compared_iff]
  tauto

theorem getJobSteps_showFull :
    (getJobSteps stepList clusters curr table job).showFull =
      if beforeJob stepList job.jobid = [] ∨ SelectsJob stepList job.jobid then 1 else 0 :=
  (stepCondition_spec stepList job.jobid).2.2

/-- What stands before the first element without a step number is all, if there is
no such element. -/
theorem beforeJob_eq_own (h : ¬ SelectsJob stepList job.jobid) :
    beforeJob stepList job.jobid = own stepList job.jobid := by
  refine List.takeWhile_eq_self_iff.mpr fun e he => ?_
  obtain ⟨hmem, hjob⟩ := mem_own.mp he
  simpa using fun hstep => h ⟨e, hmem, hjob, hstep⟩

/-- The steps returned for a job and its `show_full` are those asked for. -/
def StepsRight (stepList : List SelectedStep) (clusters : List LocalCluster)
    (curr : Option LocalCluster) (table : List StepRow) (job : JobRow) : Prop :=
  let r := getJobSteps stepList clusters curr table job
  (r.steps, r.showFull) = askedSteps stepList clusters curr table job

instance (stepList : List SelectedStep) (clusters : List LocalCluster)
    (curr : Option LocalCluster) (table : List StepRow) (job : JobRow) :
    Decidable (StepsRight stepList clusters curr table job) :=
  inferInstanceAs (Decidable (_ = _))

/-- **Selection of steps.** For every list of selected steps and every job of the
query, the steps returned and `show_full` are those asked for exactly when no
element selects the job without a step number, or the first element for the job
does, or the elements before that one name every stored step. -/
theorem stepsRight_iff (hjob : InQuery stepList job.jobid) :
    StepsRight stepList clusters curr table job ↔
      ¬ SelectsJob stepList job.jobid ∨ beforeJob stepList job.jobid = [] ∨
        ∀ r ∈ storedSteps clusters curr table job,
          ∃ e ∈ beforeJob stepList job.jobid, r.stepid = e.stepid := by
  rw [StepsRight, getJobSteps_steps, getJobSteps_showFull, askedSteps]
  by_cases hsel : SelectsJob stepList job.jobid
  · simp only [hsel, or_true, if_true, not_true, false_or, Prod.mk.injEq, and_true,
      List.filter_eq_self, decide_eq_true_eq]
    by_cases hbefore : beforeJob stepList job.jobid = []
    · simp [Compared, hbefore]
    · simp [Compared, hbefore]
  · have hown := beforeJob_eq_own hsel
    simp only [hsel, or_false, not_false_eq_true, true_or, iff_true]
    rcases hjob with hnil | ⟨e, he, hej⟩
    · subst hnil
      have hbefore : beforeJob [] job.jobid = [] := rfl
      simp [Compared, hbefore]
    · have hne : stepList ≠ [] := List.ne_nil_of_mem he
      have hbefore : beforeJob stepList job.jobid ≠ [] := by
        rw [hown]
        exact List.ne_nil_of_mem (mem_own.mpr ⟨he, hej⟩)
      rw [if_neg hne, if_neg hbefore]
      refine congrArg (·, 0) (List.filter_congr fun r _ => ?_)
      have hiff : Compared stepList job.jobid r ↔ NamesStep stepList job.jobid r := by
        rw [Compared, or_iff_right hbefore, hown, NamesStep]
        simp only [mem_own, and_assoc]
      simp only [hiff]

/-- A step of job 5 named before the job as a whole, of a job with two steps. -/
def mixedTable : List StepRow := [⟨1, 0, none⟩, ⟨1, 1, none⟩]

theorem stepsRight_named :
    InQuery [⟨5, 1⟩] 5 ∧
      (StepsRight [⟨5, 1⟩] [] none mixedTable ⟨1, 5, 0⟩ ↔
        ¬ SelectsJob [⟨5, 1⟩] 5 ∨ beforeJob [⟨5, 1⟩] 5 = [] ∨
          ∀ r ∈ storedSteps [] none mixedTable ⟨1, 5, 0⟩,
            ∃ e ∈ beforeJob [⟨5, 1⟩] 5, r.stepid = e.stepid) :=
  ⟨by decide, @stepsRight_iff [⟨5, 1⟩] [] none mixedTable ⟨1, 5, 0⟩ (by decide)⟩

/-- With `5.1,5` only step 1 is returned, with `show_full` set. -/
theorem not_stepsRight_mixed :
    ¬ StepsRight [⟨5, 1⟩, ⟨5, noVal⟩] [] none mixedTable ⟨1, 5, 0⟩ := by
  decide

end Slurm.JobSteps
