import SlurmLite.Sacct.NumUnit

/-!
# The values `sacct` prints

`print_fields` of `print.c`: for one record, the value that each field of the
list hands to its print routine. What lies outside the file is an environment.

* `printField` is the body of the loop for one field, with the local `outbuf`,
  the only variable that lives on from one field to the next;
* `passes` runs over a field list.

Some fields show `outbuf` without having filled it. `Fills` says when a field
does fill it, and `same_values_iff` that just then its value is a matter of the
record alone.
-/

namespace Slurm.Print

open Base.Text Base.CLib Slurm.ParseTime

/-! ## Records -/

abbrev Text := List Char

/-- `NO_VAL` in an `int`. -/
abbrev noVal : Int := -2

/-- `FORMAT_STRING_SIZE`. -/
abbrev formatStringSize : Nat := 34

/-- `jobacct_id_t`. -/
structure JobacctId where
  taskid : Nat
  nodeid : Nat
deriving DecidableEq

/-- `sacct_t`. A `float` is kept as the `int` it converts to, the only use made
of it here. -/
structure Sacct where
  maxVsize : Nat
  maxVsizeId : JobacctId
  aveVsize : Int
  maxRss : Nat
  maxRssId : JobacctId
  aveRss : Int
  maxPages : Nat
  maxPagesId : JobacctId
  avePages : Int
  minCpu : Int
  minCpuId : JobacctId
  aveCpu : Int
deriving DecidableEq

/-- `jobacct_job_rec_t`, what is printed of it. -/
structure Job where
  allocCpus : Nat
  allocNodes : Nat
  account : Option Text
  associd : Nat
  blockid : Option Text
  cluster : Option Text
  elapsed : Nat
  eligible : Int
  «end» : Int
  exitcode : Int
  gid : Nat
  jobid : Nat
  jobname : Option Text
  partition : Option Text
  nodes : Option Text
  priority : Nat
  qos : Nat
  reqCpus : Nat
  requid : Nat
  sacct : Sacct
  start : Int
  state : Nat
  submit : Int
  suspended : Nat
  sysCpuSec : Nat
  sysCpuUsec : Nat
  totCpuSec : Nat
  totCpuUsec : Nat
  trackSteps : Nat
  uid : Nat
  user : Option Text
  userCpuSec : Nat
  userCpuUsec : Nat
  wckey : Option Text
  wckeyid : Nat
deriving DecidableEq

/-- `jobacct_step_rec_t`. -/
structure Step where
  elapsed : Nat
  «end» : Int
  exitcode : Int
  ncpus : Nat
  nnodes : Nat
  nodes : Option Text
  ntasks : Nat
  requid : Nat
  sacct : Sacct
  start : Int
  state : Nat
  stepid : Nat
  stepname : Option Text
  suspended : Nat
  sysCpuSec : Nat
  sysCpuUsec : Nat
  taskDist : Nat
  totCpuSec : Nat
  totCpuUsec : Nat
  userCpuSec : Nat
  userCpuUsec : Nat
deriving DecidableEq

/-- A string and the address it lies at. -/
structure Located where
  text : Option Text
  address : Int
deriving DecidableEq

/-- `jobcomp_job_rec_t`, what is printed of it. -/
structure JobComp where
  jobid : Nat
  partition : Option Text
  startTime : Located
  endTime : Located
  uid : Nat
  uidName : Option Text
  gid : Nat
  nodeCnt : Nat
  nodelist : Option Text
  jobname : Option Text
  state : Option Text
  timelimit : Option Text
  blockid : Option Text
deriving DecidableEq

/-- The object of `print_fields`, by its type: a job with its first step, a
step with its job, a completion record. -/
inductive Object where
  | job (job : Job) (firstStep : Option Step)
  | jobstep (step : Step) (jobPtr : Job)
  | jobcomp (jobComp : JobComp)
deriving DecidableEq

/-- What a field takes from the record, type by type. -/
def Object.pick {α : Type} (o : Object) (onJob : Job → α) (onStep : Step → Job → α)
    (onComp : JobComp → α) : α :=
  match o with
  | .job j _ => onJob j
  | .jobstep s j => onStep s j
  | .jobcomp j => onComp j

/-- What is outside `print.c`; a function whose result is `none` at a string
does not return. -/
structure Env where
  /-- `find_hostname` of `process.c`. -/
  findHostname : Nat → Text → Option (Option Text)
  /-- `hostlist_count` of the list created from a string. -/
  hostlistCount : Option Text → Option Int
  parseTime : Option Text → Option Int
  /-- The quality-of-service records, by id and name. -/
  qosList : Option (List (Nat × Option Text))
  getpwnam : Text → Option Nat
  getpwuid : Nat → Option Text
  getgrgid : Nat → Option Text
  time : Int

/-- `PRINT_*`. -/
inductive FieldType where
  | allocCpus | account | associd | aveCpu | avePages | aveRss | aveVsize | blockid | cluster
  | cpuTime | cpuTimeRaw | elapsed | eligible | «end» | exitcode | gid | group | jobid | jobname
  | layout | maxPages | maxPagesNode | maxPagesTask | maxRss | maxRssNode | maxRssTask | maxVsize
  | maxVsizeNode | maxVsizeTask | minCpu | minCpuNode | minCpuTask | nodelist | nnodes | ntasks
  | prio | partition | qos | qosraw | reqCpus | resv | resvCpu | resvCpuRaw | start | state
  | submit | suspended | systemcpu | timelimit | totalcpu | uid | user | usercpu | wckey | wckeyid
deriving DecidableEq

/-- What is passed to a print routine. -/
inductive Value where
  | str (value : Option Text)
  | int (value : Int)
deriving DecidableEq

/-! ## Texts -/

/-- `_elapsed_time`. -/
def elapsedTime (secs usecs : Int) : Option Text :=
  if secs < 0 ∨ secs = 4294967294 then none
  else
    let secs := (if 1000000 ≤ usecs then secs + usecs / 1000000 else secs).toNat
    let usecs := if 1000000 ≤ usecs then usecs % 1000000 else usecs
    let subsec := if 0 < usecs then (usecs / 1000).toNat else 0
    let seconds := secs % 60
    let minutes := secs / 60 % 60
    let hours := secs / 3600 % 24
    let days := secs / 86400
    some <|
      if days ≠ 0 then clock days hours minutes seconds
      else if hours ≠ 0 then clock 0 hours minutes seconds
      else if subsec ≠ 0 then
        padded 2 minutes ++ ':' :: (padded 2 seconds ++ '.' :: padded 3 subsec)
      else clock 0 0 minutes seconds

/-- `_find_qos_name_from_list`. -/
def findQosNameFromList (qosList : Option (List (Nat × Option Text))) (qosid : Int) :
    Option Text :=
  match qosList with
  | none => none
  | some qosList =>
    if qosid = noVal then none
    else
      match qosList.find? fun qos => uint32 qosid = qos.1 with
      | some qos => qos.2
      | none => some "Unknown".toList

/-- `slurm_step_layout_type_name`. -/
def stepLayoutTypeName (taskDist : Nat) : Text :=
  match taskDist with
  | 1 => "Cyclic".toList
  | 2 => "Block".toList
  | 3 => "Arbitrary".toList
  | 4 => "Plane".toList
  | 5 => "CCyclic".toList
  | 6 => "CBlock".toList
  | 7 => "BCyclic".toList
  | 8 => "BBlock".toList
  | _ => "Unknown".toList

/-- `job_state_string`. -/
def jobStateString (inx : Int) : Text :=
  -- JOB_COMPLETING
  if (uint32 inx).testBit 15 then "COMPLETING".toList
  else
    match inx with
    | 0 => "PENDING".toList
    | 1 => "RUNNING".toList
    | 2 => "SUSPENDED".toList
    | 3 => "COMPLETED".toList
    | 4 => "CANCELLED".toList
    | 5 => "FAILED".toList
    | 6 => "TIMEOUT".toList
    | 7 => "NODE_FAIL".toList
    | _ => "?".toList

/-- The text of `PRINT_EXITCODE` for a wait status. -/
def exitText (status : Int) : Text :=
  let low := uint32 status % 128
  -- WIFSIGNALED, WTERMSIG and WEXITSTATUS
  let signal : Nat := if 1 ≤ low ∧ low ≤ 126 then low else 0
  snprintf formatStringSize (decimal (uint32 status / 256 % 256) ++ ':' :: decimal signal)

/-! ## One field -/

/-- A statistic; a job without steps has none. -/
def sacctInt (o : Object) (f : Sacct → Int) : Int :=
  o.pick (fun job => if job.trackSteps = 0 then f job.sacct else noVal)
    (fun step _ => f step.sacct) fun _ => noVal

/-- The fields that name the node of a statistic. -/
def sacctNode (env : Env) (o : Object) (f : Sacct → JobacctId) : Option (Option Text) :=
  let find := fun (id : JobacctId) (nodes : Option Text) =>
    match nodes with
    | none => some none
    | some nodes => if id.nodeid = 4294967294 then some none else env.findHostname id.nodeid nodes
  o.pick (fun job => if job.trackSteps = 0 then find (f job.sacct) job.nodes else some none)
    (fun step _ => find (f step.sacct) step.nodes) fun _ => some none

/-- The statistics printed with a unit: `none` where they leave `outbuf` as it is. -/
def sizeText (tmpInt : Int) : Option Text :=
  if tmpInt ≠ noVal then some (convertNumUnit tmpInt formatStringSize unitKilo) else none

/-- `tmp_int` of `PRINT_STATE`. -/
def stateInt (o : Object) : Int :=
  o.pick (fun job => int32 job.state) (fun step _ => int32 step.state) fun _ => noVal

/-- `tmp_char` of `PRINT_STATE`. -/
def stateChar (o : Object) : Option Text := o.pick (fun _ => none) (fun _ _ => none) (·.state)

/-- What `PRINT_STATE` writes to `outbuf`, if anything. -/
def stateText (o : Object) : Option Text :=
  let tmpInt := stateInt o
  let tmpInt2 := o.pick (fun job => int32 job.requid) (fun step _ => int32 step.requid)
    fun _ => noVal
  if tmpInt = 4 ∧ tmpInt2 ≠ noVal then
    some (snprintf formatStringSize (jobStateString tmpInt ++ " by ".toList ++ intText tmpInt2))
  else if tmpInt ≠ noVal then some (snprintf formatStringSize (jobStateString tmpInt))
  else (stateChar o).map (snprintf formatStringSize)

/-- The number of nodes, counted from the node list when the record has none. -/
def nnodesText (env : Env) (o : Object) : Option Text :=
  let tmpInt := o.pick (fun job => int32 job.allocNodes) (fun step _ => int32 step.nnodes)
    fun jobComp => int32 jobComp.nodeCnt
  let nodes := o.pick (·.nodes) (fun step _ => step.nodes) (·.nodelist)
  (if tmpInt = 0 then env.hostlistCount nodes else some tmpInt).map fun tmpInt =>
    convertNumUnit tmpInt formatStringSize unitNone

/-- Seconds a job was eligible and not started. -/
def resvSecs (env : Env) (job : Job) : Int :=
  if job.start ≠ 0 then job.start - job.eligible else env.time - job.eligible

/-- What a field does: it passes a value of its own, or writes `outbuf`, if at
all, and passes that. -/
inductive Action where
  | pass (value : Value)
  | show (written : Option Text)
deriving DecidableEq

/-- The branch of `print_fields` for one field, `none` where it does not return. -/
def action (env : Env) (o : Object) : FieldType → Option Action
  | .allocCpus => int <| match o with
      | .job job none => job.allocCpus
      | .job _ (some step) => step.ncpus
      | .jobstep step _ => step.ncpus
      | .jobcomp _ => noVal
  | .account => str <| o.pick (·.account) (fun _ job => job.account) fun _ => some "n/a".toList
  | .associd => int <| o.pick (·.associd) (fun _ job => job.associd) fun _ => noVal
  | .aveCpu => str <| elapsedTime (sacctInt o (·.aveCpu)) 0
  | .avePages => size <| sacctInt o (·.avePages)
  | .aveRss => size <| sacctInt o (·.aveRss)
  | .aveVsize => size <| sacctInt o (·.aveVsize)
  | .blockid => str <| o.pick (·.blockid) (fun _ _ => none) (·.blockid)
  | .cluster => str <| o.pick (·.cluster) (fun _ job => job.cluster) fun _ => none
  | .cpuTime | .cpuTimeRaw => int <| o.pick (fun job => job.elapsed * job.allocCpus)
      (fun step _ => step.elapsed * step.ncpus) fun _ => noVal
  | .elapsed => int <| o.pick (·.elapsed) (fun step _ => step.elapsed)
      -- the difference of the two pointers
      fun jobComp => jobComp.endTime.address - jobComp.startTime.address
  | .eligible => int <| o.pick (·.eligible) (fun step _ => step.start) fun _ => noVal
  | .end => time <| o.pick (fun job => some job.end) (fun step _ => some step.end)
      fun jobComp => env.parseTime jobComp.endTime.text
  | .exitcode => some <| .show <| some <| exitText <|
      o.pick (·.exitcode) (fun step _ => step.exitcode) fun _ => 0
  | .gid => int <| o.pick (·.gid) (fun _ _ => noVal) (·.gid)
  | .group => str <| env.getgrgid <| uint32 <| o.pick (·.gid) (fun _ _ => noVal) (·.gid)
  | .jobid => str <| some <| o.pick (fun job => decimal job.jobid)
      (fun step job => decimal job.jobid ++ '.' :: decimal step.stepid)
      fun jobComp => decimal jobComp.jobid
  | .jobname => str <| o.pick (·.jobname) (fun step _ => step.stepname) (·.jobname)
  | .layout => str <| match o with
      | .job _ step => step.map (stepLayoutTypeName ·.taskDist)
      | .jobstep step _ => some (stepLayoutTypeName step.taskDist)
      | .jobcomp _ => none
  | .maxPages => size <| sacctInt o (int32 ·.maxPages)
  | .maxPagesNode => node <| sacctNode env o (·.maxPagesId)
  | .maxPagesTask => int <| sacctInt o (·.maxPagesId.taskid)
  | .maxRss => size <| sacctInt o (int32 ·.maxRss)
  | .maxRssNode => node <| sacctNode env o (·.maxRssId)
  | .maxRssTask => int <| sacctInt o (·.maxRssId.taskid)
  | .maxVsize => size <| sacctInt o (int32 ·.maxVsize)
  | .maxVsizeNode => node <| sacctNode env o (·.maxVsizeId)
  | .maxVsizeTask => int <| sacctInt o (·.maxVsizeId.taskid)
  | .minCpu => str <| elapsedTime (sacctInt o (·.minCpu)) 0
  | .minCpuNode => node <| sacctNode env o (·.minCpuId)
  | .minCpuTask => int <| sacctInt o (·.minCpuId.taskid)
  | .nodelist => str <| o.pick (·.nodes) (fun step _ => step.nodes) (·.nodelist)
  | .nnodes => (nnodesText env o).map fun text => .show (some text)
  | .ntasks => int <| match o with
      | .job job none => if job.trackSteps = 0 then job.allocCpus else noVal
      | .job _ (some step) => step.ntasks
      | .jobstep step _ => step.ntasks
      | .jobcomp _ => noVal
  | .prio => int <| o.pick (·.priority) (fun _ _ => noVal) fun _ => noVal
  | .partition => str <| o.pick (·.partition) (fun _ _ => none) (·.partition)
  | .qos => str <| findQosNameFromList env.qosList <|
      o.pick (·.qos) (fun _ _ => noVal) fun _ => noVal
  | .qosraw => int <| o.pick (·.qos) (fun _ _ => noVal) fun _ => noVal
  | .reqCpus => int <| o.pick (·.reqCpus) (fun step _ => step.ncpus) fun _ => noVal
  | .resv => int <| o.pick (resvSecs env) (fun _ _ => noVal) fun _ => noVal
  | .resvCpu | .resvCpuRaw => int <| o.pick (fun job => resvSecs env job * job.reqCpus)
      (fun _ _ => noVal) fun _ => noVal
  | .start => time <| o.pick (fun job => some job.start) (fun step _ => some step.start)
      fun jobComp => env.parseTime jobComp.startTime.text
  | .state => some (.show (stateText o))
  | .submit => time <| o.pick (fun job => some job.submit) (fun step _ => some step.start)
      fun jobComp => env.parseTime jobComp.startTime.text
  | .suspended => int <| o.pick (·.suspended) (fun step _ => step.suspended) fun _ => noVal
  | .systemcpu => elapsed (o.pick (·.sysCpuSec) (fun step _ => step.sysCpuSec) fun _ => noVal)
      (o.pick (·.sysCpuUsec) (fun step _ => step.sysCpuUsec) fun _ => noVal)
  | .timelimit => str <| o.pick (fun _ => none) (fun _ _ => none) (·.timelimit)
  | .totalcpu => elapsed (o.pick (·.totCpuSec) (fun step _ => step.totCpuSec) fun _ => noVal)
      (o.pick (·.totCpuUsec) (fun step _ => step.totCpuUsec) fun _ => noVal)
  | .uid => int <| o.pick
      (fun job => match job.user with
        | some user => match env.getpwnam user with
            | some uid => uid
            | none => noVal
        | none => job.uid)
      (fun _ _ => noVal) (·.uid)
  | .user => str <| o.pick
      (fun job => match job.user with
        | some user => some user
        | none => if job.uid = 4294967295 then none else env.getpwuid job.uid)
      (fun _ _ => none) (·.uidName)
  -- a job's user seconds go with the microseconds of the total
  | .usercpu => elapsed (o.pick (·.userCpuSec) (fun step _ => step.userCpuSec) fun _ => noVal)
      (o.pick (·.totCpuUsec) (fun step _ => step.userCpuUsec) fun _ => noVal)
  | .wckey => str <| o.pick (·.wckey) (fun _ _ => none) fun _ => none
  | .wckeyid => int <| o.pick (·.wckeyid) (fun _ _ => noVal) fun _ => noVal
where
  int (tmpInt : Int) : Option Action := some (.pass (.int (int32 tmpInt)))
  str (tmpChar : Option Text) : Option Action := some (.pass (.str tmpChar))
  time (tmpInt : Option Int) : Option Action := tmpInt.map fun t => .pass (.int (int32 t))
  node (tmpChar : Option (Option Text)) : Option Action := tmpChar.map fun t => .pass (.str t)
  elapsed (secs usecs : Int) : Option Action :=
    some (.pass (.str (elapsedTime (int32 secs) (int32 usecs))))
  size (tmpInt : Int) : Option Action := some (.show (sizeText tmpInt))

/-- The value that is passed, and `outbuf` afterwards. -/
def Action.run : Action → Text → Value × Text
  | .pass value, outbuf => (value, outbuf)
  | .show written, outbuf => (.str (some (written.getD outbuf)), written.getD outbuf)

/-! ## A record -/

/-- The step that `print_fields` uses for a job; a job without one is marked. -/
def Object.begin : Object → Object
  | .job j firstStep =>
    let step := if j.trackSteps = 0 then firstStep else none
    .job (if step.isNone then { j with trackSteps := 1 } else j) step
  | o => o

/-- The values passed for the fields of a list, as far as the loop comes, with
`outbuf` as it stands before. -/
def passes (env : Env) (o : Object) : Text → List FieldType → List Value
  | _, [] => []
  | outbuf, f :: fs =>
    match action env o f with
    | none => []
    | some a => (a.run outbuf).1 :: passes env o (a.run outbuf).2 fs

/-- `print_fields`: the values passed for a record. `outbuf` starts with what
the stack holds. -/
def printFields (env : Env) (o : Object) (stack : Text) (fs : List FieldType) : List Value :=
  passes env o.begin stack fs

/-! ## What a value depends on -/

/-- The record has what the field writes to `outbuf`. Only the statistics with a
unit and the state can lack it. -/
def Fills (o : Object) : FieldType → Prop
  | .avePages => sacctInt o.begin (·.avePages) ≠ noVal
  | .aveRss => sacctInt o.begin (·.aveRss) ≠ noVal
  | .aveVsize => sacctInt o.begin (·.aveVsize) ≠ noVal
  | .maxPages => sacctInt o.begin (int32 ·.maxPages) ≠ noVal
  | .maxRss => sacctInt o.begin (int32 ·.maxRss) ≠ noVal
  | .maxVsize => sacctInt o.begin (int32 ·.maxVsize) ≠ noVal
  | .state => stateInt o.begin ≠ noVal ∨ (stateChar o.begin).isSome = true
  | _ => True

theorem sizeText_isSome_iff (tmpInt : Int) : (sizeText tmpInt).isSome = true ↔ tmpInt ≠ noVal := by
  unfold sizeText
  split <;> simp [*]

theorem stateText_isSome_iff (o : Object) :
    (stateText o).isSome = true ↔ stateInt o ≠ noVal ∨ (stateChar o).isSome = true := by
  unfold stateText
  dsimp only
  split
  next h =>
    have hne : stateInt o ≠ noVal := by rw [h.1]; decide
    simp [hne]
  next =>
    split
    next hne => simp [hne]
    next heq => simp [not_not.mp heq]

/-- A field that shows `outbuf` has written it exactly when it fills it. -/
theorem action_show {env : Env} {o : Object} {f : FieldType} {written : Option Text}
    (h : action env o.begin f = some (.show written)) : written.isSome = true ↔ Fills o f := by
  cases f
  all_goals
    simp only [action, action.int, action.str, action.time, action.node, action.elapsed,
      action.size, Option.map_eq_some_iff, Option.some.injEq, Action.show.injEq, reduceCtorEq,
      and_false, exists_false] at h
  case exitcode => obtain rfl := h; exact ⟨fun _ => trivial, fun _ => rfl⟩
  case nnodes => obtain ⟨_, -, rfl⟩ := h; exact ⟨fun _ => trivial, fun _ => rfl⟩
  case state => obtain rfl := h; exact stateText_isSome_iff o.begin
  all_goals (obtain rfl := h; exact sizeText_isSome_iff _)

/-- `outbuf` behind the fields `before`, `none` when one of them does not return. -/
def outbufAfter (env : Env) (o : Object) : Text → List FieldType → Option Text
  | outbuf, [] => some outbuf
  | outbuf, f :: fs =>
    (action env o f).bind fun a => outbufAfter env o (a.run outbuf).2 fs

theorem passes_getElem? (env : Env) (o : Object) (outbuf : Text) (before : List FieldType)
    (f : FieldType) (after : List FieldType) :
    (passes env o outbuf (before ++ f :: after))[before.length]? =
      (outbufAfter env o outbuf before).bind fun outbuf =>
        (action env o f).map fun a => (a.run outbuf).1 := by
  induction before generalizing outbuf with
  | nil =>
    rw [List.nil_append, passes, outbufAfter, Option.bind_some]
    cases action env o f <;> rfl
  | cons g before ih =>
    rw [List.cons_append, passes, outbufAfter]
    cases action env o g with
    | none => rfl
    | some a => exact ih _

theorem outbufAfter_isSome {env : Env} {o : Object} {outbuf : Text} {before : List FieldType}
    (h : ∀ g ∈ before, (action env o g).isSome = true) :
    (outbufAfter env o outbuf before).isSome = true := by
  induction before generalizing outbuf with
  | nil => rfl
  | cons g before ih =>
    obtain ⟨hg, hbefore⟩ := List.forall_mem_cons.mp h
    obtain ⟨a, ha⟩ := Option.isSome_iff_exists.mp hg
    rw [outbufAfter, ha]
    exact ih hbefore

theorem isSome_of_outbufAfter {env : Env} {o : Object} {outbuf out : Text}
    {before : List FieldType} (h : outbufAfter env o outbuf before = some out) :
    ∀ g ∈ before, (action env o g).isSome = true := by
  induction before generalizing outbuf with
  | nil => exact fun _ hg => absurd hg List.not_mem_nil
  | cons g before ih =>
    obtain ⟨a, ha, hrest⟩ := Option.bind_eq_some_iff.mp h
    exact List.forall_mem_cons.mpr ⟨by rw [ha]; rfl, ih hrest⟩

/-- The value at the place of `f` in a run of `print_fields` over a field list. -/
def passedAt (env : Env) (o : Object) (stack : Text) (before : List FieldType) (f : FieldType)
    (after : List FieldType) : Option Value :=
  (printFields env o stack (before ++ f :: after))[before.length]?

/-- What a field passes does not depend on what `outbuf` holds when the record
has what the field writes. -/
theorem run_eq_of_fills {env : Env} {o : Object} {f : FieldType} {a : Action}
    (h : action env o.begin f = some a) (hf : Fills o f) (outbuf outbuf' : Text) :
    (a.run outbuf).1 = (a.run outbuf').1 := by
  cases a with
  | pass value => rfl
  | «show» written =>
    obtain ⟨text, rfl⟩ := Option.isSome_iff_exists.mp ((action_show h).mpr hf)
    rfl

/-- A field that does not fill `outbuf` passes what it holds. -/
theorem run_eq_of_not_fills {env : Env} {o : Object} {f : FieldType} (hf : ¬ Fills o f) :
    ∃ a, action env o.begin f = some a ∧ ∀ outbuf, (a.run outbuf).1 = .str (some outbuf) := by
  have hshow : ∀ {t : Option Text}, t.isSome ≠ true →
      ∀ outbuf, ((Action.show t).run outbuf).1 = .str (some outbuf) := by
    intro t ht outbuf
    cases t with
    | none => rfl
    | some t => exact absurd rfl ht
  cases f
  case state => exact ⟨_, rfl, hshow fun h => hf ((stateText_isSome_iff _).mp h)⟩
  case avePages | aveRss | aveVsize | maxPages | maxRss | maxVsize =>
    exact ⟨_, rfl, hshow fun h => hf ((sizeText_isSome_iff _).mp h)⟩
  all_goals exact absurd trivial hf

/-- The values printed for the records are a matter of the record and the field
alone: each is the one that any other run passes for them, whatever the fields
before it and after it and whatever earlier records left on the stack. -/
def OfRecord (env : Env) (fs : List FieldType) (rs : List Object) : Prop :=
  ∀ o ∈ rs, ∀ before f after, fs = before ++ f :: after →
    ∀ stack stack' before' after' v v', passedAt env o stack before f after = some v →
      passedAt env o stack' before' f after' = some v' → v = v'

/-- The values printed for the records are a matter of the record and the field
alone exactly when every field that the loop comes to is one that fills
`outbuf` for the record, or does not show it. -/
theorem ofRecord_iff (env : Env) (fs : List FieldType) (rs : List Object) :
    OfRecord env fs rs ↔
      ∀ o ∈ rs, ∀ before f after, fs = before ++ f :: after →
        (∀ g ∈ before, (action env o.begin g).isSome = true) → Fills o f := by
  constructor
  · intro h o ho before f after hfs hbefore
    by_contra hf
    obtain ⟨a, ha, hrun⟩ := @run_eq_of_not_fills env o f hf
    obtain ⟨out, hout⟩ := Option.isSome_iff_exists.mp (@outbufAfter_isSome env o.begin [] _ hbefore)
    have hval : passedAt env o [] before f after = some (.str (some out)) := by
      rw [passedAt, printFields, passes_getElem?, hout, ha, Option.bind_some, Option.map_some,
        hrun]
    -- alone, the field passes whatever the stack holds
    have halone : ∀ stack, passedAt env o stack [] f [] = some (.str (some stack)) := by
      intro stack
      rw [passedAt, printFields, passes_getElem?, outbufAfter, ha, Option.bind_some,
        Option.map_some, hrun]
    have hnil := h o ho before f after hfs [] [] [] [] _ _ hval (halone [])
    have hx := h o ho before f after hfs [] ['x'] [] [] _ _ hval (halone ['x'])
    exact absurd (hnil.symm.trans hx) (by simp)
  · intro h o ho before f after hfs stack stack' before' after' v v' hv hv'
    rw [passedAt, printFields, passes_getElem?] at hv hv'
    obtain ⟨out, hout, hv⟩ := Option.bind_eq_some_iff.mp hv
    obtain ⟨out', -, hv'⟩ := Option.bind_eq_some_iff.mp hv'
    obtain ⟨a, ha, rfl⟩ := Option.map_eq_some_iff.mp hv
    obtain ⟨a', ha', rfl⟩ := Option.map_eq_some_iff.mp hv'
    obtain rfl := Option.some.inj (ha.symm.trans ha')
    exact run_eq_of_fills ha (h o ho before f after hfs (isSome_of_outbufAfter hout)) out out'

/-- An environment without users, hosts and qualities of service. -/
def bareEnv : Env where
  findHostname _ _ := some none
  hostlistCount _ := some 0
  parseTime _ := some 0
  qosList := none
  getpwnam _ := none
  getpwuid _ := none
  getgrgid _ := none
  time := 0

/-- The completion record of a job that has ended. -/
def completedComp : JobComp where
  jobid := 7
  partition := some "debug".toList
  startTime := ⟨none, 0⟩
  endTime := ⟨none, 0⟩
  uid := 0
  uidName := some "root".toList
  gid := 0
  nodeCnt := 1
  nodelist := some "n1".toList
  jobname := some "run".toList
  state := some "COMPLETED".toList
  timelimit := none
  blockid := none

/-- A completion record has no size: behind the state the size is the state,
and behind the exit code it is the exit code. -/
theorem not_ofRecord_completed :
    ¬ OfRecord bareEnv [.state, .maxRss] [.jobcomp completedComp] := by
  intro h
  have hstate : passedAt bareEnv (.jobcomp completedComp) [] [.state] .maxRss [] =
      some (.str (some "COMPLETED".toList)) := by decide +kernel
  have hexit : passedAt bareEnv (.jobcomp completedComp) [] [.exitcode] .maxRss [] =
      some (.str (some "0:0".toList)) := by decide +kernel
  have heq := h _ List.mem_cons_self [.state] .maxRss [] rfl [] [] [.exitcode] [] _ _ hstate hexit
  exact absurd heq (by decide)

end Slurm.Print
