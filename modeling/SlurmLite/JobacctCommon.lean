import SlurmLite.Pack

/-!
# Accounting records

The job and step records of job accounting, and the functions that pack them for
a protocol version and unpack them again.

* **Records** (`JobRec`, `StepRec`, `Sacct`): the fields that are packed; the
  pointers a client sets up between the records are left out.
* **Unpacking** (`unpackStepRec_reads`, `unpackJobRec_reads`): what is read from
  the packed bytes.
* **Round trip** (`unpackJobRec_packJobRec`): the fields a version carries come
  back, apart from the statistics of the job.
-/

namespace Slurm.Jobacct

open Base.Bytes Base.CLib Slurm.Pack

/-- `NO_VAL`. -/
def noVal : UInt32 := 0xfffffffe

/-- The factor `mult` of the averages. -/
def mult : UInt32 := 1000

/-- `jobacct_id_t`. -/
structure JobacctId where
  taskid : UInt16
  nodeid : UInt32

/-- `sacct_t`. -/
structure Sacct where
  maxVsize : UInt32
  maxVsizeId : JobacctId
  aveVsize : Float32
  maxRss : UInt32
  maxRssId : JobacctId
  aveRss : Float32
  maxPages : UInt32
  maxPagesId : JobacctId
  avePages : Float32
  minCpu : Float32
  minCpuId : JobacctId
  aveCpu : Float32

/-- `jobacct_step_rec_t`. -/
structure StepRec where
  elapsed : UInt32
  end_ : Int64
  exitcode : Int32
  ncpus : UInt32
  nnodes : UInt32
  nodes : Option CString
  ntasks : UInt32
  requid : UInt32
  sacct : Sacct
  start : Int64
  state : UInt32
  stepid : UInt32
  stepname : Option CString
  suspended : UInt32
  sysCpuSec : UInt32
  sysCpuUsec : UInt32
  taskDist : UInt16
  totCpuSec : UInt32
  totCpuUsec : UInt32
  userCpuSec : UInt32
  userCpuUsec : UInt32

/-- `jobacct_job_rec_t`; a list of steps that is not there is an empty one. -/
structure JobRec where
  allocCpus : UInt32
  allocNodes : UInt32
  account : Option CString
  associd : UInt32
  blockid : Option CString
  cluster : Option CString
  elapsed : UInt32
  eligible : Int64
  end_ : Int64
  exitcode : Int32
  gid : UInt32
  jobid : UInt32
  jobname : Option CString
  lft : UInt32
  partition : Option CString
  nodes : Option CString
  priority : UInt32
  qos : UInt16
  reqCpus : UInt32
  requid : UInt32
  resvid : UInt32
  sacct : Sacct
  showFull : UInt32
  start : Int64
  state : UInt32
  steps : List StepRec
  submit : Int64
  suspended : UInt32
  sysCpuSec : UInt32
  sysCpuUsec : UInt32
  timelimit : UInt32
  totCpuSec : UInt32
  totCpuUsec : UInt32
  trackSteps : UInt16
  uid : UInt32
  user : Option CString
  userCpuSec : UInt32
  userCpuUsec : UInt32
  wckey : Option CString
  wckeyid : UInt32

/-- A cleared `jobacct_id_t`. -/
def JobacctId.zero : JobacctId := ⟨0, 0⟩

/-- A cleared `sacct_t`. -/
def Sacct.zero : Sacct :=
  { maxVsize := 0, maxVsizeId := .zero, aveVsize := 0
    maxRss := 0, maxRssId := .zero, aveRss := 0
    maxPages := 0, maxPagesId := .zero, avePages := 0
    minCpu := 0, minCpuId := .zero, aveCpu := 0 }

/-- `create_jobacct_job_rec`; `state` is `JOB_PENDING`. -/
def createJobacctJobRec : JobRec :=
  { allocCpus := 0, allocNodes := 0, account := none, associd := 0, blockid := none
    cluster := none, elapsed := 0, eligible := 0, end_ := 0, exitcode := 0, gid := 0, jobid := 0
    jobname := none, lft := noVal, partition := none, nodes := none, priority := 0, qos := 0
    reqCpus := 0, requid := -1, resvid := noVal
    sacct := { Sacct.zero with minCpu := noVal.toFloat32 }
    showFull := 0, start := 0, state := 0, steps := [], submit := 0, suspended := 0
    sysCpuSec := 0, sysCpuUsec := 0, timelimit := 0, totCpuSec := 0, totCpuUsec := 0
    trackSteps := 0, uid := 0, user := none, userCpuSec := 0, userCpuUsec := 0
    wckey := none, wckeyid := 0 }

/-! ## Packing -/

/-- `_pack_jobacct_id`. -/
def packJobacctId (jobacctId : JobacctId) : List Item :=
  [.u32 jobacctId.nodeid, .u16 jobacctId.taskid]

/-- `_pack_sacct`. -/
def packSacct (sacct : Sacct) : List Item :=
  List.flatten [
    [.u32 sacct.maxVsize,
      .u32 (sacct.aveVsize * mult.toFloat32).toUInt32,
      .u32 sacct.maxRss,
      .u32 (sacct.aveRss.toUInt32 * mult),
      .u32 sacct.maxPages,
      .u32 (sacct.avePages.toUInt32 * mult),
      .u32 (sacct.minCpu.toUInt32 * mult),
      .u32 (sacct.aveCpu.toUInt32 * mult)],
    packJobacctId sacct.maxVsizeId,
    packJobacctId sacct.maxRssId,
    packJobacctId sacct.maxPagesId,
    packJobacctId sacct.minCpuId]

/-- `pack_jobacct_step_rec`: what it packs, one value after the other. -/
def packJobacctStepRec (rpcVersion : UInt16) (step : StepRec) : List Item :=
  if rpcVersion ≥ 5 then
    List.flatten [
      [.u32 step.elapsed,
        .time step.end_,
        .u32 step.exitcode.toUInt32,
        .u32 step.ncpus,
        .u32 step.nnodes,
        .str step.nodes,
        .u32 step.ntasks,
        .u32 step.requid],
      packSacct step.sacct,
      [.time step.start,
        .u16 step.state.toUInt16,
        .u32 step.stepid,
        .str step.stepname,
        .u32 step.suspended,
        .u32 step.sysCpuSec,
        .u32 step.sysCpuUsec,
        .u16 step.taskDist,
        .u32 step.totCpuSec,
        .u32 step.totCpuUsec,
        .u32 step.userCpuSec,
        .u32 step.userCpuUsec]]
  else
    List.flatten [
      [.u32 step.elapsed,
        .time step.end_,
        .u32 step.exitcode.toUInt32,
        .u32 noVal,
        .u32 step.ncpus,
        .str step.nodes,
        .u32 step.requid],
      packSacct step.sacct,
      [.time step.start,
        .u16 step.state.toUInt16,
        .u32 step.stepid,
        .str step.stepname,
        .u32 step.suspended,
        .u32 step.sysCpuSec,
        .u32 step.sysCpuUsec,
        .u32 step.totCpuSec,
        .u32 step.totCpuUsec,
        .u32 step.userCpuSec,
        .u32 step.userCpuUsec]]

/-- `pack_jobacct_job_rec`: what it packs, one value after the other. -/
def packJobacctJobRec (rpcVersion : UInt16) (job : JobRec) : List Item :=
  if rpcVersion ≥ 5 then
    List.flatten [
      [.u32 job.allocCpus,
        .u32 job.allocNodes,
        .u32 job.associd,
        .str job.account,
        .str job.blockid,
        .str job.cluster,
        .u32 job.elapsed,
        .time job.eligible,
        .time job.end_,
        .u32 job.exitcode.toUInt32,
        .u32 job.gid,
        .u32 job.jobid,
        .str job.jobname,
        .u32 job.lft,
        .str job.partition,
        .str job.nodes,
        .u32 job.priority,
        .u16 job.qos,
        .u32 job.resvid,
        .u32 job.reqCpus,
        .u32 job.requid],
      packSacct job.sacct,
      [.u32 job.showFull,
        .time job.start,
        .u16 job.state.toUInt16,
        .u32 (UInt32.ofNat job.steps.length)],
      job.steps.flatMap (packJobacctStepRec rpcVersion),
      [.time job.submit,
        .u32 job.suspended,
        .u32 job.sysCpuSec,
        .u32 job.sysCpuUsec,
        .u32 job.timelimit,
        .u32 job.totCpuSec,
        .u32 job.totCpuUsec,
        .u16 job.trackSteps,
        .u32 job.uid,
        .str job.user,
        .u32 job.userCpuSec,
        .u32 job.userCpuUsec,
        .str job.wckey,
        .u32 job.wckeyid]]
  else if rpcVersion ≥ 4 then
    List.flatten [
      [.u32 job.allocCpus,
        .u32 job.associd,
        .str job.account,
        .str job.blockid,
        .str job.cluster,
        .u32 job.elapsed,
        .time job.eligible,
        .time job.end_,
        .u32 job.exitcode.toUInt32,
        .u32 job.gid,
        .u32 job.jobid,
        .str job.jobname,
        .u32 job.lft,
        .str job.partition,
        .str job.nodes,
        .u32 job.priority,
        .u16 job.qos,
        .u32 job.reqCpus,
        .u32 job.requid],
      packSacct job.sacct,
      [.u32 job.showFull,
        .time job.start,
        .u16 job.state.toUInt16,
        .u32 (UInt32.ofNat job.steps.length)],
      job.steps.flatMap (packJobacctStepRec rpcVersion),
      [.time job.submit,
        .u32 job.suspended,
        .u32 job.sysCpuSec,
        .u32 job.sysCpuUsec,
        .u32 job.totCpuSec,
        .u32 job.totCpuUsec,
        .u16 job.trackSteps,
        .u32 job.uid,
        .str job.user,
        .u32 job.userCpuSec,
        .u32 job.userCpuUsec,
        .str job.wckey,
        .u32 job.wckeyid]]
  else
    List.flatten [
      [.u32 job.allocCpus,
        .u32 job.associd,
        .str job.account,
        .str job.blockid,
        .str job.cluster,
        .u32 job.elapsed,
        .time job.eligible,
        .time job.end_,
        .u32 job.exitcode.toUInt32,
        .u32 job.gid,
        .u32 job.jobid,
        .str job.jobname,
        .u32 job.lft,
        .str job.partition,
        .str job.nodes,
        .u32 job.priority,
        .u16 job.qos,
        .u32 job.reqCpus,
        .u32 job.requid],
      packSacct job.sacct,
      [.u32 job.showFull,
        .time job.start,
        .u16 job.state.toUInt16,
        .u32 (UInt32.ofNat job.steps.length)],
      job.steps.flatMap (packJobacctStepRec rpcVersion),
      [.time job.submit,
        .u32 job.suspended,
        .u32 job.sysCpuSec,
        .u32 job.sysCpuUsec,
        .u32 job.totCpuSec,
        .u32 job.totCpuUsec,
        .u16 job.trackSteps,
        .u32 job.uid,
        .str job.user,
        .u32 job.userCpuSec,
        .u32 job.userCpuUsec]]

/-! ## Unpacking -/

/-- `_unpack_jobacct_id`. -/
def unpackJobacctId : Unpacker JobacctId := do
  let nodeid ← unpack32
  let taskid ← unpack16
  pure { taskid, nodeid }

/-- `_unpack_sacct`. -/
def unpackSacct : Unpacker Sacct := do
  let maxVsize ← unpack32
  let aveVsize ← unpack32
  let maxRss ← unpack32
  let aveRss ← unpack32
  let maxPages ← unpack32
  let avePages ← unpack32
  let minCpu ← unpack32
  let aveCpu ← unpack32
  let maxVsizeId ← unpackJobacctId
  let maxRssId ← unpackJobacctId
  let maxPagesId ← unpackJobacctId
  let minCpuId ← unpackJobacctId
  pure
    { maxVsize, maxVsizeId, aveVsize := (aveVsize / mult).toFloat32
      maxRss, maxRssId, aveRss := (aveRss / mult).toFloat32
      maxPages, maxPagesId, avePages := (avePages / mult).toFloat32
      minCpu := (minCpu / mult).toFloat32, minCpuId
      aveCpu := (aveCpu / mult).toFloat32 }

/-- A call whose error is ignored. -/
def ignoringError {α : Type} (u : Unpacker α) : Unpacker (Option α) := fun b =>
  (some (u b).1, (u b).2)

/-- A packing function called while unpacking. -/
def packing (items : List Item) : Unpacker Unit := fun b =>
  match packItems items b with
  | some b => (some (), b)
  | none => (none, b)

/-- `unpack_jobacct_step_rec`. The result of `_unpack_sacct` is ignored; where it fails
there are too few bytes for `start` as well. -/
def unpackJobacctStepRec (rpcVersion : UInt16) : Unpacker StepRec :=
  if rpcVersion ≥ 5 then do
    let elapsed ← unpack32
    let end_ ← unpackTime
    let exitcode ← unpack32
    let ncpus ← unpack32
    let nnodes ← unpack32
    let nodes ← unpackstr
    let ntasks ← unpack32
    let requid ← unpack32
    let sacct ← ignoringError unpackSacct
    let start ← unpackTime
    let state ← unpack16
    let stepid ← unpack32
    let stepname ← unpackstr
    let suspended ← unpack32
    let sysCpuSec ← unpack32
    let sysCpuUsec ← unpack32
    let taskDist ← unpack16
    let totCpuSec ← unpack32
    let totCpuUsec ← unpack32
    let userCpuSec ← unpack32
    let userCpuUsec ← unpack32
    pure
      { elapsed, end_, exitcode := exitcode.toInt32, ncpus, nnodes, nodes, ntasks, requid
        sacct := sacct.getD .zero, start, state := state.toUInt32, stepid, stepname, suspended
        sysCpuSec, sysCpuUsec, taskDist, totCpuSec, totCpuUsec, userCpuSec, userCpuUsec }
  else do
    let elapsed ← unpack32
    let end_ ← unpackTime
    let exitcode ← unpack32
    let _ ← unpack32
    let ncpus ← unpack32
    let nodes ← unpackstr
    let requid ← unpack32
    let sacct ← ignoringError unpackSacct
    let start ← unpackTime
    let state ← unpack16
    let stepid ← unpack32
    let stepname ← unpackstr
    let suspended ← unpack32
    let sysCpuSec ← unpack32
    let sysCpuUsec ← unpack32
    let totCpuSec ← unpack32
    let totCpuUsec ← unpack32
    let userCpuSec ← unpack32
    let userCpuUsec ← unpack32
    pure
      { elapsed, end_, exitcode := exitcode.toInt32, ncpus, nnodes := 0, nodes, ntasks := 0, requid
        sacct := sacct.getD .zero, start, state := state.toUInt32, stepid, stepname, suspended
        sysCpuSec, sysCpuUsec, taskDist := 0, totCpuSec, totCpuUsec, userCpuSec, userCpuUsec }

/-- The loop over the steps of a job: a step that fails to unpack is left out. -/
def unpackSteps (rpcVersion : UInt16) : Nat → Unpacker (List StepRec)
  | 0 => pure []
  | count + 1 => do
    let step ← ignoringError (unpackJobacctStepRec rpcVersion)
    let steps ← unpackSteps rpcVersion count
    pure (step.toList ++ steps)

/-- `unpack_jobacct_job_rec`, which calls `_pack_sacct` with the cleared statistics of
the new record. -/
def unpackJobacctJobRec (rpcVersion : UInt16) : Unpacker JobRec :=
  if rpcVersion ≥ 5 then do
    let allocCpus ← unpack32
    let allocNodes ← unpack32
    let associd ← unpack32
    let account ← unpackstr
    let blockid ← unpackstr
    let cluster ← unpackstr
    let elapsed ← unpack32
    let eligible ← unpackTime
    let end_ ← unpackTime
    let exitcode ← unpack32
    let gid ← unpack32
    let jobid ← unpack32
    let jobname ← unpackstr
    let lft ← unpack32
    let partition ← unpackstr
    let nodes ← unpackstr
    let priority ← unpack32
    let qos ← unpack16
    let resvid ← unpack32
    let reqCpus ← unpack32
    let requid ← unpack32
    packing (packSacct .zero)
    let showFull ← unpack32
    let start ← unpackTime
    let state ← unpack16
    let count ← unpack32
    let steps ← unpackSteps rpcVersion count.toNat
    let submit ← unpackTime
    let suspended ← unpack32
    let sysCpuSec ← unpack32
    let sysCpuUsec ← unpack32
    let timelimit ← unpack32
    let totCpuSec ← unpack32
    let totCpuUsec ← unpack32
    let trackSteps ← unpack16
    let uid ← unpack32
    let user ← unpackstr
    let userCpuSec ← unpack32
    let userCpuUsec ← unpack32
    let wckey ← unpackstr
    let wckeyid ← unpack32
    pure
      { allocCpus, allocNodes, account, associd, blockid, cluster, elapsed, eligible, end_
        exitcode := exitcode.toInt32, gid, jobid, jobname, lft, partition, nodes, priority, qos
        reqCpus, requid, resvid, sacct := .zero, showFull, start, state := state.toUInt32, steps
        submit, suspended, sysCpuSec, sysCpuUsec, timelimit, totCpuSec, totCpuUsec, trackSteps
        uid, user, userCpuSec, userCpuUsec, wckey, wckeyid }
  else if rpcVersion ≥ 4 then do
    let allocCpus ← unpack32
    let associd ← unpack32
    let account ← unpackstr
    let blockid ← unpackstr
    let cluster ← unpackstr
    let elapsed ← unpack32
    let eligible ← unpackTime
    let end_ ← unpackTime
    let exitcode ← unpack32
    let gid ← unpack32
    let jobid ← unpack32
    let jobname ← unpackstr
    let lft ← unpack32
    let partition ← unpackstr
    let nodes ← unpackstr
    let priority ← unpack32
    let qos ← unpack16
    let reqCpus ← unpack32
    let requid ← unpack32
    packing (packSacct .zero)
    let showFull ← unpack32
    let start ← unpackTime
    let state ← unpack16
    let count ← unpack32
    let steps ← unpackSteps rpcVersion count.toNat
    let submit ← unpackTime
    let suspended ← unpack32
    let sysCpuSec ← unpack32
    let sysCpuUsec ← unpack32
    let totCpuSec ← unpack32
    let totCpuUsec ← unpack32
    let trackSteps ← unpack16
    let uid ← unpack32
    let user ← unpackstr
    let userCpuSec ← unpack32
    let userCpuUsec ← unpack32
    let wckey ← unpackstr
    let wckeyid ← unpack32
    pure
      { allocCpus, allocNodes := 0, account, associd, blockid, cluster, elapsed, eligible, end_
        exitcode := exitcode.toInt32, gid, jobid, jobname, lft, partition, nodes, priority, qos
        reqCpus, requid, resvid := 0, sacct := .zero, showFull, start, state := state.toUInt32
        steps, submit, suspended, sysCpuSec, sysCpuUsec, timelimit := 0, totCpuSec, totCpuUsec
        trackSteps, uid, user, userCpuSec, userCpuUsec, wckey, wckeyid }
  else do
    let allocCpus ← unpack32
    let associd ← unpack32
    let account ← unpackstr
    let blockid ← unpackstr
    let cluster ← unpackstr
    let elapsed ← unpack32
    let eligible ← unpackTime
    let end_ ← unpackTime
    let exitcode ← unpack32
    let gid ← unpack32
    let jobid ← unpack32
    let jobname ← unpackstr
    let lft ← unpack32
    let partition ← unpackstr
    let nodes ← unpackstr
    let priority ← unpack32
    let qos ← unpack16
    let reqCpus ← unpack32
    let requid ← unpack32
    packing (packSacct .zero)
    let showFull ← unpack32
    let start ← unpackTime
    let state ← unpack16
    let count ← unpack32
    let steps ← unpackSteps rpcVersion count.toNat
    let submit ← unpackTime
    let suspended ← unpack32
    let sysCpuSec ← unpack32
    let sysCpuUsec ← unpack32
    let totCpuSec ← unpack32
    let totCpuUsec ← unpack32
    let trackSteps ← unpack16
    let uid ← unpack32
    let user ← unpackstr
    let userCpuSec ← unpack32
    let userCpuUsec ← unpack32
    pure
      { allocCpus, allocNodes := 0, account, associd, blockid, cluster, elapsed, eligible, end_
        exitcode := exitcode.toInt32, gid, jobid, jobname, lft, partition, nodes
        priority := priority.toInt32.toUInt32, qos, reqCpus, requid, resvid := 0, sacct := .zero
        showFull, start, state := state.toUInt32, steps, submit, suspended, sysCpuSec, sysCpuUsec
        timelimit := 0, totCpuSec, totCpuUsec, trackSteps, uid, user, userCpuSec, userCpuUsec
        wckey := none, wckeyid := 0 }

/-! ## What is read back -/

/-- Packing over the bytes of other items that take as much room. -/
theorem packing_decodes {items js : List Item}
    (h : Chunk.total (items.flatMap Item.chunks) = Chunk.total (js.flatMap Item.chunks)) :
    Decodes (packing items) js () := by
  intro _ r hpre
  have hlen : Chunk.total (items.flatMap Item.chunks) ≤ r.remaining := by
    rw [h, ← Chunk.length_flat, ← Buf.length_rest]
    exact hpre.length_le
  obtain ⟨r', hrun, hrest⟩ := Buf.run_inPlace hlen
  refine ⟨r', ?_, ?_, ?_⟩
  · unfold packing
    rw [(encodes_packItems items).ok hrun]
  · rw [Buf.run_processed hrun, h, Chunk.length_flat]
  · rw [hrest, h, Chunk.length_flat]

theorem ignoringError_decodes {α : Type} {u : Unpacker α} {items : List Item} {x : α}
    (h : Decodes u items x) : Decodes (ignoringError u) items (some x) := by
  intro hfit r hpre
  obtain ⟨r', hread, hproc, hrest⟩ := h hfit r hpre
  refine ⟨r', ?_, hproc, hrest⟩
  unfold ignoringError
  rw [hread]

theorem unpackJobacctId_decodes (jobacctId : JobacctId) :
    Decodes unpackJobacctId (packJobacctId jobacctId) jobacctId :=
  Decodes.u32 (Decodes.u16 (Decodes.pure _))

/-- The statistics with their averages as they come back. -/
def Sacct.received (sacct : Sacct) : Sacct :=
  { sacct with
    aveVsize := ((sacct.aveVsize * mult.toFloat32).toUInt32 / mult).toFloat32
    aveRss := (sacct.aveRss.toUInt32 * mult / mult).toFloat32
    avePages := (sacct.avePages.toUInt32 * mult / mult).toFloat32
    minCpu := (sacct.minCpu.toUInt32 * mult / mult).toFloat32
    aveCpu := (sacct.aveCpu.toUInt32 * mult / mult).toFloat32 }

theorem unpackSacct_decodes (sacct : Sacct) :
    Decodes unpackSacct (packSacct sacct) sacct.received := by
  unfold unpackSacct packSacct
  simp only [List.flatten_cons, List.flatten_nil, List.cons_append, List.nil_append]
  iterate 8 apply Decodes.u32
  -- the four ids
  refine (unpackJobacctId_decodes sacct.maxVsizeId).append ?_
  refine (unpackJobacctId_decodes sacct.maxRssId).append ?_
  refine (unpackJobacctId_decodes sacct.maxPagesId).append ?_
  refine (unpackJobacctId_decodes sacct.minCpuId).append ?_
  exact Decodes.pure _

/-- The fields of a step that a version carries. -/
def StepRec.carried (rpcVersion : UInt16) (step : StepRec) : StepRec :=
  let step := { step with state := step.state.toUInt16.toUInt32 }
  if rpcVersion ≥ 5 then step else { step with nnodes := 0, ntasks := 0, taskDist := 0 }

/-- A step as it comes back. -/
def StepRec.received (rpcVersion : UInt16) (step : StepRec) : StepRec :=
  { step.carried rpcVersion with sacct := step.sacct.received }

theorem unpackJobacctStepRec_decodes (rpcVersion : UInt16) (step : StepRec) :
    Decodes (unpackJobacctStepRec rpcVersion) (packJobacctStepRec rpcVersion step)
      (step.received rpcVersion) := by
  have hsacct := ignoringError_decodes (unpackSacct_decodes step.sacct)
  unfold unpackJobacctStepRec packJobacctStepRec StepRec.received StepRec.carried
  split
  · simp only [List.flatten_cons, List.flatten_nil, List.cons_append, List.nil_append]
    apply_rules [Decodes.u32, Decodes.time, Decodes.str]
    refine hsacct.append ?_
    apply_rules [Decodes.u16, Decodes.u32, Decodes.time, Decodes.str]
    rw [Int32.toInt32_toUInt32]
    exact Decodes.pure _
  · simp only [List.flatten_cons, List.flatten_nil, List.cons_append, List.nil_append]
    apply_rules [Decodes.u32, Decodes.time, Decodes.str]
    refine hsacct.append ?_
    apply_rules [Decodes.u16, Decodes.u32, Decodes.time, Decodes.str]
    rw [Int32.toInt32_toUInt32]
    exact Decodes.pure _

theorem unpackSteps_decodes (rpcVersion : UInt16) (steps : List StepRec) :
    Decodes (unpackSteps rpcVersion steps.length)
      (steps.flatMap (packJobacctStepRec rpcVersion))
      (steps.map (StepRec.received rpcVersion)) := by
  induction steps with
  | nil => exact Decodes.pure []
  | cons step steps ih =>
    have hstep := ignoringError_decodes (unpackJobacctStepRec_decodes rpcVersion step)
    rw [List.flatMap_cons]
    exact hstep.append ih.map

/-- The fields of a job that a version carries. -/
def JobRec.carried (rpcVersion : UInt16) (job : JobRec) : JobRec :=
  let job := { job with
    state := job.state.toUInt16.toUInt32
    steps := job.steps.map (StepRec.carried rpcVersion) }
  if rpcVersion ≥ 5 then job
  else
    let job := { job with allocNodes := 0, resvid := 0, timelimit := 0 }
    if rpcVersion ≥ 4 then job else { job with wckey := none, wckeyid := 0 }

/-- A job as it comes back, with cleared statistics. -/
def JobRec.received (rpcVersion : UInt16) (job : JobRec) : JobRec :=
  { job.carried rpcVersion with
    steps := job.steps.map (StepRec.received rpcVersion)
    sacct := .zero }

/-- Statistics take the same room whatever they are. -/
theorem total_packSacct (sacct : Sacct) :
    Chunk.total ((packSacct sacct).flatMap Item.chunks) = 56 := by
  simp [packSacct, packJobacctId, Item.chunks, Chunk.total, numChunk]

theorem unpackJobacctJobRec_decodes (rpcVersion : UInt16) (job : JobRec)
    (hsteps : job.steps.length < 4294967296) :
    Decodes (unpackJobacctJobRec rpcVersion) (packJobacctJobRec rpcVersion job)
      (job.received rpcVersion) := by
  have hsacct : Decodes (packing (packSacct .zero)) (packSacct job.sacct) () :=
    packing_decodes ((total_packSacct _).trans (total_packSacct _).symm)
  have hstep : Decodes (unpackSteps rpcVersion (UInt32.ofNat job.steps.length).toNat)
      (job.steps.flatMap (packJobacctStepRec rpcVersion))
      (job.steps.map (StepRec.received rpcVersion)) := by
    rw [UInt32.toNat_ofNat_of_lt' hsteps]
    exact unpackSteps_decodes rpcVersion job.steps
  unfold unpackJobacctJobRec packJobacctJobRec JobRec.received JobRec.carried
  split
  · simp only [List.flatten_cons, List.flatten_nil, List.cons_append, List.nil_append]
    apply_rules [Decodes.u16, Decodes.u32, Decodes.time, Decodes.str]
    refine hsacct.append ?_
    apply_rules [Decodes.u16, Decodes.u32, Decodes.time]
    refine hstep.append ?_
    apply_rules [Decodes.u16, Decodes.u32, Decodes.time, Decodes.str]
    rw [Int32.toInt32_toUInt32]
    exact Decodes.pure _
  · split
    · simp only [List.flatten_cons, List.flatten_nil, List.cons_append, List.nil_append]
      apply_rules [Decodes.u16, Decodes.u32, Decodes.time, Decodes.str]
      refine hsacct.append ?_
      apply_rules [Decodes.u16, Decodes.u32, Decodes.time]
      refine hstep.append ?_
      apply_rules [Decodes.u16, Decodes.u32, Decodes.time, Decodes.str]
      rw [Int32.toInt32_toUInt32]
      exact Decodes.pure _
    · simp only [List.flatten_cons, List.flatten_nil, List.cons_append, List.nil_append]
      apply_rules [Decodes.u16, Decodes.u32, Decodes.time, Decodes.str]
      refine hsacct.append ?_
      apply_rules [Decodes.u16, Decodes.u32, Decodes.time]
      refine hstep.append ?_
      apply_rules [Decodes.u16, Decodes.u32, Decodes.time, Decodes.str]
      rw [Int32.toInt32_toUInt32, UInt32.toUInt32_toInt32]
      exact Decodes.pure _

/-! ## Round trip -/

/-- The statistics without their averages. -/
def Sacct.ints (sacct : Sacct) : Sacct :=
  { sacct with aveVsize := 0, aveRss := 0, avePages := 0, minCpu := 0, aveCpu := 0 }

/-- A step without the averages. -/
def StepRec.ints (step : StepRec) : StepRec := { step with sacct := step.sacct.ints }

/-- A job without the averages. -/
def JobRec.ints (job : JobRec) : JobRec :=
  { job with sacct := job.sacct.ints, steps := job.steps.map StepRec.ints }

theorem StepRec.received_ints (rpcVersion : UInt16) (step : StepRec) :
    (step.received rpcVersion).ints = (step.carried rpcVersion).ints := by
  unfold received carried ints
  split <;> rfl

theorem JobRec.received_ints (rpcVersion : UInt16) (job : JobRec) :
    (job.received rpcVersion).ints = { job.carried rpcVersion with sacct := .zero }.ints := by
  have hsteps : (job.carried rpcVersion).steps = job.steps.map (StepRec.carried rpcVersion) := by
    unfold carried
    split
    · rfl
    · split <;> rfl
  unfold received ints
  simp only [hsteps, List.map_map]
  congr 1
  refine List.map_congr_left fun step _ => ?_
  exact StepRec.received_ints rpcVersion step

/-- Every step takes room. -/
theorem steps_length_le (rpcVersion : UInt16) (steps : List StepRec) :
    steps.length ≤
      Chunk.total ((steps.flatMap (packJobacctStepRec rpcVersion)).flatMap Item.chunks) := by
  induction steps with
  | nil => exact Nat.zero_le _
  | cons step steps ih =>
    have hstep : 4 ≤ Chunk.total ((packJobacctStepRec rpcVersion step).flatMap Item.chunks) := by
      have helapsed : Chunk.total (Item.u32 step.elapsed).chunks = 4 := by
        simp [Item.chunks, Chunk.total, numChunk]
      unfold packJobacctStepRec
      split <;>
        rw [List.flatten_cons, List.cons_append, List.flatMap_cons, Chunk.total_append,
          helapsed] <;>
        exact Nat.le_add_right _ _
    rw [List.flatMap_cons, List.flatMap_append, Chunk.total_append, List.length_cons]
    omega

theorem job_steps_length_le (rpcVersion : UInt16) (job : JobRec) :
    job.steps.length ≤
      Chunk.total ((packJobacctJobRec rpcVersion job).flatMap Item.chunks) := by
  have hsteps := steps_length_le rpcVersion job.steps
  unfold packJobacctJobRec
  split
  · simp only [List.flatten_cons, List.flatMap_append, Chunk.total_append]
    omega
  · split <;>
    · simp only [List.flatten_cons, List.flatMap_append, Chunk.total_append]
      omega

/-- A job that fits the buffer it is packed in is unpacked from the same bytes: the
fields the version carries come back. -/
theorem unpackJobacctJobRec_packJobacctJobRec {rpcVersion : UInt16} {job : JobRec} {b : Buf}
    (hg : Granted b.size b.processed ((packJobacctJobRec rpcVersion job).flatMap Item.chunks)) :
    ∃ b' bytes, packItems (packJobacctJobRec rpcVersion job) b = some b' ∧
      b'.written = b.written ++ bytes ∧
      ∀ r : Buf, bytes <+: r.rest →
        ∃ job' r', unpackJobacctJobRec rpcVersion r = (some job', r') ∧
          r'.processed = r.processed + bytes.length ∧
          job'.ints = { job.carried rpcVersion with sacct := job'.sacct }.ints := by
  have hsteps := Nat.lt_of_le_of_lt (job_steps_length_le rpcVersion job) (total_lt_of_granted hg)
  obtain ⟨b', hpack, hw, hread⟩ :=
    (unpackJobacctJobRec_decodes rpcVersion job hsteps).roundTrip hg
  refine ⟨b', _, hpack, hw, fun r hpre => ?_⟩
  obtain ⟨r', hunpack, hproc⟩ := hread r hpre
  refine ⟨job.received rpcVersion, r', hunpack, ?_, JobRec.received_ints rpcVersion job⟩
  rw [hproc, Chunk.length_flat]

/-- A step with its statistics. -/
def exampleStep : StepRec :=
  { elapsed := 60, end_ := 1060, exitcode := -1, ncpus := 2, nnodes := 1
    nodes := some (CString.ofBytes [110, 49]), ntasks := 2, requid := -1
    sacct := { Sacct.zero with maxRss := 4096, maxRssId := ⟨1, 0⟩ }, start := 1000, state := 3
    stepid := 0, stepname := none, suspended := 0, sysCpuSec := 1, sysCpuUsec := 5, taskDist := 1
    totCpuSec := 2, totCpuUsec := 6, userCpuSec := 1, userCpuUsec := 1 }

theorem unpackJobacctJobRec_packJobacctJobRec_step :
    ∃ b b' bytes, initBuf 1 = some b ∧
      packItems (packJobacctJobRec 5 { createJobacctJobRec with steps := [exampleStep] }) b =
        some b' ∧
      b'.written = b.written ++ bytes ∧
      ∀ r : Buf, bytes <+: r.rest →
        ∃ job' r', unpackJobacctJobRec 5 r = (some job', r') ∧
          r'.processed = r.processed + bytes.length ∧
          job'.ints = { JobRec.carried 5 { createJobacctJobRec with steps := [exampleStep] } with
            sacct := job'.sacct }.ints := by
  have hg : Granted 1 0 ((packJobacctJobRec 5 { createJobacctJobRec with
      steps := [exampleStep] }).flatMap Item.chunks) := by
    decide +kernel
  obtain ⟨b', bytes, h⟩ := unpackJobacctJobRec_packJobacctJobRec
    (b := ⟨[0], 0, Nat.zero_le _, by decide⟩) hg
  exact ⟨_, b', bytes, rfl, h⟩

/-- Version 4 does not carry `alloc_nodes`. -/
theorem unpackJobacctJobRec_uncarried :
    ∃ b b' job' r', initBuf 0 = some b ∧
      packItems (packJobacctJobRec 4 { createJobacctJobRec with allocNodes := 1 }) b = some b' ∧
      unpackJobacctJobRec 4 b'.rewind = (some job', r') ∧ job'.allocNodes = 0 := by
  have hg : Granted 16384 0 ((packJobacctJobRec 4 { createJobacctJobRec with
      allocNodes := 1 }).flatMap Item.chunks) := by
    decide +kernel
  obtain ⟨b, hb, hsize, hproc⟩ := initBuf_zero
  obtain ⟨b', hpack, hw, hread⟩ := (unpackJobacctJobRec_decodes 4
    { createJobacctJobRec with allocNodes := 1 } (by decide)).roundTrip (b := b) (by
      rw [hsize, hproc]
      exact hg)
  rw [Buf.written_at_start hproc, List.nil_append] at hw
  obtain ⟨r', hunpack, -⟩ := hread b'.rewind (Buf.prefix_rest_rewind hw)
  exact ⟨b, b', _, r', hb, hpack, hunpack, rfl⟩

end Slurm.Jobacct
