import SlurmLite.JobacctAggregate

/-!
# Steps and processes through a buffer

* **Steps** (`stepRec_readsBack`): what `unpack_jobacct_step_rec` makes of the
  bytes of `pack_jobacct_step_rec`, from protocol version 5 on.
* **Processes** (`jobacctinfo_readsBack`): the same for `jobacct_common_pack`
  and `jobacct_common_unpack`, the NULL record among them, with whatever is
  packed behind it.
-/

namespace Slurm.Jobacct

open Base.Bytes Base.CLib Slurm.Pack

/-! ## Steps -/

/-- From version 5 on all integer and string fields of a step come back, the
state with the 16 bits it is packed with. -/
theorem stepRec_readsBack {rpcVersion : UInt16} (hversion : 5 ≤ rpcVersion) {step : StepRec}
    {b : Buf}
    (hg : Granted b.size b.processed
      ((packJobacctStepRec rpcVersion step).flatMap Item.chunks)) :
    ∃ step', ReadsBack (unpackJobacctStepRec rpcVersion) (packJobacctStepRec rpcVersion step)
        step' b ∧
      step'.ints = { step with state := step.state.toUInt16.toUInt32 }.ints := by
  have hread := (unpackJobacctStepRec_decodes rpcVersion step).readsBack hg
  refine ⟨step.received rpcVersion, hread, ?_⟩
  rw [StepRec.received_ints, StepRec.carried]
  show StepRec.ints (if rpcVersion ≥ 5 then _ else _) = _
  rw [if_pos hversion]

theorem stepRec_readsBack_five :
    ∃ b, initBuf 1 = some b ∧
      ∃ step', ReadsBack (unpackJobacctStepRec 5) (packJobacctStepRec 5 exampleStep) step' b ∧
        step'.ints = { exampleStep with state := exampleStep.state.toUInt16.toUInt32 }.ints := by
  have hg : Granted 1 0 ((packJobacctStepRec 5 exampleStep).flatMap Item.chunks) := by
    decide +kernel
  have hversion : (5 : UInt16) ≤ 5 := by decide
  exact ⟨_, rfl, @stepRec_readsBack 5 hversion exampleStep ⟨[0], 0, Nat.zero_le _, by decide⟩ hg⟩

/-- The state of a step just created, `NO_VAL`, is cut. -/
theorem not_stepRec_readsBack_state :
    ∃ b b' step' r', initBuf 0 = some b ∧
      packItems (packJobacctStepRec 5 { exampleStep with state := noVal }) b = some b' ∧
      unpackJobacctStepRec 5 b'.rewind = (some step', r') ∧ step'.state = 65534 := by
  have hg : Granted 16384 0
      ((packJobacctStepRec 5 { exampleStep with state := noVal }).flatMap Item.chunks) := by
    decide +kernel
  obtain ⟨b, hb, hsize, hproc⟩ := initBuf_zero
  obtain ⟨b', bytes, hpack, hw, hread⟩ :=
    (unpackJobacctStepRec_decodes 5 { exampleStep with state := noVal }).readsBack (b := b) (by
      rw [hsize, hproc]
      exact hg)
  rw [Buf.written_at_start hproc, List.nil_append] at hw
  obtain ⟨r', hunpack, -⟩ := hread b'.rewind (Buf.prefix_rest_rewind hw)
  exact ⟨b, b', _, r', hb, hpack, hunpack, rfl⟩

/-! ## Processes -/

/-- `struct jobacctinfo` with its process id. -/
structure JobacctinfoPid extends Jobacctinfo where
  pid : Int32
  deriving DecidableEq

/-- A cleared `struct jobacctinfo`. -/
def JobacctinfoPid.zero : JobacctinfoPid :=
  { pid := 0, sysCpuSec := 0, sysCpuUsec := 0, userCpuSec := 0, userCpuUsec := 0
    maxVsize := 0, maxVsizeId := .zero, totVsize := 0, maxRss := 0, maxRssId := .zero, totRss := 0
    maxPages := 0, maxPagesId := .zero, totPages := 0, minCpu := 0, minCpuId := .zero, totCpu := 0 }

/-- `jobacct_common_pack`: what it packs, one value after the other. -/
def jobacctCommonPack : Option JobacctinfoPid → List Item
  | none => List.replicate 16 (.u32 0) ++ List.replicate 4 (.u16 0)
  | some jobacct =>
    List.flatten [
      [.u32 jobacct.userCpuSec,
        .u32 jobacct.userCpuUsec,
        .u32 jobacct.sysCpuSec,
        .u32 jobacct.sysCpuUsec,
        .u32 jobacct.maxVsize,
        .u32 jobacct.totVsize,
        .u32 jobacct.maxRss,
        .u32 jobacct.totRss,
        .u32 jobacct.maxPages,
        .u32 jobacct.totPages,
        .u32 jobacct.minCpu,
        .u32 jobacct.totCpu],
      packJobacctId jobacct.maxVsizeId,
      packJobacctId jobacct.maxRssId,
      packJobacctId jobacct.maxPagesId,
      packJobacctId jobacct.minCpuId]

/-- `jobacct_common_unpack`, into a cleared record. -/
def jobacctCommonUnpack : Unpacker JobacctinfoPid := do
  let userCpuSec ← unpack32
  let userCpuUsec ← unpack32
  let sysCpuSec ← unpack32
  let sysCpuUsec ← unpack32
  let maxVsize ← unpack32
  let totVsize ← unpack32
  let maxRss ← unpack32
  let totRss ← unpack32
  let maxPages ← unpack32
  let totPages ← unpack32
  let minCpu ← unpack32
  let totCpu ← unpack32
  let maxVsizeId ← unpackJobacctId
  let maxRssId ← unpackJobacctId
  let maxPagesId ← unpackJobacctId
  let minCpuId ← unpackJobacctId
  pure
    { pid := 0, sysCpuSec, sysCpuUsec, userCpuSec, userCpuUsec, maxVsize, maxVsizeId, totVsize
      maxRss, maxRssId, totRss, maxPages, maxPagesId, totPages, minCpu, minCpuId, totCpu }

/-- What comes back: all but the process id, and zeros for the NULL record. -/
def restored (jobacct : Option JobacctinfoPid) : JobacctinfoPid :=
  { jobacct.getD .zero with pid := 0 }

/-- The zeros of the NULL record are the bytes of a cleared one. -/
theorem flat_pack_none :
    Chunk.flat ((jobacctCommonPack none).flatMap Item.chunks) =
      Chunk.flat ((jobacctCommonPack (some .zero)).flatMap Item.chunks) := by
  decide +kernel

theorem jobacctCommonUnpack_decodes (jobacct : Option JobacctinfoPid) :
    Decodes jobacctCommonUnpack (jobacctCommonPack jobacct) (restored jobacct) := by
  have hsome : ∀ jobacct : JobacctinfoPid,
      Decodes jobacctCommonUnpack (jobacctCommonPack (some jobacct)) (restored (some jobacct)) := by
    intro jobacct
    unfold jobacctCommonUnpack jobacctCommonPack
    simp only [List.flatten_cons, List.flatten_nil, List.cons_append, List.nil_append]
    iterate 12 apply Decodes.u32
    -- the four ids
    refine (unpackJobacctId_decodes jobacct.maxVsizeId).append ?_
    refine (unpackJobacctId_decodes jobacct.maxRssId).append ?_
    refine (unpackJobacctId_decodes jobacct.maxPagesId).append ?_
    refine (unpackJobacctId_decodes jobacct.minCpuId).append ?_
    exact Decodes.pure _
  cases jobacct with
  | some jobacct => exact hsome jobacct
  | none =>
    intro _
    rw [flat_pack_none]
    apply hsome JobacctinfoPid.zero
    intro i hi
    simp only [jobacctCommonPack, packJobacctId, List.flatten_cons, List.flatten_nil,
      List.cons_append, List.nil_append, List.mem_cons, List.not_mem_nil, or_false] at hi
    rcases hi with rfl | rfl | rfl | rfl | rfl | rfl | rfl | rfl | rfl | rfl | rfl | rfl | rfl |
      rfl | rfl | rfl | rfl | rfl | rfl | rfl <;> trivial

/-- `jobacct_common_unpack`, and then what was packed behind the record. -/
def unpackWithItems (kinds : List Kind) : Unpacker (JobacctinfoPid × List Item) := do
  let jobacct ← jobacctCommonUnpack
  let items ← unpackItems kinds
  pure (jobacct, items)

/-- `jobacct_common_unpack` consumes the bytes of `jobacct_common_pack`, and what
is packed behind them is read from the right offset; all of the record comes
back but its process id, and a record of zeros for the NULL one. -/
theorem jobacctinfo_readsBack {jobacct : Option JobacctinfoPid} {items : List Item} {b : Buf}
    (hg : Granted b.size b.processed
      ((jobacctCommonPack jobacct ++ items).flatMap Item.chunks)) :
    ReadsBack jobacctCommonUnpack (jobacctCommonPack jobacct) (restored jobacct) b ∧
      ReadsBack (unpackWithItems (items.map Item.kind)) (jobacctCommonPack jobacct ++ items)
        (restored jobacct, items) b := by
  have hread := jobacctCommonUnpack_decodes jobacct
  have hmore : Decodes (unpackWithItems (items.map Item.kind)) (jobacctCommonPack jobacct ++ items)
      (restored jobacct, items) := hread.append (decodes_unpackItems items).map
  rw [List.flatMap_append] at hg
  constructor
  · apply hread.readsBack
    exact granted_of_append hg
  · apply hmore.readsBack
    rw [List.flatMap_append]
    exact hg

/-- The NULL record with a string behind it. -/
theorem jobacctinfo_readsBack_null :
    ∃ b, initBuf 1 = some b ∧
      ReadsBack jobacctCommonUnpack (jobacctCommonPack none) (restored none) b ∧
      ReadsBack (unpackWithItems [.str]) (jobacctCommonPack none ++ [.str none])
        (restored none, [.str none]) b := by
  have hg : Granted 1 0 ((jobacctCommonPack none ++ [Item.str none]).flatMap Item.chunks) := by
    decide +kernel
  exact ⟨_, rfl, @jobacctinfo_readsBack none [.str none] ⟨[0], 0, Nat.zero_le _, by decide⟩ hg⟩

/-- A process id does not come back. -/
theorem not_jobacctinfo_readsBack_pid :
    ∃ b b' jobacct' r', initBuf 0 = some b ∧
      packItems (jobacctCommonPack (some { JobacctinfoPid.zero with pid := 7 })) b = some b' ∧
      jobacctCommonUnpack b'.rewind = (some jobacct', r') ∧ jobacct'.pid = 0 := by
  have hg : Granted 16384 0 ((jobacctCommonPack
      (some { JobacctinfoPid.zero with pid := 7 })).flatMap Item.chunks) := by
    decide +kernel
  obtain ⟨b, hb, hsize, hproc⟩ := initBuf_zero
  have hread := jobacctCommonUnpack_decodes (some { JobacctinfoPid.zero with pid := 7 })
  obtain ⟨b', bytes, hpack, hw, hread⟩ := hread.readsBack (b := b) (by
    rw [hsize, hproc]
    exact hg)
  rw [Buf.written_at_start hproc, List.nil_append] at hw
  obtain ⟨r', hunpack, -⟩ := hread b'.rewind (Buf.prefix_rest_rewind hw)
  exact ⟨b, b', _, r', hb, hpack, hunpack, rfl⟩

end Slurm.Jobacct
