import SlurmLite.JobacctCommon

/-!
# Job conditions

The condition of a job query, packed field by field with its lists as a count and
their elements. The count `NO_VAL` stands for a list that is not there.

* **Packing** (`packAcctJobCond`): the variable `count` is set anew for each list
  but the one of wckeys.
* **Unpacking** (`unpackAcctJobCond_decodes`): what is read from the packed bytes.
* **Round trip** (`restores_iff`): what a version carries comes back exactly when
  there is no list of wckeys and the times fit the version.
-/

namespace Slurm.AcctStorage

open Base.Bytes Base.CLib Slurm.Pack Slurm.Jobacct

/-- `jobacct_selected_step_t`. -/
structure SelectedStep where
  jobid : UInt32
  stepid : UInt32
deriving DecidableEq

/-- A list of strings, which may not be there. -/
abbrev StrList : Type := Option (List (Option CString))

/-- `acct_job_cond_t`. -/
structure JobCond where
  acctList : StrList := none
  associdList : StrList := none
  clusterList : StrList := none
  duplicates : UInt16 := 0
  groupidList : StrList := none
  partitionList : StrList := none
  resvList : StrList := none
  resvidList : StrList := none
  stepList : Option (List SelectedStep) := none
  stateList : StrList := none
  usageEnd : Int64 := 0
  usageStart : Int64 := 0
  usedNodes : Option CString := none
  useridList : StrList := none
  wckeyList : StrList := none
  withoutSteps : UInt16 := 0
  withoutUsageTruncation : UInt16 := 0
deriving DecidableEq

/-! ## Packing -/

/-- The count of a list, `NO_VAL` for a list that is not there. -/
def listCount {α : Type} (list : Option (List α)) : UInt32 :=
  match list with
  | none => noVal
  | some elems => UInt32.ofNat elems.length

/-- The count and, unless it is 0 or `NO_VAL`, the elements of the list. -/
def packCounted {α : Type} (count : UInt32) (elem : α → List Item) (list : Option (List α)) :
    List Item :=
  .u32 count :: if count ≠ 0 ∧ count ≠ noVal then (list.getD []).flatMap elem else []

/-- A list with its own count. -/
def packList {α : Type} (elem : α → List Item) (list : Option (List α)) : List Item :=
  packCounted (listCount list) elem list

/-- `packstr` of an element. -/
def packStr (tmpInfo : Option CString) : List Item := [.str tmpInfo]

/-- `pack_jobacct_selected_step`. -/
def packJobacctSelectedStep (step : SelectedStep) : List Item := [.u32 step.jobid, .u32 step.stepid]

/-- `pack_acct_job_cond`: what it packs for a condition, one value after the other.
For the wckeys `count` still is the `NO_VAL` it was reset to. -/
def packAcctJobCond (rpcVersion : UInt16) (object : JobCond) : List Item :=
  if rpcVersion ≥ 5 then
    List.flatten [
      packList packStr object.acctList,
      packList packStr object.associdList,
      packList packStr object.clusterList,
      [.u16 object.duplicates],
      packList packStr object.groupidList,
      packList packStr object.partitionList,
      packList packStr object.resvList,
      packList packStr object.resvidList,
      packList packJobacctSelectedStep object.stepList,
      packList packStr object.stateList,
      [.time object.usageEnd, .time object.usageStart, .str object.usedNodes],
      packList packStr object.useridList,
      packCounted noVal packStr object.wckeyList,
      [.u16 object.withoutSteps, .u16 object.withoutUsageTruncation]]
  else if rpcVersion ≥ 4 then
    List.flatten [
      packList packStr object.acctList,
      packList packStr object.associdList,
      packList packStr object.clusterList,
      [.u16 object.duplicates],
      packList packStr object.groupidList,
      packList packStr object.partitionList,
      packList packJobacctSelectedStep object.stepList,
      packList packStr object.stateList,
      [.u32 object.usageEnd.toUInt64.toUInt32, .u32 object.usageStart.toUInt64.toUInt32],
      packList packStr object.useridList,
      packCounted noVal packStr object.wckeyList,
      [.u16 object.withoutSteps]]
  else
    List.flatten [
      packList packStr object.acctList,
      packList packStr object.associdList,
      packList packStr object.clusterList,
      [.u16 object.duplicates],
      packList packStr object.groupidList,
      packList packStr object.partitionList,
      packList packJobacctSelectedStep object.stepList,
      packList packStr object.stateList,
      [.u32 object.usageEnd.toUInt64.toUInt32, .u32 object.usageStart.toUInt64.toUInt32],
      packList packStr object.useridList,
      [.u16 object.withoutSteps]]

/-! ## Unpacking -/

/-- A list: nothing for the count `NO_VAL`, else as many elements as it says. -/
def unpackList {α : Type} (elem : Unpacker α) : Unpacker (Option (List α)) := do
  let count ← unpack32
  if count ≠ noVal then
    let elems ← unpackMany elem count.toNat
    pure (some elems)
  else pure none

/-- `unpack_jobacct_selected_step`. -/
def unpackJobacctSelectedStep : Unpacker SelectedStep := do
  let jobid ← unpack32
  let stepid ← unpack32
  pure { jobid, stepid }

/-- A `uint32_t` taken as a `time_t`. -/
def timeOf (val : UInt32) : Int64 := val.toUInt64.toInt64

/-- `unpack_acct_job_cond`. An error of `unpack_jobacct_selected_step` is ignored there;
too few bytes for a step are too few for the state list as well. -/
def unpackAcctJobCond (rpcVersion : UInt16) : Unpacker JobCond :=
  if rpcVersion ≥ 5 then do
    let acctList ← unpackList unpackstr
    let associdList ← unpackList unpackstr
    let clusterList ← unpackList unpackstr
    let duplicates ← unpack16
    let groupidList ← unpackList unpackstr
    let partitionList ← unpackList unpackstr
    let resvList ← unpackList unpackstr
    let resvidList ← unpackList unpackstr
    let stepList ← unpackList unpackJobacctSelectedStep
    let stateList ← unpackList unpackstr
    let usageEnd ← unpackTime
    let usageStart ← unpackTime
    let usedNodes ← unpackstr
    let useridList ← unpackList unpackstr
    let wckeyList ← unpackList unpackstr
    let withoutSteps ← unpack16
    let withoutUsageTruncation ← unpack16
    pure
      { acctList, associdList, clusterList, duplicates, groupidList, partitionList, resvList
        resvidList, stepList, stateList, usageEnd, usageStart, usedNodes, useridList, wckeyList
        withoutSteps, withoutUsageTruncation }
  else if rpcVersion ≥ 4 then do
    let acctList ← unpackList unpackstr
    let associdList ← unpackList unpackstr
    let clusterList ← unpackList unpackstr
    let duplicates ← unpack16
    let groupidList ← unpackList unpackstr
    let partitionList ← unpackList unpackstr
    let stepList ← unpackList unpackJobacctSelectedStep
    let stateList ← unpackList unpackstr
    let usageEnd ← unpack32
    let usageStart ← unpack32
    let useridList ← unpackList unpackstr
    let wckeyList ← unpackList unpackstr
    let withoutSteps ← unpack16
    pure
      { acctList, associdList, clusterList, duplicates, groupidList, partitionList, stepList
        stateList, usageEnd := timeOf usageEnd, usageStart := timeOf usageStart, useridList
        wckeyList, withoutSteps }
  else do
    let acctList ← unpackList unpackstr
    let associdList ← unpackList unpackstr
    let clusterList ← unpackList unpackstr
    let duplicates ← unpack16
    let groupidList ← unpackList unpackstr
    let partitionList ← unpackList unpackstr
    let stepList ← unpackList unpackJobacctSelectedStep
    let stateList ← unpackList unpackstr
    let usageEnd ← unpack32
    let usageStart ← unpack32
    let useridList ← unpackList unpackstr
    let withoutSteps ← unpack16
    pure
      { acctList, associdList, clusterList, duplicates, groupidList, partitionList, stepList
        stateList, usageEnd := timeOf usageEnd, usageStart := timeOf usageStart, useridList
        withoutSteps }

/-! ## What is read back -/

section Lists

variable {α β : Type} {u : Unpacker β} {enc : α → List Item} {f : α → β}

theorem unpackMany_decodes {elems : List α} (h : ∀ x ∈ elems, Decodes u (enc x) (f x)) :
    Decodes (unpackMany u elems.length) (elems.flatMap enc) (elems.map f) := by
  induction elems with
  | nil => exact Decodes.pure []
  | cons x elems ih =>
    rw [List.flatMap_cons]
    exact (h x List.mem_cons_self).append
      (ih fun y hy => h y (List.mem_cons_of_mem _ hy)).map

theorem noVal_toNat : noVal.toNat = 4294967294 := rfl

/-- A list whose count is no other thing than its length comes back, with the elements
as they come back. -/
theorem unpackList_decodes_map {list : Option (List α)}
    (h : ∀ elems, list = some elems → ∀ x ∈ elems, Decodes u (enc x) (f x))
    (hlen : ∀ elems, list = some elems → elems.length < 2147483648) :
    Decodes (unpackList u) (packList enc list) (list.map (List.map f)) := by
  cases list with
  | none =>
    have hread : Decodes (unpackList u) [.u32 noVal] none := by
      refine Decodes.u32 ?_
      rw [if_neg (not_not.mpr rfl)]
      exact Decodes.pure none
    exact hread
  | some elems =>
    have hlen := hlen elems rfl
    have hnat : (listCount (some elems)).toNat = elems.length :=
      UInt32.toNat_ofNat_of_lt' (hlen.trans (by decide))
    have hne : listCount (some elems) ≠ noVal := by
      intro hc
      rw [hc, noVal_toNat] at hnat
      omega
    refine Decodes.u32 ?_
    rw [if_pos hne, hnat]
    have hitems : (if listCount (some elems) ≠ 0 ∧ listCount (some elems) ≠ noVal then
        ((some elems).getD []).flatMap enc else []) = elems.flatMap enc := by
      by_cases hzero : listCount (some elems) = 0
      · have hnil : elems = [] := by
          have hz : (listCount (some elems)).toNat = 0 := congrArg UInt32.toNat hzero
          rw [hnat] at hz
          exact List.length_eq_zero_iff.mp hz
        rw [if_neg fun hc => hc.1 hzero, hnil]
        rfl
      · rw [if_pos ⟨hzero, hne⟩]
        rfl
    rw [hitems]
    exact (unpackMany_decodes (h elems rfl)).map

theorem unpackList_decodes {u : Unpacker α} (h : ∀ x, Decodes u (enc x) x)
    {list : Option (List α)}
    (hlen : ∀ elems, list = some elems → elems.length < 2147483648) :
    Decodes (unpackList u) (packList enc list) list := by
  have hread := unpackList_decodes_map (f := id) (fun _ _ x _ => h x) hlen
  rw [List.map_id_fun, Option.map_id] at hread
  exact hread

/-- A count that was not set anew is that of a list that is not there. -/
theorem unpackCounted_decodes {u : Unpacker α} (list : Option (List α)) :
    Decodes (unpackList u) (packCounted noVal enc list) none := by
  have hitems : packCounted noVal enc list = [.u32 noVal] := by
    rw [packCounted, if_neg fun hc => hc.2 rfl]
  rw [hitems]
  refine Decodes.u32 ?_
  rw [if_neg (not_not.mpr rfl)]
  exact Decodes.pure none

end Lists

theorem unpackstr_decodes (s : Option CString) : Decodes unpackstr (packStr s) s := by
  intro hfit
  have hread := Reads.str (hfit (.str s) List.mem_cons_self)
  rw [packStr, List.flatMap_singleton, Item.chunks, Chunk.flat_singleton]
  exact hread

theorem unpackJobacctSelectedStep_decodes (step : SelectedStep) :
    Decodes unpackJobacctSelectedStep (packJobacctSelectedStep step) step :=
  Decodes.u32 (Decodes.u32 (Decodes.pure _))

/-- The number of elements of a list is an `int`. -/
def Counted {α : Type} (list : Option (List α)) : Prop :=
  ∀ elems, list = some elems → elems.length < 2147483648

theorem Counted.strs {list : StrList} (h : Counted list) :
    Decodes (unpackList unpackstr) (packList packStr list) list :=
  unpackList_decodes unpackstr_decodes h

/-- The lists of a condition have as many elements as `list_count` can tell. -/
structure JobCond.Counted (object : JobCond) : Prop where
  acctList : AcctStorage.Counted object.acctList
  associdList : AcctStorage.Counted object.associdList
  clusterList : AcctStorage.Counted object.clusterList
  groupidList : AcctStorage.Counted object.groupidList
  partitionList : AcctStorage.Counted object.partitionList
  resvList : AcctStorage.Counted object.resvList
  resvidList : AcctStorage.Counted object.resvidList
  stepList : AcctStorage.Counted object.stepList
  stateList : AcctStorage.Counted object.stateList
  useridList : AcctStorage.Counted object.useridList
  wckeyList : AcctStorage.Counted object.wckeyList

/-- The fields that a version carries. -/
def JobCond.carried (rpcVersion : UInt16) (object : JobCond) : JobCond :=
  if rpcVersion ≥ 5 then object
  else
    let object := { object with
      resvList := none
      resvidList := none
      usedNodes := none
      withoutUsageTruncation := 0 }
    if rpcVersion ≥ 4 then object else { object with wckeyList := none }

/-- A time as it comes back. -/
def carriedTime (rpcVersion : UInt16) (time : Int64) : Int64 :=
  if rpcVersion ≥ 5 then time else timeOf time.toUInt64.toUInt32

/-- A condition as it comes back. -/
def JobCond.received (rpcVersion : UInt16) (object : JobCond) : JobCond :=
  { object.carried rpcVersion with
    wckeyList := none
    usageEnd := carriedTime rpcVersion object.usageEnd
    usageStart := carriedTime rpcVersion object.usageStart }

theorem unpackAcctJobCond_decodes (rpcVersion : UInt16) {object : JobCond} (h : object.Counted) :
    Decodes (unpackAcctJobCond rpcVersion) (packAcctJobCond rpcVersion object)
      (object.received rpcVersion) := by
  unfold unpackAcctJobCond packAcctJobCond JobCond.received JobCond.carried carriedTime
  split
  · simp only [List.flatten_cons, List.flatten_nil, List.cons_append, List.nil_append]
    refine h.acctList.strs.append ?_
    refine h.associdList.strs.append ?_
    refine h.clusterList.strs.append (Decodes.u16 ?_)
    refine h.groupidList.strs.append ?_
    refine h.partitionList.strs.append ?_
    refine h.resvList.strs.append ?_
    refine h.resvidList.strs.append ?_
    refine (unpackList_decodes unpackJobacctSelectedStep_decodes h.stepList).append ?_
    refine h.stateList.strs.append ?_
    refine Decodes.time (Decodes.time (Decodes.str ?_))
    refine h.useridList.strs.append ?_
    refine (unpackCounted_decodes object.wckeyList).append ?_
    exact Decodes.u16 (Decodes.u16 (Decodes.pure _))
  · split
    · simp only [List.flatten_cons, List.flatten_nil, List.cons_append, List.nil_append]
      refine h.acctList.strs.append ?_
      refine h.associdList.strs.append ?_
      refine h.clusterList.strs.append (Decodes.u16 ?_)
      refine h.groupidList.strs.append ?_
      refine h.partitionList.strs.append ?_
      refine (unpackList_decodes unpackJobacctSelectedStep_decodes h.stepList).append ?_
      refine h.stateList.strs.append ?_
      refine Decodes.u32 (Decodes.u32 ?_)
      refine h.useridList.strs.append ?_
      refine (unpackCounted_decodes object.wckeyList).append ?_
      exact Decodes.u16 (Decodes.pure _)
    · simp only [List.flatten_cons, List.flatten_nil, List.cons_append, List.nil_append]
      refine h.acctList.strs.append ?_
      refine h.associdList.strs.append ?_
      refine h.clusterList.strs.append (Decodes.u16 ?_)
      refine h.groupidList.strs.append ?_
      refine h.partitionList.strs.append ?_
      refine (unpackList_decodes unpackJobacctSelectedStep_decodes h.stepList).append ?_
      refine h.stateList.strs.append ?_
      refine Decodes.u32 (Decodes.u32 ?_)
      refine h.useridList.strs.append ?_
      exact Decodes.u16 (Decodes.pure _)

/-! ## Round trip -/

theorem timeOf_toInt (val : UInt32) : (timeOf val).toInt = val.toNat := by
  have hlt : val.toNat < 4294967296 := val.toNat_lt
  have hnat : val.toUInt64.toBitVec.toNat = val.toNat := UInt32.toNat_toUInt64 val
  have hint : (timeOf val).toInt = val.toUInt64.toBitVec.toInt := rfl
  rw [hint, BitVec.toInt_eq_toNat_bmod, hnat, Int.bmod_def]
  split <;> omega

/-- A time comes back from 32 bits exactly when it fits them without a sign. -/
theorem timeOf_eq_iff {time : Int64} :
    timeOf time.toUInt64.toUInt32 = time ↔ 0 ≤ time.toInt ∧ time.toInt < 4294967296 := by
  have hcut : time.toUInt64.toUInt32.toNat = time.toUInt64.toNat % 4294967296 := by simp
  have hnat : (time.toUInt64.toNat : Int) = time.toInt % 18446744073709551616 := by
    have hlt := time.toBitVec.isLt
    have hval : time.toUInt64.toNat = time.toBitVec.toNat := rfl
    have hint : time.toInt = time.toBitVec.toInt := rfl
    rw [hval, hint, BitVec.toInt_eq_toNat_bmod, Int.bmod_def]
    split <;> omega
  rw [← Int64.toInt_inj, timeOf_toInt]
  omega

/-- The bytes of the condition are read back, just they, as what the version carries. -/
def Restores (rpcVersion : UInt16) (object : JobCond) (b : Buf) : Prop :=
  ∃ b' bytes, packItems (packAcctJobCond rpcVersion object) b = some b' ∧
    b'.written = b.written ++ bytes ∧
    ∀ r : Buf, bytes <+: r.rest → ∃ r', unpackAcctJobCond rpcVersion r =
      (some (object.carried rpcVersion), r') ∧ r'.processed = r.processed + bytes.length

/-- There is no list of wckeys, and before version 5 the times fit 32 bits. -/
def JobCond.Carriable (rpcVersion : UInt16) (object : JobCond) : Prop :=
  object.wckeyList = none ∧ (rpcVersion < 5 →
    (0 ≤ object.usageEnd.toInt ∧ object.usageEnd.toInt < 4294967296) ∧
      0 ≤ object.usageStart.toInt ∧ object.usageStart.toInt < 4294967296)

instance (rpcVersion : UInt16) (object : JobCond) : Decidable (object.Carriable rpcVersion) :=
  inferInstanceAs (Decidable (_ ∧ (_ → _)))

theorem received_eq_iff {rpcVersion : UInt16} (hversion : 4 ≤ rpcVersion) (object : JobCond) :
    object.received rpcVersion = object.carried rpcVersion ↔ object.Carriable rpcVersion := by
  unfold JobCond.received JobCond.carried carriedTime JobCond.Carriable
  by_cases h5 : rpcVersion ≥ 5
  · have hnot : ¬rpcVersion < 5 := UInt16.not_lt.mpr h5
    simp only [if_pos h5, and_true, hnot, false_implies]
    constructor
    · exact fun heq => (congrArg JobCond.wckeyList heq).symm
    · intro hnone
      rw [← hnone]
  · have hlt : rpcVersion < 5 := UInt16.not_le.mp h5
    simp only [if_neg h5, if_pos hversion, JobCond.mk.injEq, true_and, and_true, timeOf_eq_iff,
      ge_iff_le, hlt, true_implies]
    constructor
    · exact fun ⟨hend, hstart, hnone⟩ => ⟨hnone.symm, hend, hstart⟩
    · exact fun ⟨hnone, hend, hstart⟩ => ⟨hend, hstart, hnone.symm⟩

/-- What comes back is what the version carries. -/
theorem Restores.received_eq {rpcVersion : UInt16} {object : JobCond} {b : Buf}
    (hcounts : object.Counted)
    (hg : Granted b.size b.processed ((packAcctJobCond rpcVersion object).flatMap Item.chunks))
    (h : Restores rpcVersion object b) :
    object.received rpcVersion = object.carried rpcVersion := by
  have hread : ReadsBack (unpackAcctJobCond rpcVersion) (packAcctJobCond rpcVersion object)
    (object.carried rpcVersion) b := h
  exact (hread.eq_of_decodes (unpackAcctJobCond_decodes rpcVersion hcounts) hg).symm

/-- From version 4 on, a condition that fits its buffer comes back exactly when there
is no list of wckeys and its times fit the version. -/
theorem restores_iff {rpcVersion : UInt16} {object : JobCond} {b : Buf}
    (hversion : 4 ≤ rpcVersion) (hcounts : object.Counted)
    (hg : Granted b.size b.processed ((packAcctJobCond rpcVersion object).flatMap Item.chunks)) :
    Restores rpcVersion object b ↔ object.Carriable rpcVersion := by
  rw [← received_eq_iff hversion]
  refine ⟨fun h => h.received_eq hcounts hg, fun heq => ?_⟩
  have hread := (unpackAcctJobCond_decodes rpcVersion hcounts).readsBack hg
  rw [heq] at hread
  exact hread

/-- A query for the steps of two accounts. -/
def accountsQuery : JobCond where
  acctList := some [some (CString.ofBytes [97]), some (CString.ofBytes [98])]
  stepList := some [⟨7, 4294967294⟩]
  usageStart := 1000

theorem accountsQuery_counted : accountsQuery.Counted := by
  have hnone : ∀ {α : Type}, Counted (none : Option (List α)) := fun elems hc => by cases hc
  refine ⟨fun elems hc => ?_, hnone, hnone, hnone, hnone, hnone, hnone, fun elems hc => ?_, hnone,
    hnone, hnone⟩
  · rw [← Option.some.inj hc]
    decide
  · rw [← Option.some.inj hc]
    decide

theorem restores_iff_accountsQuery : ∃ b, initBuf 0 = some b ∧ Restores 4 accountsQuery b := by
  have hg : Granted 16384 0 ((packAcctJobCond 4 accountsQuery).flatMap Item.chunks) := by
    decide +kernel
  obtain ⟨b, hb, hsize, hproc⟩ := initBuf_zero
  refine ⟨b, hb, (restores_iff (by decide) accountsQuery_counted ?_).mpr (by decide +kernel)⟩
  rw [hsize, hproc]
  exact hg

/-- A query for one wckey comes back as one for all of them. -/
theorem not_restores_wckey :
    ¬∀ (rpcVersion : UInt16) (object : JobCond) (b : Buf), 4 ≤ rpcVersion → object.Counted →
      Granted b.size b.processed ((packAcctJobCond rpcVersion object).flatMap Item.chunks) →
      Restores rpcVersion object b := by
  intro hall
  have hnone : ∀ {α : Type}, Counted (none : Option (List α)) := fun elems hc => by cases hc
  have hcounts : JobCond.Counted { wckeyList := some [some (CString.ofBytes [119])] } := by
    refine ⟨hnone, hnone, hnone, hnone, hnone, hnone, hnone, hnone, hnone, hnone,
      fun elems hc => ?_⟩
    rw [← Option.some.inj hc]
    decide
  have hg : Granted 16384 0 ((packAcctJobCond 5
      { wckeyList := some [some (CString.ofBytes [119])] }).flatMap Item.chunks) := by
    decide +kernel
  obtain ⟨b, -, hsize, hproc⟩ := initBuf_zero
  have hg' : Granted b.size b.processed ((packAcctJobCond 5
      { wckeyList := some [some (CString.ofBytes [119])] }).flatMap Item.chunks) := by
    rw [hsize, hproc]
    exact hg
  have heq := (hall 5 _ b (by decide) hcounts hg').received_eq hcounts hg'
  exact absurd (congrArg JobCond.wckeyList heq) (by decide)

end Slurm.AcctStorage
