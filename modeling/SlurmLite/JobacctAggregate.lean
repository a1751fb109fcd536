import SlurmLite.JobacctCommon
import SlurmLite.Base.Best

/-!
# Aggregating accounting records

`jobacct_common_aggregate` of `jobacct_common.c`, called with one record after
another and the fresh record of `jobacct_common_init_struct`.

* **Times** (`times_final`): the seconds and microseconds of every order.
* **Peaks** (`laws_larger`) and **least time** (`laws_minCpu`): each field is a
  race for the best value and its owner.
* **Orders** (`orderFree_iff`): the collections whose result no order changes.
-/

namespace Slurm.Jobacct

open Base.Best

deriving instance DecidableEq for JobacctId

/-- `struct jobacctinfo`, less the process id, which no aggregation reads. -/
structure Jobacctinfo where
  sysCpuSec : UInt32
  sysCpuUsec : UInt32
  userCpuSec : UInt32
  userCpuUsec : UInt32
  maxVsize : UInt32
  maxVsizeId : JobacctId
  totVsize : UInt32
  maxRss : UInt32
  maxRssId : JobacctId
  totRss : UInt32
  maxPages : UInt32
  maxPagesId : JobacctId
  totPages : UInt32
  minCpu : UInt32
  minCpuId : JobacctId
  totCpu : UInt32
deriving DecidableEq

/-- The id of no task. -/
def JobacctId.unset : JobacctId := ⟨noVal.toUInt16, noVal⟩

/-- What each copy of `temp_id` finds: the block that declares it has ended by then. -/
structure TempIds where
  maxVsizeId : JobacctId
  maxRssId : JobacctId
  maxPagesId : JobacctId
  minCpuId : JobacctId

/-- What was written to `temp_id` is still there. -/
def TempIds.unset : TempIds := ⟨.unset, .unset, .unset, .unset⟩

/-- `jobacct_common_init_struct`. -/
def jobacctCommonInitStruct (jobacctId : Option JobacctId) (temp : TempIds) : Jobacctinfo :=
  { sysCpuSec := 0, sysCpuUsec := 0, userCpuSec := 0, userCpuUsec := 0
    maxVsize := 0, maxVsizeId := jobacctId.getD temp.maxVsizeId, totVsize := 0
    maxRss := 0, maxRssId := jobacctId.getD temp.maxRssId, totRss := 0
    maxPages := 0, maxPagesId := jobacctId.getD temp.maxPagesId, totPages := 0
    minCpu := noVal, minCpuId := jobacctId.getD temp.minCpuId, totCpu := 0 }

/-- The larger of two values with the id that goes with it. -/
def larger (dest from_ : UInt32 × JobacctId) : UInt32 × JobacctId :=
  if dest.1 < from_.1 then from_ else dest

/-- An id that is not set is taken over. -/
def fillId (dest from_ : JobacctId) : JobacctId :=
  if dest.taskid = noVal.toUInt16 then from_ else dest

/-- `while (usec >= 1E6) { sec++; usec -= 1E6; }`, for at most so many turns. -/
def carry : Nat → UInt32 → UInt32 → UInt32 × UInt32
  | 0, sec, usec => (sec, usec)
  | turns + 1, sec, usec =>
    if 1000000 ≤ usec then carry turns (sec + 1) (usec - 1000000) else (sec, usec)

/-- More turns than a microsecond field can take. -/
def carryTurns : Nat := 4295

/-- The test that makes `dest` take the least time of `from`. -/
def takesMin (dest from_ : UInt32) : Prop := from_ < dest ∨ dest = noVal

instance (dest from_ : UInt32) : Decidable (takesMin dest from_) :=
  inferInstanceAs (Decidable (_ ∨ _))

/-- `jobacct_common_aggregate`: `dest` and `from` afterwards. -/
def jobacctCommonAggregate (dest from_ : Jobacctinfo) : Jobacctinfo × Jobacctinfo :=
  let vsize := larger (dest.maxVsize, dest.maxVsizeId) (from_.maxVsize, from_.maxVsizeId)
  let rss := larger (dest.maxRss, dest.maxRssId) (from_.maxRss, from_.maxRssId)
  let pages := larger (dest.maxPages, dest.maxPagesId) (from_.maxPages, from_.maxPagesId)
  let taken := takesMin dest.minCpu from_.minCpu
  -- a least time that is not set is set to zero before it is taken
  let fromMin := if taken ∧ from_.minCpu = noVal then 0 else from_.minCpu
  let min := if taken then (fromMin, from_.minCpuId) else (dest.minCpu, dest.minCpuId)
  let user := carry carryTurns (dest.userCpuSec + from_.userCpuSec)
    (dest.userCpuUsec + from_.userCpuUsec)
  let sys := carry carryTurns (dest.sysCpuSec + from_.sysCpuSec)
    (dest.sysCpuUsec + from_.sysCpuUsec)
  ({ sysCpuSec := sys.1, sysCpuUsec := sys.2, userCpuSec := user.1, userCpuUsec := user.2
     maxVsize := vsize.1, maxVsizeId := fillId vsize.2 from_.maxVsizeId
     totVsize := dest.totVsize + from_.totVsize
     maxRss := rss.1, maxRssId := fillId rss.2 from_.maxRssId
     totRss := dest.totRss + from_.totRss
     maxPages := pages.1, maxPagesId := fillId pages.2 from_.maxPagesId
     totPages := dest.totPages + from_.totPages
     minCpu := min.1, minCpuId := fillId min.2 from_.minCpuId
     totCpu := dest.totCpu + from_.totCpu },
   { from_ with minCpu := fromMin })

/-- The record after one more call. -/
def aggregated (dest from_ : Jobacctinfo) : Jobacctinfo := (jobacctCommonAggregate dest from_).1

/-- A collection aggregated in its order into a fresh record. -/
def aggregateAll (temp : TempIds) (rs : List Jobacctinfo) : Jobacctinfo :=
  rs.foldl aggregated (jobacctCommonInitStruct none temp)

/-- The task an id names, if any. -/
def JobacctId.owner (id : JobacctId) : Option JobacctId :=
  if id.taskid = noVal.toUInt16 then none else some id

/-! ## Times -/

theorem carry_spec {turns : Nat} {sec usec : UInt32} (h : usec.toNat < turns * 1000000 + 1000000) :
    (carry turns sec usec).2.toNat = usec.toNat % 1000000 ∧
      (carry turns sec usec).1.toNat = (sec.toNat + usec.toNat / 1000000) % 4294967296 := by
  have hmillion : (1000000 : UInt32).toNat = 1000000 := rfl
  induction turns generalizing sec usec with
  | zero =>
    have hsec := sec.toNat_lt
    refine ⟨?_, ?_⟩
    · show usec.toNat = _
      omega
    · show sec.toNat = _
      omega
  | succ turns ih =>
    rw [carry]
    split
    · rename_i hle
      have hle' := UInt32.le_iff_toNat_le.mp hle
      rw [hmillion] at hle'
      have hsub : (usec - 1000000).toNat = usec.toNat - 1000000 := by
        rw [UInt32.toNat_sub_of_le _ _ hle, hmillion]
      have hadd : (sec + 1).toNat = (sec.toNat + 1) % 4294967296 := by
        rw [UInt32.toNat_add]
        rfl
      have hrec := @ih (sec + 1) (usec - 1000000) (by omega)
      rw [hsub, hadd] at hrec
      omega
    · rename_i hlt
      have hlt' : usec.toNat < 1000000 := by
        have := UInt32.le_iff_toNat_le.not.mp hlt
        rw [hmillion] at this
        omega
      have hsec := sec.toNat_lt
      refine ⟨?_, ?_⟩
      · show usec.toNat = _
        omega
      · show sec.toNat = _
        omega

/-- Seconds and microseconds as microseconds. -/
def micros (sec usec : UInt32) : Nat := sec.toNat * 1000000 + usec.toNat

theorem micros_carry {s t u v : UInt32} (hu : u.toNat < 1000000) (hv : v.toNat < 1000000) :
    (carry carryTurns (s + t) (u + v)).2.toNat < 1000000 ∧
      micros (carry carryTurns (s + t) (u + v)).1 (carry carryTurns (s + t) (u + v)).2 =
        (micros s u + micros t v) % 4294967296000000 := by
  have huv : (u + v).toNat = u.toNat + v.toNat := by
    rw [UInt32.toNat_add]
    omega
  have hst : (s + t).toNat = (s.toNat + t.toNat) % 4294967296 := by
    rw [UInt32.toNat_add]
  obtain ⟨h2, h1⟩ := @carry_spec carryTurns (s + t) (u + v) (by unfold carryTurns; omega)
  rw [huv] at h1 h2
  rw [hst] at h1
  unfold micros
  omega

/-- The microsecond fields are below a million. -/
def Normal (r : Jobacctinfo) : Prop :=
  r.userCpuUsec.toNat < 1000000 ∧ r.sysCpuUsec.toNat < 1000000

/-- The user and the system time of a record, in microseconds. -/
def userTime (r : Jobacctinfo) : Nat := micros r.userCpuSec r.userCpuUsec
def sysTime (r : Jobacctinfo) : Nat := micros r.sysCpuSec r.sysCpuUsec

theorem aggregated_times {dest from_ : Jobacctinfo} (hd : Normal dest) (hf : Normal from_) :
    Normal (aggregated dest from_) ∧
      userTime (aggregated dest from_) =
        (userTime dest + userTime from_) % 4294967296000000 ∧
      sysTime (aggregated dest from_) = (sysTime dest + sysTime from_) % 4294967296000000 := by
  obtain ⟨hu, hut⟩ := micros_carry (s := dest.userCpuSec) (t := from_.userCpuSec) hd.1 hf.1
  obtain ⟨hs, hst⟩ := micros_carry (s := dest.sysCpuSec) (t := from_.sysCpuSec) hd.2 hf.2
  exact ⟨⟨hu, hs⟩, hut, hst⟩

/-- The times after a collection, in any order. -/
theorem times_final {temp : TempIds} {rs : List Jobacctinfo} (hrs : ∀ r ∈ rs, Normal r) :
    Normal (aggregateAll temp rs) ∧
      userTime (aggregateAll temp rs) = (rs.map userTime).sum % 4294967296000000 ∧
      sysTime (aggregateAll temp rs) = (rs.map sysTime).sum % 4294967296000000 := by
  have hrun : ∀ (xs : List Jobacctinfo) (d : Jobacctinfo), Normal d → (∀ x ∈ xs, Normal x) →
      Normal (xs.foldl aggregated d) ∧
        userTime (xs.foldl aggregated d) =
          (userTime d + (xs.map userTime).sum) % 4294967296000000 ∧
        sysTime (xs.foldl aggregated d) =
          (sysTime d + (xs.map sysTime).sum) % 4294967296000000 := by
    intro xs
    induction xs with
    | nil =>
      intro d hd _
      have hu := d.userCpuSec.toNat_lt
      have hs := d.sysCpuSec.toNat_lt
      refine ⟨hd, ?_, ?_⟩
      · simp only [List.foldl_nil, List.map_nil, List.sum_nil]
        have := hd.1
        unfold userTime micros
        omega
      · simp only [List.foldl_nil, List.map_nil, List.sum_nil]
        have := hd.2
        unfold sysTime micros
        omega
    | cons x xs ih =>
      intro d hd hxs
      obtain ⟨hn, hu, hs⟩ := aggregated_times hd (hxs x List.mem_cons_self)
      obtain ⟨hn', hu', hs'⟩ := ih _ hn fun y hy => hxs y (List.mem_cons_of_mem _ hy)
      refine ⟨hn', ?_, ?_⟩
      · rw [List.foldl_cons, hu', hu, List.map_cons, List.sum_cons]
        omega
      · rw [List.foldl_cons, hs', hs, List.map_cons, List.sum_cons]
        omega
  obtain ⟨hn, hu, hs⟩ := hrun rs (jobacctCommonInitStruct none temp)
    ⟨Nat.succ_pos _, Nat.succ_pos _⟩ hrs
  have hu0 : userTime (jobacctCommonInitStruct none temp) = 0 := by
    simp [userTime, micros, jobacctCommonInitStruct]
  have hs0 : sysTime (jobacctCommonInitStruct none temp) = 0 := by
    simp [sysTime, micros, jobacctCommonInitStruct]
  rw [hu0, Nat.zero_add] at hu
  rw [hs0, Nat.zero_add] at hs
  exact ⟨hn, hu, hs⟩

/-- A total that is added up ends the same in every order. -/
theorem total_perm {temp : TempIds} {f : Jobacctinfo → UInt32}
    (hf : ∀ dest from_, f (aggregated dest from_) = f dest + f from_) {xs ys : List Jobacctinfo}
    (h : xs.Perm ys) : f (aggregateAll temp xs) = f (aggregateAll temp ys) := by
  have hfold : ∀ (zs : List Jobacctinfo) (d : Jobacctinfo),
      f (zs.foldl aggregated d) = zs.foldl (fun t r => t + f r) (f d) := by
    intro zs
    induction zs with
    | nil => exact fun _ => rfl
    | cons z zs ih =>
      intro d
      rw [List.foldl_cons, List.foldl_cons, ih, hf]
  rw [aggregateAll, aggregateAll, hfold, hfold]
  refine h.foldl_eq' (fun x _ y _ t => ?_) _
  rw [UInt32.add_assoc, UInt32.add_assoc, UInt32.add_comm (f x)]

/-! ## The races -/

variable {temp : TempIds}

/-- The race of a field, told by the ids it keeps. -/
def race (temp : TempIds) (id : Jobacctinfo → JobacctId) : Race Jobacctinfo Jobacctinfo JobacctId where
  start := jobacctCommonInitStruct none temp
  step := aggregated
  who := fun d => (id d).owner
  own := fun r => (id r).owner

theorem owner_fillId (dest from_ : JobacctId) :
    (fillId dest from_).owner = dest.owner.or from_.owner := by
  unfold fillId JobacctId.owner
  split
  · rw [Option.none_or]
  · rename_i hset
    exact (Option.some_or).symm

theorem owner_fillId_self (id : JobacctId) : (fillId id id).owner = id.owner := by
  rw [owner_fillId]
  cases id.owner <;> rfl

/-- A record with the largest value of a field. -/
def Largest (f : Jobacctinfo → UInt32) (rs : List Jobacctinfo) (r : Jobacctinfo) : Prop :=
  ∀ s ∈ rs, f s ≤ f r

/-- A field that keeps the larger value and the id with it. -/
structure IsPeak (f : Jobacctinfo → UInt32) (id : Jobacctinfo → JobacctId) : Prop where
  value : ∀ dest from_, f (aggregated dest from_) = if f dest < f from_ then f from_ else f dest
  taker : ∀ dest from_, id (aggregated dest from_) =
    fillId (if f dest < f from_ then id from_ else id dest) (id from_)
  fresh : ∀ temp, f (jobacctCommonInitStruct none temp) = 0
  unset : (id (jobacctCommonInitStruct none .unset)).owner = none

theorem larger_fst (dest from_ : UInt32 × JobacctId) :
    (larger dest from_).1 = if dest.1 < from_.1 then from_.1 else dest.1 := by
  unfold larger
  split <;> rfl

theorem larger_snd (dest from_ : UInt32 × JobacctId) :
    (larger dest from_).2 = if dest.1 < from_.1 then from_.2 else dest.2 := by
  unfold larger
  split <;> rfl

theorem isPeak_maxVsize : IsPeak Jobacctinfo.maxVsize Jobacctinfo.maxVsizeId where
  value _ _ := larger_fst _ _
  taker _ _ := congrArg (fillId · _) (larger_snd _ _)
  fresh _ := rfl
  unset := rfl

theorem isPeak_maxRss : IsPeak Jobacctinfo.maxRss Jobacctinfo.maxRssId where
  value _ _ := larger_fst _ _
  taker _ _ := congrArg (fillId · _) (larger_snd _ _)
  fresh _ := rfl
  unset := rfl

theorem isPeak_maxPages : IsPeak Jobacctinfo.maxPages Jobacctinfo.maxPagesId where
  value _ _ := larger_fst _ _
  taker _ _ := congrArg (fillId · _) (larger_snd _ _)
  fresh _ := rfl
  unset := rfl

theorem exists_largest (f : Jobacctinfo → UInt32) {rs : List Jobacctinfo} (hne : rs ≠ []) :
    ∃ r ∈ rs, Largest f rs r := by
  obtain ⟨r, hr, hmax⟩ := Finset.exists_max_image rs.toFinset (fun r => (f r).toNat)
    (by simpa using hne)
  exact ⟨r, List.mem_toFinset.mp hr, fun s hs =>
    UInt32.le_iff_toNat_le.mpr (hmax s (List.mem_toFinset.mpr hs))⟩

/-- A peak is a race for the largest value, unless the fresh record has an owner and no value is
above the 0 it starts with. -/
theorem IsPeak.laws {f : Jobacctinfo → UInt32} {id : Jobacctinfo → JobacctId} (hp : IsPeak f id)
    {rs : List Jobacctinfo}
    (hstart : (id (jobacctCommonInitStruct none temp)).owner = none ∨ ∃ r ∈ rs, 0 < f r) :
    Laws (race temp id) (fun s => ∀ r ∈ rs, f r ≤ f s) (Largest f rs) rs := by
  have hless : ∀ {s r}, f s < f r → f (aggregated s r) = f r ∧
      (id (aggregated s r)).owner = (id r).owner := by
    intro s r h
    rw [hp.value, hp.taker, if_pos h, if_pos h]
    exact ⟨rfl, owner_fillId_self _⟩
  have hmore : ∀ {s r}, ¬f s < f r → f (aggregated s r) = f s ∧
      (id (aggregated s r)).owner = (id s).owner.or (id r).owner := by
    intro s r h
    rw [hp.value, hp.taker, if_neg h, if_neg h]
    exact ⟨rfl, owner_fillId _ _⟩
  refine ⟨?_, ?_, ?_, ?_, ?_⟩
  · intro r hr hh
    by_cases h : f (jobacctCommonInitStruct none temp) < f r
    · obtain ⟨hv, ho⟩ := hless h
      exact ⟨fun s hs => hv ▸ hh s hs, ho⟩
    · obtain ⟨hv, ho⟩ := hmore h
      have hle : f r ≤ f (jobacctCommonInitStruct none temp) := UInt32.not_lt.mp h
      have hnone : (id (jobacctCommonInitStruct none temp)).owner = none := by
        refine hstart.resolve_right fun ⟨s, hs, hpos⟩ => ?_
        rw [hp.fresh] at hle
        exact UInt32.not_lt.mpr (UInt32.le_trans (hh s hs) hle) hpos
      rw [hnone, Option.none_or] at ho
      exact ⟨fun s hs => hv ▸ UInt32.le_trans (hh s hs) hle, ho⟩
  · intro s r hr hat
    have h : ¬f s < f r := UInt32.not_lt.mpr (hat r hr)
    obtain ⟨hv, ho⟩ := hmore h
    exact ⟨fun t ht => hv ▸ hat t ht, ho⟩
  · intro s r hr hnot hat
    have h : f s < f r := by
      by_contra hge
      obtain ⟨hv, -⟩ := hmore hge
      exact hnot fun t ht => hv ▸ hat t ht
    obtain ⟨hv, ho⟩ := hless h
    exact ⟨fun t ht => hv ▸ hat t ht, ho⟩
  · rintro ⟨h, hmem, hh⟩
    refine ⟨h, hmem, hh, fun xs _ hnot => ?_⟩
    push Not at hnot
    obtain ⟨r, hr, hlt⟩ := hnot
    have hlt' : f ((race temp id).final xs) < f h :=
        UInt32.lt_of_lt_of_le (UInt32.not_le.mp hlt) (hh r hr)
    obtain ⟨hv, ho⟩ := hless hlt'
    exact ⟨fun t ht => hv ▸ hh t ht, ho⟩
  · intro hat r _ s hs
    have hzero : f s ≤ 0 := hp.fresh temp ▸ hat s hs
    exact UInt32.le_trans hzero UInt32.zero_le

/-- The largest value, in any order. -/
theorem IsPeak.value_perm {f : Jobacctinfo → UInt32} {id : Jobacctinfo → JobacctId}
    (hp : IsPeak f id) {xs ys : List Jobacctinfo} (h : xs.Perm ys) :
    f (aggregateAll temp xs) = f (aggregateAll temp ys) := by
  have hfold : ∀ (zs : List Jobacctinfo) (d : Jobacctinfo),
      (f (zs.foldl aggregated d)).toNat = zs.foldl (fun m r => max m (f r).toNat) (f d).toNat := by
    intro zs
    induction zs with
    | nil => exact fun _ => rfl
    | cons z zs ih =>
      intro d
      have hmax : (f (aggregated d z)).toNat = max (f d).toNat (f z).toNat := by
        rw [hp.value]
        split
        · rename_i hlt
          exact (max_eq_right (UInt32.lt_iff_toNat_lt.mp hlt).le).symm
        · rename_i hge
          exact (max_eq_left (UInt32.le_iff_toNat_le.mp (UInt32.not_lt.mp hge))).symm
      rw [List.foldl_cons, List.foldl_cons, ih, hmax]
  apply UInt32.toNat_inj.mp
  rw [aggregateAll, aggregateAll, hfold, hfold]
  exact h.foldl_eq' (fun x _ y _ m => max_right_comm m (f x).toNat (f y).toNat) _

/-! ## The least time -/

/-- The least time of a record as it is taken: one that is not set is zero. -/
def readMin (r : Jobacctinfo) : UInt32 := if r.minCpu = noVal then 0 else r.minCpu

/-- A record with the smallest least time. -/
def Smallest (rs : List Jobacctinfo) (r : Jobacctinfo) : Prop := ∀ s ∈ rs, readMin r ≤ readMin s

/-- No record without a least time stands beside one that has a proper one. -/
def MinSettled (rs : List Jobacctinfo) : Prop :=
  (∀ r ∈ rs, r.minCpu ≠ noVal) ∨ (∃ r ∈ rs, r.minCpu = 0) ∨ (∀ r ∈ rs, noVal ≤ r.minCpu)

instance (rs : List Jobacctinfo) : Decidable (MinSettled rs) :=
  inferInstanceAs (Decidable (_ ∨ _ ∨ _))

theorem readMin_ne_noVal (r : Jobacctinfo) : readMin r ≠ noVal := by
  unfold readMin
  split
  · decide
  · assumption

theorem aggregated_minCpu (d r : Jobacctinfo) : (aggregated d r).minCpu =
    (if takesMin d.minCpu r.minCpu then
      ((if takesMin d.minCpu r.minCpu ∧ r.minCpu = noVal then 0 else r.minCpu), r.minCpuId)
    else (d.minCpu, d.minCpuId)).1 := rfl

theorem aggregated_minCpuId (d r : Jobacctinfo) : (aggregated d r).minCpuId = fillId
    (if takesMin d.minCpu r.minCpu then
      ((if takesMin d.minCpu r.minCpu ∧ r.minCpu = noVal then 0 else r.minCpu), r.minCpuId)
    else (d.minCpu, d.minCpuId)).2 r.minCpuId := rfl

theorem aggregated_of_takesMin {d r : Jobacctinfo} (h : takesMin d.minCpu r.minCpu) :
    (aggregated d r).minCpu = readMin r ∧
      (aggregated d r).minCpuId.owner = r.minCpuId.owner := by
  rw [aggregated_minCpu, aggregated_minCpuId, if_pos h]
  refine ⟨?_, owner_fillId_self _⟩
  show (if takesMin d.minCpu r.minCpu ∧ r.minCpu = noVal then (0 : UInt32) else r.minCpu) = _
  unfold readMin
  by_cases hr : r.minCpu = noVal
  · rw [if_pos ⟨h, hr⟩, if_pos hr]
  · rw [if_neg fun hc => hr hc.2, if_neg hr]

theorem aggregated_of_not_takesMin {d r : Jobacctinfo} (h : ¬takesMin d.minCpu r.minCpu) :
    (aggregated d r).minCpu = d.minCpu ∧
      (aggregated d r).minCpuId.owner = d.minCpuId.owner.or r.minCpuId.owner := by
  rw [aggregated_minCpu, aggregated_minCpuId, if_neg h]
  exact ⟨rfl, owner_fillId _ _⟩

/-- The least time is not set before the first record, and one of the records
gives it afterwards. -/
theorem minCpu_final {rs : List Jobacctinfo} :
    (aggregateAll temp rs).minCpu = noVal ∧ rs = [] ∨
      ∃ r ∈ rs, (aggregateAll temp rs).minCpu = readMin r := by
  induction rs using List.reverseRecOn with
  | nil => exact Or.inl ⟨rfl, rfl⟩
  | append_singleton rs r ih =>
    right
    have hstep : aggregateAll temp (rs ++ [r]) = aggregated (aggregateAll temp rs) r := by
      rw [aggregateAll, List.foldl_append]
      rfl
    by_cases h : takesMin (aggregateAll temp rs).minCpu r.minCpu
    · exact ⟨r, List.mem_append_right _ List.mem_cons_self,
        hstep ▸ (aggregated_of_takesMin h).1⟩
    · obtain ⟨hnone, -⟩ | ⟨s, hs, hv⟩ := ih
      · exact absurd (Or.inr hnone) h
      · exact ⟨s, List.mem_append_left _ hs,
          (hstep ▸ (aggregated_of_not_takesMin h).1).trans hv⟩

theorem exists_smallest {rs : List Jobacctinfo} (hne : rs ≠ []) : ∃ r ∈ rs, Smallest rs r := by
  obtain ⟨r, hr, hmin⟩ := Finset.exists_min_image rs.toFinset (fun r => (readMin r).toNat)
    (by simpa using hne)
  exact ⟨r, List.mem_toFinset.mp hr, fun s hs =>
    UInt32.le_iff_toNat_le.mpr (hmin s (List.mem_toFinset.mpr hs))⟩

/-- A record that brings the smallest least time after any others. -/
theorem MinSettled.exists_taken {rs : List Jobacctinfo} (hset : MinSettled rs)
    (hex : ∃ r ∈ rs, Smallest rs r) :
    ∃ h ∈ rs, Smallest rs h ∧ ∀ xs : List Jobacctinfo, (∀ x ∈ xs, x ∈ rs) →
      ¬((aggregateAll temp xs).minCpu ≠ noVal ∧
        ∀ r ∈ rs, (aggregateAll temp xs).minCpu ≤ readMin r) →
      takesMin (aggregateAll temp xs).minCpu h.minCpu := by
  have hmore : ∀ xs : List Jobacctinfo,
      ¬((aggregateAll temp xs).minCpu ≠ noVal ∧
        ∀ r ∈ rs, (aggregateAll temp xs).minCpu ≤ readMin r) →
      (aggregateAll temp xs).minCpu ≠ noVal →
      ∃ r ∈ rs, readMin r < (aggregateAll temp xs).minCpu := by
    intro xs hnot hne
    by_contra hno
    push Not at hno
    exact hnot ⟨hne, fun r hr => UInt32.not_lt.mp (hno r hr)⟩
  by_cases hnone : ∃ u ∈ rs, u.minCpu = noVal
  · obtain ⟨u, hu, hunset⟩ := hnone
    have hread : readMin u = 0 := by rw [readMin, if_pos hunset]
    obtain hall | ⟨z, hz, hzero⟩ | hhigh := hset
    · exact absurd hunset (hall u hu)
    · -- a least time of zero is below every other
      refine ⟨z, hz, ?_, ?_⟩
      · intro s _
        have : readMin z = 0 := by rw [readMin, hzero]; rfl
        rw [this]
        exact UInt32.zero_le
      · intro xs _ hnot
        by_cases hne : (aggregateAll temp xs).minCpu = noVal
        · exact Or.inr hne
        · obtain ⟨r, _, hlt⟩ := hmore xs hnot hne
          refine Or.inl ?_
          rw [hzero]
          exact UInt32.lt_of_le_of_lt UInt32.zero_le hlt
    · -- the values are above the mark of no value, so that one is taken as zero
      refine ⟨u, hu, ?_, ?_⟩
      · intro s _
        rw [hread]
        exact UInt32.zero_le
      · intro xs hxs hnot
        by_cases hne : (aggregateAll temp xs).minCpu = noVal
        · exact Or.inr hne
        · obtain ⟨r, _, hlt⟩ := hmore xs hnot hne
          obtain ⟨hnone', -⟩ | ⟨x, hx, hv⟩ := @minCpu_final temp xs
          · exact absurd hnone' hne
          · have hle : noVal ≤ (aggregateAll temp xs).minCpu := by
              rw [hv, readMin]
              split
              · rename_i hunset'
                have hzero : readMin x = 0 := by rw [readMin, if_pos hunset']
                rw [hv, hzero] at hlt
                exact absurd hlt (UInt32.not_lt.mpr UInt32.zero_le)
              · exact hhigh x (hxs x hx)
            refine Or.inl ?_
            rw [hunset]
            exact UInt32.lt_of_le_of_ne hle (Ne.symm hne)
  · push Not at hnone
    -- all have a least time, and the smallest of them is taken
    obtain ⟨h, hmem, hh⟩ := hex
    refine ⟨h, hmem, hh, fun xs _ hnot => ?_⟩
    by_cases hne : (aggregateAll temp xs).minCpu = noVal
    · exact Or.inr hne
    · obtain ⟨r, hr, hlt⟩ := hmore xs hnot hne
      have hread : readMin h = h.minCpu := by rw [readMin, if_neg (hnone h hmem)]
      refine Or.inl ?_
      rw [← hread]
      exact UInt32.lt_of_le_of_lt (hh r hr) hlt

/-- The least time is a race for the smallest. -/
theorem laws_minCpu {rs : List Jobacctinfo} (hset : MinSettled rs) :
    Laws (race temp Jobacctinfo.minCpuId)
      (fun s => s.minCpu ≠ noVal ∧ ∀ r ∈ rs, s.minCpu ≤ readMin r) (Smallest rs) rs := by
  refine ⟨?_, ?_, ?_, ?_, ?_⟩
  · intro r hr hh
    obtain ⟨hv, ho⟩ := @aggregated_of_takesMin (jobacctCommonInitStruct none temp) r (Or.inr rfl)
    exact ⟨⟨hv ▸ readMin_ne_noVal r, fun s hs => hv ▸ hh s hs⟩, ho⟩
  · intro s r hr hat
    have h : ¬takesMin s.minCpu r.minCpu := by
      rintro (hlt | hnone)
      · have hle := hat.2 r hr
        unfold readMin at hle
        split at hle
        · rename_i hunset
          rw [hunset] at hlt
          exact UInt32.lt_irrefl _
            (UInt32.lt_of_lt_of_le (UInt32.lt_of_lt_of_le (by decide) (UInt32.le_of_lt hlt)) hle)
        · exact UInt32.not_lt.mpr hle hlt
      · exact hat.1 hnone
    obtain ⟨hv, ho⟩ := aggregated_of_not_takesMin h
    exact ⟨⟨hv ▸ hat.1, fun t ht => hv ▸ hat.2 t ht⟩, ho⟩
  · intro s r hr hnot hat
    have h : takesMin s.minCpu r.minCpu := by
      by_contra hno
      obtain ⟨hv, -⟩ := aggregated_of_not_takesMin hno
      exact hnot ⟨hv ▸ hat.1, fun t ht => hv ▸ hat.2 t ht⟩
    obtain ⟨hv, ho⟩ := aggregated_of_takesMin h
    exact ⟨fun t ht => hv ▸ hat.2 t ht, ho⟩
  · intro hex
    obtain ⟨h, hmem, hh, htake⟩ := hset.exists_taken hex
    refine ⟨h, hmem, hh, fun xs hxs hnot => ?_⟩
    obtain ⟨hv, ho⟩ := aggregated_of_takesMin (htake xs hxs hnot)
    exact ⟨⟨hv ▸ readMin_ne_noVal h, fun t ht => hv ▸ hh t ht⟩, ho⟩
  · intro hat
    exact absurd rfl hat.1

/-- A least time of 0 is never replaced. -/
theorem minCpu_foldl_zero {zs : List Jobacctinfo} {d : Jobacctinfo} (hd : d.minCpu = 0) :
    (zs.foldl aggregated d).minCpu = 0 := by
  induction zs generalizing d with
  | nil => exact hd
  | cons z zs ih =>
    refine ih ((@aggregated_of_not_takesMin d z ?_).1.trans hd)
    rintro (hlt | hnone)
    · rw [hd] at hlt
      exact UInt32.not_lt.mpr UInt32.zero_le hlt
    · rw [hd] at hnone
      exact absurd hnone (by decide)

/-- Records that have no least time of 0 bring none. -/
theorem minCpu_foldl_ne_zero {zs : List Jobacctinfo} {d : Jobacctinfo}
    (hzero : ∀ z ∈ zs, z.minCpu ≠ 0) (hd : d.minCpu ≠ 0) (hlt : d.minCpu < noVal) :
    (zs.foldl aggregated d).minCpu ≠ 0 := by
  induction zs generalizing d with
  | nil => exact hd
  | cons z zs ih =>
    have hrest : ∀ y ∈ zs, y.minCpu ≠ 0 := fun y hy => hzero y (List.mem_cons_of_mem _ hy)
    by_cases ht : takesMin d.minCpu z.minCpu
    · have hz : z.minCpu < d.minCpu := by
        obtain hz | hnone := ht
        · exact hz
        · rw [hnone] at hlt
          exact absurd hlt (UInt32.lt_irrefl _)
      have hset : z.minCpu ≠ noVal := by
        intro hnone
        rw [hnone] at hz
        exact UInt32.lt_asymm hz hlt
      have hnew : (aggregated d z).minCpu = z.minCpu := by
        rw [(aggregated_of_takesMin ht).1, readMin, if_neg hset]
      refine ih hrest ?_ ?_
      · rw [hnew]
        exact hzero z List.mem_cons_self
      · rw [hnew]
        exact UInt32.lt_trans hz hlt
    · have hnew := (aggregated_of_not_takesMin ht).1
      exact ih hrest (hnew ▸ hd) (hnew ▸ hlt)

/-- A record without a least time, taken first, hides the least of the others. -/
theorem exists_orders_of_not_minSettled (temp : TempIds) {rs : List Jobacctinfo}
    (h : ¬MinSettled rs) :
    ∃ xs ys, xs.Perm rs ∧ ys.Perm rs ∧
      (aggregateAll temp xs).minCpu ≠ (aggregateAll temp ys).minCpu := by
  unfold MinSettled at h
  push Not at h
  obtain ⟨⟨u, hu, hunset⟩, hzero, v, hv, hlow⟩ := h
  have hlow' := UInt32.not_le.mp hlow
  refine ⟨u :: rs.erase u, v :: rs.erase v, (List.perm_cons_erase hu).symm,
    (List.perm_cons_erase hv).symm, ?_⟩
  have hfirst : (aggregateAll temp (u :: rs.erase u)).minCpu = 0 := by
    refine @minCpu_foldl_zero (rs.erase u) (aggregated (jobacctCommonInitStruct none temp) u) ?_
    rw [(@aggregated_of_takesMin (jobacctCommonInitStruct none temp) u (Or.inr rfl)).1, readMin,
      if_pos hunset]
  have hvread : readMin v = v.minCpu := by
    rw [readMin, if_neg]
    intro hnone
    rw [hnone] at hlow'
    exact UInt32.lt_irrefl _ hlow'
  have hvmin := (@aggregated_of_takesMin (jobacctCommonInitStruct none temp) v (Or.inr rfl)).1
  rw [hvread] at hvmin
  have hsecond : (aggregateAll temp (v :: rs.erase v)).minCpu ≠ 0 :=
    @minCpu_foldl_ne_zero (rs.erase v) (aggregated (jobacctCommonInitStruct none temp) v)
      (fun z hz => hzero z (List.mem_of_mem_erase hz)) (hvmin ▸ hzero v hv) (hvmin ▸ hlow')
  rw [hfirst]
  exact hsecond.symm

/-! ## Orders -/

/-- Two owners are the same, or both own the best value. -/
def Tie (id : Jobacctinfo → JobacctId) (Best : Jobacctinfo → Prop) (rs : List Jobacctinfo)
    (a b : Option JobacctId) : Prop :=
  a = b ∨ (∃ r ∈ rs, Best r ∧ (id r).owner = a) ∧ ∃ r ∈ rs, Best r ∧ (id r).owner = b

/-- Two results of a collection have the same maxima, minima and totals, and the
same owners up to ties. -/
structure Agrees (rs : List Jobacctinfo) (a b : Jobacctinfo) : Prop where
  maxVsize : a.maxVsize = b.maxVsize
  maxRss : a.maxRss = b.maxRss
  maxPages : a.maxPages = b.maxPages
  minCpu : a.minCpu = b.minCpu
  totVsize : a.totVsize = b.totVsize
  totRss : a.totRss = b.totRss
  totPages : a.totPages = b.totPages
  totCpu : a.totCpu = b.totCpu
  maxVsizeId : Tie Jobacctinfo.maxVsizeId (Largest Jobacctinfo.maxVsize rs) rs
    a.maxVsizeId.owner b.maxVsizeId.owner
  maxRssId : Tie Jobacctinfo.maxRssId (Largest Jobacctinfo.maxRss rs) rs
    a.maxRssId.owner b.maxRssId.owner
  maxPagesId : Tie Jobacctinfo.maxPagesId (Largest Jobacctinfo.maxPages rs) rs
    a.maxPagesId.owner b.maxPagesId.owner
  minCpuId : Tie Jobacctinfo.minCpuId (Smallest rs) rs a.minCpuId.owner b.minCpuId.owner

/-- Whatever the order and whatever ids the fresh record has, the results agree, the microseconds
are below a million and the times are the exact totals. -/
def OrderFree (rs : List Jobacctinfo) : Prop :=
  ∀ temp xs, xs.Perm rs →
    (∀ ys, ys.Perm rs → Agrees rs (aggregateAll temp xs) (aggregateAll temp ys)) ∧
    Normal (aggregateAll temp xs) ∧
    userTime (aggregateAll temp xs) = (rs.map userTime).sum ∧
    sysTime (aggregateAll temp xs) = (rs.map sysTime).sum

/-- No record with the best value of a field and no owner stands beside one with
an owner that has not the best value. -/
def OwnerSettled (id : Jobacctinfo → JobacctId) (Best : Jobacctinfo → Prop)
    (rs : List Jobacctinfo) : Prop :=
  Settled (fun r => (id r).owner) Best rs

/-- The owners of a race agree in every order exactly when they are settled. -/
theorem tie_iff {id : Jobacctinfo → JobacctId} {At Best : Jobacctinfo → Prop}
    {rs : List Jobacctinfo} (hl : Laws (race temp id) At Best rs)
    (hex : rs ≠ [] → ∃ r ∈ rs, Best r) :
    (∀ xs ys, xs.Perm rs → ys.Perm rs →
      Tie id Best rs (id (aggregateAll temp xs)).owner (id (aggregateAll temp ys)).owner) ↔
    OwnerSettled id Best rs := by
  constructor
  · intro h
    by_contra hnot
    obtain ⟨xs, ys, hxs, hys, -, -, hno, hne⟩ := hl.exists_orders_of_not_settled hnot
    obtain heq | ⟨⟨r, hr, hbest, hown⟩, -⟩ := h xs ys hxs hys
    · exact hne heq
    · exact hno r hr hbest hown
  · intro hset xs ys hxs hys
    by_cases hne : rs = []
    · subst hne
      rw [hxs.eq_nil, hys.eq_nil]
      exact Or.inl rfl
    · have hxne : xs ≠ [] := fun h => hne (h ▸ hxs).symm.eq_nil
      have hyne : ys ≠ [] := fun h => hne (h ▸ hys).symm.eq_nil
      exact Or.inr
        ⟨hl.owner_of_settled hset hxne (fun x hx => hxs.subset hx) (hl.at_final (hex hne) hxs),
          hl.owner_of_settled hset hyne (fun x hx => hys.subset hx) (hl.at_final (hex hne) hys)⟩

/-- An owner that the fresh record has stays where no value is above 0. -/
theorem IsPeak.owner_stays {f : Jobacctinfo → UInt32} {id : Jobacctinfo → JobacctId}
    (hp : IsPeak f id) {o : JobacctId} {zs : List Jobacctinfo} {d : Jobacctinfo}
    (hzs : ∀ z ∈ zs, ¬0 < f z) (hd : f d = 0) (hown : (id d).owner = some o) :
    (id (zs.foldl aggregated d)).owner = some o := by
  induction zs generalizing d with
  | nil => exact hown
  | cons z zs ih =>
    have hz : ¬f d < f z := hd ▸ hzs z List.mem_cons_self
    refine ih (fun y hy => hzs y (List.mem_cons_of_mem _ hy)) ?_ ?_
    · rw [hp.value, if_neg hz, hd]
    · rw [hp.taker, if_neg hz, owner_fillId, hown, Option.some_or]

/-- The owners of a peak agree in every order and for every fresh record exactly when they are
settled. -/
theorem IsPeak.tie_iff {f : Jobacctinfo → UInt32} {id : Jobacctinfo → JobacctId}
    (hp : IsPeak f id) {rs : List Jobacctinfo} :
    (∀ temp xs ys, xs.Perm rs → ys.Perm rs →
      Tie id (Largest f rs) rs (id (aggregateAll temp xs)).owner
        (id (aggregateAll temp ys)).owner) ↔
    OwnerSettled id (Largest f rs) rs := by
  constructor
  · intro h
    exact (Jobacct.tie_iff (hp.laws (Or.inl hp.unset)) (exists_largest f)).mp (h .unset)
  · intro hset temp xs ys hxs hys
    by_cases hstart :
        (id (jobacctCommonInitStruct none temp)).owner = none ∨ ∃ r ∈ rs, 0 < f r
    · exact (Jobacct.tie_iff (hp.laws hstart) (exists_largest f)).mpr hset xs ys hxs hys
    · obtain ⟨hown, hzero⟩ := not_or.mp hstart
      obtain ⟨o, ho⟩ := Option.ne_none_iff_exists'.mp hown
      have hstay : ∀ zs, zs.Perm rs → (id (aggregateAll temp zs)).owner = some o :=
        fun zs hzs => hp.owner_stays
          (fun z hz hpos => hzero ⟨z, hzs.subset hz, hpos⟩) (hp.fresh temp) ho
      exact Or.inl ((hstay xs hxs).trans (hstay ys hys).symm)

/-- The least time of a settled collection, in any order. -/
theorem MinSettled.value_perm {rs xs ys : List Jobacctinfo} (h : MinSettled rs) (hxs : xs.Perm rs)
    (hys : ys.Perm rs) : (aggregateAll temp xs).minCpu = (aggregateAll temp ys).minCpu := by
  by_cases hne : rs = []
  · subst hne
    rw [hxs.eq_nil, hys.eq_nil]
  · have hl := @laws_minCpu temp rs h
    have hx := hl.at_final (exists_smallest hne) hxs
    have hy := hl.at_final (exists_smallest hne) hys
    obtain ⟨hnone, -⟩ | ⟨r, hr, hrv⟩ := @minCpu_final temp xs
    · exact absurd hnone hx.1
    · obtain ⟨hnone, -⟩ | ⟨s, hs, hsv⟩ := @minCpu_final temp ys
      · exact absurd hnone hy.1
      · have h1 : (aggregateAll temp xs).minCpu ≤ readMin s := hx.2 s (hys.subset hs)
        have h2 : (aggregateAll temp ys).minCpu ≤ readMin r := hy.2 r (hxs.subset hr)
        rw [← hsv] at h1
        rw [← hrv] at h2
        exact UInt32.le_antisymm h1 h2

/-- When no order changes the result of a collection whose microseconds are
below a million. -/
theorem orderFree_iff {rs : List Jobacctinfo} (hrs : ∀ r ∈ rs, Normal r) :
    OrderFree rs ↔
      OwnerSettled Jobacctinfo.maxVsizeId (Largest Jobacctinfo.maxVsize rs) rs ∧
      OwnerSettled Jobacctinfo.maxRssId (Largest Jobacctinfo.maxRss rs) rs ∧
      OwnerSettled Jobacctinfo.maxPagesId (Largest Jobacctinfo.maxPages rs) rs ∧
      MinSettled rs ∧ OwnerSettled Jobacctinfo.minCpuId (Smallest rs) rs ∧
      (rs.map userTime).sum < 4294967296000000 ∧ (rs.map sysTime).sum < 4294967296000000 := by
  have htimes : ∀ temp, ∀ xs : List Jobacctinfo, xs.Perm rs → Normal (aggregateAll temp xs) ∧
      userTime (aggregateAll temp xs) = (rs.map userTime).sum % 4294967296000000 ∧
      sysTime (aggregateAll temp xs) = (rs.map sysTime).sum % 4294967296000000 := by
    intro temp xs hxs
    obtain ⟨hn, hu, hs⟩ := @times_final temp xs fun x hx => hrs x (hxs.subset hx)
    rw [(hxs.map userTime).sum_eq] at hu
    rw [(hxs.map sysTime).sum_eq] at hs
    exact ⟨hn, hu, hs⟩
  constructor
  · intro h
    have hmin : MinSettled rs := by
      by_contra hnot
      obtain ⟨xs, ys, hxs, hys, hne⟩ := exists_orders_of_not_minSettled .unset hnot
      exact hne ((h .unset xs hxs).1 ys hys).minCpu
    have hm := tie_iff (@laws_minCpu .unset rs hmin) exists_smallest
    obtain ⟨-, -, hu, hs⟩ := h .unset rs (List.Perm.refl _)
    obtain ⟨-, hu', hs'⟩ := htimes .unset rs (List.Perm.refl _)
    exact ⟨isPeak_maxVsize.tie_iff.mp fun t xs ys hxs hys => ((h t xs hxs).1 ys hys).maxVsizeId,
      isPeak_maxRss.tie_iff.mp fun t xs ys hxs hys => ((h t xs hxs).1 ys hys).maxRssId,
      isPeak_maxPages.tie_iff.mp fun t xs ys hxs hys => ((h t xs hxs).1 ys hys).maxPagesId, hmin,
      hm.mp fun xs ys hxs hys => ((h .unset xs hxs).1 ys hys).minCpuId, by omega, by omega⟩
  · rintro ⟨hvs, hrss, hpg, hmin, hms, hu, hs⟩ temp xs hxs
    have hm := tie_iff (@laws_minCpu temp rs hmin) exists_smallest
    obtain ⟨hn, hu', hs'⟩ := htimes temp xs hxs
    refine ⟨fun ys hys => ?_, hn, by omega, by omega⟩
    have hxy : xs.Perm ys := hxs.trans hys.symm
    exact
      { maxVsize := isPeak_maxVsize.value_perm hxy
        maxRss := isPeak_maxRss.value_perm hxy
        maxPages := isPeak_maxPages.value_perm hxy
        minCpu := hmin.value_perm hxs hys
        totVsize := @total_perm _ Jobacctinfo.totVsize (fun _ _ => rfl) _ _ hxy
        totRss := @total_perm _ Jobacctinfo.totRss (fun _ _ => rfl) _ _ hxy
        totPages := @total_perm _ Jobacctinfo.totPages (fun _ _ => rfl) _ _ hxy
        totCpu := @total_perm _ Jobacctinfo.totCpu (fun _ _ => rfl) _ _ hxy
        maxVsizeId := isPeak_maxVsize.tie_iff.mpr hvs temp xs ys hxs hys
        maxRssId := isPeak_maxRss.tie_iff.mpr hrss temp xs ys hxs hys
        maxPagesId := isPeak_maxPages.tie_iff.mpr hpg temp xs ys hxs hys
        minCpuId := hm.mpr hms xs ys hxs hys }

/-- A record of task 1 that has run for 5 seconds, and a fresh one. -/
def fiveSeconds : Jobacctinfo :=
  { jobacctCommonInitStruct (some ⟨1, 0⟩) .unset with minCpu := 5, totCpu := 5 }

/-- The least time is 0 or 5, as a record without one comes first or last. -/
theorem not_orderFree_unset :
    ¬OrderFree [jobacctCommonInitStruct (some ⟨0, 0⟩) .unset, fiveSeconds] := by
  intro h
  have hswap : [fiveSeconds, jobacctCommonInitStruct (some ⟨0, 0⟩) .unset].Perm
      [jobacctCommonInitStruct (some ⟨0, 0⟩) .unset, fiveSeconds] := List.Perm.swap _ _ _
  have hmin := ((h .unset _ (List.Perm.refl _)).1 _ hswap).minCpu
  revert hmin
  decide +kernel

/-- Two records of one task each. -/
theorem orderFree_two :
    (∀ r ∈ [fiveSeconds, { fiveSeconds with minCpu := 7, minCpuId := ⟨2, 0⟩ }], Normal r) ∧
      OrderFree [fiveSeconds, { fiveSeconds with minCpu := 7, minCpuId := ⟨2, 0⟩ }] := by
  have hrs : ∀ r ∈ [fiveSeconds, { fiveSeconds with minCpu := 7, minCpuId := ⟨2, 0⟩ }],
      Normal r := by
    intro r hr
    simp only [List.mem_cons, List.not_mem_nil, or_false] at hr
    obtain rfl | rfl := hr <;> exact ⟨by decide, by decide⟩
  have hown : ∀ (id : Jobacctinfo → JobacctId) (Best : Jobacctinfo → Prop),
      (∀ r ∈ [fiveSeconds, { fiveSeconds with minCpu := 7, minCpuId := ⟨2, 0⟩ }],
        (id r).owner ≠ none) →
      OwnerSettled id Best [fiveSeconds, { fiveSeconds with minCpu := 7, minCpuId := ⟨2, 0⟩ }] := by
    rintro id Best hset ⟨r, hr, -, hnone⟩
    exact absurd hnone (hset r hr)
  refine ⟨hrs, (orderFree_iff hrs).mpr ⟨hown _ _ (by decide), hown _ _ (by decide),
    hown _ _ (by decide), by decide, hown _ _ (by decide), by decide, by decide⟩⟩

end Slurm.Jobacct
