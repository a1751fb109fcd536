import SlurmLite.Base.CLib
import SlurmLite.Base.Sums

/-!
# The elapsed time of a job inside a usage window

The part of `mysql_jobacct_process_get_jobs` that computes `elapsed` and `suspended`
of a job from its row and the rows of the suspend table.

* **Rows** (`foldl_suspendRow`): what the suspension rows take from the elapsed time.
* **Windows** (`agree_window_iff`): when the times a job is clipped to are those of the part
  of the window it ran in.
* **Together** (`elapsed_iff`): when the two times are those of the window.

Queries are taken to succeed, and times to be stamps that an `int` holds.
-/

namespace Slurm.JobElapsed

open Base.CLib Base.Sums

/-- A row of the suspend table; an end of 0 is a suspension that is not over. -/
structure SuspendRow where
  start : Int
  end_ : Int
deriving DecidableEq

/-- What is read of an `acct_job_cond_t`. -/
structure JobCond where
  withoutUsageTruncation : Bool
  usageStart : Int
  usageEnd : Int

/-- The columns of a job row that the times come from; NULL is `none`. -/
structure Row where
  start : Int
  end_ : Int
  suspended : Option Int

/-- The times of a `jobacct_job_rec_t`. -/
structure Job where
  start : Int
  end_ : Int
  elapsed : Nat
  suspended : Nat
deriving DecidableEq

/-! ## The functions -/

/-- A job that has ended starts at its end at the latest. -/
def jobStart (row : Row) : Int :=
  if row.end_ ≠ 0 ∧ (row.start = 0 ∨ row.end_ < row.start) then row.end_ else row.start

/-- The condition of the query for the suspended time. -/
def selected (jobCond : JobCond) (r : SuspendRow) : Bool :=
  r.start < jobCond.usageEnd && (jobCond.usageStart ≤ r.end_ || r.end_ = 0)

/-- The rows of the query for the suspended time, ordered by start. -/
def suspendQuery (jobCond : JobCond) (suspends : List SuspendRow) : List SuspendRow :=
  (suspends.filter (selected jobCond)).mergeSort fun r s => r.start ≤ s.start

/-- The body of the loop over these rows. -/
def suspendRow (job : Job) (row2 : SuspendRow) : Job :=
  if row2.start = 0 then job
  else
    let localStart := if row2.start < job.start then int32 job.start else row2.start
    let localEnd := if job.end_ < row2.end_ then int32 job.end_ else row2.end_
    if localEnd - localStart < 1 then job
    else
      { job with
        elapsed := uint32 (job.elapsed - (localEnd - localStart))
        suspended := uint32 (job.suspended + (localEnd - localStart)) }

/-- A job with its times clipped to the usage window. -/
def clipped (jobCond : JobCond) (row : Row) : Job :=
  let start := jobStart row
  let start := if start ≠ 0 ∧ start < jobCond.usageStart then jobCond.usageStart else start
  let end_ :=
    if row.end_ = 0 ∨ jobCond.usageEnd < row.end_ then jobCond.usageEnd else row.end_
  let start := if start = 0 then end_ else start
  { start, end_, elapsed := uint32 (end_ - start), suspended := 0 }

/-- The branch with truncation. -/
def truncated (jobCond : JobCond) (row : Row) (suspends : List SuspendRow) : Job :=
  match row.suspended with
  | none => clipped jobCond row
  | some _ => (suspendQuery jobCond suspends).foldl suspendRow (clipped jobCond row)

/-- The branch without truncation. The record is a fresh one there, so its state is
never `JOB_SUSPENDED`. -/
def untruncated (now : Int) (row : Row) : Option Job :=
  row.suspended.map fun suspended =>
    let start := jobStart row
    let elapsed :=
      if start = 0 then 0
      else if row.end_ = 0 then uint32 (now - start)
      else uint32 (row.end_ - start)
    { start, end_ := row.end_, elapsed := uint32 (elapsed - uint32 suspended),
      suspended := uint32 suspended }

/-- The times of a job; a column that is NULL cannot be read as a number. -/
def jobTimes (jobCond : Option JobCond) (now : Int) (row : Row) (suspends : List SuspendRow) :
    Option Job :=
  let job :=
    match jobCond with
    | some jobCond =>
      if !jobCond.withoutUsageTruncation && jobCond.usageStart ≠ 0 then
        some (truncated jobCond row suspends)
      else untruncated now row
    | none => untruncated now row
  job.map fun job => if int32 job.elapsed < 0 then { job with elapsed := 0 } else job

/-! ## The window -/

/-- An end that is open lasts until now. -/
def orNow (now x : Int) : Int := if x = 0 then now else x

/-- The length of the time from `w.1` until before `w.2`. -/
def length (w : Int × Int) : Int := max 0 (w.2 - w.1)

/-- The part of the usage window that the job ran in. A job without a start never ran. -/
def window (jobCond : JobCond) (now : Int) (row : Row) : Int × Int :=
  if row.start = 0 then (0, 0)
  else (max row.start jobCond.usageStart,
    min (orNow now row.end_) (orNow now jobCond.usageEnd))

/-- How long a suspension lasts inside of `w`. -/
def inside (now : Int) (w : Int × Int) (r : SuspendRow) : Int :=
  if r.start = 0 then 0 else length (max w.1 r.start, min w.2 (orNow now r.end_))

/-- How long the suspensions last inside of `w` together. -/
def suspendedIn (now : Int) (w : Int × Int) (suspends : List SuspendRow) : Int :=
  (suspends.map (inside now w)).sum

/-- The two times reported are those of the window. -/
def ElapsedRight (jobCond : JobCond) (now : Int) (row : Row) (suspends : List SuspendRow) : Prop :=
  let w := window jobCond now row
  ∃ job, jobTimes (some jobCond) now row suspends = some job ∧
    (job.elapsed : Int) = length w - suspendedIn now w suspends ∧
    (job.elapsed + job.suspended : Int) = length w

/-- The condition under which they are. -/
structure ElapsedFits (jobCond : JobCond) (now : Int) (row : Row) (suspends : List SuspendRow) :
    Prop where
  /-- an open window does not meet the job -/
  bounded : jobCond.usageEnd = 0 → length (window jobCond now row) = 0
  /-- a window that reaches past now does not meet a job that still runs -/
  past : row.start ≠ 0 → row.end_ = 0 → now < jobCond.usageEnd →
    jobCond.usageEnd ≤ max row.start jobCond.usageStart
  /-- no suspension lasts inside the window until now -/
  lasting : ∀ r ∈ suspends, r.end_ = 0 → inside now (window jobCond now row) r = 0
  /-- the suspensions are looked up, or there are none inside the window -/
  column : row.suspended = none → suspendedIn now (window jobCond now row) suspends = 0
  /-- the suspensions leave room for one another in the window -/
  room : suspendedIn now (window jobCond now row) suspends ≤ length (window jobCond now row)

/-- A time stamp that an `int` holds. -/
def Stamp (x : Int) : Prop := 0 ≤ x ∧ x < 2147483648

instance (x : Int) : Decidable (Stamp x) := inferInstanceAs (Decidable (_ ∧ _))

/-- All times are stamps. -/
structure Stamped (jobCond : JobCond) (now : Int) (row : Row) (suspends : List SuspendRow) :
    Prop where
  usageStart : Stamp jobCond.usageStart
  usageEnd : Stamp jobCond.usageEnd
  now : Stamp now
  start : Stamp row.start
  end_ : Stamp row.end_
  suspends : ∀ r ∈ suspends, Stamp r.start ∧ Stamp r.end_

/-! ## The suspensions -/

theorem uint32_sub (x y : Int) : uint32 (uint32 x - y) = uint32 (x - y) := by
  unfold uint32
  omega

theorem uint32_add (x y : Int) : uint32 (uint32 x + y) = uint32 (x + y) := by
  unfold uint32
  omega

/-- What a row takes from the elapsed time of a job. -/
def cut (job : Job) (r : SuspendRow) : Int :=
  if r.start = 0 then 0 else length (max job.start r.start, min job.end_ r.end_)

theorem length_nonneg (w : Int × Int) : 0 ≤ length w := le_max_left _ _

theorem cut_nonneg (job : Job) (r : SuspendRow) : 0 ≤ cut job r := by
  unfold cut
  split
  · exact Int.le_refl 0
  · exact length_nonneg _

theorem suspendRow_eq {job : Job} {r : SuspendRow} (hstart : Stamp job.start)
    (hend : Stamp job.end_) {x y : Int} (hx : job.elapsed = uint32 x)
    (hy : job.suspended = uint32 y) :
    suspendRow job r =
      { job with elapsed := uint32 (x - cut job r), suspended := uint32 (y + cut job r) } := by
  obtain ⟨hs, hs'⟩ := hstart
  obtain ⟨he, he'⟩ := hend
  have hlocal : (if r.start < job.start then int32 job.start else r.start) =
      max job.start r.start := by
    rw [int32_of_range (by omega) hs']
    split <;> omega
  have hlocal' : (if job.end_ < r.end_ then int32 job.end_ else r.end_) =
      min job.end_ r.end_ := by
    rw [int32_of_range (by omega) he']
    split <;> omega
  unfold suspendRow cut length
  rw [hlocal, hlocal']
  by_cases h0 : r.start = 0
  · rw [if_pos h0, if_pos h0, Int.sub_zero, Int.add_zero, ← hx, ← hy]
  · rw [if_neg h0, if_neg h0]
    by_cases hlt : min job.end_ r.end_ - max job.start r.start < 1
    · have hzero : max 0 (min job.end_ r.end_ - max job.start r.start) = 0 := by omega
      simp only [hzero, Int.sub_zero, Int.add_zero]
      rw [if_pos hlt, ← hx, ← hy]
    · have hpos : max 0 (min job.end_ r.end_ - max job.start r.start) =
          min job.end_ r.end_ - max job.start r.start := by omega
      simp only [hpos]
      rw [if_neg hlt, hx, hy, uint32_sub, uint32_add]

/-- The rows take their parts one after the other. -/
theorem foldl_suspendRow {rs : List SuspendRow} {job : Job} (hstart : Stamp job.start)
    (hend : Stamp job.end_) {x y : Int} (hx : job.elapsed = uint32 x)
    (hy : job.suspended = uint32 y) :
    rs.foldl suspendRow job =
      { job with
        elapsed := uint32 (x - (rs.map (cut job)).sum)
        suspended := uint32 (y + (rs.map (cut job)).sum) } := by
  induction rs generalizing job x y with
  | nil =>
    show job = _
    rw [List.map_nil, List.sum_nil, Int.sub_zero, Int.add_zero, ← hx, ← hy]
  | cons r rs ih =>
    rw [List.foldl_cons, suspendRow_eq hstart hend hx hy, List.map_cons, List.sum_cons,
      ← Int.sub_sub, ← Int.add_assoc]
    have hrest := @ih
      { job with
        elapsed := uint32 (x - cut job r)
        suspended := uint32 (y + cut job r) } hstart hend _ _ rfl rfl
    exact hrest

/-- What a row takes if the query finds it. -/
def counted (jobCond : JobCond) (job : Job) (r : SuspendRow) : Int :=
  if selected jobCond r then cut job r else 0

theorem sum_suspendQuery (jobCond : JobCond) (job : Job) (suspends : List SuspendRow) :
    ((suspendQuery jobCond suspends).map (cut job)).sum =
      (suspends.map (counted jobCond job)).sum := by
  have hperm : (suspendQuery jobCond suspends).Perm (suspends.filter (selected jobCond)) :=
    List.mergeSort_perm _ _
  rw [(hperm.map (cut job)).sum_eq]
  exact (sum_map_ite (selected jobCond) (cut job) suspends).symm

/-! ## The window of the job -/

/-- The clipped job and the window agree on how long the job ran. -/
def Agree (jobCond : JobCond) (now : Int) (row : Row) : Prop :=
  length ((clipped jobCond row).start, (clipped jobCond row).end_) =
    length (window jobCond now row)

section
variable {jobCond : JobCond} {now : Int} {row : Row} {suspends : List SuspendRow}

theorem clipped_stamp (h : Stamped jobCond now row suspends) :
    Stamp (clipped jobCond row).start ∧ Stamp (clipped jobCond row).end_ := by
  obtain ⟨⟨h1, h2⟩, ⟨h3, h4⟩, -, ⟨h5, h6⟩, ⟨h7, h8⟩, -⟩ := h
  unfold clipped jobStart Stamp
  simp only
  split_ifs <;> omega

/-- What the times of a job are clipped to. -/
theorem clipped_cases (h : Stamped jobCond now row suspends) (hstart : jobCond.usageStart ≠ 0) :
    (row.start = 0 ∨ row.end_ ≠ 0 ∧ row.end_ < row.start) ∧
        (clipped jobCond row).end_ ≤ (clipped jobCond row).start ∨
      row.start ≠ 0 ∧ (clipped jobCond row).start = max row.start jobCond.usageStart ∧
        (row.end_ = 0 ∧ (clipped jobCond row).end_ = jobCond.usageEnd ∨
          row.start ≤ row.end_ ∧ (clipped jobCond row).end_ = min row.end_ jobCond.usageEnd) := by
  obtain ⟨⟨h1, h2⟩, ⟨h3, h4⟩, -, ⟨h5, h6⟩, ⟨h7, h8⟩, -⟩ := h
  by_cases hnone : row.start = 0 ∨ row.end_ ≠ 0 ∧ row.end_ < row.start
  · refine Or.inl ⟨hnone, ?_⟩
    unfold clipped jobStart
    simp only
    split_ifs <;> omega
  · have hs : jobStart row = row.start := if_neg (by omega)
    have hmax : (if row.start ≠ 0 ∧ row.start < jobCond.usageStart then jobCond.usageStart
        else row.start) = max row.start jobCond.usageStart := by
      split <;> omega
    refine Or.inr ⟨by omega, ?_, ?_⟩
    · unfold clipped
      simp only [hs, hmax]
      exact if_neg (by omega)
    · by_cases he : row.end_ = 0
      · exact Or.inl ⟨he, if_pos (Or.inl he)⟩
      · refine Or.inr ⟨by omega, ?_⟩
        unfold clipped
        simp only
        split <;> omega

theorem agree_window_iff (h : Stamped jobCond now row suspends) (hstart : jobCond.usageStart ≠ 0) :
    Agree jobCond now row ↔
      (jobCond.usageEnd = 0 → length (window jobCond now row) = 0) ∧
        (row.start ≠ 0 → row.end_ = 0 → now < jobCond.usageEnd →
          jobCond.usageEnd ≤ max row.start jobCond.usageStart) := by
  have hcases := clipped_cases h hstart
  obtain ⟨⟨h1, h2⟩, ⟨h3, h4⟩, ⟨h9, h10⟩, ⟨h5, h6⟩, ⟨h7, h8⟩, -⟩ := h
  unfold Agree window length orNow
  obtain ⟨hnone | ⟨he, hlt⟩, hle⟩ | ⟨hs, hjs, ⟨he, hje⟩ | ⟨hle, hje⟩⟩ := hcases
  · rw [if_pos hnone]
    simp only
    omega
  · rw [if_neg (by omega), if_neg he]
    simp only
    split <;> omega
  · rw [if_neg hs, if_pos he, hjs, hje]
    simp only
    split <;> omega
  · have he : row.end_ ≠ 0 := by omega
    rw [if_neg hs, if_neg he, hjs, hje]
    simp only
    split <;> omega

theorem clipped_eq_window (h : Stamped jobCond now row suspends)
    (hstart : jobCond.usageStart ≠ 0) (hagree : Agree jobCond now row)
    (hpos : 0 < length (window jobCond now row)) :
    ((clipped jobCond row).start, (clipped jobCond row).end_) = window jobCond now row := by
  obtain ⟨hbounded, hpast⟩ := (agree_window_iff h hstart).mp hagree
  have hcases := clipped_cases h hstart
  obtain ⟨⟨h1, h2⟩, ⟨h3, h4⟩, ⟨h9, h10⟩, ⟨h5, h6⟩, ⟨h7, h8⟩, -⟩ := h
  have hopen : jobCond.usageEnd ≠ 0 := by
    intro hzero
    have hlen := hbounded hzero
    omega
  rw [← hagree] at hpos
  unfold length at hpos
  obtain ⟨-, hle⟩ | ⟨hs, hjs, hje⟩ := hcases
  · simp only at hpos
    omega
  · rw [window, if_neg hs, orNow, orNow, if_neg hopen]
    rw [hjs] at hpos ⊢
    obtain ⟨he, hje⟩ | ⟨hle, hje⟩ := hje
    · rw [hje] at hpos ⊢
      simp only at hpos
      rw [if_pos he, min_eq_right]
      by_contra hlt
      have hlast := hpast hs he (by omega)
      omega
    · rw [hje, if_neg (by omega)]

/-! ## Suspensions inside the window -/

theorem inside_nonneg (w : Int × Int) (r : SuspendRow) : 0 ≤ inside now w r := by
  unfold inside
  split
  · exact Int.le_refl 0
  · exact length_nonneg _

theorem inside_eq_zero {w : Int × Int} (h : length w = 0) (r : SuspendRow) :
    inside now w r = 0 := by
  unfold length at h
  unfold inside length
  split
  · rfl
  · simp only
    omega

theorem counted_nonneg (job : Job) (r : SuspendRow) : 0 ≤ counted jobCond job r := by
  unfold counted
  split
  · exact cut_nonneg job r
  · exact Int.le_refl 0

/-- A suspension that is not over is left out. -/
theorem counted_open {job : Job} {r : SuspendRow} (hjob : 0 ≤ job.start) (hend : r.end_ = 0) :
    counted jobCond job r = 0 := by
  unfold counted cut length
  rw [hend]
  simp only
  split
  · split
    · rfl
    · omega
  · rfl

/-- The others count as long as they last inside of the window. -/
theorem counted_closed (h : Stamped jobCond now row suspends) (hstart : jobCond.usageStart ≠ 0)
    (hagree : Agree jobCond now row) {r : SuspendRow} (hend : r.end_ ≠ 0) :
    counted jobCond (clipped jobCond row) r = inside now (window jobCond now row) r := by
  by_cases hzero : length (window jobCond now row) = 0
  · rw [inside_eq_zero hzero]
    have hle : length ((clipped jobCond row).start, (clipped jobCond row).end_) = 0 :=
      hagree.trans hzero
    unfold length at hle
    unfold counted cut length
    simp only at hle ⊢
    split
    · split
      · rfl
      · omega
    · rfl
  · have hpos : 0 < length (window jobCond now row) := by
      have hnonneg := length_nonneg (window jobCond now row)
      omega
    have hw := clipped_eq_window h hstart hagree hpos
    have hcut : cut (clipped jobCond row) r = inside now (window jobCond now row) r := by
      rw [← hw]
      unfold cut inside orNow
      rw [if_neg hend]
    unfold counted
    split
    · exact hcut
    · rename_i hnot
      have hopen : jobCond.usageEnd ≠ 0 := by
        intro hnil
        exact hzero (((agree_window_iff h hstart).mp hagree).1 hnil)
      have hout : jobCond.usageEnd ≤ r.start ∨ r.end_ < jobCond.usageStart := by
        simp [selected] at hnot
        omega
      have hs : row.start ≠ 0 := by
        intro hnone
        rw [window, if_pos hnone] at hpos
        exact absurd hpos (by decide)
      rw [window, if_neg hs]
      unfold inside length orNow
      rw [if_neg hend, if_neg hopen]
      simp only
      split
      · rfl
      · omega

/-- What is taken from the elapsed time. -/
def taken (jobCond : JobCond) (row : Row) (suspends : List SuspendRow) : Int :=
  if row.suspended = none then 0 else (suspends.map (counted jobCond (clipped jobCond row))).sum

theorem taken_nonneg : 0 ≤ taken jobCond row suspends := by
  unfold taken
  split
  · exact Int.le_refl 0
  · apply List.sum_nonneg
    intro x hx
    obtain ⟨r, -, rfl⟩ := List.mem_map.mp hx
    exact counted_nonneg _ r

theorem suspendedIn_nonneg (w : Int × Int) : 0 ≤ suspendedIn now w suspends := by
  apply List.sum_nonneg
  intro x hx
  obtain ⟨r, -, rfl⟩ := List.mem_map.mp hx
  exact inside_nonneg w r

/-- Where the windows agree no more is taken than is suspended, and less only where a
suspension is left out. -/
theorem taken_le (h : Stamped jobCond now row suspends) (hstart : jobCond.usageStart ≠ 0)
    (hagree : Agree jobCond now row) :
    taken jobCond row suspends ≤ suspendedIn now (window jobCond now row) suspends ∧
      (taken jobCond row suspends = suspendedIn now (window jobCond now row) suspends ↔
        (∀ r ∈ suspends, r.end_ = 0 → inside now (window jobCond now row) r = 0) ∧
          (row.suspended = none → suspendedIn now (window jobCond now row) suspends = 0)) := by
  have hnonneg : ∀ r, 0 ≤ inside now (window jobCond now row) r := fun r => inside_nonneg _ r
  have hjob := (clipped_stamp h).1.1
  unfold taken
  by_cases hnone : row.suspended = none
  · rw [if_pos hnone]
    refine ⟨suspendedIn_nonneg _, ?_⟩
    constructor
    · intro hzero
      refine ⟨?_, fun _ => hzero.symm⟩
      have hsum : (suspends.map fun _ => (0 : Int)).sum =
          suspendedIn now (window jobCond now row) suspends := by
        rw [← hzero]
        simp
      intro r hr _
      exact ((sum_map_eq_iff fun r _ => hnonneg r).mp hsum r hr).symm
    · exact fun hcolumn => (hcolumn.2 hnone).symm
  · rw [if_neg hnone]
    have hle : ∀ r ∈ suspends, counted jobCond (clipped jobCond row) r ≤
        inside now (window jobCond now row) r := by
      intro r _
      by_cases hend : r.end_ = 0
      · rw [counted_open hjob hend]
        exact hnonneg r
      · exact Int.le_of_eq (counted_closed h hstart hagree hend)
    refine ⟨List.sum_le_sum hle, ?_⟩
    unfold suspendedIn
    rw [sum_map_eq_iff hle]
    constructor
    · intro heq
      refine ⟨?_, fun h => absurd h hnone⟩
      intro r hr hend
      rw [← heq r hr, counted_open hjob hend]
    · rintro ⟨hopen, -⟩ r hr
      by_cases hend : r.end_ = 0
      · rw [counted_open hjob hend, hopen r hr hend]
      · exact counted_closed h hstart hagree hend

/-! ## The times reported -/

theorem truncated_eq (h : Stamped jobCond now row suspends) :
    truncated jobCond row suspends =
      { clipped jobCond row with
        elapsed := uint32 ((clipped jobCond row).end_ - (clipped jobCond row).start -
          taken jobCond row suspends)
        suspended := uint32 (taken jobCond row suspends) } := by
  obtain ⟨hstart, hend⟩ := clipped_stamp h
  unfold truncated taken
  cases row.suspended with
  | none =>
    simp only [if_true, Int.sub_zero]
    rfl
  | some _ =>
    simp only [reduceCtorEq, if_false]
    rw [@foldl_suspendRow _ (clipped jobCond row) hstart hend _ 0 rfl rfl, sum_suspendQuery,
      Int.zero_add]
    rfl

/-- A negative elapsed time is reported as none. -/
theorem jobTimes_eq (h : Stamped jobCond now row suspends)
    (htrunc : jobCond.withoutUsageTruncation = false) (hstart : jobCond.usageStart ≠ 0) :
    ∃ job, jobTimes (some jobCond) now row suspends = some job ∧
      (job.elapsed : Int) = max 0 (int32 ((clipped jobCond row).end_ -
        (clipped jobCond row).start - taken jobCond row suspends)) ∧
      (job.suspended : Int) = taken jobCond row suspends % 4294967296 := by
  have hint : ∀ x : Int, int32 (uint32 x) = int32 x := by
    intro x
    unfold int32 uint32
    rw [Int.toNat_of_nonneg (by omega)]
    exact Int.emod_bmod x 4294967296
  have hif : (!jobCond.withoutUsageTruncation && decide (jobCond.usageStart ≠ 0)) = true := by
    simp [htrunc, hstart]
  have hsuspended : ((uint32 (taken jobCond row suspends) : Nat) : Int) =
      taken jobCond row suspends % 4294967296 := by
    unfold uint32
    omega
  have hrun : jobTimes (some jobCond) now row suspends =
      some (if int32 (truncated jobCond row suspends).elapsed < 0 then
        { truncated jobCond row suspends with elapsed := 0 }
      else truncated jobCond row suspends) := by
    simp only [jobTimes, if_pos hif, Option.map_some]
  refine ⟨_, hrun, ?_⟩
  rw [truncated_eq h]
  simp only [hint]
  split
  · rename_i hneg
    refine ⟨?_, hsuspended⟩
    show ((0 : Nat) : Int) = _
    omega
  · rename_i hnonneg
    refine ⟨?_, hsuspended⟩
    show ((uint32 _ : Nat) : Int) = _
    unfold uint32
    unfold int32 at hnonneg ⊢
    rw [Int.bmod_def] at hnonneg ⊢
    split at hnonneg <;> omega

/-- With `a` seconds left and `t` of them taken, the times are those of a window of `l`
seconds with `s` suspended exactly if all of these are taken and fit. -/
theorem reported_iff {a l s t : Int} (ha : -2147483648 < a ∧ a < 2147483648) (hl : l = max 0 a)
    (ht : 0 ≤ t) (hts : t ≤ s) :
    (max 0 (int32 (a - t)) = l - s ∧ max 0 (int32 (a - t)) + t % 4294967296 = l) ↔
      t = s ∧ s ≤ l := by
  constructor
  · rintro ⟨helapsed, hsum⟩
    omega
  · rintro ⟨rfl, hfit⟩
    have hrange : int32 (a - t) = a - t := int32_of_range (by omega) (by omega)
    rw [hrange]
    omega

/-- Where the job is left more seconds than the window has, the times do not add up. -/
theorem not_reported {a l s t : Int} (ha : 0 < a ∧ a < 2147483648) (hl : 0 ≤ l ∧ l < a) :
    ¬ (max 0 (int32 (a - t)) = l - s ∧ max 0 (int32 (a - t)) + t % 4294967296 = l) := by
  rintro ⟨helapsed, hsum⟩
  unfold int32 at helapsed hsum
  rw [Int.bmod_def] at helapsed hsum
  split at helapsed <;> omega

/-- An open window finds no suspensions. -/
theorem taken_of_open (h : Stamped jobCond now row suspends) (hopen : jobCond.usageEnd = 0) :
    taken jobCond row suspends = 0 := by
  have hcounted : ∀ r ∈ suspends, counted jobCond (clipped jobCond row) r = 0 := by
    intro r hr
    have hstamp := (h.suspends r hr).1.1
    have hout : ¬ selected jobCond r = true := by
      simp [selected, hopen]
      omega
    rw [counted, if_neg hout]
  unfold taken
  split
  · rfl
  · rw [List.map_congr_left hcounted]
    simp

/-- A job that still runs, clipped to a window past now, is left more than it ran. -/
theorem not_reported_late (h : Stamped jobCond now row suspends) (hstart : jobCond.usageStart ≠ 0)
    (hagree : ¬ Agree jobCond now row)
    (hbounded : jobCond.usageEnd = 0 → length (window jobCond now row) = 0) {s t : Int} :
    ¬ (max 0 (int32 ((clipped jobCond row).end_ - (clipped jobCond row).start - t)) =
          length (window jobCond now row) - s ∧
        max 0 (int32 ((clipped jobCond row).end_ - (clipped jobCond row).start - t)) +
          t % 4294967296 = length (window jobCond now row)) := by
  obtain ⟨⟨hjs, hjs'⟩, ⟨hje, hje'⟩⟩ := clipped_stamp h
  have hl := length_nonneg (window jobCond now row)
  rw [agree_window_iff h hstart] at hagree
  obtain ⟨hs, he, hnow, hlt⟩ : row.start ≠ 0 ∧ row.end_ = 0 ∧ now < jobCond.usageEnd ∧
      max row.start jobCond.usageStart < jobCond.usageEnd := by
    by_contra hnot
    refine hagree ⟨hbounded, fun hs he hnow => ?_⟩
    by_contra hle
    exact hnot ⟨hs, he, hnow, by omega⟩
  have hnow' := h.now.1
  have hwindow : length (window jobCond now row) =
      max 0 (min now jobCond.usageEnd - max row.start jobCond.usageStart) := by
    rw [window, if_neg hs, orNow, orNow, if_pos he, if_neg (by omega)]
    rfl
  have hclip : (clipped jobCond row).start = max row.start jobCond.usageStart ∧
      (clipped jobCond row).end_ = jobCond.usageEnd := by
    obtain ⟨hno, -⟩ | ⟨-, hjs, ⟨-, hje⟩ | ⟨hle, -⟩⟩ := clipped_cases h hstart
    · omega
    · exact ⟨hjs, hje⟩
    · have hpos := h.start.1
      omega
  exact not_reported (by omega) (by omega)

/-- In an open window a job is left no time, and nothing is taken. -/
theorem not_reported_open (h : Stamped jobCond now row suspends)
    (hstart : jobCond.usageStart ≠ 0)
    (hopen : ¬ (jobCond.usageEnd = 0 → length (window jobCond now row) = 0)) {s : Int} :
    ¬ (max 0 (int32 ((clipped jobCond row).end_ - (clipped jobCond row).start -
            taken jobCond row suspends)) = length (window jobCond now row) - s ∧
        max 0 (int32 ((clipped jobCond row).end_ - (clipped jobCond row).start -
            taken jobCond row suspends)) + taken jobCond row suspends % 4294967296 =
          length (window jobCond now row)) := by
  obtain ⟨⟨hjs, hjs'⟩, ⟨hje, hje'⟩⟩ := clipped_stamp h
  have hl := length_nonneg (window jobCond now row)
  obtain ⟨hend, hne⟩ := Classical.not_imp.mp hopen
  have hle : (clipped jobCond row).end_ - (clipped jobCond row).start ≤ 0 := by
    have hcases := clipped_cases h hstart
    have hrow := h.end_.1
    omega
  rw [taken_of_open h hend, Int.sub_zero, int32_of_range (by omega) (by omega)]
  omega

/-- The two times reported are those of the window exactly under this condition. -/
theorem elapsed_iff (h : Stamped jobCond now row suspends)
    (htrunc : jobCond.withoutUsageTruncation = false) (hstart : jobCond.usageStart ≠ 0) :
    ElapsedRight jobCond now row suspends ↔ ElapsedFits jobCond now row suspends := by
  obtain ⟨job, hrun, helapsed, hsuspended⟩ := jobTimes_eq h htrunc hstart
  obtain ⟨⟨hjs, hjs'⟩, ⟨hje, hje'⟩⟩ := clipped_stamp h
  have hright : ElapsedRight jobCond now row suspends ↔
      (job.elapsed : Int) = length (window jobCond now row) -
          suspendedIn now (window jobCond now row) suspends ∧
        (job.elapsed + job.suspended : Int) = length (window jobCond now row) := by
    constructor
    · rintro ⟨job', hrun', hjob'⟩
      obtain rfl := Option.some.inj (hrun.symm.trans hrun')
      exact hjob'
    · exact fun hjob => ⟨job, hrun, hjob⟩
  have hfits : ElapsedFits jobCond now row suspends ↔
      Agree jobCond now row ∧
        ((∀ r ∈ suspends, r.end_ = 0 → inside now (window jobCond now row) r = 0) ∧
          (row.suspended = none → suspendedIn now (window jobCond now row) suspends = 0)) ∧
        suspendedIn now (window jobCond now row) suspends ≤
          length (window jobCond now row) := by
    rw [agree_window_iff h hstart]
    constructor
    · exact fun ⟨h1, h2, h3, h4, h5⟩ => ⟨⟨h1, h2⟩, ⟨h3, h4⟩, h5⟩
    · exact fun ⟨⟨h1, h2⟩, ⟨h3, h4⟩, h5⟩ => ⟨h1, h2, h3, h4, h5⟩
  rw [hright, hfits, helapsed, hsuspended]
  by_cases hagree : Agree jobCond now row
  · obtain ⟨hle, heq⟩ := taken_le h hstart hagree
    have hlength : length (window jobCond now row) =
        max 0 ((clipped jobCond row).end_ - (clipped jobCond row).start) := hagree.symm
    rw [reported_iff (by omega) hlength taken_nonneg hle, heq]
    exact (and_iff_right hagree).symm
  · refine iff_of_false ?_ fun hall => hagree hall.1
    -- either the open window meets the job, or the job is clipped to an end after now
    by_cases hbounded : jobCond.usageEnd = 0 → length (window jobCond now row) = 0
    · exact not_reported_late h hstart hagree hbounded
    · exact not_reported_open h hstart hbounded

end

/-- A job that is cut off on both sides, with two suspensions of which one is cut off. -/
theorem elapsed_iff_cut :
    ElapsedRight ⟨false, 100, 200⟩ 400 ⟨50, 300, some 0⟩ [⟨120, 150⟩, ⟨180, 250⟩] := by
  refine (@elapsed_iff ⟨false, 100, 200⟩ 400 ⟨50, 300, some 0⟩ [⟨120, 150⟩, ⟨180, 250⟩]
    ?_ rfl (by decide)).mpr ?_
  · refine ⟨by decide, by decide, by decide, by decide, by decide, ?_⟩
    intro r hr
    rcases List.mem_pair.mp hr with rfl | rfl <;> decide
  · refine ⟨by decide, by decide, ?_, by decide, by decide⟩
    intro r hr
    rcases List.mem_pair.mp hr with rfl | rfl <;> decide

/-- A running job that is still suspended: its suspension is left out. -/
theorem not_elapsed_suspended :
    ¬ ElapsedRight ⟨false, 100, 200⟩ 400 ⟨50, 0, some 0⟩ [⟨120, 0⟩] := by
  have hstamped : Stamped ⟨false, 100, 200⟩ 400 ⟨50, 0, some 0⟩ [⟨120, 0⟩] := by
    refine ⟨by decide, by decide, by decide, by decide, by decide, ?_⟩
    intro r hr
    rw [List.mem_singleton.mp hr]
    decide
  obtain ⟨job, hrun, helapsed, -⟩ := jobTimes_eq hstamped rfl (by decide)
  rintro ⟨job', hrun', hjob', -⟩
  obtain rfl := Option.some.inj (hrun.symm.trans hrun')
  rw [helapsed] at hjob'
  exact absurd hjob' (by decide)

end Slurm.JobElapsed
