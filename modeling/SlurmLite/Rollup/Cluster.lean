import SlurmLite.Base.Run
import SlurmLite.Rollup.Hour

/-!
# The record of a cluster

What the over-commit adjustment of an hour leaves in the record of a cluster.

* **Arithmetic** (`cpuSecs_toNat`): a product that fits its `int` is added as it is.
* **Adjustment** (`adjust_conserves`): every branch keeps the sum at `total_time`.
* **Accumulation** (`Fits`, `within_jobsDone`): the loops add no more to a record than
  the rows they read carry.
-/

namespace Slurm.Rollup

open Base.Run

/-! ## Arithmetic -/

theorem toInt64_neg_iff (x : UInt64) : x.toInt64 < 0 ↔ 2 ^ 63 ≤ x.toNat := by
  rw [Int64.lt_iff_toInt_lt]
  show x.toBitVec.toInt < (0 : Int64).toInt ↔ 2 ^ 63 ≤ x.toNat
  have hzero : (0 : Int64).toInt = 0 := rfl
  have hlt := x.toNat_lt
  rw [BitVec.toInt_eq_toNat_cond, UInt64.toNat_toBitVec, hzero]
  split <;> omega

theorem ofInt_toNat {x : Int} (hpos : 0 ≤ x) (hlt : x < 2 ^ 31) : (ofInt x).toNat = x.toNat := by
  obtain ⟨n, rfl⟩ := Int.eq_ofNat_of_zero_le hpos
  have hmin : Int32.minValue.toInt = -2 ^ 31 := rfl
  have hmax : Int32.maxValue.toInt = 2 ^ 31 - 1 := rfl
  rw [ofInt, Int32.toInt64_ofInt (by omega) (by omega)]
  show (Int64.ofNat n).toUInt64.toNat = n
  rw [Int64.toUInt64_ofNat', UInt64.toNat_ofNat_of_lt' (by simp [UInt64.size]; omega)]

/-- The product of some seconds and a cpu count fits its `int`. -/
def FitsInt (seconds cpus : Int) : Prop := 0 ≤ cpus ∧ seconds * cpus < 2 ^ 31

instance (seconds cpus : Int) : Decidable (FitsInt seconds cpus) :=
  inferInstanceAs (Decidable (_ ∧ _))

theorem cpuSecs_toNat {seconds cpus : Int} (hs : 0 ≤ seconds) (hfit : FitsInt seconds cpus) :
    (cpuSecs seconds cpus).toNat = (seconds * cpus).toNat :=
  ofInt_toNat (Int.mul_nonneg hs hfit.1) hfit.2

/-! ## Adjustment -/

/-- What the loops have put into the record, all of it. -/
def ClusterUsage.weight (c : ClusterUsage) : Nat :=
  c.totalTime.toNat + c.aCpu.toNat + c.dCpu.toNat + c.pdCpu.toNat + c.rCpu.toNat

/-- The five quantities are not negative as `int64_t` and sum to `total_time`. -/
def ClusterUsage.Conserves (c : ClusterUsage) : Prop :=
  (∀ x ∈ [c.aCpu, c.dCpu, c.pdCpu, c.iCpu, c.rCpu], ¬x.toInt64 < 0) ∧
    c.aCpu.toNat + c.dCpu.toNat + c.pdCpu.toNat + c.iCpu.toNat + c.rCpu.toNat = c.totalTime.toNat

theorem conserves_of_sum {c : ClusterUsage} (htotal : c.totalTime.toNat < 2 ^ 63)
    (hsum : c.aCpu.toNat + c.dCpu.toNat + c.pdCpu.toNat + c.iCpu.toNat + c.rCpu.toNat =
      c.totalTime.toNat) : c.Conserves := by
  refine ⟨fun x hx => ?_, hsum⟩
  rw [toInt64_neg_iff]
  simp only [List.mem_cons, List.not_mem_nil, or_false] at hx
  obtain rfl | rfl | rfl | rfl | rfl := hx <;> omega

/-- After the first two checks the used time is at most the total. -/
theorem capUsed_le {c : ClusterUsage} (hw : c.weight < 2 ^ 63) :
    c.capUsed.aCpu.toNat + c.capUsed.dCpu.toNat + c.capUsed.pdCpu.toNat ≤ c.totalTime.toNat := by
  rw [ClusterUsage.weight] at hw
  simp only [ClusterUsage.capUsed]
  generalize ha : (if c.totalTime < c.aCpu then c.totalTime else c.aCpu) = a
  have hle : a.toNat ≤ c.totalTime.toNat ∧ a.toNat ≤ c.aCpu.toNat := by
    split at ha
    all_goals
      rename_i hlt
      rw [UInt64.lt_iff_toNat_lt] at hlt
      subst ha
      omega
  have hsum : (a + c.dCpu + c.pdCpu).toNat = a.toNat + c.dCpu.toNat + c.pdCpu.toNat := by
    rw [UInt64.toNat_add, UInt64.toNat_add]
    omega
  split
  · have hleft : (c.totalTime - a).toNat = c.totalTime.toNat - a.toNat :=
      UInt64.toNat_sub_of_le _ _ (UInt64.le_iff_toNat_le.mpr hle.1)
    have hzero : (0 : UInt64).toNat = 0 := rfl
    show a.toNat + (c.totalTime - a).toNat + (0 : UInt64).toNat ≤ _
    omega
  · rename_i hfit
    rw [UInt64.lt_iff_toNat_lt, hsum] at hfit
    exact Nat.le_of_not_lt hfit

theorem capUsed_totalTime (c : ClusterUsage) : c.capUsed.totalTime = c.totalTime := by
  simp only [ClusterUsage.capUsed]
  split <;> split <;> rfl

theorem capUsed_rCpu (c : ClusterUsage) : c.capUsed.rCpu = c.rCpu := by
  simp only [ClusterUsage.capUsed]
  split <;> split <;> rfl

/-- Where the used time fits, what is left of the total goes to reserved and idle. -/
theorem setIdle_conserves {c : ClusterUsage}
    (hused : c.aCpu.toNat + c.dCpu.toNat + c.pdCpu.toNat ≤ c.totalTime.toNat)
    (hw : c.totalTime.toNat + c.rCpu.toNat < 2 ^ 63) : c.setIdle.Conserves := by
  have hsum : (c.aCpu + c.dCpu + c.pdCpu).toNat =
      c.aCpu.toNat + c.dCpu.toNat + c.pdCpu.toNat := by
    rw [UInt64.toNat_add, UInt64.toNat_add]
    omega
  have hleft : (c.totalTime - (c.aCpu + c.dCpu + c.pdCpu)).toNat =
      c.totalTime.toNat - (c.aCpu.toNat + c.dCpu.toNat + c.pdCpu.toNat) := by
    rw [UInt64.toNat_sub_of_le _ _ (UInt64.le_iff_toNat_le.mpr (by omega)), hsum]
  simp only [ClusterUsage.setIdle]
  generalize hi : c.totalTime - (c.aCpu + c.dCpu + c.pdCpu) - c.rCpu = i
  have hidle : i.toNat = (2 ^ 64 - c.rCpu.toNat + (c.totalTime.toNat -
      (c.aCpu.toNat + c.dCpu.toNat + c.pdCpu.toNat))) % 2 ^ 64 := by
    rw [← hi, UInt64.toNat_sub, hleft]
  have hzero : (0 : UInt64).toNat = 0 := rfl
  split
  · rename_i hneg
    rw [toInt64_neg_iff] at hneg
    -- the reserved time was more than what is left, and gives the rest back
    have hresv : (c.rCpu + i).toNat =
        c.totalTime.toNat - (c.aCpu.toNat + c.dCpu.toNat + c.pdCpu.toNat) := by
      rw [UInt64.toNat_add]
      omega
    have hpos : ¬(c.rCpu + i).toInt64 < 0 := by
      rw [toInt64_neg_iff]
      omega
    apply conserves_of_sum
    · show c.totalTime.toNat < 2 ^ 63
      omega
    · rw [if_neg hpos]
      show c.aCpu.toNat + c.dCpu.toNat + c.pdCpu.toNat + (0 : UInt64).toNat +
        (c.rCpu + i).toNat = c.totalTime.toNat
      omega
  · rename_i hpos
    rw [toInt64_neg_iff] at hpos
    apply conserves_of_sum
    · show c.totalTime.toNat < 2 ^ 63
      omega
    · show c.aCpu.toNat + c.dCpu.toNat + c.pdCpu.toNat + i.toNat + c.rCpu.toNat =
        c.totalTime.toNat
      omega

theorem adjust_conserves {c : ClusterUsage} (hw : c.weight < 2 ^ 63) : c.adjust.Conserves := by
  have hcap := capUsed_le hw
  rw [ClusterUsage.weight] at hw
  apply setIdle_conserves
  · rw [capUsed_totalTime]
    exact hcap
  · rw [capUsed_totalTime, capUsed_rCpu]
    omega

/-! ## Accumulation -/

/-- The seconds of an event in the hour from `currStart` on. -/
def EventRow.inHour (currStart : Int) (row : EventRow) : Int :=
  clipEnd (currStart + addSec) row.periodEnd - clipStart currStart row.periodStart

/-- The seconds of a reservation in the hour. -/
def ResvRow.inHour (currStart : Int) (row : ResvRow) : Int :=
  clipEnd (currStart + addSec) row.stop - clipStart currStart row.start

/-- The seconds of the hour that a job is charged for. -/
def JobRow.billed (currStart : Int) (row : JobRow) : Int :=
  if row.runs currStart (currStart + addSec) then row.seconds currStart (currStart + addSec) else 0

/-- The seconds of the hour that a job waits. -/
def JobRow.waited (currStart : Int) (row : JobRow) : Int :=
  min (row.rowStart currStart) (currStart + addSec) - max row.eligible currStart

/-- A number of cpu seconds. -/
def cpuTime (seconds cpus : Int) : Nat := (seconds * cpus).toNat

/-- The rows of an hour from `currStart` on: every product of a cpu count and seconds
fits its `int`, and all of them together an `int64_t`. -/
structure Fits (t : Tables) (currStart : Int) : Prop where
  events : ∀ r ∈ t.events.filter (·.selected currStart (currStart + addSec)),
    FitsInt (r.inHour currStart) r.cpuCount
  resvs : ∀ r ∈ t.resvs.filter (·.selected currStart (currStart + addSec)),
    FitsInt (r.inHour currStart) r.cpus
  jobs : ∀ r ∈ t.jobs.filter (·.selected currStart (currStart + addSec)),
    FitsInt (r.billed currStart) r.allocCpus ∧ FitsInt (r.waited currStart) r.reqCpus
  sums : ((t.events.filter (·.selected currStart (currStart + addSec))).map fun r =>
        cpuTime (r.inHour currStart) r.cpuCount).sum +
      ((t.resvs.filter (·.selected currStart (currStart + addSec))).map fun r =>
        cpuTime (r.inHour currStart) r.cpus).sum +
      ((t.jobs.filter (·.selected currStart (currStart + addSec))).map fun r =>
        cpuTime (r.billed currStart) r.allocCpus + cpuTime (r.waited currStart) r.reqCpus).sum <
    2 ^ 63

/-- A record that holds at most `n` cpu seconds and lies in the hour. -/
structure ClusterUsage.Within (currStart : Int) (n : Nat) (c : ClusterUsage) : Prop where
  weight : c.weight ≤ n
  start : currStart ≤ c.start
  stop : c.stop ≤ currStart + addSec

theorem toNat_add_le (x y : UInt64) : (x + y).toNat ≤ x.toNat + y.toNat := by
  rw [UInt64.toNat_add]
  exact Nat.mod_le _ _

/-- Fewer seconds than those that fit. -/
theorem FitsInt.cpuSecs_le {secs seconds cpus : Int} (hfit : FitsInt seconds cpus)
    (hs : 0 ≤ secs) (hle : secs ≤ seconds) : (cpuSecs secs cpus).toNat ≤ cpuTime seconds cpus := by
  have hmul : secs * cpus ≤ seconds * cpus := Int.mul_le_mul_of_nonneg_right hle hfit.1
  rw [cpuSecs_toNat hs ⟨hfit.1, Int.lt_of_le_of_lt hmul hfit.2⟩]
  exact Int.toNat_le_toNat hmul

theorem ClusterUsage.Within.mono {currStart : Int} {m n : Nat} {c : ClusterUsage}
    (h : c.Within currStart m) (hmn : m ≤ n) : c.Within currStart n :=
  ⟨Nat.le_trans h.weight hmn, h.start, h.stop⟩

theorem mem_updateCluster {clusters : List ClusterUsage} {name : String}
    {f : ClusterUsage → ClusterUsage} {c : ClusterUsage}
    (hc : c ∈ updateCluster clusters name f) : c ∈ clusters ∨ ∃ d ∈ clusters, c = f d := by
  obtain ⟨i, hi, rfl⟩ := List.mem_iff_getElem.mp hc
  simp only [updateCluster, List.getElem_modify]
  split
  · exact Or.inr ⟨_, List.getElem_mem _, rfl⟩
  · exact Or.inl (List.getElem_mem _)

/-- Changing one record in place by at most `l` cpu seconds. -/
theorem within_updateCluster {currStart : Int} {n l : Nat} {clusters : List ClusterUsage}
    {name : String} {f : ClusterUsage → ClusterUsage}
    (h : ∀ c ∈ clusters, c.Within currStart n)
    (hf : ∀ c, c.Within currStart n → (f c).Within currStart (n + l)) :
    ∀ c ∈ updateCluster clusters name f, c.Within currStart (n + l) := by
  intro c hc
  obtain hc | ⟨d, hd, rfl⟩ := mem_updateCluster hc
  · exact (h c hc).mono (Nat.le_add_right n l)
  · exact hf d (h d hd)

section Steps

variable {currStart : Int} {n : Nat}

theorem within_reserve {row : ResvRow} {total : UInt64} {c : ClusterUsage}
    (hc : c.Within currStart n) : (c.reserve row total).Within currStart (n + total.toNat) := by
  have hw := hc.weight
  rw [ClusterUsage.weight] at hw
  rw [ClusterUsage.reserve]
  split
  · refine ⟨?_, hc.start, hc.stop⟩
    have hadd := toNat_add_le c.pdCpu total
    simp only [ClusterUsage.weight]
    omega
  · refine ⟨?_, hc.start, hc.stop⟩
    have hadd := toNat_add_le c.aCpu total
    simp only [ClusterUsage.weight]
    omega

theorem within_registerAgain {row : EventRow} {rowStart rowEnd : Int} {c : ClusterUsage}
    (hfit : FitsInt (rowEnd - rowStart) row.cpuCount) (hstop : rowEnd ≤ currStart + addSec)
    (hle : rowStart ≤ rowEnd) (hc : c.Within currStart n) :
    (c.registerAgain row rowStart rowEnd).Within currStart
      (n + cpuTime (rowEnd - rowStart) row.cpuCount) := by
  have hw := hc.weight
  rw [ClusterUsage.weight] at hw
  refine ⟨?_, hc.start, hstop⟩
  have hadd := toNat_add_le c.totalTime (cpuSecs (rowEnd - rowStart) row.cpuCount)
  have hsecs := hfit.cpuSecs_le (by omega) (Int.le_refl _)
  simp only [ClusterUsage.weight, ClusterUsage.registerAgain]
  omega

theorem within_down {row : EventRow} {rowStart rowEnd : Int} {c : ClusterUsage}
    (hfit : FitsInt (rowEnd - rowStart) row.cpuCount) (hc : c.Within currStart n) :
    (c.down row rowStart rowEnd).Within currStart
      (n + cpuTime (rowEnd - rowStart) row.cpuCount) := by
  have hw := hc.weight
  rw [ClusterUsage.weight] at hw
  simp only [ClusterUsage.down]
  generalize hs : (if c.start > rowStart then c.start else rowStart) = localStart
  generalize he : (if c.stop < rowEnd then c.stop else rowEnd) = localEnd
  have hfrom : rowStart ≤ localStart := by split at hs <;> omega
  have hto : localEnd ≤ rowEnd := by split at he <;> omega
  split
  · refine ⟨?_, hc.start, hc.stop⟩
    have hadd := toNat_add_le c.dCpu (cpuSecs (localEnd - localStart) row.cpuCount)
    have hsecs := @FitsInt.cpuSecs_le (localEnd - localStart) _ _ hfit (by omega) (by omega)
    simp only [ClusterUsage.weight]
    omega
  · exact hc.mono (Nat.le_add_right _ _)

theorem within_eventStep {clusters : List ClusterUsage} {row : EventRow}
    (hfit : FitsInt (row.inHour currStart) row.cpuCount)
    (h : ∀ c ∈ clusters, c.Within currStart n) :
    ∀ c ∈ eventStep currStart (currStart + addSec) clusters row,
      c.Within currStart (n + cpuTime (row.inHour currStart) row.cpuCount) := by
  simp only [eventStep, EventRow.inHour] at hfit ⊢
  have hfrom := le_clipStart currStart row.periodStart
  have hto := clipEnd_le (currStart + addSec) row.periodEnd
  generalize clipStart currStart row.periodStart = rowStart at hfit hfrom ⊢
  generalize clipEnd (currStart + addSec) row.periodEnd = rowEnd at hfit hto ⊢
  have hmono : ∀ c ∈ clusters, c.Within currStart (n + cpuTime (rowEnd - rowStart) row.cpuCount) :=
    fun c hc => (h c hc).mono (Nat.le_add_right _ _)
  split
  · exact hmono
  · split
    · split
      · intro c hc
        obtain hc | hc := List.mem_append.mp hc
        · exact hmono c hc
        · -- the record is new and holds the time of its registration
          obtain rfl := List.mem_singleton.mp hc
          refine ⟨?_, hfrom, hto⟩
          have hsecs := hfit.cpuSecs_le (by omega) (Int.le_refl _)
          have hzero : (0 : UInt64).toNat = 0 := rfl
          simp only [ClusterUsage.weight, ClusterUsage.register]
          omega
      · exact within_updateCluster h fun c hc =>
          within_registerAgain hfit hto (by omega) hc
    · exact within_updateCluster h fun c hc => within_down hfit hc

theorem within_resvStep {h h' : HourState} {row : ResvRow}
    (hfit : FitsInt (row.inHour currStart) row.cpus)
    (hw : ∀ c ∈ h.clusters, c.Within currStart n)
    (hstep : resvStep currStart (currStart + addSec) h row = some h') :
    ∀ c ∈ h'.clusters, c.Within currStart (n + cpuTime (row.inHour currStart) row.cpus) := by
  simp only [resvStep, ResvRow.inHour] at hfit hstep ⊢
  split at hstep
  · obtain rfl := Option.some.inj hstep
    exact fun c hc => (hw c hc).mono (Nat.le_add_right _ _)
  · split at hstep
    · exact absurd hstep (by simp)
    · obtain rfl := Option.some.inj hstep
      have hsecs := hfit.cpuSecs_le (by omega) (Int.le_refl _)
      exact within_updateCluster hw fun c hc => (within_reserve hc).mono (by
        simp only [resvUsage]
        omega)

theorem within_chargeJob {row : JobRow} {rowStart seconds : Int} {c : ClusterUsage}
    (halloc : FitsInt seconds row.allocCpus)
    (hreq : FitsInt (min rowStart (currStart + addSec) - max row.eligible currStart) row.reqCpus)
    (hc : c.Within currStart n) :
    (c.chargeJob row rowStart seconds).Within currStart (n + (cpuTime seconds row.allocCpus +
      cpuTime (min rowStart (currStart + addSec) - max row.eligible currStart) row.reqCpus)) := by
  simp only [ClusterUsage.chargeJob]
  generalize hd : (if rowStart ≠ 0 ∧ seconds > 0 then
    { c with aCpu := c.aCpu + cpuSecs seconds row.allocCpus } else c) = d
  have hd : d.Within currStart (n + cpuTime seconds row.allocCpus) := by
    have hw := hc.weight
    rw [ClusterUsage.weight] at hw
    split at hd
    · subst hd
      refine ⟨?_, hc.start, hc.stop⟩
      have hadd := toNat_add_le c.aCpu (cpuSecs seconds row.allocCpus)
      have hsecs := halloc.cpuSecs_le (by omega) (Int.le_refl _)
      simp only [ClusterUsage.weight]
      omega
    · subst hd
      exact hc.mono (Nat.le_add_right _ _)
  have hw := hd.weight
  rw [ClusterUsage.weight] at hw
  have hrest := fun m => hd.mono (n := n + (cpuTime seconds row.allocCpus + m)) (by omega)
  split
  · generalize hs : (if d.start > row.eligible then d.start else row.eligible) = resvStart
    generalize he : (if d.stop < rowStart then d.stop else rowStart) = resvEnd
    have hfrom : max row.eligible currStart ≤ resvStart := by
      have := hd.start
      split at hs <;> omega
    have hto : resvEnd ≤ min rowStart (currStart + addSec) := by
      have := hd.stop
      split at he <;> omega
    split
    · refine ⟨?_, hd.start, hd.stop⟩
      have hadd := toNat_add_le d.rCpu (cpuSecs (resvEnd - resvStart) row.reqCpus)
      have hsecs := @FitsInt.cpuSecs_le (resvEnd - resvStart) _ _ hreq (by omega) (by omega)
      simp only [ClusterUsage.weight]
      omega
    · exact hrest _
  · exact hrest _

theorem within_calcCluster {h : HourState} {row : JobRow} {rowEnd seconds : Int}
    (halloc : FitsInt seconds row.allocCpus) (hreq : FitsInt (row.waited currStart) row.reqCpus)
    (hw : ∀ c ∈ h.clusters, c.Within currStart n) :
    ∀ c ∈ (calcCluster h row (row.rowStart currStart) rowEnd seconds).clusters,
      c.Within currStart
        (n + (cpuTime seconds row.allocCpus + cpuTime (row.waited currStart) row.reqCpus)) := by
  have hmono := fun c hc => (hw c hc).mono (Nat.le_add_right n
    (cpuTime seconds row.allocCpus + cpuTime (row.waited currStart) row.reqCpus))
  rw [calcCluster]
  split
  · exact hmono
  · split
    · exact hmono
    · split
      · split
        · exact hmono
        · exact hmono
      · exact within_updateCluster hw fun c hc => within_chargeJob halloc hreq hc

theorem chargeIds_clusters {trackWckey : Bool} {h h' : HourState} {row : JobRow} {seconds : Int}
    (hcharge : chargeIds trackWckey h row seconds = some h') : h'.clusters = h.clusters := by
  obtain ⟨assocs, wckeys, -, -, rfl⟩ := chargeIds_cases hcharge
  rfl

theorem within_jobStep {trackWckey : Bool} {h h' : HourState} {row : JobRow}
    (halloc : FitsInt (row.billed currStart) row.allocCpus)
    (hreq : FitsInt (row.waited currStart) row.reqCpus)
    (hw : ∀ c ∈ h.clusters, c.Within currStart n)
    (hstep : jobStep trackWckey currStart (currStart + addSec) h row = some h') :
    ∀ c ∈ h'.clusters, c.Within currStart (n + (cpuTime (row.billed currStart) row.allocCpus +
      cpuTime (row.waited currStart) row.reqCpus)) := by
  unfold JobRow.billed at halloc ⊢
  obtain ⟨hidle, rfl⟩ | ⟨-, -, rfl⟩ | ⟨hruns, -, h₁, hcharge, rfl⟩ := jobStep_cases hstep
  · rw [hidle] at halloc ⊢
    exact within_calcCluster halloc hreq hw
  · exact fun c hc => (hw c hc).mono (Nat.le_add_right _ _)
  · rw [← chargeIds_clusters hcharge] at hw
    rw [if_pos hruns] at halloc ⊢
    exact within_calcCluster halloc hreq hw

/-- After the jobs a record holds no more than the rows of the hour carry. -/
theorem within_jobsDone {trackWckey : Bool} {t : Tables} {h : HourState}
    (hfit : Fits t currStart) (hdone : jobsDone trackWckey t currStart = some h) :
    ∀ c ∈ h.clusters, c.weight < 2 ^ 63 := by
  simp only [jobsDone] at hdone
  rw [Option.bind_eq_bind, Option.bind_eq_some_iff] at hdone
  obtain ⟨h₁, hresvs, hjobs⟩ := hdone
  let P : Nat → List ClusterUsage → Prop := fun n cl => ∀ c ∈ cl, c.Within currStart n
  let Q : Nat → HourState → Prop := fun n h => ∀ c ∈ h.clusters, c.Within currStart n
  have hnone : P 0 [] := fun c hc => absurd hc List.not_mem_nil
  have hevents := foldl_load P (fun r : EventRow => cpuTime (r.inHour currStart) r.cpuCount)
    (fun n cl row hrow hcl => within_eventStep (hfit.events row hrow) hcl) hnone
  have hafter : Q _ h₁ := foldlM_load Q
    (fun r : ResvRow => cpuTime (r.inHour currStart) r.cpus)
    (fun n s s' row hrow hs hstep => within_resvStep (hfit.resvs row hrow) hs hstep) hevents hresvs
  have hend : Q _ h := foldlM_load Q
    (fun r : JobRow =>
      cpuTime (r.billed currStart) r.allocCpus + cpuTime (r.waited currStart) r.reqCpus)
    (fun n s s' row hrow hs hstep =>
      within_jobStep (hfit.jobs row hrow).1 (hfit.jobs row hrow).2 hs hstep) hafter hjobs
  intro c hc
  have hle := (hend c hc).weight
  have hsums := hfit.sums
  omega

end Steps

/-- Every cluster-hour that a rollup writes conserves the total time of the cluster. -/
theorem mysqlHourlyRollup_conserves {trackWckey : Bool} {t : Tables} {start stop : Int}
    {o : HourOut} (ho : o ∈ mysqlHourlyRollup trackWckey t start stop)
    (hfit : Fits t o.currStart) : ∀ c ∈ o.clusters, c.Conserves := by
  obtain ⟨h, assocs, hdone, -, heq⟩ := hour_cases (mem_mysqlHourlyRollup ho)
  intro c hc
  rw [heq] at hc
  obtain ⟨d, hd, rfl⟩ := List.mem_map.mp hc
  exact adjust_conserves (within_jobsDone hfit hdone d hd)

/-- A cluster of four cpus on which a job starts late while two cpus are down. -/
def busyTables : Tables where
  events := [
    { nodeName := "", cluster := "c", cpuCount := 4, periodStart := 0, periodEnd := 0, state := 0 },
    { nodeName := "n1", cluster := "c", cpuCount := 2, periodStart := 1800, periodEnd := 0,
      state := 1 }]
  resvs := []
  jobs := [
    { associd := 2, wckeyid := 1, cluster := some "c", eligible := 100, start := 1000, stop := 0,
      allocCpus := 4, reqCpus := 4, resvid := 0, suspends := [] }]
  jobsInOrder := List.pairwise_singleton _ _

def busyOut : HourOut where
  currStart := 0
  clusters := [
    { name := "c", totalTime := 14400, aCpu := 10400, cpuCount := 4, dCpu := 3600, iCpu := 0,
      oCpu := 3200, pdCpu := 0, rCpu := 400, start := 0, stop := 3600 }]
  assocs := [{ id := 2, aCpu := 10400 }]
  wckeys := [{ id := 1, aCpu := 10400 }]

theorem mysqlHourlyRollup_conserves_busy :
    busyOut ∈ mysqlHourlyRollup true busyTables 0 3600 ∧ ∀ c ∈ busyOut.clusters, c.Conserves := by
  have hrun : busyOut ∈ mysqlHourlyRollup true busyTables 0 3600 := by decide +kernel
  exact ⟨hrun, mysqlHourlyRollup_conserves hrun
    ⟨by decide +kernel, by decide +kernel, by decide +kernel, by decide +kernel⟩⟩

end Slurm.Rollup
