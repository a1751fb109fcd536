import SlurmLite.Rollup.Cluster
import SlurmLite.Rollup.Assoc

/-!
# Consecutive windows

The seconds that the hourly windows charge to one job, against the seconds in which the
job ran and was not suspended.

* **Seconds** (`JobRow.active`, `SuspendRow.covers`): what a second of the run is.
* **One window** (`chargedSeconds_eq`): a sum over the seconds of the window.
* **Runs** (`chargedRun_eq`): the windows of a run add up.
-/

namespace Slurm.Rollup

/-! ## Seconds -/

/-- The second `t` is in `[start, end)`, 0 for an end being open. -/
def JobRow.active (row : JobRow) (t : Int) : Prop :=
  row.start ≤ t ∧ (row.stop = 0 ∨ t < row.stop)

/-- The second `t` is in the suspension, closed or open. -/
def SuspendRow.covers (s : SuspendRow) (t : Int) : Prop :=
  s.start ≤ t ∧ (s.stop = 0 ∨ t < s.stop)

/-- The job is suspended in the second `t`. -/
def JobRow.suspendedAt (row : JobRow) (t : Int) : Prop := ∃ s ∈ row.suspends, s.covers t

instance (row : JobRow) (t : Int) : Decidable (row.active t) :=
  inferInstanceAs (Decidable (_ ∧ _))

instance (s : SuspendRow) (t : Int) : Decidable (s.covers t) :=
  inferInstanceAs (Decidable (_ ∧ _))

instance (row : JobRow) (t : Int) : Decidable (row.suspendedAt t) :=
  inferInstanceAs (Decidable (∃ s ∈ row.suspends, s.covers t))

/-- The seconds from `first` up to `last` in which the job ran. -/
noncomputable def JobRow.ranSeconds (row : JobRow) (first last : Int) : Finset Int :=
  (Finset.Ico first last).filter fun t => row.active t ∧ ¬row.suspendedAt t

/-- The seconds charged to the job in the window from `currStart` on. -/
def JobRow.chargedSeconds (currStart : Int) (row : JobRow) : Int :=
  if row.selected currStart (currStart + addSec) ∧ row.charged currStart (currStart + addSec) then
    row.seconds currStart (currStart + addSec)
  else 0

/-- The seconds charged to the job in `n` consecutive windows. -/
def JobRow.chargedRun (row : JobRow) : Nat → Int → Int
  | 0, _ => 0
  | n + 1, currStart =>
    row.chargedSeconds currStart + row.chargedRun n (currStart + addSec)

/-! ## One window -/

/-- A closed suspension that the code subtracts. -/
def SuspendRow.counted (s : SuspendRow) (t : Int) : Prop :=
  s.start ≠ 0 ∧ s.stop ≠ 0 ∧ s.covers t

instance (s : SuspendRow) (t : Int) : Decidable (s.counted t) :=
  inferInstanceAs (Decidable (_ ∧ _ ∧ _))

/-- In each second of the window in which the job is active: the window selects the job,
and the second is in one counted suspension if it is suspended, and in none if not. -/
def JobRow.Clean (row : JobRow) (currStart : Int) : Prop :=
  ∀ t ∈ Finset.Ico currStart (currStart + addSec), row.active t →
    row.eligible < currStart + addSec ∧
    row.suspends.countP (fun s => s.counted t) = if row.suspendedAt t then 1 else 0

theorem mem_Ico_int {a b t : Int} : t ∈ Finset.Ico a b ↔ a ≤ t ∧ t < b := Finset.mem_Ico

/-- What a suspension takes is the part of the job's seconds it is counted in. -/
theorem taken_eq (s : SuspendRow) {rowStart rowEnd : Int} (hpos : 0 < rowStart) :
    s.taken rowStart rowEnd = ((Finset.Ico rowStart rowEnd).filter fun t => s.counted t).card := by
  by_cases hclosed : s.start ≠ 0 ∧ s.stop ≠ 0
  · have hset : ((Finset.Ico rowStart rowEnd).filter fun t => s.counted t) =
        Finset.Ico (max rowStart s.start) (min rowEnd s.stop) := by
      ext t
      rw [Finset.mem_filter, mem_Ico_int, mem_Ico_int, SuspendRow.counted, SuspendRow.covers]
      omega
    rw [hset, Int.card_Ico]
    simp only [SuspendRow.taken]
    split_ifs <;> omega
  · have hset : ((Finset.Ico rowStart rowEnd).filter fun t => s.counted t) = ∅ := by
      refine Finset.filter_eq_empty_iff.mpr fun t _ hcounted => hclosed ?_
      exact ⟨hcounted.1, hcounted.2.1⟩
    rw [hset, Finset.card_empty]
    simp only [SuspendRow.taken]
    split_ifs <;> omega

/-- A suspension that the query of the window leaves out would take nothing. -/
theorem taken_of_not_selected {s : SuspendRow} {currStart currEnd rowStart rowEnd : Int}
    (hpos : 0 < rowStart) (hfrom : currStart ≤ rowStart) (hto : rowEnd ≤ currEnd)
    (hnot : ¬s.selected currStart currEnd = true) : s.taken rowStart rowEnd = 0 := by
  simp only [SuspendRow.selected, decide_eq_true_eq] at hnot
  simp only [SuspendRow.taken]
  split_ifs <;> omega

/-- The seconds of the window in which the job is active. -/
theorem Ico_rowStart_rowEnd {row : JobRow} (hstart : 0 < row.start) (currStart currEnd : Int) :
    Finset.Ico (row.rowStart currStart) (row.rowEnd currEnd) =
      (Finset.Ico currStart currEnd).filter fun t => row.active t := by
  ext t
  rw [Finset.mem_filter, mem_Ico_int, mem_Ico_int]
  simp only [JobRow.active, JobRow.rowStart, JobRow.rowEnd, clipEnd]
  split_ifs <;> omega

/-- The counted seconds, summed by suspension and by second. -/
theorem sum_taken (suspends : List SuspendRow) {rowStart rowEnd : Int} (hpos : 0 < rowStart) :
    (suspends.map fun s => s.taken rowStart rowEnd).sum =
      ∑ t ∈ Finset.Ico rowStart rowEnd, (suspends.countP fun s => s.counted t : Int) := by
  induction suspends with
  | nil => simp
  | cons s suspends ih =>
    rw [List.map_cons, List.sum_cons, ih, taken_eq s hpos, Finset.card_filter]
    rw [Nat.cast_sum, ← Finset.sum_add_distrib]
    refine Finset.sum_congr rfl fun t _ => ?_
    rw [List.countP_cons]
    push_cast
    simp only [decide_eq_true_eq]
    omega

theorem foldl_taken (suspends : List SuspendRow) (rowStart rowEnd seconds : Int) :
    suspends.foldl (fun seconds s => seconds - s.taken rowStart rowEnd) seconds =
      seconds - (suspends.map fun s => s.taken rowStart rowEnd).sum := by
  induction suspends generalizing seconds with
  | nil => simp
  | cons s suspends ih =>
    rw [List.foldl_cons, ih, List.map_cons, List.sum_cons]
    omega

theorem countP_counted {suspends : List SuspendRow}
    (hclosed : ∀ s ∈ suspends, s.start ≠ 0 ∧ s.stop ≠ 0)
    (hapart : suspends.Pairwise fun a b => a.stop ≤ b.start) (t : Int) :
    suspends.countP (fun s => s.counted t) = if ∃ s ∈ suspends, s.covers t then 1 else 0 := by
  induction suspends with
  | nil => simp
  | cons s suspends ih =>
    obtain ⟨hs, hclosed⟩ := List.forall_mem_cons.mp hclosed
    obtain ⟨hafter, hapart⟩ := List.pairwise_cons.mp hapart
    rw [List.countP_cons, ih hclosed hapart]
    by_cases hcovers : s.covers t
    · have hnone : ¬∃ u ∈ suspends, u.covers t := by
        rintro ⟨u, hu, hut⟩
        have hle := hafter u hu
        have hlt := hcovers.2
        have hge := hut.1
        omega
      have hcounted : s.counted t := ⟨hs.1, hs.2, hcovers⟩
      rw [if_neg hnone, if_pos (decide_eq_true hcounted),
        if_pos ⟨s, List.mem_cons_self, hcovers⟩]
    · have hcounted : ¬s.counted t := fun h => hcovers h.2.2
      have hadd : (if decide (s.counted t) = true then 1 else 0) = 0 :=
        if_neg fun h => hcounted (of_decide_eq_true h)
      have hexists : (∃ u ∈ s :: suspends, u.covers t) ↔ ∃ u ∈ suspends, u.covers t := by
        simp only [List.mem_cons, exists_eq_or_imp, hcovers, false_or]
      rw [hadd, Nat.add_zero]
      exact if_congr hexists.symm rfl rfl

/-- Closed suspensions one after another leave every window clean. -/
theorem clean_of_closed {row : JobRow} (heligible : row.eligible ≤ row.start)
    (hclosed : ∀ s ∈ row.suspends, s.start ≠ 0 ∧ s.stop ≠ 0)
    (hapart : row.suspends.Pairwise fun a b => a.stop ≤ b.start) (currStart : Int) :
    row.Clean currStart := by
  intro t ht hactive
  rw [mem_Ico_int] at ht
  have hge := hactive.1
  refine ⟨by omega, ?_⟩
  rw [countP_counted hclosed hapart t]
  rfl

section Window

variable {row : JobRow} {currStart : Int}

theorem rowStart_pos (hstart : 0 < row.start) : 0 < row.rowStart currStart := by
  simp only [JobRow.rowStart]
  split_ifs <;> omega

theorem le_rowStart (hstart : 0 < row.start) : currStart ≤ row.rowStart currStart := by
  simp only [JobRow.rowStart]
  split_ifs <;> omega

/-- The seconds left are the active ones less, for each, the suspensions it is counted in. -/
theorem seconds_eq_sum (hstart : 0 < row.start)
    (hle : row.rowStart currStart ≤ row.rowEnd (currStart + addSec)) :
    row.seconds currStart (currStart + addSec) =
      ∑ t ∈ (Finset.Ico currStart (currStart + addSec)).filter fun t => row.active t,
        (1 - (row.suspends.countP fun s => s.counted t : Int)) := by
  have hpos : 0 < row.rowStart currStart := rowStart_pos hstart
  have hselected : ((row.suspends.filter (·.selected currStart (currStart + addSec))).map
        fun s => s.taken (row.rowStart currStart) (row.rowEnd (currStart + addSec))).sum =
      (row.suspends.map
        fun s => s.taken (row.rowStart currStart) (row.rowEnd (currStart + addSec))).sum := by
    induction row.suspends with
    | nil => rfl
    | cons s suspends ih =>
      by_cases hs : s.selected currStart (currStart + addSec) = true
      · rw [List.filter_cons_of_pos hs, List.map_cons, List.sum_cons, ih, List.map_cons,
          List.sum_cons]
      · have hnone : s.taken (row.rowStart currStart) (row.rowEnd (currStart + addSec)) = 0 :=
          taken_of_not_selected hpos (le_rowStart hstart) (clipEnd_le _ _) hs
        rw [List.filter_cons_of_neg hs, ih, List.map_cons, List.sum_cons, hnone, Int.zero_add]
  rw [← Ico_rowStart_rowEnd hstart, Finset.sum_sub_distrib, Finset.sum_const, Int.card_Ico,
    ← sum_taken row.suspends hpos, ← hselected, JobRow.seconds, foldl_taken]
  rw [nsmul_eq_mul, mul_one]
  omega

/-- In a clean window the job is charged the seconds it ran. -/
theorem chargedSeconds_eq (hstart : 0 < row.start) (hclean : row.Clean currStart) :
    row.chargedSeconds currStart = (row.ranSeconds currStart (currStart + addSec)).card := by
  have hran : row.ranSeconds currStart (currStart + addSec) =
      ((Finset.Ico currStart (currStart + addSec)).filter fun t => row.active t).filter
        fun t => ¬row.suspendedAt t := by
    rw [JobRow.ranSeconds, Finset.filter_filter]
  by_cases hruns : row.runs currStart (currStart + addSec) = true
  · have hlt := (runs_iff.mp hruns).2
    have hsum : row.seconds currStart (currStart + addSec) =
        (row.ranSeconds currStart (currStart + addSec)).card := by
      rw [seconds_eq_sum hstart (Int.le_of_lt hlt), hran, Finset.card_filter, Nat.cast_sum]
      refine Finset.sum_congr rfl fun t ht => ?_
      obtain ⟨hwindow, hactive⟩ := Finset.mem_filter.mp ht
      rw [(hclean t hwindow hactive).2]
      by_cases hsusp : row.suspendedAt t
      · rw [if_pos hsusp, if_neg (not_not.mpr hsusp)]
        rfl
      · rw [if_neg hsusp, if_pos hsusp]
        rfl
    -- the first active second of the window shows that the row is selected
    have hfirst : row.rowStart currStart ∈
        (Finset.Ico currStart (currStart + addSec)).filter fun t => row.active t := by
      rw [← Ico_rowStart_rowEnd hstart, mem_Ico_int]
      omega
    obtain ⟨hwindow, hactive⟩ := Finset.mem_filter.mp hfirst
    have heligible := (hclean _ hwindow hactive).1
    have hselected : row.selected currStart (currStart + addSec) = true := by
      rw [mem_Ico_int] at hwindow
      rw [JobRow.active] at hactive
      rw [JobRow.selected, decide_eq_true_eq]
      omega
    rw [← hsum, JobRow.chargedSeconds]
    split
    · rfl
    · rename_i hnot
      have hless : row.seconds currStart (currStart + addSec) < 1 := by
        by_contra hmany
        exact hnot ⟨hselected, charged_eq_true.mpr ⟨hruns, hmany⟩⟩
      omega
  · have hempty : Finset.Ico (row.rowStart currStart) (row.rowEnd (currStart + addSec)) = ∅ := by
      rw [runs_iff] at hruns
      have hpos := @rowStart_pos row currStart hstart
      exact Finset.Ico_eq_empty_of_le (by omega)
    rw [hran, ← Ico_rowStart_rowEnd hstart, hempty, Finset.filter_empty, Finset.card_empty,
      JobRow.chargedSeconds, if_neg]
    · rfl
    · exact fun hboth => hruns (charged_eq_true.mp hboth.2).1

end Window

/-! ## Runs -/

theorem ranSeconds_append (row : JobRow) {first middle last : Int} (hfirst : first ≤ middle)
    (hlast : middle ≤ last) :
    (row.ranSeconds first last).card =
      (row.ranSeconds first middle).card + (row.ranSeconds middle last).card := by
  rw [JobRow.ranSeconds, ← Finset.Ico_union_Ico_eq_Ico hfirst hlast, Finset.filter_union,
    Finset.card_union_of_disjoint]
  · rfl
  · exact Finset.disjoint_filter_filter (Finset.Ico_disjoint_Ico_consecutive first middle last)

/-- Over consecutive clean windows the job is charged the seconds it ran in them. -/
theorem chargedRun_eq {row : JobRow} (hstart : 0 < row.start) {n : Nat} {currStart : Int}
    (hclean : ∀ k < n, row.Clean (currStart + k * addSec)) :
    row.chargedRun n currStart = (row.ranSeconds currStart (currStart + n * addSec)).card := by
  induction n generalizing currStart with
  | zero => simp [JobRow.chargedRun, JobRow.ranSeconds]
  | succ n ih =>
    have hsec : (0 : Int) ≤ addSec := by decide
    have hfirst : row.Clean currStart := by
      have h := hclean 0 (Nat.zero_lt_succ n)
      rwa [Nat.cast_zero, zero_mul, add_zero] at h
    have hrest := ih (fun k hk => by
      have h := hclean (k + 1) (Nat.succ_lt_succ hk)
      rwa [Nat.cast_succ, add_mul, one_mul, add_comm (_ * _), ← add_assoc] at h)
    have hend : currStart + addSec + n * addSec = currStart + (n + 1 : Nat) * addSec := by
      rw [Nat.cast_succ]
      ring
    rw [JobRow.chargedRun, chargedSeconds_eq hstart hfirst, hrest, hend, ← Nat.cast_add,
      ← ranSeconds_append row (by omega)]
    rw [← hend]
    have hmany : 0 ≤ (n : Int) * addSec := Int.mul_nonneg (by omega) hsec
    omega

/-- A job of three hours that was suspended over the end of the first one. -/
def suspendedJob : JobRow where
  associd := 2
  wckeyid := 1
  cluster := some "c"
  eligible := 600
  start := 600
  stop := 10800
  allocCpus := 4
  reqCpus := 4
  resvid := 0
  suspends := [{ start := 3000, stop := 4000 }, { start := 5000, stop := 5100 }]

theorem chargedRun_eq_suspended :
    suspendedJob.chargedRun 3 0 = (suspendedJob.ranSeconds 0 (0 + (3 : Nat) * addSec)).card :=
  chargedRun_eq (by decide) fun _ _ =>
    clean_of_closed (by decide) (by decide) (by decide) _

/-- A running job that was suspended after 100 seconds and not resumed. -/
def openJob : JobRow where
  associd := 2
  wckeyid := 1
  cluster := some "c"
  eligible := 100
  start := 100
  stop := 0
  allocCpus := 4
  reqCpus := 4
  resvid := 0
  suspends := [{ start := 200, stop := 0 }]

/-- The hour charges the open suspension as run time. -/
theorem chargedRun_ne_open :
    openJob.chargedRun 1 0 ≠ (openJob.ranSeconds 0 (0 + (1 : Nat) * addSec)).card := by
  have hran : openJob.ranSeconds 0 (0 + (1 : Nat) * addSec) ⊆ Finset.Ico 100 200 := by
    intro t ht
    obtain ⟨-, hactive, hnot⟩ := Finset.mem_filter.mp ht
    have hstart : 100 ≤ t := hactive.1
    rw [mem_Ico_int]
    refine ⟨hstart, ?_⟩
    by_contra hlate
    have hcovers : (200 : Int) ≤ t := Int.not_lt.mp hlate
    exact hnot ⟨{ start := 200, stop := 0 }, List.mem_singleton_self _, hcovers, Or.inl rfl⟩
  have hcard := Finset.card_le_card hran
  rw [Int.card_Ico] at hcard
  have hcharged : openJob.chargedRun 1 0 = 3500 := by decide
  rw [hcharged]
  intro heq
  omega

end Slurm.Rollup
