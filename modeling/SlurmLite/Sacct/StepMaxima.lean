import SlurmLite.Sacct.JobSums

/-!
# The maxima of a job over its steps

`aggregate_sacct` folds the statistics of steps into those of a fresh job
record, whose maxima and ids are zero. Each maximum and its id are a fold of
`larger` (`foldl_peak`), so one statement about that fold (`attained_foldl_iff`)
gives all three.

A maximum is taken only when it is greater than the one that stands there, so
among steps whose maxima are all zero the id of the fresh record stays
(`maximaAttained_iff`).
-/

namespace Slurm.Jobacct

/-! ## Folding for the larger -/

/-- The larger of two is not below either. -/
theorem le_larger (dest from_ : UInt32 × JobacctId) :
    dest.1 ≤ (larger dest from_).1 ∧ from_.1 ≤ (larger dest from_).1 := by
  rw [larger]
  split
  · rename_i h
    exact ⟨UInt32.le_of_lt h, UInt32.le_refl _⟩
  · rename_i h
    exact ⟨UInt32.le_refl _, UInt32.not_lt.mp h⟩

theorem start_le_foldl_larger (ps : List (UInt32 × JobacctId)) (dest : UInt32 × JobacctId) :
    dest.1 ≤ (ps.foldl larger dest).1 := by
  induction ps generalizing dest with
  | nil => exact UInt32.le_refl _
  | cons p ps ih => exact UInt32.le_trans (le_larger dest p).1 (ih (larger dest p))

theorem le_foldl_larger {ps : List (UInt32 × JobacctId)} {p : UInt32 × JobacctId} (h : p ∈ ps)
    (dest : UInt32 × JobacctId) : p.1 ≤ (ps.foldl larger dest).1 := by
  induction ps generalizing dest with
  | nil => exact absurd h List.not_mem_nil
  | cons q ps ih =>
    rw [List.foldl_cons]
    rcases List.mem_cons.mp h with rfl | hmem
    · exact UInt32.le_trans (le_larger dest p).2 (start_le_foldl_larger ps _)
    · exact ih hmem _

/-- The fold ends where it began, or at an item that is greater. -/
theorem foldl_larger_cases (ps : List (UInt32 × JobacctId)) (dest : UInt32 × JobacctId) :
    ps.foldl larger dest = dest ∨
      ps.foldl larger dest ∈ ps ∧ dest.1 < (ps.foldl larger dest).1 := by
  induction ps generalizing dest with
  | nil => exact .inl rfl
  | cons p ps ih =>
    rw [List.foldl_cons, larger]
    split
    · rename_i hlt
      rcases ih p with h | ⟨hmem, hlt'⟩
      · rw [h]
        exact .inr ⟨List.mem_cons_self, hlt⟩
      · exact .inr ⟨List.mem_cons_of_mem _ hmem, UInt32.lt_trans hlt hlt'⟩
    · rcases ih dest with h | ⟨hmem, hlt'⟩
      · exact .inl h
      · exact .inr ⟨List.mem_cons_of_mem _ hmem, hlt'⟩

/-- `best` is the greatest value among the items, with the id of one that has it. -/
def Attained (ps : List (UInt32 × JobacctId)) (best : UInt32 × JobacctId) : Prop :=
  ps ≠ [] → (∀ p ∈ ps, p.1 ≤ best.1) ∧ best ∈ ps

/-- Some item can be told from a fresh record, or has its id. -/
def Recorded (unset : JobacctId) (ps : List (UInt32 × JobacctId)) : Prop :=
  ps ≠ [] → ∃ p ∈ ps, 0 < p.1 ∨ p.2 = unset

/-- Folded from zero, the maximum has its owner exactly when it can be told from
the zero, or an item has the id that was there. -/
theorem attained_foldl_iff (unset : JobacctId) (ps : List (UInt32 × JobacctId)) :
    Attained ps (ps.foldl larger (0, unset)) ↔ Recorded unset ps := by
  constructor
  · intro h hne
    refine ⟨_, (h hne).2, ?_⟩
    rcases foldl_larger_cases ps (0, unset) with heq | ⟨-, hlt⟩
    · exact .inr (by rw [heq])
    · exact .inl hlt
  · intro h hne
    refine ⟨fun p hp => le_foldl_larger hp _, ?_⟩
    obtain ⟨p, hp, hp'⟩ := h hne
    rcases foldl_larger_cases ps (0, unset) with heq | ⟨hmem, -⟩
    · -- the fold never left the zero, so `p` is zero too
      have hzero : p.1 = 0 := by
        have hle := le_foldl_larger hp (0, unset)
        rw [heq] at hle
        exact UInt32.le_antisymm hle (UInt32.zero_le)
      rcases hp' with hpos | hid
      · rw [hzero] at hpos
        exact absurd hpos (UInt32.lt_irrefl 0)
      · rw [heq, ← hzero, ← hid]
        exact hp
    · exact hmem

/-! ## The three maxima -/

/-- The statistics of a job whose steps have been summed up. -/
def aggregateSteps (steps : List Sacct) : Sacct :=
  steps.foldl aggregateSacct createJobacctJobRec.sacct

/-- `max_vsize` with its id. -/
def Sacct.vsizePeak (s : Sacct) : UInt32 × JobacctId := (s.maxVsize, s.maxVsizeId)

/-- `max_rss` with its id. -/
def Sacct.rssPeak (s : Sacct) : UInt32 × JobacctId := (s.maxRss, s.maxRssId)

/-- `max_pages` with its id. -/
def Sacct.pagesPeak (s : Sacct) : UInt32 × JobacctId := (s.maxPages, s.maxPagesId)

/-- A peak of the statistics summed up is a fold over the peaks of the steps. -/
theorem foldl_peak {peak : Sacct → UInt32 × JobacctId}
    (h : ∀ dest step, peak (aggregateSacct dest step) = larger (peak dest) (peak step))
    (steps : List Sacct) (dest : Sacct) :
    peak (steps.foldl aggregateSacct dest) = (steps.map peak).foldl larger (peak dest) := by
  induction steps generalizing dest with
  | nil => rfl
  | cons step steps ih => rw [List.foldl_cons, ih, h, List.map_cons, List.foldl_cons]

theorem attained_peak_iff {peak : Sacct → UInt32 × JobacctId}
    (h : ∀ dest step, peak (aggregateSacct dest step) = larger (peak dest) (peak step))
    (hfresh : peak createJobacctJobRec.sacct = (0, .zero)) (steps : List Sacct) :
    Attained (steps.map peak) (peak (aggregateSteps steps)) ↔
      Recorded .zero (steps.map peak) := by
  rw [aggregateSteps, foldl_peak h, hfresh]
  exact attained_foldl_iff .zero _

/-- Each maximum is the greatest of the steps', with the id of a step that has it. -/
structure MaximaAttained (steps : List Sacct) (sacct : Sacct) : Prop where
  vsize : Attained (steps.map Sacct.vsizePeak) sacct.vsizePeak
  rss : Attained (steps.map Sacct.rssPeak) sacct.rssPeak
  pages : Attained (steps.map Sacct.pagesPeak) sacct.pagesPeak

/-- **The maxima of `aggregate_sacct`.** Over every sequence of steps each maximum
is attained by the step whose ids are recorded exactly when, for each of the
three, some step's maximum is above zero or some step has the ids of node 0 and
task 0. -/
theorem maximaAttained_iff (steps : List Sacct) :
    MaximaAttained steps (aggregateSteps steps) ↔
      Recorded .zero (steps.map Sacct.vsizePeak) ∧
        Recorded .zero (steps.map Sacct.rssPeak) ∧
        Recorded .zero (steps.map Sacct.pagesPeak) := by
  have hv := @attained_peak_iff Sacct.vsizePeak (fun _ _ => rfl) rfl steps
  have hr := @attained_peak_iff Sacct.rssPeak (fun _ _ => rfl) rfl steps
  have hp := @attained_peak_iff Sacct.pagesPeak (fun _ _ => rfl) rfl steps
  constructor
  · rintro ⟨hvsize, hrss, hpages⟩
    exact ⟨hv.mp hvsize, hr.mp hrss, hp.mp hpages⟩
  · rintro ⟨hvsize, hrss, hpages⟩
    exact ⟨hv.mpr hvsize, hr.mpr hrss, hp.mpr hpages⟩

/-- One step that used no pages, on node 3 as task 5. -/
theorem not_maximaAttained_unpaged :
    ¬ MaximaAttained [{ Sacct.zero with maxVsize := 9, maxRss := 9, maxPagesId := ⟨5, 3⟩ }]
      (aggregateSteps [{ Sacct.zero with maxVsize := 9, maxRss := 9, maxPagesId := ⟨5, 3⟩ }]) := by
  rintro ⟨-, -, hattained⟩
  have hpages := (attained_peak_iff (fun _ _ => rfl) rfl _).mp hattained
  obtain ⟨p, hp, hp'⟩ := hpages (by simp)
  simp [Sacct.zero] at hp
  subst hp
  revert hp'
  decide

end Slurm.Jobacct
