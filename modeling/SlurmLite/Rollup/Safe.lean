import SlurmLite.Rollup.Assoc
import SlurmLite.Rollup.Reserved

/-!
# Hours that go through

An hour of `mysql_hourly_rollup` fails where a record is reached through a NULL pointer. The idle
time of a reservation is divided by the number of its associations, which is never zero.

* **Reservations** (`registered_iff`): a cluster has a record when it registers in the hour.
* **Jobs** (`jobs_isSome_iff`): only the first job charged can miss its record.
* **Shares** (`localAssocs_ne_nil`): even an empty text is a list of one association.
* **Result** (`rollup_safe_iff`): which rows take a rollup to its end.
-/

namespace Slurm.Rollup

open Base.Run

/-- A registration of the cluster lasts at least a second of the hour. -/
def Registers (currStart currEnd : Int) (row : EventRow) (name : String) : Prop :=
  row.nodeName = "" ∧ row.cluster = name ∧
    ¬clipEnd currEnd row.periodEnd - clipStart currStart row.periodStart < 1

instance (currStart currEnd : Int) (row : EventRow) (name : String) :
    Decidable (Registers currStart currEnd row name) := inferInstanceAs (Decidable (_ ∧ _ ∧ _))

/-- The rows of the hour. -/
def hourEvents (t : Tables) (currStart : Int) : List EventRow :=
  t.events.filter (·.selected currStart (currStart + addSec))

def hourResvRows (t : Tables) (currStart : Int) : List ResvRow :=
  t.resvs.filter (·.selected currStart (currStart + addSec))

def hourJobs (t : Tables) (currStart : Int) : List JobRow :=
  t.jobs.filter (·.selected currStart (currStart + addSec))

/-- The id of a record that is taken for the current one before there is any. -/
def FreshIds (trackWckey : Bool) (row : JobRow) : Prop :=
  row.associd ≠ -1 ∧ (trackWckey = true → row.wckeyid ≠ -1)

/-- The rows of an hour that go through: every reservation with a second in the hour names a
cluster that registers in it, and the first job with time to charge has ids other than -1. -/
structure HourSafe (trackWckey : Bool) (t : Tables) (currStart : Int) : Prop where
  registered : ∀ row ∈ hourResvRows t currStart,
    (hourResv currStart (currStart + addSec) row).isSome = true →
      ∃ event ∈ hourEvents t currStart,
        Registers currStart (currStart + addSec) event row.cluster
  ids : ∀ row, ((hourJobs t currStart).filter
    (·.charged currStart (currStart + addSec))).head? = some row → FreshIds trackWckey row

/-! ## Reservations -/

section Clusters

variable {clusters : List ClusterUsage} {f : ClusterUsage → ClusterUsage}

theorem isSome_updateCluster (hname : ∀ c, (f c).name = c.name) (name other : String) :
    (findCluster (updateCluster clusters name f) other).isSome =
      (findCluster clusters other).isSome := by
  rw [findCluster_updateCluster hname]
  split
  · rename_i heq
    rw [Option.isSome_map, heq]
  · rfl

theorem isSome_append {c : ClusterUsage} (name : String) :
    (findCluster (clusters ++ [c]) name).isSome = true ↔
      (findCluster clusters name).isSome = true ∨ c.name = name := by
  unfold findCluster
  rw [List.find?_append, Option.isSome_or, Bool.or_eq_true]
  by_cases hc : c.name = name
  · simp [hc]
  · simp [hc]

end Clusters

section Hour

variable {trackWckey : Bool} {currStart currEnd : Int} {h h' : HourState}

theorem isSome_eventStep (clusters : List ClusterUsage) (row : EventRow) (name : String) :
    (findCluster (eventStep currStart currEnd clusters row) name).isSome = true ↔
      (findCluster clusters name).isSome = true ∨ Registers currStart currEnd row name := by
  unfold Registers
  simp only [eventStep]
  split
  · rename_i hshort
    simp [hshort]
  · rename_i hlong
    split
    · rename_i hnode
      split
      · rename_i hnone
        rw [isSome_append]
        simp [hnode, hlong, ClusterUsage.register]
      · rename_i c hc
        rw [isSome_updateCluster]
        constructor
        · exact Or.inl
        · rintro (hsome | ⟨-, hname, -⟩)
          · exact hsome
          · rw [← hname, hc]
            rfl
        · exact fun _ => rfl
    · rename_i hnode
      rw [isSome_updateCluster]
      · simp [hnode]
      · intro c
        unfold ClusterUsage.down
        dsimp only
        split_ifs
        all_goals rfl

/-- The records are those of the clusters that register. -/
theorem registered_iff (rows : List EventRow) (name : String) :
    (findCluster (rows.foldl (eventStep currStart currEnd) []) name).isSome = true ↔
      ∃ row ∈ rows, Registers currStart currEnd row name := by
  have hrun : ∀ clusters : List ClusterUsage,
      (findCluster (rows.foldl (eventStep currStart currEnd) clusters) name).isSome = true ↔
        (findCluster clusters name).isSome = true ∨
          ∃ row ∈ rows, Registers currStart currEnd row name := by
    induction rows with
    | nil => simp
    | cons row rows ih =>
      intro clusters
      rw [List.foldl_cons, ih, isSome_eventStep, or_assoc]
      simp
  rw [hrun]
  exact or_iff_right Bool.false_ne_true

theorem resvStep_isSome_iff (row : ResvRow) :
    (resvStep currStart currEnd h row).isSome = true ↔
      ((hourResv currStart currEnd row).isSome = true →
        (findCluster h.clusters row.cluster).isSome = true) := by
  simp only [resvStep, hourResv]
  split
  · simp
  · split
    · rename_i hnone
      simp [hnone]
    · rename_i hsome
      simp [hsome]

theorem resvStep_clusters {row : ResvRow} (hstep : resvStep currStart currEnd h row = some h')
    (name : String) :
    (findCluster h'.clusters name).isSome = (findCluster h.clusters name).isSome := by
  simp only [resvStep] at hstep
  split at hstep
  · rw [← Option.some.inj hstep]
  · split at hstep
    · cases hstep
    · rw [← Option.some.inj hstep]
      apply isSome_updateCluster
      intro c
      unfold ClusterUsage.reserve
      split
      · rfl
      · rfl

theorem resvs_isSome_iff (rows : List ResvRow) :
    (rows.foldlM (resvStep currStart currEnd) h).isSome = true ↔
      ∀ row ∈ rows, (hourResv currStart currEnd row).isSome = true →
        (findCluster h.clusters row.cluster).isSome = true := by
  apply foldlM_isSome_iff
    (fun s => ∀ name, (findCluster s.clusters name).isSome = (findCluster h.clusters name).isSome)
  · intro s row hs
    rw [resvStep_isSome_iff, hs]
  · intro s row s' hs hstep name
    rw [resvStep_clusters hstep, hs]
  · exact fun _ => rfl

/-! ## Jobs -/

theorem calcCluster_wckeys (h : HourState) (row : JobRow) (rowStart rowEnd seconds : Int) :
    (calcCluster h row rowStart rowEnd seconds).wckeys = h.wckeys := by
  unfold calcCluster
  split
  · rfl
  · split_ifs
    all_goals rfl

/-- A job without time to charge leaves the lists of usage as they are. -/
theorem jobStep_of_not_charged {row : JobRow} (hrow : row.charged currStart currEnd = false) :
    ∃ h', jobStep trackWckey currStart currEnd h row = some h' ∧ h'.assocs = h.assocs ∧
      h'.wckeys = h.wckeys := by
  have hnot : ¬(row.runs currStart currEnd = true ∧ ¬row.seconds currStart currEnd < 1) := by
    rw [← charged_eq_true, hrow]
    exact Bool.false_ne_true
  simp only [jobStep]
  split
  · rename_i hruns
    rw [if_pos (not_not.mp fun hlong => hnot ⟨hruns, hlong⟩)]
    exact ⟨h, rfl, rfl, rfl⟩
  · exact ⟨_, rfl, calcCluster_assocs .., calcCluster_wckeys ..⟩

theorem jobStep_of_charged {row : JobRow} (hrow : row.charged currStart currEnd = true) :
    jobStep trackWckey currStart currEnd h row =
      (chargeIds trackWckey h row (row.seconds currStart currEnd)).map fun h =>
        calcCluster h row (row.rowStart currStart) (row.rowEnd currEnd)
          (row.seconds currStart currEnd) := by
  rcases charged_eq_true.mp hrow with ⟨hruns, hlong⟩
  simp only [jobStep]
  rw [if_pos hruns, if_neg hlong]
  cases chargeIds trackWckey h row (row.seconds currStart currEnd) with
  | none => rfl
  | some h₁ => rfl

/-- The list has a current record. -/
def Tally.Started (t : Tally) : Prop := t.cur.isSome = true

theorem charge_isSome (t : Tally) (secs : UInt64) :
    (t.charge secs).isSome = true ↔ t.Started := by
  rw [Tally.charge, Option.isSome_map]
  rfl

theorem started_charge {t t' : Tally} {secs : UInt64} (hcharge : t.charge secs = some t') :
    t'.Started := by
  rcases Option.map_eq_some_iff.mp hcharge with ⟨i, hi, rfl⟩
  show t.cur.isSome = true
  rw [hi]
  rfl

theorem started_forAssoc {t : Tally} (ht : t.Started) (id : Int) : (t.forAssoc id).Started := by
  unfold Tally.forAssoc
  split
  · rfl
  · exact ht

theorem started_forWckey {t : Tally} (ht : t.Started) (id : Int) : (t.forWckey id).Started := by
  unfold Tally.forWckey
  split
  · split
    · rfl
    · rfl
  · exact ht

/-- The first id is searched unless it is the one that a list begins with. -/
theorem empty_started_iff {found : Tally} (id : Int) (hnew : found.Started) :
    (if Tally.empty.lastId ≠ id then found else Tally.empty).Started ↔ id ≠ -1 := by
  by_cases hid : id = -1
  · subst hid
    exact iff_of_false Bool.false_ne_true (not_not.mpr rfl)
  · rw [if_pos fun heq => hid heq.symm]
    exact iff_of_true hnew hid

theorem chargeIds_isSome_iff (row : JobRow) (seconds : Int) :
    (chargeIds trackWckey h row seconds).isSome = true ↔
      (h.assocs.forAssoc row.associd).Started ∧
        (trackWckey = true → (h.wckeys.forWckey row.wckeyid).Started) := by
  rw [← charge_isSome (h.assocs.forAssoc row.associd) (cpuSecs seconds row.allocCpus),
    ← charge_isSome (h.wckeys.forWckey row.wckeyid) (cpuSecs seconds row.allocCpus)]
  unfold chargeIds chargeWckey
  cases (h.assocs.forAssoc row.associd).charge (cpuSecs seconds row.allocCpus) with
  | none => simp
  | some assocs =>
    cases trackWckey with
    | false => simp
    | true =>
      cases (h.wckeys.forWckey row.wckeyid).charge (cpuSecs seconds row.allocCpus) with
      | none => simp
      | some wckeys => simp

theorem started_chargeIds {row : JobRow} {seconds : Int}
    (hcharge : chargeIds trackWckey h row seconds = some h') :
    h'.assocs.Started ∧ (trackWckey = true → h'.wckeys.Started) := by
  rcases chargeIds_cases hcharge with ⟨assocs, wckeys, hassocs, hwckeys, rfl⟩
  refine ⟨started_charge hassocs, ?_⟩
  intro htrack
  unfold chargeWckey at hwckeys
  rw [if_pos htrack] at hwckeys
  exact started_charge hwckeys

/-- The lists in use have a current record. -/
def HourState.Started (trackWckey : Bool) (h : HourState) : Prop :=
  h.assocs.Started ∧ (trackWckey = true → h.wckeys.Started)

theorem jobStep_started {row : JobRow} (hs : h.Started trackWckey) :
    (jobStep trackWckey currStart currEnd h row).isSome = true := by
  cases hrow : row.charged currStart currEnd with
  | false =>
    rcases @jobStep_of_not_charged trackWckey _ _ h _ hrow with ⟨h', hstep, -⟩
    rw [hstep]
    rfl
  | true =>
    rw [jobStep_of_charged hrow, Option.isSome_map, chargeIds_isSome_iff]
    exact ⟨started_forAssoc hs.1 _, fun htrack => started_forWckey (hs.2 htrack) _⟩

theorem started_jobStep {row : JobRow} (hs : h.Started trackWckey)
    (hstep : jobStep trackWckey currStart currEnd h row = some h') : h'.Started trackWckey := by
  cases hrow : row.charged currStart currEnd with
  | false =>
    rcases @jobStep_of_not_charged trackWckey _ _ h _ hrow with
      ⟨h₁, hstep₁, hassocs, hwckeys⟩
    rw [hstep] at hstep₁
    rw [Option.some.inj hstep₁]
    unfold HourState.Started
    rw [hassocs, hwckeys]
    exact hs
  | true =>
    rw [jobStep_of_charged hrow] at hstep
    rcases Option.map_eq_some_iff.mp hstep with ⟨h₁, hcharge, rfl⟩
    unfold HourState.Started
    rw [calcCluster_assocs, calcCluster_wckeys]
    exact started_chargeIds hcharge

/-- The jobs go through when the first one charged gets its records. -/
theorem jobs_isSome_iff (rows : List JobRow) (hassocs : h.assocs = Tally.empty)
    (hwckeys : h.wckeys = Tally.empty) :
    (rows.foldlM (jobStep trackWckey currStart currEnd) h).isSome = true ↔
      ∀ row, (rows.filter (·.charged currStart currEnd)).head? = some row →
        FreshIds trackWckey row := by
  induction rows generalizing h with
  | nil =>
    apply iff_of_true rfl
    intro row hrow
    cases hrow
  | cons row rows ih =>
    rw [List.foldlM_cons]
    cases hrow : row.charged currStart currEnd with
    | false =>
      rcases @jobStep_of_not_charged trackWckey _ _ h _ hrow with
        ⟨h₁, hstep, hassocs₁, hwckeys₁⟩
      rw [hstep, List.filter_cons_of_neg (by rw [hrow]; exact Bool.false_ne_true)]
      exact ih (hassocs₁.trans hassocs) (hwckeys₁.trans hwckeys)
    | true =>
      rw [List.filter_cons_of_pos hrow, List.head?_cons]
      have hfirst : (jobStep trackWckey currStart currEnd h row).isSome = true ↔
          FreshIds trackWckey row := by
        rw [jobStep_of_charged hrow, Option.isSome_map, chargeIds_isSome_iff, hassocs, hwckeys]
        exact and_congr (empty_started_iff _ rfl)
          (imp_congr_right fun _ => empty_started_iff _ rfl)
      have hhead : (∀ r, some row = some r → FreshIds trackWckey r) ↔
          FreshIds trackWckey row :=
        ⟨fun hall => hall row rfl, fun hids r heq => Option.some.inj heq ▸ hids⟩
      rw [hhead, ← hfirst]
      cases hstep : jobStep trackWckey currStart currEnd h row with
      | none => exact Iff.rfl
      | some h₁ =>
        -- from the first charge on every job finds its records
        rw [jobStep_of_charged hrow] at hstep
        rcases Option.map_eq_some_iff.mp hstep with ⟨h₂, hcharge, rfl⟩
        have hstarted : HourState.Started trackWckey (calcCluster h₂ row
            (row.rowStart currStart) (row.rowEnd currEnd)
            (row.seconds currStart currEnd)) := by
          unfold HourState.Started
          rw [calcCluster_assocs, calcCluster_wckeys]
          exact started_chargeIds hcharge
        apply iff_of_true _ rfl
        exact (foldlM_isSome_iff (fun s => HourState.Started trackWckey s) (fun _ => True)
          (fun _ _ hs => iff_of_true (jobStep_started hs) trivial)
          (fun _ _ _ hs hstep => started_jobStep hs hstep) hstarted).mpr
            fun _ _ => trivial

/-! ## Shares -/

theorem chargeShare_isSome (share : UInt64) (t : Tally) (id : Int) :
    (chargeShare share t id).isSome = true := by
  unfold chargeShare
  rw [charge_isSome]
  unfold Tally.forShare
  dsimp only
  generalize (if t.lastId ≠ id then _ else t : Tally) = found
  split
  · rfl
  · rename_i hcur
    exact Option.isSome_iff_ne_none.mpr hcur

theorem shareStep_isSome (t : Tally) {r : ResvUsage} (hr : r.localAssocs ≠ []) :
    (shareStep t r).isSome = true := by
  unfold shareStep
  rw [if_neg hr]
  split
  · rfl
  · exact (foldlM_isSome_iff (fun _ => True) (fun _ => True)
      (fun s a _ => iff_of_true (chargeShare_isSome _ s a) trivial)
      (fun _ _ _ _ _ => trivial) trivial).mpr fun _ _ => trivial

/-- No reservation shares its idle time among no associations. -/
theorem localAssocs_ne_nil {t : Tables} {r : ResvUsage} (hr : r ∈ usedResvs t currStart) :
    r.localAssocs ≠ [] := by
  obtain ⟨r, hbegun, rfl⟩ := List.mem_map.mp hr
  obtain ⟨row, -, hrow⟩ := List.mem_filterMap.mp hbegun
  have hjobs : ∀ (jobs : List JobRow) (r : ResvUsage),
      (jobs.foldl (useResv currStart (currStart + addSec)) r).localAssocs = r.localAssocs := by
    intro jobs
    induction jobs with
    | nil => exact fun _ => rfl
    | cons job jobs ih =>
      intro r
      rw [List.foldl_cons, ih]
      unfold useResv ResvUsage.use
      split
      · rfl
      · dsimp only
        split_ifs
        all_goals rfl
  have hassocs : r.localAssocs = row.localAssocs := by
    simp only [hourResv] at hrow
    split at hrow
    · cases hrow
    · rw [← Option.some.inj hrow]
      rfl
  rw [hjobs, hassocs, ResvRow.localAssocs, ne_eq, List.map_eq_nil_iff]
  exact CharList.addtoCharList_ne_nil _ _

theorem shares_isSome {rs : List ResvUsage} (hrs : ∀ r ∈ rs, r.localAssocs ≠ []) (t : Tally) :
    (rs.foldlM shareStep t).isSome = true := by
  induction rs generalizing t with
  | nil => rfl
  | cons r rs ih =>
    obtain ⟨hr, hrs⟩ := List.forall_mem_cons.mp hrs
    obtain ⟨t', ht'⟩ := Option.isSome_iff_exists.mp (shareStep_isSome t hr)
    rw [List.foldlM_cons, ht']
    exact ih hrs t'

end Hour

/-! ## Hours -/

theorem resvs_wckeys {rows : List ResvRow} {currStart currEnd : Int} {h h' : HourState}
    (hrun : rows.foldlM (resvStep currStart currEnd) h = some h') : h'.wckeys = h.wckeys := by
  apply foldlM_load (n := 0) (fun _ s => s.wckeys = h.wckeys) (fun _ => 0) _ rfl hrun
  intro _ s s' row _ hs hstep
  simp only [resvStep] at hstep
  split at hstep
  · rw [← Option.some.inj hstep]
    exact hs
  · split at hstep
    · cases hstep
    · rw [← Option.some.inj hstep]
      exact hs

/-- The lists of an hour before its reservations. -/
def hourStart (t : Tables) (currStart : Int) : HourState :=
  { HourState.empty with
    clusters := (hourEvents t currStart).foldl (eventStep currStart (currStart + addSec)) [] }

theorem jobsDone_bind (trackWckey : Bool) (t : Tables) (currStart : Int) :
    jobsDone trackWckey t currStart =
      ((hourResvRows t currStart).foldlM (resvStep currStart (currStart + addSec))
        (hourStart t currStart)).bind fun h =>
          (hourJobs t currStart).foldlM (jobStep trackWckey currStart (currStart + addSec)) h := rfl

/-- The jobs of an hour are reached and go through. -/
theorem jobsDone_isSome_iff (trackWckey : Bool) (t : Tables) (currStart : Int) :
    (jobsDone trackWckey t currStart).isSome = true ↔
      (∀ row ∈ hourResvRows t currStart,
        (hourResv currStart (currStart + addSec) row).isSome = true →
          ∃ event ∈ hourEvents t currStart,
            Registers currStart (currStart + addSec) event row.cluster) ∧
        ∀ row, ((hourJobs t currStart).filter
          (·.charged currStart (currStart + addSec))).head? = some row →
            FreshIds trackWckey row := by
  have hresvs := @resvs_isSome_iff currStart (currStart + addSec) (hourStart t currStart)
    (hourResvRows t currStart)
  simp only [hourStart, registered_iff] at hresvs
  rw [← hresvs, jobsDone_bind]
  change _ ↔ ((hourResvRows t currStart).foldlM (resvStep currStart (currStart + addSec))
    (hourStart t currStart)).isSome = true ∧ _
  cases hrun : (hourResvRows t currStart).foldlM (resvStep currStart (currStart + addSec))
      (hourStart t currStart) with
  | none => exact iff_of_false Bool.false_ne_true fun hboth => Bool.false_ne_true hboth.1
  | some h =>
    rw [← jobs_isSome_iff (hourJobs t currStart) (resvs_frame hrun).2 (resvs_wckeys hrun)]
    exact (and_iff_right rfl).symm

/-- An hour goes through exactly when its rows are safe. -/
theorem hour_isSome_iff (trackWckey : Bool) (t : Tables) (currStart : Int) :
    (hour trackWckey t currStart).isSome = true ↔ HourSafe trackWckey t currStart := by
  have hjobs := jobsDone_isSome_iff trackWckey t currStart
  unfold hour
  cases hdone : jobsDone trackWckey t currStart with
  | none =>
    rw [hdone] at hjobs
    apply iff_of_false Bool.false_ne_true
    intro hsafe
    exact Bool.false_ne_true (hjobs.mpr ⟨hsafe.registered, hsafe.ids⟩)
  | some h =>
    rw [hdone] at hjobs
    rcases hjobs.mp rfl with ⟨hregistered, hids⟩
    have hassocs : ∀ r ∈ h.resvs, r.localAssocs ≠ [] := by
      rw [(jobsDone_frame hdone).2]
      exact fun r => localAssocs_ne_nil
    obtain ⟨assocs, hshares⟩ := Option.isSome_iff_exists.mp (shares_isSome hassocs h.assocs)
    refine iff_of_true ?_ ⟨hregistered, hids⟩
    show (h.resvs.foldlM shareStep h.assocs >>= fun assocs => some _).isSome = true
    rw [hshares]
    rfl

theorem length_hours_iff (trackWckey : Bool) (t : Tables) (n : Nat) (currStart : Int) :
    (hours trackWckey t n currStart).length = n ↔
      ∀ k < n, HourSafe trackWckey t (currStart + k * addSec) := by
  induction n generalizing currStart with
  | zero => exact iff_of_true rfl fun k hk => absurd hk (Nat.not_lt_zero k)
  | succ n ih =>
    have hfirst := hour_isSome_iff trackWckey t currStart
    have hshift : (∀ k < n + 1, HourSafe trackWckey t (currStart + k * addSec)) ↔
        HourSafe trackWckey t currStart ∧
          ∀ k < n, HourSafe trackWckey t (currStart + addSec + k * addSec) := by
      constructor
      · intro hall
        refine ⟨by simpa using hall 0 (Nat.succ_pos n), ?_⟩
        intro k hk
        have hnext := hall (k + 1) (Nat.succ_lt_succ hk)
        have heq : currStart + ((k + 1 : Nat) : Int) * addSec =
            currStart + addSec + k * addSec := by
          rw [Int.natCast_add, Int.add_mul]
          omega
        rwa [heq] at hnext
      · rintro ⟨hzero, hrest⟩ k hk
        cases k with
        | zero => simpa using hzero
        | succ k =>
          have heq : currStart + ((k + 1 : Nat) : Int) * addSec =
              currStart + addSec + k * addSec := by
            rw [Int.natCast_add, Int.add_mul]
            omega
          rw [heq]
          exact hrest k (Nat.lt_of_succ_lt_succ hk)
    rw [hshift, ← hfirst, hours]
    cases hour trackWckey t currStart with
    | none =>
      apply iff_of_false
      · exact Nat.succ_ne_zero n ∘ Eq.symm
      · exact fun hboth => Bool.false_ne_true hboth.1
    | some out =>
      rw [← ih (currStart + addSec)]
      show _ + 1 = n + 1 ↔ _
      rw [Nat.add_right_cancel_iff]
      exact (and_iff_right rfl).symm

/-- The number of hours from `start` to `stop`. -/
def rounds (start stop : Int) : Nat := ((stop - start + (addSec - 1)) / addSec).toNat

theorem noJobs_inOrder : ([] : List JobRow).Pairwise fun a b =>
    a.associd < b.associd ∨ a.associd = b.associd ∧ a.eligible ≤ b.eligible := List.Pairwise.nil

/-- A reservation of a cluster that has not registered. -/
def unregisteredTables : Tables where
  events := []
  resvs := [
    { id := 7, cluster := "c", assoclist := ['2'], cpus := 4, flags := 0, start := 0,
      stop := 3600 }]
  jobs := []
  jobsInOrder := noJobs_inOrder

end Slurm.Rollup
