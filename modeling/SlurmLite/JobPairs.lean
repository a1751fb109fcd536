import SlurmLite.JobacctProcess

/-!
# One record for each job

The loop of `mysql_jobacct_process_get_jobs` as built without `NEWQUERY`, for rows of
several clusters and a query without duplicates. It remembers the last job id and not
its cluster.

* **Newest rows** (`newestPassing`): the rows to be reported, the first of their cluster
  and job id that pass the node filter.
* **The list** (`oneForEachPair_iff`): when these are the rows of the job list.
-/

namespace Slurm.JobProcess

/-- A result row with the name of its cluster. -/
abbrev ClusterRow : Type := String × Row

/-- The cluster and the job id of a row. -/
def pairOf (r : ClusterRow) : String × Nat := (r.1, r.2.jobid)

/-- One turn of the loop as built without `NEWQUERY`. -/
def appendJobsRow (duplicates : Bool) (clusters : List LocalCluster) (s : Loop)
    (r : ClusterRow) : Loop :=
  if ¬duplicates ∧ (r.2.jobid : Int) = s.lastId then s
  else
    match goodNodesFromInx clusters s.curr r.2.nodeInx r.2.submit with
    | (false, curr) => { s with lastId := r.2.jobid, curr := curr }
    | (true, curr) => { lastId := r.2.jobid, curr := curr, jobList := s.jobList ++ [r.2] }

/-- The order of the result rows without duplicates. -/
def OrderedByCluster (rows : List ClusterRow) : Prop :=
  rows.Pairwise fun a b => a.1 < b.1 ∨ a.1 = b.1 ∧
    (a.2.jobid < b.2.jobid ∨ a.2.jobid = b.2.jobid ∧ b.2.submit ≤ a.2.submit)

instance (rows : List ClusterRow) : Decidable (OrderedByCluster rows) :=
  inferInstanceAs (Decidable (rows.Pairwise _))

section Rows

variable (clusters : List LocalCluster) (curr : Option LocalCluster)

/-- The variables of the loop after some rows. -/
def loopAfter (before : List ClusterRow) : Loop :=
  before.foldl (appendJobsRow false clusters) ⟨-1, curr, []⟩

/-- The node filter lets a row pass that comes after others. -/
def passes (before : List ClusterRow) (r : ClusterRow) : Bool :=
  (goodNodesFromInx clusters (loopAfter clusters curr before).curr r.2.nodeInx r.2.submit).1

/-- The rows with none of their cluster and job id before them that pass the filter. -/
def newestPassing : List ClusterRow → List ClusterRow → List Row
  | _, [] => []
  | before, r :: rows =>
    if pairOf r ∉ before.map pairOf ∧ passes clusters curr before r = true then
      r.2 :: newestPassing (before ++ [r]) rows
    else newestPassing (before ++ [r]) rows

/-- The job list has one record for each cluster and job id whose most recently submitted row
passes the node filter, that of this row, and no other. -/
def OneForEachPair (rows : List ClusterRow) : Prop :=
  (loopAfter clusters curr rows).jobList = newestPassing clusters curr [] rows

/-- No row that follows one of another cluster with its job id passes the node filter. -/
def NoneLost (rows : List ClusterRow) : Prop :=
  ∀ before a b after, rows = before ++ a :: b :: after → a.2.jobid = b.2.jobid → a.1 ≠ b.1 →
    passes clusters curr (before ++ [a]) b = false

end Rows

/-! ## Newest rows -/

/-- A row with none of its cluster and job id before it is the one of them submitted last. -/
theorem submit_le_of_first {before after : List ClusterRow} {r s : ClusterRow}
    (ho : OrderedByCluster (before ++ r :: after)) (hfirst : pairOf r ∉ before.map pairOf)
    (hs : s ∈ before ++ r :: after) (hpair : pairOf s = pairOf r) :
    s.2.submit ≤ r.2.submit := by
  obtain hmem | hmem := List.mem_append.mp hs
  · exact absurd (List.mem_map.mpr ⟨s, hmem, hpair⟩) hfirst
  · obtain rfl | hmem := List.mem_cons.mp hmem
    · exact Int.le_refl _
    · have hrel := (List.pairwise_cons.mp (List.pairwise_append.mp ho).2.1).1 s hmem
      obtain ⟨hcluster, hid⟩ := Prod.mk.inj hpair
      obtain hlt | ⟨-, hlt | ⟨-, hle⟩⟩ := hrel
      · rw [hcluster] at hlt
        exact absurd hlt (lt_irrefl _)
      · omega
      · exact hle

/-- The clusters and, within a cluster, the job ids do not go back. -/
theorem le_of_relation {a b : ClusterRow}
    (h : a.1 < b.1 ∨ a.1 = b.1 ∧
      (a.2.jobid < b.2.jobid ∨ a.2.jobid = b.2.jobid ∧ b.2.submit ≤ a.2.submit)) :
    a.1 ≤ b.1 ∧ (a.1 = b.1 → a.2.jobid ≤ b.2.jobid) := by
  obtain hlt | ⟨heq, hid⟩ := h
  · exact ⟨hlt.le, fun heq => absurd heq hlt.ne⟩
  · exact ⟨heq.le, fun _ => hid.elim le_of_lt fun h => h.1.le⟩

/-- Where a row has one of its cluster and job id before it, the last row before it is such. -/
theorem last_of_mem {before after : List ClusterRow} {a r : ClusterRow}
    (ho : OrderedByCluster ((before ++ [a]) ++ r :: after))
    (hmem : pairOf r ∈ (before ++ [a]).map pairOf) : pairOf a = pairOf r := by
  obtain ⟨s, hs, hpair⟩ := List.mem_map.mp hmem
  obtain ⟨hcluster, hid⟩ := Prod.mk.inj hpair
  obtain hs | hs := List.mem_append.mp hs
  · rw [List.append_assoc] at ho
    have hparts := List.pairwise_append.mp ho
    obtain ⟨hsa, hsaid⟩ := le_of_relation (hparts.2.2 s hs a List.mem_cons_self)
    obtain ⟨har, harid⟩ :=
      le_of_relation ((List.pairwise_cons.mp hparts.2.1).1 r List.mem_cons_self)
    have heq : a.1 = r.1 := le_antisymm har (hcluster ▸ hsa)
    have hle : r.2.jobid ≤ a.2.jobid := hid.symm.le.trans (hsaid (hcluster.trans heq.symm))
    exact Prod.ext heq (le_antisymm (harid heq) hle)
  · rw [← List.mem_singleton.mp hs]
    exact hpair

/-! ## The loop -/

section Rows

variable {clusters : List LocalCluster} {curr : Option LocalCluster}

theorem loopAfter_concat (before : List ClusterRow) (r : ClusterRow) :
    loopAfter clusters curr (before ++ [r]) =
      appendJobsRow false clusters (loopAfter clusters curr before) r := by
  rw [loopAfter, List.foldl_append]
  rfl

theorem appendJobsRow_lastId (s : Loop) (r : ClusterRow) :
    (appendJobsRow false clusters s r).lastId = r.2.jobid := by
  unfold appendJobsRow
  split
  · rename_i h
    exact h.2.symm
  · split
    · rfl
    · rfl

/-- A row whose job id is the last one, though none of its cluster is before it. -/
def Lost (clusters : List LocalCluster) (curr : Option LocalCluster) (before : List ClusterRow)
    (r : ClusterRow) : Prop :=
  pairOf r ∉ before.map pairOf ∧ (loopAfter clusters curr before).lastId = r.2.jobid ∧
    passes clusters curr before r = true

/-- The records that the loop adds for further rows. -/
def added (clusters : List LocalCluster) (curr : Option LocalCluster) :
    List ClusterRow → List ClusterRow → List Row
  | _, [] => []
  | before, r :: rows =>
    if (loopAfter clusters curr before).lastId ≠ r.2.jobid ∧
        passes clusters curr before r = true then
      r.2 :: added clusters curr (before ++ [r]) rows
    else added clusters curr (before ++ [r]) rows

theorem appendJobsRow_jobList (before : List ClusterRow) (r : ClusterRow) :
    (appendJobsRow false clusters (loopAfter clusters curr before) r).jobList =
      (loopAfter clusters curr before).jobList ++
        if (loopAfter clusters curr before).lastId ≠ r.2.jobid ∧
          passes clusters curr before r = true then [r.2] else [] := by
  unfold appendJobsRow passes
  by_cases hid : (r.2.jobid : Int) = (loopAfter clusters curr before).lastId
  · rw [if_pos ⟨Bool.false_ne_true, hid⟩, if_neg fun h => h.1 hid.symm, List.append_nil]
  · have hid' : (loopAfter clusters curr before).lastId ≠ r.2.jobid := fun h => hid h.symm
    rw [if_neg fun h => hid h.2]
    match goodNodesFromInx clusters (loopAfter clusters curr before).curr r.2.nodeInx
        r.2.submit with
    | (false, _) =>
      dsimp only
      rw [if_neg fun h => Bool.false_ne_true h.2, List.append_nil]
    | (true, _) =>
      dsimp only
      rw [if_pos ⟨hid', rfl⟩]

theorem loopAfter_append (before rows : List ClusterRow) :
    (loopAfter clusters curr (before ++ rows)).jobList =
      (loopAfter clusters curr before).jobList ++ added clusters curr before rows := by
  induction rows generalizing before with
  | nil => rw [List.append_nil, added, List.append_nil]
  | cons r rows ih =>
    rw [List.append_cons, ih, loopAfter_concat, appendJobsRow_jobList, added, List.append_assoc]
    split
    · rfl
    · rfl

/-- The last job id is that of the last row. -/
theorem loopAfter_concat_lastId (before : List ClusterRow) (a : ClusterRow) :
    (loopAfter clusters curr (before ++ [a])).lastId = a.2.jobid := by
  rw [loopAfter_concat, appendJobsRow_lastId]

theorem lastId_of_mem {before after : List ClusterRow} {r : ClusterRow}
    (ho : OrderedByCluster (before ++ r :: after)) (hmem : pairOf r ∈ before.map pairOf) :
    (loopAfter clusters curr before).lastId = r.2.jobid := by
  obtain rfl | ⟨init, a, rfl⟩ := List.eq_nil_or_concat' before
  · cases hmem
  · have hid : a.2.jobid = r.2.jobid := congrArg Prod.snd (last_of_mem ho hmem)
    rw [loopAfter_concat_lastId, hid]

theorem added_length_le {before rows : List ClusterRow} (ho : OrderedByCluster (before ++ rows)) :
    (added clusters curr before rows).length ≤
      (newestPassing clusters curr before rows).length := by
  induction rows generalizing before with
  | nil => exact Nat.le_refl _
  | cons r rows ih =>
    have htail := @ih (before ++ [r]) (by rwa [← List.append_cons])
    rw [added, newestPassing]
    split
    · rename_i h
      rw [if_pos ⟨fun hmem => h.1 (lastId_of_mem ho hmem), h.2⟩]
      exact Nat.succ_le_succ htail
    · split
      · exact htail.trans (Nat.le_succ _)
      · exact htail

/-- Something of every row and the rows before it, row by row. -/
theorem forall_rows_cons {p : List ClusterRow → ClusterRow → Prop} {before rows : List ClusterRow}
    {r : ClusterRow} :
    (∀ mid s after, r :: rows = mid ++ s :: after → p (before ++ mid) s) ↔
      p before r ∧ ∀ mid s after, rows = mid ++ s :: after → p ((before ++ [r]) ++ mid) s := by
  constructor
  · intro h
    refine ⟨?_, ?_⟩
    · have hr := h [] r rows rfl
      rwa [List.append_nil] at hr
    · intro mid s after heq
      rw [List.append_assoc]
      exact h (r :: mid) s after (congrArg (r :: ·) heq)
  · rintro ⟨hr, hrows⟩ mid s after heq
    cases mid with
    | nil =>
      obtain ⟨rfl, -⟩ := List.cons.inj heq
      rwa [List.append_nil]
    | cons t mid =>
      obtain ⟨rfl, htail⟩ := List.cons.inj heq
      have hs := hrows mid s after htail
      rwa [List.append_assoc] at hs

/-- The records added are those of the newest rows that pass where no row is lost. -/
theorem added_eq_iff {before rows : List ClusterRow} (ho : OrderedByCluster (before ++ rows)) :
    added clusters curr before rows = newestPassing clusters curr before rows ↔
      ∀ mid r after, rows = mid ++ r :: after → ¬Lost clusters curr (before ++ mid) r := by
  induction rows generalizing before with
  | nil =>
    refine ⟨?_, fun _ => rfl⟩
    intro _ mid r after heq
    exact absurd (congrArg List.length heq) (by simp)
  | cons r rows ih =>
    have ho' : OrderedByCluster ((before ++ [r]) ++ rows) := by rwa [← List.append_cons]
    rw [forall_rows_cons (p := fun before r => ¬Lost clusters curr before r), ← ih ho', added,
      newestPassing]
    by_cases hid : (loopAfter clusters curr before).lastId = r.2.jobid
    · rw [if_neg fun h => h.1 hid]
      by_cases hnew : pairOf r ∉ before.map pairOf ∧ passes clusters curr before r = true
      · -- the row is lost, and with it the list is shorter
        rw [if_pos hnew]
        have hlost : Lost clusters curr before r := ⟨hnew.1, hid, hnew.2⟩
        have hlen := @added_length_le clusters curr _ _ ho'
        constructor
        · intro heq
          have := congrArg List.length heq
          rw [List.length_cons] at this
          omega
        · intro h
          exact absurd hlost h.1
      · rw [if_neg hnew, and_iff_right fun hlost => hnew ⟨hlost.1, hlost.2.2⟩]
    · have hfirst : pairOf r ∉ before.map pairOf := fun hmem => hid (lastId_of_mem ho hmem)
      have hnot : ¬Lost clusters curr before r := fun hlost => hid hlost.2.1
      rw [and_iff_right hnot]
      by_cases hpass : passes clusters curr before r = true
      · rw [if_pos ⟨hid, hpass⟩, if_pos ⟨hfirst, hpass⟩, List.cons_inj_right]
      · rw [if_neg fun h => hpass h.2, if_neg fun h => hpass h.2]

theorem noneLost_iff {rows : List ClusterRow} (ho : OrderedByCluster rows) :
    (∀ mid r after, rows = mid ++ r :: after → ¬Lost clusters curr mid r) ↔
      NoneLost clusters curr rows := by
  constructor
  · intro h before a b after hsplit hid hcluster
    rw [List.append_cons] at hsplit
    rw [hsplit] at ho
    by_contra hpass
    refine h (before ++ [a]) b after hsplit ⟨?_, ?_, Bool.eq_true_of_not_eq_false hpass⟩
    · intro hmem
      obtain ⟨heq, -⟩ := Prod.mk.inj (last_of_mem ho hmem)
      exact hcluster heq
    · rw [loopAfter_concat_lastId, hid]
  · intro h mid r after hsplit hlost
    obtain ⟨hfirst, hid, hpass⟩ := hlost
    obtain rfl | ⟨before, a, rfl⟩ := List.eq_nil_or_concat' mid
    · -- the id before the first row is -1
      have hstart : (-1 : Int) = r.2.jobid := hid
      omega
    · rw [loopAfter_concat_lastId, Int.natCast_inj] at hid
      have hcluster : a.1 ≠ r.1 := by
        intro heq
        have hpair : pairOf a = pairOf r := Prod.ext heq hid
        exact hfirst (List.mem_map.mpr ⟨a, List.mem_append_right _ List.mem_cons_self, hpair⟩)
      rw [List.append_assoc] at hsplit
      have hfails := h before a r after hsplit hid hcluster
      rw [hpass] at hfails
      cases hfails

end Rows

/-- When the job list has one record for each cluster and job id; and the row that is to be
reported for them is the one submitted last. -/
theorem oneForEachPair_iff {clusters : List LocalCluster} {curr : Option LocalCluster}
    {rows : List ClusterRow} (ho : OrderedByCluster rows) :
    (OneForEachPair clusters curr rows ↔ NoneLost clusters curr rows) ∧
      ∀ before r after, rows = before ++ r :: after → pairOf r ∉ before.map pairOf →
        ∀ s ∈ rows, pairOf s = pairOf r → s.2.submit ≤ r.2.submit := by
  refine ⟨?_, ?_⟩
  · have hlist : (loopAfter clusters curr rows).jobList = added clusters curr [] rows :=
      loopAfter_append [] rows
    rw [OneForEachPair, hlist, @added_eq_iff _ _ [] rows ho]
    exact noneLost_iff ho
  · intro before r after hsplit hfirst s hs hpair
    rw [hsplit] at ho hs
    exact submit_le_of_first ho hfirst hs hpair

/-- Two clusters with different job ids, the second submitted twice. -/
def twoClusters : List ClusterRow :=
  [("a", ⟨1, 10, 10, none⟩), ("b", ⟨2, 30, 30, none⟩), ("b", ⟨2, 20, 20, none⟩)]

theorem oneForEachPair_twoClusters : OrderedByCluster twoClusters ∧
    OneForEachPair [] none twoClusters ∧
      (loopAfter [] none twoClusters).jobList = [⟨1, 10, 10, none⟩, ⟨2, 30, 30, none⟩] := by
  have ho : OrderedByCluster twoClusters := by decide
  refine ⟨ho, (oneForEachPair_iff ho).1.mpr ?_, by decide⟩
  intro before a b after hsplit hid hcluster
  match before with
  | [] =>
    obtain ⟨ha, hsplit⟩ := List.cons.inj hsplit
    obtain ⟨hb, -⟩ := List.cons.inj hsplit
    rw [← ha, ← hb] at hid
    cases hid
  | [c] =>
    obtain ⟨-, hsplit⟩ := List.cons.inj hsplit
    obtain ⟨ha, hsplit⟩ := List.cons.inj hsplit
    obtain ⟨hb, -⟩ := List.cons.inj hsplit
    rw [← ha, ← hb] at hcluster
    exact absurd rfl hcluster
  | c :: d :: before =>
    have hlen := congrArg List.length hsplit
    simp only [twoClusters, List.length_cons, List.length_append, List.length_nil] at hlen
    omega

/-- The job of the second cluster is taken for a duplicate of the first one. -/
theorem not_oneForEachPair_sameId :
    OrderedByCluster [("a", ⟨1, 10, 10, none⟩), ("b", ⟨1, 20, 20, none⟩)] ∧
      ¬OneForEachPair [] none [("a", ⟨1, 10, 10, none⟩), ("b", ⟨1, 20, 20, none⟩)] := by
  refine ⟨by decide, ?_⟩
  intro h
  have hlist : ([⟨1, 10, 10, none⟩] : List Row) = [⟨1, 10, 10, none⟩, ⟨1, 20, 20, none⟩] := h
  cases hlist

end Slurm.JobProcess
