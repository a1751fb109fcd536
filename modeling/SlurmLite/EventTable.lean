import SlurmLite.Base.Table
import SlurmLite.Base.Run

/-!
# The event table of the clusters

Each row of the event table is a period: a node that is down, or, under the empty
node name, the processor count of a cluster. A period is open while `period_end`
is 0. A call closes what is open and begins the next period at its event time.
Times are seconds below 2^31.

* **The calls** (`nodeDown`, `nodeUp`, `clusterProcs`): statement by statement.
* **The invariant** (`Periods`): the periods of a name follow each other.
* **Runs** (`events_run`): a cluster row is always there, unless a count is to
  begin when another one of the cluster began.
-/

namespace Slurm.EventTable

open Base.Table
open Base.Run

/-- A row of `cluster_event_table`. -/
structure EventRow where
  nodeName : String := ""
  cluster : String
  cpuCount : Nat
  state : Nat := 0
  periodStart : Nat
  periodEnd : Nat := 0
  reason : String
  clusterNodes : String := ""
deriving DecidableEq

/-- The primary key. -/
def SameKey (r s : EventRow) : Prop :=
  r.nodeName = s.nodeName ∧ r.cluster = s.cluster ∧ r.periodStart = s.periodStart

instance (r s : EventRow) : Decidable (SameKey r s) := inferInstanceAs (Decidable (_ ∧ _ ∧ _))

/-! ## The calls -/

/-- What is read of a `node_record`. -/
structure NodeRecord where
  name : String
  cpus : Nat
  configCpus : Nat
  nodeState : Nat
  reason : String
deriving DecidableEq

/-- The update that closes open periods. -/
def close (cond : EventRow → Prop) [DecidablePred cond] (eventTime : Nat) :
    List EventRow → List EventRow :=
  update (fun r => cond r ∧ r.periodEnd = 0) fun r => { r with periodEnd := eventTime }

/-- The row of a node that goes down; `fastSchedule` is that of a controller that
writes to the database itself. -/
def downRow (fastSchedule : Bool) (cluster : String) (node : NodeRecord) (eventTime : Nat)
    (reason : Option String) : EventRow where
  nodeName := node.name
  state := node.nodeState
  cluster := cluster
  cpuCount := if fastSchedule then node.configCpus else node.cpus
  periodStart := eventTime
  reason := reason.getD node.reason

/-- `clusteracct_storage_p_node_down`. -/
def nodeDown (fastSchedule : Bool) (cluster : String) (node : NodeRecord) (eventTime : Nat)
    (reason : Option String) (t : List EventRow) : List EventRow :=
  let row := downRow fastSchedule cluster node eventTime reason
  let t := close (fun r => r.cluster = cluster ∧ r.nodeName = node.name) eventTime t
  upsert (fun r => SameKey r row) row (fun r => { r with periodEnd := 0 }) t

/-- `clusteracct_storage_p_node_up`. -/
def nodeUp (cluster : String) (node : NodeRecord) (eventTime : Nat) (t : List EventRow) :
    List EventRow :=
  close (fun r => r.cluster = cluster ∧ r.nodeName = node.name) eventTime t

/-- The row of a processor count; a missing list of nodes is printed as text. -/
def procsRow (cluster : String) (clusterNodes : Option String) (procs eventTime : Nat) :
    EventRow where
  cluster := cluster
  clusterNodes := clusterNodes.getD "(null)"
  cpuCount := procs
  periodStart := eventTime
  reason := "Cluster processor count"

/-- The open row of a cluster that is looked at. -/
def clusterRow (cluster : String) (t : List EventRow) : Option EventRow :=
  t.find? fun r => r.cluster = cluster ∧ r.periodEnd = 0 ∧ r.nodeName = ""

/-- `clusteracct_storage_p_cluster_procs`: the table, also when the row can not be
inserted. -/
def clusterProcs (cluster : String) (clusterNodes : Option String) (procs eventTime : Nat)
    (t : List EventRow) : List EventRow :=
  let addIt (t : List EventRow) :=
    let row := procsRow cluster clusterNodes procs eventTime
    (insertNew (fun r => SameKey r row) row t).getD t
  let reset (t : List EventRow) := close (fun r => r.cluster = cluster) eventTime t
  match clusterRow cluster t with
  | none => addIt t
  | some row =>
    if row.cpuCount = procs then
      match clusterNodes with
      | none => t
      | some nodes =>
        if row.clusterNodes = "" then
          update (fun r => r.cluster = cluster ∧ r.periodEnd = 0 ∧ r.nodeName = "")
            (fun r => { r with clusterNodes := nodes }) t
        else if nodes = row.clusterNodes then t
        else addIt (reset t)
    else addIt (reset t)

/-- A call with its event time. -/
inductive Call where
  | nodeDown (fastSchedule : Bool) (cluster : String) (node : NodeRecord) (reason : Option String)
  | nodeUp (cluster : String) (node : NodeRecord)
  | clusterProcs (cluster : String) (clusterNodes : Option String) (procs : Nat)
deriving DecidableEq

/-- The table after a call. -/
def Call.run (eventTime : Nat) (t : List EventRow) : Call → List EventRow
  | .nodeDown fastSchedule cluster node reason =>
    EventTable.nodeDown fastSchedule cluster node eventTime reason t
  | .nodeUp cluster node => EventTable.nodeUp cluster node eventTime t
  | .clusterProcs cluster clusterNodes procs =>
    EventTable.clusterProcs cluster clusterNodes procs eventTime t

/-- The table with the time of the last event. -/
structure State where
  rows : List EventRow := []
  last : Nat := 0
deriving DecidableEq

/-- One call of a history. -/
def step (s : State) (call : Call × Nat) : Option State :=
  some ⟨call.1.run call.2 s.rows, call.2⟩

/-! ## The invariant -/

/-- Two periods of one name, one after the other. -/
def Apart (r s : EventRow) : Prop :=
  r.nodeName = s.nodeName → r.cluster = s.cluster →
    r.periodEnd ≠ 0 ∧ r.periodEnd ≤ s.periodStart ∨ s.periodEnd ≠ 0 ∧ s.periodEnd ≤ r.periodStart

/-- Periods up to a time. -/
structure Periods (last : Nat) (t : List EventRow) : Prop where
  apart : t.Pairwise Apart
  keys : t.Pairwise fun r s => ¬SameKey r s
  past : ∀ r ∈ t, r.periodStart ≤ last ∧ r.periodEnd ≤ last

section Periods

variable {t : List EventRow} {last time : Nat}

theorem ends_if (c : Prop) [Decidable c] (e : Nat) (r : EventRow) :
    ∃ e', (if c then { r with periodEnd := e } else r) = { r with periodEnd := e' } := by
  by_cases hc : c
  · exact ⟨e, if_pos hc⟩
  · exact ⟨r.periodEnd, if_neg hc⟩

/-- The key does not hold the end. -/
theorem keys_update {cond : EventRow → Prop} [DecidablePred cond] {e : Nat}
    (h : t.Pairwise fun r s => ¬SameKey r s) :
    (update cond (fun r => { r with periodEnd := e }) t).Pairwise fun r s => ¬SameKey r s := by
  refine List.pairwise_map.mpr (h.imp fun {r s} hrs => ?_)
  obtain ⟨d, hd⟩ := ends_if (cond r) e r
  obtain ⟨d', hd'⟩ := ends_if (cond s) e s
  rw [hd, hd']
  exact hrs

theorem Periods.close {cond : EventRow → Prop} [DecidablePred cond] (h : Periods last t)
    (htime : last ≤ time) : Periods time (close cond time t) := by
  refine ⟨?_, keys_update h.keys, ?_⟩
  · refine List.pairwise_map.mpr (h.apart.imp fun {r s} hrs => ?_)
    -- the row that ends first was closed before
    have hkept : ∀ r : EventRow, r.periodEnd ≠ 0 →
        (if cond r ∧ r.periodEnd = 0 then { r with periodEnd := time } else r) = r :=
      fun r hend => if_neg fun hc => hend hc.2
    obtain ⟨e, he⟩ := ends_if (cond r ∧ r.periodEnd = 0) time r
    obtain ⟨e', he'⟩ := ends_if (cond s ∧ s.periodEnd = 0) time s
    intro hname hcluster
    rw [he, he'] at hname hcluster
    refine (hrs hname hcluster).imp (fun hr => ?_) fun hs => ?_
    · rw [hkept r hr.1, he']
      exact hr
    · rw [hkept s hs.1, he]
      exact hs
  · refine forall_mem_update.mpr fun r hr => ⟨fun _ => ⟨?_, le_refl _⟩, fun _ => ⟨?_, ?_⟩⟩
    · exact (h.past r hr).1.trans htime
    · exact (h.past r hr).1.trans htime
    · exact (h.past r hr).2.trans htime

/-- What was closed is not open. -/
theorem closed_close {cond : EventRow → Prop} [DecidablePred cond] (hpos : time ≠ 0) :
    ∀ r ∈ EventTable.close cond time t, cond r → r.periodEnd ≠ 0 := by
  exact forall_mem_update.mpr fun r _ => ⟨fun _ _ => hpos, fun hnot hc hend => hnot ⟨hc, hend⟩⟩

theorem Periods.insert {row : EventRow} (h : Periods last t) (hstart : row.periodStart = last)
    (hopen : row.periodEnd = 0) (hnew : ∀ r ∈ t, ¬SameKey r row)
    (hclosed : ∀ r ∈ t, r.nodeName = row.nodeName → r.cluster = row.cluster → r.periodEnd ≠ 0) :
    Periods last (t ++ [row]) := by
  refine ⟨?_, ?_, ?_⟩
  · refine List.pairwise_append.mpr ⟨h.apart, List.pairwise_singleton _ _, fun r hr s hs => ?_⟩
    rw [List.mem_singleton.mp hs]
    intro hname hcluster
    rw [hstart]
    exact Or.inl ⟨hclosed r hr hname hcluster, (h.past r hr).2⟩
  · refine List.pairwise_append.mpr ⟨h.keys, List.pairwise_singleton _ _, fun r hr s hs => ?_⟩
    rw [List.mem_singleton.mp hs]
    exact hnew r hr
  · refine List.forall_mem_append.mpr ⟨h.past, List.forall_mem_singleton.mpr ⟨hstart.le, ?_⟩⟩
    omega

/-- A period that ended when it began is opened again. -/
theorem Periods.reopen {row : EventRow} (h : Periods last t) (hstart : row.periodStart = last)
    (hclosed : ∀ r ∈ t, r.nodeName = row.nodeName → r.cluster = row.cluster → r.periodEnd ≠ 0) :
    Periods last (update (fun r => SameKey r row) (fun r => { r with periodEnd := 0 }) t) := by
  refine ⟨?_, ?_, ?_⟩
  · refine List.pairwise_map.mpr ((h.apart.and h.keys).imp_of_mem fun {r s} hr hs hrs => ?_)
    obtain ⟨hapart, hkey⟩ := hrs
    by_cases hrrow : SameKey r row <;> by_cases hsrow : SameKey s row
    · exact absurd ⟨hrrow.1.trans hsrow.1.symm, hrrow.2.1.trans hsrow.2.1.symm,
        hrrow.2.2.trans hsrow.2.2.symm⟩ hkey
    · rw [if_pos hrrow, if_neg hsrow]
      intro hname hcluster
      refine Or.inr ⟨hclosed s hs (hname.symm.trans hrrow.1) (hcluster.symm.trans hrrow.2.1), ?_⟩
      show s.periodEnd ≤ r.periodStart
      rw [hrrow.2.2, hstart]
      exact (h.past s hs).2
    · rw [if_neg hrrow, if_pos hsrow]
      intro hname hcluster
      refine Or.inl ⟨hclosed r hr (hname.trans hsrow.1) (hcluster.trans hsrow.2.1), ?_⟩
      show r.periodEnd ≤ s.periodStart
      rw [hsrow.2.2, hstart]
      exact (h.past r hr).2
    · rw [if_neg hrrow, if_neg hsrow]
      exact hapart
  · exact keys_update h.keys
  · refine forall_mem_update.mpr fun r hr => ⟨fun _ => ⟨(h.past r hr).1, Nat.zero_le _⟩,
      fun _ => h.past r hr⟩

theorem Periods.nodeDown {fastSchedule : Bool} {cluster : String} {node : NodeRecord}
    {reason : Option String} (h : Periods last t) (htime : last ≤ time) (hpos : time ≠ 0) :
    Periods time (nodeDown fastSchedule cluster node time reason t) := by
  have hclose := @Periods.close t last time
    (fun r => r.cluster = cluster ∧ r.nodeName = node.name) _ h htime
  have hclosed : ∀ r ∈ EventTable.close
      (fun r => r.cluster = cluster ∧ r.nodeName = node.name) time t,
      r.nodeName = node.name → r.cluster = cluster → r.periodEnd ≠ 0 :=
    fun r hr hname hcluster => closed_close hpos r hr ⟨hcluster, hname⟩
  unfold EventTable.nodeDown upsert
  simp only
  split
  · exact @Periods.reopen _ time (downRow fastSchedule cluster node time reason) hclose rfl hclosed
  · next hnone =>
    exact @Periods.insert _ time (downRow fastSchedule cluster node time reason) hclose rfl rfl
      (fun r hr hkey => hnone ⟨r, hr, hkey⟩) hclosed

/-- A new count begins where no other one of the cluster began. -/
theorem Periods.addIt {cluster : String} {clusterNodes : Option String} {procs : Nat}
    (h : Periods time t)
    (hfree : ∀ r ∈ t, ¬SameKey r (procsRow cluster clusterNodes procs time))
    (hclosed : ∀ r ∈ t, r.nodeName = "" → r.cluster = cluster → r.periodEnd ≠ 0) :
    insertNew (fun r => SameKey r (procsRow cluster clusterNodes procs time))
        (procsRow cluster clusterNodes procs time) t =
      some (t ++ [procsRow cluster clusterNodes procs time]) ∧
    Periods time (t ++ [procsRow cluster clusterNodes procs time]) := by
  refine ⟨?_, h.insert rfl rfl hfree hclosed⟩
  unfold insertNew
  rw [if_neg fun hex => ?_]
  obtain ⟨r, hr, hkey⟩ := hex
  exact hfree r hr hkey

/-- A count that the open row of the cluster does not hold, or without such a row. -/
def Changed (cluster : String) (clusterNodes : Option String) (procs : Nat) (t : List EventRow) :
    Prop :=
  ∀ r, clusterRow cluster t = some r → r.cpuCount ≠ procs ∨
    ∃ nodes, clusterNodes = some nodes ∧ r.clusterNodes ≠ "" ∧ nodes ≠ r.clusterNodes

/-- The open rows of the count of a cluster. -/
def openCounts (cluster : String) (t : List EventRow) : List EventRow :=
  t.filter fun r => r.cluster = cluster ∧ r.periodEnd = 0 ∧ r.nodeName = ""

/-- One open row with the count and the nodes of the cluster. -/
def OneClusterRow (cluster clusterNodes : String) (procs : Nat) (t : List EventRow) : Prop :=
  ∃ r, openCounts cluster t = [r] ∧ r.cpuCount = procs ∧ r.clusterNodes = clusterNodes

theorem mem_openCounts {cluster : String} {r : EventRow} : r ∈ openCounts cluster t ↔
    r ∈ t ∧ r.cluster = cluster ∧ r.periodEnd = 0 ∧ r.nodeName = "" := by
  unfold openCounts
  rw [List.mem_filter, decide_eq_true_eq]

theorem mem_of_clusterRow {cluster : String} {r : EventRow} (h : clusterRow cluster t = some r) :
    r ∈ openCounts cluster t := by
  refine mem_openCounts.mpr ⟨List.mem_of_find?_eq_some h, ?_⟩
  simpa using List.find?_some h

theorem clusterRow_none {cluster : String} (h : clusterRow cluster t = none) :
    openCounts cluster t = [] := by
  refine List.filter_eq_nil_iff.mpr fun r hr => ?_
  exact List.find?_eq_none.mp h r hr

/-- There is one open row of a count at most. -/
theorem Periods.openCounts_eq {cluster : String} {r : EventRow} (h : Periods last t)
    (hr : r ∈ openCounts cluster t) : openCounts cluster t = [r] := by
  have hpair : (openCounts cluster t).Pairwise Apart := h.apart.sublist List.filter_sublist
  have hopen : ∀ s ∈ openCounts cluster t, s.cluster = cluster ∧ s.periodEnd = 0 ∧
      s.nodeName = "" := fun s hs => (mem_openCounts.mp hs).2
  have hnot : ∀ s ∈ openCounts cluster t, ∀ s' ∈ openCounts cluster t, ¬Apart s s' := by
    intro s hs s' hs' hapart
    obtain ⟨hc, he, hn⟩ := hopen s hs
    obtain ⟨hc', he', hn'⟩ := hopen s' hs'
    obtain hend | hend := hapart (hn.trans hn'.symm) (hc.trans hc'.symm)
    · exact hend.1 he
    · exact hend.1 he'
  cases hl : openCounts cluster t with
  | nil =>
    rw [hl] at hr
    exact absurd hr List.not_mem_nil
  | cons s rest =>
    rw [hl] at hpair hnot hr
    cases rest with
    | nil => rw [List.mem_singleton.mp hr]
    | cons s' rest =>
      have hapart := List.rel_of_pairwise_cons hpair List.mem_cons_self
      exact absurd hapart (hnot s List.mem_cons_self s' (List.mem_cons_of_mem _ List.mem_cons_self))

/-- The nodes are written to the open row of a count. -/
theorem Periods.setNodes {cond : EventRow → Prop} [DecidablePred cond] (h : Periods last t)
    (nodes : String) : Periods last
      (update cond (fun r => { r with clusterNodes := nodes }) t) := by
  have hcols : ∀ r : EventRow, ∃ n, (if cond r then { r with clusterNodes := nodes } else r) =
      { r with clusterNodes := n } := by
    intro r
    by_cases hc : cond r
    · exact ⟨nodes, if_pos hc⟩
    · exact ⟨r.clusterNodes, if_neg hc⟩
  refine ⟨List.pairwise_map.mpr (h.apart.imp fun {r s} hrs => ?_),
    List.pairwise_map.mpr (h.keys.imp fun {r s} hrs => ?_),
    forall_mem_update.mpr fun r hr => ⟨fun _ => h.past r hr, fun _ => h.past r hr⟩⟩
  · obtain ⟨n, hn⟩ := hcols r
    obtain ⟨n', hn'⟩ := hcols s
    rw [hn, hn']
    exact hrs
  · obtain ⟨n, hn⟩ := hcols r
    obtain ⟨n', hn'⟩ := hcols s
    rw [hn, hn']
    exact hrs

theorem Periods.oneClusterRow_setNodes {cluster : String} {procs : Nat} {row : EventRow}
    (h : Periods last t) (hopen : row ∈ openCounts cluster t) (hprocs : row.cpuCount = procs)
    (nodes : String) :
    OneClusterRow cluster nodes procs
      (update (fun r => r.cluster = cluster ∧ r.periodEnd = 0 ∧ r.nodeName = "")
        (fun r => { r with clusterNodes := nodes }) t) := by
  refine ⟨{ row with clusterNodes := nodes }, ?_, hprocs, rfl⟩
  have hseen : openCounts cluster
      (update (fun r => r.cluster = cluster ∧ r.periodEnd = 0 ∧ r.nodeName = "")
        (fun r => { r with clusterNodes := nodes }) t) =
      update (fun r => r.cluster = cluster ∧ r.periodEnd = 0 ∧ r.nodeName = "")
        (fun r => { r with clusterNodes := nodes }) (openCounts cluster t) :=
    filter_update fun _ _ _ => rfl
  rw [hseen, h.openCounts_eq hopen, update_singleton, if_pos (mem_openCounts.mp hopen).2]

/-- A new count is the only one that is open. -/
theorem oneClusterRow_append {cluster nodes : String} {procs : Nat}
    (hclosed : openCounts cluster t = []) :
    OneClusterRow cluster nodes procs (t ++ [procsRow cluster (some nodes) procs time]) := by
  refine ⟨procsRow cluster (some nodes) procs time, ?_, rfl, rfl⟩
  unfold openCounts at hclosed ⊢
  rw [List.filter_append, hclosed, List.nil_append]
  exact List.filter_cons_of_pos (by simp [procsRow])

/-- A processor count: the periods still follow each other, and with a list of
nodes the count given is the one that is open. -/
theorem Periods.clusterProcs {cluster : String} {clusterNodes : Option String} {procs : Nat}
    (h : Periods last t) (htime : last ≤ time) (hpos : time ≠ 0)
    (hfree : Changed cluster clusterNodes procs t →
      ∀ r ∈ t, r.cluster = cluster → r.nodeName = "" → r.periodStart ≠ time) :
    Periods time (clusterProcs cluster clusterNodes procs time t) ∧
      ∀ nodes, clusterNodes = some nodes →
        OneClusterRow cluster nodes procs
          (EventTable.clusterProcs cluster clusterNodes procs time t) := by
  have hlater : Periods time t :=
    ⟨h.apart, h.keys, fun r hr => ⟨(h.past r hr).1.trans htime, (h.past r hr).2.trans htime⟩⟩
  have hreset := @Periods.close t last time (fun r => r.cluster = cluster) _ h htime
  have hclosed : ∀ r ∈ EventTable.close (fun r => r.cluster = cluster) time t,
      r.nodeName = "" → r.cluster = cluster → r.periodEnd ≠ 0 :=
    fun r hr _ hc => closed_close hpos r hr hc
  have hnoOpen : openCounts cluster (EventTable.close (fun r => r.cluster = cluster) time t) =
      [] := by
    refine List.eq_nil_iff_forall_not_mem.mpr fun r hr => ?_
    obtain ⟨hr, hc, he, hn⟩ := mem_openCounts.mp hr
    exact hclosed r hr hn hc he
  -- a changed count is inserted once the old one is closed
  have hchange : Changed cluster clusterNodes procs t →
      insertNew (fun r => SameKey r (procsRow cluster clusterNodes procs time))
          (procsRow cluster clusterNodes procs time)
          (EventTable.close (fun r => r.cluster = cluster) time t) =
        some (EventTable.close (fun r => r.cluster = cluster) time t ++
          [procsRow cluster clusterNodes procs time]) ∧
      Periods time (EventTable.close (fun r => r.cluster = cluster) time t ++
        [procsRow cluster clusterNodes procs time]) := by
    intro hch
    refine hreset.addIt ?_ hclosed
    refine forall_mem_update.mpr fun r hr => ⟨fun _ hkey => ?_, fun _ hkey => ?_⟩
    · exact hfree hch r hr hkey.2.1 hkey.1 hkey.2.2
    · exact hfree hch r hr hkey.2.1 hkey.1 hkey.2.2
  unfold EventTable.clusterProcs
  simp only
  cases hrow : clusterRow cluster t with
  | none =>
    have hch : Changed cluster clusterNodes procs t := by
      intro r hr
      rw [hrow] at hr
      cases hr
    have hnone := clusterRow_none hrow
    have hadd := @Periods.addIt t time cluster clusterNodes procs hlater
      (fun r hr hkey => hfree hch r hr hkey.2.1 hkey.1 hkey.2.2) fun r hr hn hc he =>
        absurd (mem_openCounts.mpr ⟨hr, hc, he, hn⟩) (by rw [hnone]; exact List.not_mem_nil)
    simp only
    rw [hadd.1, Option.getD_some]
    refine ⟨hadd.2, fun nodes hnodes => ?_⟩
    rw [hnodes]
    exact oneClusterRow_append hnone
  | some row =>
    have hopen := mem_of_clusterRow hrow
    have hreset' : Changed cluster clusterNodes procs t →
        Periods time ((insertNew (fun r => SameKey r (procsRow cluster clusterNodes procs time))
          (procsRow cluster clusterNodes procs time)
          (EventTable.close (fun r => r.cluster = cluster) time t)).getD
            (EventTable.close (fun r => r.cluster = cluster) time t)) ∧
        ∀ nodes, clusterNodes = some nodes → OneClusterRow cluster nodes procs
          ((insertNew (fun r => SameKey r (procsRow cluster clusterNodes procs time))
          (procsRow cluster clusterNodes procs time)
          (EventTable.close (fun r => r.cluster = cluster) time t)).getD
            (EventTable.close (fun r => r.cluster = cluster) time t)) := by
      intro hch
      obtain ⟨hins, hper⟩ := hchange hch
      rw [hins, Option.getD_some]
      refine ⟨hper, fun nodes hnodes => ?_⟩
      rw [hnodes]
      exact oneClusterRow_append hnoOpen
    simp only
    by_cases hprocs : row.cpuCount = procs
    · rw [if_pos hprocs]
      cases hnodes : clusterNodes with
      | none => exact ⟨hlater, fun nodes hc => by cases hc⟩
      | some nodes =>
        simp only
        by_cases hempty : row.clusterNodes = ""
        · rw [if_pos hempty]
          exact ⟨hlater.setNodes nodes, fun nodes' hc => by
            rw [← Option.some.inj hc]
            exact h.oneClusterRow_setNodes hopen hprocs nodes⟩
        · rw [if_neg hempty]
          by_cases hsame : nodes = row.clusterNodes
          · rw [if_pos hsame]
            refine ⟨hlater, fun nodes' hc => ⟨row, h.openCounts_eq hopen, hprocs, ?_⟩⟩
            rw [← Option.some.inj hc, hsame]
          · rw [if_neg hsame]
            rw [hnodes] at hreset'
            refine hreset' fun r hr => Or.inr ⟨nodes, rfl, ?_⟩
            rw [hrow] at hr
            rw [← Option.some.inj hr]
            exact ⟨hempty, hsame⟩
    · rw [if_neg hprocs]
      refine hreset' fun r hr => Or.inl ?_
      rw [hrow] at hr
      rw [← Option.some.inj hr]
      exact hprocs

end Periods

/-! ## Runs -/

/-- What the table is for: one open period of a name at most, closed ones that do
not overlap, and after a count with nodes the row of that count. -/
structure Sound (t : List EventRow) : Prop where
  oneOpen : t.Pairwise fun r s => r.nodeName = s.nodeName → r.cluster = s.cluster →
    ¬(r.periodEnd = 0 ∧ s.periodEnd = 0)
  disjoint : t.Pairwise fun r s => r.nodeName = s.nodeName → r.cluster = s.cluster →
    r.periodEnd ≠ 0 → s.periodEnd ≠ 0 → r.periodEnd ≤ s.periodStart ∨ s.periodEnd ≤ r.periodStart

theorem Periods.sound {last : Nat} {t : List EventRow} (h : Periods last t) : Sound t := by
  refine ⟨h.apart.imp fun {r s} hrs hn hc hopen => ?_, h.apart.imp fun {r s} hrs hn hc _ _ => ?_⟩
  · obtain hr | hs := hrs hn hc
    · exact hr.1 hopen.1
    · exact hs.1 hopen.2
  · exact (hrs hn hc).imp And.right And.right

/-- A count that changes begins at a time when no other one of the cluster began. -/
def CallOk (s : State) (call : Call × Nat) : Prop :=
  match call.1 with
  | .clusterProcs cluster clusterNodes procs =>
    Changed cluster clusterNodes procs s.rows →
      ∀ r ∈ s.rows, r.cluster = cluster → r.nodeName = "" → r.periodStart ≠ call.2
  | _ => True

/-- The rows after a history of calls. -/
def after (calls : List (Call × Nat)) (s : State) : State :=
  calls.foldl (fun s call => ⟨call.1.run call.2 s.rows, call.2⟩) s

theorem Periods.call {s : State} {call : Call × Nat} (h : Periods s.last s.rows)
    (htime : s.last ≤ call.2) (hpos : call.2 ≠ 0) (hok : CallOk s call) :
    Periods call.2 (call.1.run call.2 s.rows) ∧
      ∀ cluster nodes procs, call.1 = .clusterProcs cluster (some nodes) procs →
        OneClusterRow cluster nodes procs (call.1.run call.2 s.rows) := by
  obtain ⟨c, time⟩ := call
  cases c with
  | nodeDown fastSchedule cluster node reason =>
    exact ⟨h.nodeDown htime hpos, fun _ _ _ hc => by cases hc⟩
  | nodeUp cluster node => exact ⟨h.close htime, fun _ _ _ hc => by cases hc⟩
  | clusterProcs cluster clusterNodes procs =>
    obtain ⟨hper, hone⟩ := h.clusterProcs htime hpos hok
    refine ⟨hper, fun cluster' nodes procs' hc => ?_⟩
    injection hc with hc hn hp
    subst hc hp
    exact hone nodes hn

theorem Periods.run {calls : List (Call × Nat)} :
    ∀ {s : State}, Periods s.last s.rows → (∀ call ∈ calls, s.last ≤ call.2 ∧ call.2 ≠ 0) →
      (calls.map Prod.snd).Pairwise (· ≤ ·) → Guarded step CallOk s calls →
      Periods (after calls s).last (after calls s).rows := by
  induction calls with
  | nil => exact fun h _ _ _ => h
  | cons call calls ih =>
    intro s h htimes hsorted hguard
    rw [List.map_cons, List.pairwise_cons] at hsorted
    obtain ⟨htime, hpos⟩ := htimes call List.mem_cons_self
    refine ih (h.call htime hpos hguard.1).1 (fun c hc => ⟨?_, ?_⟩) hsorted.2 (hguard.2 _ rfl)
    · exact hsorted.1 _ (List.mem_map_of_mem hc)
    · exact (htimes c (List.mem_cons_of_mem _ hc)).2

/-- In a history whose counts begin at times of their own the periods of a name
follow each other, and after a count with nodes its row is the open one. -/
theorem events_run {calls : List (Call × Nat)} (hpos : ∀ call ∈ calls, call.2 ≠ 0)
    (hsorted : (calls.map Prod.snd).Pairwise (· ≤ ·)) (hguard : Guarded step CallOk {} calls) :
    Sound (after calls {}).rows ∧
      ∀ earlier cluster nodes procs time,
        calls = earlier ++ [(.clusterProcs cluster (some nodes) procs, time)] →
        OneClusterRow cluster nodes procs (after calls {}).rows := by
  have hstart : Periods 0 [] := ⟨List.Pairwise.nil, List.Pairwise.nil, fun r hr => by cases hr⟩
  have hrun : ∀ calls : List (Call × Nat), (∀ call ∈ calls, call.2 ≠ 0) →
      (calls.map Prod.snd).Pairwise (· ≤ ·) → Guarded step CallOk {} calls →
      Periods (after calls {}).last (after calls {}).rows := fun calls hpos hsorted hguard =>
    @Periods.run calls {} hstart (fun c hc => ⟨Nat.zero_le _, hpos c hc⟩) hsorted hguard
  refine ⟨(hrun calls hpos hsorted hguard).sound, ?_⟩
  rintro earlier cluster nodes procs time rfl
  obtain ⟨hearlier, hlast⟩ :=
    guarded_append (fun (s : State) (call : Call × Nat) => ⟨call.1.run call.2 s.rows, call.2⟩)
      (fun _ _ => rfl) hguard
  rw [List.map_append, List.pairwise_append] at hsorted
  have hbefore := hrun earlier (fun c hc => hpos c (List.mem_append_left _ hc)) hsorted.1 hearlier
  have htime : (after earlier {}).last ≤ time := by
    have hlate : ∀ (calls : List (Call × Nat)) (s : State), s.last ≤ time →
        (∀ c ∈ calls, c.2 ≤ time) → (after calls s).last ≤ time := by
      intro calls
      induction calls with
      | nil => exact fun s hs _ => hs
      | cons call calls ih =>
        intro s _ hcalls
        exact ih _ (hcalls call List.mem_cons_self) fun c hc => hcalls c (List.mem_cons_of_mem _ hc)
    refine hlate earlier {} (Nat.zero_le _) fun c hc => ?_
    exact hsorted.2.2 _ (List.mem_map_of_mem hc) time List.mem_cons_self
  have hcall := (hbefore.call htime (hpos _ (List.mem_append_right _ List.mem_cons_self))
    hlast.1).2 cluster nodes procs rfl
  unfold after at hcall ⊢
  rw [List.foldl_append]
  exact hcall

/-- A node that goes down, and two counts of its cluster. -/
def history : List (Call × Nat) :=
  [(.clusterProcs "tux" (some "tux[0-9]") 40, 5),
    (.nodeDown false "tux" ⟨"tux3", 4, 4, 1, ""⟩ none, 6),
    (.clusterProcs "tux" (some "tux[0-7]") 32, 7)]

theorem events_run_history : OneClusterRow "tux" "tux[0-7]" 32 (after history {}).rows := by
  have hfree : ∀ (s : State) (cluster : String) (nodes : Option String) (procs time : Nat),
      (∀ r ∈ s.rows, r.periodStart < time) → CallOk s (.clusterProcs cluster nodes procs, time) :=
    fun s _ _ _ time hs _ r hr _ _ => (hs r hr).ne
  have hguard : Guarded step CallOk {} history := by
    refine ⟨hfree _ _ _ _ _ (by decide), fun s hs => ⟨trivial, fun s' hs' =>
      ⟨hfree _ _ _ _ _ ?_, fun _ _ => trivial⟩⟩⟩
    obtain rfl := Option.some.inj hs
    obtain rfl := Option.some.inj hs'
    decide +kernel
  exact (events_run (by decide) (by decide) hguard).2 (history.take 2) _ _ _ 7 rfl

/-- Two different counts at one time leave the cluster without an open row. -/
theorem clusterProcs_twice :
    ¬∀ calls : List (Call × Nat), (∀ call ∈ calls, call.2 ≠ 0) →
      (calls.map Prod.snd).Pairwise (· ≤ ·) →
      Sound (after calls {}).rows ∧
        ∀ earlier cluster nodes procs time,
          calls = earlier ++ [(.clusterProcs cluster (some nodes) procs, time)] →
          OneClusterRow cluster nodes procs (after calls {}).rows := by
  intro hall
  obtain ⟨r, hr, -⟩ := (hall [(.clusterProcs "tux" (some "tux[0-9]") 40, 5),
    (.clusterProcs "tux" (some "tux[0-7]") 32, 5)] (by decide) (by decide)).2
    [(.clusterProcs "tux" (some "tux[0-9]") 40, 5)] _ _ _ 5 rfl
  have hnone : openCounts "tux" (after [(.clusterProcs "tux" (some "tux[0-9]") 40, 5),
    (.clusterProcs "tux" (some "tux[0-7]") 32, 5)] {}).rows = [] := by decide +kernel
  rw [hnone] at hr
  cases hr

end Slurm.EventTable
