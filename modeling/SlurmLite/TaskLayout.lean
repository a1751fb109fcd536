import SlurmLite.Base.Deal

/-!
# Task layout

How `slurm_step_layout.c` spreads the tasks of a step over its nodes. `taskid` is
an `int` that is compared and stored as a `uint32_t` and never passes `task_cnt`
(past 2^31-1 its increment is taken as a wrap); the counters `tasks[i]` are
`uint16_t` and can wrap.

* **Cpus** (`initCpus`): the cpus of each node from their compressed description.
* **Layouts** (`taskLayoutBlock`, `taskLayoutCyclic`, `taskLayoutPlane`).
* **Result** (`taskLayout_spec`): every task is on one node, block and cyclic give a
  node as many tasks, and no node is over-subscribed before all are full.
-/

namespace Slurm.Layout

open Base.Deal

/-! ## Cpus -/

/-- `cpus_per_task` as `_init_task_layout` uses it; `0xfffe` is `(uint16_t) NO_VAL`. -/
def taskCpus (cpusPerTask : UInt16) : UInt16 :=
  if cpusPerTask < 1 ∨ cpusPerTask = 0xfffe then 1 else cpusPerTask

/-- The cpus a node counts with: at least one task fits. -/
def nodeCpus (cpusPerTask cpus : UInt16) : UInt16 :=
  if cpus / taskCpus cpusPerTask = 0 then 1 else cpus / taskCpus cpusPerTask

/-- The loop of `_init_task_layout` that fills `cpus`, for the nodes still to come;
`none` is a read past the end of the description. -/
def initCpus (cpusPerNode : List UInt16) (cpuCountReps : List UInt32) (cpusPerTask : UInt16) :
    Nat → Nat → Nat → Option (List UInt16)
  | 0, _, _ => some []
  | n + 1, cpuCnt, cpuInx => do
    let cpus ← cpusPerNode[cpuInx]?
    let reps ← cpuCountReps[cpuInx]?
    (if cpuCnt + 1 ≥ reps.toNat then
        initCpus cpusPerNode cpuCountReps cpusPerTask n 0 (cpuInx + 1)
      else initCpus cpusPerNode cpuCountReps cpusPerTask n (cpuCnt + 1) cpuInx).map
      (nodeCpus cpusPerTask cpus :: ·)

/-- The description, expanded. -/
def expand (cpusPerNode : List UInt16) (cpuCountReps : List UInt32) : List UInt16 :=
  (cpusPerNode.zip cpuCountReps).flatMap fun d => List.replicate d.2.toNat d.1

/-- What is left of a description of which the first record was used `cpuCnt` times. -/
def expandFrom (cpuCnt : Nat) : List (UInt16 × UInt32) → List UInt16
  | [] => []
  | d :: ds => List.replicate (d.2.toNat - cpuCnt) d.1 ++
      ds.flatMap fun d => List.replicate d.2.toNat d.1

theorem expandFrom_zero (ds : List (UInt16 × UInt32)) :
    expandFrom 0 ds = ds.flatMap fun d => List.replicate d.2.toNat d.1 := by
  cases ds <;> rfl

theorem initCpus_eq_aux {cpusPerNode : List UInt16} {cpuCountReps : List UInt32}
    {cpusPerTask : UInt16} (hreps : ∀ r ∈ cpuCountReps, 1 ≤ r) (n cpuCnt cpuInx : Nat)
    (hcnt : ∀ r, cpuCountReps[cpuInx]? = some r → cpuCnt < r.toNat)
    (hcover : n ≤ (expandFrom cpuCnt ((cpusPerNode.zip cpuCountReps).drop cpuInx)).length) :
    initCpus cpusPerNode cpuCountReps cpusPerTask n cpuCnt cpuInx =
      some (((expandFrom cpuCnt ((cpusPerNode.zip cpuCountReps).drop cpuInx)).take n).map
        (nodeCpus cpusPerTask)) := by
  induction n generalizing cpuCnt cpuInx with
  | zero => simp [initCpus]
  | succ n ih =>
    cases hdrop : (cpusPerNode.zip cpuCountReps).drop cpuInx with
    | nil =>
      rw [hdrop] at hcover
      exact absurd hcover (Nat.not_succ_le_zero n)
    | cons d ds =>
      obtain ⟨c, r⟩ := d
      have hget : (cpusPerNode.zip cpuCountReps)[cpuInx]? = some (c, r) := by
        rw [← List.head?_drop, hdrop, List.head?_cons]
      have hc : cpusPerNode[cpuInx]? = some c := (List.getElem?_zip_eq_some.mp hget).1
      have hr : cpuCountReps[cpuInx]? = some r := (List.getElem?_zip_eq_some.mp hget).2
      have hnext : (cpusPerNode.zip cpuCountReps).drop (cpuInx + 1) = ds := by
        rw [← List.tail_drop, hdrop, List.tail_cons]
      have hlt := hcnt r hr
      have hfirst : expandFrom cpuCnt ((c, r) :: ds) = c ::
          expandFrom (cpuCnt + 1) ((c, r) :: ds) := by
        have hsucc : r.toNat - cpuCnt = (r.toNat - (cpuCnt + 1)) + 1 := by omega
        simp only [expandFrom, hsucc, List.replicate_succ, List.cons_append]
      rw [hdrop, hfirst, List.length_cons] at hcover
      rw [hfirst, List.take_succ_cons, List.map_cons]
      have hrest : (if cpuCnt + 1 ≥ r.toNat then
            initCpus cpusPerNode cpuCountReps cpusPerTask n 0 (cpuInx + 1)
          else initCpus cpusPerNode cpuCountReps cpusPerTask n (cpuCnt + 1) cpuInx) =
          some (((expandFrom (cpuCnt + 1) ((c, r) :: ds)).take n).map
            (nodeCpus cpusPerTask)) := by
        split
        · rename_i hmove
          -- the record is used up
          have hleft : expandFrom (cpuCnt + 1) ((c, r) :: ds) = expandFrom 0 ds := by
            have hnone : r.toNat - (cpuCnt + 1) = 0 := by omega
            rw [expandFrom_zero]
            simp only [expandFrom, hnone, List.replicate_zero, List.nil_append]
          rw [hleft] at hcover ⊢
          have hih := ih 0 (cpuInx + 1) (fun r' hr' => hreps r' (List.mem_of_getElem? hr'))
            (by rw [hnext]; omega)
          rwa [hnext] at hih
        · rename_i hstay
          have hih := ih (cpuCnt + 1) cpuInx (fun r' hr' => by
            rw [hr] at hr'
            obtain rfl := Option.some.inj hr'
            omega) (by rw [hdrop]; omega)
          rwa [hdrop] at hih
      rw [initCpus, hc, hr]
      simp only [Option.bind_eq_bind, Option.bind_some, hrest, Option.map_some]

/-- A description that covers the nodes gives each of them its cpus. -/
theorem initCpus_eq {cpusPerNode : List UInt16} {cpuCountReps : List UInt32}
    {cpusPerTask : UInt16} {nodeCnt : Nat} (hreps : ∀ r ∈ cpuCountReps, 1 ≤ r)
    (hcover : nodeCnt ≤ (expand cpusPerNode cpuCountReps).length) :
    initCpus cpusPerNode cpuCountReps cpusPerTask nodeCnt 0 0 =
      some (((expand cpusPerNode cpuCountReps).take nodeCnt).map (nodeCpus cpusPerTask)) := by
  have h := @initCpus_eq_aux cpusPerNode cpuCountReps cpusPerTask hreps nodeCnt 0 0
    (fun r hr => hreps r (List.mem_of_getElem? hr))
  rw [List.drop_zero, expandFrom_zero] at h
  exact h hcover

theorem one_le_nodeCpus (cpusPerTask cpus : UInt16) : 1 ≤ (nodeCpus cpusPerTask cpus).toNat := by
  unfold nodeCpus
  split
  · exact Nat.le_refl 1
  · rename_i hne
    have : (cpus / taskCpus cpusPerTask).toNat ≠ 0 := fun h => hne (UInt16.toNat_inj.mp h)
    omega

/-! ## Layouts -/

/-- One entry of `cpus`, `tasks` and `tids`; `tids` has the ids stored so far. -/
structure Node where
  cpus : UInt16
  tasks : UInt16
  tids : List UInt32
deriving DecidableEq

namespace Node

/-- A node of the cleared layout. -/
def init (cpus : UInt16) : Node := ⟨cpus, 0, []⟩

/-- `tids[i][tasks[i]] = taskid; tasks[i]++`. -/
def store (taskid : Nat) (n : Node) : Node :=
  { n with
    tids :=
      if n.tasks.toNat < n.tids.length then n.tids.set n.tasks.toNat (UInt32.ofNat taskid)
      else n.tids ++ [UInt32.ofNat taskid]
    tasks := n.tasks + 1 }

/-- `tasks[i]++`. -/
def count (_taskid : Nat) (n : Node) : Node := { n with tasks := n.tasks + 1 }

end Node

/-- The second part of `_task_layout_block`: consecutive ids for the tasks counted. -/
def distribute : List Node → Nat → List Node
  | [], _ => []
  | n :: ns, taskid =>
    { n with tids := (List.range' taskid n.tasks.toNat).map UInt32.ofNat } ::
      distribute ns (taskid + n.tasks.toNat)

/-- `_task_layout_block`, with at most `fuel` cycles. -/
def taskLayoutBlock (cpus : List UInt16) (taskCnt : UInt32) (fuel : Nat) : Option (List Node) :=
  (rounds (fun n => n.cpus.toNat) Node.count taskCnt.toNat fuel 0 false (cpus.map Node.init) 0).map
    (distribute · 0)

/-- `_task_layout_cyclic`, with at most `fuel` cycles. -/
def taskLayoutCyclic (cpus : List UInt16) (taskCnt : UInt32) (fuel : Nat) : Option (List Node) :=
  rounds (fun n => n.cpus.toNat) Node.store taskCnt.toNat fuel 0 false (cpus.map Node.init) 0

/-- `_task_layout_plane`, with at most `fuel` cycles; the inner `none` is
`SLURM_ERROR`. -/
def taskLayoutPlane (planeSize : UInt16) (cpus : List UInt16) (taskCnt : UInt32) (fuel : Nat) :
    Option (Option (List Node)) :=
  if planeSize ≤ 0 then some none
  else
    (planeRounds Node.store taskCnt.toNat planeSize.toNat fuel (cpus.map Node.init) 0).map fun r =>
      if r.2 ≠ taskCnt.toNat then none else some r.1

/-! ## Shares of the nodes -/

/-- The tasks of each node when no counter wraps. -/
def cyclicShares (cpus : List UInt16) (taskCnt : UInt32) : List Share :=
  (rounds Share.cap Share.give taskCnt.toNat (taskCnt.toNat + 1) 0 false
    (cpus.map fun c => Share.empty c.toNat) 0).getD []

/-- The tasks of each node in planes, when no counter wraps. -/
def planeShares (planeSize : UInt16) (cpus : List UInt16) (taskCnt : UInt32) : List Share :=
  match planeRounds Share.give taskCnt.toNat planeSize.toNat (taskCnt.toNat + 1)
      (cpus.map fun c => Share.empty c.toNat) 0 with
  | some r => r.1
  | none => []

/-- No counter wraps. -/
def Fits (ss : List Share) : Prop := ∀ s ∈ ss, s.tickets.length ≤ 65535

/-- The node has counted the tasks of its share. -/
def Counts (n : Node) (s : Share) : Prop :=
  n.cpus.toNat = s.cap ∧ n.tasks = UInt16.ofNat s.tickets.length

/-- The node has stored the tasks of its share, unless its counter wrapped. -/
def Stores (n : Node) (s : Share) : Prop :=
  Counts n s ∧ (s.tickets.length ≤ 65535 → n.tids = s.tickets.map UInt32.ofNat)

theorem counts_give {n : Node} {s : Share} {t : Nat} (h : Counts n s) :
    n.tasks + 1 = UInt16.ofNat (s.give t).tickets.length := by
  rw [h.2, Share.give, List.length_append, List.length_singleton, UInt16.ofNat_add]
  rfl

theorem counts_count {n : Node} {s : Share} {t : Nat} (h : Counts n s) :
    Counts (n.count t) (s.give t) := ⟨h.1, counts_give h⟩

theorem stores_give {n : Node} {s : Share} {t : Nat} (h : Stores n s) :
    Stores (n.store t) (s.give t) := by
  obtain ⟨hcount, htids⟩ := h
  refine ⟨⟨hcount.1, counts_give hcount⟩, fun hlen => ?_⟩
  have hlen' : s.tickets.length < 65535 := by
    simp only [Share.give, List.length_append, List.length_singleton] at hlen
    omega
  have hids := htids (Nat.le_of_lt hlen')
  -- the counter is the number of ids, so the new one goes behind them
  have hindex : ¬ n.tasks.toNat < n.tids.length := by
    rw [hcount.2, hids, List.length_map, UInt16.toNat_ofNat_of_lt' (Nat.lt_succ_of_lt hlen')]
    exact Nat.lt_irrefl _
  rw [Node.store, if_neg hindex, hids, Share.give, List.map_append]
  rfl

theorem stores_init (cpus : List UInt16) :
    List.Forall₂ Stores (cpus.map Node.init) (cpus.map fun c => Share.empty c.toNat) := by
  rw [List.forall₂_map_left_iff, List.forall₂_map_right_iff]
  exact List.forall₂_same.mpr fun c _ => ⟨⟨rfl, rfl⟩, fun _ => rfl⟩

theorem cyclicShares_spec {cpus : List UInt16} (hne : cpus ≠ []) (hcpus : ∀ c ∈ cpus, 1 ≤ c)
    (taskCnt : UInt32) :
    rounds Share.cap Share.give taskCnt.toNat (taskCnt.toNat + 1) 0 false
        (cpus.map fun c => Share.empty c.toNat) 0 = some (cyclicShares cpus taskCnt) ∧
      (dealt (cyclicShares cpus taskCnt)).Perm (List.range taskCnt.toNat) ∧
      Fair (cyclicShares cpus taskCnt) ∧
      (cyclicShares cpus taskCnt).map Share.cap = cpus.map UInt16.toNat := by
  have hempty : dealt (cpus.map fun c => Share.empty c.toNat) = [] := by
    simp [dealt, Share.empty, List.flatMap_map]
  have hlevel : Level 0 false (cpus.map fun c => Share.empty c.toNat) := by
    refine ⟨fun s hs => ?_, ?_⟩
    · obtain ⟨c, -, rfl⟩ := List.mem_map.mp hs
      simp [Share.empty]
    · obtain ⟨c, hc⟩ := List.exists_mem_of_ne_nil cpus hne
      exact ⟨_, List.mem_map_of_mem hc, hcpus c hc⟩
  have hfair : Fair (cpus.map fun c => Share.empty c.toNat) := by
    intro s hs m x hx
    obtain ⟨c, -, rfl⟩ := List.mem_map.mp hs
    simp [Share.empty] at hx
  obtain ⟨ss, hrun, hperm, hfair', hcaps⟩ := @rounds_dealt taskCnt.toNat (taskCnt.toNat + 1) 0 false
    _ 0 (Nat.zero_le _) (by omega) (fun _ => hlevel) (by rw [hempty]; exact List.Perm.refl _) hfair
  have hss : cyclicShares cpus taskCnt = ss := by
    rw [cyclicShares, hrun, Option.getD_some]
  rw [hss]
  refine ⟨hrun, hperm, hfair', ?_⟩
  rw [hcaps, List.map_map]
  rfl

theorem planeShares_spec {planeSize : UInt16} {cpus : List UInt16} (hplane : 1 ≤ planeSize)
    (hne : cpus ≠ []) (taskCnt : UInt32) :
    planeRounds Share.give taskCnt.toNat planeSize.toNat (taskCnt.toNat + 1)
        (cpus.map fun c => Share.empty c.toNat) 0 =
        some (planeShares planeSize cpus taskCnt, taskCnt.toNat) ∧
      (dealt (planeShares planeSize cpus taskCnt)).Perm (List.range taskCnt.toNat) ∧
      (planeShares planeSize cpus taskCnt).map Share.cap = cpus.map UInt16.toNat := by
  have hempty : dealt (cpus.map fun c => Share.empty c.toNat) = [] := by
    simp [dealt, Share.empty, List.flatMap_map]
  obtain ⟨ss, hrun, hperm, hcaps⟩ := @planeRounds_dealt taskCnt.toNat planeSize.toNat
    (taskCnt.toNat + 1) (cpus.map fun c => Share.empty c.toNat) 0 hplane
    (fun h => hne (List.map_eq_nil_iff.mp h)) (Nat.zero_le _) (by omega)
    (by rw [hempty]; exact List.Perm.refl _)
  have hss : planeShares planeSize cpus taskCnt = ss := by
    rw [planeShares, hrun]
  rw [hss]
  refine ⟨hrun, hperm, ?_⟩
  rw [hcaps, List.map_map]
  rfl

/-! ## Result -/

/-- The ids of the nodes are the tasks, each on one node; `tasks` counts them. -/
structure Partitions (taskCnt : UInt32) (ns : List Node) : Prop where
  ids : ((ns.flatMap Node.tids).map UInt32.toNat).Perm (List.range taskCnt.toNat)
  tasks : ∀ n ∈ ns, n.tasks.toNat = n.tids.length

/-- A node has more tasks than its cpus only when every node has its cpus' worth. -/
def FairCpus (ns : List Node) : Prop :=
  ∀ n ∈ ns, n.cpus.toNat < n.tasks.toNat → ∀ k ∈ ns, k.cpus.toNat ≤ k.tasks.toNat

/-- A task above the cpus of its node comes after every node got its cpus' worth. -/
def FairOrder (ns : List Node) : Prop :=
  ∀ n ∈ ns, ∀ m x, n.tids[m]? = some x → n.cpus.toNat ≤ m →
    ∀ k ∈ ns, k.cpus.toNat ≤ (k.tids.filter (· < x)).length

theorem toNat_map_ofNat {taskCnt : UInt32} {ts : List Nat} (h : ∀ t ∈ ts, t < taskCnt.toNat) :
    (ts.map UInt32.ofNat).map UInt32.toNat = ts := by
  rw [List.map_map]
  refine (List.map_congr_left fun t ht => ?_).trans (List.map_id ts)
  exact UInt32.toNat_ofNat_of_lt' ((h t ht).trans taskCnt.toNat_lt)

/-- The node has as many tasks as its share. -/
structure Counted (n : Node) (s : Share) : Prop where
  cpus : n.cpus.toNat = s.cap
  tasks : n.tasks.toNat = s.tickets.length

/-- The node has the tasks of its share. -/
structure Holds (n : Node) (s : Share) : Prop extends Counted n s where
  tids : n.tids.map UInt32.toNat = s.tickets

theorem Counts.counted {n : Node} {s : Share} (h : Counts n s)
    (hlen : s.tickets.length ≤ 65535) : Counted n s := by
  refine ⟨h.1, ?_⟩
  rw [h.2, UInt16.toNat_ofNat_of_lt' (Nat.lt_succ_of_le hlen)]

theorem Stores.holds {taskCnt : UInt32} {n : Node} {s : Share} (h : Stores n s)
    (hlen : s.tickets.length ≤ 65535) (hlt : ∀ t ∈ s.tickets, t < taskCnt.toNat) :
    Holds n s := by
  refine ⟨h.1.counted hlen, ?_⟩
  rw [h.2 hlen, toNat_map_ofNat hlt]

theorem forall₂_counted {ns : List Node} {ss : List Share} (h : List.Forall₂ Counts ns ss)
    (hfits : Fits ss) : List.Forall₂ Counted ns ss := by
  induction h with
  | nil => exact List.Forall₂.nil
  | @cons n s ns ss hns _ ih =>
    refine List.Forall₂.cons (hns.counted (hfits s List.mem_cons_self)) ?_
    exact ih fun k hk => hfits k (List.mem_cons_of_mem _ hk)

theorem forall₂_holds {taskCnt : UInt32} {ns : List Node} {ss : List Share}
    (h : List.Forall₂ Stores ns ss) (hfits : Fits ss)
    (hperm : (dealt ss).Perm (List.range taskCnt.toNat)) : List.Forall₂ Holds ns ss := by
  have hlt : ∀ s ∈ ss, ∀ t ∈ s.tickets, t < taskCnt.toNat := fun s hs t ht =>
    List.mem_range.mp (hperm.mem_iff.mp (List.mem_flatMap.mpr ⟨s, hs, ht⟩))
  clear hperm
  induction h with
  | nil => exact List.Forall₂.nil
  | @cons n s ns ss hns _ ih =>
    refine List.Forall₂.cons
      (hns.holds (hfits s List.mem_cons_self) (hlt s List.mem_cons_self)) ?_
    exact ih (fun k hk => hfits k (List.mem_cons_of_mem _ hk))
      (fun k hk => hlt k (List.mem_cons_of_mem _ hk))

theorem partitions_of_holds {taskCnt : UInt32} {ns : List Node} {ss : List Share}
    (h : List.Forall₂ Holds ns ss) (hperm : (dealt ss).Perm (List.range taskCnt.toNat)) :
    Partitions taskCnt ns := by
  have hids : (ns.flatMap Node.tids).map UInt32.toNat = dealt ss := by
    clear hperm
    induction h with
    | nil => rfl
    | cons hns _ ih =>
      simp only [dealt, List.flatMap_cons, List.map_append] at ih ⊢
      rw [ih, hns.tids]
  refine ⟨hids ▸ hperm, fun n hn => ?_⟩
  obtain ⟨s, -, hs⟩ := exists_of_mem_left h hn
  rw [hs.tasks, ← hs.tids, List.length_map]

theorem fairCpus_of_counted {ns : List Node} {ss : List Share}
    (h : List.Forall₂ Counted ns ss) (hfair : Fair ss) : FairCpus ns := by
  intro n hn hmore k hk
  obtain ⟨s, hs, hns⟩ := exists_of_mem_left h hn
  obtain ⟨s', hs', hks⟩ := exists_of_mem_left h hk
  rw [hns.cpus, hns.tasks] at hmore
  rw [hks.cpus, hks.tasks]
  exact Fair.cap_le hfair hs hmore hs'

theorem fairOrder_of_holds {ns : List Node} {ss : List Share} (h : List.Forall₂ Holds ns ss)
    (hfair : Fair ss) : FairOrder ns := by
  intro n hn m x hx hm k hk
  obtain ⟨s, hs, hns⟩ := exists_of_mem_left h hn
  obtain ⟨s', hs', hks⟩ := exists_of_mem_left h hk
  have hxs : s.tickets[m]? = some x.toNat := by
    rw [← hns.tids, List.getElem?_map, hx, Option.map_some]
  have hle := hfair s hs m x.toNat hxs (by rwa [hns.cpus] at hm) s' hs'
  have hfilter : (s'.tickets.filter (· < x.toNat)).length = (k.tids.filter (· < x)).length := by
    rw [← hks.tids, List.filter_map, List.length_map]
    rfl
  rwa [hks.cpus, ← hfilter]

theorem distribute_ids {taskCnt : UInt32} {ns : List Node} {taskid : Nat}
    (h : taskid + (ns.map fun n => n.tasks.toNat).sum ≤ taskCnt.toNat) :
    ((distribute ns taskid).flatMap Node.tids).map UInt32.toNat =
      List.range' taskid (ns.map fun n => n.tasks.toNat).sum := by
  induction ns generalizing taskid with
  | nil => rfl
  | cons n ns ih =>
    rw [List.map_cons, List.sum_cons] at h ⊢
    rw [distribute, List.flatMap_cons, List.map_append, ih (by omega), ← List.range'_append_1,
      @toNat_map_ofNat taskCnt]
    intro t ht
    have := List.mem_range'_1.mp ht
    omega

theorem distribute_counted {ns : List Node} {ss : List Share} {taskid : Nat}
    (h : List.Forall₂ Counted ns ss) : List.Forall₂ Counted (distribute ns taskid) ss := by
  induction h generalizing taskid with
  | nil => exact List.Forall₂.nil
  | cons hns _ ih => exact List.Forall₂.cons ⟨hns.cpus, hns.tasks⟩ ih

theorem distribute_tasks {ns : List Node} {taskid : Nat} :
    ∀ n ∈ distribute ns taskid, n.tasks.toNat = n.tids.length := by
  induction ns generalizing taskid with
  | nil => simp [distribute]
  | cons n ns ih =>
    intro k hk
    rw [distribute, List.mem_cons] at hk
    rcases hk with rfl | hk
    · simp
    · exact ih k hk

/-- All nodes together have the tasks that were dealt. -/
theorem sum_tasks {ns : List Node} {ss : List Share} (h : List.Forall₂ Counted ns ss) :
    (ns.map fun n => n.tasks.toNat).sum = (dealt ss).length := by
  rw [dealt, List.length_flatMap]
  congr 1
  induction h with
  | nil => rfl
  | cons hns _ ih => rw [List.map_cons, List.map_cons, hns.tasks, ih]

/-- The block layout: the ids of a node are consecutive. -/
theorem partitions_distribute {taskCnt : UInt32} {ns : List Node} {ss : List Share}
    (h : List.Forall₂ Counted ns ss) (hperm : (dealt ss).Perm (List.range taskCnt.toNat)) :
    Partitions taskCnt (distribute ns 0) := by
  have hsum : (ns.map fun n => n.tasks.toNat).sum = taskCnt.toNat := by
    rw [sum_tasks h, hperm.length_eq, List.length_range]
  refine ⟨?_, distribute_tasks⟩
  rw [@distribute_ids taskCnt ns 0 (by omega), hsum, List.range_eq_range']

/-- Nodes with the same shares have as many tasks. -/
theorem map_tasks_eq {ns ms : List Node} {ss : List Share} (hn : List.Forall₂ Counted ns ss)
    (hm : List.Forall₂ Counted ms ss) : ns.map Node.tasks = ms.map Node.tasks := by
  induction hn generalizing ms with
  | nil =>
    cases hm
    rfl
  | cons hns _ ih =>
    cases hm with
    | cons hms hrest =>
      rw [List.map_cons, List.map_cons, ih hrest]
      congr 1
      exact UInt16.toNat_inj.mp (hns.tasks.trans hms.tasks.symm)

theorem map_cpus_eq {ns : List Node} {ss : List Share} {cpus : List UInt16}
    (h : List.Forall₂ Counted ns ss) (hcap : ss.map Share.cap = cpus.map UInt16.toNat) :
    ns.map Node.cpus = cpus := by
  have hmap : (ns.map Node.cpus).map UInt16.toNat = cpus.map UInt16.toNat := by
    rw [← hcap, List.map_map]
    clear hcap
    induction h with
    | nil => rfl
    | cons hns _ ih =>
      rw [List.map_cons, List.map_cons, ih]
      exact congrArg (· :: _) hns.cpus
  exact List.map_injective_iff.mpr (fun a b hab => UInt16.toNat_inj.mp hab) hmap

/-- Every layout ends after at most `task_cnt` cycles and puts every task on one node.
Block and cyclic give a node as many tasks, and over-subscribe none before all are
full. -/
theorem taskLayout_spec {cpusPerNode : List UInt16} {cpuCountReps : List UInt32}
    {cpusPerTask planeSize : UInt16} {nodeCnt : Nat} {taskCnt : UInt32} (hnodes : 1 ≤ nodeCnt)
    (hreps : ∀ r ∈ cpuCountReps, 1 ≤ r)
    (hcover : nodeCnt ≤ (expand cpusPerNode cpuCountReps).length) (hplane : 1 ≤ planeSize) :
    ∃ cpus, initCpus cpusPerNode cpuCountReps cpusPerTask nodeCnt 0 0 = some cpus ∧
      cpus = ((expand cpusPerNode cpuCountReps).take nodeCnt).map (nodeCpus cpusPerTask) ∧
      (Fits (cyclicShares cpus taskCnt) →
        ∃ block cyclic, taskLayoutBlock cpus taskCnt (taskCnt.toNat + 1) = some block ∧
          taskLayoutCyclic cpus taskCnt (taskCnt.toNat + 1) = some cyclic ∧
          block.map Node.cpus = cpus ∧ cyclic.map Node.cpus = cpus ∧
          Partitions taskCnt block ∧ Partitions taskCnt cyclic ∧
          block.map Node.tasks = cyclic.map Node.tasks ∧
          FairCpus block ∧ FairCpus cyclic ∧ FairOrder cyclic) ∧
      (Fits (planeShares planeSize cpus taskCnt) →
        ∃ plane, taskLayoutPlane planeSize cpus taskCnt (taskCnt.toNat + 1) = some (some plane) ∧
          plane.map Node.cpus = cpus ∧ Partitions taskCnt plane) := by
  have hcpus := @initCpus_eq cpusPerNode cpuCountReps cpusPerTask nodeCnt hreps hcover
  refine ⟨_, hcpus, rfl, ?_⟩
  generalize hdef : ((expand cpusPerNode cpuCountReps).take nodeCnt).map
    (nodeCpus cpusPerTask) = cpus
  have hne : cpus ≠ [] := by
    intro hnil
    rw [hnil] at hdef
    have hlen := congrArg List.length hdef
    rw [List.length_map, List.length_take, List.length_nil] at hlen
    omega
  have hone : ∀ c ∈ cpus, 1 ≤ c := by
    rw [← hdef]
    intro c hc
    obtain ⟨c', -, rfl⟩ := List.mem_map.mp hc
    exact one_le_nodeCpus cpusPerTask c'
  refine ⟨fun hfits => ?_, fun hfits => ?_⟩
  · obtain ⟨hrun, hperm, hfair, hcaps⟩ := cyclicShares_spec hne hone taskCnt
    -- the loops with the node's counters follow the dealing of shares
    obtain ⟨counted, hcounted, hcounts⟩ := @rounds_rel _ _ (fun n => n.cpus.toNat) Node.count
      Share.cap Share.give _ Counts (fun n s h => h.1) (fun t n s _ h => counts_count h) _ _ _ _ _ _
      _ ((stores_init cpus).imp fun _ _ h => h.1) hrun
    obtain ⟨cyclic, hcyclic, hstores⟩ := @rounds_rel _ _ (fun n => n.cpus.toNat) Node.store
      Share.cap Share.give _ Stores (fun n s h => h.1.1)
        (fun t n s _ h => stores_give h) _ _ _ _ _ _
      _ (stores_init cpus) hrun
    have hblock := @distribute_counted counted _ 0 (forall₂_counted hcounts hfits)
    have hholds := forall₂_holds hstores hfits hperm
    have hcyc : List.Forall₂ Counted cyclic _ := hholds.imp fun _ _ h => h.toCounted
    refine ⟨distribute counted 0, cyclic, ?_, hcyclic, map_cpus_eq hblock hcaps,
      map_cpus_eq hcyc hcaps, partitions_distribute (forall₂_counted hcounts hfits) hperm,
      partitions_of_holds hholds hperm, map_tasks_eq hblock hcyc,
      fairCpus_of_counted hblock hfair, fairCpus_of_counted hcyc hfair,
      fairOrder_of_holds hholds hfair⟩
    rw [taskLayoutBlock, hcounted, Option.map_some]
  · obtain ⟨hrun, hperm, hcaps⟩ := planeShares_spec hplane hne taskCnt
    obtain ⟨plane, hruns, hstores⟩ := @planeRounds_rel _ _ Node.store Share.give _ Stores
      (fun t n s _ h => stores_give h) _ _ _ _ _ _ _ (stores_init cpus) hrun
    have hholds := forall₂_holds hstores hfits hperm
    refine ⟨plane, ?_, map_cpus_eq (hholds.imp fun _ _ h => h.toCounted) hcaps,
      partitions_of_holds hholds hperm⟩
    have hpos : ¬ planeSize ≤ 0 := by
      intro hle
      have hone' : (1 : UInt16).toNat ≤ planeSize.toNat := hplane
      have hzero : planeSize.toNat ≤ (0 : UInt16).toNat := hle
      exact absurd (hone'.trans hzero) (by decide)
    rw [taskLayoutPlane, if_neg hpos, hruns]
    simp

/-- Seven tasks on nodes with 2, 1 and 1 cpus. -/
theorem taskLayout_spec_seven :
    ∃ block cyclic plane, taskLayoutBlock [2, 1, 1] 7 8 = some block ∧
      taskLayoutCyclic [2, 1, 1] 7 8 = some cyclic ∧
      taskLayoutPlane 2 [2, 1, 1] 7 8 = some (some plane) ∧
      Partitions 7 block ∧ Partitions 7 cyclic ∧ Partitions 7 plane ∧
      block.map Node.tasks = cyclic.map Node.tasks ∧
      FairCpus block ∧ FairCpus cyclic ∧ FairOrder cyclic := by
  obtain ⟨cpus, -, hdef, hfair, hplane⟩ :=
    @taskLayout_spec [2, 1] [1, 2] 1 2 3 7 (by decide) (by simp) (by simp [expand]) (by decide)
  have hcpus : cpus = [2, 1, 1] := hdef.trans (by decide)
  subst hcpus
  obtain ⟨block, cyclic, hblock, hcyclic, -, -, hpb, hpc, htasks, hfb, hfc, hfo⟩ :=
    hfair (by unfold Fits; decide)
  obtain ⟨plane, hrun, -, hpp⟩ := hplane (by unfold Fits; decide)
  exact ⟨block, cyclic, plane, hblock, hcyclic, hrun, hpb, hpc, hpp, htasks, hfb, hfc, hfo⟩

end Slurm.Layout
