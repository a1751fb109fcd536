import SlurmLite.Base.Bytes

/-!
# Hostfile layout

The arbitrary distribution of `slurm_step_layout.c`: task `t` is meant for the host in
place `t` of the hostfile. A hostlist is the list of the hosts its iterator yields. The
tasks of a node are counted in an `uint16_t`, and a host without tasks is passed over
without a row, so that the rows after it no longer stand where the node list has their
hosts.

* **Layout** (`taskLayoutHostfile`): the two passes over the hostfile for each host.
* **Rows** (`taskLayoutHostfile_rows`): the hosts with tasks, each with its places.
* **Lookup** (`slurmStepLayoutHostId`, `slurmStepLayoutHostName`).
* **Result** (`hostsRight_iff`): when every task is found on its host.
-/

namespace Slurm.Layout

open Base.Bytes

/-! ## Layout -/

/-- One entry of `tasks` and `tids`; `tids` is `NULL` (no ids) until it is allocated. -/
structure HostRow where
  tasks : UInt16
  tids : List UInt32
deriving DecidableEq

/-- An entry of the arrays `_init_task_layout` allocates. -/
def HostRow.zero : HostRow := ⟨0, []⟩

/-- The first pass over the hostfile: `tasks[i]` and `task_cnt` count the places of `host`,
until all `total` tasks are placed. -/
def countTasks (host : CString) (total : Nat) : List CString → UInt16 → Nat → UInt16 × Nat
  | [], tasks, taskCnt => (tasks, taskCnt)
  | hostTask :: rest, tasks, taskCnt =>
    let next := if host = hostTask then (tasks + 1, taskCnt + 1) else (tasks, taskCnt)
    if next.2 ≥ total then next else countTasks host total rest next.1 next.2

/-- The second pass: the places of `host` are stored in `tids[i]`, until `tasks[i]` of them
are. -/
def fillTids (host : CString) : List CString → Nat → Nat → List UInt32 → List UInt32
  | [], _, _, tids => tids
  | hostTask :: rest, taskid, j, tids =>
    let next := if host = hostTask then (tids.set j (UInt32.ofNat taskid), j + 1) else (tids, j)
    if next.2 ≥ tids.length then next.1 else fillTids host rest (taskid + 1) next.2 next.1

/-- The loop over the hosts of the allocation, at row `i` with `taskCnt` tasks placed. -/
def layoutHosts (hostfile : List CString) (total : Nat) :
    List CString → Nat → Nat → List HostRow → List HostRow × Nat
  | [], _, taskCnt, rows => (rows, taskCnt)
  | host :: hosts, i, taskCnt, rows =>
    let counted := countTasks host total hostfile 0 taskCnt
    let (i', rows') :=
      -- `goto reset_hosts`: the row is left to the next host
      if counted.1 = 0 then (i, rows.modify i fun r => { r with tasks := 0 })
      else (i + 1, rows.set i ⟨counted.1,
        fillTids host hostfile 0 0 (List.replicate counted.1.toNat 0)⟩)
    if i' > total then (rows', counted.2)
    else layoutHosts hostfile total hosts i' counted.2 rows'

/-- `_task_layout_hostfile`: the rows, or no layout with an error. -/
def taskLayoutHostfile (alloc : List CString) (arbitraryNodes : Option (List CString))
    (taskCnt : UInt32) : Option (List HostRow) := do
  let hostfile ← arbitraryNodes
  if hostfile.length ≠ taskCnt.toNat then none
  else
    let laid := layoutHosts hostfile taskCnt.toNat alloc 0 0
      (List.replicate alloc.length HostRow.zero)
    if laid.2 ≠ taskCnt.toNat then none else some laid.1

/-! ## Lookup -/

/-- `tids[i][j] == taskid` for some `j` below `tasks[i]`. -/
def HostRow.has (taskid : UInt32) (r : HostRow) : Bool :=
  (r.tids.take r.tasks.toNat).contains taskid

/-- `slurm_step_layout_host_id`, with its `int` argument as it is compared; `none` is
`SLURM_ERROR`. -/
def slurmStepLayoutHostId (rows : List HostRow) (taskCnt taskid : UInt32) : Option Nat :=
  if taskid > taskCnt - 1 then none else rows.findIdx? (HostRow.has taskid)

/-- `slurm_step_layout_host_name`; `none` is `NULL`. -/
def slurmStepLayoutHostName (alloc : List CString) (rows : List HostRow)
    (taskCnt taskid : UInt32) : Option CString := do
  let hostid ← slurmStepLayoutHostId rows taskCnt taskid
  alloc[hostid]?

/-- Task `t` is among the tasks of node `k`. -/
def Placed (rows : List HostRow) (k t : Nat) : Prop :=
  ∃ r, rows[k]? = some r ∧ r.has (UInt32.ofNat t) = true

/-- If there is a layout, task `t` is on the node that the hostfile has in place `t`, on no
other, and both functions find it there. -/
def HostsRight (alloc : List CString) (arbitraryNodes : Option (List CString))
    (taskCnt : UInt32) : Prop :=
  ∀ rows hostfile, taskLayoutHostfile alloc arbitraryNodes taskCnt = some rows →
    arbitraryNodes = some hostfile → ∀ t < hostfile.length, ∃ k,
      alloc[k]? = hostfile[t]? ∧
      (∀ k', Placed rows k' t ↔ k' = k) ∧
      slurmStepLayoutHostId rows taskCnt (UInt32.ofNat t) = some k ∧
      slurmStepLayoutHostName alloc rows taskCnt (UInt32.ofNat t) = hostfile[t]?

/-! ## Places -/

/-- The places of `host` in the hostfile, numbered from `t` on. -/
def places (host : CString) : Nat → List CString → List Nat
  | _, [] => []
  | t, h :: hs => if host = h then t :: places host (t + 1) hs else places host (t + 1) hs

theorem mem_places {host : CString} {hs : List CString} {t p : Nat} :
    p ∈ places host t hs ↔ t ≤ p ∧ hs[p - t]? = some host := by
  induction hs generalizing t with
  | nil => simp [places]
  | cons h hs ih =>
    have hrest : p ∈ places host (t + 1) hs ↔ t + 1 ≤ p ∧ (h :: hs)[p - t]? = some host := by
      rw [ih]
      apply and_congr_right
      intro hlt
      have hidx : p - t = (p - (t + 1)) + 1 := by omega
      rw [hidx, List.getElem?_cons_succ]
    rw [places]
    split
    · rename_i heq
      rw [List.mem_cons, hrest]
      constructor
      · intro hp
        cases hp with
        | inl hhead => simp [hhead, heq]
        | inr htail => exact ⟨by omega, htail.2⟩
      · intro hp
        by_cases hpt : p = t
        · exact Or.inl hpt
        · exact Or.inr ⟨by omega, hp.2⟩
    · rename_i hne
      rw [hrest]
      constructor
      · intro hp
        exact ⟨by omega, hp.2⟩
      · intro hp
        refine ⟨?_, hp.2⟩
        by_contra hnot
        have hpt : p - t = 0 := by omega
        rw [hpt, List.getElem?_cons_zero, Option.some.injEq] at hp
        exact hne hp.2.symm

theorem length_places (host : CString) (t : Nat) (hs : List CString) :
    (places host t hs).length = hs.count host := by
  induction hs generalizing t with
  | nil => rfl
  | cons h hs ih =>
    rw [places]
    split
    · rename_i heq
      rw [List.length_cons, ih, heq, List.count_cons_self]
    · rename_i hne
      rw [ih, List.count_cons_of_ne (Ne.symm hne)]

theorem nodup_places (host : CString) (t : Nat) (hs : List CString) :
    (places host t hs).Nodup := by
  induction hs generalizing t with
  | nil => exact List.nodup_nil
  | cons h hs ih =>
    rw [places]
    split
    · apply List.nodup_cons.mpr
      refine ⟨?_, ih (t + 1)⟩
      intro hmem
      have hle := (mem_places.mp hmem).1
      omega
    · exact ih (t + 1)

/-! ## The two passes -/

theorem countTasks_eq {host : CString} {total : Nat} {hs : List CString} {tasks : UInt16}
    {taskCnt : Nat} (hle : taskCnt + hs.count host ≤ total) :
    countTasks host total hs tasks taskCnt =
      (tasks + UInt16.ofNat (hs.count host), taskCnt + hs.count host) := by
  induction hs generalizing tasks taskCnt with
  | nil => simp [countTasks]
  | cons h hs ih =>
    rw [countTasks]
    by_cases heq : host = h
    · have hcount : (h :: hs).count host = hs.count host + 1 := by simp [heq]
      rw [hcount] at hle ⊢
      have hwrap : tasks + 1 + UInt16.ofNat (hs.count host) =
          tasks + UInt16.ofNat (hs.count host + 1) := by
        rw [UInt16.ofNat_add, UInt16.add_assoc, UInt16.add_comm 1]
        rfl
      simp only [if_pos heq]
      split
      · -- all tasks are placed, so the host has no further place
        have hzero : hs.count host = 0 := by omega
        simp [hzero]
      · rw [ih (by omega), hwrap]
        simp only [Prod.mk.injEq, true_and]
        omega
    · have hcount : (h :: hs).count host = hs.count host :=
        List.count_cons_of_ne (Ne.symm heq)
      rw [hcount] at hle ⊢
      simp only [if_neg heq]
      split
      · have hzero : hs.count host = 0 := by omega
        simp [hzero]
      · exact ih hle

/-- With room in `tids` from `j` on, the next places are stored there. -/
theorem fillTids_eq {host : CString} {hs : List CString} {taskid j : Nat} {tids : List UInt32}
    (hj : j < tids.length) (hroom : tids.length ≤ j + hs.count host) :
    fillTids host hs taskid j tids = tids.take j ++
      ((places host taskid hs).take (tids.length - j)).map UInt32.ofNat := by
  induction hs generalizing taskid j tids with
  | nil =>
    simp only [List.count_nil] at hroom
    omega
  | cons h hs ih =>
    rw [fillTids]
    by_cases heq : host = h
    · have hcount : (h :: hs).count host = hs.count host + 1 := by simp [heq]
      rw [hcount] at hroom
      have hone : tids.length - j = (tids.length - (j + 1)) + 1 := by omega
      have htake : (tids.set j (UInt32.ofNat taskid)).take (j + 1) =
          tids.take j ++ [UInt32.ofNat taskid] := by
        rw [List.take_add_one, List.take_set_of_le (Nat.le_refl j)]
        simp [hj]
      simp only [if_pos heq, places, hone, List.take_succ_cons, List.map_cons]
      split
      · -- the last one
        have hlast : tids.length - (j + 1) = 0 := by omega
        have hfull : (tids.set j (UInt32.ofNat taskid)).take (j + 1) =
            tids.set j (UInt32.ofNat taskid) := by
          apply List.take_of_length_le
          rw [List.length_set]
          omega
        rw [hlast, List.take_zero, List.map_nil, ← htake, hfull]
      · rw [ih (by rw [List.length_set]; omega) (by rw [List.length_set]; omega),
          List.length_set, htake]
        simp
    · have hcount : (h :: hs).count host = hs.count host :=
        List.count_cons_of_ne (Ne.symm heq)
      rw [hcount] at hroom
      simp only [if_neg heq, places]
      rw [if_neg (by omega)]
      exact ih hj hroom

/-! ## Rows -/

/-- The count of a host does not wrap to 0. -/
def Used (hostfile : List CString) (host : CString) : Prop :=
  UInt16.ofNat (hostfile.count host) ≠ 0

instance (hostfile : List CString) : DecidablePred (Used hostfile) :=
  fun _ => inferInstanceAs (Decidable (_ ≠ _))

/-- The row of a host. -/
def rowOf (hostfile : List CString) (host : CString) : HostRow :=
  ⟨UInt16.ofNat (hostfile.count host),
    ((places host 0 hostfile).take (hostfile.count host % 65536)).map UInt32.ofNat⟩

/-- The rows of the hosts `used`, with `free` rows after them. -/
def rowsOf (hostfile used : List CString) (free : Nat) : List HostRow :=
  used.map (rowOf hostfile) ++ List.replicate free HostRow.zero

/-- How many places have one of the hosts. -/
def placed (hostfile hosts : List CString) : Nat := (hosts.map hostfile.count).sum

theorem row_eq {hostfile : List CString} {host : CString} (hused : Used hostfile host) :
    (⟨UInt16.ofNat (hostfile.count host),
      fillTids host hostfile 0 0
        (List.replicate (UInt16.ofNat (hostfile.count host)).toNat 0)⟩ : HostRow) =
      rowOf hostfile host := by
  have hwrap : (UInt16.ofNat (hostfile.count host)).toNat = hostfile.count host % 65536 :=
    UInt16.toNat_ofNat'
  have hpos : 0 < hostfile.count host % 65536 := by
    rw [← hwrap]
    apply Nat.pos_of_ne_zero
    intro hzero
    exact hused (UInt16.toNat_inj.mp hzero)
  have hle : hostfile.count host % 65536 ≤ hostfile.count host := Nat.mod_le _ _
  rw [hwrap, fillTids_eq (by rwa [List.length_replicate]) (by rw [List.length_replicate]; omega)]
  simp [rowOf]

theorem length_le_placed {hostfile used : List CString} (h : ∀ u ∈ used, Used hostfile u) :
    used.length ≤ placed hostfile used := by
  induction used with
  | nil => simp
  | cons u us ih =>
    have hus : us.length ≤ placed hostfile us := ih fun v hv => h v (List.mem_cons_of_mem _ hv)
    have hu : hostfile.count u ≠ 0 := by
      intro hzero
      exact h u List.mem_cons_self (by rw [hzero]; rfl)
    simp only [placed, List.map_cons, List.sum_cons, List.length_cons] at hus ⊢
    omega

/-- Hosts that are all different have no more places than there are. -/
theorem placed_le {hostfile hosts : List CString} (h : hosts.Nodup) :
    placed hostfile hosts = hostfile.countP (· ∈ hosts) := by
  induction hosts with
  | nil => simp [placed]
  | cons x xs ih =>
    obtain ⟨hx, hxs⟩ := List.nodup_cons.mp h
    have hsplit : hostfile.countP (· ∈ x :: xs) =
        hostfile.count x + hostfile.countP (· ∈ xs) := by
      clear ih h
      induction hostfile with
      | nil => rfl
      | cons y ys ihy =>
        rw [List.countP_cons, List.countP_cons, List.count_cons, ihy]
        by_cases hyx : y = x
        · subst hyx
          simp [hx]
          omega
        · simp [hyx]
          omega
    rw [hsplit, ← ih hxs]
    rfl

theorem modify_length_append {α : Type} (f : α → α) (y : α) (xs ys : List α) :
    (xs ++ y :: ys).modify xs.length f = xs ++ f y :: ys := by
  induction xs with
  | nil => simp
  | cons x xs ih => simp [ih]

/-- The hosts passed so far have the first rows; the rows of the others are still free. -/
theorem layoutHosts_eq {hostfile : List CString} {total : Nat} (hosts used : List CString)
    {free taskCnt : Nat} (hused : ∀ u ∈ used, Used hostfile u) (hfree : hosts.length ≤ free)
    (hcnt : placed hostfile used ≤ taskCnt)
    (hle : taskCnt + placed hostfile hosts ≤ total) :
    layoutHosts hostfile total hosts used.length taskCnt (rowsOf hostfile used free) =
      (rowsOf hostfile (used ++ hosts.filter (Used hostfile ·))
          (free - (hosts.filter (Used hostfile ·)).length),
        taskCnt + placed hostfile hosts) := by
  induction hosts generalizing used free taskCnt with
  | nil => simp [layoutHosts, placed]
  | cons host hosts ih =>
    have hsum : placed hostfile (host :: hosts) =
        hostfile.count host + placed hostfile hosts := rfl
    have hfirst := length_le_placed hused
    rw [List.length_cons] at hfree
    obtain ⟨free, rfl⟩ : ∃ k, free = k + 1 := ⟨free - 1, by omega⟩
    rw [hsum] at hle ⊢
    rw [layoutHosts, countTasks_eq (by omega), UInt16.zero_add]
    by_cases hhost : Used hostfile host
    · have hne : UInt16.ofNat (hostfile.count host) ≠ 0 := hhost
      have hmore : placed hostfile (used ++ [host]) =
          placed hostfile used + hostfile.count host := by simp [placed]
      have hall : ∀ u ∈ used ++ [host], Used hostfile u := by
        intro u hu
        cases List.mem_append.mp hu with
        | inl hin => exact hused u hin
        | inr heq => exact (List.mem_singleton.mp heq) ▸ hhost
      have hlen := length_le_placed hall
      rw [hmore, List.length_append, List.length_singleton] at hlen
      have hset : (rowsOf hostfile used (free + 1)).set used.length
          (rowOf hostfile host) = rowsOf hostfile (used ++ [host]) free := by
        simp [rowsOf, List.replicate_succ]
      simp only [if_neg hne, row_eq hhost, hset]
      rw [if_neg (by omega)]
      have hnext := @ih (used ++ [host]) free (taskCnt + hostfile.count host) hall
        (by omega) (by omega) (by omega)
      rw [List.length_append, List.length_singleton] at hnext
      rw [hnext, List.filter_cons_of_pos (by simpa using hhost)]
      simp only [List.append_assoc, List.singleton_append, List.length_cons,
        Nat.add_sub_add_right, Nat.add_assoc]
    · have hzero : UInt16.ofNat (hostfile.count host) = 0 := not_not.mp hhost
      -- the row is written as it was and stays the next one
      have hskip : (rowsOf hostfile used (free + 1)).modify used.length
          (fun r => { r with tasks := 0 }) = rowsOf hostfile used (free + 1) := by
        have hlen : used.length = (used.map (rowOf hostfile)).length := by simp
        rw [rowsOf, hlen, List.replicate_succ, modify_length_append]
        rfl
      simp only [if_pos hzero, hskip]
      rw [if_neg (by omega), ih used hused (by omega) (by omega) (by omega),
        List.filter_cons_of_neg (by simpa using hhost), Nat.add_assoc]

/-- The hosts of the allocation that get a row. -/
def usedHosts (alloc hostfile : List CString) : List CString := alloc.filter (Used hostfile ·)

/-- The layout there is when every host of the hostfile is in the allocation. -/
theorem taskLayoutHostfile_rows {alloc hostfile : List CString} (hnodup : alloc.Nodup)
    {taskCnt : UInt32} {rows : List HostRow} :
    taskLayoutHostfile alloc (some hostfile) taskCnt = some rows ↔
      hostfile.length = taskCnt.toNat ∧ (∀ h ∈ hostfile, h ∈ alloc) ∧
        rows = rowsOf hostfile (usedHosts alloc hostfile)
          (alloc.length - (usedHosts alloc hostfile).length) := by
  have hle : placed hostfile alloc ≤ hostfile.length := by
    rw [placed_le hnodup]
    exact List.countP_le_length
  have hall : placed hostfile alloc = hostfile.length ↔ ∀ h ∈ hostfile, h ∈ alloc := by
    rw [placed_le hnodup, List.countP_eq_length]
    simp
  show (if hostfile.length ≠ taskCnt.toNat then none else _) = some rows ↔ _
  by_cases hlen : hostfile.length = taskCnt.toNat
  · have hrun : layoutHosts hostfile taskCnt.toNat alloc 0 0
        (List.replicate alloc.length HostRow.zero) =
        (rowsOf hostfile (usedHosts alloc hostfile)
          (alloc.length - (usedHosts alloc hostfile).length), placed hostfile alloc) := by
      have h := @layoutHosts_eq hostfile taskCnt.toNat alloc [] alloc.length 0 (by simp)
        (Nat.le_refl _) (Nat.le_refl _) (by omega)
      simpa [rowsOf, usedHosts] using h
    rw [if_neg (not_not.mpr hlen)]
    simp only [hrun]
    by_cases hin : ∀ h ∈ hostfile, h ∈ alloc
    · rw [if_neg (by rw [not_not, hall.mpr hin, hlen]), Option.some.injEq]
      constructor
      · intro heq
        exact ⟨hlen, hin, heq.symm⟩
      · intro heq
        exact heq.2.2.symm
    · rw [if_pos]
      · simp [hin]
      · intro heq
        exact hin (hall.mp (heq.trans hlen.symm))
  · simp [hlen]

/-! ## Lookups -/

section Lookups

variable {hostfile used : List CString} {free : Nat}

theorem getElem?_rowsOf_used {k : Nat} (h : k < used.length) :
    (rowsOf hostfile used free)[k]? = (used[k]?).map (rowOf hostfile) := by
  rw [rowsOf, List.getElem?_append_left (by simpa using h), List.getElem?_map]

theorem has_zero (taskid : UInt32) : HostRow.zero.has taskid = false := rfl

/-- The tasks of a row are the places it has room for. -/
theorem has_rowOf (hlen : hostfile.length < 4294967296) {host : CString} {t : Nat}
    (ht : t < hostfile.length) :
    (rowOf hostfile host).has (UInt32.ofNat t) = true ↔
      t ∈ (places host 0 hostfile).take (hostfile.count host % 65536) := by
  have hfull : (rowOf hostfile host).tids.take (rowOf hostfile host).tasks.toNat =
      (rowOf hostfile host).tids := by
    apply List.take_of_length_le
    show (List.map _ _).length ≤ (UInt16.ofNat (hostfile.count host)).toNat
    rw [List.length_map, List.length_take, UInt16.toNat_ofNat']
    exact Nat.min_le_left _ _
  rw [HostRow.has, hfull, List.contains_iff_mem, rowOf, List.mem_map]
  constructor
  · intro hmem
    obtain ⟨p, hp, heq⟩ := hmem
    have hplace := (mem_places.mp (List.mem_of_mem_take hp)).2
    have hpt : p < hostfile.length := (List.getElem?_eq_some_iff.mp hplace).1
    have hsame : p = t := by
      have h := congrArg UInt32.toNat heq
      rwa [UInt32.toNat_ofNat_of_lt' (Nat.lt_trans hpt hlen),
        UInt32.toNat_ofNat_of_lt' (Nat.lt_trans ht hlen)] at h
    rwa [← hsame]
  · intro hmem
    exact ⟨t, hmem, rfl⟩

theorem placed_iff (hlen : hostfile.length < 4294967296) {k t : Nat}
    (ht : t < hostfile.length) :
    Placed (rowsOf hostfile used free) k t ↔ ∃ host, used[k]? = some host ∧
      t ∈ (places host 0 hostfile).take (hostfile.count host % 65536) := by
  by_cases hk : k < used.length
  · obtain ⟨host, hget⟩ : ∃ host, used[k]? = some host := ⟨_, List.getElem?_eq_getElem hk⟩
    simp only [Placed, getElem?_rowsOf_used hk, hget, Option.map_some, Option.some.injEq,
      exists_eq_left', has_rowOf hlen ht]
  · -- a free row has no tasks
    have hnone : used[k]? = none := List.getElem?_eq_none (by omega)
    simp only [Placed, hnone, reduceCtorEq, false_and, exists_false, iff_false]
    intro h
    obtain ⟨r, hr, hhas⟩ := h
    rw [rowsOf, List.getElem?_append_right (by simpa using hk)] at hr
    have hzero := List.eq_of_mem_replicate (List.mem_of_getElem? hr)
    rw [hzero, has_zero] at hhas
    cases hhas

/-- Where no count wraps, a task is placed on the row of its host. -/
theorem placed_iff_host (hlen : hostfile.length < 4294967296) {k t : Nat}
    (ht : t < hostfile.length) (hcount : ∀ h ∈ hostfile, hostfile.count h ≤ 65535) :
    Placed (rowsOf hostfile used free) k t ↔ used[k]? = hostfile[t]? := by
  have htake (host : CString) : (places host 0 hostfile).take (hostfile.count host % 65536) =
      places host 0 hostfile := by
    apply List.take_of_length_le
    rw [length_places]
    by_cases hmem : host ∈ hostfile
    · rw [Nat.mod_eq_of_lt (Nat.lt_succ_of_le (hcount host hmem))]
    · rw [List.count_eq_zero_of_not_mem hmem]
  rw [placed_iff hlen ht]
  simp only [htake, mem_places, Nat.zero_le, true_and, Nat.sub_zero]
  constructor
  · intro h
    obtain ⟨host, hk, hplace⟩ := h
    rw [hk, hplace]
  · intro h
    rw [List.getElem?_eq_getElem ht] at h ⊢
    exact ⟨hostfile[t], h, rfl⟩

/-- The lookup finds the one row a task is on. -/
theorem hostId_of_placed {rows : List HostRow} {taskCnt : UInt32} {t k : Nat}
    (ht : t < taskCnt.toNat) (honly : ∀ k', Placed rows k' t ↔ k' = k) :
    slurmStepLayoutHostId rows taskCnt (UInt32.ofNat t) = some k := by
  have hbound := taskCnt.toNat_lt
  have hin : ¬ UInt32.ofNat t > taskCnt - 1 := by
    have hone : (1 : UInt32) ≤ taskCnt := by
      rw [UInt32.le_iff_toNat_le]
      exact Nat.succ_le_of_lt (Nat.lt_of_le_of_lt (Nat.zero_le t) ht)
    rw [gt_iff_lt, UInt32.lt_iff_toNat_lt, UInt32.toNat_sub_of_le _ _ hone,
      UInt32.toNat_ofNat_of_lt' (Nat.lt_trans ht hbound)]
    simp only [UInt32.toNat_one]
    omega
  obtain ⟨r, hr, hhas⟩ := (honly k).mpr rfl
  obtain ⟨hk, hget⟩ := List.getElem?_eq_some_iff.mp hr
  rw [slurmStepLayoutHostId, if_neg hin, List.findIdx?_eq_some_iff_getElem]
  refine ⟨hk, by rw [hget]; exact hhas, ?_⟩
  intro k' hk' hhas'
  have hsame := (honly k').mp ⟨rows[k'], List.getElem?_eq_getElem (by omega), hhas'⟩
  omega

end Lookups

/-! ## Result -/

/-- The hosts of the allocation that the hostfile names come before the others. -/
def UsedFirst (alloc hostfile : List CString) : Prop :=
  ∃ used others, alloc = used ++ others ∧ (∀ h ∈ used, h ∈ hostfile) ∧
    ∀ h ∈ others, h ∉ hostfile

/-- The layout fails, or no host has more places than an `uint16_t` counts and the hosts of
the hostfile are the first of the allocation. -/
def Placeable (alloc : List CString) (arbitraryNodes : Option (List CString))
    (taskCnt : UInt32) : Prop :=
  ∀ hostfile, arbitraryNodes = some hostfile → hostfile.length = taskCnt.toNat →
    (∀ h ∈ hostfile, h ∈ alloc) →
      (∀ h ∈ hostfile, hostfile.count h ≤ 65535) ∧ UsedFirst alloc hostfile

section Result

variable {alloc hostfile : List CString}

theorem used_iff_mem (hcount : ∀ h ∈ hostfile, hostfile.count h ≤ 65535) (host : CString) :
    Used hostfile host ↔ host ∈ hostfile := by
  rw [Used, ne_eq, ← UInt16.toNat_inj, UInt16.toNat_ofNat']
  by_cases hmem : host ∈ hostfile
  · have hle := hcount host hmem
    have hpos := List.count_pos_iff.mpr hmem
    simp only [hmem, iff_true]
    rw [Nat.mod_eq_of_lt (by omega)]
    show ¬ hostfile.count host = 0
    omega
  · simp only [hmem, iff_false, not_not]
    rw [List.count_eq_zero_of_not_mem hmem]
    rfl

/-- The rows are those of the hosts the hostfile names. -/
theorem usedHosts_eq (hcount : ∀ h ∈ hostfile, hostfile.count h ≤ 65535) :
    usedHosts alloc hostfile = alloc.filter (· ∈ hostfile) := by
  apply List.filter_congr
  intro host _
  simp [used_iff_mem hcount host]

theorem usedHosts_append {used others : List CString}
    (hcount : ∀ h ∈ hostfile, hostfile.count h ≤ 65535) (hused : ∀ h ∈ used, h ∈ hostfile)
    (hothers : ∀ h ∈ others, h ∉ hostfile) :
    usedHosts (used ++ others) hostfile = used := by
  have hall : used.filter (· ∈ hostfile) = used := by
    apply List.filter_eq_self.mpr
    intro h hmem
    exact decide_eq_true (hused h hmem)
  have hnone : others.filter (· ∈ hostfile) = [] := by
    apply List.filter_eq_nil_iff.mpr
    intro h hmem
    simpa using hothers h hmem
  rw [usedHosts_eq hcount, List.filter_append, hall, hnone, List.append_nil]

theorem prefix_of_getElem? {as fs : List CString}
    (h : ∀ k < fs.length, as[k]? = fs[k]?) : fs <+: as := by
  rw [List.prefix_iff_getElem?]
  intro k hk
  rw [h k hk, List.getElem?_eq_getElem hk]

/-- Where a task of each host is found in the host's place, the hosts with rows come first. -/
theorem usedFirst_of_places (hnodup : alloc.Nodup)
    (hcount : ∀ h ∈ hostfile, hostfile.count h ≤ 65535)
    (hplaces : ∀ t < hostfile.length, ∃ k : Nat, alloc[k]? = hostfile[t]? ∧
      (usedHosts alloc hostfile)[k]? = hostfile[t]?) : UsedFirst alloc hostfile := by
  have hrows := @usedHosts_eq alloc hostfile hcount
  have hsub : (usedHosts alloc hostfile).Nodup := hnodup.filter _
  have hmem : ∀ h ∈ usedHosts alloc hostfile, h ∈ hostfile := by
    intro h hh
    rw [hrows] at hh
    simpa using (List.mem_filter.mp hh).2
  have hprefix : usedHosts alloc hostfile <+: alloc := by
    apply prefix_of_getElem?
    intro k hk
    have hget := List.getElem?_eq_getElem hk
    -- the host of row `k` has a task, and it is in the same place of the allocation
    obtain ⟨t, ht, heq⟩ := List.mem_iff_getElem.mp (hmem _ (List.getElem_mem hk))
    obtain ⟨k', halloc, hused⟩ := hplaces t ht
    rw [List.getElem?_eq_getElem ht, heq, ← hget] at halloc hused
    have hsame : k = k' := (List.getElem?_inj hk hsub).mp hused.symm
    rw [hsame, halloc, ← hsame]
  obtain ⟨others, hothers⟩ := hprefix
  refine ⟨usedHosts alloc hostfile, others, hothers.symm, hmem, ?_⟩
  intro h hh hin
  -- such a host has a row, so the allocation would have it twice
  have hboth : h ∈ usedHosts alloc hostfile := by
    rw [hrows, List.mem_filter, ← hothers]
    exact ⟨List.mem_append_right _ hh, decide_eq_true hin⟩
  rw [← hothers] at hnodup
  exact (List.nodup_append.mp hnodup).2.2 h hboth h hh rfl

/-- If every place of a host is a task of a row, the row counts them all. -/
theorem count_le_of_placed (hlen : hostfile.length < 4294967296) {used : List CString}
    {free : Nat} (hplaced : ∀ t < hostfile.length, ∃ k, Placed (rowsOf hostfile used free) k t)
    (host : CString) : hostfile.count host ≤ 65535 := by
  have hsub : places host 0 hostfile ⊆
      (places host 0 hostfile).take (hostfile.count host % 65536) := by
    intro t hmem
    have hplace := (mem_places.mp hmem).2
    rw [Nat.sub_zero] at hplace
    have ht := (List.getElem?_eq_some_iff.mp hplace).1
    obtain ⟨k, hk⟩ := hplaced t ht
    obtain ⟨host', -, htake⟩ := (placed_iff hlen ht).mp hk
    have hplace' := (mem_places.mp (List.mem_of_mem_take htake)).2
    rw [Nat.sub_zero, hplace, Option.some.injEq] at hplace'
    rwa [← hplace'] at htake
  have hle := (List.subperm_of_subset (nodup_places host 0 hostfile) hsub).length_le
  rw [List.length_take, length_places] at hle
  have hwrap : hostfile.count host % 65536 < 65536 := Nat.mod_lt _ (Nat.succ_pos _)
  omega

/-- What a layout with every task on its host is made of. -/
theorem placeable_of_hostsRight (hnodup : alloc.Nodup) {arbitraryNodes : Option (List CString)}
    {taskCnt : UInt32} (hright : HostsRight alloc arbitraryNodes taskCnt) :
    Placeable alloc arbitraryNodes taskCnt := by
  intro hostfile hnodes hlen hall
  have hbound : hostfile.length < 4294967296 := hlen ▸ taskCnt.toNat_lt
  have hlayout := (taskLayoutHostfile_rows hnodup).mpr ⟨hlen, hall, rfl⟩
  rw [← hnodes] at hlayout
  have htasks := hright _ hostfile hlayout hnodes
  have hcount : ∀ h ∈ hostfile, hostfile.count h ≤ 65535 := by
    intro host _
    apply count_le_of_placed hbound
    intro t ht
    obtain ⟨k, -, honly, -⟩ := htasks t ht
    exact ⟨k, (honly k).mpr rfl⟩
  refine ⟨hcount, usedFirst_of_places hnodup hcount ?_⟩
  intro t ht
  obtain ⟨k, halloc, honly, -⟩ := htasks t ht
  exact ⟨k, halloc, (placed_iff_host hbound ht hcount).mp ((honly k).mpr rfl)⟩

/-- **Hosts of the hostfile.** For an allocation without repeats, every task of a layout is
on its host and found there if and only if the layout fails or no host counts past 65535
and the hosts the hostfile names are the first of the allocation. -/
theorem hostsRight_iff (hnodup : alloc.Nodup) (arbitraryNodes : Option (List CString))
    (taskCnt : UInt32) :
    HostsRight alloc arbitraryNodes taskCnt ↔ Placeable alloc arbitraryNodes taskCnt := by
  constructor
  · exact placeable_of_hostsRight hnodup
  · intro hplaceable rows hostfile hlayout hnodes t ht
    rw [hnodes] at hlayout
    obtain ⟨hlen, hall, hrows⟩ := (taskLayoutHostfile_rows hnodup).mp hlayout
    obtain ⟨hcount, used, others, halloc, hused, hothers⟩ :=
      hplaceable hostfile hnodes hlen hall
    have hbound : hostfile.length < 4294967296 := hlen ▸ taskCnt.toNat_lt
    have hrowsOf : usedHosts alloc hostfile = used := by
      rw [halloc]
      exact usedHosts_append hcount hused hothers
    rw [hrowsOf] at hrows
    subst hrows
    -- the host of task `t` has row `k`
    have hhost : hostfile[t] ∈ used := by
      have hin := hall _ (List.getElem_mem ht)
      rw [halloc] at hin
      cases List.mem_append.mp hin with
      | inl h => exact h
      | inr h => exact absurd (List.getElem_mem ht) (hothers _ h)
    obtain ⟨k, hk, heq⟩ := List.mem_iff_getElem.mp hhost
    have hget : used[k]? = hostfile[t]? := by
      rw [List.getElem?_eq_getElem hk, List.getElem?_eq_getElem ht, heq]
    have hsub : used.Nodup := by
      rw [halloc] at hnodup
      exact (List.nodup_append.mp hnodup).1
    have honly (k' : Nat) :
        Placed (rowsOf hostfile used (alloc.length - used.length)) k' t ↔ k' = k := by
      rw [placed_iff_host hbound ht hcount, ← hget]
      constructor
      · intro hk'
        exact ((List.getElem?_inj hk hsub).mp hk'.symm).symm
      · intro hk'
        rw [hk']
    have hin : alloc[k]? = hostfile[t]? := by
      rw [halloc, List.getElem?_append_left hk, hget]
    have hid := hostId_of_placed (hlen ▸ ht) honly
    refine ⟨k, hin, honly, hid, ?_⟩
    rw [slurmStepLayoutHostName, hid]
    exact hin

end Result

/-- The host of one letter. -/
def letter (c : UInt8) : CString := CString.ofBytes [c]

/-- Hosts out of the allocation's order, one of them twice. -/
theorem hostsRight_three :
    HostsRight [letter 97, letter 98] (some [letter 98, letter 97, letter 98]) 3 := by
  apply (hostsRight_iff (by decide) _ _).mpr
  intro hostfile hnodes _ _
  obtain rfl := Option.some.inj hnodes
  exact ⟨by decide, [letter 97, letter 98], [], rfl, by decide, by decide⟩

/-- The 65536 tasks of one host leave its count at 0, and a host without tasks before the
others takes their place in the node list. -/
theorem not_hostsRight_wrapped :
    ¬ HostsRight [letter 97] (some (List.replicate 65536 (letter 97))) 65536 ∧
      ¬ HostsRight [letter 97, letter 98] (some [letter 98, letter 98]) 2 := by
  constructor
  · intro h
    have hall : ∀ host ∈ List.replicate 65536 (letter 97), host ∈ [letter 97] := by
      intro host hmem
      exact List.mem_singleton.mpr (List.eq_of_mem_replicate hmem)
    have hplaceable := placeable_of_hostsRight (by decide) h _ rfl List.length_replicate hall
    have hcount := hplaceable.1 (letter 97) (List.mem_replicate.mpr ⟨by omega, rfl⟩)
    rw [List.count_replicate_self] at hcount
    omega
  · intro h
    obtain ⟨-, used, others, halloc, hused, hothers⟩ :=
      placeable_of_hostsRight (by decide) h _ rfl rfl (by decide)
    cases used with
    | nil =>
      rw [List.nil_append] at halloc
      subst halloc
      exact hothers (letter 98) (by decide) (by decide)
    | cons u us =>
      have hfirst : letter 97 = u := (List.cons.inj halloc).1
      have hin := hused u List.mem_cons_self
      rw [← hfirst] at hin
      exact absurd hin (by decide)

end Slurm.Layout
