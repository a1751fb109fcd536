import SlurmLite.Archive.Content

/-!
# Archive and purge

`mysql_jobacct_process_archive`: for events, suspensions, steps and jobs in
turn, the rows older than a number of months are selected, written to an
archive file and deleted. The select and the delete statement of a kind are
separate texts. The function returns at the first failure, so the kinds after
it keep their rows.

* **One kind**: `archiveKind_spec`: a kind either has its old rows deleted,
  after an archive write that reported success, or keeps its table.
* **All kinds**: `archiveKinds_spec` follows the call over the kinds, whose
  tables do not interfere.
* **Losses**: `deleted_rows_archived_iff`: the delete statements take no row
  the select statements left out, except jobs submitted at the period's end.
* **Failed writes**: `archive_write_honest`: what the caller can conclude from
  the return code of the archive write.
-/

namespace Slurm.Archive

open Base.CLib Base.Files

/-! ## The four kinds of record -/

inductive Kind where
  | event
  | suspend
  | step
  | job
deriving DecidableEq

namespace Kind

/-- `event_table` and its siblings. -/
def table : Kind → List Char
  | event => "cluster_event_table".toList
  | suspend => "suspend_table".toList
  | step => "step_table".toList
  | job => "job_table".toList

/-- The name of the kind in the archive's file name. -/
def archType : Kind → List Char
  | event => "event".toList
  | suspend => "suspend".toList
  | step => "step".toList
  | job => "job".toList

/-- `event_req_inx` and its siblings. -/
def reqInx : Kind → List String
  | event => ["node_name", "cluster", "cpu_count", "state", "period_start", "period_end",
      "reason", "cluster_nodes"]
  | suspend => ["id", "associd", "start", "end"]
  | step => ["id", "stepid", "start", "end", "suspended", "name", "nodelist", "node_inx", "state",
      "kill_requid", "comp_code", "nodes", "cpus", "tasks", "task_dist", "user_sec", "user_usec",
      "sys_sec", "sys_usec", "max_vsize", "max_vsize_task", "max_vsize_node", "ave_vsize",
      "max_rss", "max_rss_task", "max_rss_node", "ave_rss", "max_pages", "max_pages_task",
      "max_pages_node", "ave_pages", "min_cpu", "min_cpu_task", "min_cpu_node", "ave_cpu"]
  | job => ["id", "jobid", "associd", "wckey", "wckeyid", "uid", "gid", "resvid", "partition",
      "blockid", "cluster", "account", "eligible", "submit", "start", "end", "suspended", "name",
      "track_steps", "state", "comp_code", "priority", "req_cpus", "alloc_cpus", "alloc_nodes",
      "nodelist", "node_inx", "kill_requid", "qos"]

/-- Whether the archived rows carry the mark of a deleted record. -/
def withDeleted : Kind → Bool
  | event | suspend => false
  | step | job => true

/-- `insert into %s (%s) `. -/
def insert (kind : Kind) : List Char :=
  "insert into ".toList ++ kind.table ++ " (".toList ++
    ", ".toList.intercalate (kind.reqInx.map String.toList) ++
    (if kind.withDeleted then ", deleted".toList else []) ++ ") ".toList

/-- The condition of the select statement. -/
def selects (kind : Kind) (currEnd : Int) (row : Row) : Bool :=
  match kind with
  | event | suspend => row.start ≤ currEnd && row.stop != 0
  | step => row.start ≤ currEnd && row.stop != 0 && !row.deleted
  | job => row.start < currEnd && row.stop != 0 && !row.deleted

/-- The condition of the delete statement. -/
def deletes (_kind : Kind) (currEnd : Int) (row : Row) : Bool :=
  row.start ≤ currEnd && row.stop != 0

/-- A record already marked deleted; events and suspensions have no mark. -/
def marked (kind : Kind) (row : Row) : Bool := kind.withDeleted && row.deleted

/-- The broken-down end of the period: months ago, from the first of the month
except for steps. -/
def periodTm (kind : Kind) (months : Nat) (tm : Tm) : Tm :=
  match kind with
  | step => { tm with mon := tm.mon - months, isdst := -1 }
  | event | suspend | job => { tm with mday := 1, mon := tm.mon - months, isdst := -1 }

end Kind

/-- `acct_archive_cond_t`: the `purge_*` months and `archive_*` flags by kind. -/
structure ArchCond where
  archiveDir : Option (List Char)
  archiveScript : Option (List Char)
  archive : Kind → Bool
  purge : Kind → Nat

/-- What the call meets outside: the C library's calendar, the archive script,
whether each query succeeds, and the system calls of each archive write.
`stamp` is what `localtime_r` leaves for a file name. -/
structure World where
  localtime : Int → Option Tm
  stamp : Int → Tm
  mktime : Tm → Int
  script : List Char → Int → Int
  select : Kind → Bool
  delete : Kind → Bool
  calls : Kind → Calls

/-- The tables, the files, and the rows each archive write took. -/
structure Store where
  tables : Kind → List Row
  archived : Kind → List Row
  fs : FileSystem (List Char)

/-- Before the call. -/
def Store.start (tables : Kind → List Row) (fs : FileSystem (List Char)) : Store :=
  ⟨tables, fun _ => [], fs⟩

/-! ## The call -/

/-- The end of a kind's period. -/
def currEnd (w : World) (cond : ArchCond) (kind : Kind) (tm : Tm) : Int :=
  w.mktime (kind.periodTm (cond.purge kind) tm)

/-- The select query: `order by <start> asc`. The time is printed with `%d`. -/
def selected (kind : Kind) (endTime : Int) (rows : List Row) : List Row :=
  (rows.filter (kind.selects (int32 endTime))).insertionSort fun a b => a.start ≤ b.start

/-- The call of `_write_archive_file` for a kind. -/
def target (w : World) (dir : List Char) (kind : Kind) (endTime : Int) : Target :=
  ⟨w.stamp, dir, kind.archType, kind.insert, endTime, kind.withDeleted⟩

/-- The delete query of a kind. -/
def purgeRows (w : World) (kind : Kind) (endTime : Int) (s : Store) : Option Int × Store :=
  if w.delete kind then
    (none, { s with
      tables := Function.update s.tables kind
        ((s.tables kind).filter fun row => !kind.deletes (int32 endTime) row) })
  else (some slurmError, s)

/-- The block of one kind: the code it returns with, if it returns. -/
def archiveKind (w : World) (cond : ArchCond) (dir : List Char) (lastSubmit : Int) (kind : Kind)
    (s : Store) : Option (Option Int × Store) :=
  if cond.purge kind = 0 then some (none, s)
  else
    match w.localtime lastSubmit with
    | none => some (some slurmError, s)
    | some tm =>
      let endTime := currEnd w cond kind tm
      if cond.archive kind then
        if !w.select kind then some (some slurmError, s)
        else
          let rows := selected kind endTime (s.tables kind)
          if rows = [] then some (none, s)
          else
            match (target w dir kind endTime).writeArchiveFile (w.calls kind) rows s.fs with
            | none => none
            | some out =>
              if out.rc ≠ slurmSuccess then some (some out.rc, { s with fs := out.fs })
              else some (purgeRows w kind endTime
                { s with fs := out.fs, archived := Function.update s.archived kind rows })
      else some (purgeRows w kind endTime s)

/-- The blocks in order, up to the first that returns. -/
def archiveKinds (w : World) (cond : ArchCond) (dir : List Char) (lastSubmit : Int) :
    List Kind → Store → Option (Int × Store)
  | [], s => some (slurmSuccess, s)
  | kind :: kinds, s =>
    match archiveKind w cond dir lastSubmit kind s with
    | none => none
    | some (some rc, s) => some (rc, s)
    | some (none, s) => archiveKinds w cond dir lastSubmit kinds s

/-- The second before this month. -/
def lastSubmit (w : World) (tm : Tm) : Int :=
  w.mktime { tm with sec := 0, min := 0, hour := 0, mday := 1, isdst := -1 } - 1

/-- `mysql_jobacct_process_archive` at the time `now`. -/
def mysqlJobacctProcessArchive (w : World) (archCond : Option ArchCond) (now : Int) (s : Store) :
    Option (Int × Store) :=
  match archCond with
  | none => some (slurmError, s)
  | some cond =>
    match w.localtime now with
    | none => some (slurmError, s)
    | some tm =>
      match cond.archiveScript with
      | some script => some (w.script script (lastSubmit w tm), s)
      | none =>
        match cond.archiveDir with
        | none => some (slurmError, s)
        | some dir =>
          archiveKinds w cond dir (lastSubmit w tm) [.event, .suspend, .step, .job] s

/-! ## The two statements -/

/-- A row the delete statement takes and the select statement does not is
marked deleted, or is a job submitted at the very end of the period. -/
theorem selects_or_marked_of_deletes {kind : Kind} {endTime : Int} {row : Row}
    (h : kind.deletes endTime row = true) :
    kind.selects endTime row = true ∨ kind.marked row = true ∨
      kind = .job ∧ (row.start : Int) = endTime ∧ row.stop ≠ 0 ∧ row.deleted = false := by
  simp only [Kind.deletes, Bool.and_eq_true, decide_eq_true_eq, bne_iff_ne] at h
  obtain ⟨hstart, hstop⟩ := h
  cases kind with
  | event => exact Or.inl (by simp [Kind.selects, hstart, hstop])
  | suspend => exact Or.inl (by simp [Kind.selects, hstart, hstop])
  | step =>
    cases hdel : row.deleted with
    | true => exact Or.inr (Or.inl (by simp [Kind.marked, Kind.withDeleted, hdel]))
    | false => exact Or.inl (by simp [Kind.selects, hstart, hstop, hdel])
  | job =>
    cases hdel : row.deleted with
    | true => exact Or.inr (Or.inl (by simp [Kind.marked, Kind.withDeleted, hdel]))
    | false =>
      obtain hlt | heq := Int.lt_or_eq_of_le hstart
      · exact Or.inl (by simp [Kind.selects, hlt, hstop, hdel])
      · exact Or.inr (Or.inr ⟨rfl, heq, hstop, rfl⟩)

/-- A job submitted at the end of the period is deleted and not selected. -/
theorem boundary_job {endTime : Int} {row : Row} (hstart : (row.start : Int) = endTime)
    (hstop : row.stop ≠ 0) : Kind.deletes .job endTime row = true ∧
      Kind.selects .job endTime row = false := by
  constructor
  · simp [Kind.deletes, hstart, hstop]
  · simp [Kind.selects, hstart]

theorem mem_selected {kind : Kind} {endTime : Int} {rows : List Row} {row : Row} :
    row ∈ selected kind endTime rows ↔
      row ∈ rows ∧ kind.selects (int32 endTime) row = true := by
  rw [selected, List.mem_insertionSort, List.mem_filter]

/-! ## One kind -/

section Runs

variable (w : World) (cond : ArchCond) (last : Int)

/-- The end of a kind's period, as the queries print it. -/
def endOf (kind : Kind) : Int :=
  match w.localtime last with
  | none => 0
  | some tm => currEnd w cond kind tm

/-- The block leaves the kind alone and goes on. -/
def Skips (rows : List Row) (kind : Kind) : Prop :=
  cond.purge kind = 0 ∨
    (w.localtime last).isSome ∧ cond.archive kind = true ∧ w.select kind = true ∧
      selected kind (endOf w cond last kind) rows = []

/-- The block deletes the kind's old rows. -/
def Purges (rows : List Row) (kind : Kind) : Prop :=
  cond.purge kind ≠ 0 ∧ (w.localtime last).isSome ∧ w.delete kind = true ∧
    (cond.archive kind = true → w.select kind = true ∧
      selected kind (endOf w cond last kind) rows ≠ [] ∧ (w.calls kind).trailer.fails = false)

/-- What is left of a table the kind's old rows are deleted from. -/
def keptRows (kind : Kind) (rows : List Row) : List Row :=
  rows.filter fun row => !kind.deletes (int32 (endOf w cond last kind)) row

/-- The rows the archive write of the kind takes. -/
def takenRows (kind : Kind) (rows : List Row) : List Row :=
  if cond.archive kind then selected kind (endOf w cond last kind) rows else []

variable {w cond last}

/-- A block deletes the kind's old rows and goes on, or it changes no table,
and then it goes on only where there is nothing to do. -/
theorem archiveKind_spec {dir : List Char} {kind : Kind} {s s' : Store} {ret : Option Int}
    (hempty : s.archived kind = [])
    (h : archiveKind w cond dir last kind s = some (ret, s')) :
    (Purges w cond last (s.tables kind) kind ∧ ret = none ∧
      s'.tables = Function.update s.tables kind (keptRows w cond last kind (s.tables kind)) ∧
      s'.archived =
        Function.update s.archived kind (takenRows w cond last kind (s.tables kind))) ∨
    (¬ Purges w cond last (s.tables kind) kind ∧ s'.tables = s.tables ∧
      (∀ other ≠ kind, s'.archived other = s.archived other) ∧
      (ret = none ↔ Skips w cond last (s.tables kind) kind)) := by
  unfold archiveKind at h
  split at h
  · rename_i hoff
    obtain ⟨rfl, rfl⟩ := Prod.mk.inj (Option.some.inj h)
    refine Or.inr ⟨fun hp => hp.1 hoff, rfl, fun _ _ => rfl, ?_⟩
    exact ⟨fun _ => Or.inl hoff, fun _ => rfl⟩
  · rename_i hon
    split at h
    · rename_i hlocal
      obtain ⟨rfl, rfl⟩ := Prod.mk.inj (Option.some.inj h)
      have hnone : ¬ (w.localtime last).isSome := by simp [hlocal]
      refine Or.inr ⟨fun hp => hnone hp.2.1, ?_⟩
      refine ⟨rfl, fun _ _ => rfl, fun h => (by cases h), fun hs => ?_⟩
      obtain hoff | ⟨hsome, -⟩ := hs
      · exact absurd hoff hon
      · exact absurd hsome hnone
    · rename_i tm hlocal
      have hend : endOf w cond last kind = currEnd w cond kind tm := by rw [endOf, hlocal]
      have hsome : (w.localtime last).isSome := by rw [hlocal]; rfl
      simp only [← hend] at h
      split at h
      · rename_i harch
        split at h
        · -- the select query failed
          rename_i hsel
          obtain ⟨rfl, rfl⟩ := Prod.mk.inj (Option.some.inj h)
          have hsel : w.select kind ≠ true := by simpa using hsel
          refine Or.inr ⟨fun hp => hsel (hp.2.2.2 harch).1, rfl, fun _ _ => rfl, ?_⟩
          refine ⟨fun h => (by cases h), fun hs => ?_⟩
          obtain hoff | ⟨-, -, hok, -⟩ := hs
          · exact absurd hoff hon
          · exact absurd hok hsel
        · rename_i hsel
          have hsel : w.select kind = true := by simpa using hsel
          split at h
          · -- nothing to archive, and nothing is deleted
            rename_i hnil
            obtain ⟨rfl, rfl⟩ := Prod.mk.inj (Option.some.inj h)
            refine Or.inr ⟨fun hp => (hp.2.2.2 harch).2.1 hnil, rfl, fun _ _ => rfl, ?_⟩
            exact ⟨fun _ => Or.inr ⟨hsome, harch, hsel, hnil⟩, fun _ => rfl⟩
          · rename_i hrows
            have hskip : ¬ Skips w cond last (s.tables kind) kind := by
              rintro (hoff | ⟨-, -, -, hnil⟩)
              · exact hon hoff
              · exact hrows hnil
            split at h
            · cases h
            · rename_i out hwrite
              split at h
              · -- the archive write failed
                rename_i hrc
                obtain ⟨rfl, rfl⟩ := Prod.mk.inj (Option.some.inj h)
                refine Or.inr ⟨fun hp => hrc ?_, rfl, fun _ _ => rfl, ?_⟩
                · exact (writeArchiveFile_rc_eq_zero_iff hwrite).mpr (hp.2.2.2 harch).2.2
                · exact ⟨fun h => (by cases h), fun hs => absurd hs hskip⟩
              · rename_i hrc
                have htrailer := (writeArchiveFile_rc_eq_zero_iff hwrite).mp (not_not.mp hrc)
                unfold purgeRows at h
                split at h
                · rename_i hdel
                  obtain ⟨rfl, rfl⟩ := Prod.mk.inj (Option.some.inj h)
                  refine Or.inl ⟨⟨hon, hsome, hdel, fun _ => ⟨hsel, hrows, htrailer⟩⟩, rfl, rfl, ?_⟩
                  simp only [takenRows, harch, if_true]
                · rename_i hdel
                  obtain ⟨rfl, rfl⟩ := Prod.mk.inj (Option.some.inj h)
                  refine Or.inr ⟨fun hp => hdel hp.2.2.1, rfl,
                    fun other hne => Function.update_of_ne hne .., ?_⟩
                  exact ⟨fun h => (by cases h), fun hs => absurd hs hskip⟩
      · rename_i harch
        have hskip : ¬ Skips w cond last (s.tables kind) kind := by
          rintro (hoff | ⟨-, hset, -⟩)
          · exact hon hoff
          · exact harch hset
        have hsame : Function.update s.archived kind
            (takenRows w cond last kind (s.tables kind)) = s.archived := by
          rw [takenRows, if_neg harch, ← hempty, Function.update_eq_self]
        unfold purgeRows at h
        split at h
        · rename_i hdel
          obtain ⟨rfl, rfl⟩ := Prod.mk.inj (Option.some.inj h)
          exact Or.inl ⟨⟨hon, hsome, hdel, fun hset => absurd hset harch⟩, rfl, rfl, hsame.symm⟩
        · rename_i hdel
          obtain ⟨rfl, rfl⟩ := Prod.mk.inj (Option.some.inj h)
          refine Or.inr ⟨fun hp => hdel hp.2.2.1, rfl, fun _ _ => rfl, ?_⟩
          exact ⟨fun h => (by cases h), fun hs => absurd hs hskip⟩

/-! ## All kinds -/

variable (w cond last) in
/-- The call gets to the kind and deletes its old rows. -/
def Carried (tables : Kind → List Row) : List Kind → Kind → Prop
  | [], _ => False
  | kind :: kinds, k =>
    kind = k ∧ Purges w cond last (tables k) k ∨
    kind ≠ k ∧ (Skips w cond last (tables kind) kind ∨ Purges w cond last (tables kind) kind) ∧
      Carried tables kinds k

theorem carried_congr {tables tables' : Kind → List Row} {kinds : List Kind} {k : Kind}
    (h : ∀ kind ∈ kinds, tables' kind = tables kind) :
    Carried w cond last tables' kinds k ↔ Carried w cond last tables kinds k := by
  induction kinds with
  | nil => rfl
  | cons kind kinds ih =>
    have hkind := h kind List.mem_cons_self
    rw [Carried, Carried, ih fun j hj => h j (List.mem_cons_of_mem _ hj), hkind]
    by_cases hk : kind = k
    · subst hk
      rw [hkind]
    · simp only [hk, false_and, false_or]

theorem not_carried_of_notMem {tables : Kind → List Row} {kinds : List Kind} {k : Kind}
    (h : k ∉ kinds) : ¬ Carried w cond last tables kinds k := by
  induction kinds with
  | nil => exact fun hc => hc
  | cons kind kinds ih =>
    rintro (⟨rfl, -⟩ | ⟨-, -, hc⟩)
    · exact h List.mem_cons_self
    · exact ih (fun hk => h (List.mem_cons_of_mem _ hk)) hc

/-- Over the call each kind either has its old rows deleted, with the rows its
archive write took on record, or keeps its table. -/
theorem archiveKinds_spec {dir : List Char} {kinds : List Kind} {s s' : Store} {rc : Int}
    (hnodup : kinds.Nodup) (hempty : ∀ kind ∈ kinds, s.archived kind = [])
    (h : archiveKinds w cond dir last kinds s = some (rc, s')) (k : Kind) :
    (Carried w cond last s.tables kinds k ∧
      s'.tables k = keptRows w cond last k (s.tables k) ∧
      s'.archived k = takenRows w cond last k (s.tables k)) ∨
    (¬ Carried w cond last s.tables kinds k ∧ s'.tables k = s.tables k ∧
      (k ∉ kinds → s'.archived k = s.archived k)) := by
  induction kinds generalizing s with
  | nil =>
    obtain ⟨-, rfl⟩ := Prod.mk.inj (Option.some.inj h)
    exact Or.inr ⟨fun h => h, rfl, fun _ => rfl⟩
  | cons kind kinds ih =>
    obtain ⟨hnotin, hnodup⟩ := List.nodup_cons.mp hnodup
    have hlater : ∀ j ∈ kinds, j ≠ kind := fun j hj hjk => hnotin (hjk ▸ hj)
    unfold archiveKinds at h
    split at h
    · cases h
    · -- the block returns, so its kind and the later ones keep their tables
      rename_i code s₁ hblock
      obtain ⟨-, rfl⟩ := Prod.mk.inj (Option.some.inj h)
      obtain ⟨-, hret, -⟩ | ⟨hno, htables, harchived, hret⟩ :=
        archiveKind_spec (hempty kind List.mem_cons_self) hblock
      · cases hret
      · have hskip : ¬ Skips w cond last (s.tables kind) kind := fun hs => by
          cases hret.mpr hs
        refine Or.inr ⟨?_, congrFun htables k, fun hk => harchived k ?_⟩
        · rintro (⟨rfl, hp⟩ | ⟨-, hs | hp, -⟩)
          · exact hno hp
          · exact hskip hs
          · exact hno hp
        · exact fun hkk => hk (hkk ▸ List.mem_cons_self)
    · -- the block goes on: the later kinds see the tables they had
      rename_i s₁ hblock
      have hspec := archiveKind_spec (hempty kind List.mem_cons_self) hblock
      have hpass : Skips w cond last (s.tables kind) kind ∨
          Purges w cond last (s.tables kind) kind := by
        obtain ⟨hp, -⟩ | ⟨-, -, -, hret⟩ := hspec
        · exact Or.inr hp
        · exact Or.inl (hret.mp rfl)
      have hother : ∀ j ≠ kind, s₁.tables j = s.tables j ∧ s₁.archived j = s.archived j := by
        intro j hj
        obtain ⟨-, -, htables, harchived⟩ | ⟨-, htables, harchived, -⟩ := hspec
        · rw [htables, harchived, Function.update_of_ne hj, Function.update_of_ne hj]
          exact ⟨rfl, rfl⟩
        · exact ⟨congrFun htables j, harchived j hj⟩
      have hcongr : Carried w cond last s₁.tables kinds k ↔
          Carried w cond last s.tables kinds k :=
        carried_congr fun j hj => (hother j (hlater j hj)).1
      have hrun := ih hnodup (fun j hj => by
        rw [(hother j (hlater j hj)).2]
        exact hempty j (List.mem_cons_of_mem _ hj)) h
      rw [hcongr] at hrun
      by_cases hk : kind = k
      · subst hk
        have hnot : ¬ Carried w cond last s.tables kinds kind := not_carried_of_notMem hnotin
        obtain ⟨hc, -⟩ | ⟨-, hkept, hlast⟩ := hrun
        · exact absurd hc hnot
        obtain ⟨hp, -, htables, harchived⟩ | ⟨hno, htables, -, -⟩ := hspec
        · refine Or.inl ⟨Or.inl ⟨rfl, hp⟩, ?_, ?_⟩
          · rw [hkept, htables, Function.update_self]
          · rw [hlast hnotin, harchived, Function.update_self]
        · refine Or.inr ⟨?_, hkept.trans (congrFun htables kind), ?_⟩
          · rintro (⟨-, hp⟩ | ⟨hne, -⟩)
            · exact hno hp
            · exact hne rfl
          · exact fun habs => absurd List.mem_cons_self habs
      · rw [(hother k (Ne.symm hk)).1, (hother k (Ne.symm hk)).2] at hrun
        obtain ⟨hc, hkept⟩ | ⟨hc, hkept, hlast⟩ := hrun
        · exact Or.inl ⟨Or.inr ⟨hk, hpass, hc⟩, hkept⟩
        · refine Or.inr ⟨?_, hkept, fun hmem => hlast fun h => hmem (List.mem_cons_of_mem _ h)⟩
          rintro (⟨hkk, -⟩ | ⟨-, -, hc'⟩)
          · exact hk hkk
          · exact hc hc'

/-! ## What the archive keeps -/

theorem mem_keptRows {kind : Kind} {rows : List Row} {row : Row} :
    row ∈ keptRows w cond last kind rows ↔
      row ∈ rows ∧ kind.deletes (int32 (endOf w cond last kind)) row = false := by
  simp [keptRows, List.mem_filter]

/-- A row deleted in the call was taken by the archive write, or was marked,
or is a job submitted at the end of the period. -/
theorem taken_of_not_kept {kind : Kind} {rows : List Row} {row : Row}
    (harch : cond.archive kind = true) (hrow : row ∈ rows)
    (hgone : row ∉ keptRows w cond last kind rows) :
    row ∈ takenRows w cond last kind rows ∨ kind.marked row = true ∨
      kind = .job ∧ (row.start : Int) = int32 (endOf w cond last kind) ∧ row.stop ≠ 0 ∧
        row.deleted = false := by
  have hdel : kind.deletes (int32 (endOf w cond last kind)) row = true := by
    by_contra hno
    exact hgone (mem_keptRows.mpr ⟨hrow, by simpa using hno⟩)
  obtain hsel | hrest := selects_or_marked_of_deletes hdel
  · left
    rw [takenRows, if_pos harch]
    exact mem_selected.mpr ⟨hrow, hsel⟩
  · exact Or.inr hrest

end Runs

/-- The call gets as far as deleting archived jobs. -/
def JobsPurged (w : World) (cond : ArchCond) (now : Int) (tables : Kind → List Row) : Prop :=
  cond.archiveScript = none ∧ cond.archiveDir.isSome ∧ cond.archive .job = true ∧
    ∃ tm, w.localtime now = some tm ∧
      Carried w cond (lastSubmit w tm) tables [.event, .suspend, .step, .job] .job

/-- No unmarked job that has ended was submitted at the end of the period. -/
def NoBoundaryJob (w : World) (cond : ArchCond) (now : Int) (tables : Kind → List Row) : Prop :=
  ∀ tm, w.localtime now = some tm → ∀ row ∈ tables .job,
    (row.start : Int) = int32 (endOf w cond (lastSubmit w tm) .job) → row.stop ≠ 0 →
      row.deleted = true

/-- Every row a call deletes from an archived table was taken by an archive
write of that call, or marked, exactly when the call does not purge archived
jobs or no job is due at the very end of the period. -/
theorem deleted_rows_archived_iff (w : World) (cond : ArchCond) (now : Int)
    (tables : Kind → List Row) (fs : FileSystem (List Char)) (rc : Int) (s' : Store)
    (h : mysqlJobacctProcessArchive w (some cond) now (.start tables fs) = some (rc, s')) :
    (∀ kind, cond.archive kind = true → ∀ row ∈ tables kind, row ∉ s'.tables kind →
      row ∈ s'.archived kind ∨ kind.marked row = true) ↔
      (JobsPurged w cond now tables → NoBoundaryJob w cond now tables) := by
  simp only [mysqlJobacctProcessArchive] at h
  split at h
  · -- no calendar: nothing is done
    rename_i hlocal
    obtain ⟨-, rfl⟩ := Prod.mk.inj (Option.some.inj h)
    refine iff_of_true (fun _ _ _ hrow hgone => absurd hrow hgone) fun hp => ?_
    obtain ⟨-, -, -, tm, htm, -⟩ := hp
    rw [hlocal] at htm
    cases htm
  · rename_i tm hlocal
    split at h
    · rename_i script hscript
      obtain ⟨-, rfl⟩ := Prod.mk.inj (Option.some.inj h)
      refine iff_of_true (fun _ _ _ hrow hgone => absurd hrow hgone) fun hp => ?_
      rw [hp.1] at hscript
      cases hscript
    · rename_i hscript
      split at h
      · rename_i hdir
        obtain ⟨-, rfl⟩ := Prod.mk.inj (Option.some.inj h)
        refine iff_of_true (fun _ _ _ hrow hgone => absurd hrow hgone) fun hp => ?_
        have := hp.2.1
        rw [hdir] at this
        cases this
      · rename_i dir hdir
        -- each kind is carried out as a whole or not at all
        have hspec := archiveKinds_spec (by decide) (fun _ _ => rfl) h
        constructor
        · -- a boundary job is deleted and was not selected
          intro hall hpurged tm' htm row hrow hstart hstop
          obtain ⟨-, -, harch, tm₂, htm₂, hcarried⟩ := hpurged
          obtain rfl : tm = tm' := Option.some.inj (hlocal.symm.trans htm)
          obtain rfl : tm = tm₂ := Option.some.inj (hlocal.symm.trans htm₂)
          obtain ⟨-, hkept, htaken⟩ | ⟨hno, -⟩ := hspec .job
          · obtain ⟨hdel, hsel⟩ := boundary_job hstart hstop
            have hgone : row ∉ s'.tables .job := by
              rw [hkept]
              intro hmem
              rw [(mem_keptRows.mp hmem).2] at hdel
              cases hdel
            obtain htook | hmark := hall .job harch row hrow hgone
            · rw [htaken, takenRows, if_pos harch] at htook
              rw [(mem_selected.mp htook).2] at hsel
              cases hsel
            · simpa [Kind.marked, Kind.withDeleted] using hmark
          · exact absurd hcarried hno
        · intro hwhen kind harch row hrow hgone
          obtain ⟨hcarried, hkept, htaken⟩ | ⟨-, hsame, -⟩ := hspec kind
          · rw [hkept] at hgone
            rw [htaken]
            obtain htook | hmark | ⟨rfl, hstart, hstop, hdel⟩ := taken_of_not_kept harch hrow hgone
            · exact Or.inl htook
            · exact Or.inr hmark
            · have hpurged : JobsPurged w cond now tables :=
                ⟨hscript, by rw [hdir]; rfl, harch, tm, hlocal, hcarried⟩
              have hmarked := hwhen hpurged tm hlocal row hrow hstart hstop
              rw [hdel] at hmarked
              cases hmarked
          · rw [hsame] at hgone
            exact absurd hrow hgone

/-! ## A calendar and two tables -/

/-- The second a time of 1970 stands for. -/
def mktime1970 (tm : Tm) : Int :=
  (([0, 31, 59, 90, 120, 151, 181, 212, 243, 273, 304, 334].getD tm.mon.toNat 0 : Nat) +
    tm.mday - 1) * 86400 + tm.hour * 3600 + tm.min * 60 + tm.sec

/-- The calendar in UTC around the end of May 1970, with all queries going
through. -/
def calendar (calls : Calls) : World where
  localtime t :=
    if t = 13824000 then some ⟨0, 0, 0, 10, 5, 70, 0⟩ else some ⟨59, 59, 23, 31, 4, 70, 0⟩
  stamp t := if t < 2678400 then ⟨0, 0, 0, 1, 0, 70, 0⟩ else ⟨59, 59, 23, 1, 3, 70, 0⟩
  mktime := mktime1970
  script _ _ := slurmError
  select _ := true
  delete _ := true
  calls _ := calls

/-- The directory `/tmp`. -/
def tmp : List Char := "/tmp".toList

/-- One kind is archived and purged after a month. -/
def monthly (kind : Kind) : ArchCond :=
  ⟨some tmp, none, fun k => k = kind, fun k => if k = kind then 1 else 0⟩

/-- Rows of one kind and no others. -/
def onlyIn (kind : Kind) (rows : List Row) : Kind → List Row := fun k =>
    if k = kind then rows else []

/-- A directory with nothing in it. -/
def noFiles : FileSystem (List Char) := ⟨fun _ => none, fun _ => [], 0, fun _ _ h => by cases h⟩

/-- The calls of an archive write without trouble. -/
def plainCalls (texts : List (List Char)) (trailer : List Char) : Calls :=
  ⟨fun _ => 3, 0, texts.map fun text => ⟨[.wrote text.length], fun _ => ' '⟩,
    ⟨[.wrote trailer.length], fun _ => ' '⟩, ⟨true, true, true, true, true⟩⟩

/-- An old job and one submitted at the end of the period. -/
def oldJob : Row := ⟨500, 600, false, [some "1".toList]⟩

/-- The job submitted at the end of the period. -/
def lastJob : Row := ⟨7862399, 7862500, false, [some "2".toList]⟩

/-- The calls that archive the old job. -/
def jobCalls : Calls :=
  let t := target (calendar (plainCalls [] [])) tmp .job 7862399
  plainCalls (t.texts oldJob []) t.trailer

/-- The job at the end of the period is deleted without having been archived. -/
theorem last_job_lost : ∃ s',
    mysqlJobacctProcessArchive (calendar jobCalls) (some (monthly .job)) 13824000
      (.start (onlyIn .job [oldJob, lastJob]) noFiles) = some (0, s') ∧
    lastJob ∉ s'.tables .job ∧
      ¬ (lastJob ∈ s'.archived .job ∨ Kind.marked .job lastJob = true) := by
  have hrun : (mysqlJobacctProcessArchive (calendar jobCalls) (some (monthly .job)) 13824000
      (.start (onlyIn .job [oldJob, lastJob]) noFiles)).any
      (fun r => r.1 = 0 ∧ lastJob ∉ r.2.tables .job ∧
        ¬ (lastJob ∈ r.2.archived .job ∨ Kind.marked .job lastJob = true)) = true := by
    decide +kernel
  obtain ⟨⟨rc, s'⟩, hs', hr⟩ := (Option.any_eq_true _ _).mp hrun
  obtain ⟨rfl, hlost⟩ := of_decide_eq_true hr
  exact ⟨s', hs', hlost⟩

/-- The old job alone is archived and deleted, and nothing is lost. -/
theorem old_job_archived : ∃ rc s',
    mysqlJobacctProcessArchive (calendar jobCalls) (some (monthly .job)) 13824000
      (.start (onlyIn .job [oldJob]) noFiles) = some (rc, s') ∧
    oldJob ∉ s'.tables .job ∧
    ∀ kind, (monthly .job).archive kind = true → ∀ row ∈ onlyIn .job [oldJob] kind,
      row ∉ s'.tables kind → row ∈ s'.archived kind ∨ kind.marked row = true := by
  have hrun : (mysqlJobacctProcessArchive (calendar jobCalls) (some (monthly .job)) 13824000
      (.start (onlyIn .job [oldJob]) noFiles)).any (fun r => oldJob ∉ r.2.tables .job) = true := by
    decide +kernel
  obtain ⟨⟨rc, s'⟩, hs', hr⟩ := (Option.any_eq_true _ _).mp hrun
  refine ⟨rc, s', hs', of_decide_eq_true hr,
    (deleted_rows_archived_iff _ _ _ _ _ _ _ hs').mpr fun _ => ?_⟩
  intro tm htm row hrow hstart
  obtain rfl : (⟨0, 0, 0, 10, 5, 70, 0⟩ : Tm) = tm := Option.some.inj htm
  obtain rfl : row = oldJob := List.mem_singleton.mp hrow
  exact absurd hstart (by decide +kernel)

/-! ## What a failed write does -/

section Failed

variable {w : World} {cond : ArchCond} {dir : List Char} {last : Int} {tm : Tm} {kind : Kind}
  {kinds : List Kind} {s s' : Store} {rc : Int} {first : Row} {rest : List Row}

/-- A call that returns has an outcome of its first archive write. -/
theorem writes_of_archiveKinds (hpurge : cond.purge kind ≠ 0) (hlocal : w.localtime last = some tm)
    (harch : cond.archive kind = true) (hselect : w.select kind = true)
    (hrows : selected kind (currEnd w cond kind tm) (s.tables kind) = first :: rest)
    (h : archiveKinds w cond dir last (kind :: kinds) s = some (rc, s')) :
    ∃ out, (target w dir kind (currEnd w cond kind tm)).writeArchiveFile (w.calls kind)
      (first :: rest) s.fs = some out := by
  cases hout : (target w dir kind (currEnd w cond kind tm)).writeArchiveFile (w.calls kind)
      (first :: rest) s.fs with
  | some out => exact ⟨out, rfl⟩
  | none =>
    have hblock : archiveKind w cond dir last kind s = none := by
      simp [archiveKind, hpurge, hlocal, harch, hselect, hrows, hout]
    rw [archiveKinds, hblock] at h
    cases h

/-- Where the closing clause is not written, every table stays as it is. -/
theorem tables_of_trailer_fails (honce : (kind :: kinds).Nodup)
    (hempty : ∀ k ∈ kind :: kinds, s.archived k = []) (hpurge : cond.purge kind ≠ 0)
    (hlocal : w.localtime last = some tm) (harch : cond.archive kind = true)
    (hrows : selected kind (currEnd w cond kind tm) (s.tables kind) = first :: rest)
    (hfails : (w.calls kind).trailer.fails = true)
    (h : archiveKinds w cond dir last (kind :: kinds) s = some (rc, s')) :
    s'.tables = s.tables := by
  funext k
  obtain ⟨hcarried, -⟩ | ⟨-, hsame, -⟩ := archiveKinds_spec honce hempty h k
  · have hpurges : ¬ Purges w cond last (s.tables kind) kind := fun hp => by
      rw [(hp.2.2.2 harch).2.2] at hfails
      cases hfails
    have hskips : ¬ Skips w cond last (s.tables kind) kind := by
      rintro (hoff | ⟨-, -, -, hnil⟩)
      · exact hpurge hoff
      · rw [endOf, hlocal, hrows] at hnil
        cases hnil
    obtain ⟨rfl, hp⟩ | ⟨-, hs | hp, -⟩ := hcarried
    · exact absurd hp hpurges
    · exact absurd hs hskips
    · exact absurd hp hpurges
  · exact hsame

end Failed

/-- What a caller may want of an archive write of `rows`: success means that
the whole archive is published, and a failed `write` is reported and keeps
every row. -/
structure Honest (t : Target) (calls : Calls) (first : Row) (rest : List Row) (out : Outcome)
    (before after : Kind → List Row) : Prop where
  /-- Success means that the whole archive is published. -/
  whole : out.rc = slurmSuccess → out.Published (t.text first rest)
  /-- A failed `write` is an error, and no row is deleted. -/
  reported : (∃ writes ∈ calls.trailer :: calls.rows, writes.fails = true) →
    out.rc ≠ slurmSuccess ∧ after = before

/-- The block of an archived kind with rows to archive, as the caller runs it
with any kinds after it. The archive write is honest when a `write` of the
closing clause fails, and when no `write` of the rows does and the file is
`Intact`. These are the only cases where no file held the archive before, for
calls that are not interrupted, and for interrupted calls that write short
texts to one open file. -/
theorem archive_write_honest (w : World) (cond : ArchCond) (dir : List Char) (last : Int) (tm : Tm)
    (kind : Kind) (kinds : List Kind) (s s' : Store) (rc : Int) (first : Row) (rest : List Row)
    (honce : (kind :: kinds).Nodup) (hempty : ∀ k ∈ kind :: kinds, s.archived k = [])
    (hpurge : cond.purge kind ≠ 0) (hlocal : w.localtime last = some tm)
    (harch : cond.archive kind = true) (hselect : w.select kind = true)
    (hrows : selected kind (currEnd w cond kind tm) (s.tables kind) = first :: rest)
    (h : archiveKinds w cond dir last (kind :: kinds) s = some (rc, s')) :
    ∃ out, (target w dir kind (currEnd w cond kind tm)).writeArchiveFile (w.calls kind)
        (first :: rest) s.fs = some out ∧
      ((w.calls kind).trailer.fails = true ∨ RowsWritten (w.calls kind).rows ∧
          Intact (target w dir kind (currEnd w cond kind tm)) (w.calls kind) s.fs first rest →
        Honest (target w dir kind (currEnd w cond kind tm)) (w.calls kind) first rest out s.tables
          s'.tables) ∧
      ((∀ file, s.fs.bytes file ≠
          (target w dir kind (currEnd w cond kind tm)).text first rest) →
        ((interrupts (w.calls kind).rows = 0 ∧ (w.calls kind).trailer.interrupts = 0) ∨
          ((w.calls kind).creat 0 ≠ 0 ∧ (first.start ≠ 0 ∨ rest = []) ∧
            ∀ text ∈ (target w dir kind (currEnd w cond kind tm)).texts first rest,
              text.length < 2147483648)) →
        Honest (target w dir kind (currEnd w cond kind tm)) (w.calls kind) first rest out s.tables
          s'.tables →
        (w.calls kind).trailer.fails = true ∨ RowsWritten (w.calls kind).rows ∧
          Intact (target w dir kind (currEnd w cond kind tm)) (w.calls kind) s.fs first rest) := by
  obtain ⟨out, hwrite⟩ := writes_of_archiveKinds hpurge hlocal harch hselect hrows h
  have hrc := writeArchiveFile_rc_eq_zero_iff hwrite
  refine ⟨out, hwrite, ?_, ?_⟩
  · rintro (hfails | ⟨hok, hint⟩)
    · -- the call returns an error, so no kind is purged any more
      have hne : out.rc ≠ slurmSuccess := fun hzero => by
        rw [hrc.mp hzero] at hfails
        cases hfails
      exact ⟨fun hzero => absurd hzero hne, fun _ =>
        ⟨hne, tables_of_trailer_fails honce hempty hpurge hlocal harch hrows hfails h⟩⟩
    · refine ⟨fun hzero => published_of_intact hok hzero hint hwrite, ?_⟩
      rintro ⟨writes, hmem, hfails⟩
      obtain rfl | hmem := List.mem_cons.mp hmem
      · have hne : out.rc ≠ slurmSuccess := fun hzero => by
          rw [hrc.mp hzero] at hfails
          cases hfails
        exact ⟨hne, tables_of_trailer_fails honce hempty hpurge hlocal harch hrows hfails h⟩
      · rw [hok writes hmem] at hfails
        cases hfails
  · intro hnew hcase hhonest
    cases htrailer : (w.calls kind).trailer.fails with
    | true => exact Or.inl rfl
    | false =>
      have hzero : out.rc = slurmSuccess := hrc.mpr htrailer
      have hok : RowsWritten (w.calls kind).rows := by
        intro writes hmem
        by_contra hfails
        have hfails : writes.fails = true := by simpa using hfails
        exact (hhonest.reported ⟨writes, List.mem_cons_of_mem _ hmem, hfails⟩).1 hzero
      exact Or.inr ⟨hok,
        intact_of_published hok hzero hnew hcase hwrite (hhonest.whole hzero)⟩

/-- An event and the calls of an archive write on a disk that is full. -/
def eventRow : Row := ⟨500, 600, false, [some "node".toList]⟩

/-- The row's text is refused with `ENOSPC`, the closing clause is taken. -/
def fullDisk : Calls :=
  { plainCalls [] (target (calendar (plainCalls [] [])) tmp .event 7862399).trailer with
    rows := [⟨[.error 28], fun _ => ' '⟩] }

/-- With the disk full the row's text is refused, the closing clause still
fits, success is reported, and the row is gone from the table. -/
theorem archive_write_dishonest : ∃ out s',
    (target (calendar fullDisk) tmp .event 7862399).writeArchiveFile fullDisk [eventRow] noFiles =
      some out ∧
    archiveKinds (calendar fullDisk) (monthly .event) tmp 13046399 [.event]
      (.start (onlyIn .event [eventRow]) noFiles) = some (0, s') ∧
    eventRow ∉ s'.tables .event ∧
    ¬ Honest (target (calendar fullDisk) tmp .event 7862399) fullDisk eventRow [] out
      (onlyIn .event [eventRow]) s'.tables := by
  have hout : ((target (calendar fullDisk) tmp .event 7862399).writeArchiveFile fullDisk [eventRow]
      noFiles).any (fun out => out.rc = 0) = true := by decide +kernel
  have hrun : (archiveKinds (calendar fullDisk) (monthly .event) tmp 13046399 [.event]
      (.start (onlyIn .event [eventRow]) noFiles)).any
      (fun r => r.1 = 0 ∧ eventRow ∉ r.2.tables .event) = true := by decide +kernel
  obtain ⟨out, hsome, hrc⟩ := (Option.any_eq_true _ _).mp hout
  obtain ⟨⟨rc, s'⟩, hs', hr⟩ := (Option.any_eq_true _ _).mp hrun
  obtain ⟨rfl, hgone⟩ := of_decide_eq_true hr
  refine ⟨out, s', hsome, hs', hgone, fun hhonest => ?_⟩
  have hfails : (⟨[.error 28], fun _ => ' '⟩ : Writes).fails = true := by decide
  exact (hhonest.reported ⟨_, List.mem_cons_of_mem _ List.mem_cons_self, hfails⟩).1
    (of_decide_eq_true hrc)

/-- The calls that archive the event. -/
def eventCalls : Calls :=
  let t := target (calendar (plainCalls [] [])) tmp .event 7862399
  plainCalls (t.texts eventRow []) t.trailer

/-- Without trouble the archive write is honest. -/
theorem event_archived : ∃ out s',
    archiveKinds (calendar eventCalls) (monthly .event) tmp 13046399 [.event]
      (.start (onlyIn .event [eventRow]) noFiles) = some (0, s') ∧
    Honest (target (calendar eventCalls) tmp .event 7862399) eventCalls eventRow [] out
      (onlyIn .event [eventRow]) s'.tables := by
  have hrun : (archiveKinds (calendar eventCalls) (monthly .event) tmp 13046399 [.event]
      (.start (onlyIn .event [eventRow]) noFiles)).any (fun r => r.1 = 0) = true := by
    decide +kernel
  obtain ⟨⟨rc, s'⟩, hs', hr⟩ := (Option.any_eq_true _ _).mp hrun
  obtain rfl := of_decide_eq_true hr
  obtain ⟨out, -, hhonest, -⟩ := archive_write_honest (calendar eventCalls) (monthly .event) tmp
    13046399 ⟨59, 59, 23, 31, 4, 70, 0⟩ .event [] (.start (onlyIn .event [eventRow]) noFiles) s' 0
    eventRow [] (by decide) (fun _ _ => rfl) (by decide) (by decide) (by decide) rfl
    (by decide +kernel) hs'
  refine ⟨out, s', hs', hhonest (Or.inr ⟨?_, ?_⟩)⟩
  · exact List.forall_mem_singleton.mpr (by decide +kernel)
  · exact ⟨by decide, Or.inr rfl, List.forall_mem_singleton.mpr (by decide +kernel),
      ⟨by decide +kernel, by decide +kernel⟩, rfl⟩

end Slurm.Archive
