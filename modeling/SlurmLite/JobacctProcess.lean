import Mathlib

/-!
# The job list of a query

The loop of `mysql_jobacct_process_get_jobs` that turns result rows into the
job list, as built with `NEWQUERY`: rows come ordered by job id and, within a
job, by submit time from the last to the first.

* **The run** (`getJobs_eq`): what is prepended stands in reverse before what is
  appended.
* **Order** (`jobsInOrder_iff`): when the records of each job end up together
  and in the order of submission.
-/

namespace Slurm.JobProcess

/-- `local_cluster_t`: the interval a set of nodes is valid for, and whether a
node index text names one of the nodes asked for. -/
structure LocalCluster where
  start : Int
  end_ : Int
  overlap : List Char → Bool

/-- The columns of a result row that place its record. -/
structure Row where
  jobid : Nat
  submit : Int
  start : Int
  nodeInx : Option (List Char)
deriving DecidableEq

/-- `good_nodes_from_inx`: the answer, and the cluster looked at from now on. -/
def goodNodesFromInx (clusters : List LocalCluster) (curr : Option LocalCluster)
    (nodeInx : Option (List Char)) (submit : Int) : Bool × Option LocalCluster :=
  match curr, nodeInx with
  | none, _ => (true, none)
  | some c, none => (false, some c)
  | some c, some [] => (false, some c)
  | some c, some (t :: ts) =>
    if submit < c.start ∨ submit > c.end_ then
      match clusters.find? (fun l => submit ≥ l.start ∧ submit ≤ l.end_) with
      | none => (false, some c)
      | some l => (l.overlap (t :: ts), some l)
    else (c.overlap (t :: ts), some c)

/-- The variables of the loop: `last_id`, `curr_cluster` and `job_list`. -/
structure Loop where
  lastId : Int
  curr : Option LocalCluster
  jobList : List Row

/-- One turn of the loop. `duplicates` is whether every record of a job is
asked for. -/
def getJobsRow (duplicates : Bool) (clusters : List LocalCluster) (s : Loop) (row : Row) : Loop :=
  if ¬duplicates ∧ (row.jobid : Int) = s.lastId then s
  else
    match goodNodesFromInx clusters s.curr row.nodeInx row.start with
    | (false, curr) => { s with lastId := row.jobid, curr := curr }
    | (true, curr) =>
      { lastId := row.jobid, curr := curr
        jobList := if (row.jobid : Int) = s.lastId then row :: s.jobList else s.jobList ++ [row] }

/-- The loop of `mysql_jobacct_process_get_jobs`: the job list of the rows. -/
def getJobs (duplicates : Bool) (clusters : List LocalCluster) (curr : Option LocalCluster)
    (rows : List Row) : List Row :=
  (rows.foldl (getJobsRow duplicates clusters) ⟨-1, curr, []⟩).jobList

/-- The order of the result rows. -/
def Ordered (rows : List Row) : Prop :=
  rows.Pairwise fun a b => a.jobid < b.jobid ∨ a.jobid = b.jobid ∧ b.submit ≤ a.submit

instance (rows : List Row) : Decidable (Ordered rows) :=
  inferInstanceAs (Decidable (rows.Pairwise _))

/-- The records of a job stand together: what stands between two of them is
one of them. -/
def Contiguous (jobs : List Row) : Prop :=
  ∀ a b c, [a, b, c].Sublist jobs → a.jobid = c.jobid → b.jobid = a.jobid

/-- The records of a job stand in the order of submission. -/
def Ascending (jobs : List Row) : Prop :=
  jobs.Pairwise fun a b => a.jobid = b.jobid → a.submit ≤ b.submit

/-! ## The rows that are kept -/

/-- The rows that pass, each with whether it is the first of its job. -/
def kept (duplicates : Bool) (clusters : List LocalCluster) :
    Int → Option LocalCluster → List Row → List (Bool × Row)
  | _, _, [] => []
  | lastId, curr, row :: rows =>
    if ¬duplicates ∧ (row.jobid : Int) = lastId then kept duplicates clusters lastId curr rows
    else
      match goodNodesFromInx clusters curr row.nodeInx row.start with
      | (false, curr) => kept duplicates clusters row.jobid curr rows
      | (true, curr) =>
        (decide ((row.jobid : Int) ≠ lastId), row) ::
          kept duplicates clusters row.jobid curr rows

variable {duplicates : Bool} {clusters : List LocalCluster}

/-- The kept rows that come first of their job, and the others. -/
def firsts (ks : List (Bool × Row)) : List Row := (ks.filter (·.1)).map (·.2)
def others (ks : List (Bool × Row)) : List Row := (ks.filter (!·.1)).map (·.2)

theorem firsts_cons (first : Bool) (row : Row) (ks : List (Bool × Row)) :
    firsts ((first, row) :: ks) = if first then row :: firsts ks else firsts ks := by
  cases first <;> rfl

theorem others_cons (first : Bool) (row : Row) (ks : List (Bool × Row)) :
    others ((first, row) :: ks) = if first then others ks else row :: others ks := by
  cases first <;> rfl

theorem foldl_getJobsRow (rows : List Row) (s : Loop) :
    (rows.foldl (getJobsRow duplicates clusters) s).jobList =
      (others (kept duplicates clusters s.lastId s.curr rows)).reverse ++ s.jobList ++
        firsts (kept duplicates clusters s.lastId s.curr rows) := by
  induction rows generalizing s with
  | nil => simp [kept, firsts, others]
  | cons row rows ih =>
    rw [List.foldl_cons, ih, getJobsRow, kept]
    by_cases hskip : ¬duplicates ∧ (row.jobid : Int) = s.lastId
    · rw [if_pos hskip, if_pos hskip]
    · rw [if_neg hskip, if_neg hskip]
      match hgood : goodNodesFromInx clusters s.curr row.nodeInx row.start with
      | (false, curr) => rfl
      | (true, curr) =>
        by_cases hid : (row.jobid : Int) = s.lastId
        · simp only [hid, if_true, ne_eq, not_true_eq_false, decide_false, firsts_cons,
            others_cons, Bool.false_eq_true, if_false, List.reverse_cons, List.append_assoc,
            List.cons_append, List.nil_append]
        · simp only [hid, if_false, ne_eq, not_false_eq_true, decide_true, firsts_cons,
            others_cons, if_true, List.append_assoc, List.singleton_append]

/-- The other records in reverse, then the first ones. -/
theorem getJobs_eq (curr : Option LocalCluster) (rows : List Row) :
    getJobs duplicates clusters curr rows =
      (others (kept duplicates clusters (-1) curr rows)).reverse ++
        firsts (kept duplicates clusters (-1) curr rows) := by
  rw [getJobs, foldl_getJobsRow, List.append_nil]

theorem mem_of_mem_kept {rows : List Row} {lastId : Int} {curr : Option LocalCluster}
    {k : Bool × Row} (h : k ∈ kept duplicates clusters lastId curr rows) : k.2 ∈ rows := by
  induction rows generalizing lastId curr with
  | nil => cases h
  | cons row rows ih =>
    rw [kept] at h
    split at h
    · exact List.mem_cons_of_mem _ (ih h)
    · split at h
      · exact List.mem_cons_of_mem _ (ih h)
      · obtain rfl | h := List.mem_cons.mp h
        · exact List.mem_cons_self
        · exact List.mem_cons_of_mem _ (ih h)

/-- A row of the job looked at last is not the first of its job. -/
theorem not_first_of_eq_last {rows : List Row} {lastId : Int} {curr : Option LocalCluster}
    (ho : Ordered rows) (hlast : ∀ r ∈ rows, lastId ≤ r.jobid) {k : Bool × Row}
    (hk : k ∈ kept duplicates clusters lastId curr rows) (hid : (k.2.jobid : Int) = lastId) :
    k.1 = false := by
  induction rows generalizing lastId curr with
  | nil => cases hk
  | cons row rows ih =>
    obtain ⟨hrow, hrows⟩ := List.pairwise_cons.mp ho
    have hle := hlast row List.mem_cons_self
    have hnext : ∀ r ∈ rows, (row.jobid : Int) ≤ r.jobid := by
      intro r hr
      have := hrow r hr
      omega
    have htail : ∀ curr, k ∈ kept duplicates clusters row.jobid curr rows → k.1 = false := by
      intro curr h
      refine ih hrows hnext h ?_
      have := hnext k.2 (mem_of_mem_kept h)
      omega
    rw [kept] at hk
    split at hk
    · exact ih hrows (fun r hr => hlast r (List.mem_cons_of_mem _ hr)) hk hid
    · split at hk
      · exact htail _ hk
      · obtain rfl | hk := List.mem_cons.mp hk
        · rw [decide_eq_false_iff_not, not_not]
          exact hid
        · exact htail _ hk

/-- The kept rows are in the order of the rows, and after a row of a job none
is the first of that job. -/
theorem pairwise_kept {rows : List Row} {lastId : Int} {curr : Option LocalCluster}
    (ho : Ordered rows) :
    (kept duplicates clusters lastId curr rows).Pairwise fun a b =>
      a.2.jobid < b.2.jobid ∨ a.2.jobid = b.2.jobid ∧ b.2.submit ≤ a.2.submit ∧ b.1 = false := by
  induction rows generalizing lastId curr with
  | nil => exact List.Pairwise.nil
  | cons row rows ih =>
    obtain ⟨hrow, hrows⟩ := List.pairwise_cons.mp ho
    rw [kept]
    split
    · exact ih hrows
    · split
      · exact ih hrows
      · refine List.pairwise_cons.mpr ⟨?_, ih hrows⟩
        intro k hk
        have hnext : ∀ r ∈ rows, (row.jobid : Int) ≤ r.jobid := by
          intro r hr
          have := hrow r hr
          omega
        obtain hlt | ⟨heq, hle⟩ := hrow k.2 (mem_of_mem_kept hk)
        · exact Or.inl hlt
        · exact Or.inr ⟨heq, hle, not_first_of_eq_last hrows hnext hk (by omega)⟩

/-! ## The order of the list -/

/-- Two members stand in the order their relation does not forbid. -/
theorem pair_sublist {α : Type} {r : α → α → Prop} {l : List α} {a b : α} (h : l.Pairwise r)
    (ha : a ∈ l) (hb : b ∈ l) (hne : a ≠ b) (hr : ¬r b a) : [a, b].Sublist l := by
  obtain ⟨before, after, rfl⟩ := List.append_of_mem ha
  obtain hmem | hmem := List.mem_append.mp hb
  · exact absurd ((List.pairwise_append.mp h).2.2 b hmem a List.mem_cons_self) hr
  · obtain rfl | hmem := List.mem_cons.mp hmem
    · exact absurd rfl hne
    · exact ((List.singleton_sublist.mpr hmem).cons_cons a).trans (List.sublist_append_right _ _)

theorem mem_firsts {ks : List (Bool × Row)} {r : Row} : r ∈ firsts ks ↔ (true, r) ∈ ks := by
  simp [firsts]

theorem mem_others {ks : List (Bool × Row)} {r : Row} : r ∈ others ks ↔ (false, r) ∈ ks := by
  simp [others]

/-- The order of the kept rows. -/
def InOrder (ks : List (Bool × Row)) : Prop :=
  ks.Pairwise fun a b =>
    a.2.jobid < b.2.jobid ∨ a.2.jobid = b.2.jobid ∧ b.2.submit ≤ a.2.submit ∧ b.1 = false

theorem InOrder.firsts_lt {ks : List (Bool × Row)} (h : InOrder ks) :
    (firsts ks).Pairwise fun a b => a.jobid < b.jobid := by
  refine List.pairwise_map.mpr (List.pairwise_filter.mpr ?_)
  refine h.imp ?_
  rintro a b hab - hb
  obtain hlt | ⟨-, -, hfalse⟩ := hab
  · exact hlt
  · rw [hfalse] at hb
    cases hb

theorem InOrder.others_reverse {ks : List (Bool × Row)} (h : InOrder ks) :
    (others ks).reverse.Pairwise fun a b =>
      b.jobid < a.jobid ∨ a.jobid = b.jobid ∧ a.submit ≤ b.submit := by
  refine List.pairwise_reverse.mpr (List.pairwise_map.mpr (List.pairwise_filter.mpr ?_))
  refine h.imp ?_
  rintro a b hab - -
  obtain hlt | ⟨heq, hle, -⟩ := hab
  · exact Or.inl hlt
  · exact Or.inr ⟨heq.symm, hle⟩

/-- The first record of a job was submitted last. -/
theorem InOrder.submit_le {ks : List (Bool × Row)} (h : InOrder ks) {a b : Row}
    (ha : a ∈ others ks) (hb : b ∈ firsts ks) (hid : a.jobid = b.jobid) :
    a.submit ≤ b.submit := by
  have hne : ((true, b) : Bool × Row) ≠ (false, a) := by
    intro heq
    cases congrArg Prod.fst heq
  have hsub := pair_sublist h (mem_firsts.mp hb) (mem_others.mp ha) hne (by
    rintro (hlt | ⟨-, -, hfalse⟩)
    · exact absurd hid (ne_of_lt hlt)
    · cases hfalse)
  obtain hlt | ⟨-, hle, -⟩ := List.pairwise_iff_forall_sublist.mp h hsub
  · exact absurd hid (ne_of_gt hlt)
  · exact hle

/-- Every job whose first row is kept beside another one is the first job with
a kept row. -/
def OnlyFirstRepeats (ks : List (Bool × Row)) : Prop :=
  ∀ a b k, (true, a) ∈ ks → (false, b) ∈ ks → a.jobid = b.jobid → k ∈ ks → a.jobid ≤ k.2.jobid

theorem InOrder.ascending {ks : List (Bool × Row)} (h : InOrder ks) :
    Ascending ((others ks).reverse ++ firsts ks) := by
  refine List.pairwise_append.mpr ⟨h.others_reverse.imp ?_, h.firsts_lt.imp ?_, ?_⟩
  · rintro a b (hlt | ⟨-, hle⟩) hid
    · exact absurd hid (ne_of_gt hlt)
    · exact hle
  · intro a b hlt hid
    exact absurd hid (ne_of_lt hlt)
  · intro a ha b hb hid
    exact h.submit_le (List.mem_reverse.mp ha) hb hid

/-- The records of each job stand together exactly when none but the first job
repeats. -/
theorem InOrder.contiguous_iff {ks : List (Bool × Row)} (h : InOrder ks) :
    Contiguous ((others ks).reverse ++ firsts ks) ↔ OnlyFirstRepeats ks := by
  have hfirsts := h.firsts_lt
  have hothers := h.others_reverse
  constructor
  · intro hc a b k ha hb hid hk
    by_contra hlt
    have hfirst := mem_firsts.mpr ha
    have hother := List.mem_reverse.mpr (mem_others.mpr hb)
    obtain ⟨first, c⟩ := k
    replace hlt : c.jobid < a.jobid := Nat.not_le.mp hlt
    have hbetween : [b, c, a].Sublist ((others ks).reverse ++ firsts ks) := by
      cases first with
      | true =>
        -- the record of the earlier job was appended before
        have hpair : [c, a].Sublist (firsts ks) :=
          pair_sublist hfirsts (mem_firsts.mpr hk) hfirst (fun heq => by subst heq; omega)
            (by omega)
        exact (List.singleton_sublist.mpr hother).append hpair
      | false =>
        -- it was prepended before, and so stands behind
        have hpair : [b, c].Sublist (others ks).reverse :=
          pair_sublist hothers hother (List.mem_reverse.mpr (mem_others.mpr hk))
            (fun heq => by subst heq; omega) (by omega)
        exact hpair.append (List.singleton_sublist.mpr hfirst)
    have := hc b c a hbetween hid.symm
    omega
  · intro honly a b c hsub hid
    have honly' : ∀ x ∈ (others ks).reverse, c ∈ firsts ks → x.jobid = c.jobid →
        ∀ k ∈ ks, c.jobid ≤ k.2.jobid := fun x hx hc hxc k hk =>
      honly c x k (mem_firsts.mp hc) (mem_others.mp (List.mem_reverse.mp hx)) hxc.symm hk
    obtain ⟨l₁, l₂, heq, h₁, h₂⟩ := List.sublist_append_iff.mp hsub
    have hp₁ := hothers.sublist h₁
    have hp₂ := hfirsts.sublist h₂
    match l₁, heq with
    | [], heq =>
      subst heq
      simp only [List.pairwise_cons, List.mem_cons, forall_eq_or_imp] at hp₂
      omega
    | [x], heq =>
      obtain ⟨rfl, rfl⟩ := List.cons.inj heq
      have hb : c.jobid ≤ b.jobid := honly' _ (h₁.subset List.mem_cons_self)
        (h₂.subset (List.mem_cons_of_mem _ List.mem_cons_self)) hid _
          (mem_firsts.mp (h₂.subset List.mem_cons_self))
      simp only [List.pairwise_cons, List.mem_cons, forall_eq_or_imp] at hp₂
      omega
    | [x, y], heq =>
      simp only [List.cons_append, List.nil_append, List.cons.injEq] at heq
      obtain ⟨rfl, rfl, rfl⟩ := heq
      have hmem := List.mem_reverse.mp (h₁.subset (List.mem_cons_of_mem _ List.mem_cons_self))
      have hb : c.jobid ≤ b.jobid := honly' _ (h₁.subset List.mem_cons_self)
        (h₂.subset List.mem_cons_self) hid _ (mem_others.mp hmem)
      simp only [List.pairwise_cons, List.mem_cons, forall_eq_or_imp] at hp₁
      omega
    | x :: y :: z :: rest, heq =>
      simp only [List.cons_append, List.cons.injEq] at heq
      obtain ⟨rfl, rfl, rfl, -⟩ := heq
      simp only [List.pairwise_cons, List.mem_cons, forall_eq_or_imp] at hp₁
      omega

/-- When the job list keeps the records of each job together and in the order
of submission. -/
theorem jobsInOrder_iff {duplicates : Bool} {clusters : List LocalCluster}
    {curr : Option LocalCluster} {rows : List Row} (ho : Ordered rows) :
    Contiguous (getJobs duplicates clusters curr rows) ∧
        Ascending (getJobs duplicates clusters curr rows) ↔
      OnlyFirstRepeats (kept duplicates clusters (-1) curr rows) := by
  have hks : InOrder (kept duplicates clusters (-1) curr rows) := pairwise_kept ho
  rw [getJobs_eq, hks.contiguous_iff]
  exact and_iff_left hks.ascending

/-- Two jobs of two records each. -/
def twoJobs : List Row :=
    [⟨1, 20, 20, none⟩, ⟨1, 10, 10, none⟩, ⟨2, 40, 40, none⟩, ⟨2, 30, 30, none⟩]

theorem not_jobsInOrder_twoJobs : Ordered twoJobs ∧ ¬Contiguous (getJobs true [] none twoJobs) := by
  refine ⟨by decide, fun h => ?_⟩
  have hlist : getJobs true [] none twoJobs =
      [⟨2, 30, 30, none⟩, ⟨1, 10, 10, none⟩, ⟨1, 20, 20, none⟩, ⟨2, 40, 40, none⟩] := by decide
  have hsub : [(⟨2, 30, 30, none⟩ : Row), ⟨1, 10, 10, none⟩, ⟨2, 40, 40, none⟩].Sublist
      (getJobs true [] none twoJobs) := by
    rw [hlist]
    decide
  exact absurd (h _ _ _ hsub rfl) (by decide)

/-- One job of two records before another. -/
theorem jobsInOrder_one :
    Ordered [⟨1, 20, 20, none⟩, ⟨1, 10, 10, none⟩, ⟨2, 40, 40, none⟩] ∧
      Contiguous (getJobs true [] none [⟨1, 20, 20, none⟩, ⟨1, 10, 10, none⟩, ⟨2, 40, 40, none⟩]) ∧
      Ascending (getJobs true [] none [⟨1, 20, 20, none⟩, ⟨1, 10, 10, none⟩,
        ⟨2, 40, 40, none⟩]) := by
  have ho : Ordered [⟨1, 20, 20, none⟩, ⟨1, 10, 10, none⟩, ⟨2, 40, 40, none⟩] := by decide
  have hkept : kept true [] (-1) none [⟨1, 20, 20, none⟩, ⟨1, 10, 10, none⟩, ⟨2, 40, 40, none⟩] =
      [(true, ⟨1, 20, 20, none⟩), (false, ⟨1, 10, 10, none⟩), (true, ⟨2, 40, 40, none⟩)] :=
        by decide
  refine ⟨ho, (jobsInOrder_iff ho).mpr ?_⟩
  rw [hkept]
  intro a b k ha hb hid hk
  simp only [List.mem_cons, Prod.mk.injEq, List.not_mem_nil, or_false, Bool.false_eq_true,
    Bool.true_eq_false, false_and, true_and, false_or, or_false] at ha hb
  subst hb
  rw [hid]
  simp only [List.mem_cons, List.not_mem_nil, or_false] at hk
  obtain rfl | rfl | rfl := hk <;> decide

end Slurm.JobProcess
