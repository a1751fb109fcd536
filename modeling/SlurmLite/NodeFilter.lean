import SlurmLite.JobacctProcess
import SlurmLite.Bitstring.Format
import SlurmLite.Hostlist.Find

/-!
# The node filter of a query

A query for nodes reads the registrations of a cluster
(`setup_cluster_list_with_inx`) and looks each job up in the one of its time
(`good_nodes_from_inx`). The registration used last is kept from row to row.

* **What is loaded** (`setup_eq`): the registrations within the window that have a
  node asked for; the filter starts with the last open one.
* **One row** (`goodNodesFromInx_spec`): where the registration of its time is the
  only one that could be meant, the answer is that of this registration.
* **All rows** (`rightDecisions`): no answer depends on the rows before.
-/

namespace Slurm.JobProcess

open Bitstring Hosts

/-- A row of the event table under the empty node name, with its node list read. -/
structure Registration where
  cluster : String
  start : Nat
  end_ : Nat
  hl : Hostlist
deriving DecidableEq

/-- What the filter reads of `acct_job_cond_t`: `hosts` are those of `used_nodes`. -/
structure NodeCond where
  clusterList : List String
  usageStart : Nat
  usageEnd : Nat
  hosts : List (List Char)

/-- `bit_ffs`. -/
def bitFfs (b : Bitstr) : Int :=
  match (List.range b.nbits).find? (bitTest b) with
  | some i => i
  | none => -1

/-- `bit_overlap`. -/
def bitOverlap (b1 b2 : Bitstr) : Nat :=
  ((List.range b1.nbits).filter fun i => bitTest b1 i && bitTest b2 i).length

/-- A host asked for, searched in the list of the registration. -/
def markHost (s : Hostlist × Bitstr) (host : List Char) : Hostlist × Bitstr :=
  match hostlistFind s.1 host with
  | some (loc, hl) => (hl, if loc = -1 then s.2 else bitSet s.2 loc.toNat)
  | none => s

/-- `asked_bitmap`. -/
def askedBitmap (hl : Hostlist) (hosts : List (List Char)) : Bitstr :=
  (hosts.foldl markHost (hl, bitAlloc hl.nhosts.toNat)).2

/-- The test of a node index text against the nodes asked for. -/
def overlapsAsked (hl : Hostlist) (hosts : List (List Char)) (nodeInx : List Char) : Bool :=
  bitOverlap (askedBitmap hl hosts) (bitUnfmt (bitAlloc hl.nhosts.toNat) nodeInx).2 ≠ 0

section Setup

variable (cond : NodeCond) (now : Nat)

/-- The registrations of the cluster in the query. -/
def Registration.Ours (e : Registration) : Prop := cond.clusterList = [e.cluster]

/-- The part of the query on the period. -/
def Registration.InWindow (e : Registration) : Prop :=
  cond.usageStart = 0 ∨
    e.start < (if cond.usageEnd = 0 then now else cond.usageEnd) ∧
      (cond.usageStart ≤ e.end_ ∨ e.end_ = 0)

instance (e : Registration) : Decidable (e.Ours cond) := inferInstanceAs (Decidable (_ = _))

instance (e : Registration) : Decidable (e.InWindow cond now) :=
  inferInstanceAs (Decidable (_ ∨ _))

/-- The `local_cluster_t` of a registration. -/
def localCluster (e : Registration) : LocalCluster where
  start := e.start
  end_ := if e.end_ = 0 then now else e.end_
  overlap := overlapsAsked e.hl cond.hosts

/-- One turn of the loop of `setup_cluster_list_with_inx`. -/
def setupRow (s : List LocalCluster × Option LocalCluster) (e : Registration) :
    List LocalCluster × Option LocalCluster :=
  if bitFfs (askedBitmap e.hl cond.hosts) ≠ -1 then
    (s.1 ++ [localCluster cond now e],
      if e.end_ = 0 then some (localCluster cond now e) else s.2)
  else s

/-- `setup_cluster_list_with_inx`: the list and the current cluster; `none` for the list
`NULL`, for which no job is looked at. -/
def setupClusterListWithInx (events : List Registration) :
    Option (List LocalCluster × Option LocalCluster) :=
  if cond.clusterList.length ≠ 1 ∨ cond.hosts = [] then none
  else
    let s := (events.filter fun e => e.Ours cond ∧ e.InWindow cond now).foldl
      (setupRow cond now) ([], none)
    if s.1 = [] then none else some s

end Setup

/-- The answers of the filter for rows one after another, each looked up by the column `time`. -/
def decisions (time : Row → Int) (clusters : List LocalCluster) :
    Option LocalCluster → List Row → List Bool
  | _, [] => []
  | curr, r :: rows =>
    let s := goodNodesFromInx clusters curr r.nodeInx (time r)
    s.1 :: decisions time clusters s.2 rows

/-! ## What is to be kept -/

/-- A registration lasts up to the next one. -/
def Registration.Covers (e : Registration) (t : Int) : Prop :=
  e.start ≤ t ∧ (e.end_ = 0 ∨ t < e.end_)

instance (e : Registration) (t : Int) : Decidable (e.Covers t) :=
  inferInstanceAs (Decidable (_ ∧ _))

/-- The nodes of a job meet the nodes asked for. -/
def Registration.meets (hosts : List (List Char)) (e : Registration) :
    Option (List Char) → Bool
  | some (c :: cs) => overlapsAsked e.hl hosts (c :: cs)
  | _ => false

/-- The job has a node asked for, by the registration of its cluster and its time. -/
def Wanted (cond : NodeCond) (events : List Registration) (t : Int)
    (nodeInx : Option (List Char)) : Prop :=
  ∃ e ∈ events, e.Ours cond ∧ e.Covers t ∧ e.meets cond.hosts nodeInx = true

instance (cond : NodeCond) (events : List Registration) (t : Int)
    (nodeInx : Option (List Char)) : Decidable (Wanted cond events t nodeInx) :=
  inferInstanceAs (Decidable (∃ e ∈ events, _))

/-- A registration still lasts that the window leaves and that has a node asked for. -/
def StillOpen (cond : NodeCond) (now : Nat) (events : List Registration) : Prop :=
  ∃ e ∈ events, e.Ours cond ∧ e.InWindow cond now ∧ e.end_ = 0 ∧
    bitFfs (askedBitmap e.hl cond.hosts) ≠ -1

/-! ## What is loaded -/

/-- The registrations that are loaded. -/
def loaded (cond : NodeCond) (now : Nat) (events : List Registration) : List Registration :=
  (events.filter fun e => e.Ours cond ∧ e.InWindow cond now).filter fun e =>
    bitFfs (askedBitmap e.hl cond.hosts) ≠ -1

section Setup

variable {cond : NodeCond} {now : Nat}

theorem mem_loaded {events : List Registration} {e : Registration} :
    e ∈ loaded cond now events ↔ (e ∈ events ∧ e.Ours cond ∧ e.InWindow cond now) ∧
      bitFfs (askedBitmap e.hl cond.hosts) ≠ -1 := by
  simp only [loaded, List.mem_filter, decide_eq_true_eq]

/-- A time that belongs to one registration at most, which the window leaves if it has a
node asked for, and that is not the end of a loaded one. -/
structure ClearTime (cond : NodeCond) (now : Nat) (events : List Registration) (t : Int) :
    Prop where
  le_now : t ≤ now
  inWindow : ∀ e ∈ events, e.Ours cond → bitFfs (askedBitmap e.hl cond.hosts) ≠ -1 →
    e.Covers t → e.InWindow cond now
  ne_end : ∀ e ∈ loaded cond now events, e.end_ ≠ 0 → t ≠ e.end_
  unique : ∀ e ∈ events, ∀ e' ∈ events, e.Ours cond → e'.Ours cond → e.Covers t →
    e'.Covers t → e = e'

/-- The list after some rows, and the current cluster a member of it. -/
theorem foldl_setupRow (events : List Registration) (s : List LocalCluster × Option LocalCluster) :
    (events.foldl (setupRow cond now) s).1 =
      s.1 ++ (events.filter fun e => bitFfs (askedBitmap e.hl cond.hosts) ≠ -1).map
        (localCluster cond now) := by
  induction events generalizing s with
  | nil => simp
  | cons e events ih =>
    rw [List.foldl_cons, ih, setupRow]
    by_cases hasked : bitFfs (askedBitmap e.hl cond.hosts) ≠ -1
    · rw [if_pos hasked, List.filter_cons_of_pos (by simpa using hasked)]
      simp
    · rw [if_neg hasked, List.filter_cons_of_neg (by simpa using hasked)]

theorem foldl_setupRow_curr (events : List Registration)
    (s : List LocalCluster × Option LocalCluster) (hs : ∀ c, s.2 = some c → c ∈ s.1) :
    ∀ c, (events.foldl (setupRow cond now) s).2 = some c →
      c ∈ (events.foldl (setupRow cond now) s).1 := by
  induction events generalizing s with
  | nil => exact hs
  | cons e events ih =>
    apply ih
    intro c hc
    unfold setupRow at hc ⊢
    split at hc
    · rename_i hasked
      rw [if_pos hasked]
      split at hc
      · rw [← Option.some.inj hc]
        exact List.mem_append_right _ List.mem_cons_self
      · exact List.mem_append_left _ (hs c hc)
    · rename_i hasked
      rw [if_neg hasked]
      exact hs c hc

theorem foldl_setupRow_isSome (events : List Registration)
    (s : List LocalCluster × Option LocalCluster)
    (h : s.2.isSome ∨ ∃ e ∈ events, e.end_ = 0 ∧ bitFfs (askedBitmap e.hl cond.hosts) ≠ -1) :
    (events.foldl (setupRow cond now) s).2.isSome := by
  induction events generalizing s with
  | nil =>
    rcases h with h | ⟨e, he, -⟩
    · exact h
    · cases he
  | cons e events ih =>
    apply ih
    rcases h with h | ⟨e', he', hopen, hasked⟩
    · left
      unfold setupRow
      split
      · split
        · rfl
        · exact h
      · exact h
    · rcases List.mem_cons.mp he' with rfl | he'
      · left
        simp [setupRow, hasked, hopen]
      · exact Or.inr ⟨e', he', hopen, hasked⟩

/-- The list and the current cluster that the filter starts with. -/
theorem setup_eq {events : List Registration} {clusters : List LocalCluster}
    {curr : Option LocalCluster}
    (h : setupClusterListWithInx cond now events = some (clusters, curr)) :
    clusters = (loaded cond now events).map (localCluster cond now) ∧
      (∀ c, curr = some c → c ∈ clusters) ∧ (StillOpen cond now events → curr.isSome) := by
  unfold setupClusterListWithInx at h
  split at h
  · cases h
  · dsimp only at h
    split at h
    · cases h
    · have hs := Option.some.inj h
      rw [Prod.ext_iff] at hs
      rcases hs with ⟨rfl, rfl⟩
      refine ⟨foldl_setupRow _ _, ?_, ?_⟩
      · apply foldl_setupRow_curr
        intro c hc
        cases hc
      · rintro ⟨e, he, hours, hwindow, hopen, hasked⟩
        apply foldl_setupRow_isSome
        exact Or.inr ⟨e, by simp [he, hours, hwindow], hopen, hasked⟩

end Setup

/-! ## One row -/

section Row

variable {cond : NodeCond} {now : Nat} {events : List Registration}

/-- What is left of the first bit of an empty bitmap. -/
theorem bitOverlap_of_bitFfs {b1 : Bitstr} (h : bitFfs b1 = -1) (b2 : Bitstr) :
    bitOverlap b1 b2 = 0 := by
  have hnone : (List.range b1.nbits).find? (bitTest b1) = none := by
    unfold bitFfs at h
    split at h
    · omega
    · assumption
  rw [bitOverlap, List.length_eq_zero_iff, List.filter_eq_nil_iff]
  intro i hi hboth
  rw [Bool.and_eq_true] at hboth
  exact List.find?_eq_none.mp hnone i hi hboth.1

theorem Registration.asked_of_meets {hosts : List (List Char)} {e : Registration}
    {nodeInx : Option (List Char)} (h : e.meets hosts nodeInx = true) :
    bitFfs (askedBitmap e.hl hosts) ≠ -1 := by
  intro hffs
  unfold Registration.meets at h
  split at h
  · rw [overlapsAsked, bitOverlap_of_bitFfs hffs] at h
    simp at h
  · cases h

/-- The closed interval of a `local_cluster_t`. -/
def LocalCluster.Contains (c : LocalCluster) (t : Int) : Prop := t ≥ c.start ∧ t ≤ c.end_

theorem ClearTime.contains_iff {t : Int} (ht : ClearTime cond now events t) {e : Registration}
    (he : e ∈ loaded cond now events) :
    (localCluster cond now e).Contains t ↔ e.Covers t := by
  have hnow := ht.le_now
  unfold LocalCluster.Contains localCluster Registration.Covers
  by_cases hopen : e.end_ = 0
  · simp only [hopen, if_true, true_or, and_true]
    omega
  · have hend := ht.ne_end e he hopen
    simp only [hopen, if_false, false_or]
    omega

/-- The answer of a registration of the list that contains the time. -/
theorem ClearTime.overlap_iff {t : Int} (ht : ClearTime cond now events t) {e : Registration}
    (he : e ∈ loaded cond now events) (hin : (localCluster cond now e).Contains t) (a : Char)
    (as : List Char) :
    (localCluster cond now e).overlap (a :: as) = true ↔
      Wanted cond events t (some (a :: as)) := by
  rcases mem_loaded.mp he with ⟨⟨hmem, hours, -⟩, -⟩
  have hcovers := (ht.contains_iff he).mp hin
  constructor
  · intro hoverlap
    exact ⟨e, hmem, hours, hcovers, hoverlap⟩
  · rintro ⟨e', hmem', hours', hcovers', hmeets⟩
    rw [ht.unique e hmem e' hmem' hours hours' hcovers hcovers']
    exact hmeets

/-- Where no registration of the list contains the time, the job is not to be kept. -/
theorem ClearTime.not_wanted {t : Int} (ht : ClearTime cond now events t)
    {nodeInx : Option (List Char)}
    (hnone : ∀ e ∈ loaded cond now events, ¬(localCluster cond now e).Contains t) :
    ¬Wanted cond events t nodeInx := by
  rintro ⟨e, hmem, hours, hcovers, hmeets⟩
  have hasked := Registration.asked_of_meets hmeets
  have he : e ∈ loaded cond now events :=
    mem_loaded.mpr ⟨⟨hmem, hours, ht.inWindow e hmem hours hasked hcovers⟩, hasked⟩
  exact hnone e he ((ht.contains_iff he).mpr hcovers)

theorem not_wanted_of_no_index {t : Int} {nodeInx : Option (List Char)}
    (h : nodeInx = none ∨ nodeInx = some []) : ¬Wanted cond events t nodeInx := by
  rintro ⟨e, -, -, -, hmeets⟩
  rcases h with rfl | rfl
  · cases hmeets
  · cases hmeets

/-- The answer for one row, and that the current cluster stays one of the list. -/
theorem goodNodesFromInx_spec {t : Int} (ht : ClearTime cond now events t) {c : LocalCluster}
    (hc : c ∈ (loaded cond now events).map (localCluster cond now))
    (nodeInx : Option (List Char)) :
    ((goodNodesFromInx ((loaded cond now events).map (localCluster cond now)) (some c) nodeInx
        t).1 = true ↔ Wanted cond events t nodeInx) ∧
      ∃ c' ∈ (loaded cond now events).map (localCluster cond now),
        (goodNodesFromInx ((loaded cond now events).map (localCluster cond now)) (some c) nodeInx
          t).2 = some c' := by
  match nodeInx with
  | none =>
    refine ⟨?_, c, hc, rfl⟩
    exact iff_of_false Bool.false_ne_true (not_wanted_of_no_index (Or.inl rfl))
  | some [] =>
    refine ⟨?_, c, hc, rfl⟩
    exact iff_of_false Bool.false_ne_true (not_wanted_of_no_index (Or.inr rfl))
  | some (a :: as) =>
    unfold goodNodesFromInx
    dsimp only
    by_cases hout : t < c.start ∨ t > c.end_
    · rw [if_pos hout]
      split
      · rename_i hfind
        refine ⟨?_, c, hc, rfl⟩
        apply iff_of_false Bool.false_ne_true
        apply ht.not_wanted
        intro e he hin
        have hnot := List.find?_eq_none.mp hfind _ (List.mem_map_of_mem he)
        rw [decide_eq_true_eq] at hnot
        exact hnot hin
      · rename_i l hfind
        have hmem := List.mem_of_find?_eq_some hfind
        have hin := List.find?_some hfind
        rw [decide_eq_true_eq] at hin
        refine ⟨?_, l, hmem, rfl⟩
        rcases List.mem_map.mp hmem with ⟨e, he, rfl⟩
        exact ht.overlap_iff he hin a as
    · rw [if_neg hout]
      refine ⟨?_, c, hc, rfl⟩
      rcases List.mem_map.mp hc with ⟨e, he, rfl⟩
      apply ht.overlap_iff he
      show t ≥ _ ∧ t ≤ _
      omega

end Row

/-! ## All rows -/

/-- Every answer is the one the row calls for, whatever rows are before it. -/
def RightDecisions (time : Row → Int) (cond : NodeCond) (events : List Registration)
    (clusters : List LocalCluster) (curr : Option LocalCluster) (rows : List Row) : Prop :=
  decisions time clusters curr rows =
    rows.map fun r => decide (Wanted cond events (time r) r.nodeInx)

theorem decisions_of_mem {time : Row → Int} {cond : NodeCond} {now : Nat}
    {events : List Registration} {c : LocalCluster}
    (hc : c ∈ (loaded cond now events).map (localCluster cond now)) {rows : List Row}
    (hclear : ∀ r ∈ rows, ClearTime cond now events (time r)) :
    RightDecisions time cond events ((loaded cond now events).map (localCluster cond now))
      (some c) rows := by
  unfold RightDecisions
  induction rows generalizing c with
  | nil => rfl
  | cons r rows ih =>
    rcases goodNodesFromInx_spec (hclear r List.mem_cons_self) hc r.nodeInx with
      ⟨hanswer, c', hc', hcurr⟩
    have htail := ih hc' fun s hs => hclear s (List.mem_cons_of_mem _ hs)
    rw [decisions, hcurr, htail, List.map_cons]
    congr 1
    rw [Bool.eq_iff_iff, decide_eq_true_eq]
    exact hanswer

/-- The filter keeps the jobs it is to keep, where a registration still lasts and no
time is at the end of one, after the query, left out by the window or doubly covered. -/
theorem rightDecisions {time : Row → Int} {cond : NodeCond} {now : Nat}
    {events : List Registration} {clusters : List LocalCluster} {curr : Option LocalCluster}
    (hsetup : setupClusterListWithInx cond now events = some (clusters, curr))
    (hopen : StillOpen cond now events) {rows : List Row}
    (hclear : ∀ r ∈ rows, ClearTime cond now events (time r)) :
    RightDecisions time cond events clusters curr rows := by
  rcases setup_eq hsetup with ⟨rfl, hmem, hsome⟩
  rcases Option.isSome_iff_exists.mp (hsome hopen) with ⟨c, rfl⟩
  exact decisions_of_mem (hmem c rfl) hclear

/-- Nodes `a` and `b`, whose order changes at 100. -/
def renumbered : List Registration :=
  [⟨"c", 0, 100, .ofRanges [hostrangeCreateSingle ['a'], hostrangeCreateSingle ['b']] 14 2⟩,
    ⟨"c", 100, 0, .ofRanges [hostrangeCreateSingle ['b'], hostrangeCreateSingle ['a']] 14 2⟩]

/-- A query for node `b` within some times. -/
def askB (usageStart usageEnd : Nat) : NodeCond := ⟨["c"], usageStart, usageEnd, [['b']]⟩

theorem rightDecisions_renumbered :
    RightDecisions Row.submit (askB 0 0) renumbered (renumbered.map (localCluster (askB 0 0) 200))
        (renumbered.map (localCluster (askB 0 0) 200)).getLast?
        [⟨1, 20, 20, some ['1']⟩, ⟨2, 150, 150, some ['1']⟩, ⟨3, 150, 160, some ['0']⟩] ∧
      decisions Row.submit (renumbered.map (localCluster (askB 0 0) 200))
          (renumbered.map (localCluster (askB 0 0) 200)).getLast?
          [⟨1, 20, 20, some ['1']⟩, ⟨2, 150, 150, some ['1']⟩, ⟨3, 150, 160, some ['0']⟩] =
        [true, false, true] := by
  have hsetup : setupClusterListWithInx (askB 0 0) 200 renumbered =
      some (renumbered.map (localCluster (askB 0 0) 200),
        (renumbered.map (localCluster (askB 0 0) 200)).getLast?) := rfl
  have hopen : StillOpen (askB 0 0) 200 renumbered :=
    ⟨_, List.mem_cons_of_mem _ List.mem_cons_self, rfl, Or.inl rfl, rfl, by decide⟩
  have hearly : ClearTime (askB 0 0) 200 renumbered 20 :=
    ⟨by decide, by decide, by decide, by decide⟩
  have hlate : ClearTime (askB 0 0) 200 renumbered 150 :=
    ⟨by decide, by decide, by decide, by decide⟩
  refine ⟨rightDecisions hsetup hopen ?_, by decide⟩
  intro r hr
  simp only [List.mem_cons, List.not_mem_nil, or_false] at hr
  rcases hr with rfl | rfl | rfl
  · exact hearly
  · exact hlate
  · exact hlate

/-- A query within the closed period: a job on node `a` is kept with the others. -/
theorem not_rightDecisions_closed : ∃ clusters curr,
    setupClusterListWithInx (askB 10 50) 200 renumbered = some (clusters, curr) ∧
      decisions Row.submit clusters curr [⟨1, 20, 20, some ['0']⟩] = [true] ∧
      ¬RightDecisions Row.submit (askB 10 50) renumbered clusters curr
        [⟨1, 20, 20, some ['0']⟩] := by
  refine ⟨_, _, rfl, rfl, ?_⟩
  unfold RightDecisions
  decide

end Slurm.JobProcess
