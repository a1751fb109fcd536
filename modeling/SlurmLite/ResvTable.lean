import SlurmLite.Base.Table
import SlurmLite.Base.Run

/-!
# The reservation table

A change of a reservation that has begun is to end its row and to begin another
one, so that the rows of a reservation tell what was in force when. The removal of
a reservation deletes its row when it has not begun, and is to end it otherwise. Times
are seconds below 2^31.

* **The calls** (`addReservation`, `modifyReservation`, `removeReservation`):
  statement by statement.
* **What is meant** (`Plan`): what is in force at every time.
* **Runs** (`reservation_run`): the rows tell what is meant as long as one row is
  enough.
-/

namespace Slurm.ResvTable

open Base.Table
open Base.Run

/-- The columns that a change can write, but for the times. -/
structure Values where
  assoclist : String := ""
  cpus : Nat := 0
  flags : Nat := 0
  name : String := ""
  nodelist : String := ""
  nodeInx : String := ""
deriving DecidableEq

/-- A row of `resv_table`. -/
structure ResvRow extends Values where
  id : Nat
  cluster : String
  deleted : Nat := 0
  start : Nat := 0
  «end» : Nat := 0
deriving DecidableEq

/-- An `acct_reservation_rec_t`: what is `NULL` or `NO_VAL` is `none`, a time that
is not given is 0. -/
structure ResvRec where
  id : Nat
  cluster : Option String
  assocs : Option String := none
  cpus : Option Nat := none
  flags : Option Nat := none
  name : Option String := none
  nodes : Option String := none
  nodeInx : Option String := none
  timeStart : Nat
  timeEnd : Nat := 0
  timeStartPrev : Nat := 0
deriving DecidableEq

/-! ## The calls -/

/-- The columns that `_setup_resv_limits` lists. -/
def ResvRec.setValues (resv : ResvRec) (v : Values) : Values where
  assoclist := resv.assocs.getD v.assoclist
  cpus := resv.cpus.getD v.cpus
  flags := resv.flags.getD v.flags
  name := resv.name.getD v.name
  nodelist := resv.nodes.getD v.nodelist
  nodeInx := resv.nodeInx.getD v.nodeInx

/-- `_setup_resv_limits` on a row. -/
def ResvRec.setLimits (resv : ResvRec) (r : ResvRow) : ResvRow where
  toValues := resv.setValues r.toValues
  id := r.id
  cluster := r.cluster
  deleted := r.deleted
  start := if resv.timeStart ≠ 0 then resv.timeStart else r.start
  «end» := if resv.timeEnd ≠ 0 then resv.timeEnd else r.end

/-- The primary key. -/
def SameKey (r s : ResvRow) : Prop := r.id = s.id ∧ r.start = s.start ∧ r.cluster = s.cluster

instance (r s : ResvRow) : Decidable (SameKey r s) := inferInstanceAs (Decidable (_ ∧ _ ∧ _))

/-- `acct_storage_p_add_reservation`, `none` for `SLURM_ERROR`. -/
def addReservation (resv : ResvRec) (t : List ResvRow) : Option (List ResvRow) :=
  match resv.cluster with
  | none => none
  | some cluster =>
    if resv.id = 0 ∨ resv.timeStart = 0 then none
    else
      let row := resv.setLimits { id := resv.id, cluster := cluster }
      some (upsert (fun r => SameKey r row) row
        (fun r => resv.setLimits { r with deleted := 0 }) t)

/-- The first row of a query in the order `start desc`. -/
def lastStart (cond : ResvRow → Bool) (t : List ResvRow) : Option ResvRow :=
  ((t.filter cond).insertionSort fun r s => s.start ≤ r.start).head?

/-- The row that is changed: the one with either start, else the last one that
begins before the given end. -/
def found (resv : ResvRec) (cluster : String) (t : List ResvRow) : Option ResvRow :=
  match lastStart (fun r => r.id = resv.id ∧
      (r.start = resv.timeStart ∨ r.start = resv.timeStartPrev) ∧ r.cluster = cluster ∧
      r.deleted = 0) t with
  | some row => some row
  | none =>
    if resv.timeEnd ≠ 0 then
      lastStart (fun r => r.id = resv.id ∧ r.start ≤ resv.timeEnd ∧ r.cluster = cluster ∧
        r.deleted = 0) t
    else none

/-- What is given is in need of a new entry. -/
def ResvRec.isSet (resv : ResvRec) : Bool :=
  resv.assocs.isSome || resv.cpus.isSome || resv.flags.isSome || resv.nodes.isSome

/-- What is not given is taken from the row. -/
def ResvRec.fill (resv : ResvRec) (v : Values) («end» : Nat) : ResvRec :=
  let copyNodes := resv.nodes = none ∧ v.nodelist ≠ ""
  { resv with
    name := if resv.name = none ∧ v.name ≠ "" then some v.name else resv.name
    assocs := if resv.assocs = none ∧ v.assoclist ≠ "" then some v.assoclist else resv.assocs
    cpus := some (resv.cpus.getD v.cpus)
    flags := some (resv.flags.getD v.flags)
    nodes := if copyNodes then some v.nodelist else resv.nodes
    nodeInx := if copyNodes then some v.nodeInx else resv.nodeInx
    timeEnd := if resv.timeEnd = 0 then «end» else resv.timeEnd }

/-- `acct_storage_p_modify_reservation`; an update to a key that is taken fails
without an error being returned. -/
def modifyReservation (now : Nat) (resv : ResvRec) (t : List ResvRow) : Option (List ResvRow) :=
  match resv.cluster with
  | none => none
  | some cluster =>
    if resv.id = 0 ∨ resv.timeStart = 0 ∨ resv.timeStartPrev = 0 then none
    else
      match found resv cluster t with
      | none => none
      | some row =>
        let resv' := resv.fill row.toValues row.end
        let isRow (r : ResvRow) := r.deleted = 0 ∧ r.id = resv.id ∧ r.start = row.start ∧
          r.cluster = cluster
        if row.start > now ∨ ¬resv.isSet then
          if ∃ r ∈ t, SameKey r (resv'.setLimits row) ∧ ¬isRow r then some t
          else some (update isRow resv'.setLimits t)
        else
          let new := resv'.setLimits { id := resv.id, cluster := cluster }
          some (upsert (fun r => SameKey r new) new
            (fun r => resv'.setLimits { r with deleted := 0 })
            (update isRow (fun r => { r with «end» := resv.timeStart - 1 }) t))

/-- `acct_storage_p_remove_reservation`. The name in the second statement ends with
the semicolon of the statement. -/
def removeReservation (resv : ResvRec) (t : List ResvRow) : Option (List ResvRow) :=
  match resv.cluster with
  | none => none
  | some cluster =>
    if resv.id = 0 ∨ resv.timeStart = 0 then none
    else
      let t := t.filter fun r => ¬(r.start > resv.timeStartPrev ∧ r.id = resv.id ∧
        r.start = resv.timeStart ∧ r.cluster = cluster)
      some (update (fun r => r.deleted = 0 ∧ r.id = resv.id ∧ r.start = resv.timeStart ∧
        r.cluster = cluster ++ ";") (fun r =>
          { r with «end» := resv.timeStartPrev, deleted := 1 }) t)

/-- A call for a reservation. -/
inductive Call where
  | add (resv : ResvRec)
  | modify (now : Nat) (resv : ResvRec)
  | remove (resv : ResvRec)
deriving DecidableEq

def Call.resv : Call → ResvRec
  | .add resv => resv
  | .modify _ resv => resv
  | .remove resv => resv

def Call.run (t : List ResvRow) : Call → Option (List ResvRow)
  | .add resv => addReservation resv t
  | .modify now resv => modifyReservation now resv t
  | .remove resv => removeReservation resv t

/-! ## What is meant -/

/-- A reservation: what is in force from a start to an end, and what was before. -/
structure Plan extends Values where
  start : Nat
  «end» : Nat
  past : Nat → Option Values := fun _ => none

/-- What is in force at a time. -/
def inForce (plan : Option Plan) (time : Nat) : Option Values :=
  match plan with
  | none => none
  | some p =>
    if time < p.start then p.past time
    else if time < p.end then some p.toValues
    else none

/-- A reservation is added, or written again from the same start. -/
def planAdd (resv : ResvRec) (plan : Option Plan) : Option Plan :=
  match plan with
  | none => some
      { toValues := resv.setValues {}, start := resv.timeStart, «end» := resv.timeEnd }
  | some p => some
      { toValues := resv.setValues (if p.start = resv.timeStart then p.toValues else {})
        start := resv.timeStart
        «end» := if resv.timeEnd ≠ 0 then resv.timeEnd
          else if p.start = resv.timeStart then p.end else 0
        past := if p.start = resv.timeStart then p.past else inForce plan }

/-- A change: from the start given when the reservation has begun and more than its
name or times changes, else of the reservation as a whole. -/
def planModify (now : Nat) (resv : ResvRec) (plan : Option Plan) : Option Plan :=
  plan.map fun p =>
    { toValues := (resv.fill p.toValues p.end).setValues p.toValues
      start := resv.timeStart
      «end» := if resv.timeEnd = 0 then p.end else resv.timeEnd
      past :=
        if p.start ≤ now ∧ resv.isSet then fun time =>
          if resv.timeStart ≤ time then none
          else if p.start ≤ time then some p.toValues
          else p.past time
        else p.past }

/-- A removal: as a whole before the start, else from the time it is asked for. -/
def planRemove (resv : ResvRec) (plan : Option Plan) : Option Plan :=
  plan.bind fun p =>
    if p.start ≠ resv.timeStart then some p
    else if p.start > resv.timeStartPrev then none
    else some { p with «end» := resv.timeStartPrev }

def Call.plan (plan : Option Plan) : Call → Option Plan
  | .add resv => planAdd resv plan
  | .modify now resv => planModify now resv plan
  | .remove resv => planRemove resv plan

/-- The table with what is meant by the calls so far. -/
structure State where
  rows : List ResvRow
  plan : Option Plan

/-- One call; a call that fails changes nothing. -/
def next (s : State) (call : Call) : State :=
  match call.run s.rows with
  | none => s
  | some rows => ⟨rows, call.plan s.plan⟩

def step (s : State) (call : Call) : Option State := some (next s call)

/-- The rows of a reservation. -/
def rowsOf (id : Nat) (cluster : String) (t : List ResvRow) : List ResvRow :=
  t.filter fun r => r.id = id ∧ r.cluster = cluster

/-- A time lies within a row. -/
def ResvRow.Covers (r : ResvRow) (time : Nat) : Prop := r.start ≤ time ∧ time < r.end

/-- The rows tell what is meant: they are disjoint, cover the time from the first
start to the last end, and hold what is in force. -/
structure Told (id : Nat) (cluster : String) (s : State) : Prop where
  disjoint : (rowsOf id cluster s.rows).Pairwise fun r r' => ∀ time,
    ¬(r.Covers time ∧ r'.Covers time)
  cover : ∀ time, (∃ r ∈ rowsOf id cluster s.rows, r.start ≤ time) →
    (∃ r ∈ rowsOf id cluster s.rows, time < r.end) → ∃ r ∈ rowsOf id cluster s.rows, r.Covers time
  values : ∀ time, ∀ r ∈ rowsOf id cluster s.rows, r.Covers time →
    inForce s.plan time = some r.toValues
  outside : ∀ time, (∀ r ∈ rowsOf id cluster s.rows, ¬r.Covers time) → inForce s.plan time = none

/-! ## The condition -/

/-- The row is one that a change looks for. -/
def ResvRec.looksFor (resv : ResvRec) (r : ResvRow) : Prop :=
  r.start = resv.timeStart ∨ r.start = resv.timeStartPrev ∨ resv.timeEnd ≠ 0 ∧
    r.start ≤ resv.timeEnd

/-- One row stays enough: nothing is added beside a row, what has begun changes in
its name and times only or from its own start, and is not removed. -/
def CallOk (s : State) (call : Call) : Prop :=
  ∀ r ∈ s.rows, r.id = call.resv.id → some r.cluster = call.resv.cluster →
    match call with
    | .add resv => r.start = resv.timeStart
    | .modify now resv => r.deleted = 0 → resv.looksFor r → r.start ≤ now → resv.isSet = true →
        r.start = resv.timeStart ∧ (resv.timeEnd ≠ 0 ∨ r.end ≠ 0)
    | .remove resv => r.start = resv.timeStart → r.start > resv.timeStartPrev

/-- The table holds what is meant in one row, or nothing. -/
def OneRow (id : Nat) (cluster : String) (s : State) : Prop :=
  match s.plan with
  | none => rowsOf id cluster s.rows = []
  | some p => (∀ time, p.past time = none) ∧ ∃ r, rowsOf id cluster s.rows = [r] ∧ r.deleted = 0 ∧
      r.toValues = p.toValues ∧ r.start = p.start ∧ r.end = p.end

section Run

variable {id : Nat} {cluster : String} {s : State}

theorem mem_rowsOf {r : ResvRow} {t : List ResvRow} :
    r ∈ rowsOf id cluster t ↔ r ∈ t ∧ r.id = id ∧ r.cluster = cluster := by
  unfold rowsOf
  rw [List.mem_filter, decide_eq_true_eq]

/-- One row tells what is meant. -/
theorem OneRow.told (h : OneRow id cluster s) : Told id cluster s := by
  unfold OneRow at h
  cases hplan : s.plan with
  | none =>
    rw [hplan] at h
    refine ⟨?_, ?_, ?_, ?_⟩
    · rw [h]
      exact List.Pairwise.nil
    · rintro time ⟨r, hr, -⟩
      rw [h] at hr
      cases hr
    · intro time r hr
      rw [h] at hr
      cases hr
    · intro time _
      rw [hplan]
      rfl
  | some p =>
    rw [hplan] at h
    obtain ⟨hpast, r, hrows, -, hvalues, hstart, hend⟩ := h
    have hforce : ∀ time, inForce s.plan time =
        if r.start ≤ time ∧ time < r.end then some r.toValues else none := by
      intro time
      rw [hplan]
      unfold inForce
      simp only
      rw [hpast, hstart, hend, hvalues]
      by_cases h1 : time < p.start
      · rw [if_pos h1, if_neg fun hc => absurd hc.1 (by omega)]
      · by_cases h2 : time < p.end
        · rw [if_neg h1, if_pos h2, if_pos ⟨by omega, h2⟩]
        · rw [if_neg h1, if_neg h2, if_neg fun hc => h2 hc.2]
    refine ⟨?_, ?_, ?_, ?_⟩
    · rw [hrows]
      exact List.pairwise_singleton _ _
    · rintro time ⟨r₁, hr₁, hle⟩ ⟨r₂, hr₂, hlt⟩
      rw [hrows, List.mem_singleton] at hr₁ hr₂
      rw [hr₁] at hle
      rw [hr₂] at hlt
      exact ⟨r, by rw [hrows]; exact List.mem_singleton_self r, hle, hlt⟩
    · intro time r' hr' hcovers
      rw [hrows, List.mem_singleton] at hr'
      rw [hr'] at hcovers ⊢
      exact (hforce time).trans (if_pos hcovers)
    · intro time hnone
      exact (hforce time).trans (if_neg (hnone r (by rw [hrows]; exact List.mem_singleton_self r)))

/-- An update of the rows of a reservation that keeps what they are of. -/
theorem rowsOf_update {cond : ResvRow → Prop} [DecidablePred cond] {set : ResvRow → ResvRow}
    {t : List ResvRow} (hid : ∀ r, (set r).id = r.id) (hcluster : ∀ r,
      (set r).cluster = r.cluster) :
    rowsOf id cluster (update cond set t) = update cond set (rowsOf id cluster t) :=
  filter_update fun r _ _ => by rw [hid, hcluster]

/-- The end after a change in place. -/
theorem filled_end (resv : ResvRec) (v : Values) (e : Nat) :
    (if (resv.fill v e).timeEnd ≠ 0 then (resv.fill v e).timeEnd else e) =
      if resv.timeEnd = 0 then e else resv.timeEnd := by
  show (if (if resv.timeEnd = 0 then e else resv.timeEnd) ≠ 0 then
    (if resv.timeEnd = 0 then e else resv.timeEnd) else e) = _
  by_cases hend : resv.timeEnd = 0
  · rw [if_pos hend]
    exact ite_self _
  · rw [if_neg hend, if_pos hend]

variable {resv : ResvRec} (hid : resv.id = id) (hcluster : resv.cluster = some cluster)
include hid hcluster

theorem OneRow.add (h : OneRow id cluster s) (hok : CallOk s (.add resv)) :
    OneRow id cluster (next s (.add resv)) := by
  show OneRow id cluster (match addReservation resv s.rows with
    | none => s
    | some rows => ⟨rows, planAdd resv s.plan⟩)
  unfold addReservation
  rw [hcluster]
  simp only
  by_cases hbad : resv.id = 0 ∨ resv.timeStart = 0
  · rw [if_pos hbad]
    exact h
  · rw [if_neg hbad]
    obtain ⟨-, hstart0⟩ := not_or.mp hbad
    have hstart : ∀ r : ResvRow, (resv.setLimits r).start = resv.timeStart := fun r =>
        if_pos hstart0
    unfold OneRow at h ⊢
    unfold upsert
    cases hplan : s.plan with
    | none =>
      rw [hplan] at h
      simp only at h ⊢
      rw [if_neg fun hex => ?_]
      · refine ⟨fun _ => rfl, resv.setLimits { id := resv.id, cluster := cluster }, ?_, rfl, rfl,
          hstart _, ?_⟩
        · unfold rowsOf at h ⊢
          rw [List.filter_append, h, List.nil_append, List.filter_singleton]
          simp [ResvRec.setLimits, hid]
        · by_cases hend : resv.timeEnd = 0
          · simp [ResvRec.setLimits, hend]
          · exact if_pos hend
      · obtain ⟨r, hr, hkey⟩ := hex
        have hmem : r ∈ rowsOf id cluster s.rows := mem_rowsOf.mpr ⟨hr, hkey.1.trans hid, hkey.2.2⟩
        rw [h] at hmem
        cases hmem
    | some p =>
      rw [hplan] at h
      obtain ⟨hpast, r, hrows, hdel, hvalues, hrs, hre⟩ := h
      obtain ⟨hr, hri, hrc⟩ := mem_rowsOf.mp (hrows ▸ List.mem_singleton_self r)
      have hsame : r.start = resv.timeStart :=
          hok r hr (hri.trans hid.symm) (by rw [hrc]; exact hcluster.symm)
      have hkey : SameKey r (resv.setLimits { id := resv.id, cluster := cluster }) :=
        ⟨hri.trans hid.symm, hsame.trans (hstart _).symm, hrc⟩
      have hps : p.start = resv.timeStart := hrs.symm.trans hsame
      simp only [planAdd]
      have hex : ∃ r ∈ s.rows, SameKey r (resv.setLimits { id := resv.id, cluster := cluster }) :=
        ⟨r, hr, hkey⟩
      rw [if_pos hex, if_pos hps, if_pos hps, if_pos hps]
      refine ⟨hpast, resv.setLimits { r with deleted := 0 },
        ?_, rfl, ?_, hstart _, ?_⟩
      · rw [rowsOf_update, hrows, update_singleton, if_pos hkey]
        · exact fun _ => rfl
        · exact fun _ => rfl
      · show resv.setValues r.toValues = _
        rw [hvalues]
      · show (if resv.timeEnd ≠ 0 then resv.timeEnd else r.end) = _
        rw [hre]

omit hcluster in
/-- What is found for a change is a row of the reservation. -/
theorem mem_found {t : List ResvRow} {row : ResvRow} (hfound : found resv cluster t = some row) :
    row ∈ rowsOf id cluster t ∧ row.deleted = 0 ∧ resv.looksFor row := by
  have hlast : ∀ {cond : ResvRow → Bool} {r}, lastStart cond t = some r → r ∈ t ∧ cond r =
      true := by
    intro cond r hr
    have hmem := (List.perm_insertionSort _ _).mem_iff.mp (List.mem_of_mem_head? hr)
    exact List.mem_filter.mp hmem
  unfold found at hfound
  cases hfirst : lastStart (fun r => r.id = resv.id ∧
      (r.start = resv.timeStart ∨ r.start = resv.timeStartPrev) ∧ r.cluster = cluster ∧
      r.deleted = 0) t with
  | some r =>
    rw [hfirst] at hfound
    obtain rfl := Option.some.inj hfound
    obtain ⟨hr, hcond⟩ := hlast hfirst
    simp only [decide_eq_true_eq] at hcond
    exact ⟨mem_rowsOf.mpr ⟨hr, hcond.1.trans hid, hcond.2.2.1⟩, hcond.2.2.2,
      hcond.2.1.imp_right Or.inl⟩
  | none =>
    rw [hfirst] at hfound
    simp only at hfound
    by_cases hend : resv.timeEnd ≠ 0
    · rw [if_pos hend] at hfound
      obtain ⟨hr, hcond⟩ := hlast hfound
      simp only [decide_eq_true_eq] at hcond
      exact ⟨mem_rowsOf.mpr ⟨hr, hcond.1.trans hid, hcond.2.2.1⟩, hcond.2.2.2,
        Or.inr (Or.inr ⟨hend, hcond.2.1⟩)⟩
    · rw [if_neg hend] at hfound
      cases hfound

/-- The row of a reservation that has not begun is changed in its place. -/
theorem rowsOf_modify_inPlace {now : Nat} {t : List ResvRow} {row : ResvRow}
    (hgood : ¬(resv.id = 0 ∨ resv.timeStart = 0 ∨ resv.timeStartPrev = 0))
    (hfound : found resv cluster t = some row) (hrows : rowsOf id cluster t = [row])
    (hplace : row.start > now ∨ ¬resv.isSet) :
    ∃ t', modifyReservation now resv t = some t' ∧
      rowsOf id cluster t' = [(resv.fill row.toValues row.end).setLimits row] := by
  obtain ⟨hmem, hdel, -⟩ := mem_found hid hfound
  obtain ⟨hrow, hri, hrc⟩ := mem_rowsOf.mp hmem
  have hfree : ¬∃ r ∈ t, SameKey r ((resv.fill row.toValues row.end).setLimits row) ∧
      ¬(r.deleted = 0 ∧ r.id = resv.id ∧ r.start = row.start ∧ r.cluster = cluster) := by
    rintro ⟨r, hr, hkey, hnot⟩
    have hmem : r ∈ rowsOf id cluster t :=
      mem_rowsOf.mpr ⟨hr, hkey.1.trans hri, hkey.2.2.trans hrc⟩
    rw [hrows, List.mem_singleton] at hmem
    subst hmem
    exact hnot ⟨hdel, hri.trans hid.symm, rfl, hrc⟩
  unfold modifyReservation
  rw [hcluster]
  simp only
  rw [if_neg hgood, hfound]
  simp only
  rw [if_pos hplace, if_neg hfree]
  refine ⟨_, rfl, ?_⟩
  rw [rowsOf_update, hrows, update_singleton, if_pos ⟨hdel, hri.trans hid.symm, rfl, hrc⟩]
  · exact fun _ => rfl
  · exact fun _ => rfl

/-- The row of a reservation that has begun is closed, and opened again by the row that is
put in from the same start. -/
theorem rowsOf_modify_anew {now : Nat} {t : List ResvRow} {row : ResvRow}
    (hgood : ¬(resv.id = 0 ∨ resv.timeStart = 0 ∨ resv.timeStartPrev = 0))
    (hfound : found resv cluster t = some row) (hrows : rowsOf id cluster t = [row])
    (hplace : ¬(row.start > now ∨ ¬resv.isSet)) (hsame : row.start = resv.timeStart) :
    ∃ t', modifyReservation now resv t = some t' ∧
      rowsOf id cluster t' = [(resv.fill row.toValues row.end).setLimits
        { row with «end» := resv.timeStart - 1, deleted := 0 }] := by
  obtain ⟨hmem, hdel, -⟩ := mem_found hid hfound
  obtain ⟨hrow, hri, hrc⟩ := mem_rowsOf.mp hmem
  have hstart0 : resv.timeStart ≠ 0 := fun h0 => hgood (Or.inr (Or.inl h0))
  have hisRow : row.deleted = 0 ∧ row.id = resv.id ∧ row.start = row.start ∧
      row.cluster = cluster := ⟨hdel, hri.trans hid.symm, rfl, hrc⟩
  have hkey : SameKey { row with «end» := resv.timeStart - 1 }
      ((resv.fill row.toValues row.end).setLimits { id := resv.id, cluster := cluster }) :=
    ⟨hri.trans hid.symm, hsame.trans (if_pos hstart0).symm, hrc⟩
  have hex : ∃ r ∈ update (fun r : ResvRow => r.deleted = 0 ∧ r.id = resv.id ∧
      r.start = row.start ∧ r.cluster = cluster)
      (fun r => { r with «end» := resv.timeStart - 1 }) t,
      SameKey r ((resv.fill row.toValues row.end).setLimits
        { id := resv.id, cluster := cluster }) :=
    ⟨_, mem_update.mpr ⟨row, hrow, rfl⟩, by rw [if_pos hisRow]; exact hkey⟩
  unfold modifyReservation
  rw [hcluster]
  simp only
  rw [if_neg hgood, hfound]
  simp only
  rw [if_neg hplace]
  unfold upsert
  rw [if_pos hex]
  refine ⟨_, rfl, ?_⟩
  rw [rowsOf_update, rowsOf_update, hrows, update_singleton, if_pos hisRow,
    update_singleton, if_pos hkey]
  · exact fun _ => rfl
  · exact fun _ => rfl
  · exact fun _ => rfl
  · exact fun _ => rfl

theorem OneRow.modify {now : Nat} (h : OneRow id cluster s) (hok : CallOk s (.modify now resv)) :
    OneRow id cluster (next s (.modify now resv)) := by
  show OneRow id cluster (match modifyReservation now resv s.rows with
    | none => s
    | some rows => ⟨rows, planModify now resv s.plan⟩)
  by_cases hgood : ¬(resv.id = 0 ∨ resv.timeStart = 0 ∨ resv.timeStartPrev = 0)
  · have hstart0 : resv.timeStart ≠ 0 := fun h0 => hgood (Or.inr (Or.inl h0))
    cases hfound : found resv cluster s.rows with
    | none =>
      have hrun : modifyReservation now resv s.rows = none := by
        unfold modifyReservation
        rw [hcluster]
        simp only
        rw [if_neg hgood, hfound]
      rw [hrun]
      exact h
    | some row =>
      obtain ⟨hmem, hdel, hlooks⟩ := mem_found hid hfound
      obtain ⟨hrow, hri, hrc⟩ := mem_rowsOf.mp hmem
      unfold OneRow at h
      cases hplan : s.plan with
      | none =>
        rw [hplan] at h
        simp only at h
        rw [h] at hmem
        cases hmem
      | some p =>
        rw [hplan] at h
        obtain ⟨hpast, r, hrows, -, hvalues, hrs, hre⟩ := h
        rw [hrows, List.mem_singleton] at hmem
        subst hmem
        have hstart : ∀ r : ResvRow, ((resv.fill row.toValues row.end).setLimits r).start =
            resv.timeStart := fun r => if_pos hstart0
        have hvals : resv.fill p.toValues p.end = resv.fill row.toValues row.end := by
          rw [hvalues, hre]
        by_cases hplace : row.start > now ∨ ¬resv.isSet
        · obtain ⟨t', hrun, hrows'⟩ := rowsOf_modify_inPlace hid hcluster hgood hfound hrows hplace
          have hnot : ¬(p.start ≤ now ∧ resv.isSet = true) := by
            rw [← hrs]
            obtain hp | hp := hplace
            · exact fun hc => absurd hc.1 (by omega)
            · exact fun hc => hp hc.2
          rw [hrun]
          unfold OneRow
          simp only [planModify, Option.map_some]
          refine ⟨fun time => ?_, _, hrows', hdel, ?_, hstart row, ?_⟩
          · rw [if_neg hnot]
            exact hpast time
          · rw [hvals, ← hvalues]
            rfl
          · rw [← hre]
            exact filled_end resv row.toValues row.end
        · obtain ⟨hbegun, hset⟩ := not_or.mp hplace
          rw [not_not] at hset
          obtain ⟨hsame, hgiven⟩ :=
            hok row hrow (hri.trans hid.symm) (by rw [hrc]; exact hcluster.symm)
              hdel hlooks (by omega) hset
          obtain ⟨t', hrun, hrows'⟩ :=
            rowsOf_modify_anew hid hcluster hgood hfound hrows hplace hsame
          have hyes : p.start ≤ now ∧ resv.isSet = true := ⟨by omega, hset⟩
          rw [hrun]
          unfold OneRow
          simp only [planModify, Option.map_some]
          refine ⟨fun time => ?_, _, hrows', rfl, ?_, hstart _, ?_⟩
          · -- nothing is past: the old values were in force from the same start
            rw [if_pos hyes]
            by_cases htime : resv.timeStart ≤ time
            · rw [if_pos htime]
            · rw [if_neg htime, if_neg (by omega)]
              exact hpast time
          · rw [hvals, ← hvalues]
            rfl
          · rw [← hre]
            refine (if_pos ?_).trans rfl
            show (if resv.timeEnd = 0 then row.end else resv.timeEnd) ≠ 0
            obtain hg | hg := hgiven
            · rw [if_neg hg]
              exact hg
            · by_cases h0 : resv.timeEnd = 0
              · rw [if_pos h0]
                exact hg
              · rw [if_neg h0]
                exact h0
  · have hrun : modifyReservation now resv s.rows = none := by
      unfold modifyReservation
      rw [hcluster]
      simp only
      rw [if_pos (not_not.mp hgood)]
    rw [hrun]
    exact h

/-- No row of the reservation begins at the start that was removed. -/
theorem rowsOf_remove {t t' : List ResvRow} (hrun : removeReservation resv t = some t') :
    rowsOf id cluster t' = (rowsOf id cluster t).filter fun r =>
      ¬(r.start > resv.timeStartPrev ∧ r.start = resv.timeStart) := by
  unfold removeReservation at hrun
  rw [hcluster] at hrun
  simp only at hrun
  by_cases hbad : resv.id = 0 ∨ resv.timeStart = 0
  · rw [if_pos hbad] at hrun
    cases hrun
  · rw [if_neg hbad] at hrun
    obtain rfl := Option.some.inj hrun
    have hname : cluster ≠ cluster ++ ";" := by
      intro heq
      have := congrArg String.length heq
      rw [String.length_append] at this
      have hlen : (";" : String).length = 1 := rfl
      omega
    have hunseen : ∀ t : List ResvRow, rowsOf id cluster
        (update (fun r => r.deleted = 0 ∧ r.id = resv.id ∧ r.start = resv.timeStart ∧
          r.cluster = cluster ++ ";") (fun r =>
            { r with «end» := resv.timeStartPrev, deleted := 1 }) t) =
        rowsOf id cluster t := by
      intro t
      rw [rowsOf_update]
      · refine update_eq_self fun r hr hcond => hname ?_
        exact (mem_rowsOf.mp hr).2.2.symm.trans hcond.2.2.2
      · exact fun _ => rfl
      · exact fun _ => rfl
    rw [hunseen]
    unfold rowsOf
    rw [List.filter_filter, List.filter_filter]
    refine List.filter_congr fun r _ => ?_
    by_cases hr : r.id = id ∧ r.cluster = cluster
    · simp [hr, hid]
    · simp [hr]

theorem OneRow.remove (h : OneRow id cluster s) (hok : CallOk s (.remove resv)) :
    OneRow id cluster (next s (.remove resv)) := by
  show OneRow id cluster (match removeReservation resv s.rows with
    | none => s
    | some rows => ⟨rows, planRemove resv s.plan⟩)
  cases hrun : removeReservation resv s.rows with
  | none => exact h
  | some t' =>
    have hrows' := rowsOf_remove hid hcluster hrun
    unfold OneRow at h ⊢
    simp only
    cases hplan : s.plan with
    | none =>
      rw [hplan] at h
      simp only at h
      simp only [planRemove, Option.bind_none]
      rw [hrows', h]
      rfl
    | some p =>
      rw [hplan] at h
      obtain ⟨hpast, r, hrows, hdel, hvalues, hrs, hre⟩ := h
      obtain ⟨hr, hri, hrc⟩ := mem_rowsOf.mp (hrows ▸ List.mem_singleton_self r)
      have hlater : r.start = resv.timeStart → r.start > resv.timeStartPrev :=
        hok r hr (hri.trans hid.symm) (by rw [hrc]; exact hcluster.symm)
      rw [hrows] at hrows'
      simp only [planRemove, Option.bind_some]
      rw [← hrs]
      by_cases hstart : r.start = resv.timeStart
      · rw [if_neg (not_not_intro hstart), if_pos (hlater hstart)]
        simp only
        rw [hrows', List.filter_singleton]
        simp [hstart, hstart ▸ hlater hstart]
      · rw [if_pos hstart]
        refine ⟨hpast, r, ?_, hdel, hvalues, hrs, hre⟩
        rw [hrows', List.filter_singleton]
        simp [hstart]

end Run

/-! ## Runs -/

/-- The table and what is meant after some calls. -/
def after (calls : List Call) (s : State) : State := calls.foldl next s

/-- A call for one reservation. -/
def Call.isFor (id : Nat) (cluster : String) (call : Call) : Prop :=
  call.resv.id = id ∧ call.resv.cluster = some cluster

theorem OneRow.next {id : Nat} {cluster : String} {s : State} {call : Call}
    (h : OneRow id cluster s) (hfor : call.isFor id cluster) (hok : CallOk s call) :
    OneRow id cluster (next s call) := by
  cases call with
  | add resv => exact h.add hfor.1 hfor.2 hok
  | modify now resv => exact h.modify hfor.1 hfor.2 hok
  | remove resv => exact h.remove hfor.1 hfor.2 hok

theorem OneRow.run {id : Nat} {cluster : String} {calls : List Call} :
    ∀ {s : State}, OneRow id cluster s → (∀ call ∈ calls, call.isFor id cluster) →
      Guarded step CallOk s calls → OneRow id cluster (after calls s) := by
  induction calls with
  | nil => exact fun h _ _ => h
  | cons call calls ih =>
    intro s h hfor hguard
    refine ih (h.next (hfor call List.mem_cons_self) hguard.1)
      (fun c hc => hfor c (List.mem_cons_of_mem _ hc)) (hguard.2 _ rfl)

/-- In a history that needs one row of the reservation at a time only, the rows tell
what is meant after every call, and a removal leaves no live row at its start. -/
theorem reservation_run {id : Nat} {cluster : String} {t : List ResvRow} {calls : List Call}
    (hnew : rowsOf id cluster t = []) (hfor : ∀ call ∈ calls, call.isFor id cluster)
    (hguard : Guarded step CallOk ⟨t, none⟩ calls) :
    Told id cluster (after calls ⟨t, none⟩) ∧
      ∀ earlier resv t', calls = earlier ++ [.remove resv] →
        removeReservation resv (after earlier ⟨t, none⟩).rows = some t' →
        ∀ r ∈ rowsOf id cluster t', r.start = resv.timeStart → r.deleted ≠ 0 := by
  have hstart : OneRow id cluster ⟨t, none⟩ := hnew
  refine ⟨(hstart.run hfor hguard).told, ?_⟩
  rintro earlier resv t' rfl hrun r hr hrs
  obtain ⟨hearlier, hlast⟩ := guarded_append next (fun _ _ => rfl) hguard
  have hresv := hfor (.remove resv) (List.mem_append_right _ List.mem_cons_self)
  rw [rowsOf_remove hresv.1 hresv.2 hrun, List.mem_filter] at hr
  obtain ⟨hmem, hri, hrc⟩ := mem_rowsOf.mp hr.1
  have hlater := hlast.1 r hmem (hri.trans hresv.1.symm) (by rw [hrc]; exact hresv.2.symm) hrs
  exact absurd ⟨hlater, hrs⟩ (of_decide_eq_true hr.2)

/-- A reservation that is added and removed before it begins. -/
def cancelled : List Call :=
  [.add { id := 1, cluster := some "tux", cpus := some 4, timeStart := 10, timeEnd := 20 },
    .modify 5
      { id := 1, cluster := some "tux", cpus := some 8, timeStart := 12, timeStartPrev := 10 },
    .remove { id := 1, cluster := some "tux", timeStart := 12, timeStartPrev := 6 }]

theorem reservation_run_cancelled : Told 1 "tux" (after cancelled ⟨[], none⟩) := by
  have hguard : Guarded step CallOk ⟨[], none⟩ cancelled := by
    refine ⟨fun r hr => (by cases hr), fun s hs => ⟨fun r hr _ _ _ _ hbegun => ?_, fun s' hs' =>
      ⟨fun r hr _ _ _ => ?_, fun _ _ => trivial⟩⟩⟩
    · obtain rfl := Option.some.inj hs
      have hall : ∀ r ∈ (next ⟨[], none⟩ cancelled[0]).rows, r.start = 10 := by decide +kernel
      have := hall r hr
      omega
    · obtain rfl := Option.some.inj hs
      obtain rfl := Option.some.inj hs'
      have hall : ∀ r ∈ (next (next ⟨[], none⟩ cancelled[0]) cancelled[1]).rows, r.start = 12 := by
        decide +kernel
      have := hall r hr
      show r.start > 6
      omega
  exact (reservation_run rfl (by unfold Call.isFor; decide) hguard).1

/-- A reservation whose processors change while it runs: one second belongs to no
row. -/
def changed : List Call :=
  [.add { id := 1, cluster := some "tux", cpus := some 4, timeStart := 10, timeEnd := 20 },
    .modify 15
      { id := 1, cluster := some "tux", cpus := some 8, timeStart := 15, timeStartPrev := 10 }]

theorem reservation_changed :
    ¬∀ (id : Nat) (cluster : String) (t : List ResvRow) (calls : List Call),
      rowsOf id cluster t = [] → (∀ call ∈ calls, call.isFor id cluster) →
      Told id cluster (after calls ⟨t, none⟩) := by
  intro hall
  have htold := hall 1 "tux" [] changed rfl (by unfold Call.isFor; decide)
  have hrows : rowsOf 1 "tux" (after changed ⟨[], none⟩).rows =
      [{ id := 1, cluster := "tux", cpus := 4, start := 10, «end» := 14 },
        { id := 1, cluster := "tux", cpus := 8, start := 15, «end» := 20 }] := by decide +kernel
  have hcover := htold.cover 14
  rw [hrows] at hcover
  obtain ⟨r, hr, hcovers⟩ := hcover ⟨_, List.mem_cons_self, by decide⟩
    ⟨_, List.mem_cons_of_mem _ List.mem_cons_self, by decide⟩
  unfold ResvRow.Covers at hcovers
  simp only [List.mem_cons, List.not_mem_nil, or_false] at hr
  obtain rfl | rfl := hr
  · simp only at hcovers
    omega
  · simp only at hcovers
    omega

end Slurm.ResvTable
