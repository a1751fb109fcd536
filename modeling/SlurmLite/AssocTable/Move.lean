import SlurmLite.Base.NestedSets

/-!
# The association table and its moves

The rows of the association table keep one tree for each cluster as nested
intervals. `_move_account` puts a branch first below another account with six
updates over all rows and a temporary mark, `_move_parent` first takes the new
parent out of the branch that is to hang below it.

* **Rows** (`Row`, `WellFormed`): what the indexes of the table promise, and the
  trees that its intervals are.
* **Moves** (`moveAccount`, `moveParent`): statement by statement.
* **What they do** (`moveAccount_moved`, `moveParent_spec`): one account changes its
  parent, every row keeps its other columns.

Names are held in lower case, as the table and `strcasecmp` compare them, and
positions are integers without bound.
-/

namespace Slurm.AssocTable

open Base.NestedSets

/-- What names an association. -/
structure Entry where
  id : Nat
  user : String := ""
  acct : String
  cluster : String
  partition : String := ""
  creationTime : Int := 0
deriving DecidableEq

/-- The limits of an association, `none` for `NULL`. -/
structure Limits where
  fairshare : Int := 1
  maxJobs : Option Int := none
  maxSubmitJobs : Option Int := none
  maxCpusPerJob : Option Int := none
  maxNodesPerJob : Option Int := none
  maxWallDurationPerJob : Option Int := none
  maxCpuMinsPerJob : Option Int := none
  qos : String := ""
  deltaQos : String := ""
deriving DecidableEq

/-- A row of `assoc_table`. -/
structure Row extends Entry, Limits where
  modTime : Int := 0
  deleted : Nat := 0
  parentAcct : String := ""
  lft : Int
  rgt : Int
deriving DecidableEq

/-- The rows in the order the server keeps them. -/
abbrev Table := List Row

def Row.span (r : Row) : Span := ⟨r.lft, r.rgt⟩

@[simp] theorem Row.span_lft (r : Row) : r.span.lft = r.lft := rfl
@[simp] theorem Row.span_rgt (r : Row) : r.span.rgt = r.rgt := rfl

/-- The intervals of the rows. -/
def spans (t : Table) : List Span := t.map Row.span

/-- An update of one row. -/
def stmt (cond : Row → Prop) [DecidablePred cond] (set : Row → Row) (r : Row) : Row :=
  if cond r then set r else r

/-- `UPDATE … SET … WHERE …`. -/
def update (cond : Row → Prop) [DecidablePred cond] (set : Row → Row) (t : Table) : Table :=
  t.map (stmt cond set)

/-! ## The moves -/

/-- The updates of `_move_account`. -/
def moveRows (lft rgt : Int) (id : Nat) (parent : String) (now parLeft diff width : Int)
    (t : Table) : Table :=
  let t := update (fun r => lft ≤ r.lft ∧ r.lft ≤ rgt)
    (fun r => { r with
      modTime := now
      deleted := r.deleted + 2
      lft := r.lft + diff
      rgt := r.rgt + diff }) t
  let t := update (fun r => r.rgt > parLeft ∧ r.deleted < 2)
    (fun r => { r with modTime := now, rgt := r.rgt + width }) t
  let t := update (fun r => r.lft > parLeft ∧ r.deleted < 2)
    (fun r => { r with modTime := now, lft := r.lft + width }) t
  let t := update (fun r => (diff < 0 ∧ r.rgt > rgt ∧ r.deleted < 2) ∨ (diff > 0 ∧ r.rgt > lft))
    (fun r => { r with modTime := now, rgt := r.rgt - width }) t
  let t := update (fun r => (diff < 0 ∧ r.lft > rgt ∧ r.deleted < 2) ∨ (diff > 0 ∧ r.lft > lft))
    (fun r => { r with modTime := now, lft := r.lft - width }) t
  let t := update (fun r => r.deleted > 1)
    (fun r => { r with modTime := now, deleted := r.deleted - 2 }) t
  update (fun r => r.id = id) (fun r => { r with modTime := now, parentAcct := parent }) t

/-- `_move_account`. -/
def moveAccount (lft rgt : Int) (cluster : String) (id : Nat) (parent : String) (now : Int)
    (t : Table) : Table :=
  match t.find? fun r => r.cluster = cluster ∧ r.acct = parent ∧ r.user = "" with
  | none => t
  | some row =>
    let parLeft := row.lft
    let diff := parLeft + 1 - lft
    if diff = 0 then t
    else moveRows lft rgt id parent now parLeft diff (rgt - lft + 1) t

/-- The rows of a query in the order of `lft`. -/
def orderByLft (t : Table) : Table := t.insertionSort fun r s => r.lft ≤ s.lft

/-- The accounts of one name that begin within an interval. -/
def accountsWithin (lft rgt : Int) (acct : String) (t : Table) : Table :=
  orderByLft (t.filter fun r => (lft ≤ r.lft ∧ r.lft ≤ rgt) ∧ r.acct = acct ∧ r.user = "")

/-- `_move_parent`, with whether it succeeds. -/
def moveParent (lft rgt : Int) (cluster : String) (id : Nat) (oldParent newParent : String)
    (now : Int) (t : Table) : Table × Bool :=
  let t :=
    match accountsWithin lft rgt newParent t with
    | [] => t
    | row :: _ => moveAccount row.lft row.rgt cluster row.id oldParent now t
  match t.find? fun r => r.id = id with
  | none => (t, false)
  | some row => (moveAccount row.lft row.rgt cluster id newParent now t, true)

/-! ## Well-formed tables -/

/-- Two rows are not one account twice. -/
def OneAccount (r s : Row) : Prop :=
  r.user = "" → s.user = "" → r.acct = s.acct → r.cluster ≠ s.cluster

/-- What the keys of the table promise, and the trees of the clusters. -/
structure WellFormed (t : Table) : Prop where
  ids : (t.map fun r => r.id).Nodup
  accounts : t.Pairwise OneAccount
  nested : Nested (spans t)
  clusters : ∀ r ∈ t, ∀ s ∈ t, Inside r.span s.span → r.cluster = s.cluster
  flags : ∀ r ∈ t, r.deleted < 2

instance (r s : Row) : Decidable (OneAccount r s) :=
  inferInstanceAs (Decidable (_ → _ → _ → _))

instance (t : Table) : Decidable (WellFormed t) :=
  decidable_of_iff ((t.map fun r => r.id).Nodup ∧ t.Pairwise OneAccount ∧ Nested (spans t) ∧
      (∀ r ∈ t, ∀ s ∈ t, Inside r.span s.span → r.cluster = s.cluster) ∧ ∀ r ∈ t, r.deleted < 2)
    ⟨fun h => ⟨h.1, h.2.1, h.2.2.1, h.2.2.2.1, h.2.2.2.2⟩,
      fun h => ⟨h.1, h.2, h.3, h.4, h.5⟩⟩

/-- All columns but the position, the time stamp and the name of the parent. -/
structure Row.SameBut (r s : Row) : Prop where
  entry : s.toEntry = r.toEntry
  limits : s.toLimits = r.toLimits
  deleted : s.deleted = r.deleted

/-- An update of one end of a row, `col`, that puts in the time stamp. -/
theorem stmt_col {cond : Row → Prop} [DecidablePred cond] {c : Prop} [Decidable c] {now : Int}
    {f : Int → Int} {col : Row → Int} {set : Int → Int → Row → Row} {r : Row}
    (hset : set r.modTime (col r) r = r) (h : cond r ↔ c) :
    ∃ m, stmt cond (fun r => set now (f (col r)) r) r =
      set m (if c then f (col r) else col r) r := by
  unfold stmt
  by_cases hc : c
  · exact ⟨now, by rw [if_pos (h.mpr hc), if_pos hc]⟩
  · exact ⟨r.modTime, by rw [if_neg fun hr => hc (h.mp hr), if_neg hc, hset]⟩

theorem stmt_neg {cond : Row → Prop} [DecidablePred cond] {set : Row → Row} {r : Row}
    (h : ¬cond r) : stmt cond set r = r := if_neg h

/-- The updates of `_move_account` on one row. -/
def moveRow (lft rgt : Int) (id : Nat) (parent : String) (now parLeft diff width : Int)
    (r : Row) : Row :=
  (moveRows lft rgt id parent now parLeft diff width [r]).headD r

theorem moveRows_eq_map (lft rgt : Int) (id : Nat) (parent : String) (now parLeft diff width : Int)
    (t : Table) :
    moveRows lft rgt id parent now parLeft diff width t =
      t.map (moveRow lft rgt id parent now parLeft diff width) := by
  unfold moveRow moveRows update
  simp only [List.map_map, List.map_cons, List.map_nil, List.headD_cons]
  rfl

theorem moveRow_in {lft rgt now parLeft diff width : Int} {id : Nat} {parent : String} {r : Row}
    (hin : lft ≤ r.lft ∧ r.lft ≤ rgt) (hr : r.lft < r.rgt) :
    moveRow lft rgt id parent now parLeft diff width r =
      { r with
        lft := r.lft + diff - (if diff > 0 then width else 0)
        rgt := r.rgt + diff - (if diff > 0 then width else 0)
        modTime := now
        parentAcct := if r.id = id then parent else r.parentAcct } := by
  obtain ⟨e, l, m, d, p, a, b⟩ := r
  simp only at hin hr
  have hmark : ¬d + 2 < 2 := by omega
  have hmark' : d + 2 > 1 := by omega
  unfold moveRow moveRows update
  simp only [List.map_cons, List.map_nil, List.headD_cons]
  by_cases hd : diff > 0
  · have h1 : b + diff > lft := by omega
    have h2 : a + diff > lft := by omega
    simp only [stmt, hin, and_self, hmark, hmark', and_false, if_false, hd, h1, h2, or_true,
      if_pos, Nat.add_sub_cancel]
    split <;> rfl
  · simp only [stmt, hin, and_self, if_true, hmark, hmark', and_false, if_false, hd, false_and,
      or_false, Nat.add_sub_cancel, sub_zero]
    split <;> rfl

/-- The room of a branch is given up behind its old place, room made or not. -/
theorem giveUp_iff {lft rgt parLeft e : Int} {d : Nat} (hlr : lft < rgt) (hd : d < 2)
    (he : e < lft ∨ rgt < e)
    (hdiff : parLeft + 1 - lft ≠ 0) :
    ((parLeft + 1 - lft < 0 ∧ (if e > parLeft then e + (rgt - lft + 1) else e) > rgt ∧ d < 2) ∨
      (parLeft + 1 - lft > 0 ∧ (if e > parLeft then e + (rgt - lft + 1) else e) > lft)) ↔
    e > lft := by
  split <;> omega

theorem moveRow_out {lft rgt now parLeft : Int} {id : Nat} {parent : String} {r : Row}
    (hlr : lft < rgt) (hl : r.lft < lft ∨ rgt < r.lft) (hr : r.rgt < lft ∨ rgt < r.rgt)
    (hdel : r.deleted < 2) (hdiff : parLeft + 1 - lft ≠ 0) :
    ∃ m, moveRow lft rgt id parent now parLeft (parLeft + 1 - lft) (rgt - lft + 1) r =
      { r with
        lft := shiftOut ⟨lft, rgt⟩ ⟨parLeft, rgt⟩ r.lft
        rgt := shiftOut ⟨lft, rgt⟩ ⟨parLeft, rgt⟩ r.rgt
        modTime := m
        parentAcct := if r.id = id then parent else r.parentAcct } := by
  obtain ⟨e, l, m, d, p, a, b⟩ := r
  simp only at hl hr hdel
  unfold moveRow moveRows update
  simp only [List.map_cons, List.map_nil, List.headD_cons]
  rw [stmt_neg (r := ⟨e, l, m, d, p, a, b⟩) (by simp only; omega)]
  -- room is made behind `parLeft`, then given up behind the old place
  obtain ⟨m₁, h₁⟩ := @stmt_col (fun r => r.rgt > parLeft ∧ r.deleted < 2) _ (b > parLeft) _ now
    (fun b => b + (rgt - lft + 1)) Row.rgt (fun m b r => { r with modTime := m, rgt := b })
    ⟨e, l, m, d, p, a, b⟩ rfl (by simp only; omega)
  rw [h₁]
  obtain ⟨m₂, h₂⟩ := @stmt_col (fun r => r.lft > parLeft ∧ r.deleted < 2) _ (a > parLeft) _ now
    (fun a => a + (rgt - lft + 1)) Row.lft (fun m a r => { r with modTime := m, lft := a })
    ⟨e, l, m₁, d, p, a, if b > parLeft then b + (rgt - lft + 1) else b⟩ rfl (by simp only; omega)
  rw [h₂]
  obtain ⟨m₃, h₃⟩ := @stmt_col
    (fun r => (parLeft + 1 - lft < 0 ∧ r.rgt > rgt ∧ r.deleted < 2) ∨
      (parLeft + 1 - lft > 0 ∧ r.rgt > lft)) _ (b > lft) _ now (fun b => b - (rgt - lft + 1))
    Row.rgt (fun m b r => { r with modTime := m, rgt := b })
    ⟨e, l, m₂, d, p, if a > parLeft then a + (rgt - lft + 1) else a,
      if b > parLeft then b + (rgt - lft + 1) else b⟩ rfl (giveUp_iff hlr hdel hr hdiff)
  rw [h₃]
  obtain ⟨m₄, h₄⟩ := @stmt_col
    (fun r => (parLeft + 1 - lft < 0 ∧ r.lft > rgt ∧ r.deleted < 2) ∨
      (parLeft + 1 - lft > 0 ∧ r.lft > lft)) _ (a > lft) _ now (fun a => a - (rgt - lft + 1))
    Row.lft (fun m a r => { r with modTime := m, lft := a })
    ⟨e, l, m₃, d, p, if a > parLeft then a + (rgt - lft + 1) else a,
      if b > lft then (if b > parLeft then b + (rgt - lft + 1) else b) - (rgt - lft + 1)
      else if b > parLeft then b + (rgt - lft + 1) else b⟩ rfl (giveUp_iff hlr hdel hl hdiff)
  rw [h₄, @stmt_neg (fun r => r.deleted > 1) _ _ _ (by simp only; omega)]
  have hend : ∀ x : Int, (if x > lft then (if x > parLeft then x + (rgt - lft + 1) else x) -
        (rgt - lft + 1) else if x > parLeft then x + (rgt - lft + 1) else x) =
      shiftOut ⟨lft, rgt⟩ ⟨parLeft, rgt⟩ x := by
    intro x
    unfold shiftOut Base.NestedSets.width
    by_cases h1 : lft < x <;> by_cases h2 : parLeft < x <;>
      simp only [gt_iff_lt, h1, h2, if_true, if_false] <;> omega
  simp only [hend]
  unfold stmt
  split
  · exact ⟨now, rfl⟩
  · exact ⟨m₄, rfl⟩

/-! ## Rows and their intervals -/

/-- A row lies directly below another one. -/
def Below (t : Table) (r s : Row) : Prop := Under (spans t) r.span s.span

instance (t : Table) (r s : Row) : Decidable (Below t r s) :=
  inferInstanceAs (Decidable (Under _ _ _))

section Rows

variable {t : Table} {r s : Row}

theorem mem_spans (hr : r ∈ t) : r.span ∈ spans t := List.mem_map_of_mem hr

theorem WellFormed.span_inj (h : WellFormed t) (hr : r ∈ t) (hs : s ∈ t)
    (heq : r.span = s.span) : r = s :=
  List.inj_on_of_nodup_map h.nested.nodup hr hs heq

theorem WellFormed.lft_lt_rgt (h : WellFormed t) (hr : r ∈ t) : r.lft < r.rgt :=
  h.nested.proper r.span (mem_spans hr)

theorem OneAccount.symm (h : OneAccount r s) : OneAccount s r :=
  fun hs hr hacct hcluster => h hr hs hacct.symm hcluster.symm

theorem WellFormed.account_eq (h : WellFormed t) (hr : r ∈ t) (hs : s ∈ t) (hru : r.user = "")
    (hsu : s.user = "") (hacct : r.acct = s.acct) (hcluster : r.cluster = s.cluster) : r = s := by
  by_contra hne
  have hsym : Std.Symm OneAccount := ⟨fun _ _ => OneAccount.symm⟩
  exact h.accounts.forall hr hs hne hru hsu hacct hcluster

theorem WellFormed.find_account (h : WellFormed t) (hr : r ∈ t) (hru : r.user = "") :
    (t.find? fun s => s.cluster = r.cluster ∧ s.acct = r.acct ∧ s.user = "") = some r := by
  cases hfind : t.find? fun s => s.cluster = r.cluster ∧ s.acct = r.acct ∧ s.user = "" with
  | none =>
    have := List.find?_eq_none.mp hfind r hr
    simp [hru] at this
  | some s =>
    have hs := List.find?_some hfind
    simp only [decide_eq_true_eq] at hs
    rw [h.account_eq (List.mem_of_find?_eq_some hfind) hr hs.2.2 hru hs.2.1 hs.1]

theorem WellFormed.find_id (h : WellFormed t) (hr : r ∈ t) :
    (t.find? fun s => s.id = r.id) = some r := by
  cases hfind : t.find? fun s => s.id = r.id with
  | none =>
    have := List.find?_eq_none.mp hfind r hr
    simp at this
  | some s =>
    have hs := List.find?_some hfind
    simp only [decide_eq_true_eq] at hs
    rw [List.inj_on_of_nodup_map h.ids (List.mem_of_find?_eq_some hfind) hr hs]

end Rows

/-! ## One account moved -/

/-- The rows after a branch was put first below another row. -/
structure Moved (a q : Row) (id : Nat) (t : Table) (f : Row → Row) : Prop where
  same : ∀ r ∈ t, Row.SameBut r (f r)
  span : ∀ r ∈ t, (f r).span = relocate a.span q.span r.span
  parent : ∀ r ∈ t, r.id ≠ id → (f r).parentAcct = r.parentAcct
  name : a.lft ≠ q.lft + 1 → ∀ r ∈ t, r.id = id → (f r).parentAcct = q.acct

theorem moveAccount_moved {t : Table} {a q : Row} (h : WellFormed t) (ha : a ∈ t) (hq : q ∈ t)
    (hqu : q.user = "") (hqa : ¬Branch a.span q.span) (id : Nat) (now : Int) :
    ∃ f, moveAccount a.lft a.rgt q.cluster id q.acct now t = t.map f ∧ Moved a q id t f := by
  have hal := mem_spans ha
  have hql := mem_spans hq
  have halr := h.lft_lt_rgt ha
  unfold moveAccount
  rw [h.find_account hq hqu]
  simp only
  -- already the first below `q`: the statement is left out
  by_cases hdiff : q.lft + 1 - a.lft = 0
  · rw [if_pos hdiff]
    refine ⟨fun r => r, (List.map_id'' (fun _ => rfl) t).symm, ?_, ?_, fun r _ _ => rfl, ?_⟩
    · exact fun r _ => ⟨rfl, rfl, rfl⟩
    · intro r hr
      have hfirst : q.span.lft + 1 = a.span.lft := by
        simp only [Row.span_lft]
        omega
      exact (relocate_first h.nested hal (mem_spans hr) hfirst).symm
    · exact fun hne => absurd (by omega) hne
  · rw [if_neg hdiff, moveRows_eq_map]
    -- each row by itself: it moves along, or it makes room
    have hrow : ∀ r ∈ t, ∃ m, moveRow a.lft a.rgt id q.acct now q.lft (q.lft + 1 - a.lft)
        (a.rgt - a.lft + 1) r =
        { r with
          lft := (relocate a.span q.span r.span).lft
          rgt := (relocate a.span q.span r.span).rgt
          modTime := m
          parentAcct := if r.id = id then q.acct else r.parentAcct } := by
      intro r hr
      have hrl := mem_spans hr
      unfold relocate
      by_cases hbr : Branch a.span r.span
      · have hin := (h.nested.branch_iff hal hrl).mp hbr
        have hq' := clear_target h.nested hal hql hqa
        simp only [Row.span_lft, Row.span_rgt] at hin
        refine ⟨now, ?_⟩
        rw [moveRow_in hin (h.lft_lt_rgt hr), if_pos hbr]
        simp only [Span.map, shiftIn, Base.NestedSets.width, Clear, Row.span] at hq' ⊢
        have hsign : (if q.lft + 1 - a.lft > 0 then a.rgt - a.lft + 1 else 0) =
            if a.lft < q.lft then a.rgt - a.lft + 1 else 0 := by
          split <;> split <;> omega
        rw [hsign]
        rfl
      · have hout := h.nested.outside hal hrl hbr
        obtain ⟨m, hm⟩ := @moveRow_out a.lft a.rgt now q.lft id q.acct r halr hout.1 hout.2
          (h.flags r hr) hdiff
        refine ⟨m, ?_⟩
        rw [hm, if_neg hbr]
        rfl
    refine ⟨_, rfl, ?_, ?_, ?_, ?_⟩
    · intro r hr
      obtain ⟨m, hm⟩ := hrow r hr
      rw [hm]
      exact ⟨rfl, rfl, rfl⟩
    · intro r hr
      obtain ⟨m, hm⟩ := hrow r hr
      rw [hm]
      rfl
    · intro r hr hne
      obtain ⟨m, hm⟩ := hrow r hr
      rw [hm]
      exact if_neg hne
    · intro _ r hr hid
      obtain ⟨m, hm⟩ := hrow r hr
      rw [hm]
      exact if_pos hid

section Moved

variable {t : Table} {a q : Row} {id : Nat} {f : Row → Row}
variable (h : WellFormed t) (ha : a ∈ t) (hq : q ∈ t) (hqa : ¬Branch a.span q.span)
variable (hf : Moved a q id t f)

theorem Moved.spans_eq (hf : Moved a q id t f) :
    spans (t.map f) = (spans t).map (relocate a.span q.span) := by
  unfold spans
  rw [List.map_map, List.map_map]
  exact List.map_congr_left hf.span

include h ha hq hqa hf

/-- After the move the account is directly below `q`, every other row where it was. -/
theorem Moved.below {r s : Row} (hr : r ∈ t) (hs : s ∈ t) :
    Below (t.map f) (f r) (f s) ↔ if r = a then s = q else Below t r s := by
  unfold Below
  rw [hf.spans_eq, hf.span r hr, hf.span s hs,
    under_relocate h.nested (mem_spans ha) (mem_spans hq) hqa (mem_spans hr) (mem_spans hs)]
  by_cases hra : r = a
  · rw [if_pos hra, if_pos (congrArg Row.span hra)]
    exact ⟨h.span_inj hs hq, congrArg Row.span⟩
  · rw [if_neg hra, if_neg fun heq => hra (h.span_inj hr ha heq)]

theorem Moved.inside {r s : Row} (hr : r ∈ t) (hs : s ∈ t) :
    Inside (f r).span (f s).span ↔
      if Branch a.span r.span ∧ ¬Branch a.span s.span then s = q ∨ Inside q.span s.span
      else Inside r.span s.span := by
  rw [hf.span r hr, hf.span s hs,
    inside_relocate h.nested (mem_spans ha) (mem_spans hq) hqa (mem_spans hr) (mem_spans hs)]
  have hsq : s.span = q.span ↔ s = q := ⟨h.span_inj hs hq, congrArg Row.span⟩
  rw [hsq]

/-- A move keeps the table well formed. -/
theorem Moved.wellFormed (hcluster : q.cluster = a.cluster) : WellFormed (t.map f) := by
  have hentry : ∀ r ∈ t, (f r).toEntry = r.toEntry := fun r hr => (hf.same r hr).entry
  constructor
  · rw [List.map_map]
    have hids : t.map ((fun r : Row => r.id) ∘ f) = t.map fun r => r.id :=
      List.map_congr_left fun r hr => congrArg Entry.id (hentry r hr)
    rw [hids]
    exact h.ids
  · refine List.pairwise_map.mpr (h.accounts.imp_of_mem ?_)
    intro r s hr hs hone
    unfold OneAccount
    rw [hentry r hr, hentry s hs]
    exact hone
  · rw [hf.spans_eq]
    exact nested_relocate h.nested (mem_spans ha) (mem_spans hq) hqa
  · intro r' hr' s' hs' hin
    obtain ⟨r, hr, rfl⟩ := List.mem_map.mp hr'
    obtain ⟨s, hs, rfl⟩ := List.mem_map.mp hs'
    rw [hentry r hr, hentry s hs]
    rw [hf.inside h ha hq hqa hr hs] at hin
    by_cases hcut : Branch a.span r.span ∧ ¬Branch a.span s.span
    · rw [if_pos hcut] at hin
      have hra : r.cluster = a.cluster := by
        obtain heq | hra := hcut.1
        · rw [h.span_inj hr ha heq]
        · exact h.clusters r hr a ha hra
      obtain rfl | hqs := hin
      · rw [hra, hcluster]
      · rw [hra, ← hcluster, h.clusters q hq s hs hqs]
    · rw [if_neg hcut] at hin
      exact h.clusters r hr s hs hin
  · intro r' hr'
    obtain ⟨r, hr, rfl⟩ := List.mem_map.mp hr'
    rw [(hf.same r hr).deleted]
    exact h.flags r hr

end Moved

/-! ## Moves to a new parent -/

theorem mem_orderByLft {t : Table} {r : Row} : r ∈ orderByLft t ↔ r ∈ t :=
  (List.perm_insertionSort _ t).mem_iff

theorem orderByLft_eq_nil {t : Table} : orderByLft t = [] ↔ t = [] := by
  rw [List.eq_nil_iff_forall_not_mem, List.eq_nil_iff_forall_not_mem]
  exact forall_congr' fun r => not_congr mem_orderByLft

/-- What is around a row is not in the branch of what is below the row. -/
theorem not_branch_around {q x p : Span} (hin : Inside q x) (hxp : Inside x p) : ¬Branch q p := by
  rintro (heq | hpq)
  · rw [← heq] at hin
    exact hin.not_symm hxp
  · exact hin.not_symm (hxp.trans hpq)

/-- Once the new parent was put beside the row, the row is not around it. -/
theorem not_branch_moved {t : Table} {x p q : Row} {f : Row → Row} (h : WellFormed t) (hx : x ∈ t)
    (hq : q ∈ t) (hqx : q ≠ x) (hqp : ¬Branch q.span p.span) (hp : p ∈ t)
    (hxp : Inside x.span p.span) (hf : Moved q p q.id t f) :
    ¬Branch (f x).span (f q).span := by
  rintro (heq | hqx')
  · rw [hf.span q hq, hf.span x hx] at heq
    have := relocate_inj h.nested (mem_spans hq) (mem_spans hp) hqp (mem_spans hq)
      (mem_spans hx) heq
    exact hqx (h.span_inj hq hx this)
  · rw [hf.inside h hq hp hqp hq hx] at hqx'
    by_cases hcut : Branch q.span q.span ∧ ¬Branch q.span x.span
    · rw [if_pos hcut] at hqx'
      obtain rfl | hpx := hqx'
      · exact not_inside_self _ hxp
      · exact hxp.not_symm hpx
    · rw [if_neg hcut] at hqx'
      refine hcut ⟨Or.inl rfl, ?_⟩
      rintro (heq | hxq)
      · exact hqx (h.span_inj hq hx heq.symm)
      · exact hxq.not_symm hqx'

section NewParent

variable {t : Table} {x q : Row} (h : WellFormed t) (hx : x ∈ t) (hq : q ∈ t)
variable (hqu : q.user = "") (hqc : q.cluster = x.cluster)
include h hx hq hqu hqc

/-- Within the interval of a row its new parent is what is found by name. -/
theorem mem_accountsWithin_iff (hqx : q ≠ x) {r : Row} :
    r ∈ accountsWithin x.lft x.rgt q.acct t ↔ r = q ∧ Inside q.span x.span := by
  have hbranch : ∀ r ∈ t, (Branch x.span r.span ↔ x.lft ≤ r.lft ∧ r.lft ≤ x.rgt) :=
    fun r hr => h.nested.branch_iff (mem_spans hx) (mem_spans hr)
  unfold accountsWithin
  rw [mem_orderByLft, List.mem_filter]
  simp only [decide_eq_true_eq]
  constructor
  · rintro ⟨hr, hin, hacct, hru⟩
    have hbr := (hbranch r hr).mpr hin
    have hcluster : r.cluster = q.cluster := by
      rw [hqc]
      obtain heq | hrx := hbr
      · rw [h.span_inj hr hx heq]
      · exact h.clusters r hr x hx hrx
    have hrq := h.account_eq hr hq hru hqu hacct hcluster
    subst hrq
    exact ⟨rfl, hbr.resolve_left fun heq => hqx (h.span_inj hr hx heq)⟩
  · rintro ⟨rfl, hin⟩
    exact ⟨hq, (hbranch r hq).mp (Or.inr hin), rfl, hqu⟩

/-- A move of a row whose new parent is neither found in the given interval nor
in its branch. -/
theorem moveParent_miss {lft rgt : Int} (hnone : ∀ r, r ∉ accountsWithin lft rgt q.acct t)
    (hqb : ¬Branch x.span q.span) (oldParent : String) (now : Int) :
    ∃ f, moveParent lft rgt x.cluster x.id oldParent q.acct now t = (t.map f, true) ∧
      Moved x q x.id t f := by
  obtain ⟨f, hf, hmoved⟩ := moveAccount_moved h hx hq hqu hqb x.id now
  refine ⟨f, ?_, hmoved⟩
  unfold moveParent
  rw [List.eq_nil_iff_forall_not_mem.mpr hnone]
  simp only
  rw [h.find_id hx, ← hqc]
  exact congrArg (fun t => (t, true)) hf

/-- A move of a row whose new parent is found in the given interval: that one
first takes the place beside the row. -/
theorem moveParent_hit {lft rgt : Int} (hrow : ∀ r, r ∈ accountsWithin lft rgt q.acct t ↔ r = q)
    {p : Row} (hqx : q ≠ x) (hp : p ∈ t) (hpu : p.user = "") (hqp : ¬Branch q.span p.span)
    (hxp : Inside x.span p.span) (now : Int) :
    ∃ f g, moveParent lft rgt x.cluster x.id p.acct q.acct now t = ((t.map f).map g, true) ∧
      Moved q p q.id t f ∧ WellFormed (t.map f) ∧ Moved (f x) (f q) x.id (t.map f) g := by
  have hpc : p.cluster = x.cluster := (h.clusters x hx p hp hxp).symm
  obtain ⟨f, hf, hmoved⟩ := moveAccount_moved h hq hp hpu hqp q.id now
  have h' : WellFormed (t.map f) := hmoved.wellFormed h hq hp hqp (hpc.trans hqc.symm)
  have hfx : f x ∈ t.map f := List.mem_map_of_mem hx
  have hfq : f q ∈ t.map f := List.mem_map_of_mem hq
  have hxid : (f x).id = x.id := congrArg Entry.id (hmoved.same x hx).entry
  have hqe : (f q).toEntry = q.toEntry := (hmoved.same q hq).entry
  have hqb := not_branch_moved h hx hq hqx hqp hp hxp hmoved
  obtain ⟨g, hg, hmoved'⟩ := moveAccount_moved h' hfx hfq (by rw [hqe]; exact hqu) hqb x.id now
  refine ⟨f, g, ?_, hmoved, h', hmoved'⟩
  unfold moveParent
  cases hrows : accountsWithin lft rgt q.acct t with
  | nil =>
    have := (hrow q).mpr rfl
    rw [hrows] at this
    exact absurd this (List.not_mem_nil)
  | cons row rest =>
    have hrq : row = q := (hrow row).mp (by rw [hrows]; exact List.mem_cons_self)
    subst hrq
    simp only
    rw [← hpc, hf, ← hxid, h'.find_id hfx, hpc]
    simp only
    rw [hqe] at hg
    rw [hxid, ← hqc]
    exact congrArg (fun t => (t, true)) hg

end NewParent

/-- A move changes the parent of one account: it is directly below the new one,
which was put below the old one if it lay in the branch, and every other row
keeps its parent. -/
theorem moveParent_spec {t : Table} {x p q : Row} (h : WellFormed t) (hx : x ∈ t) (hp : p ∈ t)
    (hq : q ∈ t) (hpu : p.user = "") (hqu : q.user = "") (hxp : Below t x p)
    (hqc : q.cluster = x.cluster) (hqx : q ≠ x) (now : Int) :
    ∃ f, moveParent x.lft x.rgt x.cluster x.id p.acct q.acct now t = (t.map f, true) ∧
      WellFormed (t.map f) ∧ (∀ r ∈ t, Row.SameBut r (f r)) ∧
      (∀ r ∈ t, r ≠ x → ¬(r = q ∧ Inside q.span x.span) → (f r).parentAcct = r.parentAcct) ∧
      ∀ r ∈ t, ∀ s ∈ t, Below (t.map f) (f r) (f s) ↔
        if r = x then s = q
        else if r = q ∧ Inside q.span x.span then s = p else Below t r s := by
  have hid : ∀ r ∈ t, ∀ s ∈ t, r.id = s.id → r = s :=
    fun r hr s hs heq => List.inj_on_of_nodup_map h.ids hr hs heq
  by_cases hin : Inside q.span x.span
  · have hpq := not_branch_around hin hxp.1
    obtain ⟨f, g, hrun, hf, h', hg⟩ := moveParent_hit h hx hq hqu hqc
      (fun r => (mem_accountsWithin_iff h hx hq hqu hqc hqx).trans (and_iff_left hin))
      hqx hp hpu hpq hxp.1 now
    -- two moves: `q` to the parent of `x`, and then `x` to `q`
    have hqb := not_branch_moved h hx hq hqx hpq hp hxp.1 hf
    have hmem : ∀ r ∈ t, f r ∈ t.map f := fun r hr => List.mem_map_of_mem hr
    have hentry : ∀ r ∈ t, (f r).toEntry = r.toEntry := fun r hr => (hf.same r hr).entry
    have hfinj : ∀ r ∈ t, ∀ s ∈ t, f r = f s → r = s := by
      intro r hr s hs heq
      refine hid r hr s hs ?_
      rw [← hentry r hr, ← hentry s hs, heq]
    refine ⟨g ∘ f, ?_, ?_, ?_, ?_, ?_⟩
    · rw [← List.map_map]
      exact hrun
    · rw [← List.map_map]
      refine hg.wellFormed h' (hmem x hx) (hmem q hq) hqb ?_
      rw [hentry q hq, hentry x hx]
      exact hqc
    · intro r hr
      have h₁ := hf.same r hr
      have h₂ := hg.same (f r) (hmem r hr)
      exact ⟨h₂.entry.trans h₁.entry, h₂.limits.trans h₁.limits, h₂.deleted.trans h₁.deleted⟩
    · intro r hr hrx hrq
      have hne : (f r).id ≠ x.id := by
        rw [hentry r hr]
        exact fun heq => hrx (hid r hr x hx heq)
      have hne' : r.id ≠ q.id := fun heq => hrq ⟨hid r hr q hq heq, hin⟩
      exact (hg.parent (f r) (hmem r hr) hne).trans (hf.parent r hr hne')
    · intro r hr s hs
      rw [← List.map_map, Function.comp_apply, Function.comp_apply,
        hg.below h' (hmem x hx) (hmem q hq) hqb (hmem r hr) (hmem s hs)]
      by_cases hrx : r = x
      · rw [if_pos hrx, if_pos (congrArg f hrx)]
        exact ⟨hfinj s hs q hq, congrArg f⟩
      · rw [if_neg hrx, if_neg fun heq => hrx (hfinj r hr x hx heq),
          hf.below h hq hp hpq hr hs]
        simp only [and_iff_left hin]
  · have hqb : ¬Branch x.span q.span := by
      rintro (heq | hqx')
      · exact hqx (h.span_inj hq hx heq)
      · exact hin hqx'
    -- `q` is not below `x`, so one move is enough
    obtain ⟨f, hrun, hf⟩ := moveParent_miss h hx hq hqu hqc
      (fun r hr => hin ((mem_accountsWithin_iff h hx hq hqu hqc hqx).mp hr).2) hqb p.acct now
    refine ⟨f, hrun, hf.wellFormed h hx hq hqb hqc, hf.same, ?_, ?_⟩
    · exact fun r hr hrx _ => hf.parent r hr fun heq => hrx (hid r hr x hx heq)
    · intro r hr s hs
      rw [hf.below h hx hq hqb hr hs]
      simp only [hin, and_false, if_false]

/-- A table with a chain of accounts. -/
def chain : Table :=
  [{ id := 1, acct := "root", cluster := "tux", lft := 1, rgt := 8 },
    { id := 2, acct := "a", cluster := "tux", parentAcct := "root", lft := 2, rgt := 7 },
    { id := 3, acct := "b", cluster := "tux", parentAcct := "a", lft := 3, rgt := 6 },
    { id := 4, user := "u", acct := "b", cluster := "tux", lft := 4, rgt := 5 }]

theorem moveParent_spec_chain :
    ∃ f, moveParent 2 7 "tux" 2 "root" "b" 9 chain = (chain.map f, true) ∧
      WellFormed (chain.map f) := by
  obtain ⟨f, hrun, hwf, -⟩ := moveParent_spec (t := chain) (x := chain[1]) (p := chain[0])
    (q := chain[2]) (by decide +kernel) (by decide +kernel) (by decide +kernel)
    (by decide +kernel) rfl rfl (by decide +kernel) rfl (by decide +kernel) 9
  exact ⟨f, hrun, hwf⟩

end Slurm.AssocTable
