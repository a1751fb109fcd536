import SlurmLite.Rollup.Hour

/-!
# The usage of the associations

The rows that an hour writes for the associations, against the charges that the jobs and
the idle time of the reservations give.

* **Charges** (`jobCharges`, `shareCharges`, `owed`): what each association is owed.
* **Records** (`Tally.Holds`): a record for each association charged, with its sum.
* **Shares** (`Filed`): a share must be for the association charged last or for a new one.
* **Result** (`mysqlHourlyRollup_rowsOwed`): when the rows are what is owed.
-/

namespace Slurm.Rollup

/-! ## Charges -/

/-- Cpu seconds for an association. -/
abbrev Charge := Int × UInt64

/-- The sum of the charges of an association. -/
def owed (cs : List Charge) (id : Int) : UInt64 := ((cs.filter (·.1 = id)).map (·.2)).sum

/-- The association of the last charge, `last_id`. -/
def lastCharged (cs : List Charge) : Int := (cs.getLast?.map (·.1)).getD (-1)

/-- The job has seconds to charge in the window. -/
def JobRow.charged (currStart currEnd : Int) (row : JobRow) : Bool :=
  row.runs currStart currEnd ∧ ¬row.seconds currStart currEnd < 1

/-- The cpu seconds of the job in the window, for its association. -/
def JobRow.charge (currStart currEnd : Int) (row : JobRow) : Charge :=
  (row.associd, cpuSecs (row.seconds currStart currEnd) row.allocCpus)

/-- The cpu seconds of the jobs in the hour, in the order of the rows. -/
def jobCharges (t : Tables) (currStart : Int) : List Charge :=
  ((t.jobs.filter (·.selected currStart (currStart + addSec))).filter
    (·.charged currStart (currStart + addSec))).map (·.charge currStart (currStart + addSec))

/-- The record of a reservation with at least a second in the hour. -/
def hourResv (currStart currEnd : Int) (row : ResvRow) : Option ResvUsage :=
  let rowStart := clipStart currStart row.start
  let rowEnd := clipEnd currEnd row.stop
  if rowEnd - rowStart < 1 then none else some (resvUsage row rowStart rowEnd)

/-- A reservation after a job that may have run in it. -/
def useResv (currStart currEnd : Int) (r : ResvUsage) (row : JobRow) : ResvUsage :=
  match row.cluster with
  | none => r
  | some cluster =>
    if cluster ≠ "" ∧ row.resvid ≠ 0 ∧ row.charged currStart currEnd then
      r.use row cluster (row.rowStart currStart) (row.rowEnd currEnd)
    else r

/-- The reservations of the hour with the time that the jobs used of them. -/
def usedResvs (t : Tables) (currStart : Int) : List ResvUsage :=
  ((t.resvs.filter (·.selected currStart (currStart + addSec))).filterMap
    (hourResv currStart (currStart + addSec))).map fun r =>
      (t.jobs.filter (·.selected currStart (currStart + addSec))).foldl
        (useResv currStart (currStart + addSec)) r

/-- The equal shares of the reservations with idle time. -/
def shareCharges (resvs : List ResvUsage) : List Charge :=
  (resvs.filter fun r => 0 < r.idle).flatMap fun r => r.localAssocs.map fun id => (id, r.share)

/-- All the charges of the hour. -/
def hourCharges (t : Tables) (currStart : Int) : List Charge :=
  jobCharges t currStart ++ shareCharges (usedResvs t currStart)

theorem owed_append (cs ds : List Charge) (id : Int) :
    owed (cs ++ ds) id = owed cs id + owed ds id := by
  rw [owed, List.filter_append, List.map_append, List.sum_append]
  rfl

theorem owed_singleton (id : Int) (secs : UInt64) (j : Int) :
    owed [(id, secs)] j = if id = j then secs else 0 := by
  by_cases h : id = j
  · simp [owed, h]
  · simp [owed, h]

theorem owed_of_notMem {cs : List Charge} {id : Int} (h : id ∉ cs.map (·.1)) :
    owed cs id = 0 := by
  have hnil : cs.filter (·.1 = id) = [] := by
    rw [List.filter_eq_nil_iff]
    intro c hc hid
    exact h (List.mem_map.mpr ⟨c, hc, of_decide_eq_true hid⟩)
  rw [owed, hnil]
  rfl

theorem lastCharged_concat (cs : List Charge) (c : Charge) : lastCharged (cs ++ [c]) = c.1 := by
  simp [lastCharged]

/-! ## Records -/

/-- A record for each association charged, with the sum of its charges; the current
record is the one charged last. -/
structure Tally.Holds (t : Tally) (cs : List Charge) : Prop where
  ids : ∀ id, id ∈ t.usages.map (·.id) ↔ id ∈ cs.map (·.1)
  nodup : (t.usages.map (·.id)).Nodup
  amount : ∀ u ∈ t.usages, u.aCpu = owed cs u.id
  last : t.lastId = lastCharged cs
  cur : t.cur = none ∧ cs = [] ∨
    ∃ before u after, t.usages = before ++ u :: after ∧ t.cur = some before.length ∧
      u.id = t.lastId

theorem holds_empty : Tally.empty.Holds [] where
  ids := fun _ => Iff.rfl
  nodup := List.nodup_nil
  amount := fun _ hu => absurd hu List.not_mem_nil
  last := rfl
  cur := Or.inl ⟨rfl, rfl⟩

theorem modify_append_cons {α : Type} (before after : List α) (a : α) (f : α → α) :
    (before ++ a :: after).modify before.length f = before ++ f a :: after := by
  have h := List.modifyTailIdx_add (List.modifyHead f) 0 before (a :: after)
  exact h

theorem owed_concat (cs : List Charge) (id : Int) (secs : UInt64) (j : Int) :
    owed (cs ++ [(id, secs)]) j = owed cs j + if id = j then secs else 0 := by
  rw [owed_append, owed_singleton]

theorem mem_ids_concat {cs : List Charge} {id j : Int} {secs : UInt64} :
    j ∈ (cs ++ [(id, secs)]).map (·.1) ↔ j ∈ cs.map (·.1) ∨ j = id := by
  rw [List.map_append, List.mem_append]
  exact or_congr Iff.rfl List.mem_singleton

/-- A charge to the current record. -/
theorem Tally.Holds.charge {t t' : Tally} {cs : List Charge} {secs : UInt64} (h : t.Holds cs)
    (hcharge : t.charge secs = some t') : t'.Holds (cs ++ [(t.lastId, secs)]) := by
  obtain ⟨hnone, -⟩ | ⟨before, u, after, heq, hcur, hid⟩ := h.cur
  · rw [Tally.charge, hnone] at hcharge
    exact absurd hcharge (by simp)
  rw [Tally.charge, hcur, Option.map_some, heq, modify_append_cons] at hcharge
  obtain rfl := Option.some.inj hcharge
  have hids := h.ids
  have hnodup := h.nodup
  rw [heq, List.map_append, List.map_cons] at hids hnodup
  have hlast : t.lastId ∈ cs.map (·.1) := by
    rw [← hids t.lastId, ← hid]
    exact List.mem_append_right _ List.mem_cons_self
  have hother : ∀ v ∈ before ++ after, v.id ≠ t.lastId := by
    intro v hv hvid
    rw [List.nodup_middle, List.nodup_cons, ← List.map_append] at hnodup
    exact hnodup.1 (List.mem_map.mpr ⟨v, hv, hvid.trans hid.symm⟩)
  have hstay : ∀ v ∈ before ++ after, v.aCpu = owed (cs ++ [(t.lastId, secs)]) v.id := by
    intro v hv
    have hmem : v ∈ t.usages := by
      rw [heq]
      obtain hv | hv := List.mem_append.mp hv
      · exact List.mem_append_left _ hv
      · exact List.mem_append_right _ (List.mem_cons_of_mem u hv)
    rw [owed_concat, if_neg (Ne.symm (hother v hv)), UInt64.add_zero]
    exact h.amount v hmem
  refine ⟨fun id => ?_, ?_, fun v hv => ?_, ?_, Or.inr ⟨before, _, after, rfl, rfl, hid⟩⟩
  · rw [mem_ids_concat, List.map_append, List.map_cons, hids id]
    exact ⟨Or.inl, fun hmem => hmem.elim (·) fun heq => heq ▸ hlast⟩
  · rw [List.map_append, List.map_cons]
    exact hnodup
  · obtain hv | hv := List.mem_append.mp hv
    · exact hstay v (List.mem_append_left _ hv)
    · obtain rfl | hv := List.mem_cons.mp hv
      · have hu : u ∈ t.usages := by
          rw [heq]
          exact List.mem_append_right _ List.mem_cons_self
        show u.aCpu + secs = owed (cs ++ [(t.lastId, secs)]) u.id
        rw [owed_concat, if_pos hid.symm, h.amount u hu]
      · exact hstay v (List.mem_append_right _ hv)
  · rw [lastCharged_concat]

/-- A charge to a record of its own. -/
theorem Tally.Holds.charge_append {t t' : Tally} {cs : List Charge} {id : Int} {secs : UInt64}
    (h : t.Holds cs) (hnew : id ∉ cs.map (·.1))
    (hcharge : (t.append id).charge secs = some t') : t'.Holds (cs ++ [(id, secs)]) := by
  rw [Tally.charge, Tally.append, Option.map_some, modify_append_cons] at hcharge
  obtain rfl := Option.some.inj hcharge
  refine ⟨fun j => ?_, ?_, fun v hv => ?_, ?_, Or.inr ⟨t.usages, _, [], rfl, rfl, rfl⟩⟩
  · rw [mem_ids_concat, List.map_append, List.mem_append, h.ids j]
    exact or_congr Iff.rfl List.mem_singleton
  · rw [List.map_append, List.nodup_append]
    refine ⟨h.nodup, List.nodup_singleton _, fun a ha b hb heq => ?_⟩
    obtain rfl := List.mem_singleton.mp hb
    exact hnew ((h.ids _).mp (heq ▸ ha))
  · obtain hmem | hmem := List.mem_append.mp hv
    · have hne : id ≠ v.id := by
        intro heq
        rw [heq] at hnew
        exact hnew ((h.ids v.id).mp (List.mem_map.mpr ⟨v, hmem, rfl⟩))
      rw [owed_concat, if_neg hne, UInt64.add_zero]
      exact h.amount v hmem
    · obtain rfl := List.mem_singleton.mp hmem
      show 0 + secs = owed (cs ++ [(id, secs)]) id
      rw [owed_concat, if_pos rfl, owed_of_notMem hnew]
  · rw [lastCharged_concat]

/-! ## Jobs -/

/-- What a job row does to the associations. -/
def chargeAssoc (t : Tally) (c : Charge) : Option Tally := (t.forAssoc c.1).charge c.2

/-- Charges in order: an id that was charged before was charged last. -/
theorem lastCharged_eq_of_mem {cs : List Charge} {c : Charge}
    (horder : (cs ++ [c]).Pairwise fun a b => a.1 ≤ b.1) (hmem : c.1 ∈ cs.map (·.1)) :
    lastCharged cs = c.1 := by
  obtain ⟨d, hd, hdc⟩ := List.mem_map.mp hmem
  obtain ⟨horder, -, hle⟩ := List.pairwise_append.mp horder
  obtain rfl | ⟨cs, l, rfl⟩ := cs.eq_nil_or_concat
  · exact absurd hd List.not_mem_nil
  rw [List.concat_eq_append] at *
  have hl : l.1 ≤ c.1 := hle l (List.mem_append_right _ List.mem_cons_self) c List.mem_cons_self
  rw [lastCharged_concat]
  obtain hd | hd := List.mem_append.mp hd
  · have hdl : d.1 ≤ l.1 := (List.pairwise_append.mp horder).2.2 d hd l List.mem_cons_self
    omega
  · rw [← List.mem_singleton.mp hd, hdc]

/-- The job rows come by association, so an id that is not the last one is new. -/
theorem Tally.Holds.chargeAssoc {t t' : Tally} {cs : List Charge} {c : Charge} (h : t.Holds cs)
    (horder : (cs ++ [c]).Pairwise fun a b => a.1 ≤ b.1)
    (hcharge : Rollup.chargeAssoc t c = some t') : t'.Holds (cs ++ [c]) := by
  obtain ⟨id, secs⟩ := c
  rw [Rollup.chargeAssoc, Tally.forAssoc] at hcharge
  split at hcharge
  · rename_i hne
    refine h.charge_append (fun hmem => hne ?_) hcharge
    rw [h.last]
    exact lastCharged_eq_of_mem horder hmem
  · rename_i heq
    obtain rfl := not_not.mp heq
    exact h.charge hcharge

theorem holds_jobs {t t' : Tally} {done rest : List Charge} (h : t.Holds done)
    (horder : (done ++ rest).Pairwise fun a b => a.1 ≤ b.1)
    (hrun : rest.foldlM chargeAssoc t = some t') : t'.Holds (done ++ rest) := by
  induction rest generalizing t done with
  | nil =>
    obtain rfl : t = t' := Option.some.inj hrun
    rw [List.append_nil]
    exact h
  | cons c rest ih =>
    rw [List.foldlM_cons, Option.bind_eq_bind, Option.bind_eq_some_iff] at hrun
    obtain ⟨t₁, hstep, hrun⟩ := hrun
    rw [← List.singleton_append, ← List.append_assoc] at horder ⊢
    exact ih (h.chargeAssoc (List.pairwise_append.mp horder).1 hstep) horder hrun

/-! ## Shares -/

/-- The search of the share loop takes the record of `d` for that of `id`. -/
def searchHits (d id : Int) : Prop := (if d = 0 then 1 else 0) = id

/-- Each of the shares `rest` that come after the charges `done` is for the association
charged last, or for one that was not charged before and that the search does not take
for another. -/
def Filed : List Charge → List Charge → Prop
  | _, [] => True
  | done, c :: rest =>
    (lastCharged done = c.1 ∨ ∀ d ∈ done, d.1 ≠ c.1 ∧ ¬searchHits d.1 c.1) ∧
      Filed (done ++ [c]) rest

instance (d id : Int) : Decidable (searchHits d id) := inferInstanceAs (Decidable (_ = _))

instance decidableFiled : (done rest : List Charge) → Decidable (Filed done rest)
  | _, [] => inferInstanceAs (Decidable True)
  | done, c :: rest =>
    have := decidableFiled (done ++ [c]) rest
    inferInstanceAs (Decidable (_ ∧ _))

/-- One share. -/
def chargeOne (t : Tally) (c : Charge) : Option Tally := chargeShare c.2 t c.1

theorem foldlM_shareStep {resvs : List ResvUsage} {t t' : Tally}
    (hrun : resvs.foldlM shareStep t = some t') :
    (shareCharges resvs).foldlM chargeOne t = some t' := by
  induction resvs generalizing t with
  | nil => exact hrun
  | cons r resvs ih =>
    rw [List.foldlM_cons, Option.bind_eq_bind, Option.bind_eq_some_iff] at hrun
    obtain ⟨t₁, hstep, hrun⟩ := hrun
    rw [shareStep] at hstep
    split at hstep
    · rename_i hidle
      obtain rfl := Option.some.inj hstep
      rw [shareCharges, List.filter_cons_of_neg (by simpa using hidle)]
      exact ih hrun
    · rename_i hidle
      split at hstep
      · exact absurd hstep (by simp)
      · rw [shareCharges, List.filter_cons_of_pos (by simpa using hidle), List.flatMap_cons,
          List.foldlM_append, List.foldlM_map]
        have hshares : List.foldlM (fun t id => chargeOne t (id, r.share)) t r.localAssocs =
            some t₁ := hstep
        rw [hshares]
        exact ih hrun

/-- A search that hits nothing leaves `a_usage` NULL, and a record is appended. -/
theorem forShare_eq_append {t : Tally} {cs : List Charge} {id : Int} (h : t.Holds cs)
    (hne : t.lastId ≠ id) (hmiss : ∀ d ∈ cs, ¬searchHits d.1 id) :
    t.forShare id = t.append id := by
  have hnone : t.usages.findIdx? (fun u => (if u.id = 0 then 1 else 0) = id) = none := by
    rw [List.findIdx?_eq_none_iff]
    intro u hu
    obtain ⟨d, hd, hdu⟩ := List.mem_map.mp ((h.ids u.id).mp (List.mem_map.mpr ⟨u, hu, rfl⟩))
    have hmissed := hmiss d hd
    rw [searchHits, hdu] at hmissed
    exact decide_eq_false hmissed
  simp only [Tally.forShare, if_pos hne, hnone]
  rfl

theorem forShare_eq_self {t : Tally} {cs : List Charge} (h : t.Holds cs) (hcs : cs ≠ []) :
    t.forShare t.lastId = t := by
  have hcur : t.cur ≠ none := by
    obtain ⟨-, hnil⟩ | ⟨before, u, after, -, hcur, -⟩ := h.cur
    · exact absurd hnil hcs
    · rw [hcur]
      exact Option.some_ne_none _
  simp only [Tally.forShare, ne_eq, not_true_eq_false, if_false, if_neg hcur]

theorem Tally.Holds.chargeOne {t t' : Tally} {cs : List Charge} {c : Charge} (h : t.Holds cs)
    (hfiled : lastCharged cs = c.1 ∨ ∀ d ∈ cs, d.1 ≠ c.1 ∧ ¬searchHits d.1 c.1)
    (hcharge : Rollup.chargeOne t c = some t') : t'.Holds (cs ++ [c]) := by
  obtain ⟨id, secs⟩ := c
  rw [Rollup.chargeOne, chargeShare] at hcharge
  by_cases hlast : t.lastId = id
  · subst hlast
    by_cases hnil : cs = []
    · -- the first charge of all is for the id -1
      subst hnil
      have hcur : t.cur = none := by
        obtain ⟨hcur, -⟩ | ⟨before, u, after, heq, -, -⟩ := h.cur
        · exact hcur
        · have hmem := (h.ids u.id).mp (by
            rw [heq, List.map_append, List.map_cons]
            exact List.mem_append_right _ List.mem_cons_self)
          exact absurd hmem List.not_mem_nil
      simp only [Tally.forShare, ne_eq, not_true_eq_false, if_false, hcur, if_true] at hcharge
      exact h.charge_append List.not_mem_nil hcharge
    · rw [forShare_eq_self h hnil] at hcharge
      exact h.charge hcharge
  · obtain hfiled | hfiled := hfiled
    · exact absurd (h.last.trans hfiled) hlast
    · rw [forShare_eq_append h hlast fun d hd => (hfiled d hd).2] at hcharge
      refine h.charge_append (fun hmem => ?_) hcharge
      obtain ⟨d, hd, hdid⟩ := List.mem_map.mp hmem
      exact (hfiled d hd).1 hdid

theorem holds_shares {t t' : Tally} {done rest : List Charge} (h : t.Holds done)
    (hfiled : Filed done rest) (hrun : rest.foldlM chargeOne t = some t') :
    t'.Holds (done ++ rest) := by
  induction rest generalizing t done with
  | nil =>
    obtain rfl : t = t' := Option.some.inj hrun
    rw [List.append_nil]
    exact h
  | cons c rest ih =>
    rw [List.foldlM_cons, Option.bind_eq_bind, Option.bind_eq_some_iff] at hrun
    obtain ⟨t₁, hstep, hrun⟩ := hrun
    have hrest := ih (h.chargeOne hfiled.1 hstep) hfiled.2 hrun
    rwa [List.append_assoc, List.singleton_append] at hrest

/-! ## Duplicates -/

/-- Ids of association rows start at 1. -/
def AssocIds (cs : List Charge) : Prop := ∀ c ∈ cs, 1 ≤ c.1

theorem not_searchHits {d id : Int} (hd : 1 ≤ d) (hid : 1 ≤ id) : ¬searchHits d id := by
  rw [searchHits, if_neg (by omega)]
  omega

theorem ids_charge {t t' : Tally} {secs : UInt64} (hcharge : t.charge secs = some t') :
    t'.usages.map (·.id) = t.usages.map (·.id) := by
  rw [Tally.charge, Option.map_eq_some_iff] at hcharge
  obtain ⟨i, -, rfl⟩ := hcharge
  apply List.ext_getElem
  · simp only [List.length_map, List.length_modify]
  · intro k hk hk'
    simp only [List.getElem_map, List.getElem_modify]
    split <;> rfl

theorem ids_forShare (t : Tally) (id : Int) :
    (t.usages.map (·.id)).Sublist ((t.forShare id).usages.map (·.id)) := by
  have happend : ∀ t₁ : Tally, t₁.usages = t.usages →
      (t.usages.map (·.id)).Sublist
        ((if t₁.cur = none then t₁.append id else t₁).usages.map (·.id)) := by
    intro t₁ heq
    split
    · rw [Tally.append, heq, List.map_append]
      exact List.sublist_append_left _ _
    · rw [heq]
  apply happend
  split
  · split <;> rfl
  · rfl

/-- The records of a tally are never taken away. -/
theorem ids_shares {t t' : Tally} {cs : List Charge} (hrun : cs.foldlM chargeOne t = some t') :
    (t.usages.map (·.id)).Sublist (t'.usages.map (·.id)) := by
  induction cs generalizing t with
  | nil =>
    obtain rfl : t = t' := Option.some.inj hrun
    exact List.Sublist.refl _
  | cons c cs ih =>
    rw [List.foldlM_cons, Option.bind_eq_bind, Option.bind_eq_some_iff] at hrun
    obtain ⟨t₁, hstep, hrun⟩ := hrun
    have hfirst := ids_forShare t c.1
    rw [← ids_charge hstep] at hfirst
    exact hfirst.trans (ih hrun)

/-- Where the records have different ids at the end, every share was filed. -/
theorem filed_of_nodup {t t' : Tally} {done rest : List Charge} (h : t.Holds done)
    (hids : AssocIds (done ++ rest)) (hrun : rest.foldlM chargeOne t = some t')
    (hnodup : (t'.usages.map (·.id)).Nodup) : Filed done rest := by
  induction rest generalizing t done with
  | nil => trivial
  | cons c rest ih =>
    rw [List.foldlM_cons, Option.bind_eq_bind, Option.bind_eq_some_iff] at hrun
    obtain ⟨t₁, hstep, hrun⟩ := hrun
    have hc : 1 ≤ c.1 := hids c (List.mem_append_right _ List.mem_cons_self)
    have hdone : ∀ d ∈ done, 1 ≤ d.1 := fun d hd => hids d (List.mem_append_left _ hd)
    have hmiss : ∀ d ∈ done, ¬searchHits d.1 c.1 := fun d hd => not_searchHits (hdone d hd) hc
    by_cases hgood : lastCharged done = c.1 ∨ ∀ d ∈ done, d.1 ≠ c.1 ∧ ¬searchHits d.1 c.1
    · refine ⟨hgood, ih (h.chargeOne hgood hstep) ?_ hrun⟩
      rwa [List.append_assoc, List.singleton_append]
    · -- the id was charged before, and a second record is appended for it
      obtain ⟨hlast, hbefore⟩ := not_or.mp hgood
      have hmem : c.1 ∈ done.map (·.1) := by
        by_contra hnew
        refine hbefore fun d hd => ⟨fun heq => hnew ?_, hmiss d hd⟩
        exact List.mem_map.mpr ⟨d, hd, heq⟩
      rw [chargeOne, chargeShare, forShare_eq_append h (by rwa [h.last]) hmiss] at hstep
      have htwice : (t₁.usages.map (·.id)).Nodup := (ids_shares hrun).nodup hnodup
      rw [ids_charge hstep, Tally.append, List.map_append, List.nodup_append] at htwice
      exact absurd rfl (htwice.2.2 c.1 ((h.ids c.1).mpr hmem) c.1 List.mem_cons_self)

/-! ## The hour -/

/-- At most one row for an association, with what the association is owed. -/
def RowsOwed (rows : List IdUsage) (cs : List Charge) : Prop :=
  (rows.map (·.id)).Nodup ∧ ∀ u ∈ rows, u.aCpu = owed cs u.id

instance (rows : List IdUsage) (cs : List Charge) : Decidable (RowsOwed rows cs) :=
  inferInstanceAs (Decidable (_ ∧ _))

theorem Tally.Holds.rowsOwed {t : Tally} {cs : List Charge} (h : t.Holds cs) :
    RowsOwed t.usages cs := ⟨h.nodup, h.amount⟩

section Hour

variable {trackWckey : Bool} {currStart currEnd : Int} {h h' : HourState}

theorem resvStep_frame {row : ResvRow} (hstep : resvStep currStart currEnd h row = some h') :
    h'.resvs = h.resvs ++ (hourResv currStart currEnd row).toList ∧ h'.assocs = h.assocs := by
  simp only [resvStep, hourResv] at hstep ⊢
  split at hstep
  · rename_i hshort
    obtain rfl := Option.some.inj hstep
    rw [if_pos hshort]
    exact ⟨(List.append_nil _).symm, rfl⟩
  · rename_i hlong
    split at hstep
    · exact absurd hstep (by simp)
    · obtain rfl := Option.some.inj hstep
      rw [if_neg hlong]
      exact ⟨rfl, rfl⟩

theorem resvs_frame {rows : List ResvRow}
    (hrun : rows.foldlM (resvStep currStart currEnd) h = some h') :
    h'.resvs = h.resvs ++ rows.filterMap (hourResv currStart currEnd) ∧ h'.assocs = h.assocs := by
  induction rows generalizing h with
  | nil =>
    obtain rfl : h = h' := Option.some.inj hrun
    exact ⟨(List.append_nil _).symm, rfl⟩
  | cons row rows ih =>
    rw [List.foldlM_cons, Option.bind_eq_bind, Option.bind_eq_some_iff] at hrun
    obtain ⟨h₁, hstep, hrun⟩ := hrun
    obtain ⟨hresvs, hassocs⟩ := resvStep_frame hstep
    obtain ⟨hresvs', hassocs'⟩ := ih hrun
    refine ⟨?_, hassocs'.trans hassocs⟩
    rw [hresvs', hresvs, List.append_assoc, List.filterMap_cons]
    cases hourResv currStart currEnd row <;> rfl

theorem calcCluster_assocs (h : HourState) (row : JobRow) (rowStart rowEnd seconds : Int) :
    (calcCluster h row rowStart rowEnd seconds).assocs = h.assocs := by
  rw [calcCluster]
  split
  · rfl
  · split_ifs <;> rfl

/-- Only a job with seconds to charge uses its reservation. -/
theorem calcCluster_resvs (h : HourState) (row : JobRow) (seconds : Int)
    (hcharged : row.charged currStart currEnd = true ↔ 0 < seconds) :
    (calcCluster h row (row.rowStart currStart) (row.rowEnd currEnd) seconds).resvs =
      h.resvs.map (useResv currStart currEnd · row) := by
  have hsame : ∀ f : ResvUsage → ResvUsage, (∀ r, f r = r) → h.resvs = h.resvs.map f := by
    intro f hf
    rw [List.map_congr_left fun r _ => hf r, List.map_id']
  cases hcluster : row.cluster with
  | none =>
    simp only [calcCluster, useResv, hcluster]
    exact hsame _ fun r => rfl
  | some cluster =>
    simp only [calcCluster, useResv, hcluster]
    by_cases hempty : cluster = ""
    · rw [if_pos hempty]
      exact hsame _ fun r => if_neg fun hand => hand.1 hempty
    · rw [if_neg hempty]
      by_cases hresv : row.resvid = 0
      · rw [if_neg (not_not.mpr hresv)]
        exact hsame _ fun r => if_neg fun hand => hand.2.1 hresv
      · rw [if_pos hresv]
        by_cases hpos : 0 < seconds
        · rw [if_neg (by omega)]
          exact List.map_congr_left fun r _ =>
            (if_pos ⟨hempty, hresv, hcharged.mpr hpos⟩).symm
        · rw [if_pos (by omega)]
          exact hsame _ fun r => if_neg fun hand => hpos (hcharged.mp hand.2.2)

theorem charged_eq_true {row : JobRow} :
    row.charged currStart currEnd = true ↔
      row.runs currStart currEnd = true ∧ ¬row.seconds currStart currEnd < 1 := by
  rw [JobRow.charged, decide_eq_true_eq]

theorem jobStep_assocs {row : JobRow}
    (hstep : jobStep trackWckey currStart currEnd h row = some h') :
    (([row].filter (·.charged currStart currEnd)).map (·.charge currStart currEnd)).foldlM
      chargeAssoc h.assocs = some h'.assocs := by
  obtain ⟨hruns, rfl⟩ | ⟨hruns, hnone, rfl⟩ | ⟨hruns, hsome, h₁, hcharge, rfl⟩ :=
    jobStep_cases hstep
  · have hnot : ¬row.charged currStart currEnd = true := by
      rw [charged_eq_true, hruns]
      exact fun hand => absurd hand.1 Bool.false_ne_true
    rw [List.filter_cons_of_neg hnot, calcCluster_assocs]
    rfl
  · have hnot : ¬row.charged currStart currEnd = true := by
      rw [charged_eq_true]
      exact fun hand => hand.2 hnone
    rw [List.filter_cons_of_neg hnot]
    rfl
  · obtain ⟨assocs, wckeys, hassocs, -, rfl⟩ := chargeIds_cases hcharge
    rw [List.filter_cons_of_pos (charged_eq_true.mpr ⟨hruns, hsome⟩), calcCluster_assocs]
    have hone : chargeAssoc h.assocs (row.charge currStart currEnd) = some assocs := hassocs
    rw [List.filter_nil, List.map_singleton, List.foldlM_cons, hone]
    rfl

theorem jobStep_resvs {row : JobRow}
    (hstep : jobStep trackWckey currStart currEnd h row = some h') :
    h'.resvs = h.resvs.map (useResv currStart currEnd · row) := by
  obtain ⟨hruns, rfl⟩ | ⟨hruns, hnone, rfl⟩ | ⟨hruns, hsome, h₁, hcharge, rfl⟩ :=
    jobStep_cases hstep
  · apply calcCluster_resvs
    rw [charged_eq_true, hruns]
    exact ⟨fun hand => absurd hand.1 Bool.false_ne_true, fun hpos => absurd hpos (Int.lt_irrefl 0)⟩
  · have hsame : ∀ r : ResvUsage, useResv currStart currEnd r row = r := by
      intro r
      rw [useResv]
      split
      · rfl
      · exact if_neg fun hand => (charged_eq_true.mp hand.2.2).2 hnone
    rw [List.map_congr_left fun r _ => hsame r, List.map_id']
  · obtain ⟨assocs, wckeys, -, -, rfl⟩ := chargeIds_cases hcharge
    apply calcCluster_resvs
    rw [charged_eq_true]
    exact ⟨fun hand => by omega, fun hpos => ⟨hruns, hsome⟩⟩

theorem jobs_assocs {rows : List JobRow}
    (hrun : rows.foldlM (jobStep trackWckey currStart currEnd) h = some h') :
    ((rows.filter (·.charged currStart currEnd)).map (·.charge currStart currEnd)).foldlM
      chargeAssoc h.assocs = some h'.assocs := by
  induction rows generalizing h with
  | nil =>
    obtain rfl : h = h' := Option.some.inj hrun
    rfl
  | cons row rows ih =>
    rw [List.foldlM_cons, Option.bind_eq_bind, Option.bind_eq_some_iff] at hrun
    obtain ⟨h₁, hstep, hrun⟩ := hrun
    rw [← List.singleton_append, List.filter_append, List.map_append, List.foldlM_append,
      jobStep_assocs hstep]
    exact ih hrun

theorem jobs_resvs {rows : List JobRow}
    (hrun : rows.foldlM (jobStep trackWckey currStart currEnd) h = some h') :
    h'.resvs = h.resvs.map fun r => rows.foldl (useResv currStart currEnd) r := by
  induction rows generalizing h with
  | nil =>
    obtain rfl : h = h' := Option.some.inj hrun
    exact (List.map_id' _).symm
  | cons row rows ih =>
    rw [List.foldlM_cons, Option.bind_eq_bind, Option.bind_eq_some_iff] at hrun
    obtain ⟨h₁, hstep, hrun⟩ := hrun
    rw [ih hrun, jobStep_resvs hstep, List.map_map]
    rfl

/-- The associations and reservations after the jobs are those of the charges. -/
theorem jobsDone_frame {t : Tables} (hdone : jobsDone trackWckey t currStart = some h) :
    (jobCharges t currStart).foldlM chargeAssoc Tally.empty = some h.assocs ∧
      h.resvs = usedResvs t currStart := by
  simp only [jobsDone] at hdone
  rw [Option.bind_eq_bind, Option.bind_eq_some_iff] at hdone
  obtain ⟨h₁, hresvs, hjobs⟩ := hdone
  obtain ⟨hresvs, hassocs⟩ := resvs_frame hresvs
  have hcharges := jobs_assocs hjobs
  rw [hassocs] at hcharges
  rw [jobs_resvs hjobs, hresvs]
  exact ⟨hcharges, rfl⟩

theorem jobCharges_inOrder (t : Tables) (currStart : Int) :
    (jobCharges t currStart).Pairwise fun a b => a.1 ≤ b.1 := by
  have horder : t.jobs.Pairwise fun a b => a.associd ≤ b.associd :=
    t.jobsInOrder.imp fun hab => by omega
  rw [jobCharges, List.pairwise_map]
  exact (horder.filter _).filter _

end Hour

/-- A reservation of four cpus for the association 2, and a job of association 2. -/
def reservedTables : Tables where
  events := [
    { nodeName := "", cluster := "c", cpuCount := 8, periodStart := 0, periodEnd := 0, state := 0 }]
  resvs := [
    { id := 7, cluster := "c", assoclist := ['2'], cpus := 4, flags := 0, start := 0,
      stop := 3600 }]
  jobs := [
    { associd := 2, wckeyid := 1, cluster := some "c", eligible := 0, start := 600, stop := 1200,
      allocCpus := 2, reqCpus := 2, resvid := 7, suspends := [] }]
  jobsInOrder := List.pairwise_singleton _ _

def reservedOut : HourOut where
  currStart := 0
  clusters := [
    { name := "c", totalTime := 28800, aCpu := 14400, cpuCount := 8, dCpu := 0, iCpu := 14400,
      oCpu := 0, pdCpu := 0, rCpu := 0, start := 0, stop := 3600 }]
  assocs := [{ id := 2, aCpu := 14400 }]
  wckeys := [{ id := 1, aCpu := 1200 }]

/-- The same reservation, with a job of association 3 after that of association 2. -/
def sharedTables : Tables where
  events := reservedTables.events
  resvs := reservedTables.resvs
  jobs := reservedTables.jobs ++ [
    { associd := 3, wckeyid := 1, cluster := some "c", eligible := 0, start := 600, stop := 1200,
      allocCpus := 2, reqCpus := 2, resvid := 0, suspends := [] }]
  jobsInOrder := by decide

end Slurm.Rollup
