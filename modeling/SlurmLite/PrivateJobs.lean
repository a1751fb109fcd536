import SlurmLite.JobCondLimits

/-!
# Private job data

With private job data `mysql_jobacct_process_get_jobs` adds the places of a
user's associations to the condition of its query.

* **The restriction** (`restrict`): one more disjunction, or nothing at all when
  the query for the places returns no row (`restrict_eq`).
* **Meaning** (`selected`): the joined rows for which every disjunction has a
  term that holds; what the terms of the job condition mean is left open.
* `private_iff`: when only jobs of the user's own part of the tree are selected.
-/

namespace Slurm.PrivateJobs

open Base.Text Base.Sql Slurm.CharList Slurm.Print Slurm.JobCondLimits

/-- The columns of an association that the queries use. -/
structure Assoc where
  id : Nat
  user : Text
  acct : Text
  lft : Nat
  rgt : Nat
deriving DecidableEq

/-- `ACCT_ADMIN_OPERATOR`. -/
abbrev adminOperator : Nat := 2

/-- Who asks, with the record that `assoc_mgr_fill_in_user` finds. -/
structure Requester where
  /-- The `slurm_user_id` of `slurmdbd_conf`, which is there only in the daemon. -/
  slurmdbdConf : Option Nat
  uid : Nat
  adminLevel : Nat
  name : Option Text
  coordAccts : List Text
deriving DecidableEq

/-- `is_admin` when private job data is set. -/
def Requester.isAdmin (r : Requester) : Bool :=
  match r.slurmdbdConf with
  | none => true
  | some slurmUserId => r.uid = slurmUserId || r.uid = 0 || decide (adminOperator ≤ r.adminLevel)

/-- Names are equal when their letters are. -/
local instance lawfulBEq_name : LawfulBEq (List Char) := inferInstance

/-- The rows of the query for `lft`; a name that is not there is printed as `(null)`. -/
def ownRows (r : Requester) (assocs : List Assoc) : List Assoc :=
  assocs.filter fun a => a.user = r.name.getD "(null)".toList || a.acct ∈ r.coordAccts

/-- The loop over these rows: a first term opens the disjunction. -/
def restrictLoop : List Text → Bool → Option Text → Option Text
  | [], set, extra => if set then some (extra.getD [] ++ [')']) else extra
  | row :: rows, true, extra =>
    restrictLoop rows true (some (extra.getD [] ++ " || ".toList ++ (Term.between row).text))
  | row :: rows, false, extra =>
    restrictLoop rows true (some (opened extra ++ (Term.between row).text))

/-- The restriction of a query for a user who is not an administrator. -/
def restrict (r : Requester) (assocs : List Assoc) (extra : Option Text) : Option Text :=
  if r.isAdmin then extra
  else restrictLoop ((ownRows r assocs).map (decimal ·.lft)) false extra

/-- What follows the tables in the query, with private job data set. -/
def getJobsExtra (r : Requester) (assocs : List Assoc) (jobCond : JobCond) :
    Option (Option Text) :=
  (setupJobCondLimits jobCond none).map (restrict r assocs)

/-! ## The meaning of the query -/

/-- The disjunction of the places. -/
def placeParts (r : Requester) (assocs : List Assoc) : List (List Term) :=
  if r.isAdmin then []
  else [(ownRows r assocs).map fun a => .between (decimal a.lft)].filter (· ≠ [])

section Meaning

variable {J : Type} (associd : J → Nat) (holds : Term → J → Option Assoc → Prop)

/-- The rows of `t1 left join t2 on t1.associd=t2.id`. -/
def joinRows (assocs : List Assoc) (job : J) : List (Option Assoc) :=
  let found := assocs.filter (·.id = associd job)
  if found = [] then [none] else found.map some

/-- Whether a term is true of a joined row. A place is never true of a row without association;
the other terms mean what the server makes of them. -/
def satisfies (job : J) (t2 : Option Assoc) : Term → Prop
  | .between lft => ∃ a, t2 = some a ∧ a.lft ≤ value lft ∧ value lft ≤ a.rgt
  | t => holds t job t2

/-- The condition is true of a joined row. -/
def Matches (ps : List (List Term)) (job : J) (t2 : Option Assoc) : Prop :=
  ∀ ts ∈ ps, ∃ t ∈ ts, satisfies holds job t2 t

/-- A joined row of a job that meets a condition. -/
def Selected (assocs : List Assoc) (jobs : List J) (ps : List (List Term)) (job : J)
    (t2 : Option Assoc) : Prop :=
  job ∈ jobs ∧ t2 ∈ joinRows associd assocs job ∧ Matches holds ps job t2

end Meaning

/-- An association of the user, or one at or below an account that the user coordinates. -/
def Allowed (r : Requester) (assocs : List Assoc) (a : Assoc) : Prop :=
  r.name = some a.user ∨
    ∃ b ∈ assocs, b.acct ∈ r.coordAccts ∧ b.user = [] ∧ b.lft ≤ a.lft ∧ a.rgt ≤ b.rgt

/-- The association reaches over the left end of one of the rows of the query for `lft`. -/
def Covers (r : Requester) (assocs : List Assoc) (a : Assoc) : Prop :=
  ∃ b ∈ ownRows r assocs, a.lft ≤ b.lft ∧ b.lft ≤ a.rgt

/-- No administrator, wherever the program runs. -/
def Requester.Ordinary (r : Requester) : Prop :=
  r.uid ≠ 0 ∧ r.adminLevel < adminOperator ∧ ∀ slurmUserId ∈ r.slurmdbdConf, r.uid ≠ slurmUserId

/-- The disjunctions of the whole query. -/
def queryParts (r : Requester) (assocs : List Assoc) (jobCond : JobCond) : List (List Term) :=
  parts jobCond ++ placeParts r assocs

/-- Every joined row that the query selects is of an association the user may see. -/
def Private {J : Type} (associd : J → Nat) (holds : Term → J → Option Assoc → Prop)
    (r : Requester) (assocs : List Assoc) (jobs : List J) (jobCond : JobCond) : Prop :=
  ∀ job t2, Selected associd holds assocs jobs (queryParts r assocs jobCond) job t2 →
    ∃ a, t2 = some a ∧ Allowed r assocs a

/-- What keeps the rows that meet a job condition private. -/
structure Confined {J : Type} (associd : J → Nat) (holds : Term → J → Option Assoc → Prop)
    (r : Requester) (assocs : List Assoc) (jobs : List J) (jobCond : JobCond) : Prop where
  /-- Outside of the daemon nobody is restricted. -/
  daemon : r.slurmdbdConf ≠ none
  /-- Without a row of the query for `lft` there is no restriction. -/
  found : ownRows r assocs = [] → ∀ job t2,
    ¬Selected associd holds assocs jobs (parts jobCond) job t2
  /-- The restriction lets through what reaches over one of these rows. -/
  above : ∀ job a, Selected associd holds assocs jobs (parts jobCond) job (some a) →
    Covers r assocs a → Allowed r assocs a

/-! ## The restriction -/

section Restriction

variable {r : Requester} {assocs : List Assoc} {extra : Option Text} {rows : List Text}

theorem disjunction_cons (t u : Term) (ts : List Term) :
    disjunction (t :: u :: ts) = t.text ++ " || ".toList ++ disjunction (u :: ts) :=
  List.intercalate_cons_cons

theorem disjunction_singleton (t : Term) : disjunction [t] = t.text :=
  List.intercalate_singleton

theorem restrictLoop_true (row : Text) (rows : List Text) (e : Text) :
    restrictLoop rows true (some (e ++ (Term.between row).text)) =
      some (e ++ disjunction ((row :: rows).map .between) ++ [')']) := by
  induction rows generalizing row e with
  | nil =>
    rw [restrictLoop, if_pos rfl, Option.getD_some, List.map_singleton, disjunction_singleton]
  | cons next rows ih =>
    have hnext : e ++ (Term.between row).text ++ " || ".toList ++ (Term.between next).text =
        (e ++ (Term.between row).text ++ " || ".toList) ++ (Term.between next).text := rfl
    rw [restrictLoop, Option.getD_some, hnext, ih]
    show _ = some (e ++ disjunction (.between row :: .between next :: rows.map .between) ++ [')'])
    rw [disjunction_cons]
    simp only [List.append_assoc, List.map_cons]

/-- The loop writes a block like those of the lists. -/
theorem restrictLoop_eq (rows : List Text) (extra : Option Text) :
    restrictLoop rows false extra = anyOf (rows.map .between) extra := by
  cases rows with
  | nil => rfl
  | cons row rows =>
    rw [restrictLoop, restrictLoop_true]
    rfl

theorem restrict_eq (r : Requester) (assocs : List Assoc) (extra : Option Text) :
    restrict r assocs extra =
      (placeParts r assocs).foldl (fun extra ts => anyOf ts extra) extra := by
  unfold restrict placeParts
  split
  · rfl
  · rw [restrictLoop_eq, List.map_map]
    by_cases hrows : (ownRows r assocs).map (fun a => Term.between (decimal a.lft)) = []
    · rw [List.filter_cons_of_neg (by simpa using hrows)]
      exact if_pos hrows
    · rw [List.filter_cons_of_pos (by simpa using hrows)]
      rfl

/-- The text after the tables is the conjunction of all disjunctions. -/
theorem getJobsExtra_eq {jobCond : JobCond} (hassoc : jobCond.associdList = [])
    (hresv : jobCond.resvList = []) :
    getJobsExtra r assocs jobCond =
      some (if queryParts r assocs jobCond = [] then none
        else some (" where ".toList ++ conjunction (queryParts r assocs jobCond))) := by
  have hfold : (placeParts r assocs).foldl (fun extra ts => anyOf ts extra)
      (JobCondLimits.joined jobCond none (parts jobCond)) =
      JobCondLimits.joined jobCond none (parts jobCond ++ (placeParts r assocs).filter (· ≠ [])) :=
    foldl_anyOf (Or.inr hassoc) _
  have hplaces : (placeParts r assocs).filter (· ≠ []) = placeParts r assocs := by
    unfold placeParts
    split
    · rfl
    · rw [List.filter_filter]
      simp only [Bool.and_self]
  rw [hplaces] at hfold
  rw [getJobsExtra, setupJobCondLimits_eq hassoc hresv, Option.map_some, restrict_eq]
  unfold JobCondLimits.joined at hfold
  rw [hfold, head_none hassoc]
  rfl

theorem good_between (n : Nat) : (Term.between (decimal n)).Good := by
  have hdigits : Neutral (decimal n) := neutral_numChar fun _ => numChar_decimal
  have h : Neutral (decimal n ++ " between t2.lft and t2.rgt".toList) :=
    hdigits.append (neutral_of_all (by decide))
  exact ⟨plain_paren (plain_singleton h.plain), h.level.paren⟩

theorem of_mem_placeParts {ts : List Term} (h : ts ∈ placeParts r assocs) :
    r.isAdmin = false ∧ ownRows r assocs ≠ [] ∧
      ts = (ownRows r assocs).map fun a => .between (decimal a.lft) := by
  unfold placeParts at h
  split at h
  · cases h
  · rename_i hadmin
    obtain ⟨hts, hne⟩ := List.mem_filter.mp h
    rw [List.mem_singleton] at hts
    refine ⟨Bool.eq_false_iff.mpr hadmin, ?_, hts⟩
    intro hnil
    rw [hts, hnil] at hne
    simp at hne

/-- The places add no literals and the parentheses still balance. -/
theorem reads_query {jobCond : JobCond} (hassoc : jobCond.associdList = [])
    (hin : ∀ e ∈ quoted jobCond, Inside e) :
    ∃ toks, lex none (conjunction (queryParts r assocs jobCond)) = some toks ∧ Balanced toks ∧
      literals toks = quoted jobCond := by
  have hgood : ∀ ts ∈ queryParts r assocs jobCond, ∀ t ∈ ts, t.Good := by
    intro ts hts t ht
    obtain hts | hts := List.mem_append.mp hts
    · rw [parts_eq hassoc] at hts
      exact good_of_mem_lists (List.mem_of_mem_filter hts) ht
    · rw [(of_mem_placeParts hts).2.2] at ht
      obtain ⟨a, -, rfl⟩ := List.mem_map.mp ht
      exact good_between a.lft
  have hplaces : (placeParts r assocs).flatten.flatMap (fun t => values t.frags) = [] := by
    refine List.flatMap_eq_nil_iff.mpr fun t ht => ?_
    obtain ⟨ts, hts, ht⟩ := List.mem_flatten.mp ht
    rw [(of_mem_placeParts hts).2.2] at ht
    obtain ⟨a, -, rfl⟩ := List.mem_map.mp ht
    rfl
  have hvalues : values (conjunctionFrags (queryParts r assocs jobCond)) = quoted jobCond := by
    rw [values_conjunctionFrags, queryParts, List.flatten_append, List.flatMap_append, hplaces,
      List.append_nil, ← values_conjunctionFrags, values_parts hassoc]
  rw [← text_conjunctionFrags, ← hvalues]
  rw [← hvalues] at hin
  exact ⟨_, lex_text (plain_conjunctionFrags hgood) hin, level_conjunctionFrags hgood 0,
    literals_toks _⟩

end Restriction

/-! ## Who is shown what -/

section Shown

variable {J : Type} {associd : J → Nat} {holds : Term → J → Option Assoc → Prop} {r : Requester}
  {assocs : List Assoc} {jobs : List J} {jobCond : JobCond}

theorem isAdmin_of_ordinary (h : r.Ordinary) : r.isAdmin = true ↔ r.slurmdbdConf = none := by
  obtain ⟨huid, hlevel, hslurm⟩ := h
  unfold Requester.isAdmin
  cases hconf : r.slurmdbdConf with
  | none => simp
  | some slurmUserId =>
    have hne : r.uid ≠ slurmUserId := hslurm slurmUserId hconf
    simp [hne, huid, hlevel]

theorem mem_joinRows {job : J} {a : Assoc} (h : some a ∈ joinRows associd assocs job) :
    a ∈ assocs := by
  unfold joinRows at h
  dsimp only at h
  split at h
  · simp at h
  · obtain ⟨b, hb, hba⟩ := List.mem_map.mp h
    rw [← Option.some.inj hba]
    exact List.mem_of_mem_filter hb

/-- Whoever may see an association is found by the query for `lft`. -/
theorem ownRows_ne_nil {a : Assoc} (ha : a ∈ assocs) (h : Allowed r assocs a) :
    ownRows r assocs ≠ [] := by
  obtain hname | ⟨b, hb, hacct, -⟩ := h
  · refine List.ne_nil_of_mem (List.mem_filter.mpr ⟨ha, ?_⟩)
    simp [hname]
  · refine List.ne_nil_of_mem (List.mem_filter.mpr ⟨hb, ?_⟩)
    simp [hacct]

/-- With rows for `lft` the query asks for an association that reaches over one of them. -/
theorem selected_query_iff (hadmin : r.isAdmin = false) (hrows : ownRows r assocs ≠ []) (job : J)
    (t2 : Option Assoc) :
    Selected associd holds assocs jobs (queryParts r assocs jobCond) job t2 ↔
      Selected associd holds assocs jobs (parts jobCond) job t2 ∧
        ∃ a, t2 = some a ∧ Covers r assocs a := by
  have hplaces : placeParts r assocs =
      [(ownRows r assocs).map fun a => .between (decimal a.lft)] := by
    unfold placeParts
    rw [if_neg (by simp [hadmin]), List.filter_cons_of_pos (by simpa using hrows), List.filter_nil]
  have hcovers : (∃ t ∈ (ownRows r assocs).map fun a => Term.between (decimal a.lft),
      satisfies holds job t2 t) ↔ ∃ a, t2 = some a ∧ Covers r assocs a := by
    constructor
    · rintro ⟨t, ht, hsat⟩
      obtain ⟨b, hb, rfl⟩ := List.mem_map.mp ht
      obtain ⟨a, ha, hleft, hright⟩ := hsat
      rw [value_decimal] at hleft hright
      exact ⟨a, ha, b, hb, hleft, hright⟩
    · rintro ⟨a, ha, b, hb, hleft, hright⟩
      refine ⟨_, List.mem_map_of_mem hb, a, ha, ?_, ?_⟩
      · rwa [value_decimal]
      · rwa [value_decimal]
  unfold Selected Matches queryParts
  rw [hplaces, List.forall_mem_append, List.forall_mem_singleton, hcovers]
  tauto

theorem queryParts_eq_parts (h : r.isAdmin = true ∨ ownRows r assocs = []) :
    queryParts r assocs jobCond = parts jobCond := by
  unfold queryParts placeParts
  obtain h | h := h
  · rw [if_pos h, List.append_nil]
  · rw [h]
    simp

/-- In the daemon what is selected is private exactly when no row escapes the restriction. -/
theorem private_iff_confined (hr : r.Ordinary) (hconf : r.slurmdbdConf ≠ none) :
    Private associd holds r assocs jobs jobCond ↔ Confined associd holds r assocs jobs jobCond := by
  have hnot : r.isAdmin = false :=
    Bool.eq_false_iff.mpr fun h => hconf ((isAdmin_of_ordinary hr).mp h)
  unfold Private
  by_cases hrows : ownRows r assocs = []
  · rw [queryParts_eq_parts (Or.inr hrows)]
    constructor
    · intro h
      refine ⟨hconf, fun _ job t2 hsel => ?_, fun job a _ hcov => ?_⟩
      · obtain ⟨a, rfl, hallowed⟩ := h job t2 hsel
        exact ownRows_ne_nil (mem_joinRows hsel.2.1) hallowed hrows
      · obtain ⟨b, hb, -⟩ := hcov
        rw [hrows] at hb
        cases hb
    · exact fun h job t2 hsel => absurd hsel (h.found hrows job t2)
  · constructor
    · intro h
      refine ⟨hconf, fun hnil => absurd hnil hrows, fun job a hsel hcov => ?_⟩
      have hquery := (selected_query_iff hnot hrows job (some a)).mpr ⟨hsel, a, rfl, hcov⟩
      obtain ⟨a', ha', hallowed⟩ := h job (some a) hquery
      rwa [Option.some.inj ha']
    · intro h job t2 hsel
      obtain ⟨hsel, a, rfl, hcov⟩ := (selected_query_iff hnot hrows job t2).mp hsel
      exact ⟨a, rfl, h.above job a hsel hcov⟩

end Shown

/-- For a job condition that becomes a well-formed query: its text, when it keeps the jobs of
others from a user who is no administrator, and that outside of the daemon it is the job condition
alone. -/
theorem private_iff {J : Type} (associd : J → Nat) (holds : Term → J → Option Assoc → Prop)
    {r : Requester} (hr : r.Ordinary) (assocs : List Assoc) (jobs : List J) {jobCond : JobCond}
    (hassoc : jobCond.associdList = []) (hresv : jobCond.resvList = [])
    (hin : ∀ e ∈ quoted jobCond, Inside e) :
    getJobsExtra r assocs jobCond =
        some (if queryParts r assocs jobCond = [] then none
          else some (" where ".toList ++ conjunction (queryParts r assocs jobCond))) ∧
      (∃ toks, lex none (conjunction (queryParts r assocs jobCond)) = some toks ∧
        Balanced toks ∧ literals toks = quoted jobCond) ∧
      (Confined associd holds r assocs jobs jobCond →
        Private associd holds r assocs jobs jobCond) ∧
      (r.slurmdbdConf ≠ none → Private associd holds r assocs jobs jobCond →
        Confined associd holds r assocs jobs jobCond) ∧
      (r.slurmdbdConf = none → queryParts r assocs jobCond = parts jobCond) :=
  ⟨getJobsExtra_eq hassoc hresv, reads_query hassoc hin,
    fun h => (private_iff_confined hr h.daemon).mpr h,
    fun hconf => (private_iff_confined hr hconf).mp,
    fun hconf => queryParts_eq_parts (Or.inl ((isAdmin_of_ordinary hr).mpr hconf))⟩

/-- A user without accounts, asking the daemon. -/
def bob : Requester := ⟨some 1, 1000, 0, some "bob".toList, []⟩

theorem bob_ordinary : bob.Ordinary := by
  refine ⟨by decide, by decide, fun slurmUserId h => ?_⟩
  rw [← Option.some.inj h]
  decide

/-- The association of another user. -/
def annsAssoc : Assoc := ⟨2, "ann".toList, "physics".toList, 2, 3⟩

theorem private_iff_bob :
    getJobsExtra bob [annsAssoc] {} =
        some (if queryParts bob [annsAssoc] {} = [] then none
          else some (" where ".toList ++ conjunction (queryParts bob [annsAssoc] {}))) ∧
      (∃ toks, lex none (conjunction (queryParts bob [annsAssoc] {})) = some toks ∧
        Balanced toks ∧ literals toks = quoted {}) ∧
      (Confined id (fun _ _ _ => True) bob [annsAssoc] [2] {} →
        Private id (fun _ _ _ => True) bob [annsAssoc] [2] {}) ∧
      (bob.slurmdbdConf ≠ none → Private id (fun _ _ _ => True) bob [annsAssoc] [2] {} →
        Confined id (fun _ _ _ => True) bob [annsAssoc] [2] {}) ∧
      (bob.slurmdbdConf = none → queryParts bob [annsAssoc] {} = parts {}) :=
  private_iff id (fun _ _ _ => True) bob_ordinary [annsAssoc] [2] rfl rfl fun e he => by cases he

/-- Who has no association is shown the jobs of all. -/
theorem not_private_bob :
    ¬∀ (r : Requester) (assocs : List Assoc) (jobs : List Nat), r.Ordinary →
      Private id (fun _ _ _ => True) r assocs jobs {} := by
  intro h
  have hselected : Selected id (fun _ _ _ => True) [annsAssoc] [2]
      (queryParts bob [annsAssoc] {}) 2 (some annsAssoc) := by
    refine ⟨by decide, by decide, fun ts hts => ?_⟩
    have hparts : queryParts bob [annsAssoc] {} = [] := by decide +kernel
    rw [hparts] at hts
    cases hts
  obtain ⟨a, ha, hallowed⟩ := h bob [annsAssoc] [2] bob_ordinary 2 _ hselected
  obtain rfl := Option.some.inj ha
  obtain hname | ⟨b, -, hacct, -⟩ := hallowed
  · exact absurd hname (by decide +kernel)
  · cases hacct

end Slurm.PrivateJobs
