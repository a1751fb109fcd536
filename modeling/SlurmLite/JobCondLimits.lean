import SlurmLite.Base.Sql
import SlurmLite.CharList
import SlurmLite.Sacct.NumUnit

/-!
# Conditions of job queries

`setup_job_cond_limits` of `mysql_jobacct_process.c` turns a job condition into
the text of a condition, one block after the other.

* **Terms** (`Term`): what one call of `xstrfmtcat` writes, as text and as the
  pieces of a template.
* **Blocks** (`anyOf`): the disjunction of one list.
* `setupJobCondLimits_eq`: without association ids and reservation names the
  text is a conjunction of parenthesised disjunctions.
* `wellFormed_iff`: the conditions from which a well-formed text is made.
-/

namespace Slurm.JobCondLimits

open Base.Text Base.CLib Base.Sql Slurm.CharList Slurm.Print

/-- What `setup_job_cond_limits` reads of an `acct_job_cond_t`; a list that is not there
counts as an empty one. -/
structure JobCond where
  acctList : List Text := []
  associdList : List Text := []
  clusterList : List Text := []
  groupidList : List Text := []
  partitionList : List Text := []
  resvList : List Text := []
  resvidList : List Text := []
  /-- The job ids of the selected steps. -/
  stepList : List Nat := []
  stateList : List Text := []
  usageEnd : Int := 0
  usageStart : Int := 0
  useridList : List Text := []
  wckeyList : List Text := []
deriving DecidableEq

/-- `assoc_table`. -/
def assocTable : Text := "assoc_table".toList

/-- The format of one term with its arguments. -/
inductive Term where
  /-- `column='%s'` -/
  | equals (column : String) (object : Text)
  | assocId (object : Text)
  | assocGone
  | assocBelow
  | assocNull
  | jobid (n : Nat)
  /-- `(t1.cluster='%s' || %s.cluster='%s')` -/
  | cluster (tableLevel : String) (object : Text)
  /-- The usage windows with a start, with both bounds and with an end. -/
  | endsAfter (usageStart : Int)
  | overlaps (usageEnd usageStart : Int)
  | eligibleBefore (usageEnd : Int)
  /-- `(%s between t2.lft and t2.rgt)` -/
  | between (lft : Text)
deriving DecidableEq

/-- The pieces of a term, with the `%d` of a `time_t`. -/
def Term.frags : Term → List Frag
  | .equals column object => [.equal column.toList object]
  | .assocId object => [.raw ("t3.id=".toList ++ object)]
  | .assocGone => [.raw "t3.id is null".toList]
  | .assocBelow => [.raw "t2.lft between t3.lft and t3.rgt".toList]
  | .assocNull => [.raw "t2.lft is null".toList]
  | .jobid n => [.raw ("t1.jobid=".toList ++ decimal n)]
  | .cluster tableLevel object =>
    .raw ['('] :: [.equal "t1.cluster".toList object, .raw " || ".toList,
      .equal (tableLevel.toList ++ ".cluster".toList) object] ++ [.raw [')']]
  | .endsAfter usageStart =>
    [.raw ("t1.end >= ".toList ++ intText (int32 usageStart) ++ " || t1.end = 0".toList)]
  | .overlaps usageEnd usageStart =>
    .raw ['('] :: (.raw ("t1.eligible < ".toList ++ intText (int32 usageEnd) ++ " && ".toList) ::
      (.raw ['('] :: [.raw ("t1.end >= ".toList ++ intText (int32 usageStart) ++
        " || t1.end = 0".toList)] ++ [.raw [')']])) ++ [.raw [')']]
  | .eligibleBefore usageEnd =>
    .raw ['('] :: [.raw ("t1.eligible < ".toList ++ intText (int32 usageEnd))] ++ [.raw [')']]
  | .between lft =>
    .raw ['('] :: [.raw (lft ++ " between t2.lft and t2.rgt".toList)] ++ [.raw [')']]

/-- What a term writes. -/
def Term.text (t : Term) : Text := Base.Sql.text t.frags

/-- `" && ("` after a condition, `" where ("` before the first one. -/
def opened : Option Text → Text
  | some extra => extra ++ " && (".toList
  | none => " where (".toList

/-- The elements of one list with `" || "` between them. -/
def disjunction (terms : List Term) : Text := " || ".toList.intercalate (terms.map Term.text)

/-- The block of one list. -/
def anyOf (terms : List Term) (extra : Option Text) : Option Text :=
  if terms = [] then extra else some (opened extra ++ disjunction terms ++ [')'])

/-- The block of the association ids, which begins with a table of its own. -/
def assocBlock (associdList : List Text) (extra : Option Text) : Option Text :=
  if associdList = [] then extra
  else
    some (extra.getD [] ++ ", ".toList ++ assocTable ++ " as t3 where (".toList ++
      disjunction (associdList.map .assocId) ++ [')'] ++ " || ".toList ++
      Term.assocGone.text ++ ") && (".toList ++ disjunction [.assocBelow, .assocNull] ++ [')'])

/-- The table whose clusters are compared as well. -/
def tableLevel (jobCond : JobCond) : String := if jobCond.associdList = [] then "t2" else "t3"

/-- The term of the usage window; zero stands for a bound that is not given. -/
def usageTerms (jobCond : JobCond) : List Term :=
  if jobCond.usageStart ≠ 0 then
    if jobCond.usageEnd = 0 then [.endsAfter jobCond.usageStart]
    else [.overlaps jobCond.usageEnd jobCond.usageStart]
  else if jobCond.usageEnd ≠ 0 then [.eligibleBefore jobCond.usageEnd]
  else []

/-- `setup_job_cond_limits`: the condition afterwards. With reservation names it is undefined:
the format of their query has a `%s` without an argument. -/
def setupJobCondLimits (jobCond : JobCond) (extra : Option Text) : Option (Option Text) :=
  let extra := assocBlock jobCond.associdList extra
  let extra := anyOf (jobCond.acctList.map (.equals "t1.account")) extra
  let extra := anyOf (jobCond.useridList.map (.equals "t1.uid")) extra
  let extra := anyOf (jobCond.groupidList.map (.equals "t1.gid")) extra
  let extra := anyOf (jobCond.partitionList.map (.equals "t1.partition")) extra
  if jobCond.resvList ≠ [] then none
  else
    let extra := anyOf (jobCond.resvidList.map (.equals "t1.resvid")) extra
    let extra := anyOf (jobCond.stepList.map .jobid) extra
    let extra := anyOf (usageTerms jobCond) extra
    let extra := anyOf (jobCond.stateList.map (.equals "t1.state")) extra
    let extra := anyOf (jobCond.clusterList.map (.cluster (tableLevel jobCond))) extra
    some (anyOf (jobCond.wckeyList.map (.equals "t1.wckey")) extra)

/-! ## The condition that is meant -/

/-- The lists of a condition in the order of the query. -/
def lists (jobCond : JobCond) : List (List Term) :=
  [jobCond.acctList.map (.equals "t1.account"), jobCond.useridList.map (.equals "t1.uid"),
    jobCond.groupidList.map (.equals "t1.gid"), jobCond.partitionList.map (.equals "t1.partition"),
    jobCond.resvidList.map (.equals "t1.resvid"), jobCond.stepList.map .jobid,
    usageTerms jobCond, jobCond.stateList.map (.equals "t1.state"),
    jobCond.clusterList.map (.cluster (tableLevel jobCond)),
    jobCond.wckeyList.map (.equals "t1.wckey")]

/-- What association ids ask for: one of them or none left, and a place below it. -/
def assocParts (jobCond : JobCond) : List (List Term) :=
  if jobCond.associdList = [] then []
  else [jobCond.associdList.map .assocId ++ [.assocGone], [.assocBelow, .assocNull]]

/-- The disjunctions of a query: one for each list with elements. -/
def parts (jobCond : JobCond) : List (List Term) :=
  assocParts jobCond ++ (lists jobCond).filter (· ≠ [])

/-- Disjunctions in parentheses with `" && "` between them. -/
def conjunction (ps : List (List Term)) : Text :=
  " && ".toList.intercalate (ps.map fun ts => '(' :: disjunction ts ++ [')'])

/-- What goes before the disjunctions. -/
def head (jobCond : JobCond) (extra : Option Text) : Text :=
  if jobCond.associdList = [] then
    match extra with
    | some extra => extra ++ " && ".toList
    | none => " where ".toList
  else extra.getD [] ++ ", ".toList ++ assocTable ++ " as t3 where ".toList

/-- The elements that stand between quotes, in the order of the query. -/
def quoted (jobCond : JobCond) : List Text :=
  jobCond.acctList ++ jobCond.useridList ++ jobCond.groupidList ++ jobCond.partitionList ++
    jobCond.resvidList ++ jobCond.stateList ++ jobCond.clusterList.flatMap (fun e => [e, e]) ++
    jobCond.wckeyList

/-- The condition is the conjunction of its disjunctions after one `where`; its parentheses
balance, and its literals are the elements. -/
structure WellFormed (jobCond : JobCond) (extra extra' : Option Text) : Prop where
  text_eq : extra' = if parts jobCond = [] then extra
    else some (head jobCond extra ++ conjunction (parts jobCond))
  reads : ∃ toks, lex none (conjunction (parts jobCond)) = some toks ∧ Balanced toks ∧
    literals toks = quoted jobCond

/-! ## The text -/

section TextOf

variable {jobCond : JobCond} {ps : List (List Term)} {ts : List Term} {extra : Option Text}

/-- The text after some disjunctions. -/
def joined (jobCond : JobCond) (extra : Option Text) (ps : List (List Term)) : Option Text :=
  if ps = [] then extra else some (head jobCond extra ++ conjunction ps)

theorem opened_none : opened none = " where ".toList ++ ['('] := rfl

theorem opened_some (e : Text) : opened (some e) = e ++ " && ".toList ++ ['('] := by
  have hand : " && (".toList = " && ".toList ++ ['('] := rfl
  exact (congrArg (e ++ ·) hand).trans (List.append_assoc _ _ _).symm

theorem head_none (hassoc : jobCond.associdList = []) :
    head jobCond none = " where ".toList := by
  unfold head
  rw [if_pos hassoc]

theorem head_some (hassoc : jobCond.associdList = []) (e : Text) :
    head jobCond (some e) = e ++ " && ".toList := by
  unfold head
  rw [if_pos hassoc]

theorem conjunction_singleton (ts : List Term) :
    conjunction [ts] = ['('] ++ disjunction ts ++ [')'] := by
  rw [conjunction, List.map_singleton, List.intercalate_singleton]
  rfl

theorem conjunction_append (hps : ps ≠ []) (ts : List Term) :
    conjunction (ps ++ [ts]) =
      conjunction ps ++ " && ".toList ++ (['('] ++ disjunction ts ++ [')']) := by
  have hne : (ps.map fun ts => '(' :: disjunction ts ++ [')']) ≠ [] := by
    rwa [ne_eq, List.map_eq_nil_iff]
  rw [conjunction, conjunction, List.map_append, List.map_singleton,
    intercalate_append_singleton _ _ hne]
  rfl

theorem anyOf_joined (hne : ps ≠ [] ∨ jobCond.associdList = []) :
    anyOf ts (joined jobCond extra ps) = joined jobCond extra (ps ++ [ts].filter (· ≠ [])) := by
  by_cases hts : ts = []
  · rw [anyOf, if_pos hts, hts, List.filter_cons_of_neg (by simp), List.filter_nil,
      List.append_nil]
  · rw [anyOf, if_neg hts, List.filter_cons_of_pos (by simpa using hts), List.filter_nil]
    have happ : ps ++ [ts] ≠ [] := by simp
    rw [joined, joined, if_neg happ]
    split
    · rename_i hps
      have hassoc := hne.resolve_left fun h => h hps
      rw [hps, List.nil_append, conjunction_singleton]
      cases extra with
      | none =>
        rw [opened_none, head_none hassoc]
        simp only [List.append_assoc]
      | some extra =>
        rw [opened_some, head_some hassoc]
        simp only [List.append_assoc]
    · rename_i hps
      rw [conjunction_append hps, opened_some]
      simp only [List.append_assoc]

theorem foldl_anyOf (hne : ps ≠ [] ∨ jobCond.associdList = []) (ls : List (List Term)) :
    ls.foldl (fun extra ts => anyOf ts extra) (joined jobCond extra ps) =
      joined jobCond extra (ps ++ ls.filter (· ≠ [])) := by
  induction ls generalizing ps with
  | nil => rw [List.foldl_nil, List.filter_nil, List.append_nil]
  | cons l ls ih =>
    have hnext : ps ++ [l].filter (· ≠ []) ≠ [] ∨ jobCond.associdList = [] :=
      hne.imp_left fun h happ => h (List.append_eq_nil_iff.mp happ).1
    rw [List.foldl_cons, anyOf_joined hne, ih hnext, List.append_assoc, ← List.filter_append]
    rfl

/-- Without reservation names the blocks are run through one after the other. -/
theorem setupJobCondLimits_eq_foldl (hresv : jobCond.resvList = []) (extra : Option Text) :
    setupJobCondLimits jobCond extra =
      some ((lists jobCond).foldl (fun extra ts => anyOf ts extra)
        (assocBlock jobCond.associdList extra)) := by
  unfold setupJobCondLimits
  dsimp only
  rw [if_neg fun h => h hresv]
  rfl

theorem setupJobCondLimits_none (hresv : jobCond.resvList ≠ []) (extra : Option Text) :
    setupJobCondLimits jobCond extra = none := by
  unfold setupJobCondLimits
  dsimp only
  rw [if_pos hresv]

/-- Without association ids and reservation names the blocks make a conjunction. -/
theorem setupJobCondLimits_eq (hassoc : jobCond.associdList = [])
    (hresv : jobCond.resvList = []) (extra : Option Text) :
    setupJobCondLimits jobCond extra =
      some (if parts jobCond = [] then extra
        else some (head jobCond extra ++ conjunction (parts jobCond))) := by
  have hparts : parts jobCond = [] ++ (lists jobCond).filter (· ≠ []) := by
    rw [parts, assocParts, if_pos hassoc]
  have hfold : (lists jobCond).foldl (fun extra ts => anyOf ts extra) (joined jobCond extra []) =
      joined jobCond extra ([] ++ (lists jobCond).filter (· ≠ [])) :=
    foldl_anyOf (Or.inr hassoc) (lists jobCond)
  rw [← hparts, joined, if_pos rfl] at hfold
  rw [setupJobCondLimits_eq_foldl hresv, assocBlock, if_pos hassoc, hfold]
  rfl

end TextOf

/-! ## The template -/

section Template

variable {ps : List (List Term)} {ts : List Term} {t : Text}

/-- The conjunction in pieces. -/
def conjunctionFrags (ps : List (List Term)) : List Frag :=
  [Frag.raw " && ".toList].intercalate (ps.map fun ts =>
    .raw ['('] :: [Frag.raw " || ".toList].intercalate (ts.map Term.frags) ++ [.raw [')']])

theorem text_conjunctionFrags (ps : List (List Term)) :
    text (conjunctionFrags ps) = conjunction ps := by
  have hpart : ∀ ts : List Term,
      text (.raw ['('] :: [Frag.raw " || ".toList].intercalate (ts.map Term.frags) ++
        [.raw [')']]) = '(' :: disjunction ts ++ [')'] := by
    intro ts
    have hdisj : text ([Frag.raw " || ".toList].intercalate (ts.map Term.frags)) =
        disjunction ts := by
      rw [text_intercalate, List.map_map]
      rfl
    rw [text_append, ← hdisj]
    rfl
  rw [conjunctionFrags, text_intercalate, List.map_map]
  exact congrArg (" && ".toList.intercalate ·) (List.map_congr_left fun ts _ => hpart ts)

theorem values_conjunctionFrags (ps : List (List Term)) :
    values (conjunctionFrags ps) = ps.flatten.flatMap fun t => values t.frags := by
  have hpart : ∀ ts : List Term,
      values (.raw ['('] :: [Frag.raw " || ".toList].intercalate (ts.map Term.frags) ++
        [.raw [')']]) = ts.flatMap fun t => values t.frags := by
    intro ts
    have hclose : values [Frag.raw [')']] = [] := rfl
    have hdisj := values_intercalate " || ".toList (ts.map Term.frags)
    rw [List.map_map] at hdisj
    rw [values_append, hclose, List.append_nil]
    exact hdisj
  rw [conjunctionFrags, values_intercalate, List.map_map, List.flatten_eq_flatMap (L := ps),
    List.flatMap_assoc]
  exact congrArg List.flatten (List.map_congr_left fun ts _ => hpart ts)

/-- Text of the program without quotes and parentheses. -/
def Neutral (t : Text) : Prop := ∀ c ∈ t, c ≠ '\'' ∧ c ≠ '(' ∧ c ≠ ')'

/-- A term whose own text has no quotes and whose parentheses balance. -/
structure Term.Good (t : Term) : Prop where
  plain : ∀ f ∈ t.frags, f.Plain
  level : Level t.frags

theorem Neutral.plain (h : Neutral t) : (Frag.raw t).Plain := fun hmem => (h _ hmem).1 rfl

theorem Neutral.level (h : Neutral t) : Level [.raw t] := level_raw fun c hc => (h c hc).2

theorem Neutral.append {u : Text} (ht : Neutral t) (hu : Neutral u) : Neutral (t ++ u) := by
  intro c hc
  obtain hc | hc := List.mem_append.mp hc
  · exact ht c hc
  · exact hu c hc

theorem neutral_of_all (h : t.all (fun c => c != '\'' && c != '(' && c != ')') = true) :
    Neutral t := by
  intro c hc
  have := List.all_eq_true.mp h c hc
  rw [Bool.and_eq_true, Bool.and_eq_true, bne_iff_ne, bne_iff_ne, bne_iff_ne] at this
  exact ⟨this.1.1, this.1.2, this.2⟩

theorem neutral_numChar (h : ∀ c ∈ t, NumChar c) : Neutral t := by
  intro c hc
  obtain hdigit | hsign := h c hc
  · refine ⟨?_, ?_, ?_⟩
    all_goals
      rintro rfl
      revert hdigit
      decide
  · exact neutral_of_all (t := "-.KMGP?".toList) (by decide) c hsign

theorem neutral_intText (n : Int) : Neutral (intText n) :=
  neutral_numChar fun _ => numChar_intText

theorem good_equals {column : String} (h : Neutral column.toList) (object : Text) :
    (Term.equals column object).Good := by
  refine ⟨fun f hf => ?_, level_equal fun c hc => (h c hc).2⟩
  obtain rfl := List.mem_singleton.mp hf
  exact h.plain

theorem plain_paren {fs : List Frag} (h : ∀ f ∈ fs, f.Plain) :
    ∀ f ∈ Frag.raw ['('] :: fs ++ [Frag.raw [')']], f.Plain := by
  have hopen : (Frag.raw ['(']).Plain := show '\'' ∉ ['('] by decide
  have hclose : (Frag.raw [')']).Plain := show '\'' ∉ [')'] by decide
  intro f hf
  obtain hf | hf := List.mem_append.mp hf
  · obtain rfl | hf := List.mem_cons.mp hf
    · exact hopen
    · exact h f hf
  · rw [List.mem_singleton.mp hf]
    exact hclose

theorem plain_singleton {f : Frag} (h : f.Plain) : ∀ g ∈ [f], g.Plain :=
  List.forall_mem_singleton.mpr h

theorem good_jobid (n : Nat) : (Term.jobid n).Good := by
  have h : Neutral ("t1.jobid=".toList ++ decimal n) :=
    (neutral_of_all (by decide)).append (neutral_numChar fun _ => numChar_decimal)
  exact ⟨plain_singleton h.plain, h.level⟩

theorem good_cluster {tableLevel : String} (h : Neutral tableLevel.toList) (object : Text) :
    (Term.cluster tableLevel object).Good := by
  have hfirst : Neutral "t1.cluster".toList := neutral_of_all (by decide)
  have hor : Neutral " || ".toList := neutral_of_all (by decide)
  have hsecond : Neutral (tableLevel.toList ++ ".cluster".toList) :=
    h.append (neutral_of_all (by decide))
  constructor
  · refine plain_paren ?_
    rw [List.forall_mem_cons, List.forall_mem_cons, List.forall_mem_singleton]
    exact ⟨hfirst.plain, hor.plain, hsecond.plain⟩
  · refine Level.paren ?_
    have hleft := @level_equal _ object fun c hc => (hfirst c hc).2
    have hright := @level_equal _ object fun c hc => (hsecond c hc).2
    exact hleft.append (hor.level.append hright)

theorem good_window (n m : Int) :
    (Term.endsAfter n).Good ∧ (Term.overlaps m n).Good ∧ (Term.eligibleBefore n).Good := by
  have hends : Neutral ("t1.end >= ".toList ++ intText (int32 n) ++ " || t1.end = 0".toList) :=
    ((neutral_of_all (by decide)).append (neutral_intText _)).append (neutral_of_all (by decide))
  have heligible : ∀ k, Neutral ("t1.eligible < ".toList ++ intText (int32 k)) := fun k =>
    (neutral_of_all (by decide)).append (neutral_intText _)
  have hand : Neutral ("t1.eligible < ".toList ++ intText (int32 m) ++ " && ".toList) :=
    (heligible m).append (neutral_of_all (by decide))
  refine ⟨⟨plain_singleton hends.plain, hends.level⟩, ⟨?_, ?_⟩, ⟨?_, ?_⟩⟩
  · refine plain_paren (List.forall_mem_cons.mpr ⟨hand.plain, ?_⟩)
    exact plain_paren (plain_singleton hends.plain)
  · exact (hand.level.append hends.level.paren).paren
  · exact plain_paren (plain_singleton (heligible n).plain)
  · exact (heligible n).level.paren

/-- Every term of a list is well behaved. -/
theorem good_of_mem_lists {jobCond : JobCond} {t : Term} (hts : ts ∈ lists jobCond) (ht : t ∈ ts) :
    t.Good := by
  have hequals : ∀ {column : String} {list : List Text}, Neutral column.toList →
      t ∈ list.map (.equals column) → t.Good := by
    intro column list hcolumn hmem
    obtain ⟨object, -, rfl⟩ := List.mem_map.mp hmem
    exact good_equals hcolumn object
  simp only [lists, List.mem_cons, List.not_mem_nil, or_false] at hts
  obtain rfl | rfl | rfl | rfl | rfl | rfl | rfl | rfl | rfl | rfl := hts
  · exact hequals (neutral_of_all (by decide)) ht
  · exact hequals (neutral_of_all (by decide)) ht
  · exact hequals (neutral_of_all (by decide)) ht
  · exact hequals (neutral_of_all (by decide)) ht
  · exact hequals (neutral_of_all (by decide)) ht
  · obtain ⟨n, -, rfl⟩ := List.mem_map.mp ht
    exact good_jobid n
  · unfold usageTerms at ht
    have hwindow := good_window jobCond.usageStart jobCond.usageEnd
    split at ht
    · split at ht
      · rw [List.mem_singleton.mp ht]
        exact hwindow.1
      · rw [List.mem_singleton.mp ht]
        exact hwindow.2.1
    · split at ht
      · rw [List.mem_singleton.mp ht]
        exact (good_window jobCond.usageEnd 0).2.2
      · cases ht
  · exact hequals (neutral_of_all (by decide)) ht
  · obtain ⟨object, -, rfl⟩ := List.mem_map.mp ht
    refine good_cluster ?_ object
    unfold tableLevel
    split
    · exact neutral_of_all (by decide)
    · exact neutral_of_all (by decide)
  · exact hequals (neutral_of_all (by decide)) ht

variable (hgood : ∀ ts ∈ ps, ∀ t ∈ ts, t.Good)
include hgood

theorem plain_conjunctionFrags : ∀ f ∈ conjunctionFrags ps, f.Plain := by
  have hand : Neutral " && ".toList := neutral_of_all (by decide)
  have hor : Neutral " || ".toList := neutral_of_all (by decide)
  intro f hf
  obtain rfl | ⟨l, hl, hf⟩ := mem_intercalate hf
  · exact hand.plain
  · obtain ⟨ts, hts, rfl⟩ := List.mem_map.mp hl
    refine plain_paren (fun g hg => ?_) f hf
    obtain rfl | ⟨k, hk, hg⟩ := mem_intercalate hg
    · exact hor.plain
    · obtain ⟨t, ht, rfl⟩ := List.mem_map.mp hk
      exact (hgood ts hts t ht).plain g hg

theorem level_conjunctionFrags : Level (conjunctionFrags ps) := by
  have hand : Neutral " && ".toList := neutral_of_all (by decide)
  have hor : Neutral " || ".toList := neutral_of_all (by decide)
  refine level_intercalate hand.level fun l hl => ?_
  obtain ⟨ts, hts, rfl⟩ := List.mem_map.mp hl
  refine (level_intercalate hor.level fun k hk => ?_).paren
  obtain ⟨t, ht, rfl⟩ := List.mem_map.mp hk
  exact (hgood ts hts t ht).level

end Template

/-! ## Well-formed conditions -/

section Formed

variable {jobCond : JobCond}

theorem parts_eq (hassoc : jobCond.associdList = []) :
    parts jobCond = (lists jobCond).filter (· ≠ []) := by
  rw [parts, assocParts, if_pos hassoc, List.nil_append]

theorem values_parts (hassoc : jobCond.associdList = []) :
    values (conjunctionFrags (parts jobCond)) = quoted jobCond := by
  have hequals : ∀ (column : String) (list : List Text),
      (list.map (Term.equals column)).flatMap (fun t => values t.frags) = list := by
    intro column list
    induction list with
    | nil => rfl
    | cons object list ih => exact congrArg (object :: ·) ih
  have hcluster : ∀ (table : String) (list : List Text),
      (list.map (Term.cluster table)).flatMap (fun t => values t.frags) =
        list.flatMap fun e => [e, e] := by
    intro table list
    induction list with
    | nil => rfl
    | cons object list ih => exact congrArg ([object, object] ++ ·) ih
  have hjobid : ∀ list : List Nat,
      (list.map Term.jobid).flatMap (fun t => values t.frags) = [] := by
    intro list
    induction list with
    | nil => rfl
    | cons n list ih => exact ih
  have husage : (usageTerms jobCond).flatMap (fun t => values t.frags) = [] := by
    unfold usageTerms
    split
    · split
      · rfl
      · rfl
    · split
      · rfl
      · rfl
  rw [values_conjunctionFrags, parts_eq hassoc, List.flatten_filter_ne_nil]
  simp only [lists, List.flatten_cons, List.flatten_nil, List.append_nil, List.flatMap_append,
    hequals, hcluster, hjobid, husage, List.nil_append, quoted, List.append_assoc]

/-- The conjunction reads as it is meant exactly when the elements are inside their quotes. -/
theorem reads_iff (hassoc : jobCond.associdList = []) :
    (∃ toks, lex none (conjunction (parts jobCond)) = some toks ∧ Balanced toks ∧
      literals toks = quoted jobCond) ↔ ∀ e ∈ quoted jobCond, Inside e := by
  have hgood : ∀ ts ∈ parts jobCond, ∀ t ∈ ts, t.Good := by
    intro ts hts t ht
    rw [parts_eq hassoc] at hts
    exact good_of_mem_lists (List.mem_of_mem_filter hts) ht
  have hplain := plain_conjunctionFrags hgood
  rw [← text_conjunctionFrags, ← values_parts hassoc]
  constructor
  · rintro ⟨toks, htoks, -, hlit⟩
    exact inside_of_lex_text hplain htoks hlit
  · intro hin
    exact ⟨_, lex_text hplain hin, level_conjunctionFrags hgood 0, literals_toks _⟩

/-- What a block adds does not depend on the text before it. -/
theorem anyOf_some (ts : List Term) :
    ∃ added, ∀ e, anyOf ts (some e) = some (e ++ added) := by
  by_cases hts : ts = []
  · exact ⟨[], fun e => by rw [anyOf, if_pos hts, List.append_nil]⟩
  · refine ⟨" && ".toList ++ (['('] ++ disjunction ts ++ [')']), fun e => ?_⟩
    rw [anyOf, if_neg hts, opened_some]
    simp only [List.append_assoc]

theorem foldl_anyOf_some (ls : List (List Term)) :
    ∃ added, ∀ e, ls.foldl (fun extra ts => anyOf ts extra) (some e) = some (e ++ added) := by
  induction ls with
  | nil => exact ⟨[], fun e => by rw [List.append_nil, List.foldl_nil]⟩
  | cons ts ls ih =>
    obtain ⟨first, hfirst⟩ := anyOf_some ts
    obtain ⟨rest, hrest⟩ := ih
    refine ⟨first ++ rest, fun e => ?_⟩
    rw [List.foldl_cons, hfirst, hrest, List.append_assoc]

theorem parts_ne_nil (hassoc : jobCond.associdList ≠ []) : parts jobCond ≠ [] := by
  rw [parts, assocParts, if_neg hassoc]
  exact List.cons_ne_nil _ _

/-- With association ids the text has one closing parenthesis too many. -/
theorem text_ne_of_assoc (hassoc : jobCond.associdList ≠ []) (extra : Option Text) :
    setupJobCondLimits jobCond extra ≠
      some (some (head jobCond extra ++ conjunction (parts jobCond))) := by
  by_cases hresv : jobCond.resvList = []
  · obtain ⟨added, hadded⟩ := foldl_anyOf_some (lists jobCond)
    have hne : assocParts jobCond ≠ [] := by
      rw [assocParts, if_neg hassoc]
      simp
    have hmeant : some (head jobCond extra ++ conjunction (parts jobCond)) =
        some (head jobCond extra ++ conjunction (assocParts jobCond) ++ added) := by
      have hfold : (lists jobCond).foldl (fun extra ts => anyOf ts extra)
          (joined jobCond extra (assocParts jobCond)) = joined jobCond extra (parts jobCond) :=
        foldl_anyOf (Or.inl hne) (lists jobCond)
      rw [joined, if_neg hne, hadded, joined, if_neg (parts_ne_nil hassoc)] at hfold
      exact hfold.symm
    rw [setupJobCondLimits_eq_foldl hresv, assocBlock, if_neg hassoc, hadded, hmeant]
    intro h
    have hlen := congrArg List.length
      (List.append_cancel_right (Option.some.inj (Option.some.inj h)))
    have hids : disjunction (jobCond.associdList.map .assocId ++ [.assocGone]) =
        disjunction (jobCond.associdList.map .assocId) ++ " || ".toList ++ Term.assocGone.text := by
      rw [disjunction, List.map_append]
      refine intercalate_append_singleton _ _ ?_
      rwa [ne_eq, List.map_eq_nil_iff, List.map_eq_nil_iff]
    have hconj : conjunction (assocParts jobCond) =
        ['('] ++ disjunction (jobCond.associdList.map .assocId ++ [.assocGone]) ++ [')'] ++
          " && ".toList ++ (['('] ++ disjunction [.assocBelow, .assocNull] ++ [')']) := by
      rw [assocParts, if_neg hassoc, ← conjunction_singleton]
      exact @conjunction_append [_] (List.cons_ne_nil _ _) _
    have hhead : head jobCond extra =
        extra.getD [] ++ ", ".toList ++ assocTable ++ " as t3 where ".toList := by
      unfold head
      rw [if_neg hassoc]
    have hwhere : " as t3 where (".toList.length = " as t3 where ".toList.length + 1 := rfl
    have hand : ") && (".toList.length = " && ".toList.length + 2 := rfl
    rw [hconj, hids, hhead] at hlen
    simp only [List.length_append, List.length_singleton, hwhere, hand] at hlen
    omega
  · rw [setupJobCondLimits_none hresv]
    simp

end Formed

/-- The condition is well formed exactly if no association ids and reservation names are
asked for and every element stays inside its quotes. -/
theorem wellFormed_iff (jobCond : JobCond) (extra : Option Text) :
    (∃ extra', setupJobCondLimits jobCond extra = some extra' ∧
      WellFormed jobCond extra extra') ↔
      jobCond.associdList = [] ∧ jobCond.resvList = [] ∧ ∀ e ∈ quoted jobCond, Inside e := by
  constructor
  · rintro ⟨extra', hsetup, hwell⟩
    have hassoc : jobCond.associdList = [] := by
      by_contra hassoc
      have htext := hwell.text_eq
      rw [if_neg (parts_ne_nil hassoc)] at htext
      exact text_ne_of_assoc hassoc extra (htext ▸ hsetup)
    have hresv : jobCond.resvList = [] := by
      by_contra hresv
      rw [setupJobCondLimits_none hresv] at hsetup
      cases hsetup
    exact ⟨hassoc, hresv, (reads_iff hassoc).mp hwell.reads⟩
  · rintro ⟨hassoc, hresv, hin⟩
    exact ⟨_, setupJobCondLimits_eq hassoc hresv extra, rfl, (reads_iff hassoc).mpr hin⟩

/-- An association id brings a parenthesis that nothing has opened. -/
theorem not_wellFormed_assoc :
    ¬∀ jobCond : JobCond, ∃ extra', setupJobCondLimits jobCond none = some extra' ∧
      WellFormed jobCond none extra' := by
  intro h
  obtain ⟨extra', hsetup, hwell⟩ := h { associdList := ["1".toList] }
  have hassoc : ({ associdList := ["1".toList] } : JobCond).associdList ≠ [] :=
    List.cons_ne_nil _ _
  have htext := hwell.text_eq
  rw [if_neg (parts_ne_nil hassoc)] at htext
  exact text_ne_of_assoc hassoc none (htext ▸ hsetup)

end Slurm.JobCondLimits
