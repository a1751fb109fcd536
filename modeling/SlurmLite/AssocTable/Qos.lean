import SlurmLite.AssocTable.Get
import SlurmLite.Base.Deltas

/-!
# The QOS of an association

A row has a QOS list of its own or entries that add to and remove from the list
of an account above. The procedure joins the entries of all levels to one text,
`slurm_addto_char_list` cuts it again and keeps the last of equal entries.

* **Meant** (`qosMeant`): the set of the nearest level that has one, changed by the
  entries of the levels below it from the top down.
* **Entries** (`changed_cut`): keeping the last of equal entries does not change
  what they do.
* **The walk** (`inheritedQos_eq`): the entries of the level with the set come first.
* **Result** (`getAssociations_qos_iff`).
-/

namespace Slurm.AssocTable

open Slurm.CharList Base.Deltas

/-! ## What is meant -/

/-- The names in a column. -/
def namesOf (text : String) : List Text :=
  match entries text with
  | none => []
  | some names => pieces names

/-- A column with a comma before each name. -/
def QosText (text : String) : Prop :=
  text.toList = joined (namesOf text) ∧ ∀ n ∈ namesOf text, Plain n

/-- The change that an entry stands for. -/
def deltaOf : Text → Option (Delta Text)
  | '-' :: qos => some (.drop qos)
  | '+' :: qos => some (.add qos)
  | _ => none

/-- A QOS list as a set. -/
def qosSet (text : String) : Set Text := {n | n ∈ (namesOf text).map makeLower}

/-- The changes of a column. -/
def deltas (text : String) : List (Delta Text) :=
  ((namesOf text).map makeLower).filterMap deltaOf

/-- The nearest level with a QOS list, of a way up. -/
def setting (path : List Row) : Option Row := path.find? fun q => q.qos ≠ ""

/-- The changes of the levels below it, from the top down. -/
def deltasBelow (path : List Row) : List (Delta Text) :=
  (path.takeWhile fun q => q.qos = "").reverse.flatMap fun q => deltas q.deltaQos

/-- The QOS that a way up gives. -/
def qosMeant (path : List Row) : Set Text :=
  changed (match setting path with
    | some q => qosSet q.qos
    | none => ∅) (deltasBelow path)

/-- The QOS that a way up gives in the code: the changes of the level with the list count too. -/
def qosGiven (path : List Row) : Set Text :=
  changed (match setting path with
    | some q => changed (qosSet q.qos) (deltas q.deltaQos)
    | none => ∅) (deltasBelow path)

/-- A tree whose QOS columns are lists. -/
structure QosTree (t : Table) : Prop extends Tree t where
  texts : ∀ r ∈ t, QosText r.qos ∧ QosText r.deltaQos

instance (n : Text) : Decidable (Plain n) :=
  decidable_of_iff (n ≠ [] ∧ n.all plainChar = true) (and_congr_right' List.all_eq_true)

instance (text : String) : Decidable (QosText text) := inferInstanceAs (Decidable (_ ∧ _))

instance (t : Table) : Decidable (QosTree t) :=
  decidable_of_iff (Tree t ∧ ∀ r ∈ t, QosText r.qos ∧ QosText r.deltaQos)
    ⟨fun h => ⟨h.1, h.2⟩, fun h => ⟨h.toTree, h.texts⟩⟩

/-! ## Lists of entries -/

section Entries

variable {names list : List Text} {n x : Text} {s : Set Text}

theorem lowered_foldl (h : Lowered list) (names : List Text) :
    Lowered (names.foldl addName list) := by
  induction names generalizing list with
  | nil => exact h
  | cons n names ih => exact ih (h.addName n)

theorem nodup_foldl (h : Lowered list) (hnodup : list.Nodup) (names : List Text) :
    (names.foldl addName list).Nodup := by
  induction names generalizing list with
  | nil => exact hnodup
  | cons n names ih => exact ih (h.addName n) (nodup_addName h hnodup n)

theorem mem_foldl (h : Lowered list) :
    x ∈ names.foldl addName list ↔ x ∈ list ∨ x ∈ names.map makeLower := by
  induction names generalizing list with
  | nil => exact (or_iff_left List.not_mem_nil).symm
  | cons n names ih =>
    rw [List.foldl_cons, ih (h.addName n), addName_eq h, List.map_cons, List.mem_append,
      List.mem_singleton, List.mem_cons, or_assoc]
    by_cases hx : x = makeLower n
    · exact iff_of_true (Or.inr (Or.inl hx)) (Or.inr (Or.inl hx))
    · rw [List.mem_erase_of_ne hx]

/-- An entry that moves to the end has the same effect there alone. -/
theorem changed_addName (h : Lowered list) (n : Text) :
    changed s ((addName list n).filterMap deltaOf) =
      changed s ((list ++ [makeLower n]).filterMap deltaOf) := by
  rw [addName_eq h]
  by_cases hn : makeLower n ∈ list
  · obtain ⟨pre, post, hpre, hlist, herase⟩ := List.exists_erase_eq hn
    rw [herase, hlist]
    cases hd : deltaOf (makeLower n) with
    | none => simp only [List.filterMap_append, List.filterMap_cons, hd]
    | some d =>
      simp only [List.filterMap_append, List.filterMap_cons, hd, List.filterMap_nil,
        List.append_assoc, List.cons_append]
      exact (changed_repeated _).symm
  · rw [List.erase_of_not_mem hn]

/-- Cutting a text into a list leaves its changes as they are. -/
theorem changed_cut (h : Lowered list) (names : List Text) :
    changed s ((names.foldl addName list).filterMap deltaOf) =
      changed s ((list ++ names.map makeLower).filterMap deltaOf) := by
  induction names generalizing list with
  | nil =>
    rw [List.map_nil, List.append_nil]
    rfl
  | cons n names ih =>
    rw [List.foldl_cons, ih (h.addName n), List.filterMap_append, changed_append,
      changed_addName h n, ← changed_append, ← List.filterMap_append, List.append_assoc,
      List.map_cons, List.singleton_append]

theorem nodup_applyEntry (hnodup : list.Nodup) (entry : Text) : (applyEntry list entry).Nodup := by
  unfold applyEntry
  split
  · exact hnodup.erase _
  · split
    · exact hnodup
    · rename_i qos hqos
      refine List.nodup_append.mpr ⟨hnodup, List.nodup_singleton _, ?_⟩
      rintro a ha b hb rfl
      rw [List.mem_singleton.mp hb] at ha
      exact hqos ha
  · exact hnodup

theorem mem_applyEntry (hnodup : list.Nodup) (entry : Text) :
    {y | y ∈ applyEntry list entry} = changed {y | y ∈ list} (deltaOf entry).toList := by
  unfold applyEntry
  split
  · rename_i qos
    refine Set.ext fun y => ?_
    show y ∈ list.erase qos ↔ y ∈ list ∧ y ∉ ({qos} : Set Text)
    rw [hnodup.mem_erase_iff, Set.mem_singleton_iff, and_comm]
  · rename_i qos
    refine Set.ext fun y => ?_
    show y ∈ (if qos ∈ list then list else list ++ [qos]) ↔ y = qos ∨ y ∈ list
    by_cases hqos : qos ∈ list
    · rw [if_pos hqos]
      exact (or_iff_right_of_imp fun heq => heq ▸ hqos).symm
    · rw [if_neg hqos, List.mem_append, List.mem_singleton, or_comm]
  · rename_i hdrop hadd
    have hnone : deltaOf entry = none := by
      unfold deltaOf
      split
      · exact absurd rfl (hdrop _)
      · exact absurd rfl (hadd _)
      · rfl
    rw [hnone]
    rfl

theorem foldl_applyEntry (hnodup : list.Nodup) (entries : List Text) :
    (entries.foldl applyEntry list).Nodup ∧
      {y | y ∈ entries.foldl applyEntry list} =
        changed {y | y ∈ list} (entries.filterMap deltaOf) := by
  induction entries generalizing list with
  | nil => exact ⟨hnodup, rfl⟩
  | cons entry entries ih =>
    obtain ⟨hn, heq⟩ := ih (nodup_applyEntry hnodup entry)
    refine ⟨hn, ?_⟩
    rw [List.foldl_cons, heq, mem_applyEntry hnodup, ← changed_append]
    congr 1
    rw [List.filterMap_cons]
    cases deltaOf entry <;> rfl

end Entries

/-! ## The columns -/

section Columns

variable {text text' d : String} {names path : List Text} {list : List Text}

theorem entries_eq (text : String) : (nonempty text).map (List.drop 1) = entries text := by
  unfold nonempty entries
  by_cases h : text = ""
  · subst h
    rfl
  · rw [if_neg h, Option.map_some]
    cases hl : text.toList with
    | nil => exact absurd (String.toList_eq_nil_iff.mp hl) h
    | cons c names => rfl

theorem addSome_entries (list : List Text) (text : String) :
    addSome list (entries text) = (namesOf text).foldl addName list := by
  unfold namesOf
  cases entries text with
  | none => rfl
  | some names => rfl

/-- A text that names were joined to has these names. -/
theorem namesOf_joined (htext : text.toList = joined names) (hplain : ∀ n ∈ names, Plain n) :
    namesOf text = names := by
  unfold namesOf entries
  rw [htext]
  cases names with
  | nil => rfl
  | cons n names => exact pieces_joined (List.cons_ne_nil n names) hplain

theorem QosText.append (h : QosText text) (h' : QosText text') :
    QosText (text ++ text') ∧ namesOf (text ++ text') = namesOf text ++ namesOf text' := by
  have hplain : ∀ n ∈ namesOf text ++ namesOf text', Plain n := by
    intro n hn
    exact (List.mem_append.mp hn).elim (h.2 n) (h'.2 n)
  have hjoined : (text ++ text').toList = joined (namesOf text ++ namesOf text') := by
    rw [String.toList_append, h.1, h'.1]
    exact (List.flatMap_append).symm
  have hnames := namesOf_joined hjoined hplain
  refine ⟨⟨?_, ?_⟩, hnames⟩
  · rw [hnames]
    exact hjoined
  · rw [hnames]
    exact hplain

theorem deltas_append (h : QosText text) (h' : QosText text') :
    deltas (text ++ text') = deltas text ++ deltas text' := by
  unfold deltas
  rw [(h.append h').2, List.map_append, List.filterMap_append]

end Columns

/-! ## The walk -/

section Walk

variable {r : Row} {path : List Row} {d : String}

theorem foldl_qosPass {qos : String × String} (h : qos.1 ≠ "") (path : List Row) :
    path.foldl qosPass qos = qos := by
  induction path with
  | nil => rfl
  | cons r path ih =>
    rw [List.foldl_cons, qosPass, if_neg h]
    exact ih

theorem setting_cons (r : Row) (path : List Row) :
    setting (r :: path) = if r.qos = "" then setting path else some r := by
  unfold setting
  by_cases h : r.qos = ""
  · rw [if_pos h, List.find?_cons_of_neg (by simpa using h)]
  · rw [if_neg h, List.find?_cons_of_pos (by simpa using h)]

theorem deltasBelow_cons (r : Row) (path : List Row) :
    deltasBelow (r :: path) = if r.qos = "" then deltasBelow path ++ deltas r.deltaQos else [] := by
  unfold deltasBelow
  by_cases h : r.qos = ""
  · rw [if_pos h, List.takeWhile_cons_of_pos (by simpa using h), List.reverse_cons,
      List.flatMap_append, List.flatMap_singleton]
  · rw [if_neg h, List.takeWhile_cons_of_neg (by simpa using h)]
    rfl

/-- What the passes leave in `@qos` and `@delta_qos`. -/
theorem foldl_qosPass_eq : ∀ {path : List Row} {d : String},
    (∀ r ∈ path, QosText r.qos ∧ QosText r.deltaQos) → QosText d →
      (path.foldl qosPass ("", d)).1 = (match setting path with
        | some q => q.qos
        | none => "") ∧
      QosText (path.foldl qosPass ("", d)).2 ∧
      deltas (path.foldl qosPass ("", d)).2 = (match setting path with
        | some q => deltas q.deltaQos
        | none => []) ++ (deltasBelow path ++ deltas d) := by
  intro path
  induction path with
  | nil => exact fun _ hd => ⟨rfl, hd, rfl⟩
  | cons r path ih =>
    intro d hpath hd
    obtain ⟨-, hdelta⟩ := hpath r List.mem_cons_self
    have hjoin := (hdelta.append hd).1
    rw [List.foldl_cons, qosPass, if_pos rfl, setting_cons, deltasBelow_cons]
    by_cases h : r.qos = ""
    · obtain ⟨h1, h2, h3⟩ := ih (fun q hq => hpath q (List.mem_cons_of_mem _ hq)) hjoin
      rw [if_pos h, if_pos h, h]
      refine ⟨h1, h2, ?_⟩
      rw [h3, deltas_append hdelta hd, List.append_assoc]
    · rw [if_neg h, if_neg h, foldl_qosPass h]
      exact ⟨rfl, hjoin, deltas_append hdelta hd⟩

theorem qosSet_empty : qosSet "" = ∅ :=
  Set.eq_empty_iff_forall_notMem.mpr fun _ hx => List.not_mem_nil hx

/-- The texts of the walk stand for what the way up gives in the code. -/
theorem qosGiven_eq (hpath : ∀ r ∈ path, QosText r.qos ∧ QosText r.deltaQos) :
    changed (qosSet (inheritedQos path).1) (deltas (inheritedQos path).2) = qosGiven path := by
  obtain ⟨h1, -, h3⟩ := foldl_qosPass_eq hpath (d := "") (by decide)
  have hempty : deltas "" = [] := rfl
  unfold inheritedQos qosGiven
  rw [h1, h3, hempty, List.append_nil]
  cases setting path with
  | none => rw [qosSet_empty, List.nil_append]
  | some q => rw [changed_append]

/-- The list of a row without a QOS list. -/
theorem qosOf_inherited (hpath : ∀ r ∈ path, QosText r.qos ∧ QosText r.deltaQos) (text : String) :
    (qosOf false "" text (nonempty (inheritedQos path).1) (nonempty (inheritedQos path).2)).Nodup ∧
      {x | x ∈ qosOf false "" text (nonempty (inheritedQos path).1)
        (nonempty (inheritedQos path).2)} = changed (qosGiven path) (deltas text) := by
  have hnil : Lowered [] := fun n hn => absurd hn List.not_mem_nil
  have hqos : qosOf false "" text (nonempty (inheritedQos path).1)
      (nonempty (inheritedQos path).2) =
      ((namesOf text).foldl addName ((namesOf (inheritedQos path).2).foldl addName [])).foldl
        applyEntry ((namesOf (inheritedQos path).1).foldl addName []) := by
    rw [← addSome_entries, ← addSome_entries, ← addSome_entries, ← entries_eq (inheritedQos path).1,
      ← entries_eq (inheritedQos path).2]
    rfl
  obtain ⟨hnodup, hset⟩ := foldl_applyEntry (nodup_foldl hnil List.nodup_nil
    (namesOf (inheritedQos path).1))
    ((namesOf text).foldl addName ((namesOf (inheritedQos path).2).foldl addName []))
  have hstart : {y | y ∈ (namesOf (inheritedQos path).1).foldl addName []} =
      qosSet (inheritedQos path).1 := by
    refine Set.ext fun y => ?_
    show y ∈ List.foldl addName [] _ ↔ y ∈ List.map makeLower _
    rw [mem_foldl hnil, or_iff_right List.not_mem_nil]
  rw [hqos]
  refine ⟨hnodup, ?_⟩
  rw [hset, hstart, changed_cut (lowered_foldl hnil _), List.filterMap_append, changed_append,
    changed_cut hnil, List.nil_append]
  exact congrArg (changed · (deltas text)) (qosGiven_eq hpath)

/-- The list of a row with a QOS list. -/
theorem qosOf_own {qos : String} (hqos : qos ≠ "") (text : String)
    (parent parentDelta : Option Text) :
    (qosOf false qos text parent parentDelta).Nodup ∧
      {x | x ∈ qosOf false qos text parent parentDelta} = qosSet qos := by
  have hnil : Lowered [] := fun n hn => absurd hn List.not_mem_nil
  have heq : qosOf false qos text parent parentDelta = (namesOf qos).foldl addName [] := by
    rw [← addSome_entries]
    unfold qosOf
    cases hent : entries qos with
    | some names => rfl
    | none =>
      unfold entries at hent
      cases hl : qos.toList with
      | nil => exact absurd (String.toList_eq_nil_iff.mp hl) hqos
      | cons c names =>
        rw [hl] at hent
        cases hent
  rw [heq]
  refine ⟨nodup_foldl hnil List.nodup_nil _, Set.ext fun y => ?_⟩
  show y ∈ List.foldl addName [] _ ↔ y ∈ List.map makeLower _
  rw [mem_foldl hnil, or_iff_right List.not_mem_nil]

theorem qosMeant_own (h : r.qos ≠ "") : qosMeant (r :: path) = qosSet r.qos := by
  unfold qosMeant
  rw [setting_cons, deltasBelow_cons, if_neg h, if_neg h]
  rfl

theorem qosMeant_inherited (h : r.qos = "") :
    qosMeant (r :: path) = changed (qosMeant path) (deltas r.deltaQos) := by
  unfold qosMeant
  rw [setting_cons, deltasBelow_cons, if_pos h, if_pos h, changed_append]

end Walk

/-! ## Right lists -/

/-- The records have the QOS meant, each once. -/
def QosRead (t : Table) (rows : List Row) (recs : List AssocRec) : Prop :=
  List.Forall₂ (fun row rec => rec.qosList.Nodup ∧
    ∀ x, x ∈ rec.qosList ↔ x ∈ qosMeant (row :: ancestors t row)) rows recs

/-- For a row without a QOS list: where the level with the list has entries too, they change
nothing in it that the entries below do not name; and a root names whatever the last row before
it that is not a root was given from above. -/
structure QosRight (t : Table) (pre : List Row) (row : Row) : Prop where
  above : ¬row.isTop → row.qos = "" → ∀ q ∈ setting (ancestors t row), ∀ x,
    ¬Named (deltasBelow (row :: ancestors t row)) x →
      (x ∈ changed (qosSet q.qos) (deltas q.deltaQos) ↔ x ∈ qosSet q.qos)
  roots : row.isTop → row.qos = "" → ∀ p ∈ (pre.filter fun p => ¬p.isTop).getLast?,
    ∀ x ∈ qosGiven (ancestors t p), Named (deltas row.deltaQos) x

section Right

variable {t : Table} {r : Row} {pre : List Row} {rec : AssocRec}

theorem carried_mem : ∀ q ∈ carried t pre r, q ∈ t := by
  intro q hq
  unfold carried at hq
  split at hq
  · exact lastAbove_mem q hq
  · exact (mem_ancestors.mp hq).1

/-- Of an account: the list given is the one meant if its own entries do nothing. -/
theorem given_eq_meant_iff (path : List Row) (ds : List (Delta Text)) :
    changed (qosGiven path) ds = changed (qosMeant path) ds ↔
      ∀ q ∈ setting path, ∀ x, ¬Named (deltasBelow path ++ ds) x →
        (x ∈ changed (qosSet q.qos) (deltas q.deltaQos) ↔ x ∈ qosSet q.qos) := by
  unfold qosGiven qosMeant
  rw [← changed_append, ← changed_append, changed_eq_iff]
  cases setting path with
  | none => exact iff_of_true (fun x _ => Iff.rfl) fun q hq => by cases hq
  | some q =>
    constructor
    · intro hall q' hq'
      obtain rfl := Option.mem_some_iff.mp hq'
      exact hall
    · exact fun hall => hall q rfl

theorem qosMeant_nil : qosMeant [] = ∅ := rfl

/-- The way kept in the cache gives a root nothing that it does not name itself. -/
theorem root_eq_meant_iff (ds : List (Delta Text)) :
    changed (qosGiven (lastAbove t pre)) ds = changed ∅ ds ↔
      ∀ p ∈ (pre.filter fun p => ¬p.isTop).getLast?,
        ∀ x ∈ qosGiven (ancestors t p), Named ds x := by
  rw [changed_eq_iff]
  unfold lastAbove
  cases hlast : (pre.filter fun p => ¬p.isTop).getLast? with
  | none => exact iff_of_true (fun x _ => Iff.rfl) fun p hp => by cases hp
  | some p =>
    constructor
    · intro hall p' hp' x hx
      obtain rfl := Option.mem_some_iff.mp hp'
      by_contra hn
      exact (hall x hn).mp hx
    · exact fun hall x hn => iff_of_false (fun hx => hn (hall p rfl x hx)) (Set.notMem_empty x)

/-- A row that is completed has the QOS meant if and only if it is right. -/
theorem completed_qos_iff (h : QosTree t) (hr : r ∈ t) (hc : Completed false t pre r rec) :
    (rec.qosList.Nodup ∧ ∀ x, x ∈ rec.qosList ↔ x ∈ qosMeant (r :: ancestors t r)) ↔
      QosRight t pre r := by
  by_cases hqos : r.qos = ""
  · have hpath : ∀ q ∈ carried t pre r, QosText q.qos ∧ QosText q.deltaQos :=
      fun q hq => h.texts q (carried_mem q hq)
    obtain ⟨hnodup, hset⟩ := qosOf_inherited hpath r.deltaQos
    rw [hc.qosList, hqos, qosMeant_inherited hqos]
    have hmeant : (∀ x, x ∈ qosOf false "" r.deltaQos (nonempty (inheritedQos (carried t pre r)).1)
        (nonempty (inheritedQos (carried t pre r)).2) ↔
          x ∈ changed (qosMeant (ancestors t r)) (deltas r.deltaQos)) ↔
        changed (qosGiven (carried t pre r)) (deltas r.deltaQos) =
          changed (qosMeant (ancestors t r)) (deltas r.deltaQos) := by
      rw [← hset]
      exact Set.ext_iff.symm
    refine (and_iff_right hnodup).trans (hmeant.trans ?_)
    unfold carried
    by_cases htop : r.isTop
    · rw [if_pos htop, ancestors_root h.toWellFormed (h.tops r hr htop), qosMeant_nil,
        root_eq_meant_iff]
      exact ⟨fun hall => ⟨fun hnot => absurd htop hnot, fun _ _ => hall⟩,
        fun hright => hright.roots htop hqos⟩
    · rw [if_neg htop, given_eq_meant_iff]
      have hbelow : deltasBelow (r :: ancestors t r) =
          deltasBelow (ancestors t r) ++ deltas r.deltaQos := by
        rw [deltasBelow_cons, if_pos hqos]
      constructor
      · intro hall
        refine ⟨fun _ _ => ?_, fun htop' => absurd htop' htop⟩
        rw [hbelow]
        exact hall
      · intro hright
        rw [← hbelow]
        exact hright.above htop hqos
  · obtain ⟨hnodup, hset⟩ := qosOf_own hqos r.deltaQos
      (nonempty (inheritedQos (carried t pre r)).1) (nonempty (inheritedQos (carried t pre r)).2)
    rw [hc.qosList, qosMeant_own hqos]
    exact iff_of_true ⟨hnodup, fun x => Set.ext_iff.mp hset x⟩
      ⟨fun _ hq => absurd hq hqos, fun _ hq => absurd hq hqos⟩

end Right

/-- The associations are returned, and they have the QOS meant if and only if each row is right. -/
theorem getAssociations_qos_iff {t : Table} (h : QosTree t) {fuel : Nat} (hfuel : t.length ≤ fuel)
    (sel : Row → Bool) :
    ∃ recs, getAssociations fuel false sel t = some recs ∧
      (QosRead t (rowsOf sel t) recs ↔
        ∀ pre row post, rowsOf sel t = pre ++ row :: post → QosRight t pre row) := by
  obtain ⟨recs, hget, hrecs⟩ := @getAssociations_records t fuel false h.toTree hfuel sel
  refine ⟨recs, hget, ?_⟩
  refine Records.forall₂_iff (C := QosRight t) (fun pre row rec hrow hc => ?_) hrecs
  have hmem := List.mem_of_mem_filter ((List.mem_insertionSort _).mp hrow)
  exact completed_qos_iff h hmem hc

/-- An account that changes the list of its root, a user that changes it again, and a root of
another cluster. -/
def qosClusters : Table :=
  [{ id := 1, acct := "root", cluster := "blue", qos := ",1,2", lft := 1, rgt := 6 },
    { id := 2, acct := "physics", cluster := "blue", parentAcct := "root", deltaQos := ",+3,-1",
      lft := 2, rgt := 5 },
    { id := 3, user := "ann", acct := "physics", cluster := "blue", deltaQos := ",-3,+1",
      lft := 3, rgt := 4 },
    { id := 4, acct := "root", cluster := "green", lft := 7, rgt := 8 }]

theorem getAssociations_qos_iff_blue :
    ∃ recs, getAssociations 4 false (fun r => r.cluster = "blue") qosClusters = some recs ∧
      QosRead qosClusters (rowsOf (fun r => r.cluster = "blue") qosClusters) recs := by
  have htree : QosTree qosClusters := by decide +kernel
  obtain ⟨recs, hget, hiff⟩ :=
    getAssociations_qos_iff htree (Nat.le_refl 4) fun r => r.cluster = "blue"
  refine ⟨recs, hget, hiff.mpr fun pre row post hrows => ?_⟩
  have hmem : row ∈ rowsOf (fun r => r.cluster = "blue") qosClusters := by
    rw [hrows]
    exact List.mem_append_right _ List.mem_cons_self
  have hset : ∀ r ∈ qosClusters, r.qos ≠ "" → r.deltaQos = "" := by decide +kernel
  have htops : ∀ r ∈ rowsOf (fun r => r.cluster = "blue") qosClusters, r.isTop → r.qos ≠ "" := by
    decide +kernel
  refine ⟨fun _ _ q hq x _ => ?_, fun htop hqos => absurd hqos (htops row hmem htop)⟩
  have hqos : q.qos ≠ "" := by simpa using List.find?_some hq
  rw [hset q (mem_ancestors.mp (List.mem_of_find?_eq_some hq)).1 hqos]
  exact Iff.rfl

/-- The root of the second cluster gets the QOS of the first one. -/
theorem not_qosRead_qosClusters :
    ¬∀ (t : Table) (fuel : Nat) (sel : Row → Bool), QosTree t → t.length ≤ fuel →
      ∃ recs, getAssociations fuel false sel t = some recs ∧ QosRead t (rowsOf sel t) recs := by
  intro hall
  let sel := fun r : Row => decide (r.user = "")
  obtain ⟨recs, hget, hread⟩ := hall qosClusters 4 sel (by decide +kernel) (Nat.le_refl 4)
  have hgot : (getAssociations 4 false sel qosClusters).map (List.map fun rec => rec.qosList) =
      some [[['1'], ['2']], [['2'], ['3']], [['1'], ['2']]] := by decide +kernel
  have hrow : rowsOf sel qosClusters = [qosClusters[0], qosClusters[1], qosClusters[3]] := by
    decide +kernel
  have habove : ancestors qosClusters qosClusters[3] = [] := by decide +kernel
  rw [hget] at hgot
  unfold QosRead at hread
  rw [hrow] at hread
  obtain _ | ⟨-, _ | ⟨-, _ | ⟨⟨-, hlast⟩, -⟩⟩⟩ := hread
  simp only [Option.map_some, List.map_cons, Option.some.injEq, List.cons.injEq] at hgot
  have hmem := (hlast ['2']).mp (by rw [hgot.2.2.1]; decide)
  rw [habove, qosMeant_inherited rfl] at hmem
  exact hmem

end Slurm.AssocTable
