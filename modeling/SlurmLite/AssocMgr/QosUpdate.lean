import SlurmLite.ListIterator

/-!
# Changing the QOS list of an association

`_local_update_assoc_qos_list` of `assoc_mgr.c` applies the entries of a list of
changes to the QOS list of an association. One iterator over that list serves all
of them, and it is not rewound everywhere.

* **Meant** (`qosMeant`): the set that the changes give one after another.
* **A removal** (`Removable`): it works when the iterator has not passed the name
  and there is at most one of it ahead.
* **Result** (`qosUpdate_iff`): the final set is the one that is meant exactly
  when every removal works that no later change makes up for.
-/

namespace Slurm.AssocMgr

open Slurm.ListIterator

/-! ## The code -/

/-- The list with the iterator `curr_qos_itr`, and `flushed`. -/
structure QosUpdate where
  iter : Iter (List Char)
  flushed : Bool

/-- `=` and plain names: the list is cleared once, and the name appended. -/
def QosUpdate.replace (u : QosUpdate) (qos : List Char) : QosUpdate :=
  let iter := if u.flushed then u.iter else u.iter.flush
  { iter := iter.append qos, flushed := true }

/-- One turn of the loop over `new_qos_list`. -/
def QosUpdate.step (u : QosUpdate) : List Char → QosUpdate
  | [] => u
  | c :: qos =>
    if c = '-' then
      let r := u.iter.seek qos
      { u with iter := (if r.1 then r.2.deleteItem else r.2).reset }
    else if c = '+' then
      let r := u.iter.seek qos
      { u with iter := if r.1 then r.2 else (r.2.append qos).reset }
    else if c = '=' then u.replace qos
    else u.replace (c :: qos)

/-- The list at the start. -/
def QosUpdate.start (qosList : List (List Char)) : QosUpdate :=
  { iter := .create qosList, flushed := false }

/-- The turns of the loop. -/
def QosUpdate.run (u : QosUpdate) (newQosList : List (List Char)) : QosUpdate :=
  newQosList.foldl QosUpdate.step u

/-- `_local_update_assoc_qos_list`: without changes the list of the parent is
taken over. -/
def localUpdateAssocQosList (parent : Option (List (List Char))) (qosList : List (List Char)) :
    List (List Char) → List (List Char)
  | [] => parent.getD []
  | newQosList => ((QosUpdate.start qosList).run newQosList).iter.items

/-! ## What is meant -/

/-- What an entry asks for. -/
inductive Change where
  | add (qos : List Char)
  | remove (qos : List Char)
  | replace (qos : List Char)
deriving DecidableEq

/-- The change of an entry; an empty one asks for nothing. -/
def changeOf : List Char → Option Change
  | [] => none
  | c :: qos =>
    if c = '-' then some (.remove qos)
    else if c = '+' then some (.add qos)
    else if c = '=' then some (.replace qos)
    else some (.replace (c :: qos))

/-- The QOS that a change names. -/
def Change.qos : Change → List Char
  | add qos => qos
  | remove qos => qos
  | replace qos => qos

/-- Whether a change is one that may clear the list. -/
def Change.clears : Change → Bool
  | replace _ => true
  | _ => false

/-- The entry names the QOS. -/
def Names (entry qos : List Char) : Prop := (changeOf entry).any fun c => c.qos = qos

/-- The entry has a `=` or nothing in front of its name. -/
def Replaces (entry : List Char) : Prop := (changeOf entry).any Change.clears

instance (entry qos : List Char) : Decidable (Names entry qos) :=
  inferInstanceAs (Decidable (_ = _))

instance (entry : List Char) : Decidable (Replaces entry) := inferInstanceAs (Decidable (_ = _))

/-- A set of names after a change, the first replacement or not. -/
def Change.apply (replaced : Bool) (s : Set (List Char)) : Change → Set (List Char)
  | add qos => insert qos s
  | remove qos => s \ {qos}
  | replace qos => if replaced then insert qos s else {qos}

/-- The set and whether it was replaced, after an entry. -/
def applyEntry (r : Set (List Char) × Bool) (entry : List Char) : Set (List Char) × Bool :=
  match changeOf entry with
  | none => r
  | some c => (c.apply r.2 r.1, r.2 || c.clears)

/-- The set after all entries, one after another. -/
def qosMeant (s : Set (List Char)) (entries : List (List Char)) : Set (List Char) :=
  (entries.foldl applyEntry (s, false)).1

/-! ## One entry -/

/-- A removal finds the name: it is not among those that the iterator has passed,
and there is no more than one of it ahead. -/
def Removable (i : Iter (List Char)) (qos : List Char) : Prop :=
  qos ∉ i.passed ∧ i.ahead.count qos ≤ 1

instance (i : Iter (List Char)) (qos : List Char) : Decidable (Removable i qos) :=
  inferInstanceAs (Decidable (_ ∧ _))

/-- A name with a plus is put to the end, or it is there. -/
theorem QosUpdate.step_plus (u : QosUpdate) (qos x : List Char) :
    x ∈ (u.step ('+' :: qos)).iter.items ↔ x = qos ∨ x ∈ u.iter.items := by
  show x ∈ (if (u.iter.seek qos).1 then (u.iter.seek qos).2
    else ((u.iter.seek qos).2.append qos).reset).items ↔ _
  by_cases hx : qos ∈ u.iter.ahead
  · obtain ⟨i, _, _, -, -, hseek, hitems, -⟩ := Iter.seek_found hx
    rw [hseek]
    show x ∈ i.items ↔ _
    rw [hitems]
    have hmem : qos ∈ u.iter.items := by
      rw [Iter.items_eq]
      exact List.mem_append_right _ hx
    constructor
    · intro h
      exact Or.inr h
    · intro h
      rcases h with rfl | h
      · exact hmem
      · exact h
  · obtain ⟨i, hseek, hitems⟩ := Iter.seek_missed hx
    rw [hseek]
    show x ∈ (i.append qos).items ↔ _
    rw [Iter.items_append, hitems, List.mem_append, List.mem_singleton, or_comm]

/-- A name with a minus is taken out once, if it is ahead of the iterator. -/
theorem QosUpdate.step_minus (u : QosUpdate) (qos : List Char) :
    (∀ x, x ≠ qos → (x ∈ (u.step ('-' :: qos)).iter.items ↔ x ∈ u.iter.items)) ∧
      (qos ∉ (u.step ('-' :: qos)).iter.items ↔ Removable u.iter qos) := by
  have hstep : (u.step ('-' :: qos)).iter.items =
      (if (u.iter.seek qos).1 then (u.iter.seek qos).2.deleteItem
        else (u.iter.seek qos).2).items := rfl
  rw [hstep, Removable]
  by_cases hx : qos ∈ u.iter.ahead
  · obtain ⟨i, before, after, hahead, hbefore, hseek, -, hdelete⟩ := Iter.seek_found hx
    rw [hseek]
    show (∀ x, x ≠ qos → (x ∈ i.deleteItem.items ↔ _)) ∧ (qos ∉ i.deleteItem.items ↔ _)
    rw [hdelete, Iter.items_eq, hahead]
    constructor
    · intro x hne
      simp [hne]
    · -- the first one ahead is gone: another one or one passed keeps the name in
      have hcount : (before ++ qos :: after).count qos ≤ 1 ↔ qos ∉ after := by
        rw [List.count_append, List.count_eq_zero_of_not_mem hbefore, List.count_cons_self,
          ← List.count_eq_zero]
        omega
      rw [hcount]
      simp [hbefore]
  · obtain ⟨i, hseek, hitems⟩ := Iter.seek_missed hx
    rw [hseek]
    show (∀ x, x ≠ qos → (x ∈ i.items ↔ _)) ∧ (qos ∉ i.items ↔ _)
    rw [hitems, Iter.items_eq, List.count_eq_zero_of_not_mem hx]
    simp [hx]

/-- The first name without a sign clears the list. -/
theorem QosUpdate.items_replace (u : QosUpdate) (qos : List Char) :
    (u.replace qos).iter.items = (if u.flushed then u.iter.items else []) ++ [qos] := by
  rw [QosUpdate.replace, Iter.items_append]
  cases u.flushed <;> rfl

/-- What an entry does to the membership of a name. -/
theorem QosUpdate.step_cases (u : QosUpdate) (entry : List Char) :
    (changeOf entry = none ∧ u.step entry = u) ∨
    (∃ qos, changeOf entry = some (.add qos) ∧ (u.step entry).flushed = u.flushed ∧
      ∀ x, x ∈ (u.step entry).iter.items ↔ x = qos ∨ x ∈ u.iter.items) ∨
    (∃ qos, changeOf entry = some (.remove qos) ∧ (u.step entry).flushed = u.flushed ∧
      (∀ x, x ≠ qos → (x ∈ (u.step entry).iter.items ↔ x ∈ u.iter.items)) ∧
      (qos ∉ (u.step entry).iter.items ↔ Removable u.iter qos)) ∨
    (∃ qos, changeOf entry = some (.replace qos) ∧ (u.step entry).flushed = true ∧
      (u.step entry).iter.items = (if u.flushed then u.iter.items else []) ++ [qos]) := by
  cases entry with
  | nil => exact Or.inl ⟨rfl, rfl⟩
  | cons c qos =>
    right
    by_cases hminus : c = '-'
    · subst hminus
      right
      left
      exact ⟨qos, rfl, rfl, u.step_minus qos⟩
    · by_cases hplus : c = '+'
      · subst hplus
        left
        exact ⟨qos, rfl, rfl, u.step_plus qos⟩
      · right
        right
        by_cases hequal : c = '='
        · subst hequal
          exact ⟨qos, rfl, rfl, u.items_replace qos⟩
        · refine ⟨c :: qos, ?_, ?_⟩
          · simp [changeOf, hminus, hplus, hequal]
          · have hstep : u.step (c :: qos) = u.replace (c :: qos) := by
              simp [QosUpdate.step, hminus, hplus, hequal]
            rw [hstep]
            exact ⟨rfl, u.items_replace (c :: qos)⟩

/-- Only an entry with a minus removes. -/
theorem changeOf_eq_remove {entry qos : List Char} (h : changeOf entry = some (.remove qos)) :
    entry = '-' :: qos := by
  cases entry with
  | nil => cases h
  | cons c rest =>
    by_cases hminus : c = '-'
    · rw [changeOf, if_pos hminus] at h
      cases h
      rw [hminus]
    · rw [changeOf, if_neg hminus] at h
      split at h
      · cases h
      · split at h <;> cases h

/-! ## All entries -/

section

variable (qosList : List (List Char))

/-- The code and the meaning after a first part of the entries. -/
def after (entries : List (List Char)) : QosUpdate := (QosUpdate.start qosList).run entries

def meantAfter (entries : List (List Char)) : Set (List Char) × Bool :=
  entries.foldl applyEntry ({x | x ∈ qosList}, false)

theorem after_snoc (entries : List (List Char)) (entry : List Char) :
    after qosList (entries ++ [entry]) = (after qosList entries).step entry := by
  simp [after, QosUpdate.run]

theorem meantAfter_snoc (entries : List (List Char)) (entry : List Char) :
    meantAfter qosList (entries ++ [entry]) = applyEntry (meantAfter qosList entries) entry := by
  simp [meantAfter]

/-- Both know whether the list has been replaced. -/
theorem flushed_iff (entries : List (List Char)) :
    ((after qosList entries).flushed = true ↔ ∃ e ∈ entries, Replaces e) ∧
      (meantAfter qosList entries).2 = (after qosList entries).flushed := by
  induction entries using List.reverseRecOn with
  | nil => exact ⟨iff_of_false Bool.false_ne_true (by simp), rfl⟩
  | append_singleton entries e ih =>
    obtain ⟨ih, hsame⟩ := ih
    rw [after_snoc, meantAfter_snoc, applyEntry]
    have hexists : (∃ e' ∈ entries ++ [e], Replaces e') ↔
        (∃ e' ∈ entries, Replaces e') ∨ Replaces e := by
      simp [or_and_right, exists_or]
    rw [hexists, ← ih]
    rcases (after qosList entries).step_cases e with ⟨hc, hstep⟩ | ⟨qos, hc, hstep, -⟩ |
      ⟨qos, hc, hstep, -⟩ | ⟨qos, hc, hstep, -⟩
    · simp [hc, hstep, Replaces, hsame]
    · simp [hc, hstep, Replaces, Change.clears, hsame]
    · simp [hc, hstep, Replaces, Change.clears, hsame]
    · simp [hc, hstep, Replaces, Change.clears]

/-- A later entry makes up for a removal: one that names the same QOS, or the
first one that replaces the list. -/
def MadeUp (before later : List (List Char)) (qos : List Char) : Prop :=
  (∃ e ∈ later, Names e qos) ∨ ((∀ e ∈ before, ¬ Replaces e) ∧ ∃ e ∈ later, Replaces e)

/-- Every removal of the name works that no later entry makes up for. -/
def RemovalsWork (entries : List (List Char)) (qos : List Char) : Prop :=
  ∀ before later, entries = before ++ ('-' :: qos) :: later → ¬ MadeUp before later qos →
    Removable (after qosList before).iter qos

variable {qosList}

/-- One more entry: it is the removal itself, or comes later than one. -/
theorem removalsWork_snoc {entries : List (List Char)} {entry qos : List Char} :
    RemovalsWork qosList (entries ++ [entry]) qos ↔
      (entry = '-' :: qos → Removable (after qosList entries).iter qos) ∧
      ∀ before later, entries = before ++ ('-' :: qos) :: later →
        ¬ MadeUp before (later ++ [entry]) qos → Removable (after qosList before).iter qos := by
  constructor
  · intro h
    constructor
    · rintro rfl
      apply h entries [] rfl
      rintro (⟨e, he, -⟩ | ⟨-, e, he, -⟩) <;> cases he
    · intro before later hsplit
      apply h before (later ++ [entry])
      rw [hsplit]
      simp
  · rintro ⟨hlast, hrest⟩ before later hsplit hmade
    rcases List.eq_nil_or_concat later with rfl | ⟨later, e, rfl⟩
    · have hinj := List.append_inj_left' hsplit rfl
      have hentry := List.append_inj_right' hsplit rfl
      rw [← hinj]
      exact hlast (List.singleton_inj.mp hentry)
    · rw [List.concat_eq_append] at hsplit hmade
      have hshape : entries ++ [entry] = (before ++ ('-' :: qos) :: later) ++ [e] := by
        rw [hsplit]
        simp
      obtain ⟨hentries, hentry⟩ := List.append_inj' hshape rfl
      rw [← List.singleton_inj.mp hentry] at hmade
      exact hrest before later hentries hmade

/-- An entry that makes up for nothing. -/
theorem removalsWork_snoc_same {entries : List (List Char)} {entry qos : List Char}
    (hne : ¬ Names entry qos)
    (hreplace : Replaces entry → ∃ e ∈ entries, Replaces e) :
    RemovalsWork qosList (entries ++ [entry]) qos ↔ RemovalsWork qosList entries qos := by
  have hentry : entry ≠ '-' :: qos := by
    rintro rfl
    apply hne
    simp [Names, changeOf, Change.qos]
  have hsame : ∀ before later, entries = before ++ ('-' :: qos) :: later →
      (MadeUp before (later ++ [entry]) qos ↔ MadeUp before later qos) := by
    intro before later hsplit
    constructor
    · rintro (⟨e, he, hnames⟩ | ⟨hbefore, e, he, hr⟩)
      · rcases List.mem_append.mp he with he | he
        · exact Or.inl ⟨e, he, hnames⟩
        · rw [List.mem_singleton.mp he] at hnames
          exact absurd hnames hne
      · right
        refine ⟨hbefore, ?_⟩
        rcases List.mem_append.mp he with he | he
        · exact ⟨e, he, hr⟩
        · -- an earlier entry replaces as well, and it is not in front of the removal
          rw [List.mem_singleton.mp he] at hr
          obtain ⟨e', he', hr'⟩ := hreplace hr
          rw [hsplit, List.mem_append, List.mem_cons] at he'
          rcases he' with he' | rfl | he'
          · exact absurd hr' (hbefore e' he')
          · simp [Replaces, changeOf, Change.clears] at hr'
          · exact ⟨e', he', hr'⟩
    · rintro (⟨e, he, hnames⟩ | ⟨hbefore, e, he, hr⟩)
      · exact Or.inl ⟨e, List.mem_append_left _ he, hnames⟩
      · exact Or.inr ⟨hbefore, e, List.mem_append_left _ he, hr⟩
  rw [removalsWork_snoc]
  constructor
  · rintro ⟨-, h⟩ before later hsplit hmade
    apply h before later hsplit
    rwa [hsame before later hsplit]
  · intro h
    refine ⟨fun heq => absurd heq hentry, ?_⟩
    intro before later hsplit hmade
    apply h before later hsplit
    rwa [← hsame before later hsplit]

/-- An entry that makes up for all earlier removals of the name. -/
theorem removalsWork_snoc_madeUp {entries : List (List Char)} {entry qos : List Char}
    (h : Names entry qos ∨ ((∀ e ∈ entries, ¬ Replaces e) ∧ Replaces entry)) :
    RemovalsWork qosList (entries ++ [entry]) qos ↔
      (entry = '-' :: qos → Removable (after qosList entries).iter qos) := by
  rw [removalsWork_snoc]
  apply and_iff_left
  intro before later hsplit hmade
  exfalso
  apply hmade
  rcases h with hnames | ⟨hno, hr⟩
  · exact Or.inl ⟨entry, by simp, hnames⟩
  · right
    refine ⟨fun e he => hno e ?_, entry, by simp, hr⟩
    rw [hsplit]
    exact List.mem_append_left _ he

/-- A name is in the final list as it should be exactly when its removals work. -/
theorem mem_after_iff (entries : List (List Char)) (x : List Char) :
    (x ∈ (after qosList entries).iter.items ↔ x ∈ (meantAfter qosList entries).1) ↔
      RemovalsWork qosList entries x := by
  induction entries using List.reverseRecOn with
  | nil =>
    apply iff_of_true
    · exact Iff.rfl
    · intro before later hsplit
      have := congrArg List.length hsplit
      simp at this
  | append_singleton entries e ih =>
    obtain ⟨hflush, hsame⟩ := flushed_iff qosList entries
    rw [after_snoc, meantAfter_snoc, applyEntry]
    rcases (after qosList entries).step_cases e with ⟨hc, hstep⟩ | ⟨qos, hc, -, hmem⟩ |
      ⟨qos, hc, -, hother, hself⟩ | ⟨qos, hc, -, hitems⟩
    · rw [hstep, hc, removalsWork_snoc_same (by simp [Names, hc]) (by simp [Replaces, hc])]
      exact ih
    · -- an addition makes up for all removals of its name before it
      by_cases hx : x = qos
      · subst hx
        rw [removalsWork_snoc_madeUp (Or.inl (by simp [Names, hc, Change.qos]))]
        apply iff_of_true
        · simp [hmem, hc, Change.apply]
        · rintro rfl
          cases hc
      · rw [removalsWork_snoc_same (by simp [Names, hc, Change.qos, Ne.symm hx])
          (by simp [Replaces, hc, Change.clears]), ← ih, hmem x]
        simp [hc, Change.apply, hx]
    · -- of the removals of its name only this one has to work any more
      by_cases hx : x = qos
      · subst hx
        rw [removalsWork_snoc_madeUp (Or.inl (by simp [Names, hc, Change.qos]))]
        have hentry := changeOf_eq_remove hc
        rw [forall_prop_of_true hentry, ← hself, hc]
        simp [Change.apply]
      · rw [removalsWork_snoc_same (by simp [Names, hc, Change.qos, Ne.symm hx])
          (by simp [Replaces, hc, Change.clears]), ← ih, hother x hx]
        simp [hc, Change.apply, hx]
    · have hr : Replaces e := by simp [Replaces, hc, Change.clears]
      by_cases hx : x = qos
      · subst hx
        rw [removalsWork_snoc_madeUp (Or.inl (by simp [Names, hc, Change.qos]))]
        apply iff_of_true
        · rw [hitems]
          cases hf : (after qosList entries).flushed <;> simp [hc, Change.apply, hsame, hf]
        · rintro rfl
          cases hc
      · cases hf : (after qosList entries).flushed with
        | true =>
          rw [removalsWork_snoc_same (by simp [Names, hc, Change.qos, Ne.symm hx])
            (fun _ => hflush.mp hf), ← ih, hitems, hf]
          simp [hc, Change.apply, hx, hsame, hf]
        | false =>
          -- the first replacement clears the list: no removal before it matters
          have hno : ∀ e ∈ entries, ¬ Replaces e := by
            intro e he hrep
            rw [hflush.mpr ⟨e, he, hrep⟩] at hf
            cases hf
          rw [removalsWork_snoc_madeUp (Or.inr ⟨hno, hr⟩), hitems, hf]
          apply iff_of_true
          · simp [hc, Change.apply, hx, hsame, hf]
          · rintro rfl
            cases hc

end

/-- The final list has the names that the entries mean exactly when every removal
works that no later entry makes up for. -/
theorem qosUpdate_iff (parent : Option (List (List Char))) (qosList : List (List Char))
    (first : List Char) (rest : List (List Char)) :
    {x | x ∈ localUpdateAssocQosList parent qosList (first :: rest)} =
        qosMeant {x | x ∈ qosList} (first :: rest) ↔
      ∀ before qos later, first :: rest = before ++ ('-' :: qos) :: later →
        ¬ MadeUp before later qos → Removable (after qosList before).iter qos := by
  rw [Set.ext_iff]
  constructor
  · intro h before qos later
    exact (mem_after_iff (first :: rest) qos).mp (h qos) before later
  · intro h x
    exact (mem_after_iff (first :: rest) x).mpr fun before later => h before x later

/-- The name `a` is passed when `b` is found, and not removed. -/
theorem not_qosUpdate_passed :
    {x | x ∈ localUpdateAssocQosList none [['a'], ['b']] ["+b".toList, "-a".toList]} ≠
      qosMeant {x | x ∈ [['a'], ['b']]} ["+b".toList, "-a".toList] := by
  have hcode : localUpdateAssocQosList none [['a'], ['b']] ["+b".toList, "-a".toList] =
      [['a'], ['b']] := by
    decide
  intro heq
  have hmem : ['a'] ∈ qosMeant {x | x ∈ [['a'], ['b']]} ["+b".toList, "-a".toList] := by
    rw [← heq, hcode]
    simp
  simp [qosMeant, applyEntry, changeOf, Change.apply] at hmem

end Slurm.AssocMgr
