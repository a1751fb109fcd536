import SlurmLite.AssocMgr.Update

/-!
# The tree of associations

The records above an association by parent id, and the walk along its parent pointers.

* **Lines** (`Line`): the records from the parent of a record up to the root.
* **Ids** (`ancestors`): the line, computed.
* **Pointers** (`Linked`, `climb_of_line`): the walk of the code is the line.
-/

namespace Slurm.AssocMgr

/-! ## Lines -/

/-- `l` are the records above `r`, its parent first and the root last. -/
inductive Line (recs : List Assoc) : Assoc → List Assoc → Prop
  | root {r : Assoc} : r.parentId = 0 → Line recs r []
  | up {r p : Assoc} {l : List Assoc} : p ∈ recs → r.parentId ≠ 0 → p.id = r.parentId →
      Line recs p l → Line recs r (p :: l)

/-- The records above `r`, at most `n` of them. -/
def ancestors (recs : List Assoc) : Nat → Assoc → List Assoc
  | 0, _ => []
  | n + 1, r =>
    if r.parentId = 0 then []
    else match recs.find? (·.id = r.parentId) with
      | none => []
      | some p => p :: ancestors recs n p

/-- `u` is below `a` in the tree. -/
def below (recs : List Assoc) (u a : Assoc) : Bool :=
  (ancestors recs recs.length u).any (·.id = a.id)

theorem eq_of_key {β : Type} [DecidableEq β] {key : Assoc → β} {recs : List Assoc} {r s : Assoc}
    (hkeys : (recs.map key).Nodup) (hr : r ∈ recs) (hs : s ∈ recs) (h : key r = key s) : r = s :=
  List.inj_on_of_nodup_map hkeys hr hs h

theorem find_of_key {β : Type} [DecidableEq β] {key : Assoc → β} {recs : List Assoc} {r : Assoc}
    (hkeys : (recs.map key).Nodup) (hr : r ∈ recs) :
    recs.find? (fun s => key s = key r) = some r := by
  have hsome : (recs.find? fun s => key s = key r).isSome := by
    rw [List.find?_isSome]
    exact ⟨r, hr, decide_eq_true rfl⟩
  obtain ⟨s, hs⟩ := Option.isSome_iff_exists.mp hsome
  have hkey : key s = key r := by simpa using List.find?_some hs
  rw [hs, eq_of_key hkeys (List.mem_of_find?_eq_some hs) hr hkey]

section Lines

variable {recs : List Assoc} {r : Assoc} {l : List Assoc}

theorem Line.subset (h : Line recs r l) : ∀ p ∈ l, p ∈ recs := by
  induction h with
  | root _ => exact fun p hp => absurd hp List.not_mem_nil
  | up hmem _ _ _ ih => exact fun p hp => (List.mem_cons.mp hp).elim (· ▸ hmem) (ih p)

theorem Line.mono {recs' : List Assoc} (hsub : ∀ p ∈ recs, p ∈ recs') (h : Line recs r l) :
    Line recs' r l := by
  induction h with
  | root hroot => exact .root hroot
  | up hmem hne hid _ ih => exact .up (hsub _ hmem) hne hid ih

theorem Line.unique (hids : (recs.map (·.id)).Nodup) (h : Line recs r l) :
    ∀ {l' : List Assoc}, Line recs r l' → l = l' := by
  induction h with
  | root hroot =>
    intro l' h'
    cases h' with
    | root _ => rfl
    | up _ hne _ _ => exact absurd hroot hne
  | up hmem hne hid _ ih =>
    intro l' h'
    cases h' with
    | root hroot => exact absurd hroot hne
    | up hmem' _ hid' hrest' =>
      obtain rfl := eq_of_key hids hmem hmem' (hid.trans hid'.symm)
      rw [ih hrest']

/-- Every record on a line has the rest of the line above it. -/
theorem Line.tail (h : Line recs r l) : ∀ p ∈ l, ∃ l', Line recs p l' ∧ l'.length < l.length := by
  induction h with
  | root _ => exact fun p hp => absurd hp List.not_mem_nil
  | up _ _ _ hrest ih =>
    intro p hp
    obtain rfl | hp := List.mem_cons.mp hp
    · exact ⟨_, hrest, Nat.lt_succ_self _⟩
    · obtain ⟨l', hl', hlt⟩ := ih p hp
      exact ⟨l', hl', Nat.lt_succ_of_lt hlt⟩

/-- No record is above itself. -/
theorem Line.not_mem (hids : (recs.map (·.id)).Nodup) (h : Line recs r l) : r ∉ l := by
  intro hmem
  obtain ⟨l', hl', hlt⟩ := h.tail r hmem
  rw [h.unique hids hl'] at hlt
  exact absurd hlt (Nat.lt_irrefl _)

theorem Line.nodup (hids : (recs.map (·.id)).Nodup) (h : Line recs r l) : l.Nodup := by
  induction h with
  | root _ => exact List.nodup_nil
  | up _ _ _ hrest ih => exact List.nodup_cons.mpr ⟨hrest.not_mem hids, ih⟩

theorem Line.length_le (hids : (recs.map (·.id)).Nodup) (h : Line recs r l) :
    l.length ≤ recs.length :=
  (List.subperm_of_subset (h.nodup hids) h.subset).length_le

theorem Line.ancestors (hids : (recs.map (·.id)).Nodup) (h : Line recs r l) {n : Nat}
    (hn : l.length ≤ n) : ancestors recs n r = l := by
  induction h generalizing n with
  | root hroot =>
    cases n with
    | zero => rfl
    | succ n => rw [AssocMgr.ancestors, if_pos hroot]
  | up hmem hne hid _ ih =>
    cases n with
    | zero => exact absurd hn (Nat.not_succ_le_zero _)
    | succ n =>
      rw [AssocMgr.ancestors, if_neg hne, ← hid, find_of_key hids hmem]
      exact congrArg _ (ih (Nat.le_of_succ_le_succ hn))

theorem below_iff (hids : (recs.map (·.id)).Nodup) (h : Line recs r l) {a : Assoc}
    (ha : a ∈ recs) : below recs r a = true ↔ a ∈ l := by
  rw [below, h.ancestors hids (h.length_le hids), List.any_eq_true]
  constructor
  · rintro ⟨p, hp, hid⟩
    rwa [← eq_of_key hids (h.subset p hp) ha (of_decide_eq_true hid)]
  · exact fun hmem => ⟨a, hmem, decide_eq_true rfl⟩

end Lines

/-- Whether the parent ids lead from `r` up to a record without one, in `n` steps. -/
def leadsUp (recs : List Assoc) : Nat → Assoc → Bool
  | 0, r => r.parentId = 0
  | n + 1, r =>
    r.parentId = 0 || (recs.find? (·.id = r.parentId)).any fun p => leadsUp recs n p

theorem exists_line_of_leadsUp {recs : List Assoc} {n : Nat} {r : Assoc}
    (h : leadsUp recs n r = true) : ∃ l, Line recs r l := by
  induction n generalizing r with
  | zero => exact ⟨[], .root (of_decide_eq_true h)⟩
  | succ n ih =>
    by_cases hroot : r.parentId = 0
    · exact ⟨[], .root hroot⟩
    · rw [leadsUp, decide_eq_false hroot, Bool.false_or, Option.any_eq_true] at h
      obtain ⟨p, hfind, hp⟩ := h
      obtain ⟨l, hl⟩ := ih hp
      have hid : p.id = r.parentId := by simpa using List.find?_some hfind
      exact ⟨p :: l, .up (List.mem_of_find?_eq_some hfind) hroot hid hl⟩

theorem Line.leadsUp {recs : List Assoc} (hids : (recs.map (·.id)).Nodup) {r : Assoc}
    {l : List Assoc} (h : Line recs r l) {n : Nat} (hn : l.length ≤ n) :
    leadsUp recs n r = true := by
  induction h generalizing n with
  | root hroot =>
    cases n with
    | zero => exact decide_eq_true hroot
    | succ n => rw [AssocMgr.leadsUp, decide_eq_true hroot, Bool.true_or]
  | up hmem hne hid _ ih =>
    cases n with
    | zero => exact absurd hn (Nat.not_succ_le_zero _)
    | succ n =>
      rw [AssocMgr.leadsUp, ← hid, find_of_key hids hmem, Option.any_some,
        ih (Nat.le_of_succ_le_succ hn), Bool.or_true]

/-! ## Pointers -/

/-- The parent pointers are those of the parent ids. -/
def Linked (recs : List Assoc) : Prop :=
  ∀ r ∈ recs, (r.parentId = 0 → r.parentAssocPtr = none) ∧
    ∀ p ∈ recs, r.parentId ≠ 0 → p.id = r.parentId → r.parentAssocPtr = some p.addr

/-- The walk along the pointers passes the records of the line. -/
theorem climb_of_line {recs kept : List Assoc} (haddrs : (recs.map (·.addr)).Nodup)
    (hlinked : Linked recs) {r : Assoc} {l : List Assoc} (hr : r ∈ recs) (h : Line recs r l)
    {n : Nat} (hn : l.length ≤ n) :
    climb (recs ++ kept) n r.parentAssocPtr = some (l.map (·.addr)) := by
  induction h generalizing n with
  | root hroot =>
    rw [(hlinked _ hr).1 hroot]
    cases n <;> rfl
  | up hmem hne hid _ ih =>
    cases n with
    | zero => exact absurd hn (Nat.not_succ_le_zero _)
    | succ n =>
      have hfind := find_of_key haddrs hmem
      rw [(hlinked _ hr).2 _ hmem hne hid, climb, List.find?_append, hfind, Option.some_or,
        Option.bind_some, ih hmem (Nat.le_of_succ_le_succ hn)]
      rfl

theorem climb_congr {recs recs' : List Assoc}
    (hsame : ∀ a, (recs.find? (·.addr = a)).map (·.parentAssocPtr) =
      (recs'.find? (·.addr = a)).map (·.parentAssocPtr)) (n : Nat) (ptr : Option Nat) :
    climb recs n ptr = climb recs' n ptr := by
  induction n generalizing ptr with
  | zero => cases ptr <;> rfl
  | succ n ih =>
    cases ptr with
    | none => rfl
    | some a =>
      have h := hsame a
      rw [climb, climb]
      cases hr : recs.find? (·.addr = a) with
      | none =>
        rw [hr, Option.map_none, eq_comm, Option.map_eq_none_iff] at h
        rw [h]
        rfl
      | some r =>
        rw [hr, Option.map_some, eq_comm, Option.map_eq_some_iff] at h
        obtain ⟨r', hr', hptr⟩ := h
        rw [hr', Option.bind_some, Option.bind_some, ih, hptr]

/-- The walk does not look at what the records hold besides. -/
theorem climb_map_append {f : Assoc → Assoc} (haddr : ∀ r, (f r).addr = r.addr)
    (hptr : ∀ r, (f r).parentAssocPtr = r.parentAssocPtr) (recs kept : List Assoc) (n : Nat)
    (ptr : Option Nat) : climb (recs.map f ++ kept) n ptr = climb (recs ++ kept) n ptr := by
  apply climb_congr
  intro a
  have hsame : (fun r => decide (r.addr = a)) ∘ f = fun r => decide (r.addr = a) := by
    funext r
    rw [Function.comp_apply, haddr]
  rw [List.find?_append, List.find?_append, List.find?_map, hsame]
  cases recs.find? fun r => decide (r.addr = a) with
  | none => rfl
  | some r => exact congrArg some (hptr r)

theorem Line.map {f : Assoc → Assoc} (hid : ∀ r, (f r).id = r.id)
    (hparent : ∀ r, (f r).parentId = r.parentId) {recs : List Assoc} {r : Assoc} {l : List Assoc}
    (h : Line recs r l) : Line (recs.map f) (f r) (l.map f) := by
  induction h with
  | root hroot => exact .root ((hparent _).trans hroot)
  | up hmem hne hpid _ ih =>
    refine .up (List.mem_map_of_mem hmem) ?_ ?_ ih
    · rwa [hparent]
    · rw [hid, hparent, hpid]

end Slurm.AssocMgr
