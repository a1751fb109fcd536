import SlurmLite.AssocMgr.Usage

/-!
# Parents and children after an update

The parent pointers and the lists of children that `assoc_mgr_update_assocs` leaves, with the
two parents that `_set_assoc_parent_and_user` remembers.

* **Pointers** (`wanted`, `ParentsRight`): the pointer that a parent id asks for.
* **Setting** (`setAssocParent`, `resetFamily`): the loop with the remembered parents, which
  sets the pointers of `resetParents`.
* **Walks** (`climb_length`, `isSome_foldlM_addToParents`): when the loops along the parents end.
* **Calls** (`updateFamily_iff`, `run_right`): when pointers and children are right after the
  calls of a run.
-/

namespace Slurm.AssocMgr

open Base.Run

/-! ## Pointers -/

/-- The address of the association with the parent id of `r`, if there is one. -/
def wanted (recs : List Assoc) (r : Assoc) : Option Nat :=
  if r.parentId = 0 then none else (recs.find? (·.id = r.parentId)).map (·.addr)

/-- The manager with the children: `childern a` is the `childern_list` of the record at `a`. -/
structure Family where
  mgr : Mgr
  childern : Nat → List Nat

/-- Every parent pointer is the one asked for. -/
def ParentsRight (recs : List Assoc) : Prop := ∀ r ∈ recs, r.parentAssocPtr = wanted recs r

instance (recs : List Assoc) : Decidable (ParentsRight recs) :=
  inferInstanceAs (Decidable (∀ r ∈ recs, _ = _))

/-- Every list of children holds the records that point to its owner. -/
def ChildernRight (recs : List Assoc) (childern : Nat → List Nat) : Prop :=
  ∀ o ∈ recs,
    (childern o.addr).Perm ((recs.filter (·.parentAssocPtr = some o.addr)).map (·.addr))

/-- The property after a call. -/
def Family.Right (cfg : Config) (f : Family) : Prop :=
  ∀ recs, f.mgr.assocList = some recs →
    ParentsRight recs ∧ (cfg.setupChildern = true → ChildernRight recs f.childern)

/-- The records lie at different addresses, all allocated. -/
structure Allocated (m : Mgr) : Prop where
  addrs : ∀ recs, m.assocList = some recs → (recs.map (·.addr)).Nodup
  fresh : ∀ recs, m.assocList = some recs → ∀ r ∈ recs, r.addr < m.nextAddr

/-! ## Setting the parents -/

/-- What the loop over the records keeps: the lists of children, `last_parent` and
`last_acct_parent`. -/
structure Setting where
  childern : Nat → List Nat
  lastParent : Option Assoc
  lastAcctParent : Option Assoc

/-- The parent of `r`, looked for among those remembered and then in the list. -/
def findParent (recs : List Assoc) (s : Setting) (r : Assoc) : Option Assoc × Setting :=
  if s.lastParent.any (·.id = r.parentId) then (s.lastParent, s)
  else if s.lastAcctParent.any (·.id = r.parentId) then (s.lastAcctParent, s)
  else
    match recs.find? (·.id = r.parentId) with
    | none => (none, s)
    | some p =>
      (some p,
        if r.user.isSome then { s with lastParent := some p }
        else { s with lastAcctParent := some p })

/-- `list_append` to the children of the record at `a`. -/
def Setting.append (s : Setting) (a child : Nat) : Setting :=
  { s with childern := Function.update s.childern a (s.childern a ++ [child]) }

/-- `_set_assoc_parent_and_user` with the children. An append to a record that is gone is
undefined, as is the walk of the shares from there. -/
def setAssocParent (cfg : Config) (recs : List Assoc) (s : Setting) (r : Assoc) :
    Assoc × Setting :=
  let uid := (r.user.bind cfg.uidFromString).getD noVal
  if r.parentId ≠ 0 then
    let (found, s) := findParent recs s r
    let ptr := (found.map (·.addr)).or r.parentAssocPtr
    let s := match ptr with
      | some a => if cfg.setupChildern then s.append a r.addr else s
      | none => s
    ({ r with parentAssocPtr := if ptr = some r.addr then none else ptr, uid }, s)
  else ({ r with uid }, s)

/-- The loop that sets the parents again, with the children; the root is skipped. -/
def resetFamily (cfg : Config) (recs : List Assoc) :
    List Assoc → Option Nat → Setting → List Assoc × Option Nat × Setting
  | [], root, s => ([], root, s)
  | r :: rest, root, s =>
    if root = some r.addr then
      let (rest', root', s') := resetFamily cfg recs rest root s
      (r :: rest', root', s')
    else
      let (r', s) := setAssocParent cfg recs s (clearUsed r)
      let (rest', root', s') := resetFamily cfg recs rest (setRoot root r) s
      (r' :: rest', root', s')

/-- The lists of children before the loop: those of the list are flushed. -/
def flushed (recs : List Assoc) (childern : Nat → List Nat) : Setting where
  childern a := if a ∈ recs.map (·.addr) then [] else childern a
  lastParent := none
  lastAcctParent := none

/-- The lists of children after the loop. -/
def resetChildern (cfg : Config) (recs : List Assoc) (root : Option Nat)
    (childern : Nat → List Nat) : Nat → List Nat :=
  (resetFamily cfg recs recs root (flushed recs childern)).2.2.childern

/-- `assoc_mgr_update_assocs` with the children. -/
def updateFamily (cfg : Config) (f : Family) (type : UpdateType) (objects : List AssocObject) :
    Option Family :=
  (assocMgrUpdateAssocs cfg f.mgr type objects).map fun mgr =>
    { mgr
      childern :=
        match f.mgr.assocList with
        | none => f.childern
        | some recs =>
          let p := applyObjects cfg f.mgr recs type objects
          if p.parentsChanged && cfg.setupChildern then
            resetChildern cfg (listSort p.recs) f.mgr.rootAssoc f.childern
          else f.childern }

/-! ### The remembered parents -/

/-- What is remembered is what the search by id would find. -/
structure Remembered (recs : List Assoc) (s : Setting) : Prop where
  parent : ∀ p, s.lastParent = some p → recs.find? (·.id = p.id) = some p
  acctParent : ∀ p, s.lastAcctParent = some p → recs.find? (·.id = p.id) = some p

theorem remembered_flushed (recs : List Assoc) (childern : Nat → List Nat) :
    Remembered recs (flushed recs childern) where
  parent := fun _ h => absurd h (Option.some_ne_none _).symm
  acctParent := fun _ h => absurd h (Option.some_ne_none _).symm

theorem find_of_any {recs : List Assoc} {last : Option Assoc} {id : UInt32}
    (h : ∀ p, last = some p → recs.find? (·.id = p.id) = some p)
    (hany : last.any (·.id = id) = true) : last = recs.find? (·.id = id) := by
  obtain ⟨p, rfl, hid⟩ := (Option.any_eq_true _ _).mp hany
  rw [← of_decide_eq_true hid]
  exact (h p rfl).symm

theorem findParent_eq {recs : List Assoc} {s : Setting} (h : Remembered recs s) (r : Assoc) :
    (findParent recs s r).1 = recs.find? (·.id = r.parentId) ∧
      Remembered recs (findParent recs s r).2 ∧
      (findParent recs s r).2.childern = s.childern := by
  unfold findParent
  split
  · rename_i hany
    exact ⟨find_of_any h.parent hany, h, rfl⟩
  · split
    · rename_i hany
      exact ⟨find_of_any h.acctParent hany, h, rfl⟩
    · split
      · rename_i hfind
        exact ⟨hfind.symm, h, rfl⟩
      · rename_i p hfind
        have hid : p.id = r.parentId := by simpa using List.find?_some hfind
        have hsame : ∀ q, some p = some q → recs.find? (·.id = q.id) = some q := by
          rintro q heq
          obtain rfl := Option.some.inj heq
          rw [hid]
          exact hfind
        refine ⟨hfind.symm, ?_, ?_⟩
        · split
          · exact ⟨hsame, h.acctParent⟩
          · exact ⟨h.parent, hsame⟩
        · split <;> rfl

/-- The pointer of `r` before it is compared with `r`. -/
def aimed (recs : List Assoc) (r : Assoc) : Option Nat :=
  if r.parentId = 0 then none
  else ((recs.find? (·.id = r.parentId)).map (·.addr)).or r.parentAssocPtr

/-- The lists of children after one record. -/
def enlisted (cfg : Config) (childern : Nat → List Nat) (ptr : Option Nat) (child : Nat) :
    Nat → List Nat :=
  match ptr with
  | some a =>
    if cfg.setupChildern then Function.update childern a (childern a ++ [child]) else childern
  | none => childern

theorem setAssocParent_eq (cfg : Config) {recs : List Assoc} {s : Setting}
    (h : Remembered recs s) (r : Assoc) :
    (setAssocParent cfg recs s r).1 = setAssocParentAndUser cfg recs r ∧
      Remembered recs (setAssocParent cfg recs s r).2 ∧
      (setAssocParent cfg recs s r).2.childern =
        enlisted cfg s.childern (aimed recs r) r.addr := by
  obtain ⟨hfound, hremembered, hchildern⟩ := findParent_eq h r
  unfold setAssocParent setAssocParentAndUser aimed
  by_cases hparent : r.parentId = 0
  · rw [if_neg (not_not.mpr hparent), if_neg (not_not.mpr hparent), if_pos hparent]
    exact ⟨rfl, h, rfl⟩
  · rw [if_pos hparent, if_pos hparent, if_neg hparent]
    dsimp only
    rw [hfound]
    refine ⟨?_, ?_, ?_⟩
    · cases recs.find? (·.id = r.parentId) with
      | none => rfl
      | some p => simp only [Option.map_some, Option.some_or, Option.some.injEq]
    · split
      · split
        · exact ⟨hremembered.parent, hremembered.acctParent⟩
        · exact hremembered
      · exact hremembered
    · unfold enlisted
      split
      · split
        · rw [Setting.append, hchildern]
        · exact hchildern
      · exact hchildern

/-! ### The loop -/

/-- The loop passes `r` over: it is the root, and no record before it without a parent id
became the root instead. -/
def passedOver (root : Option Nat) (l : List Assoc) (r : Assoc) : Bool :=
  root = some r.addr && (l.takeWhile (·.addr ≠ r.addr)).all (·.parentId ≠ 0)

theorem passedOver_head (root : Option Nat) (l : List Assoc) (r : Assoc) :
    passedOver root (r :: l) r = decide (root = some r.addr) := by
  rw [passedOver, List.takeWhile_cons_of_neg (by simp), List.all_nil, Bool.and_true]

theorem passedOver_tail {root : Option Nat} {l : List Assoc} {r s : Assoc}
    (hne : r.addr ≠ s.addr) :
    passedOver root (s :: l) r =
      passedOver (if root = some s.addr then root else setRoot root s) l r := by
  have hne' : ¬s.addr = r.addr := fun h => hne h.symm
  rw [passedOver, List.takeWhile_cons_of_pos (by simpa using hne'), List.all_cons, passedOver]
  by_cases hroot : root = some s.addr
  · rw [if_pos hroot, hroot]
    simp [hne']
  · rw [if_neg hroot, setRoot]
    by_cases hparent : s.parentId = 0
    · rw [if_pos hparent]
      simp [hparent, hne']
    · rw [if_neg hparent, decide_eq_true hparent, Bool.true_and]

/-- A record after the loop. -/
def reset (cfg : Config) (recs : List Assoc) (root : Option Nat) (l : List Assoc) (r : Assoc) :
    Assoc :=
  if passedOver root l r then r else setAssocParentAndUser cfg recs (clearUsed r)

/-- The list that the loop leaves. -/
theorem resetParents_map (cfg : Config) (recs : List Assoc) {l : List Assoc} {root : Option Nat}
    (haddrs : (l.map (·.addr)).Nodup) :
    (resetParents cfg recs l root).1 = l.map (reset cfg recs root l) := by
  induction l generalizing root with
  | nil => rfl
  | cons r l ih =>
    obtain ⟨hnot, hrest⟩ := List.nodup_cons.mp haddrs
    have htail : ∀ s ∈ l,
        reset cfg recs (if root = some r.addr then root else setRoot root r) l s =
        reset cfg recs root (r :: l) s := by
      intro s hs
      have hne : s.addr ≠ r.addr := fun heq => hnot (List.mem_map.mpr ⟨s, hs, heq⟩)
      rw [reset, reset, passedOver_tail hne]
    rw [resetParents, List.map_cons, ← List.map_congr_left htail, reset, passedOver_head]
    by_cases hroot : root = some r.addr
    · rw [if_pos hroot, if_pos hroot, if_pos (decide_eq_true hroot), ← ih hrest]
    · rw [if_neg hroot, if_neg hroot, if_neg (by simpa using hroot), ← ih hrest]

/-- The children of `o` that the loop appends. -/
def appended (recs : List Assoc) (root : Option Nat) (l : List Assoc) (o : Nat) : List Nat :=
  (l.filter fun r => !passedOver root l r && decide (aimed recs r = some o)).map (·.addr)

theorem aimed_clearUsed (recs : List Assoc) (r : Assoc) :
    aimed recs (clearUsed r) = aimed recs r := by
  unfold clearUsed
  split <;> rfl

theorem enlisted_apply {cfg : Config} (hset : cfg.setupChildern = true)
    (childern : Nat → List Nat) (ptr : Option Nat) (child o : Nat) :
    enlisted cfg childern ptr child o = childern o ++ if ptr = some o then [child] else [] := by
  cases ptr with
  | none => exact (List.append_nil _).symm
  | some a =>
    unfold enlisted
    dsimp only
    rw [if_pos hset]
    by_cases ho : a = o
    · subst ho
      rw [Function.update_self, if_pos rfl]
    · rw [Function.update_of_ne (Ne.symm ho), if_neg fun h => ho (Option.some.inj h),
        List.append_nil]

/-- The loop with the children sets the pointers of the loop without them, and appends the
records it does not pass over to the children of the record they aim at. -/
theorem resetFamily_eq (cfg : Config) (recs : List Assoc) {l : List Assoc} {root : Option Nat}
    {s : Setting} (haddrs : (l.map (·.addr)).Nodup) (h : Remembered recs s) :
    (resetFamily cfg recs l root s).1 = (resetParents cfg recs l root).1 ∧
      (resetFamily cfg recs l root s).2.1 = (resetParents cfg recs l root).2 ∧
      (cfg.setupChildern = true → ∀ o,
        (resetFamily cfg recs l root s).2.2.childern o =
          s.childern o ++ appended recs root l o) := by
  induction l generalizing root s with
  | nil => exact ⟨rfl, rfl, fun _ o => (List.append_nil _).symm⟩
  | cons r l ih =>
    obtain ⟨hnot, hrest⟩ := List.nodup_cons.mp haddrs
    have htail : ∀ o, appended recs root (r :: l) o =
        (if root ≠ some r.addr ∧ aimed recs r = some o then [r.addr] else []) ++
          appended recs (if root = some r.addr then root else setRoot root r) l o := by
      intro o
      have hsame : ∀ t ∈ l, (!passedOver root (r :: l) t && decide (aimed recs t = some o)) =
          (!passedOver (if root = some r.addr then root else setRoot root r) l t &&
            decide (aimed recs t = some o)) := by
        intro t ht
        have hne : t.addr ≠ r.addr := fun heq => hnot (List.mem_map.mpr ⟨t, ht, heq⟩)
        rw [passedOver_tail hne]
      rw [appended, List.filter_cons, List.filter_congr hsame, passedOver_head]
      by_cases hroot : root = some r.addr
      · simp [hroot, appended]
      · by_cases haim : aimed recs r = some o
        · simp [hroot, haim, appended]
        · simp [hroot, haim, appended]
    rw [resetFamily, resetParents]
    by_cases hroot : root = some r.addr
    · obtain ⟨h₁, h₂, h₃⟩ := @ih root s hrest h
      rw [if_pos hroot, if_pos hroot]
      refine ⟨congrArg _ h₁, h₂, fun hset o => ?_⟩
      rw [htail, if_pos hroot, if_neg fun hand => hand.1 hroot, List.nil_append]
      exact h₃ hset o
    · obtain ⟨hone, hremembered, hchildern⟩ := setAssocParent_eq cfg h (clearUsed r)
      obtain ⟨h₁, h₂, h₃⟩ := @ih (setRoot root r) (setAssocParent cfg recs s (clearUsed r)).2
        hrest hremembered
      rw [if_neg hroot, if_neg hroot]
      refine ⟨?_, h₂, fun hset o => ?_⟩
      · exact congrArg₂ _ hone h₁
      · refine (h₃ hset o).trans ?_
        rw [hchildern, enlisted_apply hset, aimed_clearUsed, (clearUsed_frame r).1, htail,
          if_neg hroot, List.append_assoc]
        simp only [ne_eq, hroot, not_false_eq_true, true_and]

/-! ## Walks -/

/-- What a walk is: nothing, or a record and the walk from its pointer. -/
theorem climb_cases {recs : List Assoc} {n : Nat} {ptr : Option Nat} {l : List Nat}
    (h : climb recs n ptr = some l) :
    ptr = none ∧ l = [] ∨ ∃ m a r t, n = m + 1 ∧ ptr = some a ∧ l = a :: t ∧
      recs.find? (·.addr = a) = some r ∧ climb recs m r.parentAssocPtr = some t := by
  cases ptr with
  | none =>
    refine Or.inl ⟨rfl, ?_⟩
    cases n <;> exact (Option.some.inj h).symm
  | some a =>
    cases n with
    | zero => exact absurd h (Option.some_ne_none _).symm
    | succ m =>
      obtain ⟨r, hr, hrest⟩ := Option.bind_eq_some_iff.mp h
      obtain ⟨t, ht, rfl⟩ := Option.map_eq_some_iff.mp hrest
      exact Or.inr ⟨m, a, r, t, rfl, rfl, rfl, hr, ht⟩

theorem climb_none (recs : List Assoc) (n : Nat) : climb recs n none = some [] := by
  cases n <;> rfl

theorem climb_some {recs : List Assoc} {n a : Nat} {r : Assoc} {t : List Nat}
    (hr : recs.find? (·.addr = a) = some r) (ht : climb recs n r.parentAssocPtr = some t) :
    climb recs (n + 1) (some a) = some (a :: t) := by
  rw [climb, hr, Option.bind_some, ht]
  rfl

/-- A walk goes as far with the fuel of its length, or more. -/
theorem climb_length {recs : List Assoc} {n m : Nat} {ptr : Option Nat} {l : List Nat}
    (h : climb recs n ptr = some l) (hle : l.length ≤ m) : climb recs m ptr = some l := by
  induction l generalizing n m ptr with
  | nil =>
    obtain ⟨rfl, -⟩ | ⟨_, _, _, _, -, -, hl, -⟩ := climb_cases h
    · exact climb_none recs m
    · exact absurd hl (List.cons_ne_nil _ _).symm
  | cons b l ih =>
    obtain ⟨-, hl⟩ | ⟨k, a, r, t, -, rfl, hl, hr, ht⟩ := climb_cases h
    · exact absurd hl (List.cons_ne_nil _ _)
    · obtain ⟨rfl, rfl⟩ := List.cons.inj hl
      obtain ⟨m, rfl⟩ : ∃ j, m = j + 1 := ⟨m - 1, by rw [List.length_cons] at hle; omega⟩
      exact climb_some hr (ih ht (Nat.le_of_succ_le_succ hle))

theorem climb_unique {recs : List Assoc} {n m : Nat} {ptr : Option Nat} {l l' : List Nat}
    (h : climb recs n ptr = some l) (h' : climb recs m ptr = some l') : l = l' := by
  have hmax := climb_length h (Nat.le_max_left l.length l'.length)
  rw [climb_length h' (Nat.le_max_right l.length l'.length)] at hmax
  exact (Option.some.inj hmax).symm

/-- The walk from a record that a walk passes is the rest of it. -/
theorem climb_from {recs : List Assoc} {n b : Nat} {ptr : Option Nat} {l : List Nat}
    (h : climb recs n ptr = some l) (hb : b ∈ l) :
    ∃ m rest, climb recs m (some b) = some (b :: rest) ∧ rest.length < l.length := by
  induction l generalizing n ptr with
  | nil => exact absurd hb List.not_mem_nil
  | cons c l ih =>
    obtain ⟨-, hl⟩ | ⟨k, a, r, t, -, rfl, hl, hr, ht⟩ := climb_cases h
    · exact absurd hl (List.cons_ne_nil _ _)
    · obtain ⟨rfl, rfl⟩ := List.cons.inj hl
      obtain rfl | hb := List.mem_cons.mp hb
      · exact ⟨n, l, h, Nat.lt_succ_self _⟩
      · obtain ⟨m, rest, hm, hlt⟩ := ih ht hb
        exact ⟨m, rest, hm, Nat.lt_succ_of_lt hlt⟩

/-- A walk that ends passes no record twice. -/
theorem climb_nodup {recs : List Assoc} {n : Nat} {ptr : Option Nat} {l : List Nat}
    (h : climb recs n ptr = some l) : l.Nodup := by
  induction l generalizing n ptr with
  | nil => exact List.nodup_nil
  | cons c l ih =>
    obtain ⟨-, hl⟩ | ⟨k, a, r, t, -, rfl, hl, hr, ht⟩ := climb_cases h
    · exact absurd hl (List.cons_ne_nil _ _)
    · obtain ⟨rfl, rfl⟩ := List.cons.inj hl
      refine List.nodup_cons.mpr ⟨fun hmem => ?_, ih ht⟩
      obtain ⟨m, rest, hm, hlt⟩ := climb_from ht hmem
      rw [(List.cons.inj (climb_unique h hm)).2] at hlt
      exact absurd hlt (Nat.lt_irrefl _)

theorem climb_subset {recs : List Assoc} {n : Nat} {ptr : Option Nat} {l : List Nat}
    (h : climb recs n ptr = some l) : ∀ a ∈ l, a ∈ recs.map (·.addr) := by
  induction l generalizing n ptr with
  | nil => exact fun a ha => absurd ha List.not_mem_nil
  | cons c l ih =>
    obtain ⟨-, hl⟩ | ⟨k, a, r, t, -, rfl, hl, hr, ht⟩ := climb_cases h
    · exact absurd hl (List.cons_ne_nil _ _)
    · obtain ⟨rfl, rfl⟩ := List.cons.inj hl
      intro b hb
      obtain rfl | hb := List.mem_cons.mp hb
      · have haddr : r.addr = b := by simpa using List.find?_some hr
        exact List.mem_map.mpr ⟨r, List.mem_of_find?_eq_some hr, haddr⟩
      · exact ih ht b hb

/-- A walk that ends at all ends with as much fuel as there are records. -/
theorem climb_fuel {recs : List Assoc} {n m : Nat} {ptr : Option Nat}
    (hm : recs.length ≤ m) (h : (climb recs n ptr).isSome) : (climb recs m ptr).isSome := by
  obtain ⟨l, hl⟩ := Option.isSome_iff_exists.mp h
  have hle := (List.subperm_of_subset (climb_nodup hl) (climb_subset hl)).length_le
  rw [List.length_map] at hle
  rw [climb_length hl (Nat.le_trans hle hm)]
  rfl

/-- The pointers of the records lead to records of the list. -/
def Closed (recs : List Assoc) : Prop :=
  ∀ r ∈ recs, ∀ a, r.parentAssocPtr = some a → a ∈ recs.map (·.addr)

theorem find_append_of_mem {recs kept : List Assoc} {a : Nat} (h : a ∈ recs.map (·.addr)) :
    (recs ++ kept).find? (·.addr = a) = recs.find? (·.addr = a) := by
  obtain ⟨r, hr, rfl⟩ := List.mem_map.mp h
  have hsome : (recs.find? (·.addr = r.addr)).isSome :=
    List.find?_isSome.mpr ⟨r, hr, decide_eq_true rfl⟩
  obtain ⟨s, hs⟩ := Option.isSome_iff_exists.mp hsome
  rw [List.find?_append, hs, Option.some_or]

/-- A walk from a record of a closed list stays in it. -/
theorem climb_append {recs kept : List Assoc} (hclosed : Closed recs) (n : Nat)
    {ptr : Option Nat} (hptr : ∀ a, ptr = some a → a ∈ recs.map (·.addr)) :
    climb (recs ++ kept) n ptr = climb recs n ptr := by
  induction n generalizing ptr with
  | zero => cases ptr <;> rfl
  | succ n ih =>
    cases ptr with
    | none => rfl
    | some a =>
      rw [climb, climb, find_append_of_mem (hptr a rfl)]
      cases hr : recs.find? (·.addr = a) with
      | none => rfl
      | some r =>
        rw [Option.bind_some, Option.bind_some,
          ih (hclosed r (List.mem_of_find?_eq_some hr))]

/-! ### The usage along the parents -/

/-- A record without its usage. -/
def bare (r : Assoc) : Assoc := { r with used := 0 }

theorem climb_bare {recs recs' : List Assoc} (h : recs'.map bare = recs.map bare)
    (kept : List Assoc) (n : Nat) (ptr : Option Nat) :
    climb (recs' ++ kept) n ptr = climb (recs ++ kept) n ptr := by
  have hmap : ∀ l : List Assoc, climb (l.map bare ++ kept) n ptr = climb (l ++ kept) n ptr :=
    fun l => climb_map_append (f := bare) (fun _ => rfl) (fun _ => rfl) l kept n ptr
  rw [← hmap recs', h, hmap]

theorem find_bare {recs recs' : List Assoc} (h : recs'.map bare = recs.map bare) (a : Nat) :
    (recs'.find? (·.addr = a)).map bare = (recs.find? (·.addr = a)).map bare := by
  have hfind : ∀ l : List Assoc, (l.map bare).find? (·.addr = a) =
      (l.find? (·.addr = a)).map bare := fun l => by
    rw [List.find?_map]
    rfl
  rw [← hfind, ← hfind, h]

theorem bare_foldl_addto (u : Used) (line : List Nat) (recs : List Assoc) :
    (line.foldl (addtoUsedInfo u) recs).map bare = recs.map bare := by
  induction line generalizing recs with
  | nil => rfl
  | cons a line ih =>
    rw [List.foldl_cons, ih, addtoUsedInfo, List.map_map]
    refine List.map_congr_left fun r _ => ?_
    rw [Function.comp_apply]
    split <;> rfl

/-- The walk of the usage of the record at `a` ends. -/
def walks (recs kept : List Assoc) (a : Nat) : Bool :=
  ((recs.find? (·.addr = a)).bind fun r =>
    climb (recs ++ kept) (recs ++ kept).length r.parentAssocPtr).isSome

theorem walks_bare {recs recs' : List Assoc} (h : recs'.map bare = recs.map bare)
    (kept : List Assoc) (a : Nat) : walks recs' kept a = walks recs kept a := by
  have hlen : recs'.length = recs.length := by
    have := congrArg List.length h
    rwa [List.length_map, List.length_map] at this
  have hfind := find_bare h a
  rw [walks, walks, List.length_append, hlen, ← List.length_append]
  cases hr' : recs'.find? (·.addr = a) with
  | none =>
    rw [hr', Option.map_none, eq_comm, Option.map_eq_none_iff] at hfind
    rw [hfind]
    rfl
  | some r' =>
    rw [hr', Option.map_some, eq_comm, Option.map_eq_some_iff] at hfind
    obtain ⟨r, hr, heq⟩ := hfind
    have hptr : r.parentAssocPtr = r'.parentAssocPtr := congrArg (·.parentAssocPtr) heq
    rw [hr, Option.bind_some, Option.bind_some, climb_bare h, hptr]

theorem isSome_addToParents (recs kept : List Assoc) (a : Nat) :
    (addToParents kept recs a).isSome = walks recs kept a ∧
      ∀ recs', addToParents kept recs a = some recs' → recs'.map bare = recs.map bare := by
  rw [addToParents, walks]
  cases recs.find? (·.addr = a) with
  | none => exact ⟨rfl, fun _ h => absurd h (Option.some_ne_none _).symm⟩
  | some r =>
    rw [Option.bind_eq_bind, Option.bind_some, Option.bind_some]
    cases climb (recs ++ kept) (recs ++ kept).length r.parentAssocPtr with
    | none => exact ⟨rfl, fun _ h => absurd h (Option.some_ne_none _).symm⟩
    | some line =>
      refine ⟨rfl, fun recs' h => ?_⟩
      obtain rfl := Option.some.inj h
      exact bare_foldl_addto _ _ _

/-- The loop over the users ends when each walk does, and changes usage only. -/
theorem isSome_foldlM_addToParents (kept : List Assoc) (as : List Nat) (recs : List Assoc) :
    (as.foldlM (addToParents kept) recs).isSome = as.all (walks recs kept) ∧
      ∀ recs', as.foldlM (addToParents kept) recs = some recs' →
        recs'.map bare = recs.map bare := by
  induction as generalizing recs with
  | nil =>
    refine ⟨rfl, fun recs' h => ?_⟩
    obtain rfl := Option.some.inj h
    rfl
  | cons a as ih =>
    obtain ⟨hwalks, hbare⟩ := isSome_addToParents recs kept a
    rw [List.foldlM_cons, List.all_cons, ← hwalks, Option.bind_eq_bind]
    cases hone : addToParents kept recs a with
    | none => exact ⟨rfl, fun _ h => absurd h (Option.some_ne_none _).symm⟩
    | some recs₁ =>
      have hbare₁ := hbare recs₁ hone
      have hsame : as.all (walks recs₁ kept) = as.all (walks recs kept) :=
        congrArg as.all (funext fun b => walks_bare hbare₁ kept b)
      rw [Option.bind_some, Option.isSome_some, Bool.true_and, ← hsame]
      exact ⟨(ih recs₁).1, fun recs' h => ((ih recs₁).2 recs' h).trans hbare₁⟩

/-! ## What is right in a list -/

theorem wanted_map {f : Assoc → Assoc} {recs : List Assoc} (hid : ∀ r, (f r).id = r.id)
    (haddr : ∀ r, (f r).addr = r.addr) (hparent : ∀ r, (f r).parentId = r.parentId) (r : Assoc) :
    wanted (recs.map f) (f r) = wanted recs r := by
  have hsame : (fun s => decide (s.id = r.parentId)) ∘ f = fun s => decide (s.id = r.parentId) := by
    funext s
    rw [Function.comp_apply, hid]
  rw [wanted, wanted, hparent, List.find?_map, hsame, Option.map_map]
  have hcomp : (·.addr) ∘ f = (·.addr) := funext haddr
  rw [hcomp]

theorem parentsRight_map {f : Assoc → Assoc} {recs : List Assoc} (hid : ∀ r, (f r).id = r.id)
    (haddr : ∀ r, (f r).addr = r.addr) (hparent : ∀ r, (f r).parentId = r.parentId) :
    ParentsRight (recs.map f) ↔ ∀ r ∈ recs, (f r).parentAssocPtr = wanted recs r := by
  rw [ParentsRight, List.forall_mem_map]
  refine forall₂_congr fun r _ => ?_
  rw [wanted_map hid haddr hparent]

theorem parentsRight_bare {recs recs' : List Assoc} (h : recs'.map bare = recs.map bare) :
    ParentsRight recs' ↔ ParentsRight recs := by
  have hmap : ∀ l : List Assoc, ParentsRight (l.map bare) ↔ ParentsRight l := fun l =>
    parentsRight_map (f := bare) (fun _ => rfl) (fun _ => rfl) fun _ => rfl
  rw [← hmap recs', h, hmap]

theorem childernRight_map {f : Assoc → Assoc} {recs : List Assoc}
    (haddr : ∀ r, (f r).addr = r.addr) (childern : Nat → List Nat) :
    ChildernRight (recs.map f) childern ↔ ∀ o ∈ recs, (childern o.addr).Perm
      ((recs.filter fun r => (f r).parentAssocPtr = some o.addr).map (·.addr)) := by
  rw [ChildernRight, List.forall_mem_map]
  refine forall₂_congr fun o _ => ?_
  have hcomp : (·.addr) ∘ f = (·.addr) := funext haddr
  rw [haddr, List.filter_map, List.map_map, hcomp]
  rfl

theorem childernRight_bare {recs recs' : List Assoc} (h : recs'.map bare = recs.map bare)
    (childern : Nat → List Nat) : ChildernRight recs' childern ↔ ChildernRight recs childern := by
  have hmap : ∀ l : List Assoc, ChildernRight (l.map bare) childern ↔ ChildernRight l childern :=
    fun l => childernRight_map (f := bare) (fun _ => rfl) childern
  rw [← hmap recs', h, hmap]

/-! ## What a call needs -/

/-- The records with the pointers asked for. -/
def relinked (recs : List Assoc) : List Assoc :=
  recs.map fun r => { r with parentAssocPtr := wanted recs r }

/-- The parent ids lead from `r` to an end. -/
def Ends (recs : List Assoc) (r : Assoc) : Prop :=
  ∃ n, (climb (relinked recs) n (wanted recs r)).isSome

/-- What a record of the list that a call goes through again needs. The record passed over keeps
its pointer, and is not listed again as a child; one whose parent is in the list is not its own
parent; one whose parent is not in the list has no pointer from before. -/
def OwnOk (cfg : Config) (root : Option Nat) (recs : List Assoc) (r : Assoc) : Prop :=
  if passedOver root recs r then
    r.parentAssocPtr = wanted recs r ∧ (cfg.setupChildern = true → r.parentAssocPtr = none)
  else if r.parentId = 0 then r.parentAssocPtr = none
  else
    match recs.find? (·.id = r.parentId) with
    | some p => p.addr ≠ r.addr
    | none => r.parentAssocPtr = none ∨
        r.parentAssocPtr = some r.addr ∧ cfg.setupChildern = false

instance (cfg : Config) (root : Option Nat) (recs : List Assoc) (r : Assoc) :
    Decidable (OwnOk cfg root recs r) :=
  if hpassed : passedOver root recs r = true then
    decidable_of_iff
      (r.parentAssocPtr = wanted recs r ∧ (cfg.setupChildern = true → r.parentAssocPtr = none))
      (by rw [OwnOk, if_pos hpassed])
  else if hzero : r.parentId = 0 then
    decidable_of_iff (r.parentAssocPtr = none) (by rw [OwnOk, if_neg hpassed, if_pos hzero])
  else
    match hfind : recs.find? (·.id = r.parentId) with
    | some p =>
      decidable_of_iff (p.addr ≠ r.addr) (by rw [OwnOk, if_neg hpassed, if_neg hzero, hfind])
    | none =>
      decidable_of_iff
        (r.parentAssocPtr = none ∨ r.parentAssocPtr = some r.addr ∧ cfg.setupChildern = false)
        (by rw [OwnOk, if_neg hpassed, if_neg hzero, hfind])

/-- What the list that a call goes through again needs. -/
structure ResetOk (cfg : Config) (root : Option Nat) (recs : List Assoc) : Prop where
  own : ∀ r ∈ recs, OwnOk cfg root recs r
  ends : ∀ r ∈ recs, r.user.isSome ∨ cfg.setupChildern = true → Ends recs r

/-- What a call needs, in the state it is made in: where the parents changed, the sorted list
that the objects leave can be gone through again; else what they leave is right as it is. -/
def FamilyOk (cfg : Config) (f : Family) (type : UpdateType) (objects : List AssocObject) :
    Prop :=
  ∀ recs, f.mgr.assocList = some recs →
    let p := applyObjects cfg f.mgr recs type objects
    if p.parentsChanged then ResetOk cfg f.mgr.rootAssoc (listSort p.recs)
    else ParentsRight p.recs ∧ (cfg.setupChildern = true → ChildernRight p.recs f.childern)

section Reset

variable {cfg : Config} {root : Option Nat} {recs : List Assoc}

theorem reset_frame (r : Assoc) :
    (reset cfg recs root recs r).addr = r.addr ∧ (reset cfg recs root recs r).id = r.id ∧
      (reset cfg recs root recs r).parentId = r.parentId ∧
      (reset cfg recs root recs r).user = r.user := by
  rw [reset]
  split
  · exact ⟨rfl, rfl, rfl, rfl⟩
  · exact clearUsed_frame r

theorem clearUsed_ptr (r : Assoc) : (clearUsed r).parentAssocPtr = r.parentAssocPtr := by
  rw [clearUsed]
  split <;> rfl

/-- The pointer after the loop is right exactly for a record that is not its own parent, and
has no pointer from before where it needs none. -/
theorem reset_ptr_iff {r : Assoc} :
    (reset cfg recs root recs r).parentAssocPtr = wanted recs r ↔
      if passedOver root recs r then r.parentAssocPtr = wanted recs r
      else if r.parentId = 0 then r.parentAssocPtr = none
      else
        match recs.find? (·.id = r.parentId) with
        | some p => p.addr ≠ r.addr
        | none => r.parentAssocPtr = none ∨ r.parentAssocPtr = some r.addr := by
  obtain ⟨haddr, -, hparent, -⟩ := clearUsed_frame r
  rw [reset, wanted]
  split
  · exact Iff.rfl
  · simp only [setAssocParentAndUser, haddr, hparent, clearUsed_ptr]
    by_cases hzero : r.parentId = 0
    · rw [if_neg (not_not.mpr hzero), if_pos hzero, if_pos hzero]
    · rw [if_pos hzero, if_neg hzero, if_neg hzero]
      cases recs.find? (·.id = r.parentId) with
      | none =>
        dsimp only [Option.map_none]
        by_cases hself : r.parentAssocPtr = some r.addr
        · rw [if_pos hself]
          exact iff_of_true rfl (Or.inr hself)
        · rw [if_neg hself, or_iff_left hself]
      | some p =>
        dsimp only [Option.map_some]
        by_cases hself : p.addr = r.addr
        · rw [if_pos hself]
          exact iff_of_false (Option.some_ne_none _).symm (not_not.mpr hself)
        · rw [if_neg hself]
          exact iff_of_true rfl hself

/-- What the children need beside the pointers. -/
theorem aimed_iff {r : Assoc} (hr : r ∈ recs)
    (hptr : (reset cfg recs root recs r).parentAssocPtr = wanted recs r) :
    (∀ o ∈ recs, ((!passedOver root recs r && decide (aimed recs r = some o.addr)) = true ↔
        wanted recs r = some o.addr)) ↔
      (passedOver root recs r = true → r.parentAssocPtr = none) ∧
        (passedOver root recs r = false → r.parentId ≠ 0 →
          recs.find? (·.id = r.parentId) = none → r.parentAssocPtr = none) := by
  rw [reset_ptr_iff] at hptr
  have hlisted : ∀ a, wanted recs r = some a → ∃ o ∈ recs, o.addr = a := by
    intro a ha
    rw [wanted] at ha
    split at ha
    · exact absurd ha (Option.some_ne_none _).symm
    · obtain ⟨o, ho, rfl⟩ := Option.map_eq_some_iff.mp ha
      exact ⟨o, List.mem_of_find?_eq_some ho, rfl⟩
  cases hpassed : passedOver root recs r with
  | true =>
    rw [hpassed, if_pos rfl] at hptr
    simp only [Bool.not_true, Bool.false_and, Bool.false_eq_true, false_iff, forall_const,
      Bool.true_eq_false, false_implies, and_true, hptr]
    constructor
    · intro h
      refine Option.eq_none_iff_forall_ne_some.mpr fun a ha => ?_
      obtain ⟨o, ho, rfl⟩ := hlisted a ha
      exact h o ho ha
    · intro h o _ ho
      rw [h] at ho
      exact absurd ho (Option.some_ne_none _).symm
  | false =>
    rw [hpassed, if_neg Bool.false_ne_true] at hptr
    simp only [Bool.not_false, Bool.true_and, decide_eq_true_eq, Bool.false_eq_true,
      false_implies, true_and, forall_const]
    rw [aimed, wanted]
    by_cases hzero : r.parentId = 0
    · rw [if_pos hzero, if_pos hzero]
      exact iff_of_true (fun _ _ => Iff.rfl) fun hne => absurd hzero hne
    · rw [if_neg hzero] at hptr
      rw [if_neg hzero, if_neg hzero]
      cases hfind : recs.find? (·.id = r.parentId) with
      | some p =>
        exact iff_of_true (fun _ _ => Iff.rfl) fun _ h => absurd h (Option.some_ne_none _)
      | none =>
        rw [hfind] at hptr
        simp only [Option.map_none, Option.none_or, reduceCtorEq, iff_false, ne_eq, hzero,
          not_false_eq_true, forall_const]
        constructor
        · intro h
          exact hptr.resolve_right (h r hr)
        · intro h o _ ho
          rw [h] at ho
          exact absurd ho (Option.some_ne_none _).symm

/-- Filtered records with different addresses are listed alike exactly if the filters agree. -/
theorem perm_filter_iff {p q : Assoc → Bool} (haddrs : (recs.map (·.addr)).Nodup) :
    ((recs.filter p).map (·.addr)).Perm ((recs.filter q).map (·.addr)) ↔
      ∀ r ∈ recs, p r = true ↔ q r = true := by
  constructor
  · intro hperm r hr
    have hmem : ∀ g : Assoc → Bool, r.addr ∈ (recs.filter g).map (·.addr) ↔ g r = true := by
      intro g
      constructor
      · intro h
        obtain ⟨s, hs, heq⟩ := List.mem_map.mp h
        obtain ⟨hs, hg⟩ := List.mem_filter.mp hs
        rwa [eq_of_key haddrs hs hr heq] at hg
      · exact fun hg => List.mem_map.mpr ⟨r, List.mem_filter.mpr ⟨hr, hg⟩, rfl⟩
    rw [← hmem p, ← hmem q]
    exact hperm.mem_iff
  · intro h
    rw [List.filter_congr fun r hr => Bool.eq_iff_iff.mpr (h r hr)]

/-- The children of a record after the loop. -/
theorem resetChildern_eq (haddrs : (recs.map (·.addr)).Nodup) (hset : cfg.setupChildern = true)
    (childern : Nat → List Nat) {o : Assoc} (ho : o ∈ recs) :
    resetChildern cfg recs root childern o.addr = appended recs root recs o.addr := by
  obtain ⟨-, -, happended⟩ := @resetFamily_eq cfg recs recs root (flushed recs childern) haddrs
    (remembered_flushed recs childern)
  have hflushed : (flushed recs childern).childern o.addr = [] :=
    if_pos (List.mem_map.mpr ⟨o, ho, rfl⟩)
  rw [resetChildern, happended hset, hflushed, List.nil_append]

/-- Pointers and children after the loop are right exactly if every record has what it needs. -/
theorem own_iff (haddrs : (recs.map (·.addr)).Nodup) (childern : Nat → List Nat) :
    ParentsRight (recs.map (reset cfg recs root recs)) ∧
        (cfg.setupChildern = true → ChildernRight (recs.map (reset cfg recs root recs))
          (resetChildern cfg recs root childern)) ↔
      ∀ r ∈ recs, OwnOk cfg root recs r := by
  have hpointers : ParentsRight (recs.map (reset cfg recs root recs)) ↔
      ∀ r ∈ recs, (reset cfg recs root recs r).parentAssocPtr = wanted recs r :=
    parentsRight_map (fun r => (reset_frame r).2.1) (fun r => (reset_frame r).1)
      fun r => (reset_frame r).2.2.1
  have hchildern : cfg.setupChildern = true →
      (∀ r ∈ recs, (reset cfg recs root recs r).parentAssocPtr = wanted recs r) →
      (ChildernRight (recs.map (reset cfg recs root recs))
          (resetChildern cfg recs root childern) ↔
        ∀ r ∈ recs, ∀ o ∈ recs,
          ((!passedOver root recs r && decide (aimed recs r = some o.addr)) = true ↔
            wanted recs r = some o.addr)) := by
    intro hset hptr
    rw [childernRight_map fun r => (reset_frame r).1]
    constructor
    · intro h r hr o ho
      have hperm := h o ho
      rw [resetChildern_eq haddrs hset childern ho, appended, perm_filter_iff haddrs] at hperm
      have hiff := hperm r hr
      rwa [hptr r hr, decide_eq_true_iff] at hiff
    · intro h o ho
      rw [resetChildern_eq haddrs hset childern ho, appended, perm_filter_iff haddrs]
      intro r hr
      rw [hptr r hr, decide_eq_true_iff]
      exact h r hr o ho
  -- what is asked of a record: its own pointer, and its place among the children
  have hown : ∀ r ∈ recs, OwnOk cfg root recs r ↔
      (reset cfg recs root recs r).parentAssocPtr = wanted recs r ∧
        (cfg.setupChildern = true →
          (passedOver root recs r = true → r.parentAssocPtr = none) ∧
            (passedOver root recs r = false → r.parentId ≠ 0 →
              recs.find? (·.id = r.parentId) = none → r.parentAssocPtr = none)) := by
    intro r hr
    rw [reset_ptr_iff, OwnOk]
    cases passedOver root recs r with
    | true => simp
    | false =>
      by_cases hzero : r.parentId = 0
      · simp [hzero]
      · cases recs.find? (·.id = r.parentId) with
        | some p => simp [hzero]
        | none =>
          cases cfg.setupChildern with
          | false => simp [hzero]
          | true =>
            simp only [hzero, Bool.false_eq_true, Bool.true_eq_false, if_false, and_false,
              or_false, forall_const, false_implies, true_and, ne_eq, not_false_eq_true]
            exact ⟨fun h => ⟨Or.inl h, h⟩, fun h => h.2⟩
  rw [hpointers]
  constructor
  · rintro ⟨hptr, hchild⟩ r hr
    refine (hown r hr).mpr ⟨hptr r hr, fun hset => ?_⟩
    exact (aimed_iff hr (hptr r hr)).mp ((hchildern hset hptr).mp (hchild hset) r hr)
  · intro h
    have hptr := fun r hr => ((hown r hr).mp (h r hr)).1
    refine ⟨hptr, fun hset => (hchildern hset hptr).mpr fun r hr => ?_⟩
    exact (aimed_iff hr (hptr r hr)).mpr (((hown r hr).mp (h r hr)).2 hset)

/-! ### The call -/

/-- Where the pointers are right, the walks along them are the walks along the parent ids. -/
theorem isSome_climb_iff {recs' : List Assoc}
    (hright : ∀ r ∈ recs, (reset cfg recs root recs r).parentAssocPtr = wanted recs r)
    (hrecs' : recs' = recs.map (reset cfg recs root recs)) (kept : List Assoc) {r : Assoc}
    (hr : r ∈ recs) :
    (climb (recs' ++ kept) (recs' ++ kept).length
      (reset cfg recs root recs r).parentAssocPtr).isSome ↔ Ends recs r := by
  have hlisted : ∀ s ∈ recs, ∀ a, wanted recs s = some a → a ∈ recs'.map (·.addr) := by
    intro s _ a ha
    rw [wanted] at ha
    split at ha
    · exact absurd ha (Option.some_ne_none _).symm
    · obtain ⟨o, ho, rfl⟩ := Option.map_eq_some_iff.mp ha
      rw [hrecs', List.map_map]
      exact List.mem_map.mpr ⟨o, List.mem_of_find?_eq_some ho, (reset_frame o).1⟩
  have hclosed : Closed recs' := by
    intro s hs a ha
    rw [hrecs'] at hs
    obtain ⟨t, ht, rfl⟩ := List.mem_map.mp hs
    rw [hright t ht] at ha
    exact hlisted t ht a ha
  have hsame : ∀ n ptr, climb recs' n ptr = climb (relinked recs) n ptr := by
    intro n ptr
    refine climb_congr (fun a => ?_) n ptr
    have haddr : (fun s => decide (s.addr = a)) ∘ reset cfg recs root recs =
        fun s => decide (s.addr = a) := by
      funext s
      rw [Function.comp_apply, (reset_frame s).1]
    rw [hrecs', relinked, List.find?_map, List.find?_map, haddr, Option.map_map, Option.map_map]
    cases hfind : recs.find? (·.addr = a) with
    | none =>
      have hfind' : recs.find? ((fun s => decide (s.addr = a)) ∘ fun r : Assoc =>
          { r with parentAssocPtr := wanted recs r }) = none := hfind
      rw [hfind']
      rfl
    | some s =>
      have hfind' : recs.find? ((fun s => decide (s.addr = a)) ∘ fun r : Assoc =>
          { r with parentAssocPtr := wanted recs r }) = some s := hfind
      rw [hfind']
      exact congrArg some (hright s (List.mem_of_find?_eq_some hfind))
  rw [climb_append hclosed _ (by rw [hright r hr]; exact hlisted r hr), hright r hr]
  constructor
  · intro h
    rw [hsame] at h
    exact ⟨_, h⟩
  · rintro ⟨n, hn⟩
    rw [← hsame] at hn
    refine climb_fuel ?_ hn
    rw [List.length_append]
    exact Nat.le_add_right _ _

theorem sharesWalk_bare {recs' : List Assoc} (h : recs'.map bare = recs.map bare)
    (kept : List Assoc) : sharesWalk cfg recs' kept = sharesWalk cfg recs kept := by
  have hlen : recs'.length = recs.length := by
    have := congrArg List.length h
    rwa [List.length_map, List.length_map] at this
  have hall : ∀ l : List Assoc,
      (l.all fun r => (climb (recs ++ kept) (recs ++ kept).length r.parentAssocPtr).isSome) =
        (l.map bare).all fun r =>
          (climb (recs ++ kept) (recs ++ kept).length r.parentAssocPtr).isSome := by
    intro l
    rw [List.all_map]
    rfl
  rw [sharesWalk, sharesWalk, List.length_append, hlen, ← List.length_append]
  simp only [climb_bare h]
  rw [hall recs', hall recs, h]

/-- The list after the loop that sets the parents. -/
def resetList (cfg : Config) (root : Option Nat) (recs : List Assoc) : List Assoc :=
  recs.map (reset cfg recs root recs)

theorem resetList_addrs : (resetList cfg root recs).map (·.addr) = recs.map (·.addr) := by
  have hcomp : (·.addr) ∘ reset cfg recs root recs = (·.addr) :=
    funext fun r => (reset_frame r).1
  rw [resetList, List.map_map, hcomp]

/-- The walks of a call end: those of the users, and with the children those of all. -/
def WalksEnd (cfg : Config) (recs kept : List Assoc) : Prop :=
  ∀ r ∈ recs, r.user.isSome ∨ cfg.setupChildern = true →
    (climb (recs ++ kept) (recs ++ kept).length r.parentAssocPtr).isSome

theorem walksEnd_iff (haddrs : (recs.map (·.addr)).Nodup) (kept : List Assoc) :
    WalksEnd cfg recs kept ↔
      ((recs.filter (·.user.isSome)).map (·.addr)).all (walks recs kept) = true ∧
        sharesWalk cfg recs kept = true := by
  have hwalks : ∀ r ∈ recs, walks recs kept r.addr =
      (climb (recs ++ kept) (recs ++ kept).length r.parentAssocPtr).isSome := by
    intro r hr
    rw [walks, find_of_key haddrs hr, Option.bind_some]
  rw [sharesWalk, Bool.or_eq_true, Bool.not_eq_true', List.all_eq_true, List.all_eq_true,
    List.forall_mem_map]
  constructor
  · intro h
    refine ⟨fun r hr => ?_, ?_⟩
    · obtain ⟨hr, huser⟩ := List.mem_filter.mp hr
      rw [hwalks r hr]
      exact h r hr (Or.inl huser)
    · cases hset : cfg.setupChildern with
      | false => exact Or.inl rfl
      | true => exact Or.inr fun r hr => h r hr (Or.inr hset)
  · rintro ⟨husers, hshares⟩ r hr (huser | hset)
    · rw [← hwalks r hr]
      exact husers r (List.mem_filter.mpr ⟨hr, huser⟩)
    · obtain hfalse | hall := hshares
      · exact absurd (hset.symm.trans hfalse) Bool.noConfusion
      · exact hall r hr

/-- The second part of a call is defined exactly if its walks end, and changes usage only. -/
theorem recalculate_iff (haddrs : ((listSort recs).map (·.addr)).Nodup) (kept : List Assoc) :
    ((recalculate cfg recs kept root).isSome ↔
        WalksEnd cfg (resetList cfg root (listSort recs)) kept) ∧
      ∀ recs' root', recalculate cfg recs kept root = some (recs', root') →
        recs'.map bare = (resetList cfg root (listSort recs)).map bare := by
  have hreset := @resetParents_map cfg (listSort recs) (listSort recs) root haddrs
  have haddrs' : ((resetList cfg root (listSort recs)).map (·.addr)).Nodup := by
    rw [resetList_addrs]
    exact haddrs
  rw [walksEnd_iff haddrs']
  rw [← resetList] at hreset
  generalize resetList cfg root (listSort recs) = l at hreset haddrs'
  have heq : recalculate cfg recs kept root =
      (((l.filter (·.user.isSome)).map (·.addr)).foldlM (addToParents kept) l).bind fun recs' =>
        if sharesWalk cfg recs' kept then
          some (recs', (resetParents cfg (listSort recs) (listSort recs) root).2)
        else none := by
    rw [← hreset]
    rfl
  obtain ⟨hsome, hbare⟩ :=
    isSome_foldlM_addToParents kept ((l.filter (·.user.isSome)).map (·.addr)) l
  rw [heq, ← hsome]
  cases hfold : ((l.filter (·.user.isSome)).map (·.addr)).foldlM (addToParents kept) l with
  | none =>
    refine ⟨iff_of_false Bool.false_ne_true fun h => Bool.false_ne_true h.1, fun _ _ h => ?_⟩
    exact absurd h (Option.some_ne_none _).symm
  | some recs' =>
    have hsame := hbare recs' hfold
    rw [Option.bind_some, sharesWalk_bare hsame]
    cases sharesWalk cfg l kept with
    | false =>
      refine ⟨iff_of_false Bool.false_ne_true fun h => Bool.false_ne_true h.2, fun _ _ h => ?_⟩
      exact absurd h (Option.some_ne_none _).symm
    | true =>
      refine ⟨iff_of_true rfl ⟨rfl, rfl⟩, fun recs₁ root₁ h => ?_⟩
      obtain ⟨rfl, -⟩ := Prod.mk.inj (Option.some.inj h)
      exact hsame

end Reset

/-- What the objects of an update leave lies at different addresses. -/
theorem Allocated.applied {m : Mgr} (h : Allocated m) {recs : List Assoc}
    (hrecs : m.assocList = some recs) (cfg : Config) (type : UpdateType)
    (objects : List AssocObject) :
    Applied recs m.nextAddr (applyObjects cfg m recs type objects) := by
  have hstart : Applied recs m.nextAddr
      { recs, kept := [], nextAddr := m.nextAddr, parentsChanged := false } :=
    ⟨h.addrs recs hrecs, h.fresh recs hrecs, Nat.le_refl _,
      fun r hr _ => ⟨r, hr, rfl, rfl, rfl⟩, fun _ => List.Sublist.refl _⟩
  exact foldl_load (n := 0) (fun _ p => Applied recs m.nextAddr p) (fun _ => 0)
    (fun _ _ o _ hp => hp.object cfg type o) hstart

/-- The parent pointers and the children are right after a call exactly if it has what it
needs. -/
theorem updateFamily_iff (cfg : Config) (f : Family) (hf : Allocated f.mgr) (type : UpdateType)
    (objects : List AssocObject) :
    (∃ f', updateFamily cfg f type objects = some f' ∧ f'.Right cfg) ↔
      FamilyOk cfg f type objects := by
  cases hlist : f.mgr.assocList with
  | none =>
    have hright : f.Right cfg := fun recs h => absurd (h.symm.trans hlist) (Option.some_ne_none _)
    refine iff_of_true ⟨f, ?_, hright⟩ fun recs h => ?_
    · rw [updateFamily, assocMgrUpdateAssocs, hlist]
      rfl
    · exact absurd (h.symm.trans hlist) (Option.some_ne_none _)
  | some recs =>
    have happlied := hf.applied hlist cfg type objects
    have hok : FamilyOk cfg f type objects ↔
        let p := applyObjects cfg f.mgr recs type objects
        if p.parentsChanged then ResetOk cfg f.mgr.rootAssoc (listSort p.recs)
        else ParentsRight p.recs ∧
          (cfg.setupChildern = true → ChildernRight p.recs f.childern) := by
      constructor
      · exact fun h => h recs hlist
      · intro h recs' hrecs'
        obtain rfl := Option.some.inj (hlist.symm.trans hrecs')
        exact h
    rw [hok, updateFamily, assocMgrUpdateAssocs, hlist]
    dsimp only
    generalize applyObjects cfg f.mgr recs type objects = p at happlied
    cases hchanged : p.parentsChanged with
    | false =>
      rw [if_neg Bool.false_ne_true, if_neg Bool.false_ne_true, Option.map_some]
      constructor
      · rintro ⟨f', hf', hright⟩
        obtain rfl := Option.some.inj hf'
        exact hright p.recs rfl
      · intro h
        refine ⟨_, rfl, fun recs' heq => ?_⟩
        obtain rfl := Option.some.inj heq
        exact h
    | true =>
      have haddrs : ((listSort p.recs).map (·.addr)).Nodup :=
        ((listSort_perm p.recs).map _).nodup_iff.mpr happlied.addrs
      obtain ⟨hsome, hbare⟩ := @recalculate_iff cfg f.mgr.rootAssoc p.recs haddrs p.kept
      have hown := @own_iff cfg f.mgr.rootAssoc (listSort p.recs) haddrs f.childern
      rw [if_pos rfl, if_pos rfl]
      -- the reset is right exactly where it is for each record by itself
      have hright : ∀ recs', recs'.map bare =
          (resetList cfg f.mgr.rootAssoc (listSort p.recs)).map bare →
          (ParentsRight recs' ∧ (cfg.setupChildern = true → ChildernRight recs'
              (if (true && cfg.setupChildern) = true then
                resetChildern cfg (listSort p.recs) f.mgr.rootAssoc f.childern
              else f.childern)) ↔
            ∀ r ∈ listSort p.recs, OwnOk cfg f.mgr.rootAssoc (listSort p.recs) r) := by
        intro recs' hsame
        rw [parentsRight_bare hsame, childernRight_bare hsame, ← hown, resetList]
        refine and_congr_right fun _ => ?_
        cases cfg.setupChildern with
        | false => exact iff_of_true (fun h => Bool.noConfusion h) fun h => Bool.noConfusion h
        | true => exact Iff.rfl
      -- and then the walks of the shares end exactly where those before it do
      have hends : (∀ r ∈ listSort p.recs, OwnOk cfg f.mgr.rootAssoc (listSort p.recs) r) →
          (WalksEnd cfg (resetList cfg f.mgr.rootAssoc (listSort p.recs)) p.kept ↔
            ∀ r ∈ listSort p.recs, r.user.isSome ∨ cfg.setupChildern = true →
              Ends (listSort p.recs) r) := by
        intro h
        have hptr := (parentsRight_map (fun r => (reset_frame r).2.1)
          (fun r => (reset_frame r).1) fun r => (reset_frame r).2.2.1).mp (hown.mpr h).1
        rw [WalksEnd, resetList, List.forall_mem_map]
        refine forall₂_congr fun r hr => ?_
        rw [(reset_frame r).2.2.2, isSome_climb_iff hptr rfl p.kept hr]
      constructor
      · rintro ⟨f', hf', hf'right⟩
        obtain ⟨m', hm', rfl⟩ := Option.map_eq_some_iff.mp hf'
        obtain ⟨⟨recs', root'⟩, hcalc, rfl⟩ := Option.map_eq_some_iff.mp hm'
        have hall := (hright recs' (hbare recs' root' hcalc)).mp (hf'right recs' rfl)
        exact ⟨hall, (hends hall).mp (hsome.mp (by rw [hcalc]; rfl))⟩
      · rintro ⟨hall, hwalks⟩
        obtain ⟨⟨recs', root'⟩, hcalc⟩ :=
          Option.isSome_iff_exists.mp (hsome.mpr ((hends hall).mpr hwalks))
        rw [hcalc]
        refine ⟨_, rfl, fun recs'' heq => ?_⟩
        obtain rfl := Option.some.inj heq
        exact (hright recs' (hbare recs' root' hcalc)).mpr hall

/-! ### Runs -/

/-- A call leaves the records at different addresses. -/
theorem Allocated.update {cfg : Config} {f f' : Family} (h : Allocated f.mgr)
    {type : UpdateType} {objects : List AssocObject}
    (hf' : updateFamily cfg f type objects = some f') : Allocated f'.mgr := by
  obtain ⟨m, hm, rfl⟩ := Option.map_eq_some_iff.mp hf'
  rw [assocMgrUpdateAssocs] at hm
  cases hlist : f.mgr.assocList with
  | none =>
    rw [hlist] at hm
    obtain rfl := Option.some.inj hm
    exact h
  | some recs =>
    have happlied := h.applied hlist cfg type objects
    rw [hlist] at hm
    dsimp only at hm
    generalize applyObjects cfg f.mgr recs type objects = p at happlied hm
    have hmade : ∀ recs' : List Assoc, (recs'.map (·.addr)).Perm (p.recs.map (·.addr)) →
        ∀ root, Allocated ⟨some recs', root, p.nextAddr⟩ := by
      intro recs' hperm root
      constructor
      · intro l hl
        obtain rfl := Option.some.inj hl
        exact hperm.nodup_iff.mpr happlied.addrs
      · intro l hl r hr
        obtain rfl := Option.some.inj hl
        obtain ⟨s, hs, heq⟩ := List.mem_map.mp (hperm.mem_iff.mp (List.mem_map_of_mem hr))
        rw [← heq]
        exact happlied.fresh s hs
    split at hm
    · obtain ⟨⟨recs', root'⟩, hcalc, rfl⟩ := Option.map_eq_some_iff.mp hm
      have haddrs : ((listSort p.recs).map (·.addr)).Nodup :=
        ((listSort_perm p.recs).map _).nodup_iff.mpr happlied.addrs
      have hbare := (recalculate_iff haddrs p.kept).2 recs' root' hcalc
      refine hmade recs' ?_ root'
      have haddr := congrArg (List.map (·.addr)) hbare
      rw [List.map_map, List.map_map] at haddr
      have hsame : recs'.map (·.addr) = (resetList cfg f.mgr.rootAssoc
        (listSort p.recs)).map (·.addr) := haddr
      rw [hsame, resetList_addrs]
      exact (listSort_perm p.recs).map _
    · obtain rfl := Option.some.inj hm
      exact hmade p.recs (List.Perm.refl _) f.mgr.rootAssoc

/-- A call of a run. -/
def familyStep (cfg : Config) (f : Family) (call : UpdateType × List AssocObject) :
    Option Family := updateFamily cfg f call.1 call.2

/-- Parent pointers and children are right after every call of a run, from any list, exactly if
each call has what it needs in the state it is made in. -/
theorem run_right (cfg : Config) (f : Family) (hf : Allocated f.mgr)
    (calls : List (UpdateType × List AssocObject)) :
    HoldsAfter (familyStep cfg) (Family.Right cfg) f calls ↔
      Guarded (familyStep cfg) (fun f call => FamilyOk cfg f call.1 call.2) f calls :=
  holdsAfter_iff_guarded (fun _ _ _ hg hg' => hg.update hg')
    (fun g call hg => updateFamily_iff cfg g hg call.1 call.2) calls f hf

/-- The root, an account and its user, with the children that their pointers make. -/
def smallFamily : Family where
  mgr := smallMgr
  childern a := if a = 0 then [1] else if a = 1 then [2] else []

theorem smallFamily_allocated : Allocated smallFamily.mgr := by
  constructor <;>
  · intro recs hrecs
    obtain rfl := Option.some.inj hrecs
    decide +kernel

/-- A second user of the account, with the children kept. -/
theorem run_right_added :
    HoldsAfter (familyStep { plainConfig with setupChildern := true })
      (Family.Right { plainConfig with setupChildern := true }) smallFamily
      [(.add, [plainObject 4 2 (some "v")])] := by
  refine (run_right _ smallFamily smallFamily_allocated _).mpr ⟨fun recs hrecs => ?_,
    fun _ _ => trivial⟩
  obtain rfl := Option.some.inj hrecs
  refine (if_pos (by decide +kernel)).mpr ⟨by decide +kernel, fun r hr _ => ⟨4, ?_⟩⟩
  revert r
  decide +kernel

/-- The account is removed, and its user goes on pointing to it. -/
theorem not_run_right_removed :
    smallFamily.Right plainConfig ∧
      ¬HoldsAfter (familyStep plainConfig) (Family.Right plainConfig) smallFamily
        [(.remove, [plainObject 2 0 none])] := by
  constructor
  · intro recs hrecs
    obtain rfl := Option.some.inj hrecs
    exact ⟨by decide +kernel, fun h => Bool.noConfusion h⟩
  · rintro ⟨f', hf', hright, -⟩
    have hbad : ((familyStep plainConfig smallFamily (.remove, [plainObject 2 0 none])).bind
        (·.mgr.assocList)).any (fun recs => ¬ParentsRight recs) = true := by decide +kernel
    rw [hf', Option.bind_some, Option.any_eq_true] at hbad
    obtain ⟨recs, hrecs, hnot⟩ := hbad
    exact of_decide_eq_true hnot (hright recs hrecs).1

end Slurm.AssocMgr
