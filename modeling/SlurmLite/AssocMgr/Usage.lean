import SlurmLite.Base.Run
import SlurmLite.Base.Sums
import SlurmLite.AssocMgr.Tree

/-!
# Usage in the tree of associations

The usage of an association that is not a user against the users below it.

* **Sums** (`Sums`): the property of the list.
* **Adding** (`bump`, `addUsers_eq`, `addCurrents_eq`): what the loops along the parents add.
* **Calls** (`refresh_keeps`, `update_keeps`): when a call keeps the property.
* **Runs** (`run_sums`): any sequence of such calls.
-/

namespace Slurm.AssocMgr

open Base.Run Base.Sums

/-! ## Sums -/

instance : AddCommMonoid Used where
  add_assoc a b c := by
    refine Used.ext ?_ ?_ ?_ ?_ ?_ ?_
    all_goals exact add_assoc _ _ _
  zero_add a := by
    refine Used.ext ?_ ?_ ?_ ?_ ?_ ?_
    all_goals exact zero_add _
  add_zero a := by
    refine Used.ext ?_ ?_ ?_ ?_ ?_ ?_
    all_goals exact add_zero _
  add_comm a b := by
    refine Used.ext ?_ ?_ ?_ ?_ ?_ ?_
    all_goals exact add_comm _ _
  nsmul := nsmulRec

/-- The fields that are kept as sums. -/
def Used.counted (u : Used) : UInt32 × UInt32 × UInt32 × ℚ :=
  (u.usedJobs, u.usedSubmitJobs, u.grpUsedCpus, u.usageRaw)

theorem counted_add (a b : Used) : (a + b).counted = a.counted + b.counted := rfl

theorem counted_zero : (0 : Used).counted = 0 := rfl

theorem counted_sum (us : List Used) : us.sum.counted = (us.map (·.counted)).sum := by
  induction us with
  | nil => rfl
  | cons u us ih => rw [List.sum_cons, counted_add, ih, List.map_cons, List.sum_cons]

/-- Each association that is not a user holds the sum of the users below it. -/
def Sums (recs : List Assoc) : Prop :=
  ∀ a ∈ recs, a.user = none →
    a.used.counted =
      ((recs.filter fun u => u.user.isSome && below recs u a).map (·.used.counted)).sum

instance (recs : List Assoc) : Decidable (Sums recs) :=
  inferInstanceAs (Decidable (∀ a ∈ recs, a.user = none → _ = _))

/-! ## Adding -/

/-- Adds `g` of its address to the usage of each record. -/
def bump (g : Nat → Used) (recs : List Assoc) : List Assoc :=
  recs.map fun r => { r with used := r.used + g r.addr }

theorem bump_congr {g g' : Nat → Used} {recs : List Assoc} (h : ∀ a, g a = g' a) :
    bump g recs = bump g' recs := by
  rw [funext h]

theorem bump_zero (recs : List Assoc) : bump (fun _ => 0) recs = recs := by
  rw [bump, List.map_congr_left (g := id) fun r _ => ?_, List.map_id]
  rw [add_zero]
  rfl

theorem bump_bump (g h : Nat → Used) (recs : List Assoc) :
    bump h (bump g recs) = bump (fun a => g a + h a) recs := by
  rw [bump, bump, List.map_map]
  refine List.map_congr_left fun r _ => ?_
  simp only [Function.comp_apply, add_assoc]

theorem addtoUsedInfo_eq (u : Used) (recs : List Assoc) (a : Nat) :
    addtoUsedInfo u recs a = bump (fun b => if b = a then u else 0) recs := by
  refine List.map_congr_left fun r _ => ?_
  dsimp only
  split
  · rfl
  · rw [add_zero]

theorem foldl_addto (u : Used) {line : List Nat} (hline : line.Nodup) (recs : List Assoc) :
    line.foldl (addtoUsedInfo u) recs = bump (fun b => if b ∈ line then u else 0) recs := by
  induction line generalizing recs with
  | nil => exact (bump_zero recs).symm
  | cons a line ih =>
    obtain ⟨hnot, hline⟩ := List.nodup_cons.mp hline
    rw [List.foldl_cons, ih hline, addtoUsedInfo_eq, bump_bump]
    refine bump_congr fun b => ?_
    by_cases hb : b = a
    · subst hb
      rw [if_pos rfl, if_neg hnot, if_pos List.mem_cons_self, add_zero]
    · rw [if_neg hb, zero_add]
      exact if_congr (by rw [List.mem_cons, or_iff_right hb]) rfl rfl

theorem climb_bump (g : Nat → Used) (recs kept : List Assoc) (n : Nat) (ptr : Option Nat) :
    climb (bump g recs ++ kept) n ptr = climb (recs ++ kept) n ptr :=
  climb_map_append (f := fun r => { r with used := r.used + g r.addr }) (fun _ => rfl)
    (fun _ => rfl) recs kept n ptr

theorem length_bump (g : Nat → Used) (recs : List Assoc) : (bump g recs).length = recs.length :=
  List.length_map _

/-- What a list of sources, each with its line, gives to the record at `a`. -/
def gained {β : Type} (sources : List β) (line : β → List Nat) (given : β → Used) (a : Nat) :
    Used :=
  (sources.map fun s => if a ∈ line s then given s else 0).sum

theorem find_addr_bump {g : Nat → Used} {recs : List Assoc} (haddrs : (recs.map (·.addr)).Nodup)
    {u : Assoc} (hu : u ∈ recs) :
    (bump g recs).find? (·.addr = u.addr) = some { u with used := u.used + g u.addr } := by
  have hsame : (fun r : Assoc => decide (r.addr = u.addr)) ∘
      (fun r : Assoc => { r with used := r.used + g r.addr }) = fun r => decide (r.addr = u.addr) :=
    rfl
  rw [bump, List.find?_map, hsame, find_of_key haddrs hu]
  rfl

/-- The loop over the users of the list: each gives what it has to the records on its line,
on which no user is. -/
theorem addUsers_eq {recs : List Assoc} (kept : List Assoc) (haddrs : (recs.map (·.addr)).Nodup)
    {line : Assoc → List Nat} (users : List Assoc) (hmem : ∀ u ∈ users, u ∈ recs)
    (hline : ∀ u ∈ users, climb (recs ++ kept) (recs ++ kept).length u.parentAssocPtr =
      some (line u))
    (hnodup : ∀ u ∈ users, (line u).Nodup)
    (hclear : ∀ u ∈ users, ∀ v ∈ users, u.addr ∉ line v) {g : Nat → Used}
    (hg : ∀ u ∈ users, g u.addr = 0) :
    (users.map (·.addr)).foldlM (addToParents kept) (bump g recs) =
      some (bump (fun a => g a + gained users line (·.used) a) recs) := by
  induction users generalizing g with
  | nil =>
    refine congrArg some (bump_congr fun a => ?_)
    exact (add_zero _).symm
  | cons u users ih =>
    have hu : u ∈ u :: users := List.mem_cons_self
    have hrest : ∀ v ∈ users, v ∈ u :: users := fun v => List.mem_cons_of_mem u
    have hstep : addToParents kept (bump g recs) u.addr =
        some (bump (fun a => g a + if a ∈ line u then u.used else 0) recs) := by
      rw [addToParents, find_addr_bump haddrs (hmem u hu)]
      simp only [Option.bind_eq_bind, Option.bind_some, List.length_append, length_bump]
      rw [climb_bump, ← List.length_append, hline u hu, Option.bind_some, hg u hu, add_zero,
        foldl_addto _ (hnodup u hu), bump_bump]
      rfl
    rw [List.map_cons, List.foldlM_cons, hstep, Option.bind_eq_bind, Option.bind_some,
      ih (fun v hv => hmem v (hrest v hv)) (fun v hv => hline v (hrest v hv))
        (fun v hv => hnodup v (hrest v hv))
        (fun v hv w hw => hclear v (hrest v hv) w (hrest w hw))
        (fun v hv => by rw [hg v (hrest v hv), if_neg (hclear v (hrest v hv) u hu), add_zero])]
    refine congrArg some (bump_congr fun a => ?_)
    rw [gained, gained, List.map_cons, List.sum_cons, add_assoc]

theorem find_id_bump (g : Nat → Used) (recs : List Assoc) (id : UInt32) :
    (bump g recs).find? (·.id = id) =
      (recs.find? (·.id = id)).map fun r => { r with used := r.used + g r.addr } := by
  rw [bump, List.find?_map]
  rfl

/-- The loop over the users of the old list: each gives what it had to the record with its
id and to those above it. -/
theorem addCurrents_eq {recs : List Assoc} {line : Assoc → List Nat} (old : List Assoc)
    (hline : ∀ c ∈ old, match recs.find? (·.id = c.id) with
      | none => line c = []
      | some r => climb recs recs.length (some r.addr) = some (line c))
    (hnodup : ∀ c ∈ old, (line c).Nodup) (g : Nat → Used) :
    old.foldlM addCurrent (bump g recs) =
      some (bump (fun a => g a + gained old line (·.used) a) recs) := by
  induction old generalizing g with
  | nil =>
    refine congrArg some (bump_congr fun a => ?_)
    exact (add_zero _).symm
  | cons c old ih =>
    have hc : c ∈ c :: old := List.mem_cons_self
    have hrest : ∀ d ∈ old, d ∈ c :: old := fun d => List.mem_cons_of_mem c
    have hstep : addCurrent (bump g recs) c =
        some (bump (fun a => g a + if a ∈ line c then c.used else 0) recs) := by
      have hfound := hline c hc
      rw [addCurrent, find_id_bump]
      cases hfind : recs.find? (·.id = c.id) with
      | none =>
        rw [hfind] at hfound
        refine congrArg some (bump_congr fun a => ?_)
        rw [hfound, if_neg List.not_mem_nil, add_zero]
      | some r =>
        rw [hfind] at hfound
        have hclimb := climb_bump g recs [] recs.length (some r.addr)
        rw [List.append_nil, List.append_nil, hfound] at hclimb
        rw [Option.map_some, length_bump]
        show (climb (bump g recs) recs.length (some r.addr)).map _ = _
        rw [hclimb, Option.map_some, foldl_addto _ (hnodup c hc), bump_bump]
    rw [List.foldlM_cons, hstep, Option.bind_eq_bind, Option.bind_some,
      ih (fun d hd => hline d (hrest d hd)) (fun d hd => hnodup d (hrest d hd))]
    refine congrArg some (bump_congr fun a => ?_)
    rw [gained, gained, List.map_cons, List.sum_cons, add_assoc]

theorem gained_counted {β : Type} (sources : List β) (line : β → List Nat) (given : β → Used)
    (a : Nat) :
    (gained sources line given a).counted =
      ((sources.filter fun s => a ∈ line s).map fun s => (given s).counted).sum := by
  rw [gained, counted_sum, List.map_map, ← sum_map_ite]
  refine congrArg List.sum (List.map_congr_left fun s _ => ?_)
  rw [Function.comp_apply, apply_ite Used.counted, counted_zero]
  exact if_congr (by rw [decide_eq_true_eq]) rfl rfl

/-! ## The tree that a call leaves -/

/-- Ids are different, every parent id leads up to a root, and no user has children. -/
structure IsTree (recs : List Assoc) : Prop where
  ids : (recs.map (·.id)).Nodup
  rooted : ∀ r ∈ recs, ∃ l, Line recs r l
  accounts : ∀ r ∈ recs, ∀ p ∈ recs, r.parentId ≠ 0 → p.id = r.parentId → p.user = none

theorem isTree_iff (recs : List Assoc) :
    IsTree recs ↔ (recs.map (·.id)).Nodup ∧ (∀ r ∈ recs, leadsUp recs recs.length r = true) ∧
      ∀ r ∈ recs, ∀ p ∈ recs, r.parentId ≠ 0 → p.id = r.parentId → p.user = none := by
  constructor
  · intro h
    refine ⟨h.ids, fun r hr => ?_, h.accounts⟩
    obtain ⟨l, hl⟩ := h.rooted r hr
    exact hl.leadsUp h.ids (hl.length_le h.ids)
  · exact fun ⟨hids, hup, haccounts⟩ =>
      ⟨hids, fun r hr => exists_line_of_leadsUp (hup r hr), haccounts⟩

instance (recs : List Assoc) : Decidable (IsTree recs) :=
  decidable_of_iff' _ (isTree_iff recs)

/-- A tree of records with pointers to their parents, in which `root` is the root. -/
structure Kept (recs : List Assoc) (root : Option Nat) (nextAddr : Nat) : Prop where
  tree : IsTree recs
  linked : Linked recs
  addrs : (recs.map (·.addr)).Nodup
  fresh : ∀ r ∈ recs, r.addr < nextAddr
  isRoot : ∀ r ∈ recs, r.parentId = 0 ↔ root = some r.addr

/-- The records above `r`. -/
def lineOf (recs : List Assoc) (r : Assoc) : List Assoc := ancestors recs recs.length r

theorem IsTree.line {recs : List Assoc} (ht : IsTree recs) {r : Assoc} (hr : r ∈ recs) :
    Line recs r (lineOf recs r) := by
  obtain ⟨l, hl⟩ := ht.rooted r hr
  rwa [lineOf, hl.ancestors ht.ids (hl.length_le ht.ids)]

theorem IsTree.below_iff {recs : List Assoc} (ht : IsTree recs) {r a : Assoc} (hr : r ∈ recs)
    (ha : a ∈ recs) : below recs r a = true ↔ a ∈ lineOf recs r :=
  AssocMgr.below_iff ht.ids (ht.line hr) ha

/-- Everything on a line is an account. -/
theorem IsTree.user_of_line {recs : List Assoc} (ht : IsTree recs) {r : Assoc} {l : List Assoc}
    (hr : r ∈ recs) (hl : Line recs r l) : ∀ p ∈ l, p.user = none := by
  induction hl with
  | root _ => exact fun p hp => absurd hp List.not_mem_nil
  | up hmem hne hid _ ih =>
    intro p hp
    obtain rfl | hp := List.mem_cons.mp hp
    · exact ht.accounts _ hr _ hmem hne hid
    · exact ih hmem p hp

theorem IsTree.map {f : Assoc → Assoc} (hid : ∀ r, (f r).id = r.id)
    (hparent : ∀ r, (f r).parentId = r.parentId) (huser : ∀ r, (f r).user = r.user)
    {recs : List Assoc} (ht : IsTree recs) : IsTree (recs.map f) where
  ids := by
    have hsame : ((·.id) ∘ f : Assoc → UInt32) = (·.id) := funext hid
    rw [List.map_map, hsame]
    exact ht.ids
  rooted := by
    intro r' hr'
    obtain ⟨r, hr, rfl⟩ := List.mem_map.mp hr'
    obtain ⟨l, hl⟩ := ht.rooted r hr
    exact ⟨_, hl.map hid hparent⟩
  accounts := by
    intro r' hr' p' hp' hne heq
    obtain ⟨r, hr, rfl⟩ := List.mem_map.mp hr'
    obtain ⟨p, hp, rfl⟩ := List.mem_map.mp hp'
    rw [hparent] at hne
    rw [hid, hparent] at heq
    rw [huser]
    exact ht.accounts r hr p hp hne heq

/-- The walk of the code from the parent of a record passes its line. -/
theorem climb_lineOf {recs kept : List Assoc} (ht : IsTree recs) (hl : Linked recs)
    (haddrs : (recs.map (·.addr)).Nodup) {r : Assoc} (hr : r ∈ recs) :
    climb (recs ++ kept) (recs ++ kept).length r.parentAssocPtr =
      some ((lineOf recs r).map (·.addr)) := by
  refine climb_of_line haddrs hl hr (ht.line hr) ?_
  rw [List.length_append]
  exact Nat.le_add_right_of_le ((ht.line hr).length_le ht.ids)

theorem nodup_lineOf {recs : List Assoc} (ht : IsTree recs) (haddrs : (recs.map (·.addr)).Nodup)
    {r : Assoc} (hr : r ∈ recs) : ((lineOf recs r).map (·.addr)).Nodup := by
  refine (List.nodup_map_iff_inj_on ((ht.line hr).nodup ht.ids)).mpr fun p hp q hq heq => ?_
  exact eq_of_key haddrs ((ht.line hr).subset p hp) ((ht.line hr).subset q hq) heq

theorem mem_lineOf_addr {recs : List Assoc} (ht : IsTree recs)
    (haddrs : (recs.map (·.addr)).Nodup) {u a : Assoc} (hu : u ∈ recs) (ha : a ∈ recs) :
    a.addr ∈ (lineOf recs u).map (·.addr) ↔ a ∈ lineOf recs u := by
  constructor
  · intro hmem
    obtain ⟨p, hp, heq⟩ := List.mem_map.mp hmem
    rwa [← eq_of_key haddrs ((ht.line hu).subset p hp) ha heq]
  · exact fun hmem => List.mem_map.mpr ⟨a, hmem, rfl⟩

/-- No user is on a line. -/
theorem not_mem_lineOf {recs : List Assoc} (ht : IsTree recs)
    (haddrs : (recs.map (·.addr)).Nodup) {u v : Assoc} (hu : u ∈ recs) (hv : v ∈ recs)
    (huser : v.user.isSome) : v.addr ∉ (lineOf recs u).map (·.addr) := by
  rw [mem_lineOf_addr ht haddrs hu hv]
  intro hmem
  rw [ht.user_of_line hu (ht.line hu) v hmem] at huser
  exact absurd huser (by decide)

/-- Adding to usage leaves the tree as it is. -/
theorem IsTree.bump {recs : List Assoc} (ht : IsTree recs) (g : Nat → Used) :
    IsTree (AssocMgr.bump g recs) :=
  IsTree.map (f := fun r => { r with used := r.used + g r.addr }) (fun _ => rfl) (fun _ => rfl)
    (fun _ => rfl) ht

theorem lineOf_bump {recs : List Assoc} (ht : IsTree recs) (g : Nat → Used) {r : Assoc}
    (hr : r ∈ recs) :
    lineOf (bump g recs) { r with used := r.used + g r.addr } = bump g (lineOf recs r) := by
  have hmap : Line (bump g recs) { r with used := r.used + g r.addr } (bump g (lineOf recs r)) :=
    Line.map (f := fun r => { r with used := r.used + g r.addr }) (fun _ => rfl) (fun _ => rfl)
      (ht.line hr)
  exact ((ht.bump g).line (List.mem_map_of_mem hr)).unique (ht.bump g).ids hmap

theorem below_bump {recs : List Assoc} (ht : IsTree recs) (haddrs : (recs.map (·.addr)).Nodup)
    (g : Nat → Used) {u a : Assoc} (hu : u ∈ recs) (ha : a ∈ recs) :
    below (bump g recs) { u with used := u.used + g u.addr } { a with used := a.used + g a.addr } =
      below recs u a := by
  rw [Bool.eq_iff_iff, (ht.bump g).below_iff (List.mem_map_of_mem hu) (List.mem_map_of_mem ha),
    ht.below_iff hu ha, lineOf_bump ht g hu]
  constructor
  · intro hmem
    obtain ⟨p, hp, heq⟩ := List.mem_map.mp hmem
    have haddr : p.addr = a.addr := congrArg (·.addr) heq
    rwa [← eq_of_key haddrs ((ht.line hu).subset p hp) ha haddr]
  · exact fun hmem => List.mem_map.mpr ⟨a, hmem, rfl⟩

/-- The sum over the users below `a`, after each record of a tree was changed by `g`, when the
users were not. -/
theorem sum_bump {recs : List Assoc} (ht : IsTree recs) (haddrs : (recs.map (·.addr)).Nodup)
    (g : Nat → Used) {a : Assoc} (ha : a ∈ recs) :
    (((bump g recs).filter fun u => u.user.isSome &&
        below (bump g recs) u { a with used := a.used + g a.addr }).map (·.used.counted)).sum =
      ((recs.filter fun u => u.user.isSome && below recs u a).map
        fun u => (u.used + g u.addr).counted).sum := by
  rw [bump, List.filter_map, List.map_map]
  refine congrArg List.sum ?_
  have hfilter : recs.filter ((fun u => u.user.isSome &&
        below (bump g recs) u { a with used := a.used + g a.addr }) ∘
        fun u => { u with used := u.used + g u.addr }) =
      recs.filter fun u => u.user.isSome && below recs u a := by
    refine List.filter_congr fun u hu => ?_
    rw [Function.comp_apply, below_bump ht haddrs g hu ha]
  rw [bump] at hfilter
  rw [hfilter]
  rfl

/-- When the accounts are clear, adding what each user has to its line makes the sums. -/
theorem sums_of_gained {recs : List Assoc} (ht : IsTree recs)
    (haddrs : (recs.map (·.addr)).Nodup)
    (hzero : ∀ a ∈ recs, a.user = none → a.used.counted = 0) :
    Sums (bump (gained (recs.filter (·.user.isSome)) (fun u => (lineOf recs u).map (·.addr))
      (·.used)) recs) := by
  intro a' ha' haccount
  obtain ⟨a, ha, rfl⟩ := List.mem_map.mp ha'
  rw [sum_bump ht haddrs _ ha]
  show (a.used + _).counted = _
  rw [counted_add, hzero a ha haccount, zero_add, gained_counted, List.filter_filter]
  have hfilter : (recs.filter fun u =>
        decide (a.addr ∈ (lineOf recs u).map (·.addr)) && u.user.isSome) =
      recs.filter fun u => u.user.isSome && below recs u a := by
    refine List.filter_congr fun u hu => ?_
    rw [Bool.and_comm, Bool.eq_iff_iff, Bool.and_eq_true, Bool.and_eq_true, decide_eq_true_eq,
      mem_lineOf_addr ht haddrs hu ha, ht.below_iff hu ha]
  rw [hfilter]
  refine congrArg List.sum (List.map_congr_left fun u hu => ?_)
  -- a user is on no line, so it keeps what it has
  obtain ⟨hu, hboth⟩ := List.mem_filter.mp hu
  have huser : u.user.isSome := (Bool.and_eq_true _ _ ▸ hboth).1
  have hnone : gained (recs.filter (·.user.isSome)) (fun u => (lineOf recs u).map (·.addr))
      (·.used) u.addr = 0 := by
    refine List.sum_eq_zero fun x hx => ?_
    obtain ⟨v, hv, rfl⟩ := List.mem_map.mp hx
    exact if_neg (not_mem_lineOf ht haddrs (List.mem_filter.mp hv).1 hu huser)
  rw [hnone, add_zero]

/-! ## Recalculation -/

theorem IsTree.perm {recs recs' : List Assoc} (hperm : recs'.Perm recs) (ht : IsTree recs) :
    IsTree recs' where
  ids := (hperm.map _).nodup_iff.mpr ht.ids
  rooted := by
    intro r hr
    obtain ⟨l, hl⟩ := ht.rooted r (hperm.mem_iff.mp hr)
    exact ⟨l, hl.mono fun p hp => hperm.mem_iff.mpr hp⟩
  accounts := fun r hr p hp => ht.accounts r (hperm.mem_iff.mp hr) p (hperm.mem_iff.mp hp)

theorem foldl_insert_perm (recs sorted : List Assoc) :
    (recs.foldl (fun sorted r => sorted.orderedInsert (fun a b => a.lft ≤ b.lft) r) sorted).Perm
      (recs ++ sorted) := by
  induction recs generalizing sorted with
  | nil => exact List.Perm.refl _
  | cons r recs ih =>
    refine (ih _).trans ?_
    refine ((List.perm_orderedInsert _ r sorted).append_left recs).trans ?_
    exact List.perm_middle

theorem listSort_perm (recs : List Assoc) : (listSort recs).Perm recs := by
  have h := foldl_insert_perm recs []
  rwa [List.append_nil] at h

theorem clearUsed_frame (r : Assoc) :
    (clearUsed r).addr = r.addr ∧ (clearUsed r).id = r.id ∧ (clearUsed r).parentId = r.parentId ∧
      (clearUsed r).user = r.user := by
  rw [clearUsed]
  split
  · exact ⟨rfl, rfl, rfl, rfl⟩
  · exact ⟨rfl, rfl, rfl, rfl⟩

/-- A record after the parents were set again. -/
def resetOne (cfg : Config) (recs : List Assoc) (root : Option Nat) (r : Assoc) : Assoc :=
  if root = some r.addr then r else setAssocParentAndUser cfg recs (clearUsed r)

theorem resetOne_frame (cfg : Config) (recs : List Assoc) (root : Option Nat) (r : Assoc) :
    (resetOne cfg recs root r).addr = r.addr ∧ (resetOne cfg recs root r).id = r.id ∧
      (resetOne cfg recs root r).parentId = r.parentId ∧
      (resetOne cfg recs root r).user = r.user := by
  rw [resetOne]
  split
  · exact ⟨rfl, rfl, rfl, rfl⟩
  · exact clearUsed_frame r

/-- Where only the root has no parent id, the loop keeps the root. -/
theorem resetParents_eq (cfg : Config) (recs : List Assoc) {l : List Assoc} {root : Option Nat}
    (hroot : ∀ r ∈ l, r.parentId = 0 → root = some r.addr) :
    resetParents cfg recs l root = (l.map (resetOne cfg recs root), root) := by
  induction l with
  | nil => rfl
  | cons r l ih =>
    have hrest := ih fun s hs => hroot s (List.mem_cons_of_mem r hs)
    rw [resetParents, List.map_cons, resetOne]
    split
    · rw [hrest]
    · rename_i hne
      have hparent : r.parentId ≠ 0 := fun h => hne (hroot r List.mem_cons_self h)
      rw [setRoot, if_neg hparent, hrest]

/-- The pointer that is set is that of the record with the parent id. -/
theorem setAssocParentAndUser_ptr (cfg : Config) {recs : List Assoc}
    (hids : (recs.map (·.id)).Nodup) {r p : Assoc} (hp : p ∈ recs) (hne : r.parentId ≠ 0)
    (hid : p.id = r.parentId) (hself : p.addr ≠ r.addr) :
    (setAssocParentAndUser cfg recs r).parentAssocPtr = some p.addr := by
  have hfind := find_of_key hids hp
  rw [hid] at hfind
  simp only [setAssocParentAndUser, if_pos hne, hfind, if_neg hself]

theorem Kept.bump {recs : List Assoc} {root : Option Nat} {nextAddr : Nat}
    (h : Kept recs root nextAddr) (g : Nat → Used) :
    Kept (AssocMgr.bump g recs) root nextAddr where
  tree := h.tree.bump g
  linked := by
    intro r' hr'
    obtain ⟨r, hr, rfl⟩ := List.mem_map.mp hr'
    refine ⟨(h.linked r hr).1, fun p' hp' => ?_⟩
    obtain ⟨p, hp, rfl⟩ := List.mem_map.mp hp'
    exact (h.linked r hr).2 p hp
  addrs := by
    rw [AssocMgr.bump, List.map_map]
    exact h.addrs
  fresh := by
    intro r' hr'
    obtain ⟨r, hr, rfl⟩ := List.mem_map.mp hr'
    exact h.fresh r hr
  isRoot := by
    intro r' hr'
    obtain ⟨r, hr, rfl⟩ := List.mem_map.mp hr'
    exact h.isRoot r hr

/-- In a kept tree every walk of the shares ends. -/
theorem Kept.sharesWalk {recs : List Assoc} {root : Option Nat} {nextAddr : Nat}
    (h : Kept recs root nextAddr) (cfg : Config) (kept : List Assoc) :
    sharesWalk cfg recs kept = true := by
  rw [AssocMgr.sharesWalk, Bool.or_eq_true]
  refine Or.inr (List.all_eq_true.mpr fun r hr => ?_)
  rw [climb_lineOf h.tree h.linked h.addrs hr]
  rfl

/-- What the recalculation needs of the list the objects leave: a tree below the root, of
which the root holds no usage. -/
structure Ready (recs : List Assoc) (root : Option Nat) (nextAddr : Nat) : Prop where
  tree : IsTree recs
  addrs : (recs.map (·.addr)).Nodup
  fresh : ∀ r ∈ recs, r.addr < nextAddr
  isRoot : ∀ r ∈ recs, r.parentId = 0 ↔ root = some r.addr
  rootPtr : ∀ r ∈ recs, root = some r.addr → r.parentAssocPtr = none
  rootClear : ∀ r ∈ recs, root = some r.addr → r.used.counted = 0

/-- The parents of the list are set again, and the accounts are clear. -/
theorem Ready.reset {recs : List Assoc} {root : Option Nat} {nextAddr : Nat}
    (h : Ready recs root nextAddr) (cfg : Config) :
    Kept (recs.map (resetOne cfg recs root)) root nextAddr ∧
      ∀ a ∈ recs.map (resetOne cfg recs root), a.user = none → a.used.counted = 0 := by
  have hframe := resetOne_frame cfg recs root
  refine ⟨⟨?_, ?_, ?_, ?_, ?_⟩, ?_⟩
  · exact h.tree.map (fun r => (hframe r).2.1) (fun r => (hframe r).2.2.1)
      (fun r => (hframe r).2.2.2)
  · intro r' hr'
    obtain ⟨r, hr, rfl⟩ := List.mem_map.mp hr'
    rw [(hframe r).2.2.1]
    constructor
    · intro hroot
      have hrootr := (h.isRoot r hr).mp hroot
      rw [resetOne, if_pos hrootr]
      exact h.rootPtr r hr hrootr
    · intro p' hp' hne hid
      obtain ⟨p, hp, rfl⟩ := List.mem_map.mp hp'
      rw [(hframe p).2.1] at hid
      rw [(hframe p).1, resetOne, if_neg fun hroot => hne ((h.isRoot r hr).mpr hroot)]
      have hclear := clearUsed_frame r
      apply setAssocParentAndUser_ptr cfg h.tree.ids hp
      · rwa [hclear.2.2.1]
      · rwa [hclear.2.2.1]
      · -- no record is its own parent
        rw [hclear.1]
        intro hself
        obtain rfl := eq_of_key h.addrs hp hr hself
        obtain ⟨l, hl⟩ := h.tree.rooted p hp
        exact (Line.up hp hne hid hl).not_mem h.tree.ids List.mem_cons_self
  · have hsame : ((·.addr) ∘ resetOne cfg recs root : Assoc → Nat) = (·.addr) :=
      funext fun r => (hframe r).1
    rw [List.map_map, hsame]
    exact h.addrs
  · intro r' hr'
    obtain ⟨r, hr, rfl⟩ := List.mem_map.mp hr'
    rw [(hframe r).1]
    exact h.fresh r hr
  · intro r' hr'
    obtain ⟨r, hr, rfl⟩ := List.mem_map.mp hr'
    rw [(hframe r).1, (hframe r).2.2.1]
    exact h.isRoot r hr
  · intro a' ha' haccount
    obtain ⟨a, ha, rfl⟩ := List.mem_map.mp ha'
    rw [(hframe a).2.2.2] at haccount
    rw [resetOne]
    split
    · rename_i hroot
      exact h.rootClear a ha hroot
    · show (clearUsed a).used.counted = 0
      rw [clearUsed, if_pos haccount]
      rfl

theorem Ready.perm {recs recs' : List Assoc} {root : Option Nat} {nextAddr : Nat}
    (hperm : recs'.Perm recs) (h : Ready recs root nextAddr) : Ready recs' root nextAddr where
  tree := h.tree.perm hperm
  addrs := (hperm.map _).nodup_iff.mpr h.addrs
  fresh := fun r hr => h.fresh r (hperm.mem_iff.mp hr)
  isRoot := fun r hr => h.isRoot r (hperm.mem_iff.mp hr)
  rootPtr := fun r hr => h.rootPtr r (hperm.mem_iff.mp hr)
  rootClear := fun r hr => h.rootClear r (hperm.mem_iff.mp hr)

/-- The recalculation makes the sums. -/
theorem recalculate_sums {recs : List Assoc} {root : Option Nat} {nextAddr : Nat}
    (h : Ready recs root nextAddr) (cfg : Config) (kept : List Assoc) :
    ∃ recs', recalculate cfg recs kept root = some (recs', root) ∧ Kept recs' root nextAddr ∧
      Sums recs' := by
  have hready := h.perm (listSort_perm recs)
  obtain ⟨hkept, hclear⟩ := hready.reset cfg
  have hreset := resetParents_eq cfg (listSort recs) fun r hr => (hready.isRoot r hr).mp
  generalize hr : (listSort recs).map (resetOne cfg (listSort recs) root) = reset
    at hkept hclear hreset
  have hmem : ∀ u ∈ reset.filter (·.user.isSome), u ∈ reset := fun u hu => (List.mem_filter.mp hu).1
  have hadd := addUsers_eq kept hkept.addrs (reset.filter (·.user.isSome)) hmem
    (fun u hu => climb_lineOf hkept.tree hkept.linked hkept.addrs (hmem u hu))
    (fun u hu => nodup_lineOf hkept.tree hkept.addrs (hmem u hu))
    (fun u hu v hv => not_mem_lineOf hkept.tree hkept.addrs (hmem v hv) (hmem u hu)
      (List.mem_filter.mp hu).2) (g := fun _ => 0) (fun _ _ => rfl)
  rw [bump_zero] at hadd
  have hsums := sums_of_gained hkept.tree hkept.addrs hclear
  have hafter := hkept.bump (gained (reset.filter (·.user.isSome))
    (fun u => (lineOf reset u).map (·.addr)) (·.used))
  refine ⟨_, ?_, hafter, hsums⟩
  simp only [recalculate, hreset, hadd, zero_add, Option.bind_eq_bind, Option.bind_some,
    hafter.sharesWalk cfg kept, if_true]

/-! ## Refresh -/

/-- The state of the manager between two calls. -/
structure WellFormed (m : Mgr) : Prop where
  rootFresh : ∀ a, m.rootAssoc = some a → a < m.nextAddr
  list : ∀ recs, m.assocList = some recs → Kept recs m.rootAssoc m.nextAddr

/-- The property of the list, where there is one. -/
def SumsHold (m : Mgr) : Prop := ∀ recs, m.assocList = some recs → Sums recs

/-- The rows of the storage are a tree with one root, and what was a user is one. -/
structure RefreshOk (m : Mgr) (rows : List AssocObject) : Prop where
  tree : IsTree (freshList m rows)
  oneRoot : ∀ r ∈ freshList m rows, ∀ s ∈ freshList m rows, r.parentId = 0 → s.parentId = 0 →
    r = s
  users : ∀ recs, m.assocList = some recs → ∀ c ∈ recs, c.user.isSome → ∀ r ∈ freshList m rows,
    r.id = c.id → r.user.isSome

theorem freshList_addrs (m : Mgr) (rows : List AssocObject) :
    (freshList m rows).map (·.addr) = List.range' m.nextAddr rows.length := by
  have hgen : ∀ n, (rows.mapIdx fun i o => o.record (n + i)).map (·.addr) =
      List.range' n rows.length := by
    induction rows with
    | nil => exact fun n => rfl
    | cons o rows ih =>
      intro n
      have hshift : (fun i (o : AssocObject) => o.record (n + (i + 1))) =
          fun i o => o.record (n + 1 + i) := by
        funext i o
        rw [Nat.add_comm i 1, ← Nat.add_assoc]
      rw [List.mapIdx_cons, hshift, List.map_cons, ih (n + 1), List.length_cons,
        List.range'_succ]
      rfl
  exact hgen m.nextAddr

theorem freshList_record {m : Mgr} {rows : List AssocObject} {r : Assoc}
    (hr : r ∈ freshList m rows) : r.parentAssocPtr = none ∧ r.used = 0 := by
  obtain ⟨i, hi, rfl⟩ := List.mem_mapIdx.mp hr
  exact ⟨rfl, rfl⟩

theorem foldl_setRoot_eq {l : List Assoc} {r : Assoc} (hone : ∀ s ∈ l, s.parentId = 0 → s = r)
    {root : Option Nat} (h : root = some r.addr ∨ r ∈ l ∧ r.parentId = 0) :
    l.foldl setRoot root = some r.addr := by
  induction l generalizing root with
  | nil => exact h.elim id fun h => absurd h.1 List.not_mem_nil
  | cons s l ih =>
    refine ih (fun t ht => hone t (List.mem_cons_of_mem s ht)) ?_
    by_cases hs : s.parentId = 0
    · rw [setRoot, if_pos hs, hone s List.mem_cons_self hs]
      exact Or.inl rfl
    · rw [setRoot, if_neg hs]
      refine h.imp id fun hr => ⟨?_, hr.2⟩
      obtain rfl | hmem := List.mem_cons.mp hr.1
      · exact absurd hr.2 hs
      · exact hmem

theorem foldl_setRoot_fresh {l : List Assoc} {root : Option Nat} {n : Nat}
    (hroot : ∀ a, root = some a → a < n) (hl : ∀ r ∈ l, r.addr < n) :
    ∀ a, l.foldl setRoot root = some a → a < n := by
  induction l generalizing root with
  | nil => exact hroot
  | cons r l ih =>
    refine ih (fun a ha => ?_) fun s hs => hl s (List.mem_cons_of_mem r hs)
    rw [setRoot] at ha
    split at ha
    · obtain rfl := Option.some.inj ha
      exact hl r List.mem_cons_self
    · exact hroot a ha

theorem freshList_lt {m : Mgr} {rows : List AssocObject} {r : Assoc} (hr : r ∈ freshList m rows) :
    r.addr < m.nextAddr + rows.length := by
  have hmem : r.addr ∈ (freshList m rows).map (·.addr) := List.mem_map_of_mem hr
  rw [freshList_addrs, List.mem_range'_1] at hmem
  exact hmem.2

/-- The upper end of a line has no parent id. -/
theorem Line.exists_root {recs : List Assoc} {r : Assoc} {l : List Assoc} (hr : r ∈ recs)
    (h : Line recs r l) : ∃ s ∈ recs, s.parentId = 0 := by
  induction h with
  | root hroot => exact ⟨_, hr, hroot⟩
  | up hmem _ _ _ ih => exact ih hmem

section Refresh

variable {m : Mgr} {rows : List AssocObject}

/-- The new list before the usage of the old one is added. -/
theorem RefreshOk.kept (h : RefreshOk m rows) (cfg : Config) :
    Kept ((freshList m rows).map (setAssocParentAndUser cfg (freshList m rows)))
      ((freshList m rows).foldl setRoot m.rootAssoc) (m.nextAddr + rows.length) := by
  have haddrs : ((freshList m rows).map (·.addr)).Nodup := by
    rw [freshList_addrs]
    exact List.nodup_range'
  refine ⟨?_, ?_, ?_, ?_, ?_⟩
  · exact IsTree.map (f := setAssocParentAndUser cfg (freshList m rows)) (fun _ => rfl)
      (fun _ => rfl) (fun _ => rfl) h.tree
  · intro r' hr'
    obtain ⟨r, hr, rfl⟩ := List.mem_map.mp hr'
    constructor
    · intro hroot
      have hzero : ¬r.parentId ≠ 0 := not_not.mpr hroot
      simp only [setAssocParentAndUser, if_neg hzero]
      exact (freshList_record hr).1
    · intro p' hp' hne hid
      obtain ⟨p, hp, rfl⟩ := List.mem_map.mp hp'
      have hparent : p.id = r.parentId := hid
      have hne' : r.parentId ≠ 0 := hne
      refine setAssocParentAndUser_ptr (p := p) cfg h.tree.ids hp hne' hparent fun hself => ?_
      obtain rfl := eq_of_key haddrs hp hr hself
      obtain ⟨l, hl⟩ := h.tree.rooted p hp
      exact (Line.up hp hne' hparent hl).not_mem h.tree.ids List.mem_cons_self
  · rw [List.map_map]
    exact haddrs
  · intro r' hr'
    obtain ⟨r, hr, rfl⟩ := List.mem_map.mp hr'
    have hlt : r.addr < m.nextAddr + rows.length := freshList_lt hr
    exact hlt
  · intro r' hr'
    obtain ⟨r, hr, rfl⟩ := List.mem_map.mp hr'
    obtain ⟨l, hl⟩ := h.tree.rooted r hr
    obtain ⟨s, hs, hroot⟩ := hl.exists_root hr
    have hend : (freshList m rows).foldl setRoot m.rootAssoc = some s.addr :=
      foldl_setRoot_eq (fun t ht h0 => h.oneRoot t ht s hs h0 hroot) (Or.inr ⟨hs, hroot⟩)
    rw [hend]
    constructor
    · intro hzero
      rw [h.oneRoot r hr s hs hzero hroot]
      rfl
    · intro heq
      have haddr : s.addr = r.addr := Option.some.inj heq
      obtain rfl := eq_of_key haddrs hs hr haddr
      exact hroot

/-- What an old user has to do with the new list: the record with its id and its line. -/
def currentLine (recs : List Assoc) (c : Assoc) : List Nat :=
  match recs.find? (·.id = c.id) with
  | none => []
  | some r => r.addr :: (lineOf recs r).map (·.addr)

theorem climb_currentLine {recs : List Assoc} {root : Option Nat} {nextAddr : Nat}
    (h : Kept recs root nextAddr) {r : Assoc} (hr : r ∈ recs) :
    climb recs recs.length (some r.addr) = some (r.addr :: (lineOf recs r).map (·.addr)) := by
  have hnodup : (r :: lineOf recs r).Nodup :=
    List.nodup_cons.mpr ⟨(h.tree.line hr).not_mem h.tree.ids, (h.tree.line hr).nodup h.tree.ids⟩
  have hsub : ∀ p ∈ r :: lineOf recs r, p ∈ recs := fun p hp =>
    (List.mem_cons.mp hp).elim (· ▸ hr) ((h.tree.line hr).subset p)
  have hlen := (List.subperm_of_subset hnodup hsub).length_le
  rw [List.length_cons] at hlen
  obtain ⟨n, hn⟩ : ∃ n, recs.length = n + 1 := ⟨recs.length - 1, by omega⟩
  have hrest : climb (recs ++ []) n r.parentAssocPtr = some ((lineOf recs r).map (·.addr)) :=
    climb_of_line h.addrs h.linked hr (h.tree.line hr) (by omega)
  rw [List.append_nil] at hrest
  rw [hn, climb, find_of_key h.addrs hr, Option.bind_some, hrest]
  rfl

theorem nodup_currentLine {recs : List Assoc} {root : Option Nat} {nextAddr : Nat}
    (h : Kept recs root nextAddr) (c : Assoc) : (currentLine recs c).Nodup := by
  rw [currentLine]
  split
  · exact List.nodup_nil
  · rename_i r hfind
    have hr := List.mem_of_find?_eq_some hfind
    refine List.nodup_cons.mpr ⟨?_, nodup_lineOf h.tree h.addrs hr⟩
    rw [mem_lineOf_addr h.tree h.addrs hr hr]
    exact (h.tree.line hr).not_mem h.tree.ids

theorem sum_single {M : Type} [AddCommMonoid M] {l : List Assoc} (hl : l.Nodup) (r : Assoc)
    (x : M) :
    (l.map fun u => if u = r then x else 0).sum = if r ∈ l then x else 0 := by
  induction l with
  | nil => rfl
  | cons u l ih =>
    obtain ⟨hnot, hl⟩ := List.nodup_cons.mp hl
    rw [List.map_cons, List.sum_cons, ih hl]
    by_cases hu : u = r
    · subst hu
      rw [if_pos rfl, if_neg hnot, if_pos List.mem_cons_self, add_zero]
    · rw [if_neg hu, zero_add]
      exact if_congr (by rw [List.mem_cons, or_iff_right (Ne.symm hu)]) rfl rfl

/-- One old user gives an account what it gives to the users below the account. -/
theorem sum_current {M : Type} [AddCommMonoid M] {recs : List Assoc} {root : Option Nat}
    {nextAddr : Nat} (h : Kept recs root nextAddr) {c : Assoc}
    (huser : ∀ r ∈ recs, r.id = c.id → r.user.isSome) {a : Assoc} (ha : a ∈ recs)
    (haccount : a.user = none) (x : M) :
    ((recs.filter fun u => u.user.isSome && below recs u a).map
      fun u => if u.addr ∈ currentLine recs c then x else 0).sum =
      if a.addr ∈ currentLine recs c then x else 0 := by
  cases hfind : recs.find? (·.id = c.id) with
  | none =>
    have hline : currentLine recs c = [] := by rw [currentLine, hfind]
    rw [hline, if_neg List.not_mem_nil]
    refine List.sum_eq_zero fun y hy => ?_
    obtain ⟨u, -, rfl⟩ := List.mem_map.mp hy
    exact if_neg List.not_mem_nil
  | some r =>
    have hr := List.mem_of_find?_eq_some hfind
    have hrid : r.id = c.id := by simpa using List.find?_some hfind
    have hline : currentLine recs c = r.addr :: (lineOf recs r).map (·.addr) := by
      rw [currentLine, hfind]
    have hnodup : (recs.filter fun u => u.user.isSome && below recs u a).Nodup :=
      (List.Nodup.of_map _ h.addrs).filter _
    have honly : ∀ u ∈ recs.filter fun u => u.user.isSome && below recs u a,
        (if u.addr ∈ currentLine recs c then x else 0) = if u = r then x else 0 := by
      intro u hu
      obtain ⟨hu, hboth⟩ := List.mem_filter.mp hu
      have hu' : u.user.isSome := (Bool.and_eq_true _ _ ▸ hboth).1
      refine if_congr ?_ rfl rfl
      rw [hline, List.mem_cons, or_iff_left (not_mem_lineOf h.tree h.addrs hr hu hu')]
      exact ⟨eq_of_key h.addrs hu hr, fun heq => heq ▸ rfl⟩
    rw [List.map_congr_left honly, sum_single hnodup]
    refine if_congr ?_ rfl rfl
    rw [hline, List.mem_cons, mem_lineOf_addr h.tree h.addrs hr ha, List.mem_filter,
      Bool.and_eq_true, h.tree.below_iff hr ha]
    have hne : a.addr ≠ r.addr := by
      intro heq
      have hru := huser r hr hrid
      rw [← eq_of_key h.addrs ha hr heq, haccount] at hru
      exact absurd hru (by decide)
    rw [or_iff_right hne]
    exact ⟨fun hand => hand.2.2, fun hmem => ⟨hr, huser r hr hrid, hmem⟩⟩

/-- What the users of the old list give to an account is what they give to those below it. -/
theorem sum_currents {recs : List Assoc} {root : Option Nat} {nextAddr : Nat}
    (h : Kept recs root nextAddr) {old : List Assoc}
    (huser : ∀ c ∈ old, ∀ r ∈ recs, r.id = c.id → r.user.isSome) {a : Assoc} (ha : a ∈ recs)
    (haccount : a.user = none) :
    (gained old (currentLine recs) (·.used) a.addr).counted =
      ((recs.filter fun u => u.user.isSome && below recs u a).map
        fun u => (gained old (currentLine recs) (·.used) u.addr).counted).sum := by
  induction old with
  | nil =>
    refine (List.sum_eq_zero fun y hy => ?_).symm
    obtain ⟨u, -, rfl⟩ := List.mem_map.mp hy
    rfl
  | cons c old ih =>
    have hcons : ∀ b, (gained (c :: old) (currentLine recs) (·.used) b).counted =
        (if b ∈ currentLine recs c then c.used.counted else 0) +
          (gained old (currentLine recs) (·.used) b).counted := by
      intro b
      show ((if b ∈ currentLine recs c then c.used else 0) + _).counted = _
      rw [counted_add, apply_ite Used.counted]
      rfl
    have hrest := ih fun d hd => huser d (List.mem_cons_of_mem c hd)
    rw [hcons, hrest, ← sum_current h (huser c List.mem_cons_self) ha haccount,
      ← List.sum_map_add]
    exact congrArg List.sum (List.map_congr_left fun u _ => (hcons u.addr).symm)

/-- A refresh from well-formed rows makes the sums again, the root's too. -/
theorem refresh_keeps (cfg : Config) (hm : WellFormed m) (h : RefreshOk m rows) :
    ∃ m', refreshAssocMgrAssociationList cfg m (some rows) = some m' ∧ WellFormed m' ∧
      SumsHold m' := by
  have hkept := h.kept cfg
  have hused : ∀ r ∈ (freshList m rows).map (setAssocParentAndUser cfg (freshList m rows)),
      r.used = 0 := by
    intro r' hr'
    obtain ⟨r, hr, rfl⟩ := List.mem_map.mp hr'
    exact (freshList_record hr).2
  have hpost : postAssociationList cfg (freshList m rows) m.rootAssoc =
      some ((freshList m rows).map (setAssocParentAndUser cfg (freshList m rows)),
        (freshList m rows).foldl setRoot m.rootAssoc) := by
    rw [postAssociationList, if_pos (hkept.sharesWalk cfg [])]
  -- what is in use is carried over by the users only
  have husers : ∀ c ∈ (m.assocList.getD []).filter (·.user.isSome),
      ∀ r ∈ (freshList m rows).map (setAssocParentAndUser cfg (freshList m rows)),
      r.id = c.id → r.user.isSome := by
    intro c hc r' hr' hid
    obtain ⟨hc, hcuser⟩ := List.mem_filter.mp hc
    obtain ⟨r, hr, rfl⟩ := List.mem_map.mp hr'
    cases hold : m.assocList with
    | none =>
      rw [hold] at hc
      exact absurd hc List.not_mem_nil
    | some recs =>
      rw [hold] at hc
      exact h.users recs hold c hc hcuser r hr hid
  generalize (freshList m rows).map (setAssocParentAndUser cfg (freshList m rows)) = recs
    at hkept hused hpost husers
  have hroot : ∀ a, (freshList m rows).foldl setRoot m.rootAssoc = some a →
      a < m.nextAddr + rows.length :=
    foldl_setRoot_fresh (fun a ha => Nat.lt_add_right _ (hm.rootFresh a ha))
      fun r hr => freshList_lt hr
  generalize (freshList m rows).foldl setRoot m.rootAssoc = root at hkept hpost hroot
  generalize hold : (m.assocList.getD []).filter (·.user.isSome) = old at husers
  -- each of them adds to itself and to all above it
  have hadd := @addCurrents_eq recs (currentLine recs) old (fun c _ => by
      rw [currentLine]
      split
      · rfl
      · rename_i r hfind
        exact climb_currentLine hkept (List.mem_of_find?_eq_some hfind))
    (fun c _ => nodup_currentLine hkept c) (fun _ => 0)
  rw [bump_zero] at hadd
  generalize hg : (fun a => (0 : Used) + gained old (currentLine recs) (·.used) a) = g at hadd
  have hafter := hkept.bump g
  refine ⟨⟨some (bump g recs), root, m.nextAddr + rows.length⟩, ?_, ⟨hroot, ?_⟩, ?_⟩
  · simp only [refreshAssocMgrAssociationList, hpost, Option.bind_eq_bind, Option.bind_some, hold,
      hadd]
    rfl
  · intro recs' hrecs
    obtain rfl := Option.some.inj hrecs
    exact hafter
  · intro recs' hrecs
    obtain rfl := Option.some.inj hrecs
    intro a' ha' haccount
    obtain ⟨a, ha, rfl⟩ := List.mem_map.mp ha'
    have hgain : ∀ b ∈ recs, (b.used + g b.addr).counted =
        (gained old (currentLine recs) (·.used) b.addr).counted := by
      intro b hb
      rw [hused b hb, ← hg, zero_add]
      show (0 + _ : Used).counted = _
      rw [zero_add]
    rw [sum_bump hkept.tree hkept.addrs g ha]
    show (a.used + g a.addr).counted = _
    rw [hgain a ha, sum_currents hkept husers ha haccount]
    refine congrArg List.sum (List.map_congr_left fun u hu => ?_)
    exact (hgain u (List.mem_filter.mp hu).1).symm

end Refresh

/-! ## Updates -/

/-- What the loop over the objects has done to the list `recs` up to now. -/
structure Applied (recs : List Assoc) (nextAddr : Nat) (p : Pass) : Prop where
  addrs : (p.recs.map (·.addr)).Nodup
  fresh : ∀ r ∈ p.recs, r.addr < p.nextAddr
  le : nextAddr ≤ p.nextAddr
  old : ∀ r ∈ p.recs, r.addr < nextAddr →
    ∃ s ∈ recs, s.addr = r.addr ∧ s.used = r.used ∧ s.parentAssocPtr = r.parentAssocPtr
  unchanged : p.parentsChanged = false → p.recs.Sublist recs

theorem Applied.modify {recs : List Assoc} {nextAddr : Nat} {p : Pass}
    (h : Applied recs nextAddr p) (addr : Nat) (parentId : UInt32) (changed : Bool)
    (hchanged : changed = false → p.parentsChanged = false ∧ parentId = 0) :
    Applied recs nextAddr { p with
      recs := p.recs.map fun q =>
        if q.addr = addr ∧ parentId ≠ 0 then { q with parentId := parentId } else q
      parentsChanged := changed } := by
  have hframe : ∀ q : Assoc,
      (if q.addr = addr ∧ parentId ≠ 0 then { q with parentId := parentId } else q).addr = q.addr ∧
      (if q.addr = addr ∧ parentId ≠ 0 then { q with parentId := parentId } else q).used = q.used ∧
      (if q.addr = addr ∧ parentId ≠ 0 then { q with parentId := parentId } else q).parentAssocPtr =
        q.parentAssocPtr := by
    intro q
    split
    · exact ⟨rfl, rfl, rfl⟩
    · exact ⟨rfl, rfl, rfl⟩
  refine ⟨?_, ?_, h.le, ?_, ?_⟩
  · have hsame : ((·.addr) ∘ fun q : Assoc =>
        if q.addr = addr ∧ parentId ≠ 0 then { q with parentId := parentId } else q) = (·.addr) :=
      funext fun q => (hframe q).1
    show ((p.recs.map _).map _).Nodup
    rw [List.map_map, hsame]
    exact h.addrs
  · intro r' hr'
    obtain ⟨r, hr, rfl⟩ := List.mem_map.mp hr'
    rw [(hframe r).1]
    exact h.fresh r hr
  · intro r' hr' hlt
    obtain ⟨r, hr, rfl⟩ := List.mem_map.mp hr'
    rw [(hframe r).1] at hlt
    obtain ⟨s, hs, haddr, hused, hptr⟩ := h.old r hr hlt
    exact ⟨s, hs, haddr.trans (hframe r).1.symm, hused.trans (hframe r).2.1.symm,
      hptr.trans (hframe r).2.2.symm⟩
  · intro hfalse
    obtain ⟨hbefore, hparent⟩ := hchanged hfalse
    have hsame : ∀ q ∈ p.recs,
        (if q.addr = addr ∧ parentId ≠ 0 then { q with parentId := parentId } else q) = id q :=
      fun q _ => if_neg fun hand => hand.2 hparent
    show (p.recs.map _).Sublist recs
    rw [List.map_congr_left hsame, List.map_id]
    exact h.unchanged hbefore

theorem Applied.add {recs : List Assoc} {nextAddr : Nat} {p : Pass}
    (h : Applied recs nextAddr p) (o : AssocObject) :
    Applied recs nextAddr { p with
      recs := p.recs ++ [o.record p.nextAddr]
      nextAddr := p.nextAddr + 1
      parentsChanged := true } := by
  refine ⟨?_, ?_, Nat.le_succ_of_le h.le, ?_, fun hfalse => absurd hfalse Bool.noConfusion⟩
  · show ((p.recs ++ [o.record p.nextAddr]).map _).Nodup
    rw [List.map_append, List.nodup_append]
    refine ⟨h.addrs, List.nodup_singleton _, fun a ha b hb heq => ?_⟩
    obtain ⟨r, hr, rfl⟩ := List.mem_map.mp ha
    obtain rfl := List.mem_singleton.mp hb
    have hlt := h.fresh r hr
    have haddr : r.addr = p.nextAddr := heq
    omega
  · intro r hr
    obtain hr | hr := List.mem_append.mp hr
    · exact Nat.lt_succ_of_lt (h.fresh r hr)
    · rw [List.mem_singleton.mp hr]
      exact Nat.lt_succ_self _
  · intro r hr hlt
    obtain hr | hr := List.mem_append.mp hr
    · exact h.old r hr hlt
    · rw [List.mem_singleton.mp hr] at hlt
      exact absurd hlt (Nat.not_lt.mpr h.le)

theorem Applied.remove {recs : List Assoc} {nextAddr : Nat} {p : Pass}
    (h : Applied recs nextAddr p) (addr : Nat) (kept : List Assoc) (changed : Bool)
    (hchanged : changed = false → p.parentsChanged = false) :
    Applied recs nextAddr { p with
      recs := p.recs.filter (·.addr ≠ addr)
      kept := kept
      parentsChanged := changed } where
  addrs := h.addrs.sublist (List.filter_sublist.map _)
  fresh := fun r hr => h.fresh r (List.mem_filter.mp hr).1
  le := h.le
  old := fun r hr => h.old r (List.mem_filter.mp hr).1
  unchanged := fun hfalse => List.filter_sublist.trans (h.unchanged (hchanged hfalse))

theorem Applied.object {recs : List Assoc} {nextAddr : Nat} {p : Pass}
    (h : Applied recs nextAddr p) (cfg : Config) (type : UpdateType) (o : AssocObject) :
    Applied recs nextAddr (applyObject cfg type p o) := by
  unfold applyObject
  split
  · exact h
  · split
    · rename_i r _
      refine h.modify r.addr o.parentId _ fun hfalse => ?_
      rw [Bool.or_eq_false_iff, Bool.or_eq_false_iff] at hfalse
      exact ⟨hfalse.1.1, by simpa using hfalse.2⟩
    · exact h.add o
    · rename_i r _
      refine h.remove r.addr _ _ fun hfalse => ?_
      exact (Bool.or_eq_false_iff.mp hfalse).1
    · exact h

theorem applied_objects {m : Mgr} {recs : List Assoc} (hm : WellFormed m)
    (hrecs : m.assocList = some recs) (cfg : Config) (type : UpdateType)
    (objects : List AssocObject) :
    Applied recs m.nextAddr (applyObjects cfg m recs type objects) := by
  have hstart : Applied recs m.nextAddr
      { recs, kept := [], nextAddr := m.nextAddr, parentsChanged := false } :=
    ⟨(hm.list recs hrecs).addrs, (hm.list recs hrecs).fresh, Nat.le_refl _,
      fun r hr _ => ⟨r, hr, rfl, rfl, rfl⟩, fun _ => List.Sublist.refl _⟩
  rw [applyObjects]
  generalize ({ recs, kept := [], nextAddr := m.nextAddr, parentsChanged := false } : Pass) = p
    at hstart
  induction objects generalizing p with
  | nil => exact hstart
  | cons o objects ih => exact ih _ (hstart.object cfg type o)

/-- The objects leave a tree below the same root; where the usage is calculated again no
usage is at the root, and where it is not the users that go have none. -/
structure UpdateOk (cfg : Config) (m : Mgr) (recs : List Assoc) (type : UpdateType)
    (objects : List AssocObject) : Prop where
  tree : IsTree (applyObjects cfg m recs type objects).recs
  isRoot : ∀ r ∈ (applyObjects cfg m recs type objects).recs,
    r.parentId = 0 ↔ m.rootAssoc = some r.addr
  rootClear : (applyObjects cfg m recs type objects).parentsChanged = true →
    ∀ r ∈ recs, m.rootAssoc = some r.addr → r.used.counted = 0
  goneClear : (applyObjects cfg m recs type objects).parentsChanged = false →
    ∀ r ∈ recs, r ∉ (applyObjects cfg m recs type objects).recs → r.user.isSome →
      r.used.counted = 0

section Update

variable {cfg : Config} {m : Mgr} {recs : List Assoc} {type : UpdateType}
  {objects : List AssocObject}

theorem UpdateOk.ready (h : UpdateOk cfg m recs type objects) (hm : WellFormed m)
    (hrecs : m.assocList = some recs)
    (hchanged : (applyObjects cfg m recs type objects).parentsChanged = true) :
    Ready (applyObjects cfg m recs type objects).recs m.rootAssoc
      (applyObjects cfg m recs type objects).nextAddr := by
  have happlied := applied_objects hm hrecs cfg type objects
  have hkept := hm.list recs hrecs
  refine ⟨h.tree, happlied.addrs, happlied.fresh, h.isRoot, fun r hr hroot => ?_,
    fun r hr hroot => ?_⟩
  · obtain ⟨s, hs, haddr, -, hptr⟩ := happlied.old r hr (hm.rootFresh r.addr hroot)
    rw [← hptr]
    rw [← haddr] at hroot
    exact (hkept.linked s hs).1 ((hkept.isRoot s hs).mpr hroot)
  · obtain ⟨s, hs, haddr, hused, -⟩ := happlied.old r hr (hm.rootFresh r.addr hroot)
    rw [← hused]
    rw [← haddr] at hroot
    exact h.rootClear hchanged s hs hroot

theorem sum_sublist {M : Type} [AddCommMonoid M] {l l' : List Assoc} (f : Assoc → M)
    (hsub : l.Sublist l') (hnodup : l'.Nodup) (hzero : ∀ r ∈ l', r ∉ l → f r = 0) :
    (l'.map f).sum = (l.map f).sum := by
  induction hsub with
  | slnil => rfl
  | @cons l l' r hsub ih =>
    obtain ⟨hnot, hnodup⟩ := List.nodup_cons.mp hnodup
    rw [List.map_cons, List.sum_cons,
      hzero r List.mem_cons_self fun hmem => hnot (hsub.subset hmem), zero_add]
    exact ih hnodup fun s hs => hzero s (List.mem_cons_of_mem r hs)
  | @cons_cons l l' r hsub ih =>
    obtain ⟨hnot, hnodup⟩ := List.nodup_cons.mp hnodup
    rw [List.map_cons, List.sum_cons, List.map_cons, List.sum_cons]
    refine congrArg _ (ih hnodup fun s hs hnotl => ?_)
    refine hzero s (List.mem_cons_of_mem r hs) fun hmem => ?_
    obtain rfl | hmem := List.mem_cons.mp hmem
    · exact hnot hs
    · exact hnotl hmem

/-- Users that go without usage leave the sums as they are. -/
theorem UpdateOk.sums (h : UpdateOk cfg m recs type objects) (hm : WellFormed m)
    (hrecs : m.assocList = some recs) (hsums : Sums recs)
    (hchanged : (applyObjects cfg m recs type objects).parentsChanged = false) :
    Sums (applyObjects cfg m recs type objects).recs := by
  have hsub := (applied_objects hm hrecs cfg type objects).unchanged hchanged
  have htree := (hm.list recs hrecs).tree
  have hnodup : recs.Nodup := List.Nodup.of_map _ (hm.list recs hrecs).addrs
  generalize hleft : (applyObjects cfg m recs type objects).recs = left at hsub
  have ht : IsTree left := hleft ▸ h.tree
  have hgone : ∀ r ∈ recs, r ∉ left → r.user.isSome → r.used.counted = 0 :=
    hleft ▸ h.goneClear hchanged
  intro a ha haccount
  have hbelow : left.filter (fun u => u.user.isSome && below left u a) =
      left.filter fun u => u.user.isSome && below recs u a := by
    refine List.filter_congr fun u hu => ?_
    have hline := (ht.line hu).mono fun p hp => hsub.subset hp
    rw [Bool.eq_iff_iff, Bool.and_eq_true, Bool.and_eq_true, ht.below_iff hu ha,
      AssocMgr.below_iff htree.ids hline (hsub.subset ha)]
  rw [hsums a (hsub.subset ha) haccount, hbelow, ← sum_map_ite, ← sum_map_ite]
  refine sum_sublist _ hsub hnodup fun u hu hnot => ?_
  split
  · rename_i hboth
    exact hgone u hu hnot (Bool.and_eq_true _ _ ▸ hboth).1
  · rfl

theorem UpdateOk.kept (h : UpdateOk cfg m recs type objects) (hm : WellFormed m)
    (hrecs : m.assocList = some recs)
    (hchanged : (applyObjects cfg m recs type objects).parentsChanged = false) :
    Kept (applyObjects cfg m recs type objects).recs m.rootAssoc
      (applyObjects cfg m recs type objects).nextAddr := by
  have happlied := applied_objects hm hrecs cfg type objects
  have hsub := happlied.unchanged hchanged
  refine ⟨h.tree, fun r hr => ?_, happlied.addrs, happlied.fresh, h.isRoot⟩
  have hlinked := (hm.list recs hrecs).linked r (hsub.subset hr)
  exact ⟨hlinked.1, fun p hp => hlinked.2 p (hsub.subset hp)⟩

theorem update_keeps (h : UpdateOk cfg m recs type objects) (hm : WellFormed m)
    (hrecs : m.assocList = some recs) (hsums : Sums recs) :
    ∃ m', assocMgrUpdateAssocs cfg m type objects = some m' ∧ WellFormed m' ∧ SumsHold m' := by
  have happlied := applied_objects hm hrecs cfg type objects
  have hroot : ∀ a, m.rootAssoc = some a → a < (applyObjects cfg m recs type objects).nextAddr :=
    fun a ha => Nat.lt_of_lt_of_le (hm.rootFresh a ha) happlied.le
  simp only [assocMgrUpdateAssocs, hrecs]
  cases hchanged : (applyObjects cfg m recs type objects).parentsChanged with
  | true =>
    obtain ⟨recs', hcalc, hkept, hsums'⟩ := recalculate_sums (h.ready hm hrecs hchanged) cfg
      (applyObjects cfg m recs type objects).kept
    rw [if_pos rfl, hcalc]
    refine ⟨_, rfl, ⟨hroot, fun recs'' heq => ?_⟩, fun recs'' heq => ?_⟩
    · obtain rfl := Option.some.inj heq
      exact hkept
    · obtain rfl := Option.some.inj heq
      exact hsums'
  | false =>
    rw [if_neg Bool.false_ne_true]
    refine ⟨_, rfl, ⟨hroot, fun recs'' heq => ?_⟩, fun recs'' heq => ?_⟩
    · obtain rfl := Option.some.inj heq
      exact h.kept hm hrecs hchanged
    · obtain rfl := Option.some.inj heq
      exact h.sums hm hrecs hsums hchanged

end Update

/-! ## Runs -/

/-- The condition on a call in the state it is made in. -/
def CallOk (cfg : Config) (m : Mgr) : Op → Prop
  | .refresh none => True
  | .refresh (some rows) => RefreshOk m rows
  | .update type objects => ∀ recs, m.assocList = some recs → UpdateOk cfg m recs type objects

theorem step_keeps {cfg : Config} {m : Mgr} {op : Op} (hm : WellFormed m ∧ SumsHold m)
    (hop : CallOk cfg m op) : ∃ m', step cfg m op = some m' ∧ WellFormed m' ∧ SumsHold m' := by
  cases op with
  | refresh rows =>
    cases rows with
    | none => exact ⟨m, rfl, hm⟩
    | some rows => exact refresh_keeps cfg hm.1 hop
  | update type objects =>
    cases hrecs : m.assocList with
    | none =>
      refine ⟨m, ?_, hm⟩
      rw [step, assocMgrUpdateAssocs, hrecs]
    | some recs => exact update_keeps (hop recs hrecs) hm.1 hrecs (hm.2 recs hrecs)

/-- From a list where it holds, every run of calls that meet the condition keeps the sums. -/
theorem run_sums {cfg : Config} {m : Mgr} (hm : WellFormed m) (hsums : SumsHold m)
    {ops : List Op} (hops : Guarded (step cfg) (CallOk cfg) m ops) :
    HoldsThroughout (step cfg) SumsHold m ops :=
  (holdsThroughout_of_guarded (P := fun m => WellFormed m ∧ SumsHold m)
    (fun _ _ hm hop => step_keeps hm hop) ops m ⟨hm, hsums⟩ hops).mono fun _ h => h.2

def plainConfig : Config where
  clusterName := none
  setupChildern := false
  removeAssocNotify := false
  uidFromString := fun _ => none

/-- A row of the storage with an id, a parent id and perhaps a user. -/
def plainObject (id parentId : UInt32) (user : Option String) : AssocObject where
  id
  parentId
  lft := id
  user
  uid := noVal
  acct := none
  partition := none
  cluster := none
  sharesRaw := noVal

/-- One job. -/
def oneJob : Used where
  grpUsedCpus := 4
  grpUsedNodes := 1
  grpUsedWall := 0
  usedJobs := 1
  usedSubmitJobs := 1
  usageRaw := 7 / 2

/-- The root, an account and a user of the account with one job. -/
def smallMgr : Mgr where
  assocList := some [
    { (plainObject 1 0 none).record 0 with used := oneJob },
    { (plainObject 2 1 none).record 1 with parentAssocPtr := some 0, used := oneJob },
    { (plainObject 3 2 (some "u")).record 2 with parentAssocPtr := some 1, used := oneJob }]
  rootAssoc := some 0
  nextAddr := 3

theorem smallMgr_wellFormed : WellFormed smallMgr := by
  refine ⟨fun a ha => ?_, fun recs hrecs => ?_⟩
  · obtain rfl := Option.some.inj ha
    decide
  · obtain rfl := Option.some.inj hrecs
    refine ⟨by decide +kernel, ?_, by decide +kernel, by decide +kernel, by decide +kernel⟩
    unfold Linked
    decide +kernel

theorem smallMgr_sums : SumsHold smallMgr := by
  intro recs hrecs
  obtain rfl := Option.some.inj hrecs
  decide +kernel

/-- The rows of `smallMgr`, with the user moved below the root. -/
def movedRows : List AssocObject :=
  [plainObject 1 0 none, plainObject 2 1 none, plainObject 3 1 (some "u")]

theorem run_sums_moved :
    HoldsThroughout (step plainConfig) SumsHold smallMgr [.refresh (some movedRows)] := by
  have hrows : RefreshOk smallMgr movedRows := by
    refine ⟨by decide +kernel, by decide +kernel, fun recs hrecs => ?_⟩
    obtain rfl := Option.some.inj hrecs
    decide +kernel
  exact run_sums smallMgr_wellFormed smallMgr_sums ⟨hrows, fun _ _ => trivial⟩

/-- A second user is added while the first has a job, and the root has the job twice. -/
theorem not_run_sums_added :
    WellFormed smallMgr ∧ SumsHold smallMgr ∧
      ¬HoldsThroughout (step plainConfig) SumsHold smallMgr
        [.update .add [plainObject 4 2 (some "v")]] := by
  refine ⟨smallMgr_wellFormed, smallMgr_sums, ?_⟩
  rintro ⟨-, m', hstep, hsums⟩
  have hbad : ((step plainConfig smallMgr (.update .add [plainObject 4 2 (some "v")])).bind
      (·.assocList)).any (fun recs => ¬Sums recs) = true := by decide +kernel
  rw [hstep, Option.bind_some, Option.any_eq_true] at hbad
  obtain ⟨recs, hrecs, hnot⟩ := hbad
  exact of_decide_eq_true hnot (hsums recs hrecs)

end Slurm.AssocMgr
