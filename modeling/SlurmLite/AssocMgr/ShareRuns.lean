import SlurmLite.AssocMgr.Shares

/-!
# Normalised shares after every call

Which calls of a run, of `_post_association_list` and of `assoc_mgr_update_assocs`, leave the
shares that the tree of the list asks for.

* **Forests** (`resetOk_of_forest`): a forest whose root has no parent id has what the loop over
  the records needs.
* **Objects** (`applyAll_unchanged`): an update that does not ask for new parents changed nothing.
* **Calls** (`CallFits`, `post_right`, `update_right`): the two ways a call can go wrong, and that
  there are no others.
* **Runs** (`run_normalized`): the shares after every call of a run.
-/

namespace Slurm.AssocMgr

open Base.Run Base.Chains

/-! ## What a forest gives -/

/-- The records without a parent id have no parent pointer. -/
def RootsFree (recs : List Assoc) : Prop := ∀ r ∈ recs, r.parentId = 0 → r.parentAssocPtr = none

section

variable {cfg : Config} {root : Option Nat} {recs : List Assoc} {sharesRaw : Nat → UInt32}

theorem ownOk_of_forest (haddrs : (recs.map (·.addr)).Nodup) (hfree : RootsFree recs)
    (hforest : IsForest (recs.map Assoc.node) sharesRaw)
    (hroot : ∀ r ∈ recs, passedOver root recs r = true → r.parentId = 0) :
    ∀ r ∈ recs, OwnOk cfg root recs r := by
  intro r hr
  unfold OwnOk
  split
  next hpassed =>
    -- the root that is passed over has no parent, so that the pointer it keeps is right
    have hzero := hroot r hr hpassed
    have hnone := hfree r hr hzero
    exact ⟨hnone.trans (if_pos hzero).symm, fun _ => hnone⟩
  · split
    next hzero => exact hfree r hr hzero
    next hzero =>
      obtain ⟨n, hn, hid⟩ := hforest.named r.node (List.mem_map_of_mem hr) hzero
      obtain ⟨p, hp, rfl⟩ := List.mem_map.mp hn
      have hsome : (recs.find? (·.id = r.parentId)).isSome :=
        List.find?_isSome.mpr ⟨p, hp, decide_eq_true hid⟩
      obtain ⟨q, hq⟩ := Option.isSome_iff_exists.mp hsome
      rw [hq]
      have hparent : parentAt (recs.map Assoc.node) r.addr = some q.addr := by
        rw [parentAt_node haddrs hr, wanted, if_neg hzero, hq, Option.map_some]
      exact (hforest.acyclic.ne hparent).symm

theorem ends_of_forest (haddrs : (recs.map (·.addr)).Nodup)
    (hforest : IsForest (recs.map Assoc.node) sharesRaw) : ∀ r ∈ recs, Ends recs r := by
  have hptr : ParentsRight (relinked recs) :=
    (parentsRight_map (f := fun r => { r with parentAssocPtr := wanted recs r }) (fun _ => rfl)
      (fun _ => rfl) fun _ => rfl).mpr fun _ _ => rfl
  have haddr : (relinked recs).map (·.addr) = recs.map (·.addr) := by
    rw [relinked, List.map_map]
    rfl
  have hnode : (relinked recs).map Assoc.node = recs.map Assoc.node := by
    rw [relinked, List.map_map]
    rfl
  have hends := exists_climb (by rw [haddr]; exact haddrs) hptr
    (by rw [hnode]; exact hforest.acyclic)
  intro r _
  cases hparent : wanted recs r with
  | none => exact ⟨0, by rw [hparent, climb_none]; rfl⟩
  | some a =>
    obtain ⟨p, hp, rfl, -⟩ := wanted_mem hparent
    rw [Ends, hparent]
    exact hends _ (by rw [haddr]; exact List.mem_map_of_mem hp)

theorem resetOk_of_forest (haddrs : (recs.map (·.addr)).Nodup) (hfree : RootsFree recs)
    (hforest : IsForest (recs.map Assoc.node) sharesRaw)
    (hroot : ∀ r ∈ recs, passedOver root recs r = true → r.parentId = 0) :
    ResetOk cfg root recs where
  own := ownOk_of_forest haddrs hfree hforest hroot
  ends := fun r hr _ => ends_of_forest haddrs hforest r hr

theorem resetList_node : (resetList cfg root recs).map Assoc.node = recs.map Assoc.node := by
  rw [resetList, List.map_map]
  refine List.map_congr_left fun r _ => ?_
  obtain ⟨haddr, hid, hparent, -⟩ := @reset_frame cfg root recs r
  rw [Function.comp_apply, Assoc.node, Assoc.node, haddr, hid, hparent]

theorem node_of_bare {recs recs' : List Assoc} (h : recs'.map bare = recs.map bare) :
    recs'.map Assoc.node = recs.map Assoc.node := by
  have hsame := congrArg (List.map Assoc.node) h
  rw [List.map_map, List.map_map] at hsame
  exact hsame

theorem rootsFree_bare {recs recs' : List Assoc} (h : recs'.map bare = recs.map bare)
    (hfree : RootsFree recs) : RootsFree recs' := by
  have hmap : ∀ l : List Assoc, RootsFree (l.map bare) ↔ RootsFree l := fun _ =>
    List.forall_mem_map
  rw [← hmap, h, hmap]
  exact hfree

theorem rootsFree_reset (hfree : RootsFree recs) : RootsFree (resetList cfg root recs) := by
  rw [RootsFree, resetList, List.forall_mem_map]
  intro r hr hzero
  obtain ⟨-, -, hparent, -⟩ := @reset_frame cfg root recs r
  rw [hparent] at hzero
  obtain ⟨-, -, hclear, -⟩ := clearUsed_frame r
  rw [reset]
  split
  · exact hfree r hr hzero
  · rw [setAssocParentAndUser]
    dsimp only
    rw [hclear, if_neg (not_not.mpr hzero), clearUsed_ptr]
    exact hfree r hr hzero

end

/-! ## The objects of an update -/

theorem applyAll_fst (cfg : Config) (s : Shared) (recs : List Assoc) (type : UpdateType)
    (objects : List AssocObject) :
    (applyAll cfg s recs type objects).1 = applyObjects cfg s.family.mgr recs type objects :=
  (List.foldl_hom Prod.fst fun _ _ => rfl).symm

/-- An object that does not ask for the parents to be set again changes no parent and no
`shares_raw`. -/
theorem applyShared_unchanged {cfg : Config} (hset : cfg.setupChildern = true)
    {type : UpdateType} {s : Pass × (Nat → UInt32)} {o : AssocObject}
    (h : (applyShared cfg type s o).1.parentsChanged = false) :
    s.1.parentsChanged = false ∧ (applyShared cfg type s o).1.recs = s.1.recs ∧
      (applyShared cfg type s o).2 = s.2 := by
  unfold applyShared applyObject applyRaw at *
  dsimp only at *
  split
  next hother =>
    rw [if_pos hother] at h
    exact ⟨h, rfl, rfl⟩
  next hother =>
    rw [if_neg hother] at h
    cases type with
    | modify =>
      cases hfind : s.1.recs.find? (cfg.finds o) with
      | none =>
        rw [hfind] at h
        exact ⟨h, rfl, rfl⟩
      | some r =>
        rw [hfind] at h
        simp only [hset, Bool.and_true, Bool.or_eq_false_iff, decide_eq_false_iff_not,
          not_not] at h
        -- neither shares nor a parent id are given
        obtain ⟨⟨hbefore, hshares⟩, hparent⟩ := h
        refine ⟨hbefore, ?_, if_neg (not_not.mpr hshares)⟩
        have hsame : ∀ q ∈ s.1.recs, (if q.addr = r.addr ∧ o.parentId ≠ 0 then
            { q with parentId := o.parentId } else q) = q :=
          fun q _ => if_neg fun hand => hand.2 hparent
        exact (List.map_congr_left hsame).trans (List.map_id _)
    | add =>
      cases hfind : s.1.recs.find? (cfg.finds o) with
      | none =>
        rw [hfind] at h
        exact absurd h Bool.noConfusion
      | some r =>
        rw [hfind] at h
        exact ⟨h, rfl, rfl⟩
    | remove =>
      cases hfind : s.1.recs.find? (cfg.finds o) with
      | none =>
        rw [hfind] at h
        exact ⟨h, rfl, rfl⟩
      | some r =>
        rw [hfind] at h
        -- with the children kept, a removal asks for new levels
        simp only [hset, Bool.or_true] at h
        exact absurd h Bool.noConfusion
    | other => exact ⟨h, rfl, rfl⟩

theorem applyAll_unchanged {cfg : Config} (hset : cfg.setupChildern = true) {type : UpdateType}
    {objects : List AssocObject} {s : Pass × (Nat → UInt32)}
    (h : (objects.foldl (applyShared cfg type) s).1.parentsChanged = false) :
    s.1.parentsChanged = false ∧
      (objects.foldl (applyShared cfg type) s).1.recs = s.1.recs ∧
      (objects.foldl (applyShared cfg type) s).2 = s.2 := by
  induction objects generalizing s with
  | nil => exact ⟨h, rfl, rfl⟩
  | cons o objects ih =>
    obtain ⟨hmid, hrecs, hraw⟩ := ih h
    obtain ⟨hbefore, hrecs', hraw'⟩ := applyShared_unchanged hset hmid
    exact ⟨hbefore, hrecs.trans hrecs', hraw.trans hraw'⟩

theorem RootsFree.object {p : Pass} (h : RootsFree p.recs) (cfg : Config) (type : UpdateType)
    (o : AssocObject) : RootsFree (applyObject cfg type p o).recs := by
  unfold applyObject
  split
  · exact h
  · split
    · -- a parent id that is set is not zero
      rw [RootsFree, List.forall_mem_map]
      intro r hr
      split
      next hset => exact fun hzero => absurd hzero hset.2
      · exact h r hr
    · intro r hr hzero
      rcases List.mem_append.mp hr with hr | hr
      · exact h r hr hzero
      · rw [List.mem_singleton.mp hr]
        rfl
    · exact fun r hr => h r (List.mem_filter.mp hr).1
    · exact h

theorem RootsFree.applied {recs : List Assoc} (h : RootsFree recs) (cfg : Config) (m : Mgr)
    (type : UpdateType) (objects : List AssocObject) :
    RootsFree (applyObjects cfg m recs type objects).recs :=
  foldl_load (n := 0) (fun _ (p : Pass) => RootsFree p.recs) (fun _ => 0)
    (fun _ _ o _ hp => hp.object cfg type o) h

/-! ## Calls -/

/-- A call that leaves shares. -/
inductive ShareOp
  | post (rows : List AssocObject)
  | update (type : UpdateType) (objects : List AssocObject)

def shareStep (cfg : Config) (s : Shared) : ShareOp → Option Shared
  | .post rows => postShares cfg s rows
  | .update type objects => updateShares cfg s type objects

/-- No list yet. -/
def Shared.start : Shared where
  family := ⟨⟨none, none, 0⟩, fun _ => []⟩
  sharesRaw := fun _ => 0
  levelShares := fun _ => 0
  sharesNorm := fun _ => none

/-- The list of a call when its parents are set, in order, and the `shares_raw` of then. -/
def ShareOp.list (cfg : Config) (s : Shared) : ShareOp → List Assoc × (Nat → UInt32)
  | .post rows => (freshList s.family.mgr rows, freshRaw s.family.mgr rows s.sharesRaw)
  | .update type objects =>
    let (p, sharesRaw) := applyAll cfg s (s.family.mgr.assocList.getD []) type objects
    (listSort p.recs, sharesRaw)

/-- The root that the loop over that list passes over. -/
def ShareOp.root (s : Shared) : ShareOp → Option Nat
  | .post _ => none
  | .update _ _ => s.family.mgr.rootAssoc

/-- There is a list, and the call changed shares or parents, or added or removed associations. -/
def ShareOp.Changes (cfg : Config) (s : Shared) : ShareOp → Prop
  | .post _ => True
  | .update type objects => ∃ recs, s.family.mgr.assocList = some recs ∧
      ((applyAll cfg s recs type objects).1.recs.map Assoc.node ≠ recs.map Assoc.node ∨
        (applyAll cfg s recs type objects).2 ≠ s.sharesRaw)

/-- The call changes a list to a forest. -/
structure ShareOp.LeavesForest (cfg : Config) (s : Shared) (op : ShareOp) : Prop where
  changes : op.Changes cfg s
  forest : IsForest ((op.list cfg s).1.map Assoc.node) (op.list cfg s).2

/-- The shares are those of the tree. -/
def Shared.Right (s : Shared) : Prop :=
  ∃ recs, s.family.mgr.assocList = some recs ∧ Normalized (recs.map Assoc.node) s.sharesNorm

/-- A call that leaves a forest gives it its shares. -/
def CallRight (cfg : Config) (s : Shared) (op : ShareOp) : Prop :=
  op.LeavesForest cfg s → ∃ s', shareStep cfg s op = some s' ∧ s'.Right

/-- Where a call leaves a forest, no total of siblings is beyond 32 bits, and the root that the
loop passes over has no parent id. -/
def CallFits (cfg : Config) (s : Shared) (op : ShareOp) : Prop :=
  op.LeavesForest cfg s → TotalsFit ((op.list cfg s).1.map Assoc.node) (op.list cfg s).2 ∧
    ∀ r ∈ (op.list cfg s).1, passedOver (op.root s) (op.list cfg s).1 r = true → r.parentId = 0

/-- What every call keeps. -/
structure Sound (s : Shared) : Prop where
  allocated : Allocated s.family.mgr
  rootsFree : ∀ recs, s.family.mgr.assocList = some recs → RootsFree recs

/-! ### A list from the storage -/

section Post

variable {cfg : Config} {m : Mgr} {rows : List AssocObject}

theorem freshList_nodup : ((freshList m rows).map (·.addr)).Nodup := by
  rw [freshList_addrs]
  exact List.nodup_range'

theorem freshList_free : RootsFree (freshList m rows) := fun _ hr _ => (freshList_record hr).1

/-- The loop over a new list sets the parents that the loop of an update would set. -/
theorem map_setAssocParent_fresh :
    (freshList m rows).map (setAssocParentAndUser cfg (freshList m rows)) =
      resetList cfg none (freshList m rows) := by
  refine List.map_congr_left fun r hr => ?_
  have hclear : clearUsed r = r := by
    rw [clearUsed]
    split
    · rw [← (freshList_record hr).2]
    · rfl
  have hpassed : passedOver none (freshList m rows) r = false := rfl
  rw [reset, hpassed, if_neg Bool.false_ne_true, hclear]

/-- The children that the loop over a list appends. -/
theorem foldl_setAssocParent (hset : cfg.setupChildern = true) {recs l : List Assoc}
    {s : Setting} (h : Remembered recs s) (o : Nat) :
    (l.foldl (fun s r => (setAssocParent cfg recs s r).2) s).childern o =
      s.childern o ++ (l.filter fun r => aimed recs r = some o).map (·.addr) := by
  induction l generalizing s with
  | nil => exact (List.append_nil _).symm
  | cons r l ih =>
    obtain ⟨-, hremembered, hchildern⟩ := setAssocParent_eq cfg h r
    rw [List.foldl_cons, ih hremembered, hchildern, enlisted_apply hset, List.filter_cons]
    by_cases haim : aimed recs r = some o
    · simp [haim]
    · simp [haim]

theorem postChildern_eq (hset : cfg.setupChildern = true) {recs : List Assoc}
    (childern : Nat → List Nat) {o : Assoc} (ho : o ∈ recs) :
    postChildern cfg recs childern o.addr = appended recs none recs o.addr := by
  have hflushed : (flushed recs childern).childern o.addr = [] :=
    if_pos (List.mem_map_of_mem ho)
  rw [postChildern, foldl_setAssocParent hset (remembered_flushed recs childern), hflushed,
    List.nil_append]
  rfl

theorem childernRight_of_eq {root : Option Nat} {recs : List Assoc}
    {childern childern' : Nat → List Nat} (hsame : ∀ o ∈ recs, childern' o.addr = childern o.addr)
    (h : ChildernRight (resetList cfg root recs) childern) :
    ChildernRight (resetList cfg root recs) childern' := by
  intro o ho
  obtain ⟨r, hr, rfl⟩ := List.mem_map.mp ho
  have haddr := (@reset_frame cfg root recs r).1
  have h := h _ ho
  rw [haddr] at h ⊢
  rw [hsame r hr]
  exact h

/-- A list from the storage that is a forest gets its shares, where no total wraps. -/
theorem post_right (hset : cfg.setupChildern = true) {s : Shared} (rows : List AssocObject)
    (hfits : CallFits cfg s (.post rows)) : CallRight cfg s (.post rows) := by
  intro hleaves
  obtain ⟨hfits, hroot⟩ := hfits hleaves
  have hforest := hleaves.forest
  simp only [ShareOp.list, ShareOp.root] at hfits hroot hforest
  have haddrs := @freshList_nodup s.family.mgr rows
  have hok : ResetOk cfg none (freshList s.family.mgr rows) :=
    resetOk_of_forest haddrs freshList_free hforest hroot
  obtain ⟨hptr, hchildern⟩ := (own_iff haddrs s.family.childern).mpr hok.own
  have hwalks : sharesWalk cfg (resetList cfg none (freshList s.family.mgr rows)) [] = true := by
    have hright := (parentsRight_map (fun r => (reset_frame r).2.1) (fun r => (reset_frame r).1)
      fun r => (reset_frame r).2.2.1).mp hptr
    rw [sharesWalk, Bool.or_eq_true, List.all_eq_true, resetList, List.forall_mem_map]
    refine Or.inr fun r hr => ?_
    exact (isSome_climb_iff hright rfl [] hr).mpr (hok.ends r hr (Or.inr hset))
  have hpost : postAssociationList cfg (freshList s.family.mgr rows) s.family.mgr.rootAssoc =
      some (resetList cfg none (freshList s.family.mgr rows),
        (freshList s.family.mgr rows).foldl setRoot s.family.mgr.rootAssoc) := by
    unfold postAssociationList
    rw [map_setAssocParent_fresh]
    exact if_pos hwalks
  have haddrs' : ((resetList cfg none (freshList s.family.mgr rows)).map (·.addr)).Nodup := by
    rw [resetList_addrs]
    exact haddrs
  rw [shareStep, postShares, hpost]
  refine ⟨_, rfl, resetList cfg none (freshList s.family.mgr rows), ?_, ?_⟩
  · rw [hset]
    rfl
  · rw [hset]
    refine normalized_of_right haddrs' hptr ?_ ?_ ?_ [] _ _
    · refine childernRight_of_eq (fun o ho => ?_) (hchildern hset)
      rw [postChildern_eq hset _ ho, resetChildern_eq haddrs hset _ ho]
    · rw [resetList_node]
      exact hforest
    · rw [resetList_node]
      exact hfits

end Post

/-! ### An update -/

section Update

variable {cfg : Config} {type : UpdateType} {objects : List AssocObject}

/-- The list that an update leaves, up to the usage. -/
theorem updateFamily_list {f f' : Family} (hf : Allocated f.mgr) {recs : List Assoc}
    (hlist : f.mgr.assocList = some recs) (hf' : updateFamily cfg f type objects = some f') :
    ∃ recs', f'.mgr.assocList = some recs' ∧
      recs'.map bare = (if (applyObjects cfg f.mgr recs type objects).parentsChanged then
        resetList cfg f.mgr.rootAssoc (listSort (applyObjects cfg f.mgr recs type objects).recs)
        else (applyObjects cfg f.mgr recs type objects).recs).map bare := by
  have happlied := hf.applied hlist cfg type objects
  obtain ⟨m, hm, rfl⟩ := Option.map_eq_some_iff.mp hf'
  rw [assocMgrUpdateAssocs, hlist] at hm
  dsimp only at hm
  generalize applyObjects cfg f.mgr recs type objects = p at happlied hm
  cases hchanged : p.parentsChanged with
  | true =>
    rw [hchanged, if_pos rfl] at hm
    obtain ⟨⟨recs', root'⟩, hcalc, rfl⟩ := Option.map_eq_some_iff.mp hm
    have haddrs : ((listSort p.recs).map (·.addr)).Nodup :=
      ((listSort_perm p.recs).map _).nodup_iff.mpr happlied.addrs
    exact ⟨recs', rfl, (recalculate_iff haddrs p.kept).2 recs' root' hcalc⟩
  | false =>
    rw [hchanged, if_neg Bool.false_ne_true] at hm
    obtain rfl := Option.some.inj hm
    exact ⟨p.recs, rfl, rfl⟩

theorem rootsFree_sort {recs : List Assoc} (h : RootsFree recs) : RootsFree (listSort recs) :=
  fun r hr => h r ((listSort_perm recs).mem_iff.mp hr)

/-- The shares after an update that sets the parents again. -/
theorem updateShares_changed (hset : cfg.setupChildern = true) {s : Shared} {f' : Family}
    {recs recs' : List Assoc} (hlist : s.family.mgr.assocList = some recs)
    (hf' : updateFamily cfg s.family type objects = some f')
    (hrecs' : f'.mgr.assocList = some recs')
    (hchanged : (applyAll cfg s recs type objects).1.parentsChanged = true) :
    ∃ s', updateShares cfg s type objects = some s' ∧ s'.family = f' ∧ s'.sharesNorm =
      normalizeAll recs' (applyAll cfg s recs type objects).1.kept
        (applyAll cfg s recs type objects).2
        (setLevels recs' f'.childern (applyAll cfg s recs type objects).2 s.levelShares)
        s.sharesNorm := by
  rw [updateShares, hf', hlist, Option.map_some]
  dsimp only
  rw [hchanged, hset, hrecs']
  exact ⟨_, rfl, rfl, rfl⟩

/-- An update that leaves a forest gives it its shares, where no total wraps and the root that
is passed over has no parent id. -/
theorem update_right (hset : cfg.setupChildern = true) {s : Shared} (hs : Sound s)
    (hfits : CallFits cfg s (.update type objects)) : CallRight cfg s (.update type objects) := by
  intro hleaves
  obtain ⟨hfits, hroot⟩ := hfits hleaves
  obtain ⟨recs, hlist, hchanges⟩ := hleaves.changes
  have hforest := hleaves.forest
  simp only [ShareOp.list, ShareOp.root, hlist, Option.getD_some] at hfits hroot hforest
  -- a call that changed something sets the parents and the levels again
  have hchanged : (applyAll cfg s recs type objects).1.parentsChanged = true := by
    by_contra hnot
    obtain ⟨-, hrecs, hraw⟩ := applyAll_unchanged hset (eq_false_of_ne_true hnot)
    rcases hchanges with hne | hne
    · exact hne (congrArg _ hrecs)
    · exact hne hraw
  have hfst := applyAll_fst cfg s recs type objects
  have happlied := hs.allocated.applied hlist cfg type objects
  have hfree := rootsFree_sort ((hs.rootsFree recs hlist).applied cfg s.family.mgr type objects)
  rw [← hfst] at happlied hfree
  have haddrs : ((listSort (applyAll cfg s recs type objects).1.recs).map (·.addr)).Nodup :=
    ((listSort_perm _).map _).nodup_iff.mpr happlied.addrs
  have hok : FamilyOk cfg s.family type objects := by
    intro recs' hrecs'
    obtain rfl := Option.some.inj (hlist.symm.trans hrecs')
    rw [← hfst]
    exact (if_pos hchanged).mpr (resetOk_of_forest haddrs hfree hforest hroot)
  obtain ⟨f', hf', hright⟩ := (updateFamily_iff cfg s.family hs.allocated type objects).mpr hok
  obtain ⟨recs', hrecs', hbare⟩ := updateFamily_list hs.allocated hlist hf'
  rw [← hfst, if_pos hchanged] at hbare
  have hnode := (node_of_bare hbare).trans resetList_node
  have haddrs' : (recs'.map (·.addr)).Nodup := by
    have haddr := congrArg (List.map (·.addr)) hnode
    rw [List.map_map, List.map_map] at haddr
    have hsame : recs'.map (·.addr) =
      (listSort (applyAll cfg s recs type objects).1.recs).map (·.addr) := haddr
    rw [hsame]
    exact haddrs
  obtain ⟨hptr, hchildern⟩ := hright recs' hrecs'
  obtain ⟨s', hs', hfamily, hnorm⟩ := updateShares_changed hset hlist hf' hrecs' hchanged
  refine ⟨s', hs', recs', by rw [hfamily]; exact hrecs', ?_⟩
  rw [hnorm]
  refine normalized_of_right haddrs' hptr (hchildern hset) ?_ ?_ _ _ _
  · rw [hnode]
    exact hforest
  · rw [hnode]
    exact hfits

end Update

/-! ## Runs -/

section Runs

variable {cfg : Config}

theorem Sound.post {s s' : Shared} {rows : List AssocObject}
    (hs' : postShares cfg s rows = some s') : Sound s' := by
  obtain ⟨⟨recs, root⟩, hpost, hs'⟩ := Option.map_eq_some_iff.mp hs'
  have hfamily : s'.family.mgr = ⟨some recs, root, s.family.mgr.nextAddr + rows.length⟩ := by
    rw [← hs']
    dsimp only
    split <;> rfl
  have hrecs : recs = resetList cfg none (freshList s.family.mgr rows) := by
    unfold postAssociationList at hpost
    rw [map_setAssocParent_fresh] at hpost
    dsimp only at hpost
    split at hpost
    · exact (Prod.mk.inj (Option.some.inj hpost)).1.symm
    · exact absurd hpost (Option.some_ne_none _).symm
  have haddr : recs.map (·.addr) = (freshList s.family.mgr rows).map (·.addr) := by
    rw [hrecs, resetList_addrs]
  refine ⟨⟨fun l hl => ?_, fun l hl r hr => ?_⟩, fun l hl => ?_⟩
  · rw [hfamily] at hl
    obtain rfl := Option.some.inj hl
    rw [haddr]
    exact freshList_nodup
  · rw [hfamily] at hl ⊢
    obtain rfl := Option.some.inj hl
    have hmem : r.addr ∈ (freshList s.family.mgr rows).map (·.addr) := by
      rw [← haddr]
      exact List.mem_map_of_mem hr
    obtain ⟨q, hq, heq⟩ := List.mem_map.mp hmem
    rw [← heq]
    exact freshList_lt hq
  · rw [hfamily] at hl
    obtain rfl := Option.some.inj hl
    rw [hrecs]
    exact rootsFree_reset freshList_free

theorem updateShares_family {s s' : Shared} {type : UpdateType} {objects : List AssocObject}
    (hs' : updateShares cfg s type objects = some s') :
    updateFamily cfg s.family type objects = some s'.family := by
  obtain ⟨f', hf', rfl⟩ := Option.map_eq_some_iff.mp hs'
  rw [hf']
  split
  · rfl
  · dsimp only
    split <;> rfl

theorem Sound.update {s s' : Shared} (hs : Sound s) {type : UpdateType}
    {objects : List AssocObject} (hs' : updateShares cfg s type objects = some s') :
    Sound s' := by
  have hf' := updateShares_family hs'
  refine ⟨hs.allocated.update hf', fun l hl => ?_⟩
  cases hlist : s.family.mgr.assocList with
  | none =>
    rw [updateFamily, assocMgrUpdateAssocs, hlist] at hf'
    rw [← Option.some.inj hf'] at hl
    exact absurd (hlist.symm.trans hl) (Option.some_ne_none _).symm
  | some recs =>
    obtain ⟨recs', hrecs', hbare⟩ := updateFamily_list hs.allocated hlist hf'
    obtain rfl := Option.some.inj (hrecs'.symm.trans hl)
    have hfree := (hs.rootsFree recs hlist).applied cfg s.family.mgr type objects
    refine rootsFree_bare hbare ?_
    split
    · exact rootsFree_reset (rootsFree_sort hfree)
    · exact hfree

theorem sound_start : Sound Shared.start where
  allocated := ⟨fun _ h => absurd h (Option.some_ne_none _).symm,
    fun _ h => absurd h (Option.some_ne_none _).symm⟩
  rootsFree := fun _ h => absurd h (Option.some_ne_none _).symm

theorem Sound.step {s s' : Shared} (hs : Sound s) {op : ShareOp}
    (hs' : shareStep cfg s op = some s') : Sound s' := by
  cases op with
  | post rows => exact Sound.post hs'
  | update type objects => exact hs.update hs'

theorem call_right (hset : cfg.setupChildern = true) {s : Shared} (hs : Sound s) {op : ShareOp}
    (hfits : CallFits cfg s op) : CallRight cfg s op := by
  cases op with
  | post rows => exact post_right hset rows hfits
  | update type objects => exact update_right hset hs hfits

/-- In every run whose calls fit, every call that leaves a forest gives it its shares. -/
theorem run_normalized (hset : cfg.setupChildern = true) (ops : List ShareOp)
    (hfits : Guarded (shareStep cfg) (CallFits cfg) Shared.start ops) :
    Guarded (shareStep cfg) (CallRight cfg) Shared.start ops :=
  hfits.imp (fun _ _ _ hs hs' => hs.step hs') (fun _ _ hs => call_right hset hs) sound_start

end Runs

/-! ### Small runs -/

instance (nodes : List Node) (sharesRaw : Nat → UInt32) : Decidable (TotalsFit nodes sharesRaw) :=
  inferInstanceAs (Decidable (∀ o ∈ nodes, _ < _))

/-- A forest, by a rank that falls from children to parents. -/
theorem isForest_of_rank {nodes : List Node} {sharesRaw : Nat → UInt32} (rank : Nat → Nat)
    (hroot : (nodes.filter (·.parentId = 0)).length = 1)
    (hnamed : ∀ n ∈ nodes, n.parentId ≠ 0 → ∃ p ∈ nodes, p.id = n.parentId)
    (hrank : ∀ n ∈ nodes, (parentOf nodes n).all (fun b => rank b < rank n.addr) = true)
    (hpositive : ∀ o ∈ nodes, childrenOf nodes o ≠ [] → 0 < total nodes sharesRaw o) :
    IsForest nodes sharesRaw := by
  refine ⟨hroot, hnamed, acyclic_of_rank rank fun a b hab => ?_, hpositive⟩
  obtain ⟨n, hn, hb⟩ := Option.bind_eq_some_iff.mp hab
  have haddr : n.addr = a := by simpa using List.find?_some hn
  have hall := hrank n (List.mem_of_find?_eq_some hn)
  rw [hb, haddr] at hall
  exact of_decide_eq_true hall

/-- The children of every record have together what it has. -/
def SharesSum (nodes : List Node) (norm : Nat → Option ℚ) : Prop :=
  ∀ o ∈ nodes, childrenOf nodes o ≠ [] →
    ((childrenOf nodes o).map fun a => (norm a).getD 0).sum = (norm o.addr).getD 0

instance (nodes : List Node) (norm : Nat → Option ℚ) : Decidable (SharesSum nodes norm) :=
  inferInstanceAs (Decidable (∀ o ∈ nodes, _ → _ = _))

theorem Normalized.sharesSum {nodes : List Node} {norm : Nat → Option ℚ}
    (h : Normalized nodes norm) : SharesSum nodes norm := by
  obtain ⟨v, hv, -, hsum⟩ := h
  intro o ho hne
  rw [hv o ho, Option.getD_some, ← hsum o ho hne]
  refine congrArg _ (List.map_congr_left fun a ha => ?_)
  obtain ⟨n, hn, rfl⟩ := List.mem_map.mp ha
  rw [hv n (List.mem_filter.mp hn).1, Option.getD_some]

/-- The children are kept. -/
def treeConfig : Config := { plainConfig with setupChildern := true }

/-- A row with its `shares_raw`. -/
def shareObject (id parentId sharesRaw : UInt32) : AssocObject :=
  { plainObject id parentId none with sharesRaw }

/-- A root with `n` shares for each of three accounts. -/
def threeRows (n : UInt32) : List AssocObject :=
  [shareObject 1 0 1, shareObject 2 1 n, shareObject 3 1 n, shareObject 4 1 n]

theorem threeRows_forest {n : UInt32} (hn : n = 1 ∨ n = 2000000000) :
    (ShareOp.post (threeRows n)).LeavesForest treeConfig Shared.start := by
  refine ⟨trivial, isForest_of_rank id ?_ ?_ ?_ ?_⟩ <;>
  · rcases hn with rfl | rfl <;> decide +kernel

/-- Three accounts with one share each, and then two shares for the first. -/
theorem run_normalized_three :
    (ShareOp.post (threeRows 1)).LeavesForest treeConfig Shared.start ∧
      Guarded (shareStep treeConfig) (CallRight treeConfig) Shared.start
        [.post (threeRows 1), .update .modify [shareObject 2 0 2]] := by
  refine ⟨threeRows_forest (Or.inl rfl), run_normalized rfl _ ⟨fun _ => ?_, fun s hs => ?_⟩⟩
  · exact ⟨by decide +kernel, by decide +kernel⟩
  · refine ⟨fun _ => ?_, fun _ _ => trivial⟩
    have hall : (shareStep treeConfig Shared.start (.post (threeRows 1))).all (fun s =>
        let op := ShareOp.update .modify [shareObject 2 0 2]
        TotalsFit ((op.list treeConfig s).1.map Assoc.node) (op.list treeConfig s).2 ∧
          ∀ r ∈ (op.list treeConfig s).1,
            passedOver (op.root s) (op.list treeConfig s).1 r = true → r.parentId = 0) = true := by
      decide +kernel
    rw [hs, Option.all_some] at hall
    exact of_decide_eq_true hall

/-- Three accounts with 2000000000 shares each: their total wraps to 1705032704. -/
theorem not_run_normalized_wrapped :
    ¬Guarded (shareStep treeConfig) (CallRight treeConfig) Shared.start
      [.post (threeRows 2000000000)] := by
  rintro ⟨hright, -⟩
  obtain ⟨s', hs', recs, hrecs, hnorm⟩ := hright (threeRows_forest (Or.inr rfl))
  have hbad : (shareStep treeConfig Shared.start (.post (threeRows 2000000000))).any (fun s =>
      s.family.mgr.assocList.any fun recs => ¬SharesSum (recs.map Assoc.node) s.sharesNorm) =
        true := by decide +kernel
  rw [hs', Option.any_some, hrecs, Option.any_some] at hbad
  exact of_decide_eq_true hbad hnorm.sharesSum

end Slurm.AssocMgr
