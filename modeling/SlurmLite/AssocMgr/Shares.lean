import SlurmLite.AssocMgr.Parents
import SlurmLite.Base.Chains
import SlurmLite.Base.Sums

/-!
# Normalised shares

`shares_norm` as `_post_association_list` and `assoc_mgr_update_assocs` leave it, in exact
arithmetic: `level_shares` is summed over each list of children, and the share of a record is
the product of `shares_raw / level_shares` up to the root.

* **The tree** (`Node`, `IsForest`, `Normalized`): what the ids of a list say, and what the
  shares should be.
* **Levels and walks** (`setLevels`, `normalizeAssocShares`): the loops, beside those that set
  pointers and children.
* **Lists** (`normalized_of_right`): right pointers and children give right shares, where no sum
  of siblings wraps.
-/

namespace Slurm.AssocMgr

open Base.Run Base.Sums Base.Chains

/-! ## The tree -/

/-- What the tree is made of. -/
structure Node where
  addr : Nat
  id : UInt32
  parentId : UInt32
  deriving DecidableEq

/-- The record without the rest. -/
def Assoc.node (r : Assoc) : Node := ⟨r.addr, r.id, r.parentId⟩

/-- The association that the parent id of `n` names. -/
def parentOf (nodes : List Node) (n : Node) : Option Nat :=
  if n.parentId = 0 then none else (nodes.find? (·.id = n.parentId)).map (·.addr)

/-- The parent of the association at `a`. -/
def parentAt (nodes : List Node) (a : Nat) : Option Nat :=
  (nodes.find? (·.addr = a)).bind (parentOf nodes)

/-- The associations with the parent `o`. -/
def childrenOf (nodes : List Node) (o : Node) : List Nat :=
  (nodes.filter fun n => parentOf nodes n = some o.addr).map (·.addr)

/-- The `shares_raw` of the children of `o`, added up. -/
def total (nodes : List Node) (sharesRaw : Nat → UInt32) (o : Node) : Nat :=
  ((childrenOf nodes o).map fun a => (sharesRaw a).toNat).sum

/-- One root, parents that are listed, no cycles, and a positive total for all siblings. -/
structure IsForest (nodes : List Node) (sharesRaw : Nat → UInt32) : Prop where
  root : (nodes.filter (·.parentId = 0)).length = 1
  named : ∀ n ∈ nodes, n.parentId ≠ 0 → ∃ p ∈ nodes, p.id = n.parentId
  acyclic : Acyclic (parentAt nodes)
  positive : ∀ o ∈ nodes, childrenOf nodes o ≠ [] → 0 < total nodes sharesRaw o

/-- The root has all, and the children of an association have together what it has. -/
def Normalized (nodes : List Node) (sharesNorm : Nat → Option ℚ) : Prop :=
  ∃ v : Nat → ℚ, (∀ n ∈ nodes, sharesNorm n.addr = some (v n.addr)) ∧
    (∀ n ∈ nodes, n.parentId = 0 → v n.addr = 1) ∧
    ∀ o ∈ nodes, childrenOf nodes o ≠ [] → ((childrenOf nodes o).map v).sum = v o.addr

/-- No total of siblings is beyond 32 bits. -/
def TotalsFit (nodes : List Node) (sharesRaw : Nat → UInt32) : Prop :=
  ∀ o ∈ nodes, total nodes sharesRaw o < 4294967296

/-! ## Levels and walks -/

/-- The manager with the shares: `shares_raw`, `level_shares` and `shares_norm` of the record at
an address. A share that was divided by zero is `none`. -/
structure Shared where
  family : Family
  sharesRaw : Nat → UInt32
  levelShares : Nat → UInt32
  sharesNorm : Nat → Option ℚ

/-- One list of children: `count` is a counter of 32 bits. -/
def setLevel (children : List Nat) (sharesRaw levelShares : Nat → UInt32) : Nat → UInt32 :=
  let count := children.foldl (fun count a => count + sharesRaw a) 0
  children.foldl (fun level a => Function.update level a count) levelShares

/-- The loop that sets the shares on each level. -/
def setLevels (recs : List Assoc) (childern : Nat → List Nat)
    (sharesRaw levelShares : Nat → UInt32) : Nat → UInt32 :=
  recs.foldl (fun level r =>
    if childern r.addr = [] then level else setLevel (childern r.addr) sharesRaw level) levelShares

/-- The walk of `_normalize_assoc_shares`: `norm` is the share so far, `a` where the walk is. -/
def normWalk (recs : List Assoc) (sharesRaw levelShares : Nat → UInt32) :
    Nat → Nat → ℚ → Option ℚ
  | 0, _, _ => none
  | n + 1, a, norm =>
    (recs.find? (·.addr = a)).bind fun r =>
      match r.parentAssocPtr with
      | none => some norm
      | some p =>
        if levelShares a = 0 then none
        else normWalk recs sharesRaw levelShares n p
          (norm * ((sharesRaw a).toNat / (levelShares a).toNat))

/-- `_normalize_assoc_shares`. -/
def normalizeAssocShares (recs : List Assoc) (sharesRaw levelShares : Nat → UInt32) (a : Nat) :
    Option ℚ :=
  normWalk recs sharesRaw levelShares (recs.length + 1) a 1

/-- The loop that normalises the shares of `recs`; `kept` are records that are still there. -/
def normalizeAll (recs kept : List Assoc) (sharesRaw levelShares : Nat → UInt32)
    (sharesNorm : Nat → Option ℚ) (a : Nat) : Option ℚ :=
  if a ∈ recs.map (·.addr) then normalizeAssocShares (recs ++ kept) sharesRaw levelShares a
  else sharesNorm a

/-! ## Calls -/

/-- The lists of children of a list that has none yet. -/
def postChildern (cfg : Config) (recs : List Assoc) (childern : Nat → List Nat) :
    Nat → List Nat :=
  (recs.foldl (fun s r => (setAssocParent cfg recs s r).2) (flushed recs childern)).childern

/-- The `shares_raw` of the list that the storage gives. -/
def freshRaw (m : Mgr) (rows : List AssocObject) (sharesRaw : Nat → UInt32) (a : Nat) : UInt32 :=
  if a < m.nextAddr then sharesRaw a else ((rows[a - m.nextAddr]?).map (·.sharesRaw)).getD 0

/-- A list from the storage, and `_post_association_list` on it. -/
def postShares (cfg : Config) (s : Shared) (rows : List AssocObject) : Option Shared :=
  let m := s.family.mgr
  let fresh := freshList m rows
  (postAssociationList cfg fresh m.rootAssoc).map fun (recs, root) =>
    let childern := postChildern cfg fresh s.family.childern
    let sharesRaw := freshRaw m rows s.sharesRaw
    let family : Family := ⟨⟨some recs, root, m.nextAddr + rows.length⟩, childern⟩
    if cfg.setupChildern then
      let levelShares := setLevels recs childern sharesRaw s.levelShares
      { family, sharesRaw, levelShares
        sharesNorm := normalizeAll recs [] sharesRaw levelShares s.sharesNorm }
    else { s with family, sharesRaw }

/-- What an object does to `shares_raw`. -/
def applyRaw (cfg : Config) (type : UpdateType) (p : Pass) (sharesRaw : Nat → UInt32)
    (o : AssocObject) : Nat → UInt32 :=
  if o.cluster.isSome && cfg.clusterName.isSome && differs o.cluster cfg.clusterName then sharesRaw
  else
    match type, p.recs.find? (cfg.finds o) with
    | .modify, some r =>
      if o.sharesRaw ≠ noVal then Function.update sharesRaw r.addr o.sharesRaw else sharesRaw
    | .add, none => Function.update sharesRaw p.nextAddr o.sharesRaw
    | _, _ => sharesRaw

/-- One object, with `shares_raw`. -/
def applyShared (cfg : Config) (type : UpdateType) (s : Pass × (Nat → UInt32)) (o : AssocObject) :
    Pass × (Nat → UInt32) :=
  (applyObject cfg type s.1 o, applyRaw cfg type s.1 s.2 o)

/-- The loop over the objects, with `shares_raw`. -/
def applyAll (cfg : Config) (s : Shared) (recs : List Assoc) (type : UpdateType)
    (objects : List AssocObject) : Pass × (Nat → UInt32) :=
  objects.foldl (applyShared cfg type)
    ({ recs, kept := [], nextAddr := s.family.mgr.nextAddr, parentsChanged := false }, s.sharesRaw)

/-- `assoc_mgr_update_assocs` with the shares. -/
def updateShares (cfg : Config) (s : Shared) (type : UpdateType) (objects : List AssocObject) :
    Option Shared :=
  (updateFamily cfg s.family type objects).map fun family =>
    match s.family.mgr.assocList with
    | none => { s with family }
    | some recs =>
      let (p, sharesRaw) := applyAll cfg s recs type objects
      if p.parentsChanged && cfg.setupChildern then
        let recs' := family.mgr.assocList.getD []
        let levelShares := setLevels recs' family.childern sharesRaw s.levelShares
        { family, sharesRaw, levelShares
          sharesNorm := normalizeAll recs' p.kept sharesRaw levelShares s.sharesNorm }
      else { s with family, sharesRaw }

/-! ## Nodes and records -/

theorem parentOf_node (recs : List Assoc) (r : Assoc) :
    parentOf (recs.map Assoc.node) r.node = wanted recs r := by
  unfold parentOf wanted
  rw [List.find?_map, Option.map_map]
  rfl

theorem parentAt_node {recs : List Assoc} (haddrs : (recs.map (·.addr)).Nodup) {r : Assoc}
    (hr : r ∈ recs) : parentAt (recs.map Assoc.node) r.addr = wanted recs r := by
  have hcomp : (fun n : Node => decide (n.addr = r.addr)) ∘ Assoc.node =
      fun s : Assoc => decide (s.addr = r.addr) := rfl
  rw [parentAt, List.find?_map, hcomp, find_of_key haddrs hr, Option.map_some, Option.bind_some,
    parentOf_node]

theorem childrenOf_node (recs : List Assoc) (o : Assoc) :
    childrenOf (recs.map Assoc.node) o.node =
      (recs.filter fun r => wanted recs r = some o.addr).map (·.addr) := by
  unfold childrenOf
  rw [List.filter_map, List.map_map]
  have hcomp : (fun n => decide (parentOf (recs.map Assoc.node) n = some o.node.addr)) ∘
      Assoc.node = fun r => decide (wanted recs r = some o.addr) := by
    funext r
    rw [Function.comp_apply, parentOf_node]
    rfl
  rw [hcomp]
  rfl

theorem wanted_mem {recs : List Assoc} {r : Assoc} {a : Nat} (h : wanted recs r = some a) :
    ∃ p ∈ recs, p.addr = a ∧ p.id = r.parentId := by
  unfold wanted at h
  split at h
  · cases h
  · obtain ⟨p, hp, rfl⟩ := Option.map_eq_some_iff.mp h
    exact ⟨p, List.mem_of_find?_eq_some hp, rfl, by simpa using List.find?_some hp⟩

/-- The parents of a list are in the list. -/
theorem parentAt_closed {recs : List Assoc} (haddrs : (recs.map (·.addr)).Nodup) :
    ∀ a ∈ recs.map (·.addr), ∀ b, parentAt (recs.map Assoc.node) a = some b →
      b ∈ recs.map (·.addr) := by
  intro a ha b hb
  obtain ⟨r, hr, rfl⟩ := List.mem_map.mp ha
  rw [parentAt_node haddrs hr] at hb
  obtain ⟨p, hp, rfl, -⟩ := wanted_mem hb
  exact List.mem_map_of_mem hp

/-! ## Levels -/

theorem foldl_update (children : List Nat) (k : UInt32) (level : Nat → UInt32) (c : Nat) :
    children.foldl (fun level a => Function.update level a k) level c =
      if c ∈ children then k else level c := by
  induction children generalizing level with
  | nil => rfl
  | cons a children ih =>
    rw [List.foldl_cons, ih]
    by_cases hc : c ∈ children
    · rw [if_pos hc, if_pos (List.mem_cons_of_mem a hc)]
    · rw [if_neg hc]
      by_cases ha : c = a
      · rw [ha, Function.update_self, if_pos List.mem_cons_self]
      · rw [Function.update_of_ne ha, if_neg (by simp [ha, hc])]

theorem setLevel_apply (children : List Nat) (sharesRaw level : Nat → UInt32) (c : Nat) :
    setLevel children sharesRaw level c =
      if c ∈ children then (children.map sharesRaw).sum else level c := by
  have hcount : children.foldl (fun count a => count + sharesRaw a) 0 =
      (children.map sharesRaw).sum := by
    have hadds := @foldl_adds _ _ _ _ (fun count a => count + sharesRaw a) id sharesRaw
      (fun _ _ => rfl) 0 children
    exact hadds.trans (zero_add _)
  rw [setLevel, hcount, foldl_update]

theorem setLevels_of_not_mem {recs : List Assoc} {childern : Nat → List Nat} {c : Nat}
    (h : ∀ o ∈ recs, c ∉ childern o.addr) (sharesRaw level : Nat → UInt32) :
    setLevels recs childern sharesRaw level c = level c := by
  induction recs generalizing level with
  | nil => rfl
  | cons r recs ih =>
    obtain ⟨hr, h⟩ := List.forall_mem_cons.mp h
    rw [setLevels, List.foldl_cons]
    refine (ih h _).trans ?_
    split
    · rfl
    · rw [setLevel_apply, if_neg hr]

/-- The level of a child is the sum over the list that it is in. -/
theorem setLevels_of_mem {recs : List Assoc} {childern : Nat → List Nat} {c : Nat} {k : UInt32}
    {sharesRaw : Nat → UInt32} (hex : ∃ o ∈ recs, c ∈ childern o.addr)
    (hall : ∀ o ∈ recs, c ∈ childern o.addr → ((childern o.addr).map sharesRaw).sum = k)
    (level : Nat → UInt32) : setLevels recs childern sharesRaw level c = k := by
  induction recs generalizing level with
  | nil =>
    obtain ⟨o, ho, -⟩ := hex
    exact absurd ho List.not_mem_nil
  | cons r recs ih =>
    obtain ⟨hr, hall⟩ := List.forall_mem_cons.mp hall
    rw [setLevels, List.foldl_cons]
    -- the last list that `c` is in decides, and all of them have the same sum
    by_cases hlater : ∃ o ∈ recs, c ∈ childern o.addr
    · exact ih hlater hall _
    · have hmem : c ∈ childern r.addr := by
        obtain ⟨o, ho, hc⟩ := hex
        rcases List.mem_cons.mp ho with rfl | ho
        · exact hc
        · exact absurd ⟨o, ho, hc⟩ hlater
      have hnone : ∀ o ∈ recs, c ∉ childern o.addr := fun o ho hc => hlater ⟨o, ho, hc⟩
      refine (setLevels_of_not_mem hnone sharesRaw _).trans ?_
      rw [if_neg (List.ne_nil_of_mem hmem), setLevel_apply, if_pos hmem, hr hmem]

/-! ## Walks -/

section

variable {recs : List Assoc} {sharesRaw levelShares : Nat → UInt32}

theorem normWalk_scale (n a : Nat) (x : ℚ) :
    normWalk recs sharesRaw levelShares n a x =
      (normWalk recs sharesRaw levelShares n a 1).map (x * ·) := by
  induction n generalizing a x with
  | zero => rfl
  | succ n ih =>
    rw [normWalk, normWalk]
    cases recs.find? (·.addr = a) with
    | none => rfl
    | some r =>
      rw [Option.bind_some, Option.bind_some]
      cases r.parentAssocPtr with
      | none => simp
      | some p =>
        by_cases hzero : levelShares a = 0
        · simp only [if_pos hzero]
          rfl
        · simp only [if_neg hzero]
          rw [ih p (x * _), ih p (1 * _), Option.map_map]
          -- the share so far is a factor that the rest of the walk keeps
          congr 1
          funext y
          simp only [Function.comp_apply]
          ring

theorem normWalk_mono {n m a : Nat} {x y : ℚ} (hle : n ≤ m)
    (h : normWalk recs sharesRaw levelShares n a x = some y) :
    normWalk recs sharesRaw levelShares m a x = some y := by
  induction n generalizing m a x with
  | zero => cases h
  | succ n ih =>
    obtain ⟨m, rfl⟩ := Nat.exists_eq_succ_of_ne_zero (by omega : m ≠ 0)
    rw [normWalk] at h ⊢
    obtain ⟨r, hr, h⟩ := Option.bind_eq_some_iff.mp h
    rw [hr, Option.bind_some]
    cases hptr : r.parentAssocPtr with
    | none =>
      rw [hptr] at h
      exact h
    | some p =>
      rw [hptr] at h
      simp only at h ⊢
      split at h
      · cases h
      next hzero =>
        rw [if_neg hzero]
        exact ih (Nat.le_of_succ_le_succ hle) h

/-- A walk that the parents end is defined where no level on it is zero. -/
theorem isSome_normWalk
    (hlevel : ∀ r ∈ recs, r.parentAssocPtr.isSome → levelShares r.addr ≠ 0) {n a : Nat}
    (h : (climb recs n (some a)).isSome) (x : ℚ) :
    (normWalk recs sharesRaw levelShares n a x).isSome := by
  induction n generalizing a x with
  | zero => cases h
  | succ n ih =>
    rw [climb] at h
    rw [normWalk]
    cases hr : recs.find? (·.addr = a) with
    | none =>
      rw [hr] at h
      cases h
    | some r =>
      rw [hr, Option.bind_some, Option.isSome_map] at h
      rw [Option.bind_some]
      have haddr : r.addr = a := by simpa using List.find?_some hr
      cases hptr : r.parentAssocPtr with
      | none => rfl
      | some p =>
        rw [hptr] at h
        have hne : levelShares a ≠ 0 := by
          rw [← haddr]
          exact hlevel r (List.mem_of_find?_eq_some hr) (by rw [hptr]; rfl)
        simp only [if_neg hne]
        exact ih h _

/-- A walk from a record of a closed list stays in it. -/
theorem normWalk_append (hclosed : Closed recs) (kept : List Assoc) (n : Nat) {a : Nat}
    (ha : a ∈ recs.map (·.addr)) (x : ℚ) :
    normWalk (recs ++ kept) sharesRaw levelShares n a x =
      normWalk recs sharesRaw levelShares n a x := by
  induction n generalizing a x with
  | zero => rfl
  | succ n ih =>
    rw [normWalk, normWalk, find_append_of_mem ha]
    cases hr : recs.find? (·.addr = a) with
    | none => rfl
    | some r =>
      rw [Option.bind_some, Option.bind_some]
      cases hptr : r.parentAssocPtr with
      | none => rfl
      | some p =>
        dsimp only
        rw [ih (hclosed r (List.mem_of_find?_eq_some hr) p hptr)]

end

/-! ## Lists -/

section

variable {recs kept : List Assoc} {childern : Nat → List Nat} {sharesRaw : Nat → UInt32}

/-- Right children are those of the tree. -/
theorem childern_perm (hptr : ParentsRight recs) (hchildern : ChildernRight recs childern)
    {o : Assoc} (ho : o ∈ recs) :
    (childern o.addr).Perm (childrenOf (recs.map Assoc.node) o.node) := by
  have hfilter : recs.filter (·.parentAssocPtr = some o.addr) =
      recs.filter fun r => wanted recs r = some o.addr :=
    List.filter_congr fun r hr => by rw [hptr r hr]
  rw [childrenOf_node, ← hfilter]
  exact hchildern o ho

theorem mem_childrenOf (haddrs : (recs.map (·.addr)).Nodup) {r o : Assoc} (hr : r ∈ recs) :
    r.addr ∈ childrenOf (recs.map Assoc.node) o.node ↔ wanted recs r = some o.addr := by
  rw [childrenOf_node]
  constructor
  · intro h
    obtain ⟨s, hs, heq⟩ := List.mem_map.mp h
    obtain ⟨hs, hwanted⟩ := List.mem_filter.mp hs
    rw [eq_of_key haddrs hs hr heq] at hwanted
    exact of_decide_eq_true hwanted
  · exact fun h => List.mem_map.mpr ⟨r, List.mem_filter.mpr ⟨hr, decide_eq_true h⟩, rfl⟩

/-- Where no total wraps, the level of a child is the total of its siblings. -/
theorem level_of_child (haddrs : (recs.map (·.addr)).Nodup) (hptr : ParentsRight recs)
    (hchildern : ChildernRight recs childern) (hfits : TotalsFit (recs.map Assoc.node) sharesRaw)
    {r o : Assoc} (hr : r ∈ recs) (ho : o ∈ recs) (hparent : wanted recs r = some o.addr)
    (level : Nat → UInt32) :
    (setLevels recs childern sharesRaw level r.addr).toNat =
      total (recs.map Assoc.node) sharesRaw o.node := by
  have hmem : ∀ s ∈ recs, r.addr ∈ childern s.addr ↔ wanted recs r = some s.addr := by
    intro s hs
    rw [(childern_perm hptr hchildern hs).mem_iff, mem_childrenOf haddrs hr]
  have hlevel : setLevels recs childern sharesRaw level r.addr =
      ((childern o.addr).map sharesRaw).sum := by
    refine setLevels_of_mem ⟨o, ho, (hmem o ho).mpr hparent⟩ (fun s hs hs' => ?_) level
    have heq : s.addr = o.addr :=
      Option.some.inj (((hmem s hs).mp hs').symm.trans hparent)
    rw [heq]
  rw [hlevel, toNat_sum, ((childern_perm hptr hchildern ho).map _).sum_eq]
  exact Nat.mod_eq_of_lt (hfits _ (List.mem_map_of_mem ho))

/-- The level of a record with a parent is not zero. -/
theorem level_ne_zero (haddrs : (recs.map (·.addr)).Nodup) (hptr : ParentsRight recs)
    (hchildern : ChildernRight recs childern)
    (hforest : IsForest (recs.map Assoc.node) sharesRaw)
    (hfits : TotalsFit (recs.map Assoc.node) sharesRaw) (level : Nat → UInt32) :
    ∀ r ∈ recs, r.parentAssocPtr.isSome →
      setLevels recs childern sharesRaw level r.addr ≠ 0 := by
  intro r hr hsome hzero
  obtain ⟨a, ha⟩ := Option.isSome_iff_exists.mp hsome
  have hparent := (hptr r hr).symm.trans ha
  obtain ⟨o, ho, rfl, -⟩ := wanted_mem hparent
  have hchild : r.addr ∈ childrenOf (recs.map Assoc.node) o.node :=
    (mem_childrenOf haddrs hr).mpr hparent
  have hpos := hforest.positive _ (List.mem_map_of_mem ho) (List.ne_nil_of_mem hchild)
  rw [← level_of_child haddrs hptr hchildern hfits hr ho hparent level, hzero] at hpos
  exact Nat.lt_irrefl 0 hpos

/-- In a forest every walk ends. -/
theorem exists_climb (haddrs : (recs.map (·.addr)).Nodup) (hptr : ParentsRight recs)
    (hacyclic : Acyclic (parentAt (recs.map Assoc.node))) :
    ∀ a ∈ recs.map (·.addr), ∃ n, (climb recs n (some a)).isSome := by
  -- the walk from a record is one step longer than that from its parent
  refine chain_induction hacyclic (parentAt_closed haddrs) fun a ha ih => ?_
  obtain ⟨r, hr, rfl⟩ := List.mem_map.mp ha
  have hfind := find_of_key haddrs hr
  rw [parentAt_node haddrs hr, ← hptr r hr] at ih
  cases hparent : r.parentAssocPtr with
  | none =>
    refine ⟨1, ?_⟩
    rw [climb_some hfind (by rw [hparent]; exact climb_none recs 0)]
    rfl
  | some b =>
    obtain ⟨n, hn⟩ := ih b hparent
    obtain ⟨line, hline⟩ := Option.isSome_iff_exists.mp hn
    refine ⟨n + 1, ?_⟩
    rw [climb_some hfind (by rw [hparent]; exact hline)]
    rfl

theorem closed_of_right (hptr : ParentsRight recs) : Closed recs := by
  intro r hr a ha
  rw [hptr r hr] at ha
  obtain ⟨p, hp, rfl, -⟩ := wanted_mem ha
  exact List.mem_map_of_mem hp

variable {level : Nat → UInt32} {norm : Nat → Option ℚ}

theorem normalizeAll_of_mem (hclosed : Closed recs) {r : Assoc} (hr : r ∈ recs) :
    normalizeAll recs kept sharesRaw level norm r.addr =
      normWalk recs sharesRaw level ((recs ++ kept).length + 1) r.addr 1 := by
  have hmem : r.addr ∈ recs.map (·.addr) := List.mem_map_of_mem hr
  rw [normalizeAll, if_pos hmem, normalizeAssocShares, normWalk_append hclosed kept _ hmem]

theorem share_of_root (haddrs : (recs.map (·.addr)).Nodup) (hclosed : Closed recs) {r : Assoc}
    (hr : r ∈ recs) (hnone : r.parentAssocPtr = none) :
    normalizeAll recs kept sharesRaw level norm r.addr = some 1 := by
  rw [normalizeAll_of_mem hclosed hr, normWalk, find_of_key haddrs hr, Option.bind_some, hnone]

/-- Where the walks end and no level is zero, every record has a share. -/
theorem exists_share (hclosed : Closed recs) {r : Assoc} (hr : r ∈ recs)
    (hends : ∃ n, (climb recs n (some r.addr)).isSome)
    (hlevel : ∀ s ∈ recs, s.parentAssocPtr.isSome → level s.addr ≠ 0) :
    ∃ y, normalizeAll recs kept sharesRaw level norm r.addr = some y ∧
      normWalk recs sharesRaw level (recs ++ kept).length r.addr 1 = some y := by
  have hle : recs.length ≤ (recs ++ kept).length := by
    rw [List.length_append]
    exact Nat.le_add_right _ _
  obtain ⟨n, hn⟩ := hends
  have hsome : (normWalk recs sharesRaw level (recs ++ kept).length r.addr 1).isSome :=
    isSome_normWalk hlevel (climb_fuel hle hn) 1
  obtain ⟨y, hy⟩ := Option.isSome_iff_exists.mp hsome
  refine ⟨y, ?_, hy⟩
  rw [normalizeAll_of_mem hclosed hr]
  exact normWalk_mono (Nat.le_succ _) hy

/-- The share of a child is its part of the share of its parent. -/
theorem share_of_child (haddrs : (recs.map (·.addr)).Nodup) (hclosed : Closed recs)
    {r p : Assoc} (hr : r ∈ recs) (hparent : r.parentAssocPtr = some p.addr)
    (hne : level r.addr ≠ 0) {y : ℚ}
    (hwalk : normWalk recs sharesRaw level (recs ++ kept).length p.addr 1 = some y) :
    normalizeAll recs kept sharesRaw level norm r.addr =
      some ((sharesRaw r.addr).toNat / (level r.addr).toNat * y) := by
  rw [normalizeAll_of_mem hclosed hr, normWalk, find_of_key haddrs hr, Option.bind_some, hparent]
  simp only [if_neg hne]
  rw [normWalk_scale, hwalk, Option.map_some, one_mul]

/-- Right pointers and right children make right shares, where no total wraps. -/
theorem normalized_of_right (haddrs : (recs.map (·.addr)).Nodup) (hptr : ParentsRight recs)
    (hchildern : ChildernRight recs childern)
    (hforest : IsForest (recs.map Assoc.node) sharesRaw)
    (hfits : TotalsFit (recs.map Assoc.node) sharesRaw) (kept : List Assoc) (level : Nat → UInt32)
    (norm : Nat → Option ℚ) :
    Normalized (recs.map Assoc.node)
      (normalizeAll recs kept sharesRaw (setLevels recs childern sharesRaw level) norm) := by
  have hclosed := closed_of_right hptr
  have hends := exists_climb haddrs hptr hforest.acyclic
  have hlevel : ∀ r ∈ recs, ∀ o ∈ recs, r.parentAssocPtr = some o.addr →
      (setLevels recs childern sharesRaw level r.addr).toNat =
        total (recs.map Assoc.node) sharesRaw o.node := by
    intro r hr o ho hparent
    rw [hptr r hr] at hparent
    exact level_of_child haddrs hptr hchildern hfits hr ho hparent level
  have hne := level_ne_zero haddrs hptr hchildern hforest hfits level
  -- what is left needs of the levels only that each is the total of the siblings
  generalize setLevels recs childern sharesRaw level = level at hlevel hne
  have hshare : ∀ r ∈ recs, ∃ y,
      normalizeAll recs kept sharesRaw level norm r.addr = some y ∧
        normWalk recs sharesRaw level (recs ++ kept).length r.addr 1 = some y :=
    fun r hr => exists_share hclosed hr (hends _ (List.mem_map_of_mem hr)) hne
  refine ⟨fun a => (normalizeAll recs kept sharesRaw level norm a).getD 0, ?_, ?_, ?_⟩
  · rw [List.forall_mem_map]
    intro r hr
    obtain ⟨y, hy, -⟩ := hshare r hr
    show normalizeAll recs kept sharesRaw level norm r.addr =
      some ((normalizeAll recs kept sharesRaw level norm r.addr).getD 0)
    rw [hy, Option.getD_some]
  · rw [List.forall_mem_map]
    intro r hr hroot
    have hnone : r.parentAssocPtr = none := (hptr r hr).trans (if_pos hroot)
    show (normalizeAll recs kept sharesRaw level norm r.addr).getD 0 = 1
    rw [share_of_root haddrs hclosed hr hnone, Option.getD_some]
  · rw [List.forall_mem_map]
    intro o ho hchildren
    obtain ⟨y, hy, hwalk⟩ := hshare o ho
    have hpos := hforest.positive _ (List.mem_map_of_mem ho) hchildren
    show _ = (normalizeAll recs kept sharesRaw level norm o.addr).getD 0
    rw [hy, Option.getD_some]
    -- the weights of the children are their `shares_raw`, and the level is their sum
    have hsum : (((childrenOf (recs.map Assoc.node) o.node).map
        fun a => ((sharesRaw a).toNat : ℚ)).sum) =
          (total (recs.map Assoc.node) sharesRaw o.node : ℚ) := by
      rw [total, Nat.cast_list_sum, List.map_map]
      rfl
    refine sum_shares (w := fun a => ((sharesRaw a).toNat : ℚ)) (fun c hc => ?_) ?_
    · rw [childrenOf_node] at hc
      obtain ⟨r, hr, rfl⟩ := List.mem_map.mp hc
      obtain ⟨hr, hparent⟩ := List.mem_filter.mp hr
      have hparent : r.parentAssocPtr = some o.addr :=
        (hptr r hr).trans (of_decide_eq_true hparent)
      show (normalizeAll recs kept sharesRaw level norm r.addr).getD 0 = _
      rw [share_of_child haddrs hclosed hr hparent (hne r hr (by rw [hparent]; rfl)) hwalk,
        Option.getD_some, hlevel r hr o ho hparent, hsum]
    · rw [hsum]
      exact_mod_cast hpos.ne'

end

end Slurm.AssocMgr
