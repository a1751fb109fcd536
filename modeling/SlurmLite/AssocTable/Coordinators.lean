import SlurmLite.AssocTable.Move

/-!
# Coordinators of accounts

A user who coordinates an account also coordinates the accounts below it.
`_get_account_coords` looks for the coordinators of one account, upwards in the
nested intervals of the association table, and `_get_user_coords` for the accounts
of one user, downwards.

* **The two lists** (`accountCoords`, `userCoords`): query by query.
* **What they are for** (`Coordinates`): a row for the account or for one above it,
  nothing flagged deleted on the way.
* **Agreement** (`coords_agree_iff`): exactly when nobody has rows for two accounts
  one above the other, and no deleted row adds an account.
-/

namespace Slurm.AssocTable

open Base.NestedSets

/-- A row of `acct_coord_table`. -/
structure CoordRow where
  user : String
  acct : String
  deleted : Nat := 0
deriving DecidableEq

/-- An `acct_coord_rec_t`: one name of a list, and whether it has a row of its own. -/
structure Coord where
  name : String
  direct : Bool
deriving DecidableEq

def names (list : List Coord) : List String := list.map Coord.name

/-! ## The two lists -/

/-- The condition of the second query of `_get_account_coords` on `t0`, `t1`, `t2`. -/
def coordAbove (acct : String) (t0 : CoordRow) (t1 t2 : Row) : Prop :=
  t0.acct = t1.acct ∧ t1.lft < t2.lft ∧ t1.rgt > t2.lft ∧ t1.user = "" ∧ t2.acct = acct ∧
    t1.acct ≠ acct ∧ t0.deleted = 0

instance (acct : String) (t0 : CoordRow) (t1 t2 : Row) : Decidable (coordAbove acct t0 t1 t2) :=
  inferInstanceAs (Decidable (_ ∧ _ ∧ _ ∧ _ ∧ _ ∧ _ ∧ _))

/-- `_get_account_coords`. -/
def accountCoords (acct : String) (coords : List CoordRow) (t : Table) : List Coord :=
  let direct := (coords.filter fun c => c.acct = acct ∧ c.deleted = 0).map CoordRow.user
  let above := (coords.filter fun t0 => ∃ t1 ∈ t, ∃ t2 ∈ t, coordAbove acct t0 t1 t2).map
    CoordRow.user
  direct.map (fun user => ⟨user, true⟩) ++ above.dedup.map fun user => ⟨user, false⟩

/-- The part of the second query of `_get_user_coords` for one account of the user. -/
def subAccount (acct : String) (t1 t2 : Row) : Prop :=
  t2.acct = acct ∧ (t2.lft ≤ t1.lft ∧ t1.lft ≤ t2.rgt) ∧ t1.user = "" ∧ t1.acct ≠ acct

instance (acct : String) (t1 t2 : Row) : Decidable (subAccount acct t1 t2) :=
  inferInstanceAs (Decidable (_ ∧ _ ∧ _ ∧ _))

/-- The query: `t1.deleted=0` belongs to the first account only. -/
def subAccounts (first : String) (rest : List String) (t : Table) : List String :=
  ((t.filter fun t1 => ∃ t2 ∈ t, (t1.deleted = 0 ∧ subAccount first t1 t2) ∨
    ∃ acct ∈ rest, subAccount acct t1 t2).map fun r => r.acct).dedup

/-- A sub-account is added unless it is listed. -/
def addSubAccount (list : List Coord) (acct : String) : List Coord :=
  if acct ∈ names list then list else list ++ [⟨acct, false⟩]

/-- `_get_user_coords`. -/
def userCoords (user : String) (coords : List CoordRow) (t : Table) : List Coord :=
  let direct := (coords.filter fun c => c.user = user ∧ c.deleted = 0).map CoordRow.acct
  let list := direct.map fun acct => ⟨acct, true⟩
  match direct with
  | [] => list
  | first :: rest => (subAccounts first rest t).foldl addSubAccount list

/-! ## What they are for -/

/-- The user has a live row for the account. -/
def Direct (coords : List CoordRow) (user acct : String) : Prop :=
  ∃ c ∈ coords, c.user = user ∧ c.acct = acct ∧ c.deleted = 0

/-- Some account row of `below` lies under one of `above`, both meeting `P`. -/
def Above (t : Table) (P : Row → Prop) (above below : String) : Prop :=
  ∃ t1 ∈ t, ∃ t2 ∈ t, (t1.acct = above ∧ t1.user = "" ∧ P t1) ∧
    (t2.acct = below ∧ t2.user = "" ∧ P t2) ∧ Inside t2.span t1.span

def Live (r : Row) : Prop := r.deleted = 0

instance (r : Row) : Decidable (Live r) := inferInstanceAs (Decidable (_ = _))

/-- The user coordinates the account, itself or through one above it. -/
def Coordinates (coords : List CoordRow) (t : Table) (user acct : String) : Prop :=
  Direct coords user acct ∨ ∃ above, Direct coords user above ∧ Above t Live above acct

/-- The lists agree, name those who coordinate once each, and tell which of them have
a row. -/
structure Agree (coords : List CoordRow) (t : Table) : Prop where
  same : ∀ user acct, user ∈ names (accountCoords acct coords t) ↔
    acct ∈ names (userCoords user coords t)
  account : ∀ acct user, user ∈ names (accountCoords acct coords t) ↔
    Coordinates coords t user acct
  accountOnce : ∀ acct, (names (accountCoords acct coords t)).Nodup
  userOnce : ∀ user, (names (userCoords user coords t)).Nodup
  accountDirect : ∀ acct, ∀ c ∈ accountCoords acct coords t,
    c.direct = true ↔ Direct coords c.name acct
  userDirect : ∀ user, ∀ c ∈ userCoords user coords t,
    c.direct = true ↔ Direct coords user c.name

/-- Nobody has live rows for an account and for one above it, and where a deleted row
puts an account below one a user has a row for, live rows do so as well. -/
structure CoordsOk (coords : List CoordRow) (t : Table) : Prop where
  apart : ∀ user above acct, Direct coords user above → Above t (fun _ => True) above acct →
    ¬Direct coords user acct
  live : ∀ user above acct, Direct coords user above → Above t (fun _ => True) above acct →
    ∃ above', Direct coords user above' ∧ Above t Live above' acct

/-- A table whose user rows are leaves, each inside the row of its account. -/
structure Leafed (t : Table) : Prop extends WellFormed t where
  leaves : ∀ r ∈ t, r.user ≠ "" → ∀ s ∈ t, ¬Inside s.span r.span
  parents : ∀ r ∈ t, r.user ≠ "" → ∃ p ∈ t, (p.user = "" ∧ p.acct = r.acct) ∧
    Under (spans t) r.span p.span

/-- The primary key of the coordinator table. -/
def CoordKey (coords : List CoordRow) : Prop :=
  coords.Pairwise fun c d => ¬(c.acct = d.acct ∧ c.user = d.user)

section Lists

variable {coords : List CoordRow} {t : Table} {user acct above : String}

/-- The names in a direct list. -/
theorem mem_direct {P : CoordRow → Prop} [DecidablePred P] {f : CoordRow → String} {x : String} :
    x ∈ (coords.filter fun c => P c ∧ c.deleted = 0).map f ↔
      ∃ c ∈ coords, f c = x ∧ P c ∧ c.deleted = 0 := by
  simp only [List.mem_map, List.mem_filter, decide_eq_true_eq]
  exact exists_congr fun c => by rw [and_assoc, and_comm (b := f c = x)]

theorem mem_directUsers :
    user ∈ (coords.filter fun c => c.acct = acct ∧ c.deleted = 0).map CoordRow.user ↔
      Direct coords user acct := mem_direct

theorem mem_directAccts :
    acct ∈ (coords.filter fun c => c.user = user ∧ c.deleted = 0).map CoordRow.acct ↔
      Direct coords user acct :=
  mem_direct.trans (exists_congr fun _ => and_congr_right fun _ => and_left_comm)

/-- The key leaves one row for each name of a direct list. -/
theorem CoordKey.nodup (h : CoordKey coords) {p : CoordRow → Bool} {f : CoordRow → String}
    (hf : ∀ c ∈ coords, ∀ d ∈ coords, p c = true → p d = true → f c = f d →
      c.acct = d.acct ∧ c.user = d.user) : ((coords.filter p).map f).Nodup := by
  refine List.pairwise_map.mpr ((h.filter p).imp_of_mem fun {c d} hc hd hne heq => hne ?_)
  obtain ⟨hc, hpc⟩ := List.mem_filter.mp hc
  obtain ⟨hd, hpd⟩ := List.mem_filter.mp hd
  exact hf c hc d hd hpc hpd heq

theorem names_append (list list' : List Coord) :
    names (list ++ list') = names list ++ names list' :=
  List.map_append

theorem names_flagged (list : List String) (direct : Bool) :
    names (list.map fun name => ⟨name, direct⟩) = list := by
  unfold names
  rw [List.map_map]
  exact List.map_id list

/-- What is added to a list is what is not in it. -/
theorem foldl_addSubAccount {found : List String} (hnodup : found.Nodup) (list : List Coord) :
    found.foldl addSubAccount list =
      list ++ (found.filter fun name => name ∉ names list).map fun name => ⟨name, false⟩ := by
  induction found generalizing list with
  | nil => rw [List.foldl_nil, List.filter_nil, List.map_nil, List.append_nil]
  | cons name found ih =>
    obtain ⟨hname, hnodup⟩ := List.nodup_cons.mp hnodup
    rw [List.foldl_cons, ih hnodup]
    by_cases hin : name ∈ names list
    · rw [addSubAccount, if_pos hin, List.filter_cons_of_neg (by simpa using hin)]
    · rw [addSubAccount, if_neg hin, List.filter_cons_of_pos (by simpa using hin), List.map_cons,
        List.append_assoc, List.singleton_append]
      have hsame : (found.filter fun n => n ∉ names (list ++ [⟨name, false⟩])) =
          found.filter fun n => n ∉ names list := by
        refine List.filter_congr fun n hn => decide_eq_decide.mpr (not_congr ?_)
        rw [names_append]
        refine List.mem_append.trans (or_iff_left ?_)
        intro hc
        obtain rfl : n = name := List.mem_singleton.mp hc
        exact hname hn
      rw [hsame]

end Lists

section Tree

variable {t : Table} {r s : Row} {above below : String}

/-- What begins within a row is inside it. -/
theorem WellFormed.inside_of_begins (h : WellFormed t) (hr : r ∈ t) (hs : s ∈ t) (hne : r ≠ s)
    (hlft : s.lft ≤ r.lft) (hrgt : r.lft ≤ s.rgt) : Inside r.span s.span := by
  have hspan : r.span ≠ s.span := fun heq => hne (h.span_inj hr hs heq)
  have hpr := h.lft_lt_rgt hr
  obtain hap | hap | hap | hap :=
    h.nested.apart_of_ne (mem_spans hr) (mem_spans hs) hspan
  · have hlt : r.rgt < s.lft := hap
    omega
  · have hlt : s.rgt < r.lft := hap
    omega
  · exact hap
  · have hlt : r.lft < s.lft := hap.1
    omega

/-- No account is below one of its name. -/
theorem Above.acct_ne {P : Row → Prop} (h : WellFormed t) (hab : Above t P above below) :
    above ≠ below := by
  obtain ⟨t1, ht1, t2, ht2, ⟨ha1, hu1, -⟩, ⟨ha2, hu2, -⟩, hin⟩ := hab
  rintro rfl
  have heq := h.account_eq ht2 ht1 hu2 hu1 (ha2.trans ha1.symm) (h.clusters t2 ht2 t1 ht1 hin)
  rw [heq] at hin
  exact not_inside_self _ hin

/-- What the query of `_get_account_coords` finds for one row. -/
theorem coordAbove_iff (h : Leafed t) {acct : String} {t0 : CoordRow} :
    (∃ t1 ∈ t, ∃ t2 ∈ t, coordAbove acct t0 t1 t2) ↔
      t0.deleted = 0 ∧ Above t (fun _ => True) t0.acct acct := by
  constructor
  · rintro ⟨t1, ht1, t2, ht2, h0, hlft, hrgt, hu1, ha2, hne, hd⟩
    have hne12 : t2 ≠ t1 := by
      rintro rfl
      exact hne ha2
    have hin := h.inside_of_begins ht2 ht1 hne12 hlft.le hrgt.le
    refine ⟨hd, ?_⟩
    by_cases hu2 : t2.user = ""
    · exact ⟨t1, ht1, t2, ht2, ⟨h0.symm, hu1, trivial⟩, ⟨ha2, hu2, trivial⟩, hin⟩
    · -- a user row stands for the row of its account
      obtain ⟨p, hp, ⟨hpu, hpa⟩, -, hout⟩ := h.parents t2 ht2 hu2
      refine ⟨t1, ht1, p, hp, ⟨h0.symm, hu1, trivial⟩, ⟨hpa.trans ha2, hpu, trivial⟩, ?_⟩
      obtain heq | hin := hout t1.span (mem_spans ht1) hin
      · have hpt : t1 = p := h.span_inj ht1 hp heq
        exact absurd ((congrArg (fun r => r.acct) hpt).trans (hpa.trans ha2)) hne
      · exact hin
  · rintro ⟨hd, hab⟩
    have hne := hab.acct_ne h.toWellFormed
    obtain ⟨t1, ht1, t2, ht2, ⟨ha1, hu1, -⟩, ⟨ha2, -, -⟩, hin⟩ := hab
    refine ⟨t1, ht1, t2, ht2, ha1.symm, hin.1, ?_, hu1, ha2, ha1 ▸ hne, hd⟩
    have hlt : t2.rgt < t1.rgt := hin.2
    have hpr := h.lft_lt_rgt ht2
    omega

/-- What the query of `_get_user_coords` finds is below the account. -/
theorem subAccount_above (h : Leafed t) {acct : String} {t1 t2 : Row} (ht1 : t1 ∈ t) (ht2 : t2 ∈ t)
    (hsub : subAccount acct t1 t2) : Above t (fun _ => True) acct t1.acct := by
  obtain ⟨ha2, ⟨hlft, hrgt⟩, hu1, hne⟩ := hsub
  have hne12 : t1 ≠ t2 := by
    rintro rfl
    exact hne ha2
  have hin := h.inside_of_begins ht1 ht2 hne12 hlft hrgt
  by_cases hu2 : t2.user = ""
  · exact ⟨t2, ht2, t1, ht1, ⟨ha2, hu2, trivial⟩, ⟨rfl, hu1, trivial⟩, hin⟩
  · exact absurd hin (h.leaves t2 ht2 hu2 t1 ht1)

theorem mem_subAccounts_above (h : Leafed t) {first acct : String} {rest : List String}
    (hmem : acct ∈ subAccounts first rest t) :
    ∃ above ∈ first :: rest, Above t (fun _ => True) above acct := by
  obtain ⟨t1, ht1, rfl⟩ := List.mem_map.mp (List.mem_dedup.mp hmem)
  obtain ⟨ht1, hcond⟩ := List.mem_filter.mp ht1
  obtain ⟨t2, ht2, ⟨-, hsub⟩ | ⟨above, hrest, hsub⟩⟩ := of_decide_eq_true hcond
  · exact ⟨first, List.mem_cons_self, subAccount_above h ht1 ht2 hsub⟩
  · exact ⟨above, List.mem_cons_of_mem _ hrest, subAccount_above h ht1 ht2 hsub⟩

theorem mem_subAccounts_live (h : Leafed t) {first acct : String} {rest : List String}
    (habove : above ∈ first :: rest) (hab : Above t Live above acct) :
    acct ∈ subAccounts first rest t := by
  have hne := hab.acct_ne h.toWellFormed
  obtain ⟨t2, ht2, t1, ht1, ⟨ha2, -, -⟩, ⟨ha1, hu1, hlive⟩, hin⟩ := hab
  have hsub : subAccount above t1 t2 := by
    refine ⟨ha2, ⟨hin.1.le, ?_⟩, hu1, ha1 ▸ hne.symm⟩
    have hlt : t1.rgt < t2.rgt := hin.2
    have hpr := h.lft_lt_rgt ht1
    omega
  refine List.mem_dedup.mpr (List.mem_map.mpr ⟨t1, List.mem_filter.mpr ⟨ht1, ?_⟩, ha1⟩)
  refine decide_eq_true ⟨t2, ht2, ?_⟩
  obtain rfl | hrest := List.mem_cons.mp habove
  · exact Or.inl ⟨hlive, hsub⟩
  · exact Or.inr ⟨above, hrest, hsub⟩

end Tree

/-! ## Agreement -/

section Agreement

variable {coords : List CoordRow} {t : Table} {user acct : String}

/-- The second part of the list of an account. -/
theorem mem_aboveUsers (h : Leafed t) :
    user ∈ ((coords.filter fun t0 => ∃ t1 ∈ t, ∃ t2 ∈ t, coordAbove acct t0 t1 t2).map
        CoordRow.user).dedup ↔
      ∃ above, Direct coords user above ∧ Above t (fun _ => True) above acct := by
  rw [List.mem_dedup]
  constructor
  · intro hmem
    obtain ⟨c, hc, hu⟩ := List.mem_map.mp hmem
    obtain ⟨hc, hcond⟩ := List.mem_filter.mp hc
    obtain ⟨hd, hab⟩ := (coordAbove_iff h).mp (of_decide_eq_true hcond)
    exact ⟨c.acct, ⟨c, hc, hu, rfl, hd⟩, hab⟩
  · rintro ⟨above, ⟨c, hc, hu, rfl, hd⟩, hab⟩
    refine List.mem_map.mpr ⟨c, List.mem_filter.mpr ⟨hc, ?_⟩, hu⟩
    exact decide_eq_true ((coordAbove_iff h).mpr ⟨hd, hab⟩)

theorem names_accountCoords (acct : String) (coords : List CoordRow) (t : Table) :
    names (accountCoords acct coords t) =
      (coords.filter fun c => c.acct = acct ∧ c.deleted = 0).map CoordRow.user ++
        ((coords.filter fun t0 => ∃ t1 ∈ t, ∃ t2 ∈ t, coordAbove acct t0 t1 t2).map
          CoordRow.user).dedup := by
  rw [accountCoords, names_append, names_flagged, names_flagged]

theorem mem_accountCoords (h : Leafed t) :
    user ∈ names (accountCoords acct coords t) ↔
      Direct coords user acct ∨
        ∃ above, Direct coords user above ∧ Above t (fun _ => True) above acct := by
  rw [names_accountCoords, List.mem_append, mem_directUsers, mem_aboveUsers h]

/-- The list of a user: the accounts of its rows, then what is below and not among
them. -/
theorem userCoords_eq (user : String) (coords : List CoordRow) (t : Table) :
    ∃ direct found : List String, userCoords user coords t =
        direct.map (fun acct => ⟨acct, true⟩) ++
          (found.filter fun acct => acct ∉ direct).map (fun acct => ⟨acct, false⟩) ∧
      direct = (coords.filter fun c => c.user = user ∧ c.deleted = 0).map CoordRow.acct ∧
      found.Nodup ∧
      (Leafed t → (∀ acct ∈ found, ∃ above ∈ direct, Above t (fun _ => True) above acct) ∧
        ∀ above ∈ direct, ∀ acct, Above t Live above acct → acct ∈ found) := by
  unfold userCoords
  cases hdirect : (coords.filter fun c => c.user = user ∧ c.deleted = 0).map CoordRow.acct with
  | nil =>
    refine ⟨[], [], rfl, rfl, List.nodup_nil, fun _ => ⟨fun acct hc => ?_, fun above hc => ?_⟩⟩
    · exact absurd hc List.not_mem_nil
    · exact absurd hc List.not_mem_nil
  | cons first rest =>
    have hnodup : (subAccounts first rest t).Nodup := List.nodup_dedup _
    refine ⟨first :: rest, subAccounts first rest t, ?_, rfl, hnodup, fun h => ⟨?_, ?_⟩⟩
    · simp only
      rw [foldl_addSubAccount hnodup, names_flagged]
    · exact fun acct hmem => mem_subAccounts_above h hmem
    · exact fun above habove acct hab => mem_subAccounts_live h habove hab

theorem coordsOk_agree (h : Leafed t) (hkey : CoordKey coords) (hok : CoordsOk coords t) :
    Agree coords t := by
  have haccount : ∀ acct user, user ∈ names (accountCoords acct coords t) ↔
      Coordinates coords t user acct := by
    intro acct user
    rw [mem_accountCoords h]
    refine or_congr Iff.rfl ⟨?_, ?_⟩
    · rintro ⟨above, hdirect, hab⟩
      exact hok.live user above acct hdirect hab
    · rintro ⟨above, hdirect, t1, ht1, t2, ht2, ⟨ha1, hu1, -⟩, ⟨ha2, hu2, -⟩, hin⟩
      exact ⟨above, hdirect, t1, ht1, t2, ht2, ⟨ha1, hu1, trivial⟩, ⟨ha2, hu2, trivial⟩, hin⟩
  have huser : ∀ user acct, acct ∈ names (userCoords user coords t) ↔
      Coordinates coords t user acct := by
    intro user acct
    obtain ⟨direct, found, heq, hdirect, -, hfound⟩ := userCoords_eq user coords t
    obtain ⟨hsound, hcomplete⟩ := hfound h
    have hmem : ∀ a, a ∈ direct ↔ Direct coords user a := by
      intro a
      rw [hdirect]
      exact mem_directAccts
    rw [heq, names_append, names_flagged, names_flagged, List.mem_append, List.mem_filter,
      decide_eq_true_iff, hmem]
    constructor
    · rintro (hd | ⟨hf, -⟩)
      · exact Or.inl hd
      · obtain ⟨above, habove, hab⟩ := hsound acct hf
        exact Or.inr (hok.live user above acct ((hmem above).mp habove) hab)
    · rintro (hd | ⟨above, hd, hab⟩)
      · exact Or.inl hd
      · by_cases hin : Direct coords user acct
        · exact Or.inl hin
        · exact Or.inr ⟨hcomplete above ((hmem above).mpr hd) acct hab, hin⟩
  -- both say the same, each name once, with the same flags
  refine ⟨fun user acct => (haccount acct user).trans (huser user acct).symm, haccount, ?_, ?_,
    ?_, ?_⟩
  · intro acct
    rw [names_accountCoords]
    refine List.nodup_append'.mpr ⟨?_, List.nodup_dedup _, fun user hd hab => ?_⟩
    · exact hkey.nodup fun c _ d _ hc hd heq =>
        ⟨(of_decide_eq_true hc).1.trans (of_decide_eq_true hd).1.symm, heq⟩
    · obtain ⟨above, hdirect, hab⟩ := (mem_aboveUsers h).mp hab
      exact hok.apart user above acct hdirect hab (mem_directUsers.mp hd)
  · intro user
    obtain ⟨direct, found, heq, hdirect, hnodup, -⟩ := userCoords_eq user coords t
    rw [heq, names_append, names_flagged, names_flagged]
    refine List.nodup_append'.mpr ⟨?_, hnodup.filter _, fun acct hd hf => ?_⟩
    · rw [hdirect]
      exact hkey.nodup fun c _ d _ hc hd heq =>
        ⟨heq, (of_decide_eq_true hc).1.trans (of_decide_eq_true hd).1.symm⟩
    · exact of_decide_eq_true (List.mem_filter.mp hf).2 hd
  · intro acct c hc
    obtain hc | hc := List.mem_append.mp hc
    · obtain ⟨user, hu, rfl⟩ := List.mem_map.mp hc
      exact iff_of_true rfl (mem_directUsers.mp hu)
    · obtain ⟨user, hu, rfl⟩ := List.mem_map.mp hc
      obtain ⟨above, hdirect, hab⟩ := (mem_aboveUsers h).mp hu
      exact iff_of_false Bool.false_ne_true (hok.apart user above acct hdirect hab)
  · intro user c hc
    obtain ⟨direct, found, heq, hdirect, -, -⟩ := userCoords_eq user coords t
    rw [heq] at hc
    obtain hc | hc := List.mem_append.mp hc
    · obtain ⟨acct, ha, rfl⟩ := List.mem_map.mp hc
      rw [hdirect] at ha
      exact iff_of_true rfl (mem_directAccts.mp ha)
    · obtain ⟨acct, ha, rfl⟩ := List.mem_map.mp hc
      refine iff_of_false Bool.false_ne_true fun hd => ?_
      refine of_decide_eq_true (List.mem_filter.mp ha).2 ?_
      rw [hdirect]
      exact mem_directAccts.mpr hd

/-- The lists agree exactly when nobody has rows for two accounts one above the
other, and no deleted row adds an account. -/
theorem coords_agree_iff (h : Leafed t) (hkey : CoordKey coords) :
    Agree coords t ↔ CoordsOk coords t := by
  refine ⟨fun ha => ?_, coordsOk_agree h hkey⟩
  have hapart : ∀ user above acct, Direct coords user above →
      Above t (fun _ => True) above acct → ¬Direct coords user acct := by
    intro user above acct hdirect hab hd
    -- the user would be on both parts of the list
    have honce := ha.accountOnce acct
    rw [names_accountCoords] at honce
    exact (List.nodup_append'.mp honce).2.2 (mem_directUsers.mpr hd)
      ((mem_aboveUsers h).mpr ⟨above, hdirect, hab⟩)
  refine ⟨hapart, fun user above acct hdirect hab => ?_⟩
  have hin := (mem_accountCoords h).mpr (Or.inr ⟨above, hdirect, hab⟩)
  obtain hd | hlive := (ha.account acct user).mp hin
  · exact absurd hd (hapart user above acct hdirect hab)
  · exact hlive

end Agreement

/-- An account with a user. -/
def withUser : Table :=
  [{ id := 1, acct := "root", cluster := "tux", lft := 1, rgt := 6 },
    { id := 2, acct := "a", cluster := "tux", parentAcct := "root", lft := 2, rgt := 5 },
    { id := 3, user := "bob", acct := "a", cluster := "tux", lft := 3, rgt := 4 }]

theorem leafed_withUser : Leafed withUser :=
  ⟨by decide +kernel, by decide +kernel, by decide +kernel⟩

theorem coords_agree_iff_root : Agree [{ user := "carl", acct := "root" }] withUser := by
  have hkey : CoordKey [{ user := "carl", acct := "root" }] := List.pairwise_singleton _ _
  refine (coords_agree_iff leafed_withUser hkey).mpr ⟨?_, ?_⟩
  · rintro user above acct ⟨c, hc, -, hca, -⟩ hab ⟨d, hd, -, hda, -⟩
    rw [List.mem_singleton.mp hc] at hca
    rw [List.mem_singleton.mp hd] at hda
    exact hab.acct_ne leafed_withUser.toWellFormed (hca.symm.trans hda)
  · rintro user above acct hdirect ⟨t1, ht1, t2, ht2, ⟨ha1, hu1, -⟩, ⟨ha2, hu2, -⟩, hin⟩
    have hlive : ∀ r ∈ withUser, Live r := by decide
    exact ⟨above, hdirect, t1, ht1, t2, ht2, ⟨ha1, hu1, hlive t1 ht1⟩,
      ⟨ha2, hu2, hlive t2 ht2⟩, hin⟩

/-- A coordinator of an account and of the one above it is listed twice. -/
theorem accountCoords_twice :
    ¬∀ (coords : List CoordRow) (t : Table), Leafed t → CoordKey coords → Agree coords t := by
  intro hall
  have hagree := hall [{ user := "carl", acct := "root" }, { user := "carl", acct := "a" }] withUser
    leafed_withUser (by
      refine List.pairwise_pair.mpr fun heq => ?_
      exact absurd heq.1 (by decide))
  exact absurd (hagree.accountOnce "a") (by decide +kernel)

end Slurm.AssocTable
