import SlurmLite.AssocTable.Move

/-!
# New parents for many accounts

`acct_storage_p_modify_associations` fetches the selected rows once, in the order
of `lft`, and moves one account after the other below the new parent. Every move
is given the interval that was fetched, while the moves before it have already
changed the positions.

* **The loop** (`modifyLoop`, `modifyAssociations`).
* **The condition** (`MovesInOrder`): the place of the new parent, as it moves to
  the left, against the fetched intervals.
* **Until the new parent is found** (`Early`): it keeps what is around it, and
  its place is what was counted.
* **Afterwards** (`Late`): it is to the left of every interval that is left.
-/

namespace Slurm.AssocTable

open Base.NestedSets

/-! ## The loop -/

/-- The row loop of `acct_storage_p_modify_associations`, with the rows that
are listed for the change of limits; `none` when a row may not be modified. -/
def modifyLoop (parentAcct : Option String) (mayModify : Row → Bool) (now : Int) :
    List Row → Table → List Nat → Option (Table × List Nat)
  | [], t, ids => some (t, ids)
  | row :: rows, t, ids =>
    if !mayModify row then none
    else if row.partition ≠ "" ∨ row.user ≠ "" then
      modifyLoop parentAcct mayModify now rows t (ids ++ [row.id])
    else
      match parentAcct with
      | none => modifyLoop parentAcct mayModify now rows t (ids ++ [row.id])
      | some parent =>
        -- an account can't be a child of itself
        if row.acct = parent then modifyLoop parentAcct mayModify now rows t ids
        else
          match moveParent row.lft row.rgt row.cluster row.id row.parentAcct parent now t with
          | (t, false) => some (t, ids)
          | (t, true) => modifyLoop parentAcct mayModify now rows t (ids ++ [row.id])

/-- The rows that a condition selects, as they are fetched. -/
def fetched (sel : Row → Bool) (t : Table) : List Row := orderByLft (t.filter sel)

/-- `acct_storage_p_modify_associations` on the rows `sel`, with the change of
limits `vals`. -/
def modifyAssociations (sel : Row → Bool) (parentAcct : Option String)
    (vals : Option (Limits → Limits)) (mayModify : Row → Bool) (now : Int) (t : Table) :
    Option Table :=
  match modifyLoop parentAcct mayModify now (fetched sel t) t [] with
  | none => none
  | some (t, ids) =>
    match vals with
    | none => some t
    | some set => some (update (fun r => r.deleted = 0 ∧ r.id ∈ ids)
        (fun r => { r with modTime := now, toLimits := set r.toLimits }) t)

/-! ## The condition -/

/-- A row around all others of its cluster. -/
def IsRoot (t : Table) (c : Row) : Prop :=
  c ∈ t ∧ ∀ s ∈ t, s.cluster = c.cluster → Branch c.span s.span

/-- Every cluster has a root. -/
def Rooted (t : Table) : Prop := ∀ r ∈ t, ∃ c ∈ t, IsRoot t c ∧ c.cluster = r.cluster

/-- An account that is not the root of its cluster. -/
structure Selected (t : Table) (x : Row) : Prop where
  user : x.user = ""
  partition : x.partition = ""
  parent : ∃ p ∈ t, p.user = "" ∧ p.acct = x.parentAcct ∧ Below t x p

/-- The place of the new parent once the branch of `x` was moved below it. -/
def placeAfter (q : Span) (c : Int) (earlier : List Span) (x : Span) : Int :=
  if x.rgt < q.lft ∧ ∀ a ∈ earlier, ¬Inside x a then c - Base.NestedSets.width x else c

/-- For accounts in order and the place `c` of the new parent `q`: up to the
first interval with `c` in it nothing is around `q`, and that one is around `q`
or not in a branch moved before. -/
def MovesOk (q : Span) : Int → List Span → List Span → Prop
  | _, _, [] => True
  | c, earlier, x :: xs =>
    if x.lft ≤ c ∧ c ≤ x.rgt then Inside q x ∨ ∀ a ∈ earlier, ¬Inside x a
    else ¬Inside q x ∧ MovesOk q (placeAfter q c earlier x) (x :: earlier) xs

/-- The condition for every cluster. -/
def MovesInOrder (sel : Row → Bool) (parent : String) (t : Table) : Prop :=
  ∀ q ∈ t, q.user = "" → q.acct = parent →
    MovesOk q.span q.lft [] (((fetched sel t).filter fun x =>
      x.cluster = q.cluster ∧ x.acct ≠ parent).map Row.span)

/-! ## What all moves keep -/

/-- What moves within the clusters `cs` keep. -/
structure Kept (t : Table) (cs : List String) (f : Row → Row) : Prop where
  wf : WellFormed (t.map f)
  same : ∀ r ∈ t, Row.SameBut r (f r)
  positive : ∀ r ∈ t, 0 < (f r).lft
  frame : ∀ r ∈ t, r.cluster ∉ cs → (f r).span = r.span
  roots : ∀ c, IsRoot t c → (f c).span = c.span ∧
    ∀ s ∈ t, s.cluster = c.cluster → Branch (f c).span (f s).span

section Kept

variable {t : Table} {cs : List String} {f g : Row → Row}

theorem Kept.mem {r : Row} (hr : r ∈ t) : f r ∈ t.map f := List.mem_map_of_mem hr

theorem Kept.entry (hk : Kept t cs f) {r : Row} (hr : r ∈ t) : (f r).toEntry = r.toEntry :=
  (hk.same r hr).entry

theorem Kept.inj (hk : Kept t cs f) {r s : Row} (h : WellFormed t) (hr : r ∈ t) (hs : s ∈ t)
    (heq : f r = f s) : r = s := by
  refine List.inj_on_of_nodup_map h.ids hr hs ?_
  rw [← hk.entry hr, ← hk.entry hs, heq]

theorem Kept.span_inj (hk : Kept t cs f) {r s : Row} (h : WellFormed t) (hr : r ∈ t) (hs : s ∈ t)
    (heq : (f r).span = (f s).span) : r = s :=
  hk.inj h hr hs (hk.wf.span_inj (Kept.mem hr) (Kept.mem hs) heq)

theorem Kept.cluster_eq (hk : Kept t cs f) {r s : Row} (h : WellFormed t) (hr : r ∈ t)
    (hs : s ∈ t) (hbr : Branch (f s).span (f r).span) : r.cluster = s.cluster := by
  obtain heq | hin := hbr
  · rw [hk.span_inj h hr hs heq]
  · rw [← hk.entry hr, ← hk.entry hs]
    exact hk.wf.clusters _ (Kept.mem hr) _ (Kept.mem hs) hin

theorem Kept.start (h : WellFormed t) (hpos : ∀ r ∈ t, 0 < r.lft) : Kept t cs fun r => r := by
  refine ⟨?_, fun r _ => ⟨rfl, rfl, rfl⟩, hpos, fun r _ _ => rfl, fun c hc => ⟨rfl, hc.2⟩⟩
  rw [List.map_id'' fun _ => rfl]
  exact h

theorem Kept.more (hk : Kept t cs f) (name : String) : Kept t (name :: cs) f :=
  ⟨hk.wf, hk.same, hk.positive,
    fun r hr hnot => hk.frame r hr fun hc => hnot (List.mem_cons_of_mem name hc), hk.roots⟩

/-- Rows outside a cluster stay where they are. -/
def Aside (t : Table) (name : String) (f g : Row → Row) : Prop :=
  ∀ r ∈ t, r.cluster ≠ name → (g r).span = (f r).span

theorem Aside.trans {name : String} {f' : Row → Row} (h₁ : Aside t name f g)
    (h₂ : Aside t name g f') : Aside t name f f' :=
  fun r hr hrc => (h₂ r hr hrc).trans (h₁ r hr hrc)

section Move

variable (h : WellFormed t) (hroot : Rooted t) (hk : Kept t cs f) {a b : Row} {id : Nat}
variable (ha : a ∈ t) (hb : b ∈ t) (hbc : b.cluster = a.cluster)
variable (hab : ¬Branch (f a).span (f b).span) (hg : Moved (f a) (f b) id (t.map f) g)
include h hroot hk ha hb hbc hab hg

theorem Kept.aside : Aside t a.cluster f (g ∘ f) := by
  intro r hr hrc
  obtain ⟨d, hd, hdroot, hda⟩ := hroot a ha
  have hdall := (hk.roots d hdroot).2
  have hmem : ∀ {r}, r ∈ t → (f r).span ∈ spans (t.map f) := fun hr => mem_spans (Kept.mem hr)
  rw [Function.comp_apply, hg.span (f r) (Kept.mem hr)]
  refine relocate_elsewhere hk.wf.nested (hmem ha) (hmem hb) hab (hmem hd) (hdall a ha hda.symm)
    (hdall b hb (hbc.trans hda.symm)) (hmem hr) fun hbr => hrc ?_
  rw [hk.cluster_eq h hr hd hbr, hda]

/-- A move within a cluster keeps what moves keep. -/
theorem Kept.move (hac : a.cluster ∈ cs) : Kept t cs (g ∘ f) := by
  have hmem : ∀ {r}, r ∈ t → (f r).span ∈ spans (t.map f) := fun hr => mem_spans (Kept.mem hr)
  have haf := Kept.mem (f := f) ha
  have hbf := Kept.mem (f := f) hb
  have helse := hk.aside h hroot ha hb hbc hab hg
  refine ⟨?_, ?_, ?_, ?_, ?_⟩
  · rw [← List.map_map]
    refine hg.wellFormed hk.wf haf hbf hab ?_
    rw [hk.entry ha, hk.entry hb, hbc]
  · intro r hr
    have h₁ := hk.same r hr
    have h₂ := hg.same (f r) (Kept.mem hr)
    exact ⟨h₂.entry.trans h₁.entry, h₂.limits.trans h₁.limits, h₂.deleted.trans h₁.deleted⟩
  · intro r hr
    have hle : ∀ y ∈ spans (t.map f), 1 ≤ y.lft := by
      intro y hy
      obtain ⟨s', hs', rfl⟩ := List.mem_map.mp hy
      obtain ⟨s, hs, rfl⟩ := List.mem_map.mp hs'
      exact hk.positive s hs
    have := le_relocate hk.wf.nested (hmem ha) (hmem hb) hab hle (hmem hr)
    rw [← hg.span (f r) (Kept.mem hr)] at this
    exact this
  · intro r hr hrc
    have hne : r.cluster ≠ a.cluster := fun heq => hrc (heq ▸ hac)
    exact (helse r hr hne).trans (hk.frame r hr hrc)
  · intro c hc
    obtain ⟨hcspan, hcall⟩ := hk.roots c hc
    by_cases hca : c.cluster = a.cluster
    · have hcb := hcall b hb (hbc.trans hca.symm)
      have hspan : (g (f c)).span = (f c).span := by
        rw [hg.span (f c) (Kept.mem hc.1)]
        exact relocate_around hk.wf.nested (hmem ha) (hmem hb) hab (hmem hc.1)
          (hcall a ha hca.symm) hcb
      refine ⟨hspan.trans hcspan, fun s hs hsc => ?_⟩
      obtain heq | hin := hcall s hs hsc
      · rw [hk.span_inj h hs hc.1 heq]
        exact Or.inl rfl
      · right
        rw [Function.comp_apply, Function.comp_apply,
          hg.inside hk.wf haf hbf hab (Kept.mem hs) (Kept.mem hc.1)]
        by_cases hcut : Branch (f a).span (f s).span ∧ ¬Branch (f a).span (f c).span
        · rw [if_pos hcut]
          exact hcb.imp (fun heq => (hk.wf.span_inj hbf (Kept.mem hc.1) heq).symm) fun hin => hin
        · rw [if_neg hcut]
          exact hin
    · refine ⟨(helse c hc.1 hca).trans hcspan, fun s hs hsc => ?_⟩
      rw [helse c hc.1 hca, helse s hs fun heq => hca (hsc.symm.trans heq)]
      exact hcall s hs hsc

end Move

/-- What a fetched interval finds is the new parent, when its place is there. -/
theorem Kept.found_iff (h : WellFormed t) (hroot : Rooted t) (hk : Kept t cs f) {q x : Row}
    (hq : q ∈ t) (hqu : q.user = "") (hx : x ∈ t) (hxc : x.cluster = q.cluster) {r' : Row} :
    r' ∈ accountsWithin x.lft x.rgt q.acct (t.map f) ↔
      r' = f q ∧ x.lft ≤ (f q).lft ∧ (f q).lft ≤ x.rgt := by
  unfold accountsWithin
  rw [mem_orderByLft, List.mem_filter]
  simp only [decide_eq_true_eq]
  constructor
  · rintro ⟨hr', hin, hacct, hru⟩
    obtain ⟨r, hr, rfl⟩ := List.mem_map.mp hr'
    rw [hk.entry hr] at hacct hru
    have hrc : r.cluster = q.cluster := by
      by_contra hne
      -- the trees of two clusters are apart
      obtain ⟨c, hc, hcroot, hcx⟩ := hroot x hx
      obtain ⟨d, hd, hdroot, hdr⟩ := hroot r hr
      have hcd : c ≠ d := by
        rintro rfl
        exact hne (hdr.symm.trans (hcx.trans hxc))
      obtain ⟨hdspan, hdall⟩ := hk.roots d hdroot
      have hxe := (hcroot.2 x hx hcx.symm).ends (h.lft_lt_rgt hc) (h.lft_lt_rgt hx)
      have hre := hdall r hr hdr.symm
      rw [hdspan] at hre
      have hre := hre.ends (h.lft_lt_rgt hd) (hk.wf.lft_lt_rgt (Kept.mem hr))
      have hcluster : ∀ {e e' : Row}, e ∈ t → e' ∈ t → e.cluster ≠ e'.cluster →
          ¬Inside e.span e'.span := fun he he' hne hin => hne (h.clusters _ he _ he' hin)
      have hcdc : c.cluster ≠ d.cluster := fun heq => hne (by rw [← hdr, ← heq, hcx, hxc])
      simp only [Row.span_lft, Row.span_rgt] at hxe hre
      obtain h1 | h1 | h1 | h1 := h.nested.apart_of_ne (mem_spans hc) (mem_spans hd)
          (fun heq => hcd (h.span_inj hc hd heq))
      · simp only [Row.span_lft, Row.span_rgt] at h1
        omega
      · simp only [Row.span_lft, Row.span_rgt] at h1
        omega
      · exact hcluster hc hd hcdc h1
      · exact hcluster hd hc hcdc.symm h1
    have hrq := h.account_eq hr hq hru hqu hacct hrc
    subst hrq
    exact ⟨rfl, hin⟩
  · rintro ⟨rfl, hin⟩
    refine ⟨Kept.mem hq, hin, ?_, ?_⟩
    · rw [hk.entry hq]
    · rw [hk.entry hq]
      exact hqu

end Kept

/-! ## When the new parent is to the left of what is left -/

/-- The new parent is to the left of the intervals that are left, and not below
their rows. -/
structure Late (t : Table) (cs : List String) (q : Row) (done xs : List Row) (f : Row → Row) :
    Prop extends Kept t cs f where
  ahead : ∀ x ∈ xs, (f q).lft < x.lft
  free : ∀ x ∈ xs, ¬Inside (f q).span (f x).span
  under : ∀ a ∈ done, a ∈ t ∧ Below (t.map f) (f a) (f q)

section Loop

variable {t : Table} {cs : List String} {q x : Row} {f g : Row → Row} {done xs : List Row}
variable (h : WellFormed t) (hroot : Rooted t) (hq : q ∈ t) (hqu : q.user = "") (hx : x ∈ t)
variable (hxc : x.cluster = q.cluster) (hxcs : x.cluster ∈ cs) (hxq : x ≠ q) (hnew : x ∉ done)

theorem Kept.target_le (hk : Kept t cs f) (hq : q ∈ t) (hx : x ∈ t)
    (hqb : ¬Branch (f x).span (f q).span) {id : Nat} (hg : Moved (f x) (f q) id (t.map f) g) :
    (g (f q)).lft ≤ (f q).lft := by
  have hle := relocate_target_le (hk.wf.lft_lt_rgt (Kept.mem hx)) hqb
  rw [← hg.span _ (Kept.mem hq)] at hle
  exact hle

include h hq hx hxq hnew

/-- What was put directly below the new parent stays there, and the row moved
is there. -/
theorem Kept.under_move (hk : Kept t cs f) (hqb : ¬Branch (f x).span (f q).span) {id : Nat}
    (hg : Moved (f x) (f q) id (t.map f) g)
    (hunder : ∀ a ∈ done, a ∈ t ∧ Below (t.map f) (f a) (f q)) :
    ∀ a ∈ x :: done, a ∈ t ∧ Below (t.map (g ∘ f)) ((g ∘ f) a) ((g ∘ f) q) := by
  intro a ha
  have hat : a ∈ t := by
    obtain rfl | ha := List.mem_cons.mp ha
    · exact hx
    · exact (hunder a ha).1
  refine ⟨hat, ?_⟩
  rw [← List.map_map, Function.comp_apply, Function.comp_apply,
    hg.below hk.wf (Kept.mem hx) (Kept.mem hq) hqb (Kept.mem hat) (Kept.mem hq)]
  obtain rfl | ha := List.mem_cons.mp ha
  · rw [if_pos rfl]
  · rw [if_neg fun heq => hnew (hk.inj h hat hx heq ▸ ha)]
    exact (hunder a ha).2

include hroot hqu hxc hxcs

theorem Late.step (hl : Late t cs q done (x :: xs) f) (hxs : ∀ y ∈ xs, y ∈ t) (oldParent : String)
    (now : Int) :
    ∃ g, moveParent x.lft x.rgt x.cluster x.id oldParent q.acct now (t.map f) =
        (t.map g, true) ∧ Aside t x.cluster f g ∧ Late t cs q (x :: done) xs g := by
  have hk := hl.toKept
  have hfx : f x ∈ t.map f := Kept.mem hx
  have hfq : f q ∈ t.map f := Kept.mem hq
  have hqb : ¬Branch (f x).span (f q).span := by
    rintro (heq | hin)
    · exact hxq (hk.inj h hx hq (hk.wf.span_inj hfx hfq heq.symm))
    · exact hl.free x List.mem_cons_self hin
  have hnone : ∀ r, r ∉ accountsWithin x.lft x.rgt (f q).acct (t.map f) := by
    intro r hr
    rw [hk.entry hq, hk.found_iff h hroot hq hqu hx hxc] at hr
    have := hl.ahead x List.mem_cons_self
    omega
  obtain ⟨g, hrun, hg⟩ := moveParent_miss hk.wf hfx hfq (by rw [hk.entry hq]; exact hqu)
    (by rw [hk.entry hq, hk.entry hx, hxc]) hnone hqb oldParent now
  rw [hk.entry hx, hk.entry hq, List.map_map] at hrun
  refine ⟨g ∘ f, hrun, hk.aside h hroot hx hq hxc.symm hqb hg,
    hk.move h hroot hx hq hxc.symm hqb hg hxcs, ?_, ?_, ?_⟩
  · intro y hy
    exact lt_of_le_of_lt (hk.target_le hq hx hqb hg) (hl.ahead y (List.mem_cons_of_mem x hy))
  · intro y hy hin
    rw [Function.comp_apply, Function.comp_apply, hg.inside hk.wf hfx hfq hqb hfq
      (Kept.mem (hxs y hy)), if_neg fun hc => hqb hc.1] at hin
    exact hl.free y (List.mem_cons_of_mem x hy) hin
  · exact hk.under_move h hq hx hxq hnew hqb hg hl.under

end Loop

/-! ## Until the new parent is found -/

/-- Only accounts to the left of `q` were moved: `q` has what was around it, and
below it what was there and the branches moved. -/
structure Early (t : Table) (cs : List String) (q : Row) (done xs : List Row) (c : Int)
    (f : Row → Row) : Prop extends Kept t cs f where
  place : (f q).lft = c
  clear : ∀ a ∈ done, ¬Inside q.span a.span
  up : ∀ r ∈ t, Inside (f q).span (f r).span ↔ Inside q.span r.span
  down : ∀ r ∈ t, Inside (f r).span (f q).span ↔
    Inside r.span q.span ∨ ∃ a ∈ done, Branch a.span r.span
  keep : ∀ x ∈ xs, ∀ r ∈ t, Inside (f r).span (f x).span ↔
    Inside r.span x.span ∨ Inside q.span x.span ∧ ∃ a ∈ done, Branch a.span r.span
  wide : ∀ x ∈ xs, ¬Inside q.span x.span →
    Base.NestedSets.width (f x).span = Base.NestedSets.width x.span
  left : ∀ r ∈ t, r.cluster = q.cluster → r.rgt < q.lft →
    (∀ a ∈ done, ¬Branch a.span r.span) → (f r).rgt < (f q).lft
  back : ∀ r ∈ t, r.cluster = q.cluster → ¬Inside (f r).span (f q).span → (f r).lft ≤ r.lft
  under : ∀ a ∈ done, a ∈ t ∧ Below (t.map f) (f a) (f q)
  parent : ∀ x ∈ xs, ∀ p ∈ t, Below t x p → Inside (f x).span (f p).span

theorem Early.start {t : Table} {cs : List String} {q : Row} {xs : List Row} {f : Row → Row}
    (h : WellFormed t) (hk : Kept t cs f) (hq : q ∈ t) (hqc : q.cluster ∉ cs)
    (hxs : ∀ x ∈ xs, x ∈ t ∧ x.cluster = q.cluster) :
    Early t (q.cluster :: cs) q [] xs q.lft f := by
  have hsame : ∀ r ∈ t, r.cluster = q.cluster → (f r).span = r.span :=
    fun r hr hrc => hk.frame r hr (hrc ▸ hqc)
  have hinside : ∀ r ∈ t, ∀ s ∈ t, s.cluster = q.cluster →
      (Inside (f r).span (f s).span ↔ Inside r.span s.span) := by
    intro r hr s hs hsc
    by_cases hrc : r.cluster = q.cluster
    · rw [hsame r hr hrc, hsame s hs hsc]
    · refine iff_of_false (fun hin => hrc ?_) fun hin => hrc ?_
      · exact (hk.cluster_eq h hr hs (Or.inr hin)).trans hsc
      · exact (h.clusters r hr s hs hin).trans hsc
  have hempty : ∀ a : Row, a ∉ ([] : List Row) := fun a => List.not_mem_nil
  refine ⟨hk.more q.cluster, congrArg Span.lft (hsame q hq rfl), ?_, ?_, ?_, ?_, ?_, ?_, ?_, ?_, ?_⟩
  · exact fun a ha => absurd ha (hempty a)
  · intro r hr
    by_cases hrc : r.cluster = q.cluster
    · rw [hsame q hq rfl, hsame r hr hrc]
    · refine iff_of_false (fun hin => hrc ?_) fun hin => hrc ?_
      · exact (hk.cluster_eq h hq hr (Or.inr hin)).symm
      · exact (h.clusters q hq r hr hin).symm
  · intro r hr
    simp only [hempty, false_and, exists_false, or_false]
    exact hinside r hr q hq rfl
  · intro x hx r hr
    simp only [hempty, false_and, exists_false, and_false, or_false]
    exact hinside r hr x (hxs x hx).1 (hxs x hx).2
  · intro x hx _
    rw [hsame x (hxs x hx).1 (hxs x hx).2]
  · intro r hr hrc hlt _
    rw [← Row.span_rgt, ← Row.span_lft, hsame r hr hrc, hsame q hq rfl]
    exact hlt
  · intro r hr hrc _
    rw [← Row.span_lft, hsame r hr hrc]
    exact le_refl _
  · exact fun a ha => absurd ha (hempty a)
  · intro x hx p hp hxp
    have hxc := (hxs x hx).2
    rw [hsame x (hxs x hx).1 hxc, hsame p hp]
    · exact hxp.1
    · exact (h.clusters x (hxs x hx).1 p hp hxp.1).symm.trans hxc

/-- The place of the new parent is not to the right of where it was. -/
theorem Early.place_le {t : Table} {q : Row} {done xs : List Row} {c : Int} {f : Row → Row}
    (he : Early t cs q done xs c f) (hq : q ∈ t) : c ≤ q.lft := by
  rw [← he.place]
  exact he.back q hq rfl (not_inside_self _)

section Loop

variable {t : Table} {cs : List String} {q x : Row} {f : Row → Row} {done xs : List Row} {c : Int}

/-- From the first account to the right on, no interval finds the new parent. -/
theorem Early.late (he : Early t cs q done xs c f) (hq : q ∈ t) (hxs : ∀ y ∈ xs, y ∈ t)
    (hright : ∀ y ∈ xs, q.lft < y.lft) : Late t cs q done xs f := by
  have hle := he.place_le hq
  refine ⟨he.toKept, ?_, ?_, he.under⟩
  · intro y hy
    rw [he.place]
    exact lt_of_le_of_lt hle (hright y hy)
  · intro y hy hin
    have := ((he.up y (hxs y hy)).mp hin).1
    have := hright y hy
    simp only [Row.span_lft] at *
    omega

/-- An account that is not around the new parent keeps its branch. -/
theorem Early.branch_iff (he : Early t cs q done xs c f) (h : WellFormed t) (hx : x ∈ t)
    (hxx : x ∈ xs) (hclear : ¬Inside q.span x.span) {r : Row} (hr : r ∈ t) :
    Branch (f x).span (f r).span ↔ Branch x.span r.span := by
  have hk := he.toKept
  have heq : (f r).span = (f x).span ↔ r.span = x.span := by
    refine ⟨fun heq => ?_, fun heq => by rw [h.span_inj hr hx heq]⟩
    exact congrArg Row.span (hk.inj h hr hx (hk.wf.span_inj (Kept.mem hr) (Kept.mem hx) heq))
  refine or_congr heq ((he.keep x hxx r hr).trans ?_)
  exact or_iff_left fun hc => hclear hc.1

/-- An account to the left is to the left of the new parent still, or in a branch
that was moved. -/
theorem Early.side (he : Early t cs q done (x :: xs) c f) (h : WellFormed t) (hx : x ∈ t)
    (hxc : x.cluster = q.cluster) (hnew : x ∉ done) (hleft : x.rgt < q.lft) :
    ((∀ a ∈ done, ¬Inside x.span a.span) ∧ (f x).rgt < (f q).lft) ∨
      ((¬∀ a ∈ done, ¬Inside x.span a.span) ∧ Inside (f x).span (f q).span) := by
  by_cases hall : ∀ a ∈ done, ¬Inside x.span a.span
  · refine Or.inl ⟨hall, he.left x hx hxc hleft fun a ha hbr => ?_⟩
    obtain heq | hin := hbr
    · exact hnew (h.span_inj hx (he.under a ha).1 heq ▸ ha)
    · exact hall a ha hin
  · refine Or.inr ⟨hall, (he.down x hx).mpr (Or.inr ?_)⟩
    push Not at hall
    obtain ⟨a, ha, hin⟩ := hall
    exact ⟨a, ha, Or.inr hin⟩

section Step

variable (h : WellFormed t) (hq : q ∈ t) (hx : x ∈ t) (hxq : x ≠ q)
variable (he : Early t cs q done (x :: xs) c f) (hleft : x.rgt < q.lft)
include h hq hleft

/-- An account to the left is not around the new parent. -/
theorem not_inside_left : ¬Inside q.span x.span := by
  intro hin
  have hrgt := hin.2
  have hqlr := h.lft_lt_rgt hq
  simp only [Row.span_rgt] at hrgt
  omega

include hx hxq he

theorem Early.apart : ¬Branch (f x).span (f q).span := by
  have hk := he.toKept
  rintro (heq | hin)
  · exact hxq (hk.inj h hx hq (hk.wf.span_inj (Kept.mem hx) (Kept.mem hq) heq.symm))
  · exact not_inside_left h hq hleft ((he.up x hx).mp hin)

variable {g : Row → Row} (hg : Moved (f x) (f q) (f x).id (t.map f) g)
include hg

/-- What lies in what once the account is moved. -/
theorem Early.moved_inside {r s : Row} (hr : r ∈ t) (hs : s ∈ t) :
    Inside (g (f r)).span (g (f s)).span ↔
      if Branch x.span r.span ∧ ¬Branch x.span s.span then f s = f q ∨ Inside (f q).span (f s).span
      else Inside (f r).span (f s).span := by
  have hbranch := fun r (hr : r ∈ t) =>
    he.branch_iff h hx List.mem_cons_self (not_inside_left h hq hleft) hr
  rw [hg.inside he.toKept.wf (Kept.mem hx) (Kept.mem hq) (he.apart h hq hx hxq hleft)
    (Kept.mem hr) (Kept.mem hs)]
  have hcut := and_congr (hbranch r hr) (not_congr (hbranch s hs))
  by_cases hc : Branch x.span r.span ∧ ¬Branch x.span s.span
  · rw [if_pos (hcut.mpr hc), if_pos hc]
  · rw [if_neg fun hf => hc (hcut.mp hf), if_neg hc]

/-- What is found in the accounts to come. -/
theorem Early.step_keep (hxs : ∀ y ∈ xs, y ∈ t ∧ y ≠ q ∧ x.lft < y.lft) :
    ∀ y ∈ xs, ∀ r ∈ t, Inside (g (f r)).span (g (f y)).span ↔
      Inside r.span y.span ∨ Inside q.span y.span ∧ ∃ a ∈ x :: done, Branch a.span r.span := by
  intro y hy r hr
  obtain ⟨hyt, hyq, hlt⟩ := hxs y hy
  have hbelow : ¬Inside x.span y.span := by
    intro hin
    have := hin.1
    simp only [Row.span_lft] at this
    omega
  rw [he.moved_inside h hq hx hxq hleft hg hr hyt]
  by_cases hcut : Branch x.span r.span ∧ ¬Branch x.span y.span
  · have hry : ¬Inside r.span y.span := fun hin => hbelow (hcut.1.inside_of_not hin hcut.2
      h.nested (mem_spans hr) (mem_spans hx) (mem_spans hyt))
    rw [if_pos hcut, he.up y hyt]
    constructor
    · rintro (heq | hin)
      · exact absurd (he.toKept.inj h hyt hq heq) hyq
      · exact Or.inr ⟨hin, x, List.mem_cons_self, hcut.1⟩
    · rintro (hin | hin)
      · exact absurd hin hry
      · exact Or.inr hin.1
  · rw [if_neg hcut, he.keep y (List.mem_cons_of_mem x hy) r hr]
    refine or_congr Iff.rfl (and_congr_right fun hqin => ?_)
    have hbr : ¬Branch x.span r.span := by
      intro hbr
      -- `y` in the branch of `x` would put `q` there
      obtain heq | hyx := not_not.mp fun hby => hcut ⟨hbr, hby⟩
      · exact not_inside_left h hq hleft (heq ▸ hqin)
      · exact not_inside_left h hq hleft (hqin.trans hyx)
    simp only [List.exists_mem_cons_iff, hbr, false_or]

/-- Rows to the left of the new parent stay there unless they are moved. -/
theorem Early.step_left : ∀ r ∈ t, r.cluster = q.cluster → r.rgt < q.lft →
    (∀ a ∈ x :: done, ¬Branch a.span r.span) → (g (f r)).rgt < (g (f q)).lft := by
  intro r hr hrc hlt hnot
  have hwf := he.toKept.wf
  have hqb := he.apart h hq hx hxq hleft
  have hbr : ¬Branch (f x).span (f r).span := fun hbr => hnot x List.mem_cons_self
    ((he.branch_iff h hx List.mem_cons_self (not_inside_left h hq hleft) hr).mp hbr)
  have hrq := he.left r hr hrc hlt fun a ha => hnot a (List.mem_cons_of_mem x ha)
  have hr' := hg.span _ (Kept.mem hr)
  have hq' := hg.span _ (Kept.mem hq)
  unfold relocate at hr' hq'
  rw [if_neg hbr] at hr'
  rw [if_neg hqb] at hq'
  have hout := hwf.nested.outside (mem_spans (Kept.mem hx)) (mem_spans (Kept.mem hr)) hbr
  have hout' := hwf.nested.outside (mem_spans (Kept.mem hx)) (mem_spans (Kept.mem hq)) hqb
  rw [← Row.span_rgt, ← Row.span_lft, hr', hq']
  exact (@shiftOut_lt (f x).span (f q).span _ _ (hwf.lft_lt_rgt (Kept.mem hx)) hout.2
    hout'.1).mpr hrq

/-- Rows that are not below the new parent do not go to the right. -/
theorem Early.step_back (hxc : x.cluster = q.cluster) (hnew : x ∉ done) :
    ∀ r ∈ t, r.cluster = q.cluster → ¬Inside (g (f r)).span (g (f q)).span →
      (g (f r)).lft ≤ r.lft := by
  intro r hr hrc hnot
  have hwf := he.toKept.wf
  have hqb := he.apart h hq hx hxq hleft
  rw [hg.inside hwf (Kept.mem hx) (Kept.mem hq) hqb (Kept.mem hr) (Kept.mem hq)] at hnot
  have hbr : ¬Branch (f x).span (f r).span := by
    intro hbr
    rw [if_pos ⟨hbr, hqb⟩] at hnot
    exact hnot (Or.inl rfl)
  rw [if_neg fun hc => hbr hc.1] at hnot
  have hle : (g (f r)).span.lft ≤ (f r).lft := by
    rw [hg.span _ (Kept.mem hr)]
    refine relocate_lft_le hwf.nested (mem_spans (Kept.mem hx)) (mem_spans (Kept.mem hq)) hqb
      (mem_spans (Kept.mem hr)) hbr hnot ?_
    obtain ⟨-, hlt⟩ | ⟨-, hin⟩ := he.side h hx hxc hnew hleft
    · have := hwf.lft_lt_rgt (Kept.mem hx)
      simp only [Row.span_lft]
      omega
    · exact Or.inr hin
  exact le_trans hle (he.back r hr hrc hnot)

/-- The accounts to come stay below their parents. -/
theorem Early.step_parent (hxs : ∀ y ∈ xs, y ∈ t ∧ y ≠ q ∧ x.lft < y.lft) :
    ∀ y ∈ xs, ∀ p ∈ t, Below t y p → Inside (g (f y)).span (g (f p)).span := by
  intro y hy p hp hyp
  obtain ⟨hyt, -, hlt⟩ := hxs y hy
  have hcut : ¬(Branch x.span y.span ∧ ¬Branch x.span p.span) := by
    rintro ⟨heq | hyx, hbp⟩
    · rw [h.span_inj hyt hx heq] at hlt
      exact absurd hlt (lt_irrefl _)
    · obtain heq | hpx := hyp.2 x.span (mem_spans hx) hyx
      · exact hbp (Or.inl heq.symm)
      · exact hbp (Or.inr hpx)
  rw [he.moved_inside h hq hx hxq hleft hg hyt hp, if_neg hcut]
  exact he.parent y (List.mem_cons_of_mem x hy) p hp hyp

end Step

variable (h : WellFormed t) (hroot : Rooted t) (hq : q ∈ t) (hqu : q.user = "") (hx : x ∈ t)
variable (hxc : x.cluster = q.cluster) (hxcs : x.cluster ∈ cs) (hxq : x ≠ q) (hnew : x ∉ done)
include h hroot hq hqu hx hxc hxcs hxq hnew

/-- An account to the left whose interval does not find the new parent. -/
theorem Early.step (he : Early t cs q done (x :: xs) c f)
    (hxs : ∀ y ∈ xs, y ∈ t ∧ y ≠ q ∧ x.lft < y.lft)
    (hleft : x.rgt < q.lft) (hmiss : ¬(x.lft ≤ c ∧ c ≤ x.rgt)) (oldParent : String) (now : Int) :
    ∃ g, moveParent x.lft x.rgt x.cluster x.id oldParent q.acct now (t.map f) =
        (t.map g, true) ∧ Aside t x.cluster f g ∧
      Early t cs q (x :: done) xs
        (if ∀ a ∈ done, ¬Inside x.span a.span then c - Base.NestedSets.width x.span else c) g := by
  have hk := he.toKept
  have hfx : f x ∈ t.map f := Kept.mem hx
  have hfq : f q ∈ t.map f := Kept.mem hq
  have hxx : x ∈ x :: xs := List.mem_cons_self
  have hclear := not_inside_left h hq hleft
  have hqb := he.apart h hq hx hxq hleft
  have hnone : ∀ r, r ∉ accountsWithin x.lft x.rgt (f q).acct (t.map f) := by
    intro r hr
    rw [hk.entry hq, hk.found_iff h hroot hq hqu hx hxc, he.place] at hr
    exact hmiss hr.2
  obtain ⟨g, hrun, hg⟩ := moveParent_miss hk.wf hfx hfq (by rw [hk.entry hq]; exact hqu)
    (by rw [hk.entry hq, hk.entry hx, hxc]) hnone hqb oldParent now
  rw [hk.entry hx, hk.entry hq, List.map_map] at hrun
  have hins := fun {r s} (hr : r ∈ t) (hs : s ∈ t) =>
    he.moved_inside h hq hx hxq hleft hg (r := r) (s := s) hr hs
  -- the new parent is in no branch that is moved
  have hqx : ¬Branch x.span q.span := by
    rintro (heq | hin)
    · exact hxq (h.span_inj hq hx heq).symm
    · exact hclear hin
  refine ⟨g ∘ f, hrun, hk.aside h hroot hx hq hxc.symm hqb hg,
    hk.move h hroot hx hq hxc.symm hqb hg hxcs, ?place, ?clear, ?up, ?down,
    he.step_keep h hq hx hxq hleft hg hxs, ?wide, he.step_left h hq hx hxq hleft hg,
    he.step_back h hq hx hxq hleft hg hxc hnew, hk.under_move h hq hx hxq hnew hqb hg he.under,
    he.step_parent h hq hx hxq hleft hg hxs⟩
  case place =>
    have hlft : (g (f q)).lft = (relocate (f x).span (f q).span (f q).span).lft :=
      congrArg Span.lft (hg.span _ hfq)
    have hxlr := hk.wf.lft_lt_rgt hfx
    rw [relocate_target_lft hqb, Row.span_lft, Row.span_lft, he.place,
      he.wide x hxx hclear] at hlft
    rw [Function.comp_apply, hlft]
    -- the account is to the left, or below the new parent already
    obtain ⟨hall, hlt⟩ | ⟨hall, hin⟩ := he.side h hx hxc hnew hleft
    · rw [if_pos hall, if_pos]
      rw [he.place] at hlt
      omega
    · rw [if_neg hall, if_neg, sub_zero]
      have := hin.1
      rw [Row.span_lft, Row.span_lft, he.place] at this
      omega
  case clear =>
    intro a ha
    obtain rfl | ha := List.mem_cons.mp ha
    · exact hclear
    · exact he.clear a ha
  case up =>
    intro r hr
    rw [Function.comp_apply, Function.comp_apply, hins hq hr, if_neg fun hc => hqx hc.1]
    exact he.up r hr
  case down =>
    intro r hr
    rw [Function.comp_apply, Function.comp_apply, hins hr hq]
    by_cases hbr : Branch x.span r.span
    · rw [if_pos ⟨hbr, hqx⟩]
      exact iff_of_true (Or.inl rfl) (Or.inr ⟨x, List.mem_cons_self, hbr⟩)
    · rw [if_neg fun hc => hbr hc.1, he.down r hr]
      simp only [List.exists_mem_cons_iff, hbr, false_or]
  case wide =>
    intro y hy hyclear
    have hyx := List.mem_cons_of_mem x hy
    obtain ⟨hyt, hyq, hlt⟩ := hxs y hy
    have hfy : f y ∈ t.map f := Kept.mem hyt
    rw [← he.wide y hyx hyclear, Function.comp_apply, hg.span _ hfy]
    refine width_relocate hk.wf.nested (mem_spans hfx) (mem_spans hfq) (mem_spans hfy) ?_ ?_ ?_
    · exact fun heq => hyq (hk.inj h hyt hq (hk.wf.span_inj hfy hfq heq))
    · exact fun hin => hyclear ((he.up y hyt).mp hin)
    · intro hin
      obtain hin | hin := (he.keep y hyx x hx).mp hin
      · have := hin.1
        simp only [Row.span_lft] at this
        omega
      · exact hyclear hin.1

/-- An account whose interval finds the new parent, which is put below the
account's old parent. -/
theorem Early.hit (he : Early t cs q done (x :: xs) c f)
    (hxs : ∀ y ∈ xs, y ∈ t ∧ y ≠ q ∧ x.lft < y.lft) (hhit : x.lft ≤ c ∧ c ≤ x.rgt)
    (hok : Inside q.span x.span ∨ ∀ a ∈ done, ¬Inside x.span a.span) {p : Row} (hp : p ∈ t)
    (hpu : p.user = "") (hxp : Below t x p) (now : Int) :
    ∃ g, moveParent x.lft x.rgt x.cluster x.id p.acct q.acct now (t.map f) = (t.map g, true) ∧
      Aside t x.cluster f g ∧ Late t cs q (x :: done) xs g := by
  have hk := he.toKept
  have hfx : f x ∈ t.map f := Kept.mem hx
  have hfq : f q ∈ t.map f := Kept.mem hq
  have hfp : f p ∈ t.map f := Kept.mem hp
  have hxx : x ∈ x :: xs := List.mem_cons_self
  have hcq := he.place_le hq
  have hpx : p.lft < x.lft := hxp.1.1
  have hpc : p.cluster = q.cluster := (h.clusters x hx p hp hxp.1).symm.trans hxc
  have hxp' : Inside (f x).span (f p).span := he.parent x hxx p hp hxp
  -- the old parent is in no branch that was moved
  have hdone : ¬∃ a ∈ done, Branch a.span p.span := by
    rintro ⟨a, ha, hbr⟩
    have hxa : Inside x.span a.span := by
      obtain heq | hpa := hbr
      · exact heq ▸ hxp.1
      · exact hxp.1.trans hpa
    obtain hin | hall := hok
    · exact he.clear a ha (hin.trans hxa)
    · exact hall a ha hxa
  have hpq : ¬Inside (f p).span (f q).span := by
    rw [he.down p hp]
    rintro (hin | hc)
    · have := hin.1
      simp only [Row.span_lft] at this
      omega
    · exact hdone hc
  have hqp : ¬Branch (f q).span (f p).span := by
    rintro (heq | hin)
    · have hpq' := hk.inj h hp hq (hk.wf.span_inj hfp hfq heq)
      rw [hpq'] at hpx
      omega
    · exact hpq hin
  have hrow : ∀ r, r ∈ accountsWithin x.lft x.rgt (f q).acct (t.map f) ↔ r = f q := by
    intro r
    rw [hk.entry hq, hk.found_iff h hroot hq hqu hx hxc, he.place]
    exact and_iff_left hhit
  have hqx' : f q ≠ f x := fun heq => hxq (hk.inj h hx hq heq.symm)
  obtain ⟨g₁, g₂, hrun, hg₁, -, hg₂⟩ := moveParent_hit hk.wf hfx hfq
    (by rw [hk.entry hq]; exact hqu) (by rw [hk.entry hq, hk.entry hx, hxc]) hrow hqx' hfp
    (by rw [hk.entry hp]; exact hpu) hqp hxp' now
  have hqb := not_branch_moved hk.wf hfx hfq hqx' hqp hfp hxp' hg₁
  have hk₁ := hk.move h hroot hq hp hpc hqp hg₁ (hxc ▸ hxcs)
  rw [hk.entry hx, hk.entry hq, hk.entry hp, List.map_map, List.map_map] at hrun
  rw [List.map_map] at hg₂
  have hunder : ∀ a ∈ done, a ∈ t ∧ Below (t.map (g₁ ∘ f)) ((g₁ ∘ f) a) ((g₁ ∘ f) q) := by
    intro a ha
    obtain ⟨hat, haq⟩ := he.under a ha
    refine ⟨hat, ?_⟩
    rw [← List.map_map, Function.comp_apply, Function.comp_apply,
      hg₁.below hk.wf hfq hfp hqp (Kept.mem hat) hfq, if_neg]
    · exact haq
    · intro heq
      rw [heq] at haq
      exact not_inside_self _ haq.1
  refine ⟨g₂ ∘ (g₁ ∘ f), hrun,
    (hxc ▸ hk.aside h hroot hq hp hpc hqp hg₁).trans (hk₁.aside h hroot hx hq hxc.symm hqb hg₂),
    hk₁.move h hroot hx hq hxc.symm hqb hg₂ hxcs, ?_, ?_, ?_⟩
  · intro y hy
    have h₂ := hk₁.target_le hq hx hqb hg₂
    have h₁ := @relocate_self_le (f q).span (f p).span (hk.wf.lft_lt_rgt hfq)
    rw [← hg₁.span _ hfq, Row.span_lft, Row.span_lft] at h₁
    have h₀ := he.back p hp hpc hpq
    have := (hxs y hy).2.2
    simp only [Function.comp_apply] at h₂ ⊢
    omega
  · intro y hy hin
    have hyt := (hxs y hy).1
    have hfy : f y ∈ t.map f := Kept.mem hyt
    have hin := (hg₂.inside hk₁.wf (Kept.mem hx) (Kept.mem hq) hqb (Kept.mem hq)
      (Kept.mem hyt)).mp hin
    rw [if_neg fun hc => hqb hc.1] at hin
    have hin := (hg₁.inside hk.wf hfq hfp hqp hfq hfy).mp hin
    have hpy : p.lft < y.lft := hpx.trans (hxs y hy).2.2
    by_cases hcut : Branch (f q).span (f q).span ∧ ¬Branch (f q).span (f y).span
    · rw [if_pos hcut] at hin
      obtain heq | hpin := hin
      · rw [hk.inj h hyt hp heq] at hpy
        exact lt_irrefl _ hpy
      · obtain hin' | hc := (he.keep y (List.mem_cons_of_mem x hy) p hp).mp hpin
        · have := hin'.1
          simp only [Row.span_lft] at this
          omega
        · exact hdone hc.2
    · rw [if_neg hcut] at hin
      refine hcut ⟨Or.inl rfl, ?_⟩
      rintro (heq | hyq)
      · rw [heq] at hin
        exact not_inside_self _ hin
      · exact hyq.not_symm hin
  · exact hk₁.under_move h hq hx hxq hnew hqb hg₂ hunder

end Loop

/-! ## The accounts of one cluster -/

/-- Rows of one cluster, in order, that may all be moved. -/
structure Segment (t : Table) (q : Row) (mayModify : Row → Bool) (xs : List Row) : Prop where
  mem : ∀ x ∈ xs, x ∈ t
  cluster : ∀ x ∈ xs, x.cluster = q.cluster
  selected : ∀ x ∈ xs, Selected t x
  may : ∀ x ∈ xs, mayModify x = true
  order : xs.Pairwise fun x y => x.lft < y.lft

/-- The rows other than the new parent. -/
def others (q : Row) (xs : List Row) : List Row := xs.filter fun x => x ≠ q

theorem others_cons_self (q : Row) (xs : List Row) : others q (q :: xs) = others q xs :=
  List.filter_cons_of_neg (by simp)

theorem others_cons {q x : Row} (hxq : x ≠ q) (xs : List Row) :
    others q (x :: xs) = x :: others q xs :=
  List.filter_cons_of_pos (by simpa using hxq)

theorem mem_others {q y : Row} {xs : List Row} : y ∈ others q xs ↔ y ∈ xs ∧ y ≠ q := by
  unfold others
  rw [List.mem_filter, decide_eq_true_eq]

section Step

variable {parent : String} {mayModify : Row → Bool} {now : Int} {row : Row} {rows : List Row}
variable {t t' : Table} {ids : List Nat}
variable (hmay : mayModify row = true) (hpart : row.partition = "") (hu : row.user = "")
include hmay hpart hu

theorem modifyLoop_self (hacct : row.acct = parent) :
    modifyLoop (some parent) mayModify now (row :: rows) t ids =
      modifyLoop (some parent) mayModify now rows t ids := by
  rw [modifyLoop, hmay, hpart, hu]
  simp only [Bool.not_true, Bool.false_eq_true, if_false, ne_eq, not_true_eq_false, or_self,
    hacct, if_true]

theorem modifyLoop_move (hacct : row.acct ≠ parent)
    (hrun : moveParent row.lft row.rgt row.cluster row.id row.parentAcct parent now t =
      (t', true)) :
    modifyLoop (some parent) mayModify now (row :: rows) t ids =
      modifyLoop (some parent) mayModify now rows t' (ids ++ [row.id]) := by
  rw [modifyLoop, hmay, hpart, hu]
  simp only [Bool.not_true, Bool.false_eq_true, if_false, ne_eq, not_true_eq_false, or_self,
    hacct, hrun]

end Step

section Run

variable {t : Table} {cs : List String} {q : Row} {mayModify : Row → Bool}
variable (h : WellFormed t) (hroot : Rooted t) (hq : q ∈ t) (hqu : q.user = "")

theorem Segment.tail {x : Row} {xs : List Row} (hs : Segment t q mayModify (x :: xs)) :
    Segment t q mayModify xs where
  mem := fun y hy => hs.mem y (List.mem_cons_of_mem x hy)
  cluster := fun y hy => hs.cluster y (List.mem_cons_of_mem x hy)
  selected := fun y hy => hs.selected y (List.mem_cons_of_mem x hy)
  may := fun y hy => hs.may y (List.mem_cons_of_mem x hy)
  order := hs.order.of_cons

/-- What a part of the loop leaves behind: the accounts of `done` and `xs` other
than `q` are directly below `q`. -/
def Placed (t : Table) (cs : List String) (q : Row) (mayModify : Row → Bool) (now : Int)
    (done xs : List Row) (ids : List Nat) (f : Row → Row) : Prop :=
  ∃ g ids', (∀ rest, modifyLoop (some q.acct) mayModify now (xs ++ rest) (t.map f) ids =
      modifyLoop (some q.acct) mayModify now rest (t.map g) ids') ∧
    Aside t q.cluster f g ∧ Kept t cs g ∧
    ∀ a, a ∈ done ∨ a ∈ others q xs → Below (t.map g) (g a) (g q)

theorem Placed.self {f : Row → Row} {done xs : List Row} {ids : List Nat} {now : Int}
    (hs : Segment t q mayModify (q :: xs))
    (hp : Placed t cs q mayModify now done xs ids f) :
    Placed t cs q mayModify now done (q :: xs) ids f := by
  obtain ⟨g, ids', hrun, haside, hk, hbelow⟩ := hp
  have hqq : q ∈ q :: xs := List.mem_cons_self
  refine ⟨g, ids', fun rest => ?_, haside, hk, fun a ha => hbelow a ?_⟩
  · rw [List.cons_append, modifyLoop_self (hs.may q hqq) (hs.selected q hqq).partition
      (hs.selected q hqq).user rfl]
    exact hrun rest
  · rwa [others_cons_self] at ha

theorem Placed.cons {f g : Row → Row} {x : Row} {done xs : List Row} {ids : List Nat} {now : Int}
    (hs : Segment t q mayModify (x :: xs)) (hxq : x ≠ q) (hacct : x.acct ≠ q.acct)
    (hrun : moveParent x.lft x.rgt x.cluster x.id x.parentAcct q.acct now (t.map f) =
      (t.map g, true))
    (haside : Aside t x.cluster f g)
    (hp : Placed t cs q mayModify now (x :: done) xs (ids ++ [x.id]) g) :
    Placed t cs q mayModify now done (x :: xs) ids f := by
  obtain ⟨g', ids', hrun', haside', hk, hbelow⟩ := hp
  have hxx : x ∈ x :: xs := List.mem_cons_self
  rw [hs.cluster x hxx] at haside
  refine ⟨g', ids', fun rest => ?_, haside.trans haside', hk, fun a ha => hbelow a ?_⟩
  · rw [List.cons_append, modifyLoop_move (hs.may x hxx) (hs.selected x hxx).partition
      (hs.selected x hxx).user hacct hrun]
    exact hrun' rest
  · rw [others_cons hxq] at ha
    obtain ha | ha := ha
    · exact Or.inl (List.mem_cons_of_mem x ha)
    · obtain rfl | ha := List.mem_cons.mp ha
      · exact Or.inl List.mem_cons_self
      · exact Or.inr ha

include h hq hqu

theorem Segment.acct_ne {x : Row} {xs : List Row} (hs : Segment t q mayModify (x :: xs))
    (hxq : x ≠ q) : x.acct ≠ q.acct := by
  have hxx : x ∈ x :: xs := List.mem_cons_self
  exact fun hacct => hxq (h.account_eq (hs.mem x hxx) hq (hs.selected x hxx).user hqu hacct
    (hs.cluster x hxx))

include hroot

/-- Once the new parent is to the left, every account that is left is moved below it. -/
theorem Late.run {f : Row → Row} {done xs : List Row} (hcs : q.cluster ∈ cs)
    (hs : Segment t q mayModify xs) (hdone : ∀ a ∈ done, a ∉ xs)
    (hl : Late t cs q done (others q xs) f) (ids : List Nat) (now : Int) :
    Placed t cs q mayModify now done xs ids f := by
  induction xs generalizing f done ids with
  | nil => exact ⟨f, ids, fun _ => rfl, fun _ _ _ => rfl, hl.toKept, fun a ha =>
    (hl.under a (ha.resolve_right List.not_mem_nil)).2⟩
  | cons x xs ih =>
    have hxx : x ∈ x :: xs := List.mem_cons_self
    have hnot : ∀ y ∈ xs, x ≠ y := by
      rintro y hy rfl
      exact lt_irrefl _ (List.rel_of_pairwise_cons hs.order hy)
    by_cases hxq : x = q
    · subst hxq
      rw [others_cons_self] at hl
      exact Placed.self hs (ih hs.tail
        (fun a ha hax => hdone a ha (List.mem_cons_of_mem x hax)) hl ids)
    · rw [others_cons hxq] at hl
      obtain ⟨g, hrun, haside, hl'⟩ := hl.step h hroot hq hqu (hs.mem x hxx) (hs.cluster x hxx)
        (hs.cluster x hxx ▸ hcs) hxq (fun hx => hdone x hx hxx)
        (fun y hy => hs.tail.mem y (mem_others.mp hy).1) x.parentAcct now
      refine Placed.cons hs hxq (hs.acct_ne h hq hqu hxq) hrun haside (ih hs.tail ?_ hl' _)
      intro a ha hax
      obtain rfl | ha := List.mem_cons.mp ha
      · exact hnot a hax rfl
      · exact hdone a ha (List.mem_cons_of_mem x hax)

/-- Under the condition every account is moved below the new parent. -/
theorem Early.run {f : Row → Row} {done xs : List Row} {c : Int} (hcs : q.cluster ∈ cs)
    (hs : Segment t q mayModify xs) (hdone : ∀ a ∈ done, a ∉ xs)
    (hok : MovesOk q.span c (done.map Row.span) ((others q xs).map Row.span))
    (he : Early t cs q done (others q xs) c f) (ids : List Nat) (now : Int) :
    Placed t cs q mayModify now done xs ids f := by
  induction xs generalizing f done c ids with
  | nil => exact ⟨f, ids, fun _ => rfl, fun _ _ _ => rfl, he.toKept, fun a ha =>
    (he.under a (ha.resolve_right List.not_mem_nil)).2⟩
  | cons x xs ih =>
    have hxx : x ∈ x :: xs := List.mem_cons_self
    have hxt := hs.mem x hxx
    have hafter : ∀ y ∈ xs, x.lft < y.lft := fun y hy => List.rel_of_pairwise_cons hs.order hy
    have hdone' : ∀ a ∈ x :: done, a ∉ xs := by
      intro a ha hax
      obtain rfl | ha := List.mem_cons.mp ha
      · exact lt_irrefl _ (hafter a hax)
      · exact hdone a ha (List.mem_cons_of_mem x hax)
    by_cases hxq : x = q
    · subst hxq
      rw [others_cons_self] at he hok
      exact Placed.self hs
        (ih hs.tail (fun a ha => hdone' a (List.mem_cons_of_mem x ha)) hok he ids)
    · rw [others_cons hxq] at he hok
      have hrest : ∀ y ∈ others q xs, y ∈ t ∧ y ≠ q ∧ x.lft < y.lft := fun y hy =>
        ⟨hs.tail.mem y (mem_others.mp hy).1, (mem_others.mp hy).2, hafter y (mem_others.mp hy).1⟩
      have hnew : x ∉ done := fun hx => hdone x hx hxx
      have hxcs : x.cluster ∈ cs := hs.cluster x hxx ▸ hcs
      have hacct := hs.acct_ne h hq hqu hxq
      rw [List.map_cons, MovesOk] at hok
      by_cases hhit : x.span.lft ≤ c ∧ c ≤ x.span.rgt
      · -- the new parent is found: from here on it is to the left
        rw [if_pos hhit, List.forall_mem_map] at hok
        obtain ⟨p, hp, hpu, hpa, hxp⟩ := (hs.selected x hxx).parent
        obtain ⟨g, hrun, haside, hl⟩ :=
          he.hit h hroot hq hqu hxt (hs.cluster x hxx) hxcs hxq hnew hrest
          hhit hok hp hpu hxp now
        rw [hpa] at hrun
        exact Placed.cons hs hxq hacct hrun haside
          (Late.run h hroot hq hqu hcs hs.tail hdone' hl _ now)
      · rw [if_neg hhit] at hok
        by_cases hleft : x.rgt < q.lft
        · obtain ⟨g, hrun, haside, he'⟩ :=
            he.step h hroot hq hqu hxt (hs.cluster x hxx) hxcs hxq hnew
            hrest hleft hhit x.parentAcct now
          refine Placed.cons hs hxq hacct hrun haside (ih hs.tail hdone' ?_ he' _)
          have hc := hok.2
          simp only [placeAfter, Row.span_lft, Row.span_rgt, hleft, true_and,
            List.forall_mem_map] at hc
          exact hc
        -- the first row to the right of `q`: all that follow are
        · have hright : q.lft < x.lft := by
            obtain h1 | h1 | h1 | h1 := h.nested.apart_of_ne (mem_spans hxt) (mem_spans hq)
              fun heq => hxq (h.span_inj hxt hq heq)
            · exact absurd h1 hleft
            · have := h.lft_lt_rgt hq
              simp only [Row.span_lft, Row.span_rgt] at h1
              omega
            · exact h1.1
            · exact absurd h1 hok.1
          refine Late.run h hroot hq hqu hcs hs hdone ?_ ids now
          rw [others_cons hxq]
          refine he.late hq ?_ ?_
          · intro y hy
            obtain rfl | hy := List.mem_cons.mp hy
            · exact hxt
            · exact (hrest y hy).1
          · intro y hy
            obtain rfl | hy := List.mem_cons.mp hy
            · exact hright
            · exact hright.trans (hrest y hy).2.2

end Run

/-! ## All clusters -/

/-- The fetched rows, and the condition for every cluster. -/
structure Batch (t : Table) (parent : String) (mayModify : Row → Bool) (xs : List Row) : Prop where
  mem : ∀ x ∈ xs, x ∈ t
  selected : ∀ x ∈ xs, Selected t x
  may : ∀ x ∈ xs, mayModify x = true
  order : xs.Pairwise fun x y => x.lft < y.lft
  target : ∀ x ∈ xs, ∃ q ∈ t, q.user = "" ∧ q.acct = parent ∧ q.cluster = x.cluster
  ok : ∀ q ∈ t, q.user = "" → q.acct = parent →
    MovesOk q.span q.lft [] ((xs.filter fun x =>
      x.cluster = q.cluster ∧ x.acct ≠ parent).map Row.span)

section Batch

variable {t : Table} {parent : String} {mayModify : Row → Bool}
variable (h : WellFormed t) (hroot : Rooted t)
include h

/-- A row keeps its parent through moves in other clusters. -/
theorem below_aside {cs cs' : List String} {name : String} {f g : Row → Row} {x q : Row}
    (hk : Kept t cs f) (hk' : Kept t cs' g) (haside : Aside t name f g) (hx : x ∈ t) (hq : q ∈ t)
    (hne : x.cluster ≠ name) (hxq : Below (t.map f) (f x) (f q)) :
    Below (t.map g) (g x) (g q) := by
  have hqc : q.cluster = x.cluster := (hk.cluster_eq h hx hq (Or.inr hxq.1)).symm
  have hxs := haside x hx hne
  have hqs := haside q hq (hqc ▸ hne)
  refine ⟨?_, ?_⟩
  · rw [hxs, hqs]
    exact hxq.1
  · intro c' hc' hin
    obtain ⟨r', hr', rfl⟩ := List.mem_map.mp hc'
    obtain ⟨r, hr, rfl⟩ := List.mem_map.mp hr'
    have hrc : r.cluster = x.cluster := (hk'.cluster_eq h hx hr (Or.inr hin)).symm
    rw [haside r hr (hrc ▸ hne)] at hin ⊢
    rw [hxs] at hin
    rw [hqs]
    exact hxq.2 _ (mem_spans (Kept.mem hr)) hin

include hroot

/-- The rows of a cluster follow each other. -/
theorem Batch.cluster_ne {x : Row} {xs : List Row} (hb : Batch t parent mayModify (x :: xs)) :
    ∀ y ∈ (x :: xs).dropWhile fun y => y.cluster = x.cluster, y.cluster ≠ x.cluster := by
  intro y hy hyc
  have hsuffix := List.dropWhile_suffix (l := x :: xs) fun y => decide (y.cluster = x.cluster)
  have hmem : ∀ z ∈ (x :: xs).dropWhile fun y => y.cluster = x.cluster, z ∈ t :=
    fun z hz => hb.mem z (hsuffix.subset hz)
  cases hdrop : (x :: xs).dropWhile fun y => decide (y.cluster = x.cluster) with
  | nil =>
    rw [hdrop] at hy
    exact absurd hy List.not_mem_nil
  | cons z zs =>
    have hzc : z.cluster ≠ x.cluster := by
      have := List.head?_dropWhile_not (fun y : Row => decide (y.cluster = x.cluster)) (x :: xs)
      rw [hdrop] at this
      simpa using this
    rw [hdrop] at hy hmem
    have hxt := hb.mem x List.mem_cons_self
    have hzt := hmem z List.mem_cons_self
    have hyt := hmem y hy
    have hzx : z ∈ x :: xs := hsuffix.subset (by rw [hdrop]; exact List.mem_cons_self)
    have hxz : x.lft < z.lft := by
      obtain rfl | hz := List.mem_cons.mp hzx
      · exact absurd rfl hzc
      · exact List.rel_of_pairwise_cons hb.order hz
    have hzy : z.lft ≤ y.lft := by
      obtain rfl | hy := List.mem_cons.mp hy
      · exact le_refl _
      · have hord := hb.order.sublist hsuffix.sublist
        rw [hdrop] at hord
        exact le_of_lt (List.rel_of_pairwise_cons hord hy)
    -- both ends of the root are around the row between
    obtain ⟨c, hc, hcroot, hcx⟩ := hroot x hxt
    have hxe := (hcroot.2 x hxt hcx.symm).ends (h.lft_lt_rgt hc) (h.lft_lt_rgt hxt)
    have hye := (hcroot.2 y hyt (hyc.trans hcx.symm)).ends (h.lft_lt_rgt hc) (h.lft_lt_rgt hyt)
    simp only [Row.span_lft, Row.span_rgt] at hxe hye
    have hcz : Branch c.span z.span := by
      refine (h.nested.branch_iff (mem_spans hc) (mem_spans hzt)).mpr ?_
      simp only [Row.span_lft, Row.span_rgt]
      omega
    obtain heq | hin := hcz
    · exact hzc (by rw [h.span_inj hzt hc heq, hcx])
    · exact hzc ((h.clusters z hzt c hc hin).trans hcx)

/-- The rows of the first cluster, and the others. -/
theorem Batch.split {x q : Row} {xs : List Row} (hb : Batch t parent mayModify (x :: xs))
    (hq : q ∈ t) (hqu : q.user = "") (hqa : q.acct = parent) (hqc : q.cluster = x.cluster) :
    ∃ seg rest, x :: xs = seg ++ rest ∧ x ∈ seg ∧ Segment t q mayModify seg ∧
      MovesOk q.span q.lft [] ((others q seg).map Row.span) ∧ Batch t parent mayModify rest ∧
      ∀ y ∈ rest, y.cluster ≠ q.cluster := by
  have hne := hb.cluster_ne h hroot
  have hsplit := List.takeWhile_append_dropWhile (p := fun y : Row =>
    decide (y.cluster = x.cluster)) (l := x :: xs)
  -- the rows come cluster after cluster
  have hseg : ∀ y ∈ (x :: xs).takeWhile fun y => y.cluster = x.cluster, y.cluster = x.cluster :=
    fun y hy => by simpa using List.mem_takeWhile_imp hy
  have hx : x ∈ (x :: xs).takeWhile fun y => y.cluster = x.cluster := by
    rw [List.takeWhile_cons_of_pos (by simp)]
    exact List.mem_cons_self
  generalize (x :: xs).takeWhile (fun y => decide (y.cluster = x.cluster)) = seg at *
  generalize (x :: xs).dropWhile (fun y => decide (y.cluster = x.cluster)) = rest at *
  have hl : ∀ y ∈ seg, y ∈ x :: xs := fun y hy => hsplit ▸ List.mem_append_left rest hy
  have hr : ∀ y ∈ rest, y ∈ x :: xs := fun y hy => hsplit ▸ List.mem_append_right seg hy
  have horder := hb.order
  rw [← hsplit, List.pairwise_append] at horder
  refine ⟨seg, rest, hsplit.symm, hx, ⟨fun y hy => hb.mem y (hl y hy), ?_,
    fun y hy => hb.selected y (hl y hy), fun y hy => hb.may y (hl y hy), horder.1⟩, ?_,
    ⟨fun y hy => hb.mem y (hr y hy), fun y hy => hb.selected y (hr y hy),
      fun y hy => hb.may y (hr y hy), horder.2.1, fun y hy => hb.target y (hr y hy), ?_⟩, ?_⟩
  · exact fun y hy => (hseg y hy).trans hqc.symm
  · have hok := hb.ok q hq hqu hqa
    -- the accounts of this cluster but the new parent
    have hothers : (x :: xs).filter (fun y => y.cluster = q.cluster ∧ y.acct ≠ parent) =
        others q seg := by
      have hnone : rest.filter (fun y => decide (y.cluster = q.cluster ∧ y.acct ≠ parent)) =
          [] := by
        refine List.filter_eq_nil_iff.mpr fun y hy => ?_
        have := hne y hy
        rw [← hqc] at this
        simp [this]
      unfold others
      rw [← hsplit, List.filter_append, hnone, List.append_nil]
      refine List.filter_congr fun y hy => ?_
      have hyc : y.cluster = q.cluster := (hseg y hy).trans hqc.symm
      have hyq : y.acct ≠ parent ↔ y ≠ q := by
        refine not_congr ⟨fun hya => ?_, fun heq => heq ▸ hqa⟩
        exact h.account_eq (hb.mem y (hl y hy)) hq (hb.selected y (hl y hy)).user hqu
          (hya.trans hqa.symm) hyc
      simp only [hyc, true_and, hyq]
    rw [hothers] at hok
    exact hok
  · intro q' hq' hqu' hqa'
    by_cases hsame : q'.cluster = q.cluster
    · have hnone : rest.filter (fun y => decide (y.cluster = q'.cluster ∧ y.acct ≠ parent)) =
          [] := by
        refine List.filter_eq_nil_iff.mpr fun y hy => ?_
        have := hne y hy
        rw [← hqc, ← hsame] at this
        simp [this]
      rw [hnone]
      exact trivial
    · have hok := hb.ok q' hq' hqu' hqa'
      have hnone : seg.filter (fun y => decide (y.cluster = q'.cluster ∧ y.acct ≠ parent)) =
          [] := by
        refine List.filter_eq_nil_iff.mpr fun y hy => ?_
        have := (hseg y hy).trans hqc.symm
        simp [this, Ne.symm hsame]
      rw [← hsplit, List.filter_append, hnone, List.nil_append] at hok
      exact hok
  · intro y hy
    rw [hqc]
    exact hne y hy

/-- The loop moves every selected account below the new parent of its cluster. -/
theorem Batch.run {cs : List String} {f : Row → Row} {xs : List Row}
    (hb : Batch t parent mayModify xs) (hk : Kept t cs f) (hcs : ∀ x ∈ xs, x.cluster ∉ cs)
    (ids : List Nat) (now : Int) :
    ∃ g ids' cs', modifyLoop (some parent) mayModify now xs (t.map f) ids =
        some (t.map g, ids') ∧ Kept t cs' g ∧
      (∀ x ∈ t, ∀ q ∈ t, (∀ y ∈ xs, y.cluster ≠ x.cluster) → Below (t.map f) (f x) (f q) →
        Below (t.map g) (g x) (g q)) ∧
      ∀ x ∈ xs, x.acct ≠ parent → ∃ q ∈ t, q.user = "" ∧ q.acct = parent ∧
        q.cluster = x.cluster ∧ Below (t.map g) (g x) (g q) := by
  induction hn : xs.length using Nat.strong_induction_on generalizing xs f cs ids with
  | _ n ih =>
    subst hn
    cases xs with
    | nil =>
      exact ⟨f, ids, cs, rfl, hk, fun _ _ _ _ _ hb => hb, fun x hx => absurd hx List.not_mem_nil⟩
    | cons x xs =>
      have hxx : x ∈ x :: xs := List.mem_cons_self
      obtain ⟨q, hq, hqu, hqa, hqc⟩ := hb.target x hxx
      obtain ⟨seg, rest, hsplit, hxseg, hseg, hok, hrest, hne⟩ := hb.split h hroot hq hqu hqa hqc
      have hlen : rest.length < (x :: xs).length := by
        rw [hsplit, List.length_append]
        have := List.length_pos_of_mem hxseg
        omega
      have hqcs : q.cluster ∉ cs := hqc ▸ hcs x hxx
      have he := @Early.start t cs q (others q seg) _ h hk hq hqcs fun y hy =>
        ⟨hseg.mem y (mem_others.mp hy).1, hseg.cluster y (mem_others.mp hy).1⟩
      obtain ⟨g₁, ids₁, hrun₁, haside₁, hk₁, hbelow₁⟩ := Early.run h hroot hq hqu
        List.mem_cons_self hseg (fun a ha => absurd ha List.not_mem_nil) hok he ids now
      have hrestcs : ∀ y ∈ rest, y.cluster ∉ q.cluster :: cs := by
        intro y hy hc
        obtain heq | hc := List.mem_cons.mp hc
        · exact hne y hy heq
        · exact hcs y (hsplit ▸ List.mem_append_right seg hy) hc
      obtain ⟨g, ids', cs', hrun, hk', haside, hbelow⟩ := ih _ hlen hrest hk₁ hrestcs ids₁ rfl
      refine ⟨g, ids', cs', ?_, hk', ?_, ?_⟩
      · rw [hsplit, ← hqa, hrun₁, hqa]
        exact hrun
      · intro x' hx' q' hq' hother hin
        refine haside x' hx' q' hq' ?_ (below_aside h hk hk₁ haside₁ hx' hq' ?_ hin)
        · exact fun y hy => hother y (hsplit ▸ List.mem_append_right seg hy)
        · rw [hqc]
          exact (hother x hxx).symm
      · intro y hy hacct
        rw [hsplit] at hy
        obtain hy | hy := List.mem_append.mp hy
        · have hyq : y ≠ q := fun heq => hacct (heq ▸ hqa)
          refine ⟨q, hq, hqu, hqa, (hseg.cluster y hy).symm, ?_⟩
          refine haside y (hseg.mem y hy) q hq ?_ (hbelow₁ y (Or.inr (mem_others.mpr ⟨hy, hyq⟩)))
          intro z hz
          rw [hseg.cluster y hy]
          exact hne z hz
        · exact hbelow y hy hacct

end Batch

/-! ## The call -/

/-- The trees are in order, and every selected account other than the new parent
is directly below the new parent. -/
structure Reparented (sel : Row → Bool) (parent : String) (t t' : Table) : Prop where
  nested : Nested (spans t')
  positive : ∀ r ∈ t', 0 < r.lft ∧ 0 < r.rgt
  below : ∀ x ∈ t, sel x = true → x.acct ≠ parent → ∃ x' ∈ t', x'.id = x.id ∧
    ∃ q ∈ t', q.user = "" ∧ q.acct = parent ∧ q.cluster = x.cluster ∧ Below t' x' q

theorem WellFormed.lft_inj {t : Table} {r s : Row} (h : WellFormed t) (hr : r ∈ t) (hs : s ∈ t)
    (heq : r.lft = s.lft) : r = s := by
  by_contra hne
  have hrlr := h.lft_lt_rgt hr
  have hslr := h.lft_lt_rgt hs
  have hap := h.nested.apart_of_ne (mem_spans hr) (mem_spans hs)
    fun heq' => hne (h.span_inj hr hs heq')
  simp only [Apart, Inside, Row.span_lft, Row.span_rgt] at hap
  omega

theorem mem_fetched {sel : Row → Bool} {t : Table} {x : Row} :
    x ∈ fetched sel t ↔ x ∈ t ∧ sel x = true := by
  unfold fetched
  rw [mem_orderByLft, List.mem_filter]

theorem fetched_order {t : Table} (h : WellFormed t) (sel : Row → Bool) :
    (fetched sel t).Pairwise fun x y => x.lft < y.lft := by
  have hle : (fetched sel t).Pairwise fun x y => x.lft ≤ y.lft :=
    List.pairwise_insertionSort _ _
  have hnodup : (fetched sel t).Nodup := by
    refine (List.perm_insertionSort _ _).nodup_iff.mpr (List.Nodup.filter sel ?_)
    exact List.Nodup.of_map _ h.ids
  refine (hle.and hnodup).imp_of_mem ?_
  intro x y hx hy hxy
  refine lt_of_le_of_ne hxy.1 fun heq => hxy.2 ?_
  exact h.lft_inj (mem_fetched.mp hx).1 (mem_fetched.mp hy).1 heq

/-- A change of limits changes no tree. -/
theorem Reparented.map {sel : Row → Bool} {parent : String} {t t' : Table} {u : Row → Row}
    (hentry : ∀ r, (u r).toEntry = r.toEntry) (hspan : ∀ r, (u r).span = r.span)
    (hr : Reparented sel parent t t') : Reparented sel parent t (t'.map u) := by
  have hspans : spans (t'.map u) = spans t' := by
    unfold spans
    rw [List.map_map]
    exact List.map_congr_left fun r _ => hspan r
  refine ⟨?_, ?_, ?_⟩
  · rw [hspans]
    exact hr.nested
  · intro r' hr'
    obtain ⟨r, hr₁, rfl⟩ := List.mem_map.mp hr'
    rw [← Row.span_lft, ← Row.span_rgt, hspan]
    exact hr.positive r hr₁
  · intro x hx hsel hacct
    obtain ⟨x', hx', hid, q, hq, hqu, hqa, hqc, hbelow⟩ := hr.below x hx hsel hacct
    refine ⟨u x', List.mem_map_of_mem hx', ?_, u q, List.mem_map_of_mem hq, ?_, ?_, ?_, ?_⟩
    · rw [hentry, hid]
    · rw [hentry, hqu]
    · rw [hentry, hqa]
    · rw [hentry, hqc]
    · unfold Below
      rw [hspans, hspan, hspan]
      exact hbelow

/-- Under the condition the selected accounts end below the new parent, in trees
that are in order. -/
theorem modifyAssociations_reparented {t : Table} {sel : Row → Bool} {parent : String}
    {mayModify : Row → Bool} (h : WellFormed t) (hroot : Rooted t) (hpos : ∀ r ∈ t, 0 < r.lft)
    (hsel : ∀ x ∈ t, sel x = true → Selected t x ∧ mayModify x = true)
    (hparent : ∀ x ∈ t, sel x = true →
      ∃ q ∈ t, q.user = "" ∧ q.acct = parent ∧ q.cluster = x.cluster)
    (hok : MovesInOrder sel parent t) (vals : Option (Limits → Limits)) (now : Int) :
    ∃ t', modifyAssociations sel (some parent) vals mayModify now t = some t' ∧
      Reparented sel parent t t' := by
  have hb : Batch t parent mayModify (fetched sel t) := by
    refine ⟨fun x hx => (mem_fetched.mp hx).1, ?_, ?_, fetched_order h sel, ?_, hok⟩
    · exact fun x hx => (hsel x (mem_fetched.mp hx).1 (mem_fetched.mp hx).2).1
    · exact fun x hx => (hsel x (mem_fetched.mp hx).1 (mem_fetched.mp hx).2).2
    · exact fun x hx => hparent x (mem_fetched.mp hx).1 (mem_fetched.mp hx).2
  have hstart : Kept t [] fun r => r := Kept.start h hpos
  obtain ⟨g, ids, cs, hrun, hk, -, hbelow⟩ := hb.run h hroot hstart
    (fun _ _ => List.not_mem_nil) [] now
  rw [List.map_id'' fun _ => rfl] at hrun
  have hdone : Reparented sel parent t (t.map g) := by
    refine ⟨hk.wf.nested, ?_, ?_⟩
    · intro r' hr'
      obtain ⟨r, hr, rfl⟩ := List.mem_map.mp hr'
      have := hk.positive r hr
      have := hk.wf.lft_lt_rgt hr'
      omega
    · intro x hx hx' hacct
      obtain ⟨q, hq, hqu, hqa, hqc, hxq⟩ := hbelow x (mem_fetched.mpr ⟨hx, hx'⟩) hacct
      refine ⟨g x, Kept.mem hx, ?_, g q, Kept.mem hq, ?_, ?_, ?_, hxq⟩
      · rw [hk.entry hx]
      · rw [hk.entry hq, hqu]
      · rw [hk.entry hq, hqa]
      · rw [hk.entry hq, hqc]
  unfold modifyAssociations
  rw [hrun]
  cases vals with
  | none => exact ⟨_, rfl, hdone⟩
  | some set =>
    refine ⟨_, rfl, hdone.map ?_ ?_⟩
    · intro r
      unfold stmt
      split <;> rfl
    · intro r
      unfold stmt
      split <;> rfl

instance (t : Table) (c : Row) : Decidable (IsRoot t c) :=
  inferInstanceAs (Decidable (_ ∧ ∀ s ∈ t, _ → _))

instance (t : Table) : Decidable (Rooted t) :=
  inferInstanceAs (Decidable (∀ r ∈ t, ∃ c ∈ t, _))

instance MovesOk.decidable (q : Span) :
    (c : Int) → (earlier xs : List Span) → Decidable (MovesOk q c earlier xs)
  | _, _, [] => isTrue trivial
  | c, earlier, x :: xs =>
    have := MovesOk.decidable q (placeAfter q c earlier x) (x :: earlier) xs
    inferInstanceAs (Decidable (if x.lft ≤ c ∧ c ≤ x.rgt then
      Inside q x ∨ ∀ a ∈ earlier, ¬Inside x a
      else ¬Inside q x ∧ MovesOk q (placeAfter q c earlier x) (x :: earlier) xs))

instance (sel : Row → Bool) (parent : String) (t : Table) :
    Decidable (MovesInOrder sel parent t) :=
  inferInstanceAs (Decidable (∀ q ∈ t, _ → _ → _))

/-- An account with a sibling to its left and one account below. -/
def siblings : Table :=
  [{ id := 1, acct := "root", cluster := "tux", lft := 1, rgt := 8 },
    { id := 2, acct := "a", cluster := "tux", parentAcct := "root", lft := 2, rgt := 3 },
    { id := 3, acct := "b", cluster := "tux", parentAcct := "root", lft := 4, rgt := 7 },
    { id := 4, acct := "c", cluster := "tux", parentAcct := "b", lft := 5, rgt := 6 }]

/-- The account above the new parent comes first. -/
theorem modifyAssociations_reparented_above :
    ∃ t', modifyAssociations (fun r => r.id = 3) (some "c") none (fun _ => true) 9 siblings =
        some t' ∧ Reparented (fun r => r.id = 3) "c" siblings t' :=
  modifyAssociations_reparented (by decide +kernel) (by decide +kernel) (by decide +kernel)
    (by
      intro x hx hsel
      have hx3 : x = siblings[2] := by
        revert x
        decide +kernel
      subst hx3
      exact ⟨⟨rfl, rfl, siblings[0], by decide +kernel, rfl, rfl, by decide +kernel⟩, rfl⟩)
    (by decide +kernel) (by decide +kernel) none 9

/-- Once the sibling is below the new parent, the fetched interval of the account
above the new parent does not find it: that account is moved into its own branch. -/
theorem not_reparented_sibling :
    WellFormed siblings ∧ Rooted siblings ∧ (∀ r ∈ siblings, 0 < r.lft) ∧
      (∀ x ∈ siblings, (x.id = 2 ∨ x.id = 3) → x.user = "" ∧ x.partition = "" ∧
        Below siblings x siblings[0] ∧ x.parentAcct = "root") ∧
      ∃ t', modifyAssociations (fun r => r.id = 2 ∨ r.id = 3) (some "c") none (fun _ => true) 9
          siblings = some t' ∧
        ¬Reparented (fun r => r.id = 2 ∨ r.id = 3) "c" siblings t' := by
  refine ⟨by decide +kernel, by decide +kernel, by decide +kernel, by decide +kernel, _, rfl,
    fun hr => ?_⟩
  have hnested := hr.nested
  revert hnested
  decide +kernel

end Slurm.AssocTable
