import Mathlib

/-!
# Trees as nested intervals

A tree kept as one interval for each node: a node is below another one when its
interval lies inside. The positions carry no other meaning, so they may be
renumbered, and a whole branch is moved by changing positions only.

* **Nesting** (`Nested`): the intervals share no end and lie apart or one inside
  the other.
* **Renumbering** (`Nested.renumber`): a map that keeps the order of the ends
  keeps the tree.
* **Branches** (`branch_iff`): a branch is what begins within its node.
* **Moves** (`nested_relocate`, `under_relocate`): a branch is cut out and put
  first below another node; no other node changes its parent.
* **Cuts and leaves** (`nested_closeGap`, `nested_leafAt`): a branch is cut out
  and its room is given up; room is made for a leaf.
-/

namespace Base.NestedSets

/-- The interval of a node. -/
structure Span where
  lft : Int
  rgt : Int
deriving DecidableEq

/-- Strictly inside. -/
def Inside (a b : Span) : Prop := b.lft < a.lft ∧ a.rgt < b.rgt

/-- Apart, or one inside the other. -/
def Apart (a b : Span) : Prop := a.rgt < b.lft ∨ b.rgt < a.lft ∨ Inside a b ∨ Inside b a

/-- Intervals that are a tree. -/
structure Nested (l : List Span) : Prop where
  proper : ∀ x ∈ l, x.lft < x.rgt
  apart : l.Pairwise Apart

/-- In the branch of a node: the node or what is inside. -/
def Branch (a x : Span) : Prop := x = a ∨ Inside x a

/-- Directly below: inside, and anything else around is further out. -/
def Under (l : List Span) (a b : Span) : Prop :=
  Inside a b ∧ ∀ c ∈ l, Inside a c → c = b ∨ Inside b c

instance (a b : Span) : Decidable (Inside a b) := inferInstanceAs (Decidable (_ ∧ _))
instance (a b : Span) : Decidable (Apart a b) := inferInstanceAs (Decidable (_ ∨ _ ∨ _ ∨ _))
instance (a x : Span) : Decidable (Branch a x) := inferInstanceAs (Decidable (_ ∨ _))
instance (l : List Span) (a b : Span) : Decidable (Under l a b) :=
  inferInstanceAs (Decidable (_ ∧ ∀ c ∈ l, _))
instance (l : List Span) : Decidable (Nested l) :=
  decidable_of_iff ((∀ x ∈ l, x.lft < x.rgt) ∧ l.Pairwise Apart)
    ⟨fun h => ⟨h.1, h.2⟩, fun h => ⟨h.1, h.2⟩⟩

variable {l : List Span} {a b c q x y : Span}

theorem Apart.symm (h : Apart a b) : Apart b a := by
  obtain h | h | h | h := h
  · exact Or.inr (Or.inl h)
  · exact Or.inl h
  · exact Or.inr (Or.inr (Or.inr h))
  · exact Or.inr (Or.inr (Or.inl h))

theorem Inside.trans (h : Inside a b) (h' : Inside b c) : Inside a c :=
  ⟨h'.1.trans h.1, h.2.trans h'.2⟩

theorem not_inside_self (a : Span) : ¬Inside a a := fun h => lt_irrefl _ h.1

theorem Inside.not_symm (h : Inside a b) : ¬Inside b a := fun h' => not_inside_self a (h.trans h')

theorem Nested.apart_of_ne (h : Nested l) (hx : x ∈ l) (hy : y ∈ l) (hne : x ≠ y) : Apart x y := by
  have hsym : Std.Symm Apart := ⟨fun _ _ => Apart.symm⟩
  exact h.apart.forall hx hy hne

theorem Nested.nodup (h : Nested l) : l.Nodup := by
  refine h.apart.imp_of_mem ?_
  rintro x y hx hy hxy rfl
  have := h.proper x hx
  obtain h | h | h | h := hxy
  · omega
  · omega
  · exact not_inside_self x h
  · exact not_inside_self x h

/-- What lies around a node lies one around the other. -/
theorem Nested.chain (h : Nested l) (hx : x ∈ l) (hb : b ∈ l) (hc : c ∈ l) (hxb : Inside x b)
    (hxc : Inside x c) : b = c ∨ Inside b c ∨ Inside c b := by
  by_cases hne : b = c
  · exact Or.inl hne
  · have hxp := h.proper x hx
    obtain hap | hap | hap | hap := h.apart_of_ne hb hc hne
    · have := hxb.2
      have := hxc.1
      omega
    · have := hxb.1
      have := hxc.2
      omega
    · exact Or.inr (Or.inl hap)
    · exact Or.inr (Or.inr hap)

/-- A branch is what begins within its node. -/
theorem Nested.branch_iff (h : Nested l) (ha : a ∈ l) (hx : x ∈ l) :
    Branch a x ↔ a.lft ≤ x.lft ∧ x.lft ≤ a.rgt := by
  have hap := h.proper a ha
  have hxp := h.proper x hx
  constructor
  · rintro (rfl | hin)
    · omega
    · have := hin.1
      have := hin.2
      omega
  · intro hbetween
    by_cases hne : x = a
    · exact Or.inl hne
    · obtain h1 | h1 | h1 | h1 := h.apart_of_ne hx ha hne
      · omega
      · omega
      · exact Or.inr h1
      · have := h1.1
        omega

/-- Outside a branch both ends are outside its node. -/
theorem Nested.outside (h : Nested l) (ha : a ∈ l) (hx : x ∈ l) (hout : ¬Branch a x) :
    (x.lft < a.lft ∨ a.rgt < x.lft) ∧ (x.rgt < a.lft ∨ a.rgt < x.rgt) := by
  have hap := h.proper a ha
  have hxp := h.proper x hx
  have hne : x ≠ a := fun heq => hout (Or.inl heq)
  obtain h1 | h1 | h1 | h1 := h.apart_of_ne hx ha hne
  · omega
  · omega
  · exact absurd (Or.inr h1) hout
  · have := h1.1
    have := h1.2
    omega

/-- In a branch both ends are within its node. -/
theorem Branch.ends (hbr : Branch a x) (hap : a.lft < a.rgt) (hxp : x.lft < x.rgt) :
    (a.lft ≤ x.lft ∧ x.lft ≤ a.rgt) ∧ a.lft ≤ x.rgt ∧ x.rgt ≤ a.rgt := by
  obtain rfl | hin := hbr
  · omega
  · have := hin.1
    have := hin.2
    omega

theorem Branch.trans (hbr : Branch a x) (hba : Branch b a) : Branch b x := by
  obtain rfl | hxa := hbr
  · exact hba
  · obtain rfl | hab := hba
    · exact Or.inr hxa
    · exact Or.inr (hxa.trans hab)

theorem Branch.inside_of_not (hx : Branch a x) (hin : Inside x b) (hb : ¬Branch a b)
    (h : Nested l) (hxl : x ∈ l) (hal : a ∈ l) (hbl : b ∈ l) : Inside a b := by
  obtain rfl | hxa := hx
  · exact hin
  · obtain rfl | hab | hba := h.chain hxl hal hbl hxa hin
    · exact absurd (Or.inl rfl) hb
    · exact hab
    · exact absurd (Or.inr hba) hb

/-! ## Renumbering -/

/-- Both ends through a map. -/
def Span.map (f : Int → Int) (x : Span) : Span := ⟨f x.lft, f x.rgt⟩

/-- A map that keeps the order of the ends of the intervals. -/
def KeepsOrder (f : Int → Int) (l : List Span) : Prop :=
  ∀ x ∈ l, ∀ y ∈ l, ∀ d ∈ [x.lft, x.rgt], ∀ e ∈ [y.lft, y.rgt], d < e → f d < f e

theorem KeepsOrder.lt_iff {f : Int → Int} (h : KeepsOrder f l) (hx : x ∈ l) (hy : y ∈ l) {d e : Int}
    (hd : d ∈ [x.lft, x.rgt]) (he : e ∈ [y.lft, y.rgt]) : f d < f e ↔ d < e := by
  constructor
  · intro hlt
    by_contra hge
    obtain heq | hgt := (not_lt.mp hge).eq_or_lt
    · rw [heq] at hlt
      exact lt_irrefl _ hlt
    · exact lt_asymm hlt (h y hy x hx e he d hd hgt)
  · exact h x hx y hy d hd e he

theorem KeepsOrder.inside_iff {f : Int → Int} (h : KeepsOrder f l) (hx : x ∈ l) (hy : y ∈ l) :
    Inside (x.map f) (y.map f) ↔ Inside x y := by
  unfold Inside Span.map
  rw [h.lt_iff hy hx (by simp) (by simp), h.lt_iff hx hy (by simp) (by simp)]

/-- A map that keeps the order of the ends keeps the tree. -/
theorem Nested.renumber {f : Int → Int} (h : Nested l) (hf : KeepsOrder f l) :
    Nested (l.map (Span.map f)) := by
  constructor
  · intro x hx
    obtain ⟨y, hy, rfl⟩ := List.mem_map.mp hx
    exact hf y hy y hy _ (by simp) _ (by simp) (h.proper y hy)
  · refine List.pairwise_map.mpr (h.apart.imp_of_mem ?_)
    intro x y hx hy hxy
    obtain h1 | h1 | h1 | h1 := hxy
    · exact Or.inl (hf x hx y hy _ (by simp) _ (by simp) h1)
    · exact Or.inr (Or.inl (hf y hy x hx _ (by simp) _ (by simp) h1))
    · exact Or.inr (Or.inr (Or.inl ((hf.inside_iff hx hy).mpr h1)))
    · exact Or.inr (Or.inr (Or.inr ((hf.inside_iff hy hx).mpr h1)))

/-! ## Moving a branch -/

/-- The number of positions a branch takes. -/
def width (a : Span) : Int := a.rgt - a.lft + 1

/-- The new place of an end outside the branch of `a`: room is made behind the
beginning of `q`, and the room of `a` is given up. -/
def shiftOut (a q : Span) (e : Int) : Int :=
  e + (if q.lft < e then width a else 0) - (if a.lft < e then width a else 0)

/-- The new place of an end in the branch of `a`. -/
def shiftIn (a q : Span) (e : Int) : Int :=
  e + (q.lft + 1 - a.lft) - (if a.lft < q.lft then width a else 0)

/-- The branch of `a` put first below `q`. -/
def relocate (a q x : Span) : Span :=
  if Branch a x then x.map (shiftIn a q) else x.map (shiftOut a q)

/-- An end outside the branch of `a`. -/
def Clear (a : Span) (e : Int) : Prop := e < a.lft ∨ a.rgt < e

theorem shiftOut_lt {d e : Int} (hap : a.lft < a.rgt) (hd : Clear a d)
    (he : Clear a e) : shiftOut a q d < shiftOut a q e ↔ d < e := by
  unfold shiftOut width Clear at *
  split <;> split <;> split <;> split <;> omega

theorem shiftIn_lt {d e : Int} : shiftIn a q d < shiftIn a q e ↔ d < e := by
  unfold shiftIn
  omega

theorem shiftOut_lt_shiftIn {d e : Int} (hq : Clear a q.lft) (hd : Clear a d)
    (he : a.lft ≤ e ∧ e ≤ a.rgt) : shiftOut a q d < shiftIn a q e ↔ d ≤ q.lft := by
  unfold shiftOut shiftIn width Clear at *
  split <;> split <;> split <;> omega

theorem shiftIn_lt_shiftOut {d e : Int} (hq : Clear a q.lft) (hd : Clear a d)
    (he : a.lft ≤ e ∧ e ≤ a.rgt) : shiftIn a q e < shiftOut a q d ↔ q.lft < d := by
  unfold shiftOut shiftIn width Clear at *
  split <;> split <;> split <;> omega

/-- A branch that is first below `q` stays where it is. -/
theorem relocate_first (h : Nested l) (ha : a ∈ l) (hx : x ∈ l) (hfirst : q.lft + 1 = a.lft) :
    relocate a q x = x := by
  unfold relocate Span.map
  by_cases hbx : Branch a x
  · rw [if_pos hbx]
    unfold shiftIn
    rw [if_neg (by omega)]
    have hend : ∀ e : Int, e + (q.lft + 1 - a.lft) - 0 = e := by
      intro e
      omega
    rw [hend, hend]
  · have hap := h.proper a ha
    have hex := h.outside ha hx hbx
    have hend : ∀ e : Int, (e < a.lft ∨ a.rgt < e) → shiftOut a q e = e := by
      intro e he
      unfold shiftOut
      split <;> split <;> omega
    rw [if_neg hbx, hend _ hex.1, hend _ hex.2]

theorem relocate_target_lft (hqa : ¬Branch a q) :
    (relocate a q q).lft = q.lft - if a.lft < q.lft then width a else 0 := by
  unfold relocate Span.map shiftOut
  rw [if_neg hqa]
  simp only [lt_irrefl, if_false, add_zero]

theorem relocate_target_le (hap : a.lft < a.rgt) (hqa : ¬Branch a q) :
    (relocate a q q).lft ≤ q.lft := by
  rw [relocate_target_lft hqa]
  unfold width
  by_cases hlt : a.lft < q.lft
  · rw [if_pos hlt]
    omega
  · rw [if_neg hlt]
    omega

/-- A branch moved begins at most right behind the beginning of its target. -/
theorem relocate_self_le (hap : a.lft < a.rgt) : (relocate a q a).lft ≤ q.lft + 1 := by
  have hroot : Branch a a := Or.inl rfl
  unfold relocate Span.map shiftIn width
  rw [if_pos hroot]
  by_cases hlt : a.lft < q.lft
  · rw [if_pos hlt]
    simp only
    omega
  · rw [if_neg hlt]
    simp only
    omega

/-- A branch that loses and gets nothing keeps its width. -/
theorem width_relocate (h : Nested l) (ha : a ∈ l) (hq : q ∈ l) (hx : x ∈ l) (hxq : x ≠ q)
    (hqx : ¬Inside q x) (hax : ¬Inside a x) :
    width (relocate a q x) = width x := by
  unfold relocate Span.map
  by_cases hbx : Branch a x
  · rw [if_pos hbx]
    unfold width shiftIn
    simp only
    omega
  · have hap := h.proper a ha
    have hqp := h.proper q hq
    have hxp := h.proper x hx
    have hxa : x ≠ a := fun heq => hbx (Or.inl heq)
    rw [if_neg hbx]
    have hq1 : q.lft < x.lft ↔ q.lft < x.rgt := by
      obtain h1 | h1 | h1 | h1 := h.apart_of_ne hx hq hxq
      · omega
      · omega
      · have := h1.1
        omega
      · exact absurd h1 hqx
    have ha1 : a.lft < x.lft ↔ a.lft < x.rgt := by
      obtain h1 | h1 | h1 | h1 := h.apart_of_ne hx ha hxa
      · omega
      · omega
      · have := h1.1
        omega
      · exact absurd h1 hax
    unfold width shiftOut
    simp only [hq1, ha1]
    omega

section Relocate

variable (h : Nested l) (ha : a ∈ l) (hq : q ∈ l) (hqa : ¬Branch a q)
include h ha hq hqa

theorem clear_target : Clear a q.lft := (h.outside ha hq hqa).1

theorem apart_relocate (hx : x ∈ l) (hy : y ∈ l) (hxy : Apart x y) :
    Apart (relocate a q x) (relocate a q y) := by
  have hap := h.proper a ha
  have hxp := h.proper x hx
  have hyp := h.proper y hy
  have hcq := clear_target h ha hq hqa
  unfold relocate Apart Inside Span.map at *
  by_cases hbx : Branch a x <;> by_cases hby : Branch a y
  · rw [if_pos hbx, if_pos hby]
    simp only [shiftIn_lt]
    exact hxy
  · have hex := hbx.ends hap hxp
    have hey := h.outside ha hy hby
    rw [if_pos hbx, if_neg hby]
    simp only [shiftOut_lt_shiftIn hcq hey.1 hex.1, shiftOut_lt_shiftIn hcq hey.2 hex.1,
      shiftOut_lt_shiftIn hcq hey.2 hex.2, shiftIn_lt_shiftOut hcq hey.1 hex.1,
      shiftIn_lt_shiftOut hcq hey.1 hex.2, shiftIn_lt_shiftOut hcq hey.2 hex.2]
    omega
  · have hex := h.outside ha hx hbx
    have hey := hby.ends hap hyp
    rw [if_neg hbx, if_pos hby]
    simp only [shiftOut_lt_shiftIn hcq hex.1 hey.1, shiftOut_lt_shiftIn hcq hex.2 hey.1,
      shiftOut_lt_shiftIn hcq hex.2 hey.2, shiftIn_lt_shiftOut hcq hex.1 hey.1,
      shiftIn_lt_shiftOut hcq hex.1 hey.2, shiftIn_lt_shiftOut hcq hex.2 hey.2]
    omega
  · have hex := h.outside ha hx hbx
    have hey := h.outside ha hy hby
    rw [if_neg hbx, if_neg hby]
    simp only [shiftOut_lt hap hex.2 hey.1, shiftOut_lt hap hey.2 hex.1,
      shiftOut_lt hap hey.1 hex.1, shiftOut_lt hap hex.2 hey.2,
      shiftOut_lt hap hex.1 hey.1, shiftOut_lt hap hey.2 hex.2]
    exact hxy

theorem proper_relocate (hx : x ∈ l) : (relocate a q x).lft < (relocate a q x).rgt := by
  have hap := h.proper a ha
  have hxp := h.proper x hx
  have hcq := clear_target h ha hq hqa
  unfold relocate Span.map
  by_cases hbx : Branch a x
  · rw [if_pos hbx]
    exact shiftIn_lt.mpr hxp
  · have hex := h.outside ha hx hbx
    rw [if_neg hbx]
    exact (shiftOut_lt hap hex.1 hex.2).mpr hxp

/-- A tree with a branch moved is a tree. -/
theorem nested_relocate : Nested (l.map (relocate a q)) := by
  constructor
  · intro x hx
    obtain ⟨y, hy, rfl⟩ := List.mem_map.mp hx
    exact proper_relocate h ha hq hqa hy
  · refine List.pairwise_map.mpr (h.apart.imp_of_mem ?_)
    intro x y hx hy hxy
    exact apart_relocate h ha hq hqa hx hy hxy

/-- What is around a node after a move: for a node of the branch what is around
it in the branch, then `q` and what is around `q`. -/
theorem inside_relocate (hx : x ∈ l) (hy : y ∈ l) :
    Inside (relocate a q x) (relocate a q y) ↔
      if Branch a x ∧ ¬Branch a y then y = q ∨ Inside q y else Inside x y := by
  have hap := h.proper a ha
  have hxp := h.proper x hx
  have hyp := h.proper y hy
  have hcq := clear_target h ha hq hqa
  by_cases hbx : Branch a x <;> by_cases hby : Branch a y
  · rw [if_neg fun hc => hc.2 hby]
    unfold relocate Inside Span.map
    rw [if_pos hbx, if_pos hby]
    simp only [shiftIn_lt]
  · have hex := hbx.ends hap hxp
    have hey := h.outside ha hy hby
    have hqp := h.proper q hq
    rw [if_pos ⟨hbx, hby⟩]
    have hends : Inside (relocate a q x) (relocate a q y) ↔ y.lft ≤ q.lft ∧ q.lft < y.rgt := by
      unfold relocate Inside Span.map
      rw [if_pos hbx, if_neg hby, shiftOut_lt_shiftIn hcq hey.1 hex.1,
        shiftIn_lt_shiftOut hcq hey.2 hex.2]
    rw [hends]
    constructor
    · intro hbetween
      by_cases hne : y = q
      · exact Or.inl hne
      · obtain h1 | h1 | h1 | h1 := h.apart_of_ne hy hq hne
        · omega
        · omega
        · have := h1.1
          omega
        · exact Or.inr h1
    · rintro (rfl | hin)
      · omega
      · have := hin.1
        have := hin.2
        omega
  · have hex := h.outside ha hx hbx
    have hey := hby.ends hap hyp
    rw [if_neg fun hc => hbx hc.1]
    have hends : ¬Inside (relocate a q x) (relocate a q y) := by
      unfold relocate Inside Span.map
      rw [if_neg hbx, if_pos hby, shiftIn_lt_shiftOut hcq hex.1 hey.1,
        shiftOut_lt_shiftIn hcq hex.2 hey.2]
      omega
    refine iff_of_false hends fun hin => hbx ?_
    obtain rfl | hya := hby
    · exact Or.inr hin
    · exact Or.inr (hin.trans hya)
  · have hex := h.outside ha hx hbx
    have hey := h.outside ha hy hby
    rw [if_neg fun hc => hbx hc.1]
    unfold relocate Inside Span.map
    rw [if_neg hbx, if_neg hby, shiftOut_lt hap hey.1 hex.1, shiftOut_lt hap hex.2 hey.2]

/-- A move within a branch leaves what is outside of it where it is. -/
theorem relocate_elsewhere (hc : c ∈ l) (hca : Branch c a) (hcq : Branch c q) (hx : x ∈ l)
    (hcx : ¬Branch c x) : relocate a q x = x := by
  have hcp := h.proper c hc
  have hae := hca.ends hcp (h.proper a ha)
  have hqe := hcq.ends hcp (h.proper q hq)
  have hout := h.outside hc hx hcx
  have hax : ¬Branch a x := by
    rintro (rfl | hxa)
    · exact hcx hca
    · obtain rfl | hac := hca
      · exact hcx (Or.inr hxa)
      · exact hcx (Or.inr (hxa.trans hac))
  have hend : ∀ e : Int, (e < c.lft ∨ c.rgt < e) → shiftOut a q e = e := by
    intro e he
    unfold shiftOut
    split <;> split <;> omega
  unfold relocate Span.map
  rw [if_neg hax, hend _ hout.1, hend _ hout.2]

/-- A move within a branch leaves its node where it is. -/
theorem relocate_around (hc : c ∈ l) (hca : Branch c a) (hcq : Branch c q) :
    relocate a q c = c := by
  have hcp := h.proper c hc
  have hae := hca.ends hcp (h.proper a ha)
  have hqe := hcq.ends hcp (h.proper q hq)
  have hap := h.proper a ha
  have hqp := h.proper q hq
  have hac : ¬Branch a c := by
    rintro (rfl | hin)
    · exact hqa hcq
    · obtain rfl | hac := hca
      · exact not_inside_self _ hin
      · exact hac.not_symm hin
  unfold relocate Span.map shiftOut
  rw [if_neg hac, if_neg (by omega), if_neg (by omega), if_pos (by omega), if_pos (by omega)]
  simp only [add_zero, sub_zero, add_sub_cancel_right]

/-- A move goes no further to the left than the leftmost end. -/
theorem le_relocate {m : Int} (hm : ∀ y ∈ l, m ≤ y.lft) (hx : x ∈ l) :
    m ≤ (relocate a q x).lft := by
  have hap := h.proper a ha
  have hma := hm a ha
  have hmq := hm q hq
  have hmx := hm x hx
  have hcq := clear_target h ha hq hqa
  unfold relocate Span.map
  by_cases hbx : Branch a x
  · have hex := hbx.ends hap (h.proper x hx)
    rw [if_pos hbx]
    unfold Clear at hcq
    unfold shiftIn width
    simp only
    split <;> omega
  · have hout := h.outside ha hx hbx
    rw [if_neg hbx]
    unfold shiftOut width
    simp only
    split <;> split <;> omega

/-- A move from the left or from within leaves nothing outside further right. -/
theorem relocate_lft_le (hx : x ∈ l) (hbx : ¬Branch a x) (hxq : ¬Inside x q)
    (hleft : a.lft < q.lft ∨ Inside a q) : (relocate a q x).lft ≤ x.lft := by
  have hap := h.proper a ha
  unfold relocate Span.map
  rw [if_neg hbx]
  have hout := h.outside ha hx hbx
  have hbehind : q.lft < x.lft → a.lft < x.lft := by
    intro hlt
    obtain hlt' | hin := hleft
    · omega
    · have hne : x ≠ q := by
        rintro rfl
        omega
      have := hin.2
      obtain h1 | h1 | h1 | h1 := h.apart_of_ne hx hq hne
      · have := h.proper x hx
        omega
      · omega
      · exact absurd h1 hxq
      · have := h1.1
        omega
  unfold shiftOut width
  simp only
  split <;> split <;> omega

theorem relocate_inj (hx : x ∈ l) (hy : y ∈ l) (heq : relocate a q x = relocate a q y) : x = y :=
  List.inj_on_of_nodup_map (nested_relocate h ha hq hqa).nodup hx hy heq

/-- After a move the node moved is directly below `q`, and every other node is
where it was. -/
theorem under_relocate (hx : x ∈ l) (hy : y ∈ l) :
    Under (l.map (relocate a q)) (relocate a q x) (relocate a q y) ↔
      if x = a then y = q else Under l x y := by
  have hin := fun {z w} (hz : z ∈ l) (hw : w ∈ l) =>
    inside_relocate h ha hq hqa (x := z) (y := w) hz hw
  have hbb : ∀ {z w}, z ∈ l → w ∈ l → Branch a w →
      (Inside (relocate a q z) (relocate a q w) ↔ Inside z w) := by
    intro z w hz hw hbw
    rw [hin hz hw, if_neg fun hc => hc.2 hbw]
  have hoo : ∀ {z w}, z ∈ l → w ∈ l → ¬Branch a z →
      (Inside (relocate a q z) (relocate a q w) ↔ Inside z w) := by
    intro z w hz hw hbz
    rw [hin hz hw, if_neg fun hc => hbz hc.1]
  have hbo : ∀ {z w}, z ∈ l → w ∈ l → Branch a z → ¬Branch a w →
      (Inside (relocate a q z) (relocate a q w) ↔ w = q ∨ Inside q w) := by
    intro z w hz hw hbz hbw
    rw [hin hz hw, if_pos ⟨hbz, hbw⟩]
  have hroot : Branch a a := Or.inl rfl
  -- around `a` nothing is in its branch
  have haout : ∀ w, Inside a w → ¬Branch a w := by
    rintro w haw (rfl | hwa)
    · exact not_inside_self _ haw
    · exact haw.not_symm hwa
  have hqout : ∀ w, w = q ∨ Inside q w → ¬Branch a w := by
    rintro w (rfl | hqw) hbw
    · exact hqa hbw
    · obtain rfl | hwa := hbw
      · exact hqa (Or.inr hqw)
      · exact hqa (Or.inr (hqw.trans hwa))
  have hforall : ∀ {z w}, (∀ c ∈ l.map (relocate a q), Inside (relocate a q z) c →
        c = relocate a q w ∨ Inside (relocate a q w) c) ↔
      ∀ c ∈ l, Inside (relocate a q z) (relocate a q c) →
        relocate a q c = relocate a q w ∨ Inside (relocate a q w) (relocate a q c) := by
    intro z w
    exact List.forall_mem_map
  unfold Under
  rw [hforall]
  by_cases hxa : x = a
  · subst hxa
    rw [if_pos rfl]
    constructor
    · rintro ⟨hxy, hall⟩
      have hby : ¬Branch x y := by
        intro hby
        have := (hbb hx hy hby).mp hxy
        exact haout y this hby
      obtain rfl | hqy := (hbo hx hy hroot hby).mp hxy
      · rfl
      · obtain heq | hyq := hall q hq ((hbo hx hq hroot hqa).mpr (Or.inl rfl))
        · exact (relocate_inj h ha hq hqa hq hy heq).symm
        · have := (hoo hy hq hby).mp hyq
          exact absurd this hqy.not_symm
    · rintro rfl
      refine ⟨(hbo hx hy hroot hqa).mpr (Or.inl rfl), fun c hc hxc => ?_⟩
      have hbc : ¬Branch x c := by
        intro hbc
        exact haout c ((hbb hx hc hbc).mp hxc) hbc
      obtain rfl | hqc := (hbo hx hc hroot hbc).mp hxc
      · exact Or.inl rfl
      · exact Or.inr ((hoo hy hc hqa).mpr hqc)
  · rw [if_neg hxa]
    by_cases hbx : Branch a x
    · have hxin : Inside x a := hbx.resolve_left hxa
      constructor
      · rintro ⟨hxy, hall⟩
        have hby : Branch a y := by
          by_contra hby
          obtain heq | hya := hall a ha ((hbb hx ha hroot).mpr hxin)
          · exact hby (Or.inl (relocate_inj h ha hq hqa ha hy heq).symm)
          · exact hby (Or.inr ((hbb hy ha hroot).mp hya))
        refine ⟨(hbb hx hy hby).mp hxy, fun c hc hxc => ?_⟩
        by_cases hbc : Branch a c
        · obtain heq | hyc := hall c hc ((hbb hx hc hbc).mpr hxc)
          · exact Or.inl (relocate_inj h ha hq hqa hc hy heq)
          · exact Or.inr ((hbb hy hc hbc).mp hyc)
        · have hac := hbx.inside_of_not hxc hbc h hx ha hc
          right
          obtain rfl | hya := hby
          · exact hac
          · exact hya.trans hac
      · rintro ⟨hxy, hall⟩
        have hby : Branch a y := by
          obtain rfl | hya := hall a ha hxin
          · exact hroot
          · exact Or.inr hya
        refine ⟨(hbb hx hy hby).mpr hxy, fun c hc hxc => ?_⟩
        by_cases hbc : Branch a c
        · obtain rfl | hyc := hall c hc ((hbb hx hc hbc).mp hxc)
          · exact Or.inl rfl
          · exact Or.inr ((hbb hy hc hbc).mpr hyc)
        · exact Or.inr ((hbo hy hc hby hbc).mpr ((hbo hx hc hbx hbc).mp hxc))
    · have hout : ∀ {c}, c ∈ l → Inside x c → ¬Branch a c := by
        rintro c hc hxc (rfl | hca)
        · exact hbx (Or.inr hxc)
        · exact hbx (Or.inr (hxc.trans hca))
      constructor
      · rintro ⟨hxy, hall⟩
        have hxy' := (hoo hx hy hbx).mp hxy
        refine ⟨hxy', fun c hc hxc => ?_⟩
        obtain heq | hyc := hall c hc ((hoo hx hc hbx).mpr hxc)
        · exact Or.inl (relocate_inj h ha hq hqa hc hy heq)
        · exact Or.inr ((hoo hy hc (hout hy hxy')).mp hyc)
      · rintro ⟨hxy, hall⟩
        refine ⟨(hoo hx hy hbx).mpr hxy, fun c hc hxc => ?_⟩
        obtain rfl | hyc := hall c hc ((hoo hx hc hbx).mp hxc)
        · exact Or.inl rfl
        · exact Or.inr ((hoo hy hc (hout hy hxy)).mpr hyc)

end Relocate

/-! ## Cutting out a branch -/

/-- The place of an end once the branch of `a` is gone. -/
def closeGap (a : Span) (e : Int) : Int := if e > a.rgt then e - width a else e

theorem closeGap_lt {d e : Int} (hap : a.lft < a.rgt) (hd : Clear a d) (he : Clear a e)
    (hlt : d < e) : closeGap a d < closeGap a e := by
  unfold closeGap width Clear at *
  split <;> split <;> omega

/-- What lies outside a branch keeps its order when the gap is closed. -/
theorem keepsOrder_closeGap {l' : List Span} (h : Nested l) (ha : a ∈ l) (hsub : ∀ x ∈ l', x ∈ l)
    (hout : ∀ x ∈ l', ¬Branch a x) : KeepsOrder (closeGap a) l' := by
  have hclear : ∀ x ∈ l', ∀ e ∈ [x.lft, x.rgt], Clear a e := by
    intro x hx e he
    have hends := h.outside ha (hsub x hx) (hout x hx)
    obtain rfl | he := List.mem_cons.mp he
    · exact hends.1
    · rw [List.mem_singleton.mp he]
      exact hends.2
  intro x hx y hy d hd e he hlt
  exact closeGap_lt (h.proper a ha) (hclear x hx d hd) (hclear y hy e he) hlt

/-- A tree without a branch is a tree. -/
theorem nested_closeGap {l' : List Span} (h : Nested l) (ha : a ∈ l) (hsub : l'.Sublist l)
    (hout : ∀ x ∈ l', ¬Branch a x) : Nested (l'.map (Span.map (closeGap a))) := by
  have hl' : Nested l' :=
    ⟨fun x hx => h.proper x (hsub.subset hx), h.apart.sublist hsub⟩
  exact hl'.renumber (keepsOrder_closeGap h ha (fun x hx => hsub.subset hx) hout)

/-! ## A new leaf -/

/-- The place of an end once there is room for a leaf behind `p`. -/
def openGap (p e : Int) : Int := if e > p then e + 2 else e

/-- The leaf behind `p`. -/
def leafAt (p : Int) : Span := ⟨p + 1, p + 2⟩

theorem openGap_lt {p d e : Int} : openGap p d < openGap p e ↔ d < e := by
  unfold openGap
  split <;> split <;> omega

theorem keepsOrder_openGap (p : Int) (l : List Span) : KeepsOrder (openGap p) l :=
  fun _ _ _ _ _ _ _ _ hlt => openGap_lt.mpr hlt

/-- What is around a new leaf. -/
theorem inside_leafAt {p : Int} :
    Inside (leafAt p) (x.map (openGap p)) ↔ x.lft ≤ p ∧ p < x.rgt := by
  unfold Inside leafAt Span.map openGap
  simp only
  split <;> split <;> omega

theorem not_inside_leafAt {p : Int} (hx : x.lft < x.rgt) :
    ¬Inside (x.map (openGap p)) (leafAt p) := by
  unfold Inside leafAt Span.map openGap
  simp only
  split <;> split <;> omega

/-- A tree with a new leaf is a tree. -/
theorem nested_leafAt (h : Nested l) (p : Int) :
    Nested (l.map (Span.map (openGap p)) ++ [leafAt p]) := by
  have hl := h.renumber (keepsOrder_openGap p l)
  constructor
  · intro x hx
    obtain hx | hx := List.mem_append.mp hx
    · exact hl.proper x hx
    · rw [List.mem_singleton.mp hx]
      unfold leafAt
      simp only
      omega
  · refine List.pairwise_append.mpr ⟨hl.apart, List.pairwise_singleton _ _, ?_⟩
    intro x' hx' y hy
    obtain ⟨x, hx, rfl⟩ := List.mem_map.mp hx'
    rw [List.mem_singleton.mp hy]
    have hxp := h.proper x hx
    unfold Apart Inside leafAt Span.map openGap
    simp only
    split <;> split <;> omega

/-- A new leaf changes nothing below or around the other nodes. -/
theorem under_leafAt (h : Nested l) (p : Int) (hx : x ∈ l) (hy : y ∈ l) :
    Under (l.map (Span.map (openGap p)) ++ [leafAt p]) (x.map (openGap p)) (y.map (openGap p)) ↔
      Under l x y := by
  have hin := fun {z w} (hz : z ∈ l) (hw : w ∈ l) =>
    (keepsOrder_openGap p l).inside_iff (x := z) (y := w) hz hw
  have hinj : ∀ {z w : Span}, z.map (openGap p) = w.map (openGap p) → z = w := by
    intro z w heq
    simp only [Span.map, Span.mk.injEq] at heq
    have hend : ∀ {d e : Int}, openGap p d = openGap p e → d = e := by
      intro d e hde
      unfold openGap at hde
      split at hde <;> split at hde <;> omega
    exact congrArg₂ Span.mk (hend heq.1) (hend heq.2)
  unfold Under
  rw [hin hx hy]
  refine and_congr_right fun _ => ⟨fun hall c hc hxc => ?_, fun hall c' hc' hxc => ?_⟩
  · obtain heq | hyc := hall _ (List.mem_append_left _ (List.mem_map_of_mem hc))
      ((hin hx hc).mpr hxc)
    · exact Or.inl (hinj heq)
    · exact Or.inr ((hin hy hc).mp hyc)
  · obtain hc' | hc' := List.mem_append.mp hc'
    · obtain ⟨c, hc, rfl⟩ := List.mem_map.mp hc'
      obtain rfl | hyc := hall c hc ((hin hx hc).mp hxc)
      · exact Or.inl rfl
      · exact Or.inr ((hin hy hc).mpr hyc)
    · rw [List.mem_singleton.mp hc'] at hxc
      exact absurd hxc (not_inside_leafAt (h.proper x hx))

end Base.NestedSets
