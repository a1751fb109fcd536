import Mathlib

/-!
# Dealing tickets

Tickets `0, 1, …` are dealt to receivers in rounds, below a limit. A receiver
gets a ticket in round `j` when its capacity is above `j`, or when no receiver
had capacity left after an earlier round.

* **Rounds** (`rounds`) over any kind of receiver, and `planeRounds`, which deals
  the same number of tickets to each.
* **Simulation** (`rounds_rel`, `planeRounds_rel`): who gets a ticket depends on
  the capacities alone.
* **Shares** (`Share`): the receivers that keep just their tickets. Every ticket is
  dealt once, and nobody gets more than his capacity before everybody has his
  (`rounds_dealt`, `planeRounds_dealt`).
-/

namespace Base.Deal

section

variable {ν : Type} (cap : ν → Nat) (give : Nat → ν → ν) (limit : Nat)

/-- One round from ticket `t` on: the receivers, the next ticket, and whether one
that got a ticket has capacity for another. -/
def round (j : Nat) (every : Bool) : List ν → Nat → List ν × Nat × Bool
  | [], t => ([], t, false)
  | n :: ns, t =>
    if t < limit then
      if j < cap n ∨ every then
        let r := round j every ns (t + 1)
        (give t n :: r.1, r.2.1, decide (j + 1 < cap n) || r.2.2)
      else
        let r := round j every ns t
        (n :: r.1, r.2.1, r.2.2)
    else (n :: ns, t, false)

/-- Rounds until the limit; `none` when there are more than `fuel`. -/
def rounds : Nat → Nat → Bool → List ν → Nat → Option (List ν)
  | 0, _, _, _, _ => none
  | fuel + 1, j, every, ns, t =>
    if t < limit then
      let r := round cap give limit j every ns t
      rounds fuel (j + 1) (every || !r.2.2) r.1 r.2.1
    else some ns

/-- Up to `k` tickets for one receiver. -/
def fill : Nat → ν → Nat → ν × Nat
  | 0, n, t => (n, t)
  | k + 1, n, t => if t < limit then fill k (give t n) (t + 1) else (n, t)

/-- One round of `plane` tickets each. -/
def planeRound (plane : Nat) : List ν → Nat → List ν × Nat
  | [], t => ([], t)
  | n :: ns, t =>
    if t < limit then
      let f := fill give limit plane n t
      let r := planeRound plane ns f.2
      (f.1 :: r.1, r.2)
    else (n :: ns, t)

/-- Rounds of `plane` tickets each until the limit; `none` when there are more than
`fuel`. -/
def planeRounds (plane : Nat) : Nat → List ν → Nat → Option (List ν × Nat)
  | 0, _, _ => none
  | fuel + 1, ns, t =>
    if t < limit then
      let r := planeRound give limit plane ns t
      planeRounds plane fuel r.1 r.2
    else some (ns, t)

end

/-! ## Simulation -/

section

variable {ν μ : Type} {cap : ν → Nat} {give : Nat → ν → ν} {cap' : μ → Nat}
  {give' : Nat → μ → μ} {limit : Nat} {R : ν → μ → Prop}

theorem round_rel (hcap : ∀ n m, R n m → cap n = cap' m)
    (hgive : ∀ t n m, t < limit → R n m → R (give t n) (give' t m)) {j : Nat} {every : Bool}
    {ns : List ν} {ms : List μ} {t : Nat} (h : List.Forall₂ R ns ms) :
    List.Forall₂ R (round cap give limit j every ns t).1 (round cap' give' limit j every ms t).1 ∧
      (round cap give limit j every ns t).2 = (round cap' give' limit j every ms t).2 := by
  induction h generalizing t with
  | nil => exact ⟨List.Forall₂.nil, rfl⟩
  | @cons n m ns ms hnm hrest ih =>
    simp only [round, hcap n m hnm]
    split
    · rename_i ht
      split
      · obtain ⟨hns, hr⟩ := @ih (t + 1)
        exact ⟨List.Forall₂.cons (hgive t n m ht hnm) hns, by rw [hr]⟩
      · obtain ⟨hns, hr⟩ := @ih t
        exact ⟨List.Forall₂.cons hnm hns, by rw [hr]⟩
    · exact ⟨List.Forall₂.cons hnm hrest, rfl⟩

theorem rounds_rel (hcap : ∀ n m, R n m → cap n = cap' m)
    (hgive : ∀ t n m, t < limit → R n m → R (give t n) (give' t m)) {fuel j : Nat} {every : Bool}
    {ns : List ν} {ms ms' : List μ} {t : Nat} (h : List.Forall₂ R ns ms)
    (hms : rounds cap' give' limit fuel j every ms t = some ms') :
    ∃ ns', rounds cap give limit fuel j every ns t = some ns' ∧ List.Forall₂ R ns' ms' := by
  induction fuel generalizing j every ns ms t with
  | zero => cases hms
  | succ fuel ih =>
    obtain ⟨hns, hr⟩ := @round_rel _ _ cap give cap' give' limit R hcap hgive j every ns ms t h
    simp only [rounds] at hms ⊢
    split
    · rename_i ht
      rw [if_pos ht] at hms
      rw [hr]
      exact ih hns hms
    · rename_i ht
      rw [if_neg ht] at hms
      obtain rfl := Option.some.inj hms
      exact ⟨ns, rfl, h⟩

theorem fill_rel (hgive : ∀ t n m, t < limit → R n m → R (give t n) (give' t m)) {k : Nat}
    {n : ν} {m : μ} {t : Nat} (h : R n m) :
    R (fill give limit k n t).1 (fill give' limit k m t).1 ∧
      (fill give limit k n t).2 = (fill give' limit k m t).2 := by
  induction k generalizing n m t with
  | zero => exact ⟨h, rfl⟩
  | succ k ih =>
    unfold fill
    split
    · rename_i ht
      exact ih (hgive t n m ht h)
    · exact ⟨h, rfl⟩

theorem planeRound_rel (hgive : ∀ t n m, t < limit → R n m → R (give t n) (give' t m))
    {plane : Nat} {ns : List ν} {ms : List μ} {t : Nat} (h : List.Forall₂ R ns ms) :
    List.Forall₂ R (planeRound give limit plane ns t).1 (planeRound give' limit plane ms t).1 ∧
      (planeRound give limit plane ns t).2 = (planeRound give' limit plane ms t).2 := by
  induction h generalizing t with
  | nil => exact ⟨List.Forall₂.nil, rfl⟩
  | @cons n m ns ms hnm hrest ih =>
    simp only [planeRound]
    split
    · obtain ⟨hn, ht⟩ := @fill_rel _ _ give give' limit R hgive plane n m t hnm
      obtain ⟨hns, hr⟩ := @ih (fill give' limit plane m t).2
      rw [ht]
      exact ⟨List.Forall₂.cons hn hns, hr⟩
    · exact ⟨List.Forall₂.cons hnm hrest, rfl⟩

theorem planeRounds_rel (hgive : ∀ t n m, t < limit → R n m → R (give t n) (give' t m))
    {plane fuel : Nat} {ns : List ν} {ms ms' : List μ} {t t' : Nat} (h : List.Forall₂ R ns ms)
    (hms : planeRounds give' limit plane fuel ms t = some (ms', t')) :
    ∃ ns', planeRounds give limit plane fuel ns t = some (ns', t') ∧ List.Forall₂ R ns' ms' := by
  induction fuel generalizing ns ms t with
  | zero => cases hms
  | succ fuel ih =>
    obtain ⟨hns, hr⟩ := @planeRound_rel _ _ give give' limit R hgive plane ns ms t h
    simp only [planeRounds] at hms ⊢
    split
    · rename_i ht
      rw [if_pos ht] at hms
      rw [hr]
      exact ih hns hms
    · rename_i ht
      rw [if_neg ht] at hms
      obtain ⟨rfl, rfl⟩ := Prod.mk.inj (Option.some.inj hms)
      exact ⟨ns, rfl, h⟩

end

/-! ## Shares -/

/-- A receiver that keeps its tickets. -/
structure Share where
  cap : Nat
  tickets : List Nat
deriving DecidableEq

namespace Share

/-- The ticket is kept. -/
def give (t : Nat) (s : Share) : Share := { s with tickets := s.tickets ++ [t] }

/-- A receiver with no ticket. -/
def empty (cap : Nat) : Share := ⟨cap, []⟩

/-- What one round can do to a receiver: it gets one of the round's tickets or none. -/
def Given (lo hi : Nat) (s s' : Share) : Prop :=
  s' = s ∨ ∃ x, lo ≤ x ∧ x < hi ∧ s' = s.give x

end Share

open Share

/-- All tickets that were dealt. -/
def dealt (ss : List Share) : List Nat := ss.flatMap Share.tickets

/-- Nobody got more than his capacity before everybody had his. -/
def Fair (ss : List Share) : Prop :=
  ∀ s ∈ ss, ∀ m x, s.tickets[m]? = some x → s.cap ≤ m →
    ∀ k ∈ ss, k.cap ≤ (k.tickets.filter (· < x)).length

variable {limit : Nat}

theorem round_le {j : Nat} {every : Bool} {ss : List Share} {t : Nat} (ht : t ≤ limit) :
    t ≤ (round Share.cap give limit j every ss t).2.1 ∧
      (round Share.cap give limit j every ss t).2.1 ≤ limit := by
  induction ss generalizing t with
  | nil => exact ⟨Nat.le_refl t, ht⟩
  | cons s ss ih =>
    simp only [round]
    split
    · rename_i hlt
      split
      · have h := @ih (t + 1) hlt
        exact ⟨Nat.le_of_succ_le h.1, h.2⟩
      · exact ih ht
    · exact ⟨Nat.le_refl t, ht⟩

/-- A round gives every receiver at most one ticket of the round. -/
theorem round_given {j : Nat} {every : Bool} {ss : List Share} {t : Nat} (ht : t ≤ limit) :
    List.Forall₂ (Given t (round Share.cap give limit j every ss t).2.1) ss
      (round Share.cap give limit j every ss t).1 := by
  induction ss generalizing t with
  | nil => exact List.Forall₂.nil
  | cons s ss ih =>
    simp only [round]
    split
    · rename_i hlt
      split
      · have hle := (@round_le limit j every ss (t + 1) hlt).1
        refine List.Forall₂.cons (.inr ⟨t, Nat.le_refl t, hle, rfl⟩) ?_
        refine (ih hlt).imp fun a b hab => ?_
        rcases hab with rfl | ⟨x, hlo, hhi, rfl⟩
        · exact .inl rfl
        · exact .inr ⟨x, Nat.le_of_succ_le hlo, hhi, rfl⟩
      · exact List.Forall₂.cons (.inl rfl) (ih ht)
    · refine List.forall₂_same.mpr fun a _ => .inl rfl

/-- A round deals the tickets from the first to the next. -/
theorem round_dealt {j : Nat} {every : Bool} {ss : List Share} {t : Nat} (ht : t ≤ limit) :
    (dealt (round Share.cap give limit j every ss t).1).Perm
      (dealt ss ++ List.range' t ((round Share.cap give limit j every ss t).2.1 - t)) := by
  induction ss generalizing t with
  | nil => simp [round, dealt]
  | cons s ss ih =>
    simp only [round]
    split
    · rename_i hlt
      split
      · have hle := (@round_le limit j every ss (t + 1) hlt).1
        have hrange : List.range' t ((round Share.cap give limit j every ss (t + 1)).2.1 - t) =
            t :: List.range' (t + 1)
              ((round Share.cap give limit j every ss (t + 1)).2.1 - (t + 1)) := by
          rw [← List.range'_succ]
          congr 1
          omega
        have hperm := @ih (t + 1) hlt
        simp only [dealt, List.flatMap_cons, hrange] at hperm ⊢
        show ((s.tickets ++ [t]) ++ _).Perm _
        rw [List.append_assoc, List.append_assoc, List.singleton_append]
        refine List.Perm.append_left _ ((hperm.cons t).trans ?_)
        exact List.perm_middle.symm
      · have hperm := @ih t ht
        simp only [dealt, List.flatMap_cons] at hperm ⊢
        rw [List.append_assoc]
        exact hperm.append_left _
    · simp [dealt]

/-- The state before round `j`. -/
def Level (j : Nat) (every : Bool) (ss : List Share) : Prop :=
  if every then ss ≠ [] ∧ ∀ s ∈ ss, s.cap ≤ s.tickets.length
  else (∀ s ∈ ss, s.tickets.length = min j s.cap) ∧ ∃ s ∈ ss, j < s.cap

/-- A round deals a ticket. -/
theorem round_progress {j : Nat} {every : Bool} {ss : List Share} {t : Nat} (ht : t < limit)
    (h : ∃ s ∈ ss, j < s.cap ∨ every) :
    t < (round Share.cap give limit j every ss t).2.1 := by
  induction ss with
  | nil =>
    obtain ⟨s, hs, -⟩ := h
    cases hs
  | cons s ss ih =>
    simp only [round, if_pos ht]
    by_cases hgets : j < s.cap ∨ every = true
    · rw [if_pos hgets]
      exact (@round_le limit j every ss (t + 1) ht).1
    · rw [if_neg hgets]
      obtain ⟨k, hk, hcap⟩ := h
      refine ih ⟨k, ?_, hcap⟩
      rcases List.mem_cons.mp hk with rfl | hk
      · exact absurd hcap hgets
      · exact hk

/-- A round that fills capacities one higher, and reached every receiver. -/
theorem round_level {j : Nat} {ss : List Share} {t : Nat}
    (h : ∀ s ∈ ss, s.tickets.length = min j s.cap) :
    (∀ s ∈ (round Share.cap give limit j false ss t).1, s.tickets.length ≤ s.cap) ∧
      ((round Share.cap give limit j false ss t).2.1 < limit →
        (∀ s ∈ (round Share.cap give limit j false ss t).1,
          s.tickets.length = min (j + 1) s.cap) ∧
        ((round Share.cap give limit j false ss t).2.2 = true ↔
          ∃ s ∈ (round Share.cap give limit j false ss t).1, j + 1 < s.cap)) := by
  induction ss generalizing t with
  | nil => simp [round]
  | cons s ss ih =>
    have hs := h s List.mem_cons_self
    have hss := fun k hk => h k (List.mem_cons_of_mem _ hk)
    simp only [round]
    split
    · split
      · rename_i hgets
        obtain ⟨hle, hfull⟩ := @ih (t + 1) hss
        have hj : j < s.cap := by simpa using hgets
        have hlen : (s.give t).tickets.length = min (j + 1) s.cap := by
          simp only [give, List.length_append, List.length_singleton, hs]
          rw [Nat.min_eq_left (Nat.le_of_lt hj), Nat.min_eq_left hj]
        refine ⟨?_, fun hlt => ⟨?_, ?_⟩⟩
        · simp only [List.mem_cons, forall_eq_or_imp]
          exact ⟨hlen.trans_le (Nat.min_le_right _ _), hle⟩
        · simp only [List.mem_cons, forall_eq_or_imp]
          exact ⟨hlen, (hfull hlt).1⟩
        · simp only [Bool.or_eq_true, decide_eq_true_eq, (hfull hlt).2, List.mem_cons,
            exists_eq_or_imp]
          rfl
      · rename_i hgets
        obtain ⟨hle, hfull⟩ := @ih t hss
        have hj : s.cap ≤ j := by simpa using hgets
        refine ⟨?_, fun hlt => ⟨?_, ?_⟩⟩
        · simp only [List.mem_cons, forall_eq_or_imp]
          exact ⟨hs.trans_le (Nat.min_le_right _ _), hle⟩
        · simp only [List.mem_cons, forall_eq_or_imp]
          refine ⟨?_, (hfull hlt).1⟩
          rw [hs, Nat.min_eq_right hj, Nat.min_eq_right (Nat.le_succ_of_le hj)]
        · simp only [(hfull hlt).2, List.mem_cons, exists_eq_or_imp]
          have hno : ¬ j + 1 < s.cap := by omega
          simp [hno]
    · rename_i hlimit
      refine ⟨fun k hk => (h k hk).trans_le (Nat.min_le_right _ _), fun hlt => absurd hlt hlimit⟩

/-- Receivers that keep what they have and get tickets from `t` on. -/
theorem Share.Given.cap_eq {lo hi : Nat} {s s' : Share} (h : Given lo hi s s') :
    s'.cap = s.cap := by
  rcases h with rfl | ⟨x, -, -, rfl⟩ <;> rfl

theorem Share.Given.length_le {lo hi : Nat} {s s' : Share} (h : Given lo hi s s') :
    s.tickets.length ≤ s'.tickets.length := by
  rcases h with rfl | ⟨x, -, -, rfl⟩
  · exact Nat.le_refl _
  · simp [Share.give]

/-- The tickets below a new one were dealt before the round, or in it. -/
theorem Share.Given.filter_le {lo hi x : Nat} {s s' : Share} (h : Given lo hi s s') :
    (s.tickets.filter (· < x)).length ≤ (s'.tickets.filter (· < x)).length := by
  rcases h with rfl | ⟨y, -, -, rfl⟩
  · exact Nat.le_refl _
  · simp [Share.give, List.filter_append]

theorem exists_of_mem_right {α β : Type} {R : α → β → Prop} {as : List α} {bs : List β}
    (h : List.Forall₂ R as bs) {b : β} (hb : b ∈ bs) : ∃ a ∈ as, R a b := by
  induction h with
  | nil => cases hb
  | @cons a b' as bs hab _ ih =>
    rcases List.mem_cons.mp hb with rfl | hb
    · exact ⟨a, List.mem_cons_self, hab⟩
    · obtain ⟨c, hc, hcb⟩ := ih hb
      exact ⟨c, List.mem_cons_of_mem _ hc, hcb⟩

theorem exists_of_mem_left {α β : Type} {R : α → β → Prop} {as : List α} {bs : List β}
    (h : List.Forall₂ R as bs) {a : α} (ha : a ∈ as) : ∃ b ∈ bs, R a b := by
  obtain ⟨b, hb, hab⟩ := exists_of_mem_right h.flip ha
  exact ⟨b, hb, hab⟩

theorem map_cap_of_given {lo hi : Nat} {ss ss' : List Share}
    (h : List.Forall₂ (Given lo hi) ss ss') : ss'.map Share.cap = ss.map Share.cap := by
  induction h with
  | nil => rfl
  | cons hs _ ih => rw [List.map_cons, List.map_cons, ih, Share.Given.cap_eq hs]

/-- A round after which everybody has his capacity stays fair. -/
theorem fair_of_given {lo hi : Nat} {ss ss' : List Share}
    (h : List.Forall₂ (Given lo hi) ss ss') (hfair : Fair ss)
    (hlt : ∀ s ∈ ss, ∀ x ∈ s.tickets, x < lo)
    (hcap : (∀ s ∈ ss', s.tickets.length ≤ s.cap) ∨ ∀ s ∈ ss, s.cap ≤ s.tickets.length) :
    Fair ss' := by
  intro s' hs' m x hx hm k' hk'
  obtain ⟨s, hs, hgiven⟩ := exists_of_mem_right h hs'
  obtain ⟨k, hk, hkgiven⟩ := exists_of_mem_right h hk'
  have hmlen : m < s'.tickets.length := (List.getElem?_eq_some_iff.mp hx).1
  rcases hcap with hall | hall
  · have := hall s' hs'
    omega
  · by_cases hold : m < s.tickets.length
    · -- a ticket from before the round
      have hxs : s.tickets[m]? = some x := by
        rcases hgiven with rfl | ⟨y, -, -, rfl⟩
        · exact hx
        · rwa [Share.give, List.getElem?_append_left hold] at hx
      have hle := hfair s hs m x hxs (by rwa [hgiven.cap_eq] at hm) k hk
      rw [hkgiven.cap_eq]
      exact hle.trans hkgiven.filter_le
    · -- a ticket of the round is above all tickets from before
      have hlo : lo ≤ x := by
        rcases hgiven with rfl | ⟨y, hlo, -, rfl⟩
        · exact absurd hmlen hold
        · rw [Share.give, List.getElem?_append_right (by omega)] at hx
          have hxy := List.mem_singleton.mp (List.mem_of_getElem? hx)
          omega
      have hfilter : k.tickets.filter (· < x) = k.tickets :=
        List.filter_eq_self.mpr fun y hy => by
          have := hlt k hk y hy
          simp only [decide_eq_true_eq]
          omega
      rw [hkgiven.cap_eq]
      refine (hall k hk).trans ?_
      have hle := @Share.Given.filter_le lo hi x k k' hkgiven
      rwa [hfilter] at hle

/-- Whoever has more than his capacity got it after everybody had his. -/
theorem Fair.cap_le {ss : List Share} (h : Fair ss) {s k : Share} (hs : s ∈ ss)
    (hmore : s.cap < s.tickets.length) (hk : k ∈ ss) : k.cap ≤ k.tickets.length :=
  (h s hs s.cap _ (List.getElem?_eq_getElem hmore) (Nat.le_refl _) k hk).trans
    (List.length_filter_le _ _)

theorem range'_split {a b c : Nat} (hab : a ≤ b) (hbc : b ≤ c) :
    List.range' a (c - a) = List.range' a (b - a) ++ List.range' b (c - b) := by
  obtain ⟨m, rfl⟩ := Nat.exists_eq_add_of_le hab
  obtain ⟨n, rfl⟩ := Nat.exists_eq_add_of_le hbc
  rw [Nat.add_sub_cancel_left, Nat.add_sub_cancel_left, List.range'_append_1]
  congr 1
  omega

/-- The tickets up to the next one, when those of a round are added. -/
theorem perm_range {ds ds' : List Nat} {t t' : Nat} (hle : t ≤ t')
    (h : ds'.Perm (ds ++ List.range' t (t' - t))) (hds : ds.Perm (List.range t)) :
    ds'.Perm (List.range t') := by
  have hsplit : List.range t' = List.range t ++ List.range' t (t' - t) := by
    rw [List.range_eq_range', List.range_eq_range']
    exact range'_split (Nat.zero_le t) hle
  rw [hsplit]
  exact h.trans (hds.append_right _)

/-- What holds before round `j` holds before the next one, unless the limit is reached. -/
theorem round_next {j : Nat} {every : Bool} {ss : List Share} {t : Nat} (ht : t ≤ limit)
    (hlevel : Level j every ss)
    (hlt : (round Share.cap give limit j every ss t).2.1 < limit) :
    Level (j + 1) (every || !(round Share.cap give limit j every ss t).2.2)
      (round Share.cap give limit j every ss t).1 := by
  have hgiven := @round_given limit j every ss t ht
  have hne : ss ≠ [] → (round Share.cap give limit j every ss t).1 ≠ [] := by
    intro hss hnil
    have hlen := hgiven.length_eq
    rw [hnil] at hlen
    exact hss (List.length_eq_zero_iff.mp hlen)
  cases every with
  | true =>
    obtain ⟨hss, hfull⟩ := hlevel
    refine ⟨hne hss, fun s' hs' => ?_⟩
    obtain ⟨s, hs, hsgiven⟩ := exists_of_mem_right hgiven hs'
    rw [Share.Given.cap_eq hsgiven]
    exact (hfull s hs).trans (Share.Given.length_le hsgiven)
  | false =>
    obtain ⟨hlen, s, hs, -⟩ := hlevel
    obtain ⟨hlen', hspace⟩ := (@round_level limit j ss t hlen).2 hlt
    cases hroom : (round Share.cap give limit j false ss t).2.2 with
    | true => exact ⟨hlen', hspace.mp hroom⟩
    | false =>
      refine ⟨hne (List.ne_nil_of_mem hs), fun s' hs' => ?_⟩
      have hcap : ¬ j + 1 < s'.cap := by
        intro hj
        have := hspace.mpr ⟨s', hs', hj⟩
        rw [hroom] at this
        cases this
      rw [hlen' s' hs']
      omega

/-- Dealing ends; every ticket is dealt once, and fairly. -/
theorem rounds_dealt {fuel j : Nat} {every : Bool} {ss : List Share} {t : Nat}
    (ht : t ≤ limit) (hfuel : limit - t < fuel) (hlevel : t < limit → Level j every ss)
    (hperm : (dealt ss).Perm (List.range t)) (hfair : Fair ss) :
    ∃ ss', rounds Share.cap give limit fuel j every ss t = some ss' ∧
      (dealt ss').Perm (List.range limit) ∧ Fair ss' ∧
      ss'.map Share.cap = ss.map Share.cap := by
  induction fuel generalizing j every ss t with
  | zero => exact absurd hfuel (Nat.not_lt_zero _)
  | succ fuel ih =>
    simp only [rounds]
    split
    · rename_i hlt
      have hnow := hlevel hlt
      have hle := @round_le limit j every ss t ht
      have hgiven := @round_given limit j every ss t ht
      have hgets : ∃ s ∈ ss, j < s.cap ∨ every = true := by
        cases every with
        | true =>
          obtain ⟨s, hs⟩ := List.exists_mem_of_ne_nil ss hnow.1
          exact ⟨s, hs, .inr rfl⟩
        | false =>
          obtain ⟨s, hs, hj⟩ := hnow.2
          exact ⟨s, hs, .inl hj⟩
      have hprogress := round_progress hlt hgets
      have hbelow : ∀ s ∈ ss, ∀ x ∈ s.tickets, x < t := fun s hs x hx =>
        List.mem_range.mp (hperm.mem_iff.mp (List.mem_flatMap.mpr ⟨s, hs, hx⟩))
      have hfair' := fair_of_given hgiven hfair hbelow (by
        cases every with
        | true => exact .inr hnow.2
        | false => exact .inl (@round_level limit j ss t hnow.1).1)
      obtain ⟨ss', hrun, hperm', hfair'', hcaps⟩ := ih hle.2 (by omega)
        (fun hlt' => round_next ht hnow hlt')
        (perm_range hle.1 (@round_dealt limit j every ss t ht) hperm) hfair'
      exact ⟨ss', hrun, hperm', hfair'', hcaps.trans (map_cap_of_given hgiven)⟩
    · rename_i hend
      obtain rfl : t = limit := by omega
      exact ⟨ss, rfl, hperm, hfair, rfl⟩

theorem fill_eq {k : Nat} {s : Share} {t : Nat} (ht : t ≤ limit) :
    fill give limit k s t =
      ({ s with tickets := s.tickets ++ List.range' t (min (t + k) limit - t) },
        min (t + k) limit) := by
  induction k generalizing s t with
  | zero =>
    have hmin : min (t + 0) limit = t := Nat.min_eq_left ht
    rw [fill, hmin, Nat.sub_self]
    simp
  | succ k ih =>
    rw [fill]
    split
    · rename_i hlt
      have hmin : t + 1 + k = t + (k + 1) := by omega
      rw [ih hlt, hmin]
      have hrange : List.range' t (min (t + (k + 1)) limit - t) =
          t :: List.range' (t + 1) (min (t + (k + 1)) limit - (t + 1)) := by
        rw [← List.range'_succ]
        congr 1
        omega
      rw [hrange]
      simp [give]
    · have hend : t = limit := by omega
      have hmin : min (t + (k + 1)) limit = t := by omega
      rw [hmin, Nat.sub_self]
      simp

theorem planeRound_le {plane : Nat} {ss : List Share} {t : Nat} (ht : t ≤ limit) :
    t ≤ (planeRound give limit plane ss t).2 ∧ (planeRound give limit plane ss t).2 ≤ limit := by
  induction ss generalizing t with
  | nil => exact ⟨Nat.le_refl t, ht⟩
  | cons s ss ih =>
    simp only [planeRound]
    split
    · rename_i hlt
      rw [fill_eq ht]
      have h := @ih (min (t + plane) limit) (Nat.min_le_right _ _)
      exact ⟨Nat.le_trans (by omega) h.1, h.2⟩
    · exact ⟨Nat.le_refl t, ht⟩

theorem planeRound_dealt {plane : Nat} {ss : List Share} {t : Nat} (ht : t ≤ limit) :
    (dealt (planeRound give limit plane ss t).1).Perm
        (dealt ss ++ List.range' t ((planeRound give limit plane ss t).2 - t)) ∧
      (planeRound give limit plane ss t).1.map Share.cap = ss.map Share.cap := by
  induction ss generalizing t with
  | nil => simp [planeRound, dealt]
  | cons s ss ih =>
    simp only [planeRound]
    split
    · rename_i hlt
      rw [fill_eq ht]
      have hmin : min (t + plane) limit ≤ limit := Nat.min_le_right _ _
      have hle := @planeRound_le limit plane ss _ hmin
      obtain ⟨hperm, hcaps⟩ := @ih _ hmin
      refine ⟨?_, by rw [List.map_cons, List.map_cons, hcaps]⟩
      have hrange : List.range' t ((planeRound give limit plane ss
            (min (t + plane) limit)).2 - t) =
          List.range' t (min (t + plane) limit - t) ++
            List.range' (min (t + plane) limit) ((planeRound give limit plane ss
              (min (t + plane) limit)).2 - min (t + plane) limit) :=
        range'_split (by omega) hle.1
      simp only [dealt, List.flatMap_cons, hrange] at hperm ⊢
      rw [List.append_assoc, List.append_assoc]
      refine List.Perm.append_left _ ?_
      refine (hperm.append_left _).trans ?_
      rw [← List.append_assoc, ← List.append_assoc]
      exact List.perm_append_comm.append_right _
    · simp [dealt]

/-- Dealing in planes ends, and every ticket is dealt once. -/
theorem planeRounds_dealt {plane fuel : Nat} {ss : List Share} {t : Nat} (hplane : 0 < plane)
    (hne : ss ≠ []) (ht : t ≤ limit) (hfuel : limit - t < fuel)
    (hperm : (dealt ss).Perm (List.range t)) :
    ∃ ss', planeRounds give limit plane fuel ss t = some (ss', limit) ∧
      (dealt ss').Perm (List.range limit) ∧ ss'.map Share.cap = ss.map Share.cap := by
  induction fuel generalizing ss t with
  | zero => exact absurd hfuel (Nat.not_lt_zero _)
  | succ fuel ih =>
    simp only [planeRounds]
    split
    · rename_i hlt
      have hle := @planeRound_le limit plane ss t ht
      obtain ⟨hround, hcaps⟩ := @planeRound_dealt limit plane ss t ht
      have hprogress : t < (planeRound give limit plane ss t).2 := by
        cases ss with
        | nil => exact absurd rfl hne
        | cons s ss =>
          simp only [planeRound, if_pos hlt, fill_eq ht]
          exact Nat.lt_of_lt_of_le (by omega)
            (@planeRound_le limit plane ss (min (t + plane) limit) (Nat.min_le_right _ _)).1
      have hne' : (planeRound give limit plane ss t).1 ≠ [] := by
        intro hnil
        rw [hnil] at hcaps
        exact hne (List.map_eq_nil_iff.mp hcaps.symm)
      obtain ⟨ss', hrun, hperm', hcaps'⟩ := ih hne' hle.2 (by omega)
        (perm_range hle.1 hround hperm)
      exact ⟨ss', hrun, hperm', hcaps'.trans hcaps⟩
    · obtain rfl : t = limit := by omega
      exact ⟨ss, rfl, hperm, rfl⟩

end Base.Deal
